import Dodb.Btree.FormatProofs

/-! Pages read from arbitrary bytes.

The decoder of a slotted page takes its slots in any order and its records anywhere
behind the slots, as long as no two overlap; the encoder packs records against the end.
Records that do not overlap take no more room packed than where they lay
(`sum_length_le`), so whatever decodes is a page that can be stored
(`storable_of_decode`): it encodes again, and to something that reads back the same. -/
namespace Dodb
open Lib

theorem readLe_eq_ok {width : Nat} {bytes : Bytes} {offset n : Nat} (h : readLe width bytes offset = .ok n) :
    offset + width ≤ bytes.length ∧ n = ofLe (slice bytes offset width) := by
  simp only [readLe, except_bind_eq_ok, ensure_eq_ok] at h
  obtain ⟨_, hle, heq⟩ := h
  exact ⟨hle, (Except.ok.inj heq).symm⟩

/-- A field of `width` bytes holds a number of that width. -/
theorem readLe_lt {width : Nat} {bytes : Bytes} {offset n : Nat} (h : readLe width bytes offset = .ok n) :
    n < 256 ^ width := by
  obtain ⟨hle, rfl⟩ := readLe_eq_ok h
  have := ofLe_lt (slice bytes offset width)
  rwa [length_slice _ _ _ hle] at this

theorem readU64_le {bytes : Bytes} {offset n : Nat} (h : readU64 bytes offset = .ok n) : n ≤ u64Max :=
  Nat.le_sub_one_of_lt (readLe_lt h)

theorem readU16_le {bytes : Bytes} {offset n : Nat} (h : readU16 bytes offset = .ok n) : n ≤ u16Max :=
  Nat.le_sub_one_of_lt (readLe_lt h)

/-! ### Records that do not overlap -/

namespace RecordCodec

theorem nonOverlapping_cons {a : Nat × Nat} {rest : List (Nat × Nat)} (h : nonOverlapping (a :: rest) = true)
    (hrest : ∀ r ∈ rest, r.1 ≤ r.2) : nonOverlapping rest = true ∧ ∀ r ∈ rest, a.2 ≤ r.1 := by
  induction rest generalizing a with
  | nil => exact ⟨rfl, fun r hr => nomatch hr⟩
  | cons b rest ih =>
    rw [nonOverlapping, Bool.and_eq_true, decide_eq_true_eq] at h
    obtain ⟨hab, hb⟩ := h
    refine ⟨hb, fun r hr => ?_⟩
    rcases List.mem_cons.mp hr with rfl | hr
    · exact hab
    · have hbb := hrest b List.mem_cons_self
      have hbr := (ih hb fun r hr => hrest r (List.mem_cons_of_mem _ hr)).2 r hr
      omega

/-- Ranges in order that lie between `lo` and `hi` and do not overlap are no longer together than
what they lie in. -/
theorem sum_length_le {lo hi : Nat} {ranges : List (Nat × Nat)} (hlo : lo ≤ hi)
    (h : nonOverlapping ranges = true) (hin : ∀ r ∈ ranges, lo ≤ r.1 ∧ r.1 ≤ r.2 ∧ r.2 ≤ hi) :
    (ranges.map fun r => r.2 - r.1).sum ≤ hi - lo := by
  induction ranges generalizing lo with
  | nil => exact Nat.zero_le _
  | cons a rest ih =>
    obtain ⟨halo, haa, hahi⟩ := hin a List.mem_cons_self
    have hin' : ∀ r ∈ rest, r.1 ≤ r.2 ∧ r.2 ≤ hi := fun r hr => (hin r (List.mem_cons_of_mem _ hr)).2
    obtain ⟨hrest, hbehind⟩ := nonOverlapping_cons h fun r hr => (hin' r hr).1
    have := ih hahi hrest fun r hr => ⟨hbehind r hr, hin' r hr⟩
    rw [List.map_cons, List.sum_cons]
    omega

variable {E : Type} {codec : RecordCodec E} {Valid : E → Prop} {size : E → Nat}

/-- What a record decodes to is `Valid`, and `size` is the length it was found in. -/
def Admits (codec : RecordCodec E) (Valid : E → Prop) (size : E → Nat) : Prop :=
  ∀ bytes keyLength e, codec.decodeRecord bytes keyLength = .ok e → keyLength ≤ u16Max → Valid e ∧ bytes.length = size e

theorem decodeSlot_eq_ok (hadmits : codec.Admits Valid size) {body : Bytes} {start index : Nat}
    {slot : (Nat × Nat) × E} (h : codec.decodeSlot body start index = .ok slot) :
    Valid slot.2 ∧ size slot.2 = slot.1.2 - slot.1.1 ∧ start ≤ slot.1.1 ∧ slot.1.1 ≤ slot.1.2 ∧
      slot.1.2 ≤ body.length := by
  simp only [decodeSlot, except_bind_eq_ok, ensure_eq_ok] at h
  obtain ⟨offset, hoffset, length, hlength, keyLength, hkey, _, ⟨hstart, hend, _⟩, entry, hentry, heq⟩ := h
  cases heq
  obtain ⟨hvalid, hsize⟩ := hadmits _ _ _ hentry (readU16_le hkey)
  rw [length_slice _ _ _ hend] at hsize
  exact ⟨hvalid, hsize.symm.trans (Nat.add_sub_cancel_left ..).symm, hstart, Nat.le_add_right .., hend⟩

/-- The entries of a page that decodes can be encoded, under any link. -/
theorem Lawful.encode_isOk_of_decode (law : codec.Lawful Valid size) {Found : E → Prop}
    (hfound : ∀ e, Found e → Valid e) (hadmits : codec.Admits Found size)
    {checkLink : Nat → Bool → Result Unit} {body : Bytes} {link : Nat} {entries : List E}
    (h : codec.decode checkLink body = .ok (link, entries)) :
    (∀ link', (codec.encode link' entries).isOk = true) ∧ (∀ e ∈ entries, Found e) ∧ link ≤ u64Max ∧
      ∃ reserved, checkLink link reserved = .ok () := by
  simp only [decode, except_bind_eq_ok, ensure_eq_ok, checkBodySize] at h
  obtain ⟨_, hbody, _, _, _, _, count, _, slotEnd, _, start, _, link', hlink, _, hcheck, _,
    ⟨hslotEnd, hroom, hstart, _⟩, slots, hslots, _, hoverlap, _, hordered, heq⟩ := h
  cases heq
  obtain ⟨hlen, hall⟩ := except_mapM_eq_ok hslots
  rw [List.length_range] at hlen
  have hslot : ∀ slot ∈ slots, Found slot.2 ∧ size slot.2 = slot.1.2 - slot.1.1 ∧ start ≤ slot.1.1 ∧
      slot.1.1 ≤ slot.1.2 ∧ slot.1.2 ≤ body.length := by
    intro slot hmem
    obtain ⟨index, _, hindex⟩ := hall slot hmem
    exact decodeSlot_eq_ok hadmits hindex
  have hmem : ∀ e ∈ slots.map Prod.snd, Found e := by
    intro e he
    obtain ⟨slot, hs, rfl⟩ := List.mem_map.mp he
    exact (hslot slot hs).1
  -- the ranges in order take as much as the records packed
  have hperm := List.mergeSort_perm (slots.map Prod.fst) rangeLe
  have hsum : ((slots.map Prod.snd).map size).sum ≤ body.length - start := by
    have hranges : ((slots.map Prod.snd).map size) = (slots.map Prod.fst).map fun r => r.2 - r.1 := by
      rw [List.map_map, List.map_map]
      exact List.map_congr_left fun slot hs => (hslot slot hs).2.1
    rw [hranges, ← (hperm.map fun r : Nat × Nat => r.2 - r.1).sum_eq]
    refine sum_length_le hstart hoverlap fun r hr => ?_
    obtain ⟨slot, hs, rfl⟩ := List.mem_map.mp (hperm.mem_iff.mp hr)
    exact (hslot slot hs).2.2
  refine ⟨fun link => (law.encode_isOk link _).mpr ⟨fun e he => hfound e (hmem e he), ?_, ?_⟩, hmem, readU64_le hlink,
    _, hcheck⟩
  · exact (strictlyOrdered_iff _).mp hordered
  · rw [used_eq, List.length_map, hlen]
    omega

end RecordCodec

/-! ### Records -/

theorem decodeLeafValue_eq_ok {bytes : Bytes} {keyEnd valueLength aux : Nat} {flags : UInt8} {value : Option ValueRef}
    (h : decodeLeafValue bytes keyEnd valueLength aux flags = .ok value) (hmax : valueLength ≤ maxValueSize)
    (haux : aux ≤ u64Max) :
    bytes.length = keyEnd + inlineLength value ∧ ∀ revision ≤ u64Max, ∀ key, LeafEntry.Sound ⟨key, revision, value⟩ := by
  unfold decodeLeafValue at h
  split at h
  · simp only [except_bind_eq_ok, ensure_eq_ok] at h
    obtain ⟨_, ⟨_, _, hlen⟩, heq⟩ := h
    cases heq
    exact ⟨hlen, fun revision hrevision key => ⟨hrevision, trivial⟩⟩
  · split at h
    · simp only [except_bind_eq_ok, ensure_eq_ok] at h
      obtain ⟨_, ⟨hlen, _⟩, heq⟩ := h
      cases heq
      have hslice : (slice bytes keyEnd valueLength).length = valueLength := length_slice _ _ _ hlen.le
      refine ⟨?_, fun revision hrevision key => ⟨hrevision, ?_⟩⟩
      · show bytes.length = keyEnd + (slice bytes keyEnd valueLength).length
        rw [hslice, hlen]
      · show (slice bytes keyEnd valueLength).length ≤ maxValueSize
        rwa [hslice]
    · split at h
      · simp only [except_bind_eq_ok, ensure_eq_ok] at h
        obtain ⟨_, ⟨hlen, hne, hpos⟩, heq⟩ := h
        cases heq
        refine ⟨hlen, fun revision hrevision key => ⟨hrevision, ?_, hpos, hmax⟩⟩
        exact lt_of_le_of_ne haux hne
      · cases h

theorem admits_leafCodec : leafCodec.Admits
    (fun e => (e.key.length ≤ u16Max ∧ Canonical e.key) ∧ e.Sound) leafRecordSize := by
  intro bytes keyLength e h hmax
  simp only [leafCodec, decodeLeafRecord, except_bind_eq_ok, ensure_eq_ok, checkCanonical_eq_ok] at h
  obtain ⟨revision, hrevision, valueLength, _, _, hvalueMax, aux, haux, _, _, keyLength', _, _, rfl, _, hend, _,
    hcanonical, value, hvalue, heq⟩ := h
  cases heq
  have hkey : (slice bytes leafRecordHeaderSize keyLength').length = keyLength' := length_slice _ _ _ hend
  obtain ⟨hlen, hsound⟩ := decodeLeafValue_eq_ok hvalue hvalueMax (readU64_le haux)
  refine ⟨⟨⟨by rw [hkey]; exact hmax, hcanonical⟩, hsound revision (readU64_le hrevision) _⟩, ?_⟩
  rw [leafRecordSize, hkey, hlen]

theorem admits_internalCodec : internalCodec.Admits
    (fun e => ((e.key.length ≤ u16Max ∧ 2 ≤ e.rightChild) ∧ Canonical e.key) ∧ e.rightChild ≤ u64Max)
    internalRecordSize := by
  intro bytes keyLength e h hmax
  simp only [internalCodec, decodeInternalRecord, except_bind_eq_ok, ensure_eq_ok, checkCanonical_eq_ok] at h
  obtain ⟨keyLength', _, _, ⟨_, rfl⟩, _, hlen, rightChild, hchild, _, hpos, _, hcanonical, heq⟩ := h
  cases heq
  have hkey : (bytes.drop internalRecordHeaderSize).length = keyLength' := by
    rw [List.length_drop, hlen]
    omega
  refine ⟨⟨⟨⟨by rw [hkey]; exact hmax, hpos⟩, hcanonical⟩, readU64_le hchild⟩, ?_⟩
  rw [internalRecordSize, hkey, hlen]

/-! ### Pages -/

theorem decodePageId_lt {n : Nat} (h : n ≤ u64Max) : ∀ p ∈ decodePageId n, p < nullPageId := by
  intro p hp
  unfold decodePageId at hp
  by_cases hn : n = nullPageId
  · simp [hn] at hp
  · simp only [ne_eq, hn, not_false_eq_true, if_true, Option.mem_def, Option.some.injEq] at hp
    exact hp ▸ lt_of_le_of_ne h hn

namespace PageData

theorem storable_of_decodeLeaf {lsn : Lsn} (hlsn : lsn ≤ u64Max) {body : Bytes} {page : PageData}
    (h : decodeLeaf lsn body = .ok page) : page.Storable ∧ page.lsn = lsn := by
  simp only [decodeLeaf, except_bind_eq_ok] at h
  obtain ⟨⟨link, entries⟩, hdecode, heq⟩ := h
  cases heq
  obtain ⟨hencode, hfound, hlink, _⟩ := lawful_leafCodec.encode_isOk_of_decode (fun e he => he.1) admits_leafCodec hdecode
  exact ⟨⟨hlsn, decodePageId_lt hlink, hencode _, fun e he => (hfound e he).2⟩, rfl⟩

theorem storable_of_decodeInternal {lsn : Lsn} (hlsn : lsn ≤ u64Max) {body : Bytes} {page : PageData}
    (h : decodeInternal lsn body = .ok page) : page.Storable ∧ page.lsn = lsn := by
  simp only [decodeInternal, except_bind_eq_ok] at h
  obtain ⟨⟨link, entries⟩, hdecode, heq⟩ := h
  cases heq
  obtain ⟨hencode, hfound, hlink, reserved, hcheck⟩ :=
    lawful_internalCodec.encode_isOk_of_decode (fun e he => he.1) admits_internalCodec hdecode
  have hpos : 2 ≤ link := (ensure_eq_ok.mp hcheck).1
  refine ⟨⟨hlsn, hlink, ?_, fun e he => (hfound e he).2⟩, rfl⟩
  show (encodeInternal link entries).isOk = true
  rw [encodeInternal, ensure_pos hpos]
  exact hencode link

theorem storable_of_decodeOverflow {lsn : Lsn} (hlsn : lsn ≤ u64Max) {body : Bytes} {page : PageData}
    (h : decodeOverflow lsn body = .ok page) : page.Storable ∧ page.lsn = lsn := by
  simp only [decodeOverflow, except_bind_eq_ok, ensure_eq_ok, checkBodySize] at h
  obtain ⟨_, hbody, _, _, _, _, _, _, next, hnext, totalLength, _, chunkLength, _, _, ⟨hpos, hmax, hchunk⟩, _, hend,
    heq⟩ := h
  cases heq
  have hlen : (slice body overflowDataOffset chunkLength).length = chunkLength := length_slice _ _ _ hend
  refine ⟨⟨hlsn, decodePageId_lt (readU64_le hnext), ⟨hpos, hmax⟩, fun hnil => ?_, ?_⟩, rfl⟩
  · rw [hnil] at hlen
    exact hchunk hlen.symm
  · rw [hlen]
    unfold overflowDataSize
    omega

theorem storable_of_decodeFree {lsn : Lsn} (hlsn : lsn ≤ u64Max) {body : Bytes} {page : PageData}
    (h : decodeFree lsn body = .ok page) : page.Storable ∧ page.lsn = lsn := by
  simp only [decodeFree, except_bind_eq_ok] at h
  obtain ⟨_, _, _, _, _, _, _, _, next, hnext, heq⟩ := h
  cases heq
  exact ⟨⟨hlsn, decodePageId_lt (readU64_le hnext)⟩, rfl⟩

variable [Crc32c]

/-- Whatever decodes is a page that can be stored. -/
theorem storable_of_decode {bytes : Bytes} {expected : Option PageId} {decoded : DecodedPage}
    (h : decodePageAt bytes expected = .ok decoded) {page : PageData} (hpage : PageData.decode decoded = .ok page) :
    page.Storable ∧ page.lsn = decoded.header.pageLsn ∧ decoded.header.pageId ≤ u64Max := by
  simp only [decodePageAt, except_bind_eq_ok, ensure_eq_ok] at h
  obtain ⟨_, hlen, _, _, _, _, _, _, pageType, _, _, _, _, _, heq⟩ := h
  have hfield : ∀ offset, offset + 8 ≤ pageSize → ofLe (slice bytes offset 8) ≤ u64Max := by
    intro offset hle
    have := ofLe_lt (slice bytes offset 8)
    rw [length_slice _ _ _ (hlen ▸ hle)] at this
    exact Nat.le_sub_one_of_lt this
  have hid := hfield 8 (by decide)
  have hlsn := hfield 16 (by decide)
  cases heq
  simp only [PageData.decode, except_bind_eq_ok] at hpage
  obtain ⟨_, _, hpage⟩ := hpage
  suffices hboth : page.Storable ∧ page.lsn = ofLe (slice bytes 16 8) from ⟨hboth.1, hboth.2, hid⟩
  cases pageType with
  | leaf => exact storable_of_decodeLeaf hlsn hpage
  | internal => exact storable_of_decodeInternal hlsn hpage
  | overflow => exact storable_of_decodeOverflow hlsn hpage
  | free => exact storable_of_decodeFree hlsn hpage
  | test => cases hpage

/-- A page that decodes can be written back under its own page id, and reads back as it was. -/
theorem decode_then_encode {bytes : Bytes} {expected : Option PageId} {decoded : DecodedPage}
    (h : decodePageAt bytes expected = .ok decoded) {page : PageData} (hpage : PageData.decode decoded = .ok page) :
    ∃ bytes', page.encode decoded.header.pageId = .ok bytes' ∧
      ∃ decoded', decodePageAt bytes' (some decoded.header.pageId) = .ok decoded' ∧
        PageData.decode decoded' = .ok page := by
  obtain ⟨hstorable, _, hid⟩ := storable_of_decode h hpage
  obtain ⟨bytes', hbytes, _, decoded', hdecoded, _, hreads⟩ := hstorable.encode_reads hid
  exact ⟨bytes', hbytes, decoded', hdecoded, hreads⟩

/-! ### Pages the tree builds -/

/-- What encoding does not check of a page: its numbers are 64-bit ones, no page id it holds is the
one that stands for none, and a value outside its leaf has between one byte and 64 MiB. The order and
the form of the keys and the sizes are what encoding checks. -/
def Buildable : PageData → Prop
  | leaf lsn nextLeaf entries => lsn ≤ u64Max ∧ (∀ p ∈ nextLeaf, p < nullPageId) ∧
      ∀ e ∈ entries, e.revision ≤ u64Max ∧ ∀ head length, e.value = some (.overflow head length) →
        head < nullPageId ∧ 1 ≤ length ∧ length ≤ maxValueSize
  | internal lsn leftmostChild entries =>
      lsn ≤ u64Max ∧ leftmostChild < nullPageId ∧ ∀ e ∈ entries, e.rightChild < nullPageId
  | overflow lsn next _ _ => lsn ≤ u64Max ∧ ∀ p ∈ next, p < nullPageId
  | free lsn next => lsn ≤ u64Max ∧ ∀ p ∈ next, p < nullPageId

omit [Crc32c] in
theorem storable_of_encodeBody {page : PageData} (h : page.Buildable) {body : Bytes}
    (hbody : page.encodeBody = .ok body) : page.Storable := by
  cases page with
  | leaf lsn nextLeaf entries =>
    obtain ⟨hlsn, hnext, hentries⟩ := h
    have hok : (leafCodec.encode (encodePageId nextLeaf) entries).isOk = true := congrArg Except.isOk hbody
    have hfits : leafFits entries = true :=
      (lawful_leafCodec.encode_isOk _ _).mpr ((lawful_leafCodec.encode_isOk _ _).mp hok)
    refine ⟨hlsn, hnext, hfits, fun e he => ⟨(hentries e he).1, ?_⟩⟩
    -- a value in its leaf is no longer than the leaf
    have hsize : slotSize + leafRecordSize e ≤ (entries.map fun e => slotSize + leafRecordSize e).sum :=
      List.single_le_sum (by simp) _ (List.mem_map_of_mem he)
    have hused := ((leafFits_iff entries).mp hfits).2.2
    have hinline : inlineLength e.value ≤ maxValueSize := by
      simp only [leafUsed, RecordCodec.used, leafRecordSize, bodySize, pageSize, pageHeaderSize, maxValueSize] at *
      omega
    cases hv : e.value with
    | none => exact trivial
    | some value =>
      cases value with
      | inline value =>
        rw [hv] at hinline
        exact hinline
      | overflow head length =>
        obtain ⟨hhead, hpos, hmax⟩ := (hentries e he).2 head length hv
        exact ⟨hhead, Nat.one_le_iff_ne_zero.mp hpos, hmax⟩
  | internal lsn leftmostChild entries =>
    obtain ⟨hlsn, hleftmost, hentries⟩ := h
    have hfits : internalFits leftmostChild entries = true := congrArg Except.isOk hbody
    exact ⟨hlsn, hleftmost.le, hfits, fun e he => (hentries e he).le⟩
  | overflow lsn next totalLength chunk =>
    obtain ⟨hlsn, hnext⟩ := h
    simp only [encodeBody, encodeOverflow, except_bind_eq_ok, ensure_eq_ok] at hbody
    obtain ⟨_, htotal, _, ⟨hsize, _, hchunk⟩, _⟩ := hbody
    exact ⟨hlsn, hnext, htotal, hchunk, hsize⟩
  | free lsn next => exact h

theorem storable_of_encode {page : PageData} (h : page.Buildable) {pageId : PageId} {bytes : Bytes}
    (hbytes : page.encode pageId = .ok bytes) : page.Storable := by
  unfold encode at hbytes
  obtain ⟨body, hbody, _⟩ := except_bind_eq_ok.mp hbytes
  exact storable_of_encodeBody h hbody

/-- A page is read only where it says it belongs. -/
theorem decodePageAt_other {bytes : Bytes} {pageId other : PageId} {decoded : DecodedPage}
    (h : decodePageAt bytes (some pageId) = .ok decoded) (hne : other ≠ pageId) :
    ∃ e, decodePageAt bytes (some other) = .error e := by
  cases hother : decodePageAt bytes (some other) with
  | error e => exact ⟨e, rfl⟩
  | ok decoded' =>
    simp only [decodePageAt, except_bind_eq_ok, ensure_eq_ok, Option.all_some, decide_eq_true_eq] at h hother
    obtain ⟨_, _, _, _, _, _, _, _, _, _, _, hid, _⟩ := h
    obtain ⟨_, _, _, _, _, _, _, _, _, _, _, hid', _⟩ := hother
    exact absurd (hid'.symm.trans hid) hne

/-- A page the tree builds is read back as it was written, where it was written and nowhere else. -/
theorem encode_then_decode {page : PageData} (h : page.Buildable) {pageId : PageId} (hid : pageId ≤ u64Max)
    {bytes : Bytes} (hbytes : page.encode pageId = .ok bytes) :
    (∃ decoded, decodePageAt bytes (some pageId) = .ok decoded ∧ decoded.header.pageLsn = page.lsn ∧
      PageData.decode decoded = .ok page) ∧
    ∀ other, other ≠ pageId → ∃ e, decodePageAt bytes (some other) = .error e := by
  obtain ⟨bytes', hencode, _, decoded, hdecoded, hlsn, hpage⟩ := (storable_of_encode h hbytes).encode_reads hid
  cases hencode.symm.trans hbytes
  exact ⟨⟨decoded, hdecoded, hlsn, hpage⟩, fun other hne => decodePageAt_other hdecoded hne⟩

/-! A leaf with a tombstone, a value of its own and a value elsewhere. -/

def sampleLeaf : PageData := .leaf 9 (some 7)
  [⟨DocumentKey.encode ⟨[1], []⟩, 4, none⟩, ⟨DocumentKey.encode ⟨[1], [0]⟩, 9, some (.inline [8])⟩,
    ⟨DocumentKey.encode ⟨[2], [3]⟩, 5, some (.overflow 6 5000)⟩]

omit [Crc32c] in
theorem storable_sampleLeaf : sampleLeaf.Storable := by
  refine ⟨by decide, by decide, (leafFits_iff _).mpr ⟨fun e he => ?_, by decide, by decide⟩, ?_⟩
  · simp only [List.mem_cons, List.not_mem_nil, or_false] at he
    obtain rfl | rfl | rfl := he <;> exact canonical_encode _
  · intro e he
    simp only [List.mem_cons, List.not_mem_nil, or_false] at he
    obtain rfl | rfl | rfl := he
    · exact ⟨by decide, trivial⟩
    · exact ⟨by decide, show ([8] : Bytes).length ≤ maxValueSize by decide⟩
    · exact ⟨by decide, by decide, by decide, by decide⟩

omit [Crc32c] in
theorem encode_then_decode_sampleLeaf : ∃ bytes, @encode castagnoli sampleLeaf 3 = .ok bytes ∧
    (∃ decoded, @decodePageAt castagnoli bytes (some 3) = .ok decoded ∧ decoded.header.pageLsn = sampleLeaf.lsn ∧
      PageData.decode decoded = .ok sampleLeaf) ∧
    ∃ e, @decodePageAt castagnoli bytes (some 4) = .error e := by
  obtain ⟨bytes, hbytes, _⟩ := @Storable.encode_reads castagnoli _ storable_sampleLeaf 3 (by decide)
  have hbuildable : sampleLeaf.Buildable := by
    refine ⟨by decide, by decide, fun e he => ?_⟩
    simp only [List.mem_cons, List.not_mem_nil, or_false] at he
    obtain rfl | rfl | rfl := he
    · exact ⟨by decide, fun _ _ hv => nomatch hv⟩
    · exact ⟨by decide, fun _ _ hv => nomatch hv⟩
    · refine ⟨by decide, fun head length hv => ?_⟩
      cases hv
      decide
  obtain ⟨hreads, hother⟩ := @encode_then_decode castagnoli _ hbuildable 3 (by decide) bytes hbytes
  exact ⟨bytes, hbytes, hreads, hother 4 (by decide)⟩

omit [Crc32c] in
theorem decode_then_encode_sampleLeaf : ∃ bytes decoded, @decodePageAt castagnoli bytes none = .ok decoded ∧
    PageData.decode decoded = .ok sampleLeaf ∧
    ∃ bytes', @encode castagnoli sampleLeaf decoded.header.pageId = .ok bytes' ∧
      ∃ decoded', @decodePageAt castagnoli bytes' (some decoded.header.pageId) = .ok decoded' ∧
        PageData.decode decoded' = .ok sampleLeaf := by
  obtain ⟨bytes, _, _, decoded, hdecoded, _, hpage⟩ :=
    @Storable.encode_reads castagnoli _ storable_sampleLeaf 3 (by decide)
  have hnone : @decodePageAt castagnoli bytes none = .ok decoded := by
    simp only [decodePageAt, except_bind_eq_ok, ensure_eq_ok] at hdecoded ⊢
    obtain ⟨u₁, h₁, u₂, h₂, u₃, h₃, u₄, h₄, t, ht, u₅, _, h⟩ := hdecoded
    exact ⟨u₁, h₁, u₂, h₂, u₃, h₃, u₄, h₄, t, ht, u₅, rfl, h⟩
  exact ⟨bytes, decoded, hnone, hpage, @decode_then_encode castagnoli _ _ _ hnone _ hpage⟩

end PageData

end Dodb
