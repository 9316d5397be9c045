import Dodb.Btree.Format

/-! When a page fits, and that a page that was encoded decodes to itself.

Whether a slotted page can be encoded depends only on its entries: each must be
encodable by itself, the keys must increase, and the record sizes with their
slots must leave room for the header (`encode_isOk`, `leafFits_iff`,
`internalFits_iff`). `PageData.decode_encode` is the round trip for every page the
tree builds. -/
namespace Dodb
open Lib

/-- A key that is the encoding of a document's key. -/
def Canonical (key : Bytes) : Prop := ∃ k : DocumentKey, k.encode = key

theorem canonical_encode (k : DocumentKey) : Canonical k.encode := ⟨k, rfl⟩

theorem checkCanonical_eq_ok {key : Bytes} {wrap : String → Error} {u : Unit} :
    checkCanonical key wrap = .ok u ↔ Canonical key := by
  unfold checkCanonical
  cases h : DocumentKey.decode key with
  | ok k => exact ⟨fun _ => ⟨k, DocumentKey.encode_of_decode h⟩, fun _ => rfl⟩
  | error e =>
    constructor
    · intro h'
      cases h'
    · rintro ⟨k, rfl⟩
      rw [DocumentKey.decode_encode] at h
      cases h

theorem strictlyOrdered_iff (l : List Bytes) : strictlyOrdered l = true ↔ l.Pairwise (· < ·) := by
  fun_induction strictlyOrdered l with
  | case1 | case2 => simp
  | case3 a b rest ih =>
    rw [Bool.and_eq_true, ih, decide_eq_true_eq]
    constructor
    · rintro ⟨hab, hb⟩
      refine List.pairwise_cons.mpr ⟨fun x hx => ?_, hb⟩
      rcases List.mem_cons.mp hx with rfl | hx
      · exact hab
      · exact hab.trans ((List.pairwise_cons.mp hb).1 x hx)
    · intro h
      obtain ⟨ha, hb⟩ := List.pairwise_cons.mp h
      exact ⟨ha b List.mem_cons_self, hb⟩

theorem readLe_of_le {width : Nat} {bytes : Bytes} {offset : Nat} (h : offset + width ≤ bytes.length) :
    readLe width bytes offset = .ok (ofLe (slice bytes offset width)) := by
  simp [readLe, ensure, h, bind, Except.bind, pure, Except.pure]

theorem allZero_zeros (n : Nat) : allZero (zeros n) = true := by
  simp [allZero, zeros]

/-! ### Slotted pages -/

section Place
variable {E : Type} {slotBytes : Nat} {full : Error} {encodeRecord : E → Result Bytes}

/-- What packing records comes to: each is encoded, together they end the body, and
there is room before them for the slots. -/
theorem placeRecords_spec {entries : List E} {upper : Nat} {records : List Bytes}
    (h : placeRecords slotBytes full encodeRecord entries = .ok (upper, records)) :
    List.Forall₂ (fun e r => encodeRecord e = .ok r) entries records ∧
      upper + (records.map List.length).sum = bodySize ∧ (slotBytes ≤ bodySize → slotBytes ≤ upper) := by
  induction entries generalizing upper records with
  | nil =>
    cases h
    exact ⟨.nil, by simp, fun h => h⟩
  | cons entry rest ih =>
    simp only [placeRecords, except_bind_eq_ok, ensure_eq_ok] at h
    obtain ⟨⟨upper', records'⟩, hrest, record, hrecord, _, hroom, heq⟩ := h
    cases heq
    obtain ⟨hall, hsum, _⟩ := ih hrest
    refine ⟨.cons hrecord hall, ?_, fun _ => by omega⟩
    simp only [List.map_cons, List.sum_cons]
    omega

theorem placeRecords_ok {entries : List E} {records : List Bytes}
    (hall : List.Forall₂ (fun e r => encodeRecord e = .ok r) entries records)
    (hroom : slotBytes + (records.map List.length).sum ≤ bodySize) :
    placeRecords slotBytes full encodeRecord entries =
      .ok (bodySize - (records.map List.length).sum, records) := by
  induction hall with
  | nil => simp [placeRecords]
  | @cons entry record rest records hrecord hall ih =>
    simp only [List.map_cons, List.sum_cons] at hroom ⊢
    rw [placeRecords, ih (by omega)]
    simp only [except_bind_eq_ok, ensure_eq_ok]
    refine ⟨_, rfl, record, hrecord, (), by omega, ?_⟩
    rw [Nat.sub_sub, Nat.add_comm record.length]
    rfl

end Place

namespace RecordCodec

variable {E : Type} {records : List Bytes} {body : Bytes}

/-- `Valid` entries are the ones with a record, and `size` is its length. -/
structure Lawful (codec : RecordCodec E) (Valid : E → Prop) (size : E → Nat) : Prop where
  magic : codec.magic.length = 4
  header : ∀ e, codec.recordHeaderSize ≤ size e
  valid : ∀ e, Valid e → ∃ r, codec.encodeRecord e = .ok r
  encoded : ∀ e r, codec.encodeRecord e = .ok r → Valid e ∧ r.length = size e

/-- The bytes of the body that entries take. -/
def used (size : E → Nat) (entries : List E) : Nat :=
  slottedHeaderSize + (entries.map fun e => slotSize + size e).sum

theorem used_eq (size : E → Nat) (entries : List E) :
    used size entries = slottedHeaderSize + entries.length * slotSize + (entries.map size).sum := by
  unfold used
  induction entries with
  | nil => simp
  | cons e rest ih =>
    simp only [List.map_cons, List.sum_cons, List.length_cons, Nat.add_mul] at ih ⊢
    omega

variable {codec : RecordCodec E} {Valid : E → Prop} {size : E → Nat}

theorem Lawful.sum_length (law : codec.Lawful Valid size) {entries : List E}
    (h : List.Forall₂ (fun e r => codec.encodeRecord e = .ok r) entries records) :
    (records.map List.length).sum = (entries.map size).sum := by
  induction h with
  | nil => rfl
  | cons hrecord _ ih => simp [ih, (law.encoded _ _ hrecord).2]

theorem Lawful.valid_of_records (law : codec.Lawful Valid size) {entries : List E}
    (h : List.Forall₂ (fun e r => codec.encodeRecord e = .ok r) entries records) : ∀ e ∈ entries, Valid e := by
  induction h with
  | nil => simp
  | cons hrecord _ ih => simpa using ⟨(law.encoded _ _ hrecord).1, ih⟩

theorem Lawful.exists_records (law : codec.Lawful Valid size) {entries : List E} (h : ∀ e ∈ entries, Valid e) :
    ∃ records, List.Forall₂ (fun e r => codec.encodeRecord e = .ok r) entries records := by
  induction entries with
  | nil => exact ⟨[], .nil⟩
  | cons e rest ih =>
    obtain ⟨r, hr⟩ := law.valid e (h e List.mem_cons_self)
    obtain ⟨records, hrecords⟩ := ih fun e he => h e (List.mem_cons_of_mem _ he)
    exact ⟨r :: records, .cons hr hrecords⟩

/-- The body of a slotted page whose records begin at `upper`. -/
def layout (codec : RecordCodec E) (link : Nat) (entries : List E) (upper : Nat) (records : List Bytes) :
    Bytes :=
  codec.magic ++ (le 2 layoutVersion ++ (le 2 entries.length ++
    (le 2 (slottedHeaderSize + entries.length * slotSize) ++ (le 2 upper ++ (le 8 link ++ (zeros 12 ++
      (encodeSlots upper (records.zipWith (fun record entry => (record.length, (codec.key entry).length))
        entries) ++ (zeros (upper - (slottedHeaderSize + entries.length * slotSize)) ++ records.flatten))))))))

/-- A slotted page that is encoded, in full. -/
theorem Lawful.encode_eq_ok (law : codec.Lawful Valid size) {link : Nat} {entries : List E} :
    codec.encode link entries = .ok body ↔
      (entries.map codec.key).Pairwise (· < ·) ∧ used size entries ≤ bodySize ∧
        ∃ records, List.Forall₂ (fun e r => codec.encodeRecord e = .ok r) entries records ∧
          body = codec.layout link entries (bodySize - (entries.map size).sum) records := by
  simp only [encode, except_bind_eq_ok, ensure_eq_ok, strictlyOrdered_iff, used_eq]
  constructor
  · rintro ⟨_, ⟨_, hslots⟩, _, hordered, ⟨upper, records⟩, hplace, heq⟩
    obtain ⟨hall, hsum, hroom⟩ := placeRecords_spec hplace
    have hlen := law.sum_length hall
    have := hroom hslots
    refine ⟨hordered, by omega, records, hall, ?_⟩
    have hupper : bodySize - (entries.map size).sum = upper := by omega
    rw [hupper]
    exact (Except.ok.inj heq).symm
  · rintro ⟨hordered, hfits, records, hall, rfl⟩
    have hlen := law.sum_length hall
    have hplace : placeRecords (slottedHeaderSize + entries.length * slotSize) codec.full
        codec.encodeRecord entries = _ := placeRecords_ok hall (by omega)
    refine ⟨(), ⟨?_, by omega⟩, (), hordered, _, hplace, ?_⟩
    · simp only [bodySize, pageSize, pageHeaderSize, slottedHeaderSize, slotSize, u16Max] at *
      omega
    · rw [hlen]
      rfl

theorem Lawful.encode_isOk (law : codec.Lawful Valid size) (link : Nat) (entries : List E) :
    (codec.encode link entries).isOk = true ↔
      (∀ e ∈ entries, Valid e) ∧ (entries.map codec.key).Pairwise (· < ·) ∧ used size entries ≤ bodySize := by
  constructor
  · intro h
    cases hb : codec.encode link entries with
    | error e =>
      rw [hb] at h
      cases h
    | ok body =>
      obtain ⟨hordered, hfits, records, hall, _⟩ := law.encode_eq_ok.mp hb
      exact ⟨law.valid_of_records hall, hordered, hfits⟩
  · rintro ⟨hvalid, hordered, hfits⟩
    obtain ⟨records, hall⟩ := law.exists_records hvalid
    rw [law.encode_eq_ok.mpr ⟨hordered, hfits, records, hall, rfl⟩]
    rfl

theorem length_encodeSlots (offset : Nat) (lengths : List (Nat × Nat)) :
    (encodeSlots offset lengths).length = lengths.length * slotSize := by
  induction lengths generalizing offset with
  | nil => simp [encodeSlots]
  | cons l rest ih =>
    simp only [encodeSlots, List.length_append, length_le, length_zeros, ih, List.length_cons, slotSize]
    omega

theorem Lawful.length_layout (law : codec.Lawful Valid size) (link : Nat) {entries : List E}
    (hall : List.Forall₂ (fun e r => codec.encodeRecord e = .ok r) entries records)
    (hfits : used size entries ≤ bodySize) :
    (codec.layout link entries (bodySize - (entries.map size).sum) records).length = bodySize := by
  have hlen := law.sum_length hall
  have hcount := hall.length_eq
  rw [used_eq] at hfits
  simp only [layout, List.length_append, law.magic, length_le, length_zeros, length_encodeSlots,
    List.length_zipWith, List.length_flatten, hlen, ← hcount, min_self]
  simp only [slottedHeaderSize] at *
  omega

/-! ### Reading a slotted page back -/

/-- The ranges and entries of records packed from `offset` on. -/
def slotsFrom (offset : Nat) : List E → List Bytes → List ((Nat × Nat) × E)
  | entry :: entries, record :: records =>
    ((offset, offset + record.length), entry) :: slotsFrom (offset + record.length) entries records
  | _, _ => []

theorem map_snd_slotsFrom (offset : Nat) {entries : List E}
    (h : entries.length = records.length) : (slotsFrom offset entries records).map Prod.snd = entries := by
  induction entries generalizing offset records with
  | nil => rfl
  | cons entry entries ih =>
    cases records with
    | nil => cases h
    | cons record records => simp [slotsFrom, ih _ (Nat.succ.inj h)]

theorem slotsFrom_ge {offset : Nat} {entries : List E} {slot : (Nat × Nat) × E}
    (h : slot ∈ slotsFrom offset entries records) : offset ≤ slot.1.1 ∧ slot.1.1 ≤ slot.1.2 := by
  induction entries generalizing offset records with
  | nil => cases h
  | cons entry entries ih =>
    cases records with
    | nil => cases h
    | cons record records =>
      rcases List.mem_cons.mp h with rfl | h
      · exact ⟨le_refl _, Nat.le_add_right ..⟩
      · have := ih h
        omega

theorem pairwise_slotsFrom (offset : Nat) (entries : List E) (records : List Bytes) :
    ((slotsFrom offset entries records).map Prod.fst).Pairwise fun a b => a.2 ≤ b.1 ∧ a.1 ≤ a.2 ∧ b.1 ≤ b.2 := by
  induction entries generalizing offset records with
  | nil => exact .nil
  | cons entry entries ih =>
    cases records with
    | nil => exact .nil
    | cons record records =>
      refine List.pairwise_cons.mpr ⟨fun b hb => ?_, ih ..⟩
      obtain ⟨slot, hslot, rfl⟩ := List.mem_map.mp hb
      have := slotsFrom_ge hslot
      exact ⟨this.1, Nat.le_add_right .., this.2⟩

theorem nonOverlapping_of_pairwise {ranges : List (Nat × Nat)}
    (h : ranges.Pairwise fun a b => a.2 ≤ b.1 ∧ a.1 ≤ a.2 ∧ b.1 ≤ b.2) : nonOverlapping ranges = true := by
  fun_induction nonOverlapping ranges with
  | case1 | case2 => rfl
  | case3 a b rest ih =>
    obtain ⟨ha, hb⟩ := List.pairwise_cons.mp h
    simp [(ha b List.mem_cons_self).1, ih hb]

/-- Records packed one after another are read back whatever order they are looked at in. -/
theorem nonOverlapping_slotsFrom (offset : Nat) (entries : List E) (records : List Bytes) :
    nonOverlapping (((slotsFrom offset entries records).map Prod.fst).mergeSort rangeLe) = true := by
  have h := pairwise_slotsFrom offset entries records
  rw [List.mergeSort_of_pairwise]
  · exact nonOverlapping_of_pairwise h
  · refine h.imp fun {a b} hab => ?_
    simp only [rangeLe, decide_eq_true_eq]
    omega

/-- Entries that decode from their own records. -/
def Reads (codec : RecordCodec E) (e : E) : Prop :=
  ∀ r, codec.encodeRecord e = .ok r → codec.decodeRecord r (codec.key e).length = .ok e

theorem Lawful.mapM_decodeSlot (law : codec.Lawful Valid size) (hbody : body.length = bodySize)
    {start : Nat} {entries : List E}
    (hall : List.Forall₂ (fun e r => codec.encodeRecord e = .ok r) entries records)
    (hreads : ∀ e ∈ entries, codec.Reads e) (index offset : Nat) (hstart : start ≤ offset)
    (hkey : ∀ e ∈ entries, (codec.key e).length ≤ u16Max)
    (hroom : slottedHeaderSize + (index + entries.length) * slotSize ≤ bodySize)
    (hslots : slice body (slottedHeaderSize + index * slotSize) (entries.length * slotSize) =
      encodeSlots offset (records.zipWith (fun r e => (r.length, (codec.key e).length)) entries))
    (hend : offset + (records.map List.length).sum = bodySize)
    (hrecords : slice body offset (records.map List.length).sum = records.flatten) :
    (List.range' index entries.length).mapM (codec.decodeSlot body start) =
      .ok (slotsFrom offset entries records) := by
  induction hall generalizing index offset with
  | nil => rfl
  | @cons entry record entries records hrecord hall ih =>
    have hheader : codec.recordHeaderSize ≤ record.length := by
      rw [(law.encoded _ _ hrecord).2]
      exact law.header entry
    have hkey' := hkey entry List.mem_cons_self
    have hcount := hall.length_eq
    simp only [List.length_cons, List.map_cons, List.sum_cons, List.zipWith_cons_cons, encodeSlots,
      List.flatten_cons, slotSize, slottedHeaderSize] at *
    -- the fields of this slot and the slots after it, then this record and the records after it
    have hslot : Fields body (32 + index * 8) [le 2 offset, le 2 record.length, le 2 (codec.key entry).length,
        zeros 2, encodeSlots (offset + record.length)
          (records.zipWith (fun r e => (r.length, (codec.key e).length)) entries)] :=
      .of_slice (b := []) (hslots.trans (by simp))
    have hflat : Fields body offset [record, records.flatten] := .of_slice (b := []) (hrecords.trans (by simp))
    simp only [Fields, Nat.add_assoc, Nat.reduceAdd, length_le, length_zeros, length_encodeSlots, slotSize,
      List.length_zipWith, ← hcount, min_self, List.length_flatten] at hslot hflat
    obtain ⟨hoffset, hlength, hkeyLength, -, htail, -⟩ := hslot
    obtain ⟨hrecord', hrest, -⟩ := hflat
    have hbound : offset < 256 ^ 2 ∧ record.length < 256 ^ 2 := by
      simp only [bodySize, pageSize, pageHeaderSize] at hend
      omega
    have hslot : codec.decodeSlot body start index = .ok ((offset, offset + record.length), entry) := by
      simp only [decodeSlot, slotSize, slottedHeaderSize, readU16, except_bind_eq_ok, ensure_eq_ok]
      refine ⟨offset, ?_, record.length, ?_, (codec.key entry).length, ?_, (), ?_, entry, ?_, rfl⟩
      · rw [readLe_of_le (by omega), hoffset, ofLe_le _ _ hbound.1]
      · rw [readLe_of_le (by omega), Nat.add_assoc, hlength, ofLe_le _ _ hbound.2]
      · rw [readLe_of_le (by omega), Nat.add_assoc, hkeyLength, ofLe_le _ _ (by unfold u16Max at hkey'; omega)]
      · omega
      · rw [hrecord']
        exact hreads entry List.mem_cons_self record hrecord
    rw [List.range'_succ, List.mapM_cons, hslot]
    have := ih (fun e he => hreads e (List.mem_cons_of_mem _ he)) (index + 1) (offset + record.length)
      (by omega) (fun e he => hkey e (List.mem_cons_of_mem _ he)) (by omega)
      (by rw [Nat.add_mul]; exact htail) (by omega) hrest
    simp only [this, slotsFrom]
    rfl

theorem Lawful.decode_encode (law : codec.Lawful Valid size) {link : Nat} {entries : List E}
    (h : codec.encode link entries = .ok body) (hreads : ∀ e ∈ entries, codec.Reads e)
    (hkey : ∀ e ∈ entries, (codec.key e).length ≤ u16Max) (hlink : link < 256 ^ 8)
    {checkLink : Nat → Bool → Result Unit} (hcheck : checkLink link true = .ok ()) :
    codec.decode checkLink body = .ok (link, entries) := by
  obtain ⟨hordered, hfits, records, hall, rfl⟩ := law.encode_eq_ok.mp h
  have hbody := law.length_layout link hall hfits
  have hsum := law.sum_length hall
  have hcount := hall.length_eq
  have hmagic := law.magic
  rw [used_eq] at hfits
  generalize hupper : bodySize - (entries.map size).sum = upper at *
  have hslotBytes : slottedHeaderSize + entries.length * slotSize ≤ upper := by omega
  have hend : upper + (records.map List.length).sum = bodySize := by omega
  have hsmall : upper < 256 ^ 2 ∧ entries.length < 256 ^ 2 ∧
      slottedHeaderSize + entries.length * slotSize < 256 ^ 2 := by
    simp only [bodySize, pageSize, pageHeaderSize, slottedHeaderSize, slotSize] at *
    omega
  have hfields : Fields (codec.layout link entries upper records) 0 [codec.magic, le 2 layoutVersion,
      le 2 entries.length, le 2 (slottedHeaderSize + entries.length * slotSize), le 2 upper, le 8 link, zeros 12,
      encodeSlots upper (records.zipWith (fun r e => (r.length, (codec.key e).length)) entries),
      zeros (upper - (slottedHeaderSize + entries.length * slotSize)), records.flatten] :=
    .of_eq (b := []) (by simp [layout])
  simp only [Fields, Nat.reduceAdd, hmagic, length_le, length_zeros, length_encodeSlots, List.length_zipWith,
    ← hcount, min_self, List.length_flatten] at hfields
  obtain ⟨hm, hv, hc, hs, hu, hl, hz, hslots, -, hrecords, -⟩ := hfields
  rw [show 32 + entries.length * slotSize +
    (upper - (slottedHeaderSize + entries.length * slotSize)) = upper by
      simp only [slottedHeaderSize] at *; omega] at hrecords
  have hdecode := law.mapM_decodeSlot hbody hall hreads 0 upper (le_refl _) hkey
    (by rw [Nat.zero_add]; omega) hslots hend hrecords
  rw [decode]
  simp only [except_bind_eq_ok, ensure_eq_ok, checkBodySize, checkVersion, readU16, readU64]
  have hread : ∀ w o, o + w ≤ 32 → readLe w (codec.layout link entries upper records) o =
      .ok (ofLe (slice (codec.layout link entries upper records) o w)) := fun w o h =>
    readLe_of_le (by rw [hbody]; simp only [bodySize, pageSize, pageHeaderSize]; omega)
  refine ⟨(), hbody, (), hm, (), ⟨layoutVersion, ?_, rfl⟩, entries.length, ?_,
    slottedHeaderSize + entries.length * slotSize, ?_, upper, ?_, link, ?_, (), ?_, (),
    ⟨rfl, hslotBytes, by omega, by omega⟩, slotsFrom upper entries records, ?_, (),
    nonOverlapping_slotsFrom .., (), ?_, ?_⟩
  · rw [hv]
    rfl
  · rw [hread 2 6 (by omega), hc, ofLe_le _ _ hsmall.2.1]
  · rw [hread 2 8 (by omega), hs, ofLe_le _ _ hsmall.2.2]
  · rw [hread 2 10 (by omega), hu, ofLe_le _ _ hsmall.1]
  · rw [hread 8 12 (by omega), hl, ofLe_le _ _ hlink]
  · rw [hz, allZero_zeros]
    exact hcheck
  · rw [List.range_eq_range']
    exact hdecode
  · rw [map_snd_slotsFrom _ hcount, strictlyOrdered_iff]
    exact hordered
  · rw [map_snd_slotsFrom _ hcount]
    rfl

end RecordCodec

/-! ### Leaves -/

/-- The bytes of a value that are stored in its leaf. -/
def inlineLength : Option ValueRef → Nat
  | some (.inline value) => value.length
  | _ => 0

/-- The bytes that an entry takes in a leaf. -/
def leafRecordSize (entry : LeafEntry) : Nat :=
  leafRecordHeaderSize + entry.key.length + inlineLength entry.value

theorem lawful_leafCodec : leafCodec.Lawful
    (fun e => e.key.length ≤ u16Max ∧ Canonical e.key) leafRecordSize where
  magic := by decide
  header e := by simp only [leafCodec, leafRecordSize]; omega
  valid e h := by
    simp only [leafCodec, encodeLeafRecord, except_bind_eq_ok, ensure_eq_ok, checkCanonical_eq_ok]
    exact ⟨_, (), h.1, (), h.2, rfl⟩
  encoded e r h := by
    simp only [leafCodec, encodeLeafRecord, except_bind_eq_ok, ensure_eq_ok, checkCanonical_eq_ok] at h
    obtain ⟨_, hkey, _, hcanonical, heq⟩ := h
    refine ⟨⟨hkey, hcanonical⟩, ?_⟩
    cases heq
    rcases hv : e.value with _ | v
    · simp [leafRecordValue, leafRecordSize, inlineLength, hv, leafRecordHeaderSize]
      omega
    · cases v <;>
      · simp [leafRecordValue, leafRecordSize, inlineLength, hv, leafRecordHeaderSize]
        omega

/-- The bytes of a leaf's body that its entries take. -/
def leafUsed (entries : List LeafEntry) : Nat := RecordCodec.used leafRecordSize entries

theorem leafFits_iff (entries : List LeafEntry) : leafFits entries = true ↔
    (∀ e ∈ entries, Canonical e.key) ∧ (entries.map LeafEntry.key).Pairwise (· < ·) ∧
      leafUsed entries ≤ bodySize := by
  rw [leafFits, encodeLeaf, lawful_leafCodec.encode_isOk]
  constructor
  · rintro ⟨hvalid, hordered, hfits⟩
    exact ⟨fun e he => (hvalid e he).2, hordered, hfits⟩
  · rintro ⟨hvalid, hordered, hfits⟩
    refine ⟨fun e he => ⟨?_, hvalid e he⟩, hordered, hfits⟩
    -- a page that fits has no key longer than itself
    have : slotSize + leafRecordSize e ≤ (entries.map fun e => slotSize + leafRecordSize e).sum :=
      List.single_le_sum (by simp) _ (List.mem_map_of_mem he)
    simp only [leafUsed, RecordCodec.used, leafRecordSize, bodySize, pageSize, pageHeaderSize, slottedHeaderSize,
      leafRecordHeaderSize, u16Max] at *
    omega

/-- The numbers of an entry fit the fields they are written to. -/
def LeafEntry.Sound (entry : LeafEntry) : Prop :=
  entry.revision ≤ u64Max ∧
    match entry.value with
    | none => True
    | some (.inline value) => value.length ≤ maxValueSize
    | some (.overflow head length) => head < nullPageId ∧ length ≠ 0 ∧ length ≤ maxValueSize

theorem decodeLeafValue_leafRecordValue {entry : LeafEntry} (h : entry.Sound) {head : Bytes} {keyEnd : Nat}
    (hhead : head.length = keyEnd) :
    let (flags, valueLength, aux, inline) := leafRecordValue entry.value
    decodeLeafValue (head ++ inline) keyEnd valueLength aux flags = .ok entry.value := by
  obtain ⟨_, hvalue⟩ := h
  rcases hv : entry.value with _ | ⟨value⟩ | ⟨page, length⟩
  · simp [leafRecordValue, decodeLeafValue, hhead, ensure, bind, Except.bind, pure, Except.pure]
  · simp [leafRecordValue, decodeLeafValue, ← hhead, ensure, bind, Except.bind, pure, Except.pure,
      slice_append_right, slice_self]
  · rw [hv] at hvalue
    simp [leafRecordValue, decodeLeafValue, hhead, ensure, bind, Except.bind, pure, Except.pure,
      hvalue.1.ne, hvalue.2.1]

theorem LeafEntry.Sound.bounds {entry : LeafEntry} (h : entry.Sound) :
    let (_, valueLength, aux, _) := leafRecordValue entry.value
    valueLength ≤ maxValueSize ∧ aux ≤ u64Max := by
  obtain ⟨_, hvalue⟩ := h
  rcases hv : entry.value with _ | ⟨value⟩ | ⟨page, length⟩
  · exact ⟨Nat.zero_le _, le_refl _⟩
  · rw [hv] at hvalue
    exact ⟨hvalue, Nat.zero_le _⟩
  · rw [hv] at hvalue
    exact ⟨hvalue.2.2, hvalue.1.le⟩

theorem reads_leafCodec {entry : LeafEntry} (h : entry.Sound) : leafCodec.Reads entry := by
  intro r hr
  simp only [leafCodec, encodeLeafRecord, except_bind_eq_ok, ensure_eq_ok, checkCanonical_eq_ok] at hr ⊢
  obtain ⟨_, hkey, _, hcanonical, heq⟩ := hr
  have hbounds := h.bounds
  have hdecode : ∀ head : Bytes, head.length = leafRecordHeaderSize + entry.key.length → _ := fun head hhead =>
    decodeLeafValue_leafRecordValue h hhead
  rcases hv : leafRecordValue entry.value with ⟨flags, valueLength, aux, inline⟩
  rw [hv] at hbounds heq hdecode
  simp only [pure, Except.pure, Except.ok.injEq] at heq
  have hvl := lt_of_le_u64Max (hbounds.1.trans (by decide : maxValueSize ≤ u64Max))
  have haux := lt_of_le_u64Max hbounds.2
  have hrev := lt_of_le_u64Max h.1
  have hlen : r.length = leafRecordHeaderSize + entry.key.length + inline.length := by
    rw [← heq]
    simp only [List.length_append, length_le, length_zeros, List.length_cons, List.length_nil,
      leafRecordHeaderSize]
    omega
  have hfields : Fields r 0 [le 8 entry.revision, le 8 valueLength, le 8 aux, [flags, 0],
      le 2 entry.key.length, zeros 4, entry.key] := .of_eq heq.symm
  simp only [Fields, Nat.reduceAdd, length_le, length_zeros, List.length_cons, List.length_nil] at hfields
  obtain ⟨hr0, hr8, hr16, -, hr26, hr28, hrkey, -⟩ := hfields
  have hr24 : r.getD 24 0 = flags ∧ r.getD 25 0 = 0 := by
    rw [← heq]
    constructor <;> simp (disch := simp) only [List.getD_append_right, List.getD_append] <;> simp
  have hread : ∀ w o, o + w ≤ 32 → readLe w r o = .ok (ofLe (slice r o w)) := fun w o h =>
    readLe_of_le (by rw [hlen, leafRecordHeaderSize]; omega)
  have hsplit : r = (le 8 entry.revision ++ (le 8 valueLength ++ (le 8 aux ++ ([flags, 0] ++
      (le 2 entry.key.length ++ (zeros 4 ++ entry.key)))))) ++ inline := by
    simp [← heq]
  simp only [decodeLeafRecord, readU64, readU16, except_bind_eq_ok, ensure_eq_ok, checkCanonical_eq_ok]
  refine ⟨entry.revision, ?_, valueLength, ?_, (), hbounds.1, aux, ?_, (), ⟨hr24.2, ?_⟩, entry.key.length, ?_,
    (), rfl, (), by omega, (), ?_, entry.value, ?_, ?_⟩
  · rw [hread 8 0 (by omega), hr0, ofLe_le _ _ hrev]
  · rw [hread 8 8 (by omega), hr8, ofLe_le _ _ hvl]
  · rw [hread 8 16 (by omega), hr16, ofLe_le _ _ haux]
  · rw [hr28, allZero_zeros]
  · rw [hread 2 26 (by omega), hr26, ofLe_le _ _ (by unfold u16Max at hkey; omega)]
  · rw [leafRecordHeaderSize, hrkey]
    exact hcanonical
  · rw [hr24.1, hsplit]
    exact hdecode _ (by simp [leafRecordHeaderSize]; omega)
  · rw [leafRecordHeaderSize, hrkey]
    rfl

/-! ### Internal pages -/

/-- The bytes that a separator takes in an internal page. -/
def internalRecordSize (entry : InternalEntry) : Nat := internalRecordHeaderSize + entry.key.length

theorem lawful_internalCodec : internalCodec.Lawful
    (fun e => (e.key.length ≤ u16Max ∧ 2 ≤ e.rightChild) ∧ Canonical e.key) internalRecordSize where
  magic := by decide
  header e := by simp only [internalCodec, internalRecordSize]; omega
  valid e h := by
    simp only [internalCodec, encodeInternalRecord, except_bind_eq_ok, ensure_eq_ok, checkCanonical_eq_ok]
    exact ⟨_, (), h.1, (), h.2, rfl⟩
  encoded e r h := by
    simp only [internalCodec, encodeInternalRecord, except_bind_eq_ok, ensure_eq_ok,
      checkCanonical_eq_ok] at h
    obtain ⟨_, hkey, _, hcanonical, heq⟩ := h
    refine ⟨⟨hkey, hcanonical⟩, ?_⟩
    cases heq
    simp only [List.length_append, length_le, length_zeros, internalRecordSize, internalRecordHeaderSize]
    omega

/-- The bytes of an internal page's body that its separators take. -/
def internalUsed (entries : List InternalEntry) : Nat := RecordCodec.used internalRecordSize entries

theorem internalFits_iff (leftmostChild : PageId) (entries : List InternalEntry) :
    internalFits leftmostChild entries = true ↔
      2 ≤ leftmostChild ∧ (∀ e ∈ entries, 2 ≤ e.rightChild ∧ Canonical e.key) ∧
        (entries.map InternalEntry.key).Pairwise (· < ·) ∧ internalUsed entries ≤ bodySize := by
  have hstep : internalFits leftmostChild entries = true ↔
      2 ≤ leftmostChild ∧ (internalCodec.encode leftmostChild entries).isOk = true := by
    unfold internalFits encodeInternal ensure
    split <;> simp [*, bind, Except.bind, Except.isOk, Except.toBool]
  rw [hstep, lawful_internalCodec.encode_isOk]
  refine and_congr_right fun _ => ?_
  constructor
  · rintro ⟨hvalid, hordered, hfits⟩
    exact ⟨fun e he => ⟨(hvalid e he).1.2, (hvalid e he).2⟩, hordered, hfits⟩
  · rintro ⟨hvalid, hordered, hfits⟩
    refine ⟨fun e he => ⟨⟨?_, (hvalid e he).1⟩, (hvalid e he).2⟩, hordered, hfits⟩
    have : slotSize + internalRecordSize e ≤ (entries.map fun e => slotSize + internalRecordSize e).sum :=
      List.single_le_sum (by simp) _ (List.mem_map_of_mem he)
    simp only [internalUsed, RecordCodec.used, internalRecordSize, bodySize, pageSize, pageHeaderSize,
      slottedHeaderSize, u16Max] at *
    omega

theorem reads_internalCodec {entry : InternalEntry} (h : entry.rightChild ≤ u64Max) : internalCodec.Reads entry := by
  intro r hr
  simp only [internalCodec, encodeInternalRecord, except_bind_eq_ok, ensure_eq_ok,
    checkCanonical_eq_ok] at hr ⊢
  obtain ⟨_, ⟨hkey, hchild⟩, _, hcanonical, heq⟩ := hr
  simp only [pure, Except.pure, Except.ok.injEq] at heq
  have hlen : r.length = internalRecordHeaderSize + entry.key.length := by
    rw [← heq]
    simp only [List.length_append, length_le, length_zeros, internalRecordHeaderSize]
    omega
  have hfields : Fields r 0 [le 2 entry.key.length, zeros 2, le 8 entry.rightChild] := .of_eq heq.symm
  simp only [Fields, Nat.reduceAdd, length_le, length_zeros] at hfields
  obtain ⟨hr0, hr2, hr4, -⟩ := hfields
  have hrkey : r.drop internalRecordHeaderSize = entry.key := by
    rw [← heq]
    simp only [← List.append_assoc]
    exact List.drop_left' (by simp [internalRecordHeaderSize])
  have hread : ∀ w o, o + w ≤ 12 → readLe w r o = .ok (ofLe (slice r o w)) := fun w o h =>
    readLe_of_le (by rw [hlen, internalRecordHeaderSize]; omega)
  simp only [decodeInternalRecord, readU64, readU16, except_bind_eq_ok, ensure_eq_ok, checkCanonical_eq_ok]
  refine ⟨entry.key.length, ?_, (), ⟨?_, rfl⟩, (), hlen, entry.rightChild, ?_, (), hchild, (), ?_, ?_⟩
  · rw [hread 2 0 (by omega), hr0, ofLe_le _ _ (by unfold u16Max at hkey; omega)]
  · rw [hr2, allZero_zeros]
  · rw [hread 8 4 (by omega), hr4, ofLe_le _ _ (lt_of_le_u64Max h)]
  · rw [hrkey]
    exact hcanonical
  · rw [hrkey]
    rfl

/-! ### Pages -/

@[simp] theorem length_overflowMagic : overflowMagic.length = 4 := rfl

@[simp] theorem length_freeMagic : freeMagic.length = 4 := rfl

namespace PageData

/-- A page that can be written and read back: it fits, and its numbers are 64-bit ones. -/
def Storable : PageData → Prop
  | leaf lsn nextLeaf entries =>
    lsn ≤ u64Max ∧ (∀ p ∈ nextLeaf, p < nullPageId) ∧ leafFits entries = true ∧ ∀ e ∈ entries, e.Sound
  | internal lsn leftmostChild entries =>
    lsn ≤ u64Max ∧ leftmostChild ≤ u64Max ∧ internalFits leftmostChild entries = true ∧
      ∀ e ∈ entries, e.rightChild ≤ u64Max
  | overflow lsn next totalLength chunk =>
    lsn ≤ u64Max ∧ (∀ p ∈ next, p < nullPageId) ∧ (totalLength ≠ 0 ∧ totalLength ≤ maxValueSize) ∧
      chunk ≠ [] ∧ chunk.length ≤ overflowDataSize
  | free lsn next => lsn ≤ u64Max ∧ ∀ p ∈ next, p < nullPageId

/-- The body of a page reads back as the page. -/
def BodyReads (page : PageData) (body : Bytes) : Prop :=
  match page with
  | leaf lsn .. => decodeLeaf lsn body = .ok page
  | internal lsn .. => decodeInternal lsn body = .ok page
  | overflow lsn .. => decodeOverflow lsn body = .ok page
  | free lsn _ => decodeFree lsn body = .ok page

theorem Storable.lsn_le {page : PageData} (h : page.Storable) : page.lsn ≤ u64Max := by
  cases page <;> exact h.1

theorem encodeLeaf_reads {lsn : Lsn} {nextLeaf : Option PageId} {entries : List LeafEntry}
    (h : (leaf lsn nextLeaf entries).Storable) : ∃ body, encodeLeaf nextLeaf entries = .ok body ∧
      body.length = bodySize ∧ decodeLeaf lsn body = .ok (leaf lsn nextLeaf entries) := by
  obtain ⟨_, hnext, hfits, hsound⟩ := h
  obtain ⟨hvalid, hordered, hused⟩ := (lawful_leafCodec.encode_isOk _ _).mp hfits
  obtain ⟨records, hall⟩ := lawful_leafCodec.exists_records hvalid
  have hencode : leafCodec.encode (encodePageId nextLeaf) entries = .ok _ :=
    lawful_leafCodec.encode_eq_ok.mpr ⟨hordered, hused, records, hall, rfl⟩
  refine ⟨_, hencode, lawful_leafCodec.length_layout _ hall hused, ?_⟩
  rw [decodeLeaf, lawful_leafCodec.decode_encode hencode (fun e he => reads_leafCodec (hsound e he))
    (fun e he => (hvalid e he).1) (encodePageId_lt hnext) rfl]
  simp [bind, Except.bind, pure, Except.pure, decodePageId_encodePageId hnext]

theorem encodeInternal_reads {lsn : Lsn} {leftmostChild : PageId} {entries : List InternalEntry}
    (h : (internal lsn leftmostChild entries).Storable) :
    ∃ body, encodeInternal leftmostChild entries = .ok body ∧ body.length = bodySize ∧
      decodeInternal lsn body = .ok (internal lsn leftmostChild entries) := by
  obtain ⟨_, hleftmost, hfits, hchildren⟩ := h
  obtain ⟨hchild, hvalid, hordered, hused⟩ := (internalFits_iff _ _).mp hfits
  have hok : (internalCodec.encode leftmostChild entries).isOk = true := by
    simpa [internalFits, encodeInternal, ensure, hchild, bind, Except.bind] using hfits
  obtain ⟨hvalid, hordered, hused⟩ := (lawful_internalCodec.encode_isOk _ _).mp hok
  obtain ⟨records, hall⟩ := lawful_internalCodec.exists_records hvalid
  have hencode : internalCodec.encode leftmostChild entries = .ok _ :=
    lawful_internalCodec.encode_eq_ok.mpr ⟨hordered, hused, records, hall, rfl⟩
  refine ⟨_, ?_, lawful_internalCodec.length_layout leftmostChild hall hused, ?_⟩
  · simp only [encodeInternal, except_bind_eq_ok, ensure_eq_ok]
    exact ⟨(), hchild, hencode⟩
  · rw [decodeInternal, lawful_internalCodec.decode_encode hencode
      (fun e he => reads_internalCodec (hchildren e he)) (fun e he => (hvalid e he).1.1)
      (lt_of_le_u64Max hleftmost) (by simp [hchild])]
    rfl

theorem encodeOverflow_reads {lsn : Lsn} {next : Option PageId} {totalLength : Nat} {chunk : Bytes}
    (h : (overflow lsn next totalLength chunk).Storable) :
    ∃ body, encodeOverflow next totalLength chunk = .ok body ∧ body.length = bodySize ∧
      decodeOverflow lsn body = .ok (overflow lsn next totalLength chunk) := by
  obtain ⟨_, hnext, htotal, hchunk, hsize⟩ := h
  have hpos : chunk.length ≠ 0 := by simpa using hchunk
  have hsmall : chunk.length ≤ u16Max := hsize.trans (by decide)
  have htotal' := lt_of_le_u64Max (htotal.2.trans (by decide : maxValueSize ≤ u64Max))
  obtain ⟨body, hbody⟩ : ∃ body, body = [overflowMagic, le 2 layoutVersion, zeros 2, le 8 (encodePageId next),
      le 8 totalLength, le 2 chunk.length, zeros 6, chunk].foldr (· ++ ·)
        (zeros (overflowDataSize - chunk.length)) := ⟨_, rfl⟩
  have hlen : body.length = bodySize := by
    simp only [hbody, List.foldr, List.length_append, length_le, length_zeros, overflowMagic, List.length_cons,
      List.length_nil, overflowDataSize, bodySize, pageSize, pageHeaderSize, overflowDataOffset] at *
    omega
  have hfields := Fields.of_eq hbody
  simp only [Fields, Nat.reduceAdd, length_overflowMagic, length_le, length_zeros] at hfields
  obtain ⟨hmagic, hversion, h6, h8, h16, h24, h26, hdata, -⟩ := hfields
  have hread : ∀ w o, o + w ≤ 32 → readLe w body o = .ok (ofLe (slice body o w)) := fun w o h =>
    readLe_of_le (by rw [hlen]; simp only [bodySize, pageSize, pageHeaderSize]; omega)
  refine ⟨body, ?_, hlen, ?_⟩
  · simp only [encodeOverflow, except_bind_eq_ok, ensure_eq_ok]
    exact ⟨(), htotal, (), ⟨hsize, hsmall, hchunk⟩, by rw [hbody]; rfl⟩
  · simp only [decodeOverflow, checkBodySize, checkVersion, readU16, readU64, except_bind_eq_ok, ensure_eq_ok]
    refine ⟨(), hlen, (), hmagic, (), ⟨layoutVersion, ?_, rfl⟩, (), ?_, encodePageId next, ?_, totalLength, ?_,
      chunk.length, ?_, (), ⟨htotal.1, htotal.2, hpos⟩, (), ?_, ?_⟩
    · rw [hversion]
      rfl
    · simp only [h6, h26, allZero_zeros, and_self]
    · rw [hread 8 8 (by omega), h8, ofLe_le _ _ (encodePageId_lt hnext)]
    · rw [hread 8 16 (by omega), h16, ofLe_le _ _ htotal']
    · rw [hread 2 24 (by omega), h24, ofLe_le _ _ (by unfold u16Max at hsmall; omega)]
    · rw [hlen]
      simp only [overflowDataSize, overflowDataOffset, bodySize, pageSize, pageHeaderSize] at *
      omega
    · rw [overflowDataOffset, hdata, decodePageId_encodePageId hnext]
      rfl

theorem encodeFree_reads {lsn : Lsn} {next : Option PageId} (h : (free lsn next).Storable) :
    ∃ body, encodeFree next = .ok body ∧ body.length = bodySize ∧ decodeFree lsn body = .ok (free lsn next) := by
  obtain ⟨_, hnext⟩ := h
  obtain ⟨body, hbody⟩ : ∃ body, body = [freeMagic, le 2 layoutVersion, zeros 2,
      le 8 (encodePageId next)].foldr (· ++ ·) (zeros (bodySize - 16)) := ⟨_, rfl⟩
  have hlen : body.length = bodySize := by
    simp [hbody, bodySize, pageSize, pageHeaderSize]
  have hfields := Fields.of_eq hbody
  simp only [Fields, Nat.reduceAdd, length_freeMagic, length_le, length_zeros] at hfields
  obtain ⟨hmagic, hversion, h6, h8, -⟩ := hfields
  have h16 : body.drop 16 = zeros (bodySize - 16) := by
    simp only [hbody, List.foldr, ← List.append_assoc]
    exact List.drop_left' (by simp)
  refine ⟨body, by rw [hbody]; rfl, hlen, ?_⟩
  simp only [decodeFree, checkBodySize, checkVersion, readU16, readU64, except_bind_eq_ok, ensure_eq_ok]
  refine ⟨(), hlen, (), hmagic, (), ⟨layoutVersion, ?_, rfl⟩, (), ?_, encodePageId next, ?_, ?_⟩
  · rw [hversion]
    rfl
  · simp only [h6, h16, allZero_zeros, and_self]
  · rw [readLe_of_le (by rw [hlen]; decide), h8, ofLe_le _ _ (encodePageId_lt hnext)]
  · rw [decodePageId_encodePageId hnext]
    rfl

theorem encodeBody_reads {page : PageData} (h : page.Storable) :
    ∃ body, page.encodeBody = .ok body ∧ body.length = bodySize ∧ page.BodyReads body := by
  cases page with
  | leaf lsn nextLeaf entries => exact encodeLeaf_reads h
  | internal lsn leftmostChild entries => exact encodeInternal_reads h
  | overflow lsn next totalLength chunk => exact encodeOverflow_reads h
  | free lsn next => exact encodeFree_reads h

variable [Crc32c]

/-- A storable page is written, and what is written reads back as the page and its LSN. -/
theorem Storable.encode_reads {page : PageData} (h : page.Storable) {pageId : PageId}
    (hid : pageId ≤ u64Max) : ∃ bytes, page.encode pageId = .ok bytes ∧ bytes.length = pageSize ∧
      ∃ decoded, decodePageAt bytes (some pageId) = .ok decoded ∧ decoded.header.pageLsn = page.lsn ∧
        PageData.decode decoded = .ok page := by
  obtain ⟨body, hencode, hlen, hreads⟩ := encodeBody_reads h
  obtain ⟨bytes, hbytes⟩ : ∃ bytes, encodePage (PageHeader.new page.pageType pageId page.lsn) body = .ok bytes :=
    ⟨_, encodePage_eq_ok.mpr ⟨rfl, by rw [hlen]; exact le_refl _, rfl⟩⟩
  have hdecode := decodePageAt_encodePage hbytes (lt_of_le_u64Max hid) (lt_of_le_u64Max h.lsn_le)
    (show 0 < 256 ^ 4 by decide)
  obtain ⟨_, _, hlayout⟩ := encodePage_eq_ok.mp hbytes
  refine ⟨bytes, ?_, ?_, _, hdecode, rfl, ?_⟩
  · simp only [encode, except_bind_eq_ok]
    exact ⟨body, hencode, hbytes⟩
  · rw [hlayout]
    exact length_pageLayout _ _ (by rw [hlen]; exact le_refl _)
  · have hpad : body ++ zeros (pageSize - pageHeaderSize - body.length) = body := by
      rw [hlen]
      simp [bodySize, zeros]
    rw [hpad]
    simp only [decode, except_bind_eq_ok, ensure_eq_ok]
    refine ⟨(), rfl, ?_⟩
    cases page <;> exact hreads

theorem Storable.decodeAt_encode {page : PageData} (h : page.Storable) {pageId : PageId} (hid : pageId ≤ u64Max)
    {bytes : Bytes} (hbytes : page.encode pageId = .ok bytes) : decodeAt pageId bytes = .ok page := by
  obtain ⟨bytes', hencode, _, decoded, hdecoded, _, hpage⟩ := h.encode_reads hid
  cases hencode.symm.trans hbytes
  simp only [decodeAt, except_bind_eq_ok]
  exact ⟨decoded, hdecoded, hpage⟩

end PageData

end Dodb
