import Dodb.Btree.Search

/-! Allocating and freeing pages, and the chains of pages that hold long values.

The pages that can still be allocated are those of the free list and those above the
high-water mark (`room`). Every function here either runs out of them or does what it
is for, on the pages it is given and no others. -/
namespace Dodb
open Lib PageProg SearchTree

variable {top : Lsn} {s : TreeStage} {cells : List Cell} {free extra : List PageId}

/-- Two allocator states that differ only in which pages are in use. -/
structure SameCounters (a b : Alloc) : Prop where
  root : b.rootPageId = a.rootPageId
  nextRevision : b.nextRevision = a.nextRevision
  lastLsn : b.lastLsn = a.lastLsn

theorem SameCounters.refl (a : Alloc) : SameCounters a a := ⟨rfl, rfl, rfl⟩

theorem SameCounters.trans {a b c : Alloc} (h : SameCounters a b) (h' : SameCounters b c) : SameCounters a c :=
  ⟨h'.root.trans h.root, h'.nextRevision.trans h.nextRevision, h'.lastLsn.trans h.lastLsn⟩

/-- The pages that can still be allocated. -/
def room (s : TreeStage) (free : List PageId) : Nat := free.length + (u64Max - s.state.highWaterPageId)

/-! ### Single pages -/

theorem Pages.exec_allocatePage (h : Pages top s cells free extra) :
    (∃ e s', exec allocatePage s = .err e s' ∧ room s free = 0) ∨
    ∃ p s' free', exec allocatePage s = .ok p s' ∧ Pages top s' cells free' (p :: extra) ∧
      SameCounters s.state s'.state ∧ s'.view = s.view ∧ room s' free' + 1 = room s free := by
  obtain _ | ⟨p, rest⟩ := free
  · by_cases hw : s.state.highWaterPageId + 1 ≤ u64Max
    · refine .inr ⟨s.state.highWaterPageId + 1, {s with state := {s.state with
        freeListHead := none, highWaterPageId := s.state.highWaterPageId + 1}}, [], ?_, ?_, ⟨rfl, rfl, rfl⟩, rfl, ?_⟩
      · rw [allocatePage, exec_bind_ok (exec_get s), h.freeHead]
        simp only [List.head?_nil]
        rw [addOr_of_le _ hw]
        rfl
      · refine {h with freeHead := rfl, space := ?_, highWater := ?_, dirty := fun q hq => ?_}
        · refine (h.space.grow h.highWater).perm ?_
          simp only [List.nil_append]
          exact List.perm_middle
        · exact h.highWater.trans (Nat.le_succ _)
        · exact ⟨(h.dirty q hq).1, (h.dirty q hq).2.trans (Nat.le_succ _)⟩
      · simp only [room, List.length_nil]
        lia
    · refine .inl ⟨.internalInvariantViolation "page id exhausted", s, ?_, ?_⟩
      · rw [allocatePage, exec_bind_ok (exec_get s), h.freeHead]
        simp only [List.head?_nil]
        rw [addOr_of_lt _ (not_le.mp hw)]
        rfl
      · simp only [room, List.length_nil]
        lia
  · obtain ⟨⟨lsn, _, hv⟩, hrest⟩ := h.freeAt
    refine .inr ⟨p, {s with state := {s.state with freeListHead := rest.head?}}, rest, ?_, ?_, ⟨rfl, rfl, rfl⟩, rfl, ?_⟩
    · rw [allocatePage, exec_bind_ok (exec_get s), h.freeHead]
      simp only [List.head?_cons]
      rw [exec_bind_ok (exec_page (h.mem_range (.inr (.inl List.mem_cons_self))) hv)]
      rfl
    · exact {h with
        freeHead := rfl
        freeAt := hrest
        space := h.space.perm (List.Perm.append_left _ List.perm_middle)}
    · simp only [room, List.length_cons]
      lia

theorem Pages.exec_freePage {p : PageId} {lsn : Revision} (h : Pages top s cells free (p :: extra)) (hlsn : lsn ≤ top) :
    ∃ s', exec (freePage p lsn) s = .ok ⟨⟩ s' ∧ Pages top s' cells (p :: free) extra ∧
      SameCounters s.state s'.state ∧ ∀ q, q ≠ p → s'.view q = s.view q := by
  have hw := h.write List.mem_cons_self (.free lsn free.head?)
  refine ⟨{s.write p (.free lsn free.head?) with
    state := {s.state with freeListHead := some p}}, ?_, ?_, ⟨rfl, rfl, rfl⟩, ?_⟩
  · rw [freePage, exec_bind_ok (exec_get s), h.freeHead]
    rfl
  · exact {hw with
      freeHead := rfl
      freeAt := ⟨⟨lsn, hlsn, s.view_write_same p _⟩, hw.freeAt⟩
      space := hw.space.perm (List.Perm.append_left _ List.perm_middle.symm)}
  · exact fun q hq => s.view_write_ne _ hq

/-! ### Several pages -/

theorem Pages.exec_allocatePages (n : Nat) (h : Pages top s cells free extra) :
    (∃ e s', exec (allocatePages n) s = .err e s' ∧ room s free < n) ∨
    ∃ ps s' free', exec (allocatePages n) s = .ok ps s' ∧ ps.length = n ∧
      Pages top s' cells free' (ps ++ extra) ∧ SameCounters s.state s'.state ∧ s'.view = s.view ∧
        room s' free' + n = room s free := by
  induction n generalizing s free extra with
  | zero => exact .inr ⟨[], s, free, rfl, rfl, h, .refl _, rfl, rfl⟩
  | succ n ih =>
    rcases h.exec_allocatePage with ⟨e, s', hexec, hroom⟩ | ⟨p, s₁, free₁, hexec, h₁, hc₁, hv₁, hroom₁⟩
    · exact .inl ⟨e, s', by rw [allocatePages, exec_bind_err hexec], by omega⟩
    · rcases ih h₁ with ⟨e, s', hexec', hroom⟩ | ⟨ps, s₂, free₂, hexec₂, hlen, h₂, hc₂, hv₂, hroom₂⟩
      · exact .inl ⟨e, s', by rw [allocatePages, exec_bind_ok hexec, exec_bind_err hexec'], by omega⟩
      · refine .inr ⟨p :: ps, s₂, free₂, ?_, by simp [hlen], ?_, hc₁.trans hc₂, hv₂.trans hv₁, by omega⟩
        · rw [allocatePages, exec_bind_ok hexec, exec_bind_ok hexec₂, exec_pure]
        · exact h₂.perm (List.Perm.refl _) List.perm_middle.symm

theorem Pages.exec_writeChunks {lsn : Revision} (total : Nat) (hlsn : lsn ≤ top) {ps : List PageId}
    {chunks : List Bytes} (hlen : ps.length = chunks.length) (h : Pages top s cells free (ps ++ extra)) :
    ∃ s', exec (writeChunks lsn total ps chunks) s = .ok ⟨⟩ s' ∧ Pages top s' cells free (ps ++ extra) ∧
      s'.state = s.state ∧ (∀ q, q ∉ ps → s'.view q = s.view q) ∧ ChainAt top s'.view total (ps.zip chunks) := by
  induction ps generalizing s chunks extra with
  | nil =>
    obtain rfl : chunks = [] := by simpa using hlen.symm
    exact ⟨s, rfl, h, rfl, fun q _ => rfl, True.intro⟩
  | cons p ps ih =>
    obtain _ | ⟨c, cs⟩ := chunks
    · simp at hlen
    · have hnodup := h.extra_nodup
      rw [List.cons_append, List.nodup_cons] at hnodup
      have hw := h.write (List.mem_append_left _ List.mem_cons_self) (.overflow lsn ps.head? total c)
      have hw' : Pages top (s.write p (.overflow lsn ps.head? total c)) cells free (ps ++ p :: extra) :=
        hw.perm (List.Perm.refl _) List.perm_middle
      obtain ⟨s', hexec, hpages, hstate, hview, hchain⟩ := ih (by simpa using hlen) hw'
      have hp : p ∉ ps := fun hm => hnodup.1 (List.mem_append_left _ hm)
      refine ⟨s', ?_, hpages.perm (List.Perm.refl _) List.perm_middle.symm, hstate, ?_, ?_, hchain⟩
      · rw [writeChunks, exec_bind_ok (exec_writePage s _ _), hexec]
      · intro q hq
        rw [List.mem_cons, not_or] at hq
        rw [hview q hq.2, s.view_write_ne _ hq.1]
      · refine ⟨lsn, hlsn, ?_⟩
        rw [hview p hp, s.view_write_same]
        obtain _ | ⟨q, qs⟩ := ps
        · rfl
        · obtain _ | ⟨d, ds⟩ := cs
          · simp at hlen
          · rfl

/-! ### The chunks of a value -/

section Chunks
variable {size : Nat} {value : Bytes}

theorem length_chunks (size : Nat) (value : Bytes) :
    (chunks size value).length = (value.length + size - 1) / size := by
  simp [chunks]

/-- The chunks of a value, from the first on. -/
theorem flatten_chunks_take (size : Nat) (value : Bytes) (n : Nat) :
    ((List.range n).map fun i => slice value (i * size) size).flatten = value.take (n * size) := by
  induction n with
  | zero => simp
  | succ n ih =>
    rw [List.range_succ, List.map_append, List.flatten_append, ih, Nat.succ_mul, List.take_add]
    simp [slice]

theorem flatten_chunks (hsize : 0 < size) : (chunks size value).flatten = value := by
  rw [chunks, flatten_chunks_take]
  refine List.take_of_length_le ?_
  have hdiv := Nat.div_add_mod (value.length + size - 1) size
  have hmod := Nat.mod_lt (value.length + size - 1) hsize
  rw [Nat.mul_comm] at hdiv
  omega

theorem chunk_length (hsize : 0 < size) {c : Bytes} (hc : c ∈ chunks size value) : c ≠ [] ∧ c.length ≤ size := by
  obtain ⟨i, hi, rfl⟩ := List.mem_map.mp hc
  rw [List.mem_range, Nat.lt_div_iff_mul_lt hsize] at hi
  constructor
  · rw [← List.length_pos_iff]
    simp only [slice, List.length_take, List.length_drop]
    omega
  · simp only [slice, List.length_take]
    exact Nat.min_le_left _ _

end Chunks

/-! ### Making a value -/

/-- The pages a value takes outside its leaf. -/
def chainPages (limits : StorageLimits) (value : Bytes) : Nat :=
  if value.length ≤ limits.inlineValueLimit ∧ value.length ≤ inlineValueLimit then 0
  else (value.length + overflowDataSize - 1) / overflowDataSize

theorem Pages.exec_makeValue (limits : StorageLimits) {value : Bytes} {lsn : Revision} (hlsn : lsn ≤ top)
    (hvalue : value.length ≤ maxValueSize) (h : Pages top s cells free extra) :
    (∃ e s', exec (makeValue limits value lsn) s = .err e s' ∧ room s free < chainPages limits value) ∨
    ∃ (stored : Stored) (s' : TreeStage) (free' : List PageId), exec (makeValue limits value lsn) s = .ok stored.ref s' ∧ stored.bytes = value ∧
      stored.Valid ∧ stored.At top s'.view ∧ Pages top s' cells free' (stored.pages ++ extra) ∧
        SameCounters s.state s'.state ∧ (∀ q, q ∉ stored.pages → s'.view q = s.view q) ∧
          room s' free' + chainPages limits value = room s free ∧
            inlineLength (some stored.ref) = if chainPages limits value = 0 then value.length else 0 := by
  by_cases hinline : value.length ≤ limits.inlineValueLimit ∧ value.length ≤ inlineValueLimit
  · refine .inr ⟨.inline value, s, free, ?_, rfl, hinline.2, True.intro, h, .refl _, fun q _ => rfl, ?_, ?_⟩
    · rw [makeValue, if_pos hinline, exec_pure]
      rfl
    · simp [chainPages, hinline]
    · simp [chainPages, hinline, Stored.ref, inlineLength]
  · have hsize : 0 < overflowDataSize := by decide
    have hpos : 0 < value.length := by
      by_contra hzero
      exact hinline ⟨by omega, by omega⟩
    have hcount : chainPages limits value = (chunks overflowDataSize value).length := by
      rw [chainPages, if_neg hinline, length_chunks]
    have hmax : (chunks overflowDataSize value).length ≤ maxOverflowPages := by
      rw [length_chunks]
      exact Nat.div_le_div_right (by omega)
    have hne : (chunks overflowDataSize value).length ≠ 0 := by
      rw [length_chunks]
      exact (Nat.div_pos (by omega) hsize).ne'
    have hcheck : (value.length + overflowDataSize - 1) / overflowDataSize ≤ maxOverflowPages := by
      rwa [← length_chunks]
    rcases h.exec_allocatePages (chunks overflowDataSize value).length with
      ⟨e, s', hexec, hroom⟩ | ⟨ps, s₁, free₁, hexec, hlen, h₁, hc₁, hv₁, hroom₁⟩
    · refine .inl ⟨e, s', ?_, by rw [hcount]; exact hroom⟩
      rw [makeValue, if_neg hinline]
      simp only
      rw [exec_bind_ok (exec_check_pos s hcheck _), ← length_chunks, exec_bind_err hexec]
    · obtain ⟨s₂, hexec₂, h₂, hstate, hview, hchain⟩ := h₁.exec_writeChunks value.length hlsn hlen
      have hfst : (ps.zip (chunks overflowDataSize value)).map Prod.fst = ps :=
        List.map_fst_zip (by omega)
      have hsnd : (ps.zip (chunks overflowDataSize value)).flatMap Prod.snd = value := by
        show ((ps.zip (chunks overflowDataSize value)).map Prod.snd).flatten = value
        rw [List.map_snd_zip (by omega), flatten_chunks hsize]
      refine .inr ⟨.chain (ps.zip (chunks overflowDataSize value)), s₂, free₁, ?_, hsnd, ?_, ?_, ?_, ?_, ?_, ?_, ?_⟩
      · rw [makeValue, if_neg hinline]
        simp only
        rw [exec_bind_ok (exec_check_pos s hcheck _), ← length_chunks, exec_bind_ok hexec,
          exec_bind_ok hexec₂, exec_pure, Stored.ref, hsnd, ← List.head?_map, hfst]
        obtain _ | ⟨p, ps⟩ := ps <;> rfl
      · refine ⟨?_, ?_, ?_, fun c hc => ?_⟩
        · intro hnil
          have : (ps.zip (chunks overflowDataSize value)).length = 0 := by rw [hnil]; rfl
          rw [List.length_zip, hlen, Nat.min_self] at this
          exact hne this
        · rw [List.length_zip, hlen, Nat.min_self]
          exact hmax
        · rw [hsnd]
          exact hvalue
        · exact chunk_length hsize (List.of_mem_zip hc).2
      · show ChainAt top s₂.view _ _
        rw [hsnd]
        exact hchain
      · show Pages top s₂ cells free₁ ((ps.zip (chunks overflowDataSize value)).map Prod.fst ++ extra)
        rw [hfst]
        exact h₂
      · rw [hstate]
        exact hc₁
      · intro q hq
        have hq' : q ∉ (ps.zip (chunks overflowDataSize value)).map Prod.fst := hq
        rw [hfst] at hq'
        rw [hview q hq', hv₁]
      · rw [hcount]
        have : room s₂ free₁ = room s₁ free₁ := by rw [room, room, hstate]
        rw [this]
        exact hroom₁
      · rw [hcount, if_neg hne]
        rfl

/-! ### Reading a value -/

theorem exec_readChain {total : Nat} {chunks : List (PageId × Bytes)} (hat : ChainAt top s.view total chunks)
    (hrange : ∀ p ∈ chunks.map Prod.fst, firstDataPage ≤ p ∧ p ≤ s.state.highWaterPageId)
    (hnodup : (chunks.map Prod.fst).Nodup) {remaining : Nat} (hlen : chunks.length ≤ remaining)
    {visited : List PageId} (hvisited : ∀ p ∈ visited, p ∉ chunks.map Prod.fst) (output : Bytes) :
    exec (readChain total remaining (chunks.head?.map Prod.fst) visited output) s =
      .ok (output ++ chunks.flatMap Prod.snd) s := by
  induction chunks generalizing remaining visited output with
  | nil => cases remaining <;> simp [readChain]
  | cons c rest ih =>
    obtain ⟨p, chunk⟩ := c
    obtain ⟨remaining, rfl⟩ : ∃ n, remaining = n + 1 := ⟨remaining - 1, by simp at hlen; omega⟩
    obtain ⟨⟨lsn, _, hv⟩, hrest⟩ := hat
    rw [List.map_cons, List.nodup_cons] at hnodup
    have hfresh : p ∉ visited := fun hm => hvisited p hm List.mem_cons_self
    rw [List.head?_cons, Option.map_some, readChain, exec_bind_ok (exec_check_pos s hfresh _),
      exec_bind_ok (exec_page (hrange p List.mem_cons_self) hv)]
    simp only
    rw [exec_bind_ok (exec_check_pos s True.intro _), ih hrest (fun q hq => hrange q (List.mem_cons_of_mem _ hq)) hnodup.2
      (by simpa using hlen)]
    · simp
    · intro q hq hm
      rcases List.mem_cons.mp hq with rfl | hq
      · exact hnodup.1 hm
      · exact hvisited q hq (List.mem_cons_of_mem _ hm)

theorem exec_readValue {stored : Stored} (hvalid : stored.Valid) (hat : stored.At top s.view)
    (hrange : ∀ p ∈ stored.pages, firstDataPage ≤ p ∧ p ≤ s.state.highWaterPageId)
    (hnodup : stored.pages.Nodup) : exec (readValue stored.ref) s = .ok stored.bytes s := by
  cases stored with
  | inline bytes => rfl
  | chain chunks =>
    have hread := exec_readChain hat hrange hnodup hvalid.2.1
      (fun p (hp : p ∈ ([] : List PageId)) => absurd hp List.not_mem_nil) []
    rw [Stored.ref, readValue, hvalid.head.1, exec_bind_ok hread, exec_bind_ok (exec_check_pos s (by simp) _), exec_pure]
    simp [Stored.bytes]

/-! ### Freeing a value -/

theorem Pages.exec_freeChain {total : Nat} {lsn : Revision} (hlsn : lsn ≤ top) {chunks : List (PageId × Bytes)}
    (hat : ChainAt top s.view total chunks) (h : Pages top s cells free (chunks.map Prod.fst ++ extra))
    {remaining : Nat} (hlen : chunks.length ≤ remaining) {visited : List PageId}
    (hvisited : ∀ p ∈ visited, p ∉ chunks.map Prod.fst) {sum : Nat}
    (hsum : sum + (chunks.flatMap Prod.snd).length ≤ u64Max) :
    ∃ s' free', exec (freeChain total lsn remaining (chunks.head?.map Prod.fst) visited sum) s =
        .ok (sum + (chunks.flatMap Prod.snd).length) s' ∧ Pages top s' cells free' extra ∧
      SameCounters s.state s'.state ∧ ∀ q, q ∉ chunks.map Prod.fst → s'.view q = s.view q := by
  induction chunks generalizing s free remaining visited sum with
  | nil => exact ⟨s, free, by cases remaining <;> simp [freeChain], h, .refl _, fun q _ => rfl⟩
  | cons c rest ih =>
    obtain ⟨p, chunk⟩ := c
    obtain ⟨remaining, rfl⟩ : ∃ n, remaining = n + 1 := ⟨remaining - 1, by simp at hlen; omega⟩
    obtain ⟨⟨lsn', _, hv⟩, hrest⟩ := hat
    have hnodup := h.extra_nodup
    rw [List.map_cons, List.cons_append, List.nodup_cons] at hnodup
    have hp : p ∉ rest.map Prod.fst := fun hm => hnodup.1 (List.mem_append_left _ hm)
    have hfresh : p ∉ visited := fun hm => hvisited p hm List.mem_cons_self
    simp only [List.flatMap_cons, List.length_append] at hsum
    have h' : Pages top s cells free (p :: (rest.map Prod.fst ++ extra)) := h
    obtain ⟨s₁, hexec₁, h₁, hc₁, hv₁⟩ := h'.exec_freePage hlsn
    have hrest₁ : ChainAt top s₁.view total rest :=
      hrest.congr fun q hq => hv₁ q fun heq => hp (heq ▸ hq)
    have hlen' : rest.length ≤ remaining := by simpa using hlen
    have hvisited' : ∀ q ∈ p :: visited, q ∉ rest.map Prod.fst := fun q hq hm =>
      (List.mem_cons.mp hq).elim (fun heq => hp (heq ▸ hm)) fun hq => hvisited q hq (List.mem_cons_of_mem _ hm)
    have hsum' : sum + chunk.length + (rest.flatMap Prod.snd).length ≤ u64Max := by omega
    obtain ⟨s₂, free₂, hexec₂, h₂, hc₂, hv₂⟩ := ih hrest₁ h₁ hlen' hvisited' hsum'
    refine ⟨s₂, free₂, ?_, h₂, hc₁.trans hc₂, fun q hq => ?_⟩
    · rw [List.head?_cons, Option.map_some, freeChain, exec_bind_ok (exec_check_pos s hfresh _),
        exec_bind_ok (exec_page (h.mem_range (.inr (.inr List.mem_cons_self))) hv)]
      simp only
      have hadd : exec (ofExcept (addOr (.corruption "overflow length overflows") sum chunk.length) : Prog Nat) s =
          .ok (sum + chunk.length) s := by
        rw [addOr_of_le _ (by omega)]
        rfl
      rw [exec_bind_ok (exec_check_pos s True.intro _), exec_bind_ok hadd, exec_bind_ok hexec₁, hexec₂]
      simp [Nat.add_assoc]
    · rw [List.map_cons, List.mem_cons, not_or] at hq
      rw [hv₂ q hq.2, hv₁ q hq.1]

theorem Pages.exec_freeValue {lsn : Revision} (hlsn : lsn ≤ top) {value : Option Stored}
    (hvalid : ∀ v ∈ value, v.Valid) (hat : ∀ v ∈ value, v.At top s.view)
    (h : Pages top s cells free ((value.map Stored.pages).getD [] ++ extra)) :
    ∃ s' free', exec (freeValue (value.map Stored.ref) lsn) s = .ok () s' ∧ Pages top s' cells free' extra ∧
      SameCounters s.state s'.state ∧ ∀ q, q ∉ (value.map Stored.pages).getD [] → s'.view q = s.view q := by
  obtain _ | v := value
  · exact ⟨s, free, rfl, h, .refl _, fun q _ => rfl⟩
  · have hvalid := hvalid v rfl
    have hat := hat v rfl
    cases v with
    | inline bytes => exact ⟨s, free, rfl, h, .refl _, fun q _ => rfl⟩
    | chain chunks =>
      obtain ⟨hhead, hne⟩ := hvalid.head
      have hmax : 0 + (chunks.flatMap Prod.snd).length ≤ u64Max := by
        have := hvalid.2.2.1
        unfold maxValueSize at this
        unfold u64Max
        omega
      obtain ⟨s', free', hexec, hpages, hc, hv⟩ := Pages.exec_freeChain hlsn hat h hvalid.2.1
        (fun p (hp : p ∈ ([] : List PageId)) => absurd hp List.not_mem_nil) hmax
      refine ⟨s', free', ?_, hpages, hc, hv⟩
      rw [Option.map_some, Stored.ref, freeValue, hhead, exec_bind_ok hexec, exec_check_pos s' ⟨by omega, hne⟩]

end Dodb
