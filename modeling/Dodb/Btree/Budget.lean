import Dodb.Btree.ViewReads

/-! Reads under a response budget.

A read that is charged to a budget goes as it would with a larger one, and can only stop earlier, because a row or a
state does not fit. What it was charged is what its answer takes: seventeen bytes, and for every row the lengths of its
parts and twenty bytes. -/
namespace Dodb
open Lib PageProg
variable {maximum limit : Nat} {s' : RowState}

/-- The error of a budget that is exhausted. -/
def TooLarge (e : Error) : Prop := ∃ text, e = .responseTooLarge text

/-- The bytes a row is charged for. -/
def rowCharge (row : Document) : Nat := row.key.pk.length + row.key.sk.length + row.value.length + 20

namespace ResponseBudget

/-- The two have been charged the same, and the second has at least as much room. -/
structure Below (b c : ResponseBudget) : Prop where
  usedWire : b.usedWire = c.usedWire
  usedMemory : b.usedMemory = c.usedMemory
  maximumWire : b.maximumWire ≤ c.maximumWire
  maximumMemory : b.maximumMemory ≤ c.maximumMemory

theorem reserve_eq_ok {b b' : ResponseBudget} {wire memory : Nat} : b.reserve wire memory = .ok b' ↔
    (b.usedWire + wire ≤ u64Max ∧ b.usedMemory + memory ≤ u64Max ∧ b.usedWire + wire ≤ b.maximumWire ∧
      b.usedMemory + memory ≤ b.maximumMemory) ∧
    b' = {b with usedWire := b.usedWire + wire, usedMemory := b.usedMemory + memory} := by
  unfold reserve addOr checkedAdd
  by_cases hwire : b.usedWire + wire ≤ u64Max
  · by_cases hmemory : b.usedMemory + memory ≤ u64Max
    · rw [if_pos hwire, if_pos hmemory]
      simp only [except_ok_bind, except_bind_eq_ok, ensure_eq_ok, except_pure_eq_ok]
      constructor
      · intro h
        obtain ⟨_, hmax, rfl⟩ := h
        exact ⟨⟨hwire, hmemory, hmax.1, hmax.2⟩, rfl⟩
      · intro h
        exact ⟨(), h.1.2.2, h.2.symm⟩
    · rw [if_pos hwire, if_neg hmemory]
      refine ⟨fun h => ?_, fun h => absurd h.1.2.1 hmemory⟩
      cases h
  · rw [if_neg hwire]
    refine ⟨fun h => ?_, fun h => absurd h.1.1 hwire⟩
    cases h

theorem tooLarge_of_reserve {b : ResponseBudget} {wire memory : Nat} {e : Error}
    (h : b.reserve wire memory = .error e) : TooLarge e := by
  unfold reserve addOr checkedAdd at h
  by_cases hwire : b.usedWire + wire ≤ u64Max
  · by_cases hmemory : b.usedMemory + memory ≤ u64Max
    · rw [if_pos hwire, if_pos hmemory] at h
      simp only [except_ok_bind, except_bind_eq_error, ensure_eq_error] at h
      cases h with
      | inl h => exact ⟨_, h.2.symm⟩
      | inr h =>
        obtain ⟨_, -, h⟩ := h
        cases h
    · rw [if_pos hwire, if_neg hmemory] at h
      cases h
      exact ⟨_, rfl⟩
  · rw [if_neg hwire] at h
    cases h
    exact ⟨_, rfl⟩

/-- What fits one budget fits one with more room. -/
theorem Below.reserve {b c b' : ResponseBudget} (h : b.Below c) {wire memory : Nat}
    (hok : b.reserve wire memory = .ok b') : ∃ c', c.reserve wire memory = .ok c' ∧ b'.Below c' := by
  obtain ⟨⟨hwire, hmemory, hmaxWire, hmaxMemory⟩, rfl⟩ := reserve_eq_ok.mp hok
  refine ⟨_, reserve_eq_ok.mpr ⟨⟨?_, ?_, ?_, ?_⟩, rfl⟩, ⟨?_, ?_, h.maximumWire, h.maximumMemory⟩⟩
  · rw [← h.usedWire]
    exact hwire
  · rw [← h.usedMemory]
    exact hmemory
  · rw [← h.usedWire]
    exact hmaxWire.trans h.maximumWire
  · rw [← h.usedMemory]
    exact hmaxMemory.trans h.maximumMemory
  · exact congrArg (· + wire) h.usedWire
  · exact congrArg (· + memory) h.usedMemory

/-- A row that fits is charged in full: a sum that was cut off would not have fitted. -/
theorem reserveDocument_eq_ok {b b' : ResponseBudget} {key : DocumentKey} {length : Nat} (hpos : 0 < b.usedWire)
    (h : b.reserveDocument key length = .ok b') :
    b'.usedWire = b.usedWire + (key.pk.length + key.sk.length + length + 20) ∧ b'.usedWire ≤ b.maximumWire ∧
      b'.maximumWire = b.maximumWire := by
  obtain ⟨⟨hwire, -, hmax, -⟩, rfl⟩ := reserve_eq_ok.mp h
  have hexact : saturatingAdd (saturatingAdd (saturatingAdd key.pk.length key.sk.length) length) 20 =
      key.pk.length + key.sk.length + length + 20 := by
    unfold saturatingAdd at hwire ⊢
    omega
  dsimp only
  rw [hexact] at hmax ⊢
  exact ⟨rfl, hmax, rfl⟩

/-- The budgets of a read that is limited and one that is not. -/
theorem below_new {maximum : Nat} {b : ResponseBudget} (hmaximum : maximum ≤ usizeMax)
    (h : new maximum = .ok b) : ∃ c, new usizeMax = .ok c ∧ b.Below c := by
  simp only [new, except_bind_eq_ok, ensure_eq_ok, except_pure_eq_ok] at h
  obtain ⟨_, -, rfl⟩ := h
  refine ⟨⟨usizeMax, saturatingAdd usizeMax responseMemoryOverhead, responseWireOverhead, 0⟩, ?_, rfl, rfl, hmaximum, ?_⟩
  · rw [new, ensure_pos (by decide)]
    rfl
  · dsimp only
    unfold saturatingAdd
    omega

theorem new_eq_ok {maximum : Nat} {b : ResponseBudget} (h : new maximum = .ok b) :
    b.usedWire = responseWireOverhead ∧ b.maximumWire = maximum ∧ responseWireOverhead ≤ maximum := by
  simp only [new, except_bind_eq_ok, ensure_eq_ok, except_pure_eq_ok] at h
  obtain ⟨_, hle, rfl⟩ := h
  exact ⟨rfl, rfl, hle⟩

theorem tooLarge_of_new {maximum : Nat} {e : Error} (h : new maximum = .error e) : TooLarge e := by
  simp only [new, except_bind_eq_error, ensure_eq_error] at h
  cases h with
  | inl h => exact ⟨_, h.2.symm⟩
  | inr h =>
    obtain ⟨_, -, h⟩ := h
    cases h

end ResponseBudget

/-! ### Reads that stop early -/

/-- The first read goes as the second, or stops because its budget is exhausted. -/
abbrev Metered {α β : Type} (R : α → β → Prop) (p : Prog α) (q : Prog β) : Prop := Alike TooLarge Eq R p q

theorem metered_same {α : Type} (p : Prog α) : Metered Eq p p := .refl (fun _ => rfl) p

/-- A value that is read is as long as its reference says. -/
theorem readValue_ends (value : ValueRef) : Ends (fun bytes => bytes.length = valueLength value) (readValue value) := by
  cases value with
  | inline bytes => exact rfl
  | overflow head length =>
    refine (ends_true _).bind fun output _ => ?_
    exact Ends.check_bind fun hlength => hlength

/-- A state under a budget of `maximum`, and the same state under a larger one. -/
structure StateCharged (maximum : Nat) (x y : RevisionState × ResponseBudget) : Prop where
  state : x.1 = y.1
  below : x.2.Below y.2
  fits : 30 + x.1.valueLength ≤ maximum

theorem getState_metered (key : DocumentKey) {b c : ResponseBudget} (h : b.Below c)
    (hused : b.usedWire = responseWireOverhead) (hmaximum : b.maximumWire = maximum) :
    Metered (StateCharged maximum) (getState key b) (getState key c) := by
  have hreserve : ∀ length, Metered (fun b' c' => b'.Below c' ∧ 30 + length ≤ maximum)
      (ofExcept (b.reserveState length)) (ofExcept (c.reserveState length)) := by
    intro length
    refine .ofExcept (fun b' hb => ?_) fun e he => .inl (ResponseBudget.tooLarge_of_reserve he)
    obtain ⟨c', hc, hbelow⟩ := h.reserve hb
    obtain ⟨⟨-, -, hmax, -⟩, -⟩ := ResponseBudget.reserve_eq_ok.mp hb
    rw [hused, hmaximum] at hmax
    unfold responseWireOverhead at hmax
    exact ⟨c', hc, hbelow, by omega⟩
  refine (metered_same _).bind fun _ _ _ => (metered_same _).bind fun found found' hfound => ?_
  rw [hfound]
  refine (metered_same _).bind fun leaf leaf' hleaf => ?_
  rw [hleaf]
  cases leaf'.entries.find? fun entry => decide (entry.key = key.encode) with
  | none => exact (hreserve 0).bind fun b' c' hb => .done ⟨rfl, hb.1, hb.2⟩
  | some entry =>
    dsimp only
    cases entry.value with
    | none => exact (hreserve 0).bind fun b' c' hb => .done ⟨rfl, hb.1, hb.2⟩
    | some value =>
      refine (hreserve _).bind fun b' c' hb => ?_
      refine (Alike.same (fun _ => rfl) (readValue_ends value)).bind fun bytes bytes' hbytes => ?_
      obtain ⟨rfl, hlength⟩ := hbytes
      have hfits : 30 + bytes.length ≤ maximum := hlength ▸ hb.2
      exact .done ⟨rfl, hb.1, hfits⟩

/-- Rows under a budget of `maximum`, and the same rows under a larger one. -/
structure RowsCharged (maximum : Nat) (r r' : List Document) (b c : ResponseBudget) : Prop where
  rows : r = r'
  below : b.Below c
  used : b.usedWire = responseWireOverhead + (r.map rowCharge).sum
  fits : b.usedWire ≤ maximum
  maximum : b.maximumWire = maximum

/-- The same for the state of a pass over the leaves. -/
structure Charged (maximum : Nat) (s s' : RowState) : Prop where
  finished : s.finished = s'.finished
  first : s.first = s'.first
  charged : RowsCharged maximum s.rows s'.rows s.budget s'.budget

theorem Charged.setFirst {s : RowState} (h : Charged maximum s s') :
    Charged maximum {s with first := false} {s' with first := false} := ⟨h.finished, rfl, h.charged⟩

theorem Charged.finish {s : RowState} (h : Charged maximum s s') :
    Charged maximum {s with finished := true} {s' with finished := true} := ⟨rfl, h.first, h.charged⟩

theorem pushRow_metered (limit : Nat) (key : DocumentKey) (entry : LeafEntry) {s : RowState}
    (h : Charged maximum s s') : Metered (Charged maximum) (pushRow limit key entry s) (pushRow limit key entry s') := by
  unfold pushRow
  cases entry.value with
  | none => exact .done h
  | some value =>
    have hcharged := h.charged
    have hpos : 0 < s.budget.usedWire := by
      rw [hcharged.used]
      unfold responseWireOverhead
      omega
    have hreserve : Metered (fun b c => b.Below c ∧ s.budget.reserveDocument key (valueLength value) = .ok b)
        (ofExcept (s.budget.reserveDocument key (valueLength value)))
        (ofExcept (s'.budget.reserveDocument key (valueLength value))) := by
      refine .ofExcept (fun b hb => ?_) fun e he => .inl (ResponseBudget.tooLarge_of_reserve he)
      obtain ⟨c, hc, hbelow⟩ := hcharged.below.reserve hb
      exact ⟨c, hc, hbelow, hb⟩
    refine hreserve.bind fun b c hbc => ?_
    refine (Alike.same (fun _ => rfl) (readValue_ends value)).bind fun bytes bytes' hbytes => ?_
    obtain ⟨rfl, hlength⟩ := hbytes
    obtain ⟨hused, hfits, hmaximum⟩ := ResponseBudget.reserveDocument_eq_ok hpos hbc.2
    refine .done ⟨by rw [hcharged.rows], h.first, ⟨by rw [hcharged.rows], hbc.1, ?_, ?_, ?_⟩⟩
    · dsimp only
      rw [hused, hcharged.used, List.map_append, List.sum_append, ← hlength]
      simp only [List.map_cons, List.map_nil, List.sum_cons, List.sum_nil, rowCharge]
      omega
    · exact hcharged.maximum ▸ hfits
    · exact hmaximum.trans hcharged.maximum

theorem queryEntries_metered (pk : PrimaryKey) (after : Option SortKey) (cursor : Option Bytes) (limit : Nat)
    (entries : List LeafEntry) {s : RowState} (h : Charged maximum s s') :
    Metered (Charged maximum) (queryEntries pk after cursor limit entries s)
      (queryEntries pk after cursor limit entries s') := by
  induction entries generalizing s s' with
  | nil => exact .done h
  | cons entry rest ih =>
    unfold queryEntries
    rw [← h.first]
    by_cases hskip : s.first = true ∧ (cursor.any fun cursor => decide (entry.key ≤ cursor)) = true
    · rw [if_pos hskip, if_pos hskip]
      exact ih h
    rw [if_neg hskip, if_neg hskip]
    refine (metered_same _).bind fun found found' hfound => ?_
    rw [hfound]
    split
    · split
      · exact .done h.setFirst.finish
      · exact ih h.setFirst
    · split
      · exact ih h.setFirst
      · refine (pushRow_metered limit found' entry h.setFirst).bind fun r r' hr => ?_
        rw [hr.finished]
        split
        · exact .done hr
        · exact ih hr

theorem queryLeaves_metered (pk : PrimaryKey) (after : Option SortKey) (cursor : Option Bytes) (limit bound : Nat)
    (p : PageId) (visited : List PageId) {s : RowState} (h : Charged maximum s s') :
    Metered (Charged maximum) (queryLeaves pk after cursor limit bound p visited s)
      (queryLeaves pk after cursor limit bound p visited s') := by
  induction bound generalizing p visited s s' with
  | zero => exact .fail rfl
  | succ bound ih =>
    unfold queryLeaves
    rw [← h.charged.rows]
    split
    · exact .done h
    · refine (metered_same _).bind fun _ _ _ => (metered_same _).bind fun leaf leaf' hleaf => ?_
      rw [hleaf]
      refine (queryEntries_metered pk after cursor limit _ h).bind fun r r' hr => ?_
      have hfinished := hr.finished
      by_cases hdone : r.finished = true
      · rw [if_pos hdone, if_pos (hfinished ▸ hdone)]
        exact .done hr
      · rw [if_neg hdone, if_neg (hfinished ▸ hdone)]
        cases leaf'.nextLeaf with
        | none => exact .done hr
        | some next => exact ih _ _ hr.setFirst

theorem scanEntries_metered (cursor : Option Bytes) (limit : Nat) (entries : List LeafEntry)
    {s : RowState} (h : Charged maximum s s') :
    Metered (Charged maximum) (scanEntries cursor limit entries s) (scanEntries cursor limit entries s') := by
  induction entries generalizing s s' with
  | nil => exact .done h
  | cons entry rest ih =>
    unfold scanEntries
    split
    · exact ih h
    · refine (metered_same _).bind fun found found' hfound => ?_
      rw [hfound]
      refine (pushRow_metered limit found' entry h).bind fun r r' hr => ?_
      rw [hr.finished]
      split
      · exact .done hr
      · exact ih hr

theorem scanLeaves_metered (cursor : Option Bytes) (limit bound : Nat) (p : PageId) (visited : List PageId)
    {s : RowState} (h : Charged maximum s s') :
    Metered (Charged maximum) (scanLeaves cursor limit bound p visited s) (scanLeaves cursor limit bound p visited s') := by
  induction bound generalizing p visited s s' with
  | zero => exact .fail rfl
  | succ bound ih =>
    refine (metered_same _).bind fun _ _ _ => (metered_same _).bind fun leaf leaf' hleaf => ?_
    rw [hleaf]
    refine (scanEntries_metered cursor limit _ h).bind fun r r' hr => ?_
    rw [hr.finished]
    split
    · exact .done hr
    · cases leaf'.nextLeaf with
      | none => exact .done hr
      | some next => exact ih _ _ hr

section Start
variable {maximum : Nat} {b c : ResponseBudget} (h : b.Below c) (hused : b.usedWire = responseWireOverhead)
  (hmaximum : b.maximumWire = maximum) (hle : responseWireOverhead ≤ maximum)
include h hused hmaximum hle

theorem charged_start : Charged maximum ⟨false, true, b, []⟩ ⟨false, true, c, []⟩ :=
  ⟨rfl, rfl, rfl, h, hused, hused ▸ hle, hmaximum⟩

theorem query_metered (pk : PrimaryKey) (after : Option SortKey) (limit : Nat) :
    Metered (fun x y => RowsCharged maximum x.1 y.1 x.2 y.2) (query pk after limit b) (query pk after limit c) := by
  have hstart := charged_start h hused hmaximum hle
  unfold query
  split
  · exact .done hstart.charged
  · refine (metered_same _).bind fun _ _ _ => (metered_same _).bind fun found found' hfound => ?_
    rw [hfound]
    have hrows : ∀ cursor, Metered (fun x y => RowsCharged maximum x.1 y.1 x.2 y.2)
        (do
          let a ← get
          let s ← queryLeaves pk after cursor limit (a.highWaterPageId + 1) found'.1 [] ⟨false, true, b, []⟩
          pure (s.rows, s.budget))
        (do
          let a ← get
          let s ← queryLeaves pk after cursor limit (a.highWaterPageId + 1) found'.1 [] ⟨false, true, c, []⟩
          pure (s.rows, s.budget)) := by
      intro cursor
      refine (metered_same MonadState.get).bind fun a a' ha => ?_
      rw [ha]
      exact (queryLeaves_metered pk after cursor limit _ _ _ hstart).bind fun r r' hr => .done hr.charged
    cases after with
    | none => exact hrows _
    | some sk => exact (metered_same _).bind fun _ _ _ => hrows _

theorem scan_metered (cursor : Option DocumentKey) (limit : Nat) :
    Metered (fun x y => RowsCharged maximum x.1 y.1 x.2 y.2) (scan cursor limit b) (scan cursor limit c) := by
  have hstart := charged_start h hused hmaximum hle
  unfold scan
  split
  · exact .done hstart.charged
  · have hrows : ∀ leafId, Metered (fun x y => RowsCharged maximum x.1 y.1 x.2 y.2)
        (do
          let a ← get
          let s ← scanLeaves (cursor.map DocumentKey.encode) limit (a.highWaterPageId + 1) leafId []
            ⟨false, true, b, []⟩
          pure (s.rows, s.budget))
        (do
          let a ← get
          let s ← scanLeaves (cursor.map DocumentKey.encode) limit (a.highWaterPageId + 1) leafId []
            ⟨false, true, c, []⟩
          pure (s.rows, s.budget)) := by
      intro leafId
      refine (metered_same MonadState.get).bind fun a a' ha => ?_
      rw [ha]
      exact (scanLeaves_metered _ limit _ _ _ hstart).bind fun r r' hr => .done hr.charged
    cases cursor with
    | none =>
      refine (metered_same _).bind fun found found' hfound => ?_
      rw [hfound]
      exact hrows _
    | some key =>
      refine (metered_same _).bind fun _ _ _ => (metered_same _).bind fun found found' hfound => ?_
      rw [hfound]
      exact hrows _

end Start

/-! ### How many rows -/

/-- A pass that may go on has fewer rows than the limit. -/
structure RowBound (limit : Nat) (s : RowState) : Prop where
  le : s.rows.length ≤ limit
  lt : s.finished = false → s.rows.length < limit

theorem pushRow_bound (key : DocumentKey) (entry : LeafEntry) {s : RowState} (h : s.rows.length < limit) :
    Ends (RowBound limit) (pushRow limit key entry s) := by
  unfold pushRow
  cases entry.value with
  | none => exact ⟨h.le, fun _ => h⟩
  | some value =>
    refine (ends_true _).bind fun b _ => (ends_true _).bind fun bytes _ => ?_
    have hlength : (s.rows ++ [(⟨key, bytes, entry.revision⟩ : Document)]).length ≤ limit := by simpa using h
    exact ⟨hlength, fun hfinished => lt_of_le_of_ne hlength (of_decide_eq_false hfinished)⟩

theorem queryEntries_bound (pk : PrimaryKey) (after : Option SortKey) (cursor : Option Bytes)
    (entries : List LeafEntry) {s : RowState} (h : s.rows.length < limit) :
    Ends (RowBound limit) (queryEntries pk after cursor limit entries s) := by
  induction entries generalizing s with
  | nil => exact ⟨h.le, fun _ => h⟩
  | cons entry rest ih =>
    unfold queryEntries
    split
    · exact ih h
    · refine (ends_true _).bind fun key _ => ?_
      split
      · split
        · refine ⟨h.le, fun hmore => ?_⟩
          cases hmore
        · exact ih h
      · split
        · exact ih h
        · refine (pushRow_bound key entry (s := {s with first := false}) h).bind fun r hr => ?_
          by_cases hdone : r.finished = true
          · rw [if_pos hdone]
            exact hr
          · rw [if_neg hdone]
            exact ih (hr.lt (Bool.not_eq_true _ ▸ hdone))

theorem queryLeaves_bound (pk : PrimaryKey) (after : Option SortKey) (cursor : Option Bytes) (bound : Nat)
    (p : PageId) (visited : List PageId) {s : RowState} (h : s.rows.length ≤ limit) :
    Ends (fun r => r.rows.length ≤ limit) (queryLeaves pk after cursor limit bound p visited s) := by
  induction bound generalizing p visited s with
  | zero => exact True.intro
  | succ bound ih =>
    unfold queryLeaves
    by_cases hfull : limit ≤ s.rows.length
    · rw [if_pos hfull]
      exact h
    · rw [if_neg hfull]
      refine (ends_true _).bind fun _ _ => (ends_true _).bind fun leaf _ => ?_
      refine (queryEntries_bound pk after cursor leaf.entries (not_le.mp hfull)).bind fun r hr => ?_
      split
      · exact hr.le
      · cases leaf.nextLeaf with
        | none => exact hr.le
        | some next => exact ih _ _ hr.le

theorem scanEntries_bound (cursor : Option Bytes) (entries : List LeafEntry) {s : RowState}
    (h : s.rows.length < limit) : Ends (RowBound limit) (scanEntries cursor limit entries s) := by
  induction entries generalizing s with
  | nil => exact ⟨h.le, fun _ => h⟩
  | cons entry rest ih =>
    unfold scanEntries
    split
    · exact ih h
    · refine (ends_true _).bind fun key _ => (pushRow_bound key entry h).bind fun r hr => ?_
      by_cases hdone : r.finished = true
      · rw [if_pos hdone]
        exact hr
      · rw [if_neg hdone]
        exact ih (hr.lt (Bool.not_eq_true _ ▸ hdone))

theorem scanLeaves_bound (cursor : Option Bytes) (bound : Nat) (p : PageId) (visited : List PageId)
    {s : RowState} (h : s.rows.length < limit) :
    Ends (fun r => r.rows.length ≤ limit) (scanLeaves cursor limit bound p visited s) := by
  induction bound generalizing p visited s with
  | zero => exact True.intro
  | succ bound ih =>
    refine (ends_true _).bind fun _ _ => (ends_true _).bind fun leaf _ => ?_
    refine (scanEntries_bound cursor leaf.entries h).bind fun r hr => ?_
    by_cases hdone : r.finished = true
    · rw [if_pos hdone]
      exact hr.le
    · rw [if_neg hdone]
      cases leaf.nextLeaf with
      | none => exact hr.le
      | some next => exact ih _ _ (hr.lt (Bool.not_eq_true _ ▸ hdone))

/-- A query answers no more rows than it was asked for. -/
theorem query_bound (pk : PrimaryKey) (after : Option SortKey) (limit : Nat) (budget : ResponseBudget) :
    Ends (fun x => x.1.length ≤ limit) (query pk after limit budget) := by
  unfold query
  split
  · exact Nat.zero_le _
  · refine (ends_true _).bind fun _ _ => (ends_true _).bind fun found _ => ?_
    have hrows : ∀ cursor, Ends (fun x : List Document × ResponseBudget => x.1.length ≤ limit) (do
        let a ← get
        let s ← queryLeaves pk after cursor limit (a.highWaterPageId + 1) found.1 [] ⟨false, true, budget, []⟩
        pure (s.rows, s.budget) : Prog (List Document × ResponseBudget)) := fun cursor =>
      (ends_true MonadState.get).bind fun a _ =>
        (queryLeaves_bound pk after cursor _ _ _ (Nat.zero_le _)).bind fun r hr => hr
    cases after with
    | none => exact hrows _
    | some sk => exact (ends_true _).bind fun _ _ => hrows _

/-- A scan answers no more rows than it was asked for. -/
theorem scan_bound (cursor : Option DocumentKey) (limit : Nat) (budget : ResponseBudget) :
    Ends (fun x => x.1.length ≤ limit) (scan cursor limit budget) := by
  unfold scan
  by_cases hzero : limit = 0
  · rw [if_pos hzero]
    exact Nat.zero_le _
  · rw [if_neg hzero]
    have hrows : ∀ leafId, Ends (fun x : List Document × ResponseBudget => x.1.length ≤ limit) (do
        let a ← get
        let s ← scanLeaves (cursor.map DocumentKey.encode) limit (a.highWaterPageId + 1) leafId []
          ⟨false, true, budget, []⟩
        pure (s.rows, s.budget) : Prog (List Document × ResponseBudget)) := fun leafId =>
      (ends_true MonadState.get).bind fun a _ =>
        (scanLeaves_bound _ _ _ _ (Nat.pos_of_ne_zero hzero)).bind fun r hr => hr
    cases cursor with
    | none => exact (ends_true _).bind fun leafId _ => hrows leafId
    | some key => exact (ends_true _).bind fun _ _ => (ends_true _).bind fun found _ => hrows found.1

end Dodb
