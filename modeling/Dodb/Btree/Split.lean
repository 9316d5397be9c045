import Dodb.Btree.FormatProofs
import Dodb.Btree.Tree

/-! Where a full page is split.

A split is looked for from the middle outwards, among the places that leave two pages
which fit. What is found leaves neither page empty: for internal pages this is because
the place that would is tried after its neighbour, which fits whenever it does. When
no record takes more than half of a page a place is always found. -/
namespace Dodb
open Lib

/-- Records of keys up to this length, with the longest value kept in a leaf, take at most half
of a page. -/
def shortKeySize : Nat := 1464

/-! ### Candidates -/

theorem mem_splitCandidates {length c : Nat} : c ∈ splitCandidates length ↔ 1 ≤ c ∧ c < length := by
  unfold splitCandidates
  rw [List.mem_mergeSort, List.mem_range'_1]
  omega

/-- Candidates come in the order of their distance from the middle. -/
theorem pairwise_splitCandidates (length : Nat) : (splitCandidates length).Pairwise fun a b =>
    absDiff a (length / 2) ≤ absDiff b (length / 2) := by
  have : (splitCandidates length).Pairwise fun a b =>
      decide (absDiff a (length / 2) ≤ absDiff b (length / 2)) = true := by
    refine List.pairwise_mergeSort (fun a b c hab hbc => ?_) (fun a b => ?_) _
    · simp only [decide_eq_true_eq] at *
      omega
    · simp only [Bool.or_eq_true, decide_eq_true_eq]
      omega
  exact this.imp fun h => by simpa using h

/-- Nothing that is nearer to the middle passes the test the chosen candidate passes. -/
theorem find?_splitCandidates_le {length c d : Nat} {p : Nat → Bool} (h : (splitCandidates length).find? p = some c)
    (hd : d ∈ splitCandidates length) (hp : p d = true) : absDiff c (length / 2) ≤ absDiff d (length / 2) := by
  obtain ⟨_, before, after, heq, hbefore⟩ := List.find?_eq_some_iff_append.mp h
  have hpair := pairwise_splitCandidates length
  rw [heq] at hd hpair
  rcases List.mem_append.mp hd with hd | hd
  · have := hbefore d hd
    simp [hp] at this
  · rcases List.mem_cons.mp hd with rfl | hd
    · exact le_refl _
    · exact (List.pairwise_cons.mp (List.pairwise_append.mp hpair).2.1).1 d hd

/-! ### Parts of pages that fit -/

theorem used_le_of_sublist {E : Type} (size : E → Nat) {a b : List E} (h : a.Sublist b) :
    RecordCodec.used size a ≤ RecordCodec.used size b := by
  unfold RecordCodec.used
  have := (h.map fun e => slotSize + size e).sum_le_sum (fun _ _ => Nat.zero_le _)
  omega

theorem leafFits_sublist {a b : List LeafEntry} (h : leafFits b = true) (hab : a.Sublist b) : leafFits a = true := by
  rw [leafFits_iff] at h ⊢
  obtain ⟨hcanonical, hordered, hused⟩ := h
  exact ⟨fun e he => hcanonical e (hab.subset he), hordered.sublist (hab.map _),
    (used_le_of_sublist _ hab).trans hused⟩

theorem internalFits_sublist {p q : PageId} {a b : List InternalEntry} (h : internalFits p b = true)
    (hab : a.Sublist b) (hq : firstDataPage ≤ q) : internalFits q a = true := by
  rw [internalFits_iff] at h ⊢
  obtain ⟨_, hvalid, hordered, hused⟩ := h
  exact ⟨hq, fun e he => hvalid e (hab.subset he), hordered.sublist (hab.map _),
    (used_le_of_sublist _ hab).trans hused⟩

theorem internalFits_single {p : PageId} {entries : List InternalEntry} (h : internalFits p entries = true)
    {e : InternalEntry} (he : e ∈ entries) : internalFits firstDataPage [e] = true :=
  internalFits_sublist h (List.singleton_sublist.mpr he) (le_refl _)

/-! ### What is chosen -/

theorem chooseLeafSplit_eq_ok {entries : List LeafEntry} {c : Nat} (h : chooseLeafSplit entries = .ok c) :
    (1 ≤ c ∧ c < entries.length) ∧ leafFits (entries.take c) = true ∧ leafFits (entries.drop c) = true := by
  unfold chooseLeafSplit at h
  split at h
  · rename_i c' hfind
    cases h
    have hp := List.find?_some hfind
    simp only [Bool.and_eq_true] at hp
    exact ⟨mem_splitCandidates.mp (List.mem_of_find?_eq_some hfind), hp⟩
  · cases h

/-- The right half of an internal split starts at the child of the promoted separator and keeps at
least one separator of its own. -/
theorem chooseInternalSplit_eq_ok {leftmost : PageId} {entries : List InternalEntry} {c : Nat}
    (hsingle : ∀ e ∈ entries, internalFits firstDataPage [e] = true)
    (h : chooseInternalSplit leftmost entries = .ok c) :
    (1 ≤ c ∧ c + 1 < entries.length) ∧ internalFits leftmost (entries.take c) = true ∧
      internalFits (entries.getD c ⟨[], 0⟩).rightChild (entries.drop (c + 1)) = true := by
  unfold chooseInternalSplit at h
  by_cases hshort : entries.length < 3
  · rw [if_pos hshort] at h
    cases h
  rw [if_neg hshort] at h
  split at h
  · rename_i c' hfind
    cases h
    have hp := List.find?_some hfind
    obtain ⟨hlow, hhigh⟩ := mem_splitCandidates.mp (List.mem_of_find?_eq_some hfind)
    simp only [Bool.and_eq_true] at hp
    obtain ⟨hleft, hright⟩ := hp
    have hchild : ((entries[c]?).map InternalEntry.rightChild).getD 0 =
        (entries.getD c ⟨[], 0⟩).rightChild := by
      simp [List.getElem?_eq_getElem hhigh]
    refine ⟨⟨hlow, ?_⟩, hleft, by rwa [← hchild]⟩
    -- the last place is only tried after the one before it, which would do
    by_contra hlast
    have hc : c = entries.length - 1 := by omega
    have hmem : c - 1 ∈ splitCandidates entries.length := mem_splitCandidates.mpr ⟨by omega, by omega⟩
    have hsub : (entries.take (c - 1)).Sublist (entries.take c) := List.take_sublist_take_left (by omega)
    have hdrop : entries.drop (c - 1 + 1) = [entries[c]] := by
      rw [show c - 1 + 1 = c by omega, List.drop_eq_getElem_cons hhigh, List.drop_eq_nil_of_le (by omega)]
    have hprev : c - 1 < entries.length := by omega
    have hpos : firstDataPage ≤ entries[c - 1].rightChild := by
      have := (internalFits_iff _ _).mp (hsingle _ (List.getElem_mem hprev))
      exact (this.2.1 _ (List.mem_singleton_self _)).1
    have hleft' : internalFits leftmost (entries.take (c - 1)) = true :=
      internalFits_sublist hleft hsub ((internalFits_iff _ _).mp hleft).1
    have := find?_splitCandidates_le hfind hmem (by
      rw [Bool.and_eq_true]
      refine ⟨hleft', ?_⟩
      rw [List.getElem?_eq_getElem hprev, hdrop]
      exact internalFits_sublist (hsingle _ (List.getElem_mem hhigh)) (List.Sublist.refl _) hpos)
    unfold absDiff at this
    omega
  · cases h

/-! ### A separator too many -/

theorem internalFits_singleton {p : PageId} {e : InternalEntry} (hp : firstDataPage ≤ p)
    (hchild : firstDataPage ≤ e.rightChild) (hcanonical : Canonical e.key) (hsize : e.key.length ≤ maxEncodedKeySize) :
    internalFits p [e] = true := by
  refine (internalFits_iff p [e]).mpr ⟨hp, fun e' he => ?_, List.pairwise_singleton _ _, ?_⟩
  · rw [List.mem_singleton.mp he]
    exact ⟨hchild, hcanonical⟩
  · have hbody : bodySize = 4064 := by decide
    unfold maxEncodedKeySize at hsize
    simp only [internalUsed, RecordCodec.used, List.map_cons, List.map_nil, List.sum_cons, List.sum_nil,
      internalRecordSize, slottedHeaderSize, slotSize, internalRecordHeaderSize, hbody]
    omega

/-- A page that fits with one separator more: wherever that stands, there is a place to split at which
leaves it alone on its side, promotes it, or is its neighbour. -/
theorem exists_split_inserted {leftmost : PageId} {before after : List InternalEntry} {new : InternalEntry}
    (hfits : internalFits leftmost (before ++ after) = true) (hchild : firstDataPage ≤ new.rightChild)
    (hsingle : ∀ p, firstDataPage ≤ p → internalFits p [new] = true) (hmany : 2 ≤ (before ++ after).length) :
    ∃ c, 1 ≤ c ∧ c < (before ++ new :: after).length ∧
      internalFits leftmost ((before ++ new :: after).take c) = true ∧
      internalFits ((((before ++ new :: after)[c]?).map InternalEntry.rightChild).getD 0)
        ((before ++ new :: after).drop (c + 1)) = true := by
  obtain ⟨hleftmost, hvalid, _⟩ := (internalFits_iff _ _).mp hfits
  rw [List.length_append] at hmany
  obtain _ | ⟨first, before⟩ := before
  · -- before all others: it is the left page
    obtain _ | ⟨second, after⟩ := after
    · simp at hmany
    refine ⟨1, le_rfl, by simp, ?_, ?_⟩
    · exact hsingle leftmost hleftmost
    · exact internalFits_sublist hfits (List.sublist_cons_self ..) (hvalid second (by simp)).1
  · obtain _ | ⟨second, after⟩ := after
    · -- after all others: it is the right page
      obtain ⟨init, last, hbefore⟩ : ∃ init last, first :: before = init ++ [last] :=
        ⟨_, _, (List.dropLast_append_getLast (List.cons_ne_nil first before)).symm⟩
      rw [hbefore] at hfits hvalid hmany ⊢
      have hall : init ++ [last] ++ [new] = init ++ last :: [new] := by simp
      rw [List.append_nil] at hfits hvalid
      rw [hall]
      refine ⟨init.length, ?_, by simp, ?_, ?_⟩
      · simp only [List.length_append, List.length_singleton, List.length_nil] at hmany
        omega
      · rw [List.take_left]
        exact internalFits_sublist hfits (List.sublist_append_left ..) hleftmost
      · rw [List.getElem?_append_right le_rfl, Nat.sub_self, ← List.drop_drop, List.drop_left]
        exact hsingle _ (hvalid last (by simp)).1
    · -- between others: it is promoted
      refine ⟨(first :: before).length, by simp, by simp, ?_, ?_⟩
      · rw [List.take_left]
        exact internalFits_sublist hfits (List.sublist_append_left ..) hleftmost
      · rw [List.getElem?_append_right le_rfl, Nat.sub_self, ← List.drop_drop, List.drop_left]
        exact internalFits_sublist hfits (List.sublist_append_right ..) hchild

/-- The children of an internal page. -/
def childSequence (leftmost : PageId) (entries : List InternalEntry) : List PageId :=
  leftmost :: entries.map InternalEntry.rightChild

theorem childSequence_split (leftmost : PageId) {entries : List InternalEntry} {c : Nat} (hc : c < entries.length) :
    childSequence leftmost (entries.take c) ++
      childSequence (entries.getD c ⟨[], 0⟩).rightChild (entries.drop (c + 1)) = childSequence leftmost entries := by
  have hparts : entries = entries.take c ++ entries.getD c ⟨[], 0⟩ :: entries.drop (c + 1) := by
    conv_lhs => rw [← List.take_append_drop c entries, List.drop_eq_getElem_cons hc]
    rw [List.getD_eq_getElem _ _ hc]
  conv_rhs => rw [hparts]
  simp [childSequence]

/-- An internal page that fits, with one more separator at its place and three or more in all, is split into two
pages that fit, each with a separator of its own, and with the children in the order they had. -/
theorem chooseInternalSplit_inserted {leftmost : PageId} {entries : List InternalEntry} {new : InternalEntry}
    (hfits : internalFits leftmost entries = true) (hchild : firstDataPage ≤ new.rightChild)
    (hcanonical : Canonical new.key) (hsize : new.key.length ≤ maxEncodedKeySize) {all : List InternalEntry}
    (hall : all = insertAt (partitionPoint (fun e => decide (e.key < new.key)) entries) new entries)
    (hmany : 3 ≤ all.length) :
    ∃ c, chooseInternalSplit leftmost all = .ok c ∧ (1 ≤ c ∧ c ≤ all.length - 2) ∧
      internalFits leftmost (all.take c) = true ∧
      internalFits (all.getD c ⟨[], 0⟩).rightChild (all.drop (c + 1)) = true ∧
      all.take c ≠ [] ∧ all.drop (c + 1) ≠ [] ∧
      childSequence leftmost (all.take c) ++ childSequence (all.getD c ⟨[], 0⟩).rightChild (all.drop (c + 1)) =
        childSequence leftmost all := by
  obtain ⟨hleftmost, hvalid, _⟩ := (internalFits_iff _ _).mp hfits
  have hsingle : ∀ p, firstDataPage ≤ p → internalFits p [new] = true := fun p hp =>
    internalFits_singleton hp hchild hcanonical hsize
  rw [insertAt] at hall
  generalize partitionPoint (fun e => decide (e.key < new.key)) entries = k at hall
  have hold : ∀ e ∈ all, internalFits firstDataPage [e] = true := by
    intro e he
    rw [hall, List.mem_append, List.mem_cons] at he
    rcases he with he | rfl | he
    · exact internalFits_single hfits (List.mem_of_mem_take he)
    · exact hsingle firstDataPage le_rfl
    · exact internalFits_single hfits (List.mem_of_mem_drop he)
  have htwo : 2 ≤ entries.length := by
    rw [hall, List.length_append, List.length_cons, List.length_take, List.length_drop] at hmany
    omega
  have hplace : ∃ d, chooseInternalSplit leftmost all = .ok d := by
    rw [← List.take_append_drop k entries] at hfits htwo
    obtain ⟨c, hlow, hhigh, hleft, hright⟩ := exists_split_inserted hfits hchild hsingle htwo
    rw [← hall] at hhigh hleft hright
    have hfind : ((splitCandidates all.length).find? fun candidate =>
        internalFits leftmost (all.take candidate) &&
          internalFits (((all[candidate]?).map InternalEntry.rightChild).getD 0)
            (all.drop (candidate + 1))).isSome = true := by
      rw [List.find?_isSome]
      exact ⟨c, mem_splitCandidates.mpr ⟨hlow, hhigh⟩, by rw [hleft, hright]; rfl⟩
    obtain ⟨d, hd⟩ := Option.isSome_iff_exists.mp hfind
    exact ⟨d, by rw [chooseInternalSplit, if_neg (by omega), hd]⟩
  obtain ⟨c, hc⟩ := hplace
  obtain ⟨⟨hlow, hhigh⟩, hleft, hright⟩ := chooseInternalSplit_eq_ok hold hc
  refine ⟨c, hc, ⟨hlow, by omega⟩, hleft, hright, ?_, ?_, childSequence_split leftmost (by omega)⟩
  · apply List.ne_nil_of_length_pos
    rw [List.length_take]
    omega
  · apply List.ne_nil_of_length_pos
    rw [List.length_drop]
    omega

/-- A separator of 1300 bytes. -/
def longSeparator (first : UInt8) (rightChild : PageId) : InternalEntry :=
  ⟨DocumentKey.encode ⟨first :: List.replicate 1295 1, []⟩, rightChild⟩

/-- Three long separators fit a page. A fourth between them does not, and one of the two in the middle is promoted. -/
theorem chooseInternalSplit_inserted_fourth :
    internalFits 2 [longSeparator 1 3, longSeparator 3 4, longSeparator 4 5] = true ∧
      internalFits 2 [longSeparator 1 3, longSeparator 2 6, longSeparator 3 4, longSeparator 4 5] = false ∧
      ∃ c, chooseInternalSplit 2 [longSeparator 1 3, longSeparator 2 6, longSeparator 3 4, longSeparator 4 5] = .ok c ∧
        (1 ≤ c ∧ c ≤ 2) := by
  have hfits : internalFits 2 [longSeparator 1 3, longSeparator 3 4, longSeparator 4 5] = true := by decide +kernel
  have hall : [longSeparator 1 3, longSeparator 2 6, longSeparator 3 4, longSeparator 4 5] =
      insertAt (partitionPoint (fun e => decide (e.key < (longSeparator 2 6).key))
        [longSeparator 1 3, longSeparator 3 4, longSeparator 4 5]) (longSeparator 2 6)
        [longSeparator 1 3, longSeparator 3 4, longSeparator 4 5] := by decide +kernel
  obtain ⟨c, hc, hrange, _⟩ := chooseInternalSplit_inserted hfits (by decide) (canonical_encode _) (by decide +kernel)
    hall (by decide)
  exact ⟨hfits, by decide +kernel, c, hc, hrange⟩

/-! ### Short keys -/

/-- Numbers that each are at most half of `bound`, and together exceed it by no more than one of them,
can be cut in two parts within it. -/
theorem exists_cut {sizes : List Nat} {bound most : Nat} (hmost : ∀ x ∈ sizes, x ≤ most) (hhalf : 2 * most ≤ bound)
    (hover : bound < sizes.sum) (hsum : sizes.sum ≤ bound + most) :
    ∃ c, 2 ≤ c ∧ c < sizes.length ∧ (sizes.take c).sum ≤ bound ∧ (sizes.drop c).sum ≤ bound := by
  -- the longest beginning within the bound
  obtain ⟨c, hc, hmax⟩ : ∃ c, (sizes.take c).sum ≤ bound ∧ bound < (sizes.take (c + 1)).sum := by
    by_contra hnone
    push Not at hnone
    have hall : ∀ c, (sizes.take c).sum ≤ bound := by
      intro c
      induction c with
      | zero => simp
      | succ c ih => exact hnone c ih
    have := hall sizes.length
    rw [List.take_length] at this
    omega
  have hlt : c < sizes.length := by
    by_contra hge
    rw [List.take_of_length_le (by omega)] at hmax hc
    omega
  have hstep : (sizes.take (c + 1)).sum = (sizes.take c).sum + sizes[c] := by
    rw [List.take_succ_eq_append_getElem hlt, List.sum_append, List.sum_singleton]
  have hx : sizes[c] ≤ most := hmost _ (List.getElem_mem hlt)
  have htotal : (sizes.take c).sum + (sizes.drop c).sum = sizes.sum := by
    rw [← List.sum_append, List.take_append_drop]
  have hlen : (sizes.take (c + 1)).sum ≤ (sizes.take (c + 1)).length * most :=
    List.sum_le_card_nsmul _ _ fun x hx => hmost x (List.mem_of_mem_take hx)
  refine ⟨c, ?_, hlt, hc, by omega⟩
  by_contra hsmall
  have hle : (sizes.take (c + 1)).length ≤ 2 := by
    rw [List.length_take]
    omega
  have := Nat.mul_le_mul_right most hle
  omega

/-- The bytes of a page's body for slots and records. -/
def recordSpace : Nat := bodySize - slottedHeaderSize

theorem used_le_iff {E : Type} (size : E → Nat) (entries : List E) :
    RecordCodec.used size entries ≤ bodySize ↔ (entries.map fun e => slotSize + size e).sum ≤ recordSpace := by
  unfold RecordCodec.used recordSpace
  have : slottedHeaderSize ≤ bodySize := by decide
  omega

theorem exists_cut_used {E : Type} {size : E → Nat} {entries : List E} {most : Nat}
    (hmost : ∀ e ∈ entries, slotSize + size e ≤ most) (hhalf : 2 * most ≤ recordSpace)
    (hover : bodySize < RecordCodec.used size entries)
    (hsum : (entries.map fun e => slotSize + size e).sum ≤ recordSpace + most) :
    ∃ c, 2 ≤ c ∧ c < entries.length ∧ RecordCodec.used size (entries.take c) ≤ bodySize ∧
      RecordCodec.used size (entries.drop c) ≤ bodySize := by
  have hover' : recordSpace < (entries.map fun e => slotSize + size e).sum := by
    by_contra hle
    exact absurd ((used_le_iff size entries).mpr (not_lt.mp hle)) hover.not_ge
  obtain ⟨c, h2, hlt, htake, hdrop⟩ := exists_cut (by simpa using hmost) hhalf hover' hsum
  rw [← List.map_take] at htake
  rw [← List.map_drop] at hdrop
  exact ⟨c, h2, by simpa using hlt, (used_le_iff ..).mpr htake, (used_le_iff ..).mpr hdrop⟩

/-- An entry of a short key, with a value that its leaf may keep. -/
def LeafEntry.Short (e : LeafEntry) : Prop :=
  e.key.length ≤ shortKeySize ∧ inlineLength e.value ≤ inlineValueLimit

theorem LeafEntry.Short.size_le {e : LeafEntry} (h : e.Short) : slotSize + leafRecordSize e ≤ recordSpace / 2 := by
  obtain ⟨hkey, hvalue⟩ := h
  have hspace : recordSpace / 2 = 2016 := by decide
  unfold shortKeySize at hkey
  unfold inlineValueLimit at hvalue
  unfold leafRecordSize leafRecordHeaderSize slotSize
  omega

/-- A leaf of short entries that is too full by one of them can be split. -/
theorem chooseLeafSplit_isOk {entries : List LeafEntry} (hcanonical : ∀ e ∈ entries, Canonical e.key)
    (hordered : (entries.map LeafEntry.key).Pairwise (· < ·)) (hshort : ∀ e ∈ entries, e.Short)
    (hfull : leafFits entries = false)
    (hsum : (entries.map fun e => slotSize + leafRecordSize e).sum ≤ recordSpace + recordSpace / 2) :
    ∃ c, chooseLeafSplit entries = .ok c := by
  have hover : bodySize < leafUsed entries := by
    by_contra hle
    rw [(leafFits_iff entries).mpr ⟨hcanonical, hordered, not_lt.mp hle⟩] at hfull
    cases hfull
  obtain ⟨c, h2, hlt, htake, hdrop⟩ := exists_cut_used (fun e he => (hshort e he).size_le)
    (Nat.mul_div_le ..) hover hsum
  have hpart : ∀ part : List LeafEntry, part.Sublist entries → leafUsed part ≤ bodySize → leafFits part = true :=
    fun part hpart hused => (leafFits_iff part).mpr ⟨fun e he => hcanonical e (hpart.subset he),
      hordered.sublist (hpart.map _), hused⟩
  have hfind : ((splitCandidates entries.length).find? fun candidate =>
      leafFits (entries.take candidate) && leafFits (entries.drop candidate)).isSome = true := by
    rw [List.find?_isSome]
    refine ⟨c, mem_splitCandidates.mpr ⟨by omega, hlt⟩, ?_⟩
    rw [hpart _ (List.take_sublist ..) htake, hpart _ (List.drop_sublist ..) hdrop]
    rfl
  obtain ⟨c', hc'⟩ := Option.isSome_iff_exists.mp hfind
  exact ⟨c', by rw [chooseLeafSplit, hc']⟩

theorem internalRecordSize_le {e : InternalEntry} (h : e.key.length ≤ shortKeySize) :
    slotSize + internalRecordSize e ≤ recordSpace / 2 := by
  have hspace : recordSpace / 2 = 2016 := by decide
  unfold shortKeySize at h
  unfold internalRecordSize internalRecordHeaderSize slotSize
  omega

/-- An internal page of short separators that is too full by one of them can be split. -/
theorem chooseInternalSplit_isOk {leftmost : PageId} {entries : List InternalEntry} (hleftmost : firstDataPage ≤ leftmost)
    (hvalid : ∀ e ∈ entries, 2 ≤ e.rightChild ∧ Canonical e.key)
    (hordered : (entries.map InternalEntry.key).Pairwise (· < ·))
    (hshort : ∀ e ∈ entries, e.key.length ≤ shortKeySize) (hfull : internalFits leftmost entries = false)
    (hsum : (entries.map fun e => slotSize + internalRecordSize e).sum ≤ recordSpace + recordSpace / 2) :
    ∃ c, chooseInternalSplit leftmost entries = .ok c := by
  have hover : bodySize < internalUsed entries := by
    by_contra hle
    rw [(internalFits_iff leftmost entries).mpr ⟨hleftmost, hvalid, hordered, not_lt.mp hle⟩] at hfull
    cases hfull
  obtain ⟨c, h2, hlt, htake, hdrop⟩ := exists_cut_used (fun e he => internalRecordSize_le (hshort e he))
    (Nat.mul_div_le ..) hover hsum
  have hpart : ∀ (p : PageId) (part : List InternalEntry), firstDataPage ≤ p → part.Sublist entries →
      internalUsed part ≤ bodySize → internalFits p part = true := fun p part hp hpart hused =>
    (internalFits_iff p part).mpr ⟨hp, fun e he => hvalid e (hpart.subset he),
      hordered.sublist (hpart.map _), hused⟩
  have hright : (entries.drop (c + 1)).Sublist (entries.drop c) := by
    rw [← List.drop_drop]
    exact List.drop_sublist ..
  have hchild : firstDataPage ≤ ((entries[c]?).map InternalEntry.rightChild).getD 0 := by
    rw [List.getElem?_eq_getElem hlt]
    exact (hvalid _ (List.getElem_mem hlt)).1
  have hfind : ((splitCandidates entries.length).find? fun candidate =>
      internalFits leftmost (entries.take candidate) &&
        internalFits (((entries[candidate]?).map InternalEntry.rightChild).getD 0)
          (entries.drop (candidate + 1))).isSome = true := by
    rw [List.find?_isSome]
    refine ⟨c, mem_splitCandidates.mpr ⟨by omega, hlt⟩, ?_⟩
    rw [hpart _ _ hleftmost (List.take_sublist ..) htake,
      hpart _ _ hchild (List.drop_sublist ..) ((used_le_of_sublist _ hright).trans hdrop)]
    rfl
  obtain ⟨c', hc'⟩ := Option.isSome_iff_exists.mp hfind
  exact ⟨c', by rw [chooseInternalSplit, if_neg (by omega), hc']⟩

end Dodb
