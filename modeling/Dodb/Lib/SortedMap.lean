import Mathlib

/-! Finite maps kept as lists in strictly increasing key order.

The order is part of the type, so iterating over a map is a property of the map
and not of the history that built it: two maps with the same bindings are equal
(`SortedMap.ext_get`), whatever was inserted when. -/
namespace Dodb.Lib

variable {κ ν : Type} [LinearOrder κ]

namespace SortedMap

/-- Binds `k` to `v`, replacing an older binding in place. -/
def insertEntry (k : κ) (v : ν) : List (κ × ν) → List (κ × ν)
  | [] => [(k, v)]
  | (k', v') :: rest =>
    if k < k' then (k, v) :: (k', v') :: rest
    else if k = k' then (k, v) :: rest
    else (k', v') :: insertEntry k v rest

def lookup (k : κ) : List (κ × ν) → Option ν
  | [] => none
  | (k', v) :: rest => if k = k' then some v else lookup k rest

abbrev Sorted (l : List (κ × ν)) : Prop := l.Pairwise fun a b => a.1 < b.1

theorem mem_insertEntry {k : κ} {v : ν} {a : κ × ν} {l : List (κ × ν)} (h : a ∈ insertEntry k v l) :
    a = (k, v) ∨ a ∈ l := by
  induction l with
  | nil => simpa [insertEntry] using h
  | cons b rest ih =>
    obtain ⟨k', v'⟩ := b
    unfold insertEntry at h
    split at h
    · simpa using h
    · split at h
      · rcases List.mem_cons.mp h with h | h
        · exact .inl h
        · exact .inr (List.mem_cons_of_mem _ h)
      · rcases List.mem_cons.mp h with h | h
        · exact .inr (by rw [h]; exact List.mem_cons_self)
        · rcases ih h with h | h
          · exact .inl h
          · exact .inr (List.mem_cons_of_mem _ h)

theorem sorted_insertEntry (k : κ) (v : ν) {l : List (κ × ν)} (h : Sorted l) : Sorted (insertEntry k v l) := by
  induction l with
  | nil => simp [insertEntry, Sorted]
  | cons b rest ih =>
    obtain ⟨k', v'⟩ := b
    obtain ⟨hhead, htail⟩ := List.pairwise_cons.mp h
    unfold insertEntry
    split
    · rename_i hlt
      refine List.pairwise_cons.mpr ⟨fun a ha => ?_, h⟩
      rcases List.mem_cons.mp ha with rfl | ha
      · exact hlt
      · exact lt_trans hlt (hhead a ha)
    · split
      · rename_i heq
        subst heq
        exact List.pairwise_cons.mpr ⟨hhead, htail⟩
      · rename_i hnlt hne
        have hlt : k' < k := lt_of_le_of_ne (not_lt.mp hnlt) (Ne.symm hne)
        refine List.pairwise_cons.mpr ⟨fun a ha => ?_, ih htail⟩
        rcases mem_insertEntry ha with rfl | ha
        · exact hlt
        · exact hhead a ha

theorem lookup_insertEntry (k j : κ) (v : ν) (l : List (κ × ν)) :
    lookup j (insertEntry k v l) = if j = k then some v else lookup j l := by
  induction l with
  | nil => simp [insertEntry, lookup]
  | cons b rest ih =>
    obtain ⟨k', v'⟩ := b
    unfold insertEntry
    split
    · simp [lookup]
    · split
      · rename_i heq
        subst heq
        by_cases hj : j = k <;> simp [lookup, hj]
      · rename_i hne
        by_cases hj : j = k
        · subst hj
          simp [lookup, hne, ih]
        · simp [lookup, hj, ih]

theorem lookup_eq_none {k : κ} {l : List (κ × ν)} (h : ∀ a ∈ l, a.1 ≠ k) : lookup k l = none := by
  induction l with
  | nil => rfl
  | cons b rest ih =>
    have hb : k ≠ b.1 := Ne.symm (h b List.mem_cons_self)
    simp only [lookup, hb, if_false]
    exact ih fun a ha => h a (List.mem_cons_of_mem _ ha)

theorem mem_of_lookup {k : κ} {v : ν} {l : List (κ × ν)} (h : lookup k l = some v) : (k, v) ∈ l := by
  induction l with
  | nil => simp [lookup] at h
  | cons b rest ih =>
    obtain ⟨k', v'⟩ := b
    unfold lookup at h
    split at h
    · rename_i heq
      simp only [Option.some.injEq] at h
      rw [heq, h]
      exact List.mem_cons_self
    · exact List.mem_cons_of_mem _ (ih h)

theorem lookup_of_mem {k : κ} {v : ν} {l : List (κ × ν)} (hs : Sorted l) (h : (k, v) ∈ l) : lookup k l = some v := by
  induction l with
  | nil => cases h
  | cons b rest ih =>
    obtain ⟨hhead, htail⟩ := List.pairwise_cons.mp hs
    rcases List.mem_cons.mp h with heq | h
    · rw [← heq]
      simp [lookup]
    · have hlt : b.1 < k := hhead (k, v) h
      simp only [lookup, hlt.ne', if_false]
      exact ih htail h

/-- Sorted lists with the same bindings are the same list. -/
theorem eq_of_lookup {l m : List (κ × ν)} (hl : Sorted l) (hm : Sorted m)
    (h : ∀ k, lookup k l = lookup k m) : l = m := by
  have hmem : ∀ a, a ∈ l ↔ a ∈ m := fun a =>
    ⟨fun ha => mem_of_lookup (by rw [← h]; exact lookup_of_mem hl ha),
      fun ha => mem_of_lookup (by rw [h]; exact lookup_of_mem hm ha)⟩
  have hnodup : ∀ {l : List (κ × ν)}, Sorted l → l.Nodup := fun hs =>
    hs.imp fun hab heq => absurd (congrArg Prod.fst heq) hab.ne
  have hperm : l.Perm m := (List.perm_ext_iff_of_nodup (hnodup hl) (hnodup hm)).mpr hmem
  exact hperm.eq_of_pairwise (fun a b _ _ hab hba => absurd hab (lt_asymm hba)) hl hm

end SortedMap

/-- A finite map whose bindings are listed by increasing key. -/
structure SortedMap (κ ν : Type) [LinearOrder κ] where
  entries : List (κ × ν)
  sorted : SortedMap.Sorted entries

namespace SortedMap

instance [DecidableEq ν] : DecidableEq (SortedMap κ ν) := fun a b =>
  decidable_of_iff (a.entries = b.entries) ⟨fun h => by cases a; cases b; simpa using h, fun h => h ▸ rfl⟩

def empty : SortedMap κ ν := ⟨[], List.Pairwise.nil⟩

instance : Inhabited (SortedMap κ ν) := ⟨empty⟩

def get? (m : SortedMap κ ν) (k : κ) : Option ν := lookup k m.entries

def insert (m : SortedMap κ ν) (k : κ) (v : ν) : SortedMap κ ν :=
  ⟨insertEntry k v m.entries, sorted_insertEntry k v m.sorted⟩

def erase (m : SortedMap κ ν) (k : κ) : SortedMap κ ν :=
  ⟨m.entries.filter fun a => a.1 ≠ k, m.sorted.filter _⟩

def keys (m : SortedMap κ ν) : List κ := m.entries.map Prod.fst

def isEmpty (m : SortedMap κ ν) : Bool := m.entries.isEmpty

def size (m : SortedMap κ ν) : Nat := m.entries.length

/-- Later bindings win, as when one map is poured into another. -/
def insertMany (m : SortedMap κ ν) (l : List (κ × ν)) : SortedMap κ ν :=
  l.foldl (fun m a => m.insert a.1 a.2) m

theorem ext_get {m n : SortedMap κ ν} (h : ∀ k, m.get? k = n.get? k) : m = n := by
  have := eq_of_lookup m.sorted n.sorted h
  cases m
  cases n
  simpa using this

@[simp] theorem get?_empty (k : κ) : (empty : SortedMap κ ν).get? k = none := rfl

theorem get?_insert (m : SortedMap κ ν) (k j : κ) (v : ν) :
    (m.insert k v).get? j = if j = k then some v else m.get? j :=
  lookup_insertEntry k j v m.entries

@[simp] theorem get?_insert_self (m : SortedMap κ ν) (k : κ) (v : ν) : (m.insert k v).get? k = some v := by
  rw [get?_insert, if_pos rfl]

theorem get?_insert_eq_some {m : SortedMap κ ν} {k j : κ} {v w : ν} :
    (m.insert k v).get? j = some w ↔ j = k ∧ w = v ∨ j ≠ k ∧ m.get? j = some w := by
  rw [get?_insert]
  by_cases h : j = k <;> simp [h, eq_comm]

theorem get?_insert_eq_none {m : SortedMap κ ν} {k j : κ} {v : ν} :
    (m.insert k v).get? j = none ↔ j ≠ k ∧ m.get? j = none := by
  rw [get?_insert]
  split <;> simp [*]

theorem get?_eq_some_iff (m : SortedMap κ ν) (k : κ) (v : ν) : m.get? k = some v ↔ (k, v) ∈ m.entries :=
  ⟨mem_of_lookup, lookup_of_mem m.sorted⟩

theorem get?_eq_none_iff (m : SortedMap κ ν) (k : κ) : m.get? k = none ↔ k ∉ m.keys := by
  constructor
  · intro h hk
    obtain ⟨a, ha, rfl⟩ := List.mem_map.mp hk
    rw [(get?_eq_some_iff m a.1 a.2).mpr ha] at h
    cases h
  · intro h
    exact lookup_eq_none fun a ha heq => h (List.mem_map.mpr ⟨a, ha, heq⟩)

theorem mem_keys_iff (m : SortedMap κ ν) (k : κ) : k ∈ m.keys ↔ (m.get? k).isSome := by
  cases h : m.get? k with
  | none => simpa using (get?_eq_none_iff m k).mp h
  | some v =>
    simp only [Option.isSome_some, iff_true]
    exact List.mem_map.mpr ⟨(k, v), (get?_eq_some_iff m k v).mp h, rfl⟩

theorem mem_keys_insert {m : SortedMap κ ν} {k j : κ} {v : ν} : j ∈ (m.insert k v).keys ↔ j = k ∨ j ∈ m.keys := by
  rw [mem_keys_iff, mem_keys_iff, get?_insert]
  split <;> simp [*]

/-- Maps that bind the same keys list them alike. -/
theorem keys_eq_of_mem {μ : Type} {m : SortedMap κ ν} {n : SortedMap κ μ} (h : ∀ k, k ∈ m.keys ↔ k ∈ n.keys) :
    m.keys = n.keys := by
  have hm : m.keys.Pairwise (· < ·) := List.pairwise_map.mpr m.sorted
  have hn : n.keys.Pairwise (· < ·) := List.pairwise_map.mpr n.sorted
  have hperm : m.keys.Perm n.keys :=
    (List.perm_ext_iff_of_nodup (hm.imp fun h => h.ne) (hn.imp fun h => h.ne)).mpr h
  exact hperm.eq_of_pairwise (fun a b _ _ hab hba => absurd hab (lt_asymm hba)) hm hn

theorem length_keys (m : SortedMap κ ν) : m.keys.length = m.size := List.length_map ..

theorem keys_nodup (m : SortedMap κ ν) : m.keys.Nodup :=
  List.pairwise_map.mpr (m.sorted.imp fun h => h.ne)

theorem get?_erase (m : SortedMap κ ν) (k j : κ) :
    (m.erase k).get? j = if j = k then none else m.get? j := by
  by_cases hj : j = k
  · subst hj
    rw [if_pos rfl]
    exact lookup_eq_none fun a ha => by simpa using (List.mem_filter.mp ha).2
  · rw [if_neg hj]
    cases h : m.get? j with
    | none =>
      refine lookup_eq_none fun a ha heq => (get?_eq_none_iff m j).mp h ?_
      exact List.mem_map.mpr ⟨a, (List.mem_filter.mp ha).1, heq⟩
    | some v =>
      refine lookup_of_mem (m.erase k).sorted ?_
      exact List.mem_filter.mpr ⟨(get?_eq_some_iff m j v).mp h, by simpa using hj⟩

theorem get?_insertMany (l : List (κ × ν)) (hl : (l.map Prod.fst).Nodup) (m : SortedMap κ ν) (k : κ) :
    (m.insertMany l).get? k = ((lookup k l).orElse fun _ => m.get? k) := by
  induction l generalizing m with
  | nil => rfl
  | cons a rest ih =>
    obtain ⟨hhead, htail⟩ := List.nodup_cons.mp hl
    show ((m.insert a.1 a.2).insertMany rest).get? k = _
    rw [ih htail, get?_insert]
    by_cases hk : k = a.1
    · subst hk
      have hnone : lookup a.1 rest = none :=
        lookup_eq_none fun b hb heq => hhead (List.mem_map.mpr ⟨b, hb, heq⟩)
      simp [lookup, hnone]
    · simp [lookup, hk]

/-- Pouring a map in: its own bindings win. -/
theorem get?_insertMany_entries (m n : SortedMap κ ν) (k : κ) :
    (m.insertMany n.entries).get? k = ((n.get? k).orElse fun _ => m.get? k) :=
  get?_insertMany n.entries n.keys_nodup m k

/-- The same keys with their values changed. -/
def map {ω : Type} (f : ν → ω) (m : SortedMap κ ν) : SortedMap κ ω :=
  ⟨m.entries.map fun a => (a.1, f a.2), List.pairwise_map.mpr m.sorted⟩

theorem get?_map {ω : Type} (f : ν → ω) (m : SortedMap κ ν) (k : κ) : (m.map f).get? k = (m.get? k).map f := by
  show lookup k (m.entries.map fun a => (a.1, f a.2)) = (lookup k m.entries).map f
  induction m.entries with
  | nil => rfl
  | cons a rest ih =>
    simp only [List.map_cons, lookup, ih]
    split <;> rfl

theorem map_insert {ω : Type} (f : ν → ω) (m : SortedMap κ ν) (k : κ) (v : ν) :
    (m.insert k v).map f = (m.map f).insert k (f v) := by
  refine ext_get fun j => ?_
  rw [get?_map, get?_insert, get?_insert, get?_map]
  split <;> rfl

end SortedMap

end Dodb.Lib
