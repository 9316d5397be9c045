import Dodb.Btree.Search
import Dodb.Btree.Values

/-! Reading a represented tree.

Point reads find the item of their key. Query and scan walk the chain of leaves; what
they do with an entry is a `Verdict`, and `rowLoop` is the walk over the items alone,
with the budget each row is charged to. A walk over the leaves is the walk over their
items (`exec_queryLeaves`, `exec_scanLeaves`), and its rows are the items' rows up to
the limit (`rowLoop_eq`). -/
namespace Dodb
open Lib PageProg SearchTree

variable {top : Lsn} {s : TreeStage} {t : Shape} {free : List PageId}
variable {limit : Nat} {rs : RowState} {cursor : Option DocumentKey} {pk : PrimaryKey} {exclusiveAfterSk : Option SortKey} {verdict : Item → Verdict} {m : Prog RowState}

/-! ### Items as documents -/

/-- The row of a document, if the item is not a tombstone. -/
def Item.row (i : Item) : Option Document := i.value.map fun v => ⟨i.key, v.bytes, i.revision⟩

/-- The key and what the reference map has for it. -/
def Item.binding (i : Item) : DocumentKey × RevisionState := (i.key, i.state)

/-- The state of a key among items. -/
def stateIn (items : List Item) (key : DocumentKey) : RevisionState :=
  ((items.find? fun i => decide (i.sortKey = key.encode)).map Item.state).getD (.missing 0)

theorem valueLength_ref (v : Stored) : valueLength v.ref = v.bytes.length := by
  cases v <;> rfl

/-- Everything of an item can be read. -/
structure Item.Readable (s : TreeStage) (i : Item) : Prop where
  value : ∀ v ∈ i.value, exec (readValue v.ref) s = .ok v.bytes s

theorem Healthy.readable (h : Healthy top s t free []) {i : Item} (hi : i ∈ t.items) : i.Readable s where
  value v hv := by
    obtain ⟨l, hl, hil⟩ := List.mem_flatMap.mp hi
    have hcell := Shape.leaf_mem_cells hl
    have hpages : v.pages = i.pages := by rw [Item.pages, Option.mem_def.mp hv]; rfl
    have hmem : ∀ p ∈ v.pages, p ∈ Cell.pages (.leaf l) := fun p hp =>
      List.mem_cons_of_mem _ (List.mem_flatMap.mpr ⟨i, hil, hpages ▸ hp⟩)
    refine exec_readValue ((h.pages.valid _ hcell).2 i hil |>.2 v hv) ((h.pages.cellsAt _ hcell).2 i hil v hv)
      (fun p hp => h.pages.cell_range hcell (hmem p hp)) ?_
    have hnodup := (List.nodup_append.mp h.pages.space.nodup).1
    have hsub : (Cell.pages (.leaf l)).Sublist (t.cells.flatMap Cell.pages) :=
      List.sublist_flatten_of_mem (List.mem_map_of_mem hcell)
    have hsub' : i.pages.Sublist (Cell.pages (.leaf l)) :=
      (List.sublist_flatten_of_mem (List.mem_map_of_mem hil)).trans (List.sublist_cons_self ..)
    rw [hpages]
    exact hnodup.sublist (hsub'.trans hsub)

/-! ### Point reads -/

theorem Healthy.exec_lookup (h : Healthy top s t free []) (key : DocumentKey) :
    ∃ l route, l ∈ t.leaves ∧ exec (findLeaf key.encode) s = .ok (l.id, route) s ∧
      exec (leaf l.id) s = .ok ⟨l.next, Leaf.entries l⟩ s ∧
      (Leaf.entries l).find? (fun entry => decide (entry.key = key.encode)) =
        (t.items.find? fun i => decide (i.sortKey = key.encode)).map Item.entry := by
  obtain ⟨cs, l, hplug, hexec, hlow, hhigh⟩ := h.exec_findLeaf key.encode
  have hleaves : t.leaves = before cs ++ l :: after cs := by
    rw [← hplug, leaves_plug, Shape.leaves_leaf]
    rfl
  have hl : l ∈ t.leaves := by simp [hleaves]
  refine ⟨l, _, hl, hexec, h.searchable.exec_leaf hl, ?_⟩
  have horder := h.order
  rw [hleaves] at horder
  have hbefore : ((before cs).flatMap SearchTree.Leaf.items).find? (fun i => decide (i.sortKey = key.encode)) = none := by
    rw [List.find?_eq_none]
    intro i hi
    simpa using (horder.before_lt hlow hi).ne
  have hafter : ((after cs).flatMap SearchTree.Leaf.items).find? (fun i => decide (i.sortKey = key.encode)) = none := by
    rw [List.find?_eq_none]
    intro i hi
    simpa using (horder.lt_after hhigh hi).ne'
  rw [SearchTree.Shape.items, hleaves, List.flatMap_append, List.flatMap_cons, List.find?_append, List.find?_append,
    hbefore, hafter, Leaf.entries, List.find?_map, Option.none_or, Option.or_none]
  rfl

theorem Healthy.exec_getState (h : Healthy top s t free []) {key : DocumentKey}
    (hkey : validateEncodedKey key.encode = .ok ()) (budget : ResponseBudget) :
    exec (getState key budget) s = match budget.reserveState (stateIn t.items key).valueLength with
      | .ok budget => .ok (stateIn t.items key, budget) s
      | .error e => .err e s := by
  obtain ⟨l, route, hl, hfind, hleaf, hentry⟩ := h.exec_lookup key
  unfold getState
  dsimp only
  rw [hkey]
  show exec (findLeaf key.encode >>= _) s = _
  rw [exec_bind_ok hfind, exec_bind_ok hleaf, hentry]
  unfold stateIn
  cases hi : t.items.find? fun i => decide (i.sortKey = key.encode) with
  | none =>
    simp only [Option.map_none, Option.getD_none, RevisionState.valueLength]
    cases budget.reserveState 0 <;> rfl
  | some i =>
    have hread := h.readable (List.mem_of_find?_eq_some hi)
    cases hv : i.value with
    | none =>
      simp only [Option.map_some, Option.getD_some, Item.entry, Item.state, hv, Option.map_none,
        RevisionState.valueLength]
      cases budget.reserveState 0 <;> rfl
    | some v =>
      simp only [Option.map_some, Option.getD_some, Item.entry, Item.state, hv, RevisionState.valueLength,
        valueLength_ref]
      cases budget.reserveState v.bytes.length with
      | error e => rfl
      | ok b =>
        show exec (readValue v.ref >>= _) s = _
        rw [exec_bind_ok (hread.value v hv)]
        rfl

/-! ### Walks over items -/

/-- What a walk along the leaves does with an item. -/
inductive Verdict where
  | skip
  | stop
  | take
  deriving DecidableEq

/-- The walk of a query or a scan over items. -/
def rowLoop (verdict : Item → Verdict) (limit : Nat) : List Item → RowState → Result RowState
  | [], rs => .ok rs
  | i :: rest, rs =>
    match verdict i, i.row with
    | .stop, _ => .ok {rs with finished := true}
    | .take, some row => do
      let budget ← rs.budget.reserveDocument i.key row.value.length
      let rs : RowState := {rs with
        budget, rows := rs.rows ++ [row], finished := decide ((rs.rows ++ [row]).length = limit)}
      if rs.finished then pure rs else rowLoop verdict limit rest rs
    | _, _ => rowLoop verdict limit rest rs

/-- The budget after charging rows to it. -/
def reserveRows (budget : ResponseBudget) : List Document → Result ResponseBudget
  | [] => .ok budget
  | row :: rest => do
    let budget ← budget.reserveDocument row.key row.value.length
    reserveRows budget rest

/-- The rows of a walk without a limit. -/
def rowsOf (verdict : Item → Verdict) : List Item → List Document
  | [] => []
  | i :: rest =>
    match verdict i, i.row with
    | .stop, _ => []
    | .take, some row => row :: rowsOf verdict rest
    | _, _ => rowsOf verdict rest

theorem Item.row_key {i : Item} {row : Document} (h : i.row = some row) : row.key = i.key := by
  unfold Item.row at h
  cases hv : i.value with
  | none => simp [hv] at h
  | some v =>
    simp only [hv, Option.map_some, Option.some.injEq] at h
    rw [← h]

section RowLoop
variable {verdict : Item → Verdict} {limit : Nat}

theorem rowLoop_append (a b : List Item) {rs : RowState} (hrs : rs.finished = false) :
    rowLoop verdict limit (a ++ b) rs = (do
      let rs ← rowLoop verdict limit a rs
      if rs.finished then pure rs else rowLoop verdict limit b rs) := by
  induction a generalizing rs with
  | nil =>
    show _ = (if rs.finished then _ else _)
    rw [hrs]
    rfl
  | cons i rest ih =>
    rw [List.cons_append, rowLoop, rowLoop]
    cases verdict i with
    | stop => rfl
    | skip => exact ih hrs
    | take =>
      cases i.row with
      | none => exact ih hrs
      | some row =>
        dsimp only
        cases rs.budget.reserveDocument i.key row.value.length with
        | error e => rfl
        | ok budget =>
          simp only [except_ok_bind]
          by_cases hfull : (rs.rows ++ [row]).length = limit
          · simp only [hfull, decide_true, if_true]
            rfl
          · simp only [hfull, decide_false, Bool.false_eq_true, if_false]
            exact ih rfl

/-- The rows of a walk are those of the items, up to the limit. -/
theorem rowLoop_eq (items : List Item) {rs : RowState} (hrs : rs.finished = false) (hlimit : rs.rows.length < limit) :
    (∃ e, rowLoop verdict limit items rs = .error e ∧
      reserveRows rs.budget ((rowsOf verdict items).take (limit - rs.rows.length)) = .error e) ∨
    ∃ rs', rowLoop verdict limit items rs = .ok rs' ∧
      rs'.rows = rs.rows ++ (rowsOf verdict items).take (limit - rs.rows.length) ∧
      reserveRows rs.budget ((rowsOf verdict items).take (limit - rs.rows.length)) = .ok rs'.budget := by
  induction items generalizing rs with
  | nil => exact .inr ⟨rs, rfl, by simp [rowsOf], by simp [rowsOf, reserveRows]⟩
  | cons i rest ih =>
    rw [rowLoop, rowsOf]
    cases verdict i with
    | stop => exact .inr ⟨{rs with finished := true}, rfl, by simp, by simp [reserveRows]⟩
    | skip => exact ih hrs hlimit
    | take =>
      cases hrow : i.row with
      | none => exact ih hrs hlimit
      | some row =>
        obtain ⟨n, hn⟩ : ∃ n, limit - rs.rows.length = n + 1 := ⟨limit - rs.rows.length - 1, by omega⟩
        simp only [hn, List.take_succ_cons, reserveRows, Item.row_key hrow]
        cases hreserve : rs.budget.reserveDocument i.key row.value.length with
        | error e => exact .inl ⟨e, rfl, rfl⟩
        | ok budget =>
          simp only [except_ok_bind]
          by_cases hfull : (rs.rows ++ [row]).length = limit
          · have hzero : n = 0 := by
              rw [List.length_append, List.length_singleton] at hfull
              omega
            refine .inr ⟨_, by simp only [hfull, decide_true, if_true]; rfl, ?_, ?_⟩
            · simp [hzero]
            · simp [hzero, reserveRows]
          · have hlen : (rs.rows ++ [row]).length = rs.rows.length + 1 := by simp
            have hsub : limit - (rs.rows ++ [row]).length = n := by omega
            simp only [hfull, decide_false, Bool.false_eq_true, if_false]
            rcases @ih ⟨false, rs.first, budget, rs.rows ++ [row]⟩ rfl (by dsimp only; omega) with
              ⟨e, he, hres⟩ | ⟨rs', hok, hrows, hres⟩
            · exact .inl ⟨e, he, by rw [← hsub]; exact hres⟩
            · refine .inr ⟨rs', hok, ?_, by rw [← hsub]; exact hres⟩
              rw [hrows, ← hsub]
              simp

/-- A walk does not look at `first`. -/
theorem rowLoop_first (items : List Item) (rs : RowState) (first : Bool) :
    rowLoop verdict limit items {rs with first} =
      (rowLoop verdict limit items rs).map fun rs => {rs with first} := by
  induction items generalizing rs with
  | nil => rfl
  | cons i rest ih =>
    rw [rowLoop, rowLoop]
    cases verdict i with
    | stop => rfl
    | skip => exact ih rs
    | take =>
      cases i.row with
      | none => exact ih rs
      | some row =>
        dsimp only
        cases rs.budget.reserveDocument i.key row.value.length with
        | error e => rfl
        | ok budget =>
          simp only [except_ok_bind]
          by_cases hfull : (rs.rows ++ [row]).length = limit
          · simp only [hfull, decide_true, if_true]
            rfl
          · simp only [hfull, decide_false, Bool.false_eq_true, if_false]
            exact ih ⟨false, rs.first, budget, rs.rows ++ [row]⟩

/-- A walk that is not finished has not reached the limit. -/
theorem rowLoop_rows_lt {items : List Item} {rs rs' : RowState} (h : rowLoop verdict limit items rs = .ok rs')
    (hfinished : rs'.finished = false) (hlimit : rs.rows.length < limit) : rs'.rows.length < limit := by
  induction items generalizing rs with
  | nil =>
    cases h
    exact hlimit
  | cons i rest ih =>
    rw [rowLoop] at h
    cases hv : verdict i with
    | stop =>
      rw [hv] at h
      cases h
      cases hfinished
    | skip =>
      rw [hv] at h
      exact ih h hlimit
    | take =>
      rw [hv] at h
      cases hrow : i.row with
      | none =>
        rw [hrow] at h
        exact ih h hlimit
      | some row =>
        rw [hrow] at h
        obtain ⟨budget, _, h⟩ := except_bind_eq_ok.mp h
        by_cases hfull : (rs.rows ++ [row]).length = limit
        · simp only [hfull, decide_true, if_true] at h
          cases h
          cases hfinished
        · simp only [hfull, decide_false, Bool.false_eq_true, if_false] at h
          refine ih h ?_
          rw [List.length_append, List.length_singleton] at hfull ⊢
          omega

end RowLoop

/-! ### Walks over entries -/

/-- What a program that only reads comes to. -/
def outcomeOf {α : Type} (s : TreeStage) : Result α → Outcome TreeStage Error α
  | .ok a => .ok a s
  | .error e => .err e s

theorem Item.Readable.exec_pushRow {i : Item} (h : i.Readable s) (limit : Nat) (rs : RowState) :
    exec (pushRow limit i.key i.entry rs) s = outcomeOf s (match i.row with
      | none => .ok rs
      | some row => do
        let budget ← rs.budget.reserveDocument i.key row.value.length
        pure {rs with budget, rows := rs.rows ++ [row], finished := decide ((rs.rows ++ [row]).length = limit)}) := by
  unfold pushRow Item.row
  cases hv : i.value with
  | none =>
    simp only [Item.entry, hv, Option.map_none]
    rfl
  | some v =>
    simp only [Item.entry, hv, Option.map_some, valueLength_ref]
    cases rs.budget.reserveDocument i.key v.bytes.length with
    | error e => rfl
    | ok budget =>
      show exec (readValue v.ref >>= _) s = _
      rw [exec_bind_ok (h.value v hv)]
      rfl

/-- An entry that is taken, and the walk after it. -/
theorem Item.Readable.exec_take {i : Item} (h : i.Readable s) (hrs : rs.finished = false)
    {next : RowState → Prog RowState} {loop : RowState → Result RowState}
    (hnext : ∀ rs', rs'.finished = false → rs'.first = rs.first → exec (next rs') s = outcomeOf s (loop rs')) :
    exec (pushRow limit i.key i.entry rs >>= fun rs => if rs.finished then pure rs else next rs) s =
      outcomeOf s (match i.row with
        | none => loop rs
        | some row => do
          let budget ← rs.budget.reserveDocument i.key row.value.length
          let rs : RowState := {rs with
            budget, rows := rs.rows ++ [row], finished := decide ((rs.rows ++ [row]).length = limit)}
          if rs.finished then pure rs else loop rs) := by
  have hpush := h.exec_pushRow limit rs
  cases hrow : i.row with
  | none =>
    rw [hrow] at hpush
    rw [exec_bind_ok hpush, hrs]
    exact hnext rs hrs rfl
  | some row =>
    rw [hrow] at hpush
    dsimp only at hpush ⊢
    cases hreserve : rs.budget.reserveDocument i.key row.value.length with
    | error e =>
      rw [hreserve] at hpush
      exact exec_bind_err hpush _
    | ok budget =>
      rw [hreserve] at hpush
      rw [exec_bind_ok hpush]
      simp only [except_ok_bind]
      by_cases hfull : (rs.rows ++ [row]).length = limit
      · simp only [hfull, decide_true, if_true]
        rfl
      · simp only [hfull, decide_false, Bool.false_eq_true, if_false]
        exact hnext _ rfl rfl

theorem decodeLeafKey_sortKey (i : Item) : decodeLeafKey i.sortKey = .ok i.key := by
  unfold decodeLeafKey Item.sortKey
  rw [DocumentKey.decode_encode]

/-- A scan passes over what is not behind its cursor. -/
def scanVerdict (cursor : Option DocumentKey) (i : Item) : Verdict :=
  if cursor.any fun cursor => decide (i.key ≤ cursor) then .skip else .take

theorem exec_scanEntries {items : List Item} (hread : ∀ i ∈ items, i.Readable s) (hrs : rs.finished = false) :
    exec (scanEntries (cursor.map DocumentKey.encode) limit (items.map Item.entry) rs) s =
      outcomeOf s (rowLoop (scanVerdict cursor) limit items rs) := by
  induction items generalizing rs with
  | nil => rfl
  | cons i rest ih =>
    have hrest : ∀ j ∈ rest, j.Readable s := fun j hj => hread j (List.mem_cons_of_mem _ hj)
    rw [List.map_cons, scanEntries, rowLoop, scanVerdict]
    have hany : (cursor.map DocumentKey.encode).any (fun cursor => decide (i.entry.key ≤ cursor)) =
        cursor.any fun cursor => decide (i.key ≤ cursor) := by
      cases cursor with
      | none => rfl
      | some c => simp [Item.sortKey, DocumentKey.encode_le_encode]
    rw [hany]
    by_cases hskip : cursor.any (fun cursor => decide (i.key ≤ cursor)) = true
    · rw [if_pos hskip, if_pos hskip]
      exact ih hrest hrs
    · rw [if_neg hskip, if_neg hskip]
      simp only [Item.entry_key, decodeLeafKey_sortKey]
      show exec (pushRow limit i.key i.entry rs >>= _) s = _
      refine ((hread i List.mem_cons_self).exec_take hrs fun rs' hrs' _ => ih hrest hrs').trans ?_
      cases i.row <;> rfl

/-- A query passes over smaller primary keys, and ends at the first that is greater. -/
def queryVerdict (pk : PrimaryKey) (exclusiveAfterSk : Option SortKey) (i : Item) : Verdict :=
  if i.key.pk ≠ pk then if pk < i.key.pk then .stop else .skip
  else if exclusiveAfterSk.any fun cursor => decide (i.key.sk ≤ cursor) then .skip
  else .take

/-- The entries skipped at the start of the first leaf are skipped anyway. -/
theorem queryVerdict_of_le {i : Item}
    (h : (exclusiveAfterSk.map fun sk => DocumentKey.encode ⟨pk, sk⟩).any
      (fun cursor => decide (i.entry.key ≤ cursor)) = true) : queryVerdict pk exclusiveAfterSk i = .skip := by
  cases exclusiveAfterSk with
  | none => cases h
  | some sk =>
    have hle : i.key ≤ ⟨pk, sk⟩ := by
      simpa [Item.sortKey, DocumentKey.encode_le_encode] using h
    unfold queryVerdict
    by_cases hpk : i.key.pk = pk
    · have hsk : i.key.sk ≤ sk := by
        by_contra hgt
        exact absurd ((DocumentKey.lt_iff ⟨pk, sk⟩ i.key).mpr (.inr ⟨hpk.symm, not_le.mp hgt⟩)) hle.not_gt
      simp [hpk, hsk]
    · have hlt : ¬pk < i.key.pk := (DocumentKey.pk_le_of_le hle).not_gt
      simp [hpk, hlt]

theorem exec_queryEntries_rest {cursor : Option Bytes} {items : List Item} (hread : ∀ i ∈ items, i.Readable s)
    (hrs : rs.finished = false) (hfirst : rs.first = false) :
    exec (queryEntries pk exclusiveAfterSk cursor limit (items.map Item.entry) rs) s =
      outcomeOf s (rowLoop (queryVerdict pk exclusiveAfterSk) limit items rs) := by
  induction items generalizing rs with
  | nil => rfl
  | cons i rest ih =>
    have hrest : ∀ j ∈ rest, j.Readable s := fun j hj => hread j (List.mem_cons_of_mem _ hj)
    have hself : ({rs with first := false} : RowState) = rs := by rw [← hfirst]
    rw [List.map_cons, queryEntries, rowLoop, if_neg (by simp [hfirst])]
    simp only [Item.entry_key, decodeLeafKey_sortKey, hself]
    show exec (if _ then _ else _) s = _
    unfold queryVerdict
    by_cases hpk : i.key.pk ≠ pk
    · rw [if_pos hpk, if_pos hpk]
      by_cases hlt : pk < i.key.pk
      · rw [if_pos hlt, if_pos hlt, hfirst]
        rfl
      · rw [if_neg hlt, if_neg hlt]
        exact ih hrest hrs hfirst
    · rw [if_neg hpk, if_neg hpk]
      by_cases hsk : exclusiveAfterSk.any (fun cursor => decide (i.key.sk ≤ cursor)) = true
      · rw [if_pos hsk, if_pos hsk]
        exact ih hrest hrs hfirst
      · rw [if_neg hsk, if_neg hsk]
        refine ((hread i List.mem_cons_self).exec_take hrs fun rs' hrs' hf => ih hrest hrs' (hf.trans hfirst)).trans ?_
        cases i.row <;> rfl

/-- Once an entry is not skipped, the cursor is passed. -/
theorem queryEntries_not_skipped {cursor : Option Bytes} {entry : LeafEntry} {rest : List LeafEntry}
    (h : ¬(rs.first = true ∧ cursor.any (fun cursor => decide (entry.key ≤ cursor)) = true)) :
    queryEntries pk exclusiveAfterSk cursor limit (entry :: rest) rs =
      queryEntries pk exclusiveAfterSk cursor limit (entry :: rest) {rs with first := false} := by
  rw [queryEntries, queryEntries, if_neg h, if_neg (by simp)]

/-- `m` comes to `r`, but for `first`. -/
def Walks (s : TreeStage) (m : Prog RowState) (r : Result RowState) : Prop :=
  ∃ first, exec m s = outcomeOf s (r.map fun rs => {rs with first})

theorem exec_queryEntries {items : List Item} (hread : ∀ i ∈ items, i.Readable s) (hrs : rs.finished = false) :
    Walks s (queryEntries pk exclusiveAfterSk (exclusiveAfterSk.map fun sk => DocumentKey.encode ⟨pk, sk⟩) limit
      (items.map Item.entry) rs) (rowLoop (queryVerdict pk exclusiveAfterSk) limit items rs) := by
  induction items generalizing rs with
  | nil => exact ⟨rs.first, rfl⟩
  | cons i rest ih =>
    by_cases hskip : rs.first = true ∧ (exclusiveAfterSk.map fun sk => DocumentKey.encode ⟨pk, sk⟩).any
        (fun cursor => decide (i.entry.key ≤ cursor)) = true
    · rw [List.map_cons, queryEntries, rowLoop, if_pos hskip, queryVerdict_of_le hskip.2]
      exact ih (fun j hj => hread j (List.mem_cons_of_mem _ hj)) hrs
    · refine ⟨false, ?_⟩
      rw [List.map_cons, queryEntries_not_skipped hskip, ← rowLoop_first]
      exact exec_queryEntries_rest hread hrs rfl

/-! ### Walks over leaves -/

/-- A run of leaves that the chain leads through. -/
structure Chained (s : TreeStage) (ls : List Leaf) : Prop where
  leaf : ∀ l ∈ ls, exec (leaf l.id) s = .ok ⟨l.next, Leaf.entries l⟩ s
  linked : Linked none ls
  readable : ∀ l ∈ ls, ∀ i ∈ l.items, i.Readable s
  nodup : (ls.map SearchTree.Leaf.id).Nodup

theorem Chained.tail {l : Leaf} {rest : List Leaf} (h : Chained s (l :: rest)) : Chained s rest where
  leaf r hr := h.leaf r (List.mem_cons_of_mem _ hr)
  linked := h.linked.2
  readable r hr := h.readable r (List.mem_cons_of_mem _ hr)
  nodup := (List.nodup_cons.mp h.nodup).2

theorem Chained.visited {l : Leaf} {rest : List Leaf} {visited : List PageId} (h : Chained s (l :: rest))
    (hvisited : ∀ r ∈ l :: rest, r.id ∉ visited) : ∀ r ∈ rest, r.id ∉ l.id :: visited := by
  intro r hr hmem
  rcases List.mem_cons.mp hmem with heq | hmem
  · exact (List.nodup_cons.mp h.nodup).1 (heq ▸ List.mem_map_of_mem hr)
  · exact hvisited r (List.mem_cons_of_mem _ hr) hmem

/-- The walk over a leaf, and over the leaves after it. -/
theorem Walks.leaf {l : Leaf} {rest : List Leaf} {entries : Prog RowState}
    (walk : PageId → RowState → Prog RowState) (h : Chained s (l :: rest)) (hrs : rs.finished = false)
    (hentries : Walks s entries (rowLoop verdict limit l.items rs))
    (hwalk : ∀ r rest' rs' first, rest = r :: rest' → rowLoop verdict limit l.items rs = .ok rs' →
      rs'.finished = false →
        Walks s (walk r.id {rs' with first}) (rowLoop verdict limit (rest.flatMap SearchTree.Leaf.items) rs')) :
    Walks s (entries >>= fun rs => if rs.finished then pure rs else match l.next with
      | none => pure rs
      | some next => walk next rs) (rowLoop verdict limit ((l :: rest).flatMap SearchTree.Leaf.items) rs) := by
  obtain ⟨first, hexec⟩ := hentries
  rw [List.flatMap_cons, rowLoop_append _ _ hrs]
  cases hloop : rowLoop verdict limit l.items rs with
  | error e =>
    rw [hloop] at hexec
    exact ⟨first, exec_bind_err hexec _⟩
  | ok rs' =>
    rw [hloop] at hexec
    simp only [except_ok_bind]
    by_cases hfinished : rs'.finished = true
    · refine ⟨first, (exec_bind_ok hexec _).trans ?_⟩
      show exec (if rs'.finished = true then _ else _) s = _
      rw [if_pos hfinished, if_pos hfinished]
      rfl
    · have hnext := h.linked.1
      cases rest with
      | nil =>
        rw [show l.next = none by simpa using hnext]
        refine ⟨first, (exec_bind_ok hexec _).trans ?_⟩
        show exec (if rs'.finished = true then _ else _) s = _
        rw [if_neg hfinished, if_neg hfinished]
        rfl
      | cons r rest' =>
        rw [show l.next = some r.id by simpa using hnext]
        obtain ⟨first', hexec'⟩ := hwalk r rest' rs' first rfl hloop (Bool.eq_false_iff.mpr hfinished)
        refine ⟨first', (exec_bind_ok hexec _).trans ?_⟩
        show exec (if rs'.finished = true then _ else _) s = _
        rw [if_neg hfinished, if_neg hfinished, hexec']

theorem Walks.of_eq {items : List Item}
    (h : exec m s = outcomeOf s (rowLoop verdict limit items rs)) : Walks s m (rowLoop verdict limit items rs) :=
  ⟨rs.first, by rw [h, ← rowLoop_first]⟩

theorem Walks.of_first {items : List Item} {first : Bool}
    (h : Walks s m (rowLoop verdict limit items {rs with first})) : Walks s m (rowLoop verdict limit items rs) := by
  obtain ⟨first', hexec⟩ := h
  rw [rowLoop_first] at hexec
  refine ⟨first', hexec.trans ?_⟩
  cases rowLoop verdict limit items rs <;> rfl

theorem exec_scanLeaves {l : Leaf} {rest : List Leaf}
    (h : Chained s (l :: rest)) {bound : Nat} (hbound : (l :: rest).length ≤ bound) {visited : List PageId}
    (hvisited : ∀ r ∈ l :: rest, r.id ∉ visited) (hrs : rs.finished = false) :
    Walks s (scanLeaves (cursor.map DocumentKey.encode) limit bound l.id visited rs)
      (rowLoop (scanVerdict cursor) limit ((l :: rest).flatMap SearchTree.Leaf.items) rs) := by
  induction bound generalizing l rest visited rs with
  | zero => simp at hbound
  | succ bound ih =>
    have hl : l ∈ l :: rest := List.mem_cons_self
    have hentries : Walks s (scanEntries (cursor.map DocumentKey.encode) limit (l.items.map Item.entry) rs) _ :=
      Walks.of_eq (exec_scanEntries (h.readable l hl) hrs)
    obtain ⟨first, hexec⟩ := Walks.leaf
      (fun next => scanLeaves (cursor.map DocumentKey.encode) limit bound next (l.id :: visited)) h hrs hentries
      (fun r rest' rs' first hrest _ hrs' => by
        subst hrest
        exact Walks.of_first (ih h.tail (by simpa using hbound) (h.visited hvisited) hrs'))
    refine ⟨first, ?_⟩
    rw [scanLeaves, exec_bind_ok (exec_check_pos s (hvisited l hl) _), exec_bind_ok (h.leaf l hl)]
    exact hexec

theorem exec_queryLeaves {l : Leaf} {rest : List Leaf} (h : Chained s (l :: rest)) {bound : Nat}
    (hbound : (l :: rest).length ≤ bound) {visited : List PageId} (hvisited : ∀ r ∈ l :: rest, r.id ∉ visited)
    (hrs : rs.finished = false) (hlimit : rs.rows.length < limit) :
    Walks s (queryLeaves pk exclusiveAfterSk (exclusiveAfterSk.map fun sk => DocumentKey.encode ⟨pk, sk⟩) limit bound l.id
      visited rs) (rowLoop (queryVerdict pk exclusiveAfterSk) limit ((l :: rest).flatMap SearchTree.Leaf.items) rs) := by
  induction bound generalizing l rest visited rs with
  | zero => simp at hbound
  | succ bound ih =>
    have hl : l ∈ l :: rest := List.mem_cons_self
    obtain ⟨first, hexec⟩ := Walks.leaf (fun next rs => queryLeaves pk exclusiveAfterSk
        (exclusiveAfterSk.map fun sk => DocumentKey.encode ⟨pk, sk⟩) limit bound next (l.id :: visited)
          {rs with first := false}) h hrs (exec_queryEntries (h.readable l hl) hrs)
      (fun r rest' rs' first hrest hloop hrs' => by
        subst hrest
        have hrows : rs'.rows.length < limit := rowLoop_rows_lt hloop hrs' hlimit
        exact Walks.of_first (ih h.tail (by simpa using hbound) (h.visited hvisited) hrs' hrows))
    refine ⟨first, ?_⟩
    rw [queryLeaves, if_neg hlimit.not_ge, exec_bind_ok (exec_check_pos s (hvisited l hl) _),
      exec_bind_ok (h.leaf l hl)]
    exact hexec

/-! ### Queries and scans -/

theorem rowsOf_append_skip {a b : List Item} (h : ∀ i ∈ a, verdict i = .skip) :
    rowsOf verdict (a ++ b) = rowsOf verdict b := by
  induction a with
  | nil => rfl
  | cons i rest ih =>
    rw [List.cons_append, rowsOf, h i List.mem_cons_self]
    exact ih fun j hj => h j (List.mem_cons_of_mem _ hj)

/-- What a walk from a leaf on is, as an answer. -/
theorem Walks.answer {items : List Item} {budget : ResponseBudget}
    (h : Walks s m (rowLoop verdict limit items ⟨false, true, budget, []⟩)) (hlimit : 0 < limit) :
    exec (m >>= fun rs => pure (rs.rows, rs.budget)) s = outcomeOf s
      ((reserveRows budget ((rowsOf verdict items).take limit)).map fun budget =>
        ((rowsOf verdict items).take limit, budget)) := by
  obtain ⟨first, hexec⟩ := h
  rcases @rowLoop_eq verdict limit items ⟨false, true, budget, []⟩ rfl hlimit with
    ⟨e, he, hres⟩ | ⟨rs', hok, hrows, hres⟩
  · rw [he] at hexec
    simp only [List.length_nil, Nat.sub_zero] at hres
    rw [hres]
    exact exec_bind_err hexec _
  · rw [hok] at hexec
    simp only [List.length_nil, Nat.sub_zero, List.nil_append] at hres hrows
    rw [hres, ← hrows]
    exact exec_bind_ok hexec _

theorem Healthy.chained (h : Healthy top s t free []) {b a : List Leaf} {l : Leaf} (hleaves : t.leaves = b ++ l :: a) :
    Chained s (l :: a) ∧ (l :: a).length ≤ s.state.highWaterPageId + 1 := by
  have hmem : ∀ r ∈ l :: a, r ∈ t.leaves := fun r hr => by
    rw [hleaves]
    exact List.mem_append_right _ hr
  have hlinked := h.linked
  rw [hleaves, linked_append] at hlinked
  have hsub : (l :: a).Sublist t.leaves := by
    rw [hleaves]
    exact List.sublist_append_right ..
  have hids : ((l :: a).map SearchTree.Leaf.id).Sublist (t.cells.map Cell.id) := by
    have := (hsub.map SearchTree.Cell.leaf).trans t.leaves_sublist_cells
    have := this.map Cell.id
    rwa [List.map_map] at this
  refine ⟨⟨fun r hr => h.searchable.exec_leaf (hmem r hr), hlinked.2, fun r hr i hi => ?_, h.searchable.nodup.sublist hids⟩, ?_⟩
  · exact h.readable (List.mem_flatMap.mpr ⟨r, hmem r hr, hi⟩)
  · have := hids.length_le
    have := h.pages.cells_length_le
    simp only [List.length_map] at *
    omega

/-- The leaf a key is looked for in, and the chain from it on. -/
theorem Healthy.exec_findChain (h : Healthy top s t free []) (k : Bytes) :
    ∃ (a : List Item) (l : Leaf) (rest : List Leaf) (route : List PageId),
      exec (findLeaf k) s = .ok (l.id, route) s ∧ Chained s (l :: rest) ∧
      (l :: rest).length ≤ s.state.highWaterPageId + 1 ∧
      t.items = a ++ (l :: rest).flatMap SearchTree.Leaf.items ∧ ∀ i ∈ a, i.sortKey < k := by
  obtain ⟨cs, l, hplug, hexec, hlow, _⟩ := h.exec_findLeaf k
  have hleaves : t.leaves = before cs ++ l :: after cs := by
    rw [← hplug, leaves_plug, Shape.leaves_leaf]
    rfl
  obtain ⟨hchained, hlen⟩ := h.chained hleaves
  have horder := h.order
  rw [hleaves] at horder
  refine ⟨_, l, after cs, _, hexec, hchained, hlen, ?_, fun i hi => horder.before_lt hlow hi⟩
  rw [SearchTree.Shape.items, hleaves, List.flatMap_append]

/-- A scan from the first leaf of a chain. -/
theorem exec_scan_start {l : Leaf} {rest : List Leaf} (hstart : exec leftmostLeaf s = .ok l.id s)
    (hchained : Chained s (l :: rest)) (hlen : (l :: rest).length ≤ s.state.highWaterPageId + 1)
    (hlimit : limit ≠ 0) (budget : ResponseBudget) :
    exec (scan none limit budget) s = outcomeOf s
      ((reserveRows budget ((rowsOf (scanVerdict none) ((l :: rest).flatMap SearchTree.Leaf.items)).take limit)).map
        fun budget => ((rowsOf (scanVerdict none) ((l :: rest).flatMap SearchTree.Leaf.items)).take limit, budget)) := by
  unfold scan
  rw [if_neg hlimit, exec_bind_ok hstart, exec_bind_ok (exec_get s)]
  exact (exec_scanLeaves hchained hlen (by simp) rfl).answer (Nat.pos_of_ne_zero hlimit)

theorem Healthy.exec_scan (h : Healthy top s t free [])
    (hcursor : ∀ key ∈ cursor, validateEncodedKey key.encode = .ok ()) (hlimit : limit ≠ 0) (budget : ResponseBudget) :
    exec (scan cursor limit budget) s = outcomeOf s
      ((reserveRows budget ((rowsOf (scanVerdict cursor) t.items).take limit)).map fun budget =>
        ((rowsOf (scanVerdict cursor) t.items).take limit, budget)) := by
  cases cursor with
  | none =>
    obtain ⟨l, rest, hleaves, hexec⟩ := h.exec_leftmostLeaf
    obtain ⟨hchained, hlen⟩ := h.chained (b := []) hleaves
    rw [SearchTree.Shape.items, hleaves]
    exact exec_scan_start hexec hchained hlen hlimit budget
  | some key =>
    have hpos : 0 < limit := Nat.pos_of_ne_zero hlimit
    unfold scan
    rw [if_neg hlimit]
    obtain ⟨a, l, rest, route, hexec, hchained, hlen, hitems, hbefore⟩ := h.exec_findChain key.encode
    have hskip : ∀ i ∈ a, scanVerdict (some key) i = .skip := fun i hi => by
      have hle : i.key ≤ key := (DocumentKey.encode_le_encode ..).mp (hbefore i hi).le
      simp [scanVerdict, hle]
    dsimp only
    rw [hcursor key rfl]
    show exec (findLeaf key.encode >>= _) s = _
    rw [exec_bind_ok hexec, hitems, rowsOf_append_skip hskip]
    show exec (MonadState.get >>= _) s = _
    rw [exec_bind_ok (exec_get s)]
    exact (exec_scanLeaves hchained hlen (by simp) rfl).answer hpos

theorem Healthy.exec_query (h : Healthy top s t free [])
    (hpk : validateEncodedKey (DocumentKey.encode ⟨pk, []⟩) = .ok ())
    (hcursor : ∀ sk ∈ exclusiveAfterSk, validateEncodedKey (DocumentKey.encode ⟨pk, sk⟩) = .ok ())
    (hlimit : limit ≠ 0) (budget : ResponseBudget) :
    exec (query pk exclusiveAfterSk limit budget) s = outcomeOf s
      ((reserveRows budget ((rowsOf (queryVerdict pk exclusiveAfterSk) t.items).take limit)).map fun budget =>
        ((rowsOf (queryVerdict pk exclusiveAfterSk) t.items).take limit, budget)) := by
  have hpos : 0 < limit := Nat.pos_of_ne_zero hlimit
  obtain ⟨a, l, rest, route, hexec, hchained, hlen, hitems, hbefore⟩ :=
    h.exec_findChain (DocumentKey.encode ⟨pk, []⟩)
  have hskip : ∀ i ∈ a, queryVerdict pk exclusiveAfterSk i = .skip := fun i hi => by
    have hlt : i.key < ⟨pk, []⟩ := (DocumentKey.encode_lt_encode ..).mp (hbefore i hi)
    rcases (DocumentKey.lt_iff ..).mp hlt with hlt | ⟨_, hlt⟩
    · simp [queryVerdict, hlt.ne, hlt.not_gt]
    · exact absurd hlt (List.not_lt_nil _)
  have hvisited : ∀ r ∈ l :: rest, r.id ∉ ([] : List PageId) := by simp
  have hwalks : Walks s _ (rowLoop (queryVerdict pk exclusiveAfterSk) limit _ ⟨false, true, budget, []⟩) :=
    exec_queryLeaves hchained hlen hvisited rfl hpos
  have hanswer := hwalks.answer hpos
  rw [← rowsOf_append_skip hskip, ← hitems] at hanswer
  unfold query
  rw [if_neg hlimit]
  dsimp only
  rw [hpk]
  show exec (findLeaf (DocumentKey.encode ⟨pk, []⟩) >>= _) s = _
  rw [exec_bind_ok hexec]
  cases exclusiveAfterSk with
  | none => exact (exec_bind_ok (exec_get s) _).trans hanswer
  | some sk =>
    simp only [Option.map_some, hcursor sk rfl]
    exact (exec_bind_ok (exec_get s) _).trans hanswer

end Dodb
