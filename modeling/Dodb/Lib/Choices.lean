import Mathlib

/-! Searching through the ways to choose some of a list of events, in some order.

The search keeps a stack of states to look at and a set of states seen. The states that follow one weigh less than
it, all together, so the search ends, whatever is on the stack (`Exploration.search`). It meets the goal exactly when
a state that satisfies it can be reached from the state it started with (`search_iff`): every state seen is on the
stack, or is not the goal and all that follow it have been seen.

A state of the search through choices has a bit for each event that has been decided on, and what the events that
were applied lead to. The last states are those that some of the events lead to, in some order
(`exists_reaches_full`). -/
namespace Dodb.Lib

variable {α : Type}

/-- A state that has not been seen goes on the stack. -/
def push [DecidableEq α] : List α × List α → α → List α × List α
  | (frontier, visited), a => if a ∈ visited then (frontier, visited) else (a :: frontier, a :: visited)

def pushAll [DecidableEq α] (frontier visited : List α) (l : List α) : List α × List α :=
  l.foldl push (frontier, visited)

/-- A search whose states get lighter, so that it ends. -/
structure Exploration (α : Type) where
  next : α → List α
  weight : α → Nat
  shrinks : ∀ a, ((next a).map weight).sum < weight a

section Push
variable [DecidableEq α]

theorem pushAll_cons (frontier visited : List α) (a : α) (l : List α) :
    pushAll frontier visited (a :: l) =
      if a ∈ visited then pushAll frontier visited l else pushAll (a :: frontier) (a :: visited) l := by
  unfold pushAll
  rw [List.foldl_cons, push]
  split <;> rfl

theorem sum_pushAll (weight : α → Nat) (l : List α) (frontier visited : List α) :
    ((pushAll frontier visited l).1.map weight).sum ≤ (frontier.map weight).sum + (l.map weight).sum := by
  induction l generalizing frontier visited with
  | nil => simp [pushAll]
  | cons a rest ih =>
    rw [pushAll_cons, List.map_cons, List.sum_cons]
    by_cases ha : a ∈ visited
    · rw [if_pos ha]
      have hrest := ih frontier visited
      omega
    · rw [if_neg ha]
      have hrest := ih (a :: frontier) (a :: visited)
      rw [List.map_cons, List.sum_cons] at hrest
      omega

/-- What is seen afterwards: what was seen before, and the states pushed. -/
theorem mem_pushAll_visited (l : List α) (frontier visited : List α) (b : α) :
    b ∈ (pushAll frontier visited l).2 ↔ b ∈ visited ∨ b ∈ l := by
  induction l generalizing frontier visited with
  | nil => simp [pushAll]
  | cons a rest ih =>
    rw [pushAll_cons]
    by_cases ha : a ∈ visited
    · rw [if_pos ha, ih, List.mem_cons]
      constructor
      · intro h
        exact h.imp_right .inr
      · intro h
        obtain h | rfl | h := h
        · exact .inl h
        · exact .inl ha
        · exact .inr h
    · rw [if_neg ha, ih, List.mem_cons, List.mem_cons]
      tauto

/-- What is on the stack afterwards: what was on it, and the states pushed that had not been seen. -/
theorem mem_pushAll_frontier (l : List α) (frontier visited : List α) (b : α) :
    b ∈ (pushAll frontier visited l).1 ↔ b ∈ frontier ∨ b ∈ l ∧ b ∉ visited := by
  induction l generalizing frontier visited with
  | nil => simp [pushAll]
  | cons a rest ih =>
    rw [pushAll_cons]
    by_cases ha : a ∈ visited
    · rw [if_pos ha, ih, List.mem_cons]
      constructor
      · intro h
        exact h.imp_right fun h => ⟨.inr h.1, h.2⟩
      · intro h
        obtain h | ⟨rfl | h, hb⟩ := h
        · exact .inl h
        · exact absurd ha hb
        · exact .inr ⟨h, hb⟩
    · rw [if_neg ha, ih, List.mem_cons, List.mem_cons, List.mem_cons]
      by_cases hba : b = a
      · subst hba
        tauto
      · tauto

end Push

namespace Exploration

/-- Where a state is followed by a bounded number of states and by ones from which there is less left to do, a state
weighs as much as a tree of that depth can have states. -/
def ofRemaining (next : α → List α) (remaining : α → Nat) (branching : Nat)
    (hbranching : ∀ a, (next a).length ≤ branching) (hremaining : ∀ a, ∀ b ∈ next a, remaining b < remaining a) :
    Exploration α where
  next := next
  weight a := (branching + 1) ^ remaining a
  shrinks a := by
    obtain hnone | hsome := Nat.eq_zero_or_pos (remaining a)
    · have hnext : next a = [] := by
        refine List.eq_nil_iff_forall_not_mem.mpr fun b hb => ?_
        exact Nat.not_lt_zero _ (hnone ▸ hremaining a b hb)
      rw [hnext]
      exact Nat.pow_pos (Nat.succ_pos branching)
    · have hsum : ((next a).map fun b => (branching + 1) ^ remaining b).sum ≤
          (next a).length * (branching + 1) ^ (remaining a - 1) := by
        have hle := List.sum_le_card_nsmul ((next a).map fun b => (branching + 1) ^ remaining b)
          ((branching + 1) ^ (remaining a - 1)) fun w hw => ?_
        · rwa [List.length_map, Nat.nsmul_eq_mul] at hle
        · obtain ⟨b, hb, rfl⟩ := List.mem_map.mp hw
          exact Nat.pow_le_pow_right (Nat.succ_pos branching) (Nat.le_sub_one_of_lt (hremaining a b hb))
      calc ((next a).map fun b => (branching + 1) ^ remaining b).sum
          ≤ (next a).length * (branching + 1) ^ (remaining a - 1) := hsum
        _ ≤ branching * (branching + 1) ^ (remaining a - 1) := Nat.mul_le_mul_right _ (hbranching a)
        _ < (branching + 1) * (branching + 1) ^ (remaining a - 1) :=
          Nat.mul_lt_mul_of_pos_right (Nat.lt_succ_self branching) (Nat.pow_pos (Nat.succ_pos branching))
        _ = (branching + 1) ^ remaining a := by rw [← Nat.pow_succ', Nat.succ_eq_add_one, Nat.sub_add_cancel hsome]

variable (e : Exploration α)

/-- `b` can be reached from `a`. -/
def Reaches : α → α → Prop := Relation.ReflTransGen fun a b => b ∈ e.next a

variable [DecidableEq α]

/-- Depth first, with each state entered once. -/
def search (goal : α → Bool) (frontier visited : List α) : Bool :=
  match frontier with
  | [] => false
  | a :: rest =>
    if goal a then true
    else
      let stack := pushAll rest visited (e.next a)
      search goal stack.1 stack.2
termination_by (frontier.map e.weight).sum
decreasing_by
  have hpushed := sum_pushAll e.weight (e.next a) rest visited
  have hless := e.shrinks a
  rw [List.map_cons, List.sum_cons]
  omega

/-- A goal that is met has been reached from the stack. -/
theorem search_sound {goal : α → Bool} {frontier visited : List α} (h : e.search goal frontier visited = true) :
    ∃ a ∈ frontier, ∃ b, e.Reaches a b ∧ goal b = true := by
  fun_induction e.search goal frontier visited with
  | case1 => cases h
  | case2 visited a rest hgoal => exact ⟨a, List.mem_cons_self, a, .refl, hgoal⟩
  | case3 visited a rest hgoal stack ih =>
    obtain ⟨b, hb, c, hreaches, hc⟩ := ih h
    obtain hold | ⟨hnext, -⟩ := (mem_pushAll_frontier (e.next a) rest visited b).mp hb
    · exact ⟨b, List.mem_cons_of_mem a hold, c, hreaches, hc⟩
    · exact ⟨a, List.mem_cons_self, c, .head hnext hreaches, hc⟩

/-- A search that does not meet the goal has seen everything that follows what it saw, and none of it is the goal. -/
theorem search_closed {goal : α → Bool} {frontier visited : List α} (h : e.search goal frontier visited = false)
    (hseen : ∀ a ∈ visited, a ∈ frontier ∨ goal a = false ∧ ∀ b ∈ e.next a, b ∈ visited) :
    ∃ seen : List α, (∀ a ∈ visited, a ∈ seen) ∧ ∀ a ∈ seen, goal a = false ∧ ∀ b ∈ e.next a, b ∈ seen := by
  fun_induction e.search goal frontier visited with
  | case1 visited =>
    refine ⟨visited, fun _ => id, fun a ha => ?_⟩
    exact (hseen a ha).resolve_left List.not_mem_nil
  | case2 => cases h
  | case3 visited a rest hgoal stack ih =>
    have hstack : ∀ b ∈ stack.2, b ∈ stack.1 ∨ goal b = false ∧ ∀ c ∈ e.next b, c ∈ stack.2 := by
      intro b hb
      have hframe : ∀ c ∈ visited, c ∈ stack.2 := fun c hc => (mem_pushAll_visited _ rest visited c).mpr (.inl hc)
      by_cases hold : b ∈ visited
      · obtain hfrontier | ⟨hb, hnext⟩ := hseen b hold
        · obtain rfl | hrest := List.mem_cons.mp hfrontier
          · -- The state that was taken: it is not the goal, and what follows it has been pushed.
            refine .inr ⟨Bool.eq_false_iff.mpr hgoal, fun c hc => ?_⟩
            exact (mem_pushAll_visited _ rest visited c).mpr (.inr hc)
          · exact .inl ((mem_pushAll_frontier _ rest visited b).mpr (.inl hrest))
        · exact .inr ⟨hb, fun c hc => hframe c (hnext c hc)⟩
      · have hnext := ((mem_pushAll_visited _ rest visited b).mp hb).resolve_left hold
        exact .inl ((mem_pushAll_frontier _ rest visited b).mpr (.inr ⟨hnext, hold⟩))
    obtain ⟨seen, hsub, hclosed⟩ := ih h hstack
    refine ⟨seen, fun b hb => hsub b ?_, hclosed⟩
    exact (mem_pushAll_visited _ rest visited b).mpr (.inl hb)

theorem search_iff (goal : α → Bool) (start : α) :
    e.search goal [start] [start] = true ↔ ∃ b, e.Reaches start b ∧ goal b = true := by
  constructor
  · intro h
    obtain ⟨a, ha, hb⟩ := e.search_sound h
    rwa [List.mem_singleton.mp ha] at hb
  · intro hgoal
    obtain ⟨b, hreaches, hb⟩ := hgoal
    by_contra hfails
    obtain ⟨seen, hsub, hclosed⟩ := e.search_closed (Bool.eq_false_iff.mpr hfails) fun a ha => .inl ha
    have hmem : ∀ c, e.Reaches start c → c ∈ seen := by
      intro c hc
      induction hc with
      | refl => exact hsub start List.mem_cons_self
      | tail _ hnext ih => exact (hclosed _ ih).2 _ hnext
    exact absurd ((hclosed b (hmem b hreaches)).1.symm.trans hb) (by decide)

end Exploration

/-! ### Some of a list in some order -/

section Subperm
variable {β : Type} {r : α → β → Prop}

theorem exists_sublist_forall₂ {l l' : List α} {m : List β} (h : l'.Sublist l) (hr : List.Forall₂ r l m) :
    ∃ m' : List β, m'.Sublist m ∧ List.Forall₂ r l' m' := by
  induction h generalizing m with
  | slnil => exact ⟨[], List.nil_sublist m, .nil⟩
  | cons a _ ih =>
    cases hr with
    | cons _ hrest =>
      obtain ⟨m', hsub, hm'⟩ := ih hrest
      exact ⟨m', hsub.cons _, hm'⟩
  | cons_cons a _ ih =>
    cases hr with
    | cons ha hrest =>
      obtain ⟨m', hsub, hm'⟩ := ih hrest
      exact ⟨_, hsub.cons_cons _, .cons ha hm'⟩

/-- What is chosen from a list can be chosen from one that is related to it element by element. -/
theorem exists_subperm_forall₂ {l l' : List α} {m : List β} (h : l'.Subperm l) (hr : List.Forall₂ r l m) :
    ∃ m' : List β, m'.Subperm m ∧ List.Forall₂ r l' m' := by
  obtain ⟨l'', hperm, hsub⟩ := h
  obtain ⟨m'', hsub', hr''⟩ := exists_sublist_forall₂ hsub hr
  obtain ⟨m', hr', hperm'⟩ := List.perm_comp_forall₂ hperm.symm hr''
  exact ⟨m', ⟨m'', hperm'.symm, hsub'⟩, hr'⟩

/-- To choose some of a list in some order is to choose different positions of it. -/
theorem subperm_iff_exists_positions {l l' : List α} :
    l'.Subperm l ↔ ∃ order : List (Fin l.length), order.Nodup ∧ order.map l.get = l' := by
  constructor
  · intro h
    have hget : List.Forall₂ (fun a i => l.get i = a) l (List.finRange l.length) := by
      rw [List.forall₂_iff_get]
      exact ⟨by simp, fun i h₁ h₂ => by simp⟩
    obtain ⟨order, hsub, horder⟩ := exists_subperm_forall₂ h hget
    obtain ⟨chosen, hperm, hsublist⟩ := hsub
    refine ⟨order, hperm.nodup_iff.mp ((List.nodup_finRange _).sublist hsublist), ?_⟩
    rw [← List.forall₂_eq_eq_eq, List.forall₂_map_left_iff]
    exact horder.flip
  · intro h
    obtain ⟨order, hnodup, rfl⟩ := h
    have hsub : order.Subperm (List.finRange l.length) := hnodup.subperm fun i _ => List.mem_finRange i
    obtain ⟨chosen, hperm, hsublist⟩ := hsub
    refine ⟨chosen.map l.get, hperm.map l.get, ?_⟩
    have hmap := hsublist.map l.get
    rwa [List.map_get_finRange] at hmap

end Subperm

/-! ### The search through choices -/

section Choices
variable {σ : Type} (apply : σ → α → σ) (events : List α)

/-- Deciding on one more event: it is skipped, or it is applied. -/
def successors (node : Nat × σ) : List (Nat × σ) :=
  events.zipIdx.flatMap fun event =>
    let bit := 1 <<< event.2
    if node.1 &&& bit ≠ 0 then []
    else [(node.1 ||| bit, node.2), (node.1 ||| bit, apply node.2 event.1)]

/-- How many events are not decided on. -/
def undecided (mask : Nat) : Nat := events.zipIdx.countP fun event => !mask.testBit event.2

theorem and_bit_ne_zero (mask i : Nat) : mask &&& 1 <<< i ≠ 0 ↔ mask.testBit i = true := by
  rw [Nat.one_shiftLeft, Nat.and_two_pow]
  cases mask.testBit i <;> simp

theorem testBit_or_bit (mask i j : Nat) : (mask ||| 1 <<< i).testBit j = (mask.testBit j || decide (i = j)) := by
  rw [Nat.testBit_or, Nat.one_shiftLeft, Nat.testBit_two_pow]

theorem mem_zipIdx_get (i : Fin events.length) : (events.get i, i.val) ∈ events.zipIdx :=
  List.mem_zipIdx_iff_getElem?.mpr (List.getElem?_eq_getElem i.isLt)

variable {apply events}

theorem mem_successors {node node' : Nat × σ} :
    node' ∈ successors apply events node ↔ ∃ i : Fin events.length, node.1.testBit i = false ∧
      (node' = (node.1 ||| 1 <<< i.val, node.2) ∨ node' = (node.1 ||| 1 <<< i.val, apply node.2 (events.get i))) := by
  unfold successors
  rw [List.mem_flatMap]
  constructor
  · intro h
    obtain ⟨⟨event, i⟩, hmem, hnode⟩ := h
    rw [List.mk_mem_zipIdx_iff_getElem?] at hmem
    obtain ⟨hi, rfl⟩ := List.getElem?_eq_some_iff.mp hmem
    refine ⟨⟨i, hi⟩, ?_⟩
    dsimp only at hnode
    split at hnode
    · cases hnode
    · rename_i hbit
      rw [and_bit_ne_zero, Bool.not_eq_true] at hbit
      refine ⟨hbit, ?_⟩
      simpa using hnode
  · intro h
    obtain ⟨i, hbit, hnode⟩ := h
    refine ⟨(events.get i, i), mem_zipIdx_get events i, ?_⟩
    have hclear : ¬(node.1 &&& 1 <<< i.val ≠ 0) := by
      rw [and_bit_ne_zero, hbit]
      decide
    dsimp only
    rw [if_neg hclear]
    simpa using hnode

theorem length_successors_le (node : Nat × σ) : (successors apply events node).length ≤ 2 * events.length := by
  unfold successors
  rw [List.length_flatMap]
  have hle := List.sum_le_card_nsmul (events.zipIdx.map fun event =>
    (if node.1 &&& 1 <<< event.2 ≠ 0 then []
      else [(node.1 ||| 1 <<< event.2, node.2), (node.1 ||| 1 <<< event.2, apply node.2 event.1)]).length) 2 fun n hn => ?_
  · rwa [List.length_map, List.length_zipIdx, Nat.nsmul_eq_mul, Nat.mul_comm] at hle
  · obtain ⟨event, -, rfl⟩ := List.mem_map.mp hn
    split <;> simp

theorem undecided_lt {mask : Nat} {i : Fin events.length} (hmask : mask.testBit i = false) :
    undecided events (mask ||| 1 <<< i.val) < undecided events mask := by
  have hfewer : ∀ event : α × Nat, (!(mask ||| 1 <<< i.val).testBit event.2) = true → (!mask.testBit event.2) = true := by
    intro event h
    rw [testBit_or_bit, Bool.not_or, Bool.and_eq_true] at h
    exact h.1
  unfold undecided
  obtain ⟨before, after, hsplit⟩ := List.append_of_mem (mem_zipIdx_get events i)
  have hbefore := List.countP_mono_left (l := before) fun event _ => hfewer event
  have hafter := List.countP_mono_left (l := after) fun event _ => hfewer event
  rw [hsplit, List.countP_append, List.countP_append, List.countP_cons_of_neg, List.countP_cons_of_pos]
  · omega
  · rw [hmask]
    rfl
  · rw [testBit_or_bit, decide_eq_true rfl, Bool.or_true]
    decide

variable (apply events)

def choices : Exploration (Nat × σ) :=
  .ofRemaining (successors apply events) (fun node => undecided events node.1) (2 * events.length)
    length_successors_le fun node node' h => by
      obtain ⟨i, hbit, rfl | rfl⟩ := mem_successors.mp h
      · exact undecided_lt hbit
      · exact undecided_lt hbit

variable {apply events}

/-- Every state met is the outcome of events that have been decided on, in some order. -/
theorem exists_order_of_reaches {start : σ} {node : Nat × σ} (h : (choices apply events).Reaches (0, start) node) :
    ∃ order : List (Fin events.length), order.Nodup ∧ (∀ i ∈ order, node.1.testBit i = true) ∧
      (order.map events.get).foldl apply start = node.2 := by
  induction h with
  | refl => exact ⟨[], List.nodup_nil, fun i hi => absurd hi List.not_mem_nil, rfl⟩
  | tail _ hnext ih =>
    obtain ⟨order, hnodup, hbits, houtcome⟩ := ih
    obtain ⟨i, hbit, rfl | rfl⟩ := mem_successors.mp hnext
    · refine ⟨order, hnodup, fun j hj => ?_, houtcome⟩
      rw [testBit_or_bit, hbits j hj, Bool.true_or]
    · refine ⟨order ++ [i], ?_, fun j hj => ?_, ?_⟩
      · refine List.nodup_append.mpr ⟨hnodup, List.nodup_singleton i, fun j hj k hk => ?_⟩
        rw [List.mem_singleton.mp hk]
        intro heq
        rw [← heq, hbits j hj] at hbit
        cases hbit
      · rw [testBit_or_bit]
        obtain hj | hj := List.mem_append.mp hj
        · rw [hbits j hj, Bool.true_or]
        · rw [List.mem_singleton.mp hj, decide_eq_true rfl, Bool.or_true]
      · rw [List.map_append, List.foldl_append, houtcome]
        rfl

/-- Events that are not decided on can be decided on one after the other: those of `order` are applied, or else all
of them are skipped. -/
theorem reaches_decided (apply' : σ → Fin events.length → σ)
    (happly : (∀ state i, apply' state i = state) ∨ ∀ state i, apply' state i = apply state (events.get i))
    {order : List (Fin events.length)} (hnodup : order.Nodup) (mask : Nat) (state : σ)
    (hbits : ∀ i ∈ order, mask.testBit i = false) :
    ∃ mask', (∀ j, mask'.testBit j = (mask.testBit j || decide (j ∈ order.map Fin.val))) ∧
      (choices apply events).Reaches (mask, state) (mask', order.foldl apply' state) := by
  induction order generalizing mask state with
  | nil => exact ⟨mask, fun j => by simp, .refl⟩
  | cons i rest ih =>
    obtain ⟨hi, hrest⟩ := List.nodup_cons.mp hnodup
    have hnext : (mask ||| 1 <<< i.val, apply' state i) ∈ (choices apply events).next (mask, state) := by
      refine mem_successors.mpr ⟨i, hbits i List.mem_cons_self, ?_⟩
      obtain hskip | happly := happly
      · exact .inl (by rw [hskip])
      · exact .inr (by rw [happly])
    obtain ⟨mask', hmask', hreaches⟩ := ih hrest (mask ||| 1 <<< i.val) (apply' state i) fun j hj => by
      have hne : i.val ≠ j.val := fun heq => hi (Fin.ext heq ▸ hj)
      rw [testBit_or_bit, hbits j (List.mem_cons_of_mem i hj), decide_eq_false hne, Bool.or_false]
    refine ⟨mask', fun j => ?_, .head hnext hreaches⟩
    rw [hmask' j, testBit_or_bit, List.map_cons, Bool.or_assoc]
    congr 1
    by_cases hij : i.val = j
    · simp [hij]
    · simp [hij, Ne.symm hij]

/-- The search ends at exactly the outcomes of some of the events, in some order. -/
theorem exists_reaches_full (start target : σ) :
    (choices apply events).Reaches (0, start) (2 ^ events.length - 1, target) ↔
      ∃ order : List α, order.Subperm events ∧ order.foldl apply start = target := by
  constructor
  · intro h
    obtain ⟨order, hnodup, -, houtcome⟩ := exists_order_of_reaches h
    exact ⟨order.map events.get, subperm_iff_exists_positions.mpr ⟨order, hnodup, rfl⟩, houtcome⟩
  · intro h
    obtain ⟨chosen, hsub, rfl⟩ := h
    obtain ⟨order, hnodup, rfl⟩ := subperm_iff_exists_positions.mp hsub
    obtain ⟨mask, hmask, hreaches⟩ := reaches_decided (fun state i => apply state (events.get i))
      (.inr fun _ _ => rfl) hnodup 0 start fun i _ => Nat.zero_testBit i
    -- What is left is skipped.
    have hleft : ((List.finRange events.length).filter fun i => decide (i ∉ order)).Nodup :=
      (List.nodup_finRange _).filter _
    obtain ⟨full, hfull, hskips⟩ := reaches_decided (fun state _ => state) (.inl fun _ _ => rfl) hleft
      mask (order.foldl (fun state i => apply state (events.get i)) start) fun i hi => by
        rw [hmask i, Nat.zero_testBit, Bool.false_or, decide_eq_false_iff_not, List.mem_map_of_injective Fin.val_injective]
        simpa using hi
    have hall : full = 2 ^ events.length - 1 := by
      refine Nat.eq_of_testBit_eq fun j => ?_
      rw [hfull j, hmask j, Nat.zero_testBit, Nat.testBit_two_pow_sub_one, Bool.false_or]
      by_cases hj : j < events.length
      · by_cases hchosen : (⟨j, hj⟩ : Fin events.length) ∈ order
        · simp [hj, List.mem_map, Fin.exists_iff, hchosen]
        · simp [hj, List.mem_map, Fin.exists_iff, hchosen]
      · simp [hj, List.mem_map, Fin.exists_iff]
    rw [List.foldl_map, ← hall]
    rw [List.foldl_fixed] at hskips
    exact hreaches.trans hskips

/-- The search for `target` with all decided. -/
theorem search_choices_iff [DecidableEq σ] (start target : σ) :
    (choices apply events).search (fun node => node.1 = 2 ^ events.length - 1 ∧ node.2 = target) [(0, start)] [(0, start)] =
      true ↔ ∃ order : List α, order.Subperm events ∧ order.foldl apply start = target := by
  rw [Exploration.search_iff, ← exists_reaches_full]
  constructor
  · intro h
    obtain ⟨node, hreaches, hgoal⟩ := h
    obtain ⟨hmask, rfl⟩ := of_decide_eq_true hgoal
    rwa [← hmask]
  · intro h
    exact ⟨_, h, decide_eq_true ⟨rfl, rfl⟩⟩

end Choices

end Dodb.Lib
