import Mathlib

/-! Programs over a state that can fail and can be stopped.

A program ends in one of three ways: with a value, with an error (the state
reached so far is kept, as when a method returns `Err` after changing its
receiver), or *halted* where it stood, as when the process dies. Errors can be
caught; a halt cannot.

`Io.Spec P m Q E H` says what holds at each of the three ends when `m` starts in
a state with `P`. The rules below take a program apart along its own structure,
so that what must hold at every point where it can be stopped is stated once, as
`H`, and discharged operation by operation. -/
namespace Dodb.Lib

/-! ### Checks that can only fail -/

section Except
variable {ε α β : Type} {f : α → Except ε β}

/-- Passes when `c` holds, and is the error `e` when it does not. -/
def ensure (c : Prop) [Decidable c] (e : ε) : Except ε Unit := if c then .ok () else .error e

@[simp] theorem ensure_eq_ok {c : Prop} [Decidable c] {e : ε} {u : Unit} : ensure c e = .ok u ↔ c := by
  unfold ensure
  split <;> simp [*]

theorem ensure_pos {c : Prop} [Decidable c] (h : c) (e : ε) : ensure c e = .ok () := if_pos h

theorem ensure_neg {c : Prop} [Decidable c] (h : ¬c) (e : ε) : ensure c e = .error e := if_neg h

theorem ensure_eq_error {c : Prop} [Decidable c] {e e' : ε} : ensure c e = .error e' ↔ ¬c ∧ e = e' := by
  unfold ensure
  split <;> simp [*]

theorem except_ok_bind (a : α) (f : α → Except ε β) : (.ok a >>= f : Except ε β) = f a := rfl

theorem except_bind_eq_ok {x : Except ε α} {b : β} : x >>= f = .ok b ↔ ∃ a, x = .ok a ∧ f a = .ok b := by
  cases x with
  | error | ok => simp [bind, Except.bind]

theorem except_bind_eq_error {x : Except ε α} {e : ε} :
    x >>= f = .error e ↔ x = .error e ∨ ∃ a, x = .ok a ∧ f a = .error e := by
  cases x with
  | error | ok => simp [bind, Except.bind]

theorem except_pure_eq_ok {a b : α} : (pure a : Except ε α) = .ok b ↔ a = b :=
  ⟨fun h => Except.ok.inj h, fun h => congrArg Except.ok h⟩

/-- What going through a list comes to: one answer for each element. -/
theorem except_mapM_forall₂ {l : List α} {r : List β} (h : l.mapM f = .ok r) :
    List.Forall₂ (fun a b => f a = .ok b) l r := by
  induction l generalizing r with
  | nil =>
    cases h
    exact .nil
  | cons a rest ih =>
    rw [List.mapM_cons, except_bind_eq_ok] at h
    obtain ⟨b, hb, h⟩ := h
    obtain ⟨bs, hbs, heq⟩ := except_bind_eq_ok.mp h
    cases heq
    exact .cons hb (ih hbs)

theorem exists_mem_of_forall₂ {r : α → β → Prop} {l : List α} {m : List β} (h : List.Forall₂ r l m) {a : α} (ha : a ∈ l) :
    ∃ b ∈ m, r a b := by
  induction h with
  | nil => cases ha
  | cons hr _ ih =>
    obtain rfl | hrest := List.mem_cons.mp ha
    · exact ⟨_, List.mem_cons_self, hr⟩
    · obtain ⟨b, hb, hab⟩ := ih hrest
      exact ⟨b, List.mem_cons_of_mem _ hb, hab⟩

theorem except_mapM_eq_ok {l : List α} {r : List β} (h : l.mapM f = .ok r) :
    r.length = l.length ∧ ∀ b ∈ r, ∃ a ∈ l, f a = .ok b := by
  have hanswers := except_mapM_forall₂ h
  exact ⟨hanswers.length_eq.symm, fun b hb => exists_mem_of_forall₂ hanswers.flip hb⟩

end Except

/-! ### Programs -/

/-- A run returns, fails, or stops where the process did. -/
inductive Outcome (σ ε α : Type) where
  | ok (value : α) (state : σ)
  | err (error : ε) (state : σ)
  | halt (state : σ)

def Outcome.state {σ ε α : Type} : Outcome σ ε α → σ
  | .ok _ s => s
  | .err _ s => s
  | .halt s => s

/-- A program on the state `σ`. -/
def Io (σ ε α : Type) : Type := σ → Outcome σ ε α

namespace Io

variable {σ ε α β : Type} {f : α → Io σ ε β} {m : Io σ ε α}

protected def pure (a : α) : Io σ ε α := fun s => .ok a s

protected def bind (m : Io σ ε α) (f : α → Io σ ε β) : Io σ ε β := fun s =>
  match m s with
  | .ok a s' => f a s'
  | .err e s' => .err e s'
  | .halt s' => .halt s'

instance : Monad (Io σ ε) where
  pure := Io.pure
  bind := Io.bind

instance : LawfulMonad (Io σ ε) := LawfulMonad.mk' (Io σ ε)
  (fun m => by
    funext s
    show Io.bind m (fun a => Io.pure (id a)) s = m s
    unfold Io.bind
    cases m s <;> rfl)
  (fun _ _ => rfl)
  (fun m f g => by
    funext s
    show Io.bind (Io.bind m f) g s = Io.bind m (fun a => Io.bind (f a) g) s
    unfold Io.bind
    cases m s <;> rfl)

instance : MonadStateOf σ (Io σ ε) where
  get := fun s => .ok s s
  set s := fun _ => .ok ⟨⟩ s
  modifyGet f := fun s => .ok (f s).1 (f s).2

def raise (e : ε) : Io σ ε α := fun s => .err e s

/-- Runs `m` and hands back its error as a value. -/
def attempt (m : Io σ ε α) : Io σ ε (Except ε α) := fun s =>
  match m s with
  | .ok a s' => .ok (.ok a) s'
  | .err e s' => .ok (.error e) s'
  | .halt s' => .halt s'

/-- Changes the error `m` ends with. -/
def mapError (f : ε → ε) (m : Io σ ε α) : Io σ ε α := fun s =>
  match m s with
  | .ok a s' => .ok a s'
  | .err e s' => .err (f e) s'
  | .halt s' => .halt s'

def ofExcept : Except ε α → Io σ ε α
  | .ok a => Io.pure a
  | .error e => raise e

@[simp] theorem pure_apply (a : α) (s : σ) : (pure a : Io σ ε α) s = .ok a s := rfl

@[simp] theorem ofExcept_ok (a : α) : (ofExcept (.ok a) : Io σ ε α) = pure a := rfl

@[simp] theorem ofExcept_error (e : ε) : (ofExcept (.error e) : Io σ ε α) = raise e := rfl

theorem bind_apply (m : Io σ ε α) (f : α → Io σ ε β) (s : σ) :
    (m >>= f) s = match m s with
      | .ok a s' => f a s'
      | .err e s' => .err e s'
      | .halt s' => .halt s' := rfl

@[simp] theorem get_apply (s : σ) : (get : Io σ ε σ) s = .ok s s := rfl

@[simp] theorem set_apply (s t : σ) : (set t : Io σ ε PUnit) s = .ok ⟨⟩ t := rfl

@[simp] theorem modify_apply (f : σ → σ) (s : σ) : (modify f : Io σ ε PUnit) s = .ok ⟨⟩ (f s) := rfl

@[simp] theorem raise_apply (e : ε) (s : σ) : (raise e : Io σ ε α) s = .err e s := rfl

/-! ### Taking a run that succeeds apart -/

/-- Two branches that go on in the same way. -/
theorem ite_bind {c : Prop} [Decidable c] {a b : Io σ ε α} :
    (if c then a >>= f else b >>= f) = (if c then a else b) >>= f := by
  by_cases h : c
  · rw [if_pos h, if_pos h]
  · rw [if_neg h, if_neg h]

theorem bind_eq_ok {s s' : σ} {b : β} :
    (m >>= f) s = .ok b s' ↔ ∃ a t, m s = .ok a t ∧ f a t = .ok b s' := by
  rw [bind_apply]
  cases m s <;> simp

theorem ofExcept_eq_ok {x : Except ε α} {s s' : σ} {a : α} :
    (ofExcept x : Io σ ε α) s = .ok a s' ↔ x = .ok a ∧ s' = s := by
  cases x with
  | ok b =>
    show Outcome.ok b s = _ ↔ _
    simp [eq_comm]
  | error e =>
    show Outcome.err e s = _ ↔ _
    simp

theorem attempt_eq_ok {s s' : σ} {r : Except ε α} :
    attempt m s = .ok r s' ↔ (∃ a, r = .ok a ∧ m s = .ok a s') ∨ ∃ e, r = .error e ∧ m s = .err e s' := by
  unfold attempt
  cases m s <;> simp [eq_comm]

theorem mapError_eq_ok {g : ε → ε} {s s' : σ} {a : α} : mapError g m s = .ok a s' ↔ m s = .ok a s' := by
  unfold mapError
  cases m s <;> simp

/-! ### What holds at the end -/

/-- From a state with `P` the program returns with `Q`, fails with `E` or halts with `H`. -/
def Spec (P : σ → Prop) (m : Io σ ε α) (Q : α → σ → Prop) (E : ε → σ → Prop) (H : σ → Prop) : Prop :=
  ∀ s, P s → match m s with
    | .ok a s' => Q a s'
    | .err e s' => E e s'
    | .halt s' => H s'

section Rules
variable {P P' : σ → Prop} {Q Q' : α → σ → Prop} {E E' : ε → σ → Prop} {H H' : σ → Prop} {m : Io σ ε α}

theorem Spec.conseq (h : Spec P m Q E H) (hP : ∀ s, P' s → P s) (hQ : ∀ a s, Q a s → Q' a s)
    (hE : ∀ e s, E e s → E' e s) (hH : ∀ s, H s → H' s) : Spec P' m Q' E' H' := by
  intro s hs
  have := h s (hP s hs)
  cases hm : m s with
  | ok a s' =>
    rw [hm] at this
    exact hQ a s' this
  | err e s' =>
    rw [hm] at this
    exact hE e s' this
  | halt s' =>
    rw [hm] at this
    exact hH s' this

theorem Spec.pre (h : Spec P m Q E H) (hP : ∀ s, P' s → P s) : Spec P' m Q E H :=
  fun s hs => h s (hP s hs)

theorem Spec.post (h : Spec P m Q E H) (hQ : ∀ a s, Q a s → Q' a s) : Spec P m Q' E H :=
  h.conseq (fun _ h => h) hQ (fun _ _ h => h) (fun _ h => h)

/-- A precondition that is a fact about the start can be assumed. -/
theorem Spec.of_start (h : ∀ s, P s → Spec (fun t => t = s) m Q E H) : Spec P m Q E H :=
  fun s hs => h s hs s rfl

theorem Spec.assume {c : Prop} (h : c → Spec P m Q E H) : Spec (fun s => c ∧ P s) m Q E H :=
  fun s hs => h hs.1 s hs.2

theorem Spec.and (h : Spec P m Q E H) (h' : Spec P' m Q' E' H') :
    Spec (fun s => P s ∧ P' s) m (fun a s => Q a s ∧ Q' a s) (fun e s => E e s ∧ E' e s) fun s => H s ∧ H' s := by
  intro s hs
  have hend := h s hs.1
  have hend' := h' s hs.2
  cases hm : m s with
  | ok | err | halt =>
    rw [hm] at hend hend'
    exact ⟨hend, hend'⟩

theorem Spec.of_ok (h : Spec P m Q E H) {s s' : σ} {a : α} (hs : P s) (hm : m s = .ok a s') : Q a s' := by
  have := h s hs
  rwa [hm] at this

theorem Spec.pure {a : α} (h : ∀ s, P s → Q a s) : Spec P (Pure.pure a : Io σ ε α) Q E H :=
  fun s hs => h s hs

theorem Spec.raise {e : ε} (h : ∀ s, P s → E e s) : Spec P (Io.raise e : Io σ ε α) Q E H :=
  fun s hs => h s hs

theorem Spec.bind {f : α → Io σ ε β} {R : β → σ → Prop} (hm : Spec P m Q E H)
    (hf : ∀ a, Spec (Q a) (f a) R E H) : Spec P (m >>= f) R E H := by
  intro s hs
  have := hm s hs
  rw [bind_apply]
  cases h : m s with
  | ok a s' =>
    rw [h] at this
    exact hf a s' this
  | err | halt =>
    rw [h] at this
    exact this

theorem Spec.mapError {g : ε → ε} (h : Spec P m Q (fun e => E (g e)) H) : Spec P (mapError g m) Q E H := by
  intro s hs
  have := h s hs
  unfold Io.mapError
  cases hm : m s <;> rw [hm] at this <;> exact this

theorem Spec.ofExcept {x : Except ε α} (hok : ∀ a s, x = .ok a → P s → Q a s)
    (herr : ∀ e s, x = .error e → P s → E e s) : Spec P (ofExcept x : Io σ ε α) Q E H := by
  intro s hs
  cases x with
  | ok a => exact hok a s rfl hs
  | error e => exact herr e s rfl hs

theorem Spec.ite {c : Prop} [Decidable c] {n : Io σ ε α} (ht : c → Spec P m Q E H)
    (hf : ¬c → Spec P n Q E H) : Spec P (if c then m else n) Q E H := by
  split
  · exact ht ‹_›
  · exact hf ‹_›

end Rules

/-! ### Programs that do not fail -/

def NeverFails (m : Io σ ε α) : Prop := ∀ s e s', m s ≠ .err e s'

theorem NeverFails.pure (a : α) : NeverFails (Pure.pure a : Io σ ε α) := nofun

theorem NeverFails.attempt (m : Io σ ε α) : NeverFails (attempt m) := by
  intro s e s'
  unfold Io.attempt
  cases m s <;> nofun

theorem NeverFails.bind (hm : NeverFails m) (hf : ∀ a, NeverFails (f a)) : NeverFails (m >>= f) := by
  intro s e s'
  rw [bind_apply]
  cases hs : m s with
  | ok a s₁ => exact hf a s₁ e s'
  | err e₁ s₁ => exact absurd hs (hm s e₁ s₁)
  | halt s₁ => nofun

/-! ### What a program keeps -/

/-- However `m` ends, `I` holds where it held before. -/
def Keeps (I : σ → Prop) (m : Io σ ε α) : Prop := ∀ s, I s → I (m s).state

section Keeps
variable {I : σ → Prop}

theorem Keeps.pure (a : α) : Keeps I (Pure.pure a : Io σ ε α) := fun _ h => h

theorem Keeps.raise (e : ε) : Keeps I (Io.raise e : Io σ ε α) := fun _ h => h

theorem Keeps.ofExcept (x : Except ε α) : Keeps I (ofExcept x : Io σ ε α) := by
  intro s h
  cases x <;> exact h

theorem Keeps.bind {m : Io σ ε α} {f : α → Io σ ε β} (hm : Keeps I m) (hf : ∀ a, Keeps I (f a)) :
    Keeps I (m >>= f) := by
  intro s h
  have := hm s h
  rw [bind_apply]
  cases hs : m s with
  | ok a s' =>
    rw [hs] at this
    exact hf a s' this
  | err | halt =>
    rw [hs] at this
    exact this

theorem Keeps.ite {c : Prop} [Decidable c] {m n : Io σ ε α} (hm : Keeps I m) (hn : Keeps I n) :
    Keeps I (if c then m else n) := by
  by_cases hc : c
  · rwa [if_pos hc]
  · rwa [if_neg hc]

end Keeps

end Io

end Dodb.Lib
