import Dodb.Lib.PageProg

/-! Page programs that go the same way.

Two programs are alike when they read and write the same pages and see the same state, whatever they are given, up
to where they end. There they may differ in what they answer and in what they complain about, and the first may stop
earlier. So whatever runs the pages, the two runs are the same up to there as well. -/
namespace Dodb.Lib.PageProg

variable {ι π σ ε τ α β γ δ : Type}

/-- Every value the program can end with has `P`. -/
def Ends (P : α → Prop) : PageProg ι π σ ε α → Prop
  | done a => P a
  | fail _ => True
  | read _ next => ∀ p, Ends P (next p)
  | write _ _ next => Ends P next
  | get next => ∀ s, Ends P (next s)
  | put _ next => Ends P next

theorem Ends.bind {P : α → Prop} {Q : β → Prop} {m : PageProg ι π σ ε α} {f : α → PageProg ι π σ ε β} (hm : Ends P m)
    (hf : ∀ a, P a → Ends Q (f a)) : Ends Q (m >>= f) := by
  show Ends Q (m.bind f)
  induction m with
  | done a => exact hf a hm
  | fail e => exact True.intro
  | read i next ih => exact fun p => ih p (hm p)
  | get next ih => exact fun s => ih s (hm s)
  | write i p next ih | put x next ih => exact ih hm

theorem ends_true (m : PageProg ι π σ ε α) : Ends (fun _ => True) m := by
  induction m with
  | done | fail => exact True.intro
  | read i next ih | write i p next ih | get next ih | put x next ih => exact ih

/-- A check that is passed holds. -/
theorem Ends.check_bind {P : α → Prop} {c : Prop} [Decidable c] {e : ε} {f : Unit → PageProg ι π σ ε α}
    (hf : c → Ends P (f ())) : Ends P (check c e >>= f) := by
  by_cases hc : c
  · rw [check, ensure_pos hc]
    exact hf hc
  · rw [check, ensure_neg hc]
    exact True.intro

/-- Whatever runs the program. -/
theorem Ends.run {P : α → Prop} {m : PageProg ι π σ ε α} (h : Ends P m) {handler : Handler ι π σ ε τ} {t t' : τ} {a : α}
    (hrun : m.run handler t = .ok a t') : P a := by
  induction m generalizing t with
  | done b =>
    cases hrun
    exact h
  | fail e => cases hrun
  | read i next ih =>
    obtain ⟨p, t₁, -, hnext⟩ := Io.bind_eq_ok.mp hrun
    exact ih p (h p) hnext
  | get next ih =>
    obtain ⟨s, t₁, -, hnext⟩ := Io.bind_eq_ok.mp hrun
    exact ih s (h s) hnext
  | write i p next ih | put x next ih =>
    obtain ⟨_, t₁, -, hnext⟩ := Io.bind_eq_ok.mp hrun
    exact ih h hnext

/-- The first program goes as the second does, until they end with values that `R` relates or errors that `E`
relates, or until the first one stops with an error that has `K`. -/
inductive Alike (K : ε → Prop) (E : ε → ε → Prop) (R : α → β → Prop) :
    PageProg ι π σ ε α → PageProg ι π σ ε β → Prop where
  | done {a b} (h : R a b) : Alike K E R (done a) (done b)
  | fail {e e'} (h : E e e') : Alike K E R (fail e) (fail e')
  | cut {e q} (h : K e) : Alike K E R (fail e) q
  | read {i k l} (h : ∀ p, Alike K E R (k p) (l p)) : Alike K E R (read i k) (read i l)
  | write {i p k l} (h : Alike K E R k l) : Alike K E R (write i p k) (write i p l)
  | get {k l} (h : ∀ s, Alike K E R (k s) (l s)) : Alike K E R (get k) (get l)
  | put {s k l} (h : Alike K E R k l) : Alike K E R (put s k) (put s l)

namespace Alike
variable {K : ε → Prop} {E : ε → ε → Prop} {R : α → β → Prop} {S : γ → δ → Prop}

theorem bind {m : PageProg ι π σ ε α} {n : PageProg ι π σ ε β} {f : α → PageProg ι π σ ε γ}
    {g : β → PageProg ι π σ ε δ} (hm : Alike K E R m n) (hf : ∀ a b, R a b → Alike K E S (f a) (g b)) :
    Alike K E S (m >>= f) (n >>= g) := by
  show Alike K E S (m.bind f) (n.bind g)
  induction hm with
  | done h => exact hf _ _ h
  | fail h => exact .fail h
  | cut h => exact .cut h
  | read _ ih => exact .read ih
  | write _ ih => exact .write ih
  | get _ ih => exact .get ih
  | put _ ih => exact .put ih

theorem mono {R' : α → β → Prop} {m : PageProg ι π σ ε α} {n : PageProg ι π σ ε β} (h : Alike K E R m n)
    (hR : ∀ a b, R a b → R' a b) : Alike K E R' m n := by
  induction h with
  | done h => exact .done (hR _ _ h)
  | fail h => exact .fail h
  | cut h => exact .cut h
  | read _ ih => exact .read ih
  | write _ ih => exact .write ih
  | get _ ih => exact .get ih
  | put _ ih => exact .put ih

/-- A program is like itself. -/
theorem same (hE : ∀ e, E e e) {P : α → Prop} {m : PageProg ι π σ ε α} (h : Ends P m) :
    Alike K E (fun a b => a = b ∧ P a) m m := by
  induction m with
  | done a => exact .done ⟨rfl, h⟩
  | fail e => exact .fail (hE e)
  | read i next ih => exact .read fun p => ih p (h p)
  | write i p next ih => exact .write (ih h)
  | get next ih => exact .get fun s => ih s (h s)
  | put x next ih => exact .put (ih h)

theorem refl (hE : ∀ e, E e e) (m : PageProg ι π σ ε α) : Alike K E Eq m m :=
  (same hE (ends_true m)).mono fun _ _ h => h.1

theorem ofExcept {x : Except ε α} {y : Except ε β} (hok : ∀ a, x = .ok a → ∃ b, y = .ok b ∧ R a b)
    (herror : ∀ e, x = .error e → K e ∨ ∃ e', y = .error e' ∧ E e e') :
    Alike K E R (ofExcept x : PageProg ι π σ ε α) (ofExcept y : PageProg ι π σ ε β) := by
  cases x with
  | ok a =>
    obtain ⟨b, rfl, h⟩ := hok a rfl
    exact .done h
  | error e =>
    cases herror e rfl with
    | inl h => exact .cut h
    | inr h =>
      obtain ⟨e', rfl, h⟩ := h
      exact .fail h

/-- Two tests of the same condition. -/
theorem check {c d : Prop} [Decidable c] [Decidable d] {e e' : ε} (hcd : c ↔ d) (he : E e e') :
    Alike K E Eq (check c e : PageProg ι π σ ε Unit) (check d e' : PageProg ι π σ ε Unit) := by
  unfold PageProg.check
  by_cases hc : c
  · rw [ensure_pos hc, ensure_pos (hcd.mp hc)]
    exact .done rfl
  · rw [ensure_neg hc, ensure_neg fun hd => hc (hcd.mpr hd)]
    exact .fail he

variable {m : PageProg ι π σ ε α} {n : PageProg ι π σ ε β}

/-- How the runs of two programs that are alike end. -/
theorem run (h : Alike K E R m n) (hE : ∀ e, E e e) (handler : Handler ι π σ ε τ) (t : τ) :
    match m.run handler t with
    | .ok a t' => ∃ b, n.run handler t = .ok b t' ∧ R a b
    | .err e t' => K e ∨ ∃ e', n.run handler t = .err e' t' ∧ E e e'
    | .halt t' => n.run handler t = .halt t' := by
  induction h generalizing t with
  | done h => exact ⟨_, rfl, h⟩
  | fail h => exact .inr ⟨_, rfl, h⟩
  | cut h => exact .inl h
  | @read i k l _ ih =>
    unfold PageProg.run
    rw [Io.bind_apply, Io.bind_apply]
    cases handler.read i t with
    | ok p t' => exact ih p t'
    | err e t' => exact .inr ⟨e, rfl, hE e⟩
    | halt t' => rfl
  | @write i p k l _ ih =>
    unfold PageProg.run
    rw [Io.bind_apply, Io.bind_apply]
    cases handler.write i p t with
    | ok _ t' => exact ih t'
    | err e t' => exact .inr ⟨e, rfl, hE e⟩
    | halt t' => rfl
  | @get k l _ ih =>
    unfold PageProg.run
    rw [Io.bind_apply, Io.bind_apply]
    cases handler.get t with
    | ok s t' => exact ih s t'
    | err e t' => exact .inr ⟨e, rfl, hE e⟩
    | halt t' => rfl
  | @put s k l _ ih =>
    unfold PageProg.run
    rw [Io.bind_apply, Io.bind_apply]
    cases handler.put s t with
    | ok _ t' => exact ih t'
    | err e t' => exact .inr ⟨e, rfl, hE e⟩
    | halt t' => rfl

theorem run_ok (h : Alike K E R m n) (hE : ∀ e, E e e) {handler : Handler ι π σ ε τ} {t t' : τ} {a : α}
    (hm : m.run handler t = .ok a t') : ∃ b, n.run handler t = .ok b t' ∧ R a b := by
  have := h.run hE handler t
  rwa [hm] at this

theorem run_err (h : Alike K E R m n) (hE : ∀ e, E e e) {handler : Handler ι π σ ε τ} {t t' : τ} {e : ε}
    (hm : m.run handler t = .err e t') : K e ∨ ∃ e', n.run handler t = .err e' t' ∧ E e e' := by
  have := h.run hE handler t
  rwa [hm] at this

/-- Where the second program succeeds, the first does too or has stopped. -/
theorem run_ok_of (h : Alike K E R m n) (hE : ∀ e, E e e) {handler : Handler ι π σ ε τ} {t t' : τ} {b : β}
    (hn : n.run handler t = .ok b t') :
    (∃ a, m.run handler t = .ok a t' ∧ R a b) ∨ ∃ e t'', m.run handler t = .err e t'' ∧ K e := by
  have hrun := h.run hE handler t
  rw [hn] at hrun
  cases hm : m.run handler t with
  | ok a t'' =>
    rw [hm] at hrun
    obtain ⟨b', heq, hR⟩ := hrun
    cases heq
    exact .inl ⟨a, rfl, hR⟩
  | err e t'' =>
    rw [hm] at hrun
    cases hrun with
    | inl hK => exact .inr ⟨e, t'', rfl, hK⟩
    | inr hE =>
      obtain ⟨e', heq, -⟩ := hE
      cases heq
  | halt t'' =>
    rw [hm] at hrun
    cases hrun

end Alike

end Dodb.Lib.PageProg
