import Dodb.Lib.SortedMap
import Dodb.Lib.Io

/-! Programs over pages, apart from where the pages come from.

An algorithm on pages reads pages, writes pages, and keeps a little state of its
own (`σ`: an allocator, counters). `PageProg` is such an algorithm as a tree of
those operations; a `Handler` says what they do on a concrete state. Two handlers
matter: the real one, which may read through a cache or a file and may fail, and
the plain one on a `Stage` — a function from page numbers to pages, the set of
pages written, and `σ` — on which the algorithm is proved correct. `run_sim`
carries the second to the first, once for all algorithms. -/
namespace Dodb.Lib

/-- A program that reads and writes pages and has a state of its own. -/
inductive PageProg (ι π σ ε α : Type) : Type where
  | done (value : α)
  | fail (error : ε)
  | read (i : ι) (next : π → PageProg ι π σ ε α)
  | write (i : ι) (p : π) (next : PageProg ι π σ ε α)
  | get (next : σ → PageProg ι π σ ε α)
  | put (s : σ) (next : PageProg ι π σ ε α)

namespace PageProg

variable {ι π σ ε τ α β : Type} {m : PageProg ι π σ ε α} {f : α → PageProg ι π σ ε β} {P : ι → Prop}

protected def bind : PageProg ι π σ ε α → (α → PageProg ι π σ ε β) → PageProg ι π σ ε β
  | done a, f => f a
  | fail e, _ => fail e
  | read i next, f => read i fun p => (next p).bind f
  | write i p next, f => write i p (next.bind f)
  | get next, f => get fun s => (next s).bind f
  | put s next, f => put s (next.bind f)

instance : Monad (PageProg ι π σ ε) where
  pure := done
  bind := PageProg.bind

instance : LawfulMonad (PageProg ι π σ ε) := LawfulMonad.mk' (PageProg ι π σ ε)
  (fun m => by
    show m.bind (fun a => done (id a)) = m
    induction m with
    | done | fail => rfl
    | read i next ih => exact congrArg (read i) (funext ih)
    | write i p next ih => exact congrArg (write i p) ih
    | get next ih => exact congrArg get (funext ih)
    | put s next ih => exact congrArg (put s) ih)
  (fun _ _ => rfl)
  (fun m f g => by
    show (m.bind f).bind g = m.bind fun a => (f a).bind g
    induction m with
    | done | fail => rfl
    | read i next ih => exact congrArg (read i) (funext ih)
    | write i p next ih => exact congrArg (write i p) ih
    | get next ih => exact congrArg get (funext ih)
    | put s next ih => exact congrArg (put s) ih)

instance : MonadStateOf σ (PageProg ι π σ ε) where
  get := get done
  set s := put s (done ⟨⟩)
  modifyGet f := get fun s => put (f s).2 (done (f s).1)

def readPage (i : ι) : PageProg ι π σ ε π := read i done

def writePage (i : ι) (p : π) : PageProg ι π σ ε PUnit := write i p (done ⟨⟩)

def raise (e : ε) : PageProg ι π σ ε α := fail e

def ofExcept : Except ε α → PageProg ι π σ ε α
  | .ok a => done a
  | .error e => fail e

/-- Goes on when `c` holds, and fails with `e` when it does not. -/
def check (c : Prop) [Decidable c] (e : ε) : PageProg ι π σ ε Unit := ofExcept (ensure c e)

/-! ### Handlers -/

/-- What the operations of a program do on a concrete state. -/
structure Handler (ι π σ ε τ : Type) where
  read : ι → Io τ ε π
  write : ι → π → Io τ ε PUnit
  get : Io τ ε σ
  put : σ → Io τ ε PUnit

/-- Runs a program with a handler. -/
def run (h : Handler ι π σ ε τ) : PageProg ι π σ ε α → Io τ ε α
  | done a => pure a
  | fail e => Io.raise e
  | read i next => h.read i >>= fun p => (next p).run h
  | write i p next => h.write i p >>= fun _ => next.run h
  | get next => h.get >>= fun s => (next s).run h
  | put s next => h.put s >>= fun _ => next.run h

theorem run_bind (h : Handler ι π σ ε τ) (m : PageProg ι π σ ε α) (f : α → PageProg ι π σ ε β) :
    (m >>= f).run h = m.run h >>= fun a => (f a).run h := by
  show (m.bind f).run h = _
  induction m with
  | done a => simp [PageProg.bind, run]
  | fail e => rfl
  | read i next ih | write i p next ih | get next ih | put s next ih => simp only [PageProg.bind, run, ih, bind_assoc]

/-- What each of a handler's operations keeps, every program keeps. -/
theorem run_keeps {I : τ → Prop} (h : Handler ι π σ ε τ) (hread : ∀ i, Io.Keeps I (h.read i))
    (hwrite : ∀ i p, Io.Keeps I (h.write i p)) (hget : Io.Keeps I h.get)
    (hput : ∀ s, Io.Keeps I (h.put s)) (m : PageProg ι π σ ε α) : Io.Keeps I (m.run h) := by
  induction m with
  | done a => exact Io.Keeps.pure a
  | fail e => exact Io.Keeps.raise e
  | read i next ih => exact (hread i).bind ih
  | write i p next ih => exact (hwrite i p).bind fun _ => ih
  | get next ih => exact hget.bind ih
  | put s next ih => exact (hput s).bind fun _ => ih

/-! ### The plain handler -/

/-- What every page reads as, which pages were written, and the program's own state. -/
structure Stage (ι π σ ε : Type) [LinearOrder ι] where
  view : ι → Except ε π
  dirty : SortedMap ι Unit
  state : σ

variable [LinearOrder ι]

namespace Stage

def write (s : Stage ι π σ ε) (i : ι) (p : π) : Stage ι π σ ε :=
  {s with view := Function.update s.view i (.ok p), dirty := s.dirty.insert i ()}

@[simp] theorem view_write_same (s : Stage ι π σ ε) (i : ι) (p : π) : (s.write i p).view i = .ok p := by
  simp [write]

theorem view_write_ne (s : Stage ι π σ ε) {i j : ι} (p : π) (h : j ≠ i) :
    (s.write i p).view j = s.view j := by
  simp [write, h]

@[simp] theorem state_write (s : Stage ι π σ ε) (i : ι) (p : π) : (s.write i p).state = s.state := rfl

@[simp] theorem dirty_write (s : Stage ι π σ ε) (i : ι) (p : π) :
    (s.write i p).dirty = s.dirty.insert i () := rfl

/-- The handler that runs a program on a stage, with no files behind it. -/
def plain : Handler ι π σ ε (Stage ι π σ ε) where
  read i := fun s => match s.view i with
    | .ok p => .ok p s
    | .error e => .err e s
  write i p := fun s => .ok ⟨⟩ (s.write i p)
  get := fun s => .ok s.state s
  put x := fun s => .ok ⟨⟩ {s with state := x}

end Stage

/-- The program on a stage. -/
def exec (m : PageProg ι π σ ε α) : Io (Stage ι π σ ε) ε α := m.run Stage.plain

section Exec
variable (s : Stage ι π σ ε)

@[simp] theorem exec_pure (a : α) : exec (pure a : PageProg ι π σ ε α) s = .ok a s := rfl

@[simp] theorem exec_raise (e : ε) : exec (raise e : PageProg ι π σ ε α) s = .err e s := rfl

@[simp] theorem exec_get : exec (MonadState.get : PageProg ι π σ ε σ) s = .ok s.state s := rfl

@[simp] theorem exec_set (x : σ) :
    exec (set x : PageProg ι π σ ε PUnit) s = .ok ⟨⟩ {s with state := x} := rfl

@[simp] theorem exec_modify (f : σ → σ) :
    exec (modify f : PageProg ι π σ ε PUnit) s = .ok ⟨⟩ {s with state := f s.state} := rfl

@[simp] theorem exec_writePage (i : ι) (p : π) :
    exec (writePage i p : PageProg ι π σ ε PUnit) s = .ok ⟨⟩ (s.write i p) := rfl

theorem exec_readPage (i : ι) : exec (readPage i : PageProg ι π σ ε π) s = match s.view i with
    | .ok p => .ok p s
    | .error e => .err e s := by
  show (Io.bind (Stage.plain.read i) fun p => pure p) s = _
  unfold Io.bind
  simp only [Stage.plain]
  cases s.view i <;> rfl

theorem exec_readPage_ok {i : ι} {p : π} (h : s.view i = .ok p) :
    exec (readPage i : PageProg ι π σ ε π) s = .ok p s := by
  rw [exec_readPage, h]

@[simp] theorem exec_ofExcept (x : Except ε α) : exec (ofExcept x : PageProg ι π σ ε α) s =
    match x with
    | .ok a => .ok a s
    | .error e => .err e s := by
  cases x <;> rfl

theorem exec_check_pos {c : Prop} [Decidable c] (h : c) (e : ε) :
    exec (check c e : PageProg ι π σ ε Unit) s = .ok () s := by
  rw [check, exec_ofExcept, ensure, if_pos h]

theorem exec_check_neg {c : Prop} [Decidable c] (h : ¬c) (e : ε) :
    exec (check c e : PageProg ι π σ ε Unit) s = .err e s := by
  rw [check, exec_ofExcept, ensure, if_neg h]

theorem exec_bind (m : PageProg ι π σ ε α) (f : α → PageProg ι π σ ε β) :
    exec (m >>= f) s = match exec m s with
      | .ok a s' => exec (f a) s'
      | .err e s' => .err e s'
      | .halt s' => .halt s' := by
  unfold exec
  rw [run_bind, Io.bind_apply]
  cases run Stage.plain m s <;> rfl

theorem exec_bind_ok {m : PageProg ι π σ ε α} {a : α} {s s' : Stage ι π σ ε} (h : exec m s = .ok a s')
    (f : α → PageProg ι π σ ε β) : exec (m >>= f) s = exec (f a) s' := by
  rw [exec_bind, h]

theorem exec_bind_err {m : PageProg ι π σ ε α} {e : ε} {s s' : Stage ι π σ ε} (h : exec m s = .err e s')
    (f : α → PageProg ι π σ ε β) : exec (m >>= f) s = .err e s' := by
  rw [exec_bind, h]

end Exec

/-- A page program only ever ends with a value or an error. -/
theorem exec_ne_halt (m : PageProg ι π σ ε α) (s t : Stage ι π σ ε) : exec m s ≠ .halt t := by
  induction m generalizing s with
  | done | fail => exact fun h => nomatch h
  | read i next ih =>
    unfold exec run
    rw [Io.bind_apply]
    simp only [Stage.plain]
    cases s.view i with
    | ok p => exact ih p s
    | error e => exact fun h => nomatch h
  | write i p next ih => exact ih (s.write i p)
  | get next ih => exact ih s.state s
  | put x next ih => exact ih {s with state := x}

/-- A successful bind is a successful first part and a successful second. -/
theorem exec_bind_eq_ok {s t : Stage ι π σ ε} {b : β} (h : exec (m >>= f) s = .ok b t) :
    ∃ a s', exec m s = .ok a s' ∧ exec (f a) s' = .ok b t := by
  rw [exec_bind] at h
  cases hm : exec m s with
  | ok a s' =>
    rw [hm] at h
    exact ⟨a, s', rfl, h⟩
  | err e s' =>
    rw [hm] at h
    cases h
  | halt s' => exact absurd hm (exec_ne_halt m s s')

theorem exec_check_eq_ok {c : Prop} [Decidable c] {e : ε} {u : Unit} {s t : Stage ι π σ ε}
    (h : exec (check c e : PageProg ι π σ ε Unit) s = .ok u t) : c ∧ t = s := by
  by_cases hc : c
  · rw [exec_check_pos s hc] at h
    cases h
    exact ⟨hc, rfl⟩
  · rw [exec_check_neg s hc] at h
    cases h

theorem exec_check_bind {c : Prop} [Decidable c] {e : ε} {f : Unit → PageProg ι π σ ε β} {b : β}
    {s t : Stage ι π σ ε} (h : exec (check c e >>= f) s = .ok b t) : c ∧ exec (f ()) s = .ok b t := by
  obtain ⟨u, s', hcheck, hf⟩ := exec_bind_eq_ok h
  obtain ⟨hc, hs⟩ := exec_check_eq_ok hcheck
  rw [hs] at hf
  exact ⟨hc, hf⟩

theorem exec_ofExcept_bind {x : Except ε α} {b : β} {s t : Stage ι π σ ε}
    (h : exec (ofExcept x >>= f) s = .ok b t) : ∃ a, x = .ok a ∧ exec (f a) s = .ok b t := by
  cases x with
  | ok a => exact ⟨a, rfl, h⟩
  | error e => cases h

theorem exec_readPage_eq_ok {i : ι} {p : π} {s t : Stage ι π σ ε}
    (h : exec (readPage i : PageProg ι π σ ε π) s = .ok p t) : s.view i = .ok p ∧ t = s := by
  rw [exec_readPage] at h
  cases hv : s.view i with
  | ok q =>
    rw [hv] at h
    cases h
    exact ⟨rfl, rfl⟩
  | error e =>
    rw [hv] at h
    cases h

/-- A program changes what it writes, and nothing else. -/
theorem exec_frame (m : PageProg ι π σ ε α) (s : Stage ι π σ ε) :
    (∀ i ∈ s.dirty.keys, i ∈ (exec m s).state.dirty.keys) ∧
      ∀ i, i ∉ (exec m s).state.dirty.keys → (exec m s).state.view i = s.view i := by
  induction m generalizing s with
  | done | fail => exact ⟨fun _ h => h, fun _ _ => rfl⟩
  | read i next ih =>
    unfold exec run
    rw [Io.bind_apply]
    simp only [Stage.plain]
    cases s.view i with
    | ok p => exact ih p s
    | error e => exact ⟨fun _ h => h, fun _ _ => rfl⟩
  | write i p next ih =>
    obtain ⟨hdirty, hview⟩ := ih (s.write i p)
    have hmem : ∀ j, j = i ∨ j ∈ s.dirty.keys → j ∈ (exec next (s.write i p)).state.dirty.keys := by
      intro j hj
      refine hdirty j ?_
      rwa [Stage.dirty_write, SortedMap.mem_keys_insert]
    refine ⟨fun j hj => hmem j (.inr hj), fun j hj => ?_⟩
    have hne : j ≠ i := fun heq => hj (hmem j (.inl heq))
    exact (hview j hj).trans (s.view_write_ne p hne)
  | get next ih => exact ih s.state s
  | put x next ih => exact ih {s with state := x}

/-- What was written stays written. -/
theorem dirty_ne_empty {next : PageProg ι π σ ε α} {s s' : Stage ι π σ ε} {i : ι} {p : π} {a : α}
    (h : exec next (s.write i p) = .ok a s') : s'.dirty ≠ .empty := by
  intro hclean
  have hdirty := (exec_frame next (s.write i p)).1 i (SortedMap.mem_keys_insert.mpr (.inl rfl))
  rw [h, Outcome.state, hclean] at hdirty
  exact List.not_mem_nil hdirty

/-! ### What a program reads -/

/-- Whatever it is given, the program reads pages with `P` only, and changes a page or the state only if `W`. -/
def ReadsOnly (W : Prop) (P : ι → Prop) : PageProg ι π σ ε α → Prop
  | done _ => True
  | fail _ => True
  | read i next => P i ∧ ∀ p, ReadsOnly W P (next p)
  | write _ _ next => W ∧ ReadsOnly W P next
  | get next => ∀ s, ReadsOnly W P (next s)
  | put _ next => W ∧ ReadsOnly W P next

omit [LinearOrder ι] in
theorem ReadsOnly.bind {W : Prop}
    (hm : ReadsOnly W P m) (hf : ∀ a, ReadsOnly W P (f a)) : ReadsOnly W P (m >>= f) := by
  show ReadsOnly W P (m.bind f)
  induction m with
  | done a => exact hf a
  | fail e => exact True.intro
  | read i next ih => exact ⟨hm.1, fun p => ih p (hm.2 p)⟩
  | get next ih => exact fun s => ih s (hm s)
  | write i p next ih | put x next ih => exact ⟨hm.1, ih hm.2⟩

omit [LinearOrder ι] in
theorem ReadsOnly.ofExcept {W : Prop} (x : Except ε α) : ReadsOnly W P (ofExcept x : PageProg ι π σ ε α) := by
  cases x <;> exact True.intro

omit [LinearOrder ι] in
theorem readsOnly_true (m : PageProg ι π σ ε α) : ReadsOnly True (fun _ => True) m := by
  induction m with
  | done | fail => exact True.intro
  | get next ih => exact ih
  | read i next ih | write i p next ih | put x next ih => exact ⟨True.intro, ih⟩

/-- A program that changes nothing leaves the stage as it was. -/
theorem ReadsOnly.stage_eq (h : ReadsOnly False P m) {s t : Stage ι π σ ε} {a : α}
    (hexec : exec m s = .ok a t) : t = s := by
  induction m with
  | done a =>
    cases hexec
    rfl
  | fail e => cases hexec
  | read i next ih =>
    obtain ⟨p, s', hread, hnext⟩ := exec_bind_eq_ok (m := readPage i) (f := next) hexec
    rw [(exec_readPage_eq_ok hread).2] at hnext
    exact ih p (h.2 p) hnext
  | get next ih => exact ih s.state (h s.state) hexec
  | write | put => exact h.1.elim

/-! ### From the plain handler to another -/

/-- `m` does what `n` does, through `R`, unless it ends in `F` (it failed with an error
that `n` has no reason for) or is stopped in `H`. -/
def Sim (R : τ → Stage ι π σ ε → Prop) (F : ε → τ → Prop) (H : τ → Prop) (m : Io τ ε α)
    (n : Io (Stage ι π σ ε) ε α) : Prop :=
  ∀ t s, R t s → match m t with
    | .ok a t' => ∃ s', n s = .ok a s' ∧ R t' s'
    | .err e t' => (∃ s', n s = .err e s' ∧ R t' s') ∨ F e t'
    | .halt t' => H t'

variable {R : τ → Stage ι π σ ε → Prop} {F : ε → τ → Prop} {H : τ → Prop}

theorem Sim.bind {m : Io τ ε α} {n : Io (Stage ι π σ ε) ε α} {f : α → Io τ ε β} {g : α → Io (Stage ι π σ ε) ε β}
    (hm : Sim R F H m n) (hf : ∀ a, Sim R F H (f a) (g a)) : Sim R F H (m >>= f) (n >>= g) := by
  intro t s hR
  have h := hm t s hR
  rw [Io.bind_apply]
  cases hmt : m t with
  | ok a t' =>
    rw [hmt] at h
    obtain ⟨s', hn, hR'⟩ := h
    have h' := hf a t' s' hR'
    rw [Io.bind_apply, hn]
    exact h'
  | err e t' =>
    rw [hmt] at h
    rcases h with ⟨s', hn, hR'⟩ | hF
    · exact .inl ⟨s', by rw [Io.bind_apply, hn], hR'⟩
    · exact .inr hF
  | halt t' =>
    rw [hmt] at h
    exact h

/-- The rule, for a stage to start from. -/
theorem Sim.spec {m : Io τ ε α} {n : Io (Stage ι π σ ε) ε α} (h : Sim R F H m n) (s : Stage ι π σ ε) :
    Io.Spec (fun t => R t s) m (fun a t => ∃ s', n s = .ok a s' ∧ R t s')
      (fun e t => (∃ s', n s = .err e s' ∧ R t s') ∨ F e t) H := by
  intro t hR
  have hend := h t s hR
  cases hm : m t with
  | ok | err | halt =>
    rw [hm] at hend
    exact hend

/-- A handler whose four operations simulate the plain ones runs every program as
the plain handler does, on the pages it reads. -/
theorem run_sim {W : Prop} (h : Handler ι π σ ε τ) (hread : ∀ i, P i → Sim R F H (h.read i) (Stage.plain.read i))
    (hwrite : ∀ i p, Sim R F H (h.write i p) (Stage.plain.write i p)) (hget : Sim R F H h.get Stage.plain.get)
    (hput : ∀ x, Sim R F H (h.put x) (Stage.plain.put x)) (hm : ReadsOnly W P m) : Sim R F H (m.run h) (exec m) := by
  unfold exec
  induction m with
  | done a => exact fun t s hR => ⟨s, rfl, hR⟩
  | fail e => exact fun t s hR => .inl ⟨s, rfl, hR⟩
  | read i next ih => exact (hread i hm.1).bind fun p => ih p (hm.2 p)
  | write i p next ih => exact (hwrite i p).bind fun _ => ih hm.2
  | get next ih => exact hget.bind fun s => ih s (hm s)
  | put x next ih => exact (hput x).bind fun _ => ih hm.2

/-- Where `n` succeeds, `m` does too and with the same value, through `R`. -/
def Follows (R : τ → Stage ι π σ ε → Prop) (m : Io τ ε α) (n : Io (Stage ι π σ ε) ε α) : Prop :=
  ∀ t s a s', R t s → n s = .ok a s' → ∃ t', m t = .ok a t' ∧ R t' s'

theorem Follows.bind {m : Io τ ε α} {n : Io (Stage ι π σ ε) ε α} {f : α → Io τ ε β} {g : α → Io (Stage ι π σ ε) ε β}
    (hm : Follows R m n) (hf : ∀ a, Follows R (f a) (g a)) : Follows R (m >>= f) (n >>= g) := by
  intro t s b s' hR h
  obtain ⟨a, s₁, hn, hg⟩ := Io.bind_eq_ok.mp h
  obtain ⟨t₁, ht₁, hR₁⟩ := hm t s a s₁ hR hn
  obtain ⟨t', ht', hR'⟩ := hf a t₁ s₁ b s' hR₁ hg
  exact ⟨t', Io.bind_eq_ok.mpr ⟨a, t₁, ht₁, ht'⟩, hR'⟩

/-- A handler whose four operations follow the plain ones succeeds with every program that the
plain handler succeeds with. -/
theorem run_follows (h : Handler ι π σ ε τ) (hread : ∀ i, P i → Follows R (h.read i) (Stage.plain.read i))
    (hwrite : ∀ i p, Follows R (h.write i p) (Stage.plain.write i p)) (hget : Follows R h.get Stage.plain.get)
    (hput : ∀ x, Follows R (h.put x) (Stage.plain.put x)) (hm : ReadsOnly W P m) : Follows R (m.run h) (exec m) := by
  unfold exec
  induction m with
  | done a =>
    intro t s b s' hR heq
    cases heq
    exact ⟨t, rfl, hR⟩
  | fail e => exact fun _ _ _ _ _ heq => nomatch heq
  | read i next ih => exact (hread i hm.1).bind fun p => ih p (hm.2 p)
  | write i p next ih => exact (hwrite i p).bind fun _ => ih hm.2
  | get next ih => exact hget.bind fun s => ih s (hm s)
  | put x next ih => exact (hput x).bind fun _ => ih hm.2

/-- A run that wrote nothing is followed by a handler that does not write. -/
theorem run_follows_clean (h : Handler ι π σ ε τ)
    (hread : ∀ i, Follows R (h.read i) (Stage.plain.read i)) (hget : Follows R h.get Stage.plain.get)
    (hput : ∀ x, Follows R (h.put x) (Stage.plain.put x)) (m : PageProg ι π σ ε α) {t : τ} {s s' : Stage ι π σ ε} {a : α}
    (hR : R t s) (hexec : exec m s = .ok a s') (hclean : s'.dirty = .empty) : ∃ t', m.run h t = .ok a t' ∧ R t' s' := by
  induction m generalizing t s with
  | done b =>
    cases hexec
    exact ⟨t, rfl, hR⟩
  | fail e => cases hexec
  | read i next ih =>
    obtain ⟨p, s₁, hplain, hnext⟩ := Io.bind_eq_ok.mp hexec
    obtain ⟨t₁, ht₁, hR₁⟩ := hread i t s p s₁ hR hplain
    obtain ⟨t', ht', hR'⟩ := ih p hR₁ hnext
    exact ⟨t', Io.bind_eq_ok.mpr ⟨p, t₁, ht₁, ht'⟩, hR'⟩
  | write i p next ih =>
    have hnext : exec next (s.write i p) = .ok a s' := hexec
    exact absurd hclean (dirty_ne_empty hnext)
  | get next ih =>
    obtain ⟨x, s₁, hplain, hnext⟩ := Io.bind_eq_ok.mp hexec
    obtain ⟨t₁, ht₁, hR₁⟩ := hget t s x s₁ hR hplain
    obtain ⟨t', ht', hR'⟩ := ih x hR₁ hnext
    exact ⟨t', Io.bind_eq_ok.mpr ⟨x, t₁, ht₁, ht'⟩, hR'⟩
  | put x next ih =>
    obtain ⟨u, s₁, hplain, hnext⟩ := Io.bind_eq_ok.mp hexec
    obtain ⟨t₁, ht₁, hR₁⟩ := hput x t s u s₁ hR hplain
    obtain ⟨t', ht', hR'⟩ := ih hR₁ hnext
    exact ⟨t', Io.bind_eq_ok.mpr ⟨u, t₁, ht₁, ht'⟩, hR'⟩

/-- A handler that reads, gets and puts as the plain one does, unless it fails in `F` or stops in `H`, runs a program that
writes nothing as the plain one does. -/
theorem run_spec_clean {R : Stage ι π σ ε → τ → Prop} {F : τ → Prop} (h : Handler ι π σ ε τ)
    (hread : ∀ i p s, s.view i = .ok p → Io.Spec (R s) (h.read i) (fun q t => q = p ∧ R s t) (fun _ => F) H)
    (hget : ∀ s, Io.Spec (R s) h.get (fun x t => x = s.state ∧ R s t) (fun _ => F) H)
    (hput : ∀ x s, Io.Spec (R s) (h.put x) (fun _ => R {s with state := x}) (fun _ => F) H) (m : PageProg ι π σ ε α)
    {s s' : Stage ι π σ ε} {a : α} (hexec : exec m s = .ok a s') (hclean : s'.dirty = .empty) :
    Io.Spec (R s) (m.run h) (fun b t => b = a ∧ R s' t) (fun _ => F) H := by
  induction m generalizing s with
  | done b =>
    cases hexec
    exact Io.Spec.pure fun t ht => ⟨rfl, ht⟩
  | fail e => cases hexec
  | read i next ih =>
    obtain ⟨p, s₁, hplain, hnext⟩ := exec_bind_eq_ok (m := readPage i) (f := next) hexec
    obtain ⟨hview, rfl⟩ := exec_readPage_eq_ok hplain
    refine Io.Spec.bind (hread i p s₁ hview) fun q => .assume fun hq => ?_
    rw [hq]
    exact ih p hnext
  | write i p next ih =>
    have hnext : exec next (s.write i p) = .ok a s' := hexec
    exact absurd hclean (dirty_ne_empty hnext)
  | get next ih =>
    refine Io.Spec.bind (hget s) fun x => .assume fun hx => ?_
    rw [hx]
    exact ih s.state hexec
  | put x next ih => exact Io.Spec.bind (hput x s) fun _ => ih hexec

end PageProg

end Dodb.Lib
