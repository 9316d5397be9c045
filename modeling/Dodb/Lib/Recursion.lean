import Dodb.Lib.PageProg

/-! Recursions over pages that have no bound of their own.

A loop or a recursive function is given by its body, which is told how to go on. `unroll` makes a number of
rounds of it and then goes on with `rest`, whatever that is. A recursion ends within `n` rounds exactly when `rest`
makes no difference to them: a run that came to `rest` would fail with the error of one `rest` and with the error of
another. So a loop without a bound is compared with a bounded model of it by `SameRun`, for every `rest`.

`reads` is the other thing to know about a walk: which pages it looks at, and how often. -/
namespace Dodb.Lib.PageProg

variable {ι π σ ε α β χ : Type}

theorem check_congr {c d : Prop} [Decidable c] [Decidable d] (h : c ↔ d) (e : ε) :
    (check c e : PageProg ι π σ ε Unit) = check d e := by
  unfold check ensure
  simp only [h]

theorem check_bind_neg {c : Prop} [Decidable c] (h : ¬c) (e : ε) (f : Unit → PageProg ι π σ ε α) :
    check c e >>= f = raise e := by
  unfold check ensure
  rw [if_neg h]
  rfl

/-- `n` rounds of a recursion, and then `rest`. -/
def unroll (body : (χ → PageProg ι π σ ε α) → χ → PageProg ι π σ ε α) (rest : χ → PageProg ι π σ ε α) :
    Nat → χ → PageProg ι π σ ε α
  | 0 => rest
  | n + 1 => body (unroll body rest n)

/-- A walk with a bound is that many rounds, when one more of its bound is one more round. -/
theorem eq_unroll {body : (χ → PageProg ι π σ ε α) → χ → PageProg ι π σ ε α} {f : Nat → χ → PageProg ι π σ ε α}
    (h : ∀ n x, f (n + 1) x = body (f n) x) (n : Nat) : f n = unroll body (f 0) n := by
  induction n with
  | zero => rfl
  | succ n ih => rw [unroll, ← ih, funext (h n)]

variable [LinearOrder ι]

/-! ### The pages a run reads -/

/-- The pages that the program reads on a stage, in order. -/
def reads : PageProg ι π σ ε α → Stage ι π σ ε → List ι
  | done _, _ => []
  | fail _, _ => []
  | read i next, s => i :: match s.view i with
    | .ok p => (next p).reads s
    | .error _ => []
  | write i p next, s => next.reads (s.write i p)
  | get next, s => (next s.state).reads s
  | put x next, s => next.reads {s with state := x}

section Reads
variable (s : Stage ι π σ ε)

@[simp] theorem reads_pure (a : α) : reads (pure a : PageProg ι π σ ε α) s = [] := rfl

@[simp] theorem reads_raise (e : ε) : reads (raise e : PageProg ι π σ ε α) s = [] := rfl

@[simp] theorem reads_get : reads (MonadState.get : PageProg ι π σ ε σ) s = [] := rfl

@[simp] theorem reads_set (x : σ) : reads (set x : PageProg ι π σ ε PUnit) s = [] := rfl

@[simp] theorem reads_modify (f : σ → σ) : reads (modify f : PageProg ι π σ ε PUnit) s = [] := rfl

@[simp] theorem reads_writePage (i : ι) (p : π) : reads (writePage i p : PageProg ι π σ ε PUnit) s = [] := rfl

@[simp] theorem reads_ofExcept (x : Except ε α) : reads (ofExcept x : PageProg ι π σ ε α) s = [] := by
  cases x <;> rfl

@[simp] theorem reads_check (c : Prop) [Decidable c] (e : ε) :
    reads (check c e : PageProg ι π σ ε Unit) s = [] := reads_ofExcept s _

theorem reads_readPage (i : ι) : reads (readPage i : PageProg ι π σ ε π) s = [i] := by
  unfold readPage reads
  cases s.view i <;> rfl

theorem reads_bind (m : PageProg ι π σ ε α) (f : α → PageProg ι π σ ε β) :
    reads (m >>= f) s = reads m s ++ match exec m s with
      | .ok a t => reads (f a) t
      | .err _ _ => []
      | .halt _ => [] := by
  show reads (m.bind f) s = _
  induction m generalizing s with
  | done | fail => rfl
  | read i next ih =>
    have hexec : exec (read i next) s = match s.view i with
        | .ok p => exec (next p) s
        | .error e => .err e s := by
      have hread : Stage.plain.read i s = match s.view i with
        | .ok p => .ok p s
        | .error e => .err e s := rfl
      rw [exec, run, Io.bind_apply, hread]
      cases s.view i <;> rfl
    rw [hexec]
    simp only [PageProg.bind, reads]
    cases s.view i with
    | ok p => exact congrArg (i :: ·) (ih p s)
    | error e => rfl
  | write i p next ih => exact ih (s.write i p)
  | get next ih => exact ih s.state s
  | put x next ih => exact ih {s with state := x}

theorem reads_bind_ok {m : PageProg ι π σ ε α} {a : α} {s t : Stage ι π σ ε} (h : exec m s = .ok a t)
    (f : α → PageProg ι π σ ε β) : reads (m >>= f) s = reads m s ++ reads (f a) t := by
  rw [reads_bind, h]

theorem reads_bind_err {m : PageProg ι π σ ε α} {e : ε} {s t : Stage ι π σ ε} (h : exec m s = .err e t)
    (f : α → PageProg ι π σ ε β) : reads (m >>= f) s = reads m s := by
  rw [reads_bind, h, List.append_nil]

theorem reads_bind_nil {m : PageProg ι π σ ε α} {f : α → PageProg ι π σ ε β} (hm : reads m s = [])
    (hf : ∀ a t, reads (f a) t = []) : reads (m >>= f) s = [] := by
  rw [reads_bind, hm, List.nil_append]
  cases exec m s with
  | ok a t => exact hf a t
  | err | halt => rfl

end Reads

/-- The run reads no page more than `k` times. -/
def Visits (k : Nat) (m : PageProg ι π σ ε α) (s : Stage ι π σ ε) : Prop := ∀ i, (reads m s).count i ≤ k

section Visits
variable {k l : Nat} {m : PageProg ι π σ ε α} {f : α → PageProg ι π σ ε β} {s : Stage ι π σ ε}

theorem Visits.mono (h : Visits k m s) (hle : k ≤ l) : Visits l m s := fun i => (h i).trans hle

theorem Visits.of_nil (h : reads m s = []) : Visits k m s := fun i => by simp [h]

theorem count_bind_le {i : ι} (hm : (reads m s).count i ≤ k)
    (hf : ∀ a t, exec m s = .ok a t → (reads (f a) t).count i ≤ l) : (reads (m >>= f) s).count i ≤ k + l := by
  cases h : exec m s with
  | ok a t =>
    rw [reads_bind_ok h, List.count_append]
    exact Nat.add_le_add hm (hf a t h)
  | err e t =>
    rw [reads_bind_err h]
    exact hm.trans (Nat.le_add_right ..)
  | halt t => exact absurd h (exec_ne_halt m s t)

theorem Visits.bind (hm : Visits k m s) (hf : ∀ a t, exec m s = .ok a t → Visits l (f a) t) :
    Visits (k + l) (m >>= f) s :=
  fun i => count_bind_le (hm i) fun a t h => hf a t h i

/-- A first part that reads nothing. -/
theorem Visits.after (hm : reads m s = []) (hf : ∀ a t, exec m s = .ok a t → Visits k (f a) t) :
    Visits k (m >>= f) s := by
  have := (Visits.of_nil (k := 0) hm).bind hf
  rwa [Nat.zero_add] at this

end Visits

/-! ### Two programs with one run -/

/-- On this stage the two programs read the same pages and end alike. -/
structure SameRun (m m' : PageProg ι π σ ε α) (s : Stage ι π σ ε) : Prop where
  outcome : exec m s = exec m' s
  pages : reads m s = reads m' s

namespace SameRun
variable {m m' : PageProg ι π σ ε α} {f f' : α → PageProg ι π σ ε β} {s : Stage ι π σ ε}

theorem refl (m : PageProg ι π σ ε α) (s : Stage ι π σ ε) : SameRun m m s := ⟨rfl, rfl⟩

theorem bind (h : SameRun m m' s) (hf : ∀ a t, exec m' s = .ok a t → SameRun (f a) (f' a) t) :
    SameRun (m >>= f) (m' >>= f') s := by
  cases hm : exec m' s with
  | ok a t =>
    have hrest := hf a t hm
    constructor
    · rw [exec_bind_ok (h.outcome.trans hm), exec_bind_ok hm, hrest.outcome]
    · rw [reads_bind_ok (h.outcome.trans hm), reads_bind_ok hm, h.pages, hrest.pages]
  | err e t =>
    constructor
    · rw [exec_bind_err (h.outcome.trans hm), exec_bind_err hm]
    · rw [reads_bind_err (h.outcome.trans hm), reads_bind_err hm, h.pages]
  | halt t => exact absurd hm (exec_ne_halt m' s t)

/-- Programs that begin alike. -/
theorem after (m : PageProg ι π σ ε α) (hf : ∀ a t, exec m s = .ok a t → SameRun (f a) (f' a) t) :
    SameRun (m >>= f) (m >>= f') s :=
  (refl m s).bind hf

theorem check {c : Prop} [Decidable c] {e : ε} {g g' : Unit → PageProg ι π σ ε β}
    (h : c → SameRun (g ()) (g' ()) s) : SameRun (check c e >>= g) (check c e >>= g') s := by
  refine after _ fun u t hcheck => ?_
  obtain ⟨hc, rfl⟩ := exec_check_eq_ok hcheck
  exact h hc

theorem get_right {g : σ → PageProg ι π σ ε α} (h : SameRun m (g s.state) s) : SameRun m (MonadState.get >>= g) s :=
  ⟨h.outcome, h.pages⟩

end SameRun

/-- The calls of the recursion are on arguments of a smaller measure, on stages with `I`. -/
def Decreases (μ : χ → Nat) (I : Stage ι π σ ε → Prop) (body : (χ → PageProg ι π σ ε α) → χ → PageProg ι π σ ε α) : Prop :=
  ∀ next next' x s, I s → (∀ y t, I t → μ y < μ x → SameRun (next y) (next' y) t) →
    SameRun (body next x) (body next' x) s

section Decreases
variable {body : (χ → PageProg ι π σ ε α) → χ → PageProg ι π σ ε α} {I : Stage ι π σ ε → Prop} {μ : χ → Nat}
  {n : Nat} {x : χ} {s : Stage ι π σ ε}

/-- A recursion whose calls are on ever smaller arguments ends within as many rounds as its argument is large. -/
theorem Decreases.unroll (h : Decreases μ I body) (hI : I s) (hn : μ x < n) (rest rest' : χ → PageProg ι π σ ε α) :
    SameRun (PageProg.unroll body rest n x) (PageProg.unroll body rest' n x) s := by
  induction n generalizing x s with
  | zero => exact absurd hn (Nat.not_lt_zero _)
  | succ n ih => exact h _ _ x s hI fun y t hy hlt => ih hy (by omega)

/-- The same for a walk with a bound that its argument does not reach. -/
theorem Decreases.bounded (h : Decreases μ I body) {f : Nat → χ → PageProg ι π σ ε α}
    (hf : ∀ n x, f (n + 1) x = body (f n) x) (hI : I s) (hn : μ x < n) (rest : χ → PageProg ι π σ ε α) :
    SameRun (PageProg.unroll body rest n x) (f n x) s := by
  rw [eq_unroll hf n]
  exact h.unroll hI hn rest (f 0)

end Decreases

/-! ### Reading a page once -/

/-- No page twice, and none that was seen. -/
structure Unseen (seen pages : List ι) : Prop where
  nodup : pages.Nodup
  fresh : ∀ i ∈ pages, i ∉ seen

namespace Unseen
variable {seen seen' pages pages' : List ι}

omit [LinearOrder ι] in
theorem nil (seen : List ι) : Unseen seen [] := ⟨List.nodup_nil, by simp⟩

omit [LinearOrder ι] in
theorem cons {i : ι} (hi : i ∉ seen) (h : Unseen (i :: seen) pages) : Unseen seen (i :: pages) where
  nodup := List.nodup_cons.mpr ⟨fun hmem => h.fresh i hmem List.mem_cons_self, h.nodup⟩
  fresh j hj := by
    rcases List.mem_cons.mp hj with rfl | hj
    · exact hi
    · exact fun hseen => h.fresh j hj (List.mem_cons_of_mem _ hseen)

omit [LinearOrder ι] in
theorem append (h : Unseen seen pages) (h' : Unseen seen' pages') (hseen : ∀ i, i ∈ seen ∨ i ∈ pages → i ∈ seen') :
    Unseen seen (pages ++ pages') where
  nodup := List.nodup_append.mpr ⟨h.nodup, h'.nodup, fun i hi j hj heq =>
    h'.fresh j hj (hseen j (.inr (heq ▸ hi)))⟩
  fresh i hi := by
    rcases List.mem_append.mp hi with hi | hi
    · exact h.fresh i hi
    · exact fun hmem => h'.fresh i hi (hseen i (.inl hmem))

omit [LinearOrder ι] in
theorem anti (h : Unseen seen pages) (hsub : ∀ i ∈ seen', i ∈ seen) : Unseen seen' pages :=
  ⟨h.nodup, fun i hi hmem => h.fresh i hi (hsub i hmem)⟩

theorem count_le (h : Unseen seen pages) (i : ι) : pages.count i ≤ 1 := List.nodup_iff_count_le_one.mp h.nodup i

/-- A first part that reads nothing. -/
theorem after {m : PageProg ι π σ ε α} {f : α → PageProg ι π σ ε β} {s : Stage ι π σ ε} (hm : reads m s = [])
    (hf : ∀ a t, exec m s = .ok a t → Unseen seen (reads (f a) t)) : Unseen seen (reads (m >>= f) s) := by
  rw [reads_bind, hm, List.nil_append]
  cases h : exec m s with
  | ok a t => exact hf a t h
  | err | halt => exact nil _

/-- A second part that reads nothing. -/
theorem before {m : PageProg ι π σ ε α} {f : α → PageProg ι π σ ε β} {s : Stage ι π σ ε}
    (hm : Unseen seen (reads m s)) (hf : ∀ a t, reads (f a) t = []) : Unseen seen (reads (m >>= f) s) := by
  have : reads (m >>= f) s = reads m s := by
    rw [reads_bind]
    cases exec m s <;> simp [hf]
  rwa [this]

theorem bind_check {c : Prop} [Decidable c] {e : ε} {f : Unit → PageProg ι π σ ε β} {s : Stage ι π σ ε}
    (h : c → Unseen seen (reads (f ()) s)) : Unseen seen (reads (check c e >>= f) s) := by
  apply after (reads_check ..)
  intro u t hcheck
  obtain ⟨hc, rfl⟩ := exec_check_eq_ok hcheck
  exact h hc

theorem bind_readPage {i : ι} {f : π → PageProg ι π σ ε β} {s : Stage ι π σ ε} (hi : i ∉ seen)
    (h : ∀ p, Unseen (i :: seen) (reads (f p) s)) : Unseen seen (reads (readPage i >>= f) s) := by
  rw [reads_bind, reads_readPage, exec_readPage]
  apply cons hi
  cases s.view i with
  | ok p => exact h p
  | error e => exact nil _

end Unseen

/-! ### Marking the pages that were read -/

/-- Every page the program reads is marked in its state, and was not marked before. -/
structure Marks (marked : σ → List ι) (m : PageProg ι π σ ε α) (s : Stage ι π σ ε) : Prop where
  unseen : Unseen (marked s.state) (reads m s)
  marks : ∀ a t, exec m s = .ok a t → ∀ i, i ∈ marked s.state ∨ i ∈ reads m s → i ∈ marked t.state

namespace Marks
variable {marked : σ → List ι} {m : PageProg ι π σ ε α} {f : α → PageProg ι π σ ε β} {s : Stage ι π σ ε}

theorem bind (hm : Marks marked m s) (hf : ∀ a t, exec m s = .ok a t → Marks marked (f a) t) :
    Marks marked (m >>= f) s := by
  cases h : exec m s with
  | ok a t =>
    have hrest := hf a t h
    have hmarks := hm.marks a t h
    refine ⟨?_, fun b t' hb i hi => ?_⟩
    · rw [reads_bind_ok h]
      exact hm.unseen.append hrest.unseen hmarks
    · rw [exec_bind_ok h] at hb
      rw [reads_bind_ok h, List.mem_append, ← or_assoc] at hi
      refine hrest.marks b t' hb i ?_
      rcases hi with hi | hi
      · exact .inl (hmarks i hi)
      · exact .inr hi
  | err e t =>
    refine ⟨?_, fun b t' hb => ?_⟩
    · rw [reads_bind_err h]
      exact hm.unseen
    · rw [exec_bind_err h] at hb
      cases hb
  | halt t => exact absurd h (exec_ne_halt m s t)

/-- A program that reads no page and leaves the marks alone. -/
theorem of_quiet (hreads : reads m s = []) (h : ∀ a t, exec m s = .ok a t → marked t.state = marked s.state) :
    Marks marked m s := by
  refine ⟨?_, fun a t hexec i hi => ?_⟩
  · rw [hreads]
    exact .nil _
  · rw [hreads] at hi
    rw [h a t hexec]
    simpa using hi

theorem pure (a : α) : Marks marked (pure a : PageProg ι π σ ε α) s := by
  apply of_quiet rfl
  intro b t h
  cases h
  rfl

theorem raise (e : ε) : Marks marked (raise e : PageProg ι π σ ε α) s :=
  of_quiet rfl fun _ _ h => nomatch h

theorem check (c : Prop) [Decidable c] (e : ε) : Marks marked (check c e : PageProg ι π σ ε Unit) s := by
  apply of_quiet (reads_check s c e)
  intro u t h
  rw [(exec_check_eq_ok h).2]

theorem ofExcept (x : Except ε α) : Marks marked (ofExcept x : PageProg ι π σ ε α) s := by
  cases x with
  | ok a => exact pure a
  | error e => exact raise e

end Marks

/-! ### Termination -/

/-- The source ends with a value or an error, as its model does: nothing is left for whatever would come after its
rounds, and no page is read more than `k` times. -/
structure Terminates {ρ : Type} (k : Nat) (source : ρ → PageProg ι π σ ε α) (model : PageProg ι π σ ε α)
    (s : Stage ι π σ ε) : Prop where
  same : ∀ rest, SameRun (source rest) model s
  returns : (∃ a t, exec model s = .ok a t) ∨ ∃ e t, exec model s = .err e t
  visits : Visits k model s

theorem Terminates.of_same {ρ : Type} {k : Nat} {source : ρ → PageProg ι π σ ε α} {model : PageProg ι π σ ε α}
    {s : Stage ι π σ ε} (same : ∀ rest, SameRun (source rest) model s) (visits : Visits k model s) :
    Terminates k source model s := by
  refine ⟨same, ?_, visits⟩
  cases h : exec model s with
  | ok a t => exact .inl ⟨a, t, rfl⟩
  | err e t => exact .inr ⟨e, t, rfl⟩
  | halt t => exact absurd h (exec_ne_halt model s t)

end Dodb.Lib.PageProg
