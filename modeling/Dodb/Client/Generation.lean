import Dodb.Client.Connection

/-! What no order of steps can do to the shared connection.

One caller dials at a time, also where callers are dropped: the flag is set by the caller that goes to dial, and
it is cleared only by that caller or by `close`, after which nobody dials. Connections are installed by the
callers that dialed, with generations that count up, and a request that failed late takes away only the
connection it was sent on. Once the manager is closed it has no connection and gives none. -/
namespace Dodb.Client

variable {κ : Type} [DecidableEq κ]

/-! ### One dial at a time -/

/-- One caller holds the flag at most, and it is set while one does and the manager is open. -/
structure View.OneDials (v : View κ) : Prop where
  only : ∀ c d, (v.callers c).holdsFlag = true → (v.callers d).holdsFlag = true → c = d
  flag : v.closed = false → ∀ c, (v.callers c).holdsFlag = true → v.reconnecting = true

namespace View.OneDials
variable {v : View κ} {c : κ} {phase : Phase}

/-- A caller that does not take the flag moves. -/
theorem move (h : v.OneDials) (hphase : phase.holdsFlag = true → (v.callers c).holdsFlag = true) :
    (v.move c phase).OneDials := by
  have hback : ∀ d, ((v.move c phase).callers d).holdsFlag = true → (v.callers d).holdsFlag = true := by
    intro d hd
    by_cases hdc : d = c
    · rw [hdc, callers_move_same] at hd
      rw [hdc]
      exact hphase hd
    · rwa [v.callers_move_of_ne phase hdc] at hd
  constructor
  · intro d e hd he
    exact h.only d e (hback d hd) (hback e he)
  · intro hopen d hd
    exact h.flag hopen d (hback d hd)

/-- The caller that holds the flag leaves it: nobody holds it. -/
theorem leave (h : v.OneDials) (hc : (v.callers c).holdsFlag = true) (hphase : phase.holdsFlag = false) (d : κ) :
    ((v.move c phase).callers d).holdsFlag = false := by
  by_cases hdc : d = c
  · rw [hdc, callers_move_same, hphase]
  · rw [v.callers_move_of_ne phase hdc]
    by_contra hd
    exact hdc (h.only d c (Bool.of_not_eq_false hd) hc)

omit [DecidableEq κ] in
theorem of_nobody (h : ∀ d, (v.callers d).holdsFlag = false) : v.OneDials where
  only d e hd _ := absurd (hd.symm.trans (h d)) (by decide)
  flag _ d hd := absurd (hd.symm.trans (h d)) (by decide)

theorem moves {v' : View κ} (h : v.OneDials) (hmoves : Moves v v') : v'.OneDials := by
  cases hmoves with
  | stay => exact h
  | enter | wait => exact h.move nofun
  | rest c phase _ hphase _ =>
    refine h.move fun hholds => ?_
    rw [Phase.holdsFlag_of_free hphase] at hholds
    cases hholds
  | dial c n _ hclear hopen =>
    -- The flag was clear and the manager open, so nobody held it.
    have hnobody : ∀ d, (v.callers d).holdsFlag = false := by
      intro d
      by_contra hd
      exact absurd ((h.flag hopen d (Bool.of_not_eq_false hd)).symm.trans hclear) (by decide)
    have hdials : ∀ d, ((v.move c .dialing).callers d).holdsFlag = true → d = c := by
      intro d hd
      by_contra hdc
      rw [v.callers_move_of_ne _ hdc, hnobody d] at hd
      cases hd
    exact ⟨fun d e hd he => (hdials d hd).trans (hdials e he).symm, fun _ _ _ => rfl⟩
  | connect c hc =>
    refine h.move fun _ => ?_
    rw [hc]
    rfl
  | finish c result hc => exact of_nobody (h.leave hc rfl)
  | notify c phase _ hphase _ =>
    have hmoved : (v.move c phase).OneDials := by
      refine h.move fun hholds => ?_
      rw [Phase.holdsFlag_of_free hphase] at hholds
      cases hholds
    exact ⟨hmoved.only, hmoved.flag⟩
  | close c _ =>
    have hmoved : (v.move c .closing).OneDials := h.move nofun
    exact ⟨hmoved.only, nofun⟩

theorem step {s s' : System κ} {a : Step κ} (h : s.view.OneDials) (hstep : s.step a = some s') : s'.view.OneDials := by
  obtain ⟨c, -, -, rfl⟩ | hmoves := s.step_moves hstep
  · exact h.move nofun
  · exact h.moves hmoves

theorem run {s t : System κ} {steps : List (Step κ)} (h : s.view.OneDials) (hrun : s.run steps = some t) :
    t.view.OneDials := by
  induction steps generalizing s with
  | nil =>
    cases hrun
    exact h
  | cons a rest ih =>
    obtain ⟨s', hstep, hrest⟩ := Option.bind_eq_some_iff.mp hrun
    exact ih (h.step hstep) hrest

end View.OneDials

/-! ### What a step installs and selects -/

/-- The connection a caller has been given: it is on its way out of `ensure_connection` with it, or has returned
it. -/
def Phase.selected : Phase → Option InstalledConnection
  | .dialed (.ok installed) | .returned (.ok installed) => some installed
  | _ => none

/-- The connection that a step from `s` to `s'` installs. -/
def System.installedBy (s s' : System κ) : Option InstalledConnection :=
  if s'.state.current = s.state.current then none else s'.state.current

/-- The connections a run installs, in order. -/
def System.installs (s : System κ) : List (Step κ) → List InstalledConnection
  | [] => []
  | a :: rest => match s.step a with
    | some s' => (s.installedBy s').toList ++ s'.installs rest
    | none => []

/-- A step that installs nothing. A caller is given only what is current, in an open manager. -/
structure System.Keeps (s s' : System κ) : Prop where
  current : s'.state.current = s.state.current ∨ s'.state.current = none
  generation : s'.state.generation = s.state.generation
  connections : s.connections ≤ s'.connections
  closed : s.state.closed = true → s'.state.closed = true
  selects : s.state.closed = true → ∀ c i, (s'.callers c).selected = some i → (s.callers c).selected = some i

/-- A step that installs the connection a caller has dialed. -/
structure System.Installs (s s' : System κ) : Prop where
  isOpen : s.state.closed = false
  current : s'.state.current = some ⟨s.connections, s'.state.generation⟩
  generation : s'.state.generation = (s.state.generation + 1) % 2 ^ 64
  connections : s'.connections = s.connections + 1

theorem System.selected_move {s : System κ} {c : κ} {phase : Phase}
    (hphase : ∀ i, phase.selected = some i → (s.callers c).selected = some i) (d : κ) (i : InstalledConnection)
    (h : (Function.update s.callers c phase d).selected = some i) : (s.callers d).selected = some i := by
  by_cases hdc : d = c
  · rw [hdc, Function.update_self] at h
    rw [hdc]
    exact hphase i h
  · rwa [Function.update_of_ne hdc] at h

/-- Steps that move a caller and leave what is under the lock. -/
theorem System.Keeps.move {s s' : System κ} {c : κ} {phase : Phase} (hstate : s'.state = s.state)
    (hconnections : s'.connections = s.connections) (hcallers : s'.callers = Function.update s.callers c phase)
    (hphase : ∀ i, phase.selected = some i → (s.callers c).selected = some i) : s.Keeps s' where
  current := .inl (by rw [hstate])
  generation := by rw [hstate]
  connections := hconnections.ge
  closed h := by rwa [hstate]
  selects _ d i hd := by
    rw [hcallers] at hd
    exact selected_move hphase d i hd

/-- Steps that move a caller to where it has not been given a connection. -/
theorem System.Keeps.idle {s s' : System κ} {c : κ} {phase : Phase} (hstate : s'.state = s.state)
    (hconnections : s'.connections = s.connections) (hcallers : s'.callers = Function.update s.callers c phase)
    (hphase : phase.selected = none) : s.Keeps s' := by
  refine .move hstate hconnections hcallers fun i hi => ?_
  rw [hphase] at hi
  cases hi

omit [DecidableEq κ] in
theorem ConnectionState.ensureConnection_keeps (state : ConnectionState) (now : Instant) (lost : List Nat) :
    ((state.ensureConnection now lost).1.current = state.current ∨ (state.ensureConnection now lost).1.current = none) ∧
      (state.ensureConnection now lost).1.generation = state.generation ∧
      (state.closed = true → (state.ensureConnection now lost).2 = .returns (.error explicitlyClosed)) := by
  unfold ensureConnection
  by_cases hclosed : state.closed = true
  · rw [if_pos hclosed]
    exact ⟨.inl rfl, rfl, fun _ => rfl⟩
  rw [if_neg hclosed]
  split
  · exact ⟨.inl rfl, rfl, fun h => absurd h hclosed⟩
  · dsimp only
    split
    · exact ⟨.inr rfl, rfl, fun h => absurd h hclosed⟩
    · split
      · split <;> exact ⟨.inr rfl, rfl, fun h => absurd h hclosed⟩
      · exact ⟨.inr rfl, rfl, fun h => absurd h hclosed⟩

theorem System.keeps_choose (s : System κ) (c : κ) (n : Nat) :
    s.Keeps {s.move c ((s.state.ensureConnection s.now s.lost).2.phase n s.now) with
      state := (s.state.ensureConnection s.now s.lost).1} := by
  obtain ⟨hcurrent, hgeneration, hreturns⟩ := s.state.ensureConnection_keeps s.now s.lost
  refine ⟨hcurrent, hgeneration, Nat.le_refl _, fun hclosed => ?_, fun hclosed d i => ?_⟩
  · exact (s.state.ensureConnection_cases s.now s.lost).1.trans hclosed
  · refine selected_move (fun i hi => ?_) d i
    rw [hreturns hclosed] at hi
    cases hi

omit [DecidableEq κ] in
/-- A dial that failed, or that ended in a closed manager, installs nothing and is an error. -/
theorem ConnectionState.dial_error (state : ConnectionState) (now : Instant) {result : Except ClientError Nat}
    (h : state.closed = true ∨ ∃ error, result = .error error) :
    (state.dial now result).1.current = state.current ∧ (state.dial now result).1.generation = state.generation ∧
      ∃ error, (state.dial now result).2 = .error error := by
  unfold dial
  cases result with
  | ok connection =>
    obtain hclosed | ⟨error, herror⟩ := h
    · dsimp only
      rw [if_pos hclosed]
      exact ⟨rfl, rfl, _, rfl⟩
    · cases herror
  | error error =>
    dsimp only
    split <;> exact ⟨rfl, rfl, _, rfl⟩

theorem System.keeps_finishDial {s s' : System κ} (c : κ) (result : Except ClientError Nat)
    (h : s.state.closed = true ∨ ∃ error, result = .error error) (hstate : s'.state = (s.finishDial c result).state)
    (hcallers : s'.callers = (s.finishDial c result).callers) (hconnections : s.connections ≤ s'.connections) :
    s.Keeps s' := by
  obtain ⟨hcurrent, hgeneration, error, hanswer⟩ := s.state.dial_error s.now h
  refine ⟨.inl ?_, ?_, hconnections, fun hclosed => ?_, fun _ d i hd => ?_⟩
  · rw [hstate]
    exact hcurrent
  · rw [hstate]
    exact hgeneration
  · rw [hstate]
    exact (s.state.dial_state s.now result).2.trans hclosed
  · have hdialed : (s.finishDial c result).callers = Function.update s.callers c (.dialed (s.state.dial s.now result).2) := rfl
    rw [hcallers, hdialed, hanswer] at hd
    refine selected_move (fun i hi => ?_) d i hd
    cases hi

theorem System.step_invalidate (s : System κ) (generation : Nat) :
    s.step (.invalidate generation) = some {s.loseInstalled (s.state.invalidate generation).2 with
      state := (s.state.invalidate generation).1} := rfl

/-- What a step does to the connection: it installs one that was dialed in an open manager, or none. -/
theorem System.step_installs {s s' : System κ} {a : Step κ} (h : s.step a = some s') : s.Installs s' ∨ s.Keeps s' := by
  cases a with
  | call c =>
    simp only [step] at h
    split at h <;> cases h <;> exact .inr (.idle rfl rfl rfl rfl)
  | choose c =>
    simp only [step] at h
    split at h
    · cases h
      exact .inr (s.keeps_choose c _)
    · cases h
  | notification | wake =>
    simp only [step] at h
    split at h
    · split at h
      · cases h
        exact .inr (.idle rfl rfl rfl rfl)
      · cases h
    · cases h
  | connect c refused =>
    simp only [step] at h
    split at h
    · cases h
      exact .inr (.idle rfl rfl rfl rfl)
    · cases h
      exact .inr (keeps_finishDial c (.error _) (.inr ⟨_, rfl⟩) rfl rfl (Nat.le_refl _))
    · cases h
  | connected c result =>
    simp only [step] at h
    split at h
    · cases h
      by_cases hclosed : s.state.closed = true
      · exact .inr (keeps_finishDial c (.ok s.connections) (.inl hclosed) rfl rfl (Nat.le_succ _))
      · -- The one step that installs: the dial answered and the manager is open.
        have hdial : (s.finishDial c (.ok s.connections)).state =
            {s.state with
              reconnecting := false, generation := (s.state.generation + 1) % 2 ^ 64, failures := 0, nextAttemptAt := none
              current := some ⟨s.connections, (s.state.generation + 1) % 2 ^ 64⟩} := by
          unfold finishDial ConnectionState.dial
          dsimp only
          rw [if_neg hclosed]
        refine .inl ⟨Bool.eq_false_iff.mpr hclosed, ?_, ?_, rfl⟩
        · dsimp only
          rw [hdial]
        · dsimp only
          rw [hdial]
    · cases h
      exact .inr (keeps_finishDial c (.error _) (.inr ⟨_, rfl⟩) rfl rfl (Nat.le_refl _))
    · cases h
  | notify c =>
    simp only [step] at h
    split at h
    · rename_i result hc
      cases h
      refine .inr (.move rfl rfl rfl fun i hi => ?_)
      rw [hc]
      cases result with
      | ok installed => exact hi
      | error error => cases hi
    · cases h
      exact .inr (.idle rfl rfl rfl rfl)
    · cases h
  | cancel c =>
    simp only [step] at h
    split at h <;> cases h <;> exact .inr (.idle rfl rfl rfl rfl)
  | close c =>
    simp only [step] at h
    split at h <;> cases h
    all_goals
      exact .inr ⟨.inr rfl, rfl, Nat.le_refl _, fun _ => rfl, fun _ => selected_move fun _ hi => by cases hi⟩
  | invalidate generation =>
    rw [step_invalidate] at h
    obtain rfl := Option.some.inj h
    refine .inr ?_
    unfold ConnectionState.invalidate
    split
    · exact ⟨.inl rfl, rfl, Nat.le_refl _, id, fun _ _ _ => id⟩
    · exact ⟨.inr rfl, rfl, Nat.le_refl _, id, fun _ _ _ => id⟩
  | lose | pass =>
    cases h
    exact .inr ⟨.inl rfl, rfl, Nat.le_refl _, id, fun _ _ _ => id⟩

/-! ### Generations -/

section Dialed
omit [DecidableEq κ]

/-- The current connection is one that has been dialed. -/
def System.Dialed (s : System κ) : Prop := ∀ i, s.state.current = some i → i.connection < s.connections

theorem System.Installs.dialed {s s' : System κ} (h : s.Installs s') : s'.Dialed := by
  intro i hi
  rw [h.current] at hi
  cases hi
  rw [h.connections]
  exact Nat.lt_succ_self _

theorem System.Keeps.dialed {s s' : System κ} (h : s.Keeps s') (hs : s.Dialed) : s'.Dialed := by
  intro i hi
  obtain hcurrent | hnone := h.current
  · rw [hcurrent] at hi
    exact (hs i hi).trans_le h.connections
  · rw [hnone] at hi
    cases hi

/-- A dialed connection has a number of its own, so what is installed is never what was there. -/
theorem System.Installs.installedBy {s s' : System κ} (h : s.Installs s') (hs : s.Dialed) :
    s.installedBy s' = some ⟨s.connections, s'.state.generation⟩ := by
  have hne : s'.state.current ≠ s.state.current := by
    intro heq
    exact Nat.lt_irrefl _ (hs ⟨s.connections, s'.state.generation⟩ (heq.symm.trans h.current))
  rw [System.installedBy, if_neg hne, h.current]

theorem System.Keeps.installedBy {s s' : System κ} (h : s.Keeps s') : s.installedBy s' = none := by
  unfold System.installedBy
  split
  · rfl
  · exact h.current.resolve_left ‹_›

end Dialed

/-- The generations of the connections that a run installs count up from the one it starts with. -/
theorem System.generations_installs {s t : System κ} {steps : List (Step κ)} (hs : s.Dialed)
    (hrun : s.run steps = some t) :
    (s.installs steps).map InstalledConnection.generation =
      (List.range (s.installs steps).length).map fun k => (s.state.generation + 1 + k) % 2 ^ 64 := by
  induction steps generalizing s with
  | nil => rfl
  | cons a rest ih =>
    obtain ⟨s', hstep, hrest⟩ := Option.bind_eq_some_iff.mp hrun
    have hinstalls : s.installs (a :: rest) = (s.installedBy s').toList ++ s'.installs rest := by
      rw [installs, hstep]
    obtain hnew | hkeeps := step_installs hstep
    · rw [hinstalls, hnew.installedBy hs]
      simp only [Option.toList_some, List.singleton_append, List.map_cons, List.length_cons, List.range_succ_eq_map,
        List.map_map, ih hnew.dialed hrest]
      congr 1
      · exact hnew.generation
      · refine List.map_congr_left fun k _ => ?_
        show (s'.state.generation + 1 + k) % 2 ^ 64 = (s.state.generation + 1 + (k + 1)) % 2 ^ 64
        rw [hnew.generation]
        omega
    · rw [hinstalls, hkeeps.installedBy, ← hkeeps.generation]
      exact ih (hkeeps.dialed hs) hrest

/-- Up to `2 ^ 64` generations in a row are different. -/
theorem nodup_generations (start : Nat) {n : Nat} (h : n ≤ 2 ^ 64) :
    ((List.range n).map fun k => (start + k) % 2 ^ 64).Nodup := by
  refine List.Nodup.map_on ?_ List.nodup_range
  intro j hj k hk heq
  rw [List.mem_range] at hj hk
  omega

/-! ### After `close` -/

/-- The manager is closed and has no connection. -/
def System.Closed (s : System κ) : Prop := s.state.closed = true ∧ s.state.current = none

theorem System.Closed.step {s s' : System κ} {a : Step κ} (h : s.Closed) (hstep : s.step a = some s') :
    s'.Closed ∧ ∀ c i, (s'.callers c).selected = some i → (s.callers c).selected = some i := by
  obtain hinstalls | hkeeps := step_installs hstep
  · exact absurd (h.1.symm.trans hinstalls.isOpen) (by decide)
  · refine ⟨⟨hkeeps.closed h.1, ?_⟩, hkeeps.selects h.1⟩
    obtain hcurrent | hnone := hkeeps.current
    · rw [hcurrent, h.2]
    · exact hnone

theorem System.closed_of_close {s s' : System κ} {c : κ} (hstep : s.step (.close c) = some s') : s'.Closed := by
  simp only [step] at hstep
  split at hstep
  · cases hstep
    exact ⟨rfl, rfl⟩
  · cases hstep
    exact ⟨rfl, rfl⟩
  · cases hstep

theorem System.Closed.run {s t : System κ} {steps : List (Step κ)} (h : s.Closed) (hrun : s.run steps = some t) :
    t.Closed := by
  induction steps generalizing s with
  | nil =>
    cases hrun
    exact h
  | cons a rest ih =>
    obtain ⟨s', hstep, hrest⟩ := Option.bind_eq_some_iff.mp hrun
    exact ih (h.step hstep).1 hrest

theorem System.closed_of_mem {s t : System κ} {steps : List (Step κ)} {c : κ} (hclose : .close c ∈ steps)
    (hrun : s.run steps = some t) : t.Closed := by
  induction steps generalizing s with
  | nil => cases hclose
  | cons a rest ih =>
    obtain ⟨s', hstep, hrest⟩ := Option.bind_eq_some_iff.mp hrun
    obtain rfl | hmem := List.mem_cons.mp hclose
    · exact (closed_of_close hstep).run hrest
    · exact ih hmem hrest

omit [DecidableEq κ] in
theorem ConnectionState.invalidate_other {state : ConnectionState} {generation : Nat} {i : InstalledConnection}
    (hcurrent : state.current = some i) (h : i.generation ≠ generation) : state.invalidate generation = (state, none) := by
  have hother : generationIsCurrent (state.current.map InstalledConnection.generation) generation = false := by
    rw [hcurrent]
    exact decide_eq_false fun heq => h (Option.some.inj heq)
  rw [invalidate, hother, Bool.not_false, Bool.or_true, if_pos rfl]

/-- Whatever the callers do: one of them dials at a time; the connections installed so far have different
generations, unless more were installed than there are generations; a request that failed on a connection leaves
one of another generation where it is; and after a `close` no step installs a connection or gives one to a caller
that did not have it. -/
theorem System.connection_safe {steps : List (Step κ)} {s : System κ} (hrun : ({} : System κ).run steps = some s) :
    (∀ c d, (s.callers c).holdsFlag = true → (s.callers d).holdsFlag = true → c = d) ∧
      ((({} : System κ).installs steps).length ≤ 2 ^ 64 →
        ((({} : System κ).installs steps).map InstalledConnection.generation).Nodup) ∧
      (∀ generation s' i, s.step (.invalidate generation) = some s' → s.state.current = some i →
        i.generation ≠ generation → s'.state.current = some i) ∧
      ((∃ c, .close c ∈ steps) → ∀ a s', s.step a = some s' → s'.state.current = none ∧
        ∀ c i, (s'.callers c).selected = some i → (s.callers c).selected = some i) := by
  have hinit : ({} : System κ).view.OneDials := View.OneDials.of_nobody fun _ => rfl
  refine ⟨(hinit.run hrun).only, fun hfew => ?_, fun generation s' i hstep hcurrent hother => ?_, fun hclose => ?_⟩
  · have hnothing : ({} : System κ).Dialed := fun i hi => nomatch hi
    rw [generations_installs hnothing hrun]
    exact nodup_generations _ hfew
  · rw [step_invalidate, ConnectionState.invalidate_other hcurrent hother] at hstep
    obtain rfl := Option.some.inj hstep
    exact hcurrent
  · obtain ⟨c, hmem⟩ := hclose
    intro a s' hstep
    obtain ⟨hclosed, hselects⟩ := (closed_of_mem hmem hrun).step hstep
    exact ⟨hclosed.2, hselects⟩

/-- Two callers. The second is connecting when the manager is closed under it; its dial then ends with an error
and installs nothing. -/
theorem System.connection_safe_closed :
    ∃ s s' : System Bool, ({} : System Bool).run [.call true, .choose true, .connect true none, .close false] = some s ∧
      (s.callers true).holdsFlag = true ∧ s.step (.connected true (.ok ())) = some s' ∧
        s'.state.current = none ∧ (s'.callers true).selected = none := by
  obtain ⟨s, hrun⟩ : ∃ s, ({} : System Bool).run [.call true, .choose true, .connect true none, .close false] = some s :=
    ⟨_, rfl⟩
  have hs := hrun
  obtain ⟨-, -, -, hafter⟩ := connection_safe hrun
  cases hs
  obtain ⟨hnone, hselects⟩ := hafter ⟨false, by simp⟩ (.connected true (.ok ())) _ rfl
  refine ⟨_, _, hrun, rfl, rfl, hnone, Option.eq_none_iff_forall_ne_some.mpr fun i hi => ?_⟩
  cases hselects true i hi

end Dodb.Client
