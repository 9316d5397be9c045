import Mathlib

/-! The shared connection of the client.

Any number of callers share one connection and one lock. A caller that needs a connection looks under the lock
for one that is open; where there is none it dials, or sleeps until the next attempt, or waits for the caller
that is dialing to say that it is done. What a caller does between two looks under the lock is a step of its
own, so that the steps of several callers can come in any order, and a caller that is at an await point can be
dropped there.

A connection is a number, and `lost` are those with a close reason. `Notify` is the number of notifications
that were sent: a `notified` future remembers how many there were when it was created and is ready once there
are more. -/
namespace Dodb.Client

/-- Milliseconds. -/
abbrev Instant := Nat

abbrev Duration := Nat

def reconnectBackoffBase : Duration := 50
def reconnectBackoffMax : Duration := 1000

/-- Why there is no connection. -/
inductive ClientError
  | endpoint (detail : String)
  | transport (detail : String)
  deriving DecidableEq, Repr

/-- A connection and the generation it was installed as. -/
structure InstalledConnection where
  connection : Nat
  generation : Nat
  deriving DecidableEq, Repr

/-- What the callers of a client share. -/
structure ConnectionState where
  current : Option InstalledConnection := none
  generation : Nat := 0
  reconnecting : Bool := false
  failures : Nat := 0
  nextAttemptAt : Option Instant := none
  closed : Bool := false
  deriving DecidableEq, Repr

/-- What a caller without a connection does next. -/
inductive ReconnectAction
  | wait
  | sleep (duration : Duration)
  | dial
  deriving DecidableEq, Repr

/-- A failure of an older connection must not tear down the one installed since. -/
def generationIsCurrent (currentGeneration : Option Nat) (failedGeneration : Nat) : Bool :=
  decide (currentGeneration = some failedGeneration)

/-- Doubles with every failure, up to a maximum. -/
def reconnectDelay (failures : Nat) : Duration :=
  let shift := min (failures - 1) 5
  min (reconnectBackoffBase * 2 ^ shift) reconnectBackoffMax

/-! ### What is done under the lock -/

def explicitlyClosed : ClientError := .endpoint "client connection is explicitly closed"

/-- What a caller that looked for a connection does next. -/
inductive Choice
  | returns (result : Except ClientError InstalledConnection)
  | acts (action : ReconnectAction)

namespace ConnectionState

/-- Uses the installed connection, joins the dial that is under way, waits out the backoff, or begins to dial. -/
def ensureConnection (state : ConnectionState) (now : Instant) (lost : List Nat) : ConnectionState × Choice :=
  if state.closed then (state, .returns (.error explicitlyClosed))
  else match state.current.filter fun current => decide (current.connection ∉ lost) with
    | some current => (state, .returns (.ok current))
    | none =>
      let state := {state with current := none}
      if state.reconnecting then (state, .acts .wait)
      else match state.nextAttemptAt with
        | some nextAttemptAt =>
          if now < nextAttemptAt then (state, .acts (.sleep (nextAttemptAt - now)))
          else ({state with nextAttemptAt := none, reconnecting := true}, .acts .dial)
        | none => ({state with reconnecting := true}, .acts .dial)

/-- The end of `dial`, from what connecting answered. -/
def dial (state : ConnectionState) (now : Instant) (result : Except ClientError Nat) :
    ConnectionState × Except ClientError InstalledConnection :=
  let state := {state with reconnecting := false}
  match result with
  | .ok connection =>
    if state.closed then (state, .error explicitlyClosed)
    else
      let generation := (state.generation + 1) % 2 ^ 64
      let installed := ⟨connection, generation⟩
      ({state with generation, failures := 0, nextAttemptAt := none, current := some installed}, .ok installed)
  | .error error =>
    if state.closed then (state, .error error)
    else
      let failures := min (state.failures + 1) (2 ^ 32 - 1)
      ({state with failures, nextAttemptAt := some (now + reconnectDelay failures)}, .error error)

/-- Drops the connection if it still is the one that failed. -/
def invalidate (state : ConnectionState) (generation : Nat) : ConnectionState × Option InstalledConnection :=
  if state.closed || !generationIsCurrent (state.current.map InstalledConnection.generation) generation then (state, none)
  else ({state with current := none}, state.current)

/-- Drops the connection for good. -/
def close (state : ConnectionState) : ConnectionState × Option InstalledConnection :=
  ({state with closed := true, reconnecting := false, nextAttemptAt := none, current := none}, state.current)

end ConnectionState

/-! ### Callers -/

/-- Where a caller is. -/
inductive Phase
  | idle
  | entered (notified : Nat)
  | waiting (notified : Nat)
  | sleeping (wakeAt : Instant)
  /-- It is to dial and has not called the endpoint. -/
  | dialing
  | connecting
  /-- It has left the lock at the end of `dial` and has not notified the waiters. -/
  | dialed (result : Except ClientError InstalledConnection)
  | returned (result : Except ClientError InstalledConnection)
  /-- It has left the lock in `close` and has not notified the waiters. -/
  | closing

namespace Phase

/-- Between the choice to dial and the end of `dial`. -/
def inDial : Phase → Bool
  | dialing | connecting | dialed _ => true
  | _ => false

/-- Between the choice to dial and its last look under the lock. -/
def holdsFlag : Phase → Bool
  | dialing | connecting => true
  | _ => false

def isClosing : Phase → Bool
  | closing => true
  | _ => false

def willNotify (phase : Phase) : Bool := phase.inDial || phase.isClosing

end Phase

def Choice.phase (notified : Nat) (now : Instant) : Choice → Phase
  | .returns result => .returned result
  | .acts .wait => .waiting notified
  | .acts (.sleep duration) => .sleeping (now + duration)
  | .acts .dial => .dialing

/-- A client's connection and all its callers. -/
structure System (κ : Type) where
  state : ConnectionState := {}
  lost : List Nat := []
  connections : Nat := 0
  notified : Nat := 0
  now : Instant := 0
  callers : κ → Phase := fun _ => .idle

/-- What can happen to a client. Callers interleave in any way. -/
inductive Step (κ : Type)
  | call (c : κ)
  /-- The look under the lock. -/
  | choose (c : κ)
  | notification (c : κ)
  | wake (c : κ)
  /-- The endpoint takes the call, or refuses it. -/
  | connect (c : κ) (refused : Option String)
  /-- Connecting answers. -/
  | connected (c : κ) (result : Except String Unit)
  | notify (c : κ)
  /-- The caller's future is dropped at an await point. -/
  | cancel (c : κ)
  | close (c : κ)
  | invalidate (generation : Nat)
  | lose (connection : Nat)
  | pass (duration : Duration)

namespace System
variable {κ : Type} [DecidableEq κ]

def move (s : System κ) (c : κ) (phase : Phase) : System κ := {s with callers := Function.update s.callers c phase}

/-- A connection that is taken out of the state counts as lost. -/
def loseInstalled (s : System κ) (installed : Option InstalledConnection) : System κ :=
  {s with lost := (installed.map InstalledConnection.connection).toList ++ s.lost}

/-- The last look of a dial under the lock. -/
def finishDial (s : System κ) (c : κ) (result : Except ClientError Nat) : System κ :=
  let (state, answer) := s.state.dial s.now result
  {s.move c (.dialed answer) with state}

/-- One step, where the caller is where the step begins. -/
def step (s : System κ) : Step κ → Option (System κ)
  | .call c => match s.callers c with
    | .idle | .returned _ => some (s.move c (.entered s.notified))
    | _ => none
  | .choose c => match s.callers c with
    | .entered notified =>
      let (state, choice) := s.state.ensureConnection s.now s.lost
      some {s.move c (choice.phase notified s.now) with state}
    | _ => none
  | .notification c => match s.callers c with
    | .waiting notified => if notified < s.notified then some (s.move c (.entered s.notified)) else none
    | _ => none
  | .wake c => match s.callers c with
    | .sleeping wakeAt => if wakeAt ≤ s.now then some (s.move c (.entered s.notified)) else none
    | _ => none
  | .connect c refused => match s.callers c, refused with
    | .dialing, none => some (s.move c .connecting)
    | .dialing, some detail => some (s.finishDial c (.error (.endpoint detail)))
    | _, _ => none
  | .connected c result => match s.callers c, result with
    | .connecting, .ok _ => some {s.finishDial c (.ok s.connections) with
        connections := s.connections + 1
        lost := if s.state.closed then s.connections :: s.lost else s.lost}
    | .connecting, .error detail => some (s.finishDial c (.error (.transport detail)))
    | _, _ => none
  | .notify c => match s.callers c with
    | .dialed result => some {s.move c (.returned result) with notified := s.notified + 1}
    | .closing => some {s.move c .idle with notified := s.notified + 1}
    | _ => none
  | .cancel c => match s.callers c with
    | .waiting _ | .sleeping _ | .connecting => some (s.move c .idle)
    | _ => none
  | .close c => match s.callers c with
    | .idle | .returned _ =>
      let (state, installed) := s.state.close
      some {(s.move c .closing).loseInstalled installed with state}
    | _ => none
  | .invalidate generation =>
    let (state, installed) := s.state.invalidate generation
    some {s.loseInstalled installed with state}
  | .lose connection => some {s with lost := connection :: s.lost}
  | .pass duration => some {s with now := s.now + duration}

/-- The steps one after the other, if each is possible. -/
def run (s : System κ) : List (Step κ) → Option (System κ)
  | [] => some s
  | a :: rest => (s.step a).bind fun s => s.run rest

/-- Where no caller is on its way to clear the flag at the end of `dial`, the flag is clear, so that no caller
that looks for a connection is told to wait, and every caller that waits has been notified unless a caller is
about to do that. -/
def NotWedged (s : System κ) : Prop :=
  ((∀ c, (s.callers c).holdsFlag = false) → s.state.reconnecting = false ∧
    ∀ now lost, ∀ action, (s.state.ensureConnection now lost).2 = .acts action → action ≠ .wait) ∧
  ∀ c n, s.callers c = .waiting n → n < s.notified ∨ ∃ d, (s.callers d).willNotify = true

end System

/-! ### What a step does to the flag and the callers -/

/-- The part of the system that the callers coordinate by. -/
structure View (κ : Type) where
  reconnecting : Bool
  closed : Bool
  notified : Nat
  callers : κ → Phase

def System.view {κ : Type} (s : System κ) : View κ := ⟨s.state.reconnecting, s.state.closed, s.notified, s.callers⟩

section Moves
variable {κ : Type} [DecidableEq κ]

def View.move (v : View κ) (c : κ) (phase : Phase) : View κ := {v with callers := Function.update v.callers c phase}

/-- The steps other than the drop of a caller that is connecting. -/
inductive Moves (v : View κ) : View κ → Prop
  | stay : Moves v v
  | enter (c : κ) (h : (v.callers c).willNotify = false) : Moves v (v.move c (.entered v.notified))
  | wait (c : κ) (n : Nat) (h : v.callers c = .entered n) (hflag : v.reconnecting = true) : Moves v (v.move c (.waiting n))
  | rest (c : κ) (phase : Phase) (h : (v.callers c).willNotify = false) (hphase : phase.willNotify = false)
      (hnew : ∀ n, phase ≠ .entered n ∧ phase ≠ .waiting n) : Moves v (v.move c phase)
  | dial (c : κ) (n : Nat) (h : v.callers c = .entered n) (hflag : v.reconnecting = false) (hopen : v.closed = false) :
      Moves v {v.move c .dialing with reconnecting := true}
  | connect (c : κ) (h : v.callers c = .dialing) : Moves v (v.move c .connecting)
  | finish (c : κ) (result : Except ClientError InstalledConnection) (h : (v.callers c).holdsFlag = true) :
      Moves v {v.move c (.dialed result) with reconnecting := false}
  | notify (c : κ) (phase : Phase) (h : (v.callers c).holdsFlag = false) (hphase : phase.willNotify = false)
      (hnew : ∀ n, phase ≠ .entered n ∧ phase ≠ .waiting n) :
      Moves v {v.move c phase with notified := v.notified + 1}
  | close (c : κ) (h : (v.callers c).willNotify = false) :
      Moves v {v.move c .closing with reconnecting := false, closed := true}

omit [DecidableEq κ] in
theorem ConnectionState.ensureConnection_cases (state : ConnectionState) (now : Instant) (lost : List Nat) :
    (state.ensureConnection now lost).1.closed = state.closed ∧
      ((state.ensureConnection now lost).1.reconnecting = state.reconnecting ∧
          ((∃ result, (state.ensureConnection now lost).2 = .returns result) ∨
            ((state.ensureConnection now lost).2 = .acts .wait ∧ state.reconnecting = true) ∨
            ∃ duration, (state.ensureConnection now lost).2 = .acts (.sleep duration)) ∨
        (state.ensureConnection now lost).1.reconnecting = true ∧ (state.ensureConnection now lost).2 = .acts .dial ∧
          state.closed = false ∧ state.reconnecting = false) := by
  unfold ensureConnection
  by_cases hclosed : state.closed = true
  · rw [if_pos hclosed]
    exact ⟨rfl, .inl ⟨rfl, .inl ⟨_, rfl⟩⟩⟩
  rw [if_neg hclosed]
  have hopen : state.closed = false := Bool.eq_false_iff.mpr hclosed
  split
  · exact ⟨rfl, .inl ⟨rfl, .inl ⟨_, rfl⟩⟩⟩
  by_cases hflag : state.reconnecting = true
  · dsimp only
    rw [if_pos hflag]
    exact ⟨rfl, .inl ⟨rfl, .inr (.inl ⟨rfl, hflag⟩)⟩⟩
  dsimp only
  rw [if_neg hflag]
  have hclear : state.reconnecting = false := Bool.eq_false_iff.mpr hflag
  split
  · split
    · exact ⟨rfl, .inl ⟨rfl, .inr (.inr ⟨_, rfl⟩)⟩⟩
    · exact ⟨rfl, .inr ⟨rfl, rfl, hopen, hclear⟩⟩
  · exact ⟨rfl, .inr ⟨rfl, rfl, hopen, hclear⟩⟩

theorem System.moves_choose {s : System κ} {c : κ} {n : Nat} (h : s.callers c = .entered n) :
    Moves s.view
      {s.move c ((s.state.ensureConnection s.now s.lost).2.phase n s.now) with
        state := (s.state.ensureConnection s.now s.lost).1}.view := by
  obtain ⟨hclosed, hcases⟩ := s.state.ensureConnection_cases s.now s.lost
  have hfree : (s.view.callers c).willNotify = false := by
    show (s.callers c).willNotify = false
    rw [h]
    rfl
  show Moves s.view ⟨(s.state.ensureConnection s.now s.lost).1.reconnecting,
    (s.state.ensureConnection s.now s.lost).1.closed, s.notified, Function.update s.callers c
      ((s.state.ensureConnection s.now s.lost).2.phase n s.now)⟩
  rw [hclosed]
  obtain ⟨hsame, hchoice⟩ | ⟨hset, hdial, hopen, hclear⟩ := hcases
  · rw [hsame]
    obtain ⟨result, hresult⟩ | ⟨hwait, hflag⟩ | ⟨duration, hsleep⟩ := hchoice
    · rw [hresult]
      exact .rest c _ hfree rfl fun _ => ⟨nofun, nofun⟩
    · rw [hwait]
      exact .wait c n h hflag
    · rw [hsleep]
      exact .rest c _ hfree rfl fun _ => ⟨nofun, nofun⟩
  · rw [hset, hdial]
    exact .dial c n h hclear hopen

theorem ConnectionState.dial_state (state : ConnectionState) (now : Instant) (result : Except ClientError Nat) :
    (state.dial now result).1.reconnecting = false ∧ (state.dial now result).1.closed = state.closed := by
  unfold ConnectionState.dial
  cases result with
  | ok | error =>
    dsimp only
    split <;> exact ⟨rfl, rfl⟩

theorem System.moves_finishDial {s : System κ} {c : κ} (h : (s.callers c).holdsFlag = true)
    (result : Except ClientError Nat) : Moves s.view (s.finishDial c result).view := by
  obtain ⟨hflag, hclosed⟩ := s.state.dial_state s.now result
  have hview : (s.finishDial c result).view =
      {s.view.move c (.dialed (s.state.dial s.now result).2) with reconnecting := false} := by
    unfold System.finishDial System.view
    dsimp only
    rw [hflag, hclosed]
    rfl
  rw [hview]
  exact .finish c _ h

/-- What a step does: it drops a caller that is connecting, or it is one of the moves. -/
theorem System.step_moves {s s' : System κ} {a : Step κ} (h : s.step a = some s') :
    (∃ c, a = .cancel c ∧ s.callers c = .connecting ∧ s' = s.move c .idle) ∨ Moves s.view s'.view := by
  have hview : ∀ {c : κ} {phase : Phase}, s.callers c = phase → phase.willNotify = false →
      (s.view.callers c).willNotify = false := by
    intro c phase hphase hfree
    show (s.callers c).willNotify = false
    rw [hphase]
    exact hfree
  cases a with
  | call c =>
    simp only [step] at h
    split at h <;> cases h <;> exact .inr (.enter c (hview ‹_› rfl))
  | choose c =>
    simp only [step] at h
    split at h
    · cases h
      exact .inr (moves_choose ‹_›)
    · cases h
  | notification c | wake c =>
    simp only [step] at h
    split at h
    · split at h
      · cases h
        exact .inr (.enter c (hview ‹_› rfl))
      · cases h
    · cases h
  | connect c refused =>
    simp only [step] at h
    split at h
    · cases h
      exact .inr (.connect c ‹_›)
    · cases h
      exact .inr (moves_finishDial (by rw [‹s.callers c = _›]; rfl) _)
    · cases h
  | connected c result =>
    simp only [step] at h
    split at h
    · cases h
      exact .inr (moves_finishDial (by rw [‹s.callers c = _›]; rfl) (.ok s.connections))
    · cases h
      exact .inr (moves_finishDial (by rw [‹s.callers c = _›]; rfl) _)
    · cases h
  | notify c =>
    simp only [step] at h
    split at h <;> cases h
    all_goals
      exact .inr (.notify c _ (by show (s.callers c).holdsFlag = false; rw [‹s.callers c = _›]; rfl) rfl fun _ => ⟨nofun, nofun⟩)
  | cancel c =>
    simp only [step] at h
    split at h
    · cases h
      exact .inr (.rest c .idle (hview ‹_› rfl) rfl fun _ => ⟨nofun, nofun⟩)
    · cases h
      exact .inr (.rest c .idle (hview ‹_› rfl) rfl fun _ => ⟨nofun, nofun⟩)
    · cases h
      exact .inl ⟨c, rfl, ‹_›, rfl⟩
    · cases h
  | close c =>
    simp only [step] at h
    split at h <;> cases h <;> exact .inr (.close c (hview ‹_› rfl))
  | invalidate generation =>
    cases h
    refine .inr ?_
    show Moves s.view ⟨(s.state.invalidate generation).1.reconnecting, (s.state.invalidate generation).1.closed, _, _⟩
    unfold ConnectionState.invalidate
    split <;> exact .stay
  | lose | pass =>
    cases h
    exact .inr .stay

theorem System.step_cancel {s : System κ} {c : κ} (h : s.callers c = .connecting) :
    s.step (.cancel c) = some (s.move c .idle) := by
  simp only [step, h]

/-! ### What holds of every run without such a drop -/

/-- The flag is set by a caller that holds it, only one does while the manager is open, and a caller that
waits has been notified or will be: by the caller that closes the manager, once it is closed. -/
structure Inv (v : View κ) : Prop where
  held : v.reconnecting = true → ∃ c, (v.callers c).holdsFlag = true
  only : v.closed = false → ∀ c, (v.callers c).holdsFlag = true → v.reconnecting = true ∧
    ∀ d, (v.callers d).holdsFlag = true → d = c
  closed : v.closed = true → v.reconnecting = false
  created : ∀ c n, v.callers c = .entered n ∨ v.callers c = .waiting n → n ≤ v.notified
  waiters : ∀ c n, v.callers c = .waiting n → n < v.notified ∨ ∃ d, (v.callers d).willNotify = true
  closers : v.closed = true → ∀ c n, v.callers c = .waiting n → n < v.notified ∨ ∃ d, (v.callers d).isClosing = true

theorem View.callers_move_of_ne (v : View κ) {c d : κ} (phase : Phase) (h : d ≠ c) :
    (v.move c phase).callers d = v.callers d := Function.update_of_ne h ..

@[simp] theorem View.callers_move_same (v : View κ) (c : κ) (phase : Phase) : (v.move c phase).callers c = phase :=
  Function.update_self ..

/-- What is the same of a caller before and after it moves is the same of every caller. -/
theorem View.kept (v : View κ) {c : κ} {phase : Phase} {q : Phase → Bool} (h : q phase = q (v.callers c)) (d : κ) :
    q ((v.move c phase).callers d) = q (v.callers d) := by
  by_cases hd : d = c
  · rw [hd, callers_move_same, h]
  · rw [v.callers_move_of_ne phase hd]

section Phases
omit [DecidableEq κ]
variable {phase : Phase}

theorem Phase.inDial_of_holdsFlag (h : phase.holdsFlag = true) : phase.inDial = true := by
  cases phase <;> first | rfl | cases h

theorem Phase.willNotify_of_holdsFlag (h : phase.holdsFlag = true) : phase.willNotify = true := by
  rw [willNotify, inDial_of_holdsFlag h, Bool.true_or]

theorem Phase.isClosing_of_holdsFlag (h : phase.holdsFlag = true) : phase.isClosing = false := by
  cases phase <;> first | rfl | cases h

theorem Phase.holdsFlag_of_free (h : phase.willNotify = false) : phase.holdsFlag = false := by
  by_contra hholds
  rw [willNotify_of_holdsFlag (Bool.of_not_eq_false hholds)] at h
  cases h

theorem Phase.isClosing_of_free (h : phase.willNotify = false) : phase.isClosing = false :=
  (Bool.or_eq_false_iff.mp h).2

end Phases

namespace Inv
variable {v : View κ} {c : κ} {phase : Phase}

theorem created_move (h : Inv v) (hphase : ∀ n, phase = .entered n ∨ phase = .waiting n → n ≤ v.notified) (d : κ) (n : Nat)
    (hd : (v.move c phase).callers d = .entered n ∨ (v.move c phase).callers d = .waiting n) : n ≤ v.notified := by
  by_cases hdc : d = c
  · rw [hdc, View.callers_move_same] at hd
    exact hphase n hd
  · rw [v.callers_move_of_ne phase hdc] at hd
    exact h.created d n hd

/-- Callers that wait have been notified or will be, by a caller as `q` says, where `c` moves without a change
to `q`. -/
theorem waiters_move {q : Phase → Bool} (h : ∀ d n, v.callers d = .waiting n → n < v.notified ∨ ∃ e, q (v.callers e) = true)
    (hq : q phase = q (v.callers c)) (hphase : ∀ n, phase = .waiting n → n < v.notified ∨ ∃ e, q (v.callers e) = true)
    (d : κ) (n : Nat) (hd : (v.move c phase).callers d = .waiting n) :
    n < v.notified ∨ ∃ e, q ((v.move c phase).callers e) = true := by
  have hwaiting : n < v.notified ∨ ∃ e, q (v.callers e) = true := by
    by_cases hdc : d = c
    · rw [hdc, View.callers_move_same] at hd
      exact hphase n hd
    · rw [v.callers_move_of_ne phase hdc] at hd
      exact h d n hd
  obtain hsent | ⟨e, he⟩ := hwaiting
  · exact .inl hsent
  · exact .inr ⟨e, by rw [v.kept hq]; exact he⟩

/-- A move between phases that hold the flag, and owe a notification, alike. -/
theorem move (h : Inv v) (hflag : phase.holdsFlag = (v.callers c).holdsFlag)
    (hnotify : phase.willNotify = (v.callers c).willNotify) (hclosing : phase.isClosing = (v.callers c).isClosing)
    (hcreated : ∀ n, phase = .entered n ∨ phase = .waiting n → n ≤ v.notified)
    (hwaits : ∀ n, phase = .waiting n → v.closed = false ∧ ∃ d, (v.callers d).willNotify = true) :
    Inv (v.move c phase) where
  held := by
    intro hset
    obtain ⟨d, hd⟩ := h.held hset
    exact ⟨d, by rw [v.kept hflag]; exact hd⟩
  only := by
    intro hopen d hd
    rw [v.kept hflag] at hd
    obtain ⟨hset, hall⟩ := h.only hopen d hd
    refine ⟨hset, fun e he => hall e ?_⟩
    rwa [v.kept hflag] at he
  closed := h.closed
  created := h.created_move hcreated
  waiters := waiters_move h.waiters hnotify fun n hn => .inr (hwaits n hn).2
  closers := by
    intro hclosed
    refine waiters_move (h.closers hclosed) hclosing fun n hn => ?_
    have hopen := (hwaits n hn).1
    rw [show v.closed = true from hclosed] at hopen
    cases hopen

theorem dial (h : Inv v) (hclear : v.reconnecting = false) (hopen : v.closed = false) :
    Inv {v.move c .dialing with reconnecting := true} where
  held _ := ⟨c, by rw [View.callers_move_same]; rfl⟩
  only := by
    -- nobody else held the flag, since it was clear
    have hnobody : ∀ d, ((v.move c .dialing).callers d).holdsFlag = true → d = c := by
      intro d hd
      by_contra hdc
      rw [v.callers_move_of_ne _ hdc] at hd
      have hset := (h.only hopen d hd).1
      rw [hclear] at hset
      cases hset
    intro _ d hd
    refine ⟨rfl, fun e he => ?_⟩
    rw [hnobody d hd, hnobody e he]
  closed hclosed := absurd (hopen.symm.trans hclosed) (by decide)
  created := h.created_move fun n hn => by cases hn <;> contradiction
  waiters _ _ _ := .inr ⟨c, by rw [View.callers_move_same]; rfl⟩
  closers hclosed := absurd (hopen.symm.trans hclosed) (by decide)

theorem finish (h : Inv v) (hc : (v.callers c).holdsFlag = true) (result : Except ClientError InstalledConnection) :
    Inv {v.move c (.dialed result) with reconnecting := false} where
  held := nofun
  only := by
    -- only `c` held the flag, and it gives it up
    intro hopen d hd
    by_cases hdc : d = c
    · rw [hdc, View.callers_move_same] at hd
      cases hd
    · rw [v.callers_move_of_ne _ hdc] at hd
      exact absurd ((h.only hopen c hc).2 d hd) hdc
  closed _ := rfl
  created := h.created_move fun n hn => by cases hn <;> contradiction
  waiters _ _ _ := .inr ⟨c, by rw [View.callers_move_same]; rfl⟩
  closers hclosed := waiters_move (h.closers hclosed) (Phase.isClosing_of_holdsFlag hc).symm nofun

theorem notify (h : Inv v) (hc : (v.callers c).holdsFlag = false) (hphase : phase.willNotify = false)
    (hnew : ∀ n, phase ≠ .entered n ∧ phase ≠ .waiting n) : Inv {v.move c phase with notified := v.notified + 1} := by
  have hflag : phase.holdsFlag = (v.callers c).holdsFlag := by
    rw [hc]
    exact Phase.holdsFlag_of_free hphase
  have hcreated : ∀ d n, (v.move c phase).callers d = .entered n ∨ (v.move c phase).callers d = .waiting n →
      n ≤ v.notified := by
    refine h.created_move fun n hn => ?_
    obtain ⟨hentered, hwaiting⟩ := hnew n
    exact (hn.elim hentered hwaiting).elim
  have hsent : ∀ d n, (v.move c phase).callers d = .waiting n → n < v.notified + 1 :=
    fun d n hd => Nat.lt_succ_of_le (hcreated d n (.inr hd))
  refine ⟨fun hset => ?_, fun hopen d hd => ?_, h.closed, fun d n hd => Nat.le_succ_of_le (hcreated d n hd),
    fun d n hd => .inl (hsent d n hd), fun _ d n hd => .inl (hsent d n hd)⟩
  · obtain ⟨d, hd⟩ := h.held hset
    exact ⟨d, by rw [v.kept hflag]; exact hd⟩
  · rw [v.kept hflag] at hd
    obtain ⟨hset, hall⟩ := h.only hopen d hd
    refine ⟨hset, fun e he => hall e ?_⟩
    rwa [v.kept hflag] at he

theorem close (h : Inv v) : Inv {v.move c .closing with reconnecting := false, closed := true} where
  held := nofun
  only := nofun
  closed _ := rfl
  created := h.created_move fun n hn => by cases hn <;> contradiction
  waiters _ _ _ := .inr ⟨c, by rw [View.callers_move_same]; rfl⟩
  closers _ _ _ _ := .inr ⟨c, by rw [View.callers_move_same]; rfl⟩

theorem moves {v' : View κ} (h : Inv v) (hmoves : Moves v v') : Inv v' := by
  cases hmoves with
  | stay => exact h
  | enter c hc =>
    refine h.move (Phase.holdsFlag_of_free hc).symm hc.symm (Phase.isClosing_of_free hc).symm ?_ nofun
    intro n hn
    rcases hn with hn | hn
    · cases hn
      exact Nat.le_refl _
    · cases hn
  | wait c n hc hset =>
    have hopen : v.closed = false := by
      by_contra hclosed
      rw [h.closed (by simpa using hclosed)] at hset
      cases hset
    obtain ⟨d, hd⟩ := h.held hset
    refine h.move (by rw [hc]; rfl) (by rw [hc]; rfl) (by rw [hc]; rfl) ?_ fun _ _ =>
      ⟨hopen, d, Phase.willNotify_of_holdsFlag hd⟩
    intro k hk
    rcases hk with hk | hk
    · cases hk
    · cases hk
      exact h.created c n (.inl hc)
  | rest c phase hc hphase hnew =>
    refine h.move ?_ (hphase.trans hc.symm) ?_ ?_ ?_
    · rw [Phase.holdsFlag_of_free hphase, Phase.holdsFlag_of_free hc]
    · rw [Phase.isClosing_of_free hphase, Phase.isClosing_of_free hc]
    · exact fun n hn => (hn.elim (hnew n).1 (hnew n).2).elim
    · exact fun n hn => ((hnew n).2 hn).elim
  | dial c n _ hclear hopen => exact h.dial hclear hopen
  | connect c hc =>
    refine h.move (by rw [hc]; rfl) (by rw [hc]; rfl) (by rw [hc]; rfl) ?_ nofun
    exact fun n hn => by cases hn <;> contradiction
  | finish c result hc => exact h.finish hc result
  | notify c phase hc hphase hnew => exact h.notify hc hphase hnew
  | close c _ => exact h.close

/-- A caller that is dropped while it connects leaves nothing behind once the manager is closed. -/
theorem drop (h : Inv v) (hclosed : v.closed = true) (hc : v.callers c = .connecting) : Inv (v.move c .idle) where
  held hset := absurd ((h.closed hclosed).symm.trans hset) (by decide)
  only hopen := absurd (hclosed.symm.trans hopen) (by decide)
  closed := h.closed
  created := h.created_move fun n hn => by cases hn <;> contradiction
  waiters := by
    intro d n hd
    obtain hsent | ⟨e, he⟩ := @waiters_move _ _ v c .idle _ (h.closers hclosed) (by rw [hc]; rfl) nofun d n hd
    · exact .inl hsent
    · exact .inr ⟨e, by rw [Phase.willNotify, he, Bool.or_true]⟩
  closers _ := waiters_move (h.closers hclosed) (by rw [hc]; rfl) nofun

omit [DecidableEq κ] in
theorem init : Inv ({} : System κ).view where
  held := nofun
  only := nofun
  closed := nofun
  created := by
    intro c n hn
    cases hn <;> contradiction
  waiters := nofun
  closers := nofun

omit [DecidableEq κ] in
theorem notWedged {s : System κ} (h : Inv s.view) : s.NotWedged := by
  refine ⟨fun hnobody => ?_, h.waiters⟩
  have hclear : s.state.reconnecting = false := by
    by_contra hset
    obtain ⟨c, hc⟩ := h.held (Bool.of_not_eq_false hset)
    rw [show (s.view.callers c).holdsFlag = false from hnobody c] at hc
    cases hc
  refine ⟨hclear, fun now lost action haction hwait => ?_⟩
  rw [hwait] at haction
  obtain ⟨-, ⟨-, ⟨_, h'⟩ | ⟨-, hset⟩ | ⟨_, h'⟩⟩ | ⟨-, h', -⟩⟩ := s.state.ensureConnection_cases now lost
  · rw [haction] at h'
    cases h'
  · rw [hclear] at hset
    cases hset
  · rw [haction] at h'
    cases h'
  · rw [haction] at h'
    cases h'

theorem step {s s' : System κ} {a : Step κ} (h : Inv s.view) (hstep : s.step a = some s')
    (hkept : ∀ c, a = .cancel c → s.state.closed = false → s.callers c ≠ .connecting) : Inv s'.view := by
  obtain ⟨c, ha, hc, rfl⟩ | hmoves := s.step_moves hstep
  · have hclosed : s.state.closed = true := by
      by_contra hopen
      exact hkept c ha (Bool.eq_false_iff.mpr hopen) hc
    exact h.drop hclosed hc
  · exact h.moves hmoves

theorem run {s t : System κ} {steps : List (Step κ)} (h : Inv s.view) (hrun : s.run steps = some t)
    (hkept : ∀ before c after u, steps = before ++ .cancel c :: after → s.run before = some u →
      u.state.closed = false → u.callers c ≠ .connecting) : Inv t.view := by
  induction steps generalizing s with
  | nil =>
    cases hrun
    exact h
  | cons a rest ih =>
    obtain ⟨s₁, hstep, hrest⟩ := Option.bind_eq_some_iff.mp hrun
    refine ih (h.step hstep fun c ha => ?_) hrest fun before c after u hsplit hu => ?_
    · exact hkept [] c rest s (by rw [ha]; rfl) rfl
    · refine hkept (a :: before) c after u (by rw [hsplit]; rfl) ?_
      rw [System.run, hstep]
      exact hu

/-- A caller dropped while it connects leaves the flag set, and nobody to clear it. -/
theorem drop_wedges {s : System κ} {c : κ} (h : Inv s.view) (hopen : s.state.closed = false)
    (hc : s.callers c = .connecting) : ¬(s.move c .idle).NotWedged := by
  intro hnot
  obtain ⟨hset, hall⟩ := h.only hopen c (by rw [show s.view.callers c = .connecting from hc]; rfl)
  have hnobody : ∀ d, ((s.move c .idle).callers d).holdsFlag = false := by
    intro d
    by_cases hdc : d = c
    · rw [hdc]
      show (Function.update s.callers c .idle c).holdsFlag = false
      rw [Function.update_self]
      rfl
    · show (Function.update s.callers c .idle d).holdsFlag = false
      rw [Function.update_of_ne hdc]
      by_contra hd
      exact hdc (hall d (Bool.of_not_eq_false hd))
  have hclear : s.state.reconnecting = false := (hnot.1 hnobody).1
  rw [show s.view.reconnecting = false from hclear] at hset
  cases hset

theorem run_of_notWedged {s t : System κ} {steps : List (Step κ)} (h : Inv s.view) (hrun : s.run steps = some t)
    (hnot : ∀ before after u, steps = before ++ after → s.run before = some u → u.NotWedged) : Inv t.view := by
  induction steps generalizing s with
  | nil =>
    cases hrun
    exact h
  | cons a rest ih =>
    obtain ⟨s₁, hstep, hrest⟩ := Option.bind_eq_some_iff.mp hrun
    have hnext : ∀ {before : List (Step κ)}, s.run (a :: before) = s₁.run before := by
      intro before
      rw [System.run, hstep, Option.bind_some]
    refine ih (h.step hstep fun c ha hopen hc => ?_) hrest fun before after u hsplit hu => ?_
    · refine h.drop_wedges hopen hc (hnot [a] rest _ rfl ?_)
      rw [ha, System.run, System.step_cancel hc]
      rfl
    · exact hnot (a :: before) after u (by rw [hsplit]; rfl) (hnext.trans hu)

end Inv

theorem System.run_append (s : System κ) (a b : List (Step κ)) :
    s.run (a ++ b) = (s.run a).bind fun t => t.run b := by
  induction a generalizing s with
  | nil => rfl
  | cons x rest ih =>
    rw [List.cons_append, run, run, Option.bind_assoc]
    exact congrArg _ (funext ih)

/-- After any steps of any number of callers the manager is not wedged, just when no step drops a caller that is
connecting while the manager is open. -/
theorem notWedged_iff (steps : List (Step κ)) :
    (∀ before after t, steps = before ++ after → System.run {} before = some t → t.NotWedged) ↔
      ∀ before c after t, steps = before ++ .cancel c :: after → System.run {} before = some t →
        t.state.closed = false → t.callers c ≠ .connecting := by
  constructor
  · intro hnot before c after t hsplit ht hopen hc
    have hinv : Inv t.view := Inv.init.run_of_notWedged ht fun first second u hfirst hu =>
      hnot first (second ++ .cancel c :: after) u (by rw [hsplit, hfirst, List.append_assoc]) hu
    refine hinv.drop_wedges hopen hc (hnot (before ++ [.cancel c]) after _ (by simp [hsplit]) ?_)
    rw [System.run_append, ht, Option.bind_some, System.run, System.step_cancel hc]
    rfl
  · intro hkept before after t hsplit ht
    refine (Inv.init.run ht fun first c second u hfirst hu => ?_).notWedged
    exact hkept first c (second ++ after) u (by rw [hsplit, hfirst]; simp) hu

/-- The flag is set and nobody is on its way to clear it, or the manager is closed. -/
def View.Stuck (v : View κ) : Prop :=
  v.closed = true ∨ v.reconnecting = true ∧ ∀ c, (v.callers c).holdsFlag = false

theorem View.Stuck.moves {v v' : View κ} (h : v.Stuck) (hmoves : Moves v v') : v'.Stuck := by
  obtain hclosed | ⟨hset, hnobody⟩ := h
  · left
    cases hmoves with
    | dial c n _ _ hopen => exact absurd (hopen.symm.trans hclosed) (by decide)
    | close c _ => rfl
    | _ => exact hclosed
  have hfree : ∀ {c : κ} {phase : Phase}, phase.holdsFlag = false → ∀ d, ((v.move c phase).callers d).holdsFlag = false := by
    intro c phase hphase d
    rw [v.kept (hphase.trans (hnobody c).symm)]
    exact hnobody d
  cases hmoves with
  | stay => exact .inr ⟨hset, hnobody⟩
  | enter | wait => exact .inr ⟨hset, hfree rfl⟩
  | dial c n _ hclear _ => exact absurd (hset.symm.trans hclear) (by decide)
  | connect c hc =>
    have hnot := hnobody c
    rw [hc] at hnot
    cases hnot
  | finish c result hc => exact absurd ((hnobody c).symm.trans hc) (by decide)
  | rest c phase _ hphase _ | notify c phase _ hphase _ => exact .inr ⟨hset, hfree (Phase.holdsFlag_of_free hphase)⟩
  | close c _ => exact .inl rfl

theorem View.Stuck.step {s s' : System κ} {a : Step κ} (h : s.view.Stuck) (hstep : s.step a = some s') : s'.view.Stuck := by
  obtain ⟨c, -, hc, rfl⟩ | hmoves := s.step_moves hstep
  · obtain hclosed | ⟨-, hnobody⟩ := h
    · exact .inl hclosed
    · have hnot := hnobody c
      rw [show s.view.callers c = .connecting from hc] at hnot
      cases hnot
  · exact h.moves hmoves

/-- Once the flag is set and nobody is on its way to clear it, it stays set until the manager is closed: no
caller dials, and every caller that finds no connection is told to wait. -/
theorem wedged_until_closed {s t : System κ} {steps : List (Step κ)} (hset : s.state.reconnecting = true)
    (hnobody : ∀ c, (s.callers c).holdsFlag = false) (hrun : s.run steps = some t) (hopen : t.state.closed = false) :
    t.state.reconnecting = true ∧ ∀ c, (t.callers c).holdsFlag = false := by
  have hstuck : t.view.Stuck := by
    have hstart : s.view.Stuck := .inr ⟨hset, hnobody⟩
    clear hset hnobody
    induction steps generalizing s with
    | nil =>
      cases hrun
      exact hstart
    | cons a rest ih =>
      obtain ⟨s₁, hstep, hrest⟩ := Option.bind_eq_some_iff.mp hrun
      exact ih hrest (hstart.step hstep)
  exact hstuck.resolve_left fun hclosed => absurd (hopen.symm.trans hclosed) (by decide)

end Moves

/-- Two callers. The first is dropped while it connects; the second then waits for a notification that nobody
will send. -/
theorem dropped_dial_wedges :
    ∃ s : System Bool, System.run {} [.call true, .choose true, .connect true none, .cancel true, .call false, .choose false] =
        some s ∧ (∀ c, (s.callers c).inDial = false) ∧ s.state.closed = false ∧ s.state.reconnecting = true ∧
      s.callers false = .waiting s.notified ∧ ∀ c, (s.callers c).willNotify = false := by
  refine ⟨_, rfl, ?_, rfl, rfl, rfl, ?_⟩
  · intro c
    cases c <;> rfl
  · intro c
    cases c <;> rfl

end Dodb.Client
