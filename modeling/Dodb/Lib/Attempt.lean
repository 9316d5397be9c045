import Dodb.Lib.Bytes
import Dodb.Lib.Io

/-! Computations that answer, fail, or panic.

An `Attempt` is what a function does that is written with partial operations: indexing, slicing, conversions to arrays
of a fixed size, additions of machine words. Each of these panics when it is out of range. `total x` is a computation
that does not panic, with the answer or the failure of `x`; a function never panics when it is `total` of one that
has no partial operations. -/
namespace Dodb.Lib

/-- Nothing for a panic. -/
def Attempt (ε α : Type) : Type := Option (Except ε α)

namespace Attempt
variable {ε α β : Type}

/-- A run that ends in a panic. -/
def panic : Attempt ε α := none

/-- Answers or fails as `x` does. -/
def total (x : Except ε α) : Attempt ε α := some x

protected def bind (m : Attempt ε α) (f : α → Attempt ε β) : Attempt ε β :=
  match m with
  | none => none
  | some (.error e) => some (.error e)
  | some (.ok a) => f a

instance : Monad (Attempt ε) where
  pure a := total (.ok a)
  bind := Attempt.bind

theorem pure_eq (a : α) : (pure a : Attempt ε α) = total (pure a) := rfl

@[simp] theorem pure_bind (a : α) (f : α → Attempt ε β) : (pure a : Attempt ε α) >>= f = f a := rfl

theorem total_bind (x : Except ε α) (f : α → Except ε β) : (total x >>= fun a => total (f a)) = total (x >>= f) := by
  cases x <;> rfl

/-- A computation that goes on as far as a total one does, and is total from there on. -/
theorem total_bind_eq {x : Except ε α} {f : α → Attempt ε β} {g : α → Except ε β}
    (h : ∀ a, x = .ok a → f a = total (g a)) : total x >>= f = total (x >>= g) := by
  cases x with
  | ok a => exact h a rfl
  | error e => rfl

/-- What comes of a computation, to be looked at; a panic is not caught. -/
def caught {δ : Type} (m : Attempt δ α) : Attempt ε (Except δ α) :=
  match m with
  | none => panic
  | some x => pure x

theorem caught_total_bind {δ : Type} (x : Except δ α) (f : Except δ α → Attempt ε β) : caught (total x) >>= f = f x := rfl

theorem bind_assoc {γ : Type} (m : Attempt ε α) (f : α → Attempt ε β) (g : β → Attempt ε γ) :
    m >>= f >>= g = m >>= fun a => f a >>= g := by
  obtain _ | _ | a := m <;> rfl

instance : LawfulMonad (Attempt ε) := LawfulMonad.mk' (Attempt ε)
  (fun m => by obtain _ | _ | a := m <;> rfl)
  (fun _ _ => rfl)
  bind_assoc

theorem mapM_total {γ : Type} {f : γ → Attempt ε α} {g : γ → Except ε α} {l : List γ} (h : ∀ c ∈ l, f c = total (g c)) :
    l.mapM f = total (l.mapM g) := by
  induction l with
  | nil => rfl
  | cons c rest ih =>
    rw [List.mapM_cons, List.mapM_cons, h c List.mem_cons_self]
    refine total_bind_eq fun a _ => ?_
    rw [ih fun d hd => h d (List.mem_cons_of_mem _ hd)]
    exact total_bind_eq fun _ _ => rfl

/-! ### Partial operations -/

/-- The largest machine word. -/
def wordMax : Nat := 2 ^ 64 - 1

/-- The longest string of bytes that can be in memory. -/
def sizeMax : Nat := 2 ^ 63 - 1

/-- Goes on when `c` holds and panics when it does not. -/
def assert (c : Prop) [Decidable c] : Attempt ε Unit := if c then pure () else panic

/-- `l[i]` -/
def index (l : List α) (i : Nat) : Attempt ε α :=
  match l[i]? with
  | some a => pure a
  | none => panic

/-- `bytes[start..stop]` -/
def range (bytes : Bytes) (start stop : Nat) : Attempt ε Bytes := do
  assert (start ≤ stop ∧ stop ≤ bytes.length)
  pure (slice bytes start (stop - start))

/-- `bytes[start..]` -/
def rangeFrom (bytes : Bytes) (start : Nat) : Attempt ε Bytes := do
  assert (start ≤ bytes.length)
  pure (bytes.drop start)

/-- A slice as an array of `n` bytes. -/
def array (n : Nat) (bytes : Bytes) : Attempt ε Bytes := do
  assert (bytes.length = n)
  pure bytes

/-- The bytes from `start` to `stop` as an array of `n`. -/
def field (n : Nat) (bytes : Bytes) (start stop : Nat) : Attempt ε Bytes := do
  let bytes ← range bytes start stop
  array n bytes

/-- `option.expect(..)` -/
def expect : Option α → Attempt ε α
  | some a => pure a
  | none => panic

def add (a b : Nat) : Attempt ε Nat := do
  assert (a + b ≤ wordMax)
  pure (a + b)

def sub (a b : Nat) : Attempt ε Nat := do
  assert (b ≤ a)
  pure (a - b)

def mul (a b : Nat) : Attempt ε Nat := do
  assert (a * b ≤ wordMax)
  pure (a * b)

/-- The addition that reports an overflow. -/
def addOrFail (e : ε) (a b : Nat) : Attempt ε Nat := total (if a + b ≤ wordMax then .ok (a + b) else .error e)

def mulOrFail (e : ε) (a b : Nat) : Attempt ε Nat := total (if a * b ≤ wordMax then .ok (a * b) else .error e)

def require (c : Prop) [Decidable c] (e : ε) : Attempt ε Unit := total (ensure c e)

/-- A slice, byte by byte. -/
theorem slice_eq_map {bytes : Bytes} {start n : Nat} (h : start + n ≤ bytes.length) :
    slice bytes start n = (List.range n).map fun i => bytes.getD (start + i) 0 := by
  apply List.ext_getElem
  · rw [length_slice _ _ _ h, List.length_map, List.length_range]
  · intro i hi _
    rw [length_slice _ _ _ h] at hi
    have hlt : start + i < bytes.length := by omega
    simp [slice, List.getElem?_eq_getElem hlt]

/-! ### In range -/

section InRange
variable {bytes : Bytes} {start stop n a b : Nat} {f : Bytes → Attempt ε β} {g : Nat → Attempt ε β}

theorem assert_bind {c : Prop} [Decidable c] (h : c) (f : Unit → Attempt ε β) : assert c >>= f = f () := by
  rw [assert, if_pos h]
  rfl

theorem index_bind {l : List α} {i : Nat} (h : i < l.length) (d : α) (f : α → Attempt ε β) :
    index l i >>= f = f (l.getD i d) := by
  rw [index, List.getElem?_eq_getElem h, List.getD_eq_getElem _ _ h]
  rfl

theorem byte_bind {i : Nat} (h : i < bytes.length) (f : UInt8 → Attempt ε β) : index bytes i >>= f = f (bytes.getD i 0) :=
  index_bind h 0 f

theorem range_bind (h : start ≤ stop ∧ stop ≤ bytes.length) :
    range bytes start stop >>= f = f (slice bytes start (stop - start)) := by
  rw [range, bind_assoc, assert_bind h, pure_bind]

theorem rangeFrom_bind (h : start ≤ bytes.length) : rangeFrom bytes start >>= f = f (bytes.drop start) := by
  rw [rangeFrom, bind_assoc, assert_bind h, pure_bind]

theorem array_bind (h : bytes.length = n) : array n bytes >>= f = f bytes := by
  rw [array, bind_assoc, assert_bind h, pure_bind]

theorem field_bind (h : start + n = stop ∧ stop ≤ bytes.length) : field n bytes start stop >>= f = f (slice bytes start n) := by
  have hn : stop - start = n := by omega
  rw [field, bind_assoc, range_bind (by omega), hn, array_bind (length_slice _ _ _ (by omega))]

theorem add_bind (h : a + b ≤ wordMax) : add a b >>= g = g (a + b) := by
  rw [add, bind_assoc, assert_bind h, pure_bind]

theorem sub_bind (h : b ≤ a) : sub a b >>= g = g (a - b) := by
  rw [sub, bind_assoc, assert_bind h, pure_bind]

theorem mul_bind (h : a * b ≤ wordMax) : mul a b >>= g = g (a * b) := by
  rw [mul, bind_assoc, assert_bind h, pure_bind]

theorem addOrFail_bind (h : a + b ≤ wordMax) (e : ε) : addOrFail e a b >>= g = g (a + b) := by
  rw [addOrFail, if_pos h]
  rfl

theorem mulOrFail_bind (h : a * b ≤ wordMax) (e : ε) : mulOrFail e a b >>= g = g (a * b) := by
  rw [mulOrFail, if_pos h]
  rfl

end InRange

/-- What is required holds from there on. -/
theorem require_bind {c : Prop} [Decidable c] {e : ε} {f : Unit → Attempt ε β} {g : Unit → Except ε β}
    (h : c → f () = total (g ())) : require c e >>= f = total (ensure c e >>= g) := by
  refine total_bind_eq fun u hu => h ?_
  unfold ensure at hu
  split at hu
  · assumption
  · cases hu

/-- Two requirements with one complaint. -/
theorem ensure_and {c d : Prop} [Decidable c] [Decidable d] (e : ε) (f : Unit → Except ε β) :
    (ensure c e >>= fun _ => ensure d e >>= f) = (ensure (c ∧ d) e >>= f) := by
  unfold ensure
  by_cases hc : c
  · by_cases hd : d <;> simp [hc, hd] <;> rfl
  · simp [hc]
    rfl

end Attempt

end Dodb.Lib
