import Dodb.Lib.Attempt
import Dodb.Lib.Codec

/-! Readers that keep their whole input and an offset into it.

A `Cursor` may panic: it adds to its offset and takes bytes of its input by index. `Follows c r P` says that it does
not, on any input that fits in memory: from where the offset is, `c` reads what the reader `r` reads from the bytes that
are left, or fails as `r` does, and every answer is in `P`. -/
namespace Dodb.Lib

/-- A decoder that moves an offset along its input, and can panic. -/
def Cursor (ε α : Type) : Type := Bytes → Nat → Attempt ε (α × Nat)

namespace Cursor
open Attempt
variable {ε α β : Type}

instance : Monad (Cursor ε) where
  pure a := fun _ offset => pure (a, offset)
  bind c f := fun input offset => do
    let (a, next) ← c input offset
    f a input next

def ofAttempt (x : Attempt ε α) : Cursor ε α := fun _ offset => do
  let a ← x
  pure (a, offset)

def fail (e : ε) : Cursor ε α := ofAttempt (total (.error e))

def byte (short : ε) : Cursor ε UInt8 := fun input offset =>
  match input[offset]? with
  | none => total (.error short)
  | some b => do
    let next ← add offset 1
    pure (b, next)

/-- The next `n` bytes. -/
def take (overflow short : ε) (n : Nat) : Cursor ε Bytes := fun input offset => do
  let stop ← addOrFail overflow offset n
  if stop ≤ input.length then pure (slice input offset (stop - offset), stop) else total (.error short)

/-- A number of `width` bytes, which are taken one by one from those read. -/
def number (overflow short : ε) (width : Nat) : Cursor ε Nat := do
  let bytes ← take overflow short width
  let digits ← ofAttempt ((List.range width).mapM fun i => index bytes i)
  pure (ofBe digits)

def many (c : Cursor ε α) : Nat → Cursor ε (List α)
  | 0 => pure []
  | n + 1 => do
    let a ← c
    let rest ← many c n
    pure (a :: rest)

/-- Reads the whole of an input. -/
def whole (trailing : ε) (c : Cursor ε α) (input : Bytes) : Attempt ε α := do
  let (a, offset) ← c input 0
  if offset = input.length then pure a else total (.error trailing)

/-! ### Following a reader -/

/-- The cursor does at every offset what the reader does with the rest of the input. -/
def Follows (c : Cursor ε α) (r : Reader ε α) (P : α → Prop) : Prop :=
  ∀ input offset, input.length ≤ sizeMax → offset ≤ input.length →
    (∃ a next, next ≤ input.length ∧ P a ∧ c input offset = pure (a, next) ∧
      r (input.drop offset) = .ok (a, input.drop next)) ∨
    ∃ e, c input offset = total (.error e) ∧ r (input.drop offset) = .error e

variable {c : Cursor ε α} {r : Reader ε α} {f : α → Cursor ε β} {g : α → Reader ε β} {P : α → Prop} {Q : β → Prop}

theorem Follows.pure {a : α} (h : P a) : Follows (pure a : Cursor ε α) (pure a) P :=
  fun _ offset _ hoffset => .inl ⟨a, offset, hoffset, h, rfl, rfl⟩

theorem Follows.fail (e : ε) : Follows (fail e : Cursor ε α) (.fail e) P :=
  fun _ _ _ _ => .inr ⟨e, rfl, rfl⟩

theorem Follows.bind (hc : Follows c r P) (hf : ∀ a, P a → Follows (f a) (g a) Q) : Follows (c >>= f) (r >>= g) Q := by
  intro input offset hsize hoffset
  have hcursor : (c >>= f) input offset = c input offset >>= fun read => f read.1 input read.2 := rfl
  have hreader : (r >>= g) (input.drop offset) = Reader.bind r g (input.drop offset) := rfl
  rw [hcursor, hreader, Reader.bind]
  obtain ⟨a, next, hnext, ha, hread, hrest⟩ | ⟨e, hread, hrest⟩ := hc input offset hsize hoffset
  · rw [hread, hrest]
    exact hf a ha input next hsize hnext
  · rw [hread, hrest]
    exact .inr ⟨e, rfl, rfl⟩

theorem Follows.mono {P' : α → Prop} (h : Follows c r P) (hP : ∀ a, P a → P' a) : Follows c r P' := by
  intro input offset hsize hoffset
  obtain ⟨a, next, hnext, ha, hread⟩ | hfail := h input offset hsize hoffset
  · exact .inl ⟨a, next, hnext, hP a ha, hread⟩
  · exact .inr hfail

theorem Follows.ite {p : Prop} [Decidable p] {c' : Cursor ε α} {r' : Reader ε α} (hc : Follows c r P)
    (hc' : Follows c' r' P) : Follows (if p then c else c') (if p then r else r') P := by
  by_cases hp : p
  · rw [if_pos hp, if_pos hp]
    exact hc
  · rw [if_neg hp, if_neg hp]
    exact hc'

/-- A computation that reads nothing, and does not panic. -/
theorem Follows.ofAttempt {x : Attempt ε α} {y : Except ε α} (h : x = total y) (hP : ∀ a, y = .ok a → P a) :
    Follows (ofAttempt x) (.ofExcept y) P := by
  subst h
  intro input offset _ hoffset
  cases y with
  | ok a => exact .inl ⟨a, offset, hoffset, hP a rfl, rfl, rfl⟩
  | error e => exact .inr ⟨e, rfl, rfl⟩

theorem Follows.byte (short : ε) : Follows (byte short) (.byte short) fun _ => True := by
  intro input offset hsize hoffset
  have hword : input.length + 1 ≤ wordMax := (Nat.add_le_add_right hsize 1).trans (by decide)
  unfold Cursor.byte
  by_cases hlt : offset < input.length
  · rw [List.getElem?_eq_getElem hlt, List.drop_eq_getElem_cons hlt]
    dsimp only
    rw [add_bind (by omega)]
    exact .inl ⟨input[offset], offset + 1, hlt, trivial, rfl, rfl⟩
  · rw [List.getElem?_eq_none (by omega), List.drop_eq_nil_of_le (by omega)]
    exact .inr ⟨short, rfl, rfl⟩

theorem Follows.take (overflow short : ε) {n : Nat} (hn : n ≤ sizeMax) :
    Follows (take overflow short n) (.take short n) fun bytes => bytes.length = n := by
  intro input offset hsize hoffset
  have hword : sizeMax + sizeMax ≤ wordMax := by decide
  unfold Cursor.take Reader.take
  rw [addOrFail_bind (by omega), List.length_drop, List.drop_drop]
  by_cases hle : offset + n ≤ input.length
  · rw [if_pos hle, if_pos (by omega), Nat.add_sub_cancel_left]
    exact .inl ⟨slice input offset n, offset + n, hle, length_slice _ _ _ hle, rfl, rfl⟩
  · rw [if_neg hle, if_neg (by omega)]
    exact .inr ⟨short, rfl, rfl⟩

/-- The bytes of a number are all there. -/
theorem mapM_index (bytes : Bytes) :
    (List.range bytes.length).mapM (fun i => (index bytes i : Attempt ε UInt8)) = total (.ok bytes) := by
  have hindex : ∀ i ∈ List.range bytes.length, (index bytes i : Attempt ε UInt8) = total (pure (bytes.getD i 0)) := by
    intro i hi
    rw [index, List.getElem?_eq_getElem (List.mem_range.mp hi), List.getD_eq_getElem _ _ (List.mem_range.mp hi)]
    rfl
  have hslice := slice_eq_map (Nat.zero_add bytes.length).le
  simp only [Nat.zero_add] at hslice
  rw [mapM_total hindex, List.mapM_pure, ← hslice, slice, List.drop_zero, List.take_length]
  rfl

theorem Follows.number (overflow short : ε) {width : Nat} (hwidth : width ≤ sizeMax) :
    Follows (number overflow short width) (.number short width) fun n => n < 256 ^ width := by
  refine (Follows.take overflow short hwidth).bind fun bytes hbytes => ?_
  subst hbytes
  rw [mapM_index]
  exact Follows.pure (ofBe_lt bytes)

theorem Follows.many (h : Follows c r P) (n : Nat) : Follows (c.many n) (r.many n) fun _ => True := by
  induction n with
  | zero => exact .pure trivial
  | succ n ih => exact h.bind fun a _ => ih.bind fun rest _ => .pure trivial

theorem Follows.whole (h : Follows c r P) (trailing : ε) {input : Bytes} (hsize : input.length ≤ sizeMax) :
    c.whole trailing input = total (r.whole trailing input) := by
  unfold Cursor.whole Reader.whole
  obtain ⟨a, next, hnext, _, hread, hrest⟩ | ⟨e, hread, hrest⟩ := h input 0 hsize (Nat.zero_le _)
  · rw [List.drop_zero] at hrest
    rw [hread, hrest, Attempt.pure_bind]
    show (if next = input.length then _ else _) = total (if input.drop next = [] then _ else _)
    by_cases hend : next = input.length
    · rw [if_pos hend, if_pos (by rw [hend, List.drop_length])]
      rfl
    · rw [if_neg hend, if_neg (by rw [List.drop_eq_nil_iff]; omega)]
  · rw [List.drop_zero] at hrest
    rw [hread, hrest]
    rfl

end Cursor

end Dodb.Lib
