import Dodb.Lib.Redo

/-! Files of which every block is one of a set.

`A i` are the blocks that may stand at place `i` of a file. The set is stable when it has, with two blocks, every refused
mixture of them; then what may be left by a write that is cut short and by a power loss is in the set as well, and a file
whose writes are all of blocks in the set stays within it (`Stable`). -/
namespace Dodb.Lib
open File

/-- A mixture of two blocks is what both are where they agree. -/
theorem File.Mixed.slice_eq {old new b : Bytes} (h : Mixed old new b) {o n : Nat} (hnew : o + n ≤ new.length)
    (hsame : slice old o n = slice new o n) : slice b o n = slice new o n := by
  have hlength := h.1
  refine List.ext_getElem (by simp [slice, hlength]) fun i hi hi' => ?_
  have hin : i < n := by
    rw [slice, List.length_take] at hi
    omega
  have hbyte : old.getD (o + i) 0 = new.getD (o + i) 0 := by
    have hget := congrArg (fun l => l.getD i 0) hsame
    simp only [slice, List.getD_eq_getElem?_getD, List.getElem?_take, List.getElem?_drop, if_pos hin] at hget
    simpa only [List.getD_eq_getElem?_getD] using hget
  have hmixed := h.2 (o + i) (by omega)
  rw [hbyte, or_self, List.getD_eq_getElem _ _ (by omega), List.getD_eq_getElem _ _ (by omega)] at hmixed
  simpa only [slice, List.getElem_take, List.getElem_drop] using hmixed

/-- With two blocks of a place, every refused mixture of them may stand there. -/
def Mixes (refused : Nat → Bytes → Bool) (A : Nat → Bytes → Prop) : Prop :=
  ∀ i old new b, A i old → A i new → Mixed old new b → refused i b = true → A i b

/-- The bytes, and the zeros that would follow up to `n`, are blocks of the set. -/
structure Blocks (size : Nat) (A : Nat → Bytes → Prop) (n : Nat) (bs : Bytes) : Prop where
  aligned : size ∣ bs.length
  le : bs.length ≤ n
  block : ∀ i, (i + 1) * size ≤ n → A i (block size (resize bs n) i)

/-- For a reader and on the medium, the file is of blocks of the set. -/
structure Stable (size : Nat) (A : Nat → Bytes → Prop) (n : Nat) (f : File) : Prop where
  durable : Blocks size A n f.durable
  volatile : Blocks size A n f.volatile
  le : f.durable.length ≤ f.volatile.length

variable {size n : Nat} {A : Nat → Bytes → Prop} {bs : Bytes} {f : File}

theorem Blocks.at_ (h : Blocks size A n bs) {i : Nat} (hi : (i + 1) * size ≤ bs.length) : A i (File.block size bs i) := by
  have hblock := h.block i (hi.trans h.le)
  rwa [block_resize h.aligned (hi.trans h.le), if_pos hi] at hblock

theorem Blocks.zeros (h : Blocks size A n bs) {i : Nat} (hi : (i + 1) * size ≤ n) (hout : ¬(i + 1) * size ≤ bs.length) :
    A i (Lib.zeros size) := by
  have hblock := h.block i hi
  rwa [block_resize h.aligned hi, if_neg hout] at hblock

/-- A file of whole blocks is of the set when its blocks are, and the zeros that would follow them. -/
theorem Blocks.of_blocks (haligned : size ∣ bs.length) (hle : bs.length ≤ n)
    (hin : ∀ i, (i + 1) * size ≤ bs.length → A i (File.block size bs i))
    (hout : ∀ i, (i + 1) * size ≤ n → ¬(i + 1) * size ≤ bs.length → A i (Lib.zeros size)) : Blocks size A n bs := by
  refine ⟨haligned, hle, fun i hi => ?_⟩
  rw [block_resize haligned hi]
  by_cases hlength : (i + 1) * size ≤ bs.length
  · rw [if_pos hlength]
    exact hin i hlength
  · rw [if_neg hlength]
    exact hout i hi hlength

theorem Blocks.resize (h : Blocks size A n bs) {length : Nat} (haligned : size ∣ length) (hlength : bs.length ≤ length)
    (hle : length ≤ n) : Blocks size A n (Lib.resize bs length) := by
  refine .of_blocks ?_ ?_ (fun i hi => ?_) fun i hi hout => ?_
  · rwa [length_resize]
  · rwa [length_resize]
  · rw [length_resize] at hi
    have hblock := h.block i (hi.trans hle)
    rwa [block_resize h.aligned (hi.trans hle), ← block_resize h.aligned hi] at hblock
  · rw [length_resize] at hout
    exact h.zeros hi fun hin => hout (hin.trans hlength)

theorem length_splice_block {i : Nat} {b : Bytes} (hb : b.length = size) (hi : (i + 1) * size ≤ bs.length) :
    (Lib.splice bs (i * size) b).length = bs.length := by
  rw [length_splice, hb]
  rw [Nat.add_mul, Nat.one_mul] at hi
  omega

theorem Blocks.splice (h : Blocks size A n bs) {i : Nat} {b : Bytes} (hb : b.length = size)
    (hi : (i + 1) * size ≤ bs.length) (hA : A i b) : Blocks size A n (Lib.splice bs (i * size) b) := by
  have hlength := length_splice_block hb hi
  refine .of_blocks ?_ ?_ (fun j hj => ?_) fun j hj hout => ?_
  · rw [hlength]
    exact h.aligned
  · rw [hlength]
    exact h.le
  · rw [hlength] at hj
    by_cases hji : j = i
    · subst hji
      rwa [block_splice_same hb]
    · rw [block_splice_ne hb hji hi hj]
      exact h.at_ hj
  · rw [hlength] at hout
    exact h.zeros hj hout

namespace Stable

theorem ofDurable (h : Blocks size A n bs) : Stable size A n (.ofDurable bs) := ⟨h, h, le_rfl⟩

theorem setLength (h : Stable size A n f) {length : Nat} (haligned : size ∣ length)
    (hlength : f.volatile.length ≤ length) (hle : length ≤ n) : Stable size A n (f.setLength length) := by
  refine ⟨h.durable, h.volatile.resize haligned hlength hle, ?_⟩
  show f.durable.length ≤ (Lib.resize f.volatile length).length
  rw [length_resize]
  exact h.le.trans hlength

theorem sync (h : Stable size A n f) : Stable size A n f.sync := .ofDurable h.volatile

theorem write (h : Stable size A n f) {i : Nat} {b : Bytes} (hb : b.length = size)
    (hi : (i + 1) * size ≤ f.volatile.length) (hA : A i b) : Stable size A n (f.write (i * size) b) := by
  have hvolatile := h.volatile.splice hb hi hA
  refine ⟨h.durable, hvolatile, h.le.trans ?_⟩
  show f.volatile.length ≤ (Lib.splice f.volatile (i * size) b).length
  rw [length_splice]
  exact Nat.le_max_left _ _

/-- What is left of a write that is cut short is a mixture, which is refused. -/
theorem writeCut {refused : Nat → Bytes → Bool} (hmixes : Mixes refused A) (h : Stable size A n f) {i : Nat} {b : Bytes}
    (hb : b.length = size) (hi : (i + 1) * size ≤ f.volatile.length) (hA : A i b) {f' : File}
    (hcut : f.WriteCut (i * size) b (fun file left =>
      decide (Mixed (slice file.volatile (i * size) size) b left) && refused i left) f') : Stable size A n f' := by
  obtain rfl | rfl | ⟨left, hleft, rfl⟩ := hcut
  · exact h
  · exact h.write hb hi hA
  · rw [Bool.and_eq_true, decide_eq_true_eq] at hleft
    exact h.write (hleft.1.1.trans hb) hi (hmixes i _ _ _ (h.volatile.at_ hi) hA hleft.1 hleft.2)

/-- What a power loss leaves. -/
theorem loss {refused : Nat → Bytes → Bool} (hmixes : Mixes refused A) (h : Stable size A n f)
    (hloss : f.BlockLoss size (fun i b => refused i b = true) bs) : Blocks size A n bs := by
  obtain ⟨haligned, hdurable, hvolatile, hblocks⟩ := hloss
  refine .of_blocks haligned (hvolatile.trans h.volatile.le) (fun i hi => ?_) fun i hi hout => ?_
  · have hin := hi.trans hvolatile
    have hold := (h.durable.resize h.volatile.aligned h.le h.volatile.le).at_ (i := i) (by rwa [length_resize])
    have hnew := h.volatile.at_ hin
    obtain hblock | hblock | ⟨hmixed, hrefused⟩ := hblocks i hi
    · rwa [hblock]
    · rwa [hblock]
    · exact hmixes i _ _ _ hold hnew hmixed hrefused
  · exact h.durable.zeros hi fun hin => hout (hin.trans hdurable)

/-- A power loss may leave what is on the medium. -/
theorem loses {refused : Nat → Bytes → Prop} (h : Stable size A n f) : f.BlockLoss size refused f.durable := by
  refine ⟨h.durable.aligned, le_rfl, h.le, fun i hi => .inl ?_⟩
  rw [block_resize h.durable.aligned (hi.trans h.le), if_pos hi]

end Stable

end Dodb.Lib
