import Mathlib

/-! Byte strings: fixed-width little-endian numbers and slices.

Formats are written as concatenations of fields and read back by offset, so the
lemmas here are the two halves of that: `ofLe_le` turns a written number back
into itself, and the `slice_append` family finds the field an offset points at.
Byte strings are ordered as slices of bytes are, lexicographically, a proper
prefix first. -/
namespace Dodb.Lib

abbrev Bytes := List UInt8

instance byteLinearOrder : LinearOrder UInt8 where
  le_refl := UInt8.le_refl
  le_trans _ _ _ := UInt8.le_trans
  le_antisymm _ _ := UInt8.le_antisymm
  le_total := UInt8.le_total
  lt_iff_le_not_ge a b := by
    rw [UInt8.le_iff_toNat_le, UInt8.le_iff_toNat_le, UInt8.lt_iff_toNat_lt]
    omega
  toDecidableLE := inferInstance
  toDecidableEq := inferInstance
  toDecidableLT := inferInstance

theorem nil_le (b : Bytes) : ([] : Bytes) ≤ b := not_lt.mp (List.not_lt_nil b)

/-! ### Little-endian numbers -/

/-- The low `width` bytes of `n`, least significant first. -/
def le : (width : Nat) → (n : Nat) → Bytes
  | 0, _ => []
  | w + 1, n => UInt8.ofNat (n % 256) :: le w (n / 256)

/-- The number with these little-endian bytes. -/
def ofLe : Bytes → Nat
  | [] => 0
  | b :: bs => b.toNat + 256 * ofLe bs

@[simp] theorem length_le (w n : Nat) : (le w n).length = w := by
  induction w generalizing n with
  | zero => rfl
  | succ w ih => simp [le, ih]

theorem ofLe_lt (bs : Bytes) : ofLe bs < 256 ^ bs.length := by
  induction bs with
  | nil => simp [ofLe]
  | cons b bs ih =>
    have hb : b.toNat < 256 := b.toNat_lt
    simp only [ofLe, List.length_cons, Nat.pow_succ]
    omega

theorem ofLe_le (w n : Nat) (h : n < 256 ^ w) : ofLe (le w n) = n := by
  induction w generalizing n with
  | zero =>
    simp only [Nat.pow_zero] at h
    simp only [le, ofLe]
    omega
  | succ w ih =>
    have hd : n / 256 < 256 ^ w := by
      rw [Nat.pow_succ] at h
      exact Nat.div_lt_of_lt_mul (by omega)
    have hb : (UInt8.ofNat (n % 256)).toNat = n % 256 := by
      simp [UInt8.toNat_ofNat']
    simp only [le, ofLe, ih _ hd, hb]
    omega

theorem le_ofLe (bs : Bytes) : le bs.length (ofLe bs) = bs := by
  induction bs with
  | nil => rfl
  | cons b bs ih =>
    have hb : b.toNat < 256 := b.toNat_lt
    have hm : (b.toNat + 256 * ofLe bs) % 256 = b.toNat := by omega
    have hd : (b.toNat + 256 * ofLe bs) / 256 = ofLe bs := by omega
    simp only [List.length_cons, le, ofLe, hm, hd, ih, UInt8.ofNat_toNat]

/-! ### Slices -/

def slice (bs : Bytes) (offset length : Nat) : Bytes := (bs.drop offset).take length

theorem length_slice (bs : Bytes) (o n : Nat) (h : o + n ≤ bs.length) : (slice bs o n).length = n := by
  simp only [slice, List.length_take, List.length_drop]
  omega

theorem slice_self (bs : Bytes) (n : Nat) (h : bs.length = n) : slice bs 0 n = bs := by
  simp [slice, ← h]

theorem slice_append_left (a b : Bytes) (o n : Nat) (h : o + n ≤ a.length) : slice (a ++ b) o n = slice a o n := by
  simp only [slice, List.drop_append]
  rw [List.take_append_of_le_length]
  simp only [List.length_drop]
  omega

theorem slice_append_right (a b : Bytes) (o n : Nat) (h : a.length ≤ o) :
    slice (a ++ b) o n = slice b (o - a.length) n := by
  simp only [slice, List.drop_append, List.drop_of_length_le h, List.nil_append]

/-- The field `x` of a concatenation, at its own offset. -/
theorem slice_field (a x b : Bytes) (o n : Nat) (ho : a.length = o) (hn : x.length = n) :
    slice (a ++ (x ++ b)) o n = x := by
  rw [slice_append_right _ _ _ _ (by omega), slice_append_left _ _ _ _ (by omega), ho, Nat.sub_self,
    slice_self _ _ hn]

theorem slice_slice (bs : Bytes) (o n p m : Nat) (h : p + m ≤ n) : slice (slice bs o n) p m = slice bs (o + p) m := by
  simp only [slice, List.drop_take, List.drop_drop, List.take_take]
  congr 1
  omega

/-- The fields `xs` stand in `bs` one after another, from `o` on. -/
def Fields (bs : Bytes) : Nat → List Bytes → Prop
  | _, [] => True
  | o, x :: xs => slice bs o x.length = x ∧ Fields bs (o + x.length) xs

/-- What is written field by field has its fields, also inside other bytes. -/
theorem Fields.of_slice {bs b : Bytes} {o n : Nat} {xs : List Bytes} (h : slice bs o n = xs.foldr (· ++ ·) b) :
    Fields bs o xs := by
  induction xs generalizing o n with
  | nil => trivial
  | cons x xs ih =>
    have hlen := congrArg List.length h
    simp only [slice, List.length_take, List.length_drop, List.foldr_cons, List.length_append] at hlen
    refine ⟨?_, ih (n := n - x.length) ?_⟩
    · rw [← Nat.add_zero o, ← slice_slice _ _ n _ _ (by omega), h]
      exact slice_field [] _ _ _ _ rfl rfl
    · rw [← slice_slice _ _ n _ _ (by omega), h, List.foldr_cons, slice_append_right _ _ _ _ (le_refl _),
        Nat.sub_self]
      exact List.take_of_length_le (by rw [List.drop_zero]; omega)

theorem Fields.of_eq {bs b : Bytes} {xs : List Bytes} (h : bs = xs.foldr (· ++ ·) b) : Fields bs 0 xs :=
  .of_slice ((slice_self _ _ rfl).trans h)

/-- A run of zero bytes. -/
def zeros (n : Nat) : Bytes := List.replicate n 0

@[simp] theorem length_zeros (n : Nat) : (zeros n).length = n := List.length_replicate

/-- `bs` with the bytes from `offset` on replaced by `new`; the gap, when `bs` is
too short, is filled with zeros. -/
def splice (bs : Bytes) (offset : Nat) (new : Bytes) : Bytes :=
  bs.take offset ++ zeros (offset - bs.length) ++ new ++ bs.drop (offset + new.length)

/-- `bs` cut or zero-extended to `length` bytes. -/
def resize (bs : Bytes) (length : Nat) : Bytes :=
  bs.take length ++ zeros (length - bs.length)

theorem length_splice (bs new : Bytes) (o : Nat) :
    (splice bs o new).length = max bs.length (o + new.length) := by
  simp only [splice, List.length_append, List.length_take, length_zeros, List.length_drop]
  omega

@[simp] theorem length_resize (bs : Bytes) (n : Nat) : (resize bs n).length = n := by
  simp only [resize, List.length_append, List.length_take, length_zeros]
  omega

theorem splice_end (bs new : Bytes) : splice bs bs.length new = bs ++ new := by
  simp [splice, zeros]

/-- Replacing a field of a concatenation. -/
theorem splice_field (a x y b : Bytes) (o : Nat) (ho : a.length = o) (h : x.length = y.length) :
    splice (a ++ (x ++ b)) o y = a ++ (y ++ b) := by
  unfold splice
  rw [Nat.sub_eq_zero_of_le (by simp [← ho]), zeros, List.replicate_zero, List.append_nil,
    List.take_left' ho, ← List.drop_drop, List.drop_left' ho, List.drop_left' h, List.append_assoc]

theorem slice_splice_same (bs new : Bytes) (o : Nat) : slice (splice bs o new) o new.length = new := by
  have hl : (bs.take o ++ zeros (o - bs.length)).length = o := by
    simp only [List.length_append, List.length_take, length_zeros]
    omega
  unfold splice
  rw [List.append_assoc (bs.take o ++ zeros (o - bs.length))]
  exact slice_field _ _ _ _ _ hl rfl

/-- Bytes before a splice are the old ones, zeros where there were none. -/
theorem slice_splice_before (bs new : Bytes) (o p n : Nat) (h : p + n ≤ o) (hb : p + n ≤ bs.length) :
    slice (splice bs o new) p n = slice bs p n := by
  have htake : p + n ≤ (bs.take o).length := by
    simp only [List.length_take]
    omega
  unfold splice
  rw [List.append_assoc, List.append_assoc, slice_append_left _ _ _ _ htake]
  simp only [slice, List.drop_take, List.take_take]
  congr 1
  omega

/-- Bytes after a splice are the old ones. -/
theorem slice_splice_after (bs new : Bytes) (o p n : Nat) (h : o + new.length ≤ p)
    (ho : o ≤ bs.length) : slice (splice bs o new) p n = slice bs p n := by
  have hl : (bs.take o ++ zeros (o - bs.length) ++ new).length = o + new.length := by
    simp only [List.length_append, List.length_take, length_zeros]
    omega
  unfold splice
  rw [slice_append_right _ _ _ _ (by omega), hl]
  simp only [slice, List.drop_drop]
  congr 2
  omega

theorem slice_resize (bs : Bytes) (k p n : Nat) (h : p + n ≤ k) (hb : p + n ≤ bs.length) :
    slice (resize bs k) p n = slice bs p n := by
  have htake : p + n ≤ (bs.take k).length := by
    simp only [List.length_take]
    omega
  unfold resize
  rw [slice_append_left _ _ _ _ htake]
  simp only [slice, List.drop_take, List.take_take]
  congr 1
  omega

/-- The bytes a resize adds are zeros. -/
theorem slice_resize_new (bs : Bytes) (k p n : Nat) (h : p + n ≤ k) (hb : bs.length ≤ p) :
    slice (resize bs k) p n = zeros n := by
  unfold resize
  have hl : (bs.take k).length ≤ p := by
    simp only [List.length_take]
    omega
  rw [slice_append_right _ _ _ _ hl]
  simp only [slice, zeros, List.drop_replicate, List.take_replicate, List.length_take]
  congr 1
  omega

/-! ### Bytes from their fields -/

theorem le_ofLe_slice {bs : Bytes} {offset width : Nat} (h : offset + width ≤ bs.length) :
    le width (ofLe (slice bs offset width)) = slice bs offset width := by
  have := le_ofLe (slice bs offset width)
  rwa [length_slice _ _ _ h] at this

theorem slice_two {bs : Bytes} {offset : Nat} (h : offset + 2 ≤ bs.length) :
    slice bs offset 2 = [bs.getD offset 0, bs.getD (offset + 1) 0] := by
  unfold slice
  rw [List.drop_eq_getElem_cons (by omega), List.drop_eq_getElem_cons (by omega)]
  simp only [List.take_succ_cons, List.take_zero]
  rw [List.getD_eq_getElem _ _ (by omega), List.getD_eq_getElem _ _ (by omega)]

theorem eq_zeros_of_all {bs : Bytes} (h : bs.all (· == 0) = true) : bs = zeros bs.length := by
  refine List.eq_replicate_iff.mpr ⟨rfl, fun b hb => ?_⟩
  simpa using List.all_eq_true.mp h b hb

/-- Bytes that end with their fields are the fields. -/
theorem Fields.drop_eq {bs : Bytes} {o : Nat} {xs : List Bytes} (h : Fields bs o xs)
    (hend : bs.length ≤ o + (xs.map List.length).sum) : bs.drop o = xs.foldr (· ++ ·) [] := by
  induction xs generalizing o with
  | nil => exact List.drop_of_length_le hend
  | cons x xs ih =>
    simp only [List.map_cons, List.sum_cons] at hend
    rw [← List.take_append_drop x.length (bs.drop o), List.drop_drop, ih h.2 (by omega)]
    exact congrArg (· ++ _) h.1

end Dodb.Lib
