import Dodb.Lib.Bytes
import Dodb.Lib.Io

/-! Readers of byte strings, and what it means that one undoes a writer.

A reader takes what it needs from the front of its input and leaves the rest. `Reads r bs a`
says that `r` reads `bs` as `a` whatever follows; `Yields r P` that whatever `r` accepts, it has
read bytes that stand in `P` to its answer. A reader is canonical for a writer when it reads what
the writer wrote and accepts nothing else. The two rules for sequencing let both halves be proved
along the reader's own text. -/
namespace Dodb.Lib

/-! ### Big-endian numbers -/

/-- The low `width` bytes of `n`, most significant first. -/
def be (width n : Nat) : Bytes := (le width n).reverse

def ofBe (bs : Bytes) : Nat := ofLe bs.reverse

@[simp] theorem length_be (w n : Nat) : (be w n).length = w := by simp [be]

theorem ofBe_be (w n : Nat) (h : n < 256 ^ w) : ofBe (be w n) = n := by
  rw [ofBe, be, List.reverse_reverse, ofLe_le w n h]

theorem ofBe_lt (bs : Bytes) : ofBe bs < 256 ^ bs.length := by
  simpa [ofBe] using ofLe_lt bs.reverse

theorem be_ofBe (bs : Bytes) : be bs.length (ofBe bs) = bs := by
  have := le_ofLe bs.reverse
  rw [List.length_reverse] at this
  rw [be, ofBe, this, List.reverse_reverse]

/-! ### Readers -/

/-- Takes a value off the front of the input. -/
def Reader (ε α : Type) : Type := Bytes → Except ε (α × Bytes)

namespace Reader
variable {ε α β : Type} {r : Reader ε α} {f : α → Reader ε β} {bs : Bytes} {R : α → Bytes → Prop}

protected def pure (a : α) : Reader ε α := fun input => .ok (a, input)

protected def bind (r : Reader ε α) (f : α → Reader ε β) : Reader ε β := fun input =>
  match r input with
  | .ok (a, rest) => f a rest
  | .error e => .error e

instance : Monad (Reader ε) where
  pure := Reader.pure
  bind := Reader.bind

def fail (e : ε) : Reader ε α := fun _ => .error e

def ofExcept (x : Except ε α) : Reader ε α := fun input => x.map fun a => (a, input)

/-- The next `n` bytes; `short` is the error for an input that has fewer. -/
def take (short : ε) (n : Nat) : Reader ε Bytes := fun input =>
  if n ≤ input.length then .ok (input.take n, input.drop n) else .error short

def byte (short : ε) : Reader ε UInt8
  | [] => .error short
  | b :: rest => .ok (b, rest)

/-- A number of `width` bytes, most significant first. -/
def number (short : ε) (width : Nat) : Reader ε Nat := do
  let bytes ← take short width
  pure (ofBe bytes)

/-- `n` things one after another. -/
def many (r : Reader ε α) : Nat → Reader ε (List α)
  | 0 => pure []
  | n + 1 => do
    let a ← r
    let rest ← many r n
    pure (a :: rest)

/-- Reads the whole of an input; `trailing` is the error for bytes that are left over. -/
def whole (trailing : ε) (r : Reader ε α) (input : Bytes) : Except ε α := do
  let (a, rest) ← r input
  if rest = [] then .ok a else .error trailing

/-! ### What a reader reads -/

/-- The reader takes exactly `bs`, whatever follows. -/
def Reads (r : Reader ε α) (bs : Bytes) (a : α) : Prop := ∀ rest, r (bs ++ rest) = .ok (a, rest)

/-- What the reader answers has `P`, with the bytes it took. -/
def Yields (r : Reader ε α) (P : α → Bytes → Prop) : Prop :=
  ∀ input a rest, r input = .ok (a, rest) → ∃ bs, input = bs ++ rest ∧ P a bs

theorem Reads.pure (a : α) : (pure a : Reader ε α).Reads [] a := fun _ => rfl

theorem Reads.bind {a : α} {b : β} {cs : Bytes} (hr : r.Reads bs a)
    (hf : (f a).Reads cs b) : (r >>= f).Reads (bs ++ cs) b := by
  intro rest
  show Reader.bind r f _ = _
  rw [Reader.bind, List.append_assoc, hr (cs ++ rest)]
  exact hf rest

theorem Reads.bind_nil {a : α} {b : β} (hr : r.Reads bs a) (hf : (f a).Reads [] b) : (r >>= f).Reads bs b := by
  have := hr.bind hf
  rwa [List.append_nil] at this

theorem Reads.ofExcept_bind {x : Except ε α} {a : α} {b : β} (hx : x = .ok a)
    (hf : (f a).Reads bs b) : (Reader.ofExcept x >>= f).Reads bs b := by
  subst hx
  exact hf

theorem Reads.tag {short : ε} {f : UInt8 → Reader ε β} {b : β} {t : UInt8} (hf : (f t).Reads bs b) :
    (Reader.byte short >>= f).Reads (t :: bs) b := hf

theorem Reads.take (short : ε) (bs : Bytes) : (take short bs.length).Reads bs bs := by
  intro rest
  simp [Reader.take]

theorem Reads.number (short : ε) {width n : Nat} (h : n < 256 ^ width) :
    (number short width).Reads (be width n) n := by
  have htake := Reads.take short (be width n)
  rw [length_be] at htake
  refine htake.bind_nil ?_
  rw [ofBe_be width n h]
  exact Reads.pure n

theorem Yields.mono {P Q : α → Bytes → Prop} (h : r.Yields P) (hPQ : ∀ a bs, P a bs → Q a bs) : r.Yields Q := by
  intro input a rest hr
  obtain ⟨bs, hbs, hP⟩ := h input a rest hr
  exact ⟨bs, hbs, hPQ a bs hP⟩

theorem Yields.pure {a : α} (h : R a []) : (pure a : Reader ε α).Yields R := by
  intro input b rest hr
  cases hr
  exact ⟨[], rfl, h⟩

theorem Yields.fail (e : ε) : (fail e : Reader ε α).Yields R := by
  intro input b rest h
  cases h

theorem Yields.bind {P : α → Bytes → Prop} {R : β → Bytes → Prop}
    (hr : r.Yields P) (hf : ∀ a bs, P a bs → (f a).Yields fun b cs => R b (bs ++ cs)) : (r >>= f).Yields R := by
  intro input b rest h
  replace h : Reader.bind r f input = _ := h
  unfold Reader.bind at h
  cases hi : r input with
  | error e =>
    rw [hi] at h
    cases h
  | ok p =>
    obtain ⟨a, mid⟩ := p
    rw [hi] at h
    obtain ⟨bs, rfl, hP⟩ := hr input a mid hi
    obtain ⟨cs, rfl, hR⟩ := hf a bs hP mid b rest h
    exact ⟨bs ++ cs, (List.append_assoc ..).symm, hR⟩

theorem Yields.bind_pure {P : α → Bytes → Prop} {R : β → Bytes → Prop} {g : α → β} (hr : r.Yields P)
    (hg : ∀ a bs, P a bs → R (g a) bs) : (r >>= fun a => Pure.pure (g a)).Yields R := by
  refine hr.bind fun a bs h => Yields.pure ?_
  rw [List.append_nil]
  exact hg a bs h

theorem Yields.ofExcept_bind {x : Except ε α} {R : β → Bytes → Prop}
    (hf : ∀ a, x = .ok a → (f a).Yields R) : (Reader.ofExcept x >>= f).Yields R := by
  cases x with
  | error e =>
    intro input b rest h
    cases h
  | ok a => exact hf a rfl

theorem Yields.ite {c : Prop} [Decidable c] {s : Reader ε α} (ht : c → r.Yields R)
    (hf : ¬c → s.Yields R) : (if c then r else s).Yields R := by
  split
  · exact ht ‹_›
  · exact hf ‹_›

theorem Yields.take (short : ε) (n : Nat) : (take short n).Yields fun a bs => bs = a ∧ a.length = n := by
  intro input a rest h
  unfold Reader.take at h
  split at h
  · cases h
    exact ⟨input.take n, (List.take_append_drop n input).symm, rfl, List.length_take_of_le ‹_›⟩
  · cases h

theorem Yields.tag {short : ε} {f : UInt8 → Reader ε β} {R : β → Bytes → Prop}
    (hf : ∀ t, (f t).Yields fun b bs => R b (t :: bs)) : (Reader.byte short >>= f).Yields R := by
  intro input b rest h
  cases input with
  | nil => cases h
  | cons t more =>
    obtain ⟨bs, rfl, hR⟩ := hf t more b rest h
    exact ⟨t :: bs, rfl, hR⟩

theorem Yields.number (short : ε) (width : Nat) :
    (number short width).Yields fun n bs => bs = be width n ∧ n < 256 ^ width := by
  refine (Yields.take short width).bind ?_
  rintro bytes _ ⟨rfl, hlen⟩
  refine Yields.pure ?_
  rw [List.append_nil, ← hlen, be_ofBe]
  exact ⟨rfl, ofBe_lt _⟩

end Reader

/-! ### Writers, and readers that undo them -/

section Canonical
variable {ε α : Type}

/-- Writes the elements of a list one after another. -/
def writeMany (write : α → Except ε Bytes) : List α → Except ε Bytes
  | [] => .ok []
  | a :: rest => do
    let first ← write a
    let more ← writeMany write rest
    pure (first ++ more)

theorem exists_of_writeMany {write : α → Except ε Bytes} {l : List α} {bs : Bytes} (h : writeMany write l = .ok bs) :
    ∀ a ∈ l, ∃ cs, write a = .ok cs := by
  induction l generalizing bs with
  | nil => simp
  | cons a rest ih =>
    simp only [writeMany, except_bind_eq_ok, except_pure_eq_ok] at h
    obtain ⟨first, hfirst, more, hmore, rfl⟩ := h
    intro b hb
    cases List.mem_cons.mp hb with
    | inl hab => exact hab ▸ ⟨first, hfirst⟩
    | inr hb => exact ih hmore b hb

/-- `read` reads what `write` writes, of the values that `fits` holds of, and accepts nothing else. -/
structure Canonical (fits : α → Prop) (write : α → Except ε Bytes) (read : Reader ε α) : Prop where
  reads : ∀ {a bs}, fits a → write a = .ok bs → read.Reads bs a
  yields : read.Yields fun a bs => fits a ∧ write a = .ok bs

theorem Canonical.many {fits : α → Prop} {write : α → Except ε Bytes} {read : Reader ε α}
    (h : Canonical fits write read) (n : Nat) :
    Canonical (fun l => (∀ a ∈ l, fits a) ∧ l.length = n) (writeMany write) (read.many n) := by
  induction n with
  | zero =>
    refine ⟨?_, ?_⟩
    · rintro l bs ⟨-, hlen⟩ hw
      obtain rfl := List.length_eq_zero_iff.mp hlen
      cases hw
      exact Reader.Reads.pure []
    · exact Reader.Yields.pure ⟨⟨by simp, rfl⟩, rfl⟩
  | succ n ih =>
    refine ⟨?_, ?_⟩
    · rintro l bs ⟨hl, hlen⟩ hw
      obtain _ | ⟨a, rest⟩ := l
      · cases hlen
      simp only [writeMany, except_bind_eq_ok, except_pure_eq_ok] at hw
      obtain ⟨first, hfirst, more, hmore, rfl⟩ := hw
      refine (h.reads (hl a List.mem_cons_self) hfirst).bind ?_
      refine (ih.reads ⟨fun b hb => hl b (List.mem_cons_of_mem _ hb), Nat.succ.inj hlen⟩ hmore).bind_nil ?_
      exact Reader.Reads.pure _
    · refine h.yields.bind ?_
      rintro a bs ⟨ha, hwa⟩
      refine ih.yields.bind ?_
      rintro rest cs ⟨⟨hrest, hlen⟩, hwrest⟩
      refine Reader.Yields.pure ⟨⟨?_, by rw [List.length_cons, hlen]⟩, ?_⟩
      · intro b hb
        rcases List.mem_cons.mp hb with rfl | hb
        · exact ha
        · exact hrest b hb
      · rw [writeMany, hwa, except_ok_bind, hwrest, except_ok_bind, List.append_nil]
        rfl

theorem Canonical.whole {fits : α → Prop} {write : α → Except ε Bytes} {read : Reader ε α}
    (h : Canonical fits write read) {trailing : ε} {input : Bytes} {a : α} :
    read.whole trailing input = .ok a ↔ fits a ∧ write a = .ok input := by
  constructor
  · intro hread
    simp only [Reader.whole, except_bind_eq_ok] at hread
    obtain ⟨⟨b, rest⟩, hread, hrest⟩ := hread
    dsimp only at hrest
    split at hrest
    · cases hrest
      obtain ⟨bs, rfl, hb, hw⟩ := h.yields _ _ _ hread
      rename_i hnil
      rw [hnil, List.append_nil]
      exact ⟨hb, hw⟩
    · cases hrest
  · rintro ⟨ha, hw⟩
    have := h.reads ha hw []
    rw [List.append_nil] at this
    rw [Reader.whole, this, except_ok_bind]
    exact if_pos rfl

end Canonical

/-! ### What writers accept, and how much they write -/

section Sized
variable {ε α : Type}

/-- `write` accepts exactly the values that `fits` holds of, and writes `size a` bytes for `a`. -/
structure Sized (fits : α → Prop) (write : α → Except ε Bytes) (size : α → Nat) : Prop where
  accepts : ∀ {a}, fits a → ∃ bs, write a = .ok bs
  admits : ∀ {a bs}, write a = .ok bs → fits a ∧ bs.length = size a

theorem Sized.many {fits : α → Prop} {write : α → Except ε Bytes} {size : α → Nat} (h : Sized fits write size) :
    Sized (fun l => ∀ a ∈ l, fits a) (writeMany write) (fun l => (l.map size).sum) where
  accepts {l} hl := by
    induction l with
    | nil => exact ⟨[], rfl⟩
    | cons a rest ih =>
      obtain ⟨first, hfirst⟩ := h.accepts (hl a List.mem_cons_self)
      obtain ⟨more, hmore⟩ := ih fun b hb => hl b (List.mem_cons_of_mem _ hb)
      exact ⟨first ++ more, by rw [writeMany, hfirst, except_ok_bind, hmore]; rfl⟩
  admits {l bs} hw := by
    induction l generalizing bs with
    | nil =>
      cases hw
      exact ⟨by simp, rfl⟩
    | cons a rest ih =>
      simp only [writeMany, except_bind_eq_ok, except_pure_eq_ok] at hw
      obtain ⟨first, hfirst, more, hmore, rfl⟩ := hw
      obtain ⟨ha, hlen⟩ := h.admits hfirst
      obtain ⟨hrest, hlens⟩ := ih hmore
      refine ⟨fun b hb => ?_, by rw [List.length_append, hlen, hlens, List.map_cons, List.sum_cons]⟩
      cases List.mem_cons.mp hb with
      | inl hab => exact hab ▸ ha
      | inr hb => exact hrest b hb

end Sized

end Dodb.Lib
