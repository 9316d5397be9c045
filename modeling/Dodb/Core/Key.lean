import Dodb.Lib.Bytes

/-! Document keys and their canonical bytes.

A key is a primary and a sort component, ordered first by the one, then by the
other. Its encoding writes each component with `00` escaped as `00 FF` and ends
it with `00 00`, so that comparing encodings byte by byte compares keys
(`encode_lt_encode`), every encoding reads back (`decode_encode`) and nothing
else does (`encode_of_decode`). The tree stores encodings only. -/
namespace Dodb
open Lib

abbrev PrimaryKey := Bytes
abbrev SortKey := Bytes

/-- Ordered by the primary key first. -/
@[ext]
structure DocumentKey where
  pk : PrimaryKey
  sk : SortKey
  deriving DecidableEq, Repr

instance : LinearOrder DocumentKey :=
  LinearOrder.lift' (fun k => toLex (k.pk, k.sk)) fun a b h => by
    have h' : (a.pk, a.sk) = (b.pk, b.sk) := h
    exact DocumentKey.ext (congrArg Prod.fst h') (congrArg Prod.snd h')

/-- Why bytes are not an encoded key. -/
inductive KeyCodecError where
  | truncatedEscape (offset : Nat)
  | invalidEscape (offset : Nat) (byte : UInt8)
  | missingComponent (offset : Nat)
  | trailingBytes (offset : Nat)
  deriving DecidableEq, Repr

/-- `n` in hexadecimal, with `0x` and at least `width` digits. -/
def hex (width n : Nat) : String :=
  let digits := Nat.toDigits 16 n
  "0x" ++ String.ofList (List.replicate (width - digits.length) '0' ++ digits)

def KeyCodecError.display : KeyCodecError → String
  | truncatedEscape offset => s!"truncated escape at {offset}"
  | invalidEscape offset byte => s!"invalid escape byte {hex 2 byte.toNat} at {offset}"
  | missingComponent offset => s!"missing component at {offset}"
  | trailingBytes offset => s!"trailing bytes at {offset}"

/-- Zeros are escaped and the end is marked, so that the order of the bytes is that of the components. -/
def encodeComponent : Bytes → Bytes
  | [] => [0, 0]
  | byte :: rest => if byte = 0 then 0 :: 0xff :: encodeComponent rest else byte :: encodeComponent rest

def encodedComponentLen (bytes : Bytes) : Nat := bytes.length + bytes.count 0 + 2

/-- Reads a component from the bytes at `offset` on; answers it and where it ends. -/
def decodeBytes : Nat → Bytes → Except KeyCodecError (Bytes × Nat)
  | offset, [] => .error (.truncatedEscape offset)
  | offset, [byte] => if byte ≠ 0 then .error (.truncatedEscape (offset + 1)) else .error (.truncatedEscape offset)
  | offset, byte :: escape :: rest =>
    if byte ≠ 0 then (decodeBytes (offset + 1) (escape :: rest)).map fun r => (byte :: r.1, r.2)
    else if escape = 0 then .ok ([], offset + 2)
    else if escape = 0xff then (decodeBytes (offset + 2) rest).map fun r => (0 :: r.1, r.2)
    else .error (.invalidEscape offset escape)

/-- A component that starts at `start`, and where it ends. -/
def decodeComponent (encoded : Bytes) (start : Nat) : Except KeyCodecError (Bytes × Nat) :=
  if start ≥ encoded.length then .error (.missingComponent start)
  else decodeBytes start (encoded.drop start)

namespace DocumentKey

def encode (k : DocumentKey) : Bytes := encodeComponent k.pk ++ encodeComponent k.sk

def encodedLen (k : DocumentKey) : Nat := encodedComponentLen k.pk + encodedComponentLen k.sk

/-- Exactly two components. -/
def decode (encoded : Bytes) : Except KeyCodecError DocumentKey := do
  let (pk, next) ← decodeComponent encoded 0
  let (sk, stop) ← decodeComponent encoded next
  if stop ≠ encoded.length then .error (.trailingBytes stop)
  else .ok ⟨pk, sk⟩

end DocumentKey

@[simp] theorem encodeComponent_nil : encodeComponent [] = [0, 0] := rfl

@[simp] theorem encodeComponent_zero (rest : Bytes) :
    encodeComponent (0 :: rest) = 0 :: 0xff :: encodeComponent rest := by
  rw [encodeComponent, if_pos rfl]

theorem encodeComponent_ne {byte : UInt8} (h : byte ≠ 0) (rest : Bytes) :
    encodeComponent (byte :: rest) = byte :: encodeComponent rest := by
  rw [encodeComponent, if_neg h]

/-! ### Reading an encoding back -/

theorem length_encodeComponent (bytes : Bytes) :
    (encodeComponent bytes).length = encodedComponentLen bytes := by
  induction bytes with
  | nil => rfl
  | cons byte rest ih =>
    unfold encodedComponentLen at ih
    by_cases h : byte = 0
    · simp [encodedComponentLen, h, ih]
      omega
    · simp [encodeComponent_ne h, encodedComponentLen, h, ih]
      omega

theorem DocumentKey.length_encode (k : DocumentKey) : k.encode.length = k.encodedLen := by
  simp [encode, encodedLen, length_encodeComponent]

theorem two_le_length_encodeComponent (bytes : Bytes) : 2 ≤ (encodeComponent bytes).length := by
  rw [length_encodeComponent]
  unfold encodedComponentLen
  omega

theorem decodeBytes_cons {byte : UInt8} (h : byte ≠ 0) (offset : Nat) (rest : Bytes) :
    decodeBytes offset (byte :: rest) = (decodeBytes (offset + 1) rest).map fun r => (byte :: r.1, r.2) := by
  cases rest with
  | nil => simp [decodeBytes, h, Except.map]
  | cons escape rest => rw [decodeBytes, if_pos h]

theorem decodeBytes_encodeComponent (bytes : Bytes) (offset : Nat) (rest : Bytes) :
    decodeBytes offset (encodeComponent bytes ++ rest) =
      .ok (bytes, offset + (encodeComponent bytes).length) := by
  induction bytes generalizing offset with
  | nil => simp [encodeComponent, decodeBytes]
  | cons byte tail ih =>
    by_cases h : byte = 0
    · subst h
      simp only [encodeComponent_zero, List.cons_append, decodeBytes, ne_eq, not_true_eq_false,
        if_false, if_neg (show ¬(0xff : UInt8) = 0 by decide), if_true, ih, Except.map, List.length_cons]
      congr 2
      omega
    · simp only [encodeComponent_ne h, List.cons_append, decodeBytes_cons h, ih, Except.map,
        List.length_cons]
      congr 2
      omega

/-- Only an encoded component reads as one. -/
theorem eq_encodeComponent_of_decodeBytes (bs : Bytes) (offset : Nat) {bytes : Bytes} {stop : Nat}
    (h : decodeBytes offset bs = .ok (bytes, stop)) :
    ∃ rest, bs = encodeComponent bytes ++ rest ∧ stop = offset + (encodeComponent bytes).length := by
  fun_induction decodeBytes offset bs generalizing bytes stop with
  | case4 offset byte escape rest hb ih =>
    cases hd : decodeBytes (offset + 1) (escape :: rest) with
    | error e => rw [hd] at h; cases h
    | ok r =>
      rw [hd] at h
      obtain ⟨tail, htail, hstop⟩ := ih hd
      cases h
      refine ⟨tail, ?_, ?_⟩
      · simp [encodeComponent_ne hb, ← htail]
      · simp only [encodeComponent_ne hb, List.length_cons]
        omega
  | case5 offset byte rest hb =>
    cases h
    refine ⟨rest, ?_, rfl⟩
    simp [encodeComponent, not_not.mp hb]
  | case6 offset byte rest hb _ ih =>
    cases hd : decodeBytes (offset + 2) rest with
    | error e => rw [hd] at h; cases h
    | ok r =>
      rw [hd] at h
      obtain ⟨tail, htail, hstop⟩ := ih hd
      cases h
      refine ⟨tail, ?_, ?_⟩
      · simp [not_not.mp hb, ← htail]
      · simp only [encodeComponent_zero, List.length_cons]
        omega
  | case1 | case2 | case3 | case7 => cases h

namespace DocumentKey

theorem decode_encode (k : DocumentKey) : decode k.encode = .ok k := by
  have h₁ := two_le_length_encodeComponent k.pk
  have h₂ := two_le_length_encodeComponent k.sk
  have hpk : decodeComponent k.encode 0 = .ok (k.pk, (encodeComponent k.pk).length) := by
    rw [decodeComponent, if_neg (by rw [encode, List.length_append]; omega), List.drop_zero, encode,
      decodeBytes_encodeComponent, Nat.zero_add]
  have hsk : decodeComponent k.encode (encodeComponent k.pk).length = .ok (k.sk, k.encode.length) := by
    rw [decodeComponent, if_neg (by rw [encode, List.length_append]; omega), encode, List.drop_left]
    have := decodeBytes_encodeComponent k.sk (encodeComponent k.pk).length []
    rw [List.append_nil] at this
    rw [this, List.length_append]
  simp [decode, hpk, hsk, bind, Except.bind]

theorem encode_of_decode {encoded : Bytes} {k : DocumentKey} (h : decode encoded = .ok k) : k.encode = encoded := by
  unfold decode at h
  cases hpk : decodeComponent encoded 0 with
  | error e => rw [hpk] at h; cases h
  | ok r =>
    obtain ⟨pk, next⟩ := r
    cases hsk : decodeComponent encoded next with
    | error e => simp [hpk, hsk, bind, Except.bind] at h
    | ok r =>
      obtain ⟨sk, stop⟩ := r
      simp only [hpk, hsk, bind, Except.bind] at h
      split at h
      · cases h
      cases h
      unfold decodeComponent at hpk hsk
      split at hpk
      · cases hpk
      split at hsk
      · cases hsk
      obtain ⟨tail, htail, hnext⟩ := eq_encodeComponent_of_decodeBytes _ _ hpk
      obtain ⟨last, hlast, hstop⟩ := eq_encodeComponent_of_decodeBytes _ _ hsk
      rw [List.drop_zero] at htail
      rw [Nat.zero_add] at hnext
      rw [hnext, htail, List.drop_left] at hlast
      have hlen : last.length = 0 := by
        have h₁ := congrArg List.length htail
        have h₂ := congrArg List.length hlast
        simp only [List.length_append] at h₁ h₂
        omega
      rw [htail, hlast, List.length_eq_zero_iff.mp hlen, List.append_nil, encode]

theorem encode_injective {a b : DocumentKey} (h : a.encode = b.encode) : a = b := by
  have := decode_encode a
  rw [h, decode_encode] at this
  exact (Except.ok.inj this).symm

end DocumentKey

/-- A component ends where its encoding says, whatever follows it. -/
theorem encodeComponent_append_inj {a b x y : Bytes} (h : encodeComponent a ++ x = encodeComponent b ++ y) :
    a = b ∧ x = y := by
  have ha := decodeBytes_encodeComponent a 0 x
  rw [h, decodeBytes_encodeComponent b 0 y] at ha
  obtain ⟨rfl, _⟩ : b = a ∧ _ := Prod.mk.inj (Except.ok.inj ha)
  exact ⟨rfl, List.append_cancel_left h⟩

namespace DocumentKey

/-- No encoding is the beginning of another one. -/
theorem eq_of_encode_prefix {a b : DocumentKey} (h : a.encode <+: b.encode) : a = b := by
  obtain ⟨rest, hrest⟩ := h
  rw [encode, encode, List.append_assoc] at hrest
  obtain ⟨hpk, hsk⟩ := encodeComponent_append_inj hrest
  have hsk' : encodeComponent a.sk ++ rest = encodeComponent b.sk ++ [] := by rw [hsk, List.append_nil]
  exact DocumentKey.ext hpk (encodeComponent_append_inj hsk').1

/-- The codec is a bijection between keys and the encodings of keys. -/
theorem codec_canonical :
    (∀ k : DocumentKey, decode k.encode = .ok k ∧ k.encodedLen = k.encode.length) ∧
    (∀ (b : Bytes) (k : DocumentKey), decode b = .ok k → k.encode = b) ∧
    (∀ b : Bytes, (∃ e, decode b = .error e) ↔ ∀ k : DocumentKey, k.encode ≠ b) ∧
    ∀ a b : DocumentKey, a.encode <+: b.encode → a = b := by
  refine ⟨fun k => ⟨decode_encode k, k.length_encode.symm⟩, fun b k => encode_of_decode, fun b => ?_,
    fun a b => eq_of_encode_prefix⟩
  constructor
  · rintro ⟨e, he⟩ k rfl
    rw [decode_encode] at he
    cases he
  · intro h
    cases hb : decode b with
    | error e => exact ⟨e, rfl⟩
    | ok k => exact absurd (encode_of_decode hb) (h k)

end DocumentKey

/-! ### Comparing encodings -/

theorem zero_lt_byte {byte : UInt8} (h : byte ≠ 0) : 0 < byte :=
  lt_of_le_of_ne (UInt8.zero_le) h.symm

theorem encodeComponent_lt (a b x y : Bytes) :
    encodeComponent a ++ x < encodeComponent b ++ y ↔ a < b ∨ (a = b ∧ x < y) := by
  induction a generalizing b with
  | nil =>
    cases b with
    | nil => simp
    | cons c b =>
      by_cases h : c = 0
      · subst h
        simp [List.cons_lt_cons_iff]
      · simp [encodeComponent_ne h, List.cons_lt_cons_iff, zero_lt_byte h]
  | cons d a ih =>
    cases b with
    | nil =>
      by_cases h : d = 0
      · subst h
        simp [List.cons_lt_cons_iff]
      · simp [encodeComponent_ne h, List.cons_lt_cons_iff, h]
    | cons c b =>
      by_cases hd : d = 0 <;> by_cases hc : c = 0
      · subst hd hc
        simp [ih]
      · subst hd
        simp [encodeComponent_ne hc, List.cons_lt_cons_iff, zero_lt_byte hc]
      · subst hc
        simp [encodeComponent_ne hd, List.cons_lt_cons_iff, hd]
      · rw [encodeComponent_ne hd, encodeComponent_ne hc, List.cons_append, List.cons_append,
          List.cons_lt_cons_iff, List.cons_lt_cons_iff, ih, List.cons.injEq]
        tauto

namespace DocumentKey

theorem lt_iff (a b : DocumentKey) : a < b ↔ a.pk < b.pk ∨ (a.pk = b.pk ∧ a.sk < b.sk) := by
  show toLex (a.pk, a.sk) < toLex (b.pk, b.sk) ↔ _
  rw [Prod.Lex.lt_iff]
  rfl

theorem encode_lt_encode (a b : DocumentKey) : a.encode < b.encode ↔ a < b := by
  have h := encodeComponent_lt a.pk b.pk (encodeComponent a.sk) (encodeComponent b.sk)
  have h' := encodeComponent_lt a.sk b.sk [] []
  simp only [List.append_nil, lt_irrefl, and_false, or_false] at h'
  rw [lt_iff, encode, encode, h, h']

theorem encode_le_encode (a b : DocumentKey) : a.encode ≤ b.encode ↔ a ≤ b := by
  rw [← not_lt, ← not_lt, encode_lt_encode]

theorem pk_le_of_le {a b : DocumentKey} (h : a ≤ b) : a.pk ≤ b.pk := by
  by_contra hlt
  exact h.not_gt ((lt_iff b a).mpr (.inl (not_le.mp hlt)))

/-- Comparing two keys first by `pk`, then by `sk`. -/
theorem cmp_eq (a b : DocumentKey) : cmp a b = (cmp a.pk b.pk).then (cmp a.sk b.sk) := by
  unfold cmp cmpUsing
  simp only [lt_iff]
  rcases lt_trichotomy a.pk b.pk with h | h | h
  · simp [h]
  · rcases lt_trichotomy a.sk b.sk with h' | h' | h'
    · simp [h, h']
    · simp [h, h']
    · simp [h, h', h'.not_gt]
  · simp [h, h.not_gt, h.ne']

/-- Comparing encodings byte by byte compares keys, so the encodings of one primary key are a run
that begins with its empty sort key. -/
theorem cmp_encode (a b : DocumentKey) :
    cmp a.encode b.encode = (cmp a.pk b.pk).then (cmp a.sk b.sk) ∧
    encode ⟨a.pk, []⟩ ≤ a.encode ∧
    ∀ c : DocumentKey, a.pk = b.pk → a.encode ≤ c.encode → c.encode ≤ b.encode → c.pk = a.pk := by
  refine ⟨?_, ?_, fun c hpk hac hcb => ?_⟩
  · rw [← cmp_eq]
    unfold cmp cmpUsing
    simp only [encode_lt_encode]
  · rw [encode_le_encode, ← not_lt, lt_iff]
    simp
  · have h₁ := pk_le_of_le ((encode_le_encode a c).mp hac)
    have h₂ := pk_le_of_le ((encode_le_encode c b).mp hcb)
    exact le_antisymm (hpk ▸ h₂) h₁

end DocumentKey

end Dodb
