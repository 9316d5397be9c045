import Dodb.Lib.File

/-! Programs that work on one file.

`Turns` is a rule of pre- and postconditions for programs that change one file only: what they make of it when they end,
what may be left of it when the medium fails or the power is lost, and that nothing else fails them. -/
namespace Dodb.Lib

variable {κ μ ε α β : Type} [DecidableEq κ]

section Memory
variable {files : κ → File} {x : μ} {b : Bool} {S : α → Machine κ μ → Prop} {E : ε → Machine κ μ → Prop}
  {H : Machine κ μ → Prop}

omit [DecidableEq κ] in
theorem memory_bind_spec {g : μ → Io (Machine κ μ) ε α} (h : Io.Spec (Machine.At files x b) (g x) S E H) :
    Io.Spec (Machine.At files x b) (memory >>= g) S E H := by
  intro m hm
  have hg : (memory >>= g) m = g x m := by
    show g m.memory m = g x m
    rw [hm.memory]
  rw [hg]
  exact h m hm

omit [DecidableEq κ] in
theorem modifyMemory_bind_spec {f : μ → μ} {g : PUnit → Io (Machine κ μ) ε α}
    (h : Io.Spec (Machine.At files (f x) b) (g ⟨⟩) S E H) :
    Io.Spec (Machine.At files x b) (modifyMemory f >>= g) S E H := by
  intro m hm
  refine h (m.setMemory (f m.memory)) ⟨hm.files, ?_, hm.faulted⟩
  rw [Machine.memory_setMemory, hm.memory]

end Memory

/-- The machine is at `files` and `x` but for the file `k`, which has `P`. -/
def Machine.With (files : κ → File) (x : μ) (b : Bool) (k : κ) (P : File → Prop) (m : Machine κ μ) : Prop :=
  ∃ f, P f ∧ m.At (Function.update files k f) x b

/-- From a file `k` with `P` the program leaves one with `Q`, or one with `R` when it does not end well. It changes no
other file and not the memory `x`, and it fails only where the medium does. -/
def Turns (x : μ) (k : κ) (P : File → Prop) (p : Io (Machine κ μ) ε α) (Q : α → File → Prop) (R : File → Prop) : Prop :=
  ∀ (files : κ → File) (b : Bool), Io.Spec (Machine.With files x b k P) p (fun a m => m.With files x b k (Q a))
    (fun _ m => m.With files x true k R) fun m => m.With files x b k R

namespace Turns

variable {x : μ} {k : κ} {P P' : File → Prop} {Q Q' : α → File → Prop} {R : File → Prop} {f : File}
  {p : Io (Machine κ μ) ε α}

/-- The rule, for a machine. -/
theorem spec {files : κ → File} {b : Bool} (h : Turns x k P p Q R) (hP : P (files k)) :
    Io.Spec (Machine.At files x b) p (fun a m => m.With files x b k (Q a)) (fun _ m => m.With files x true k R)
      fun m => m.With files x b k R := by
  refine (h files b).pre fun m hm => ⟨files k, hP, ?_⟩
  rwa [Function.update_eq_self]

/-- The rule, for a machine that goes on with another file. -/
theorem bind_spec {g : α → Io (Machine κ μ) ε β} {files : κ → File} {b : Bool} {S : β → Machine κ μ → Prop}
    {E : ε → Machine κ μ → Prop} {H : Machine κ μ → Prop} (h : Turns x k P p Q R) (hP : P (files k))
    (hg : ∀ a f, Q a f → Io.Spec (Machine.At (Function.update files k f) x b) (g a) S E H)
    (hE : ∀ e f m, R f → m.At (Function.update files k f) x true → E e m)
    (hH : ∀ f m, R f → m.At (Function.update files k f) x b → H m) : Io.Spec (Machine.At files x b) (p >>= g) S E H := by
  refine Io.Spec.bind ((h.spec hP).conseq (fun _ h => h) (fun _ _ h => h) (fun e m hm => ?_) fun m hm => ?_) fun a => ?_
  · obtain ⟨f, hf, hm⟩ := hm
    exact hE e f m hf hm
  · obtain ⟨f, hf, hm⟩ := hm
    exact hH f m hf hm
  · refine Io.Spec.of_start fun m hm => ?_
    obtain ⟨f, hf, hm⟩ := hm
    exact (hg a f hf).pre fun m' hm' => hm' ▸ hm

theorem conseq (h : Turns x k P p Q R) (hP : ∀ f, P' f → P f) (hQ : ∀ a f, Q a f → Q' a f) : Turns x k P' p Q' R := by
  intro files b
  refine (h files b).conseq (fun m hm => ?_) (fun a m hm => ?_) (fun _ _ hm => hm) fun _ hm => hm
  · obtain ⟨f, hf, hm⟩ := hm
    exact ⟨f, hP f hf, hm⟩
  · obtain ⟨f, hf, hm⟩ := hm
    exact ⟨f, hQ a f hf, hm⟩

theorem of_file (h : ∀ f, P f → Turns x k (fun g => g = f) p Q R) : Turns x k P p Q R := by
  intro files b
  refine Io.Spec.of_start fun m hm => ?_
  obtain ⟨f, hf, hm⟩ := hm
  refine (h f hf files b).pre fun m' hm' => ?_
  subst hm'
  exact ⟨f, rfl, hm⟩

theorem pure {a : α} (h : ∀ f, P f → Q a f) : Turns x k P (Pure.pure a : Io (Machine κ μ) ε α) Q R := by
  intro files b
  refine Io.Spec.pure fun m hm => ?_
  obtain ⟨f, hf, hm⟩ := hm
  exact ⟨f, h f hf, hm⟩

theorem bind {g : α → Io (Machine κ μ) ε β} {S : β → File → Prop} (hp : Turns x k P p Q R)
    (hg : ∀ a, Turns x k (Q a) (g a) S R) : Turns x k P (p >>= g) S R :=
  fun files b => .bind (hp files b) fun a => hg a files b

/-- A first part that answers `a` and leaves the file `f`. -/
theorem bind_eq {a : α} {g : α → Io (Machine κ μ) ε β} {S : β → File → Prop}
    (hp : Turns x k P p (fun b h => h = f ∧ b = a) R) (hg : Turns x k (fun h => h = f) (g a) S R) :
    Turns x k P (p >>= g) S R :=
  hp.bind fun _ => .of_file fun _ h => by rwa [h.1, h.2]

theorem ite {c : Prop} [Decidable c] {q : Io (Machine κ μ) ε α} (hp : c → Turns x k P p Q R) (hq : ¬c → Turns x k P q Q R) :
    Turns x k P (if c then p else q) Q R :=
  fun files b => .ite (fun hc => hp hc files b) fun hc => hq hc files b

theorem mapError {g : ε → ε} (h : Turns x k P p Q R) : Turns x k P (Io.mapError g p) Q R :=
  fun files b => .mapError (h files b)

theorem memory : Turns x k P (memory : Io (Machine κ μ) ε μ) (fun a f => P f ∧ a = x) R := by
  intro files b m hm
  obtain ⟨f, hf, hm⟩ := hm
  exact ⟨f, ⟨hf, hm.memory⟩, hm⟩

/-- The rule, for a program whose effect on the file `f` is known. -/
theorem of_spec (h : ∀ (files : κ → File) (b : Bool), files k = f →
    Io.Spec (Machine.At files x b) p (fun a m => m.With files x b k (Q a)) (fun _ m => m.With files x true k R)
      fun m => m.With files x b k R) : Turns x k (fun g => g = f) p Q R := by
  intro files b
  refine Io.Spec.of_start fun m hm => ?_
  obtain ⟨_, rfl, hm⟩ := hm
  refine ((h _ b (Function.update_self ..)).pre fun m' hm' => hm' ▸ hm).conseq (fun _ h => h) ?_ ?_ ?_
  all_goals
    unfold Machine.With
    simp only [Function.update_idem]
  · exact fun _ _ h => h
  · exact fun _ _ h => h
  · exact fun _ h => h

/-- The rule, for a program with a memory of its own that it does not change. -/
theorem runOn {ν : Type} {y : ν} {q : Io (Machine κ ν) ε α} (h : Turns y k P q Q R) :
    Turns x k P (runOn y q : Io (Machine κ μ) ε (α × ν)) (fun r f => r.2 = y ∧ Q r.1 f) R := by
  intro files b m hm
  obtain ⟨f, hf, hm⟩ := hm
  have hq := h files b ⟨m.files, y, m.schedule, m.faulted⟩ ⟨f, hf, hm.files, rfl, hm.faulted⟩
  unfold Lib.runOn
  cases hrun : q ⟨m.files, y, m.schedule, m.faulted⟩ with
  | ok a n =>
    rw [hrun] at hq
    obtain ⟨g, hg, hn⟩ := hq
    exact ⟨g, ⟨hn.memory, hg⟩, hn.files, hm.memory, hn.faulted⟩
  | err | halt =>
    rw [hrun] at hq
    obtain ⟨g, hg, hn⟩ := hq
    exact ⟨g, hg, hn.files, hm.memory, hn.faulted⟩

variable {failure : ε} {files : κ → File} {b : Bool} {m : Machine κ μ}

theorem with_same (hk : files k = f) (hP : P f) (hm : m.At files x b) : m.With files x b k P := by
  refine ⟨f, hP, ?_⟩
  rwa [← hk, Function.update_eq_self]

theorem fileLength (hR : R f) : Turns x k (fun g => g = f) (fileLength failure k : Io (Machine κ μ) ε Nat)
    (fun n g => g = f ∧ n = f.volatile.length) R := by
  refine of_spec fun files b hk => fileLength_spec.conseq (fun _ h => h) (fun n m h => ?_) (fun e m h => ?_) fun m h => ?_
  · exact with_same hk ⟨rfl, hk ▸ h.1⟩ h.2
  · exact with_same hk hR h.2
  · exact with_same hk hR h

theorem readAt {short : ε} {offset length : Nat} (hR : R f) (hlength : offset + length ≤ f.volatile.length) :
    Turns x k (fun g => g = f) (readAt failure short k offset length : Io (Machine κ μ) ε Bytes)
      (fun bs g => g = f ∧ bs = slice f.volatile offset length) R := by
  refine of_spec fun files b hk => readAt_spec.conseq (fun _ h => h) (fun n m h => ?_) (fun e m h => ?_) fun m h => ?_
  · exact with_same hk ⟨rfl, hk ▸ h.1⟩ h.2.2
  · obtain ⟨-, hshort, -⟩ | ⟨-, h⟩ := h
    · rw [hk, slice, List.length_take, List.length_drop] at hshort
      exact absurd (by omega) hshort
    · exact with_same hk hR h
  · exact with_same hk hR h

theorem writeAt {offset : Nat} {bs : Bytes} {mayLeave : File → Bytes → Bool}
    (hR : ∀ g, f.WriteCut offset bs mayLeave g → R g) :
    Turns x k (fun g => g = f) (writeAt failure k offset bs mayLeave : Io (Machine κ μ) ε PUnit)
      (fun _ g => g = f.write offset bs) R := by
  refine of_spec fun files b hk => writeAt_spec.conseq (fun _ h => h) (fun n m h => ?_) (fun e m h => ?_) fun m h => ?_
  · exact ⟨_, by rw [hk], h⟩
  · obtain ⟨-, g, hg, h⟩ := h
    exact ⟨g, hR g (hk ▸ hg), h⟩
  · obtain ⟨g, hg, h⟩ := h
    exact ⟨g, hR g (hk ▸ hg), h⟩

theorem setLength {length : Nat} (hR : R f) (hset : length ≤ maxFileLength → R (f.setLength length)) :
    Turns x k (fun g => g = f) (setLength failure k length : Io (Machine κ μ) ε PUnit)
      (fun _ g => g = f.setLength length ∧ length ≤ maxFileLength) R := by
  by_cases hle : length ≤ maxFileLength
  · refine of_spec fun files b hk => setLength_spec.conseq (fun _ h => h) (fun n m h => ?_) (fun e m h => ?_) fun m h => ?_
    · exact ⟨_, ⟨by rw [hk], h.1⟩, h.2⟩
    · exact h.2.elim (with_same hk hR) fun h => ⟨_, by rw [hk]; exact hset hle, h⟩
    · exact h.elim (with_same hk hR) fun h => ⟨_, by rw [hk]; exact hset hle, h⟩
  · refine of_spec fun files b hk m hm => ?_
    unfold Lib.setLength
    rw [if_pos (Nat.not_le.mp hle)]
    exact with_same hk hR ⟨hm.files, hm.memory, rfl⟩

theorem syncFile (hR : R f) (hsync : R f.sync) :
    Turns x k (fun g => g = f) (syncFile failure k : Io (Machine κ μ) ε PUnit) (fun _ g => g = f.sync) R := by
  refine of_spec fun files b hk => syncFile_spec.conseq (fun _ h => h) (fun n m h => ?_) (fun e m h => ?_) fun m h => ?_
  · exact ⟨_, by rw [hk], h⟩
  · exact h.2.elim (with_same hk hR) fun h => ⟨_, by rwa [hk], h⟩
  · exact h.elim (with_same hk hR) fun h => ⟨_, by rwa [hk], h⟩

/-- A program that appends, on a file that is not too long. -/
theorem of_appends {a : α} {bs : Bytes} (h : Appends failure k p a bs) (hf : f.Bounded)
    (hR : ∀ n, (f.append (bs.take n)).Bounded → R (f.append (bs.take n))) :
    Turns x k (fun g => g = f) p (fun r g => r = a ∧ g = f.append bs ∧ g.Bounded) R := by
  refine of_spec fun files b hk => ?_
  have hbounded : (files k).Bounded := by rwa [hk]
  refine (h files x b []).conseq (fun m hm => hm.grown hbounded) (fun r m hm => ?_) (fun e m hm => ?_) fun m hm => ?_
  · refine ⟨_, ⟨hm.1, ?_, hm.2.bounded⟩, hm.2.at_⟩
    rw [hk, List.nil_append]
  · obtain ⟨-, n, hm⟩ := hm
    have hleft := hm.bounded
    rw [hk, List.nil_append] at hleft
    refine ⟨_, ?_, hm.at_⟩
    rw [hk, List.nil_append]
    exact hR n hleft
  · obtain ⟨n, hm⟩ := hm
    have hleft := hm.bounded
    rw [hk, List.nil_append] at hleft
    refine ⟨_, ?_, hm.at_⟩
    rw [hk, List.nil_append]
    exact hR n hleft

end Turns

end Dodb.Lib
