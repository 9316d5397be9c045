import Dodb.Lib.Bytes
import Dodb.Lib.Io

/-! Files that lose what was not synced.

A file is the bytes a reader sees (`volatile`) and the bytes on the medium
(`durable`). Writing and resizing change the first; a sync copies it to the
second. `intact` counts the leading durable bytes that no operation since the
last sync has touched: after a power loss a file that is only appended to holds
either its durable bytes or its volatile bytes cut anywhere past `intact`
(`TailLoss`), while a file written block by block holds, block by block, the old
bytes, the new ones, or a mixture of both that its reader refuses (`BlockLoss`).

A machine has several files, a memory, and a schedule that says what becomes of
each file operation: it succeeds, it fails, or the process stops there. A write
that is cut short leaves part of itself behind. -/
namespace Dodb.Lib

/-- The longest file the medium holds: offsets are signed 64-bit numbers. -/
def maxFileLength : Nat := 2 ^ 63 - 1

/-- What readers find, what is on the medium, and how much of that is untouched since the last sync. -/
structure File where
  volatile : Bytes := []
  durable : Bytes := []
  intact : Nat := 0
  deriving DecidableEq

namespace File

/-- A file just found on the medium. -/
def ofDurable (bs : Bytes) : File := ⟨bs, bs, bs.length⟩

/-- From `offset` on, nothing is certain until the next sync. -/
def write (f : File) (offset : Nat) (bs : Bytes) : File :=
  {f with volatile := splice f.volatile offset bs, intact := min f.intact offset}

def setLength (f : File) (length : Nat) : File :=
  {f with volatile := resize f.volatile length, intact := min f.intact length}

/-- After a sync a crash can lose nothing. -/
def sync (f : File) : File := ofDurable f.volatile

def append (f : File) (bs : Bytes) : File := {f with volatile := f.volatile ++ bs}

/-- The file is no longer than the medium allows, and no more bytes are counted as untouched than
there are. -/
structure Bounded (f : File) : Prop where
  intact : f.intact ≤ f.volatile.length
  length : f.volatile.length ≤ maxFileLength

theorem Bounded.write_end {f : File} (h : f.Bounded) (bs : Bytes) : f.write f.volatile.length bs = f.append bs := by
  unfold write File.append
  rw [splice_end, Nat.min_eq_left h.intact]

theorem Bounded.append {f : File} (h : f.Bounded) {bs : Bytes} (hbs : f.volatile.length + bs.length ≤ maxFileLength) :
    (f.append bs).Bounded := by
  have hlen : (f.append bs).volatile.length = f.volatile.length + bs.length := List.length_append
  refine ⟨?_, hlen ▸ hbs⟩
  rw [hlen]
  exact Nat.le_add_right_of_le h.intact

theorem append_append (f : File) (bs cs : Bytes) : (f.append bs).append cs = f.append (bs ++ cs) := by
  simp [append]

@[simp] theorem append_nil (f : File) : f.append [] = f := by simp [append]

/-- What a power loss leaves of a file that is appended to. -/
def TailLoss (f : File) (bs : Bytes) : Prop :=
  bs = f.durable ∨ ∃ n, f.intact ≤ n ∧ bs = f.volatile.take n

/-- A file that is as on the medium loses nothing. -/
theorem tailLoss_ofDurable {bs left : Bytes} (h : (ofDurable bs).TailLoss left) : left = bs := by
  obtain rfl | ⟨n, hn, rfl⟩ := h
  · rfl
  · exact List.take_of_length_le hn

/-- The `i`th block of `size` bytes. -/
def block (size : Nat) (bs : Bytes) (i : Nat) : Bytes := slice bs (i * size) size

/-- Every byte of `bs` is the byte at its place in `old` or in `new`. -/
def Mixed (old new bs : Bytes) : Prop :=
  bs.length = new.length ∧ ∀ i < bs.length, bs.getD i 0 = old.getD i 0 ∨ bs.getD i 0 = new.getD i 0

instance (old new bs : Bytes) : Decidable (Mixed old new bs) :=
  inferInstanceAs (Decidable (_ ∧ _))

/-- What a power loss leaves of a file written in blocks of `size` bytes, when a
partly written block is one that `refused` holds of: whole blocks, no fewer than
were durable and no more than were written, each old, new or refused. -/
def BlockLoss (size : Nat) (refused : Nat → Bytes → Prop) (f : File) (bs : Bytes) : Prop :=
  size ∣ bs.length ∧ f.durable.length ≤ bs.length ∧ bs.length ≤ f.volatile.length ∧
    ∀ i, (i + 1) * size ≤ bs.length →
      block size bs i = block size (resize f.durable f.volatile.length) i ∨
      block size bs i = block size f.volatile i ∨
      (Mixed (block size (resize f.durable f.volatile.length) i) (block size f.volatile i)
        (block size bs i) ∧ refused i (block size bs i))

end File

/-! ### Machines -/

/-- How far an operation that did not succeed got. -/
inductive Progress where
  | nothing
  | everything
  | part (left : Bytes)
  deriving DecidableEq

/-- What is in store for one operation on a file. -/
inductive Event where
  | succeed
  | fail (progress : Progress)
  | stop (progress : Progress)
  deriving DecidableEq

/-- `faulted` records that some operation failed. -/
structure Machine (κ μ : Type) where
  files : κ → File
  memory : μ
  schedule : List Event
  faulted : Bool := false

namespace Machine

variable {κ μ : Type}

def setMemory (m : Machine κ μ) (x : μ) : Machine κ μ := {m with memory := x}

@[simp] theorem files_setMemory (m : Machine κ μ) (x : μ) : (m.setMemory x).files = m.files := rfl

@[simp] theorem memory_setMemory (m : Machine κ μ) (x : μ) : (m.setMemory x).memory = x := rfl

@[simp] theorem schedule_setMemory (m : Machine κ μ) (x : μ) :
    (m.setMemory x).schedule = m.schedule := rfl

@[simp] theorem faulted_setMemory (m : Machine κ μ) (x : μ) : (m.setMemory x).faulted = m.faulted := rfl

variable [DecidableEq κ]

def setFile (m : Machine κ μ) (k : κ) (f : File) : Machine κ μ :=
  {m with files := Function.update m.files k f}

section Fields
variable (m : Machine κ μ) (k j : κ) (f : File)

@[simp] theorem files_setFile_same : (m.setFile k f).files k = f := by simp [setFile]

@[simp] theorem files_setFile_ne (h : j ≠ k) : (m.setFile k f).files j = m.files j := by
  simp [setFile, h]

@[simp] theorem setFile_self : m.setFile k (m.files k) = m := by simp [setFile]

@[simp] theorem setFile_setFile (g : File) : (m.setFile k f).setFile k g = m.setFile k g := by simp [setFile]

@[simp] theorem memory_setFile : (m.setFile k f).memory = m.memory := rfl

@[simp] theorem schedule_setFile : (m.setFile k f).schedule = m.schedule := rfl

@[simp] theorem faulted_setFile : (m.setFile k f).faulted = m.faulted := rfl

end Fields

end Machine

/-! ### Parts of the memory -/

section Zoom
variable {κ μ ν ε α : Type}

/-- Runs a program on a part of the memory: `view` takes the part out and `back` puts
what became of it into the memory it was taken from, however the program ends. -/
def zoom (view : μ → ν) (back : ν → μ → μ) (p : Io (Machine κ ν) ε α) : Io (Machine κ μ) ε α := fun m =>
  match p ⟨m.files, view m.memory, m.schedule, m.faulted⟩ with
  | .ok a m' => .ok a ⟨m'.files, back m'.memory m.memory, m'.schedule, m'.faulted⟩
  | .err e m' => .err e ⟨m'.files, back m'.memory m.memory, m'.schedule, m'.faulted⟩
  | .halt m' => .halt ⟨m'.files, back m'.memory m.memory, m'.schedule, m'.faulted⟩

/-- Runs a program on a memory of its own and answers what became of that memory too. -/
def runOn (x : ν) (p : Io (Machine κ ν) ε α) : Io (Machine κ μ) ε (α × ν) := fun m =>
  match p ⟨m.files, x, m.schedule, m.faulted⟩ with
  | .ok a m' => .ok (a, m'.memory) ⟨m'.files, m.memory, m'.schedule, m'.faulted⟩
  | .err e m' => .err e ⟨m'.files, m.memory, m'.schedule, m'.faulted⟩
  | .halt m' => .halt ⟨m'.files, m.memory, m'.schedule, m'.faulted⟩

def memory : Io (Machine κ μ) ε μ := fun m => .ok m.memory m

def modifyMemory (f : μ → μ) : Io (Machine κ μ) ε PUnit := fun m => .ok ⟨⟩ (m.setMemory (f m.memory))

end Zoom

theorem zoom_eq_ok {ν α : Type} {view : μ → ν} {back : ν → μ → μ} {p : Io (Machine κ ν) ε α} {m m' : Machine κ μ}
    {a : α} (h : zoom view back p m = .ok a m') :
    ∃ n, p ⟨m.files, view m.memory, m.schedule, m.faulted⟩ = .ok a n ∧
      m' = ⟨n.files, back n.memory m.memory, n.schedule, n.faulted⟩ := by
  unfold zoom at h
  cases hp : p ⟨m.files, view m.memory, m.schedule, m.faulted⟩ with
  | ok b n =>
    rw [hp] at h
    cases h
    exact ⟨n, rfl, rfl⟩
  | err | halt =>
    rw [hp] at h
    cases h

/-! ### File operations

`change` is the operation's whole effect on its file; `cut`, for a write, the
effect of leaving some bytes instead of all of them. -/

section Operations
variable {κ μ ε α : Type} [DecidableEq κ]

/-- The file after an operation that got as far as `p`. -/
def Progress.apply (p : Progress) (f : File) (change : File) (cut : Bytes → Option File) : File :=
  match p with
  | .nothing => f
  | .everything => change
  | .part b => (cut b).getD f

/-- One operation on the file `k`, as the schedule decides. -/
def operate (failure : ε) (k : κ) (change : File → File) (cut : File → Bytes → Option File)
    (answer : File → α) : Io (Machine κ μ) ε α := fun m =>
  let f := m.files k
  match m.schedule with
  | [] => .ok (answer f) (m.setFile k (change f))
  | .succeed :: rest => .ok (answer f) {m.setFile k (change f) with schedule := rest}
  | .fail p :: rest =>
    .err failure {m.setFile k (p.apply f (change f) (cut f)) with schedule := rest, faulted := true}
  | .stop p :: rest => .halt {m.setFile k (p.apply f (change f) (cut f)) with schedule := rest}

def fileLength (failure : ε) (k : κ) : Io (Machine κ μ) ε Nat :=
  operate failure k id (fun _ _ => none) fun f => f.volatile.length

/-- Reads exactly `length` bytes; `short` is the error for a file that ends before. -/
def readAt (failure short : ε) (k : κ) (offset length : Nat) : Io (Machine κ μ) ε Bytes := do
  let bs ← operate failure k id (fun _ _ => none) fun f => slice f.volatile offset length
  if bs.length = length then pure bs else Io.raise short

/-- Writes all of `bs`; a write cut short leaves some `b` with `mayLeave b` in its place. -/
def writeAt (failure : ε) (k : κ) (offset : Nat) (bs : Bytes) (mayLeave : File → Bytes → Bool) :
    Io (Machine κ μ) ε PUnit :=
  fun m =>
    if offset + bs.length > maxFileLength then .err failure {m with faulted := true}
    else operate failure k (fun f => f.write offset bs)
      (fun f b => if mayLeave f b then some (f.write offset b) else none) (fun _ => ⟨⟩) m

def setLength (failure : ε) (k : κ) (length : Nat) : Io (Machine κ μ) ε PUnit :=
  fun m =>
    if length > maxFileLength then .err failure {m with faulted := true}
    else operate failure k (fun f => f.setLength length) (fun _ _ => none) (fun _ => ⟨⟩) m

/-- A sync that fails may still have reached the medium. -/
def syncFile (failure : ε) (k : κ) : Io (Machine κ μ) ε PUnit :=
  operate failure k File.sync (fun _ _ => none) fun _ => ⟨⟩

end Operations

/-! ### What the operations do

The schedule decides only which of its three ends an operation takes, so that a machine is
described by its files, its memory and whether an operation has failed. -/

section Rules
variable {κ μ ε α : Type} [DecidableEq κ] {files : κ → File} {x : μ} {b : Bool} {failure : ε} {k : κ}
variable {bs : Bytes} {Q : α → Prop}

omit [DecidableEq κ] in
/-- The machine but for its schedule. -/
structure Machine.At (files : κ → File) (x : μ) (b : Bool) (m : Machine κ μ) : Prop where
  files : m.files = files
  memory : m.memory = x
  faulted : m.faulted = b

theorem operate_spec {change : File → File} {cut : File → Bytes → Option File} {answer : File → α} :
    Io.Spec (Machine.At files x b) (operate failure k change cut answer)
      (fun a m => a = answer (files k) ∧ m.At (Function.update files k (change (files k))) x b)
      (fun e m => e = failure ∧ ∃ p : Progress,
        m.At (Function.update files k (p.apply (files k) (change (files k)) (cut (files k)))) x true)
      (fun m => ∃ p : Progress,
        m.At (Function.update files k (p.apply (files k) (change (files k)) (cut (files k)))) x b) := by
  rintro m ⟨rfl, rfl, rfl⟩
  unfold operate
  obtain ⟨files, x, schedule, b⟩ := m
  obtain _ | ⟨_ | p | p, rest⟩ := schedule
  · exact ⟨rfl, rfl, rfl, rfl⟩
  · exact ⟨rfl, rfl, rfl, rfl⟩
  · exact ⟨rfl, p, rfl, rfl, rfl⟩
  · exact ⟨p, rfl, rfl, rfl⟩

/-- An operation that a failure does not cut short: it has its whole effect or none. -/
theorem operate_whole_spec {change : File → File} {answer : File → α} :
    Io.Spec (Machine.At files x b) (operate failure k change (fun _ _ => none) answer)
      (fun a m => a = answer (files k) ∧ m.At (Function.update files k (change (files k))) x b)
      (fun e m => e = failure ∧ (m.At files x true ∨ m.At (Function.update files k (change (files k))) x true))
      (fun m => m.At files x b ∨ m.At (Function.update files k (change (files k))) x b) := by
  have hpart : ∀ {m : Machine κ μ} {b : Bool} (p : Progress),
      m.At (Function.update files k (p.apply (files k) (change (files k)) fun _ => none)) x b →
        m.At files x b ∨ m.At (Function.update files k (change (files k))) x b := by
    intro m b p hm
    cases p with
    | everything => exact .inr hm
    | nothing | part => exact .inl (by simpa [Progress.apply] using hm)
  refine operate_spec.conseq (fun _ h => h) (fun _ _ h => h) ?_ ?_
  · intro e m ⟨he, p, hm⟩
    exact ⟨he, hpart p hm⟩
  · intro m ⟨p, hm⟩
    exact hpart p hm

theorem syncFile_spec : Io.Spec (Machine.At files x b) (syncFile failure k)
    (fun _ m => m.At (Function.update files k (files k).sync) x b)
    (fun e m => e = failure ∧ (m.At files x true ∨ m.At (Function.update files k (files k).sync) x true))
    (fun m => m.At files x b ∨ m.At (Function.update files k (files k).sync) x b) :=
  operate_whole_spec.conseq (fun _ h => h) (fun _ _ h => h.2) (fun _ _ h => h) fun _ h => h

theorem fileLength_spec : Io.Spec (Machine.At files x b) (fileLength failure k)
    (fun n m => n = (files k).volatile.length ∧ m.At files x b)
    (fun e m => e = failure ∧ m.At files x true) (fun m => m.At files x b) := by
  refine operate_spec.conseq (fun _ h => h) ?_ ?_ ?_
  · rintro n m ⟨hn, hm⟩
    rw [id, Function.update_eq_self] at hm
    exact ⟨hn, hm⟩
  · rintro e m ⟨he, p, hm⟩
    refine ⟨he, ?_⟩
    cases p <;> simpa [Progress.apply] using hm
  · rintro m ⟨p, hm⟩
    cases p <;> simpa [Progress.apply] using hm

theorem setLength_spec {length : Nat} : Io.Spec (Machine.At files x b) (setLength failure k length)
    (fun _ m => length ≤ maxFileLength ∧ m.At (Function.update files k ((files k).setLength length)) x b)
    (fun e m => e = failure ∧ (m.At files x true ∨ m.At (Function.update files k ((files k).setLength length)) x true))
    (fun m => m.At files x b ∨ m.At (Function.update files k ((files k).setLength length)) x b) := by
  intro m hm
  unfold setLength
  by_cases hlong : length > maxFileLength
  · rw [if_pos hlong]
    exact ⟨rfl, .inl ⟨hm.files, hm.memory, rfl⟩⟩
  · rw [if_neg hlong]
    exact operate_whole_spec.conseq (fun _ h => h) (fun _ _ h => ⟨not_lt.mp hlong, h.2⟩) (fun _ _ h => h)
      (fun _ h => h) m hm

/-- What a write that did not succeed leaves: nothing of it, all of it, or bytes it may leave. -/
def File.WriteCut (f : File) (offset : Nat) (bs : Bytes) (mayLeave : File → Bytes → Bool) (f' : File) : Prop :=
  f' = f ∨ f' = f.write offset bs ∨ ∃ left, mayLeave f left = true ∧ f' = f.write offset left

theorem writeAt_spec {offset : Nat} {mayLeave : File → Bytes → Bool} :
    Io.Spec (Machine.At files x b) (writeAt failure k offset bs mayLeave)
      (fun _ m => m.At (Function.update files k ((files k).write offset bs)) x b)
      (fun e m => e = failure ∧ ∃ f', (files k).WriteCut offset bs mayLeave f' ∧
        m.At (Function.update files k f') x true)
      (fun m => ∃ f', (files k).WriteCut offset bs mayLeave f' ∧ m.At (Function.update files k f') x b) := by
  have hcut : ∀ p : Progress, (files k).WriteCut offset bs mayLeave (p.apply (files k) ((files k).write offset bs)
      fun left => if mayLeave (files k) left then some ((files k).write offset left) else none) := by
    intro p
    cases p with
    | nothing => exact .inl rfl
    | everything => exact .inr (.inl rfl)
    | part left =>
      by_cases hleft : mayLeave (files k) left = true
      · exact .inr (.inr ⟨left, hleft, by simp [Progress.apply, hleft]⟩)
      · exact .inl (by simp [Progress.apply, hleft])
  intro m hm
  unfold writeAt
  by_cases hlong : offset + bs.length > maxFileLength
  · rw [if_pos hlong]
    refine ⟨rfl, files k, .inl rfl, ?_⟩
    rw [Function.update_eq_self]
    exact ⟨hm.files, hm.memory, rfl⟩
  · rw [if_neg hlong]
    refine operate_spec.conseq (fun _ h => h) (fun _ _ h => h.2) ?_ ?_ m hm
    · intro e m' ⟨he, p, hm'⟩
      exact ⟨he, _, hcut p, hm'⟩
    · intro m' ⟨p, hm'⟩
      exact ⟨_, hcut p, hm'⟩

theorem readAt_spec {short : ε} {offset length : Nat} :
    Io.Spec (Machine.At files x b) (readAt failure short k offset length)
      (fun bs m => bs = slice (files k).volatile offset length ∧ bs.length = length ∧ m.At files x b)
      (fun e m => e = short ∧ (slice (files k).volatile offset length).length ≠ length ∧ m.At files x b ∨
        e = failure ∧ m.At files x true)
      (fun m => m.At files x b) := by
  have hread : Io.Spec (Machine.At files x b)
      (operate failure k id (fun _ _ => none) fun f => slice f.volatile offset length)
      (fun bs m => bs = slice (files k).volatile offset length ∧ m.At files x b)
      (fun e m => e = failure ∧ m.At files x true) (fun m => m.At files x b) := by
    refine operate_spec.conseq (fun _ h => h) ?_ ?_ ?_
    · rintro bs m ⟨hbs, hm⟩
      rw [id, Function.update_eq_self] at hm
      exact ⟨hbs, hm⟩
    · rintro e m ⟨he, p, hm⟩
      refine ⟨he, ?_⟩
      cases p <;> simpa [Progress.apply] using hm
    · rintro m ⟨p, hm⟩
      cases p <;> simpa [Progress.apply] using hm
  refine Io.Spec.bind (hread.conseq (fun _ h => h) (fun _ _ h => h) (fun _ _ h => .inr h) fun _ h => h) fun bs => ?_
  refine Io.Spec.assume fun hbs => ?_
  refine Io.Spec.ite (fun hlen => .pure fun m hm => ⟨hbs, hlen, hm⟩) fun hlen => ?_
  exact Io.Spec.raise fun m hm => .inl ⟨rfl, hbs ▸ hlen, hm⟩

omit [DecidableEq κ] in
/-- A rule for the machine as a whole is one for its files. -/
theorem Io.Spec.of_files {p : Io (Machine κ μ) ε α} {Q : α → (κ → File) → Prop}
    (h : ∀ x b, Io.Spec (Machine.At files x b) p (fun a m => Q a m.files) (fun _ m => m.files = files)
      fun m => m.files = files) :
    Io.Spec (fun m => m.files = files) p (fun a m => Q a m.files) (fun _ m => m.files = files)
      fun m => m.files = files :=
  fun m hm => h m.memory m.faulted m ⟨hm, rfl, rfl⟩

theorem fileLength_reads : Io.Spec (fun m : Machine κ μ => m.files = files) (fileLength failure k)
    (fun n m => n = (files k).volatile.length ∧ m.files = files) (fun _ m => m.files = files) fun m => m.files = files := by
  apply Io.Spec.of_files (Q := fun n f => n = (files k).volatile.length ∧ f = files)
  intro x b
  exact fileLength_spec.conseq (fun _ h => h) (fun _ _ h => ⟨h.1, h.2.files⟩) (fun _ _ h => h.2.files) fun _ h => h.files

theorem readAt_reads {short : ε} {offset length : Nat} :
    Io.Spec (fun m : Machine κ μ => m.files = files) (readAt failure short k offset length)
      (fun bs m => bs = slice (files k).volatile offset length ∧ m.files = files) (fun _ m => m.files = files)
      fun m => m.files = files := by
  apply Io.Spec.of_files (Q := fun bs f => bs = slice (files k).volatile offset length ∧ f = files)
  intro x b
  refine readAt_spec.conseq (fun _ h => h) (fun _ _ h => ⟨h.1, h.2.2.files⟩) (fun _ _ h => ?_) fun _ h => h.files
  cases h with
  | inl hshort => exact hshort.2.2.files
  | inr hfailed => exact hfailed.2.files

omit [DecidableEq κ] in
/-- A program on a part of the memory, from one machine. -/
theorem zoom_spec_from {ν : Type} {view : μ → ν} {back : ν → μ → μ} {p : Io (Machine κ ν) ε α}
    {Q : α → Machine κ ν → Prop} {E : ε → Machine κ ν → Prop} {H : Machine κ ν → Prop} {m₀ : Machine κ μ}
    (h : Io.Spec (fun n => n = ⟨m₀.files, view m₀.memory, m₀.schedule, m₀.faulted⟩) p Q E H) :
    Io.Spec (fun m => m = m₀) (zoom view back p)
      (fun a m => ∃ n, Q a n ∧ m = ⟨n.files, back n.memory m₀.memory, n.schedule, n.faulted⟩)
      (fun e m => ∃ n, E e n ∧ m = ⟨n.files, back n.memory m₀.memory, n.schedule, n.faulted⟩)
      (fun m => ∃ n, H n ∧ m = ⟨n.files, back n.memory m₀.memory, n.schedule, n.faulted⟩) := by
  intro m hm
  rw [hm]
  have hend := h _ rfl
  unfold zoom
  cases hrun : p ⟨m₀.files, view m₀.memory, m₀.schedule, m₀.faulted⟩ with
  | ok a n | err e n | halt n =>
    rw [hrun] at hend
    exact ⟨n, hend, rfl⟩

omit [DecidableEq κ] in
/-- A program on a part of the memory does to the part what it does. -/
theorem zoom_spec {ν : Type} {view : μ → ν} {back : ν → μ → μ} {p : Io (Machine κ ν) ε α} {Q : α → Machine κ ν → Prop}
    {E : ε → Machine κ ν → Prop} {H : Machine κ ν → Prop} (h : Io.Spec (Machine.At files (view x) b) p Q E H) :
    Io.Spec (Machine.At files x b) (zoom view back p)
      (fun a m => ∃ n, Q a n ∧ m = ⟨n.files, back n.memory x, n.schedule, n.faulted⟩)
      (fun e m => ∃ n, E e n ∧ m = ⟨n.files, back n.memory x, n.schedule, n.faulted⟩)
      (fun m => ∃ n, H n ∧ m = ⟨n.files, back n.memory x, n.schedule, n.faulted⟩) := by
  refine Io.Spec.of_start fun m₀ hm₀ => ?_
  rw [← hm₀.memory]
  exact zoom_spec_from (h.pre fun n hn => hn ▸ ⟨hm₀.files, congrArg view hm₀.memory, hm₀.faulted⟩)

/-! ### What reading keeps -/

section Keeps
variable {J : (κ → File) → μ → Prop}

theorem look_keeps (k : κ) (answer : File → α) :
    Io.Keeps (fun m : Machine κ μ => J m.files m.memory) (operate failure k id (fun _ _ => none) answer) := by
  intro m h
  obtain ⟨files, x, schedule, b⟩ := m
  have hsame : Function.update files k (files k) = files := Function.update_eq_self k files
  unfold operate
  obtain _ | ⟨_ | p | p, rest⟩ := schedule
  · simpa [Machine.setFile, hsame, Outcome.state] using h
  · simpa [Machine.setFile, hsame, Outcome.state] using h
  · cases p <;> simpa [Machine.setFile, hsame, Outcome.state, Progress.apply] using h
  · cases p <;> simpa [Machine.setFile, hsame, Outcome.state, Progress.apply] using h

theorem fileLength_keeps (k : κ) : Io.Keeps (fun m : Machine κ μ => J m.files m.memory) (fileLength failure k) :=
  look_keeps k _

theorem readAt_keeps (short : ε) (k : κ) (offset length : Nat) :
    Io.Keeps (fun m : Machine κ μ => J m.files m.memory) (readAt failure short k offset length) :=
  (look_keeps k _).bind fun bs => .ite (.pure bs) (.raise short)

omit [DecidableEq κ] in
theorem memory_keeps {I : Machine κ μ → Prop} : Io.Keeps I (memory : Io (Machine κ μ) ε μ) := fun _ h => h

end Keeps

/-! ### Operations that the schedule lets through -/

section Quiet
variable {m : Machine κ μ} {offset length : Nat} {bs : Bytes}

theorem operate_quiet (h : m.schedule = []) (change : File → File) (cut : File → Bytes → Option File)
    (answer : File → α) :
    operate failure k change cut answer m = .ok (answer (m.files k)) (m.setFile k (change (m.files k))) := by
  unfold operate
  rw [h]

theorem fileLength_quiet (h : m.schedule = []) : fileLength failure k m = .ok (m.files k).volatile.length m := by
  unfold fileLength
  rw [operate_quiet h, id, Machine.setFile_self]

theorem syncFile_quiet (h : m.schedule = []) : syncFile failure k m = .ok ⟨⟩ (m.setFile k (m.files k).sync) :=
  operate_quiet h ..

theorem setLength_quiet (h : m.schedule = []) (hlength : length ≤ maxFileLength) :
    setLength failure k length m = .ok ⟨⟩ (m.setFile k ((m.files k).setLength length)) := by
  unfold setLength
  rw [if_neg hlength.not_gt]
  exact operate_quiet h ..

theorem writeAt_quiet (h : m.schedule = []) (hlength : offset + bs.length ≤ maxFileLength)
    (mayLeave : File → Bytes → Bool) :
    writeAt failure k offset bs mayLeave m = .ok ⟨⟩ (m.setFile k ((m.files k).write offset bs)) := by
  unfold writeAt
  rw [if_neg hlength.not_gt]
  exact operate_quiet h ..

theorem readAt_quiet {short : ε} (h : m.schedule = []) (hlength : offset + length ≤ (m.files k).volatile.length) :
    readAt failure short k offset length m = .ok (slice (m.files k).volatile offset length) m := by
  unfold readAt
  rw [Io.bind_apply, operate_quiet h, id, Machine.setFile_self]
  dsimp only
  rw [if_pos (length_slice _ _ _ hlength)]
  rfl

end Quiet

/-! ### Programs that only append

`Appends failure k p a bs` says that `p` answers `a` and appends `bs` to the file `k`, and that
where it fails or is stopped it has appended a beginning of `bs`. -/

/-- The machine that was at `files`, `x` and `b` and has had `bs` appended to the file `k`. -/
structure Machine.Grown (files : κ → File) (x : μ) (b : Bool) (k : κ) (bs : Bytes) (m : Machine κ μ) : Prop where
  bounded : ((files k).append bs).Bounded
  at_ : m.At (Function.update files k ((files k).append bs)) x b

theorem Machine.At.grown {m : Machine κ μ} (h : m.At files x b) (hk : (files k).Bounded) :
    m.Grown files x b k [] := by
  refine ⟨by rwa [File.append_nil], ?_⟩
  rwa [File.append_nil, Function.update_eq_self]

/-- A program that appends these bytes to the file, or a beginning of them when it does not return. -/
def Appends (failure : ε) (k : κ) (p : Io (Machine κ μ) ε α) (a : α) (bs : Bytes) : Prop :=
  ∀ (files : κ → File) (x : μ) (b : Bool) (before : Bytes),
    Io.Spec (Machine.Grown files x b k before) p
      (fun r m => r = a ∧ m.Grown files x b k (before ++ bs))
      (fun e m => e = failure ∧ ∃ n, m.Grown files x true k (before ++ bs.take n))
      (fun m => ∃ n, m.Grown files x b k (before ++ bs.take n))

theorem Appends.pure (a : α) : Appends failure k (pure a : Io (Machine κ μ) ε α) a [] := by
  intro files x b before
  refine Io.Spec.pure fun m hm => ⟨rfl, ?_⟩
  rwa [List.append_nil]

theorem Appends.bind {β : Type} {p : Io (Machine κ μ) ε α} {f : α → Io (Machine κ μ) ε β} {a : α} {c : β}
    {cs : Bytes} (hp : Appends failure k p a bs) (hf : Appends failure k (f a) c cs) :
    Appends failure k (p >>= f) c (bs ++ cs) := by
  intro files x b before
  have hfirst : ∀ n, (bs ++ cs).take (min n bs.length) = bs.take n := by
    intro n
    rw [List.take_append_of_le_length (by omega)]
    exact List.take_eq_take_min.symm
  refine Io.Spec.bind ((hp files x b before).conseq (fun _ h => h) (fun _ _ h => h) ?_ ?_) ?_
  · rintro e m ⟨he, n, hm⟩
    exact ⟨he, min n bs.length, by rwa [hfirst]⟩
  · rintro m ⟨n, hm⟩
    exact ⟨min n bs.length, by rwa [hfirst]⟩
  · intro r
    refine Io.Spec.assume fun hr => ?_
    subst hr
    refine (hf files x b (before ++ bs)).conseq (fun _ h => h) ?_ ?_ ?_
    · rintro c' m ⟨hc, hm⟩
      exact ⟨hc, by rwa [← List.append_assoc]⟩
    · rintro e m ⟨he, n, hm⟩
      exact ⟨he, bs.length + n, by rwa [List.take_length_add_append, ← List.append_assoc]⟩
    · rintro m ⟨n, hm⟩
      exact ⟨bs.length + n, by rwa [List.take_length_add_append, ← List.append_assoc]⟩

theorem Appends.bind_pure {β : Type} {p : Io (Machine κ μ) ε α} {a : α}
    (hp : Appends failure k p a bs) (g : α → β) : Appends failure k (p >>= fun r => Pure.pure (g r)) (g a) bs := by
  have hpure : Appends failure k (Pure.pure (g a) : Io (Machine κ μ) ε β) (g a) [] := Appends.pure (g a)
  have := Appends.bind (f := fun r => Pure.pure (g r)) hp hpure
  rwa [List.append_nil] at this

/-- The program appends `bs`, or a beginning of `bs` when it does not end well. It gives up of itself only if `R`,
and what it answers is `Q`. -/
def Extends (k : κ) (p : Io (Machine κ μ) ε α) (Q : α → Prop) (R : Prop) (bs : Bytes) : Prop :=
  ∀ (files : κ → File) (x : μ) (b : Bool) (before : Bytes),
    Io.Spec (Machine.Grown files x b k before) p
      (fun r m => Q r ∧ m.Grown files x b k (before ++ bs))
      (fun _ m => ∃ n b', (b' = true ∨ b' = b ∧ R) ∧ m.Grown files x b' k (before ++ bs.take n))
      (fun m => ∃ n, m.Grown files x b k (before ++ bs.take n))

theorem Appends.extends {p : Io (Machine κ μ) ε α} {a : α} (h : Appends failure k p a bs) (R : Prop) :
    Extends k p (fun r => r = a) R bs := by
  intro files x b before
  refine (h files x b before).conseq (fun _ hm => hm) (fun _ _ hm => hm) (fun e m hm => ?_) fun _ hm => hm
  obtain ⟨-, n, hm⟩ := hm
  exact ⟨n, true, .inl rfl, hm⟩

theorem Extends.pure (R : Prop) {a : α} (h : Q a) : Extends k (Pure.pure a : Io (Machine κ μ) ε α) Q R [] := by
  intro files x b before
  refine Io.Spec.pure fun m hm => ⟨h, ?_⟩
  rwa [List.append_nil]

theorem Extends.raise {R : Prop} (e : ε) (bs : Bytes) (h : R) :
    Extends k (Io.raise e : Io (Machine κ μ) ε α) Q R bs := by
  intro files x b before
  refine Io.Spec.raise fun m hm => ⟨0, b, .inr ⟨rfl, h⟩, ?_⟩
  rwa [List.take_zero, List.append_nil]

theorem Extends.bind {β : Type} {p : Io (Machine κ μ) ε α} {f : α → Io (Machine κ μ) ε β} {P : α → Prop}
    {Q : β → Prop} {R : Prop} {cs : Bytes} (hp : Extends k p P R bs) (hf : ∀ a, P a → Extends k (f a) Q R cs) :
    Extends k (p >>= f) Q R (bs ++ cs) := by
  intro files x b before
  have hfirst : ∀ n, (bs ++ cs).take (min n bs.length) = bs.take n := by
    intro n
    rw [List.take_append_of_le_length (by omega)]
    exact List.take_eq_take_min.symm
  refine Io.Spec.bind ((hp files x b before).conseq (fun _ h => h) (fun _ _ h => h) ?_ ?_) ?_
  · intro e m h
    obtain ⟨n, b', hb, hm⟩ := h
    exact ⟨min n bs.length, b', hb, by rwa [hfirst]⟩
  · intro m h
    obtain ⟨n, hm⟩ := h
    exact ⟨min n bs.length, by rwa [hfirst]⟩
  · intro a
    refine Io.Spec.assume fun ha => ?_
    refine (hf a ha files x b (before ++ bs)).conseq (fun _ h => h) ?_ ?_ ?_
    · intro c m h
      exact ⟨h.1, by rw [← List.append_assoc]; exact h.2⟩
    · intro e m h
      obtain ⟨n, b', hb, hm⟩ := h
      exact ⟨bs.length + n, b', hb, by rwa [List.take_length_add_append, ← List.append_assoc]⟩
    · intro m h
      obtain ⟨n, hm⟩ := h
      exact ⟨bs.length + n, by rwa [List.take_length_add_append, ← List.append_assoc]⟩

theorem Extends.mono {p : Io (Machine κ μ) ε α} {Q' : α → Prop} {R R' : Prop} (h : Extends k p Q R bs)
    (hQ : ∀ a, Q a → Q' a) (hR : R → R') : Extends k p Q' R' bs := by
  intro files x b before
  refine (h files x b before).conseq (fun _ hm => hm) (fun a _ hm => ⟨hQ a hm.1, hm.2⟩) (fun e m hm => ?_) fun _ hm => hm
  obtain ⟨n, b', hb, hm⟩ := hm
  exact ⟨n, b', hb.imp_right fun hgive => ⟨hgive.1, hR hgive.2⟩, hm⟩

/-- A program that asks for the end of the file and appends from there. -/
theorem Appends.of_end {f : Nat → Io (Machine κ μ) ε α} {a : α}
    (hf : ∀ (files : κ → File) (x : μ) (b : Bool) (before : Bytes),
      Io.Spec (Machine.Grown files x b k before) (f ((files k).append before).volatile.length)
        (fun r m => r = a ∧ m.Grown files x b k (before ++ bs))
        (fun e m => e = failure ∧ ∃ n, m.Grown files x true k (before ++ bs.take n))
        (fun m => ∃ n, m.Grown files x b k (before ++ bs.take n))) :
    Appends failure k (fileLength failure k >>= f) a bs := by
  intro files x b before
  refine Io.Spec.of_start fun m₀ hm₀ => ?_
  refine Io.Spec.bind ((fileLength_spec.pre (fun m hm => hm ▸ hm₀.at_)).conseq (fun _ h => h) (fun _ _ h => h) ?_ ?_) ?_
  · rintro e m ⟨he, hm⟩
    exact ⟨he, 0, by simpa using hm₀.bounded, by simpa using hm⟩
  · rintro m hm
    exact ⟨0, by simpa using hm₀.bounded, by simpa using hm⟩
  · intro offset
    refine Io.Spec.assume fun hoffset => ?_
    rw [hoffset, Function.update_self]
    exact (hf files x b before).pre fun m hm => ⟨hm₀.bounded, hm⟩

/-- A write at the end of a file that leaves a beginning of its bytes when it is cut short. -/
theorem writeAt_end_spec (bs before : Bytes) :
    Io.Spec (Machine.Grown files x b k before)
      (writeAt failure k ((files k).append before).volatile.length bs fun _ left => left.isPrefixOf bs)
      (fun _ m => m.Grown files x b k (before ++ bs))
      (fun e m => e = failure ∧ ∃ n, m.Grown files x true k (before ++ bs.take n))
      (fun m => ∃ n, m.Grown files x b k (before ++ bs.take n)) := by
  rintro m ⟨hk, hm⟩
  have hshort : ∀ b', {m with faulted := b'}.Grown files x b' k (before ++ bs.take 0) := by
    intro b'
    rw [List.take_zero, List.append_nil]
    exact ⟨hk, hm.files, hm.memory, rfl⟩
  unfold writeAt
  by_cases hlong : ((files k).append before).volatile.length + bs.length > maxFileLength
  · rw [if_pos hlong]
    exact ⟨rfl, 0, hshort true⟩
  rw [if_neg hlong]
  have hfits : ∀ n, ((files k).append (before ++ bs.take n)).Bounded := by
    intro n
    rw [← File.append_append]
    refine hk.append ?_
    rw [List.length_take]
    omega
  have hcut : ∀ p : Progress, ∃ n, p.apply ((files k).append before)
      (((files k).append before).write ((files k).append before).volatile.length bs)
      (fun left => if left.isPrefixOf bs then
        some (((files k).append before).write ((files k).append before).volatile.length left) else none) =
        (files k).append (before ++ bs.take n) := by
    intro p
    simp only [hk.write_end, File.append_append]
    cases p with
    | nothing => exact ⟨0, by simp [Progress.apply]⟩
    | everything => exact ⟨bs.length, by rw [List.take_length]; rfl⟩
    | part left =>
      by_cases hleft : left.isPrefixOf bs
      · refine ⟨left.length, ?_⟩
        rw [← List.prefix_iff_eq_take.mp (List.isPrefixOf_iff_prefix.mp hleft)]
        simp [Progress.apply, hleft]
      · exact ⟨0, by simp [Progress.apply, hleft]⟩
  refine operate_spec.conseq (fun _ h => h) ?_ ?_ ?_ m hm
  · rintro _ m' ⟨_, hm'⟩
    simp only [Function.update_self, Function.update_idem, hk.write_end, File.append_append] at hm'
    exact ⟨by simpa using hfits bs.length, hm'⟩
  · rintro e m' ⟨he, p, hm'⟩
    obtain ⟨n, hn⟩ := hcut p
    simp only [Function.update_self, Function.update_idem] at hm'
    exact ⟨he, n, hfits n, hn ▸ hm'⟩
  · rintro m' ⟨p, hm'⟩
    obtain ⟨n, hn⟩ := hcut p
    simp only [Function.update_self, Function.update_idem] at hm'
    exact ⟨n, hfits n, hn ▸ hm'⟩

/-- One of several writes that together append `pre ++ (bs ++ post)`. -/
theorem writeAt_part_spec (before pre bs post : Bytes) {offset : Nat}
    (hoffset : offset = ((files k).append before).volatile.length + pre.length) :
    Io.Spec (Machine.Grown files x b k (before ++ pre))
      (writeAt failure k offset bs fun _ left => left.isPrefixOf bs)
      (fun _ m => m.Grown files x b k (before ++ (pre ++ bs)))
      (fun e m => e = failure ∧ ∃ n, m.Grown files x true k (before ++ (pre ++ (bs ++ post)).take n))
      (fun m => ∃ n, m.Grown files x b k (before ++ (pre ++ (bs ++ post)).take n)) := by
  have hlen : offset = ((files k).append (before ++ pre)).volatile.length := by
    simp [hoffset, File.append, Nat.add_assoc]
  have htake : ∀ n, before ++ (pre ++ (bs ++ post)).take (pre.length + min n bs.length) =
      before ++ pre ++ bs.take n := by
    intro n
    rw [List.take_length_add_append, List.take_append_of_le_length (by omega), ← List.append_assoc]
    exact congrArg _ List.take_eq_take_min.symm
  rw [hlen]
  refine (writeAt_end_spec bs (before ++ pre)).conseq (fun _ h => h) ?_ ?_ ?_
  · rintro _ m hm
    rwa [← List.append_assoc]
  · rintro e m ⟨he, n, hm⟩
    exact ⟨he, pre.length + min n bs.length, by rwa [htake]⟩
  · rintro m ⟨n, hm⟩
    exact ⟨pre.length + min n bs.length, by rwa [htake]⟩

end Rules

end Dodb.Lib
