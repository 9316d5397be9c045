import Dodb.Storage.WalFile

/-!
# Appending to a log in use

A commit is found to have too many pages only while it is appended, after images of it are in the file. So what an
append leaves is told by items: the commits up to the first such one are whole, and of that one there are as many
images as an index can count. An append that fails or is cut short leaves a beginning of these items' frames.
-/

namespace Dodb
open Lib

variable [Crc32c] {μ : Type}

/-- Commits that continue a log, one after another. -/
def Continues : Lsn → Nat → List WalCommit → Prop
  | _, _, [] => True
  | nextLsn, nextBatchId, c :: rest => c.Begun ∧ c.firstLsn = nextLsn ∧ c.batchId = nextBatchId ∧
      Continues (c.commitLsn + 1) (c.batchId + 1) rest

/-- What appending the commits writes: it stops at a commit that has too many pages. -/
def writtenItems : List WalCommit → List WalItem
  | [] => []
  | c :: rest => if c.pages.length ≤ u32Max then .ofCommit c :: writtenItems rest else [⟨c, u32Max + 1⟩]

theorem Continues.itemsSound {commits : List WalCommit} {nextLsn : Lsn} {nextBatchId : Nat}
    (h : Continues nextLsn nextBatchId commits) : ItemsSound nextLsn nextBatchId (writtenItems commits) := by
  induction commits generalizing nextLsn nextBatchId with
  | nil => exact True.intro
  | cons c rest ih =>
    obtain ⟨hc, hlsn, hbatch, hrest⟩ := h
    unfold writtenItems
    split
    · rename_i hcount
      refine ⟨(⟨hc, hcount⟩ : c.Sound).item, hlsn.ge, hbatch.ge, (ih hrest).mono ?_ le_rfl⟩
      show c.firstLsn + (c.pages.length + 1) - 1 + 1 ≤ c.commitLsn + 1
      have := hc.lsn
      unfold WalCommit.firstLsn
      lia
    · rename_i hcount
      refine ⟨⟨hc, Nat.succ_pos _, by lia, List.length_take_le _ _, fun hwhole => ?_⟩, hlsn.ge, hbatch.ge, True.intro⟩
      have hlength : u32Max + 1 = c.pages.length + 1 := hwhole
      lia

omit [Crc32c] in
theorem WalItem.whole_ofCommit (c : WalCommit) : (WalItem.ofCommit c).whole := rfl

omit [Crc32c] in
theorem committedItems_cons (i : WalItem) (rest : List WalItem) :
    committedItems (i :: rest) = (if i.whole then [i.commit] else []) ++ committedItems rest := by
  unfold committedItems
  by_cases hi : i.whole
  · rw [List.filter_cons_of_pos (by simpa using hi), if_pos hi]
    rfl
  · rw [List.filter_cons_of_neg (by simpa using hi), if_neg hi]
    rfl

omit [Crc32c] in
theorem committedItems_append (items more : List WalItem) :
    committedItems (items ++ more) = committedItems items ++ committedItems more := by
  simp [committedItems]

omit [Crc32c] in
theorem committedItems_ofCommit (commits : List WalCommit) :
    committedItems (commits.map WalItem.ofCommit) = commits := by
  induction commits with
  | nil => rfl
  | cons c rest ih =>
    rw [List.map_cons, committedItems_cons, ih, if_pos (WalItem.whole_ofCommit c)]
    rfl

theorem cutItems_append (items more : List WalItem) (t : Nat) :
    cutItems (framesLength (itemsFrames items) + t) (items ++ more) = items ++ cutItems t more := by
  induction items generalizing t with
  | nil => simp [itemsFrames, framesLength]
  | cons i rest ih =>
    have hlength : framesLength (itemsFrames (i :: rest)) = framesLength i.frames + framesLength (itemsFrames rest) := by
      simp [itemsFrames, framesLength]
    rw [hlength, List.cons_append, cutItems, if_pos (by omega), List.cons_append]
    rw [show framesLength i.frames + framesLength (itemsFrames rest) + t - framesLength i.frames =
      framesLength (itemsFrames rest) + t by omega, ih]

/-- Of an item that does not fit there is no commit. -/
theorem committedItems_cutItems_cons {i : WalItem} {t : Nat} (hfits : ¬framesLength i.frames ≤ t)
    (rest : List WalItem) : committedItems (cutItems t (i :: rest)) = [] := by
  unfold cutItems
  rw [if_neg hfits]
  split
  · rfl
  · have hpart : (completeFrames t i.frames).length ≠ i.commit.pages.length + 1 := by
      intro heq
      have htake := completeFrames_eq_take t i.frames
      rw [heq, List.take_of_length_le (by rw [i.length_frames]; exact min_le_right _ _)] at htake
      have hlength := framesLength_completeFrames_le t i.frames
      rw [htake] at hlength
      exact hfits hlength
    rw [committedItems_cons]
    exact congrArg (· ++ committedItems []) (if_neg hpart)

theorem committedItems_cutItems_isPrefix (items : List WalItem) (t : Nat) :
    committedItems (cutItems t items) <+: committedItems items := by
  induction items generalizing t with
  | nil => exact List.prefix_rfl
  | cons i rest ih =>
    by_cases hfits : framesLength i.frames ≤ t
    · rw [cutItems, if_pos hfits, committedItems_cons, committedItems_cons]
      exact (List.prefix_append_right_inj _).mpr (ih _)
    · rw [committedItems_cutItems_cons hfits]
      exact List.nil_prefix

omit [Crc32c] in
theorem committedItems_written_isPrefix (commits : List WalCommit) : committedItems (writtenItems commits) <+: commits := by
  induction commits with
  | nil => exact List.prefix_rfl
  | cons c rest ih =>
    unfold writtenItems
    split
    · rw [committedItems_cons, if_pos (WalItem.whole_ofCommit c)]
      exact (List.cons_prefix_cons).mpr ⟨rfl, ih⟩
    · rename_i hcount
      rw [committedItems_cons, if_neg (by unfold WalItem.whole; dsimp only; lia)]
      exact List.nil_prefix

/-! ### What an append does -/

theorem appendImages_extends {v : Nat} {c : WalCommit} {firstLsn : Lsn} {index : Nat} {pages : List WalPageImage}
    (himage : ∀ p ∈ pages, validatePageImage p = .ok ()) (hlsn : ∀ p ∈ pages, validatePageImageLsn p c.commitLsn = .ok ())
    (hlast : firstLsn + (index + pages.length) ≤ u64Max) :
    Extends .wal (appendImages v c firstLsn index pages : Wal μ Bytes) (fun _ => True) (u32Max + 1 < index + pages.length)
      (framesBytes (imageFrames v c.batchId firstLsn index (pages.take (u32Max + 1 - index)))) := by
  induction pages generalizing index with
  | nil =>
    rw [List.take_nil]
    exact Extends.pure _ True.intro
  | cons p rest ih =>
    rw [List.length_cons] at hlast
    have hpayload := length_encodePageImage_le (himage p List.mem_cons_self)
    unfold appendImages
    rw [hlsn p List.mem_cons_self, himage p List.mem_cons_self, addOr_of_le _ (by lia)]
    simp only [Io.ofExcept_ok, pure_bind]
    by_cases hindex : index ≤ u32Max
    · have hrest := @ih (index + 1) (fun q hq => himage q (List.mem_cons_of_mem _ hq))
        (fun q hq => hlsn q (List.mem_cons_of_mem _ hq)) (by lia)
      have hcount : u32Max + 1 - index = u32Max + 1 - (index + 1) + 1 := by omega
      rw [ensure_pos hindex, Io.ofExcept_ok, pure_bind, hcount, List.take_succ_cons, imageFrames, framesBytes,
        List.flatMap_cons]
      refine ((appendFrame_appends hpayload).extends _).bind fun _ _ => ?_
      have hbind := hrest.bind fun payloads _ => Extends.pure (Q := fun _ : Bytes => True) _
        (a := encodePageImage p ++ payloads) True.intro
      rw [List.append_nil] at hbind
      exact hbind.mono (fun _ h => h) fun h => by rw [List.length_cons]; omega
    · rw [ensure_neg hindex]
      exact Extends.raise _ _ (by rw [List.length_cons]; omega)

theorem appendGroupCommit_extends {c : WalCommit} (h : c.Begun) {nextLsn : Lsn} {nextBatchId : Nat}
    (hlsn : c.firstLsn = nextLsn) (hbatch : c.batchId = nextBatchId) (hcount : ¬c.pages.length ≤ u32Max) :
    Extends .wal (appendGroupCommit walFormatVersion c nextLsn nextBatchId : Wal μ PUnit) (fun _ => False) True
      (framesBytes (WalItem.mk c (u32Max + 1)).frames) := by
  have hcommit : nextLsn + c.pages.length = c.commitLsn := by
    have := h.lsn
    rw [← hlsn, WalCommit.firstLsn]
    lia
  have hmax : nextLsn + c.pages.length ≤ u64Max := by
    rw [hcommit]
    exact h.lsn_lt.le
  have hframes : (WalItem.mk c (u32Max + 1)).frames =
      imageFrames walFormatVersion c.batchId nextLsn 0 (c.pages.take (u32Max + 1)) := by
    show (commitFrames walFormatVersion c).take (u32Max + 1) = _
    rw [commitFrames, List.take_append_of_le_length (by rw [length_imageFrames]; omega), imageFrames_take, hlsn]
  unfold appendGroupCommit
  rw [ensure_pos h.pages_ne, ensure_pos hbatch, addOr_of_le _ hmax, ensure_neg hcount]
  simp only [Io.ofExcept_ok, pure_bind]
  rw [ensure_pos hcommit.symm, Io.ofExcept_ok, pure_bind, hframes]
  have himages : Extends .wal (appendImages walFormatVersion c nextLsn 0 c.pages : Wal μ Bytes) (fun _ => True) True
      (framesBytes (imageFrames walFormatVersion c.batchId nextLsn 0 (c.pages.take (u32Max + 1)))) :=
    (appendImages_extends h.image h.imageLsn (by simpa using hmax)).mono (fun _ h => h) fun _ => True.intro
  rw [← List.append_nil (framesBytes _)]
  exact himages.bind fun _ _ => Extends.raise _ _ True.intro

/-- Appending commits that continue a log fails only for the medium, or at a commit that has too many pages. -/
theorem appendCommits_extends {commits : List WalCommit} {nextLsn : Lsn} {nextBatchId : Nat}
    (h : Continues nextLsn nextBatchId commits) :
    Extends .wal (appendCommits walFormatVersion commits nextLsn nextBatchId : Wal μ (Lsn × Nat))
      (fun next => next = nextAfter (nextLsn, nextBatchId) commits ∧ ∀ c ∈ commits, c.pages.length ≤ u32Max)
      (∃ c ∈ commits, u32Max < c.pages.length) (framesBytes (itemsFrames (writtenItems commits))) := by
  induction commits generalizing nextLsn nextBatchId with
  | nil => exact Extends.pure _ ⟨rfl, fun c hc => by cases hc⟩
  | cons c rest ih =>
    obtain ⟨hc, hlsn, hbatch, hrest⟩ := h
    unfold appendCommits writtenItems
    split
    · rename_i hcount
      rw [itemsFrames, List.flatMap_cons, framesBytes_append, WalItem.frames_ofCommit]
      refine ((appendGroupCommit_appends ⟨hc, hcount⟩ hlsn hbatch).extends _).bind fun _ _ => ?_
      rw [addOr_of_le _ hc.lsn_lt, ← hbatch, addOr_of_le _ hc.batchId_lt]
      simp only [Io.ofExcept_ok, pure_bind]
      refine (ih hrest).mono (fun next hnext => ⟨hnext.1, ?_⟩) fun hlarge => ?_
      · exact List.forall_mem_cons.mpr ⟨hcount, hnext.2⟩
      · obtain ⟨d, hd, hlarge⟩ := hlarge
        exact ⟨d, List.mem_cons_of_mem _ hd, hlarge⟩
    · rename_i hcount
      have hlarge : u32Max < c.pages.length := not_le.mp hcount
      rw [itemsFrames, List.flatMap_singleton, ← List.append_nil (framesBytes _)]
      refine ((appendGroupCommit_extends hc hlsn hbatch hcount).mono (fun _ h => h) fun _ => ?_).bind
        fun _ hfalse => hfalse.elim
      exact ⟨c, List.mem_cons_self, hlarge⟩

/-! ### The log in memory and its file -/

theorem ItemsSound.append {lsn lsn' : Lsn} {batchId batchId' : Nat} {items more : List WalItem}
    (h : ItemsSound lsn batchId items) (hmore : ItemsSound lsn' batchId' more) (hlsn : lsn ≤ lsn')
    (hbatch : batchId ≤ batchId') (hnextLsn : nextLsnOf items ≤ lsn') (hnextBatchId : nextBatchIdOf items ≤ batchId') :
    ItemsSound lsn batchId (items ++ more) := by
  induction items generalizing lsn batchId with
  | nil => exact hmore.mono hlsn hbatch
  | cons i rest ih =>
    obtain ⟨hi, hfirst, hid, hrest⟩ := h
    refine ⟨hi, hfirst, hid, ?_⟩
    by_cases hnil : rest = []
    · subst hnil
      exact hmore.mono hnextLsn hnextBatchId
    · have hlast : (i :: rest).getLast? = rest.getLast? := by
        obtain ⟨j, others, rfl⟩ := List.exists_cons_of_ne_nil hnil
        rw [List.getLast?_cons_cons]
      have hnext := hrest.lt_next hnil
      unfold nextLsnOf at hnextLsn hnext
      unfold nextBatchIdOf at hnextBatchId hnext
      rw [hlast] at hnextLsn hnextBatchId
      exact ih hrest (hnext.1.le.trans hnextLsn) (hnext.2.le.trans hnextBatchId) hnextLsn hnextBatchId

theorem logBytes_append (identity : WalIdentity) (start : Lsn) (items more : List WalItem) :
    logBytes identity start (items ++ more) = logBytes identity start items ++ framesBytes (itemsFrames more) := by
  simp [logBytes, logFrames, itemsFrames, framesBytes]

omit [Crc32c] in
/-- What comes after the items of appended commits is what comes after the commits. -/
theorem nextOf_ofCommit {commits : List WalCommit} (items : List WalItem) (hne : commits ≠ [])
    (hlsn : ∀ c ∈ commits, c.pages.length ≤ c.commitLsn) (next : Lsn × Nat) :
    (nextLsnOf (items ++ commits.map .ofCommit), nextBatchIdOf (items ++ commits.map .ofCommit)) =
      nextAfter next commits := by
  obtain ⟨first, c, rfl⟩ := (List.eq_nil_or_concat commits).resolve_left hne
  rw [List.concat_eq_append] at *
  have hc := hlsn c (by simp)
  have hlast : (WalItem.ofCommit c).lastLsn = c.commitLsn := by
    show c.firstLsn + (c.pages.length + 1) - 1 = c.commitLsn
    unfold WalCommit.firstLsn
    lia
  rw [nextAfter, List.foldl_append, nextLsnOf, nextBatchIdOf, List.map_append, ← List.append_assoc]
  simp only [List.map_cons, List.map_nil, List.getLast?_concat, Option.map_some, Option.getD_some, hlast]
  rfl

/-- The log in memory is the one of a file that holds the items. -/
structure WalLog.Holds (wal : WalLog) (identity : WalIdentity) (start : Lsn) (items : List WalItem) : Prop where
  identity : wal.identity = identity
  version : wal.formatVersion = walFormatVersion
  history : wal.historyStartLsn = start
  committed : wal.committed = committedItems items
  nextBatchId : wal.nextBatchId = nextBatchIdOf items
  nextLsn : nextLsnOf items ≤ wal.nextLsn
  sound : ItemsSound (start + 1) 1 items

omit [Crc32c] in
theorem writtenItems_of_le {commits : List WalCommit} (hcount : ∀ c ∈ commits, c.pages.length ≤ u32Max) :
    writtenItems commits = commits.map .ofCommit := by
  induction commits with
  | nil => rfl
  | cons c rest ih =>
    obtain ⟨hfirst, hothers⟩ := List.forall_mem_cons.mp hcount
    rw [writtenItems, if_pos hfirst, ih hothers, List.map_cons]

theorem Continues.begun {commits : List WalCommit} {nextLsn : Lsn} {nextBatchId : Nat}
    (h : Continues nextLsn nextBatchId commits) : ∀ c ∈ commits, c.Begun := by
  induction commits generalizing nextLsn nextBatchId with
  | nil =>
    intro c hc
    cases hc
  | cons c rest ih => exact List.forall_mem_cons.mpr ⟨h.1, ih h.2.2.2⟩

namespace WalLog.Holds

variable {wal : WalLog} {identity : WalIdentity} {start : Lsn} {items : List WalItem} {commits : List WalCommit}

/-- The items of the file after an append, and of any beginning of what it writes, are sound. -/
theorem written (h : wal.Holds identity start items) (hstart : start < wal.nextLsn)
    (hcommits : Continues wal.nextLsn wal.nextBatchId commits) :
    ItemsSound (start + 1) 1 (items ++ writtenItems commits) :=
  h.sound.append hcommits.itemsSound hstart (h.nextBatchId ▸ one_le_nextBatchIdOf items) h.nextLsn h.nextBatchId.ge

/-- The log in memory after an append is that of the file after it. -/
theorem append (h : wal.Holds identity start items) (hstart : start < wal.nextLsn) (hne : commits ≠ [])
    (hcommits : Continues wal.nextLsn wal.nextBatchId commits) (hcount : ∀ c ∈ commits, c.pages.length ≤ u32Max) :
    WalLog.Holds {wal with
      nextLsn := (nextAfter (wal.nextLsn, wal.nextBatchId) commits).1
      nextBatchId := (nextAfter (wal.nextLsn, wal.nextBatchId) commits).2
      committed := wal.committed ++ commits} identity start (items ++ commits.map .ofCommit) := by
  have hsound := h.written hstart hcommits
  rw [writtenItems_of_le hcount] at hsound
  have hnext := nextOf_ofCommit items hne (fun c hc => (hcommits.begun c hc).lsn) (wal.nextLsn, wal.nextBatchId)
  refine ⟨h.identity, h.version, h.history, ?_, ?_, ?_, hsound⟩
  · rw [committedItems_append, committedItems_ofCommit, h.committed]
  · rw [← hnext]
  · rw [← hnext]

end WalLog.Holds

/-- What is left of the log, in the file and by a power loss, goes on from the items by some of the commits. -/
structure Appending (identity : WalIdentity) (start : Lsn) (items : List WalItem) (commits : List WalCommit) (f : File) :
    Prop where
  length : f.volatile.length ≤ maxFileLength
  durable : f.durable.length ≤ maxFileLength
  volatile : ∃ t, (logBytes identity start items).length ≤ t ∧
    f.volatile = (logBytes identity start (items ++ writtenItems commits)).take t
  left : ∀ w, f.TailLoss w → ∃ t, (logBytes identity start items).length ≤ t ∧
    w = (logBytes identity start (items ++ writtenItems commits)).take t

theorem Appending.of_append {identity : WalIdentity} {start : Lsn} {items : List WalItem} {commits : List WalCommit}
    {n : Nat} {f : File} (hf : f = (File.ofDurable (logBytes identity start items)).append
      ((framesBytes (itemsFrames (writtenItems commits))).take n)) (hbounded : f.Bounded)
    (hlength : (logBytes identity start items).length ≤ maxFileLength) :
    Appending identity start items commits f := by
  have hvolatile : f.volatile = (logBytes identity start (items ++ writtenItems commits)).take
      ((logBytes identity start items).length + n) := by
    rw [hf, logBytes_append, List.take_length_add_append]
    rfl
  refine ⟨hbounded.length, by rw [hf]; exact hlength, ⟨_, Nat.le_add_right _ _, hvolatile⟩, fun w hw => ?_⟩
  obtain hw | ⟨k, hk, hw⟩ := hw
  · refine ⟨(logBytes identity start items).length, le_rfl, ?_⟩
    rw [hw, hf, logBytes_append, List.take_left]
    rfl
  · rw [hvolatile, List.take_take] at hw
    rw [hf] at hk
    exact ⟨_, le_min hk (Nat.le_add_right _ _), hw⟩

theorem Appending.of_durable {identity : WalIdentity} {start : Lsn} {items : List WalItem} {commits : List WalCommit}
    {bs : Bytes} (hlength : bs.length ≤ maxFileLength) {t : Nat} (ht : (logBytes identity start items).length ≤ t)
    (hbs : bs = (logBytes identity start (items ++ writtenItems commits)).take t) :
    Appending identity start items commits (.ofDurable bs) := by
  refine ⟨hlength, hlength, ⟨t, ht, hbs⟩, fun w hw => ?_⟩
  obtain hw | ⟨k, hk, hw⟩ := hw
  · exact ⟨t, ht, hw.trans hbs⟩
  · exact ⟨t, ht, (hw.trans (List.take_of_length_le hk)).trans hbs⟩

/-- Appending commits that continue the log. -/
theorem appendGroup_spec {wal : WalLog} {identity : WalIdentity} {start : Lsn} {items : List WalItem}
    {commits : List WalCommit} (hwal : wal.Holds identity start items) (hne : commits ≠ [])
    (hcommits : Continues wal.nextLsn wal.nextBatchId commits) {files : FileId → File} {x : μ} {b : Bool}
    (hfile : files .wal = .ofDurable (logBytes identity start items))
    (hlength : (logBytes identity start items).length ≤ maxFileLength) :
    Io.Spec (Machine.At files x b) (appendGroup wal commits)
      (fun wal' m => wal' = {wal with
          nextLsn := (nextAfter (wal.nextLsn, wal.nextBatchId) commits).1
          nextBatchId := (nextAfter (wal.nextLsn, wal.nextBatchId) commits).2
          committed := wal.committed ++ commits} ∧ (∀ c ∈ commits, c.pages.length ≤ u32Max) ∧
        (logBytes identity start (items ++ commits.map .ofCommit)).length ≤ maxFileLength ∧
        m.At (Function.update files .wal (.ofDurable (logBytes identity start (items ++ commits.map .ofCommit)))) x b)
      (fun _ m => ∃ f b', (b' = true ∨ b' = b ∧ ∃ c ∈ commits, u32Max < c.pages.length) ∧
        Appending identity start items commits f ∧ m.At (Function.update files .wal f) x b')
      (fun m => ∃ f, Appending identity start items commits f ∧ m.At (Function.update files .wal f) x b) := by
  have hbounded : (files .wal).Bounded := by
    rw [hfile]
    exact ⟨le_rfl, hlength⟩
  obtain ⟨last, hlast⟩ := Option.ne_none_iff_exists'.mp (mt List.getLast?_eq_none_iff.mp hne)
  have hcut : ∀ {n : Nat} {b' : Bool} {m : Machine FileId μ},
      m.Grown files x b' .wal ([] ++ (framesBytes (itemsFrames (writtenItems commits))).take n) →
        ∃ f, Appending identity start items commits f ∧ m.At (Function.update files .wal f) x b' := by
    intro n b' m hm
    refine ⟨_, .of_append (n := n) ?_ hm.bounded hlength, hm.at_⟩
    rw [hfile, List.nil_append]
  unfold appendGroup
  rw [hlast]
  dsimp only
  rw [hwal.version]
  refine Io.Spec.bind ((appendCommits_extends hcommits files x b []).conseq (fun m hm => hm.grown hbounded)
    (fun _ _ h => h) (fun e m h => ?_) fun m h => ?_) fun next => ?_
  · obtain ⟨n, b', hb, hm⟩ := h
    obtain ⟨f, hf, hm⟩ := hcut hm
    exact ⟨f, b', hb, hf, hm⟩
  · obtain ⟨n, hm⟩ := h
    exact hcut hm
  · refine Io.Spec.assume fun hnext => ?_
    obtain ⟨rfl, hcount⟩ := hnext
    refine Io.Spec.of_start fun m₀ hm₀ => .pre ?_ fun m hm => hm ▸ hm₀.at_
    have hlog : (logBytes identity start items ++ framesBytes (itemsFrames (writtenItems commits))) =
        logBytes identity start (items ++ commits.map .ofCommit) := by
      rw [← logBytes_append, writtenItems_of_le hcount]
    have happended : (logBytes identity start (items ++ commits.map .ofCommit)).length ≤ maxFileLength := by
      rw [← hlog]
      have hbytes := hm₀.bounded.length
      rwa [hfile] at hbytes
    have hsynced : ((files .wal).append ([] ++ framesBytes (itemsFrames (writtenItems commits)))).sync =
        .ofDurable (logBytes identity start (items ++ commits.map .ofCommit)) := by
      rw [hfile, ← hlog]
      rfl
    -- A sync that did not succeed has had its effect or not.
    have hleft : ∀ {b' : Bool} {m : Machine FileId μ},
        (m.At (Function.update files .wal ((files .wal).append ([] ++ framesBytes (itemsFrames (writtenItems commits))))) x b' ∨
          m.At (Function.update files .wal (.ofDurable (logBytes identity start (items ++ commits.map .ofCommit)))) x b') →
        ∃ f, Appending identity start items commits f ∧ m.At (Function.update files .wal f) x b' := by
      intro b' m hm
      obtain hm | hm := hm
      · have htake := List.take_length (l := framesBytes (itemsFrames (writtenItems commits)))
        refine hcut (n := (framesBytes (itemsFrames (writtenItems commits))).length) ⟨?_, ?_⟩
        · rw [htake]
          exact hm₀.bounded
        · rwa [htake]
      · refine ⟨_, .of_durable happended (t := (logBytes identity start (items ++ commits.map .ofCommit)).length) ?_ ?_, hm⟩
        · rw [← hlog, List.length_append]
          exact Nat.le_add_right _ _
        · rw [writtenItems_of_le hcount, List.take_length]
    have hself : Function.update files .wal ((files .wal).append ([] ++ framesBytes (itemsFrames (writtenItems commits))))
        .wal = (files .wal).append ([] ++ framesBytes (itemsFrames (writtenItems commits))) := Function.update_self ..
    refine Io.Spec.bind (.mapError (syncFile_spec.conseq (fun _ h => h) (fun _ _ h => h) ?_ ?_)) fun _ => ?_
    · intro e m h
      rw [hself, hsynced, Function.update_idem] at h
      obtain ⟨f, hf, hm⟩ := hleft h.2
      exact ⟨f, true, .inl rfl, hf, hm⟩
    · intro m h
      rw [hself, hsynced, Function.update_idem] at h
      exact hleft h
    · rw [hself, hsynced, Function.update_idem]
      exact Io.Spec.pure fun m hm => ⟨rfl, hcount, happended, hm⟩

end Dodb
