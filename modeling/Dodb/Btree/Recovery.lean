import Dodb.Lib.Redo
import Dodb.Storage.WalAccepted
import Dodb.Btree.Store

/-! Redo of the data file.

`recoverDataFile` is the redo of `Lib.Redo` with pages for blocks: a data page has the version its header says, and
a superblock slot, which is always rewritten, has none. At every point where the run can fail or be stopped the file
is partway, so what is left of it is recovered to the same bytes. -/
namespace Dodb
open Lib File

section Recovery
variable [Crc32c] {μ : Type} {batches : List WalCommit}

/-! ### Versions of pages -/

/-- The LSN redo compares with: a superblock slot and a page that does not decode have none. -/
def pageVersion (pageId : PageId) (bytes : Bytes) : Option Lsn :=
  if pageId < firstDataPage then none
  else match decodePageAt bytes (some pageId) with
    | .ok current => some current.header.pageLsn
    | .error _ => none

/-- The images of the batches, in the order redo goes through them. -/
def redoImages (batches : List WalCommit) : List BlockImage :=
  batches.flatMap fun batch => batch.pages.map fun page => ⟨batch.commitLsn, page.pageId, page.image⟩

/-- The batches redo goes through. -/
def batchesAfter (checkpointLsn : Lsn) (committed : List WalCommit) : List WalCommit :=
  committed.filter fun batch => decide (checkpointLsn < batch.commitLsn)

omit [Crc32c] in
theorem isSuperblock_iff {page : WalPageImage} : page.isSuperblock = true ↔ page.pageId < firstDataPage := by
  simp only [WalPageImage.isSuperblock, Bool.or_eq_true, decide_eq_true_eq, firstDataPage]
  lia

theorem pageVersion_of_refused {pageId : PageId} {bytes : Bytes} (h : refusedBlock pageId bytes = true) :
    pageVersion pageId bytes = none := by
  unfold pageVersion
  by_cases hid : pageId < firstDataPage
  · rw [if_pos hid]
  · rw [if_neg hid]
    rw [refusedBlock, if_neg hid, decide_eq_true_eq] at h
    cases hdecode : decodePageAt bytes (some pageId) with
    | error e => rfl
    | ok decoded =>
      simp only [decodePageAt, except_bind_eq_ok, ensure_eq_ok] at hdecode
      obtain ⟨_, _, _, _, _, _, _, _, _, _, _, _, _, hchecksum, _⟩ := hdecode
      exact absurd hchecksum h

omit [Crc32c] in
theorem mem_redoImages {image : BlockImage} :
    image ∈ redoImages batches ↔
      ∃ batch ∈ batches, ∃ page ∈ batch.pages, ⟨batch.commitLsn, page.pageId, page.image⟩ = image := by
  simp only [redoImages, List.mem_flatMap, List.mem_map]

/-! ### What a log that was accepted holds -/

/-- Commits in the order of their LSNs, each with whole pages stamped with its own. -/
structure Redoable (batches : List WalCommit) : Prop where
  sorted : (batches.map WalCommit.commitLsn).Pairwise (· < ·)
  page : ∀ batch ∈ batches, ∀ page ∈ batch.pages, page.image.length = pageSize ∧ validatePageImage page = .ok () ∧
    validatePageImageLsn page batch.commitLsn = .ok ()

theorem Redoable.of_scanWal {identity : WalIdentity} {log : Bytes} {wal : WalLog} {validLength : Nat}
    (h : scanWal identity log = .ok (wal, validLength)) (checkpointLsn : Lsn) :
    Redoable (batchesAfter checkpointLsn wal.committed) := by
  obtain ⟨hsorted, hpages⟩ := scanWal_commits h
  refine ⟨hsorted.sublist ((List.filter_sublist ..).map _), fun batch hbatch => ?_⟩
  exact hpages batch (List.mem_of_mem_filter hbatch)

/-- An image of a data page decodes, with the LSN of its commit. -/
theorem Redoable.decodes (h : Redoable batches) {batch : WalCommit} (hbatch : batch ∈ batches)
    {page : WalPageImage} (hpage : page ∈ batch.pages) (hdata : page.isSuperblock = false) :
    ∃ decoded, decodePageAt page.image (some page.pageId) = .ok decoded ∧ decoded.header.pageLsn = batch.commitLsn := by
  obtain ⟨_, hvalid, hlsn⟩ := h.page batch hbatch page hpage
  unfold validatePageImage at hvalid
  unfold validatePageImageLsn at hlsn
  rw [hdata, if_neg Bool.false_ne_true] at hvalid hlsn
  obtain ⟨decoded, hdecoded, _⟩ := except_bind_eq_ok.mp hvalid
  refine ⟨decoded, hdecoded, ?_⟩
  rw [decodePageAt_lsn hdecoded]
  exact ensure_eq_ok.mp hlsn

theorem Redoable.version (h : Redoable batches) {batch : WalCommit} (hbatch : batch ∈ batches)
    {page : WalPageImage} (hpage : page ∈ batch.pages) :
    pageVersion page.pageId page.image = if page.isSuperblock then none else some batch.commitLsn := by
  unfold pageVersion
  by_cases hsuper : page.isSuperblock = true
  · rw [if_pos hsuper, if_pos (isSuperblock_iff.mp hsuper)]
  · rw [if_neg hsuper, if_neg fun hlt => hsuper (isSuperblock_iff.mpr hlt)]
    obtain ⟨decoded, hdecoded, hlsn⟩ := h.decodes hbatch hpage (Bool.eq_false_of_not_eq_true hsuper)
    rw [hdecoded]
    exact congrArg some hlsn

theorem Redoable.stamped (h : Redoable batches) : StampedBlocks pageVersion (redoImages batches) := by
  constructor
  · unfold redoImages
    rw [List.pairwise_flatMap]
    refine ⟨fun batch _ => ?_, ?_⟩
    · rw [List.pairwise_map]
      exact List.pairwise_of_forall fun _ _ => le_rfl
    · refine (List.pairwise_map.mp h.sorted).imp fun {a b} hlt => ?_
      intro x hx y hy
      obtain ⟨_, _, rfl⟩ := List.mem_map.mp hx
      obtain ⟨_, _, rfl⟩ := List.mem_map.mp hy
      exact hlt.le
  · intro image himage v hv
    obtain ⟨batch, hbatch, page, hpage, rfl⟩ := mem_redoImages.mp himage
    dsimp only at hv
    rw [h.version hbatch hpage] at hv
    by_cases hsuper : page.isSuperblock = true
    · rw [if_pos hsuper] at hv
      cases hv
    · rw [if_neg hsuper] at hv
      cases hv
      exact le_rfl

/-! ### The length redo needs -/

omit [Crc32c] in
theorem le_highestDataPage {batch : WalCommit} (hbatch : batch ∈ batches)
    {page : WalPageImage} (hpage : page ∈ batch.pages) : page.pageId ≤ highestDataPage batches := by
  have hfold : ∀ (pages : List WalPageImage) (start : PageId),
      start ≤ pages.foldl (fun highest page => max highest page.pageId) start ∧
        ∀ page ∈ pages, page.pageId ≤ pages.foldl (fun highest page => max highest page.pageId) start := by
    intro pages
    induction pages with
    | nil => exact fun start => ⟨le_rfl, nofun⟩
    | cons first rest ih =>
      intro start
      obtain ⟨hstart, hrest⟩ := ih (max start first.pageId)
      refine ⟨(le_max_left ..).trans hstart, fun page hpage => ?_⟩
      rcases List.mem_cons.mp hpage with rfl | hpage
      · exact (le_max_right ..).trans hstart
      · exact hrest page hpage
  exact (hfold _ _).2 page (List.mem_flatMap.mpr ⟨batch, hbatch, hpage⟩)

/-- The length of the file that redo of the batches leaves. -/
def recoveredLength (batches : List WalCommit) (length : Nat) : Nat :=
  if batches = [] then length else max length ((highestDataPage batches + 1) * pageSize)

/-- The file that redo of the batches leaves. -/
def recovered (batches : List WalCommit) (file : Bytes) : Bytes :=
  redoBlocks pageSize pageVersion (resize file (recoveredLength batches file.length)) (redoImages batches)

omit [Crc32c] in
theorem le_recoveredLength (batches : List WalCommit) (length : Nat) : length ≤ recoveredLength batches length := by
  unfold recoveredLength
  split
  · exact le_rfl
  · exact le_max_left ..

omit [Crc32c] in
theorem recoveredLength_aligned (batches : List WalCommit) {length : Nat} (h : pageSize ∣ length) :
    pageSize ∣ recoveredLength batches length := by
  unfold recoveredLength
  by_cases hempty : batches = []
  · rwa [if_pos hempty]
  · rw [if_neg hempty]
    rcases max_choice length ((highestDataPage batches + 1) * pageSize) with hmax | hmax
    · rwa [hmax]
    · rw [hmax]
      exact Nat.dvd_mul_left ..

theorem Redoable.within (h : Redoable batches) (length : Nat) :
    Within pageSize (recoveredLength batches length) (redoImages batches) := by
  intro image himage
  obtain ⟨batch, hbatch, page, hpage, rfl⟩ := mem_redoImages.mp himage
  refine ⟨(h.page batch hbatch page hpage).1, ?_⟩
  rw [recoveredLength, if_neg (List.ne_nil_of_mem hbatch)]
  refine le_trans (Nat.mul_le_mul_right pageSize ?_) (le_max_right ..)
  exact Nat.succ_le_succ (le_highestDataPage hbatch hpage)

/-! ### One run -/

section Run
variable {files : FileId → File} {x : μ} {b : Bool} {old : Bytes} {n : Nat} {images done : List BlockImage} {f : File}

theorem shouldWrite_spec {commitLsn : Lsn} {page : WalPageImage} (hpage : (page.pageId + 1) * pageSize ≤ n) :
    Io.Spec (Machine.At files x b) (shouldWrite n commitLsn page)
      (fun answer m => m.At files x b ∧
        (answer = true ↔ Behind (pageVersion page.pageId) commitLsn (block pageSize (files .data).volatile page.pageId)))
      (fun _ m => m.files = files) (fun m => m.files = files) := by
  unfold shouldWrite
  refine Io.Spec.ite (fun hsuper => ?_) fun hsuper => ?_
  · refine Io.Spec.pure fun m hm => ⟨hm, iff_of_true rfl (.of_unreadable ?_ _)⟩
    rw [pageVersion, if_pos (isSuperblock_iff.mp hsuper)]
  rw [if_pos hpage]
  have hversion : pageVersion page.pageId = fun bytes => match decodePageAt bytes (some page.pageId) with
      | .ok current => some current.header.pageLsn
      | .error _ => none := by
    funext bytes
    rw [pageVersion, if_neg fun hlt => hsuper (isSuperblock_iff.mpr hlt)]
  refine Io.Spec.bind (readAt_spec.conseq (fun _ h => h) (fun _ _ h => h) ?_ fun m hm => hm.files) fun bytes => ?_
  · intro e m h
    rcases h with ⟨_, _, hm⟩ | ⟨_, hm⟩
    · exact hm.files
    · exact hm.files
  refine Io.Spec.assume fun hbytes => .assume fun _ => ?_
  subst hbytes
  unfold block
  rw [hversion, Behind]
  cases hdecode : decodePageAt (slice (files .data).volatile (page.pageId * pageSize) pageSize) (some page.pageId) with
  | ok | error => exact Io.Spec.pure fun m hm => ⟨hm, by simp⟩

theorem Redone.cut (h : Redone pageSize pageVersion old n images done f) (hwithin : Within pageSize n images)
    {image : BlockImage} {rest : List BlockImage} (hdone : done ++ image :: rest = images)
    (hbehind : Behind (pageVersion image.index) image.commit (block pageSize f.volatile image.index)) {f' : File}
    (hf' : f.WriteCut (image.index * pageSize) image.bytes (fun file left =>
      decide (Mixed (slice file.volatile (image.index * pageSize) pageSize) image.bytes left) &&
        refusedBlock image.index left) f') : Recovering pageSize pageVersion old n images f' := by
  rcases hf' with rfl | rfl | ⟨left, hleft, rfl⟩
  · exact h.recovering
  · exact (h.write hwithin hdone hbehind).recovering
  · rw [Bool.and_eq_true, decide_eq_true_eq] at hleft
    obtain ⟨hbytes, _⟩ := hwithin image (hdone ▸ List.mem_append_right _ List.mem_cons_self)
    exact h.torn hwithin hdone hbehind (hleft.1.1.trans hbytes) (pageVersion_of_refused hleft.2)

/-- The images of one batch. -/
def batchImages (commitLsn : Lsn) (pages : List WalPageImage) : List BlockImage :=
  pages.map fun page => ⟨commitLsn, page.pageId, page.image⟩

theorem recoverPages_spec {commitLsn : Lsn} {pages : List WalPageImage} {rest : List BlockImage} {changed : Bool}
    (hwithin : Within pageSize n images) (hdone : done ++ (batchImages commitLsn pages ++ rest) = images)
    (h : Redone pageSize pageVersion old n images done f) :
    Io.Spec (Machine.At (Function.update files .data f) x b) (recoverPages n commitLsn pages changed)
      (fun answer m => ∃ f', m.At (Function.update files .data f') x b ∧
        Redone pageSize pageVersion old n images (done ++ batchImages commitLsn pages) f' ∧
        (answer = false → changed = false ∧ f' = f))
      (fun _ m => Recovering pageSize pageVersion old n images (m.files .data))
      (fun m => Recovering pageSize pageVersion old n images (m.files .data)) := by
  have hstop : ∀ {m : Machine FileId μ} {f' : File}, m.files = Function.update files .data f' →
      Recovering pageSize pageVersion old n images f' →
        Recovering pageSize pageVersion old n images (m.files .data) := by
    intro m f' hm hf'
    rw [hm, Function.update_self]
    exact hf'
  induction pages generalizing done f changed with
  | nil =>
    refine Io.Spec.pure fun m hm => ⟨f, hm, ?_, fun hfalse => ⟨hfalse, rfl⟩⟩
    rwa [batchImages, List.map_nil, List.append_nil]
  | cons page pages ih =>
    have hcons : batchImages commitLsn (page :: pages) =
        ⟨commitLsn, page.pageId, page.image⟩ :: batchImages commitLsn pages := rfl
    rw [hcons, List.cons_append] at hdone
    have hnext : done ++ [⟨commitLsn, page.pageId, page.image⟩] ++ (batchImages commitLsn pages ++ rest) = images := by
      rwa [List.append_assoc]
    obtain ⟨_, hindex⟩ := hwithin _ (hdone ▸ List.mem_append_right _ List.mem_cons_self)
    have hself : (Function.update files FileId.data f) .data = f := Function.update_self ..
    rw [hcons]
    unfold recoverPages
    refine Io.Spec.bind (Q := fun _ => Machine.At (Function.update files .data f) x b)
      (.ofExcept (fun _ _ _ hm => hm) fun _ m _ hm => hstop hm.files h.recovering) fun _ => ?_
    refine Io.Spec.bind ((shouldWrite_spec hindex).conseq (fun _ h => h) (fun _ _ h => h)
      (fun _ m hm => hstop hm h.recovering) fun m hm => hstop hm h.recovering) fun answer => ?_
    rw [hself]
    refine Io.Spec.of_start fun m₀ ⟨hm₀, hanswer⟩ => ?_
    by_cases hbehind : Behind (pageVersion page.pageId) commitLsn (block pageSize f.volatile page.pageId)
    · rw [if_pos (hanswer.mpr hbehind)]
      refine Io.Spec.pre ?_ fun m hm => hm ▸ hm₀
      refine Io.Spec.bind (writeAt_spec.conseq (fun _ h => h) (fun _ _ h => h) ?_ ?_) fun _ => ?_
      · intro e m ⟨_, f', hf', hm⟩
        rw [Function.update_idem] at hm
        exact hstop hm.files (Redone.cut h hwithin hdone hbehind (hself ▸ hf'))
      · intro m ⟨f', hf', hm⟩
        rw [Function.update_idem] at hm
        exact hstop hm.files (Redone.cut h hwithin hdone hbehind (hself ▸ hf'))
      · rw [hself, Function.update_idem]
        refine (ih hnext (h.write hwithin hdone hbehind)).post fun answer m ⟨f', hm, hf', hchanged⟩ => ?_
        refine ⟨f', hm, ?_, fun hfalse => absurd (hchanged hfalse).1 (by decide)⟩
        rwa [List.append_assoc] at hf'
    · rw [if_neg fun htrue => hbehind (hanswer.mp htrue)]
      refine Io.Spec.pre ?_ fun m hm => hm ▸ hm₀
      refine (ih hnext (h.skip hbehind)).post fun answer m ⟨f', hm, hf', hchanged⟩ => ⟨f', hm, ?_, hchanged⟩
      rwa [List.append_assoc] at hf'

omit [Crc32c] in
theorem redoImages_cons (batch : WalCommit) (batches : List WalCommit) :
    redoImages (batch :: batches) = batchImages batch.commitLsn batch.pages ++ redoImages batches :=
  List.flatMap_cons

theorem recoverBatches_spec {batches : List WalCommit} {changed : Bool} (hwithin : Within pageSize n images)
    (hdone : done ++ redoImages batches = images) (h : Redone pageSize pageVersion old n images done f) :
    Io.Spec (Machine.At (Function.update files .data f) x b) (recoverBatches n batches changed)
      (fun answer m => ∃ f', m.At (Function.update files .data f') x b ∧
        Redone pageSize pageVersion old n images images f' ∧ (answer = false → changed = false ∧ f' = f))
      (fun _ m => Recovering pageSize pageVersion old n images (m.files .data))
      (fun m => Recovering pageSize pageVersion old n images (m.files .data)) := by
  induction batches generalizing done f changed with
  | nil =>
    have hall : done = images := (List.append_nil done).symm.trans hdone
    subst hall
    exact Io.Spec.pure fun m hm => ⟨f, hm, h, fun hfalse => ⟨hfalse, rfl⟩⟩
  | cons batch batches ih =>
    rw [redoImages_cons] at hdone
    unfold recoverBatches
    refine Io.Spec.bind (recoverPages_spec hwithin hdone h) fun changed₁ => ?_
    refine Io.Spec.of_start fun m₀ ⟨f₁, hm₀, hf₁, hchanged₁⟩ => ?_
    rw [← List.append_assoc] at hdone
    refine Io.Spec.pre ((ih hdone hf₁).post fun answer m ⟨f', hm, hf', hchanged⟩ => ?_) fun m hm => hm ▸ hm₀
    refine ⟨f', hm, hf', fun hfalse => ?_⟩
    obtain ⟨hfalse₁, rfl⟩ := hchanged hfalse
    exact hchanged₁ hfalse₁

omit [Crc32c] in
theorem lengthFor_eq_ok {highWater : PageId} {exhausted overflow : Error} {length : Nat}
    (h : lengthFor highWater exhausted overflow = .ok length) : length = (highWater + 1) * pageSize := by
  obtain ⟨count, hcount, hlength⟩ := except_bind_eq_ok.mp h
  rw [(addOr_eq_ok hcount).1] at hlength
  exact (mulOr_eq_ok hlength).1

/-- The file is given its length first: then it is the old one, redone from no image. -/
theorem lengthen_spec {target : Nat} {e : Error} (hfile : files .data = .ofDurable old) (haligned : pageSize ∣ old.length)
    (hlength : n = max old.length target) (hn : pageSize ∣ n) :
    Io.Spec (Machine.At files x b) (if old.length < target then dataSetLength target
        else Io.ofExcept (ensure (pageSize ∣ old.length) e))
      (fun _ m => ∃ f, m.At (Function.update files .data f) x b ∧ Redone pageSize pageVersion old n images [] f ∧
        n ≤ max old.length maxFileLength ∧ (¬old.length < target → f = .ofDurable old))
      (fun _ m => Recovering pageSize pageVersion old n images (m.files .data))
      (fun m => Recovering pageSize pageVersion old n images (m.files .data)) := by
  have hold : Recovering pageSize pageVersion old n images (.ofDurable old) :=
    .start haligned (hlength ▸ le_max_left ..)
  have hstart : ∀ {m : Machine FileId μ}, m.files = files →
      Recovering pageSize pageVersion old n images (m.files .data) := by
    intro m hm
    rwa [hm, hfile]
  refine Io.Spec.ite (fun hlt => ?_) fun hge => ?_
  · obtain rfl : n = target := hlength.trans (max_eq_right hlt.le)
    have hset : ∀ {m : Machine FileId μ}, m.files = Function.update files .data ((files .data).setLength n) →
        Recovering pageSize pageVersion old n images (m.files .data) := by
      intro m hm
      rw [hm, Function.update_self, hfile]
      exact hold.setLength hn
    refine setLength_spec.conseq (fun _ h => h) (fun _ m h => ?_) (fun _ m h => ?_) fun m h => ?_
    · obtain ⟨hmax, hm⟩ := h
      rw [hfile] at hm
      exact ⟨_, hm, ⟨hold.setLength hn, rfl⟩, hmax.trans (le_max_right ..), fun hge => absurd hlt hge⟩
    · exact h.2.elim (fun hm => hstart hm.files) fun hm => hset hm.files
    · exact h.elim (fun hm => hstart hm.files) fun hm => hset hm.files
  · have hsame : n = old.length := hlength.trans (max_eq_left (not_lt.mp hge))
    refine Io.Spec.ofExcept (fun _ m _ hm => ?_) fun _ _ _ hm => hstart hm.files
    refine ⟨.ofDurable old, ?_, ⟨hold, ?_⟩, hsame.le.trans (le_max_left ..), fun _ => rfl⟩
    · rwa [← hfile, Function.update_eq_self]
    · rw [hsame, resize_self]
      rfl

/-- What redo changed is synced last. -/
theorem syncRedone_spec {changed : Bool} {wrap : Error → Error} (hf : Recovering pageSize pageVersion old n images f)
    (hsame : changed = false → f = .ofDurable f.volatile) :
    Io.Spec (Machine.At (Function.update files .data f) x b)
      (if changed = true then Io.mapError wrap dataSync else pure ⟨⟩)
      (fun _ m => m.files .data = .ofDurable f.volatile)
      (fun _ m => Recovering pageSize pageVersion old n images (m.files .data))
      (fun m => Recovering pageSize pageVersion old n images (m.files .data)) := by
  have hself : (Function.update files FileId.data f) .data = f := Function.update_self ..
  have hstop : ∀ {m : Machine FileId μ}, m.files = Function.update files .data f ∨
      m.files = Function.update files .data f.sync → Recovering pageSize pageVersion old n images (m.files .data) := by
    rintro m (hm | hm)
    · rwa [hm, hself]
    · rw [hm, Function.update_self]
      exact hf.sync
  refine Io.Spec.ite (fun _ => ?_) fun hfalse => ?_
  · refine Io.Spec.mapError (syncFile_spec.conseq (fun _ h => h) (fun _ m hm => ?_) (fun e m h => ?_) fun m h => ?_)
    · rw [hm.files, Function.update_self, hself, File.sync]
    · rw [hself, Function.update_idem] at h
      exact hstop (h.2.imp (·.files) (·.files))
    · rw [hself, Function.update_idem] at h
      exact hstop (h.imp (·.files) (·.files))
  · refine Io.Spec.pure fun m hm => ?_
    rw [hm.files, hself]
    exact hsame (Bool.eq_false_of_not_eq_true hfalse)

/-- However redo ends, the file is partway; where it succeeds, the file is redone and on the medium. -/
theorem recoverDataFile_spec {committed : List WalCommit} {checkpointLsn : Lsn}
    (hbatches : Redoable (batchesAfter checkpointLsn committed)) (hfile : files .data = .ofDurable old)
    (haligned : pageSize ∣ old.length) :
    Io.Spec (Machine.At files x b) (recoverDataFile committed checkpointLsn)
      (fun _ m => recoveredLength (batchesAfter checkpointLsn committed) old.length ≤ max old.length maxFileLength ∧
        m.files .data = .ofDurable (recovered (batchesAfter checkpointLsn committed) old))
      (fun _ m => Recovering pageSize pageVersion old
        (recoveredLength (batchesAfter checkpointLsn committed) old.length)
        (redoImages (batchesAfter checkpointLsn committed)) (m.files .data))
      (fun m => Recovering pageSize pageVersion old
        (recoveredLength (batchesAfter checkpointLsn committed) old.length)
        (redoImages (batchesAfter checkpointLsn committed)) (m.files .data)) := by
  unfold recoverDataFile
  unfold batchesAfter at *
  dsimp only
  generalize committed.filter (fun batch => decide (checkpointLsn < batch.commitLsn)) = batches at *
  refine Io.Spec.ite (fun hempty => ?_) fun hempty => ?_
  · subst hempty
    refine Io.Spec.pure fun m hm => ⟨le_max_left .., ?_⟩
    rw [hm.files, hfile]
    show File.ofDurable old = File.ofDurable (resize old old.length)
    rw [resize_self]
  have hstart : ∀ {m : Machine FileId μ}, m.files = files →
      Recovering pageSize pageVersion old (recoveredLength batches old.length) (redoImages batches) (m.files .data) := by
    intro m hm
    rw [hm, hfile]
    exact .start haligned (le_recoveredLength ..)
  have hn := recoveredLength_aligned batches haligned
  have hwithin := hbatches.within old.length
  have hlength : recoveredLength batches old.length = max old.length ((highestDataPage batches + 1) * pageSize) :=
    if_neg hempty
  unfold recovered
  generalize recoveredLength batches old.length = n at *
  refine Io.Spec.bind (Q := fun target m => target = (highestDataPage batches + 1) * pageSize ∧ m.At files x b)
    (.ofExcept (fun _ _ h hm => ⟨lengthFor_eq_ok h, hm⟩) fun _ _ _ hm => hstart hm.files) fun target => ?_
  refine Io.Spec.assume fun htarget => ?_
  rw [← htarget] at hlength
  refine Io.Spec.bind (fileLength_spec.conseq (fun _ h => h) (fun _ _ h => h) (fun _ _ h => hstart h.2.files)
    fun _ hm => hstart hm.files) fun current => ?_
  refine Io.Spec.assume fun hcurrent => ?_
  replace hcurrent : current = old.length := by rw [hcurrent, hfile, File.ofDurable]
  subst hcurrent
  rw [Io.ite_bind]
  refine Io.Spec.bind (lengthen_spec hfile haligned hlength hn) fun _ => ?_
  refine Io.Spec.of_start fun m₀ hstarted => ?_
  obtain ⟨f, hm₀, hf, hmax, hsame⟩ := hstarted
  refine Io.Spec.pre ?_ fun m hm => hm ▸ hm₀
  have hstop : ∀ {m : Machine FileId μ}, m.files = Function.update files .data f →
      Recovering pageSize pageVersion old n (redoImages batches) (m.files .data) := by
    intro m hm
    rw [hm, Function.update_self]
    exact hf.recovering
  refine Io.Spec.bind (fileLength_spec.conseq (fun _ h => h) (fun _ _ h => h) (fun _ _ h => hstop h.2.files)
    fun _ hm => hstop hm.files) fun readable => ?_
  refine Io.Spec.assume fun hreadable => ?_
  rw [Function.update_self, (hf.spec hwithin (List.nil_append _)).1] at hreadable
  subst hreadable
  refine Io.Spec.bind (recoverBatches_spec hwithin (List.nil_append _) hf) fun changed => ?_
  refine Io.Spec.of_start fun m₁ hredone => ?_
  obtain ⟨f₁, hm₁, hf₁, hchanged⟩ := hredone
  refine Io.Spec.pre ?_ fun m hm => hm ▸ hm₁
  refine (syncRedone_spec hf₁.recovering fun hfalse => ?_).conseq (fun _ h => h) (fun _ m hm => ⟨hmax, ?_⟩)
    (fun _ _ h => h) fun _ h => h
  · obtain ⟨hnot, rfl⟩ := hchanged hfalse
    rw [hsame (of_decide_eq_false hnot)]
    rfl
  · rw [hm, hf₁.volatile]

end Run

/-! ### A run where nothing goes wrong -/

section Quiet
variable {m : Machine FileId μ}

theorem shouldWrite_quiet (h : m.schedule = []) (commitLsn : Lsn) {page : WalPageImage}
    (hpage : (page.pageId + 1) * pageSize ≤ (m.files .data).volatile.length) :
    ∃ answer, shouldWrite (m.files .data).volatile.length commitLsn page m = .ok answer m := by
  unfold shouldWrite
  by_cases hsuper : page.isSuperblock = true
  · rw [if_pos hsuper]
    exact ⟨_, rfl⟩
  rw [if_neg hsuper, if_pos hpage, Io.bind_apply, readBlock,
    readAt_quiet h (by rwa [Nat.add_mul, Nat.one_mul] at hpage)]
  dsimp only
  cases decodePageAt (slice (m.files .data).volatile (page.pageId * pageSize) pageSize) (some page.pageId) with
  | ok | error => exact ⟨_, rfl⟩

theorem recoverPages_quiet (h : m.schedule = []) (commitLsn : Lsn) {pages : List WalPageImage} (changed : Bool) {n : Nat}
    (hn : (m.files .data).volatile.length = n) (hmax : n ≤ maxFileLength)
    (hpages : Within pageSize n (batchImages commitLsn pages)) :
    ∃ answer f, recoverPages n commitLsn pages changed m = .ok answer (m.setFile .data f) ∧ f.volatile.length = n := by
  induction pages generalizing m changed with
  | nil => exact ⟨changed, m.files .data, by rw [Machine.setFile_self]; rfl, hn⟩
  | cons page pages ih =>
    obtain ⟨hbytes, hindex⟩ := hpages ⟨commitLsn, page.pageId, page.image⟩ List.mem_cons_self
    have hrest : Within pageSize n (batchImages commitLsn pages) :=
      fun image himage => hpages image (List.mem_cons_of_mem _ himage)
    dsimp only at hbytes hindex
    obtain ⟨answer, hanswer⟩ := shouldWrite_quiet h commitLsn (hn.symm ▸ hindex)
    rw [hn] at hanswer
    rw [Nat.add_mul, Nat.one_mul] at hindex
    have hu64 : page.pageId * pageSize ≤ u64Max := by
      have : maxFileLength ≤ u64Max := by decide
      lia
    unfold recoverPages
    rw [mulOr_of_le _ hu64, Io.ofExcept_ok, pure_bind, Io.bind_apply, hanswer]
    dsimp only
    cases answer with
    | false => exact ih h changed hn hrest
    | true =>
      rw [if_pos rfl, Io.bind_apply, writeBlock, writeAt_quiet h (by rw [hbytes]; exact hindex.trans hmax)]
      dsimp only
      have hlength : ((m.files .data).write (page.pageId * pageSize) page.image).volatile.length = n := by
        show (splice _ _ _).length = n
        rw [length_splice, hn, hbytes]
        exact max_eq_left hindex
      obtain ⟨answer, f, hrun, hf⟩ := ih (m := m.setFile .data _) h true
        ((congrArg (List.length ∘ File.volatile) (Machine.files_setFile_same ..)).trans hlength) hrest
      refine ⟨answer, f, ?_, hf⟩
      rw [hrun, Machine.setFile_setFile]

theorem recoverBatches_quiet (h : m.schedule = []) {batches : List WalCommit} (changed : Bool) {n : Nat}
    (hn : (m.files .data).volatile.length = n) (hmax : n ≤ maxFileLength) (hpages : Within pageSize n (redoImages batches)) :
    ∃ answer f, recoverBatches n batches changed m = .ok answer (m.setFile .data f) ∧ f.volatile.length = n := by
  induction batches generalizing m changed with
  | nil => exact ⟨changed, m.files .data, by rw [Machine.setFile_self]; rfl, hn⟩
  | cons batch batches ih =>
    rw [redoImages_cons] at hpages
    obtain ⟨changed₁, f₁, hrun₁, hf₁⟩ := recoverPages_quiet h batch.commitLsn changed hn hmax
      fun image himage => hpages image (List.mem_append_left _ himage)
    obtain ⟨answer, f, hrun, hf⟩ := ih (m := m.setFile .data f₁) h changed₁
      ((congrArg (List.length ∘ File.volatile) (Machine.files_setFile_same ..)).trans hf₁)
      fun image himage => hpages image (List.mem_append_right _ himage)
    refine ⟨answer, f, ?_, hf⟩
    unfold recoverBatches
    rw [Io.bind_apply, hrun₁]
    dsimp only
    rw [hrun, Machine.setFile_setFile]

omit [Crc32c] in
theorem lengthFor_of_le {highWater : PageId} (exhausted overflow : Error)
    (h : (highWater + 1) * pageSize ≤ u64Max) : lengthFor highWater exhausted overflow = .ok ((highWater + 1) * pageSize) := by
  have hcount : highWater + 1 ≤ u64Max := (Nat.le_mul_of_pos_right _ (by decide)).trans h
  unfold lengthFor
  rw [addOr_of_le _ hcount, except_ok_bind, mulOr_of_le _ h]

theorem recoverDataFile_quiet (h : m.schedule = []) {committed : List WalCommit} {checkpointLsn : Lsn}
    (hbatches : Redoable (batchesAfter checkpointLsn committed)) {file : Bytes}
    (hfile : m.files .data = .ofDurable file) (haligned : pageSize ∣ file.length)
    (hmax : recoveredLength (batchesAfter checkpointLsn committed) file.length ≤ maxFileLength) :
    ∃ f, recoverDataFile committed checkpointLsn m = .ok ⟨⟩ (m.setFile .data f) := by
  have hlength : (m.files .data).volatile.length = file.length := by rw [hfile, File.ofDurable]
  have hwithin := hbatches.within file.length
  unfold recoverDataFile
  unfold batchesAfter at *
  dsimp only
  generalize committed.filter (fun batch => decide (checkpointLsn < batch.commitLsn)) = batches at *
  by_cases hempty : batches = []
  · rw [if_pos hempty]
    exact ⟨m.files .data, by rw [Machine.setFile_self]; rfl⟩
  rw [recoveredLength, if_neg hempty] at hmax hwithin
  have htarget : (highestDataPage batches + 1) * pageSize ≤ maxFileLength := (le_max_right ..).trans hmax
  rw [if_neg hempty, lengthFor_of_le _ _ (htarget.trans (by decide)), Io.ofExcept_ok, pure_bind, Io.bind_apply,
    dataLength, fileLength_quiet h]
  dsimp only
  rw [hlength, Io.ite_bind, Io.bind_apply]
  generalize (highestDataPage batches + 1) * pageSize = target at *
  -- the file gets its length, or has it
  have hset : ∃ f, (if file.length < target then dataSetLength target else Io.ofExcept (ensure (pageSize ∣ file.length)
      (.recoveryFailure "database file has a non-page-aligned length before recovery")) : Data μ PUnit) m =
        .ok ⟨⟩ (m.setFile .data f) ∧ f.volatile.length = max file.length target := by
    by_cases hlt : file.length < target
    · rw [if_pos hlt, dataSetLength, setLength_quiet h htarget]
      exact ⟨_, rfl, (length_resize _ _).trans (max_eq_right hlt.le).symm⟩
    · rw [if_neg hlt, ensure_pos haligned, Io.ofExcept_ok]
      exact ⟨m.files .data, by rw [Machine.setFile_self]; rfl, hlength.trans (max_eq_left (not_lt.mp hlt)).symm⟩
  obtain ⟨f, hrun, hf⟩ := hset
  rw [hrun]
  dsimp only
  have hf₁ : ((m.setFile .data f).files .data).volatile.length = max file.length target := by
    rw [Machine.files_setFile_same, hf]
  rw [Io.bind_apply, fileLength_quiet (m := m.setFile .data f) h]
  dsimp only
  obtain ⟨changed, f₂, hrun₂, _⟩ := recoverBatches_quiet (m := m.setFile .data f) h
    (decide (file.length < target)) hf₁ hmax hwithin
  rw [hf₁, Io.bind_apply, hrun₂, Machine.setFile_setFile]
  dsimp only
  cases changed with
  | false => exact ⟨f₂, rfl⟩
  | true =>
    rw [if_pos rfl, Io.mapError, dataSync, syncFile_quiet (by exact h), Machine.setFile_setFile]
    exact ⟨_, rfl⟩

end Quiet

/-! ### Redo begun again -/

theorem recovered_of_leftOver (hbatches : Redoable batches) {file left : Bytes} {f : File}
    (haligned : pageSize ∣ file.length)
    (hf : Recovering pageSize pageVersion file (recoveredLength batches file.length) (redoImages batches) f)
    (hleft : LeftOver pageSize pageVersion file (recoveredLength batches file.length) (redoImages batches) f left) :
    recoveredLength batches left.length = recoveredLength batches file.length ∧
      recovered batches left = recovered batches file := by
  have hle := hf.old_le.trans hleft.durable_le
  have hge := hleft.le_volatile.trans hf.volatile_le
  have hlength : recoveredLength batches left.length = recoveredLength batches file.length := by
    unfold recoveredLength at *
    by_cases hempty : batches = []
    · rw [if_pos hempty] at hge ⊢
      rw [if_pos hempty]
      omega
    · rw [if_neg hempty] at hge ⊢
      rw [if_neg hempty]
      exact le_antisymm (max_le hge (le_max_right ..)) (max_le_max_right _ hle)
  refine ⟨hlength, ?_⟩
  unfold recovered
  rw [hlength]
  exact hf.redoBlocks_leftOver hbatches.stamped (by decide) (recoveredLength_aligned _ haligned) (hbatches.within _) hleft

/-- However a run of redo ends, the file is partway. -/
theorem recoverDataFile_recovering {committed : List WalCommit} {checkpointLsn : Lsn}
    (hbatches : Redoable (batchesAfter checkpointLsn committed)) {file : Bytes} (haligned : pageSize ∣ file.length)
    {m : Machine FileId μ} (hfile : m.files .data = .ofDurable file) :
    Recovering pageSize pageVersion file (recoveredLength (batchesAfter checkpointLsn committed) file.length)
      (redoImages (batchesAfter checkpointLsn committed))
      ((recoverDataFile committed checkpointLsn m).state.files .data) := by
  have hspec := @recoverDataFile_spec _ μ m.files m.memory m.faulted file committed checkpointLsn hbatches hfile haligned
    m ⟨rfl, rfl, rfl⟩
  cases hrun : recoverDataFile committed checkpointLsn m with
  | ok _ m' =>
    rw [hrun] at hspec
    show Recovering _ _ _ _ _ (m'.files .data)
    rw [hspec.2]
    exact .redone _ (recoveredLength_aligned _ haligned) (le_recoveredLength ..) (hbatches.within _)
  | err | halt =>
    rw [hrun] at hspec
    exact hspec

theorem recovered_spec (hbatches : Redoable batches) (file : Bytes) :
    (recovered batches file).length = recoveredLength batches file.length ∧
      ∀ i, (i + 1) * pageSize ≤ recoveredLength batches file.length →
        block pageSize (recovered batches file) i = redo (pageVersion i)
          (block pageSize (resize file (recoveredLength batches file.length)) i) (imagesOf i (redoImages batches)) := by
  have hwithin := hbatches.within file.length
  rw [← length_resize file (recoveredLength batches file.length)] at hwithin
  have h := redoBlocks_spec pageVersion hwithin
  rwa [length_resize] at h

/-- A data page that has an image is redone to one at least as new. -/
theorem recovered_page (hbatches : Redoable batches) (file : Bytes) {batch : WalCommit}
    (hbatch : batch ∈ batches) {page : WalPageImage} (hpage : page ∈ batch.pages) (hdata : page.isSuperblock = false) :
    ∃ decoded, decodePageAt (block pageSize (recovered batches file) page.pageId) (some page.pageId) = .ok decoded ∧
      batch.commitLsn ≤ decoded.header.pageLsn := by
  have hwithin := hbatches.within file.length
  have himage : (⟨batch.commitLsn, page.pageId, page.image⟩ : BlockImage) ∈ redoImages batches :=
    mem_redoImages.mpr ⟨batch, hbatch, page, hpage, rfl⟩
  have hindex := (hwithin _ himage).2
  have hblock := (recovered_spec hbatches file).2
  have hexact : ∀ image ∈ imagesOf page.pageId (redoImages batches),
      pageVersion page.pageId image.2 = some image.1 := by
    intro image hmem
    obtain ⟨full, hfull, hid, rfl⟩ := mem_imagesOf.mp hmem
    obtain ⟨other, hother, otherPage, hotherPage, rfl⟩ := mem_redoImages.mp hfull
    dsimp only at hid
    have hotherData : otherPage.isSuperblock = false := by
      rw [WalPageImage.isSuperblock, hid]
      exact hdata
    have := hbatches.version hother hotherPage
    rwa [hotherData, if_neg Bool.false_ne_true, hid] at this
  have hnew : ¬Behind (pageVersion page.pageId) batch.commitLsn
      (block pageSize (recovered batches file) page.pageId) := by
    rw [hblock _ hindex]
    exact (hbatches.stamped.imagesOf page.pageId).not_behind_redo hexact
      (.inl ⟨(batch.commitLsn, page.image), mem_imagesOf.mpr ⟨_, himage, rfl, rfl⟩, rfl⟩)
  have hid : ¬page.pageId < firstDataPage := fun hlt => Bool.false_ne_true (hdata.symm.trans (isSuperblock_iff.mpr hlt))
  simp only [Behind, not_forall, pageVersion, if_neg hid] at hnew
  obtain ⟨v, hv, hle⟩ := hnew
  cases hdecode : decodePageAt (block pageSize (recovered batches file) page.pageId) (some page.pageId) with
  | error e =>
    rw [hdecode] at hv
    cases hv
  | ok decoded =>
    rw [hdecode] at hv
    cases hv
    exact ⟨decoded, rfl, not_lt.mp hle⟩

/-- The images of a page in the batches, in order. -/
def imagesIn (batches : List WalCommit) (pageId : PageId) : List Bytes :=
  ((batches.flatMap WalCommit.pages).filter fun page => page.pageId = pageId).map WalPageImage.image

omit [Crc32c] in
theorem map_imagesOf (batches : List WalCommit) (pageId : PageId) :
    (imagesOf pageId (redoImages batches)).map Prod.snd = imagesIn batches pageId := by
  have hbatch : ∀ (commitLsn : Lsn) (pages : List WalPageImage),
      (imagesOf pageId (pages.map fun page => ⟨commitLsn, page.pageId, page.image⟩)).map Prod.snd =
        (pages.filter fun page => page.pageId = pageId).map WalPageImage.image := by
    intro commitLsn pages
    induction pages with
    | nil => rfl
    | cons page rest ih =>
      by_cases hid : page.pageId = pageId
      · subst hid
        rw [List.map_cons, imagesOf_cons_same ⟨commitLsn, page.pageId, page.image⟩, List.map_cons, ih,
          List.filter_cons_of_pos (by exact decide_eq_true rfl)]
        rfl
      · rw [List.map_cons, imagesOf_cons_ne (Ne.symm hid), ih, List.filter_cons_of_neg (by exact mt of_decide_eq_true hid)]
  induction batches with
  | nil => rfl
  | cons batch rest ih =>
    unfold imagesIn at ih ⊢
    rw [redoImages, List.flatMap_cons, imagesOf_append, List.map_append, hbatch, List.flatMap_cons, List.filter_append,
      List.map_append, ← ih]
    rfl

/-- The data file is not as redo of the batches leaves it: it is too short, or has a page that does not decode or is
older than an image, or a superblock slot with other bytes than its last image. -/
inductive Outdates (batches : List WalCommit) (data : Bytes) : Prop where
  | short (hne : batches ≠ []) (hlength : data.length < (highestDataPage batches + 1) * pageSize)
  | page {batch : WalCommit} (hbatch : batch ∈ batches) {page : WalPageImage} (hpage : page ∈ batch.pages)
      (hdata : page.isSuperblock = false)
      (hbehind : ∀ current, decodePageAt (block pageSize data page.pageId) (some page.pageId) = .ok current →
        current.header.pageLsn < batch.commitLsn)
  | slot {slot : PageId} (hslot : slot < firstDataPage) {image : Bytes}
      (hlast : (imagesIn batches slot).getLast? = some image) (hdiffers : block pageSize data slot ≠ image)

/-- The slots of superblocks are redone to their last images. -/
theorem recovered_slot (hbatches : Redoable batches) (file : Bytes) {slot : PageId}
    (hslot : slot < firstDataPage) (hlength : (slot + 1) * pageSize ≤ recoveredLength batches file.length) :
    block pageSize (recovered batches file) slot = ((imagesIn batches slot).getLast?).getD
      (block pageSize (resize file (recoveredLength batches file.length)) slot) := by
  rw [(recovered_spec hbatches file).2 slot hlength, @redo_unversioned _ (pageVersion slot) fun _ => if_pos hslot,
    map_imagesOf]

theorem recovered_ne_iff (hbatches : Redoable batches) {data : Bytes}
    (haligned : pageSize ∣ data.length) : recovered batches data ≠ data ↔ Outdates batches data := by
  obtain ⟨hlength, hblocks⟩ := recovered_spec hbatches data
  constructor
  · intro hne
    by_contra hnot
    -- the file is long enough
    have hlong : recoveredLength batches data.length = data.length := by
      unfold recoveredLength
      by_cases hempty : batches = []
      · rw [if_pos hempty]
      · rw [if_neg hempty]
        exact max_eq_left (not_lt.mp fun hlt => hnot (.short hempty hlt))
    refine hne (eq_of_blocks (show 0 < pageSize by decide) (by rwa [hlength, hlong]) (hlong.symm.trans hlength.symm) fun i hi => ?_)
    rw [hlength] at hi
    by_cases hid : i < firstDataPage
    · rw [recovered_slot hbatches data hid hi, hlong, resize_self]
      cases hlast : (imagesIn batches i).getLast? with
      | none => rfl
      | some image => exact (not_not.mp fun hdiffers => hnot (.slot hid hlast (Ne.symm hdiffers)))
    · rw [hblocks i hi, hlong, resize_self]
      refine redo_of_not_outdated fun houtdated => hnot ?_
      obtain ⟨image, himage, hbehind⟩ := houtdated
      obtain ⟨full, hfull, rfl, rfl⟩ := mem_imagesOf.mp himage
      obtain ⟨batch, hbatch, page, hpage, rfl⟩ := mem_redoImages.mp hfull
      have hdata : page.isSuperblock = false := Bool.eq_false_of_not_eq_true fun h => hid (isSuperblock_iff.mp h)
      refine .page hbatch hpage hdata fun current hcurrent => hbehind _ ?_
      dsimp only at hid ⊢
      rw [pageVersion, if_neg hid, hcurrent]
      rfl
  · intro houtdates hsame
    cases houtdates with
    | short hne hshort =>
      rw [hsame, recoveredLength, if_neg hne] at hlength
      omega
    | page hbatch hpage hdata hbehind =>
      obtain ⟨decoded, hdecoded, hle⟩ := recovered_page hbatches data hbatch hpage hdata
      rw [hsame] at hdecoded
      exact absurd (hbehind decoded hdecoded) hle.not_gt
    | @slot slot hslot image hlast hdiffers =>
      have hmem : image ∈ imagesIn batches slot := List.mem_of_getLast? hlast
      have hwithin : (slot + 1) * pageSize ≤ recoveredLength batches data.length := by
        rw [← map_imagesOf] at hmem
        obtain ⟨pair, hpair, -⟩ := List.mem_map.mp hmem
        obtain ⟨full, hfull, rfl, -⟩ := mem_imagesOf.mp hpair
        exact (hbatches.within data.length full hfull).2
      have hredone := recovered_slot hbatches data hslot hwithin
      rw [hlast, hsame] at hredone
      exact hdiffers hredone

variable (μ) in
/-- Every run of redo on `file` that succeeds leaves `result` on the medium, and one where nothing goes wrong
succeeds. -/
def RecoversTo (committed : List WalCommit) (checkpointLsn : Lsn) (file result : Bytes) : Prop :=
  ∀ m : Machine FileId μ, m.files .data = .ofDurable file →
    (∀ m', recoverDataFile committed checkpointLsn m = .ok ⟨⟩ m' → m'.files .data = .ofDurable result) ∧
    (m.schedule = [] → ∃ m', recoverDataFile committed checkpointLsn m = .ok ⟨⟩ m')

theorem recoversTo_recovered {committed : List WalCommit} {checkpointLsn : Lsn}
    (hbatches : Redoable (batchesAfter checkpointLsn committed)) {file : Bytes} (haligned : pageSize ∣ file.length)
    (hmax : recoveredLength (batchesAfter checkpointLsn committed) file.length ≤ maxFileLength) :
    RecoversTo μ committed checkpointLsn file (recovered (batchesAfter checkpointLsn committed) file) := by
  intro m hm
  refine ⟨fun m' hrun => ?_, fun hquiet => ?_⟩
  · exact ((recoverDataFile_spec hbatches hm haligned).of_ok ⟨rfl, rfl, rfl⟩ hrun).2
  · obtain ⟨f, hrun⟩ := recoverDataFile_quiet hquiet hbatches hm haligned hmax
    exact ⟨_, hrun⟩

/-- Redo is idempotent and can be begun again: where it succeeds once, it leaves what it left when it runs again,
and leaves the same when a run that was cut anywhere is followed by a whole one; and each data page with an image in
a batch after the checkpoint is then at least as new as that image. -/
theorem recoverDataFile_restartable {identity : WalIdentity} {log : Bytes} {wal : WalLog} {validLength : Nat}
    (hscan : scanWal identity log = .ok (wal, validLength)) (checkpointLsn : Lsn) {file : Bytes}
    (haligned : pageSize ∣ file.length) (hmedium : file.length ≤ maxFileLength) {m m' : Machine FileId μ}
    (hfile : m.files .data = .ofDurable file) (hrun : recoverDataFile wal.committed checkpointLsn m = .ok ⟨⟩ m') :
    RecoversTo μ wal.committed checkpointLsn (m'.files .data).volatile (m'.files .data).volatile ∧
      (∀ (cut : Machine FileId μ) (left : Bytes), cut.files .data = .ofDurable file →
        LeftOver pageSize pageVersion file (m'.files .data).volatile.length
          (redoImages (batchesAfter checkpointLsn wal.committed))
          ((recoverDataFile wal.committed checkpointLsn cut).state.files .data) left →
        RecoversTo μ wal.committed checkpointLsn left (m'.files .data).volatile) ∧
      ∀ batch ∈ wal.committed, checkpointLsn < batch.commitLsn → ∀ page ∈ batch.pages, page.isSuperblock = false →
        ∃ image decoded, decodePageAt page.image (some page.pageId) = .ok image ∧
          decodePageAt (block pageSize (m'.files .data).volatile page.pageId) (some page.pageId) = .ok decoded ∧
          image.header.pageLsn ≤ decoded.header.pageLsn := by
  have hbatches := Redoable.of_scanWal hscan checkpointLsn
  have hn := recoveredLength_aligned (batchesAfter checkpointLsn wal.committed) haligned
  have hwithin := hbatches.within file.length
  obtain ⟨hmax, hresult⟩ := (recoverDataFile_spec hbatches hfile haligned).of_ok ⟨rfl, rfl, rfl⟩ hrun
  have hmax : recoveredLength (batchesAfter checkpointLsn wal.committed) file.length ≤ maxFileLength :=
    hmax.trans (max_le hmedium le_rfl)
  rw [hresult]
  dsimp only [File.ofDurable]
  have hdone := Recovering.redone pageVersion hn (le_recoveredLength ..) hwithin
  refine ⟨?_, fun cut left hcut hleft => ?_, fun batch hbatch hafter page hpage hdata => ?_⟩
  · obtain ⟨hsame, hagain⟩ := recovered_of_leftOver hbatches haligned hdone hdone.leftOver_durable
    have := @recoversTo_recovered _ μ _ _ hbatches _ hdone.durable_aligned (hsame.trans_le hmax)
    rwa [hagain] at this
  · rw [(recovered_spec hbatches file).1] at hleft
    have hcutting := recoverDataFile_recovering hbatches haligned hcut
    obtain ⟨hsame, hagain⟩ := recovered_of_leftOver hbatches haligned hcutting hleft
    have := @recoversTo_recovered _ μ _ _ hbatches _ hleft.aligned (hsame.trans_le hmax)
    rwa [hagain] at this
  · have hmem : batch ∈ batchesAfter checkpointLsn wal.committed :=
      List.mem_filter.mpr ⟨hbatch, decide_eq_true hafter⟩
    obtain ⟨image, himage, hlsn⟩ := hbatches.decodes hmem hpage hdata
    obtain ⟨decoded, hdecoded, hle⟩ := recovered_page hbatches file hmem hpage hdata
    exact ⟨image, decoded, himage, hdecoded, hlsn.trans_le hle⟩

end Recovery

/-- A page without entries, as redo sees it. -/
def samplePage [Crc32c] (pageId : PageId) (lsn : Lsn) : Bytes :=
  (encodePage (PageHeader.new .free pageId lsn) []).toOption.getD []

theorem encodePage_samplePage [Crc32c] (pageId : PageId) (lsn : Lsn) :
    encodePage (PageHeader.new .free pageId lsn) [] = .ok (samplePage pageId lsn) := by
  obtain ⟨bytes, hbytes⟩ : ∃ bytes, encodePage (PageHeader.new .free pageId lsn) [] = .ok bytes :=
    ⟨_, encodePage_eq_ok.mpr ⟨rfl, Nat.zero_le _, rfl⟩⟩
  rw [samplePage, hbytes]
  rfl

theorem length_samplePage [Crc32c] (pageId : PageId) (lsn : Lsn) : (samplePage pageId lsn).length = pageSize := by
  rw [(encodePage_eq_ok.mp (encodePage_samplePage pageId lsn)).2.2]
  exact length_pageLayout _ _ (Nat.zero_le _)

theorem samplePage_decodes [Crc32c] {pageId : PageId} (hid : pageId ≤ u64Max) {lsn : Lsn} (hlsn : lsn ≤ u64Max) :
    ∃ decoded, decodePageAt (samplePage pageId lsn) (some pageId) = .ok decoded ∧ decoded.header.pageLsn = lsn := by
  have hdecode := decodePageAt_encodePage (encodePage_samplePage pageId lsn) (lt_of_le_u64Max hid)
    (lt_of_le_u64Max hlsn) (show 0 < 256 ^ 4 by decide)
  exact ⟨_, hdecode, rfl⟩

/-- A commit of two data pages, the first commit after LSN 4. -/
def samplePages : WalCommit := ⟨1, 7, [⟨2, @samplePage castagnoli 2 7⟩, ⟨3, @samplePage castagnoli 3 7⟩]⟩

theorem samplePages_sound : @WalCommit.Sound castagnoli samplePages := by
  have hpage : ∀ p ∈ samplePages.pages, p.isSuperblock = false ∧ ∃ decoded,
      @decodePageAt castagnoli p.image (some p.pageId) = .ok decoded ∧ decoded.header.pageLsn = 7 := by
    intro p hp
    rw [samplePages, List.mem_cons, List.mem_singleton] at hp
    obtain rfl | rfl := hp
    · exact ⟨rfl, @samplePage_decodes castagnoli _ (by decide) _ (by decide)⟩
    · exact ⟨rfl, @samplePage_decodes castagnoli _ (by decide) _ (by decide)⟩
  refine @WalCommit.Sound.mk castagnoli _ (@WalCommit.Begun.mk castagnoli _ (List.cons_ne_nil _ _) (fun p hp => ?_)
    (fun p hp => ?_) (by decide) (by decide) (by decide)) (by decide)
  · obtain ⟨hdata, decoded, hdecoded, -⟩ := hpage p hp
    rw [@validatePageImage.eq_def castagnoli, if_neg (by rw [hdata]; exact Bool.false_ne_true), hdecoded]
    rfl
  · obtain ⟨hdata, decoded, hdecoded, hlsn⟩ := hpage p hp
    rw [validatePageImageLsn, if_neg (by rw [hdata]; exact Bool.false_ne_true)]
    refine ensure_pos ?_ _
    rw [← @decodePageAt_lsn castagnoli _ _ _ hdecoded]
    exact hlsn

/-- A data file in which page 2 is older than the commit, and page 3 newer. -/
def outdatedData : Bytes :=
  [zeros pageSize, zeros pageSize, @samplePage castagnoli 2 3, @samplePage castagnoli 3 9].flatten

theorem length_outdatedData : outdatedData.length = 4 * pageSize := by
  rw [outdatedData, List.length_flatten]
  simp only [List.map_cons, List.map_nil, length_zeros, @length_samplePage castagnoli]
  rfl

/-- This data file, and what is in store for the operations on it. -/
def onData (data : Bytes) (schedule : List Event) : Machine FileId Unit := ⟨fun _ => .ofDurable data, (), schedule, false⟩

/-- Two pages redone onto a file that is behind one and ahead of the other, by runs that end anywhere. -/
theorem recoverDataFile_restartable_samplePages :
    ∃ (log : Bytes) (wal : WalLog) (validLength : Nat) (m' : Machine FileId Unit),
      @scanWal castagnoli sampleIdentity log = .ok (wal, validLength) ∧ wal.committed = [samplePages] ∧
      @recoverDataFile castagnoli Unit wal.committed 0 (onData outdatedData []) = .ok ⟨⟩ m' ∧
      @RecoversTo castagnoli Unit wal.committed 0 (m'.files .data).volatile (m'.files .data).volatile ∧
      (∀ schedule, @RecoversTo castagnoli Unit wal.committed 0
        ((@recoverDataFile castagnoli Unit wal.committed 0 (onData outdatedData schedule)).state.files .data).durable
        (m'.files .data).volatile) ∧
      ∀ page ∈ samplePages.pages, ∃ image decoded, @decodePageAt castagnoli page.image (some page.pageId) = .ok image ∧
        @decodePageAt castagnoli (block pageSize (m'.files .data).volatile page.pageId) (some page.pageId) = .ok decoded ∧
        image.header.pageLsn ≤ decoded.header.pageLsn := by
  obtain ⟨log, wal, validLength, hscan, hlisted, -⟩ := @scanWal_first_commit castagnoli sampleIdentity 4 (by decide)
    samplePages ⟨samplePages_sound, rfl, rfl, True.intro⟩
  have hbatches := @Redoable.of_scanWal castagnoli _ _ _ _ hscan 0
  have haligned : pageSize ∣ outdatedData.length := ⟨4, length_outdatedData.trans (Nat.mul_comm ..)⟩
  have hmax : recoveredLength (batchesAfter 0 wal.committed) outdatedData.length ≤ maxFileLength := by
    rw [hlisted, length_outdatedData]
    decide
  obtain ⟨f, hrun⟩ := @recoverDataFile_quiet castagnoli Unit (onData outdatedData []) rfl wal.committed 0 hbatches
    outdatedData rfl haligned hmax
  obtain ⟨hagain, hcut, hpages⟩ := @recoverDataFile_restartable castagnoli Unit _ _ _ _ hscan 0 outdatedData haligned
    (by rw [length_outdatedData]; decide) _ _ rfl hrun
  have hresult := ((@recoverDataFile_spec castagnoli Unit _ _ _ _ _ 0 hbatches rfl haligned).of_ok ⟨rfl, rfl, rfl⟩ hrun).2
  have hlength := (congrArg (·.volatile.length) hresult).trans (@recovered_spec castagnoli _ hbatches outdatedData).1
  refine ⟨log, wal, validLength, _, hscan, hlisted, hrun, hagain, fun schedule => ?_, fun page hpage => ?_⟩
  · refine hcut (onData outdatedData schedule) _ rfl ?_
    rw [hlength]
    exact (@recoverDataFile_recovering castagnoli Unit _ _ hbatches _ haligned _ rfl).leftOver_durable
  · have hdata : page.isSuperblock = false := by
      rw [samplePages, List.mem_cons, List.mem_singleton] at hpage
      obtain rfl | rfl := hpage
      · rfl
      · rfl
    exact hpages samplePages (by rw [hlisted]; exact List.mem_singleton_self _) (by decide) page hpage hdata

end Dodb
