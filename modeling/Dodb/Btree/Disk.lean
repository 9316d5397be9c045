import Dodb.Btree.Contents
import Dodb.Btree.Opening
import Dodb.Lib.Blocks

/-! What the two files hold of a database between any two writes.

The contents of a database are its last commit. Each block of the data file is the block of the contents, or it is older
than the last image the log has of it, and that image is after the checkpoint; a slot holds the current superblock, an
earlier one, or a torn one. These blocks are stable: nothing the store writes, no write that is cut short and no power
loss leads out of them. Redo takes every data file of them to the blocks of the contents (`Disk.settled`). -/
namespace Dodb
open Lib File

variable [Crc32c]

/-! ### Superblock slots -/

/-- A superblock that came before `sb` in the history of a database. -/
structure Superblock.Before (old sb : Superblock) : Prop where
  encodable : old.Encodable
  identity : old.identity = sb.identity
  generation : old.generation < sb.generation
  checkpointLsn : old.checkpointLsn ≤ sb.checkpointLsn

/-- The bytes begin as a superblock of the format does. -/
structure Headed (b : Bytes) : Prop where
  length : b.length = pageSize
  magic : slice b 0 4 = superblockMagic
  version : slice b 4 2 = le 2 superblockFormatVersion

/-- What may stand in the slot `s` of a database whose superblock `sb` is in `slot`. -/
inductive SlotHolds (sb : Superblock) (slot s : SuperblockSlot) (b : Bytes) : Prop where
  | current (h : b = superblockPage sb) (hs : s = slot ∨ slot = .A)
  | before (old : Superblock) (h : b = superblockPage old) (hold : old.Before sb)
  | torn (hheaded : Headed b) (hrefused : refusedBlock s.pageId b = true)

theorem Superblock.Encodable.headed {sb : Superblock} (h : sb.Encodable) : Headed (superblockPage sb) := by
  have hfields : Fields (superblockPage sb) 0 [superblockMagic, le 2 sb.formatVersion] := .of_eq rfl
  rw [h.formatVersion] at hfields
  exact ⟨length_superblockPage sb, hfields.1, hfields.2.1⟩

omit [Crc32c] in
theorem Headed.mixed {old new b : Bytes} (hold : Headed old) (hnew : Headed new) (h : Mixed old new b) : Headed b := by
  have hsize : 6 ≤ pageSize := by decide
  refine ⟨h.1.trans hnew.length, ?_, ?_⟩
  · rw [h.slice_eq (by rw [hnew.length]; omega) (hold.magic.trans hnew.magic.symm)]
    exact hnew.magic
  · rw [h.slice_eq (by rw [hnew.length]; omega) (hold.version.trans hnew.version.symm)]
    exact hnew.version

section Slots
variable {sb : Superblock} {slot s : SuperblockSlot} {b : Bytes}

theorem SlotHolds.headed (h : SlotHolds sb slot s b) (hsb : sb.Encodable) : Headed b := by
  cases h with
  | current h _ => exact h ▸ hsb.headed
  | before old h hold => exact h ▸ hold.encodable.headed
  | torn hheaded _ => exact hheaded

theorem refusedBlock_slot (s : SuperblockSlot) (b : Bytes) :
    refusedBlock s.pageId b = decide (ofLe (slice b superblockChecksumOffset 4) ≠ superblockChecksum b) := if_pos s.pageId_lt

/-- A torn superblock is refused for its checksum, and not as one of another format. -/
theorem Headed.decode (h : Headed b) (hrefused : refusedBlock s.pageId b = true) :
    ∃ text, decodeSuperblock b = .error (.corruption text) := by
  rw [refusedBlock_slot, decide_eq_true_eq] at hrefused
  have hversion : ofLe (slice b 4 2) = superblockFormatVersion := by
    rw [h.version]
    decide
  unfold decodeSuperblock
  rw [ensure_pos h.length, ensure_pos h.magic]
  simp only [except_ok_bind]
  rw [ensure_pos hversion, ensure_neg hrefused]
  exact ⟨_, rfl⟩

theorem SlotHolds.decode (h : SlotHolds sb slot s b) (hsb : sb.Encodable) :
    (decodeSuperblock b = .ok sb.sealed ∧ (s = slot ∨ slot = .A)) ∨
      (∃ old : Superblock, old.Before sb ∧ decodeSuperblock b = .ok old.sealed) ∨
      ∃ text, decodeSuperblock b = .error (.corruption text) := by
  cases h with
  | current h hs =>
    rw [h]
    exact .inl ⟨decodeSuperblock_superblockPage hsb, hs⟩
  | before old h hold =>
    rw [h]
    exact .inr (.inl ⟨old, hold, decodeSuperblock_superblockPage hold.encodable⟩)
  | torn hheaded hrefused => exact .inr (.inr (hheaded.decode hrefused))

/-- The superblock of a data file that has it in its slot is the current one. -/
theorem chooseSuperblock_current {slots : SuperblockSlot → Bytes} (hsb : sb.Encodable)
    (h : ∀ s, SlotHolds sb slot s (slots s)) (hcurrent : slots slot = superblockPage sb) :
    chooseSuperblock (slots .A) (slots .B) = .ok ⟨slot, sb.sealed⟩ := by
  have hpage := decodeSuperblock_superblockPage hsb
  unfold chooseSuperblock
  cases slot with
  | A =>
    rw [hcurrent, hpage]
    obtain ⟨hdecode, -⟩ | ⟨old, hold, hdecode⟩ | ⟨text, hdecode⟩ := (h .B).decode hsb
    · rw [hdecode]
      exact if_pos le_rfl
    · rw [hdecode]
      exact if_pos hold.generation.le
    · rw [hdecode]
      rfl
  | B =>
    rw [hcurrent, hpage]
    obtain ⟨-, hs⟩ | ⟨old, hold, hdecode⟩ | ⟨text, hdecode⟩ := (h .A).decode hsb
    · obtain hs | hs := hs <;> cases hs
    · rw [hdecode]
      exact if_neg (Nat.not_le.mpr hold.generation)
    · rw [hdecode]
      rfl

theorem SlotHolds.decode_le (h : SlotHolds sb slot s b) (hsb : sb.Encodable) :
    (∃ read, decodeSuperblock b = .ok read ∧ read.identity = sb.identity ∧ read.checkpointLsn ≤ sb.checkpointLsn) ∨
      ∃ text, decodeSuperblock b = .error (.corruption text) := by
  obtain ⟨hdecode, -⟩ | ⟨old, hold, hdecode⟩ | herror := h.decode hsb
  · exact .inl ⟨_, hdecode, rfl, le_rfl⟩
  · exact .inl ⟨_, hdecode, hold.identity, hold.checkpointLsn⟩
  · exact .inr herror

/-- Whatever the slots hold, a superblock that is read from them is of the database and not after its checkpoint. -/
theorem chooseSuperblock_le {slots : SuperblockSlot → Bytes} (hsb : sb.Encodable)
    (h : ∀ s, SlotHolds sb slot s (slots s)) :
    (∃ selected, chooseSuperblock (slots .A) (slots .B) = .ok selected ∧ selected.superblock.identity = sb.identity ∧
        selected.superblock.checkpointLsn ≤ sb.checkpointLsn) ∨
      ∃ text, chooseSuperblock (slots .A) (slots .B) = .error (.corruption text) := by
  unfold chooseSuperblock
  obtain ⟨a, ha, haid, hale⟩ | ⟨text, ha⟩ := (h .A).decode_le hsb <;>
    obtain ⟨b, hb, hbid, hble⟩ | ⟨text', hb⟩ := (h .B).decode_le hsb <;> rw [ha, hb]
  · dsimp only
    split
    · exact .inl ⟨_, rfl, haid, hale⟩
    · exact .inl ⟨_, rfl, hbid, hble⟩
  · exact .inl ⟨_, rfl, haid, hale⟩
  · exact .inl ⟨_, rfl, hbid, hble⟩
  · exact .inr ⟨_, rfl⟩

end Slots

/-! ### The log and the contents -/

/-- The last image the commits have of a page, with the LSN of its commit. -/
def lastImage (commits : List WalCommit) (p : PageId) : Option (Lsn × Bytes) :=
  (imagesOf p (redoImages commits)).getLast?

/-- What may stand in the place of a data page: its block, or one older than the last image of it in the log, which is
after the checkpoint and is its block. -/
def PageHolds (commits : List WalCommit) (c : Contents) (checkpointLsn : Lsn) (p : PageId) (b : Bytes) : Prop :=
  b = c.image p ∨
    ∃ lsn, lastImage commits p = some (lsn, c.image p) ∧ checkpointLsn < lsn ∧ Behind (pageVersion p) lsn b

/-- The log has nothing after the checkpoint. -/
def Idle (commits : List WalCommit) (sb : Superblock) : Prop :=
  ∀ commit ∈ commits, commit.commitLsn ≤ sb.checkpointLsn

/-- What may stand at each place of the data file. The current superblock is in its slot when the log does not have
it. -/
structure BlockHolds (commits : List WalCommit) (c : Contents) (sb : Superblock) (slot : SuperblockSlot) (i : Nat)
    (b : Bytes) : Prop where
  slots : ∀ s : SuperblockSlot, s.pageId = i → SlotHolds sb slot s b
  current : slot.pageId = i → Idle commits sb → b = superblockPage sb
  page : firstDataPage ≤ i → PageHolds commits c sb.checkpointLsn i b

/-- The commits of the log lead to the contents `c`, whose superblock is `sb` in `slot`. -/
structure History (commits : List WalCommit) (c : Contents) (sb : Superblock) (slot : SuperblockSlot) : Prop where
  redoable : Redoable commits
  nodup : ∀ commit ∈ commits, (commit.pages.map WalPageImage.pageId).Nodup
  range : ∀ commit ∈ commits, ∀ page ∈ commit.pages, page.pageId ≤ c.highWaterPageId
  last : ∀ p, firstDataPage ≤ p → ∀ lsn b, lastImage commits p = some (lsn, b) → b = c.image p
  slots : ∀ commit ∈ commits, ∀ page ∈ commit.pages, ∀ s : SuperblockSlot, page.pageId = s.pageId →
    SlotHolds sb slot s page.image
  records : sb.Records c
  newest : ∀ commit, commits.getLast? = some commit → sb.checkpointLsn < commit.commitLsn →
    ⟨slot.pageId, superblockPage sb⟩ ∈ commit.pages

/-- The data file `d` holds the contents, as far as the log does not. -/
structure Disk (d : Bytes) (commits : List WalCommit) (c : Contents) (sb : Superblock) (slot : SuperblockSlot) :
    Prop where
  whole : wholePages d.length
  fits : d.length ≤ maxFileLength
  blocks : Blocks pageSize (BlockHolds commits c sb slot) ((c.highWaterPageId + 1) * pageSize) d

/-- So it does while it is being written, for a reader and on the medium. -/
structure DiskFile (f : File) (commits : List WalCommit) (c : Contents) (sb : Superblock) (slot : SuperblockSlot) :
    Prop where
  whole : firstDataPage * pageSize ≤ f.durable.length
  fits : f.volatile.length ≤ maxFileLength
  stable : Stable pageSize (BlockHolds commits c sb slot) ((c.highWaterPageId + 1) * pageSize) f

/-- A data file that is the contents, with nothing left to redo. -/
structure Settled (d : Bytes) (c : Contents) (sb : Superblock) (slot : SuperblockSlot) : Prop where
  length : d.length = (c.highWaterPageId + 1) * pageSize
  fits : d.length ≤ maxFileLength
  page : ∀ p, firstDataPage ≤ p → p ≤ c.highWaterPageId → block pageSize d p = c.image p
  slots : ∀ s : SuperblockSlot, SlotHolds sb slot s (block pageSize d s.pageId)
  current : block pageSize d slot.pageId = superblockPage sb

omit [Crc32c] in
theorem mem_images {commits : List WalCommit} {p : PageId} {lsn : Lsn} {b : Bytes} :
    (lsn, b) ∈ imagesOf p (redoImages commits) ↔
      ∃ commit ∈ commits, commit.commitLsn = lsn ∧ ⟨p, b⟩ ∈ commit.pages := by
  rw [mem_imagesOf]
  constructor
  · intro h
    obtain ⟨full, hfull, rfl, heq⟩ := h
    obtain ⟨commit, hcommit, page, hpage, rfl⟩ := mem_redoImages.mp hfull
    cases heq
    exact ⟨commit, hcommit, rfl, hpage⟩
  · intro h
    obtain ⟨commit, hcommit, rfl, hpage⟩ := h
    exact ⟨_, mem_redoImages.mpr ⟨commit, hcommit, _, hpage, rfl⟩, rfl, rfl⟩

omit [Crc32c] in
theorem imagesOf_batchImages {lsn : Lsn} {pages : List WalPageImage} (h : (pages.map WalPageImage.pageId).Nodup) (p : PageId) :
    (imagesOf p (batchImages lsn pages)).Pairwise fun a b => a.1 < b.1 := by
  induction pages with
  | nil => exact List.Pairwise.nil
  | cons page rest ih =>
    rw [List.map_cons, List.nodup_cons] at h
    show (imagesOf p (⟨lsn, page.pageId, page.image⟩ :: batchImages lsn rest)).Pairwise _
    by_cases hp : p = page.pageId
    · subst hp
      rw [imagesOf_cons_same ⟨lsn, page.pageId, page.image⟩]
      have hnone : imagesOf page.pageId (batchImages lsn rest) = [] := by
        refine List.eq_nil_iff_forall_not_mem.mpr fun image himage => ?_
        obtain ⟨full, hfull, hindex, -⟩ := mem_imagesOf.mp himage
        obtain ⟨other, hother, rfl⟩ := List.mem_map.mp hfull
        exact h.1 (List.mem_map.mpr ⟨other, hother, hindex⟩)
      rw [hnone]
      exact List.pairwise_singleton _ _
    · have hcons : imagesOf p (⟨lsn, page.pageId, page.image⟩ :: batchImages lsn rest) = imagesOf p (batchImages lsn rest) :=
        imagesOf_cons_ne hp _
      rw [hcons]
      exact ih h.2

omit [Crc32c] in
theorem imagesOf_batchesAfter (checkpointLsn : Lsn) (commits : List WalCommit) (p : PageId) :
    imagesOf p (redoImages (batchesAfter checkpointLsn commits)) =
      (imagesOf p (redoImages commits)).filter fun image => decide (checkpointLsn < image.1) := by
  induction commits with
  | nil => rfl
  | cons commit rest ih =>
    have hlsn : ∀ image ∈ imagesOf p (batchImages commit.commitLsn commit.pages), image.1 = commit.commitLsn := by
      intro image himage
      obtain ⟨full, hfull, -, rfl⟩ := mem_imagesOf.mp himage
      obtain ⟨page, -, rfl⟩ := List.mem_map.mp hfull
      rfl
    unfold batchesAfter at ih ⊢
    rw [redoImages_cons, imagesOf_append, List.filter_append, ← ih]
    by_cases hafter : checkpointLsn < commit.commitLsn
    · rw [List.filter_cons_of_pos (by simpa using hafter), redoImages_cons, imagesOf_append]
      congr 1
      refine (List.filter_eq_self.mpr fun image himage => ?_).symm
      rw [hlsn image himage]
      exact decide_eq_true hafter
    · rw [List.filter_cons_of_neg (by simpa using hafter)]
      have hnone : (imagesOf p (batchImages commit.commitLsn commit.pages)).filter
          (fun image => decide (checkpointLsn < image.1)) = [] := by
        refine List.filter_eq_nil_iff.mpr fun image himage => ?_
        rw [hlsn image himage]
        simpa using hafter
      rw [hnone, List.nil_append]

section History
variable {commits : List WalCommit} {c : Contents} {sb : Superblock} {slot : SuperblockSlot} {p : PageId}
variable {d : Bytes} {db : ReferenceDb}

/-- The images of a page are in the order of their commits. -/
theorem History.images_sorted (h : History commits c sb slot) (p : PageId) :
    (imagesOf p (redoImages commits)).Pairwise fun a b => a.1 < b.1 := by
  have hsorted := h.redoable.sorted
  have hnodup := h.nodup
  clear h
  induction commits with
  | nil => exact List.Pairwise.nil
  | cons commit rest ih =>
    rw [List.map_cons, List.pairwise_cons] at hsorted
    rw [redoImages_cons, imagesOf_append, List.pairwise_append]
    refine ⟨imagesOf_batchImages (hnodup _ List.mem_cons_self) p,
      ih hsorted.2 fun other hother => hnodup other (List.mem_cons_of_mem _ hother), fun a ha b hb => ?_⟩
    obtain ⟨full, hfull, -, rfl⟩ := mem_imagesOf.mp ha
    obtain ⟨page, -, rfl⟩ := List.mem_map.mp hfull
    obtain ⟨other, hother, hlsn, -⟩ := mem_images.mp hb
    rw [← hlsn]
    exact hsorted.1 _ (List.mem_map.mpr ⟨other, hother, rfl⟩)

/-- The image of a data page has the LSN of its commit. -/
theorem History.version (h : History commits c sb slot) (hp : firstDataPage ≤ p) {image : Lsn × Bytes}
    (himage : image ∈ imagesOf p (redoImages commits)) : pageVersion p image.2 = some image.1 := by
  obtain ⟨commit, hcommit, hlsn, hpage⟩ := mem_images.mp himage
  have hdata : ¬WalPageImage.isSuperblock ⟨p, image.2⟩ = true := fun hsuper =>
    absurd (isSuperblock_iff.mp hsuper) (Nat.not_lt.mpr hp)
  have hversion := h.redoable.version hcommit hpage
  rwa [if_neg hdata, hlsn] at hversion

omit [Crc32c] in
/-- In a list that increases, what is as large as every element is last. -/
theorem getLast?_of_sorted {images : List (Lsn × Bytes)} (h : images.Pairwise fun a b => a.1 < b.1)
    {image : Lsn × Bytes} (himage : image ∈ images) (hle : ∀ other ∈ images, other.1 ≤ image.1) :
    images.getLast? = some image := by
  obtain ⟨first, last, rfl⟩ := (List.eq_nil_or_concat images).resolve_left (List.ne_nil_of_mem himage)
  rw [List.concat_eq_append] at *
  rw [List.getLast?_concat]
  obtain hfirst | hlast := List.mem_append.mp himage
  · have hlt := (List.pairwise_append.mp h).2.2 image hfirst last (List.mem_singleton_self _)
    exact absurd (hle last (by simp)) (Nat.not_le.mpr hlt)
  · rw [List.mem_singleton.mp hlast]

omit [Crc32c] in
theorem le_of_getLast?_eq {images : List (Lsn × Bytes)} (h : images.Pairwise fun a b => a.1 < b.1)
    {last : Lsn × Bytes} (hlast : images.getLast? = some last) {image : Lsn × Bytes} (himage : image ∈ images) :
    image.1 < last.1 ∨ image = last := by
  obtain ⟨first, rfl⟩ := List.getLast?_eq_some_iff.mp hlast
  obtain hfirst | hsame := List.mem_append.mp himage
  · exact .inl ((List.pairwise_append.mp h).2.2 image hfirst last (List.mem_singleton_self _))
  · exact .inr (List.mem_singleton.mp hsame)

/-- A block that is as the contents have it is not redone. -/
theorem History.not_outdated (h : History commits c sb slot) (hp : firstDataPage ≤ p) {image : Lsn × Bytes}
    (himage : image ∈ imagesOf p (redoImages commits)) : ¬Behind (pageVersion p) image.1 (c.image p) := by
  obtain ⟨last, hlast⟩ := Option.ne_none_iff_exists'.mp
    (mt List.getLast?_eq_none_iff.mp (List.ne_nil_of_mem himage))
  have hversion := h.version hp (List.mem_of_getLast? hlast)
  rw [h.last p hp last.1 last.2 hlast] at hversion
  intro hbehind
  have hlt := hbehind last.1 hversion
  obtain hle | rfl := le_of_getLast?_eq (h.images_sorted p) hlast himage
  · exact absurd (hlt.trans hle) (lt_irrefl _)
  · exact absurd hlt (lt_irrefl _)

/-- What redo writes to a block that may stand there may stand there. -/
theorem PageHolds.image (h : History commits c sb slot) (hp : firstDataPage ≤ p) {b : Bytes}
    (hb : PageHolds commits c sb.checkpointLsn p b) {image : Lsn × Bytes}
    (himage : image ∈ imagesOf p (redoImages commits)) (hbehind : Behind (pageVersion p) image.1 b) :
    PageHolds commits c sb.checkpointLsn p image.2 := by
  obtain rfl | ⟨lsn, hlast, hafter, -⟩ := hb
  · exact absurd hbehind (h.not_outdated hp himage)
  · obtain hlt | rfl := le_of_getLast?_eq (h.images_sorted p) hlast himage
    · refine .inr ⟨lsn, hlast, hafter, fun v hv => ?_⟩
      rw [h.version hp himage] at hv
      cases hv
      exact hlt
    · exact .inl rfl

/-- Redo from anywhere before the checkpoint makes the block of the contents. -/
theorem PageHolds.redo (h : History commits c sb slot) (hp : firstDataPage ≤ p) {b : Bytes}
    (hb : PageHolds commits c sb.checkpointLsn p b) {hint : Lsn} (hhint : hint ≤ sb.checkpointLsn) :
    redo (pageVersion p) b (imagesOf p (redoImages (batchesAfter hint commits))) = c.image p := by
  rw [imagesOf_batchesAfter]
  obtain rfl | ⟨lsn, hlast, hafter, hbehind⟩ := hb
  · refine redo_of_not_outdated fun houtdated => ?_
    obtain ⟨image, himage, hbehind⟩ := houtdated
    exact h.not_outdated hp (List.mem_filter.mp himage).1 hbehind
  · have hsorted := h.images_sorted p
    have hversion : ∀ image ∈ imagesOf p (redoImages commits), pageVersion p image.2 = some image.1 :=
      fun image himage => h.version hp himage
    obtain ⟨first, heq⟩ := List.getLast?_eq_some_iff.mp hlast
    rw [heq] at hsorted hversion ⊢
    rw [List.filter_append, List.filter_singleton, decide_eq_true (hhint.trans_lt hafter)]
    refine redo_last (fun image himage => ?_) (fun image himage => ?_) hbehind
    · exact (List.pairwise_append.mp hsorted).2.2 image (List.mem_filter.mp himage).1 _ (List.mem_singleton_self _)
    · exact hversion image (List.mem_append_left _ (List.mem_filter.mp himage).1)

/-! ### Redo -/

omit [Crc32c] in
theorem SuperblockSlot.exists_pageId {i : Nat} (hi : i < firstDataPage) : ∃ s : SuperblockSlot, s.pageId = i := by
  have htwo : i < 2 := hi
  interval_cases i
  · exact ⟨.A, rfl⟩
  · exact ⟨.B, rfl⟩

omit [Crc32c] in
theorem SuperblockSlot.not_data (s : SuperblockSlot) : ¬firstDataPage ≤ s.pageId := Nat.not_le.mpr s.pageId_lt

theorem BlockHolds.at_slot {s : SuperblockSlot} {b : Bytes} (h : BlockHolds commits c sb slot s.pageId b) :
    SlotHolds sb slot s b := h.slots s rfl

omit [Crc32c] in
theorem SuperblockSlot.pageId_injective {s other : SuperblockSlot} (h : s.pageId = other.pageId) : s = other := by
  cases s <;> cases other <;> first | rfl | cases h

theorem BlockHolds.of_slot {s : SuperblockSlot} {b : Bytes} (h : SlotHolds sb slot s b)
    (hcurrent : s = slot → Idle commits sb → b = superblockPage sb) : BlockHolds commits c sb slot s.pageId b where
  slots other hother := by
    rw [SuperblockSlot.pageId_injective hother]
    exact h
  current hs := hcurrent (SuperblockSlot.pageId_injective hs).symm
  page hdata := absurd hdata s.not_data

theorem BlockHolds.of_page {b : Bytes} (hp : firstDataPage ≤ p) (h : PageHolds commits c sb.checkpointLsn p b) :
    BlockHolds commits c sb slot p b :=
  ⟨fun s hs => absurd (hs ▸ hp) s.not_data, fun hs => absurd (hs ▸ hp) slot.not_data, fun _ => h⟩

/-- Mixtures that are refused may stand where their parts may. -/
theorem blockHolds_mixes (hsb : sb.Encodable) : Mixes refusedBlock (BlockHolds commits c sb slot) := by
  intro i old new b hold hnew hmixed hrefused
  by_cases hi : firstDataPage ≤ i
  · refine .of_page hi ?_
    have hunread := Behind.of_unreadable (pageVersion_of_refused hrefused)
    obtain hfinal | ⟨lsn, hlast, hafter, -⟩ := hold.page hi
    · obtain hfinal' | ⟨lsn, hlast, hafter, -⟩ := hnew.page hi
      · rw [hfinal, hfinal'] at hmixed
        exact .inl hmixed.of_eq
      · exact .inr ⟨lsn, hlast, hafter, hunread lsn⟩
    · exact .inr ⟨lsn, hlast, hafter, hunread lsn⟩
  · obtain ⟨s, rfl⟩ := SuperblockSlot.exists_pageId (Nat.not_le.mp hi)
    refine .of_slot (.torn ((hold.at_slot.headed hsb).mixed (hnew.at_slot.headed hsb) hmixed) hrefused) fun hs hidle => ?_
    rw [hold.current (by rw [hs]) hidle, hnew.current (by rw [hs]) hidle] at hmixed
    exact hmixed.of_eq

/-- What redo writes may stand where it writes it. -/
theorem BlockHolds.image (h : History commits c sb slot) (hbusy : ¬Idle commits sb) {commit : WalCommit}
    (hcommit : commit ∈ commits) {page : WalPageImage} (hpage : page ∈ commit.pages) {b : Bytes}
    (hb : BlockHolds commits c sb slot page.pageId b)
    (hbehind : Behind (pageVersion page.pageId) commit.commitLsn b) : BlockHolds commits c sb slot page.pageId page.image := by
  by_cases hp : firstDataPage ≤ page.pageId
  · have himage : (commit.commitLsn, page.image) ∈ imagesOf page.pageId (redoImages commits) :=
      mem_images.mpr ⟨commit, hcommit, rfl, hpage⟩
    exact .of_page hp ((hb.page hp).image h hp himage hbehind)
  · obtain ⟨s, hs⟩ := SuperblockSlot.exists_pageId (Nat.not_le.mp hp)
    rw [← hs]
    exact .of_slot (h.slots commit hcommit page hpage s hs.symm) fun _ hidle => absurd hidle hbusy

/-- What a power loss leaves of the data file holds the contents. -/
theorem DiskFile.loss {f : File} (hf : DiskFile f commits c sb slot) (hsb : sb.Encodable)
    (hloss : f.BlockLoss pageSize (fun i b => refusedBlock i b = true) d) : Disk d commits c sb slot :=
  ⟨⟨hf.whole.trans hloss.2.1, hloss.1⟩, hloss.2.2.1.trans hf.fits, hf.stable.loss (blockHolds_mixes hsb) hloss⟩

theorem DiskFile.write {f : File} (hf : DiskFile f commits c sb slot) {i : Nat} {b : Bytes} (hb : b.length = pageSize)
    (hi : (i + 1) * pageSize ≤ f.volatile.length) (hholds : BlockHolds commits c sb slot i b) :
    DiskFile (f.write (i * pageSize) b) commits c sb slot :=
  ⟨hf.whole, (length_splice_block hb hi).trans_le hf.fits, hf.stable.write hb hi hholds⟩

theorem DiskFile.sync {f : File} (hf : DiskFile f commits c sb slot) : DiskFile f.sync commits c sb slot :=
  ⟨hf.whole.trans hf.stable.le, hf.fits, hf.stable.sync⟩

theorem Disk.file (h : Disk d commits c sb slot) : DiskFile (.ofDurable d) commits c sb slot :=
  ⟨h.whole.1, h.fits, .ofDurable h.blocks⟩

theorem Disk.slot_lt (h : Disk d commits c sb slot) (s : SuperblockSlot) : (s.pageId + 1) * pageSize ≤ d.length :=
  (Nat.mul_le_mul_right pageSize (Nat.succ_le_of_lt s.pageId_lt)).trans h.whole.1

omit [Crc32c] in
theorem slice_zeros {o n size : Nat} (h : o + n ≤ size) : slice (zeros size) o n = zeros n := by
  simp only [slice, zeros, List.drop_replicate, List.take_replicate]
  congr 1
  omega

/-- A page of zeros is not a page. -/
theorem decodePageAt_zeros (expected : Option PageId) : ∃ e, decodePageAt (zeros pageSize) expected = .error e := by
  have hmagic : ¬slice (zeros pageSize) 0 4 = pageMagic := by
    rw [slice_zeros (by decide)]
    decide
  unfold decodePageAt
  rw [ensure_pos (length_zeros _), ensure_neg hmagic]
  exact ⟨_, rfl⟩

/-- A page that is not in the file is in the log, after the checkpoint. -/
theorem Disk.missing (hd : Disk d commits c sb slot) (hvalid : c.Valid db)
    (hp : firstDataPage ≤ p) (hle : p ≤ c.highWaterPageId) (hout : ¬(p + 1) * pageSize ≤ d.length) :
    ∃ commit ∈ commits, sb.checkpointLsn < commit.commitLsn ∧ ⟨p, c.image p⟩ ∈ commit.pages := by
  have hzeros := hd.blocks.zeros (Nat.mul_le_mul_right pageSize (Nat.succ_le_succ hle)) hout
  obtain hfinal | ⟨lsn, hlast, hafter, -⟩ := hzeros.page hp
  · obtain ⟨page, himage, -⟩ := hvalid.image p hp hle
    obtain ⟨decoded, hdecode, -⟩ := himage.header
    obtain ⟨e, herror⟩ := decodePageAt_zeros (some p)
    rw [← hfinal, herror] at hdecode
    cases hdecode
  · obtain ⟨commit, hcommit, rfl, hpage⟩ := mem_images.mp (List.mem_of_getLast? hlast)
    exact ⟨commit, hcommit, hafter, hpage⟩

omit [Crc32c] in
theorem highestDataPage_le {batches : List WalCommit} {n : PageId} (hn : firstDataPage ≤ n)
    (h : ∀ commit ∈ batches, ∀ page ∈ commit.pages, page.pageId ≤ n) : highestDataPage batches ≤ n := by
  have hpages : ∀ page ∈ batches.flatMap WalCommit.pages, page.pageId ≤ n := by
    intro page hpage
    obtain ⟨commit, hcommit, hin⟩ := List.mem_flatMap.mp hpage
    exact h commit hcommit page hin
  unfold highestDataPage
  generalize firstDataPage = highest at *
  generalize batches.flatMap WalCommit.pages = pages at *
  induction pages generalizing highest with
  | nil => exact hn
  | cons page rest ih =>
    exact ih _ (max_le hn (hpages page List.mem_cons_self)) fun other hother =>
      hpages other (List.mem_cons_of_mem _ hother)

theorem History.highest_le (h : History commits c sb slot) (hvalid : c.Valid db) (hint : Lsn) :
    highestDataPage (batchesAfter hint commits) ≤ c.highWaterPageId :=
  highestDataPage_le (hvalid.firstDataPage_le.1.trans hvalid.firstDataPage_le.2) fun commit hcommit =>
    h.range commit (List.mem_filter.mp hcommit).1

/-- Redo makes the file as long as the contents. -/
theorem Disk.length_recovered (h : History commits c sb slot)
    (hd : Disk d commits c sb slot) (hvalid : c.Valid db) {hint : Lsn} (hhint : hint ≤ sb.checkpointLsn) :
    recoveredLength (batchesAfter hint commits) d.length = (c.highWaterPageId + 1) * pageSize := by
  have hwater := hvalid.firstDataPage_le.1.trans hvalid.firstDataPage_le.2
  have hhighest := h.highest_le hvalid hint
  have hle : recoveredLength (batchesAfter hint commits) d.length ≤ (c.highWaterPageId + 1) * pageSize := by
    unfold recoveredLength
    split
    · exact hd.blocks.le
    · exact max_le hd.blocks.le (Nat.mul_le_mul_right _ (Nat.succ_le_succ hhighest))
  refine le_antisymm hle ?_
  by_cases hin : (c.highWaterPageId + 1) * pageSize ≤ d.length
  · exact hin.trans (le_recoveredLength ..)
  · obtain ⟨commit, hcommit, hafter, hpage⟩ := hd.missing hvalid hwater le_rfl hin
    have hbatch : commit ∈ batchesAfter hint commits :=
      List.mem_filter.mpr ⟨hcommit, decide_eq_true (hhint.trans_lt hafter)⟩
    unfold recoveredLength
    rw [if_neg (List.ne_nil_of_mem hbatch)]
    exact (Nat.mul_le_mul_right _ (Nat.succ_le_succ (le_highestDataPage hbatch hpage))).trans (le_max_right ..)

omit [Crc32c] in
theorem le_of_sorted_getLast? {commit last : WalCommit} (h : (commits.map WalCommit.commitLsn).Pairwise (· < ·))
    (hlast : commits.getLast? = some last) (hcommit : commit ∈ commits) : commit.commitLsn ≤ last.commitLsn := by
  obtain ⟨first, rfl⟩ := List.getLast?_eq_some_iff.mp hlast
  rw [List.map_append, List.pairwise_append] at h
  obtain hfirst | hsame := List.mem_append.mp hcommit
  · exact (h.2.2 _ (List.mem_map_of_mem hfirst) _ (List.mem_singleton_self _)).le
  · rw [List.mem_singleton.mp hsame]

theorem Redoable.of_mem {batches : List WalCommit} (h : Redoable commits) (hbatches : batches.Sublist commits) :
    Redoable batches :=
  ⟨h.sorted.sublist (hbatches.map _), fun batch hbatch => h.page batch (hbatches.subset hbatch)⟩

/-- A slot is redone to the last image of it. -/
theorem redo_slot (s : SuperblockSlot) (b : Bytes) (images : List (Lsn × Bytes)) :
    redo (pageVersion s.pageId) b images = (images.getLast?.map Prod.snd).getD b := by
  have hversion : ∀ b, pageVersion s.pageId b = none := fun b => if_pos s.pageId_lt
  obtain rfl | ⟨first, last, rfl⟩ := List.eq_nil_or_concat images
  · rfl
  · rw [List.concat_eq_append, redo_append, List.getLast?_concat]
    exact if_pos (Behind.of_unreadable (hversion _) _)

/-- Redo of the log, from where an older superblock says or from the beginning, makes the data file the contents. -/
theorem Disk.settled (h : History commits c sb slot)
    (hd : Disk d commits c sb slot) (hvalid : c.Valid db) {hint : Lsn} (hhint : hint ≤ sb.checkpointLsn)
    (hidle : Idle commits sb → hint = sb.checkpointLsn) (hfits : (c.highWaterPageId + 1) * pageSize ≤ maxFileLength) :
    Settled (recovered (batchesAfter hint commits) d) c sb slot := by
  have hlength := hd.length_recovered h hvalid hhint
  have hwater : firstDataPage ≤ c.highWaterPageId := hvalid.firstDataPage_le.1.trans hvalid.firstDataPage_le.2
  have hbatches : Redoable (batchesAfter hint commits) := h.redoable.of_mem List.filter_sublist
  obtain ⟨hrecovered, hblocks⟩ := recovered_spec hbatches d
  rw [hlength] at hrecovered hblocks
  have hin : ∀ s : SuperblockSlot, (s.pageId + 1) * pageSize ≤ (c.highWaterPageId + 1) * pageSize := fun s =>
    Nat.mul_le_mul_right _ (Nat.succ_le_succ (s.pageId_lt.le.trans hwater))
  have hslot : ∀ s : SuperblockSlot, block pageSize (recovered (batchesAfter hint commits) d) s.pageId =
      ((imagesOf s.pageId (redoImages (batchesAfter hint commits))).getLast?.map Prod.snd).getD
        (block pageSize (resize d ((c.highWaterPageId + 1) * pageSize)) s.pageId) := by
    intro s
    rw [hblocks _ (hin s), redo_slot]
  refine ⟨hrecovered, hrecovered.trans_le hfits, fun p hp hle => ?_, fun s => ?_, ?_⟩
  · have hpage := Nat.mul_le_mul_right pageSize (Nat.succ_le_succ hle)
    rw [hblocks p hpage]
    exact ((hd.blocks.block p hpage).page hp).redo h hp hhint
  · rw [hslot]
    cases hlast : (imagesOf s.pageId (redoImages (batchesAfter hint commits))).getLast? with
    | none => exact (hd.blocks.block _ (hin s)).at_slot
    | some image =>
      obtain ⟨commit, hcommit, -, hpage⟩ := mem_images.mp (List.mem_of_getLast? hlast)
      exact h.slots commit (List.mem_filter.mp hcommit).1 _ hpage s rfl
  · by_cases hall : Idle commits sb
    · -- There is nothing to redo, so the slot is as it was.
      have hnil : batchesAfter hint commits = [] := by
        refine List.filter_eq_nil_iff.mpr fun commit hcommit => ?_
        rw [hidle hall]
        simpa using hall commit hcommit
      rw [hslot, hnil]
      exact (hd.blocks.block _ (hin slot)).current rfl hall
    · -- The last commit has the superblock.
      unfold Idle at hall
      push Not at hall
      obtain ⟨commit, hcommit, hafter⟩ := hall
      obtain ⟨last, hlast⟩ := Option.ne_none_iff_exists'.mp
        (mt List.getLast?_eq_none_iff.mp (List.ne_nil_of_mem hcommit))
      have hle : ∀ {other : WalCommit}, other ∈ commits → other.commitLsn ≤ last.commitLsn := fun hother =>
        le_of_sorted_getLast? h.redoable.sorted hlast hother
      have hlastAfter := hafter.trans_le (hle hcommit)
      have hlastMem := List.mem_of_getLast? hlast
      have hbatch : last ∈ batchesAfter hint commits :=
        List.mem_filter.mpr ⟨hlastMem, decide_eq_true (hhint.trans_lt hlastAfter)⟩
      have himage : (last.commitLsn, superblockPage sb) ∈ imagesOf slot.pageId (redoImages (batchesAfter hint commits)) :=
        mem_images.mpr ⟨last, hbatch, rfl, h.newest last hlast hlastAfter⟩
      have hsorted : (imagesOf slot.pageId (redoImages (batchesAfter hint commits))).Pairwise fun a b => a.1 < b.1 := by
        rw [imagesOf_batchesAfter]
        exact (h.images_sorted slot.pageId).filter _
      rw [hslot, getLast?_of_sorted hsorted himage fun other hother => ?_]
      · rfl
      · obtain ⟨commit, hcommit, hlsn, -⟩ := mem_images.mp hother
        rw [← hlsn]
        exact hle (List.mem_filter.mp hcommit).1

/-- The checkpoint that opening reads from such a data file is not after the current one, and it is the current one when
the log has nothing after it. -/
theorem Disk.existingHint (h : History commits c sb slot) (hd : Disk d commits c sb slot)
    {walLength : Nat} (hlog : commits ≠ [] → 0 < walLength) :
    ∃ hint, existingHint sb.identity walLength d = .ok hint ∧ hint.getD 0 ≤ sb.checkpointLsn ∧
      (Idle commits sb → hint.getD 0 = sb.checkpointLsn) := by
  have hlength : ¬d.length = 0 := by
    have hwhole := hd.whole.1
    have hpos : 0 < firstDataPage * pageSize := by decide
    omega
  have hslots : ∀ s : SuperblockSlot, SlotHolds sb slot s (block pageSize d s.pageId) := fun s =>
    (hd.blocks.at_ (hd.slot_lt s)).at_slot
  have hread : ∀ selected : SelectedSuperblock, selected.superblock.identity = sb.identity →
      (do
        validateSuperblockIdentity selected.superblock sb.identity
        pure (some selected.superblock.checkpointLsn) : Result (Option Lsn)) =
        .ok (some selected.superblock.checkpointLsn) := by
    intro selected hidentity
    rw [validateSuperblockIdentity_eq_ok.mpr hidentity]
    rfl
  unfold Dodb.existingHint
  rw [if_neg hlength, if_neg (not_not.mpr hd.whole)]
  by_cases hall : Idle commits sb
  · have hselected : selectedIn d = .ok ⟨slot, sb.sealed⟩ :=
      chooseSuperblock_current h.records.encodable hslots ((hd.blocks.at_ (hd.slot_lt slot)).current rfl hall)
    rw [hselected]
    exact ⟨_, hread ⟨slot, sb.sealed⟩ rfl, le_rfl, fun _ => rfl⟩
  · refine (chooseSuperblock_le h.records.encodable hslots).elim (fun hselected => ?_) fun herror => ?_
    · obtain ⟨selected, hselected, hidentity, hle⟩ := hselected
      have hselected' : selectedIn d = .ok selected := hselected
      rw [hselected']
      exact ⟨_, hread selected hidentity, hle, fun hnone => absurd hnone hall⟩
    · obtain ⟨text, herror⟩ := herror
      have herror' : selectedIn d = .error (.corruption text) := herror
      have hne : commits ≠ [] := by
        rintro rfl
        exact hall fun commit hcommit => by cases hcommit
      rw [herror']
      exact ⟨none, if_pos (hlog hne), Nat.zero_le _, fun hnone => absurd hnone hall⟩

end History

end Dodb
