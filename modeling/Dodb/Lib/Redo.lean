import Dodb.Lib.File

/-! Redo of blocks from a log.

The log holds images of blocks in the order of the commits they belong to. Redo goes through them and writes an
image where the block in its place is older than the commit, or is one that cannot be read. A run that is cut
leaves every block old, at one of the images written so far, or unreadable. What a later run makes of such a
block is what the first run would have made of the old one: an unreadable block and an old one are both behind
the last image, and an image that is not is the one the run would have ended with. -/
namespace Dodb.Lib

/-! ### One block -/

section Block
variable {β : Type} (version : β → Option Nat)

/-- The block is older than `commit`, or cannot be read. -/
def Behind (commit : Nat) (b : β) : Prop := ∀ v ∈ version b, v < commit

instance (commit : Nat) (b : β) : Decidable (Behind version commit b) :=
  inferInstanceAs (Decidable (∀ v ∈ version b, v < commit))

def redoStep (b : β) (image : Nat × β) : β := if Behind version image.1 b then image.2 else b

/-- The images in order, each where the block is behind it. -/
def redo (b : β) (images : List (Nat × β)) : β := images.foldl (redoStep version) b

/-- Images in the order of their commits, none newer than its own commit. -/
structure Stamped (images : List (Nat × β)) : Prop where
  sorted : images.Pairwise fun a b => a.1 ≤ b.1
  version_le : ∀ image ∈ images, ∀ v ∈ version image.2, v ≤ image.1

/-- Some image is newer than the block. -/
def Outdated (images : List (Nat × β)) (b : β) : Prop := ∃ image ∈ images, Behind version image.1 b

/-- What a run over `images` that is cut may leave of the block `old`. -/
def Partway (old : β) (images : List (Nat × β)) (b : β) : Prop :=
  (∃ done, done <+: images ∧ b = redo version old done) ∨ Outdated version images old ∧ version b = none

variable {version} {old a b : β} {images : List (Nat × β)}

theorem Behind.of_unreadable (h : version b = none) (commit : Nat) : Behind version commit b := by
  intro v hv
  rw [h] at hv
  cases hv

theorem Outdated.of_unreadable (h : version b = none) (hold : Outdated version images old) :
    Outdated version images b := by
  obtain ⟨image, himage, _⟩ := hold
  exact ⟨image, himage, .of_unreadable h _⟩

theorem redo_append (images rest : List (Nat × β)) :
    redo version b (images ++ rest) = redo version (redo version b images) rest :=
  List.foldl_append

/-- No image newer than the block: redo leaves it. -/
theorem redo_of_not_outdated (h : ¬Outdated version images b) : redo version b images = b := by
  induction images with
  | nil => rfl
  | cons image rest ih =>
    have hstep : redoStep version b image = b :=
      if_neg fun hbehind => h ⟨image, List.mem_cons_self, hbehind⟩
    show redo version (redoStep version b image) rest = b
    rw [hstep]
    exact ih fun ⟨other, hother, hbehind⟩ => h ⟨other, List.mem_cons_of_mem _ hother, hbehind⟩

/-- What redo leaves is the block or one of the images. -/
theorem redo_mem (version : β → Option Nat) (b : β) (images : List (Nat × β)) :
    redo version b images = b ∨ ∃ image ∈ images, redo version b images = image.2 := by
  induction images generalizing b with
  | nil => exact .inl rfl
  | cons image rest ih =>
    show redo version (redoStep version b image) rest = b ∨ _
    obtain hrest | ⟨other, hother, heq⟩ := ih (redoStep version b image)
    · by_cases hbehind : Behind version image.1 b
      · exact .inr ⟨image, List.mem_cons_self, hrest.trans (if_pos hbehind)⟩
      · exact .inl (hrest.trans (if_neg hbehind))
    · exact .inr ⟨other, List.mem_cons_of_mem _ hother, heq⟩

/-- A block that is behind the last image is redone to it, when the others are older. -/
theorem redo_last {first : List (Nat × β)} {last : Nat × β} (hlt : ∀ image ∈ first, image.1 < last.1)
    (hexact : ∀ image ∈ first, version image.2 = some image.1) (hb : Behind version last.1 b) :
    redo version b (first ++ [last]) = last.2 := by
  rw [redo_append]
  refine if_pos ?_
  obtain hsame | ⟨image, himage, hsame⟩ := redo_mem version b first
  · rwa [hsame]
  · rw [hsame]
    intro v hv
    rw [hexact image himage] at hv
    cases hv
    exact hlt image himage

/-- A block without a version becomes its last image. -/
theorem redo_unversioned (h : ∀ b, version b = none) (b : β) (images : List (Nat × β)) :
    redo version b images = ((images.map Prod.snd).getLast?).getD b := by
  induction images generalizing b with
  | nil => rfl
  | cons image rest ih =>
    show redo version (redoStep version b image) rest = _
    rw [redoStep, if_pos (.of_unreadable (h b) _), ih, List.map_cons, List.getLast?_cons]
    rfl

theorem Stamped.tail {image : Nat × β} (h : Stamped version (image :: images)) : Stamped version images :=
  ⟨(List.pairwise_cons.mp h.sorted).2, fun other hother => h.version_le other (List.mem_cons_of_mem _ hother)⟩

/-- Blocks that are behind the last image come to the same. -/
theorem Stamped.redo_congr (h : Stamped version images) (ha : Outdated version images a)
    (hb : Outdated version images b) : redo version a images = redo version b images := by
  induction images generalizing a b with
  | nil =>
    obtain ⟨_, himage, _⟩ := ha
    cases himage
  | cons image rest ih =>
    -- an image not written over a block is older than the one that outdates the block
    have hskip : ∀ {c : β}, ¬Behind version image.1 c → Outdated version (image :: rest) c →
        Outdated version rest c ∧ Outdated version rest image.2 := by
      intro c hc hout
      obtain ⟨other, hother, hbehind⟩ := hout
      have hmem : other ∈ rest := by
        rcases List.mem_cons.mp hother with rfl | hmem
        · exact absurd hbehind hc
        · exact hmem
      refine ⟨⟨other, hmem, hbehind⟩, other, hmem, fun v hv => ?_⟩
      simp only [Behind, not_forall] at hc
      obtain ⟨w, hw, hle⟩ := hc
      have hv' := h.version_le image List.mem_cons_self v hv
      have hw' := hbehind w hw
      omega
    show redo version (redoStep version a image) rest = redo version (redoStep version b image) rest
    unfold redoStep
    by_cases hbehindA : Behind version image.1 a
    · by_cases hbehindB : Behind version image.1 b
      · rw [if_pos hbehindA, if_pos hbehindB]
      · rw [if_pos hbehindA, if_neg hbehindB]
        exact ih h.tail (hskip hbehindB hb).2 (hskip hbehindB hb).1
    · rw [if_neg hbehindA]
      by_cases hbehindB : Behind version image.1 b
      · rw [if_pos hbehindB]
        exact ih h.tail (hskip hbehindA ha).1 (hskip hbehindA ha).2
      · rw [if_neg hbehindB]
        exact ih h.tail (hskip hbehindA ha).1 (hskip hbehindB hb).1

theorem not_outdated_of_isPrefix {done : List (Nat × β)} (hdone : done <+: images) (h : ¬Outdated version images b) :
    ¬Outdated version done b :=
  fun ⟨image, himage, hbehind⟩ => h ⟨image, hdone.subset himage, hbehind⟩

/-- Redo begun again ends where it would have ended. -/
theorem Stamped.redo_of_partway (h : Stamped version images) (hb : Partway version old images b) :
    redo version b images = redo version old images := by
  rcases hb with ⟨done, hdone, rfl⟩ | ⟨hold, hnone⟩
  · by_cases hold : Outdated version images old
    · by_cases hb : Outdated version images (redo version old done)
      · exact h.redo_congr hb hold
      · obtain ⟨rest, rfl⟩ := hdone
        have hrest : ¬Outdated version rest (redo version old done) :=
          fun ⟨image, himage, hbehind⟩ => hb ⟨image, List.mem_append_right _ himage, hbehind⟩
        rw [redo_of_not_outdated hb, redo_append, redo_of_not_outdated hrest]
    · rw [redo_of_not_outdated (not_outdated_of_isPrefix hdone hold)]
  · exact h.redo_congr (.of_unreadable hnone hold) hold

theorem Partway.start : Partway version old images old := .inl ⟨[], List.nil_prefix, rfl⟩

/-- An image torn while it is written. -/
theorem Partway.torn {done : List (Nat × β)} {image : Nat × β} (hdone : done ++ [image] <+: images)
    (hbehind : Behind version image.1 (redo version old done)) (hb : version b = none) :
    Partway version old images b := by
  refine .inr ⟨?_, hb⟩
  by_contra hold
  have hprefix : done <+: images := (List.prefix_append done [image]).trans hdone
  rw [redo_of_not_outdated (not_outdated_of_isPrefix hprefix hold)] at hbehind
  exact hold ⟨image, hdone.subset (List.mem_append_right _ (List.mem_singleton_self image)), hbehind⟩

/-- Once an image is redone the block is as new as it, and stays so. -/
theorem Stamped.not_behind_redo (h : Stamped version images) (hexact : ∀ image ∈ images, version image.2 = some image.1)
    {commit : Nat} (hcommit : (∃ image ∈ images, image.1 = commit) ∨
      (∀ image ∈ images, commit ≤ image.1) ∧ ¬Behind version commit b) :
    ¬Behind version commit (redo version b images) := by
  induction images generalizing b with
  | nil =>
    rcases hcommit with ⟨_, himage, _⟩ | ⟨_, hb⟩
    · cases himage
    · exact hb
  | cons image rest ih =>
    have himage := hexact image List.mem_cons_self
    show ¬Behind version commit (redo version (redoStep version b image) rest)
    refine ih h.tail (fun other hother => hexact other (List.mem_cons_of_mem _ hother)) ?_
    have hkeeps : commit ≤ image.1 → (Behind version image.1 b ∨ ¬Behind version commit b) →
        ¬Behind version commit (redoStep version b image) := by
      intro hle hb
      unfold redoStep
      by_cases hbehind : Behind version image.1 b
      · rw [if_pos hbehind]
        exact fun hnew => absurd (hnew image.1 himage) (by omega)
      · rw [if_neg hbehind]
        exact hb.resolve_left hbehind
    rcases hcommit with ⟨other, hother, rfl⟩ | ⟨hle, hb⟩
    · rcases List.mem_cons.mp hother with rfl | hrest
      · refine .inr ⟨(List.pairwise_cons.mp h.sorted).1, hkeeps le_rfl ?_⟩
        exact em _
      · exact .inl ⟨other, hrest, rfl⟩
    · exact .inr ⟨fun other hother => hle other (List.mem_cons_of_mem _ hother),
        hkeeps (hle image List.mem_cons_self) (.inr hb)⟩

end Block

/-! ### A file of blocks -/

namespace File

theorem block_splice_same {size : Nat} {new : Bytes} (hnew : new.length = size) (bs : Bytes) (i : Nat) :
    block size (splice bs (i * size) new) i = new := by
  unfold block
  rw [← hnew]
  exact slice_splice_same bs new _

theorem block_splice_ne {size : Nat} {new : Bytes} (hnew : new.length = size) {bs : Bytes} {i j : Nat} (hne : j ≠ i)
    (hi : (i + 1) * size ≤ bs.length) (hj : (j + 1) * size ≤ bs.length) :
    block size (splice bs (i * size) new) j = block size bs j := by
  unfold block
  rw [Nat.add_mul, Nat.one_mul] at hi hj
  rcases Nat.lt_or_gt_of_ne hne with hlt | hlt
  · have : (j + 1) * size ≤ i * size := Nat.mul_le_mul_right size hlt
    rw [Nat.add_mul, Nat.one_mul] at this
    exact slice_splice_before _ _ _ _ _ this hj
  · have : (i + 1) * size ≤ j * size := Nat.mul_le_mul_right size hlt
    rw [Nat.add_mul, Nat.one_mul] at this
    exact slice_splice_after _ _ _ _ _ (by omega) (by omega)

theorem length_block {size : Nat} {bs : Bytes} {i : Nat} (hi : (i + 1) * size ≤ bs.length) :
    (block size bs i).length = size := by
  rw [Nat.add_mul, Nat.one_mul] at hi
  exact length_slice _ _ _ hi

theorem block_flatten {size : Nat} {blocks : List Bytes} (h : ∀ b ∈ blocks, b.length = size) {i : Nat} {b : Bytes}
    (hi : blocks[i]? = some b) : block size blocks.flatten i = b := by
  unfold block
  induction blocks generalizing i with
  | nil => cases hi
  | cons first rest ih =>
    have hfirst := h first List.mem_cons_self
    rw [List.flatten_cons]
    cases i with
    | zero =>
      cases hi
      rw [Nat.zero_mul, slice_append_left _ _ _ _ (by omega), slice_self _ _ hfirst]
    | succ i =>
      rw [slice_append_right _ _ _ _ (by rw [hfirst, Nat.succ_mul]; omega), hfirst, Nat.succ_mul, Nat.add_sub_cancel]
      exact ih (fun b hb => h b (List.mem_cons_of_mem _ hb)) hi

/-- A file of whole blocks is what its blocks are. -/
theorem eq_of_blocks {size : Nat} (hsize : 0 < size) {a b : Bytes} (ha : size ∣ a.length) (hlength : b.length = a.length)
    (h : ∀ i, (i + 1) * size ≤ a.length → block size a i = block size b i) : a = b := by
  refine List.ext_getElem hlength.symm fun k hk hk' => ?_
  have hblock : (k / size + 1) * size ≤ a.length := by
    obtain ⟨n, hn⟩ := ha
    rw [hn, Nat.mul_comm size n]
    refine Nat.mul_le_mul_right size ?_
    rw [hn] at hk
    exact Nat.div_lt_of_lt_mul hk
  have hmod := Nat.mod_lt k hsize
  have hk₂ : k / size * size + k % size = k := by
    rw [Nat.mul_comm]
    exact Nat.div_add_mod k size
  -- the byte `k` of a file is the byte `k % size` of its block
  have hbyte : ∀ {c : Bytes} (hc : k < c.length), (block size c (k / size))[k % size]? = some (c.get ⟨k, hc⟩) := by
    intro c hc
    unfold block slice
    rw [List.getElem?_take_of_lt hmod, List.getElem?_drop, hk₂, List.getElem?_eq_getElem hc]
    rfl
  have := (hbyte hk).symm.trans ((h _ hblock).symm ▸ hbyte hk')
  exact Option.some.inj this

/-- The block of a file that grows: the one there was, or zeros. -/
theorem block_resize {size n : Nat} {bs : Bytes} (haligned : size ∣ bs.length) {i : Nat} (hi : (i + 1) * size ≤ n) :
    block size (resize bs n) i = if (i + 1) * size ≤ bs.length then block size bs i else zeros size := by
  unfold block
  by_cases hin : (i + 1) * size ≤ bs.length
  · rw [if_pos hin]
    rw [Nat.add_mul, Nat.one_mul] at hi hin
    exact slice_resize _ _ _ _ hi hin
  · rw [if_neg hin]
    have hout : bs.length ≤ i * size := by
      obtain ⟨k, hk⟩ := haligned
      rw [hk, Nat.mul_comm size k] at hin ⊢
      exact Nat.mul_le_mul_right size (Nat.not_lt.mp fun hlt => hin (Nat.mul_le_mul_right size hlt))
    rw [Nat.add_mul, Nat.one_mul] at hi
    exact slice_resize_new _ _ _ _ hi hout

theorem resize_self (bs : Bytes) : resize bs bs.length = bs := by
  simp [resize, zeros]

theorem Mixed.of_eq {old bs : Bytes} (h : Mixed old old bs) : bs = old := by
  refine List.ext_getElem h.1 fun i hi hi' => ?_
  have := h.2 i hi
  rw [or_self, List.getD_eq_getElem _ _ hi, List.getD_eq_getElem _ _ hi'] at this
  exact this

end File

section Blocks
open File
variable (size : Nat) (version : Nat → Bytes → Option Nat)

/-- What block `index` is after commit `commit`. -/
structure BlockImage where
  commit : Nat
  index : Nat
  bytes : Bytes

/-- The images of one block. -/
def imagesOf (i : Nat) (images : List BlockImage) : List (Nat × Bytes) :=
  images.filterMap fun image => if image.index = i then some (image.commit, image.bytes) else none

def redoBlock (bs : Bytes) (image : BlockImage) : Bytes :=
  if Behind (version image.index) image.commit (block size bs image.index) then
    splice bs (image.index * size) image.bytes
  else bs

def redoBlocks (bs : Bytes) (images : List BlockImage) : Bytes := images.foldl (redoBlock size version) bs

/-- The images are whole blocks of a file of `n` bytes. -/
def Within (n : Nat) (images : List BlockImage) : Prop :=
  ∀ image ∈ images, image.bytes.length = size ∧ (image.index + 1) * size ≤ n

variable {size version} {n : Nat} {old bs : Bytes} {images : List BlockImage}

theorem mem_imagesOf {i : Nat} {image : Nat × Bytes} :
    image ∈ imagesOf i images ↔ ∃ full ∈ images, full.index = i ∧ (full.commit, full.bytes) = image := by
  unfold imagesOf
  rw [List.mem_filterMap]
  refine exists_congr fun full => and_congr_right fun _ => ?_
  by_cases h : full.index = i <;> simp [h]

theorem imagesOf_cons_same (image : BlockImage) (rest : List BlockImage) :
    imagesOf image.index (image :: rest) = (image.commit, image.bytes) :: imagesOf image.index rest := by
  simp [imagesOf]

theorem imagesOf_cons_ne {i : Nat} {image : BlockImage} (h : i ≠ image.index) (rest : List BlockImage) :
    imagesOf i (image :: rest) = imagesOf i rest := by
  simp [imagesOf, h.symm]

theorem imagesOf_append (i : Nat) (images rest : List BlockImage) :
    imagesOf i (images ++ rest) = imagesOf i images ++ imagesOf i rest :=
  List.filterMap_append

variable (version) in
theorem length_redoBlock {image : BlockImage} (hbytes : image.bytes.length = size)
    (hindex : (image.index + 1) * size ≤ bs.length) : (redoBlock size version bs image).length = bs.length := by
  unfold redoBlock
  split
  · rw [length_splice, hbytes]
    rw [Nat.add_mul, Nat.one_mul] at hindex
    omega
  · rfl

variable (version) in
/-- Redo of a file is redo of each of its blocks. -/
theorem redoBlocks_spec (h : Within size bs.length images) :
    (redoBlocks size version bs images).length = bs.length ∧
      ∀ i, (i + 1) * size ≤ bs.length →
        block size (redoBlocks size version bs images) i =
          redo (version i) (block size bs i) (imagesOf i images) := by
  induction images generalizing bs with
  | nil => exact ⟨rfl, fun _ _ => rfl⟩
  | cons image rest ih =>
    obtain ⟨hbytes, hindex⟩ := h image List.mem_cons_self
    have hlength := length_redoBlock version hbytes hindex
    have hrest : Within size (redoBlock size version bs image).length rest := by
      rw [hlength]
      exact fun other hother => h other (List.mem_cons_of_mem _ hother)
    obtain ⟨hlen, hblocks⟩ := ih hrest
    refine ⟨hlen.trans hlength, fun i hi => ?_⟩
    show block size (redoBlocks size version (redoBlock size version bs image) rest) i = _
    rw [hblocks i (hlength.symm ▸ hi)]
    by_cases hsame : i = image.index
    · subst hsame
      rw [imagesOf_cons_same]
      show _ = redo _ (redoStep _ _ _) _
      unfold redoBlock redoStep
      by_cases hbehind : Behind (version image.index) image.commit (block size bs image.index)
      · rw [if_pos hbehind, if_pos hbehind, block_splice_same hbytes]
      · rw [if_neg hbehind, if_neg hbehind]
    · rw [imagesOf_cons_ne hsame]
      unfold redoBlock
      split
      · rw [block_splice_ne hbytes hsame hindex hi]
      · rfl

/-- The state of a file while it is being recovered from `old` to `n` bytes: on the medium and for a reader, every
block is partway. -/
structure Recovering (size : Nat) (version : Nat → Bytes → Option Nat) (old : Bytes) (n : Nat)
    (images : List BlockImage) (f : File) : Prop where
  old_le : old.length ≤ f.durable.length
  durable_le : f.durable.length ≤ f.volatile.length
  volatile_le : f.volatile.length ≤ n
  durable_aligned : size ∣ f.durable.length
  volatile_aligned : size ∣ f.volatile.length
  durable : ∀ i, (i + 1) * size ≤ n → Partway (version i) (block size (resize old n) i) (imagesOf i images)
    (block size (resize f.durable n) i)
  volatile : ∀ i, (i + 1) * size ≤ n → Partway (version i) (block size (resize old n) i) (imagesOf i images)
    (block size (resize f.volatile n) i)

/-- Images in the order of their commits, none newer than its own commit. -/
structure StampedBlocks (version : Nat → Bytes → Option Nat) (images : List BlockImage) : Prop where
  sorted : images.Pairwise fun a b => a.commit ≤ b.commit
  version_le : ∀ image ∈ images, ∀ v ∈ version image.index image.bytes, v ≤ image.commit

theorem StampedBlocks.imagesOf (h : StampedBlocks version images) (i : Nat) :
    Stamped (version i) (Lib.imagesOf i images) := by
  constructor
  · refine List.Pairwise.filterMap _ ?_ h.sorted
    intro a b hab x hx y hy
    simp only [Option.ite_none_right_eq_some, Option.some.injEq] at hx hy
    obtain ⟨_, rfl⟩ := hx
    obtain ⟨_, rfl⟩ := hy
    exact hab
  · intro image himage
    obtain ⟨full, hfull, rfl, rfl⟩ := mem_imagesOf.mp himage
    exact h.version_le full hfull

/-- Two files of whole blocks that differ only by blocks partway come to the same. -/
theorem StampedBlocks.redoBlocks_of_partway (h : StampedBlocks version images) (hsize : 0 < size) (hn : size ∣ n)
    (hwithin : Within size n images) (hold : old.length = n) (hbs : bs.length = n)
    (hpartway : ∀ i, (i + 1) * size ≤ n →
      Partway (version i) (block size old i) (Lib.imagesOf i images) (block size bs i)) :
    redoBlocks size version bs images = redoBlocks size version old images := by
  have hnew := @redoBlocks_spec size version bs images (hbs.symm ▸ hwithin)
  have hfirst := @redoBlocks_spec size version old images (hold.symm ▸ hwithin)
  refine eq_of_blocks hsize (hnew.1.symm ▸ hbs.symm ▸ hn) ((hfirst.1.trans hold).trans (hnew.1.trans hbs).symm) ?_
  intro i hi
  rw [hnew.1, hbs] at hi
  rw [hnew.2 i (hbs.symm ▸ hi), hfirst.2 i (hold.symm ▸ hi)]
  exact (h.imagesOf i).redo_of_partway (hpartway i hi)

/-- What a power loss leaves of a file that was being recovered: whole blocks, each as it was on the medium, as it
was for a reader, or, where redo writes it, unreadable. -/
structure LeftOver (size : Nat) (version : Nat → Bytes → Option Nat) (old : Bytes) (n : Nat)
    (images : List BlockImage) (f : File) (left : Bytes) : Prop where
  aligned : size ∣ left.length
  durable_le : f.durable.length ≤ left.length
  le_volatile : left.length ≤ f.volatile.length
  block : ∀ i, (i + 1) * size ≤ left.length →
    block size left i = block size (resize f.durable n) i ∨ block size left i = block size f.volatile i ∨
      Outdated (version i) (imagesOf i images) (block size (resize old n) i) ∧ version i (block size left i) = none

namespace Recovering
variable {f : File}

theorem start (hold : size ∣ old.length) (hn : old.length ≤ n) :
    Recovering size version old n images (.ofDurable old) :=
  ⟨le_rfl, le_rfl, hn, hold, hold, fun _ _ => .start, fun _ _ => .start⟩

theorem setLength (h : Recovering size version old n images f) (hn : size ∣ n) :
    Recovering size version old n images (f.setLength n) where
  old_le := h.old_le
  durable_le := by
    show f.durable.length ≤ (resize f.volatile n).length
    rw [length_resize]
    exact h.durable_le.trans h.volatile_le
  volatile_le := (length_resize _ _).le
  durable_aligned := h.durable_aligned
  volatile_aligned := by
    show size ∣ (resize f.volatile n).length
    rwa [length_resize]
  durable := h.durable
  volatile i hi := by
    have hsame : resize (f.setLength n).volatile n = resize f.volatile n := by
      have := resize_self (resize f.volatile n)
      rwa [length_resize] at this
    rw [hsame]
    exact h.volatile i hi

theorem sync (h : Recovering size version old n images f) : Recovering size version old n images f.sync :=
  ⟨h.old_le.trans h.durable_le, le_rfl, h.volatile_le, h.volatile_aligned, h.volatile_aligned, h.volatile, h.volatile⟩

theorem write (h : Recovering size version old n images f) (hfull : f.volatile.length = n) {i : Nat} {b : Bytes}
    (hb : b.length = size) (hi : (i + 1) * size ≤ n)
    (hpartway : Partway (version i) (File.block size (resize old n) i) (imagesOf i images) b) :
    Recovering size version old n images (f.write (i * size) b) := by
  have hlength : (f.write (i * size) b).volatile.length = n := by
    show (splice f.volatile (i * size) b).length = n
    rw [length_splice, hfull, hb]
    rw [Nat.add_mul, Nat.one_mul] at hi
    omega
  refine ⟨h.old_le, ?_, hlength.le, h.durable_aligned, ?_, h.durable, fun j hj => ?_⟩
  · rw [hlength]
    exact h.durable_le.trans h.volatile_le
  · rw [hlength, ← hfull]
    exact h.volatile_aligned
  · have hvolatile := h.volatile j hj
    have hsame : ∀ {bs : Bytes}, bs.length = n → resize bs n = bs := fun hbs => hbs ▸ resize_self _
    rw [hsame hfull] at hvolatile
    rw [hsame hlength]
    show Partway _ _ _ (File.block size (splice f.volatile (i * size) b) j)
    by_cases hji : j = i
    · subst hji
      rwa [block_splice_same hb]
    · rwa [block_splice_ne hb hji (hfull.symm ▸ hi) (hfull.symm ▸ hj)]

variable (version) in
/-- The file that redo ends with. -/
theorem redone (hn : size ∣ n) (hold : old.length ≤ n) (hwithin : Within size n images) :
    Recovering size version old n images (.ofDurable (redoBlocks size version (resize old n) images)) := by
  obtain ⟨hlength, hblock⟩ := @redoBlocks_spec size version (resize old n) images ((length_resize old n).symm ▸ hwithin)
  rw [length_resize] at hlength hblock
  have hpartway : ∀ i, (i + 1) * size ≤ n → Partway (version i) (File.block size (resize old n) i) (imagesOf i images)
      (File.block size (resize (redoBlocks size version (resize old n) images) n) i) := by
    intro i hi
    have := resize_self (redoBlocks size version (resize old n) images)
    rw [hlength] at this
    rw [this]
    exact .inl ⟨_, List.prefix_rfl, hblock i hi⟩
  refine ⟨?_, le_rfl, hlength.le, ?_, ?_, hpartway, hpartway⟩
  · show old.length ≤ (redoBlocks size version (resize old n) images).length
    rwa [hlength]
  · show size ∣ (redoBlocks size version (resize old n) images).length
    rwa [hlength]
  · show size ∣ (redoBlocks size version (resize old n) images).length
    rwa [hlength]

/-- A file that is left as it was on the medium. -/
theorem leftOver_durable (h : Recovering size version old n images f) :
    LeftOver size version old n images f f.durable := by
  refine ⟨h.durable_aligned, le_rfl, h.durable_le, fun i hi => .inl ?_⟩
  rw [block_resize h.durable_aligned (hi.trans (h.durable_le.trans h.volatile_le)), if_pos hi]

/-- Whatever is left of a file that was being recovered is recovered to the same bytes. -/
theorem redoBlocks_leftOver (h : Recovering size version old n images f) (hstamped : StampedBlocks version images)
    (hsize : 0 < size) (hn : size ∣ n) (hwithin : Within size n images) {left : Bytes}
    (hleft : LeftOver size version old n images f left) :
    redoBlocks size version (resize left n) images = redoBlocks size version (resize old n) images := by
  refine hstamped.redoBlocks_of_partway hsize hn hwithin (length_resize _ _) (length_resize _ _) fun i hi => ?_
  rw [block_resize hleft.aligned hi]
  by_cases hin : (i + 1) * size ≤ left.length
  · rw [if_pos hin]
    rcases hleft.block i hin with hblock | hblock | ⟨hout, hnone⟩
    · rw [hblock]
      exact h.durable i hi
    · have hvolatile := h.volatile i hi
      rw [block_resize h.volatile_aligned hi, if_pos (hin.trans hleft.le_volatile)] at hvolatile
      rwa [hblock]
    · exact .inr ⟨hout, hnone⟩
  · -- a block that is not there reads as zeros once the file has its length, like on the medium
    have hdurable := h.durable i hi
    rw [block_resize h.durable_aligned hi, if_neg fun hle => hin (hle.trans hleft.durable_le)] at hdurable
    rwa [if_neg hin]

end Recovering

/-! ### A run of redo -/

/-- The images `done` have been redone, for a reader. -/
structure Redone (size : Nat) (version : Nat → Bytes → Option Nat) (old : Bytes) (n : Nat)
    (images done : List BlockImage) (f : File) : Prop where
  recovering : Recovering size version old n images f
  volatile : f.volatile = redoBlocks size version (resize old n) done

namespace Redone
variable {f : File} {done rest : List BlockImage} {image : BlockImage}

theorem spec (h : Redone size version old n images done f) (hwithin : Within size n images)
    (hdone : done ++ rest = images) :
    f.volatile.length = n ∧ ∀ i, (i + 1) * size ≤ n →
      File.block size f.volatile i = redo (version i) (File.block size (resize old n) i) (imagesOf i done) := by
  have hsub : Within size (resize old n).length done := by
    rw [length_resize]
    exact fun image himage => hwithin image (hdone ▸ List.mem_append_left _ himage)
  obtain ⟨hlength, hblock⟩ := redoBlocks_spec version hsub
  rw [length_resize] at hlength hblock
  rw [h.volatile]
  exact ⟨hlength, hblock⟩

theorem images_eq (hdone : done ++ image :: rest = images) :
    imagesOf image.index done ++ [(image.commit, image.bytes)] <+: imagesOf image.index images := by
  rw [← hdone, imagesOf_append, imagesOf_cons_same]
  refine ⟨imagesOf image.index rest, ?_⟩
  rw [List.append_assoc]
  rfl

theorem volatile_next (h : Redone size version old n images done f) :
    redoBlocks size version (resize old n) (done ++ [image]) = redoBlock size version f.volatile image := by
  rw [h.volatile]
  exact List.foldl_append

/-- An image that is not newer than its block is passed over. -/
theorem skip (h : Redone size version old n images done f)
    (hbehind : ¬Behind (version image.index) image.commit (File.block size f.volatile image.index)) :
    Redone size version old n images (done ++ [image]) f := by
  refine ⟨h.recovering, ?_⟩
  rw [h.volatile_next, redoBlock, if_neg hbehind]

theorem write (h : Redone size version old n images done f) (hwithin : Within size n images)
    (hdone : done ++ image :: rest = images)
    (hbehind : Behind (version image.index) image.commit (File.block size f.volatile image.index)) :
    Redone size version old n images (done ++ [image]) (f.write (image.index * size) image.bytes) := by
  obtain ⟨hbytes, hindex⟩ := hwithin image (hdone ▸ List.mem_append_right _ List.mem_cons_self)
  obtain ⟨hlength, hblock⟩ := h.spec hwithin hdone
  constructor
  · refine h.recovering.write hlength hbytes hindex (.inl ⟨_, images_eq hdone, ?_⟩)
    rw [hblock _ hindex] at hbehind
    rw [redo_append]
    exact (if_pos hbehind).symm
  · rw [h.volatile_next, redoBlock, if_pos hbehind]
    rfl

/-- A write of an image that is cut short. -/
theorem torn (h : Redone size version old n images done f) (hwithin : Within size n images)
    (hdone : done ++ image :: rest = images)
    (hbehind : Behind (version image.index) image.commit (File.block size f.volatile image.index)) {left : Bytes}
    (hlength : left.length = size) (hleft : version image.index left = none) :
    Recovering size version old n images (f.write (image.index * size) left) := by
  obtain ⟨_, hindex⟩ := hwithin image (hdone ▸ List.mem_append_right _ List.mem_cons_self)
  obtain ⟨hfull, hblock⟩ := h.spec hwithin hdone
  rw [hblock _ hindex] at hbehind
  exact h.recovering.write hfull hlength hindex (.torn (images_eq hdone) hbehind hleft)

end Redone

end Blocks

end Dodb.Lib
