import Dodb.Btree.Applied

/-! A new database.

Opening an empty data file, with a log that has nothing in it yet, creates a file with an empty root and two copies of
the first superblock. The store that is opened holds the empty map. -/
namespace Dodb
open Lib File PageProg SearchTree

variable [Crc32c] {μ : Type} {x : μ}

/-- The contents of a new database, whose root page has the given block. -/
def Contents.new (rootBytes : Bytes) : Contents := ⟨fun _ => rootBytes, firstDataPage, none, firstDataPage, 0⟩

/-- The first superblock. -/
def Superblock.first (config : DatabaseConfig) : Superblock :=
  {Superblock.new 1 config.databaseUuid config.tenantId config.shardId config.shardEpoch with
    rootPageId := some firstDataPage, highWaterPageId := some firstDataPage}

omit [Crc32c] in
theorem storable_emptyLeaf : (PageData.leaf 0 none []).Storable := by
  refine ⟨by decide, by decide, (leafFits_iff _).mpr ⟨fun e he => ?_, by decide, by decide⟩, fun e he => ?_⟩ <;>
    exact absurd he List.not_mem_nil

omit [Crc32c] in
theorem Superblock.first_encodable (config : DatabaseConfig) : (Superblock.first config).Encodable := by
  have hgeneration : 1 ≤ u64Max := by decide
  have hnew := Superblock.Encodable.new hgeneration config.databaseUuid config.tenantId config.shardId config.shardEpoch
  have hroot : ∀ p ∈ some firstDataPage, p < nullPageId := by decide
  exact {hnew with rootPageId := hroot, highWaterPageId := hroot}

section New
variable {rootBytes : Bytes} {config : DatabaseConfig}

omit [Crc32c] in
theorem Superblock.first_records (config : DatabaseConfig) (rootBytes : Bytes) :
    (Superblock.first config).Records (.new rootBytes) :=
  ⟨first_encodable config, rfl, rfl, rfl⟩

theorem Contents.new_valid (h : Image firstDataPage (.leaf 0 none []) rootBytes) : (Contents.new rootBytes).Valid .new := by
  have hview : (Contents.new rootBytes).view firstDataPage = .ok (.leaf 0 none []) := by
    unfold Contents.view
    rw [if_pos ⟨le_rfl, le_rfl⟩]
    exact h.reads
  have htree : Healthy 0 (Contents.new rootBytes).stage (.leaf ⟨[], firstDataPage, none, []⟩) [] [] :=
    .single rfl rfl rfl ⟨0, le_rfl, hview⟩ storable_emptyLeaf.2.2.1 (fun i hi => absurd hi List.not_mem_nil)
      fun i hi => absurd hi List.not_mem_nil
  refine ⟨⟨_, [], htree, ?_⟩, fun p hp hle => ?_, fun htop => absurd rfl htop, ?_⟩
  · rw [Shape.items, Shape.leaves_leaf]
    rfl
  · obtain rfl : p = firstDataPage := le_antisymm hle hp
    exact ⟨_, h, le_rfl⟩
  · show firstDataPage < nullPageId
    decide

theorem Ledger.new (h : Image firstDataPage (.leaf 0 none []) rootBytes) :
    Ledger config.identity [] (.new rootBytes) .new (.first config) .A where
  valid := Contents.new_valid h
  history :=
    { redoable := ⟨.nil, fun batch hbatch => absurd hbatch List.not_mem_nil⟩
      nodup := fun commit hcommit => absurd hcommit List.not_mem_nil
      range := fun commit hcommit => absurd hcommit List.not_mem_nil
      last := fun p _ lsn b hlast => by cases hlast
      slots := fun commit hcommit => absurd hcommit List.not_mem_nil
      records := Superblock.first_records config rootBytes
      newest := fun commit hlast => by cases hlast }
  identity := rfl
  top := rfl
  checkpoint := le_rfl
  lsn := by
    show 0 < u64Max
    decide
  generation := le_rfl
  renewed hlt := absurd hlt (lt_irrefl 0)
  water := le_rfl
  room := by
    show (firstDataPage + 1) * pageSize ≤ maxFileLength + 0
    decide

/-- The blocks of a new data file, written one after another. -/
theorem settled_new {f : File} (hd : f.volatile.length = 3 * pageSize) (hroot : rootBytes.length = pageSize) :
    Settled (((f.write (0 * pageSize) (superblockPage (.first config))).write (1 * pageSize)
      (superblockPage (.first config))).write (firstDataPage * pageSize) rootBytes).volatile (.new rootBytes)
      (.first config) .A := by
  have hpage := length_superblockPage (.first config)
  unfold File.write
  obtain ⟨d₁, hd₁⟩ : ∃ d₁, d₁ = splice f.volatile (0 * pageSize) (superblockPage (.first config)) := ⟨_, rfl⟩
  obtain ⟨d₂, hd₂⟩ : ∃ d₂, d₂ = splice d₁ (1 * pageSize) (superblockPage (.first config)) := ⟨_, rfl⟩
  obtain ⟨d₃, hd₃⟩ : ∃ d₃, d₃ = splice d₂ (firstDataPage * pageSize) rootBytes := ⟨_, rfl⟩
  rw [← hd₁, ← hd₂, ← hd₃]
  have hin : ∀ {i n : Nat}, i < 3 → n = 3 * pageSize → (i + 1) * pageSize ≤ n := by
    intro i n hi hn
    rw [hn]
    exact Nat.mul_le_mul_right _ hi
  have hlen₁ : d₁.length = 3 * pageSize := by
    rw [hd₁, length_splice_block hpage (hin (by decide) hd), hd]
  have hlen₂ : d₂.length = 3 * pageSize := by
    rw [hd₂, length_splice_block hpage (hin (by decide) hlen₁), hlen₁]
  have hlen₃ : d₃.length = 3 * pageSize := by
    rw [hd₃, length_splice_block hroot (hin (by decide) hlen₂), hlen₂]
  have hslotA : block pageSize d₃ 0 = superblockPage (.first config) := by
    rw [hd₃, block_splice_ne hroot (by decide) (hin (by decide) hlen₂) (hin (by decide) hlen₂), hd₂,
      block_splice_ne hpage (by decide) (hin (by decide) hlen₁) (hin (by decide) hlen₁), hd₁, block_splice_same hpage]
  have hslotB : block pageSize d₃ 1 = superblockPage (.first config) := by
    rw [hd₃, block_splice_ne hroot (by decide) (hin (by decide) hlen₂) (hin (by decide) hlen₂), hd₂, block_splice_same hpage]
  refine ⟨hlen₃, ?_, fun p hp hle => ?_, fun s => ?_, hslotA⟩
  · rw [hlen₃]
    decide
  · obtain rfl : p = firstDataPage := le_antisymm hle hp
    rw [hd₃, block_splice_same hroot]
    rfl
  · cases s with
    | A => exact .current hslotA (.inl rfl)
    | B => exact .current hslotB (.inr rfl)

end New

/-- The store of a new database. -/
def createdStore (config : DatabaseConfig) (wal : WalLog) : Store :=
  {Store.atSuperblock config none ⟨.A, .first config⟩ (firstDataPage, none, firstDataPage) 1 with
    wal := some wal
    nextLsn := wal.nextLsn
    nextBatchId := wal.nextBatchId}

/-- What creating a data file writes. -/
theorem initializeStore_eq (config : DatabaseConfig) {rootBytes : Bytes}
    (hencode : (PageData.leaf 0 none []).encode firstDataPage = .ok rootBytes) :
    (initializeStore config : Data μ Store) = (do
      dataSetLength (3 * pageSize)
      writeBlock 0 (superblockPage (.first config))
      writeBlock 1 (superblockPage (.first config))
      writeBlock firstDataPage rootBytes
      dataSync
      pure (Store.atSuperblock config none ⟨.A, .first config⟩ (firstDataPage, none, firstDataPage) 1)) := by
  have hsuperblock := encodeSuperblock_eq (Superblock.first_encodable config)
  unfold Superblock.first at hsuperblock
  unfold initializeStore
  dsimp only at hsuperblock ⊢
  rw [hencode, Io.ofExcept_ok, pure_bind, hsuperblock, Io.ofExcept_ok, pure_bind]
  rfl

/-- Creating the data file of a new database. -/
theorem initializeStore_turns (config : DatabaseConfig) :
    Turns x .data (fun g => g = .ofDurable []) (initializeStore config)
      (fun s g => ∃ d rootBytes, Image firstDataPage (.leaf 0 none []) rootBytes ∧ g = .ofDurable d ∧
        Settled d (.new rootBytes) (.first config) .A ∧
        s = Store.atSuperblock config none ⟨.A, .first config⟩ (firstDataPage, none, firstDataPage) 1)
      (fun _ => True) := by
  obtain ⟨rootBytes, hencode, hlen, -⟩ := storable_emptyLeaf.encode_reads (by decide : firstDataPage ≤ u64Max)
  have himage := storable_emptyLeaf.image (by decide) hencode
  rw [initializeStore_eq config hencode]
  have hwrite : ∀ {f : File} {i : Nat} {b : Bytes}, Turns x .data (fun g => g = f) (writeBlock i b)
      (fun _ g => g = f.write (i * pageSize) b) (fun _ => True) := Turns.writeAt fun _ _ => True.intro
  refine Turns.bind (.setLength True.intro fun _ => True.intro) fun _ => ?_
  refine Turns.of_file fun f hf => ?_
  obtain ⟨rfl, -⟩ := hf
  refine Turns.bind hwrite fun _ => .bind hwrite fun _ => .bind hwrite fun _ => ?_
  refine Turns.bind (.syncFile True.intro True.intro) fun _ => .pure fun f hf => ?_
  unfold File.sync at hf
  have hlength : ((File.ofDurable []).setLength (3 * pageSize)).volatile.length = 3 * pageSize :=
    length_resize [] (3 * pageSize)
  refine ⟨_, rootBytes, himage, hf, settled_new hlength hlen, rfl⟩

/-- Opening creates a database where there is none. The store holds nothing, and creating it fails only where the medium
does. -/
theorem openWithWal_new (config : DatabaseConfig) {w : Bytes} (hleft : LogLeft config.identity 0 [] w)
    (hlength : w.length ≤ maxFileLength) {files : FileId → File} {b : Bool} (hdata : files .data = .ofDurable [])
    (hlog : files .wal = .ofDurable w) :
    Io.Spec (Machine.At files x b) (openWithWal config)
      (fun s m => s.On config m.files 0 .new ∧ m.memory = x ∧ m.faulted = b) (fun _ m => m.faulted = true ∧ m.memory = x)
      fun _ => True := by
  unfold openWithWal
  refine Turns.bind_spec (.fileLength (R := fun g => g = files .wal) rfl) rfl (fun length f hf => ?_)
    (fun e f m hf hm => ⟨hm.faulted, hm.memory⟩) fun f m hf hm => True.intro
  obtain ⟨rfl, rfl⟩ := hf
  rw [Function.update_eq_self]
  have hhint : Turns x .data (fun g => g = .ofDurable [])
      (validateExistingIdentityBeforeWal config.identity (files .wal).volatile.length)
      (fun hint g => g = .ofDurable [] ∧ hint = none) (fun _ => True) := by
    unfold validateExistingIdentityBeforeWal
    refine Turns.bind_eq (.fileLength True.intro) ?_
    exact Turns.pure fun g hg => ⟨hg, rfl⟩
  refine Turns.bind_spec hhint hdata (fun hint f hf => ?_) (fun e f m hf hm => ⟨hm.faulted, hm.memory⟩)
    fun f m hf hm => True.intro
  obtain ⟨hf, rfl⟩ := hf
  rw [hf, ← hdata, Function.update_eq_self]
  have hzero : 0 < u64Max := by decide
  refine Turns.bind_spec (openWal_turns hleft hlength hzero fun _ => rfl) hlog (fun wal f hf => ?_)
    (fun e f m hf hm => ⟨hm.faulted, hm.memory⟩) fun f m hf hm => True.intro
  obtain ⟨start, items, hopened, rfl⟩ := hf
  have hdata' : Function.update files .wal (.ofDurable (logBytes config.identity start items)) .data = .ofDurable [] := by
    rw [Function.update_of_ne (by decide), hdata]
  refine Turns.bind_spec (.fileLength (R := fun _ => True) True.intro) hdata' (fun length f hf => ?_)
    (fun e f m hf hm => ⟨hm.faulted, hm.memory⟩) fun f m hf hm => True.intro
  obtain ⟨rfl, rfl⟩ := hf
  rw [if_pos ⟨rfl, hopened.holds.committed.trans hopened.commits⟩, ← hdata', Function.update_eq_self]
  -- The program is hidden, or elaboration would run it.
  obtain ⟨create, hcreate⟩ : ∃ create : Data μ Store, create = initializeStore config := ⟨_, rfl⟩
  have hturns := @initializeStore_turns _ μ x config
  rw [← hcreate] at hturns ⊢
  refine Turns.bind_spec hturns hdata' (fun s f hf => ?_)
    (fun e f m hf hm => ⟨hm.faulted, hm.memory⟩) fun f m hf hm => True.intro
  obtain ⟨d, rootBytes, himage, rfl, hsettled, rfl⟩ := hf
  refine Io.Spec.pure fun m hm => ⟨⟨[], .new rootBytes, ?_, rfl⟩, hm.memory, hm.faulted⟩
  have hlsn : 0 < wal.nextLsn := (one_le_nextLsnOf items).trans hopened.holds.nextLsn
  refine Settled.steady (s := createdStore config wal) (c := .new rootBytes) hsettled (.new himage)
    ⟨PageCache.coherent_new .., rfl, rfl, rfl, rfl, Superblock.first_records config rootBytes⟩ rfl rfl rfl hopened ⟨rfl, rfl⟩
    hlsn rfl rfl ?_ ?_
  · rw [hm.files, Function.update_self]
  · rw [hm.files, Function.update_of_ne (by decide), Function.update_self]

/-! ### Where nothing goes wrong -/

/-- The data file of a new database, where nothing goes wrong. -/
theorem initializeStore_quiet (config : DatabaseConfig) {m : Machine FileId μ} (h : m.schedule = []) :
    ∃ store m', initializeStore config m = .ok store m' := by
  obtain ⟨rootBytes, hencode, hlen, -⟩ := storable_emptyLeaf.encode_reads (by decide : firstDataPage ≤ u64Max)
  have hpage := length_superblockPage (.first config)
  have hwrite : ∀ {m : Machine FileId μ} {i : Nat} {b : Bytes}, m.schedule = [] → i < 3 → b.length = pageSize →
      writeBlock i b m = .ok ⟨⟩ (m.setFile .data ((m.files .data).write (i * pageSize) b)) := by
    intro m i b hm hi hb
    refine writeAt_quiet hm ?_ _
    rw [hb]
    exact (Nat.add_le_add_right (Nat.mul_le_mul_right _ (Nat.le_of_lt_succ hi)) _).trans (by decide)
  have hlength : 3 * pageSize ≤ maxFileLength := by decide
  rw [initializeStore_eq config hencode, Io.bind_apply, dataSetLength, setLength_quiet h hlength]
  dsimp only
  rw [Io.bind_apply, hwrite (by exact h) (by decide) hpage]
  dsimp only
  rw [Io.bind_apply, hwrite (by exact h) (by decide) hpage]
  dsimp only
  rw [Io.bind_apply, hwrite (by exact h) (by decide) hlen]
  dsimp only
  rw [Io.bind_apply, dataSync, syncFile_quiet (by exact h)]
  exact ⟨_, _, rfl⟩

/-- On a medium that does not fail a database is created. -/
theorem openWithWal_quiet_new (config : DatabaseConfig) {m : Machine FileId μ} (h : m.schedule = [])
    (hdata : (m.files .data).volatile = []) (hlog : (m.files .wal).volatile = []) :
    ∃ store m', openWithWal config m = .ok store m' := by
  have hhint : existingHint config.identity (m.files .wal).volatile.length (m.files .data).volatile = .ok none := by
    rw [hdata]
    rfl
  have hzero : 0 < u64Max := by decide
  obtain ⟨f, hopen, -⟩ := openWal_torn_quiet h hzero (by decide : 0 < initFrameSize)
    (show _ = (frameBytes (initFrame walFormatVersion config.identity 0)).take 0 from hlog.trans List.take_zero.symm)
  have hempty : ((m.setFile .wal f).files .data).volatile.length = 0 := by
    rw [Machine.files_setFile_ne _ _ _ _ (by decide), hdata]
    rfl
  unfold openWithWal
  rw [Io.bind_apply, walLength, fileLength_quiet h]
  dsimp only
  rw [Io.bind_apply, validateExisting_quiet h, hhint, Io.ofExcept_ok, Io.pure_apply]
  dsimp only
  rw [Io.bind_apply, Option.getD_none, hopen]
  dsimp only
  rw [Io.bind_apply, dataLength, fileLength_quiet (by exact h)]
  dsimp only
  rw [hempty, if_pos ⟨rfl, rfl⟩, Io.bind_apply]
  obtain ⟨store, m', hstore⟩ := @initializeStore_quiet _ μ config (m.setFile .wal f) h
  rw [hstore]
  exact ⟨_, _, rfl⟩
end Dodb
