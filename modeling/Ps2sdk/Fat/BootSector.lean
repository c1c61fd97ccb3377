import Ps2sdk.Fat.Driver

/-!
# The boot sector

`fat_getPartitionBootSector` and `fat_determineFatType`. The clusters are counted from the sector of cluster 0 on.
It lies two clusters before the data area, so the count is two too large. A sector that the root directory fills
only in part is counted with the data.
-/

namespace Ps2sdk.Fat

open Nat

variable (bpb : FatBpb)

/-- The clusters `fat_determineFatType` counts. -/
def FatBpb.countedClusters : ℕ :=
  let sector := (bpb.cluster2sector 0 + 2 ^ 32 - bpb.partStart) % 2 ^ 32
  let sector := (bpb.sectorCount + 2 ^ 32 - sector) % 2 ^ 32
  sector / bpb.clusterSize

/-- The type of the table for a number of clusters. -/
def FatType.ofClusters (clusterCount : ℕ) : FatType :=
  if clusterCount < 4085 then .fat12 else if clusterCount < 65525 then .fat16 else .fat32

/-- `fat_determineFatType`. -/
def determineFatType : FatBpb := { bpb with fatType := .ofClusters bpb.countedClusters }

variable (sector : ℕ) (sbuf : ℕ → UInt8)

/-- The fields of a boot sector, before the type of the table is known. -/
def rawBpb : FatBpb :=
  let field k := getI16 fun i => sbuf (k + i)
  let rootDirStart := (sector + (sbuf 16).toNat * field 22 + field 14) % 2 ^ 32
  { sectorSize := field 11
    clusterSize := (sbuf 13).toNat
    resSectors := field 14
    fatCount := (sbuf 16).toNat
    rootSize := field 17
    fatSize := field 22
    sectorCount := if field 19 = 0 then getI32 fun i => sbuf (32 + i) else field 19
    partStart := sector
    rootDirStart := rootDirStart
    rootDirCluster := 0
    fatType := .fat12
    dataStart := (rootDirStart + field 17 / (field 11 / 32)) % 2 ^ 32 }

/-- The fields of a FAT32 boot sector. -/
def FatBpb.fat32Info : FatBpb :=
  let fatSize := getI32 fun i => sbuf (36 + i)
  let rootDirStart := (bpb.partStart + bpb.fatCount * fatSize + bpb.resSectors) % 2 ^ 32
  { bpb with
    fatSize := fatSize
    rootDirStart := rootDirStart
    rootDirCluster := getI32 fun i => sbuf (44 + i)
    dataStart := rootDirStart }

/-- `fat_getPartitionBootSector` on the sector that was read; nothing where it divides by zero. -/
def getPartitionBootSector : Option FatBpb :=
  let raw := rawBpb sector sbuf
  if raw.sectorSize / 32 = 0 ∨ raw.clusterSize = 0 then none
  else
    let bpb := determineFatType raw
    if bpb.fatType = .fat32 ∧ raw.fatSize = 0 then some (bpb.fat32Info sbuf) else some bpb

/-- The sectors of the root directory, the last of which may be filled in part. -/
def FatBpb.rootSectors : ℕ := (32 * bpb.rootSize + bpb.sectorSize - 1) / bpb.sectorSize

/-- The sectors before the data area: reserved ones, the copies of the table and the root directory. -/
def FatBpb.metadata : ℕ := bpb.resSectors + bpb.fatCount * bpb.fatSize + bpb.rootSectors

/-- The sectors of the root directory that the driver leaves out. -/
def FatBpb.partSectors : ℕ := if bpb.rootSize % (bpb.sectorSize / 32) = 0 then 0 else 1

/-- The sectors of the data area. -/
def FatBpb.dataSectors : ℕ := bpb.sectorCount - bpb.metadata

/-- The count of data clusters decides between FAT12 and FAT16. -/
def DetectsType : Prop :=
  let clusters := (rawBpb sector sbuf).dataSectors / (rawBpb sector sbuf).clusterSize
  ∃ bpb, getPartitionBootSector sector sbuf = some bpb ∧ (bpb.fatType = .fat12 ↔ clusters < 4085) ∧
    (bpb.fatType = .fat16 ↔ 4085 ≤ clusters ∧ clusters < 65525)

variable (buf : ℕ → UInt8)

theorem getI16_lt : getI16 buf < 2 ^ 16 := by
  have h0 := (buf 0).toNat_lt
  have h1 := (buf 1).toNat_lt
  rw [getI16, shiftLeft_eq]
  omega

theorem getI32_lt : getI32 buf < 2 ^ 32 := by
  have h0 := (buf 0).toNat_lt
  have h1 := (buf 1).toNat_lt
  have h2 := (buf 2).toNat_lt
  have h3 := (buf 3).toNat_lt
  unfold getI32
  rw [shiftLeft_eq, shiftLeft_eq, shiftLeft_eq]
  omega

theorem rawBpb_sectorCount_lt (sbuf : ℕ → UInt8) : (rawBpb sector sbuf).sectorCount < 2 ^ 32 := by
  rw [rawBpb]
  dsimp only
  split
  · exact getI32_lt _
  · exact (getI16_lt _).trans (by decide)

theorem ofClusters_fat12 {n : ℕ} : FatType.ofClusters n = .fat12 ↔ n < 4085 := by
  unfold FatType.ofClusters
  split_ifs with h12 h16
  · exact iff_of_true rfl h12
  · exact iff_of_false nofun h12
  · exact iff_of_false nofun h12

theorem ofClusters_fat16 {n : ℕ} : FatType.ofClusters n = .fat16 ↔ 4085 ≤ n ∧ n < 65525 := by
  unfold FatType.ofClusters
  split_ifs with h12 h16
  · exact iff_of_false nofun fun h => absurd h12 (not_lt.mpr h.1)
  · exact iff_of_true rfl ⟨not_lt.mp h12, h16⟩
  · exact iff_of_false nofun fun h => h16 h.2

/-- The driver rounds the root directory down to whole sectors. -/
theorem FatBpb.rootSectors_eq {bpb : FatBpb} (hsize : 32 ≤ bpb.sectorSize) (hwhole : 32 ∣ bpb.sectorSize) :
    bpb.rootSectors = bpb.rootSize / (bpb.sectorSize / 32) + bpb.partSectors := by
  obtain ⟨entries, hentries⟩ := hwhole
  have hpos : 0 < entries := by omega
  have hdiv : bpb.sectorSize / 32 = entries := by omega
  have hsplit := div_add_mod bpb.rootSize entries
  have hlt := mod_lt bpb.rootSize hpos
  have hmul : bpb.rootSize / entries * (32 * entries) = 32 * (entries * (bpb.rootSize / entries)) := by
    rw [mul_left_comm, mul_comm _ entries]
  rw [FatBpb.rootSectors, FatBpb.partSectors, hdiv, hentries, Nat.div_eq_iff (by omega), add_mul, hmul]
  split <;> omega

/-- The clusters counted are those of the data area and two more. -/
theorem countedClusters_rawBpb {sector : ℕ} {sbuf : ℕ → UInt8} {raw : FatBpb} (hraw : rawBpb sector sbuf = raw)
    (hsector : sector < 2 ^ 32) (hroot : raw.rootSectors = raw.rootSize / (raw.sectorSize / 32) + raw.partSectors)
    (hmeta : raw.metadata ≤ raw.sectorCount) :
    raw.countedClusters = (raw.dataSectors + raw.partSectors + 2 * raw.clusterSize) % 2 ^ 32 / raw.clusterSize := by
  have hpart : raw.partStart = sector := by rw [← hraw]; rfl
  have hcluster : raw.clusterSize < 256 := by rw [← hraw]; exact (sbuf 13).toNat_lt
  have hdata : raw.dataStart = (sector + (raw.metadata - raw.partSectors)) % 2 ^ 32 := by
    rw [FatBpb.metadata, hroot, ← Nat.add_assoc, Nat.add_sub_cancel, ← hraw, rawBpb]
    dsimp only
    rw [mod_add_mod]
    congr 1
    omega
  have hle : raw.partSectors ≤ raw.metadata := by
    rw [FatBpb.metadata, hroot, ← Nat.add_assoc]
    exact Nat.le_add_left _ _
  unfold FatBpb.countedClusters FatBpb.cluster2sector FatBpb.dataSectors
  dsimp only
  congr 1
  rw [mul_zero, hdata, hpart]
  omega

/-- The type is right unless the data area is one or two clusters short of a limit, or three clusters of which the
driver adds one from the root directory, or within two clusters of 2^32 sectors. -/
theorem detectsType_iff {sector : ℕ} {sbuf : ℕ → UInt8} {raw : FatBpb} (hraw : rawBpb sector sbuf = raw)
    (hsector : sector < 2 ^ 32) (hwhole : 32 ≤ raw.sectorSize → 32 ∣ raw.sectorSize)
    (hcluster : raw.clusterSize ≠ 0) (hfat : raw.fatSize ≠ 0) (hmeta : raw.metadata ≤ raw.sectorCount) :
    DetectsType sector sbuf ↔ 32 ≤ raw.sectorSize ∧
      raw.dataSectors + raw.partSectors + 2 * raw.clusterSize < 2 ^ 32 ∧
      raw.dataSectors / raw.clusterSize ∉ [4083, 4084, 65523, 65524] ∧
      (raw.dataSectors + raw.partSectors) / raw.clusterSize ∉ [4083, 65523] := by
  have hsmall : raw.clusterSize < 256 := by rw [← hraw]; exact (sbuf 13).toNat_lt
  have hget : getPartitionBootSector sector sbuf =
      if raw.sectorSize / 32 = 0 ∨ raw.clusterSize = 0 then none else some (determineFatType raw) := by
    unfold getPartitionBootSector
    rw [hraw]
    dsimp only
    have hother : ¬ ((determineFatType raw).fatType = .fat32 ∧ raw.fatSize = 0) := fun h => hfat h.2
    rw [if_neg hother]
  unfold DetectsType
  rw [hraw, hget]
  by_cases hsize : raw.sectorSize / 32 = 0
  · rw [if_pos (.inl hsize)]
    refine iff_of_false (fun ⟨bpb, hbpb, _⟩ => by cases hbpb) fun h => ?_
    omega
  have hcounted := countedClusters_rawBpb hraw hsector
    (FatBpb.rootSectors_eq (by omega) (hwhole (by omega))) hmeta
  have hpart : raw.partSectors ≤ 1 := by
    rw [FatBpb.partSectors]
    split <;> omega
  have hle : raw.dataSectors / raw.clusterSize ≤ (raw.dataSectors + raw.partSectors) / raw.clusterSize :=
    Nat.div_le_div_right (by omega)
  have hge : (raw.dataSectors + raw.partSectors) / raw.clusterSize ≤ raw.dataSectors / raw.clusterSize + 1 := by
    rw [← add_div_right _ (pos_of_ne_zero hcluster)]
    exact Nat.div_le_div_right (by omega)
  rw [if_neg (not_or.mpr ⟨hsize, hcluster⟩)]
  simp only [Option.some.injEq, exists_eq_left', determineFatType, hcounted, ofClusters_fat12, ofClusters_fat16,
    List.mem_cons, List.not_mem_nil, or_false]
  by_cases hwrap : raw.dataSectors + raw.partSectors + 2 * raw.clusterSize < 2 ^ 32
  · rw [mod_eq_of_lt hwrap, add_mul_div_right _ _ (pos_of_ne_zero hcluster)]
    generalize raw.dataSectors / raw.clusterSize = clusters at *
    generalize (raw.dataSectors + raw.partSectors) / raw.clusterSize = counted at *
    omega
  · -- the count wraps to less than three clusters, where there are millions
    refine iff_of_false (fun h => ?_) fun h => hwrap h.2.1
    have hcount : raw.sectorCount < 2 ^ 32 := hraw ▸ rawBpb_sectorCount_lt sector sbuf
    have hfew : (raw.dataSectors + raw.partSectors + 2 * raw.clusterSize) % 2 ^ 32 / raw.clusterSize < 3 := by
      rw [div_lt_iff_lt_mul (pos_of_ne_zero hcluster)]
      unfold FatBpb.dataSectors at *
      omega
    have hmany : 4085 ≤ raw.dataSectors / raw.clusterSize := by
      rw [le_div_iff_mul_le (pos_of_ne_zero hcluster)]
      omega
    omega

/-- A boot sector with 512 bytes a sector, one sector a cluster, and sectors for the given number of clusters. -/
def smallBoot (clusters : ℕ) : ℕ → UInt8
  | 12 => 2
  | 13 => 1
  | 14 => 1
  | 16 => 1
  | 22 => 1
  | 19 => UInt8.ofNat ((clusters + 2) % 256)
  | 20 => UInt8.ofNat ((clusters + 2) / 256)
  | _ => 0

/-- A volume of 4000 clusters is recognised. -/
theorem detectsType_4000 : DetectsType 0 (smallBoot 4000) :=
  (detectsType_iff rfl (by decide) (by decide) (by decide) (by decide) (by decide)).mpr (by decide)

/-- A volume of 4083 clusters is taken for FAT16. -/
theorem not_detectsType_4083 : ¬ DetectsType 0 (smallBoot 4083) :=
  fun ⟨_, hbpb, htype, _⟩ => by cases hbpb; revert htype; decide

end Ps2sdk.Fat
