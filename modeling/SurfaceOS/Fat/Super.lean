import SurfaceOS.Errno
import SurfaceOS.Lib.Memory

/-! The FAT32 superblock (vnode.cpp `read_super`) and the sector arithmetic of fat.cpp.
Every field comes from the boot sector; the sums are made in 32 bits, as there. -/
namespace SurfaceOS.Fat
open Lib.Memory Nat

/-- A block device. msc.cpp registers a disk only with a sector size that is a power of two
from 512 to 4096, and a partition has its disk's. -/
structure Blkdev where
  sectorSize : Nat
  sectorCount : Nat
  sized : sectorSize = 512 ∨ sectorSize = 1024 ∨ sectorSize = 2048 ∨ sectorSize = 4096
  counted : sectorCount < 2^64

structure Bpb where
  bytesPerSector : Nat
  sectorsPerCluster : Nat
  reservedSectors : Nat
  numFats : Nat
  totalSectors32 : Nat
  fatSize32 : Nat
  rootCluster : Nat
  fsInfoSector : Nat

def Bpb.parse (sector : Nat → UInt8) : Bpb where
  bytesPerSector := le16 sector 11
  sectorsPerCluster := (sector 13).toNat
  reservedSectors := le16 sector 14
  numFats := (sector 16).toNat
  totalSectors32 := le32 sector 32
  fatSize32 := le32 sector 36
  rootCluster := le32 sector 44
  fsInfoSector := le16 sector 48

structure Super where
  bytesPerSector : Nat
  sectorsPerCluster : Nat
  clusterSize : Nat
  reservedSectors : Nat
  numFats : Nat
  fatSize : Nat
  fatStart : Nat
  dataStart : Nat
  rootCluster : Nat
  totalSectors : Nat
  totalClusters : Nat
  fsinfoSector : Nat
  deriving DecidableEq

/-- `read_super` up to the mount-time scans; `memory` tells whether the scratch buffer could
be had. -/
def readSuper (dev : Blkdev) (sector : Nat → UInt8) (memory : Bool) : Except Errno Super :=
  let bpb := Bpb.parse sector
  let spc := bpb.sectorsPerCluster
  if bpb.bytesPerSector ≠ dev.sectorSize then .error .einval
  else if spc = 0 ∨ spc > 128 ∨ spc &&& (spc - 1) ≠ 0 then .error .einval
  else if bpb.numFats = 0 ∨ bpb.fatSize32 = 0 ∨ bpb.rootCluster < 2 ∨ bpb.totalSectors32 = 0 then
    .error .einval
  else
    let dataStart := (bpb.reservedSectors + bpb.numFats * bpb.fatSize32) % 2^32
    -- The device is the authority on the volume size.
    let totalSectors := if bpb.totalSectors32 > dev.sectorCount then dev.sectorCount
      else bpb.totalSectors32
    if dataStart ≥ totalSectors then .error .einval
    else if !memory then .error .enomem
    else .ok {
      bytesPerSector := bpb.bytesPerSector
      sectorsPerCluster := spc
      clusterSize := spc * bpb.bytesPerSector
      reservedSectors := bpb.reservedSectors
      numFats := bpb.numFats
      fatSize := bpb.fatSize32
      fatStart := bpb.reservedSectors
      dataStart := dataStart
      rootCluster := bpb.rootCluster
      totalSectors := totalSectors
      totalClusters := (totalSectors - dataStart) / spc
      fsinfoSector := bpb.fsInfoSector}

def clusterLba (sb : Super) (cluster : Nat) : Nat :=
  (sb.dataStart + (cluster - 2) * sb.sectorsPerCluster) % 2^32

def entryByte (cluster : Nat) : Nat := cluster * 4 % 2^32

def entrySector (sb : Super) (f cluster : Nat) : Nat :=
  sb.fatStart + f * sb.fatSize + entryByte cluster / sb.bytesPerSector

def entryOffset (sb : Super) (cluster : Nat) : Nat := entryByte cluster % sb.bytesPerSector

/-- Everything an accepted boot sector says about the superblock made from it. -/
structure Accepted (dev : Blkdev) (bpb : Bpb) (sb : Super) : Prop where
  sector : sb.bytesPerSector = bpb.bytesPerSector
  sectorSize : bpb.bytesPerSector = dev.sectorSize
  cluster : sb.sectorsPerCluster = bpb.sectorsPerCluster
  clusterPos : 0 < bpb.sectorsPerCluster
  clusterPower : bpb.sectorsPerCluster ∣ 128
  clusterSize : sb.clusterSize = bpb.sectorsPerCluster * bpb.bytesPerSector
  fats : sb.numFats = bpb.numFats
  fatsPos : 0 < bpb.numFats
  fatSize : sb.fatSize = bpb.fatSize32
  fatStart : sb.fatStart = bpb.reservedSectors
  dataStart : sb.dataStart = (bpb.reservedSectors + bpb.numFats * bpb.fatSize32) % 2^32
  totalSectors : sb.totalSectors = min bpb.totalSectors32 dev.sectorCount
  dataInside : sb.dataStart < sb.totalSectors
  totalClusters : sb.totalClusters = (sb.totalSectors - sb.dataStart) / sb.sectorsPerCluster

theorem power_of_two : ∀ n, n < 129 → n ≠ 0 → n &&& (n - 1) = 0 → n ∣ 128 := by decide

theorem readSuper_accepted (dev : Blkdev) (sector : Nat → UInt8) (memory : Bool) (sb : Super)
    (accepted : readSuper dev sector memory = .ok sb) : Accepted dev (Bpb.parse sector) sb := by
  have clipped (a b : Nat) : (if a > b then b else a) = min a b := by split <;> omega
  revert accepted
  fun_cases readSuper dev sector memory with
  | case6 _ _ size spc fields _ _ inside =>
    rintro ⟨⟩
    simp only [not_or,Nat.not_le,Decidable.not_not] at spc fields inside
    exact ⟨rfl,Classical.not_not.mp size,rfl,Nat.pos_of_ne_zero spc.1,
      power_of_two _ (Nat.lt_succ_of_le (Nat.not_lt.mp spc.2.1)) spc.1 spc.2.2,rfl,rfl,Nat.pos_of_ne_zero fields.1,
      rfl,rfl,rfl,clipped ..,inside,rfl⟩
  | _ => nofun

/-- The sectors of one cluster, and those its entry takes in every FAT copy, lie where the
volume has them, and no number on the way wrapped around. -/
structure Placed (dev : Blkdev) (sb : Super) (c : Nat) : Prop where
  entryExact : entryByte c = c * 4
  entryInside : ∀ f, f < sb.numFats → sb.fatStart + f * sb.fatSize ≤ entrySector sb f c ∧
    entrySector sb f c < sb.fatStart + (f + 1) * sb.fatSize
  entryWhole : entryOffset sb c + 4 ≤ sb.bytesPerSector
  dataExact : clusterLba sb c = sb.fatStart + sb.numFats * sb.fatSize + (c - 2) * sb.sectorsPerCluster
  dataInside : clusterLba sb c + sb.sectorsPerCluster ≤ sb.totalSectors
  dataOnDevice : clusterLba sb c + sb.sectorsPerCluster ≤ dev.sectorCount

def LaidOut (dev : Blkdev) (sb : Super) : Prop :=
  ∀ c, 2 ≤ c → c ≤ sb.totalClusters + 1 → Placed dev sb c ∧
    ∀ d, 2 ≤ d → d ≤ sb.totalClusters + 1 → c ≠ d →
      clusterLba sb c + sb.sectorsPerCluster ≤ clusterLba sb d ∨
      clusterLba sb d + sb.sectorsPerCluster ≤ clusterLba sb c

/-- The whole clusters that fit after the FAT copies, with the sum made in 32 bits. -/
def dataClusters (dev : Blkdev) (bpb : Bpb) : Nat :=
  (min bpb.totalSectors32 dev.sectorCount -
    (bpb.reservedSectors + bpb.numFats * bpb.fatSize32) % 2^32) / bpb.sectorsPerCluster

/-- The FAT copies end below 2^32, a copy has an entry for every cluster, and the last entry's
byte offset still fits in 32 bits. A volume without a single cluster needs nothing. -/
def Roomy (dev : Blkdev) (bpb : Bpb) : Prop :=
  dataClusters dev bpb = 0 ∨
    (bpb.reservedSectors + bpb.numFats * bpb.fatSize32 < 2^32 ∧
      (dataClusters dev bpb + 2) * 4 ≤ bpb.fatSize32 * bpb.bytesPerSector ∧
      dataClusters dev bpb + 2 ≤ 2^30)

theorem Blkdev.sectorSize_pos (dev : Blkdev) : 0 < dev.sectorSize := by
  have := dev.sized
  omega

theorem Blkdev.sectorSize_dvd (dev : Blkdev) : dev.sectorSize ∣ 4096 := by
  rcases dev.sized with h | h | h | h <;> rw [h] <;> decide

theorem Blkdev.four_dvd_sectorSize (dev : Blkdev) : 4 ∣ dev.sectorSize := by
  rcases dev.sized with h | h | h | h <;> rw [h] <;> decide

theorem entry_whole (n size : Nat) (pos : 0 < size) (four : 4 ∣ size) : n * 4 % size + 4 ≤ size := by
  obtain ⟨k,rfl⟩ := four
  rw [Nat.mul_comm n 4,mul_mod_mul_left]
  have := mod_lt n (show 0 < k by omega)
  omega

section
variable {dev : Blkdev} {bpb : Bpb} {sb : Super} (accepted : Accepted dev bpb sb)
include accepted

theorem Accepted.clusters : sb.totalClusters = dataClusters dev bpb := by
  rw [accepted.totalClusters,accepted.totalSectors,accepted.dataStart,accepted.cluster,dataClusters]

theorem Accepted.clusters_fit : sb.dataStart + sb.totalClusters * sb.sectorsPerCluster ≤
    sb.totalSectors := by
  have inside := accepted.dataInside
  have part := div_mul_le_self (sb.totalSectors - sb.dataStart) sb.sectorsPerCluster
  rw [← accepted.totalClusters] at part
  omega

section
variable (small : bpb.totalSectors32 < 2^32)
include small

theorem Accepted.totalSectors_lt : sb.totalSectors < 2^32 := by
  rw [accepted.totalSectors]
  exact Nat.lt_of_le_of_lt (Nat.min_le_left _ _) small

section
variable (below : bpb.reservedSectors + bpb.numFats * bpb.fatSize32 < 2^32)
include below

theorem Accepted.lba_exact (c : Nat) (low : 2 ≤ c)
    (high : c ≤ sb.totalClusters + 1) :
    clusterLba sb c = sb.fatStart + sb.numFats * sb.fatSize + (c - 2) * sb.sectorsPerCluster ∧
      clusterLba sb c + sb.sectorsPerCluster ≤ sb.totalSectors := by
  have fit := accepted.clusters_fit
  have limit := accepted.totalSectors_lt small
  have start : sb.dataStart = sb.fatStart + sb.numFats * sb.fatSize := by
    rw [accepted.dataStart,mod_eq_of_lt below,accepted.fatStart,accepted.fats,accepted.fatSize]
  have step : (c - 2) * sb.sectorsPerCluster + sb.sectorsPerCluster ≤
      sb.totalClusters * sb.sectorsPerCluster := by
    rw [← succ_mul]
    exact mul_le_mul_right _ (by omega)
  have exact' : clusterLba sb c = sb.dataStart + (c - 2) * sb.sectorsPerCluster :=
    mod_eq_of_lt (by omega)
  exact ⟨by rw [exact',start],by omega⟩

theorem Accepted.placed
    (entries : (dataClusters dev bpb + 2) * 4 ≤ bpb.fatSize32 * bpb.bytesPerSector)
    (offsets : dataClusters dev bpb + 2 ≤ 2^30) (c : Nat) (low : 2 ≤ c) (high : c ≤ sb.totalClusters + 1) :
    Placed dev sb c := by
  have count := accepted.clusters
  have byteExact : entryByte c = c * 4 := mod_eq_of_lt (by omega)
  have sectorPos : 0 < sb.bytesPerSector := by
    rw [accepted.sector,accepted.sectorSize]
    exact dev.sectorSize_pos
  have row : entryByte c / sb.bytesPerSector < sb.fatSize := by
    rw [div_lt_iff_lt_mul sectorPos,accepted.sector,accepted.fatSize]
    omega
  obtain ⟨lba,inside⟩ := accepted.lba_exact small below c low high
  refine ⟨byteExact,?_,?_,lba,inside,Nat.le_trans inside (accepted.totalSectors ▸ Nat.min_le_right ..)⟩
  · intro f _
    simp only [Nat.add_mul,Nat.one_mul]
    exact ⟨le_add_right _ _,by rw [← Nat.add_assoc]; exact Nat.add_lt_add_left row _⟩
  rw [entryOffset,byteExact]
  apply entry_whole _ _ sectorPos
  rw [accepted.sector,accepted.sectorSize]
  exact dev.four_dvd_sectorSize

end

theorem Accepted.laidOut (roomy : Roomy dev bpb) : LaidOut dev sb := by
  intro c low high
  have count := accepted.clusters
  rcases roomy with none | ⟨below,entries,offsets⟩
  · omega
  refine ⟨accepted.placed small below entries offsets c low high,?_⟩
  intro d dLow dHigh apart
  have first := (accepted.lba_exact small below c low high).1
  have second := (accepted.lba_exact small below d dLow dHigh).1
  rcases Nat.lt_or_gt_of_ne apart with less | greater
  · left
    have gap := mul_le_mul_right sb.sectorsPerCluster (show c - 2 + 1 ≤ d - 2 by omega)
    rw [succ_mul] at gap
    omega
  right
  have gap := mul_le_mul_right sb.sectorsPerCluster (show d - 2 + 1 ≤ c - 2 by omega)
  rw [succ_mul] at gap
  omega

end

theorem Accepted.roomy (laid : LaidOut dev sb) : Roomy dev bpb := by
  have count := accepted.clusters
  by_cases none : dataClusters dev bpb = 0
  · exact .inl none
  right
  have first := (laid 2 (by omega) (by omega)).1
  have last := (laid (sb.totalClusters + 1) (by omega) (by omega)).1
  have wrapped := first.dataExact
  have bound : clusterLba sb 2 < 2^32 := mod_lt _ (by decide)
  have byteBound : entryByte (sb.totalClusters + 1) < 2^32 := mod_lt _ (by decide)
  have byteExact := last.entryExact
  have fatsPos : 0 < sb.numFats := accepted.fats ▸ accepted.fatsPos
  have row := (last.entryInside 0 fatsPos).2
  simp only [entrySector] at row
  have sectorPos : 0 < sb.bytesPerSector := by
    rw [accepted.sector,accepted.sectorSize]
    exact dev.sectorSize_pos
  have inRow : (sb.totalClusters + 1) * 4 < sb.fatSize * sb.bytesPerSector := by
    rw [← byteExact]
    exact (div_lt_iff_lt_mul sectorPos).mp (by omega)
  obtain ⟨k,four⟩ : 4 ∣ sb.fatSize * sb.bytesPerSector := by
    rw [accepted.sector,accepted.sectorSize]
    exact Nat.dvd_mul_left_of_dvd dev.four_dvd_sectorSize _
  refine ⟨?_,?_,by omega⟩
  · rw [← accepted.fatStart,← accepted.fats,← accepted.fatSize]
    omega
  · rw [← accepted.fatSize,← accepted.sector]
    omega

end

/-- For every boot sector `read_super` accepts, the layout is sound exactly when the fields
leave room for it. -/
theorem readSuper_laidOut_iff (dev : Blkdev) (sector : Nat → UInt8) (memory : Bool) (sb : Super)
    (accepted : readSuper dev sector memory = .ok sb) : LaidOut dev sb ↔ Roomy dev (Bpb.parse sector) := by
  have facts := readSuper_accepted dev sector memory sb accepted
  exact ⟨facts.roomy,facts.laidOut (le32_lt sector 32)⟩

def stick : Blkdev := ⟨512,4096,by decide,by decide⟩

/-- A boot sector with 32 reserved sectors, one sector a cluster and `fats` FAT copies of
`fatSize` sectors each. -/
def bootSector (fats fatSize : UInt8) : Nat → UInt8
  | 12 => 2 | 13 => 1 | 14 => 32 | 16 => fats | 33 => 16 | 36 => fatSize | 44 => 2
  | _ => 0

theorem stick_laidOut : ∃ sb, readSuper stick (bootSector 2 32) true = .ok sb ∧
    sb.totalClusters = 4000 ∧ LaidOut stick sb := by
  refine ⟨_,rfl,by decide,?_⟩
  exact (readSuper_laidOut_iff stick (bootSector 2 32) true _ rfl).mpr (.inr (by decide))

/-- A FAT of one sector has 128 entries for the 4063 clusters of the stick: the entry of
cluster 128 is looked for in the first data sector. -/
theorem small_fat_accepted : ∃ sb, readSuper stick (bootSector 1 1) true = .ok sb ∧
    ¬ LaidOut stick sb := by
  refine ⟨_,rfl,?_⟩
  intro laid
  have inside := ((laid 128 (by decide) (by decide)).1.entryInside 0 (by decide)).2
  exact absurd inside (by decide)

end SurfaceOS.Fat
