import SurfaceOS.Fat.Super

/-! FAT entries and clusters on the disk (fat.cpp). The sector cache shows every sector as it was
last written, so the volume is read and written as one store of sectors. What later proofs see of
it is `next`, the value of each entry, and `data`, the bytes of each cluster. -/
namespace SurfaceOS.Fat
open Lib.Memory Function List Nat

variable {c f g i j : Nat}

abbrev Disk := Nat → Nat → UInt8

def clusterFree : Nat := 0
def clusterBad : Nat := 0x0FFFFFF7
def clusterEoc : Nat := 0x0FFFFFF8
def countUnknown : Nat := 0xFFFFFFFF

/-- The changing part of the superblock, and the disk. `refusals` says what the next requests for
a cluster's buffers fail with: no memory for the array, no free buffer in the cache. -/
structure Vol where
  disk : Disk
  freeCount : Nat
  nextFree : Nat
  refusals : Nat → Option Errno

def Vol.asked (v : Vol) : Vol := {v with refusals := fun i => v.refusals (i + 1)}

variable (sb : Super)

def legalEntry (cluster : Nat) : Bool := 1 ≤ cluster ∧ cluster ≤ sb.totalClusters + 1

def legalCluster (cluster : Nat) : Bool := 2 ≤ cluster ∧ cluster ≤ sb.totalClusters + 1

def entryIn (disk : Disk) (f cluster : Nat) : Nat :=
  le32 (disk (entrySector sb f cluster)) (entryOffset sb cluster) % 2^28

def entry (disk : Disk) (cluster : Nat) : Nat :=
  le32 (disk (entrySector sb 0 cluster)) (entryOffset sb cluster) % 2^28

def readEntry (v : Vol) (cluster : Nat) : Except Errno Nat :=
  if legalEntry sb cluster then .ok (entry sb v.disk cluster) else .error .einval

/-- One copy's read-modify-write; the top 4 bits are preserved. -/
def writeCopy (cluster value : Nat) (disk : Disk) (f : Nat) : Disk :=
  let sector := entrySector sb f cluster
  let old := le32 (disk sector) (entryOffset sb cluster)
  update disk sector
    (patch (disk sector) (entryOffset sb cluster) (bytes32 (old / 2^28 * 2^28 + value % 2^28)))

def setEntry (v : Vol) (cluster value : Nat) : Vol :=
  {v with disk := (range sb.numFats).foldl (writeCopy sb cluster value) v.disk}

def writeEntry (v : Vol) (cluster value : Nat) : Except Errno Vol :=
  if legalEntry sb cluster then .ok (setEntry sb v cluster value) else .error .einval

def clusterByte (disk : Disk) (cluster j : Nat) : UInt8 :=
  disk (clusterLba sb cluster + j / sb.bytesPerSector) (j % sb.bytesPerSector)

def readCluster (v : Vol) (cluster : Nat) : Except Errno (List UInt8) × Vol :=
  if !legalCluster sb cluster then (.error .einval,v)
  else match v.refusals 0 with
    | some e => (.error e,v.asked)
    | none => (.ok ((range sb.sectorsPerCluster).flatMap fun i =>
        slice (v.disk (clusterLba sb cluster + i)) 0 sb.bytesPerSector),v.asked)

def writeSectors (disk : Disk) (lba : Nat) (bytes : List UInt8) : Nat → Disk
  | 0 => disk
  | i + 1 =>
    let before := writeSectors disk lba bytes i
    update before (lba + i) (patch (before (lba + i)) 0
      ((bytes.drop (i * sb.bytesPerSector)).take sb.bytesPerSector))

def setCluster (v : Vol) (cluster : Nat) (bytes : List UInt8) : Vol :=
  {v.asked with disk := writeSectors sb v.disk (clusterLba sb cluster) bytes sb.sectorsPerCluster}

def writeCluster (v : Vol) (cluster : Nat) (bytes : List UInt8) : Except Errno Unit × Vol :=
  if !legalCluster sb cluster then (.error .einval,v)
  else match v.refusals 0 with
    | some e => (.error e,v.asked)
    | none => (.ok (),setCluster sb v cluster bytes)

/-- The layout of a volume that mounts well: whole entries in whole sectors, a FAT with an entry
for every cluster, all of it counted without wrap-around, and cluster numbers below the marks. -/
structure Geometry (sb : Super) : Prop where
  sector : 0 < sb.bytesPerSector
  entries : 4 ∣ sb.bytesPerSector
  cluster : 0 < sb.sectorsPerCluster
  clusterSize : sb.clusterSize = sb.sectorsPerCluster * sb.bytesPerSector
  aligned : sb.clusterSize ∣ 2^32
  fats : 0 < sb.numFats
  room : (sb.totalClusters + 2) * 4 ≤ sb.fatSize * sb.bytesPerSector
  start : sb.dataStart = sb.fatStart + sb.numFats * sb.fatSize
  top : sb.dataStart + sb.totalClusters * sb.sectorsPerCluster < 2^32
  marks : sb.totalClusters + 1 < clusterBad

variable {sb} in
/-- A boot sector that `read_super` accepts gives such a layout when its fields leave room for a
cluster and its cluster numbers stay below the marks. -/
theorem Accepted.geometry {dev : Blkdev} {bpb : Bpb} (accepted : Accepted dev bpb sb)
    (small : bpb.totalSectors32 < 2^32) (roomy : Roomy dev bpb) (some : dataClusters dev bpb ≠ 0)
    (marks : dataClusters dev bpb + 1 < clusterBad) : Geometry sb := by
  obtain ⟨below,entries,_⟩ := roomy.resolve_left some
  have count := accepted.clusters
  have sectors : sb.bytesPerSector = dev.sectorSize := accepted.sector.trans accepted.sectorSize
  have size : sb.clusterSize = sb.sectorsPerCluster * sb.bytesPerSector := by
    rw [accepted.clusterSize,accepted.cluster,accepted.sector]
  refine ⟨?_,?_,?_,size,?_,?_,?_,?_,?_,by omega⟩
  · rw [sectors]
    exact dev.sectorSize_pos
  · rw [sectors]
    exact dev.four_dvd_sectorSize
  · rw [accepted.cluster]
    exact accepted.clusterPos
  · rw [size,accepted.cluster,sectors]
    exact Nat.dvd_trans (Nat.mul_dvd_mul accepted.clusterPower dev.sectorSize_dvd) (by decide)
  · rw [accepted.fats]
    exact accepted.fatsPos
  · rw [count,accepted.fatSize,accepted.sector]
    exact entries
  · rw [accepted.dataStart,mod_eq_of_lt below,accepted.fatStart,accepted.fats,accepted.fatSize]
  · exact Nat.lt_of_le_of_lt accepted.clusters_fit (accepted.totalSectors_lt small)

def table (disk : Disk) (c : Nat) : Nat := if legalEntry sb c then entry sb disk c else 0

def content (disk : Disk) (c j : Nat) : UInt8 :=
  if legalCluster sb c ∧ j < sb.clusterSize then clusterByte sb disk c j else 0

variable {sb}

theorem legalEntry_iff : legalEntry sb c ↔ 1 ≤ c ∧ c ≤ sb.totalClusters + 1 := by
  simp [legalEntry]

theorem legalCluster_iff : legalCluster sb c ↔ 2 ≤ c ∧ c ≤ sb.totalClusters + 1 := by
  simp [legalCluster]

theorem legalEntry_of_cluster (legal : legalCluster sb c) : legalEntry sb c := by
  rw [legalCluster_iff] at legal
  rw [legalEntry_iff]
  omega

theorem readEntry_eq (v : Vol) (legal : legalEntry sb c) : readEntry sb v c = .ok (table sb v.disk c) := by
  simp [readEntry,table,legal]

theorem writeEntry_eq (v : Vol) (value : Nat) (legal : legalEntry sb c) :
    writeEntry sb v c value = .ok (setEntry sb v c value) := by
  simp [writeEntry,legal]

theorem writeSectors_byte (disk : Disk) (lba : Nat) (bytes : List UInt8) (i s o : Nat)
    (whole : i * sb.bytesPerSector ≤ bytes.length) : writeSectors sb disk lba bytes i s o =
      if lba ≤ s ∧ s < lba + i ∧ o < sb.bytesPerSector then
        bytes.getD ((s - lba) * sb.bytesPerSector + o) 0 else disk s o := by
  induction i with
  | zero =>
    rw [if_neg (by omega)]
    rfl
  | succ i ih =>
    rw [succ_mul] at whole
    have before := ih (by omega)
    simp only [writeSectors,update_apply]
    by_cases here : s = lba + i
    · subst here
      rw [if_pos rfl]
      by_cases inside : o < sb.bytesPerSector
      · have length : ((bytes.drop (i * sb.bytesPerSector)).take sb.bytesPerSector).length =
            sb.bytesPerSector := by
          rw [length_take,length_drop]
          omega
        rw [if_pos (by omega),patch_at _ _ _ _ (zero_le o) (by omega)]
        have bound : i * sb.bytesPerSector + o < bytes.length := by omega
        simp [bound]
      · rw [if_neg (by omega),patch_after _ _ _ _ (by rw [length_take]; omega),before,if_neg (by omega)]
    · rw [if_neg here,before]
      congr 1
      simp only [eq_iff_iff]
      omega

section
variable (geometry : Geometry sb) {c d : Nat}
include geometry

section
variable (legal : legalEntry sb c)
include legal

theorem Geometry.entryByte : Fat.entryByte c = c * 4 := by
  have := geometry.marks
  rw [legalEntry_iff] at legal
  exact mod_eq_of_lt (by unfold clusterBad at this; omega)

theorem Geometry.sectorInFat : c * 4 / sb.bytesPerSector < sb.fatSize := by
  rw [div_lt_iff_lt_mul geometry.sector]
  have room := geometry.room
  rw [legalEntry_iff] at legal
  omega

theorem Geometry.entrySector (f : Nat) :
    Fat.entrySector sb f c = sb.fatStart + f * sb.fatSize + c * 4 / sb.bytesPerSector := by
  rw [Fat.entrySector,geometry.entryByte legal]

end

theorem Geometry.sector_copy (first : legalEntry sb c) (second : legalEntry sb d)
    (same : Fat.entrySector sb f c = Fat.entrySector sb g d) :
    f = g ∧ c * 4 / sb.bytesPerSector = d * 4 / sb.bytesPerSector := by
  have here := geometry.sectorInFat first
  have there := geometry.sectorInFat second
  rw [geometry.entrySector first,geometry.entrySector second] at same
  generalize c * 4 / sb.bytesPerSector = a at *
  generalize d * 4 / sb.bytesPerSector = b at *
  have copies : (a + f * sb.fatSize) / sb.fatSize = (b + g * sb.fatSize) / sb.fatSize := by
    congr 1
    omega
  have some : 0 < sb.fatSize := by omega
  rw [add_mul_div_right _ _ some,add_mul_div_right _ _ some,div_eq_of_lt here,
    div_eq_of_lt there,Nat.zero_add,Nat.zero_add] at copies
  subst copies
  exact ⟨rfl,by omega⟩

theorem Geometry.entry_below_data (legal : legalEntry sb c) (copy : f < sb.numFats) :
    Fat.entrySector sb f c < sb.dataStart := by
  have below := geometry.sectorInFat legal
  have copies : (f + 1) * sb.fatSize ≤ sb.numFats * sb.fatSize := mul_le_mul_right _ copy
  rw [geometry.entrySector legal,geometry.start]
  rw [succ_mul] at copies
  omega

theorem Geometry.clusterLba (legal : legalCluster sb c) :
    Fat.clusterLba sb c = sb.dataStart + (c - 2) * sb.sectorsPerCluster := by
  rw [legalCluster_iff] at legal
  have below : (c - 2) * sb.sectorsPerCluster ≤ sb.totalClusters * sb.sectorsPerCluster :=
    mul_le_mul_right _ (by omega)
  have top := geometry.top
  exact mod_eq_of_lt (by omega)

theorem Geometry.data_above (legal : legalCluster sb c) : sb.dataStart ≤ Fat.clusterLba sb c := by
  rw [geometry.clusterLba legal]
  exact Nat.le_add_right ..

theorem Geometry.offsets_apart (first : legalEntry sb c) (second : legalEntry sb d)
    (other : d ≠ c) (same : d * 4 / sb.bytesPerSector = c * 4 / sb.bytesPerSector) :
    entryOffset sb d + 4 ≤ entryOffset sb c ∨ entryOffset sb c + 4 ≤ entryOffset sb d := by
  obtain ⟨k,width⟩ := geometry.entries
  rw [entryOffset,entryOffset,geometry.entryByte first,geometry.entryByte second]
  rw [width] at same ⊢
  have quotients : d / k = c / k := by
    rw [Nat.mul_comm d,Nat.mul_comm c,Nat.mul_div_mul_left _ _ (by decide),
      Nat.mul_div_mul_left _ _ (by decide)] at same
    exact same
  rw [Nat.mul_comm d,Nat.mul_comm c,mul_mod_mul_left,mul_mod_mul_left]
  have remainders : d % k ≠ c % k := fun equal => other (by
    rw [← div_add_mod d k,← div_add_mod c k,quotients,equal])
  omega

section
variable (legal : legalEntry sb c) (value : Nat)
include legal value

theorem Geometry.writeCopies (disk : Disk) (k : Nat) : (∀ s, (∀ f < k, Fat.entrySector sb f c ≠ s) →
      (List.range k).foldl (writeCopy sb c value) disk s = disk s) ∧
    ∀ f < k, (List.range k).foldl (writeCopy sb c value) disk (Fat.entrySector sb f c) =
      writeCopy sb c value disk f (Fat.entrySector sb f c) := by
  induction k with
  | zero => exact ⟨fun _ _ => rfl,fun f none => absurd none (Nat.not_lt_zero f)⟩
  | succ k ih =>
    rw [range_succ,foldl_append]
    refine ⟨fun s away => ?_,fun f small => ?_⟩
    · refine (update_of_ne (Ne.symm (away k (Nat.lt_succ_self k))) ..).trans ?_
      exact ih.1 s fun f small => away f (Nat.lt_succ_of_lt small)
    by_cases last : f = k
    · subst last
      have before := ih.1 (Fat.entrySector sb f c) fun g earlier same =>
        Nat.ne_of_lt earlier (geometry.sector_copy legal legal same).1
      simp only [foldl_cons,foldl_nil,writeCopy,update_self,before]
    · refine (update_of_ne (fun same => last (geometry.sector_copy legal legal same).1) ..).trans ?_
      exact ih.2 f (by omega)

theorem Geometry.entryIn_setEntry (v : Vol) (copy : f < sb.numFats) (second : legalEntry sb d) :
    entryIn sb (setEntry sb v c value).disk f d = if d = c then value % 2^28 else entryIn sb v.disk f d := by
  obtain ⟨elsewhere,copies⟩ := geometry.writeCopies legal value v.disk sb.numFats
  have written := copies f copy
  simp only [writeCopy,update_self] at written
  dsimp only [setEntry]
  split
  · next same =>
    subst same
    rw [entryIn,written,le32_patch]
    omega
  rename_i other
  unfold entryIn
  by_cases sector : Fat.entrySector sb f d = Fat.entrySector sb f c
  · have place := (geometry.sector_copy second legal sector).2
    rw [sector,written,le32_patch_apart _ _ _ _ (geometry.offsets_apart legal second other place)]
  · rw [elsewhere _ fun g _ same => sector ?_]
    rw [(geometry.sector_copy legal second same).1] at same
    exact same.symm

theorem Geometry.table_setEntry (v : Vol) :
    table sb (setEntry sb v c value).disk = update (table sb v.disk) c (value % 2^28) := by
  funext d
  by_cases second : legalEntry sb d = true
  · have written := geometry.entryIn_setEntry legal value v geometry.fats second
    have before : table sb v.disk d = entryIn sb v.disk 0 d := if_pos second
    have after : table sb (setEntry sb v c value).disk d = entryIn sb (setEntry sb v c value).disk 0 d :=
      if_pos second
    rw [after,written,update_apply,before]
  · have other : d ≠ c := fun same => second (same ▸ legal)
    rw [update_of_ne other,table,table,if_neg second,if_neg second]

theorem Geometry.content_setEntry (v : Vol) : content sb (setEntry sb v c value).disk = content sb v.disk := by
  obtain ⟨elsewhere,_⟩ := geometry.writeCopies legal value v.disk sb.numFats
  dsimp only [setEntry]
  funext d j
  unfold content
  split
  · next inside =>
    unfold clusterByte
    rw [elsewhere _ fun f copy => ?_]
    have below := geometry.entry_below_data legal copy
    have above := geometry.data_above inside.1
    generalize j / sb.bytesPerSector = sector
    omega
  · rfl

end

theorem Geometry.sectors (inside : j < sb.clusterSize) :
    j / sb.bytesPerSector < sb.sectorsPerCluster ∧ j % sb.bytesPerSector < sb.bytesPerSector := by
  rw [geometry.clusterSize] at inside
  exact ⟨(div_lt_iff_lt_mul geometry.sector).mpr inside,mod_lt _ geometry.sector⟩

theorem Geometry.clusters_apart (first : legalCluster sb c) (second : legalCluster sb d) (other : d ≠ c)
    (small : i < sb.sectorsPerCluster) : ¬ (Fat.clusterLba sb c ≤ Fat.clusterLba sb d + i ∧
      Fat.clusterLba sb d + i < Fat.clusterLba sb c + sb.sectorsPerCluster) := by
  rw [geometry.clusterLba first,geometry.clusterLba second]
  rw [legalCluster_iff] at first second
  have order : c - 2 < d - 2 ∨ d - 2 < c - 2 := by omega
  rcases order with above | below
  · have step := mul_le_mul_right sb.sectorsPerCluster above
    rw [succ_mul] at step
    omega
  · have step := mul_le_mul_right sb.sectorsPerCluster below
    rw [succ_mul] at step
    omega

theorem Geometry.readCluster (legal : legalCluster sb c) (v : Vol) : Fat.readCluster sb v c = match v.refusals 0 with
      | some e => (.error e,v.asked)
      | none => (.ok (slice (content sb v.disk c) 0 sb.clusterSize),v.asked) := by
  simp only [Fat.readCluster,legal,Bool.not_true,Bool.false_eq_true,if_false]
  split
  · rfl
  rw [flatMap_slice (fun i => v.disk (Fat.clusterLba sb c + i)) _ _ geometry.sector,geometry.clusterSize]
  congr 2
  refine slice_congr _ _ _ _ fun j inside => ?_
  rw [Nat.zero_add,content,if_pos ⟨legal,geometry.clusterSize ▸ inside⟩]
  rfl

omit geometry in
theorem writeCluster_eq (legal : legalCluster sb c) (v : Vol) (bytes : List UInt8) :
    writeCluster sb v c bytes = match v.refusals 0 with
      | some e => (.error e,v.asked)
      | none => (.ok (),setCluster sb v c bytes) := by
  simp [writeCluster,legal]

section
variable (legal : legalCluster sb c) (v : Vol) (bytes : List UInt8) (whole : bytes.length = sb.clusterSize)
include legal v bytes whole

theorem Geometry.content_setCluster :
    content sb (setCluster sb v c bytes).disk = update (content sb v.disk) c fun j => bytes.getD j 0 := by
  dsimp only [setCluster]
  have fits : sb.sectorsPerCluster * sb.bytesPerSector ≤ bytes.length :=
    Nat.le_of_eq (whole.trans geometry.clusterSize).symm
  funext d j
  by_cases same : d = c
  · subst same
    rw [update_self]
    unfold content
    split
    · next inside =>
      obtain ⟨sector,byte⟩ := geometry.sectors inside.2
      rw [clusterByte,writeSectors_byte _ _ _ _ _ _ fits,if_pos ⟨Nat.le_add_right ..,by omega,byte⟩,
        Nat.add_sub_cancel_left,Nat.mul_comm,Nat.div_add_mod]
    rename_i outside
    have beyond : bytes.length ≤ j := by
      by_contra inside
      exact outside ⟨legal,by omega⟩
    simp [beyond]
  · rw [update_of_ne same]
    unfold content
    split
    · next inside =>
      obtain ⟨sector,_⟩ := geometry.sectors inside.2
      have apart := geometry.clusters_apart legal inside.1 same sector
      rw [clusterByte,writeSectors_byte _ _ _ _ _ _ fits,if_neg fun inside => apart ⟨inside.1,inside.2.1⟩]
      rfl
    · rfl

theorem Geometry.table_setCluster : table sb (setCluster sb v c bytes).disk = table sb v.disk := by
  dsimp only [setCluster]
  have fits : sb.sectorsPerCluster * sb.bytesPerSector ≤ bytes.length :=
    Nat.le_of_eq (whole.trans geometry.clusterSize).symm
  funext d
  unfold table
  split
  · next inside =>
    have below := geometry.entry_below_data inside geometry.fats
    have above := geometry.data_above legal
    have same : writeSectors sb v.disk (Fat.clusterLba sb c) bytes sb.sectorsPerCluster
        (Fat.entrySector sb 0 d) = v.disk (Fat.entrySector sb 0 d) := by
      funext o
      rw [writeSectors_byte _ _ _ _ _ _ fits,if_neg (by omega)]
    rw [entry,same,entry]
  · rfl

end

end

end SurfaceOS.Fat
