import SurfaceOS.Fat.Fatdir
import SurfaceOS.Fat.Steps

/-! Directory slots in the bytes of a chain. Slot `n` of a directory is the 32 bytes at `32 * n` of
its image, wherever sectors and clusters end; storing one changes these bytes alone. -/
namespace SurfaceOS.Fat
open Lib Lib.Memory Function List Nat Fatdir

variable {slot : Slot} {j n : Nat}

structure Slotted (sb : Super) : Prop extends Geometry sb where
  records : 32 ∣ sb.bytesPerSector

variable {sb : Super}

def slotAt (img : Nat → UInt8) (n : Nat) : Slot := fun j => if j < 32 then img (n * 32 + j) else 0

def Slot.Whole (s : Slot) : Prop := ∀ j, 32 ≤ j → s j = 0

theorem slotAt_patch {img : Nat → UInt8} (whole : slot.Whole) (n m : Nat) :
    slotAt (patch img (n * 32) (slice slot 0 32)) m = if m = n then slot else slotAt img m := by
  have length : (slice slot 0 32).length = 32 := slice_length ..
  funext j
  by_cases inside : j < 32
  · split
    · next same =>
      subst same
      rw [slotAt,if_pos inside,patch_inside _ _ _ _ (by omega)]
      simp [slice]
    rename_i other
    rw [slotAt,slotAt,if_pos inside,if_pos inside]
    exact patch_apart _ _ _ _ (by omega)
  · rw [slotAt,if_neg inside]
    split
    · exact (whole j (by omega)).symm
    · rw [slotAt,if_neg inside]

section
variable (slotted : Slotted sb) {c k : Nat}
include slotted

theorem Slotted.wholeSlots : sb.clusterSize = entriesPerCluster sb * 32 := by
  have whole : 32 ∣ sb.clusterSize := by
    rw [slotted.clusterSize]
    exact Nat.dvd_mul_left_of_dvd slotted.records _
  exact (Nat.div_mul_cancel whole).symm

theorem Slotted.perCluster_pos : 0 < entriesPerCluster sb := by
  have pos := slotted.toGeometry.clusterSize_pos
  rw [slotted.wholeSlots] at pos
  omega

theorem Slotted.in_sector (inside : j < 32) : (k * 32 + j) / sb.bytesPerSector = k * 32 / sb.bytesPerSector ∧
      (k * 32 + j) % sb.bytesPerSector = k * 32 % sb.bytesPerSector + j := by
  obtain ⟨w,width⟩ := slotted.records
  have same : (k * 32 + j) / sb.bytesPerSector = k * 32 / sb.bytesPerSector := by
    rw [width,← Nat.div_div_eq_div_mul,← Nat.div_div_eq_div_mul]
    congr 1
    omega
  have first := div_add_mod (k * 32 + j) sb.bytesPerSector
  have second := div_add_mod (k * 32) sb.bytesPerSector
  rw [same] at first
  exact ⟨same,by omega⟩

theorem Slotted.in_cluster (inside : j < 32) : (n * 32 + j) / sb.clusterSize = n / entriesPerCluster sb ∧
      (n * 32 + j) % sb.clusterSize = n % entriesPerCluster sb * 32 + j := by
  have same : (n * 32 + j) / sb.clusterSize = n / entriesPerCluster sb := by
    rw [slotted.wholeSlots,mul_comm (entriesPerCluster sb),← Nat.div_div_eq_div_mul]
    congr 1
    omega
  have bytes := div_add_mod (n * 32 + j) sb.clusterSize
  have slots := div_add_mod n (entriesPerCluster sb)
  rw [same,slotted.wholeSlots,mul_right_comm] at bytes
  exact ⟨same,by rw [slotted.wholeSlots]; omega⟩

theorem Slotted.spot_inside (small : k < entriesPerCluster sb) : k * 32 + 32 ≤ sb.clusterSize := by
  rw [slotted.wholeSlots]
  omega

section
variable (legal : legalCluster sb c) (small : k < entriesPerCluster sb) (disk : Disk)
include legal small disk

theorem Slotted.load : load disk (spot sb c k) = slotAt (content sb disk c) k := by
  have fits := slotted.spot_inside small
  funext j
  unfold Fatdir.load slotAt
  split
  · next inside =>
    obtain ⟨sector,offset⟩ := slotted.in_sector (k := k) inside
    rw [content,if_pos ⟨legal,by omega⟩,clusterByte,sector,offset]
    rfl
  · rfl

theorem Slotted.content_store (slot : Slot) : content sb (store disk (spot sb c k) slot) =
      update (content sb disk) c (patch (content sb disk c) (k * 32) (slice slot 0 32)) := by
  have geometry := slotted.toGeometry
  have fits := slotted.spot_inside small
  have length : (slice slot 0 32).length = 32 := slice_length ..
  have pos := geometry.sector
  funext d j
  by_cases inside : legalCluster sb d = true ∧ j < sb.clusterSize
  · obtain ⟨here,byte⟩ := geometry.sectors inside.2
    have split := Nat.div_add_mod j sb.bytesPerSector
    have start := Nat.div_add_mod (k * 32) sb.bytesPerSector
    have room : k * 32 % sb.bytesPerSector + 31 < sb.bytesPerSector := by
      rw [← (slotted.in_sector (k := k) (show 31 < 32 by decide)).2]
      exact Nat.mod_lt _ pos
    have sector : k * 32 / sb.bytesPerSector < sb.sectorsPerCluster :=
      (geometry.sectors (show k * 32 < sb.clusterSize by omega)).1
    rw [content,if_pos inside,clusterByte,store,spot]
    by_cases same : d = c
    · subst same
      rw [update_self]
      have plain : content sb disk d j = disk (clusterLba sb d + j / sb.bytesPerSector) (j % sb.bytesPerSector) := by
        rw [content,if_pos inside]
        rfl
      by_cases line : j / sb.bytesPerSector = k * 32 / sb.bytesPerSector
      · rw [line] at split
        rw [line,update_self]
        rw [line] at plain
        unfold patch
        rw [← plain]
        by_cases low : k * 32 ≤ j
        · rw [if_pos low,if_pos (by omega)]
          congr 2
          omega
        · rw [if_neg low,if_neg (by omega)]
      · have away : clusterLba sb d + j / sb.bytesPerSector ≠ clusterLba sb d + k * 32 / sb.bytesPerSector := by omega
        rw [update_of_ne away,← plain]
        exact (patch_block _ _ _ _ pos (by omega) (by omega) line).symm
    · have apart := geometry.clusters_apart legal inside.1 same here
      have away : clusterLba sb d + j / sb.bytesPerSector ≠ clusterLba sb c + k * 32 / sb.bytesPerSector := by
        intro meet
        rw [meet] at apart
        exact apart ⟨Nat.le_add_right ..,Nat.add_lt_add_left sector _⟩
      rw [update_of_ne same,update_of_ne away,content,if_pos inside]
      rfl
  · rw [content,if_neg inside]
    by_cases same : d = c
    · subst same
      have beyond : sb.clusterSize ≤ j := Nat.not_lt.mp fun less => inside ⟨legal,less⟩
      rw [update_self,patch_after _ _ _ _ (by omega),content,if_neg inside]
    · rw [update_of_ne same,content,if_neg inside]

end

theorem Slotted.table_store (legal : legalCluster sb c) (disk : Disk) (slot : Slot) :
    table sb (store disk (spot sb c k) slot) = table sb disk := by
  have geometry := slotted.toGeometry
  funext d
  unfold table
  split
  · next inside =>
    have below := geometry.entry_below_data inside geometry.fats
    have above := geometry.data_above legal
    have away : entrySector sb 0 d ≠ clusterLba sb c + k * 32 / sb.bytesPerSector := by
      generalize k * 32 / sb.bytesPerSector = sector
      omega
    unfold entry store spot
    rw [update_of_ne away]
  · rfl

section
variable {cells : List Nat} (legal : ∀ c ∈ cells, legalCluster sb c)
include legal

theorem Slotted.slotsOf_eq (disk : Disk) : slotsOf sb disk cells =
      slice (slotAt (image sb disk cells)) 0 (cells.length * entriesPerCluster sb) := by
  have pos := slotted.perCluster_pos
  have listed : cells = (List.range cells.length).map fun i => cells.getD i 0 := by
    apply ext_getElem
    · simp
    · intro i first second
      simp [first]
  have blocks : slotsOf sb disk cells = (List.range cells.length).flatMap fun i =>
      slice (fun k => Fatdir.load disk (Fatdir.spot sb (cells.getD i 0) k)) 0 (Fatdir.entriesPerCluster sb) := by
    unfold slotsOf
    conv_lhs => rw [listed]
    rw [flatMap_map]
    simp only [slice,zero_add]
  rw [blocks,flatMap_slice (fun i k => Fatdir.load disk (Fatdir.spot sb (cells.getD i 0) k)) _ _ pos]
  refine slice_congr _ _ _ _ fun n inside => ?_
  rw [zero_add]
  have block : n / entriesPerCluster sb < cells.length := (Nat.div_lt_iff_lt_mul pos).mpr inside
  have here : cells.getD (n / entriesPerCluster sb) 0 = cells[n / entriesPerCluster sb] := by
    simp [block]
  rw [here,slotted.load (legal _ (getElem_mem block)) (mod_lt n pos)]
  funext j
  unfold slotAt
  split
  · next byte =>
    obtain ⟨quotient,remainder⟩ := slotted.in_cluster (n := n) byte
    rw [image,quotient,remainder,getElem?_eq_getElem block]
  · rfl

theorem Slotted.slot_getElem? (disk : Disk) (n : Nat) : (slotsOf sb disk cells)[n]? =
      if n < cells.length * entriesPerCluster sb then some (slotAt (image sb disk cells) n) else none := by
  rw [slotted.slotsOf_eq legal]
  split
  · next inside => rw [slice_getElem? _ _ _ _ inside,zero_add]
  · next outside => exact getElem?_eq_none (by rw [slice_length]; omega)

theorem Slotted.image_store (distinct : cells.Nodup)
    (disk : Disk) (slot : Slot) (here : cells[n / entriesPerCluster sb]? = some c) :
    image sb (store disk (spot sb c (n % entriesPerCluster sb)) slot) cells =
      patch (image sb disk cells) (n * 32) (slice slot 0 32) := by
  have pos := slotted.perCluster_pos
  have small := mod_lt n pos
  have contents := slotted.content_store (legal c (mem_of_getElem? here)) small disk slot
  have length : (slice slot 0 32).length = 32 := slice_length ..
  have start := div_add_mod n (entriesPerCluster sb)
  have wholes := slotted.wholeSlots
  have size := slotted.toGeometry.clusterSize_pos
  funext i
  have place := div_add_mod i sb.clusterSize
  have inside := mod_lt i size
  have scaled : sb.clusterSize * (n / entriesPerCluster sb) + n % entriesPerCluster sb * 32 = n * 32 := by
    rw [wholes,mul_right_comm]
    omega
  by_cases block : i / sb.clusterSize = n / entriesPerCluster sb
  · have bytes : ∀ now : Disk, image sb now cells i = content sb now c (i % sb.clusterSize) := by
      intro now
      rw [image,block,here]
    rw [block] at place
    rw [bytes,contents,update_self]
    unfold patch
    rw [bytes]
    by_cases low : n * 32 ≤ i
    · rw [if_pos low,if_pos (by omega)]
      congr 2
      omega
    · rw [if_neg low,if_neg (by omega)]
  · have same : image sb (store disk (spot sb c (n % entriesPerCluster sb)) slot) cells i =
        image sb disk cells i := by
      unfold image
      cases there : cells[i / sb.clusterSize]? with
      | none => rfl
      | some d =>
        have other : d ≠ c := by
          rintro rfl
          obtain ⟨first,value⟩ := List.getElem?_eq_some_iff.mp here
          obtain ⟨second,equal⟩ := List.getElem?_eq_some_iff.mp there
          exact block (distinct.getElem_inj_iff.mp (equal.trans value.symm))
        dsimp only
        rw [contents,update_of_ne other]
    rw [same]
    exact (patch_block _ _ _ _ size (by omega) (by omega) block).symm

theorem Slotted.slotsOf_store (distinct : cells.Nodup) (disk : Disk) (whole : slot.Whole)
    (here : cells[n / entriesPerCluster sb]? = some c) :
    slotsOf sb (store disk (spot sb c (n % entriesPerCluster sb)) slot) cells =
      (slotsOf sb disk cells).set n slot := by
  apply ext_getElem?
  intro m
  have inside : n < cells.length * entriesPerCluster sb :=
    (div_lt_iff_lt_mul slotted.perCluster_pos).mp (List.getElem?_eq_some_iff.mp here).1
  rw [slotted.slot_getElem? legal,getElem?_set,slotted.slot_getElem? legal,
    slotted.image_store legal distinct disk slot here,slotAt_patch whole]
  have length : (slotsOf sb disk cells).length = cells.length * entriesPerCluster sb := by
    rw [slotted.slotsOf_eq legal,slice_length]
  by_cases same : n = m
  · subst same
    rw [if_pos inside,if_pos rfl,if_pos rfl,if_pos (by omega)]
  · rw [if_neg (Ne.symm same),if_neg same]

end

end

end SurfaceOS.Fat
