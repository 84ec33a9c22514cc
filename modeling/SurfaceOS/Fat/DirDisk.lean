import SurfaceOS.Fat.DirFrame
import SurfaceOS.Fat.Hints
import SurfaceOS.Fat.NoSpace

/-! The functions of `fatdir` on the disk come out as the same functions on the list of the directory's
slots. Slots are found by walking the chain, so sectors and clusters do not show. -/
namespace SurfaceOS.Fat
open Lib Lib.Memory List Nat Fatdir

variable {slot : Slot} {name11 bytes : List UInt8} {units : List Nat} {count start index m : Nat} {sb : Super}
  {aside : Nat → Prop}
  {f : Nat} {flags sum : UInt8}

structure DirAt (sb : Super) (aside : Nat → Prop) (f : Nat) (io : Io) (chains : Nat → List Nat) (slots : List Slot) :
    Prop where
  live : Live sb aside f io.forget chains
  filled : chains f ≠ []
  slots : slots = slotsOf sb io.vol.disk (chains f)

structure DirStep (sb : Super) (aside : Nat → Prop) (f : Nat) (s : Io) (chains : Nat → List Nat) (t : Io)
    (after : Nat → List Nat) (slots : List Slot) : Prop where
  kept : Kept sb aside f s.forget chains t.forget after
  dir : DirAt sb aside f t after slots

variable {s t u : Io} {chains after final : Nat → List Nat} {slots now : List Slot}

theorem DirAt.still (dir : DirAt sb aside f s chains slots) : DirStep sb aside f s chains s chains slots :=
  ⟨dir.live.kept,dir⟩

theorem DirStep.trans (first : DirStep sb aside f s chains t after slots)
    (second : DirStep sb aside f t after u final now) : DirStep sb aside f s chains u final now :=
  ⟨first.kept.trans second.kept,second.dir⟩

theorem DirAt.legal (dir : DirAt sb aside f s chains slots) : ∀ c ∈ chains f, legalCluster sb c :=
  (dir.live.alloc.chain f).legal

/-! Reading. -/

section
variable (slotted : Slotted sb) (dir : DirAt sb aside f s chains slots)
include slotted dir

theorem DirAt.first : 2 ≤ s.node.firstCluster ∧ (chains f).head? = some s.node.firstCluster := by
  have first := dir.live.on.first
  obtain ⟨c,rest,cells⟩ := exists_cons_of_ne_nil dir.filled
  rw [cells] at first ⊢
  have same : s.node.firstCluster = c := first
  rw [same]
  exact ⟨(slotted.toGeometry.below_marks (dir.legal c (by rw [cells]; simp))).1,rfl⟩

theorem DirAt.walk : walk sb s.vol (sb.totalClusters + 1) s.node.firstCluster = (chains f,none) := by
  have chain := dir.live.alloc.chain f
  have bound := chain.length_le (dir.live.alloc.distinct f)
  have first := (dir.first slotted).2
  cases cells : chains f with
  | nil => exact absurd cells dir.filled
  | cons c rest =>
    rw [cells] at first chain bound
    cases first
    rw [length_cons] at bound
    exact Chain.walk slotted.toGeometry (v := s.vol) chain (by omega)

theorem DirAt.scan : scan sb s.vol s.node.firstCluster = ⟨chains f,slots,none⟩ := by
  unfold Fatdir.scan
  rw [if_neg (not_lt.mpr (dir.first slotted).1)]
  dsimp only
  rw [dir.walk slotted,← dir.slots]
  rw [ite_self]

theorem DirAt.finds (stops : Entry → Bool) :
    (Fatdir.scan sb s.vol s.node.firstCluster).first stops = .ok ((scanDir slots).find? stops) := by
  rw [dir.scan slotted,Scan.first]
  cases (scanDir slots).find? stops <;> rfl

theorem DirAt.find (name : Name) : Fatdir.find sb s.vol s.node.firstCluster name = .ok (find slots name) :=
  dir.finds slotted _

theorem DirAt.existsShort (name11 : List UInt8) :
    Fatdir.existsShort sb s.vol s.node.firstCluster name11 = .ok (existsShort slots name11) := by
  have same : ((scanDir slots).find? (·.slot.name11 == name11)).isSome = Fat.existsShort slots name11 := by
    rw [Bool.eq_iff_iff,find?_isSome,Fat.existsShort,any_eq_true]
  rw [Fatdir.existsShort,dir.finds slotted,← same]
  rfl

theorem DirAt.numberLoop (alias11 : List UInt8) (left n : Nat) :
    Fatdir.numberLoop sb s.vol s.node.firstCluster alias11 left n = numberLoop slots alias11 left n := by
  induction left generalizing n with
  | zero => rfl
  | succ left ih =>
    rw [Fatdir.numberLoop,Fat.numberLoop,dir.existsShort slotted]
    split
    · rfl
    · cases Fat.existsShort slots (numbered alias11 n) with
      | true => exact ih (n + 1)
      | false => rfl

theorem DirAt.chooseShort (short : Short) :
    Fatdir.chooseShort sb s.vol s.node.firstCluster short = chooseShort slots short := by
  unfold Fatdir.chooseShort Fat.chooseShort
  rw [dir.numberLoop slotted,dir.existsShort slotted]
  split
  · rfl
  · cases Fat.existsShort slots short.name11 <;> rfl

theorem DirAt.length : slots.length = (chains f).length * entriesPerCluster sb := by
  rw [dir.slots,slotted.slotsOf_eq dir.legal,slice_length]

theorem DirAt.locates (inside : index < slots.length) :
    ∃ c node, (chains f)[index / entriesPerCluster sb]? = some c ∧
      slotLocation sb s index = .ok (spot sb c (index % entriesPerCluster sb),⟨s.vol,node⟩) ∧
      DirStep sb aside f s chains ⟨s.vol,node⟩ chains slots := by
  rw [dir.length slotted] at inside
  have block := (div_lt_iff_lt_mul slotted.perCluster_pos).mpr inside
  have here := getElem?_eq_getElem block
  have found := (dir.live.alloc.chain f).at slotted.toGeometry dir.live.on (index / entriesPerCluster sb)
  have moved := dir.live.on.moved here
  rw [here] at found
  generalize (chains f)[index / entriesPerCluster sb] = c at here found moved
  obtain ⟨node,same,on⟩ : ∃ node, clusterAt sb s.vol s.node (index / entriesPerCluster sb) = .ok (c,node) ∧
      node.On (chains f) := ⟨_,(clusterAt_forget ..).symm.trans found,moved⟩
  have live : Live sb aside f (Io.forget ⟨s.vol,node⟩) chains := ⟨dir.live.alloc,on⟩
  refine ⟨c,node,here,?_,⟨live,fun _ _ => rfl,fun _ _ _ _ => rfl,id⟩,live,dir.filled,dir.slots⟩
  rw [slotLocation,same]

theorem DirAt.outside (outside : slots.length ≤ index) : slotLocation sb s index = .error .enxio := by
  rw [dir.length slotted] at outside
  have block : (chains f).length ≤ index / entriesPerCluster sb :=
    (le_div_iff_mul_le slotted.perCluster_pos).mpr outside
  have found := (dir.live.alloc.chain f).at slotted.toGeometry dir.live.on (index / entriesPerCluster sb)
  rw [getElem?_eq_none block] at found
  have same : clusterAt sb s.vol s.node (index / entriesPerCluster sb) = .error .enxio :=
    (clusterAt_forget ..).symm.trans found
  rw [slotLocation,same]

section
variable {index c : Nat} (here : (chains f)[index / entriesPerCluster sb]? = some c)
include here

theorem DirAt.loads : slots[index]? = some (load s.vol.disk (spot sb c (index % entriesPerCluster sb))) := by
  have pos := slotted.perCluster_pos
  have block := (List.getElem?_eq_some_iff.mp here).1
  have inside := (div_lt_iff_lt_mul pos).mp block
  have legal := dir.legal c (mem_of_getElem? here)
  rw [dir.slots,slotted.slot_getElem? dir.legal,if_pos inside,slotted.load legal (mod_lt index pos)]
  congr 1
  funext j
  unfold slotAt
  split
  · next byte =>
    obtain ⟨quotient,remainder⟩ := slotted.in_cluster (n := index) byte
    rw [image,quotient,remainder,here]
  · rfl

theorem DirAt.puts (whole : slot.Whole) : DirStep sb aside f s chains
      (put s (spot sb c (index % entriesPerCluster sb)) slot) chains (slots.set index slot) := by
  have member := mem_of_getElem? here
  have legal := dir.legal c member
  have small := mod_lt index slotted.perCluster_pos
  have tables := slotted.table_store (k := index % entriesPerCluster sb) legal s.vol.disk slot
  have contents := slotted.content_store legal small s.vol.disk slot
  have live : Live sb aside f (put s (spot sb c (index % entriesPerCluster sb)) slot).forget chains :=
    ⟨dir.live.alloc.same tables rfl,dir.live.on⟩
  refine ⟨⟨live,fun _ _ => rfl,fun g other d theirs => ?_,id⟩,live,dir.filled,?_⟩
  · have apart : d ≠ c := by
      rintro rfl
      exact other (dir.live.alloc.part.apart g f d theirs member)
    change content sb (store s.vol.disk _ slot) d = _
    rw [contents,Function.update_of_ne apart]
    rfl
  · rw [dir.slots]
    exact (slotted.slotsOf_store dir.legal (dir.live.alloc.distinct f) s.vol.disk whole here).symm

end

theorem DirAt.grows : ∃ after,
    ((Fatdir.growDir sb s).1 = .ok () → DirStep sb aside f s chains (Fatdir.growDir sb s).2 after
      (growDir (entriesPerCluster sb) slots)) ∧
    ∀ e, (Fatdir.growDir sb s).1 = .error e → DirStep sb aside f s chains (Fatdir.growDir sb s).2 after slots := by
  obtain ⟨after,enlarged⟩ := dir.live.growsDir slotted.toGeometry rfl
  rw [growDir_forget] at enlarged
  have kept : Kept sb aside f s.forget chains (Fatdir.growDir sb s).2.forget after := enlarged.toKept
  have looks : image sb (Fatdir.growDir sb s).2.vol.disk (after f) = image sb s.vol.disk (chains f) := enlarged.looks
  have legal := (kept.live.alloc.chain f).legal
  refine ⟨after,fun ok => ?_,fun e failed => ?_⟩
  · obtain ⟨_,c,longer⟩ := enlarged.grown ok
    refine ⟨kept,kept.live,by rw [longer]; simp,?_⟩
    have beyond : slice (slotAt (image sb s.vol.disk (chains f)))
        ((chains f).length * entriesPerCluster sb) (entriesPerCluster sb) =
        List.replicate (entriesPerCluster sb) fun _ => 0 := by
      apply eq_replicate_iff.mpr
      refine ⟨slice_length ..,fun slot member => ?_⟩
      obtain ⟨k,_,rfl⟩ := mem_map.mp member
      funext j
      unfold slotAt
      split
      · next byte =>
        have quotient := (slotted.in_cluster (n := (chains f).length * entriesPerCluster sb + k) byte).1
        have far : (chains f).length ≤
            ((chains f).length * entriesPerCluster sb + k) / entriesPerCluster sb :=
          (Nat.le_div_iff_mul_le slotted.perCluster_pos).mpr (Nat.le_add_right ..)
        rw [image,quotient,getElem?_eq_none far]
      · rfl
    rw [slotted.slotsOf_eq legal,looks,longer,length_append,length_singleton,succ_mul,growDir,dir.slots,
      slotted.slotsOf_eq dir.legal,slice_add,zero_add,beyond]
  · have same := enlarged.still e failed
    subst same
    refine ⟨kept,kept.live,dir.filled,?_⟩
    rw [slotted.slotsOf_eq legal,looks,dir.slots,slotted.slotsOf_eq dir.legal]

end

/-! Writing. -/

def setAll (slots : List Slot) (writes : List (Nat × Slot)) : List Slot :=
  writes.foldl (fun slots write => slots.set write.1 write.2) slots

theorem setAll_length (slots : List Slot) (writes : List (Nat × Slot)) : (setAll slots writes).length = slots.length := by
  induction writes generalizing slots with
  | nil => rfl
  | cons w rest ih => exact (ih _).trans length_set

theorem setAll_concat (slots : List Slot) (writes : List (Nat × Slot)) (index : Nat) (slot : Slot) :
    setAll slots (writes ++ [(index,slot)]) = (setAll slots writes).set index slot := by
  unfold setAll
  rw [foldl_append]
  rfl

def placeOf (sb : Super) (cells : List Nat) (index : Nat) : Nat × Nat :=
  spot sb (cells.getD (index / entriesPerCluster sb) 0) (index % entriesPerCluster sb)

theorem patch_whole (size : bytes.length = 32) : Slot.Whole (patch (fun _ => 0) 0 bytes) :=
  fun j long => patch_after _ _ _ _ (by omega)

theorem lfnSlot_whole (units : List Nat) (sum : UInt8) (count k : Nat) : (lfnSlot units sum count k).Whole := by
  have size : (slotUnits units k).length = 13 := by simp [slotUnits]
  apply patch_whole
  simp [size]

theorem shortSlot_whole (size : name11.length = 11) (flags : UInt8) (new : Fresh) :
    (shortSlot name11 flags new).Whole := by
  apply patch_whole
  simp [size]

theorem setAll_long (fits : start + count < slots.length)
    (small : m ≤ count) (k : Nat) : (setAll slots ((range m).map fun s =>
      (start + (count - (s + 1)),lfnSlot units sum count (s + 1))))[k]? =
      if start + count - m ≤ k ∧ k < start + count then some (lfnSlot units sum count (start + count - k))
      else slots[k]? := by
  induction m with
  | zero => exact (if_neg (by omega)).symm
  | succ m ih =>
    rw [range_succ,map_append,map_singleton,setAll_concat,getElem?_set,setAll_length,ih (by omega)]
    by_cases here : start + (count - (m + 1)) = k
    · rw [if_pos here,if_pos (by omega),if_pos (by omega)]
      congr 2
      omega
    rw [if_neg here]
    by_cases inside : start + count - m ≤ k ∧ k < start + count
    · rw [if_pos inside,if_pos (by omega)]
    · rw [if_neg inside,if_neg (by omega)]

theorem setAll_newSlots {new : Fresh}
    (fits : start + count < slots.length) : setAll slots (newSlots units count name11 flags new start) =
      place slots start (recordRun units count name11 flags new) := by
  apply ext_getElem?
  intro k
  rw [newSlots,setAll_concat,getElem?_set,setAll_length,setAll_long fits (Nat.le_refl count),
    place_getElem? (by omega),recordRun_length]
  by_cases last : start + count = k
  · rw [if_pos last,if_pos (by omega),← last,recordRun]
    simp
  rw [if_neg last]
  by_cases inside : start ≤ k ∧ k < start + count
  · rw [if_pos (by omega),if_pos (by omega),recordRun,getElem?_append_left (by simp; omega)]
    simp only [getElem?_map,getElem?_range (show k - start < count by omega)]
    congr 2
    omega
  · rw [if_neg (by omega),if_neg (by omega)]

theorem freed_whole (whole : slot.Whole) : (freed slot).Whole := fun j long => by
  rw [freed,Function.update_of_ne (by omega)]
  exact whole j long

theorem load_whole (disk : Disk) (spot : Nat × Nat) : (load disk spot).Whole := fun _ long => if_neg (by omega)

section
variable (slotted : Slotted sb) (dir : DirAt sb aside f s chains slots)
include slotted dir

theorem DirAt.reserves (need fuel : Nat) :
    ∃ after now, DirStep sb aside f s chains (Fatdir.reserveRun sb need fuel s).2 after now ∧
      (∀ start, (Fatdir.reserveRun sb need fuel s).1 = .ok start → ∃ room,
        reserveRun (entriesPerCluster sb) need room slots = (.ok start,⟨now,0⟩)) ∧
      Padded slots now := by
  induction fuel generalizing s chains slots with
  | zero => exact ⟨chains,slots,dir.still,by rintro _ ⟨⟩,0,by simp⟩
  | succ fuel ih =>
    unfold Fatdir.reserveRun
    dsimp only
    rw [dir.walk slotted,← dir.slots]
    cases found : findRun need slots 0 0 0 with
    | some start =>
      refine ⟨chains,slots,dir.still,fun begin same => ⟨0,?_⟩,0,by simp⟩
      obtain rfl := Except.ok.inj same
      unfold reserveRun
      rw [found]
    | none =>
      obtain ⟨after,ok,failed⟩ := dir.grows slotted
      cases grew : Fatdir.growDir sb s with
      | mk r t =>
        rw [grew] at ok failed
        cases r with
        | error e => exact ⟨after,slots,failed e rfl,by simp,0,by simp⟩
        | ok u =>
          have step := ok rfl
          obtain ⟨last,now,final,reserved,more,same⟩ := ih step.dir
          refine ⟨last,now,step.trans final,fun start done => ?_,entriesPerCluster sb + more,?_⟩
          · obtain ⟨room,ran⟩ := reserved start done
            refine ⟨room + 1,?_⟩
            unfold reserveRun
            rw [found]
            exact ran
          · rw [same,growDir,append_assoc,replicate_append_replicate]

theorem DirAt.storesAll (writes : List (Nat × Slot))
    (inside : ∀ w ∈ writes, w.1 < slots.length ∧ w.2.Whole) (last : Nat × Nat) : ∃ t, storeAll sb s writes last =
        (.ok (writes.getLast?.elim last fun w => placeOf sb (chains f) w.1),t) ∧
      DirStep sb aside f s chains t chains (setAll slots writes) := by
  induction writes generalizing s slots last with
  | nil => exact ⟨s,rfl,dir.still⟩
  | cons w rest ih =>
    obtain ⟨index,slot⟩ := w
    obtain ⟨small,whole⟩ := inside _ (mem_cons_self ..)
    obtain ⟨c,node,here,located,moved⟩ := dir.locates slotted small
    have put := moved.dir.puts slotted here whole
    have spot : placeOf sb (chains f) index = spot sb c (index % entriesPerCluster sb) := by
      unfold placeOf
      rw [getD_eq_getElem?_getD,here]
      rfl
    obtain ⟨t,ran,stored⟩ := ih put.dir
      (fun v member => ⟨by rw [length_set]; exact (inside v (mem_cons_of_mem _ member)).1,
        (inside v (mem_cons_of_mem _ member)).2⟩) (placeOf sb (chains f) index)
    refine ⟨t,?_,moved.trans (put.trans stored)⟩
    rw [spot] at ran
    rw [storeAll,located]
    refine ran.trans ?_
    rw [← spot]
    cases rest <;> rfl

theorem DirAt.creates (name : Name) (new : Fresh) :
    ∃ after now, DirStep sb aside f s chains (Fatdir.create sb s name new).2 after now ∧
      (∀ made, (Fatdir.create sb s name new).1 = .ok made →
        (∃ room, create (entriesPerCluster sb) ⟨slots,room⟩ name new = (.ok made.index,⟨now,0⟩)) ∧
        made.spot = placeOf sb (after f) made.index) ∧
      ∀ e, (Fatdir.create sb s name new).1 = .error e → Padded slots now := by
  have unchanged : ∀ e : Errno, ∃ after now, DirStep sb aside f s chains s after now ∧
      (∀ made, (Except.error e : Except Errno Fatdir.Created) = .ok made →
        (∃ room, create (entriesPerCluster sb) ⟨slots,room⟩ name new = (.ok made.index,⟨now,0⟩)) ∧
        made.spot = placeOf sb (after f) made.index) ∧
      ∀ d, (Except.error e : Except Errno Fatdir.Created) = .error d → Padded slots now :=
    fun e => ⟨chains,slots,dir.still,nofun,fun _ _ => ⟨0,by simp⟩⟩
  unfold Fatdir.create
  by_cases valid : validName name = true
  swap
  · rw [Bool.not_eq_true] at valid
    rw [valid]
    exact unchanged .einval
  rw [valid,dir.find slotted]
  rcases found : Fat.find slots name with _ | e
  swap
  · exact unchanged .eexist
  dsimp only
  rw [dir.chooseShort slotted]
  rcases chosen : Fat.chooseShort slots (makeShortName name) with e | name11
  · exact unchanged e
  dsimp only
  generalize counted : (if (makeShortName name).needsLfn then
    slotsFor (utf8ToUcs2 nameMax name).length else 0) = count
  by_cases many : count > maxLfnEntries
  · rw [if_pos many]
    exact unchanged .enametoolong
  rw [if_neg many]
  obtain ⟨after,grown,step,reserved,padded⟩ := dir.reserves slotted (count + 1) (sb.totalClusters + 1)
  rcases ran : Fatdir.reserveRun sb (count + 1) (sb.totalClusters + 1) s with ⟨e | start,t⟩ <;>
    rw [ran] at step reserved
  · exact ⟨after,grown,step,nofun,fun _ _ => padded⟩
  obtain ⟨room,took⟩ := reserved start rfl
  obtain ⟨more,_,first⟩ := reserveRun_ok (succ_pos count) took
  have fits : start + (count + 1) ≤ grown.length := first.1.fits (succ_pos count)
  have made : create (entriesPerCluster sb) ⟨slots,room⟩ name new =
      (.ok (start + count),⟨place grown start (recordRun (utf8ToUcs2 nameMax name) count name11
        (if (makeShortName name).needsLfn then 0 else (makeShortName name).ntFlags) new),0⟩) := by
    unfold Fat.create
    rw [valid,Bool.not_true,found]
    simp only [Option.isSome_none,Bool.false_eq_true,if_false,chosen,counted,if_neg many,took]
  have size : name11.length = 11 := by
    obtain ⟨alias11,_,_,_,_,created⟩ := create_created made
    obtain rfl := Except.ok.inj (chosen.symm.trans created.chosen)
    exact created.shape.1
  have inside : ∀ w ∈ newSlots (utf8ToUcs2 nameMax name) count name11
      (if (makeShortName name).needsLfn then 0 else (makeShortName name).ntFlags) new start,
      w.1 < grown.length ∧ w.2.Whole := by
    intro w member
    rcases mem_append.mp member with long | short
    · obtain ⟨k,_,rfl⟩ := mem_map.mp long
      exact ⟨by dsimp only; omega,lfnSlot_whole _ _ _ _⟩
    · obtain rfl := mem_singleton.mp short
      exact ⟨by dsimp only; omega,shortSlot_whole size _ _⟩
  obtain ⟨u,stored,written⟩ := step.dir.storesAll slotted _ inside (0,0)
  rw [setAll_newSlots (by omega)] at written
  dsimp only
  rw [stored]
  refine ⟨after,_,step.trans written,fun done same => ?_,nofun⟩
  obtain rfl := Except.ok.inj same
  refine ⟨⟨room,made⟩,?_⟩
  rw [newSlots,getLast?_concat]
  rfl

end

section
variable (slotted : Slotted sb) (dir : DirAt sb aside f s chains slots)
include slotted dir

theorem DirAt.removesLfn (sum : UInt8) (inside : index ≤ slots.length) :
    DirStep sb aside f s chains (Fatdir.removeLfn sb sum index s) chains (removeLfn sum index slots) := by
  induction index generalizing s slots with
  | zero => exact dir.still
  | succ index ih =>
    obtain ⟨c,node,here,located,moved⟩ := dir.locates slotted inside
    have loaded := moved.dir.loads slotted here
    unfold Fatdir.removeLfn removeLfn
    rw [located,loaded]
    dsimp only
    by_cases owned : Owned sum (load s.vol.disk (spot sb c (index % entriesPerCluster sb)))
    · have put := moved.dir.puts slotted here
        (freed_whole (load_whole s.vol.disk (spot sb c (index % entriesPerCluster sb))))
      have raw := owned
      unfold Owned at raw
      rw [if_pos owned,if_pos raw]
      exact moved.trans (put.trans (ih put.dir (by rw [length_set]; omega)))
    have raw := owned
    unfold Owned at raw
    rw [if_neg owned,if_neg raw]
    exact moved

theorem DirAt.removes (index : Nat) : (Fatdir.remove sb s index).1 = (remove slots index).1 ∧
      DirStep sb aside f s chains (Fatdir.remove sb s index).2 chains (remove slots index).2 := by
  unfold Fatdir.remove remove
  rcases lt_or_ge index slots.length with inside | outside
  · obtain ⟨c,node,here,located,moved⟩ := dir.locates slotted inside
    have loaded := moved.dir.loads slotted here
    rw [located,loaded]
    dsimp only
    split
    · exact ⟨rfl,moved⟩
    · have put := moved.dir.puts slotted here
        (freed_whole (load_whole s.vol.disk (spot sb c (index % entriesPerCluster sb))))
      exact ⟨rfl,moved.trans (put.trans (put.dir.removesLfn slotted _ (by rw [length_set]; omega)))⟩
  · rw [dir.outside slotted outside,getElem?_eq_none outside]
    exact ⟨rfl,dir.still⟩

end

theorem blank_dirAt : DirAt smallVolume nothing 0 (blank.io 0) blankChains
    (slotsOf smallVolume blank.vol.disk [2]) :=
  ⟨⟨⟨blank_allocated.chain,blank_allocated.part,blank_allocated.used,.inl rfl⟩,blank_sound.starts 0⟩,by decide,rfl⟩

end SurfaceOS.Fat
