import Mathlib.Data.Nat.Digits.Lemmas
import SurfaceOS.Dev.Part
import SurfaceOS.Lib.Transition

/-! Disks that come and go (`register_disk` of drivers/usb/msc.cpp and the registry). Whatever their
partition tables hold, a partition is a piece of its disk and has a name of its own. -/
namespace SurfaceOS.Part
open Lib Usb.Msc Block Function List Option Nat

variable {a done j left b i index more n registered size : Nat} {d : Device} {sector table : Nat → UInt8}
  {r : Registry}

def numbered (n : Nat) : List UInt8 :=
  [117,115,98] ++ (if n ≥ 10 then [UInt8.ofNat (48 + n / 10)] else []) ++ [UInt8.ofNat (48 + n % 10)]

/-- The first number that no device has; more than there are entries need not be tried. -/
def diskNumber (r : Registry) : Option Nat :=
  (List.range (maxBlkdevs + 1)).find? fun n => (r.find (numbered n)).isNone

def registerDisk (g : Geometry) (gone : Bool) (env : Nat → Exchange) (heap : Heap) (d : Driver) (r : Registry) : Registry :=
  match diskNumber r with
  | none => r
  | some n =>
    match r.registerDev (numbered n) g with
    | none => r
    | some (slot,r) => (scan ⟨g,slot,numbered n,gone,env⟩ heap r d).1

inductive Action
  | plug (g : Geometry) (gone : Bool) (env : Nat → Exchange) (heap : Heap) (d : Driver)
  | pull (slot : Nat)
  | hold (i : Nat)
  | drop (i : Nat)

def Allowed (r : Registry) : Action → Prop
  | .pull slot => ∃ d, r slot = some d ∧ d.parent = none
  | _ => True

def act (r : Registry) : Action → Registry
  | .plug g gone env heap d => registerDisk g gone env heap d r
  | .pull slot => r.diskGone slot
  | .hold i => r.hold i
  | .drop i => r.drop i

abbrev Reached : Registry → Prop := Reach (fun r => r = fun _ => none) Allowed fun r a t => t = act r a

/-! Names. -/

theorem numbered_plain (small : n ≤ maxBlkdevs) : 112 ∉ numbered n ∧ (numbered n).length ≤ 10 := by
  unfold maxBlkdevs at small
  interval_cases n <;> decide

theorem digits_injective (small : a ≤ 128) (also : b ≤ 128) (same : digits a = digits b) : a = b := by
  have all : ∀ a, a < 129 → ∀ b, b < 129 → digits a = digits b → a = b := by decide +kernel
  exact all a (lt_succ_of_le small) b (lt_succ_of_le also) same

theorem digits_short (small : a ≤ 128) : (digits a).length ≤ 3 := by
  have all : ∀ a, a < 129 → (digits a).length ≤ 3 := by decide +kernel
  exact all a (lt_succ_of_le small)

theorem childName_eq {disk : List UInt8} (short : disk.length ≤ 10) (small : index ≤ 128) :
    childName disk index = disk ++ 112 :: digits index := by
  have few := digits_short small
  unfold childName
  rw [take_of_length_le short,take_of_length_le]
  rw [length_append,length_cons]
  omega

theorem split_name {a b x y : List UInt8} (plain : 112 ∉ a) (also : 112 ∉ b) (same : a ++ 112 :: x = b ++ 112 :: y) :
    a = b ∧ x = y := by
  have before {c z : List UInt8} (none : 112 ∉ c) : (c ++ 112 :: z).takeWhile (· ≠ 112) = c := by
    rw [takeWhile_append_of_pos]
    · simp
    · intro byte member
      have other : byte ≠ 112 := fun here => none (here ▸ member)
      simpa using other
  have first : a = b := by
    rw [← before plain (z := x),same,before also]
  subst first
  exact ⟨rfl,(List.cons.inj (append_cancel_left same)).2⟩

/-! What holds of the registry. -/

structure Piece (slot : Nat) (disk d : Device) (index : Nat) (lbaOffset sectorCount : UInt64) : Prop where
  parent : d.parent = some slot
  window : d.dev = .partition disk.dev lbaOffset sectorCount
  some : 0 < sectorCount.toNat
  inside : lbaOffset.toNat + sectorCount.toNat ≤ disk.dev.sectorCount.toNat
  name : d.name = disk.name ++ 112 :: digits index
  small : index ≤ 128

structure Sane (r : Registry) : Prop where
  few : ∀ i d, r i = some d → i < maxBlkdevs
  disks : ∀ i d, r i = some d → d.parent = none → (∃ g, d.dev = .disk g) ∧ ∃ n, n ≤ maxBlkdevs ∧ d.name = numbered n
  parts : ∀ i d slot, r i = some d → d.parent = some slot → ∃ disk index lbaOffset sectorCount,
    r slot = some disk ∧ disk.parent = none ∧ Piece slot disk d index lbaOffset sectorCount
  alone : ∀ i j d e, r i = some d → r j = some e → d.name = e.name → i = j

theorem Sane.plain (sane : Sane r) (here : r i = some d) (whole : d.parent = none) :
    112 ∉ d.name ∧ d.name.length ≤ 10 := by
  obtain ⟨-,n,small,name⟩ := sane.disks i d here whole
  rw [name]
  exact numbered_plain small

theorem Sane.marks {r t : Registry} (sane : Sane r)
    (same : ∀ i, (t i).map (fun d => (d.name,d.dev,d.parent)) = (r i).map fun d => (d.name,d.dev,d.parent)) : Sane t := by
  have across {x y : Option Device} {d : Device} (here : x = some d)
      (alike : y.map (fun d => (d.name,d.dev,d.parent)) = x.map fun d => (d.name,d.dev,d.parent)) :
      ∃ e, y = some e ∧ e.name = d.name ∧ e.dev = d.dev ∧ e.parent = d.parent := by
    subst here
    cases y with
    | none => simp at alike
    | some e => exact ⟨e,rfl,by simpa using alike⟩
  have back {i : Nat} {d : Device} (here : t i = some d) := across here (same i).symm
  refine ⟨fun i d here => ?_,fun i d here whole => ?_,fun i d slot here parent => ?_,fun i j d e one two name => ?_⟩
  · obtain ⟨e,there,-⟩ := back here
    exact sane.few i e there
  · obtain ⟨e,there,name,dev,same⟩ := back here
    rw [← name,← dev]
    exact sane.disks i e there (same.trans whole)
  · obtain ⟨e,there,name,dev,above⟩ := back here
    obtain ⟨disk,index,start,size,found,whole,piece⟩ := sane.parts i e slot there (above.trans parent)
    obtain ⟨also,now,label,window,above⟩ := across found (same _)
    refine ⟨also,index,start,size,now,above.trans whole,parent,?_,piece.some,?_,?_,piece.small⟩
    · rw [← dev,piece.window,window]
    · rw [window]
      exact piece.inside
    · rw [← name,piece.name,label]
  · obtain ⟨d₀,old,label,-⟩ := back one
    obtain ⟨e₀,older,tag,-⟩ := back two
    exact sane.alone i j d₀ e₀ old older (label.trans (name.trans tag.symm))

theorem Sane.collect (sane : Sane r) {disk : Nat} (whole : ∀ d, r disk = some d → d.parent = none) :
    Sane (r.collect disk) := by
  rcases r.collect_spec disk with same | left
  · rwa [same]
  rw [left]
  have kept {i : Nat} {d : Device} (here : (if i = disk ∨ r.childOf disk i then none else r i) = some d) :
      ¬ (i = disk ∨ r.childOf disk i) ∧ r i = some d := by
    split at here
    · cases here
    · next out => exact ⟨out,here⟩
  refine ⟨fun i d here => sane.few i d (kept here).2,fun i d here => sane.disks i d (kept here).2,
    fun i d slot here parent => ?_,fun i j d e one two => sane.alone i j d e (kept one).2 (kept two).2⟩
  obtain ⟨out,there⟩ := kept here
  obtain ⟨owner,index,start,size,found,above,piece⟩ := sane.parts i d slot there parent
  refine ⟨owner,index,start,size,?_,above,piece⟩
  rw [if_neg,found]
  rintro (rfl | child)
  · exact out (.inr (by simp [Registry.childOf,there,parent]))
  · simp [Registry.childOf,found,above] at child

section
variable {r : Registry} {slot e : Nat} {disk new : Device}

theorem update_cases (there : update r e (some new) j = some d) : j = e ∧ d = new ∨ r j = some d := by
  by_cases here : j = e
  · subst here
    rw [update_self] at there
    exact .inl ⟨rfl,(some.inj there).symm⟩
  · rw [update_of_ne here] at there
    exact .inr there

theorem update_kept (empty : r e = none) (there : r j = some d) : update r e (some new) j = some d := by
  rw [update_of_ne,there]
  rintro rfl
  rw [there] at empty
  cases empty

theorem Sane.add (sane : Sane r) (inRange : e < maxBlkdevs) (empty : r e = none)
    (fresh : ∀ j d, r j = some d → d.name ≠ new.name)
    (whole : new.parent = none → (∃ g, new.dev = .disk g) ∧ ∃ n, n ≤ maxBlkdevs ∧ new.name = numbered n)
    (part : ∀ slot, new.parent = some slot → ∃ disk index lbaOffset sectorCount,
      r slot = some disk ∧ disk.parent = none ∧ Piece slot disk new index lbaOffset sectorCount) :
    Sane (update r e (some new)) := by
  have owner {j slot : Nat} {d : Device} (found : ∃ disk index lbaOffset sectorCount,
      r slot = some disk ∧ disk.parent = none ∧ Piece slot disk d index lbaOffset sectorCount) :
      ∃ disk index lbaOffset sectorCount, update r e (some new) slot = some disk ∧ disk.parent = none ∧
        Piece slot disk d index lbaOffset sectorCount := by
    obtain ⟨disk,index,start,size,here,rest⟩ := found
    exact ⟨disk,index,start,size,update_kept empty here,rest⟩
  refine ⟨fun j d there => ?_,fun j d there => ?_,fun j d slot there parent => ?_,fun j k d f one two name => ?_⟩
  · rcases update_cases there with ⟨rfl,-⟩ | old
    · exact inRange
    · exact sane.few j d old
  · rcases update_cases there with ⟨-,rfl⟩ | old
    · exact whole
    · exact sane.disks j d old
  · rcases update_cases there with ⟨-,rfl⟩ | old
    · exact owner (j := j) (part slot parent)
    · exact owner (j := j) (sane.parts j d slot old parent)
  rcases update_cases one with ⟨rfl,rfl⟩ | old
  · rcases update_cases two with ⟨rfl,-⟩ | older
    · rfl
    · exact absurd name.symm (fresh k f older)
  · rcases update_cases two with ⟨rfl,rfl⟩ | older
    · exact absurd name (fresh j d old)
    · exact sane.alone j k d f old older name

structure Scanned (r : Registry) (slot : Nat) (disk : Device) (done : Nat) : Prop where
  sane : Sane r
  here : r slot = some disk
  whole : disk.parent = none
  named : ∀ j d, r j = some d → d.parent = some slot → ∃ index ≤ done, d.name = disk.name ++ 112 :: digits index

section
variable (scanned : Scanned r slot disk done)
include scanned

theorem Scanned.later (less : done ≤ more) :
    Scanned r slot disk more := by
  refine ⟨scanned.sane,scanned.here,scanned.whole,fun j d there parent => ?_⟩
  obtain ⟨index,small,name⟩ := scanned.named j d there parent
  exact ⟨index,le_trans small less,name⟩

theorem Scanned.fresh (small : done < 128)
    (there : r j = some d) : d.name ≠ disk.name ++ 112 :: digits (done + 1) := by
  intro same
  have plain := (scanned.sane.plain scanned.here scanned.whole).1
  cases parent : d.parent with
  | none =>
    apply (scanned.sane.plain there parent).1
    rw [same]
    simp
  | some above =>
    obtain ⟨owner,index,start,size,found,whole,piece⟩ := scanned.sane.parts j d above there parent
    obtain ⟨one,two⟩ := split_name (scanned.sane.plain found whole).1 plain (piece.name.symm.trans same)
    obtain rfl := scanned.sane.alone above slot owner disk found scanned.here one
    obtain ⟨k,less,name⟩ := scanned.named j d there parent
    have equal := (split_name plain plain (name.symm.trans same)).2
    have number := digits_injective (by omega) (by omega) equal
    omega

theorem Scanned.registers {start size : UInt64} (small : done < 128)
    (some : 0 < size.toNat) (inside : start.toNat + size.toNat ≤ disk.dev.sectorCount.toNat) :
    Scanned (registerChild r slot disk.name (done + 1) start size) slot disk (done + 1) := by
  obtain ⟨plain,short⟩ := scanned.sane.plain scanned.here scanned.whole
  unfold registerChild Registry.allocPartition
  rw [scanned.here]
  cases free : r.freeEntry with
  | none => exact scanned.later (le_succ done)
  | some e =>
    have narrow : ¬ start + size > disk.dev.sectorCount := by
      rw [gt_iff_lt,UInt64.lt_iff_toNat_lt,UInt64.toNat_add]
      omega
    have label : (childName disk.name (done + 1)).take Registry.nameRoom = disk.name ++ 112 :: digits (done + 1) := by
      have few := digits_short (by omega : done + 1 ≤ 128)
      rw [childName_eq short (by omega),take_of_length_le]
      rw [length_append,length_cons]
      unfold Registry.nameRoom
      omega
    obtain ⟨inRange,empty⟩ := Registry.freeEntry_spec free
    simp only [Block.allocPartition,if_neg narrow,label]
    refine ⟨scanned.sane.add inRange empty (fun j d there => scanned.fresh small there) (by simp) ?_,
      update_kept empty scanned.here,scanned.whole,fun j d there parent => ?_⟩
    · rintro above parent
      obtain rfl := Option.some.inj parent
      exact ⟨disk,done + 1,start,size,scanned.here,scanned.whole,rfl,rfl,some,inside,rfl,by omega⟩
    rcases update_cases there with ⟨-,rfl⟩ | old
    · exact ⟨done + 1,le_refl _,rfl⟩
    · obtain ⟨index,less,name⟩ := scanned.named j d old parent
      exact ⟨index,le_succ_of_le less,name⟩

end

variable {m : Medium}

section
variable (medium : m.slot = slot) (name : m.name = disk.name) (count : m.sectorCount = disk.dev.sectorCount)
include medium name count

theorem gptLoop_scanned {l : Loop} (few : done + left ≤ 128)
    (scanned : Scanned l.registry slot disk done) :
    Scanned (gptLoop m table size left done l).registry slot disk 128 := by
  fun_induction gptLoop m table size left done l with
  | case1 | case4 => exact scanned.later (by omega)
  | case2 _ done _ _ _ _ ih | case3 _ done _ _ _ _ _ ih => exact ih (by omega) (scanned.later (le_succ done))
  | case5 left done l e _ _ range _ ih =>
    refine ih (by omega) ?_
    rw [count,ge_iff_le,UInt64.lt_iff_toNat_lt,UInt64.le_iff_toNat_le] at range
    have wide := disk.dev.sectorCount.toNat_lt
    have length : (e.lastLba - e.firstLba + 1).toNat = e.lastLba.toNat - e.firstLba.toNat + 1 := by
      rw [UInt64.toNat_add,UInt64.toNat_sub_of_le _ _ (UInt64.le_iff_toNat_le.mpr (by omega))]
      simp only [UInt64.reduceToNat]
      omega
    rw [medium,name]
    exact scanned.registers (by omega) (by omega) (by omega)

theorem mbrLoop_scanned (few : done + left ≤ 128)
    (scanned : Scanned r slot disk done) : Scanned (mbrLoop m sector left done registered r) slot disk 128 := by
  induction left generalizing done registered r with
  | zero => exact scanned.later (by omega)
  | succ left ih =>
    have skipped := scanned.later (le_succ done)
    rw [mbrLoop]
    generalize mbrEntry sector done = e
    split
    · exact ih (by omega) skipped
    split
    · exact ih (by omega) skipped
    split
    · exact ih (by omega) skipped
    rename_i range
    have start := e.lbaStart.toNat_lt
    have size := e.lbaSize.toNat_lt
    obtain ⟨some,inside⟩ := not_or.mp range
    rw [count,gt_iff_lt,UInt64.lt_iff_toNat_lt,UInt64.toNat_add,UInt32.toNat_toUInt64,UInt32.toNat_toUInt64] at inside
    have positive : 0 < e.lbaSize.toNat :=
      pos_of_ne_zero fun zero => some (UInt32.toNat_inj.mp zero)
    have next : Scanned (registerChild r m.slot m.name (done + 1) e.lbaStart.toUInt64
        e.lbaSize.toUInt64) slot disk (done + 1) := by
      rw [medium,name]
      refine scanned.registers (by omega) ?_ ?_
      · rwa [UInt32.toNat_toUInt64]
      · rw [UInt32.toNat_toUInt64,UInt32.toNat_toUInt64]
        omega
    split
    · exact next.later (by omega)
    · exact ih (by omega) next

end

theorem scan_sane (heap : Heap) (d : Driver) (medium : m.slot = slot) (name : m.name = disk.name)
    (count : m.sectorCount = disk.dev.sectorCount) (scanned : Scanned r slot disk 0) : Sane (scan m heap r d).1 := by
  fun_cases scan m heap r d with
  | case4 _ _ _ _ _ h d =>
    fun_cases parseGpt m heap h r d with
    | case5 _ num range =>
      have few : num.toNat ≤ 128 := by
        simp only [not_or,UInt32.lt_iff_toNat_lt,not_lt] at range
        exact range.2.2
      exact (gptLoop_scanned (l := ⟨r,0,[]⟩) medium name count (by omega) scanned).sane
    | _ => exact scanned.sane
  | case5 => exact (mbrLoop_scanned medium name count (by decide) scanned).sane
  | _ => exact scanned.sane

end

theorem registerDisk_sane (sane : Sane r) (g : Geometry) (gone : Bool) (env : Nat → Exchange) (heap : Heap)
    (d : Driver) : Sane (registerDisk g gone env heap d r) := by
  unfold registerDisk
  split
  · exact sane
  rename_i n number
  have small : n < maxBlkdevs + 1 := mem_range.mp (mem_of_find?_eq_some number)
  have new : r.find (numbered n) = none := by simpa using find?_some number
  unfold Registry.registerDev
  cases free : r.freeEntry with
  | none => exact sane
  | some e =>
    obtain ⟨inRange,empty⟩ := Registry.freeEntry_spec free
    have added : Sane (update r e (some ⟨numbered n,.disk g,none,false,0⟩)) := sane.add inRange empty
      (fun j f there => Registry.find_none new (sane.few j f there) there)
      (fun _ => ⟨⟨g,rfl⟩,n,le_of_lt_succ small,rfl⟩) (by simp)
    have scanned : Scanned (update r e (some ⟨numbered n,.disk g,none,false,0⟩)) e
        ⟨numbered n,.disk g,none,false,0⟩ 0 := by
      refine ⟨added,update_self ..,rfl,fun j f there parent => ?_⟩
      -- nothing was a partition of a free entry
      rcases update_cases there with ⟨-,rfl⟩ | old
      · cases parent
      · obtain ⟨owner,-,-,-,found,-⟩ := sane.parts j f e old parent
        rw [found] at empty
        cases empty
    exact scan_sane heap d rfl rfl rfl scanned

theorem act_sane (sane : Sane r) (a : Action) (allowed : Allowed r a) : Sane (act r a) := by
  have marked (i : Nat) (change : Device → Device) (same : ∀ d, (change d).name = d.name ∧ (change d).dev = d.dev ∧
      (change d).parent = d.parent) : Sane (update r i ((r i).map change)) := by
    refine sane.marks fun j => ?_
    by_cases here : j = i
    · subst here
      rw [update_self]
      cases r j with
      | none => rfl
      | some d => simp [same d]
    · rw [update_of_ne here]
  cases a with
  | plug g gone env heap d => exact registerDisk_sane sane g gone env heap d
  | pull slot =>
    obtain ⟨d,here,whole⟩ := allowed
    refine (marked slot (fun d => {d with gone := true}) fun d => ⟨rfl,rfl,rfl⟩).collect fun f there => ?_
    rw [update_self,here] at there
    rw [← some.inj there]
    exact whole
  | hold i => exact marked i (fun d => {d with users := d.users + 1}) fun d => ⟨rfl,rfl,rfl⟩
  | drop i =>
    refine (marked i (fun d => {d with users := if d.users ≠ 0 then d.users - 1 else d.users})
      fun d => ⟨rfl,rfl,rfl⟩).collect fun f there => ?_
    cases here : r i with
    | none => simp [Registry.diskOf,here] at there
    | some d =>
      cases parent : d.parent with
      | none =>
        simp only [Registry.diskOf,here,bind_some,parent,getD_none,update_self,
          map_some] at there
        rw [← some.inj there]
      | some slot =>
        obtain ⟨disk,-,-,-,found,whole,-⟩ := sane.parts i d slot here parent
        have other : slot ≠ i := by
          rintro rfl
          obtain rfl := some.inj (here.symm.trans found)
          rw [parent] at whole
          cases whole
        simp only [Registry.diskOf,here,bind_some,parent,getD_some,update_of_ne other,found] at there
        rw [← some.inj there]
        exact whole

theorem Reached.sane (reached : Reached r) : Sane r := by
  refine Reach.invariant Sane ?_ ?_ r reached
  · rintro _ rfl
    exact ⟨by simp,by simp,by simp,by simp⟩
  · rintro r a _ sane allowed rfl
    exact act_sane sane a allowed

/-- Whatever the disks hold, and in whatever order they are plugged in, mounted and pulled out: every
partition is a range of at least one sector in a disk that is there, and no two devices have one name. -/
theorem partitions_inside {r : Registry} (reached : Reached r) :
    (∀ i d slot, r i = some d → d.parent = some slot → ∃ disk lbaOffset sectorCount, r slot = some disk ∧
      disk.parent = none ∧ d.dev = .partition disk.dev lbaOffset sectorCount ∧ 0 < sectorCount.toNat ∧
      lbaOffset.toNat + sectorCount.toNat ≤ disk.dev.sectorCount.toNat) ∧
    ∀ i j d e, r i = some d → r j = some e → d.name = e.name → i = j := by
  have sane := reached.sane
  refine ⟨fun i d slot here parent => ?_,sane.alone⟩
  obtain ⟨disk,index,start,size,found,whole,piece⟩ := sane.parts i d slot here parent
  exact ⟨disk,start,size,found,whole,piece.window,piece.some,piece.inside⟩

/-- A stick with a table of two: a FAT32 partition of 1000 sectors from sector 64 on, and one that ends
behind the stick. -/
def tableSector : List UInt8 :=
  replicate 446 0 ++ [0,0,0,0,0x0C,0,0,0,64,0,0,0,0xE8,3,0,0] ++ [0,0,0,0,0x0C,0,0,0,64,0,0,0,0,16,0,0] ++
    replicate 32 0 ++ [0x55,0xAA]

def plugStick : Action :=
  .plug stick false (fun _ => {obliging with data := ⟨true,.success,tableSector,false⟩})
    ⟨true,true,true,true,fun _ => 0⟩ attached

theorem partitions_inside_stick : ((act (fun _ => none) plugStick 1).map fun d => (d.name,d.parent)) =
    some ([117,115,98,48,112,49],some 0) ∧ (act (fun _ => none) plugStick 2).isNone ∧
    ∀ i j d e, act (fun _ => none) plugStick i = some d → act (fun _ => none) plugStick j = some e →
      d.name = e.name → i = j :=
  ⟨by decide +kernel,by decide +kernel,
    (partitions_inside (.next (fun _ => none) _ plugStick (.start _ rfl) trivial rfl)).2⟩

end SurfaceOS.Part
