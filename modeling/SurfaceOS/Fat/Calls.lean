import SurfaceOS.Fat.Arrays
import SurfaceOS.Lib.Transition

/-! Calls on the files of a volume, in any order. The volume implements one byte array a file, and
whatever calls come, failed ones included, its clusters stay shared out among the files. -/
namespace SurfaceOS.Fat
open Lib Lib.Memory Nat
open Function (update update_eq_self update_of_ne update_self)

structure Files where
  vol : Vol
  nodes : Nat → Node

def Files.io (s : Files) (f : Nat) : Io := ⟨s.vol,s.nodes f⟩

def Files.set (s : Files) (f : Nat) (io : Io) : Files := ⟨io.vol,update s.nodes f io.node⟩

inductive Call
  | read (f off len : Nat)
  | write (f off : Nat) (src : List UInt8)
  | truncate (f size : Nat)

inductive Answer
  | bytes (read : List UInt8)
  | wrote (done : Nat)
  | sized
  | refused (done : Nat)
  deriving DecidableEq

def Files.call (sb : Super) (s : Files) : Call → Files × Answer
  | .read f off len =>
    let out := readAt sb (s.io f) off len
    (s.set f out.io,match out.error with
      | none => .bytes out.bytes
      | some _ => .refused out.bytes.length)
  | .write f off src => match writeAt sb (s.io f) off src with
    | (.ok _,done,io) => (s.set f io,.wrote done)
    | (.error _,done,io) => (s.set f io,.refused done)
  | .truncate f size => match truncate sb (s.io f) size with
    | (.ok _,io) => (s.set f io,.sized)
    | (.error _,io) => (s.set f io,.refused 0)

abbrev Arrays := Nat → List UInt8

def Arrays.call (a : Arrays) : Call → Arrays × Answer
  | .read f off len => (a,.bytes (((a f).drop off).take len))
  | .write f off src =>
    if src = [] then (a,.wrote 0)
    else if off + src.length ≤ sizeLimit then
      (update a f (overwrite (a f) off src),.wrote src.length)
    else (a,.refused 0)
  | .truncate f size =>
    if size ≤ sizeLimit then (update a f (resize (a f) size),.sized)
    else (a,.refused 0)

variable {sb : Super} {aside : Nat → Prop} {regular : Nat → Bool} {s : Files} {a : Arrays} {f : Nat} {t : Io}
  {chains after : Nat → List Nat} {bytes : List UInt8}

/-- Every regular file of the volume holds its array. Other chains, those of directories, may hold
anything. -/
structure Shows (sb : Super) (aside : Nat → Prop) (regular : Nat → Bool) (s : Files) (a : Arrays)
    (chains : Nat → List Nat) : Prop where
  alloc : Allocated sb aside s.vol chains
  holding : ∀ f, regular f → Holding sb aside f (s.io f) chains (a f)
  grants : Grants s.vol

def Represents (sb : Super) (aside : Nat → Prop) (regular : Nat → Bool) (s : Files) (a : Arrays) : Prop :=
  ∃ chains, Shows sb aside regular s a chains

section
variable (shows : Shows sb aside regular s a chains) (kept : Kept sb aside f (s.io f) chains t after)
include shows kept

theorem Shows.set (holding : Holding sb aside f t after bytes) :
    Shows sb aside regular (s.set f t) (update a f bytes) after where
  alloc := kept.live.alloc
  holding g file := by
    by_cases here : g = f
    · subst here
      have same : (s.set g t).io g = t := by simp [Files.io,Files.set]
      rw [same,update_self]
      exact holding
    have before := shows.holding g file
    have node : ((s.set f t).io g).node = s.nodes g := update_of_ne here ..
    rw [update_of_ne here]
    refine ⟨⟨kept.live.alloc,?_⟩,?_⟩
    · rw [node,kept.others g here]
      exact before.on
    rw [node,kept.others g here]
    have looks := kept.image here
    rw [kept.others g here] at looks
    exact looks.symm ▸ before.stores
  grants := kept.grants shows.grants

theorem Shows.stay (holding : Holding sb aside f t after (a f)) : Shows sb aside regular (s.set f t) a after := by
  have set := shows.set kept holding
  rwa [update_eq_self] at set

end

/-- What is promised of a call: the file is a regular one, `fat_read` and `fat_write` are asked for
no more than a piece, and the clusters it adds are there. -/
def Admitted (sb : Super) (regular : Nat → Bool) (s : Files) : Call → Prop
  | .read f _ len => regular f ∧ len ≤ piece
  | .write f off src => regular f ∧ off < 2^64 ∧ src.length ≤ piece ∧ (src = [] ∨
      needed sb (s.nodes f).size ((off + src.length) % 2^64) ≤ freeEntries sb (table sb s.vol.disk))
  | .truncate f size => regular f ∧ needed sb (s.nodes f).size size ≤ freeEntries sb (table sb s.vol.disk)

instance (sb : Super) (regular : Nat → Bool) (s : Files) (c : Call) : Decidable (Admitted sb regular s c) := by
  cases c <;> unfold Admitted <;> infer_instance

theorem represents_of_exact (geometry : Geometry sb) (alloc : Allocated sb aside s.vol chains)
    (on : ∀ f, regular f → (s.nodes f).On (chains f))
    (exact_ : ∀ f, regular f → (chains f).length = clustersFor sb (s.nodes f).size)
    (limit : ∀ f, regular f → (s.nodes f).size ≤ sizeLimit) (grants : Grants s.vol) :
    Represents sb aside regular s fun f => slice (image sb s.vol.disk (chains f)) 0 (s.nodes f).size := by
  refine ⟨chains,alloc,fun f file => ⟨⟨alloc,on f file⟩,?_⟩,grants⟩
  have length : (slice (image sb s.vol.disk (chains f)) 0 (s.nodes f).size).length = (s.nodes f).size :=
    slice_length ..
  refine ⟨length.symm,?_,?_,fun i beyond => ?_,?_⟩
  · rw [length]
    exact limit f file
  · rw [length]
    rfl
  · rw [length,roundUp,← exact_ f file] at beyond
    have outside : (chains f).length ≤ i / sb.clusterSize :=
      (le_div_iff_mul_le geometry.clusterSize_pos).mpr beyond
    simp only [image,List.getElem?_eq_none outside]
  · rw [length]
    exact le_of_eq (exact_ f file).symm

def Alike (sb : Super) (aside : Nat → Prop) (regular : Nat → Bool) (s : Files) (a : Arrays) (c : Call) : Prop :=
  Represents sb aside regular (s.call sb c).1 (a.call c).1 ∧ (s.call sb c).2 = (a.call c).2

section
variable (geometry : Geometry sb) (shows : Shows sb aside regular s a chains)
include geometry shows

theorem Shows.reads {off len : Nat} (admitted : Admitted sb regular s (.read f off len)) :
    Alike sb aside regular s a (.read f off len) := by
  have holding := shows.holding f admitted.1
  obtain ⟨kept,reaches⟩ := holding.toLive.readsAt geometry off len
  obtain ⟨fine,read,same⟩ := reaches admitted.2 (a f) holding shows.grants
  refine ⟨⟨chains,shows.stay kept same⟩,?_⟩
  simp only [Files.call,Arrays.call,fine,read]

theorem Shows.writes {off : Nat} {src : List UInt8} (admitted : Admitted sb regular s (.write f off src)) :
    Alike sb aside regular s a (.write f off src) := by
  obtain ⟨file,large,small,free⟩ := admitted
  have holding := shows.holding f file
  have sizes : (s.nodes f).size = (a f).length := holding.stores.size
  rcases Decidable.em (src = []) with rfl | some
  · have nothing : s.set f (s.io f) = s := by simp [Files.set,Files.io]
    simp only [Alike,Files.call,Arrays.call,writeAt,List.length_nil,if_pos,nothing]
    exact ⟨⟨chains,shows⟩,trivial⟩
  obtain ⟨r,done,t,after,ran,kept,reaches⟩ := holding.toLive.writesAt geometry off src
  have enough := free.resolve_left some
  rw [sizes] at enough
  rcases reaches large small (a f) holding shows.grants enough with
    ⟨none,_⟩ | ⟨_,limit,rfl,rfl,holds⟩ | ⟨_,beyond,failed,rfl,holds⟩
  · exact absurd none some
  · simp only [Alike,Files.call,Arrays.call,ran,if_neg some,if_pos limit]
    exact ⟨⟨after,shows.set kept holds⟩,trivial⟩
  simp only [Alike,Files.call,Arrays.call,ran,if_neg some,if_neg (not_le.mpr beyond)]
  cases r with
  | ok _ => exact absurd rfl failed
  | error e => exact ⟨⟨after,shows.stay kept holds⟩,rfl⟩

theorem Shows.truncates {size : Nat} (admitted : Admitted sb regular s (.truncate f size)) :
    Alike sb aside regular s a (.truncate f size) := by
  obtain ⟨file,free⟩ := admitted
  have holding := shows.holding f file
  obtain ⟨r,t,after,ran,kept,reaches⟩ := holding.toLive.truncates geometry size
  have sizes : (s.nodes f).size = (a f).length := holding.stores.size
  rw [sizes] at free
  rcases reaches (a f) holding shows.grants free with ⟨limit,rfl,holds⟩ | ⟨beyond,failed,holds⟩
  · simp only [Alike,Files.call,Arrays.call,ran,if_pos limit]
    exact ⟨⟨after,shows.set kept holds⟩,trivial⟩
  simp only [Alike,Files.call,Arrays.call,ran,if_neg (not_le.mpr beyond)]
  cases r with
  | ok _ => exact absurd rfl failed
  | error e => exact ⟨⟨after,shows.stay kept holds⟩,rfl⟩

end

abbrev nothing : Nat → Prop := fun _ => False

def smallStick : Blkdev := {stick with sectorCount := 36, counted := by decide}

def smallVolume : Super where
  bytesPerSector := 512
  sectorsPerCluster := 1
  clusterSize := 512
  reservedSectors := 32
  numFats := 1
  fatSize := 1
  fatStart := 32
  dataStart := 33
  rootCluster := 2
  totalSectors := 36
  totalClusters := 3
  fsinfoSector := 0

theorem smallVolume_geometry : Geometry smallVolume :=
  (readSuper_accepted smallStick (bootSector 1 1) true _ rfl).geometry (by decide) (.inr (by decide)) (by decide) (by decide)

def blank : Files where
  vol := {
    disk := fun s i => if s = 32 then (match i with | 8 => 0xF8 | 9 => 0xFF | 10 => 0xFF | 11 => 0x0F | _ => 0) else 0
    freeCount := 2
    nextFree := 3
    refusals := fun _ => none}
  nodes := fun f => if f = 0 then ⟨2,0,0,0,false⟩ else ⟨0,0,0,0,false⟩

def blankChains (f : Nat) : List Nat := if f = 0 then [2] else []

theorem blank_allocated : Allocated smallVolume nothing blank.vol blankChains := by
  have single : ∀ f c, c ∈ blankChains f ↔ f = 0 ∧ c = 2 := by
    intro f c
    unfold blankChains
    split <;> simp [*]
  refine ⟨fun f => ?_,⟨fun f => ?_,fun f g c first second => ?_,fun c => ?_⟩,nofun,.inr (by decide +kernel)⟩
  · refine ⟨?_,fun c member => ?_⟩
    · unfold blankChains
      split
      · change clusterEoc ≤ table smallVolume blank.vol.disk 2
        decide +kernel
      · trivial
    · rw [((single f c).mp member).2]
      rfl
  · unfold blankChains
    split <;> simp
  · exact ((single f c).mp first).1.trans ((single g c).mp second).1.symm
  · simp only [single,not_false_eq_true,and_true]
    constructor
    · rintro ⟨legal,used⟩
      rw [legalCluster_iff] at legal
      change 2 ≤ c ∧ c ≤ 4 at legal
      obtain rfl | rfl | rfl : c = 2 ∨ c = 3 ∨ c = 4 := by omega
      · exact ⟨0,rfl,rfl⟩
      · exact absurd (by decide +kernel) used
      · exact absurd (by decide +kernel) used
    · rintro ⟨f,_,rfl⟩
      exact ⟨rfl,by decide +kernel⟩

theorem blank_represents : Represents smallVolume nothing (· != 0) blank fun _ => [] := by
  have files : ∀ f : Nat, (f != 0) = true → blank.nodes f = ⟨0,0,0,0,false⟩ ∧ blankChains f = [] := by
    intro f file
    have other : f ≠ 0 := by simpa using file
    exact ⟨if_neg other,if_neg other⟩
  have empty : ∀ f, (blank.nodes f).size = 0 := by
    intro f
    unfold blank
    dsimp only
    split <;> rfl
  have shown : Represents smallVolume nothing (· != 0) blank
      fun f => slice (image smallVolume blank.vol.disk (blankChains f)) 0 (blank.nodes f).size := by
    refine represents_of_exact smallVolume_geometry blank_allocated (fun f file => ?_) (fun f file => ?_)
      (fun f _ => ?_) fun _ => rfl
    · rw [(files f file).1,(files f file).2]
      exact ⟨rfl,.inl (by decide)⟩
    · rw [(files f file).2,empty f]
      rfl
    · rw [empty f]
      decide
  have same : (fun f => slice (image smallVolume blank.vol.disk (blankChains f)) 0 (blank.nodes f).size) =
      fun _ => [] := by
    funext f
    rw [empty f]
    rfl
  rwa [same] at shown

/-- On a well-formed volume every file behaves as its own byte array, whatever calls are made. -/
theorem files_are_arrays (geometry : Geometry sb) (start : Represents sb aside regular s a) (calls : List Call)
    (admitted : Along (Files.call sb) (Admitted sb regular) s calls) :
    Represents sb aside regular (answers (Files.call sb) s calls).1 (answers Arrays.call a calls).1 ∧
      (answers (Files.call sb) s calls).2 = (answers Arrays.call a calls).2 := by
  refine answers_simulate (Represents sb aside regular) (fun s a c represents allowed => ?_) calls s a start admitted
  obtain ⟨chains,shows⟩ := represents
  cases c with
  | read f off len => exact shows.reads geometry allowed
  | write f off src => exact shows.writes geometry allowed
  | truncate f size => exact shows.truncates geometry allowed

theorem files_are_arrays_small :
    (answers (Files.call smallVolume) blank [.write 1 510 [7,8,9],.truncate 1 511,.truncate 1 514,
      .read 1 509 10]).2 = [.wrote 3,.sized,.sized,.bytes [0,7,0,0,0]] := by
  rw [(files_are_arrays smallVolume_geometry blank_represents _ (by decide +kernel)).2]
  decide +kernel

/-- The operations that touch the chains. `append` is a turn of the loop in `extend_to`, the one
caller of `chain_append`; a file is freed when it goes, and its number is then free for another. -/
inductive Op
  | call (c : Call)
  | append (f : Nat)
  | free (f : Nat)

def Node.empty : Node := ⟨0,0,0,0,false⟩

def Files.apply (sb : Super) (s : Files) : Op → Files
  | .call c => (s.call sb c).1
  | .append f => s.set f (growLoop sb 1 (s.io f)).2
  | .free f => s.set f ⟨(freeChain sb s.vol (s.nodes f).firstCluster).2,Node.empty⟩

structure Sound (sb : Super) (s : Files) (chains : Nat → List Nat) : Prop where
  starts : ∀ f, (s.nodes f).On (chains f)
  linked : ∀ f, Linked (table sb s.vol.disk) (clusterEoc ≤ ·) (chains f)
  legal : ∀ f, ∀ c ∈ chains f, 2 ≤ c ∧ c ≤ sb.totalClusters + 1
  acyclic : ∀ f, (chains f).Nodup
  disjoint : ∀ f g, f ≠ g → (chains f).Disjoint (chains g)
  covered : ∀ c, 2 ≤ c → c ≤ sb.totalClusters + 1 → table sb s.vol.disk c ≠ clusterFree → ∃! f, c ∈ chains f
  counted : s.vol.freeCount ≠ countUnknown → s.vol.freeCount = freeEntries sb (table sb s.vol.disk)

section
variable (geometry : Geometry sb)
include geometry

theorem sound_iff : Sound sb s chains ↔ Allocated sb nothing s.vol chains ∧ ∀ f, (s.nodes f).On (chains f) := by
  constructor
  · intro sound
    have chain : ∀ f, Chain sb s.vol.disk (chains f) := fun f =>
      ⟨sound.linked f,fun c member => legalCluster_iff.mpr (sound.legal f c member)⟩
    refine ⟨⟨chain,⟨sound.acyclic,fun f g c first second => ?_,fun c => ⟨?_,?_⟩⟩,nofun,?_⟩,sound.starts⟩
    · by_contra apart
      exact sound.disjoint f g apart first second
    · rintro ⟨⟨legal,used⟩,_⟩
      obtain ⟨low,high⟩ := legalCluster_iff.mp legal
      exact (sound.covered c low high used).exists
    · rintro ⟨f,member⟩
      exact ⟨⟨(chain f).legal c member,(chain f).used geometry member⟩,id⟩
    · exact Decidable.or_iff_not_imp_left.mpr sound.counted
  · rintro ⟨alloc,on⟩
    refine ⟨on,fun f => (alloc.chain f).linked,fun f c member => legalCluster_iff.mp ((alloc.chain f).legal c member),
      alloc.distinct,fun f g apart c first second => apart (alloc.part.apart f g c first second),
      fun c low high used => ?_,fun known => alloc.count.resolve_left known⟩
    obtain ⟨f,member⟩ := (alloc.part.member c).mp ⟨⟨legalCluster_iff.mpr ⟨low,high⟩,used⟩,id⟩
    exact ⟨f,member,fun g other => alloc.part.apart g f c other member⟩

theorem Live.frees {s : Io} (live : Live sb aside f s chains) :
    Kept sb aside f s chains ⟨(freeChain sb s.vol s.node.firstCluster).2,Node.empty⟩
      (update chains f []) := by
  obtain ⟨w,ran,freed⟩ := (live.alloc.chain f).frees geometry (live.alloc.distinct f) live.on.first
  have dropped : Cut sb aside f 0 s chains ⟨w,{s.node with firstCluster := 0, lastIndex := 0, lastCluster := 0}⟩
      (update chains f ((chains f).take 0)) :=
    live.drops geometry ⟨trivial,nofun⟩ ⟨rfl,.inl Nat.zero_lt_two⟩ (fun c _ => by rw [freed.table,List.drop_zero])
      freed.content freed.unknown freed.known freed.refusals rfl rfl
  rw [ran]
  refine ⟨⟨dropped.live.alloc,?_⟩,dropped.others,dropped.bytes,dropped.grants⟩
  rw [update_self]
  exact ⟨rfl,.inl Nat.zero_lt_two⟩

theorem Files.applies (alloc : Allocated sb aside s.vol chains) (on : ∀ f, (s.nodes f).On (chains f)) (op : Op) :
    ∃ f t after, s.apply sb op = s.set f t ∧ Kept sb aside f (s.io f) chains t after := by
  have live : ∀ f, Live sb aside f (s.io f) chains := fun f => ⟨alloc,on f⟩
  cases op with
  | call c =>
    cases c with
    | read f off len => exact ⟨f,_,_,rfl,((live f).readsAt geometry off len).1⟩
    | write f off src =>
      obtain ⟨r,done,t,after,ran,kept,_⟩ := (live f).writesAt geometry off src
      refine ⟨f,t,after,?_,kept⟩
      simp only [Files.apply,Files.call,ran]
      cases r <;> rfl
    | truncate f size =>
      obtain ⟨r,t,after,ran,kept,_⟩ := (live f).truncates geometry size
      refine ⟨f,t,after,?_,kept⟩
      simp only [Files.apply,Files.call,ran]
      cases r <;> rfl
  | append f =>
    obtain ⟨r,t,after,ran,grown⟩ := (live f).grows geometry 1
    exact ⟨f,t,after,by simp only [Files.apply,ran],grown.toKept⟩
  | free f => exact ⟨f,_,_,rfl,(live f).frees geometry⟩

omit geometry in
theorem Kept.positions (kept : Kept sb aside f io chains t after) (on : ∀ g, (s.nodes g).On (chains g)) (g : Nat) :
    ((s.set f t).nodes g).On (after g) := by
  by_cases here : g = f
  · subst here
    have node : (s.set g t).nodes g = t.node := update_self ..
    rw [node]
    exact kept.live.on
  · have node : (s.set f t).nodes g = s.nodes g := update_of_ne here ..
    rw [node,kept.others g here]
    exact on g

theorem Sound.step (sound : Sound sb s chains) (op : Op) : ∃ after, Sound sb (s.apply sb op) after := by
  obtain ⟨alloc,on⟩ := (sound_iff geometry).mp sound
  obtain ⟨f,t,after,applied,kept⟩ := Files.applies geometry alloc on op
  refine ⟨after,(sound_iff geometry).mpr ?_⟩
  rw [applied]
  exact ⟨kept.live.alloc,kept.positions on⟩

end

theorem blank_sound : Sound smallVolume blank blankChains := by
  refine (sound_iff smallVolume_geometry).mpr ⟨blank_allocated,fun f => ?_⟩
  unfold blank blankChains
  dsimp only
  split
  · exact ⟨rfl,.inl (by decide)⟩
  · exact ⟨rfl,.inl (by decide)⟩

/-- Every sequence of operations, whichever of them fail, keeps the chains in order. -/
theorem files_stay_sound (geometry : Geometry sb) (sound : Sound sb s chains) (ops : List Op) :
    ∃ after, Sound sb (ops.foldl (Files.apply sb) s) after := by
  induction ops generalizing s chains with
  | nil => exact ⟨chains,sound⟩
  | cons op rest ih =>
    obtain ⟨next,kept⟩ := sound.step geometry op
    exact ih kept

theorem files_stay_sound_full :
    (answers (Files.call smallVolume) blank [.write 1 0 [7],.write 2 511 [8,9]]).2 = [.wrote 1,.refused 0] ∧
      ∃ after, Sound smallVolume ([.call (.write 1 0 [7]),.call (.write 2 511 [8,9]),.append 2,.free 1].foldl
        (Files.apply smallVolume) blank) after :=
  ⟨by decide +kernel,files_stay_sound smallVolume_geometry blank_sound _⟩

end SurfaceOS.Fat
