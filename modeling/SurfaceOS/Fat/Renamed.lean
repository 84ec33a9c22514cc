import SurfaceOS.Fat.Cached

/-! The record that `fat_rename` makes (vnode.cpp). It is a new one for the old clusters; size and
creation time are carried over for a file that is not empty, and nothing else. -/
namespace SurfaceOS.Fat
open Lib Lib.Memory Function List Option Nat Fatdir

variable {index j k off c d g key m n newCluster : Nat} {spot other : Nat × Nat} {sb : Super} {aside : Nat → Prop}
  {f : Nat} {new : Fatdir.Created} {io t : Io} {a b e : Slot}

/-! The functions of `fatdir` leave the directory's first cluster. -/

theorem slotLocation_first
    (located : slotLocation sb io index = .ok (spot,t)) : t.node.firstCluster = io.node.firstCluster := by
  revert located
  fun_cases slotLocation sb io index with
  | case1 => nofun
  | case2 cluster node found =>
    rintro ⟨⟩
    revert found
    fun_cases clusterAt sb io.vol io.node (index / entriesPerCluster sb) with
    | case3 =>
      rintro ⟨⟩
      rfl
    | _ => nofun

theorem growDir_first (sb : Super) (io : Io) : (Fatdir.growDir sb io).2.node.firstCluster = io.node.firstCluster := by
  fun_cases Fatdir.growDir sb io <;> rfl

theorem reserveRun_first (sb : Super) (need fuel : Nat) (io : Io) :
    (Fatdir.reserveRun sb need fuel io).2.node.firstCluster = io.node.firstCluster := by
  fun_induction Fatdir.reserveRun sb need fuel io with
  | case4 _ io _ _ _ _ _ grew =>
    have grown := growDir_first sb io
    rwa [grew] at grown
  | case5 _ io _ _ _ _ _ grew ih =>
    have grown := growDir_first sb io
    rw [grew] at grown
    exact ih.trans grown
  | _ => rfl

theorem storeAll_first (sb : Super) (writes : List (Nat × Slot)) (io : Io) (last : Nat × Nat) :
    (storeAll sb io writes last).2.node.firstCluster = io.node.firstCluster := by
  fun_induction storeAll sb io writes last with
  | case3 _ _ _ _ _ _ _ located ih =>
    have first := slotLocation_first located
    exact ih.trans first
  | _ => rfl

theorem create_first (sb : Super) (io : Io) (name : Name) (new : Fresh) :
    (Fatdir.create sb io name new).2.node.firstCluster = io.node.firstCluster := by
  have reserved (count : Nat) := reserveRun_first sb (count + 1) (sb.totalClusters + 1) io
  fun_cases Fatdir.create sb io name new with
  | case6 _ _ _ _ _ _ count _ _ _ ran =>
    have reserved := reserved count
    rwa [ran] at reserved
  | case7 _ _ units _ name11 _ count _ start t ran flags _ _ wrote
  | case8 _ _ units _ name11 _ count _ start t ran flags _ _ wrote =>
    have reserved := reserved count
    have stored := storeAll_first sb (newSlots units count name11 flags new start) t (0,0)
    rw [ran] at reserved
    rw [wrote] at stored
    exact stored.trans reserved
  | _ => rfl

theorem removeLfn_first (sum : UInt8) (index : Nat) (io : Io) :
    (Fatdir.removeLfn sb sum index io).node.firstCluster = io.node.firstCluster := by
  fun_induction Fatdir.removeLfn sb sum index io with
  | case3 _ _ _ _ located _ _ ih =>
    have first := slotLocation_first located
    exact ih.trans first
  | case4 _ _ _ _ located => exact slotLocation_first located
  | _ => rfl

theorem remove_first (io : Io) (index : Nat) :
    (Fatdir.remove sb io index).2.node.firstCluster = io.node.firstCluster := by
  fun_cases Fatdir.remove sb io index with
  | case1 => rfl
  | case2 _ _ located => exact slotLocation_first located
  | case3 _ _ located =>
    have first := slotLocation_first located
    exact (removeLfn_first _ _ _).trans first

/-- What is done with one chain leaves the directory on another. -/
theorem DirAt.beside (slotted : Slotted sb) {a b fn : Node} {vol later : Vol} {chains after : Nat → List Nat}
    {slots : List Slot}
    (dir : DirAt sb aside f ⟨vol,fn⟩ chains slots) (other : f ≠ g)
    (kept : Kept sb aside g ⟨vol.forget,a⟩ chains ⟨later.forget,b⟩ after) : DirAt sb aside f ⟨later,fn⟩ after slots := by
  have own := kept.others f other
  have same : image sb later.disk (chains f) = image sb vol.disk (chains f) :=
    image_congr fun d member => kept.bytes f other d member
  refine ⟨⟨kept.live.alloc,own ▸ dir.live.on⟩,own ▸ dir.filled,?_⟩
  rw [own,dir.slots,slotted.slotsOf_eq dir.legal,slotted.slotsOf_eq dir.legal,same]

/-! The fields of a record. -/

structure Slot.Agrees (a b : Slot) : Prop where
  attr : a.attr = b.attr
  tenth : a 13 = b 13
  createTime : le16 a 14 = le16 b 14
  createDate : le16 a 16 = le16 b 16
  accessDate : le16 a 18 = le16 b 18
  writeTime : le16 a 22 = le16 b 22
  writeDate : le16 a 24 = le16 b 24
  cluster : a.cluster = b.cluster
  size : a.fileSize = b.fileSize

structure Slot.AsMade (src : Slot) (now : Nat) : Prop where
  attr : src.attr = 0x20 ||| if src.isDirectory then 0x10 else 0
  modified : le16 src 24 = (epochToFat now).1 ∧ le16 src 22 = (epochToFat now).2
  accessed : le16 src 18 = (epochToFat now).1
  created : src.isDirectory = false ∧ src.fileSize ≠ 0 ∨
    src 13 = 0 ∧ le16 src 16 = (epochToFat now).1 ∧ le16 src 14 = (epochToFat now).2
  size : src.isDirectory → src.fileSize = 0

theorem epochToFat_lt (now : Nat) : (epochToFat now).1 < 2^16 ∧ (epochToFat now).2 < 2^16 := by
  have bounded : ∀ x : Nat, x % 2^16 < 2^16 := fun x => mod_lt _ (Nat.two_pow_pos 16)
  obtain ⟨words,same,small⟩ : ∃ words, words = epochToFat now ∧ words.1 < 2^16 ∧ words.2 < 2^16 := by
    rw [epochToFat]
    by_cases zero : now = 0
    · exact ⟨_,(if_pos zero).symm,by decide,by decide⟩
    rw [if_neg zero]
    extract_lets secs z era doe yoe doy mp d m y
    by_cases early : y < 1980
    · exact ⟨_,(if_pos early).symm,by decide,by decide⟩
    · exact ⟨_,(if_neg early).symm,bounded _,bounded _⟩
  exact same ▸ small

theorem word_bytes (v : Nat) : (UInt8.ofNat v).toNat + 256 * (UInt8.ofNat (v / 256)).toNat = v % 2^16 := by
  simp only [UInt8.toNat_ofNat']
  omega

structure Slot.MadeOf (e : Slot) (new : Fresh) : Prop where
  attr : e.attr = 0x20 ||| if new.isDir then 0x10 else 0
  tenth : e 13 = 0
  createTime : le16 e 14 = new.time % 2^16
  createDate : le16 e 16 = new.date % 2^16
  accessDate : le16 e 18 = new.date % 2^16
  writeTime : le16 e 22 = new.time % 2^16
  writeDate : le16 e 24 = new.date % 2^16
  cluster : e.cluster = new.firstCluster % 2^32
  size : e.fileSize = 0

theorem shortSlot_madeOf {name11 : List UInt8} (size : name11.length = 11) (flags : UInt8) (new : Fresh) :
    (shortSlot name11 flags new).MadeOf new := by
  have byte : ∀ i, shortSlot name11 flags new (11 + i) = _ := fun i => shortSlot_behind size i
  have word : ∀ i v, (([0x20 ||| if new.isDir then 0x10 else 0,flags,0] ++ bytes16 new.time ++ bytes16 new.date ++
      bytes16 new.date ++ bytes16 (new.firstCluster / 65536) ++ bytes16 new.time ++ bytes16 new.date ++
      bytes16 new.firstCluster ++ bytes32 0)[i]?).getD 0 = UInt8.ofNat v →
      (([0x20 ||| if new.isDir then 0x10 else 0,flags,0] ++ bytes16 new.time ++ bytes16 new.date ++
      bytes16 new.date ++ bytes16 (new.firstCluster / 65536) ++ bytes16 new.time ++ bytes16 new.date ++
      bytes16 new.firstCluster ++ bytes32 0)[i + 1]?).getD 0 = UInt8.ofNat (v / 256) →
      le16 (shortSlot name11 flags new) (11 + i) = v % 2^16 := by
    intro i v low high
    rw [← word_bytes,le16,byte,add_assoc,byte,low,high]
  have hi := word 9 (new.firstCluster / 65536) rfl rfl
  have lo := word 15 new.firstCluster rfl rfl
  have down := word 17 0 rfl rfl
  have up := word 19 0 rfl rfl
  refine ⟨byte 0,byte 2,word 3 _ rfl rfl,word 5 _ rfl rfl,word 7 _ rfl rfl,word 11 _ rfl rfl,word 13 _ rfl rfl,?_,?_⟩
  · unfold Slot.cluster
    rw [hi,lo]
    omega
  · unfold Slot.fileSize
    exact Nat.add_eq_zero_iff.mpr ⟨down,Nat.mul_eq_zero.mpr (.inr up)⟩

theorem carry_outside (src e : Slot) (outside : j < 13 ∨ 18 ≤ j ∧ j < 28) : Mounted.carry src e j = e j := by
  unfold Mounted.carry
  rcases outside with before | between
  · rw [patch_before _ _ _ _ before,patch_before _ _ _ _ (by omega)]
  · rw [patch_after _ _ _ _ (by rw [slice_length]; exact between.1),patch_before _ _ _ _ between.2]

theorem carry_inside (src e : Slot) (inside : 13 ≤ j ∧ j < 18 ∨ 28 ≤ j ∧ j < 32) : Mounted.carry src e j = src j := by
  unfold Mounted.carry
  rcases inside with first | last
  · obtain ⟨i,rfl⟩ := Nat.exists_eq_add_of_le first.1
    rw [patch_inside _ _ _ _ (by rw [slice_length]; omega)]
    simp [slice]
  · obtain ⟨i,rfl⟩ := Nat.exists_eq_add_of_le last.1
    rw [patch_after _ _ _ _ (by rw [slice_length]; omega),patch_inside _ _ _ _ (by rw [slice_length]; omega)]
    simp [slice]

def moved (src e : Slot) : Slot := if !src.isDirectory && src.fileSize ≠ 0 then Mounted.carry src e else e

theorem Slot.MadeOf.agrees_iff {src e : Slot} {now : Nat}
    (made : e.MadeOf ⟨src.isDirectory,src.cluster,(epochToFat now).1,(epochToFat now).2⟩) :
    src.Agrees (moved src e) ↔ src.AsMade now := by
  obtain ⟨dateSmall,timeSmall⟩ := epochToFat_lt now
  obtain ⟨attr,tenth,createTime,createDate,accessDate,writeTime,writeDate,cluster,size⟩ := made
  rw [mod_eq_of_lt dateSmall] at createDate accessDate writeDate
  rw [mod_eq_of_lt timeSmall] at createTime writeTime
  have small : src.cluster < 2^32 := by
    have high := le16_lt src 20
    have low := le16_lt src 26
    unfold Slot.cluster
    omega
  rw [mod_eq_of_lt small] at cluster
  unfold moved
  by_cases file : src.isDirectory = false ∧ src.fileSize ≠ 0
  · rw [if_pos (by simp [file.1,file.2])]
    have outer : ∀ k, 18 ≤ k → k + 1 < 28 → le16 (Mounted.carry src e) k = le16 e k := fun k low high =>
      le16_congr _ _ k fun i less => carry_outside src e (.inr ⟨by omega,by omega⟩)
    have inner : ∀ k, 13 ≤ k → k + 1 < 18 → le16 (Mounted.carry src e) k = le16 src k := fun k low high =>
      le16_congr _ _ k fun i less => carry_inside src e (.inl ⟨by omega,by omega⟩)
    have sized : (Mounted.carry src e).fileSize = src.fileSize :=
      le32_congr _ _ 28 fun i less => carry_inside src e (.inr ⟨by omega,by omega⟩)
    have own : (Mounted.carry src e).cluster = src.cluster := by
      rw [← cluster]
      unfold Slot.cluster
      rw [outer 20 (by omega) (by omega),outer 26 (by omega) (by omega)]
    have flagged : (Mounted.carry src e).attr = e.attr := carry_outside src e (.inl (by omega))
    constructor
    · intro agrees
      refine ⟨?_,⟨?_,?_⟩,?_,.inl file,fun folder => absurd folder (by rw [file.1]; exact Bool.false_ne_true)⟩
      · rw [agrees.attr,flagged,attr]
      · rw [agrees.writeDate,outer 24 (by omega) (by omega),writeDate]
      · rw [agrees.writeTime,outer 22 (by omega) (by omega),writeTime]
      · rw [agrees.accessDate,outer 18 (by omega) (by omega),accessDate]
    intro asMade
    refine ⟨?_,(carry_inside src e (.inl ⟨by omega,by omega⟩)).symm,(inner 14 (by omega) (by omega)).symm,
      (inner 16 (by omega) (by omega)).symm,?_,?_,?_,own.symm,sized.symm⟩
    · rw [asMade.attr,flagged,attr]
    · rw [outer 18 (by omega) (by omega),asMade.accessed,accessDate]
    · rw [outer 22 (by omega) (by omega),asMade.modified.2,writeTime]
    · rw [outer 24 (by omega) (by omega),asMade.modified.1,writeDate]
  · rw [if_neg (by simpa using file)]
    constructor
    · intro agrees
      exact ⟨agrees.attr.trans attr,⟨agrees.writeDate.trans writeDate,agrees.writeTime.trans writeTime⟩,
        agrees.accessDate.trans accessDate,
        .inr ⟨agrees.tenth.trans tenth,agrees.createDate.trans createDate,agrees.createTime.trans createTime⟩,
        fun _ => agrees.size.trans size⟩
    intro asMade
    obtain ⟨zero,date,time⟩ := asMade.created.resolve_left file
    refine ⟨asMade.attr.trans attr.symm,zero.trans tenth.symm,time.trans createTime.symm,date.trans createDate.symm,
      asMade.accessed.trans accessDate.symm,asMade.modified.2.trans writeTime.symm,
      asMade.modified.1.trans writeDate.symm,cluster.symm,?_⟩
    rw [size]
    by_cases folder : src.isDirectory = true
    · exact asMade.size folder
    · by_contra some
      exact file ⟨Bool.not_eq_true _ |>.mp folder,some⟩

/-! What the other steps do to the disk and to the cache. -/

theorem moved_outside (src e : Slot) (low : j < 13) : moved src e j = e j := by
  unfold moved
  split
  · exact carry_outside src e (.inl low)
  · rfl

section
variable {src : Slot} {fresh : Fresh} (made : e.MadeOf fresh)
include made

theorem Slot.MadeOf.short : (moved src e).isLfn = false ∧ (moved src e).isVolumeId = false := by
  have attr : (moved src e).attr = 0x20 ||| if fresh.isDir then 0x10 else 0 :=
    (moved_outside src e (by decide)).trans made.attr
  unfold Slot.isLfn Slot.isVolumeId
  rw [attr]
  cases fresh.isDir <;> decide

theorem Slot.MadeOf.stands (opened : e 0 ≠ 0) (unmarked : e 0 ≠ 0xE5) :
    (moved src e).isRecord ∧ (moved src e).isEnd = false := by
  have first : moved src e 0 = e 0 := moved_outside src e (by decide)
  unfold Slot.isRecord Slot.isEnd
  rw [first,made.short.1,made.short.2]
  simp [opened,unmarked]

end

namespace Mounted

structure Like (s t : Mounted) : Prop where
  pool : t.pool = s.pool
  same : ∀ i v, t.vnodes i = some v → ∃ w, s.vnodes i = some w ∧ v.fsKey = w.fsKey ∧ v.refcnt = w.refcnt

section
variable {s t u : Mounted} {n : Nat}

theorem Like.trans (first : Like s t) (second : Like t u) : Like s u where
  pool := second.pool.trans first.pool
  same i v here := by
    obtain ⟨w,there,key,count⟩ := second.same i v here
    obtain ⟨x,origin,key',count'⟩ := first.same i w there
    exact ⟨x,origin,key.trans key',count.trans count'⟩

theorem like_keep (s : Mounted) (n : Nat) (io : Io) : Like s (s.keep n io) := ⟨rfl,fun _ _ here => keep_key here⟩

theorem keep_cluster (n : Nat) (first : io.node.firstCluster = s.cluster m) :
    (s.keep m io).cluster n = s.cluster n := by
  by_cases same : n = m
  · subst same
    cases here : s.vnodes n with
    | none =>
      have none : (s.keep n io).vnodes n = none := by
        have self : (s.keep n io).vnodes n = (s.vnodes n).map fun v => {v with node := io.node} :=
          update_self ..
        rw [self,here]
        rfl
      exact cluster_same (none.trans here.symm)
    | some v =>
      unfold Mounted.cluster at ⊢
      rw [io_keep here]
      exact first
  · exact cluster_same (alter_other {s with vol := io.vol} _ same)

theorem hit_eq_none (free : ∀ i v, some i ∈ s.pool → s.vnodes i = some v → v.fsKey ≠ key) :
    s.hit key = none := by
  cases found : s.hit key with
  | none => rfl
  | some i =>
    obtain ⟨pooled,v,here,same⟩ := hit_some found
    exact absurd same (free i v pooled here)

theorem follow_volume (sb : Super) (held : ∀ i v, some i ∈ s.pool → s.vnodes i = some v → 1 ≤ v.refcnt) {src : Entry}
    (oldKey : Nat)
    (free : ∀ i v, some i ∈ s.pool → s.vnodes i = some v → v.fsKey ≠ fileKey newCluster new.index) :
    (s.follow sb src oldKey newCluster new).vol = s.vol := by
  unfold follow findCached
  dsimp only
  cases found : s.hit (if src.slot.isDirectory = true then dirKey src.slot.cluster else oldKey) with
  | none => rfl
  | some i =>
    obtain ⟨pooled,v,here,_⟩ := hit_some found
    have counted := held i v pooled here
    dsimp only
    generalize placing : (s.ref i).alter i (fun fn =>
      {fn with parentCluster := newCluster, entryIndex := new.index, entry := new.spot}) = m
    obtain ⟨w,placed,count,key⟩ : ∃ w, m.vnodes i = some w ∧ w.refcnt = v.refcnt + 1 ∧ w.fsKey = v.fsKey := by
      rw [← placing]
      exact ⟨_,alter_here (alter_here here _) _,rfl,rfl⟩
    have others : ∀ j, j ≠ i → m.vnodes j = s.vnodes j := fun j other => by
      rw [← placing,alter_other _ _ other]
      exact alter_other _ _ other
    have pool : m.pool = s.pool := by rw [← placing]; rfl
    have volume : m.vol = s.vol := by rw [← placing]; rfl
    by_cases folder : src.slot.isDirectory = true
    · rw [if_pos folder,unref_held sb placed (by omega)]
      exact volume
    rw [if_neg folder,rekey,if_neg (by rw [placed]; simp only [any_some,key,decide_eq_true_eq]; exact free i v pooled here)]
    dsimp only
    -- the moved vnode is the only one that could have the key
    have missing : Mounted.hit {m with pool := m.pool.map fun place => if place = some i then none else place}
        (fileKey newCluster new.index) = none := by
      refine hit_eq_none fun j u inside there => ?_
      obtain ⟨old,other⟩ := mem_unpool.mp inside
      exact free j u (pool ▸ old) (others j other ▸ there)
    rw [missing,ite_self]
    rw [unref_held sb (alter_here placed _) (by dsimp only; omega)]
    exact volume

end

structure Renaming (sb : Super) (s : Mounted) (oldDir : Nat) (oldName : Name) (newDir : Nat) (newName : Name)
    (src : Entry) (new : Fatdir.Created) (io : Io) : Prop where
  source : Fatdir.find sb s.vol (s.cluster oldDir) oldName = .ok (some src)
  aims : Fatdir.find sb s.vol (s.cluster newDir) newName = .ok none
  creates : Fatdir.create sb (s.io newDir) newName (s.made src.slot.isDirectory src.slot.cluster) = (.ok new,io)

def carried (sb : Super) (s : Mounted) (src : Slot) (newDir : Nat) (new : Fatdir.Created) : Mounted :=
  let s := if !src.isDirectory && src.fileSize ≠ 0 then s.edit new.spot (carry src) else s
  if src.isDirectory then s.edit (clusterLba sb src.cluster,32) (reparent (s.cluster newDir)) else s

section
variable {s t : Mounted} {oldDir newDir : Nat} {oldName newName : Name}

/-- With `RENAME_NOREPLACE` there is no record with the new name. -/
theorem rename_ok (ran : s.rename sb oldDir oldName newDir newName true = (.ok (),t)) :
    ∃ src new io u, Renaming sb s oldDir oldName newDir newName src new io ∧
      (carried sb (s.keep newDir io) src.slot newDir new).removeRecord sb oldDir src.index = (.ok (),u) ∧
      t.vol = (u.follow sb src (fileKey (u.cluster oldDir) src.index) (u.cluster newDir) new).vol := by
  revert ran
  fun_cases rename sb s oldDir oldName newDir newName true with
  | case10 _ src source _ _ target aimed _ cleared clearing new io creating _ _ _ _ u removing =>
    intro ran
    obtain ⟨_,rfl⟩ := Prod.mk.inj ran
    cases target with
    | none =>
      obtain rfl : s = cleared := (Prod.mk.inj clearing).2
      exact ⟨src,new,io,u,⟨source,aimed,creating⟩,removing,rfl⟩
    | some dst => cases clearing
  | _ => nofun

theorem carried_like (sb : Super) (s : Mounted) (src : Slot) (newDir : Nat) (new : Fatdir.Created) :
    Like s (carried sb s src newDir new) ∧ ∀ n, (carried sb s src newDir new).cluster n = s.cluster n := by
  unfold carried
  split <;> split <;> exact ⟨⟨rfl,fun _ v here => ⟨v,here,rfl,rfl⟩⟩,fun _ => rfl⟩

end

section
variable {s t : Mounted} {oldDir newDir : Nat} {oldName newName : Name}
  {chains : Nat → List Nat} {slots : List Slot} {src : Entry} {new : Fatdir.Created} {io : Io}

/-- A directory `n` with a proper chain, and the cached vnodes: the cache has a reference to each, and
those of the directory's files stand for records of files. -/
structure Settled (sb : Super) (aside : Nat → Prop) (s : Mounted) (n f : Nat) (chains : Nat → List Nat)
    (slots : List Slot) : Prop where
  dir : DirAt sb aside f (s.io n) chains slots
  open_ : ∃ v, s.vnodes n = some v
  held : ∀ i v, some i ∈ s.pool → s.vnodes i = some v → 1 ≤ v.refcnt
  files : ∀ i v k, some i ∈ s.pool → s.vnodes i = some v → k < dirMark → v.fsKey = fileKey (s.cluster n) k →
    ∃ t, Shown slots k t ∧ t.isDirectory = false

structure Recorded (sb : Super) (aside : Nat → Prop) (s : Mounted) (n f : Nat) (src : Slot) (new : Fatdir.Created)
    (io : Io) (after : Nat → List Nat) (now : List Slot) : Prop where
  dir : DirAt sb aside f io after now
  first : io.node.firstCluster = s.cluster n
  place : ∃ c, (after f)[new.index / entriesPerCluster sb]? = some c ∧
    new.spot = Fatdir.spot sb c (new.index % entriesPerCluster sb)
  opened : load io.vol.disk new.spot 0 ≠ 0
  made : (load io.vol.disk new.spot).MadeOf (s.made src.isDirectory src.cluster)
  free : ∀ i v, some i ∈ s.pool → s.vnodes i = some v → v.fsKey ≠ fileKey (s.cluster n) new.index

theorem Settled.records (settled : Settled sb aside s newDir f chains slots) (slotted : Slotted sb)
    (fits : sb.totalClusters * entriesPerCluster sb ≤ dirMark) {src : Slot}
    (ran : Fatdir.create sb (s.io newDir) newName (s.made src.isDirectory src.cluster) = (.ok new,io)) :
    ∃ after now, Recorded sb aside s newDir f src new io after now ∧ (∀ g, f ≠ g → after g = chains g) ∧
      ∀ k e, Shown slots k e → k ≠ new.index := by
  obtain ⟨after,now,step,made,_⟩ := settled.dir.creates slotted newName (s.made src.isDirectory src.cluster)
  have first := create_first sb (s.io newDir) newName (s.made src.isDirectory src.cluster)
  rw [ran] at step made first
  obtain ⟨⟨room,created⟩,spot⟩ := made new rfl
  obtain ⟨name11,count,start,more,grown,created⟩ := create_created created
  have here := created.shortSlot_at
  have inside := (List.getElem?_eq_some_iff.mp here).1
  obtain ⟨c,_,cell,_⟩ := step.dir.locates slotted inside
  have loaded := step.dir.loads slotted cell
  have place : new.spot = Fatdir.spot sb c (new.index % Fatdir.entriesPerCluster sb) := by
    rw [spot,placeOf,getD_eq_getElem?_getD,cell]
    rfl
  have taken (k : Nat) (e : Slot) (shown : Shown slots k e) : k ≠ new.index := by
    rintro rfl
    have taken := not_free_of_record shown.record (shown.opened new.index (le_refl _) e shown.here)
    refine created.outside (created.grown_getElem? shown.here) taken ⟨?_,le_refl _⟩
    rw [created.index]
    exact Nat.le_add_right ..
  refine ⟨after,now,⟨step.dir,first,⟨c,cell,place⟩,?_,?_,?_⟩,?_,taken⟩
  · obtain ⟨size,first,rest,begins,nonzero⟩ := created.shape
    rwa [place,← some.inj (here.symm.trans loaded),shortSlot_first begins]
  · rw [place,← some.inj (here.symm.trans loaded)]
    exact shortSlot_madeOf created.shape.1 _ _
  · intro i v pooled there key
    have bound := (step.dir.live.alloc.chain f).length_le (step.dir.live.alloc.distinct f)
    have small : new.index < dirMark := by
      refine lt_of_lt_of_le inside (le_trans ?_ fits)
      rw [step.dir.length slotted]
      exact Nat.mul_le_mul_right _ bound
    obtain ⟨d,shown,_⟩ := settled.files i v new.index pooled there small key
    exact taken new.index d shown rfl
  · intro g other
    exact step.kept.others g other.symm

section
variable {fn : Node} {vol : Vol} {src : Slot} {after : Nat → List Nat} {now : List Slot}
  (slotted : Slotted sb) (cell : (after f)[new.index / entriesPerCluster sb]? = some c)
  (place : new.spot = Fatdir.spot sb c (new.index % entriesPerCluster sb))
include slotted cell place

theorem carried_dir (newDir : Nat) (wide : 64 ≤ sb.bytesPerSector) (dir : DirAt sb aside f ⟨s.vol,fn⟩ after now)
    (folder : src.isDirectory → ∃ g, f ≠ g ∧ (after g).head? = some src.cluster) :
    ∃ later, DirAt sb aside f ⟨(carried sb s src newDir new).vol,fn⟩ after later ∧
      later[new.index]? = some (moved src (load s.vol.disk new.spot)) := by
  have loaded := dir.loads slotted cell
  rw [← place] at loaded
  have inside := (List.getElem?_eq_some_iff.mp loaded).1
  unfold carried moved
  by_cases isDir : src.isDirectory = true
  · obtain ⟨g,other,head⟩ := folder isDir
    have theirs : DirAt sb aside g ⟨s.vol,⟨src.cluster,0,0,0,false⟩⟩ after (slotsOf sb s.vol.disk (after g)) := by
      refine ⟨⟨dir.live.alloc,by rw [head]; rfl,.inl zero_lt_two⟩,fun empty => ?_,rfl⟩
      rw [empty] at head
      cases head
    have many : 1 < entriesPerCluster sb := by
      have size := slotted.clusterSize
      have more := Nat.mul_le_mul slotted.cluster wide
      unfold entriesPerCluster
      omega
    have second : (after g)[1 / entriesPerCluster sb]? = some src.cluster := by
      rw [div_eq_of_lt many,← head?_eq_getElem?,head]
    have spot : Fatdir.spot sb src.cluster (1 % entriesPerCluster sb) = (clusterLba sb src.cluster,32) := by
      rw [mod_eq_of_lt many,Fatdir.spot,div_eq_of_lt (by omega),mod_eq_of_lt (by omega)]
      rfl
    have whole (cluster : Nat) (e : Slot) (whole : e.Whole) : (reparent cluster e).Whole := fun j long => by
      unfold reparent
      rw [patch_after _ _ _ _ (by simp [bytes16]; omega),patch_after _ _ _ _ (by simp [bytes16]; omega)]
      exact whole j long
    have step := theirs.puts slotted second (whole (s.cluster newDir) _ (load_whole s.vol.disk (clusterLba sb src.cluster,32)))
    rw [spot] at step
    simp only [isDir,Bool.not_true,Bool.false_and,Bool.false_eq_true,if_false,if_true]
    exact ⟨now,dir.beside slotted other step.kept,loaded⟩
  simp only [isDir,Bool.false_eq_true,if_false]
  split
  · have whole : (carry src (load s.vol.disk new.spot)).Whole := fun j long => by
      unfold carry
      rw [patch_after _ _ _ _ (by simp [slice_length]; omega),patch_after _ _ _ _ (by simp [slice_length]; omega)]
      exact load_whole _ _ j long
    have step := dir.puts slotted cell whole
    rw [← place] at step
    exact ⟨_,step.dir,getElem?_set_self inside⟩
  · exact ⟨now,dir,loaded⟩

theorem remove_leaves {io : Io} (dir : DirAt sb aside f ⟨vol,fn⟩ after now) (here : now[new.index]? = some e)
    (short : e.isLfn = false) (gone : (Fatdir.remove sb io index).1 = .ok ())
    (home : io = ⟨vol,fn⟩ ∧ index ≠ new.index ∨ io.vol = vol ∧ ∃ g, f ≠ g ∧ after g ≠ [] ∧ io.node.On (after g)) :
    load (Fatdir.remove sb io index).2.vol.disk new.spot = e := by
  have stays (later : Io) (slots : List Slot) (dir : DirAt sb aside f later after slots)
      (here : slots[new.index]? = some e) : load later.vol.disk new.spot = e := by
    have loaded := dir.loads slotted cell
    rw [← place] at loaded
    exact some.inj (loaded.symm.trans here)
  obtain ⟨rfl,other⟩ | ⟨rfl,g,other,filled,cached⟩ := home
  · obtain ⟨same,step⟩ := dir.removes slotted index
    rw [gone] at same
    obtain ⟨d,start,removed⟩ := remove_removed (Prod.ext same.symm rfl)
    refine stays _ _ step.dir ?_
    rw [removed.result,if_neg fun between => ?_]
    · exact here
    obtain ⟨x,there,long,-⟩ := removed.long new.index between.1 (by omega)
    rw [some.inj (here.symm.trans there),long] at short
    cases short
  · have theirs : DirAt sb aside g io after (slotsOf sb io.vol.disk (after g)) := ⟨⟨dir.live.alloc,cached⟩,filled,rfl⟩
    exact stays ⟨_,fn⟩ _ (dir.beside slotted other (theirs.removes slotted index).2.kept) here

end

theorem carried_io (sb : Super) (s : Mounted) (src : Slot) (newDir : Nat) (new : Fatdir.Created) (n : Nat) :
    (carried sb s src newDir new).io n = ⟨(carried sb s src newDir new).vol,(s.io n).node⟩ := by
  unfold carried
  split <;> split <;> rfl

section
variable {u : Mounted} (slotted : Slotted sb) (settled : Settled sb aside s newDir f chains slots)
  (fits : sb.totalClusters * entriesPerCluster sb ≤ dirMark) (trace : Renaming sb s oldDir oldName newDir newName src new io)
  (removed : (carried sb (s.keep newDir io) src.slot newDir new).removeRecord sb oldDir src.index = (.ok (),u))
include slotted settled fits trace removed

/-- The old record has another slot, in this directory or in one with clusters of its own, so that removing it
leaves the new one. -/
theorem Renaming.leaves (wide : 64 ≤ sb.bytesPerSector)
    (home : oldDir = newDir ∨ ∃ g older, f ≠ g ∧ DirAt sb aside g (s.io oldDir) chains older)
    (folder : src.slot.isDirectory → ∃ g, f ≠ g ∧ (chains g).head? = some src.slot.cluster) :
    load u.vol.disk new.spot = moved src.slot (load io.vol.disk new.spot) := by
  obtain ⟨final,now,recorded,others,taken⟩ := settled.records slotted fits trace.creates
  obtain ⟨c,cell,place⟩ := recorded.place
  obtain ⟨later,dir,here⟩ := carried_dir (s := s.keep newDir io) slotted cell place newDir wide recorded.dir
    fun isDir => by
      obtain ⟨g,other,head⟩ := folder isDir
      exact ⟨g,other,(others g other).symm ▸ head⟩
  obtain ⟨v,known⟩ := settled.open_
  obtain ⟨gone,rfl⟩ := Prod.mk.inj removed
  refine remove_leaves slotted cell place dir here recorded.made.short.1 gone ?_
  rw [carried_io]
  by_cases same : oldDir = newDir
  · subst same
    rw [io_keep known]
    refine .inl ⟨rfl,?_⟩
    have listed : Fatdir.find sb (s.io oldDir).vol (s.io oldDir).node.firstCluster oldName = .ok (some src) := trace.source
    rw [settled.dir.find slotted] at listed
    obtain ⟨i,e,shown,rfl⟩ := mem_scanDir.mp (mem_of_find?_eq_some (Except.ok.inj listed))
    exact taken i e shown
  · obtain ⟨g,older,other,theirs⟩ := home.resolve_left same
    have node : ((s.keep newDir io).io oldDir).node = (s.io oldDir).node := by
      unfold Mounted.io
      rw [show (s.keep newDir io).vnodes oldDir = s.vnodes oldDir from alter_other _ _ same]
    rw [node]
    exact .inr ⟨rfl,g,other,(others g other).symm ▸ theirs.filled,(others g other).symm ▸ theirs.live.on⟩

/-- The vnode of the moved file is only told its new place. -/
theorem Renaming.follows : (u.follow sb src (fileKey (u.cluster oldDir) src.index) (u.cluster newDir) new).vol = u.vol := by
  obtain ⟨final,now,recorded,-,-⟩ := settled.records slotted fits trace.creates
  obtain ⟨like,clusters⟩ := carried_like sb (s.keep newDir io) src.slot newDir new
  have removing := (Prod.mk.inj removed).2
  have final_like : Like s u := by
    rw [← removing]
    exact ((like_keep s newDir io).trans like).trans (like_keep _ _ _)
  have cluster : u.cluster newDir = s.cluster newDir := by
    rw [← removing,keep_cluster newDir (remove_first _ _),clusters,keep_cluster newDir recorded.first]
  refine follow_volume sb (fun i v pooled here => ?_) _ fun i v pooled here key => ?_
  · obtain ⟨w,there,_,count⟩ := final_like.same i v here
    exact count ▸ settled.held i w (final_like.pool ▸ pooled) there
  · obtain ⟨w,there,same,_⟩ := final_like.same i v here
    exact recorded.free i w (final_like.pool ▸ pooled) there (same ▸ cluster ▸ key)

end

end

def madeFile (attr : UInt8) : Slot :=
  patch (shortSlot (65 :: replicate 10 32) 8 ⟨false,0,10333,49021⟩) 11 [attr]

def oneFile (attr : UInt8) : Mounted where
  vol := (put (blank.io 0) (Fatdir.spot smallVolume 2 0) (madeFile attr)).vol
  vnodes := fun i => if i = 0 then some (newMounted.dirNode (rootKey 2) 2 2 rootMark) else none
  pool := [some 0]
  fresh := 1
  now := 951868799

theorem oneFile_settled : Settled smallVolume nothing (oneFile 0x20) 0 0 blankChains
    ((slotsOf smallVolume blank.vol.disk [2]).set 0 (madeFile 0x20)) := by
  have slotted : Slotted smallVolume := ⟨smallVolume_geometry,by decide⟩
  have first : (blankChains 0)[0 / entriesPerCluster smallVolume]? = some 2 := rfl
  have whole : (madeFile 0x20).Whole := fun j long => by
    unfold madeFile
    rw [patch_after _ _ _ _ (by simp; omega)]
    exact shortSlot_whole rfl _ _ j long
  have root : ∀ i v, some i ∈ (oneFile 0x20).pool → (oneFile 0x20).vnodes i = some v →
      v = newMounted.dirNode (rootKey 2) 2 2 rootMark := by
    intro i v pooled here
    obtain rfl : i = 0 := some.inj (mem_singleton.mp pooled)
    exact (some.inj here).symm
  refine ⟨(blank_dirAt.puts slotted first whole).dir,⟨_,rfl⟩,fun i v pooled here => ?_,
    fun i v k pooled here small named => ?_⟩
  · rw [root i v pooled here]
    decide
  · rw [root i v pooled here] at named
    have cluster : (oneFile 0x20).cluster 0 = 2 := rfl
    have equal : rootKey 2 = fileKey 2 k := cluster ▸ named
    unfold rootKey fileKey rootMark at equal
    unfold dirMark at small
    omega

end Mounted

end SurfaceOS.Fat
