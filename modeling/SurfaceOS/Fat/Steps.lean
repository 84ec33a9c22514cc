import SurfaceOS.Fat.Volume

/-! The steps `read_at`, `write_at` and `truncate` are made of, each with what it does to the file's
bytes: zeroing the tail of a cluster, rewriting a part of one, growing a chain, cutting it. -/
namespace SurfaceOS.Fat
open Lib Lib.Memory List Nat
open Function (update update_of_ne update_self)

variable {inside keep size c endExcl last next q : Nat} {node : Node} {chunk bytes : List UInt8}
  {cells front rest : List Nat} {sb : Super}
  {aside : Nat → Prop} {f : Nat} {s t : Io} {chains after : Nat → List Nat}

def roundUp (sb : Super) (size : Nat) : Nat := clustersFor sb size * sb.clusterSize

def withCluster (sb : Super) (img : Nat → UInt8) (q : Nat) (bytes : List UInt8) (i : Nat) : UInt8 :=
  if i / sb.clusterSize = q then bytes.getD (i % sb.clusterSize) 0 else img i

def trimmed (sb : Super) (img : Nat → UInt8) (size : Nat) : Nat → UInt8 :=
  patch img size (replicate (roundUp sb size - size) 0)

theorem Geometry.clusterSize_pos (geometry : Geometry sb) : 0 < sb.clusterSize := by
  rw [geometry.clusterSize]
  exact Nat.mul_pos geometry.cluster geometry.sector

section
variable (pos : 0 < sb.clusterSize)
include pos

theorem clustersFor_eq (size : Nat) :
    clustersFor sb size = size / sb.clusterSize + if size % sb.clusterSize = 0 then 0 else 1 := by
  have split := Nat.div_add_mod size sb.clusterSize
  have small := Nat.mod_lt size pos
  unfold clustersFor
  generalize size / sb.clusterSize = q at *
  generalize size % sb.clusterSize = r at *
  subst split
  by_cases whole : r = 0
  · rw [if_pos whole,whole,Nat.add_zero]
    split
    · rw [Nat.add_sub_assoc pos,Nat.mul_add_div pos,Nat.div_eq_of_lt (by omega)]
    · next zero =>
      have empty : sb.clusterSize * q = 0 := by omega
      rcases Nat.mul_eq_zero.mp empty with none | none <;> omega
  · rw [if_neg whole,if_pos (by omega),show sb.clusterSize * q + r + sb.clusterSize - 1 =
      sb.clusterSize * q + (sb.clusterSize + (r - 1)) by omega,Nat.mul_add_div pos,
      Nat.add_div_left _ pos,Nat.div_eq_of_lt (by omega)]

theorem roundUp_le (size : Nat) : size ≤ roundUp sb size := by
  have split := div_add_mod size sb.clusterSize
  have small := mod_lt size pos
  rw [roundUp,clustersFor_eq pos,Nat.add_mul,Nat.mul_comm (size / _)]
  split <;> omega

theorem roundUp_whole (whole : size % sb.clusterSize = 0) : roundUp sb size = size := by
  have split := div_add_mod size sb.clusterSize
  rw [roundUp,clustersFor_eq pos,if_pos whole,Nat.add_zero,Nat.mul_comm]
  omega

theorem withCluster_slice {img now : Nat → UInt8}
    (same : ∀ i, i / sb.clusterSize ≠ q → now i = img i) :
    withCluster sb img q (slice now (q * sb.clusterSize) sb.clusterSize) = now := by
  funext i
  unfold withCluster
  split
  · next index =>
    rw [getD_eq_getElem?_getD,slice_getElem? _ _ _ _ (mod_lt i pos),← index,Nat.mul_comm,
      div_add_mod]
    rfl
  · next other => exact (same i other).symm

theorem patch_outside
    (small : inside + chunk.length ≤ sb.clusterSize) (img : Nat → UInt8) (i : Nat)
    (other : i / sb.clusterSize ≠ q) : patch img (q * sb.clusterSize + inside) chunk i = img i := by
  rw [Nat.mul_comm q]
  exact patch_block _ _ _ _ pos (by omega) (by omega) other

theorem last_cluster (ragged : size % sb.clusterSize ≠ 0) :
    (size - 1) / sb.clusterSize = size / sb.clusterSize ∧
      clustersFor sb size = size / sb.clusterSize + 1 ∧
      size / sb.clusterSize * sb.clusterSize + size % sb.clusterSize = size ∧
      roundUp sb size - size = sb.clusterSize - size % sb.clusterSize := by
  have split := div_add_mod size sb.clusterSize
  have small := mod_lt size pos
  have count := clustersFor_eq pos size
  rw [if_neg ragged] at count
  refine ⟨?_,count,by rw [Nat.mul_comm]; exact split,?_⟩
  · have less : (size % sb.clusterSize - 1) / sb.clusterSize = 0 := div_eq_of_lt (by omega)
    rw [show size - 1 = sb.clusterSize * (size / sb.clusterSize) + (size % sb.clusterSize - 1) by omega,
      mul_add_div pos,less,Nat.add_zero]
  · rw [roundUp,count,succ_mul,Nat.mul_comm]
    omega

theorem trimmed_whole (whole : size % sb.clusterSize = 0)
    (img : Nat → UInt8) : trimmed sb img size = img := by
  rw [trimmed,roundUp_whole pos whole,Nat.sub_self,replicate_zero,patch_nil]

theorem last_index (some : 0 < size) :
    (size - 1) / sb.clusterSize + 1 = clustersFor sb size := by
  by_cases ragged : size % sb.clusterSize = 0
  · rw [clustersFor_eq pos,if_pos ragged]
    have split := div_add_mod size sb.clusterSize
    rw [ragged,Nat.add_zero] at split
    generalize size / sb.clusterSize = q at *
    subst split
    have positive : 0 < q := Nat.pos_of_mul_pos_left some
    obtain ⟨p,rfl⟩ : ∃ p, q = p + 1 := ⟨q - 1,by omega⟩
    rw [mul_succ,Nat.add_sub_assoc pos,mul_add_div pos,div_eq_of_lt (by omega)]
  · obtain ⟨index,count,_⟩ := last_cluster pos ragged
    rw [index,count]

theorem clustersFor_pos (size : Nat) : clustersFor sb size > 0 ↔ 0 < size := by
  constructor
  · intro some
    by_contra none
    obtain rfl : size = 0 := by omega
    exact lt_irrefl 0 some
  · intro some
    rw [← last_index pos some]
    exact succ_pos _

theorem need_eq (size : Nat) :
    (size + sb.clusterSize - 1) / sb.clusterSize = clustersFor sb size := by
  unfold clustersFor
  split
  · rfl
  · next zero =>
    exact div_eq_of_lt (by omega)

theorem image_take {disk now : Disk} (same : content sb now = content sb disk)
    (cells : List Nat) (keep i : Nat) : image sb now (cells.take keep) i =
      if i < keep * sb.clusterSize then image sb disk cells i else 0 := by
  unfold image
  rw [same,getElem?_take]
  by_cases inside : i < keep * sb.clusterSize
  · rw [if_pos inside,if_pos ((div_lt_iff_lt_mul pos).mpr inside)]
  · rw [if_neg inside,if_neg fun low => inside ((div_lt_iff_lt_mul pos).mp low)]

theorem image_short (disk : Disk) (short : cells.length ≤ keep) (i : Nat) :
    image sb disk cells i = if i < keep * sb.clusterSize then image sb disk cells i else 0 := by
  have taken := image_take pos (rfl : content sb disk = content sb disk) cells keep i
  rwa [take_of_length_le short] at taken

end

theorem split_around (some : keep ≠ 0) (long : keep < cells.length) :
    ∃ front last next rest, cells = front ++ last :: next :: rest ∧ front.length + 1 = keep := by
  obtain ⟨k,rfl⟩ : ∃ k, keep = k + 1 := ⟨keep - 1,by omega⟩
  refine ⟨cells.take k,cells[k],cells[k + 1],cells.drop (k + 2),?_,by rw [length_take]; omega⟩
  rw [getElem_cons_drop,getElem_cons_drop,take_append_drop]

structure Rewritten (sb : Super) (aside : Nat → Prop) (f : Nat) (s : Io) (chains : Nat → List Nat) (img : Nat → UInt8)
    (r : Except Errno Unit) (w : Vol) : Prop where
  kept : ∀ node : Node, node.On (chains f) → Kept sb aside f s chains ⟨w,node⟩ chains
  tables : table sb w.disk = table sb s.vol.disk
  done : r = .ok () → image sb w.disk (chains f) = img
  failed : r ≠ .ok () → image sb w.disk (chains f) = image sb s.vol.disk (chains f)
  granted : (∀ i, s.vol.refusals i = none) → r = .ok ()

theorem Live.asks (live : Live sb aside f s chains) (on : node.On (chains f)) :
    Kept sb aside f s chains ⟨s.vol.asked,node⟩ chains :=
  ⟨⟨live.alloc.same rfl rfl,on⟩,fun _ _ => rfl,fun _ _ _ _ => rfl,fun all i => all (i + 1)⟩

section
variable (geometry : Geometry sb) (live : Live sb aside f s chains)
include geometry live

section
variable {q c : Nat} (here : (chains f)[q]? = some c)
include here

theorem Live.stores (whole : bytes.length = sb.clusterSize) :
    ∃ r w, writeCluster sb s.vol c bytes = (r,w) ∧
      Rewritten sb aside f s chains (withCluster sb (image sb s.vol.disk (chains f)) q bytes) r w := by
  have member := mem_of_getElem? here
  have legal := (live.alloc.chain f).legal c member
  rw [writeCluster_eq legal]
  cases refused : s.vol.refusals 0 with
  | some e =>
    refine ⟨.error e,s.vol.asked,rfl,fun node on => live.asks on,rfl,nofun,fun _ => rfl,fun all => ?_⟩
    rw [all 0] at refused
    cases refused
  | none =>
    have contents := geometry.content_setCluster legal s.vol bytes whole
    have tables := geometry.table_setCluster legal s.vol bytes whole
    refine ⟨.ok (),_,rfl,fun node on => ?_,tables,fun _ => ?_,fun failed => absurd rfl failed,fun _ => rfl⟩
    · refine ⟨⟨live.alloc.same tables rfl,on⟩,fun _ _ => rfl,
        fun g other d theirs => ?_,fun all i => all (i + 1)⟩
      have apart : d ≠ c := by
        rintro rfl
        exact other (live.alloc.part.apart g f d theirs member)
      rw [contents,update_of_ne apart]
    · funext i
      rw [withCluster]
      unfold image
      rw [contents]
      by_cases index : i / sb.clusterSize = q
      · rw [if_pos index,index,here]
        dsimp only
        rw [update_self]
      rw [if_neg index]
      cases there : (chains f)[i / sb.clusterSize]? with
      | none => rfl
      | some d =>
        have other : d ≠ c := by
          rintro rfl
          obtain ⟨first,value⟩ := List.getElem?_eq_some_iff.mp here
          obtain ⟨second,equal⟩ := List.getElem?_eq_some_iff.mp there
          exact index ((live.alloc.distinct f).getElem_inj_iff.mp (equal.trans value.symm))
        dsimp only
        rw [update_of_ne other]

theorem Live.reads : readCluster sb s.vol c = match s.vol.refusals 0 with
      | some e => (.error e,s.vol.asked)
      | none => (.ok (slice (image sb s.vol.disk (chains f)) (q * sb.clusterSize) sb.clusterSize),s.vol.asked) := by
  have same : slice (content sb s.vol.disk c) 0 sb.clusterSize =
      slice (image sb s.vol.disk (chains f)) (q * sb.clusterSize) sb.clusterSize := by
    refine map_congr_left fun j inside => ?_
    have small := mem_range.mp inside
    have pos := geometry.clusterSize_pos
    unfold image
    rw [Nat.mul_comm,mul_add_div pos,div_eq_of_lt small,Nat.add_zero,here,mul_add_mod,
      mod_eq_of_lt small,Nat.zero_add]
  have read := geometry.readCluster ((live.alloc.chain f).legal c (mem_of_getElem? here)) s.vol
  rw [same] at read
  refine read.trans ?_
  cases s.vol.refusals 0 <;> rfl

theorem Live.updates (change : List UInt8 → List UInt8)
    (whole : ∀ bytes, bytes.length = sb.clusterSize → (change bytes).length = sb.clusterSize) :
    ∃ r w, (match readCluster sb s.vol c with
        | (.error e,v) => (.error e,v)
        | (.ok scratch,v) => writeCluster sb v c (change scratch)) = (r,w) ∧
      Rewritten sb aside f s chains (withCluster sb (image sb s.vol.disk (chains f)) q
        (change (slice (image sb s.vol.disk (chains f)) (q * sb.clusterSize) sb.clusterSize))) r w := by
  rw [live.reads geometry here]
  cases refused : s.vol.refusals 0 with
  | some e =>
    refine ⟨.error e,s.vol.asked,rfl,fun node on => live.asks on,rfl,nofun,fun _ => rfl,fun all => ?_⟩
    rw [all 0] at refused
    cases refused
  | none =>
    have asked := live.asks live.on
    obtain ⟨r,w,ran,rewritten⟩ := asked.live.stores geometry here
      (whole (slice (image sb s.vol.disk (chains f)) (q * sb.clusterSize) sb.clusterSize) (slice_length ..))
    exact ⟨r,w,ran,fun node on => asked.trans (rewritten.kept node on),rewritten.tables,rewritten.done,rewritten.failed,
      fun all => rewritten.granted (asked.grants all)⟩

theorem Live.zeroesTail (small : inside ≤ sb.clusterSize) :
    ∃ r w, zeroTail sb s.vol c inside = (r,w) ∧ Rewritten sb aside f s chains
      (patch (image sb s.vol.disk (chains f)) (q * sb.clusterSize + inside)
        (replicate (sb.clusterSize - inside) 0)) r w := by
  have fits : inside + (replicate (sb.clusterSize - inside) (0 : UInt8)).length = sb.clusterSize := by
    rw [length_replicate]
    omega
  obtain ⟨r,w,ran,rewritten⟩ := live.updates geometry here
    (fun scratch => scratch.take inside ++ replicate (sb.clusterSize - inside) 0)
    (fun bytes length => by
      rw [length_append,length_take]
      omega)
  refine ⟨r,w,ran,rewritten.kept,rewritten.tables,fun done => ?_,rewritten.failed,rewritten.granted⟩
  have spliced := slice_splice (image sb s.vol.disk (chains f)) (q * sb.clusterSize) sb.clusterSize inside
    (replicate (sb.clusterSize - inside) 0) (by omega)
  rw [fits,drop_of_length_le (by rw [slice_length]),append_nil] at spliced
  rw [rewritten.done done,spliced,withCluster_slice geometry.clusterSize_pos]
  exact patch_outside geometry.clusterSize_pos (by omega) _

theorem Live.writesChunk (small : inside + chunk.length ≤ sb.clusterSize) :
    ∃ r w, writeChunk sb s.vol c inside chunk = (r,w) ∧ Rewritten sb aside f s chains
      (patch (image sb s.vol.disk (chains f)) (q * sb.clusterSize + inside) chunk) r w := by
  have outside := patch_outside (q := q) geometry.clusterSize_pos small (image sb s.vol.disk (chains f))
  unfold writeChunk
  split
  · obtain ⟨r,w,ran,rewritten⟩ := live.updates geometry here
      (fun scratch => scratch.take inside ++ chunk ++ scratch.drop (inside + chunk.length))
      (fun bytes length => by
        rw [length_append,length_append,length_take,length_drop]
        omega)
    refine ⟨r,w,ran,rewritten.kept,rewritten.tables,fun done => ?_,rewritten.failed,rewritten.granted⟩
    rw [rewritten.done done,slice_splice _ _ _ _ _ small,withCluster_slice geometry.clusterSize_pos outside]
  · next full =>
    simp only [not_or,not_not] at full
    obtain ⟨rfl,whole⟩ := full
    obtain ⟨r,w,ran,rewritten⟩ := live.stores geometry here whole
    refine ⟨r,w,ran,rewritten.kept,rewritten.tables,fun done => ?_,rewritten.failed,rewritten.granted⟩
    rw [rewritten.done done,← withCluster_slice geometry.clusterSize_pos outside,Nat.add_zero,← whole,slice_patch]

end

structure Trimmed (sb : Super) (aside : Nat → Prop) (f size : Nat) (s : Io) (chains : Nat → List Nat) (r : Except Errno Unit)
    (t : Io) : Prop extends Kept sb aside f s chains t chains where
  size_eq : t.node.size = s.node.size
  dirty : t.node.dirty = s.node.dirty
  tables : table sb t.vol.disk = table sb s.vol.disk
  granted : (∀ i, s.vol.refusals i = none) → size ≤ sizeLimit → clustersFor sb size ≤ (chains f).length →
    r = .ok () ∧
      Fat.image sb t.vol.disk (chains f) = trimmed sb (Fat.image sb s.vol.disk (chains f)) size

theorem Live.zeroesBehind
    (here : (chains f)[(size - 1) / sb.clusterSize % 2^32]? = some c) (ragged : size % sb.clusterSize ≠ 0) :
    ∃ r w, zeroTail sb s.vol c (size % sb.clusterSize) = (r,w) ∧ ∀ node : Node, node.On (chains f) →
      node.size = s.node.size → node.dirty = s.node.dirty → Trimmed sb aside f size s chains r ⟨w,node⟩ := by
  have pos := geometry.clusterSize_pos
  obtain ⟨index,_,bytes,rest⟩ := last_cluster pos ragged
  obtain ⟨r,w,ran,rewritten⟩ := live.zeroesTail geometry here (le_of_lt (mod_lt size pos))
  refine ⟨r,w,ran,fun node on sizes dirties => ⟨rewritten.kept node on,sizes,dirties,
    rewritten.tables,fun all limit _ => ?_⟩⟩
  have small : size / sb.clusterSize < 2^32 := by
    have := div_le_self size sb.clusterSize
    unfold sizeLimit at limit
    omega
  have looks := rewritten.done (rewritten.granted all)
  rw [index,mod_eq_of_lt small,bytes,← rest] at looks
  exact ⟨rewritten.granted all,looks⟩

theorem Live.trimsNothing
    (whole : size % sb.clusterSize = 0) (on : node.On (chains f)) (sizes : node.size = s.node.size)
    (dirties : node.dirty = s.node.dirty) : Trimmed sb aside f size s chains (.ok ()) ⟨s.vol,node⟩ :=
  ⟨⟨⟨live.alloc,on⟩,fun _ _ => rfl,fun _ _ _ _ => rfl,id⟩,sizes,dirties,rfl,
    fun _ _ _ => ⟨rfl,(trimmed_whole geometry.clusterSize_pos whole _).symm⟩⟩

theorem Live.trimsShort (some : 0 < size)
    (missing : (chains f)[(size - 1) / sb.clusterSize % 2^32]? = none) (r : Except Errno Unit) :
    Trimmed sb aside f size s chains r s := by
  have short : size ≤ sizeLimit → ¬ clustersFor sb size ≤ (chains f).length := by
    intro limit long
    have index := last_index geometry.clusterSize_pos some
    have small := div_le_self (size - 1) sb.clusterSize
    unfold sizeLimit at limit
    rw [mod_eq_of_lt (by omega),getElem?_eq_none_iff] at missing
    omega
  exact ⟨live.kept,rfl,rfl,rfl,fun _ limit long => absurd long (short limit)⟩

theorem Live.extendsTail (grows : endExcl > s.node.size) :
    ∃ r t, extendTail sb s endExcl = (r,t) ∧ Trimmed sb aside f s.node.size s chains r t := by
  unfold extendTail
  dsimp only
  split
  · next some =>
    have positive := (clustersFor_pos geometry.clusterSize_pos _).mp some.1
    rw [Chain.at geometry (live.alloc.chain f) live.on]
    cases here : (chains f)[(s.node.size - 1) / sb.clusterSize % 2^32]? with
    | none => exact ⟨.ok (),s,rfl,live.trimsShort geometry positive here _⟩
    | some c =>
      dsimp only
      split
      · next ragged =>
        obtain ⟨r,w,ran,trims⟩ := live.zeroesBehind geometry here ragged
        rw [ran]
        exact ⟨r,_,rfl,trims _ (live.on.moved here) rfl rfl⟩
      · next whole =>
        exact ⟨.ok (),_,rfl,live.trimsNothing geometry (not_not.mp whole) (live.on.moved here) rfl rfl⟩
  · next none =>
    have zero : s.node.size = 0 := by
      by_contra some
      exact none ⟨(clustersFor_pos geometry.clusterSize_pos _).mpr (by omega),grows⟩
    refine ⟨.ok (),s,rfl,live.trimsNothing geometry ?_ live.on rfl rfl⟩
    rw [zero,zero_mod]

theorem Live.growsTail : ∃ r t, growTail sb s = (r,t) ∧ Trimmed sb aside f s.node.size s chains r t := by
  unfold growTail
  dsimp only
  split
  · next some =>
    rw [Chain.at geometry (live.alloc.chain f) live.on]
    cases here : (chains f)[(s.node.size - 1) / sb.clusterSize % 2^32]? with
    | none => exact ⟨.ok (),s,rfl,live.trimsShort geometry some.1 here _⟩
    | some c =>
      obtain ⟨r,w,ran,trims⟩ := live.zeroesBehind geometry here some.2
      have done := trims _ (live.on.moved here) rfl rfl
      dsimp only
      rw [ran]
      refine ⟨_,_,rfl,done.toKept,rfl,rfl,done.tables,fun all limit long => ?_⟩
      obtain ⟨rfl,looks⟩ := done.granted all limit long
      exact ⟨rfl,looks⟩
  · next whole =>
    refine ⟨.ok (),s,rfl,live.trimsNothing geometry ?_ live.on rfl rfl⟩
    by_cases zero : s.node.size = 0
    · rw [zero,zero_mod]
    · exact not_not.mp fun ragged => whole ⟨by omega,ragged⟩

theorem Live.shrinksTail (size : Nat) :
    ∃ r t, shrinkTail sb s (clustersFor sb size) size = (r,t) ∧ Trimmed sb aside f size s chains r t := by
  have pos := geometry.clusterSize_pos
  unfold shrinkTail
  split
  · next some =>
    have positive := (clustersFor_pos pos size).mp some.1
    have index : clustersFor sb size - 1 = (size - 1) / sb.clusterSize := by
      rw [← last_index pos positive]
      rfl
    rw [Chain.at geometry (live.alloc.chain f) live.on,index]
    cases here : (chains f)[(size - 1) / sb.clusterSize % 2^32]? with
    | none => exact ⟨.error .enxio,s,rfl,live.trimsShort geometry positive here _⟩
    | some c =>
      obtain ⟨r,w,ran,trims⟩ := live.zeroesBehind geometry here some.2
      dsimp only
      rw [ran]
      exact ⟨r,_,rfl,trims _ (live.on.moved here) rfl rfl⟩
  · next whole =>
    refine ⟨.ok (),s,rfl,live.trimsNothing geometry ?_ live.on rfl rfl⟩
    by_cases zero : size = 0
    · rw [zero,zero_mod]
    · exact not_not.mp fun ragged => whole ⟨(clustersFor_pos pos size).mpr (by omega),ragged⟩

structure Extended (sb : Super) (aside : Nat → Prop) (f endExcl : Nat) (s : Io) (chains : Nat → List Nat) (r : Except Errno Unit)
    (t : Io) (after : Nat → List Nat) : Prop extends Kept sb aside f s chains t after where
  size : t.node.size = s.node.size
  dirty : t.node.dirty = s.node.dirty
  granted : (∀ i, s.vol.refusals i = none) → s.node.size ≤ sizeLimit →
    clustersFor sb s.node.size ≤ (chains f).length →
    clustersFor sb endExcl - clustersFor sb s.node.size ≤ freeEntries sb (table sb s.vol.disk) →
    r = .ok () ∧
      (after f).length = (chains f).length + (clustersFor sb endExcl - clustersFor sb s.node.size) ∧
      Fat.image sb t.vol.disk (after f) = if endExcl > s.node.size
        then trimmed sb (Fat.image sb s.vol.disk (chains f)) s.node.size
        else Fat.image sb s.vol.disk (chains f)

theorem Live.extends (endExcl : Nat) :
    ∃ r t after, extendTo sb s endExcl = (r,t) ∧ Extended sb aside f endExcl s chains r t after := by
  unfold extendTo
  rw [need_eq geometry.clusterSize_pos]
  by_cases grows : endExcl > s.node.size
  · obtain ⟨r,t,ran,trim⟩ := live.extendsTail geometry grows
    rw [ran]
    cases r with
    | error e =>
      refine ⟨.error e,t,chains,rfl,trim.toKept,trim.size_eq,trim.dirty,fun all limit long _ => ?_⟩
      exact absurd (trim.granted all limit long).1 nofun
    | ok done =>
      obtain ⟨r,u,after,grew,grown⟩ := trim.live.grows geometry
        (clustersFor sb endExcl - clustersFor sb s.node.size)
      refine ⟨r,u,after,grew,trim.toKept.trans grown.toKept,grown.size.trans trim.size_eq,
        grown.dirty.trans trim.dirty,fun all limit long free => ?_⟩
      have finished := grown.enough (trim.grants all) (trim.tables ▸ free)
      exact ⟨finished,grown.length finished,by rw [if_pos grows,grown.looks,(trim.granted all limit long).2]⟩
  · have still : extendTail sb s endExcl = (.ok (),s) := by
      unfold extendTail
      rw [if_neg fun both => grows both.2]
    rw [still]
    obtain ⟨r,u,after,grew,grown⟩ := live.grows geometry (clustersFor sb endExcl - clustersFor sb s.node.size)
    refine ⟨r,u,after,grew,grown.toKept,grown.size,grown.dirty,fun all _ _ free => ?_⟩
    have finished := grown.enough all free
    exact ⟨finished,grown.length finished,by rw [if_neg grows,grown.looks]⟩

structure Cut (sb : Super) (aside : Nat → Prop) (f keep : Nat) (s : Io) (chains : Nat → List Nat) (t : Io)
    (after : Nat → List Nat) : Prop extends Kept sb aside f s chains t after where
  cells : after f = (chains f).take keep
  size : t.node.size = s.node.size
  dirty : t.node.dirty = s.node.dirty
  looks : ∀ i, Fat.image sb t.vol.disk (after f) i =
    if i < keep * sb.clusterSize then Fat.image sb s.vol.disk (chains f) i else 0

theorem Live.drops {w : Vol}
    (chain : Chain sb w.disk ((chains f).take keep)) (on : node.On ((chains f).take keep))
    (tables : ∀ c, c ∉ (chains f).take keep →
      table sb w.disk c = cleared (table sb s.vol.disk) ((chains f).drop keep) c)
    (contents : content sb w.disk = content sb s.vol.disk)
    (unknown : s.vol.freeCount = countUnknown → w.freeCount = countUnknown)
    (known : s.vol.freeCount + ((chains f).drop keep).length < countUnknown →
      w.freeCount = s.vol.freeCount + ((chains f).drop keep).length)
    (refusals : w.refusals = s.vol.refusals) (size : node.size = s.node.size)
    (dirty : node.dirty = s.node.dirty) :
    Cut sb aside f keep s chains ⟨w,node⟩ (update chains f ((chains f).take keep)) := by
  have distinct := live.alloc.distinct f
  have halves := take_append_drop keep (chains f)
  have apart : ∀ c ∈ (chains f).take keep, c ∉ (chains f).drop keep := by
    intro c first second
    rw [← halves] at distinct
    exact (nodup_append.mp distinct).2.2 c first c second rfl
  have entries : freeEntries sb (table sb w.disk) =
      freeEntries sb (table sb s.vol.disk) + ((chains f).drop keep).length := by
    rw [← freeEntries_clear (distinct.sublist (drop_sublist keep _))
      (fun c member => (live.alloc.chain f).legal c (mem_of_mem_drop member))
      fun c member => (live.alloc.chain f).used geometry (mem_of_mem_drop member)]
    refine countP_congr fun c _ => ?_
    by_cases kept : c ∈ (chains f).take keep
    · have now := chain.used geometry kept
      have before := (live.alloc.chain f).used geometry (mem_of_mem_take kept)
      simp [now,cleared,apart c kept,before]
    · rw [tables c kept]
  have counted : w.freeCount = countUnknown ∨ w.freeCount = freeEntries sb (table sb w.disk) := by
    rcases live.alloc.count with none | exact_
    · exact .inl (unknown none)
    · have limit := freeEntries_lt geometry (table sb w.disk)
      exact .inr (by rw [known (by omega)]; omega)
  refine ⟨⟨⟨?_,by rwa [update_self]⟩,fun g other => update_of_ne other ..,
    fun _ _ _ _ => by rw [contents],fun all i => ?_⟩,update_self ..,size,dirty,fun i => ?_⟩
  · refine live.alloc.replace geometry f chain (distinct.sublist (take_sublist keep _))
      (fun c member => .inl (mem_of_mem_take member)) (fun c away other => ?_) (fun c member other => ?_)
      counted
    · rw [tables c other,cleared,if_neg fun inside => away (mem_of_mem_drop inside)]
    have inside : c ∈ (chains f).drop keep := by
      rw [← halves] at member
      exact (mem_append.mp member).resolve_left other
    rw [tables c other,cleared,if_pos inside]
  · rw [refusals]
    exact all i
  · rw [update_self]
    exact image_take geometry.clusterSize_pos contents ..

theorem Live.cutsAfter
    (cells : chains f = front ++ last :: next :: rest) (node : Node)
    (head : node.firstCluster = s.node.firstCluster) (size : node.size = s.node.size)
    (dirty : node.dirty = s.node.dirty) : ∃ w, freeChain sb (setEntry sb s.vol last clusterEoc) next = (.ok (),w) ∧
      Cut sb aside f (front.length + 1) s chains
        ⟨w,{node with lastIndex := front.length, lastCluster := last}⟩
        (update chains f ((chains f).take (front.length + 1))) := by
  have chain := live.alloc.chain f
  have distinct := live.alloc.distinct f
  have whole : chains f = (front ++ [last]) ++ next :: rest := by rw [cells,append_assoc]; rfl
  have length : front.length + 1 = (front ++ [last]).length := by simp
  have taken : (chains f).take (front.length + 1) = front ++ [last] := by
    rw [whole,take_left' length.symm]
  have dropped : (chains f).drop (front.length + 1) = next :: rest := by
    rw [whole,drop_left' length.symm]
  rw [whole] at chain distinct
  obtain ⟨firstDistinct,restDistinct,apart⟩ := nodup_append.mp distinct
  have lastAway : last ∉ next :: rest := fun inside => apart last (by simp) last inside rfl
  have frontAway : last ∉ front := fun inside =>
    (nodup_append.mp firstDistinct).2.2 last inside last (by simp) rfl
  have lastLegal := legalEntry_of_cluster (chain.legal last (by simp))
  have marked := geometry.table_setEntry lastLegal clusterEoc s.vol
  rw [eoc_mod] at marked
  have tail : Chain sb (setEntry sb s.vol last clusterEoc).disk (next :: rest) := by
    refine ⟨(chain.linked.suffix (front ++ [last])).congr fun c member => ?_,
      fun c member => chain.legal c (mem_append_right _ member)⟩
    rw [marked,update_of_ne (ne_of_mem_of_not_mem member lastAway)]
  obtain ⟨w,ran,freed⟩ := tail.frees geometry restDistinct (c := next) rfl
  have tables : ∀ c, c ∉ next :: rest → table sb w.disk c = update (table sb s.vol.disk) last clusterEoc c := by
    intro c away
    rw [freed.table,cleared,if_neg away,marked]
  refine ⟨w,ran,live.drops geometry ?_ ?_ (fun c away => ?_)
    (freed.content.trans (geometry.content_setEntry lastLegal clusterEoc s.vol)) freed.unknown
    (by rw [dropped]; exact freed.known) freed.refusals size dirty⟩
  · rw [taken]
    have whole := (live.alloc.chain f).linked
    rw [cells] at whole
    refine ⟨whole.splice (fun c member => ?_) ?_,
      fun c member => chain.legal c (mem_append_left _ member)⟩
    · rw [tables c fun inside => apart c (mem_append_left _ member) c inside rfl,
        update_of_ne (ne_of_mem_of_not_mem member frontAway)]
    · change clusterEoc ≤ _
      rw [tables last lastAway,update_self]
  · rw [taken]
    refine ⟨(head.trans live.on.first).trans ?_,.inr (by simp)⟩
    rw [cells]
    cases front <;> rfl
  · rw [taken] at away
    rw [dropped,freed.table,marked]
    unfold cleared
    split
    · rfl
    · rw [update_of_ne]
      rintro rfl
      exact away (by simp)

theorem Live.cuts (small : keep < 2^32) :
    ∃ t after, cutChain sb s keep = (.ok (),t) ∧ Cut sb aside f keep s chains t after := by
  have chain := live.alloc.chain f
  have pos := geometry.clusterSize_pos
  have stays : (chains f).length ≤ keep → Cut sb aside f keep s chains s chains := fun short =>
    ⟨live.kept,(take_of_length_le short).symm,rfl,rfl,image_short pos _ short⟩
  unfold cutChain
  split
  · next none =>
    subst none
    split
    · obtain ⟨w,ran,freed⟩ := chain.frees geometry (live.alloc.distinct f) live.on.first
      rw [ran]
      refine ⟨_,_,rfl,live.drops geometry (show Chain sb w.disk ((chains f).take 0) from ⟨trivial,nofun⟩) ⟨rfl,.inl Nat.zero_lt_two⟩ (fun c _ => ?_)
        freed.content freed.unknown freed.known freed.refusals rfl rfl⟩
      rw [freed.table,drop_zero]
    rename_i first
    refine ⟨s,chains,rfl,stays ?_⟩
    have head := live.on.first
    cases cells : chains f with
    | nil => exact le_refl 0
    | cons c rest =>
      have low := (geometry.below_marks (chain.legal c (by rw [cells]; simp))).1
      rw [cells] at head
      exact absurd (head ▸ low) first
  · next some =>
    rw [Chain.at geometry chain live.on,mod_eq_of_lt small]
    cases there : (chains f)[keep]? with
    | none => exact ⟨s,chains,rfl,stays (getElem?_eq_none_iff.mp there)⟩
    | some cut =>
      obtain ⟨long,value⟩ := List.getElem?_eq_some_iff.mp there
      obtain ⟨low,_,eoc⟩ := geometry.below_marks (chain.legal cut (mem_of_getElem? there))
      have moved := live.on.moved there
      dsimp only
      rw [if_pos ⟨low,eoc⟩,Chain.at geometry chain moved,mod_eq_of_lt (by omega)]
      obtain ⟨front,last,next,rest,cells,length⟩ := split_around some long
      subst length
      obtain rfl : next = cut := by
        have : (front ++ last :: next :: rest)[front.length + 1]? = .some cut := cells ▸ there
        simpa using this
      have here : (chains f)[front.length + 1 - 1]? = .some last := by
        rw [cells]
        simp
      rw [here]
      dsimp only
      rw [writeEntry_eq _ _ (legalEntry_of_cluster (chain.legal last (by rw [cells]; simp)))]
      obtain ⟨w,ran,cut⟩ := live.cutsAfter geometry cells
        {s.node with lastIndex := front.length, lastCluster := last} rfl rfl rfl
      dsimp only
      rw [ran]
      exact ⟨_,_,rfl,cut⟩

end

end SurfaceOS.Fat
