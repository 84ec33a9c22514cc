import SurfaceOS.Fat.Transfers

/-! Files as byte arrays. A file is its bytes: reading returns them, writing replaces a range and
pads with zeroes up to it, truncating drops the tail or appends zeroes. The calls on the volume are
shown to do exactly that, file by file. -/
namespace SurfaceOS.Fat
open Lib Lib.Memory List Nat

variable {a b i len size : Nat} {src : List UInt8}

def overwrite (bytes : List UInt8) (off : Nat) (src : List UInt8) : List UInt8 :=
  let padded := bytes ++ replicate (off + src.length - bytes.length) 0
  padded.take off ++ src ++ padded.drop (off + src.length)

def resize (bytes : List UInt8) (size : Nat) : List UInt8 :=
  bytes.take size ++ replicate (size - bytes.length) 0

variable {sb : Super} {aside : Nat → Prop} {f : Nat} {s t : Io} {chains after : Nat → List Nat}

structure Stores (sb : Super) (size : Nat) (img : Nat → UInt8) (capacity : Nat) (bytes : List UInt8) : Prop where
  size : size = bytes.length
  limit : bytes.length ≤ sizeLimit
  seen : slice img 0 bytes.length = bytes
  behind : ∀ i, roundUp sb bytes.length ≤ i → img i = 0
  room : clustersFor sb bytes.length ≤ capacity

variable {bytes : List UInt8} {capacity more off : Nat} {img : Nat → UInt8}

theorem trimmed_behind
    (behind : ∀ i, roundUp sb size ≤ i → img i = 0) (here : size ≤ i) : trimmed sb img size i = 0 := by
  unfold trimmed
  rcases lt_or_ge i (roundUp sb size) with inside | beyond
  · rw [patch_at _ _ _ _ here (by rw [length_replicate]; omega)]
    simp
  · rw [patch_after _ _ _ _ (by rw [length_replicate]; omega)]
    exact behind i beyond

theorem slice_trimmed (img : Nat → UInt8) (size : Nat) : slice (trimmed sb img size) 0 size = slice img 0 size :=
  slice_congr _ _ _ _ fun i inside => by
    rw [Nat.zero_add]
    exact patch_before _ _ _ _ inside

theorem clustersFor_mono (pos : 0 < sb.clusterSize) (less : a ≤ b) : clustersFor sb a ≤ clustersFor sb b := by
  rw [← need_eq pos,← need_eq pos]
  exact Nat.div_le_div_right (by omega)

theorem slice_zeroes (seen : slice img 0 bytes.length = bytes) (zero : ∀ i, bytes.length ≤ i → img i = 0) (more : Nat) :
    slice img 0 (bytes.length + more) = bytes ++ replicate more 0 := by
  rw [slice_add]
  congr 1
  rw [eq_replicate_iff]
  refine ⟨slice_length ..,fun x member => ?_⟩
  obtain ⟨i,_,rfl⟩ := mem_map.mp member
  exact zero _ (by omega)

def stretched (sb : Super) (img : Nat → UInt8) (size endExcl : Nat) : Nat → UInt8 :=
  if endExcl > size then trimmed sb img size else img

section
variable {size : Nat} (pos : 0 < sb.clusterSize) (stores : Stores sb size img capacity bytes) (endExcl : Nat)
include pos stores endExcl

theorem Stores.stretch (larger : capacity ≤ more) : Stores sb size (stretched sb img size endExcl) more bytes := by
  refine ⟨stores.size,stores.limit,?_,fun i beyond => ?_,le_trans stores.room larger⟩
  · unfold stretched
    split
    · rw [stores.size,slice_trimmed,stores.seen]
    · exact stores.seen
  unfold stretched
  have up := roundUp_le pos bytes.length
  split
  · rw [stores.size]
    exact trimmed_behind stores.behind (by omega)
  · exact stores.behind i beyond

omit pos in
theorem Stores.padded : slice (stretched sb img size endExcl) 0 (max bytes.length endExcl) =
      bytes ++ replicate (endExcl - bytes.length) 0 := by
  unfold stretched
  split
  · next grows =>
    rw [show max bytes.length endExcl = bytes.length + (endExcl - bytes.length) by omega,stores.size]
    refine slice_zeroes (by rw [slice_trimmed,stores.seen]) (fun i behind => ?_) _
    exact trimmed_behind stores.behind behind
  rename_i stays
  rw [stores.size] at stays
  rw [show max bytes.length endExcl = bytes.length by omega,stores.seen,
    show endExcl - bytes.length = 0 by omega,replicate_zero,append_nil]

end

theorem overwrite_length (bytes : List UInt8) (off : Nat) (src : List UInt8) :
    (overwrite bytes off src).length = max bytes.length (off + src.length) := by
  simp only [overwrite,length_append,length_take,length_drop,length_replicate]
  omega

theorem Stores.write (pos : 0 < sb.clusterSize) (stores : Stores sb size img capacity bytes)
    (limit : off + src.length ≤ sizeLimit) (room : clustersFor sb (max bytes.length (off + src.length)) ≤ more) :
    Stores sb (max size (off + src.length)) (patch (stretched sb img size (off + src.length)) off src) more
      (overwrite bytes off src) := by
  have length := overwrite_length bytes off src
  have stays := stores.limit
  refine ⟨by rw [length,stores.size],by omega,?_,fun i beyond => ?_,by rwa [length]⟩
  · have spliced := slice_splice (stretched sb img size (off + src.length)) 0
      (max bytes.length (off + src.length)) off src (by omega)
    rw [stores.padded,Nat.zero_add] at spliced
    rw [length]
    exact spliced.symm
  rw [length] at beyond
  have up := roundUp_le pos (max bytes.length (off + src.length))
  rw [patch_after _ _ _ _ (by omega)]
  exact (stores.stretch pos (off + src.length) (le_refl capacity)).behind i
    (le_trans (mul_le_mul_right _ (clustersFor_mono pos (le_max_left ..))) beyond)

theorem resize_length (bytes : List UInt8) (size : Nat) : (resize bytes size).length = size := by
  simp only [resize,length_append,length_take,length_replicate]
  omega

section
variable {old size : Nat} (pos : 0 < sb.clusterSize) (stores : Stores sb old img capacity bytes)
include pos stores

theorem Stores.grow (limit : size ≤ sizeLimit) (grows : size > old) (room : clustersFor sb size ≤ more) :
    Stores sb size (trimmed sb (stretched sb img old size) old) more (resize bytes size) := by
  have length := resize_length bytes size
  have stretch := stores.stretch pos size (le_refl capacity)
  have zero : ∀ i, bytes.length ≤ i → trimmed sb (stretched sb img old size) old i = 0 := by
    intro i behind
    rw [stores.size]
    exact trimmed_behind (stores.size ▸ stretch.behind) behind
  have up := roundUp_le pos size
  have shorter := stores.size
  refine ⟨length.symm,by rwa [length],?_,fun i beyond => zero i (by rw [length] at beyond; omega),by rwa [length]⟩
  rw [length,resize,take_of_length_le (by omega)]
  have seen : slice (trimmed sb (stretched sb img old size) old) 0 bytes.length = bytes := by
    rw [stores.size,slice_trimmed]
    exact stores.size ▸ stretch.seen
  have long := slice_zeroes seen zero (size - bytes.length)
  rwa [Nat.add_sub_cancel' (by omega)] at long

theorem Stores.shrink {cut : Nat → UInt8} (shrinks : size ≤ old)
    (kept : ∀ i, cut i = if i < roundUp sb size then img i else 0) :
    Stores sb size (trimmed sb cut size) (min (clustersFor sb size) capacity) (resize bytes size) := by
  have length := resize_length bytes size
  have limit := stores.limit
  have sizes := stores.size
  have up := roundUp_le pos size
  have zero : ∀ i, size ≤ i → trimmed sb cut size i = 0 := fun i behind =>
    trimmed_behind (fun j beyond => by rw [kept,if_neg (not_lt.mpr beyond)]) behind
  refine ⟨length.symm,by omega,?_,fun i beyond => zero i (by rw [length] at beyond; omega),?_⟩
  · rw [length,slice_trimmed,resize,show size - bytes.length = 0 by omega,replicate_zero,append_nil]
    have same : slice cut 0 size = slice img 0 size := slice_congr _ _ _ _ fun i inside => by
      rw [Nat.zero_add,kept,if_pos (lt_of_lt_of_le inside up)]
    rw [same,← slice_take img 0 bytes.length size (by omega),stores.seen]
  rw [length]
  have := clustersFor_mono pos (show size ≤ bytes.length by omega)
  have := stores.room
  omega

end

def needed (sb : Super) (size endExcl : Nat) : Nat :=
  if endExcl ≤ sizeLimit then clustersFor sb endExcl - clustersFor sb size else 0

def piece : Nat := 256 * 1024

structure Holding (sb : Super) (aside : Nat → Prop) (f : Nat) (s : Io) (chains : Nat → List Nat) (bytes : List UInt8) : Prop
    extends Live sb aside f s chains where
  stores : Stores sb s.node.size (image sb s.vol.disk (chains f)) (chains f).length bytes

/-- What a call leaves when nothing runs out: `holds` says which bytes the file has then. -/
def Achieves (sb : Super) (aside : Nat → Prop) (f : Nat) (s : Io) (chains : Nat → List Nat) (endExcl : Nat)
    (holds : List UInt8 → Prop) : Prop :=
  ∀ bytes, Holding sb aside f s chains bytes → Grants s.vol →
    needed sb bytes.length endExcl ≤ freeEntries sb (table sb s.vol.disk) → holds bytes

theorem Kept.resized (kept : Kept sb aside f s chains t after) :
    Kept sb aside f s chains (t.resized size) after :=
  ⟨⟨kept.live.alloc,⟨kept.live.on.first,kept.live.on.cache⟩⟩,kept.others,kept.bytes,kept.grants⟩

theorem Holding.extends {endExcl : Nat} {r : Except Errno Unit} (holding : Holding sb aside f s chains bytes)
    (extended : Extended sb aside f endExcl s chains r t after) (all : Grants s.vol) (limit : endExcl ≤ sizeLimit)
    (free : needed sb bytes.length endExcl ≤ freeEntries sb (table sb s.vol.disk)) :
    r = .ok () ∧ (after f).length = (chains f).length + (clustersFor sb endExcl - clustersFor sb bytes.length) ∧
      image sb t.vol.disk (after f) = stretched sb (image sb s.vol.disk (chains f)) s.node.size endExcl := by
  have sizes := holding.stores.size
  rw [needed,if_pos limit,← sizes] at free
  have reached := extended.granted all (sizes ▸ holding.stores.limit) (sizes ▸ holding.stores.room) free
  rwa [sizes] at reached ⊢

section
variable (geometry : Geometry sb) (live : Live sb aside f s chains)
include geometry live

theorem Live.growsTo (limit : size ≤ sizeLimit) (grows : size > s.node.size) :
    ∃ r t after, growTo sb s size = (r,t) ∧ Kept sb aside f s chains t after ∧
      Achieves sb aside f s chains size fun bytes => r = .ok () ∧ Holding sb aside f t after (resize bytes size) := by
  have pos := geometry.clusterSize_pos
  obtain ⟨r,u,after,ran,extended⟩ := live.extends geometry size
  unfold growTo
  rw [ran]
  cases r with
  | error e =>
    refine ⟨_,_,_,rfl,extended.toKept,fun bytes holding all free => ?_⟩
    exact absurd (holding.extends extended all limit free).1 nofun
  | ok _ =>
    obtain ⟨r,t,zeroed,trim⟩ := extended.live.growsTail geometry
    dsimp only
    rw [zeroed]
    have kept := extended.toKept.trans trim.toKept
    have reaches : Achieves sb aside f s chains size fun bytes =>
        r = .ok () ∧ Holding sb aside f (t.resized size) after (resize bytes size) := by
      intro bytes holding all free
      obtain ⟨_,length,looks⟩ := holding.extends extended all limit free
      have sizes := holding.stores.size
      have stretch := holding.stores.stretch pos size (show _ ≤ (after f).length by omega)
      obtain ⟨done,final⟩ := trim.granted (extended.grants all)
        (by rw [extended.size,sizes]; exact stretch.limit) (by rw [extended.size,sizes]; exact stretch.room)
      refine ⟨done,⟨kept.resized.live,?_⟩⟩
      have room := holding.stores.room
      have grown := holding.stores.grow pos limit grows (show _ ≤ (after f).length by omega)
      rw [extended.size,looks] at final
      exact final ▸ grown
    cases r with
    | error e => exact ⟨_,_,_,rfl,kept,fun bytes holding all free =>
        absurd (reaches bytes holding all free).1 nofun⟩
    | ok _ => exact ⟨_,_,_,rfl,kept.resized,reaches⟩

theorem Live.shrinksTo (limit : size ≤ sizeLimit) (shrinks : size ≤ s.node.size) :
    ∃ r t after, shrinkTo sb s size = (r,t) ∧ Kept sb aside f s chains t after ∧
      Achieves sb aside f s chains size fun bytes => r = .ok () ∧ Holding sb aside f t after (resize bytes size) := by
  have pos := geometry.clusterSize_pos
  have small : clustersFor sb size < 2^32 := by
    have mono := clustersFor_mono pos limit
    have bound : clustersFor sb sizeLimit ≤ sizeLimit := by
      rw [← last_index pos (show 0 < sizeLimit by decide)]
      have := div_le_self (sizeLimit - 1) sb.clusterSize
      unfold sizeLimit at this ⊢
      omega
    unfold sizeLimit at bound mono
    omega
  obtain ⟨u,after,ran,cut⟩ := live.cuts geometry small
  unfold shrinkTo
  dsimp only
  rw [ran]
  obtain ⟨r,t,zeroed,trim⟩ := cut.live.shrinksTail geometry size
  dsimp only
  rw [zeroed]
  have kept := cut.toKept.trans trim.toKept
  have reaches : Achieves sb aside f s chains size fun bytes =>
      r = .ok () ∧ Holding sb aside f (t.resized size) after (resize bytes size) := by
    intro bytes holding all _
    have shrunk := holding.stores.shrink pos shrinks cut.looks
    have length : (after f).length = min (clustersFor sb size) (chains f).length := by
      rw [cut.cells,length_take]
    rw [← length] at shrunk
    have room := shrunk.room
    rw [resize_length] at room
    obtain ⟨done,final⟩ := trim.granted (cut.grants all) limit room
    exact ⟨done,⟨kept.resized.live,final ▸ shrunk⟩⟩
  cases r with
  | error e => exact ⟨_,_,_,rfl,kept,fun bytes holding all free =>
      absurd (reaches bytes holding all free).1 nofun⟩
  | ok _ => exact ⟨_,_,_,rfl,kept.resized,reaches⟩

theorem Live.truncates (size : Nat) : ∃ r t after, truncate sb s size = (r,t) ∧ Kept sb aside f s chains t after ∧
      Achieves sb aside f s chains size fun bytes =>
        (size ≤ sizeLimit ∧ r = .ok () ∧ Holding sb aside f t after (resize bytes size)) ∨
        (size > sizeLimit ∧ r ≠ .ok () ∧ Holding sb aside f t after bytes) := by
  unfold truncate
  split
  · next large =>
    exact ⟨_,_,_,rfl,live.kept,fun bytes holding _ _ => .inr ⟨large,nofun,holding⟩⟩
  rename_i limit
  have limited : size ≤ sizeLimit := not_lt.mp limit
  split
  · next same =>
    refine ⟨_,_,_,rfl,live.kept,fun bytes holding _ _ => .inl ⟨limited,rfl,?_⟩⟩
    have whole : resize bytes size = bytes := by
      rw [same,holding.stores.size]
      simp [resize]
    rwa [whole]
  split
  · next grows =>
    obtain ⟨r,t,after,ran,kept,reaches⟩ := live.growsTo geometry limited grows
    exact ⟨r,t,after,ran,kept,fun bytes holding all free => .inl ⟨limited,reaches bytes holding all free⟩⟩
  · next stays =>
    obtain ⟨r,t,after,ran,kept,reaches⟩ := live.shrinksTo geometry limited (not_lt.mp stays)
    exact ⟨r,t,after,ran,kept,fun bytes holding all free => .inl ⟨limited,reaches bytes holding all free⟩⟩

end

theorem wrapped_index (pos : 0 < sb.clusterSize) (aligned : sb.clusterSize ∣ 2^32) (small : len ≤ piece)
    (large : off < 2^64) (wraps : 2^64 ≤ off + len) : 2^32 - piece ≤ off / sb.clusterSize % 2^32 := by
  obtain ⟨k,width⟩ := aligned
  have total : 2^64 = sb.clusterSize * (k * 2^32) := calc
    2^64 = 2^32 * 2^32 := by decide
    _ = sb.clusterSize * k * 2^32 := by rw [← width]
    _ = sb.clusterSize * (k * 2^32) := Nat.mul_assoc ..
  obtain ⟨d,rfl⟩ : ∃ d, off = 2^64 - d := ⟨2^64 - off,by omega⟩
  have scaled : d ≤ sb.clusterSize * d := Nat.le_mul_of_pos_left d pos
  have low : k * 2^32 - d ≤ (2^64 - d) / sb.clusterSize := by
    rw [le_div_iff_mul_le pos,Nat.mul_comm,Nat.mul_sub]
    omega
  have high : (2^64 - d) / sb.clusterSize < k * 2^32 := by
    rw [div_lt_iff_lt_mul pos,Nat.mul_comm]
    omega
  omega

theorem slice_part (seen : slice img 0 bytes.length = bytes)
    (fits : off + len ≤ bytes.length) : slice img off len = (bytes.drop off).take len := by
  rw [← seen,slice_drop _ _ _ _ (by omega),slice_take _ _ _ _ (by omega),Nat.zero_add]

section
variable (geometry : Geometry sb) (live : Live sb aside f s chains)
include geometry live

theorem Live.writesNothing
    (some : src.length ≠ 0) (small : src.length ≤ piece) (large : off < 2^64) (wraps : 2^64 ≤ off + src.length) :
    writeLoop sb src.length s off src 0 = (.error .enxio,0,s) := by
  obtain ⟨fuel,length⟩ := exists_eq_succ_of_ne_zero some
  have far := wrapped_index geometry.clusterSize_pos geometry.aligned small large wraps
  have bound := (live.alloc.chain f).length_le (live.alloc.distinct f)
  have marks := geometry.marks
  have missing : (chains f)[off / sb.clusterSize % 2^32]? = none := by
    unfold piece at far
    unfold clusterBad at marks
    exact getElem?_eq_none (by omega)
  rw [length]
  unfold writeLoop
  rw [if_neg some]
  dsimp only
  rw [Chain.at geometry (live.alloc.chain f) live.on,missing]

theorem Live.writesAt (off : Nat) (src : List UInt8) :
    ∃ r done t after, writeAt sb s off src = (r,done,t) ∧ Kept sb aside f s chains t after ∧
      (off < 2^64 → src.length ≤ piece → Achieves sb aside f s chains ((off + src.length) % 2^64) fun bytes =>
        (src = [] ∧ r = .ok () ∧ done = 0 ∧ Holding sb aside f t after bytes) ∨
        (src ≠ [] ∧ off + src.length ≤ sizeLimit ∧ r = .ok () ∧ done = src.length ∧
          Holding sb aside f t after (overwrite bytes off src)) ∨
        (src ≠ [] ∧ off + src.length > sizeLimit ∧ r ≠ .ok () ∧ done = 0 ∧ Holding sb aside f t after bytes)) := by
  have pos := geometry.clusterSize_pos
  unfold writeAt
  split
  · next none =>
    have empty := eq_nil_of_length_eq_zero none
    exact ⟨_,_,_,_,rfl,live.kept,fun _ _ bytes holding _ _ => .inl ⟨empty,rfl,rfl,holding⟩⟩
  rename_i some
  have nonempty : src ≠ [] := fun empty => some (by rw [empty]; rfl)
  split
  · next large =>
    refine ⟨_,_,_,_,rfl,live.kept,fun _ _ bytes holding _ _ => .inr (.inr ⟨nonempty,?_,nofun,rfl,holding⟩)⟩
    omega
  rename_i fits
  have limit : (off + src.length) % 2^64 ≤ sizeLimit := not_lt.mp fits
  obtain ⟨r,u,after,ran,extended⟩ := live.extends geometry ((off + src.length) % 2^64)
  rw [ran]
  cases r with
  | error e =>
    refine ⟨_,_,_,_,rfl,extended.toKept,fun _ _ bytes holding all free => ?_⟩
    exact absurd (holding.extends extended all limit free).1 nofun
  | ok _ =>
    obtain ⟨r,done,t,wrote,out⟩ := extended.live.writesLoop geometry src.length off src 0
    dsimp only
    rw [wrote]
    have kept := extended.toKept.trans out.toKept
    have reaches : off < 2^64 → src.length ≤ piece → Achieves sb aside f s chains ((off + src.length) % 2^64)
        fun bytes => (off + src.length ≤ sizeLimit ∧ r = .ok () ∧ done = src.length ∧
          Holding sb aside f (t.resized (max t.node.size (off + src.length))) after (overwrite bytes off src)) ∨
        (off + src.length > sizeLimit ∧ r ≠ .ok () ∧ done = 0 ∧ Holding sb aside f t after bytes) := by
      intro large small bytes holding all free
      obtain ⟨_,length,looks⟩ := holding.extends extended all limit free
      have room := holding.stores.room
      by_cases wraps : 2^64 ≤ off + src.length
      · rw [extended.live.writesNothing geometry some small large wraps] at wrote
        cases wrote
        refine .inr ⟨by unfold sizeLimit; omega,nofun,rfl,extended.live,?_⟩
        rw [looks,extended.size]
        exact holding.stores.stretch pos _ (by omega)
      rw [mod_eq_of_lt (not_le.mp wraps)] at limit length looks
      have enough : clustersFor sb (max bytes.length (off + src.length)) ≤ (after f).length := by
        rcases le_total bytes.length (off + src.length) with more | less
        · rw [max_eq_right more]
          omega
        · rw [max_eq_left less]
          omega
      have covered : off + src.length ≤ (after f).length * sb.clusterSize := by
        have up := roundUp_le pos (max bytes.length (off + src.length))
        have scaled := mul_le_mul_right sb.clusterSize enough
        unfold roundUp at up
        omega
      obtain ⟨finished,total,final⟩ := out.granted (extended.grants all) (le_refl _) limit covered
      refine .inl ⟨limit,finished,by omega,⟨kept.resized.live,?_⟩⟩
      have written := holding.stores.write pos limit enough
      rw [looks] at final
      change Stores sb (max t.node.size (off + src.length)) (image sb t.vol.disk (after f)) _ _
      rw [final,out.size,extended.size]
      exact written
    cases r with
    | error e =>
      refine ⟨_,_,_,_,rfl,kept,fun large small bytes holding all free => .inr (.inr ?_)⟩
      rcases reaches large small bytes holding all free with ⟨_,finished,_⟩ | failed
      · cases finished
      · exact ⟨nonempty,failed⟩
    | ok _ =>
      refine ⟨_,_,_,_,rfl,kept.resized,fun large small bytes holding all free => .inr (.inl ?_)⟩
      rcases reaches large small bytes holding all free with written | ⟨_,failed,_⟩
      · exact ⟨nonempty,written⟩
      · exact absurd rfl failed

theorem Live.readsAt (off len : Nat) :
    Kept sb aside f s chains (readAt sb s off len).io chains ∧
      (len ≤ piece → ∀ bytes, Holding sb aside f s chains bytes → Grants s.vol →
        (readAt sb s off len).error = none ∧ (readAt sb s off len).bytes = (bytes.drop off).take len ∧
          Holding sb aside f (readAt sb s off len).io chains bytes) := by
  have pos := geometry.clusterSize_pos
  unfold readAt
  split
  · next none =>
    subst none
    exact ⟨live.kept,fun _ bytes holding _ => ⟨rfl,(take_zero ..).symm,holding⟩⟩
  split
  · next beyond =>
    refine ⟨live.kept,fun _ bytes holding _ => ⟨rfl,?_,holding⟩⟩
    rw [holding.stores.size] at beyond
    rw [drop_eq_nil_of_le beyond,take_nil]
  generalize clipped : (if (off + len) % 2^64 > s.node.size then s.node.size - off else len) = count
  have out := live.readsLoop geometry count off count []
  refine ⟨out.toKept,fun small bytes holding all => ?_⟩
  have sizes := holding.stores.size
  have limit := holding.stores.limit
  have room := holding.stores.room
  have inside : count = min len (bytes.length - off) := by
    unfold piece at small
    unfold sizeLimit at limit
    rw [← clipped]
    split <;> omega
  have covered : off + count ≤ (chains f).length * sb.clusterSize := by
    have up := roundUp_le pos bytes.length
    have scaled := mul_le_mul_right sb.clusterSize room
    unfold roundUp at up
    omega
  obtain ⟨fine,read⟩ := out.granted all (le_refl _) (by omega) covered
  refine ⟨fine,?_,⟨out.live,?_⟩⟩
  · rw [read,nil_append,slice_part holding.stores.seen (by omega),inside,← length_drop,
      ← take_eq_take_min]
  · rw [out.size,out.disk]
    exact holding.stores

end

end SurfaceOS.Fat
