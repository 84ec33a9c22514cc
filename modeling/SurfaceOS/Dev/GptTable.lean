import SurfaceOS.Dev.Part

/-! What `parse_gpt` looks at. A header gives the number and the size of the entries and where they are;
their product, rounded up to sectors, and the sum that ends the array can wrap around. -/
namespace SurfaceOS.Part
open Lib Usb.Msc Block List Nat Lib.Memory

variable {seen : List Nat} {i left size esz k n num : Nat} {l : Loop} {m : Medium} {g : Geometry} {h : GptHeader}
  {d : Driver}

theorem power_of_two (low : 512 ≤ n) (high : n ≤ 4096) (masked : n &&& (n - 1) = 0) : n ∣ 4096 := by
  have all : ∀ k, k < 9 → ∀ j, j < 512 → 512 ≤ 512 * k + j → 512 * k + j &&& (512 * k + j - 1) = 0 →
      512 * k + j ∣ 4096 ∨ 4096 < 512 * k + j := by decide +kernel
  have split : 512 * (n / 512) + n % 512 = n := div_add_mod n 512
  have found := all (n / 512) (by omega) (n % 512) (mod_lt n (by decide))
  rw [split] at found
  exact (found low masked).resolve_right (by omega)

theorem blockSize_dvd (g : Geometry) : g.blockSize.toNat ∣ 2^32 := by
  have bounds := g.bounds
  have registered := g.registered
  simp only [registerable,Bool.not_eq_true',decide_eq_false_iff_not,not_or,decide_eq_true_eq,not_not] at registered
  have masked := congrArg UInt32.toNat registered.2.2.1
  rw [UInt32.toNat_and,UInt32.toNat_sub_of_le _ _ (by rw [UInt32.le_iff_toNat_le]; simp only [UInt32.reduceToNat]; omega)] at masked
  exact (power_of_two bounds.1 bounds.2.1 masked).trans (by decide)

theorem tableSectors_toNat (g : Geometry) (num esz : UInt32) : (tableSectors g.blockSize num esz).toNat =
    (num.toNat * esz.toNat + g.blockSize.toNat - 1) % 2^32 / g.blockSize.toNat := by
  have bounds := g.bounds
  have wraps (a b : Nat) (pos : 0 < b) (small : b ≤ 4096) :
      (2^32 - 1 + (a % 2^32 + b) % 2^32) % 2^32 = (a + b - 1) % 2^32 := by
    omega
  unfold tableSectors
  rw [UInt32.toNat_div,UInt32.toNat_sub,UInt32.toNat_add,UInt32.toNat_mul]
  simp only [UInt32.reduceToNat]
  rw [wraps _ _ (by omega) bounds.2.1]
structure Taken (m : Medium) (h : GptHeader) (before : Driver) (bytes : List UInt8) (after : Driver) : Prop where
  size : gptEntrySize ≤ h.entrySize.toNat
  some : 0 < h.numEntries.toNat
  few : h.numEntries.toNat ≤ 128
  room : tableSectors m.g.blockSize h.numEntries h.entrySize ≠ 0
  read : readEntries m h.entriesLba (tableSectors m.g.blockSize h.numEntries h.entrySize).toNat 0 [] before =
    (.some bytes,after)

variable {after : Driver} {bytes out : List UInt8} {s sectors : Nat} {lba : UInt64}

theorem parseGpt_taken {heap : Heap} {r : Registry} (accepted : (parseGpt m heap h r d).table = some (bytes,seen)) :
    Taken m h d bytes (parseGpt m heap h r d).driver ∧
      seen = (gptLoop m (patch heap.behind 0 bytes) h.entrySize.toNat h.numEntries.toNat 0 ⟨r,0,[]⟩).seen := by
  revert accepted
  fun_cases parseGpt m heap h r d with
  | case5 _ _ range _ _ there _ _ ran =>
    rintro ⟨⟩
    simp only [not_or,UInt32.lt_iff_toNat_lt,not_lt] at range
    exact ⟨⟨range.1,pos_of_ne_zero fun zero => range.2.1 (UInt32.toNat_inj.mp zero),range.2.2,
      (not_or.mp there).2,ran⟩,rfl⟩
  | _ => nofun

theorem gptLoop_seen {table : Nat → UInt8}
    (looked : k ∈ (gptLoop m table size left i l).seen) : k ∈ l.seen ∨ k < i + left := by
  induction left generalizing i l with
  | zero => exact .inl looked
  | succ left ih =>
    have step {next : Loop} (same : next.seen = l.seen ++ [i]) (inside : k ∈ next.seen ∨ k < i + 1 + left) :
        k ∈ l.seen ∨ k < i + (left + 1) := by
      rcases inside with before | later
      · rw [same,mem_append,mem_singleton] at before
        exact before.imp id fun here => by omega
      · exact .inr (by omega)
    rw [gptLoop] at looked
    split at looked
    · exact step rfl (ih looked)
    split at looked
    · exact step rfl (ih looked)
    · split at looked
      · exact step rfl (.inl looked)
      · exact step rfl (ih looked)

theorem piece_toNat (g : Geometry) (left : Nat) :
    (UInt32.ofNat (min (maxSectorsPerIo g).toNat left)).toNat = min (maxSectorsPerIo g).toNat left :=
  UInt32.toNat_ofNat_of_lt (lt_of_le_of_lt (min_le_left ..) (UInt32.toNat_lt _))

theorem sectorCount_small (m : Medium) : m.sectorCount.toNat < 2^32 := by
  have bounds := m.g.bounds
  rw [Medium.sectorCount,disk_sectorCount]
  exact bounds.2.2

theorem sector_toNat (lba : UInt64) (s : Nat) : (lba + UInt64.ofNat s).toNat = (lba.toNat + s) % 2^64 := by
  rw [UInt64.toNat_add,UInt64.toNat_ofNat']
  omega

theorem readEntries_step (more : s < sectors)
    (went : readEntries m lba sectors s out d = (some bytes,after)) : ∃ part middle,
      m.read d (lba + UInt64.ofNat s) (UInt32.ofNat (min (maxSectorsPerIo m.g).toNat (sectors - s))) = (.ok part,middle) ∧
      readEntries m lba sectors (s + (maxSectorsPerIo m.g).toNat) (out ++ part) middle = (some bytes,after) := by
  rw [readEntries,if_pos more] at went
  split at went
  · cases went
  · next part middle read => exact ⟨part,middle,read,went⟩

theorem readEntries_carried (inside : lba.toNat + sectors ≤ m.sectorCount.toNat)
    (went : readEntries m lba sectors s out d = (some bytes,after)) :
    Carried .read d after (lba.toNat + s) (sectors - s) ∧
      bytes.length = out.length + (sectors - s) * m.g.blockSize.toNat := by
  have small := sectorCount_small m
  fun_induction readEntries m lba sectors s out d with
  | case1 => cases went
  | case2 s out d more part middle read ih =>
    have start := sector_toNat lba s
    have count := piece_toNat m.g (sectors - s)
    have stays : ¬ Escapes (.disk m.g) (lba + UInt64.ofNat s)
        (UInt32.ofNat (min (maxSectorsPerIo m.g).toNat (sectors - s))) := by
      rintro ⟨wraps,-⟩
      omega
    have nested : Nested (.disk m.g) := trivial
    have first := (proper_of_ok nested stays read).carried
    have length := transfer_length read
    obtain ⟨carried,total⟩ := ih went
    rw [start,count,mod_eq_of_lt (by omega),Blkdev.base,zero_add] at first
    rw [count] at length
    rw [length_append,length] at total
    rw [show sectors - s = min (maxSectorsPerIo m.g).toNat (sectors - s) + (sectors - (s + (maxSectorsPerIo m.g).toNat)) by
      omega]
    refine ⟨first.append ?_,?_⟩
    · by_cases whole : (maxSectorsPerIo m.g).toNat ≤ sectors - s
      · rwa [min_eq_left whole,add_assoc]
      · have none : sectors - (s + (maxSectorsPerIo m.g).toNat) = 0 := by omega
        rw [none] at carried ⊢
        exact carried
    · rw [total,add_mul,add_assoc]
      rfl
  | case3 s out d all =>
    cases went
    rw [show sectors - s = 0 by omega]
    exact ⟨⟨[],by simp,by simp,rfl⟩,by simp⟩

theorem read_checked {part : List UInt8}
    (read : m.read d (lba + UInt64.ofNat s) (UInt32.ofNat (min (maxSectorsPerIo m.g).toNat (sectors - s))) =
      (.ok part,after)) :
    (lba.toNat + s + min (maxSectorsPerIo m.g).toNat (sectors - s)) % 2^64 ≤ m.sectorCount.toNat := by
  have checked := (transfer_ok read).2.1
  rw [sector_toNat,piece_toNat] at checked
  change _ ≤ m.sectorCount.toNat at checked
  omega

theorem readEntries_ends (more : s < sectors) (went : readEntries m lba sectors s out d = (some bytes,after)) :
    (lba.toNat + sectors) % 2^64 ≤ m.sectorCount.toNat := by
  fun_induction readEntries m lba sectors s out d with
  | case1 => cases went
  | case2 s out d _ part middle read ih =>
    by_cases last : s + (maxSectorsPerIo m.g).toNat < sectors
    · exact ih last went
    · have checked := read_checked read
      rwa [min_eq_right (by omega),add_assoc,Nat.add_sub_cancel' (le_of_lt more)] at checked
  | case3 => contradiction

theorem Taken.reached (taken : Taken m h d bytes after) :
    h.entriesLba.toNat + (tableSectors m.g.blockSize h.numEntries h.entrySize).toNat ≤ m.sectorCount.toNat ∨
      Escapes (.disk m.g) h.entriesLba (tableSectors m.g.blockSize h.numEntries h.entrySize) := by
  have some : 0 < (tableSectors m.g.blockSize h.numEntries h.entrySize).toNat :=
    pos_of_ne_zero fun zero => taken.room (UInt32.toNat_inj.mp zero)
  have wide := h.entriesLba.toNat_lt
  have narrow := (tableSectors m.g.blockSize h.numEntries h.entrySize).toNat_lt
  have small := sectorCount_small m
  have ends := readEntries_ends some taken.read
  obtain ⟨part,middle,read,-⟩ := readEntries_step some taken.read
  have begins := read_checked read
  by_cases wraps : 2^64 ≤ h.entriesLba.toNat + (tableSectors m.g.blockSize h.numEntries h.entrySize).toNat
  · refine .inr ⟨wraps,?_,?_⟩
    · change _ ≤ 2^64 + m.sectorCount.toNat
      omega
    · change 2^64 ≤ 0 + _ + (maxSectorsPerIo m.g).toNat
      omega
  · exact .inl (by omega)

def namedSectors (g : Geometry) (h : GptHeader) : Nat :=
  (h.numEntries.toNat * h.entrySize.toNat + g.blockSize.toNat - 1) / g.blockSize.toNat

/-- The buffer holds the sectors that the header names, and every entry looked at lies in it. -/
structure TableRight (m : Medium) (h : GptHeader) (before after : Driver) (bytes : List UInt8) (seen : List Nat) :
    Prop where
  carried : Carried .read before after h.entriesLba.toNat (namedSectors m.g h)
  filled : bytes.length = namedSectors m.g h * m.g.blockSize.toNat
  inside : ∀ i ∈ seen, i * h.entrySize.toNat + gptEntrySize ≤ bytes.length

/-- A header with counts in range whose array can be read, though its size does not fit in 32 bits or its
end not in 64. -/
def Fooled (g : Geometry) (lba : UInt64) (num esz : UInt32) : Prop :=
  gptEntrySize ≤ esz.toNat ∧ 0 < num.toNat ∧ num.toNat ≤ 128 ∧ tableSectors g.blockSize num esz ≠ 0 ∧
    (Escapes (.disk g) lba (tableSectors g.blockSize num esz) ∨
      lba.toNat + (tableSectors g.blockSize num esz).toNat ≤ (Blkdev.disk g).sectorCount.toNat ∧
        2^32 < num.toNat * esz.toNat + g.blockSize.toNat)

instance (g : Geometry) (lba : UInt64) (num esz : UInt32) : Decidable (Fooled g lba num esz) :=
  inferInstanceAs (Decidable (_ ∧ _ ∧ _ ∧ _ ∧ (_ ∨ _ ∧ _)))

theorem Taken.right (taken : Taken m h d bytes after) (sane : ¬ Fooled m.g h.entriesLba h.numEntries h.entrySize)
    (looked : ∀ i ∈ seen, i < h.numEntries.toNat) : TableRight m h d after bytes seen := by
  have bounds := m.g.bounds
  have stays : ¬ Escapes (.disk m.g) h.entriesLba (tableSectors m.g.blockSize h.numEntries h.entrySize) :=
    fun escapes => sane ⟨taken.size,taken.some,taken.few,taken.room,.inl escapes⟩
  have onDisk := taken.reached.resolve_right stays
  have small : h.numEntries.toNat * h.entrySize.toNat + m.g.blockSize.toNat ≤ 2^32 := by
    by_contra large
    exact sane ⟨taken.size,taken.some,taken.few,taken.room,.inr ⟨onDisk,by omega⟩⟩
  have named : (tableSectors m.g.blockSize h.numEntries h.entrySize).toNat = namedSectors m.g h := by
    rw [tableSectors_toNat,mod_eq_of_lt (by omega)]
    rfl
  obtain ⟨carried,length⟩ := readEntries_carried onDisk taken.read
  rw [named] at carried length
  have filled : bytes.length = namedSectors m.g h * m.g.blockSize.toNat := by simpa using length
  refine ⟨carried,filled,fun i member => ?_⟩
  -- the array is not longer than its sectors
  have whole : h.numEntries.toNat * h.entrySize.toNat ≤ namedSectors m.g h * m.g.blockSize.toNat := by
    have rounded := lt_div_mul_add (a := h.numEntries.toNat * h.entrySize.toNat + m.g.blockSize.toNat - 1)
      (by omega : 0 < m.g.blockSize.toNat)
    unfold namedSectors
    omega
  have last : (i + 1) * h.entrySize.toNat ≤ h.numEntries.toNat * h.entrySize.toNat :=
    mul_le_mul_right _ (looked i member)
  have size := taken.size
  rw [succ_mul] at last
  omega

theorem wrapped_short (g : Geometry) (some : 0 < num) (narrow : esz < 2^32)
    (large : 2^32 < num * esz + g.blockSize.toNat)
    (room : (num * esz + g.blockSize.toNat - 1) % 2^32 / g.blockSize.toNat ≠ 0) :
    (num * esz + g.blockSize.toNat - 1) % 2^32 / g.blockSize.toNat * g.blockSize.toNat < (num - 1) * esz + gptEntrySize := by
  obtain ⟨k,power⟩ := blockSize_dvd g
  obtain ⟨n,rfl⟩ := exists_eq_add_one_of_ne_zero (ne_of_gt some)
  have product : (n + 1) * esz = n * esz + esz := succ_mul n esz
  have below := div_mul_le_self ((n * esz + esz + g.blockSize.toNat - 1) % 2^32) g.blockSize.toNat
  have wide := mod_lt (n * esz + esz + g.blockSize.toNat - 1) (by decide : 0 < 2^32)
  rw [product] at large room ⊢
  rw [Nat.add_sub_cancel]
  unfold gptEntrySize
  by_cases near : esz + g.blockSize.toNat ≤ 2^32 + 128
  · omega
  -- an entry of almost 4 GiB: one of them is not rounded up to a sector, two are too many
  have twice : esz ≤ n * esz := by
    refine Nat.le_mul_of_pos_left esz (pos_of_ne_zero fun zero => room ?_)
    subst zero
    exact div_eq_of_lt (by omega)
  have fewer : (n * esz + esz + g.blockSize.toNat - 1) % 2^32 / g.blockSize.toNat < k := by
    rw [Nat.div_lt_iff_lt_mul (by omega),mul_comm k,← power]
    exact wide
  have multiple := Nat.mul_le_mul_right g.blockSize.toNat (succ_le_of_lt fewer)
  rw [succ_mul,mul_comm k] at multiple
  omega

theorem read_zeros {count : UInt32} (idle : Idle d) (some : 0 < count.toNat)
    (few : count.toNat ≤ (maxSectorsPerIo g).toNat)
    (checked : (lba.toNat + count.toNat) % 2^64 ≤ (Blkdev.disk g).sectorCount.toNat) :
    ∃ bytes after, transfer .read (.disk g) false (fun _ => obliging) d lba count (fun _ => 0) = (.ok bytes,after) ∧
      Idle after ∧ ∀ b ∈ bytes, b = 0 := by
  have many := (maxSectorsPerIo_toNat g).1
  have fits : ∀ done, done < count.toNat → requestFits g (lba + UInt64.ofNat done)
      (UInt32.ofNat (min (count.toNat - done) (maxSectorsPerIo g).toNat)) := by
    intro done more
    rw [disk_sectorCount] at checked
    rw [requestFits_iff,chunk_toNat,sector_toNat,min_eq_left (by omega)]
    refine ⟨by omega,?_,by omega⟩
    calc (count.toNat - done) * g.blockSize.toNat
        ≤ maxXferBytes / g.blockSize.toNat * g.blockSize.toNat := mul_le_mul_right _ (by omega)
      _ ≤ maxXferBytes := div_mul_le_self ..
  unfold transfer
  rw [if_neg,if_neg]
  · exact obliging_reads idle fits (by simp)
  · simpa only [gt_iff_lt,UInt64.lt_iff_toNat_lt,UInt64.toNat_add,UInt32.toNat_toUInt64,not_lt] using checked
  · rintro rfl
    exact absurd some (lt_irrefl 0)

def zeros (g : Geometry) : Medium := ⟨g,0,[],false,fun _ => obliging⟩

theorem readEntries_zeros (idle : Idle d) (turn : s = 0 ∨ (maxSectorsPerIo g).toNat ≤ s) (small : sectors < 2^32)
    (readable : lba.toNat + sectors ≤ (Blkdev.disk g).sectorCount.toNat ∨
      2^64 ≤ lba.toNat + sectors ∧ lba.toNat + sectors ≤ 2^64 + (Blkdev.disk g).sectorCount.toNat ∧
        2^64 ≤ lba.toNat + (maxSectorsPerIo g).toNat) (empty : ∀ b ∈ out, b = 0) :
    ∃ bytes after, readEntries (zeros g) lba sectors s out d = (some bytes,after) ∧ ∀ b ∈ bytes, b = 0 := by
  induction rest : sectors - s using Nat.strong_induction_on generalizing s out d with
  | _ left ih =>
    rw [readEntries]
    split
    · next more =>
      have positive := (maxSectorsPerIo_toNat g).2
      have size := piece_toNat g (sectors - s)
      obtain ⟨part,middle,read,idle,zero⟩ : ∃ part middle, (zeros g).read d (lba + UInt64.ofNat s)
          (UInt32.ofNat (min (maxSectorsPerIo g).toNat (sectors - s))) = (.ok part,middle) ∧ Idle middle ∧
          ∀ b ∈ part, b = 0 :=
        read_zeros (g := g) idle (by rw [size]; omega) (by rw [size]; omega) (by rw [sector_toNat]; omega)
      have again := ih (sectors - (s + (maxSectorsPerIo g).toNat)) (by omega) idle (.inr (by omega)) (fun b member =>
        (mem_append.mp member).elim (empty b) (zero b)) rfl
      rw [show (zeros g).g = g from rfl,read]
      exact again
    · exact ⟨out,d,rfl,empty⟩

theorem gptLoop_empty : (gptLoop m (fun _ => 0) size left i l).seen = l.seen ++ range' i left := by
  have unused (a : Nat) : (gptEntry (fun _ => 0) a).used = false := by
    simp [gptEntry,slice]
  induction left generalizing i l with
  | zero => simp [gptLoop]
  | succ left ih =>
    rw [gptLoop]
    simp only [unused,Bool.not_false,if_true]
    rw [ih,append_assoc]
    rfl

theorem Fooled.wrong (lba : UInt64) (num esz : UInt32) (fooled : Fooled g lba num esz) :
    ∃ heap h bytes seen, h.entriesLba = lba ∧ h.numEntries = num ∧ h.entrySize = esz ∧
      (parseGpt (zeros g) heap h (fun _ => none) attached).table = some (bytes,seen) ∧
      ¬ TableRight (zeros g) h attached (parseGpt (zeros g) heap h (fun _ => none) attached).driver bytes seen := by
  obtain ⟨size,some,few,room,how⟩ := fooled
  have bounds := g.bounds
  have idle : Idle attached := ⟨rfl,rfl,rfl⟩
  have narrow := (tableSectors g.blockSize num esz).toNat_lt
  obtain ⟨bytes,after,read,empty⟩ : ∃ bytes after, readEntries (zeros g) lba (tableSectors g.blockSize num esz).toNat 0 []
      attached = (.some bytes,after) ∧ ∀ b ∈ bytes, b = 0 := by
    refine readEntries_zeros idle (.inl rfl) narrow ?_ (by simp)
    rcases how with ⟨wraps,ends,begins⟩ | ⟨inside,-⟩
    · exact .inr ⟨wraps,ends,by simpa [Blkdev.base,Blkdev.geometry] using begins⟩
    · exact .inl inside
  have table : Memory.patch (fun _ => (0 : UInt8)) 0 bytes = fun _ => 0 := by
    funext i
    unfold Memory.patch
    split
    · cases found : bytes[i - 0]? with
      | none => rfl
      | some byte => exact empty byte (mem_of_getElem? found)
    · rfl
  let h : GptHeader := ⟨[],0,0,lba,num,esz,crc32 (Memory.slice (fun _ => 0) 0 (num * esz).toNat)⟩
  have range : ¬ (esz < UInt32.ofNat gptEntrySize ∨ num = 0 ∨ num > maxGptEntries) := by
    rintro (less | rfl | more)
    · exact absurd (UInt32.lt_iff_toNat_lt.mp less) (Nat.not_lt.mpr size)
    · exact absurd some (Nat.lt_irrefl 0)
    · exact absurd (UInt32.lt_iff_toNat_lt.mp more) (Nat.not_lt.mpr few)
  have parsed : parseGpt (zeros g) ⟨true,true,true,true,fun _ => 0⟩ h (fun _ => none) attached =
      ⟨(gptLoop (zeros g) (fun _ => 0) esz.toNat num.toNat 0 ⟨fun _ => none,0,[]⟩).registry,after,
        .some (bytes,List.range' 0 num.toNat)⟩ := by
    unfold parseGpt
    rw [if_neg range,if_neg (fun either => either.elim (fun missing => by cases missing) room)]
    rw [show readEntries (zeros g) h.entriesLba (tableSectors (zeros g).g.blockSize h.numEntries h.entrySize).toNat 0 []
      attached = _ from read]
    dsimp only
    rw [table,if_neg (by simp [h]),gptLoop_empty]
    rfl
  refine ⟨⟨true,true,true,true,fun _ => 0⟩,h,bytes,List.range' 0 num.toNat,rfl,rfl,rfl,by rw [parsed],fun right => ?_⟩
  have named : 0 < namedSectors g h := by
    have one : 1 * 128 ≤ num.toNat * esz.toNat := Nat.mul_le_mul some size
    change 0 < (num.toNat * esz.toNat + g.blockSize.toNat - 1) / g.blockSize.toNat
    exact Nat.div_pos (by omega) (by omega)
  rcases how with ⟨wraps,-,begins⟩ | ⟨inside,large⟩
  · have first := right.carried.small named
    change lba.toNat < 2^32 at first
    omega
  have length := (readEntries_carried (m := zeros g) inside read).2
  have last := right.inside (num.toNat - 1) (mem_range'_1.mpr (by omega))
  rw [length,tableSectors_toNat] at last
  have short := wrapped_short g some esz.toNat_lt large (by
    rw [← tableSectors_toNat]
    exact fun zero => room (UInt32.toNat_inj.mp zero))
  simp only [length_nil,Nat.zero_add] at last
  exact absurd last (Nat.not_le.mpr short)

/-- Whatever the disk holds and however it answers, the entries that `parse_gpt` looks at are in the buffer
with the sectors that the header names, exactly when the header's sizes do not wrap on the way. -/
theorem gpt_table_right_iff (g : Geometry) (lba : UInt64) (num esz : UInt32) :
    (∀ m heap h r d bytes seen, m.g = g → h.entriesLba = lba → h.numEntries = num → h.entrySize = esz →
      (parseGpt m heap h r d).table = some (bytes,seen) → TableRight m h d (parseGpt m heap h r d).driver bytes seen) ↔
    ¬ Fooled g lba num esz := by
  constructor
  · intro always fooled
    obtain ⟨heap,h,bytes,seen,start,count,size,accepted,wrong⟩ := fooled.wrong
    exact wrong (always _ heap h _ _ bytes seen rfl start count size accepted)
  rintro sane m heap h r d bytes seen rfl rfl rfl rfl accepted
  obtain ⟨taken,rfl⟩ := parseGpt_taken accepted
  refine taken.right sane fun i looked => ?_
  rcases gptLoop_seen looked with before | inside
  · cases before
  · omega

/-- Two entries of 2 GiB and 256 bytes: 512 bytes are read, and the second entry is taken from memory far
behind them. -/
theorem not_every_table_right : ¬ ∀ m heap h r d bytes seen, (parseGpt m heap h r d).table = some (bytes,seen) →
    TableRight m h d (parseGpt m heap h r d).driver bytes seen := by
  intro always
  have fooled : Fooled stick 2 2 0x80000100 := by decide
  obtain ⟨heap,h,bytes,seen,-,-,-,accepted,wrong⟩ := fooled.wrong
  exact wrong (always _ heap h _ _ bytes seen accepted)

end SurfaceOS.Part
