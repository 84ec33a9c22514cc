import SurfaceOS.Cpu.Elf

/-! What `load_file` leaves in memory, byte by byte, and where the entry that it returns lies. -/
namespace SurfaceOS.Cpu.Elf
open Cpu.Paging Lib List Nat UInt64

variable {acc next : Space × UInt64} {phdrs segs : List Phdr} {a count first page : Nat} {ehdr : Ehdr}
  {copyEnd copyStart imageEnd len off virt : UInt64}

def Phdr.holds (p : Phdr) (a : Nat) : Bool :=
  p.loads ∧ p.vaddr.toNat ≤ a ∧ a < p.vaddr.toNat + p.memsz.toNat

def Phdr.backs (p : Phdr) (a : Nat) : Bool :=
  p.loads ∧ p.vaddr.toNat ≤ a ∧ a < p.vaddr.toNat + p.filesz.toNat

/-- The byte for such an address, where the offset wraps around as the loader's sum does. -/
def Phdr.source (p : Phdr) (file : List UInt8) (a : Nat) : Option UInt8 :=
  file[(p.offset.toNat + (a - p.vaddr.toNat)) % 2^64]?

def byteAt (space : Space) (a : Nat) : Option UInt8 :=
  (space (a / pageSize)).map fun page => page.bytes (a % pageSize)

/-- A read returns what the file has there, or less of it, or an error. -/
def Reads (v : Vnode) (file : List UInt8) : Prop :=
  ∀ off len bytes, v off len = .ok bytes → bytes <+: (file.drop off.toNat).take len.toNat

variable {m : Machine} {v : Vnode} {p : Phdr} {space after : Space} {fileSize : UInt64} {file : List UInt8}

theorem readAt_ok {bytes : List UInt8} (reads : Reads v file)
    (read : readAt v off len = .ok bytes) : bytes.length = len.toNat ∧
      ∀ i < len.toNat, off.toNat + i < file.length ∧ bytes[i]? = file[off.toNat + i]? := by
  unfold readAt at read
  split at read
  · cases read
  rename_i got found
  split at read
  · next whole =>
    cases read
    have same := (reads off len bytes found).eq_of_length_le (by simp [whole])
    refine ⟨whole,fun i bound => ?_⟩
    have inside : i < ((file.drop off.toNat).take len.toNat).length := by rw [← same,whole]; exact bound
    rw [length_take,length_drop] at inside
    rw [same,getElem?_take_of_lt bound,getElem?_drop]
    exact ⟨by omega,rfl⟩
  · cases read

theorem copySlice_bytes (reads : Reads v file) (small : file.length < 2^64)
    (low : p.vaddr.toNat ≤ copyStart.toNat) (within : copyEnd.toNat ≤ (copyStart.toNat / pageSize + 1) * pageSize)
    (copied : copySlice v p space copyStart copyEnd = .ok after) (a : Nat) :
    if copyStart.toNat ≤ a ∧ a < copyEnd.toNat then byteAt after a = p.source file a ∧ (p.source file a).isSome
    else byteAt after a = byteAt space a := by
  unfold copySlice at copied
  split at copied
  · next empty =>
    cases copied
    rw [if_neg (by have := UInt64.le_iff_toNat_le.mp empty; omega)]
  rename_i some
  rw [le_iff_toNat_le,not_le] at some
  split at copied
  · cases copied
  rename_i target there
  split at copied
  · cases copied
  rename_i bytes read
  cases copied
  obtain ⟨long,content⟩ := readAt_ok reads read
  rw [UInt64.toNat_sub_of_le _ _ (UInt64.le_iff_toNat_le.mpr (le_of_lt some))] at long content
  have offset : (p.offset + (copyStart - p.vaddr)).toNat =
      (p.offset.toNat + (copyStart.toNat - p.vaddr.toNat)) % 2^64 := by
    rw [UInt64.toNat_add,UInt64.toNat_sub_of_le _ _ (UInt64.le_iff_toNat_le.mpr low)]
  rw [offset] at content
  simp only [pageSize] at within
  unfold byteAt
  by_cases here : a / pageSize = pageOf copyStart
  · rw [here,Function.update_self,there]
    simp only [Option.map_some,Memory.patch,pageOf,pageSize] at here ⊢
    split
    · next inside =>
      obtain ⟨bound,same⟩ := content (a - copyStart.toNat) (by omega)
      have place : (p.offset.toNat + (copyStart.toNat - p.vaddr.toNat)) % 2^64 + (a - copyStart.toNat) =
          (p.offset.toNat + (a - p.vaddr.toNat)) % 2^64 := by omega
      rw [place] at same bound
      rw [if_pos (by omega),show a % 4096 - copyStart.toNat % 4096 = a - copyStart.toNat by omega,same]
      unfold Phdr.source
      rw [getElem?_eq_getElem bound]
      exact ⟨rfl,rfl⟩
    · next outside =>
      split
      · rw [getElem?_eq_none (by omega)]
        rfl
      · rfl
  · rw [Function.update_of_ne here,if_neg]
    simp only [pageOf,pageSize] at here
    omega

theorem mapZeroPage_bytes {flags : Flags} (mapped : mapZeroPage m space virt flags = some after)
    (a : Nat) : byteAt after a = if a / pageSize = pageOf virt then some ((byteAt space a).getD 0)
      else byteAt space a := by
  obtain ⟨p,rfl,-,bytes⟩ := mapZeroPage_eq mapped
  unfold byteAt
  rw [Function.update_apply]
  split
  · next same =>
    rw [same,Option.map_some,bytes]
    cases space (pageOf virt) <;> rfl
  · rfl

/-- What a segment leaves at an address of a page that it touches. -/
def Phdr.Leaves (p : Phdr) (file : List UInt8) (space after : Space) (a : Nat) : Prop :=
  if p.vaddr.toNat ≤ a ∧ a < p.vaddr.toNat + p.filesz.toNat then
    byteAt after a = p.source file a ∧ (p.source file a).isSome
  else byteAt after a = some ((byteAt space a).getD 0)

section
variable (reads : Reads v file) (small : file.length < 2^64) (low : p.vaddr.toNat + p.filesz.toNat < 2^48)
include reads small low

theorem loadPage_bytes (high : page < 2^40) (loaded : loadPage m v p space page = .ok after) (a : Nat) :
    if a / pageSize = page then p.Leaves file space after a else byteAt after a = byteAt space a := by
  unfold loadPage at loaded
  dsimp only at loaded
  split at loaded
  · cases loaded
  rename_i middle mapped
  have zeroed := mapZeroPage_bytes mapped a
  rw [pageOf_number (by omega)] at zeroed
  have start : (UInt64.ofNat (page * pageSize)).toNat = page * 4096 := by
    rw [toNat_ofNat']
    simp only [pageSize]
    omega
  have pageEnd : (UInt64.ofNat (page * pageSize) + UInt64.ofNat pageSize).toNat = page * 4096 + 4096 := by
    rw [UInt64.toNat_add,start]
    simp only [pageSize,UInt64.reduceOfNat,UInt64.reduceToNat]
    omega
  have segEnd : (p.vaddr + p.filesz).toNat = p.vaddr.toNat + p.filesz.toNat := by
    rw [UInt64.toNat_add]
    omega
  have first : (if UInt64.ofNat (page * pageSize) > p.vaddr then UInt64.ofNat (page * pageSize) else p.vaddr).toNat =
      max (page * 4096) p.vaddr.toNat := by
    split
    all_goals
      rename_i order
      rw [gt_iff_lt,lt_iff_toNat_lt] at order
      omega
  have last : (if UInt64.ofNat (page * pageSize) + UInt64.ofNat pageSize < p.vaddr + p.filesz then
      UInt64.ofNat (page * pageSize) + UInt64.ofNat pageSize else p.vaddr + p.filesz).toNat =
      min (page * 4096 + 4096) (p.vaddr.toNat + p.filesz.toNat) := by
    split
    all_goals
      rename_i order
      rw [lt_iff_toNat_lt] at order
      omega
  have copied := copySlice_bytes reads small (by omega) (by rw [last]; simp only [pageSize] at *; omega) loaded a
  by_cases here : a / pageSize = page
  · rw [if_pos here] at zeroed ⊢
    simp only [pageSize] at here
    unfold Phdr.Leaves
    split
    · rwa [if_pos (by omega)] at copied
    · rwa [if_neg (by omega),zeroed] at copied
  · rw [if_neg here] at zeroed ⊢
    simp only [pageSize] at here
    rwa [if_neg (by omega),zeroed] at copied

theorem loadPages_bytes (high : first + count < 2^40) (loaded : (List.range' first count).foldlM (loadPage m v p) space = .ok after)
    (a : Nat) : if first ≤ a / pageSize ∧ a / pageSize < first + count then p.Leaves file space after a
      else byteAt after a = byteAt space a := by
  induction count generalizing first space with
  | zero =>
    cases loaded
    rw [if_neg (by omega)]
  | succ count ih =>
    obtain ⟨middle,one,loaded⟩ := bind_ok loaded
    have here := loadPage_bytes reads small low (by omega) one a
    have rest := ih (by omega) loaded
    by_cases isFirst : a / pageSize = first
    · rw [if_pos isFirst] at here
      rw [if_neg (by omega)] at rest
      rw [if_pos (by omega)]
      unfold Phdr.Leaves at ⊢
      rwa [rest]
    rw [if_neg isFirst] at here
    unfold Phdr.Leaves at rest
    rw [here] at rest
    by_cases inside : first + 1 ≤ a / pageSize ∧ a / pageSize < first + 1 + count
    · rw [if_pos inside] at rest
      rwa [if_pos (by omega)]
    · rw [if_neg inside] at rest
      rwa [if_neg (by omega)]

end

/-- What is at an address after the segments were loaded one after another. -/
def image (file : List UInt8) (a : Nat) (old : Option UInt8) (segs : List Phdr) : Option UInt8 :=
  segs.foldl (fun old p => if p.backs a then p.source file a else if p.touches (a / pageSize) then some (old.getD 0)
    else old) old

theorem loadSegment_bytes (reads : Reads v file) (small : file.length < 2^64)
    (loaded : loadSegment m v fileSize acc p = .ok next) (a : Nat) :
    byteAt next.1 a = image file a (byteAt acc.1 a) [p] ∧ (p.backs a → p.holds a ∧ (p.source file a).isSome) := by
  unfold image
  rw [foldl_cons]
  rcases loadSegment_cases loaded with ⟨skipped,rfl⟩ | ⟨kept,fits,range,last,-,done⟩
  · have untouched : p.touches (a / pageSize) = false := by simp [← Bool.not_eq_true,Phdr.touches_iff,skipped]
    simp [Phdr.backs,skipped,untouched]
  simp only [userLimit,UInt64.reduceToNat] at range
  have bytes := loadPages_bytes reads small (by omega) (by omega) done a
  have backs : p.backs a ↔ p.vaddr.toNat ≤ a ∧ a < p.vaddr.toNat + p.filesz.toNat := by simp [Phdr.backs,kept]
  simp only [Phdr.touches_iff,kept,true_and,backs]
  unfold Phdr.Leaves at bytes
  by_cases backed : p.vaddr.toNat ≤ a ∧ a < p.vaddr.toNat + p.filesz.toNat
  · have first : p.firstPage ≤ a / pageSize := Nat.div_le_div_right backed.1
    rw [if_pos ⟨first,by rw [last]; simp only [pageSize]; omega⟩,if_pos backed] at bytes
    rw [if_pos backed]
    exact ⟨bytes.1,fun _ => ⟨decide_eq_true ⟨kept,backed.1,by omega⟩,bytes.2⟩⟩
  rw [if_neg backed] at bytes ⊢
  refine ⟨?_,fun inside => absurd inside backed⟩
  split
  · next touched => rwa [if_pos touched] at bytes
  · next away => rwa [if_neg away] at bytes

theorem loadSegments_bytes (reads : Reads v file) (small : file.length < 2^64)
    (loaded : segs.foldlM (loadSegment m v fileSize) acc = .ok next) (a : Nat) :
    byteAt next.1 a = image file a (byteAt acc.1 a) segs ∧
      ∀ p ∈ segs, p.backs a → p.holds a ∧ (p.source file a).isSome := by
  induction segs generalizing acc with
  | nil =>
    cases loaded
    exact ⟨rfl,nofun⟩
  | cons p rest ih =>
    obtain ⟨middle,one,loaded⟩ := bind_ok loaded
    obtain ⟨here,found⟩ := loadSegment_bytes reads small one a
    obtain ⟨later,others⟩ := ih loaded
    rw [later,here]
    exact ⟨rfl,forall_mem_cons.mpr ⟨found,others⟩⟩

def NoOverlap (segs : List Phdr) : Prop := ∀ p ∈ segs, ∀ q ∈ segs, ∀ a, p.holds a → q.holds a → p = q

theorem image_unbacked (bare : ∀ p ∈ segs, p.backs a = false) (old : Option UInt8) :
    image file a old segs = if ∃ p ∈ segs, p.touches (a / pageSize) then some (old.getD 0) else old := by
  induction segs generalizing old with
  | nil => simp [image]
  | cons p rest ih =>
    obtain ⟨here,later⟩ := forall_mem_cons.mp bare
    unfold image
    rw [foldl_cons,here]
    refine (ih later _).trans ?_
    cases touched : p.touches (a / pageSize) with
    | false => simp [touched]
    | true => simp [touched]

theorem image_backed {b : UInt8} (same : ∀ p ∈ segs, p.backs a → p.source file a = some b)
    (old : Option UInt8) (some : old = some b ∨ ∃ p ∈ segs, p.backs a) : image file a old segs = .some b := by
  induction segs generalizing old with
  | nil => simpa [image] using some
  | cons p rest ih =>
    obtain ⟨here,later⟩ := forall_mem_cons.mp same
    unfold image
    rw [foldl_cons]
    apply ih later
    cases backed : p.backs a with
    | true => exact .inl (by simp [here backed])
    | false =>
      rcases some with rfl | ⟨q,member,its⟩
      · exact .inl (by simp)
      · rcases mem_cons.mp member with rfl | inside
        · simp [backed] at its
        · exact .inr ⟨q,inside,its⟩

theorem Phdr.source_eq (small : file.length < 2^64) (backed : p.backs a)
    (found : ∀ b, p.backs b → (p.source file b).isSome) :
    p.source file a = file[p.offset.toNat + (a - p.vaddr.toNat)]? := by
  have bound := p.offset.toNat_lt
  unfold source
  by_cases wraps : p.offset.toNat + (a - p.vaddr.toNat) < 2^64
  · rw [Nat.mod_eq_of_lt wraps]
  -- the byte just before the wrap-around would lie beyond the end of the file
  simp only [backs,decide_eq_true_eq] at backed
  have last := found (p.vaddr.toNat + (2^64 - 1 - p.offset.toNat))
    (decide_eq_true ⟨backed.1,by omega,by omega⟩)
  unfold source at last
  rw [
    getElem?_eq_none (by omega)] at last
  cases last

theorem headers_inside (reads : Reads v file) (parsed : headers m v fileSize = .ok (ehdr,phdrs)) :
    ehdr.phoff.toNat + ehdr.phnum * ehdr.phentsize ≤ file.length := by
  simp only [headers,bind,Except.bind,throw,throwThe,MonadExceptOf.throw] at parsed
  repeat' split at parsed
  all_goals cases parsed
  rename_i first _ _ sizes _ _ _ _ table _
  simp only [not_or,Nat.not_lt] at sizes
  obtain ⟨entry,some,count⟩ := sizes
  have word : (readEhdr (memory first)).phentsize < 2^16 := Memory.le16_lt _ _
  have product := Nat.mul_le_mul count (Nat.le_of_lt word)
  have positive := Nat.mul_pos (Nat.pos_of_ne_zero some) (show 0 < (readEhdr (memory first)).phentsize by omega)
  have content := (readAt_ok reads table).2
  rw [toNat_ofNat',Nat.mod_eq_of_lt (by omega)] at content
  have last := (content _ (Nat.sub_lt positive Nat.one_pos)).1
  omega

/-- A file that is loaded into an empty address space: its segments' bytes come from the file at
their offsets, all other bytes of the pages that they touch are zero, no other page is there, and
the table of headers lay in the file too. -/
theorem loadFile_memory (m : Machine) (v : Vnode) (file : List UInt8) (fileSize : UInt64) (result : LoadResult)
    (after : Space) (reads : Reads v file) (size : fileSize.toNat = file.length)
    (loaded : loadFile m v fileSize (fun _ => none) = .ok (result,after)) (apart : NoOverlap (segments m v fileSize)) :
    (∀ p ∈ segments m v fileSize, ∀ a, p.backs a →
      p.offset.toNat + (a - p.vaddr.toNat) < file.length ∧
      byteAt after a = file[p.offset.toNat + (a - p.vaddr.toNat)]?) ∧
    (∀ a, (∀ p ∈ segments m v fileSize, p.backs a = false) → byteAt after a =
      if ∃ p ∈ segments m v fileSize, p.touches (a / pageSize) then some 0 else none) ∧
    ∃ ehdr, headers m v fileSize = .ok (ehdr,segments m v fileSize) ∧
      ehdr.phoff.toNat + ehdr.phnum * ehdr.phentsize ≤ file.length := by
  have small : file.length < 2^64 := size ▸ fileSize.toNat_lt
  obtain ⟨imageEnd,done,-⟩ := loadFile_ok loaded
  have bytes := loadSegments_bytes reads small done
  refine ⟨fun p member a backed => ?_,fun a bare => ?_,?_⟩
  · obtain ⟨held,isSome⟩ := (bytes a).2 p member backed
    obtain ⟨b,found⟩ := Option.isSome_iff_exists.mp isSome
    have place := Phdr.source_eq small backed fun c its => ((bytes c).2 p member its).2
    refine ⟨(List.getElem?_eq_some_iff.mp (place.symm.trans found)).1,?_⟩
    rw [(bytes a).1,← place,found]
    refine image_backed (fun q inside its => ?_) _ (.inr ⟨p,member,backed⟩)
    rw [← apart p member q inside a held ((bytes a).2 q inside its).1,found]
  · rw [(bytes a).1,image_unbacked bare]
    rfl
  · obtain ⟨parsed,read,-⟩ := bind_ok loaded
    refine ⟨parsed.1,?_,headers_inside reads read⟩
    rw [segments,read]

theorem inMemory_reads (bytes : List UInt8) : Reads (inMemory bytes) bytes := by
  rintro off len _ ⟨⟩
  exact prefix_rfl

def smallElf : List UInt8 := (tinyElf 5).set 96 16

theorem loadFile_memory_small : ∃ out, loadFile roomy (inMemory smallElf) 120 (fun _ => none) = .ok out ∧
    byteAt out.2 0x400001 = some 0x45 := by
  obtain ⟨out,done⟩ : ∃ out, loadFile roomy (inMemory smallElf) 120 (fun _ => none) = .ok out :=
    exists_of_toBool (by decide +kernel)
  have segs : segments roomy (inMemory smallElf) 120 = [⟨1,5,0,0x400000,16,16⟩] := rfl
  refine ⟨out,done,?_⟩
  refine ((loadFile_memory _ _ _ _ _ _ (inMemory_reads smallElf) rfl done ?_).1 _ (segs ▸ mem_singleton_self _)
    0x400001 (by decide)).2
  intro p first q second _ _ _
  rw [mem_singleton.mp first,mem_singleton.mp second]

theorem loadFile_eq (parsed : headers m v fileSize = .ok (ehdr,phdrs))
    (loaded : phdrs.foldlM (loadSegment m v fileSize) (space,0) = .ok (after,imageEnd)) :
    loadFile m v fileSize space = if imageEnd = 0 ∨ ehdr.entry < userMin ∨ ehdr.entry ≥ imageEnd then .error .enoexec
      else .ok (⟨ehdr.entry,alignUp imageEnd⟩,after) := by
  unfold loadFile
  simp only [parsed,loaded,bind,Except.bind,pure,Except.pure,throw,throwThe,MonadExceptOf.throw]
  by_cases empty : imageEnd = 0
  · simp [empty]
  · simp [empty]

theorem loadSegments_end (loaded : segs.foldlM (loadSegment m v fileSize) acc = .ok next) (a : Nat) :
    a < next.2.toNat ↔ a < acc.2.toNat ∨ ∃ p ∈ segs, p.loads ∧ a < p.vaddr.toNat + p.memsz.toNat := by
  induction segs generalizing acc with
  | nil =>
    cases loaded
    simp
  | cons p rest ih =>
    obtain ⟨middle,one,loaded⟩ := bind_ok loaded
    rw [ih loaded,exists_mem_cons_iff,← or_assoc]
    rcases loadSegment_cases one with ⟨skipped,rfl⟩ | ⟨kept,-,-,-,ends,-⟩
    · simp [skipped]
    · simp [kept,ends]

/-- A file whose segments can all be loaded: its entry, if accepted, lies in an executable segment
exactly when it does or is below user space or behind all segments. -/
theorem entry_executable_iff (m : Machine) (v : Vnode) (fileSize : UInt64) (space : Space) (ehdr : Ehdr)
    (phdrs : List Phdr) (parsed : headers m v fileSize = .ok (ehdr,phdrs))
    (loads : (phdrs.foldlM (loadSegment m v fileSize) (space,0)).toBool) :
    (∀ result after, loadFile m v fileSize space = .ok (result,after) →
      ∃ p ∈ phdrs, p.holds result.entry.toNat ∧ p.pageFlags.nx = false) ↔
    (ehdr.entry < userMin ∨ (∀ p ∈ phdrs, p.loads → p.vaddr.toNat + p.memsz.toNat ≤ ehdr.entry.toNat) ∨
      ∃ p ∈ phdrs, p.holds ehdr.entry.toNat ∧ p.pageFlags.nx = false) := by
  obtain ⟨done,loaded⟩ := exists_of_toBool loads
  have ends := loadSegments_end loaded ehdr.entry.toNat
  rw [loadFile_eq parsed loaded]
  refine ⟨fun right => ?_,fun condition result after accepted => ?_⟩
  · by_cases low : ehdr.entry < userMin
    · exact .inl low
    by_cases high : ∀ p ∈ phdrs, p.loads → p.vaddr.toNat + p.memsz.toNat ≤ ehdr.entry.toNat
    · exact .inr (.inl high)
    push Not at high
    have below := ends.mpr (.inr high)
    have some : done.2 ≠ 0 := by
      rintro zero
      rw [zero] at below
      exact not_lt_zero _ below
    refine .inr (.inr (right _ _ (if_neg ?_)))
    rw [not_or,not_or,ge_iff_le,le_iff_toNat_le,not_le]
    exact ⟨some,low,below⟩
  · split at accepted
    · cases accepted
    rename_i inside
    cases accepted
    rw [not_or,not_or,ge_iff_le,le_iff_toNat_le,not_le,ends] at inside
    rcases condition with low | high | found
    · exact absurd low inside.2.1
    · obtain ⟨p,member,its,below⟩ := inside.2.2.resolve_left (not_lt_zero _)
      exact absurd (high p member its) (not_le.mpr below)
    · exact found

theorem entry_executable_iff_tiny : ∃ ehdr phdrs, headers roomy (inMemory (tinyElf 5)) 120 = .ok (ehdr,phdrs) ∧
    ∀ result after, loadFile roomy (inMemory (tinyElf 5)) 120 (fun _ => none) = .ok (result,after) →
      ∃ p ∈ phdrs, p.holds result.entry.toNat ∧ p.pageFlags.nx = false :=
  ⟨_,_,rfl,(entry_executable_iff _ _ _ _ _ _ rfl (by decide +kernel)).mpr
    (.inr (.inr ⟨_,mem_singleton_self _,by decide⟩))⟩

/-- The only segment may write but not execute, and the entry is in it. -/
theorem not_every_entry_executable : ¬ ∀ m v fileSize space result after,
    loadFile m v fileSize space = .ok (result,after) →
      ∃ p ∈ segments m v fileSize, p.holds result.entry.toNat ∧ p.pageFlags.nx = false := by
  intro always
  obtain ⟨out,done⟩ : ∃ out, loadFile roomy (inMemory (tinyElf 6)) 120 (fun _ => none) = .ok out :=
    exists_of_toBool (by decide +kernel)
  obtain ⟨p,member,-,its⟩ := always _ _ _ _ _ _ done
  rw [mem_singleton.mp member] at its
  cases its

end SurfaceOS.Cpu.Elf
