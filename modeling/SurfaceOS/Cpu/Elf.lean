import SurfaceOS.Cpu.AddressSpace
import SurfaceOS.Errno
import SurfaceOS.Lib.Memory
import SurfaceOS.Lib.Transition

/-! The ELF loader (cpu/elf.cpp) and what a program's address space is made of (`load_program`): its
stack, the segments of its file and the pages of the SDK. A file is what its reads return, which
may be errors or too short. -/
namespace SurfaceOS.Cpu.Elf
open Lib Cpu.Paging List Nat Lib.Memory

variable {count first here : Nat} {acc next : Space × UInt64} {blob : List UInt8} {segs : List Phdr}
  {flags old : Option Flags} {addr copyEnd copyStart len size vaddr x : UInt64}

abbrev Vnode := UInt64 → UInt64 → Except Errno (List UInt8)

structure Ehdr where
  entry : UInt64
  phoff : UInt64
  phentsize : Nat
  phnum : Nat

structure Phdr where
  type : Nat
  flags : Nat
  offset : UInt64
  vaddr : UInt64
  filesz : UInt64
  memsz : UInt64

structure LoadResult where
  entry : UInt64
  imageEnd : UInt64

def memory (bytes : List UInt8) (i : Nat) : UInt8 := bytes.getD i 0

def isElf (b : Nat → UInt8) (size : Nat) : Bool :=
  64 ≤ size ∧ (b 0 = 0x7F ∧ b 1 = 0x45 ∧ b 2 = 0x4C ∧ b 3 = 0x46) ∧ b 4 = 2 ∧ b 5 = 1 ∧
    le16 b 16 = 2 ∧ le16 b 18 = 62

def readEhdr (b : Nat → UInt8) : Ehdr :=
  ⟨UInt64.ofNat (le64 b 24),UInt64.ofNat (le64 b 32),le16 b 54,le16 b 56⟩

def readPhdr (b : Nat → UInt8) (a : Nat) : Phdr :=
  let word i := UInt64.ofNat (le64 b (a + i))
  ⟨le32 b a,le32 b (a + 4),word 8,word 16,word 32,word 40⟩

def readAt (v : Vnode) (off len : UInt64) : Except Errno (List UInt8) :=
  match v off len with
  | .error e => .error e
  | .ok bytes => if bytes.length = len.toNat then .ok bytes else .error .eio

def headers (m : Machine) (v : Vnode) (fileSize : UInt64) : Except Errno (Ehdr × List Phdr) := do
  if fileSize < 64 then throw .enoexec
  if !m.heap 0 then throw .enomem
  let b := memory (← readAt v 0 64)
  if !isElf b 64 then throw .enoexec
  let ehdr := readEhdr b
  if ehdr.phentsize < 56 ∨ ehdr.phnum = 0 ∨ ehdr.phnum > 1024 then throw .enoexec
  let phBytes := UInt64.ofNat (ehdr.phnum * ehdr.phentsize)
  if ehdr.phoff + phBytes > fileSize then throw .enoexec
  if !m.heap 1 then throw .enomem
  let table := memory (← readAt v ehdr.phoff phBytes)
  if !m.heap 2 then throw .enomem
  return (ehdr,(List.range ehdr.phnum).map fun i => readPhdr table (i * ehdr.phentsize))

def Phdr.pageFlags (p : Phdr) : Flags := ⟨p.flags.testBit 1,!p.flags.testBit 0,false⟩

def copySlice (v : Vnode) (p : Phdr) (space : Space) (copyStart copyEnd : UInt64) : Except Errno Space :=
  if copyEnd ≤ copyStart then .ok space
  else match space (pageOf copyStart) with
    | none => .error .efault
    | some target =>
      match readAt v (p.offset + (copyStart - p.vaddr)) (copyEnd - copyStart) with
      | .error e => .error e
      | .ok bytes => .ok (Function.update space (pageOf copyStart) (some
          {target with bytes := patch target.bytes (copyStart.toNat % pageSize) bytes}))

def loadPage (m : Machine) (v : Vnode) (p : Phdr) (space : Space) (page : Nat) : Except Errno Space :=
  let start := UInt64.ofNat (page * pageSize)
  match mapZeroPage m space start p.pageFlags with
  | none => .error .enomem
  | some space =>
    let pageEnd := start + UInt64.ofNat pageSize
    let segFileEnd := p.vaddr + p.filesz
    copySlice v p space (if start > p.vaddr then start else p.vaddr)
      (if pageEnd < segFileEnd then pageEnd else segFileEnd)

def Phdr.firstPage (p : Phdr) : Nat := pageOf p.vaddr

def Phdr.pages (p : Phdr) : Nat := pageOf (p.vaddr + p.memsz + UInt64.ofNat (pageSize - 1)) - p.firstPage

/-- The body of the loop over the program headers, with the end of the image so far. -/
def loadSegment (m : Machine) (v : Vnode) (fileSize : UInt64) (acc : Space × UInt64) (p : Phdr) :
    Except Errno (Space × UInt64) :=
  if p.type ≠ 1 ∨ p.memsz = 0 then .ok acc
  else if p.filesz > p.memsz then .error .enoexec
  else if p.filesz > 0 ∧ p.offset + p.filesz > fileSize then .error .enoexec
  else if !isUserRange p.vaddr p.memsz then .error .enoexec
  else
    let segEnd := p.vaddr + p.memsz
    match (range' p.firstPage p.pages).foldlM (loadPage m v p) acc.1 with
    | .error e => .error e
    | .ok space => .ok (space,if segEnd > acc.2 then segEnd else acc.2)

def alignUp (x : UInt64) : UInt64 := (x + UInt64.ofNat (pageSize - 1)) / UInt64.ofNat pageSize * UInt64.ofNat pageSize

def loadFile (m : Machine) (v : Vnode) (fileSize : UInt64) (space : Space) :
    Except Errno (LoadResult × Space) := do
  let (ehdr,phdrs) ← headers m v fileSize
  let (space,imageEnd) ← phdrs.foldlM (loadSegment m v fileSize) (space,0)
  if imageEnd = 0 then throw .enoexec
  if ehdr.entry < userMin ∨ ehdr.entry ≥ imageEnd then throw .enoexec
  return (⟨ehdr.entry,alignUp imageEnd⟩,space)

structure Sdk where
  codePages : Nat
  code : Nat → Nat → UInt8
  statePages : Nat
  fits : codePages ≤ 256 ∧ statePages ≤ 256

variable {sdk : Sdk}

def sdkCodeAddress : UInt64 := 0x00007FFF00000000

def sdkCodeMax : Nat := 0x00100000

/-- `sdkpage::install` with the start info in `blob`. -/
def install (m : Machine) (sdk : Sdk) (space : Space) (blob : List UInt8) : Option Space :=
  if sdk.codePages = 0 then none
  else (mapRegion m space sdkCodeAddress sdk.codePages sdk.code ⟨false,false,true⟩).bind fun space =>
    if sdkCodeMax < blob.length ∨ !m.heap 4 then none
    else
      let infoPages := (blob.length + (pageSize - 1)) / pageSize
      (mapRegion m space (sdkCodeAddress + UInt64.ofNat sdkCodeMax) infoPages
        (fun page i => memory blob (page * pageSize + i)) ⟨false,true,false⟩).bind fun space =>
          mapRegion m space (sdkCodeAddress + UInt64.ofNat (2 * sdkCodeMax)) sdk.statePages (fun _ _ => 0)
            ⟨true,true,false⟩

def userMmapBase : UInt64 := 0x10000000

def stackBottom : UInt64 := userLimit - UInt64.ofNat pageSize - 0x100000

structure Image where
  space : Space
  entry : UInt64
  imageEnd : UInt64

def loadProgram (m : Machine) (sdk : Sdk) (v : Vnode) (size : UInt64) (blob : List UInt8) : Except Errno Image :=
  match mapRegion m (fun _ => none) stackBottom 256 (fun _ _ => 0) ⟨true,true,false⟩ with
  | none => .error .enomem
  | some space =>
    let loaded := loadFile m v size space
    if !m.heap 3 then .error .enomem
    else match loaded with
      | .error e => .error e
      | .ok (result,space) =>
        if result.imageEnd > userMmapBase then .error .enoexec
        else match install m sdk space blob with
          | none => .error .enomem
          | some space => .ok ⟨space,result.entry,result.imageEnd⟩

variable {m : Machine} {v : Vnode} {p : Phdr} {space after : Space} {page : Nat} {fileSize : UInt64}

def Phdr.touches (p : Phdr) (page : Nat) : Bool :=
  p.type = 1 ∧ p.memsz ≠ 0 ∧ p.firstPage ≤ page ∧ page < p.firstPage + p.pages

theorem pageOf_number (small : page < 2^52) : pageOf (UInt64.ofNat (page * pageSize)) = page := by
  unfold pageOf
  rw [UInt64.toNat_ofNat']
  simp only [pageSize]
  omega

theorem copySlice_rights (copied : copySlice v p space copyStart copyEnd = .ok after) :
    rights after = rights space := by
  revert copied
  fun_cases copySlice v p space copyStart copyEnd with
  | case1 =>
    rintro ⟨⟩
    rfl
  | case2 | case3 => nofun
  | case4 _ target there =>
  rintro ⟨⟩
  funext page
  unfold rights
  rw [Function.update_apply]
  split
  · next same =>
    rw [same,there]
    rfl
  · rfl

theorem loadPage_rights (small : here < 2^52) (loaded : loadPage m v p space here = .ok after) :
    rights after page = if page = here then some (m.join (rights space page) p.pageFlags)
      else rights space page := by
  revert loaded
  fun_cases loadPage m v p space here with
  | case1 => nofun
  | case2 =>
    intro loaded
    rw [copySlice_rights loaded,mapZeroPage_rights ‹_›,pageOf_number small]

theorem loadPages_rights (small : first + count ≤ 2^52)
    (loaded : (range' first count).foldlM (loadPage m v p) space = .ok after) :
    rights after page = if first ≤ page ∧ page < first + count then some (m.join (rights space page) p.pageFlags)
      else rights space page := by
  induction count generalizing first space with
  | zero =>
    cases loaded
    rw [if_neg (by omega)]
  | succ count ih =>
    obtain ⟨middle,one,loaded⟩ := bind_ok loaded
    rw [ih (by omega) loaded,loadPage_rights (by omega) one]
    by_cases here : page = first
    · rw [if_pos here,if_neg (by omega),if_pos (by omega)]
    rw [if_neg here]
    by_cases inside : first + 1 ≤ page ∧ page < first + 1 + count
    · rw [if_pos inside,if_pos (by omega)]
    · rw [if_neg inside,if_neg (by omega)]

theorem isUserRange_toNat (user : isUserRange addr len) :
    userMin.toNat ≤ addr.toNat ∧ addr.toNat + len.toNat ≤ userLimit.toNat := by
  unfold isUserRange at user
  split at user
  · cases user
  rename_i inside
  simp only [not_or,UInt64.lt_iff_toNat_lt,UInt64.le_iff_toNat_le,not_le] at inside
  have room := UInt64.le_iff_toNat_le.mp (of_decide_eq_true user)
  rw [UInt64.toNat_sub_of_le _ _ (UInt64.le_iff_toNat_le.mpr (le_of_lt inside.2))] at room
  omega

def Phdr.loads (p : Phdr) : Bool := p.type = 1 ∧ p.memsz ≠ 0

theorem loadSegment_cases (loaded : loadSegment m v fileSize acc p = .ok next) :
    p.loads = false ∧ next = acc ∨ p.loads ∧ p.filesz.toNat ≤ p.memsz.toNat ∧
      p.vaddr.toNat + p.memsz.toNat ≤ userLimit.toNat ∧
      p.firstPage + p.pages = (p.vaddr.toNat + p.memsz.toNat + 4095) / 4096 ∧
      next.2.toNat = max acc.2.toNat (p.vaddr.toNat + p.memsz.toNat) ∧
      (range' p.firstPage p.pages).foldlM (loadPage m v p) acc.1 = .ok next.1 := by
  revert loaded
  fun_cases loadSegment m v fileSize acc p with
  | case1 skipped =>
    rintro ⟨⟩
    refine .inl ⟨decide_eq_false fun both => ?_,rfl⟩
    tauto
  | case2 | case3 | case4 | case5 => nofun
  | case6 kept fits _ user stop mapped done =>
  rintro ⟨⟩
  simp only [not_or,not_not] at kept
  have range := isUserRange_toNat (by simpa using user)
  rw [gt_iff_lt,UInt64.lt_iff_toNat_lt,not_lt] at fits
  simp only [userLimit,UInt64.reduceToNat] at range
  have segEnd : (p.vaddr + p.memsz).toNat = p.vaddr.toNat + p.memsz.toNat := by
    rw [UInt64.toNat_add]
    omega
  have last : pageOf (p.vaddr + p.memsz + UInt64.ofNat (pageSize - 1)) =
      (p.vaddr.toNat + p.memsz.toNat + 4095) / 4096 := by
    unfold pageOf
    rw [UInt64.toNat_add,show (UInt64.ofNat (pageSize - 1)).toNat = 4095 from rfl]
    simp only [pageSize]
    omega
  refine .inr ⟨decide_eq_true kept,fits,range.2,?_,?_,done⟩
  · unfold Phdr.pages
    rw [last]
    unfold Phdr.firstPage pageOf pageSize
    omega
  dsimp only [stop]
  split
  all_goals
    rename_i order
    rw [gt_iff_lt,UInt64.lt_iff_toNat_lt] at order
    omega

theorem Phdr.touches_iff : p.touches page ↔
    p.loads ∧ p.firstPage ≤ page ∧ page < p.firstPage + p.pages := by
  simp only [touches,loads,decide_eq_true_eq,and_assoc]

theorem loadSegment_ok (loaded : loadSegment m v fileSize acc p = .ok next) :
    (∀ page, rights next.1 page = if p.touches page then some (m.join (rights acc.1 page) p.pageFlags)
      else rights acc.1 page) ∧ acc.2.toNat ≤ next.2.toNat ∧
    (∀ page, p.touches page → page * pageSize < next.2.toNat) ∧
    (acc.2.toNat ≤ userLimit.toNat → next.2.toNat ≤ userLimit.toNat) := by
  rcases loadSegment_cases loaded with ⟨skipped,rfl⟩ | ⟨kept,-,range,last,ends,done⟩
  · simp [Phdr.touches_iff,skipped]
  simp only [userLimit,UInt64.reduceToNat] at range ⊢
  refine ⟨fun page => ?_,by omega,fun page touched => ?_,by omega⟩
  · rw [loadPages_rights (by omega) done]
    simp only [Phdr.touches_iff,kept,true_and]
  · have inside := (Phdr.touches_iff.mp touched).2
    simp only [pageSize]
    omega

def joined (m : Machine) (page : Nat) (old : Option Flags) (segs : List Phdr) : Option Flags :=
  segs.foldl (fun old p => if p.touches page then some (m.join old p.pageFlags) else old) old

theorem loadSegments_ok (loaded : segs.foldlM (loadSegment m v fileSize) acc = .ok next) :
    (∀ page, rights next.1 page = joined m page (rights acc.1 page) segs) ∧ acc.2.toNat ≤ next.2.toNat ∧
    (∀ p ∈ segs, ∀ page, p.touches page → page * pageSize < next.2.toNat) ∧
    (acc.2.toNat ≤ userLimit.toNat → next.2.toNat ≤ userLimit.toNat) := by
  induction segs generalizing acc with
  | nil =>
    cases loaded
    exact ⟨fun _ => rfl,le_refl _,nofun,id⟩
  | cons p rest ih =>
    obtain ⟨middle,one,loaded⟩ := bind_ok loaded
    obtain ⟨here,grows,ends,low⟩ := loadSegment_ok one
    obtain ⟨later,grows',ends',low'⟩ := ih loaded
    refine ⟨fun page => ?_,le_trans grows grows',fun q member page touched => ?_,fun small => low' (low small)⟩
    · rw [later,here]
      rfl
    · rcases mem_cons.mp member with rfl | inside
      · exact lt_of_lt_of_le (ends page touched) grows'
      · exact ends' q inside page touched

def writable (flags : Option Flags) : Bool := flags.any (·.write)

def executable (flags : Option Flags) : Bool := flags.any (!·.nx)

theorem joined_may {may : Option Flags → Bool} {gives : Phdr → Bool}
    (adds : ∀ old p, may (some (m.join old (Phdr.pageFlags p))) = (may old || gives p)) (old : Option Flags) (segs : List Phdr) :
    may (joined m page old segs) = (may old || segs.any fun p => p.touches page && gives p) := by
  induction segs generalizing old with
  | nil => simp [joined]
  | cons p rest ih =>
    have step : may (if p.touches page then some (m.join old p.pageFlags) else old) =
        (may old || (p.touches page && gives p)) := by
      cases p.touches page with
      | false => simp
      | true => simp [adds]
    rw [any_cons,← Bool.or_assoc,← step]
    exact ih _

theorem joined_writable (old : Option Flags) (segs : List Phdr) : writable (joined m page old segs) =
    (writable old || segs.any fun p => p.touches page && p.pageFlags.write) :=
  joined_may (fun old p => by cases old <;> simp [writable,Machine.join,Machine.fresh,Flags.upgrade]) old segs

theorem joined_executable (nx : m.hasNx) (old : Option Flags) (segs : List Phdr) :
    executable (joined m page old segs) =
      (executable old || segs.any fun p => p.touches page && !p.pageFlags.nx) :=
  joined_may (fun old p => by cases old <;> simp [executable,Machine.join,Machine.fresh,Flags.upgrade,nx]) old segs

def segments (m : Machine) (v : Vnode) (size : UInt64) : List Phdr :=
  match headers m v size with
  | .error _ => []
  | .ok read => read.2

theorem loadFile_ok {result : LoadResult} (loaded : loadFile m v fileSize space = .ok (result,after)) :
    ∃ imageEnd, (segments m v fileSize).foldlM (loadSegment m v fileSize) (space,0) = .ok (after,imageEnd) ∧
      result.imageEnd = alignUp imageEnd := by
  obtain ⟨parsed,read,loaded⟩ := bind_ok loaded
  obtain ⟨ended,done,loaded⟩ := bind_ok loaded
  rw [segments,read]
  dsimp only at loaded
  rw [done]
  split at loaded
  · cases loaded
  split at loaded
  · cases loaded
  · cases loaded
    exact ⟨ended.2,rfl,rfl⟩

def sdkPage (page : Nat) : Prop := 0x7FFF00000 ≤ page ∧ page < 0x7FFF00300

def Maps (m : Machine) (space after : Space) : Prop :=
  ∀ page, rights after page = rights space page ∨
    sdkPage page ∧ ∃ flags : Flags, rights after page = some (m.fresh flags) ∧ (flags.write → flags.nx)

theorem Maps.trans {middle : Space} (first : Maps m space middle) (second : Maps m middle after) :
    Maps m space after := by
  intro page
  rcases second page with same | new
  · rw [same]
    exact first page
  · exact .inr new

theorem mapRegion_maps {bytes : Nat → Nat → UInt8} {flags : Flags}
    (mapped : mapRegion m space vaddr count bytes flags = some after) (aligned : vaddr.toNat % pageSize = 0)
    (small : vaddr.toNat + count * pageSize < 2^64) (low : 0x7FFF00000 ≤ pageOf vaddr)
    (high : pageOf vaddr + count ≤ 0x7FFF00300) (apart : flags.write → flags.nx) : Maps m space after := by
  intro page
  rw [mapRegion_rights mapped aligned small]
  split
  · next inside => exact .inr ⟨⟨by omega,by omega⟩,flags,rfl,apart⟩
  · exact .inl rfl

theorem install_maps (installed : install m sdk space blob = some after) : Maps m space after := by
  have fits := sdk.fits
  unfold install at installed
  split at installed
  · cases installed
  obtain ⟨first,code,installed⟩ := Option.bind_eq_some_iff.mp installed
  split at installed
  · cases installed
  rename_i short
  obtain ⟨second,info,state⟩ := Option.bind_eq_some_iff.mp installed
  have blobFits : (blob.length + (pageSize - 1)) / pageSize ≤ 256 := by
    simp only [sdkCodeMax] at short
    simp only [pageSize]
    omega
  have codeMaps : Maps m space first := by
    refine mapRegion_maps code rfl ?_ (by decide) ?_ (by simp)
    · rw [show sdkCodeAddress.toNat = 0x7FFF00000000 from rfl]
      simp only [pageSize]
      omega
    · rw [show pageOf sdkCodeAddress = 0x7FFF00000 from rfl]
      omega
  have infoMaps : Maps m first second := by
    refine mapRegion_maps info rfl ?_ (by decide) ?_ (by simp)
    · rw [show (sdkCodeAddress + UInt64.ofNat sdkCodeMax).toNat = 0x7FFF00100000 from rfl]
      simp only [pageSize] at blobFits ⊢
      omega
    · rw [show pageOf (sdkCodeAddress + UInt64.ofNat sdkCodeMax) = 0x7FFF00100 from rfl]
      omega
  have stateMaps : Maps m second after := by
    refine mapRegion_maps state rfl ?_ (by decide) ?_ fun _ => rfl
    · rw [show (sdkCodeAddress + UInt64.ofNat (2 * sdkCodeMax)).toNat = 0x7FFF00200000 from rfl]
      simp only [pageSize]
      omega
    · rw [show pageOf (sdkCodeAddress + UInt64.ofNat (2 * sdkCodeMax)) = 0x7FFF00200 from rfl]
      omega
  exact (codeMaps.trans infoMaps).trans stateMaps

def WxorX (space : Space) : Prop := ∀ page flags, rights space page = some flags →
  ¬ (flags.write ∧ flags.nx = false)

/-- No page belongs to a segment that may write and to one that may execute. -/
def Separate (segs : List Phdr) : Prop := ∀ p ∈ segs, ∀ q ∈ segs, p.pageFlags.write → q.pageFlags.nx = false →
  ∀ page, ¬ (p.touches page ∧ q.touches page)

theorem alignUp_toNat (small : x.toNat ≤ 0x800000000000) :
    (alignUp x).toNat = (x.toNat + 4095) / 4096 * 4096 := by
  unfold alignUp
  rw [UInt64.toNat_mul,UInt64.toNat_div,UInt64.toNat_add,show (UInt64.ofNat (pageSize - 1)).toNat = 4095 from rfl,
    show (UInt64.ofNat pageSize).toNat = 4096 from rfl]
  omega

theorem joined_untouched (away : ∀ p ∈ segs, p.touches page = false) :
    joined m page old segs = old := by
  induction segs with
  | nil => rfl
  | cons p rest ih =>
    unfold joined
    rw [foldl_cons,away p (mem_cons_self ..)]
    exact ih fun q member => away q (mem_cons_of_mem p member)

/-- What a program's pages come from: the stack, then the segments, all below `USER_MMAP_BASE`. -/
structure Built (m : Machine) (segs : List Phdr) (space : Space) : Prop where
  loaded : ∃ after, Maps m after space ∧ ∀ page, rights after page = joined m page
    (if 0x7FFFFFEFF ≤ page ∧ page < 0x7FFFFFFFF then some (m.fresh ⟨true,true,false⟩) else none) segs
  low : ∀ p ∈ segs, ∀ page, p.touches page → page < 0x10000

theorem loadProgram_built {img : Image}
    (loaded : loadProgram m sdk v size blob = .ok img) : Built m (segments m v size) img.space := by
  revert loaded
  fun_cases loadProgram m sdk v size blob with
  | case1 | case2 | case3 | case4 | case5 => nofun
  | case6 stack mapped _ _ result after done below space installed =>
  rintro ⟨⟩
  have stackRights : ∀ page, rights stack page = if 0x7FFFFFEFF ≤ page ∧ page < 0x7FFFFFFFF then
      some (m.fresh ⟨true,true,false⟩) else none := fun page =>
    mapRegion_rights mapped rfl (by decide)
  obtain ⟨imageEnd,segs,same⟩ := loadFile_ok done
  obtain ⟨joins,_,ends,limit⟩ := loadSegments_ok segs
  refine ⟨⟨after,install_maps installed,fun page => ?_⟩,fun p member page touched => ?_⟩
  · rw [joins,stackRights]
  have inside : page * 4096 < imageEnd.toNat := ends p member page touched
  have small : imageEnd.toNat ≤ 0x800000000000 := limit (zero_le _)
  rw [same,gt_iff_lt,UInt64.lt_iff_toNat_lt,alignUp_toNat small] at below
  rw [show userMmapBase.toNat = 0x10000000 from rfl] at below
  omega

theorem both_rights (write : writable flags) (execute : executable flags) :
    ∃ found, flags = some found ∧ found.write ∧ found.nx = false := by
  cases flags with
  | none => cases write
  | some found => exact ⟨found,rfl,write,by simpa [executable] using execute⟩

section
variable {segs : List Phdr} (built : Built m segs space)
include built

theorem Built.separate (nx : m.hasNx) (apart : WxorX space) : Separate segs := by
  obtain ⟨after,maps,rightsOf⟩ := built.loaded
  rintro p pIn q qIn write execute page ⟨pTouches,qTouches⟩
  have small := built.low p pIn page pTouches
  have same : rights space page = rights after page :=
    (maps page).resolve_right fun sdk => absurd sdk.1.1 (by omega)
  have writes : writable (rights space page) := by
    rw [same,rightsOf,joined_writable,Bool.or_eq_true]
    exact .inr (any_eq_true.mpr ⟨p,pIn,by rw [pTouches,write]; rfl⟩)
  have executes : executable (rights space page) := by
    rw [same,rightsOf,joined_executable nx,Bool.or_eq_true]
    exact .inr (any_eq_true.mpr ⟨q,qIn,by rw [qTouches,execute]; rfl⟩)
  obtain ⟨flags,found,both⟩ := both_rights writes executes
  exact apart page flags found both

theorem Built.stack (apart : WxorX space) : m.hasNx := by
  obtain ⟨after,maps,rightsOf⟩ := built.loaded
  by_contra none
  have away : ∀ p ∈ segs, p.touches 0x7FFFFFEFF = false := by
    intro p member
    by_contra touched
    exact absurd (built.low p member _ (by simpa using touched)) (by decide)
  have same : rights space 0x7FFFFFEFF = rights after 0x7FFFFFEFF :=
    (maps _).resolve_right fun sdk => absurd sdk.1.2 (by decide)
  rw [rightsOf,joined_untouched away] at same
  exact apart _ _ same ⟨rfl,by simpa [Machine.fresh] using none⟩

theorem Built.wxorx (nx : m.hasNx) (separate : Separate segs) : WxorX space := by
  obtain ⟨after,maps,rightsOf⟩ := built.loaded
  rintro page flags found ⟨write,execute⟩
  rcases maps page with same | ⟨_,fresh,new,apart⟩
  · have writes : writable (rights after page) := by rw [← same,found]; exact write
    have executes : executable (rights after page) := by rw [← same,found]; simp [executable,execute]
    rw [rightsOf,joined_executable nx,Bool.or_eq_true] at executes
    rw [rightsOf,joined_writable,Bool.or_eq_true] at writes
    -- the stack has NX, so that a segment lets the page execute
    have stack : executable (if 0x7FFFFFEFF ≤ page ∧ page < 0x7FFFFFFFF then some (m.fresh ⟨true,true,false⟩)
        else none) = false := by
      split
      · simp [executable,Machine.fresh,nx]
      · rfl
    obtain ⟨q,qIn,its⟩ := any_eq_true.mp (executes.resolve_left (by rw [stack]; exact Bool.false_ne_true))
    simp only [Bool.and_eq_true,Bool.not_eq_true'] at its
    have small := built.low q qIn page its.1
    rw [if_neg (by omega)] at writes
    obtain ⟨p,pIn,others⟩ := any_eq_true.mp (writes.resolve_left Bool.false_ne_true)
    simp only [Bool.and_eq_true] at others
    exact separate p pIn q qIn others.2 its.2 page ⟨others.1,its.1⟩
  · cases found.symm.trans new
    simp only [Machine.fresh] at write execute
    rw [apart write,nx] at execute
    cases execute

end

/-- A program's memory is writable or executable, page by page, exactly when the CPU has NX and no
page of its file belongs to a writable and to an executable segment. -/
theorem program_wxorx_iff (m : Machine) (sdk : Sdk) (v : Vnode) (size : UInt64) (blob : List UInt8) (img : Image)
    (loaded : loadProgram m sdk v size blob = .ok img) :
    WxorX img.space ↔ m.hasNx ∧ Separate (segments m v size) := by
  have built := loadProgram_built loaded
  exact ⟨fun apart => ⟨built.stack apart,built.separate (built.stack apart) apart⟩,
    fun ⟨nx,separate⟩ => built.wxorx nx separate⟩

def tinyElf (flags : UInt8) : List UInt8 :=
  [0x7F,0x45,0x4C,0x46,2,1,1,0,0,0,0,0,0,0,0,0,2,0,62,0,1,0,0,0,0,0,0x40,0,0,0,0,0,64,0,0,0,0,0,0,0,
    0,0,0,0,0,0,0,0,0,0,0,0,64,0,56,0,1,0,0,0,0,0,0,0,
    1,0,0,0,flags,0,0,0,0,0,0,0,0,0,0,0,0,0,0x40,0,0,0,0,0,0,0,0,0,0,0,0,0,0,0,0,0,0,0,0,0,
    16,0,0,0,0,0,0,0,0,0x10,0,0,0,0,0,0]

def inMemory (bytes : List UInt8) : Vnode := fun off len => .ok ((bytes.drop off.toNat).take len.toNat)

def roomy : Machine := ⟨true,fun _ => true,fun _ => true⟩

def smallSdk : Sdk := ⟨1,fun _ _ => 0,1,by decide⟩

theorem program_wxorx_iff_tiny : ∃ img, loadProgram roomy smallSdk (inMemory (tinyElf 5)) 120 [] = .ok img ∧
    WxorX img.space := by
  obtain ⟨img,loaded⟩ : ∃ img, loadProgram roomy smallSdk (inMemory (tinyElf 5)) 120 [] = .ok img :=
    exists_of_toBool (by decide +kernel)
  refine ⟨img,loaded,(program_wxorx_iff _ _ _ _ _ _ loaded).mpr ⟨rfl,?_⟩⟩
  intro p member q _ write
  rw [mem_singleton.mp member] at write
  cases write

/-- One segment that may write and execute is enough. -/
theorem not_every_program_wxorx : ¬ ∀ m sdk v size blob img, loadProgram m sdk v size blob = .ok img →
    WxorX img.space := by
  intro always
  obtain ⟨img,loaded⟩ : ∃ img, loadProgram roomy smallSdk (inMemory (tinyElf 7)) 120 [] = .ok img :=
    exists_of_toBool (by decide +kernel)
  have separate := (loadProgram_built loaded).separate rfl (always _ _ _ _ _ _ loaded)
  exact separate _ (mem_singleton_self _) _ (mem_singleton_self _) rfl rfl 0x400 ⟨by decide,by decide⟩

end SurfaceOS.Cpu.Elf
