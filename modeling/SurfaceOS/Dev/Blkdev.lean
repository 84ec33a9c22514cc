import SurfaceOS.Usb.Msc

/-! Block devices (dev/blkdev.cpp): disks, windows of them that may nest, and requests cut into pieces
that the USB driver takes. Sector numbers are 64 bits wide up to the driver and 32 in its commands. -/
namespace SurfaceOS.Block
open Lib Lib.Memory List Nat UInt64 Usb.Msc

variable {first rest start tries times : Nat} {middle : Driver} {src : Nat → UInt8} {count length : UInt32}
  {lba : UInt64}

inductive Blkdev
  | disk (g : Geometry)
  | partition (parent : Blkdev) (lbaOffset sectorCount : UInt64)

def Blkdev.sectorCount : Blkdev → UInt64
  | .disk g => g.lastLba.toUInt64 + 1
  | .partition _ _ sectorCount => sectorCount

def resolve : Blkdev → UInt64 → Geometry × UInt64
  | .disk g, lba => (g,lba)
  | .partition parent lbaOffset _, lba => resolve parent (lba + lbaOffset)

def allocPartition (parent : Blkdev) (lbaOffset sectorCount : UInt64) : Option Blkdev :=
  if lbaOffset + sectorCount > parent.sectorCount then none
  else some (.partition parent lbaOffset sectorCount)

def maxSectorsPerIo (g : Geometry) : UInt32 := UInt32.ofNat maxXferBytes / g.blockSize

inductive Op
  | read | write

def Op.opcode : Op → UInt8
  | .read => scsiRead10
  | .write => scsiWrite10

def Op.run (op : Op) (g : Geometry) (env : Nat → Exchange) (src : Nat → UInt8) (lba : UInt64) (count : UInt32)
    (s : Driver) : Except Errno (List UInt8) × Driver :=
  match op with
  | .read => mscRead g env s lba count
  | .write =>
    let done := mscWrite g env s lba count src
    (done.1.map fun _ => [],done.2)

def attempt (op : Op) (g : Geometry) (env : Nat → Exchange) (src : Nat → UInt8) (lba : UInt64) (count : UInt32) :
    Nat → Driver → Except Errno (List UInt8) × Driver
  | 0, s => (.error .eio,s)
  | tries + 1, s =>
    match op.run g env src lba count s with
    | (.ok bytes,after) => (.ok bytes,after)
    | (.error _,after) => attempt op g env src lba count tries after

def maxIoRetries : Nat := 3

theorem maxSectorsPerIo_toNat (g : Geometry) :
    (maxSectorsPerIo g).toNat = maxXferBytes / g.blockSize.toNat ∧ 0 < (maxSectorsPerIo g).toNat := by
  have bounds := g.bounds
  have same : (maxSectorsPerIo g).toNat = maxXferBytes / g.blockSize.toNat := UInt32.toNat_div ..
  refine ⟨same,?_⟩
  rw [same]
  exact div_pos (by simp only [maxXferBytes]; omega) (by omega)

/-- The loop of `block::read` and `block::write`, with `done` of the `count` sectors behind it. -/
def pieces (op : Op) (g : Geometry) (env : Nat → Exchange) (src : Nat → UInt8) (lba : UInt64) (count done : Nat)
    (out : List UInt8) (s : Driver) : Except Errno (List UInt8) × Driver :=
  if done < count then
    let chunk := min (count - done) (maxSectorsPerIo g).toNat
    match attempt op g env (fun i => src (done * g.blockSize.toNat + i)) (lba + UInt64.ofNat done)
        (UInt32.ofNat chunk) maxIoRetries s with
    | (.error _,after) => (.error .eio,after)
    | (.ok bytes,after) => pieces op g env src lba count (done + chunk) (out ++ bytes) after
  else (.ok out,s)
termination_by count - done
decreasing_by
  have positive := (maxSectorsPerIo_toNat g).2
  omega

/-- `block::read` and `block::write`; `gone` is the registry's mark on the disk. -/
def transfer (op : Op) (dev : Blkdev) (gone : Bool) (env : Nat → Exchange) (s : Driver) (lba : UInt64)
    (count : UInt32) (src : Nat → UInt8) : Except Errno (List UInt8) × Driver :=
  if count = 0 then (.error .einval,s)
  else if lba + count.toUInt64 > dev.sectorCount then (.error .einval,s)
  else
    let real := resolve dev lba
    if gone then (.error .eio,s)
    else pieces op real.1 env src real.2 count.toNat 0 [] s

def Blkdev.base : Blkdev → Nat
  | .disk _ => 0
  | .partition parent lbaOffset _ => lbaOffset.toNat + parent.base

def Blkdev.geometry : Blkdev → Geometry
  | .disk g => g
  | .partition parent _ _ => parent.geometry

def Nested : Blkdev → Prop
  | .disk _ => True
  | .partition parent lbaOffset sectorCount =>
    Nested parent ∧ lbaOffset.toNat + sectorCount.toNat ≤ parent.sectorCount.toNat

variable {g : Geometry} {env : Nat → Exchange} {s : Driver} {op : Op} {dev : Blkdev} {lba : UInt64}

theorem disk_sectorCount (g : Geometry) : (Blkdev.disk g).sectorCount.toNat = g.lastLba.toNat + 1 := by
  have bounds := g.bounds
  simp only [Blkdev.sectorCount,UInt64.toNat_add,UInt32.toNat_toUInt64,UInt64.reduceToNat]
  omega

theorem Nested.onDisk (nested : Nested dev) : dev.base + dev.sectorCount.toNat ≤ dev.geometry.lastLba.toNat + 1 := by
  induction dev with
  | disk g => simp only [Blkdev.base,Blkdev.geometry,disk_sectorCount,zero_add,le_refl]
  | partition parent lbaOffset sectorCount ih =>
    have around := ih nested.1
    have inside := nested.2
    change lbaOffset.toNat + parent.base + sectorCount.toNat ≤ parent.geometry.lastLba.toNat + 1
    omega

theorem resolve_eq (dev : Blkdev) (lba : UInt64) :
    (resolve dev lba).1 = dev.geometry ∧ (resolve dev lba).2.toNat = (lba.toNat + dev.base) % 2^64 := by
  induction dev generalizing lba with
  | disk g => exact ⟨rfl,(mod_eq_of_lt lba.toNat_lt).symm⟩
  | partition parent lbaOffset sectorCount ih =>
    obtain ⟨same,sector⟩ := ih (lba + lbaOffset)
    refine ⟨same,sector.trans ?_⟩
    rw [UInt64.toNat_add,Blkdev.base]
    omega

def commands (wire : List Packet) : List Cbw :=
  wire.filterMap fun
    | .command cbw => some cbw
    | _ => none

def names (cbw : Cbw) : UInt8 × Nat × Nat :=
  let byte i := (cbw.cb.getD i 0).toNat
  (cbw.cb.getD 0 0,((byte 2 * 256 + byte 3) * 256 + byte 4) * 256 + byte 5,byte 7 * 256 + byte 8)

def asked (s : Driver) : List (UInt8 × Nat × Nat) := (commands s.wire).map names

theorem bytes_count (count : UInt16) : (count >>> 8).toUInt8.toNat * 256 + count.toUInt8.toNat = count.toNat := by
  have narrow := count.toNat_lt
  simp only [UInt16.toNat_toUInt8,UInt16.toNat_shiftRight,UInt16.reduceToNat,
    Nat.reduceMod,Nat.reducePow]
  omega

theorem bytes_lba (lba : UInt32) : (((lba >>> 24).toUInt8.toNat * 256 + (lba >>> 16).toUInt8.toNat) * 256 +
    (lba >>> 8).toUInt8.toNat) * 256 + lba.toUInt8.toNat = lba.toNat := by
  have wide := lba.toNat_lt
  simp only [UInt32.toNat_toUInt8,UInt32.toNat_shiftRight,UInt32.reduceToNat,
    Nat.reduceMod,Nat.reducePow]
  omega

def view (s : Driver) : Bool × List Cbw := (s.gone,commands s.wire)

theorem commands_append (wire more : List Packet) : commands (wire ++ more) = commands wire ++ commands more :=
  filterMap_append ..

section
variable (s)

theorem names_commandBlock (opcode : UInt8) (lba : UInt32) (count : UInt16) (length : UInt32)
    (input : Bool) : names (commandBlock s (cdb opcode lba count) length input) = (opcode,lba.toNat,count.toNat) := by
  unfold names commandBlock cdb
  simp only [cons_append,getD_cons_zero,getD_cons_succ]
  rw [bytes_lba,bytes_count]

theorem view_bulk (length : Nat) (a : Answer) : view (bulk s length a).2.2 = view s := by
  unfold bulk
  split
  · rfl
  · split <;> rfl

theorem view_log_status (csw : Csw) : view (s.log (.status csw)) = view s :=
  congrArg (Prod.mk s.gone) ((commands_append ..).trans (append_nil _))

theorem view_log_data (bytes : List UInt8) : view (s.log (.data bytes)) = view s :=
  congrArg (Prod.mk s.gone) ((commands_append ..).trans (append_nil _))

theorem view_statusPhase (e : Exchange) : view (statusPhase s e).2 = view s := by
  have last : view (if (bulk s 13 e.status).1 = .stall then bulk (bulk s 13 e.status).2.2 13 e.again
      else bulk s 13 e.status).2.2 = view s := by
    split
    · exact (view_bulk ..).trans (view_bulk ..)
    · exact view_bulk ..
  unfold statusPhase
  dsimp only
  generalize (if (bulk s 13 e.status).1 = .stall then bulk (bulk s 13 e.status).2.2 13 e.again
    else bulk s 13 e.status) = answer at last ⊢
  split
  · exact last
  · exact (view_log_status ..).trans last

theorem view_dataPhase (e : Exchange) (length : Nat) (input : Bool) :
    view (dataPhase s e length input).2 = view s := by
  unfold dataPhase
  rw [view_log_data]
  split
  · exact view_bulk s length e.data
  · exact view_bulk s length e.data

theorem view_botTransport (e : Exchange) (cmd : List UInt8) (length : UInt32) (input : Bool) :
    view (botTransport s e cmd length input).2 =
      (s.gone,commands s.wire ++ [commandBlock s cmd length input]) := by
  have sent : view (bulk (Driver.log {s with tag := s.tag + 1} (.command (commandBlock s cmd length input))) 31
      e.command).2.2 = (s.gone,commands s.wire ++ [commandBlock s cmd length input]) :=
    (view_bulk ..).trans (congrArg (Prod.mk s.gone) (commands_append ..))
  unfold botTransport
  dsimp only
  split
  · exact sent
  split
  · split
    · exact ((view_statusPhase ..).trans (view_dataPhase ..)).trans sent
    · exact (view_dataPhase ..).trans sent
  · exact (view_statusPhase ..).trans sent

end

theorem asked_readWrite (there : s.unplugged = false) (opcode : UInt8) (lba : UInt32) (count : UInt16) :
    asked (scsiReadWrite10 g env s opcode lba count).2 = asked s ++ [(opcode,lba.toNat,count.toNat)] ∧
      (scsiReadWrite10 g env s opcode lba count).2.gone = s.gone := by
  have seen := view_botTransport {s with ticks := s.ticks + 1} (env s.ticks) (cdb opcode lba count)
    (count.toUInt32 * g.blockSize) (opcode = scsiRead10)
  have same : view (scsiReadWrite10 g env s opcode lba count).2 = (s.gone,commands s.wire ++
      [commandBlock s (cdb opcode lba count) (count.toUInt32 * g.blockSize) (opcode = scsiRead10)]) := by
    unfold scsiReadWrite10 botScsiCommand
    rw [if_neg (by simp [there])]
    dsimp only
    split <;> exact seen
  refine ⟨?_,congrArg Prod.fst same⟩
  have log := congrArg (fun seen => seen.2.map names) same
  simpa only [asked,view,map_append,map_cons,map_nil,names_commandBlock] using log

variable {gone : Bool} {after before : Driver} {bytes out : List UInt8} {done total : Nat}

section
variable {src : Nat → UInt8} {count : UInt32}

theorem run_asked (sent : Sent g s lba count) : asked (op.run g env src lba count s).2 =
    asked s ++ [(op.opcode,lba.toUInt32.toNat,count.toUInt16.toNat)] := by
  cases op with
  | read =>
    unfold Op.run mscRead
    dsimp only
    rw [if_neg (by simp [sent.1]),if_neg (by simp [sent.2.2])]
    split <;> exact (asked_readWrite sent.2.1 scsiRead10 lba.toUInt32 count.toUInt16).1
  | write =>
    unfold Op.run
    rw [mscWrite_sent env sent]
    exact (asked_readWrite (s := loaded g s count src) sent.2.1 scsiWrite10 lba.toUInt32 count.toUInt16).1

theorem run_refused (refused : ¬ Sent g s lba count) :
    (∃ e, (op.run g env src lba count s).1 = .error e) ∧ ¬ Sent g (op.run g env src lba count s).2 lba count := by
  have lost : s.gone = false → requestFits g lba count → s.unplugged := by
    intro here fits
    by_contra there
    exact refused ⟨here,by simpa using there,fits⟩
  have same : ∀ (now : Driver) opcode, now.unplugged →
      scsiReadWrite10 g env now opcode lba.toUInt32 count.toUInt16 = (false,now) := by
    intro now opcode gone
    unfold scsiReadWrite10 botScsiCommand
    rw [if_pos gone]
    rfl
  cases op with
  | read =>
    unfold Op.run mscRead
    dsimp only
    split
    · exact ⟨⟨_,rfl⟩,refused⟩
    rename_i here
    split
    · exact ⟨⟨_,rfl⟩,refused⟩
    · next fits =>
      rw [same s _ (lost (by simpa using here) (by simpa using fits))]
      exact ⟨⟨_,rfl⟩,refused⟩
  | write =>
    unfold Op.run mscWrite
    dsimp only
    split
    · exact ⟨⟨_,rfl⟩,refused⟩
    rename_i here
    split
    · exact ⟨⟨_,rfl⟩,refused⟩
    rename_i fits
    rw [same]
    · exact ⟨⟨_,rfl⟩,refused⟩
    · exact lost (by simpa using here) (by simpa using fits)

theorem attempt_ok (done : attempt op g env src lba count tries s = (.ok bytes,after)) : Sent g s lba count ∧
    ∃ times, 1 ≤ times ∧ times ≤ tries ∧ asked after = asked s ++
      replicate times (op.opcode,lba.toUInt32.toNat,count.toUInt16.toNat) := by
  induction tries generalizing s with
  | zero => cases done
  | succ tries ih =>
    have sent : Sent g s lba count → asked (op.run g env src lba count s).2 = _ := run_asked
    have refused : ¬ Sent g s lba count → _ ∧ ¬ Sent g (op.run g env src lba count s).2 lba count := run_refused
    unfold attempt at done
    generalize op.run g env src lba count s = answer at done sent refused
    match answer, done with
    | (.ok _,now), done =>
      cases done
      have reached : Sent g s lba count := by
        by_contra lost
        obtain ⟨⟨e,failed⟩,_⟩ := refused lost
        cases failed
      exact ⟨reached,1,le_refl 1,by omega,sent reached⟩
    | (.error e,now), done =>
      obtain ⟨again,times,some,few,log⟩ := ih done
      have reached : Sent g s lba count := by
        by_contra lost
        exact (refused lost).2 again
      refine ⟨reached,times + 1,by omega,by omega,?_⟩
      rw [log,sent reached,append_assoc]
      rfl

structure Piece where
  start : Nat
  length : Nat
  times : Nat

/-- Between two moments the disk was asked for the sectors from `start` on, `count` of them in their
order, in pieces each of which was tried at most `maxIoRetries` times. -/
def Carried (op : Op) (before after : Driver) (start count : Nat) : Prop :=
  ∃ run : List Piece, asked after = asked before ++
      run.flatMap (fun p => replicate p.times (op.opcode,p.start,p.length)) ∧
    (∀ p ∈ run, 1 ≤ p.times ∧ p.times ≤ maxIoRetries) ∧
    run.flatMap (fun p => range' p.start p.length) = range' start count

theorem Carried.cons (some : 1 ≤ times) (few : times ≤ maxIoRetries)
    (asked_ : asked middle = asked before ++ replicate times (op.opcode,start,first))
    (later : Carried op middle after (start + first) rest) : Carried op before after start (first + rest) := by
  obtain ⟨run,log,tried,sectors⟩ := later
  refine ⟨⟨start,first,times⟩ :: run,?_,?_,?_⟩
  · rw [log,asked_,append_assoc,flatMap_cons]
  · intro p member
    rcases mem_cons.mp member with rfl | inside
    · exact ⟨some,few⟩
    · exact tried p inside
  · rw [flatMap_cons,sectors]
    exact range'_append_1 ..

theorem chunk_toNat (g : Geometry) (left : Nat) :
    (UInt32.ofNat (min left (maxSectorsPerIo g).toNat)).toNat = min left (maxSectorsPerIo g).toNat :=
  UInt32.toNat_ofNat_of_lt (lt_of_le_of_lt (min_le_right ..) (UInt32.toNat_lt _))

theorem piece_named (fits : requestFits g lba count)
    (low : lba.toNat + count.toNat ≤ g.lastLba.toNat + 1) :
    lba.toUInt32.toNat = lba.toNat ∧ count.toUInt16.toNat = count.toNat := by
  have bounds := g.bounds
  refine ⟨?_,?_⟩
  · rw [toNat_toUInt32]
    omega
  · have same := congrArg UInt32.toNat (fits_lengths fits).1
    rwa [UInt16.toNat_toUInt32] at same

theorem pieces_carried (low : lba.toNat + total ≤ g.lastLba.toNat + 1) (inside : done ≤ total)
    (went : pieces op g env src lba total done out s = (.ok bytes,after)) :
    Carried op s after (lba.toNat + done) (total - done) := by
  have bounds := g.bounds
  fun_induction pieces op g env src lba total done out s with
  | case1 => cases went
  | case2 done out s more chunk part middle tried ih =>
    obtain ⟨sent,times,some,few,log⟩ := attempt_ok tried
    have length : (UInt32.ofNat chunk).toNat = chunk := chunk_toNat g (total - done)
    have offset : (lba + UInt64.ofNat done).toNat = lba.toNat + done := by
      rw [UInt64.toNat_add,UInt64.toNat_ofNat']
      omega
    obtain ⟨sector,number⟩ := piece_named sent.2.2 (by rw [length]; omega)
    rw [sector,number,offset,length] at log
    have later := ih (by omega) went
    rw [← add_assoc] at later
    have whole := Carried.cons some few log later
    rwa [show chunk + (total - (done + chunk)) = total - done by omega] at whole
  | case3 done out s all =>
    cases went
    refine ⟨[],by simp,nofun,?_⟩
    rw [show total - done = 0 by omega]
    rfl

theorem pieces_first (some : 0 < total)
    (went : pieces op g env src lba total 0 out s = (.ok bytes,after)) :
    requestFits g lba (UInt32.ofNat (min total (maxSectorsPerIo g).toNat)) := by
  rw [pieces,if_pos some] at went
  dsimp only at went
  split at went
  · cases went
  · next tried =>
    have fits := (attempt_ok tried).1.2.2
    rwa [show lba + UInt64.ofNat 0 = lba from add_zero lba] at fits

end

def obliging : Exchange where
  command := ⟨true,.success,replicate 31 0,false⟩
  data := ⟨true,.success,replicate maxXferBytes 0,false⟩
  status := ⟨true,.success,[0x55,0x53,0x42,0x53,0,0,0,0,0,0,0,0,0],false⟩
  again := ⟨true,.success,[],false⟩
  unplugged := false

def attached : Driver := ⟨false,false,fun _ => 0,1,0,[]⟩

theorem obliging_accepted : obliging.Accepted ⟨cswSignature,0,0,0⟩ :=
  ⟨⟨rfl,rfl⟩,⟨.inl rfl,rfl⟩,by rfl,rfl,rfl⟩

theorem obliging_transport {cmd : List UInt8} {input : Bool} (there : s.unplugged = false)
    (some : 0 < length) (small : length.toNat ≤ maxXferBytes) :
    (botTransport s obliging cmd length input).2.unplugged = false := by
  obtain ⟨went,stays,_,_⟩ := dataPhase_asked obliging input
    (s := s.sent obliging (commandBlock s cmd length input)) rfl small
  rw [botTransport_asked there some]
  dsimp only
  rw [
    if_pos (went.trans (decide_eq_true obliging_accepted.data.1))]
  unfold statusPhase
  rw [bulk_asked (stays.trans obliging_accepted.data.2) (by decide)]
  rfl

theorem obliging_run (sent : Sent g s lba count) :
    ∃ bytes after, op.run g (fun _ => obliging) src lba count s = (.ok bytes,after) ∧ after.gone = false ∧
      after.unplugged = false := by
  have stays : ∀ (now : Driver) opcode, Sent g now lba count →
      (scsiReadWrite10 g (fun _ => obliging) now opcode lba.toUInt32 count.toUInt16).2.gone = false ∧
      (scsiReadWrite10 g (fun _ => obliging) now opcode lba.toUInt32 count.toUInt16).2.unplugged = false := by
    intro now opcode here
    obtain ⟨some,length,small⟩ := sent_length here
    refine ⟨(asked_readWrite here.2.1 opcode lba.toUInt32 count.toUInt16).2.trans here.1,?_⟩
    unfold scsiReadWrite10 botScsiCommand
    rw [if_neg (by simp [here.2.1])]
    dsimp only
    split
    · rfl
    · exact obliging_transport here.2.1 some (length ▸ small)
  cases op with
  | read => exact ⟨_,_,mscRead_accepted (fun _ => obliging) sent obliging_accepted,stays s scsiRead10 sent⟩
  | write =>
    unfold Op.run
    rw [mscWrite_accepted (fun _ => obliging) sent obliging_accepted src]
    exact ⟨_,_,rfl,stays (loaded g s count src) scsiWrite10 sent⟩

theorem obliging_pieces (here : s.gone = false) (there : s.unplugged = false)
    (fits : ∀ done, done < total → requestFits g (lba + UInt64.ofNat done)
      (UInt32.ofNat (min (total - done) (maxSectorsPerIo g).toNat))) (out : List UInt8) :
    ∃ bytes after, pieces op g (fun _ => obliging) src lba total done out s = (.ok bytes,after) := by
  fun_induction pieces op g (fun _ => obliging) src lba total done out s with
  | case1 done out s more chunk after e failed =>
    obtain ⟨bytes,now,ran,_⟩ := @obliging_run (fun i => src (done * g.blockSize.toNat + i)) _ _ _ op _
      ⟨here,there,fits done more⟩
    unfold maxIoRetries attempt at failed
    rw [ran] at failed
    cases failed
  | case2 done out s more chunk part middle tried ih =>
    obtain ⟨bytes,now,ran,stays,plugged⟩ := @obliging_run (fun i => src (done * g.blockSize.toNat + i)) _ _ _ op _
      ⟨here,there,fits done more⟩
    unfold maxIoRetries attempt at tried
    rw [ran] at tried
    cases tried
    exact ih stays plugged
  | case3 done out s all => exact ⟨out,s,rfl⟩

/-- A request is carried out as meant: within the device and the disk, its sectors in order. -/
structure Proper (op : Op) (dev : Blkdev) (lba : UInt64) (count : UInt32) (before after : Driver) : Prop where
  inside : lba.toNat + count.toNat ≤ dev.sectorCount.toNat
  onDisk : dev.base + lba.toNat + count.toNat ≤ dev.geometry.lastLba.toNat + 1
  carried : Carried op before after (dev.base + lba.toNat) count.toNat

/-- The end of the request wraps around in 64 bits and so passes the check of `block::read`, and its
first piece, which begins before the device, reaches over the wrap. -/
def Escapes (dev : Blkdev) (lba : UInt64) (count : UInt32) : Prop :=
  2^64 ≤ lba.toNat + count.toNat ∧ lba.toNat + count.toNat ≤ 2^64 + dev.sectorCount.toNat ∧
    2^64 ≤ dev.base + lba.toNat + (maxSectorsPerIo dev.geometry).toNat

instance (dev : Blkdev) (lba : UInt64) (count : UInt32) : Decidable (Escapes dev lba count) :=
  inferInstanceAs (Decidable (_ ∧ _ ∧ _))

theorem transfer_ok
    (went : transfer op dev gone env s lba count src = (.ok bytes,after)) :
    0 < count.toNat ∧ (lba.toNat + count.toNat) % 2^64 ≤ dev.sectorCount.toNat ∧
      pieces op dev.geometry env src (resolve dev lba).2 count.toNat 0 [] s = (.ok bytes,after) := by
  revert went
  fun_cases transfer op dev gone env s lba count src with
  | case4 some within =>
    intro went
    rw [(resolve_eq dev lba).1] at went
    refine ⟨Nat.pos_of_ne_zero fun zero => some (UInt32.toNat_inj.mp zero),?_,went⟩
    simpa only [gt_iff_lt,UInt64.lt_iff_toNat_lt,UInt64.toNat_add,UInt32.toNat_toUInt64,Nat.not_lt] using within
  | _ => nofun

theorem proper_of_ok (nested : Nested dev) (stays : ¬ Escapes dev lba count)
    (went : transfer op dev gone env s lba count src = (.ok bytes,after)) : Proper op dev lba count s after := by
  obtain ⟨some,checked,ran⟩ := transfer_ok went
  have disk := nested.onDisk
  have bounds := dev.geometry.bounds
  have wide := lba.toNat_lt
  have short := count.toNat_lt
  have sector := (resolve_eq dev lba).2
  by_cases wraps : 2^64 ≤ lba.toNat + count.toNat
  · -- the first piece lies beyond the disk
    have fits := (requestFits_iff.mp (pieces_first some ran)).2.2
    have before : dev.base + lba.toNat + (maxSectorsPerIo dev.geometry).toNat < 2^64 := by
      by_contra over_
      exact stays ⟨wraps,by omega,by omega⟩
    rw [chunk_toNat] at fits
    omega
  · have within : lba.toNat + count.toNat ≤ dev.sectorCount.toNat := by omega
    have start : (resolve dev lba).2.toNat = dev.base + lba.toNat := by omega
    have carried := pieces_carried (by omega) (zero_le _) ran
    rw [start] at carried
    exact ⟨within,by omega,carried⟩

theorem escapes_ok (op : Op) (nested : Nested dev) (escapes : Escapes dev lba count) (src : Nat → UInt8) :
    ∃ bytes after, transfer op dev false (fun _ => obliging) attached lba count src = (.ok bytes,after) := by
  obtain ⟨wraps,checked,reaches⟩ := escapes
  have disk := nested.onDisk
  have wide := lba.toNat_lt
  have sector := (resolve_eq dev lba).2
  have fits : ∀ done, done < count.toNat → requestFits dev.geometry ((resolve dev lba).2 + UInt64.ofNat done)
      (UInt32.ofNat (min (count.toNat - done) (maxSectorsPerIo dev.geometry).toNat)) := by
    intro done more
    have positive := (maxSectorsPerIo_toNat dev.geometry).2
    rw [requestFits_iff,chunk_toNat,UInt64.toNat_add,UInt64.toNat_ofNat']
    refine ⟨by omega,?_,by omega⟩
    calc min (count.toNat - done) (maxSectorsPerIo dev.geometry).toNat * dev.geometry.blockSize.toNat
        ≤ maxXferBytes / dev.geometry.blockSize.toNat * dev.geometry.blockSize.toNat := by
          exact mul_le_mul_right _ (min_le_right ..)
      _ ≤ maxXferBytes := div_mul_le_self ..
  obtain ⟨bytes,after,ran⟩ : ∃ bytes after, pieces op dev.geometry (fun _ => obliging) src (resolve dev lba).2
      count.toNat 0 [] attached = (.ok bytes,after) := obliging_pieces rfl rfl fits []
  refine ⟨bytes,after,?_⟩
  unfold transfer
  rw [if_neg,if_neg]
  · dsimp only
    rw [(resolve_eq dev lba).1]
    exact ran
  · simp only [UInt64.lt_iff_toNat_lt,UInt64.toNat_add,UInt32.toNat_toUInt64]
    omega
  · rintro rfl
    exact absurd wraps (by simp only [UInt32.toNat_zero]; omega)

theorem Escapes.improper (nested : Nested dev) (escapes : Escapes dev lba count) :
    ¬ Proper op dev lba count s after := by
  intro proper
  have inside := proper.inside
  have disk := nested.onDisk
  have bounds := dev.geometry.bounds
  have wraps := escapes.1
  omega

/-- `block::read` and `block::write` through any nest of windows, whatever the disk answers: what
succeeds was carried out as meant, exactly when the request does not escape by a wrap of 64 bits. -/
theorem requests_proper_iff (op : Op) (dev : Blkdev) (nested : Nested dev) (lba : UInt64) (count : UInt32) :
    (∀ gone env s src bytes after, transfer op dev gone env s lba count src = (.ok bytes,after) →
      Proper op dev lba count s after) ↔ ¬ Escapes dev lba count := by
  constructor
  · intro always escapes
    obtain ⟨bytes,after,went⟩ := escapes_ok op nested escapes fun _ => 0
    exact escapes.improper nested (always _ _ _ _ _ _ went)
  · intro stays gone env s src bytes after went
    exact proper_of_ok nested stays went

def firstPartition : Blkdev := .partition (.disk stick) 64 1000

theorem firstPartition_nested : Nested firstPartition := ⟨trivial,by decide⟩

theorem requests_proper_iff_partition : Nested firstPartition ∧ ∀ gone env s src bytes after,
    transfer .read firstPartition gone env s 3 5 src = (.ok bytes,after) → Proper .read firstPartition 3 5 s after :=
  ⟨firstPartition_nested,
    (requests_proper_iff .read firstPartition firstPartition_nested 3 5).mpr (by decide)⟩

/-- Two sectors from the last 64-bit sector number on: the read returns the sectors 63 and 64 of the
disk, the first of which is not in the partition. -/
theorem not_every_request_proper : ¬ ∀ op dev, Nested dev → ∀ lba count gone env s src bytes after,
    transfer op dev gone env s lba count src = (.ok bytes,after) → Proper op dev lba count s after := by
  intro always
  have escapes : Escapes firstPartition 0xFFFFFFFFFFFFFFFF 2 := by decide
  obtain ⟨bytes,after,went⟩ := escapes_ok .read firstPartition_nested escapes fun _ => 0
  exact escapes.improper firstPartition_nested (always _ _ firstPartition_nested _ _ _ _ _ _ _ _ went)

structure GptEntry where
  used : Bool
  firstLba : UInt64
  lastLba : UInt64

theorem attempt_length
    (done : attempt .read g env src lba count tries s = (.ok bytes,after)) : bytes.length = size g count := by
  induction tries generalizing s with
  | zero => cases done
  | succ tries ih =>
    have ran : ∀ bytes now, Op.read.run g env src lba count s = (.ok bytes,now) → bytes.length = size g count := by
      intro bytes now went
      rw [(mscRead_ok env went).2.2.2,slice_length]
    unfold attempt at done
    generalize Op.read.run g env src lba count s = answer at done ran
    match answer, done with
    | (.ok _,now), done =>
      cases done
      exact ran bytes after rfl
    | (.error e,now), done => exact ih done

theorem pieces_length
    (inside : done ≤ total) (went : pieces .read g env src lba total done out s = (.ok bytes,after)) :
    bytes.length = out.length + (total - done) * g.blockSize.toNat := by
  fun_induction pieces .read g env src lba total done out s with
  | case1 => cases went
  | case2 done out s more chunk part middle tried ih =>
    rw [ih (by omega) went,length_append,attempt_length tried,Usb.Msc.size,chunk_toNat,Nat.add_assoc,← Nat.add_mul]
    congr 2
    omega
  | case3 done out s all =>
    cases went
    rw [show total - done = 0 by omega,Nat.zero_mul,Nat.add_zero]

theorem transfer_length
    (went : transfer .read dev gone env s lba count src = (.ok bytes,after)) :
    bytes.length = count.toNat * dev.geometry.blockSize.toNat := by
  simpa using pieces_length (zero_le _) (transfer_ok went).2.2

theorem Carried.append (one : Carried op before middle start first)
    (two : Carried op middle after (start + first) rest) : Carried op before after start (first + rest) := by
  obtain ⟨run,log,tried,sectors⟩ := one
  obtain ⟨more,later,also,others⟩ := two
  refine ⟨run ++ more,?_,?_,?_⟩
  · rw [later,log,append_assoc,flatMap_append]
  · intro p member
    exact (mem_append.mp member).elim (tried p) (also p)
  · rw [flatMap_append,sectors,others]
    exact range'_append_1 ..

theorem names_small (cbw : Cbw) : (names cbw).2.1 < 2^32 := by
  have byte (i : Nat) : (cbw.cb.getD i 0).toNat < 256 := UInt8.toNat_lt _
  have second := byte 2
  have third := byte 3
  have fourth := byte 4
  have fifth := byte 5
  unfold names
  dsimp only
  omega

theorem Carried.small {count : Nat} (carried : Carried op before after start count)
    (some : 0 < count) : start < 2^32 := by
  obtain ⟨run,log,tried,sectors⟩ := carried
  have first : start ∈ run.flatMap fun p => range' p.start p.length := by
    rw [sectors,mem_range'_1]
    omega
  obtain ⟨p,member,inside⟩ := mem_flatMap.mp first
  obtain ⟨low,high⟩ := mem_range'_1.mp inside
  -- the piece does not begin before the request does
  have begins : p.start ∈ run.flatMap fun p => range' p.start p.length :=
    mem_flatMap.mpr ⟨p,member,mem_range'_1.mpr ⟨le_refl _,by omega⟩⟩
  rw [sectors,mem_range'_1] at begins
  have sent : (op.opcode,p.start,p.length) ∈ asked after := by
    rw [log]
    refine mem_append_right _ (mem_flatMap.mpr ⟨p,member,?_⟩)
    exact mem_replicate.mpr ⟨ne_of_gt (tried p member).1,rfl⟩
  obtain ⟨cbw,-,named⟩ := mem_map.mp sent
  have narrow := names_small cbw
  rw [named] at narrow
  exact lt_of_le_of_lt begins.1 narrow
structure Idle (s : Driver) : Prop where
  here : s.gone = false
  there : s.unplugged = false
  empty : s.dma = fun _ => 0

theorem obliging_zeros (idle : Idle s) (fits : requestFits g lba count) :
    ∃ after, Op.read.run g (fun _ => obliging) src lba count s = (.ok (replicate (size g count) 0),after) ∧
      Idle after := by
  have sent : Sent g s lba count := ⟨idle.here,idle.there,fits⟩
  obtain ⟨bytes,after,ran,stays,plugged⟩ : ∃ bytes after, Op.read.run g (fun _ => obliging) src lba count s =
      (.ok bytes,after) ∧ after.gone = false ∧ after.unplugged = false := obliging_run sent
  obtain ⟨-,-,same,read⟩ := mscRead_ok (fun _ => obliging) ran
  have empty : after.dma = fun _ => 0 := by
    rw [same,(readWrite_accepted (fun _ => obliging) scsiRead10 sent obliging_accepted).2.1,if_pos rfl,idle.empty]
    funext i
    unfold patch
    split
    · cases found : (obliging.data.bytes.take (size g count))[i - 0]? with
      | none => rfl
      | some byte =>
        have member := mem_of_mem_take (mem_of_getElem? found)
        exact eq_of_mem_replicate member
    · rfl
  refine ⟨after,ran.trans ?_,stays,plugged,empty⟩
  have zeros : slice (fun _ => (0 : UInt8)) 0 (size g count) = replicate (size g count) 0 :=
    eq_replicate_iff.mpr ⟨slice_length ..,by simp [slice]⟩
  rw [read,empty,zeros]

theorem obliging_reads (idle : Idle s)
    (fits : ∀ done, done < total → requestFits g (lba + UInt64.ofNat done)
      (UInt32.ofNat (min (total - done) (maxSectorsPerIo g).toNat))) (zeros : ∀ b ∈ out, b = 0) :
    ∃ bytes after, pieces .read g (fun _ => obliging) src lba total done out s = (.ok bytes,after) ∧ Idle after ∧
      ∀ b ∈ bytes, b = 0 := by
  fun_induction pieces .read g (fun _ => obliging) src lba total done out s with
  | case1 done out s more chunk after e failed =>
    obtain ⟨now,ran,_⟩ := @obliging_zeros (fun i => src (done * g.blockSize.toNat + i)) _ _ _ _ idle (fits done more)
    unfold maxIoRetries attempt at failed
    rw [ran] at failed
    cases failed
  | case2 done out s more chunk part middle tried ih =>
    obtain ⟨now,ran,idle⟩ := @obliging_zeros (fun i => src (done * g.blockSize.toNat + i)) _ _ _ _ idle (fits done more)
    unfold maxIoRetries attempt at tried
    rw [ran] at tried
    cases tried
    refine ih idle fun b member => ?_
    rcases mem_append.mp member with before | new
    · exact zeros b before
    · exact eq_of_mem_replicate new
  | case3 done out s all => exact ⟨out,s,rfl,idle,zeros⟩

end SurfaceOS.Block
