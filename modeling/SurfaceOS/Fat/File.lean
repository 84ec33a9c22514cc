import SurfaceOS.Fat.Clusters

/-! Byte-range I/O over a cluster chain (fat.cpp `read_at`, `write_at`, `truncate`). A call works on
the volume and on the node of one file; an error keeps what was done before it. -/
namespace SurfaceOS.Fat

structure Io where
  vol : Vol
  node : Node

structure Transfer where
  error : Option Errno
  bytes : List UInt8
  io : Io

def sizeLimit : Nat := 0xFFFFFFFF

variable (sb : Super)

/-- The loop of `read_at`; `bytes` are those read so far. Every turn takes at least one byte, so
`fuel` is the length. -/
def readLoop : Nat → Io → Nat → Nat → List UInt8 → Transfer
  | 0, io, _, _, bytes => ⟨none,bytes,io⟩
  | fuel + 1, io, off, len, bytes =>
    if len = 0 then ⟨none,bytes,io⟩
    else
      let idx := off / sb.clusterSize % 2^32
      let inside := off % sb.clusterSize
      match clusterAt sb io.vol io.node idx with
      -- past the end of the chain the read just stops
      | .error e => ⟨if e = .enxio then none else some e,bytes,io⟩
      | .ok (cluster,node) =>
        let chunk := min (sb.clusterSize - inside) len
        match readCluster sb io.vol cluster with
        | (.error e,vol) => ⟨some e,bytes,⟨vol,node⟩⟩
        | (.ok scratch,vol) =>
          readLoop fuel ⟨vol,node⟩ (off + chunk) (len - chunk) (bytes ++ (scratch.drop inside).take chunk)

def readAt (io : Io) (off len : Nat) : Transfer :=
  if len = 0 then ⟨none,[],io⟩
  else if off ≥ io.node.size then ⟨none,[],io⟩
  else
    let len := if (off + len) % 2^64 > io.node.size then io.node.size - off else len
    readLoop sb len io off len []

def zeroTail (v : Vol) (cluster inside : Nat) : Except Errno Unit × Vol :=
  match readCluster sb v cluster with
  | (.error e,v) => (.error e,v)
  | (.ok scratch,v) =>
    writeCluster sb v cluster (scratch.take inside ++ List.replicate (sb.clusterSize - inside) 0)

def clustersFor (size : Nat) : Nat := if size ≠ 0 then (size + sb.clusterSize - 1) / sb.clusterSize else 0

/-- The first half of `extend_to`: the bytes behind the old end are zeroed. -/
def extendTail (io : Io) (endExcl : Nat) : Except Errno Unit × Io :=
  let size := io.node.size
  if clustersFor sb size > 0 ∧ endExcl > size then
    match clusterAt sb io.vol io.node ((size - 1) / sb.clusterSize % 2^32) with
    | .error e => (if e = .enxio then .ok () else .error e,io)
    | .ok (c,node) =>
      if size % sb.clusterSize ≠ 0 then
        let result := zeroTail sb io.vol c (size % sb.clusterSize)
        (result.1,⟨result.2,node⟩)
      else (.ok (),⟨io.vol,node⟩)
  else (.ok (),io)

/-- The second half of `extend_to`: `count` fresh zeroed clusters. -/
def growLoop : Nat → Io → Except Errno Unit × Io
  | 0, io => (.ok (),io)
  | count + 1, io => match allocCluster sb io.vol with
    | .error e => (.error e,io)
    | .ok (newc,vol) => match writeCluster sb vol newc (List.replicate sb.clusterSize 0) with
      | (.error e,vol) => (.error e,⟨(freeChain sb vol newc).2,io.node⟩)
      | (.ok _,vol) => match chainAppend sb vol io.node newc with
        | .error e => (.error e,⟨(freeChain sb vol newc).2,io.node⟩)
        | .ok (node,vol) => growLoop count ⟨vol,node⟩

def extendTo (io : Io) (endExcl : Nat) : Except Errno Unit × Io :=
  let need := (endExcl + sb.clusterSize - 1) / sb.clusterSize
  match extendTail sb io endExcl with
  | (.error e,after) => (.error e,after)
  | (.ok _,after) => growLoop sb (need - clustersFor sb io.node.size) after

/-- One turn of the loop of `write_at`: `chunk` bytes at `inside` of a cluster. -/
def writeChunk (v : Vol) (cluster inside : Nat) (chunk : List UInt8) : Except Errno Unit × Vol :=
  if inside ≠ 0 ∨ chunk.length ≠ sb.clusterSize then
    match readCluster sb v cluster with
    | (.error e,v) => (.error e,v)
    | (.ok scratch,v) => writeCluster sb v cluster
        (scratch.take inside ++ chunk ++ scratch.drop (inside + chunk.length))
  else writeCluster sb v cluster chunk

/-- The loop of `write_at` with the number of bytes done; `fuel` as in `readLoop`. -/
def writeLoop : Nat → Io → Nat → List UInt8 → Nat → Except Errno Unit × Nat × Io
  | 0, io, _, _, done => (.ok (),done,io)
  | fuel + 1, io, off, src, done =>
    if src.length = 0 then (.ok (),done,io)
    else
      let idx := off / sb.clusterSize % 2^32
      let inside := off % sb.clusterSize
      match clusterAt sb io.vol io.node idx with
      | .error e => (.error e,done,io)
      | .ok (cluster,node) =>
        let chunk := min (sb.clusterSize - inside) src.length
        match writeChunk sb io.vol cluster inside (src.take chunk) with
        | (.error e,vol) => (.error e,done,⟨vol,node⟩)
        | (.ok _,vol) => writeLoop fuel ⟨vol,node⟩ (off + chunk) (src.drop chunk) (done + chunk)

def writeAt (io : Io) (off : Nat) (src : List UInt8) : Except Errno Unit × Nat × Io :=
  if src.length = 0 then (.ok (),0,io)
  -- the sum wraps in 64 bits
  else if (off + src.length) % 2^64 > sizeLimit then (.error .efbig,0,io)
  else match extendTo sb io ((off + src.length) % 2^64) with
    | (.error e,io) => (.error e,0,io)
    | (.ok _,io) => match writeLoop sb src.length io off src 0 with
      | (.error e,done,io) => (.error e,done,io)
      | (.ok _,done,io) => (.ok (),done,{io with node := {io.node with
          size := max io.node.size (off + src.length), dirty := true}})

/-- The zeroing of the old last cluster when `truncate` grows a file. -/
def growTail (io : Io) : Except Errno Unit × Io :=
  let size := io.node.size
  if size > 0 ∧ size % sb.clusterSize ≠ 0 then
    match clusterAt sb io.vol io.node ((size - 1) / sb.clusterSize % 2^32) with
    | .error e => (if e = .enxio then .ok () else .error e,io)
    | .ok (c,node) =>
      let result := zeroTail sb io.vol c (size % sb.clusterSize)
      (match result.1 with
        | .error e => if e = .enxio then .ok () else .error e
        | .ok _ => .ok (),⟨result.2,node⟩)
  else (.ok (),io)

/-- The cut of a shrinking `truncate`: the first `keep` clusters stay. -/
def cutChain (io : Io) (keep : Nat) : Except Errno Unit × Io :=
  if keep = 0 then
    if io.node.firstCluster ≥ 2 then
      match freeChain sb io.vol io.node.firstCluster with
      | (.error e,vol) => (.error e,⟨vol,io.node⟩)
      | (.ok _,vol) => (.ok (),⟨vol,{io.node with firstCluster := 0, lastIndex := 0, lastCluster := 0}⟩)
    else (.ok (),io)
  else match clusterAt sb io.vol io.node (keep % 2^32) with
    | .error e => (if e = .enxio then .ok () else .error e,io)
    | .ok (cut,node) =>
      if cut ≥ 2 ∧ cut < clusterEoc then
        match clusterAt sb io.vol node ((keep - 1) % 2^32) with
        | .error e => (.error e,⟨io.vol,node⟩)
        | .ok (keepc,node) => match writeEntry sb io.vol keepc clusterEoc with
          | .error e => (.error e,⟨io.vol,node⟩)
          | .ok vol => match freeChain sb vol cut with
            | (.error e,vol) => (.error e,⟨vol,node⟩)
            | (.ok _,vol) => (.ok (),⟨vol,{node with lastIndex := (keep - 1) % 2^32, lastCluster := keepc}⟩)
      else (.ok (),⟨io.vol,node⟩)

/-- The zeroing of the new last cluster when `truncate` shrinks a file. -/
def shrinkTail (io : Io) (keep size : Nat) : Except Errno Unit × Io :=
  if keep > 0 ∧ size % sb.clusterSize ≠ 0 then
    match clusterAt sb io.vol io.node ((keep - 1) % 2^32) with
    | .error e => (.error e,io)
    | .ok (c,node) =>
      let result := zeroTail sb io.vol c (size % sb.clusterSize)
      (result.1,⟨result.2,node⟩)
  else (.ok (),io)

def Io.resized (io : Io) (size : Nat) : Io := {io with node := {io.node with size := size, dirty := true}}

def growTo (io : Io) (size : Nat) : Except Errno Unit × Io :=
  match extendTo sb io size with
  | (.error e,io) => (.error e,io)
  | (.ok _,io) => match growTail sb io with
    | (.error e,io) => (.error e,io)
    | (.ok _,io) => (.ok (),io.resized size)

def shrinkTo (io : Io) (size : Nat) : Except Errno Unit × Io :=
  let keep := clustersFor sb size
  match cutChain sb io keep with
  | (.error e,io) => (.error e,io)
  | (.ok _,io) => match shrinkTail sb io keep size with
    | (.error e,io) => (.error e,io)
    | (.ok _,io) => (.ok (),io.resized size)

def truncate (io : Io) (size : Nat) : Except Errno Unit × Io :=
  if size > sizeLimit then (.error .efbig,io)
  else if size = io.node.size then (.ok (),io)
  else if size > io.node.size then growTo sb io size
  else shrinkTo sb io size

end SurfaceOS.Fat
