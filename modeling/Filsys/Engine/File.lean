/-
  Filsys.Engine.File — file data and directory entries (v7fs.c, dir_fixed.c,
  dir_bsd211.c, pdp7fs.c).

  A directory is a file of entries: fixed records scanned a chunk at a time (V1, V6 and
  the V7 family), variable-length records framed in 512-byte chunks (2.11BSD), or
  eight-word records (PDP-7, which has no stored `.` and `..`). Names are byte strings
  without a NUL.
-/

import Filsys.Engine.Inode

namespace Filsys.Engine

open Filsys.Lib

/-! ## File data -/

/-- The bytes of a mapped block, or zeros for a hole. -/
def blkOrHole (pbn : Nat) : M Buf := if pbn = 0 then return zeroBuf else failAs .eio (blkGet pbn)

/-- The read loop of `filsys_file_read` from `done` on; each turn moves at least a byte. -/
def fileReadLoop (size off : Nat) : Nat → Nat → Buf → MI Buf
  | 0, _, buf => return buf
  | fuel + 1, done, buf => do
    if size ≤ done then return buf
    else
      let bsize := (← up getFs).desc.bsize
      let boff := (off + done) % bsize
      let pbn ← failAs .eio (filsysBmap ((off + done) / bsize % 2 ^ 32) false)
      let blk ← up (blkOrHole pbn)
      let n := min (bsize - boff) (size - done)
      fileReadLoop size off fuel (done + n) (splice buf done blk boff n)

/-- The byte count and the bytes. -/
def filsysFileRead (size : Nat) (off : Int) : MI (Nat × Buf) := do
  let ip ← getIp
  if off < 0 then throw .einval
  else if (ip.size : Int) ≤ off then return (0, zeroBuf)
  else
    let size := min size (ip.size - off.toNat)
    let buf ← fileReadLoop size off.toNat size 0 zeroBuf
    return (size, buf)

def fileWriteLoop (buf : Buf) (size off : Nat) : Nat → Nat → MI Unit
  | 0, _ => return ()
  | fuel + 1, done => do
    if size ≤ done then return ()
    else
      let bsize := (← up getFs).desc.bsize
      let boff := (off + done) % bsize
      let pbn ← filsysBmap ((off + done) / bsize % 2 ^ 32) true
      if pbn = 0 then throw .enospc
      else
        let blk ← up (failAs .eio (blkGet pbn))
        let n := min (bsize - boff) (size - done)
        up (failAs .eio (blkPut pbn (splice blk boff buf done n)))
        fileWriteLoop buf size off fuel (done + n)

def filsysFileWrite (buf : Buf) (size : Nat) (off : Int) : MI Nat := do
  if off < 0 then throw .einval
  else
    fileWriteLoop buf size off.toNat size 0
    modIp fun ip => if ip.size < off.toNat + size then { ip with size := (off.toNat + size) % 2 ^ 32 } else ip
    let ip ← getIp
    up (writeInode ip.ino ip)
    return size

/-! ## Fixed entries -/

abbrev Name := List UInt8

/-- `fixed_name_eq`: at most `max` stored bytes against the name, zero past its end. -/
def fixedNameEq (b : Buf) : Nat → Nat → Name → Bool
  | _, 0, _ => true
  | o, _ + 1, [] => b o == 0
  | o, max + 1, c :: cs => b o == c && fixedNameEq b (o + 1) max cs

def dirChunk (d : Desc) : Nat :=
  let c := d.bsize / d.direntSize * d.direntSize
  if c = 0 then d.direntSize else c

/-- The first entry offset `b, b + esize, …` inside `got` bytes that satisfies `p`. -/
def findEntry (p : Nat → Bool) (esize got : Nat) : Nat → Nat → Option Nat
  | 0, _ => none
  | fuel + 1, b =>
    if b + esize ≤ got then
      if p b then some b else findEntry p esize got fuel (b + esize)
    else none

/-- The scan `dir_lookup`, `dir_add` and `dir_remove` share: chunk by chunk from `off`,
    the first entry satisfying `p`, as its chunk's offset, the chunk and the offset in it. -/
def dirScan (p : Buf → Nat → Bool) : Nat → Nat → MI (Option (Nat × Buf × Nat))
  | 0, _ => return none
  | fuel + 1, off => do
    let d := (← up getFs).desc
    let ip ← getIp
    if off < ip.size then
      let (got, blk) ← filsysFileRead (min (dirChunk d) (ip.size - off)) off
      match findEntry (p blk) d.direntSize got got 0 with
      | some b => return some (off, blk, b)
      | none => dirScan p fuel (off + dirChunk d)
    else return none

def entryIno (d : Desc) (blk : Buf) (b : Nat) : Nat := d.bo.get16 blk b

/-- A live entry of that name. -/
def entryNamed (d : Desc) (name : Name) (blk : Buf) (b : Nat) : Bool :=
  entryIno d blk b != 0 && fixedNameEq blk (b + 2) d.maxNamlen name

def v7fsDirLookup (name : Name) : MI Nat := do
  let d := (← up getFs).desc
  let ip ← getIp
  match ← dirScan (entryNamed d name) (ip.size + 1) 0 with
  | some (_, blk, b) => return entryIno d blk b
  | none => throw .enoent

/-- The record `dir_add` stores. -/
def makeEntry (d : Desc) (ino : Nat) (name : Name) : Buf := poke (d.bo.put16 zeroBuf 0 ino) 2 name

def slash : UInt8 := 47

def v7fsDirAdd (ino : Nat) (name : Name) : MI Unit := do
  let d := (← up getFs).desc
  if name = [] ∨ d.maxNamlen < name.length then throw .enametoolong
  else if slash ∈ name then throw .einval
  else
    let ip ← getIp
    match ← dirScan (fun blk b => entryIno d blk b == 0) (ip.size + 1) 0 with
    | some (off, _, b) =>
      let _ ← filsysFileWrite (makeEntry d ino name) d.direntSize (off + b : Nat)
    | none =>
      let _ ← filsysFileWrite (makeEntry d ino name) d.direntSize ip.size

def v7fsDirRemove (name : Name) : MI Unit := do
  let d := (← up getFs).desc
  let ip ← getIp
  match ← dirScan (entryNamed d name) (ip.size + 1) 0 with
  | some (off, _, b) =>
    let _ ← filsysFileWrite zeroBuf d.direntSize (off + b : Nat)
  | none => throw .enoent

/-! ## Iterators -/

/-- `filsys_iter_state_t`: the chunk in hand and the resume token. -/
structure Iter where
  buf : Buf := zeroBuf
  bufN : Nat := 0
  bufOff : Nat := 0
  nextOff : Nat := 0

/-- One entry: its inode and its name. -/
abbrev Dirent := Nat × Name

/-- The stored name at `o`: up to `max` bytes, to the first zero. -/
def storedName (b : Buf) (o max : Nat) : Name := ((List.range max).map fun i => b (o + i)).takeWhile (· ≠ 0)

/-- Make the chunk at `chunkOff` the one in hand. -/
def iterLoad (chunk chunkOff : Nat) (st : Iter) : MI Iter := do
  let ip ← getIp
  if st.bufOff ≠ chunkOff ∨ st.bufN = 0 then
    let (got, buf) ← filsysFileRead (min chunk (ip.size - chunkOff)) chunkOff
    return { st with buf := buf, bufN := got, bufOff := chunkOff }
  else return st

/-- `v7fs_dir_iter`. -/
def v7fsDirIter : Nat → Iter → MI (Option Dirent × Iter)
  | 0, _ => throw .diverges
  | fuel + 1, st => do
    let d := (← up getFs).desc
    let ip ← getIp
    let chunk := dirChunk d
    if ip.size ≤ st.nextOff then return (none, st)
    else
      let chunkOff := st.nextOff / chunk * chunk
      let st ← iterLoad chunk chunkOff st
      match findEntry (fun b => entryIno d st.buf b != 0) d.direntSize st.bufN st.bufN (st.nextOff - chunkOff) with
      | some b =>
        return (some (entryIno d st.buf b, storedName st.buf (b + 2) d.maxNamlen),
          { st with nextOff := chunkOff + b + d.direntSize })
      | none => v7fsDirIter fuel { st with nextOff := chunkOff + chunk }

/-! ## 2.11BSD entries -/

/-- A record: offset, inode, record length, name length. -/
structure BsdRec where
  off : Nat
  ino : Nat
  reclen : Nat
  namlen : Nat
  deriving DecidableEq

/-- `bsd211_iter_next` at offset `off`: a legal record, or the end of the walk. -/
def bsd211Next (d : Desc) (buf : Buf) (n off : Nat) : Option BsdRec :=
  if off % 4 ≠ 0 ∨ n < off + 6 then none
  else
    let reclen := d.bo.get16 buf (off + 2)
    let namlen := d.bo.get16 buf (off + 4)
    if reclen < 8 ∨ reclen % 4 ≠ 0 ∨ n < off + reclen then none
    else if reclen < namlen + 7 ∨ d.maxNamlen < namlen then none
    else if 512 < off % 512 + reclen then none
    else some ⟨off, d.bo.get16 buf off, reclen, namlen⟩

def bytesAt (b : Buf) (o n : Nat) : List UInt8 := (List.range n).map fun i => b (o + i)

/-- The first record from `off` on that satisfies `p`. -/
def bsd211Find (d : Desc) (buf : Buf) (n : Nat) (p : BsdRec → Bool) : Nat → Nat → Option BsdRec
  | 0, _ => none
  | fuel + 1, off =>
    match bsd211Next d buf n off with
    | none => none
    | some r => if p r then some r else bsd211Find d buf n p fuel (off + r.reclen)

/-- The last valid record. -/
def bsd211Last (d : Desc) (buf : Buf) (n : Nat) : Nat → Nat → Option BsdRec → Option BsdRec
  | 0, _, last => last
  | fuel + 1, off, last =>
    match bsd211Next d buf n off with
    | none => last
    | some r => bsd211Last d buf n fuel (off + r.reclen) (some r)

/-- `bsd211_slurp`. -/
def bsd211Slurp : MI (Nat × Buf) := do
  let ip ← getIp
  filsysFileRead ip.size 0

def bsd211Named (buf : Buf) (name : Name) (r : BsdRec) : Bool :=
  r.ino != 0 && r.namlen == name.length && bytesAt buf (r.off + 6) r.namlen == name

def bsd211DirLookup (name : Name) : MI Nat := do
  let d := (← up getFs).desc
  let (n, buf) ← bsd211Slurp
  match bsd211Find d buf n (bsd211Named buf name) (n + 1) 0 with
  | some r => return r.ino
  | none => throw .enoent

/-- `bsd211_dirsiz`. -/
def bsd211Dirsiz (namlen : Nat) : Nat := (7 + namlen + 3) / 4 * 4

def bsd211Entry (d : Desc) (buf : Buf) (o ino reclen : Nat) (name : Name) : Buf :=
  poke (d.bo.put16 (d.bo.put16 (d.bo.put16 buf o ino) (o + 2) reclen) (o + 4) name.length) (o + 6) name

def bsd211DirAdd (ino : Nat) (name : Name) : MI Unit := do
  let d := (← up getFs).desc
  if name = [] ∨ d.maxNamlen < name.length then throw .enametoolong
  else if slash ∈ name then throw .einval
  else
    let need := bsd211Dirsiz name.length
    let (n, buf) ← bsd211Slurp
    match bsd211Find d buf n (fun r => r.ino == 0 && decide (need ≤ r.reclen)) (n + 1) 0 with
    | some r =>
      -- reuse a free record, the whole directory rewritten
      let _ ← filsysFileWrite (bsd211Entry d (splice buf r.off zeroBuf 0 r.reclen) r.off ino r.reclen name) n 0
    | none =>
      let last := bsd211Last d buf n (n + 1) 0 none
      let prevOff := match last with | some r => r.off | none => 0
      let tail := match last with | some r => r.off + r.reclen | none => 0
      if tail % 4 ≠ 0 then throw .eio
      else
        let inChunk := tail % 512
        if inChunk ≠ 0 ∧ 512 < inChunk + need then
          -- pad the previous record out to the chunk edge
          let slot := tail + (512 - inChunk)
          let _ ← failAs .eio (filsysFileWrite (d.bo.put16 zeroBuf 0 (slot - prevOff)) 2 (prevOff + 2 : Nat))
          let _ ← filsysFileWrite (bsd211Entry d zeroBuf 0 ino need name) need slot
        else
          let _ ← filsysFileWrite (bsd211Entry d zeroBuf 0 ino need name) need tail

def bsd211DirRemove (name : Name) : MI Unit := do
  let d := (← up getFs).desc
  let (n, buf) ← bsd211Slurp
  match bsd211Find d buf n (bsd211Named buf name) (n + 1) 0 with
  | some r =>
    let _ ← filsysFileWrite (d.bo.put16 buf r.off 0) n 0
  | none => throw .enoent

/-- The records of one 512-byte chunk from `rel`: `none` ends the whole walk, `some none`
    the chunk. -/
def bsd211Chunk (d : Desc) (buf : Buf) (n : Nat) : Nat → Nat → Option (Option BsdRec)
  | 0, _ => some none
  | fuel + 1, rel =>
    if rel + 6 ≤ n then
      let reclen := d.bo.get16 buf (rel + 2)
      let nlen := d.bo.get16 buf (rel + 4)
      if reclen < 8 ∨ reclen % 4 ≠ 0 ∨ n < rel + reclen then none
      else if reclen < nlen + 7 ∨ d.maxNamlen < nlen then none
      else if d.bo.get16 buf rel ≠ 0 then some (some ⟨rel, d.bo.get16 buf rel, reclen, nlen⟩)
      else bsd211Chunk d buf n fuel (rel + reclen)
    else some none

def bsd211DirIter : Nat → Iter → MI (Option Dirent × Iter)
  | 0, _ => throw .diverges
  | fuel + 1, st => do
    let d := (← up getFs).desc
    let ip ← getIp
    if ip.size ≤ st.nextOff then return (none, st)
    else
      let chunkOff := st.nextOff / 512 * 512
      let st ← iterLoad 512 chunkOff st
      match bsd211Chunk d st.buf st.bufN (st.bufN + 1) (st.nextOff - chunkOff) with
      | none => return (none, st)
      | some (some r) =>
        return (some (r.ino, bytesAt st.buf (r.off + 6) r.namlen),
          { st with nextOff := chunkOff + r.off + r.reclen })
      | some none => bsd211DirIter fuel { st with nextOff := chunkOff + 512 }

/-! ## PDP-7 entries -/

/-- `unpack_name`: eight characters, trailing spaces cut, to the first NUL. -/
def unpackName (w : Nat → Nat) : Name :=
  let chars := (List.range 8).map fun i => UInt8.ofNat (if i % 2 = 0 then w (i / 2) / 512 % 128
    else w (i / 2) % 128)
  (chars.reverse.dropWhile (· == 32)).reverse.takeWhile (· ≠ 0)

/-- The `w`-th name word: two characters, space-padded to eight. -/
def packName (name : Name) (w : Nat) : Nat :=
  (name.getD (2 * w) 32).toNat % 128 * 512 + (name.getD (2 * w + 1) 32).toNat % 128

/-- The four name words of the entry at word `base`. -/
def p7NameAt (base : Nat) : MI Name := do
  let w0 ← failAs .eio (inodeReadWord (base + 1))
  let w1 ← failAs .eio (inodeReadWord (base + 2))
  let w2 ← failAs .eio (inodeReadWord (base + 3))
  let w3 ← failAs .eio (inodeReadWord (base + 4))
  return unpackName fun i => if i = 0 then w0 else if i = 1 then w1 else if i = 2 then w2 else w3

/-- The first live entry from entry `e` on whose name satisfies `p`. -/
def p7Find (p : Name → Bool) : Nat → Nat → MI (Option (Nat × Dirent))
  | 0, _ => return none
  | todo + 1, e => do
    let dino ← failAs .eio (inodeReadWord (e * 8))
    if dino = 0 then p7Find p todo (e + 1)
    else
      let name ← p7NameAt (e * 8)
      if p name then return some (e, dino, name) else p7Find p todo (e + 1)

def dot : Name := [46]
def dotdot : Name := [46, 46]

def p7fsDirLookup (name : Name) : MI Nat := do
  let ip ← getIp
  if name = dot then return ip.ino
  else if name = dotdot then return 4
  else
    match ← p7Find (· == name) (ip.size / 2 / 8) 0 with
    | some (_, dino, _) => return dino
    | none => throw .enoent

/-- The first entry whose inode word is zero. -/
def p7FreeSlot : Nat → Nat → MI (Option Nat)
  | 0, _ => return none
  | todo + 1, e => do
    let dino ← failAs .eio (inodeReadWord (e * 8))
    if dino = 0 then return some e else p7FreeSlot todo (e + 1)

def p7fsDirAdd (ino : Nat) (name : Name) : MI Unit := do
  let fs ← up getFs
  if name = [] ∨ 8 < name.length then throw .enametoolong
  else if slash ∈ name then throw .einval
  else if fs.readonly then throw .erofs
  else
    let ip ← getIp
    let nwords := ip.size / 2
    let found ← p7FreeSlot (nwords / 8) 0
    let slot := found.getD (nwords / 8) * 8
    failAs .eio (inodeWriteWord slot ino)
    failAs .eio (inodeWriteWord (slot + 1) (packName name 0))
    failAs .eio (inodeWriteWord (slot + 2) (packName name 1))
    failAs .eio (inodeWriteWord (slot + 3) (packName name 2))
    failAs .eio (inodeWriteWord (slot + 4) (packName name 3))
    failAs .eio (inodeWriteWord (slot + 5) (word18 ino))
    modIp fun ip => { ip with size := (if found.isSome then nwords else nwords + 8) * 2 }
    let ip ← getIp
    up (p7fsWriteInode ip.ino ip)

def p7fsDirRemove (name : Name) : MI Unit := do
  let fs ← up getFs
  if fs.readonly then throw .erofs
  else
    let ip ← getIp
    match ← p7Find (· == name) (ip.size / 2 / 8) 0 with
    | some (e, _, _) => inodeWriteWord (e * 8) 0
    | none => throw .enoent

/-- The synthesized `.` and `..` come first, then the stored entries of other names. -/
def p7fsDirIter (st : Iter) : MI (Option Dirent × Iter) := do
  let ip ← getIp
  if st.nextOff = 0 then return (some (ip.ino, dot), { st with nextOff := 1 })
  else if st.nextOff = 1 then return (some (4, dotdot), { st with nextOff := 2 })
  else
    let e := st.nextOff - 2
    match ← p7Find (fun name => name != dot && name != dotdot) (ip.size / 2 / 8 - e) e with
    | some (e, ent) => return (some ent, { st with nextOff := e + 1 + 2 })
    | none => return (none, st)

/-! ## Dispatch -/

def dirLookup (name : Name) : MI Nat := do
  let fs ← up getFs
  match fs.desc.ops with
  | .bsd211 => bsd211DirLookup name
  | .pdp7 => p7fsDirLookup name
  | _ => v7fsDirLookup name

def dirAdd (ino : Nat) (name : Name) : MI Unit := do
  let fs ← up getFs
  match fs.desc.ops with
  | .bsd211 => bsd211DirAdd ino name
  | .pdp7 => p7fsDirAdd ino name
  | _ => v7fsDirAdd ino name

def dirRemove (name : Name) : MI Unit := do
  let fs ← up getFs
  match fs.desc.ops with
  | .bsd211 => bsd211DirRemove name
  | .pdp7 => p7fsDirRemove name
  | _ => v7fsDirRemove name

def dirIter (st : Iter) : MI (Option Dirent × Iter) := do
  let fs ← up getFs
  let ip ← getIp
  match fs.desc.ops with
  | .bsd211 => bsd211DirIter (ip.size + 1) st
  | .pdp7 => p7fsDirIter st
  | _ => v7fsDirIter (ip.size + 1) st

end Filsys.Engine
