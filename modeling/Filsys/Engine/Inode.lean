/-
  Filsys.Engine.Inode — the inode codecs and inode allocation (v7fs.c, v1fs.c,
  pdp7fs.c, alloc_freelist.c).

  Every backend decodes its own record into `Inode`. Before an inode goes out, an
  allocator with unflushed allocations is flushed, so that the new reference cannot
  reach the disk ahead of the allocation (`flushIfDirty`); V7 and V6 flush through
  `v7fs_super_write`, whatever form the free map has.
-/

import Filsys.Engine.Blocks

namespace Filsys.Engine

open Filsys.Lib

/-! ## V7, V6 and V1 records -/

/-- `(uint16_t)v` and `(uint8_t)v` of a signed field. -/
def u16 (v : Int) : Nat := (v % 65536).toNat
def u8 (v : Int) : UInt8 := UInt8.ofNat (v % 256).toNat

/-- The bytes of one `di_addr` entry. -/
def addrSig (d : Desc) : List Nat := if d.addrWidth = 4 then d.bo.sig32 else d.bo.sig24

def v7DecodeInode (d : Desc) (ino : Nat) (raw : Buf) (o : Nat) : Inode where
  ino := ino
  mode := d.bo.get16 raw o
  nlink := toInt16 (d.bo.get16 raw (o + 2))
  uid := toInt16 (d.bo.get16 raw (o + 4))
  gid := toInt16 (d.bo.get16 raw (o + 6))
  size := d.bo.get32 raw (o + 8)
  addr := fun i => if i < d.niaddr then num (addrSig d) raw (o + 12 + (addrSig d).length * i) else 0
  atime := d.bo.get32 raw (o + 52)
  mtime := d.bo.get32 raw (o + 56)
  ctime := d.bo.get32 raw (o + 60)

def v7EncodeInode (d : Desc) (ip : Inode) (raw : Buf) (o : Nat) : Buf :=
  let raw := d.bo.put16 raw o ip.mode
  let raw := d.bo.put16 raw (o + 2) (u16 ip.nlink)
  let raw := d.bo.put16 raw (o + 4) (u16 ip.uid)
  let raw := d.bo.put16 raw (o + 6) (u16 ip.gid)
  let raw := d.bo.put32 raw (o + 8) ip.size
  let raw := putTable (addrSig d) (o + 12) (addrSig d).length ip.addr d.niaddr raw
  let raw := d.bo.put32 raw (o + 52) ip.atime
  let raw := d.bo.put32 raw (o + 56) ip.mtime
  d.bo.put32 raw (o + 60) ip.ctime

def v6DecodeInode (d : Desc) (ino : Nat) (raw : Buf) (o : Nat) : Inode where
  ino := ino
  mode := d.bo.get16 raw o
  nlink := (raw (o + 2)).toNat
  uid := (raw (o + 3)).toNat
  gid := (raw (o + 4)).toNat
  size := (raw (o + 5)).toNat * 65536 + d.bo.get16 raw (o + 6)
  addr := fun i => if i < d.niaddr then d.bo.get16 raw (o + 8 + 2 * i) else 0
  atime := d.bo.get32 raw (o + 24)
  mtime := d.bo.get32 raw (o + 28)
  ctime := d.bo.get32 raw (o + 28)

def v6EncodeInode (d : Desc) (ip : Inode) (raw : Buf) (o : Nat) : Buf :=
  let raw := d.bo.put16 raw o ip.mode
  let raw := poke raw (o + 2) [u8 ip.nlink, u8 ip.uid, u8 ip.gid, UInt8.ofNat (ip.size / 65536)]
  let raw := d.bo.put16 raw (o + 6) ip.size
  let raw := putTable d.bo.sig16 (o + 8) 2 ip.addr d.niaddr raw
  let raw := d.bo.put32 raw (o + 24) ip.atime
  d.bo.put32 raw (o + 28) ip.mtime

def v1DecodeInode (ino : Nat) (raw : Buf) (o : Nat) : Inode where
  ino := ino
  mode := boGet16le raw o
  nlink := (raw (o + 2)).toNat
  uid := (raw (o + 3)).toNat
  size := boGet16le raw (o + 4)
  addr := fun i => if i < 8 then boGet16le raw (o + 6 + 2 * i) else 0
  -- 60ths of a second
  ctime := boGet32me raw (o + 22) / 60
  mtime := boGet32me raw (o + 26) / 60
  atime := boGet32me raw (o + 26) / 60

def v1EncodeInode (ip : Inode) (raw : Buf) (o : Nat) : Buf :=
  let raw := boPut16le raw o ip.mode
  let raw := poke raw (o + 2) [u8 ip.nlink, u8 ip.uid]
  let raw := boPut16le raw (o + 4) ip.size
  let raw := putTable ByteOrder.le.sig16 (o + 6) 2 ip.addr 8 raw
  let raw := boPut32me raw (o + 22) (ip.ctime * 60)
  boPut32me raw (o + 26) (ip.mtime * 60)

/-- One past the last i-list block. -/
def ilistEnd (fs : Fs) : Nat := if fs.desc.isizeCount then v6DataStart fs.isize else fs.isize

def decodeInode (d : Desc) (ino : Nat) (raw : Buf) (o : Nat) : Inode :=
  if d.ops = .v6 then v6DecodeInode d ino raw o else v7DecodeInode d ino raw o

def encodeInode (d : Desc) (ip : Inode) (raw : Buf) (o : Nat) : Buf :=
  if d.ops = .v6 then v6EncodeInode d ip raw o else v7EncodeInode d ip raw o

/-- `v7fs_read_inode`, and `v6_read_inode` with V6's record. -/
def v7fsReadInode (ino : Nat) : M Inode := do
  let fs ← getFs
  if ino = 0 then throw .einval
  else if ilistEnd fs ≤ v7Itod fs ino then throw .einval
  else
    let raw ← failAs .eio (v7fsReadBlock (v7Itod fs ino))
    return decodeInode fs.desc ino raw (v7Itoo fs ino * fs.desc.inodeSize)

/-- Allocator state before reference. -/
def flushIfDirty (flush : M Unit) : M Unit := do
  let fs ← getFs
  if fs.flDirty then flush else return ()

/-- `v7fs_write_inode`, and `v6_write_inode` with V6's record. -/
def v7fsWriteInode (ino : Nat) (ip : Inode) : M Unit := do
  let fs ← getFs
  if ino = 0 then throw .einval
  else
    flushIfDirty v7fsSuperWrite
    if ilistEnd fs ≤ v7Itod fs ino then throw .einval
    else
      let raw ← failAs .eio (v7fsReadBlock (v7Itod fs ino))
      v7fsWriteBlock (.inode ip) (v7Itod fs ino)
        (encodeInode fs.desc ip raw (v7Itoo fs ino * fs.desc.inodeSize))

def v1fsReadInode (ino : Nat) : M Inode := do
  let fs ← getFs
  if ino = 0 ∨ fs.maxino < ino then throw .einval
  else
    let raw ← failAs .eio (v1fsReadBlock (v1Itod ino))
    return v1DecodeInode ino raw (v1Itoo ino * 32)

def v1fsWriteInode (ino : Nat) (ip : Inode) : M Unit := do
  let fs ← getFs
  if ino = 0 ∨ fs.maxino < ino then throw .einval
  else
    flushIfDirty v1SuperWrite
    let raw ← failAs .eio (v1fsReadBlock (v1Itod ino))
    v1fsWriteBlock (.inode ip) (v1Itod ino) (v1EncodeInode ip raw (v1Itoo ino * 32))

/-! ## PDP-7 records -/

/-- `sign18`. -/
def sign18 (v : Nat) : Int := if word18 v < 2 ^ 17 then word18 v else (word18 v : Int) - 2 ^ 18

/-- `inode_read_word`. -/
def inodeReadWord (woff : Nat) : MI Nat := do
  let pbn ← failAs .eio (filsysBmap (woff / 64) false)
  if pbn = 0 then return 0
  else
    let words ← up (failAs .eio (readWords pbn))
    return words (woff % 64)

/-- `inode_write_word`. -/
def inodeWriteWord (woff val : Nat) : MI Unit := do
  let pbn ← failAs .eio (filsysBmap (woff / 64) true)
  if pbn = 0 then throw .eio
  else
    let words ← up (failAs .eio (readWords pbn))
    up (writeWords .block pbn fun i => if i = woff % 64 then val else words i)

def p7DecodeInode (ino : Nat) (d : Nat → Nat) : Inode where
  ino := ino
  mode := d 0
  nlink := toInt16 (- sign18 (d 9))
  uid := toInt16 (sign18 (d 8))
  size := d 10 * 2
  addr := fun i => if i < 7 then d (1 + i) else 0

def p7fsReadInode (ino : Nat) : M Inode := do
  if ino = 0 ∨ p7Maxino < ino then throw .einval
  else
    let words ← failAs .eio (readWords (p7Itod ino))
    let ip := p7DecodeInode ino fun i => words (p7Itoo ino + i)
    -- an odd-length file has a zero low half in its last word
    if !has ip.mode 0o60 ∧ 0 < ip.size then
      match ← inside ⟨ip, []⟩ (inodeReadWord (ip.size / 2 - 1)) with
      | (.ok lastw, _) => return if lastw % 512 = 0 then { ip with size := ip.size - 1 } else ip
      | (.error _, _) => return ip
    else return ip

/-- The twelve words `p7fs_write_inode` puts at `o`; the unique word stays. -/
def p7EncodeInode (ip : Inode) (words : Nat → Nat) (o : Nat) (i : Nat) : Nat :=
  if i = o then word18 ip.mode
  else if o < i ∧ i ≤ o + 7 then word18 (ip.addr (i - o - 1))
  else if i = o + 8 then word18 (u16 ip.uid)
  else if i = o + 9 then ((- ip.nlink) % 2 ^ 18).toNat
  else if i = o + 10 then word18 ((ip.size + 1) / 2)
  else words i

def p7fsWriteInode (ino : Nat) (ip : Inode) : M Unit := do
  let fs ← getFs
  if ino = 0 ∨ p7Maxino < ino then throw .einval
  else if fs.readonly then throw .erofs
  else
    flushIfDirty p7SuperWrite
    let words ← failAs .eio (readWords (p7Itod ino))
    writeWords (.inode ip) (p7Itod ino) (p7EncodeInode ip words (p7Itoo ino))

/-! ## Dispatch -/

def readInode (ino : Nat) : M Inode := do
  let fs ← getFs
  match fs.desc.ops with
  | .v1 => v1fsReadInode ino
  | .pdp7 => p7fsReadInode ino
  | _ => v7fsReadInode ino

def writeInode (ino : Nat) (ip : Inode) : M Unit := do
  let fs ← getFs
  match fs.desc.ops with
  | .v1 => v1fsWriteInode ino ip
  | .pdp7 => p7fsWriteInode ino ip
  | _ => v7fsWriteInode ino ip

/-! ## Inode allocation -/

/-- Refill the free-inode cache from inodes `ino, ino + 1, …` (`todo` of them). -/
def refill : Nat → Nat → M Unit
  | 0, _ => return ()
  | todo + 1, ino => do
    let fs ← getFs
    if fs.ninode < fs.desc.nicinod then
      let ip ← failAs .eio (readInode ino)
      onlyIf (!inodeLive fs.desc (ip.mode % 65536)) <|
        modFs fun fs => { fs with
          inode := fun i => if i = fs.ninode then ino % 65536 else fs.inode i
          ninode := fs.ninode + 1 }
      refill todo (ino + 1)
    else return ()

/-- One turn of `v7fs_ialloc`'s loop: an inode, or go round again. -/
def iallocTurn : M (Option Nat) := do
  let fs ← getFs
  if 0 < fs.ninode then
    let cand := fs.inode (fs.ninode - 1)
    modFs fun fs => { fs with ninode := fs.ninode - 1 }
    if cand < 2 ∨ v7Maxinode fs < cand then return none
    else
      let ip ← failAs .eio (readInode cand)
      if inodeLive fs.desc (ip.mode % 65536) then return none
      else
        let _ ← attempt (writeInode cand { ino := cand })
        modFs fun fs => { fs with tinode := fs.tinode - 1, flDirty := true }
        return some cand
  else
    modFs fun fs => { fs with ninode := 0 }
    refill (v7Maxinode fs - 1) 2
    let fs ← getFs
    if fs.ninode = 0 then throw .enospc else return none

/-- The loop has no bound of its own: a volume of more than 65536 inodes can make it
    refill and reject the same truncated numbers for ever. -/
def v7fsIallocLoop : Nat → M Nat
  | 0 => throw .diverges
  | fuel + 1 => do
    match ← iallocTurn with
    | some ino => return ino
    | none => v7fsIallocLoop fuel

def v7fsIalloc : M Nat := fun s => v7fsIallocLoop s.env.fuel s

def v7fsIfree (ino : Nat) : M Unit := do
  let fs ← getFs
  if fs.desc.nicinod ≤ fs.ninode then return ()
  else modFs fun fs => { fs with
    inode := fun i => if i = fs.ninode then ino % 65536 else fs.inode i
    ninode := fs.ninode + 1
    tinode := (fs.tinode + 1) % 2 ^ 32 }

/-- The first clear bit at or after `i` among the next `n`. -/
def firstClear (bits : Buf) : Nat → Nat → Option Nat
  | 0, _ => none
  | n + 1, i => if getBit bits i then firstClear bits n (i + 1) else some i

def v1fsIalloc : M Nat := do
  let fs ← getFs
  match firstClear fs.inodemap (fs.maxino + 1 - 41) 0 with
  | none => throw .enospc
  | some bit =>
    modFs fun fs => { fs with
      inodemap := putBit fs.inodemap bit true, tinode := fs.tinode - 1, flDirty := true }
    return bit + 41

def v1fsIfree (ino : Nat) : M Unit := do
  let fs ← getFs
  if ino < 41 ∨ fs.maxino < ino then return ()
  else modFs fun fs => { fs with
    inodemap := putBit fs.inodemap (ino - 41) false, tinode := (fs.tinode + 1) % 2 ^ 32 }

/-- The PDP-7's scan from inode `i` on. -/
def p7fsIallocFrom : Nat → Nat → M Nat
  | 0, _ => throw .enospc
  | todo + 1, i => do
    let words ← failAs .eio (readWords (p7Itod i))
    let o := p7Itoo i
    if has (words o) 0o400000 then p7fsIallocFrom todo (i + 1)
    else
      failAs .eio (writeWords (.inode { ino := i, mode := 0o400000, nlink := 1 }) (p7Itod i) fun k =>
        if k = o then 0o400000
        else if k = o + 9 then 0o777777
        else if k = o + 11 then word18 i
        else if o < k ∧ k < o + 12 then 0
        else words k)
      modFs fun fs => { fs with flDirty := true }
      return i

def p7fsIalloc : M Nat := do
  let fs ← getFs
  if fs.readonly then throw .erofs else p7fsIallocFrom p7Maxino 1

def p7fsIfree (ino : Nat) : M Unit := do
  let fs ← getFs
  if ino = 0 ∨ p7Maxino < ino ∨ fs.readonly then return ()
  else
    match ← attempt (readWords (p7Itod ino)) with
    | .error _ => return ()
    | .ok words =>
      let o := p7Itoo ino
      let _ ← attempt (writeWords (.inode { ino := ino }) (p7Itod ino) fun k =>
        if o ≤ k ∧ k < o + 12 then 0 else words k)
      return ()

/-- `ops->ialloc`. -/
def ialloc : M Nat := do
  let fs ← getFs
  match fs.desc.ops with
  | .v1 => v1fsIalloc
  | .pdp7 => p7fsIalloc
  | _ => v7fsIalloc

/-- `ops->ifree`. -/
def ifree (ino : Nat) : M Unit := do
  let fs ← getFs
  match fs.desc.ops with
  | .v1 => v1fsIfree ino
  | .pdp7 => p7fsIfree ino
  | _ => v7fsIfree ino

end Filsys.Engine
