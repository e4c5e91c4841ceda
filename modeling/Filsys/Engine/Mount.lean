/-
  Filsys.Engine.Mount — the state of a mount and block I/O (filsys_common.h, v7fs.c,
  v1fs.c, pdp7fs.c).

  `Fs` is `filsys_edition_t`: the in-core superblock, allocator state and the
  descriptor. `Mnt` adds the image the mount is on and what surrounds it: which
  transfers fail (`fails`, by transfer number), what the clock says, and what another
  process does to the image between two transfers (`peer`). A write leaves an `Event`
  behind, so the image after any prefix of a run's writes can be spoken of; nothing in
  the code reads the trace, and the `Site` a write carries says which routine issued
  it.

  Allocation of memory always succeeds, and image offsets stay below 2^63.
-/

import Filsys.Engine.Desc
import Filsys.Lib.Outcome

namespace Filsys.Engine

open Filsys.Lib

/-- The negative return codes. Two are none: `diverges`, the call does not return, and `overrun`, it
    uses an array outside its bounds. -/
inductive Errno
  | eio | einval | enospc | erofs | enoent | eexist | enotdir | eisdir | enotempty | efbig | enametoolong
  | ebusy | enosys | eperm | eloop | e2big | eilseq | enfile | diverges | overrun
  deriving DecidableEq, Repr

/-- `filsys_edition_t`. -/
structure Fs where
  desc : Desc
  readonly : Bool := false
  base : Nat := 0
  imgsize : Nat := 0
  isize : Nat := 0
  fsize : Nat := 0
  /-- Inode slots (V1). -/
  maxino : Nat := 0
  /-- PDP-7 free-list head. -/
  freelist : Nat := 0
  nfree : Nat := 0
  free : Nat → Nat := fun _ => 0
  ninode : Nat := 0
  inode : Nat → Nat := fun _ => 0
  tfree : Nat := 0
  tinode : Nat := 0
  /-- V1's two bit maps. -/
  freemapBytes : Nat := 0
  freemap : Buf := zeroBuf
  inodemapBytes : Nat := 0
  inodemap : Buf := zeroBuf
  m : Nat := 0
  n : Nat := 0
  unique : Nat := 0
  fmod : Nat := 0
  /-- The allocator holds allocations the superblock on disk does not have yet. -/
  flDirty : Bool := false
  v8Bits : Buf := zeroBuf
  v8Nbits : Nat := 0
  v8Base : Nat := 0
  v8Nblks : Nat := 0
  v8BlkStart : Nat := 0

/-- Which routine issued a write. -/
inductive Site
  | block | dump | super | bitmap | inode (ip : Inode)

structure Event where
  site : Site
  /-- In-core state when the write was issued. -/
  fs : Fs
  off : Nat
  len : Nat
  before : Buf
  after : Buf

structure Env where
  fails : Nat → Bool := fun _ => false
  clock : Nat → Nat := fun _ => 0
  peer : Nat → Buf → Buf := fun _ img => img
  /-- What `open(2)` on the image reports, when it fails. -/
  openErr : Option Errno := none
  /-- Another open file description holds the extent's write lock. -/
  locked : Bool := false
  /-- Rounds a loop without a bound of its own may take. -/
  fuel : Nat := 1

structure Mnt where
  fs : Fs
  img : Buf
  /-- Length of the backing file. -/
  size : Nat
  env : Env := {}
  ios : Nat := 0
  ticks : Nat := 0
  /-- The writes so far, newest first. -/
  trace : List Event := []
  edition : Edition := .v7
  uid : Nat := 0
  gid : Nat := 0

abbrev M (α : Type) := EStateM Errno Mnt α

/-- What a call gets by pointer: a decoded inode and a block list (`filsys_blklist_t`). -/
structure Loc where
  ip : Inode
  bl : List Nat := []

abbrev MI (α : Type) := EStateM Errno (Mnt × Loc) α

def getFs : M Fs := fun s => .ok s.fs s
def modFs (f : Fs → Fs) : M Unit := fun s => .ok () { s with fs := f s.fs }
def getIp : MI Inode := fun s => .ok s.2.ip s
def modIp (f : Inode → Inode) : MI Unit := fun s => .ok () (s.1, { s.2 with ip := f s.2.ip })
def pushBl (b : Nat) : MI Unit := fun s => .ok () (s.1, { s.2 with bl := s.2.bl ++ [b] })

/-- Run `x` on the mount alone. -/
def up {α : Type} (x : M α) : MI α := outside x

theorem bindFs_run {α : Type} (f : Fs → M α) (s : Mnt) : (getFs >>= f) s = f s.fs s := rfl

theorem bindUpFs_run {α : Type} (f : Fs → MI α) (s : Mnt) (l : Loc) :
    (up getFs >>= f) (s, l) = f s.fs (s, l) := rfl

theorem bindIp_run {α : Type} (f : Inode → MI α) (s : Mnt) (l : Loc) :
    (getIp >>= f) (s, l) = f l.ip (s, l) := rfl

/-- `time(NULL)`, as a `uint32_t`. -/
def timeNow : M Nat := fun s => .ok (s.env.clock s.ticks % 2 ^ 32) { s with ticks := s.ticks + 1 }

/-! ## Transport -/

/-- `fs->io->read`: a full transfer or `-EIO`. -/
def ioRead (n off : Nat) : M Buf := fun s =>
  let img := s.env.peer s.ios s.img
  let s' := { s with img := img, ios := s.ios + 1 }
  if s.env.fails s.ios || s.size < off + n then .error .eio s' else .ok (window img off n) s'

/-- `fs->io->write`. -/
def ioWrite (site : Site) (buf : Buf) (n off : Nat) : M Unit := fun s =>
  let img := s.env.peer s.ios s.img
  let s' := { s with img := img, ios := s.ios + 1 }
  if s.env.fails s.ios then .error .eio s'
  else
    let img' := splice img off buf 0 n
    .ok () { s' with
      img := img'
      size := max s.size (off + n)
      trace := ⟨site, s.fs, off, n, img, img'⟩ :: s.trace }

/-- `filsys_check_range`. -/
def checkRange (fs : Fs) (off n : Nat) : Bool :=
  fs.imgsize == 0 || (off ≤ fs.imgsize && n ≤ fs.imgsize - off)

/-! ## Block I/O -/

def v7fsReadBlock (bno : Nat) : M Buf := do
  let fs ← getFs
  let off := fs.base + bno * fs.desc.bsize
  if checkRange fs off fs.desc.bsize then ioRead fs.desc.bsize off else throw .einval

def v7fsWriteBlock (site : Site) (bno : Nat) (buf : Buf) : M Unit := do
  let fs ← getFs
  if fs.readonly then throw .erofs
  else
    let off := fs.base + bno * fs.desc.bsize
    if checkRange fs off fs.desc.bsize then ioWrite site buf fs.desc.bsize off else throw .einval

def v1fsReadBlock (bno : Nat) : M Buf := do
  let fs ← getFs
  let off := fs.base + bno * 512
  if checkRange fs off 512 then ioRead 512 off else throw .einval

def v1fsWriteBlock (site : Site) (bno : Nat) (buf : Buf) : M Unit := do
  let fs ← getFs
  if fs.readonly then throw .erofs
  else
    let off := fs.base + bno * 512
    if checkRange fs off 512 then ioWrite site buf 512 off else throw .einval

/-! ## PDP-7 words -/

/-- `P7_MAXWORD`: the low 18 bits. -/
def word18 (v : Nat) : Nat := v % 2 ^ 18

namespace WordCodec

def get : WordCodec → Buf → Nat → Nat
  | rb09, b, i => word18 (boGet32le b (4 * i))
  | packed18, b, i => boGet18packed b i
  | rim, b, i => (b (3 * i)).toNat % 64 * 4096 + (b (3 * i + 1)).toNat % 64 * 64 + (b (3 * i + 2)).toNat % 64

def put : WordCodec → Buf → Nat → Nat → Buf
  | rb09, b, i, v => boPut32le b (4 * i) (word18 v)
  | packed18, b, i, v => boPut18packed b i v
  | rim, b, i, v => poke b (3 * i)
      [UInt8.ofNat (v / 4096 % 64), UInt8.ofNat (v / 64 % 64), UInt8.ofNat (v % 64)]

def blockBytes : WordCodec → Nat
  | rb09 => 256 | packed18 => 144 | rim => 192

/-- The 64 words of a block, each put in turn. -/
def putAll (c : WordCodec) (words : Nat → Nat) : Nat → Buf → Buf
  | 0, b => b
  | n + 1, b => c.put (putAll c words n b) n (words n)

end WordCodec

/-- The mount's word codec; only the PDP-7 descriptor has one. -/
def wordOps (d : Desc) : WordCodec := d.word.getD .rb09

def readWords (bno : Nat) : M (Nat → Nat) := do
  let fs ← getFs
  let wc := wordOps fs.desc
  let pos := fs.base + bno * wc.blockBytes
  if checkRange fs pos wc.blockBytes then
    let raw ← failAs .eio (ioRead wc.blockBytes pos)
    return fun i => wc.get raw i
  else throw .einval

def writeWords (site : Site) (bno : Nat) (words : Nat → Nat) : M Unit := do
  let fs ← getFs
  let wc := wordOps fs.desc
  let pos := fs.base + bno * wc.blockBytes
  if checkRange fs pos wc.blockBytes then
    failAs .eio (ioWrite site (wc.putAll words 64 zeroBuf) wc.blockBytes pos)
  else throw .einval

def p7fsReadBlock (bno : Nat) : M Buf := do
  let fs ← getFs
  let words ← failAs .eio (readWords bno)
  return (wordOps fs.desc).putAll words 64 zeroBuf

def p7fsWriteBlock (site : Site) (bno : Nat) (buf : Buf) : M Unit := do
  let fs ← getFs
  if fs.readonly then throw .erofs
  else writeWords site bno fun i => (wordOps fs.desc).get buf i

/-- `p7fs_blk_get`: two 7-bit characters per word. -/
def p7fsBlkGet (bno : Nat) : M Buf := do
  let words ← failAs .eio (readWords bno)
  return fun i => UInt8.ofNat (if i % 2 = 0 then words (i / 2) / 512 % 128 else words (i / 2) % 128)

def p7fsBlkPut (bno : Nat) (buf : Buf) : M Unit := do
  let fs ← getFs
  if fs.readonly then throw .erofs
  else writeWords .block bno fun i => (buf (2 * i)).toNat % 128 * 512 + (buf (2 * i + 1)).toNat % 128

/-! ## Dispatch -/

/-- `ops->read_block`. -/
def readBlock (bno : Nat) : M Buf := do
  let fs ← getFs
  match fs.desc.ops with
  | .v1 => v1fsReadBlock bno
  | .pdp7 => p7fsReadBlock bno
  | _ => v7fsReadBlock bno

/-- `ops->write_block`. -/
def writeBlock (bno : Nat) (buf : Buf) : M Unit := do
  let fs ← getFs
  match fs.desc.ops with
  | .v1 => v1fsWriteBlock .block bno buf
  | .pdp7 => p7fsWriteBlock .block bno buf
  | _ => v7fsWriteBlock .block bno buf

/-- `ops->blk_get`. -/
def blkGet (bno : Nat) : M Buf := do
  let fs ← getFs
  match fs.desc.ops with
  | .v1 => v1fsReadBlock bno
  | .pdp7 => p7fsBlkGet bno
  | _ => v7fsReadBlock bno

/-- `ops->blk_put`. -/
def blkPut (bno : Nat) (buf : Buf) : M Unit := do
  let fs ← getFs
  match fs.desc.ops with
  | .v1 => v1fsWriteBlock .block bno buf
  | .pdp7 => p7fsBlkPut bno buf
  | _ => v7fsWriteBlock .block bno buf

/-! ## Geometry -/

def v7Inopb (fs : Fs) : Nat := fs.desc.bsize / fs.desc.inodeSize
def v7Itod (fs : Fs) (ino : Nat) : Nat := 2 + (ino - 1) / v7Inopb fs
def v7Itoo (fs : Fs) (ino : Nat) : Nat := (ino - 1) % v7Inopb fs
def v7DataFirst (fs : Fs) : Nat := fs.isize + (if fs.desc.isizeCount then 2 else 0)
/-- The difference is taken in 32 bits: below an `isize` of 2 it wraps. -/
def v7Maxinode (fs : Fs) : Nat :=
  (2 ^ 32 + fs.isize - (if fs.desc.isizeCount then 0 else 2)) % 2 ^ 32 * v7Inopb fs % 2 ^ 32
def v6DataStart (isize : Nat) : Nat := isize + 2
def v1Itod (ino : Nat) : Nat := (ino + 31) / 16
def v1Itoo (ino : Nat) : Nat := (ino + 31) % 16
def v1DataStart (maxino : Nat) : Nat := (maxino + 31) / 16 + 1
def p7Itod (ino : Nat) : Nat := 2 + ino / 5
def p7Itoo (ino : Nat) : Nat := 12 * (ino % 5)
/-- `P7_MAXINO`, `P7_DATASTART`, `P7_KDATA`, `P7_NBLOCKS`. -/
def p7Maxino : Nat := 3549
def p7Datastart : Nat := 712
def p7Kdata : Nat := 6400
def p7Nblocks : Nat := 8000

/-- `ops->maxino`. -/
def opsMaxino (fs : Fs) : Nat :=
  match fs.desc.ops with
  | .v1 => fs.maxino
  | .pdp7 => p7Maxino
  | _ => v7Maxinode fs

/-- `ops->data_start`. -/
def opsDataStart (fs : Fs) : Nat :=
  match fs.desc.ops with
  | .v1 => v1DataStart fs.maxino
  | .pdp7 => p7Datastart
  | _ => v7DataFirst fs

/-- `ops->data_end`: a bigmap volume's bitmap blocks sit past it. -/
def opsDataEnd (fs : Fs) : Nat :=
  match fs.desc.ops with
  | .v1 => fs.fsize
  | .pdp7 => p7Kdata
  | _ => fs.fsize - fs.v8Nblks

end Filsys.Engine
