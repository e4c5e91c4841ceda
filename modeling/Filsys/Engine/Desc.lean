/-
  Filsys.Engine.Desc — byte orders and the format descriptor (byteorder.c,
  filsys_common.h, filsys_format.c).

  Every edition is a row of constants (`filsys_desc_t`) plus a backend vtable. The
  vtables are finite, so the function-pointer slots of the descriptor are the
  enumerations `Ops` (which backend) and `AllocOps` (which allocator), and each call
  through a slot is a match on them. A byte-order table is the significance of each
  byte of a 16-, 24- or 32-bit field.
-/

import Filsys.Lib.Buffer

namespace Filsys.Engine

open Filsys.Lib

/-! ## Byte orders -/

/-- `bo_le`, `bo_be`, `bo_me`. -/
inductive ByteOrder
  | le | be | me
  deriving DecidableEq, Repr

namespace ByteOrder

def sig16 : ByteOrder → List Nat
  | le => [0, 1] | be => [1, 0] | me => [0, 1]

/-- The PDP-11 packs a 24-bit block number as hi, lo, mid. -/
def sig24 : ByteOrder → List Nat
  | le => [0, 1, 2] | be => [2, 1, 0] | me => [2, 0, 1]

/-- The PDP-11 stores the high word first, each word little-endian. -/
def sig32 : ByteOrder → List Nat
  | le => [0, 1, 2, 3] | be => [3, 2, 1, 0] | me => [2, 3, 0, 1]

def get16 (bo : ByteOrder) (b : Buf) (o : Nat) : Nat := num bo.sig16 b o
def get24 (bo : ByteOrder) (b : Buf) (o : Nat) : Nat := num bo.sig24 b o
def get32 (bo : ByteOrder) (b : Buf) (o : Nat) : Nat := num bo.sig32 b o
def put16 (bo : ByteOrder) (b : Buf) (o v : Nat) : Buf := putNum bo.sig16 b o v
def put32 (bo : ByteOrder) (b : Buf) (o v : Nat) : Buf := putNum bo.sig32 b o v

@[simp] theorem length_sig16 (bo : ByteOrder) : bo.sig16.length = 2 := by cases bo <;> rfl
@[simp] theorem length_sig24 (bo : ByteOrder) : bo.sig24.length = 3 := by cases bo <;> rfl
@[simp] theorem length_sig32 (bo : ByteOrder) : bo.sig32.length = 4 := by cases bo <;> rfl

theorem perm_sig16 (bo : ByteOrder) : bo.sig16.Perm (List.range bo.sig16.length) := by cases bo <;> decide
theorem perm_sig24 (bo : ByteOrder) : bo.sig24.Perm (List.range bo.sig24.length) := by cases bo <;> decide
theorem perm_sig32 (bo : ByteOrder) : bo.sig32.Perm (List.range bo.sig32.length) := by cases bo <;> decide

end ByteOrder

def boGet16le (b : Buf) (o : Nat) : Nat := ByteOrder.le.get16 b o
def boPut16le (b : Buf) (o v : Nat) : Buf := ByteOrder.le.put16 b o v
def boGet32le (b : Buf) (o : Nat) : Nat := ByteOrder.le.get32 b o
def boPut32le (b : Buf) (o v : Nat) : Buf := ByteOrder.le.put32 b o v
def boGet32me (b : Buf) (o : Nat) : Nat := ByteOrder.me.get32 b o
def boPut32me (b : Buf) (o v : Nat) : Buf := ByteOrder.me.put32 b o v
def boGet32be (b : Buf) (o : Nat) : Nat := ByteOrder.be.get32 b o

/-- Bit `pos` of the stream, counting each byte from its high bit. -/
def streamBit (pos : Nat) : Nat := 8 * (pos / 8) + (7 - pos % 8)

/-- `bo_get18packed`: the 18 bits from bit `18 * i`, high bit first. -/
def boGet18packed (p : Buf) (i : Nat) : Nat :=
  (List.range 18).foldl (fun v b => v * 2 + (getBit p (streamBit (i * 18 + b))).toNat) 0

def boPut18packed (p : Buf) (i v : Nat) : Buf :=
  (List.range 18).foldl (fun p b => putBit p (streamBit (i * 18 + b)) (v.testBit (17 - b))) p

/-! ## Vtables as enumerations -/

/-- The backend: `v1fs_ops`, `v6fs_ops`, `v7fs_ops`, `bsd211fs_ops`, `p7fs_ops`. -/
inductive Ops
  | v1 | v6 | v7 | bsd211 | pdp7
  deriving DecidableEq, Repr

/-- The allocator: `freelist_alloc_ops`, `v8_bitmap_alloc_ops`, `bitmap_alloc_ops`,
    `pdp7_alloc_ops`. -/
inductive AllocOps
  | freelist | v8bitmap | bitmap | pdp7
  deriving DecidableEq, Repr

inductive Freemap
  | list | bitmap | bigmap
  deriving DecidableEq, Repr

/-- PDP-7 word containers. -/
inductive WordCodec
  | rb09 | packed18 | rim
  deriving DecidableEq, Repr

inductive Edition
  | pdp7 | v1 | v6 | v7 | v8 | v9 | v10 | v32 | coherent | xenix | bsd29 | bsd211 | sysiii | svr2 | svr4
  deriving DecidableEq, Repr

/-- `filsys_desc_t`: the static half of a mount. -/
structure Desc where
  ops : Ops
  alloc : AllocOps
  bo : ByteOrder
  bsize : Nat
  nicfree : Nat := 0
  nicinod : Nat := 0
  pack4 : Bool := false
  interleave : Bool := false
  magic : Nat := 0
  magicOff : Nat := 0
  /-- The block size comes from `s_type` (System V). -/
  dynBsize : Bool := false
  hasDinfo : Bool := false
  hasState : Bool := false
  ignoreMagic : Bool := false
  fmodBack : Nat := 0
  hasFmod : Bool := false
  /-- Width of an on-disk size field that caps `max_file`; 0 = the block map is the limit. -/
  sizeBits : Nat := 0
  rootino : Nat
  inodeSize : Nat
  ndaddr : Nat
  niaddr : Nat
  /-- Bytes per `di_addr` entry (0 where the backend has its own inode codec). -/
  addrWidth : Nat := 0
  daddrWid : Nat := 0
  dfNfreeWid : Nat := 0
  /-- `s_isize` counts i-list blocks (V6) rather than naming the first data block. -/
  isizeCount : Bool := false
  nindir : Nat
  ilargMask : Nat := 0
  iallocated : Nat := 0
  largeSingle : Nat := 0
  largeDouble : Nat := 0
  badino : Nat := 0
  word : Option WordCodec := none
  maxNamlen : Nat
  direntSize : Nat
  synthDot : Bool := false
  freemap : Freemap := .list
  ifmt : Nat := 0
  ifdir : Nat := 0
  ifreg : Nat := 0
  ifchr : Nat := 0
  ifblk : Nat := 0
  iflnk : Nat := 0
  ifsock : Nat := 0
  ifmpc : Nat := 0
  ifmpb : Nat := 0
  /-- `sb_decode` / `sb_encode` are set: the V8-family superblock. -/
  sbCodec : Bool := false
  /-- `to_posix_mode` is `v910_to_posix_mode`. -/
  v910Mode : Bool := false
  deriving DecidableEq, Repr

/-! ## The format table -/

def descV7 : Desc where
  ops := .v7
  alloc := .freelist
  bo := .me
  bsize := 512
  nicfree := 50
  nicinod := 100
  inodeSize := 64
  ndaddr := 10
  niaddr := 13
  addrWidth := 3
  daddrWid := 4
  dfNfreeWid := 2
  nindir := 128
  fmodBack := 2
  hasFmod := true
  rootino := 2
  badino := 1
  maxNamlen := 14
  direntSize := 16
  ifmt := 0o170000
  ifdir := 0o040000
  ifreg := 0o100000
  ifchr := 0o020000
  ifblk := 0o060000
  ifmpc := 0o030000
  ifmpb := 0o070000

def descV6 : Desc where
  ops := .v6
  alloc := .freelist
  bo := .me
  bsize := 512
  nicfree := 100
  nicinod := 100
  inodeSize := 32
  ndaddr := 8
  niaddr := 8
  daddrWid := 2
  dfNfreeWid := 2
  nindir := 256
  isizeCount := true
  hasFmod := true
  sizeBits := 24
  rootino := 1
  ilargMask := 0o010000
  iallocated := 0o100000
  largeSingle := 7
  largeDouble := 1
  maxNamlen := 14
  direntSize := 16
  ifmt := 0o060000
  ifdir := 0o040000
  ifchr := 0o020000
  ifblk := 0o060000

def descV1 : Desc where
  ops := .v1
  alloc := .bitmap
  bo := .me
  bsize := 512
  inodeSize := 32
  ndaddr := 8
  niaddr := 8
  daddrWid := 2
  nindir := 256
  sizeBits := 16
  ilargMask := 0o010000
  largeSingle := 8
  largeDouble := 0
  rootino := 41
  maxNamlen := 8
  direntSize := 10

def descPdp7 : Desc where
  ops := .pdp7
  alloc := .pdp7
  bo := .me
  bsize := 128
  inodeSize := 12
  ndaddr := 7
  niaddr := 7
  nindir := 64
  ilargMask := 0o200000
  largeSingle := 7
  largeDouble := 0
  word := some .rb09
  maxNamlen := 8
  direntSize := 8
  rootino := 4
  synthDot := true

def descBsd211 : Desc where
  ops := .bsd211
  alloc := .freelist
  bo := .me
  bsize := 1024
  nicfree := 50
  nicinod := 100
  inodeSize := 64
  ndaddr := 4
  niaddr := 7
  addrWidth := 4
  daddrWid := 4
  dfNfreeWid := 2
  nindir := 256
  fmodBack := 3
  rootino := 2
  badino := 1
  maxNamlen := 63
  direntSize := 0
  ifmt := 0o170000
  ifdir := 0o040000
  ifreg := 0o100000
  ifchr := 0o020000
  ifblk := 0o060000
  iflnk := 0o120000
  ifsock := 0o140000

def descV8 : Desc where
  ops := .v7
  alloc := .freelist
  bo := .le
  bsize := 1024
  nicfree := 178
  nicinod := 100
  inodeSize := 64
  ndaddr := 10
  niaddr := 13
  addrWidth := 3
  daddrWid := 4
  dfNfreeWid := 4
  hasFmod := true
  nindir := 256
  rootino := 2
  maxNamlen := 14
  direntSize := 16
  freemap := .list
  sbCodec := true
  ifmt := 0o170000
  ifdir := 0o040000
  ifreg := 0o100000
  ifchr := 0o020000
  ifblk := 0o060000
  iflnk := 0o120000

def xenMagic : Nat := 0x2b5544
def sysvMagic : Nat := 0xfd187e20

def filsysGetformat : Edition → Desc
  | .pdp7 => descPdp7
  | .v1 => descV1
  | .v6 => descV6
  | .bsd211 => descBsd211
  | .v7 => descV7
  | .v8 => descV8
  | .v9 => { descV8 with bsize := 8192, bo := .be, nicfree := 946, nindir := 2048, v910Mode := true }
  | .v10 => { descV8 with v910Mode := true }
  | .v32 => { descV7 with bo := .le, pack4 := true }
  | .coherent => { descV7 with nicfree := 64, interleave := true }
  | .xenix =>
    { descV7 with bsize := 1024, bo := .le, nicfree := 100, nindir := 256, magic := xenMagic, magicOff := 0x3F8 }
  | .bsd29 => { descV7 with bsize := 1024, ndaddr := 4, niaddr := 7, nindir := 256 }
  | .sysiii => { descV7 with bo := .le, pack4 := true, hasDinfo := true }
  | .svr2 => { descV7 with
      bo := .le, pack4 := true, magic := sysvMagic, magicOff := 504, dynBsize := true, hasDinfo := true }
  | .svr4 => { descV7 with
      bo := .le, pack4 := true, magic := sysvMagic, magicOff := 504, dynBsize :=
      true, hasState := true, hasDinfo := true }

/-- `filsys_max_file_op`, and the PDP-7's own constant. -/
def maxFile (d : Desc) : Nat :=
  if d.ops = .pdp7 then 7 * 64 * 64 * 2
  else
    let n := d.nindir
    let cap := min ((d.ndaddr + n + n * n + n * n * n) * d.bsize) (2 ^ 32 - 1)
    if d.sizeBits = 0 then cap else min cap (2 ^ d.sizeBits - 1)

/-! ## The decoded inode and mode conversion -/

/-- `filsys_inode_t`. `addr` holds block numbers, or the device number in `addr 0`. -/
structure Inode where
  ino : Nat := 0
  mode : Nat := 0
  nlink : Int := 0
  uid : Int := 0
  gid : Int := 0
  size : Nat := 0
  addr : Nat → Nat := fun _ => 0
  atime : Nat := 0
  mtime : Nat := 0
  ctime : Nat := 0

instance : Inhabited Inode := ⟨{}⟩

/-- `ip->addr[k] = v`. -/
def Inode.setAddr (ip : Inode) (k v : Nat) : Inode :=
  { ip with addr := fun i => if i = k then v else ip.addr i }

/-- The C conversion to `int16_t`. -/
def toInt16 (v : Int) : Int := (v + 32768) % 65536 - 32768

/-- The type a `to_disk_mode` caller is encoding (`FILSYS_FT_*`). -/
inductive FileType
  | reg | dir | chr | blk | lnk
  deriving DecidableEq, Repr

def has (m bits : Nat) : Bool := m &&& bits != 0

def toV1Mode (m : Nat) (isdir : Bool) : Nat :=
  0o100000 ||| (if isdir then 0o040000 else 0) ||| (if has m 0o400 then 0o10 else 0)
    ||| (if has m 0o200 then 0o4 else 0) ||| (if has m 0o100 then 0o20 else 0)
    ||| (if has m 0o040 || has m 0o004 then 0o2 else 0) ||| (if has m 0o020 || has m 0o002 then 0o1 else 0)
    ||| (if has m 0o4000 then 0o40 else 0)

def toP7Mode (m : Nat) (isdir : Bool) : Nat :=
  0o400000 ||| (if isdir then 0o20 else 0) ||| (if has m 0o400 then 0o10 else 0)
    ||| (if has m 0o200 then 0o4 else 0) ||| (if has m 0o040 || has m 0o004 then 0o2 else 0)
    ||| (if has m 0o020 || has m 0o002 then 0o1 else 0)

/-- `fs_is_dir` / `mode_is_dir`. -/
def modeIsDir (d : Desc) (ip : Inode) : Bool :=
  match d.ops with
  | .v1 => has ip.mode 0o040000
  | .pdp7 => has ip.mode 0o20
  | _ => ip.mode &&& d.ifmt == d.ifdir

/-- `mode_is_device` / `is_device`. -/
def modeIsDevice (d : Desc) (ip : Inode) : Bool :=
  match d.ops with
  | .v1 => ip.ino < 41
  | .pdp7 => has ip.mode 0o40
  | _ =>
    let t := ip.mode &&& d.ifmt
    t == d.ifchr || t == d.ifblk || (d.ifmpc != 0 && t == d.ifmpc) || (d.ifmpb != 0 && t == d.ifmpb)

/-- `is_data_inode` (blocktree.c). -/
def isDataInode (d : Desc) (ip : Inode) : Bool :=
  match d.ops with
  | .v1 => !modeIsDevice d ip
  | .pdp7 => !modeIsDevice d ip
  | _ =>
    let t := ip.mode &&& d.ifmt
    t == d.ifreg || t == d.ifdir || (d.iflnk != 0 && t == d.iflnk)

/-- `mode_to_disk`. -/
def modeToDisk (d : Desc) (m : Nat) (type : FileType) : Nat :=
  match d.ops with
  | .v1 => toV1Mode m (type == .dir)
  | .pdp7 => toP7Mode m (type == .dir) ||| (if type == .chr || type == .blk then 0o40 else 0)
  | _ =>
    let base := (m &&& 0o7777) ||| d.iallocated
    match type with
    | .dir => base ||| d.ifdir
    | .chr => base ||| d.ifchr
    | .blk => base ||| d.ifblk
    | .lnk => base ||| d.iflnk
    | .reg => if d.ifreg != 0 then base ||| d.ifreg else base

/-- The POSIX type bits of a mode. -/
inductive Kind
  | dir | chr | blk | lnk | sock | reg
  deriving DecidableEq, Repr

/-- `inode_live`: the allocated bit where the edition has one, else a non-zero mode. -/
def inodeLive (d : Desc) (mode : Nat) : Bool :=
  if d.iallocated != 0 then has mode d.iallocated else mode != 0

end Filsys.Engine
