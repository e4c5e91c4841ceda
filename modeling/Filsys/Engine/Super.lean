/-
  Filsys.Engine.Super — the superblock codecs and flushes (v7fs.c, alloc_v8bitmap.c,
  v1fs.c, pdp7fs.c).

  Three layouts carry the free-list caches: V7's (with its 32V/System V packing), V6's
  16-bit one, and the V8 family's rearranged one, whose tail is a free list, a bitmap,
  or a flag that the bitmap lies in blocks of its own. V1 keeps two bit maps in blocks
  0 and 1, the PDP-7 a single head word in block 0.
-/

import Filsys.Engine.Mount

namespace Filsys.Engine

open Filsys.Lib

/-! ## Field offsets -/

def sbFsizeOff (pack4 : Bool) : Nat := if pack4 then 4 else 2
def sbNfreeOff (pack4 : Bool) : Nat := if pack4 then 8 else 6
def sbFreeOff (pack4 : Bool) : Nat := if pack4 then 12 else 8
def sbNinodeOff (pack4 : Bool) (nicfree : Nat) : Nat := sbFreeOff pack4 + 4 * nicfree
def sbInodeOff (pack4 : Bool) (nicfree : Nat) : Nat := sbNinodeOff pack4 nicfree + 2
def sbTimeOff (pack4 : Bool) (nicfree : Nat) : Nat :=
  sbInodeOff pack4 nicfree + 2 * 100 + 4 + (if pack4 then 2 else 0)
def sbTfreeOff (pack4 : Bool) (nicfree : Nat) (hasDinfo : Bool) : Nat :=
  sbTimeOff pack4 nicfree + 4 + (if hasDinfo then 8 else 0)
def fbFreeOff (pack4 : Bool) : Nat := if pack4 then 4 else 2

/-- `v7_chain_free_off`: where `df_free[]` starts in a chain block. -/
def chainFreeOff (d : Desc) : Nat := if d.dfNfreeWid = 4 then 4 else fbFreeOff d.pack4

/-- `v7_get_daddr` / `v7_put_daddr`: a block address of the free list. -/
def daddrSig (d : Desc) : List Nat := if d.daddrWid = 2 then ByteOrder.le.sig16 else d.bo.sig32
def getDaddr (d : Desc) (b : Buf) (o : Nat) : Nat := num (daddrSig d) b o

/-- `df_nfree` of a chain block. -/
def dfNfreeSig (d : Desc) : List Nat := if d.dfNfreeWid = 4 then d.bo.sig32 else d.bo.sig16

/-! ## Encoders -/

def v6SbEncode (fs : Fs) (now : Nat) (sb : Buf) : Buf :=
  let bo := fs.desc.bo
  let sb := bo.put16 sb 0 fs.isize
  let sb := bo.put16 sb 2 fs.fsize
  let sb := bo.put16 sb 4 fs.nfree
  let sb := putTable bo.sig16 6 2 fs.free fs.desc.nicfree sb
  let sb := bo.put16 sb 206 fs.ninode
  let sb := putTable bo.sig16 208 2 fs.inode fs.desc.nicinod sb
  let sb := bo.put32 sb 412 now
  poke sb 410 [if fs.fmod != 0 then 1 else 0]

def v7SbEncode (fs : Fs) (now : Nat) (sb : Buf) : Buf :=
  let d := fs.desc
  let bo := d.bo
  let tm := sbTimeOff d.pack4 d.nicfree
  let sb := bo.put16 sb 0 fs.isize
  let sb := bo.put32 sb (sbFsizeOff d.pack4) fs.fsize
  let sb := bo.put16 sb (sbNfreeOff d.pack4) fs.nfree
  let sb := putTable bo.sig32 (sbFreeOff d.pack4) 4 fs.free d.nicfree sb
  let sb := bo.put16 sb (sbNinodeOff d.pack4 d.nicfree) fs.ninode
  let sb := putTable bo.sig16 (sbInodeOff d.pack4 d.nicfree) 2 fs.inode 100 sb
  let sb := bo.put32 sb tm now
  let sb := poke sb (tm - d.fmodBack) [if fs.fmod != 0 then 1 else 0]
  let sb := if d.hasState then bo.put32 sb 500 (if fs.fmod != 0 then 0x5e72d81a else 0x7c269d38) else sb
  let sb :=
    if !d.pack4 || d.magic != 0 then
      let toff := sbTfreeOff d.pack4 d.nicfree d.hasDinfo
      bo.put16 (bo.put32 sb toff fs.tfree) (toff + 4) fs.tinode
    else sb
  if d.interleave then bo.put32 (bo.put16 (bo.put16 sb (tm + 10) fs.m) (tm + 12) fs.n)
    (tm + 26) fs.unique else sb

/-- The longwords of the in-superblock bitmap: bit `b` of word `w` is block bit `32 w + b`. -/
def v8Word (fs : Fs) (w : Nat) : Nat :=
  wordOf (fun b => decide (w * 32 + b < fs.v8Nbits) && getBit fs.v8Bits (w * 32 + b)) 32

def v8SbEncode (fs : Fs) (now : Nat) (sb : Buf) : Buf :=
  let bo := fs.desc.bo
  let sb := bo.put16 sb 0 fs.isize
  let sb := bo.put32 sb 4 fs.fsize
  let sb := bo.put16 sb 8 fs.ninode
  let sb := putTable bo.sig16 10 2 fs.inode 100 sb
  let sb := bo.put32 sb 216 now
  let sb := poke sb 212 [if fs.fmod != 0 then 1 else 0]
  let sb := bo.put32 sb 220 fs.tfree
  let sb := bo.put16 sb 224 fs.tinode
  match fs.desc.freemap with
  | .list => putTable bo.sig32 252 4 fs.free fs.desc.nicfree (bo.put16 sb 248 fs.nfree)
  | .bitmap => putTable bo.sig32 252 4 (v8Word fs) 961 (poke sb 248 [1])
  | .bigmap => bo.put32 (poke (poke sb 248 [1]) 249 [1]) 252 (fs.desc.bsize * 8)

/-- The superblock image `v7fs_super_write` puts over the one it read. -/
def sbEncode (fs : Fs) (now : Nat) (sb : Buf) : Buf :=
  if fs.desc.sbCodec then v8SbEncode fs now sb
  else if fs.desc.isizeCount then v6SbEncode fs now sb
  else v7SbEncode fs now sb

/-! ## Decoders -/

def v6SbDecode (fs : Fs) (sb : Buf) : Fs :=
  let bo := fs.desc.bo
  { fs with
    isize := bo.get16 sb 0
    fsize := bo.get16 sb 2
    nfree := bo.get16 sb 4
    free := fun i => bo.get16 sb (6 + 2 * i)
    ninode := bo.get16 sb 206
    inode := fun i => bo.get16 sb (208 + 2 * i)
    fmod := (sb 410).toNat }

def v7SbDecode (fs : Fs) (sb : Buf) : Fs :=
  let d := fs.desc
  let bo := d.bo
  { fs with
    isize := bo.get16 sb 0
    fsize := bo.get32 sb (sbFsizeOff d.pack4)
    nfree := bo.get16 sb (sbNfreeOff d.pack4)
    free := fun i => bo.get32 sb (sbFreeOff d.pack4 + 4 * i)
    ninode := bo.get16 sb (sbNinodeOff d.pack4 d.nicfree)
    inode := fun i => bo.get16 sb (sbInodeOff d.pack4 d.nicfree + 2 * i)
    fmod := (sb (sbTimeOff d.pack4 d.nicfree - d.fmodBack)).toNat }

def v8SbDecode (fs : Fs) (sb : Buf) : Fs :=
  let bo := fs.desc.bo
  { fs with
    isize := bo.get16 sb 0
    fsize := bo.get32 sb 4
    ninode := bo.get16 sb 8
    inode := fun i => bo.get16 sb (10 + 2 * i)
    fmod := (sb 212).toNat
    tfree := bo.get32 sb 220
    tinode := bo.get16 sb 224
    nfree := if fs.desc.freemap = .list then bo.get16 sb 248 else 0
    free := fun i => bo.get32 sb (252 + 4 * i) }

def sbDecode (fs : Fs) (sb : Buf) : Fs :=
  if fs.desc.sbCodec then v8SbDecode fs sb
  else if fs.desc.isizeCount then v6SbDecode fs sb
  else v7SbDecode fs sb

theorem sbDecode_desc (fs : Fs) (sb : Buf) : (sbDecode fs sb).desc = fs.desc := by
  unfold sbDecode
  split
  · rfl
  · split <;> rfl

/-! ## Flushes -/

/-- Where the superblock lies: System V keeps a 512-byte one at byte 512. -/
def superRead : M Buf := do
  let fs ← getFs
  if fs.desc.dynBsize then ioRead 512 (512 + fs.base) else v7fsReadBlock 1

def superPut (sb : Buf) : M Unit := do
  let fs ← getFs
  if fs.desc.dynBsize then ioWrite .super sb 512 (512 + fs.base) else v7fsWriteBlock .super 1 sb

def v7fsSuperWrite : M Unit := do
  let fs ← getFs
  if fs.readonly then return ()
  else
    let sb ← failAs .eio superRead
    let now ← timeNow
    failAs .eio (superPut (sbEncode fs now sb))
    modFs fun fs => { fs with flDirty := false }

/-- Bytes of bitmap block `k` of an out-of-superblock bitmap. -/
def bigmapBytes (fs : Fs) (k : Nat) : Nat :=
  if k + 1 = fs.v8Nblks then (fs.v8Nbits - k * fs.desc.bsize * 8 + 7) / 8 else fs.desc.bsize

/-- Write bitmap blocks `k, k + 1, …` (`todo` of them). -/
def bigmapFlush : Nat → Nat → M Unit
  | 0, _ => return ()
  | todo + 1, k => do
    let fs ← getFs
    failAs .eio (v7fsWriteBlock .bitmap (fs.v8BlkStart + k)
      (window fs.v8Bits (k * fs.desc.bsize) (bigmapBytes fs k)))
    bigmapFlush todo (k + 1)

def v8BitmapSync : M Unit := do
  let fs ← getFs
  if fs.readonly then return ()
  else
    onlyIf (fs.desc.freemap = .bigmap) (bigmapFlush fs.v8Nblks 0)
    v7fsSuperWrite

/-- `flush_fs`. -/
def flushFs : M Unit := do
  let fs ← getFs
  if fs.desc.freemap ≠ .list then v8BitmapSync else v7fsSuperWrite

/-- V1's `super_write`: both maps, through blocks 0 and 1. -/
def v1SuperWrite : M Unit := do
  let fs ← getFs
  if fs.readonly then return ()
  else
    let b0 ← failAs .eio (v1fsReadBlock 0)
    let b1 ← failAs .eio (v1fsReadBlock 1)
    let sb := splice b0 512 b1 0 512
    let sb := splice sb 2 fs.freemap 0 fs.freemapBytes
    let sb := splice sb (2 + fs.freemapBytes + 2) fs.inodemap 0 fs.inodemapBytes
    failAs .eio (v1fsWriteBlock .super 0 sb)
    failAs .eio (v1fsWriteBlock .super 1 (window sb 512 512))
    modFs fun fs => { fs with flDirty := false }

/-- The PDP-7's `super_write`: the free-list head into word 0 of block 0. -/
def p7SuperWrite : M Unit := do
  let fs ← getFs
  let sb ← failAs .eio (readWords 0)
  failAs .eio (writeWords .super 0 fun i => if i = 0 then word18 fs.freelist else sb i)
  modFs fun fs => { fs with flDirty := false }

end Filsys.Engine
