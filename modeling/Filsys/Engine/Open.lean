/-
  Filsys.Engine.Open — opening and closing a mount (filsys.c, filsys_format.c,
  filsys_names.c, v7fs.c, v1fs.c, pdp7fs.c).

  `filsysOpenArch` resolves the descriptor, lets the backend read and check the
  superblock, then takes the advisory lock over the extent and stamps the volume dirty.
  A refusal after the backend has opened goes through the backend's own close.
-/

import Filsys.Engine.Inode

namespace Filsys.Engine

open Filsys.Lib

/-! ## Resolving the descriptor -/

/-- `filsys_geom_t`: `none` / 0 leave the edition's default. -/
structure Geom where
  blocksize : Nat := 0
  freemap : Option Freemap := none
  byteorder : Option String := none

def filsysApplyGeom (fmt : Desc) (ed : Edition) (g : Geom) : Except Errno Desc :=
  let bs := if g.blocksize = 0 then fmt.bsize else g.blocksize
  let fm := g.freemap.getD (if bs = 4096 then .bitmap else .list)
  if fm = .bigmap ∧ ed ≠ .v10 then .error .einval
  else if ed = .v9 ∧ bs ≠ 8192 then .error .einval
  else if ed ≠ .v9 ∧ bs = 1024 ∧ fm ≠ .list then .error .einval
  else if ed ≠ .v9 ∧ bs = 4096 ∧ fm = .list then .error .einval
  else if ed ≠ .v9 ∧ bs ≠ 1024 ∧ bs ≠ 4096 then .error .einval
  else
    let done (bo : ByteOrder) : Desc := { fmt with
      bo := bo, bsize := bs, nindir := bs / 4, freemap := fm
      alloc := if fm = .list then .freelist else .v8bitmap }
    match g.byteorder with
    | none => .ok (done fmt.bo)
    | some "le" => .ok (done .le)
    | some "be" => .ok (done .be)
    | some _ => .error .einval

/-- `filsys_arch_bo`. -/
def filsysArchBo (arch : String) : Option ByteOrder :=
  if arch = "pdp11" then some .me
  else if arch ∈ ["vax", "x86", "386", "i386", "ns32k", "ns32000", "i860", "clipper"] then some .le
  else if arch ∈ ["3b2", "3b20", "we32000", "68k", "m68k", "68000", "sparc", "mips", "parisc",
    "hppa", "powerpc", "ppc"]
  then some .be
  else none

/-- `filsys_word_codec_by_name`. -/
def wordCodecByName (name : String) : Option WordCodec :=
  if name = "rb09" ∨ name = "simh" then some .rb09
  else if name = "packed18" ∨ name = "packed" then some .packed18
  else if name = "rim" then some .rim
  else none

/-- `magic_byte_offset`. -/
def magicByteOffset (fmt : Desc) : Nat := if fmt.dynBsize then 512 + fmt.magicOff else fmt.bsize + fmt.magicOff

/-- The order a magic word decides, against the one asked for. -/
def matchMagic (fmt : Desc) (m : Buf) (archBo : Option ByteOrder) (force : Bool) : Except Errno Desc :=
  let le := boGet32le m 0 == fmt.magic
  let be := boGet32be m 0 == fmt.magic
  let me := boGet32me m 0 == fmt.magic
  match archBo with
  | some bo =>
    if bo.get32 m 0 = fmt.magic then .ok { fmt with bo := bo }
    else if le || be || me then .error .einval
    else if force then .ok { fmt with bo := bo, ignoreMagic := true }
    else .error .eilseq
  | none =>
    if le then .ok { fmt with bo := .le }
    else if be then .ok { fmt with bo := .be }
    else if me then .ok { fmt with bo := .me }
    else .error .eilseq

/-- `open(2)`. -/
def openImage : M Unit := fun s =>
  match s.env.openErr with
  | some e => .error e s
  | none => .ok () s

def liftE {α : Type} : Except Errno α → M α
  | .ok a => return a
  | .error e => throw e

/-- The order an architecture name asks for. -/
def archOrder : Option String → Except Errno (Option ByteOrder)
  | none => .ok none
  | some a =>
    match filsysArchBo a with
    | none => .error .einval
    | some bo => .ok (some bo)

def filsysResolveByteorder (fmt : Desc) (offset : Nat) (arch : Option String) (force : Bool) : M Desc := do
  let archBo ← liftE (archOrder arch)
  let fmt := if archBo = some .me then { fmt with pack4 := false } else fmt
  if fmt.magic = 0 then
    match archBo with
    | some bo => return { fmt with bo := bo }
    | none => return fmt
  else
    openImage
    let m ← ioRead 4 (magicByteOffset fmt + offset)
    liftE (matchMagic fmt m archBo force)

/-! ## Backend opens -/

/-- The entries of a chain block as the counters read them: V6's in the byte order of the mount. -/
def countedFree (strict : Bool) (d : Desc) (blk : Buf) (i : Nat) : Nat :=
  if strict then chainFree d blk i else d.bo.get16 blk (2 + 2 * i)

/-- `v7_count_free`'s chain walk; V6's has no check of a segment's count. -/
def countChain (strict : Bool) : Nat → Nat → (Nat → Nat) → Nat → M Nat
  | 0, _, _, blocks => return blocks
  | guard + 1, n, cur, blocks => do
    let fs ← getFs
    if n = 0 ∨ cur (n - 1) = 0 then return blocks
    else if n - 1 = 0 then
      match ← attempt (v7fsReadBlock (cur 0)) with
      | .error _ => return blocks + 1
      | .ok blk =>
        let n' := num (dfNfreeSig fs.desc) blk 0
        if strict ∧ fs.desc.nicfree < n' then return blocks + 1
        else countChain strict guard n' (countedFree strict fs.desc blk) (blocks + 1)
    else countChain strict guard (n - 1) cur (blocks + 1)

/-- Live inodes from `ino` on. -/
def countLive : Nat → Nat → Nat → M Nat
  | 0, _, used => return used
  | todo + 1, ino, used => do
    let d := (← getFs).desc
    match ← attempt (v7fsReadInode ino) with
    | .error _ => countLive todo (ino + 1) used
    | .ok ip => countLive todo (ino + 1) (if inodeLive d (ip.mode % 65536) then used + 1 else used)

/-- `v7_count_free` / `v6_count_free`. -/
def countFree : M Unit := do
  let fs ← getFs
  let blocks ← countChain (!fs.desc.isizeCount) ((fs.fsize + fs.desc.nicfree) % 2 ^ 32 + 1) fs.nfree fs.free 0
  let used ← countLive (v7Maxinode fs) 1 0
  modFs fun fs => { fs with tfree := blocks % 2 ^ 32, tinode := v7Maxinode fs - used }

/-- Bitmap blocks `k, k + 1, …` into the in-core map. -/
def bigmapLoad : Nat → Nat → M Unit
  | 0, _ => return ()
  | todo + 1, k => do
    let fs ← getFs
    let blk ← failAs .eio (v7fsReadBlock (fs.v8BlkStart + k))
    modFs fun fs => { fs with v8Bits := splice fs.v8Bits (k * fs.desc.bsize) blk 0 (bigmapBytes fs k) }
    bigmapLoad todo (k + 1)

def v8BitmapLoad (sb : Buf) : M Unit := do
  let fs ← getFs
  if fs.desc.freemap = .bigmap then
    let nblks := (fs.fsize + fs.desc.bsize * 8 - 1) % 2 ^ 32 / (fs.desc.bsize * 8)
    modFs fun fs => { fs with v8Base := 0, v8Nbits := fs.fsize, v8Nblks := nblks, v8BlkStart := fs.fsize - nblks }
    bigmapLoad nblks 0
  else if fs.fsize < fs.isize ∨ 30752 < fs.fsize - fs.isize then throw .e2big
  else
    let nbits := fs.fsize - fs.isize
    modFs fun fs => { fs with
      v8Base := fs.isize, v8Nbits := nbits, v8Nblks := 0
      v8Bits := fillBits (fun i => (fs.desc.bo.get32 sb (252 + 4 * (i / 32))).testBit (i % 32)) nbits zeroBuf }

/-- The block size `s_type` names. -/
def sysvBsize (t : Nat) : Nat := if t = 1 then 512 else if t = 2 then 1024 else if t = 3 then 2048 else 0

/-- The superblock bytes, with the System V block size resolved first. -/
def v7OpenSuper : M Buf := do
  let fs ← getFs
  if fs.desc.dynBsize then
    let probe ← failAs .eio (ioRead 512 (512 + fs.base))
    if !fs.desc.ignoreMagic ∧ fs.desc.bo.get32 probe 504 ≠ sysvMagic then throw .einval
    else
      let bsize := sysvBsize (fs.desc.bo.get32 probe 508)
      if bsize = 0 then throw .einval
      else
        modFs fun fs => { fs with desc := { fs.desc with bsize := bsize, nindir := bsize / fs.desc.daddrWid } }
        failAs .eio (ioRead 512 (512 + fs.base))
  else failAs .eio (v7fsReadBlock 1)

/-- The free-space totals: the superblock's where the format maintains them. -/
def v7OpenTotals (sb : Buf) : M Unit := do
  let fs ← getFs
  let d := fs.desc
  if d.sbCodec then return ()
  else if d.isizeCount then countFree
  else if !d.pack4 ∨ d.magic ≠ 0 then
    let toff := sbTfreeOff d.pack4 d.nicfree d.hasDinfo
    modFs fun fs => { fs with tfree := d.bo.get32 sb toff, tinode := d.bo.get16 sb (toff + 4) }
  else countFree

def v7fsOpen (readonly : Bool) (proto : Desc) (offset : Nat) : M Unit := do
  modFs fun _ => { desc := proto, readonly := readonly, base := offset }
  openImage
  let sb ← v7OpenSuper
  modFs fun fs => sbDecode fs sb
  let fs ← getFs
  if fs.desc.nicfree < fs.nfree ∨ fs.desc.nicinod < fs.ninode then throw .einval
  else
    onlyIf (fs.desc.sbCodec ∧ fs.desc.freemap ≠ .list) (failAs .eio (v8BitmapLoad sb))
    v7OpenTotals sb
    let d := fs.desc
    let tm := sbTimeOff d.pack4 d.nicfree
    onlyIf d.interleave <|
      modFs fun fs => { fs with
        m := d.bo.get16 sb (tm + 10), n := d.bo.get16 sb (tm + 12), unique := d.bo.get32 sb (tm + 26) }
    if !d.ignoreMagic ∧ d.magic ≠ 0 ∧ d.bo.get32 sb d.magicOff ≠ d.magic then throw .einval
    else
      let s ← get
      let fs := s.fs
      if fs.isize < (if d.isizeCount then 1 else 2) ∨ s.size < fs.base + fs.fsize * d.bsize ∨
        fs.fsize ≤ v7DataFirst fs
      then throw .einval
      else modFs fun fs => { fs with imgsize := s.size }

/-- Bits of `bits` in `[i, i + n)` equal to `on`. -/
def countBits (bits : Buf) (on : Bool) (i n : Nat) : Nat :=
  ((List.range n).filter fun k => getBit bits (i + k) == on).length

def v1fsOpen (readonly : Bool) (proto : Desc) (offset : Nat) : M Unit := do
  modFs fun _ => { desc := proto, readonly := readonly, base := offset }
  openImage
  let b0 ← failAs .eio (v1fsReadBlock 0)
  let b1 ← failAs .eio (v1fsReadBlock 1)
  let sb := splice b0 512 b1 0 512
  let freemapBytes := boGet16le sb 0
  let inodemapBytes := boGet16le sb (2 + freemapBytes)
  let inodemapOff := 2 + freemapBytes + 2
  if freemapBytes = 0 ∨ 1024 < inodemapOff + inodemapBytes then throw .einval
  else
    let s ← get
    let fsize := freemapBytes * 8
    let maxino := inodemapBytes * 8
    if s.size < offset + fsize * 512 ∨ fsize ≤ v1DataStart maxino then throw .einval
    else
      let freemap := window sb 2 freemapBytes
      let inodemap := window sb inodemapOff inodemapBytes
      modFs fun fs => { fs with
        freemapBytes := freemapBytes, inodemapBytes := inodemapBytes, fsize := fsize, maxino := maxino
        imgsize := s.size, freemap := freemap, inodemap := inodemap
        tfree := countBits freemap true (v1DataStart maxino) (fsize - v1DataStart maxino)
        tinode := countBits inodemap false 0 (maxino + 1 - 41) }

/-- The free-block count of the PDP-7's node list. -/
def p7Count : Nat → Nat → Nat → M Nat
  | 0, _, n => return n
  | guard + 1, head, n => do
    if head = 0 then return n
    else
      match ← attempt (readWords head) with
      | .error _ => return n
      | .ok fl => p7Count guard (word18 (fl 0)) (n + 1 + ((List.range 9).filter fun i => fl (i + 1) ≠ 0).length)

def p7fsOpen (readonly : Bool) (proto : Desc) (offset : Nat) : M Unit := do
  modFs fun _ => { desc := proto, readonly := readonly, base := offset }
  openImage
  let s ← get
  if s.size < offset + (wordOps proto).blockBytes then throw .einval
  else
    modFs fun fs => { fs with imgsize := s.size }
    let sb ← failAs .eio (readWords 0)
    modFs fun fs => { fs with freelist := word18 (sb 0) }
    let n ← p7Count p7Nblocks (word18 (sb 0)) 0
    modFs fun fs => { fs with tfree := n }

/-- `ops->open`. -/
def opsOpen (readonly : Bool) (fmt : Desc) (offset : Nat) : M Unit :=
  match fmt.ops with
  | .v1 => v1fsOpen readonly fmt offset
  | .pdp7 => p7fsOpen readonly fmt offset
  | _ => v7fsOpen readonly fmt offset

/-! ## Flush and close -/

/-- `ops->close`: the final flush. -/
def opsClose : M Unit := do
  let fs ← getFs
  if fs.readonly then return ()
  else
    match fs.desc.ops with
    | .v1 => v1SuperWrite
    | .pdp7 => p7SuperWrite
    | _ => flushFs

/-- `ops->sync`. -/
def opsSync : M Unit := opsClose

/-- `ops->mark_dirty` / `ops->mark_clean`, where the backend has them. -/
def opsMark (fmod : Nat) : M Unit := do
  let fs ← getFs
  match fs.desc.ops with
  | .v1 => return ()
  | .pdp7 => return ()
  | _ =>
    if fs.readonly then return ()
    else
      modFs fun fs => { fs with fmod := fmod }
      flushFs

/-- `lock_image`: only a read-write mount takes the lock. -/
def lockImage (readonly : Bool) : M Unit := fun s =>
  if !readonly && s.env.locked then .error .ebusy s else .ok () s

/-- The arguments of `filsys_open_arch`. -/
structure OpenArgs where
  edition : Edition
  readonly : Bool := false
  offset : Nat := 0
  uid : Nat := 0
  gid : Nat := 0
  packing : Option String := none
  arch : Option String := none
  force : Bool := false
  geom : Option Geom := none
  noLock : Bool := false

/-- The edition's row with a V8-family geometry applied. -/
def geomDesc (a : OpenArgs) : Except Errno Desc :=
  match a.geom with
  | some g =>
    if a.edition = .v8 ∨ a.edition = .v9 ∨ a.edition = .v10 then
      filsysApplyGeom (filsysGetformat a.edition) a.edition g
    else .ok (filsysGetformat a.edition)
  | none => .ok (filsysGetformat a.edition)

/-- The word container asked for; it applies to the word-addressed edition only. -/
def packDesc (packing : Option String) (fmt : Desc) : Except Errno Desc :=
  match packing, fmt.word with
  | some p, some _ =>
    match wordCodecByName p with
    | some wc => .ok { fmt with word := some wc }
    | none => .error .einval
  | _, _ => .ok fmt

/-- The descriptor an open settles on, before the backend sees the image. -/
def openDesc (a : OpenArgs) : M Desc := do
  let fmt ← liftE (geomDesc a)
  let fmt ← filsysResolveByteorder fmt a.offset a.arch a.force
  liftE (packDesc a.packing fmt)

/-- A step of the open that, failing, closes the backend and reports the failure. -/
def orClose (x : M Unit) : M Unit := do
  match ← attempt x with
  | .ok _ => return ()
  | .error e =>
    let _ ← attempt opsClose
    throw e

def filsysOpenArch (a : OpenArgs) : M Unit := do
  let fmt ← openDesc a
  opsOpen a.readonly fmt a.offset
  onlyIf (!a.noLock) (orClose (lockImage a.readonly))
  onlyIf (!a.readonly) (orClose (opsMark 1))
  modify fun s => { s with edition := a.edition, uid := a.uid, gid := a.gid }

end Filsys.Engine
