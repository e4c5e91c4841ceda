/-
  Filsys.Engine.Salvage — rebuilding the free space from the block-usage map
  (`makefree` of each allocator, `filsys_check_common` with `FILSYS_CK_SALVAGE`).

  Every block of the data area that the first pass did not mark is given back: pushed
  on a fresh free list (in the order Coherent's or V6's interleave asks for), set in a
  fresh bit map, or chained into fresh PDP-7 nodes. The count each routine returns is
  only printed.
-/

import Filsys.Engine.Check
import Filsys.Engine.Open

namespace Filsys.Engine

open Filsys.Lib

/-! ## Free lists -/

/-- `V7_COH_MAXINTN`. -/
def cohMaxintn : Nat := 255

/-- The interleave factors, 1 and 1 where the superblock's are invalid or there are none. -/
def interleaveOf (fs : Fs) : Nat × Nat :=
  if fs.desc.interleave then
    if fs.n < 1 ∨ cohMaxintn < fs.n ∨ fs.m < 1 ∨ fs.n < fs.m ∨ fs.n % fs.m ≠ 0 then (1, 1) else (fs.m, fs.n)
  else (1, 1)

/-- `maptab[i]`. -/
def maptab (m n i : Nat) : Nat := i / (n / m) + i % (n / m) * m

/-- The physical block of the logical block `bn`; only the `n`-aligned band is interleaved. -/
def interleaved (fs : Fs) (bn : Nat) : Nat :=
  let (m, n) := interleaveOf fs
  let mapbot := (fs.isize + n - 1) / n * n
  let maptop := fs.fsize / n * n
  if mapbot ≤ bn ∧ bn < maptop then bn / n * n + maptab m n (bn % n) else bn

/-- Give back the unmarked ones of the blocks `blks`, numbered from `first`; `nblk` bits of the map count. -/
def freeUnmarked (nblk : Nat) (bmap : Buf) (first : Nat) : List Nat → Nat → M Nat
  | [], nfree => return nfree
  | blk :: rest, nfree => do
    let off := (blk + 2 ^ 32 - first) % 2 ^ 32
    if nblk ≤ off then freeUnmarked nblk bmap first rest nfree
    else if getBit bmap off then freeUnmarked nblk bmap first rest nfree
    else
      v7fsBfree blk
      freeUnmarked nblk bmap first rest (nfree + 1)

/-- The blocks `first, first + 1, …, last - 1`. -/
def blocksFrom (first last : Nat) : List Nat := (List.range (last - first)).map (first + ·)

def v7fsMakefreeList (nblk : Nat) (bmap : Buf) : M Nat := do
  modFs fun fs => { fs with nfree := 0, ninode := 0, tfree := 0, tinode := 0 }
  let fs ← getFs
  let nfree ← freeUnmarked nblk bmap fs.isize ((blocksFrom fs.isize fs.fsize).map (interleaved fs)) 0
  let maxino := v7Maxinode fs
  let used ← countLive maxino 1 0
  modFs fun fs => { fs with tinode := maxino - used }
  let _ ← attempt v7fsSuperWrite
  return nfree

/-! ## Bit maps -/

def v8MakefreeBitmap (nblk : Nat) (bmap : Buf) : M Nat := do
  modFs fun fs =>
    if fs.desc.freemap = .bigmap then
      let nblks := (fs.fsize + fs.desc.bsize * 8 - 1) % 2 ^ 32 / (fs.desc.bsize * 8)
      { fs with v8Nblks := nblks, v8BlkStart := fs.fsize - nblks, v8Base := 0, v8Nbits := fs.fsize }
    else { fs with v8Nblks := 0, v8Base := fs.isize, v8Nbits := fs.fsize - fs.isize }
  let fs ← getFs
  let free := fun i => decide (fs.isize ≤ fs.v8Base + i) && decide (fs.v8Base + i - fs.isize < nblk) &&
    !getBit bmap (fs.v8Base + i - fs.isize)
  let nfree := ((List.range fs.v8Nbits).filter free).length
  modFs fun fs => { fs with
    v8Bits := fillBits free fs.v8Nbits zeroBuf
    nfree := 0, ninode := 0, tfree := nfree, tinode := 0 }
  let _ ← attempt v8BitmapSync
  return nfree

def v7fsMakefree (nblk : Nat) (bmap : Buf) : M Nat := do
  let fs ← getFs
  if fs.desc.freemap ≠ .list then v8MakefreeBitmap nblk bmap else v7fsMakefreeList nblk bmap

def v1fsMakefree (bmap : Buf) : M Nat := do
  let fs ← getFs
  let dstart := v1DataStart fs.maxino
  let free := fun b => decide (dstart ≤ b) && !getBit bmap (b - dstart)
  let nfree := ((List.range fs.fsize).filter free).length
  modFs fun fs => { fs with freemap := fillBits free fs.fsize zeroBuf, tfree := nfree }
  let _ ← attempt v1SuperWrite
  return nfree

/-! ## V6 -/

/-- The next unused table index at or after `i`, cyclically. -/
def nextFree (used : List Nat) : Nat → Nat → Nat
  | 0, i => i
  | fuel + 1, i => if i ∈ used then nextFree used fuel ((i + 1) % 100) else i

/-- V6's interleave table: three apart, a hundred long. -/
def v6Adr : Nat → Nat → List Nat → List Nat
  | 0, _, _ => []
  | todo + 1, i, used =>
    let i := nextFree used 100 i
    (i + 1) :: v6Adr todo ((i + 3) % 100) (i :: used)

/-- The blocks V6 gives back, in turn: from each hundred, top down, those the table names. -/
def v6Order (dstart fsize : Nat) : Nat → List Nat
  | 0 => []
  | k + 1 =>
    ((v6Adr 100 0 []).filter fun a => decide (a ≤ (k + 1) * 100) && decide (dstart ≤ (k + 1) * 100 - a) &&
      decide ((k + 1) * 100 - a < fsize)).map (fun a => (k + 1) * 100 - a) ++ v6Order dstart fsize k

def v6Makefree (nblk : Nat) (bmap : Buf) : M Nat := do
  modFs fun fs => { fs with nfree := 0, ninode := 0 }
  let fs ← getFs
  let dstart := v6DataStart fs.isize
  let nfree ← freeUnmarked nblk bmap dstart (v6Order dstart fs.fsize ((fs.fsize - 1 + 99) / 100)) 0
  let _ ← attempt v7fsSuperWrite
  return nfree

/-! ## PDP-7 -/

/-- From block `b - 1` down, `todo` of them. -/
def p7FreeUnmarked (bmap : Buf) : Nat → Nat → Nat → M Nat
  | 0, _, nfree => return nfree
  | todo + 1, b, nfree => do
    if getBit bmap (b - 1 - p7Datastart) then p7FreeUnmarked bmap todo (b - 1) nfree
    else
      p7fsBfree (b - 1)
      p7FreeUnmarked bmap todo (b - 1) (nfree + 1)

def p7fsMakefree (bmap : Buf) : M Nat := do
  modFs fun fs => { fs with freelist := 0, tfree := 0 }
  let nfree ← p7FreeUnmarked bmap (p7Kdata - p7Datastart) p7Kdata 0
  modFs fun fs => { fs with tfree := nfree }
  let _ ← attempt p7SuperWrite
  return nfree

/-! ## Salvage -/

/-- `ops->makefree`. -/
def makefree (nblk : Nat) (bmap : Buf) : M Nat := do
  let fs ← getFs
  match fs.desc.ops with
  | .v1 => v1fsMakefree bmap
  | .pdp7 => p7fsMakefree bmap
  | .v6 => v6Makefree nblk bmap
  | _ => v7fsMakefree nblk bmap

/-- `filsys_check_common` with `FILSYS_CK_SALVAGE`; `none` where it ends before the rebuild, 0 is `some
    true`. -/
def filsysCheckSalvage : MC (Option Bool) := do
  let fs ← eng getFs
  let dstart := opsDataStart fs
  let dend := opsDataEnd fs
  if dend ≤ dstart then
    modChk Chk.err
    return none
  else
    let _ ← markInodes (opsMaxino fs) 1 fun _ => .unalloc
    let c ← getChk
    if mapOverrun fs c then throw .overrun
    else if 10 < c.badBlocks then return none
    else
      let _ ← eng (makefree (dend - dstart) c.bmap)
      return some (decide (c.errors = 0))

end Filsys.Engine
