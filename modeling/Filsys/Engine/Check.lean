/-
  Filsys.Engine.Check — the shared integrity check (check.c, blocktree.c, the
  `walk_free` of each allocator).

  `filsysCheckCommon` is the report-mode run of `filsys_check_common`: mark every block
  an inode references, walk the allocator as it would hand blocks out, count what is
  neither, then compare link counts with directory entries. Every problem adds one to a
  32-bit error counter; `found` counts the same problems without wrapping, and no code
  reads it.
-/

import Filsys.Engine.File

namespace Filsys.Engine

open Filsys.Lib

/-- `FILSYS_IN_*`, the type of an inode as the checker sees it. -/
inductive InState
  | unalloc | unknown | idir | ireg | ichr | iblk | ipipe
  deriving DecidableEq, Repr, Inhabited

/-- `ops->inode->inode_state`. -/
def inodeState (d : Desc) (ino mode : Nat) : InState :=
  match d.ops with
  | .v1 =>
    if mode = 0 then .unalloc else if ino < 41 then .ichr else if has mode 0o040000 then .idir else .ireg
  | .pdp7 =>
    if !has mode 0o400000 then .unalloc else if has mode 0o20 then .idir
      else if has mode 0o40 then .ichr else .ireg
  | .v6 =>
    if mode = 0 then .unalloc
    else if mode &&& 0o060000 = 0o040000 then .idir
    else if mode &&& 0o060000 = 0o020000 then .ichr
    else if mode &&& 0o060000 = 0o060000 then .iblk
    else .ireg
  | .bsd211 =>
    if mode = 0 then .unalloc
    else
      let t := mode &&& 0o170000
      if t = 0o040000 then .idir
      else if t = 0o100000 ∨ t = 0o120000 then .ireg
      else if t = 0o020000 ∨ t = 0o140000 then .ichr
      else if t = 0o060000 then .iblk
      else .unknown
  | .v7 =>
    if mode = 0 then .unalloc
    else
      let t := mode &&& 0o170000
      if t = 0o040000 then .idir
      else if t = 0o100000 ∨ t = 0o120000 then .ireg
      else if t = 0o020000 ∨ t = 0o030000 then .ichr
      else if t = 0o060000 ∨ t = 0o070000 then .iblk
      else if t = 0o010000 then .ipipe
      else .unknown

/-- The block-usage context and the report in one record: what `filsys_chkctx_t` and
    `filsys_check_t` hold that the run reads again. -/
structure Chk where
  /-- Bit `i` is data block `data_start + i`. -/
  bmap : Buf := zeroBuf
  ino : Nat := 0
  usedBlocks : Nat := 0
  dupBlocks : Nat := 0
  badBlocks : Nat := 0
  freeBlocks : Nat := 0
  missingBlocks : Nat := 0
  usedInodes : Nat := 0
  orphaned : Nat := 0
  errors : Nat := 0
  /-- Problems found, uncounted by the code. -/
  found : Nat := 0

def inc32 (n : Nat) : Nat := (n + 1) % 2 ^ 32

/-- `errors++`. -/
def Chk.err (c : Chk) : Chk := { c with errors := inc32 c.errors, found := c.found + 1 }

abbrev MC (α : Type) := EStateM Errno (Mnt × Chk) α

def eng {α : Type} (x : M α) : MC α := outside x

theorem bindEngFs_run {α : Type} (f : Fs → MC α) (s : Mnt × Chk) : (eng getFs >>= f) s = f s.1.fs s := rfl

def getChk : MC Chk := fun s => .ok s.2 s
def modChk (f : Chk → Chk) : MC Unit := fun s => .ok () (s.1, f s.2)

/-- `filsys_mark_block`: was this the first claim of the block? -/
def filsysMarkBlock (bno : Nat) : MC Bool := do
  let fs ← eng getFs
  let c ← getChk
  if bno = 0 then return true
  else
    let dstart := opsDataStart fs
    if bno < dstart ∨ opsDataEnd fs ≤ bno then
      if fs.desc.badino ≠ 0 ∧ c.ino = fs.desc.badino ∧ 2 ≤ bno ∧ bno < dstart then return true
      else
        modChk fun c => { c.err with badBlocks := inc32 c.badBlocks }
        return false
    else if getBit c.bmap (bno - dstart) then
      modChk fun c => { c.err with dupBlocks := inc32 c.dupBlocks }
      return false
    else
      modChk fun c => { c with bmap := putBit c.bmap (bno - dstart) true, usedBlocks := inc32 c.usedBlocks }
      return true

def markEach (f : Nat → MC Unit) : List Nat → MC Unit
  | [] => return ()
  | nb :: rest => do
    onlyIf (nb ≠ 0) (f nb)
    markEach f rest

/-- `filsys_mark_tree` with `child` for each entry. -/
def markWith (child : Nat → MC Unit) (blk : Nat) : MC Unit := do
  if blk = 0 then return ()
  else
    let first ← filsysMarkBlock blk
    if first then
      let fs ← eng getFs
      match ← eng (attempt (readBlock blk)) with
      | .error _ => modChk Chk.err
      | .ok buf => markEach child (entries fs.desc buf)
    else return ()

def filsysMarkTree : Nat → Nat → MC Unit
  | 0 => markWith fun nb => do let _ ← filsysMarkBlock nb
  | l + 1 => markWith (filsysMarkTree l)

/-- One slot: a data block, or an indirect block and all below it. -/
def markSlot (level : Option Nat) (bno : Nat) : MC Unit :=
  match level with
  | none => do let _ ← filsysMarkBlock bno
  | some level => filsysMarkTree level bno

/-- `filsys_mark_blocks` from slot `i` on. -/
def markSlots (ip : Inode) : Nat → Nat → MC Unit
  | 0, _ => return ()
  | todo + 1, i => do
    let d := (← eng getFs).desc
    onlyIf (ip.addr i ≠ 0) (markSlot (slotLevel d ip.mode i) (ip.addr i))
    markSlots ip todo (i + 1)

def filsysMarkBlocks (ip : Inode) : MC Unit := do
  let d := (← eng getFs).desc
  markSlots ip d.niaddr 0

/-- An inode in state `st`: counted, and its blocks marked where it can have any. -/
def markInode (st : InState) (ino : Nat) (ip : Inode) : MC Unit := do
  if st = .unalloc then return ()
  else
    modChk fun c => { c with usedInodes := inc32 c.usedInodes }
    if st = .unknown then modChk Chk.err
    else if st = .ichr ∨ st = .iblk then return ()
    else
      modChk fun c => { c with ino := ino }
      filsysMarkBlocks ip

/-- Pass 1: every inode's blocks; the inode states come back. -/
def markInodes : Nat → Nat → (Nat → InState) → MC (Nat → InState)
  | 0, _, state => return state
  | todo + 1, ino, state => do
    let d := (← eng getFs).desc
    match ← eng (attempt (readInode ino)) with
    | .error _ =>
      modChk Chk.err
      markInodes todo (ino + 1) state
    | .ok ip =>
      let st := inodeState d ino ip.mode
      markInode st ino ip
      markInodes todo (ino + 1) fun i => if i = ino then st else state i

/-! ## The allocator walks -/

/-- A free block is claimed, or was already. -/
def markFree (bno : Nat) : MC Unit := do
  let fs ← eng getFs
  let c ← getChk
  if getBit c.bmap (bno - v7DataFirst fs) then modChk fun c => { c.err with dupBlocks := inc32 c.dupBlocks }
  else modChk fun c => { c with
    bmap := putBit c.bmap (bno - v7DataFirst fs) true
    freeBlocks := inc32 c.freeBlocks }

/-- `v7_walk_free`: `n` entries of `cur` are left, `seen` were listed, `guard` entries read. -/
def walkFreeList : Nat → Nat → (Nat → Nat) → List Nat → Nat → MC Unit
  | 0, _, _, _, _ => throw .diverges
  | fuel + 1, n, cur, seen, guard => do
    let fs ← eng getFs
    if n = 0 then return ()
    else
      let bno := cur (n - 1)
      if bno = 0 then return ()
      else if bno < v7DataFirst fs ∨ fs.fsize ≤ bno then modChk Chk.err
      else if bno ∈ seen then modChk Chk.err
      else
        markFree bno
        if (fs.fsize + fs.desc.nicfree) % 2 ^ 32 < guard + 1 then modChk Chk.err
        else if n - 1 = 0 then
          match ← eng (attempt (v7fsReadBlock bno)) with
          | .error _ => modChk Chk.err
          | .ok blk =>
            let n' := chainNfree fs.desc blk
            if fs.desc.nicfree < n' then modChk Chk.err
            else walkFreeList fuel n' (chainFree fs.desc blk) (bno :: seen) (guard + 1)
        else walkFreeList fuel (n - 1) cur (bno :: seen) (guard + 1)

/-- `v8_walk_free_bitmap` from bit `i` on. -/
def walkFreeBitmap : Nat → Nat → MC Unit
  | 0, _ => return ()
  | todo + 1, i => do
    let fs ← eng getFs
    let blk := fs.v8Base + i
    onlyIf (getBit fs.v8Bits i ∧ v7DataFirst fs ≤ blk ∧ blk < fs.fsize) (markFree blk)
    walkFreeBitmap todo (i + 1)

/-- A block the map calls free; it counts as free even when it is used as well. -/
def markFreeBit (off : Nat) : MC Unit := do
  let c ← getChk
  modChk fun c => { c with freeBlocks := inc32 c.freeBlocks }
  if getBit c.bmap off then modChk fun c => { c.err with dupBlocks := inc32 c.dupBlocks }
  else modChk fun c => { c with bmap := putBit c.bmap off true }

/-- `v1_chk_walk_free` from block `b` on. -/
def v1WalkFree : Nat → Nat → MC Unit
  | 0, _ => return ()
  | todo + 1, b => do
    let fs ← eng getFs
    onlyIf (getBit fs.freemap b) (markFreeBit (b - v1DataStart fs.maxino))
    v1WalkFree todo (b + 1)

/-- Entries 1..`n` of a node; one outside the data area is an error. -/
def p7NodeMap (fl : Nat → Nat) (inside : Nat → Bool) : Nat → Buf → MC Buf
  | 0, freeb => return freeb
  | n + 1, freeb => do
    let freeb ← p7NodeMap fl inside n freeb
    let b := fl (n + 1)
    if b = 0 then return freeb
    else if inside b then return putBit freeb (b - p7Datastart) true
    else
      modChk Chk.err
      return freeb

/-- The free map of the PDP-7's node list from `head` on. -/
def p7FreeMap : Nat → Nat → Buf → MC Buf
  | 0, _, freeb => return freeb
  | guard + 1, head, freeb => do
    if head = 0 then return freeb
    else
      match ← eng (attempt (readWords head)) with
      | .error _ =>
        modChk Chk.err
        return freeb
      | .ok fl =>
        let inside := fun b => decide (p7Datastart ≤ b) && decide (b < p7Kdata)
        let freeb := if inside head then putBit freeb (head - p7Datastart) true else freeb
        let freeb ← p7NodeMap fl inside 9 freeb
        p7FreeMap guard (word18 (fl 0)) freeb

def p7WalkFree (freeb : Buf) : Nat → Nat → MC Unit
  | 0, _ => return ()
  | todo + 1, off => do
    onlyIf (getBit freeb off) (markFreeBit off)
    p7WalkFree freeb todo (off + 1)

/-- `ops->walk_free`. -/
def walkFree : MC Unit := do
  let fs ← eng getFs
  match fs.desc.ops with
  | .v1 => v1WalkFree (fs.fsize - v1DataStart fs.maxino) (v1DataStart fs.maxino)
  | .pdp7 =>
    let freeb ← p7FreeMap p7Nblocks fs.freelist zeroBuf
    p7WalkFree freeb (p7Kdata - p7Datastart) 0
  | _ =>
    if fs.desc.freemap ≠ .list then walkFreeBitmap fs.v8Nbits 0
    else walkFreeList (fs.fsize + fs.desc.nicfree + 2) fs.nfree fs.free [] 0

/-- Data blocks neither used nor free, from offset `off` on. -/
def countMissing : Nat → Nat → MC Unit
  | 0, _ => return ()
  | todo + 1, off => do
    let c ← getChk
    onlyIf (!getBit c.bmap off) (modChk fun c => { c.err with missingBlocks := inc32 c.missingBlocks })
    countMissing todo (off + 1)

/-- The superblock totals, where the format maintains them. -/
def checkTotals (maxino : Nat) : MC Unit := do
  let fs ← eng getFs
  let d := fs.desc
  if d.alloc = .freelist ∧ !d.sbCodec ∧ !d.isizeCount ∧ (!d.pack4 ∨ d.magic ≠ 0) then
    let c ← getChk
    onlyIf (c.freeBlocks ≠ fs.tfree) (modChk Chk.err)
    onlyIf ((maxino + 2 ^ 32 - c.usedInodes) % 2 ^ 32 ≠ fs.tinode) (modChk Chk.err)
  else return ()

/-! ## Directory link counts -/

/-- `ecount[dno]++`, sticking at 255. -/
def bumpCount (ecount : Nat → Nat) (dno : Nat) : Nat → Nat :=
  fun i => if i = dno then min 255 (ecount i + 1) else ecount i

/-- Count the entries of one directory; a read error ends its walk silently. -/
def countEntries (d : Desc) (maxino : Nat) (state : Nat → InState) (ip : Inode) :
    Nat → Iter → (Nat → Nat) → MC (Nat → Nat)
  | 0, _, _ => throw .diverges
  | fuel + 1, st, ecount => do
    match ← eng (inside ⟨ip, []⟩ (dirIter st)) with
    | (.error _, _) => return ecount
    | (.ok (none, _), _) => return ecount
    | (.ok (some (dno, name), st), _) =>
      if (d.synthDot ∧ (name = dot ∨ name = dotdot)) ∨ dno = 0 then
        countEntries d maxino state ip fuel st ecount
      else if maxino < dno then
        modChk Chk.err
        countEntries d maxino state ip fuel st ecount
      else
        onlyIf (state dno = .unalloc) (modChk Chk.err)
        countEntries d maxino state ip fuel st (bumpCount ecount dno)

def countDirs (maxino : Nat) (state : Nat → InState) : Nat → Nat → (Nat → Nat) → MC (Nat → Nat)
  | 0, _, ecount => return ecount
  | todo + 1, ino, ecount => do
    let d := (← eng getFs).desc
    match ← eng (attempt (readInode ino)) with
    | .error _ => countDirs maxino state todo (ino + 1) ecount
    | .ok ip =>
      if state ino = .idir then
        let ecount ← countEntries d maxino state ip (ip.size + 4) {} ecount
        countDirs maxino state todo (ino + 1) ecount
      else countDirs maxino state todo (ino + 1) ecount

/-- One inode's entries against its link count. -/
def compareCount (st : InState) (cnt ino : Nat) (ip : Inode) : MC Unit := do
  let d := (← eng getFs).desc
  if st ≠ .unalloc ∧ !modeIsDir d ip ∧ cnt = 0 ∧ ino ≠ d.rootino ∧ ino ≠ d.badino then
    modChk fun c => { c.err with orphaned := inc32 c.orphaned }
  else if (cnt : Int) = ip.nlink then return ()
  else if st = .unalloc ∧ cnt = 0 then return ()
  else if d.synthDot ∧ (st = .idir ∨ st = .ichr ∨ st = .iblk) then return ()
  else if d.synthDot ∧ ino = d.rootino then return ()
  else modChk Chk.err

def compareCounts (state : Nat → InState) (ecount : Nat → Nat) : Nat → Nat → MC Unit
  | 0, _ => return ()
  | todo + 1, ino => do
    match ← eng (attempt (readInode ino)) with
    | .error _ => compareCounts state ecount todo (ino + 1)
    | .ok ip =>
      compareCount (state ino) (ecount ino) ino ip
      compareCounts state ecount todo (ino + 1)

/-- The bytes of `cx.bmap`: `(nblk + 7) / 8` in 32 bits, none for the seven largest data areas. -/
def mapBytes (fs : Fs) : Nat := (opsDataEnd fs - opsDataStart fs + 7) % 2 ^ 32 / 8

/-- After the first pass: has a map of no bytes been used, or is it about to be? The pass has used it
    where it claimed a block; it is used next unless the check ends here. -/
def mapOverrun (fs : Fs) (c : Chk) : Bool := mapBytes fs = 0 && (c.usedBlocks ≠ 0 || c.badBlocks ≤ 10)

/-- `filsys_check_common` with neither salvage nor repair asked for; 0 is `true`. -/
def filsysCheckCommon : MC Bool := do
  let fs ← eng getFs
  let maxino := opsMaxino fs
  let dstart := opsDataStart fs
  let dend := opsDataEnd fs
  if dend ≤ dstart then
    modChk Chk.err
    return false
  else
    let state ← markInodes maxino 1 fun _ => .unalloc
    let c ← getChk
    if mapOverrun fs c then throw .overrun
    else if 10 < c.badBlocks then return false
    else
      walkFree
      countMissing (dend - dstart) 0
      checkTotals maxino
      let ecount ← countDirs maxino state maxino 1 fun _ => 0
      compareCounts state ecount maxino 1
      let c ← getChk
      return decide (c.errors = 0)

end Filsys.Engine
