/-
  Filsys.Engine.Ops — the node-anchored operations (filsys.c).

  Each mutation reads and checks first, then changes the disk in an order that leaves a
  leak or a wrong link count, rather than a block or inode claimed twice, when it stops
  half way. Decoded inodes are locals of the C functions: a nested call may write an
  inode whose older copy the caller still holds, so every copy is passed and returned
  explicitly.
-/

import Filsys.Engine.File

namespace Filsys.Engine

open Filsys.Lib

/-- Run a file or directory routine on the inode copy `ip`; the copy comes back. -/
def onIp {α : Type} (ip : Inode) (x : MI α) : M (Except Errno α × Inode) := do
  let (rc, l) ← inside ⟨ip, []⟩ x
  return (rc, l.ip)

/-- A routine whose changes to the copy are not looked at again. -/
def withIp {α : Type} (ip : Inode) (x : MI α) : M α := do
  match (← onIp ip x).1 with
  | .ok a => return a
  | .error e => throw e

def lookupIn (ip : Inode) (name : Name) : M Nat := withIp ip (dirLookup name)

/-- Collect into a fresh block list: the outcome, the copy and the list. -/
def collectOn (ip : Inode) (x : MI Unit) : M (Except Errno Unit × Loc) := inside ⟨ip, []⟩ x

def uidgidFit (uid gid : Nat) : Bool := decide (uid ≤ 32767) && decide (gid ≤ 32767)

def mod16 (ip : Inode) (k : Int) : Inode := { ip with nlink := toInt16 (ip.nlink + k) }

/-! ## Inode lifetime -/

def inodeDestroy (ino : Nat) (ip : Inode) : M Unit := do
  let (rc, l) ← collectOn ip filsysItrunc
  match rc with
  | .error e => throw e
  | .ok _ =>
    writeInode ino { l.ip with mode := 0 }
    blklistDrain l.bl
    ifree ino

def filsysFreeIno (ino : Nat) : M Unit := do
  let ip ← failAs .eio (readInode ino)
  inodeDestroy ino ip

def inodeCreate (mode uid gid : Nat) (type : FileType) (rdev : Nat) : M (Nat × Inode) := do
  let d := (← getFs).desc
  let ino ← ialloc
  let now ← timeNow
  let ip : Inode := {
    ino := ino
    mode := modeToDisk d mode type
    nlink := if type = .dir then 2 else 1
    uid := toInt16 uid
    gid := toInt16 gid
    atime := now
    mtime := now
    ctime := now
    addr := fun i => if i = 0 then rdev else 0 }
  match ← attempt (writeInode ino ip) with
  | .ok _ => return (ino, ip)
  | .error e =>
    ifree ino
    throw e

/-- `inode_create` once the record is made up. -/
def storeNew (ino : Nat) (ip : Inode) : M (Nat × Inode) := do
  match ← attempt (writeInode ino ip) with
  | .ok _ => return (ino, ip)
  | .error e =>
    ifree ino
    throw e

/-! ## Reading -/

def filsysWalk (ino : Nat) (name : Name) : M Nat := do
  let d := (← getFs).desc
  if d.maxNamlen < name.length then throw .enametoolong
  else
    let dip ← readInode ino
    if modeIsDir d dip then lookupIn dip name else throw .enotdir

/-- Is every entry from the iterator on `.` or `..`? -/
def onlyDots : Nat → Iter → MI Bool
  | 0, _ => throw .diverges
  | fuel + 1, st => do
    match ← dirIter st with
    | (none, _) => return true
    | (some (_, name), st) => if name = dot ∨ name = dotdot then onlyDots fuel st else return false

def dirIsEmpty (ino : Nat) : M Bool := do
  let d := (← getFs).desc
  let ip ← readInode ino
  if !modeIsDir d ip then throw .enotdir
  else if maxFile d < ip.size then throw .efbig
  else withIp ip (onlyDots (ip.size + 4) {})

def filsysReadIno (ino size : Nat) (off : Int) : M (Nat × Buf) := do
  let ip ← readInode ino
  withIp ip (filsysFileRead size off)

/-! ## Writing and truncating -/

/-- Undo what a failed write allocated past the old end. -/
def writeRollback (ino : Nat) (ip : Inode) (oldsize : Nat) : M Unit := do
  let bsize := (← getFs).desc.bsize
  let firstBlk := if oldsize = 0 then 0 else (oldsize - 1) / bsize + 1
  let (rc, l) ← collectOn ip (filsysItruncFrom firstBlk)
  match rc with
  | .error e => throw e
  | .ok _ =>
    writeInode ino l.ip
    blklistDrain l.bl

def filsysWriteIno (ino : Nat) (buf : Buf) (size : Nat) (off : Int) : M Nat := do
  let d := (← getFs).desc
  let ip ← readInode ino
  if off < 0 then throw .einval
  else if maxFile d < off.toNat + size then throw .efbig
  else
    match ← onIp ip (filsysFileWrite buf size off) with
    | (.ok n, _) => return n
    | (.error e, ip') =>
      writeRollback ino ip' ip.size
      throw e

/-- Zero the tail of the last surviving block, unless it is a hole. -/
def zeroTail (ip : Inode) (newsize tail last : Nat) : M Inode := do
  if newsize < tail then
    let (rc, ip) ← onIp ip (filsysBmap last false)
    match rc with
    | .ok bno =>
      if bno ≠ 0 then
        match ← onIp ip (filsysFileWrite zeroBuf (tail - newsize) newsize) with
        | (.ok _, ip) => return ip
        | (.error e, _) => throw e
      else return ip
    | .error _ => return ip
  else return ip

def truncateInode (ino : Nat) (ip : Inode) (size : Int) : M Unit := do
  let d := (← getFs).desc
  if size < 0 ∨ (maxFile d : Int) < size then throw .efbig
  else
    let newsize := size.toNat
    let oldsize := ip.size
    if newsize = oldsize then return ()
    else if newsize < oldsize then
      let last := if newsize = 0 then 0 else (newsize - 1) / d.bsize
      let blkEnd := if newsize = 0 then 0 else (last + 1) * d.bsize % 2 ^ 32
      let ip ← zeroTail ip newsize (min oldsize blkEnd) last
      let (rc, l) ← collectOn ip (filsysItruncFrom (if newsize = 0 then 0 else last + 1))
      match rc with
      | .error e => throw e
      | .ok _ =>
        writeInode ino { l.ip with size := newsize }
        blklistDrain l.bl
    else writeInode ino { ip with size := newsize }

def filsysTruncateIno (ino : Nat) (size : Int) : M Unit := do
  let ip ← readInode ino
  truncateInode ino ip size

/-! ## Mapping -/

/-- What `filsys_bmap_ino` answers: an image address, a length, and whether blocks are there or a hole. -/
structure Extent where
  paddr : Nat
  plen : Nat
  mapped : Bool
  deriving DecidableEq

/-- The block `filsys_bmap_ino` expects after `bno`, a 32-bit number. -/
def expected (bno : Nat) : Nat := if bno = 0 then 0 else (bno + 1) % 2 ^ 32

/-- The loop of `filsys_bmap_ino`; `none` while it is still running after so many rounds. -/
def extendExtent (len : Nat) : Nat → Nat → Nat → Nat → MI (Option Nat)
  | 0, _, _, _ => return none
  | rounds + 1, cur, expect, plen => do
    if len ≤ plen then return some plen
    else
      let bsize := (← up getFs).desc.bsize
      match ← attempt (filsysBmap cur false) with
      | .error _ => return some plen
      | .ok nb =>
        if nb ≠ expect then return some plen
        else
          let chunk := if len < (plen + bsize) % 2 ^ 64 then len - plen else bsize
          extendExtent len rounds ((cur + 1) % 2 ^ 32) (expected nb) ((plen + chunk) % 2 ^ 64)

def bmapExtent (rounds off len : Nat) : MI (Option Extent) := do
  let bsize := (← up getFs).desc.bsize
  let lbn := off / bsize % 2 ^ 32
  let boff := off % bsize
  let bno ← filsysBmap lbn false
  let plen ← extendExtent len rounds ((lbn + 1) % 2 ^ 32) (expected bno) (min (bsize - boff) len)
  return plen.map fun plen => ⟨bno * bsize + boff, plen, bno ≠ 0⟩

def filsysBmapIno (rounds ino off len : Nat) : M (Option Extent) := do
  let ip ← readInode ino
  withIp ip (bmapExtent rounds off len)

/-! ## Attributes -/

/-- `none` leaves the id alone. -/
def filsysChownIno (ino : Nat) (uid gid : Option Nat) : M Unit := do
  if uidgidFit (uid.getD 0) (gid.getD 0) then
    let ip ← readInode ino
    let now ← timeNow
    writeInode ino { ip with
      uid := match uid with | some u => toInt16 u | none => ip.uid
      gid := match gid with | some g => toInt16 g | none => ip.gid
      ctime := now }
  else throw .einval

/-! ## Creating names -/

def preflightCreate (ddir : Inode) (name : Name) : M Unit := do
  let d := (← getFs).desc
  if !modeIsDir d ddir then throw .enotdir
  else if name = dot ∨ name = dotdot then throw .eexist
  else
    match ← attempt (lookupIn ddir name) with
    | .ok _ => throw .eexist
    | .error .enoent => return ()
    | .error e => throw e

/-- Take back a name a failed `dir_add` may have left; success means it is gone. -/
def withdrawName (dino : Nat) (name : Name) (nino : Nat) : M Unit := do
  let fresh ← readInode dino
  match ← onIp fresh (dirLookup name) with
  | (.error .enoent, _) => return ()
  | (.error e, _) => throw e
  | (.ok found, fresh) => if found ≠ nino then return () else withIp fresh (dirRemove name)

/-- Enter a new inode's name; on failure withdraw it and tear the inode down. -/
def addOrDestroy (dir : Nat) (ddir : Inode) (name : Name) (nino : Nat) (nip : Inode) : M Unit := do
  match (← onIp ddir (dirAdd nino name)).1 with
  | .ok _ => return ()
  | .error e =>
    match ← attempt (withdrawName dir name nino) with
    | .ok _ =>
      let _ ← attempt (inodeDestroy nino nip)
      throw e
    | .error _ => throw e

def filsysCreateIn (dir : Nat) (name : Name) (mode uid gid : Nat) : M Nat := do
  if uidgidFit uid gid then
    let ddir ← readInode dir
    preflightCreate ddir name
    let (nino, nip) ← inodeCreate mode uid gid .reg 0
    addOrDestroy dir ddir name nino nip
    return nino
  else throw .einval

/-- The `fail:` tail of `filsys_mkdir_in`; `rc` is what the call returns. -/
def mkdirFail (nino : Nat) (nip : Inode) (rc : Option Errno) : M Unit := do
  let (_, l) ← collectOn nip filsysItrunc
  let wrc ← attempt (writeInode nino { l.ip with mode := 0 })
  onlyIf wrc.isOk do
    blklistDrain l.bl
    ifree nino
  match rc with
  | some e => throw e
  | none => return ()

/-- The new directory's own entries are in; enter it in its parent. -/
def mkdirEnter (dir : Nat) (ddir : Inode) (name : Name) (nino : Nat) (nip : Inode) : M Unit := do
  match ← onIp ddir (dirAdd nino name) with
  | (.error e, _) =>
    match ← attempt (withdrawName dir name nino) with
    | .ok _ => mkdirFail nino nip (some e)
    | .error _ => throw e
  | (.ok _, ddir) =>
    match ← attempt (writeInode dir (mod16 ddir 1)) with
    | .ok _ => return ()
    | .error _ =>
      match ← onIp (mod16 (mod16 ddir 1) (-1)) (dirRemove name) with
      | (.error e, _) => throw e
      -- the C variable `rc` is zero here: the failed mkdir reports success
      | (.ok _, _) => mkdirFail nino nip none

def filsysMkdirIn (dir : Nat) (name : Name) (mode uid gid : Nat) : M Unit := do
  if uidgidFit uid gid then
    let ddir ← readInode dir
    preflightCreate ddir name
    let (nino, nip) ← inodeCreate mode uid gid .dir 0
    match ← onIp nip (dirAdd nino dot) with
    | (.error e, nip) => mkdirFail nino nip (some e)
    | (.ok _, nip) =>
      match ← onIp nip (dirAdd dir dotdot) with
      | (.error e, nip) => mkdirFail nino nip (some e)
      | (.ok _, nip) => mkdirEnter dir ddir name nino nip
  else throw .einval

/-- `S_IFMT` of the `mode` argument. -/
def posixType (mode : Nat) : Option Kind :=
  if mode &&& 0o170000 = 0o020000 then some .chr
  else if mode &&& 0o170000 = 0o060000 then some .blk
  else if mode &&& 0o170000 = 0o100000 then some .reg
  else none

def filsysMknodIn (dir : Nat) (name : Name) (mode rdev uid gid : Nat) : M Unit := do
  let s ← get
  if !uidgidFit uid gid then throw .einval
  else if s.edition = .v1 then throw .eperm
  else
    match posixType mode with
    | some .reg =>
      let _ ← filsysCreateIn dir name (mode &&& 0o7777) uid gid
      return ()
    | some k =>
      let ddir ← readInode dir
      preflightCreate ddir name
      let (nino, nip) ← inodeCreate mode uid gid (if k = .blk then .blk else .chr) rdev
      addOrDestroy dir ddir name nino nip
    | none => throw .eperm

def filsysSymlinkIn (target : Name) (dir : Nat) (name : Name) : M Unit := do
  let s ← get
  if s.fs.desc.iflnk = 0 then throw .enosys
  else if !uidgidFit s.uid s.gid then throw .einval
  else
    let ddir ← readInode dir
    preflightCreate ddir name
    let (nino, nip) ← inodeCreate 0o777 s.uid s.gid .lnk 0
    match ← onIp nip (filsysFileWrite (poke zeroBuf 0 target) target.length 0) with
    | (.error e, nip) =>
      let _ ← attempt (inodeDestroy nino nip)
      throw e
    | (.ok _, nip) => addOrDestroy dir ddir name nino nip

/-! ## Removing names -/

def filsysUnlinkIn (dir : Nat) (name : Name) (defer : Bool) : M Unit := do
  let ddir ← readInode dir
  let ino ← lookupIn ddir name
  let ip ← failAs .eio (readInode ino)
  withIp ddir (dirRemove name)
  let ip := mod16 ip (-1)
  if ip.nlink ≤ 0 ∧ !defer then inodeDestroy ino ip else writeInode ino ip

def filsysRmdirIn (dir : Nat) (name : Name) : M Unit := do
  let d := (← getFs).desc
  let ddir ← readInode dir
  let ino ← lookupIn ddir name
  let tip ← failAs .eio (readInode ino)
  if !modeIsDir d tip then throw .enotdir
  else
    let empty ← dirIsEmpty ino
    if !empty then throw .enotempty
    else
      let tip := mod16 tip (-1)
      if 1 < tip.nlink then
        -- still linked elsewhere: drop just this name
        withIp ddir (dirRemove name)
        writeInode ino tip
      else
        withIp (mod16 ddir (-1)) (dirRemove name)
        inodeDestroy ino tip

/-! ## Links and renames -/

/-- `dir_ancestor`: does the walk up from `cur` meet `anc` before the root? -/
def dirAncestor (anc : Nat) : Nat → Nat → M Bool
  | 0, _ => throw .eloop
  | guard + 1, cur => do
    let d := (← getFs).desc
    if cur = d.rootino ∨ cur = 0 then return false
    else if cur = anc then return true
    else
      let ip ← readInode cur
      let next ← lookupIn ip dotdot
      dirAncestor anc guard next

/-- A directory must not enter its own subtree. -/
def refuseCycle (isdir : Bool) (src dir : Nat) : M Unit := do
  if isdir then
    let a ← dirAncestor src 65536 dir
    if a then throw .einval else return ()
  else return ()

def filsysLinkIn (src dir : Nat) (name : Name) : M Unit := do
  let d := (← getFs).desc
  let ddir ← readInode dir
  let ip ← failAs .eio (readInode src)
  refuseCycle (modeIsDir d ip) src dir
  match ← onIp ddir (dirAdd src name) with
  | (.error e, _) => throw e
  | (.ok _, ddir) =>
    match ← attempt (writeInode src (mod16 ip 1)) with
    | .ok _ => return ()
    | .error e =>
      withIp ddir (dirRemove name)
      throw e

/-- What rename removed from the target directory. -/
structure Target where
  ino : Nat
  saved : Inode
  isdir : Bool
  /-- The target lost its last name and is to be freed at the end. -/
  free : Bool
  /-- The target directory's copy after the removal. -/
  tdirip : Inode

/-- Check the target name and take it away; `none` when the names already agree. -/
def renameTarget (sino : Nat) (isdir : Bool) (tdirip : Inode) (tname : Name) (noreplace : Bool) :
    M (Option (Option Target)) := do
  let d := (← getFs).desc
  match ← onIp tdirip (dirLookup tname) with
  | (.error _, _) => return some none
  | (.ok tino, tdirip) =>
    if noreplace then throw .eexist
    else if tino = sino then return none
    else
      let tip ← failAs .eio (readInode tino)
      let tisdir := modeIsDir d tip
      if isdir && !tisdir then throw .enotdir
      else if !isdir && tisdir then throw .eisdir
      else
        onlyIf tisdir do
          let empty ← dirIsEmpty tino
          onlyIf (!empty) (throw .enotempty)
        match ← onIp tdirip (dirRemove tname) with
        | (.error e, _) => throw e
        | (.ok _, tdirip) =>
          if tisdir then return some (some ⟨tino, tip, true, true, tdirip⟩)
          else
            let tip' := mod16 tip (-1)
            match ← attempt (writeInode tino tip') with
            | .ok _ => return some (some ⟨tino, tip, false, tip'.nlink == 0, tdirip⟩)
            | .error e =>
              let _ ← onIp tdirip (dirAdd tino tname)
              throw e

/-- Put the removed target back, best effort. -/
def renameRestore (t : Option Target) (tname : Name) : M Unit := do
  match t with
  | none => return ()
  | some t =>
    let _ ← onIp t.tdirip (dirAdd t.ino tname)
    let _ ← attempt (writeInode t.ino t.saved)
    return ()

/-- `nlink` of a parent moved by `k`, if it can be read; a decrement stops at one. -/
def bumpParent (dir : Nat) (k : Int) : M Unit := do
  match ← attempt (readInode dir) with
  | .ok ip => writeInode dir (if k < 0 ∧ ip.nlink ≤ 1 then ip else mod16 ip k)
  | .error _ => return ()

/-- The link counts and `..` of a moved directory. -/
def renameDirFixups (sino sdir tdir : Nat) (tisdir : Bool) : M Unit := do
  onlyIf (sdir ≠ tdir) do
    bumpParent sdir (-1)
    bumpParent tdir 1
  onlyIf tisdir (bumpParent tdir (-1))
  match ← attempt (readInode sino) with
  | .ok cip =>
    match ← onIp cip (dirRemove dotdot) with
    | (.error e, _) => throw e
    | (.ok _, cip) => withIp cip (dirAdd tdir dotdot)
  | .error _ => return ()

def filsysRenameIn (sdir : Nat) (sname : Name) (tdir : Nat) (tname : Name) (flags : Nat)
    (defer : Bool) : M Unit := do
  let d := (← getFs).desc
  if flags / 2 ≠ 0 then throw .einval
  else if sdir = tdir ∧ sname = tname then return ()
  else
    let sdirip ← readInode sdir
    let sino ← lookupIn sdirip sname
    let sip ← failAs .eio (readInode sino)
    let isdir := modeIsDir d sip
    let tdirip ← failAs .eio (readInode tdir)
    refuseCycle isdir sino tdir
    match ← renameTarget sino isdir tdirip tname (flags % 2 == 1) with
    | none => return ()
    | some t =>
      match ← attempt (filsysLinkIn sino tdir tname) with
      | .error e =>
        renameRestore t tname
        throw e
      | .ok _ =>
        match ← attempt (filsysUnlinkIn sdir sname false) with
        | .error e =>
          let _ ← attempt (filsysUnlinkIn tdir tname false)
          renameRestore t tname
          throw e
        | .ok _ =>
          onlyIf isdir (renameDirFixups sino sdir tdir (t.any (·.isdir)))
          match t with
          | none => return ()
          | some t =>
            if t.free ∧ !defer then
              let _ ← attempt (inodeDestroy t.ino t.saved)
              return ()
            else return ()

end Filsys.Engine
