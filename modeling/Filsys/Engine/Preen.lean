/-
  Filsys.Engine.Preen — the repairs of a check (check.c).

  `filsysPreen` makes the recovery directory where there is none, clears inodes that are
  free but named, reconnects those in use without a name and corrects link counts. It
  works from what the check found before any of this was done: `state`, the type of each
  inode, and `ecount`, the entries that name it.

  `ask` stands for `filsys_query`: the answer to the one question a run puts about an
  inode, always yes under -p and -y. No repair looks at a return code that is discarded
  here.
-/

import Filsys.Engine.Check
import Filsys.Engine.Ops

namespace Filsys.Engine

open Filsys.Lib

/-! ## Kinds and names -/

/-- `is_regular`: neither a directory nor a device; symbolic links carry data too. -/
def isRegular (d : Desc) (ip : Inode) : Bool :=
  match d.ops with
  | .v1 => !modeIsDir d ip && !modeIsDevice d ip
  | .pdp7 => !modeIsDir d ip && !modeIsDevice d ip
  | _ =>
    let t := ip.mode &&& d.ifmt
    t == d.ifreg || (d.iflnk != 0 && t == d.iflnk)

/-- `dir_mode`: the mode of a new recovery directory. -/
def dirMode (d : Desc) : Nat :=
  match d.ops with
  | .v1 => modeToDisk d 0o777 .dir
  | .pdp7 => modeToDisk d 0o777 .dir
  | _ => 0o777 ||| d.ifdir

/-- `lostfils` where `lost+found` is too long. -/
def lostName (d : Desc) : Name :=
  if d.maxNamlen < 10 then [108, 111, 115, 116, 102, 105, 108, 115]
  else [108, 111, 115, 116, 43, 102, 111, 117, 110, 100]

/-- `snprintf("%u")`. -/
def decimal (n : Nat) : Name := (Nat.toDigits 10 n).map fun c => UInt8.ofNat c.toNat

/-! ## The recovery directory -/

/-- The new directory's record and entries; `root` is the caller's copy of the root. -/
def fillLostFound (root : Inode) (lfIno : Nat) : M Unit := do
  let d := (← getFs).desc
  let lf : Inode := { ino := lfIno, mode := dirMode d, nlink := 2 }
  let _ ← attempt (writeInode lfIno lf)
  onlyIf (!d.synthDot) do
    let (_, lf) ← onIp lf (dirAdd lfIno dot)
    let _ ← onIp lf (dirAdd d.rootino dotdot)
    return ()
  let (_, root) ← onIp root (dirAdd lfIno (lostName d))
  let _ ← attempt (writeInode d.rootino (mod16 root 1))
  return ()

/-- The recovery directory's number, 0 for none, and whether it is new. -/
def lostFound : M (Nat × Bool) := do
  let d := (← getFs).desc
  match ← attempt (readInode d.rootino) with
  | .error _ => return (0, false)
  | .ok root =>
    let (rc, root) ← onIp root (dirLookup (lostName d))
    match rc with
    | .ok ino => return (ino, false)
    | .error _ =>
      match ← attempt ialloc with
      | .error _ => return (0, false)
      | .ok lfIno =>
        fillLostFound root lfIno
        return (lfIno, true)

/-! ## One inode -/

def clearInode (ino : Nat) (ip : Inode) : M Unit := do
  let _ ← attempt (writeInode ino { ip with mode := 0, nlink := 0 })
  return ()

/-- Enter an orphan under its number. -/
def reconnect (lfIno ino : Nat) (ip : Inode) : M Unit := do
  match ← attempt (readInode lfIno) with
  | .error _ => return ()
  | .ok lf =>
    match ← onIp lf (dirAdd ino (decimal ino)) with
    | (.error _, _) => return ()
    | (.ok _, lf) =>
      let _ ← attempt (writeInode ino { ip with nlink := 1 })
      let _ ← attempt (writeInode lfIno lf)
      return ()

/-- Enter an orphaned directory, its `..` naming the recovery directory first. -/
def reconnectDir (lfIno ino : Nat) (ip : Inode) : M Unit := do
  match ← attempt (readInode lfIno) with
  | .error _ => return ()
  | .ok lf =>
    match ← onIp ip (dirRemove dotdot) with
    | (.error _, _) => return ()
    | (.ok _, ip) =>
      match ← onIp ip (dirAdd lfIno dotdot) with
      | (.error _, _) => return ()
      | (.ok _, ip) =>
        match ← onIp lf (dirAdd ino (decimal ino)) with
        | (.error _, _) => return ()
        | (.ok _, lf) =>
          let _ ← attempt (writeInode ino { ip with nlink := 2 })
          let _ ← attempt (writeInode lfIno (mod16 lf 1))
          return ()

/-- What the check found and what the operator says. -/
structure Orders where
  state : Nat → InState
  ecount : Nat → Nat
  ask : Nat → Bool

/-- One turn of the repair loop. -/
def preenTurn (o : Orders) (lfIno ino : Nat) : M Unit := do
  let d := (← getFs).desc
  let cnt := o.ecount ino % 256
  match ← attempt (readInode ino) with
  | .error _ => return ()
  | .ok ip =>
    if o.state ino = .unalloc then onlyIf (cnt ≠ 0 ∧ o.ask ino) (clearInode ino ip)
    else if (cnt : Int) = ip.nlink ∧ cnt ≠ 0 then return ()
    -- the root's and the recovery directory's counts come last; the bad-block inode has no name
    else if ino = d.rootino ∨ ino = lfIno ∨ ino = d.badino then return ()
    else if cnt = 0 then
      if lfIno = 0 then return ()
      else if isRegular d ip then onlyIf (o.ask ino) (reconnect lfIno ino ip)
      else onlyIf (o.ask ino) (clearInode ino ip)
    else if cnt = 1 ∧ o.state ino = .idir ∧ !d.synthDot ∧ lfIno ≠ 0 then
      onlyIf (o.ask ino) (reconnectDir lfIno ino ip)
    else if d.synthDot ∧ !isRegular d ip then return ()
    else onlyIf (o.ask ino) do
      let _ ← attempt (writeInode ino { ip with nlink := cnt })
      return ()

/-- The repair loop from inode `ino` on. -/
def preenLoop (o : Orders) (lfIno : Nat) : Nat → Nat → M Unit
  | 0, _ => return ()
  | todo + 1, ino => do
    preenTurn o lfIno ino
    preenLoop o lfIno todo (ino + 1)

/-! ## Link counts -/

/-- The entries of one directory that name `target`, on top of `cnt`. -/
def countNamed (d : Desc) (target : Nat) (ip : Inode) : Nat → Iter → Nat → M Nat
  | 0, _, _ => throw .diverges
  | fuel + 1, st, cnt => do
    match ← inside ⟨ip, []⟩ (dirIter st) with
    | (.error _, _) => return cnt
    | (.ok (none, _), _) => return cnt
    | (.ok (some (eino, name), st), _) =>
      if d.synthDot ∧ (name = dot ∨ name = dotdot) then countNamed d target ip fuel st cnt
      else countNamed d target ip fuel st (if eino = target then inc32 cnt else cnt)

def countLinksFrom (target : Nat) : Nat → Nat → Nat → M Nat
  | 0, _, cnt => return cnt
  | todo + 1, ino, cnt => do
    let d := (← getFs).desc
    match ← attempt (readInode ino) with
    | .error _ => countLinksFrom target todo (ino + 1) cnt
    | .ok ip =>
      if modeIsDir d ip then
        let cnt ← countNamed d target ip (ip.size + 4) {} cnt
        countLinksFrom target todo (ino + 1) cnt
      else countLinksFrom target todo (ino + 1) cnt

/-- `count_links_to`. -/
def countLinksTo (target maxino : Nat) : M Nat := countLinksFrom target maxino 1 0

/-- The link count of a directory, from the entries that name it now. -/
def recount (maxino target : Nat) : M Unit := do
  if target = 0 then return ()
  else
    match ← attempt (readInode target) with
    | .error _ => return ()
    | .ok ip =>
      let want ← countLinksTo target maxino
      if (want : Int) = ip.nlink % 2 ^ 32 then return ()
      else
        let _ ← attempt (writeInode target { ip with nlink := toInt16 want })
        return ()

/-! ## The pass -/

/-- What follows once the recovery directory's number is known. -/
def preenRest (o : Orders) (maxino lfIno : Nat) : M Unit := do
  let d := (← getFs).desc
  preenLoop o lfIno maxino 1
  onlyIf (!d.synthDot) do
    recount maxino d.rootino
    recount maxino lfIno

def filsysPreen (o : Orders) (maxino : Nat) : M Unit := do
  let (lfIno, _) ← lostFound
  preenRest o maxino lfIno

/-- `filsys_check_common` with repairs asked for, on a volume that is not marked clean or with -f. -/
def filsysCheckRepair (ask : Nat → Bool) : MC Bool := do
  let fs ← eng getFs
  let maxino := opsMaxino fs
  let dstart := opsDataStart fs
  let dend := opsDataEnd fs
  if dend ≤ dstart then
    modChk Chk.err
    return false
  else
    let state ← markInodes maxino 1 fun _ => .unalloc
    let c ← getChk
    if mapOverrun fs c then throw .overrun
    else if 10 < c.badBlocks then return false
    else
      walkFree
      countMissing (dend - dstart) 0
      checkTotals maxino
      let ecount ← countDirs maxino state maxino 1 fun _ => 0
      compareCounts state ecount maxino 1
      eng (filsysPreen ⟨state, ecount, ask⟩ maxino)
      let c ← getChk
      return decide (c.errors = 0)

end Filsys.Engine
