/-
  Filsys.Engine.Path — paths (filsys_path.c).

  The engine never sees a path; the functions here split one and walk it from the root.
-/

import Filsys.Engine.Ops

namespace Filsys.Engine

open Filsys.Lib

/-- The non-empty components of a path; `cur` is the component being read. -/
def components : Name → Name → List Name
  | [], cur => if cur = [] then [] else [cur]
  | c :: cs, cur =>
    if c = slash then (if cur = [] then components cs [] else cur :: components cs [])
    else components cs (cur ++ [c])

/-- `split_path`: what stands before the last slash (at least `/`) and after it. -/
def splitPath (path : Name) (namesz : Nat) : Except Errno (Name × Name) :=
  if slash ∈ path then
    let name := (path.reverse.takeWhile (· ≠ slash)).reverse
    let dir := path.take (path.length - name.length - 1)
    let dir := if dir = [] then path.take 1 else dir
    if 4096 ≤ dir.length then .error .enametoolong
    else if name = [] then .error .einval
    else if namesz ≤ name.length then .error .enametoolong
    else .ok (dir, name)
  else .error .einval

def walkAll : List Name → Nat → M Nat
  | [], cur => return cur
  | name :: rest, cur => do
    if 64 ≤ name.length then throw .enametoolong
    else
      let next ← filsysWalk cur name
      walkAll rest next

/-- `path_lookup` without an inode wanted. -/
def pathLookup (path : Name) : M Nat := do
  let d := (← getFs).desc
  if path.head? = some slash then walkAll (components (path.drop 1) []) d.rootino else throw .einval

/-- `path_lookup` with the inode. -/
def pathInode (path : Name) : M (Nat × Inode) := do
  let ino ← pathLookup path
  let ip ← readInode ino
  return (ino, ip)

/-- `split_path` with the edition's name limit. -/
def splitM (path : Name) : M (Name × Name) := do
  let d := (← getFs).desc
  match splitPath path (d.maxNamlen + 1) with
  | .ok r => return r
  | .error e => throw e

end Filsys.Engine
