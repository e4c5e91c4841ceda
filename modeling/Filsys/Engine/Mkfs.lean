/-
  Filsys.Engine.Mkfs — making a PDP-7 volume (filsys_mkfs.c).

  The pool of free blocks is an array popped from its end, so it is kept here as a list
  with the last block first. Nothing is mounted while a volume is made: blocks go to the
  file where they belong, and the file grows as they come.
-/

import Filsys.Engine.Mount

namespace Filsys.Engine

open Filsys.Lib

/-- `p7_pblock`. -/
def p7Pblock (bno : Nat) (words : Nat → Nat) : M Unit := do
  let fs ← getFs
  let wc := wordOps fs.desc
  failAs .eio (ioWrite .block (wc.putAll words 64 zeroBuf) wc.blockBytes (fs.base + bno * wc.blockBytes))

/-- `p7_take_free`: the last block of the pool and the pool without it. -/
def p7TakeFree (pool : List Nat) : M (Nat × List Nat) :=
  match pool with
  | [] => throw .enospc
  | b :: pool => return (b, pool)

/-- Words `i, …, i + todo - 1` of a node get a block of the pool each, as long as there are any. -/
def p7FillNode : Nat → Nat → List Nat → (Nat → Nat) → List Nat × (Nat → Nat)
  | 0, _, pool, words => (pool, words)
  | _ + 1, _, [], words => ([], words)
  | todo + 1, i, f :: pool, words => p7FillNode todo (i + 1) pool fun j => if j = i then f else words j

/-- Nodes taken from the pool, each before the list `h` there is; every round takes a block at least. -/
def p7BuildNodes : Nat → List Nat → Nat → M Nat
  | 0, _, h => return h
  | _ + 1, [], h => return h
  | rounds + 1, fb :: pool, h => do
    let node := p7FillNode 9 1 pool fun i => if i = 0 then h else 0
    p7Pblock fb node.2
    p7BuildNodes rounds node.1 fb

/-- `p7_build_freelist`. -/
def p7BuildFreelist (pool : List Nat) : M Nat := p7BuildNodes pool.length pool 0

/-- Blocks `b, …, b + todo - 1` zeroed. -/
def p7ZeroBlocks : Nat → Nat → M Unit
  | 0, _ => return ()
  | todo + 1, b => do
    p7Pblock b fun _ => 0
    p7ZeroBlocks todo (b + 1)

/-- Inode 4, an empty directory; its words begin at word 48. -/
def p7RootInode (rb : Nat) : Nat → Nat := fun w =>
  if w = p7Itoo 4 then 0o400000 + 0o20 + 0o10 + 0o4 + 0o2
  else if w = p7Itoo 4 + 1 then rb
  else if w = p7Itoo 4 + 9 then 0o777777
  else if w = p7Itoo 4 + 11 then 1
  else 0

/-- The pool of a new volume: data blocks 712 to 6399, the last first. -/
@[irreducible] def p7NewPool : List Nat := (List.range' p7Datastart (p7Kdata - p7Datastart)).reverse

def mkfsPdp7 : M Unit := do
  let (rb, pool) ← p7TakeFree p7NewPool
  p7Pblock rb fun _ => 0
  let head ← p7BuildFreelist pool
  p7Pblock 0 fun i => if i = 0 then head else 0
  p7ZeroBlocks (p7Datastart - 2) 2
  p7Pblock (p7Itod 4) (p7RootInode rb)
  modFs fun fs => { fs with fsize := p7Nblocks }

end Filsys.Engine
