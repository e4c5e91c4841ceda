/-
  Filsys.Engine.Indices — the free-space routines with their array accesses noted
  (alloc_freelist.c, alloc_v8bitmap.c).

  Each definition is the routine of the same name, watched: it notes the index of every
  access to `fl->free`, to a walk's local copy of it and to the usage map, and the
  blocks a walk passes. The `erases` theorems say that nothing else differs.
-/

import Filsys.Engine.Salvage
import Filsys.Engine.View
import Filsys.Lib.Watch

namespace Filsys.Engine

open Filsys.Lib

/-- `V8_NICFREE_LARGE`, `V6_NICFREE`: the lengths of the walks' copies. -/
def v8NicfreeLarge : Nat := 946
def v6Nicfree : Nat := 100

/-- A read leaves the in-core state alone. -/
theorem v7fsReadBlock_fs (b : Nat) : Keeps (fun s t : Mnt => t.fs = s.fs) (v7fsReadBlock b) := by
  intro s
  exact post_bindFs (post_ite (fun _ => post_ioRead (fun _ _ => rfl) fun _ => rfl) fun _ => rfl)

/-! ## The cache under allocation -/

/-- A routine that notes the indices it uses into `fl->free`. -/
abbrev MA (α : Type) := Watched Errno Mnt Nat α

/-- The encoders read the whole cache, the V8 family's only where it is stored. -/
def sbEncodeReads (d : Desc) : List Nat := if d.sbCodec ∧ d.freemap ≠ .list then [] else List.range d.nicfree

def superWriteSeen : MA Unit := do
  let fs ← unwatched getFs
  if fs.readonly then return ()
  else
    let sb ← unwatched (failAs .eio superRead)
    let now ← unwatched timeNow
    noteAll (sbEncodeReads fs.desc)
    unwatched (failAs .eio (superPut (sbEncode fs now sb)))
    unwatched (modFs fun fs => { fs with flDirty := false })

def ballocSeen : MA Nat := do
  let fs ← unwatched getFs
  if fs.nfree = 0 then throw .enospc
  else
    note (fs.nfree - 1)
    let blk := fs.free (fs.nfree - 1)
    unwatched (modFs fun fs => { fs with nfree := fs.nfree - 1 })
    if blk = 0 then throw .enospc
    else if blk < v7DataFirst fs ∨ fs.fsize ≤ blk then throw .eio
    else
      onlyIf (fs.nfree - 1 = 0) do
        let buf ← unwatched (failAs .eio (v7fsReadBlock blk))
        noteAll (List.range fs.desc.nicfree)
        unwatched (modFs fun fs => { fs with nfree := chainNfree fs.desc buf, free := chainFree fs.desc buf })
        failAs .eio superWriteSeen
      unwatched (failAs .eio (v7fsWriteBlock .block blk zeroBuf))
      unwatched (modFs fun fs => { fs with tfree := fs.tfree - 1, flDirty := true })
      return blk

def pushFreeSeen (bno : Nat) : MA Unit := do
  let fs ← unwatched getFs
  note fs.nfree
  unwatched (pushFree bno)

def bfreeSeen (bno : Nat) : MA Unit := do
  let fs ← unwatched getFs
  if bno < v7DataFirst fs ∨ fs.fsize ≤ bno then return ()
  else
    onlyIf (fs.nfree = 0) do
      note 0
      unwatched (modFs fun fs => { fs with nfree := 1, free := fun i => if i = 0 then 0 else fs.free i })
    let fs ← unwatched getFs
    if fs.desc.nicfree ≤ fs.nfree then
      noteAll (List.range fs.desc.nicfree)
      match ← unwatched (attempt (v7fsWriteBlock .dump bno (dumpBuf fs.desc fs.nfree fs.free))) with
      | .error _ => return ()
      | .ok _ =>
        unwatched (modFs fun fs => { fs with nfree := 0 })
        pushFreeSeen bno
    else pushFreeSeen bno

/-- `bfreeSeen` once the cache counts its terminator. -/
def dumpThenPushSeen (bno : Nat) : MA Unit := do
  let fs ← unwatched getFs
  if fs.desc.nicfree ≤ fs.nfree then
    noteAll (List.range fs.desc.nicfree)
    match ← unwatched (attempt (v7fsWriteBlock .dump bno (dumpBuf fs.desc fs.nfree fs.free))) with
    | .error _ => return ()
    | .ok _ =>
      unwatched (modFs fun fs => { fs with nfree := 0 })
      pushFreeSeen bno
  else pushFreeSeen bno

theorem superWriteSeen_erases : Erases superWriteSeen v7fsSuperWrite := by
  refine erases_bind (erases_unwatched _) fun fs => erases_ite (fun _ => erases_pure _) fun _ => ?_
  refine erases_bind (erases_unwatched _) fun sb => ?_
  refine erases_bind (erases_unwatched _) fun now => ?_
  apply erases_noteAll
  exact erases_bind (erases_unwatched _) fun _ => erases_unwatched _

theorem ballocSeen_erases : Erases ballocSeen v7fsBalloc := by
  refine erases_bind (erases_unwatched _) fun fs => erases_ite (fun _ => erases_throw _) fun _ => erases_note ?_
  refine erases_bind (erases_unwatched _) fun _ => ?_
  refine erases_ite (fun _ => erases_throw _) fun _ => ?_
  refine erases_ite (fun _ => erases_throw _) fun _ => ?_
  refine erases_bind (erases_onlyIf ?_) ?_
  · intro _
    exact erases_bind (erases_unwatched _) fun buf => erases_noteAll (erases_bind (erases_unwatched _) fun _ =>
      erases_failAs superWriteSeen_erases)
  · intro _
    exact erases_bind (erases_unwatched _) fun _ => erases_bind (erases_unwatched _) fun _ => erases_pure _

theorem pushFreeSeen_erases (bno : Nat) : Erases (pushFreeSeen bno) (pushFree bno) := by
  intro s l
  rfl

theorem bfreeSeen_erases (bno : Nat) : Erases (bfreeSeen bno) (v7fsBfree bno) := by
  refine erases_bind (erases_unwatched _) fun fs => erases_ite (fun _ => erases_pure _) fun _ => ?_
  refine erases_bind (erases_onlyIf fun _ => erases_note (erases_unwatched _)) fun _ => ?_
  refine erases_bind (erases_unwatched _) fun fs => ?_
  refine erases_ite (fun _ => erases_noteAll (erases_bind (erases_unwatched _) fun r => ?_))
    fun _ => pushFreeSeen_erases bno
  cases r with
  | error e => exact erases_pure _
  | ok u => exact erases_bind (erases_unwatched _) fun _ => pushFreeSeen_erases bno

/-! ## The walks -/

/-- What a walk does: an access to `fl->free`, to its copy or to a byte of the usage map,
    or a block it lists. -/
inductive Access
  | free (i : Nat)
  | copy (i : Nat)
  | bmap (i : Nat)
  | listed (b : Nat)
  deriving DecidableEq

/-- A pass of the check that notes its accesses. -/
abbrev MW (α : Type) := Watched Errno (Mnt × Chk) Access α

/-- `memcpy(cur, fl->free, sizeof(cur))` with a copy of `len` entries. -/
def copied (len : Nat) : List Access := (List.range len).map .free ++ (List.range len).map .copy

def markFreeSeen (bno : Nat) : MW Unit := do
  let fs ← unwatched (eng getFs)
  note (.bmap ((bno - v7DataFirst fs) / 8))
  unwatched (markFree bno)

def walkFreeListSeen : Nat → Nat → (Nat → Nat) → List Nat → Nat → MW Unit
  | 0, _, _, _, _ => throw .diverges
  | fuel + 1, n, cur, seen, guard => do
    let fs ← unwatched (eng getFs)
    if n = 0 then return ()
    else
      note (.copy (n - 1))
      let bno := cur (n - 1)
      if bno = 0 then return ()
      else if bno < v7DataFirst fs ∨ fs.fsize ≤ bno then unwatched (modChk Chk.err)
      else if bno ∈ seen then unwatched (modChk Chk.err)
      else
        note (.listed bno)
        markFreeSeen bno
        if (fs.fsize + fs.desc.nicfree) % 2 ^ 32 < guard + 1 then unwatched (modChk Chk.err)
        else if n - 1 = 0 then
          match ← unwatched (eng (attempt (v7fsReadBlock bno))) with
          | .error _ => unwatched (modChk Chk.err)
          | .ok blk =>
            let n' := chainNfree fs.desc blk
            if fs.desc.nicfree < n' then unwatched (modChk Chk.err)
            else
              noteAll ((List.range fs.desc.nicfree).map .copy)
              walkFreeListSeen fuel n' (chainFree fs.desc blk) (bno :: seen) (guard + 1)
        else walkFreeListSeen fuel (n - 1) cur (bno :: seen) (guard + 1)

/-- `v7_walk_free` of a free-list volume. -/
def v7WalkFreeSeen : MW Unit := do
  let fs ← unwatched (eng getFs)
  noteAll (copied v8NicfreeLarge)
  walkFreeListSeen (fs.fsize + fs.desc.nicfree + 2) fs.nfree fs.free [] 0

/-- `v8_walk_free_bitmap` from bit `i` on. -/
def walkFreeBitmapSeen : Nat → Nat → MW Unit
  | 0, _ => return ()
  | todo + 1, i => do
    let fs ← unwatched (eng getFs)
    let blk := fs.v8Base + i
    onlyIf (getBit fs.v8Bits i ∧ v7DataFirst fs ≤ blk ∧ blk < fs.fsize) (markFreeSeen blk)
    walkFreeBitmapSeen todo (i + 1)

theorem markFreeSeen_erases (bno : Nat) : Erases (markFreeSeen bno) (markFree bno) := by
  intro s l
  show bare (unwatched (markFree bno) (s, _)) = _
  exact erases_unwatched (markFree bno) s _

theorem walkFreeListSeen_erases (fuel n : Nat) (cur : Nat → Nat) (seen : List Nat) (guard : Nat) :
    Erases (walkFreeListSeen fuel n cur seen guard) (walkFreeList fuel n cur seen guard) := by
  induction fuel generalizing n cur seen guard with
  | zero => exact erases_throw _
  | succ fuel ih =>
    refine erases_bind (erases_unwatched _) fun fs => ?_
    refine erases_ite (fun _ => erases_pure _) fun _ => ?_
    apply erases_note
    refine erases_ite (fun _ => erases_pure _) fun _ => erases_ite (fun _ => erases_unwatched _) fun _ => ?_
    refine erases_ite (fun _ => erases_unwatched _) fun _ =>
      erases_note (erases_bind (markFreeSeen_erases _) fun _ => ?_)
    refine erases_ite (fun _ => erases_unwatched _) fun _ => erases_ite (fun _ => ?_) fun _ => ih _ _ _ _
    refine erases_bind (erases_unwatched _) fun r => ?_
    cases r with
    | error e => exact erases_unwatched _
    | ok blk => exact erases_ite (fun _ => erases_unwatched _) fun _ => erases_noteAll (ih _ _ _ _)

theorem walkFreeBitmapSeen_erases (todo i : Nat) :
    Erases (walkFreeBitmapSeen todo i) (walkFreeBitmap todo i) := by
  induction todo generalizing i with
  | zero => exact erases_pure _
  | succ todo ih =>
    refine erases_bind (erases_unwatched _) fun fs => ?_
    refine erases_bind (erases_onlyIf fun _ => markFreeSeen_erases _) fun _ => ?_
    exact ih _

/-- A counter that notes its accesses. -/
abbrev MN (α : Type) := Watched Errno Mnt Access α

def countChainSeen (strict : Bool) : Nat → Nat → (Nat → Nat) → Nat → MN Nat
  | 0, _, _, blocks => return blocks
  | guard + 1, n, cur, blocks => do
    let fs ← unwatched getFs
    if n = 0 then return blocks
    else
      note (.copy (n - 1))
      if cur (n - 1) = 0 then return blocks
      else if n - 1 = 0 then
        match ← unwatched (attempt (v7fsReadBlock (cur 0))) with
        | .error _ => return blocks + 1
        | .ok blk =>
          let n' := num (dfNfreeSig fs.desc) blk 0
          if strict ∧ fs.desc.nicfree < n' then return blocks + 1
          else
            noteAll ((List.range fs.desc.nicfree).map .copy)
            countChainSeen strict guard n' (countedFree strict fs.desc blk) (blocks + 1)
      else countChainSeen strict guard (n - 1) cur (blocks + 1)

/-- The free-list half of `v7_count_free` (`strict`) and `v6_count_free`. -/
def countFreeSeen (strict : Bool) : MN Nat := do
  let fs ← unwatched getFs
  noteAll (copied (if strict then v8NicfreeLarge else v6Nicfree))
  countChainSeen strict ((fs.fsize + fs.desc.nicfree) % 2 ^ 32 + 1) fs.nfree fs.free 0

theorem countChainSeen_erases (strict : Bool) (guard n : Nat) (cur : Nat → Nat) (blocks : Nat) :
    Erases (countChainSeen strict guard n cur blocks) (countChain strict guard n cur blocks) := by
  induction guard generalizing n cur blocks with
  | zero => exact erases_pure _
  | succ guard ih =>
    refine erases_bind (erases_unwatched _) fun fs => ?_
    by_cases hn : n = 0
    · rw [if_pos hn, if_pos (.inl hn)]
      exact erases_pure _
    rw [if_neg hn]
    apply erases_note
    by_cases h0 : cur (n - 1) = 0
    · rw [if_pos h0, if_pos (.inr h0)]
      exact erases_pure _
    rw [if_neg h0, if_neg (not_or.mpr ⟨hn, h0⟩)]
    refine erases_ite (fun _ => erases_bind (erases_unwatched _) fun r => ?_) fun _ => ih _ _ _
    cases r with
    | error e => exact erases_pure _
    | ok blk => exact erases_ite (fun _ => erases_pure _) fun _ => erases_noteAll (ih _ _ _)

end Filsys.Engine
