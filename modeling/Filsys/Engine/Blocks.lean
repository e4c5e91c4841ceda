/-
  Filsys.Engine.Blocks — block allocation and the block map (alloc_freelist.c,
  alloc_v8bitmap.c, v1fs.c, pdp7fs.c, blocktree.c).

  The free-list allocator keeps a stack of free block numbers whose bottom entry is
  itself a free block holding the next stack; the bitmap forms and the PDP-7's
  nine-entry nodes are the other three. Over them sits one block map for every
  edition: `filsysBmap` finds or makes the block of a logical block number,
  `filsysItrunc` and `filsysItruncFrom` collect what a truncate removes.
-/

import Filsys.Engine.Super

namespace Filsys.Engine

open Filsys.Lib

/-! ## Free-list allocator -/

/-- The cache a chain block holds. -/
def chainNfree (d : Desc) (buf : Buf) : Nat := num (dfNfreeSig d) buf 0 % 65536
def chainFree (d : Desc) (buf : Buf) (i : Nat) : Nat := getDaddr d buf (chainFreeOff d + d.daddrWid * i)

/-- The block `v7fs_bfree` dumps a full cache into. -/
def dumpBuf (d : Desc) (nfree : Nat) (free : Nat → Nat) : Buf :=
  putTable (daddrSig d) (chainFreeOff d) d.daddrWid free d.nicfree (putNum (dfNfreeSig d) zeroBuf 0 nfree)

def v7fsBalloc : M Nat := do
  let fs ← getFs
  if fs.nfree = 0 then throw .enospc
  else
    let blk := fs.free (fs.nfree - 1)
    modFs fun fs => { fs with nfree := fs.nfree - 1 }
    if blk = 0 then throw .enospc
    else if blk < v7DataFirst fs ∨ fs.fsize ≤ blk then throw .eio
    else
      -- the bottom of the stack is a chain block: its contents become the cache,
      -- and the superblock goes out before the caller overwrites it
      onlyIf (fs.nfree - 1 = 0) do
        let buf ← failAs .eio (v7fsReadBlock blk)
        modFs fun fs => { fs with nfree := chainNfree fs.desc buf, free := chainFree fs.desc buf }
        failAs .eio v7fsSuperWrite
      failAs .eio (v7fsWriteBlock .block blk zeroBuf)
      modFs fun fs => { fs with tfree := fs.tfree - 1, flDirty := true }
      return blk

/-- `free[nfree++] = bno; tfree++`. -/
def pushFree (bno : Nat) : M Unit :=
  modFs fun fs => { fs with
    free := fun i => if i = fs.nfree then bno else fs.free i
    nfree := fs.nfree + 1
    tfree := (fs.tfree + 1) % 2 ^ 32 }

def v7fsBfree (bno : Nat) : M Unit := do
  let fs ← getFs
  if bno < v7DataFirst fs ∨ fs.fsize ≤ bno then return ()
  else
    onlyIf (fs.nfree = 0) <|
      modFs fun fs => { fs with nfree := 1, free := fun i => if i = 0 then 0 else fs.free i }
    let fs ← getFs
    if fs.desc.nicfree ≤ fs.nfree then
      match ← attempt (v7fsWriteBlock .dump bno (dumpBuf fs.desc fs.nfree fs.free)) with
      | .error _ => return ()
      | .ok _ =>
        modFs fun fs => { fs with nfree := 0 }
        pushFree bno
    else pushFree bno

/-- `v7fs_bfree` once the cache counts its terminator: a full cache is dumped into the block first. -/
def dumpThenPush (bno : Nat) : M Unit := do
  let fs ← getFs
  if fs.desc.nicfree ≤ fs.nfree then
    match ← attempt (v7fsWriteBlock .dump bno (dumpBuf fs.desc fs.nfree fs.free)) with
    | .error _ => return ()
    | .ok _ =>
      modFs fun fs => { fs with nfree := 0 }
      pushFree bno
  else pushFree bno

/-! ## Bitmap allocators -/

/-- The first set bit at or after `i` among the next `n`. -/
def firstBit (bits : Buf) : Nat → Nat → Option Nat
  | 0, _ => none
  | n + 1, i => if getBit bits i then some i else firstBit bits n (i + 1)

def v8BitmapBalloc : M Nat := do
  let fs ← getFs
  match firstBit fs.v8Bits fs.v8Nbits 0 with
  | none => throw .enospc
  | some i =>
    modFs fun fs => { fs with v8Bits := putBit fs.v8Bits i false }
    failAs .eio (v7fsWriteBlock .block (fs.v8Base + i) zeroBuf)
    modFs fun fs => { fs with tfree := fs.tfree - 1, flDirty := true }
    return fs.v8Base + i

def v8BitmapBfree (bno : Nat) : M Unit := do
  let fs ← getFs
  if bno < fs.v8Base ∨ fs.v8Base + fs.v8Nbits ≤ bno then return ()
  else modFs fun fs => { fs with
    v8Bits := putBit fs.v8Bits (bno - fs.v8Base) true
    tfree := (fs.tfree + 1) % 2 ^ 32
    flDirty := true }

def v1fsBalloc : M Nat := do
  let fs ← getFs
  let start := v1DataStart fs.maxino
  match firstBit fs.freemap (fs.fsize - start) start with
  | none => throw .enospc
  | some b =>
    modFs fun fs => { fs with freemap := putBit fs.freemap b false, tfree := fs.tfree - 1 }
    failAs .eio (v1fsWriteBlock .block b zeroBuf)
    modFs fun fs => { fs with flDirty := true }
    return b

def v1fsBfree (bno : Nat) : M Unit := do
  let fs ← getFs
  if bno < v1DataStart fs.maxino ∨ fs.fsize ≤ bno then return ()
  else modFs fun fs => { fs with freemap := putBit fs.freemap bno true, tfree := (fs.tfree + 1) % 2 ^ 32 }

/-! ## PDP-7 allocator -/

/-- The last non-zero entry among words 1..9 of a node, 0 for none. -/
def p7Last (words : Nat → Nat) : Nat :=
  (List.range 9).foldl (fun last i => if words (i + 1) ≠ 0 then i + 1 else last) 0

/-- Take an entry out of the head node, or the exhausted node itself off the list. -/
def p7Take (h : Nat) (words : Nat → Nat) (last : Nat) : M Nat := do
  if last = 0 then
    modFs fun fs => { fs with freelist := word18 (words 0) }
    return h
  else
    failAs .eio (writeWords .dump h fun i => if i = last then 0 else words i)
    return words last

def p7fsBalloc : M Nat := do
  let fs ← getFs
  if fs.readonly then throw .erofs
  else if fs.freelist = 0 then throw .enospc
  else
    let words ← failAs .eio (readWords fs.freelist)
    let bno ← p7Take fs.freelist words (p7Last words)
    failAs .eio (writeWords .block bno fun _ => 0)
    modFs fun fs => { fs with flDirty := true }
    return bno

/-- The first empty entry among words 1..9. -/
def p7Slot (words : Nat → Nat) : Option Nat := ((List.range 9).map (· + 1)).find? fun i => words i == 0

def p7fsBfree (bno : Nat) : M Unit := do
  let fs ← getFs
  if bno = 0 ∨ fs.readonly then return ()
  else
    let h := fs.freelist
    if h = 0 then
      modFs fun fs => { fs with freelist := bno }
      let _ ← attempt (writeWords .dump bno fun _ => 0)
      return ()
    else
      match ← attempt (readWords h) with
      | .error _ => return ()
      | .ok words =>
        match p7Slot words with
        | some i =>
          let _ ← attempt (writeWords .dump h fun j => if j = i then bno else words j)
          return ()
        | none =>
          -- head node full: the freed block becomes a new empty head node
          let _ ← attempt (writeWords .dump bno fun j => if j = 0 then h else 0)
          modFs fun fs => { fs with freelist := bno }

/-- `alloc->balloc`. -/
def balloc : M Nat := do
  let fs ← getFs
  match fs.desc.alloc with
  | .freelist => v7fsBalloc
  | .v8bitmap => v8BitmapBalloc
  | .bitmap => v1fsBalloc
  | .pdp7 => p7fsBalloc

/-- `alloc->bfree`. -/
def bfree (bno : Nat) : M Unit := do
  let fs ← getFs
  match fs.desc.alloc with
  | .freelist => v7fsBfree bno
  | .v8bitmap => v8BitmapBfree bno
  | .bitmap => v1fsBfree bno
  | .pdp7 => p7fsBfree bno

/-! ## Slot topology and indirect entries -/

/-- `filsys_slot_level`: `none` is a direct slot. -/
def slotLevel (d : Desc) (mode slot : Nat) : Option Nat :=
  if d.ilargMask ≠ 0 ∧ has mode d.ilargMask then
    if slot < d.largeSingle then some 0
    else if slot < d.largeSingle + d.largeDouble then some 1
    else none
  else if slot < d.ndaddr then none
  else some (slot - d.ndaddr)

/-- `slot_span`, a 32-bit product; a direct slot spans one block. -/
def slotSpan (d : Desc) : Option Nat → Nat
  | none => 1
  | some level => d.nindir ^ (level + 1) % 2 ^ 32

def indGet (d : Desc) (buf : Buf) (i : Nat) : Nat :=
  match d.ops with
  | .pdp7 => (wordOps d).get buf i
  | _ => num (daddrSig d) buf ((if d.daddrWid = 2 then 2 else 4) * i)

def indPut (d : Desc) (buf : Buf) (i v : Nat) : Buf :=
  match d.ops with
  | .pdp7 => (wordOps d).put buf i v
  | _ => putNum (daddrSig d) buf ((if d.daddrWid = 2 then 2 else 4) * i) v

/-- The slot a logical block falls in and its index there; 32-bit sums. -/
def findSlot (d : Desc) (mode lbn : Nat) : Nat → Nat → Nat → Option (Nat × Nat)
  | 0, _, _ => none
  | todo + 1, slot, base =>
    let next := (base + slotSpan d (slotLevel d mode slot)) % 2 ^ 32
    if lbn < next then some (slot, (lbn + 2 ^ 32 - base) % 2 ^ 32) else findSlot d mode lbn todo (slot + 1) next

/-- The entry index at each level, top level first. -/
def levelIdx (nindir level r : Nat) : List Nat :=
  (List.range (level + 1)).map fun l => r / nindir ^ (level - l) % nindir

/-! ## Block map -/

/-- `bmap_ind_follow` below the slot: from indirect block `blk` down the entries `idxs`. A bigmap that
    hands out block 0 for an indirect block between the slot and the data has the C code allocate once
    more and hang the new block on the slot itself; here block 0 is gone down into. -/
def indFollow (create : Bool) : List Nat → Nat → M Nat
  | [], _ => throw .eio
  | i :: rest, blk => do
    let fs ← getFs
    let buf ← failAs .eio (readBlock blk)
    let next := indGet fs.desc buf i
    if next = 0 then
      if create then
        let nb ← balloc
        failAs .eio (writeBlock blk (indPut fs.desc buf i nb))
        if rest = [] then return nb else indFollow create rest nb
      else return 0
    else if rest = [] then return next
    else indFollow create rest next

def bmapIndFollow (create : Bool) (slot : Nat) (idxs : List Nat) : MI Nat := do
  let ip ← getIp
  if ip.addr slot = 0 then
    if create then
      let blk ← up balloc
      modIp fun ip => ip.setAddr slot blk
      up (indFollow create idxs blk)
    else return 0
  else up (indFollow create idxs (ip.addr slot))

/-- The first indirect block of a file that outgrows its direct slots. -/
def promoteBuf (d : Desc) (addr : Nat → Nat) : Nat → Buf
  | 0 => zeroBuf
  | n + 1 => indPut d (promoteBuf d addr n) n (addr n)

/-- Small-to-large promotion (V6, V1, PDP-7). -/
def promote : MI Unit := do
  let fs ← up getFs
  let ip ← getIp
  let iblk ← up balloc
  up (failAs .eio (writeBlock iblk (promoteBuf fs.desc ip.addr fs.desc.ndaddr)))
  modIp fun ip => { ip with
    addr := fun i => if i = 0 then iblk else if i < fs.desc.ndaddr then 0 else ip.addr i
    mode := ip.mode ||| fs.desc.ilargMask }

def filsysBmap (lbn : Nat) (create : Bool) : MI Nat := do
  let d := (← up getFs).desc
  let ip ← getIp
  onlyIf (d.ilargMask ≠ 0 ∧ !has ip.mode d.ilargMask ∧ create ∧ d.ndaddr ≤ lbn) promote
  let ip ← getIp
  match findSlot d ip.mode lbn d.niaddr 0 0 with
  | none => if create then throw .efbig else return 0
  | some (slot, r) =>
    match slotLevel d ip.mode slot with
    | none =>
      if ip.addr slot = 0 ∧ create then
        let nb ← up balloc
        modIp fun ip => ip.setAddr slot nb
        return nb
      else return ip.addr slot
    | some level => bmapIndFollow create slot (levelIdx d.nindir level r)

/-- `filsys_bmap` once the map has the form the block needs. -/
def bmapSlot (d : Desc) (lbn : Nat) (create : Bool) (ip : Inode) : MI Nat :=
  match findSlot d ip.mode lbn d.niaddr 0 0 with
  | none => if create then throw .efbig else return 0
  | some (slot, r) =>
    match slotLevel d ip.mode slot with
    | none =>
      if ip.addr slot = 0 ∧ create then
        up balloc >>= fun nb => modIp (fun ip => ip.setAddr slot nb) >>= fun _ => pure nb
      else return ip.addr slot
    | some level => bmapIndFollow create slot (levelIdx d.nindir level r)

theorem filsysBmap_eq (lbn : Nat) (create : Bool) (s : Mnt) (l : Loc) : filsysBmap lbn create (s, l) =
    (onlyIf (s.fs.desc.ilargMask ≠ 0 ∧ (!has l.ip.mode s.fs.desc.ilargMask) = true ∧ create = true ∧
      s.fs.desc.ndaddr ≤ lbn) promote >>= fun _ =>
      getIp >>= fun ip => bmapSlot s.fs.desc lbn create ip) (s, l) := rfl

/-! ## Truncate -/

/-- Run `f` on each non-zero entry. -/
def forEntries (f : Nat → MI Unit) : List Nat → MI Unit
  | [] => return ()
  | nb :: rest => do
    onlyIf (nb ≠ 0) (f nb)
    forEntries f rest

def entries (d : Desc) (buf : Buf) : List Nat := (List.range d.nindir).map (indGet d buf)

/-- `collect_subtree`: children first, the block itself last. -/
def collectWith (child : Nat → MI Unit) (blk : Nat) : MI Unit := do
  if blk = 0 then return ()
  else
    let fs ← up getFs
    let buf ← up (failAs .eio (readBlock blk))
    forEntries child (entries fs.desc buf)
    pushBl blk

def collectSubtree : Nat → Nat → MI Unit
  | 0 => collectWith pushBl
  | l + 1 => collectWith fun nb => failAs .eio (collectSubtree l nb)

/-- The entries of a straddling block from `i` on: kept below `se`, recursed into at
    `se` when only part of it goes, dropped and zeroed otherwise. -/
def dropEntries (d : Desc) (part whole : Nat → MI Unit) (se sp : Nat) : List Nat → Buf → MI Buf
  | [], buf => return buf
  | i :: rest, buf => do
    let nb := indGet d buf i
    if nb = 0 ∨ i < se then dropEntries d part whole se sp rest buf
    else if i = se ∧ 0 < sp then
      part nb
      dropEntries d part whole se sp rest buf
    else
      whole nb
      dropEntries d part whole se sp rest (indPut d buf i 0)

/-- `collect_subtree_from`; `sub` is the number of leaves per entry. -/
def dropWith (part whole : Nat → MI Unit) (sub blk skip : Nat) : MI Unit := do
  let fs ← up getFs
  let buf ← up (failAs .eio (readBlock blk))
  let buf ← dropEntries fs.desc part whole (skip / sub) (skip % sub) (List.range fs.desc.nindir) buf
  up (writeBlock blk buf)

def collectSubtreeFrom (nindir : Nat) : Nat → Nat → Nat → MI Unit
  -- with one leaf per entry nothing is ever partly kept
  | 0, blk, skip => dropWith (fun _ => throw .eio) pushBl 1 blk skip
  | l + 1, blk, skip =>
    let sub := nindir ^ (l + 1) % 2 ^ 32
    dropWith (fun nb => failAs .eio (collectSubtreeFrom nindir l nb (skip % sub)))
      (fun nb => failAs .eio (collectSubtree l nb)) sub blk skip

/-- Collect what slot `i` held; `level` is the slot's. -/
def collectSlot (level : Option Nat) (bn : Nat) : MI Unit :=
  match level with
  | none => pushBl bn
  | some level => failAs .eio (collectSubtree level bn)

/-- The slots `n - 1, …, 0`, each cleared before its blocks are collected. -/
def itruncSlots (d : Desc) : Nat → MI Unit
  | 0 => return ()
  | i + 1 => do
    let ip ← getIp
    onlyIf (ip.addr i ≠ 0) do
      modIp fun ip => ip.setAddr i 0
      collectSlot (slotLevel d ip.mode i) (ip.addr i)
    itruncSlots d i

def filsysItrunc : MI Unit := do
  let d := (← up getFs).desc
  let ip ← getIp
  if isDataInode d ip then
    itruncSlots d d.niaddr
    modIp fun ip => { ip with size := 0 }
  else return ()

/-- One slot past or across the boundary: cleared after its blocks are collected, or, when it
    straddles `firstBlk`, kept. -/
def dropSlot (d : Desc) (firstBlk lbn i : Nat) (level : Option Nat) (a : Nat) : MI Unit := do
  if level = none ∨ firstBlk ≤ lbn then
    collectSlot level a
    modIp fun ip => ip.setAddr i 0
  else failAs .eio (collectSubtreeFrom d.nindir (level.getD 0) a (firstBlk - lbn))

def itruncFromSlots (d : Desc) (firstBlk : Nat) : Nat → Nat → Nat → MI Unit
  | 0, _, _ => return ()
  | todo + 1, i, lbn => do
    let ip ← getIp
    let level := slotLevel d ip.mode i
    let next := (lbn + slotSpan d level) % 2 ^ 32
    onlyIf (firstBlk < next ∧ ip.addr i ≠ 0) (dropSlot d firstBlk lbn i level (ip.addr i))
    itruncFromSlots d firstBlk todo (i + 1) next

def filsysItruncFrom (firstBlk : Nat) : MI Unit := do
  let d := (← up getFs).desc
  itruncFromSlots d firstBlk d.niaddr 0 0

/-- `filsys_blklist_drain`. -/
def blklistDrain : List Nat → M Unit
  | [] => return ()
  | b :: bs => do
    bfree b
    blklistDrain bs

/-- `count_indirect`: the block itself and what its entries count for. -/
def countWith (child : Nat → M Nat) (blk : Nat) : M Nat := do
  if blk = 0 then return 0
  else
    let fs ← getFs
    let buf ← failAs .eio (readBlock blk)
    (entries fs.desc buf).foldlM (fun n sub => do return n + (← child sub)) 1

def countIndirect : Nat → Nat → M Nat
  | 0 => countWith fun sub => return if sub = 0 then 0 else 1
  | l + 1 => countWith (countIndirect l)

def filsysAllocatedBlocks (ip : Inode) : M Nat := do
  let d := (← getFs).desc
  if isDataInode d ip then
    (List.range d.niaddr).foldlM (fun n i =>
      if ip.addr i = 0 then return n
      else match slotLevel d ip.mode i with
        | none => return n + 1
        | some level => do return n + (← countIndirect level (ip.addr i))) 0
  else return 0

end Filsys.Engine
