/-
  Filsys.Engine.Probe — telling V1 and the V8 family by their superblocks (v1fs.c,
  v7fs.c).

  A probe looks at a file nobody has mounted: it reads through the transport at absolute
  offsets, and what fails makes it answer, not stop. Every access to the buffer that
  holds the superblock goes through `look`, which notes the bytes it reads; the buffers
  of other blocks are not watched. Scratch memory is always there.
-/

import Filsys.Engine.Open
import Filsys.Lib.Watch

namespace Filsys.Engine

open Filsys.Lib

/-- A routine that notes the offsets it reads in the superblock buffer. -/
abbrev MP (α : Type) := Watched Errno Mnt Nat α

/-- `n` bytes of the superblock from `o`. -/
def look (n : Nat) (get : Buf → Nat → Nat) (b : Buf) (o : Nat) : MP Nat := do
  noteAll (List.range' o n)
  return get b o

def byteOf8 (b : Buf) (o : Nat) : Nat := (b o).toNat

/-- A read of the image whose return code the probe looks at. -/
def probeRead (n off : Nat) : MP (Except Errno Buf) := unwatched (attempt (ioRead n off))

/-- Whether one of `read i, read (i + 1), …` (`todo` of them) is bad; the rest is not read. -/
def anyBad (bad : Nat → Bool) (read : Nat → MP Nat) : Nat → Nat → MP Bool
  | 0, _ => return false
  | todo + 1, i => do
    let v ← read i
    if bad v then return true else anyBad bad read todo (i + 1)

/-! ## V1 -/

/-- `v1_probe`: the first data block and the size of the volume. -/
def v1Probe (fmt : Desc) (base nbytes : Nat) : MP (Option (Nat × Nat)) := do
  match ← probeRead 1024 base with
  | .error _ => return none
  | .ok sb =>
    let freemapBytes ← look 2 fmt.bo.get16 sb 0
    if freemapBytes = 0 then return none
    else
      let inodemapBytesOff := 2 + freemapBytes
      if 1024 < inodemapBytesOff + 2 then return none
      else
        let inodemapBytes ← look 2 fmt.bo.get16 sb inodemapBytesOff
        let inodemapOff := inodemapBytesOff + 2
        if inodemapBytes = 0 ∨ 1024 < inodemapOff + inodemapBytes then return none
        else
          let fsz := freemapBytes * 8
          let maxino := inodemapBytes * 8
          let dstart := (maxino + 31) / 16 + 1
          if fsz ≤ dstart ∨ nbytes < base + fsz * 512 then return none
          else
            match ← probeRead 512 (base + 4 * 512) with
            | .error _ => return none
            | .ok blk =>
              let mode := fmt.bo.get16 blk (8 * 32)
              if mode &&& 0o140000 ≠ 0o140000 then return none
              else
                let a0 := fmt.bo.get16 blk (8 * 32 + 6)
                if a0 < dstart ∨ fsz ≤ a0 then return none else return some (dstart, fsz)

/-! ## The V8 family: the volume behind the superblock -/

/-- `probe_walk_chain`: the segments passed, and what is wrong with the chain. -/
def probeWalkChain (bo : ByteOrder) (isize fsize base bsize nicfree wid fbFree : Nat) :
    Nat → Nat → Nat → List Nat → Nat → M (Nat × Option String)
  | 0, _, _, _, segs => return (segs, some "chain too long")
  | fuel + 1, head, hops, seen, segs => do
    if head = 0 then return (segs, none)
    else if head < isize ∨ fsize ≤ head then return (segs, some "chain leaves fs")
    else if fsize / nicfree < hops then return (segs, some "chain too long")
    else if head ∈ seen then return (segs, some "chain cycles")
    else
      match ← attempt (ioRead bsize (base + head * bsize)) with
      | .error _ => return (segs, some "chain read error")
      | .ok buf =>
        let nfree := if fbFree = 4 then bo.get32 buf 0 else bo.get16 buf 0
        if nfree < 1 ∨ nicfree < nfree then return (segs, some "bad segment nfree")
        else
          let entry (i : Nat) : Nat := if wid = 2 then bo.get16 buf (fbFree + 2 * i)
            else bo.get32 buf (fbFree + 4 * i)
          let bad (i : Nat) : Bool := entry i ≠ 0 ∧ (entry i < isize ∨ fsize ≤ entry i)
          if (List.range (nfree - 1)).any fun i => bad (i + 1) then
            return (segs, some "chain entry out of range")
          else
            probeWalkChain bo isize fsize base bsize nicfree wid fbFree fuel (entry 0) (hops + 1) (head :: seen)
              (segs + 1)

/-- Whether a live inode among `ino, …, maxino` of an i-list block has an address outside the data area. -/
def strayAddress (bo : ByteOrder) (blk : Buf) (isize fsize maxino inopb b : Nat) : Bool :=
  (List.range inopb).any fun s =>
    b * inopb + s + 1 ≤ maxino ∧ bo.get16 blk (s * 64) ≠ 0 ∧ (List.range 13).any fun i =>
      let a := bo.get24 blk (s * 64 + 12 + 3 * i)
      a ≠ 0 ∧ (a < isize ∨ fsize ≤ a)

/-- `probe_v8_ilist_ok`, from block `b` of the i-list. -/
def probeV8IlistOk (bo : ByteOrder) (base bsize isize fsize maxino : Nat) : Nat → Nat → M (Option String)
  | 0, _ => return none
  | todo + 1, b => do
    match ← attempt (ioRead bsize (base + (2 + b) * bsize)) with
    | .error _ => return some "cannot read i-list"
    | .ok blk =>
      if strayAddress bo blk isize fsize maxino (bsize / 64) b then
        return some "inode block address out of range"
      else probeV8IlistOk bo base bsize isize fsize maxino todo (b + 1)

/-- The root inode and its directory block, as `probe_v8_try` looks at them. -/
def probeV8Root (bo : ByteOrder) (base bsize isz fsz : Nat) : M (Option String) := do
  match ← attempt (ioRead 128 (base + 2 * bsize)) with
  | .error _ => return some "cannot read i-list"
  | .ok ib =>
    let size := bo.get32 ib (64 + 8)
    let rootblk := bo.get24 ib (64 + 12)
    if bo.get16 ib 64 &&& 0o170000 ≠ 0o40000 then return some "root inode is not a directory"
    else if bo.get16 ib (64 + 2) < 2 then return some "root inode link count < 2"
    else if size < 32 ∨ size % 16 ≠ 0 then return some "root inode size implausible"
    else if rootblk < isz ∨ fsz ≤ rootblk then return some "root directory block out of range"
    else
      match ← attempt (ioRead 64 (base + rootblk * bsize)) with
      | .error _ => return some "cannot read root directory"
      | .ok rd =>
        if bo.get16 rd 0 ≠ 2 ∨ rd 2 ≠ 46 ∨ bo.get16 rd 16 ≠ 2 ∨ rd 18 ≠ 46 ∨ rd 19 ≠ 46 then
          return some "root directory entries wrong"
        else return none

/-- The free blocks of an out-of-superblock map, from its block `k`. -/
def bigmapCount (base bsize fsize nblks : Nat) : Nat → Nat → Nat → M (Except String Nat)
  | 0, _, count => return .ok count
  | todo + 1, k, count => do
    match ← attempt (ioRead bsize (base + (fsize - nblks + k) * bsize)) with
    | .error _ => return .error "bitmap block read error"
    | .ok blk =>
      let bytes := if k = nblks - 1 then (fsize - k * (bsize * 8) + 7) / 8 else bsize
      bigmapCount base bsize fsize nblks todo (k + 1) (count + countBits blk true 0 (8 * bytes))

/-- The free blocks of an in-superblock map of `nbits` bits, from word `w`. -/
def bitmapCount (bo : ByteOrder) (sb : Buf) (nbits : Nat) : Nat → Nat → Nat → MP Nat
  | 0, _, count => return count
  | todo + 1, w, count => do
    let word ← look 4 bo.get32 sb (252 + 4 * w)
    let set := (List.range 32).filter fun bit => w * 32 + bit < nbits ∧ word.testBit bit
    bitmapCount bo sb nbits todo (w + 1) (count + set.length)

def probeV8BitmapCount (bo : ByteOrder) (sb : Buf) (base bsize isize fsize : Nat) (form : Freemap) :
    MP (Except String Nat) := do
  if form = .bigmap then
    let bitsPerBlk := bsize * 8
    let nblks := (fsize + bitsPerBlk - 1) / bitsPerBlk
    unwatched (bigmapCount base bsize fsize nblks nblks 0 0)
  else
    let nbits := fsize - isize
    let count ← bitmapCount bo sb nbits ((nbits + 31) / 32) 0 0
    return .ok count

/-! ## The V8 family: the superblock -/

/-- What `probe_v8_try` answers: 0, -1 with a reason, or 1. -/
inductive V8Answer
  | no
  | miss (isize fsize : Nat) (why : String)
  | hit (isize fsize : Nat) (form : Freemap) (segs : Nat)
  deriving DecidableEq, Repr

/-- The volume a superblock describes, its fields being plausible. -/
structure V8Fields where
  isz : Nat
  fsz : Nat
  maxino : Nat
  tfree : Nat

/-- The checks of the superblock's own fields. -/
def probeV8Fields (bo : ByteOrder) (b : Buf) (bsize nbytes : Nat) : MP (Option V8Fields) := do
  let isz ← look 2 bo.get16 b 0
  if isz < 3 then return none
  else
    let fsz ← look 4 bo.get32 b 4
    let ninode ← look 2 bo.get16 b 8
    if 100 < ninode then return none
    else
      let maxino := (isz - 2) * (bsize / 64)
      if maxino = 0 ∨ 65536 < maxino then return none
      else
        let strayIno ← anyBad (fun ino => ino ≠ 0 ∧ maxino < ino)
          (fun i => look 2 bo.get16 b (10 + 2 * i)) ninode 0
        if strayIno then return none
        else
          let fmod ← look 1 byteOf8 b 212
          if 1 < fmod then return none
          else
            let tfree ← look 4 bo.get32 b 220
            let tinode ← look 2 bo.get16 b 224
            if (fsz + 2 ^ 32 - isz) % 2 ^ 32 < tfree ∨ maxino < tinode then return none
            else
              let unprintable ← anyBad (fun c => c ≠ 0 ∧ (c < 0x20 ∨ 0x7e < c))
                (fun i => look 1 byteOf8 b (230 + i)) 14 0
              if unprintable then return none
              else if fsz ≤ isz ∨ 2 ^ 24 < fsz then return none
              else if nbytes + bsize < fsz * bsize then return none
              else return some ⟨isz, fsz, maxino, tfree⟩

/-- The free list: its segments when it traverses, else what is wrong with the chain where that was
    looked at. -/
def probeV8List (bo : ByteOrder) (b : Buf) (base bsize : Nat) (f : V8Fields) :
    MP (Except (Option String) Nat) := do
  let nicfree := if bsize = 8192 then 946 else 178
  let nfree ← look 2 bo.get16 b 248
  if nicfree < nfree then return .error none
  else
    let stray ← anyBad (fun fb => fb ≠ 0 ∧ (fb < f.isz ∨ f.fsz ≤ fb))
      (fun i => look 4 bo.get32 b (252 + 4 * i)) nfree 0
    if stray then return .error none
    else
      let head ← look 4 bo.get32 b 252
      match ← unwatched (probeWalkChain bo f.isz f.fsz base bsize nicfree 4 4 (f.fsz / nicfree + 3) head 0 [] 0) with
      | (segs, none) => return .ok segs
      | (_, some why) => return .error (some why)

/-- `probe_v8_try` up to the count of a bit map: an answer, or the fields and what was wrong with the
    free list. -/
def probeV8Before (bo : ByteOrder) (b : Buf) (base bsize nbytes : Nat) :
    MP (V8Answer ⊕ V8Fields × Option String) := do
  match ← probeV8Fields bo b bsize nbytes with
  | none => return .inl .no
  | some f =>
    match ← unwatched (probeV8Root bo base bsize f.isz f.fsz) with
    | some why => return .inl (.miss f.isz f.fsz why)
    | none =>
      match ← unwatched
          (probeV8IlistOk bo base bsize f.isz f.fsz f.maxino ((f.maxino + bsize / 64 - 1) / (bsize / 64)) 0) with
      | some why => return .inl (.miss f.isz f.fsz why)
      | none =>
        match ← probeV8List bo b base bsize f with
        | .ok segs => return .inl (.hit f.isz f.fsz .list segs)
        | .error whyList => return .inr (f, whyList)

/-- The form the superblock's flag asks for. -/
def mapForm (b : Buf) (bsize : Nat) : Freemap := if byteOf8 b 249 = 1 ∧ bsize = 4096 then .bigmap else .bitmap

def probeV8Try (bo : ByteOrder) (b : Buf) (base bsize nbytes : Nat) : MP V8Answer := do
  match ← probeV8Before bo b base bsize nbytes with
  | .inl answer => return answer
  | .inr (f, whyList) =>
    let _ ← look 1 byteOf8 b 249
    match ← probeV8BitmapCount bo b base bsize f.isz f.fsz (mapForm b bsize) with
    | .ok cnt =>
      if cnt = f.tfree then return .hit f.isz f.fsz (mapForm b bsize) 0
      else return .miss f.isz f.fsz (whyList.getD "free space does not traverse")
    | .error whyMap => return .miss f.isz f.fsz (whyList.getD whyMap)

end Filsys.Engine
