/-
  Filsys.Engine.View — what an image says, read without running anything.

  `blockOf` and `inodeOf` are the blocks and inode records of an image; `Reaches` says
  which block a path of slots and entries leads to; `Pops` is the sequence of blocks the
  free list would hand out. The lemmas at the end say that the read routines report
  just that, for a mount no other process writes to (`Solo`).
-/

import Filsys.Engine.Inode
import Filsys.Engine.Transfer

namespace Filsys.Engine

open Filsys.Lib

/-! ## Blocks and inodes of an image -/

/-- A block of a byte-addressed edition. -/
def blockOf (fs : Fs) (img : Buf) (bno : Nat) : Buf := window img (fs.base + bno * fs.desc.bsize) fs.desc.bsize

/-- An inode record of the V7 family. -/
def inodeOf (fs : Fs) (img : Buf) (ino : Nat) : Inode :=
  decodeInode fs.desc ino (blockOf fs img (v7Itod fs ino)) (v7Itoo fs ino * fs.desc.inodeSize)

/-- The i-list ends where the data area begins. -/
theorem ilistEnd_eq (fs : Fs) : ilistEnd fs = v7DataFirst fs := by
  unfold ilistEnd v7DataFirst v6DataStart
  split
  · rfl
  · rfl

theorem skipped_le {fs : Fs} (hf : 2 ≤ v7DataFirst fs) : (if fs.desc.isizeCount then 0 else 2) ≤ fs.isize := by
  unfold v7DataFirst at hf
  split at hf
  · rename_i hc
    rw [if_pos hc]
    exact Nat.zero_le _
  · rename_i hc
    rw [if_neg hc]
    exact hf

/-- With an `isize` an open accepts the difference does not wrap. -/
theorem v7Maxinode_le {fs : Fs} (hf : 2 ≤ v7DataFirst fs) :
    v7Maxinode fs ≤ (fs.isize - (if fs.desc.isizeCount then 0 else 2)) * v7Inopb fs := by
  have hle := skipped_le hf
  have hmod : (2 ^ 32 + fs.isize - (if fs.desc.isizeCount then 0 else 2)) % 2 ^ 32 ≤
    fs.isize - (if fs.desc.isizeCount then 0 else 2) := by
    rw [Nat.add_sub_assoc hle, Nat.add_mod_left]
    exact Nat.mod_le _ _
  exact Nat.le_trans (Nat.mod_le _ _) (Nat.mul_le_mul_right _ hmod)

/-- The last inode of a volume whose i-list fits 32 bits. -/
theorem v7Maxinode_eq {fs : Fs} (hf : 2 ≤ v7DataFirst fs) (hsize : fs.isize < 2 ^ 32)
    (hfit : (fs.isize - (if fs.desc.isizeCount then 0 else 2)) * v7Inopb fs < 2 ^ 32) :
    v7Maxinode fs = (fs.isize - (if fs.desc.isizeCount then 0 else 2)) * v7Inopb fs := by
  have hle := skipped_le hf
  unfold v7Maxinode
  rw [Nat.add_sub_assoc hle, Nat.add_mod_left,
    Nat.mod_eq_of_lt (Nat.lt_of_le_of_lt (Nat.sub_le _ _) hsize), Nat.mod_eq_of_lt hfit]

/-- Every inode number up to the last has its record in the i-list. -/
theorem v7Itod_lt {fs : Fs} (hf : 2 ≤ v7DataFirst fs) {n : Nat} (h1 : 1 ≤ n)
    (hmax : n ≤ v7Maxinode fs) : v7Itod fs n < ilistEnd fs := by
  have h := Nat.le_trans hmax (v7Maxinode_le hf)
  unfold v7Itod ilistEnd v6DataStart
  have hdiv : (n - 1) / v7Inopb fs < fs.isize - (if fs.desc.isizeCount then 0 else 2) := by
    have hpos : 0 < v7Inopb fs := by
      rcases Nat.eq_zero_or_pos (v7Inopb fs) with h0 | h0
      · rw [h0, Nat.mul_zero] at h
        omega
      · exact h0
    rw [Nat.div_lt_iff_lt_mul hpos]
    exact Nat.lt_of_lt_of_le (Nat.sub_lt h1 Nat.one_pos) h
  generalize (n - 1) / v7Inopb fs = q at hdiv ⊢
  split at hdiv
  · rename_i hc
    rw [if_pos hc]
    omega
  · rename_i hc
    rw [if_neg hc]
    omega

def entryOf (fs : Fs) (img : Buf) (blk i : Nat) : Nat := indGet fs.desc (blockOf fs img blk) i

/-- Levels of indirection below slot `slot`: 0 for a direct slot. -/
def depth (d : Desc) (mode slot : Nat) : Nat :=
  match slotLevel d mode slot with
  | none => 0
  | some level => level + 1

/-- The block the entries `idxs` lead to from `b`, 0 where a hole is met. -/
def descend (fs : Fs) (img : Buf) : Nat → List Nat → Nat
  | b, [] => b
  | b, i :: idxs => if b = 0 then 0 else descend fs img (entryOf fs img b i) idxs

/-- The path `slot :: idxs` of `ip` names the block `b`: in a slot, or in an entry of an
    indirect block below one. -/
structure Reaches (fs : Fs) (img : Buf) (ip : Inode) (slot : Nat) (idxs : List Nat) (b : Nat) : Prop where
  slot_lt : slot < fs.desc.niaddr
  deep : idxs.length ≤ depth fs.desc ip.mode slot
  idx_lt : ∀ i ∈ idxs, i < fs.desc.nindir
  leads : descend fs img (ip.addr slot) idxs = b
  ne_zero : b ≠ 0

/-! ## The free list of an image -/

/-- A block of the data area. -/
def InData (fs : Fs) (b : Nat) : Prop := v7DataFirst fs ≤ b ∧ b < fs.fsize

instance (fs : Fs) (b : Nat) : Decidable (InData fs b) := inferInstanceAs (Decidable (_ ∧ _))

/-- A cache of the free list: how many entries, and the entries. -/
abbrev Cache := Nat × (Nat → Nat)

/-- The cache a chain block holds. -/
def chainOf (fs : Fs) (img : Buf) (b : Nat) : Cache :=
  (chainNfree fs.desc (blockOf fs img b), chainFree fs.desc (blockOf fs img b))

/-- The block `v7fs_balloc` takes off a cache, and the cache it leaves; `none` where it
    finds nothing to hand out. -/
def popStep (fs : Fs) (img : Buf) (c : Cache) : Option (Nat × Cache) :=
  if c.1 = 0 then none
  else
    let b := c.2 (c.1 - 1)
    if b = 0 then none
    else if b < v7DataFirst fs ∨ fs.fsize ≤ b then none
    else if c.1 - 1 = 0 then some (b, chainOf fs img b)
    else some (b, c.1 - 1, c.2)

/-- The blocks `v7fs_balloc` hands out in turn, until it finds none. -/
inductive Pops (fs : Fs) (img : Buf) : Cache → List Nat → Prop
  | done {c : Cache} : popStep fs img c = none → Pops fs img c []
  | pop {c c' : Cache} {b : Nat} {bs : List Nat} :
    popStep fs img c = some (b, c') → Pops fs img c' bs → Pops fs img c (b :: bs)

/-! ## Reading -/

/-- No other process writes to the image. -/
def Solo (s : Mnt) : Prop := ∀ k img, s.env.peer k img = img

/-- Only transfers have been counted. -/
def ReadOnly (s t : Mnt) : Prop := Solo s → ∃ k, s.ios ≤ k ∧ t = { s with ios := k }

theorem readOnly_law : Law ReadOnly where
  refl s _ := ⟨s.ios, Nat.le_refl _, rfl⟩
  trans := by
    intro a b c hab hbc ha
    obtain ⟨k, hk, rfl⟩ := hab ha
    obtain ⟨k', hk', rfl⟩ := hbc ha
    exact ⟨k', Nat.le_trans hk hk', rfl⟩

theorem touch_readOnly (s : Mnt) : ReadOnly s (touch s) := by
  intro hs
  refine ⟨s.ios + 1, Nat.le_succ _, ?_⟩
  unfold touch
  rw [hs]

theorem touch_img {s : Mnt} (hs : Solo s) : (touch s).img = s.img := hs _ _

theorem v7fsReadBlock_spec (bno : Nat) {s : Mnt} (hs : Solo s) :
    Post (v7fsReadBlock bno s) (fun b t => b = blockOf s.fs s.img bno ∧ ReadOnly s t)
    (fun _ t => ReadOnly s t) := by
  refine post_bindFs (post_ite (fun _ => post_ioRead (fun _ _ => ⟨?_, touch_readOnly s⟩)
    fun _ => touch_readOnly s) ?_)
  · rw [touch_img hs]; rfl
  · intro _
    exact readOnly_law.refl s

theorem v7fsReadInode_spec (ino : Nat) {s : Mnt} (hs : Solo s) :
    Post (v7fsReadInode ino s) (fun ip t => ip = inodeOf s.fs s.img ino ∧ ReadOnly s t)
    (fun _ t => ReadOnly s t) := by
  refine post_bindFs (post_ite (fun _ => readOnly_law.refl s) fun _ =>
    post_ite (fun _ => readOnly_law.refl s) fun _ => ?_)
  refine post_bind (post_failAs ((v7fsReadBlock_spec _ hs).mono ?_ fun _ _ h => h))
  intro b t hr
  obtain ⟨rfl, ht⟩ := hr
  exact ⟨rfl, ht⟩

section Family

variable {s : Mnt} (hv : s.fs.desc.ops ≠ .v1) (hp : s.fs.desc.ops ≠ .pdp7)

include hv hp

theorem readBlock_v7 (bno : Nat) : readBlock bno s = v7fsReadBlock bno s := by
  unfold readBlock
  rw [bindFs_run]
  cases hops : s.fs.desc.ops with
  | v1 => exact absurd hops hv
  | pdp7 => exact absurd hops hp
  | v6 => rfl
  | v7 => rfl
  | bsd211 => rfl

theorem readInode_v7 (ino : Nat) : readInode ino s = v7fsReadInode ino s := by
  unfold readInode
  rw [bindFs_run]
  cases hops : s.fs.desc.ops with
  | v1 => exact absurd hops hv
  | pdp7 => exact absurd hops hp
  | v6 => rfl
  | v7 => rfl
  | bsd211 => rfl

end Family

end Filsys.Engine
