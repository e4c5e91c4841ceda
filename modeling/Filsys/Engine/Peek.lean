/-
  Filsys.Engine.Peek — the routines that only read.

  A mount no other process writes to comes out of a read as it went in, transfers
  counted (`Peeks`); a decoded inode comes out as it went in (`PeeksAt`). The checker
  moves nothing but its own report (`PeeksBy`).
-/

import Filsys.Engine.Check
import Filsys.Engine.View

namespace Filsys.Engine

open Filsys.Lib

abbrev Peeks {α : Type} (x : M α) : Prop := Keeps ReadOnly x

/-- The mount is read and the local left alone. -/
def PeekAt (a b : Mnt × Loc) : Prop := ReadOnly a.1 b.1 ∧ b.2 = a.2

theorem peekAt_law : Law PeekAt where
  refl s := ⟨readOnly_law.refl s.1, rfl⟩
  trans h h' := ⟨readOnly_law.trans h.1 h'.1, h'.2.trans h.2⟩

abbrev PeeksAt {α : Type} (x : MI α) : Prop := Keeps PeekAt x

/-- The mount is read, whatever the report says. -/
def PeekBy (a b : Mnt × Chk) : Prop := ReadOnly a.1 b.1

theorem peekBy_law : Law PeekBy := readOnly_law.fst

abbrev PeeksBy {α : Type} (x : MC α) : Prop := Keeps PeekBy x

theorem getFs_peeks : Peeks getFs := fun s => readOnly_law.refl s

theorem ioRead_peeks (n off : Nat) : Peeks (ioRead n off) := fun s =>
  post_ioRead (fun _ _ => touch_readOnly s) fun _ => touch_readOnly s

theorem bindFs_peeks {α : Type} {f : Fs → M α} (hf : ∀ fs, Peeks (f fs)) : Peeks (getFs >>= f) :=
  keeps_bind readOnly_law getFs_peeks hf

theorem v7fsReadBlock_peeks (bno : Nat) : Peeks (v7fsReadBlock bno) :=
  bindFs_peeks fun _ => keeps_ite (ioRead_peeks _ _) (keeps_throw readOnly_law)

theorem v1fsReadBlock_peeks (bno : Nat) : Peeks (v1fsReadBlock bno) :=
  bindFs_peeks fun _ => keeps_ite (ioRead_peeks _ _) (keeps_throw readOnly_law)

theorem readWords_peeks (bno : Nat) : Peeks (readWords bno) :=
  bindFs_peeks fun _ => keeps_ite
    (keeps_bind readOnly_law (keeps_failAs (ioRead_peeks _ _)) fun _ => keeps_pure readOnly_law)
      (keeps_throw readOnly_law)

theorem p7fsReadBlock_peeks (bno : Nat) : Peeks (p7fsReadBlock bno) :=
  bindFs_peeks fun _ => keeps_bind readOnly_law (keeps_failAs (readWords_peeks _))
  fun _ => keeps_pure readOnly_law

theorem p7fsBlkGet_peeks (bno : Nat) : Peeks (p7fsBlkGet bno) :=
  keeps_bind readOnly_law (keeps_failAs (readWords_peeks _)) fun _ => keeps_pure readOnly_law

theorem readBlock_peeks (bno : Nat) : Peeks (readBlock bno) := by
  refine bindFs_peeks fun fs => ?_
  cases fs.desc.ops with
  | v1 => exact v1fsReadBlock_peeks bno
  | pdp7 => exact p7fsReadBlock_peeks bno
  | v6 => exact v7fsReadBlock_peeks bno
  | v7 => exact v7fsReadBlock_peeks bno
  | bsd211 => exact v7fsReadBlock_peeks bno

theorem blkGet_peeks (bno : Nat) : Peeks (blkGet bno) := by
  refine bindFs_peeks fun fs => ?_
  cases fs.desc.ops with
  | v1 => exact v1fsReadBlock_peeks bno
  | pdp7 => exact p7fsBlkGet_peeks bno
  | v6 => exact v7fsReadBlock_peeks bno
  | v7 => exact v7fsReadBlock_peeks bno
  | bsd211 => exact v7fsReadBlock_peeks bno

/-! ## Reading through the block map -/

theorem up_peeks {α : Type} {x : M α} (hx : Peeks x) : PeeksAt (up x) :=
  fun s => post_outside ((hx s.1).mono (fun _ _ h => ⟨h, rfl⟩) fun _ _ h => ⟨h, rfl⟩)

theorem getIp_peeks : PeeksAt getIp := fun s => peekAt_law.refl s

theorem bindIp_peeks {α : Type} {f : Inode → MI α} (hf : ∀ ip, PeeksAt (f ip)) : PeeksAt (getIp >>= f) :=
  keeps_bind peekAt_law getIp_peeks hf

theorem bindUpFs_peeks {α : Type} {f : Fs → MI α} (hf : ∀ fs, PeeksAt (f fs)) : PeeksAt (up getFs >>= f) :=
  keeps_bind peekAt_law (up_peeks getFs_peeks) hf

theorem indFollow_peeks (idxs : List Nat) (blk : Nat) : Peeks (indFollow false idxs blk) := by
  induction idxs generalizing blk with
  | nil => exact keeps_throw readOnly_law
  | cons i rest ih =>
    refine bindFs_peeks fun fs => keeps_bind readOnly_law (keeps_failAs (readBlock_peeks blk)) fun buf => ?_
    refine keeps_ite (keeps_pure readOnly_law) (keeps_ite (keeps_pure readOnly_law) (ih _))

theorem bmapIndFollow_peeks (slot : Nat) (idxs : List Nat) : PeeksAt (bmapIndFollow false slot idxs) :=
  bindIp_peeks fun _ => keeps_ite (keeps_pure peekAt_law) (up_peeks (indFollow_peeks _ _))

theorem filsysBmap_peeks (lbn : Nat) : PeeksAt (filsysBmap lbn false) := by
  refine bindUpFs_peeks fun fs => ?_
  refine bindIp_peeks fun ip => ?_
  refine keeps_bind peekAt_law ?_ fun _ => bindIp_peeks fun ip' => ?_
  · unfold onlyIf
    rw [if_neg (by simp)]
    exact keeps_pure peekAt_law
  · split
    · exact keeps_pure peekAt_law
    · split
      · rw [if_neg (by simp)]
        exact keeps_pure peekAt_law
      · exact bmapIndFollow_peeks _ _

theorem inside_peeks {α : Type} {x : MI α} (hx : PeeksAt x) (l : Loc) : Peeks (inside l x) :=
  fun s => post_inside ((hx (s, l)).mono (fun _ _ h => h.1) fun _ _ h => h.1)

theorem inodeReadWord_peeks (woff : Nat) : PeeksAt (inodeReadWord woff) := by
  refine keeps_bind peekAt_law (keeps_failAs (filsysBmap_peeks _)) fun pbn =>
    keeps_ite (keeps_pure peekAt_law) ?_
  exact keeps_bind peekAt_law (up_peeks (keeps_failAs (readWords_peeks _))) fun _ => keeps_pure peekAt_law

/-! ## Inodes -/

theorem v7fsReadInode_peeks (ino : Nat) : Peeks (v7fsReadInode ino) :=
  bindFs_peeks fun _ => keeps_ite (keeps_throw readOnly_law) <| keeps_ite (keeps_throw readOnly_law) <|
    keeps_bind readOnly_law (keeps_failAs (v7fsReadBlock_peeks _)) fun _ => keeps_pure readOnly_law

theorem v1fsReadInode_peeks (ino : Nat) : Peeks (v1fsReadInode ino) :=
  bindFs_peeks fun _ => keeps_ite (keeps_throw readOnly_law) <|
    keeps_bind readOnly_law (keeps_failAs (v1fsReadBlock_peeks _)) fun _ => keeps_pure readOnly_law

theorem p7fsReadInode_peeks (ino : Nat) : Peeks (p7fsReadInode ino) := by
  refine keeps_ite (keeps_throw readOnly_law)
    (keeps_bind readOnly_law (keeps_failAs (readWords_peeks _)) fun words => ?_)
  refine keeps_ite (keeps_bind readOnly_law (inside_peeks (inodeReadWord_peeks _) _) fun r => ?_)
    (keeps_pure readOnly_law)
  obtain ⟨r, l⟩ := r
  cases r with
  | ok lastw => exact keeps_pure readOnly_law
  | error e => exact keeps_pure readOnly_law

theorem readInode_peeks (ino : Nat) : Peeks (readInode ino) := by
  refine bindFs_peeks fun fs => ?_
  cases fs.desc.ops with
  | v1 => exact v1fsReadInode_peeks ino
  | pdp7 => exact p7fsReadInode_peeks ino
  | v6 => exact v7fsReadInode_peeks ino
  | v7 => exact v7fsReadInode_peeks ino
  | bsd211 => exact v7fsReadInode_peeks ino

/-! ## File data and directories -/

theorem blkOrHole_peeks (pbn : Nat) : Peeks (blkOrHole pbn) :=
  keeps_ite (keeps_pure readOnly_law) (keeps_failAs (blkGet_peeks pbn))

theorem fileReadLoop_peeks (size off fuel done : Nat) (buf : Buf) :
    PeeksAt (fileReadLoop size off fuel done buf) := by
  induction fuel generalizing done buf with
  | zero => exact keeps_pure peekAt_law
  | succ fuel ih =>
    refine keeps_ite (keeps_pure peekAt_law) (bindUpFs_peeks fun fs => ?_)
    refine keeps_bind peekAt_law (keeps_failAs (filsysBmap_peeks _)) fun pbn => ?_
    exact keeps_bind peekAt_law (up_peeks (blkOrHole_peeks pbn)) fun blk => ih _ _

theorem filsysFileRead_peeks (size : Nat) (off : Int) : PeeksAt (filsysFileRead size off) := by
  refine bindIp_peeks fun ip => keeps_ite (keeps_throw peekAt_law) (keeps_ite (keeps_pure peekAt_law) ?_)
  exact keeps_bind peekAt_law (fileReadLoop_peeks _ _ _ _ _) fun _ => keeps_pure peekAt_law

theorem dirScan_peeks (p : Buf → Nat → Bool) (fuel off : Nat) : PeeksAt (dirScan p fuel off) := by
  induction fuel generalizing off with
  | zero => exact keeps_pure peekAt_law
  | succ fuel ih =>
    refine bindUpFs_peeks fun fs => bindIp_peeks fun ip => keeps_ite ?_ (keeps_pure peekAt_law)
    refine keeps_bind peekAt_law (filsysFileRead_peeks _ _) fun r => ?_
    obtain ⟨got, blk⟩ := r
    dsimp only
    split
    · exact keeps_pure peekAt_law
    · exact ih _

theorem v7fsDirLookup_peeks (name : Name) : PeeksAt (v7fsDirLookup name) := by
  refine bindUpFs_peeks fun fs => bindIp_peeks fun ip => keeps_bind peekAt_law (dirScan_peeks _ _ _) fun r => ?_
  split
  · exact keeps_pure peekAt_law
  · exact keeps_throw peekAt_law

theorem iterLoad_peeks (chunk chunkOff : Nat) (st : Iter) : PeeksAt (iterLoad chunk chunkOff st) :=
  bindIp_peeks fun _ => keeps_ite
    (keeps_bind peekAt_law (filsysFileRead_peeks _ _) fun _ => keeps_pure peekAt_law) (keeps_pure peekAt_law)

theorem v7fsDirIter_peeks (fuel : Nat) (st : Iter) : PeeksAt (v7fsDirIter fuel st) := by
  induction fuel generalizing st with
  | zero => exact keeps_throw peekAt_law
  | succ fuel ih =>
    refine bindUpFs_peeks fun fs => bindIp_peeks fun ip => keeps_ite (keeps_pure peekAt_law) ?_
    refine keeps_bind peekAt_law (iterLoad_peeks _ _ _) fun st' => ?_
    split
    · exact keeps_pure peekAt_law
    · exact ih _

theorem bsd211Slurp_peeks : PeeksAt bsd211Slurp := bindIp_peeks fun _ => filsysFileRead_peeks _ _

theorem bsd211DirLookup_peeks (name : Name) : PeeksAt (bsd211DirLookup name) := by
  refine bindUpFs_peeks fun fs => keeps_bind peekAt_law bsd211Slurp_peeks fun r => ?_
  obtain ⟨n, buf⟩ := r
  dsimp only
  split
  · exact keeps_pure peekAt_law
  · exact keeps_throw peekAt_law

theorem bsd211DirIter_peeks (fuel : Nat) (st : Iter) : PeeksAt (bsd211DirIter fuel st) := by
  induction fuel generalizing st with
  | zero => exact keeps_throw peekAt_law
  | succ fuel ih =>
    refine bindUpFs_peeks fun fs => bindIp_peeks fun ip => keeps_ite (keeps_pure peekAt_law) ?_
    refine keeps_bind peekAt_law (iterLoad_peeks _ _ _) fun st' => ?_
    split
    · exact keeps_pure peekAt_law
    · exact keeps_pure peekAt_law
    · exact ih _

theorem p7NameAt_peeks (base : Nat) : PeeksAt (p7NameAt base) := by
  unfold p7NameAt
  refine keeps_bind peekAt_law (keeps_failAs (inodeReadWord_peeks _)) fun _ => ?_
  refine keeps_bind peekAt_law (keeps_failAs (inodeReadWord_peeks _)) fun _ => ?_
  refine keeps_bind peekAt_law (keeps_failAs (inodeReadWord_peeks _)) fun _ => ?_
  exact keeps_bind peekAt_law (keeps_failAs (inodeReadWord_peeks _)) fun _ => keeps_pure peekAt_law

theorem p7Find_peeks (p : Name → Bool) (todo e : Nat) : PeeksAt (p7Find p todo e) := by
  induction todo generalizing e with
  | zero => exact keeps_pure peekAt_law
  | succ todo ih =>
    refine keeps_bind peekAt_law (keeps_failAs (inodeReadWord_peeks _)) fun dino => keeps_ite (ih _) ?_
    exact keeps_bind peekAt_law (p7NameAt_peeks _) fun name => keeps_ite (keeps_pure peekAt_law) (ih _)

theorem p7fsDirLookup_peeks (name : Name) : PeeksAt (p7fsDirLookup name) := by
  refine bindIp_peeks fun ip => keeps_ite (keeps_pure peekAt_law) (keeps_ite (keeps_pure peekAt_law) ?_)
  refine keeps_bind peekAt_law (p7Find_peeks _ _ _) fun r => ?_
  split
  · exact keeps_pure peekAt_law
  · exact keeps_throw peekAt_law

theorem p7fsDirIter_peeks (st : Iter) : PeeksAt (p7fsDirIter st) := by
  refine bindIp_peeks fun ip => keeps_ite (keeps_pure peekAt_law) (keeps_ite (keeps_pure peekAt_law) ?_)
  refine keeps_bind peekAt_law (p7Find_peeks _ _ _) fun r => ?_
  split
  · exact keeps_pure peekAt_law
  · exact keeps_pure peekAt_law

theorem dirLookup_peeks (name : Name) : PeeksAt (dirLookup name) := by
  refine bindUpFs_peeks fun fs => ?_
  cases fs.desc.ops with
  | v1 => exact v7fsDirLookup_peeks name
  | pdp7 => exact p7fsDirLookup_peeks name
  | v6 => exact v7fsDirLookup_peeks name
  | v7 => exact v7fsDirLookup_peeks name
  | bsd211 => exact bsd211DirLookup_peeks name

theorem dirIter_peeks (st : Iter) : PeeksAt (dirIter st) := by
  refine bindUpFs_peeks fun fs => bindIp_peeks fun ip => ?_
  cases fs.desc.ops with
  | v1 => exact v7fsDirIter_peeks _ st
  | pdp7 => exact p7fsDirIter_peeks st
  | v6 => exact v7fsDirIter_peeks _ st
  | v7 => exact v7fsDirIter_peeks _ st
  | bsd211 => exact bsd211DirIter_peeks _ st

/-! ## The checker -/

theorem eng_peeks {α : Type} {x : M α} (hx : Peeks x) : PeeksBy (eng x) := keeps_outside hx

theorem modChk_peeks (f : Chk → Chk) : PeeksBy (modChk f) := fun s => readOnly_law.refl s.1

theorem bindEngFs_peeks {α : Type} {f : Fs → MC α} (hf : ∀ fs, PeeksBy (f fs)) : PeeksBy (eng getFs >>= f) :=
  keeps_bind peekBy_law (eng_peeks getFs_peeks) hf

theorem bindChk_peeks {α : Type} {f : Chk → MC α} (hf : ∀ c, PeeksBy (f c)) : PeeksBy (getChk >>= f) :=
  keeps_bind peekBy_law (fun s => readOnly_law.refl s.1) hf

theorem bindMod_peeks {α : Type} {g : Chk → Chk} {f : Unit → MC α} (hf : PeeksBy (f ())) :
    PeeksBy (modChk g >>= f) :=
  keeps_bind peekBy_law (modChk_peeks g) fun _ => hf

theorem filsysMarkBlock_peeks (bno : Nat) : PeeksBy (filsysMarkBlock bno) := by
  refine bindEngFs_peeks fun fs => bindChk_peeks fun c => keeps_ite (keeps_pure peekBy_law) ?_
  refine keeps_ite (keeps_ite (keeps_pure peekBy_law) (bindMod_peeks (keeps_pure peekBy_law))) ?_
  exact keeps_ite (bindMod_peeks (keeps_pure peekBy_law)) (bindMod_peeks (keeps_pure peekBy_law))

theorem markEach_peeks {f : Nat → MC Unit} (hf : ∀ b, PeeksBy (f b)) (bs : List Nat) :
    PeeksBy (markEach f bs) := by
  induction bs with
  | nil => exact keeps_pure peekBy_law
  | cons b bs ih => exact keeps_bind peekBy_law (keeps_onlyIf peekBy_law (hf b)) fun _ => ih

theorem markWith_peeks {child : Nat → MC Unit} (hc : ∀ b, PeeksBy (child b)) (blk : Nat) :
    PeeksBy (markWith child blk) := by
  refine keeps_ite (keeps_pure peekBy_law) (keeps_bind peekBy_law (filsysMarkBlock_peeks blk) fun first => ?_)
  refine keeps_ite (bindEngFs_peeks fun fs => ?_) (keeps_pure peekBy_law)
  refine keeps_bind peekBy_law (eng_peeks (keeps_attempt (readBlock_peeks blk))) fun r => ?_
  cases r with
  | error e => exact modChk_peeks _
  | ok buf => exact markEach_peeks hc _

theorem filsysMarkTree_peeks (l blk : Nat) : PeeksBy (filsysMarkTree l blk) := by
  induction l generalizing blk with
  | zero =>
    exact markWith_peeks (fun b => keeps_bind peekBy_law (filsysMarkBlock_peeks b) fun _ =>
      keeps_pure peekBy_law) blk
  | succ l ih => exact markWith_peeks ih blk

theorem markSlot_peeks (level : Option Nat) (bno : Nat) : PeeksBy (markSlot level bno) := by
  cases level with
  | none => exact keeps_bind peekBy_law (filsysMarkBlock_peeks bno) fun _ => keeps_pure peekBy_law
  | some l => exact filsysMarkTree_peeks l bno

theorem markSlots_peeks (ip : Inode) (todo i : Nat) : PeeksBy (markSlots ip todo i) := by
  induction todo generalizing i with
  | zero => exact keeps_pure peekBy_law
  | succ todo ih =>
    refine bindEngFs_peeks fun fs => ?_
    refine keeps_bind peekBy_law (keeps_onlyIf peekBy_law (markSlot_peeks _ _)) fun _ => ?_
    exact ih _

theorem markInode_peeks (st : InState) (ino : Nat) (ip : Inode) : PeeksBy (markInode st ino ip) := by
  refine keeps_ite (keeps_pure peekBy_law) (bindMod_peeks ?_)
  refine keeps_ite (modChk_peeks _) (keeps_ite (keeps_pure peekBy_law) (bindMod_peeks ?_))
  exact bindEngFs_peeks fun fs => markSlots_peeks ip _ _

theorem markInodes_peeks (todo ino : Nat) (state : Nat → InState) : PeeksBy (markInodes todo ino state) := by
  induction todo generalizing ino state with
  | zero => exact keeps_pure peekBy_law
  | succ todo ih =>
    refine bindEngFs_peeks fun fs => ?_
    refine keeps_bind peekBy_law (eng_peeks (keeps_attempt (readInode_peeks ino))) fun r => ?_
    cases r with
    | error e => exact bindMod_peeks (ih _ _)
    | ok ip => exact keeps_bind peekBy_law (markInode_peeks _ _ _) fun _ => ih _ _

theorem markFree_peeks (bno : Nat) : PeeksBy (markFree bno) :=
  bindEngFs_peeks fun _ => bindChk_peeks fun _ => keeps_ite (modChk_peeks _) (modChk_peeks _)

theorem walkFreeList_peeks (fuel n : Nat) (cur : Nat → Nat) (seen : List Nat) (guard : Nat) :
    PeeksBy (walkFreeList fuel n cur seen guard) := by
  induction fuel generalizing n cur seen guard with
  | zero => exact keeps_throw peekBy_law
  | succ fuel ih =>
    refine bindEngFs_peeks fun fs => keeps_ite (keeps_pure peekBy_law) (keeps_ite (keeps_pure peekBy_law) ?_)
    refine keeps_ite (modChk_peeks _)
      (keeps_ite (modChk_peeks _) (keeps_bind peekBy_law (markFree_peeks _) fun _ => ?_))
    refine keeps_ite (modChk_peeks _) (keeps_ite ?_ (ih _ _ _ _))
    refine keeps_bind peekBy_law (eng_peeks (keeps_attempt (v7fsReadBlock_peeks _))) fun r => ?_
    cases r with
    | error e => exact modChk_peeks _
    | ok blk => exact keeps_ite (modChk_peeks _) (ih _ _ _ _)

theorem walkFreeBitmap_peeks (todo i : Nat) : PeeksBy (walkFreeBitmap todo i) := by
  induction todo generalizing i with
  | zero => exact keeps_pure peekBy_law
  | succ todo ih =>
    refine bindEngFs_peeks fun fs => ?_
    refine keeps_bind peekBy_law (keeps_onlyIf peekBy_law (markFree_peeks _)) fun _ => ?_
    exact ih _

theorem markFreeBit_peeks (off : Nat) : PeeksBy (markFreeBit off) :=
  bindChk_peeks fun _ => bindMod_peeks (keeps_ite (modChk_peeks _) (modChk_peeks _))

theorem v1WalkFree_peeks (todo b : Nat) : PeeksBy (v1WalkFree todo b) := by
  induction todo generalizing b with
  | zero => exact keeps_pure peekBy_law
  | succ todo ih =>
    refine bindEngFs_peeks fun fs => ?_
    refine keeps_bind peekBy_law (keeps_onlyIf peekBy_law (markFreeBit_peeks _)) fun _ => ?_
    exact ih _

theorem p7NodeMap_peeks (fl : Nat → Nat) (inside : Nat → Bool) (n : Nat) (freeb : Buf) :
    PeeksBy (p7NodeMap fl inside n freeb) := by
  induction n generalizing freeb with
  | zero => exact keeps_pure peekBy_law
  | succ n ih =>
    refine keeps_bind peekBy_law (ih freeb) fun freeb' => keeps_ite (keeps_pure peekBy_law) ?_
    exact keeps_ite (keeps_pure peekBy_law) (bindMod_peeks (keeps_pure peekBy_law))

theorem p7FreeMap_peeks (guard head : Nat) (freeb : Buf) : PeeksBy (p7FreeMap guard head freeb) := by
  induction guard generalizing head freeb with
  | zero => exact keeps_pure peekBy_law
  | succ guard ih =>
    refine keeps_ite (keeps_pure peekBy_law) ?_
    refine keeps_bind peekBy_law (eng_peeks (keeps_attempt (readWords_peeks head))) fun r => ?_
    cases r with
    | error e => exact bindMod_peeks (keeps_pure peekBy_law)
    | ok fl => exact keeps_bind peekBy_law (p7NodeMap_peeks _ _ _ _) fun _ => ih _ _

theorem p7WalkFree_peeks (freeb : Buf) (todo off : Nat) : PeeksBy (p7WalkFree freeb todo off) := by
  induction todo generalizing off with
  | zero => exact keeps_pure peekBy_law
  | succ todo ih => exact keeps_bind peekBy_law (keeps_onlyIf peekBy_law (markFreeBit_peeks _)) fun _ => ih _

theorem walkFree_peeks : PeeksBy walkFree := by
  refine bindEngFs_peeks fun fs => ?_
  have hlist : PeeksBy (if fs.desc.freemap ≠ .list then walkFreeBitmap fs.v8Nbits 0
      else walkFreeList (fs.fsize + fs.desc.nicfree + 2) fs.nfree fs.free [] 0) :=
    keeps_ite (walkFreeBitmap_peeks _ _) (walkFreeList_peeks _ _ _ _ _)
  cases fs.desc.ops with
  | v1 => exact v1WalkFree_peeks _ _
  | pdp7 => exact keeps_bind peekBy_law (p7FreeMap_peeks _ _ _) fun _ => p7WalkFree_peeks _ _ _
  | v6 => exact hlist
  | v7 => exact hlist
  | bsd211 => exact hlist

theorem countMissing_peeks (todo off : Nat) : PeeksBy (countMissing todo off) := by
  induction todo generalizing off with
  | zero => exact keeps_pure peekBy_law
  | succ todo ih =>
    exact bindChk_peeks fun c => keeps_bind peekBy_law (keeps_onlyIf peekBy_law (modChk_peeks _)) fun _ => ih _

theorem checkTotals_peeks (maxino : Nat) : PeeksBy (checkTotals maxino) := by
  refine bindEngFs_peeks fun fs => keeps_ite (bindChk_peeks fun c => ?_) (keeps_pure peekBy_law)
  exact keeps_bind peekBy_law (keeps_onlyIf peekBy_law (modChk_peeks _)) fun _ =>
    keeps_onlyIf peekBy_law (modChk_peeks _)

theorem countEntries_peeks (d : Desc) (maxino : Nat) (state : Nat → InState) (ip : Inode) (fuel : Nat)
    (st : Iter)
    (ecount : Nat → Nat) : PeeksBy (countEntries d maxino state ip fuel st ecount) := by
  induction fuel generalizing st ecount with
  | zero => exact keeps_throw peekBy_law
  | succ fuel ih =>
    refine keeps_bind peekBy_law (eng_peeks (inside_peeks (dirIter_peeks st) _)) fun r => ?_
    split
    · exact keeps_pure peekBy_law
    · exact keeps_pure peekBy_law
    · refine keeps_ite (ih _ _) (keeps_ite (bindMod_peeks (ih _ _)) ?_)
      exact keeps_bind peekBy_law (keeps_onlyIf peekBy_law (modChk_peeks _)) fun _ => ih _ _

theorem countDirs_peeks (maxino : Nat) (state : Nat → InState) (todo ino : Nat) (ecount : Nat → Nat) :
    PeeksBy (countDirs maxino state todo ino ecount) := by
  induction todo generalizing ino ecount with
  | zero => exact keeps_pure peekBy_law
  | succ todo ih =>
    refine bindEngFs_peeks fun fs => ?_
    refine keeps_bind peekBy_law (eng_peeks (keeps_attempt (readInode_peeks ino))) fun r => ?_
    cases r with
    | error e => exact ih _ _
    | ok ip =>
      exact keeps_ite (keeps_bind peekBy_law (countEntries_peeks _ _ _ _ _ _ _) fun _ => ih _ _) (ih _ _)

theorem compareCount_peeks (st : InState) (cnt ino : Nat) (ip : Inode) : PeeksBy (compareCount st cnt ino ip) :=
  bindEngFs_peeks fun _ => keeps_ite (modChk_peeks _) <| keeps_ite (keeps_pure peekBy_law) <|
    keeps_ite (keeps_pure peekBy_law) <| keeps_ite (keeps_pure peekBy_law) <|
    keeps_ite (keeps_pure peekBy_law) (modChk_peeks _)

theorem compareCounts_peeks (state : Nat → InState) (ecount : Nat → Nat) (todo ino : Nat) :
    PeeksBy (compareCounts state ecount todo ino) := by
  induction todo generalizing ino with
  | zero => exact keeps_pure peekBy_law
  | succ todo ih =>
    refine keeps_bind peekBy_law (eng_peeks (keeps_attempt (readInode_peeks ino))) fun r => ?_
    cases r with
    | error e => exact ih _
    | ok ip => exact keeps_bind peekBy_law (compareCount_peeks _ _ _ _) fun _ => ih _

/-- A report changes nothing on the volume. -/
theorem filsysCheckCommon_peeks : PeeksBy filsysCheckCommon := by
  refine bindEngFs_peeks fun fs => keeps_ite (bindMod_peeks (keeps_pure peekBy_law)) ?_
  refine keeps_bind peekBy_law (markInodes_peeks _ _ _) fun state => bindChk_peeks fun c => ?_
  refine keeps_ite (keeps_throw peekBy_law) <|
    keeps_ite (keeps_pure peekBy_law) (keeps_bind peekBy_law walkFree_peeks fun _ => ?_)
  refine keeps_bind peekBy_law (countMissing_peeks _ _) fun _ => ?_
  refine keeps_bind peekBy_law (checkTotals_peeks _) fun _ => ?_
  refine keeps_bind peekBy_law (countDirs_peeks _ _ _ _ _) fun ecount => ?_
  refine keeps_bind peekBy_law (compareCounts_peeks _ _ _ _) fun _ => ?_
  refine bindChk_peeks fun _ => ?_
  exact keeps_pure peekBy_law

end Filsys.Engine
