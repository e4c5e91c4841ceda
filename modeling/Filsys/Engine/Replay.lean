/-
  Filsys.Engine.Replay — reading the same mount twice.

  On a mount nobody else writes to and whose transfers do not fail, the transfer count
  decides nothing: every routine that only reads ends the same from whatever count it
  starts at. The first section is about the operations and path walks that only read.
-/

import Filsys.Engine.Path
import Filsys.Engine.Peek
import Filsys.Lib.Replay

namespace Filsys.Engine

open Filsys.Lib

/-! ## Operations that only read -/

theorem withIp_peeks {α : Type} (ip : Inode) {x : MI α} (hx : PeeksAt x) : Peeks (withIp ip x) := by
  refine keeps_bind readOnly_law (keeps_bind readOnly_law (inside_peeks hx _) fun _ =>
    keeps_pure readOnly_law) fun r => ?_
  obtain ⟨r, ip'⟩ := r
  cases r with
  | ok a => exact keeps_pure readOnly_law
  | error e => exact keeps_throw readOnly_law

theorem lookupIn_peeks (ip : Inode) (name : Name) : Peeks (lookupIn ip name) :=
  withIp_peeks ip (dirLookup_peeks name)

theorem filsysWalk_peeks (ino : Nat) (name : Name) : Peeks (filsysWalk ino name) :=
  bindFs_peeks fun _ => keeps_ite (keeps_throw readOnly_law) <|
  keeps_bind readOnly_law (readInode_peeks ino) fun _ =>
    keeps_ite (lookupIn_peeks _ _) (keeps_throw readOnly_law)

theorem walkAll_peeks (names : List Name) (cur : Nat) : Peeks (walkAll names cur) := by
  induction names generalizing cur with
  | nil => exact keeps_pure readOnly_law
  | cons name rest ih =>
    exact keeps_ite (keeps_throw readOnly_law) (keeps_bind readOnly_law (filsysWalk_peeks cur name)
      fun next => ih next)

theorem pathInode_peeks (path : Name) : Peeks (pathInode path) := by
  refine keeps_bind readOnly_law ?_ fun ino => keeps_bind readOnly_law (readInode_peeks ino)
    fun _ => keeps_pure readOnly_law
  exact bindFs_peeks fun _ => keeps_ite (walkAll_peeks _ _) (keeps_throw readOnly_law)

theorem dirAncestor_peeks (anc guard cur : Nat) : Peeks (dirAncestor anc guard cur) := by
  induction guard generalizing cur with
  | zero => exact keeps_throw readOnly_law
  | succ guard ih =>
    refine bindFs_peeks fun _ => keeps_ite (keeps_pure readOnly_law) (keeps_ite (keeps_pure readOnly_law) ?_)
    refine keeps_bind readOnly_law (readInode_peeks cur) fun ip => ?_
    refine keeps_bind readOnly_law (lookupIn_peeks ip dotdot) fun next => ?_
    exact ih next

theorem refuseCycle_peeks (isdir : Bool) (src dir : Nat) : Peeks (refuseCycle isdir src dir) := by
  unfold refuseCycle
  split
  · refine keeps_bind readOnly_law (dirAncestor_peeks _ _ _) fun a => ?_
    split
    · exact keeps_throw readOnly_law
    · exact keeps_pure readOnly_law
  · exact keeps_pure readOnly_law

theorem preflightCreate_peeks (ddir : Inode) (name : Name) : Peeks (preflightCreate ddir name) := by
  refine bindFs_peeks fun _ => keeps_ite (keeps_throw readOnly_law) (keeps_ite (keeps_throw readOnly_law) ?_)
  refine keeps_bind readOnly_law (keeps_attempt (lookupIn_peeks ddir name)) fun r => ?_
  split
  · exact keeps_throw readOnly_law
  · exact keeps_pure readOnly_law
  · exact keeps_throw readOnly_law

/-! ## Another transfer count -/

/-- The same mount at another transfer count, where no transfer fails. -/
def Recount (s t : Mnt) : Prop := Solo s ∧ (∀ k, s.env.fails k = false) ∧ ∃ k, t = { s with ios := k }

theorem recount_refl {s : Mnt} (hs : Solo s) (hq : ∀ k, s.env.fails k = false) : Recount s s :=
  ⟨hs, hq, s.ios, rfl⟩

theorem Recount.img {s t : Mnt} (h : Recount s t) : t.img = s.img := by
  obtain ⟨-, -, k, rfl⟩ := h
  rfl

theorem Recount.fs {s t : Mnt} (h : Recount s t) : t.fs = s.fs := by
  obtain ⟨-, -, k, rfl⟩ := h
  rfl

abbrev Rereads {α : Type} (x : M α) : Prop := Replays Recount x
abbrev RereadsAt {α : Type} (x : MI α) : Prop := Replays (OnGlobal Recount) x

theorem getFs_rereads : Rereads getFs := replays_look Recount.fs

theorem ioRead_rereads (n off : Nat) : Rereads (ioRead n off) := by
  intro s
  have hread : ∀ t, Recount s t → ioRead n off t =
      if s.size < off + n then .error .eio { s with ios := t.ios + 1 }
        else .ok (window s.img off n) { s with ios := t.ios + 1 } := by
    intro t hr
    obtain ⟨hsolo, hq, k, rfl⟩ := hr
    unfold ioRead
    simp only [hq, Bool.false_or, decide_eq_true_eq, hsolo k s.img]
  have hafter : ∀ t, Recount s t → Recount s { s with ios := t.ios + 1 } := fun t h => ⟨h.1, h.2.1, _, rfl⟩
  by_cases hsize : s.size < off + n
  · refine ⟨.error .eio, ?_⟩
    intro t h
    exact ⟨_, hafter t h, by rw [hread t h, if_pos hsize]⟩
  · refine ⟨.ok (window s.img off n), ?_⟩
    intro t h
    exact ⟨_, hafter t h, by rw [hread t h, if_neg hsize]⟩

theorem bindFs_rereads {α : Type} {f : Fs → M α} (hf : ∀ fs, Rereads (f fs)) : Rereads (getFs >>= f) :=
  replays_bind getFs_rereads hf

theorem v7fsReadBlock_rereads (b : Nat) : Rereads (v7fsReadBlock b) :=
  bindFs_rereads fun _ => replays_ite (ioRead_rereads _ _) replays_throw

theorem v1fsReadBlock_rereads (b : Nat) : Rereads (v1fsReadBlock b) :=
  bindFs_rereads fun _ => replays_ite (ioRead_rereads _ _) replays_throw

theorem readWords_rereads (b : Nat) : Rereads (readWords b) :=
  bindFs_rereads fun _ => replays_ite (replays_bind (replays_failAs (ioRead_rereads _ _)) fun _ =>
    replays_pure) replays_throw

theorem p7fsReadBlock_rereads (b : Nat) : Rereads (p7fsReadBlock b) :=
  bindFs_rereads fun _ => replays_bind (replays_failAs (readWords_rereads _)) fun _ => replays_pure

theorem p7fsBlkGet_rereads (b : Nat) : Rereads (p7fsBlkGet b) :=
  replays_bind (replays_failAs (readWords_rereads _)) fun _ => replays_pure

theorem readBlock_rereads (b : Nat) : Rereads (readBlock b) := by
  refine bindFs_rereads fun fs => ?_
  cases fs.desc.ops with
  | v1 => exact v1fsReadBlock_rereads b
  | pdp7 => exact p7fsReadBlock_rereads b
  | v6 => exact v7fsReadBlock_rereads b
  | v7 => exact v7fsReadBlock_rereads b
  | bsd211 => exact v7fsReadBlock_rereads b

theorem blkGet_rereads (b : Nat) : Rereads (blkGet b) := by
  refine bindFs_rereads fun fs => ?_
  cases fs.desc.ops with
  | v1 => exact v1fsReadBlock_rereads b
  | pdp7 => exact p7fsBlkGet_rereads b
  | v6 => exact v7fsReadBlock_rereads b
  | v7 => exact v7fsReadBlock_rereads b
  | bsd211 => exact v7fsReadBlock_rereads b

/-! ## The block map -/

theorem up_rereads {α : Type} {x : M α} (hx : Rereads x) : RereadsAt (up x) := replays_outside hx

theorem bindIp_rereads {α : Type} {f : Inode → MI α} (hf : ∀ ip, RereadsAt (f ip)) : RereadsAt (getIp >>= f) :=
  replays_bind (replays_look fun h => by rw [h.2]) hf

theorem bindUpFs_rereads {α : Type} {f : Fs → MI α} (hf : ∀ fs, RereadsAt (f fs)) :
    RereadsAt (up getFs >>= f) :=
  replays_bind (up_rereads getFs_rereads) hf

theorem indFollow_rereads (idxs : List Nat) (b : Nat) : Rereads (indFollow false idxs b) := by
  induction idxs generalizing b with
  | nil => exact replays_throw
  | cons i rest ih =>
    refine bindFs_rereads fun fs => replays_bind (replays_failAs (readBlock_rereads b)) fun buf => ?_
    exact replays_ite replays_pure (replays_ite replays_pure (ih _))

theorem bmapIndFollow_rereads (slot : Nat) (idxs : List Nat) : RereadsAt (bmapIndFollow false slot idxs) :=
  bindIp_rereads fun _ => replays_ite replays_pure (up_rereads (indFollow_rereads _ _))

theorem filsysBmap_rereads (lbn : Nat) : RereadsAt (filsysBmap lbn false) := by
  refine bindUpFs_rereads fun fs => ?_
  refine bindIp_rereads fun ip => ?_
  refine replays_bind ?_ fun _ => bindIp_rereads fun ip' => ?_
  · unfold onlyIf
    rw [if_neg (by simp)]
    exact replays_pure
  · split
    · exact replays_pure
    · split
      · rw [if_neg (by simp)]
        exact replays_pure
      · exact bmapIndFollow_rereads _ _

theorem inodeReadWord_rereads (woff : Nat) : RereadsAt (inodeReadWord woff) := by
  refine replays_bind (replays_failAs (filsysBmap_rereads _)) fun pbn => replays_ite replays_pure ?_
  exact replays_bind (up_rereads (replays_failAs (readWords_rereads _))) fun _ => replays_pure

/-! ## Inodes -/

theorem v7fsReadInode_rereads (ino : Nat) : Rereads (v7fsReadInode ino) :=
  bindFs_rereads fun _ => replays_ite replays_throw <| replays_ite replays_throw <|
    replays_bind (replays_failAs (v7fsReadBlock_rereads _)) fun _ => replays_pure

theorem v1fsReadInode_rereads (ino : Nat) : Rereads (v1fsReadInode ino) :=
  bindFs_rereads fun _ => replays_ite replays_throw <|
    replays_bind (replays_failAs (v1fsReadBlock_rereads _)) fun _ => replays_pure

theorem p7fsReadInode_rereads (ino : Nat) : Rereads (p7fsReadInode ino) := by
  refine replays_ite replays_throw (replays_bind (replays_failAs (readWords_rereads _)) fun words => ?_)
  refine replays_ite (replays_bind (replays_inside (inodeReadWord_rereads _) _) fun r => ?_) replays_pure
  obtain ⟨r, l⟩ := r
  cases r with
  | ok lastw => exact replays_pure
  | error e => exact replays_pure

theorem readInode_rereads (ino : Nat) : Rereads (readInode ino) := by
  refine bindFs_rereads fun fs => ?_
  cases fs.desc.ops with
  | v1 => exact v1fsReadInode_rereads ino
  | pdp7 => exact p7fsReadInode_rereads ino
  | v6 => exact v7fsReadInode_rereads ino
  | v7 => exact v7fsReadInode_rereads ino
  | bsd211 => exact v7fsReadInode_rereads ino

/-! ## Directories -/

theorem blkOrHole_rereads (pbn : Nat) : Rereads (blkOrHole pbn) :=
  replays_ite replays_pure (replays_failAs (blkGet_rereads pbn))

theorem fileReadLoop_rereads (size off fuel done : Nat) (buf : Buf) :
    RereadsAt (fileReadLoop size off fuel done buf) := by
  induction fuel generalizing done buf with
  | zero => exact replays_pure
  | succ fuel ih =>
    refine replays_ite replays_pure (bindUpFs_rereads fun fs => ?_)
    refine replays_bind (replays_failAs (filsysBmap_rereads _)) fun pbn => ?_
    exact replays_bind (up_rereads (blkOrHole_rereads pbn)) fun blk => ih _ _

theorem filsysFileRead_rereads (size : Nat) (off : Int) : RereadsAt (filsysFileRead size off) := by
  refine bindIp_rereads fun ip => replays_ite replays_throw (replays_ite replays_pure ?_)
  exact replays_bind (fileReadLoop_rereads _ _ _ _ _) fun _ => replays_pure

theorem dirScan_rereads (p : Buf → Nat → Bool) (fuel off : Nat) : RereadsAt (dirScan p fuel off) := by
  induction fuel generalizing off with
  | zero => exact replays_pure
  | succ fuel ih =>
    refine bindUpFs_rereads fun fs => bindIp_rereads fun ip => replays_ite ?_ replays_pure
    refine replays_bind (filsysFileRead_rereads _ _) fun r => ?_
    obtain ⟨got, blk⟩ := r
    dsimp only
    split
    · exact replays_pure
    · exact ih _

theorem v7fsDirLookup_rereads (name : Name) : RereadsAt (v7fsDirLookup name) := by
  refine bindUpFs_rereads fun fs => bindIp_rereads fun ip => replays_bind (dirScan_rereads _ _ _) fun r => ?_
  split
  · exact replays_pure
  · exact replays_throw

theorem bsd211DirLookup_rereads (name : Name) : RereadsAt (bsd211DirLookup name) := by
  refine bindUpFs_rereads fun fs => ?_
  refine replays_bind (bindIp_rereads fun _ => filsysFileRead_rereads _ _) fun r => ?_
  obtain ⟨n, buf⟩ := r
  dsimp only
  split
  · exact replays_pure
  · exact replays_throw

theorem p7NameAt_rereads (base : Nat) : RereadsAt (p7NameAt base) := by
  unfold p7NameAt
  refine replays_bind (replays_failAs (inodeReadWord_rereads _)) fun _ => ?_
  refine replays_bind (replays_failAs (inodeReadWord_rereads _)) fun _ => ?_
  refine replays_bind (replays_failAs (inodeReadWord_rereads _)) fun _ => ?_
  exact replays_bind (replays_failAs (inodeReadWord_rereads _)) fun _ => replays_pure

theorem p7Find_rereads (p : Name → Bool) (todo e : Nat) : RereadsAt (p7Find p todo e) := by
  induction todo generalizing e with
  | zero => exact replays_pure
  | succ todo ih =>
    refine replays_bind (replays_failAs (inodeReadWord_rereads _)) fun dino => replays_ite (ih _) ?_
    exact replays_bind (p7NameAt_rereads _) fun name => replays_ite replays_pure (ih _)

theorem p7fsDirLookup_rereads (name : Name) : RereadsAt (p7fsDirLookup name) := by
  refine bindIp_rereads fun ip => replays_ite replays_pure (replays_ite replays_pure ?_)
  refine replays_bind (p7Find_rereads _ _ _) fun r => ?_
  split
  · exact replays_pure
  · exact replays_throw

theorem dirLookup_rereads (name : Name) : RereadsAt (dirLookup name) := by
  refine bindUpFs_rereads fun fs => ?_
  cases fs.desc.ops with
  | v1 => exact v7fsDirLookup_rereads name
  | pdp7 => exact p7fsDirLookup_rereads name
  | v6 => exact v7fsDirLookup_rereads name
  | v7 => exact v7fsDirLookup_rereads name
  | bsd211 => exact bsd211DirLookup_rereads name

/-! ## Paths -/

theorem withIp_rereads {α : Type} (ip : Inode) {x : MI α} (hx : RereadsAt x) : Rereads (withIp ip x) := by
  refine replays_bind (replays_bind (replays_inside hx _) fun r => replays_pure) fun r => ?_
  obtain ⟨r, ip'⟩ := r
  cases r with
  | ok a => exact replays_pure
  | error e => exact replays_throw

theorem lookupIn_rereads (ip : Inode) (name : Name) : Rereads (lookupIn ip name) :=
  withIp_rereads ip (dirLookup_rereads name)

theorem filsysWalk_rereads (ino : Nat) (name : Name) : Rereads (filsysWalk ino name) :=
  bindFs_rereads fun _ => replays_ite replays_throw <| replays_bind (readInode_rereads ino) fun _ =>
    replays_ite (lookupIn_rereads _ _) replays_throw

theorem walkAll_rereads (names : List Name) (cur : Nat) : Rereads (walkAll names cur) := by
  induction names generalizing cur with
  | nil => exact replays_pure
  | cons name rest ih =>
    exact replays_ite replays_throw (replays_bind (filsysWalk_rereads cur name) fun next => ih next)

theorem pathLookup_rereads (path : Name) : Rereads (pathLookup path) :=
  bindFs_rereads fun _ => replays_ite (walkAll_rereads _ _) replays_throw

theorem pathInode_rereads (path : Name) : Rereads (pathInode path) :=
  replays_bind (pathLookup_rereads path) fun ino => replays_bind (readInode_rereads ino) fun _ => replays_pure

end Filsys.Engine
