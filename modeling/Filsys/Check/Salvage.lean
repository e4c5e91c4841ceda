/-
  Filsys.Check.Salvage — the free space a salvage leaves (`filsys_check_common` with
  `FILSYS_CK_SALVAGE`).

  The rebuild trusts the first pass's usage map, and none of what it hands out is marked
  there (`salvage_rebuilds`), whichever of its writes fail. Where every read of the pass
  went through, every type is known and every indirect block is in order, the marks are
  what the inodes reference (`InOrder.marked`).
-/

import Filsys.Alloc.Nodes
import Filsys.Alloc.Rebuild
import Filsys.Alloc.Regrow
import Filsys.Check.Pass

namespace Filsys.Check

open Filsys.Lib Filsys.Engine Filsys.Alloc

/-! ## Volumes -/

/-- A read-write mount, byte- or word-addressed. -/
inductive Volume (s : Mnt) : Prop
  | bytes : Mounted s → Rebuildable s.fs → Volume s
  | words : Mounted7 s → Volume s

/-- Whether block `b` lies in the image; a byte-addressed volume does as a whole. -/
def readable (s : Mnt) (b : Nat) : Bool := if s.fs.desc.ops = .pdp7 then inImage s b else true

def inodeReadable (s : Mnt) (n : Nat) : Bool := if s.fs.desc.ops = .pdp7 then inImage s (p7Itod n) else true

theorem readable_of_sameVol {s u : Mnt} (h : SameVol s u) : readable u = readable s := by
  funext b
  unfold readable inImage
  rw [shape_desc h.shape, decide_eq_decide.mpr (wordsIn_of_sameVol h b)]

theorem Volume.reads {s : Mnt} (hv : Volume s) : Reads s (readable s) (inodeReadable s) := by
  unfold readable inodeReadable
  cases hv with
  | bytes hm hr =>
    simp only [if_neg hm.notPdp7]
    exact reads_mounted hm
  | words hm =>
    simp only [if_pos hm.pdp7]
    exact reads_mounted7 hm

theorem Volume.room {s : Mnt} (hv : Volume s) : opsDataStart s.fs < opsDataEnd s.fs := by
  cases hv with
  | bytes hm => exact hm.room
  | words hm =>
    unfold opsDataStart opsDataEnd
    rw [hm.pdp7]
    show p7Datastart < p7Kdata
    decide

/-- Every block number the inodes of the image hold. -/
def refs (s : Mnt) : List Ref := inodesAt s.fs s.img (readable s) (inodeReadable s) (opsMaxino s.fs) 1

/-- What the first pass makes of the image, all its reads going through. -/
def marks (s : Mnt) : Chk := passInodes s.fs s.img (readable s) (inodeReadable s) (opsMaxino s.fs) 1 {}

/-- No read of the first pass fails. -/
def PassQuiet (s : Mnt) : Prop := Quiet s s.ios (firstPass s).1.ios

theorem firstPass_eq {s : Mnt} (hv : Volume s) : ∃ v k, s.ios ≤ k ∧
    markInodes (opsMaxino s.fs) 1 (fun _ => .unalloc) (s, {}) = .ok v ({ s with ios := k }, (firstPass s).2) ∧
    firstPass s = ({ s with ios := k }, (firstPass s).2) ∧ (PassQuiet s → (firstPass s).2 = marks s) := by
  have hrun := runs_markInodes hv.reads hv.room (opsMaxino s.fs) 1 (fun _ => .unalloc)
    (Nat.le_refl 1) (by omega) s.ios {}
  have hs : ({ s with ios := s.ios } : Mnt) = s := rfl
  rw [hs] at hrun
  cases hr : markInodes (opsMaxino s.fs) 1 (fun _ => .unalloc) (s, {}) with
  | error e t =>
    rw [hr] at hrun
    exact hrun.elim
  | ok v t =>
    rw [hr] at hrun
    obtain ⟨k, hk, ht, hc⟩ := hrun
    have hfirst : firstPass s = t := by
      unfold firstPass final
      rw [hr]
    refine ⟨v, k, hk, ?_, ?_, ?_⟩
    · rw [hfirst, ← ht]
    · rw [hfirst, ← ht]
    · intro hq
      unfold PassQuiet at hq
      rw [hfirst, ht] at hq
      rw [hfirst]
      exact hc hq

/-- The whole of `s`, its transfers working from now on. -/
def calm (s : Mnt) : Mnt := { s with env := { s.env with fails := fun _ => false } }

/-! ## What a salvage leaves -/

/-- What a PDP-7 rebuild writes goes out. Elsewhere a write that fails loses free blocks at worst. -/
structure WritesGoOut (s : Mnt) : Prop where
  nodes : s.fs.desc.ops = .pdp7 → NodesGoOut (firstPass s).2.bmap (p7Kdata - p7Datastart) p7Kdata
    { (firstPass s).1 with fs := { (firstPass s).1.fs with freelist := 0, tfree := 0 } }

theorem writesGoOut_bytes (s : Mnt) (h : s.fs.desc.ops ≠ .pdp7) : WritesGoOut s := ⟨fun hp => absurd hp h⟩

/-- However often it is called, the allocator of `t` returns different unmarked data blocks. -/
structure Rebuilds (s t : Mnt) (bmap : Buf) : Prop where
  nodup : ∀ k, (ballocs k (calm t)).Nodup
  unmarked : ∀ k, ∀ b ∈ ballocs k (calm t), InArea s.fs b ∧ getBit bmap (b - opsDataStart s.fs) = false

theorem rebuilds_bytes {s t : Mnt} (hm : Mounted s) {bmap : Buf}
    (h : Rebuilt s (Unmarked s.fs bmap) t) : Rebuilds s t bmap := by
  have hmt : Mounted (calm t) := by
    obtain ⟨h1, h2, h3, h4, h5, h6, h7, h8, h9, h10⟩ := hm.of_sameVol h.toSameVol
    exact ⟨h1, h2, h3, h4, h5, h6, h7, h8, h9, h10⟩
  have hok : SpaceOk (calm t) := h.ok
  refine ⟨fun k => (ballocs_spec hmt hok (fun _ => rfl) k).1, fun k b hb => ?_⟩
  have hfree : IsFree t b := (ballocs_spec hmt hok (fun _ => rfl) k).2.1 b hb
  exact h.sub b hfree

theorem rebuilds_words {s t : Mnt} (hm : Mounted7 s) {bmap : Buf}
    (h : Regrown s (clearBelow bmap (p7Kdata - p7Datastart) p7Kdata) t) : Rebuilds s t bmap := by
  have hmt : Mounted7 (calm t) := by
    obtain ⟨h1, h2, h3, h4, h5⟩ := hm.of_sameVol h.toSameVol
    exact ⟨h1, h2, h3, h4, h5⟩
  obtain ⟨L, hL, hnd, hsub, hin, -⟩ := h.list
  have hLc : Lists (calm t) L := hL
  have hinc : ∀ x ∈ L, WordsIn (calm t) x := fun x hx => (wordsIn_of_sameVol h.toSameVol x).mpr (hin x hx)
  have heq : ∀ k, ballocs k (calm t) = L.take k := by
    intro k
    rw [ballocs_pdp7 hmt fun _ => rfl]
    exact hLc.ballocs7 hmt (fun _ => rfl) hnd hinc k
  have hstart : opsDataStart s.fs = p7Datastart := by unfold opsDataStart; rw [hm.pdp7]
  have hend : opsDataEnd s.fs = p7Kdata := by unfold opsDataEnd; rw [hm.pdp7]
  refine ⟨fun k => ?_, fun k b hb => ?_⟩
  · rw [heq k]
    exact hnd.sublist (List.take_sublist _ _)
  · rw [heq k] at hb
    obtain ⟨h1, h2, h3⟩ := hsub b (List.mem_of_mem_take hb)
    refine ⟨⟨?_, ?_⟩, ?_⟩
    · rw [hstart]
      exact Nat.le_trans (by decide) h1
    · rw [hend]
      exact h2
    · rw [hstart]
      exact h3

/-- The salvage after its pass: the rebuild, unless too many blocks were bad or the map has no bytes. -/
theorem filsysCheckSalvage_body {s : Mnt} (hv : Volume s) : filsysCheckSalvage (s, {}) =
    (if mapOverrun s.fs (firstPass s).2 then throw .overrun
      else if 10 < (firstPass s).2.badBlocks then pure none
      else eng (makefree (opsDataEnd s.fs - opsDataStart s.fs) (firstPass s).2.bmap) >>= fun _ =>
        pure (some (decide ((firstPass s).2.errors = 0))) : MC (Option Bool)) (firstPass s) := by
  obtain ⟨v, k, -, hrun, hfirst, -⟩ := firstPass_eq hv
  unfold filsysCheckSalvage
  rw [bind_eq_of_ok (show eng getFs (s, {}) = .ok s.fs (s, {}) from rfl),
    if_neg (Nat.not_le.mpr hv.room), bind_eq_of_ok hrun, ← hfirst]
  rfl

theorem filsysCheckSalvage_eq {s : Mnt} (hv : Volume s) {r : Bool} {t : Mnt × Chk}
    (h : filsysCheckSalvage (s, {}) = .ok (some r) t) :
    ∃ n, makefree (opsDataEnd s.fs - opsDataStart s.fs) (firstPass s).2.bmap (firstPass s).1 = .ok n t.1 := by
  have hgoal : Post (filsysCheckSalvage (s, {})) (fun v t => v.isSome = true →
      ∃ n, makefree (opsDataEnd s.fs - opsDataStart s.fs) (firstPass s).2.bmap (firstPass s).1 =
      .ok n t.1) fun _ _ => True := by
    rw [filsysCheckSalvage_body hv]
    refine post_ite (fun _ => trivial) fun _ => ?_
    refine post_ite (fun _ hnone => by cases hnone) fun _ => post_bind (post_outside ?_)
    cases hmake : makefree (opsDataEnd s.fs - opsDataStart s.fs) (firstPass s).2.bmap (firstPass s).1 with
    | error e u => exact trivial
    | ok n u => exact fun _ => ⟨n, rfl⟩
  exact hgoal.of_ok h rfl

theorem makefree_pdp7 {s : Mnt} (hm : Mounted7 s) (nblk : Nat) (bmap : Buf) :
    makefree nblk bmap s = p7fsMakefree bmap s := by
  unfold makefree
  rw [bindFs_run]
  rw [hm.pdp7]

/-- A salvage that reaches the rebuild makes the free space out of what its pass left unmarked. -/
theorem salvage_rebuilds {s : Mnt} (hv : Volume s) (hw : WritesGoOut s) {r : Bool} {t : Mnt × Chk}
    (h : filsysCheckSalvage (s, {}) = .ok (some r) t) : Rebuilds s t.1 (firstPass s).2.bmap := by
  obtain ⟨n, hmake⟩ := filsysCheckSalvage_eq hv h
  obtain ⟨v, k, -, -, hfirst, -⟩ := firstPass_eq hv
  have hmnt : (firstPass s).1 = { s with ios := k } := by rw [hfirst]
  rw [hmnt] at hmake
  cases hv with
  | bytes hm hr =>
    have hm1 : Mounted { s with ios := k } := hm.of_sameVol ⟨rfl, rfl, rfl⟩
    have hreb := (makefree_spec hm1 hr (firstPass s).2.bmap).of_ok hmake
    obtain ⟨hnd, hun⟩ := rebuilds_bytes hm1 hreb
    exact ⟨hnd, hun⟩
  | words hm =>
    have hm1 : Mounted7 { s with ios := k } := hm.of_sameVol ⟨rfl, rfl, rfl⟩
    have hgo := hw.nodes hm.pdp7
    rw [hmnt] at hgo
    rw [makefree_pdp7 hm1] at hmake
    have hreg := (p7fsMakefree_spec hm1 (firstPass s).2.bmap hgo).of_ok hmake
    obtain ⟨hnd, hun⟩ := rebuilds_words hm1 hreg
    exact ⟨hnd, hun⟩

/-- A salvage of `s` that reaches the rebuild leaves nothing the inodes of `s` name to hand out. -/
def SalvageSafe (s : Mnt) : Prop :=
  ∀ r t, filsysCheckSalvage (s, {}) = .ok (some r) t → ∀ k, ∀ b ∈ ballocs k (calm t.1), ∀ x ∈ refs s, x.blk ≠ b

def rootedFs : Fs := { desc := descV7, isize := 3, fsize := 5, imgsize := 2560 }

/-- Five blocks of V7: the root directory in block 3, block 4 free; `fails` is what goes wrong. -/
def rooted (fails : Nat → Bool) : Mnt where
  fs := rootedFs
  img := smallImage
  size := 2560
  env := { fails := fails }

end Filsys.Check
