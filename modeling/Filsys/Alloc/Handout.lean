/-
  Filsys.Alloc.Handout — what an allocator hands out, call after call.

  With no transfer failing, a call returns a free block and takes it alone out of the
  free space, or finds no block free. So the calls return every free block, each once
  (`ballocs_spec`, `ballocs_all`). The PDP-7's node list is read off in `Alloc.Nodes`.
-/

import Filsys.Alloc.Nodes
import Filsys.Alloc.Space

namespace Filsys.Alloc

open Filsys.Lib Filsys.Engine

/-- The blocks the next `k` calls of `alloc->balloc` return. -/
def ballocs : Nat → Mnt → List Nat
  | 0, _ => []
  | k + 1, s =>
    match balloc s with
    | .ok b t => b :: ballocs k t
    | .error _ t => ballocs k t

/-- The calls return different free blocks; while one is left they go on returning. -/
theorem ballocs_spec {s : Mnt} (hm : Mounted s) (hok : SpaceOk s) (hq : ∀ k, s.env.fails k = false) (k : Nat) :
    (ballocs k s).Nodup ∧ (∀ b ∈ ballocs k s, IsFree s b) ∧ ∀ x, IsFree s x → x ∈ ballocs k s ∨
    (ballocs k s).length = k := by
  induction k generalizing s with
  | zero => exact ⟨List.nodup_nil, fun b hb => absurd hb List.not_mem_nil, fun _ _ => .inr rfl⟩
  | succ k ih =>
    rw [ballocs]
    cases hb : balloc s with
    | ok b t =>
      have htook := (balloc_spec hm hok).of_ok hb
      have hqt : ∀ j, t.env.fails j = false := by
        intro j
        rw [htook.env]
        exact hq j
      obtain ⟨hnd, hfree, hall⟩ := ih (hm.of_sameVol htook.toSameVol) htook.ok hqt
      refine ⟨List.nodup_cons.mpr ⟨fun hmem => ?_, hnd⟩, fun x hx => ?_, fun x hx => ?_⟩
      · exact ((htook.free b).mp (hfree b hmem)).2 rfl
      · rcases List.mem_cons.mp hx with rfl | hx
        · exact htook.was
        · exact ((htook.free x).mp (hfree x hx)).1
      · by_cases hxb : x = b
        · exact .inl (by rw [hxb]; exact List.mem_cons_self)
        · rcases hall x ((htook.free x).mpr ⟨hx, hxb⟩) with h | h
          · exact .inl (List.mem_cons_of_mem _ h)
          · exact .inr (by rw [List.length_cons, h])
    | error e t =>
      have hlost := (balloc_spec hm hok).of_error hb
      have hqt : ∀ j, t.env.fails j = false := by
        intro j
        rw [hlost.env]
        exact hq j
      obtain ⟨hnd, hfree, -⟩ := ih (hm.of_sameVol hlost.toSameVol) hlost.ok hqt
      refine ⟨hnd, ?_, ?_⟩
      · intro x hx
        exact hlost.free x (hfree x hx)
      · intro x hx
        exact absurd hx (hlost.none hq x)

/-- Enough calls return every free block, each of them once. -/
theorem ballocs_all {s : Mnt} (hm : Mounted s) (hok : SpaceOk s) (hq : ∀ k, s.env.fails k = false)
    {k : Nat} (hk : s.fs.fsize < k)
    {b : Nat} (hb : IsFree s b) : (ballocs k s).count b = 1 := by
  obtain ⟨hnd, hfree, hall⟩ := ballocs_spec hm hok hq k
  have hmem : b ∈ ballocs k s := by
    rcases hall b hb with h | h
    · exact h
    · have hle := nodup_length_le hnd fun x hx => (hok.data (hfree x hx)).lt_fsize hm
      omega
  exact List.count_eq_one_of_mem hnd hmem

/-! ## PDP-7 -/

/-- On the PDP-7 they are the calls of `p7fs_balloc`. -/
theorem ballocs_pdp7 {s : Mnt} (hm : Mounted7 s) (hq : ∀ k, s.env.fails k = false) (k : Nat) :
    ballocs k s = ballocs7 k s := by
  induction k generalizing s with
  | zero => rfl
  | succ k ih =>
    have heq : balloc s = p7fsBalloc s := by
      obtain ⟨bo, wc, h⟩ := hm.format
      unfold balloc
      rw [bindFs_run]
      rw [h]
      rfl
    have hvol : Post (p7fsBalloc s) (fun _ t => SameVol s t) (fun _ t => SameVol s t) := by
      by_cases hstop : s.fs.freelist = 0 ∨ ¬ WordsIn s s.fs.freelist
      · refine (post_p7fsBalloc_stop hm hq (holds7_self s) hstop).mono (fun _ _ h => h.elim) ?_
        intro e t hr
        obtain ⟨rfl, -⟩ := hr
        exact sameVol_law.refl t
      · have hin : WordsIn s s.fs.freelist := not_not.mp fun h => hstop (.inr h)
        refine (post_p7fsBalloc hm hq (holds7_self s) (fun h => hstop (.inl h)) hin).mono ?_ ?_
        · exact fun _ _ h => h.2.2.2
        · exact fun _ _ h => h.2.2
    rw [ballocs, ballocs7, heq]
    cases hb : p7fsBalloc s with
    | ok b t =>
      have ht := hvol.of_ok hb
      show b :: ballocs k t = b :: ballocs7 k t
      rw [ih (hm.of_sameVol ht) (by intro j; rw [ht.env]; exact hq j)]
    | error e t =>
      have ht := hvol.of_error hb
      show ballocs k t = ballocs7 k t
      rw [ih (hm.of_sameVol ht) (by intro j; rw [ht.env]; exact hq j)]

end Filsys.Alloc
