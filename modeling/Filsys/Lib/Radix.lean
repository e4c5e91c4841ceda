/-
  Filsys.Lib.Radix — trees of nodes that name their children in numbered entries.

  A heap `H` gives the entry of each node at each index, and a table `R` the entries of the
  root; 0 names no node. A place is the list of indices that leads to a node. The tree is
  read place by place (`look`), so that a change is a statement about the places it
  touches: hanging a node under one place (`look_hang`) leaves every other place as it was.
-/

import Mathlib.Algebra.GroupWithZero.Nat
import Mathlib.Data.List.Nodup
import Mathlib.Data.List.Infix

namespace Filsys.Lib

variable {α ι : Type} [Zero α] [DecidableEq α]

/-! ## Places -/

/-- The node the entries `p` lead to from `a`; 0 where one is missing. -/
def walk (H : α → ι → α) : α → List ι → α
  | a, [] => a
  | a, i :: p => if a = 0 then 0 else walk H (H a i) p

/-- The node at a place. -/
def look (R : ι → α) (H : α → ι → α) : List ι → α
  | [] => 0
  | i :: p => walk H (R i) p

section Walk

variable (R : ι → α) (H : α → ι → α)

@[simp] theorem walk_zero (p : List ι) : walk H 0 p = 0 := by
  cases p with
  | nil => rfl
  | cons i p => exact if_pos rfl

theorem walk_append (a : α) (p q : List ι) : walk H a (p ++ q) = walk H (walk H a p) q := by
  induction p generalizing a with
  | nil => rfl
  | cons i p ih =>
    by_cases h0 : a = 0
    · rw [h0, walk_zero, walk_zero, walk_zero]
    · rw [List.cons_append, walk, if_neg h0, walk, if_neg h0]
      exact ih (H a i)

theorem look_append {p : List ι} (hp : p ≠ []) (q : List ι) : look R H (p ++ q) = walk H (look R H p) q := by
  cases p with
  | nil => exact absurd rfl hp
  | cons j p => exact walk_append H (R j) p q

theorem look_snoc {p : List ι} (hp : p ≠ []) (i : ι) :
    look R H (p ++ [i]) = if look R H p = 0 then 0 else H (look R H p) i := look_append R H hp [i]

end Walk

/-! ## Trees -/

section Trees

variable (V : List ι → Prop) (R : ι → α) (H : α → ι → α)

/-- The places above a place are places. -/
def Rooted : Prop := ∀ p i, V (p ++ [i]) → p ≠ [] → V p

/-- The node is at some place. -/
def Held (a : α) : Prop := a ≠ 0 ∧ ∃ p, V p ∧ look R H p = a

/-- No node is at two places. -/
def Unshared : Prop := ∀ p q, V p → V q → look R H p = look R H q → look R H p ≠ 0 → p = q

end Trees

section Change

variable {V : List ι → Prop} {R R' : ι → α} {H H' : α → ι → α}

/-- Every place is as it was but `place`, an empty one, where `a` now hangs without children. -/
theorem look_hang [DecidableEq ι] (hV : Rooted V) {place : List ι} {a : α} (hwas : look R H place = 0)
    (hup : ∀ q j, place = q ++ [j] → q ≠ [] → look R H q ≠ 0) (hroot : ∀ i, V [i] →
      R' i = if [i] = place then a else R i)
    (hent : ∀ q j, V (q ++ [j]) → q ≠ [] → look R H q ≠ 0 → H' (look R H q) j = if q ++ [j] =
      place then a else H (look R H q) j)
    (hleaf : ∀ j, V (place ++ [j]) → H' a j = 0) (q : List ι) (hq : V q) (hne : q ≠ []) :
    look R' H' q = if q = place then a else look R H q := by
  induction q using List.reverseRecOn with
  | nil => exact absurd rfl hne
  | append_singleton q j ih =>
    by_cases hq0 : q = []
    · subst hq0
      exact hroot j hq
    · have hVq := hV q j hq hq0
      rw [look_snoc _ _ hq0, ih hVq hq0]
      by_cases hp : q = place
      · subst hp
        have hself : q ++ [j] ≠ q := by simp
        rw [if_pos rfl, if_neg hself, look_snoc _ _ hq0, hwas, if_pos rfl]
        split
        · rfl
        · exact hleaf j hq
      · rw [if_neg hp]
        by_cases h0 : look R H q = 0
        · rw [if_pos h0, look_snoc _ _ hq0, if_pos h0, if_neg]
          intro hpl
          exact hup q j hpl.symm hq0 h0
        · rw [if_neg h0, hent q j hq hq0 h0, look_snoc _ _ hq0, if_neg h0]

/-- Where the entries of the nodes at places are as they were, so are the places. -/
theorem look_congr (hV : Rooted V) (hroot : ∀ i, V [i] → R' i = R i)
    (hent : ∀ q j, V (q ++ [j]) → q ≠ [] → look R H q ≠ 0 → H' (look R H q) j = H (look R H q) j)
    (q : List ι) (hq : V q) :
    look R' H' q = look R H q := by
  induction q using List.reverseRecOn with
  | nil => rfl
  | append_singleton q j ih =>
    by_cases hq0 : q = []
    · subst hq0
      exact hroot j hq
    · rw [look_snoc _ _ hq0, look_snoc _ _ hq0, ih (hV q j hq hq0)]
      by_cases h0 : look R H q = 0
      · rw [if_pos h0, if_pos h0]
      · rw [if_neg h0, if_neg h0, hent q j hq hq0 h0]

/-- A new node at one place is shared with no other. -/
theorem Unshared.hang [DecidableEq ι] (h : Unshared V R H) {place : List ι} {a : α}
    (hfresh : ¬ Held V R H a) (hne : ∀ q, V q → q ≠ [])
    (hlook : ∀ q, V q → q ≠ [] → look R' H' q = if q = place then a else look R H q) : Unshared V R' H' := by
  intro p q hp hq heq h0
  rw [hlook p hp (hne p hp)] at heq h0
  rw [hlook q hq (hne q hq)] at heq
  by_cases h1 : p = place <;> by_cases h2 : q = place
  · rw [h1, h2]
  · rw [if_pos h1, if_neg h2] at heq
    rw [if_pos h1] at h0
    exact absurd ⟨h0, q, hq, heq.symm⟩ hfresh
  · rw [if_neg h1, if_pos h2] at heq
    rw [if_neg h1] at h0
    exact absurd ⟨heq ▸ h0, p, hp, heq⟩ hfresh
  · rw [if_neg h1, if_neg h2] at heq
    rw [if_neg h1] at h0
    exact h p q hp hq heq h0

/-- The places see the same nodes. -/
theorem Unshared.congr (h : Unshared V R H) (hlook : ∀ q, V q → look R' H' q = look R H q) :
    Unshared V R' H' := by
  intro p q hp hq heq h0
  rw [hlook p hp] at heq h0
  rw [hlook q hq] at heq
  exact h p q hp hq heq h0

end Change

end Filsys.Lib
