/-
  Filsys.Lib.Cut — cutting trees of numbered entries at a leaf.

  A node `k` levels above the leaves has the leaves below it numbered `0 … n ^ k - 1`, the
  first entry's first. `Cut` says what cutting a tree at leaf `skip` does: the leaves from
  there on are holes, the ones before it as they were, and the nodes taken out together
  with those left are the nodes there were. Cuts of trees that share no node compose
  (`Sweep`), and cutting the children of a node cuts the node (`Cut.node`).
-/

import Filsys.Lib.Radix
import Mathlib.Data.List.Pairwise
import Mathlib.Data.List.Perm.Basic

namespace Filsys.Lib

/-- Entry `i` of node `a`; 0 names no node. -/
abbrev Heap := Nat → Nat → Nat

/-! ## Nodes and leaves -/

/-- `a` and the nodes `k` levels below it. -/
def nodes (n : Nat) (H : Heap) : Nat → Nat → List Nat
  | 0, a => if a = 0 then [] else [a]
  | k + 1, a => if a = 0 then [] else a :: (List.range n).flatMap fun i => nodes n H k (H a i)

/-- Leaf `r` of the tree of `k` levels below `a`. -/
def leaf (n : Nat) (H : Heap) : Nat → Nat → Nat → Nat
  | 0, a, _ => a
  | k + 1, a, r => if a = 0 then 0 else leaf n H k (H a (r / n ^ k % n)) r

section Nodes

variable {n : Nat} {H H' : Heap}

@[simp] theorem nodes_zero (k : Nat) : nodes n H k 0 = [] := by
  cases k with
  | zero => exact if_pos rfl
  | succ k => exact if_pos rfl

@[simp] theorem leaf_zero (k r : Nat) : leaf n H k 0 r = 0 := by
  cases k with
  | zero => rfl
  | succ k => exact if_pos rfl

theorem nodes_succ {a : Nat} (h : a ≠ 0) (k : Nat) :
    nodes n H (k + 1) a = a :: (List.range n).flatMap fun i => nodes n H k (H a i) := if_neg h

theorem mem_nodes_self {k a : Nat} (h : a ≠ 0) : a ∈ nodes n H k a := by
  cases k with
  | zero =>
    rw [nodes, if_neg h]
    exact List.mem_singleton.mpr rfl
  | succ k =>
    rw [nodes_succ h]
    exact List.mem_cons_self

theorem mem_nodes_child {k a i c : Nat} (h : a ≠ 0) (hi : i < n) (hc : c ∈ nodes n H k (H a i)) :
    c ∈ nodes n H (k + 1) a := by
  rw [nodes_succ h]
  exact List.mem_cons_of_mem _ (List.mem_flatMap.mpr ⟨i, List.mem_range.mpr hi, hc⟩)

theorem ne_zero_of_mem_nodes {k a c : Nat} (h : c ∈ nodes n H k a) : c ≠ 0 := by
  induction k generalizing a with
  | zero =>
    rw [nodes] at h
    split at h
    · cases h
    · rw [List.mem_singleton.mp h]
      assumption
  | succ k ih =>
    by_cases h0 : a = 0
    · rw [h0, nodes_zero] at h
      cases h
    · rw [nodes_succ h0] at h
      rcases List.mem_cons.mp h with rfl | hrest
      · exact h0
      · obtain ⟨i, -, hi⟩ := List.mem_flatMap.mp hrest
        exact ih hi

/-- A tree whose nodes' entries are as they were is as it was. -/
theorem nodes_congr {k a : Nat} (h : ∀ c ∈ nodes n H k a, ∀ i, i < n → H' c i = H c i) :
    nodes n H' k a = nodes n H k a := by
  induction k generalizing a with
  | zero => rfl
  | succ k ih =>
    by_cases h0 : a = 0
    · rw [h0, nodes_zero, nodes_zero]
    · rw [nodes_succ h0, nodes_succ h0]
      congr 1
      refine List.flatMap_congr fun i hi => ?_
      have hi' := List.mem_range.mp hi
      rw [h a (mem_nodes_self h0) i hi']
      exact ih fun c hc => h c (mem_nodes_child h0 hi' hc)

theorem leaf_congr (hn : 0 < n) {k a : Nat} (h : ∀ c ∈ nodes n H k a, ∀ i, i < n → H' c i = H c i) (r : Nat) :
    leaf n H' k a r = leaf n H k a r := by
  induction k generalizing a with
  | zero => rfl
  | succ k ih =>
    by_cases h0 : a = 0
    · rw [h0, leaf_zero, leaf_zero]
    · have hi : r / n ^ k % n < n := Nat.mod_lt _ hn
      rw [leaf, leaf, if_neg h0, if_neg h0, h a (mem_nodes_self h0) _ hi]
      exact ih fun c hc => h c (mem_nodes_child h0 hi hc)

/-- The leaves of a child are a run of the node's. -/
theorem leaf_mod (k a r : Nat) : leaf n H k a (r % n ^ k) = leaf n H k a r := by
  have key : ∀ j, k ≤ j → ∀ a, leaf n H k a (r % n ^ j) = leaf n H k a r := by
    intro j
    induction k with
    | zero => exact fun _ _ => rfl
    | succ k ih =>
      intro hj a
      obtain ⟨m, rfl⟩ : ∃ m, j = k + 1 + m := ⟨j - (k + 1), by omega⟩
      have hdigit : r % n ^ (k + 1 + m) / n ^ k % n = r / n ^ k % n := by
        rw [show k + 1 + m = k + (m + 1) by omega, Nat.pow_add, Nat.mod_mul_right_div_self,
          Nat.pow_succ', Nat.mod_mod_of_dvd _ (Nat.dvd_mul_right n (n ^ m))]
      rw [leaf, leaf, hdigit, ih (by omega)]
  exact key k (Nat.le_refl k) a

end Nodes

/-! ## Nodes and places -/

section Places

variable {n : Nat} {H : Heap}

/-- A way down from a node. -/
def Below (n k : Nat) (p : List Nat) : Prop := p.length ≤ k ∧ ∀ i ∈ p, i < n

theorem below_nil (n k : Nat) : Below n k [] := ⟨Nat.zero_le k, fun _ hi => absurd hi List.not_mem_nil⟩

theorem below_cons {k i : Nat} {p : List Nat} : Below n (k + 1) (i :: p) ↔ i < n ∧ Below n k p := by
  unfold Below
  rw [List.length_cons, List.forall_mem_cons]
  constructor
  · rintro ⟨h1, h2, h3⟩
    exact ⟨h2, by omega, h3⟩
  · rintro ⟨h1, h2, h3⟩
    exact ⟨by omega, h1, h3⟩

theorem mem_nodes {k a c : Nat} : c ∈ nodes n H k a ↔ c ≠ 0 ∧ ∃ p, Below n k p ∧ walk H a p = c := by
  induction k generalizing a with
  | zero =>
    constructor
    · intro hc
      have h0 := ne_zero_of_mem_nodes hc
      rw [nodes] at hc
      split at hc
      · cases hc
      · exact ⟨h0, [], below_nil n 0, (List.mem_singleton.mp hc).symm⟩
    · intro h
      obtain ⟨h0, p, hp, rfl⟩ := h
      obtain rfl : p = [] := List.eq_nil_of_length_eq_zero (Nat.le_zero.mp hp.1)
      exact mem_nodes_self h0
  | succ k ih =>
    constructor
    · intro hc
      have h0 := ne_zero_of_mem_nodes hc
      by_cases ha : a = 0
      · rw [ha, nodes_zero] at hc
        cases hc
      · rw [nodes_succ ha] at hc
        rcases List.mem_cons.mp hc with rfl | hc
        · exact ⟨h0, [], below_nil n (k + 1), rfl⟩
        · obtain ⟨i, hi, hc⟩ := List.mem_flatMap.mp hc
          obtain ⟨-, p, hp, hw⟩ := ih.mp hc
          refine ⟨h0, i :: p, below_cons.mpr ⟨List.mem_range.mp hi, hp⟩, ?_⟩
          rw [walk, if_neg ha]
          exact hw
    · intro h
      obtain ⟨h0, p, hp, hw⟩ := h
      have ha : a ≠ 0 := by
        rintro rfl
        rw [walk_zero] at hw
        exact h0 hw.symm
      cases p with
      | nil =>
        rw [← show a = c from hw]
        exact mem_nodes_self ha
      | cons i p =>
        obtain ⟨hi, hp⟩ := below_cons.mp hp
        rw [walk, if_neg ha] at hw
        exact mem_nodes_child ha hi (ih.mpr ⟨h0, p, hp, hw⟩)

/-- The nodes are listed once each where no two ways down lead to one. -/
theorem nodup_nodes_iff {k a : Nat} : (nodes n H k a).Nodup ↔
    ∀ p q, Below n k p → Below n k q → walk H a p = walk H a q → walk H a p ≠ 0 → p = q := by
  induction k generalizing a with
  | zero =>
    have hnd : (nodes n H 0 a).Nodup := by
      rw [nodes]
      split
      · exact List.nodup_nil
      · exact List.nodup_singleton a
    refine ⟨fun _ p q hp hq _ _ => ?_, fun _ => hnd⟩
    rw [List.eq_nil_of_length_eq_zero (Nat.le_zero.mp hp.1),
      List.eq_nil_of_length_eq_zero (Nat.le_zero.mp hq.1)]
  | succ k ih =>
    by_cases ha : a = 0
    · subst ha
      rw [nodes_zero]
      refine ⟨?_, fun _ => List.nodup_nil⟩
      intro _ p q _ _ _ h0
      exact absurd (walk_zero H p) h0
    · have hstep : ∀ i p, walk H a (i :: p) = walk H (H a i) p := fun i p => if_neg ha
      rw [nodes_succ ha, List.nodup_cons, List.nodup_flatMap]
      constructor
      · intro hrun p q hp hq heq h0
        obtain ⟨hself, hsub, hdis⟩ := hrun
        have hbelow : ∀ i r, Below n (k + 1) (i :: r) → walk H a (i :: r) ≠ 0 →
          i < n ∧ walk H a (i :: r) ∈ nodes n H k (H a i) := by
          intro i r hr hr0
          obtain ⟨hi, hr⟩ := below_cons.mp hr
          rw [hstep] at hr0 ⊢
          exact ⟨hi, mem_nodes.mpr ⟨hr0, r, hr, rfl⟩⟩
        cases p with
        | nil =>
          cases q with
          | nil => rfl
          | cons j q =>
            obtain ⟨hj, hm⟩ := hbelow j q hq (heq ▸ h0)
            rw [← heq] at hm
            exact absurd (List.mem_flatMap.mpr ⟨j, List.mem_range.mpr hj, hm⟩) hself
        | cons i p =>
          obtain ⟨hi, hm⟩ := hbelow i p hp h0
          cases q with
          | nil =>
            rw [heq] at hm
            exact absurd (List.mem_flatMap.mpr ⟨i, List.mem_range.mpr hi, hm⟩) hself
          | cons j q =>
            obtain ⟨hj, hm'⟩ := hbelow j q hq (heq ▸ h0)
            by_cases hij : i = j
            · subst hij
              rw [hstep, hstep] at heq
              rw [hstep] at h0
              rw [ih.mp (hsub i (List.mem_range.mpr hi)) p q (below_cons.mp hp).2 (below_cons.mp hq).2 heq h0]
            · rw [← heq] at hm'
              have : Std.Symm (Function.onFun List.Disjoint fun i => nodes n H k (H a i)) :=
                ⟨fun _ _ h _ hx hy => h hy hx⟩
              exact absurd hm' (hdis.forall (List.mem_range.mpr hi) (List.mem_range.mpr hj) hij hm)
      · intro h
        refine ⟨fun hmem => ?_, fun i hi => ih.mpr fun p q hp hq heq h0 => ?_, ?_⟩
        · obtain ⟨i, hi, hm⟩ := List.mem_flatMap.mp hmem
          obtain ⟨-, p, hp, hw⟩ := mem_nodes.mp hm
          have := h [] (i :: p) (below_nil n _) (below_cons.mpr ⟨List.mem_range.mp hi, hp⟩)
            (by rw [hstep, hw]; rfl) ha
          cases this
        · have hi' := List.mem_range.mp hi
          have := h (i :: p) (i :: q) (below_cons.mpr ⟨hi', hp⟩) (below_cons.mpr ⟨hi', hq⟩)
            (by rw [hstep, hstep, heq]) (by rw [hstep]; exact h0)
          exact (List.cons.inj this).2
        · refine List.nodup_range.imp_of_mem fun {i j} hi hj hij c hc hc' => ?_
          obtain ⟨h0, p, hp, hw⟩ := mem_nodes.mp hc
          obtain ⟨-, q, hq, hw'⟩ := mem_nodes.mp hc'
          have := h (i :: p) (j :: q) (below_cons.mpr ⟨List.mem_range.mp hi, hp⟩)
            (below_cons.mpr ⟨List.mem_range.mp hj, hq⟩)
            (by rw [hstep, hstep, hw, hw']) (by rw [hstep, hw]; exact h0)
          exact hij (List.cons.inj this).1

end Places

/-! ## Cuts -/

/-- The tree of `k` levels below `a` cut at leaf `skip`: what is left hangs below `a'`, and `L` has been
    taken out. -/
structure Cut (n : Nat) (H : Heap) (k a skip : Nat) (H' : Heap) (a' : Nat) (L : List Nat) : Prop where
  frame : ∀ c, c ∉ nodes n H k a → ∀ i, i < n → H' c i = H c i
  clears : ∀ c i, i < n → H' c i = H c i ∨ H' c i = 0
  root : a' = a ∨ a' = 0
  perm : (L ++ nodes n H' k a').Perm (nodes n H k a)
  leaves : ∀ r, r < n ^ k → leaf n H' k a' r = if r < skip then leaf n H k a r else 0

section Cuts

variable {n : Nat} {H : Heap}

/-- Nothing is taken out where the cut lies past the last leaf, or there is no tree. -/
theorem Cut.keep {k a skip : Nat} (h : n ^ k ≤ skip ∨ a = 0) : Cut n H k a skip H a [] where
  frame _ _ _ _ := rfl
  clears _ _ _ := .inl rfl
  root := .inl rfl
  perm := .refl _
  leaves r hr := by
    rcases h with h | rfl
    · rw [if_pos (by omega)]
    · simp

/-- Everything is taken out. -/
theorem Cut.all {k a : Nat} {L : List Nat} (h : L.Perm (nodes n H k a)) : Cut n H k a 0 H 0 L where
  frame _ _ _ _ := rfl
  clears _ _ _ := .inl rfl
  root := .inr rfl
  perm := by
    rw [nodes_zero, List.append_nil]
    exact h
  leaves r _ := by
    rw [leaf_zero, if_neg (Nat.not_lt_zero r)]

/-- What is left was there. -/
theorem Cut.subset {H' : Heap} {k a skip a' : Nat} {L : List Nat} (h : Cut n H k a skip H' a' L)
    {c : Nat} (hc : c ∈ nodes n H' k a') :
    c ∈ nodes n H k a := h.perm.subset (List.mem_append_right L hc)

end Cuts

/-! ## Several trees -/

/-- The trees below `a i`, for the `i` of `is`, each cut at its own leaf. -/
structure Sweep (n : Nat) (H : Heap) (is : List Nat) (k a skip : Nat → Nat) (H' : Heap) (a' : Nat → Nat)
    (L : List Nat) : Prop where
  frame : ∀ c, c ∉ is.flatMap (fun i => nodes n H (k i) (a i)) → ∀ i, i < n → H' c i = H c i
  clears : ∀ c i, i < n → H' c i = H c i ∨ H' c i = 0
  root : ∀ i ∈ is, a' i = a i ∨ a' i = 0
  perm : (L ++ is.flatMap fun i => nodes n H' (k i) (a' i)).Perm (is.flatMap fun i => nodes n H (k i) (a i))
  leaves : ∀ i ∈ is, ∀ r, r < n ^ k i → leaf n H' (k i) (a' i) r = if r <
    skip i then leaf n H (k i) (a i) r else 0

section Sweeps

variable {n : Nat} {H H' H₁ : Heap} {k a skip a' : Nat → Nat} {is L L₁ : List Nat}

theorem Sweep.nil : Sweep n H [] k a skip H a' [] where
  frame _ _ _ _ := rfl
  clears _ _ _ := .inl rfl
  root _ hi := absurd hi List.not_mem_nil
  perm := .refl _
  leaves _ hi := absurd hi List.not_mem_nil

theorem Sweep.subset (h : Sweep n H is k a skip H' a' L) {i c : Nat} (hi : i ∈ is)
    (hc : c ∈ nodes n H' (k i) (a' i)) :
    c ∈ is.flatMap fun i => nodes n H (k i) (a i) :=
  h.perm.subset (List.mem_append_right L (List.mem_flatMap.mpr ⟨i, hi, hc⟩))

/-- One more tree that shares no node with the others. -/
theorem Sweep.cons (hn : 0 < n) {i : Nat} (hnd : ((i :: is).flatMap fun i => nodes n H (k i) (a i)).Nodup)
    (hcut : Cut n H (k i) (a i) (skip i) H₁ (a' i) L₁) (h : Sweep n H₁ is k a skip H' a' L) :
    Sweep n H (i :: is) k a skip H' a' (L₁ ++ L) := by
  rw [List.flatMap_cons, List.nodup_append'] at hnd
  obtain ⟨-, -, hdis⟩ := hnd
  -- the later trees are where they were when their turn comes
  have hlater : ∀ j ∈ is, ∀ c ∈ nodes n H (k j) (a j), ∀ x, x < n → H₁ c x = H c x := by
    intro j hj c hc x hx
    refine hcut.frame c (fun hc' => ?_) x hx
    exact hdis hc' (List.mem_flatMap.mpr ⟨j, hj, hc⟩)
  have hnodes : ∀ j ∈ is, nodes n H₁ (k j) (a j) = nodes n H (k j) (a j) :=
    fun j hj => nodes_congr (hlater j hj)
  have hflat : is.flatMap (fun i => nodes n H₁ (k i) (a i)) = is.flatMap fun i =>
    nodes n H (k i) (a i) := List.flatMap_congr hnodes
  -- and this one stays as it was cut
  have hthis : ∀ c ∈ nodes n H₁ (k i) (a' i), ∀ x, x < n → H' c x = H₁ c x := by
    intro c hc x hx
    refine h.frame c (fun hc' => ?_) x hx
    rw [hflat] at hc'
    exact hdis (hcut.subset hc) hc'
  refine ⟨fun c hc x hx => ?_, fun c x hx => ?_, fun j hj => ?_, ?_, fun j hj r hr => ?_⟩
  · rw [List.flatMap_cons, List.mem_append, not_or] at hc
    exact (h.frame c (by rw [hflat]; exact hc.2) x hx).trans (hcut.frame c hc.1 x hx)
  · rcases h.clears c x hx with h1 | h1
    · rw [h1]
      exact hcut.clears c x hx
    · exact .inr h1
  · rcases List.mem_cons.mp hj with rfl | hj
    · exact hcut.root
    · exact h.root j hj
  · rw [List.flatMap_cons, List.flatMap_cons, nodes_congr hthis]
    have hperm := h.perm
    rw [hflat] at hperm
    have hswap : (L₁ ++ L ++ (nodes n H₁ (k i) (a' i) ++ is.flatMap fun i => nodes n H' (k i) (a' i))).Perm
        ((L₁ ++ nodes n H₁ (k i) (a' i)) ++ (L ++ is.flatMap fun i => nodes n H' (k i) (a' i))) := by
      rw [List.append_assoc, List.append_assoc]
      refine List.Perm.append_left _ ?_
      rw [← List.append_assoc, ← List.append_assoc]
      exact List.perm_append_comm.append_right _
    exact hswap.trans (hcut.perm.append hperm)
  · rcases List.mem_cons.mp hj with rfl | hj
    · rw [leaf_congr hn hthis]
      exact hcut.leaves r hr
    · rw [h.leaves j hj r hr, leaf_congr hn (hlater j hj)]

end Sweeps

/-- Cutting the children of a node, each at what is left of `skip` before it, cuts the node. -/
theorem Cut.node {n : Nat} {H H₁ H' : Heap} {k a skip : Nat} {e : Nat → Nat} {L : List Nat}
    (hn : 0 < n) (ha : a ≠ 0)
    (hnd : (nodes n H (k + 1) a).Nodup) (h : Sweep n H (List.range n) (fun _ => k) (H a)
      (fun i => skip - i * n ^ k) H₁ e L)
    (hhere : ∀ i, i < n → H' a i = e i) (hother : ∀ c, c ≠ a → ∀ i, i < n → H' c i = H₁ c i) :
    Cut n H (k + 1) a skip H' a L := by
  rw [nodes_succ ha, List.nodup_cons] at hnd
  have hchild : ∀ i, i < n → ∀ c ∈ nodes n H₁ k (e i), ∀ x, x < n → H' c x = H₁ c x := by
    intro i hi c hc x hx
    refine hother c ?_ x hx
    rintro rfl
    exact hnd.1 (h.subset (List.mem_range.mpr hi) hc)
  refine ⟨fun c hc i hi => ?_, fun c i hi => ?_, .inl rfl, ?_, fun r hr => ?_⟩
  · rw [nodes_succ ha, List.mem_cons, not_or] at hc
    exact (hother c hc.1 i hi).trans (h.frame c hc.2 i hi)
  · by_cases hca : c = a
    · subst hca
      rw [hhere i hi]
      exact h.root i (List.mem_range.mpr hi)
    · rw [hother c hca i hi]
      exact h.clears c i hi
  · rw [nodes_succ ha, nodes_succ ha]
    have hflat : (List.range n).flatMap (fun i => nodes n H' k (H' a i)) =
      (List.range n).flatMap fun i => nodes n H₁ k (e i) := by
      refine List.flatMap_congr fun i hi => ?_
      have hi' := List.mem_range.mp hi
      rw [hhere i hi', nodes_congr (hchild i hi')]
    rw [hflat]
    exact List.perm_middle.trans (h.perm.cons a)
  · have hpos : 0 < n ^ k := Nat.pow_pos hn
    have hi : r / n ^ k < n := by
      rw [Nat.div_lt_iff_lt_mul hpos, Nat.mul_comm, ← Nat.pow_succ]
      exact hr
    have hmod : r / n ^ k % n = r / n ^ k := Nat.mod_eq_of_lt hi
    have hleaf := h.leaves (r / n ^ k) (List.mem_range.mpr hi) (r % n ^ k) (Nat.mod_lt _ hpos)
    rw [leaf_mod, leaf_mod] at hleaf
    rw [leaf, leaf, if_neg ha, if_neg ha, hmod, hhere _ hi, leaf_congr hn (hchild _ hi), hleaf]
    have hsplit := Nat.div_add_mod' r (n ^ k)
    generalize r / n ^ k * n ^ k = x at hsplit ⊢
    generalize r % n ^ k = y at hsplit ⊢
    by_cases hlt : r < skip
    · rw [if_pos hlt, if_pos (by omega)]
    · rw [if_neg hlt, if_neg (by omega)]

end Filsys.Lib
