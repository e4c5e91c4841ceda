/-
  Filsys.Alloc.Nodes — the PDP-7's free list: nodes of nine entries.

  A node block holds the next node in word 0 and free blocks in words 1 to 9.
  `p7fs_balloc` takes the last entry of the head node, or the exhausted head itself,
  and zeroes what it hands out (`take`). Read off the words alone, the list names the
  entries of each node, last first, and then the node (`listed`). When it names no
  block of the image twice, that is also the order in which the blocks are taken
  (`takes_of_seg`); and when the blocks taken are all different, the list named them
  so (`seg_of_takes`): a block named twice would have been zeroed under its second name.
-/

import Filsys.Engine.Words
import Mathlib.Data.List.Nodup

namespace Filsys.Alloc

open Filsys.Lib Filsys.Engine

/-! ## Nodes -/

/-- The words of every block. -/
abbrev Words := Nat → Nat → Nat

/-- Non-zero entries among words `n, …, 1`. -/
def entriesBelow (node : Nat → Nat) : Nat → List Nat
  | 0 => []
  | n + 1 => if node (n + 1) ≠ 0 then node (n + 1) :: entriesBelow node n else entriesBelow node n

/-- The last non-zero entry among words `n, …, 1`. -/
def lastBelow (node : Nat → Nat) : Nat → Nat
  | 0 => 0
  | n + 1 => if node (n + 1) ≠ 0 then n + 1 else lastBelow node n

theorem p7Last_eq (node : Nat → Nat) : p7Last node = lastBelow node 9 := by
  have key : ∀ n, (List.range n).foldl (fun last i => if node (i + 1) ≠ 0 then i + 1 else last) 0 =
    lastBelow node n := by
    intro n
    induction n with
    | zero => rfl
    | succ n ih =>
      rw [List.range_succ, List.foldl_append, ih]
      rfl
  exact key 9

theorem lastBelow_le (node : Nat → Nat) (n : Nat) : lastBelow node n ≤ n := by
  induction n with
  | zero => exact Nat.le_refl 0
  | succ n ih =>
    rw [lastBelow]
    split <;> omega

theorem entriesBelow_congr {node node' : Nat → Nat} {n : Nat} (h : ∀ i, 1 ≤ i → i ≤ n → node i = node' i) :
    entriesBelow node n = entriesBelow node' n := by
  induction n with
  | zero => rfl
  | succ n ih =>
    rw [entriesBelow, entriesBelow, h (n + 1) (by omega) (Nat.le_refl _), ih fun i h1 h2 => h i h1 (by omega)]

/-- Taking the last entry takes the head of the list. -/
theorem entriesBelow_last (node : Nat → Nat) (n : Nat) (h : lastBelow node n ≠ 0) :
    node (lastBelow node n) ≠ 0 ∧ entriesBelow node n =
      node (lastBelow node n) :: entriesBelow (fun i => if i = lastBelow node n then 0 else node i) n := by
  induction n with
  | zero => exact absurd rfl h
  | succ n ih =>
    rw [lastBelow] at h ⊢
    split
    · rename_i hne
      refine ⟨hne, ?_⟩
      rw [entriesBelow, if_pos hne, entriesBelow, if_neg (by simp)]
      congr 1
      refine entriesBelow_congr fun i h1 h2 => ?_
      rw [if_neg (by omega)]
    · rename_i hz
      rw [if_neg hz] at h
      obtain ⟨hne, heq⟩ := ih h
      have hlt := lastBelow_le node n
      refine ⟨hne, ?_⟩
      rw [entriesBelow, if_neg hz, entriesBelow, if_neg, heq]
      rw [if_neg (by omega)]
      exact hz

theorem entriesBelow_none (node : Nat → Nat) (n : Nat) (h : lastBelow node n = 0) :
    entriesBelow node n = [] := by
  induction n with
  | zero => rfl
  | succ n ih =>
    rw [lastBelow] at h
    split at h
    · omega
    · rename_i hz
      rw [entriesBelow, if_neg hz, ih h]

theorem mem_entriesBelow {node : Nat → Nat} {n b : Nat} :
    b ∈ entriesBelow node n ↔ b ≠ 0 ∧ ∃ i, 1 ≤ i ∧ i ≤ n ∧ node i = b := by
  induction n with
  | zero =>
    simp only [entriesBelow, List.not_mem_nil, false_iff, not_and, not_exists]
    intro _ i h1 h2
    omega
  | succ n ih =>
    rw [entriesBelow]
    split
    · rename_i hne
      rw [List.mem_cons, ih]
      constructor
      · intro h
        rcases h with rfl | ⟨hb, i, h1, h2, hi⟩
        · exact ⟨hne, n + 1, by omega, by omega, rfl⟩
        · exact ⟨hb, i, h1, by omega, hi⟩
      · intro h
        obtain ⟨hb, i, h1, h2, hi⟩ := h
        rcases Nat.eq_or_lt_of_le h2 with rfl | hlt
        · exact .inl hi.symm
        · exact .inr ⟨hb, i, h1, by omega, hi⟩
    · rename_i hz
      rw [ih]
      constructor
      · intro h
        obtain ⟨hb, i, h1, h2, hi⟩ := h
        exact ⟨hb, i, h1, by omega, hi⟩
      · intro h
        obtain ⟨hb, i, h1, h2, hi⟩ := h
        rcases Nat.eq_or_lt_of_le h2 with rfl | hlt
        · exact absurd (not_not.mp hz) (hi ▸ hb)
        · exact ⟨hb, i, h1, by omega, hi⟩

/-- What a node hands out: its entries, last first, then itself. -/
def nodeList (w : Words) (h : Nat) : List Nat := entriesBelow (w h) 9 ++ [h]

def listed (w : Words) (ns : List Nat) : List Nat := ns.flatMap (nodeList w)

variable (inImg : Nat → Prop)

/-- From head `h` the nodes of the image are `ns`, and then the list ends or leaves it. -/
inductive Seg (w : Words) : Nat → List Nat → Prop
  | stop {h : Nat} : h = 0 ∨ ¬ inImg h → Seg w h []
  | node {h : Nat} {ns : List Nat} : h ≠ 0 → inImg h → Seg w (w h 0) ns → Seg w h (h :: ns)

/-- Where the nodes `ns` from `h` lead. -/
def endOf (w : Words) : Nat → List Nat → Nat
  | h, [] => h
  | h, _ :: ns => endOf w (w h 0) ns

/-! ## Taking -/

def zeroed (w : Words) (b : Nat) : Words := fun x i => if x = b then 0 else w x i

def cleared (w : Words) (h k : Nat) : Words := fun x i => if x = h ∧ i = k then 0 else w x i

/-- The words with those of block `b` replaced. -/
def replaced (w : Words) (b : Nat) (node : Nat → Nat) : Words := fun x i => if x = b then node i else w x i

/-- The block taken from head `h`, the words and the head it leaves. -/
def take (w : Words) (h : Nat) : Nat × Words × Nat :=
  let last := p7Last (w h)
  if last = 0 then (h, zeroed w h, w h 0) else (w h last, zeroed (cleared w h last) (w h last), h)

/-- `bs` are the blocks taken in turn from `h`, until there is no head to read. -/
inductive Takes : Words → Nat → List Nat → Prop
  | stop {w : Words} {h : Nat} : h = 0 ∨ ¬ inImg h → Takes w h []
  | take {w : Words} {h : Nat} {bs : List Nat} : h ≠ 0 → inImg h → Takes (take w h).2.1 (take w h).2.2 bs →
      Takes w h ((take w h).1 :: bs)

variable {inImg}

theorem Seg.mem {w : Words} {h : Nat} {ns : List Nat} (hs : Seg inImg w h ns) : ∀ n ∈ ns, n ≠ 0 ∧ inImg n := by
  induction hs with
  | stop => simp
  | node h0 hin _ ih =>
    intro n hr
    rcases hr with _ | ⟨_, hn⟩
    · exact ⟨h0, hin⟩
    · exact ih n hn

theorem Seg.congr {w w' : Words} {h : Nat} {ns : List Nat} (hs : Seg inImg w h ns)
    (hw : ∀ n ∈ ns, w' n = w n) : Seg inImg w' h ns := by
  induction hs with
  | stop hstop => exact .stop hstop
  | @node h ns h0 hin _ ih =>
    refine .node h0 hin ?_
    rw [hw h (.head _)]
    exact ih fun n hn => hw n (.tail _ hn)

theorem listed_congr {w w' : Words} {ns : List Nat} (hw : ∀ n ∈ ns, w' n = w n) :
    listed w' ns = listed w ns := by
  unfold listed
  refine List.flatMap_congr fun n hn => ?_
  unfold nodeList
  rw [hw n hn]

theorem mem_listed_of_mem {w : Words} {ns : List Nat} {n : Nat} (h : n ∈ ns) : n ∈ listed w ns :=
  List.mem_flatMap.mpr ⟨n, h, List.mem_append_right _ (.head _)⟩

theorem listed_cons (w : Words) (h : Nat) (ns : List Nat) :
    listed w (h :: ns) = entriesBelow (w h) 9 ++ h :: listed w ns := by
  unfold listed nodeList
  rw [List.flatMap_cons, List.append_assoc]
  rfl

theorem zeroed_ne {w : Words} {b x : Nat} (h : x ≠ b) : zeroed w b x = w x := by
  funext i
  exact if_neg h

theorem cleared_ne {w : Words} {b k x : Nat} (h : x ≠ b) : cleared w b k x = w x := by
  funext i
  exact if_neg fun he => h he.1

theorem replaced_ne {w : Words} {b x : Nat} {node : Nat → Nat} (h : x ≠ b) : replaced w b node x = w x := by
  funext i
  exact if_neg h

theorem cleared_self (w : Words) (h k : Nat) : cleared w h k h = fun i => if i = k then 0 else w h i := by
  funext i
  unfold cleared
  simp

/-! ## Distinct blocks -/

section Distinct

variable [DecidablePred inImg]

variable (inImg) in
/-- No block of the image occurs twice. -/
def Distinct (L : List Nat) : Prop := (L.filter fun b => decide (inImg b)).Nodup

theorem distinct_cons {x : Nat} {L : List Nat} :
    Distinct inImg (x :: L) ↔ (inImg x → x ∉ L) ∧ Distinct inImg L := by
  unfold Distinct
  by_cases hx : inImg x
  · rw [List.filter_cons_of_pos (by simpa using hx), List.nodup_cons]
    simp [hx]
  · rw [List.filter_cons_of_neg (by simpa using hx)]
    simp [hx]

theorem Distinct.notMem_after {A B : List Nat} {x : Nat} (h : Distinct inImg (A ++ x :: B))
    (hx : inImg x) : x ∉ B := by
  induction A with
  | nil => exact (distinct_cons.mp h).1 hx
  | cons a A ih => exact ih (distinct_cons.mp h).2

theorem take_exhausted {w : Words} {h : Nat} (hlast : p7Last (w h) = 0) :
    take w h = (h, zeroed w h, w h 0) := if_pos hlast

theorem take_entry {w : Words} {h : Nat} (hlast : p7Last (w h) ≠ 0) :
    take w h = (w h (p7Last (w h)), zeroed (cleared w h (p7Last (w h))) (w h (p7Last (w h))), h) := if_neg hlast

/-- The words a taken entry leaves in its node, the entry being another block. -/
theorem node_after_take {w : Words} {h : Nat} (hlast : p7Last (w h) ≠ 0) (hx : w h (p7Last (w h)) ≠ h) :
    (take w h).2.1 h = fun i => if i = p7Last (w h) then 0 else w h i := by
  rw [take_entry hlast]
  show zeroed _ _ h = _
  rw [zeroed_ne (Ne.symm hx), cleared_self]

theorem other_after_take {w : Words} {h n : Nat} (hlast : p7Last (w h) ≠ 0)
    (hx : w h (p7Last (w h)) ≠ n) (hn : n ≠ h) :
    (take w h).2.1 n = w n := by
  rw [take_entry hlast]
  show zeroed _ _ n = _
  rw [zeroed_ne (Ne.symm hx), cleared_ne hn]

theorem entries_take {w : Words} {h : Nat} (hlast : p7Last (w h) ≠ 0) :
    entriesBelow (w h) 9 = w h (p7Last (w h)) :: entriesBelow (fun i => if i = p7Last (w h) then 0
      else w h i) 9 := by
  rw [p7Last_eq] at hlast ⊢
  exact (entriesBelow_last (w h) 9 hlast).2

theorem entries_exhausted {w : Words} {h : Nat} (hlast : p7Last (w h) = 0) : entriesBelow (w h) 9 = [] := by
  rw [p7Last_eq] at hlast
  exact entriesBelow_none (w h) 9 hlast

/-- Taken from a list that names no block twice, the first block goes and the rest stays listed. -/
theorem seg_take {w : Words} {h : Nat} {ns : List Nat} (hs : Seg inImg w h (h :: ns))
    (hd : Distinct inImg (listed w (h :: ns))) :
    ∃ ns', Seg inImg (take w h).2.1 (take w h).2.2 ns' ∧
    listed w (h :: ns) = (take w h).1 :: listed (take w h).2.1 ns' ∧
      ∀ n ∈ ns', n ∈ h :: ns := by
  obtain - | ⟨h0, hin, hrest⟩ := hs
  rw [listed_cons] at hd ⊢
  by_cases hlast : p7Last (w h) = 0
  · rw [entries_exhausted hlast] at hd ⊢
    have hout : h ∉ listed w ns := (distinct_cons.mp hd).1 hin
    have hsame : ∀ n ∈ ns, zeroed w h n = w n := fun n hn =>
      zeroed_ne fun he => hout (he ▸ mem_listed_of_mem hn)
    rw [take_exhausted hlast]
    refine ⟨ns, hrest.congr hsame, ?_, fun n hn => .tail _ hn⟩
    rw [listed_congr hsame]
    rfl
  · rw [entries_take hlast, List.cons_append] at hd ⊢
    have hx : ∀ n, n = h ∨ n ∈ ns → w h (p7Last (w h)) ≠ n := by
      intro n hn heq
      have hmem : n ∈ entriesBelow (fun i => if i = p7Last (w h) then 0 else w h i) 9 ++ h :: listed w ns := by
        rcases hn with rfl | hn
        · exact List.mem_append_right _ (.head _)
        · exact List.mem_append_right _ (.tail _ (mem_listed_of_mem hn))
      have hinn : inImg n := by
        rcases hn with rfl | hn
        · exact hin
        · exact (hrest.mem n hn).2
      exact (distinct_cons.mp hd).1 (heq ▸ hinn) (heq ▸ hmem)
    have hout : h ∉ listed w ns := Distinct.notMem_after (distinct_cons.mp hd).2 hin
    have hnode := node_after_take hlast (hx h (.inl rfl))
    have hsame : ∀ n ∈ ns, (take w h).2.1 n = w n := fun n hn =>
      other_after_take hlast (hx n (.inr hn)) fun he => hout (he ▸ mem_listed_of_mem hn)
    have hnext : (take w h).2.1 h 0 = w h 0 := by
      rw [hnode]
      exact if_neg (Ne.symm hlast)
    have hlist : listed (take w h).2.1 (h :: ns) =
        entriesBelow (fun i => if i = p7Last (w h) then 0 else w h i) 9 ++ h :: listed w ns := by
      rw [listed_cons, hnode, listed_congr hsame]
    have hhead : (take w h).2.2 = h := by rw [take_entry hlast]
    have hblock : (take w h).1 = w h (p7Last (w h)) := by rw [take_entry hlast]
    refine ⟨h :: ns, ?_, by rw [hlist, hblock], fun _ hn => hn⟩
    rw [hhead]
    refine .node h0 hin ?_
    rw [hnext]
    exact hrest.congr hsame

/-- A list that names no block twice is taken in its order. -/
theorem takes_of_seg {w : Words} {h : Nat} {ns : List Nat} (hs : Seg inImg w h ns)
    (hd : Distinct inImg (listed w ns)) :
    Takes inImg w h (listed w ns) := by
  -- one block is taken at a time, so the induction is on their number
  generalize hlen : (listed w ns).length = k
  induction k generalizing w h ns with
  | zero =>
    cases hs with
    | stop hstop => exact .stop hstop
    | node => rw [listed_cons, List.length_append] at hlen; simp at hlen
  | succ k ih =>
    cases hs with
    | stop => cases hlen
    | @node _ ns h0 hin hrest =>
      obtain ⟨ns', hseg, hlist, -⟩ := seg_take (.node h0 hin hrest) hd
      rw [hlist] at hd hlen ⊢
      exact .take h0 hin (ih hseg (distinct_cons.mp hd).2 (by simpa using hlen))

/-- Blocks taken, all of them different, are the blocks the list named. -/
theorem seg_of_takes {w : Words} {h : Nat} {bs : List Nat} (ht : Takes inImg w h bs) (hd : Distinct inImg bs) :
    ∃ ns, Seg inImg w h ns ∧ listed w ns = bs := by
  induction ht with
  | stop hstop => exact ⟨[], .stop hstop, rfl⟩
  | @take w h bs h0 hin _ ih =>
    obtain ⟨hfirst, hrest⟩ := distinct_cons.mp hd
    obtain ⟨ns, hseg, rfl⟩ := ih hrest
    by_cases hlast : p7Last (w h) = 0
    · rw [take_exhausted hlast] at hseg hfirst ⊢
      have hout : h ∉ listed (zeroed w h) ns := hfirst hin
      have hsame : ∀ n ∈ ns, w n = zeroed w h n := fun n hn =>
        (zeroed_ne fun he : n = h => hout (he ▸ mem_listed_of_mem hn)).symm
      refine ⟨h :: ns, .node h0 hin (hseg.congr hsame), ?_⟩
      rw [listed_cons, entries_exhausted hlast, listed_congr hsame]
      rfl
    · have hhead : (take w h).2.2 = h := by rw [take_entry hlast]
      have hblock : (take w h).1 = w h (p7Last (w h)) := by rw [take_entry hlast]
      rw [hhead] at hseg
      rw [hblock] at hfirst ⊢
      cases hseg with
      | stop hstop => exact absurd hin (hstop.resolve_left h0)
      | @node _ ns _ _ hseg' =>
        have hx : ∀ n, n = h ∨ n ∈ ns → w h (p7Last (w h)) ≠ n := by
          intro n hn heq
          have hmem : n ∈ h :: ns := by
            rcases hn with rfl | hn
            · exact .head _
            · exact .tail _ hn
          have hinn : inImg n := by
            rcases hn with rfl | hn
            · exact hin
            · exact (hseg'.mem n hn).2
          exact hfirst (heq ▸ hinn) (heq ▸ mem_listed_of_mem hmem)
        have hnode := node_after_take hlast (hx h (.inl rfl))
        rw [listed_cons] at hrest ⊢
        have hout : h ∉ listed (take w h).2.1 ns := Distinct.notMem_after hrest hin
        have hsame : ∀ n ∈ ns, w n = (take w h).2.1 n := fun n hn =>
          (other_after_take hlast (hx n (.inr hn)) fun he => hout (he ▸ mem_listed_of_mem hn)).symm
        have hnext : (take w h).2.1 h 0 = w h 0 := by
          rw [hnode]
          exact if_neg (Ne.symm hlast)
        rw [hnext] at hseg'
        refine ⟨h :: ns, .node h0 hin (hseg'.congr hsame), ?_⟩
        rw [listed_cons, entries_take hlast, hnode, listed_congr hsame]
        rfl

/-- The first `k` blocks taken. -/
def takesN (inImg : Nat → Prop) [DecidablePred inImg] : Nat → Words → Nat → List Nat
  | 0, _, _ => []
  | k + 1, w, h =>
    if h = 0 ∨ ¬ inImg h then [] else (take w h).1 :: takesN inImg k (take w h).2.1 (take w h).2.2

theorem Takes.takesN {w : Words} {h : Nat} {bs : List Nat} (ht : Takes inImg w h bs) (k : Nat) :
    Alloc.takesN inImg k w h = bs.take k := by
  induction ht generalizing k with
  | stop hstop =>
    cases k with
    | zero => rfl
    | succ k => rw [Alloc.takesN, if_pos hstop]; rfl
  | take h0 hin _ ih =>
    cases k with
    | zero => rfl
    | succ k =>
      rw [Alloc.takesN, if_neg (by simp [h0, hin]), ih]
      rfl

theorem length_entriesBelow_le (node : Nat → Nat) (n : Nat) : (entriesBelow node n).length ≤ n := by
  induction n with
  | zero => exact Nat.le_refl 0
  | succ n ih =>
    rw [entriesBelow]
    split
    · rw [List.length_cons]; omega
    · omega

theorem entriesBelow_zero (n : Nat) : entriesBelow (fun _ => 0) n = [] := by
  induction n with
  | zero => rfl
  | succ n ih => rw [entriesBelow, if_neg (by simp), ih]

/-- An entry taken leaves fewer in its node. -/
theorem entries_shrink {w : Words} {h : Nat} (hlast : p7Last (w h) ≠ 0) :
    (entriesBelow ((take w h).2.1 h) 9).length < (entriesBelow (w h) 9).length := by
  rw [entries_take hlast, List.length_cons]
  by_cases hx : w h (p7Last (w h)) = h
  · rw [take_entry hlast]
    have hz : zeroed (cleared w h (p7Last (w h))) (w h (p7Last (w h))) h = fun _ => 0 := by
      funext i
      exact if_pos hx.symm
    show (entriesBelow (zeroed _ _ h) 9).length < _
    rw [hz, entriesBelow_zero]
    exact Nat.succ_pos _
  · rw [node_after_take hlast hx]
    exact Nat.lt_succ_self _

theorem nodup_length_le {N : Nat} {H : List Nat} (hn : H.Nodup) (hb : ∀ b ∈ H, b < N) : H.length ≤ N := by
  have hsub : H ⊆ List.range N := fun b hbm => List.mem_range.mpr (hb b hbm)
  have := (List.subperm_of_subset hn hsub).length_le
  rwa [List.length_range] at this

/-- Different blocks below a bound run out: `H` were taken before. -/
theorem takes_run_out {N : Nat} {w : Words} {h : Nat} {H : List Nat}
    (hd : ∀ k, ((Alloc.takesN inImg k w h).filter (fun b => decide (inImg b)) ++ H).Nodup)
    (hb : ∀ k b, b ∈ (Alloc.takesN inImg k w h).filter (fun b => decide (inImg b)) ++ H → b < N) :
    ∃ bs, Takes inImg w h bs := by
  generalize hm : 10 * (N - H.length) + (entriesBelow (w h) 9).length = m
  induction m using Nat.strongRecOn generalizing w h H with
  | ind m ih =>
    by_cases hstop : h = 0 ∨ ¬ inImg h
    · exact ⟨[], .stop hstop⟩
    · have h0 : h ≠ 0 := fun he => hstop (.inl he)
      have hin : inImg h := not_not.mp fun he => hstop (.inr he)
      have hstep : ∀ k, Alloc.takesN inImg (k + 1) w h =
        (take w h).1 :: Alloc.takesN inImg k (take w h).2.1 (take w h).2.2 :=
        fun k => if_neg hstop
      by_cases hx : inImg (take w h).1
      · -- the block joins those taken before
        have hperm : ∀ k, ((Alloc.takesN inImg (k + 1) w h).filter (fun b => decide (inImg b)) ++ H).Perm
            ((Alloc.takesN inImg k (take w h).2.1 (take w h).2.2).filter (fun b => decide (inImg b)) ++
              (take w h).1 :: H) := by
          intro k
          rw [hstep, List.filter_cons_of_pos (by simpa using hx)]
          exact List.perm_middle.symm
        have hnodup := fun k => (hperm k).nodup_iff.mp (hd (k + 1))
        have hbound := fun k b (hbm : b ∈ _) => hb (k + 1) b ((hperm k).mem_iff.mpr hbm)
        have hroom : ((take w h).1 :: H).length ≤ N := nodup_length_le (hnodup 0) (hbound 0)
        rw [List.length_cons] at hroom
        have hless : 10 * (N - ((take w h).1 :: H).length) +
          (entriesBelow ((take w h).2.1 (take w h).2.2) 9).length < m := by
          have := length_entriesBelow_le ((take w h).2.1 (take w h).2.2) 9
          rw [List.length_cons]
          omega
        obtain ⟨bs, hbs⟩ := ih _ hless hnodup hbound rfl
        exact ⟨_, .take h0 hin hbs⟩
      · have hlast : p7Last (w h) ≠ 0 := by
          intro hlast
          rw [take_exhausted hlast] at hx
          exact hx hin
        have hskip : ∀ k, (Alloc.takesN inImg (k + 1) w h).filter (fun b => decide (inImg b)) =
            (Alloc.takesN inImg k (take w h).2.1 (take w h).2.2).filter (fun b => decide (inImg b)) := by
          intro k
          rw [hstep, List.filter_cons_of_neg (by simpa using hx)]
        have hhead : (take w h).2.2 = h := by rw [take_entry hlast]
        have hless : 10 * (N - H.length) + (entriesBelow ((take w h).2.1 (take w h).2.2) 9).length < m := by
          have := entries_shrink hlast
          rw [hhead]
          omega
        obtain ⟨bs, hbs⟩ := ih _ hless (fun k => by rw [← hskip]; exact hd (k + 1))
          (fun k b hbm => hb (k + 1) b (by rw [hskip]; exact hbm)) rfl
        exact ⟨_, .take h0 hin hbs⟩

end Distinct

/-! ## The allocator takes -/

/-- The mount's list head is `h`, and the words of its blocks are `w`. -/
structure Holds7 (s : Mnt) (w : Words) (h : Nat) : Prop where
  head : s.fs.freelist = h
  words : ∀ b, WordsIn s b → ∀ i, i < 64 → wordsOf s.fs s.img b i = w b i

theorem holds7_self (s : Mnt) : Holds7 s (wordsOf s.fs s.img) s.fs.freelist := ⟨rfl, fun _ _ _ _ => rfl⟩

theorem p7Last_congr {node node' : Nat → Nat} (h : ∀ i, i < 64 → node i = node' i) :
    p7Last node = p7Last node' := by
  rw [p7Last_eq, p7Last_eq]
  have key : ∀ n, n ≤ 9 → lastBelow node n = lastBelow node' n := by
    intro n hn
    induction n with
    | zero => rfl
    | succ n ih => rw [lastBelow, lastBelow, h (n + 1) (by omega), ih (by omega)]
  exact key 9 (Nat.le_refl 9)

section Taking

variable {s : Mnt} {w : Words} {h : Nat}

/-- Writing the words of block `b` makes them its words. -/
theorem Holds7.put (hr : Holds7 s w h) (site : Site) (b : Nat) (node : Nat → Nat) (w' : Words)
    (hlt : ∀ i, i < 64 → node i < 2 ^ 18)
    (hb : ∀ i, i < 64 → w' b i = node i) (hne : ∀ x, x ≠ b → w' x = w x) :
    Holds7 (putWords site b node s) w' h where
  head := hr.head
  words x hx i hi := by
    rw [putWords_fs, putWords_img]
    by_cases he : x = b
    · subst he
      rw [wordsOf_putWordBlock _ _ _ _ hi, hb i hi]
      exact Nat.mod_eq_of_lt (hlt i hi)
    · rw [wordsOf_putWordBlock_ne he, hne x he]
      exact hr.words x hx i hi

/-- A block outside the image can be written in the model only. -/
theorem Holds7.outside (hr : Holds7 s w h) {b : Nat} (hout : ¬ WordsIn s b) : Holds7 s (zeroed w b) h where
  head := hr.head
  words x hx i hi := by
    have hne : x ≠ b := fun he => hout (he ▸ hx)
    rw [hr.words x hx i hi, zeroed_ne hne]

theorem Holds7.ticked (hr : Holds7 s w h) : Holds7 (ticked s) w h := ⟨hr.head, hr.words⟩

variable (hm : Mounted7 s) (hq : ∀ k, s.env.fails k = false)

include hm hq

/-- Handing a block out zeroes it, unless it lies outside the image. -/
theorem post_handOut7 (hr : Holds7 s w h) (b : Nat) :
    Post ((failAs .eio (writeWords .block b fun _ => 0) >>= fun _ =>
      modFs (fun fs => { fs with flDirty := true }) >>= fun _ =>
        pure b : M Nat) s)
      (fun x t => x = b ∧ WordsIn s b ∧ Holds7 t (zeroed w b) h ∧ SameVol s t)
      (fun _ t => ¬ WordsIn s b ∧ Holds7 t (zeroed w b) h ∧ SameVol s t) := by
  refine post_bind (post_failAs (hm.post_writeWords ?_ ?_ ?_))
  · intro hin _
    have hput := hr.put .block b (fun _ => 0) (zeroed w b) (fun _ _ => by decide) (fun i _ => if_pos rfl)
      fun x hx => zeroed_ne hx
    exact ⟨rfl, hin, ⟨hput.head, hput.words⟩, ⟨rfl, rfl, rfl⟩⟩
  · intro hout _
    exact ⟨hout, hr.outside hout, sameVol_law.refl s⟩
  · intro hf
    rw [hq] at hf
    cases hf

/-- `p7fs_balloc` takes, and returns what it takes from inside the image. -/
theorem post_p7fsBalloc (hr : Holds7 s w h) (h0 : h ≠ 0) (hin : WordsIn s h) :
    Post (p7fsBalloc s)
      (fun b t => b = (take w h).1 ∧ WordsIn s b ∧ Holds7 t (take w h).2.1 (take w h).2.2 ∧ SameVol s t)
      (fun _ t => ¬ WordsIn s (take w h).1 ∧ Holds7 t (take w h).2.1 (take w h).2.2 ∧ SameVol s t) := by
  have hhead := hr.head
  refine post_bindFs (post_ite (fun hro => absurd hm.writable (by simp [hro])) fun _ => ?_)
  refine post_ite (fun hz => absurd (hhead.symm.trans hz) h0) fun _ => ?_
  rw [hhead]
  refine post_bind (post_failAs (hm.post_readWords ?_ (fun hout => absurd hin hout) ?_))
  · intro _ _
    have hlast : p7Last (wordsOf s.fs s.img h) = p7Last (w h) := p7Last_congr fun i hi => hr.words h hin i hi
    rw [hlast]
    have hsame : SameVol s (ticked s) := ticked_sameVol s
    have hm1 := hm.of_sameVol hsame
    have hr1 : Holds7 (Engine.ticked s) w h := hr.ticked
    refine post_bind (post_ite ?_ ?_)
    · intro hz
      -- the exhausted head comes off the list
      rw [take_exhausted hz]
      have hr2 : Holds7 { ticked s with
          fs := { s.fs with freelist := word18 (wordsOf s.fs s.img h 0) } } w (w h 0) := by
        refine ⟨?_, hr.words⟩
        show word18 (wordsOf s.fs s.img h 0) = w h 0
        rw [← hr.words h hin 0 (by decide)]
        exact Nat.mod_eq_of_lt (wordsOf_lt _ _ _ _)
      have hvol2 : SameVol s { ticked s with
          fs := { s.fs with freelist := word18 (wordsOf s.fs s.img h 0) } } := ⟨rfl, rfl, rfl⟩
      refine (post_handOut7 (hm.of_sameVol hvol2) hq hr2 h).mono ?_ ?_
      · intro x t hrun
        obtain ⟨rfl, hx, ht, hvol⟩ := hrun
        exact ⟨rfl, hx, ht, sameVol_law.trans hvol2 hvol⟩
      · intro e t hrun
        obtain ⟨hx, ht, hvol⟩ := hrun
        exact ⟨hx, ht, sameVol_law.trans hvol2 hvol⟩
    · intro hne
      have hle : p7Last (w h) < 64 := by
        have := lastBelow_le (w h) 9
        rw [p7Last_eq]
        omega
      rw [take_entry hne, hr.words h hin _ hle]
      refine post_bind (post_failAs (hm1.post_writeWords ?_ (fun hout => absurd hin hout) ?_))
      · intro _ _
        have hput := hr1.put .dump h (fun i => if i = p7Last (w h) then 0 else wordsOf s.fs s.img h i)
          (cleared w h (p7Last (w h))) (fun i _ => by
            split
            · decide
            · exact wordsOf_lt _ _ _ _)
          (fun i hi => by
            rw [cleared_self]
            show (if i = p7Last (w h) then 0 else w h i) = _
            rw [← hr.words h hin i hi])
          fun x hx => cleared_ne hx
        have hvol2 := sameVol_law.trans hsame (putWords_sameVol .dump h
          (fun i => if i = p7Last (w h) then 0 else wordsOf s.fs s.img h i) (ticked s))
        refine (post_handOut7 (hm.of_sameVol hvol2) hq hput (w h (p7Last (w h)))).mono ?_ ?_
        · intro x t hrun
          obtain ⟨rfl, hx, ht, hvol⟩ := hrun
          exact ⟨rfl, hx, ht, sameVol_law.trans hvol2 hvol⟩
        · intro e t hrun
          obtain ⟨hx, ht, hvol⟩ := hrun
          exact ⟨hx, ht, sameVol_law.trans hvol2 hvol⟩
      · intro hf
        exact absurd ((hq _).symm.trans hf) (by decide)
  · intro hf
    rw [hq] at hf
    cases hf

/-- An empty list, or a head outside the image, gives nothing and stays. -/
theorem post_p7fsBalloc_stop (hr : Holds7 s w h) (hstop : h = 0 ∨ ¬ WordsIn s h) :
    Post (p7fsBalloc s) (fun _ _ => False) (fun e t => t = s ∧ (h = 0 → e = .enospc)) := by
  have hhead := hr.head
  refine post_bindFs (post_ite (fun hro => absurd hm.writable (by simp [hro])) fun _ => ?_)
  rw [hhead]
  refine post_ite (fun _ => ⟨rfl, fun _ => rfl⟩) fun h0 => ?_
  refine post_bind (post_failAs (hm.post_readWords (fun hin => absurd hin (hstop.resolve_left h0))
    (fun _ _ => ⟨rfl, fun hz => absurd hz h0⟩) fun hf => ?_))
  rw [hq] at hf
  cases hf

end Taking

/-- The blocks the next `k` calls of `p7fs_balloc` return. -/
def ballocs7 : Nat → Mnt → List Nat
  | 0, _ => []
  | k + 1, s =>
    match p7fsBalloc s with
    | .ok b t => b :: ballocs7 k t
    | .error _ t => ballocs7 k t

/-- They are the blocks taken that lie in the image. -/
theorem ballocs7_eq {s : Mnt} (hm : Mounted7 s) (hq : ∀ k, s.env.fails k = false) {w : Words} {h : Nat}
    (hr : Holds7 s w h) (k : Nat) :
    ballocs7 k s = (takesN (WordsIn s) k w h).filter fun b => decide (WordsIn s b) := by
  induction k generalizing s w h with
  | zero => rfl
  | succ k ih =>
    rw [ballocs7, takesN]
    by_cases hstop : h = 0 ∨ ¬ WordsIn s h
    · rw [if_pos hstop]
      have hrun := post_p7fsBalloc_stop hm hq hr hstop
      cases hb : p7fsBalloc s with
      | ok b t => exact (hrun.of_ok hb).elim
      | error e t =>
        obtain ⟨rfl, -⟩ := hrun.of_error hb
        show ballocs7 k t = _
        rw [ih hm hq hr]
        cases k with
        | zero => rfl
        | succ k => rw [takesN, if_pos hstop]
    · rw [if_neg hstop]
      have h0 : h ≠ 0 := fun he => hstop (.inl he)
      have hin : WordsIn s h := not_not.mp fun he => hstop (.inr he)
      have hrun := post_p7fsBalloc hm hq hr h0 hin
      have hrest : ∀ {t : Mnt}, Holds7 t (take w h).2.1 (take w h).2.2 → SameVol s t → ballocs7 k t =
          (takesN (WordsIn s) k (take w h).2.1 (take w h).2.2).filter fun b => decide (WordsIn s b) := by
        intro t ht hvol
        rw [ih (hm.of_sameVol hvol) (by intro j; rw [hvol.env]; exact hq j) ht]
        have hsame : WordsIn t = WordsIn s := funext fun b => propext (wordsIn_of_sameVol hvol b)
        simp only [hsame]
      cases hb : p7fsBalloc s with
      | ok b t =>
        obtain ⟨rfl, hx, ht, hvol⟩ := hrun.of_ok hb
        rw [List.filter_cons_of_pos (by simpa using hx)]
        show _ :: ballocs7 k t = _
        rw [hrest ht hvol]
      | error e t =>
        obtain ⟨hx, ht, hvol⟩ := hrun.of_error hb
        rw [List.filter_cons_of_neg (by simpa using hx)]
        show ballocs7 k t = _
        rw [hrest ht hvol]

end Filsys.Alloc
