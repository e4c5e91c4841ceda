/-
  Filsys.Alloc.NodeSet — the PDP-7's free list is a finite set of blocks (pdp7fs.c,
  filsys_mkfs.c).

  A list is well formed when its nodes are a finite chain that can be read and it names
  no block twice, among nodes and entries together (`Represents`). The allocator then
  works on the set of the blocks named:

  (1) `p7fs_balloc` takes a member away, or answers `ENOSPC` of the empty set;
  (2) `p7fs_bfree` adds a block that is not a member;
  (3) `p7fs_makefree` makes the set of the blocks its map leaves clear;
  (4) a volume fresh from mkfs opens on the set of its data blocks but the root's
  (`node_list_refines_a_set`).
-/

import Filsys.Engine.Mkfs
import Filsys.Alloc.Regrow
import Filsys.Blockmap.Stock
import Filsys.Pdp7.Containers
import Mathlib.Data.Finset.Dedup
import Mathlib.Order.Interval.Finset.Nat

namespace Filsys.Alloc

open Filsys.Lib Filsys.Engine

/-! ## The set of a list -/

/-- From `h` the nodes are `ns`, and the last has no next. -/
abbrev NodeChain (w : Words) (h : Nat) (ns : List Nat) : Prop := Seg (fun _ => True) w h ns

theorem distinct_of_nodup {L : List Nat} (h : L.Nodup) : Distinct (fun _ => True) L := h.filter _

/-- The list from `h` in the words `w` is well formed and names the set `S`. -/
structure Names (inImg : Nat → Prop) (w : Words) (h : Nat) (ns : List Nat) (S : Finset Nat) : Prop where
  chain : NodeChain w h ns
  legible : ∀ n ∈ ns, inImg n
  nodup : (listed w ns).Nodup
  set : S = (listed w ns).toFinset

/-- The free list of the mount is well formed, and `S` is the set of its nodes and entries. -/
structure Represents (s : Mnt) (S : Finset Nat) : Prop where
  head : s.fs.freelist < 2 ^ 18
  list : ∃ ns, Names (WordsIn s) (wordsOf s.fs s.img) s.fs.freelist ns S

section Names

variable {inImg : Nat → Prop} {w : Words} {h : Nat} {ns : List Nat} {S : Finset Nat}

theorem Names.mem_iff (hn : Names inImg w h ns S) {b : Nat} : b ∈ S ↔ b ∈ listed w ns := by
  rw [hn.set, List.mem_toFinset]

theorem names_empty : Names inImg w 0 [] ∅ :=
  ⟨.stop (.inl rfl), fun _ hn => absurd hn List.not_mem_nil, List.nodup_nil, rfl⟩

/-- A list whose head is no node is the empty one. -/
theorem Names.of_head_zero (hn : Names inImg w 0 ns S) : ns = [] ∧ S = ∅ := by
  obtain ⟨hchain, -, -, hset⟩ := hn
  cases hchain with
  | stop => exact ⟨rfl, hset⟩
  | node h0 => exact absurd rfl h0

theorem Names.cons (hn : Names inImg w h ns S) (h0 : h ≠ 0) :
    ∃ ns', ns = h :: ns' ∧ NodeChain w (w h 0) ns' := by
  obtain ⟨hchain, -, -, -⟩ := hn
  cases hchain with
  | stop hstop => exact absurd trivial (hstop.resolve_left h0)
  | node _ _ hrest => exact ⟨_, rfl, hrest⟩

/-- Only the first words of the nodes matter. -/
theorem Names.congr (hn : Names inImg w h ns S) {w' : Words}
    (hw : ∀ n ∈ ns, ∀ i, i < 64 → w' n i = w n i) : Names inImg w' h ns S := by
  obtain ⟨hchain, hlist⟩ := seg_congr_words hn.chain hw
  exact ⟨hchain, hn.legible, hlist ▸ hn.nodup, hlist ▸ hn.set⟩

theorem Names.mono (hn : Names inImg w h ns S) {inImg' : Nat → Prop}
    (himp : ∀ n ∈ ns, inImg n → inImg' n) : Names inImg' w h ns S :=
  ⟨hn.chain, fun n hm => himp n hm (hn.legible n hm), hn.nodup, hn.set⟩

/-- A non-empty list gives its first block, and goes on naming the others. -/
theorem Names.take (hn : Names inImg w h ns S) (h0 : h ≠ 0) :
    (take w h).1 ∈ S ∧ ∃ ns', Names inImg (take w h).2.1 (take w h).2.2 ns' (S.erase (take w h).1) := by
  obtain ⟨ns, rfl, -⟩ := hn.cons h0
  obtain ⟨ns', hchain, hlist, hsub⟩ := seg_take hn.chain (distinct_of_nodup hn.nodup)
  have hnodup := hlist ▸ hn.nodup
  have hset := hlist ▸ hn.set
  obtain ⟨hfirst, hrest⟩ := List.nodup_cons.mp hnodup
  refine ⟨by rw [hset, List.mem_toFinset]; exact List.mem_cons_self, ns', hchain, fun n hm =>
    hn.legible n (hsub n hm), hrest, ?_⟩
  rw [hset, List.toFinset_cons, Finset.erase_insert (by rwa [List.mem_toFinset])]

/-- `b` in an empty entry of the head node. -/
theorem Names.fill (hn : Names inImg w h ns S) (h0 : h ≠ 0) {i b : Nat} (hslot : p7Slot (w h) = some i)
    (hb0 : b ≠ 0) (hb : b ∉ S)
    {w' : Words} (hnode : ∀ j, j < 64 → w' h j = if j = i then b else w h j) (hne : ∀ x, x ≠ h → w' x = w x) :
    ∃ ns', Names inImg w' h ns' (insert b S) := by
  obtain ⟨ns, rfl, hrest⟩ := hn.cons h0
  obtain ⟨h1, h9, hz⟩ := p7Slot_spec hslot
  have hnodup := hn.nodup
  rw [listed_cons] at hnodup
  have hnot : h ∉ ns := fun hmem => (List.nodup_cons.mp (List.nodup_append.mp hnodup).2.1).1
    (mem_listed_of_mem hmem)
  have hsame : ∀ n ∈ ns, w' n = w n := fun n hm => hne n (by rintro rfl; exact hnot hm)
  have hperm : (listed w' (h :: ns)).Perm (b :: listed w (h :: ns)) := by
    rw [listed_cons, listed_cons, listed_congr hsame, entriesBelow_congr fun j _ hj => hnode j (by omega)]
    exact (entriesBelow_fill h1 h9 hz hb0).append_right _
  refine ⟨h :: ns, .node h0 trivial ?_, hn.legible, ?_, ?_⟩
  · rw [hnode 0 (by decide), if_neg (by omega)]
    exact hrest.congr hsame
  · exact hperm.nodup_iff.mpr (List.nodup_cons.mpr ⟨fun hm => hb (hn.mem_iff.mpr hm), hn.nodup⟩)
  · rw [List.toFinset_eq_of_perm _ _ hperm, List.toFinset_cons, ← hn.set]

/-- A node `b` written before a list, with the entries `E`. -/
theorem Names.node (hn : Names inImg w h ns S) {inImg' : Nat → Prop} {w' : Words} {b : Nat}
    {E : List Nat} (hin : ∀ n ∈ ns, inImg' n) (hinb : inImg' b) (hb0 : b ≠ 0)
    (hfree : ∀ x ∈ b :: E, x ∉ S) (hnd : (b :: E).Nodup)
    (hne : ∀ x, x ≠ b → w' x = w x) (hnext : w' b 0 = h) (hE : (entriesBelow (w' b) 9).Perm E) :
    Names inImg' w' b (b :: ns) (S ∪ (b :: E).toFinset) := by
  have hsame : ∀ n ∈ ns, w' n = w n := fun n hm => hne n (by
    rintro rfl
    exact hfree n (.head _) (hn.mem_iff.mpr (mem_listed_of_mem hm)))
  have hperm : (listed w' (b :: ns)).Perm ((b :: E) ++ listed w ns) := by
    rw [listed_cons, listed_congr hsame]
    exact (hE.append_right _).trans List.perm_middle
  refine ⟨.node hb0 trivial ?_, ?_, ?_, ?_⟩
  · rw [hnext]
    exact hn.chain.congr hsame
  · intro n hr
    rcases hr with _ | ⟨_, hm⟩
    · exact hinb
    · exact hin n hm
  · refine hperm.nodup_iff.mpr (List.nodup_append.mpr ⟨hnd, hn.nodup, fun x hx y hy he => ?_⟩)
    exact hfree x hx (hn.mem_iff.mpr (he ▸ hy))
  · rw [List.toFinset_eq_of_perm _ _ hperm, List.toFinset_append, ← hn.set, Finset.union_comm]

/-- `b` as a node of its own, before the list. -/
theorem Names.push (hn : Names inImg w h ns S) {b : Nat} (hin : inImg b) (hb0 : b ≠ 0) (hb : b ∉ S) {w' : Words}
    (hnode : ∀ j, j < 64 → w' b j = if j = 0 then h else 0) (hne : ∀ x, x ≠ b → w' x = w x) :
    ∃ ns', Names inImg w' b ns' (insert b S) := by
  have hnone : entriesBelow (w' b) 9 = entriesBelow (fun _ => 0) 9 :=
    entriesBelow_congr fun j h1 h2 => by rw [hnode j (by omega), if_neg (by omega)]
  have hnew := hn.node (E := []) hn.legible hin hb0 (by simpa using hb) (List.nodup_singleton b) hne
    ((hnode 0 (by decide)).trans (if_pos rfl)) (by rw [hnone, entriesBelow_zero])
  refine ⟨b :: ns, ?_⟩
  rwa [List.toFinset_cons, List.toFinset_nil, insert_empty_eq, Finset.union_comm, ← Finset.insert_eq] at hnew

end Names

/-! ## The mount's list -/

theorem Represents.of_holds {s t : Mnt} {S : Finset Nat} {w : Words} {h : Nat} (hvol : SameVol s t)
    (ht : Holds7 t w h) (hlt : h < 2 ^ 18)
    (hn : ∃ ns, Names (WordsIn s) w h ns S) : Represents t S := by
  obtain ⟨ns, hn⟩ := hn
  refine ⟨ht.head ▸ hlt, ns, ?_⟩
  rw [ht.head]
  have hin : ∀ n ∈ ns, WordsIn t n := fun n hm => (wordsIn_of_sameVol hvol n).mpr (hn.legible n hm)
  exact (hn.mono fun n hm _ => hin n hm).congr fun n hm i hi => ht.words n (hin n hm) i hi

/-- The set depends on the head and on the words of its blocks. -/
theorem Represents.frame {s t : Mnt} {S : Finset Nat} (h : Represents s S) (hvol : SameVol s t)
    (hhead : t.fs.freelist = s.fs.freelist)
    (hw : ∀ b ∈ S, wordsOf s.fs t.img b = wordsOf s.fs s.img b) : Represents t S := by
  obtain ⟨hlt, ns, hn⟩ := h
  refine ⟨hhead ▸ hlt, ns, ?_⟩
  rw [hhead, shape_wordsOf hvol.shape]
  refine (hn.mono fun n _ hin => (wordsIn_of_sameVol hvol n).mpr hin).congr fun n hm i _ => ?_
  rw [hw n (hn.mem_iff.mpr (mem_listed_of_mem hm))]

theorem post_failAs_error {ε σ α : Type} (e : ε) (x : EStateM ε σ α) (s : σ) :
    Post (failAs e x s) (fun _ _ => True) fun e' _ => e' = e :=
  post_failAs ((post_true _).mono (fun _ _ _ => trivial) fun _ _ _ => rfl)

/-- Past its first tests `p7fs_balloc` fails with `EIO` only. -/
theorem p7fsBalloc_error {s : Mnt} (hw : s.fs.readonly = false) (h0 : s.fs.freelist ≠ 0) :
    Post (p7fsBalloc s) (fun _ _ => True) fun e _ => e = .eio := by
  refine post_bindFs (post_ite (fun hro => absurd hro (by simp [hw])) fun _ =>
    post_ite (fun hz => absurd hz h0) fun _ => ?_)
  refine post_bind ((post_failAs_error _ _ _).mono (fun words t _ => ?_) fun _ _ he => he)
  refine post_bind (Post.mono (Q := fun _ _ => True) (E := fun e _ => e = .eio) ?_ ?_ fun _ _ he => he)
  · refine post_ite (fun _ => trivial) fun _ => ?_
    exact post_bind ((post_failAs_error _ _ _).mono (fun _ _ _ => trivial) fun _ _ he => he)
  · intro b u _
    exact post_bind ((post_failAs_error _ _ _).mono (fun _ _ _ => trivial) fun _ _ he => he)

section Calls

variable {s : Mnt} (hm : Mounted7 s) (hq : ∀ k, s.env.fails k = false) {S : Finset Nat} (hS : Represents s S)

include hm hq hS

/-- (1) A block is taken out of the set; one that lies outside the image cannot be cleared, and is lost. -/
theorem post_p7fsBalloc_set :
    Post (p7fsBalloc s) (fun b t => b ∈ S ∧ Represents t (S.erase b) ∧ SameVol s t)
      fun e t => SameVol s t ∧ (e = .enospc ∧ S = ∅ ∧ Represents t ∅ ∨ e = .eio ∧ ∃ b ∈ S,
        ¬ WordsIn s b ∧ Represents t (S.erase b)) := by
  obtain ⟨hlt, ns, hn⟩ := hS
  have hr := holds7_self s
  by_cases h0 : s.fs.freelist = 0
  · refine (post_p7fsBalloc_stop hm hq hr (.inl h0)).mono (fun _ _ hf => hf.elim) ?_
    intro e t h
    obtain ⟨rfl, he⟩ := h
    rw [h0] at hn
    obtain ⟨-, rfl⟩ := hn.of_head_zero
    exact ⟨sameVol_law.refl _, .inl ⟨he h0, rfl, hlt, [], by rw [h0]; exact names_empty⟩⟩
  · obtain ⟨ns', rfl, -⟩ := hn.cons h0
    obtain ⟨hmem, hrest⟩ := hn.take h0
    have hhead : (take (wordsOf s.fs s.img) s.fs.freelist).2.2 < 2 ^ 18 := by
      by_cases hlast : p7Last (wordsOf s.fs s.img s.fs.freelist) = 0
      · rw [take_exhausted hlast]
        exact wordsOf_lt _ _ _ _
      · rw [take_entry hlast]
        exact hlt
    refine ((post_p7fsBalloc hm hq hr h0 (hn.legible _ List.mem_cons_self)).and
      (p7fsBalloc_error hm.writable h0)).mono ?_ ?_
    · intro b t h
      obtain ⟨⟨rfl, -, ht, hvol⟩, -⟩ := h
      exact ⟨hmem, .of_holds hvol ht hhead hrest, hvol⟩
    · intro e t h
      obtain ⟨⟨hout, ht, hvol⟩, he⟩ := h
      exact ⟨hvol, .inr ⟨he, _, hmem, hout, .of_holds hvol ht hhead hrest⟩⟩

/-- (2) A block from outside joins the set; where it is to be a node of its own it has to lie in the image. -/
theorem post_p7fsBfree_set {b : Nat} (hb0 : b ≠ 0) (hb : b < 2 ^ 18) (hfree : b ∉ S)
    (hin : s.fs.freelist = 0 ∨ p7Slot (wordsOf s.fs s.img s.fs.freelist) = none → WordsIn s b) :
    Post (p7fsBfree b s) (fun _ t => Represents t (insert b S) ∧ SameVol s t) fun _ _ => False := by
  obtain ⟨hlt, ns, hn⟩ := hS
  have hr := holds7_self s
  have hnode : ∀ h, ∀ i, i < 64 → replaced (wordsOf s.fs s.img) b (fun j => if j = 0 then h
    else 0) b i = if i = 0 then h else 0 :=
    fun h i _ => if_pos rfl
  refine post_bindFs (post_ite (fun h => absurd h (by simp [hb0, hm.writable])) fun _ =>
    post_ite (fun h0 => ?_) fun h0 => ?_)
  · -- the first node of an empty list
    have hinb := hin (.inl h0)
    have hm1 : Mounted7 { s with fs := { s.fs with freelist := b } } := hm.of_sameVol ⟨rfl, rfl, rfl⟩
    refine post_bindMod (post_bind (post_attempt (hm1.post_writeWords ?_ (fun hno _ => absurd hinb hno) ?_)))
    · intro _ _
      have hr1 : Holds7 { s with fs := { s.fs with freelist := b } } (wordsOf s.fs s.img) b :=
        ⟨rfl, fun _ _ _ _ => rfl⟩
      have hput := hr1.put .dump b (fun _ => 0) (zeroed (wordsOf s.fs s.img) b) (fun _ _ => by decide)
        (fun _ _ => if_pos rfl) fun x hx => zeroed_ne hx
      rw [h0] at hn
      refine ⟨.of_holds ⟨rfl, rfl, rfl⟩ hput hb (hn.push hinb hb0 hfree (fun j _ => ?_) fun x hx =>
        zeroed_ne hx), rfl, rfl, rfl⟩
      rw [ite_self]
      exact if_pos rfl
    · intro hf _
      exact absurd ((hq _).symm.trans hf) (by decide)
  · obtain ⟨ns', rfl, -⟩ := hn.cons h0
    have hinh := hn.legible _ List.mem_cons_self
    refine post_bind (post_attempt (hm.post_readWords ?_ (fun hno _ => absurd hinh hno) ?_))
    · intro _ _
      have hm1 : Mounted7 (ticked s) := hm.of_sameVol (ticked_sameVol s)
      have hr1 : Holds7 (ticked s) (wordsOf s.fs s.img) s.fs.freelist := hr.ticked
      simp only
      cases hslot : p7Slot (wordsOf s.fs s.img s.fs.freelist) with
      | some i =>
        simp only
        refine post_bind (post_attempt (hm1.post_writeWords ?_ (fun hno _ => absurd hinh hno) ?_))
        · intro _ _
          have hput := hr1.put .dump s.fs.freelist (fun j => if j = i then b
            else wordsOf s.fs s.img s.fs.freelist j)
            (replaced (wordsOf s.fs s.img) s.fs.freelist fun j => if j = i then b
              else wordsOf s.fs s.img s.fs.freelist j)
            (fun j _ => by
              split
              · exact hb
              · exact wordsOf_lt _ _ _ _)
            (fun _ _ => if_pos rfl) fun x hx => replaced_ne hx
          exact ⟨.of_holds ⟨rfl, rfl, rfl⟩ hput hlt (hn.fill h0 hslot hb0 hfree (fun _ _ => if_pos rfl)
            fun x hx => replaced_ne hx), rfl, rfl, rfl⟩
        · intro hf _
          exact absurd ((hq _).symm.trans hf) (by decide)
      | none =>
        -- the head node is full: the block goes before it
        have hinb := hin (.inr hslot)
        simp only
        refine post_bind (post_attempt (hm1.post_writeWords ?_ (fun hno _ => absurd hinb hno) ?_))
        · intro _ _
          have hput := hr1.put .dump b (fun j => if j = 0 then s.fs.freelist else 0)
            (replaced (wordsOf s.fs s.img) b fun j => if j = 0 then s.fs.freelist else 0)
            (fun j _ => by
              split
              · exact hlt
              · decide)
            (hnode _) fun x hx => replaced_ne hx
          exact ⟨.of_holds ⟨rfl, rfl, rfl⟩ ⟨rfl, hput.words⟩ hb (hn.push hinb hb0 hfree (hnode _)
            fun x hx => replaced_ne hx), rfl, rfl, rfl⟩
        · intro hf _
          exact absurd ((hq _).symm.trans hf) (by decide)
    · intro hf _
      exact absurd ((hq _).symm.trans hf) (by decide)

end Calls

/-! ## Rebuilding -/

/-- The blocks among `b - 1, …, b - todo` the map leaves clear. -/
def clearSet (bmap : Buf) (todo b : Nat) : Finset Nat :=
  (Finset.Ico (b - todo) b).filter fun x => getBit bmap (x - p7Datastart) = false

theorem mem_clearSet {bmap : Buf} {todo b x : Nat} : x ∈ clearSet bmap todo b ↔ clearBelow bmap todo b x := by
  unfold clearSet clearBelow
  rw [Finset.mem_filter, Finset.mem_Ico, and_assoc]

theorem p7FreeUnmarked_set (bmap : Buf) (todo b nfree : Nat) {s : Mnt} (hm : Mounted7 s)
    (hq : ∀ k, s.env.fails k = false) {S : Finset Nat}
    (hS : Represents s S) (htop : todo < b) (hb : b ≤ 2 ^ 18) (hlow : ∀ x ∈ S, b ≤ x)
    (hin : ∀ x ∈ clearSet bmap todo b, WordsIn s x) :
    Post (p7FreeUnmarked bmap todo b nfree s) (fun _ t => SameVol s t ∧
      Represents t (S ∪ clearSet bmap todo b)) fun _ _ => False := by
  induction todo generalizing s b nfree S with
  | zero =>
    refine ⟨sameVol_law.refl s, ?_⟩
    rw [show clearSet bmap 0 b = ∅ by simp [clearSet], Finset.union_empty]
    exact hS
  | succ todo ih =>
    have hstep := fun x => @clearBelow_succ bmap todo b x htop
    have hlater : ∀ x ∈ clearSet bmap todo (b - 1), x ∈ clearSet bmap (todo + 1) b := fun x hx =>
      mem_clearSet.mpr ((hstep x).mpr (.inl (mem_clearSet.mp hx)))
    apply post_ite
    · intro hset
      have hsame : clearSet bmap (todo + 1) b = clearSet bmap todo (b - 1) := by
        ext x
        rw [mem_clearSet, mem_clearSet, hstep x, hset]
        simp
      rw [hsame] at hin ⊢
      exact ih (b - 1) nfree hm hq hS (by omega) (by omega) (fun x hx => by have := hlow x hx; omega) hin
    · intro hset
      have hclear : getBit bmap (b - 1 - p7Datastart) = false := Bool.eq_false_iff.mpr hset
      have hfree : b - 1 ∉ S := fun hx => by have := hlow _ hx; omega
      have hinb := hin (b - 1) (mem_clearSet.mpr ((hstep _).mpr (.inr ⟨rfl, hclear⟩)))
      refine post_bind ((post_p7fsBfree_set hm hq hS (by omega) (by omega) hfree fun _ => hinb).mono
        (fun _ t ht => ?_) fun _ _ hf => hf)
      obtain ⟨hSt, hvol⟩ := ht
      refine (ih (b - 1) (nfree + 1) (hm.of_sameVol hvol) (by intro k; rw [hvol.env]; exact hq k) hSt
        (by omega) (by omega) ?_ fun x hx => (wordsIn_of_sameVol hvol x).mpr
        (hin x (hlater x hx))).mono ?_ fun _ _ hf => hf
      · intro x hx
        rcases Finset.mem_insert.mp hx with rfl | hx
        · exact Nat.le_refl _
        · have := hlow x hx
          omega
      · intro _ u hu
        refine ⟨sameVol_law.trans hvol hu.1, ?_⟩
        have hset : S ∪ clearSet bmap (todo + 1) b = insert (b - 1) S ∪ clearSet bmap todo (b - 1) := by
          ext x
          rw [Finset.mem_union, Finset.mem_union, Finset.mem_insert, mem_clearSet, mem_clearSet, hstep x]
          tauto
        rw [hset]
        exact hu.2

/-- (3) The rebuilt list names the data blocks the map leaves clear. -/
theorem post_p7fsMakefree_set {s : Mnt} (hm : Mounted7 s) (hq : ∀ k, s.env.fails k = false) (bmap : Buf)
    (hin : ∀ x ∈ clearSet bmap (p7Kdata - p7Datastart) p7Kdata, WordsIn s x) :
    Post (p7fsMakefree bmap s)
    (fun _ t => Represents t (clearSet bmap (p7Kdata - p7Datastart) p7Kdata) ∧ SameVol s t) fun _ _ =>
    False := by
  apply post_bindMod
  generalize hs0 : ({ s with fs := { s.fs with freelist := 0, tfree := 0 } } : Mnt) = s0
  have hvol : SameVol s s0 := hs0 ▸ ⟨rfl, rfl, rfl⟩
  have h0 : s0.fs.freelist = 0 := by rw [← hs0]
  have hempty : Represents s0 ∅ := ⟨by rw [h0]; decide, [], by rw [h0]; exact names_empty⟩
  refine post_bind ((p7FreeUnmarked_set bmap _ _ 0 (hm.of_sameVol hvol)
    (by intro k; rw [hvol.env]; exact hq k) hempty (by decide) (by decide)
    (fun x hx => absurd hx (Finset.notMem_empty x)) fun x hx => (wordsIn_of_sameVol hvol x).mpr
    (hin x hx)).mono (fun n t ht => ?_) fun _ _ hf => hf)
  obtain ⟨hvolt, hSt⟩ := ht
  rw [Finset.empty_union] at hSt
  apply post_bindMod
  generalize ht1 : ({ t with fs := { t.fs with tfree := n } } : Mnt) = t1
  have hvol1 : SameVol t t1 := ht1 ▸ ⟨rfl, rfl, rfl⟩
  have hS1 : Represents t1 _ := hSt.frame hvol1 (by rw [← ht1]) fun b _ => by rw [← ht1]
  have hall := sameVol_law.trans (sameVol_law.trans hvol hvolt) hvol1
  -- the flush writes block 0, which is no data block
  have hflush : ∀ {u : Mnt}, SameVol t1 u ∧ u.fs.freelist = t1.fs.freelist ∧
      (∀ x, x ≠ 0 → wordsOf t1.fs u.img x = wordsOf t1.fs t1.img x) →
      Represents u (clearSet bmap (p7Kdata - p7Datastart) p7Kdata) ∧ SameVol s u := by
    intro u hr
    obtain ⟨hvolu, hhead, hwu⟩ := hr
    refine ⟨hS1.frame hvolu hhead fun b hb => hwu b ?_, sameVol_law.trans hall hvolu⟩
    rintro rfl
    exact absurd (mem_clearSet.mp hb).1 (by decide)
  exact post_bind (post_attempt ((p7SuperWrite_spec (hm.of_sameVol hall)).mono (fun _ _ h => hflush h)
    fun _ _ h => hflush h))

/-! ## A new volume -/

/-- A file the blocks of a volume are put in: every transfer goes through and nobody else writes. -/
structure Blank (s : Mnt) : Prop where
  solo : Solo s
  quiet : ∀ k, s.env.fails k = false

/-- After `s` the file has grown, and of the blocks only those in `B` have changed. -/
structure Wrote7 (s : Mnt) (B : Nat → Prop) (t : Mnt) : Prop where
  fs : t.fs = s.fs
  env : t.env = s.env
  size : s.size ≤ t.size
  words : ∀ x, ¬ B x → wordsOf s.fs t.img x = wordsOf s.fs s.img x

theorem Blank.wrote {s t : Mnt} {B : Nat → Prop} (h : Blank s) (ht : Wrote7 s B t) : Blank t :=
  ⟨fun k img => by rw [ht.env]; exact h.solo k img, fun k => by rw [ht.env]; exact h.quiet k⟩

theorem Wrote7.refl (s : Mnt) (B : Nat → Prop) : Wrote7 s B s := ⟨rfl, rfl, Nat.le_refl _, fun _ _ => rfl⟩

theorem Wrote7.trans {s t u : Mnt} {B B' : Nat → Prop} (h : Wrote7 s B t) (h' : Wrote7 t B' u) :
    Wrote7 s (fun x => B x ∨ B' x) u where
  fs := h'.fs.trans h.fs
  env := h'.env.trans h.env
  size := Nat.le_trans h.size h'.size
  words x hx := by
    have h2 := h'.words x fun hb => hx (.inr hb)
    rw [h.fs] at h2
    exact h2.trans (h.words x fun hb => hx (.inl hb))

theorem Wrote7.mono {s t : Mnt} {B B' : Nat → Prop} (h : Wrote7 s B t) (himp : ∀ x, B x → B' x) :
    Wrote7 s B' t :=
  ⟨h.fs, h.env, h.size, fun x hx => h.words x fun hb => hx (himp x hb)⟩

theorem Wrote7.wordsIn {s t : Mnt} {B : Nat → Prop} (h : Wrote7 s B t) {x : Nat} (hx : WordsIn s x) :
    WordsIn t x := by
  unfold WordsIn wordPos at *
  rw [h.fs]
  exact Nat.le_trans hx h.size

theorem post_p7Pblock {s : Mnt} (h : Blank s) (b : Nat) (words : Nat → Nat) :
    Post (p7Pblock b words s)
      (fun _ t => Wrote7 s (· = b) t ∧ WordsIn t b ∧ ∀ i, i < 64 →
        wordsOf s.fs t.img b i = word18 (words i)) fun _ _ => False := by
  refine post_bindFs (post_failAs (post_ioWrite (fun _ => ?_) fun hf =>
    absurd ((h.quiet _).symm.trans hf) (by decide)))
  have himg := Pdp7.img_wroteWords h.solo .block b words
  refine ⟨⟨rfl, rfl, Nat.le_max_left _ _, ?_⟩, Nat.le_max_right s.size _, ?_⟩
  · intro x hx
    exact (congrArg (wordsOf s.fs · x) himg).trans (wordsOf_putWordBlock_ne hx _ _)
  · intro i hi
    exact (congrFun (congrArg (wordsOf s.fs · b) himg) i).trans (wordsOf_putWordBlock _ _ _ _ hi)

/-- A node filled from the pool: its entries are the blocks it got, and word 0 is left. -/
theorem p7FillNode_spec (todo i : Nat) (pool : List Nat) (words : Nat → Nat) (hi : 1 ≤ i) (hend : i + todo = 10)
    (hz : ∀ j, i ≤ j → words j = 0) (hpool : ∀ b ∈ pool, b ≠ 0) :
    (p7FillNode todo i pool words).1 = pool.drop todo ∧ (p7FillNode todo i pool words).2 0 = words 0 ∧
      (entriesBelow (p7FillNode todo i pool words).2 9).Perm (pool.take todo ++ entriesBelow words 9) ∧
      ∀ j, (p7FillNode todo i pool words).2 j = words j ∨ (p7FillNode todo i pool words).2 j ∈ pool := by
  induction todo generalizing i pool words with
  | zero => exact ⟨rfl, rfl, .refl _, fun _ => .inl rfl⟩
  | succ todo ih =>
    cases pool with
    | nil => exact ⟨rfl, rfl, .refl _, fun _ => .inl rfl⟩
    | cons f pool =>
      obtain ⟨h1, h2, h3, h4⟩ := ih (i + 1) pool (fun j => if j = i then f else words j) (by omega) (by omega)
        (fun j hj => (if_neg (by omega)).trans (hz j (by omega))) fun b hb => hpool b (.tail _ hb)
      refine ⟨h1, h2.trans (if_neg (by omega)), h3.trans ?_, ?_⟩
      · have hfill := @entriesBelow_fill words _ _ _ hi (show i ≤ 9 by omega)
          (hz i (Nat.le_refl i)) (hpool f (.head _))
        exact (hfill.append_left _).trans List.perm_middle
      · intro j
        rcases h4 j with h | h
        · by_cases hj : j = i
          · exact .inr (List.mem_cons.mpr (.inl (h.trans (if_pos hj))))
          · exact .inl (h.trans (if_neg hj))
        · exact .inr (.tail _ h)

/-- The rounds of `p7_build_freelist`: the pool goes on the list. -/
theorem p7BuildNodes_spec (rounds : Nat) (pool : List Nat) {s : Mnt} {h : Nat} {S : Finset Nat}
    (hb : Blank s) (hlen : pool.length ≤ rounds)
    (hpool : ∀ b ∈ pool, b ≠ 0 ∧ b < 2 ^ 18 ∧ b ∉ S) (hnd : pool.Nodup) (hh : h < 2 ^ 18)
    (hn : ∃ ns, Names (WordsIn s) (wordsOf s.fs s.img) h ns S) :
    Post (p7BuildNodes rounds pool h s)
      (fun h' t => Wrote7 s (· ∈ pool) t ∧ h' < 2 ^ 18 ∧ ∃ ns,
        Names (WordsIn t) (wordsOf s.fs t.img) h' ns (S ∪ pool.toFinset))
      fun _ _ => False := by
  induction rounds generalizing pool s h S with
  | zero =>
    obtain rfl : pool = [] := List.eq_nil_of_length_eq_zero (Nat.le_zero.mp hlen)
    exact ⟨.refl _ _, hh, by simpa using hn⟩
  | succ rounds ih =>
    cases pool with
    | nil => exact ⟨.refl _ _, hh, by simpa using hn⟩
    | cons fb pool =>
      obtain ⟨hrest, hnext, hperm, hval⟩ := p7FillNode_spec 9 1 pool (fun i => if i = 0 then h
        else 0) (Nat.le_refl 1) rfl
        (fun j hj => if_neg (by omega)) fun b hb => (hpool b (.tail _ hb)).1
      generalize hnode : p7FillNode 9 1 pool (fun i => if i = 0 then h else 0) = node at hrest hnext hperm hval
      obtain ⟨hfb, hnd'⟩ := List.nodup_cons.mp hnd
      have hlt : ∀ j, node.2 j < 2 ^ 18 := by
        intro j
        rcases hval j with hj | hj
        · rw [hj]
          split
          · exact hh
          · decide
        · exact (hpool _ (.tail _ hj)).2.1
      have hempty : entriesBelow (fun i => if i = 0 then h else 0) 9 = [] :=
        (entriesBelow_congr fun j h1 _ => if_neg (by omega)).trans (entriesBelow_zero 9)
      rw [hempty, List.append_nil] at hperm
      show Post ((p7Pblock fb (p7FillNode 9 1 pool fun i => if i = 0 then h else 0).2 >>= fun _ =>
        p7BuildNodes rounds (p7FillNode 9 1 pool fun i => if i = 0 then h else 0).1 fb) s) _ _
      rw [hnode]
      refine post_bind ((post_p7Pblock hb fb node.2).mono (fun _ t ht => ?_) fun _ _ hf => hf)
      obtain ⟨hwrote, hin, hwords⟩ := ht
      obtain ⟨ns, hns⟩ := hn
      have hnew : ∃ ns', Names (WordsIn t) (wordsOf t.fs t.img) fb ns' (S ∪ (fb :: pool.take 9).toFinset) := by
        rw [hwrote.fs]
        refine ⟨fb :: ns, hns.node (fun n hn => hwrote.wordsIn (hns.legible n hn)) hin
          (hpool fb (.head _)).1 ?_ ?_ (fun x hx => hwrote.words x hx) ?_ (hperm.symm.trans ?_).symm⟩
        · intro b hb
          exact (hpool b (List.mem_cons.mpr ((List.mem_cons.mp hb).imp_right fun h =>
            List.mem_of_mem_take h))).2.2
        · exact List.nodup_cons.mpr ⟨fun hb => hfb (List.mem_of_mem_take hb),
            hnd'.sublist (List.take_sublist 9 pool)⟩
        · exact (hwords 0 (by decide)).trans ((Nat.mod_eq_of_lt (hlt 0)).trans hnext)
        · exact List.Perm.of_eq (entriesBelow_congr fun j _ hj =>
            ((hwords j (by omega)).trans (Nat.mod_eq_of_lt (hlt j))).symm)
      refine (ih node.1 (hb.wrote hwrote) ?_ ?_ ?_ (hpool fb (.head _)).2.1 hnew).mono ?_ fun _ _ hf => hf
      · rw [hrest, List.length_drop]
        rw [List.length_cons] at hlen
        omega
      · intro b hb
        rw [hrest] at hb
        have hmem := List.mem_of_mem_drop hb
        obtain ⟨h1, h2, h3⟩ := hpool b (.tail _ hmem)
        refine ⟨h1, h2, fun hS => ?_⟩
        rcases Finset.mem_union.mp hS with hS | hS
        · exact h3 hS
        · rcases List.mem_cons.mp (List.mem_toFinset.mp hS) with rfl | hS
          · exact hfb hmem
          · exact (List.disjoint_take_drop hnd' (Nat.le_refl 9)) hS hb
      · rw [hrest]
        exact hnd'.sublist (List.drop_sublist 9 pool)
      · intro h' u hu
        obtain ⟨hw, hh', hlist⟩ := hu
        refine ⟨(hwrote.trans hw).mono ?_, hh', ?_⟩
        · intro x hx
          rcases hx with rfl | hx
          · exact .head _
          · exact .tail _ (List.mem_of_mem_drop (hrest ▸ hx))
        · have hset : S ∪ (fb :: pool.take 9).toFinset ∪ node.1.toFinset = S ∪ (fb :: pool).toFinset := by
            rw [hrest, Finset.union_assoc]
            congr 1
            ext x
            rw [Finset.mem_union, List.mem_toFinset, List.mem_toFinset,
              List.mem_toFinset, ← List.mem_append, List.cons_append,
              List.take_append_drop]
          rw [hset, hwrote.fs] at hlist
          exact hlist

theorem p7ZeroBlocks_spec (todo b : Nat) {s : Mnt} (h : Blank s) :
    Post (p7ZeroBlocks todo b s) (fun _ t => Wrote7 s (fun x => b ≤ x ∧ x < b + todo) t) fun _ _ => False := by
  induction todo generalizing s b with
  | zero => exact .refl _ _
  | succ todo ih =>
    refine post_bind ((post_p7Pblock h b fun _ => 0).mono (fun _ t ht => ?_) fun _ _ hf => hf)
    refine (ih (b + 1) (h.wrote ht.1)).mono (fun _ u hu => (ht.1.trans hu).mono fun x hx => ?_) fun _ _ hf => hf
    omega

/-- The root's block comes off the pool first. -/
theorem p7NewPool_split : ∃ pool, p7NewPool = 6399 :: pool ∧ (∀ b, b ∈ pool ↔ 712 ≤ b ∧ b < 6399) ∧
    pool.Nodup := by
  refine ⟨(List.range' 712 5687).reverse, ?_, ?_, List.nodup_reverse.mpr List.nodup_range'⟩
  · unfold p7NewPool p7Kdata p7Datastart
    rw [show 6400 - 712 = 5687 + 1 from rfl, List.range'_1_concat, List.reverse_append,
      List.reverse_singleton, List.singleton_append]
  · intro b
    rw [List.mem_reverse, List.mem_range'_1]

theorem p7TakeFree_cons (b : Nat) (pool : List Nat) (s : Mnt) :
    p7TakeFree (b :: pool) s = .ok (b, pool) s := rfl

/-- What mkfs leaves: block 0 names the head of a list of all data blocks but the root's. -/
structure Fresh7 (s t : Mnt) : Prop where
  solo : Solo t
  quiet : ∀ k, t.env.fails k = false
  base : t.fs.base = s.fs.base
  desc : t.fs.desc = s.fs.desc
  openErr : t.env.openErr = s.env.openErr
  super : WordsIn t 0
  list : ∃ ns, Names (WordsIn t) (wordsOf t.fs t.img) (wordsOf t.fs t.img 0 0) ns (Finset.Ico 712 6399)

theorem mkfsPdp7_spec {s : Mnt} (h : Blank s) : Post (mkfsPdp7 s) (fun _ t => Fresh7 s t) fun _ _ => False := by
  obtain ⟨pool, htake, hpool, hnd⟩ := p7NewPool_split
  apply post_bind
  rw [htake, p7TakeFree_cons]
  refine post_bind ((post_p7Pblock h 6399 fun _ => 0).mono (fun _ t1 h1 => ?_) fun _ _ hf => hf)
  have hb1 := h.wrote h1.1
  refine post_bind ((p7BuildNodes_spec pool.length pool hb1 (Nat.le_refl _) (fun b hb => ?_) hnd (by decide)
    ⟨[], names_empty⟩).mono (fun head t2 h2 => ?_) fun _ _ hf => hf)
  · have := (hpool b).mp hb
    exact ⟨by omega, by omega, Finset.notMem_empty b⟩
  obtain ⟨hw2, hhead, ns, hns⟩ := h2
  have hb2 := hb1.wrote hw2
  refine post_bind ((post_p7Pblock hb2 0 _).mono (fun _ t3 h3 => ?_) fun _ _ hf => hf)
  have hb3 := hb2.wrote h3.1
  refine post_bind ((p7ZeroBlocks_spec _ 2 hb3).mono (fun _ t4 h4 => ?_) fun _ _ hf => hf)
  have hb4 := hb3.wrote h4
  refine post_bind ((post_p7Pblock hb4 (p7Itod 4) (p7RootInode 6399)).mono (fun _ t5 h5 => ?_) fun _ _ hf => hf)
  have hb5 := hb4.wrote h5.1
  have hw5 : Wrote7 t3 (fun x => 2 ≤ x ∧ x < 712) t5 := (h4.trans h5.1).mono fun x hx => by
    rcases hx with hx | rfl
    · exact hx
    · decide
  have hall := h3.1.trans hw5
  have hfs2 : t2.fs = s.fs := hw2.fs.trans h1.1.fs
  have hfs5 : t5.fs = s.fs := hall.fs.trans hfs2
  have hS : ∅ ∪ pool.toFinset = Finset.Ico 712 6399 := by
    ext x
    rw [Finset.empty_union, List.mem_toFinset, hpool, Finset.mem_Ico]
  rw [hS] at hns
  -- block 0 and the blocks of the i-list are no nodes
  have hkeep : ∀ n ∈ ns, wordsOf s.fs t5.img n = wordsOf s.fs t2.img n := by
    intro n hn
    have hmem := Finset.mem_Ico.mp (hns.mem_iff.mpr (mem_listed_of_mem hn))
    have := hall.words n (by omega)
    rwa [hfs2] at this
  have hzero : wordsOf s.fs t5.img 0 0 = head := by
    have hsame := hw5.words 0 (by omega)
    rw [h3.1.fs, hfs2] at hsame
    have hword := h3.2.2 0 (by decide)
    rw [hfs2] at hword
    rw [hsame, hword]
    exact Nat.mod_eq_of_lt hhead
  rw [h1.1.fs] at hns
  have hbase : t5.fs.base = s.fs.base := by rw [hfs5]
  have hdesc : t5.fs.desc = s.fs.desc := by rw [hfs5]
  refine ⟨hb5.solo, hb5.quiet, hbase, hdesc, ?_, hw5.wordsIn h3.2.1, ns, ?_⟩
  · show t5.env.openErr = _
    rw [hall.env, hw2.env, h1.1.env]
  · show Names (WordsIn t5) (wordsOf t5.fs t5.img) (wordsOf t5.fs t5.img 0 0) ns _
    rw [hfs5, hzero]
    exact (hns.mono fun n _ hin => hall.wordsIn hin).congr fun n hn i _ => by rw [hkeep n hn]

theorem wordsOf_congr {fs fs' : Fs} (hw : wordOps fs'.desc = wordOps fs.desc)
    (hb : fs'.base = fs.base) : wordsOf fs' = wordsOf fs := by
  funext img b
  unfold wordsOf wordPos
  rw [hw, hb]

/-- The count reads and never fails. -/
theorem p7Count_reads (guard head n : Nat) (s : Mnt) :
    Post (p7Count guard head n s) (fun _ t => ReadOnly s t) fun _ _ => False := by
  induction guard generalizing head n s with
  | zero => exact readOnly_law.refl s
  | succ guard ih =>
    refine post_ite (fun _ => readOnly_law.refl s) fun _ =>
      post_bind (post_attempt ((readWords_peeks head s).mono (fun fl t ht => ?_) fun e t ht => ?_))
    · exact (ih _ _ t).mono (fun _ _ hu => readOnly_law.trans ht hu) fun _ _ hf => hf
    · exact ht

/-- (4) The new volume opens, on the set of its data blocks but the root's. -/
theorem Fresh7.opens {s t : Mnt} (h : Fresh7 s t) (readonly : Bool) (proto : Desc)
    (hw : wordOps proto = wordOps s.fs.desc) :
    Post (p7fsOpen readonly proto s.fs.base t) (fun _ u => Represents u (Finset.Ico 712 6399))
    fun _ _ => s.env.openErr ≠ none := by
  have hwt : wordOps proto = wordOps t.fs.desc := hw.trans (congrArg wordOps h.desc.symm)
  obtain ⟨ns, hns⟩ := h.list
  have h0 : t.fs.base + 0 * (wordOps t.fs.desc).blockBytes + (wordOps t.fs.desc).blockBytes ≤ t.size := h.super
  rw [Nat.zero_mul, Nat.add_zero] at h0
  refine post_bindMod (post_bind ?_)
  unfold openImage
  split
  · rename_i he
    exact fun hnone => by
      rw [← h.openErr] at hnone
      exact absurd (he.symm.trans hnone) (by simp)
  refine post_get (post_ite (fun hshort => ?_) fun _ => post_bindMod ?_)
  · rw [hwt, ← h.base] at hshort
    exact absurd hshort (Nat.not_lt.mpr h0)
  generalize hu0 : ({ t with
    fs := { desc := proto, readonly := readonly, base := s.fs.base, imgsize := t.size } } : Mnt) = u0
  have hwords : wordsOf u0.fs = wordsOf t.fs := by
    rw [← hu0]
    exact wordsOf_congr hwt h.base.symm
  have hin : ∀ n, WordsIn t n → WordsIn u0 n := by
    intro n hn
    unfold WordsIn wordPos at *
    rw [← hu0]
    show s.fs.base + n * (wordOps proto).blockBytes + (wordOps proto).blockBytes ≤ t.size
    rw [hwt, ← h.base]
    exact hn
  have himg : u0.img = t.img := by rw [← hu0]
  have hsolo : Solo u0 := by rw [← hu0]; exact h.solo
  have hquiet : ∀ k, u0.env.fails k = false := by rw [← hu0]; exact h.quiet
  refine post_bind (post_failAs (((Pdp7.post_readWords_solo hsolo 0).and (readWords_peeks 0 u0)).mono ?_ ?_))
  · intro sb u1 hr
    obtain ⟨rfl, hro⟩ := hr
    obtain ⟨k, -, rfl⟩ := hro hsolo
    refine post_bindMod (post_bind ((p7Count_reads _ _ _ _).mono (fun n u2 hro2 => ?_) fun _ _ hf => hf.elim))
    obtain ⟨k', -, rfl⟩ := hro2 hsolo
    have hhead : wordsOf u0.fs u0.img 0 0 = wordsOf t.fs t.img 0 0 := by rw [hwords, himg]
    have hlist : Names (WordsIn u0) (wordsOf u0.fs u0.img) (word18 (wordsOf u0.fs u0.img 0 0)) ns
      (Finset.Ico 712 6399) := by
      rw [hhead, hwords, himg, word18, Nat.mod_eq_of_lt (wordsOf_lt _ _ _ _)]
      exact hns.mono fun n _ hn => hin n hn
    exact ⟨Nat.mod_lt _ (by decide), ns, hlist⟩
  · have hlong : wordPos u0.fs 0 + (wordOps u0.fs.desc).blockBytes ≤ u0.size := hin 0 h.super
    intro e u1 hr
    rcases hr with ⟨hshort | hrange | hf | hf, -⟩
    · exact absurd hshort (Nat.not_lt.mpr hlong)
    · have hsize : u0.fs.imgsize = u0.size := by rw [← hu0]
      unfold checkRange at hrange
      rw [hsize] at hrange
      simp only [Bool.or_eq_false_iff, Bool.and_eq_false_iff, decide_eq_false_iff_not] at hrange
      omega
    · exact absurd ((hquiet _).symm.trans hf) (by decide)
    · exact absurd ((hquiet _).symm.trans hf) (by decide)

/-! ## The refinement -/

/-- (1)–(4): the allocator, the rebuild and mkfs work on the set the list names. -/
theorem node_list_refines_a_set :
    (∀ (s : Mnt) (S : Finset Nat), Mounted7 s → (∀ k, s.env.fails k = false) → Represents s S →
      Post (p7fsBalloc s) (fun b t => b ∈ S ∧ Represents t (S.erase b))
        (fun e t => e = .enospc ∧ S = ∅ ∧ Represents t S ∨ e = .eio ∧ ∃ b ∈ S, ¬ WordsIn s b ∧
          Represents t (S.erase b)) ∧
      ∀ b, b ≠ 0 → b < 2 ^ 18 → b ∉ S →
        (s.fs.freelist = 0 ∨ p7Slot (wordsOf s.fs s.img s.fs.freelist) = none → WordsIn s b) →
        Post (p7fsBfree b s) (fun _ t => Represents t (insert b S)) fun _ _ => False) ∧
    (∀ (s : Mnt) (bmap : Buf), Mounted7 s → (∀ k, s.env.fails k = false) →
      (∀ x ∈ clearSet bmap (p7Kdata - p7Datastart) p7Kdata, WordsIn s x) →
      Post (p7fsMakefree bmap s)
      (fun _ t => Represents t (clearSet bmap (p7Kdata - p7Datastart) p7Kdata)) fun _ _ => False) ∧
    ∀ s : Mnt, Blank s → Post (mkfsPdp7 s)
      (fun _ t => ∀ readonly proto, wordOps proto = wordOps s.fs.desc →
        Post (p7fsOpen readonly proto s.fs.base t)
        (fun _ u => Represents u (Finset.Ico 712 6399)) fun _ _ => s.env.openErr ≠ none) fun _ _ => False := by
  refine ⟨fun s S hm hq hS => ⟨?_, fun b hb0 hb hfree hin => ?_⟩, fun s bmap hm hq hin => ?_, fun s hs => ?_⟩
  · refine (post_p7fsBalloc_set hm hq hS).mono (fun b t h => ⟨h.1, h.2.1⟩) ?_
    intro e t hr
    rcases hr with ⟨-, ⟨he, rfl, ht⟩ | hlost⟩
    · exact .inl ⟨he, rfl, ht⟩
    · exact .inr hlost
  · exact (post_p7fsBfree_set hm hq hS hb0 hb hfree hin).mono (fun _ _ h => h.1) fun _ _ hf => hf
  · exact (post_p7fsMakefree_set hm hq bmap hin).mono (fun _ _ h => h.1) fun _ _ hf => hf
  · exact (mkfsPdp7_spec hs).mono (fun _ t ht readonly proto hw => ht.opens readonly proto hw) fun _ _ hf => hf

/-- The PDP-7 nodes in blocks 800 and 900: the one is full, the other has two entries and goes on at 800. -/
def nodesImage : Buf :=
  putWordBlock { desc := descPdp7 } (putWordBlock { desc := descPdp7 } zeroBuf 800 fun i => if 0 < i ∧
    i < 10 then 800 + i else 0) 900
    fun i => if i = 0 then 800 else if i = 3 then 720 else if i = 7 then 721 else 0

def nodesFrom (head : Nat) : Mnt where
  fs := { desc := descPdp7, imgsize := 2048000, freelist := head }
  img := nodesImage
  size := 2048000

def fullNode : List Nat := [809, 808, 807, 806, 805, 804, 803, 802, 801, 800]

def bothNodes : List Nat := 721 :: 720 :: 900 :: fullNode

theorem mounted_nodesFrom (head : Nat) : Mounted7 (nodesFrom head) :=
  ⟨fun _ _ => rfl, ⟨.me, some .rb09, rfl⟩, rfl, rfl, (by decide : 0 < 2048000)⟩

theorem wordsIn_nodesFrom (head : Nat) {b : Nat} (h : b < 8000) : WordsIn (nodesFrom head) b := by
  have hpos : wordPos { desc := descPdp7 } b = 0 + b * 256 := rfl
  show wordPos { desc := descPdp7 } b + 256 ≤ 2048000
  omega

/-- What the two nodes name. -/
theorem listed_nodesImage :
    wordsOf { desc := descPdp7 } nodesImage 900 0 = 800 ∧ wordsOf { desc := descPdp7 } nodesImage 800 0 = 0 ∧
    listed (wordsOf { desc := descPdp7 } nodesImage) [800] = fullNode ∧
    listed (wordsOf { desc := descPdp7 } nodesImage) [900, 800] = bothNodes := by
  decide +kernel

theorem represents_nodesFrom {head : Nat} {ns : List Nat} (hlt : head < 2 ^ 18) (hns : ∀ n ∈ ns, n < 8000)
    (hchain : NodeChain (wordsOf { desc := descPdp7 } nodesImage) head ns)
    (hnd : (listed (wordsOf { desc := descPdp7 } nodesImage) ns).Nodup) :
    Represents (nodesFrom head) (listed (wordsOf { desc := descPdp7 } nodesImage) ns).toFinset :=
  ⟨hlt, ns, hchain, fun n hn => wordsIn_nodesFrom head (hns n hn), hnd, rfl⟩

theorem represents_full : Represents (nodesFrom 800) fullNode.toFinset := by
  obtain ⟨-, hlast, hlist, -⟩ := listed_nodesImage
  rw [← hlist]
  refine represents_nodesFrom (by decide) (by decide) (.node (by decide) trivial (.stop (.inl hlast))) ?_
  rw [hlist]
  decide

theorem represents_sparse : Represents (nodesFrom 900) bothNodes.toFinset := by
  obtain ⟨hnext, hlast, -, hlist⟩ := listed_nodesImage
  rw [← hlist]
  refine represents_nodesFrom (by decide) (by decide) (.node (by decide) trivial ?_) ?_
  · rw [hnext]
    exact .node (by decide) trivial (.stop (.inl hlast))
  · rw [hlist]
    decide

/-- The sparse node gives a block and takes one into a gap, the full one gets a node before it; the list
    is rebuilt from a blank map, and a blank file is made a volume. -/
theorem the_nodes_give_and_take :
    Post (p7fsBalloc (nodesFrom 900)) (fun b t => b ∈ bothNodes ∧
      Represents t (bothNodes.toFinset.erase b)) (fun _ _ => False) ∧
    Post (p7fsBfree 730 (nodesFrom 900)) (fun _ t =>
      Represents t (insert 730 bothNodes.toFinset)) (fun _ _ => False) ∧
    Post (p7fsBfree 730 (nodesFrom 800)) (fun _ t =>
      Represents t (insert 730 fullNode.toFinset)) (fun _ _ => False) ∧
    Post (p7fsMakefree zeroBuf (nodesFrom 900)) (fun _ t =>
      Represents t (clearSet zeroBuf (p7Kdata - p7Datastart) p7Kdata)) (fun _ _ => False) ∧
    Post (mkfsPdp7 (Pdp7.bareImage zeroBuf))
      (fun _ t => Post (p7fsOpen false descPdp7 0 t) (fun _ u => Represents u (Finset.Ico 712 6399))
        fun _ _ => False) fun _ _ => False := by
  have hm := mounted_nodesFrom
  have hquiet : ∀ head k, (nodesFrom head).env.fails k = false := fun _ _ => rfl
  have hin := @wordsIn_nodesFrom
  have hfull := represents_full
  have hsparse := represents_sparse
  have hbare : Blank (Pdp7.bareImage zeroBuf) ∧
    wordOps descPdp7 = wordOps (Pdp7.bareImage zeroBuf).fs.desc ∧ (Pdp7.bareImage zeroBuf).fs.base = 0 ∧
      (Pdp7.bareImage zeroBuf).env.openErr = none := ⟨⟨fun _ _ => rfl, fun _ => rfl⟩, rfl, rfl, rfl⟩
  -- what follows is about any such mounts
  generalize nodesFrom = volume at *
  generalize Pdp7.bareImage zeroBuf = bare at *
  obtain ⟨hcalls, hrebuild, hmkfs⟩ := node_list_refines_a_set
  obtain ⟨htake, hgap⟩ := hcalls (volume 900) _ (hm 900) (hquiet 900) hsparse
  obtain ⟨-, hnode⟩ := hcalls (volume 800) _ (hm 800) (hquiet 800) hfull
  refine ⟨htake.mono (fun _ _ h => ⟨List.mem_toFinset.mp h.1, h.2⟩) ?_, ?_, ?_, ?_, ?_⟩
  · intro e t hr
    rcases hr with ⟨-, hnone, -⟩ | ⟨-, b, hb, hout, -⟩
    · exact absurd hnone (by decide)
    · have hlt : ∀ b ∈ bothNodes, b < 8000 := by decide
      exact absurd (hin 900 (hlt b (List.mem_toFinset.mp hb))) hout
  · exact hgap 730 (by decide) (by decide) (mt List.mem_toFinset.mp (by decide)) fun _ => hin 900 (by decide)
  · exact hnode 730 (by decide) (by decide) (mt List.mem_toFinset.mp (by decide)) fun _ => hin 800 (by decide)
  · refine hrebuild (volume 900) zeroBuf (hm 900) (hquiet 900) fun x hx => hin 900 ?_
    have hlt := (Finset.mem_Ico.mp (Finset.mem_filter.mp hx).1).2
    exact Nat.lt_trans hlt (by decide)
  · obtain ⟨hblank, hops, hbase, hopen⟩ := hbare
    refine (hmkfs bare hblank).mono (fun _ t ht => ?_) fun _ _ hf => hf
    have hopens := ht false descPdp7 hops
    rw [hbase] at hopens
    exact hopens.mono (fun _ _ hu => hu) fun _ _ hne => hne hopen

end Filsys.Alloc
