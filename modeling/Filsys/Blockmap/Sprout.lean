/-
  Filsys.Blockmap.Sprout — a file grows out of the free blocks (blocktree.c).

  Whether a call of `filsys_bmap` with `create` makes its block or stops half way for want
  of one, what has changed is that free blocks have joined the tree (`Sprouted`): the blocks
  that are free or the file's are the ones they were, none is both, and every logical block
  reads as it did, a new one as the hole it was (`post_filsysBmap_sprouts`).
-/

import Filsys.Blockmap.Stock
import Filsys.Blockmap.Truncate

namespace Filsys.Blockmap

open Filsys.Lib Filsys.Engine Filsys.Alloc Filsys.Check Filsys.Tree

/-! ## A file beside the free blocks -/

/-- Unit `i` of logical block `k`, a byte or a word; a hole holds zeros. -/
def unitAt (s : Mnt) (ip : Inode) (k i : Nat) : Nat :=
  if mapAt s ip k = 0 then 0 else contents s (mapAt s ip k) i

/-- A file none of whose blocks is free, on a mount with sound free space. -/
structure Stocked (s : Mnt) (ip : Inode) : Prop where
  stock : Stock s
  tree : TreeOk s ip
  apart : ∀ b, InTree s ip b → ¬ Free s b
  within : Within s.fs.desc ip

/-- The node the PDP-7 takes a block from is one of those its list names. -/
theorem Stock.head_free {s u : Mnt} (h : Stock s) (hp : s.fs.desc.ops = .pdp7) {b : Nat}
    (hb : balloc s = .ok b u) : Free s s.fs.freelist := by
  have hm := mounted_words h.volume hp
  obtain ⟨L, hL⟩ := h.words hp
  have heq : balloc s = p7fsBalloc s := by
    unfold balloc
    rw [bindFs_run]
    rw [h.form.alloc.mpr hp]
  rw [free_words hp hL.lists]
  by_cases hstop : s.fs.freelist = 0 ∨ ¬ WordsIn s s.fs.freelist
  · have hstops := post_p7fsBalloc_stop hm h.quiet (holds7_self s) hstop
    rw [← heq, hb] at hstops
    exact hstops.elim
  · obtain ⟨h0, hin⟩ := not_or.mp hstop
    exact hL.lists.head_mem h0 (not_not.mp hin)

/-- With sound free space `balloc` hands out none of the blocks in use. -/
theorem prudent_of_stock {s : Mnt} {U : Nat → Prop} (h : Stock s) (hU : ∀ b, U b → ¬ Free s b)
    (k : Nat) : Prudent k s U := by
  induction k generalizing s U with
  | zero => trivial
  | succ k ih =>
    intro t b u hoff hb
    obtain ⟨ht, hfree⟩ := h.of_same hoff.toSameVol (fun _ => by rw [hoff.fs]) (fun _ => by rw [hoff.fs])
      fun c hc => hoff.same c fun hu => hU c hu hc
    have hspec := post_balloc_stock ht
    rw [hb] at hspec
    have hwas := (hfree b).mp hspec.was
    refine ⟨(h.usable hwas).1, fun hu => hU b hu hwas, fun hp hu => hU _ hu ?_,
      ih hspec.stock fun c hc hfc => ?_⟩
    · have hhead := (hfree _).mp (ht.head_free (by rw [shape_desc hoff.shape]; exact hp) hb)
      rwa [hoff.fs] at hhead
    · obtain ⟨hft, hne⟩ := (hspec.free c).mp hfc
      exact hc.elim (fun hu => hU c hu ((hfree c).mp hft)) hne

/-- A file with direct blocks only. -/
theorem Stock.direct {s : Mnt} (h : Stock s) {ip : Inode}
    (hlev : ∀ i, i < s.fs.desc.niaddr → ip.addr i ≠ 0 → slotLevel s.fs.desc ip.mode i = none)
    (hinj : ∀ i j, i < s.fs.desc.niaddr → j < s.fs.desc.niaddr → ip.addr i = ip.addr j → ip.addr i ≠ 0 → i = j)
    (hok : ∀ i, i < s.fs.desc.niaddr → ip.addr i ≠ 0 → Usable s (ip.addr i) ∧ ¬ Free s (ip.addr i))
    (hin : Within s.fs.desc ip) : Stocked s ip := by
  have hat : ∀ q, Place s.fs.desc ip.mode q → blockAt s ip q ≠ 0 → ∃ i, i < s.fs.desc.niaddr ∧ q = [i] ∧
    blockAt s ip q = ip.addr i := by
    intro q hq hne
    cases q with
    | nil => exact absurd rfl hq.ne_nil
    | cons i idxs =>
      obtain ⟨hi, hlen, -⟩ := place_cons.mp hq
      have hval : blockAt s ip (i :: idxs) = walk (heap s) (ip.addr i) idxs := rfl
      by_cases h0 : ip.addr i = 0
      · rw [hval, h0, walk_zero] at hne
        exact absurd rfl hne
      · unfold depth at hlen
        rw [hlev i hi h0] at hlen
        obtain rfl := List.length_eq_zero_iff.mp (Nat.le_zero.mp hlen)
        exact ⟨i, hi, rfl, rfl⟩
  have hheld : ∀ b, InTree s ip b → ∃ i, i < s.fs.desc.niaddr ∧ ip.addr i ≠ 0 ∧ b = ip.addr i := by
    intro b hr
    obtain ⟨hb, q, hq, rfl⟩ := hr
    obtain ⟨i, hi, -, hval⟩ := hat q hq hb
    exact ⟨i, hi, fun h0 => hb (hval.trans h0), hval⟩
  refine ⟨h, ⟨fun p q hp hq heq hne => ?_, fun b hb => ?_⟩, fun b hb => ?_, hin⟩
  · obtain ⟨i, hi, rfl, hpi⟩ := hat p hp hne
    obtain ⟨j, hj, rfl, hqj⟩ := hat q hq (fun h0 => hne (heq.trans h0))
    rw [hinj i j hi hj (hpi.symm.trans (heq.trans hqj)) fun h0 => hne (hpi.trans h0)]
  · obtain ⟨i, hi, h0, rfl⟩ := hheld b hb
    exact (hok i hi h0).1
  · obtain ⟨i, hi, h0, rfl⟩ := hheld b hb
    exact (hok i hi h0).2

theorem Stocked.able {s : Mnt} {ip : Inode} (h : Stocked s ip) : Able s ip :=
  ⟨h.stock.toReady, h.tree, prudent_of_stock h.stock h.apart⟩

/-! ## What growing leaves -/

/-- At most `n` free blocks have become the file's, and no block of another file has been written. -/
structure Joined (s : Mnt) (ip : Inode) (n : Nat) (t : Mnt) (ip' : Inode) : Prop extends SameVol s t where
  kin : ip' = { ip with addr := ip'.addr, mode := ip'.mode }
  mode : ip'.mode = ip.mode ∨ Small s.fs.desc ip.mode ∧ ip'.mode = ip.mode ||| s.fs.desc.ilargMask
  stocked : Stocked t ip'
  all : ∀ b, Free t b ∨ InTree t ip' b ↔ Free s b ∨ InTree s ip b
  taken : ∃ N : List Nat, N.length ≤ n ∧ ∀ x, Free t x ↔ Free s x ∧ x ∉ N
  map : ∀ k, k < 2 ^ 32 → mapAt s ip k ≠ 0 → mapAt t ip' k = mapAt s ip k
  same : ∀ c, Lies s c → ¬ Free s c → ¬ InTree s ip c → contents t c = contents s c

/-- And the file reads as it did. -/
structure Sprouted (s : Mnt) (ip : Inode) (n : Nat) (t : Mnt) (ip' : Inode) :
    Prop extends Joined s ip n t ip' where
  unit : ∀ k, k < 2 ^ 32 → ∀ i, unitAt t ip' k i = unitAt s ip k i

theorem Joined.trans {s t u : Mnt} {ip ip' ip'' : Inode} {n m : Nat} (h : Joined s ip n t ip')
    (h' : Joined t ip' m u ip'') :
    Joined s ip (n + m) u ip'' := by
  have hd := shape_desc h.shape
  refine ⟨sameVol_law.trans h.toSameVol h'.toSameVol, ?_, ?_, h'.stocked, fun b =>
    (h'.all b).trans (h.all b), ?_, fun k hk h0 => ?_,
    fun c hc hf hin => ?_⟩
  · rw [h'.kin, h.kin]
  · have hm' := h'.mode
    rw [hd] at hm'
    rcases h.mode with hm | ⟨hs, hm⟩
    · rwa [hm] at hm'
    · refine .inr ⟨hs, ?_⟩
      rcases hm' with hm' | ⟨hs', -⟩
      · exact hm'.trans hm
      · rw [hm] at hs'
        exact absurd ((has_or_self hs.1).symm.trans hs'.2) (by decide)
  · obtain ⟨N, hN, hfree⟩ := h.taken
    obtain ⟨N', hN', hfree'⟩ := h'.taken
    refine ⟨N ++ N', by rw [List.length_append]; omega, fun x => ?_⟩
    rw [hfree', hfree, List.mem_append, not_or, and_assoc]
  · have hm := h.map k hk h0
    exact (h'.map k hk (by rw [hm]; exact h0)).trans hm
  · have hno : ¬ (Free t c ∨ InTree t ip' c) := fun hx => ((h.all c).mp hx).elim hf hin
    obtain ⟨hft, hit⟩ := not_or.mp hno
    exact (h'.same c ((lies_of_sameVol h.toSameVol).mpr hc) hft hit).trans (h.same c hc hf hin)

theorem Joined.widen {s t : Mnt} {ip ip' : Inode} {n m : Nat} (h : Joined s ip n t ip') (hle : n ≤ m) :
    Joined s ip m t ip' := by
  obtain ⟨N, hN, hfree⟩ := h.taken
  exact { h with taken := ⟨N, Nat.le_trans hN hle, hfree⟩ }

theorem Sprouted.trans {s t u : Mnt} {ip ip' ip'' : Inode} {n m : Nat} (h : Sprouted s ip n t ip')
    (h' : Sprouted t ip' m u ip'') :
    Sprouted s ip (n + m) u ip'' :=
    ⟨h.toJoined.trans h'.toJoined, fun k hk i => (h'.unit k hk i).trans (h.unit k hk i)⟩

theorem Sprouted.widen {s t : Mnt} {ip ip' : Inode} {n m : Nat} (h : Sprouted s ip n t ip')
    (hle : n ≤ m) : Sprouted s ip m t ip' :=
  ⟨h.toJoined.widen hle, h.unit⟩

/-! ## Writes beside the indirect blocks -/

theorem IndirectBlock.inTree {s : Mnt} {ip : Inode} {b : Nat} (h : IndirectBlock s ip b) (h0 : b ≠ 0) :
    InTree s ip b := by
  obtain ⟨slot, idxs, hpl, -, rfl⟩ := h
  exact ⟨h0, slot :: idxs, hpl, rfl⟩

/-- A block with entries below it in the file is one of its indirect blocks. -/
theorem indirect_of_entry {s : Mnt} {ip : Inode} {p : List Nat} {i : Nat}
    (hpl : Place s.fs.desc ip.mode (p ++ [i])) (hp0 : p ≠ []) :
    IndirectBlock s ip (blockAt s ip p) := by
  cases p with
  | nil => exact absurd rfl hp0
  | cons slot idxs =>
    obtain ⟨-, hlen, -⟩ := place_cons.mp (show Place s.fs.desc ip.mode (slot :: (idxs ++ [i])) from hpl)
    rw [List.length_append, List.length_singleton] at hlen
    exact ⟨slot, idxs, place_up hpl hp0, hlen, rfl⟩

theorem mapAt_inTree {s : Mnt} {ip : Inode} (hf : Formed s.fs.desc) {k : Nat} (hk : k < 2 ^ 32)
    (h0 : mapAt s ip k ≠ 0) : InTree s ip (mapAt s ip k) := by
  obtain ⟨slot, idxs, -, hpl, hv⟩ := mapAt_path hf hk h0
  exact ⟨h0, slot :: idxs, hpl, hv.symm⟩

/-- Every place of the file is as it was. -/
structure Steady (s : Mnt) (ip : Inode) (t : Mnt) : Prop extends SameVol s t where
  at_same : ∀ q, Place s.fs.desc ip.mode q → blockAt t ip q = blockAt s ip q

section Steady

variable {s t : Mnt} {ip : Inode}

/-- The places are what the indirect blocks say. -/
theorem Stocked.steady (h : Stocked s ip) (hvol : SameVol s t)
    (hsame : ∀ c, c ≠ 0 → IndirectBlock s ip c → contents t c = contents s c) :
    Steady s ip t := by
  refine ⟨hvol, fun q hq => ?_⟩
  refine look_congr (rooted_place s.fs.desc ip.mode) (fun _ _ => rfl) (fun p i hpi hp0 hne => ?_) q hq
  exact heap_of_contents h.stock.volume hvol (hsame _ hne (indirect_of_entry hpi hp0)) (hpi.last_lt hp0)

variable (h : Steady s ip t)

include h

theorem Steady.inTree {b : Nat} : InTree t ip b ↔ InTree s ip b := by
  unfold InTree Held
  rw [shape_desc h.shape]
  refine and_congr_right fun _ => exists_congr fun q => and_congr_right fun hq => ?_
  rw [show look ip.addr (heap t) q = look ip.addr (heap s) q from h.at_same q hq]

theorem Steady.mapAt (hf : Formed s.fs.desc) {k : Nat} (hk : k < 2 ^ 32) : mapAt t ip k = mapAt s ip k := by
  unfold Blockmap.mapAt
  rw [shape_desc h.shape]
  cases hp : pathOf s.fs.desc ip.mode k with
  | none => rfl
  | some q => exact h.at_same _ (place_pathOf hf hk hp)

theorem Steady.tree (hok : TreeOk s ip) : TreeOk t ip where
  unshared := by
    rw [shape_desc h.shape]
    exact hok.unshared.congr h.at_same
  usable b hb := (usable_of_sameVol h.toSameVol).mpr (hok.usable b (h.inTree.mp hb))

theorem Steady.stocked (hs : Stocked s ip) (hstock : Stock t) (hfree : ∀ x, Free t x ↔ Free s x) :
    Stocked t ip where
  stock := hstock
  tree := h.tree hs.tree
  within := by
    rw [shape_desc h.shape]
    exact hs.within
  apart b hb hf := hs.apart b (h.inTree.mp hb) ((hfree b).mp hf)

end Steady

/-- Neither the free blocks nor the file's have been written. -/
theorem Stocked.sprouts {s t : Mnt} {ip : Inode} (h : Stocked s ip) (hvol : SameVol s t)
    (hstock : Stock t) (hfree : ∀ x, Free t x ↔ Free s x)
    (hsame : ∀ c, Lies s c → ¬ Free s c → contents t c = contents s c) : Sprouted s ip 0 t ip := by
  have htree : ∀ c, InTree s ip c → contents t c = contents s c :=
    fun c hc => hsame c ((h.tree.usable c hc).lies h.stock.volume) (h.apart c hc)
  have hst := h.steady hvol fun c h0 hc => htree c (hc.inTree h0)
  refine ⟨⟨hvol, rfl, .inl rfl, hst.stocked h hstock hfree, fun b => by rw [hfree, hst.inTree],
    ⟨[], Nat.le_refl 0, fun x => by simp [hfree]⟩,
    fun k hk _ => hst.mapAt h.stock.form hk, fun c hc hf _ => hsame c hc hf⟩, fun k hk i => ?_⟩
  unfold unitAt
  rw [hst.mapAt h.stock.form hk]
  split
  · rfl
  · rename_i h0
    rw [htree _ (mapAt_inTree h.stock.form hk h0)]

/-! ## One block -/

section Hung

variable {s t : Mnt} {ip ip' : Inode} {place : List Nat} {nb : Nat} (h : Hung s ip place nb t ip')

include h

/-- A logical block is mapped as it was, or the new block is its. -/
theorem Hung.mapAt_or (hf : Formed s.fs.desc) {k : Nat} (hk : k < 2 ^ 32) :
    mapAt t ip' k = mapAt s ip k ∨ mapAt s ip k = 0 ∧ mapAt t ip' k = nb := by
  have hd := shape_desc h.shape
  cases hp : pathOf s.fs.desc ip.mode k with
  | none =>
    rw [mapAt_none hp, mapAt_none (by rw [hd, h.mode]; exact hp)]
    exact .inl rfl
  | some q =>
    obtain ⟨slot, idxs⟩ := q
    rw [mapAt_some hp, mapAt_some (by rw [hd, h.mode]; exact hp), h.look _ (place_pathOf hf hk hp)]
    split
    · rename_i heq
      rw [heq]
      exact .inr ⟨h.was, rfl⟩
    · exact .inl rfl

theorem Hung.inTree_iff (hpl : Place s.fs.desc ip.mode place) (h0 : nb ≠ 0) {c : Nat} :
    InTree t ip' c ↔ InTree s ip c ∨ c = nb := by
  refine ⟨h.inTree, fun hc => ?_⟩
  have hplace : ∀ q, Place s.fs.desc ip.mode q → Place t.fs.desc ip'.mode q := by
    intro q hq
    rwa [shape_desc h.shape, h.mode]
  rcases hc with ⟨hc0, q, hq, rfl⟩ | rfl
  · refine ⟨hc0, q, hplace q hq, (h.look q hq).trans (if_neg ?_)⟩
    rintro rfl
    exact hc0 h.was
  · exact ⟨h0, place, hplace place hpl, (h.look place hpl).trans (if_pos rfl)⟩

/-- A free block hung under an empty place; only indirect blocks have been written since it was handed out. -/
theorem Hung.sprouted (hs : Stocked s ip) (hpl : Place s.fs.desc ip.mode place)
    (hkin : ip' = { ip with addr := ip'.addr }) {u : Mnt}
    (htk : Taken s nb u) (hstock : Stock t) (hfree : ∀ x, Free t x ↔ Free u x)
    (hcont : ∀ c, ¬ IndirectBlock s ip c → contents t c = contents u c)
    (hwithin : Within s.fs.desc ip') : Sprouted s ip 1 t ip' := by
  have hnb := hs.stock.area_pos h.usable.1
  have hin := fun c => h.inTree_iff hpl hnb (c := c)
  have hplain : ∀ c, c ≠ 0 → ¬ InTree s ip c → ¬ IndirectBlock s ip c := fun c h0 hc hi => hc (hi.inTree h0)
  refine ⟨⟨h.toSameVol, ?_, .inl h.mode,
    ⟨hstock, h.tree hs.tree, fun b hb hf => ?_, by rw [shape_desc h.shape]; exact hwithin⟩,
    fun b => ?_, ⟨[nb], Nat.le_refl 1, fun x => ?_⟩,
    fun k hk h0 => ?_, fun c hc hf hct => ?_⟩, fun k hk i => ?_⟩
  · rw [hkin]
  · obtain ⟨hfs, hne⟩ := (htk.free b).mp ((hfree b).mp hf)
    exact ((hin b).mp hb).elim (fun hb => hs.apart b hb hfs) hne
  · rw [hfree, htk.free, hin]
    constructor
    · intro hr
      rcases hr with ⟨hb, -⟩ | hb | rfl
      · exact .inl hb
      · exact .inr hb
      · exact .inl htk.was
    · intro hr
      rcases hr with hb | hb
      · by_cases hne : b = nb
        · exact .inr (.inr hne)
        · exact .inl ⟨hb, hne⟩
      · exact .inr (.inl hb)
  · rw [hfree, htk.free, List.mem_singleton]
  · exact (h.mapAt_or hs.stock.form hk).resolve_right fun hz => h0 hz.1
  · rw [hcont c (hplain c (Nat.ne_of_gt (Nat.lt_of_lt_of_le (by decide) hc.1)) hct), htk.same c hc hf]
  · unfold unitAt
    rcases h.mapAt_or hs.stock.form hk with heq | ⟨hz, heq⟩
    · rw [heq]
      split
      · rfl
      · rename_i h0
        have hc := mapAt_inTree hs.stock.form hk h0
        rw [hcont _ (mapAt_not_indirect hs.able hk h0),
          htk.same _ ((hs.tree.usable _ hc).lies hs.stock.volume) (hs.apart _ hc)]
    · rw [heq, if_neg hnb, if_pos hz, hcont nb (hplain nb hnb h.fresh), htk.zero]

end Hung

/-! ## One way down -/

/-- Nothing was left to hand out. -/
structure Starved (s : Mnt) (ip : Inode) (n : Nat) (t : Mnt) (ip' : Inode) :
    Prop extends Sprouted s ip n t ip' where
  none : ∀ x, ¬ Free t x

theorem Sprouted.starved {s t u : Mnt} {ip ip' ip'' : Inode} {n m : Nat} (h : Sprouted s ip n t ip')
    (h' : Starved t ip' m u ip'') :
    Starved s ip (n + m) u ip'' := ⟨h.trans h'.toSprouted, h'.none⟩

theorem Starved.widen {s t : Mnt} {ip ip' : Inode} {n m : Nat} (h : Starved s ip n t ip')
    (hle : n ≤ m) : Starved s ip m t ip' :=
  ⟨h.toSprouted.widen hle, h.none⟩

/-- Reads change nothing. -/
theorem Stocked.read {s : Mnt} {ip : Inode} (h : Stocked s ip) (k : Nat) :
    Sprouted s ip 0 { s with ios := k } ip := by
  obtain ⟨hstock, hfree⟩ := h.stock.of_same (t := { s with ios := k }) ⟨rfl, rfl, rfl⟩ (fun _ => rfl)
    (fun _ => rfl) fun _ _ => rfl
  exact h.sprouts ⟨rfl, rfl, rfl⟩ hstock hfree fun _ _ _ => rfl

theorem Stocked.spent {s t : Mnt} {ip : Inode} (h : Stocked s ip) (ht : Spent s t) : Starved s ip 0 t ip :=
  ⟨h.sprouts ht.toSameVol ht.stock
    (fun x => ⟨fun hx => absurd hx (ht.free x), fun hx => absurd hx (ht.none x)⟩)
  fun c hc _ => ht.same c hc, ht.free⟩

/-- A block is handed out, or there was none. -/
theorem Stocked.balloc_cases {s : Mnt} {ip : Inode} (h : Stocked s ip) :
    (∃ nb u, balloc s = .ok nb u ∧ Taken s nb u) ∨ ∃ e t, balloc s = .error e t ∧ Starved s ip 0 t ip := by
  have hspec := post_balloc_stock h.stock
  cases hb : balloc s with
  | ok nb u =>
    rw [hb] at hspec
    exact .inl ⟨nb, u, rfl, hspec⟩
  | error e t =>
    rw [hb] at hspec
    exact .inr ⟨e, t, rfl, h.spent hspec⟩

section Follow

variable {ip : Inode}

/-- A new block hung into an entry of the block at `p`. -/
theorem post_hang_sprouts {s : Mnt} (h : Stocked s ip) {p : List Nat} {i : Nat}
    (hpl : Place s.fs.desc ip.mode (p ++ [i])) (hp0 : p ≠ [])
    (hblk : blockAt s ip p ≠ 0) (hz : heap s (blockAt s ip p) i = 0) {buf : Buf}
    (hbuf : ∀ j, j < s.fs.desc.nindir → indGet s.fs.desc buf j = heap s (blockAt s ip p) j) {nb : Nat}
    {u : Mnt} (hb : balloc s = .ok nb u)
    (htk : Taken s nb u) :
    Post (writeBlock (blockAt s ip p) (indPut s.fs.desc buf i nb) u) (fun _ t => Sprouted s ip 1 t ip ∧
      blockAt t ip (p ++ [i]) = nb)
      fun _ _ => False := by
  have hin : InTree s ip (blockAt s ip p) := ⟨hblk, p, place_up hpl hp0, rfl⟩
  have hindirect := indirect_of_entry hpl hp0
  have hru := h.stock.toReady.of_sameVol htk.toSameVol
  have hub := (usable_of_sameVol htk.toSameVol).mpr (h.tree.usable _ hin)
  refine ((post_hang h.able hpl hp0 hblk hz hbuf hb).and
    (post_writeBlock hru.volume hru.quiet hub hru.form _)).mono ?_ fun _ _ hf => hf.1
  intro _ t hr
  obtain ⟨⟨hung, -⟩, hw⟩ := hr
  have hother : ∀ c, ¬ IndirectBlock s ip c → contents t c = contents u c :=
    fun c hc => hw.other c fun he => hc (he ▸ hindirect)
  obtain ⟨hstock, hfree⟩ := htk.stock.of_same hw.toSameVol (fun _ => by rw [hw.fs])
    (fun _ => by rw [hw.fs]) fun c hc => hw.other c fun he =>
    h.apart _ hin (he ▸ ((htk.free c).mp hc).1)
  exact ⟨hung.sprouted h hpl rfl htk hstock hfree hother h.within, (hung.look _ hpl).trans (if_pos rfl)⟩

/-- The way down `idxs` from the block at `p`, made as far as the blocks last. -/
theorem post_indFollow_sprouts (idxs : List Nat) (hne : idxs ≠ []) {s : Mnt} {p : List Nat}
    (h : Stocked s ip) (hp0 : p ≠ [])
    (hpl : Place s.fs.desc ip.mode (p ++ idxs)) (hblk : blockAt s ip p ≠ 0) :
    Post (indFollow true idxs (blockAt s ip p) s) (fun _ t => Sprouted s ip idxs.length t ip)
    (fun _ t => Starved s ip idxs.length t ip) := by
  induction idxs generalizing s p with
  | nil => exact absurd rfl hne
  | cons i idxs ih =>
    rw [List.append_cons] at hpl
    have hpi : Place s.fs.desc ip.mode (p ++ [i]) := place_up hpl (by simp)
    have hin : InTree s ip (blockAt s ip p) := ⟨hblk, p, place_up hpi hp0, rfl⟩
    have hi := hpi.last_lt hp0
    have hnext : blockAt s ip (p ++ [i]) = heap s (blockAt s ip p) i := by
      unfold blockAt at *
      rw [look_snoc _ _ hp0, if_neg hblk]
    refine post_bindFs (post_bind (post_failAs ?_))
    refine (post_readBlock h.stock.volume h.stock.quiet (h.tree.usable _ hin)).mono ?_ fun _ _ hf => hf.elim
    intro buf t hr
    obtain ⟨⟨k, rfl⟩, hbuf⟩ := hr
    have hread := h.read k
    show Post ((if indGet s.fs.desc buf i = 0 then _ else _ : M Nat) { s with ios := k }) _ _
    rw [hbuf i hi]
    apply post_ite
    · intro hz
      refine post_ite (fun _ => ?_) fun hc => absurd rfl hc
      apply post_bind
      rcases hread.stocked.balloc_cases with ⟨nb, u, hb, htk⟩ | ⟨e, t, hb, ht⟩
      · rw [hb]
        refine post_bind (post_failAs ?_)
        refine (post_hang_sprouts hread.stocked hpi hp0 hblk hz hbuf hb htk).mono ?_ fun _ _ hf => hf.elim
        intro _ t hr
        obtain ⟨hgrew, hat⟩ := hr
        have hgrew := hread.trans hgrew
        apply post_ite
        · intro hnil
          subst hnil
          exact hgrew
        · intro hrest
          have hnb : nb ≠ 0 := h.stock.area_pos (hread.stocked.stock.usable htk.was).1
          have hd : t.fs.desc = s.fs.desc := shape_desc hgrew.shape
          have hrun := ih hrest hgrew.stocked (p := p ++ [i]) (by simp)
            (by rw [hd]; exact hpl) (by rw [hat]; exact hnb)
          rw [hat] at hrun
          apply hrun.mono
          · intro r v hv
            exact (hgrew.trans hv).widen (by rw [List.length_cons]; omega)
          · intro e v hv
            exact (hgrew.starved hv).widen (by rw [List.length_cons]; omega)
      · rw [hb]
        exact (hread.starved ht).widen (Nat.zero_le _)
    · intro hnz
      refine post_ite (fun _ => hread.widen (Nat.zero_le _)) fun hrest => ?_
      have hrun := ih hrest hread.stocked (p := p ++ [i]) (by simp) hpl
        (by rw [show blockAt { s with ios := k } ip (p ++ [i]) = _ from hnext]; exact hnz)
      rw [show blockAt { s with ios := k } ip (p ++ [i]) = _ from hnext] at hrun
      apply hrun.mono
      · intro r v hv
        exact (hread.trans hv).widen (by rw [List.length_cons]; omega)
      · intro e v hv
        exact (hread.starved hv).widen (by rw [List.length_cons]; omega)

end Follow

/-! ## The slots -/

/-- The copy has grown, its list of blocks to free is as it was. -/
structure Grown (s : Mnt) (l : Loc) (n : Nat) (t : Mnt × Loc) : Prop extends Sprouted s l.ip n t.1 t.2.ip where
  bl : t.2.bl = l.bl

/-- The same, and there was nothing more to grow from. -/
structure Stunted (s : Mnt) (l : Loc) (n : Nat) (t : Mnt × Loc) : Prop extends Starved s l.ip n t.1 t.2.ip where
  bl : t.2.bl = l.bl

theorem Grown.trans {s : Mnt} {l : Loc} {n m : Nat} {t u : Mnt × Loc} (h : Grown s l n t)
    (h' : Grown t.1 t.2 m u) : Grown s l (n + m) u :=
  ⟨h.toSprouted.trans h'.toSprouted, h'.bl.trans h.bl⟩

theorem Grown.stunted {s : Mnt} {l : Loc} {n m : Nat} {t u : Mnt × Loc} (h : Grown s l n t)
    (h' : Stunted t.1 t.2 m u) : Stunted s l (n + m) u :=
  ⟨h.toSprouted.starved h'.toStarved, h'.bl.trans h.bl⟩

/-- A block's way down has at most three entries. -/
theorem levelIdx_le {d : Desc} (hf : Formed d) {mode slot level : Nat} (hs : slot < d.niaddr)
    (hl : slotLevel d mode slot = some level) (r : Nat) :
    (levelIdx d.nindir level r).length ≤ 3 := by
  have ht := hf.table
  unfold slotsOf pdp7Slots byteSlots at ht
  simp only [List.mem_cons, Slots.mk.injEq, List.not_mem_nil, or_false] at ht
  have hlen : (levelIdx d.nindir level r).length = level + 1 := levelIdx_length ..
  rw [hlen]
  unfold slotLevel at hl
  split at hl
  · split at hl
    · cases hl
      omega
    · split at hl <;> cases hl
      omega
  · split at hl <;> cases hl
    omega

theorem maxFile_pos {d : Desc} (hf : Formed d) : 0 < maxFile d := by
  have hs := hf.slots
  unfold maxFile
  split
  · decide
  · rename_i hp
    rw [if_neg hp] at hs
    simp only [slotsOf, byteSlots, List.mem_cons, Slots.mk.injEq, List.not_mem_nil, or_false] at hs
    rcases hs with hc | hc | hc | hc | hc | hc | hc | hc <;> obtain ⟨h1, h2, h3, -, -, -, -, h8⟩ :=
      hc <;> simp only [h1, h2, h3, h8] <;> decide

/-- A slot starts no later than the blocks it leads to. -/
theorem base_lt_maxFile {d : Desc} (hf : Formed d) {mode lbn slot : Nat} {idxs : List Nat}
    (hl : lbn * d.bsize < maxFile d)
    (hp : pathOf d mode lbn = some (slot, idxs)) : base d mode slot * d.bsize < maxFile d := by
  have hle : base d mode slot ≤ lbn := by
    unfold pathOf at hp
    cases hfind : findSlot d mode lbn d.niaddr 0 0 with
    | none =>
      rw [hfind] at hp
      cases hp
    | some q =>
      obtain ⟨slot', r⟩ := q
      rw [hfind] at hp
      obtain ⟨-, -, hlbn, -⟩ :=
        (findSlot_eq_some (by rw [Nat.zero_add]; exact base_total hf mode) (Nat.zero_le lbn)
        (lt_of_maxFile hf hl)).mp hfind
      obtain ⟨rfl, -⟩ := Prod.mk.inj (Option.some.inj hp)
      show base d mode slot' ≤ lbn
      omega
  exact Nat.lt_of_le_of_lt (Nat.mul_le_mul_right _ hle) hl

section Slots

variable {s : Mnt} {l : Loc} (h : Stocked s l.ip)

include h

/-- A slot that was empty gets a block. -/
theorem sprouted_slot {slot : Nat} (hslot : slot < s.fs.desc.niaddr)
    (hbase : base s.fs.desc l.ip.mode slot * s.fs.desc.bsize < maxFile s.fs.desc)
    (h0 : l.ip.addr slot = 0) {nb : Nat} {u : Mnt} (hb : balloc s = .ok nb u) (htk : Taken s nb u) :
    Sprouted s l.ip 1 u (l.ip.setAddr slot nb) := by
  refine (hung_slot h.stock.toReady h.tree (h.able.prudent 1) hb h0).sprouted h (place_slot hslot) rfl
    htk htk.stock (fun _ => Iff.rfl) (fun _ _ => rfl) ?_
  intro j hj hne
  by_cases hjs : j = slot
  · rw [hjs]
    exact hbase
  · exact h.within j hj (by rwa [show (l.ip.setAddr slot nb).addr j = l.ip.addr j from if_neg hjs] at hne)

theorem post_bmapIndFollow_sprouts {slot : Nat} {idxs : List Nat} (hne : idxs ≠ [])
    (hpl : Place s.fs.desc l.ip.mode (slot :: idxs))
    (hbase : base s.fs.desc l.ip.mode slot * s.fs.desc.bsize < maxFile s.fs.desc) :
    Post (bmapIndFollow true slot idxs (s, l)) (fun _ t => Grown s l (1 + idxs.length) t)
    (fun _ t => Stunted s l (1 + idxs.length) t) := by
  show Post ((if l.ip.addr slot = 0 then _ else _ : MI Nat) (s, l)) _ _
  refine post_ite (fun h0 => post_ite (fun _ => ?_) fun hc => absurd rfl hc) fun h0 => ?_
  · refine post_bind (post_outside ?_)
    rcases h.balloc_cases with ⟨nb, u, hb, htk⟩ | ⟨e, t, hb, ht⟩
    · rw [hb]
      have hgrew := sprouted_slot h (place_cons.mp hpl).1 hbase h0 hb htk
      obtain ⟨-, hat, hnb⟩ := grew_slot h.able idxs (place_cons.mp hpl).1 h0 hb
      apply post_bind
      show Post (up (indFollow true idxs nb) (u, { l with ip := l.ip.setAddr slot nb })) _ _
      have hrun := post_indFollow_sprouts idxs hne (p := [slot]) hgrew.stocked (by simp)
        (by rw [shape_desc hgrew.shape]; exact hpl) (by rw [hat]; exact hnb)
      rw [hat] at hrun
      exact post_outside (hrun.mono (fun _ t ht => ⟨hgrew.trans ht, rfl⟩) fun _ t ht => ⟨hgrew.starved ht, rfl⟩)
    · rw [hb]
      exact ⟨ht.widen (Nat.zero_le _), rfl⟩
  · refine post_outside ((post_indFollow_sprouts idxs hne (p := [slot]) h (by simp) hpl h0).mono ?_ ?_)
    · intro _ t ht
      exact ⟨ht.widen (Nat.le_add_left _ _), rfl⟩
    · intro _ t ht
      exact ⟨ht.widen (Nat.le_add_left _ _), rfl⟩

/-- The search and the walk. -/
theorem post_bmapSlots_sprouts {lbn slot : Nat} {idxs : List Nat} (hl : lbn < 2 ^ 32)
    (hp : pathOf s.fs.desc l.ip.mode lbn = some (slot, idxs))
    (hbase : base s.fs.desc l.ip.mode slot * s.fs.desc.bsize < maxFile s.fs.desc) :
    Post ((match findSlot s.fs.desc l.ip.mode lbn s.fs.desc.niaddr 0 0 with
        | none => if true then throw .efbig else pure 0
        | some (slot, r) =>
          match slotLevel s.fs.desc l.ip.mode slot with
          | none =>
            if l.ip.addr slot = 0 ∧ true = true then up balloc >>= fun nb =>
            (modIp fun ip => ip.setAddr slot nb) >>= fun _ => pure nb
            else pure (l.ip.addr slot)
          | some level => bmapIndFollow true slot (levelIdx s.fs.desc.nindir level r) : MI Nat) (s, l))
      (fun _ t => Grown s l 4 t) (fun _ t => Stunted s l 4 t) := by
  have hpl := place_pathOf h.stock.form hl hp
  cases hf : findSlot s.fs.desc l.ip.mode lbn s.fs.desc.niaddr 0 0 with
  | none =>
    rw [findSlot_none hf] at hp
    cases hp
  | some q =>
    obtain ⟨slot', r⟩ := q
    rw [findSlot_path hf] at hp
    obtain ⟨rfl, rfl⟩ := Prod.mk.inj (Option.some.inj hp)
    have hslot := pathOf_slot hl (findSlot_path hf)
    show Post ((match slotLevel s.fs.desc l.ip.mode slot' with
      | none =>
        if l.ip.addr slot' = 0 ∧ true = true then up balloc >>= fun nb =>
        (modIp fun ip => ip.setAddr slot' nb) >>= fun _ => pure nb
        else pure (l.ip.addr slot')
      | some level => bmapIndFollow true slot' (levelIdx s.fs.desc.nindir level r) : MI Nat) (s, l)) _ _
    cases hlev : slotLevel s.fs.desc l.ip.mode slot' with
    | none =>
      refine post_ite (fun hc => ?_) fun _ => ⟨(h.read s.ios).widen (by decide), rfl⟩
      refine post_bind (post_outside ?_)
      rcases h.balloc_cases with ⟨nb, u, hb, htk⟩ | ⟨e, t, hb, ht⟩
      · rw [hb]
        exact ⟨(sprouted_slot h hslot hbase hc.1 hb htk).widen (by decide), rfl⟩
      · rw [hb]
        exact ⟨ht.widen (by decide), rfl⟩
    | some level =>
      replace hpl : Place s.fs.desc l.ip.mode (slot' :: levelIdx s.fs.desc.nindir level r) := by
        rw [hlev] at hpl
        exact hpl
      have hle := levelIdx_le h.stock.form hslot hlev r
      have hrun := post_bmapIndFollow_sprouts h (fun hnil => ?_) hpl hbase
      · apply hrun.mono
        · intro _ t ht
          exact ⟨ht.toSprouted.widen (by omega), ht.bl⟩
        · intro _ t ht
          exact ⟨ht.toStarved.widen (by omega), ht.bl⟩
      · have := levelIdx_length s.fs.desc.nindir level r
        rw [hnil] at this
        cases this

end Slots

/-! ## Promotion -/

section Promote

variable {s : Mnt} {l : Loc} (h : Stocked s l.ip) (hs : Small s.fs.desc l.ip.mode)

include h hs

/-- The blocks of a promoted file: those it had and the new one above them. -/
theorem inTree_promoted {b : Nat} {v : Mnt} (hd : v.fs.desc = s.fs.desc) (hb0 : b ≠ 0)
    (hent : ∀ i, i < s.fs.desc.nindir → heap v b i = if i < s.fs.desc.niaddr then l.ip.addr i else 0)
    {c : Nat} :
    InTree v (promoted s.fs.desc l.ip b) c ↔ InTree s l.ip c ∨ c = b := by
  have hpro := h.stock.form.promotes hs.1
  have hmask := has_or_self (m := l.ip.mode) hs.1
  have hdepth : depth s.fs.desc (promoted s.fs.desc l.ip b).mode 0 = 1 := by
    unfold depth slotLevel
    rw [if_pos ⟨hs.1, hmask⟩, if_pos hpro.single]
  have hpos : 0 < s.fs.desc.niaddr := Nat.lt_of_lt_of_le hpro.single hpro.most
  have hplace : ∀ idxs : List Nat, idxs.length ≤ 1 → (∀ i ∈ idxs, i < s.fs.desc.nindir) →
      Place v.fs.desc (promoted s.fs.desc l.ip b).mode (0 :: idxs) := by
    intro idxs hlen hidx
    rw [hd]
    exact place_cons.mpr ⟨hpos, by rw [hdepth]; exact hlen, hidx⟩
  constructor
  · intro hr
    obtain ⟨h0, q, hq, rfl⟩ := hr
    rw [hd] at hq
    rcases blockAt_promoted h.able hs hb0 hent hq h0 with ⟨-, hv⟩ | ⟨i, hi, -, hv⟩
    · exact .inr hv
    · have hv' : look (promoted s.fs.desc l.ip b).addr (heap v) q = l.ip.addr i := hv
      rw [hv'] at h0 ⊢
      exact .inl ⟨h0, [i], place_slot hi, rfl⟩
  · intro hr
    rcases hr with ⟨h0, q, hq, rfl⟩ | rfl
    · -- a small file's blocks are in its slots
      obtain ⟨slot, idxs, rfl, hslot, hlen, -⟩ := hq
      have hflat : depth s.fs.desc l.ip.mode slot = 0 := by
        unfold depth slotLevel
        rw [if_neg (fun hc => absurd (hs.2.symm.trans hc.2) (by decide)),
          if_pos (by rw [hpro.direct]; exact hslot)]
      obtain rfl : idxs = [] := List.eq_nil_of_length_eq_zero (by omega)
      have hin : slot < s.fs.desc.nindir := by
        have := hpro.fit
        have := hpro.direct
        omega
      refine ⟨h0, [0, slot], hplace [slot] (Nat.le_refl 1) (fun i hi => List.mem_singleton.mp hi ▸ hin), ?_⟩
      have hstep : look (promoted s.fs.desc l.ip b).addr (heap v) [0, slot] = heap v b slot := if_neg hb0
      rw [hstep, hent slot hin, if_pos hslot]
      rfl
    · exact ⟨hb0, [0], hplace [] (Nat.zero_le 1) fun i hi => absurd hi List.not_mem_nil, rfl⟩

theorem post_promote_sprouts :
    Post (promote (s, l)) (fun _ t => Grown s l 1 t ∧ ¬ Small s.fs.desc t.2.ip.mode)
    (fun _ t => Stunted s l 0 t) := by
  show Post ((up balloc >>= fun iblk =>
    up (failAs .eio (writeBlock iblk (promoteBuf s.fs.desc l.ip.addr s.fs.desc.ndaddr))) >>= fun _ =>
    modIp fun ip => promoted s.fs.desc ip iblk : MI Unit) (s, l)) _ _
  refine post_bind (post_outside ?_)
  rcases h.balloc_cases with ⟨b, u, hb, htk⟩ | ⟨e, t, hb, ht⟩
  · rw [hb]
    have hub0 := h.stock.usable htk.was
    have hru := h.stock.toReady.of_sameVol htk.toSameVol
    have hub := (usable_of_sameVol htk.toSameVol).mpr hub0
    refine post_bind (post_outside
      (post_failAs ((post_writeBlock hru.volume hru.quiet hub hru.form _).mono ?_ fun _ _ hf => hf.elim)))
    intro _ v hw
    rw [shape_desc htk.shape] at hw
    show Grown s l 1 (v, { l with ip := promoted s.fs.desc l.ip b }) ∧
      ¬ Small s.fs.desc (promoted s.fs.desc l.ip b).mode
    have hmoved := moved_promote h.able hs hb hw rfl
    have hb0 : b ≠ 0 := h.stock.area_pos hub0.1
    have hpro := h.stock.form.promotes hs.1
    have hent : ∀ i, i < s.fs.desc.nindir → heap v b i = if i < s.fs.desc.niaddr then l.ip.addr i else 0 := by
      intro i hi
      rw [hw.here i (by rw [shape_desc htk.shape]; exact hi), h.stock.toReady.indGet_promoteBuf, hpro.direct]
      intro j hj
      by_cases h0 : l.ip.addr j = 0
      · exact .inl h0
      · exact .inr (h.tree.usable _ ⟨h0, [j], place_slot (by rw [← hpro.direct]; exact hj), rfl⟩).1
    have hin := fun c => inTree_promoted h hs (shape_desc hmoved.shape) hb0 hent (c := c)
    obtain ⟨hstock, hfree⟩ := htk.stock.of_same hw.toSameVol (fun _ => by rw [hw.fs])
      (fun _ => by rw [hw.fs]) fun c hc => hw.other c ((htk.free c).mp hc).2
    have hold : ∀ c, Lies s c → ¬ Free s c → contents v c = contents s c := by
      intro c hc hf
      refine (hw.other c ?_).trans (htk.same c hc hf)
      rintro rfl
      exact hf htk.was
    refine ⟨⟨⟨⟨hmoved.toSameVol, rfl, .inr ⟨hs, rfl⟩, ⟨hstock, hmoved.able.tree, fun c hc hf => ?_, ?_⟩,
      fun c => ?_, ⟨[b], Nat.le_refl 1, fun x => ?_⟩,
      fun k hk _ => hmoved.map k hk, fun c hc hf _ => hold c hc hf⟩, fun k hk i => ?_⟩, rfl⟩, hmoved.large⟩
    · obtain ⟨hfs, hne⟩ := (htk.free c).mp ((hfree c).mp hf)
      exact ((hin c).mp hc).elim (fun hc => h.apart c hc hfs) hne
    · rw [shape_desc hmoved.shape]
      intro j hj hne
      by_cases hj0 : j = 0
      · subst hj0
        show 0 * s.fs.desc.bsize < _
        rw [Nat.zero_mul]
        exact maxFile_pos h.stock.form
      · refine absurd ?_ hne
        show (if j = 0 then b else if j < s.fs.desc.ndaddr then 0 else l.ip.addr j) = 0
        rw [if_neg hj0, if_pos (by rw [hpro.direct]; exact hj)]
    · rw [hfree, htk.free, hin]
      constructor
      · intro hr
        rcases hr with ⟨hc, -⟩ | hc | rfl
        · exact .inl hc
        · exact .inr hc
        · exact .inl htk.was
      · intro hr
        rcases hr with hc | hc
        · by_cases hne : c = b
          · exact .inr (.inr hne)
          · exact .inl ⟨hc, hne⟩
        · exact .inr (.inl hc)
    · rw [hfree, htk.free, List.mem_singleton]
    · unfold unitAt
      rw [hmoved.map k hk]
      split
      · rfl
      · rename_i h0
        have hc := mapAt_inTree h.stock.form hk h0
        rw [hold _ ((h.tree.usable _ hc).lies h.stock.volume) (h.apart _ hc)]
  · rw [hb]
    exact ⟨ht, rfl⟩

end Promote

/-! ## The whole call -/

/-- `filsys_bmap` with `create` grows the file out of the free blocks; it stops half way only when none
    is left. -/
theorem post_filsysBmap_sprouts {s : Mnt} {l : Loc} (h : Stocked s l.ip) {lbn : Nat}
    (hl : lbn * s.fs.desc.bsize < maxFile s.fs.desc) :
    Post (filsysBmap lbn true (s, l)) (fun r t => Created s l lbn r t ∧ Grown s l 5 t)
    (fun _ t => Stunted s l 5 t) := by
  have hf := h.stock.form
  have hlbn := lt_of_maxFile hf hl
  refine ((post_filsysBmap_true h.able hl).and ?_).mono (fun _ _ ht => ht) fun _ _ ht => ht.2
  show Post ((onlyIf (s.fs.desc.ilargMask ≠ 0 ∧ (!has l.ip.mode s.fs.desc.ilargMask) = true ∧
    true = true ∧ s.fs.desc.ndaddr ≤ lbn) promote >>=
    fun _ => getIp >>= fun ip => _ : MI Nat) (s, l)) _ _
  refine post_bind (post_onlyIf ?_ ?_)
  · intro hc
    have hs : Small s.fs.desc l.ip.mode := ⟨hc.1, by simpa using hc.2.1⟩
    refine (post_promote_sprouts h hs).mono ?_ fun _ t ht => ⟨ht.toStarved.widen (Nat.zero_le _), ht.bl⟩
    intro _ t hr
    obtain ⟨hg, hlarge⟩ := hr
    have hd : t.1.fs.desc = s.fs.desc := shape_desc hg.shape
    obtain ⟨slot, idxs, hp⟩ := pathOf_of_lt hf (lt_base_of_maxFile hf hlarge hl)
    have hrun := post_bmapSlots_sprouts hg.stocked hlbn (by rw [hd]; exact hp)
      (by rw [hd]; exact base_lt_maxFile hf hl hp)
    rw [hd] at hrun
    exact hrun.mono (fun _ v hv => hg.trans hv) fun _ v hv => hg.stunted hv
  · intro hc
    obtain ⟨slot, idxs, hp⟩ : ∃ slot idxs, pathOf s.fs.desc l.ip.mode lbn = some (slot, idxs) := by
      by_cases hs : Small s.fs.desc l.ip.mode
      · refine pathOf_of_lt hf ?_
        rw [base_small hf hs]
        by_contra hge
        exact hc ⟨hs.1, by simpa using hs.2, rfl, by omega⟩
      · exact pathOf_of_lt hf (lt_base_of_maxFile hf hs hl)
    refine (post_bmapSlots_sprouts h hlbn hp (base_lt_maxFile hf hl hp)).mono ?_ ?_
    · intro _ t ht
      exact ⟨ht.toSprouted.widen (by decide), ht.bl⟩
    · intro _ t ht
      exact ⟨ht.toStarved.widen (by decide), ht.bl⟩

end Filsys.Blockmap
