/-
  Filsys.Blockmap.Grow — what `filsys_bmap` does to a file's tree (blocktree.c).

  A file's blocks stand at places: a slot, then an entry of each indirect block on the
  way. Asked to create a block, the code hangs new blocks under the empty places on one
  way down, after moving a small file's direct blocks below its first slot where it has
  outgrown them. With an allocator that hands out only blocks not in use (`Prudent`) no
  other place changes and no block comes to stand at two (`Grew`).
-/

import Filsys.Blockmap.Store
import Filsys.Lib.Cut

namespace Filsys.Blockmap

open Filsys.Lib Filsys.Engine Filsys.Alloc Filsys.Check Filsys.Tree

/-! ## Places of a file -/

/-- A place of a file of that mode. -/
structure Place (d : Desc) (mode : Nat) (p : List Nat) : Prop where
  split : ∃ slot idxs, p = slot :: idxs ∧ slot < d.niaddr ∧ idxs.length ≤ depth d mode slot ∧
    ∀ i ∈ idxs, i < d.nindir

theorem place_cons {d : Desc} {mode slot : Nat} {idxs : List Nat} :
    Place d mode (slot :: idxs) ↔ slot < d.niaddr ∧ idxs.length ≤ depth d mode slot ∧ ∀ i ∈ idxs,
    i < d.nindir := by
  constructor
  · intro hr
    obtain ⟨_, _, heq, h⟩ := hr
    cases heq
    exact h
  · intro h
    exact ⟨slot, idxs, rfl, h⟩

theorem Place.ne_nil {d : Desc} {mode : Nat} {p : List Nat} (h : Place d mode p) : p ≠ [] := by
  obtain ⟨slot, idxs, rfl, -⟩ := h
  exact List.cons_ne_nil _ _

theorem place_up {d : Desc} {mode : Nat} {p q : List Nat} (h : Place d mode (p ++ q)) (hp : p ≠ []) :
    Place d mode p := by
  cases p with
  | nil => exact absurd rfl hp
  | cons slot idxs =>
    rw [List.cons_append, place_cons] at h
    obtain ⟨h1, h2, h3⟩ := h
    rw [List.length_append] at h2
    exact place_cons.mpr ⟨h1, by omega, fun i hi => h3 i (List.mem_append_left _ hi)⟩

theorem rooted_place (d : Desc) (mode : Nat) : Rooted (Place d mode) := fun _ _ h hp => place_up h hp

/-- Every index below the slot is one of the block's entries. -/
theorem Place.last_lt {d : Desc} {mode : Nat} {p : List Nat} {i : Nat} (h : Place d mode (p ++ [i]))
    (hp : p ≠ []) : i < d.nindir := by
  cases p with
  | nil => exact absurd rfl hp
  | cons slot idxs => exact (place_cons.mp h).2.2 i (by simp)

/-! ## A file's tree -/

/-- The block at a place. -/
def blockAt (s : Mnt) (ip : Inode) (p : List Nat) : Nat := look ip.addr (heap s) p

/-- The blocks of the tree. -/
def InTree (s : Mnt) (ip : Inode) (b : Nat) : Prop := Held (Place s.fs.desc ip.mode) ip.addr (heap s) b

/-- A tree with no shared block, all of its blocks usable. -/
structure TreeOk (s : Mnt) (ip : Inode) : Prop where
  unshared : Unshared (Place s.fs.desc ip.mode) ip.addr (heap s)
  usable : ∀ b, InTree s ip b → Usable s b

/-! ## Its blocks, listed -/

/-- The nodes of the tree of `k` levels below `b`. -/
def subtree (s : Mnt) (k b : Nat) : List Nat := nodes s.fs.desc.nindir (heap s) k b

/-- The blocks of a file, data and indirect. -/
def blocks (s : Mnt) (ip : Inode) : List Nat :=
  (List.range s.fs.desc.niaddr).flatMap fun j => subtree s (depth s.fs.desc ip.mode j) (ip.addr j)

theorem place_iff_below {d : Desc} {mode slot : Nat} {idxs : List Nat} :
    Place d mode (slot :: idxs) ↔ slot < d.niaddr ∧ Below d.nindir (depth d mode slot) idxs := place_cons

section Blocks

variable {s : Mnt} {ip : Inode}

theorem mem_blocks {c : Nat} : c ∈ blocks s ip ↔ InTree s ip c := by
  unfold blocks InTree Held subtree
  rw [List.mem_flatMap]
  constructor
  · rintro ⟨j, hj, hc⟩
    obtain ⟨h0, p, hp, hw⟩ := mem_nodes.mp hc
    exact ⟨h0, j :: p, place_iff_below.mpr ⟨List.mem_range.mp hj, hp⟩, hw⟩
  · intro h
    obtain ⟨h0, p, hp, hw⟩ := h
    cases p with
    | nil => exact absurd rfl hp.ne_nil
    | cons j p =>
      obtain ⟨hj, hp⟩ := place_iff_below.mp hp
      exact ⟨j, List.mem_range.mpr hj, mem_nodes.mpr ⟨h0, p, hp, hw⟩⟩

/-- Listed once each, the blocks are shared by no two places. -/
theorem nodup_blocks : (blocks s ip).Nodup ↔ Unshared (Place s.fs.desc ip.mode) ip.addr (heap s) := by
  unfold blocks
  rw [List.nodup_flatMap]
  constructor
  · intro hr p q hp hq heq h0
    obtain ⟨hsub, hdis⟩ := hr
    cases p with
    | nil => exact absurd rfl hp.ne_nil
    | cons i p =>
      cases q with
      | nil => exact absurd rfl hq.ne_nil
      | cons j q =>
        obtain ⟨hi, hp⟩ := place_iff_below.mp hp
        obtain ⟨hj, hq⟩ := place_iff_below.mp hq
        by_cases hij : i = j
        · subst hij
          rw [nodup_nodes_iff.mp (hsub i (List.mem_range.mpr hi)) p q hp hq heq h0]
        · have hmp : look ip.addr (heap s) (i :: p) ∈
            subtree s (depth s.fs.desc ip.mode i) (ip.addr i) := mem_nodes.mpr ⟨h0, p, hp, rfl⟩
          have hmq : look ip.addr (heap s) (i :: p) ∈
            subtree s (depth s.fs.desc ip.mode j) (ip.addr j) := mem_nodes.mpr ⟨h0, q, hq, heq.symm⟩
          have : Std.Symm (Function.onFun List.Disjoint fun j => subtree s (depth s.fs.desc ip.mode j)
            (ip.addr j)) := ⟨fun _ _ h _ hx hy => h hy hx⟩
          exact absurd hmq (hdis.forall (List.mem_range.mpr hi) (List.mem_range.mpr hj) hij hmp)
  · intro h
    have hpl : ∀ {i p}, i ∈ List.range s.fs.desc.niaddr →
      Below s.fs.desc.nindir (depth s.fs.desc ip.mode i) p → Place s.fs.desc ip.mode (i :: p) :=
      fun hi hp => place_iff_below.mpr ⟨List.mem_range.mp hi, hp⟩
    refine ⟨fun i hi => nodup_nodes_iff.mpr fun p q hp hq heq h0 => ?_, ?_⟩
    · exact (List.cons.inj (h (i :: p) (i :: q) (hpl hi hp) (hpl hi hq) heq h0)).2
    · refine List.nodup_range.imp_of_mem fun {i j} hi hj hij c hc hc' => ?_
      obtain ⟨h0, p, hp, hw⟩ := mem_nodes.mp hc
      obtain ⟨-, q, hq, hw'⟩ := mem_nodes.mp hc'
      have heq : look ip.addr (heap s) (i :: p) = look ip.addr (heap s) (j :: q) := hw.trans hw'.symm
      have hne : look ip.addr (heap s) (i :: p) ≠ 0 := fun hz => h0 (hw.symm.trans hz)
      exact hij (List.cons.inj (h (i :: p) (j :: q) (hpl hi hp) (hpl hj hq) heq hne)).1

theorem treeOk_of_blocks (hnd : (blocks s ip).Nodup) (hus : ∀ b ∈ blocks s ip, Usable s b) : TreeOk s ip :=
  ⟨nodup_blocks.mp hnd, fun b hb => hus b (mem_blocks.mpr hb)⟩

end Blocks

/-! ## An allocator that hands out unused blocks -/

/-- Only blocks of `U` have been written. -/
structure Off (U : Nat → Prop) (s t : Mnt) : Prop extends SameVol s t where
  fs : t.fs = s.fs
  same : ∀ c, ¬ U c → contents t c = contents s c

theorem Off.trans {U : Nat → Prop} {s t u : Mnt} (h : Off U s t) (h' : Off U t u) : Off U s u :=
  ⟨sameVol_law.trans h.toSameVol h'.toSameVol, h'.fs.trans h.fs, fun c hc => (h'.same c hc).trans (h.same c hc)⟩

/-- For `k` calls to come, `balloc` returns data blocks that are not in use, `U` being those in use now;
    what is written to blocks in use meanwhile does not matter. The node the PDP-7 takes them from is
    not in use either. -/
def Prudent : Nat → Mnt → (Nat → Prop) → Prop
  | 0, _, _ => True
  | k + 1, s, U => ∀ t b u, Off U s t → balloc t = .ok b u →
      InArea s.fs b ∧ ¬ U b ∧ (s.fs.desc.ops = .pdp7 → ¬ U s.fs.freelist) ∧ Prudent k u fun c => U c ∨ c = b

theorem Prudent.fewer {k : Nat} {s : Mnt} {U U' : Nat → Prop} (h : Prudent k s U)
    (hU : ∀ c, U' c → U c) : Prudent k s U' := by
  induction k generalizing s U U' with
  | zero => trivial
  | succ k ih =>
    intro t b u hoff hb
    have hoff' : Off U s t := ⟨hoff.toSameVol, hoff.fs, fun c hc => hoff.same c fun hc' => hc (hU c hc')⟩
    obtain ⟨h1, h2, h3, h4⟩ := h t b u hoff' hb
    refine ⟨h1, fun hb' => h2 (hU b hb'), fun hp hb' => h3 hp (hU _ hb'), ih h4 ?_⟩
    intro c hr
    rcases hr with hc | rfl
    · exact .inl (hU c hc)
    · exact .inr rfl

theorem Prudent.off {k : Nat} {s t : Mnt} {U : Nat → Prop} (h : Prudent k s U) (hoff : Off U s t) :
    Prudent k t U := by
  cases k with
  | zero => trivial
  | succ k =>
    intro u b v hu hb
    have := h u b v (hoff.trans hu) hb
    rwa [hoff.fs]

/-- On a byte-addressed volume with sound free space `balloc` never hands out a block that is not free. -/
theorem prudent_of_space {s : Mnt} {U : Nat → Prop} (hm : Mounted s) (hok : SpaceOk s)
    (hU : ∀ b, U b → ¬ IsFree s b) (k : Nat) :
    Prudent k s U := by
  induction k generalizing s U with
  | zero => trivial
  | succ k ih =>
    intro t b u hoff hb
    have hvol := hoff.toSameVol
    have hmt := hm.of_sameVol hvol
    obtain ⟨hokt, hfree⟩ := space_congr hm hok hvol (by rw [hoff.fs]) fun c hc =>
      (contents_bytes hm hvol).mp (hoff.same c fun hu => hU c hu hc)
    have hspec := balloc_spec hmt hokt
    rw [hb] at hspec
    have hwas := (hfree b).mp hspec.was
    refine ⟨hok.data hwas, fun hu => hU b hu hwas, fun hp => absurd hp hm.notPdp7, ?_⟩
    refine ih (hmt.of_sameVol hspec.toSameVol) hspec.ok fun c hc hfc => ?_
    obtain ⟨hft, hne⟩ := (hspec.free c).mp hfc
    exact hc.elim (fun hu => hU c hu ((hfree c).mp hft)) hne

/-! ## Hanging a block -/

/-- A mount in which every transfer goes through and every data block's number fits an entry. -/
structure Ready (s : Mnt) : Prop where
  volume : OnVolume s
  form : Formed s.fs.desc
  width : s.fs.desc.ops ≠ .pdp7 → s.fs.fsize ≤ 256 ^ entryLen s.fs.desc
  quiet : ∀ k, s.env.fails k = false

theorem Ready.of_sameVol {s t : Mnt} (h : Ready s) (hvol : SameVol s t) : Ready t where
  volume := onVolume_of_sameVol hvol h.volume
  form := by rw [shape_desc hvol.shape]; exact h.form
  width := by rw [shape_desc hvol.shape, shape_fsize hvol.shape]; exact h.width
  quiet := by rw [hvol.env]; exact h.quiet

/-- Block 0 is no data block. -/
theorem Ready.area_pos {s : Mnt} (h : Ready s) {b : Nat} (hb : InArea s.fs b) : b ≠ 0 := by
  have hpos : 0 < opsDataStart s.fs := by
    rcases h.volume with hm | hm
    · exact Nat.lt_of_lt_of_le (by decide) hm.first
    · unfold opsDataStart
      rw [hm.pdp7]
      show 0 < p7Datastart
      decide
  exact Nat.ne_of_gt (Nat.lt_of_lt_of_le hpos hb.1)

/-- A data block's number comes back from the entry it was put in. -/
theorem Ready.indGet_indPut {s : Mnt} (h : Ready s) {v : Nat} (hv : v = 0 ∨ InArea s.fs v)
    (buf : Buf) (i j : Nat) :
    indGet s.fs.desc (indPut s.fs.desc buf i v) j = if j = i then v else indGet s.fs.desc buf j := by
  rcases h.volume with hm | hm
  · have hlt : v < 256 ^ entryLen s.fs.desc := by
      rcases hv with rfl | hv
      · exact Nat.pow_pos (by decide)
      · exact Nat.lt_of_lt_of_le (Nat.lt_of_lt_of_le hv.2 hm.last) (h.width hm.notPdp7)
    rw [Tree.indGet_indPut hm.notPdp7, Nat.mod_eq_of_lt hlt]
  · have hlt : v < 2 ^ 18 := by
      rcases hv with rfl | hv
      · decide
      · have hend : v < p7Kdata := by
          have := hv.2
          unfold opsDataEnd at this
          rwa [hm.pdp7] at this
        exact Nat.lt_trans hend (by decide)
    unfold indGet indPut
    rw [hm.pdp7]
    show (wordOps s.fs.desc).get ((wordOps s.fs.desc).put buf i v) j = _
    rw [WordCodec.get_put]
    split
    · exact Nat.mod_eq_of_lt hlt
    · rfl

/-- One more block in the tree, at a place that was empty. -/
structure Hung (s : Mnt) (ip : Inode) (place : List Nat) (nb : Nat) (t : Mnt) (ip' : Inode) :
    Prop extends SameVol s t where
  mode : ip'.mode = ip.mode
  was : blockAt s ip place = 0
  fresh : ¬ InTree s ip nb
  usable : Usable s nb
  look : ∀ q, Place s.fs.desc ip.mode q → blockAt t ip' q = if q = place then nb else blockAt s ip q

theorem Hung.inTree {s t : Mnt} {ip ip' : Inode} {place : List Nat} {nb : Nat}
    (h : Hung s ip place nb t ip') {c : Nat} (hc : InTree t ip' c) :
    InTree s ip c ∨ c = nb := by
  obtain ⟨h0, q, hq, hlook⟩ := hc
  rw [shape_desc h.shape, h.mode] at hq
  have hl := h.look q hq
  unfold blockAt at hl
  rw [hl] at hlook
  split at hlook
  · exact .inr hlook.symm
  · exact .inl ⟨h0, q, hq, hlook⟩

theorem Hung.tree {s t : Mnt} {ip ip' : Inode} {place : List Nat} {nb : Nat}
    (h : Hung s ip place nb t ip') (hok : TreeOk s ip) : TreeOk t ip' where
  unshared := by
    rw [shape_desc h.shape, h.mode]
    exact hok.unshared.hang h.fresh (fun q hq => hq.ne_nil) fun q hq _ => h.look q hq
  usable b hb := by
    rw [usable_of_sameVol h.toSameVol]
    rcases h.inTree hb with hb' | rfl
    · exact hok.usable b hb'
    · exact h.usable

section Hanging

variable {s : Mnt} {ip : Inode} (hr : Ready s) (hok : TreeOk s ip) {nb : Nat} {u : Mnt}

include hr hok

/-- What a prudent allocation leaves of the tree. -/
theorem heap_after_balloc (hp : Prudent 1 s (InTree s ip)) (hb : balloc s = .ok nb u) :
    Handed s nb u ∧ ¬ InTree s ip nb ∧ ∀ c, InTree s ip c → contents u c = contents s c := by
  have hoff : Off (InTree s ip) s s := ⟨sameVol_law.refl s, rfl, fun _ _ => rfl⟩
  obtain ⟨harea, hfresh, hnode, -⟩ := hp s nb u hoff hb
  have hpost := post_balloc hr.volume hr.form hr.quiet
  rw [hb] at hpost
  have hh : Handed s nb u := hpost harea
  refine ⟨hh, hfresh, fun c hc => hh.other c (hok.usable c hc) ?_ fun hpd => ?_⟩
  · rintro rfl
    exact hfresh hc
  · rintro rfl
    exact hnode hpd hc

/-- A new block in an empty slot. -/
theorem hung_slot (hp : Prudent 1 s (InTree s ip)) (hb : balloc s = .ok nb u) {slot : Nat}
    (h0 : ip.addr slot = 0) :
    Hung s ip [slot] nb u (ip.setAddr slot nb) := by
  obtain ⟨hh, hfresh, hsame⟩ := heap_after_balloc hr hok hp hb
  refine ⟨hh.toSameVol, rfl, h0, hfresh, hh.usable, fun q hq => ?_⟩
  have hV := rooted_place s.fs.desc ip.mode
  refine look_hang hV (show look ip.addr (heap s) [slot] = 0 from h0) (fun q j heq hq0 => ?_)
    (fun i _ => ?_) (fun q j hqj hq0 hne => ?_) (fun j hj => ?_) q hq hq.ne_nil
  · cases q with
    | nil => exact absurd rfl hq0
    | cons x q => simp at heq
  · show (if i = slot then nb else ip.addr i) = _
    simp
  · have hc : InTree s ip (look ip.addr (heap s) q) := ⟨hne, q, hV q j hqj hq0, rfl⟩
    rw [heap_of_contents hr.volume hh.toSameVol (hsame _ hc) (hqj.last_lt hq0), if_neg]
    intro heq
    cases q with
    | nil => exact hq0 rfl
    | cons x q => simp at heq
  · exact hh.zero j (hj.last_lt (by simp))

/-- A new block in an empty entry of an indirect block. -/
theorem hung_entry (hp : Prudent 1 s (InTree s ip)) (hb : balloc s = .ok nb u) {p : List Nat} {i : Nat}
    (hpl : Place s.fs.desc ip.mode (p ++ [i]))
    (hp0 : p ≠ []) (hblk : blockAt s ip p ≠ 0) (hz : heap s (blockAt s ip p) i = 0) {v : Mnt} {e : Nat → Nat}
    (hw : Wrote u (blockAt s ip p) e v) (he : ∀ j, j < s.fs.desc.nindir → e j = if j = i then nb
      else heap s (blockAt s ip p) j) :
    Hung s ip (p ++ [i]) nb v ip := by
  obtain ⟨hh, hfresh, hsame⟩ := heap_after_balloc hr hok hp hb
  have hV := rooted_place s.fs.desc ip.mode
  have hplp := place_up hpl hp0
  have hvol := sameVol_law.trans hh.toSameVol hw.toSameVol
  have hdu : u.fs.desc = s.fs.desc := shape_desc hh.shape
  have hwas : blockAt s ip (p ++ [i]) = 0 := by
    unfold blockAt at *
    rw [look_snoc _ _ hp0, if_neg hblk, hz]
  refine ⟨hvol, rfl, hwas, hfresh, hh.usable, fun q hq => ?_⟩
  refine look_hang hV hwas ?_ ?_ ?_ ?_ q hq hq.ne_nil
  · intro q j heq _
    obtain ⟨rfl, -⟩ := List.append_inj' heq rfl
    exact hblk
  · intro k _
    rw [if_neg]
    intro heq
    cases p with
    | nil => exact hp0 rfl
    | cons x p => simp at heq
  · intro q j hqj hq0 hne
    have hj := hqj.last_lt hq0
    have hc : InTree s ip (look ip.addr (heap s) q) := ⟨hne, q, hV q j hqj hq0, rfl⟩
    by_cases hcb : look ip.addr (heap s) q = blockAt s ip p
    · obtain rfl : q = p := hok.unshared q p (hV q j hqj hq0) hplp hcb hne
      rw [hcb, hw.here j (by rw [hdu]; exact hj), he j hj]
      simp
    · have hcont := (hw.other _ hcb).trans (hsame _ hc)
      rw [heap_of_contents hr.volume hvol hcont hj, if_neg]
      intro heq
      obtain ⟨rfl, -⟩ := List.append_inj' heq rfl
      exact hcb rfl
  · intro j hj
    have hj' := hj.last_lt (by simp)
    have hne : nb ≠ blockAt s ip p := by
      rintro rfl
      exact hfresh ⟨hblk, p, hplp, rfl⟩
    rw [heap_of_contents (onVolume_of_sameVol hh.toSameVol hr.volume) hw.toSameVol (hw.other nb hne)
      (by rw [hdu]; exact hj')]
    exact hh.zero j hj'

end Hanging

/-! ## Growing along one way down -/

/-- A file whose tree is sound, on a mount whose allocator knows the blocks in use. -/
structure Able (s : Mnt) (ip : Inode) : Prop where
  ready : Ready s
  tree : TreeOk s ip
  prudent : ∀ k, Prudent k s (InTree s ip)

/-- Reads change nothing. -/
theorem Able.read {s : Mnt} {ip : Inode} (h : Able s ip) (k : Nat) : Able { s with ios := k } ip where
  ready := h.ready.of_sameVol ⟨rfl, rfl, rfl⟩
  tree := ⟨h.tree.unshared, h.tree.usable⟩
  prudent k' := (h.prudent k').off ⟨⟨rfl, rfl, rfl⟩, rfl, fun _ _ => rfl⟩

/-- Every place is as it was, but empty ones on the way to `target`. -/
structure Grew (s : Mnt) (ip : Inode) (target : List Nat) (t : Mnt) (ip' : Inode) :
    Prop extends SameVol s t where
  mode : ip'.mode = ip.mode
  able : Able t ip'
  keep : ∀ q, Place s.fs.desc ip.mode q → blockAt s ip q ≠ 0 ∨ ¬ q <+: target → blockAt t ip' q = blockAt s ip q

theorem Grew.refl {s : Mnt} {ip : Inode} (h : Able s ip) (target : List Nat) (k : Nat) :
    Grew s ip target { s with ios := k } ip :=
  ⟨⟨rfl, rfl, rfl⟩, rfl, h.read k, fun _ _ _ => rfl⟩

theorem Grew.trans {s t u : Mnt} {ip ip' ip'' : Inode} {target : List Nat} (h : Grew s ip target t ip')
    (h' : Grew t ip' target u ip'') :
    Grew s ip target u ip'' := by
  refine ⟨sameVol_law.trans h.toSameVol h'.toSameVol, h'.mode.trans h.mode, h'.able, fun q hq hc => ?_⟩
  have hk := h.keep q hq hc
  have hk' := h'.keep q (by rw [shape_desc h.shape, h.mode]; exact hq) (by rw [hk]; exact hc)
  exact hk'.trans hk

theorem Hung.grew {s t : Mnt} {ip ip' : Inode} {place target : List Nat} {nb : Nat}
    (h : Hung s ip place nb t ip') (hs : Able s ip)
    (hp : ∀ k, Prudent k t fun c => InTree s ip c ∨ c = nb) (htarget : place <+: target) :
    Grew s ip target t ip' := by
  refine ⟨h.toSameVol, h.mode, ⟨hs.ready.of_sameVol h.toSameVol, h.tree hs.tree, fun k => (hp k).fewer
    fun c hc => h.inTree hc⟩, fun q hq hc => ?_⟩
  rw [h.look q hq, if_neg]
  rintro rfl
  rcases hc with hc | hc
  · exact hc h.was
  · exact hc htarget

/-- The allocator's promise after it has been called. -/
theorem prudent_after {s u : Mnt} {U : Nat → Prop} {b : Nat} (hp : ∀ k, Prudent k s U)
    (hb : balloc s = .ok b u) (k : Nat) :
    Prudent k u fun c => U c ∨ c = b :=
  (hp (k + 1) s b u ⟨sameVol_law.refl s, rfl, fun _ _ => rfl⟩ hb).2.2.2

/-- What a call that makes blocks does on the way: blocks are taken, indirect blocks read and written. -/
inductive Making : Mnt → Mnt → Prop
  | start (s : Mnt) : Making s s
  | took {s t u : Mnt} {b : Nat} (h : Making s t) (hb : balloc t = .ok b u) : Making s u
  | read {s t u : Mnt} {b : Nat} {buf : Buf} (h : Making s t) (hb : readBlock b t = .ok buf u) : Making s u
  | wrote {s t u : Mnt} {b : Nat} {buf : Buf} (h : Making s t) (hb : writeBlock b buf t = .ok () u) : Making s u

theorem Making.trans {s t u : Mnt} (h : Making s t) (h' : Making t u) : Making s u := by
  induction h' with
  | start => exact h
  | took _ hb ih => exact .took ih hb
  | read _ hb ih => exact .read ih hb
  | wrote _ hb ih => exact .wrote ih hb

/-- A call on `s` ended in `t` because there a `balloc` of its own failed. -/
def NoBlock (s : Mnt) (e : Errno) (t : Mnt) : Prop := ∃ u, Making s u ∧ balloc u = .error e t

theorem NoBlock.after {s t u : Mnt} {e : Errno} (h : NoBlock t e u) (hm : Making s t) : NoBlock s e u := by
  obtain ⟨v, hv, hb⟩ := h
  exact ⟨v, hm.trans hv, hb⟩

section Follow

variable {ip : Inode}

/-- Hanging a block into entry `i` of the block at `p`. -/
theorem post_hang {s : Mnt} (h : Able s ip) {p : List Nat} {i : Nat}
    (hpl : Place s.fs.desc ip.mode (p ++ [i])) (hp0 : p ≠ [])
    (hblk : blockAt s ip p ≠ 0) (hz : heap s (blockAt s ip p) i = 0) {buf : Buf}
    (hbuf : ∀ j, j < s.fs.desc.nindir → indGet s.fs.desc buf j = heap s (blockAt s ip p) j) {nb : Nat}
    {u : Mnt} (hb : balloc s = .ok nb u) :
    Post (writeBlock (blockAt s ip p) (indPut s.fs.desc buf i nb) u) (fun _ t => Hung s ip (p ++ [i]) nb t ip ∧
      ∀ k, Prudent k t fun c => InTree s ip c ∨ c = nb) fun _ _ => False := by
  obtain ⟨hh, hfresh, -⟩ := heap_after_balloc h.ready h.tree (h.prudent 1) hb
  have hvol := hh.toSameVol
  have hdu : u.fs.desc = s.fs.desc := shape_desc hvol.shape
  have hru := h.ready.of_sameVol hvol
  have hin : InTree s ip (blockAt s ip p) := ⟨hblk, p, place_up hpl hp0, rfl⟩
  have hub : Usable u (blockAt s ip p) := (usable_of_sameVol hvol).mpr (h.tree.usable _ hin)
  refine (post_writeBlock hru.volume hru.quiet hub hru.form _).mono (fun _ t hw => ⟨?_, fun k => ?_⟩)
    fun _ _ hf => hf
  · refine hung_entry h.ready h.tree (h.prudent 1) hb hpl hp0 hblk hz hw fun j hj => ?_
    rw [hdu, h.ready.indGet_indPut (.inr hh.usable.1)]
    split
    · rfl
    · exact hbuf j hj
  · refine (prudent_after h.prudent hb k).off ⟨hw.toSameVol, hw.fs, fun c hc => hw.other c ?_⟩
    rintro rfl
    exact hc (.inl hin)

/-- The way down `idxs` from the block at `p`, made where it is missing. -/
theorem post_indFollow_true (idxs : List Nat) (hne : idxs ≠ []) {s : Mnt} {p : List Nat}
    (h : Able s ip) (hp0 : p ≠ [])
    (hpl : Place s.fs.desc ip.mode (p ++ idxs)) (hblk : blockAt s ip p ≠ 0) :
    Post (indFollow true idxs (blockAt s ip p) s)
      (fun r t => r ≠ 0 ∧ Grew s ip (p ++ idxs) t ip ∧ blockAt t ip (p ++ idxs) = r)
      (fun e t => NoBlock s e t) := by
  induction idxs generalizing s p with
  | nil => exact absurd rfl hne
  | cons i idxs ih =>
    rw [List.append_cons] at hpl ⊢
    have hpi : Place s.fs.desc ip.mode (p ++ [i]) := place_up hpl (by simp)
    have hplp := place_up hpi hp0
    have hin : InTree s ip (blockAt s ip p) := ⟨hblk, p, hplp, rfl⟩
    have hi := hpi.last_lt hp0
    have hnext : blockAt s ip (p ++ [i]) = heap s (blockAt s ip p) i := by
      unfold blockAt at *
      rw [look_snoc _ _ hp0, if_neg hblk]
    refine post_bindFs (post_bind (post_failAs ?_))
    refine (post_readBlock h.ready.volume h.ready.quiet (h.tree.usable _ hin)).self.mono ?_
      fun _ _ hf => hf.2.elim
    intro buf t hres
    obtain ⟨hrun, ⟨k, rfl⟩, hbuf⟩ := hres
    have hs1 := h.read k
    have hread : Making s { s with ios := k } := .read (.start s) hrun
    show Post ((if indGet s.fs.desc buf i = 0 then _ else _ : M Nat) { s with ios := k }) _ _
    rw [hbuf i hi]
    apply post_ite
    · intro hz
      refine post_ite (fun _ => ?_) fun hc => absurd rfl hc
      apply post_bind
      cases hb : balloc { s with ios := k } with
      | error e t => exact ⟨_, hread, hb⟩
      | ok nb u =>
        refine post_bind (post_failAs ?_)
        refine (post_hang hs1 hpi hp0 hblk hz hbuf hb).self.mono ?_ fun _ _ hf => hf.2.elim
        intro _ t hres
        obtain ⟨hwrite, hung, hpru⟩ := hres
        have hmade : Making s t := .wrote (.took hread hb) hwrite
        have hgrew : Grew s ip (p ++ [i] ++ idxs) t ip :=
          (Grew.refl h _ k).trans (hung.grew hs1 hpru (List.prefix_append _ _))
        have hnb : nb ≠ 0 := hs1.ready.area_pos hung.usable.1
        have hat : blockAt t ip (p ++ [i]) = nb := by
          rw [hung.look _ hpi, if_pos rfl]
        apply post_ite
        · intro hnil
          subst hnil
          rw [List.append_nil] at hgrew ⊢
          exact ⟨hnb, hgrew, hat⟩
        · intro hrest
          have hd : t.fs.desc = s.fs.desc := shape_desc hgrew.shape
          have hrun := ih hrest hgrew.able (p := p ++ [i]) (by simp)
            (by rw [hd]; exact hpl) (by rw [hat]; exact hnb)
          rw [hat] at hrun
          refine hrun.mono ?_ fun _ _ he => he.after hmade
          intro r v hres
          obtain ⟨hr0, hg, hr⟩ := hres
          exact ⟨hr0, hgrew.trans hg, hr⟩
    · intro hnz
      apply post_ite
      · intro hnil
        subst hnil
        rw [List.append_nil]
        exact ⟨hnz, Grew.refl h _ k, hnext⟩
      · intro hrest
        have hrun := ih hrest hs1 (p := p ++ [i]) (by simp) hpl
          (by rw [show blockAt { s with ios := k } ip (p ++ [i]) = _ from hnext]; exact hnz)
        rw [show blockAt { s with ios := k } ip (p ++ [i]) = _ from hnext] at hrun
        refine hrun.mono ?_ fun _ _ he => he.after hread
        intro r v hres
        obtain ⟨hr0, hg, hr⟩ := hres
        exact ⟨hr0, (Grew.refl h _ k).trans hg, hr⟩

/-- Without making anything, the way down is read. -/
theorem post_indFollow_false (idxs : List Nat) (hne : idxs ≠ []) {s : Mnt} {p : List Nat} (hr : Ready s)
    (hok : TreeOk s ip) (hp0 : p ≠ [])
    (hpl : Place s.fs.desc ip.mode (p ++ idxs)) (hblk : blockAt s ip p ≠ 0) :
    Post (indFollow false idxs (blockAt s ip p) s) (fun r t => r = blockAt s ip (p ++ idxs) ∧ ∃ k,
      t = { s with ios := k }) fun _ _ => False := by
  induction idxs generalizing s p with
  | nil => exact absurd rfl hne
  | cons i idxs ih =>
    rw [List.append_cons] at hpl ⊢
    have hpi : Place s.fs.desc ip.mode (p ++ [i]) := place_up hpl (by simp)
    have hin : InTree s ip (blockAt s ip p) := ⟨hblk, p, place_up hpi hp0, rfl⟩
    have hi := hpi.last_lt hp0
    have hnext : blockAt s ip (p ++ [i]) = heap s (blockAt s ip p) i := by
      unfold blockAt at *
      rw [look_snoc _ _ hp0, if_neg hblk]
    refine post_bindFs (post_bind (post_failAs ?_))
    refine (post_readBlock hr.volume hr.quiet (hok.usable _ hin)).mono ?_ fun _ _ hf => hf
    intro buf t h
    obtain ⟨⟨k, rfl⟩, hbuf⟩ := h
    show Post ((if indGet s.fs.desc buf i = 0 then _ else _ : M Nat) { s with ios := k }) _ _
    rw [hbuf i hi, ← hnext]
    apply post_ite
    · intro hz
      refine post_ite (fun hc => absurd hc (by decide)) fun _ => ⟨?_, k, rfl⟩
      unfold blockAt at *
      rw [look_append _ _ (by simp), hz, walk_zero]
    · intro hnz
      apply post_ite
      · intro hnil
        subst hnil
        rw [List.append_nil]
        exact ⟨rfl, k, rfl⟩
      · intro hrest
        have hr1 : Ready { s with ios := k } := hr.of_sameVol ⟨rfl, rfl, rfl⟩
        refine (ih hrest (s := { s with ios := k }) (p := p ++ [i]) hr1 ⟨hok.unshared, hok.usable⟩
          (by simp) hpl hnz).mono ?_ fun _ _ hf => hf
        intro r t h
        obtain ⟨hr, k', rfl⟩ := h
        exact ⟨hr, k', rfl⟩

end Follow

/-! ## The block map -/

/-- The block a logical block number maps to; 0 is a hole. -/
def mapAt (s : Mnt) (ip : Inode) (lbn : Nat) : Nat :=
  match pathOf s.fs.desc ip.mode lbn with
  | none => 0
  | some (slot, idxs) => blockAt s ip (slot :: idxs)

theorem mapAt_some {s : Mnt} {ip : Inode} {lbn slot : Nat} {idxs : List Nat}
    (h : pathOf s.fs.desc ip.mode lbn = some (slot, idxs)) :
    mapAt s ip lbn = blockAt s ip (slot :: idxs) := by
  unfold mapAt
  rw [h]

theorem mapAt_none {s : Mnt} {ip : Inode} {lbn : Nat} (h : pathOf s.fs.desc ip.mode lbn = none) :
    mapAt s ip lbn = 0 := by
  unfold mapAt
  rw [h]

theorem place_pathOf {d : Desc} (hf : Formed d) {mode lbn slot : Nat} {idxs : List Nat} (hl : lbn < 2 ^ 32)
    (h : pathOf d mode lbn = some (slot, idxs)) : Place d mode (slot :: idxs) :=
  place_cons.mpr ⟨pathOf_slot hl h, Nat.le_of_eq (pathOf_length h), pathOf_lt hf.nindir_pos h⟩

/-- The search of `filsys_bmap`, as the path it settles on. -/
theorem findSlot_path {d : Desc} {mode lbn slot r : Nat}
    (hf : findSlot d mode lbn d.niaddr 0 0 = some (slot, r)) :
    pathOf d mode lbn = some (slot,
      match slotLevel d mode slot with | none => [] | some level => levelIdx d.nindir level r) := by
  unfold pathOf
  rw [hf]
  rfl

theorem findSlot_none {d : Desc} {mode lbn : Nat} (hf : findSlot d mode lbn d.niaddr 0 0 = none) :
    pathOf d mode lbn = none := by
  unfold pathOf
  rw [hf]
  rfl

/-- `filsys_bmap` without `create` reads the map. -/
theorem post_filsysBmap_false {s : Mnt} {l : Loc} (hr : Ready s) (hok : TreeOk s l.ip)
    {lbn : Nat} (hl : lbn < 2 ^ 32) :
    Post (filsysBmap lbn false (s, l)) (fun r t => r = mapAt s l.ip lbn ∧ ∃ k,
      t = ({ s with ios := k }, l)) fun _ _ => False := by
  rw [filsysBmap_eq]
  refine post_bind (post_onlyIf (fun hc => absurd hc.2.2.1 (by decide)) fun _ => ?_)
  show Post (bmapSlot s.fs.desc lbn false l.ip (s, l)) _ _
  unfold bmapSlot
  cases hf : findSlot s.fs.desc l.ip.mode lbn s.fs.desc.niaddr 0 0 with
  | none => exact ⟨(mapAt_none (findSlot_none hf)).symm, s.ios, rfl⟩
  | some q =>
    obtain ⟨slot, r⟩ := q
    have hpath := findSlot_path hf
    have hplace := place_pathOf hr.form hl hpath
    dsimp only
    rw [mapAt_some hpath]
    cases hlev : slotLevel s.fs.desc l.ip.mode slot with
    | none => exact post_ite (fun hc => absurd hc.2 (by decide)) fun _ => ⟨rfl, s.ios, rfl⟩
    | some level =>
      rw [hlev] at hplace
      show Post ((if l.ip.addr slot = 0 then if false then _ else pure 0
        else up (indFollow false _ (l.ip.addr slot)) : MI Nat) (s, l)) _ _
      refine post_ite (fun h0 => ⟨?_, s.ios, rfl⟩) fun h0 => post_outside ?_
      · show 0 = walk (heap s) (l.ip.addr slot) _
        rw [h0, walk_zero]
      · have hne : levelIdx s.fs.desc.nindir level r ≠ [] := by
          intro hnil
          have := levelIdx_length s.fs.desc.nindir level r
          rw [hnil] at this
          cases this
        refine (post_indFollow_false _ hne (p := [slot]) hr hok (by simp) hplace h0).mono ?_ fun _ _ hf => hf
        intro r t h
        obtain ⟨rfl, k, rfl⟩ := h
        exact ⟨rfl, k, rfl⟩

end Filsys.Blockmap
