/-
  Filsys.Alloc.Stride — the free list `v6_makefree` builds.

  The blocks go onto the list a hundred at a time, from the top down, three apart within
  a hundred. The table names every block of a hundred once; what the top hundred leaves
  out is the block a volume of 100k + 1 blocks ends with (`mem_v6Order_iff`), and that is
  all a V6 volume can be missing after a rebuild (`v6_rebuild_complete_iff`).
-/

import Filsys.Alloc.Rebuild
import Filsys.Engine.Aside

namespace Filsys.Alloc

open Filsys.Lib Filsys.Engine

/-! ## The totals of a rebuilt list -/

section Totals

variable {s : Mnt} (hm : Mounted s) (hq : ∀ k, s.env.fails k = false)

/-- `n` blocks have gone back, and the totals say so. -/
structure Counted (n : Nat) (s t : Mnt) : Prop extends SameVol s t where
  tfree : s.fs.tfree < 2 ^ 32 → t.fs.tfree = (s.fs.tfree + n) % 2 ^ 32
  tinode : t.fs.tinode = s.fs.tinode

theorem Counted.none (s : Mnt) : Counted 0 s s := ⟨sameVol_law.refl s, fun h => (Nat.mod_eq_of_lt h).symm, rfl⟩

theorem Counted.trans {m n : Nat} {s t u : Mnt} (h : Counted m s t) (h' : Counted n t u) :
    Counted (m + n) s u where
  toSameVol := sameVol_law.trans h.toSameVol h'.toSameVol
  tfree hlt := by
    have ht := h.tfree hlt
    rw [h'.tfree (ht ▸ Nat.mod_lt _ (by decide)), ht, Nat.mod_add_mod, Nat.add_assoc]
  tinode := h'.tinode.trans h.tinode

include hm hq

theorem v7fsBfree_counted {b : Nat} (hb : InData s.fs b) :
    Post (v7fsBfree b s) (fun _ t => Counted 1 s t) fun _ _ => False := by
  refine post_bindFs (post_ite (fun h => absurd h (by have := hb.1; have := hb.2; omega)) fun _ => ?_)
  refine post_bind (Post.mono (Q := fun _ t => SameVol s t ∧ t.fs.tfree = s.fs.tfree ∧
    t.fs.tinode = s.fs.tinode) ?_ ?_ fun _ _ h => h)
  · exact post_onlyIf (fun _ => ⟨⟨rfl, rfl, rfl⟩, rfl, rfl⟩) fun _ => ⟨sameVol_law.refl s, rfl, rfl⟩
  intro _ t hr
  obtain ⟨hvol, hfree, hinode⟩ := hr
  have hpush : ∀ {u : Mnt}, SameVol t u → u.fs.tfree = t.fs.tfree → u.fs.tinode = t.fs.tinode →
      Post (pushFree b u) (fun _ v => Counted 1 s v) fun _ _ => False := by
    intro u hu hfu hiu
    refine ⟨sameVol_law.trans (sameVol_law.trans hvol hu) ⟨rfl, rfl, rfl⟩, fun _ => ?_, hiu.trans hinode⟩
    show (u.fs.tfree + 1) % 2 ^ 32 = _
    rw [hfu, hfree]
  refine post_bindFs (post_ite (fun _ => ?_) fun _ => hpush (sameVol_law.refl t) rfl rfl)
  have hmt := hm.of_sameVol hvol
  refine post_bind (post_attempt (hmt.post_write (shape_inData hvol.shape |>.mpr hb).2 ?_ ?_))
  · intro _
    exact hpush ⟨rfl, rfl, rfl⟩ rfl rfl
  · intro hf _
    rw [hvol.env, hq] at hf
    cases hf

theorem freeUnmarked_counted (nblk : Nat) (bmap : Buf) (first : Nat) (blks : List Nat) (nfree : Nat)
    (hin : ∀ b ∈ blks, InData s.fs b) :
    Post (freeUnmarked nblk bmap first blks nfree s)
    (fun _ t => Counted (blks.filter (spared nblk bmap first)).length s t)
      fun _ _ => False := by
  induction blks generalizing s nfree with
  | nil => exact Counted.none s
  | cons b rest ih =>
    rw [freeUnmarked_cons, List.filter_cons]
    have hrest : ∀ x ∈ rest, InData s.fs x := fun x hx => hin x (List.mem_cons_of_mem _ hx)
    split
    · refine post_bind ((v7fsBfree_counted hm hq (hin b List.mem_cons_self)).mono (fun _ t ht => ?_)
        fun _ _ h => h)
      have hqt : ∀ k, t.env.fails k = false := by
        rw [ht.env]
        exact hq
      refine (ih (hm.of_sameVol ht.toSameVol) hqt (nfree + 1) fun x hx => (shape_inData ht.shape).mpr
        (hrest x hx)).mono ?_ fun _ _ h => h
      intro n u hu
      rw [List.length_cons, Nat.add_comm]
      exact ht.trans hu
    · exact ih hm hq nfree hrest

end Totals

/-! ## Rebuilt lists -/

/-- The blocks `F` make up the list, each once, and are counted in the total. -/
structure Relisted (s : Mnt) (F : List Nat) (t : Mnt) : Prop extends SameVol s t where
  tfree : s.fs.tfree < 2 ^ 32 → t.fs.tfree = (s.fs.tfree + F.length) % 2 ^ 32
  core : ∃ L K, Core t L K ∧ L.Perm F
  blocks : ∀ x, 2 ≤ x → x ∉ F → blockOf s.fs t.img x = blockOf s.fs s.img x

/-- What leaves the cache, the block total and the blocks alone leaves a rebuilt list alone. -/
theorem Relisted.frame {s t u : Mnt} {F : List Nat} (hm : Mounted s) (hl : ListLayout s.fs)
    (h : Relisted s F t) (hvol : SameVol t u)
    (hn : u.fs.nfree = t.fs.nfree) (hf : u.fs.free = t.fs.free) (htot : u.fs.tfree = t.fs.tfree)
    (hblk : ∀ b, 2 ≤ b → blockOf t.fs u.img b = blockOf t.fs t.img b) : Relisted s F u := by
  obtain ⟨L, K, hc, hperm⟩ := h.core
  refine ⟨sameVol_law.trans h.toSameVol hvol, fun hlt => htot.trans (h.tfree hlt),
    ⟨L, K, ?_, hperm⟩, fun x h2 hx => ?_⟩
  · refine hc.frame hvol.shape hn hf fun b hb => hblk b ?_
    exact two_le_of_inData (hm.of_sameVol h.toSameVol) (hl.of_shape h.shape)
      (hc.chain.inData b (hc.chain.sublist.subset hb))
  · rw [← h.blocks x h2 hx, ← shape_blockOf h.shape]
    exact hblk x h2

section Relist

variable {s : Mnt} (hm : Mounted s) (hl : ListLayout s.fs) (hq : ∀ k, s.env.fails k = false)

include hm hl hq

/-- From an empty list. -/
theorem freeUnmarked_relists (h0 : s.fs.nfree = 0) (nblk : Nat) (bmap : Buf) (first : Nat)
    {blks : List Nat} (hnd : blks.Nodup)
    (hin : ∀ b ∈ blks, InData s.fs b) :
    Post (freeUnmarked nblk bmap first blks 0 s)
    (fun _ t => Relisted s (blks.filter (spared nblk bmap first)) t ∧
      t.fs.tinode = s.fs.tinode) fun _ _ => False := by
  have hlist := freeUnmarked_spec nblk bmap first blks 0 hm hl (core_empty h0) hnd hin
    fun _ _ => List.not_mem_nil
  refine (hlist.and (freeUnmarked_counted hm hq nblk bmap first blks 0 hin)).mono ?_ fun _ _ h => h.1
  intro n t hr
  obtain ⟨hfreed, hcount⟩ := hr
  obtain ⟨L, K, hc, hsub, hall⟩ := hfreed.core
  refine ⟨⟨hcount.toSameVol, hcount.tfree, ⟨L, K, hc, ?_⟩, fun x _ hx => hfreed.blocks x hx⟩, hcount.tinode⟩
  refine (List.perm_ext_iff_of_nodup hc.nodup (hnd.filter _)).mpr fun x =>
    ⟨fun hx => ?_, fun hx => hall (onward_of_quiet hq) x (.inr hx)⟩
  exact (hsub x hx).resolve_left List.not_mem_nil

omit hq in
/-- The flush a rebuild ends with touches the superblock alone. -/
theorem Relisted.flush {t : Mnt} {F : List Nat} (h : Relisted s F t) : Post (attempt v7fsSuperWrite t)
    (fun _ u => Relisted s F u ∧ u.fs.tinode = t.fs.tinode) fun _ _ => False := by
  have hmt := hm.of_sameVol h.toSameVol
  have htotals : Keeps (SameIn fun fs => (fs.tfree, fs.tinode)) (attempt v7fsSuperWrite) :=
    keeps_attempt (SameIn.v7fsSuperWrite fun _ _ => rfl)
  have hkept : Post (attempt v7fsSuperWrite t) (fun _ u => Kept t u) fun _ _ => False :=
    post_attempt_flush hmt fun _ _ hu => hu
  refine (hkept.and (htotals t)).mono ?_ fun _ _ h => h.1
  intro r u hr
  obtain ⟨hk, hsame⟩ := hr
  have hfree : u.fs.tfree = t.fs.tfree := congrArg Prod.fst hsame
  have hinode : u.fs.tinode = t.fs.tinode := congrArg Prod.snd hsame
  have hspace := hk.space
  simp only [spaceOf, Prod.mk.injEq] at hspace
  exact ⟨h.frame hm hl hk.toSameVol hspace.1 hspace.2.1 hfree hk.blocks, hinode⟩

end Relist

/-! ## V6 -/

/-- Every number from 1 to 100 is in the table. -/
theorem mem_v6Adr {a : Nat} (h1 : 1 ≤ a) (h2 : a ≤ 100) : a ∈ v6Adr 100 0 [] := by
  have hall : ∀ a ∈ List.range 101, 1 ≤ a → a ∈ v6Adr 100 0 [] := by decide +kernel
  exact hall a (List.mem_range.mpr (by omega)) h1

/-- `k` hundreds name every block below `100 k`. -/
theorem mem_v6Order_iff {dstart fsize k b : Nat} :
    b ∈ v6Order dstart fsize k ↔ dstart ≤ b ∧ b < fsize ∧ b < k * 100 := by
  refine ⟨mem_v6Order, ?_⟩
  rintro ⟨h1, h2, h3⟩
  induction k with
  | zero => omega
  | succ k ih =>
    rw [v6Order, List.mem_append]
    by_cases hlow : b < k * 100
    · exact .inr (ih hlow)
    · refine .inl (List.mem_map.mpr ⟨(k + 1) * 100 - b,
        List.mem_filter.mpr ⟨mem_v6Adr (by omega) (by omega), ?_⟩, by omega⟩)
      simp only [Bool.and_eq_true, decide_eq_true_eq]
      omega

/-- The blocks a rebuild of a V6 volume gives back. -/
def v6Given (fs : Fs) (bmap : Buf) : List Nat :=
  (v6Order (opsDataStart fs) fs.fsize ((fs.fsize - 1 + 99) / 100)).filter
  (spared (opsDataEnd fs - opsDataStart fs) bmap (opsDataStart fs))

section V6

variable {s : Mnt} (hm : Mounted s) (hl : ListLayout s.fs) (hq : ∀ k, s.env.fails k = false)
    (hcount : s.fs.desc.isizeCount = true)

include hm hl

omit hm in
include hcount in
theorem v6_dataStart : opsDataStart s.fs = v6DataStart s.fs.isize := by
  rw [dataStart_eq hl]
  unfold v7DataFirst
  rw [hcount]
  rfl

/-- All the unmarked blocks but the last of a volume that ends a hundred and one. -/
theorem mem_v6Given (bmap : Buf) {b : Nat} :
    b ∈ v6Given s.fs bmap ↔ Unmarked s.fs bmap b ∧ ¬ (b = s.fs.fsize - 1 ∧ s.fs.fsize % 100 = 1) := by
  have hend : opsDataEnd s.fs = s.fs.fsize := dataEnd_eq hl
  unfold v6Given
  rw [List.mem_filter, mem_v6Order_iff]
  constructor
  · intro h
    obtain ⟨⟨h1, h2, h3⟩, hsp⟩ := h
    exact ⟨(spared_iff hm hl bmap ⟨h1, by rw [hend]; exact h2⟩).mp hsp, by omega⟩
  · rintro ⟨hun, hlast⟩
    have hlt : b < s.fs.fsize := hend ▸ hun.1.2
    exact ⟨⟨hun.1.1, hlt, by omega⟩, (spared_iff hm hl bmap hun.1).mpr hun⟩

include hq hcount

theorem v6Makefree_relists (bmap : Buf) :
    Post (v6Makefree (opsDataEnd s.fs - opsDataStart s.fs) bmap s)
      (fun _ t => Relisted s (v6Given s.fs bmap) t ∧ t.fs.tinode = s.fs.tinode) fun _ _ => False := by
  refine post_bindMod (post_bindFs ?_)
  generalize hs0 : ({ s with fs := { s.fs with nfree := 0, ninode := 0 } } : Mnt) = s0
  have hvol : SameVol s s0 := hs0 ▸ ⟨rfl, rfl, rfl⟩
  have himg : s0.img = s.img := by rw [← hs0]
  have hm0 := hm.of_sameVol hvol
  have hl0 := hl.of_shape hvol.shape
  have hq0 : ∀ k, s0.env.fails k = false := by
    rw [hvol.env]
    exact hq
  rw [shape_isize hvol.shape, shape_fsize hvol.shape, ← v6_dataStart hl hcount]
  have hdata : ∀ b ∈ v6Order (opsDataStart s.fs) s.fs.fsize ((s.fs.fsize - 1 + 99) / 100), InData s0.fs b := by
    intro b hb
    have := mem_v6Order hb
    exact (shape_inData hvol.shape).mpr
      ((dataBlock_iff_inData hl).mp ⟨this.1, by rw [dataEnd_eq hl]; exact this.2.1⟩)
  refine post_bind ((freeUnmarked_relists hm0 hl0 hq0 (by rw [← hs0]) _ bmap _ (nodup_v6Order _ _ _)
    hdata).mono ?_ fun _ _ h => h)
  intro n t hr
  obtain ⟨ht, hinode⟩ := hr
  -- the list was emptied first; the totals were not
  have hrel : Relisted s (v6Given s.fs bmap) t := by
    refine ⟨sameVol_law.trans hvol ht.toSameVol, fun hlt => ?_, ht.core, fun x h2 hx => ?_⟩
    · rw [ht.tfree (by rw [← hs0]; exact hlt), ← hs0]
      rfl
    · rw [← himg, ← shape_blockOf hvol.shape]
      exact ht.blocks x h2 hx
  refine post_bind ((hrel.flush hm hl).mono (fun _ u hu => ⟨hu.1, hu.2.trans (hinode.trans ?_)⟩) fun _ _ h => h)
  rw [← hs0]

end V6

/-- `v6_makefree` puts exactly the clear blocks of `[isize + 2, fsize)` on the list, each once (`Core`
    has no block twice). -/
def RebuildsAll (s : Mnt) (bmap : Buf) : Prop :=
  ∃ n t L K, v6Makefree (opsDataEnd s.fs - opsDataStart s.fs) bmap s = .ok n t ∧ Core t L K ∧
    ∀ b, b ∈ L ↔ v6DataStart s.fs.isize ≤ b ∧ b < s.fs.fsize ∧ getBit bmap (b - v6DataStart s.fs.isize) = false

section Complete

variable {s : Mnt} (hm : Mounted s) (hl : ListLayout s.fs) (hq : ∀ k, s.env.fails k = false)
    (hcount : s.fs.desc.isizeCount = true) (bmap : Buf)

include hl hcount

theorem unmarked_v6 (b : Nat) :
    Unmarked s.fs bmap b ↔ v6DataStart s.fs.isize ≤ b ∧ b < s.fs.fsize ∧
    getBit bmap (b - v6DataStart s.fs.isize) = false := by
  rw [Unmarked, DataBlock, v6_dataStart hl hcount, dataEnd_eq hl, and_assoc]

include hm hq

theorem rebuildsAll_of_last
    (hlast : s.fs.fsize % 100 = 1 → getBit bmap (s.fs.fsize - 1 - v6DataStart s.fs.isize) = true) :
    RebuildsAll s bmap := by
  obtain ⟨n, t, hr, ht, -⟩ := (v6Makefree_relists hm hl hq hcount bmap).succeeds
  obtain ⟨L, K, hc, hperm⟩ := ht.core
  refine ⟨n, t, L, K, hr, hc, fun b => ?_⟩
  rw [hperm.mem_iff, mem_v6Given hm hl bmap, ← unmarked_v6 hl hcount bmap b]
  refine ⟨fun h => h.1, fun h => ⟨h, ?_⟩⟩
  rintro ⟨rfl, hmod⟩
  have hclear := ((unmarked_v6 hl hcount bmap _).mp h).2.2
  rw [hlast hmod] at hclear
  cases hclear

theorem not_rebuildsAll (hmod : s.fs.fsize % 100 = 1)
    (hclear : getBit bmap (s.fs.fsize - 1 - v6DataStart s.fs.isize) = false) :
    ¬ RebuildsAll s bmap := by
  intro h
  obtain ⟨n', t', L', K', hr', hc', hall⟩ := h
  obtain ⟨n, t, hr, ht, -⟩ := (v6Makefree_relists hm hl hq hcount bmap).succeeds
  obtain ⟨L, K, hc, hperm⟩ := ht.core
  rw [hr] at hr'
  cases hr'
  have hfirst := (hm.of_sameVol ht.toSameVol).first
  rw [dataStart_eq (hl.of_shape ht.shape)] at hfirst
  obtain ⟨rfl, -⟩ := hc.chain.unique hc'.chain (Nat.le_of_succ_le hfirst)
  have hroom : v6DataStart s.fs.isize ≤ s.fs.fsize - 1 ∧ s.fs.fsize - 1 < s.fs.fsize := by
    have := hm.room
    rw [v6_dataStart hl hcount, dataEnd_eq hl] at this
    omega
  have hmem := (hall (s.fs.fsize - 1)).mpr ⟨hroom.1, hroom.2, hclear⟩
  exact ((mem_v6Given hm hl bmap).mp (hperm.mem_iff.mp hmem)).2 ⟨rfl, hmod⟩

/-- A rebuild is complete unless the volume ends a hundred and one and its last block is unmarked. -/
theorem v6_rebuild_complete_iff :
    RebuildsAll s bmap ↔ (s.fs.fsize % 100 = 1 →
      getBit bmap (s.fs.fsize - 1 - v6DataStart s.fs.isize) = true) := by
  constructor
  · intro hall hmod
    by_contra hclear
    exact not_rebuildsAll hm hl hq hcount bmap hmod (Bool.eq_false_iff.mpr hclear) hall
  · exact rebuildsAll_of_last hm hl hq hcount bmap

end Complete

/-! ## Two volumes -/

/-- A V6 volume of `fsize` blocks, with one block of inodes. -/
def v6Blocks (fsize : Nat) : Mnt where
  fs := { desc := descV6, isize := 1, fsize := fsize, imgsize := fsize * 512 }
  img := zeroBuf
  size := fsize * 512

/-- Block 100 of a volume of 101 blocks is put on no list. -/
theorem a_volume_of_101_blocks_loses_its_last :
    Mounted (v6Blocks 101) ∧ ListLayout (v6Blocks 101).fs ∧ (∀ k, (v6Blocks 101).env.fails k = false) ∧
    ¬ RebuildsAll (v6Blocks 101) zeroBuf := by
  have hm : Mounted (v6Blocks 101) := ⟨fun _ _ => rfl, by decide, rfl, by decide, by decide, by decide,
    rfl, by decide, by decide, by decide⟩
  have hl : ListLayout (v6Blocks 101).fs := by
    constructor <;> first | decide | (unfold SuperRoom; decide)
  exact ⟨hm, hl, fun _ => rfl, not_rebuildsAll hm hl (fun _ => rfl) rfl zeroBuf (by decide) (by decide)⟩

theorem a_volume_of_100_blocks_is_rebuilt : RebuildsAll (v6Blocks 100) zeroBuf := by
  have hm : Mounted (v6Blocks 100) := ⟨fun _ _ => rfl, by decide, rfl, by decide, by decide, by decide,
    rfl, by decide, by decide, by decide⟩
  have hl : ListLayout (v6Blocks 100).fs := by
    constructor <;> first | decide | (unfold SuperRoom; decide)
  exact (v6_rebuild_complete_iff hm hl (fun _ => rfl) rfl zeroBuf).mpr fun h => absurd h (by decide)

end Filsys.Alloc
