/-
  Filsys.Alloc.Rebuild — `makefree`, one allocator at a time.

  A rebuild gives back blocks of the data area that the usage map leaves clear, and
  nothing else: what was marked keeps its contents (`Rebuilt`). With no transfer failing
  it gives back all of them (`Rebuilt.all`), V6's aside, whose table passes over the last
  block of some volumes. Coherent's interleave is a permutation of the data area for
  whatever factors the superblock holds (`interleaved_perm`).
-/

import Filsys.Alloc.Space
import Filsys.Engine.Peek
import Filsys.Engine.Salvage

namespace Filsys.Alloc

open Filsys.Lib Filsys.Engine

/-! ## The interleave -/

theorem interleaveOf_valid (fs : Fs) : 1 ≤ (interleaveOf fs).1 ∧ 1 ≤ (interleaveOf fs).2 ∧
    (interleaveOf fs).1 ∣ (interleaveOf fs).2 := by
  unfold interleaveOf
  split
  · split
    · exact ⟨Nat.le_refl 1, Nat.le_refl 1, Nat.dvd_refl 1⟩
    · rename_i h
      have hmod : fs.n % fs.m = 0 := by omega
      exact ⟨show 1 ≤ fs.m by omega, show 1 ≤ fs.n by omega, Nat.dvd_of_mod_eq_zero hmod⟩
  · exact ⟨Nat.le_refl 1, Nat.le_refl 1, Nat.dvd_refl 1⟩

section Maptab

variable {m r : Nat} (hm : 1 ≤ m) (hr : 1 ≤ r)

include hm hr

omit hr in
theorem maptab_eq (i : Nat) : maptab m (m * r) i = i / r + i % r * m := by
  unfold maptab
  rw [Nat.mul_div_cancel_left _ hm]

theorem maptab_parts {i : Nat} (hi : i < m * r) :
    maptab m (m * r) i % m = i / r ∧ maptab m (m * r) i / m = i % r := by
  have hq : i / r < m := (Nat.div_lt_iff_lt_mul hr).mpr hi
  rw [maptab_eq hm]
  constructor
  · rw [Nat.add_mul_mod_self_right, Nat.mod_eq_of_lt hq]
  · rw [Nat.add_mul_div_right _ _ hm, Nat.div_eq_of_lt hq, Nat.zero_add]

theorem maptab_lt {i : Nat} (hi : i < m * r) : maptab m (m * r) i < m * r := by
  have hdiv := (maptab_parts hm hr hi).2
  have hlt : maptab m (m * r) i / m < r := hdiv ▸ Nat.mod_lt i hr
  rw [Nat.div_lt_iff_lt_mul hm, Nat.mul_comm r m] at hlt
  exact hlt

theorem maptab_inj {i j : Nat} (hi : i < m * r) (hj : j < m * r)
    (h : maptab m (m * r) i = maptab m (m * r) j) : i = j := by
  obtain ⟨hi1, hi2⟩ := maptab_parts hm hr hi
  obtain ⟨hj1, hj2⟩ := maptab_parts hm hr hj
  rw [h] at hi1 hi2
  have hq : i / r = j / r := hi1.symm.trans hj1
  have hrem : i % r = j % r := hi2.symm.trans hj2
  rw [← Nat.div_add_mod i r, ← Nat.div_add_mod j r, hq, hrem]

end Maptab

/-- Block `b` lies in the band that is interleaved. -/
def InBand (fs : Fs) (b : Nat) : Prop :=
  (fs.isize + (interleaveOf fs).2 - 1) / (interleaveOf fs).2 * (interleaveOf fs).2 ≤ b ∧
  b < fs.fsize / (interleaveOf fs).2 * (interleaveOf fs).2

instance (fs : Fs) (b : Nat) : Decidable (InBand fs b) := inferInstanceAs (Decidable (_ ∧ _))

theorem interleaved_eq (fs : Fs) (b : Nat) : interleaved fs b =
    if InBand fs b then b / (interleaveOf fs).2 * (interleaveOf fs).2 +
    maptab (interleaveOf fs).1 (interleaveOf fs).2 (b % (interleaveOf fs).2)
    else b := rfl

/-- The interleave moves a block within its group of `n`. -/
theorem interleaved_group {fs : Fs} {b : Nat} (h : InBand fs b) :
    interleaved fs b / (interleaveOf fs).2 = b / (interleaveOf fs).2 ∧
      interleaved fs b % (interleaveOf fs).2 = maptab (interleaveOf fs).1 (interleaveOf fs).2 (b %
        (interleaveOf fs).2) := by
  obtain ⟨hm, hn, r, hr⟩ := interleaveOf_valid fs
  have hr1 : 1 ≤ r := by
    rcases Nat.eq_zero_or_pos r with h0 | h0
    · rw [h0, Nat.mul_zero] at hr
      omega
    · exact h0
  rw [interleaved_eq, if_pos h]
  have hlt : maptab (interleaveOf fs).1 (interleaveOf fs).2 (b % (interleaveOf fs).2) <
    (interleaveOf fs).2 := by
    have hb : b % (interleaveOf fs).2 < (interleaveOf fs).2 := Nat.mod_lt _ hn
    rw [hr] at hb ⊢
    exact maptab_lt hm hr1 hb
  constructor
  · rw [Nat.add_comm, Nat.add_mul_div_right _ _ hn, Nat.div_eq_of_lt hlt, Nat.zero_add]
  · rw [Nat.add_comm, Nat.add_mul_mod_self_right, Nat.mod_eq_of_lt hlt]

/-- Which groups make up the band. -/
theorem inBand_iff (fs : Fs) (b : Nat) : InBand fs b ↔
    (fs.isize + (interleaveOf fs).2 - 1) / (interleaveOf fs).2 ≤ b / (interleaveOf fs).2 ∧
      b / (interleaveOf fs).2 < fs.fsize / (interleaveOf fs).2 := by
  obtain ⟨-, hn, -⟩ := interleaveOf_valid fs
  unfold InBand
  rw [Nat.le_div_iff_mul_le hn, Nat.div_lt_iff_lt_mul hn]

theorem interleaved_inBand (fs : Fs) (b : Nat) : InBand fs (interleaved fs b) ↔ InBand fs b := by
  by_cases h : InBand fs b
  · rw [inBand_iff, (interleaved_group h).1, ← inBand_iff]
  · rw [interleaved_eq, if_neg h]

theorem interleaved_inj {fs : Fs} {a b : Nat} (h : interleaved fs a = interleaved fs b) : a = b := by
  by_cases ha : InBand fs a
  · have hb : InBand fs b := by
      rw [← interleaved_inBand, ← h, interleaved_inBand]
      exact ha
    obtain ⟨hm, hn, r, hr⟩ := interleaveOf_valid fs
    have hr1 : 1 ≤ r := by
      rcases Nat.eq_zero_or_pos r with h0 | h0
      · rw [h0, Nat.mul_zero] at hr
        omega
      · exact h0
    obtain ⟨ha1, ha2⟩ := interleaved_group ha
    obtain ⟨hb1, hb2⟩ := interleaved_group hb
    rw [h] at ha1 ha2
    have hq := ha1.symm.trans hb1
    have hmap := ha2.symm.trans hb2
    have hrem : a % (interleaveOf fs).2 = b % (interleaveOf fs).2 := by
      have hla : a % (interleaveOf fs).2 < (interleaveOf fs).2 := Nat.mod_lt _ hn
      have hlb : b % (interleaveOf fs).2 < (interleaveOf fs).2 := Nat.mod_lt _ hn
      revert hla hlb hmap
      generalize a % (interleaveOf fs).2 = i
      generalize b % (interleaveOf fs).2 = j
      rw [hr]
      exact fun hmap hla hlb => maptab_inj hm hr1 hla hlb hmap
    rw [← Nat.div_add_mod a (interleaveOf fs).2, ← Nat.div_add_mod b (interleaveOf fs).2, hq, hrem]
  · have hb : ¬ InBand fs b := by
      rw [← interleaved_inBand, ← h, interleaved_inBand]
      exact ha
    rwa [interleaved_eq, if_neg ha, interleaved_eq, if_neg hb] at h

theorem interleaved_mem {fs : Fs} {b : Nat} (hb : fs.isize ≤ b ∧ b < fs.fsize) :
    fs.isize ≤ interleaved fs b ∧ interleaved fs b < fs.fsize := by
  by_cases h : InBand fs b
  · obtain ⟨-, hn, -⟩ := interleaveOf_valid fs
    obtain ⟨hlo, hhi⟩ := (interleaved_inBand fs b).mpr h
    refine ⟨Nat.le_trans ?_ hlo, Nat.lt_of_lt_of_le hhi (Nat.div_mul_le_self _ _)⟩
    have hdiv := Nat.div_add_mod (fs.isize + (interleaveOf fs).2 - 1) (interleaveOf fs).2
    have hmod := Nat.mod_lt (fs.isize + (interleaveOf fs).2 - 1) hn
    rw [Nat.mul_comm] at hdiv
    omega
  · rw [interleaved_eq, if_neg h]
    exact hb

theorem mem_blocksFrom {first last b : Nat} : b ∈ blocksFrom first last ↔ first ≤ b ∧ b < last := by
  unfold blocksFrom
  rw [List.mem_map]
  constructor
  · rintro ⟨i, hi, rfl⟩
    have := List.mem_range.mp hi
    omega
  · rintro ⟨h1, h2⟩
    exact ⟨b - first, List.mem_range.mpr (by omega), by omega⟩

theorem nodup_blocksFrom (first last : Nat) : (blocksFrom first last).Nodup :=
  List.nodup_range.map fun a b h => by simpa using h

/-- The interleave only reorders the blocks of the data area. -/
theorem interleaved_perm (fs : Fs) :
    ((blocksFrom fs.isize fs.fsize).map (interleaved fs)).Perm (blocksFrom fs.isize fs.fsize) := by
  have hnd : ((blocksFrom fs.isize fs.fsize).map (interleaved fs)).Nodup :=
    (nodup_blocksFrom _ _).map fun a b h => interleaved_inj h
  have hsub : (blocksFrom fs.isize fs.fsize).map (interleaved fs) ⊆ blocksFrom fs.isize fs.fsize := by
    intro b hb
    obtain ⟨a, ha, rfl⟩ := List.mem_map.mp hb
    exact mem_blocksFrom.mpr (interleaved_mem (mem_blocksFrom.mp ha))
  exact (List.subperm_of_subset hnd hsub).perm_of_length_le (Nat.le_of_eq (by rw [List.length_map]))

/-! ## Rebuilt free space -/

/-- A data block the map leaves clear. -/
def Unmarked (fs : Fs) (bmap : Buf) (b : Nat) : Prop :=
  DataBlock fs b ∧ getBit bmap (b - opsDataStart fs) = false

/-- From `s`, the free space of `t` has been made out of the blocks `free`. -/
structure Rebuilt (s : Mnt) (free : Nat → Prop) (t : Mnt) : Prop extends SameVol s t where
  ok : SpaceOk t
  sub : ∀ b, IsFree t b → free b
  all : s.fs.desc.ops ≠ .v6 → Onward s → ∀ b, free b → IsFree t b
  blocks : ∀ x, 2 ≤ x → x < opsDataEnd s.fs → ¬ free x → blockOf s.fs t.img x = blockOf s.fs s.img x

/-- Neither the in-core free space nor a block of the i-list or the data area has changed. -/
structure KeptArea (s t : Mnt) : Prop extends SameVol s t where
  space : spaceOf t.fs = spaceOf s.fs
  blocks : ∀ b, 2 ≤ b → b < opsDataEnd s.fs → blockOf s.fs t.img b = blockOf s.fs s.img b

theorem keptArea_law : Law KeptArea where
  refl s := ⟨sameVol_law.refl s, rfl, fun _ _ _ => rfl⟩
  trans h h' := by
    refine ⟨sameVol_law.trans h.toSameVol h'.toSameVol, h'.space.trans h.space, fun b h2 hb => ?_⟩
    have := h'.blocks b h2 (by rw [shape_dataEnd h.shape]; exact hb)
    rw [shape_blockOf h.shape] at this
    exact this.trans (h.blocks b h2 hb)

theorem KeptArea.of_kept {s t : Mnt} (h : Kept s t) : KeptArea s t :=
  ⟨h.toSameVol, h.space, fun b h2 _ => h.blocks b h2⟩

/-- What leaves the allocator's state and the blocks alone leaves the rebuilt space alone. -/
theorem Rebuilt.kept {s t u : Mnt} {free : Nat → Prop} (hm : Mounted s) (h : Rebuilt s free t)
    (hk : KeptArea t u) : Rebuilt s free u := by
  have hmt := hm.of_sameVol h.toSameVol
  have hfs : blockOf t.fs = blockOf s.fs := shape_blockOf h.shape
  have hblk : ∀ x, 2 ≤ x → x < opsDataEnd s.fs → blockOf s.fs u.img x = blockOf s.fs t.img x := by
    intro x hx hlt
    rw [← hfs]
    exact hk.blocks x hx (by rw [shape_dataEnd h.shape]; exact hlt)
  obtain ⟨hok, hfree⟩ := space_congr hmt h.ok hk.toSameVol hk.space fun b hb =>
    hk.blocks b ((h.ok.data hb).two_le hmt) (h.ok.data hb).2
  refine ⟨sameVol_law.trans h.toSameVol hk.toSameVol, hok, fun b hb => h.sub b ((hfree b).mp hb),
    ?_, fun x h2 hlt hx => ?_⟩
  · intro h6 hq b hb
    exact (hfree b).mpr (h.all h6 hq b hb)
  · rw [hblk x h2 hlt]
    exact h.blocks x h2 hlt hx

/-- Counters set aside before the rebuild do not matter. -/
theorem Rebuilt.after {s s0 t : Mnt} {free : Nat → Prop} (h : Rebuilt s0 free t)
    (hvol : SameVol s s0) (himg : s0.img = s.img)
    (hios : s.ios ≤ s0.ios) : Rebuilt s free t where
  toSameVol := sameVol_law.trans hvol h.toSameVol
  ok := h.ok
  sub := h.sub
  all := by
    rw [← shape_desc hvol.shape]
    exact fun h6 hq => h.all h6 (hq.next hvol.env hios)
  blocks := by
    rw [← shape_dataEnd hvol.shape, ← himg, ← shape_blockOf hvol.shape]
    exact h.blocks

/-! ## Free lists -/

/-- The blocks `F` have gone back on the list `L`; a failing dump loses one. -/
structure Freed (s : Mnt) (L F : List Nat) (t : Mnt) : Prop extends SameVol s t where
  core : ∃ L' K', Core t L' K' ∧ (∀ x ∈ L', x ∈ L ∨ x ∈ F) ∧ (Onward s → ∀ x, x ∈ L ∨ x ∈ F → x ∈ L')
  blocks : ∀ x, x ∉ F → blockOf s.fs t.img x = blockOf s.fs s.img x

theorem Freed.nil {s : Mnt} {L K : List Nat} (hc : Core s L K) : Freed s L [] s where
  toSameVol := sameVol_law.refl s
  core := ⟨L, K, hc, fun _ h => .inl h, fun _ _ h => h.resolve_right List.not_mem_nil⟩
  blocks _ _ := rfl

/-- One block, then the rest. -/
theorem Freed.cons {s t u : Mnt} {L L₁ F : List Nat} {b : Nat} (hvol : SameVol s t) (hios : s.ios ≤ t.ios)
    (hsub : ∀ x ∈ L₁, x = b ∨ x ∈ L) (hall : Onward s → ∀ x, x = b ∨ x ∈ L → x ∈ L₁)
    (hblk : ∀ x, x ≠ b → blockOf s.fs t.img x = blockOf s.fs s.img x) (h : Freed t L₁ F u) :
    Freed s L (b :: F) u where
  toSameVol := sameVol_law.trans hvol h.toSameVol
  core := by
    obtain ⟨L', K', hc, hsub', hall'⟩ := h.core
    refine ⟨L', K', hc, fun x hx => ?_, fun hq x hx => ?_⟩
    · rw [List.mem_cons]
      rcases hsub' x hx with h | h
      · rcases hsub x h with h | h
        · exact .inr (.inl h)
        · exact .inl h
      · exact .inr (.inr h)
    · refine hall' (hq.next hvol.env hios) x ?_
      rw [List.mem_cons] at hx
      rcases hx with h | h | h
      · exact .inl (hall hq x (.inr h))
      · exact .inl (hall hq x (.inl h))
      · exact .inr h
  blocks x hx := by
    rw [List.mem_cons, not_or] at hx
    have hrest := h.blocks x hx.2
    rw [shape_blockOf hvol.shape] at hrest
    exact hrest.trans (hblk x hx.1)

/-- Whether the rebuild gives `b` back. -/
def spared (nblk : Nat) (bmap : Buf) (first b : Nat) : Bool :=
  decide ((b + 2 ^ 32 - first) % 2 ^ 32 < nblk) && !getBit bmap ((b + 2 ^ 32 - first) % 2 ^ 32)

theorem freeUnmarked_cons (nblk : Nat) (bmap : Buf) (first b : Nat) (rest : List Nat) (n : Nat) :
    freeUnmarked nblk bmap first (b :: rest) n =
      if spared nblk bmap first b then v7fsBfree b >>= fun _ => freeUnmarked nblk bmap first rest (n + 1)
      else freeUnmarked nblk bmap first rest n := by
  rw [freeUnmarked]
  unfold spared
  generalize (b + 2 ^ 32 - first) % 2 ^ 32 = off
  by_cases h : nblk ≤ off
  · rw [if_pos h, if_neg (by simp only [Bool.and_eq_true, decide_eq_true_eq]; omega)]
  · rw [if_neg h]
    cases hset : getBit bmap off with
    | true => rw [if_pos rfl, if_neg (by simp)]
    | false => rw [if_neg (by decide), if_pos (by simp; omega)]

theorem freeUnmarked_spec (nblk : Nat) (bmap : Buf) (first : Nat) (blks : List Nat) (nfree : Nat)
    {s : Mnt} {L K : List Nat} (hm : Mounted s)
    (hl : ListLayout s.fs) (hc : Core s L K) (hnd : blks.Nodup) (hin : ∀ b ∈ blks, InData s.fs b)
    (hout : ∀ b ∈ blks, b ∉ L) :
    Post (freeUnmarked nblk bmap first blks nfree s)
    (fun _ t => Freed s L (blks.filter (spared nblk bmap first)) t)
      fun _ _ => False := by
  induction blks generalizing s L K nfree with
  | nil => exact Freed.nil hc
  | cons b rest ih =>
    rw [freeUnmarked_cons, List.filter_cons]
    obtain ⟨hb, hnd'⟩ := List.nodup_cons.mp hnd
    have hin' : ∀ x ∈ rest, InData s.fs x := fun x hx => hin x (List.mem_cons_of_mem _ hx)
    have hout' : ∀ x ∈ rest, x ∉ L := fun x hx => hout x (List.mem_cons_of_mem _ hx)
    split
    · rename_i hsp
      -- whatever state the free of `b` leaves, the rest goes on from there
      have hnext : ∀ {t : Mnt} {L₁ K₁ : List Nat}, Core t L₁ K₁ → SameVol s t → s.ios ≤ t.ios →
        (∀ x ∈ L₁, x = b ∨ x ∈ L) →
          (Onward s → ∀ x, x = b ∨ x ∈ L → x ∈ L₁) →
          (∀ x, x ≠ b → blockOf s.fs t.img x = blockOf s.fs s.img x) →
          Post (freeUnmarked nblk bmap first rest (nfree + 1) t)
            (fun _ u => Freed s L (b :: rest.filter (spared nblk bmap first)) u) fun _ _ => False := by
        intro t L₁ K₁ hct hvol hios hsub hall hblk
        refine (ih (nfree + 1) (hm.of_sameVol hvol) (hl.of_shape hvol.shape) hct hnd' ?_ ?_).mono ?_
          fun _ _ h => h
        · exact fun x hx => (shape_inData hvol.shape).mpr (hin' x hx)
        · intro x hx hmem
          rcases hsub x hmem with rfl | h
          · exact hb hx
          · exact hout' x hx h
        · exact fun _ u hu => hu.cons hvol hios hsub hall hblk
      have hpv := primed_sameVol s
      have hlater : ∀ n, s.ios ≤ (primed s).ios + n :=
        fun n => Nat.le_trans (Nat.le_of_eq (primed_ios s).symm) (Nat.le_add_right _ n)
      refine post_bind (post_v7fsBfree hm hl hc (hin b List.mem_cons_self) (hout b List.mem_cons_self) ?_ ?_ ?_)
      · intro hct
        refine hnext hct (sameVol_law.trans hpv ⟨rfl, rfl, rfl⟩) (Nat.le_of_eq (primed_ios s).symm)
          (fun x hx => List.mem_cons.mp hx) (fun _ x hx => List.mem_cons.mpr hx) ?_
        intro x _
        show blockOf s.fs (primed s).img x = _
        rw [primed_img]
      · intro hct
        refine hnext hct (sameVol_law.trans hpv ⟨rfl, rfl, rfl⟩) (hlater _)
          (fun x hx => List.mem_cons.mp hx) (fun _ x hx => List.mem_cons.mpr hx) ?_
        intro x hne
        rw [← shape_blockOf hpv.shape]
        refine (blockOf_putBlock_ne hne _ _).trans ?_
        rw [primed_img]
      · intro hf hct
        refine hnext hct (sameVol_law.trans hpv ⟨rfl, rfl, rfl⟩) (hlater _) (fun x hx => .inr hx) ?_ ?_
        · intro hq
          rw [hq s.ios (Nat.le_refl _)] at hf
          cases hf
        · intro x _
          show blockOf s.fs (primed s).img x = _
          rw [primed_img]
    · exact ih nfree hm hl hc hnd' hin' hout'

/-- The list has been emptied: the rebuild starts from here. -/
theorem core_empty {s : Mnt} (h : s.fs.nfree = 0) : Core s [] [] := by
  refine ⟨?_, by rw [h]; exact Nat.zero_le _, List.nodup_nil⟩
  rw [h]
  exact .empty

/-- A rebuilt list, from what has been given back on an empty one. -/
theorem Freed.rebuilt {s t : Mnt} {F : List Nat} {free : Nat → Prop} (hm : Mounted s)
    (ha : s.fs.desc.alloc = .freelist) (hl : ListLayout s.fs)
    (h : Freed s [] F t) (hsub : ∀ b ∈ F, free b) (hall : s.fs.desc.ops ≠ .v6 → ∀ b, free b → b ∈ F) :
    Rebuilt s free t := by
  obtain ⟨L', K', hc, hL, hLall⟩ := h.core
  have ha' : t.fs.desc.alloc = .freelist := by rw [shape_desc h.shape]; exact ha
  have hl' := hl.of_shape h.shape
  have hfree : ∀ x, IsFree t x ↔ x ∈ L' := fun x => isFree_core (hm.of_sameVol h.toSameVol) ha' hl' hc
  refine ⟨h.toSameVol, (spaceOk_freelist ha').mpr ⟨hl', L', K', hc⟩, fun b hb => ?_,
    fun h6 hq b hb => ?_, fun x _ _ hx => ?_⟩
  · exact hsub b ((hL b ((hfree b).mp hb)).resolve_left List.not_mem_nil)
  · exact (hfree b).mpr (hLall hq b (.inr (hall h6 b hb)))
  · exact h.blocks x fun hmem => hx (hsub x hmem)

/-- Counting the live inodes reads at most. -/
theorem countLive_spec (todo ino used : Nat) (s : Mnt) :
    Post (countLive todo ino used s) (fun _ t => ReadOnly s t) fun _ _ => False := by
  induction todo generalizing ino used s with
  | zero => exact readOnly_law.refl s
  | succ todo ih =>
    refine post_bindFs (post_bind (post_attempt ((v7fsReadInode_peeks ino s).mono ?_ ?_)))
    · intro ip t ht
      exact (ih (ino + 1) _ t).mono (fun _ _ h => readOnly_law.trans ht h) fun _ _ h => h
    · intro e t ht
      exact (ih (ino + 1) used t).mono (fun _ _ h => readOnly_law.trans ht h) fun _ _ h => h

theorem kept_of_readOnly {s t : Mnt} (hs : Solo s) (h : ReadOnly s t) : Kept s t := by
  obtain ⟨k, -, rfl⟩ := h hs
  exact ⟨⟨rfl, rfl, rfl⟩, rfl, fun _ _ => rfl⟩

/-- The flush a rebuild ends with. -/
theorem post_attempt_flush {s : Mnt} (hm : Mounted s) {Q : Except Errno Unit → Mnt → Prop}
    {E : Errno → Mnt → Prop}
    (hok : ∀ r t, Kept s t → Q r t) : Post (attempt v7fsSuperWrite s) Q E :=
  post_attempt (hm.post_superWrite (fun _ _ => hok _ _ (kept_flushed hm)) fun _ _ _ _ =>
    hok _ _ ⟨⟨rfl, rfl, rfl⟩, rfl, fun _ _ => rfl⟩)

section List

variable {s : Mnt} (hm : Mounted s) (ha : s.fs.desc.alloc = .freelist) (hl : ListLayout s.fs) (bmap : Buf)

include hm hl

theorem spared_iff {b : Nat} (hb : DataBlock s.fs b) :
    spared (opsDataEnd s.fs - opsDataStart s.fs) bmap (opsDataStart s.fs) b = true ↔ Unmarked s.fs bmap b := by
  have hfit := hb.lt_fsize hm
  have hsmall : s.fs.fsize ≤ 2 ^ 32 := by
    refine Nat.le_trans hl.addr ?_
    split <;> decide
  have hoff : (b + 2 ^ 32 - opsDataStart s.fs) % 2 ^ 32 = b - opsDataStart s.fs := by
    have := hb.1
    omega
  unfold spared Unmarked
  rw [hoff]
  have := hb.1
  have := hb.2
  simp only [Bool.and_eq_true, decide_eq_true_eq, Bool.not_eq_true', hb, true_and, and_iff_right_iff_imp]
  omega

include ha

/-- The rebuild of a V7 free list; `first` to the end is the data area. -/
theorem v7fsMakefreeList_spec (hcount : s.fs.desc.isizeCount = false) :
    Post (v7fsMakefreeList (opsDataEnd s.fs - opsDataStart s.fs) bmap s)
    (fun _ t => Rebuilt s (Unmarked s.fs bmap) t) fun _ _ => False := by
  have hstart : opsDataStart s.fs = s.fs.isize := by
    rw [dataStart_eq hl]
    unfold v7DataFirst
    rw [hcount]
    rfl
  have hend : opsDataEnd s.fs = s.fs.fsize := dataEnd_eq hl
  have hmem : ∀ b, b ∈ (blocksFrom s.fs.isize s.fs.fsize).map (interleaved s.fs) ↔ DataBlock s.fs b := by
    intro b
    rw [(interleaved_perm s.fs).mem_iff, mem_blocksFrom, DataBlock, hstart, hend]
  refine post_bindMod (post_bindFs ?_)
  generalize hs0 : ({ s with fs := { s.fs with nfree := 0, ninode := 0, tfree := 0, tinode := 0 } } : Mnt) = s0
  have hvol : SameVol s s0 := hs0 ▸ ⟨rfl, rfl, rfl⟩
  have himg : s0.img = s.img := by rw [← hs0]
  have hm0 := hm.of_sameVol hvol
  have hl0 := hl.of_shape hvol.shape
  have ha0 : s0.fs.desc.alloc = .freelist := by rw [shape_desc hvol.shape]; exact ha
  have hlist : (blocksFrom s0.fs.isize s0.fs.fsize).map (interleaved s0.fs) =
    (blocksFrom s.fs.isize s.fs.fsize).map (interleaved s.fs) := by
    rw [← hs0]
    rfl
  have hcore : Core s0 [] [] := core_empty (by rw [← hs0])
  rw [hlist, shape_isize hvol.shape]
  refine post_bind ((freeUnmarked_spec _ bmap _ _ 0 hm0 hl0 hcore ?_ (fun b hb => ?_) fun _ _ =>
    List.not_mem_nil).mono ?_ fun _ _ h => h)
  · exact (interleaved_perm s.fs).nodup_iff.mpr (nodup_blocksFrom _ _)
  · exact (shape_inData hvol.shape).mpr ((dataBlock_iff_inData hl).mp ((hmem b).mp hb))
  rintro n t hfreed
  have hsp : ∀ b, b ∈ ((blocksFrom s.fs.isize s.fs.fsize).map (interleaved s.fs)).filter
      (spared (opsDataEnd s.fs - opsDataStart s.fs) bmap s.fs.isize) ↔ Unmarked s.fs bmap b := by
    intro b
    rw [List.mem_filter, hmem, ← hstart]
    constructor
    · rintro ⟨hb, h⟩
      exact (spared_iff hm hl bmap hb).mp h
    · intro h
      exact ⟨h.1, (spared_iff hm hl bmap h.1).mpr h⟩
  have hreb : Rebuilt s (Unmarked s.fs bmap) t :=
    (hfreed.rebuilt hm0 ha0 hl0 (fun b hb => (hsp b).mp hb) fun _ b hb => (hsp b).mpr hb).after hvol
    himg (Nat.le_of_eq (by rw [← hs0]))
  have hmt := hm.of_sameVol hreb.toSameVol
  refine post_bind ((countLive_spec _ 1 0 t).mono ?_ fun _ _ h => h)
  intro used u hu
  have hset : Kept u { u with fs := { u.fs with tinode := v7Maxinode s0.fs - used } } :=
    ⟨⟨rfl, rfl, rfl⟩, rfl, fun _ _ => rfl⟩
  have hk := kept_law.trans (kept_of_readOnly hmt.solo hu) hset
  exact post_bindMod (post_bind (post_attempt_flush (hmt.of_sameVol hk.toSameVol) fun _ v hv =>
    hreb.kept hm (.of_kept (kept_law.trans hk hv))))

omit hm hl ha in
/-- The table numbers a hundred blocks, each once. -/
theorem v6Adr_perm : (v6Adr 100 0 []).Nodup ∧ ∀ a ∈ v6Adr 100 0 [], 1 ≤ a ∧ a ≤ 100 := by decide +kernel

omit hm hl ha in
theorem mem_v6Order {dstart fsize k b : Nat} (h : b ∈ v6Order dstart fsize k) :
    dstart ≤ b ∧ b < fsize ∧ b < k * 100 := by
  induction k with
  | zero => exact absurd h List.not_mem_nil
  | succ k ih =>
    rw [v6Order, List.mem_append] at h
    rcases h with h | h
    · obtain ⟨a, ha, rfl⟩ := List.mem_map.mp h
      obtain ⟨hmem, hcond⟩ := List.mem_filter.mp ha
      have hrange := v6Adr_perm.2 a hmem
      simp only [Bool.and_eq_true, decide_eq_true_eq] at hcond
      omega
    · have := ih h
      omega

omit hm hl ha in
theorem nodup_v6Order (dstart fsize k : Nat) : (v6Order dstart fsize k).Nodup := by
  induction k with
  | zero => exact List.nodup_nil
  | succ k ih =>
    rw [v6Order, List.nodup_append]
    refine ⟨List.Nodup.map_on ?_ (v6Adr_perm.1.filter _), ih, ?_⟩
    · intro a ha a' ha' heq
      have hc := (List.mem_filter.mp ha).2
      have hc' := (List.mem_filter.mp ha').2
      simp only [Bool.and_eq_true, decide_eq_true_eq] at hc hc'
      omega
    · -- a hundred blocks at a time: the lower hundreds lie below
      intro b hb b' hb'
      obtain ⟨a, ha, rfl⟩ := List.mem_map.mp hb
      have hrange := v6Adr_perm.2 a (List.mem_filter.mp ha).1
      have hlow := (mem_v6Order hb').2.2
      omega

theorem v6Makefree_spec (h6 : s.fs.desc.ops = .v6) (hcount : s.fs.desc.isizeCount = true) :
    Post (v6Makefree (opsDataEnd s.fs - opsDataStart s.fs) bmap s)
    (fun _ t => Rebuilt s (Unmarked s.fs bmap) t) fun _ _ => False := by
  have hstart : opsDataStart s.fs = v6DataStart s.fs.isize := by
    rw [dataStart_eq hl]
    unfold v7DataFirst
    rw [hcount]
    rfl
  have hend : opsDataEnd s.fs = s.fs.fsize := dataEnd_eq hl
  refine post_bindMod (post_bindFs ?_)
  generalize hs0 : ({ s with fs := { s.fs with nfree := 0, ninode := 0 } } : Mnt) = s0
  have hvol : SameVol s s0 := hs0 ▸ ⟨rfl, rfl, rfl⟩
  have himg : s0.img = s.img := by rw [← hs0]
  have hm0 := hm.of_sameVol hvol
  have hl0 := hl.of_shape hvol.shape
  have ha0 : s0.fs.desc.alloc = .freelist := by rw [shape_desc hvol.shape]; exact ha
  have h60 : s0.fs.desc.ops = .v6 := by rw [shape_desc hvol.shape]; exact h6
  have hcore : Core s0 [] [] := core_empty (by rw [← hs0])
  rw [shape_isize hvol.shape, shape_fsize hvol.shape, ← hstart]
  have hdata : ∀ b k, b ∈ v6Order (opsDataStart s.fs) s.fs.fsize k → DataBlock s.fs b := by
    intro b k hb
    have := mem_v6Order hb
    exact ⟨this.1, by rw [hend]; exact this.2.1⟩
  refine post_bind ((freeUnmarked_spec _ bmap _ _ 0 hm0 hl0 hcore (nodup_v6Order _ _ _) (fun b hb => ?_)
    fun _ _ => List.not_mem_nil).mono ?_
    fun _ _ h => h)
  · exact (shape_inData hvol.shape).mpr ((dataBlock_iff_inData hl).mp (hdata b _ hb))
  rintro n t hfreed
  have hreb : Rebuilt s (Unmarked s.fs bmap) t := by
    refine (hfreed.rebuilt hm0 ha0 hl0 (fun b hb => ?_) fun hne => absurd h60 hne).after hvol himg
      (Nat.le_of_eq (by rw [← hs0]))
    obtain ⟨hmem, hsp⟩ := List.mem_filter.mp hb
    exact (spared_iff hm hl bmap (hdata b _ hmem)).mp hsp
  have hmt := hm.of_sameVol hreb.toSameVol
  exact post_bind (post_attempt_flush hmt fun _ v hv => hreb.kept hm (.of_kept hv))

end List

/-! ## Bit maps -/

/-- The bounds of a V8 bit map are those its geometry gives. -/
structure MapShape (fs : Fs) : Prop where
  big : fs.desc.freemap = .bigmap →
    fs.v8Nblks = (fs.fsize + fs.desc.bsize * 8 - 1) % 2 ^ 32 / (fs.desc.bsize * 8) ∧
    fs.v8BlkStart = fs.fsize - fs.v8Nblks ∧ fs.v8Base = 0 ∧ fs.v8Nbits = fs.fsize
  small : fs.desc.freemap ≠ .bigmap → fs.v8Nblks = 0 ∧ fs.v8Base = fs.isize ∧ fs.v8Nbits = fs.fsize - fs.isize

theorem bigmapFlush_spec {s : Mnt} (hm : Mounted s) (hstart : opsDataEnd s.fs ≤ s.fs.v8BlkStart) (todo k : Nat)
    (hend : s.fs.v8BlkStart + k + todo ≤ s.fs.fsize) :
    Post (bigmapFlush todo k s) (fun _ t => KeptArea s t) fun _ t => KeptArea s t := by
  induction todo generalizing k s with
  | zero => exact keptArea_law.refl s
  | succ todo ih =>
    refine post_bindFs (post_bind (post_failAs (hm.post_write (by omega) (fun _ => ?_) fun _ _ =>
      .of_kept (kept_ticked s))))
    generalize hs1 : putAt .bitmap (s.fs.v8BlkStart + k) (window s.fs.v8Bits (k * s.fs.desc.bsize)
      (bigmapBytes s.fs k)) s = s1
    have hk : KeptArea s s1 := by
      rw [← hs1]
      refine ⟨putAt_sameVol .., rfl, ?_⟩
      intro b _ hb
      exact blockOf_putBlock_ne (by omega) _ _
    have hstart1 : s1.fs.v8BlkStart = s.fs.v8BlkStart := congrArg Shape.v8BlkStart hk.shape
    refine (ih (hm.of_sameVol hk.toSameVol) ?_ (k + 1) ?_).mono (fun _ _ h => keptArea_law.trans hk h)
      fun _ _ h => keptArea_law.trans hk h
    · rw [shape_dataEnd hk.shape, hstart1]
      exact hstart
    · rw [hstart1, shape_fsize hk.shape]
      omega

theorem v8BitmapSync_spec {s : Mnt} (hm : Mounted s) (h1 : s.fs.desc.ops ≠ .v1) (hs : MapShape s.fs) :
    Post (v8BitmapSync s) (fun _ t => KeptArea s t) fun _ t => KeptArea s t := by
  have hsuper : ∀ {t : Mnt}, KeptArea s t → Post (v7fsSuperWrite t) (fun _ u => KeptArea s u) fun _ u =>
    KeptArea s u := by
    intro t hk
    have hmt := hm.of_sameVol hk.toSameVol
    refine hmt.post_superWrite (fun _ _ => keptArea_law.trans hk (.of_kept (kept_flushed hmt)))
      fun i j _ _ => ?_
    have hset : Kept t { t with ios := i, ticks := j } := ⟨⟨rfl, rfl, rfl⟩, rfl, fun _ _ => rfl⟩
    exact keptArea_law.trans hk (.of_kept hset)
  refine post_bindFs (post_ite (fun h => absurd h (by simp [hm.writable])) fun _ =>
    post_bind (post_onlyIf (fun hbig => ?_) fun _ => ?_))
  · obtain ⟨-, hstart, -⟩ := hs.big hbig
    have hroom := hm.room
    have hend : opsDataEnd s.fs = s.fs.fsize - s.fs.v8Nblks := by
      unfold opsDataEnd
      split
      · exact absurd ‹_› h1
      · exact absurd ‹_› hm.notPdp7
      · rfl
    exact (bigmapFlush_spec hm (by omega) _ 0 (by omega)).mono (fun _ _ h => hsuper h) fun _ _ h => h
  · exact hsuper (keptArea_law.refl s)

/-- Whether the rebuild of a V8 map sets bit `i`. -/
def v8Spared (nblk : Nat) (bmap : Buf) (fs : Fs) (i : Nat) : Bool :=
  decide (fs.isize ≤ fs.v8Base + i) && decide (fs.v8Base + i - fs.isize < nblk) &&
  !getBit bmap (fs.v8Base + i - fs.isize)

theorem with_bounds {fs : Fs} {nblks start base nbits : Nat} (h1 : nblks = fs.v8Nblks)
    (h2 : start = fs.v8BlkStart)
    (h3 : base = fs.v8Base) (h4 : nbits = fs.v8Nbits) :
    { fs with v8Nblks := nblks, v8BlkStart := start, v8Base := base, v8Nbits := nbits } = fs := by
  subst h1 h2 h3 h4
  rfl

/-- The bounds a rebuild computes are those the mount has. -/
theorem MapShape.bounds {fs : Fs} (hs : MapShape fs) : (if fs.desc.freemap = .bigmap then
      let nblks := (fs.fsize + fs.desc.bsize * 8 - 1) % 2 ^ 32 / (fs.desc.bsize * 8)
      { fs with v8Nblks := nblks, v8BlkStart := fs.fsize - nblks, v8Base := 0, v8Nbits := fs.fsize }
    else { fs with v8Nblks := 0, v8Base := fs.isize, v8Nbits := fs.fsize - fs.isize }) = fs := by
  split
  · obtain ⟨e1, e2, e3, e4⟩ := hs.big ‹_›
    exact with_bounds e1.symm (by rw [← e1]; exact e2.symm) e3.symm e4.symm
  · obtain ⟨e1, e2, e3⟩ := hs.small ‹_›
    exact with_bounds e1.symm rfl e2.symm e3.symm

/-- The data area of an edition with a V8 map. -/
theorem v8_dataArea {s : Mnt} (hm : Mounted s) (h1 : s.fs.desc.ops ≠ .v1)
    (hcount : s.fs.desc.isizeCount = false) :
    opsDataStart s.fs = s.fs.isize ∧ opsDataEnd s.fs = s.fs.fsize - s.fs.v8Nblks := by
  constructor
  · unfold opsDataStart
    split
    · exact absurd ‹_› h1
    · exact absurd ‹_› hm.notPdp7
    · unfold v7DataFirst
      rw [hcount]
      rfl
  · unfold opsDataEnd
    split
    · exact absurd ‹_› h1
    · exact absurd ‹_› hm.notPdp7
    · rfl

/-- The bits the rebuild sets are those of the unmarked data blocks. -/
theorem v8Spared_iff {s : Mnt} (hm : Mounted s) (h1 : s.fs.desc.ops ≠ .v1)
    (hcount : s.fs.desc.isizeCount = false) (hs : MapShape s.fs)
    (bmap : Buf) {b : Nat} :
    (s.fs.v8Base ≤ b ∧ b < s.fs.v8Base + s.fs.v8Nbits ∧
      v8Spared (opsDataEnd s.fs - opsDataStart s.fs) bmap s.fs (b - s.fs.v8Base) = true) ↔
      Unmarked s.fs bmap b := by
  obtain ⟨hstart, hend⟩ := v8_dataArea hm h1 hcount
  have hcover : DataBlock s.fs b → s.fs.v8Base ≤ b ∧ b < s.fs.v8Base + s.fs.v8Nbits := by
    intro hb
    have := hb.1
    have := hb.2
    by_cases hbig : s.fs.desc.freemap = .bigmap
    · obtain ⟨-, -, e3, e4⟩ := hs.big hbig
      omega
    · obtain ⟨-, e2, e3⟩ := hs.small hbig
      omega
  unfold Unmarked v8Spared
  simp only [Bool.and_eq_true, decide_eq_true_eq, Bool.not_eq_true']
  constructor
  · intro h
    obtain ⟨h1, h2, ⟨h3, h4⟩, h5⟩ := h
    rw [Nat.add_sub_of_le h1] at h3 h4 h5
    exact ⟨⟨by omega, by omega⟩, by rw [hstart]; exact h5⟩
  · rintro ⟨hb, h5⟩
    obtain ⟨h1, h2⟩ := hcover hb
    have := hb.1
    have := hb.2
    rw [Nat.add_sub_of_le h1, ← hstart]
    exact ⟨h1, h2, ⟨by omega, by omega⟩, h5⟩

theorem v8MakefreeBitmap_spec {s : Mnt} (hm : Mounted s) (ha : s.fs.desc.alloc = .v8bitmap)
    (h1 : s.fs.desc.ops ≠ .v1)
    (hcount : s.fs.desc.isizeCount = false) (hs : MapShape s.fs) (bmap : Buf) :
    Post (v8MakefreeBitmap (opsDataEnd s.fs - opsDataStart s.fs) bmap s)
    (fun _ t => Rebuilt s (Unmarked s.fs bmap) t) fun _ _ => False := by
  apply post_bindMod
  rw [hs.bounds]
  refine post_bindFs (post_bindMod ?_)
  change Post ((attempt v8BitmapSync >>= fun _ => _) { s with fs := { s.fs with
    v8Bits := fillBits (v8Spared (opsDataEnd s.fs - opsDataStart s.fs) bmap s.fs) s.fs.v8Nbits zeroBuf
    nfree := 0, ninode := 0, tfree :=
    ((List.range s.fs.v8Nbits).filter (v8Spared (opsDataEnd s.fs - opsDataStart s.fs) bmap s.fs)).length,
    tinode := 0 } }) _ _
  generalize hfree : v8Spared (opsDataEnd s.fs - opsDataStart s.fs) bmap s.fs = free
  generalize hs1 : ({ s with fs := { s.fs with
    v8Bits := fillBits free s.fs.v8Nbits zeroBuf
    nfree := 0, ninode := 0, tfree := ((List.range s.fs.v8Nbits).filter free).length, tinode := 0 } } :
    Mnt) = s1
  have hvol : SameVol s s1 := hs1 ▸ ⟨rfl, rfl, rfl⟩
  have himg : s1.img = s.img := by rw [← hs1]
  have hbits : s1.fs.v8Bits = fillBits free s.fs.v8Nbits zeroBuf := by rw [← hs1]
  have ha1 : s1.fs.desc.alloc = .v8bitmap := by rw [shape_desc hvol.shape]; exact ha
  have hiff : ∀ b, IsFree s1 b ↔ Unmarked s.fs bmap b := by
    intro b
    rw [isFree_v8bitmap ha1, show s1.fs.v8Base = s.fs.v8Base from congrArg Shape.v8Base hvol.shape,
      show s1.fs.v8Nbits = s.fs.v8Nbits from congrArg Shape.v8Nbits hvol.shape, hbits, getBit_fillBits,
      getBit_zeroBuf, Bool.or_false, ← hfree,
      ← v8Spared_iff hm h1 hcount hs bmap]
    simp only [Bool.and_eq_true, decide_eq_true_eq]
    constructor
    · intro hr
      obtain ⟨h2, h3, -, h4⟩ := hr
      exact ⟨h2, h3, h4⟩
    · rintro ⟨h2, h3, h4⟩
      exact ⟨h2, h3, by omega, h4⟩
  have hops1 : s1.fs.desc.ops ≠ .v1 := by rw [shape_desc hvol.shape]; exact h1
  have hreb : Rebuilt s (Unmarked s.fs bmap) s1 := by
    refine ⟨hvol, (spaceOk_v8bitmap ha1).mpr ⟨hops1, ?_⟩, fun b hb => (hiff b).mp hb,
      fun _ _ b hb => (hiff b).mpr hb, ?_⟩
    · intro b hb
      exact (shape_dataBlock hvol.shape).mpr ((hiff b).mp hb).1
    · intro x _ _ _
      rw [himg]
  have hshape : MapShape s1.fs := hs1 ▸ ⟨hs.big, hs.small⟩
  exact post_bind (post_attempt ((v8BitmapSync_spec (hm.of_sameVol hvol) hops1 hshape).mono
    (fun _ _ h => hreb.kept hm h)
    fun _ _ h => hreb.kept hm h))

theorem v1fsMakefree_spec {s : Mnt} (hm : Mounted s) (ha : s.fs.desc.alloc = .bitmap)
    (hv : s.fs.desc.ops = .v1) (bmap : Buf) :
    Post (v1fsMakefree bmap s) (fun _ t => Rebuilt s (Unmarked s.fs bmap) t) fun _ _ => False := by
  have hstart : opsDataStart s.fs = v1DataStart s.fs.maxino := by unfold opsDataStart; rw [hv]
  have hend : opsDataEnd s.fs = s.fs.fsize := by unfold opsDataEnd; rw [hv]
  refine post_bindFs (post_bindMod ?_)
  rw [← hstart]
  generalize hfree : (fun b => decide (opsDataStart s.fs ≤ b) && !getBit bmap (b - opsDataStart s.fs)) = free
  generalize hs1 : ({ s with fs := { s.fs with
    freemap := fillBits free s.fs.fsize zeroBuf, tfree :=
    ((List.range s.fs.fsize).filter free).length } } : Mnt) = s1
  have hvol : SameVol s s1 := hs1 ▸ ⟨rfl, rfl, rfl⟩
  have himg : s1.img = s.img := by rw [← hs1]
  have hmap : s1.fs.freemap = fillBits free s.fs.fsize zeroBuf := by rw [← hs1]
  have ha1 : s1.fs.desc.alloc = .bitmap := by rw [shape_desc hvol.shape]; exact ha
  have hv1 : s1.fs.desc.ops = .v1 := by rw [shape_desc hvol.shape]; exact hv
  have hiff : ∀ b, IsFree s1 b ↔ Unmarked s.fs bmap b := by
    intro b
    rw [isFree_bitmap ha1, shape_dataBlock hvol.shape, hmap, getBit_fillBits,
      getBit_zeroBuf, Bool.or_false, ← hfree]
    unfold Unmarked
    simp only [Bool.and_eq_true, decide_eq_true_eq, Bool.not_eq_true']
    constructor
    · intro hr
      obtain ⟨hb, -, -, h⟩ := hr
      exact ⟨hb, h⟩
    · rintro ⟨hb, h⟩
      exact ⟨hb, hend ▸ hb.2, hb.1, h⟩
  have hreb : Rebuilt s (Unmarked s.fs bmap) s1 := by
    refine ⟨hvol, (spaceOk_bitmap ha1).mpr hv1, fun b hb => (hiff b).mp hb, fun _ _ b hb => (hiff b).mpr hb, ?_⟩
    intro x _ _ _
    rw [himg]
  exact post_bind (post_attempt ((hm.of_sameVol hvol).post_v1SuperWrite hv1
    (fun _ h _ => hreb.kept hm (.of_kept h))
    fun _ _ _ h => hreb.kept hm (.of_kept h)))

/-! ## Every byte-addressed edition -/

/-- What the descriptors of the byte-addressed editions settle: which of the rebuilds runs, on which layout. -/
inductive Rebuildable (fs : Fs) : Prop
  | list : fs.desc.alloc = .freelist → fs.desc.freemap = .list →
  (fs.desc.ops = .v6 ↔ fs.desc.isizeCount = true) → ListLayout fs →
      Rebuildable fs
  | map : fs.desc.alloc = .v8bitmap → fs.desc.freemap ≠ .list → fs.desc.ops ≠ .v1 → fs.desc.ops ≠ .v6 →
    fs.desc.isizeCount = false →
      MapShape fs → Rebuildable fs
  | v1 : fs.desc.alloc = .bitmap → fs.desc.ops = .v1 → Rebuildable fs

theorem Rebuildable.of_shape {fs fs' : Fs} (h : Rebuildable fs) (hsh : shape fs' = shape fs) :
    Rebuildable fs' := by
  have hd := shape_desc hsh
  cases h with
  | list ha hmap h6 hl =>
    exact .list (by rw [hd]; exact ha) (by rw [hd]; exact hmap) (by rw [hd]; exact h6) (hl.of_shape hsh)
  | map ha hmap h1 h6 hcount hs =>
    refine .map (by rw [hd]; exact ha) (by rw [hd]; exact hmap) (by rw [hd]; exact h1)
      (by rw [hd]; exact h6) (by rw [hd]; exact hcount) ⟨?_, ?_⟩
    · rw [hd, shape_fsize hsh, shape_nblks hsh, show fs'.v8BlkStart =
        fs.v8BlkStart from congrArg Shape.v8BlkStart hsh,
        show fs'.v8Base = fs.v8Base from congrArg Shape.v8Base hsh, show fs'.v8Nbits =
        fs.v8Nbits from congrArg Shape.v8Nbits hsh]
      exact hs.big
    · rw [hd, shape_fsize hsh, shape_nblks hsh, shape_isize hsh,
        show fs'.v8Base = fs.v8Base from congrArg Shape.v8Base hsh, show fs'.v8Nbits =
        fs.v8Nbits from congrArg Shape.v8Nbits hsh]
      exact hs.small
  | v1 ha hv => exact .v1 (by rw [hd]; exact ha) (by rw [hd]; exact hv)

/-- `ops->makefree`: the free space is made out of the unmarked data blocks. -/
theorem makefree_spec {s : Mnt} (hm : Mounted s) (hr : Rebuildable s.fs) (bmap : Buf) :
    Post (makefree (opsDataEnd s.fs - opsDataStart s.fs) bmap s)
    (fun _ t => Rebuilt s (Unmarked s.fs bmap) t) fun _ _ => False := by
  cases hr with
  | list ha hmap h6 hl =>
    apply post_bindFs
    have hv7 : s.fs.desc.isizeCount = false →
        Post (v7fsMakefree (opsDataEnd s.fs - opsDataStart s.fs) bmap s)
        (fun _ t => Rebuilt s (Unmarked s.fs bmap) t) fun _ _ => False :=
      fun hcount => post_bindFs (post_ite (fun h => absurd hmap h) fun _ =>
        v7fsMakefreeList_spec hm ha hl bmap hcount)
    cases hops : s.fs.desc.ops with
    | v1 => exact absurd hops hl.notV1
    | pdp7 => exact absurd hops hl.notPdp7
    | v6 => exact v6Makefree_spec hm ha hl bmap hops (h6.mp hops)
    | v7 | bsd211 =>
      refine hv7 (Bool.eq_false_iff.mpr fun h => ?_)
      have := h6.mpr h
      rw [hops] at this
      cases this
  | map ha hmap h1 h6 hcount hs =>
    have hv7 : Post (v7fsMakefree (opsDataEnd s.fs - opsDataStart s.fs) bmap s)
      (fun _ t => Rebuilt s (Unmarked s.fs bmap) t) fun _ _ => False :=
      post_bindFs (post_ite (fun _ => v8MakefreeBitmap_spec hm ha h1 hcount hs bmap) fun h =>
        absurd (not_not.mp h) hmap)
    apply post_bindFs
    cases hops : s.fs.desc.ops with
    | v1 => exact absurd hops h1
    | pdp7 => exact absurd hops hm.notPdp7
    | v6 => exact absurd hops h6
    | v7 | bsd211 => exact hv7
  | v1 ha hv =>
    apply post_bindFs
    rw [hv]
    exact v1fsMakefree_spec hm ha hv bmap

end Filsys.Alloc
