/-
  Filsys.Alloc.Totals — the in-core totals after a rebuild.

  `makefree` rebuilds the free space and leaves two numbers beside it: how many blocks
  are free, which should be how many `balloc` can hand out (`BlocksRight`), and how many
  inodes are free on the i-list (`InodesRight`). A free-list rebuild counts both anew;
  the others count the blocks and leave the inode total alone, or clear it.
-/

import Filsys.Alloc.Prefix
import Filsys.Alloc.Regrow
import Filsys.Alloc.Stride

namespace Filsys.Alloc

open Filsys.Lib Filsys.Engine

/-! ## The totals -/

/-- `balloc`, called for ever, returns `n` blocks. -/
def HandsOut (t : Mnt) (n : Nat) : Prop := ∃ N, ∀ k, N ≤ k → (ballocs k t).length = n

/-- Inodes of the V7 family an allocation may take. -/
def freeInodesV7 (t : Mnt) : Nat :=
  ((List.range (v7Maxinode t.fs)).filter fun i => !inodeLive t.fs.desc
    ((inodeOf t.fs t.img (i + 1)).mode % 65536)).length

/-- The inodes the inode allocator of the mount takes for free, among those the i-list has room for. -/
def freeInodes (t : Mnt) : Nat :=
  match t.fs.desc.ops with
  | .v1 => ((List.range (t.fs.maxino + 1 - 41)).filter fun i => !getBit t.fs.inodemap i).length
  | .pdp7 =>
    ((List.range p7Maxino).filter fun i =>
      !has (wordsOf t.fs t.img (p7Itod (i + 1)) (p7Itoo (i + 1))) 0o400000).length
  | _ => freeInodesV7 t

def BlocksRight (t : Mnt) : Prop := HandsOut t t.fs.tfree

def InodesRight (t : Mnt) : Prop := t.fs.tinode = freeInodes t

theorem freeInodes_v7 {t : Mnt} (hv : t.fs.desc.ops ≠ .v1) (hp : t.fs.desc.ops ≠ .pdp7) :
    freeInodes t = freeInodesV7 t := by
  unfold freeInodes
  cases hops : t.fs.desc.ops with
  | v1 => exact absurd hops hv
  | pdp7 => exact absurd hops hp
  | v6 => rfl
  | v7 => rfl
  | bsd211 => rfl

/-- Neither the inode total nor what it should be has changed. -/
def SameInodes (s t : Mnt) : Prop := t.fs.tinode = s.fs.tinode ∧ freeInodes t = freeInodes s

theorem SameInodes.right {s t : Mnt} (h : SameInodes s t) (hs : InodesRight s) : InodesRight t :=
  h.1.trans (hs.trans h.2.symm)

/-! ## Handing out -/

theorem handsOut_of_free {t : Mnt} {F : List Nat} (hm : Mounted t) (hok : SpaceOk t)
    (hq : ∀ k, t.env.fails k = false) (hnd : F.Nodup)
    (hfree : ∀ b, b ∈ F ↔ IsFree t b) : HandsOut t F.length := by
  refine ⟨t.fs.fsize + 1, fun k hk => ?_⟩
  obtain ⟨hnd', hsub, -⟩ := ballocs_spec hm hok hq k
  refine List.Perm.length_eq ((List.perm_ext_iff_of_nodup hnd' hnd).mpr fun b =>
    ⟨fun hb => (hfree b).mpr (hsub b hb), fun hb => ?_⟩)
  have hcount := ballocs_all hm hok hq (by omega : t.fs.fsize < k) ((hfree b).mp hb)
  exact List.count_pos_iff.mp (by omega)

/-- Fewer blocks are free than there are. -/
theorem length_lt_fsize {t : Mnt} {F : List Nat} (hm : Mounted t) (hnd : F.Nodup)
    (hin : ∀ b ∈ F, DataBlock t.fs b) : F.length < t.fs.fsize := by
  have hnd' : (0 :: F).Nodup := List.nodup_cons.mpr ⟨fun h => by have := (hin 0 h).two_le hm; omega, hnd⟩
  have hle : (0 :: F).length ≤ t.fs.fsize := by
    refine nodup_length_le hnd' fun b hb => ?_
    rcases List.mem_cons.mp hb with rfl | hb
    · have := hm.one_lt
      omega
    · exact (hin b hb).lt_fsize hm
  exact hle

/-! ## Free lists -/

section List

variable {s : Mnt} (hm : Mounted s) (ha : s.fs.desc.alloc = .freelist) (hl : ListLayout s.fs)
    (hq : ∀ k, s.env.fails k = false)

include hm hl

/-- Counted from nothing, the total is the length of the list. -/
theorem Relisted.blocksRight {F : List Nat} {t : Mnt} (ha : s.fs.desc.alloc = .freelist)
    (hq : ∀ k, s.env.fails k = false) (h : Relisted s F t)
    (h0 : s.fs.tfree = 0) : BlocksRight t := by
  have hmt := hm.of_sameVol h.toSameVol
  have hlt := hl.of_shape h.shape
  have hat : t.fs.desc.alloc = .freelist := by rw [shape_desc h.shape]; exact ha
  obtain ⟨L, K, hc, hperm⟩ := h.core
  have hlen : F.length < 2 ^ 32 := by
    have hsmall : t.fs.fsize ≤ 2 ^ 32 := by
      refine Nat.le_trans hlt.addr ?_
      split <;> decide
    have := length_lt_fsize hmt hc.nodup fun b hb => (dataBlock_iff_inData hlt).mpr (hc.chain.inData b hb)
    rw [hperm.length_eq] at this
    omega
  have htotal : t.fs.tfree = L.length := by
    rw [h.tfree (by rw [h0]; decide), h0, Nat.zero_add, Nat.mod_eq_of_lt hlen, hperm.length_eq]
  show HandsOut t t.fs.tfree
  rw [htotal]
  exact handsOut_of_free hmt ((spaceOk_freelist hat).mpr ⟨hlt, L, K, hc⟩) (by rw [h.env]; exact hq) hc.nodup
    fun b => (isFree_core hmt hat hlt hc).symm

/-- A rebuild writes to the data area and the superblock: the i-list stays. -/
theorem Relisted.freeInodes_eq {F : List Nat} {t : Mnt} (h : Relisted s F t)
    (hin : ∀ b ∈ F, InData s.fs b) : freeInodes t = freeInodes s := by
  have hdesc := shape_desc h.shape
  have hopb : v7Inopb t.fs = v7Inopb s.fs := by unfold v7Inopb; rw [hdesc]
  have hmax : v7Maxinode t.fs = v7Maxinode s.fs := by unfold v7Maxinode; rw [hdesc, hopb, shape_isize h.shape]
  have hinode : ∀ n, 1 ≤ n → n ≤ v7Maxinode s.fs → inodeOf t.fs t.img n = inodeOf s.fs s.img n := by
    intro n h1 hn
    have hlist := v7Itod_lt (dataStart_eq hl ▸ hm.first) h1 hn
    rw [ilistEnd_eq] at hlist
    have hblk : blockOf t.fs t.img (v7Itod s.fs n) = blockOf s.fs s.img (v7Itod s.fs n) := by
      rw [shape_blockOf h.shape]
      refine h.blocks _ (Nat.le_add_right 2 _) fun hF => ?_
      have := (hin _ hF).1
      omega
    unfold inodeOf
    rw [hdesc, show v7Itod t.fs n = v7Itod s.fs n by unfold v7Itod; rw [hopb], show v7Itoo t.fs n =
      v7Itoo s.fs n by unfold v7Itoo; rw [hopb], hblk]
  rw [freeInodes_v7 hl.notV1 hl.notPdp7, freeInodes_v7 (by rw [hdesc]; exact hl.notV1)
    (by rw [hdesc]; exact hl.notPdp7)]
  unfold freeInodesV7
  rw [hmax, hdesc]
  refine congrArg List.length (List.filter_congr fun i hi => ?_)
  rw [hinode (i + 1) (by omega) (List.mem_range.mp hi)]

end List

/-- The number of `ino, …, ino + todo - 1` the allocator counts as live. -/
def liveFrom (s : Mnt) (todo ino : Nat) : Nat :=
  ((List.range todo).filter fun i => inodeLive s.fs.desc ((inodeOf s.fs s.img (ino + i)).mode % 65536)).length

theorem liveFrom_succ (s : Mnt) (todo ino : Nat) : liveFrom s (todo + 1) ino =
    (if inodeLive s.fs.desc ((inodeOf s.fs s.img ino).mode % 65536) then 1 else 0) +
    liveFrom s todo (ino + 1) := by
  unfold liveFrom
  rw [List.range_succ_eq_map, List.filter_cons, List.filter_map, Nat.add_zero]
  have hrest : ∀ i, ((fun i => inodeLive s.fs.desc ((inodeOf s.fs s.img (ino + i)).mode % 65536)) ∘
    Nat.succ) i =
      inodeLive s.fs.desc ((inodeOf s.fs s.img (ino + 1 + i)).mode % 65536) := by
    intro i
    show inodeLive _ ((inodeOf _ _ (ino + (i + 1))).mode % 65536) = _
    rw [Nat.add_assoc, Nat.add_comm 1 i]
  rw [funext hrest]
  split
  · rw [List.length_cons, List.length_map, Nat.add_comm]
  · rw [List.length_map, Nat.zero_add]

/-- The live inodes and the free ones are all the inodes. -/
theorem liveFrom_all (s : Mnt) : v7Maxinode s.fs - liveFrom s (v7Maxinode s.fs) 1 = freeInodesV7 s := by
  have hsplit := List.length_eq_length_filter_add (l := List.range (v7Maxinode s.fs))
    fun i => inodeLive s.fs.desc ((inodeOf s.fs s.img (1 + i)).mode % 65536)
  rw [List.length_range] at hsplit
  unfold liveFrom freeInodesV7
  simp only [Nat.add_comm 1] at hsplit ⊢
  omega

section Count

variable {s : Mnt} (hm : Mounted s) (hq : ∀ k, s.env.fails k = false)

include hm hq

/-- Reading an inode of the i-list, no transfer failing. -/
theorem v7fsReadInode_quiet {n : Nat} (h1 : 1 ≤ n) (hn : n ≤ v7Maxinode s.fs) (hfirst : 2 ≤ v7DataFirst s.fs)
    (hdata : v7DataFirst s.fs ≤ s.fs.fsize) :
    Post (v7fsReadInode n s) (fun ip t => ip = inodeOf s.fs s.img n ∧ t = ticked s) fun _ _ => False := by
  have hlist := v7Itod_lt hfirst h1 hn
  refine post_bindFs (post_ite (fun h0 => absurd h0 (by omega)) fun _ =>
    post_ite (fun h0 => absurd h0 (by omega)) fun _ => ?_)
  rw [ilistEnd_eq] at hlist
  refine post_bind (post_failAs (hm.post_read (by omega) (fun _ => ⟨rfl, rfl⟩) fun hf _ => ?_))
  rw [hq] at hf
  cases hf

theorem countLive_counts (todo ino used : Nat) (h1 : 1 ≤ ino) (hend : ino + todo ≤ v7Maxinode s.fs + 1)
    (hfirst : 2 ≤ v7DataFirst s.fs)
    (hdata : v7DataFirst s.fs ≤ s.fs.fsize) :
    Post (countLive todo ino used s) (fun n t => n = used + liveFrom s todo ino ∧ ∃ k,
      t = { s with ios := k }) fun _ _ => False := by
  induction todo generalizing s ino used with
  | zero => exact ⟨rfl, s.ios, rfl⟩
  | succ todo ih =>
    refine post_bindFs (post_bind
      (post_attempt ((v7fsReadInode_quiet hm hq h1 (by omega) hfirst hdata).mono ?_ fun _ _ h => h.elim)))
    intro ip t hr
    obtain ⟨rfl, rfl⟩ := hr
    refine (ih (hm.of_sameVol (ticked_sameVol s)) hq (ino + 1) _ (by omega)
      (by show _ ≤ v7Maxinode s.fs + 1; omega) hfirst hdata).mono ?_ fun _ _ h => h
    intro n t hr
    obtain ⟨rfl, k, rfl⟩ := hr
    refine ⟨?_, k, rfl⟩
    rw [liveFrom_succ]
    show (if inodeLive s.fs.desc ((inodeOf s.fs s.img ino).mode % 65536) then used + 1 else used) +
      liveFrom s todo (ino + 1) = _
    split
    · omega
    · omega

end Count

section Rebuilds

variable {s : Mnt} (hm : Mounted s) (ha : s.fs.desc.alloc = .freelist) (hl : ListLayout s.fs)
    (hq : ∀ k, s.env.fails k = false) (bmap : Buf)

include hm ha hl hq

/-- The V7 rebuild counts both totals anew. -/
theorem v7fsMakefreeList_totals (hcount : s.fs.desc.isizeCount = false) :
    Post (v7fsMakefreeList (opsDataEnd s.fs - opsDataStart s.fs) bmap s) (fun _ t => BlocksRight t ∧
      InodesRight t) fun _ _ => False := by
  refine post_bindMod (post_bindFs ?_)
  generalize hs0 : ({ s with fs := { s.fs with nfree := 0, ninode := 0, tfree := 0, tinode := 0 } } : Mnt) = s0
  have hvol : SameVol s s0 := hs0 ▸ ⟨rfl, rfl, rfl⟩
  have hm0 := hm.of_sameVol hvol
  have hl0 := hl.of_shape hvol.shape
  have ha0 : s0.fs.desc.alloc = .freelist := by rw [shape_desc hvol.shape]; exact ha
  have hq0 : ∀ k, s0.env.fails k = false := by
    rw [hvol.env]
    exact hq
  have hin : ∀ b ∈ (blocksFrom s0.fs.isize s0.fs.fsize).map (interleaved s0.fs), InData s0.fs b := by
    intro b hb
    rw [(interleaved_perm s0.fs).mem_iff, mem_blocksFrom] at hb
    refine ⟨?_, hb.2⟩
    unfold v7DataFirst
    rw [shape_desc hvol.shape, hcount]
    exact hb.1
  refine post_bind ((freeUnmarked_relists hm0 hl0 hq0 (by rw [← hs0]) _ bmap _ ?_ hin).mono ?_ fun _ _ h => h)
  · exact (interleaved_perm s0.fs).nodup_iff.mpr (nodup_blocksFrom _ _)
  intro n t hr
  obtain ⟨ht, -⟩ := hr
  obtain ⟨F, hF, ht⟩ : ∃ F, (∀ b ∈ F, InData s0.fs b) ∧ Relisted s0 F t :=
    ⟨_, fun b hb => hin b (List.mem_filter.mp hb).1, ht⟩
  have hmt := hm0.of_sameVol ht.toSameVol
  have hlt := hl0.of_shape ht.shape
  have hdata : v7DataFirst t.fs ≤ t.fs.fsize := by
    have hroom := hmt.room
    rw [dataStart_eq hlt, dataEnd_eq hlt] at hroom
    exact Nat.le_of_lt hroom
  have hmax : v7Maxinode s0.fs = v7Maxinode t.fs := by
    unfold v7Maxinode v7Inopb
    rw [shape_desc ht.shape, shape_isize ht.shape]
  have hqt : ∀ k, t.env.fails k = false := by
    rw [ht.env]
    exact hq0
  rw [hmax]
  refine post_bind ((countLive_counts hmt hqt _ 1 0 (Nat.le_refl 1) (by omega)
    (dataStart_eq hlt ▸ hmt.first) hdata).mono ?_ fun _ _ h => h)
  intro used u hr
  obtain ⟨rfl, k, rfl⟩ := hr
  rw [Nat.zero_add, liveFrom_all]
  -- the inodes counted are those of the rebuilt volume
  generalize hu : ({ t with ios := k, fs := { t.fs with tinode := freeInodesV7 t } } : Mnt) = u
  have hrel : Relisted s0 F u := by
    rw [← hu]
    exact ht.frame hm0 hl0 ⟨rfl, rfl, rfl⟩ rfl rfl rfl fun _ _ => rfl
  have hinode : u.fs.tinode = freeInodes s0 := by
    rw [← ht.freeInodes_eq hm0 hl0 hF, freeInodes_v7 hlt.notV1 hlt.notPdp7, ← hu]
  apply post_bindMod
  rw [hu]
  refine post_bind ((hrel.flush hm0 hl0).mono (fun _ v hv => ?_) fun _ _ h => h)
  refine ⟨hv.1.blocksRight hm0 hl0 ha0 hq0 (by rw [← hs0]), ?_⟩
  show v.fs.tinode = freeInodes v
  rw [hv.2, hinode, hv.1.freeInodes_eq hm0 hl0 hF]

/-- V6's counts the blocks onto the total it finds, and leaves that of the inodes. -/
theorem v6Makefree_totals (hcount : s.fs.desc.isizeCount = true) :
    Post (v6Makefree (opsDataEnd s.fs - opsDataStart s.fs) bmap s)
    (fun _ t => (s.fs.tfree = 0 → BlocksRight t) ∧
      SameInodes s t) fun _ _ => False := by
  have hin : ∀ b ∈ v6Given s.fs bmap, InData s.fs b := fun b hb =>
    (dataBlock_iff_inData hl).mp ((mem_v6Given hm hl bmap).mp hb).1.1
  refine (v6Makefree_relists hm hl hq hcount bmap).mono (fun _ t ht => ?_) fun _ _ h => h
  refine ⟨?_, ht.2, ht.1.freeInodes_eq hm hl hin⟩
  intro h0
  exact ht.1.blocksRight hm hl ha hq h0

end Rebuilds

/-! ## Bit maps -/

section Maps

variable {s : Mnt} (hm : Mounted s) (hq : ∀ k, s.env.fails k = false) (bmap : Buf)

include hm hq

/-- A rebuilt map hands out what the rebuild has counted. -/
theorem Rebuilt.blocksRight {t : Mnt} {F : List Nat} (h : Rebuilt s (Unmarked s.fs bmap) t)
    (h6 : s.fs.desc.ops ≠ .v6) (hnd : F.Nodup)
    (hF : ∀ b, b ∈ F ↔ Unmarked s.fs bmap b) (htot : t.fs.tfree = F.length) : BlocksRight t := by
  show HandsOut t t.fs.tfree
  rw [htot]
  refine handsOut_of_free (hm.of_sameVol h.toSameVol) h.ok (by rw [h.env]; exact hq) hnd fun b => ?_
  rw [hF b]
  exact ⟨h.all h6 (onward_of_quiet hq) b, h.sub b⟩

/-- The V8 rebuild counts the blocks and clears the inode total. -/
theorem v8MakefreeBitmap_totals (ha : s.fs.desc.alloc = .v8bitmap) (h1 : s.fs.desc.ops ≠ .v1)
    (h6 : s.fs.desc.ops ≠ .v6)
    (hcount : s.fs.desc.isizeCount = false) (hs : MapShape s.fs) :
    Post (v8MakefreeBitmap (opsDataEnd s.fs - opsDataStart s.fs) bmap s) (fun _ t => BlocksRight t ∧
      t.fs.tinode = 0) fun _ _ => False := by
  have htotals : Post (v8MakefreeBitmap (opsDataEnd s.fs - opsDataStart s.fs) bmap s) (fun _ t =>
      t.fs.tfree = ((List.range s.fs.v8Nbits).filter
        (v8Spared (opsDataEnd s.fs - opsDataStart s.fs) bmap s.fs)).length ∧ t.fs.tinode = 0)
      fun _ _ => True := by
    apply post_bindMod
    rw [hs.bounds]
    refine post_bindFs (post_bindMod
      (post_bind (post_keeps (keeps_attempt (SameIn.v8BitmapSync (f := fun fs => (fs.tfree, fs.tinode))
      fun _ _ => rfl))
      (fun _ t ht => ?_) fun _ _ _ => trivial)))
    exact ⟨congrArg Prod.fst ht, congrArg Prod.snd ht⟩
  refine ((v8MakefreeBitmap_spec hm ha h1 hcount hs bmap).and htotals).mono ?_ fun _ _ h => h.1
  intro n t hrun
  obtain ⟨hreb, htot, hinode⟩ := hrun
  refine ⟨hreb.blocksRight hm hq bmap h6 (F :=
    ((List.range s.fs.v8Nbits).filter (v8Spared (opsDataEnd s.fs - opsDataStart s.fs) bmap s.fs)).map
    (s.fs.v8Base + ·)) ?_ ?_ (by rw [htot, List.length_map]), hinode⟩
  · exact (List.nodup_range.filter _).map fun a b h => by simpa using h
  · intro b
    rw [← v8Spared_iff hm h1 hcount hs bmap, List.mem_map]
    constructor
    · rintro ⟨i, hi, rfl⟩
      obtain ⟨hr, hsp⟩ := List.mem_filter.mp hi
      rw [Nat.add_sub_cancel_left]
      exact ⟨Nat.le_add_right _ _, by have := List.mem_range.mp hr; omega, hsp⟩
    · intro hrun
      obtain ⟨h1, h2, hsp⟩ := hrun
      exact ⟨b - s.fs.v8Base, List.mem_filter.mpr ⟨List.mem_range.mpr (by omega), hsp⟩, Nat.add_sub_of_le h1⟩

/-- V1's counts the blocks and leaves the inode total. -/
theorem v1fsMakefree_totals (ha : s.fs.desc.alloc = .bitmap) (hv : s.fs.desc.ops = .v1) :
    Post (v1fsMakefree bmap s) (fun _ t => BlocksRight t ∧ SameInodes s t) fun _ _ => False := by
  have hstart : opsDataStart s.fs = v1DataStart s.fs.maxino := by unfold opsDataStart; rw [hv]
  have hend : opsDataEnd s.fs = s.fs.fsize := by unfold opsDataEnd; rw [hv]
  have htotals : Post (v1fsMakefree bmap s) (fun _ t =>
      t.fs.tfree = ((List.range s.fs.fsize).filter fun b => decide (v1DataStart s.fs.maxino ≤ b) &&
        !getBit bmap (b - v1DataStart s.fs.maxino)).length ∧
      t.fs.tinode = s.fs.tinode ∧ t.fs.maxino = s.fs.maxino ∧ t.fs.inodemap = s.fs.inodemap) fun _ _ =>
      True := by
    refine post_bindFs (post_bindMod (post_bind (post_keeps (keeps_attempt (SameIn.v1SuperWrite
      (f := fun fs => (fs.tfree, fs.tinode, fs.maxino, fs.inodemap)) fun _ _ =>
      rfl)) (fun _ t ht => ?_) fun _ _ _ => trivial)))
    simp only [SameIn, Prod.mk.injEq] at ht
    exact ht
  refine ((v1fsMakefree_spec hm ha hv bmap).and htotals).mono ?_ fun _ _ h => h.1
  intro n t hr
  obtain ⟨hreb, htot, hinode, hmax, hmap⟩ := hr
  refine ⟨hreb.blocksRight hm hq bmap (by rw [hv]; decide) (List.nodup_range.filter _) ?_ htot, hinode, ?_⟩
  · intro b
    rw [List.mem_filter, List.mem_range, Unmarked, DataBlock, hstart, hend]
    simp only [Bool.and_eq_true, decide_eq_true_eq, Bool.not_eq_true']
    constructor
    · rintro ⟨h1, h2, h3⟩
      exact ⟨⟨h2, h1⟩, h3⟩
    · intro hr
      obtain ⟨⟨h2, h1⟩, h3⟩ := hr
      exact ⟨h1, h2, h3⟩
  · unfold freeInodes
    rw [shape_desc hreb.shape, hv]
    show ((List.range (t.fs.maxino + 1 - 41)).filter _).length = _
    rw [hmax, hmap]

end Maps

/-! ## PDP-7 -/

/-- The clear ones of `b - 1, b - 2, …` (`todo` of them). -/
def p7Clear (bmap : Buf) : Nat → Nat → List Nat
  | 0, _ => []
  | todo + 1, b =>
    if getBit bmap (b - 1 - p7Datastart) then p7Clear bmap todo (b - 1)
      else (b - 1) :: p7Clear bmap todo (b - 1)

theorem mem_p7Clear {bmap : Buf} {todo b x : Nat} (hle : todo ≤ b) :
    x ∈ p7Clear bmap todo b ↔ clearBelow bmap todo b x := by
  unfold clearBelow
  induction todo generalizing b with
  | zero =>
    rw [p7Clear]
    constructor
    · exact fun h => absurd h List.not_mem_nil
    · omega
  | succ todo ih =>
    rw [p7Clear]
    have hrest := ih (b := b - 1) (by omega)
    split
    · rename_i hset
      rw [hrest]
      constructor
      · rintro ⟨h1, h2, h3⟩
        exact ⟨by omega, by omega, h3⟩
      · rintro ⟨h1, h2, h3⟩
        have hne : x ≠ b - 1 := by
          rintro rfl
          rw [hset] at h3
          cases h3
        exact ⟨by omega, by omega, h3⟩
    · rename_i hclear
      rw [List.mem_cons, hrest]
      constructor
      · intro hr
        rcases hr with rfl | ⟨h1, h2, h3⟩
        · exact ⟨by omega, by omega, Bool.eq_false_iff.mpr hclear⟩
        · exact ⟨by omega, by omega, h3⟩
      · rintro ⟨h1, h2, h3⟩
        by_cases hx : x = b - 1
        · exact .inl hx
        · exact .inr ⟨by omega, by omega, h3⟩

theorem nodup_p7Clear (bmap : Buf) {todo b : Nat} (hle : todo ≤ b) : (p7Clear bmap todo b).Nodup := by
  induction todo generalizing b with
  | zero => exact List.nodup_nil
  | succ todo ih =>
    rw [p7Clear]
    split
    · exact ih (by omega)
    · refine List.nodup_cons.mpr ⟨fun h => ?_, ih (by omega)⟩
      have := ((mem_p7Clear (by omega)).mp h).2.1
      omega

/-- The rebuild returns how many blocks were clear. -/
theorem p7FreeUnmarked_count (bmap : Buf) (todo b nfree : Nat) (s : Mnt) :
    Post (p7FreeUnmarked bmap todo b nfree s) (fun n _ => n = nfree + (p7Clear bmap todo b).length)
    fun _ _ => True := by
  induction todo generalizing b nfree s with
  | zero => rfl
  | succ todo ih =>
    rw [p7Clear]
    apply post_ite
    · intro hset
      rw [if_pos hset]
      exact ih _ _ s
    · intro hclear
      rw [if_neg hclear, List.length_cons]
      refine post_bind ((post_true _).mono (fun _ t _ => ?_) fun _ _ _ => trivial)
      exact (ih _ _ t).mono (fun n _ h => by omega) fun _ _ _ => trivial

section Pdp7

variable {s : Mnt} (hm : Mounted7 s) (hq : ∀ k, s.env.fails k = false) (bmap : Buf)

include hm

/-- What the list names is handed out, as far as it goes. -/
theorem Lists.handsOut (hq : ∀ k, s.env.fails k = false) {L : List Nat} (h : Lists s L) (hnd : L.Nodup)
    (hin : ∀ b ∈ L, WordsIn s b) :
    HandsOut s L.length := by
  refine ⟨L.length, fun k hk => ?_⟩
  rw [ballocs_pdp7 hm hq, h.ballocs7 hm hq hnd hin, List.length_take, Nat.min_eq_right hk]

include hq

/-- The PDP-7 rebuild counts the blocks; nothing counts the inodes. -/
theorem p7fsMakefree_totals (hwhole : ∀ b, p7Datastart ≤ b → b < p7Kdata →
    getBit bmap (b - p7Datastart) = false → WordsIn s b) :
    Post (p7fsMakefree bmap s) (fun _ t => BlocksRight t ∧ SameInodes s t) fun _ _ => False := by
  have htotals : Post (p7fsMakefree bmap s)
    (fun _ t => t.fs.tfree = (p7Clear bmap (p7Kdata - p7Datastart) p7Kdata).length ∧
      t.fs.tinode = s.fs.tinode) fun _ _ => True := by
    refine post_bindMod (post_bind (((p7FreeUnmarked_count bmap _ _ 0 _).and
      ((SameIn.p7FreeUnmarked (f := fun fs => fs.tinode) (fun _ _ => rfl) bmap _ _ 0) _)).mono ?_
      fun _ _ _ => trivial))
    intro n t hr
    obtain ⟨hn, ht⟩ := hr
    refine post_bindMod (post_bind
      (post_keeps (keeps_attempt (SameIn.p7SuperWrite (f := fun fs => (fs.tfree, fs.tinode)) fun _ _ =>
      rfl))
      (fun _ u hu => ?_) fun _ _ _ => trivial))
    refine ⟨(congrArg Prod.fst hu).trans (hn.trans (Nat.zero_add _)), (congrArg Prod.snd hu).trans ht⟩
  refine ((p7fsMakefree_spec hm bmap (nodesGoOut_of_quiet bmap _ _ hq)).and htotals).mono ?_ fun _ _ h => h.1
  intro n t hr
  obtain ⟨hreg, htot, hinode⟩ := hr
  obtain ⟨L, hL, hnd, hsub, hin, hall⟩ := hreg.list
  have hclear : ∀ x, clearBelow bmap (p7Kdata - p7Datastart) p7Kdata x → WordsIn s x :=
    fun x hx => hwhole x hx.1 hx.2.1 hx.2.2
  have hperm : L.Perm (p7Clear bmap (p7Kdata - p7Datastart) p7Kdata) := by
    refine (List.perm_ext_iff_of_nodup hnd (nodup_p7Clear bmap (by decide))).mpr fun x => ?_
    rw [mem_p7Clear (by decide)]
    exact ⟨hsub x, hall (onward_of_quiet hq) hclear x⟩
  refine ⟨?_, hinode, ?_⟩
  · show HandsOut t t.fs.tfree
    rw [htot, ← hperm.length_eq]
    refine hL.handsOut (hm.of_sameVol hreg.toSameVol) (by rw [hreg.env]; exact hq) hnd fun b hb => ?_
    exact (wordsIn_of_sameVol hreg.toSameVol b).mpr (hin b hb)
  · unfold freeInodes
    rw [shape_desc hreg.shape, hm.pdp7]
    refine congrArg List.length (List.filter_congr fun i hi => ?_)
    have hlt : i < 3549 := List.mem_range.mp hi
    have hblk : p7Itod (i + 1) ≠ 0 ∧ ¬ clearBelow bmap (p7Kdata - p7Datastart) p7Kdata (p7Itod (i + 1)) := by
      refine ⟨by unfold p7Itod; omega, fun h => ?_⟩
      have hlo : 712 ≤ p7Itod (i + 1) := h.1
      unfold p7Itod at hlo
      omega
    rw [shape_wordsOf hreg.shape, hreg.words _ hblk.1 hblk.2]

omit hq in
theorem makefree_pdp7 (nblk : Nat) : makefree nblk bmap s = p7fsMakefree bmap s := by
  unfold makefree
  rw [bindFs_run]
  rw [hm.pdp7]

theorem makefree_pdp7_sameInodes (hwhole : ∀ b, p7Datastart ≤ b → b < p7Kdata →
    getBit bmap (b - p7Datastart) = false → WordsIn s b)
    {nblk n : Nat} {t : Mnt} (hr : makefree nblk bmap s = .ok n t) : SameInodes s t := by
  rw [makefree_pdp7 hm] at hr
  exact ((p7fsMakefree_totals hm hq bmap hwhole).of_ok hr).2

end Pdp7

/-! ## Every edition -/

/-- A volume opened read-write, of whatever edition, that holds the blocks its rebuild writes to. -/
inductive Salvageable (s : Mnt) (bmap : Buf) : Prop
  | bytes : Mounted s → Rebuildable s.fs → Salvageable s bmap
  | words : Mounted7 s → (∀ b, p7Datastart ≤ b → b < p7Kdata → getBit bmap (b - p7Datastart) = false →
    WordsIn s b) → Salvageable s bmap

/-- What a rebuild from `s` makes of the totals. -/
structure Restored (s t : Mnt) : Prop where
  /-- V6 counts onto the total it finds. -/
  blocks : (s.fs.desc.ops = .v6 → s.fs.tfree = 0) → BlocksRight t
  counted : s.fs.desc.alloc = .freelist → s.fs.desc.ops ≠ .v6 → InodesRight t
  kept : s.fs.desc.alloc ≠ .v8bitmap → InodesRight s → InodesRight t

theorem post_makefree_restored {s : Mnt} {bmap : Buf} (h : Salvageable s bmap)
    (hq : ∀ k, s.env.fails k = false) :
    Post (makefree (opsDataEnd s.fs - opsDataStart s.fs) bmap s) (fun _ t => Restored s t) fun _ _ =>
    False := by
  apply post_bindFs
  cases h with
  | words hm hwhole =>
    rw [hm.pdp7]
    refine (p7fsMakefree_totals hm hq bmap hwhole).mono
      (fun _ t ht => ⟨fun _ => ht.1, fun ha => ?_, fun _ => ht.2.right⟩) fun _ _ h => h
    obtain ⟨bo, wc, hd⟩ := hm.format
    rw [hd] at ha
    cases ha
  | bytes hm hr =>
    cases hr with
    | list ha hmap h6 hl =>
      have hv7 : s.fs.desc.ops ≠ .v6 →
        Post (v7fsMakefree (opsDataEnd s.fs - opsDataStart s.fs) bmap s) (fun _ t => Restored s t)
        fun _ _ => False := by
        intro hne
        have hcount : s.fs.desc.isizeCount = false := Bool.eq_false_iff.mpr fun hc => hne (h6.mpr hc)
        refine post_bindFs (post_ite (fun h => absurd hmap h) fun _ => ?_)
        exact (v7fsMakefreeList_totals hm ha hl hq bmap hcount).mono
          (fun _ t ht => ⟨fun _ => ht.1, fun _ _ => ht.2, fun _ _ => ht.2⟩) fun _ _ h => h
      cases hops : s.fs.desc.ops with
      | v1 => exact absurd hops hl.notV1
      | pdp7 => exact absurd hops hl.notPdp7
      | v6 =>
        refine (v6Makefree_totals hm ha hl hq bmap (h6.mp hops)).mono (fun _ t ht => ?_) fun _ _ h => h
        exact ⟨fun h0 => ht.1 (h0 hops), fun _ hne => absurd hops hne, fun _ => ht.2.right⟩
      | v7 => exact hv7 (by rw [hops]; decide)
      | bsd211 => exact hv7 (by rw [hops]; decide)
    | map ha hmap h1 h6 hcount hs =>
      have hv7 : Post (v7fsMakefree (opsDataEnd s.fs - opsDataStart s.fs) bmap s)
        (fun _ t => Restored s t) fun _ _ => False := by
        refine post_bindFs (post_ite (fun _ => ?_) fun h => absurd (not_not.mp h) hmap)
        refine (v8MakefreeBitmap_totals hm hq bmap ha h1 h6 hcount hs).mono
          (fun _ t ht => ⟨fun _ => ht.1, fun hl => ?_, fun hne => absurd ha hne⟩) fun _ _ h => h
        rw [ha] at hl
        cases hl
      cases hops : s.fs.desc.ops with
      | v1 => exact absurd hops h1
      | pdp7 => exact absurd hops hm.notPdp7
      | v6 => exact absurd hops h6
      | v7 => exact hv7
      | bsd211 => exact hv7
    | v1 ha hv =>
      rw [hv]
      refine (v1fsMakefree_totals hm hq bmap ha hv).mono
        (fun _ t ht => ⟨fun _ => ht.1, fun hl => ?_, fun _ => ht.2.right⟩) fun _ _ h => h
      rw [ha] at hl
      cases hl

/-- A rebuild with no transfer failing leaves the block total right, counts the inodes of a V7 free-list
    volume anew, and leaves their total right on V6, V1 and PDP-7 where it was. -/
theorem makefree_restores {s : Mnt} {bmap : Buf} (h : Salvageable s bmap) (hq : ∀ k, s.env.fails k = false) :
    ∃ n t, makefree (opsDataEnd s.fs - opsDataStart s.fs) bmap s = .ok n t ∧ Restored s t :=
    (post_makefree_restored h hq).succeeds

/-- A rebuilt V7 volume of five blocks. -/
theorem a_rebuilt_v7_volume_counts_right : ∃ n t, makefree 2 zeroBuf fiveBlocks = .ok n t ∧
    BlocksRight t ∧ InodesRight t := by
  have hm : Mounted fiveBlocks := ⟨fun _ _ => rfl, by decide, rfl, by decide, by decide, by decide,
    rfl, by decide, by decide, by decide⟩
  have hl : ListLayout fiveBlocks.fs := by
    constructor <;> first | decide | exact ⟨by decide, by decide, by decide⟩
  have hs : Salvageable fiveBlocks zeroBuf := .bytes hm (.list rfl rfl (by decide) hl)
  obtain ⟨n, t, hr, ht⟩ := makefree_restores hs fun _ => rfl
  rw [show opsDataEnd fiveBlocks.fs - opsDataStart fiveBlocks.fs = 2 by decide] at hr
  exact ⟨n, t, hr, ht.blocks fun h => absurd h (by decide), ht.counted rfl (by decide)⟩

/-- A PDP-7 disk with nothing on it. -/
def blankPdp7 : Mnt where
  fs := { desc := descPdp7, imgsize := 2048000 }
  img := zeroBuf
  size := 2048000

/-- Its 3549 inodes are free, and its total of them is 0 before and after. -/
theorem pdp7_inodes_are_not_counted : Salvageable blankPdp7 zeroBuf ∧ (∀ k, blankPdp7.env.fails k = false) ∧
    ¬ ∃ n t, makefree (opsDataEnd blankPdp7.fs - opsDataStart blankPdp7.fs) zeroBuf blankPdp7 =
    .ok n t ∧ BlocksRight t ∧ InodesRight t := by
  have hm : Mounted7 blankPdp7 := ⟨fun _ _ => rfl, ⟨_, _, rfl⟩, rfl, rfl, by decide⟩
  have hwhole : ∀ b, p7Datastart ≤ b → b < p7Kdata → getBit zeroBuf (b - p7Datastart) = false →
    WordsIn blankPdp7 b := by
    intro b _ hb _
    have hlt : b < 6400 := hb
    show 0 + b * 256 + 256 ≤ 2048000
    omega
  refine ⟨.words hm hwhole, fun _ => rfl, ?_⟩
  intro h
  obtain ⟨n, t, hr, -, hinodes⟩ := h
  have hsame := makefree_pdp7_sameInodes hm (fun _ => rfl) zeroBuf hwhole hr
  have hfree : 0 < freeInodes blankPdp7 := by
    refine List.length_pos_of_mem (a := 0) (List.mem_filter.mpr ⟨List.mem_range.mpr (by decide), ?_⟩)
    decide +kernel
  rw [← hsame.2, ← hinodes, hsame.1] at hfree
  exact absurd hfree (by decide)

end Filsys.Alloc
