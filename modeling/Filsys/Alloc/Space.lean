/-
  Filsys.Alloc.Space — free space, whatever allocator keeps it.

  The free list, the V8 bit map and V1's bit map differ in where they keep the free
  blocks; what the engine relies on is the same of all three. `IsFree s b` says that
  the mount's allocator has `b` to hand out, and `balloc_spec` and `bfree_spec` say what
  the two calls do to that set and to the blocks.
-/

import Filsys.Alloc.Freelist
import Filsys.Engine.Record

namespace Filsys.Alloc

open Filsys.Lib Filsys.Engine

/-- A block of the data area, bit map blocks at its end aside. -/
def DataBlock (fs : Fs) (b : Nat) : Prop := opsDataStart fs ≤ b ∧ b < opsDataEnd fs

/-- The allocator of the mount has `b` to hand out. -/
def IsFree (s : Mnt) (b : Nat) : Prop :=
  match s.fs.desc.alloc with
  | .freelist => ∃ L K, Core s L K ∧ b ∈ L
  | .v8bitmap => s.fs.v8Base ≤ b ∧ b < s.fs.v8Base + s.fs.v8Nbits ∧ getBit s.fs.v8Bits (b - s.fs.v8Base) = true
  | .bitmap => DataBlock s.fs b ∧ getBit s.fs.freemap b = true
  | .pdp7 => False

/-- The allocator's state is well formed. -/
def SpaceOk (s : Mnt) : Prop :=
  match s.fs.desc.alloc with
  | .freelist => ListLayout s.fs ∧ ∃ L K, Core s L K
  | .v8bitmap => s.fs.desc.ops ≠ .v1 ∧ ∀ b, IsFree s b → DataBlock s.fs b
  | .bitmap => s.fs.desc.ops = .v1
  | .pdp7 => False

theorem shape_dataBlock {fs fs' : Fs} (h : shape fs' = shape fs) {b : Nat} :
    DataBlock fs' b ↔ DataBlock fs b := by
  unfold DataBlock
  rw [shape_dataStart h, shape_dataEnd h]

section Shape

variable {fs : Fs} (hl : ListLayout fs)

include hl

theorem dataEnd_eq : opsDataEnd fs = fs.fsize := by
  unfold opsDataEnd
  split
  · rfl
  · exact absurd ‹_› hl.notPdp7
  · rw [hl.noTail, Nat.sub_zero]

theorem dataBlock_iff_inData {b : Nat} : DataBlock fs b ↔ InData fs b := by
  have hs : opsDataStart fs = v7DataFirst fs := by
    unfold opsDataStart
    split
    · exact absurd ‹_› hl.notV1
    · exact absurd ‹_› hl.notPdp7
    · rfl
  unfold DataBlock InData
  rw [hs, dataEnd_eq hl]

end Shape

theorem DataBlock.two_le {s : Mnt} (hm : Mounted s) {b : Nat} (hb : DataBlock s.fs b) : 2 ≤ b :=
  Nat.le_trans hm.first hb.1

theorem DataBlock.lt_fsize {s : Mnt} (hm : Mounted s) {b : Nat} (hb : DataBlock s.fs b) : b < s.fs.fsize :=
  Nat.lt_of_lt_of_le hb.2 hm.last

theorem isFree_freelist {s : Mnt} (ha : s.fs.desc.alloc = .freelist) {b : Nat} :
    IsFree s b ↔ ∃ L K, Core s L K ∧ b ∈ L := by
  unfold IsFree
  rw [ha]

theorem isFree_v8bitmap {s : Mnt} (ha : s.fs.desc.alloc = .v8bitmap) {b : Nat} : IsFree s b ↔
    s.fs.v8Base ≤ b ∧ b < s.fs.v8Base + s.fs.v8Nbits ∧ getBit s.fs.v8Bits (b - s.fs.v8Base) = true := by
  unfold IsFree
  rw [ha]

theorem isFree_bitmap {s : Mnt} (ha : s.fs.desc.alloc = .bitmap) {b : Nat} :
    IsFree s b ↔ DataBlock s.fs b ∧ getBit s.fs.freemap b = true := by
  unfold IsFree
  rw [ha]

theorem spaceOk_freelist {s : Mnt} (ha : s.fs.desc.alloc = .freelist) :
    SpaceOk s ↔ ListLayout s.fs ∧ ∃ L K, Core s L K := by
  unfold SpaceOk
  rw [ha]

theorem spaceOk_v8bitmap {s : Mnt} (ha : s.fs.desc.alloc = .v8bitmap) :
    SpaceOk s ↔ s.fs.desc.ops ≠ .v1 ∧ ∀ b, IsFree s b → DataBlock s.fs b := by
  unfold SpaceOk
  rw [ha]

theorem spaceOk_bitmap {s : Mnt} (ha : s.fs.desc.alloc = .bitmap) : SpaceOk s ↔ s.fs.desc.ops = .v1 := by
  unfold SpaceOk
  rw [ha]

theorem SpaceOk.notPdp7 {s : Mnt} (h : SpaceOk s) : s.fs.desc.alloc ≠ .pdp7 := by
  intro ha
  unfold SpaceOk at h
  rw [ha] at h
  exact h

/-- What one chain reaches is what the allocator has. -/
theorem isFree_core {s : Mnt} (hm : Mounted s) (ha : s.fs.desc.alloc = .freelist)
    (hl : ListLayout s.fs) {L K : List Nat}
    (hc : Core s L K) {b : Nat} : IsFree s b ↔ b ∈ L := by
  rw [isFree_freelist ha]
  constructor
  · intro h
    obtain ⟨L', K', hc', hb⟩ := h
    have hpos : 1 ≤ v7DataFirst s.fs := by
      have := hm.first
      rw [dataStart_eq hl] at this
      omega
    obtain ⟨rfl, -⟩ := hc.chain.unique hc'.chain hpos
    exact hb
  · intro hb
    exact ⟨L, K, hc, hb⟩

theorem SpaceOk.data {s : Mnt} (h : SpaceOk s) {b : Nat} (hb : IsFree s b) : DataBlock s.fs b := by
  cases ha : s.fs.desc.alloc with
  | freelist =>
    obtain ⟨hl, -⟩ := (spaceOk_freelist ha).mp h
    obtain ⟨L, K, hc, hmem⟩ := (isFree_freelist ha).mp hb
    exact (dataBlock_iff_inData hl).mpr (hc.chain.inData b hmem)
  | v8bitmap => exact ((spaceOk_v8bitmap ha).mp h).2 b hb
  | bitmap => exact ((isFree_bitmap ha).mp hb).1
  | pdp7 => exact absurd ha h.notPdp7

/-- The free space is what the in-core state and the free blocks' contents say. -/
theorem space_congr {s t : Mnt} (hm : Mounted s) (hok : SpaceOk s) (hvol : SameVol s t)
    (hsp : spaceOf t.fs = spaceOf s.fs)
    (hblk : ∀ b, IsFree s b → blockOf s.fs t.img b = blockOf s.fs s.img b) :
    SpaceOk t ∧ ∀ b, IsFree t b ↔ IsFree s b := by
  have hd := shape_desc hvol.shape
  simp only [spaceOf, Prod.mk.injEq] at hsp
  obtain ⟨hn, hf, hbits, hmap⟩ := hsp
  cases ha : s.fs.desc.alloc with
  | freelist =>
    have ha' : t.fs.desc.alloc = .freelist := by rw [hd]; exact ha
    obtain ⟨hl, L, K, hc⟩ := (spaceOk_freelist ha).mp hok
    have hct : Core t L K := by
      refine hc.frame hvol.shape hn hf fun b hb => hblk b ?_
      rw [isFree_core hm ha hl hc]
      exact hc.chain.sublist.subset hb
    have hl' := hl.of_shape hvol.shape
    refine ⟨(spaceOk_freelist ha').mpr ⟨hl', L, K, hct⟩, fun b => ?_⟩
    rw [isFree_core (hm.of_sameVol hvol) ha' hl' hct, isFree_core hm ha hl hc]
  | v8bitmap =>
    have ha' : t.fs.desc.alloc = .v8bitmap := by rw [hd]; exact ha
    have hfree : ∀ b, IsFree t b ↔ IsFree s b := by
      intro b
      rw [isFree_v8bitmap ha', isFree_v8bitmap ha, hbits, show t.fs.v8Base =
        s.fs.v8Base from congrArg Shape.v8Base hvol.shape,
        show t.fs.v8Nbits = s.fs.v8Nbits from congrArg Shape.v8Nbits hvol.shape]
    obtain ⟨hops, hdata⟩ := (spaceOk_v8bitmap ha).mp hok
    refine ⟨(spaceOk_v8bitmap ha').mpr ⟨by rw [hd]; exact hops, fun b hb => ?_⟩, hfree⟩
    exact (shape_dataBlock hvol.shape).mpr (hdata b ((hfree b).mp hb))
  | bitmap =>
    have ha' : t.fs.desc.alloc = .bitmap := by rw [hd]; exact ha
    refine ⟨(spaceOk_bitmap ha').mpr (by rw [hd]; exact (spaceOk_bitmap ha).mp hok), fun b => ?_⟩
    rw [isFree_bitmap ha', isFree_bitmap ha, hmap, shape_dataBlock hvol.shape]
  | pdp7 => exact absurd ha hok.notPdp7

/-! ## Taking and giving back -/

/-- `b` has been handed out, zeroed. -/
structure Took (s : Mnt) (b : Nat) (t : Mnt) : Prop extends SameVol s t where
  was : IsFree s b
  ok : SpaceOk t
  free : ∀ x, IsFree t x ↔ IsFree s x ∧ x ≠ b
  zero : blockOf s.fs t.img b = zeroBuf
  blocks : ∀ x, 2 ≤ x → x ≠ b → blockOf s.fs t.img x = blockOf s.fs s.img x

/-- Nothing has been handed out; free blocks may have been lost to a failing transfer. -/
structure Lost (s t : Mnt) : Prop extends SameVol s t where
  ok : SpaceOk t
  free : ∀ x, IsFree t x → IsFree s x
  none : (∀ k, s.env.fails k = false) → ∀ x, ¬ IsFree s x
  blocks : ∀ x, 2 ≤ x → blockOf s.fs t.img x = blockOf s.fs s.img x

/-- `b` has gone back, or is lost. -/
structure Gave (s : Mnt) (b : Nat) (t : Mnt) : Prop extends SameVol s t where
  ok : SpaceOk t
  free : ∀ x, IsFree t x → IsFree s x ∨ x = b
  blocks : ∀ x, 2 ≤ x → x ≠ b → blockOf s.fs t.img x = blockOf s.fs s.img x

theorem window_zeroBuf (n : Nat) : window zeroBuf 0 n = zeroBuf := by
  funext i
  unfold window zeroBuf
  split <;> rfl

theorem firstBit_spec {bits : Buf} {n i j : Nat} (h : firstBit bits n i = some j) :
    i ≤ j ∧ j < i + n ∧ getBit bits j = true := by
  induction n generalizing i with
  | zero => cases h
  | succ n ih =>
    unfold firstBit at h
    split at h
    · obtain rfl := Option.some.inj h
      exact ⟨Nat.le_refl _, by omega, ‹_›⟩
    · obtain ⟨h1, h2, h3⟩ := ih h
      exact ⟨by omega, by omega, h3⟩

theorem firstBit_none {bits : Buf} {n i : Nat} (h : firstBit bits n i = none) {j : Nat}
    (hlo : i ≤ j) (hhi : j < i + n) :
    getBit bits j = false := by
  induction n generalizing i with
  | zero => omega
  | succ n ih =>
    unfold firstBit at h
    split at h
    · cases h
    · rcases Nat.eq_or_lt_of_le hlo with rfl | hlt
      · exact Bool.eq_false_iff.mpr ‹_›
      · exact ih h hlt (by omega)

section Specs

variable {s : Mnt} (hm : Mounted s) (hok : SpaceOk s)

include hm hok

theorem freelist_balloc_spec (ha : s.fs.desc.alloc = .freelist) :
    Post (v7fsBalloc s) (fun b t => Took s b t) (fun _ t => Lost s t) := by
  obtain ⟨hl, L, K, hc⟩ := (spaceOk_freelist ha).mp hok
  have hfree : ∀ x, IsFree s x ↔ x ∈ L := fun x => isFree_core hm ha hl hc
  -- a state with a well-formed list of its own
  have hnow : ∀ {t : Mnt} {L' K' : List Nat}, SameVol s t → Core t L' K' → SpaceOk t ∧ ∀ x,
    IsFree t x ↔ x ∈ L' := by
    intro t L' K' hvol hct
    have ha' : t.fs.desc.alloc = .freelist := by rw [shape_desc hvol.shape]; exact ha
    have hl' := hl.of_shape hvol.shape
    refine ⟨(spaceOk_freelist ha').mpr ⟨hl', L', K', hct⟩, ?_⟩
    intro x
    exact isFree_core (hm.of_sameVol hvol) ha' hl' hct
  have hpop : ∀ {t : Mnt} {b : Nat} {L' : List Nat}, b ∉ L' → (∀ x, IsFree t x ↔ x ∈ L') → L = b :: L' →
      ∀ x, IsFree t x ↔ IsFree s x ∧ x ≠ b := by
    rintro t b L' hb hft rfl x
    rw [hft x, hfree x, List.mem_cons]
    constructor
    · intro hx
      exact ⟨.inr hx, fun he => hb (he ▸ hx)⟩
    · rintro ⟨hx, hne⟩
      exact hx.resolve_left hne
  refine post_v7fsBalloc hm hl hc ?_ ?_ ?_ ?_
  · rintro b L' rfl hcore
    have hnd := List.nodup_cons.mp hc.nodup
    have hbK : b ∉ K := fun hk => hnd.1 (hcore.chain.sublist.subset hk)
    have hvol : SameVol s (taken (putAt .block b zeroBuf (popEntry s))) :=
      sameVol_law.trans (popEntry_sameVol s) (zeroed_sameVol b _)
    have hct : Core (taken (putAt .block b zeroBuf (popEntry s))) L' K := by
      refine hcore.frame rfl rfl rfl fun k hk => blockOf_putBlock_ne ?_ _ _
      rintro rfl
      exact hbK hk
    obtain ⟨hokt, hft⟩ := hnow hvol hct
    refine ⟨hvol, (hfree b).mpr (List.mem_cons_self ..), hokt, hpop hnd.1 hft rfl, ?_, fun x _ hne =>
      blockOf_putBlock_ne hne _ _⟩
    · exact (blockOf_putBlock s.fs _ b zeroBuf).trans (window_zeroBuf _)
  · rintro b L' K' rfl rfl hcore
    have hnd := List.nodup_cons.mp hc.nodup
    have hbK : b ∉ K' := fun hk => hnd.1 (hcore.chain.sublist.subset hk)
    have hmr : Mounted (reload b (popEntry s)) := hm.of_sameVol ⟨rfl, rfl, rfl⟩
    have hvol : SameVol s (taken (putAt .block b zeroBuf (flushed (reload b (popEntry s))))) :=
      sameVol_law.trans (reloaded_sameVol b s) (zeroed_sameVol b _)
    have hct : Core (taken (putAt .block b zeroBuf (flushed (reload b (popEntry s))))) L' K' := by
      refine (hcore.flushed hmr (hl.of_shape rfl)).frame rfl rfl rfl fun k hk => blockOf_putBlock_ne ?_ _ _
      rintro rfl
      exact hbK hk
    obtain ⟨hokt, hft⟩ := hnow hvol hct
    refine ⟨hvol, (hfree b).mpr (List.mem_cons_self ..), hokt, hpop hnd.1 hft rfl, ?_, ?_⟩
    · exact (blockOf_putBlock s.fs _ b zeroBuf).trans (window_zeroBuf _)
    · intro x h2 hne
      exact (blockOf_putBlock_ne hne _ _).trans (blockOf_putSuper hm.bsize h2 _ _)
  · rintro rfl hcore
    have hvol := popEntry_sameVol s
    obtain ⟨hokt, hft⟩ := hnow hvol hcore
    refine ⟨hvol, hokt, fun x hx => ?_, fun _ x hx => ?_, fun _ _ => rfl⟩
    · exact absurd ((hft x).mp hx) List.not_mem_nil
    · exact absurd ((hfree x).mp hx) List.not_mem_nil
  · intro e t h
    obtain ⟨⟨k, hk⟩, ⟨L', K', hct, hsuf⟩, hvol, hblk⟩ := h
    obtain ⟨hokt, hft⟩ := hnow hvol hct
    refine ⟨hvol, hokt, fun x hx => (hfree x).mpr (hsuf.subset ((hft x).mp hx)), fun hq => ?_, hblk⟩
    rw [hq k] at hk
    cases hk

omit hm in
/-- A bit map with the bit of `b` cleared. -/
theorem v8_cleared (ha : s.fs.desc.alloc = .v8bitmap) {t : Mnt} (hvol : SameVol s t) {i : Nat}
    (hbits : t.fs.v8Bits = putBit s.fs.v8Bits i false) :
    SpaceOk t ∧ ∀ x, IsFree t x ↔ IsFree s x ∧ x ≠ s.fs.v8Base + i := by
  have ha' : t.fs.desc.alloc = .v8bitmap := by rw [shape_desc hvol.shape]; exact ha
  have hbase : t.fs.v8Base = s.fs.v8Base := congrArg Shape.v8Base hvol.shape
  have hnb : t.fs.v8Nbits = s.fs.v8Nbits := congrArg Shape.v8Nbits hvol.shape
  have hfree : ∀ x, IsFree t x ↔ IsFree s x ∧ x ≠ s.fs.v8Base + i := by
    intro x
    rw [isFree_v8bitmap ha', isFree_v8bitmap ha, hbits, getBit_putBit, hbase, hnb]
    constructor
    · rintro ⟨h1, h2, h3⟩
      split at h3
      · cases h3
      · rename_i hne
        exact ⟨⟨h1, h2, h3⟩, fun heq => hne (by omega)⟩
    · intro h
      obtain ⟨⟨h1, h2, h3⟩, hne⟩ := h
      rw [if_neg (by omega)]
      exact ⟨h1, h2, h3⟩
  obtain ⟨hops, hdata⟩ := (spaceOk_v8bitmap ha).mp hok
  refine ⟨(spaceOk_v8bitmap ha').mpr ⟨by rw [shape_desc hvol.shape]; exact hops, fun x hx => ?_⟩, hfree⟩
  exact (shape_dataBlock hvol.shape).mpr (hdata x ((hfree x).mp hx).1)

theorem v8_balloc_spec (ha : s.fs.desc.alloc = .v8bitmap) :
    Post (v8BitmapBalloc s) (fun b t => Took s b t) (fun _ t => Lost s t) := by
  apply post_bindFs
  cases hbit : firstBit s.fs.v8Bits s.fs.v8Nbits 0 with
  | none =>
    refine ⟨sameVol_law.refl s, hok, fun _ hx => hx, fun _ x hx => ?_, fun _ _ => rfl⟩
    obtain ⟨h1, h2, h3⟩ := (isFree_v8bitmap ha).mp hx
    rw [firstBit_none hbit (Nat.zero_le _) (by omega)] at h3
    cases h3
  | some i =>
    obtain ⟨-, hlt, hset⟩ := firstBit_spec hbit
    have hwas : IsFree s (s.fs.v8Base + i) :=
      (isFree_v8bitmap ha).mpr ⟨by omega, by omega, by rwa [Nat.add_sub_cancel_left]⟩
    have hfit := (hok.data hwas).lt_fsize hm
    apply post_bindMod
    generalize hs1 : ({ s with fs := { s.fs with v8Bits := putBit s.fs.v8Bits i false } } : Mnt) = s1
    have hvol1 : SameVol s s1 := hs1 ▸ ⟨rfl, rfl, rfl⟩
    have himg1 : s1.img = s.img := by rw [← hs1]
    have hbits1 : s1.fs.v8Bits = putBit s.fs.v8Bits i false := by rw [← hs1]
    have hfs1 : blockOf s1.fs = blockOf s.fs := shape_blockOf hvol1.shape
    refine post_bind (post_failAs
      ((hm.of_sameVol hvol1).post_write (by rw [shape_fsize hvol1.shape]; exact hfit) ?_ ?_))
    · intro _
      have hvol : SameVol s { putAt .block (s.fs.v8Base + i) zeroBuf s1 with
          fs := { s1.fs with tfree := s1.fs.tfree - 1, flDirty := true } } :=
          sameVol_law.trans hvol1 ⟨rfl, rfl, rfl⟩
      obtain ⟨hokt, hft⟩ := v8_cleared hok ha hvol hbits1
      refine ⟨hvol, hwas, hokt, hft, ?_, ?_⟩
      · rw [← hfs1]
        exact (blockOf_putBlock s1.fs _ _ zeroBuf).trans (window_zeroBuf _)
      · intro x _ hne
        rw [← hfs1, ← himg1]
        exact blockOf_putBlock_ne hne _ _
    · intro hf _
      have hvol : SameVol s (ticked s1) := sameVol_law.trans hvol1 (ticked_sameVol s1)
      obtain ⟨hokt, hft⟩ := v8_cleared hok ha hvol hbits1
      refine ⟨hvol, hokt, fun x hx => ((hft x).mp hx).1, fun hq => ?_, fun _ _ => by rw [← himg1]; rfl⟩
      rw [hvol1.env, hq] at hf
      cases hf

theorem v1_balloc_spec (ha : s.fs.desc.alloc = .bitmap) :
    Post (v1fsBalloc s) (fun b t => Took s b t) (fun _ t => Lost s t) := by
  have hv := (spaceOk_bitmap ha).mp hok
  have hstart : opsDataStart s.fs = v1DataStart s.fs.maxino := by unfold opsDataStart; rw [hv]
  have hend : opsDataEnd s.fs = s.fs.fsize := by unfold opsDataEnd; rw [hv]
  have hnow : ∀ {t : Mnt} {b : Nat}, SameVol s t → t.fs.freemap = putBit s.fs.freemap b false →
      SpaceOk t ∧ ∀ x, IsFree t x ↔ IsFree s x ∧ x ≠ b := by
    intro t b hvol hmap
    have ha' : t.fs.desc.alloc = .bitmap := by rw [shape_desc hvol.shape]; exact ha
    refine ⟨(spaceOk_bitmap ha').mpr (by rw [shape_desc hvol.shape]; exact hv), fun x => ?_⟩
    rw [isFree_bitmap ha', isFree_bitmap ha, shape_dataBlock hvol.shape, hmap, getBit_putBit]
    constructor
    · rintro ⟨h1, h2⟩
      split at h2
      · cases h2
      · exact ⟨⟨h1, h2⟩, ‹_›⟩
    · intro h
      obtain ⟨⟨h1, h2⟩, hne⟩ := h
      rw [if_neg hne]
      exact ⟨h1, h2⟩
  apply post_bindFs
  cases hbit : firstBit s.fs.freemap (s.fs.fsize - v1DataStart s.fs.maxino) (v1DataStart s.fs.maxino) with
  | none =>
    simp only
    refine ⟨sameVol_law.refl s, hok, fun _ hx => hx, fun _ x hx => ?_, fun _ _ => rfl⟩
    obtain ⟨⟨h1, h2⟩, h3⟩ := (isFree_bitmap ha).mp hx
    rw [firstBit_none hbit (by omega) (by omega)] at h3
    cases h3
  | some b =>
    simp only
    obtain ⟨hle, hlt, hset⟩ := firstBit_spec hbit
    have hdata : DataBlock s.fs b := ⟨by rw [hstart]; exact hle, by rw [hend]; omega⟩
    have hwas : IsFree s b := (isFree_bitmap ha).mpr ⟨hdata, hset⟩
    apply post_bindMod
    generalize hs1 : ({ s with
      fs := { s.fs with freemap := putBit s.fs.freemap b false, tfree := s.fs.tfree - 1 } } : Mnt) = s1
    have hvol1 : SameVol s s1 := hs1 ▸ ⟨rfl, rfl, rfl⟩
    have himg1 : s1.img = s.img := by rw [← hs1]
    have hmap1 : s1.fs.freemap = putBit s.fs.freemap b false := by rw [← hs1]
    have hfs1 : blockOf s1.fs = blockOf s.fs := shape_blockOf hvol1.shape
    have hm1 := hm.of_sameVol hvol1
    refine post_bind (post_failAs ?_)
    rw [hm1.v1fsWriteBlock_eq (by rw [shape_desc hvol1.shape]; exact hv)]
    refine hm1.post_write (by rw [shape_fsize hvol1.shape]; exact hdata.lt_fsize hm) ?_ ?_
    · intro _
      have hvol : SameVol s { putAt .block b zeroBuf s1 with fs := { s1.fs with flDirty := true } } :=
        sameVol_law.trans hvol1 ⟨rfl, rfl, rfl⟩
      obtain ⟨hokt, hft⟩ := hnow hvol hmap1
      refine ⟨hvol, hwas, hokt, hft, ?_, ?_⟩
      · rw [← hfs1]
        exact (blockOf_putBlock s1.fs _ _ zeroBuf).trans (window_zeroBuf _)
      · intro x _ hne
        rw [← hfs1, ← himg1]
        exact blockOf_putBlock_ne hne _ _
    · intro hf _
      have hvol : SameVol s (ticked s1) := sameVol_law.trans hvol1 (ticked_sameVol s1)
      obtain ⟨hokt, hft⟩ := hnow hvol hmap1
      refine ⟨hvol, hokt, fun x hx => ((hft x).mp hx).1, fun hq => ?_, fun _ _ => by rw [← himg1]; rfl⟩
      rw [hvol1.env, hq] at hf
      cases hf

/-- `alloc->balloc`: a free block, zeroed, or none; a failing transfer loses free blocks at
    worst. -/
theorem balloc_spec : Post (balloc s) (fun b t => Took s b t) (fun _ t => Lost s t) := by
  apply post_bindFs
  cases ha : s.fs.desc.alloc with
  | freelist => exact freelist_balloc_spec hm hok ha
  | v8bitmap => exact v8_balloc_spec hm hok ha
  | bitmap => exact v1_balloc_spec hm hok ha
  | pdp7 => exact absurd ha hok.notPdp7

theorem freelist_bfree_spec (ha : s.fs.desc.alloc = .freelist) {b : Nat}
    (hb : DataBlock s.fs b) (hnf : ¬ IsFree s b) :
    Post (v7fsBfree b s) (fun _ t => Gave s b t) (fun _ _ => False) := by
  obtain ⟨hl, L, K, hc⟩ := (spaceOk_freelist ha).mp hok
  have hfree : ∀ x, IsFree s x ↔ x ∈ L := fun x => isFree_core hm ha hl hc
  have hin : InData s.fs b := (dataBlock_iff_inData hl).mp hb
  have hgave : ∀ {t : Mnt} {L' K' : List Nat}, SameVol s t → Core t L' K' → (∀ x ∈ L', x = b ∨ x ∈ L) →
      (∀ x, x ≠ b → blockOf s.fs t.img x = blockOf s.fs s.img x) → Gave s b t := by
    intro t L' K' hvol hct hsub hblk
    have ha' : t.fs.desc.alloc = .freelist := by rw [shape_desc hvol.shape]; exact ha
    have hl' := hl.of_shape hvol.shape
    refine ⟨hvol, (spaceOk_freelist ha').mpr ⟨hl', L', K', hct⟩, fun x hx => ?_, fun x _ hne => hblk x hne⟩
    rw [isFree_core (hm.of_sameVol hvol) ha' hl' hct] at hx
    exact (hsub x hx).elim .inr fun h => .inl ((hfree x).mpr h)
  have hvol := primed_sameVol s
  refine post_v7fsBfree hm hl hc hin (fun h => hnf ((hfree b).mpr h)) ?_ ?_ ?_
  · intro hct
    refine hgave (sameVol_law.trans hvol ⟨rfl, rfl, rfl⟩) hct (fun x hx => List.mem_cons.mp hx) fun x _ => ?_
    show blockOf s.fs (primed s).img x = _
    rw [primed_img]
  · intro hct
    refine hgave (sameVol_law.trans hvol ⟨rfl, rfl, rfl⟩) hct (fun x hx => List.mem_cons.mp hx) fun x hne => ?_
    rw [← shape_blockOf hvol.shape]
    refine (blockOf_putBlock_ne hne _ _).trans ?_
    rw [primed_img]
  · intro _ hct
    refine hgave (sameVol_law.trans hvol ⟨rfl, rfl, rfl⟩) hct (fun x hx => .inr hx) fun x _ => ?_
    show blockOf s.fs (primed s).img x = _
    rw [primed_img]

omit hm in
theorem v8_bfree_spec (ha : s.fs.desc.alloc = .v8bitmap) {b : Nat} (hb : DataBlock s.fs b) :
    Post (v8BitmapBfree b s) (fun _ t => Gave s b t) (fun _ _ => False) := by
  have hset : ∀ {t : Mnt}, s.fs.v8Base ≤ b → SameVol s t →
    t.fs.v8Bits = putBit s.fs.v8Bits (b - s.fs.v8Base) true →
      t.img = s.img → Gave s b t := by
    intro t hle hvol hbits himg
    have ha' : t.fs.desc.alloc = .v8bitmap := by rw [shape_desc hvol.shape]; exact ha
    have hbase : t.fs.v8Base = s.fs.v8Base := congrArg Shape.v8Base hvol.shape
    have hnb : t.fs.v8Nbits = s.fs.v8Nbits := congrArg Shape.v8Nbits hvol.shape
    have hfree : ∀ x, IsFree t x → IsFree s x ∨ x = b := by
      intro x hx
      obtain ⟨h1, h2, h3⟩ := (isFree_v8bitmap ha').mp hx
      rw [hbase] at h1 h2 h3
      rw [hnb] at h2
      rw [hbits, getBit_putBit] at h3
      split at h3
      · exact .inr (by omega)
      · exact .inl ((isFree_v8bitmap ha).mpr ⟨h1, h2, h3⟩)
    obtain ⟨hops, hdata⟩ := (spaceOk_v8bitmap ha).mp hok
    refine ⟨hvol, (spaceOk_v8bitmap ha').mpr ⟨by rw [shape_desc hvol.shape]; exact hops, fun x hx =>
      ?_⟩, hfree, fun _ _ _ => by rw [himg]⟩
    rw [shape_dataBlock hvol.shape]
    rcases hfree x hx with h | rfl
    · exact hdata x h
    · exact hb
  refine post_bindFs (post_ite (fun _ => ?_) fun hr => hset (by omega) ⟨rfl, rfl, rfl⟩ rfl rfl)
  exact ⟨sameVol_law.refl s, hok, fun _ hx => .inl hx, fun _ _ _ => rfl⟩

omit hm in
theorem v1_bfree_spec (ha : s.fs.desc.alloc = .bitmap) (b : Nat) :
    Post (v1fsBfree b s) (fun _ t => Gave s b t) (fun _ _ => False) := by
  have hset : ∀ {t : Mnt}, SameVol s t → t.fs.freemap = putBit s.fs.freemap b true →
    t.img = s.img → Gave s b t := by
    intro t hvol hmap himg
    have ha' : t.fs.desc.alloc = .bitmap := by rw [shape_desc hvol.shape]; exact ha
    refine ⟨hvol, (spaceOk_bitmap ha').mpr
      (by rw [shape_desc hvol.shape]; exact (spaceOk_bitmap ha).mp hok), fun x hx => ?_,
      fun _ _ _ => by rw [himg]⟩
    obtain ⟨h1, h2⟩ := (isFree_bitmap ha').mp hx
    rw [hmap, getBit_putBit] at h2
    split at h2
    · exact .inr ‹_›
    · exact .inl ((isFree_bitmap ha).mpr ⟨(shape_dataBlock hvol.shape).mp h1, h2⟩)
  refine post_bindFs (post_ite (fun _ => ?_) fun _ => hset ⟨rfl, rfl, rfl⟩ rfl rfl)
  exact ⟨sameVol_law.refl s, hok, fun _ hx => .inl hx, fun _ _ _ => rfl⟩

/-- `alloc->bfree` of an allocated data block. -/
theorem bfree_spec {b : Nat} (hb : DataBlock s.fs b) (hnf : ¬ IsFree s b) :
    Post (bfree b s) (fun _ t => Gave s b t) (fun _ _ => False) := by
  apply post_bindFs
  cases ha : s.fs.desc.alloc with
  | freelist => exact freelist_bfree_spec hm hok ha hb hnf
  | v8bitmap => exact v8_bfree_spec hok ha hb
  | bitmap => exact v1_bfree_spec hok ha b
  | pdp7 => exact absurd ha hok.notPdp7

/-- The allocator takes `b` back: a bit map has a bit for it. -/
def Returns (fs : Fs) (b : Nat) : Prop := fs.desc.alloc = .v8bitmap → fs.v8Base ≤ b ∧ b < fs.v8Base + fs.v8Nbits

omit hm hok in
theorem shape_returns {fs fs' : Fs} (h : shape fs' = shape fs) {b : Nat} : Returns fs' b ↔ Returns fs b := by
  unfold Returns
  rw [shape_desc h, show fs'.v8Base = fs.v8Base from congrArg Shape.v8Base h, show fs'.v8Nbits =
    fs.v8Nbits from congrArg Shape.v8Nbits h]

/-- With no transfer failing nothing is lost on the way back. -/
theorem bfree_returns {b : Nat} (hb : DataBlock s.fs b) (hnf : ¬ IsFree s b) (hr : Returns s.fs b)
    (hq : ∀ k, s.env.fails k = false) :
    Post (bfree b s) (fun _ t => ∀ x, IsFree s x ∨ x = b → IsFree t x) (fun _ _ => True) := by
  apply post_bindFs
  cases ha : s.fs.desc.alloc with
  | freelist =>
    obtain ⟨hl, L, K, hc⟩ := (spaceOk_freelist ha).mp hok
    have hin : InData s.fs b := (dataBlock_iff_inData hl).mp hb
    have hall : ∀ {t : Mnt} {K' : List Nat}, SameVol s t → Core t (b :: L) K' → ∀ x,
      IsFree s x ∨ x = b → IsFree t x := by
      intro t K' hvol hct x hx
      have ha' : t.fs.desc.alloc = .freelist := by rw [shape_desc hvol.shape]; exact ha
      rw [isFree_core (hm.of_sameVol hvol) ha' (hl.of_shape hvol.shape) hct, List.mem_cons]
      exact hx.elim (fun h => .inr ((isFree_core hm ha hl hc).mp h)) .inl
    have hvol := primed_sameVol s
    refine post_v7fsBfree hm hl hc hin (fun h => hnf ((isFree_core hm ha hl hc).mpr h)) ?_ ?_ ?_
    · intro hct
      exact hall (sameVol_law.trans hvol ⟨rfl, rfl, rfl⟩) hct
    · intro hct
      exact hall (sameVol_law.trans hvol ⟨rfl, rfl, rfl⟩) hct
    · intro hf _
      rw [hq] at hf
      cases hf
  | v8bitmap =>
    obtain ⟨hlo, hhi⟩ := hr ha
    refine post_bindFs (post_ite (fun hout => absurd hout (by omega)) fun _ x hx => ?_)
    refine (isFree_v8bitmap (by exact ha)).mpr ?_
    show s.fs.v8Base ≤ x ∧ x < s.fs.v8Base + s.fs.v8Nbits ∧
      getBit (putBit s.fs.v8Bits (b - s.fs.v8Base) true) (x - s.fs.v8Base) = true
    rw [getBit_putBit]
    rcases hx with hx | rfl
    · obtain ⟨h1, h2, h3⟩ := (isFree_v8bitmap ha).mp hx
      refine ⟨h1, h2, ?_⟩
      split
      · rfl
      · exact h3
    · exact ⟨hlo, hhi, if_pos rfl⟩
  | bitmap =>
    have hv := (spaceOk_bitmap ha).mp hok
    have hstart : opsDataStart s.fs = v1DataStart s.fs.maxino := by unfold opsDataStart; rw [hv]
    have hend : opsDataEnd s.fs = s.fs.fsize := by unfold opsDataEnd; rw [hv]
    have hlo := hb.1
    have hhi := hb.2
    rw [hstart] at hlo
    rw [hend] at hhi
    refine post_bindFs (post_ite (fun hout => absurd hout (by omega)) fun _ x hx => ?_)
    refine (isFree_bitmap (by exact ha)).mpr ?_
    show DataBlock s.fs x ∧ getBit (putBit s.fs.freemap b true) x = true
    rw [getBit_putBit]
    rcases hx with hx | rfl
    · obtain ⟨h1, h2⟩ := (isFree_bitmap ha).mp hx
      refine ⟨h1, ?_⟩
      split
      · rfl
      · exact h2
    · exact ⟨hb, if_pos rfl⟩
  | pdp7 => exact absurd ha hok.notPdp7

end Specs

end Filsys.Alloc
