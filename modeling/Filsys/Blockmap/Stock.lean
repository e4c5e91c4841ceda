/-
  Filsys.Blockmap.Stock — the free blocks, whatever allocator keeps them.

  `Free s b` says that the mount's allocator has `b` to hand out: the byte-addressed ones as
  `Alloc.Space` has it, the PDP-7's as its node list names it. With no transfer failing a
  call of `balloc` takes one block off that set or finds it empty (`post_balloc_stock`), a
  block given back joins it (`post_drain_stock`), and neither writes a block in use.
-/

import Filsys.Alloc.Regrow
import Filsys.Blockmap.Grow

namespace Filsys.Alloc

open Filsys.Lib Filsys.Engine

/-! ## The PDP-7's list, one call at a time -/

section Nodes

variable {inImg : Nat → Prop}

/-- Of a node only the first ten words count. -/
theorem seg_congr_words {w w' : Words} {h : Nat} {ns : List Nat} (hs : Seg inImg w h ns)
    (hw : ∀ n ∈ ns, ∀ i, i < 64 → w' n i = w n i) :
    Seg inImg w' h ns ∧ listed w' ns = listed w ns := by
  induction hs with
  | stop hstop => exact ⟨.stop hstop, rfl⟩
  | @node h ns h0 hin _ ih =>
    have hself := hw h List.mem_cons_self
    obtain ⟨hseg, hlist⟩ := ih fun n hn => hw n (List.mem_cons_of_mem _ hn)
    refine ⟨.node h0 hin ?_, ?_⟩
    · rw [hself 0 (by decide)]
      exact hseg
    · rw [listed_cons, listed_cons, hlist, entriesBelow_congr fun j _ hj => hself j (by omega)]

theorem seg_unique {w : Words} {h : Nat} {ns ns' : List Nat} (hs : Seg inImg w h ns)
    (hs' : Seg inImg w h ns') : ns = ns' := by
  induction hs generalizing ns' with
  | stop hstop =>
    cases hs' with
    | stop => rfl
    | node h0 hin => exact absurd hin (hstop.resolve_left h0)
  | node h0 hin _ ih =>
    cases hs' with
    | stop hstop => exact absurd hin (hstop.resolve_left h0)
    | node _ _ hrest => rw [ih hrest]

end Nodes

theorem Lists.unique {s : Mnt} {L L' : List Nat} (h : Lists s L) (h' : Lists s L') : L = L' := by
  obtain ⟨ns, hseg, rfl⟩ := h
  obtain ⟨ns', hseg', rfl⟩ := h'
  rw [seg_unique hseg hseg']

theorem Lists.of_words {s t : Mnt} {L : List Nat} {w : Words} {h : Nat} (hvol : SameVol s t) (ht : Holds7 t w h)
    (hL : ∃ ns, Seg (WordsIn s) w h ns ∧ listed w ns = L) : Lists t L := by
  obtain ⟨ns, hseg, rfl⟩ := hL
  have hin : WordsIn t = WordsIn s := funext fun b => propext (wordsIn_of_sameVol hvol b)
  rw [← hin, ← ht.head] at hseg
  obtain ⟨hseg', hlist⟩ := seg_congr_words hseg fun n hn i hi => ht.words n (hseg.mem n hn).2 i hi
  exact ⟨ns, hseg', hlist.symm⟩

/-- A call takes the first block the list names, or finds it naming none. -/
theorem post_p7fsBalloc_lists {s : Mnt} (hm : Mounted7 s) (hq : ∀ k, s.env.fails k = false)
    {L : List Nat} (hL : Lists s L) (hnd : L.Nodup)
    (hin : ∀ x ∈ L, WordsIn s x) :
    Post (p7fsBalloc s)
      (fun b t => ∃ L', L = b :: L' ∧ Lists t L' ∧ SameVol s t ∧
        (s.fs.freelist < 2 ^ 18 → t.fs.freelist < 2 ^ 18) ∧
        (∀ i, i < 64 → wordsOf s.fs t.img b i = 0) ∧
        ∀ c, WordsIn s c → c ∉ L → ∀ i, i < 64 → wordsOf s.fs t.img c i = wordsOf s.fs s.img c i)
      (fun _ t => t = s ∧ L = []) := by
  have hr := holds7_self s
  by_cases hstop : s.fs.freelist = 0 ∨ ¬ WordsIn s s.fs.freelist
  · refine (post_p7fsBalloc_stop hm hq hr hstop).mono (fun _ _ hf => hf.elim) ?_
    intro e t h
    obtain ⟨rfl, -⟩ := h
    exact ⟨rfl, hL.nil_of_stop hstop⟩
  · obtain ⟨h0, hhead⟩ := not_or.mp hstop
    have hhead := not_not.mp hhead
    have hmem := hL.head_mem h0 hhead
    obtain ⟨ns, hseg, rfl⟩ := hL
    have htakes := takes_of_seg hseg (hnd.filter _)
    generalize hlist : listed (wordsOf s.fs s.img) ns = L at *
    cases htakes with
    | stop hs => exact absurd hs hstop
    | @take _ _ bs _ _ hrest =>
      obtain ⟨hfirst, hnd'⟩ := List.nodup_cons.mp hnd
      refine (post_p7fsBalloc hm hq hr h0 hhead).mono ?_ ?_
      · intro b t h
        obtain ⟨rfl, hb, ht, hvol⟩ := h
        have hafter := seg_of_takes hrest (hnd'.filter _)
        have hw : ∀ c, WordsIn s c → ∀ i, i < 64 →
          wordsOf s.fs t.img c i = (take (wordsOf s.fs s.img) s.fs.freelist).2.1 c i := by
          intro c hc i hi
          have := ht.words c ((wordsIn_of_sameVol hvol c).mpr hc) i hi
          rwa [shape_wordsOf hvol.shape] at this
        refine ⟨bs, rfl, .of_words hvol ht hafter, hvol, ?_⟩
        rw [ht.head]
        by_cases hlast : p7Last (wordsOf s.fs s.img s.fs.freelist) = 0
        · rw [take_exhausted hlast] at hw hb hmem ⊢
          refine ⟨fun _ => wordsOf_lt .., fun i hi => ?_, fun c hc hcL i hi => ?_⟩
          · rw [hw _ hb i hi]
            exact if_pos rfl
          · rw [hw c hc i hi]
            have hch : c ≠ s.fs.freelist := fun he => hcL (he ▸ hmem)
            exact congrFun (zeroed_ne hch) i
        · rw [take_entry hlast] at hw hb hmem ⊢
          refine ⟨fun hlt => hlt, fun i hi => ?_, fun c hc hcL i hi => ?_⟩
          · rw [hw _ hb i hi]
            exact if_pos rfl
          · rw [hw c hc i hi]
            have hcb : c ≠ wordsOf s.fs s.img s.fs.freelist (p7Last
              (wordsOf s.fs s.img s.fs.freelist)) := fun he => hcL (he ▸ List.mem_cons_self)
            have hch : c ≠ s.fs.freelist := fun he => hcL (he ▸ hmem)
            exact congrFun ((zeroed_ne hcb).trans (cleared_ne hch)) i
      · intro e t h
        obtain ⟨hout, -⟩ := h
        exact absurd (hin _ List.mem_cons_self) hout

end Filsys.Alloc

namespace Filsys.Blockmap

open Filsys.Lib Filsys.Engine Filsys.Alloc Filsys.Check Filsys.Tree

/-! ## The free blocks -/

/-- The allocator has `b` to hand out. -/
def Free (s : Mnt) (b : Nat) : Prop := if s.fs.desc.ops = .pdp7 then ∃ L, Lists s L ∧ b ∈ L else IsFree s b

/-- The PDP-7's list names usable blocks, each once. -/
structure NodesOk (s : Mnt) (L : List Nat) : Prop where
  lists : Lists s L
  nodup : L.Nodup
  usable : ∀ x ∈ L, Usable s x
  head : s.fs.freelist < 2 ^ 18

/-- A mount in which every transfer goes through, its free space well formed. -/
structure Stock (s : Mnt) : Prop extends Ready s where
  bytes : s.fs.desc.ops ≠ .pdp7 → SpaceOk s
  words : s.fs.desc.ops = .pdp7 → ∃ L, NodesOk s L

theorem free_bytes {s : Mnt} (hp : s.fs.desc.ops ≠ .pdp7) {b : Nat} : Free s b ↔ IsFree s b := by
  unfold Free
  rw [if_neg hp]

theorem free_words {s : Mnt} (hp : s.fs.desc.ops = .pdp7) {L : List Nat} (hL : Lists s L) {b : Nat} :
    Free s b ↔ b ∈ L := by
  unfold Free
  rw [if_pos hp]
  constructor
  · intro h
    obtain ⟨L', hL', hb⟩ := h
    rwa [hL.unique hL']
  · intro hb
    exact ⟨L, hL, hb⟩

theorem mounted_words {s : Mnt} (h : OnVolume s) (hp : s.fs.desc.ops = .pdp7) : Mounted7 s :=
  h.resolve_left fun hm => hm.notPdp7 hp

theorem mounted_bytes {s : Mnt} (h : OnVolume s) (hp : s.fs.desc.ops ≠ .pdp7) : Mounted s :=
  h.resolve_right fun hm => hp hm.pdp7

/-- A block is readable on the PDP-7 where it lies in the image. -/
theorem readable_words {s : Mnt} (hp : s.fs.desc.ops = .pdp7) {b : Nat} :
    readable s b = true ↔ WordsIn s b := by
  unfold readable inImage
  rw [if_pos hp, decide_eq_true_eq]

theorem Stock.usable {s : Mnt} (h : Stock s) {b : Nat} (hb : Free s b) : Usable s b := by
  by_cases hp : s.fs.desc.ops = .pdp7
  · obtain ⟨L, hL⟩ := h.words hp
    exact hL.usable b ((free_words hp hL.lists).mp hb)
  · exact ⟨(h.bytes hp).data ((free_bytes hp).mp hb), if_neg hp⟩

/-- The free space is what the in-core state and the contents of the free blocks say. -/
theorem Stock.of_same {s t : Mnt} (h : Stock s) (hvol : SameVol s t)
    (hsp : s.fs.desc.ops ≠ .pdp7 → spaceOf t.fs = spaceOf s.fs)
    (hhead : s.fs.desc.ops = .pdp7 → t.fs.freelist = s.fs.freelist) (hsame : ∀ c, Free s c →
      contents t c = contents s c) : Stock t ∧ ∀ x, Free t x ↔ Free s x := by
  have hd := shape_desc hvol.shape
  have hrt := h.toReady.of_sameVol hvol
  by_cases hp : s.fs.desc.ops = .pdp7
  · obtain ⟨L, hL⟩ := h.words hp
    have hm := mounted_words h.volume hp
    have hLt : Lists t L := by
      obtain ⟨ns, hseg, hlist⟩ := hL.lists
      have hin : WordsIn t = WordsIn s := funext fun b => propext (wordsIn_of_sameVol hvol b)
      have hmem : ∀ n ∈ ns, n ∈ L := fun n hn => hlist ▸ mem_listed_of_mem hn
      have hw : ∀ n ∈ ns, ∀ i, i < 64 → wordsOf s.fs t.img n i = wordsOf s.fs s.img n i := fun n hn =>
        (contents_words hm hvol).mp (hsame n ((free_words hp hL.lists).mpr (hmem n hn)))
      obtain ⟨hseg', hlist'⟩ := seg_congr_words hseg hw
      refine ⟨ns, ?_, ?_⟩
      · rw [hin, shape_wordsOf hvol.shape, hhead hp]
        exact hseg'
      · rw [shape_wordsOf hvol.shape, hlist']
        exact hlist
    have hok : NodesOk t L :=
      ⟨hLt, hL.nodup, fun x hx => (usable_of_sameVol hvol).mpr
      (hL.usable x hx), by rw [hhead hp]; exact hL.head⟩
    refine ⟨⟨hrt, fun hne => absurd (hd ▸ hp) hne, fun _ => ⟨L, hok⟩⟩, fun x => ?_⟩
    rw [free_words (by rw [hd]; exact hp) hLt, free_words hp hL.lists]
  · have hm := mounted_bytes h.volume hp
    obtain ⟨hok, hfree⟩ := space_congr hm (h.bytes hp) hvol (hsp hp) fun c hc =>
      (contents_bytes hm hvol).mp (hsame c ((free_bytes hp).mpr hc))
    refine ⟨⟨hrt, fun _ => hok, fun he => absurd (hd ▸ he) hp⟩, fun x => ?_⟩
    rw [free_bytes (by rw [hd]; exact hp), free_bytes hp]
    exact hfree x

/-- Block `b` lies in the image, past the superblock. -/
def Lies (s : Mnt) (b : Nat) : Prop := 2 ≤ b ∧ readable s b = true

theorem Usable.lies {s : Mnt} (hv : OnVolume s) {b : Nat} (hb : Usable s b) : Lies s b := by
  refine ⟨?_, hb.2⟩
  rcases hv with hm | hm
  · exact Nat.le_trans hm.first hb.1.1
  · have hstart : opsDataStart s.fs = p7Datastart := by
      unfold opsDataStart
      rw [hm.pdp7]
    exact Nat.le_trans (hstart ▸ (by decide : 2 ≤ p7Datastart)) hb.1.1

theorem lies_of_sameVol {s t : Mnt} (hvol : SameVol s t) {b : Nat} : Lies t b ↔ Lies s b := by
  unfold Lies
  rw [readable_of_sameVol hvol]

/-! ## Taking -/

/-- `b` has been handed out, zeroed. -/
structure Taken (s : Mnt) (b : Nat) (t : Mnt) : Prop extends SameVol s t where
  was : Free s b
  stock : Stock t
  free : ∀ x, Free t x ↔ Free s x ∧ x ≠ b
  zero : ∀ i, contents t b i = 0
  same : ∀ c, Lies s c → ¬ Free s c → contents t c = contents s c

/-- There was no block to hand out. -/
structure Spent (s t : Mnt) : Prop extends SameVol s t where
  none : ∀ x, ¬ Free s x
  stock : Stock t
  free : ∀ x, ¬ Free t x
  same : ∀ c, Lies s c → contents t c = contents s c

theorem post_balloc_stock {s : Mnt} (h : Stock s) :
    Post (balloc s) (fun b t => Taken s b t) (fun _ t => Spent s t) := by
  by_cases hp : s.fs.desc.ops = .pdp7
  · have hm := mounted_words h.volume hp
    obtain ⟨L, hL⟩ := h.words hp
    have heq : balloc s = p7fsBalloc s := by
      unfold balloc
      rw [bindFs_run]
      rw [h.form.alloc.mpr hp]
    have hfree : ∀ x, Free s x ↔ x ∈ L := fun x => free_words hp hL.lists
    rw [heq]
    refine (post_p7fsBalloc_lists hm h.quiet hL.lists hL.nodup fun x hx => (readable_words hp).mp
      (hL.usable x hx).2).mono ?_ ?_
    · intro b t hr
      obtain ⟨L', rfl, hLt, hvol, hhead, hzero, hsame⟩ := hr
      obtain ⟨hb, hnd⟩ := List.nodup_cons.mp hL.nodup
      have hpt : t.fs.desc.ops = .pdp7 := by rw [shape_desc hvol.shape]; exact hp
      have hok : NodesOk t L' :=
        ⟨hLt, hnd, fun x hx => (usable_of_sameVol hvol).mpr (hL.usable x (List.mem_cons_of_mem _ hx)),
          hhead hL.head⟩
      refine ⟨hvol, (hfree b).mpr List.mem_cons_self,
        ⟨h.toReady.of_sameVol hvol, fun hne => absurd hpt hne, fun _ => ⟨L', hok⟩⟩, fun x => ?_,
        fun i => ?_, fun c hc hnf => ?_⟩
      · rw [free_words hpt hLt, hfree x, List.mem_cons]
        constructor
        · intro hx
          exact ⟨.inr hx, fun he => hb (he ▸ hx)⟩
        · rintro ⟨hx, hne⟩
          exact hx.resolve_left hne
      · unfold contents
        rw [if_pos hpt, shape_wordsOf hvol.shape]
        split
        · exact hzero i ‹_›
        · rfl
      · exact (contents_words hm hvol).mpr (hsame c ((readable_words hp).mp hc.2) fun hmem =>
          hnf ((hfree c).mpr hmem))
    · intro e t hr
      obtain ⟨rfl, rfl⟩ := hr
      have hnone : ∀ x, ¬ Free t x := fun x hx => absurd ((hfree x).mp hx) List.not_mem_nil
      exact ⟨sameVol_law.refl t, hnone, h, hnone, fun _ _ => rfl⟩
  · have hm := mounted_bytes h.volume hp
    have hok := h.bytes hp
    refine (balloc_spec hm hok).mono ?_ ?_
    · intro b t ht
      have hpt : t.fs.desc.ops ≠ .pdp7 := by rw [shape_desc ht.shape]; exact hp
      refine ⟨ht.toSameVol, (free_bytes hp).mpr ht.was,
        ⟨h.toReady.of_sameVol ht.toSameVol, fun _ => ht.ok, fun he => absurd he hpt⟩, fun x => ?_,
        fun i => ?_, fun c hc hnf => (contents_bytes hm ht.toSameVol).mpr (ht.blocks c hc.1 ?_)⟩
      · rw [free_bytes hpt, free_bytes hp]
        exact ht.free x
      · unfold contents
        rw [if_neg hpt, shape_blockOf ht.shape, ht.zero]
        rfl
      · rintro rfl
        exact hnf ((free_bytes hp).mpr ht.was)
    · intro e t ht
      have hpt : t.fs.desc.ops ≠ .pdp7 := by rw [shape_desc ht.shape]; exact hp
      refine ⟨ht.toSameVol, fun x hx => ht.none h.quiet x ((free_bytes hp).mp hx),
        ⟨h.toReady.of_sameVol ht.toSameVol, fun _ => ht.ok, fun he => absurd he hpt⟩, fun x hx => ?_,
        fun c hc => (contents_bytes hm ht.toSameVol).mpr (ht.blocks c hc.1)⟩
      exact ht.none h.quiet x (ht.free x ((free_bytes hpt).mp hx))

/-! ## Giving back -/

/-- The blocks `L` have gone back. -/
structure Given (s : Mnt) (L : List Nat) (t : Mnt) : Prop extends SameVol s t where
  stock : Stock t
  free : ∀ x, Free t x → Free s x ∨ x ∈ L
  all : s.fs.desc.ops ≠ .pdp7 → (∀ b ∈ L, Returns s.fs b) → ∀ x, Free s x ∨ x ∈ L → Free t x
  same : ∀ c, Lies s c → ¬ Free s c → c ∉ L → contents t c = contents s c

theorem post_bfree_stock {s : Mnt} (h : Stock s) {b : Nat} (hu : Usable s b) (hnf : ¬ Free s b) :
    Post (bfree b s) (fun _ t => Given s [b] t) fun _ _ => False := by
  by_cases hp : s.fs.desc.ops = .pdp7
  · have hm := mounted_words h.volume hp
    obtain ⟨L, hL⟩ := h.words hp
    have heq : bfree b s = p7fsBfree b s := by
      unfold bfree
      rw [bindFs_run]
      rw [h.form.alloc.mpr hp]
    have hfree : ∀ x, Free s x ↔ x ∈ L := fun x => free_words hp hL.lists
    have hbL : b ∉ L := fun hmem => hnf ((hfree b).mpr hmem)
    have hin : WordsIn s b := (readable_words hp).mp hu.2
    have hlt : b < 2 ^ 18 := by
      have := hu.1.2
      unfold opsDataEnd at this
      rw [hp] at this
      have hk : p7Kdata < 2 ^ 18 := by decide
      exact Nat.lt_trans this hk
    have hgo : NodeGoesOut b s := by
      unfold NodeGoesOut
      split
      · exact fun _ => h.quiet _
      · exact fun _ _ => h.quiet _
    rw [heq]
    refine (post_p7fsBfree_new hm hL.head hL.lists hL.nodup
      (fun x hx => (readable_words hp).mp (hL.usable x hx).2) (h.toReady.area_pos hu.1) hlt hbL
      (fun _ _ _ => hin) hgo).mono ?_ fun _ _ hf => hf
    intro _ t hr
    obtain ⟨hvol, hhead, ⟨L', hLt, hnd, hsub, -, -⟩, hwords⟩ := hr
    have hpt : t.fs.desc.ops = .pdp7 := by rw [shape_desc hvol.shape]; exact hp
    have hok : NodesOk t L' := by
      refine ⟨hLt, hnd, fun x hx => (usable_of_sameVol hvol).mpr ?_, hhead⟩
      rcases hsub x hx with rfl | hx
      · exact hu
      · exact hL.usable x hx
    refine ⟨hvol, ⟨h.toReady.of_sameVol hvol, fun hne => absurd hpt hne, fun _ => ⟨L', hok⟩⟩,
      fun x hx => ?_, fun hne => absurd hp hne, fun c _ hnfc hcb => ?_⟩
    · rcases hsub x ((free_words hpt hLt).mp hx) with rfl | hx
      · exact .inr (List.mem_singleton_self _)
      · exact .inl ((hfree x).mpr hx)
    · refine (contents_words hm hvol).mpr fun i _ => ?_
      rw [hwords c (fun he => hcb (List.mem_singleton.mpr he)) fun hmem => hnfc ((hfree c).mpr hmem)]
  · have hm := mounted_bytes h.volume hp
    have hok := h.bytes hp
    have hnf' : ¬ IsFree s b := fun hx => hnf ((free_bytes hp).mpr hx)
    have hdata : DataBlock s.fs b := hu.1
    by_cases hret : Returns s.fs b
    · refine ((bfree_spec hm hok hdata hnf').and (bfree_returns hm hok hdata hnf' hret h.quiet)).mono ?_
        fun _ _ hf => hf.1
      intro _ t hr
      obtain ⟨ht, hall⟩ := hr
      have hpt : t.fs.desc.ops ≠ .pdp7 := by rw [shape_desc ht.shape]; exact hp
      refine ⟨ht.toSameVol, ⟨h.toReady.of_sameVol ht.toSameVol, fun _ => ht.ok, fun he =>
        absurd he hpt⟩, fun x hx => ?_, fun _ _ x hx => ?_,
        fun c hc _ hcb => (contents_bytes hm ht.toSameVol).mpr (ht.blocks c hc.1 fun he =>
          hcb (List.mem_singleton.mpr he))⟩
      · rw [free_bytes hp, List.mem_singleton]
        exact ht.free x ((free_bytes hpt).mp hx)
      · rw [free_bytes hp, List.mem_singleton] at hx
        exact (free_bytes hpt).mpr (hall x hx)
    · refine (bfree_spec hm hok hdata hnf').mono (fun _ t ht => ?_) fun _ _ hf => hf
      have hpt : t.fs.desc.ops ≠ .pdp7 := by rw [shape_desc ht.shape]; exact hp
      refine ⟨ht.toSameVol, ⟨h.toReady.of_sameVol ht.toSameVol, fun _ => ht.ok, fun he =>
        absurd he hpt⟩, fun x hx => ?_,
        fun _ hall => absurd (hall b (List.mem_singleton_self b)) hret,
        fun c hc _ hcb => (contents_bytes hm ht.toSameVol).mpr (ht.blocks c hc.1 fun he =>
          hcb (List.mem_singleton.mpr he))⟩
      rw [free_bytes hp, List.mem_singleton]
      exact ht.free x ((free_bytes hpt).mp hx)

/-- A list of blocks goes back, each once. -/
theorem post_drain_stock (L : List Nat) : ∀ {s : Mnt}, Stock s → L.Nodup → (∀ b ∈ L, Usable s b ∧ ¬ Free s b) →
    Post (blklistDrain L s) (fun _ t => Given s L t) fun _ _ => False := by
  induction L with
  | nil =>
    exact fun h _ _ => ⟨sameVol_law.refl _, h, fun _ hx => .inl hx, fun _ _ _ hx =>
      hx.resolve_right List.not_mem_nil, fun _ _ _ _ => rfl⟩
  | cons b L ih =>
    intro s h hnd hL
    obtain ⟨hb, hnd'⟩ := List.nodup_cons.mp hnd
    obtain ⟨hu, hnf⟩ := hL b List.mem_cons_self
    refine post_bind ((post_bfree_stock h hu hnf).mono (fun _ t ht => ?_) fun _ _ hf => hf)
    have hrest : ∀ c ∈ L, Usable t c ∧ ¬ Free t c := by
      intro c hc
      obtain ⟨huc, hnfc⟩ := hL c (List.mem_cons_of_mem _ hc)
      refine ⟨(usable_of_sameVol ht.toSameVol).mpr huc, fun hf => ?_⟩
      rcases ht.free c hf with hf | hf
      · exact hnfc hf
      · exact hb (List.mem_singleton.mp hf ▸ hc)
    refine (ih ht.stock hnd' hrest).mono (fun _ u hu' => ?_) fun _ _ hf => hf
    refine ⟨sameVol_law.trans ht.toSameVol hu'.toSameVol, hu'.stock, fun x hx => ?_, fun hp hall x hx =>
      ?_, fun c hc hnfc hcL => ?_⟩
    · rcases hu'.free x hx with hx | hx
      · rcases ht.free x hx with hx | hx
        · exact .inl hx
        · exact .inr (List.mem_singleton.mp hx ▸ List.mem_cons_self)
      · exact .inr (List.mem_cons_of_mem _ hx)
    · refine hu'.all (by rw [shape_desc ht.shape]; exact hp) (fun c hc => (shape_returns ht.shape).mpr
        (hall c (List.mem_cons_of_mem _ hc))) x ?_
      have hone := ht.all hp (fun c hc => hall c (List.mem_singleton.mp hc ▸ List.mem_cons_self)) x
      rcases hx with hx | hx
      · exact .inl (hone (.inl hx))
      · rcases List.mem_cons.mp hx with rfl | hx
        · exact .inl (hone (.inr (List.mem_singleton_self _)))
        · exact .inr hx
    · have hcb : c ≠ b := fun he => hcL (he ▸ List.mem_cons_self)
      have hfirst := ht.same c hc hnfc fun hm => hcb (List.mem_singleton.mp hm)
      refine (hu'.same c ((lies_of_sameVol ht.toSameVol).mpr hc) (fun hf => ?_) fun hm =>
        hcL (List.mem_cons_of_mem _ hm)).trans hfirst
      rcases ht.free c hf with hf | hf
      · exact hnfc hf
      · exact hcb (List.mem_singleton.mp hf)

end Filsys.Blockmap
