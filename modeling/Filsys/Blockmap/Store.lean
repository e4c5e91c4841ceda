/-
  Filsys.Blockmap.Store — a volume as a store of block numbers.

  To the block map a volume is what its blocks' entries say (`heap`), whatever the edition
  keeps them in: two or four bytes in one of three orders, or an 18-bit word. Reads,
  writes and the allocators are described here once for all editions, so that the map
  itself is about `heap` only.
-/

import Filsys.Blockmap.Form
import Filsys.Check.Walks

namespace Filsys.Blockmap

open Filsys.Lib Filsys.Engine Filsys.Alloc Filsys.Check

/-! ## Entries and blocks -/

/-- Entry `i` of block `b`. -/
def heap (s : Mnt) (b i : Nat) : Nat := entryAt s.fs s.img b i

/-- What block `b` holds, bytes or words. -/
def contents (s : Mnt) (b i : Nat) : Nat :=
  if s.fs.desc.ops = .pdp7 then if i < 64 then wordsOf s.fs s.img b i else 0 else (blockOf s.fs s.img b i).toNat

/-- A data block that lies in the image. -/
def Usable (s : Mnt) (b : Nat) : Prop := InArea s.fs b ∧ readable s b = true

theorem contents_bytes {s t : Mnt} (hm : Mounted s) (hvol : SameVol s t) {b : Nat} :
    contents t b = contents s b ↔ blockOf s.fs t.img b = blockOf s.fs s.img b := by
  have hc : ∀ i, contents t b i = (blockOf s.fs t.img b i).toNat ∧
    contents s b i = (blockOf s.fs s.img b i).toNat := by
    intro i
    unfold contents
    rw [shape_desc hvol.shape, if_neg hm.notPdp7, if_neg hm.notPdp7, shape_blockOf hvol.shape]
    exact ⟨rfl, rfl⟩
  constructor
  · intro h
    funext i
    have hi := congrFun h i
    rw [(hc i).1, (hc i).2] at hi
    exact UInt8.toNat_inj.mp hi
  · intro h
    funext i
    rw [(hc i).1, (hc i).2, h]

theorem contents_words {s t : Mnt} (hm : Mounted7 s) (hvol : SameVol s t) {b : Nat} :
    contents t b = contents s b ↔ ∀ i, i < 64 → wordsOf s.fs t.img b i = wordsOf s.fs s.img b i := by
  have hc : ∀ i, contents t b i = (if i < 64 then wordsOf s.fs t.img b i else 0) ∧
      contents s b i = if i < 64 then wordsOf s.fs s.img b i else 0 := by
    intro i
    unfold contents
    rw [shape_desc hvol.shape, if_pos hm.pdp7, if_pos hm.pdp7, shape_wordsOf hvol.shape]
    exact ⟨rfl, rfl⟩
  constructor
  · intro h i hi
    have := congrFun h i
    rwa [(hc i).1, (hc i).2, if_pos hi, if_pos hi] at this
  · intro h
    funext i
    rw [(hc i).1, (hc i).2]
    split
    · exact h i ‹_›
    · rfl

/-- The entries are in the contents. -/
theorem heap_of_contents {s t : Mnt} (hv : OnVolume s) (hvol : SameVol s t) {b : Nat}
    (h : contents t b = contents s b) {i : Nat}
    (hi : i < s.fs.desc.nindir) : heap t b i = heap s b i := by
  unfold heap entryAt
  rw [shape_desc hvol.shape]
  rcases hv with hm | hm
  · rw [if_neg hm.notPdp7, if_neg hm.notPdp7]
    unfold entryOf
    rw [shape_desc hvol.shape, shape_blockOf hvol.shape, (contents_bytes hm hvol).mp h]
  · rw [if_pos hm.pdp7, if_pos hm.pdp7, shape_wordsOf hvol.shape]
    exact (contents_words hm hvol).mp h i (hm.nindir ▸ hi)

theorem inArea_of_sameVol {s t : Mnt} (hvol : SameVol s t) {b : Nat} : InArea t.fs b ↔ InArea s.fs b := by
  unfold InArea
  rw [shape_dataStart hvol.shape, shape_dataEnd hvol.shape]

theorem usable_of_sameVol {s t : Mnt} (hvol : SameVol s t) {b : Nat} : Usable t b ↔ Usable s b := by
  unfold Usable
  rw [inArea_of_sameVol hvol, readable_of_sameVol hvol]

theorem onVolume_of_sameVol {s t : Mnt} (hvol : SameVol s t) (h : OnVolume s) : OnVolume t :=
  h.imp (fun hm => hm.of_sameVol hvol) fun hm => hm.of_sameVol hvol

/-! ## Reading and writing -/

section Transfers

variable {s : Mnt} (hv : OnVolume s) (hq : ∀ k, s.env.fails k = false) {b : Nat} (hu : Usable s b)

include hv hq hu

theorem post_readBlock : Post (readBlock b s)
    (fun buf t => (∃ k, t = { s with ios := k }) ∧ ∀ i, i < s.fs.desc.nindir →
      indGet s.fs.desc buf i = heap s b i) fun _ _ => False := by
  refine (post_readBlock_ok hv.reads hq hu.1.2 hu.2 s.ios).mono ?_ fun _ _ hf => hf
  intro buf t h
  obtain ⟨hent, ht⟩ := h
  refine ⟨ht, fun i hi => ?_⟩
  exact List.map_inj_left.mp hent i (List.mem_range.mpr hi)

/-- What a write of the entries `e` leaves. -/
structure Wrote (s : Mnt) (b : Nat) (e : Nat → Nat) (t : Mnt) : Prop extends SameVol s t where
  fs : t.fs = s.fs
  other : ∀ c, c ≠ b → contents t c = contents s c
  here : ∀ i, i < s.fs.desc.nindir → heap t b i = e i

theorem post_writeBlock (hf : Formed s.fs.desc) (buf : Buf) :
    Post (writeBlock b buf s) (fun _ t => Wrote s b (indGet s.fs.desc buf) t) fun _ _ => False := by
  rcases hv with hm | hm
  · have hlt : b < s.fs.fsize := Nat.lt_of_lt_of_le hu.1.2 hm.last
    rw [hm.writeBlock_eq]
    refine hm.post_write hlt (fun _ => ?_) fun hfail => absurd (hfail.symm.trans (hq _)) (by decide)
    refine ⟨putAt_sameVol .., rfl, fun c hc => ?_, fun i hi => ?_⟩
    · exact (contents_bytes hm (putAt_sameVol ..)).mpr (blockOf_putBlock_ne hc _ _)
    · show entryAt s.fs (putAt .block b buf s).img b i = _
      unfold entryAt
      rw [if_neg hm.notPdp7]
      show indGet s.fs.desc (blockOf s.fs (putBlock s.fs s.img b buf) b) i = _
      rw [blockOf_putBlock, Tree.indGet_eq hm.notPdp7, Tree.indGet_eq hm.notPdp7, num_window, Nat.zero_add]
      have hle : entryLen s.fs.desc * (i + 1) ≤ entryLen s.fs.desc * s.fs.desc.nindir :=
        Nat.mul_le_mul_left _ hi
      have := hf.entries hm.notPdp7
      rw [Nat.mul_succ] at hle
      unfold entryLen at *
      omega
  · have hin : WordsIn s b := by
      have := hu.2
      unfold readable inImage at this
      rw [if_pos hm.pdp7] at this
      exact of_decide_eq_true this
    have hw : writeBlock b buf s = p7fsWriteBlock .block b buf s := by
      unfold writeBlock
      rw [bindFs_run]
      rw [hm.pdp7]
    rw [hw]
    refine post_bindFs (post_ite (fun hro => absurd hm.writable (by simp [hro])) fun _ => ?_)
    refine hm.post_writeWords (fun _ _ => ?_) (fun hout => absurd hin hout) fun hfail =>
      absurd (hfail.symm.trans (hq _)) (by decide)
    refine ⟨putWords_sameVol .., rfl, fun c hc => ?_, fun i hi => ?_⟩
    · refine (contents_words hm (putWords_sameVol ..)).mpr fun i _ => ?_
      rw [putWords_img, wordsOf_putWordBlock_ne hc]
    · show entryAt s.fs (putWordBlock s.fs s.img b _) b i = _
      unfold entryAt
      rw [if_pos hm.pdp7, wordsOf_putWordBlock _ _ _ _ (hm.nindir ▸ hi)]
      unfold indGet
      rw [hm.pdp7]
      exact Nat.mod_eq_of_lt (WordCodec.get_lt _ _ _)

end Transfers

/-! ## Allocating -/

/-- What handing out the block `b` of the data area leaves; the PDP-7's list node is rewritten in place. -/
structure Handed (s : Mnt) (b : Nat) (t : Mnt) : Prop extends SameVol s t where
  usable : Usable s b
  zero : ∀ i, i < s.fs.desc.nindir → heap t b i = 0
  other : ∀ c, Usable s c → c ≠ b → (s.fs.desc.ops = .pdp7 → c ≠ s.fs.freelist) → contents t c = contents s c

section Bytes

variable {s : Mnt} (hm : Mounted s)

include hm

theorem heap_zeroed {t : Mnt} (hvol : SameVol s t) {b : Nat} (h : blockOf s.fs t.img b = zeroBuf)
    (i : Nat) : heap t b i = 0 := by
  unfold heap entryAt
  rw [shape_desc hvol.shape, if_neg hm.notPdp7]
  unfold entryOf
  rw [shape_blockOf hvol.shape, shape_desc hvol.shape, h]
  exact Tree.indGet_zeroBuf hm.notPdp7 i

/-- A block zeroed, and the superblock at most written before. -/
theorem handed_bytes {t : Mnt} (hvol : SameVol s t) {b : Nat} (hb : InArea s.fs b)
    (hzero : blockOf s.fs t.img b = zeroBuf)
    (hother : ∀ c, 2 ≤ c → c ≠ b → blockOf s.fs t.img c = blockOf s.fs s.img c) : Handed s b t := by
  refine ⟨hvol, ⟨hb, if_neg hm.notPdp7⟩, fun i _ => heap_zeroed hm hvol hzero i, fun c hc hne _ => ?_⟩
  exact (contents_bytes hm hvol).mpr (hother c (Nat.le_trans hm.first hc.1.1) hne)

/-- The end of a byte-addressed allocation, from a state that has the volume's blocks as they were. -/
theorem post_zeroOut {u : Mnt} (hvol : SameVol s u)
    (hblk : ∀ c, 2 ≤ c → blockOf s.fs u.img c = blockOf s.fs s.img c) (b : Nat) {w : M Unit}
    (hw : w u = v7fsWriteBlock .block b zeroBuf u) {g : Fs → Fs} (hg : ∀ fs, shape (g fs) = shape fs) :
    Post ((failAs .eio w >>= fun _ => modFs g >>= fun _ => pure b : M Nat) u)
      (fun b t => InArea s.fs b → Handed s b t) fun _ _ => True := by
  by_cases hb : InArea s.fs b
  · have hmu := hm.of_sameVol hvol
    have hbu := shape_blockOf hvol.shape
    have hlt : b < u.fs.fsize := by
      rw [shape_fsize hvol.shape]
      exact Nat.lt_of_lt_of_le hb.2 hm.last
    refine post_bind (post_failAs ?_)
    rw [hw]
    refine hmu.post_write hlt (fun _ => ?_) fun _ _ => trivial
    show InArea s.fs b → Handed s b { putAt .block b zeroBuf u with fs := g u.fs }
    intro _
    have hlast : SameVol u { putAt .block b zeroBuf u with fs := g u.fs } := ⟨hg _, rfl, rfl⟩
    refine handed_bytes hm (sameVol_law.trans hvol hlast) hb ?_ ?_
    · rw [← hbu]
      exact (blockOf_putBlock u.fs _ b zeroBuf).trans (window_zeroBuf _)
    · intro c h2 hc
      refine Eq.trans ?_ (hblk c h2)
      rw [← hbu]
      exact blockOf_putBlock_ne hc _ _
  · refine post_bind ((post_true _).mono (fun _ _ _ => ?_) fun _ _ _ => trivial)
    exact fun hin => absurd hin hb

theorem post_v7fsBalloc_any : Post (v7fsBalloc s) (fun b t => InArea s.fs b → Handed s b t) fun _ _ =>
    True := by
  refine post_bindFs (post_ite (fun _ => trivial) fun _ =>
    post_bindMod (post_ite (fun _ => trivial) fun _ => ?_))
  refine post_ite (fun _ => trivial) fun hin => ?_
  generalize s.fs.free (s.fs.nfree - 1) = b at hin ⊢
  have hpop : SameVol s { s with fs := { s.fs with nfree := s.fs.nfree - 1 } } := ⟨rfl, rfl, rfl⟩
  refine post_bind (post_onlyIf (fun _ => ?_) fun _ => post_zeroOut hm hpop (fun _ _ => rfl) b rfl fun _ => rfl)
  have hmp := hm.of_sameVol hpop
  refine post_bind (post_failAs (hmp.post_read (show b < s.fs.fsize by omega) (fun _ => post_bindMod ?_)
    fun _ _ => trivial))
  generalize hr : ({ ticked { s with fs := { s.fs with nfree := s.fs.nfree - 1 } } with fs := _ } : Mnt) = r
  have hvol : SameVol s r := hr ▸ ⟨rfl, rfl, rfl⟩
  have himg : r.img = s.img := hr ▸ rfl
  have hmr := hm.of_sameVol hvol
  refine post_failAs (hmr.post_superWrite (fun _ _ => ?_) fun _ _ _ _ => trivial)
  refine post_zeroOut hm (sameVol_law.trans hvol (flushed_sameVol r)) (fun c h2 => ?_) b rfl fun _ => rfl
  rw [← shape_blockOf hvol.shape, ← himg]
  exact blockOf_putSuper hmr.bsize h2 _ _

theorem post_v8BitmapBalloc_any :
    Post (v8BitmapBalloc s) (fun b t => InArea s.fs b → Handed s b t) fun _ _ => True := by
  apply post_bindFs
  cases firstBit s.fs.v8Bits s.fs.v8Nbits 0 with
  | none => trivial
  | some i =>
    have hvol : SameVol s { s with fs := { s.fs with v8Bits := putBit s.fs.v8Bits i false } } := ⟨rfl, rfl, rfl⟩
    apply post_bindMod
    exact post_zeroOut hm hvol (fun _ _ => rfl) (s.fs.v8Base + i) rfl fun _ => rfl

theorem post_v1fsBalloc_any (hv1 : s.fs.desc.ops = .v1) :
    Post (v1fsBalloc s) (fun b t => InArea s.fs b → Handed s b t) fun _ _ => True := by
  apply post_bindFs
  cases firstBit s.fs.freemap (s.fs.fsize - v1DataStart s.fs.maxino) (v1DataStart s.fs.maxino) with
  | none => trivial
  | some b =>
    have hvol : SameVol s { s with
        fs := { s.fs with freemap := putBit s.fs.freemap b false, tfree := s.fs.tfree - 1 } } := ⟨rfl, rfl, rfl⟩
    have hm1 := hm.of_sameVol hvol
    apply post_bindMod
    exact post_zeroOut hm hvol (fun _ _ => rfl) b (hm1.v1fsWriteBlock_eq hv1 .block b zeroBuf) fun _ => rfl

end Bytes

/-- A PDP-7 block is taken off the head node. -/
theorem post_p7fsBalloc_any {s : Mnt} (hm : Mounted7 s) (hq : ∀ k, s.env.fails k = false) :
    Post (p7fsBalloc s) (fun b t => InArea s.fs b → Handed s b t) fun _ _ => True := by
  have hr := holds7_self s
  by_cases hstop : s.fs.freelist = 0 ∨ ¬ WordsIn s s.fs.freelist
  · exact (post_p7fsBalloc_stop hm hq hr hstop).mono (fun _ _ hf => hf.elim) fun _ _ _ => trivial
  · obtain ⟨h0, hin⟩ := not_or.mp hstop
    refine (post_p7fsBalloc hm hq hr h0 (not_not.mp hin)).mono ?_ fun _ _ _ => trivial
    intro b t h harea
    obtain ⟨hb, hbin, ht, hvol⟩ := h
    have hword : ∀ c, WordsIn s c → ∀ i, i < 64 →
      wordsOf s.fs t.img c i = (take (wordsOf s.fs s.img) s.fs.freelist).2.1 c i := by
      intro c hc i hi
      have := ht.words c ((wordsIn_of_sameVol hvol c).mpr hc) i hi
      rwa [shape_wordsOf hvol.shape] at this
    -- the node taken from is the head, or the head itself is taken
    have hnode : (take (wordsOf s.fs s.img) s.fs.freelist).2.1 b = (fun _ => 0) ∧
        ∀ c, c ≠ b → c ≠ s.fs.freelist →
        (take (wordsOf s.fs s.img) s.fs.freelist).2.1 c = wordsOf s.fs s.img c := by
      by_cases hlast : p7Last (wordsOf s.fs s.img s.fs.freelist) = 0
      · rw [take_exhausted hlast] at hb ⊢
        subst hb
        refine ⟨funext fun i => if_pos rfl, fun c hc _ => zeroed_ne hc⟩
      · rw [take_entry hlast] at hb ⊢
        subst hb
        refine ⟨funext fun i => if_pos rfl, fun c hc hf => ?_⟩
        exact (zeroed_ne hc).trans (cleared_ne hf)
    have hread : ∀ c, readable s c = true ↔ WordsIn s c := by
      intro c
      unfold readable inImage
      rw [if_pos hm.pdp7, decide_eq_true_eq]
    refine ⟨hvol, ⟨harea, (hread b).mpr hbin⟩, fun i hi => ?_, fun c hc hne hfl => ?_⟩
    · unfold heap entryAt
      rw [shape_desc hvol.shape, if_pos hm.pdp7, shape_wordsOf hvol.shape,
        hword b hbin i (hm.nindir ▸ hi), hnode.1]
    · refine (contents_words hm hvol).mpr fun i hi => ?_
      rw [hword c ((hread c).mp hc.2) i hi, hnode.2 c hne (hfl hm.pdp7)]

/-- `alloc->balloc`, whatever state the free space is in. -/
theorem post_balloc {s : Mnt} (hv : OnVolume s) (hf : Formed s.fs.desc) (hq : ∀ k, s.env.fails k = false) :
    Post (balloc s) (fun b t => InArea s.fs b → Handed s b t) fun _ _ => True := by
  apply post_bindFs
  rcases hv with hm | hm
  · cases ha : s.fs.desc.alloc with
    | freelist => exact post_v7fsBalloc_any hm
    | v8bitmap => exact post_v8BitmapBalloc_any hm
    | bitmap => exact post_v1fsBalloc_any hm (hf.bitmap ha)
    | pdp7 => exact absurd (hf.alloc.mp ha) hm.notPdp7
  · rw [hf.alloc.mpr hm.pdp7]
    exact post_p7fsBalloc_any hm hq

end Filsys.Blockmap
