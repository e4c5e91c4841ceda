/-
  Filsys.Undo.Size — the size a write that was rolled back leaves (filsys.c).

  `filsys_write_ino` rolls a failed write back with the copy the write has worked on. The
  block loop leaves the size of that copy alone; `filsys_file_write` advances it before it
  writes the record. So when it is that write which fails, the rollback puts the advanced
  size on disk (`rolled_back_size_iff`). What the rollback frees afterwards stays clear of
  the record (`Spares`).
-/

import Filsys.Check.Guard
import Filsys.Engine.Ops
import Filsys.Names.Finite

namespace Filsys.Undo

open Filsys.Lib Filsys.Engine Filsys.Check

/-! ## Sizes of records -/

/-- The size a record has on the image: bytes, on the PDP-7 words. -/
def sizeField (fs : Fs) (img : Buf) (n : Nat) : Nat :=
  if fs.desc.ops = .pdp7 then wordsOf fs img (p7Itod n) (p7Itoo n + 10) else (recordOf fs img n).size

/-- A size in those units. -/
def units (d : Desc) (size : Nat) : Nat := if d.ops = .pdp7 then (size + 1) / 2 else size

/-- How an edition's records hold sizes, and the allocator its layout has. -/
structure SizeFormat (d : Desc) : Prop where
  v1 : d.ops = .v1 → d.sizeBits = 16 ∧ d.alloc = .bitmap
  v6 : d.ops = .v6 → d.sizeBits = 24
  words : d.alloc = .pdp7 ↔ d.ops = .pdp7

theorem sizeFormat_getformat (e : Edition) : SizeFormat (filsysGetformat e) := by
  cases e <;> exact ⟨by decide, by decide, by decide⟩

/-- One past the largest size a record holds. -/
def sizeEnd (d : Desc) : Nat := if d.ops = .pdp7 then 2 ^ 18 else 2 ^ sizeLen d

/-- A file within the size limit has a size its record holds. -/
theorem units_lt {d : Desc} (hf : SizeFormat d) {size : Nat} (h : size ≤ maxFile d) :
    units d size < sizeEnd d := by
  unfold units sizeEnd sizeLen
  unfold maxFile at h
  by_cases hp : d.ops = .pdp7
  · rw [if_pos hp] at h
    rw [if_pos hp, if_pos hp]
    omega
  · rw [if_neg hp] at h
    rw [if_neg hp, if_neg hp]
    simp only at h
    by_cases h1 : d.ops = .v1
    · rw [(hf.v1 h1).1, if_neg (by decide)] at h
      rw [if_pos h1]
      omega
    · rw [if_neg h1]
      by_cases h6 : d.ops = .v6
      · rw [hf.v6 h6, if_neg (by decide)] at h
        rw [if_pos h6]
        omega
      · rw [if_neg h6]
        split at h <;> omega

theorem sizeField_lt (fs : Fs) (img : Buf) (n : Nat) : sizeField fs img n < sizeEnd fs.desc := by
  have h16 : ∀ (bo : ByteOrder) (b : Buf) o, bo.get16 b o < 2 ^ 16 := by
    intro bo b o
    have := num_lt (ByteOrder.perm_sig16 bo) b o
    rwa [ByteOrder.length_sig16] at this
  have h32 : ∀ (bo : ByteOrder) (b : Buf) o, bo.get32 b o < 2 ^ 32 := by
    intro bo b o
    have := num_lt (ByteOrder.perm_sig32 bo) b o
    rwa [ByteOrder.length_sig32] at this
  unfold sizeField sizeEnd
  by_cases hp : fs.desc.ops = .pdp7
  · rw [if_pos hp, if_pos hp]
    exact wordsOf_lt ..
  · rw [if_neg hp, if_neg hp]
    unfold recordOf decodeAt decodeInode sizeLen
    by_cases h1 : fs.desc.ops = .v1
    · rw [if_pos h1, if_pos h1]
      exact h16 ..
    · rw [if_neg h1, if_neg h1]
      by_cases h6 : fs.desc.ops = .v6
      · rw [if_pos h6, if_pos h6]
        have hlow := h16 fs.desc.bo (blockOf fs img (itod fs n)) (itoo fs n + 6)
        have hhigh := (blockOf fs img (itod fs n) (itoo fs n + 5)).toNat_lt
        show (blockOf fs img (itod fs n) (itoo fs n + 5)).toNat * 65536 +
          fs.desc.bo.get16 (blockOf fs img (itod fs n)) (itoo fs n + 6) < 2 ^ 24
        omega
      · rw [if_neg h6, if_neg h6]
        exact h32 ..

theorem units_mono {d : Desc} {a b : Nat} (h : a ≤ b) : units d a ≤ units d b := by
  unfold units
  split
  · omega
  · exact h

/-! ## Writes beside a record -/

/-- The bytes of the block that holds record `n`. -/
def recordBytes (fs : Fs) (img : Buf) (n : Nat) : Buf := window img (recordBlock fs n).1 (recordBlock fs n).2

theorem sizeField_congr {fs : Fs} {img img' : Buf} {n : Nat}
    (h : recordBytes fs img' n = recordBytes fs img n) :
    sizeField fs img' n = sizeField fs img n := by
  unfold sizeField
  unfold recordBytes recordBlock at h
  by_cases hp : fs.desc.ops = .pdp7
  · rw [if_pos hp] at h ⊢
    rw [if_pos hp]
    unfold wordsOf
    rw [h]
  · rw [if_neg hp] at h ⊢
    rw [if_neg hp]
    have hblk : blockOf fs img' (itod fs n) = blockOf fs img (itod fs n) := h
    unfold recordOf
    rw [hblk]

theorem shape_recordBytes {fs fs' : Fs} (h : shape fs' = shape fs) : recordBytes fs' = recordBytes fs := by
  unfold recordBytes
  rw [shape_recordBlock h]

/-- A stretch of a run that leaves the bytes of record `n`'s block, where it writes no block over them. -/
structure LeftAlone (n : Nat) (s t : Mnt) : Prop extends SameVol s t where
  writes : ∃ evs, t.trace = evs ++ s.trace ∧
    ((∀ e ∈ evs, Misses s.fs n e) → recordBytes s.fs t.img n = recordBytes s.fs s.img n)

def Spares (d : Desc) (n : Nat) (s t : Mnt) : Prop := Host d s → LeftAlone n s t

theorem spared_quiet {n : Nat} {s t : Mnt} (hvol : SameVol s t) (himg : t.img = s.img)
    (htrace : t.trace = s.trace) : LeftAlone n s t :=
  ⟨hvol, [], htrace, fun _ => by rw [himg]⟩

theorem LeftAlone.trans {n : Nat} {s t u : Mnt} (h : LeftAlone n s t) (h' : LeftAlone n t u) :
    LeftAlone n s u := by
  obtain ⟨hvol, evs, htr, hkeep⟩ := h
  obtain ⟨hvol', evs', htr', hkeep'⟩ := h'
  refine ⟨sameVol_law.trans hvol hvol', evs' ++ evs, by rw [htr', htr, List.append_assoc], fun hmiss => ?_⟩
  rw [shape_misses hvol.shape, shape_recordBytes hvol.shape] at hkeep'
  exact (hkeep' fun e he => hmiss e (List.mem_append_left _ he)).trans
    (hkeep fun e he => hmiss e (List.mem_append_right _ he))

section Law

variable {d : Desc} {n : Nat}

theorem spares_refl (s : Mnt) : Spares d n s s := fun _ => spared_quiet (sameVol_law.refl s) rfl rfl

theorem spares_base (d : Desc) (n : Nat) : Law (Spares d n) where
  refl := spares_refl
  trans h h' hs := (h hs).trans (h' (hs.of_sameVol (h hs).toSameVol))

theorem spares_peek {s t : Mnt} (h : ReadOnly s t) : Spares d n s t := by
  intro hs
  obtain ⟨k, -, rfl⟩ := h hs.solo
  exact spared_quiet ⟨rfl, rfl, rfl⟩ rfl rfl

theorem keeps_spares {α : Type} {x : M α}
    (h : ∀ s, Host d s → Post (x s) (fun _ t => Spares d n s t) (fun _ t => Spares d n s t)) :
    Keeps (Spares d n) x := by
  intro s
  by_cases hs : Host d s
  · exact h s hs
  · exact (post_true _).mono (fun _ _ _ h => absurd h hs) fun _ _ _ h => absurd h hs

/-- The write of a block. -/
theorem post_spare {s : Mnt} (hs : Host d s) {site : Site} (hb : site.IsBlock) (buf : Buf)
    {len off : Nat} (hin : off + len ≤ s.size) :
    Post (ioWrite site buf len off s) (fun _ t => Spares d n s t) (fun _ t => Spares d n s t) := by
  apply post_ioWrite
  · intro _
    rw [wrote_solo hs.solo hin]
    refine fun _ => ⟨⟨rfl, rfl, rfl⟩, [⟨site, s.fs, off, len, s.img, splice s.img off buf 0 len⟩], rfl,
      fun hmiss => ?_⟩
    have hclear : off + len ≤ (recordBlock s.fs n).1 ∨ (recordBlock s.fs n).1 + (recordBlock s.fs n).2 ≤
      off := hmiss _ (List.mem_singleton_self _) hb
    exact window_congr fun i hlo hhi => splice_outside (by omega)
  · intro _
    rw [touch_solo hs.solo]
    exact fun _ => spared_quiet (ticked_sameVol s) rfl rfl

theorem spares_v7Block (site : Site) (b : Nat) (buf : Buf) (hb : site.IsBlock) :
    Keeps (Spares d n) (v7fsWriteBlock site b buf) :=
  keeps_spares fun s hs => post_bindFs (post_ite (fun _ => spares_refl s) fun _ =>
    post_ite (fun hc => post_spare hs hb buf (hs.inSize hc)) fun _ => spares_refl s)

theorem spares_superPut (sb : Buf) : Keeps (Spares d n) (superPut sb) := by
  refine keeps_spares fun s hs => post_bindFs (post_ite (fun hd => ?_) fun _ =>
    spares_v7Block .super 1 sb trivial s)
  have hm : Mounted s := by
    rcases hs.ready with hm | hm
    · exact hm
    · obtain ⟨bo, wc, hf⟩ := hm.format
      rw [hf] at hd
      cases hd
  have hfit := hm.super_fits
  rw [superOff, superLen, if_pos hd, if_pos hd] at hfit
  exact @post_spare _ _ _ hs .super trivial sb _ _ hfit

/-- No record goes out. -/
theorem spares_law (d : Desc) (n : Nat) : WriteLaw (fun _ _ => False) (Spares d n) where
  toLaw := spares_base d n
  peek := spares_peek
  v7Block := spares_v7Block
  v1Block site b buf hb := keeps_spares fun s hs => post_bindFs (post_ite (fun _ => spares_refl s) fun _ =>
    post_ite (fun hc => post_spare hs hb buf (hs.inSize hc)) fun _ => spares_refl s)
  words site b w hb := keeps_spares fun s hs =>
    post_bindFs (post_ite (fun hc => post_failAs (post_spare hs hb _ (hs.inSize hc))) fun _ =>
    spares_refl s)
  super := by
    have law := spares_base d n
    refine law.bindFs fun _ => keeps_ite (law.ret _) (law.seq (keeps_failAs ?_) fun _ =>
      law.seq (fun s _ => ?_) fun _ =>
      law.seq (keeps_failAs (spares_superPut _)) fun _ s _ => spared_quiet ⟨rfl, rfl, rfl⟩ rfl rfl)
    · exact law.bindFs fun _ => keeps_ite ((ioRead_peeks _ _).mono spares_peek)
        ((v7fsReadBlock_peeks _).mono spares_peek)
    · exact spared_quiet ⟨rfl, rfl, rfl⟩ rfl rfl
  record _ _ hok := hok.elim
  mod f hf s _ := spared_quiet ⟨(hf s.fs).2, rfl, rfl⟩ rfl rfl
  gains _ hok := hok.elim

end Law

/-! ## What is given back -/

/-- The writes of a stretch stay clear of record `n`'s block. -/
structure Clear (n : Nat) (s t : Mnt) : Prop extends SameVol s t where
  writes : ∃ evs, t.trace = evs ++ s.trace ∧ ∀ e ∈ evs, Misses s.fs n e

theorem Clear.trans {n : Nat} {s t u : Mnt} (h : Clear n s t) (h' : Clear n t u) : Clear n s u := by
  obtain ⟨hvol, evs, htr, hmiss⟩ := h
  obtain ⟨hvol', evs', htr', hmiss'⟩ := h'
  refine ⟨sameVol_law.trans hvol hvol', evs' ++ evs, by rw [htr', htr, List.append_assoc], fun e he => ?_⟩
  rw [shape_misses hvol.shape] at hmiss'
  rcases List.mem_append.mp he with he | he
  · exact hmiss' e he
  · exact hmiss e he

theorem clear_quiet {n : Nat} {s t : Mnt} (hvol : SameVol s t) (htrace : t.trace = s.trace) : Clear n s t :=
  ⟨hvol, [], htrace, fun _ he => absurd he List.not_mem_nil⟩

/-- A byte-addressed edition gives back data blocks only, and the i-list lies before them. -/
theorem post_bfree_clear {s : Mnt} (hm : Mounted s) (hf : SizeFormat s.fs.desc) {n : Nat}
    (hn : ValidIno s.fs n) (b : Nat) :
    Post (bfree b s) (fun _ t => Clear n s t) (fun _ _ => False) := by
  have hbound := (hm.itod_bounds hn).2
  apply post_bindFs
  cases ha : s.fs.desc.alloc with
  | freelist =>
    have hv : s.fs.desc.ops ≠ .v1 := by
      intro hv
      have := (hf.v1 hv).2
      rw [ha] at this
      cases this
    have hstart : opsDataStart s.fs = v7DataFirst s.fs := by
      have hp := hm.notPdp7
      unfold opsDataStart
      cases ho : s.fs.desc.ops with
      | v1 => exact absurd ho hv
      | pdp7 => exact absurd ho hp
      | v6 => rfl
      | v7 => rfl
      | bsd211 => rfl
    refine post_bindFs (post_ite (fun _ => clear_quiet (sameVol_law.refl s) rfl) fun hin => ?_)
    have hgo : ∀ t, Clear n s t → Post (dumpThenPush b t) (fun _ u => Clear n s u) (fun _ _ => False) := by
      intro t ht
      have hquiet : ∀ u, SameVol t u → u.trace = t.trace → Clear n s u :=
        fun u hv htr => ht.trans (clear_quiet hv htr)
      refine post_bindFs (post_ite (fun _ => post_bind (post_attempt ?_)) fun _ => hquiet _ ⟨rfl, rfl, rfl⟩ rfl)
      have hmt := hm.of_sameVol ht.toSameVol
      refine hmt.post_write (by rw [shape_fsize ht.shape]; omega)
        (fun _ => ht.trans ⟨⟨rfl, rfl, rfl⟩, [_], rfl, fun e he _ => ?_⟩)
        fun _ _ => hquiet _ (ticked_sameVol t) rfl
      rw [List.mem_singleton.mp he]
      unfold recordBlock
      rw [if_neg hmt.notPdp7, shape_itod ht.shape]
      have hblocks := block_disjoint t.fs.base t.fs.desc.bsize (show itod s.fs n ≠ b by omega)
      exact hblocks.symm
    refine post_bind (post_onlyIf (fun _ => ?_) fun _ => hgo s (clear_quiet (sameVol_law.refl s) rfl))
    exact hgo _ (clear_quiet ⟨rfl, rfl, rfl⟩ rfl)
  | v8bitmap =>
    exact post_bindFs (post_ite (fun _ => clear_quiet (sameVol_law.refl s) rfl) fun _ =>
      clear_quiet ⟨rfl, rfl, rfl⟩ rfl)
  | bitmap =>
    exact post_bindFs (post_ite (fun _ => clear_quiet (sameVol_law.refl s) rfl) fun _ =>
      clear_quiet ⟨rfl, rfl, rfl⟩ rfl)
  | pdp7 => exact absurd (hf.words.mp ha) hm.notPdp7

theorem post_drain_clear {s : Mnt} (hm : Mounted s) (hf : SizeFormat s.fs.desc) {n : Nat}
    (hn : ValidIno s.fs n) (L : List Nat) :
    Post (blklistDrain L s) (fun _ t => Clear n s t) (fun _ _ => False) := by
  induction L generalizing s with
  | nil => exact clear_quiet (sameVol_law.refl s) rfl
  | cons b L ih =>
    refine post_bind ((post_bfree_clear hm hf hn b).mono (fun _ t ht => ?_) fun _ _ hno => hno)
    have hd := shape_desc ht.shape
    exact (ih (hm.of_sameVol ht.toSameVol) (hd ▸ hf) ((shape_validIno ht.shape).mpr hn)).mono
      (fun _ _ hu => ht.trans hu) fun _ _ hno => hno

/-! ## The record -/

section Record

variable {d : Desc} {s : Mnt} (hs : Host d s)

include hs

/-- A copy has the size its record has. -/
theorem post_sizeRead (n : Nat) : Post (readInode n s)
    (fun ip t => n ≠ 0 ∧ (d.ops ≠ .pdp7 → ValidIno s.fs n) ∧ units d ip.size = sizeField s.fs s.img n ∧
      ReadOnly s t) (fun _ _ => True) := by
  have hread : Post (readInode n s) (fun ip _ => n ≠ 0 ∧ (d.ops ≠ .pdp7 → ValidIno s.fs n) ∧
    units d ip.size = sizeField s.fs s.img n) (fun _ _ => True) := by
    by_cases hp : d.ops = .pdp7
    · have hm := hs.mounted7 hp
      rw [hm.readInode_eq]
      refine post_ite (fun _ => trivial) fun hn =>
        post_bind (post_failAs (hm.post_readWords (fun _ _ => ?_) (fun _ _ => trivial) fun _ _ => trivial))
      have hodd : ∀ ip : Inode, ip.size = wordsOf s.fs s.img (p7Itod n) (p7Itoo n + 10) * 2 ∨
          0 < ip.size ∧ ip.size + 1 = wordsOf s.fs s.img (p7Itod n) (p7Itoo n + 10) * 2 →
          n ≠ 0 ∧ (d.ops ≠ .pdp7 → ValidIno s.fs n) ∧ units d ip.size = sizeField s.fs s.img n := by
        intro ip hip
        refine ⟨fun h0 => hn (.inl h0), fun hne => absurd hp hne, ?_⟩
        unfold units sizeField
        rw [if_pos hp, if_pos (hs.desc ▸ hp)]
        omega
      refine post_ite (fun hpos => post_bind (post_inside ?_)) fun _ => hodd _ (.inl rfl)
      refine (post_true _).mono (fun lastw t _ => ?_) fun _ _ _ => hodd _ (.inl rfl)
      by_cases hlow : lastw % 512 = 0
      · have hpos' : 0 < wordsOf s.fs s.img (p7Itod n) (p7Itoo n + 10) * 2 := hpos.2
        refine hodd _ (.inr ?_)
        rw [if_pos hlow]
        show 0 < wordsOf s.fs s.img (p7Itod n) (p7Itoo n + 10) * 2 - 1 ∧
          wordsOf s.fs s.img (p7Itod n) (p7Itoo n + 10) * 2 - 1 + 1 = _
        omega
      · refine hodd _ (.inl ?_)
        rw [if_neg hlow]
        rfl
    · have hm := hs.mounted hp
      refine hm.post_readInode (fun hv => ⟨hv.1, fun _ => hv, ?_⟩) (fun _ _ => trivial) fun _ _ => trivial
      unfold units sizeField
      rw [if_neg hp, if_neg (hs.desc ▸ hp)]
  exact (hread.and (readInode_peeks n s)).mono (fun _ _ h => ⟨h.1.1, h.1.2.1, h.1.2.2, h.2⟩)
    fun _ _ _ => trivial

/-- A record that has gone out has the size of its copy. -/
theorem post_sizeWritten (n : Nat) (ip : Inode) : Post (writeInode n ip s)
    (fun _ t => SameVol s t ∧ sizeField s.fs t.img n = units d ip.size % sizeEnd d) (fun _ _ => True) := by
  by_cases hp : d.ops = .pdp7
  · have hm := hs.mounted7 hp
    have heq : writeInode n ip s = p7fsWriteInode n ip s := by
      unfold writeInode
      rw [bindFs_run]
      rw [hs.desc, hp]
    rw [heq]
    refine post_bindFs (post_ite (fun _ => trivial) fun _ => post_ite (fun _ => trivial) fun _ => post_bind ?_)
    refine ((spares_base d n).flushIfDirty (spares_law d n).p7SuperWrite s).mono (fun _ t ht => ?_)
      fun _ _ _ => trivial
    have hvol := (ht hs).toSameVol
    have hmt := hm.of_sameVol hvol
    refine post_bind (post_failAs (hmt.post_readWords (fun _ _ => ?_) (fun _ _ => trivial) fun _ _ => trivial))
    have hmt' : Mounted7 (ticked t) := hmt.of_sameVol (ticked_sameVol t)
    refine hmt'.post_writeWords (fun _ _ => ⟨sameVol_law.trans hvol ⟨rfl, rfl, rfl⟩, ?_⟩)
      (fun _ _ => trivial) fun _ _ => trivial
    have hitoo : p7Itoo n + 10 < 64 := by
      unfold p7Itoo
      omega
    unfold sizeField units sizeEnd
    rw [if_pos (hs.desc ▸ hp), if_pos hp, if_pos hp]
    rw [putWords_img, ← shape_wordsOf hvol.shape, show (ticked t).fs = t.fs from rfl,
      wordsOf_putWordBlock t.fs _ _ _ hitoo]
    unfold p7EncodeInode
    rw [if_neg (by omega), if_neg (by omega), if_neg (by omega), if_neg (by omega), if_pos rfl]
    exact Nat.mod_mod ..
  · have hm := hs.mounted hp
    refine hm.post_writeInode (fun t ht hv => ⟨sameVol_law.trans ht.toSameVol ⟨rfl, rfl, rfl⟩, ?_⟩)
      (fun _ _ _ _ => trivial) fun _ _ _ _ => trivial
    have hmt := hm.of_sameVol ht.toSameVol
    have hd := shape_desc ht.shape
    have hrec := (recordOf_putInode hmt (by rw [hd, hs.desc]; exact hs.layout hp) (n := n) ip).size
    rw [show recordOf (putInode n ip t).fs = recordOf s.fs from shape_recordOf ht.shape, hd, hs.desc] at hrec
    unfold sizeField units sizeEnd
    rw [if_neg (hs.desc ▸ hp), if_neg hp, if_neg hp]
    exact hrec

end Record

/-! ## The copy -/

/-- The copy's size is as it was. -/
def SameSize (a b : Mnt × Loc) : Prop := b.2.ip.size = a.2.ip.size

theorem sameSize_base : Law SameSize where
  refl _ := rfl
  trans h h' := h'.trans h

theorem up_sameSize {α : Type} (x : M α) : Keeps SameSize (up x) :=
  fun _ => post_outside ((post_true _).mono (fun _ _ _ => rfl) fun _ _ _ => rfl)

theorem sameSize_law : CutLaw SameSize where
  toLaw := sameSize_base
  reads _ := up_sameSize _
  push _ _ := rfl
  clear _ _ := rfl
  writes _ _ := up_sameSize _

theorem filsysBmap_sameSize (lbn : Nat) (create : Bool) : Keeps SameSize (filsysBmap lbn create) := by
  have law := sameSize_base
  have hget : Keeps SameSize getIp := fun _ => rfl
  refine keeps_bind law (up_sameSize _) fun fs => ?_
  refine keeps_bind law hget fun _ => ?_
  refine keeps_bind law (keeps_onlyIf law ?_) fun _ => keeps_bind law hget fun ip => ?_
  · refine keeps_bind law (up_sameSize _) fun _ => ?_
    refine keeps_bind law hget fun _ => ?_
    refine keeps_bind law (up_sameSize _) fun _ => ?_
    exact keeps_bind law (up_sameSize _) fun _ _ => rfl
  · split
    · exact keeps_ite (keeps_throw law) (keeps_pure law)
    · split
      · exact keeps_ite (keeps_bind law (up_sameSize _) fun _ => keeps_bind law (fun _ => rfl) fun _ =>
          keeps_pure law) (keeps_pure law)
      · refine keeps_bind law hget fun _ => keeps_ite (keeps_ite ?_ (keeps_pure law)) (up_sameSize _)
        exact keeps_bind law (up_sameSize _) fun _ => keeps_bind law (fun _ => rfl) fun _ => up_sameSize _

theorem fileWriteLoop_sameSize (buf : Buf) (size off fuel done : Nat) :
    Keeps SameSize (fileWriteLoop buf size off fuel done) := by
  have law := sameSize_base
  induction fuel generalizing done with
  | zero => exact keeps_pure law
  | succ fuel ih =>
    exact keeps_ite (keeps_pure law) (keeps_bind law (up_sameSize _) fun _ =>
      keeps_bind law (filsysBmap_sameSize _ _) fun _ =>
      keeps_ite (keeps_throw law) (keeps_bind law (up_sameSize _) fun _ =>
        keeps_bind law (up_sameSize _) fun _ => ih _))

/-- The block loop of `filsys_file_write` fails. -/
def LoopFails (buf : Buf) (size : Nat) (off : Int) (s : Mnt) (ip : Inode) : Prop :=
  ∃ e t, fileWriteLoop buf size off.toNat size 0 (s, ⟨ip, []⟩) = .error e t

/-- A write that fails advances the size of its copy when it is the record that fails. -/
theorem post_fileWriteSize (buf : Buf) (size : Nat) {off : Int} (h0 : ¬ off < 0) (s : Mnt)
    (ip : Inode) : Post (filsysFileWrite buf size off (s, ⟨ip, []⟩))
    (fun _ _ => True) (fun _ t => LoopFails buf size off s ip ∧ t.2.ip.size = ip.size ∨
      ¬ LoopFails buf size off s ip ∧ t.2.ip.size = if ip.size < off.toNat + size then
      (off.toNat + size) % 2 ^ 32 else ip.size) := by
  refine post_ite (fun hneg => absurd hneg h0) fun _ => post_bind ?_
  have hsize := fileWriteLoop_sameSize buf size off.toNat size 0 (s, ⟨ip, []⟩)
  cases hloop : fileWriteLoop buf size off.toNat size 0 (s, ⟨ip, []⟩) with
  | error e t =>
    rw [hloop] at hsize
    exact .inl ⟨⟨e, t, hloop⟩, hsize⟩
  | ok _ t =>
    rw [hloop] at hsize
    have hsize : t.2.ip.size = ip.size := hsize
    have hnot : ¬ LoopFails buf size off s ip := by
      rintro ⟨e, u, hrun⟩
      rw [hloop] at hrun
      cases hrun
    refine post_bind (post_bind
      (post_bind (post_outside ((post_true _).mono (fun _ _ _ => trivial) fun _ u _ => .inr ⟨hnot, ?_⟩))))
    show (if t.2.ip.size < off.toNat + size then { t.2.ip with size := (off.toNat + size) % 2 ^ 32 }
      else t.2.ip : Inode).size = _
    rw [← hsize]
    split <;> rfl

/-! ## Rolled back -/

/-- A write to `n` on `s` fails with `e`, having left `t` and the copy `l`, and its rollback from there
    ends in `u`. -/
structure RolledBack (s : Mnt) (n : Nat) (buf : Buf) (size : Nat) (off : Int) (ip : Inode) (s₁ t : Mnt)
    (l : Loc) (e : Errno) (u : Mnt) : Prop where
  read : readInode n s = .ok ip s₁
  start : ¬ off < 0
  within : off.toNat + size ≤ maxFile s.fs.desc
  fails : filsysFileWrite buf size off (s₁, ⟨ip, []⟩) = .error e (t, l)
  undone : writeRollback n l.ip ip.size t = .ok () u

theorem RolledBack.run {s : Mnt} {n : Nat} {buf : Buf} {size : Nat} {off : Int} {ip : Inode}
    {s₁ t : Mnt} {l : Loc} {e : Errno} {u : Mnt}
    (h : RolledBack s n buf size off ip s₁ t l e u) : filsysWriteIno n buf size off s = .error e u := by
  obtain ⟨hread, h0, hmax, hfail, hundo⟩ := h
  unfold filsysWriteIno
  rw [bindFs_run]
  rw [bind_eq_of_ok hread, if_neg h0, if_neg (by omega)]
  have hon : onIp ip (filsysFileWrite buf size off) s₁ = .ok (.error e, l.ip) t := by
    have hin : inside ⟨ip, []⟩ (filsysFileWrite buf size off) s₁ = .ok (.error e, l) t := by
      unfold inside
      rw [hfail]
    show (inside ⟨ip, []⟩ (filsysFileWrite buf size off) >>= fun r => pure (r.1, r.2.ip) : M _) s₁ = _
    rw [bind_eq_of_ok hin]
    rfl
  rw [bind_eq_of_ok hon]
  show (writeRollback n l.ip ip.size >>= fun _ => throw e : M Nat) t = _
  rw [bind_eq_of_ok hundo]
  rfl

section Undone

variable {d : Desc} {s : Mnt} {n : Nat}

/-- A rollback puts the size of its copy on disk, and what it frees then stays clear of the record. -/
theorem post_writeRollback (hs : Host d s) (hf : SizeFormat d) (h0 : n ≠ 0)
    (hn : d.ops ≠ .pdp7 → ValidIno s.fs n) (ip : Inode) (old : Nat) :
    Post (writeRollback n ip old s) (fun _ u => ∃ v, Guards d n False s v ∧
      sizeField v.fs v.img n = units d ip.size % sizeEnd d ∧ Spares d n v u ∧
      (d.ops ≠ .pdp7 → Clear n v u)) (fun _ _ => True) := by
  have law : WriteLaw (Asked d n False) (Guards d n False) := guards_law h0
  apply post_bindFs
  generalize (if old = 0 then 0 else (old - 1) / s.fs.desc.bsize + 1) = k
  have hcut := (law.toCutLaw.filsysItruncFrom k (s, ⟨ip, []⟩)).and
    (sameSize_law.filsysItruncFrom k (s, ⟨ip, []⟩))
  refine post_bind (post_inside (hcut.mono ?_ fun _ _ _ => trivial))
  intro _ r h
  obtain ⟨t, l⟩ := r
  obtain ⟨hbeside, hsize⟩ := h
  obtain ⟨hgt, -⟩ := hbeside fun hno => hno.elim
  have hsize : l.ip.size = ip.size := hsize
  have ht := hs.of_sameVol (hgt hs).toSameVol
  have hwrite := (post_sizeWritten ht n l.ip).and (law.record n l.ip (fun hno => hno.elim) t)
  show Post ((writeInode n l.ip >>= fun _ => blklistDrain l.bl : M Unit) t) _ _
  refine post_bind (hwrite.mono ?_ fun _ _ _ => trivial)
  intro _ v h
  obtain ⟨⟨hvol, hfield⟩, hgv⟩ := h
  have hgsv : Guards d n False s v := (guards_base d n False).trans hgt hgv
  have hv := hs.of_sameVol (hgsv hs).toSameVol
  have hfv : sizeField v.fs v.img n = units d ip.size % sizeEnd d := by
    unfold sizeField at hfield ⊢
    rw [shape_desc hvol.shape, shape_wordsOf hvol.shape, shape_recordOf hvol.shape, hfield, hsize]
  have hspare := (spares_law d n).blklistDrain l.bl v
  by_cases hp : d.ops = .pdp7
  · exact hspare.mono (fun _ u hu => ⟨v, hgsv, hfv, hu, fun hne => absurd hp hne⟩) fun _ _ _ => trivial
  · have hclear := post_drain_clear (hv.mounted hp) (hv.desc ▸ hf)
      ((shape_validIno (hgsv hs).shape).mpr (hn hp)) l.bl
    exact (hspare.and hclear).mono (fun _ u hu => ⟨v, hgsv, hfv, hu.1, fun _ => hu.2⟩) fun _ _ _ => trivial

variable {buf : Buf} {size : Nat} {off : Int} {ip : Inode} {s₁ t : Mnt} {l : Loc} {e : Errno} {u : Mnt}

/-- A write that is rolled back leaves the size there was, unless it goes past the end and fails when
    its blocks are written. On the PDP-7 the blocks written on the way lie outside the i-list, as the
    byte-addressed editions make sure. -/
theorem rolled_back_size_iff (hs : Host d s) (hf : SizeFormat d)
    (h : RolledBack s n buf size off ip s₁ t l e u) (h7 : d.ops = .pdp7 → Clear n s u) :
    filsysWriteIno n buf size off s = .error e u ∧
      (sizeField u.fs u.img n = sizeField s.fs s.img n ↔
        units d (off.toNat + size) ≤ sizeField s.fs s.img n ∨ LoopFails buf size off s₁ ip) := by
  refine ⟨h.run, ?_⟩
  obtain ⟨hread, hneg, hmax, hfail, hundo⟩ := h
  obtain ⟨h0, hn, hunits, hro⟩ := (post_sizeRead hs n).of_ok hread
  obtain ⟨k, -, rfl⟩ := hro hs.solo
  have law : WriteLaw (Asked d n False) (Guards d n False) := guards_law h0
  obtain ⟨hgt, -⟩ := (law.filsysFileWrite buf size off _).of_error hfail fun hno => hno.elim
  have hgt : Guards d n False s t := (guards_base d n False).trans (guards_peek hro) hgt
  have ht := hs.of_sameVol (hgt hs).toSameVol
  obtain ⟨v, hgv, hfield, hspare, hclear⟩ :=
    (post_writeRollback ht hf h0 (fun hp => (shape_validIno (hgt hs).shape).mpr (hn hp))
    l.ip ip.size).of_ok hundo
  have hgsv : Guards d n False s v := (guards_base d n False).trans hgt hgv
  have hv := hs.of_sameVol (hgsv hs).toSameVol
  obtain ⟨hvol, evs, htr, hkeep⟩ := hspare hv
  have hafter : sizeField u.fs u.img n = units d l.ip.size % sizeEnd d := by
    have hmiss : ∀ e ∈ evs, Misses v.fs n e := by
      by_cases hp : d.ops = .pdp7
      · obtain ⟨all, hall, hclear⟩ := (h7 hp).writes
        obtain ⟨before, hbefore, -⟩ := (hgsv hs).writes
        rw [htr, hbefore, ← List.append_assoc] at hall
        obtain rfl := List.append_cancel_right hall
        rw [shape_misses (hgsv hs).shape]
        exact fun e he => hclear e (List.mem_append_left _ he)
      · obtain ⟨freed, hfreed, hmiss⟩ := (hclear hp).writes
        rw [htr] at hfreed
        obtain rfl := List.append_cancel_right hfreed
        exact hmiss
    rw [← hfield, ← sizeField_congr (hkeep hmiss)]
    unfold sizeField
    rw [shape_desc hvol.shape, shape_wordsOf hvol.shape, shape_recordOf hvol.shape]
  have hbound := hs.desc ▸ sizeField_lt s.fs s.img n
  rw [← hunits] at hbound ⊢
  rw [hs.desc] at hmax
  rw [hafter]
  rcases (post_fileWriteSize buf size hneg _ ip).of_error hfail with ⟨hloop, hsize⟩ | ⟨hloop, hsize⟩
  · have hsize : l.ip.size = ip.size := hsize
    rw [hsize, Nat.mod_eq_of_lt hbound]
    exact ⟨fun _ => .inr hloop, fun _ => rfl⟩
  · have hsize : l.ip.size = _ := hsize
    by_cases hgrows : ip.size < off.toNat + size
    · have hle := units_mono (d := d) (Nat.le_of_lt hgrows)
      rw [hsize, if_pos hgrows, Nat.mod_eq_of_lt (Nat.lt_of_le_of_lt hmax (Blockmap.maxFile_lt d)),
        Nat.mod_eq_of_lt (units_lt hf hmax)]
      constructor
      · intro heq
        exact .inl (Nat.le_of_eq heq)
      · intro hor
        exact Nat.le_antisymm (hor.resolve_right hloop) hle
    · rw [hsize, if_neg hgrows, Nat.mod_eq_of_lt hbound]
      exact ⟨fun _ => .inl (units_mono (by omega)), fun _ => rfl⟩

end Undone

/-! ## One failing transfer -/

/-- The small volume of V7 with its `k`-th transfer failing. -/
def failing (k : Nat) : Mnt :=
  { Names.bareVolume with env := { fails := fun i => i == Names.bareVolume.ios + k } }

def sevens : Buf := fun _ => 7

theorem host_failing (k : Nat) : Host (failing k).fs.desc (failing k) := by
  have hm := Names.bareVolume_owned.mounted
  refine ⟨.inl ⟨fun _ _ => rfl, hm.notPdp7, hm.writable, hm.bsize, hm.v1Bsize, hm.fits, hm.imgsize,
    hm.first, hm.room, hm.last⟩, rfl, ?_⟩
  intro _
  exact Names.bareVolume_owned.layout.toRecordLayout

theorem sizeFormat_failing (k : Nat) : SizeFormat (failing k).fs.desc := sizeFormat_getformat .v7

/-- The copy of the root directory, and the mount it was read on. -/
def readOn (s : Mnt) : Inode × Mnt := (valueOf (readInode 2) s, final (readInode 2) s)

/-- Sixteen bytes behind the 48 of the root directory, and what they leave. -/
def wroteOn (s : Mnt) : Mnt × Loc := final (filsysFileWrite sevens 16 48) ((readOn s).2, ⟨(readOn s).1, []⟩)

def undoneOn (s : Mnt) : Mnt := final (writeRollback 2 (wroteOn s).2.ip (readOn s).1.size) (wroteOn s).1

theorem rolledBack_failing {k : Nat} (hread : errorOf (readInode 2) (failing k) = none)
    (hfail : errorOf (filsysFileWrite sevens 16 48) ((readOn (failing k)).2,
      ⟨(readOn (failing k)).1, []⟩) = some .eio)
    (hundo : errorOf (writeRollback 2 (wroteOn (failing k)).2.ip (readOn (failing k)).1.size) (wroteOn
      (failing k)).1 = none) :
    RolledBack (failing k) 2 sevens 16 48 (readOn (failing k)).1 (readOn (failing k)).2
    (wroteOn (failing k)).1 (wroteOn (failing k)).2 .eio
      (undoneOn (failing k)) :=
  ⟨eq_ok hread, by decide, (by decide +kernel : 64 ≤ maxFile Names.bareVolume.fs.desc),
    eq_error hfail, eq_done hundo⟩

/-- The block's own write fails. -/
theorem a_write_that_fails_at_its_block_leaves_the_size :
    ∃ u, filsysWriteIno 2 sevens 16 48 (failing 2) = .error .eio u ∧ sizeField u.fs u.img 2 = 48 := by
  have h := rolledBack_failing (k := 2) (by decide +kernel) (by decide +kernel) (by decide +kernel)
  have hloop : errorOf (fileWriteLoop sevens 16 48 16 0) ((readOn (failing 2)).2,
    ⟨(readOn (failing 2)).1, []⟩) = some .eio := by
    decide +kernel
  obtain ⟨hrun, hsize⟩ := rolled_back_size_iff (host_failing 2) (sizeFormat_failing 2) h fun h7 =>
    absurd h7 (by decide +kernel)
  refine ⟨_, hrun, (hsize.mpr (.inr ⟨_, _, eq_error hloop⟩)).trans ?_⟩
  decide +kernel

/-- The record's write fails, and the rollback stores the size the write would have given the file. -/
theorem a_write_that_fails_at_its_record_leaves_its_own_size :
    RolledBack (failing 4) 2 sevens 16 48 (readOn (failing 4)).1 (readOn (failing 4)).2
    (wroteOn (failing 4)).1 (wroteOn (failing 4)).2 .eio
        (undoneOn (failing 4)) ∧ filsysWriteIno 2 sevens 16 48 (failing 4) =
        .error .eio (undoneOn (failing 4)) ∧
      sizeField (failing 4).fs (failing 4).img 2 = 48 ∧
      sizeField (undoneOn (failing 4)).fs (undoneOn (failing 4)).img 2 = 64 := by
  have h := rolledBack_failing (k := 4) (by decide +kernel) (by decide +kernel) (by decide +kernel)
  exact ⟨h, h.run, by decide +kernel, by decide +kernel⟩

end Filsys.Undo
