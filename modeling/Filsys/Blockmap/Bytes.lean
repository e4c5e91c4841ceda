/-
  Filsys.Blockmap.Bytes — a file as its bytes, whatever edition keeps them (v7fs.c, pdp7fs.c).

  Byte `o` of a file is the byte of the block its logical block is mapped to, zero in a
  hole; the PDP-7 keeps two 7-bit characters in a word. A write stores its own bytes and
  leaves the others, also where it stops for want of a block: then a prefix of it has been
  stored, up to the end of some block (`post_fileWriteLoop_inks`).
-/

import Filsys.Blockmap.Sprout
import Filsys.Tree.File

namespace Filsys.Blockmap

open Filsys.Lib Filsys.Engine Filsys.Alloc Filsys.Check Filsys.Tree

/-! ## Bytes of a block -/

/-- Byte `i` of a block that holds `w`. -/
def byteIn (d : Desc) (w : Nat → Nat) (i : Nat) : UInt8 :=
  if d.ops = .pdp7 then UInt8.ofNat (if i % 2 = 0 then w (i / 2) / 512 % 128 else w (i / 2) % 128)
  else UInt8.ofNat (w i)

/-- What is kept of a byte. -/
def storedByte (d : Desc) (c : UInt8) : UInt8 := if d.ops = .pdp7 then UInt8.ofNat (c.toNat % 128) else c

/-- Unit `i` of a block, a byte or a word, made of the block's bytes. -/
def unitFrom (d : Desc) (b : Nat → UInt8) (i : Nat) : Nat :=
  if d.ops = .pdp7 then (b (2 * i)).toNat * 512 + (b (2 * i + 1)).toNat else (b i).toNat

/-- Unit `i` is its bytes and nothing more. -/
def Packed (d : Desc) (w : Nat → Nat) (i : Nat) : Prop := w i = unitFrom d (byteIn d w) i

/-- The units of a block. -/
def unitsIn (d : Desc) : Nat := if d.ops = .pdp7 then 64 else d.bsize

theorem byteIn_zero (d : Desc) (i : Nat) : byteIn d (fun _ => 0) i = 0 := by
  unfold byteIn
  split
  · simp
  · rfl

theorem packed_zero (d : Desc) (i : Nat) : Packed d (fun _ => 0) i := by
  unfold Packed unitFrom
  simp only [byteIn_zero]
  split <;> rfl

theorem storedByte_zero (d : Desc) : storedByte d 0 = 0 := by
  unfold storedByte
  split <;> rfl

/-- A byte that has been kept is kept whole. -/
theorem storedByte_byteIn (d : Desc) (w : Nat → Nat) (i : Nat) :
    storedByte d (byteIn d w i) = byteIn d w i := by
  unfold storedByte byteIn
  split
  · split
    · rw [UInt8.toNat_ofNat', Nat.mod_mod_of_dvd _ (by decide), Nat.mod_mod]
    · rw [UInt8.toNat_ofNat', Nat.mod_mod_of_dvd _ (by decide), Nat.mod_mod]
  · rfl

theorem Formed.bsize_pos {d : Desc} (h : Formed d) : 0 < d.bsize := by
  have ht := h.table
  unfold slotsOf pdp7Slots byteSlots at ht
  simp only [List.mem_cons, Slots.mk.injEq, List.not_mem_nil, or_false] at ht
  omega

theorem bsize_words {s : Mnt} (hm : Mounted7 s) : s.fs.desc.bsize = 128 := by
  obtain ⟨bo, wc, h⟩ := hm.format
  rw [h]
  rfl

section Transfers

variable {s : Mnt} (hv : OnVolume s) (hq : ∀ k, s.env.fails k = false) {b : Nat} (hu : Usable s b)

include hv hq hu

theorem post_blkGet : Post (blkGet b s)
    (fun buf t => (∃ k, t = { s with ios := k }) ∧ ∀ i, i < s.fs.desc.bsize →
      buf i = byteIn s.fs.desc (contents s b) i) fun _ _ => False := by
  rcases hv with hm | hm
  · have hlt : b < s.fs.fsize := Nat.lt_of_lt_of_le hu.1.2 hm.last
    rw [hm.blkGet_eq]
    refine hm.post_read hlt (fun _ => ⟨⟨_, rfl⟩, fun i _ => ?_⟩) fun hf _ =>
      absurd (hf.symm.trans (hq _)) (by decide)
    unfold byteIn contents
    rw [if_neg hm.notPdp7, if_neg hm.notPdp7]
    exact UInt8.ofNat_toNat.symm
  · have hin := (readable_words hm.pdp7).mp hu.2
    have heq : blkGet b s = p7fsBlkGet b s := by
      unfold blkGet
      rw [bindFs_run]
      rw [hm.pdp7]
    rw [heq]
    refine post_bind (post_failAs (hm.post_readWords (fun _ _ => ⟨⟨_, rfl⟩, fun i hi => ?_⟩)
      (fun hout => absurd hin hout)
      fun hf _ => absurd (hf.symm.trans (hq _)) (by decide)))
    rw [bsize_words hm] at hi
    unfold byteIn contents
    simp only [if_pos hm.pdp7]
    rw [if_pos (show i / 2 < 64 by omega)]

/-- What a write of the bytes `buf` leaves. -/
structure Put (s : Mnt) (b : Nat) (buf : Buf) (t : Mnt) : Prop extends SameVol s t where
  fs : t.fs = s.fs
  other : ∀ c, c ≠ b → contents t c = contents s c
  here : ∀ i, i < s.fs.desc.bsize → byteIn s.fs.desc (contents t b) i = storedByte s.fs.desc (buf i)
  packed : ∀ i, i < unitsIn s.fs.desc → contents t b i = unitFrom s.fs.desc (byteIn s.fs.desc (contents t b)) i

theorem post_blkPut (buf : Buf) : Post (blkPut b buf s) (fun _ t => Put s b buf t) fun _ _ => False := by
  rcases hv with hm | hm
  · have hlt : b < s.fs.fsize := Nat.lt_of_lt_of_le hu.1.2 hm.last
    rw [hm.blkPut_eq]
    refine hm.post_write hlt (fun _ => ?_) fun hfail => absurd (hfail.symm.trans (hq _)) (by decide)
    refine ⟨putAt_sameVol .., rfl, fun c hc => (contents_bytes hm (putAt_sameVol ..)).mpr
      (blockOf_putBlock_ne hc _ _), fun i hi => ?_, fun i _ => ?_⟩
    case refine_2 =>
      unfold unitFrom byteIn contents
      rw [if_neg hm.notPdp7, if_neg hm.notPdp7, if_neg (show ¬ (putAt .block b buf s).fs.desc.ops =
        .pdp7 from hm.notPdp7), UInt8.ofNat_toNat]
    have hblk : blockOf s.fs (putAt .block b buf s).img b = window buf 0 s.fs.desc.bsize := blockOf_putBlock ..
    unfold byteIn storedByte contents
    rw [if_neg hm.notPdp7, if_neg hm.notPdp7,
      if_neg (show ¬ (putAt .block b buf s).fs.desc.ops = .pdp7 from hm.notPdp7)]
    show UInt8.ofNat (blockOf s.fs (putAt .block b buf s).img b i).toNat = _
    rw [hblk, window_inside hi, Nat.zero_add, UInt8.ofNat_toNat]
  · have hin := (readable_words hm.pdp7).mp hu.2
    have heq : blkPut b buf s = p7fsBlkPut b buf s := by
      unfold blkPut
      rw [bindFs_run]
      rw [hm.pdp7]
    rw [heq]
    refine post_bindFs (post_ite (fun hro => absurd hm.writable (by simp [hro])) fun _ => ?_)
    refine hm.post_writeWords (fun _ _ => ?_) (fun hout => absurd hin hout) fun hfail =>
      absurd (hfail.symm.trans (hq _)) (by decide)
    have hword : ∀ i, i < 64 →
      contents (putWords .block b (fun i => (buf (2 * i)).toNat % 128 * 512 +
      (buf (2 * i + 1)).toNat % 128) s) b i =
        (buf (2 * i)).toNat % 128 * 512 + (buf (2 * i + 1)).toNat % 128 := by
      intro i hi
      have hlo := Nat.mod_lt (buf (2 * i)).toNat (show 0 < 128 by decide)
      have hhi := Nat.mod_lt (buf (2 * i + 1)).toNat (show 0 < 128 by decide)
      unfold contents
      rw [putWords_fs, if_pos hm.pdp7, if_pos hi, putWords_img, wordsOf_putWordBlock _ _ _ _ hi]
      unfold word18
      omega
    refine ⟨putWords_sameVol .., rfl, fun c hc => (contents_words hm (putWords_sameVol ..)).mpr
      fun i _ => ?_, fun i hi => ?_, fun i hi => ?_⟩
    · rw [putWords_img, wordsOf_putWordBlock_ne hc]
    · rw [bsize_words hm] at hi
      have hlo := Nat.mod_lt (buf (2 * (i / 2))).toNat (show 0 < 128 by decide)
      have hhi := Nat.mod_lt (buf (2 * (i / 2) + 1)).toNat (show 0 < 128 by decide)
      unfold byteIn storedByte
      rw [if_pos hm.pdp7, if_pos hm.pdp7, hword _ (by omega)]
      by_cases heven : i % 2 = 0
      · rw [if_pos heven, show 2 * (i / 2) = i by omega] at *
        congr 1
        omega
      · rw [if_neg heven, show 2 * (i / 2) + 1 = i by omega] at *
        congr 1
        omega
    · unfold unitsIn at hi
      rw [if_pos hm.pdp7] at hi
      have hlo := Nat.mod_lt (buf (2 * i)).toNat (show 0 < 128 by decide)
      have hhi := Nat.mod_lt (buf (2 * i + 1)).toNat (show 0 < 128 by decide)
      unfold unitFrom byteIn
      rw [if_pos hm.pdp7, if_pos hm.pdp7, if_pos hm.pdp7, if_pos (by omega), if_neg (by omega),
        show 2 * i / 2 = i by omega,
        show (2 * i + 1) / 2 = i by omega, hword i hi, UInt8.toNat_ofNat', UInt8.toNat_ofNat']
      omega

end Transfers

/-! ## Bytes of a file -/

/-- Byte `o` of the file. -/
def byteAt (s : Mnt) (ip : Inode) (o : Nat) : UInt8 :=
  byteIn s.fs.desc (unitAt s ip (o / s.fs.desc.bsize)) (o % s.fs.desc.bsize)

/-- The bytes of one block. -/
theorem byteAt_block {s : Mnt} {ip : Inode} {k i : Nat} (hi : i < s.fs.desc.bsize) :
    byteAt s ip (s.fs.desc.bsize * k + i) = byteIn s.fs.desc (unitAt s ip k) i := by
  have hpos : 0 < s.fs.desc.bsize := by omega
  unfold byteAt
  rw [Nat.mul_add_div hpos, Nat.div_eq_of_lt hi, Nat.add_zero, Nat.mul_add_mod, Nat.mod_eq_of_lt hi]

theorem byteAt_hole {s : Mnt} {ip : Inode} {o : Nat} (h : mapAt s ip (o / s.fs.desc.bsize) = 0) :
    byteAt s ip o = 0 := by
  have hz : unitAt s ip (o / s.fs.desc.bsize) = fun _ => 0 := funext fun _ => if_pos h
  unfold byteAt
  rw [hz, byteIn_zero]

/-! ## Writes -/

/-- The bytes from `lo` to `hi` are those `c` gives, the others as they were. A block they lie in is
    made of its bytes anew. -/
structure Inked (s : Mnt) (ip : Inode) (n lo hi : Nat) (c : Nat → UInt8) (t : Mnt) (ip' : Inode) :
    Prop extends Joined s ip n t ip' where
  byte : ∀ o, Mappable s.fs o → byteAt t ip' o = if lo ≤ o ∧ o < hi then storedByte s.fs.desc (c o)
    else byteAt s ip o
  kept : ∀ k, k < 2 ^ 32 → (∀ o, lo ≤ o → o < hi → o / s.fs.desc.bsize ≠ k) → ∀ i,
    unitAt t ip' k i = unitAt s ip k i
  packed : ∀ o, Mappable s.fs o → lo ≤ o → o < hi → ∀ i, i < unitsIn s.fs.desc →
    unitAt t ip' (o / s.fs.desc.bsize) i =
    unitFrom s.fs.desc (byteIn s.fs.desc (unitAt t ip' (o / s.fs.desc.bsize))) i

section Inked

variable {s t u : Mnt} {ip ip' ip'' : Inode} {n m lo mid hi : Nat} {c : Nat → UInt8}

theorem Sprouted.byteAt (h : Sprouted s ip n t ip') {o : Nat} (ho : Mappable s.fs o) :
    byteAt t ip' o = byteAt s ip o := by
  have hd := shape_desc h.shape
  have hunit : unitAt t ip' (o / s.fs.desc.bsize) = unitAt s ip (o / s.fs.desc.bsize) :=
    funext fun i => h.unit _ ho i
  unfold Blockmap.byteAt
  rw [hd, hunit]

theorem Sprouted.inked (h : Sprouted s ip n t ip') (lo : Nat) (c : Nat → UInt8) : Inked s ip n lo lo c t ip' :=
  ⟨h.toJoined, fun o ho => by rw [h.byteAt ho, if_neg (by omega)], fun k hk _ => h.unit k hk,
    fun _ _ h1 h2 => by omega⟩

/-- A unit is the one it was, or its bytes. -/
theorem Inked.plain (h : Inked s ip n lo hi c t ip') {k : Nat} (hk : k < 2 ^ 32) {i : Nat}
    (hlt : i < unitsIn s.fs.desc) :
    unitAt t ip' k i = unitAt s ip k i ∨ Packed s.fs.desc (unitAt t ip' k) i := by
  by_cases hin : ∃ o, lo ≤ o ∧ o < hi ∧ o / s.fs.desc.bsize = k
  · obtain ⟨o, h1, h2, rfl⟩ := hin
    exact .inr (h.packed o hk h1 h2 i hlt)
  · exact .inl (h.kept k hk (fun o h1 h2 he => hin ⟨o, h1, h2, he⟩) i)

theorem Inked.trans (h : Inked s ip n lo mid c t ip') (h' : Inked t ip' m mid hi c u ip'')
    (hle : lo ≤ mid) (hle' : mid ≤ hi) :
    Inked s ip (n + m) lo hi c u ip'' := by
  have hd := shape_desc h.shape
  have hmap : ∀ {o}, Mappable s.fs o → Mappable t.fs o := by
    intro o ho
    unfold Mappable
    rw [hd]
    exact ho
  have hkept := h'.kept
  have hpacked := h'.packed
  rw [hd] at hkept hpacked
  refine ⟨h.toJoined.trans h'.toJoined, fun o ho => ?_, fun k hk hno i => ?_, fun o ho h1 h2 => ?_⟩
  case refine_2 =>
    rw [hkept k hk (fun o h1 h2 => hno o (by omega) h2) i, h.kept k hk (fun o h1 h2 => hno o h1 (by omega)) i]
  case refine_3 =>
    -- a block both halves lie in has been made anew by the second
    by_cases hlater : ∃ o', mid ≤ o' ∧ o' < hi ∧ o' / s.fs.desc.bsize = o / s.fs.desc.bsize
    · obtain ⟨o', h1', h2', he⟩ := hlater
      have := hpacked o' (hmap (by unfold Mappable at *; rw [he]; exact ho)) h1' h2'
      rwa [he] at this
    · have hsame : unitAt u ip'' (o / s.fs.desc.bsize) = unitAt t ip' (o / s.fs.desc.bsize) :=
        funext (hkept _ ho fun o' h1' h2' he => hlater ⟨o', h1', h2', he⟩)
      rw [hsame]
      refine h.packed o ho h1 ?_
      by_contra hge
      exact hlater ⟨o, by omega, h2, rfl⟩
  rw [h'.byte o (hmap ho), h.byte o ho, hd]
  by_cases h1 : mid ≤ o ∧ o < hi
  · rw [if_pos h1, if_pos (by omega)]
  · rw [if_neg h1]
    by_cases h2 : lo ≤ o ∧ o < mid
    · rw [if_pos h2, if_pos (by omega)]
    · rw [if_neg h2, if_neg (by omega)]

theorem Inked.widen (h : Inked s ip n lo hi c t ip') (hle : n ≤ m) : Inked s ip m lo hi c t ip' :=
  ⟨h.toJoined.widen hle, h.byte, h.kept, h.packed⟩

/-- One block of the file is changed, and no other block of the volume. -/
theorem Stocked.overwrite (hs : Stocked s ip) {k : Nat} (hk : k < 2 ^ 32) (h0 : mapAt s ip k ≠ 0)
    (hvol : SameVol s t) (hfs : t.fs = s.fs)
    (hother : ∀ b, b ≠ mapAt s ip k → contents t b = contents s b) :
    Joined s ip 0 t ip ∧ unitAt t ip k = contents t (mapAt s ip k) ∧ ∀ j, j < 2 ^ 32 → j ≠ k →
    unitAt t ip j = unitAt s ip j := by
  have hf := hs.stock.form
  have hin := mapAt_inTree hf hk h0
  have hst := hs.steady hvol fun b hb0 hb => hother b fun he => mapAt_not_indirect hs.able hk h0 (he ▸ hb)
  obtain ⟨hstock, hfree⟩ := hs.stock.of_same hvol (fun _ => by rw [hfs]) (fun _ => by rw [hfs])
    fun b hb => hother b fun he =>
    hs.apart _ hin (he ▸ hb)
  refine ⟨⟨hvol, rfl, .inl rfl, hst.stocked hs hstock hfree, fun b => by rw [hfree, hst.inTree],
    ⟨[], Nat.le_refl 0, fun x => by simp [hfree]⟩, fun j hj _ => hst.mapAt hf hj, fun b _ _ hb =>
    hother b fun he => hb (he ▸ hin)⟩, ?_, ?_⟩
  · funext i
    unfold unitAt
    rw [hst.mapAt hf hk, if_neg h0]
  · intro j hj hne
    funext i
    unfold unitAt
    rw [hst.mapAt hf hj]
    split
    · rfl
    · rename_i hj0
      rw [hother _ fun he => hne (mapAt_inj hs.able hj hk hj0 he)]

/-- One block of the file is written. -/
theorem Put.inked (hs : Stocked s ip) {k : Nat} (hk : k < 2 ^ 32) (h0 : mapAt s ip k ≠ 0) {w : Buf}
    {g m : Nat} (hm0 : 0 < m) (hm : g + m ≤ s.fs.desc.bsize)
    (hw : ∀ i, i < s.fs.desc.bsize →
      w i = if g ≤ i ∧ i < g + m then c (s.fs.desc.bsize * k + i)
      else byteIn s.fs.desc (contents s (mapAt s ip k)) i)
    (hput : Put s (mapAt s ip k) w t) :
    Inked s ip 0 (s.fs.desc.bsize * k + g) (s.fs.desc.bsize * k + g + m) c t ip := by
  have hpos := Formed.bsize_pos hs.stock.form
  have hd := shape_desc hput.shape
  obtain ⟨hjoined, hunit, hother⟩ := hs.overwrite hk h0 hput.toSameVol hput.fs hput.other
  -- the bytes written lie in block `k`
  have hrange : ∀ o, s.fs.desc.bsize * k + g ≤ o → o < s.fs.desc.bsize * k + g + m →
    o / s.fs.desc.bsize = k := by
    intro o h1 h2
    have hlo : s.fs.desc.bsize * k ≤ o := by omega
    have hhi : o < s.fs.desc.bsize * (k + 1) := by
      rw [Nat.mul_succ]
      omega
    rw [Nat.mul_comm] at hlo hhi
    exact Nat.le_antisymm (Nat.le_of_lt_succ ((Nat.div_lt_iff_lt_mul hpos).mpr hhi))
      ((Nat.le_div_iff_mul_le hpos).mpr hlo)
  refine ⟨hjoined, fun o ho => ?_, fun j hj hno i => ?_, fun o _ h1 h2 i hi => ?_⟩
  · have hmod := Nat.mod_lt o hpos
    have hsplit := Nat.div_add_mod o s.fs.desc.bsize
    by_cases hok : o / s.fs.desc.bsize = k
    · rw [hok] at hsplit
      have hwas : unitAt s ip k = contents s (mapAt s ip k) := funext fun i => if_neg h0
      unfold Blockmap.byteAt
      rw [hd, hok, hunit, hput.here _ hmod, hw _ hmod, hsplit, hwas]
      by_cases hr : g ≤ o % s.fs.desc.bsize ∧ o % s.fs.desc.bsize < g + m
      · rw [if_pos hr, if_pos (by omega)]
      · rw [if_neg hr, if_neg (by omega), storedByte_byteIn]
    · rw [if_neg fun hr => hok (hrange o hr.1 hr.2)]
      unfold Blockmap.byteAt
      rw [hd, hother _ ho hok]
  · by_cases hjk : j = k
    · refine absurd ?_ (hno (s.fs.desc.bsize * k + g) (Nat.le_refl _) (by omega))
      rw [hjk]
      exact hrange _ (Nat.le_refl _) (by omega)
    · rw [hother j hj hjk]
  · rw [hrange o h1 h2, hunit]
    exact hput.packed i hi

end Inked

/-- A mapped block is read, changed and written back. -/
theorem post_inkBlock {s : Mnt} {ip : Inode} (hs : Stocked s ip) {k : Nat} (hk : k < 2 ^ 32)
    (h0 : mapAt s ip k ≠ 0) (buf : Buf) (done g m : Nat)
    (c : Nat → UInt8) (hm0 : 0 < m) (hm : g + m ≤ s.fs.desc.bsize) (hc : ∀ j, j < m →
      c (s.fs.desc.bsize * k + g + j) = buf (done + j)) :
    Post (blkGet (mapAt s ip k) s)
      (fun blk t => Post (blkPut (mapAt s ip k) (splice blk g buf done m) t)
        (fun _ u => Inked s ip 0 (s.fs.desc.bsize * k + g) (s.fs.desc.bsize * k + g + m) c u ip)
        fun _ _ => False) fun _ _ => False := by
  have hr := hs.stock.toReady
  have hu := hs.tree.usable _ (mapAt_inTree hr.form hk h0)
  refine (post_blkGet hr.volume hr.quiet hu).mono ?_ fun _ _ hf => hf
  intro blk t h
  obtain ⟨⟨ios, rfl⟩, hblk⟩ := h
  have hread := hs.read ios
  have hr2 := hread.stocked.stock.toReady
  refine (post_blkPut hr2.volume hr2.quiet hu (splice blk g buf done m)).mono ?_ fun _ _ hf => hf
  intro _ u hput
  have hstep := Put.inked (c := c) (g := g) (m := m) hread.stocked hk h0 hm0 hm (w :=
    splice blk g buf done m) (fun i hi => ?_) hput
  · exact (hread.inked (s.fs.desc.bsize * k + g) c).trans hstep (Nat.le_refl _) (Nat.le_add_right _ _)
  · show _ = if g ≤ i ∧ i < g + m then c (s.fs.desc.bsize * k + i)
      else byteIn s.fs.desc (contents s (mapAt s ip k)) i
    by_cases hin : g ≤ i ∧ i < g + m
    · obtain ⟨j, rfl⟩ := Nat.exists_eq_add_of_le hin.1
      rw [if_pos hin, splice_inside (by omega), ← Nat.add_assoc, hc j (by omega)]
    · rw [if_neg hin, splice_outside (by omega), hblk i hi]

/-- Where a write stopped for want of a block: at its start or at the end of a block. -/
structure Stopped (s : Mnt) (l : Loc) (n off done size : Nat) (c : Nat → UInt8) (t : Mnt × Loc) : Prop where
  bl : t.2.bl = l.bl
  none : ∀ x, ¬ Free t.1 x
  part : ∃ mid, done ≤ mid ∧ mid < size ∧ (mid = done ∨ (off + mid) % s.fs.desc.bsize = 0) ∧
    Inked s l.ip n (off + done) (off + mid) c t.1 t.2.ip

/-- The write loop from `done` on, with at most `k` blocks to go. -/
theorem post_fileWriteLoop_inks (buf : Buf) (size off : Nat) (c : Nat → UInt8)
    (hc : ∀ o, off ≤ o → o < off + size → c o = buf (o - off)) (fuel : Nat) :
    ∀ {s : Mnt} {l : Loc} (done k : Nat), Stocked s l.ip → size - done ≤ fuel → done ≤ size →
    off + size ≤ maxFile s.fs.desc →
    (done < size → off + size ≤ s.fs.desc.bsize * ((off + done) / s.fs.desc.bsize + k)) →
    Post (fileWriteLoop buf size off fuel done (s, l))
      (fun _ t => t.2.bl = l.bl ∧ Inked s l.ip (5 * k) (off + done) (off + size) c t.1 t.2.ip)
      (fun _ t => Stopped s l (5 * k) off done size c t) := by
  induction fuel with
  | zero =>
    intro s l done k hs hfuel hle _ _
    obtain rfl : done = size := by omega
    exact ⟨rfl, ((hs.read s.ios).widen (Nat.zero_le _)).inked _ c⟩
  | succ fuel ih =>
    intro s l done k hs hfuel hle hmax hk
    show Post ((if size ≤ done then pure () else _ : MI Unit) (s, l)) _ _
    apply post_ite
    · intro hdone
      obtain rfl : done = size := by omega
      exact ⟨rfl, ((hs.read s.ios).widen (Nat.zero_le _)).inked _ c⟩
    · intro hdone
      have hf := hs.stock.form
      have hbs := Formed.bsize_pos hf
      have hboff : (off + done) % s.fs.desc.bsize < s.fs.desc.bsize := Nat.mod_lt _ hbs
      have hsplit := Nat.div_add_mod (off + done) s.fs.desc.bsize
      have hl : (off + done) / s.fs.desc.bsize * s.fs.desc.bsize < maxFile s.fs.desc := by
        rw [Nat.mul_comm]
        omega
      have hlbn := lt_of_maxFile hf hl
      have hk0 : 0 < k := by
        rcases Nat.eq_zero_or_pos k with rfl | hpos
        · have := hk (by omega)
          rw [Nat.add_zero] at this
          omega
        · exact hpos
      generalize hlb : (off + done) / s.fs.desc.bsize = lbn at hl hlbn hsplit hk
      show Post ((filsysBmap ((off + done) / s.fs.desc.bsize % 2 ^ 32) true >>= fun pbn => _ : MI Unit)
        (s, l)) _ _
      rw [hlb, Nat.mod_eq_of_lt hlbn]
      refine post_bind ((post_filsysBmap_sprouts hs hl).mono ?_ ?_)
      · intro pbn t h
        obtain ⟨hmade, hgrown⟩ := h
        have hdt := shape_desc hgrown.shape
        have hpbn : mapAt t.1 t.2.ip lbn = pbn := hmade.here
        refine post_ite (fun h0 => absurd h0 hmade.ne_zero) fun h0 => ?_
        have hrt := hgrown.stocked.stock.toReady
        generalize hm : min (s.fs.desc.bsize - (off + done) % s.fs.desc.bsize) (size - done) = m
        -- the block that goes out
        have hblock := post_inkBlock hgrown.stocked hlbn (by rw [hpbn]; exact h0) buf done
          ((off + done) % s.fs.desc.bsize) m c (by omega) (by rw [hdt]; omega) (fun j hj => ?_)
        case refine_1 =>
          rw [hdt, hsplit, hc _ (by omega) (by omega)]
          congr 1
          omega
        rw [hpbn, hdt, hsplit] at hblock
        refine post_bind (post_outside (post_failAs (hblock.mono ?_ fun _ _ hf => hf.elim)))
        intro blk v hput
        refine post_bind (post_outside (post_failAs (hput.mono ?_ fun _ _ hf => hf.elim)))
        intro _ v hwrote
        show Post (fileWriteLoop buf size off fuel (done + m) (v, t.2)) _ _
        have hink : Inked s l.ip 5 (off + done) (off + (done + m)) c v t.2.ip := by
          rw [Nat.add_assoc] at hwrote
          exact (hgrown.toSprouted.inked (off + done) c).trans hwrote (Nat.le_refl _) (by omega)
        have hdv : v.fs.desc = s.fs.desc := shape_desc hink.shape
        have hnext : (off + (done + m)) % s.fs.desc.bsize = 0 ∧ (off + (done + m)) / s.fs.desc.bsize =
          lbn + 1 ∨ done + m = size := by
          by_cases hend : done + m = size
          · exact .inr hend
          · have : off + (done + m) = s.fs.desc.bsize * (lbn + 1) := by
              rw [Nat.mul_succ]
              omega
            rw [this, Nat.mul_mod_right, Nat.mul_div_cancel_left _ hbs]
            exact .inl ⟨rfl, rfl⟩
        refine (ih (done + m) (k - 1) hink.stocked (by omega) (by omega)
          (by rw [hdv]; exact hmax) ?_).mono ?_ ?_
        · intro hlt
          rw [hdv]
          have := hk (by omega)
          rw [(hnext.resolve_right (by omega)).2, show lbn + 1 + (k - 1) = lbn + k by omega]
          exact this
        · intro _ u h
          obtain ⟨hbl, hrest⟩ := h
          exact ⟨hbl.trans hgrown.bl, (hink.trans hrest (by omega) (by omega)).widen (by omega)⟩
        · intro e u h
          obtain ⟨hbl, hnone, mid, h1, h2, h3, hpart⟩ := h
          refine ⟨hbl.trans hgrown.bl, hnone, mid, by omega, h2, .inr ?_, ?_⟩
          · rcases h3 with rfl | h3
            · exact (hnext.resolve_right (by omega)).1
            · rwa [hdv] at h3
          · exact (hink.trans hpart (by omega) (by omega)).widen (by omega)
      · intro e t ht
        refine ⟨ht.bl, ht.none, done, Nat.le_refl _, by omega, .inl rfl,
          (ht.toSprouted.widen (by omega)).inked _ c⟩

end Filsys.Blockmap
