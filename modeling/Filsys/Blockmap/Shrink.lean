/-
  Filsys.Blockmap.Shrink — truncating a file (filsys.c).

  A shrinking truncate zeroes the tail of the last block it keeps through the file layer
  and then cuts. The block is mapped, so the write asks for none (`filsysBmap_mapped`) and
  cannot fail for want of space; what it leaves is the file with zeros from the new size to
  the computed tail (`post_zeroTail`). The whole truncate is that and the cut
  (`post_truncateInode_shrinks`).
-/

import Filsys.Blockmap.Cut

namespace Filsys.Blockmap

open Filsys.Lib Filsys.Engine Filsys.Alloc Filsys.Check Filsys.Tree

/-! ## Blocks that are there -/

/-- A way down that ends at a block is the same whether blocks may be made or not. -/
theorem indFollow_mapped (idxs : List Nat) :
    ∀ {b r : Nat} {s t : Mnt}, indFollow false idxs b s = .ok r t → r ≠ 0 → indFollow
    true idxs b s = .ok r t := by
  induction idxs with
  | nil => exact fun h => by cases h
  | cons i rest ih =>
    intro b r s t h h0
    have hrun : ∀ create, indFollow create (i :: rest) b s = (failAs .eio (readBlock b) >>= fun buf =>
        if indGet s.fs.desc buf i = 0 then
          if create then do
            let nb ← balloc
            failAs .eio (writeBlock b (indPut s.fs.desc buf i nb))
            if rest = [] then return nb else indFollow create rest nb
          else return 0
        else if rest = [] then return indGet s.fs.desc buf i
        else indFollow create rest (indGet s.fs.desc buf i) : M Nat) s := fun _ => rfl
    rw [hrun] at h ⊢
    cases hread : (failAs .eio (readBlock b) : M Buf) s with
    | error e u =>
      rw [bind_eq_of_error hread] at h
      cases h
    | ok buf u =>
      rw [bind_eq_of_ok hread] at h ⊢
      by_cases hz : indGet s.fs.desc buf i = 0
      · rw [if_pos hz] at h
        cases h
        exact absurd rfl h0
      · rw [if_neg hz] at h ⊢
        by_cases hnil : rest = []
        · rw [if_pos hnil] at h ⊢
          exact h
        · rw [if_neg hnil] at h ⊢
          exact ih h h0

/-- Asking for a block that is mapped makes none. -/
theorem filsysBmap_mapped {s : Mnt} {l : Loc} {lbn r : Nat} {t : Mnt × Loc}
    (hf : Formed s.fs.desc) (hl : lbn < 2 ^ 32)
    (h : filsysBmap lbn false (s, l) = .ok r t) (h0 : r ≠ 0) : filsysBmap lbn true (s, l) = .ok r t := by
  have hrun : ∀ create, ¬ (s.fs.desc.ilargMask ≠ 0 ∧ (!has l.ip.mode s.fs.desc.ilargMask) = true ∧
    create = true ∧ s.fs.desc.ndaddr ≤ lbn) →
      filsysBmap lbn create (s, l) = bmapSlot s.fs.desc lbn create l.ip (s, l) := by
    intro create hc
    rw [filsysBmap_eq]
    unfold onlyIf
    rw [if_neg hc]
    rfl
  rw [hrun false (fun hc => absurd hc.2.2.1 (by decide))] at h
  unfold bmapSlot at h
  have hfound : ∃ slot r, findSlot s.fs.desc l.ip.mode lbn s.fs.desc.niaddr 0 0 = some (slot, r) := by
    cases hfind : findSlot s.fs.desc l.ip.mode lbn s.fs.desc.niaddr 0 0 with
    | some q => exact ⟨q.1, q.2, rfl⟩
    | none =>
      rw [hfind] at h
      cases h
      exact absurd rfl h0
  obtain ⟨slot, q, hfind⟩ := hfound
  -- a small file has no block past its direct ones
  have hstay : ¬ (s.fs.desc.ilargMask ≠ 0 ∧ (!has l.ip.mode s.fs.desc.ilargMask) = true ∧ true = true ∧
    s.fs.desc.ndaddr ≤ lbn) := by
    intro hr
    obtain ⟨hmask, hmode, -, hge⟩ := hr
    have hs : Small s.fs.desc l.ip.mode := ⟨hmask, by simpa using hmode⟩
    have hbase := base_small hf hs
    obtain ⟨-, hslot, hhere, hin⟩ :=
      (findSlot_eq_some (by rw [Nat.zero_add, hbase]; exact Nat.lt_of_le_of_lt hge hl)
      (Nat.zero_le _) hl).mp hfind
    rw [Nat.zero_add] at hslot
    have hle := base_mono s.fs.desc l.ip.mode (show slot + 1 ≤ s.fs.desc.niaddr from hslot)
    have hnext : base s.fs.desc l.ip.mode (slot + 1) = base s.fs.desc l.ip.mode slot +
      span s.fs.desc l.ip.mode slot := rfl
    omega
  rw [hrun true hstay]
  unfold bmapSlot
  rw [hfind] at h ⊢
  simp only [] at h ⊢
  cases hlev : slotLevel s.fs.desc l.ip.mode slot with
  | none =>
    rw [hlev] at h
    simp only [] at h ⊢
    rw [if_neg (by simp)] at h
    cases h
    rw [if_neg fun hc => h0 hc.1]
    rfl
  | some level =>
    rw [hlev] at h
    simp only [] at h ⊢
    have hdown : ∀ create, bmapIndFollow create slot (levelIdx s.fs.desc.nindir level q) (s, l) =
      (if l.ip.addr slot = 0 then
        if create then up balloc >>= fun blk => (modIp fun ip => ip.setAddr slot blk) >>= fun _ =>
        up (indFollow create (levelIdx s.fs.desc.nindir level q) blk)
        else pure 0
      else up (indFollow create (levelIdx s.fs.desc.nindir level q) (l.ip.addr slot)) :
      MI Nat) (s, l) := fun _ => rfl
    rw [hdown] at h ⊢
    by_cases hz : l.ip.addr slot = 0
    · rw [if_pos hz] at h
      cases h
      exact absurd rfl h0
    · rw [if_neg hz] at h ⊢
      obtain ⟨hgo, hl'⟩ := outside_eq_ok.mp h
      exact outside_eq_ok.mpr ⟨indFollow_mapped _ hgo h0, hl'⟩

theorem post_filsysBmap_mapped {s : Mnt} {l : Loc} (hr : Ready s) (hok : TreeOk s l.ip) {lbn : Nat}
    (hl : lbn < 2 ^ 32) (h0 : mapAt s l.ip lbn ≠ 0) :
    Post (filsysBmap lbn true (s, l)) (fun r t => r = mapAt s l.ip lbn ∧ ∃ k,
      t = ({ s with ios := k }, l)) fun _ _ => False := by
  obtain ⟨r, t, hrun, hval, ht⟩ := (post_filsysBmap_false hr hok hl).succeeds
  rw [filsysBmap_mapped hr.form hl hrun (by rw [hval]; exact h0)]
  exact ⟨hval, ht⟩

/-- A write inside one mapped block. -/
theorem post_fileWriteLoop_block {s : Mnt} {l : Loc} (hs : Stocked s l.ip) (buf : Buf)
    (size off : Nat) (c : Nat → UInt8)
    (hc : ∀ o, off ≤ o → o < off + size → c o = buf (o - off)) (h0 : 0 < size)
    (hin : off % s.fs.desc.bsize + size ≤ s.fs.desc.bsize)
    (hl : off / s.fs.desc.bsize < 2 ^ 32) (hmap : mapAt s l.ip (off / s.fs.desc.bsize) ≠ 0) :
    Post (fileWriteLoop buf size off size 0 (s, l)) (fun _ t => t.2 = l ∧
      Inked s l.ip 0 off (off + size) c t.1 l.ip) fun _ _ => False := by
  obtain ⟨fuel, rfl⟩ : ∃ fuel, size = fuel + 1 := ⟨size - 1, by omega⟩
  have hr := hs.stock.toReady
  have hsplit := Nat.div_add_mod off s.fs.desc.bsize
  show Post ((if fuel + 1 ≤ 0 then pure () else _ : MI Unit) (s, l)) _ _
  refine post_ite (fun hc => by omega) fun _ => ?_
  show Post ((filsysBmap (off / s.fs.desc.bsize % 2 ^ 32) true >>= fun pbn => _ : MI Unit) (s, l)) _ _
  rw [Nat.mod_eq_of_lt hl]
  refine post_bind ((post_filsysBmap_mapped hr hs.tree hl hmap).mono ?_ fun _ _ hf => hf)
  intro pbn t h
  obtain ⟨rfl, k, rfl⟩ := h
  have hread := hs.read k
  have hblock := post_inkBlock hread.stocked hl hmap buf 0 (off % s.fs.desc.bsize)
    (fuel + 1) c h0 hin (fun j hj => ?_)
  case refine_1 =>
    show c (s.fs.desc.bsize * (off / s.fs.desc.bsize) + off % s.fs.desc.bsize + j) = _
    rw [hsplit, hc _ (by omega) (by omega)]
    congr 1
    omega
  refine post_ite (fun hz => absurd hz hmap) fun _ =>
    post_bind (post_outside (post_failAs (hblock.mono ?_ fun _ _ hf => hf)))
  intro blk v hput
  have hmin : min (s.fs.desc.bsize - (off + 0) % s.fs.desc.bsize) (fuel + 1 - 0) = fuel + 1 := by
    rw [Nat.add_zero]
    omega
  show Post ((up (failAs .eio (blkPut (mapAt s l.ip (off / s.fs.desc.bsize))
    (splice blk ((off + 0) % s.fs.desc.bsize) buf 0
    (min (s.fs.desc.bsize - (off + 0) % s.fs.desc.bsize) (fuel + 1 - 0))))) >>= fun _ =>
    fileWriteLoop buf (fuel + 1) off fuel
    (0 + min (s.fs.desc.bsize - (off + 0) % s.fs.desc.bsize) (fuel + 1 - 0)) : MI Unit) (v, l)) _ _
  rw [hmin, Nat.add_zero]
  refine post_bind (post_outside (post_failAs (hput.mono ?_ fun _ _ hf => hf)))
  intro _ u hink
  have hdone : fileWriteLoop buf (fuel + 1) off fuel (0 + (fuel + 1)) (u, l) = .ok () (u, l) := by
    cases fuel with
    | zero => rfl
    | succ fuel =>
      show (if fuel + 1 + 1 ≤ 0 + (fuel + 1 + 1) then pure () else _ : MI Unit) (u, l) = _
      rw [if_pos (by omega)]
      rfl
  rw [hdone]
  refine ⟨rfl, ?_⟩
  rw [show ({ s with ios := k } : Mnt).fs.desc = s.fs.desc from rfl, hsplit] at hink
  exact (hread.inked off c).trans hink (Nat.le_refl _) (Nat.le_add_right _ _)

/-! ## The tail -/

/-- A file whose bytes from `lo` to `hi` are now zero. -/
structure Wiped (s : Mnt) (ip : Inode) (lo hi : Nat) (t : Mnt) : Prop extends SameVol s t where
  stocked : Stocked t ip
  byte : ∀ o, Mappable s.fs o → byteAt t ip o = if lo ≤ o ∧ o < hi then 0 else byteAt s ip o
  plain : ∀ k, k < 2 ^ 32 → ∀ i, i < unitsIn s.fs.desc → unitAt t ip k i = unitAt s ip k i ∨
    Packed s.fs.desc (unitAt t ip k) i

/-- Nothing to wipe, or nothing but a hole. -/
theorem Stocked.wiped {s : Mnt} {ip : Inode} (h : Stocked s ip) {lo hi : Nat}
    (hz : ∀ o, Mappable s.fs o → lo ≤ o → o < hi → byteAt s ip o = 0) (k : Nat) :
    Wiped s ip lo hi { s with ios := k } := by
  refine ⟨⟨rfl, rfl, rfl⟩, (h.read k).stocked, fun o ho => ?_, fun _ _ _ _ => .inl rfl⟩
  show byteAt s ip o = _
  split
  · rename_i hin
    exact hz o ho hin.1 hin.2
  · rfl

theorem post_zeroTail {s : Mnt} (hs : Sited s) {ip : Inode} (hn : Numbered s ip.ino)
    (hst : Stocked s ip) {newsize tail last : Nat} (hl : last < 2 ^ 32)
    (hend : tail ≤ ip.size) (hin : newsize < tail → newsize / s.fs.desc.bsize = last ∧
      tail ≤ s.fs.desc.bsize * (last + 1)) :
    Post (zeroTail ip newsize tail last s) (fun ip' t => ip' = ip ∧ Wiped s ip newsize tail t)
    fun _ _ => False := by
  have hr := hst.stock.toReady
  have hbs := Formed.bsize_pos hr.form
  refine post_ite (fun hlt => ?_) fun hge => ⟨rfl, hst.wiped (fun o _ h1 h2 => by omega) s.ios⟩
  obtain ⟨hlast, htail⟩ := hin hlt
  rw [Nat.mul_succ] at htail
  have hsplit := Nat.div_add_mod newsize s.fs.desc.bsize
  rw [hlast] at hsplit
  refine post_bind (post_bind
    (post_inside ((post_filsysBmap_false (l := ⟨ip, []⟩) hr hst.tree hl).mono ?_ fun _ _ hf => hf.elim)))
  intro bno t h
  obtain ⟨rfl, k, rfl⟩ := h
  have hread := hst.read k
  show Post ((if mapAt s ip last ≠ 0 then _ else pure ip : M Inode) { s with ios := k }) _ _
  refine post_ite ?_ fun h0 => ⟨rfl, hst.wiped (fun o _ h1 h2 => byteAt_hole ?_) k⟩
  · intro h0
    have hloop := post_fileWriteLoop_block (l := ⟨ip, []⟩) hread.stocked zeroBuf
      (tail - newsize) newsize (fun _ => 0) (fun _ _ _ => rfl)
      (by omega) (by show newsize % s.fs.desc.bsize + (tail - newsize) ≤ s.fs.desc.bsize; omega)
      (by show newsize / s.fs.desc.bsize < _; rw [hlast]; exact hl)
        (by show mapAt s ip (newsize / s.fs.desc.bsize) ≠ 0; rw [hlast]; exact h0)
    refine post_bind (post_bind (post_inside ?_))
    show Post ((if (newsize : Int) < 0 then throw .einval else _ : MI Nat) ({ s with ios := k }, ⟨ip, []⟩)) _ _
    refine post_ite (fun hneg => absurd hneg (by omega)) fun _ =>
      post_bind (hloop.mono ?_ fun _ _ hf => hf.elim)
    intro _ r h
    obtain ⟨t, l⟩ := r
    obtain ⟨hl', hink⟩ := h
    cases hl'
    have hink : Inked { s with ios := k } ip 0 newsize (newsize + (tail - newsize)) (fun _ => 0) t ip := hink
    show Post ((modIp (fun ip => if ip.size < newsize + (tail - newsize) then
      { ip with size := (newsize + (tail - newsize)) % 2 ^ 32 } else ip) >>= fun _ =>
      getIp >>= fun ip => up (writeInode ip.ino ip) >>= fun _ => pure (tail - newsize) :
      MI Nat) (t, ⟨ip, []⟩)) _ _
    have hstay : (if ip.size < newsize + (tail - newsize) then
      { ip with size := (newsize + (tail - newsize)) % 2 ^ 32 } else ip) = ip :=
      if_neg (by omega)
    show Post ((up (writeInode (if ip.size < newsize + (tail - newsize) then
      { ip with size := (newsize + (tail - newsize)) % 2 ^ 32 } else ip).ino
      (if ip.size < newsize + (tail - newsize) then
        { ip with size := (newsize + (tail - newsize)) % 2 ^ 32 } else ip)) >>= fun _ =>
      pure (tail - newsize) : MI Nat)
      (t, ⟨if ip.size < newsize + (tail - newsize) then
        { ip with size := (newsize + (tail - newsize)) % 2 ^ 32 } else ip, []⟩)) _ _
    rw [hstay]
    have hst1 : SameVol s t :=
      sameVol_law.trans (show SameVol s { s with ios := k } from ⟨rfl, rfl, rfl⟩) hink.toSameVol
    have hs1 : Sited t := hs.of_stock hst1 hink.stocked.stock
    refine post_bind (post_outside
      ((post_writeInode_records hs1 ((numbered_of_sameVol hst1).mpr hn) ip).mono ?_ fun _ _ hf => hf.elim))
    intro _ v hrec
    refine ⟨rfl, sameVol_law.trans hst1 hrec.toSameVol, hrec.stocked hink.stocked,
      fun o ho => ?_, fun j hj i hi => ?_⟩
    · rw [hrec.byteAt hink.stocked (show o / t.fs.desc.bsize <
        2 ^ 32 by rw [shape_desc hst1.shape]; exact ho), hink.byte o ho,
        show newsize + (tail - newsize) = tail by omega, storedByte_zero]
      rfl
    · rw [funext (hrec.unitAt hink.stocked hj)]
      exact hink.plain hj hi
  · show mapAt s ip (o / s.fs.desc.bsize) = 0
    have hblk : o / s.fs.desc.bsize = last := by
      refine Nat.le_antisymm (Nat.le_of_lt_succ ((Nat.div_lt_iff_lt_mul hbs).mpr ?_))
        ((Nat.le_div_iff_mul_le hbs).mpr ?_)
      · rw [Nat.succ_mul, Nat.mul_comm last]
        omega
      · rw [Nat.mul_comm]
        omega
    rw [hblk]
    simpa using h0

/-! ## Truncate -/

/-- The blocks a file of that size keeps. -/
def keepBlks (d : Desc) (newsize : Nat) : Nat := if newsize = 0 then 0 else (newsize - 1) / d.bsize + 1

/-- `tail` of `truncate_inode`, where the zeroing ends; a 32-bit product. -/
def tailOf (d : Desc) (oldsize newsize : Nat) : Nat :=
  min oldsize (if newsize = 0 then 0 else ((newsize - 1) / d.bsize + 1) * d.bsize % 2 ^ 32)

/-- What a shrinking truncate leaves in record `n`. -/
structure Cropped (s : Mnt) (ip : Inode) (n newsize : Nat) (u : Mnt) : Prop extends SameVol s u where
  stocked : Stocked u (recAt u.fs u.img n)
  mode : (recAt u.fs u.img n).mode = ip.mode
  length : (recAt u.fs u.img n).size = keptSize s.fs.desc newsize
  byte : ∀ o, Mappable s.fs o → byteAt u (recAt u.fs u.img n) o =
    if o / s.fs.desc.bsize < keepBlks s.fs.desc newsize ∧
      ¬ (newsize ≤ o ∧ o < tailOf s.fs.desc ip.size newsize) then byteAt s ip o else 0
  plain : ∀ k, k < 2 ^ 32 → ∀ i, i < unitsIn s.fs.desc →
    unitAt u (recAt u.fs u.img n) k i = unitAt s ip k i ∨ Packed s.fs.desc (unitAt u (recAt u.fs u.img n) k) i

theorem post_truncateInode_shrinks {s : Mnt} (hs : Sited s) {ip : Inode} (hn : Numbered s ip.ino)
    (hst : Stocked s ip) (hmode : ip.mode < modeEnd s.fs.desc)
    (newsize : Nat) (hlt : newsize < ip.size) (hmax : newsize ≤ maxFile s.fs.desc) :
    Post (truncateInode ip.ino ip newsize s) (fun _ u => Cropped s ip ip.ino newsize u) fun _ _ => False := by
  have hf := hs.form
  have hbs := Formed.bsize_pos hf
  have hmaxlt := maxFile_lt s.fs.desc
  generalize hlast : (if newsize = 0 then 0 else (newsize - 1) / s.fs.desc.bsize) = last
  have hl : last < 2 ^ 32 := by
    rw [← hlast]
    split
    · decide
    · exact Nat.lt_of_le_of_lt (Nat.div_le_self ..) (by omega)
  show Post ((if (newsize : Int) < 0 ∨ (maxFile s.fs.desc : Int) < newsize then throw .efbig
    else if newsize = ip.size then pure ()
    else if newsize < ip.size then zeroTail ip newsize
    (min ip.size (if newsize = 0 then 0
      else ((if newsize = 0 then 0 else (newsize - 1) / s.fs.desc.bsize) + 1) *
      s.fs.desc.bsize % 2 ^ 32)) (if newsize = 0 then 0 else (newsize - 1) / s.fs.desc.bsize) >>= fun ip' =>
      cutTo (if newsize = 0 then 0 else (if newsize = 0 then 0 else (newsize - 1) / s.fs.desc.bsize) +
        1) ip.ino (fun jp => { jp with size := newsize }) ip'
    else writeInode ip.ino { ip with size := newsize } : M Unit) s) _ _
  rw [hlast]
  refine post_ite (fun hbad => by omega) fun _ => ?_
  refine post_ite (fun he => by omega) fun _ => ?_
  refine post_ite (fun _ => ?_) fun hge => absurd hlt hge
  have htail : min ip.size (if newsize = 0 then 0 else (last + 1) * s.fs.desc.bsize % 2 ^ 32) =
    tailOf s.fs.desc ip.size newsize := by
    unfold tailOf
    split
    · rfl
    · rename_i h0
      rw [← hlast, if_neg h0]
  have hkeep : (if newsize = 0 then 0 else last + 1) = keepBlks s.fs.desc newsize := by
    unfold keepBlks
    split
    · rfl
    · rename_i h0
      rw [← hlast, if_neg h0]
  rw [htail, hkeep]
  refine post_bind ((post_zeroTail hs hn hst hl (show tailOf s.fs.desc ip.size newsize ≤
    ip.size from Nat.min_le_left ..) fun hnt => ?_).mono ?_ fun _ _ hfalse => hfalse)
  · -- the tail lies in the block of the last byte kept
    have h0 : newsize ≠ 0 := by
      rintro rfl
      simp [tailOf] at hnt
    have hle : tailOf s.fs.desc ip.size newsize ≤ (last + 1) * s.fs.desc.bsize := by
      unfold tailOf
      rw [if_neg h0, ← hlast, if_neg h0]
      exact Nat.le_trans (Nat.min_le_right ..) (Nat.mod_le ..)
    have hfloor : last * s.fs.desc.bsize ≤ newsize - 1 := by
      rw [← hlast, if_neg h0]
      exact Nat.div_mul_le_self ..
    rw [Nat.mul_comm s.fs.desc.bsize]
    refine ⟨Nat.le_antisymm (Nat.le_of_lt_succ
      ((Nat.div_lt_iff_lt_mul hbs).mpr (Nat.lt_of_lt_of_le hnt hle)))
      ((Nat.le_div_iff_mul_le hbs).mpr (by omega)), hle⟩
  · intro ip' t h
    obtain ⟨hip, hwiped⟩ := h
    rw [hip]
    have hvt := hwiped.toSameVol
    have hdt := shape_desc hvt.shape
    have hst' := hwiped.stocked
    refine (post_cutTo (hs.of_stock hvt hst'.stock) ((numbered_of_sameVol hvt).mpr hn) hst'
      (by rw [hdt]; exact hmode) _ (fun jp => { jp with size := newsize })
      newsize (fun _ => ⟨rfl, rfl⟩) fun _ _ => rfl).mono ?_ fun _ _ hfalse => hfalse
    intro _ u hcut
    refine ⟨sameVol_law.trans hvt hcut.toSameVol, hcut.stocked, hcut.mode, by rw [hcut.length, hdt],
      fun o ho => ?_, fun j hj i hi => ?_⟩
    · rw [hcut.byte (show o / t.fs.desc.bsize < 2 ^ 32 by rw [hdt]; exact ho), hwiped.byte o ho, hdt]
      by_cases hin : o / s.fs.desc.bsize < keepBlks s.fs.desc newsize
      · rw [if_pos hin]
        by_cases hz : newsize ≤ o ∧ o < tailOf s.fs.desc ip.size newsize
        · rw [if_pos hz, if_neg fun hc => hc.2 hz]
        · rw [if_neg hz, if_pos ⟨hin, hz⟩]
      · rw [if_neg hin, if_neg fun hc => hin hc.1]
    · by_cases hin : j < keepBlks s.fs.desc newsize
      · rw [funext (hcut.unit j hin hj)]
        exact hwiped.plain j hj i hi
      · -- what is cut off is a hole
        have hhole : unitAt u (recAt u.fs u.img ip.ino) j = fun _ => 0 := by
          funext i
          exact if_pos (by rw [hcut.map j hj, if_neg hin])
        rw [hhole]
        exact .inr (packed_zero _ i)

/-- A truncate to a larger size writes the record only. -/
theorem post_truncateInode_grows {s : Mnt} (hs : Sited s) {ip : Inode} (hn : Numbered s ip.ino)
    (newsize : Nat) (hlt : ip.size < newsize)
    (hmax : newsize ≤ maxFile s.fs.desc) :
    Post (truncateInode ip.ino ip newsize s) (fun _ u => Recorded s ip.ino { ip with size := newsize }
      u) fun _ _ => False := by
  show Post ((if (newsize : Int) < 0 ∨ (maxFile s.fs.desc : Int) < newsize then throw .efbig
    else if newsize = ip.size then pure ()
    else if newsize < ip.size then _ else writeInode ip.ino { ip with size := newsize } : M Unit) s) _ _
  refine post_ite (fun hbad => by omega) fun _ => ?_
  refine post_ite (fun he => by omega) fun _ => ?_
  refine post_ite (fun hc => by omega) fun _ => ?_
  exact post_writeInode_records hs hn _

end Filsys.Blockmap
