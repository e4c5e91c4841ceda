/-
  Filsys.Limits.Tail — where a shrinking truncate stops zeroing (filsys.c).

  `truncate_inode` rounds the new size up to a block in 32 bits. In the last block below
  4 GiB the product is 2^32 and wraps to zero, so the tail is taken for empty and the bytes
  past the new end stay in the block (`a_shrink_near_the_limit_keeps_the_tail`); short of
  that block the tail is the exact one and reads as zeros
  (`shrinking_zeroes_the_tail_iff`).
-/

import Filsys.Alloc.Offers
import Filsys.Blockmap.Shrink

namespace Filsys.Limits

open Filsys.Lib Filsys.Engine Filsys.Blockmap Filsys.Alloc Filsys.Check Filsys.Tree

/-- `n` rounded up to a multiple of `b`, in exact arithmetic. -/
def roundUp (n b : Nat) : Nat := (n + b - 1) / b * b

theorem keepBlks_mul {d : Desc} (h : 0 < d.bsize) (newsize : Nat) :
    keepBlks d newsize * d.bsize = roundUp newsize d.bsize := by
  unfold keepBlks roundUp
  split
  · rename_i h0
    rw [h0, Nat.div_eq_of_lt (by omega)]
  · rw [show newsize + d.bsize - 1 = newsize - 1 + d.bsize by omega, Nat.add_div_right _ h]

theorem tailOf_eq (d : Desc) (oldsize newsize : Nat) :
    tailOf d oldsize newsize = min oldsize (keepBlks d newsize * d.bsize % 2 ^ 32) := by
  unfold tailOf keepBlks
  split
  · rw [Nat.zero_mul, Nat.zero_mod]
  · rfl

theorem Formed.bsize_dvd {d : Desc} (h : Formed d) : d.bsize ∣ 2 ^ 32 := by
  have ht := h.table
  unfold slotsOf pdp7Slots byteSlots at ht
  simp only [List.mem_cons, Slots.mk.injEq, List.not_mem_nil, or_false] at ht
  have hb : d.bsize = 128 ∨ d.bsize = 512 ∨ d.bsize = 1024 ∨ d.bsize = 2048 ∨
    d.bsize = 4096 ∨ d.bsize = 8192 := by
    omega
  rcases hb with hb | hb | hb | hb | hb | hb <;> rw [hb] <;> decide

/-- The rounding wraps in the last block of the 32-bit range, and only there. -/
theorem roundUp_lt {b n : Nat} (hb : 0 < b) (hdvd : b ∣ 2 ^ 32) : roundUp n b < 2 ^ 32 ↔ n + b ≤ 2 ^ 32 := by
  obtain ⟨q, hq⟩ := hdvd
  have hlo := Nat.div_add_mod (n + b - 1) b
  have hlt := Nat.mod_lt (n + b - 1) hb
  unfold roundUp
  rw [Nat.mul_comm] at hlo
  constructor
  · intro h
    rw [hq, Nat.mul_comm b] at h
    have hle := Nat.mul_le_mul_right b (Nat.lt_of_mul_lt_mul_right h)
    rw [Nat.succ_mul] at hle
    rw [hq, Nat.mul_comm b]
    omega
  · intro h
    omega

/-- The computed tail is the exact one, short of the last block below 4 GiB. -/
theorem tailOf_exact_iff {d : Desc} (h : Formed d) {oldsize newsize : Nat} (hlt : newsize < oldsize)
    (hold : oldsize < 2 ^ 32) :
    tailOf d oldsize newsize = min oldsize (roundUp newsize d.bsize) ↔ newsize + d.bsize ≤ 2 ^ 32 := by
  have hb := Formed.bsize_pos h
  have hdvd := Formed.bsize_dvd h
  rw [tailOf_eq, keepBlks_mul hb]
  constructor
  · intro heq
    by_contra hbig
    have hge := mt (roundUp_lt hb hdvd).mp hbig
    have hceil : roundUp newsize d.bsize ≤ newsize + d.bsize - 1 := Nat.div_mul_le_self ..
    have hbound : d.bsize ≤ 2 ^ 32 := Nat.le_of_dvd (by decide) hdvd
    -- a multiple of the block size from 2^32 on, less than a block past it
    obtain ⟨q, hq⟩ := hdvd
    have hround : roundUp newsize d.bsize = 2 ^ 32 := by
      have hmul : roundUp newsize d.bsize = (newsize + d.bsize - 1) / d.bsize * d.bsize := rfl
      have hup : (newsize + d.bsize - 1) / d.bsize < q + 1 := by
        rw [Nat.div_lt_iff_lt_mul hb, Nat.succ_mul, Nat.mul_comm q]
        omega
      have hle := Nat.mul_le_mul_right d.bsize (Nat.le_of_lt_succ hup)
      rw [Nat.mul_comm q] at hle
      omega
    rw [hround] at heq
    omega
  · intro hle
    rw [Nat.mod_eq_of_lt ((roundUp_lt hb hdvd).mpr hle)]

theorem recAt_mode_lt {fs : Fs} (hp : fs.desc.ops ≠ .pdp7) (img : Buf) (n : Nat) :
    (recAt fs img n).mode < modeEnd fs.desc := by
  unfold recAt modeEnd
  rw [if_neg hp, if_neg hp]
  have hlt : ∀ (bo : ByteOrder) (b : Buf) (o : Nat), bo.get16 b o < 2 ^ 16 := fun bo b o => by
    have h := num_lt (ByteOrder.perm_sig16 bo) b o
    rwa [ByteOrder.length_sig16] at h
  unfold recordOf decodeAt decodeInode
  split
  · exact hlt .le _ _
  · split
    · exact hlt _ _ _
    · exact hlt _ _ _

/-- Shrinking a file leaves zeros up to the end of the block it ends in exactly where that end is below
    4 GiB. -/
theorem shrinking_zeroes_the_tail_iff {s : Mnt} (hs : Sited s) (hp : s.fs.desc.ops ≠ .pdp7)
    {n : Nat} (hn : Numbered s n)
    (hst : Stocked s (recAt s.fs s.img n)) (newsize : Nat) (hlt : newsize < (recAt s.fs s.img n).size)
    (hmax : (recAt s.fs s.img n).size ≤ maxFile s.fs.desc) :
    (tailOf s.fs.desc (recAt s.fs s.img n).size newsize =
      min (recAt s.fs s.img n).size (roundUp newsize s.fs.desc.bsize) ∧
      Post (filsysTruncateIno n newsize s)
        (fun _ u => ∀ o, newsize ≤ o →
          o < min (recAt s.fs s.img n).size (roundUp newsize s.fs.desc.bsize) →
        byteAt u (recAt u.fs u.img n) o = 0)
        fun _ _ => False) ↔
    newsize + s.fs.desc.bsize ≤ 2 ^ 32 := by
  have hf := hs.form
  have hlim := maxFile_lt s.fs.desc
  have htail := tailOf_exact_iff hf hlt (Nat.lt_of_le_of_lt hmax hlim)
  refine ⟨fun h => htail.mp h.1, fun h => ⟨htail.mpr h, ?_⟩⟩
  have hexact := htail.mpr h
  refine post_bind ((post_readInode_twin hs.toReady n).mono ?_ fun _ _ hno => hno hn)
  intro ip t hr
  obtain ⟨⟨k, rfl⟩, hread⟩ := hr
  have hsize : ip.size = (recAt s.fs s.img n).size := hread.size.resolve_right fun hw => hp hw.1
  have hst' : Stocked { s with ios := k } ip := ((hread.twin.stocked hst).read k).stocked
  have hs' : Sited { s with ios := k } := hs.of_stock ⟨rfl, rfl, rfl⟩ hst'.stock
  have hmode : ip.mode < modeEnd s.fs.desc := by
    rw [hread.twin.mode]
    exact recAt_mode_lt hp ..
  have hrun := post_truncateInode_shrinks hs' (show Numbered s ip.ino by rw [hread.ino]; exact hn) hst'
    hmode newsize (by rw [hsize]; exact hlt)
    (by show newsize ≤ maxFile s.fs.desc; omega)
  rw [hread.ino] at hrun
  refine hrun.mono (fun _ u hu o hlo hhi => ?_) fun _ _ hfalse => hfalse
  have ho : Mappable s.fs o := Nat.lt_of_le_of_lt (Nat.div_le_self ..) (by omega)
  rw [hu.byte o ho]
  refine if_neg fun hc => hc.2 ⟨hlo, ?_⟩
  show o < tailOf s.fs.desc ip.size newsize
  rw [hsize, hexact]
  exact hhi

/-- A V7 volume of five blocks whose inode 2 is a file of ten bytes 65, in block 4. -/
def tenBytes : Mnt := { fiveBlocks with
  img := poke (poke fiveBlocks.img 1089 [129, 0, 0, 0, 0, 0, 0, 0, 0, 10, 0, 0, 4]) 2048 (List.replicate 10 65) }

theorem mounted_tenBytes : Mounted tenBytes :=
  ⟨fun _ _ => rfl, by decide, rfl, by decide, by decide, by decide, rfl, by decide, by decide, by decide⟩

theorem listLayout_tenBytes : ListLayout tenBytes.fs := by
  constructor <;> first | decide | exact ⟨by decide, by decide, by decide⟩

theorem core_tenBytes : Core tenBytes [3] [] :=
  ⟨.entry (n := 0) ⟨by decide, by decide⟩ (.sentinel rfl), by decide, by decide⟩

theorem sited_tenBytes : Sited tenBytes := by
  have hspace : SpaceOk tenBytes := (spaceOk_freelist rfl).mpr ⟨listLayout_tenBytes, [3], [], core_tenBytes⟩
  have hform : Formed tenBytes.fs.desc := ⟨by decide, by decide, by decide, by decide⟩
  have hlayout : RecordLayout tenBytes.fs.desc := ⟨by decide, by decide, by decide, by decide, by decide⟩
  have hready : Ready tenBytes := ⟨.inl mounted_tenBytes, hform, by decide, fun _ => rfl⟩
  exact ⟨⟨hready, fun _ => hspace, fun hp => absurd hp (by decide)⟩, fun _ => hlayout, by decide⟩

/-- Its inode, as it lies on disk. -/
theorem tenBytes_inode : (recAt tenBytes.fs tenBytes.img 2).size = 10 ∧
    blocks tenBytes (recAt tenBytes.fs tenBytes.img 2) = [4] ∧
    (∀ o < 10, byteAt tenBytes (recAt tenBytes.fs tenBytes.img 2) o = 65) ∧
    ∀ slot < tenBytes.fs.desc.niaddr, (recAt tenBytes.fs tenBytes.img 2).addr slot ≠ 0 →
      base tenBytes.fs.desc (recAt tenBytes.fs tenBytes.img 2).mode slot * tenBytes.fs.desc.bsize <
      maxFile tenBytes.fs.desc := by
  decide +kernel

theorem stocked_tenBytes : Stocked tenBytes (recAt tenBytes.fs tenBytes.img 2) := by
  obtain ⟨-, hblocks, -, hwithin⟩ := tenBytes_inode
  have honly : ∀ b, InTree tenBytes (recAt tenBytes.fs tenBytes.img 2) b → b = 4 := by
    intro b hb
    have hmem := mem_blocks.mpr hb
    rw [hblocks] at hmem
    exact List.mem_singleton.mp hmem
  refine ⟨sited_tenBytes.toStock, treeOk_of_blocks ?_ fun b hb => ?_, fun b hb hfree => ?_, hwithin⟩
  · rw [hblocks]
    exact List.nodup_singleton 4
  · rw [honly b (mem_blocks.mp hb)]
    exact ⟨⟨by decide, by decide⟩, by decide⟩
  · rw [honly b hb] at hfree
    have hmem := (isFree_core mounted_tenBytes rfl listLayout_tenBytes core_tenBytes).mp
      ((free_bytes (by decide)).mp hfree)
    exact absurd hmem (by decide)

/-- Cut to four bytes, the file reads as zeros from there. -/
theorem ten_bytes_cut_to_four : (∀ o < 10, byteAt tenBytes (recAt tenBytes.fs tenBytes.img 2) o = 65) ∧
    Post (filsysTruncateIno 2 4 tenBytes) (fun _ u => ∀ o, 4 ≤ o → o < 10 →
      byteAt u (recAt u.fs u.img 2) o = 0) fun _ _ => False := by
  have hinode := tenBytes_inode
  have hn : Numbered tenBytes 2 := by
    unfold Numbered
    rw [if_neg (by decide)]
    exact ⟨by decide, by decide⟩
  have hd : tenBytes.fs.desc.ops ≠ .pdp7 ∧ tenBytes.fs.desc.bsize = 512 ∧ 10 ≤ maxFile tenBytes.fs.desc := by
    decide
  have hsited := sited_tenBytes
  have hst := stocked_tenBytes
  generalize tenBytes = s at *
  obtain ⟨hsize, -, hbytes, -⟩ := hinode
  have h := (shrinking_zeroes_the_tail_iff hsited hd.1 hn hst 4 (by omega) (by omega)).mpr (by omega)
  rw [hsize, hd.2.1, show min 10 (roundUp 4 512) = 10 by decide] at h
  exact ⟨hbytes, h.2⟩

/-- A V10 volume whose inode 3 is as long as a file can be, with a 65 for its last byte and nothing
    before the block of it. -/
def longFile : Mnt where
  fs := { desc := descV8 }
  img := fun o => if o = 4096 then 3 else if o = 4100 then 8 else if o = 8320 then 0xa4
    else if o = 8321 then 0x81
    else if 8328 ≤ o ∧ o < 8332 then 255 else if o = 8365 then 3 else if o = 16376 then 4
      else if o = 20436 then 5 else if o = 24574 then 65 else 0
  size := 32768

theorem longFile_opens :
    filsysOpenArch bigmapArgs longFile = .ok () (final (filsysOpenArch bigmapArgs) longFile) :=
  eq_done (by decide +kernel)

/-- The last byte of inode 3 once it has been cut off, and what a read returns for it when the file is
    as long as before. -/
def cutAndGrow : M (UInt8 × UInt8) := do
  filsysTruncateIno 3 4294967294
  let s ← get
  filsysTruncateIno 3 4294967295
  let (_, buf) ← filsysReadIno 3 1 4294967294
  return (byteAt s (recAt s.fs s.img 3) 4294967294, buf 0)

/-- Cut by its last byte and then extended to what it was, the file still ends in that byte. -/
theorem a_shrink_near_the_limit_keeps_the_tail : ∃ s u, filsysOpenArch bigmapArgs longFile = .ok () s ∧
    (recAt s.fs s.img 3).size = maxFile s.fs.desc ∧ s.fs.desc.bsize = 4096 ∧
    tailOf s.fs.desc (maxFile s.fs.desc) 4294967294 ≠
    min (maxFile s.fs.desc) (roundUp 4294967294 4096) ∧ cutAndGrow s = .ok (65, 65) u := by
  have hrun : (match cutAndGrow (final (filsysOpenArch bigmapArgs) longFile) with
      | .ok v _ => v == (65, 65)
      | .error _ _ => false) = true := by
    decide +kernel
  cases h : cutAndGrow (final (filsysOpenArch bigmapArgs) longFile) with
  | error e u =>
    rw [h] at hrun
    cases hrun
  | ok v u =>
    rw [h] at hrun
    obtain rfl : v = (65, 65) := by simpa using hrun
    exact ⟨_, u, longFile_opens, by decide +kernel, by decide +kernel, by decide +kernel, h⟩

end Filsys.Limits
