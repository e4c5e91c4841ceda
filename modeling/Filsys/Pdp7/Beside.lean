/-
  Filsys.Pdp7.Beside — the words beside a write (pdp7fs.c).

  A PDP-7 block is sixty-four words of eighteen bits and is written through a view of two
  7-bit characters a word: what `p7fs_blk_put` stores of a word the write does not reach is
  the fourteen bits `p7fs_blk_get` read of it. Such a word stays as it was exactly where it
  is two characters to begin with (`words_beside_a_write_stay_iff`); a word with another
  bit set loses it to a write of its neighbour (`a_write_clears_bits_of_the_next_word`).
-/

import Filsys.Alloc.Offers
import Filsys.Blockmap.Record
import Filsys.Engine.Ops

namespace Filsys.Pdp7

open Filsys.Lib Filsys.Engine Filsys.Blockmap Filsys.Alloc Filsys.Check Filsys.Tree

/-- Word `i` of logical block `k` holds a byte from `lo` to `hi`. -/
def Covers (lo hi k i : Nat) : Prop := ∃ o, lo ≤ o ∧ o < hi ∧ o / 2 = 64 * k + i

/-- Block `k` holds a byte from `lo` to `mid`, and its word `i` none up to `hi`. -/
def Beside (lo mid hi k i : Nat) : Prop := i < 64 ∧ (∃ o, lo ≤ o ∧ o < mid ∧ o / 128 = k) ∧ ¬ Covers lo hi k i

/-- Two 7-bit characters. -/
def Plain (w : Nat) : Prop := w / 512 % 128 * 512 + w % 128 = w

instance (w : Nat) : Decidable (Plain w) := inferInstanceAs (Decidable (_ = _))

/-- A word of a block that is written, and no byte of which is. -/
theorem word_beside {s t : Mnt} {ip ip' : Inode} {n lo mid hi : Nat} {c : Nat → UInt8} (hm : Mounted7 s)
    (h : Inked s ip n lo mid c t ip')
    (hle : mid ≤ hi) {k i : Nat} (hk : k < 2 ^ 32) (hb : Beside lo mid hi k i) :
    unitAt t ip' k i = unitAt s ip k i / 512 % 128 * 512 + unitAt s ip k i % 128 := by
  have hbs := bsize_words hm
  have hd := shape_desc h.shape
  obtain ⟨hi64, ⟨o, h1, h2, hok⟩, hno⟩ := hb
  have hpack := h.packed o (by unfold Mappable; rw [hbs, hok]; exact hk) h1 h2 i
    (by unfold unitsIn; rw [if_pos hm.pdp7]; exact hi64)
  rw [hbs, hok] at hpack
  -- both its bytes are what they were
  have hbyte : ∀ j, j < 2 →
    byteIn s.fs.desc (unitAt t ip' k) (2 * i + j) = byteIn s.fs.desc (unitAt s ip k) (2 * i + j) := by
    intro j hj
    have hlt : 2 * i + j < 128 := by omega
    have hin := h.byte (128 * k + (2 * i + j)) (by unfold Mappable; rw [hbs]; omega)
    rw [if_neg fun hr => hno ⟨128 * k + (2 * i + j), hr.1, by omega, by omega⟩] at hin
    have ht : byteAt t ip' (t.fs.desc.bsize * k + (2 * i + j)) =
      byteIn t.fs.desc (unitAt t ip' k) (2 * i + j) :=
      byteAt_block (by rw [hd, hbs]; exact hlt)
    have hs : byteAt s ip (s.fs.desc.bsize * k + (2 * i + j)) = byteIn s.fs.desc (unitAt s ip k) (2 * i + j) :=
      byteAt_block (by rw [hbs]; exact hlt)
    rw [hd, hbs] at ht
    rw [hbs] at hs
    rw [← ht, ← hs, hin]
  have h0 := hbyte 0 (by decide)
  have h1 := hbyte 1 (by decide)
  rw [Nat.add_zero] at h0
  rw [hpack]
  unfold unitFrom
  rw [if_pos hm.pdp7, h0, h1]
  unfold byteIn
  rw [if_pos hm.pdp7, if_pos hm.pdp7, if_pos (by omega), if_neg (by omega), show 2 * i / 2 = i by omega,
    show (2 * i + 1) / 2 = i by omega,
    UInt8.toNat_ofNat', UInt8.toNat_ofNat']
  omega

/-- The words that hold no byte up to `hi` stay exactly where those of the blocks written are plain. -/
theorem words_stay_iff {s t : Mnt} {ip ip' : Inode} {n lo mid hi : Nat} {c : Nat → UInt8}
    (hm : Mounted7 s) (h : Inked s ip n lo mid c t ip')
    (hle : mid ≤ hi) (hend : hi < 2 ^ 32) :
    (∀ k i, k < 2 ^ 32 → i < 64 → ¬ Covers lo hi k i → unitAt t ip' k i = unitAt s ip k i) ↔ ∀ k i,
    Beside lo mid hi k i → Plain (unitAt s ip k i) := by
  have hbs := bsize_words hm
  constructor
  · intro hsame k i hb
    have hk : k < 2 ^ 32 := by
      obtain ⟨-, ⟨o, -, h2, rfl⟩, -⟩ := hb
      omega
    exact (word_beside hm h hle hk hb).symm.trans (hsame k i hk hb.1 hb.2.2)
  · intro hplain k i hk hi64 hno
    by_cases htouch : ∃ o, lo ≤ o ∧ o < mid ∧ o / 128 = k
    · have hb : Beside lo mid hi k i := ⟨hi64, htouch, hno⟩
      exact (word_beside hm h hle hk hb).trans (hplain k i hb)
    · refine h.kept k hk (fun o h1 h2 he => htouch ⟨o, h1, h2, ?_⟩) i
      rwa [hbs] at he

/-- A write to a PDP-7 file leaves the words it does not reach exactly where those of the blocks it
    writes are two characters; where it stops for want of a block, the blocks before that one. -/
theorem words_beside_a_write_stay_iff {s : Mnt} {l : Loc} (hs : Sited s) (hp : s.fs.desc.ops = .pdp7)
    (hn : Numbered s l.ip.ino)
    (hst : Stocked s l.ip) (buf : Buf) (size off : Nat) (hmax : off + size ≤ maxFile s.fs.desc) :
    Post (filsysFileWrite buf size off (s, l))
      (fun _ t => (∀ k i, k < 2 ^ 32 → i < 64 → ¬ Covers off (off + size) k i →
        unitAt t.1 t.2.ip k i = unitAt s l.ip k i) ↔
        ∀ k i, Beside off (off + size) (off + size) k i → Plain (unitAt s l.ip k i))
      (fun _ t => ∃ mid, mid < off + size ∧
        ((∀ k i, k < 2 ^ 32 → i < 64 → ¬ Covers off (off + size) k i →
          unitAt t.1 t.2.ip k i = unitAt s l.ip k i) ↔
          ∀ k i, Beside off mid (off + size) k i → Plain (unitAt s l.ip k i))) := by
  have hm := mounted_words hs.volume hp
  have hend : off + size < 2 ^ 32 := Nat.lt_of_le_of_lt hmax (maxFile_lt _)
  refine (post_filsysFileWrite_writes hs hn hst buf size off (fun o => buf (o - off))
    (fun _ _ _ => rfl) hmax).mono ?_ ?_
  · intro r x h
    obtain ⟨t, l'⟩ := x
    obtain ⟨-, -, u, jp, hink, hip, hrec⟩ := h
    have hip : l'.ip = reaching jp (off + size) := hip
    have hrec : Recorded u l.ip.ino l'.ip t := hrec
    have htwin : Twin u.fs.desc jp l'.ip := by rw [hip]; exact twin_reaching ..
    have hwords : ∀ k, k < 2 ^ 32 → ∀ i, unitAt t l'.ip k i = unitAt u jp k i := fun k hk i => by
      rw [hrec.unitAt (htwin.stocked hink.stocked) hk i, htwin.unitAt hink.stocked.stock.form hk]
    rw [← words_stay_iff hm hink (Nat.le_refl _) hend]
    exact forall_congr' fun k => forall_congr' fun i => forall_congr' fun hk => by rw [hwords k hk i]
  · intro e x h
    obtain ⟨t, l'⟩ := x
    obtain ⟨-, -, mid, -, hmid, -, hink⟩ := h
    exact ⟨off + mid, by omega, words_stay_iff hm hink (by omega) hend⟩

/-- A PDP-7 image with an empty free list. -/
def bareImage (img : Buf) : Mnt where
  fs := { desc := descPdp7, imgsize := 2048000 }
  img := img
  size := 2048000

theorem lists_bareImage (img : Buf) : Lists (bareImage img) [] := ⟨[], .stop (.inl rfl), rfl⟩

theorem sited_bareImage (img : Buf) : Sited (bareImage img) := by
  have hm : Mounted7 (bareImage img) :=
    ⟨fun _ _ => rfl, ⟨.me, some .rb09, rfl⟩, rfl, rfl, (by decide : 0 < 2048000)⟩
  have hnodes : NodesOk (bareImage img) [] :=
    ⟨lists_bareImage img, List.nodup_nil, fun _ hx => absurd hx List.not_mem_nil, (by decide : 0 < 2 ^ 18)⟩
  have hform : Formed descPdp7 := ⟨by decide, by decide, by decide, by decide⟩
  exact ⟨⟨⟨.inr hm, hform, (by decide : descPdp7.ops ≠ .pdp7 → 0 ≤ 256 ^ entryLen descPdp7), fun _ =>
    rfl⟩, fun hp => absurd rfl hp, fun _ => ⟨[], hnodes⟩⟩,
    fun hp => absurd rfl hp, fun hp => absurd rfl hp⟩

/-- A file or a directory of one block there. -/
theorem stocked_bareImage (img : Buf) {ip : Inode} {b : Nat}
    (hmode : ip.mode = 131072 ∨ ip.mode = 131088) (haddr : ∀ i, i < 7 → ip.addr i = if i = 0 then b else 0)
    (hlo : p7Datastart ≤ b) (hhi : b < p7Kdata) : Stocked (bareImage img) ip := by
  have hslots : ∀ i, i < 7 → slotLevel descPdp7 ip.mode i = none ∧
    base descPdp7 ip.mode i * 128 < maxFile descPdp7 := by
    rcases hmode with h | h <;> rw [h] <;> decide +kernel
  have hfirst : ∀ i, i < 7 → ip.addr i ≠ 0 → i = 0 ∧ ip.addr i = b := by
    intro i hi hne
    rw [haddr i hi] at hne ⊢
    by_cases h0 : i = 0
    · exact ⟨h0, if_pos h0⟩
    · rw [if_neg h0] at hne
      exact absurd rfl hne
  refine (sited_bareImage img).toStock.direct ?_ ?_ ?_ ?_
  · intro i hi _
    exact (hslots i hi).1
  · intro i j hi hj heq hne
    rw [(hfirst i hi hne).1, (hfirst j hj (heq ▸ hne)).1]
  · intro i hi hne
    rw [(hfirst i hi hne).2]
    refine ⟨⟨⟨hlo, hhi⟩, (readable_words rfl).mpr ?_⟩, fun hfree =>
      absurd ((free_words rfl (lists_bareImage img)).mp hfree) List.not_mem_nil⟩
    show 0 + b * 256 + 256 ≤ 2048000
    unfold p7Kdata at hhi
    omega
  · intro i hi _
    exact (hslots i hi).2

/-- Inode 5 there is a file of two words in block 801, the second of them `w`. -/
def twoWords (w : Nat) : Buf := fun o =>
  if o = 770 then 2 else if o = 772 then 33 else if o = 773 then 3 else if o = 808 then 2
  else if o = 205060 then UInt8.ofNat w else if o = 205061 then UInt8.ofNat (w / 256)
    else if o = 205062 then UInt8.ofNat (w / 65536) else 0

/-- A write of the first character leaves the second word, which is a B and a C. -/
theorem a_write_leaves_two_characters_beside_it :
    ∃ ip, recAt (bareImage (twoWords 33859)).fs (twoWords 33859) 5 = ip ∧
      Post (filsysFileWrite (fun _ => 65) 1 0 (bareImage (twoWords 33859), ⟨ip, []⟩))
      (fun _ t => unitAt t.1 t.2.ip 0 1 = 33859) fun _ _ => True := by
  obtain ⟨ip, hip, hino, haddr, hmode, hwords, hunit⟩ :
    ∃ ip, recAt (bareImage (twoWords 33859)).fs (twoWords 33859) 5 = ip ∧ ip.ino = 5 ∧
      (∀ i, i < 7 → ip.addr i = if i = 0 then 801 else 0) ∧ ip.mode = 131072 ∧
      (∀ i, i < 64 → Plain (unitAt (bareImage (twoWords 33859)) ip 0 i)) ∧
      unitAt (bareImage (twoWords 33859)) ip 0 1 = 33859 :=
    ⟨_, rfl, rfl, by decide +kernel, by decide +kernel, by decide +kernel, by decide +kernel⟩
  have hn : Numbered (bareImage (twoWords 33859)) ip.ino := by
    rw [hino]
    refine (if_pos (show (bareImage (twoWords 33859)).fs.desc.ops = .pdp7 from rfl)).mpr ?_
    exact ⟨by decide, by decide, (by decide : 0 + 3 * 256 + 256 ≤ 2048000)⟩
  have hst := stocked_bareImage (twoWords 33859) (.inl hmode) haddr (by decide) (by decide)
  refine ⟨ip, hip, (words_beside_a_write_stay_iff (sited_bareImage (twoWords 33859)) rfl (l :=
    ⟨ip, []⟩) hn hst (fun _ => 65) 1 0 (by decide)).mono ?_
    fun _ _ _ => trivial⟩
  intro _ t h
  have hstay := h.mpr (fun k i hb => ?_) 0 1 (by decide) (by decide) (by rintro ⟨o, -, h1, h2⟩; omega)
  · exact hstay.trans hunit
  · obtain ⟨hi, ⟨o, -, ho, rfl⟩, -⟩ := hb
    obtain rfl : o = 0 := by omega
    exact hwords i hi

/-- The image before it is opened. -/
def highBits : Mnt := { bareImage (twoWords 262143) with fs := { desc := descPdp7 } }

theorem highBits_opens :
    filsysOpenArch pdp7Args highBits = .ok () (final (filsysOpenArch pdp7Args) highBits) :=
  eq_done (by decide +kernel)

/-- A write of one byte, and the next word loses the four bits that are no part of a character. -/
theorem a_write_clears_bits_of_the_next_word : ∃ s u, filsysOpenArch pdp7Args highBits = .ok () s ∧
    filsysWriteIno 5 (fun _ => 65) 1 0 s = .ok 1 u ∧ unitAt s (recAt s.fs s.img 5) 0 1 = 262143 ∧
    unitAt u (recAt u.fs u.img 5) 0 1 = 65151 := by
  obtain ⟨s, hopen, hrun, hval, hw, hw'⟩ : ∃ s, filsysOpenArch pdp7Args highBits = .ok () s ∧
      errorOf (filsysWriteIno 5 (fun _ => 65) 1 0) s = none ∧
      valueOf (filsysWriteIno 5 (fun _ => 65) 1 0) s = 1 ∧
      unitAt s (recAt s.fs s.img 5) 0 1 = 262143 ∧
      unitAt (final (filsysWriteIno 5 (fun _ => 65) 1 0) s)
      (recAt (final (filsysWriteIno 5 (fun _ => 65) 1 0) s).fs
        (final (filsysWriteIno 5 (fun _ => 65) 1 0) s).img 5) 0 1 = 65151 :=
    ⟨_, highBits_opens, by decide +kernel, by decide +kernel, by decide +kernel, by decide +kernel⟩
  have heq := eq_ok hrun
  rw [hval] at heq
  exact ⟨s, _, hopen, heq, hw, hw'⟩

end Filsys.Pdp7
