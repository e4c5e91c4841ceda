/-
  Filsys.Blockmap.Record — a file by its number.

  An inode read names the blocks its record has and, but for the odd byte of a PDP-7 size,
  the size too (`post_readInode_twin`); a record that goes out is the one read next
  (`post_writeInode_records`). Records lie before the data area, so neither a file's bytes
  nor the free blocks move.
-/

import Filsys.Blockmap.Trim

namespace Filsys.Blockmap

open Filsys.Lib Filsys.Engine Filsys.Alloc Filsys.Check Filsys.Tree

/-! ## Copies of one file -/

/-- Copies that name the same blocks at the same places. -/
structure Twin (d : Desc) (ip ip' : Inode) : Prop where
  mode : ip'.mode = ip.mode
  addr : ∀ i, i < d.niaddr → ip'.addr i = ip.addr i

theorem Twin.symm {d : Desc} {ip ip' : Inode} (h : Twin d ip ip') : Twin d ip' ip :=
  ⟨h.mode.symm, fun i hi => (h.addr i hi).symm⟩

section Twin

variable {s : Mnt} {ip ip' : Inode} (h : Twin s.fs.desc ip ip')

include h

theorem Twin.blockAt {q : List Nat} (hq : Place s.fs.desc ip.mode q) : blockAt s ip' q = blockAt s ip q :=
  look_congr (rooted_place s.fs.desc ip.mode) (fun i hi => h.addr i (place_cons.mp hi).1)
  (fun _ _ _ _ _ => rfl) q hq

theorem Twin.inTree {b : Nat} : InTree s ip' b ↔ InTree s ip b := by
  unfold InTree Held
  rw [h.mode]
  refine and_congr_right fun _ => exists_congr fun q => and_congr_right fun hq => ?_
  rw [show look ip'.addr (heap s) q = look ip.addr (heap s) q from h.blockAt hq]

theorem Twin.tree (hok : TreeOk s ip) : TreeOk s ip' where
  unshared := by
    rw [h.mode]
    exact hok.unshared.congr fun q hq => h.blockAt hq
  usable b hb := hok.usable b (h.inTree.mp hb)

theorem Twin.stocked (hs : Stocked s ip) : Stocked s ip' where
  stock := hs.stock
  tree := h.tree hs.tree
  apart b hb := hs.apart b (h.inTree.mp hb)
  within j hj h0 := by
    rw [h.addr j hj] at h0
    rw [h.mode]
    exact hs.within j hj h0

theorem Twin.mapAt (hf : Formed s.fs.desc) {k : Nat} (hk : k < 2 ^ 32) : mapAt s ip' k = mapAt s ip k := by
  unfold Blockmap.mapAt
  rw [h.mode]
  cases hp : pathOf s.fs.desc ip.mode k with
  | none => rfl
  | some q => exact h.blockAt (place_pathOf hf hk hp)

theorem Twin.unitAt (hf : Formed s.fs.desc) {k : Nat} (hk : k < 2 ^ 32) : unitAt s ip' k = unitAt s ip k := by
  funext i
  unfold Blockmap.unitAt
  rw [h.mapAt hf hk]

theorem Twin.byteAt (hf : Formed s.fs.desc) {o : Nat} (ho : Mappable s.fs o) :
    byteAt s ip' o = byteAt s ip o := by
  unfold Blockmap.byteAt
  rw [h.unitAt hf ho]

end Twin

/-! ## Reading -/

/-- Inode `n` has a record that can be reached. -/
def Numbered (s : Mnt) (n : Nat) : Prop :=
  if s.fs.desc.ops = .pdp7 then n ≠ 0 ∧ n ≤ p7Maxino ∧ WordsIn s (p7Itod n) else ValidIno s.fs n

theorem numbered_of_sameVol {s t : Mnt} (hvol : SameVol s t) {n : Nat} : Numbered t n ↔ Numbered s n := by
  unfold Numbered
  rw [shape_desc hvol.shape, wordsIn_of_sameVol hvol, shape_validIno hvol.shape]

/-- A word of a PDP-7 file. -/
theorem post_inodeReadWord {s : Mnt} {l : Loc} (hm : Mounted7 s) (hr : Ready s) (hok : TreeOk s l.ip)
    {w : Nat} (hw : w / 64 < 2 ^ 32) :
    Post (inodeReadWord w (s, l)) (fun v _ => v = unitAt s l.ip (w / 64) (w % 64)) fun _ _ => False := by
  refine post_bind (post_failAs ((post_filsysBmap_false hr hok hw).mono ?_ fun _ _ hf => hf))
  intro pbn t h
  obtain ⟨rfl, k, rfl⟩ := h
  refine post_ite (fun h0 => (if_pos h0).symm) fun h0 => post_bind (post_outside (post_failAs ?_))
  have hvol : SameVol s { s with ios := k } := ⟨rfl, rfl, rfl⟩
  have hin := (readable_words hm.pdp7).mp (hok.usable _ (mapAt_inTree hr.form hw h0)).2
  refine (hm.of_sameVol hvol).post_readWords (fun _ _ => ?_)
    (fun hout => absurd ((wordsIn_of_sameVol hvol _).mpr hin) hout) fun hf _ =>
    absurd (hf.symm.trans (hr.quiet _)) (by decide)
  show wordsOf s.fs s.img (mapAt s l.ip (w / 64)) (w % 64) = unitAt s l.ip (w / 64) (w % 64)
  unfold unitAt contents
  rw [if_neg h0, if_pos hm.pdp7, if_pos (Nat.mod_lt _ (by decide))]

/-- What an inode read says of the record. -/
structure ReadAs (s : Mnt) (n : Nat) (ip : Inode) : Prop where
  numbered : Numbered s n
  ino : ip.ino = n
  twin : Twin s.fs.desc (recAt s.fs s.img n) ip
  size : ip.size = (recAt s.fs s.img n).size ∨ s.fs.desc.ops = .pdp7 ∧ ip.size + 1 = (recAt s.fs s.img n).size ∧
    (TreeOk s (recAt s.fs s.img n) → byteAt s (recAt s.fs s.img n) ip.size = 0)

theorem recordOf_ino (fs : Fs) (img : Buf) (n : Nat) : (recordOf fs img n).ino = n := by
  unfold recordOf decodeAt decodeInode v6DecodeInode v7DecodeInode v1DecodeInode
  split
  · rfl
  · split <;> rfl

/-- Without a failed transfer an inode with a record is read, and only such. -/
theorem post_readInode_twin {s : Mnt} (hr : Ready s) (n : Nat) :
    Post (readInode n s) (fun ip t => (∃ k, t = { s with ios := k }) ∧ ReadAs s n ip)
    fun _ _ => ¬ Numbered s n := by
  by_cases hp : s.fs.desc.ops = .pdp7
  · have hm := mounted_words hr.volume hp
    have hrec : recAt s.fs s.img n = p7DecodeInode n fun i => wordsOf s.fs s.img (p7Itod n)
      (p7Itoo n + i) := if_pos hp
    have hnum : Numbered s n ↔ n ≠ 0 ∧ n ≤ p7Maxino ∧ WordsIn s (p7Itod n) := by
      unfold Numbered
      rw [if_pos hp]
    rw [hm.readInode_eq]
    apply post_ite
    · intro hbad hn
      have := hnum.mp hn
      omega
    · intro hrange
      refine post_bind (post_failAs
        (hm.post_readWords (fun hin _ => ?_) (fun hout _ hn => hout (hnum.mp hn).2.2) fun hf _ =>
        absurd (hf.symm.trans (hr.quiet _)) (by decide)))
      have hn : Numbered s n := hnum.mpr ⟨by omega, by omega, hin⟩
      have hr1 : Ready (ticked s) := hr.of_sameVol (ticked_sameVol s)
      show Post ((if (!has (p7DecodeInode n fun i => wordsOf s.fs s.img (p7Itod n) (p7Itoo n + i)).mode
        0o60) = true ∧
        0 < (p7DecodeInode n fun i => wordsOf s.fs s.img (p7Itod n) (p7Itoo n + i)).size then _ else _ :
        M Inode) (ticked s)) _ _
      rw [← hrec]
      have hwhole : ReadAs s n (recAt s.fs s.img n) := ⟨hn, by rw [hrec]; rfl, ⟨rfl, fun _ _ => rfl⟩, .inl rfl⟩
      refine post_ite (fun hc => ?_) fun _ => ⟨⟨_, rfl⟩, hwhole⟩
      have hsize : (recAt s.fs s.img n).size = wordsOf s.fs s.img (p7Itod n) (p7Itoo n + 10) * 2 := by
        rw [hrec]
        rfl
      have hbound := wordsOf_lt s.fs s.img (p7Itod n) (p7Itoo n + 10)
      have hlbn : ((recAt s.fs s.img n).size / 2 - 1) / 64 < 2 ^ 32 := by omega
      have hpeek := inodeReadWord_peeks ((recAt s.fs s.img n).size / 2 - 1) (ticked s, ⟨recAt s.fs s.img n, []⟩)
      have hword : Post (inodeReadWord ((recAt s.fs s.img n).size / 2 - 1) (ticked s, ⟨recAt s.fs s.img n, []⟩))
          (fun v _ => TreeOk s (recAt s.fs s.img n) →
            v = unitAt s (recAt s.fs s.img n) (((recAt s.fs s.img n).size / 2 - 1) /
              64) (((recAt s.fs s.img n).size / 2 - 1) % 64)) fun _ _ => True := by
        by_cases hok : TreeOk s (recAt s.fs s.img n)
        · refine (post_inodeReadWord (hm.of_sameVol (ticked_sameVol s)) hr1 (l :=
            ⟨recAt s.fs s.img n, []⟩) ⟨hok.unshared, hok.usable⟩ hlbn).mono ?_
            fun _ _ _ => trivial
          exact fun v _ hv _ => hv
        · exact (post_true _).mono (fun _ _ _ h => absurd h hok) fun _ _ _ => trivial
      refine post_bind (post_inside ((hpeek.and hword).mono ?_ ?_))
      · intro v t hrun
        obtain ⟨⟨hro, -⟩, hv⟩ := hrun
        obtain ⟨k, -, ht⟩ := hro hm.solo
        refine ⟨⟨k, ?_⟩, ?_⟩
        · rw [ht]
          rfl
        · show ReadAs s n (if v % 512 =
            0 then { recAt s.fs s.img n with size := (recAt s.fs s.img n).size - 1 }
            else recAt s.fs s.img n)
          split
          · rename_i hodd
            refine ⟨hn, hwhole.ino, ⟨rfl, fun _ _ => rfl⟩, .inr ⟨hp, Nat.sub_add_cancel hc.2, fun hok => ?_⟩⟩
            -- the low half of the last word is the byte cut off
            show byteAt s (recAt s.fs s.img n) ((recAt s.fs s.img n).size - 1) = 0
            rw [hv hok] at hodd
            have hb := bsize_words hm
            unfold byteAt byteIn
            rw [if_pos hp, hb, if_neg (by omega), show ((recAt s.fs s.img n).size - 1) / 128 =
              ((recAt s.fs s.img n).size / 2 - 1) / 64 by omega,
              show ((recAt s.fs s.img n).size - 1) % 128 / 2 = ((recAt s.fs s.img n).size / 2 - 1) % 64 by
              omega]
            generalize unitAt s (recAt s.fs s.img n) (((recAt s.fs s.img n).size / 2 - 1) /
              64) (((recAt s.fs s.img n).size / 2 - 1) % 64) = v at hodd ⊢
            rw [show v % 128 = 0 by omega]
            rfl
          · exact hwhole
      · intro e t hrun
        obtain ⟨⟨hro, -⟩, -⟩ := hrun
        obtain ⟨k, -, ht⟩ := hro hm.solo
        exact ⟨⟨k, by rw [ht]; rfl⟩, hwhole⟩
  · have hm := mounted_bytes hr.volume hp
    have hrec : recAt s.fs s.img n = recordOf s.fs s.img n := if_neg hp
    have hnum : Numbered s n ↔ ValidIno s.fs n := by
      unfold Numbered
      rw [if_neg hp]
    refine hm.post_readInode (fun hn => ⟨⟨_, rfl⟩, ?_⟩) (fun hn _ hn' => hn (hnum.mp hn')) fun hf _ =>
      absurd (hf.symm.trans (hr.quiet _)) (by decide)
    rw [← hrec]
    refine ⟨hnum.mpr hn, ?_, ⟨rfl, fun _ _ => rfl⟩, .inl rfl⟩
    rw [hrec]
    exact recordOf_ino ..

/-- The last word of a PDP-7 file. -/
def lastWord (s : Mnt) (ip : Inode) : Nat :=
  unitAt s ip (((ip.size + 1) / 2 - 1) / 64) (((ip.size + 1) / 2 - 1) % 64)

/-- The size a PDP-7 record reads back with: a zero low half of the last word is no byte. -/
def readSize (s : Mnt) (ip : Inode) : Nat :=
  if has ip.mode 0o60 = false ∧ 0 < ip.size ∧ lastWord s ip % 512 = 0 then ip.size - 1 else ip.size

/-- The size read is the one the last word tells. -/
theorem post_readInode_words {s : Mnt} (hr : Ready s) (hp : s.fs.desc.ops = .pdp7) {n : Nat}
    (hn : Numbered s n) (hok : TreeOk s (recAt s.fs s.img n)) :
    Post (readInode n s) (fun ip _ => ip =
      { recAt s.fs s.img n with size := readSize s (recAt s.fs s.img n) }) fun _ _ => False := by
  have hm := mounted_words hr.volume hp
  have hrec : recAt s.fs s.img n = p7DecodeInode n fun i => wordsOf s.fs s.img (p7Itod n)
    (p7Itoo n + i) := if_pos hp
  unfold Numbered at hn
  rw [if_pos hp] at hn
  obtain ⟨h0, hmax, hin⟩ := hn
  rw [hm.readInode_eq]
  refine post_ite (fun hbad => by omega) fun _ => ?_
  refine post_bind (post_failAs (hm.post_readWords (fun _ _ => ?_) (fun hout => absurd hin hout) fun hf _ =>
    absurd (hf.symm.trans (hr.quiet _)) (by decide)))
  show Post ((if (!has (p7DecodeInode n fun i => wordsOf s.fs s.img (p7Itod n) (p7Itoo n + i)).mode
    0o60) = true ∧
    0 < (p7DecodeInode n fun i => wordsOf s.fs s.img (p7Itod n) (p7Itoo n + i)).size then _ else _ :
    M Inode) (ticked s)) _ _
  rw [← hrec]
  have hsize : (recAt s.fs s.img n).size = wordsOf s.fs s.img (p7Itod n) (p7Itoo n + 10) * 2 := by
    rw [hrec]
    rfl
  have hbound := wordsOf_lt s.fs s.img (p7Itod n) (p7Itoo n + 10)
  generalize recAt s.fs s.img n = ip at *
  have hmode : (!has ip.mode 0o60) = true ↔ has ip.mode 0o60 = false := by simp
  apply post_ite
  · intro hc
    have hr1 : Ready (ticked s) := hr.of_sameVol (ticked_sameVol s)
    have hlbn : (ip.size / 2 - 1) / 64 < 2 ^ 32 := by omega
    have hlast : (ip.size + 1) / 2 - 1 = ip.size / 2 - 1 := by omega
    refine post_bind (post_inside ((post_inodeReadWord (hm.of_sameVol (ticked_sameVol s)) hr1 (l :=
      ⟨ip, []⟩) ⟨hok.unshared, hok.usable⟩ hlbn).mono ?_
      fun _ _ hf => hf.elim))
    rintro v _ rfl
    show (if unitAt s ip ((ip.size / 2 - 1) / 64) ((ip.size / 2 - 1) % 64) % 512 =
      0 then { ip with size := ip.size - 1 } else ip) = _
    unfold readSize lastWord
    rw [hlast]
    by_cases hodd : unitAt s ip ((ip.size / 2 - 1) / 64) ((ip.size / 2 - 1) % 64) % 512 = 0
    · rw [if_pos hodd, if_pos ⟨hmode.mp hc.1, hc.2, hodd⟩]
    · rw [if_neg hodd, if_neg fun h => hodd h.2.2]
  · intro hc
    unfold readSize
    rw [if_neg fun h => hc ⟨hmode.mpr h.1, h.2.1⟩]
    rfl

/-! ## Writing -/

/-- A mount with sound free space whose records have room for the block numbers. -/
structure Sited (s : Mnt) : Prop extends Stock s where
  layout : s.fs.desc.ops ≠ .pdp7 → RecordLayout s.fs.desc
  field : s.fs.desc.ops ≠ .pdp7 → s.fs.fsize ≤ 256 ^ addrLen s.fs.desc

theorem Sited.of_stock {s t : Mnt} (h : Sited s) (hvol : SameVol s t) (hstock : Stock t) : Sited t where
  toStock := hstock
  layout := by rw [shape_desc hvol.shape]; exact h.layout
  field := by rw [shape_desc hvol.shape, shape_fsize hvol.shape]; exact h.field

/-- One past the largest mode a record holds. -/
def modeEnd (d : Desc) : Nat := if d.ops = .pdp7 then 2 ^ 18 else 2 ^ 16

/-- A size as it reads back, the odd byte of a PDP-7 size aside. -/
def keptSize (d : Desc) (size : Nat) : Nat :=
  if d.ops = .pdp7 then word18 ((size + 1) / 2) * 2 else size % 2 ^ sizeLen d

/-- The record of `n` holds `ip`, and no block of the data area has been written. -/
structure Recorded (s : Mnt) (n : Nat) (ip : Inode) (t : Mnt) : Prop extends SameVol s t where
  stock : Stock t
  free : ∀ x, Free t x ↔ Free s x
  same : ∀ c, Usable s c → contents t c = contents s c
  mode : (recAt t.fs t.img n).mode = ip.mode % modeEnd s.fs.desc
  addr : ∀ i, i < s.fs.desc.niaddr → ip.addr i = 0 ∨ InArea s.fs (ip.addr i) →
    (recAt t.fs t.img n).addr i = ip.addr i
  length : (recAt t.fs t.img n).size = keptSize s.fs.desc ip.size
  owners : Owners s.fs.desc ip (recAt t.fs t.img n)
  others : s.fs.desc.ops ≠ .pdp7 → ∀ k, k ≠ 0 → k ≠ n → recAt t.fs t.img k = recAt s.fs s.img k

theorem shape_recAt {fs fs' : Fs} (h : shape fs' = shape fs) : recAt fs' = recAt fs := by
  funext img n
  unfold recAt
  rw [shape_desc h, shape_wordsOf h, shape_recordOf h]

theorem post_writeInode_records_bytes {s : Mnt} (h : Sited s) (hp : s.fs.desc.ops ≠ .pdp7) {n : Nat}
    (hn : ValidIno s.fs n) (ip : Inode) :
    Post (writeInode n ip s) (fun _ t => Recorded s n ip t) fun _ _ => False := by
  have hm := mounted_bytes h.volume hp
  have hl := h.layout hp
  refine hm.post_writeInode ?_ (fun _ _ hbad _ => hbad hn) ?_
  · intro u hu _
    have hmu := hm.of_sameVol hu.toSameVol
    have hlu : RecordLayout u.fs.desc := by rw [shape_desc hu.shape]; exact hl
    have hput : SameVol u (putInode n ip u) := sameVol_law.trans (ticked_sameVol u) (putAt_sameVol ..)
    have hvol := sameVol_law.trans hu.toSameVol hput
    have hrec : ∀ k, recAt s.fs s.img k = recordOf s.fs s.img k := fun k => if_neg hp
    have hrect : ∀ k, recAt (putInode n ip u).fs (putInode n ip u).img k =
      recordOf (putInode n ip u).fs (putInode n ip u).img k :=
      fun k => if_neg (by rw [shape_desc hvol.shape]; exact hp)
    have hst := recordOf_putInode hmu hlu (n := n) ip
    have hsame : ∀ c, Usable s c → contents (putInode n ip u) c = contents s c := by
      intro c hc
      refine (contents_bytes hm hvol).mpr ?_
      have hne : c ≠ itod u.fs n := by
        have hb := hm.itod_bounds hn
        rw [shape_itod hu.shape]
        intro he
        have := hc.1.1
        omega
      have hkeep := hu.blocks c (hc.lies h.volume).1
      rw [← shape_blockOf hu.shape] at hkeep ⊢
      exact (blockOf_putBlock_ne hne _ _).trans hkeep
    obtain ⟨hstock, hfree⟩ := h.toStock.of_same hvol (fun _ => hu.space) (fun he => absurd he hp)
      fun c hc => hsame c (h.usable hc)
    refine ⟨hvol, hstock, hfree, hsame, ?_, fun i hi ha => ?_, ?_, ?_, fun _ k hk hkn => ?_⟩
    · rw [hrect, hst.mode]
      unfold modeEnd
      rw [if_neg hp]
      rfl
    · rw [hrect, hst.addr i (by rw [shape_desc hu.shape]; exact hi), shape_desc hu.shape]
      apply Nat.mod_eq_of_lt
      rcases ha with h0 | ha
      · rw [h0]
        exact Nat.pow_pos (by decide)
      · exact Nat.lt_of_lt_of_le (Nat.lt_of_lt_of_le ha.2 hm.last) (h.field hp)
    · rw [hrect, hst.size, shape_desc hu.shape]
      unfold keptSize
      rw [if_neg hp]
    · rw [hrect, recordOf_putInode_eq hmu hlu, ← shape_desc hu.shape]
      exact owners_encodeAt hlu hmu.notPdp7 n ip _ _
    · rw [hrect, recordOf_putInode_ne hmu hlu ip hn.1 hk hkn, hrec, shape_recordOf hu.shape]
      by_cases hvk : ValidIno s.fs k
      · have hb := hm.itod_bounds hvk
        exact recordOf_congr (hu.blocks _ hb.1)
      · refine recordOf_congr (hu.blocks _ ?_)
        unfold itod v1Itod v7Itod
        split
        · omega
        · exact Nat.le_add_right ..
  · intro _ _ hf _
    obtain ⟨k, hk⟩ := hf
    exact absurd (hk.symm.trans (h.quiet k)) (by decide)

theorem post_writeInode_records_words {s : Mnt} (h : Sited s) (hp : s.fs.desc.ops = .pdp7) {n : Nat}
    (hn : n ≠ 0 ∧ n ≤ p7Maxino ∧ WordsIn s (p7Itod n))
    (ip : Inode) : Post (writeInode n ip s) (fun _ t => Recorded s n ip t) fun _ _ => False := by
  have hm := mounted_words h.volume hp
  obtain ⟨h0, hmax, hin⟩ := hn
  have heq : writeInode n ip s = p7fsWriteInode n ip s := by
    unfold writeInode
    rw [bindFs_run]
    rw [hp]
  have hnofail : ∀ {t : Mnt}, SameVol s t → ∀ k, t.env.fails k ≠ true := fun hv k hf => by
    rw [hv.env, h.quiet] at hf
    cases hf
  have hhere : ∀ {t : Mnt}, SameVol s t → WordsIn t (p7Itod n) := fun hv => (wordsIn_of_sameVol hv _).mpr hin
  have hzero : ∀ {t : Mnt}, SameVol s t → WordsIn t 0 :=
    fun hv => wordsIn_of_lt (by unfold p7Itod; omega) (hhere hv)
  rw [heq]
  refine post_bindFs (post_ite (fun hc => by omega) fun _ =>
    post_ite (fun hc => absurd hc (by simp [hm.writable])) fun _ => ?_)
  -- the free list's head goes out first, to block 0
  have hflush : Post (flushIfDirty p7SuperWrite s)
      (fun _ t => SameVol s t ∧ t.fs.freelist = s.fs.freelist ∧ ∀ x, x ≠ 0 →
        wordsOf s.fs t.img x = wordsOf s.fs s.img x) fun _ _ => False := by
    refine post_bindFs (post_ite (fun _ => ?_) fun _ => ⟨sameVol_law.refl s, rfl, fun _ _ => rfl⟩)
    have h1 : SameVol s (ticked s) := ticked_sameVol s
    refine post_bindFs (post_bind
      (post_failAs (hm.post_readWords (fun _ _ => ?_) (fun hc => absurd (hzero (sameVol_law.refl s)) hc)
      fun hc => absurd hc (hnofail (sameVol_law.refl s) _))))
    refine post_bind (post_failAs ((hm.of_sameVol h1).post_writeWords (fun _ _ => ?_)
      (fun hc => absurd (hzero h1) hc) fun hc =>
      absurd hc (hnofail h1 _)))
    exact ⟨⟨rfl, rfl, rfl⟩, rfl, fun x hx => wordsOf_putWordBlock_ne hx _ _⟩
  refine post_bind (hflush.mono ?_ fun _ _ hf => hf)
  intro _ t hr
  obtain ⟨ht, hhead, hwords⟩ := hr
  have hmt := hm.of_sameVol ht
  have h1 : SameVol s (ticked t) := sameVol_law.trans ht (ticked_sameVol t)
  refine post_bind (post_failAs (hmt.post_readWords (fun _ _ => ?_) (fun hc => absurd (hhere ht) hc)
    fun hc => absurd hc (hnofail ht _)))
  refine (hm.of_sameVol h1).post_writeWords (fun _ _ => ?_) (fun hc => absurd (hhere h1) hc)
    fun hc => absurd hc (hnofail h1 _)
  generalize hu : putWords (.inode ip) (p7Itod n) (p7EncodeInode ip (wordsOf t.fs t.img (p7Itod n))
    (p7Itoo n)) (ticked t) = u
  have hvol : SameVol s u := hu ▸ sameVol_law.trans h1 (putWords_sameVol ..)
  have hitod : p7Itod n < p7Datastart := by
    unfold p7Itod p7Datastart
    unfold p7Maxino at hmax
    omega
  have hsame : ∀ c, Usable s c → contents u c = contents s c := by
    intro c hc
    have hstart : opsDataStart s.fs = p7Datastart := by
      unfold opsDataStart
      rw [hp]
    have hge := hc.1.1
    rw [hstart] at hge
    refine (contents_words hm hvol).mpr fun i _ => ?_
    rw [← hu, putWords_img, shape_wordsOf h1.shape.symm, wordsOf_putWordBlock_ne (by omega),
      shape_wordsOf h1.shape]
    exact congrFun (hwords c (by unfold p7Datastart at hge; omega)) i
  obtain ⟨hstock, hfree⟩ := h.toStock.of_same hvol (fun hne => absurd hp hne)
    (fun _ => by rw [← hu]; exact hhead) fun c hc => hsame c (h.usable hc)
  have hword : ∀ i, i < 12 → wordsOf u.fs u.img (p7Itod n) (p7Itoo n + i) =
      word18 (p7EncodeInode ip (wordsOf t.fs t.img (p7Itod n)) (p7Itoo n) (p7Itoo n + i)) := by
    intro i hi
    rw [← hu, putWords_fs, putWords_img, wordsOf_putWordBlock]
    unfold p7Itoo
    omega
  have hrec : recAt u.fs u.img n = p7DecodeInode n fun i => wordsOf u.fs u.img (p7Itod n) (p7Itoo n + i) :=
    if_pos (by rw [shape_desc hvol.shape]; exact hp)
  have h18 : ∀ v, word18 (word18 v) = word18 v := fun v => Nat.mod_mod ..
  refine ⟨hvol, hstock, hfree, hsame, ?_, ?_, ?_, ⟨?_, ?_⟩, fun hne => absurd hp hne⟩
  · rw [hrec]
    show wordsOf u.fs u.img (p7Itod n) (p7Itoo n + 0) = _
    rw [hword 0 (by decide),
      show p7EncodeInode ip (wordsOf t.fs t.img (p7Itod n)) (p7Itoo n) (p7Itoo n + 0) =
      word18 ip.mode from if_pos rfl, h18]
    unfold modeEnd word18
    rw [if_pos hp]
  · intro i hi ha
    have hi7 : i < 7 := by
      obtain ⟨bo, wc, hd⟩ := hm.format
      rw [hd] at hi
      exact hi
    rw [hrec]
    show (if i < 7 then wordsOf u.fs u.img (p7Itod n) (p7Itoo n + (1 + i)) else 0) = _
    rw [if_pos hi7, hword (1 + i) (by omega)]
    have henc : p7EncodeInode ip (wordsOf t.fs t.img (p7Itod n)) (p7Itoo n) (p7Itoo n + (1 + i)) =
      word18 (ip.addr i) := by
      unfold p7EncodeInode
      rw [if_neg (by omega), if_pos (by omega), show p7Itoo n + (1 + i) - p7Itoo n - 1 = i by omega]
    rw [henc, h18]
    apply Nat.mod_eq_of_lt
    rcases ha with h0 | ha
    · rw [h0]
      decide
    · have hend := ha.2
      have hlast : opsDataEnd s.fs = p7Kdata := by
        unfold opsDataEnd
        rw [hp]
      exact Nat.lt_trans (hlast ▸ hend) (by decide)
  · rw [hrec]
    show wordsOf u.fs u.img (p7Itod n) (p7Itoo n + 10) * 2 = _
    have henc : p7EncodeInode ip (wordsOf t.fs t.img (p7Itod n)) (p7Itoo n) (p7Itoo n + 10) =
      word18 ((ip.size + 1) / 2) := by
      unfold p7EncodeInode
      rw [if_neg (by omega), if_neg (by omega), if_neg (by omega), if_neg (by omega), if_pos rfl]
    rw [hword 10 (by decide), henc, h18]
    unfold keptSize
    rw [if_pos hp]
  · rw [hrec]
    show toInt16 (sign18 (wordsOf u.fs u.img (p7Itod n) (p7Itoo n + 8))) = _
    have henc : p7EncodeInode ip (wordsOf t.fs t.img (p7Itod n)) (p7Itoo n) (p7Itoo n + 8) =
      word18 (u16 ip.uid) := by
      unfold p7EncodeInode
      rw [if_neg (by omega), if_neg (by omega), if_pos rfl]
    rw [hword 8 (by decide), henc, h18, storeUid, if_neg (by simp [hp])]
    have hword : word18 (u16 ip.uid) = u16 ip.uid := Nat.mod_eq_of_lt (by unfold u16; omega)
    unfold sign18
    rw [hword, hword, if_pos (by unfold u16; omega)]
    unfold u16 toInt16
    omega
  · rw [hrec, storeGid, if_pos (.inr hp)]
    rfl

/-- Without a failed transfer a record goes out. -/
theorem post_writeInode_records {s : Mnt} (h : Sited s) {n : Nat} (hn : Numbered s n) (ip : Inode) :
    Post (writeInode n ip s) (fun _ t => Recorded s n ip t) fun _ _ => False := by
  by_cases hp : s.fs.desc.ops = .pdp7
  · unfold Numbered at hn
    rw [if_pos hp] at hn
    exact post_writeInode_records_words h hp hn ip
  · unfold Numbered at hn
    rw [if_neg hp] at hn
    exact post_writeInode_records_bytes h hp hn ip

section Recorded

variable {s t : Mnt} {n : Nat} {ip jp : Inode}

/-- A file is what it was when some record has gone out. -/
theorem Recorded.steady (h : Recorded s n ip t) (hst : Stocked s jp) : Steady s jp t :=
  hst.steady h.toSameVol fun c h0 hc => h.same c (hst.tree.usable c (hc.inTree h0))

theorem Recorded.stocked (h : Recorded s n ip t) (hst : Stocked s jp) : Stocked t jp :=
  (h.steady hst).stocked hst h.stock h.free

theorem Recorded.unitAt (h : Recorded s n ip t) (hst : Stocked s jp) {k : Nat} (hk : k < 2 ^ 32)
    (i : Nat) : unitAt t jp k i = unitAt s jp k i := by
  unfold Blockmap.unitAt
  rw [(h.steady hst).mapAt hst.stock.form hk]
  split
  · rfl
  · rename_i h0
    rw [h.same _ (hst.tree.usable _ (mapAt_inTree hst.stock.form hk h0))]

theorem Recorded.byteAt (h : Recorded s n ip t) (hst : Stocked s jp) {o : Nat} (ho : Mappable s.fs o) :
    byteAt t jp o = byteAt s jp o := by
  have hunit : Blockmap.unitAt t jp (o / s.fs.desc.bsize) =
    Blockmap.unitAt s jp (o / s.fs.desc.bsize) := funext fun i => h.unitAt hst ho i
  unfold Blockmap.byteAt
  rw [shape_desc h.shape, hunit]

/-- The record that went out names the blocks the copy does. -/
theorem Recorded.twin (h : Recorded s n ip t) (hst : Stocked s ip)
    (hmode : ip.mode < modeEnd s.fs.desc) : Twin t.fs.desc ip (recAt t.fs t.img n) := by
  refine ⟨h.mode.trans (Nat.mod_eq_of_lt hmode), fun i hi => ?_⟩
  rw [shape_desc h.shape] at hi
  refine h.addr i hi ?_
  by_cases h0 : ip.addr i = 0
  · exact .inl h0
  · exact .inr (hst.tree.usable _ ⟨h0, [i], place_slot hi, rfl⟩).1

end Recorded

/-! ## Writing a file -/

/-- A file that reaches at least to `e`. -/
def reaching (ip : Inode) (e : Nat) : Inode := if ip.size < e then { ip with size := e % 2 ^ 32 } else ip

theorem twin_reaching (d : Desc) (ip : Inode) (e : Nat) : Twin d ip (reaching ip e) := by
  unfold reaching
  split <;> exact ⟨rfl, fun _ _ => rfl⟩

theorem reaching_ino (ip : Inode) (e : Nat) : (reaching ip e).ino = ip.ino := by
  unfold reaching
  split <;> rfl

/-- What a write leaves: the bytes, the size and the record. -/
def Written (s : Mnt) (ip : Inode) (n off size : Nat) (c : Nat → UInt8) (t : Mnt) (ip' : Inode) : Prop :=
  ∃ u jp, Inked s ip (5 * size) off (off + size) c u jp ∧ ip' = reaching jp (off + size) ∧ Recorded u n ip' t

/-- A write goes through to its end and to the record, or stops for want of a block. -/
theorem post_filsysFileWrite_writes {s : Mnt} {l : Loc} (hs : Sited s) (hn : Numbered s l.ip.ino)
    (hst : Stocked s l.ip) (buf : Buf) (size off : Nat)
    (c : Nat → UInt8) (hc : ∀ o, off ≤ o → o < off + size → c o = buf (o - off))
    (hmax : off + size ≤ maxFile s.fs.desc) :
    Post (filsysFileWrite buf size off (s, l))
      (fun r t => r = size ∧ t.2.bl = l.bl ∧ Written s l.ip l.ip.ino off size c t.1 t.2.ip)
      (fun _ t => Stopped s l (5 * size) off 0 size c t) := by
  have hbs := Formed.bsize_pos hs.form
  have hreach : 0 < size → off + size ≤ s.fs.desc.bsize * ((off + 0) / s.fs.desc.bsize + size) := by
    intro h0
    obtain ⟨m, rfl⟩ : ∃ m, size = m + 1 := ⟨size - 1, by omega⟩
    have hsplit := Nat.div_add_mod off s.fs.desc.bsize
    have hmod := Nat.mod_lt off hbs
    have hle := Nat.le_mul_of_pos_left m hbs
    show off + (m + 1) ≤ s.fs.desc.bsize * (off / s.fs.desc.bsize + (m + 1))
    rw [Nat.mul_add, Nat.mul_succ]
    omega
  show Post ((if (off : Int) < 0 then throw .einval else _ : MI Nat) (s, l)) _ _
  refine post_ite (fun hneg => by omega) fun _ => ?_
  refine post_bind ((post_fileWriteLoop_inks buf size off c hc size 0 size hst (by omega)
    (Nat.zero_le _) hmax hreach).mono ?_ fun _ _ hf => hf)
  intro _ x h
  obtain ⟨u, jp, bl⟩ := x
  obtain ⟨hbl, hink⟩ := h
  have hink : Inked s l.ip (5 * size) off (off + size) c u jp := hink
  show Post ((up (writeInode (reaching jp (off + size)).ino (reaching jp (off + size))) >>=
    fun _ => pure size : MI Nat)
    (u, ⟨reaching jp (off + size), bl⟩)) _ _
  have hino : (reaching jp (off + size)).ino = l.ip.ino := by
    have hkin := hink.kin
    rw [reaching_ino, hkin]
  rw [hino]
  have hsu := hs.of_stock hink.toSameVol hink.stocked.stock
  refine post_bind (post_outside
    ((post_writeInode_records hsu ((numbered_of_sameVol hink.toSameVol).mpr hn) _).mono ?_ fun _ _ hf =>
    hf.elim))
  intro _ t hrec
  exact ⟨rfl, hbl, u, jp, hink, rfl, hrec⟩

end Filsys.Blockmap
