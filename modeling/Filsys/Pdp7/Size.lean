/-
  Filsys.Pdp7.Size — the size of a PDP-7 file (pdp7fs.c).

  The record counts words. Which of the two bytes of the last word is the last of the file
  is read off the word: a zero low half is taken for no byte at all. A file that is a string
  of an odd length, or one that does not end in a NUL, is as long as it was written, through
  any run of writes and truncates (`pdp7_size_is_the_length`); one of an even length that
  does loses it (`a_final_nul_is_no_byte`).
-/

import Filsys.Blockmap.Shrink
import Filsys.Pdp7.Beside

namespace Filsys.Pdp7

open Filsys.Lib Filsys.Engine Filsys.Blockmap Filsys.Alloc Filsys.Check Filsys.Tree

/-! ## The file as a string -/

/-- What a file holds. -/
structure Contents where
  len : Nat
  byte : Nat → UInt8
  past : ∀ o, len ≤ o → byte o = 0

inductive Change
  | write (data : List UInt8) (off : Nat)
  | truncate (size : Nat)

/-- Where the bytes of a write end; none has no end. -/
def endOf (data : List UInt8) (off : Nat) : Nat := if data = [] then 0 else off + data.length

def Contents.write (m : Contents) (data : List UInt8) (off : Nat) : Contents where
  len := max m.len (endOf data off)
  byte := fun o => if off ≤ o ∧ o < off + data.length then data.getD (o - off) 0 else m.byte o
  past := by
    intro o ho
    rw [if_neg, m.past o (by omega)]
    rintro ⟨h1, h2⟩
    have hne : data ≠ [] := by
      rintro rfl
      exact absurd h2 (Nat.not_lt.mpr h1)
    unfold endOf at ho
    rw [if_neg hne] at ho
    omega

def Contents.truncate (m : Contents) (size : Nat) : Contents where
  len := size
  byte := fun o => if o < size then m.byte o else 0
  past := fun _ ho => if_neg (by omega)

def Change.apply (m : Contents) : Change → Contents
  | .write data off => m.write data off
  | .truncate size => m.truncate size

/-- A file is written in 7-bit characters. -/
def Change.Chars : Change → Prop
  | .write data _ => ∀ c ∈ data, c < 128
  | .truncate _ => True

def Change.run (n : Nat) : Change → M Unit
  | .write data off => do
    let _ ← filsysWriteIno n (fun i => data.getD i 0) data.length off
  | .truncate size => filsysTruncateIno n size

/-- The states in which inode `n` is a regular file that should hold `m`: one that does, and what
    successful changes leave of it. -/
inductive Traced (first : Mnt → Inode → Prop) (ok : Contents → Change → Prop) (n : Nat) : Mnt → Contents → Prop
  | start {s : Mnt} {m : Contents} : Sited s → s.fs.desc.ops = .pdp7 → Numbered s n →
  Stocked s (recAt s.fs s.img n) →
      has (recAt s.fs s.img n).mode 0o60 = false → readSize s (recAt s.fs s.img n) = m.len →
      (∀ o, o < m.len → byteAt s (recAt s.fs s.img n) o = m.byte o) → first s (recAt s.fs s.img n) →
      Traced first ok n s m
  | next {s t : Mnt} {m : Contents} (c : Change) : Traced first ok n s m → c.Chars → ok m c →
    c.run n s = .ok () t → Traced first ok n t (c.apply m)

/-- No bit but those of characters in the low halves of its words, and nothing past its end. -/
structure Neat (s : Mnt) (ip : Inode) : Prop where
  low : ∀ k i, k < 2 ^ 32 → i < 64 → unitAt s ip k i % 512 < 128
  past : ∀ o, Mappable s.fs o → readSize s ip ≤ o → byteAt s ip o = 0

/-- The last word tells the length. -/
def Told (m : Contents) : Prop := m.len = 0 ∨ m.len % 2 = 1 ∨ m.byte (m.len - 1) ≠ 0

/-- It does after the change, and no empty write is past the end. -/
def Telling (m : Contents) (c : Change) : Prop := Told (c.apply m) ∧ ∀ off, c = .write [] off → off ≤ m.len

/-! ## What every state keeps -/

/-- Inode `n` is a regular file that holds `m`. -/
structure Stands (s : Mnt) (n : Nat) (m : Contents) : Prop where
  sited : Sited s
  words : s.fs.desc.ops = .pdp7
  numbered : Numbered s n
  stocked : Stocked s (recAt s.fs s.img n)
  regular : has (recAt s.fs s.img n).mode 0o60 = false
  size : (recAt s.fs s.img n).size = (m.len + 1) / 2 * 2
  low : ∀ k i, k < 2 ^ 32 → i < 64 → unitAt s (recAt s.fs s.img n) k i % 512 < 128
  byte : ∀ o, Mappable s.fs o → byteAt s (recAt s.fs s.img n) o = m.byte o

/-- The low half of a word is its second byte. -/
theorem byteAt_low {s : Mnt} (hm : Mounted7 s) (ip : Inode) (w : Nat) :
    byteAt s ip (2 * w + 1) = UInt8.ofNat (unitAt s ip (w / 64) (w % 64) % 128) := by
  have hb := bsize_words hm
  unfold byteAt byteIn
  rw [if_pos hm.pdp7, hb, if_neg (by omega), show (2 * w + 1) / 128 = w / 64 by omega,
    show (2 * w + 1) % 128 / 2 = w % 64 by omega]

section Stands

variable {s : Mnt} {n : Nat} {m : Contents} (h : Stands s n m)

include h

theorem Stands.mounted : Mounted7 s := mounted_words h.sited.volume h.words

theorem Stands.short : (m.len + 1) / 2 < 2 ^ 18 := by
  have hrec : (recAt s.fs s.img n).size = wordsOf s.fs s.img (p7Itod n) (p7Itoo n + 10) * 2 := by
    unfold recAt
    rw [if_pos h.words]
    rfl
  have hlt := wordsOf_lt s.fs s.img (p7Itod n) (p7Itoo n + 10)
  have hsize := h.size
  omega

/-- The low half of the last word is zero exactly where the last byte it could hold is. -/
theorem Stands.lastWord (h0 : m.len ≠ 0) : lastWord s (recAt s.fs s.img n) % 512 = 0 ↔
    m.byte ((m.len + 1) / 2 * 2 - 1) = 0 := by
  have hshort := h.short
  obtain ⟨w, hw⟩ : ∃ w, (m.len + 1) / 2 = w + 1 := ⟨(m.len + 1) / 2 - 1, by omega⟩
  have hb := bsize_words h.mounted
  have hlow := h.low (w / 64) (w % 64) (by omega) (Nat.mod_lt _ (by decide))
  have hbyte := h.byte (2 * w + 1) (by unfold Mappable; rw [hb]; omega)
  rw [byteAt_low h.mounted] at hbyte
  unfold Blockmap.lastWord
  rw [h.size, hw, show (w + 1) * 2 - 1 = 2 * w + 1 by omega, show ((w + 1) * 2 + 1) / 2 - 1 =
    w by omega, ← hbyte]
  generalize unitAt s (recAt s.fs s.img n) (w / 64) (w % 64) = v at hlow ⊢
  constructor
  · intro hz
    rw [show v % 128 = 0 by omega]
    rfl
  · intro hz
    have hnat : v % 128 = 0 := by
      have := congrArg UInt8.toNat hz
      rwa [UInt8.toNat_ofNat', Nat.mod_eq_of_lt (by omega)] at this
    omega

/-- The size read is the length exactly where the last word tells it. -/
theorem Stands.readSize_iff : readSize s (recAt s.fs s.img n) = m.len ↔ Told m := by
  unfold Blockmap.readSize Told
  rw [h.size]
  by_cases h0 : m.len = 0
  · rw [h0]
    simp
  · have hlast := h.lastWord h0
    by_cases hodd : m.len % 2 = 1
    · rw [if_pos ⟨h.regular, by omega, hlast.mpr (m.past _ (by omega))⟩]
      omega
    · rw [show (m.len + 1) / 2 * 2 - 1 = m.len - 1 by omega] at hlast
      by_cases hz : m.byte (m.len - 1) = 0
      · rw [if_pos ⟨h.regular, by omega, hlast.mpr hz⟩]
        simp [h0, hodd, hz]
        omega
      · rw [if_neg fun hc => hz (hlast.mp hc.2.2)]
        simp [h0, hodd, hz]
        omega

theorem Stands.post_readInode : Post (readInode n s)
    (fun r t => r = { recAt s.fs s.img n with size := Blockmap.readSize s (recAt s.fs s.img n) } ∧ ∃ k,
      t = { s with ios := k }) fun _ _ => False := by
  have hr := h.stocked.stock.toReady
  refine ((post_readInode_words hr h.words h.numbered h.stocked.tree).and
    (post_readInode_twin hr n)).mono ?_ fun _ _ hf => hf.1
  exact fun r t ⟨hr, ht, _⟩ => ⟨hr, ht⟩

end Stands

/-! ## One change -/

theorem Stands.read {s : Mnt} {n : Nat} {m : Contents} (h : Stands s n m) (k : Nat) :
    Stands { s with ios := k } n m := by
  have hst := (h.stocked.read k).stocked
  exact ⟨h.sited.of_stock ⟨rfl, rfl, rfl⟩ hst.stock, h.words, h.numbered, hst, h.regular, h.size, h.low, h.byte⟩

/-- The record that goes out holds what the copy does. -/
theorem held_of_recorded {u t : Mnt} {n : Nat} {jp : Inode} {m : Contents} (hrec : Recorded u n jp t)
    (hs : Sited u) (hp : u.fs.desc.ops = .pdp7)
    (hn : Numbered u n) (hst : Stocked u jp) (hmode : jp.mode < modeEnd u.fs.desc)
    (hreg : has jp.mode 0o60 = false) (hlen : jp.size = m.len)
    (hshort : (m.len + 1) / 2 < 2 ^ 18) (hlow : ∀ k i, k < 2 ^ 32 → i < 64 → unitAt u jp k i % 512 < 128)
    (hbyte : ∀ o, Mappable u.fs o → byteAt u jp o = m.byte o) : Stands t n m := by
  have hd := shape_desc hrec.shape
  have htwin := hrec.twin hst hmode
  have hstt := hrec.stocked hst
  refine ⟨hs.of_stock hrec.toSameVol hrec.stock, by rw [hd]; exact hp,
    (numbered_of_sameVol hrec.toSameVol).mpr hn, htwin.stocked hstt, ?_, ?_,
    fun k i hk hi => ?_, fun o ho => ?_⟩
  · rw [htwin.mode]
    exact hreg
  · rw [hrec.length, hlen]
    unfold keptSize
    rw [if_pos hp]
    unfold word18
    rw [Nat.mod_eq_of_lt hshort]
  · rw [htwin.unitAt hstt.stock.form hk, hrec.unitAt hst hk]
    exact hlow k i hk hi
  · have hou : Mappable u.fs o := by
      unfold Mappable at ho ⊢
      rwa [hd] at ho
    rw [htwin.byteAt hstt.stock.form ho, hrec.byteAt hst hou]
    exact hbyte o hou

/-- The low half of a word stays a character. -/
theorem low_of_plain {s : Mnt} (hp : s.fs.desc.ops = .pdp7) {w w' : Nat → Nat}
    {i : Nat} (hlow : w i % 512 < 128)
    (h : w' i = w i ∨ Packed s.fs.desc w' i) : w' i % 512 < 128 := by
  rcases h with h | h
  · rw [h]
    exact hlow
  · rw [h]
    unfold unitFrom byteIn
    rw [if_pos hp, if_pos hp, if_pos hp, if_pos (by omega), if_neg (by omega),
      UInt8.toNat_ofNat', UInt8.toNat_ofNat']
    omega

/-- The bit of a large file is no part of the type. -/
theorem has_large (mode : Nat) : has (mode ||| 0o200000) 0o60 = has mode 0o60 := by
  unfold has
  rw [Nat.and_or_distrib_right, show 0o200000 &&& 0o60 = 0 from rfl, Nat.or_zero]

/-- A copy that has grown is still a regular file's. -/
theorem Stands.regular_joined {s u : Mnt} {n k : Nat} {m : Contents} {ip jp : Inode} (h : Stands s n m)
    (hip : ip.mode = (recAt s.fs s.img n).mode)
    (hj : Joined s ip k u jp) : jp.mode < 2 ^ 18 ∧ has jp.mode 0o60 = false := by
  have hmode : (recAt s.fs s.img n).mode < 2 ^ 18 := by
    unfold recAt
    rw [if_pos h.words]
    exact wordsOf_lt ..
  have hmask : s.fs.desc.ilargMask = 0o200000 := by
    obtain ⟨bo, wc, hd⟩ := h.mounted.format
    rw [hd]
    rfl
  rcases hj.mode with hm | ⟨-, hm⟩
  · rw [hm, hip]
    exact ⟨hmode, h.regular⟩
  · rw [hm, hip, hmask, has_large]
    exact ⟨Nat.or_lt_two_pow hmode (by decide), h.regular⟩

/-- A character is kept whole. -/
theorem storedByte_char {d : Desc} (hp : d.ops = .pdp7) {c : UInt8} (h : c < 128) : storedByte d c = c := by
  have hlt : c.toNat < 128 := UInt8.lt_iff_toNat_lt.mp h
  unfold storedByte
  rw [if_pos hp, Nat.mod_eq_of_lt hlt]
  exact UInt8.ofNat_toNat

theorem Stands.ino {s : Mnt} {n : Nat} {m : Contents} (h : Stands s n m) : (recAt s.fs s.img n).ino = n := by
  unfold recAt
  rw [if_pos h.words]
  rfl

theorem reaching_size {m : Contents} {jp : Inode} {data : List UInt8} {off : Nat}
    (hsize : jp.size = m.len) (hempty : data = [] → off ≤ m.len)
    (hend : off + data.length < 2 ^ 32) : (reaching jp (off + data.length)).size = (m.write data off).len := by
  show _ = max m.len (endOf data off)
  unfold reaching endOf
  by_cases hne : data = []
  · subst hne
    have := hempty rfl
    rw [if_pos rfl, if_neg (by simp; omega), hsize]
    omega
  · rw [if_neg hne]
    split
    · show (off + data.length) % 2 ^ 32 = _
      rw [Nat.mod_eq_of_lt hend]
      omega
    · omega

theorem Stands.post_write {s : Mnt} {n : Nat} {m : Contents} (h : Stands s n m) (ht : Told m)
    {data : List UInt8} {off : Nat} (hchars : ∀ c ∈ data, c < 128)
    (hempty : data = [] → off ≤ m.len) :
    Post (filsysWriteIno n (fun i => data.getD i 0) data.length off s)
    (fun _ t => Stands t n (m.write data off)) fun _ _ => True := by
  refine post_bindFs (post_bind (h.post_readInode.mono ?_ fun _ _ hf => hf.elim))
  intro ip _ hrun
  obtain ⟨rfl, k, rfl⟩ := hrun
  have hr := h.read k
  have hp := h.words
  rw [h.readSize_iff.mpr ht]
  refine post_ite (fun _ => trivial) fun _ => post_ite (fun _ => trivial) fun hmax => ?_
  have hmax : off + data.length ≤ maxFile s.fs.desc := Nat.not_lt.mp hmax
  have hlim : maxFile s.fs.desc = 57344 := by
    unfold maxFile
    rw [if_pos hp]
  generalize hcopy : ({ recAt s.fs s.img n with size := m.len } : Inode) = ip
  have htwin : Twin s.fs.desc (recAt s.fs s.img n) ip := by
    rw [← hcopy]
    exact ⟨rfl, fun _ _ => rfl⟩
  have hino : ip.ino = n := by
    rw [← hcopy]
    exact h.ino
  have hst : Stocked { s with ios := k } ip := ((htwin.stocked h.stocked).read k).stocked
  refine post_bind (post_bind
    (post_inside ((post_filsysFileWrite_writes (l := ⟨ip, []⟩) hr.sited (by rw [hino]; exact h.numbered)
    hst (fun i => data.getD i 0) data.length off (fun o => data.getD (o - off) 0)
    (fun _ _ _ => rfl) hmax).mono ?_ ?_)))
  · intro v r hrun
    obtain ⟨t, l⟩ := r
    obtain ⟨-, -, u, jp, hink, hip, hrec⟩ := hrun
    show Stands t n (m.write data off)
    have hip : l.ip = reaching jp (off + data.length) := hip
    have hrec : Recorded u ip.ino l.ip t := hrec
    have hink : Inked { s with ios := k } ip (5 * data.length) off (off + data.length)
      (fun o => data.getD (o - off) 0) u jp := hink
    rw [hino] at hrec
    have hd : u.fs.desc = s.fs.desc := shape_desc hink.shape
    have hkin : jp = { ip with addr := jp.addr, mode := jp.mode } := hink.kin
    have hsize : jp.size = m.len := by
      rw [hkin, ← hcopy]
    obtain ⟨hmode, hreg⟩ := hr.regular_joined htwin.mode hink.toJoined
    have hreach : Twin u.fs.desc jp l.ip := by
      rw [hip]
      exact twin_reaching ..
    have hform := hink.stocked.stock.form
    have hshort := h.short
    have hlen : l.ip.size = (m.write data off).len := by
      rw [hip]
      exact reaching_size hsize hempty (by omega)
    have hlen' : (m.write data off).len = max m.len (endOf data off) := rfl
    have hend : endOf data off ≤ off + data.length := by
      unfold endOf
      split <;> omega
    refine held_of_recorded hrec (hr.sited.of_stock hink.toSameVol hink.stocked.stock)
      (by rw [hd]; exact hp) ((numbered_of_sameVol hink.toSameVol).mpr h.numbered)
      (hreach.stocked hink.stocked) ?_ ?_ hlen (by omega) ?_ ?_
    · rw [hreach.mode]
      unfold modeEnd
      rw [if_pos (by rw [hd]; exact hp)]
      exact hmode
    · rw [hreach.mode]
      exact hreg
    · intro j i hj hi
      rw [hreach.unitAt hform hj]
      refine low_of_plain hp (w := unitAt s ip j) ?_ (hink.plain hj ?_)
      · rw [htwin.unitAt h.stocked.stock.form hj]
        exact h.low j i hj hi
      · unfold unitsIn
        rwa [if_pos hp]
    · intro o ho
      have hos : Mappable s.fs o := by
        unfold Mappable at ho ⊢
        rwa [hd] at ho
      rw [hreach.byteAt hform ho, hink.byte o hos]
      show (if off ≤ o ∧ o < off + data.length then storedByte s.fs.desc (data.getD (o - off) 0)
        else byteAt s ip o) =
        if off ≤ o ∧ o < off + data.length then data.getD (o - off) 0 else m.byte o
      split
      · rename_i hin
        refine storedByte_char hp (hchars _ ?_)
        have hlt : o - off < data.length := by omega
        rw [List.getD_eq_getElem?_getD, List.getElem?_eq_getElem hlt]
        exact List.getElem_mem hlt
      · rw [htwin.byteAt h.stocked.stock.form hos]
        exact h.byte o hos
  · intro e t _
    exact post_bind ((post_true _).mono (fun _ _ _ => trivial) fun _ _ _ => trivial)

/-- What a shrinking truncate leaves holds the bytes up to the new end. -/
theorem Stands.cropped {s u : Mnt} {n : Nat} {m : Contents} (h : Stands s n m) {ip : Inode}
    (htwin : Twin s.fs.desc (recAt s.fs s.img n) ip)
    (hsize : ip.size = m.len) {size : Nat} (hu : Cropped s ip n size u) (hlim : size ≤ 57344) :
    Stands u n (m.truncate size) := by
  have hd : u.fs.desc = s.fs.desc := shape_desc hu.shape
  have hp := h.words
  have hb := bsize_words h.mounted
  have hform := h.stocked.stock.form
  refine ⟨h.sited.of_stock hu.toSameVol hu.stocked.stock, by rw [hd]; exact hp,
    (numbered_of_sameVol hu.toSameVol).mpr h.numbered, hu.stocked,
    by rw [hu.mode, htwin.mode]; exact h.regular, ?_, fun j i hj hi => ?_, fun o ho => ?_⟩
  · rw [hu.length]
    unfold keptSize word18
    rw [if_pos hp]
    show (size + 1) / 2 % 2 ^ 18 * 2 = (size + 1) / 2 * 2
    omega
  · refine low_of_plain hp (w := unitAt s ip j) ?_ (hu.plain j hj i ?_)
    · rw [htwin.unitAt hform hj]
      exact h.low j i hj hi
    · unfold unitsIn
      rwa [if_pos hp]
  · have hos : Mappable s.fs o := by
      unfold Mappable at ho ⊢
      rwa [hd] at ho
    rw [hu.byte o hos]
    show (if o / s.fs.desc.bsize < keepBlks s.fs.desc size ∧
      ¬ (size ≤ o ∧ o < tailOf s.fs.desc ip.size size) then byteAt s ip o else 0) =
      if o < size then m.byte o else 0
    rw [htwin.byteAt hform hos, h.byte o hos, hsize]
    unfold keepBlks tailOf
    rw [hb]
    by_cases hin : o < size
    · rw [if_pos hin, if_pos]
      rw [if_neg (by omega)]
      omega
    · rw [if_neg hin]
      refine ite_eq_right_iff.mpr fun hc => m.past o ?_
      obtain ⟨h1, h2⟩ := hc
      split at h1
      · omega
      · rw [if_neg (by assumption)] at h2
        omega

theorem Stands.post_truncate {s : Mnt} {n : Nat} {m : Contents} (h : Stands s n m) (ht : Told m) (size : Nat) :
    Post (filsysTruncateIno n size s) (fun _ t => Stands t n (m.truncate size)) fun _ _ => True := by
  refine post_bind (h.post_readInode.mono ?_ fun _ _ hf => hf.elim)
  intro ip _ hres
  obtain ⟨rfl, k, rfl⟩ := hres
  have hr := h.read k
  have hp := h.words
  rw [h.readSize_iff.mpr ht]
  have hlim : maxFile s.fs.desc = 57344 := by
    unfold maxFile
    rw [if_pos hp]
  have hino := h.ino
  have hmode : (recAt s.fs s.img n).mode < modeEnd s.fs.desc := by
    unfold recAt modeEnd
    rw [if_pos hp, if_pos hp]
    exact wordsOf_lt ..
  have hreg := h.regular
  generalize hcopy : ({ recAt s.fs s.img n with size := m.len } : Inode) = ip
  have htwin : Twin s.fs.desc (recAt s.fs s.img n) ip := by
    rw [← hcopy]
    exact ⟨rfl, fun _ _ => rfl⟩
  have hsize : ip.size = m.len := by rw [← hcopy]
  have hino : ip.ino = n := by
    rw [← hcopy]
    exact hino
  rw [← htwin.mode] at hmode hreg
  have hst : Stocked { s with ios := k } ip := ((htwin.stocked h.stocked).read k).stocked
  have hn : Numbered { s with ios := k } ip.ino := by
    rw [hino]
    exact h.numbered
  have hform := h.stocked.stock.form
  by_cases hbig : maxFile s.fs.desc < size
  · show Post ((if (size : Int) < 0 ∨ (maxFile s.fs.desc : Int) < size then throw .efbig
      else _ : M Unit) { s with ios := k }) _ _
    rw [if_pos (.inr (by omega))]
    trivial
  rcases Nat.lt_trichotomy size m.len with hlt | heq | hgt
  · have hrun := post_truncateInode_shrinks hr.sited hn hst hmode size (by rw [hsize]; exact hlt)
      (Nat.not_lt.mp hbig)
    rw [hino] at hrun
    exact hrun.mono (fun _ u hu => hr.cropped htwin hsize hu (by omega)) fun _ _ hf => hf.elim
  · have hrun : truncateInode n ip size { s with ios := k } = .ok () { s with ios := k } := by
      show (if (size : Int) < 0 ∨ (maxFile s.fs.desc : Int) < size then throw .efbig
        else if size = ip.size then pure () else _ : M Unit) _ = _
      rw [if_neg (by omega), if_pos (by rw [hsize, heq])]
      rfl
    rw [hrun]
    refine ⟨hr.sited, hp, h.numbered, hr.stocked, h.regular, by rw [heq]; exact h.size, h.low, fun o ho => ?_⟩
    show byteAt s (recAt s.fs s.img n) o = if o < size then m.byte o else 0
    rw [h.byte o ho]
    split
    · rfl
    · exact m.past o (by omega)
  · have hrun := post_truncateInode_grows hr.sited hn size (by rw [hsize]; exact hgt) (Nat.not_lt.mp hbig)
    rw [hino] at hrun
    refine hrun.mono (fun _ u hu => ?_) fun _ _ hf => hf.elim
    have hgrown : Twin s.fs.desc ip { ip with ino := n, size := size } := ⟨rfl, fun _ _ => rfl⟩
    refine held_of_recorded hu hr.sited hp h.numbered
      ((hgrown.stocked (htwin.stocked h.stocked)).read k).stocked hmode hreg rfl
      (by show (size + 1) / 2 < 2 ^ 18; omega) (fun j i hj hi => ?_) fun o ho => ?_
    · show unitAt s { ip with ino := n, size := size } j i % 512 < 128
      rw [hgrown.unitAt hform hj, htwin.unitAt hform hj]
      exact h.low j i hj hi
    · show byteAt s { ip with ino := n, size := size } o = if o < size then m.byte o else 0
      rw [hgrown.byteAt hform ho, htwin.byteAt hform ho, h.byte o ho]
      split
      · rfl
      · exact m.past o (by omega)

/-! ## Runs -/

theorem traced_stands {n : Nat} {s : Mnt} {m : Contents} (h : Traced Neat Telling n s m) :
    Stands s n m ∧ Told m := by
  induction h with
  | @start s m hs hp hn hst hreg hlen hbytes hneat =>
    have hrec : (recAt s.fs s.img n).size = wordsOf s.fs s.img (p7Itod n) (p7Itoo n + 10) * 2 := by
      unfold recAt
      rw [if_pos hp]
      rfl
    have hheld : Stands s n m := by
      refine ⟨hs, hp, hn, hst, hreg, ?_, hneat.low, ?_⟩
      · rw [← hlen]
        unfold readSize
        split <;> omega
      · intro o ho
        by_cases hin : o < m.len
        · exact hbytes o hin
        · rw [m.past o (Nat.not_lt.mp hin)]
          exact hneat.past o ho (by omega)
    exact ⟨hheld, hheld.readSize_iff.mp hlen⟩
  | @next s t m c _ hchars hok hrun ih =>
    obtain ⟨hheld, htold⟩ := ih
    refine ⟨?_, hok.1⟩
    cases c with
    | write data off =>
      have hpost : Post ((Change.write data off).run n s) (fun _ t => Stands t n (m.write data off))
        fun _ _ => True :=
        post_bind ((hheld.post_write htold hchars fun he => hok.2 off (by rw [he])).mono
          (fun _ _ h => h) fun _ _ h => h)
      exact hpost.of_ok hrun
    | truncate size => exact (hheld.post_truncate htold size).of_ok hrun

/-- Whatever has been written to a PDP-7 file and cut from it, its size is its length, if after every
    change its last word tells it. -/
theorem pdp7_size_is_the_length {n : Nat} {s : Mnt} {m : Contents} (h : Traced Neat Telling n s m) :
    Post (readInode n s) (fun r _ => r.size = m.len) fun _ _ => False := by
  obtain ⟨hheld, htold⟩ := traced_stands h
  refine hheld.post_readInode.mono ?_ fun _ _ hf => hf
  intro _ _ hr
  obtain ⟨rfl, -⟩ := hr
  exact hheld.readSize_iff.mpr htold

/-- Two NULs, a B and a C, cut to three. -/
theorem four_characters_cut_to_three : ∃ t, (Change.truncate 3).run 5 (bareImage (twoWords 33859)) = .ok () t ∧
    Post (readInode 5 t) (fun r _ => r.size = 3) fun _ _ => False := by
  obtain ⟨ip, hip, haddr, hmode, hsize, hlow, t, hrun⟩ :
    ∃ ip, recAt (bareImage (twoWords 33859)).fs (twoWords 33859) 5 = ip ∧
      (∀ i, i < 7 → ip.addr i = if i = 0 then 801 else 0) ∧ ip.mode = 131072 ∧
      readSize (bareImage (twoWords 33859)) ip = 4 ∧
      (∀ i, i < 64 → unitAt (bareImage (twoWords 33859)) ip 0 i = if i = 1 then 33859 else 0) ∧
      ∃ t, (Change.truncate 3).run 5 (bareImage (twoWords 33859)) = .ok () t :=
    ⟨_, rfl, by decide +kernel, by decide +kernel, by decide +kernel, by decide +kernel, _,
      eq_done (by decide +kernel)⟩
  have hn : Numbered (bareImage (twoWords 33859)) 5 := by
    refine (if_pos (show (bareImage (twoWords 33859)).fs.desc.ops = .pdp7 from rfl)).mpr ?_
    exact ⟨by decide, by decide, (by decide : 0 + 3 * 256 + 256 ≤ 2048000)⟩
  have hst := stocked_bareImage (twoWords 33859) (.inl hmode) haddr (by decide) (by decide)
  -- the file has one block
  have hunit : ∀ k i, i < 64 → unitAt (bareImage (twoWords 33859)) ip k i = if k = 0 ∧
    i = 1 then 33859 else 0 := by
    intro k i hi
    by_cases hk : k = 0
    · rw [hk, hlow i hi]
      simp
    · rw [if_neg fun hc => hk hc.1]
      apply if_pos
      rw [mapAt_small hst.able ⟨by decide, by rw [hmode]; decide⟩]
      show (if k < 7 then ip.addr k else 0) = 0
      split
      · rename_i h7
        rw [haddr k h7, if_neg hk]
      · rfl
  have hpast : ∀ o, 4 ≤ o → byteAt (bareImage (twoWords 33859)) ip o = 0 := by
    intro o ho
    show byteIn descPdp7 (unitAt (bareImage (twoWords 33859)) ip (o / 128)) (o % 128) = 0
    unfold byteIn
    rw [if_pos (show descPdp7.ops = .pdp7 from rfl), hunit _ _ (by omega),
      if_neg (show ¬ (o / 128 = 0 ∧ o % 128 / 2 = 1) by omega)]
    split <;> rfl
  have hneat : Neat (bareImage (twoWords 33859)) ip := by
    refine ⟨fun k i _ hi => ?_, fun o _ ho => hpast o (by omega)⟩
    rw [hunit k i hi]
    split <;> decide
  have hregular : has ip.mode 0o60 = false := by
    rw [hmode]
    rfl
  rw [← hip] at hst hregular hsize hneat
  have hstart : Traced Neat Telling 5 (bareImage (twoWords 33859))
    ⟨4, fun o => byteAt (bareImage (twoWords 33859)) ip o, hpast⟩ :=
    .start (sited_bareImage _) rfl hn hst hregular hsize
    (fun o _ => congrArg (fun jp => byteAt (bareImage (twoWords 33859)) jp o) hip) hneat
  have hodd : 3 % 2 = 1 := by decide
  have hstep := Traced.next (.truncate 3) hstart trivial ⟨.inr (.inl hodd), fun _ h => nomatch h⟩ hrun
  exact ⟨t, hrun, pdp7_size_is_the_length hstep⟩

/-- The image before it is opened. -/
def fourCharacters : Mnt := { bareImage (twoWords 33859) with fs := { desc := descPdp7 } }

/-- The last of four bytes is overwritten with a NUL, and the file has three. -/
theorem a_final_nul_is_no_byte : ∃ s t, filsysOpenArch pdp7Args fourCharacters = .ok () s ∧
    Post (readInode 5 s) (fun r _ => r.size = 4) (fun _ _ => False) ∧
    filsysWriteIno 5 (fun _ => 0) 1 3 s = .ok 1 t ∧
    Post (readInode 5 t) (fun r _ => r.size = 3) fun _ _ => False := by
  obtain ⟨s, hopen, hread, hsize, hrun, hval, hread', hsize'⟩ :
    ∃ s, filsysOpenArch pdp7Args fourCharacters = .ok () s ∧
      errorOf (readInode 5) s = none ∧ (valueOf (readInode 5) s).size = 4 ∧
      errorOf (filsysWriteIno 5 (fun _ => 0) 1 3) s = none ∧ valueOf (filsysWriteIno 5 (fun _ => 0) 1 3) s = 1 ∧
      errorOf (readInode 5) (final (filsysWriteIno 5 (fun _ => 0) 1 3) s) = none ∧
      (valueOf (readInode 5) (final (filsysWriteIno 5 (fun _ => 0) 1 3) s)).size = 3 :=
    ⟨_, eq_done (by decide +kernel), by decide +kernel, by decide +kernel, by decide +kernel, by decide +kernel,
      by decide +kernel, by decide +kernel⟩
  refine ⟨s, _, hopen, ?_, hval ▸ eq_ok hrun, ?_⟩
  · rw [eq_ok hread]
    exact hsize
  · rw [eq_ok hread']
    exact hsize'

end Filsys.Pdp7
