/-
  Filsys.Engine.Record — inode records on a mounted volume.

  The V1, V6 and V7 records are three codecs over the same idea, so the volume's records
  are spoken of through one pair: `recordOf` reads the record of an inode, and a record
  that has gone out reads back as `Stored` says. `Layout` is what the codecs and the
  indirect blocks need of the format.
-/

import Filsys.Engine.Disk

namespace Filsys.Engine

open Filsys.Lib

/-! ## One codec -/

def decodeAt (d : Desc) (n : Nat) (raw : Buf) (o : Nat) : Inode :=
  if d.ops = .v1 then v1DecodeInode n raw o else decodeInode d n raw o

def encodeAt (d : Desc) (ip : Inode) (raw : Buf) (o : Nat) : Buf :=
  if d.ops = .v1 then v1EncodeInode ip raw o else encodeInode d ip raw o

/-- Where the record of inode `n` lies. -/
def itod (fs : Fs) (n : Nat) : Nat := if fs.desc.ops = .v1 then v1Itod n else v7Itod fs n
def itoo (fs : Fs) (n : Nat) : Nat :=
  if fs.desc.ops = .v1 then v1Itoo n * 32 else v7Itoo fs n * fs.desc.inodeSize

/-- The inode numbers the i-list has a record for. -/
def ValidIno (fs : Fs) (n : Nat) : Prop :=
  n ≠ 0 ∧ if fs.desc.ops = .v1 then n ≤ fs.maxino else v7Itod fs n < ilistEnd fs

instance (fs : Fs) (n : Nat) : Decidable (ValidIno fs n) := inferInstanceAs (Decidable (_ ∧ _))

theorem validIno_of_le {fs : Fs} (hf : 2 ≤ opsDataStart fs) (hp : fs.desc.ops ≠ .pdp7) {n : Nat}
    (h1 : 1 ≤ n) (h : n ≤ opsMaxino fs) : ValidIno fs n := by
  refine ⟨by omega, ?_⟩
  unfold opsMaxino at h
  split
  · rename_i hv
    rwa [hv] at h
  · rename_i hv
    have hle : n ≤ v7Maxinode fs := by
      split at h
      · exact absurd ‹_› hv
      · exact absurd ‹_› hp
      · exact h
    refine v7Itod_lt ?_ h1 hle
    unfold opsDataStart at hf
    split at hf
    · exact absurd ‹_› hv
    · exact absurd ‹_› hp
    · exact hf

/-- The record of inode `n` in an image. -/
def recordOf (fs : Fs) (img : Buf) (n : Nat) : Inode :=
  decodeAt fs.desc n (blockOf fs img (itod fs n)) (itoo fs n)

section Shape

variable {fs fs' : Fs} (h : shape fs' = shape fs)

include h

theorem shape_itod : itod fs' = itod fs := by
  funext n
  unfold itod v7Itod v7Inopb
  rw [shape_desc h]

theorem shape_itoo : itoo fs' = itoo fs := by
  funext n
  unfold itoo v7Itoo v7Inopb
  rw [shape_desc h]

theorem shape_validIno {n : Nat} : ValidIno fs' n ↔ ValidIno fs n := by
  unfold ValidIno ilistEnd v7Itod v7Inopb
  rw [shape_desc h, shape_maxino h, shape_isize h]

theorem shape_recordOf : recordOf fs' = recordOf fs := by
  funext img n
  unfold recordOf
  rw [shape_desc h, shape_blockOf h, shape_itod h, shape_itoo h]

theorem shape_entryOf : entryOf fs' = entryOf fs := by
  funext img b i
  unfold entryOf
  rw [shape_desc h, shape_blockOf h]

theorem shape_maxinode : v7Maxinode fs' = v7Maxinode fs := by
  unfold v7Maxinode v7Inopb
  rw [shape_desc h, shape_isize h]

theorem shape_opsMaxino : opsMaxino fs' = opsMaxino fs := by
  unfold opsMaxino
  rw [shape_desc h, shape_maxino h, shape_maxinode h]

end Shape

/-- Bytes of a block address in an inode, and of an entry of an indirect block. -/
def addrLen (d : Desc) : Nat := if d.ops = .v1 ∨ d.ops = .v6 then 2 else (addrSig d).length
def entryLen (d : Desc) : Nat := (daddrSig d).length

/-- Bits of a stored size. -/
def sizeLen (d : Desc) : Nat := if d.ops = .v1 then 16 else if d.ops = .v6 then 24 else 32

/-- A link count as it reads back. -/
def storeNlink (d : Desc) (k : Int) : Int := if d.ops = .v1 ∨ d.ops = .v6 then k % 256 else toInt16 k

/-- `r` is what `ip` reads back as. -/
structure Stored (d : Desc) (n : Nat) (ip r : Inode) : Prop where
  ino : r.ino = n
  mode : r.mode = ip.mode % 65536
  nlink : r.nlink = storeNlink d ip.nlink
  size : r.size = ip.size % 2 ^ sizeLen d
  addr : ∀ i, i < d.niaddr → r.addr i = ip.addr i % 256 ^ addrLen d
  none : ∀ i, d.niaddr ≤ i → r.addr i = 0

/-- What a format's records and indirect blocks need. -/
structure RecordLayout (d : Desc) : Prop where
  small : d.ops = .v1 ∨ d.ops = .v6 → d.inodeSize = 32 ∧ d.niaddr = 8
  large : d.ops ≠ .v1 → d.ops ≠ .v6 → d.inodeSize = 64 ∧ (addrSig d).length * d.niaddr ≤ 40
  block : d.bsize % d.inodeSize = 0
  entries : entryLen d * d.nindir ≤ d.bsize
  nindir : 0 < d.nindir

theorem perm_addrSig (d : Desc) : (addrSig d).Perm (List.range (addrSig d).length) := by
  unfold addrSig
  split
  · exact ByteOrder.perm_sig32 _
  · exact ByteOrder.perm_sig24 _

section Codec

variable {d : Desc} (hl : RecordLayout d)

include hl

theorem encodeAt_outside (ip : Inode) (raw : Buf) {o i : Nat} (h : i < o ∨ o + d.inodeSize ≤ i) :
    encodeAt d ip raw o i = raw i := by
  unfold encodeAt
  split
  · rename_i hv
    obtain ⟨hsz, -⟩ := hl.small (.inl hv)
    unfold v1EncodeInode
    simp only [boPut16le, boPut32me, ByteOrder.put16, ByteOrder.put32]
    rw [putNum_outside (by simp; omega), putNum_outside (by simp; omega),
      putTable_outside (by simp) _ (by omega),
      putNum_outside (by simp; omega), poke_outside (by simp; omega), putNum_outside (by simp; omega)]
  · rename_i hv
    unfold encodeInode
    split
    · rename_i h6
      obtain ⟨hsz, hni⟩ := hl.small (.inr h6)
      unfold v6EncodeInode
      simp only [ByteOrder.put16, ByteOrder.put32]
      rw [putNum_outside (by simp; omega), putNum_outside (by simp; omega),
        putTable_outside (by simp) _ (by omega),
        putNum_outside (by simp; omega), poke_outside (by simp; omega), putNum_outside (by simp; omega)]
    · rename_i h6
      obtain ⟨hsz, hni⟩ := hl.large hv h6
      unfold v7EncodeInode
      simp only [ByteOrder.put16, ByteOrder.put32]
      rw [putNum_outside (by simp; omega), putNum_outside (by simp; omega), putNum_outside (by simp; omega),
        putTable_outside (Nat.le_refl _) _ (by omega), putNum_outside (by simp; omega),
        putNum_outside (by simp; omega),
        putNum_outside (by simp; omega), putNum_outside (by simp; omega), putNum_outside (by simp; omega)]

/-- A record reads its own bytes only. -/
theorem decodeAt_congr (n : Nat) {raw raw' : Buf} {o : Nat}
    (h : ∀ i, i < d.inodeSize → raw (o + i) = raw' (o + i)) :
    decodeAt d n raw o = decodeAt d n raw' o := by
  have hnum : ∀ {ds : List Nat} {k : Nat}, k + ds.length ≤ d.inodeSize →
    num ds raw (o + k) = num ds raw' (o + k) := by
    intro ds k hk
    refine num_congr _ fun i hi => ?_
    rw [Nat.add_assoc]
    exact h _ (by omega)
  have hnum0 : ∀ {ds : List Nat}, ds.length ≤ d.inodeSize → num ds raw o = num ds raw' o :=
    fun hk => hnum (k := 0) (by omega)
  have htab : ∀ {ds : List Nat} {k w n : Nat}, ds.length ≤ w → k + w * n ≤ d.inodeSize →
      (fun i => if i < n then num ds raw (o + k + w * i) else 0) = fun i => if i < n then num ds raw'
      (o + k + w * i) else 0 := by
    intro ds k w n hw hk
    funext i
    split
    · rename_i hi
      have hle : w * (i + 1) ≤ w * n := Nat.mul_le_mul_left _ hi
      rw [Nat.mul_succ] at hle
      rw [show o + k + w * i = o + (k + w * i) by omega]
      exact hnum (by omega)
    · rfl
  unfold decodeAt
  split
  · rename_i hv
    obtain ⟨hsz, -⟩ := hl.small (.inl hv)
    unfold v1DecodeInode boGet16le boGet32me ByteOrder.get16 ByteOrder.get32
    rw [hnum0 (by simp; omega), h 2 (by omega), h 3 (by omega), hnum (by simp; omega),
      htab (by simp) (by omega),
      hnum (k := 22) (by simp; omega), hnum (k := 26) (by simp; omega)]
  · rename_i hv
    unfold decodeInode
    split
    · rename_i h6
      obtain ⟨hsz, hni⟩ := hl.small (.inr h6)
      unfold v6DecodeInode ByteOrder.get16 ByteOrder.get32
      rw [hnum0 (by simp; omega), h 2 (by omega), h 3 (by omega), h 4 (by omega), h 5 (by omega),
        hnum (k := 6) (by simp; omega),
        htab (by simp) (by omega), hnum (k := 24) (by simp; omega), hnum (k := 28) (by simp; omega)]
    · rename_i h6
      obtain ⟨hsz, hni⟩ := hl.large hv h6
      unfold v7DecodeInode ByteOrder.get16 ByteOrder.get32
      rw [hnum0 (by simp; omega), hnum (k := 2) (by simp; omega), hnum (k := 4) (by simp; omega),
        hnum (k := 6) (by simp; omega),
        hnum (k := 8) (by simp; omega), htab (Nat.le_refl _) (by omega), hnum (k := 52) (by simp; omega),
        hnum (k := 56) (by simp; omega), hnum (k := 60) (by simp; omega)]

omit hl in
/-- A signed count in a byte. -/
theorem toNat_u8 (k : Int) : ((u8 k).toNat : Int) = k % 256 := by
  unfold u8
  rw [UInt8.toNat_ofNat']
  omega

theorem stored_v1 (hv : d.ops = .v1) (n : Nat) (ip : Inode) (raw : Buf) (o : Nat) :
    Stored d n ip (v1DecodeInode n (v1EncodeInode ip raw o) o) := by
  obtain ⟨-, hni⟩ := hl.small (.inl hv)
  have h16 := ByteOrder.length_sig16 .le
  have h32 := ByteOrder.length_sig32 .me
  refine ⟨rfl, ?_, ?_, ?_, ?_, fun i hi => if_neg (by omega)⟩
  · show num ByteOrder.le.sig16 _ _ = _
    unfold v1EncodeInode
    simp only [boPut16le, boPut32me, ByteOrder.put16, ByteOrder.put32]
    simp (disch := omega) only [num_putNum_apart, num_putTable_apart (Nat.le_of_eq h16)]
    rw [num_poke_apart (by simp), num_putNum (ByteOrder.perm_sig16 _), h16]
    rfl
  · show ((v1EncodeInode ip raw o (o + 2)).toNat : Int) = _
    have hbyte : v1EncodeInode ip raw o (o + 2) = u8 ip.nlink := by
      unfold v1EncodeInode
      simp only [boPut16le, boPut32me, ByteOrder.put16, ByteOrder.put32]
      rw [putNum_below (by omega), putNum_below (by omega), putTable_outside (by simp) _ (by omega),
        putNum_below (by omega)]
      exact poke_inside (k := 0) (by simp)
    rw [hbyte, toNat_u8]
    unfold storeNlink
    rw [if_pos (.inl hv)]
  · show num ByteOrder.le.sig16 _ _ = _
    unfold v1EncodeInode
    simp only [boPut16le, boPut32me, ByteOrder.put16, ByteOrder.put32]
    simp (disch := omega) only [num_putNum_apart, num_putTable_apart (Nat.le_of_eq h16)]
    rw [num_putNum (ByteOrder.perm_sig16 _), h16, sizeLen, if_pos hv]
    rfl
  · intro i hi
    show (if i < 8 then num ByteOrder.le.sig16 _ _ else 0) = _
    rw [if_pos (by omega), addrLen, if_pos (.inl hv)]
    unfold v1EncodeInode
    simp only [boPut16le, boPut32me, ByteOrder.put16, ByteOrder.put32]
    simp (disch := omega) only [num_putNum_apart]
    exact (num_putTable (ByteOrder.perm_sig16 _) (by simp) (by omega) _).trans (by rw [h16])

theorem stored_v6 (h6 : d.ops = .v6) (n : Nat) (ip : Inode) (raw : Buf) (o : Nat) :
    Stored d n ip (v6DecodeInode d n (v6EncodeInode d ip raw o) o) := by
  obtain ⟨-, hni⟩ := hl.small (.inr h6)
  have h16 := ByteOrder.length_sig16 d.bo
  have h32 := ByteOrder.length_sig32 d.bo
  have hbyte : ∀ k, k < 4 → v6EncodeInode d ip raw o (o + 2 + k)
      = [u8 ip.nlink, u8 ip.uid, u8 ip.gid, UInt8.ofNat (ip.size / 65536)].getD k 0 := by
    intro k hk
    unfold v6EncodeInode
    simp only [ByteOrder.put16, ByteOrder.put32]
    rw [putNum_below (by omega), putNum_below (by omega), putTable_outside (by simp) _ (by omega),
      putNum_below (by omega)]
    exact (poke_inside (by simpa using hk)).trans (by simp)
  refine ⟨rfl, ?_, ?_, ?_, ?_, fun i hi => if_neg (Nat.not_lt.mpr hi)⟩
  · show num d.bo.sig16 _ _ = _
    unfold v6EncodeInode
    simp only [ByteOrder.put16, ByteOrder.put32]
    simp (disch := omega) only [num_putNum_apart, num_putTable_apart (Nat.le_of_eq h16)]
    rw [num_poke_apart (by simp), num_putNum (ByteOrder.perm_sig16 _), h16]
    rfl
  · show ((v6EncodeInode d ip raw o (o + 2)).toNat : Int) = _
    rw [show o + 2 = o + 2 + 0 from rfl, hbyte 0 (by omega)]
    unfold storeNlink
    rw [if_pos (.inr h6)]
    exact toNat_u8 _
  · show (v6EncodeInode d ip raw o (o + 5)).toNat * 65536 + num d.bo.sig16 _ _ = _
    have hlow : num d.bo.sig16 (v6EncodeInode d ip raw o) (o + 6) = ip.size % 65536 := by
      unfold v6EncodeInode
      simp only [ByteOrder.put16, ByteOrder.put32]
      simp (disch := omega) only [num_putNum_apart, num_putTable_apart (Nat.le_of_eq h16)]
      rw [num_putNum (ByteOrder.perm_sig16 _), h16]
      rfl
    rw [show o + 5 = o + 2 + 3 from rfl, hbyte 3 (by omega), hlow, sizeLen, if_neg (by simp [h6]), if_pos h6]
    show (UInt8.ofNat (ip.size / 65536)).toNat * 65536 + _ = _
    rw [UInt8.toNat_ofNat']
    omega
  · intro i hi
    show (if i < d.niaddr then num d.bo.sig16 _ _ else 0) = _
    rw [if_pos hi, addrLen, if_pos (.inr h6)]
    unfold v6EncodeInode
    simp only [ByteOrder.put16, ByteOrder.put32]
    simp (disch := omega) only [num_putNum_apart]
    exact (num_putTable (ByteOrder.perm_sig16 _) (by simp) hi _).trans (by rw [h16])

theorem stored_v7 (hv : d.ops ≠ .v1) (h6 : d.ops ≠ .v6) (n : Nat) (ip : Inode) (raw : Buf) (o : Nat) :
    Stored d n ip (v7DecodeInode d n (v7EncodeInode d ip raw o) o) := by
  obtain ⟨-, hni⟩ := hl.large hv h6
  have hlen : addrLen d = (addrSig d).length := if_neg (by simp [hv, h6])
  have hsize : sizeLen d = 32 := by unfold sizeLen; rw [if_neg hv, if_neg h6]
  have h16 := ByteOrder.length_sig16 d.bo
  have h32 := ByteOrder.length_sig32 d.bo
  refine ⟨rfl, ?_, ?_, ?_, ?_, fun i hi => if_neg (Nat.not_lt.mpr hi)⟩
  · show num d.bo.sig16 _ _ = _
    unfold v7EncodeInode
    simp only [ByteOrder.put16, ByteOrder.put32]
    simp (disch := omega) only [num_putNum_apart, num_putTable_apart (Nat.le_refl _)]
    rw [num_putNum (ByteOrder.perm_sig16 _), h16]
    rfl
  · show toInt16 (num d.bo.sig16 _ _ : Nat) = _
    unfold v7EncodeInode
    simp only [ByteOrder.put16, ByteOrder.put32]
    simp (disch := omega) only [num_putNum_apart, num_putTable_apart (Nat.le_refl _)]
    rw [num_putNum (ByteOrder.perm_sig16 _), h16]
    unfold storeNlink u16 toInt16
    rw [if_neg (by simp [hv, h6])]
    omega
  · show num d.bo.sig32 _ _ = _
    unfold v7EncodeInode
    simp only [ByteOrder.put16, ByteOrder.put32]
    simp (disch := omega) only [num_putNum_apart, num_putTable_apart (Nat.le_refl _)]
    rw [num_putNum (ByteOrder.perm_sig32 _), h32, hsize]
    rfl
  · intro i hi
    show (if i < d.niaddr then num (addrSig d) _ _ else 0) = _
    have hle : (addrSig d).length * (i + 1) ≤ (addrSig d).length * d.niaddr := Nat.mul_le_mul_left _ hi
    rw [Nat.mul_succ] at hle
    rw [if_pos hi, hlen]
    unfold v7EncodeInode
    simp only [ByteOrder.put16, ByteOrder.put32]
    simp (disch := omega) only [num_putNum_apart]
    exact num_putTable (perm_addrSig d) (Nat.le_refl _) hi _

/-- A record that has gone out reads back. -/
theorem stored_encodeAt (n : Nat) (ip : Inode) (raw : Buf) (o : Nat) :
    Stored d n ip (decodeAt d n (encodeAt d ip raw o) o) := by
  unfold decodeAt encodeAt
  split
  · exact stored_v1 hl ‹_› n ip raw o
  · unfold decodeInode encodeInode
    split
    · exact stored_v6 hl ‹_› n ip raw o
    · exact stored_v7 hl ‹_› ‹_› n ip raw o

end Codec

/-! ## Owners and times -/

/-- An owner as it reads back. -/
def storeUid (d : Desc) (k : Int) : Int := if d.ops = .v1 ∨ d.ops = .v6 then k % 256 else toInt16 k

/-- A group as it reads back; V1 and the PDP-7 have none. -/
def storeGid (d : Desc) (k : Int) : Int :=
  if d.ops = .v1 ∨ d.ops = .pdp7 then 0 else if d.ops = .v6 then k % 256 else toInt16 k

/-- The owner and group `r` has once `ip` has gone out. -/
structure Owners (d : Desc) (ip r : Inode) : Prop where
  uid : r.uid = storeUid d ip.uid
  gid : r.gid = storeGid d ip.gid

/-- The times `r` has. -/
structure Times (ip r : Inode) : Prop where
  atime : r.atime = ip.atime % 2 ^ 32
  mtime : r.mtime = ip.mtime % 2 ^ 32
  ctime : r.ctime = ip.ctime % 2 ^ 32

section Codec

variable {d : Desc}

theorem owners_v1 (hv : d.ops = .v1) (n : Nat) (ip : Inode) (raw : Buf) (o : Nat) :
    Owners d ip (v1DecodeInode n (v1EncodeInode ip raw o) o) := by
  have hbyte : v1EncodeInode ip raw o (o + 3) = u8 ip.uid := by
    unfold v1EncodeInode
    simp only [boPut16le, boPut32me, ByteOrder.put16, ByteOrder.put32]
    rw [putNum_below (by omega), putNum_below (by omega), putTable_outside (by simp) _ (by omega),
      putNum_below (by omega)]
    exact poke_inside (k := 1) (by simp)
  constructor
  · show ((v1EncodeInode ip raw o (o + 3)).toNat : Int) = _
    rw [hbyte, toNat_u8, storeUid, if_pos (.inl hv)]
  · rw [storeGid, if_pos (.inl hv)]
    rfl

theorem owners_v6 (h6 : d.ops = .v6) (n : Nat) (ip : Inode) (raw : Buf) (o : Nat) :
    Owners d ip (v6DecodeInode d n (v6EncodeInode d ip raw o) o) := by
  have hbyte : ∀ k, k < 4 → v6EncodeInode d ip raw o (o + 2 + k)
      = [u8 ip.nlink, u8 ip.uid, u8 ip.gid, UInt8.ofNat (ip.size / 65536)].getD k 0 := by
    intro k hk
    unfold v6EncodeInode
    simp only [ByteOrder.put16, ByteOrder.put32]
    rw [putNum_below (by omega), putNum_below (by omega), putTable_outside (by simp) _ (by omega),
      putNum_below (by omega)]
    exact (poke_inside (by simpa using hk)).trans (by simp)
  constructor
  · show ((v6EncodeInode d ip raw o (o + 3)).toNat : Int) = _
    rw [show o + 3 = o + 2 + 1 from rfl, hbyte 1 (by omega), storeUid, if_pos (.inr h6)]
    exact toNat_u8 _
  · show ((v6EncodeInode d ip raw o (o + 4)).toNat : Int) = _
    rw [show o + 4 = o + 2 + 2 from rfl, hbyte 2 (by omega), storeGid, if_neg (by simp [h6]), if_pos h6]
    exact toNat_u8 _

theorem toInt16_u16 (k : Int) : toInt16 ((u16 k % 65536 : Nat) : Int) = toInt16 k := by
  unfold u16 toInt16
  omega

variable (hl : RecordLayout d)

include hl

/-- A V7 record keeps the owner, the group and the times. -/
theorem owners_v7 (hv : d.ops ≠ .v1) (h6 : d.ops ≠ .v6) (hp : d.ops ≠ .pdp7) (n : Nat)
    (ip : Inode) (raw : Buf) (o : Nat) :
    Owners d ip (v7DecodeInode d n (v7EncodeInode d ip raw o) o) ∧
    Times ip (v7DecodeInode d n (v7EncodeInode d ip raw o) o) := by
  obtain ⟨-, hni⟩ := hl.large hv h6
  have h16 := ByteOrder.length_sig16 d.bo
  have h32 := ByteOrder.length_sig32 d.bo
  refine ⟨⟨?_, ?_⟩, ?_, ?_, ?_⟩
  · show toInt16 (num d.bo.sig16 _ _ : Nat) = _
    unfold v7EncodeInode
    simp only [ByteOrder.put16, ByteOrder.put32]
    simp (disch := omega) only [num_putNum_apart, num_putTable_apart (Nat.le_refl _)]
    rw [num_putNum (ByteOrder.perm_sig16 _), h16, storeUid, if_neg (by simp [hv, h6])]
    exact toInt16_u16 _
  · show toInt16 (num d.bo.sig16 _ _ : Nat) = _
    unfold v7EncodeInode
    simp only [ByteOrder.put16, ByteOrder.put32]
    simp (disch := omega) only [num_putNum_apart, num_putTable_apart (Nat.le_refl _)]
    rw [num_putNum (ByteOrder.perm_sig16 _), h16, storeGid, if_neg (by simp [hv, hp]), if_neg h6]
    exact toInt16_u16 _
  · show num d.bo.sig32 _ _ = _
    unfold v7EncodeInode
    simp only [ByteOrder.put16, ByteOrder.put32]
    simp (disch := omega) only [num_putNum_apart]
    rw [num_putNum (ByteOrder.perm_sig32 _), h32]
    rfl
  · show num d.bo.sig32 _ _ = _
    unfold v7EncodeInode
    simp only [ByteOrder.put16, ByteOrder.put32]
    simp (disch := omega) only [num_putNum_apart]
    rw [num_putNum (ByteOrder.perm_sig32 _), h32]
    rfl
  · show num d.bo.sig32 _ _ = _
    unfold v7EncodeInode
    simp only [ByteOrder.put16, ByteOrder.put32]
    rw [num_putNum (ByteOrder.perm_sig32 _), h32]
    rfl

theorem owners_encodeAt (hp : d.ops ≠ .pdp7) (n : Nat) (ip : Inode) (raw : Buf) (o : Nat) :
    Owners d ip (decodeAt d n (encodeAt d ip raw o) o) := by
  unfold decodeAt encodeAt
  split
  · exact owners_v1 ‹_› n ip raw o
  · unfold decodeInode encodeInode
    split
    · exact owners_v6 ‹_› n ip raw o
    · exact (owners_v7 hl ‹_› ‹_› hp n ip raw o).1

end Codec

/-! ## Block I/O of every byte-addressed edition -/

namespace Mounted

variable {s : Mnt} (hm : Mounted s)

include hm

/-- The V1 routines are the others at 512 bytes. -/
theorem v1fsReadBlock_eq (hv : s.fs.desc.ops = .v1) (b : Nat) : v1fsReadBlock b s = v7fsReadBlock b s := by
  show (if checkRange s.fs (s.fs.base + b * 512) 512 then ioRead 512 (s.fs.base + b * 512)
    else throw .einval : M Buf) s = _
  rw [← hm.v1Bsize hv]
  rfl

theorem v1fsWriteBlock_eq (hv : s.fs.desc.ops = .v1) (site : Site) (b : Nat) (buf : Buf) :
    v1fsWriteBlock site b buf s = v7fsWriteBlock site b buf s := by
  show (if s.fs.readonly then throw .erofs else
    if checkRange s.fs (s.fs.base + b * 512) 512 then ioWrite site buf 512 (s.fs.base + b * 512)
    else throw .einval : M Unit) s = _
  rw [← hm.v1Bsize hv]
  rfl

theorem readBlock_eq (b : Nat) : readBlock b s = v7fsReadBlock b s := by
  by_cases hv : s.fs.desc.ops = .v1
  · rw [← hm.v1fsReadBlock_eq hv]
    unfold readBlock
    rw [bindFs_run]
    rw [hv]
  · exact readBlock_v7 hv hm.notPdp7 b

theorem writeBlock_eq (b : Nat) (buf : Buf) : writeBlock b buf s = v7fsWriteBlock .block b buf s := by
  unfold writeBlock
  rw [bindFs_run]
  cases hops : s.fs.desc.ops with
  | v1 => exact hm.v1fsWriteBlock_eq hops .block b buf
  | pdp7 => exact absurd hops hm.notPdp7
  | v6 => rfl
  | v7 => rfl
  | bsd211 => rfl

theorem blkGet_eq (b : Nat) : blkGet b s = v7fsReadBlock b s := by
  unfold blkGet
  rw [bindFs_run]
  cases hops : s.fs.desc.ops with
  | v1 => exact hm.v1fsReadBlock_eq hops b
  | pdp7 => exact absurd hops hm.notPdp7
  | v6 => rfl
  | v7 => rfl
  | bsd211 => rfl

theorem blkPut_eq (b : Nat) (buf : Buf) : blkPut b buf s = v7fsWriteBlock .block b buf s := by
  unfold blkPut
  rw [bindFs_run]
  cases hops : s.fs.desc.ops with
  | v1 => exact hm.v1fsWriteBlock_eq hops .block b buf
  | pdp7 => exact absurd hops hm.notPdp7
  | v6 => rfl
  | v7 => rfl
  | bsd211 => rfl

theorem itod_bounds {n : Nat} (hn : ValidIno s.fs n) : 2 ≤ itod s.fs n ∧ itod s.fs n < opsDataStart s.fs := by
  obtain ⟨h0, hn⟩ := hn
  unfold itod opsDataStart
  by_cases hv : s.fs.desc.ops = .v1
  · rw [if_pos hv] at hn ⊢
    rw [hv]
    show 2 ≤ (n + 31) / 16 ∧ (n + 31) / 16 < (s.fs.maxino + 31) / 16 + 1
    omega
  · rw [if_neg hv] at hn ⊢
    have hlow : ilistEnd s.fs = v7DataFirst s.fs := by
      unfold ilistEnd v7DataFirst v6DataStart
      split <;> rfl
    rw [hlow] at hn
    refine ⟨Nat.le_add_right 2 _, ?_⟩
    cases hops : s.fs.desc.ops with
    | v1 => exact absurd hops hv
    | pdp7 => exact absurd hops hm.notPdp7
    | v6 => exact hn
    | v7 => exact hn
    | bsd211 => exact hn

theorem itod_lt {n : Nat} (hn : ValidIno s.fs n) : itod s.fs n < s.fs.fsize :=
  Nat.lt_trans (hm.itod_bounds hn).2 hm.start_lt

/-! ## Reading a record -/

theorem post_readInode {n : Nat} {Q : Inode → Mnt → Prop} {E : Errno → Mnt → Prop}
    (hok : ValidIno s.fs n → Q (recordOf s.fs s.img n) (ticked s))
    (hbad : ¬ ValidIno s.fs n → ∀ e, E e s) (herr : s.env.fails s.ios = true → ∀ e, E e (ticked s)) :
    Post (readInode n s) Q E := by
  by_cases hv : s.fs.desc.ops = .v1
  · have heq : readInode n s = v1fsReadInode n s := by
      unfold readInode
      rw [bindFs_run]
      rw [hv]
    rw [heq]
    refine post_bindFs (post_ite (fun h => hbad (fun hn => ?_) _) fun h => ?_)
    · have := hn.2
      rw [if_pos hv] at this
      have := hn.1
      omega
    · have hn : ValidIno s.fs n := ⟨fun h0 => h (.inl h0), by rw [if_pos hv]; omega⟩
      have hit : itod s.fs n = v1Itod n := if_pos hv
      refine post_bind (post_failAs ?_)
      rw [hm.v1fsReadBlock_eq hv, ← hit]
      refine hm.post_read (hm.itod_lt hn) (fun _ => ?_) fun hf _ => herr hf _
      have := hok hn
      unfold recordOf decodeAt itoo at this
      rw [if_pos hv, if_pos hv] at this
      exact this
  · rw [readInode_v7 hv hm.notPdp7]
    refine post_bindFs (post_ite (fun h => hbad (fun hn => hn.1 h) _) fun h0 =>
      post_ite (fun h => hbad (fun hn => ?_) _) fun h => ?_)
    · have := hn.2
      rw [if_neg hv] at this
      omega
    · have hn : ValidIno s.fs n := ⟨h0, by rw [if_neg hv]; omega⟩
      have hit : itod s.fs n = v7Itod s.fs n := if_neg hv
      refine post_bind (post_failAs ?_)
      rw [← hit]
      refine hm.post_read (hm.itod_lt hn) (fun _ => ?_) fun hf _ => herr hf _
      have := hok hn
      unfold recordOf decodeAt itoo at this
      rw [if_neg hv, if_neg hv] at this
      exact this

end Mounted

/-! ## Writing a record -/

/-- The in-core free space of every allocator. -/
def spaceOf (fs : Fs) : Nat × (Nat → Nat) × Buf × Buf := (fs.nfree, fs.free, fs.v8Bits, fs.freemap)

/-- Neither the in-core free space nor a block above the superblock has changed. -/
structure Kept (s t : Mnt) : Prop extends SameVol s t where
  space : spaceOf t.fs = spaceOf s.fs
  blocks : ∀ b, 2 ≤ b → blockOf s.fs t.img b = blockOf s.fs s.img b

theorem kept_law : Law Kept where
  refl s := ⟨sameVol_law.refl s, rfl, fun _ _ => rfl⟩
  trans h h' := by
    refine ⟨sameVol_law.trans h.toSameVol h'.toSameVol, h'.space.trans h.space, fun b hb => ?_⟩
    have := h'.blocks b hb
    rw [shape_blockOf h.shape] at this
    exact this.trans (h.blocks b hb)

theorem kept_ticked (s : Mnt) : Kept s (ticked s) := ⟨ticked_sameVol s, rfl, fun _ _ => rfl⟩

theorem kept_flushed {s : Mnt} (hm : Mounted s) : Kept s (flushed s) :=
  ⟨flushed_sameVol s, rfl, fun _ hb => blockOf_putSuper hm.bsize hb _ _⟩

/-- The allocator's state is on disk. -/
structure Settled (s t : Mnt) : Prop extends Kept s t where
  clean : t.fs.flDirty = false
  exact : s.fs.desc.ops ≠ .v1 → t = if s.fs.flDirty then flushed s else s

/-- A record is what its block says. -/
theorem recordOf_congr {fs : Fs} {img img' : Buf} {n : Nat}
    (h : blockOf fs img' (itod fs n) = blockOf fs img (itod fs n)) :
    recordOf fs img' n = recordOf fs img n := by
  unfold recordOf
  rw [h]

/-- The state a record's write leaves. -/
def putInode (n : Nat) (ip : Inode) (s : Mnt) : Mnt :=
  putAt (.inode ip) (itod s.fs n) (encodeAt s.fs.desc ip (blockOf s.fs s.img (itod s.fs n))
    (itoo s.fs n)) (ticked s)

theorem kept_putAt_low (s : Mnt) (site : Site) {b : Nat} (hb : b < 2) (buf : Buf) :
    Kept s (putAt site b buf s) := by
  refine ⟨putAt_sameVol .., rfl, fun k hk => blockOf_putBlock_ne ?_ _ _⟩
  omega

namespace Mounted

variable {s : Mnt} (hm : Mounted s)

include hm

theorem post_v1SuperWrite (hv : s.fs.desc.ops = .v1) {Q : Unit → Mnt → Prop} {E : Errno → Mnt → Prop}
    (hok : ∀ t, Kept s t → t.fs.flDirty = false → Q () t) (herr : ∀ e t, (∃ k, s.env.fails k = true) →
      Kept s t → E e t) :
    Post (v1SuperWrite s) Q E := by
  have h0 : 0 < s.fs.fsize := Nat.zero_lt_of_lt hm.one_lt
  refine post_bindFs (post_ite (fun h => absurd h (by simp [hm.writable])) fun _ => post_bind (post_failAs ?_))
  rw [hm.v1fsReadBlock_eq hv]
  refine hm.post_read h0 (fun _ => ?_) fun hf _ => herr _ _ ⟨_, hf⟩ (kept_ticked s)
  have hm1 : Mounted (ticked s) := hm.of_sameVol (ticked_sameVol s)
  refine post_bind (post_failAs ?_)
  rw [hm1.v1fsReadBlock_eq hv]
  have hk2 : Kept s (ticked (ticked s)) := kept_law.trans (kept_ticked s) (kept_ticked _)
  refine hm1.post_read hm.one_lt (fun _ => ?_) fun hf _ => herr _ _ ⟨_, hf⟩ hk2
  have hm2 : Mounted (ticked (ticked s)) := hm.of_sameVol hk2.toSameVol
  refine post_bind (post_failAs ?_)
  rw [hm2.v1fsWriteBlock_eq hv]
  refine hm2.post_write h0 (fun _ => ?_) fun hf _ => herr _ _ ⟨_, hf⟩ (kept_law.trans hk2 (kept_ticked _))
  generalize hs3 : putAt .super 0 _ (ticked (ticked s)) = s3
  have hk3 : Kept s s3 := hs3 ▸ kept_law.trans hk2 (kept_putAt_low _ .super Nat.zero_lt_two _)
  have hm3 : Mounted s3 := hm.of_sameVol hk3.toSameVol
  refine post_bind (post_failAs ?_)
  rw [hm3.v1fsWriteBlock_eq (by rw [shape_desc hk3.shape]; exact hv)]
  refine hm3.post_write hm3.one_lt ?_ ?_
  · intro _
    generalize hs4 : putAt .super 1 _ s3 = s4
    have hk4 : Kept s s4 := hs4 ▸ kept_law.trans hk3 (kept_putAt_low _ .super Nat.one_lt_two _)
    exact hok _ (kept_law.trans hk4 ⟨⟨rfl, rfl, rfl⟩, rfl, fun _ _ => rfl⟩) rfl
  · intro hf _
    exact herr _ _ ⟨_, hk3.env ▸ hf⟩ (kept_law.trans hk3 (kept_ticked _))

/-- What comes before a record goes out: the allocator's state, if it has changed. -/
theorem post_flushIfDirty {Q : Unit → Mnt → Prop} {E : Errno → Mnt → Prop}
    (hok : ∀ t, Settled s t → Q () t) (herr : ∀ e t, (∃ k, s.env.fails k = true) → Kept s t → E e t) :
    Post (flushIfDirty (if s.fs.desc.ops = .v1 then v1SuperWrite else v7fsSuperWrite) s) Q E := by
  refine post_bindFs (post_ite ?_ ?_)
  · intro hd
    split
    · rename_i hv
      exact hm.post_v1SuperWrite hv (fun t ht hc => hok t ⟨ht, hc, fun h => absurd hv h⟩) herr
    · refine hm.post_superWrite (fun _ _ => hok _ ⟨kept_flushed hm, rfl, fun _ => by rw [if_pos hd]⟩)
        fun i j e hf => ?_
      refine herr e _ ?_ ⟨⟨rfl, rfl, rfl⟩, rfl, fun _ _ => rfl⟩
      exact hf.elim (fun h => ⟨_, h⟩) fun h => ⟨_, h⟩
  · intro hd
    exact hok s ⟨kept_law.refl s, Bool.eq_false_iff.mpr hd, fun _ => by rw [if_neg hd]⟩

/-- A record goes out after the allocator's state; `K` is what the flush leaves. A number without a
    record is refused, in the V7 family only after the flush. -/
theorem post_writeInode_after {n : Nat} {ip : Inode} {K : Mnt → Prop}
    {Q : Unit → Mnt → Prop} {E : Errno → Mnt → Prop}
    (hvol : ∀ t, K t → SameVol s t)
    (hflush : Post (flushIfDirty (if s.fs.desc.ops = .v1 then v1SuperWrite else v7fsSuperWrite) s)
      (fun _ t => K t) E)
    (hok : ∀ t, K t → ValidIno s.fs n → Q () (putInode n ip t))
    (hbad : ∀ e t, ¬ ValidIno s.fs n → t = s ∨ K t → E e t)
    (herr : ∀ e t, K t → (∃ k, s.env.fails k = true) → E e (ticked t) ∧ E e (ticked (ticked t))) :
    Post (writeInode n ip s) Q E := by
  -- the record's own transfers, once the allocator's state is out
  have hread : ∀ t, K t → ValidIno s.fs n → Post (v7fsReadBlock (itod s.fs n) t)
      (fun raw u => raw = blockOf t.fs t.img (itod s.fs n) ∧ u = ticked t)
        (fun _ u => (∃ k, s.env.fails k = true) ∧ u = ticked t) := by
    intro t ht hn
    have hvt := hvol t ht
    refine (hm.of_sameVol hvt).post_read ?_ (fun _ => ⟨rfl, rfl⟩) fun hf _ => ⟨⟨_, hvt.env ▸ hf⟩, rfl⟩
    rw [shape_fsize hvt.shape]
    exact hm.itod_lt hn
  have hwrite : ∀ t, K t → ValidIno s.fs n →
      Post (v7fsWriteBlock (.inode ip) (itod s.fs n)
        (encodeAt s.fs.desc ip (blockOf t.fs t.img (itod s.fs n)) (itoo s.fs n)) (ticked t))
        Q E := by
    intro t ht hn
    have hvt := hvol t ht
    have hkt := sameVol_law.trans hvt (ticked_sameVol t)
    refine (hm.of_sameVol hkt).post_write ?_ ?_ fun hf e => (herr e t ht ⟨_, hkt.env ▸ hf⟩).2
    · rw [shape_fsize hkt.shape]
      exact hm.itod_lt hn
    · intro _
      have hput := hok t ht hn
      unfold putInode at hput
      rw [shape_itod hvt.shape, shape_itoo hvt.shape, shape_desc hvt.shape] at hput
      exact hput
  by_cases hv : s.fs.desc.ops = .v1
  · have heq : writeInode n ip s = v1fsWriteInode n ip s := by
      unfold writeInode
      rw [bindFs_run]
      rw [hv]
    rw [heq]
    refine post_bindFs (post_ite (fun h => hbad _ s (fun hn => ?_) (.inl rfl)) fun h => ?_)
    · have := hn.2
      rw [if_pos hv] at this
      have := hn.1
      omega
    · have hn : ValidIno s.fs n := ⟨fun h0 => h (.inl h0), by rw [if_pos hv]; omega⟩
      rw [if_pos hv] at hflush
      refine post_bind (hflush.mono (fun _ t ht => ?_) fun _ _ h => h)
      have hv' : t.fs.desc.ops = .v1 := by rw [shape_desc (hvol t ht).shape]; exact hv
      have hr := hread t ht hn
      have hw := hwrite t ht hn
      unfold itod at hr hw
      unfold itoo encodeAt at hw
      simp only [if_pos hv] at hr hw
      refine post_bind (post_failAs ?_)
      rw [(hm.of_sameVol (hvol t ht)).v1fsReadBlock_eq hv']
      refine hr.mono ?_ fun _ u hu => hu.2 ▸ (herr _ t ht hu.1).1
      intro raw u hrun
      obtain ⟨rfl, rfl⟩ := hrun
      rw [(hm.of_sameVol (sameVol_law.trans (hvol t ht) (ticked_sameVol t))).v1fsWriteBlock_eq hv']
      exact hw
  · have heq : writeInode n ip s = v7fsWriteInode n ip s := by
      unfold writeInode
      rw [bindFs_run]
      cases hops : s.fs.desc.ops with
      | v1 => exact absurd hops hv
      | pdp7 => exact absurd hops hm.notPdp7
      | v6 => rfl
      | v7 => rfl
      | bsd211 => rfl
    rw [heq]
    rw [if_neg hv] at hflush
    refine post_bindFs (post_ite (fun h => hbad _ s (fun hn => hn.1 h) (.inl rfl)) fun h0 =>
      post_bind (hflush.mono (fun _ t ht => ?_) fun _ _ h => h))
    refine post_ite (fun h => hbad _ t (fun hn => ?_) (.inr ht)) fun h => ?_
    · have := hn.2
      rw [if_neg hv] at this
      omega
    · have hn : ValidIno s.fs n := ⟨h0, by rw [if_neg hv]; omega⟩
      have hr := hread t ht hn
      have hw := hwrite t ht hn
      unfold itod at hr hw
      unfold itoo encodeAt at hw
      simp only [if_neg hv] at hr hw
      refine post_bind (post_failAs (hr.mono ?_ fun _ u hu => hu.2 ▸ (herr _ t ht hu.1).1))
      intro raw u hrun
      obtain ⟨rfl, rfl⟩ := hrun
      exact hw

/-- The allocator's state goes out, then the record. -/
theorem post_writeInode {n : Nat} {ip : Inode} {Q : Unit → Mnt → Prop} {E : Errno → Mnt → Prop}
    (hok : ∀ t, Settled s t → ValidIno s.fs n → Q () (putInode n ip t))
    (hbad : ∀ e t, ¬ ValidIno s.fs n → t = s ∨ Settled s t → E e t)
    (herr : ∀ e t, (∃ k, s.env.fails k = true) → Kept s t → E e t) : Post (writeInode n ip s) Q E := by
  refine hm.post_writeInode_after (K := Settled s) (fun _ ht => ht.toSameVol)
    (hm.post_flushIfDirty (fun _ ht => ht) herr) hok hbad ?_
  intro e t ht hf
  have h1 := kept_law.trans ht.toKept (kept_ticked t)
  exact ⟨herr e _ hf h1, herr e _ hf (kept_law.trans h1 (kept_ticked _))⟩

end Mounted

/-! ## What a written record changes -/

section PutInode

variable {s : Mnt} (hm : Mounted s) (hl : RecordLayout s.fs.desc)

include hm hl

theorem itoo_fits (n : Nat) : itoo s.fs n + s.fs.desc.inodeSize ≤ s.fs.desc.bsize := by
  unfold itoo
  split
  · rename_i hv
    have := hm.v1Bsize hv
    obtain ⟨hsz, -⟩ := hl.small (.inl hv)
    unfold v1Itoo
    omega
  · have hpos : 0 < v7Inopb s.fs := by
      have hb := hm.bsize
      apply Nat.div_pos
      · by_cases h1 : s.fs.desc.ops = .v1 ∨ s.fs.desc.ops = .v6
        · have := (hl.small h1).1; omega
        · have := (hl.large (fun h => h1 (.inl h)) fun h => h1 (.inr h)).1; omega
      · by_cases h1 : s.fs.desc.ops = .v1 ∨ s.fs.desc.ops = .v6
        · have := (hl.small h1).1; omega
        · have := (hl.large (fun h => h1 (.inl h)) fun h => h1 (.inr h)).1; omega
    have hlt : v7Itoo s.fs n + 1 ≤ v7Inopb s.fs := Nat.mod_lt _ hpos
    calc v7Itoo s.fs n * s.fs.desc.inodeSize + s.fs.desc.inodeSize =
      (v7Itoo s.fs n + 1) * s.fs.desc.inodeSize := by
          rw [Nat.succ_mul]
      _ ≤ v7Inopb s.fs * s.fs.desc.inodeSize := Nat.mul_le_mul_right _ hlt
      _ ≤ s.fs.desc.bsize := Nat.div_mul_le_self _ _

omit hm in
/-- Two inodes in one block have records apart. -/
theorem itoo_apart {n k : Nat} (hn : n ≠ 0) (hk : k ≠ 0) (hne : k ≠ n) (hb : itod s.fs k = itod s.fs n) :
    itoo s.fs k + s.fs.desc.inodeSize ≤ itoo s.fs n ∨ itoo s.fs n + s.fs.desc.inodeSize ≤ itoo s.fs k := by
  unfold itod at hb
  unfold itoo
  split
  · rename_i hv
    simp only [if_pos hv] at hb
    obtain ⟨hsz, -⟩ := hl.small (.inl hv)
    unfold v1Itod at hb
    unfold v1Itoo
    omega
  · rename_i hv
    simp only [if_neg hv] at hb
    have hq : (k - 1) / v7Inopb s.fs = (n - 1) / v7Inopb s.fs := by unfold v7Itod at hb; omega
    have hr : v7Itoo s.fs k ≠ v7Itoo s.fs n := by
      intro heq
      have h1 := Nat.div_add_mod (k - 1) (v7Inopb s.fs)
      have h2 := Nat.div_add_mod (n - 1) (v7Inopb s.fs)
      unfold v7Itoo at heq
      rw [hq, heq] at h1
      omega
    have := block_disjoint 0 s.fs.desc.inodeSize hr
    omega

/-- The record that is read is the one that was put in the block. -/
theorem recordOf_putInode_eq {n : Nat} (ip : Inode) : recordOf (putInode n ip s).fs (putInode n ip s).img n =
    decodeAt s.fs.desc n (encodeAt s.fs.desc ip (blockOf s.fs s.img (itod s.fs n)) (itoo s.fs n))
    (itoo s.fs n) := by
  have hfit := itoo_fits hm hl n
  have hblk : blockOf s.fs (putInode n ip s).img (itod s.fs n) = window _ 0 s.fs.desc.bsize :=
    blockOf_putBlock ..
  show decodeAt s.fs.desc n (blockOf s.fs (putInode n ip s).img (itod s.fs n)) (itoo s.fs n) = _
  rw [hblk]
  refine decodeAt_congr hl n fun i hi => ?_
  rw [window_inside (by omega), Nat.zero_add]

theorem recordOf_putInode {n : Nat} (ip : Inode) :
    Stored s.fs.desc n ip (recordOf (putInode n ip s).fs (putInode n ip s).img n) := by
  rw [recordOf_putInode_eq hm hl]
  exact stored_encodeAt hl n ip _ _

theorem recordOf_putInode_ne {n k : Nat} (ip : Inode) (hn : n ≠ 0) (hk : k ≠ 0) (hne : k ≠ n) :
    recordOf (putInode n ip s).fs (putInode n ip s).img k = recordOf s.fs s.img k := by
  show decodeAt s.fs.desc k (blockOf s.fs (putInode n ip s).img (itod s.fs k)) (itoo s.fs k) = _
  by_cases hb : itod s.fs k = itod s.fs n
  · have hfit := itoo_fits hm hl k
    have hblk : blockOf s.fs (putInode n ip s).img (itod s.fs n) = window _ 0 s.fs.desc.bsize :=
      blockOf_putBlock ..
    rw [recordOf, hb, hblk]
    refine decodeAt_congr hl k fun i hi => ?_
    rw [window_inside (by omega), Nat.zero_add]
    refine encodeAt_outside hl ip _ ?_
    have := itoo_apart hl hn hk hne hb
    omega
  · rw [recordOf, show blockOf s.fs (putInode n ip s).img (itod s.fs k) = blockOf s.fs s.img (itod s.fs k) from
      blockOf_putBlock_ne hb _ _]

end PutInode

end Filsys.Engine
