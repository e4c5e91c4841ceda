/-
  Filsys.Limits.Fields — the fields of an inode's record (v7fs.c, v1fs.c, pdp7fs.c).

  (1) A record of the V7 family keeps every field of an inode whose mode has 16 bits and whose
      addresses have the width of the format, whatever byte order, slot count and address
      width the descriptor has; two inodes' records do not meet, and a write touches the
      record's block and the superblock only (`v7_inode_codec`).

  (2) The check of owner and group is the one a V7 record needs. V1 and V6 have a byte for
      them, and the PDP-7 has words for a size: what is accepted survives under a condition
      for each (`accepted_fields_survive_iff`, with `user_256_becomes_user_0`).
-/

import Filsys.Blockmap.Extent
import Filsys.Blockmap.Record
import Filsys.Check.Recovery
import Filsys.Limits.MaxFile

namespace Filsys.Limits

open Filsys.Lib Filsys.Engine Filsys.Blockmap Filsys.Check Filsys.Tree Filsys.Mount

/-! ## The records of mounted volumes -/

/-- A byte-addressed format has its records laid out; the block size of System V has no part in it. -/
structure Recordable (d : Desc) : Prop where
  layout : d.ops ≠ .pdp7 → RecordLayout d
  dyn : d.dynBsize = true → d.ops = .v7 ∧ d.daddrWid = 4

theorem addrSig_order (d : Desc) (bo : ByteOrder) (ignore pack4 : Bool) (word : Option WordCodec) :
    (addrSig { d with bo := bo, ignoreMagic := ignore, pack4 := pack4, word := word }).length =
    (addrSig d).length := by
  unfold addrSig
  split
  · rw [ByteOrder.length_sig32, ByteOrder.length_sig32]
  · rw [ByteOrder.length_sig24, ByteOrder.length_sig24]

theorem Recordable.orderFree : OrderFree Recordable := by
  intro d h bo ignore pack4 word
  refine ⟨fun hp => ?_, h.dyn⟩
  have hl := h.layout hp
  refine ⟨hl.small, ?_, hl.block, ?_, hl.nindir⟩
  · intro h1 h6
    rw [addrSig_order]
    exact hl.large h1 h6
  · rw [entryLen_free]
    exact hl.entries

theorem Recordable.sizeFree : SizeFree Recordable := by
  intro d t h hdyn ht
  obtain ⟨hops, hwid⟩ := h.dyn hdyn
  have hl := h.layout (by rw [hops]; decide)
  have hb : sysvBsize t = 512 ∨ sysvBsize t = 1024 ∨ sysvBsize t = 2048 := by
    unfold sysvBsize at ht ⊢
    split
    · exact .inl rfl
    · split
      · exact .inr (.inl rfl)
      · split
        · exact .inr (.inr rfl)
        · simp_all
  have hlen : entryLen { d with bsize := sysvBsize t, nindir := sysvBsize t / d.daddrWid } = 4 := by
    show (if d.daddrWid = 2 then ByteOrder.le.sig16 else d.bo.sig32).length = 4
    rw [hwid, if_neg (by decide), ByteOrder.length_sig32]
  obtain ⟨hsize, -⟩ := hl.large (by rw [hops]; decide) (by rw [hops]; decide)
  refine ⟨fun _ => ⟨hl.small, hl.large, ?_, ?_, ?_⟩, fun _ => ⟨hops, hwid⟩⟩
  · show sysvBsize t % d.inodeSize = 0
    rw [hsize]
    rcases hb with hb | hb | hb <;> rw [hb]
  · rw [hlen]
    show 4 * (sysvBsize t / d.daddrWid) ≤ sysvBsize t
    rw [hwid]
    omega
  · show 0 < sysvBsize t / d.daddrWid
    rw [hwid]
    omega

theorem Recordable.inTable : InTable Recordable where
  row ed := by
    refine ⟨fun hp => recordLayout_getformat ed hp, ?_⟩
    cases ed <;> decide
  geom ed bo bs fm hed hbs := by
    have hbs : bs = 8192 ∨ bs = 1024 ∨ bs = 4096 := by
      subst hbs
      split
      · exact .inl rfl
      · split
        · exact .inr (.inl rfl)
        · exact .inr (.inr rfl)
    have hrow : (filsysGetformat ed).ops = .v7 ∧ (filsysGetformat ed).inodeSize = 64 ∧
      (filsysGetformat ed).addrWidth = 3 ∧
        (filsysGetformat ed).niaddr = 13 ∧ (filsysGetformat ed).daddrWid = 4 := by
      rcases hed with rfl | rfl | rfl <;> decide
    obtain ⟨hops, hsize, haddr, hni, hwid⟩ := hrow
    generalize filsysGetformat ed = d at *
    refine ⟨fun _ => ⟨fun h => ?_, fun _ _ => ⟨hsize, ?_⟩, ?_, ?_, ?_⟩, fun _ => ⟨hops, hwid⟩⟩
    · exact absurd hops (by rcases h with h | h <;> rw [show d.ops = _ from h] <;> decide)
    · show (if d.addrWidth = 4 then bo.sig32 else bo.sig24).length * d.niaddr ≤ 40
      rw [haddr, if_neg (by decide), ByteOrder.length_sig24, hni]
      decide
    · show bs % d.inodeSize = 0
      rw [hsize]
      omega
    · show (if d.daddrWid = 2 then ByteOrder.le.sig16 else bo.sig32).length * (bs / 4) ≤ bs
      rw [hwid, if_neg (by decide), ByteOrder.length_sig32]
      omega
    · show 0 < bs / 4
      omega

/-- Every successful open of a byte-addressed volume leaves one of the record layouts. -/
theorem recordLayout_opened {a : OpenArgs} {s₀ s : Mnt} (hs : Solo s₀)
    (hopen : filsysOpenArch a s₀ = .ok () s) (hp : s.fs.desc.ops ≠ .pdp7) :
    RecordLayout s.fs.desc :=
  ((filsysOpenArch_settles Recordable.sizeFree Recordable.orderFree Recordable.inTable hs).of_ok
    hopen).layout hp

/-! ## The codec of the V7 family -/

/-- An inode with the values its type has, a mode of 16 bits and addresses of the format's width. -/
structure Values (d : Desc) (ip : Inode) : Prop where
  mode : ip.mode < 65536
  nlink : toInt16 ip.nlink = ip.nlink
  uid : toInt16 ip.uid = ip.uid
  gid : toInt16 ip.gid = ip.gid
  size : ip.size < 2 ^ 32
  atime : ip.atime < 2 ^ 32
  mtime : ip.mtime < 2 ^ 32
  ctime : ip.ctime < 2 ^ 32
  addr : ∀ i, i < d.niaddr → ip.addr i < 256 ^ addrLen d

/-- Every field a V7 record has. -/
structure Same (d : Desc) (ip r : Inode) : Prop where
  mode : r.mode = ip.mode
  nlink : r.nlink = ip.nlink
  uid : r.uid = ip.uid
  gid : r.gid = ip.gid
  size : r.size = ip.size
  addr : ∀ i, i < d.niaddr → r.addr i = ip.addr i
  atime : r.atime = ip.atime
  mtime : r.mtime = ip.mtime
  ctime : r.ctime = ip.ctime

/-- Where the record of inode `n` is in the image. -/
def recordOff (fs : Fs) (n : Nat) : Nat := fs.base + itod fs n * fs.desc.bsize + itoo fs n

/-- What a write of the record of `n` does beside it. -/
structure Around (s : Mnt) (n : Nat) (t : Mnt) : Prop where
  others : ∀ m, 1 ≤ m → m ≤ opsMaxino s.fs → m ≠ n → Post (readInode m s)
    (fun r _ => Post (readInode m t) (fun r' _ => r' = r) fun _ _ => ∃ k, s.env.fails k = true)
      fun _ _ => ∃ k, s.env.fails k = true
  /-- The superblock's write, if the allocator's state was not on disk, and the record's block. -/
  writes : ∃ new, t.trace = new ++ s.trace ∧ ∀ e ∈ new,
    (s.fs.flDirty = true ∧ e.off = superOff s.fs ∧ e.len = superLen s.fs) ∨
    (e.off = s.fs.base + itod s.fs n * s.fs.desc.bsize ∧ e.len = s.fs.desc.bsize)

/-- What a write of the record of `n` leaves. -/
structure RecordOut (s : Mnt) (n : Nat) (ip : Inode) (t : Mnt) : Prop extends Around s n t where
  here : Post (readInode n t) (fun r _ => Same s.fs.desc ip r) fun _ _ => ∃ k, s.env.fails k = true

section V7

variable {s : Mnt} (hm : Mounted s) (hl : RecordLayout s.fs.desc) (hv : s.fs.desc.ops ≠ .v1)
    (h6 : s.fs.desc.ops ≠ .v6)

include hm

/-- A record that went out is read from where it was put. -/
theorem post_writeInode_reads {n : Nat} (hn : ValidIno s.fs n) {ip : Inode} {Q : Inode → Prop}
    (h : ∀ u, SameVol s u → Q (recordOf (putInode n ip u).fs (putInode n ip u).img n)) :
    Post (writeInode n ip s) (fun _ t => Post (readInode n t) (fun r _ => Q r) fun _ _ =>
      ∃ k, s.env.fails k = true)
      fun _ _ => ∃ k, s.env.fails k = true := by
  refine hm.post_writeInode (fun u hu _ => ?_) (fun _ _ hbad _ => absurd hn hbad) fun _ _ hf _ => hf
  have hvol : SameVol s (putInode n ip u) :=
    sameVol_law.trans hu.toSameVol (sameVol_law.trans (ticked_sameVol u) (putAt_sameVol ..))
  refine (hm.of_sameVol hvol).post_readInode (fun _ => h u hu.toSameVol)
    (fun hbad => absurd ((shape_validIno hvol.shape).mpr hn) hbad) fun hf _ => ?_
  exact ⟨_, by rw [← hvol.env]; exact hf⟩

include hl

/-- The records of two inodes do not meet. -/
theorem records_apart {n m : Nat} (hn : n ≠ 0) (hk : m ≠ 0) (hne : m ≠ n) :
    recordOff s.fs m + s.fs.desc.inodeSize ≤ recordOff s.fs n ∨
    recordOff s.fs n + s.fs.desc.inodeSize ≤ recordOff s.fs m := by
  have hfit := itoo_fits hm hl n
  have hfit' := itoo_fits hm hl m
  unfold recordOff
  by_cases hb : itod s.fs m = itod s.fs n
  · have := itoo_apart hl hn hk hne hb
    rw [hb]
    omega
  · have := block_disjoint s.fs.base s.fs.desc.bsize hb
    omega

include hv

/-- Beside the record nothing changes. -/
theorem post_writeInode_around {n : Nat} (hn : ValidIno s.fs n) (ip : Inode) :
    Post (writeInode n ip s) (fun _ t => Around s n t) fun _ _ => ∃ k, s.env.fails k = true := by
  refine hm.post_writeInode (fun u hu _ => ?_) (fun _ _ hbad _ => absurd hn hbad) fun _ _ hf _ => hf
  have hd := shape_desc hu.shape
  have hvol : SameVol s (putInode n ip u) :=
    sameVol_law.trans hu.toSameVol (sameVol_law.trans (ticked_sameVol u) (putAt_sameVol ..))
  constructor
  · intro m hm1 hmax hne
    have hvm := validIno_of_le hm.first hm.notPdp7 hm1 hmax
    refine hm.post_readInode (fun _ => ?_) (fun hbad => absurd hvm hbad) fun hf _ => ⟨_, hf⟩
    refine (hm.of_sameVol hvol).post_readInode (fun _ => ?_)
      (fun hbad => absurd ((shape_validIno hvol.shape).mpr hvm) hbad) fun hf _ =>
      ⟨_, by rw [← hvol.env]; exact hf⟩
    rw [recordOf_putInode_ne (hm.of_sameVol hu.toSameVol) (hd ▸ hl) ip hn.1 hvm.1 hne, shape_recordOf hu.shape]
    exact recordOf_congr (hu.blocks _ (hm.itod_bounds hvm).1)
  · have hexact := hu.exact hv
    have hrecord : ∃ e : Event, (putInode n ip u).trace = e :: u.trace ∧
      e.off = s.fs.base + itod s.fs n * s.fs.desc.bsize ∧ e.len = s.fs.desc.bsize := by
      refine ⟨_, rfl, ?_, hd ▸ rfl⟩
      rw [← shape_itod hu.shape, ← hd, ← shape_base hu.shape]
      rfl
    obtain ⟨e, htrace, hoff, hlen⟩ := hrecord
    by_cases hdirty : s.fs.flDirty = true
    · rw [if_pos hdirty] at hexact
      refine ⟨[e, ⟨.super, s.fs, superOff s.fs, superLen s.fs, s.img,
        putSuper s.fs s.img (superNow s)⟩], ?_, ?_⟩
      · rw [htrace, hexact]
        rfl
      · intro x hx
        rcases List.mem_cons.mp hx with rfl | hx
        · exact .inr ⟨hoff, hlen⟩
        · obtain rfl := List.mem_singleton.mp hx
          exact .inl ⟨hdirty, rfl, rfl⟩
    · rw [if_neg hdirty] at hexact
      refine ⟨[e], ?_, ?_⟩
      · rw [htrace, hexact]
        rfl
      · intro x hx
        obtain rfl := List.mem_singleton.mp hx
        exact .inr ⟨hoff, hlen⟩

include h6

/-- A record put in its block reads back. -/
theorem same_putInode {n : Nat} {ip : Inode} (h : Values s.fs.desc ip) :
    Same s.fs.desc ip (recordOf (putInode n ip s).fs (putInode n ip s).img n) := by
  have hst := recordOf_putInode hm hl (n := n) ip
  have howners : Owners s.fs.desc ip (recordOf (putInode n ip s).fs (putInode n ip s).img n) ∧
      Times ip (recordOf (putInode n ip s).fs (putInode n ip s).img n) := by
    rw [recordOf_putInode_eq hm hl]
    unfold decodeAt encodeAt decodeInode encodeInode
    rw [if_neg hv, if_neg hv, if_neg h6, if_neg h6]
    exact owners_v7 hl hv h6 hm.notPdp7 n ip _ _
  obtain ⟨⟨huid, hgid⟩, hatime, hmtime, hctime⟩ := howners
  have hsize : sizeLen s.fs.desc = 32 := by
    unfold sizeLen
    rw [if_neg hv, if_neg h6]
  have hsmall : ¬ (s.fs.desc.ops = .v1 ∨ s.fs.desc.ops = .v6) := by
    intro hr
    rcases hr with h | h
    · exact hv h
    · exact h6 h
  refine ⟨?_, ?_, ?_, ?_, ?_, ?_, ?_, ?_, ?_⟩
  · rw [hst.mode, Nat.mod_eq_of_lt h.mode]
  · rw [hst.nlink, storeNlink, if_neg hsmall, h.nlink]
  · rw [huid, storeUid, if_neg hsmall, h.uid]
  · rw [hgid, storeGid, if_neg (by simp [hv, hm.notPdp7]), if_neg h6, h.gid]
  · rw [hst.size, hsize, Nat.mod_eq_of_lt h.size]
  · intro i hi
    rw [hst.addr i hi, Nat.mod_eq_of_lt (h.addr i hi)]
  · rw [hatime, Nat.mod_eq_of_lt h.atime]
  · rw [hmtime, Nat.mod_eq_of_lt h.mtime]
  · rw [hctime, Nat.mod_eq_of_lt h.ctime]

theorem post_writeInode_out {n : Nat} (hn : ValidIno s.fs n) {ip : Inode} (h : Values s.fs.desc ip) :
    Post (writeInode n ip s) (fun _ t => RecordOut s n ip t) fun _ _ => ∃ k, s.env.fails k = true := by
  have hhere := @post_writeInode_reads s hm n hn ip (Same s.fs.desc ip) fun u hu => by
    have hd := shape_desc hu.shape
    have hvu : Values u.fs.desc ip := by rw [hd]; exact h
    have hsame := same_putInode (hm.of_sameVol hu) (hd ▸ hl) (hd ▸ hv) (hd ▸ h6) (n := n) hvu
    rwa [hd] at hsame
  exact (hhere.and (post_writeInode_around hm hl hv hn ip)).mono (fun _ _ h => ⟨h.2, h.1⟩) fun _ _ h => h.1

end V7

/-- On every mounted volume of the V7 and V8 families: an inode's record is inside the i-list and meets
    no other's; one that goes out is read back whole, no other inode changes, and its block and the
    superblock are all that is written. -/
theorem v7_inode_codec {a : OpenArgs} {s₀ s t : Mnt} (hs : Solo s₀)
    (hopen : filsysOpenArch a s₀ = .ok () s) (hvol : SameVol s t) (hm : Mounted t)
    (hv : t.fs.desc.ops ≠ .v1) (h6 : t.fs.desc.ops ≠ .v6) {n : Nat} (h1 : 1 ≤ n)
    (hn : n ≤ opsMaxino t.fs) {ip : Inode} (h : Values t.fs.desc ip) :
    (2 ≤ itod t.fs n ∧ itod t.fs n < opsDataStart t.fs ∧ itoo t.fs n + t.fs.desc.inodeSize ≤ t.fs.desc.bsize) ∧
      (∀ m, 1 ≤ m → m ≤ opsMaxino t.fs → m ≠ n →
        recordOff t.fs m + t.fs.desc.inodeSize ≤ recordOff t.fs n ∨
        recordOff t.fs n + t.fs.desc.inodeSize ≤ recordOff t.fs m) ∧
      Post (writeInode n ip t) (fun _ u => RecordOut t n ip u) fun _ _ => ∃ k, t.env.fails k = true := by
  have hl : RecordLayout t.fs.desc := by
    have hd := shape_desc hvol.shape
    rw [hd]
    exact recordLayout_opened hs hopen (hd ▸ hm.notPdp7)
  have hvalid := validIno_of_le hm.first hm.notPdp7 h1 hn
  obtain ⟨hlo, hhi⟩ := hm.itod_bounds hvalid
  refine ⟨⟨hlo, hhi, itoo_fits hm hl n⟩, fun m hm1 _ hne => records_apart hm hl (by omega) (by omega) hne, ?_⟩
  exact post_writeInode_out hm hl hv h6 hvalid h

/-- A directory of user 300 and group −2 with a block and every time stamp. -/
def ownedBy300 : Inode where
  mode := 0o40755
  nlink := 2
  uid := 300
  gid := -2
  size := 70000
  addr := fun i => if i = 0 then 3 else 0
  atime := 1
  mtime := 2
  ctime := 3

theorem smallVolume_mounts : ∃ s, filsysOpenArch { edition := .v7 } (smallVolume 0) = .ok () s ∧
    Mounted s ∧ s.env = {} ∧ s.fs.desc.ops = .v7 ∧
    2 ≤ opsMaxino s.fs ∧ addrLen s.fs.desc = 3 ∧ s.fs.desc.niaddr = 13 ∧ maxFile s.fs.desc = 1082201088 := by
  have hfree : AsksForList { edition := .v7 } := by
    rintro d hd
    cases hd
    rfl
  obtain ⟨s, hopen, h⟩ : ∃ s, filsysOpenArch { edition := .v7 } (smallVolume 0) = .ok () s ∧
    s.env = {} ∧ s.fs.desc.ops = .v7 ∧
      2 ≤ opsMaxino s.fs ∧ addrLen s.fs.desc = 3 ∧ s.fs.desc.niaddr = 13 ∧ maxFile s.fs.desc = 1082201088 :=
    ⟨_, eq_done (by decide +kernel),
      rfl, by decide +kernel, by decide +kernel, by decide +kernel, by decide +kernel, by decide +kernel⟩
  exact ⟨s, hopen, ((open_leaves_list_mount rfl hfree fun _ _ => rfl).of_ok hopen).1, h⟩

/-- It goes out as inode 2 of a small volume and comes back. -/
theorem a_record_comes_back_whole : ∃ s, filsysOpenArch { edition := .v7 } (smallVolume 0) = .ok () s ∧
    Post (writeInode 2 ownedBy300 s) (fun _ u => Post (readInode 2 u) (fun r _ => r.uid = 300 ∧
      r.gid = -2 ∧ r.addr 0 = 3) fun _ _ => False) fun _ _ => False := by
  obtain ⟨s, hopen, hm, henv, hops, hmax, haddr, hni, -⟩ := smallVolume_mounts
  have hvals : Values s.fs.desc ownedBy300 := by
    refine ⟨by decide, by decide, by decide, by decide, by decide, by decide, by decide, by decide,
      fun i _ => ?_⟩
    rw [haddr]
    show (if i = 0 then 3 else 0) < 256 ^ 3
    split <;> decide
  have hnever : ∀ k, s.env.fails k ≠ true := by
    rw [henv]
    exact fun _ h => nomatch h
  have hcodec := (v7_inode_codec (fun _ _ => rfl) hopen (sameVol_law.refl s) hm (by rw [hops]; decide)
    (by rw [hops]; decide) (by decide : 1 ≤ 2) hmax hvals).2.2
  refine ⟨s, hopen, hcodec.mono (fun _ u hu => ?_) fun _ _ ⟨k, hk⟩ => hnever k hk⟩
  refine hu.here.mono (fun r _ hr => ⟨hr.uid, hr.gid, ?_⟩) fun _ _ ⟨k, hk⟩ => hnever k hk
  rw [hr.addr 0 (by rw [hni]; decide)]
  rfl

/-! ## What the interface accepts -/

/-- An inode whose owner and group pass `uidgidFit`, and whose size is within the limit. -/
structure Accepted (d : Desc) (ip : Inode) : Prop where
  mode : ip.mode < modeEnd d
  uid : 0 ≤ ip.uid ∧ ip.uid ≤ 32767
  gid : 0 ≤ ip.gid ∧ ip.gid ≤ 32767
  size : ip.size ≤ maxFile d

/-- The owner, the size and the addresses, and the group where there is one. -/
structure Survives (d : Desc) (ip r : Inode) : Prop where
  uid : r.uid = ip.uid
  gid : d.ops ≠ .v1 → d.ops ≠ .pdp7 → r.gid = ip.gid
  size : r.size = ip.size
  addr : ∀ i, i < d.niaddr → r.addr i = ip.addr i

/-- Only an odd size leaves the low half of the last word empty. A directory or a device has no odd size. -/
def Parity (s : Mnt) (ip : Inode) : Prop :=
  ip.size = 0 ∨ if has ip.mode 0o60 then ip.size % 2 = 0 else (ip.size % 2 = 1 ↔ lastWord s ip % 512 = 0)

/-- The fields of the record are as wide as the values. -/
structure HasRoom (s : Mnt) (ip : Inode) : Prop where
  uid : s.fs.desc.ops = .v1 ∨ s.fs.desc.ops = .v6 → ip.uid < 256
  gid : s.fs.desc.ops = .v6 → ip.gid < 256
  addr : s.fs.desc.ops ≠ .pdp7 → ∀ i, i < s.fs.desc.niaddr → ip.addr i < 256 ^ addrLen s.fs.desc
  /-- The PDP-7 counts words. -/
  size : s.fs.desc.ops = .pdp7 → Parity s ip

theorem storeUid_iff {d : Desc} {k : Int} (h : 0 ≤ k ∧ k ≤ 32767) :
    storeUid d k = k ↔ (d.ops = .v1 ∨ d.ops = .v6 → k < 256) := by
  unfold storeUid
  by_cases hs : d.ops = .v1 ∨ d.ops = .v6
  · rw [if_pos hs]
    refine ⟨fun _ _ => by omega, fun hk => ?_⟩
    have := hk hs
    omega
  · rw [if_neg hs]
    refine ⟨fun _ hc => absurd hc hs, fun _ => ?_⟩
    unfold toInt16
    omega

theorem storeGid_iff {d : Desc} {k : Int} (h : 0 ≤ k ∧ k ≤ 32767) (hv : d.ops ≠ .v1)
    (hp : d.ops ≠ .pdp7) : storeGid d k = k ↔ (d.ops = .v6 → k < 256) := by
  unfold storeGid
  rw [if_neg (by simp [hv, hp])]
  by_cases h6 : d.ops = .v6
  · rw [if_pos h6]
    refine ⟨fun _ _ => by omega, fun hk => ?_⟩
    have := hk h6
    omega
  · rw [if_neg h6]
    refine ⟨fun _ hc => absurd hc h6, fun _ => ?_⟩
    unfold toInt16
    omega

/-- A size is read back as it was if the last word tells its parity. -/
theorem readSize_iff {s t : Mnt} {ip r : Inode} (hmode : r.mode = ip.mode)
    (hsize : r.size = (ip.size + 1) / 2 * 2) (hlast : lastWord t r = lastWord s ip) :
    readSize t r = ip.size ↔ Parity s ip := by
  unfold readSize Parity
  rw [hmode, hsize, hlast]
  by_cases h0 : ip.size = 0
  · rw [h0]
    simp
  · cases hd : has ip.mode 0o60 with
    | true =>
      rw [if_neg (by simp), if_pos rfl]
      omega
    | false =>
      rw [if_neg (show ¬ false = true by decide)]
      by_cases hl : lastWord s ip % 512 = 0
      · rw [if_pos ⟨rfl, by omega, hl⟩]
        omega
      · rw [if_neg fun h => hl h.2.2]
        omega

/-- A record of bytes has the fields its layout has. -/
theorem post_writeInode_survives {s : Mnt} (hm : Mounted s) (hl : RecordLayout s.fs.desc)
    (hf : Format s.fs.desc) {n : Nat} (hn : ValidIno s.fs n)
    {ip : Inode} (h : Accepted s.fs.desc ip) :
    Post (writeInode n ip s) (fun _ t => Post (readInode n t) (fun r _ => Survives s.fs.desc ip r ↔
      HasRoom s ip) fun _ _ => ∃ k, s.env.fails k = true)
      fun _ _ => ∃ k, s.env.fails k = true := by
  refine post_writeInode_reads hm hn fun u hu => ?_
  have hd := shape_desc hu.shape
  have hmu := hm.of_sameVol hu
  have hlu : RecordLayout u.fs.desc := by rw [hd]; exact hl
  have hst := recordOf_putInode hmu hlu (n := n) ip
  have howners : Owners u.fs.desc ip (recordOf (putInode n ip u).fs (putInode n ip u).img n) := by
    rw [recordOf_putInode_eq hmu hlu]
    exact owners_encodeAt hlu hmu.notPdp7 n ip _ _
  generalize recordOf (putInode n ip u).fs (putInode n ip u).img n = r at *
  rw [hd] at hst howners
  have hsize : r.size = ip.size := by
    rw [hst.size]
    exact Nat.mod_eq_of_lt (size_fits hf hm.notPdp7 h.size)
  have huid := storeUid_iff (d := s.fs.desc) h.uid
  rw [← howners.uid] at huid
  have hpos : 0 < 256 ^ addrLen s.fs.desc := Nat.pow_pos (by decide)
  constructor
  · intro hs
    refine ⟨huid.mp hs.uid, fun h6 => ?_, fun _ i hi => ?_, fun hp => absurd hp hm.notPdp7⟩
    · have hv : s.fs.desc.ops ≠ .v1 := by rw [h6]; decide
      have hgid := hs.gid hv hm.notPdp7
      rw [howners.gid] at hgid
      exact (storeGid_iff h.gid hv hm.notPdp7).mp hgid h6
    · rw [← hs.addr i hi, hst.addr i hi]
      exact Nat.mod_lt _ hpos
  · intro hr
    refine ⟨huid.mpr hr.uid, fun hv hp => ?_, hsize, fun i hi => ?_⟩
    · rw [howners.gid]
      exact (storeGid_iff h.gid hv hp).mpr hr.gid
    · rw [hst.addr i hi]
      exact Nat.mod_eq_of_lt (hr.addr hm.notPdp7 i hi)

/-- A PDP-7 record has every field but the parity of the size. -/
theorem post_writeInode_survives_words {s : Mnt} (hs : Sited s) (hp : s.fs.desc.ops = .pdp7) {n : Nat}
    (hn : Numbered s n) {ip : Inode}
    (hst : Stocked s ip) (h : Accepted s.fs.desc ip) :
    Post (writeInode n ip s) (fun _ t => Post (readInode n t) (fun r _ => Survives s.fs.desc ip r ↔
      HasRoom s ip) fun _ _ => False) fun _ _ => False := by
  refine (post_writeInode_records hs hn ip).mono (fun _ t ht => ?_) fun _ _ hf => hf
  have hd := shape_desc ht.shape
  have htwin := ht.twin hst h.mode
  have hstt := (ht.stocked hst)
  have hstr := htwin.stocked hstt
  refine (post_readInode_words hstr.stock.toReady (by rw [hd]; exact hp)
    ((numbered_of_sameVol ht.toSameVol).mpr hn) hstr.tree).mono ?_
    fun _ _ hf => hf
  rintro r u rfl
  -- the last word is where it was
  have hm := mounted_words hs.volume hp
  have hword : (ip.size + 1) / 2 < 2 ^ 18 := by
    have hmax := h.size
    unfold maxFile at hmax
    rw [if_pos hp] at hmax
    omega
  have hkept : (recAt t.fs t.img n).size = (ip.size + 1) / 2 * 2 := by
    rw [ht.length]
    unfold keptSize
    rw [if_pos hp]
    unfold word18
    rw [Nat.mod_eq_of_lt hword]
  have hlast : lastWord t (recAt t.fs t.img n) = lastWord s ip := by
    unfold lastWord
    rw [hkept, show ((ip.size + 1) / 2 * 2 + 1) / 2 - 1 = (ip.size + 1) / 2 - 1 by omega,
      htwin.unitAt hstt.stock.form (by omega),
      ht.unitAt hst (by omega)]
  have hsize := readSize_iff htwin.mode hkept hlast
  have hsmall : ¬ (s.fs.desc.ops = .v1 ∨ s.fs.desc.ops = .v6) := by simp [hp]
  have huid : (recAt t.fs t.img n).uid = ip.uid := by
    rw [ht.owners.uid]
    exact (storeUid_iff h.uid).mpr fun hc => absurd hc hsmall
  constructor
  · exact fun hsv => ⟨fun hc => absurd hc hsmall, fun hc => absurd (.inr hc) hsmall, fun hc =>
      absurd hp hc, fun _ => hsize.mp hsv.size⟩
  · intro hr
    refine ⟨huid, fun _ hc => absurd hp hc, hsize.mpr (hr.size hp), fun i hi => ?_⟩
    exact htwin.addr i (by rw [hd]; exact hi)

/-- An accepted inode comes back with its owner, size and addresses, and its group where there is one,
    if the record has room for them. None is refused. -/
theorem accepted_fields_survive_iff {a : OpenArgs} {s₀ s t : Mnt} (hs : Solo s₀)
    (hopen : filsysOpenArch a s₀ = .ok () s) (hvol : SameVol s t)
    {n : Nat} (hn : Numbered t n) {ip : Inode} (hb : t.fs.desc.ops ≠ .pdp7 → Mounted t)
    (hw : t.fs.desc.ops = .pdp7 → Sited t ∧ Stocked t ip)
    (h : Accepted t.fs.desc ip) :
    Post (writeInode n ip t) (fun _ u => Post (readInode n u) (fun r _ => Survives t.fs.desc ip r ↔
      HasRoom t ip) fun _ _ => ∃ k, t.env.fails k = true)
      fun _ _ => ∃ k, t.env.fails k = true := by
  have hd := shape_desc hvol.shape
  by_cases hp : t.fs.desc.ops = .pdp7
  · obtain ⟨hsited, hst⟩ := hw hp
    refine (post_writeInode_survives_words hsited hp hn hst h).mono (fun _ u hu => ?_) fun _ _ hf => hf.elim
    exact hu.mono (fun _ _ h => h) fun _ _ hf => hf.elim
  · unfold Numbered at hn
    rw [if_neg hp] at hn
    have hl : RecordLayout t.fs.desc := by
      rw [hd]
      exact recordLayout_opened hs hopen (hd ▸ hp)
    have hf : Format t.fs.desc := by
      rw [hd]
      exact format_opened hs hopen
    exact post_writeInode_survives (hb hp) hl hf hn h

/-- User 300 owns an inode of a V7 volume. -/
theorem user_300_fits_a_record : ∃ s, filsysOpenArch { edition := .v7 } (smallVolume 0) = .ok () s ∧
    Post (writeInode 2 { ownedBy300 with gid := 400 } s)
      (fun _ u => Post (readInode 2 u) (fun r _ => r.uid = 300 ∧ r.gid = 400 ∧ r.size = 70000)
        fun _ _ => False) fun _ _ => False := by
  obtain ⟨s, hopen, hm, henv, hops, hmax, haddr, -, hfile⟩ := smallVolume_mounts
  have hp : s.fs.desc.ops ≠ .pdp7 := hm.notPdp7
  have hn : Numbered s 2 := (if_neg hp).mpr (validIno_of_le hm.first hp (by decide) hmax)
  have haccept : Accepted s.fs.desc { ownedBy300 with gid := 400 } := by
    refine ⟨?_, by decide, by decide, by rw [hfile]; decide⟩
    unfold modeEnd
    rw [if_neg hp]
    decide
  have hroom : HasRoom s { ownedBy300 with gid := 400 } := by
    refine ⟨fun h => ?_, fun h => ?_, fun _ i _ => ?_, fun h => absurd h hp⟩
    · rw [hops] at h
      simp at h
    · rw [hops] at h
      cases h
    · rw [haddr]
      show (if i = 0 then 3 else 0) < 256 ^ 3
      split <;> decide
  have hnever : ∀ k, s.env.fails k ≠ true := by
    rw [henv]
    exact fun _ h => nomatch h
  have hfields := accepted_fields_survive_iff (fun _ _ => rfl) hopen (sameVol_law.refl s) hn
    (fun _ => hm) (fun h => absurd h hp) haccept
  refine ⟨s, hopen, hfields.mono (fun _ u hu => ?_) fun _ _ ⟨k, hk⟩ => hnever k hk⟩
  refine hu.mono (fun r _ hr => ?_) fun _ _ ⟨k, hk⟩ => hnever k hk
  obtain ⟨huid, hgid, hsize, -⟩ := hr.mpr hroom
  exact ⟨huid, hgid (by rw [hops]; decide) hp, hsize⟩

/-- A V6 volume whose root directory belongs to user 0. -/
def v6OneInode : Mnt where
  fs := { desc := filsysGetformat .v6 }
  img := fun o => if o = 512 then 1 else if o = 514 then 4 else if o = 1025 then 0xc0
    else if o = 1026 then 2 else 0
  size := 2048

/-- User 256 is accepted as its owner, and it still belongs to user 0. -/
theorem user_256_becomes_user_0 : ∃ s t, filsysOpenArch { edition := .v6 } v6OneInode = .ok () s ∧
    filsysChownIno 1 (some 256) none s = .ok () t ∧
    Post (readInode 1 t) (fun r _ => r.uid = 0) fun _ _ => False := by
  obtain ⟨s, hopen, hrun, hread, huid⟩ : ∃ s, filsysOpenArch { edition := .v6 } v6OneInode = .ok () s ∧
      errorOf (filsysChownIno 1 (some 256) none) s = none ∧
      errorOf (readInode 1) (final (filsysChownIno 1 (some 256) none) s) = none ∧
      (valueOf (readInode 1) (final (filsysChownIno 1 (some 256) none) s)).uid = 0 :=
    ⟨_, eq_done (by decide +kernel), by decide +kernel, by decide +kernel, by decide +kernel⟩
  refine ⟨s, _, hopen, eq_done hrun, ?_⟩
  rw [eq_ok hread]
  exact huid

end Filsys.Limits
