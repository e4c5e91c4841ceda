/-
  Filsys.Names.Folder — a directory and its entries (dir_fixed.c).

  A directory is a file without holes whose bytes are whole entries (`Folder`). Entering and
  removing a name are writes to that file: when one goes out, the directory on disk has one
  entry more or less and everything else is as it was (`Edited`); when one fails for want of
  space, the directory on disk is the old one (`Spared`), although blocks may have been made
  for a new end that never came.
-/

import Filsys.Blockmap.Form
import Filsys.Names.Fixed
import Mathlib.Data.Nat.Bitwise

namespace Filsys.Names

open Filsys.Lib Filsys.Engine Filsys.Alloc Filsys.Tree

/-! ## The copy from before a write -/

/-- A mode word that promotion changes is a small file's. -/
theorem small_of_promoted {fs : Fs} (hl : MapLayout fs) {mode : Nat}
    (h : mode ||| fs.desc.ilargMask ≠ mode) : Tree.Small fs.desc mode := by
  rcases hl.mask with h0 | h0
  · rw [h0, Nat.or_zero] at h
    exact absurd rfl h
  · refine ⟨by rw [h0]; decide, ?_⟩
    cases hbit : mode.testBit 12 with
    | false =>
      rw [h0]
      unfold has
      rw [show (0o10000 : Nat) = 2 ^ 12 from rfl, Nat.and_two_pow, hbit]
      rfl
    | true =>
      refine absurd (Nat.eq_of_testBit_eq fun i => ?_) h
      rw [h0, Nat.testBit_or, show (0o10000 : Nat) = 2 ^ 12 from rfl, Nat.testBit_two_pow]
      by_cases hi : 12 = i
      · subst hi
        simp [hbit]
      · simp [hi]

section Old

variable {S : Scope} {n : Nat} {buf : Buf} {lo mid hi : Nat} {s t : Mnt} {own own' : Own}
    {ip ip' : Inode} (h : Owned s own)
  (hv : View s.fs.desc own n ip) (hw : Wrote S n buf lo mid hi s own ip t own' ip')

include h hv hw

/-- What was mapped is where the old copy says, too. -/
theorem old_mapOf {x : Nat} (hx : x < 2 ^ 32) (hne : mapOf s.fs s.img ip x ≠ 0) :
    mapOf t.fs t.img ip x = mapOf s.fs s.img ip x := by
  have hd := shape_desc hw.frame.shape
  obtain ⟨slot, idxs, hp, -⟩ := mapOf_held h hv hx hne
  by_cases hm : ip'.mode = ip.mode
  · have hslot : ip.addr slot ≠ 0 := by
      intro h0
      rw [mapOf_eq hp, h0, descend_zero] at hne
      exact hne rfl
    have hnew := hw.maps x hx hne
    have hp' : pathOf t.fs.desc ip.mode x = some (slot, idxs) := by rw [hd]; exact hp
    rw [@mapOf_eq _ _ ip' _ _ _ (by rw [hm]; exact hp'), hw.copy.addr hm slot hslot] at hnew
    rw [mapOf_eq hp']
    exact hnew
  · have hor := hw.copy.mode.resolve_left hm
    have hs := small_of_promoted h.layout (fun heq => hm (hor.trans heq))
    rw [mapOf_small h.layout hs, mapOf_small (h.layout.of_shape hw.frame.shape) (by rw [hd]; exact hs), hd]

theorem old_byteOf {o : Nat} (hm : Mappable s.fs o) (hne : mapOf s.fs s.img ip (o / s.fs.desc.bsize) ≠
    0) (hout : o < lo ∨ mid ≤ o) :
    byteOf t.fs t.img ip o = byteOf s.fs s.img ip o := by
  have hd := shape_desc hw.frame.shape
  have hbytes := hw.bytes o hm
  rw [if_neg (by omega)] at hbytes
  rw [← hbytes]
  unfold byteOf
  rw [hd, old_mapOf h hv hw hm hne, hw.maps _ hm hne]

end Old

/-! ## Edits -/

/-- Nothing is out of reach. -/
def anything : Scope := ⟨fun _ => True, fun _ _ => True⟩

/-- Every block below the end is there. -/
def Solid (fs : Fs) (img : Buf) (ip : Inode) : Prop := ∀ x, x * fs.desc.bsize < ip.size → mapOf fs img ip x ≠ 0

/-- A write to the file of `n` has gone out. -/
structure Edited (S : Scope) (n : Nat) (s : Mnt) (own : Own) (ip : Inode) (t : Mnt) (own' : Own)
    (ip' : Inode) : Prop where
  path : Path S s own t own'
  apart : Apart (· = n) s own t own'
  grows : Grows own own'
  view : View s.fs.desc own' n ip'
  valid : ValidIno s.fs n
  stored : Stored s.fs.desc n ip' (recordOf s.fs t.img n)
  ino : ip'.ino = ip.ino
  nlink : ip'.nlink = ip.nlink
  mode : ip'.mode = ip.mode ∨ ip'.mode = ip.mode ||| s.fs.desc.ilargMask
  solid : Solid s.fs s.img ip → Solid t.fs t.img ip'

/-- A write to the file of `n` has failed; for want of space it has not touched what there was. The
    copy `ip'` has the blocks it has made. -/
structure Spared (S : Scope) (n : Nat) (s : Mnt) (own : Own) (ip : Inode) (t : Mnt) (own' : Own)
    (ip' : Inode) : Prop where
  path : Path S s own t own'
  frame : Frame n (fun _ => True) s own t own'
  view : View s.fs.desc own' n ip'
  mode : ip'.mode = ip.mode ∨ ip'.mode = ip.mode ||| s.fs.desc.ilargMask
  bytes : ¬ Fault s → ∀ o, o < ip.size → byteOf t.fs t.img ip o = byteOf s.fs s.img ip o
  solid : ¬ Fault s → Solid t.fs t.img ip

section Edits

variable {S : Scope} {n : Nat} {buf : Buf} {lo hi : Nat} {s t : Mnt} {own own' : Own}
    {ip ip' : Inode} (h : Owned s own)
  (hsize : ip.size < 2 ^ 32)

include h hsize

theorem lt_of_mul_lt {x : Nat} (hx : x * s.fs.desc.bsize < ip.size) : x < 2 ^ 32 := by
  have hbs : 0 < s.fs.desc.bsize := Nat.lt_of_lt_of_le (by decide) h.mounted.bsize
  exact Nat.lt_of_le_of_lt (Nat.le_mul_of_pos_right x hbs) (Nat.lt_trans hx hsize)

theorem edited_of_filed (hf : Filed S n buf lo hi s own ip t own' ip') (hlo : lo ≤ ip.size)
    (hlt : lo < hi) (hhi : hi < 2 ^ 32) :
    Edited S n s own ip t own' ip' := by
  have hd := shape_desc hf.apart.shape
  obtain ⟨ip₁, hcopy, rfl⟩ := hf.copy
  refine ⟨hf.path, hf.apart, hf.grows, hf.view, hf.valid, hf.stored, ?_, ?_, ?_, ?_⟩
  · rw [resized_ino]
    exact hcopy.ino
  · rw [resized_nlink]
    exact hcopy.nlink
  · rw [resized_mode]
    exact hcopy.mode
  · intro hs x hx
    rw [hd] at hx
    by_cases hold : x * s.fs.desc.bsize < ip.size
    · have hx32 := lt_of_mul_lt h hsize hold
      rw [hf.maps x hx32 (hs x hold)]
      exact hs x hold
    · have hbs : 0 < s.fs.desc.bsize := Nat.lt_of_lt_of_le (by decide) h.mounted.bsize
      have hend : x * s.fs.desc.bsize < hi := by
        unfold resized at hx
        split at hx
        · exact Nat.lt_of_lt_of_le hx (Nat.mod_le _ _)
        · rw [hcopy.size] at hx
          exact absurd hx hold
      refine hf.made x (Nat.lt_of_le_of_lt (Nat.le_mul_of_pos_right x hbs) (Nat.lt_trans hend hhi)) hlt ?_ hend
      exact Nat.div_le_of_le_mul (by rw [Nat.mul_comm]; omega)

theorem spared_of_unfiled (hv : View s.fs.desc own n ip) (hs : Solid s.fs s.img ip)
    (hu : Unfiled S n buf lo hi s own ip t own' ip')
    (hend : Fault s ∨ ip.size ≤ lo) : Spared S n s own ip t own' ip' := by
  obtain ⟨mid, ip₁, -, -, hw, hip⟩ := hu
  have hmode : ip'.mode = ip₁.mode := by
    rcases hip with rfl | ⟨rfl, -⟩
    · rfl
    · exact resized_mode ..
  have haddr : ip'.addr = ip₁.addr := by
    rcases hip with rfl | ⟨rfl, -⟩
    · rfl
    · exact resized_addr ..
  have hd := shape_desc hw.frame.shape
  have hbs : 0 < s.fs.desc.bsize := Nat.lt_of_lt_of_le (by decide) h.mounted.bsize
  refine ⟨hw.path, hw.frame, hw.view.congr hmode haddr, by rw [hmode]; exact hw.copy.mode,
    fun hno o ho => ?_, fun _ x hx => ?_⟩
  · have hle := hend.resolve_left hno
    have hblk : o / s.fs.desc.bsize * s.fs.desc.bsize < ip.size :=
      Nat.lt_of_le_of_lt (Nat.div_mul_le_self ..) ho
    exact old_byteOf h hv hw (lt_of_mul_lt h hsize hblk) (hs _ hblk) (.inl (by omega))
  · rw [hd] at hx
    rw [old_mapOf h hv hw (lt_of_mul_lt h hsize hx) (hs x hx)]
    exact hs x hx

omit h hsize in
theorem size_of_filed (hf : Filed S n buf lo hi s own ip t own' ip') (hhi : hi < 2 ^ 32) :
    ip'.size = max ip.size hi := by
  obtain ⟨ip₁, hcopy, rfl⟩ := hf.copy
  have := hcopy.size
  unfold resized
  split
  · show hi % 2 ^ 32 = _
    rw [Nat.mod_eq_of_lt hhi]
    omega
  · omega

omit h hsize in
/-- A write to blocks that are there fails with a transfer. -/
theorem fault_of_solid (hs : Solid s.fs s.img ip) (hhi : hi ≤ ip.size)
    (hf : Fault s ∨ Holed s ip lo hi) : Fault s := by
  rcases hf with hf | ⟨x, -, hx, h0⟩
  · exact hf
  · exact absurd h0 (hs x (by omega))

end Edits

section Looked

variable {S : Scope} {n : Nat} {s t u : Mnt} {own own' : Own} {ip ip' : Inode} (ht : Looked s t)

include ht

theorem edited_of_looked (he : Edited S n t own ip u own' ip') : Edited S n s own ip u own' ip' := by
  have hidle := ht.idle
  obtain ⟨k, hk, rfl⟩ := ht
  exact ⟨(Path.one (.idle hidle)).trans he.path, (Apart.of_looked ⟨k, hk, rfl⟩ _ own).trans he.apart,
    he.grows, he.view, he.valid, he.stored, he.ino,
    he.nlink, he.mode, he.solid⟩

theorem spared_of_looked (he : Spared S n t own ip u own' ip') : Spared S n s own ip u own' ip' := by
  have hidle := ht.idle
  have hfault : ¬ Fault s → ¬ Fault t := fun hno hf => hno (ht.fault hf)
  obtain ⟨k, -, rfl⟩ := ht
  refine ⟨(Path.one (.idle hidle)).trans he.path, (Frame.of_idle hidle _ _).trans he.frame,
    he.view, he.mode, ?_, ?_⟩
  · intro hno
    exact he.bytes (hfault hno)
  · intro hno
    exact he.solid (hfault hno)

theorem spared_refl (hs : Solid s.fs s.img ip) (hv : View s.fs.desc own n ip) :
    Spared S n s own ip t own ip := by
  have hidle := ht.idle
  obtain ⟨k, -, rfl⟩ := ht
  exact ⟨.one (.idle hidle), .of_idle hidle _ _, hv, .inl rfl, fun _ _ _ => rfl, fun _ => hs⟩

end Looked

/-! ## Open files -/

/-- `ip` describes a file of inode `n` on a consistent volume. -/
structure OpenFile (s : Mnt) (own : Own) (n : Nat) (ip : Inode) : Prop where
  owned : Owned s own
  view : View s.fs.desc own n ip
  ino : ip.ino = n
  size : ip.size < 2 ^ 32

/-- The file after a write of `buf` from `lo` on that has come to `mid`. -/
structure Put (buf : Buf) (lo mid : Nat) (s : Mnt) (n : Nat) (ip : Inode) (t : Mnt) (own' : Own)
    (ip' : Inode) : Prop where
  file : OpenFile t own' n ip'
  vol : SameVol s t
  bytes : ∀ o, Mappable s.fs o → byteOf t.fs t.img ip' o = if lo ≤ o ∧ o < mid then buf (o - lo)
    else byteOf s.fs s.img ip o

theorem OpenFile.mappable {s : Mnt} {own : Own} {n : Nat} {ip : Inode} (h : OpenFile s own n ip)
    {o : Nat} (ho : o ≤ ip.size) : Mappable s.fs o :=
  Nat.lt_of_le_of_lt (Nat.div_le_self ..) (Nat.lt_of_le_of_lt ho h.size)

theorem OpenFile.of_looked {s t : Mnt} {own : Own} {n : Nat} {ip : Inode} (h : OpenFile s own n ip)
    (ht : Looked s t) : OpenFile t own n ip := by
  have hot := ht.owned h.owned
  obtain ⟨k, -, rfl⟩ := ht
  exact ⟨hot, h.view, h.ino, h.size⟩

theorem Put.of_looked {buf : Buf} {lo mid n : Nat} {s t u : Mnt} {own' : Own} {ip ip' : Inode}
    (ht : Looked s t) (h : Put buf lo mid t n ip u own' ip') :
    Put buf lo mid s n ip u own' ip' := by
  obtain ⟨k, -, rfl⟩ := ht
  exact ⟨h.file, ⟨h.vol.shape, h.vol.size, h.vol.env⟩, h.bytes⟩

/-- Without a failed transfer, a write to an open file breaks off at a block it cannot have, and the
    size is as it was. -/
theorem post_openWrite {s : Mnt} {own : Own} {n : Nat} {l : Loc} (h : OpenFile s own n l.ip) (buf : Buf)
    {size off : Nat} (hend : Mappable s.fs (off + size)) :
    Post (filsysFileWrite buf size (off : Nat) (s, l))
      (fun _ t => ∃ own', Put buf off (off + size) s n l.ip t.1 own' t.2.ip ∧
        t.2.ip.size = (if l.ip.size < off + size then (off + size) % 2 ^ 32 else l.ip.size) ∧ ValidIno s.fs n ∧
        Stored s.fs.desc n t.2.ip (recordOf s.fs t.1.img n))
      (fun _ t => ValidIno s.fs n → ¬ Fault s → Holed s l.ip off (off + size) ∧
        ∃ own' mid, mid ≤ off + size ∧ Put buf off mid s n l.ip t.1 own' t.2.ip ∧ t.2.ip.size = l.ip.size) := by
  refine (post_fileWriteParts (S := anything) trivial buf _ _ h.owned h.view h.ino hend fun x _ _ =>
    .inr fun _ _ _ _ _ _ _ => trivial).mono ?_ ?_
  · intro _ t ht
    obtain ⟨-, -, own', hfiled⟩ := ht
    obtain ⟨ip₁, hcopy, hip⟩ := hfiled.copy
    have hsize : t.2.ip.size = if l.ip.size < off + size then (off + size) % 2 ^ 32 else l.ip.size := by
      rw [hip]
      unfold resized
      rw [hcopy.size]
      by_cases hgrow : l.ip.size < off + size
      · rw [if_pos hgrow, if_pos hgrow]
      · rw [if_neg hgrow, if_neg hgrow, hcopy.size]
    have hlt : t.2.ip.size < 2 ^ 32 := by
      rw [hsize]
      split
      · exact Nat.mod_lt _ (by decide)
      · exact h.size
    have hino : t.2.ip.ino = n := by
      rw [hip, resized_ino, hcopy.ino, h.ino]
    have hview : View t.1.fs.desc own' n t.2.ip := by
      rw [shape_desc hfiled.apart.shape]
      exact hfiled.view
    exact ⟨own', ⟨⟨hfiled.path.owned h.owned, hview, hino, hlt⟩, hfiled.apart.toSameVol, hfiled.bytes⟩,
      hsize, hfiled.valid, hfiled.stored⟩
  · intro _ t ht hn hno
    obtain ⟨-, own', mid, ip₁, -, hhi, hw, ⟨rfl, hwhy⟩ | ⟨-, -, hwhy⟩⟩ := ht
    · have hview : View t.1.fs.desc own' n t.2.ip := by
        rw [shape_desc hw.frame.shape]
        exact hw.view
      refine ⟨hwhy.resolve_left hno, own', mid, hhi,
        ⟨⟨hw.path.owned h.owned, hview, hw.copy.ino.trans h.ino, ?_⟩, hw.frame.toSameVol, hw.bytes⟩,
        hw.copy.size⟩
      rw [hw.copy.size]
      exact h.size
    · exact absurd (hwhy hn) hno

/-! ## Directories -/

/-- The edition's directories have fixed entries. -/
structure FixedFormat (d : Desc) : Prop where
  bsd211 : d.ops ≠ .bsd211
  pdp7 : d.ops ≠ .pdp7
  width : FixedDir d

theorem FixedFormat.pos {d : Desc} (h : FixedFormat d) : 0 < d.direntSize := by
  have := h.width
  unfold FixedDir at this
  omega

/-- The entries of the directory a copy describes. -/
def listing (fs : Fs) (img : Buf) (ip : Inode) : List Dirent := fixedList fs.desc (byteOf fs img ip) ip.size

/-- No slot is free. -/
def Full (fs : Fs) (img : Buf) (ip : Inode) : Prop := ip.size / fs.desc.direntSize ≤ (listing fs img ip).length

theorem full_of_used {fs : Fs} {img : Buf} {ip : Inode}
    (h : ∀ i, i < ip.size / fs.desc.direntSize → inUse (slotAt fs.desc (byteOf fs img ip) i) = true) :
    Full fs img ip := by
  have hall : listing fs img ip = slotsFrom fs.desc (byteOf fs img ip) 0 (ip.size / fs.desc.direntSize) := by
    refine List.filter_eq_self.mpr fun e he => ?_
    obtain ⟨i, -, hi, rfl⟩ := mem_slotsFrom.mp he
    exact h i (by omega)
  unfold Full
  rw [hall, slotsFrom_length]

/-- A directory that has lost an entry without shrinking has a free slot. -/
theorem not_full_of_removed {fs fs' : Fs} {img img' : Buf} {ip ip' : Inode} {e : Dirent}
    (hfs : fs'.desc = fs.desc) (hsize : ip'.size = ip.size)
    (h : Removed (listing fs img ip) (listing fs' img' ip') e) : ¬ Full fs' img' ip' := by
  obtain ⟨A, B, h1, h2, -⟩ := h
  have hle : (listing fs img ip).length ≤ ip.size / fs.desc.direntSize := by
    unfold listing fixedList
    exact Nat.le_trans (List.length_filter_le ..) (Nat.le_of_eq (slotsFrom_length ..))
  unfold Full
  rw [h2, hfs, hsize]
  rw [h1] at hle
  simp only [List.length_append, List.length_cons] at hle ⊢
  omega

/-- `ip` describes a directory held for inode `n`, with holes or without. -/
structure Directory (s : Mnt) (own : Own) (n : Nat) (ip : Inode) : Prop where
  view : View s.fs.desc own n ip
  ino : ip.ino = n
  framed : s.fs.desc.direntSize ∣ ip.size
  fits : ip.size ≤ maxFile s.fs.desc

/-- `ip` describes a directory held for inode `n`. -/
structure Folder (s : Mnt) (own : Own) (n : Nat) (ip : Inode) : Prop where
  view : View s.fs.desc own n ip
  ino : ip.ino = n
  framed : s.fs.desc.direntSize ∣ ip.size
  fits : ip.size ≤ maxFile s.fs.desc
  solid : Solid s.fs s.img ip

section Directory

variable {s : Mnt} {own : Own} {n : Nat} {ip : Inode}

theorem Directory.size_lt (hf : Directory s own n ip) : ip.size < 2 ^ 32 :=
  Nat.lt_of_le_of_lt hf.fits (Blockmap.maxFile_lt _)

theorem Directory.mappable (hf : Directory s own n ip) : Mappable s.fs ip.size :=
  Nat.lt_of_le_of_lt (Nat.div_le_self ..) hf.size_lt

theorem Directory.of_looked {t : Mnt} (hf : Directory s own n ip) (ht : Looked s t) : Directory t own n ip := by
  obtain ⟨k, -, rfl⟩ := ht
  exact ⟨hf.view, hf.ino, hf.framed, hf.fits⟩

variable (hf : Folder s own n ip)

include hf

theorem Folder.directory : Directory s own n ip := ⟨hf.view, hf.ino, hf.framed, hf.fits⟩

theorem Folder.size_lt : ip.size < 2 ^ 32 := hf.directory.size_lt

theorem Folder.mappable : Mappable s.fs ip.size := hf.directory.mappable

end Directory

/-- Same bytes, same entries. -/
theorem listing_congr {fs fs' : Fs} {img img' : Buf} {ip ip' : Inode} (hd : FixedDir fs.desc)
    (hfs : fs'.desc = fs.desc) (hsize : ip'.size = ip.size)
    (hbytes : ∀ o, o < ip.size → byteOf fs' img' ip' o = byteOf fs img ip o) :
    listing fs' img' ip' = listing fs img ip := by
  unfold listing fixedList
  rw [hfs, hsize]
  congr 1
  refine slotsFrom_congr hd fun o _ ho => hbytes o ?_
  rw [Nat.zero_add] at ho
  exact Nat.lt_of_lt_of_le ho (Nat.div_mul_le_self ..)

/-- The name's bytes `dir_lookup` and `dir_remove` compare. -/
def stem (d : Desc) (name : Name) : Name := name.take d.maxNamlen

section Routines

variable {s : Mnt} {own : Own} {n : Nat} {l : Loc} (h : Owned s own) (hd : FixedFormat s.fs.desc)
    (hf : Directory s own n l.ip) {name : Name}
  (h0 : 0 ∉ name)

include hd h0

omit h0 in
theorem dirLookup_fixed : dirLookup name (s, l) = v7fsDirLookup name (s, l) := by
  unfold dirLookup
  rw [bindUpFs_run]
  cases hops : s.fs.desc.ops with
  | bsd211 => exact absurd hops hd.bsd211
  | pdp7 => exact absurd hops hd.pdp7
  | _ => rfl

omit h0 in
theorem dirAdd_fixed (ino : Nat) : dirAdd ino name (s, l) = v7fsDirAdd ino name (s, l) := by
  unfold dirAdd
  rw [bindUpFs_run]
  cases hops : s.fs.desc.ops with
  | bsd211 => exact absurd hops hd.bsd211
  | pdp7 => exact absurd hops hd.pdp7
  | _ => rfl

omit h0 in
theorem dirRemove_fixed : dirRemove name (s, l) = v7fsDirRemove name (s, l) := by
  unfold dirRemove
  rw [bindUpFs_run]
  cases hops : s.fs.desc.ops with
  | bsd211 => exact absurd hops hd.bsd211
  | pdp7 => exact absurd hops hd.pdp7
  | _ => rfl

/-- The test of `dir_lookup` and `dir_remove` is one of the slot. -/
theorem entryNamed_slot (f blk : Buf) (b i : Nat) (hs : HasSlot s.fs.desc f blk b i) :
    entryNamed s.fs.desc name blk b = slotNamed s.fs.desc f (stem s.fs.desc name) i := by
  have hw := hd.width
  unfold FixedDir at hw
  have hino : entryIno s.fs.desc blk b = entryIno s.fs.desc f (i * s.fs.desc.direntSize) := by
    refine num_congr _ fun x hx => hs x ?_
    rw [ByteOrder.length_sig16] at hx
    omega
  have hname : storedName blk (b + 2) s.fs.desc.maxNamlen = storedName f (i * s.fs.desc.direntSize +
    2) s.fs.desc.maxNamlen := by
    refine storedName_congr fun x hx => ?_
    rw [Nat.add_assoc, Nat.add_assoc]
    exact hs (2 + x) (by omega)
  unfold entryNamed slotNamed inUse slotAt
  rw [hino]
  congr 1
  rw [Bool.eq_iff_iff, fixedNameEq_iff h0, hname, beq_iff_eq]
  rfl

include h hf

/-- The scan for a name. -/
theorem post_nameScan : Post (dirScan (entryNamed s.fs.desc name) (l.ip.size + 1) 0 (s, l))
    (fun r t => (match r with
      | some (o, blk, b) =>
        ∃ i, First (slotNamed s.fs.desc (byteOf s.fs s.img l.ip) (stem s.fs.desc name)) (l.ip.size /
          s.fs.desc.direntSize) i ∧
          o + b = i * s.fs.desc.direntSize ∧ HasSlot s.fs.desc (byteOf s.fs s.img l.ip) blk b i
      | none => lookup (listing s.fs s.img l.ip) (stem s.fs.desc name) = none) ∧ Looked s t.1 ∧ t.2 = l)
    (fun _ t => Fault s ∧ Looked s t.1 ∧ t.2 = l) := by
  have hscan := post_dirScan h hf.view hf.mappable hd.pos
    (entryNamed_slot hd h0 (byteOf s.fs s.img l.ip)) (l.ip.size + 1) 0 0 (looked_law.refl s)
    (Nat.zero_mul _).symm (by omega) (fun j hj => absurd hj (Nat.not_lt_zero j))
  refine hscan.mono (fun r t hr => ⟨?_, hr.2⟩) fun _ _ he => he
  obtain ⟨hr, -⟩ := hr
  cases r with
  | some r => exact hr
  | none => exact lookup_none hr

theorem post_dirLookup : Post (dirLookup name (s, l))
    (fun r t => (∃ e, lookup (listing s.fs s.img l.ip) (stem s.fs.desc name) = some e ∧ e.1 = r) ∧
      Looked s t.1 ∧ t.2 = l)
    (fun e t => (e = .enoent ∧ lookup (listing s.fs s.img l.ip) (stem s.fs.desc name) = none ∨
      Fault s) ∧ Looked s t.1 ∧ t.2 = l) := by
  rw [dirLookup_fixed hd]
  show Post ((dirScan (entryNamed s.fs.desc name) (l.ip.size + 1) 0 >>= fun r => match r with
    | some (_, blk, b) => pure (entryIno s.fs.desc blk b)
    | none => throw .enoent : MI Nat) (s, l)) _ _
  refine post_bind ((post_nameScan h hd hf h0).mono ?_ fun e t ht => ⟨.inr ht.1, ht.2⟩)
  intro r p hrun
  obtain ⟨t, l'⟩ := p
  obtain ⟨hr, ht⟩ := hrun
  cases r with
  | some r =>
    obtain ⟨o, blk, b⟩ := r
    obtain ⟨i, hfirst, -, hslot⟩ := hr
    refine ⟨⟨_, lookup_first hfirst, ?_⟩, ht⟩
    refine (num_congr _ fun x hx => hslot x ?_).symm
    rw [ByteOrder.length_sig16] at hx
    have := hd.width
    unfold FixedDir at this
    omega
  | none => exact ⟨.inl ⟨rfl, hr⟩, ht⟩

omit h0 in
/-- The scan for a free slot. -/
theorem post_freeScan : Post (dirScan (fun blk b => entryIno s.fs.desc blk b == 0) (l.ip.size + 1) 0 (s, l))
    (fun r t => (match r with
      | some (o, _, b) => ∃ i, i < l.ip.size / s.fs.desc.direntSize ∧ o + b = i * s.fs.desc.direntSize ∧
          (slotAt s.fs.desc (byteOf s.fs s.img l.ip) i).1 = 0
      | none => Full s.fs s.img l.ip) ∧ Looked s t.1 ∧ t.2 = l)
    (fun _ t => Fault s ∧ Looked s t.1 ∧ t.2 = l) := by
  have hslot : ∀ blk b i, HasSlot s.fs.desc (byteOf s.fs s.img l.ip) blk b i →
      (entryIno s.fs.desc blk b == 0) = ((slotAt s.fs.desc (byteOf s.fs s.img l.ip) i).1 == 0) := by
    intro blk b i hs
    have hino : entryIno s.fs.desc blk b = entryIno s.fs.desc (byteOf s.fs s.img l.ip) (i *
      s.fs.desc.direntSize) := by
      refine num_congr _ fun x hx => hs x ?_
      rw [ByteOrder.length_sig16] at hx
      have := hd.width
      unfold FixedDir at this
      omega
    rw [hino]
    rfl
  have hscan := post_dirScan h hf.view hf.mappable hd.pos (q :=
    fun i => (slotAt s.fs.desc (byteOf s.fs s.img l.ip) i).1 == 0) hslot (l.ip.size + 1) 0 0
    (looked_law.refl s) (Nat.zero_mul _).symm (by omega) (fun j hj => absurd hj (Nat.not_lt_zero j))
  refine hscan.mono (fun r t hr => ⟨?_, hr.2⟩) fun _ _ he => he
  obtain ⟨hr, -⟩ := hr
  cases r with
  | some r =>
    obtain ⟨i, hfirst, hoff, -⟩ := hr
    exact ⟨i, hfirst.lt, hoff, beq_iff_eq.mp hfirst.here⟩
  | none =>
    refine full_of_used fun j hj => ?_
    have hused := hr j hj
    unfold inUse
    rw [bne, hused]
    rfl

end Routines

/-! ## Entering and removing names -/

section Slot

variable {S : Scope} {n : Nat} {buf : Buf} {i : Nat} {s t : Mnt} {own own' : Own} {ip ip' : Inode}
    (hd : FixedFormat s.fs.desc)
  (hf : Filed S n buf (i * s.fs.desc.direntSize) (i * s.fs.desc.direntSize + s.fs.desc.direntSize) s own
    ip t own' ip')

include hf

/-- The bytes below `m` outside the slot are as they were. -/
theorem bytes_of_filed {m : Nat} (hm : m ≤ 2 ^ 32) {o : Nat} (ho : o < m)
    (hout : o < i * s.fs.desc.direntSize ∨ (i + 1) * s.fs.desc.direntSize ≤ o) :
    byteOf t.fs t.img ip' o = byteOf s.fs s.img ip o := by
  rw [hf.bytes o (Nat.lt_of_le_of_lt (Nat.div_le_self ..) (Nat.lt_of_lt_of_le ho hm)), if_neg]
  rw [Nat.succ_mul] at hout
  omega

include hd

/-- The slot holds what was written. -/
theorem slot_of_filed (hm : i * s.fs.desc.direntSize + s.fs.desc.direntSize ≤ 2 ^ 32) :
    slotAt s.fs.desc (byteOf t.fs t.img ip') i = slotAt s.fs.desc buf 0 := by
  refine slotAt_congr hd.width fun x hx => ?_
  rw [hf.bytes _ (Nat.lt_of_le_of_lt (Nat.div_le_self ..) (by omega)), if_pos (by omega)]
  congr 1
  omega

end Slot

section Edit

variable {S : Scope} {s : Mnt} {own : Own} {n : Nat} {l : Loc} (h : Owned s own)
    (hd : FixedFormat s.fs.desc) (hf : Folder s own n l.ip)
  (hS : S.touch n) (hn : ValidIno s.fs n) {name : Name} (h0 : 0 ∉ name)

include hf

theorem folder_of_edited {t : Mnt} {own' : Own} {ip' : Inode} (he : Edited S n s own l.ip t own' ip')
    (hframed : s.fs.desc.direntSize ∣ ip'.size)
    (hfits : ip'.size ≤ maxFile s.fs.desc) : Folder t own' n ip' := by
  have hdesc := shape_desc he.apart.shape
  refine ⟨?_, he.ino.trans hf.ino, ?_, ?_, he.solid hf.solid⟩
  · rw [hdesc]
    exact he.view
  · rwa [hdesc]
  · rwa [hdesc]

include h hd hS hn

/-- One slot is rewritten. -/
theorem post_slotWrite (buf : Buf) {i : Nat} (hi : i < l.ip.size / s.fs.desc.direntSize) :
    Post (filsysFileWrite buf s.fs.desc.direntSize (i * s.fs.desc.direntSize : Nat) (s, l))
      (fun _ t => ∃ own', Edited S n s own l.ip t.1 own' t.2.ip ∧ Folder t.1 own' n t.2.ip ∧
        t.2.ip.size = l.ip.size ∧
        (∀ o, o < l.ip.size → o < i * s.fs.desc.direntSize ∨ (i + 1) * s.fs.desc.direntSize ≤ o →
          byteOf t.1.fs t.1.img t.2.ip o = byteOf s.fs s.img l.ip o) ∧
        slotAt s.fs.desc (byteOf t.1.fs t.1.img t.2.ip) i = slotAt s.fs.desc buf 0)
      (fun _ t => Fault s ∧ ∃ own', Spared S n s own l.ip t.1 own' t.2.ip) := by
  have hpos := hd.pos
  have hend : i * s.fs.desc.direntSize + s.fs.desc.direntSize ≤ l.ip.size := by
    rw [← Nat.succ_mul]
    exact (Nat.le_div_iff_mul_le hpos).mp hi
  have hsz := hf.size_lt
  refine (post_filsysFileWrite hS buf _ _ h hf.view hf.ino (hf.mappable.of_le hend) fun x _ hx =>
    .inl (hf.solid x (by omega))).mono ?_ ?_
  · intro _ t hr
    obtain ⟨-, -, own', hfiled⟩ := hr
    have he := edited_of_filed h hsz hfiled (by omega) (by omega) (by omega)
    have hsize : t.2.ip.size = l.ip.size := by
      rw [size_of_filed hfiled (by omega)]
      omega
    refine ⟨own', he, folder_of_edited hf he (by rw [hsize]; exact hf.framed)
      (by rw [hsize]; exact hf.fits), hsize,
      fun o ho => bytes_of_filed hfiled (Nat.le_of_lt hsz) ho, slot_of_filed hd hfiled (by omega)⟩
  · intro _ t hr
    obtain ⟨⟨-, own', hu⟩, hwhy⟩ := hr
    have hfault := fault_of_solid hf.solid hend (hwhy hn)
    exact ⟨hfault, own', spared_of_unfiled h hsz hf.view hf.solid hu (.inl hfault)⟩

include h0

theorem post_dirRemove : Post (dirRemove name (s, l))
    (fun _ t => ∃ own' e, Edited S n s own l.ip t.1 own' t.2.ip ∧ Folder t.1 own' n t.2.ip ∧
      t.2.ip.size = l.ip.size ∧
      e.2 = stem s.fs.desc name ∧ Removed (listing s.fs s.img l.ip) (listing t.1.fs t.1.img t.2.ip) e)
    (fun e t => e = .enoent ∧ lookup (listing s.fs s.img l.ip) (stem s.fs.desc name) = none ∧
      Looked s t.1 ∧ t.2 = l ∨
      Fault s ∧ ∃ own', Spared S n s own l.ip t.1 own' t.2.ip) := by
  rw [dirRemove_fixed hd]
  show Post ((dirScan (entryNamed s.fs.desc name) (l.ip.size + 1) 0 >>= fun r => match r with
    | some (off, _, b) => filsysFileWrite zeroBuf s.fs.desc.direntSize (off + b : Nat) >>= fun _ => pure ()
    | none => throw .enoent : MI Unit) (s, l)) _ _
  refine post_bind ((post_nameScan h hd hf.directory h0).mono ?_ fun e t ht => .inr ⟨ht.1, own, by
    rw [ht.2.2]
    exact spared_refl ht.2.1 hf.solid hf.view⟩)
  intro r x hrun
  obtain ⟨t, l'⟩ := x
  obtain ⟨hr, ht, hl⟩ := hrun
  obtain rfl : l' = l := hl
  cases r with
  | none => exact .inl ⟨rfl, hr, ht, rfl⟩
  | some r =>
    obtain ⟨o, blk, b⟩ := r
    obtain ⟨i, hfirst, hoff, -⟩ := hr
    have hot := ht.owned h
    obtain ⟨k, hk, rfl⟩ := id ht
    have hft : Folder { s with ios := k } own n l'.ip := ⟨hf.view, hf.ino, hf.framed, hf.fits, hf.solid⟩
    show Post ((filsysFileWrite zeroBuf s.fs.desc.direntSize ((o + b : Nat) : Int) >>= fun _ =>
      pure () : MI Unit) _) _ _
    rw [hoff]
    refine post_bind ((post_slotWrite hot hd hft hS hn zeroBuf hfirst.lt).mono ?_ ?_)
    · intro _ u hrun
      obtain ⟨own', he, hfu, hsize, hbytes, hslot⟩ := hrun
      refine ⟨own', slotAt s.fs.desc (byteOf s.fs s.img l'.ip) i, edited_of_looked ht he, hfu, hsize, ?_, ?_⟩
      · exact beq_iff_eq.mp (Bool.and_eq_true_iff.mp hfirst.here).2
      · have hz : (slotAt s.fs.desc (byteOf u.1.fs u.1.img u.2.ip) i).1 = 0 := by
          rw [hslot]
          exact slotAt_zeroBuf 0
        have hrem := fixedList_remove hd.width hfirst.lt hbytes hfirst hz
        unfold listing
        rw [hsize, shape_desc he.apart.shape]
        exact hrem
    · intro e u hrun
      obtain ⟨hfault, own', hsp⟩ := hrun
      exact .inr ⟨ht.fault hfault, own', spared_of_looked ht hsp⟩

/-- A name an entry can have. -/
structure NameOk (d : Desc) (name : Name) : Prop where
  ne_nil : name ≠ []
  short : name.length ≤ d.maxNamlen
  slash : slash ∉ name
  nul : 0 ∉ name

omit h0 in
theorem post_dirAdd (hL : ∀ p, S.link n p) (hname : NameOk s.fs.desc name) {ino : Nat}
    (hino : ino ≠ 0) (h16 : ino < 65536)
    (hroom : Full s.fs s.img l.ip → l.ip.size + s.fs.desc.direntSize ≤ maxFile s.fs.desc) :
    Post (dirAdd ino name (s, l))
    (fun _ t => ∃ own', Edited S n s own l.ip t.1 own' t.2.ip ∧ Folder t.1 own' n t.2.ip ∧
      t.2.ip.size ≤ l.ip.size + s.fs.desc.direntSize ∧
      Inserted (listing s.fs s.img l.ip) (listing t.1.fs t.1.img t.2.ip) (ino, name))
    (fun _ t => (Fault s ∨ Full s.fs s.img l.ip) ∧ ∃ own', Spared S n s own l.ip t.1 own' t.2.ip) := by
  have hpos := hd.pos
  have hentry : slotAt s.fs.desc (makeEntry s.fs.desc ino name) 0 = (ino, name) := by
    rw [slotAt_makeEntry hname.nul hname.short, Nat.mod_eq_of_lt h16]
  have huse : inUse (ino, name) = true := by
    unfold inUse
    simpa using hino
  rw [dirAdd_fixed hd]
  have hshort := hname.short
  show Post ((if name = [] ∨ s.fs.desc.maxNamlen < name.length then throw .enametoolong
    else if slash ∈ name then throw .einval else _ : MI Unit) (s, l)) _ _
  rw [if_neg (by rintro (hnil | hlong); exacts [hname.ne_nil hnil, by omega]), if_neg hname.slash]
  show Post ((dirScan (fun blk b => entryIno s.fs.desc blk b == 0) (l.ip.size + 1) 0 >>= fun r => match r with
      | some (off, _, b) =>
        filsysFileWrite (makeEntry s.fs.desc ino name) s.fs.desc.direntSize (off + b : Nat) >>= fun _ => pure ()
      | none =>
        filsysFileWrite (makeEntry s.fs.desc ino name) s.fs.desc.direntSize l.ip.size >>= fun _ =>
          pure () : MI Unit) (s, l)) _ _
  refine post_bind ((post_freeScan h hd hf.directory).mono ?_ fun e t ht => ⟨.inl ht.1, own, by
    rw [ht.2.2]
    exact spared_refl ht.2.1 hf.solid hf.view⟩)
  intro r q hrun
  obtain ⟨t, l'⟩ := q
  obtain ⟨hr, ht, hl⟩ := hrun
  obtain rfl : l' = l := hl
  have hot := ht.owned h
  obtain ⟨k, hk, rfl⟩ := id ht
  have hft : Folder { s with ios := k } own n l'.ip := ⟨hf.view, hf.ino, hf.framed, hf.fits, hf.solid⟩
  cases r with
  | some r =>
    -- a freed slot is used again
    obtain ⟨o, blk, b⟩ := r
    obtain ⟨i, hi, hoff, hfree⟩ := hr
    show Post ((filsysFileWrite (makeEntry s.fs.desc ino name) s.fs.desc.direntSize ((o + b : Nat) :
      Int) >>= fun _ => pure () : MI Unit) _) _ _
    rw [hoff]
    refine post_bind ((post_slotWrite hot hd hft hS hn (makeEntry s.fs.desc ino name) hi).mono ?_ ?_)
    · intro _ u hrun
      obtain ⟨own', he, hfu, hsize, hbytes, hslot⟩ := hrun
      refine ⟨own', edited_of_looked ht he, hfu, by rw [hsize]; exact Nat.le_add_right _ _, ?_⟩
      rw [hentry] at hslot
      have hins := fixedList_reuse hd.width hi hbytes hfree (by rw [hslot]; exact huse)
      unfold listing
      rw [hsize, shape_desc he.apart.shape, ← hslot]
      exact hins
    · intro e u hrun
      obtain ⟨hfault, own', hsp⟩ := hrun
      exact ⟨.inl (ht.fault hfault), own', spared_of_looked ht hsp⟩
  | none =>
    -- the directory grows by a slot
    have hroom : l'.ip.size + s.fs.desc.direntSize ≤ maxFile s.fs.desc := hroom hr
    have hsz := hf.size_lt
    have hmax := Blockmap.maxFile_lt s.fs.desc
    obtain ⟨i, hi⟩ := hf.framed
    rw [Nat.mul_comm] at hi
    have hdiv : l'.ip.size / s.fs.desc.direntSize = i := by
      rw [hi]
      exact Nat.mul_div_cancel _ hpos
    show Post ((filsysFileWrite (makeEntry s.fs.desc ino name) s.fs.desc.direntSize (l'.ip.size :
      Int) >>= fun _ => pure () : MI Unit) _) _ _
    refine post_bind ((post_filsysFileWrite hS (makeEntry s.fs.desc ino name) _ _ hot hf.view hf.ino
      (Nat.lt_of_le_of_lt (Nat.div_le_self ..) (show l'.ip.size + s.fs.desc.direntSize < 2 ^ 32 by omega))
      fun x _ _ => .inr fun _ _ _ _ _ _ _ => hL _).mono ?_ ?_)
    · intro _ u hrun
      obtain ⟨-, -, own', hfiled⟩ := hrun
      have he := edited_of_filed hot hsz hfiled (Nat.le_refl _) (Nat.lt_add_of_pos_right hpos)
        (show l'.ip.size + s.fs.desc.direntSize < 2 ^ 32 by omega)
      have hsize : u.2.ip.size = l'.ip.size + s.fs.desc.direntSize := by
        rw [size_of_filed hfiled (show l'.ip.size + s.fs.desc.direntSize < 2 ^ 32 by omega)]
        exact Nat.max_eq_right (Nat.le_add_right _ _)
      have hfiled' := hfiled
      rw [hi] at hfiled'
      have hslot := slot_of_filed (s := { s with ios := k }) hd hfiled'
        (by show i * s.fs.desc.direntSize + s.fs.desc.direntSize ≤ 2 ^ 32; omega)
      replace hslot : slotAt s.fs.desc (byteOf u.1.fs u.1.img u.2.ip) i = (ino, name) := hslot.trans hentry
      have hbytes : ∀ o, o < l'.ip.size → byteOf u.1.fs u.1.img u.2.ip o = byteOf s.fs s.img l'.ip o := by
        intro o ho
        exact bytes_of_filed (s := { s with ios := k }) hfiled' (Nat.le_of_lt hsz) ho
          (.inl (by rw [← hi]; exact ho))
      have hins := fixedList_append hd.width hf.framed hbytes (by rw [hdiv, hslot]; exact huse)
      rw [hdiv, hslot] at hins
      refine ⟨own', edited_of_looked ht he, folder_of_edited hft he ?_ ?_, Nat.le_of_eq hsize, ?_⟩
      · rw [hsize]
        exact Nat.dvd_add hf.framed (Nat.dvd_refl _)
      · rw [hsize]
        exact hroom
      · unfold listing
        rw [hsize, shape_desc he.apart.shape]
        exact hins
    · intro e u hrun
      obtain ⟨⟨-, own', hu⟩, -⟩ := hrun
      exact ⟨.inr hr, own', spared_of_looked ht
        (spared_of_unfiled hot hsz hf.view hf.solid hu (.inr (Nat.le_refl _)))⟩

end Edit

end Filsys.Names
