/-
  Filsys.Names.World — what the names of a volume are (filsys.c, dir_fixed.c).

  `worldOf` forgets blocks and bytes: a live inode is a directory or not, has a link count,
  and, when it is a directory, a list of entries. `Sound` is what the volume has to be for
  that picture to be true of it. Changing one inode, by any routine of the engine, changes
  one node of the picture (`Sound.turn`).
-/

import Filsys.Names.Iter

namespace Filsys.Names

open Filsys.Lib Filsys.Engine Filsys.Alloc Filsys.Tree

/-! ## Records -/

/-- A record reads back as itself. -/
theorem stored_recordOf {fs : Fs} (hl : RecordLayout fs.desc) (img : Buf) (n : Nat) :
    Stored fs.desc n (recordOf fs img n) (recordOf fs img n) := by
  have h16 : ∀ (bo : ByteOrder) (b : Buf) (o : Nat), bo.get16 b o < 65536 := by
    intro bo b o
    have := num_lt (ByteOrder.perm_sig16 bo) b o
    rwa [ByteOrder.length_sig16] at this
  have h32 : ∀ (bo : ByteOrder) (b : Buf) (o : Nat), bo.get32 b o < 2 ^ 32 := by
    intro bo b o
    have := num_lt (ByteOrder.perm_sig32 bo) b o
    rwa [ByteOrder.length_sig32] at this
  unfold recordOf decodeAt
  by_cases hv : fs.desc.ops = .v1
  · rw [if_pos hv]
    have hni := (hl.small (.inl hv)).2
    refine ⟨rfl, (Nat.mod_eq_of_lt (h16 _ _ _)).symm, ?_, ?_, fun i hi => ?_, fun i hi => ?_⟩
    · show _ = storeNlink fs.desc _
      unfold storeNlink
      rw [if_pos (.inl hv)]
      exact (Int.emod_eq_of_lt (Int.natCast_nonneg _) (by exact_mod_cast UInt8.toNat_lt _)).symm
    · unfold sizeLen
      rw [if_pos hv]
      exact (Nat.mod_eq_of_lt (h16 _ _ _)).symm
    · unfold addrLen
      rw [if_pos (.inl hv)]
      refine (Nat.mod_eq_of_lt ?_).symm
      show (if i < 8 then _ else 0) < 256 ^ 2
      rw [if_pos (by omega)]
      exact h16 _ _ _
    · exact if_neg (by omega)
  · rw [if_neg hv]
    unfold decodeInode
    by_cases h6 : fs.desc.ops = .v6
    · rw [if_pos h6]
      refine ⟨rfl, (Nat.mod_eq_of_lt (h16 _ _ _)).symm, ?_, ?_, fun i hi => ?_, fun i hi => ?_⟩
      · unfold storeNlink
        rw [if_pos (.inr h6)]
        exact (Int.emod_eq_of_lt (Int.natCast_nonneg _) (by exact_mod_cast UInt8.toNat_lt _)).symm
      · unfold sizeLen
        rw [if_neg hv, if_pos h6]
        refine (Nat.mod_eq_of_lt ?_).symm
        show UInt8.toNat _ * 65536 + _ < 2 ^ 24
        have h1 := UInt8.toNat_lt (blockOf fs img (itod fs n) (itoo fs n + 5))
        have h2 := h16 fs.desc.bo (blockOf fs img (itod fs n)) (itoo fs n + 6)
        omega
      · unfold addrLen
        rw [if_pos (.inr h6)]
        refine (Nat.mod_eq_of_lt ?_).symm
        show (if i < _ then _ else 0) < 256 ^ 2
        rw [if_pos hi]
        exact h16 _ _ _
      · exact if_neg (by omega)
    · rw [if_neg h6]
      refine ⟨rfl, (Nat.mod_eq_of_lt (h16 _ _ _)).symm, ?_, ?_, fun i hi => ?_, fun i hi => ?_⟩
      · unfold storeNlink
        rw [if_neg (by simp [hv, h6])]
        show toInt16 _ = toInt16 (toInt16 _)
        unfold toInt16
        omega
      · unfold sizeLen
        rw [if_neg hv, if_neg h6]
        exact (Nat.mod_eq_of_lt (h32 _ _ _)).symm
      · unfold addrLen
        rw [if_neg (by simp [hv, h6])]
        refine (Nat.mod_eq_of_lt ?_).symm
        show (if i < _ then _ else 0) < _
        rw [if_pos hi]
        exact num_lt (perm_addrSig _) _ _
      · exact if_neg (by omega)

/-- The copy `ip` is what the record of `n` says, but for its link count. -/
structure Current (s : Mnt) (n : Nat) (ip : Inode) : Prop where
  ino : ip.ino = n
  mode : ip.mode = (recordOf s.fs s.img n).mode
  size : ip.size = (recordOf s.fs s.img n).size
  addr : ∀ i, i < s.fs.desc.niaddr → ip.addr i = (recordOf s.fs s.img n).addr i

section Current

variable {s : Mnt} {n : Nat} {ip : Inode}

theorem current_recordOf (hl : RecordLayout s.fs.desc) (n : Nat) : Current s n (recordOf s.fs s.img n) :=
  ⟨(stored_recordOf hl s.img n).ino, rfl, rfl, fun _ _ => rfl⟩

theorem Current.mod16 (h : Current s n ip) (k : Int) : Current s n (mod16 ip k) :=
  ⟨h.ino, h.mode, h.size, h.addr⟩

/-- A copy that has gone out, if its fields fit the record. -/
theorem current_of_stored {own : Own} (ho : Owned s own) (hv : View s.fs.desc own n ip)
    (hino : ip.ino = n) (hmode : ip.mode < 65536)
    (hsize : ip.size < 2 ^ sizeLen s.fs.desc) (hs : Stored s.fs.desc n ip (recordOf s.fs s.img n)) :
    Current s n ip := by
  refine ⟨hino, ?_, ?_, ?_⟩
  · rw [hs.mode, Nat.mod_eq_of_lt hmode]
  · rw [hs.size, Nat.mod_eq_of_lt hsize]
  · intro i hi
    rw [hs.addr i hi]
    refine (Nat.mod_eq_of_lt ?_).symm
    by_cases h0 : ip.addr i = 0
    · rw [h0]
      exact Nat.pow_pos (by decide)
    · exact Nat.lt_of_lt_of_le ((ho.data _ _ (hv i hi h0)).lt_fsize ho.mounted) ho.layout.addr

variable (h : Current s n ip)

include h

theorem Current.mapOf {x : Nat} (hx : x < 2 ^ 32) :
    mapOf s.fs s.img ip x = mapOf s.fs s.img (recordOf s.fs s.img n) x := by
  unfold Tree.mapOf
  rw [h.mode]
  cases hp : pathOf s.fs.desc (recordOf s.fs s.img n).mode x with
  | none => rfl
  | some p =>
    show descend s.fs s.img (ip.addr p.1) p.2 = descend s.fs s.img ((recordOf s.fs s.img n).addr p.1) p.2
    rw [h.addr p.1 (pathOf_slot hx hp)]

theorem Current.byteOf {o : Nat} (ho : Mappable s.fs o) :
    byteOf s.fs s.img ip o = byteOf s.fs s.img (recordOf s.fs s.img n) o := by
  unfold Tree.byteOf
  rw [h.mapOf ho]

theorem Current.view {own : Own} : View s.fs.desc own n ip ↔ View s.fs.desc own n (recordOf s.fs s.img n) := by
  unfold View
  rw [h.mode]
  refine forall_congr' fun slot => forall_congr' fun hs => ?_
  rw [h.addr slot hs]

theorem Current.isDir (d : Desc) : modeIsDir d ip = modeIsDir d (recordOf s.fs s.img n) := by
  unfold modeIsDir
  rw [h.mode]

theorem Current.folder {own : Own} (hl : RecordLayout s.fs.desc) (hb : 0 < s.fs.desc.bsize) :
    Folder s own n ip ↔ Folder s own n (recordOf s.fs s.img n) := by
  have hsolid : ip.size ≤ maxFile s.fs.desc →
    (Solid s.fs s.img ip ↔ Solid s.fs s.img (recordOf s.fs s.img n)) := by
    intro hfits
    unfold Solid
    rw [← h.size]
    refine forall_congr' fun x => forall_congr' fun hx => ?_
    have hmax := Blockmap.maxFile_lt s.fs.desc
    have hle := Nat.le_mul_of_pos_right x hb
    rw [h.mapOf (by omega)]
  refine ⟨fun hf => ⟨h.view.mp hf.view, (stored_recordOf hl s.img n).ino, ?_, ?_, (hsolid hf.fits).mp hf.solid⟩,
    fun hf => ⟨h.view.mpr hf.view, h.ino, ?_, ?_, (hsolid (by rw [h.size]; exact hf.fits)).mpr hf.solid⟩⟩
  · rw [← h.size]
    exact hf.framed
  · rw [← h.size]
    exact hf.fits
  · rw [h.size]
    exact hf.framed
  · rw [h.size]
    exact hf.fits

theorem Current.listing (hd : FixedDir s.fs.desc) (hsize : ip.size < 2 ^ 32) :
    listing s.fs s.img ip = listing s.fs s.img (recordOf s.fs s.img n) := by
  refine listing_congr hd rfl h.size fun o ho => h.byteOf ?_
  rw [← h.size] at ho
  exact Nat.lt_of_le_of_lt (Nat.div_le_self ..) (Nat.lt_trans ho hsize)

end Current

/-! ## The picture -/

/-- What a live inode is to the names. -/
structure Node where
  dir : Bool
  nlink : Int
  list : List Dirent

/-- The live inodes. -/
abbrev World := Nat → Option Node

def nodeOf (fs : Fs) (img : Buf) (n : Nat) : Option Node :=
  if ValidIno fs n ∧ Live fs img n then
    some ⟨modeIsDir fs.desc (recordOf fs img n), (recordOf fs img n).nlink,
      if modeIsDir fs.desc (recordOf fs img n) then listing fs img (recordOf fs img n) else []⟩
  else none

def worldOf (s : Mnt) : World := nodeOf s.fs s.img

/-- The formats whose directories have fixed entries, among them `.` and `..`. -/
structure Format (d : Desc) : Prop where
  modes : Modes d
  fixed : FixedFormat d
  sizes : maxFile d < 2 ^ sizeLen d
  dots : 2 ≤ d.maxNamlen
  fresh : 2 * d.direntSize ≤ maxFile d

/-- Every live directory is a directory. -/
structure Sound (s : Mnt) (own : Own) : Prop where
  owned : Owned s own
  map : MapTrue s
  format : Format s.fs.desc
  folders : ∀ n, ValidIno s.fs n → Live s.fs s.img n → modeIsDir s.fs.desc (recordOf s.fs s.img n) = true →
    Folder s own n (recordOf s.fs s.img n)

section Picture

variable {s : Mnt} {n : Nat}

theorem worldOf_live (hv : ValidIno s.fs n) (hl : Live s.fs s.img n) : worldOf s n =
    some ⟨modeIsDir s.fs.desc (recordOf s.fs s.img n), (recordOf s.fs s.img n).nlink,
      if modeIsDir s.fs.desc (recordOf s.fs s.img n) then listing s.fs s.img (recordOf s.fs s.img n)
      else []⟩ := if_pos ⟨hv, hl⟩

theorem worldOf_some {nd : Node} (h : worldOf s n = some nd) : ValidIno s.fs n ∧ Live s.fs s.img n ∧
    nd.dir = modeIsDir s.fs.desc (recordOf s.fs s.img n) ∧ nd.nlink = (recordOf s.fs s.img n).nlink := by
  unfold worldOf nodeOf at h
  split at h
  · rename_i hv
    cases h
    exact ⟨hv.1, hv.2, rfl, rfl⟩
  · cases h

theorem worldOf_none (hn : ValidIno s.fs n) : worldOf s n = none ↔ ¬ Live s.fs s.img n := by
  unfold worldOf nodeOf
  split
  · rename_i hv
    exact ⟨nofun, fun h => absurd hv.2 h⟩
  · rename_i hv
    exact ⟨fun _ hl => hv ⟨hn, hl⟩, fun _ => rfl⟩

/-- The node of a live directory. -/
theorem worldOf_dir {k : Int} {L : List Dirent} :
    worldOf s n = some ⟨true, k, L⟩ ↔ (ValidIno s.fs n ∧ Live s.fs s.img n) ∧
    modeIsDir s.fs.desc (recordOf s.fs s.img n) = true ∧ (recordOf s.fs s.img n).nlink = k ∧
    listing s.fs s.img (recordOf s.fs s.img n) = L := by
  unfold worldOf nodeOf
  split
  · rename_i hv
    rw [Option.some.injEq, Node.mk.injEq]
    constructor
    · rintro ⟨h1, h2, h3⟩
      rw [if_pos h1] at h3
      exact ⟨hv, h1, h2, h3⟩
    · intro hr
      obtain ⟨-, h1, h2, h3⟩ := hr
      rw [if_pos h1]
      exact ⟨h1, h2, h3⟩
  · rename_i hv
    exact ⟨nofun, fun h => absurd h.1 hv⟩

end Picture

/-! ## One inode changes -/

section Turn

variable {T : Nat → Prop} {s t : Mnt} {own own' : Own} (hs : Sound s own) (ha : Apart T s own t own')

include hs ha

omit hs in
theorem record_apart {k : Nat} (hv : ValidIno s.fs k) (hk : ¬ T k) :
    recordOf t.fs t.img k = recordOf s.fs s.img k := by
  rw [shape_recordOf ha.shape]
  exact ha.recs k hv hk

omit ha in
/-- A directory whose blocks have not changed. -/
theorem folder_still {k : Nat} (hst : Still k s own t) {ip : Inode} (hv : View s.fs.desc own' k ip)
    (hf : Folder s own k ip) :
    Folder t own' k ip ∧ listing t.fs t.img ip = listing s.fs s.img ip := by
  have hd := shape_desc hst.shape
  have hsz := hf.size_lt
  refine ⟨⟨by rw [hd]; exact hv, hf.ino, ?_, ?_, ?_⟩, listing_congr hs.format.fixed.width hd rfl ?_⟩
  · rw [hd]
    exact hf.framed
  · rw [hd]
    exact hf.fits
  · intro x hx
    rw [hd] at hx
    rw [hst.mapOf hs.owned hf.view (lt_of_mul_lt hs.owned hsz hx)]
    exact hf.solid x hx
  · intro o ho
    exact hst.byteOf hs.owned hf.view (hf.mappable.of_le (Nat.le_of_lt ho))

theorem folder_apart {k : Nat} (hk : ¬ T k) {ip : Inode} (hf : Folder s own k ip) :
    Folder t own' k ip ∧ listing t.fs t.img ip = listing s.fs s.img ip := by
  refine folder_still hs (ha.still hk) ?_ hf
  rw [← shape_desc ha.shape]
  exact ha.view hk hf.view

/-- The nodes of the other inodes are as they were. -/
theorem world_apart {k : Nat} (hk : ¬ T k) : worldOf t k = worldOf s k := by
  have hd := shape_desc ha.shape
  by_cases hv : ValidIno s.fs k
  · have hrec := record_apart ha hv hk
    have hvt := (shape_validIno ha.shape).mpr hv
    have hlive : Live t.fs t.img k ↔ Live s.fs s.img k := by
      rw [shape_live ha.shape]
      exact live_congr (ha.recs k hv hk)
    by_cases hl : Live s.fs s.img k
    · rw [worldOf_live hvt (hlive.mpr hl), worldOf_live hv hl, hrec, hd]
      by_cases hdir : modeIsDir s.fs.desc (recordOf s.fs s.img k) = true
      · rw [if_pos hdir, if_pos hdir, (folder_apart hs ha hk (hs.folders k hv hl hdir)).2]
      · rw [if_neg hdir, if_neg hdir]
    · rw [(worldOf_none hvt).mpr fun h => hl (hlive.mp h), (worldOf_none hv).mpr hl]
  · have hvt : ¬ ValidIno t.fs k := fun h => hv ((shape_validIno ha.shape).mp h)
    unfold worldOf nodeOf
    rw [if_neg fun h => hvt h.1, if_neg fun h => hv h.1]

theorem Sound.turn (ho : Owned t own') (hm : MapTrue t)
    (hf : ∀ k, T k → ValidIno t.fs k → Live t.fs t.img k → modeIsDir t.fs.desc (recordOf t.fs t.img k) = true →
      Folder t own' k (recordOf t.fs t.img k)) : Sound t own' := by
  have hd := shape_desc ha.shape
  refine ⟨ho, hm, by rw [hd]; exact hs.format, fun k hv hl hdir => ?_⟩
  by_cases hk : T k
  · exact hf k hk hv hl hdir
  · have hvs := (shape_validIno ha.shape).mp hv
    have hrec := record_apart ha hvs hk
    rw [hrec, hd] at hdir
    rw [hrec]
    refine (folder_apart hs ha hk (hs.folders k hvs ?_ hdir)).1
    rw [shape_live ha.shape] at hl
    exact (live_congr (ha.recs k hvs hk)).mp hl

end Turn

/-- `nd` takes the place of node `n`. -/
def set (w : World) (n : Nat) (nd : Option Node) : World := fun k => if k = n then nd else w k

@[simp] theorem set_self (w : World) (n : Nat) (nd : Option Node) : set w n nd n = nd := if_pos rfl

theorem set_ne (w : World) {n k : Nat} (nd : Option Node) (h : k ≠ n) : set w n nd k = w k := if_neg h

theorem set_same {w : World} {n : Nat} {nd : Option Node} (h : w n = nd) : set w n nd = w := by
  funext k
  by_cases hk : k = n
  · rw [hk, set_self, h]
  · rw [set_ne w nd hk]

end Filsys.Names
