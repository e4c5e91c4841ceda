/-
  Filsys.Names.Births — inodes that come and go, and the calls that make a name
  (filsys.c).

  `filsys_create_in`, `filsys_mknod_in`, `filsys_symlink_in` and `filsys_mkdir_in` take a
  number no inode has, fill its record and enter the name last. On a fit volume and
  without a failed transfer each either does that to the census, and nothing else, or
  fails with the census as it was: what it had made by then has been taken back
  (`post_createIn`, `post_mknodIn`, `post_symlinkIn`, `post_mkdirIn`).
-/

import Filsys.Names.Effects

namespace Filsys.Names

open Filsys.Lib Filsys.Engine Filsys.Alloc Filsys.Tree

/-! ## The books -/

/-- The inode allocator and the volume are as they were, on a mount no one else writes to. -/
def SameBooks (s t : Mnt) : Prop := SameIno s t ∧ SameShape s t

theorem sameBooks_law : BlockLaw SameBooks where
  refl s := ⟨sameIno_law.refl s, sameShape_law.refl s⟩
  trans h h' := ⟨sameIno_law.trans h.1 h'.1, sameShape_law.trans h.2 h'.2⟩
  peek h := ⟨sameIno_law.peek h, sameShape_law.peek h⟩
  write site buf n off s := (sameIno_law.write site buf n off s).and (sameShape_law.write site buf n off s)
  time s := (sameIno_law.time s).and (sameShape_law.time s)
  mod f hf s := (sameIno_law.mod f hf s).and (sameShape_law.mod f hf s)

theorem SameBooks.numbers {s t : Mnt} (h : SameBooks s t) (hs : Solo s) (hn : Numbers s.fs) :
    Numbers t.fs := hn.congr (h.2 hs).2 (h.1 hs).2

section Books

variable {s : Mnt} {own : Own} (ho : Owned s own) (hn : Numbers s.fs)

include ho hn

/-- A new inode's number fits an entry. -/
theorem numbers_create (mode uid gid : Nat) (type : FileType) (rdev : Nat) :
    Post (inodeCreate mode uid gid type rdev s)
    (fun r t => r.1 < 65536 ∧ Numbers t.fs) (fun _ t => Numbers t.fs) := by
  refine post_bindFs (post_bind ((tally_ialloc ho hn).mono ?_ fun _ t ht => ht.numbers))
  intro n t hr
  obtain ⟨h16, ht, -⟩ := hr
  have hsolo : Solo t := by
    intro k img
    rw [ht.env]
    exact ho.mounted.solo k img
  have hpdp : t.fs.desc.ops ≠ .pdp7 := by
    rw [shape_desc ht.shape]
    exact ho.mounted.notPdp7
  show Post (storeNew n (newInode s.fs.desc n mode uid gid type rdev (t.env.clock t.ticks % 2 ^ 32))
    { t with ticks := t.ticks + 1 }) _ _
  generalize newInode s.fs.desc n mode uid gid type rdev (t.env.clock t.ticks % 2 ^ 32) = ip
  unfold storeNew
  refine post_bind (post_attempt ((sameBooks_law.writeInode n ip { t with ticks := t.ticks + 1 }).mono ?_ ?_))
  · exact fun _ u hu => ⟨h16, hu.numbers hsolo ht.numbers⟩
  · intro e u hu
    have hpu : u.fs.desc.ops ≠ .pdp7 := by
      rw [shape_desc (hu.2 hsolo).2]
      exact hpdp
    exact post_bind ((tally_ifree hpu (hu.numbers hsolo ht.numbers) n).mono (fun _ _ h => h.1)
      fun _ _ h => h.elim)

/-- A number goes back once its inode has gone out. -/
theorem numbers_goneOut {n : Nat} {ip : Inode} {L : List Nat} :
    Post ((writeInode n ip >>= fun _ => blklistDrain L >>= fun _ => ifree n : M Unit) s)
    (fun _ t => Numbers t.fs) (fun _ t => Numbers t.fs) := by
  have hsolo := ho.mounted.solo
  refine post_bind ((sameBooks_law.writeInode n ip s).mono ?_ fun _ t ht => ht.numbers hsolo hn)
  intro _ t ht
  refine post_bind ((sameBooks_law.blklistDrain L t).mono ?_ fun _ u hu =>
    hu.numbers (ht.1 hsolo).1 (ht.numbers hsolo hn))
  intro _ u hu
  have hsu : SameBooks s u := sameBooks_law.trans ht hu
  have hpu : u.fs.desc.ops ≠ .pdp7 := by
    rw [shape_desc (hsu.2 hsolo).2]
    exact ho.mounted.notPdp7
  exact (tally_ifree hpu (hsu.numbers hsolo hn) n).mono (fun _ _ h => h.1) fun _ _ h => h.elim

theorem numbers_destroy {n : Nat} {ip : Inode}
    (hv : isDataInode s.fs.desc ip = true → View s.fs.desc own n ip) :
    Post (inodeDestroy n ip s) (fun _ t => Numbers t.fs) (fun _ t => Numbers t.fs) := by
  refine post_bind (post_inside ((post_filsysItrunc ho hv).mono ?_ ?_))
  · intro _ r h
    obtain ⟨t, l⟩ := r
    obtain ⟨ht, rfl⟩ := h
    exact numbers_goneOut (ht.owned ho) (by rw [ht.fs]; exact hn)
  · intro e r h
    obtain ⟨t, l⟩ := r
    obtain ⟨-, ht, -⟩ := h
    show Numbers t.fs
    rw [ht.fs]
    exact hn

end Books

/-! ## A new inode -/

section Mode

variable {d : Desc}

theorem modeIsDir_congr {ip ip' : Inode} (h : ip'.mode = ip.mode) : modeIsDir d ip' = modeIsDir d ip := by
  unfold modeIsDir
  rw [h]

theorem modeIsDevice_congr {ip ip' : Inode} (h : ip'.mode = ip.mode) (hi : ip'.ino = ip.ino) :
    modeIsDevice d ip' = modeIsDevice d ip := by
  unfold modeIsDevice
  rw [h, hi]

end Mode

theorem dead_of_none {s : Mnt} {n : Nat} (h : ¬ Live s.fs s.img n) : worldOf s n = none := by
  unfold worldOf nodeOf
  exact if_neg fun hl => h hl.2

theorem linkMax_ge (d : Desc) : 255 ≤ linkMax d := by
  unfold linkMax
  split <;> decide

section Create

variable {s : Mnt} {own : Own} (hf : Fit s own)

include hf

/-- What a new inode adds to the world. -/
theorem went_born {n mode uid gid : Nat} {type : FileType} {rdev now : Nat} {t : Mnt}
    (hl : type = .lnk → s.fs.desc.iflnk ≠ 0)
    (hdev : rdev ≠ 0 → type = .chr ∨ type = .blk)
    (hb : Born anything n (newInode s.fs.desc n mode uid gid type rdev now) s own t)
    (hnum : Numbers t.fs) : Went (· = n) s own t own ∧ worldOf s n = none ∧
      worldOf t = set (worldOf s) n (some ⟨type == .dir, if type = .dir then 2 else 1, []⟩) := by
  have hnew := newMode hf.sound.format.modes mode hl
  have hd := shape_desc hb.apart.shape
  have hrecs : recordOf t.fs = recordOf s.fs := shape_recordOf hb.apart.shape
  have hst := hb.stored
  rw [← hrecs] at hst
  have hmode : (recordOf t.fs t.img n).mode = modeToDisk s.fs.desc mode type := by
    rw [hst.mode]
    exact Nat.mod_eq_of_lt hnew.lt
  have hvalid := (shape_validIno hb.apart.shape).mpr hb.valid
  have hlive : Live t.fs t.img n := by
    unfold Live
    rw [hmode, hd, Nat.mod_eq_of_lt hnew.lt]
    exact hnew.live
  have hdir : modeIsDir t.fs.desc (recordOf t.fs t.img n) = (type == .dir) := by
    rw [hd, ← hnew.dir n]
    exact modeIsDir_congr hmode
  have hsize : (recordOf t.fs t.img n).size = 0 := by
    rw [hst.size]
    exact Nat.zero_mod _
  have hlist : listing t.fs t.img (recordOf t.fs t.img n) = [] := by
    unfold listing fixedList
    rw [hsize, Nat.zero_div]
    rfl
  have hfold : type = .dir → Folder t own n (recordOf t.fs t.img n) := by
    rintro rfl
    have h0 : rdev = 0 := Decidable.byContradiction fun h => nomatch hdev h
    refine ⟨fun slot hs hne => absurd ?_ hne,
      hst.ino, by rw [hsize]; exact Nat.dvd_zero _, by rw [hsize]; exact Nat.zero_le _, fun x hx => ?_⟩
    · rw [hd] at hs
      have hzero : (newInode s.fs.desc n mode uid gid .dir rdev now).addr slot = 0 := by
        rw [h0]
        show (if slot = 0 then 0 else 0) = 0
        split <;> rfl
      rw [hst.addr slot hs, hzero]
      exact Nat.zero_mod _
    · rw [hsize] at hx
      exact absurd hx (Nat.not_lt_zero _)
  have hsound : Sound t own := by
    refine hf.sound.turn hb.apart (hb.path.owned hf.sound.owned) hb.map fun k hk _ _ hdirk => ?_
    obtain rfl : k = n := hk
    rw [hdir] at hdirk
    exact hfold (by simpa using hdirk)
  have hdead := dead_of_none hb.was
  have hlink : (recordOf t.fs t.img n).nlink = if type = .dir then 2 else 1 := by
    rw [hst.nlink]
    have hmax := linkMax_ge s.fs.desc
    show storeNlink s.fs.desc (if type = .dir then 2 else 1) = _
    split
    · exact storeNlink_fit (by decide) (by omega)
    · exact storeNlink_fit (by decide) (by omega)
  have hworld : worldOf t = set (worldOf s) n (some ⟨type == .dir, if type = .dir then 2 else 1, []⟩) := by
    funext k
    by_cases hk : k = n
    · rw [hk, set_self, worldOf_live hvalid hlive, hdir, hlink, hlist, ite_self]
    · rw [set_ne _ _ hk]
      exact world_apart hf.sound hb.apart hk
  refine ⟨⟨⟨hb.apart, hsound⟩, hnum, ?_⟩, hdead, hworld⟩
  rw [hworld]
  apply hf.unique.set
  rintro nd he
  cases he
  exact List.nodup_nil

/-- A routine that has only touched the inode allocator. -/
theorem went_idle {t : Mnt} (hi : Idle s t) (hm : MapTrue t) (hnum : Numbers t.fs) (T : Nat → Prop) :
    Went T s own t own ∧ worldOf t = worldOf s := by
  have ha : Apart (fun _ => False) s own t own := .of_idle hi _ own
  have hsound : Sound t own := hf.sound.turn ha (owned_idle hf.sound.owned hi) hm fun _ => False.elim
  have hworld : worldOf t = worldOf s := funext fun k => world_apart hf.sound ha id
  refine ⟨⟨⟨.of_idle hi T own, hsound⟩, hnum, ?_⟩, hworld⟩
  rw [hworld]
  exact hf.unique

variable (hno : ¬ Fault s)

include hno

/-- A number no inode has gets a record; nothing happens where there is none. -/
theorem post_createFit (mode uid gid : Nat) {type : FileType} {rdev : Nat}
    (hl : type = .lnk → s.fs.desc.iflnk ≠ 0)
    (hdev : rdev ≠ 0 → s.fs.desc.ops ≠ .v1 ∧ (type = .chr ∨ type = .blk)) :
    Post (inodeCreate mode uid gid type rdev s)
    (fun r t => r.1 ≠ 0 ∧ r.1 < 65536 ∧ (census s).kind r.1 = none ∧ Went (· = r.1) s own t own ∧
      census t = (census s).born r.1 (type == .dir) (if type = .dir then 2 else 1) ∧
      (∃ now, r.2 = newInode s.fs.desc r.1 mode uid gid type rdev now) ∧
      (isDataInode s.fs.desc r.2 = true → View s.fs.desc own r.1 r.2) ∧
      (rdev = 0 → Current t r.1 r.2 ∧ View t.fs.desc own r.1 r.2))
    (fun _ t => ∀ T, Went T s own t own ∧ worldOf t = worldOf s) := by
  have hspec := post_inodeCreate (S := anything) hf.sound.owned hf.sound.map (fun _ _ => trivial)
    hf.sound.format.modes mode uid gid hl hdev
  refine (hspec.and (numbers_create hf.sound.owned hf.numbers mode uid gid type rdev)).mono ?_ ?_
  · intro x t hr
    obtain ⟨n, ip⟩ := x
    obtain ⟨⟨hb, now, hip⟩, h16, hnum⟩ := hr
    have hip : ip = newInode s.fs.desc n mode uid gid type rdev now := hip
    subst hip
    obtain ⟨hw, hnone, hworld⟩ := went_born hf hl (fun h => (hdev h).2) hb hnum
    have hnew := newMode hf.sound.format.modes mode hl
    refine ⟨hb.valid.1, h16, kind_eq_none.mpr hnone, hw, ?_, ⟨now, rfl⟩, fun hdata => ?_, fun h0 => ?_⟩
    · unfold census
      rw [hworld]
      exact censusOf_born hnone _
    · by_cases h0 : rdev = 0
      · rw [h0]
        exact view_newInode s.fs.desc own n mode uid gid type now
      · -- a device has no data
        have hnodev := device_of_data hf.sound.format.modes hdata
        have hyes : modeIsDevice s.fs.desc (newInode s.fs.desc n mode uid gid type rdev now) =
          (type == .chr || type == .blk) :=
          (modeIsDevice_congr rfl rfl).trans (hnew.device n (hdev h0).1)
        have hfalse : (type == .chr || type == .blk) = false := hyes.symm.trans hnodev
        rcases (hdev h0).2 with h | h
        · rw [h] at hfalse
          cases hfalse
        · rw [h] at hfalse
          cases hfalse
    · have hd := shape_desc hb.apart.shape
      have hst : Stored t.fs.desc n (newInode s.fs.desc n mode uid gid type rdev now)
        (recordOf t.fs t.img n) := by
        rw [hd, shape_recordOf hb.apart.shape]
        exact hb.stored
      have hview : View t.fs.desc own n (newInode s.fs.desc n mode uid gid type rdev now) := by
        rw [h0, hd]
        exact view_newInode s.fs.desc own n mode uid gid type now
      exact ⟨current_of_stored hw.sound.owned hview rfl hnew.lt (Nat.pow_pos (by decide)) hst, hview⟩
  · intro e t hr T
    obtain ⟨⟨hu, hwhy⟩, hnum⟩ := hr
    exact went_idle hf (hwhy.resolve_left hno) hu.map hnum T

omit hno in
/-- What belongs to a live inode is held for it. -/
theorem Current.data_view {n : Nat} {ip : Inode} (hc : Current s n ip) {b : Bool}
    (hn : (census s).kind n = some b) :
    isDataInode s.fs.desc ip = true → View s.fs.desc own n ip := by
  intro hdata
  obtain ⟨hvalid, hlive, -, -⟩ := valid_of_kind hn
  refine hc.view.mpr (hf.sound.owned.disk n hvalid ⟨hlive, ?_⟩)
  have hdevice := device_of_data hf.sound.format.modes hdata
  have hrec := stored_recordOf hf.sound.owned.layout.toRecordLayout s.img n
  rw [← hdevice]
  refine modeIsDevice_congr ?_ hc.ino.symm
  rw [hc.mode, hrec.mode, Nat.mod_mod]

/-- An inode goes, with its blocks. -/
theorem post_destroyFit {n : Nat} {ip : Inode}
    (hv : isDataInode s.fs.desc ip = true → View s.fs.desc own n ip) (hn : ValidIno s.fs n) :
    Post (inodeDestroy n ip s) (fun _ t => ∃ own', Went (· = n) s own t own' ∧
      census t = (census s).gone n) (fun _ _ => False) := by
  have hspec := post_inodeDestroy (S := anything) (n := n) trivial hf.sound.owned hv
  refine (hspec.and (numbers_destroy hf.sound.owned hf.numbers hv)).mono ?_ ?_
  · intro _ t hr
    obtain ⟨⟨own', hg⟩, hnum⟩ := hr
    have hdead : ¬ Live t.fs t.img n := by
      rw [shape_live hg.apart.shape]
      exact not_live_zero hg.mode
    have hsound : Sound t own' := by
      refine hf.sound.turn hg.apart (hg.path.owned hf.sound.owned) (hg.map hf.sound.map)
        fun k hk _ hlive _ => ?_
      obtain rfl : k = n := hk
      exact absurd hlive hdead
    have hworld : worldOf t = set (worldOf s) n none := by
      funext k
      by_cases hk : k = n
      · rw [hk, set_self]
        exact dead_of_none hdead
      · rw [set_ne _ _ hk]
        exact world_apart hf.sound hg.apart hk
    refine ⟨own', ⟨⟨hg.apart, hsound⟩, hnum, ?_⟩, ?_⟩
    · rw [hworld]
      exact hf.unique.set nofun
    · unfold census
      rw [hworld]
      exact censusOf_gone
  · exact fun _ t h => hno (h.1.1 hn)

end Create

/-! ## Entering a name -/

section Enter

variable {s : Mnt} {own : Own} (hf : Fit s own) (hno : ¬ Fault s) {dir : Nat} {ddir : Inode}
    (hc : Current s dir ddir)
  (hdir : (census s).kind dir = some true) {name : Name} (hname : NameOk s.fs.desc name)

include hf hno hc hdir hname

/-- A name that may be made. -/
theorem post_preflight : Post (preflightCreate ddir name s)
    (fun _ t => Looked s t ∧ Census.ProperName name ∧ (census s).links dir name = none)
    (fun _ t => Looked s t) := by
  obtain ⟨-, -, hisdir, -⟩ := valid_of_kind hdir
  rw [← hc.isDir] at hisdir
  unfold preflightCreate
  refine post_bindFs (post_ite (fun hnot => ?_) fun _ => post_ite (fun _ => looked_law.refl s)
    fun hproper => ?_)
  · rw [hisdir] at hnot
    cases hnot
  refine post_bind (post_attempt
    ((post_lookupFit hf hno hc hdir hname.nul hname.short).mono (fun _ _ h => h.1) ?_))
  intro e t hr
  obtain ⟨ht, rfl, hnone⟩ := hr
  exact ⟨ht, not_or.mp hproper, hnone⟩

omit hc in
/-- There is no name to withdraw. -/
theorem post_withdraw (hfree : (census s).links dir name = none) (nino : Nat) :
    Post (withdrawName dir name nino s)
    (fun _ t => Looked s t) (fun _ _ => False) := by
  refine post_bind ((post_readLive hf hno hdir).mono ?_ fun _ _ h => h)
  intro fresh t hr
  obtain ⟨ht, hct, -⟩ := hr
  have hkind : (census t).kind dir = some true := by
    rw [looked_census ht]
    exact hdir
  have hshort : name.length ≤ t.fs.desc.maxNamlen := by
    rw [ht.fs]
    exact hname.short
  refine post_bind ((post_lookupOn (hf.looked ht) (looked_clear ht hno) hct hkind hname.nul hshort).mono
    ?_ fun _ _ h => h)
  intro r u hr
  obtain ⟨rc, ip⟩ := r
  obtain ⟨hu, rfl, hrc⟩ := hr
  rw [looked_census ht] at hrc
  cases rc with
  | ok m => exact absurd (hrc.symm.trans hfree) nofun
  | error e =>
    obtain ⟨rfl, -⟩ := hrc
    exact looked_law.trans ht hu

variable (hfree : (census s).links dir name = none) (hroom : Takes s dir)
  (hlink : ddir.nlink = (census s).nlink dir) (h0 : 0 ≤ ddir.nlink) (hmax : ddir.nlink ≤ linkMax s.fs.desc)

include hfree hroom hlink h0 hmax

/-- A new inode gets its name, or goes again. -/
theorem post_addOrDestroy {nino : Nat} {nip : Inode} {b : Bool} (hkind : (census s).kind nino = some b)
    (h16 : nino < 65536) (hne : nino ≠ dir)
    (hv : isDataInode s.fs.desc nip = true → View s.fs.desc own nino nip) :
    Post (addOrDestroy dir ddir name nino nip s)
    (fun _ t => ∃ own', Went (fun x => x = dir ∨ x = nino) s own t own' ∧
      census t = (census s).enter dir name nino)
    (fun _ t => ∃ own', Went (fun x => x = dir ∨ x = nino) s own t own' ∧ census t = (census s).gone nino) := by
  obtain ⟨hvalid, -, -, -⟩ := valid_of_kind hkind
  refine post_bind ((post_addFit hf hno hc hdir hname hfree hvalid.1 h16 hroom h0 hmax).mono ?_ fun _ _ h => h)
  intro r t h
  obtain ⟨rc, ip⟩ := r
  cases rc with
  | ok _ =>
    obtain ⟨own', hw, -, -, -, hcensus⟩ := h
    refine ⟨own', hw.mono fun _ => .inl, ?_⟩
    rw [hcensus]
    exact Census.relink_same hlink.symm
  | error e =>
    obtain ⟨-, own', hw, hct, hworld, -⟩ := h
    have hcensus : census t = census s := congrArg censusOf hworld
    have hd := hw.desc
    have hwd := post_withdraw hw.fit (hw.clear hno) (by rw [hcensus]; exact hdir) (by rw [hd]; exact hname)
      (by rw [hcensus]; exact hfree) nino
    refine post_bind (post_attempt (hwd.mono ?_ fun _ _ h => h.elim))
    intro _ u hu
    have hfu := hw.fit.looked hu
    have hwu : Went (fun x => x = dir ∨ x = nino) s own u own' :=
      (hw.mono fun _ => .inl).trans (went_looked hw.fit hu _)
    have hdata : isDataInode u.fs.desc nip = true → View u.fs.desc own' nino nip := by
      rw [hwu.desc]
      intro hdata slot hs hslot
      exact hw.apart.held _ _ _ (hv hdata slot hs hslot) hne
    have hvu : ValidIno u.fs nino := (shape_validIno hwu.apart.shape).mpr hvalid
    refine post_bind (post_attempt
      ((post_destroyFit hfu (looked_clear hu (hw.clear hno)) hdata hvu).mono ?_ fun _ _ h => h.elim))
    intro _ v hr
    obtain ⟨own'', hwv, hcv⟩ := hr
    refine ⟨own'', hwu.next hwv fun _ => .inr, ?_⟩
    rw [hcv, looked_census hu, hcensus]

end Enter

/-! ## Files, devices and symbolic links -/

/-- A new inode `n`, to be entered in `dir`, whose copy `ddir` is as it was. -/
structure Newborn (s : Mnt) (own : Own) (dir : Nat) (name : Name) (type : FileType) (ddir : Inode)
    (n : Nat) (nip : Inode) (v : Mnt) (own' : Own) : Prop where
  dead : (census s).kind n = none
  free : (census s).links dir name = none
  proper : Census.ProperName name
  small : n ≠ 0 ∧ n < 65536
  ne : n ≠ dir
  went : Went (fun x => x = dir ∨ (census s).kind x = none) s own v own'
  made : census v = (census s).born n (type == .dir) (if type = .dir then 2 else 1)
  copy : Current v dir ddir
  link : ddir.nlink = (census s).nlink dir
  room : Takes v dir
  view : isDataInode v.fs.desc nip = true → View v.fs.desc own' n nip

/-- Calls that make a name write the directory it is in and inodes that were free. -/
theorem spared {s : Mnt} {dir : Nat} (hdir : (census s).kind dir = some true) (x : Nat)
    (hx : x = dir ∨ (census s).kind x = none) : (census s).kind x ≠ some false := by
  rcases hx with rfl | hx
  · rw [hdir]
    exact nofun
  · rw [hx]
    exact nofun

/-- The new inode is torn down again. -/
theorem becomes_gone {s : Mnt} {own : Own} {dir : Nat} {name : Name} {type : FileType} {ddir : Inode}
    {n : Nat} {nip : Inode} {v w : Mnt} {own' own'' : Own}
    (hb : Newborn s own dir name type ddir n nip v own') (hdir : (census s).kind dir = some true)
    {T : Nat → Prop} (hT : ∀ x, T x → x = dir ∨ x = n)
    (hw : Went T v own' w own'') (hc : census w = (census v).gone n) :
    Becomes (fun x => x = dir ∨ (census s).kind x = none) s own w (census s) := by
  obtain ⟨hzero, hbare⟩ := censusOf_dead (kind_eq_none.mp hb.dead)
  have hall : Went (fun x => x = dir ∨ (census s).kind x = none) s own w own'' := by
    refine hb.went.next hw fun x hx => ?_
    rcases hT x hx with hx | rfl
    · exact .inl hx
    · exact .inr hb.dead
  refine hall.becomes (spared hdir) ?_
  rw [hc, hb.made]
  exact Census.gone_born hb.dead hzero hbare

section Make

variable {s : Mnt} {own : Own} (h : Standing s own) {dir : Nat} (hdir : (census s).kind dir = some true)
    {name : Name} (hname : NameOk s.fs.desc name)

include h hdir hname

/-- The parent is read, the name found free and an inode made; without one nothing happens. -/
theorem post_newborn {α : Type} (hroom : (census s).links dir name = none → Takes s dir)
    (mode uid gid : Nat) {type : FileType} {rdev : Nat}
    (hl : type = .lnk → s.fs.desc.iflnk ≠ 0)
    (hdev : rdev ≠ 0 → s.fs.desc.ops ≠ .v1 ∧ (type = .chr ∨ type = .blk))
    {k : Inode → Nat × Inode → M α} {Q : α → Mnt → Prop} {E : Errno → Mnt → Prop}
    (hE : ∀ e t, Becomes (fun x => x = dir ∨ (census s).kind x = none) s own t (census s) → E e t)
    (hk : ∀ ddir n nip v, Newborn s own dir name type ddir n nip v own →
      (rdev = 0 → Current v n nip ∧ View v.fs.desc own n nip) → nip.ino = n ∧ nip.size = 0 ∧
      nip.nlink = (if type = .dir then 2 else 1) → Post (k ddir (n, nip) v) Q E) :
    Post ((readInode dir >>= fun ddir => preflightCreate ddir name >>= fun _ =>
      inodeCreate mode uid gid type rdev >>= fun r => k ddir r : M α) s) Q E := by
  have hno := h.clear
  refine post_bind ((post_readLive h.fit hno hdir).mono ?_ fun _ _ hf => hf.elim)
  intro ddir t hr
  obtain ⟨ht, hct, hlink, -, -⟩ := hr
  have hkt : (census t).kind dir = some true := by
    rw [looked_census ht]
    exact hdir
  have hnt : NameOk t.fs.desc name := by
    rw [ht.fs]
    exact hname
  refine post_bind ((post_preflight (h.fit.looked ht) (looked_clear ht hno) hct hkt hnt).mono ?_
    fun e u hu => hE e u (becomes_looked h.fit (looked_law.trans ht hu) _))
  intro _ u hr
  obtain ⟨hu, hproper, hfree⟩ := hr
  rw [looked_census ht] at hfree
  have hsu := looked_law.trans ht hu
  have hnu := looked_clear hsu hno
  have hdu : u.fs.desc = s.fs.desc := by
    rw [hsu.fs]
  refine post_bind ((post_createFit (h.fit.looked hsu) hnu mode uid gid (by rw [hdu]; exact hl)
    (by rw [hdu]; exact hdev)).mono ?_ ?_)
  · intro p v hr
    obtain ⟨n, nip⟩ := p
    obtain ⟨hn0, h16, hnone, hwv, hcv, ⟨now, hnip⟩, hview, hcur⟩ := hr
    rw [looked_census hsu] at hnone hcv
    have hnone : (census s).kind n = none := hnone
    have hnip : nip = newInode u.fs.desc n mode uid gid type rdev now := hnip
    have hne : n ≠ dir := by
      rintro rfl
      rw [hdir] at hnone
      cases hnone
    have hsv : Went (fun x => x = dir ∨ (census s).kind x = none) s own v own := by
      refine (went_looked h.fit hsu _).next hwv ?_
      rintro x rfl
      exact .inr hnone
    have hcopy : Current v dir ddir := by
      refine hwv.current ?_ (Ne.symm hne) (hct.looked hu)
      rw [hsu.fs]
      exact (valid_of_kind hdir).1
    refine hk ddir n nip v ⟨hnone, hfree, hproper, ⟨hn0, h16⟩, hne, hsv, hcv, hcopy, hlink, ?_, ?_⟩ hcur ?_
    · have hku : (census u).kind dir = some true := by
        rw [looked_census hsu]
        exact hdir
      exact ((hroom hfree).looked hsu).went (h.fit.looked hsu) hwv (Ne.symm hne) hku
    · rw [hwv.desc]
      exact hview
    · rw [hnip]
      exact ⟨rfl, rfl, rfl⟩
  · intro e v hv
    obtain ⟨hwv, hworld⟩ := hv fun x => x = dir ∨ (census s).kind x = none
    exact hE e v (((went_looked h.fit hsu _).trans hwv).becomes (spared hdir)
      ((congrArg censusOf hworld).trans (looked_census hsu)))

/-- The name is entered and the call is over, or nothing has happened. -/
theorem post_named {type : FileType} (htype : type ≠ .dir) {ddir : Inode} {n : Nat}
    {nip : Inode} {v : Mnt} {own' : Own}
    (hb : Newborn s own dir name type ddir n nip v own') : Post (addOrDestroy dir ddir name n nip v)
      (fun _ t => Becomes (fun x => x = dir ∨ (census s).kind x = none) s own t
        (((census s).born n false 1).enter dir name n))
      (fun _ t => Becomes (fun x => x = dir ∨ (census s).kind x = none) s own t (census s)) := by
  have hd := hb.went.desc
  have hne := hb.ne
  have htyped : (type == .dir) = false := by simpa using htype
  have hcv := hb.made
  rw [htyped, if_neg htype] at hcv
  have hkdir : (census v).kind dir = some true := by
    rw [hcv, Census.born_kind, if_neg (Ne.symm hne)]
    exact hdir
  have hfits : NameOk v.fs.desc name := by rw [hd]; exact hname
  have hfree : (census v).links dir name = none := by rw [hcv]; exact hb.free
  have hcount : ddir.nlink = (census v).nlink dir := by
    rw [hcv, Census.born_nlink, if_neg (Ne.symm hne)]
    exact hb.link
  have hlow : 0 ≤ ddir.nlink := by rw [hb.link]; exact h.nlink_nonneg dir
  have hhigh : ddir.nlink ≤ linkMax v.fs.desc := by rw [hd, hb.link]; exact h.nlink_le dir
  have hkn : (census v).kind n = some false := by rw [hcv, Census.born_kind, if_pos rfl]
  have hspec := post_addOrDestroy hb.went.fit (hb.went.clear h.clear) hb.copy hkdir hfits hfree hb.room hcount
    hlow hhigh hkn hb.small.2 hne hb.view
  apply hspec.mono
  · intro _ w hr
    obtain ⟨own'', hw, hcw⟩ := hr
    have hall : Went (fun x => x = dir ∨ (census s).kind x = none) s own w own'' := by
      refine hb.went.next hw ?_
      intro x hr
      rcases hr with hx | rfl
      · exact .inl hx
      · exact .inr hb.dead
    exact hall.becomes (spared hdir) (by rw [hcw, hcv])
  · intro e w hr
    obtain ⟨own'', hw, hcw⟩ := hr
    exact becomes_gone hb hdir (fun _ => id) hw hcw

/-- `filsys_create_in`. -/
theorem post_createIn (hroom : (census s).links dir name = none → Takes s dir) (mode uid gid : Nat) :
    Post (filsysCreateIn dir name mode uid gid s)
    (fun n t => ((census s).kind n = none ∧ (census s).links dir name = none ∧ Census.ProperName name) ∧
      Becomes (fun x => x = dir ∨ (census s).kind x = none) s own t
      (((census s).born n false 1).enter dir name n))
    (fun _ t => Becomes (fun x => x = dir ∨ (census s).kind x = none) s own t (census s)) := by
  refine post_ite (fun _ => ?_) fun _ => becomes_looked h.fit (looked_law.refl s) _
  have hreg : FileType.reg = .lnk → s.fs.desc.iflnk ≠ 0 := nofun
  refine post_newborn h hdir hname hroom mode uid gid hreg (fun h0 => absurd rfl h0) (fun _ _ he => he)
    fun ddir n nip v hb _ _ => ?_
  have hfile : FileType.reg ≠ .dir := by decide
  exact post_bind ((post_named h hdir hname hfile hb).mono
    (fun _ t ht => ⟨⟨hb.dead, hb.free, hb.proper⟩, ht⟩) fun _ _ he => he)

/-- `filsys_mknod_in`. -/
theorem post_mknodIn (hroom : (census s).links dir name = none → Takes s dir)
    (hed : s.fs.desc.ops = .v1 → s.edition = .v1) (mode rdev uid gid : Nat) :
    Post (filsysMknodIn dir name mode rdev uid gid s)
    (fun _ t => ∃ n, ((census s).kind n = none ∧ (census s).links dir name = none ∧ Census.ProperName name) ∧
      Becomes (fun x => x = dir ∨ (census s).kind x = none) s own t
      (((census s).born n false 1).enter dir name n))
    (fun _ t => Becomes (fun x => x = dir ∨ (census s).kind x = none) s own t (census s)) := by
  have hnothing : Becomes (fun x => x = dir ∨ (census s).kind x = none) s own s (census s) :=
    becomes_looked h.fit (looked_law.refl s) _
  have hdevice : s.edition ≠ .v1 → ∀ type : FileType, type = .chr ∨ type = .blk →
    Post ((readInode dir >>= fun ddir => preflightCreate ddir name >>= fun _ =>
      inodeCreate mode uid gid type rdev >>= fun r => addOrDestroy dir ddir name r.1 r.2 : M Unit) s)
      (fun _ t => ∃ n, ((census s).kind n = none ∧ (census s).links dir name = none ∧ Census.ProperName name) ∧
        Becomes (fun x => x = dir ∨ (census s).kind x = none) s own t
        (((census s).born n false 1).enter dir name n))
      (fun _ t => Becomes (fun x => x = dir ∨ (census s).kind x = none) s own t (census s)) := by
    intro hv type htype
    have hne : type ≠ .lnk ∧ type ≠ .dir := by
      rcases htype with rfl | rfl <;> decide
    refine post_newborn h hdir hname hroom mode uid gid (fun he => absurd he hne.1)
      (fun _ => ⟨fun ho => hv (hed ho), htype⟩) (fun _ _ he => he)
      fun ddir n nip v hb _ _ => ?_
    exact (post_named h hdir hname hne.2 hb).mono (fun _ t ht => ⟨n, ⟨hb.dead, hb.free, hb.proper⟩, ht⟩)
      fun _ _ he => he
  refine post_get (post_ite (fun _ => hnothing) fun _ => post_ite (fun _ => hnothing) fun hv => ?_)
  cases hk : posixType mode with
  | none => exact hnothing
  | some k =>
    cases k with
    | reg =>
      exact post_bind ((post_createIn h hdir hname hroom (mode &&& 0o7777) uid gid).mono
        (fun n t ht => ⟨n, ht⟩) fun _ _ he => he)
    | blk => exact hdevice hv .blk (.inr rfl)
    | dir => exact hdevice hv .chr (.inl rfl)
    | chr => exact hdevice hv .chr (.inl rfl)
    | lnk => exact hdevice hv .chr (.inl rfl)
    | sock => exact hdevice hv .chr (.inl rfl)

/-- `filsys_symlink_in`. -/
theorem post_symlinkIn (hroom : (census s).links dir name = none → Takes s dir)
    {target : Name} (htarget : Mappable s.fs target.length) :
    Post (filsysSymlinkIn target dir name s)
    (fun _ t => ∃ n, ((census s).kind n = none ∧ (census s).links dir name = none ∧ Census.ProperName name) ∧
      Becomes (fun x => x = dir ∨ (census s).kind x = none) s own t
      (((census s).born n false 1).enter dir name n))
    (fun _ t => Becomes (fun x => x = dir ∨ (census s).kind x = none) s own t (census s)) := by
  have hnothing : Becomes (fun x => x = dir ∨ (census s).kind x = none) s own s (census s) :=
    becomes_looked h.fit (looked_law.refl s) _
  refine post_get (post_ite (fun _ => hnothing) fun hlnk => post_ite (fun _ => hnothing) fun _ => ?_)
  refine post_newborn h hdir hname hroom 0o777 s.uid s.gid (fun _ => hlnk) (fun h0 => absurd rfl h0)
    (fun _ _ he => he) fun ddir n nip v hb hcur hnip => ?_
  obtain ⟨hcv, hview⟩ := hcur rfl
  obtain ⟨-, -, hlink⟩ := hnip
  have hkind : (census v).kind n = some false := by
    rw [hb.made, Census.born_kind, if_pos rfl]
    rfl
  have hkdir : (census v).kind dir = some true := by
    rw [hb.made, Census.born_kind, if_neg (Ne.symm hb.ne)]
    exact hdir
  refine post_bind ((post_writeOn hb.went.fit hcv hkind hview ?_ (poke zeroBuf 0 target) ?_).mono ?_
    fun _ _ he => he)
  · rw [hlink, hb.made, Census.born_nlink, if_pos rfl]
  · show (0 + target.length) / v.fs.desc.bsize < 2 ^ 32
    rw [Nat.zero_add, hb.went.desc]
    exact htarget
  intro r w hw
  obtain ⟨rc, nip'⟩ := r
  cases rc with
  | ok m =>
    obtain ⟨own', hww, hfiled, hsame⟩ := hw
    have hcw : census w = census v := congrArg censusOf hsame
    have hbw : Newborn s own dir name .lnk ddir n nip' w own' := by
      refine ⟨hb.dead, hb.free, hb.proper, hb.small, hb.ne, hb.went.next hww ?_, hcw.trans hb.made,
        ?_, hb.link, hb.room.went hb.went.fit hww (Ne.symm hb.ne) hkdir, ?_⟩
      · rintro x rfl
        exact .inr hb.dead
      · refine hww.current ?_ (Ne.symm hb.ne) hb.copy
        exact (shape_validIno hb.went.apart.shape).mpr (valid_of_kind hdir).1
      · intro _
        rw [hww.desc]
        exact hfiled.view
    exact (post_named h hdir hname (by decide) hbw).mono
      (fun _ t ht => ⟨n, ⟨hb.dead, hb.free, hb.proper⟩, ht⟩) fun _ _ he => he
  | error e =>
    obtain ⟨own', hww, -, hview', -, hsame⟩ := hw
    have hcw : census w = census v := congrArg censusOf hsame
    have hvalid : ValidIno w.fs n := (shape_validIno hww.apart.shape).mpr (valid_of_kind hkind).1
    refine post_bind (post_attempt
      ((post_destroyFit hww.fit (hww.clear (hb.went.clear h.clear)) ?_ hvalid).mono ?_ fun _ _ he =>
      he.elim))
    · intro _
      rw [hww.desc]
      exact hview'
    · intro _ u hr
      obtain ⟨own'', hwu, hcu⟩ := hr
      refine becomes_gone hb hdir ?_ (hww.next hwu fun _ hx => hx) (by rw [hcu, hcw])
      exact fun x hx => .inr hx

/-! ## Directories -/

omit h hdir hname in
/-- The tail of a failed `mkdir` takes the new inode down as `inode_destroy` does. -/
theorem post_mkdirFail {v : Mnt} {n : Nat} {ip : Inode} {Q : Mnt → Prop}
    (hd : Post (inodeDestroy n ip v) (fun _ t => Q t) fun _ _ => False) (rc : Option Errno) :
    Post (mkdirFail n ip rc v) (fun _ t => rc = none ∧ Q t) (fun e t => rc = some e ∧ Q t) := by
  unfold inodeDestroy at hd
  unfold mkdirFail
  cases hr : collectOn ip filsysItrunc v with
  | error e t =>
    rw [bind_eq_of_error hr] at hd
    exact hd.elim
  | ok r t =>
    rw [bind_eq_of_ok hr] at hd ⊢
    obtain ⟨rc', l⟩ := r
    cases rc' with
    | error e => exact hd.elim
    | ok _ =>
      have hd : Post ((writeInode n { l.ip with mode := 0 } >>= fun _ => blklistDrain l.bl >>= fun _ =>
        ifree n : M Unit) t) (fun _ t => Q t) fun _ _ => False := hd
      refine post_bind (post_attempt ?_)
      cases hw : writeInode n { l.ip with mode := 0 } t with
      | error e u =>
        rw [bind_eq_of_error hw] at hd
        exact hd.elim
      | ok _ u =>
        rw [bind_eq_of_ok hw] at hd
        refine post_bind (post_onlyIf (fun _ => hd.mono ?_ fun _ _ h => h.elim) fun h => absurd rfl h)
        intro _ w hQ
        cases rc with
        | none => exact ⟨rfl, hQ⟩
        | some e => exact ⟨rfl, hQ⟩

omit hname in
/-- The new directory, with none of its names entered elsewhere, is taken down. -/
theorem post_abandon {ddir : Inode} {n : Nat} {nip nip' : Inode} {v w : Mnt} {own' own'' : Own}
    (hb : Newborn s own dir name .dir ddir n nip v own')
    {T : Nat → Prop} (hT : ∀ x, T x → x = dir ∨ x = n) (hw : Went T v own' w own'')
    (hcw : (census w).gone n = (census v).gone n) (hv : isDataInode w.fs.desc nip' = true →
      View w.fs.desc own'' n nip') (e : Errno) :
    Post (mkdirFail n nip' (some e) w) (fun _ _ => False)
    (fun _ t => Becomes (fun x => x = dir ∨ (census s).kind x = none) s own t (census s)) := by
  have hvalid : ValidIno v.fs n :=
    (valid_of_kind (b := true) (by rw [hb.made, Census.born_kind, if_pos rfl]; rfl)).1
  have hvw : ValidIno w.fs n := (shape_validIno hw.apart.shape).mpr hvalid
  refine (post_mkdirFail (Q :=
    fun t => Becomes (fun x => x = dir ∨ (census s).kind x = none) s own t (census s))
    ((post_destroyFit hw.fit (hw.clear (hb.went.clear h.clear)) hv hvw).mono ?_ fun _ _ h => h)
    (some e)).mono (fun _ _ h => nomatch h.1) fun _ _ h => h.2
  intro _ t hr
  obtain ⟨own₃, ht, hct⟩ := hr
  refine becomes_gone hb hdir (T := fun x => x = dir ∨ x = n) (fun _ => id)
    ((hw.mono hT).next ht fun _ => .inr) ?_
  rw [hct, hcw]

/-- The new directory is entered in its parent, whose count goes up. -/
theorem post_mkdirEnter (hcount : (census s).nlink dir < linkMax s.fs.desc) {ddir : Inode} {n : Nat}
    {nip nip' : Inode} {v w : Mnt} {own' own'' : Own}
    (hb : Newborn s own dir name .dir ddir n nip v own')
    (hw : Went (· = n) v own' w own'') (hcw : census w = ((census v).enter n dot n).enter n dotdot dir)
    (hv : isDataInode w.fs.desc nip' = true → View w.fs.desc own'' n nip') :
    Post (mkdirEnter dir ddir name n nip' w)
      (fun _ t => Becomes (fun x => x = dir ∨ (census s).kind x = none) s own t ((census s).grow dir name n))
      (fun _ t => Becomes (fun x => x = dir ∨ (census s).kind x = none) s own t (census s)) := by
  have hne := hb.ne
  have hnw := hw.clear (hb.went.clear h.clear)
  have hd : w.fs.desc = s.fs.desc := hw.desc.trans hb.went.desc
  have hmade : census v = (census s).born n true 2 := hb.made
  have hcopy : Current w dir ddir := by
    refine hw.current ?_ (Ne.symm hne) hb.copy
    exact (shape_validIno hb.went.apart.shape).mpr (valid_of_kind hdir).1
  have hkd : (census w).kind dir = some true := by
    rw [hcw, hmade]
    exact (if_neg (Ne.symm hne)).trans hdir
  have hfree : (census w).links dir name = none := by
    rw [hcw, hmade]
    simp only [Census.enter_links, Census.born_links]
    rw [Links.put_dir _ _ _ _ (Ne.symm hne), Links.put_dir _ _ _ _ (Ne.symm hne)]
    exact hb.free
  have hnn := h.nlink_nonneg dir
  have hle := linkMax_le s.fs.desc
  have hlink := hb.link
  have hkdir : (census v).kind dir = some true := by
    rw [hmade, Census.born_kind, if_neg (Ne.symm hne)]
    exact hdir
  have hgone : (census w).gone n = (census v).gone n := by
    rw [hcw, Census.gone_enter, Census.gone_enter]
  refine post_bind ((post_addFit hw.fit hnw hcopy hkd (by rw [hd]; exact hname) hfree hb.small.1
    hb.small.2 (hb.room.went hb.went.fit hw (Ne.symm hne) hkdir)
    (by omega) (by rw [hd]; omega)).mono ?_ fun _ _ h => h)
  intro r x hx
  obtain ⟨rc, ddir'⟩ := r
  cases rc with
  | ok _ =>
    obtain ⟨own₃, hwx, hcur, hsame, -, hcx⟩ := hx
    have hsame : ddir'.nlink = ddir.nlink := hsame
    have hmod : (mod16 ddir' 1).nlink = (census s).nlink dir + 1 := by
      show toInt16 (ddir'.nlink + 1) = _
      rw [hsame, hlink]
      exact toInt16_fit (by omega) (by omega)
    have hdx : x.fs.desc = s.fs.desc := hwx.desc.trans hd
    have hcur : Current x dir (mod16 ddir' 1) := hcur.relinked _
    refine post_bind (post_attempt
      ((post_outFit hwx.fit (hwx.clear hnw) hcur (b := true) (by rw [hcx]; exact hkd) (by rw [hmod]; omega)
      (by rw [hmod, hdx]; omega)).mono ?_ fun _ _ h => h.elim))
    intro _ t hr
    obtain ⟨ht, -, hct⟩ := hr
    have hrest : Went (fun y => y = dir ∨ y = n) v own' t own₃ :=
      (hw.mono fun _ => .inr).trans ((hwx.trans ht).mono fun _ => .inl)
    have hall : Went (fun x => x = dir ∨ (census s).kind x = none) s own t own₃ := by
      refine hb.went.next hrest ?_
      intro y hr
      rcases hr with hy | rfl
      · exact .inl hy
      · exact .inr hb.dead
    refine hall.becomes (spared hdir) ?_
    rw [hct, hmod, hcx, Census.relink_relink, hcw, hmade]
    rfl
  | error e =>
    obtain ⟨-, own₃, hwx, hcur, hworld, -⟩ := hx
    have hcx : census x = census w := congrArg censusOf hworld
    have hdx := hwx.desc
    have hwd := post_withdraw hwx.fit (hwx.clear hnw) (by rw [hcx]; exact hkd)
      (by rw [hdx, hd]; exact hname) (by rw [hcx]; exact hfree) n
    refine post_bind (post_attempt (hwd.mono ?_ fun _ _ h => h.elim))
    intro _ y hy
    have hwy : Went (fun y => y = dir ∨ y = n) v own' y own₃ :=
      (hw.mono fun _ => .inr).trans ((hwx.mono fun _ => .inl).trans (went_looked hwx.fit hy _))
    refine (post_abandon h hdir hb (fun _ => id) hwy (by rw [looked_census hy, hcx, hgone]) ?_ e).mono
      (fun _ _ h => h.elim) fun _ _ h => h
    have hdy : y.fs.desc = w.fs.desc := by
      rw [hy.fs, hdx]
    rw [hdy]
    intro hdata slot hs hslot
    exact hwx.apart.held _ _ _ (hv hdata slot hs hslot) hne

/-- `filsys_mkdir_in`. -/
theorem post_mkdirIn (hroom : (census s).links dir name = none → Takes s dir)
    (hcount : (census s).links dir name = none → (census s).nlink dir < linkMax s.fs.desc)
    (mode uid gid : Nat) : Post (filsysMkdirIn dir name mode uid gid s)
    (fun _ t => ∃ n, ((census s).kind n = none ∧ (census s).links dir name = none ∧ Census.ProperName name) ∧
      Becomes (fun x => x = dir ∨ (census s).kind x = none) s own t ((census s).grow dir name n))
    (fun _ t => Becomes (fun x => x = dir ∨ (census s).kind x = none) s own t (census s)) := by
  refine post_ite (fun _ => ?_) fun _ => becomes_looked h.fit (looked_law.refl s) _
  have hkind : FileType.dir = .lnk → s.fs.desc.iflnk ≠ 0 := nofun
  refine post_newborn h hdir hname hroom mode uid gid hkind (fun h0 => absurd rfl h0) (fun _ _ he => he)
    fun ddir n nip v hb hcur hnip => ?_
  obtain ⟨hcv, hview⟩ := hcur rfl
  obtain ⟨-, hsize, hlink⟩ := hnip
  have hlink : nip.nlink = 2 := hlink
  have hmade : census v = (census s).born n true 2 := hb.made
  have hkn : (census v).kind n = some true := by
    rw [hmade, Census.born_kind, if_pos rfl]
  have hbare : ∀ l, (census v).links n l = none := by
    rw [hmade]
    exact (censusOf_dead (kind_eq_none.mp hb.dead)).2
  have hd := hb.went.desc
  have hmax := linkMax_ge s.fs.desc
  have hfresh := h.fresh
  have hdots := h.dots
  have hnv := hb.went.clear h.clear
  have hdot : NameOk v.fs.desc dot := by
    refine ⟨nofun, ?_, by decide, by decide⟩
    rw [hd]
    exact Nat.le_trans (by decide) hdots
  have hroomv : nip.size + v.fs.desc.direntSize ≤ maxFile v.fs.desc := by
    rw [hd, hsize]
    omega
  -- the first entry
  refine post_bind ((post_addFit hb.went.fit hnv hcv hkn hdot (hbare dot) hb.small.1 hb.small.2
    (takes_of_size hcv hroomv) (by rw [hlink]; decide)
    (by rw [hlink, hd]; omega)).mono ?_ fun _ _ he => he)
  intro r w hw
  obtain ⟨rc, nip₁⟩ := r
  cases rc with
  | error e =>
    obtain ⟨-, own₁, hw, -, hworld, hview₁⟩ := hw
    refine (post_abandon h hdir hb (fun x => .inr) hw
      (congrArg (Census.gone · n) (congrArg censusOf hworld)) (fun _ => ?_) e).mono
      (fun _ _ he => he.elim) fun _ _ he => he
    rw [hw.desc]
    exact hview₁
  | ok _ =>
    obtain ⟨own₁, hw, hcw, hlink₁, hsize₁, hcensus₁⟩ := hw
    have hlink₁ : nip₁.nlink = 2 := hlink₁.trans hlink
    have hsize₁ : nip₁.size ≤ s.fs.desc.direntSize := by
      rw [hd, hsize, Nat.zero_add] at hsize₁
      exact hsize₁
    have hcensus₁ : census w = (census v).enter n dot n := by
      rw [hcensus₁]
      apply Census.relink_same
      rw [Census.enter_nlink, hmade, Census.born_nlink, if_pos rfl, hlink]
    have hkw : (census w).kind n = some true := by
      rw [hcensus₁]
      exact hkn
    have hdw : w.fs.desc = s.fs.desc := hw.desc.trans hd
    have hfree : (census w).links n dotdot = none := by
      rw [hcensus₁, Census.enter_links, Links.put_name _ _ _ _ (by decide)]
      exact hbare dotdot
    have hup : NameOk w.fs.desc dotdot := by
      refine ⟨nofun, ?_, by decide, by decide⟩
      rw [hdw]
      exact hdots
    obtain ⟨hdir0, hdir16⟩ := h.dir_lt hdir
    have hroomw : nip₁.size + w.fs.desc.direntSize ≤ maxFile w.fs.desc := by
      rw [hdw]
      omega
    -- the second
    refine post_bind ((post_addFit hw.fit (hw.clear hnv) hcw hkw hup hfree hdir0 hdir16
      (takes_of_size hcw hroomw)
      (by rw [hlink₁]; decide) (by rw [hlink₁, hdw]; omega)).mono ?_ fun _ _ he => he)
    intro r x hx
    obtain ⟨rc, nip₂⟩ := r
    cases rc with
    | error e =>
      obtain ⟨-, own₂, hx, -, hworld, hview₂⟩ := hx
      have hgone : (census x).gone n = (census v).gone n := by
        rw [show census x = census w from congrArg censusOf hworld, hcensus₁, Census.gone_enter]
      refine (post_abandon h hdir hb (fun x => .inr) (hw.trans hx) hgone (fun _ => ?_) e).mono
        (fun _ _ he => he.elim) fun _ _ he => he
      rw [hx.desc]
      exact hview₂
    | ok _ =>
      obtain ⟨own₂, hx, hcx, hlink₂, -, hcensus₂⟩ := hx
      have hcensus₂ : census x = ((census v).enter n dot n).enter n dotdot dir := by
        rw [hcensus₂, hlink₁, hcensus₁]
        apply Census.relink_same
        rw [Census.enter_nlink, Census.enter_nlink, hmade, Census.born_nlink, if_pos rfl]
      have hkx : (census x).kind n = some true := by
        rw [hcensus₂]
        exact hkn
      have henter := post_mkdirEnter h hdir hname (hcount hb.free) hb (hw.trans hx) hcensus₂
        (Current.data_view hx.fit hcx hkx)
      exact henter.mono (fun _ t ht => ⟨n, ⟨hb.dead, hb.free, hb.proper⟩, ht⟩) fun _ _ he => he

end Make

end Filsys.Names
