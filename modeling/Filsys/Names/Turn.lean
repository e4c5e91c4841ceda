/-
  Filsys.Names.Turn — what the engine's routines do to the names (filsys.c).

  `Turned` is the common account of a routine: a path of steps after which the volume is
  sound again and inodes outside `T` are as they were. For each routine the namespace
  operations are made of, the theorems below say in addition which node of the picture has
  become what.
-/

import Filsys.Names.World

namespace Filsys.Names

open Filsys.Lib Filsys.Engine Filsys.Alloc Filsys.Tree

/-! ## Kinds -/

section Kinds

variable {d : Desc} (h : Modes d)

include h

/-- Promotion leaves a mode word's type and life. -/
theorem kind_kept {ip ip' : Inode} (hm : ip'.mode = ip.mode ∨ ip'.mode = ip.mode ||| d.ilargMask) :
    modeIsDir d ip' = modeIsDir d ip ∧ (inodeLive d ip.mode = true → inodeLive d ip'.mode = true) ∧
    (ip.mode < 65536 → ip'.mode < 65536) := by
  rcases hm with hm | hm
  · unfold modeIsDir
    rw [hm]
    exact ⟨rfl, id, id⟩
  have hw : ∀ {w : Desc}, modeWords d = modeWords w → d.ops = w.ops ∧ d.ifmt = w.ifmt ∧
    d.ifdir = w.ifdir ∧ d.iallocated = w.iallocated ∧
      d.ilargMask = w.ilargMask := fun h =>
    ⟨congrArg ModeWords.ops h, congrArg ModeWords.ifmt h, congrArg ModeWords.ifdir h,
      congrArg ModeWords.iallocated h, congrArg ModeWords.ilargMask h⟩
  have hor : ∀ {a : Nat}, 0o10000 &&& a = 0 → (ip.mode ||| 0o10000) &&& a = ip.mode &&& a := by
    intro a ha
    rw [Nat.and_or_distrib_right, ha, Nat.or_zero]
  have hlt : ip.mode < 65536 → ip.mode ||| 0o10000 < 65536 := fun h => Nat.or_lt_two_pow (n := 16) h (by decide)
  have hsame : d.ilargMask = 0 → ip'.mode = ip.mode := fun h0 => by rw [hm, h0, Nat.or_zero]
  have hplain : d.ilargMask = 0 → modeIsDir d ip' = modeIsDir d ip ∧ (inodeLive d ip.mode = true →
    inodeLive d ip'.mode = true) ∧
      (ip.mode < 65536 → ip'.mode < 65536) := by
    intro h0
    unfold modeIsDir
    rw [hsame h0]
    exact ⟨rfl, id, id⟩
  rcases h.cases with h | h | h | h | h
  · obtain ⟨ho, -, -, ha, hl⟩ := hw h
    rw [hm, hl]
    refine ⟨?_, ?_, hlt⟩
    · unfold modeIsDir
      rw [ho]
      show has ip'.mode 0o040000 = has ip.mode 0o040000
      unfold has
      rw [hm, hl, show descV1.ilargMask = 0o10000 from rfl, hor (by decide)]
    · intro _
      unfold inodeLive
      rw [ha]
      show (ip.mode ||| 0o10000 != 0) = true
      rw [bne_iff_ne]
      intro h0
      have := (Nat.or_eq_zero_iff.mp h0).2
      cases this
  · obtain ⟨ho, hf, hdir, ha, hl⟩ := hw h
    rw [hm, hl]
    refine ⟨?_, ?_, hlt⟩
    · unfold modeIsDir
      rw [ho, hf, hdir]
      show (ip'.mode &&& 0o060000 == 0o040000) = (ip.mode &&& 0o060000 == 0o040000)
      rw [hm, hl, show descV6.ilargMask = 0o10000 from rfl, hor (by decide)]
    · intro hlive
      unfold inodeLive at hlive ⊢
      rw [ha] at hlive ⊢
      show has (ip.mode ||| 0o10000) 0o100000 = true
      unfold has
      rw [hor (by decide)]
      exact hlive
  · exact hplain (hw h).2.2.2.2
  · exact hplain (hw h).2.2.2.2
  · exact hplain (hw h).2.2.2.2

/-- A file that has data is no device. -/
theorem device_of_data {ip : Inode} (hdata : isDataInode d ip = true) : modeIsDevice d ip = false := by
  unfold isDataInode at hdata
  have hwords : ∀ {w : Desc}, w.ops ≠ .v1 → w.ops ≠ .pdp7 → modeWords d = modeWords w →
      (∀ t, (t == w.ifreg || t == w.ifdir || (w.iflnk != 0 && t == w.iflnk)) = true →
        (t == w.ifchr || t == w.ifblk || (w.ifmpc != 0 && t == w.ifmpc) ||
          (w.ifmpb != 0 && t == w.ifmpb)) = false) →
      modeIsDevice d ip = false := by
    intro w h1 h7 hw ht
    have hops : d.ops = w.ops := congrArg ModeWords.ops hw
    have hreg : d.ifreg = w.ifreg := congrArg ModeWords.ifreg hw
    have hdir : d.ifdir = w.ifdir := congrArg ModeWords.ifdir hw
    have hlnk : d.iflnk = w.iflnk := congrArg ModeWords.iflnk hw
    have hchr : d.ifchr = w.ifchr := congrArg ModeWords.ifchr hw
    have hblk : d.ifblk = w.ifblk := congrArg ModeWords.ifblk hw
    have hmpc : d.ifmpc = w.ifmpc := congrArg ModeWords.ifmpc hw
    have hmpb : d.ifmpb = w.ifmpb := congrArg ModeWords.ifmpb hw
    rw [← hops] at h1 h7
    unfold modeIsDevice
    split
    · exact absurd ‹_› h1
    · exact absurd ‹_› h7
    · split at hdata
      · exact absurd ‹_› h1
      · exact absurd ‹_› h7
      · rw [hreg, hdir, hlnk] at hdata
        show (_ == d.ifchr || _ == d.ifblk || (d.ifmpc != 0 && _ == d.ifmpc) ||
          (d.ifmpb != 0 && _ == d.ifmpb)) = false
        rw [hchr, hblk, hmpc, hmpb]
        exact ht _ hdata
  rcases h.cases with h | h | h | h | h
  · have hops : d.ops = .v1 := congrArg ModeWords.ops h
    rw [hops] at hdata
    simpa using hdata
  all_goals
    refine hwords (by decide) (by decide) h fun t ht => ?_
    simp [descV6, descV7, descV8, descBsd211] at ht ⊢
    omega

end Kinds

/-! ## Turns -/

/-- The volume is sound again, and inodes outside `T` are as they were. -/
structure Turned (T : Nat → Prop) (s : Mnt) (own : Own) (t : Mnt) (own' : Own) : Prop where
  apart : Apart T s own t own'
  sound : Sound t own'

/-- No inode number has been taken or given back, either. -/
structure Steady (T : Nat → Prop) (s : Mnt) (own : Own) (t : Mnt) (own' : Own) :
    Prop extends Turned T s own t own' where
  ino : SameIno s t

section Turned

variable {T T' : Nat → Prop} {s t u : Mnt} {own own' own'' : Own}

theorem Turned.trans (h : Turned T s own t own') (h' : Turned T t own' u own'') : Turned T s own u own'' :=
  ⟨h.apart.trans h'.apart, h'.sound⟩

theorem Turned.mono (h : Turned T s own t own') (hT : ∀ k, T k → T' k) : Turned T' s own t own' :=
  ⟨h.apart.mono hT, h.sound⟩

theorem Turned.desc (h : Turned T s own t own') : t.fs.desc = s.fs.desc := shape_desc h.apart.shape

theorem Turned.fault (h : Turned T s own t own') : Fault t ↔ Fault s := by
  unfold Fault
  rw [h.apart.env]

theorem Steady.trans (h : Steady T s own t own') (h' : Steady T t own' u own'') : Steady T s own u own'' :=
  ⟨h.toTurned.trans h'.toTurned, sameIno_law.trans h.ino h'.ino⟩

theorem Steady.mono (h : Steady T s own t own') (hT : ∀ k, T k → T' k) : Steady T' s own t own' :=
  ⟨h.toTurned.mono hT, h.ino⟩

theorem steady_looked (hs : Sound s own) (ht : Looked s t) : Steady T s own t own ∧ worldOf t = worldOf s := by
  have hidle := ht.idle
  obtain ⟨k, hk, rfl⟩ := ht
  exact ⟨⟨⟨.of_looked ⟨k, hk, rfl⟩ _ own, hs.turn (T := fun _ => False) (.of_looked ⟨k, hk, rfl⟩ _ own)
    (owned_idle hs.owned hidle) hs.map fun _ => False.elim⟩, fun hsolo => ⟨hsolo, rfl⟩⟩, rfl⟩

/-- A copy of an inode out of reach stays current. -/
theorem Turned.current (h : Turned T s own t own') {n : Nat} (hn : ValidIno s.fs n) (hT : ¬ T n)
    {ip : Inode} (hc : Current s n ip) : Current t n ip := by
  have hrec := record_apart h.apart hn hT
  refine ⟨hc.ino, ?_, ?_, ?_⟩
  · rw [hrec]
    exact hc.mode
  · rw [hrec]
    exact hc.size
  · intro i hi
    rw [hrec]
    rw [h.desc] at hi
    exact hc.addr i hi

theorem Turned.world (hs : Sound s own) (h : Turned T s own t own') {k : Nat} (hk : ¬ T k) :
    worldOf t k = worldOf s k := world_apart hs h.apart hk

end Turned

/-- V1's map stays true while no inode comes to life. -/
theorem mapTrue_kept {s t : Mnt} (hm : MapTrue s) (hv : SameVol s t) (hsolo : Solo s) (hi : SameIno s t)
    (hlive : ∀ k, ValidIno s.fs k → Live s.fs t.img k → Live s.fs s.img k) : MapTrue t :=
  hm.frame hv (fun i hb => .inl (by rw [← hi.inodemap hsolo]; exact hb)) fun k hk _ hl => hlive k hk hl

theorem post_onIp {α : Type} {ip : Inode} {x : MI α} {s : Mnt} {Q : Except Errno α × Inode → Mnt → Prop}
    {E : Errno → Mnt → Prop}
    (hx : Post (x (s, ⟨ip, []⟩)) (fun a t => Q (.ok a, t.2.ip) t.1)
      (fun e t => Q (.error e, t.2.ip) t.1)) : Post (onIp ip x s) Q E :=
  post_bind (post_inside (hx.mono (fun _ _ hq => hq) fun _ _ he => he))

theorem Sound.bsize_pos {s : Mnt} {own : Own} (hs : Sound s own) : 0 < s.fs.desc.bsize :=
  Nat.lt_of_lt_of_le (by decide) hs.owned.mounted.bsize

/-- A current copy of a live directory describes it. -/
theorem Sound.folder {s : Mnt} {own : Own} (hs : Sound s own) {n : Nat} {ip : Inode}
    (hc : Current s n ip) {nd : Node} (hn : worldOf s n = some nd)
    (hdir : nd.dir = true) : Folder s own n ip := by
  obtain ⟨hvalid, hlive, hisdir, -⟩ := worldOf_some hn
  exact (hc.folder hs.owned.layout.toRecordLayout hs.bsize_pos).mpr (hs.folders n hvalid hlive (hisdir ▸ hdir))

/-- Its entries are those of the picture. -/
theorem Sound.listing {s : Mnt} {own : Own} (hs : Sound s own) {n : Nat} {ip : Inode}
    (hc : Current s n ip) {k : Int} {L : List Dirent}
    (hn : worldOf s n = some ⟨true, k, L⟩) : listing s.fs s.img ip = L := by
  rw [hc.listing hs.format.fixed.width (hs.folder hc hn rfl).size_lt]
  exact (worldOf_dir.mp hn).2.2.2

/-! ## A record goes out -/

section Out

variable {s : Mnt} {own : Own} (hs : Sound s own) {n : Nat} {ip : Inode} (hc : Current s n ip)
    {nd : Node} (hn : worldOf s n = some nd)

include hs hc hn

/-- The link count of `n` is that of the copy. -/
theorem post_out : Post (writeInode n ip s)
    (fun _ t => Steady (· = n) s own t own ∧ Current t n ip ∧
      worldOf t = set (worldOf s) n (some { nd with nlink := storeNlink s.fs.desc ip.nlink }))
    (fun _ _ => Fault s) := by
  obtain ⟨hvalid, hlive, hdir, -⟩ := worldOf_some hn
  have hlayout := hs.owned.layout.toRecordLayout
  have hrec := stored_recordOf hlayout s.img n
  have hview : HoldsBlocks s.fs.desc n ip.mode → View s.fs.desc own n ip := by
    intro hh
    rw [hc.mode] at hh
    exact hc.view.mpr (hs.owned.disk n hvalid hh)
  have hspec := (post_inodeOut hs.owned n ip).and (sameIno_law.writeInode n ip s)
  cases hr : writeInode n ip s with
  | error e t =>
    rw [hr] at hspec
    exact hspec.1.2 hvalid
  | ok _ t =>
    rw [hr] at hspec
    obtain ⟨hout, hino⟩ := hspec
    have hd := shape_desc hout.shape
    have hrecs : recordOf t.fs = recordOf s.fs := shape_recordOf hout.shape
    have hst := hout.stored
    have hpath : Path anything s own t own := .one (.inode trivial hview hr)
    have hot := hpath.owned hs.owned
    have hcur : Current t n ip := by
      rw [← hrecs] at hst
      refine ⟨hc.ino, ?_, ?_, ?_⟩
      · rw [hst.mode, hc.mode]
        exact hrec.mode
      · rw [hst.size, hc.size]
        exact hrec.size
      · intro i hi
        rw [hd] at hi
        rw [hst.addr i hi, hc.addr i hi]
        exact hrec.addr i hi
    have hlive' : Live t.fs t.img n := by
      unfold Live
      rw [← hcur.mode, hc.mode, hd]
      exact hlive
    have hfold : modeIsDir s.fs.desc (recordOf s.fs s.img n) = true →
      Folder t own n ip ∧ listing t.fs t.img ip = listing s.fs s.img ip := by
      intro hisdir
      have hf := hs.folder hc hn (hdir.trans hisdir)
      exact folder_still hs (hout.still hs.owned n) hf.view hf
    have hmap : MapTrue t := by
      refine mapTrue_kept hs.map hout.toSameVol hs.owned.mounted.solo hino fun k hk hl => ?_
      by_cases hkn : k = n
      · rw [hkn]
        exact hlive
      · exact (live_congr (hout.recs k hk hkn)).mp hl
    have hisdir : modeIsDir t.fs.desc (recordOf t.fs t.img n) =
      modeIsDir s.fs.desc (recordOf s.fs s.img n) := by
      rw [← hcur.isDir, hd, hc.isDir]
    have hsound : Sound t own := by
      refine hs.turn (hout.apart hs.owned) hot hmap fun k hk _ _ hdirk => ?_
      obtain rfl : k = n := hk
      rw [hisdir] at hdirk
      have hlt : RecordLayout t.fs.desc := by
        rw [hd]
        exact hlayout
      exact (hcur.folder hlt (Nat.lt_of_lt_of_le (by decide) hot.mounted.bsize)).mp (hfold hdirk).1
    refine ⟨⟨⟨hout.apart hs.owned, hsound⟩, hino⟩, hcur, ?_⟩
    funext k
    by_cases hk : k = n
    · subst hk
      rw [set_self, worldOf_live ((shape_validIno hout.shape).mpr hvalid) hlive', hisdir]
      have hnd := hn
      rw [worldOf_live hvalid hlive] at hnd
      cases hnd
      congr 2
      · rw [hrecs]
        exact hst.nlink
      · by_cases hdirk : modeIsDir s.fs.desc (recordOf s.fs s.img k) = true
        · rw [if_pos hdirk, if_pos hdirk]
          have hf := hfold hdirk
          have hold := hs.folder hc hn hdirk
          rw [← hcur.listing (by rw [hd]; exact hs.format.fixed.width) hf.1.size_lt, hf.2,
            hc.listing hs.format.fixed.width hold.size_lt]
        · rw [if_neg hdirk, if_neg hdirk]
    · rw [set_ne _ _ hk]
      exact world_apart hs (hout.apart hs.owned) hk

end Out

/-! ## A file is written -/

/-- The file of `n` has changed, and its record has gone out as `ip'`. -/
structure Changed (n : Nat) (s : Mnt) (own : Own) (ip : Inode) (t : Mnt) (own' : Own) (ip' : Inode) : Prop where
  owned : Owned t own'
  apart : Apart (· = n) s own t own'
  view : View s.fs.desc own' n ip'
  stored : Stored s.fs.desc n ip' (recordOf s.fs t.img n)
  ino : ip'.ino = ip.ino
  nlink : ip'.nlink = ip.nlink
  mode : ip'.mode = ip.mode ∨ ip'.mode = ip.mode ||| s.fs.desc.ilargMask

section Edit

variable {s t : Mnt} {own own' : Own} (hs : Sound s own) {n : Nat} {ip ip' : Inode}
    (hc : Current s n ip) {nd : Node} (hn : worldOf s n = some nd)
  (hino : SameIno s t)

include hs hc hn hino

/-- What has gone out is what the copy says. -/
theorem steady_changed (he : Changed n s own ip t own' ip') (hsize : ip'.size < 2 ^ sizeLen s.fs.desc)
    (hf : nd.dir = true → Folder t own' n ip') :
    Steady (· = n) s own t own' ∧ Current t n ip' ∧
      worldOf t = set (worldOf s) n (some ⟨nd.dir, storeNlink s.fs.desc ip.nlink,
        if nd.dir then listing t.fs t.img ip' else []⟩) := by
  obtain ⟨hvalid, hlive, hdir, -⟩ := worldOf_some hn
  have hd := shape_desc he.apart.shape
  have hrecs : recordOf t.fs = recordOf s.fs := shape_recordOf he.apart.shape
  have hlayout := hs.owned.layout.toRecordLayout
  have hot := he.owned
  obtain ⟨hkind, hlives, hlt⟩ := kind_kept hs.format.modes he.mode
  have hmode : ip.mode < 65536 := by
    have := (stored_recordOf hlayout s.img n).mode
    rw [hc.mode, this]
    exact Nat.mod_lt _ (by decide)
  have hst := he.stored
  rw [← hrecs, ← hd] at hst
  have hcur : Current t n ip' := by
    refine current_of_stored hot (by rw [hd]; exact he.view) (he.ino.trans hc.ino) (hlt hmode) ?_ hst
    rw [hd]
    exact hsize
  have hlive' : Live t.fs t.img n := by
    unfold Live at hlive ⊢
    rw [← hcur.mode, hd, Nat.mod_eq_of_lt (hlt hmode)]
    apply hlives
    rw [← hc.mode, Nat.mod_eq_of_lt hmode] at hlive
    exact hlive
  have hisdir : modeIsDir t.fs.desc (recordOf t.fs t.img n) = nd.dir := by
    rw [← hcur.isDir, hd, hkind, hc.isDir, hdir]
  have hmap : MapTrue t := by
    refine mapTrue_kept hs.map he.apart.toSameVol hs.owned.mounted.solo hino fun k hk hl => ?_
    by_cases hkn : k = n
    · rw [hkn]
      exact hlive
    · exact (live_congr (he.apart.recs k hk hkn)).mp hl
  have hfold : nd.dir = true → Folder t own' n (recordOf t.fs t.img n) := by
    intro hdirn
    have hlt : RecordLayout t.fs.desc := by
      rw [hd]
      exact hlayout
    exact (hcur.folder hlt (Nat.lt_of_lt_of_le (by decide) hot.mounted.bsize)).mp (hf hdirn)
  refine ⟨⟨⟨he.apart, hs.turn he.apart hot hmap ?_⟩, hino⟩, hcur, ?_⟩
  · intro k hk _ _ hdirk
    obtain rfl : k = n := hk
    exact hfold (hisdir.symm.trans hdirk)
  · funext k
    by_cases hk : k = n
    · subst hk
      rw [set_self, worldOf_live ((shape_validIno he.apart.shape).mpr hvalid) hlive', hisdir]
      congr 2
      · rw [hst.nlink, he.nlink, hd]
      · split
        · rename_i hdirk
          exact (hcur.listing (by rw [hd]; exact hs.format.fixed.width) (hf hdirk).size_lt).symm
        · rfl
    · rw [set_ne _ _ hk]
      exact world_apart hs he.apart hk

theorem steady_edited (he : Edited anything n s own ip t own' ip')
    (hfits : ip'.size ≤ maxFile s.fs.desc) (hf : nd.dir = true → Folder t own' n ip') :
    Steady (· = n) s own t own' ∧ Current t n ip' ∧
      worldOf t = set (worldOf s) n (some ⟨nd.dir, storeNlink s.fs.desc ip.nlink,
        if nd.dir then listing t.fs t.img ip' else []⟩) :=
  steady_changed hs hc hn hino ⟨he.path.owned hs.owned, he.apart, he.view, he.stored, he.ino, he.nlink,
    he.mode⟩ (Nat.lt_of_le_of_lt hfits hs.format.sizes) hf

/-- Blocks have come to the file, and its record has not gone out. -/
theorem steady_framed (hpath : Path anything s own t own') {A : List Nat → Prop}
    (hframe : Frame n A s own t own')
    (hfold : nd.dir = true → Folder t own' n ip ∧ listing t.fs t.img ip = listing s.fs s.img ip) :
    Steady (· = n) s own t own' ∧ Current t n ip ∧ worldOf t = worldOf s := by
  obtain ⟨hvalid, hlive, hdir, -⟩ := worldOf_some hn
  have ha : Apart (· = n) s own t own' := .of_frame hframe hs.owned.mounted
  have hd := shape_desc ha.shape
  have hot := hpath.owned hs.owned
  have hrec : ∀ k, ValidIno s.fs k → recordOf t.fs t.img k = recordOf s.fs s.img k :=
    fun k hk => hframe.record hs.owned.mounted hk
  have hlive' : ∀ k, ValidIno s.fs k → (Live t.fs t.img k ↔ Live s.fs s.img k) := by
    intro k hk
    unfold Live
    rw [hrec k hk, hd]
  have hcur : Current t n ip := by
    refine ⟨hc.ino, ?_, ?_, ?_⟩
    · rw [hrec n hvalid]
      exact hc.mode
    · rw [hrec n hvalid]
      exact hc.size
    · intro i hi
      rw [hrec n hvalid]
      rw [hd] at hi
      exact hc.addr i hi
  have hmap : MapTrue t := by
    refine mapTrue_kept hs.map ha.toSameVol hs.owned.mounted.solo hino fun k hk hl => ?_
    rw [← shape_live ha.shape] at hl
    exact (hlive' k hk).mp hl
  have hlayout : RecordLayout t.fs.desc := by
    rw [hd]
    exact hs.owned.layout.toRecordLayout
  refine ⟨⟨⟨ha, hs.turn ha hot hmap ?_⟩, hino⟩, hcur, ?_⟩
  · intro k hk _ _ hdirk
    obtain rfl : k = n := hk
    rw [hrec k hvalid, hd] at hdirk
    exact (hcur.folder hlayout (Nat.lt_of_lt_of_le (by decide) hot.mounted.bsize)).mp
      (hfold (hdir.trans hdirk)).1
  · funext k
    by_cases hk : k = n
    · subst hk
      rw [worldOf_live ((shape_validIno ha.shape).mpr hvalid) ((hlive' k hvalid).mpr hlive),
        worldOf_live hvalid hlive, hrec k hvalid, hd]
      by_cases hdirk : modeIsDir s.fs.desc (recordOf s.fs s.img k) = true
      · rw [if_pos hdirk, if_pos hdirk]
        have hf := hfold (hdir.trans hdirk)
        have hold := hs.folder hc hn (hdir.trans hdirk)
        rw [← hrec k hvalid, ← hcur.listing (by rw [hd]; exact hs.format.fixed.width) hf.1.size_lt,
          hf.2, hc.listing hs.format.fixed.width hold.size_lt,
          hrec k hvalid]
      · rw [if_neg hdirk, if_neg hdirk]
    · exact world_apart hs ha hk

/-- A write that fails for want of space changes no name. -/
theorem steady_spared (hsp : Spared anything n s own ip t own' ip') (hno : ¬ Fault s) :
    Steady (· = n) s own t own' ∧ Current t n ip ∧ worldOf t = worldOf s := by
  have hd := shape_desc hsp.frame.shape
  refine steady_framed hs hc hn hino hsp.path hsp.frame fun hdirn => ?_
  have hf := hs.folder hc hn hdirn
  refine ⟨⟨?_, hf.ino, ?_, ?_, hsp.solid hno⟩, listing_congr hs.format.fixed.width hd rfl (hsp.bytes hno)⟩
  · rw [hd]
    exact hf.view.grows hsp.frame.grows
  · rw [hd]
    exact hf.framed
  · rw [hd]
    exact hf.fits

end Edit

/-! ## Directories -/

section Directory

variable {s : Mnt} {own : Own} (hs : Sound s own) {n : Nat} {ip : Inode} (hc : Current s n ip)
    {k : Int} {L : List Dirent}
  (hn : worldOf s n = some ⟨true, k, L⟩) {name : Name}

include hs hc hn

theorem post_lookupIn (h0 : 0 ∉ name) : Post (lookupIn ip name s)
    (fun r t => (∃ e, lookup L (stem s.fs.desc name) = some e ∧ e.1 = r) ∧ Looked s t)
    (fun e t => (e = .enoent ∧ lookup L (stem s.fs.desc name) = none ∨ Fault s) ∧ Looked s t) := by
  have hspec := post_dirLookup (l := ⟨ip, []⟩) hs.owned hs.format.fixed (hs.folder hc hn rfl).directory h0
  rw [show listing s.fs s.img (⟨ip, []⟩ : Loc).ip = L from hs.listing hc hn] at hspec
  exact post_withIp (hspec.mono (fun _ _ h => ⟨h.1, h.2.1⟩) fun _ _ h => ⟨h.1, h.2.1⟩)

theorem post_addOn (hname : NameOk s.fs.desc name) {ino : Nat} (hino : ino ≠ 0) (h16 : ino < 65536)
    (hroom : Full s.fs s.img ip → ip.size + s.fs.desc.direntSize ≤ maxFile s.fs.desc)
    {E : Errno → Mnt → Prop} :
    Post (onIp ip (dirAdd ino name) s)
    (fun r t => match r.1 with
      | .ok _ =>
        ∃ own' L', Steady (· = n) s own t own' ∧ Current t n r.2 ∧ r.2.nlink = ip.nlink ∧
          Inserted L L' (ino, name) ∧
          worldOf t = set (worldOf s) n (some ⟨true, storeNlink s.fs.desc ip.nlink, L'⟩) ∧
          r.2.size ≤ ip.size + s.fs.desc.direntSize
      | .error _ =>
        Fault s ∨ Full s.fs s.img ip ∧ ∃ own', Steady (· = n) s own t own' ∧ Current t n ip ∧
          worldOf t = worldOf s ∧ View s.fs.desc own' n r.2) E := by
  have hf := hs.folder hc hn rfl
  obtain ⟨hvalid, -, -, -⟩ := worldOf_some hn
  have hspec := (post_dirAdd (S := anything) (l := ⟨ip, []⟩) hs.owned hs.format.fixed hf trivial hvalid
    (fun _ => trivial) hname hino h16 hroom).and
    (sameIno_law.dirAdd ino name (s, ⟨ip, []⟩))
  refine post_onIp (hspec.mono ?_ ?_)
  · intro _ x h
    obtain ⟨t, l⟩ := x
    obtain ⟨⟨own', he, hft, hsize, hins⟩, hsame⟩ := h
    obtain ⟨hst, hcur, hw⟩ :=
      steady_edited hs hc hn hsame he (by rw [← shape_desc he.apart.shape]; exact hft.fits) fun _ => hft
    refine ⟨own', _, hst, hcur, he.nlink, ?_, hw, hsize⟩
    rw [show listing s.fs s.img (⟨ip, []⟩ : Loc).ip = L from hs.listing hc hn] at hins
    exact hins
  · intro e x h
    obtain ⟨t, l⟩ := x
    obtain ⟨⟨hwhy, own', hsp⟩, hsame⟩ := h
    by_cases hno : Fault s
    · exact .inl hno
    · obtain ⟨hst, hcur, hw⟩ := steady_spared hs hc hn hsame hsp hno
      exact .inr ⟨hwhy.resolve_left hno, own', hst, hcur, hw, hsp.view⟩

theorem post_removeOn (h0 : 0 ∉ name) {E : Errno → Mnt → Prop} : Post (onIp ip (dirRemove name) s)
    (fun r t => match r.1 with
      | .ok _ =>
        ∃ own' L' e, Steady (· = n) s own t own' ∧ Current t n r.2 ∧ r.2.nlink = ip.nlink ∧
          e.2 = stem s.fs.desc name ∧ Removed L L' e ∧
          worldOf t = set (worldOf s) n (some ⟨true, storeNlink s.fs.desc ip.nlink, L'⟩) ∧
          ¬ Full t.fs t.img r.2 ∧ r.2.size = ip.size
      | .error e => Fault s ∨ e = .enoent ∧ lookup L (stem s.fs.desc name) = none ∧ Looked s t) E := by
  have hf := hs.folder hc hn rfl
  obtain ⟨hvalid, -, -, -⟩ := worldOf_some hn
  have hspec := (post_dirRemove (S := anything) (l := ⟨ip, []⟩) hs.owned hs.format.fixed
    hf trivial hvalid h0).and
    (sameIno_law.dirRemove name (s, ⟨ip, []⟩))
  have hL : listing s.fs s.img (⟨ip, []⟩ : Loc).ip = L := hs.listing hc hn
  refine post_onIp (hspec.mono ?_ ?_)
  · intro _ x h
    obtain ⟨t, l⟩ := x
    obtain ⟨⟨own', e, he, hft, hsize, hname, hrem⟩, hsame⟩ := h
    obtain ⟨hst, hcur, hw⟩ :=
      steady_edited hs hc hn hsame he (by rw [← shape_desc he.apart.shape]; exact hft.fits) fun _ => hft
    refine ⟨own', _, e, hst, hcur, he.nlink, hname, ?_, hw,
      not_full_of_removed (shape_desc he.apart.shape) hsize hrem, hsize⟩
    rw [hL] at hrem
    exact hrem
  · intro e x h
    obtain ⟨t, l⟩ := x
    obtain ⟨hwhy, -⟩ := h
    rcases hwhy with ⟨rfl, hnone, ht, -⟩ | ⟨hno, -⟩
    · rw [hL] at hnone
      exact .inr ⟨rfl, hnone, ht⟩
    · exact .inl hno

end Directory

end Filsys.Names
