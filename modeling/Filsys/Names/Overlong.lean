/-
  Filsys.Names.Overlong — names longer than an entry holds (dir_fixed.c, filsys.c).

  `fixed_name_eq` compares as many bytes as an entry has, so to `dir_lookup` and
  `dir_remove` a longer name is its first `max_namlen` bytes; only `dir_add` and the walk
  measure it. An operation that looks the name up first therefore acts on the entry of
  that stem, if there is one.

  (1) `over_long_names_touch_nothing`: where the directory has no entry of that stem with
      a number the i-list holds, every operation given the name fails and leaves the
      directory as it was, whatever transfers fail.
  (2) `over_long_names_touch_nothing_iff`: where no transfer fails, only there.
  (3) `unlinking_a_longer_name_removes_its_stem`: the entry `unlink` takes away.
-/

import Filsys.Engine.Replay
import Filsys.Names.Finite
import Filsys.Names.Numbers

namespace Filsys.Names

open Filsys.Lib Filsys.Engine Filsys.Alloc Filsys.Tree

/-! ## A directory -/

/-- Inode `dir` is a live directory of fixed entries, on a volume whose blocks have one owner each. -/
structure Place (s : Mnt) (own : Own) (dir : Nat) : Prop where
  owned : Owned s own
  map : MapTrue s
  numbers : Numbers s.fs
  modes : Modes s.fs.desc
  fixed : FixedFormat s.fs.desc
  /-- A file can hold the two entries of a new directory. -/
  room : 2 * s.fs.desc.direntSize ≤ maxFile s.fs.desc
  names : 2 ≤ s.fs.desc.maxNamlen
  valid : ValidIno s.fs dir
  /-- An entry can hold the directory's number. -/
  short : dir < 65536
  live : Live s.fs s.img dir
  directory : Directory s own dir (recordOf s.fs s.img dir)

/-- What the directory `dir` holds. -/
def entriesOf (s : Mnt) (dir : Nat) : List Dirent := listing s.fs s.img (recordOf s.fs s.img dir)

/-- The record and the entries of `dir` are as they were. -/
def Unchanged (dir : Nat) (s t : Mnt) : Prop :=
  recordOf t.fs t.img dir = recordOf s.fs s.img dir ∧ entriesOf t dir = entriesOf s dir

/-- No entry of the name's stem has a number of the i-list. -/
def StemFree (s : Mnt) (dir : Nat) (name : Name) : Prop :=
  ∀ e, lookup (entriesOf s dir) (stem s.fs.desc name) = some e → ¬ ValidIno s.fs e.1

/-- Whatever has happened has left `dir` alone. -/
def Beside (dir : Nat) (s : Mnt) (own : Own) (t : Mnt) (own' : Own) : Prop :=
  Owned t own' ∧ ∃ T : Nat → Prop, ¬ T dir ∧ Apart T s own t own'

section Beside

variable {s t u : Mnt} {own own' own'' : Own} {dir : Nat}

theorem beside_looked (ho : Owned s own) (h : Looked s t) : Beside dir s own t own :=
  ⟨h.owned ho, fun _ => False, id, .of_looked h _ own⟩

theorem Beside.trans (h : Beside dir s own t own') (h' : Beside dir t own' u own'') :
    Beside dir s own u own'' := by
  obtain ⟨-, T, hT, ha⟩ := h
  obtain ⟨ho, T', hT', ha'⟩ := h'
  exact ⟨ho, fun k => T k ∨ T' k, not_or.mpr ⟨hT, hT'⟩, (ha.mono fun _ => .inl).trans (ha'.mono fun _ => .inr)⟩

theorem Beside.shape (h : Beside dir s own t own') : shape t.fs = shape s.fs := by
  obtain ⟨-, T, -, ha⟩ := h
  exact ha.shape

variable (hp : Place s own dir) (h : Beside dir s own t own')

include hp h

theorem Beside.record : recordOf t.fs t.img dir = recordOf s.fs s.img dir := by
  obtain ⟨-, T, hT, ha⟩ := h
  exact record_apart ha hp.valid hT

theorem Beside.directory : Directory t own' dir (recordOf t.fs t.img dir) := by
  have hrec := h.record hp
  obtain ⟨-, T, hT, ha⟩ := h
  have hd := shape_desc ha.shape
  rw [hrec]
  refine ⟨?_, hp.directory.ino, ?_, ?_⟩
  · exact ha.view hT hp.directory.view
  · rw [hd]
    exact hp.directory.framed
  · rw [hd]
    exact hp.directory.fits

theorem Beside.unchanged : Unchanged dir s t := by
  have hrec := h.record hp
  obtain ⟨-, T, hT, ha⟩ := h
  refine ⟨hrec, ?_⟩
  unfold entriesOf
  rw [hrec]
  refine listing_congr hp.fixed.width (shape_desc ha.shape) rfl fun o ho => ?_
  exact (ha.still hT).byteOf hp.owned hp.directory.view (Nat.lt_of_le_of_lt (Nat.div_le_self ..)
    (Nat.lt_trans ho hp.directory.size_lt))

end Beside

/-! ## Looking -/

section Looking

variable {s t : Mnt} {own own' : Own} {dir : Nat} {name : Name} (hp : Place s own dir)
    (hb : Beside dir s own t own')

include hb

theorem Beside.looked {u : Mnt} (h : Looked t u) : Beside dir s own u own' := hb.trans (beside_looked hb.1 h)

theorem post_reads {α : Type} {x : M α} (hx : Peeks x) :
    Post (x t) (fun _ u => Beside dir s own u own') (fun _ u => Beside dir s own u own') :=
  (hx t).mono (fun _ _ h => hb.looked (h hb.1.mounted.solo)) fun _ _ h => hb.looked (h hb.1.mounted.solo)

/-- A number off the i-list reads as no inode. -/
theorem post_readNumber (n : Nat) :
    Post (readInode n t) (fun _ u => ValidIno s.fs n ∧ Beside dir s own u own')
    (fun _ u => Beside dir s own u own') := by
  refine (post_inodeIn hb.1.mounted n).mono ?_ fun _ u h => hb.looked h.2
  intro _ u hr
  obtain ⟨-, hn, h⟩ := hr
  exact ⟨(shape_validIno hb.shape).mp hn, hb.looked h⟩

include hp

theorem post_readDir : Post (readInode dir t) (fun ip u => ip = recordOf s.fs s.img dir ∧
    Beside dir s own u own') (fun _ u => Beside dir s own u own') := by
  refine (post_inodeIn hb.1.mounted dir).mono ?_ fun _ u h => hb.looked h.2
  intro ip u hr
  obtain ⟨hip, -, h⟩ := hr
  exact ⟨hip.trans (hb.record hp), hb.looked h⟩

/-- What looking the name up comes to. -/
theorem post_findStem (h0 : 0 ∉ name) (hfree : StemFree s dir name) :
    Post (dirLookup name (t, ⟨recordOf s.fs s.img dir, []⟩))
    (fun r u => ¬ ValidIno s.fs r ∧ Beside dir s own u.1 own' ∧ u.2.ip = recordOf s.fs s.img dir)
    (fun _ u => Beside dir s own u.1 own' ∧ u.2.ip = recordOf s.fs s.img dir) := by
  have hd := shape_desc hb.shape
  have hdir := hb.directory hp
  rw [hb.record hp] at hdir
  have hfix : FixedFormat t.fs.desc := by
    rw [hd]
    exact hp.fixed
  have hlist : listing t.fs t.img (recordOf s.fs s.img dir) = entriesOf s dir := by
    rw [← hb.record hp]
    exact (hb.unchanged hp).2
  refine (post_dirLookup (l := ⟨recordOf s.fs s.img dir, []⟩) hb.1 hfix hdir h0).mono ?_ ?_
  · intro r x h
    obtain ⟨u, l⟩ := x
    obtain ⟨⟨e, he, rfl⟩, hu, rfl⟩ := h
    rw [hlist, hd] at he
    exact ⟨hfree e he, hb.looked hu, rfl⟩
  · intro _ x h
    obtain ⟨u, l⟩ := x
    obtain ⟨-, hu, rfl⟩ := h
    exact ⟨hb.looked hu, rfl⟩

theorem post_lookupStem (h0 : 0 ∉ name) (hfree : StemFree s dir name) :
    Post (lookupIn (recordOf s.fs s.img dir) name t)
    (fun r u => ¬ ValidIno s.fs r ∧ Beside dir s own u own') (fun _ u => Beside dir s own u own') :=
  post_withIp ((post_findStem hp hb h0 hfree).mono (fun _ _ h => ⟨h.1, h.2.1⟩) fun _ _ h => h.1)

/-- `dir_add` measures the name before anything else. -/
theorem onIp_dirAdd_long (hlong : s.fs.desc.maxNamlen < name.length) (ip : Inode) (ino : Nat) :
    onIp ip (dirAdd ino name) t = .ok (.error .enametoolong, ip) t := by
  have hd := shape_desc hb.shape
  have hfix : FixedFormat t.fs.desc := by
    rw [hd]
    exact hp.fixed
  have hadd : dirAdd ino name (t, ⟨ip, []⟩) = .error .enametoolong (t, ⟨ip, []⟩) := by
    rw [dirAdd_fixed hfix]
    show (if name = [] ∨ t.fs.desc.maxNamlen < name.length then throw .enametoolong
      else if slash ∈ name then throw .einval else _ : MI Unit) (t, ⟨ip, []⟩) = _
    rw [if_pos (.inr (by rw [hd]; exact hlong))]
    rfl
  unfold onIp
  rw [bind_eq_of_ok (show inside ⟨ip, []⟩ (dirAdd ino name) t =
    .ok (.error .enametoolong, ⟨ip, []⟩) t by unfold inside; rw [hadd])]
  rfl

end Looking

/-! ## One operation -/

/-- The call fails and has left `dir` alone. -/
def Fails {α : Type} (dir : Nat) (s : Mnt) (own : Own) (x : M α) (t : Mnt) : Prop :=
  Post (x t) (fun _ _ => False) fun _ u => ∃ own', Beside dir s own u own'

section Calls

variable {s t : Mnt} {own own' : Own} {dir : Nat} {name : Name} (hp : Place s own dir)
    (hb : Beside dir s own t own') (h0 : 0 ∉ name)
  (hlong : s.fs.desc.maxNamlen < name.length) (hfree : StemFree s dir name)

omit own' in
theorem fails_seq {α β : Type} {own' : Own} {x : M α} {f : α → M β} {P : α → Prop}
    (hx : Post (x t) (fun a u => P a ∧ Beside dir s own u own')
    (fun _ u => Beside dir s own u own')) (hf : ∀ a u, P a → Beside dir s own u own' →
      Fails dir s own (f a) u) : Fails dir s own (x >>= f) t :=
  post_bind (hx.mono (fun a u h => hf a u h.1 h.2) fun _ _ h => ⟨own', h⟩)

include hp hb

theorem link_fails (hlong : s.fs.desc.maxNamlen < name.length) (src : Nat) :
    Fails dir s own (filsysLinkIn src dir name) t := by
  refine post_bindFs (fails_seq (post_readDir hp hb) fun ddir u _ hu => ?_)
  refine fails_seq (post_failAs (post_readNumber hu src)) fun ip v _ hv => ?_
  refine post_bind ((post_reads hv (refuseCycle_peeks _ _ _)).mono (fun _ w hw => ?_) fun _ _ h => ⟨own', h⟩)
  rw [bind_eq_of_ok (onIp_dirAdd_long hp hw hlong ddir src)]
  exact ⟨own', hw⟩

include h0 hfree

theorem unlink_fails (defer : Bool) : Fails dir s own (filsysUnlinkIn dir name defer) t := by
  refine fails_seq (post_readDir hp hb) fun ddir u hip hu => ?_
  subst hip
  refine fails_seq (post_lookupStem hp hu h0 hfree) fun ino v hino hv => ?_
  exact post_bind ((post_failAs (post_readNumber hv ino)).mono (fun _ _ h => absurd h.1 hino)
    fun _ _ h => ⟨own', h⟩)

theorem rmdir_fails : Fails dir s own (filsysRmdirIn dir name) t := by
  refine post_bindFs (fails_seq (post_readDir hp hb) fun ddir u hip hu => ?_)
  subst hip
  refine fails_seq (post_lookupStem hp hu h0 hfree) fun ino v hino hv => ?_
  exact post_bind ((post_failAs (post_readNumber hv ino)).mono (fun _ _ h => absurd h.1 hino)
    fun _ _ h => ⟨own', h⟩)

/-- As the source of a rename: nothing is found. -/
theorem renameFrom_fails (tdir : Nat) (tname : Name) (flags : Nat) (defer : Bool)
    (hne : ¬ (tdir = dir ∧ tname = name)) :
    Fails dir s own (filsysRenameIn dir name tdir tname flags defer) t := by
  refine post_bindFs (post_ite (fun _ => ⟨own', hb⟩) fun _ =>
    post_ite (fun hself => absurd ⟨hself.1.symm, hself.2.symm⟩ hne) fun _ => ?_)
  refine fails_seq (post_readDir hp hb) fun ddir u hip hu => ?_
  subst hip
  refine fails_seq (post_lookupStem hp hu h0 hfree) fun ino v hino hv => ?_
  exact post_bind ((post_failAs (post_readNumber hv ino)).mono (fun _ _ h => absurd h.1 hino)
    fun _ _ h => ⟨own', h⟩)

/-- The target name counts as free. -/
theorem post_renameTarget_stem {sino : Nat} (hsino : ValidIno s.fs sino) (isdir noreplace : Bool) :
    Post (renameTarget sino isdir (recordOf s.fs s.img dir) name noreplace t)
    (fun r u => r = some none ∧ Beside dir s own u own')
      (fun _ u => Beside dir s own u own') := by
  refine post_bindFs (post_bind (post_onIp ((post_findStem hp hb h0 hfree).mono ?_ fun _ _ h => ⟨rfl, h.1⟩)))
  intro tino x hr
  obtain ⟨u, l⟩ := x
  obtain ⟨htino, hu, hl⟩ := hr
  refine post_ite (fun _ => hu) fun _ => post_ite (fun heq => absurd (heq ▸ hsino) htino) fun _ => ?_
  exact post_bind ((post_failAs (post_readNumber hu tino)).mono (fun _ _ h => absurd h.1 htino) fun _ _ h => h)

/-- As the target of a rename: the link is refused, and there is nothing to put back. -/
theorem renameTo_fails (hlong : s.fs.desc.maxNamlen < name.length) (sdir : Nat) (sname : Name)
    (flags : Nat) (defer : Bool)
    (hne : ¬ (sdir = dir ∧ sname = name)) :
    Fails dir s own (filsysRenameIn sdir sname dir name flags defer) t := by
  refine post_bindFs (post_ite (fun _ => ⟨own', hb⟩) fun _ => post_ite (fun hself => absurd hself hne)
    fun _ => ?_)
  refine fails_seq (post_readNumber hb sdir) fun sdirip u _ hu => ?_
  refine post_bind ((post_reads hu (lookupIn_peeks sdirip sname)).mono (fun sino v hv => ?_)
    fun _ _ h => ⟨own', h⟩)
  refine fails_seq (post_failAs (post_readNumber hv sino)) fun sip w hsino hw => ?_
  refine fails_seq (post_failAs (post_readDir hp hw)) fun tdirip x hip hx => ?_
  subst hip
  refine post_bind ((post_reads hx (refuseCycle_peeks _ _ _)).mono (fun _ y hy => ?_) fun _ _ h => ⟨own', h⟩)
  refine fails_seq (post_renameTarget_stem hp hy h0 hfree hsino _ _) fun r z hr hz => ?_
  subst hr
  refine post_bind (post_attempt ((link_fails hp hz hlong sino).mono (fun _ _ h => h.elim) ?_))
  intro e a hrun
  obtain ⟨own'', ha⟩ := hrun
  exact ⟨own'', ha⟩

end Calls

/-! ## Creating -/

section Creating

variable {s t : Mnt} {own own' : Own} {dir n : Nat} {name : Name} {nip : Inode}

/-- Inode `n` is torn down. -/
theorem post_teardown (hb : Beside dir s own t own') (hn : dir ≠ n)
    (hv : isDataInode t.fs.desc nip = true → View t.fs.desc own' n nip) :
    Post (inodeDestroy n nip t) (fun _ u => ∃ own'', Beside dir s own u own'') (fun _ u => ∃ own'',
      Beside dir s own u own'') := by
  refine (post_inodeDestroy (S := anything) trivial hb.1 hv).mono ?_ ?_
  · intro _ u h
    obtain ⟨own'', hg⟩ := h
    exact ⟨own'', hb.trans ⟨hg.path.owned hb.1, (· = n), hn, hg.apart⟩⟩
  · intro _ u h
    obtain ⟨-, hk, hpath⟩ := h
    exact ⟨own', hb.trans ⟨hpath.owned hb.1, fun _ => False, id, .of_kept hk hb.1 _⟩⟩

/-- The tail of a failed `mkdir`, also where the blocks could not all be read. -/
theorem mkdirFail_fails (hb : Beside dir s own t own') (hn : dir ≠ n)
    (hv : isDataInode t.fs.desc nip = true → View t.fs.desc own' n nip) (e : Errno) :
    Fails dir s own (mkdirFail n nip (some e)) t := by
  obtain ⟨hnd, hheld⟩ := dataBlocks_held hb.1 hv
  have hrest : ∀ (u : Mnt) (l : Loc), Looked t u → l.bl <+: dataBlocks t.fs t.img nip →
      Post ((attempt (writeInode n { l.ip with mode := 0 }) >>= fun wrc =>
        onlyIf wrc.isOk (blklistDrain l.bl >>= fun _ => ifree n) >>= fun _ =>
        throw e : M Unit) u) (fun _ _ => False) fun _ v => ∃ own'', Beside dir s own v own'' := by
    intro u l hu hpre
    have hbu := hb.looked hu
    have hgone := @post_goneOut anything n trivial u own' hbu.1 { l.ip with mode := 0 } l.bl rfl
      (hnd.sublist hpre.sublist)
      fun b hmem => hheld b (hpre.subset hmem)
    have hdone : ∀ v, (∃ own'', Gone anything n u own' v own'') → ∃ own'', Beside dir s own v own'' := by
      intro v hrun
      obtain ⟨own'', hg⟩ := hrun
      exact ⟨own'', hbu.trans ⟨hg.path.owned hbu.1, (· = n), hn, hg.apart⟩⟩
    have hstopped : ∀ v, Engine.Kept u v → Path anything u own' v own' → ∃ own'', Beside dir s own v own'' :=
      fun v hk hpath => ⟨own', hbu.trans ⟨hpath.owned hbu.1, fun _ => False, id, .of_kept hk hbu.1 _⟩⟩
    refine post_bind (post_attempt ?_)
    cases hr : writeInode n { l.ip with mode := 0 } u with
    | ok a v =>
      rw [bind_eq_of_ok hr] at hgone
      exact post_bind (post_onlyIf (fun _ => hgone.mono (fun _ w h => hdone w h) fun _ w h =>
        hstopped w h.2.1 h.2.2) fun h => absurd rfl h)
    | error e' v =>
      rw [bind_eq_of_error hr] at hgone
      exact hstopped v hgone.2.1 hgone.2.2
  refine post_bind (post_inside ((post_filsysItrunc hb.1 hv).mono ?_ ?_))
  · intro _ r hrun
    obtain ⟨u, l⟩ := r
    obtain ⟨hu, rfl⟩ := hrun
    exact hrest u _ hu (List.prefix_refl _)
  · intro _ r hrun
    obtain ⟨u, l⟩ := r
    obtain ⟨-, hu, -, hpre⟩ := hrun
    exact hrest u l hu hpre

variable (hp : Place s own dir) (h0 : 0 ∉ name) (hlong : s.fs.desc.maxNamlen < name.length)
    (hfree : StemFree s dir name)

include hp h0 hfree

/-- Withdrawing the name takes nothing away. -/
theorem post_withdrawStem (hb : Beside dir s own t own') (hn : ValidIno s.fs n) :
    Post (withdrawName dir name n t)
    (fun _ u => Beside dir s own u own') (fun _ u => Beside dir s own u own') := by
  refine post_bind ((post_readDir hp hb).mono ?_ fun _ _ h => h)
  intro ip u hrun
  obtain ⟨rfl, hu⟩ := hrun
  refine post_bind (post_onIp ((post_findStem hp hu h0 hfree).mono ?_ ?_))
  · intro r x hrun
    obtain ⟨v, l⟩ := x
    obtain ⟨hr, hv, -⟩ := hrun
    exact post_ite (fun _ => hv) fun hne => absurd (not_not.mp hne ▸ hn) hr
  · intro e x hrun
    obtain ⟨v, l⟩ := x
    obtain ⟨hv, -⟩ := hrun
    cases e <;> exact hv

include hlong

theorem addOrDestroy_fails (hb : Beside dir s own t own') (hn : dir ≠ n) (hvalid : ValidIno s.fs n)
    (ddir : Inode)
    (hv : isDataInode t.fs.desc nip = true → View t.fs.desc own' n nip) :
    Fails dir s own (addOrDestroy dir ddir name n nip) t := by
  unfold Fails addOrDestroy
  rw [bind_eq_of_ok (onIp_dirAdd_long hp hb hlong ddir n)]
  refine post_bind (post_attempt ((post_withdrawStem hp h0 hfree hb hvalid).mono (fun _ u hu => ?_)
    fun _ _ hu => ⟨own', hu⟩))
  have hvu : isDataInode u.fs.desc nip = true → View u.fs.desc own' n nip := by
    rw [shape_desc hu.shape, ← shape_desc hb.shape]
    exact hv
  exact post_bind (post_attempt ((post_teardown hu hn hvu).mono (fun _ _ h => h) fun _ _ h => h))

theorem mkdirEnter_fails (hb : Beside dir s own t own') (hn : dir ≠ n) (hvalid : ValidIno s.fs n) (ddir : Inode)
    (hv : isDataInode t.fs.desc nip = true → View t.fs.desc own' n nip) :
    Fails dir s own (mkdirEnter dir ddir name n nip) t := by
  unfold Fails mkdirEnter
  rw [bind_eq_of_ok (onIp_dirAdd_long hp hb hlong ddir n)]
  refine post_bind (post_attempt ((post_withdrawStem hp h0 hfree hb hvalid).mono (fun _ u hu => ?_)
    fun _ _ hu => ⟨own', hu⟩))
  have hvu : isDataInode u.fs.desc nip = true → View u.fs.desc own' n nip := by
    rw [shape_desc hu.shape, ← shape_desc hb.shape]
    exact hv
  exact mkdirFail_fails hu hn hvu .enametoolong

end Creating

section NewInodes

variable {s t : Mnt} {own : Own} {dir : Nat} {name : Name} (hp : Place s own dir)

include hp

/-- A new inode is not the directory. -/
theorem post_newInode (ht : Looked s t) (mode uid gid : Nat) {type : FileType} (htype : type ≠ .lnk) :
    Post (inodeCreate mode uid gid type 0 t)
    (fun r u => (dir ≠ r.1 ∧ ValidIno s.fs r.1 ∧ r.1 < 65536 ∧ ∃ now,
      r.2 = newInode s.fs.desc r.1 mode uid gid type 0 now) ∧ Beside dir s own u own)
    (fun _ u => Beside dir s own u own) := by
  have hbt : Beside dir s own t own := beside_looked hp.owned ht
  obtain ⟨k, hk, rfl⟩ := id ht
  have hshort : Post (inodeCreate mode uid gid type 0 ({ s with ios := k } : Mnt))
    (fun r _ => r.1 < 65536) fun _ _ => True := by
    refine post_bindFs (post_bind ((tally_ialloc hbt.1 hp.numbers).mono ?_ fun _ _ _ => trivial))
    intro n u hr
    obtain ⟨hn, -⟩ := hr
    refine post_bind (post_bind (post_attempt ((post_true _).mono (fun _ _ _ => hn) fun _ _ _ => ?_)))
    exact post_bind ((post_true _).mono (fun _ _ _ => trivial) fun _ _ _ => trivial)
  refine ((post_inodeCreate (S := anything) hbt.1 hp.map (fun _ _ => trivial) hp.modes mode uid gid
    (fun h => absurd h htype)
    fun h => absurd rfl h).and hshort).mono ?_ ?_
  · intro x u hr
    obtain ⟨n, ip⟩ := x
    obtain ⟨⟨hborn, hip⟩, hn⟩ := hr
    have hne : dir ≠ n := fun heq => hborn.was (heq ▸ hp.live)
    exact ⟨⟨hne, hborn.valid, hn, hip⟩, hbt.trans ⟨hborn.path.owned hbt.1, (· = n), hne, hborn.apart⟩⟩
  · intro e u hr
    obtain ⟨⟨hun, -⟩, -⟩ := hr
    obtain ⟨T, hT, ha⟩ := hun.apart
    exact hbt.trans ⟨hun.path.owned hbt.1, T, fun h => (hT dir h).1 hp.live, ha⟩

/-- An entry goes into the new directory `n`. -/
theorem post_ownEntry {own' : Own} {n : Nat} {ip : Inode} (hb : Beside dir s own t own') (hn : dir ≠ n)
    (hvalid : ValidIno s.fs n)
    (hf : Folder t own' n ip) {entry : Name} (hentry : NameOk s.fs.desc entry) {ino : Nat}
    (h0 : ino ≠ 0) (h16 : ino < 65536)
    (hroom : ip.size + s.fs.desc.direntSize ≤ maxFile s.fs.desc) : Post (dirAdd ino entry (t, ⟨ip, []⟩))
    (fun _ u => ∃ own'', Beside dir s own u.1 own'' ∧ Folder u.1 own'' n u.2.ip ∧
      u.2.ip.size ≤ ip.size + s.fs.desc.direntSize)
    (fun _ u => ∃ own'', Beside dir s own u.1 own'' ∧ View u.1.fs.desc own'' n u.2.ip) := by
  have hd := shape_desc hb.shape
  have hfix : FixedFormat t.fs.desc := by
    rw [hd]
    exact hp.fixed
  refine (post_dirAdd (S := anything) (l := ⟨ip, []⟩) hb.1 hfix hf trivial
    ((shape_validIno hb.shape).mpr hvalid) (fun _ => trivial)
    (by rw [hd]; exact hentry) h0 h16 fun _ => by rw [hd]; exact hroom).mono ?_ ?_
  · intro _ u h
    obtain ⟨own'', he, hfu, hsize, -⟩ := h
    rw [hd] at hsize
    exact ⟨own'', hb.trans ⟨he.path.owned hb.1, (· = n), hn, he.apart⟩, hfu, hsize⟩
  · intro _ u h
    obtain ⟨-, own'', hsp⟩ := h
    refine ⟨own'', hb.trans ⟨hsp.path.owned hb.1, (· = n), hn, .of_frame hsp.frame hb.1.mounted⟩, ?_⟩
    rw [shape_desc hsp.frame.shape]
    exact hsp.view

variable (h0 : 0 ∉ name) (hlong : s.fs.desc.maxNamlen < name.length) (hfree : StemFree s dir name)

/-- The checks before a new name have only read. -/
theorem fails_checked {α : Type} {f : Inode → M α}
    (hf : ∀ u, Looked s u → Fails dir s own (f (recordOf s.fs s.img dir)) u) :
    Fails dir s own (do
      let ddir ← readInode dir
      preflightCreate ddir name
      f ddir) s := by
  have hsolo := hp.owned.mounted.solo
  refine post_bind ((post_inodeIn hp.owned.mounted dir).mono ?_ fun _ u h => ⟨own, beside_looked hp.owned h.2⟩)
  intro ip u hr
  obtain ⟨rfl, -, hu⟩ := hr
  have hsu : Solo u := (hu.owned hp.owned).mounted.solo
  refine post_bind ((preflightCreate_peeks _ name u).mono
    (fun _ v hv => hf v (looked_law.trans hu (hv hsu))) fun _ v hv => ?_)
  exact ⟨own, beside_looked hp.owned (looked_law.trans hu (hv hsu))⟩

include h0 hlong hfree

theorem create_fails (mode uid gid : Nat) : Fails dir s own (filsysCreateIn dir name mode uid gid) s := by
  refine post_ite (fun _ => fails_checked hp fun u hu => ?_) fun _ =>
    ⟨own, beside_looked hp.owned (looked_law.refl s)⟩
  refine fails_seq (post_newInode hp hu mode uid gid (by decide)) fun r v hr hv => ?_
  obtain ⟨n, nip⟩ := r
  obtain ⟨hne, hvalid, -, now, hnip⟩ := hr
  dsimp only at hne hvalid hnip
  subst hnip
  refine post_bind ((addOrDestroy_fails hp h0 hlong hfree hv hne hvalid _ fun _ => ?_).mono
    (fun _ _ h => h.elim) fun _ _ h => h)
  rw [shape_desc hv.shape]
  exact view_newInode s.fs.desc own n mode uid gid .reg now

theorem mkdir_fails (mode uid gid : Nat) : Fails dir s own (filsysMkdirIn dir name mode uid gid) s := by
  refine post_ite (fun _ => fails_checked hp fun u hu => ?_) fun _ =>
    ⟨own, beside_looked hp.owned (looked_law.refl s)⟩
  refine fails_seq (post_newInode hp hu mode uid gid (by decide)) fun r v hr hv => ?_
  obtain ⟨n, nip⟩ := r
  obtain ⟨hne, hvalid, h16, now, hnip⟩ := hr
  dsimp only at hne hvalid h16 hnip
  subst hnip
  have hroom := hp.room
  have hnames := hp.names
  have hnew : Folder v own n (newInode s.fs.desc n mode uid gid .dir 0 now) := by
    refine ⟨?_, rfl, Nat.dvd_zero _, Nat.zero_le _, fun x hx => absurd hx (Nat.not_lt_zero _)⟩
    rw [shape_desc hv.shape]
    exact view_newInode s.fs.desc own n mode uid gid .dir now
  have hdot : NameOk s.fs.desc dot := ⟨by decide, Nat.le_of_succ_le hnames, by decide, by decide⟩
  have hdotdot : NameOk s.fs.desc dotdot := ⟨by decide, hnames, by decide, by decide⟩
  refine post_bind (post_onIp ((post_ownEntry hp hv hne hvalid hnew hdot hvalid.1 h16 ?_).mono ?_ ?_))
  · show 0 + s.fs.desc.direntSize ≤ maxFile s.fs.desc
    omega
  · intro _ p h
    obtain ⟨w, l⟩ := p
    obtain ⟨own1, hw, hf1, hsize⟩ := h
    have h1 : l.ip.size ≤ 0 + s.fs.desc.direntSize := hsize
    refine post_bind (post_onIp
      ((post_ownEntry hp hw hne hvalid hf1 hdotdot hp.valid.1 hp.short ?_).mono ?_ ?_))
    · show l.ip.size + s.fs.desc.direntSize ≤ maxFile s.fs.desc
      omega
    · intro _ p h
      obtain ⟨x, l'⟩ := p
      obtain ⟨own2, hx, hf2, -⟩ := h
      exact mkdirEnter_fails hp h0 hlong hfree hx hne hvalid _ fun _ => hf2.view
    · intro e p h
      obtain ⟨x, l'⟩ := p
      obtain ⟨own2, hx, hview⟩ := h
      exact mkdirFail_fails hx hne (fun _ => hview) e
  · intro e p h
    obtain ⟨w, l⟩ := p
    obtain ⟨own1, hw, hview⟩ := h
    exact mkdirFail_fails hw hne (fun _ => hview) e

end NewInodes

/-! ## All operations -/

/-- An operation given a directory and a name in it. -/
inductive Call
  | create (mode uid gid : Nat)
  | mkdir (mode uid gid : Nat)
  | link (src : Nat)
  | unlink (defer : Bool)
  | rmdir
  /-- The name is the source. -/
  | renameFrom (tdir : Nat) (tname : Name) (flags : Nat) (defer : Bool)
  /-- The name is the target. -/
  | renameTo (sdir : Nat) (sname : Name) (flags : Nat) (defer : Bool)

namespace Call

def run (dir : Nat) (name : Name) : Call → M Unit
  | create mode uid gid => do
    let _ ← filsysCreateIn dir name mode uid gid
    return ()
  | mkdir mode uid gid => filsysMkdirIn dir name mode uid gid
  | link src => filsysLinkIn src dir name
  | unlink defer => filsysUnlinkIn dir name defer
  | rmdir => filsysRmdirIn dir name
  | renameFrom tdir tname flags defer => filsysRenameIn dir name tdir tname flags defer
  | renameTo sdir sname flags defer => filsysRenameIn sdir sname dir name flags defer

/-- A rename of the name to itself. -/
def Itself (dir : Nat) (name : Name) : Call → Prop
  | renameFrom tdir tname _ _ => tdir = dir ∧ tname = name
  | renameTo sdir sname _ _ => sdir = dir ∧ sname = name
  | _ => False

end Call

/-- The call fails and leaves the directory as it was. -/
def TurnedAway (dir : Nat) (s : Mnt) (x : M Unit) : Prop :=
  Post (x s) (fun _ _ => False) fun _ t => Unchanged dir s t

theorem not_turnedAway {dir : Nat} {s : Mnt} {x : M Unit} (hok : errorOf x s = none) :
    ¬ TurnedAway dir s x := by
  intro h
  exact h.of_ok (eq_done hok)

section Claim

variable {s : Mnt} {own : Own} {dir : Nat} {name : Name} (hp : Place s own dir) (h0 : 0 ∉ name)

include hp h0

theorem over_long_names_touch_nothing (hlong : s.fs.desc.maxNamlen < name.length)
    (hfree : StemFree s dir name) (c : Call)
    (hc : ¬ c.Itself dir name) : TurnedAway dir s (c.run dir name) := by
  have hb : Beside dir s own s own := beside_looked hp.owned (looked_law.refl s)
  have hfails : Fails dir s own (c.run dir name) s := by
    cases c with
    | create mode uid gid =>
      exact post_bind ((create_fails hp h0 hlong hfree mode uid gid).mono (fun _ _ h => h.elim) fun _ _ h => h)
    | mkdir mode uid gid => exact mkdir_fails hp h0 hlong hfree mode uid gid
    | link src => exact link_fails hp hb hlong src
    | unlink defer => exact unlink_fails hp hb h0 hfree defer
    | rmdir => exact rmdir_fails hp hb h0 hfree
    | renameFrom tdir tname flags defer => exact renameFrom_fails hp hb h0 hfree tdir tname flags defer hc
    | renameTo sdir sname flags defer => exact renameTo_fails hp hb h0 hfree hlong sdir sname flags defer hc
  refine hfails.mono (fun _ _ h => h) ?_
  intro _ t hr
  obtain ⟨own', ht⟩ := hr
  exact ht.unchanged hp

/-- An unlink finds the stem's entry and takes it away. -/
theorem post_unlinkStem (hsolid : Solid s.fs s.img (recordOf s.fs s.img dir))
    (hq : ∀ k, s.env.fails k = false) {e : Dirent}
    (he : lookup (entriesOf s dir) (stem s.fs.desc name) = some e) (hvalid : ValidIno s.fs e.1) :
    Post (filsysUnlinkIn dir name true s) (fun _ _ => True) (fun _ _ => False) := by
  have hno : ∀ {t : Mnt}, SameVol s t → ¬ Fault t := by
    intro t ht hr
    obtain ⟨k, hk⟩ := hr
    rw [ht.env, hq k] at hk
    cases hk
  refine post_bind ((post_inodeIn hp.owned.mounted dir).mono ?_ fun _ _ h =>
    hno (sameVol_law.refl s) (h.1 hp.valid))
  intro ip t hr
  obtain ⟨rfl, -, ht⟩ := hr
  have hot := ht.owned hp.owned
  have hvol := ht.idle.toSameVol
  have hfold : Folder t own dir (recordOf s.fs s.img dir) := by
    obtain ⟨k, -, rfl⟩ := ht
    exact ⟨hp.directory.view, hp.directory.ino, hp.directory.framed, hp.directory.fits, hsolid⟩
  have hlist : listing t.fs t.img (recordOf s.fs s.img dir) = entriesOf s dir := by
    rw [ht.fs, ht.img]
    rfl
  have hfix : FixedFormat t.fs.desc := by
    rw [ht.fs]
    exact hp.fixed
  have hfound : lookup (listing t.fs t.img (recordOf s.fs s.img dir)) (stem t.fs.desc name) = some e := by
    rw [hlist, ht.fs]
    exact he
  refine post_bind (post_withIp
    ((post_dirLookup (l := ⟨recordOf s.fs s.img dir, []⟩) hot hfix hfold.directory h0).mono ?_ ?_))
  · intro r x hr
    obtain ⟨u, l⟩ := x
    obtain ⟨⟨e', he', rfl⟩, hu, -⟩ := hr
    rw [hfound] at he'
    cases he'
    have hou := hu.owned hot
    have hvolu := sameVol_law.trans hvol hu.idle.toSameVol
    refine post_bind (post_failAs ((post_inodeIn hou.mounted e.1).mono ?_ fun _ _ h =>
      hno hvolu (h.1 ((shape_validIno hvolu.shape).mpr hvalid))))
    intro ip v hr
    obtain ⟨-, -, hv⟩ := hr
    have htv : Looked t v := looked_law.trans hu hv
    have hov := htv.owned hot
    have hvolv := sameVol_law.trans hvol htv.idle.toSameVol
    have hfoldv : Folder v own dir (recordOf s.fs s.img dir) := by
      obtain ⟨k, -, rfl⟩ := htv
      exact ⟨hfold.view, hfold.ino, hfold.framed, hfold.fits, hfold.solid⟩
    have hfixv : FixedFormat v.fs.desc := by
      rw [htv.fs]
      exact hfix
    refine post_bind (post_withIp
      ((post_dirRemove (S := anything) (l := ⟨recordOf s.fs s.img dir, []⟩) hov hfixv hfoldv trivial
      ((shape_validIno hvolv.shape).mpr hp.valid) h0).mono ?_ ?_))
    · intro _ x hr
      obtain ⟨w, l'⟩ := x
      obtain ⟨own', e', hed, -⟩ := hr
      have how := hed.path.owned hov
      have hvolw := sameVol_law.trans hvolv hed.apart.toSameVol
      refine post_ite (fun h => absurd h.2 (by decide)) fun _ => ?_
      exact (post_inodeOut how e.1 _).mono (fun _ _ _ => trivial) fun _ _ h =>
        hno hvolw (h.2 ((shape_validIno hvolw.shape).mpr hvalid))
    · intro e' x hr
      obtain ⟨w, l'⟩ := x
      rcases hr with ⟨-, hnone, -⟩ | ⟨hf, -⟩
      · rw [htv.fs, htv.img, show (⟨recordOf s.fs s.img dir, []⟩ : Loc).ip =
          recordOf s.fs s.img dir from rfl, hfound] at hnone
        cases hnone
      · exact hno hvolv hf
  · intro e' x hr
    obtain ⟨u, l⟩ := x
    rcases hr with ⟨⟨-, hnone⟩ | hf, -⟩
    · rw [show (⟨recordOf s.fs s.img dir, []⟩ : Loc).ip = recordOf s.fs s.img dir from rfl, hfound] at hnone
      cases hnone
    · exact hno hvol hf

theorem stemFree_of_turnedAway (hsolid : Solid s.fs s.img (recordOf s.fs s.img dir))
    (hq : ∀ k, s.env.fails k = false)
    (h : ∀ c : Call, ¬ c.Itself dir name → TurnedAway dir s (c.run dir name)) : StemFree s dir name := by
  intro e he hvalid
  have hone := (post_unlinkStem hp h0 hsolid hq he hvalid).and (h (.unlink true) id)
  cases hr : filsysUnlinkIn dir name true s with
  | ok a t => exact hone.of_ok hr |>.2
  | error e' t => exact hone.of_error hr |>.1

end Claim

theorem over_long_names_touch_nothing_iff {s : Mnt} {own : Own} {dir : Nat} {name : Name}
    (hp : Place s own dir) (h0 : 0 ∉ name)
    (hlong : s.fs.desc.maxNamlen < name.length) :
    (StemFree s dir name → ∀ c : Call, ¬ c.Itself dir name → TurnedAway dir s (c.run dir name)) ∧
    (Solid s.fs s.img (recordOf s.fs s.img dir) → (∀ k, s.env.fails k = false) →
      ((∀ c : Call, ¬ c.Itself dir name → TurnedAway dir s (c.run dir name)) ↔ StemFree s dir name)) ∧
    ∀ c : Call, c.Itself dir name → final (c.run dir name) s = s := by
  refine ⟨over_long_names_touch_nothing hp h0 hlong, fun hsolid hq => ⟨stemFree_of_turnedAway hp h0 hsolid hq,
    over_long_names_touch_nothing hp h0 hlong⟩, fun c hc => ?_⟩
  have hself : ∀ flags defer, final (filsysRenameIn dir name dir name flags defer) s = s := by
    intro flags defer
    have hrun : Post (filsysRenameIn dir name dir name flags defer s) (fun _ t => t = s) (fun _ t => t = s) :=
      post_bindFs (post_ite (fun _ => rfl) fun _ => post_ite (fun _ => rfl) fun h => absurd ⟨rfl, rfl⟩ h)
    exact hrun.final
  cases c with
  | renameFrom tdir tname flags defer =>
    obtain ⟨rfl, rfl⟩ := hc
    exact hself flags defer
  | renameTo sdir sname flags defer =>
    obtain ⟨rfl, rfl⟩ := hc
    exact hself flags defer
  | create mode uid gid => exact hc.elim
  | mkdir mode uid gid => exact hc.elim
  | link src => exact hc.elim
  | unlink defer => exact hc.elim
  | rmdir => exact hc.elim

/-! ## Small volumes -/

/-- A full V7 volume with nothing but a root directory, and no free inode cached. -/
def rootAlone : Mnt := { bareVolume with fs := { bareVolume.fs with inode := fun _ => 0, ninode := 0 } }

theorem rootAlone_owned : Owned rootAlone (soleOwn 2 3) :=
  owned_sole (fun _ _ => rfl) (by decide +kernel) (by decide +kernel)

theorem rootAlone_place : Place rootAlone (soleOwn 2 3) 2 where
  owned := rootAlone_owned
  map := fun hv => absurd hv (by decide +kernel)
  numbers := ⟨fun _ => show 0 < 65536 by decide, Nat.zero_le _, fun hv => absurd hv (by decide +kernel)⟩
  modes := ⟨.v7, by decide, by decide +kernel⟩
  fixed := fixedFormat_getformat .v7 (by decide) (by decide)
  room := by decide +kernel
  names := by decide +kernel
  valid := by decide +kernel
  short := by decide
  live := by decide +kernel
  directory := ⟨rootAlone_owned.disk 2 (by decide +kernel)
    ⟨by decide +kernel, by decide +kernel⟩, by decide +kernel, by decide +kernel, by decide +kernel⟩

/-- Fifteen bytes where an entry has fourteen. -/
def fifteen : Name := List.replicate 15 97

/-- The root directory has no such entry: no directory of that name is made. -/
theorem a_longer_directory_name_is_refused : TurnedAway 2 rootAlone ((Call.mkdir 0o755 0 0).run 2 fifteen) := by
  have hnone : lookup (entriesOf rootAlone 2) (stem rootAlone.fs.desc fifteen) = none := by decide +kernel
  have hfree : StemFree rootAlone 2 fifteen := by
    intro e he
    rw [hnone] at he
    cases he
  have h0 : 0 ∉ fifteen := by decide
  have hlong : rootAlone.fs.desc.maxNamlen < fifteen.length := by decide +kernel
  have hc : ¬ (Call.mkdir 0o755 0 0).Itself 2 fifteen := fun h => h.elim
  revert hc
  -- the call itself is never run
  generalize Call.mkdir 0o755 0 0 = c
  exact (over_long_names_touch_nothing_iff rootAlone_place h0 hlong).1 hfree c

/-- As `bareV7`, with a file, inode 3, entered under fourteen bytes. -/
def stemImage : Buf := fun i =>
  if i = 1153 then 0o200 else if i = 1154 then 1
  else if i = 1568 then 3 else if 1570 ≤ i ∧ i < 1584 then 97
  else bareV7 i

def stemVolume : Mnt :=
  { final (filsysOpenArch { edition := .v7 })
      { fs := { desc := filsysGetformat .v7 }, img := stemImage, size := 2048 } with
    env := {} }

/-- The entry `unlink` takes away is the one of the first fourteen bytes. -/
theorem unlinking_a_longer_name_removes_its_stem :
    lookup (entriesOf stemVolume 2) (List.replicate 14 97) = some (3, List.replicate 14 97) ∧
    errorOf ((Call.unlink false).run 2 fifteen) stemVolume = none ∧
    lookup (entriesOf (final ((Call.unlink false).run 2 fifteen) stemVolume) 2) (List.replicate 14 97) = none ∧
    ¬ TurnedAway 2 stemVolume ((Call.unlink false).run 2 fifteen) := by
  have hok : errorOf ((Call.unlink false).run 2 fifteen) stemVolume = none := by decide +kernel
  exact ⟨by decide +kernel, hok, by decide +kernel, not_turnedAway hok⟩

end Filsys.Names
