/-
  Filsys.Names.Removals — the calls that add a name to a file or take one away
  (filsys.c).

  `filsys_link_in` gives a file one more name, `filsys_unlink_in` one less, and
  `filsys_rmdir_in` takes an empty directory down. On a fit volume and without a failed
  transfer each changes the census by just that, or fails with the census as it was
  (`post_linkIn`, `post_unlinkIn`, `post_rmdirIn`). A directory is given a new name only
  where the walk up from there does not meet it (`post_refuseCycle`).
-/

import Filsys.Names.Births

namespace Filsys.Names

open Filsys.Lib Filsys.Engine Filsys.Alloc Filsys.Tree

/-! ## Names of a file -/

namespace Census

/-- One more name of `n`. -/
def link (c : Census) (d : Nat) (name : Name) (n : Nat) : Census := (c.enter d name n).relink n (c.nlink n + 1)

/-- A name less of `n`. -/
def unlink (c : Census) (d : Nat) (name : Name) (n : Nat) : Census := (c.leave d name).relink n (c.nlink n - 1)

/-- A name less of `n`, which goes with its last one unless someone has it open. -/
def drop (c : Census) (d : Nat) (name : Name) (n : Nat) (defer : Bool) : Census :=
  if c.nlink n = 1 ∧ defer = false then (c.unlink d name n).gone n else c.unlink d name n

@[simp] theorem link_kind (c : Census) (d : Nat) (name : Name) (n : Nat) :
    (c.link d name n).kind = c.kind := rfl
@[simp] theorem link_links (c : Census) (d : Nat) (name : Name) (n : Nat) :
    (c.link d name n).links = c.links.put d name (some n) := rfl
@[simp] theorem link_nlink (c : Census) (d x : Nat) (name : Name) (n : Nat) :
    (c.link d name n).nlink x = if x = n then c.nlink n + 1 else c.nlink x := rfl
@[simp] theorem unlink_kind (c : Census) (d : Nat) (name : Name) (n : Nat) :
    (c.unlink d name n).kind = c.kind := rfl
@[simp] theorem unlink_links (c : Census) (d : Nat) (name : Name) (n : Nat) :
    (c.unlink d name n).links = c.links.put d name none := rfl
@[simp] theorem unlink_nlink (c : Census) (d x : Nat) (name : Name) (n : Nat) :
    (c.unlink d name n).nlink x = if x = n then c.nlink n - 1 else c.nlink x := rfl

theorem gone_relink (c : Census) (n : Nat) (k : Int) : (c.relink n k).gone n = c.gone n := by
  apply Census.ext
  · rfl
  · funext x
    simp only [gone_nlink, relink_nlink]
    split <;> rfl
  · rfl

variable {c : Census} {root d n : Nat} {name : Name} (h : Consistent c root)
    (hn : c.kind n = some false) (hname : ProperName name) (hd : c.links d name = some n)

include h hn hname hd

theorem consistent_dropped (defer : Bool) : Consistent (c.drop d name n defer) root := by
  have hone := consistent_unlinked h hn hname hd
  unfold drop
  split
  · rename_i hlast
    refine consistent_gone hone hn ?_
    show (if n = n then c.nlink n - 1 else _) = 0
    rw [if_pos rfl, hlast.1]
    rfl
  · exact hone

end Census

section Names

variable {s : Mnt} {own : Own} (hf : Fit s own) (hno : ¬ Fault s)

include hf hno

/-- `dir_remove` on a copy that is not looked at again. -/
theorem post_removeIn {n : Nat} {ip : Inode} (hc : Current s n ip) (hn : (census s).kind n = some true)
    {name : Name} (hz : 0 ∉ name)
    (hshort : name.length ≤ s.fs.desc.maxNamlen) {m : Nat} (hm : (census s).links n name = some m)
    (h0 : 0 ≤ ip.nlink)
    (hmax : ip.nlink ≤ linkMax s.fs.desc) : Post (withIp ip (dirRemove name) s)
    (fun _ t => ∃ own', Went (· = n) s own t own' ∧
      census t = ((census s).leave n name).relink n ip.nlink) (fun _ _ => False) := by
  refine post_bind ((post_removeFit hf hno hc hn hz hshort hm h0 hmax).mono ?_ fun _ _ h => h)
  intro r t hr
  obtain ⟨rc, ip'⟩ := r
  obtain ⟨⟨a, ha⟩, own', hw, -, -, -, -, hcensus⟩ := hr
  obtain rfl : rc = .ok a := ha
  exact ⟨own', hw, hcensus⟩

/-- A name is looked up in a live directory, and what it stands for is read. -/
theorem post_find {dir : Nat} (hdir : (census s).kind dir = some true) {name : Name} (hz : 0 ∉ name)
    (hshort : name.length ≤ s.fs.desc.maxNamlen)
    (hlive : ∀ m, (census s).links dir name = some m → (census s).kind m ≠ none) {α : Type}
    {k : Inode → Nat → Inode → M α} {Q : α → Mnt → Prop}
    {E : Errno → Mnt → Prop} (hmiss : ∀ t, Looked s t → (census s).links dir name = none → E .enoent t)
    (hk : ∀ m b ddir ip t, Looked s t → (census s).links dir name = some m →
      (census s).kind m = some b → Current t dir ddir → ddir.nlink = (census s).nlink dir →
      Current t m ip → ip.nlink = (census s).nlink m → modeIsDir s.fs.desc ip = b → Post (k ddir m ip t) Q E) :
    Post ((readInode dir >>= fun ddir => lookupIn ddir name >>= fun m => failAs .eio (readInode m) >>=
      fun ip => k ddir m ip : M α) s) Q E := by
  refine post_bind ((post_readLive hf hno hdir).mono ?_ fun _ _ h => h.elim)
  intro ddir t hr
  obtain ⟨ht, hct, hlink, -, -⟩ := hr
  have hft := hf.looked ht
  have hnt := looked_clear ht hno
  refine post_bind ((post_lookupFit hft hnt hct (by rw [looked_census ht]; exact hdir) hz
    (by rw [ht.fs]; exact hshort)).mono ?_ ?_)
  · intro m u hr
    obtain ⟨hu, hm⟩ := hr
    rw [looked_census ht] at hm
    have hsu := looked_law.trans ht hu
    obtain ⟨b, hb⟩ := Option.ne_none_iff_exists'.mp (hlive m hm)
    refine post_bind (post_failAs
      ((post_readLive (hf.looked hsu) (looked_clear hsu hno) (by rw [looked_census hsu]; exact hb)).mono
      ?_ fun _ _ h => h.elim))
    intro ip v hr
    obtain ⟨hv, hcv, hlinkv, hdirv, -⟩ := hr
    rw [looked_census hsu] at hlinkv
    rw [hsu.fs] at hdirv
    exact hk m b ddir ip v (looked_law.trans hsu hv) hm hb ((hct.looked hu).looked hv) hlink hcv hlinkv hdirv
  · intro e u hr
    obtain ⟨hu, rfl, hnone⟩ := hr
    rw [looked_census ht] at hnone
    exact hmiss u (looked_law.trans ht hu) hnone

/-! ## Unlinking -/

/-- The name goes, and with the last one the inode unless that is put off. -/
theorem post_unlinkFit {dir : Nat} (hdir : (census s).kind dir = some true) {name : Name}
    (hz : 0 ∉ name) (hshort : name.length ≤ s.fs.desc.maxNamlen)
    {m : Nat} (hm : (census s).links dir name = some m) {b : Bool} (hb : (census s).kind m = some b)
    (hne : m ≠ dir)
    (h0 : 0 ≤ (census s).nlink dir) (hmax : (census s).nlink dir ≤ linkMax s.fs.desc)
    (h1 : 1 ≤ (census s).nlink m)
    (hmaxm : (census s).nlink m ≤ linkMax s.fs.desc) (defer : Bool) : Post (filsysUnlinkIn dir name defer s)
    (fun _ t => ∃ own', Went (fun x => x = dir ∨ x = m) s own t own' ∧
      census t = (census s).drop dir name m defer ∧
      (¬ ((census s).nlink m = 1 ∧ defer = false) → Intact m s own t own')) (fun _ _ => False) := by
  refine post_find hf hno hdir hz hshort (fun m' hm' => ?_) (fun t _ hnone => ?_)
    fun m' b' ddir ip t ht hm' hb' hct hlink hcm hlinkm _ => ?_
  · rw [hm] at hm'
    cases hm'
    rw [hb]
    exact nofun
  · rw [hm] at hnone
    cases hnone
  obtain rfl : m = m' := Option.some.inj (hm.symm.trans hm')
  obtain rfl : b = b' := Option.some.inj (hb.symm.trans hb')
  have hft := hf.looked ht
  have hnt := looked_clear ht hno
  have hcensus := looked_census ht
  have hfs := ht.fs
  have hkdir : (census t).kind dir = some true := by rw [hcensus]; exact hdir
  have hfits : name.length ≤ t.fs.desc.maxNamlen := by rw [hfs]; exact hshort
  have hentry : (census t).links dir name = some m := by rw [hcensus]; exact hm
  have hlow : 0 ≤ ddir.nlink := by rw [hlink]; exact h0
  have hhigh : ddir.nlink ≤ linkMax t.fs.desc := by rw [hlink, hfs]; exact hmax
  refine post_bind ((post_removeIn hft hnt hct hkdir hz hfits hentry hlow hhigh).mono ?_ fun _ _ h => h)
  intro _ u hr
  obtain ⟨own', hw, hcu⟩ := hr
  have hcu : census u = (census s).leave dir name := by
    rw [hcu, hcensus]
    exact Census.relink_same hlink.symm
  have hbu : (census u).kind m = some b := by
    rw [hcu]
    exact hb
  have hvalid : ValidIno t.fs m := by
    rw [hfs]
    exact (valid_of_kind hb).1
  have hcur : Current u m ip := hw.current hvalid hne hcm
  have hsu : Went (fun x => x = dir ∨ x = m) s own u own' := (went_looked hf ht _).trans (hw.mono fun _ => .inl)
  have hnu := hw.clear hnt
  have hle := linkMax_le s.fs.desc
  have hmod : (mod16 ip (-1)).nlink = (census s).nlink m - 1 := by
    show toInt16 (ip.nlink + -1) = _
    rw [hlinkm, toInt16_fit (by omega) (by omega)]
    omega
  have hcur' : Current u m (mod16 ip (-1)) := hcur.relinked _
  apply post_ite
  · intro hgo
    rw [hmod] at hgo
    have hvu : ValidIno u.fs m := (valid_of_kind hbu).1
    refine (post_destroyFit hw.fit hnu (Current.data_view hw.fit hcur' hbu) hvu).mono ?_ fun _ _ h => h
    intro _ v hr
    obtain ⟨own'', hwv, hcv⟩ := hr
    have hlast : (census s).nlink m = 1 ∧ defer = false := ⟨by omega, by simpa using hgo.2⟩
    refine ⟨own'', hsu.next hwv fun _ => .inr, ?_, fun hnot => absurd hlast hnot⟩
    unfold Census.drop
    rw [hcv, hcu, if_pos hlast]
    exact (Census.gone_relink _ _ _).symm
  · intro hstay
    rw [hmod] at hstay
    have hdesc : u.fs.desc = s.fs.desc := hw.desc.trans (by rw [hfs])
    refine (post_outFit hw.fit hnu hcur' hbu (by rw [hmod]; omega) (by rw [hmod, hdesc]; omega)).mono ?_
      fun _ _ h => h
    intro _ v hr
    obtain ⟨hwv, hkeep, hcv⟩ := hr
    refine ⟨own', hsu.next hwv fun _ => .inr, ?_, fun _ => ?_⟩
    · unfold Census.drop
      rw [hcv, hcu, hmod, if_neg]
      · rfl
      · exact fun hlast => hstay ⟨by omega, by simpa using hlast.2⟩
    · exact ((intact_looked hf ht (valid_of_kind hb).1).trans (hw.intact hvalid hne)).trans hkeep

/-! ## Linking -/

/-- `..` leads to live directories. -/
def Upward (c : Census) : Prop := ∀ d n, c.links d dotdot = some n → c.kind n = some true

omit hf hno in
theorem Census.Consistent.upward {c : Census} {root : Nat} (h : c.Consistent root) : Upward c :=
  fun d n hn => h.tree.up_eq (h.tree.within d dotdot n hn) hn

/-- The walk up reads only; where it ends without meeting `anc` there is a way to the root that keeps
    clear of it. -/
theorem post_dirAncestor (hup : Upward (census s)) (hdots : 2 ≤ s.fs.desc.maxNamlen) (anc guard : Nat) :
    ∀ {cur : Nat} {t : Mnt}, Looked s t →
    ((census s).kind cur = some true) → Post (dirAncestor anc guard cur t)
      (fun r u => Looked s u ∧
        (r = false → Links.Climbs (census s).links dotdot s.fs.desc.rootino (· = anc) cur))
      (fun _ u => Looked s u) := by
  induction guard with
  | zero => exact fun ht _ => ht
  | succ guard ih =>
    intro cur t ht hcur
    have hft := hf.looked ht
    have hnt := looked_clear ht hno
    have hcensus := looked_census ht
    obtain ⟨hvalid, -, -, -⟩ := valid_of_kind hcur
    refine post_bindFs (post_ite (fun hend => ⟨ht, fun _ => ?_⟩) fun _ =>
      post_ite (fun _ => ⟨ht, nofun⟩) fun hne => ?_)
    · rcases hend with hroot | h0
      · rw [hroot, ht.fs]
        exact .top
      · exact absurd h0 hvalid.1
    have hcur' : (census t).kind cur = some true := by
      rw [hcensus]
      exact hcur
    refine post_bind ((post_readLive hft hnt hcur').mono ?_ fun _ _ h => h.elim)
    intro ip u hrun
    obtain ⟨hu, hcu, -⟩ := hrun
    have hsu := looked_law.trans ht hu
    have hkind : (census u).kind cur = some true := by
      rw [looked_census hsu]
      exact hcur
    have hfit : dotdot.length ≤ u.fs.desc.maxNamlen := by
      rw [hsu.fs]
      exact hdots
    refine post_bind ((post_lookupFit (hf.looked hsu) (looked_clear hsu hno) hcu hkind
      (by decide) hfit).mono ?_ ?_)
    · intro next v hrun
      obtain ⟨hv, hnext⟩ := hrun
      rw [looked_census hsu] at hnext
      refine (ih (looked_law.trans hsu hv) (hup cur next hnext)).mono ?_ fun _ _ h => h
      exact fun r w hw => ⟨hw.1, fun hr => .step hne hnext (hw.2 hr)⟩
    · exact fun e v hv => looked_law.trans hsu hv.1

theorem post_refuseCycle (hup : Upward (census s)) (hdots : 2 ≤ s.fs.desc.maxNamlen) (isdir : Bool)
    (src : Nat) {dir : Nat} (hdir : (census s).kind dir = some true) :
    Post (refuseCycle isdir src dir s)
      (fun _ t => Looked s t ∧
        (isdir = true → Links.Climbs (census s).links dotdot s.fs.desc.rootino (· = src) dir))
      (fun _ t => Looked s t) := by
  refine post_ite (fun _ => ?_) fun hno => ⟨looked_law.refl s, fun h => absurd h hno⟩
  refine post_bind ((post_dirAncestor hf hno hup hdots src 65536 (looked_law.refl s) hdir).mono ?_
    fun _ _ h => h)
  intro r t hrun
  obtain ⟨ht, hr⟩ := hrun
  exact post_ite (fun _ => ht) fun hfalse => ⟨ht, fun _ => hr (by simpa using hfalse)⟩

/-- The name goes in and the count up; there may be no room for it, or no way to tell that it makes no cycle. -/
theorem post_linkFit (hup : Upward (census s)) (hdots : 2 ≤ s.fs.desc.maxNamlen) {dir : Nat}
    (hdir : (census s).kind dir = some true) {name : Name}
    (hname : NameOk s.fs.desc name) (hfree : (census s).links dir name = none) {src : Nat} {b : Bool}
    (hb : (census s).kind src = some b) (hne : src ≠ dir)
    (h16 : src < 65536) (hroom : Takes s dir) (h0 : 0 ≤ (census s).nlink dir)
    (hmax : (census s).nlink dir ≤ linkMax s.fs.desc) (h0s : 0 ≤ (census s).nlink src)
    (hmaxs : (census s).nlink src < linkMax s.fs.desc) :
    Post (filsysLinkIn src dir name s)
      (fun _ t => (b = true → Links.Climbs (census s).links dotdot s.fs.desc.rootino (· = src) dir) ∧
        ∃ own', Went (fun x => x = dir ∨ x = src) s own t own' ∧
        census t = (census s).link dir name src ∧ Intact src s own t own')
      (fun _ t => (Looked s t ∨ Full s.fs s.img (recordOf s.fs s.img dir)) ∧ ∃ own',
        Went (· = dir) s own t own' ∧ worldOf t = worldOf s) := by
  obtain ⟨hvalid, -, -, -⟩ := valid_of_kind hb
  have hlooked : ∀ t, Looked s t → (Looked s t ∨ Full s.fs s.img (recordOf s.fs s.img dir)) ∧ ∃ own',
    Went (· = dir) s own t own' ∧ worldOf t = worldOf s :=
    fun t ht => ⟨.inl ht, own, went_looked hf ht _, looked_world ht⟩
  refine post_bindFs (post_bind ((post_readLive hf hno hdir).mono ?_ fun _ _ h => h.elim))
  intro ddir t hr
  obtain ⟨ht, hct, hlink, -, hrec⟩ := hr
  have hcensus := looked_census ht
  refine post_bind (post_failAs
    ((post_readLive (hf.looked ht) (looked_clear ht hno) (by rw [hcensus]; exact hb)).mono ?_
    fun _ _ h => h.elim))
  intro ip u hr
  obtain ⟨hu, hcu, hlinks, hisdir, -⟩ := hr
  rw [hcensus] at hlinks
  have hsu := looked_law.trans ht hu
  have hcensusu := looked_census hsu
  refine post_bind ((post_refuseCycle (hf.looked hsu) (looked_clear hsu hno)
    (by rw [hcensusu]; exact hup) (by rw [hsu.fs]; exact hdots) _ src
    (by rw [hcensusu]; exact hdir)).mono ?_ fun _ v hv => hlooked v (looked_law.trans hsu hv))
  intro _ v hr
  obtain ⟨hv, hclimb⟩ := hr
  have hsv := looked_law.trans hsu hv
  have hcensusv := looked_census hsv
  have hfv := hsv.fs
  rw [hcensusu, hsu.fs] at hclimb
  rw [ht.fs] at hisdir
  have hnv := looked_clear hsv hno
  have hcv : Current v dir ddir := (hct.looked hu).looked hv
  have hkdir : (census v).kind dir = some true := by rw [hcensusv]; exact hdir
  have hfits : NameOk v.fs.desc name := by rw [hfv]; exact hname
  have hfreev : (census v).links dir name = none := by rw [hcensusv]; exact hfree
  have hlow : 0 ≤ ddir.nlink := by rw [hlink]; exact h0
  have hhigh : ddir.nlink ≤ linkMax v.fs.desc := by rw [hlink, hfv]; exact hmax
  refine post_bind ((post_addFit (hf.looked hsv) hnv hcv hkdir hfits hfreev hvalid.1 h16 (hroom.looked hsv) hlow
    hhigh).mono ?_ fun _ _ h => h)
  intro r w hw
  obtain ⟨rc, ddir'⟩ := r
  cases rc with
  | error e =>
    obtain ⟨hfull, own', hw, -, hworld, -⟩ := hw
    refine ⟨.inr ?_, own', (went_looked hf hsv _).trans hw, hworld.trans (looked_world hsv)⟩
    rw [hrec] at hfull
    obtain ⟨k, -, rfl⟩ := hsv
    exact hfull
  | ok _ =>
    obtain ⟨own', hw, -, -, -, hcw⟩ := hw
    rw [hcensusv] at hcw
    have hcw : census w = (census s).enter dir name src := hcw.trans (Census.relink_same hlink.symm)
    have hbw : (census w).kind src = some b := by
      rw [hcw]
      exact hb
    have hcurw : Current w src ip := by
      refine hw.current ?_ hne (hcu.looked hv)
      rw [hfv]
      exact hvalid
    have hle := linkMax_le s.fs.desc
    have hmod : (mod16 ip 1).nlink = (census s).nlink src + 1 := by
      show toInt16 (ip.nlink + 1) = _
      rw [hlinks]
      exact toInt16_fit (by omega) (by omega)
    have hcur' : Current w src (mod16 ip 1) := hcurw.relinked _
    have hdesc : w.fs.desc = s.fs.desc := hw.desc.trans (by rw [hfv])
    refine post_bind (post_attempt
      ((post_outFit hw.fit (hw.clear hnv) hcur' hbw (by rw [hmod]; omega)
      (by rw [hmod, hdesc]; omega)).mono ?_ fun _ _ h => h.elim))
    intro _ x hr
    obtain ⟨hx, hkeep, hcx⟩ := hr
    refine ⟨fun htrue => hclimb (hisdir.trans htrue), own',
      ((went_looked hf hsv _).trans (hw.mono fun _ => .inl)).next hx fun _ => .inr, ?_, ?_⟩
    · rw [hcx, hmod, hcw]
      rfl
    · have hvv : ValidIno v.fs src := by
        rw [hfv]
        exact hvalid
      exact ((intact_looked hf hsv hvalid).trans (hw.intact hvv hne)).trans hkeep

end Names

section Calls

variable {s : Mnt} {own : Own} (h : Standing s own) {dir : Nat} (hdir : (census s).kind dir = some true)
    {name : Name} (hz : 0 ∉ name)
  (hshort : name.length ≤ s.fs.desc.maxNamlen)

include h hdir hz hshort

/-- `filsys_unlink_in`, of a name that is not a directory's. -/
theorem post_unlinkIn (hfile : ∀ m, (census s).links dir name = some m → (census s).kind m = some false)
    (defer : Bool) :
    Post (filsysUnlinkIn dir name defer s)
      (fun _ t => ∃ m, (census s).links dir name = some m ∧
        Becomes (fun x => x = dir ∨ (census s).links dir name = some x) s own t
        ((census s).drop dir name m defer))
      (fun e t => e = .enoent ∧ (census s).links dir name = none ∧
        Becomes (fun _ => False) s own t (census s)) := by
  cases hm : (census s).links dir name with
  | none =>
    refine post_find h.fit h.clear hdir hz hshort ?_ (fun t ht _ => ⟨rfl, rfl, becomes_looked h.fit ht _⟩) ?_
    · intro m hm'
      rw [hm] at hm'
      cases hm'
    · intro m b ddir ip t _ hm'
      rw [hm] at hm'
      cases hm'
  | some m =>
    have hk := hfile m hm
    have hne : m ≠ dir := by
      rintro rfl
      rw [hdir] at hk
      cases hk
    refine (post_unlinkFit h.fit h.clear hdir hz hshort hm hk hne (h.nlink_nonneg dir)
      (h.nlink_le dir) (h.consistent.nlink_pos hm) (h.nlink_le m) defer).mono ?_ fun _ _ hf => hf.elim
    intro _ t hr
    obtain ⟨own', hw, hc, hkeep⟩ := hr
    refine ⟨m, rfl, own', hw.mono fun x hx => hx.imp id fun he => by rw [he], hc, fun k hk hk' => ?_⟩
    by_cases hkm : k = m
    · subst hkm
      refine hkeep fun hlast => ?_
      unfold Census.drop at hk'
      rw [if_pos hlast, Census.gone_kind, if_pos rfl] at hk'
      cases hk'
    · refine hw.intact (valid_of_kind hk).1 (not_or.mpr ⟨?_, hkm⟩)
      rintro rfl
      rw [hdir] at hk
      cases hk

/-! ## Removing a directory -/

/-- `filsys_rmdir_in`. -/
theorem post_rmdirIn (hname : Census.ProperName name) : Post (filsysRmdirIn dir name s)
    (fun _ t => ∃ m, ((census s).links dir name = some m ∧ (census s).kind m = some true ∧ ∀ l,
      Census.ProperName l → (census s).links m l = none) ∧
      Becomes (fun x => x = dir ∨ (census s).links dir name = some x) s own t ((census s).prune dir name m))
    (fun _ t => Becomes (fun _ => False) s own t (census s)) := by
  have hno := h.clear
  refine post_bindFs (post_find h.fit hno hdir hz hshort (fun m hm => h.consistent.live dir name m hm)
    (fun t ht _ => becomes_looked h.fit ht _)
    fun m b ddir tip t ht hm hb hct hlink hcm hlinkm hisdir => ?_)
  refine post_ite (fun _ => becomes_looked h.fit ht _) fun hyes => ?_
  have hb : (census s).kind m = some true := by
    rw [hb, ← hisdir]
    simpa using hyes
  have hcensus := looked_census ht
  refine post_bind ((post_emptyFit (h.fit.looked ht) (looked_clear ht hno)
    (by rw [hcensus]; exact hb)).mono ?_ fun _ _ h => h.elim)
  intro r u hrun
  obtain ⟨hu, hr⟩ := hrun
  have hsu := looked_law.trans ht hu
  refine post_ite (fun _ => becomes_looked h.fit hsu _) fun hfull => ?_
  rw [hcensus] at hr
  have hempty := hr (by simpa using hfull)
  -- its two names are this one and its own
  have htwo := Census.empty_nlink h.consistent hb hname hm hempty
  have hle := linkMax_le s.fs.desc
  have hnn := h.consistent.nlink_pos (h.consistent.tree.selves dir hdir)
  have hmost := h.nlink_le dir
  have hmod : (mod16 tip (-1)).nlink = 1 := by
    show toInt16 (tip.nlink + -1) = _
    rw [hlinkm, htwo]
    decide
  have hdmod : (mod16 ddir (-1)).nlink = (census s).nlink dir - 1 := by
    show toInt16 (ddir.nlink + -1) = _
    rw [hlink, toInt16_fit (by omega) (by omega)]
    omega
  refine post_ite (fun hmore => ?_) fun _ => ?_
  · rw [hmod] at hmore
    exact absurd hmore (by decide)
  have hne : m ≠ dir := by
    rintro rfl
    rw [hempty name hname] at hm
    cases hm
  have hcd : Current u dir (mod16 ddir (-1)) := (hct.looked hu).relinked _
  have hcu := looked_census hsu
  have hkdir : (census u).kind dir = some true := by rw [hcu]; exact hdir
  have hfits : name.length ≤ u.fs.desc.maxNamlen := by rw [hsu.fs]; exact hshort
  have hentry : (census u).links dir name = some m := by rw [hcu]; exact hm
  have hlow : 0 ≤ (mod16 ddir (-1)).nlink := by rw [hdmod]; omega
  have hhigh : (mod16 ddir (-1)).nlink ≤ linkMax u.fs.desc := by rw [hdmod, hsu.fs]; omega
  have hremove := post_removeIn (h.fit.looked hsu) (looked_clear hsu hno) hcd hkdir hz hfits hentry hlow hhigh
  refine post_bind (hremove.mono ?_ fun _ _ h => h.elim)
  intro _ v hrun
  obtain ⟨own', hw, hcv⟩ := hrun
  rw [hcu, hdmod] at hcv
  have hkv : (census v).kind m = some true := by
    rw [hcv]
    exact hb
  have hvalid : ValidIno u.fs m := by
    rw [hsu.fs]
    exact (valid_of_kind hb).1
  have hcmv : Current v m (mod16 tip (-1)) := (hw.current hvalid hne (hcm.looked hu)).relinked _
  refine (post_destroyFit hw.fit (hw.clear (looked_clear hsu hno)) (Current.data_view hw.fit hcmv hkv)
    (valid_of_kind hkv).1).mono ?_ fun _ _ h => h.elim
  intro _ w hrun
  obtain ⟨own'', hww, hcw⟩ := hrun
  have hall : Went (fun x => x = dir ∨ (census s).links dir name = some x) s own w own'' := by
    refine ((went_looked h.fit hsu _).trans (hw.mono fun _ => .inl)).next hww ?_
    rintro x rfl
    exact .inr hm
  refine ⟨m, ⟨hm, hb, hempty⟩, hall.becomes (fun x hx => ?_) (by rw [hcw, hcv]; rfl)⟩
  rcases hx with rfl | hx
  · rw [hdir]
    exact nofun
  · rw [← Option.some.inj (hm.symm.trans hx), hb]
    exact nofun

/-! ## A new name -/

omit hz hshort in
/-- `filsys_link_in`, of a file, under a name that is free. -/
theorem post_linkIn (hroom : Takes s dir) {src : Nat} (hfile : (census s).kind src = some false)
    (hcount : (census s).nlink src < linkMax s.fs.desc) (h16 : src < 65536)
    (hname : NameOk s.fs.desc name) (hfree : (census s).links dir name = none) :
    Post (filsysLinkIn src dir name s)
      (fun _ t => Becomes (fun x => x = dir ∨ x = src) s own t ((census s).link dir name src))
      (fun _ t => Becomes (· = dir) s own t (census s)) := by
  have hne : src ≠ dir := by
    rintro rfl
    rw [hdir] at hfile
    cases hfile
  refine (post_linkFit h.fit h.clear h.consistent.upward h.dots hdir hname hfree hfile hne h16
    hroom (h.nlink_nonneg dir) (h.nlink_le dir) (h.nlink_nonneg src) hcount).mono ?_ ?_
  · intro _ t hr
    obtain ⟨-, own', hw, hc, hkeep⟩ := hr
    refine ⟨own', hw, hc, fun k hk _ => ?_⟩
    by_cases hks : k = src
    · rw [hks]
      exact hkeep
    · refine hw.intact (valid_of_kind hk).1 (not_or.mpr ⟨?_, hks⟩)
      rintro rfl
      rw [hdir] at hk
      cases hk
  · intro e t hr
    obtain ⟨-, own', hw, hworld⟩ := hr
    refine hw.becomes ?_ (congrArg censusOf hworld)
    rintro k rfl
    rw [hdir]
    exact nofun

end Calls

end Filsys.Names
