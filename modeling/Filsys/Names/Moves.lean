/-
  Filsys.Names.Moves — a rename as a whole (filsys.c).

  `filsys_rename_in` takes the target's name away, links the source under the new name,
  unlinks it from the old, mends `..` and the counts of the parents of a directory, and
  frees what it replaced last. On a fit volume and without a failed transfer all of it is
  one change of the census, `Census.rename`, or it fails and has undone what it did
  (`post_renameIn`). A directory goes nowhere below itself, so the tree stays one
  (`consistent_renamed`).
-/

import Filsys.Names.Removals

namespace Filsys.Names

open Filsys.Lib Filsys.Engine Filsys.Alloc Filsys.Tree

/-! ## What a rename comes to -/

namespace Census

/-- The name of `n` passes from `sname` in `sd` to `tname` in `td`. -/
def pass (c : Census) (sd : Nat) (sname : Name) (td : Nat) (tname : Name) (n : Nat) : Census :=
    (c.enter td tname n).leave sd sname

/-- What `tname` stood for makes room, and `n` is renamed. -/
def rename (c : Census) (sd : Nat) (sname : Name) (td : Nat) (tname : Name) (n : Nat)
    (target : Option Nat) (defer : Bool) : Census :=
  if c.kind n = some true then (target.elim c fun m => c.prune td tname m).move sd sname td tname n
  else (target.elim c fun m => c.drop td tname m defer).pass sd sname td tname n

@[simp] theorem pass_kind (c : Census) (sd td n : Nat) (sname tname : Name) :
    (c.pass sd sname td tname n).kind = c.kind := rfl
@[simp] theorem pass_nlink (c : Census) (sd td n : Nat) (sname tname : Name) :
    (c.pass sd sname td tname n).nlink = c.nlink := rfl
@[simp] theorem pass_links (c : Census) (sd td n : Nat) (sname tname : Name) :
    (c.pass sd sname td tname n).links = (c.links.put td tname (some n)).put sd sname none := rfl

/-- Linked under the new name and unlinked under the old. -/
theorem unlink_link (c : Census) (sd td n : Nat) (sname tname : Name) :
    (c.link td tname n).unlink sd sname n = c.pass sd sname td tname n := by
  apply Census.ext
  · rfl
  · funext x
    simp only [unlink_nlink, link_nlink, pass_nlink]
    split
    · rename_i hx
      simp [hx]
    · rfl
  · rfl

/-- What has gone has no part in the passing of a name between others. -/
theorem gone_pass (c : Census) {sd td n m : Nat} (sname tname : Name) (hsd : sd ≠ m) (htd : td ≠ m) :
    (c.pass sd sname td tname n).gone m = (c.gone m).pass sd sname td tname n := by
  apply Census.ext
  · rfl
  · rfl
  · simp only [gone_links, pass_links]
    rw [Links.wipe_put _ _ _ hsd, Links.wipe_put _ _ _ htd]

/-- Nor in the moving of a directory. -/
theorem gone_move {c : Census} {sd td n m : Nat} (sname tname : Name) (hsd : sd ≠ m)
    (htd : td ≠ m) (hn : n ≠ m) :
    (c.move sd sname td tname n).gone m = (c.gone m).move sd sname td tname n := by
  have hshift : ∀ c : Census, (c.shift sd td).gone m = (c.gone m).shift sd td := by
    intro c
    unfold shift
    split
    · rfl
    · apply Census.ext
      · rfl
      · funext x
        simp only [gone_nlink, relink_nlink, if_neg hsd, if_neg htd]
        by_cases hx : x = m
        · simp [hx, Ne.symm hsd, Ne.symm htd]
        · simp [hx]
      · rfl
  have hput : ∀ (c : Census) (d : Nat) (name : Name) (k : Nat), d ≠ m → (c.enter d name k).gone m =
    (c.gone m).enter d name k := by
    intro c d name k hd
    apply Census.ext
    · rfl
    · rfl
    · simp only [gone_links, enter_links]
      rw [Links.wipe_put _ _ _ hd]
  have htake : ∀ (c : Census) (d : Nat) (name : Name), d ≠ m → (c.leave d name).gone m =
    (c.gone m).leave d name := by
    intro c d name hd
    apply Census.ext
    · rfl
    · rfl
    · simp only [gone_links, leave_links]
      rw [Links.wipe_put _ _ _ hd]
  unfold move
  rw [hput _ _ _ _ hn, htake _ _ _ hn, hshift, htake _ _ _ hsd, hput _ _ _ _ htd]

section Keep

variable {c : Census} {root : Nat} (h : Consistent c root) {sd td n : Nat} {sname tname : Name}

include h

/-- A file gets another name for one it had. -/
theorem consistent_passed (hn : c.kind n = some false) (htd : c.kind td = some true)
    (hsname : ProperName sname) (htname : ProperName tname)
    (hs : c.links sd sname = some n) (hfree : c.links td tname = none) :
    Consistent (c.pass sd sname td tname n) root := by
  rw [← unlink_link]
  refine consistent_unlinked (consistent_linked h htd hn htname hfree) hn hsname ?_
  show c.links.put td tname (some n) sd sname = some n
  unfold Links.put
  split
  · rfl
  · exact hs

/-- A directory with nothing of its own in it is no one's parent. -/
theorem up_ne {m : Nat} (hm : c.kind m = some true) (hroot : m ≠ root)
    (hempty : ∀ l, ProperName l → c.links m l = none) {x p : Nat}
    (hp : c.links x dotdot = some p) : p ≠ m := by
  rintro rfl
  have hx := h.tree.within x dotdot p hp
  by_cases hxr : x = root
  · rw [hxr, h.tree.rootUp] at hp
    exact hroot (Option.some.inj hp).symm
  · obtain ⟨-, l, hl, hlx⟩ := h.tree.child_of_up hx hxr hp
    rw [hempty l hl] at hlx
    cases hlx

/-- The way to the root keeps clear of it. -/
theorem climbs_pruned {m : Nat} (hm : c.kind m = some true) (hmname : ProperName tname)
    (hp : c.links td tname = some m)
    (hempty : ∀ l, ProperName l → c.links m l = none) {bar : Nat → Prop} {d : Nat} (hdm : d ≠ m)
    (hd : Links.Climbs c.links dotdot root bar d) :
    Links.Climbs (c.prune td tname m).links dotdot root bar d := by
  obtain ⟨-, hroot⟩ := h.tree.parent m td tname hm hmname hp
  induction hd with
  | top => exact .top
  | @step d p hbar hup _ ih =>
    refine .step hbar ?_ (ih (up_ne h hm hroot hempty hup))
    show (c.links.put td tname none).wipe m d dotdot = some p
    rw [Links.wipe_ne _ _ hdm, Links.put_name _ _ _ _ (Ne.symm hmname.2)]
    exact hup

/-- Whatever is renamed, names and counts agree and the directories are a tree. -/
theorem consistent_renamed {b : Bool} (hn : c.kind n = some b) (htd : c.kind td = some true)
    (hsname : ProperName sname) (htname : ProperName tname)
    (hs : c.links sd sname = some n) {target : Option Nat} (ht : c.links td tname = target)
    (hne : target ≠ some n)
    (hkind : ∀ m, target = some m → c.kind m = some b ∧ (b = true → ∀ l, ProperName l → c.links m l = none))
    (hclear : b = true → Links.Climbs c.links dotdot root (· = n) td) (defer : Bool) :
    Consistent (c.rename sd sname td tname n target defer) root := by
  have hsd := h.tree.within sd sname n hs
  unfold rename
  cases b with
  | false =>
    rw [if_neg (by rw [hn]; exact nofun)]
    cases target with
    | none => exact consistent_passed h hn htd hsname htname hs ht
    | some m =>
      obtain ⟨hm, -⟩ := hkind m rfl
      have hnm : n ≠ m := fun he => hne (congrArg some he.symm)
      have hsm : sd ≠ m := by
        rintro rfl
        rw [hsd] at hm
        cases hm
      have htm : td ≠ m := by
        rintro rfl
        rw [htd] at hm
        cases hm
      have hwipe : (c.links.put td tname none).wipe m = c.links.put td tname none := by
        refine Links.wipe_bare fun l => ?_
        rw [Links.put_dir _ _ _ _ (Ne.symm htm)]
        exact h.bare (by rw [hm]; exact nofun) l
      have hlinks : (c.drop td tname m defer).links = c.links.put td tname none := by
        unfold drop
        split
        · exact hwipe
        · rfl
      have hkinds : ∀ x, x ≠ m → (c.drop td tname m defer).kind x = c.kind x := by
        intro x hx
        unfold drop
        split
        · exact if_neg hx
        · rfl
      have hsame : ¬ (sd = td ∧ sname = tname) := by
        rintro ⟨rfl, rfl⟩
        rw [hs] at ht
        exact hne ht.symm
      refine consistent_passed (consistent_dropped h hm htname ht defer) ?_ ?_ hsname htname ?_ ?_
      · rw [hkinds n hnm]
        exact hn
      · rw [hkinds td htm]
        exact htd
      · rw [hlinks]
        exact (if_neg hsame).trans hs
      · rw [hlinks]
        exact Links.put_same ..
  | true =>
    rw [if_pos hn]
    cases target with
    | none => exact consistent_moved h hn hsname hs htd htname ht (hclear rfl)
    | some m =>
      obtain ⟨hm, hempty⟩ := hkind m rfl
      have hempty := hempty rfl
      have hnm : n ≠ m := fun he => hne (congrArg some he.symm)
      have hsm : sd ≠ m := by
        rintro rfl
        rw [hempty sname hsname] at hs
        cases hs
      have htm : td ≠ m := by
        rintro rfl
        rw [hempty tname htname] at ht
        cases ht
      have hsame : ¬ (sd = td ∧ sname = tname) := by
        rintro ⟨rfl, rfl⟩
        rw [hs] at ht
        exact hne ht.symm
      refine consistent_moved (consistent_pruned h hm htname ht hempty) ?_ hsname ?_ ?_ htname ?_
        (climbs_pruned h hm htname ht hempty htm (hclear rfl))
      · exact (if_neg hnm).trans hn
      · show (c.links.put td tname none).wipe m sd sname = some n
        rw [Links.wipe_ne _ _ hsm]
        exact (if_neg hsame).trans hs
      · exact (if_neg htm).trans htd
      · show (c.links.put td tname none).wipe m td tname = none
        rw [Links.wipe_ne _ _ htm]
        exact Links.put_same ..

end Keep

/-- A directory with a child has at least two names. -/
theorem Consistent.parent_nlink {c : Census} {root d n : Nat} {name : Name} (h : Consistent c root)
    (hn : c.kind n = some true) (hname : ProperName name)
    (hd : c.links d name = some n) : 2 ≤ c.nlink d := by
  have hdir := h.tree.within d name n hd
  have hself := h.tree.selves d hdir
  have hup := (h.tree.parent n d name hn hname hd).1
  have hpair : ({(d, dot), (n, dotdot)} : Set (Nat × Name)) ⊆ c.links.names d := by
    intro x hr
    rcases hr with rfl | rfl
    · exact hself
    · exact hup
  have hcard := Set.ncard_le_ncard hpair (h.few.names d)
  have hne : (d, dot) ≠ (n, dotdot) := fun he => absurd (congrArg Prod.snd he) (show dot ≠ dotdot by decide)
  rw [Set.ncard_pair hne] at hcard
  rw [h.count d (by rw [hdir]; exact nofun)]
  exact Int.ofNat_le.mpr hcard

end Census

/-! ## The target -/

/-- What stands under the target's name has lost it, and can have it back. -/
structure Displaced (s : Mnt) (own : Own) (src : Nat) (b : Bool) (tdir : Nat) (tname : Name)
    (d : Target) (t : Mnt) (own' : Own) : Prop where
  name : (census s).links tdir tname = some d.ino
  kind : (census s).kind d.ino = some b
  ne : d.ino ≠ src
  isdir : d.isdir = b
  empty : b = true → ∀ l, Census.ProperName l → (census s).links d.ino l = none
  free : d.free = true ↔ b = true ∨ (census s).nlink d.ino = 1
  went : Went (fun x => x = tdir ∨ x = d.ino) s own t own'
  saved : Current t d.ino d.saved
  intact : Intact d.ino s own t own'
  count : d.saved.nlink = (census s).nlink d.ino
  copy : Current t tdir d.tdirip
  link : d.tdirip.nlink = (census s).nlink tdir
  room : ¬ Full t.fs t.img d.tdirip
  made : census t = if b then (census s).leave tdir tname else (census s).unlink tdir tname d.ino

/-- What the check of the target's name comes to. -/
def Aimed (s : Mnt) (own : Own) (src : Nat) (b : Bool) (tdir : Nat) (tname : Name) (t : Mnt) :
    Option (Option Target) → Prop
  | none => Looked s t ∧ (census s).links tdir tname = some src
  | some none => Looked s t ∧ (census s).links tdir tname = none
  | some (some d) => ∃ own', Displaced s own src b tdir tname d t own'

section Rename

variable {s : Mnt} {own : Own} (h : Standing s own) {tdir : Nat}
    (htdir : (census s).kind tdir = some true) {tname : Name} (hname : NameOk s.fs.desc tname)
  (hproper : Census.ProperName tname) {src : Nat} {b : Bool}

include h htdir hname hproper

theorem post_renameTarget {t : Mnt} (ht : Looked s t) {tdirip : Inode} (hct : Current t tdir tdirip)
    (hlink : tdirip.nlink = (census s).nlink tdir) (noreplace : Bool) :
    Post (renameTarget src b tdirip tname noreplace t)
    (fun r u => Aimed s own src b tdir tname u r) (fun _ u => Looked s u) := by
  have hno := h.clear
  have hcensus := looked_census ht
  refine post_bindFs (post_bind
    ((post_lookupOn (h.fit.looked ht) (looked_clear ht hno) hct (by rw [hcensus]; exact htdir) hname.nul
    (by rw [ht.fs]; exact hname.short)).mono ?_ fun _ _ h => h))
  intro p u hrun
  obtain ⟨rc, ip⟩ := p
  obtain ⟨hu, hip, hrc⟩ := hrun
  obtain rfl : ip = tdirip := hip
  rw [hcensus] at hrc
  have hsu := looked_law.trans ht hu
  cases rc with
  | error e => exact ⟨hsu, hrc.2⟩
  | ok tino =>
    have hlinks : (census s).links tdir tname = some tino := hrc
    refine post_ite (fun _ => hsu) fun _ => post_ite (fun hsame => ⟨hsu, by rw [hlinks, hsame]⟩) fun hne => ?_
    obtain ⟨k, hk⟩ := Option.ne_none_iff_exists'.mp (h.consistent.live tdir tname tino hlinks)
    refine post_bind (post_failAs
      ((post_readLive (h.fit.looked hsu) (looked_clear hsu hno)
      (by rw [looked_census hsu]; exact hk)).mono ?_ fun _ _ h => h.elim))
    intro tip v hrun
    obtain ⟨hv, hcv, hlinkv, hdirv, -⟩ := hrun
    have hsv := looked_law.trans hsu hv
    rw [looked_census hsu] at hlinkv
    have hdirv : modeIsDir t.fs.desc tip = k := by
      rw [ht.fs, ← hsu.fs]
      exact hdirv
    refine post_ite (fun _ => hsv) fun h1 => post_ite (fun _ => hsv) fun h2 => ?_
    -- the two are of one kind
    obtain rfl : k = b := by
      rw [hdirv] at h1 h2
      cases k <;> cases b <;> simp_all
    have hempty : Post (onlyIf (modeIsDir t.fs.desc tip = true) (dirIsEmpty tino >>= fun empty =>
      onlyIf (!empty) (throw .enotempty)) v)
        (fun _ w => Looked v w ∧ (k = true → ∀ l, Census.ProperName l → (census s).links tino l = none))
          (fun _ w => Looked s w) := by
      refine post_onlyIf (fun hd => ?_) fun hd => ⟨looked_law.refl v, fun hk => absurd (hdirv.trans hk) hd⟩
      rw [hdirv] at hd
      have hcv := looked_census hsv
      refine post_bind ((post_emptyFit (h.fit.looked hsv) (looked_clear hsv hno)
        (by rw [hcv, hk, hd])).mono ?_ fun _ _ h => h.elim)
      intro r w hrun
      obtain ⟨hw, hr⟩ := hrun
      rw [hcv] at hr
      exact post_onlyIf (fun _ => looked_law.trans hsv hw) fun hr' => ⟨hw, fun _ => hr (by simpa using hr')⟩
    refine post_bind (hempty.mono ?_ fun _ _ h => h)
    intro _ w hrun
    obtain ⟨hw, hnothing⟩ := hrun
    have hsw := looked_law.trans hsv hw
    have hcensusw := looked_census hsw
    have hnw := looked_clear hsw hno
    have hfw := hsw.fs
    have hle := linkMax_le s.fs.desc
    have hnn := h.nlink_nonneg tdir
    have hmost := h.nlink_le tdir
    have hone := h.consistent.nlink_pos hlinks
    have hmostm := h.nlink_le tino
    have hvalid : ValidIno w.fs tino := by
      rw [hfw]
      exact (valid_of_kind hk).1
    have hntd : tino ≠ tdir := by
      rintro rfl
      obtain rfl : k = true := Option.some.inj (hk.symm.trans htdir)
      rw [hnothing rfl tname hproper] at hlinks
      cases hlinks
    have hcopy : Current w tdir ip := ((hct.looked hu).looked hv).looked hw
    have hsaved : Current w tino tip := hcv.looked hw
    have hktdir : (census w).kind tdir = some true := by rw [hcensusw]; exact htdir
    have hshort : tname.length ≤ w.fs.desc.maxNamlen := by rw [hfw]; exact hname.short
    have hentry : (census w).links tdir tname = some tino := by rw [hcensusw]; exact hlinks
    have hlow : 0 ≤ ip.nlink := by rw [hlink]; exact hnn
    have hhigh : ip.nlink ≤ linkMax w.fs.desc := by rw [hlink, hfw]; exact hmost
    refine post_bind ((post_removeFit (h.fit.looked hsw) hnw hcopy hktdir hname.nul hshort hentry hlow
      hhigh).mono ?_ fun _ _ h => h)
    intro p x hrun
    obtain ⟨rc, ip'⟩ := p
    obtain ⟨⟨a, ha⟩, own', hx, hcx, hlinkx, -, hroom, hcensusx⟩ := hrun
    obtain rfl : rc = .ok a := ha
    have hlinkx : ip'.nlink = (census s).nlink tdir := hlinkx.trans hlink
    have hcensusx : census x = (census s).leave tdir tname := by
      rw [hcensusx, hcensusw]
      exact Census.relink_same hlink.symm
    have hsx : Went (fun y => y = tdir ∨ y = tino) s own x own' :=
      (went_looked h.fit hsw _).trans (hx.mono fun _ => .inl)
    have hsavedx : Current x tino tip := hx.current hvalid hntd hsaved
    have hintactx : Intact tino s own x own' :=
      (intact_looked h.fit hsw (valid_of_kind hk).1).trans (hx.intact hvalid hntd)
    apply post_ite
    · intro hd
      obtain rfl : k = true := hdirv.symm.trans hd
      exact ⟨own', hlinks, hk, hne, rfl, hnothing, by simp, hsx, hsavedx, hintactx, hlinkv, hcx,
        hlinkx, hroom, hcensusx⟩
    · intro hd
      obtain rfl : k = false := hdirv.symm.trans (by simpa using hd)
      have hmod : (mod16 tip (-1)).nlink = (census s).nlink tino - 1 := by
        show toInt16 (tip.nlink + -1) = _
        rw [hlinkv, toInt16_fit (by omega) (by omega)]
        omega
      have hcur : Current x tino (mod16 tip (-1)) := hsavedx.relinked _
      have hdx : x.fs.desc = s.fs.desc := hsx.desc
      refine post_bind (post_attempt
        ((post_outFit hx.fit (hx.clear hnw) hcur (b := false) (by rw [hcensusx]; exact hk)
        (by rw [hmod]; omega)
        (by rw [hmod, hdx]; omega)).mono ?_ fun _ _ h => h.elim))
      intro _ y hrun
      obtain ⟨hy, hkeep, hcensusy⟩ := hrun
      have hvx : ValidIno x.fs tdir := (shape_validIno hsx.apart.shape).mpr (valid_of_kind htdir).1
      have hfree : ((mod16 tip (-1)).nlink == 0) = true ↔ False ∨ (census s).nlink tino = 1 := by
        rw [hmod]
        simp only [beq_iff_eq, false_or]
        omega
      have hmade : census y = (census s).unlink tdir tname tino := by
        rw [hcensusy, hcensusx, hmod]
        rfl
      refine ⟨own', hlinks, hk, hne, rfl, hnothing, by simpa using hfree, hsx.next hy fun _ => .inr,
        hkeep.copy _ hsavedx, hintactx.trans hkeep, hlinkv,
        hy.current hvx (Ne.symm hntd) hcx, hlinkx, ?_, hmade⟩
      exact fun hfull => hroom
        ((full_iff hx.fit hy.fit hcx (hy.current hvx (Ne.symm hntd) hcx) (by rw [hcensusx]; exact htdir)
        (world_apart hx.sound hy.apart (Ne.symm hntd)) hy.desc rfl).mp hfull)

/-- What was there has its name and its count again. -/
theorem post_renameRestore {d : Target} {t u : Mnt} {own' : Own}
    (hd : Displaced s own src b tdir tname d t own') (hu : Looked t u) :
    Post (renameRestore (some d) tname u)
      (fun _ v => Becomes (fun x => x = tdir ∨ (census s).links tdir tname = some x) s own v (census s))
      (fun _ _ => False) := by
  have hfu := hd.went.fit.looked hu
  have hnu := looked_clear hu (hd.went.clear h.clear)
  have hcu := looked_census hu
  have hdu : u.fs.desc = s.fs.desc := (congrArg Fs.desc hu.fs).trans hd.went.desc
  have hmade := hd.made
  have hnt : d.ino ≠ tdir := by
    intro he
    have hk := hd.kind
    rw [he, htdir] at hk
    obtain rfl : true = b := Option.some.inj hk
    have hn := hd.name
    rw [he] at hn
    have hempty := hd.empty rfl tname hproper
    rw [he, hn] at hempty
    cases hempty
  have hktd : (census u).kind tdir = some true := by
    rw [hcu, hmade]
    cases b <;> exact htdir
  have hkd : (census u).kind d.ino = some b := by
    rw [hcu, hmade]
    cases b <;> exact hd.kind
  have hfree : (census u).links tdir tname = none := by
    rw [hcu, hmade]
    cases b <;> exact Links.put_same ..
  obtain ⟨hino, h16⟩ := links_lt hd.name
  have hnn := h.nlink_nonneg tdir
  have hmost := h.nlink_le tdir
  have hcopy : Current u tdir d.tdirip := hd.copy.looked hu
  have hfits : NameOk u.fs.desc tname := by rw [hdu]; exact hname
  have hktdt : (census t).kind tdir = some true := by
    rw [← hcu]
    exact hktd
  have hroom : Takes u tdir := (takes_of_gap hd.went.fit hd.copy hktdt hd.room).looked hu
  have hlow : 0 ≤ d.tdirip.nlink := by rw [hd.link]; exact hnn
  have hhigh : d.tdirip.nlink ≤ linkMax u.fs.desc := by rw [hd.link, hdu]; exact hmost
  refine post_bind ((post_addFit hfu hnu hcopy hktd hfits hfree hino h16 hroom hlow hhigh).mono ?_
    fun _ _ h => h)
  intro r v hv
  obtain ⟨rc, ip⟩ := r
  cases rc with
  | error e =>
    obtain ⟨hfull, -⟩ := hv
    obtain ⟨k, -, rfl⟩ := hu
    exact absurd hfull hd.room
  | ok _ =>
    obtain ⟨own₂, hv, -, -, -, hcv⟩ := hv
    have hsaved : Current v d.ino d.saved := by
      refine hv.current ?_ hnt (hd.saved.looked hu)
      exact (valid_of_kind hkd).1
    have hkv : (census v).kind d.ino = some b := by
      rw [hcv]
      exact hkd
    have hnnm := h.nlink_nonneg d.ino
    have hmostm := h.nlink_le d.ino
    have hdv : v.fs.desc = s.fs.desc := hv.desc.trans hdu
    refine post_bind (post_attempt ((post_outFit hv.fit (hv.clear hnu) hsaved hkv (by rw [hd.count]; exact hnnm)
      (by rw [hd.count, hdv]; exact hmostm)).mono ?_ fun _ _ h => h.elim))
    intro _ w hr
    obtain ⟨hw, hkeep, hcw⟩ := hr
    have hsu := hd.went.trans (went_looked hd.went.fit hu _)
    have hall := (hsu.next hv fun _ => .inl).next hw fun _ => .inr
    have hfiles : ∀ k, (census s).kind k = some false → Intact k s own w own₂ := by
      intro k hk
      by_cases hkm : k = d.ino
      · rw [hkm]
        have hvt : ValidIno t.fs d.ino := (shape_validIno hd.went.apart.shape).mpr (valid_of_kind hd.kind).1
        exact ((hd.intact.trans (intact_looked hd.went.fit hu hvt)).trans
          (hv.intact (valid_of_kind hkd).1 hnt)).trans hkeep
      · refine hall.intact (valid_of_kind hk).1 (not_or.mpr ⟨?_, hkm⟩)
        rintro rfl
        rw [htdir] at hk
        cases hk
    refine ⟨own₂, hall.mono fun x hx => ?_, ?_, fun k hk _ => hfiles k hk⟩
    · rcases hx with rfl | rfl
      · exact .inl rfl
      · exact .inr hd.name
    rw [hcw, hd.count, hcv, hcu, hmade, hd.link]
    apply Census.ext
    · cases b <;> rfl
    · funext x
      cases b
      · simp only [Bool.false_eq_true, if_false, Census.relink_nlink, Census.enter_nlink, Census.unlink_nlink]
        split
        · rename_i hx
          rw [hx]
        · split
          · rename_i hx
            rw [hx]
          · rfl
      · simp only [if_true, Census.relink_nlink, Census.enter_nlink, Census.leave_nlink]
        split
        · rename_i hx
          rw [hx]
        · split
          · rename_i hx
            rw [hx]
          · rfl
    · cases b <;> exact (Links.put_put _ _ _ _ _).trans (Links.put_self hd.name)

end Rename

/-! ## The parents of a directory -/

namespace Census

/-- The count of `d` loses the `..` of a directory that has been replaced in it. -/
def spare (c : Census) (d : Nat) (replaced : Bool) : Census :=
    if replaced then c.relink d (c.nlink d - 1) else c

/-- It makes no difference when. -/
theorem spare_move (c : Census) (sd td n : Nat) (sname tname : Name) :
    (c.relink td (c.nlink td - 1)).move sd sname td tname n =
    (((((c.pass sd sname td tname n).shift sd td).spare td true).leave n dotdot).enter n dotdot td) := by
  apply Census.ext
  · unfold move shift
    split <;> rfl
  · funext x
    show (((((c.relink td (c.nlink td - 1)).enter td tname n).leave sd sname).shift sd td).nlink x :
      Int) = (((c.pass sd sname td tname n).shift sd td).spare td true).nlink x
    unfold shift spare
    by_cases hsame : sd = td
    · rw [if_pos hsame, if_pos hsame]
      rfl
    · rw [if_neg hsame, if_neg hsame]
      simp only [if_true, relink_nlink, leave_nlink, enter_nlink, pass_nlink, if_neg hsame]
      by_cases hx : x = td
      · rw [if_pos hx, if_pos hx]
        omega
      · simp only [if_neg hx]
  · unfold move shift
    split <;> rfl

end Census

section Fixups

variable {s : Mnt} {own : Own} (hf : Fit s own) (hno : ¬ Fault s)

include hf hno

theorem post_bumpParent {dir : Nat} (hdir : (census s).kind dir = some true) {k : Int}
    (hk : k < 0 → 2 ≤ (census s).nlink dir)
    (h0 : 0 ≤ (census s).nlink dir + k) (hmax : (census s).nlink dir + k ≤ linkMax s.fs.desc) :
    Post (bumpParent dir k s)
      (fun _ t => Went (· = dir) s own t own ∧ census t = (census s).relink dir ((census s).nlink dir +
      k)) (fun _ _ => False) := by
  refine post_bind (post_attempt ((post_readLive hf hno hdir).mono ?_ fun _ _ h => h.elim))
  intro ip t hr
  obtain ⟨ht, hct, hlink, -⟩ := hr
  have hle := linkMax_le s.fs.desc
  have hcensus := looked_census ht
  dsimp only
  rw [if_neg (by rintro ⟨hneg, hfew⟩; have := hk hneg; omega)]
  have hmod : (mod16 ip k).nlink = (census s).nlink dir + k := by
    show toInt16 (ip.nlink + k) = _
    rw [hlink]
    exact toInt16_fit (by omega) (by omega)
  have hcur : Current t dir (mod16 ip k) := hct.relinked _
  refine (post_outFit (hf.looked ht) (looked_clear ht hno) hcur (by rw [hcensus]; exact hdir)
    (by rw [hmod]; exact h0) (by rw [hmod, ht.fs]; exact hmax)).mono ?_ fun _ _ h => h
  intro _ u hr
  obtain ⟨hu, -, hcu⟩ := hr
  exact ⟨(went_looked hf ht _).trans hu, by rw [hcu, hmod, hcensus]⟩

/-- One count less in the old parent, one more in the new. -/
theorem post_shift {sdir tdir : Nat} (hsdir : (census s).kind sdir = some true)
    (htdir : (census s).kind tdir = some true)
    (hs : sdir ≠ tdir → 2 ≤ (census s).nlink sdir ∧ (census s).nlink sdir ≤ linkMax s.fs.desc)
    (ht0 : 0 ≤ (census s).nlink tdir)
    (ht1 : sdir ≠ tdir → (census s).nlink tdir < linkMax s.fs.desc) :
    Post (onlyIf (sdir ≠ tdir) (bumpParent sdir (-1) >>= fun _ => bumpParent tdir 1) s)
      (fun _ t => Went (fun x => x = sdir ∨ x = tdir) s own t own ∧ census t =
      (census s).shift sdir tdir) (fun _ _ => False) := by
  refine post_onlyIf ?_ fun hsame => ⟨went_looked hf (looked_law.refl s) _, ?_⟩
  · intro hne
    obtain ⟨h2, hmax⟩ := hs hne
    have ht1 := ht1 hne
    refine post_bind ((post_bumpParent hf hno hsdir (fun _ => h2) (by omega) (by omega)).mono ?_ fun _ _ h => h)
    intro _ t hr
    obtain ⟨ht, hct⟩ := hr
    have hsame : (census t).nlink tdir = (census s).nlink tdir := by
      rw [hct]
      exact if_neg (Ne.symm hne)
    have hd := ht.desc
    refine (post_bumpParent ht.fit (ht.clear hno) (by rw [hct]; exact htdir)
      (fun h => absurd h (by decide)) (by rw [hsame]; omega) (by rw [hsame, hd]; omega)).mono ?_
      fun _ _ h => h
    intro _ u hr
    obtain ⟨hu, hcu⟩ := hr
    refine ⟨(ht.mono fun _ => .inl).trans (hu.mono fun _ => .inr), ?_⟩
    unfold Census.shift
    rw [if_neg hne, hcu, hsame, hct]
    rfl
  · unfold Census.shift
    rw [if_pos (Decidable.not_not.mp hsame)]

/-- `..` is given its new meaning; the slot it had takes it. -/
theorem post_redirect {src tdir p : Nat} {cip : Inode} (hc : Current s src cip)
    (hsrc : (census s).kind src = some true) (hlink : cip.nlink = (census s).nlink src)
    (hup : (census s).links src dotdot = some p) (h0 : tdir ≠ 0) (h16 : tdir < 65536)
    (hdots : 2 ≤ s.fs.desc.maxNamlen) (hn0 : 0 ≤ (census s).nlink src)
    (hmax : (census s).nlink src ≤ linkMax s.fs.desc) :
    Post ((onIp cip (dirRemove dotdot) >>= fun r => match r with
        | (.error e, _) => throw e
        | (.ok _, cip) => withIp cip (dirAdd tdir dotdot) : M Unit) s)
      (fun _ t => ∃ own', Went (· = src) s own t own' ∧ census t = ((census s).leave src dotdot).enter
        src dotdot tdir) (fun _ _ => False) := by
  have hnul : 0 ∉ dotdot := by decide
  have hlen : dotdot.length ≤ s.fs.desc.maxNamlen := hdots
  refine post_bind ((post_removeFit hf hno hc hsrc hnul hlen hup (by rw [hlink]; exact hn0)
    (by rw [hlink]; exact hmax)).mono ?_ fun _ _ h => h)
  intro x t hr
  obtain ⟨rc, ip⟩ := x
  obtain ⟨⟨a, ha⟩, own', ht, hct, hlinkt, -, hnotfull, hcensus⟩ := hr
  obtain rfl : rc = .ok a := ha
  have hlinkt : ip.nlink = (census s).nlink src := hlinkt.trans hlink
  have hcensus : census t = (census s).leave src dotdot := hcensus.trans (Census.relink_same hlink.symm)
  have hd := ht.desc
  have hname : NameOk t.fs.desc dotdot := by
    refine ⟨nofun, ?_, by decide, by decide⟩
    rw [hd]
    exact hdots
  have hksrc : (census t).kind src = some true := by rw [hcensus]; exact hsrc
  have hfree : (census t).links src dotdot = none := by rw [hcensus]; exact Links.put_same ..
  have hlow : 0 ≤ ip.nlink := by rw [hlinkt]; exact hn0
  have hhigh : ip.nlink ≤ linkMax t.fs.desc := by rw [hlinkt, hd]; exact hmax
  refine post_bind ((post_addFit ht.fit (ht.clear hno) hct hksrc hname hfree h0 h16
    (takes_of_gap ht.fit hct hksrc hnotfull) hlow hhigh).mono ?_ fun _ _ h => h)
  intro x u hu
  obtain ⟨rc, ip'⟩ := x
  cases rc with
  | error e => exact absurd hu.1 hnotfull
  | ok _ =>
    obtain ⟨own'', hu, -, -, -, hcu⟩ := hu
    refine ⟨own'', ht.trans hu, ?_⟩
    rw [hcu, hcensus]
    exact Census.relink_same hlinkt.symm

/-- The counts of the parents and the `..` of a directory that has moved. -/
theorem post_renameDirFixups {src sdir tdir p : Nat} (hsdir : (census s).kind sdir = some true)
    (htdir : (census s).kind tdir = some true)
    (hsrc : (census s).kind src = some true) (hnsd : src ≠ sdir) (hntd : src ≠ tdir)
    (hup : (census s).links src dotdot = some p) (h0 : tdir ≠ 0) (h16 : tdir < 65536)
    (hs : 2 ≤ (census s).nlink sdir ∧ (census s).nlink sdir ≤ linkMax s.fs.desc)
    (ht0 : 0 ≤ (census s).nlink tdir)
    (ht1 : (census s).nlink tdir ≤ linkMax s.fs.desc)
    (ht2 : sdir ≠ tdir → (census s).nlink tdir < linkMax s.fs.desc) {replaced : Bool}
    (hrep : replaced = true → 2 ≤ (census s).nlink tdir) (hdots : 2 ≤ s.fs.desc.maxNamlen)
    (hn0 : 0 ≤ (census s).nlink src)
    (hmax : (census s).nlink src ≤ linkMax s.fs.desc) : Post (renameDirFixups src sdir tdir replaced s)
      (fun _ t => ∃ own', Went (fun x => x = sdir ∨ x = tdir ∨ x = src) s own t own' ∧
        census t = ((((census s).shift sdir tdir).spare tdir replaced).leave src dotdot).enter src
        dotdot tdir) (fun _ _ => False) := by
  refine post_bind ((post_shift hf hno hsdir htdir (fun _ => hs) ht0 ht2).mono ?_ fun _ _ h => h)
  intro _ t hr
  obtain ⟨ht, hct⟩ := hr
  have hkt : (census t).kind = (census s).kind := by
    rw [hct]
    unfold Census.shift
    split <;> rfl
  have hlt : (census t).links = (census s).links := by
    rw [hct]
    unfold Census.shift
    split <;> rfl
  have hnsrc : (census t).nlink src = (census s).nlink src := by
    rw [hct]
    unfold Census.shift
    split
    · rfl
    · exact (if_neg hntd).trans (if_neg hnsd)
  have hntdir : (census s).nlink tdir ≤ (census t).nlink tdir ∧ (census t).nlink tdir ≤
    (census s).nlink tdir + 1 := by
    rw [hct]
    unfold Census.shift
    split
    · omega
    · have : (((census s).relink sdir ((census s).nlink sdir - 1)).relink tdir ((census s).nlink tdir +
        1)).nlink tdir = (census s).nlink tdir + 1 := if_pos rfl
      omega
  have hspare : Post (onlyIf (replaced = true) (bumpParent tdir (-1)) t)
      (fun _ u => Went (· = tdir) t own u own ∧ census u = (census t).spare tdir replaced)
        (fun _ _ => False) := by
    refine post_onlyIf ?_ fun hnot => ⟨went_looked ht.fit (looked_law.refl t) _, ?_⟩
    · intro hyes
      have h2 := hrep hyes
      refine (post_bumpParent ht.fit (ht.clear hno) (by rw [hkt]; exact htdir) (fun _ => by omega)
        (by omega) (by rw [ht.desc]; omega)).mono ?_ fun _ _ h => h
      intro _ u hr
      obtain ⟨hu, hcu⟩ := hr
      refine ⟨hu, ?_⟩
      unfold Census.spare
      rw [if_pos hyes]
      exact hcu
    · unfold Census.spare
      rw [if_neg hnot]
  refine post_bind (hspare.mono ?_ fun _ _ h => h)
  intro _ u hr
  obtain ⟨hu, hcu⟩ := hr
  have hsu : Went (fun x => x = sdir ∨ x = tdir ∨ x = src) s own u own := by
    refine (ht.mono ?_).trans (hu.mono fun _ hx => .inr (.inl hx))
    exact fun x hx => hx.imp_right .inl
  have hku : (census u).kind = (census s).kind := by
    rw [hcu]
    unfold Census.spare
    split <;> exact hkt
  have hlu : (census u).links = (census s).links := by
    rw [hcu]
    unfold Census.spare
    split <;> exact hlt
  have hnu : (census u).nlink src = (census s).nlink src := by
    rw [hcu]
    unfold Census.spare
    split
    · exact (if_neg hntd).trans hnsrc
    · exact hnsrc
  have hdu := hsu.desc
  refine post_bind (post_attempt
    ((post_readLive hu.fit (hsu.clear hno) (by rw [hku]; exact hsrc)).mono ?_ fun _ _ h => h.elim))
  intro cip v hr
  obtain ⟨hv, hcv, hlinkv, -, -⟩ := hr
  have hcensusv := looked_census hv
  have hclear := looked_clear hv (hsu.clear hno)
  have hksrc : (census v).kind src = some true := by rw [hcensusv, hku]; exact hsrc
  have hcount : cip.nlink = (census v).nlink src := by rw [hcensusv]; exact hlinkv
  have hupv : (census v).links src dotdot = some p := by rw [hcensusv, hlu]; exact hup
  have hdotsv : 2 ≤ v.fs.desc.maxNamlen := by rw [hv.fs, hdu]; exact hdots
  have hlow : 0 ≤ (census v).nlink src := by rw [hcensusv, hnu]; exact hn0
  have hhigh : (census v).nlink src ≤ linkMax v.fs.desc := by rw [hcensusv, hnu, hv.fs, hdu]; exact hmax
  have hredirect := post_redirect (hu.fit.looked hv) hclear hcv hksrc hcount hupv h0 h16 hdotsv hlow hhigh
  refine hredirect.mono ?_ fun _ _ h => h
  intro _ w hr
  obtain ⟨own', hw, hcw⟩ := hr
  refine ⟨own', (hsu.trans (went_looked hu.fit hv _)).next hw fun _ hx => .inr (.inr hx), ?_⟩
  rw [hcw, hcensusv, hcu, hct]

end Fixups

/-! ## The rename -/

/-- Where the target's name is free and everything else is as it was but for what had that name. -/
structure Cleared (s : Mnt) (own : Own) (tdir : Nat) (tname : Name) (t : Mnt) (own' : Own) : Prop where
  went : Went (fun x => x = tdir ∨ (census s).links tdir tname = some x) s own t own'
  kinds : (census t).kind = (census s).kind
  links : (census t).links = (census s).links.put tdir tname none
  counts : ∀ x, (census s).links tdir tname ≠ some x → (census t).nlink x = (census s).nlink x

theorem cleared_looked {s t : Mnt} {own : Own} (hf : Fit s own) {tdir : Nat} {tname : Name}
    (ht : Looked s t) (hfree : (census s).links tdir tname = none) :
    Cleared s own tdir tname t own := by
  have hcensus := looked_census ht
  refine ⟨went_looked hf ht _, by rw [hcensus], ?_, fun _ _ => by rw [hcensus]⟩
  rw [hcensus]
  exact (Links.put_self hfree).symm

theorem Displaced.cleared {s t : Mnt} {own own' : Own} {src tdir : Nat} {b : Bool} {tname : Name}
    {d : Target} (h : Displaced s own src b tdir tname d t own') :
    Cleared s own tdir tname t own' := by
  have hmade := h.made
  refine ⟨h.went.mono fun x hx => hx.imp_right fun he => ?_, ?_, ?_, fun x hx => ?_⟩
  · rw [he]
    exact h.name
  · rw [hmade]
    cases b <;> rfl
  · rw [hmade]
    cases b <;> rfl
  · rw [hmade]
    cases b with
    | true => rfl
    | false => exact if_neg fun he => hx (by rw [he]; exact h.name)

section Rename

variable {s : Mnt} {own : Own} (h : Standing s own) {sdir tdir : Nat}
    (hsdir : (census s).kind sdir = some true) (htdir : (census s).kind tdir = some true)
  {sname tname : Name} (hsname : Census.ProperName sname) (htname : Census.ProperName tname) {src : Nat}
  (hsrc : (census s).links sdir sname = some src) {b : Bool}
  (hb : (census s).kind src = some b) (hother : (census s).links tdir tname ≠ some src) {t : Mnt}
  {own' : Own} (hc : Cleared s own tdir tname t own')

include h hsrc hb hother hc

/-- The new name. -/
theorem post_linkCleared (htdir : (census s).kind tdir = some true) (hnt : src ≠ tdir)
    (hname : NameOk s.fs.desc tname) (hroom : Takes t tdir)
    (hcount : (census s).nlink src < linkMax s.fs.desc)
    (hself : (census s).links tdir tname ≠ some tdir) : Post (filsysLinkIn src tdir tname t)
      (fun _ u => ∃ own₂, Went (fun x => x = tdir ∨ x = src) t own' u own₂ ∧ census u =
      (census t).link tdir tname src ∧ Intact src t own' u own₂)
      (fun _ u => (Looked t u ∨ Full t.fs t.img (recordOf t.fs t.img tdir)) ∧ ∃ own₂,
      Went (· = tdir) t own' u own₂ ∧ worldOf u = worldOf t) := by
  have hd := hc.went.desc
  have hup : Upward (census t) := by
    intro x m hx
    rw [hc.kinds]
    rw [hc.links] at hx
    rcases Links.put_eq_some.mp hx with ⟨-, he⟩ | ⟨-, hg⟩
    · cases he
    · exact h.consistent.upward x m hg
  have hn := hc.counts src hother
  have hnt' := hc.counts tdir hself
  have hnn := h.nlink_nonneg tdir
  have hmost := h.nlink_le tdir
  have hnns := h.nlink_nonneg src
  have hdots : 2 ≤ t.fs.desc.maxNamlen := by rw [hd]; exact h.dots
  have hktdir : (census t).kind tdir = some true := by rw [hc.kinds]; exact htdir
  have hfits : NameOk t.fs.desc tname := by rw [hd]; exact hname
  have hfree : (census t).links tdir tname = none := by rw [hc.links]; exact Links.put_same ..
  have hksrc : (census t).kind src = some b := by rw [hc.kinds]; exact hb
  have hlow : 0 ≤ (census t).nlink tdir := by rw [hnt']; exact hnn
  have hhigh : (census t).nlink tdir ≤ linkMax t.fs.desc := by rw [hnt', hd]; exact hmost
  have hnonneg : 0 ≤ (census t).nlink src := by rw [hn]; exact hnns
  have hmax : (census t).nlink src < linkMax t.fs.desc := by rw [hn, hd]; exact hcount
  have hlink := post_linkFit hc.went.fit (hc.went.clear h.clear) hup hdots hktdir hfits hfree hksrc hnt
    (links_lt hsrc).2 hroom hlow hhigh hnonneg hmax
  refine hlink.mono ?_ fun _ _ h => h
  exact fun _ u hu => hu.2

include hsdir in
/-- The old name. -/
theorem post_unlinkLinked (hz : 0 ∉ sname) (hshort : sname.length ≤ s.fs.desc.maxNamlen)
    (hcount : (census s).nlink src < linkMax s.fs.desc)
    (hns : src ≠ sdir) (hself : (census s).links tdir tname ≠ some sdir)
    {u : Mnt} {own₂ : Own} (hu : Went (fun x => x = tdir ∨ x = src) t own' u own₂)
    (hcu : census u = (census t).link tdir tname src)
    (hkeep : Intact src t own' u own₂) : Post (filsysUnlinkIn sdir sname false u)
      (fun _ v => ∃ own₃, Went (fun x => x = sdir ∨ x = tdir ∨ x = src) t own' v own₃ ∧ census v =
      (census t).pass sdir sname tdir tname src ∧
        Intact src t own' v own₃) (fun _ _ => False) := by
  have hd : u.fs.desc = s.fs.desc := hu.desc.trans hc.went.desc
  have hsame : ¬ (sdir = tdir ∧ sname = tname) := by
    rintro ⟨rfl, rfl⟩
    exact hother hsrc
  have hentry : (census u).links sdir sname = some src := by
    rw [hcu, Census.link_links, hc.links, Links.put_put]
    exact (if_neg hsame).trans hsrc
  have hns' : (census u).nlink sdir = (census s).nlink sdir := by
    rw [hcu]
    exact (if_neg (Ne.symm hns)).trans (hc.counts sdir hself)
  have hn : (census u).nlink src = (census s).nlink src + 1 := by
    rw [hcu, Census.link_nlink, if_pos rfl, hc.counts src hother]
  have hnn := h.nlink_nonneg sdir
  have hmost := h.nlink_le sdir
  have hpos := h.consistent.nlink_pos hsrc
  have hclear := hu.clear (hc.went.clear h.clear)
  have hksdir : (census u).kind sdir = some true := by
    rw [hcu]
    exact (congrFun hc.kinds sdir).trans hsdir
  have hfits : sname.length ≤ u.fs.desc.maxNamlen := by rw [hd]; exact hshort
  have hksrc : (census u).kind src = some b := by
    rw [hcu]
    exact (congrFun hc.kinds src).trans hb
  have hlow : 0 ≤ (census u).nlink sdir := by rw [hns']; exact hnn
  have hhigh : (census u).nlink sdir ≤ linkMax u.fs.desc := by rw [hns', hd]; exact hmost
  have hone : 1 ≤ (census u).nlink src := by rw [hn]; omega
  have hmax : (census u).nlink src ≤ linkMax u.fs.desc := by rw [hn, hd]; omega
  have hunlink := post_unlinkFit hu.fit hclear hksdir hz hfits hentry hksrc hns hlow hhigh hone hmax false
  refine hunlink.mono ?_ fun _ _ h => h
  intro _ v hr
  obtain ⟨own₃, hv, hcv, hkeepv⟩ := hr
  have hmany : ¬ (census u).nlink src = 1 := by
    rw [hn]
    omega
  refine ⟨own₃, (hu.mono fun _ => .inr).next hv ?_, ?_, hkeep.trans (hkeepv fun hlast => hmany hlast.1)⟩
  · intro x hx
    exact hx.imp_right .inr
  · rw [hcv]
    unfold Census.drop
    rw [if_neg fun hlast => hmany hlast.1, hcu, Census.unlink_link]

include hsdir htdir hsname in
/-- The parents and the `..` of the directory, which now has the new name. -/
theorem post_fixupsCleared (hbdir : b = true) (hns : src ≠ sdir) (hnt : src ≠ tdir)
    (hself : ∀ x, x = sdir ∨ x = tdir → (census s).links tdir tname ≠ some x)
    (hcount : sdir ≠ tdir → (census s).nlink tdir < linkMax s.fs.desc)
    {replaced : Bool} (hrep : replaced = true → 2 ≤ (census s).nlink tdir) {v : Mnt} {own₃ : Own}
    (hv : Went (fun x => x = sdir ∨ x = tdir ∨ x = src) t own' v own₃)
    (hcv : census v = (census t).pass sdir sname tdir tname src)
    (htname : Census.ProperName tname) :
    Post (renameDirFixups src sdir tdir replaced v)
      (fun _ w => ∃ own₄, Went (fun x => x = sdir ∨ x = tdir ∨ x = src) t own' w own₄ ∧
        census w = (((((census t).pass sdir sname tdir tname src).shift sdir tdir).spare tdir
        replaced).leave src dotdot).enter src dotdot tdir) (fun _ _ => False) := by
  subst hbdir
  have hd : v.fs.desc = s.fs.desc := hv.desc.trans hc.went.desc
  have hk : (census v).kind = (census s).kind := by
    rw [hcv]
    exact hc.kinds
  have hnl : ∀ x, (census s).links tdir tname ≠ some x → (census v).nlink x = (census s).nlink x := by
    rw [hcv]
    exact hc.counts
  have hs' := hnl sdir (hself sdir (.inl rfl))
  have ht' := hnl tdir (hself tdir (.inr rfl))
  have hn' := hnl src hother
  obtain ⟨p, hp, -⟩ := h.consistent.tree.up_dir hb
  have hup : (census v).links src dotdot = some p := by
    rw [hcv, Census.pass_links, hc.links, Links.put_name _ _ _ _ (Ne.symm hsname.2),
      Links.put_name _ _ _ _ (Ne.symm htname.2),
      Links.put_name _ _ _ _ (Ne.symm htname.2)]
    exact hp
  obtain ⟨h0, h16⟩ := h.dir_lt htdir
  have h2 := h.consistent.parent_nlink hb hsname hsrc
  have hmosts := h.nlink_le sdir
  have hmostt := h.nlink_le tdir
  have hmostn := h.nlink_le src
  have hnnt := h.nlink_nonneg tdir
  have hnnn := h.nlink_nonneg src
  have hclear := hv.clear (hc.went.clear h.clear)
  have hksdir : (census v).kind sdir = some true := by rw [hk]; exact hsdir
  have hktdir : (census v).kind tdir = some true := by rw [hk]; exact htdir
  have hksrc : (census v).kind src = some true := by rw [hk]; exact hb
  have hcounts : 2 ≤ (census v).nlink sdir ∧ (census v).nlink sdir ≤ linkMax v.fs.desc := by
    rw [hs', hd]
    exact ⟨h2, hmosts⟩
  have hlow : 0 ≤ (census v).nlink tdir := by rw [ht']; exact hnnt
  have hhigh : (census v).nlink tdir ≤ linkMax v.fs.desc := by rw [ht', hd]; exact hmostt
  have hmore : sdir ≠ tdir → (census v).nlink tdir < linkMax v.fs.desc := by rw [ht', hd]; exact hcount
  have htwo : replaced = true → 2 ≤ (census v).nlink tdir := by rw [ht']; exact hrep
  have hdots : 2 ≤ v.fs.desc.maxNamlen := by rw [hd]; exact h.dots
  have hnonneg : 0 ≤ (census v).nlink src := by rw [hn']; exact hnnn
  have hmax : (census v).nlink src ≤ linkMax v.fs.desc := by rw [hn', hd]; exact hmostn
  have hfix := post_renameDirFixups hv.fit hclear hksdir hktdir hksrc hns hnt hup h0 h16 hcounts hlow hhigh
    hmore htwo hdots hnonneg hmax
  refine hfix.mono ?_ fun _ _ h => h
  intro _ w hr
  obtain ⟨own₄, hw, hcw⟩ := hr
  exact ⟨own₄, hv.next hw fun _ hx => hx, by rw [hcw, hcv]⟩

end Rename

/-- What a rename has done where it succeeds. -/
def Renamed (c : Census) (root sdir : Nat) (sname : Name) (tdir : Nat) (tname : Name)
    (defer : Bool) (c' : Census) : Prop :=
  c' = c ∧ (sdir = tdir ∧ sname = tname ∨ ∃ n, c.links sdir sname = some n ∧ c.links tdir tname = some n) ∨
  ∃ n b, (c.links sdir sname = some n ∧ c.kind n = some b ∧ c.links tdir tname ≠ some n) ∧
    (∀ m, c.links tdir tname = some m → c.kind m = some b ∧
    (b = true → ∀ l, Census.ProperName l → c.links m l = none)) ∧
    (b = true → Links.Climbs c.links dotdot root (· = n) tdir) ∧ c' = c.rename sdir sname tdir tname n
    (c.links tdir tname) defer

/-- The inodes a rename writes. -/
def Involved (c : Census) (sdir : Nat) (sname : Name) (tdir : Nat) (tname : Name) (x : Nat) : Prop :=
  x = sdir ∨ x = tdir ∨ c.links sdir sname = some x ∨ c.links tdir tname = some x

section Rename

variable {s : Mnt} {own : Own} (h : Standing s own) {sdir tdir : Nat}
    (hsdir : (census s).kind sdir = some true) (htdir : (census s).kind tdir = some true)
  {sname tname : Name} (hz : 0 ∉ sname) (hshort : sname.length ≤ s.fs.desc.maxNamlen)
  (hname : NameOk s.fs.desc tname)
  (hsname : Census.ProperName sname) (htname : Census.ProperName tname)

include h hsdir htdir hsname htname

omit htname in
/-- What the names stand for is not one of the directories they are in. -/
theorem named_ne {src : Nat} {b : Bool} (hsrc : (census s).links sdir sname = some src)
    (hb : (census s).kind src = some b)
    (hclear : b = true → Links.Climbs (census s).links dotdot s.fs.desc.rootino (· = src) tdir) :
    src ≠ sdir ∧ src ≠ tdir := by
  cases b with
  | false =>
    constructor
    · rintro rfl
      rw [hsdir] at hb
      cases hb
    · rintro rfl
      rw [htdir] at hb
      cases hb
  | true =>
    constructor
    · rintro rfl
      exact h.consistent.tree.acyclic src (.single ⟨hb, sname, hsname, hsrc⟩)
    · rintro rfl
      obtain ⟨-, hroot⟩ := h.consistent.tree.parent src sdir sname hb hsname hsrc
      cases hclear rfl with
      | top => exact hroot rfl
      | step hbar _ _ => exact hbar rfl

omit h in
/-- Nor is what the target's name stands for, if it may be replaced. -/
theorem target_ne {src m : Nat} {b : Bool} (hsrc : (census s).links sdir sname = some src)
    (hm : (census s).links tdir tname = some m)
    (hk : (census s).kind m = some b) (hempty : b = true → ∀ l, Census.ProperName l →
    (census s).links m l = none) : m ≠ sdir ∧ m ≠ tdir := by
  cases b with
  | false =>
    constructor
    · rintro rfl
      rw [hsdir] at hk
      cases hk
    · rintro rfl
      rw [htdir] at hk
      cases hk
  | true =>
    constructor
    · rintro rfl
      rw [hempty rfl sname hsname] at hsrc
      cases hsrc
    · rintro rfl
      rw [hempty rfl tname htname] at hm
      cases hm

omit h hsname htname in
/-- A file that is neither renamed nor replaced is left alone. -/
theorem intact_renamed {t : Mnt} {own' : Own}
    (hall : Went (Involved (census s) sdir sname tdir tname) s own t own') {k : Nat}
    (hk : (census s).kind k = some false)
    (hs : (census s).links sdir sname = some k → Intact k s own t own')
    (ht : (census s).links tdir tname = some k → Intact k s own t own') : Intact k s own t own' := by
  by_cases h1 : (census s).links sdir sname = some k
  · exact hs h1
  by_cases h2 : (census s).links tdir tname = some k
  · exact ht h2
  refine hall.intact (valid_of_kind hk).1 ?_
  intro h
  rcases h with rfl | rfl | he | he
  · rw [hsdir] at hk
    cases hk
  · rw [htdir] at hk
    cases hk
  · exact h1 he
  · exact h2 he

omit h hsdir htdir hsname htname in
/-- With a free name for a target, the source is renamed as the target's directory has it. -/
theorem rename_of_free {src : Nat} {b : Bool} (hb : (census s).kind src = some b) (defer : Bool) :
    (census s).rename sdir sname tdir tname src none defer =
      if b = true then ((((((census s).pass sdir sname tdir tname src).shift sdir tdir).spare tdir
      false).leave src dotdot).enter src dotdot tdir)
      else (census s).pass sdir sname tdir tname src := by
  unfold Census.rename
  cases b with
  | true =>
    rw [if_pos hb, if_pos rfl]
    rfl
  | false =>
    rw [if_neg (by rw [hb]; exact nofun), if_neg Bool.false_ne_true]
    rfl

omit h in
/-- With a target, it goes in the end. -/
theorem rename_of_displaced {src : Nat} {b : Bool} {d : Target} {t : Mnt} {own' : Own}
    (hd : Displaced s own src b tdir tname d t own')
    (hsrc : (census s).links sdir sname = some src) (hb : (census s).kind src = some b) (defer : Bool)
    (hdefer : defer = true → b = false) :
    (census s).rename sdir sname tdir tname src (some d.ino) defer =
      if d.free = true ∧ defer = false then
        (if b = true then ((((((census t).pass sdir sname tdir tname src).shift sdir tdir).spare tdir
        true).leave src dotdot).enter src dotdot tdir)
          else (census t).pass sdir sname tdir tname src).gone d.ino
      else (census t).pass sdir sname tdir tname src := by
  obtain ⟨hms, hmt⟩ := target_ne hsdir htdir hsname htname hsrc hd.name hd.kind hd.empty
  have hfree := hd.free
  have hmade := hd.made
  unfold Census.rename
  cases b with
  | true =>
    have hnow : defer = false := by
      cases defer with
      | false => rfl
      | true => cases hdefer rfl
    rw [if_pos hb, if_pos ⟨hfree.mpr (.inl rfl), hnow⟩, if_pos rfl, hmade, if_pos rfl]
    show ((((census s).leave tdir tname).relink tdir ((census s).nlink tdir - 1)).gone d.ino).move
      sdir sname tdir tname src = _
    rw [← Census.gone_move sname tname (Ne.symm hms) (Ne.symm hmt) (Ne.symm hd.ne)]
    exact congrArg (Census.gone · d.ino)
      (Census.spare_move ((census s).leave tdir tname) sdir tdir src sname tname)
  | false =>
    rw [if_neg (by rw [hb]; exact nofun), if_neg Bool.false_ne_true, hmade, if_neg Bool.false_ne_true]
    show ((census s).drop tdir tname d.ino defer).pass sdir sname tdir tname src = _
    unfold Census.drop
    by_cases hlast : (census s).nlink d.ino = 1 ∧ defer = false
    · rw [if_pos hlast, if_pos ⟨hfree.mpr (.inr hlast.1), hlast.2⟩]
      exact (Census.gone_pass _ sname tname (Ne.symm hms) (Ne.symm hmt)).symm
    · rw [if_neg hlast, if_neg]
      rintro ⟨hf, hnow⟩
      exact hlast ⟨(hfree.mp hf).resolve_left nofun, hnow⟩

include hz hshort

/-- The two halves of a rename, once the target is out of the way. -/
theorem post_renamed {src : Nat} {b : Bool} (hsrc : (census s).links sdir sname = some src)
    (hb : (census s).kind src = some b)
    (hother : (census s).links tdir tname ≠ some src) (hclear : b = true →
    Links.Climbs (census s).links dotdot s.fs.desc.rootino (· = src) tdir)
    (hcount : (census s).nlink src < linkMax s.fs.desc)
    (hmore : b = true → sdir ≠ tdir → (census s).nlink tdir < linkMax s.fs.desc)
    {t : Mnt} {own' : Own} (hc : Cleared s own tdir tname t own') (hself : ∀ x, x = sdir ∨ x = tdir →
    (census s).links tdir tname ≠ some x)
    {replaced : Bool} (hrep : b = true → replaced = true → 2 ≤ (census s).nlink tdir) {u : Mnt} {own₂ : Own}
    (hu : Went (fun x => x = tdir ∨ x = src) t own' u own₂)
    (hcu : census u = (census t).link tdir tname src) (hkeep : Intact src t own' u own₂)
    {R : Unit → M Unit} {K : Errno → M Unit} {Q : Unit → Mnt → Prop} {E : Errno → Mnt → Prop}
    (hR : ∀ w own₄, Went (fun x => x = sdir ∨ x = tdir ∨ x = src) t own' w own₄ →
    (b = false → Intact src t own' w own₄) →
      census w = (if b = true then ((((((census t).pass sdir sname tdir tname src).shift sdir
      tdir).spare tdir replaced).leave src dotdot).enter src dotdot tdir)
        else (census t).pass sdir sname tdir tname src) →
        Post (R () w) Q E) {isdir : Bool} (hisdir : isdir = b) :
    Post ((attempt (filsysUnlinkIn sdir sname false) >>= fun r => match r with
      | .error e => K e
      | .ok _ => onlyIf (isdir = true) (renameDirFixups src sdir tdir replaced) >>= R : M Unit) u) Q E := by
  obtain ⟨hns, hnt⟩ := named_ne h hsdir htdir hsname hsrc hb hclear
  subst hisdir
  refine post_bind (post_attempt
    ((post_unlinkLinked h hsdir hsrc hb hother hc hz hshort hcount hns
    (hself sdir (.inl rfl)) hu hcu hkeep).mono ?_ fun _ _ h => h.elim))
  intro _ v hr
  obtain ⟨own₃, hv, hcv, hkeepv⟩ := hr
  have hfix : Post (onlyIf (isdir = true) (renameDirFixups src sdir tdir replaced) v)
      (fun _ w => ∃ own₄, Went (fun x => x = sdir ∨ x = tdir ∨ x = src) t own' w own₄ ∧
        (isdir = false → Intact src t own' w own₄) ∧
        census w = (if isdir = true then ((((((census t).pass sdir sname tdir tname src).shift sdir
        tdir).spare tdir replaced).leave src dotdot).enter src dotdot tdir)
          else (census t).pass sdir sname tdir tname src)) (fun _ _ => False) := by
    refine post_onlyIf (fun hyes => ?_) fun hnot => ⟨own₃, hv, fun _ => hkeepv, by rw [if_neg hnot]; exact hcv⟩
    refine (post_fixupsCleared h hsdir htdir hsname hsrc hb hother hc hyes hns hnt hself
      (hmore hyes) (hrep hyes) hv hcv htname).mono ?_ fun _ _ h => h
    intro _ w hr
    obtain ⟨own₄, hw, hcw⟩ := hr
    refine ⟨own₄, hw, ?_, ?_⟩
    · intro hnot
      exact absurd hyes (by rw [hnot]; exact Bool.false_ne_true)
    · rw [if_pos hyes]
      exact hcw
  refine post_bind (hfix.mono ?_ fun _ _ h => h.elim)
  intro _ w hr
  obtain ⟨own₄, hw, hfile, hcw⟩ := hr
  exact hR w own₄ hw hfile hcw

include hname in
/-- `filsys_rename_in`. What it replaces while it is open is no directory. -/
theorem post_renameIn (hroom : ∀ n, (census s).links sdir sname = some n →
      (census s).links tdir tname ≠ some n → ((census s).links tdir tname = none → Takes s tdir) ∧
        (census s).nlink n < linkMax s.fs.desc ∧
        ((census s).kind n = some true → sdir ≠ tdir → (census s).nlink tdir < linkMax s.fs.desc))
    (flags : Nat) (defer : Bool)
    (hdefer : defer = true → ∀ m, (census s).links tdir tname = some m → (census s).kind m = some false) :
    Post (filsysRenameIn sdir sname tdir tname flags defer s)
      (fun _ t => ∃ c, Renamed (census s) s.fs.desc.rootino sdir sname tdir tname defer c ∧
        Becomes (Involved (census s) sdir sname tdir tname) s own t c)
      (fun _ t => Becomes (Involved (census s) sdir sname tdir tname) s own t (census s)) := by
  have hno := h.clear
  have hnothing : ∀ t, Looked s t → Becomes (Involved (census s) sdir sname tdir tname) s own t
    (census s) := fun t ht => becomes_looked h.fit ht _
  refine post_bindFs (post_ite (fun _ => hnothing s (looked_law.refl s)) fun _ =>
    post_ite (fun hsame => ?_) fun _ => ?_)
  · exact ⟨census s, .inl ⟨rfl, .inl hsame⟩, hnothing s (looked_law.refl s)⟩
  refine post_find h.fit hno hsdir hz hshort (fun m hm => h.consistent.live sdir sname m hm)
    (fun t ht _ => hnothing t ht)
    fun src b sdirip sip t ht hsrc hb _ _ _ _ hisdir => ?_
  have hcensus := looked_census ht
  refine post_bind (post_failAs
    ((post_readLive (h.fit.looked ht) (looked_clear ht hno) (by rw [hcensus]; exact htdir)).mono ?_
    fun _ _ h => h.elim))
  intro tdirip u hr
  obtain ⟨hu, hcu, hlink, -, -⟩ := hr
  have hsu := looked_law.trans ht hu
  have hcensusu := looked_census hsu
  rw [hcensus] at hlink
  refine post_bind ((post_refuseCycle (h.fit.looked hsu) (looked_clear hsu hno)
    (by rw [hcensusu]; exact h.consistent.upward) (by rw [hsu.fs]; exact h.dots) _ src
    (by rw [hcensusu]; exact htdir)).mono ?_ fun _ v hv => hnothing v (looked_law.trans hsu hv))
  intro _ v hr
  obtain ⟨hv, hclimb⟩ := hr
  have hsv := looked_law.trans hsu hv
  rw [hcensusu, hsu.fs, hisdir] at hclimb
  obtain ⟨hns, hnt⟩ := named_ne h hsdir htdir hsname hsrc hb hclimb
  rw [hisdir]
  refine post_bind ((post_renameTarget h htdir hname htname hsv (hcu.looked hv) hlink
    (flags % 2 == 1)).mono ?_ fun _ w hw => hnothing w hw)
  have hinto : ∀ {x}, x = sdir ∨ x = tdir ∨ x = src → Involved (census s) sdir sname tdir tname x := by
    intro x hr
    rcases hr with hx | hx | rfl
    · exact .inl hx
    · exact .inr (.inl hx)
    · exact .inr (.inr (.inl hsrc))
  have hintoT : ∀ {x}, x = tdir ∨ (census s).links tdir tname = some x →
    Involved (census s) sdir sname tdir tname x := fun {x} hx => .inr (hx.imp_right .inr)
  rintro r w hw
  cases r with
  | none => exact ⟨census s, .inl ⟨rfl, .inr ⟨src, hsrc, hw.2⟩⟩, hnothing w hw.1⟩
  | some o =>
    cases o with
    | none =>
      -- the target's name is free
      obtain ⟨hsw, hfree⟩ := hw
      have hother : (census s).links tdir tname ≠ some src := by
        rw [hfree]
        exact nofun
      have hself : ∀ x, x = sdir ∨ x = tdir → (census s).links tdir tname ≠ some x := fun x _ => by
        rw [hfree]
        exact nofun
      obtain ⟨htakes, hlinks, hmore⟩ := hroom src hsrc hother
      have hmore : b = true → sdir ≠ tdir → (census s).nlink tdir < linkMax s.fs.desc :=
        fun hb' => hmore (hb.trans (congrArg some hb'))
      have hc := cleared_looked h.fit hsw hfree
      have hcensusw := looked_census hsw
      refine post_bind (post_attempt
        ((post_linkCleared h hsrc hb hother hc htdir hnt hname ((htakes hfree).looked hsw) hlinks
          (hself tdir (.inr rfl))).mono ?_ ?_))
      · intro _ x hr
        obtain ⟨own₂, hx, hcx, hkeep⟩ := hr
        refine post_renamed h hsdir htdir hz hshort hsname htname hsrc hb hother hclimb hlinks hmore hc hself
          (fun _ h => absurd h Bool.false_ne_true) hx hcx hkeep
          (fun y own₄ hy hfile hcy => ?_) rfl
        have hall := (hc.went.mono fun _ => hintoT).next hy fun _ => hinto
        refine ⟨_, .inr ⟨src, b, ⟨hsrc, hb, hother⟩, ?_, hclimb, rfl⟩, own₄, hall, ?_, ?_⟩
        · intro m hm
          rw [hfree] at hm
          cases hm
        · rw [hcy, hfree, rename_of_free hb, hcensusw]
        · intro k hk _
          refine intact_renamed hsdir htdir hall hk ?_ ?_
          · intro he
            obtain rfl := Option.some.inj (hsrc.symm.trans he)
            exact (intact_looked h.fit hsw (valid_of_kind hk).1).trans
              (hfile (Option.some.inj (hb.symm.trans hk)))
          · intro he
            rw [hfree] at he
            cases he
      · intro e x hr
        obtain ⟨-, own₂, hx, hworld⟩ := hr
        have hall := (went_looked h.fit hsw (· = tdir)).trans hx
        refine (hall.becomes (fun k hk => ?_) ((congrArg censusOf hworld).trans hcensusw)).mono
          fun k hk => .inr (.inl hk)
        rw [hk, htdir]
        exact nofun
    | some d =>
      -- what had the target's name has lost it
      obtain ⟨own', hd⟩ := hw
      have hother : (census s).links tdir tname ≠ some src := by
        rw [hd.name]
        exact fun he => hd.ne (Option.some.inj he)
      obtain ⟨hms, hmt⟩ := target_ne hsdir htdir hsname htname hsrc hd.name hd.kind hd.empty
      have hself : ∀ x, x = sdir ∨ x = tdir → (census s).links tdir tname ≠ some x := by
        rintro x hx he
        rw [hd.name] at he
        obtain rfl := Option.some.inj he
        exact hx.elim hms hmt
      have hrep : b = true → d.isdir = true → 2 ≤ (census s).nlink tdir :=
        fun hb' _ => h.consistent.parent_nlink (by rw [← hb']; exact hd.kind) htname hd.name
      obtain ⟨-, hlinks, hmore⟩ := hroom src hsrc hother
      have hmore : b = true → sdir ≠ tdir → (census s).nlink tdir < linkMax s.fs.desc :=
        fun hb' => hmore (hb.trans (congrArg some hb'))
      have hc := hd.cleared
      have hktd : (census w).kind tdir = some true := (congrFun hc.kinds tdir).trans htdir
      have hgap : Takes w tdir := takes_of_gap hd.went.fit hd.copy hktd hd.room
      refine post_bind (post_attempt
        ((post_linkCleared h hsrc hb hother hc htdir hnt hname hgap hlinks
          (hself tdir (.inr rfl))).mono ?_ ?_))
      · intro _ x hr
        obtain ⟨own₂, hx, hcx, hkeep⟩ := hr
        refine post_renamed h hsdir htdir hz hshort hsname htname hsrc hb hother hclimb hlinks hmore hc
          hself hrep hx hcx hkeep (fun y own₄ hy hfile hcy => ?_) rfl
        have hwent := (hc.went.mono fun _ => hintoT).next hy fun _ => hinto
        have hnow : defer = true → b = false :=
          fun hyes => Option.some.inj (hd.kind.symm.trans (hdefer hyes d.ino hd.name))
        have hrename := rename_of_displaced hsdir htdir hsname htname hd hsrc hb defer hnow
        have hvtino : ∀ {k}, (census s).kind k = some false → ValidIno w.fs k :=
          fun hk => (shape_validIno hc.went.apart.shape).mpr (valid_of_kind hk).1
        have hkept : ∀ k, (census s).kind k = some false → Intact k s own y own₄ := by
          refine fun k hk => intact_renamed hsdir htdir hwent hk (fun he => ?_) fun he => ?_
          · obtain rfl := Option.some.inj (hsrc.symm.trans he)
            exact (hc.went.intact (valid_of_kind hk).1 (not_or.mpr ⟨hnt, hother⟩)).trans
              (hfile (Option.some.inj (hb.symm.trans hk)))
          · obtain rfl := Option.some.inj (hd.name.symm.trans he)
            exact hd.intact.trans (hy.intact (hvtino hk) fun hx => hx.elim hms fun hx => hx.elim hmt hd.ne)
        have hdone : ∀ z own₅, Went (Involved (census s) sdir sname tdir tname) s own z own₅ →
          census z = (census s).rename sdir sname tdir tname src (some d.ino) defer →
            (∀ k, (census s).kind k = some false → (census z).kind k = some false →
            Intact k s own z own₅) → ∃ c, Renamed (census s) s.fs.desc.rootino sdir sname tdir tname
            defer c ∧ Becomes (Involved (census s) sdir sname tdir tname) s own z c := by
          intro z own₅ hz hcz hfiles
          refine ⟨_, .inr ⟨src, b, ⟨hsrc, hb, hother⟩, ?_, hclimb, rfl⟩, own₅, hz, by rw [hcz, hd.name],
            fun k hk hk' => hfiles k hk (by rw [hcz, ← hd.name]; exact hk')⟩
          intro m hm
          rw [hd.name] at hm
          obtain rfl := Option.some.inj hm
          exact ⟨hd.kind, hd.empty⟩
        apply post_ite
        · intro hfree
          -- it goes last
          have hfree : d.free = true ∧ defer = false := by simpa using hfree
          have hky : (census y).kind d.ino = some b := by
            rw [hcy]
            cases b
            · exact (congrFun hc.kinds d.ino).trans hd.kind
            · have hk : ∀ c : Census, ((c.shift sdir tdir).spare tdir d.isdir).kind = c.kind := by
                intro c
                unfold Census.spare Census.shift
                split <;> split <;> rfl
              exact (congrFun (hk _) d.ino).trans ((congrFun hc.kinds d.ino).trans hd.kind)
          have hvalid : ValidIno s.fs d.ino := (valid_of_kind hd.kind).1
          have hsaved : Current y d.ino d.saved := by
            refine hy.current ((shape_validIno hc.went.apart.shape).mpr hvalid) ?_ hd.saved
            exact fun hx => hx.elim hms fun hx => hx.elim hmt hd.ne
          refine post_bind (post_attempt
            ((post_destroyFit hy.fit (hwent.clear hno) (Current.data_view hy.fit hsaved hky)
            (valid_of_kind hky).1).mono ?_
            fun _ _ h => h.elim))
          intro _ z hr
          obtain ⟨own₅, hz, hcz⟩ := hr
          refine hdone z own₅ (hwent.next hz fun x hx => .inr (.inr (.inr ?_))) ?_ fun k hk hk' =>
            (hkept k hk).trans (hz.intact ?_ ?_)
          · rw [hx]
            exact hd.name
          · rw [hcz, hcy, hrename, if_pos hfree]
            cases b
            · rfl
            · rw [if_pos rfl, if_pos rfl, hd.isdir]
          · exact (shape_validIno hwent.apart.shape).mpr (valid_of_kind hk).1
          · rintro rfl
            rw [hcz, Census.gone_kind, if_pos rfl] at hk'
            cases hk'
        · intro hstay
          refine hdone y own₄ hwent ?_ fun k hk _ => hkept k hk
          have hstay : ¬ (d.free = true ∧ defer = false) := by simpa using hstay
          rw [hcy, hrename, if_neg hstay]
          cases b with
          | false => rfl
          | true =>
            -- a directory that is replaced goes at once
            exfalso
            refine hstay ⟨hd.free.mpr (.inl rfl), ?_⟩
            cases defer with
            | false => rfl
            | true => cases hnow rfl
      · intro e x hr
        obtain ⟨hwhy, own₂, hx, hworld⟩ := hr
        have hlooked : Looked w x := by
          refine hwhy.resolve_right fun hfull => hd.room ?_
          exact (full_record hd.went.fit hd.copy hktd).mp hfull
        refine post_bind ((post_renameRestore h htdir hname htname hd hlooked).mono ?_ fun _ _ h => h.elim)
        exact fun _ y hy => hy.mono fun _ => hintoT

end Rename

end Filsys.Names
