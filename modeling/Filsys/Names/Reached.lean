/-
  Filsys.Names.Reached — what holds of every mount a sequence of calls reaches (filsys.c).

  Everything here is about `play s rs`, for any calls `rs` and any volume a history may
  begin from. Proved:

  (1) names are unique, stand for live inodes and are as many as the link counts say
      (`names_and_counts_agree`), and the directories are a tree: each has exactly one way
      of proper names from the root (`directories_stay_a_tree`); with the dots, all of it at
      once (`names_stay_well`);
  (2) no block is in two files or at two places of one, and none of them is free
      (`no_block_is_shared`);
  (3) the next call does what it is for or nothing, and an inode it is not about keeps its
      record and its bytes (`every_call_does_or_leaves`);
  (4) without deferral no file loses its last name and stays (`no_file_is_orphaned`), and
      with it a file keeps its bytes until it is freed (`a_deferred_file_keeps_its_bytes`);
  (5) a rename moves what lies below its source and nothing else (`a_rename_moves_a_subtree`);
  (6) a directory that is made and removed, and a link that is made and removed, leave the
      names and counts as they were (`a_directory_comes_and_goes`, `a_link_comes_and_goes`).
-/

import Filsys.Names.Seeds

namespace Filsys.Names

open Filsys.Lib Filsys.Engine Filsys.Alloc Filsys.Tree

/-! ## A first history -/

/-- A file. -/
def firstCalls : List Request := [.create 2 [97] 0o644 0 0]

/-- The file takes another name. -/
def renameCall : Request := .rename 2 [97] 2 [98] 0 false

theorem proper_of {name : Name} (h : name ≠ dot ∧ name ≠ dotdot) : Census.ProperName name := h

theorem play_one (s : Mnt) (r : Request) : play s [r] = after s r := rfl

theorem after_create {s t : Mnt} {dir mode uid gid n : Nat} {name : Name}
    (h : filsysCreateIn dir name mode uid gid s = .ok n t) :
    after s (.create dir name mode uid gid) = t := by
  have hrun : (Request.create dir name mode uid gid).run s = .ok () t := by
    show EStateM.bind (filsysCreateIn dir name mode uid gid) _ s = _
    unfold EStateM.bind
    rw [h]
    rfl
  unfold after final
  rw [hrun]

theorem census_after_create {s : Mnt} {own : Own} {dir mode uid gid : Nat} {name : Name}
    (h : Standing s own) (hroom : (census s).links dir name = none → Takes s dir)
    (hdir : (census s).kind dir = some true)
    (hname : NameOk s.fs.desc name) (hok : errorOf (filsysCreateIn dir name mode uid gid) s = none) :
    census (after s (.create dir name mode uid gid)) =
      ((census s).born (valueOf (filsysCreateIn dir name mode uid gid) s) false 1).enter dir name
      (valueOf (filsysCreateIn dir name mode uid gid) s) := by
  have hpost := post_createIn h hdir hname hroom mode uid gid
  rw [eq_ok hok] at hpost
  obtain ⟨-, own', -, hcensus, -⟩ := hpost
  rw [after_create (eq_ok hok)]
  exact hcensus

/-- The number the file gets. -/
def firstFile : Nat := valueOf (filsysCreateIn 2 [97] 0o644 0 0) freshVolume

/-- What running the first calls, and one or two after them, comes to. -/
structure FirstRun : Prop where
  rootDir : (census freshVolume).kind 2 = some true
  rootFree : (census freshVolume).links 2 [98] = none
  rootShort : 1 ≤ freshVolume.fs.desc.maxNamlen
  creates : errorOf (filsysCreateIn 2 [97] 0o644 0 0) freshVolume = none
  dir : (census (play freshVolume firstCalls)).kind 2 = some true
  short : 1 ≤ (play freshVolume firstCalls).fs.desc.maxNamlen
  createRoom : (Request.create 2 [97] 0o644 0 0).Room freshVolume
  renameRoom : renameCall.Room (play freshVolume firstCalls)
  valid : ValidIno (play freshVolume firstCalls).fs 2
  holds : HoldsBlocks (play freshVolume firstCalls).fs.desc 2 (recordOf (play freshVolume firstCalls).fs
    (play freshVolume firstCalls).img 2).mode
  mapped : mapOf (play freshVolume firstCalls).fs (play freshVolume firstCalls).img (recordOf
    (play freshVolume firstCalls).fs (play freshVolume firstCalls).img 2) 0 ≠ 0
  renames : errorOf (filsysRenameIn 2 [97] 2 [98] 0 false) (play freshVolume firstCalls) = none
  links : errorOf (filsysLinkIn firstFile 2 [98]) (play freshVolume firstCalls) = none
  linkedShort : 1 ≤ (after (play freshVolume firstCalls) (.link firstFile 2 [98])).fs.desc.maxNamlen
  linkRoom : (Request.link firstFile 2 [98]).Room (play freshVolume firstCalls)
  unlinks : errorOf (filsysUnlinkIn 2 [98] false) (after (play freshVolume firstCalls)
    (.link firstFile 2 [98])) = none
  makes : errorOf (filsysMkdirIn 2 [100] 0o755 0 0) freshVolume = none
  madeDir : (census (after freshVolume (.mkdir 2 [100] 0o755 0 0))).kind 2 = some true
  madeShort : 1 ≤ (after freshVolume (.mkdir 2 [100] 0o755 0 0)).fs.desc.maxNamlen
  mkdirRoom : (Request.mkdir 2 [100] 0o755 0 0).Room freshVolume
  moveRoom : (Request.rename 2 [100] 2 [101] 0 false).Room (after freshVolume (.mkdir 2 [100] 0o755 0 0))
  removes : errorOf (filsysRmdirIn 2 [100]) (after freshVolume (.mkdir 2 [100] 0o755 0 0)) = none

theorem firstRun : FirstRun where
  rootDir := by decide +kernel
  rootFree := by decide +kernel
  rootShort := by decide +kernel
  creates := by decide +kernel
  dir := by decide +kernel
  short := by decide +kernel
  createRoom := by decide +kernel
  renameRoom := by decide +kernel
  valid := by decide +kernel
  holds := ⟨by decide +kernel, by decide +kernel⟩
  mapped := by decide +kernel
  renames := by decide +kernel
  links := by decide +kernel
  linkedShort := by decide +kernel
  linkRoom := by decide +kernel
  unlinks := by decide +kernel
  makes := by decide +kernel
  madeDir := by decide +kernel
  madeShort := by decide +kernel
  mkdirRoom := by decide +kernel
  moveRoom := by decide +kernel
  removes := by decide +kernel

theorem freshVolume_takes : (Request.create 2 [97] 0o644 0 0).Allowed freshVolume :=
  ⟨firstRun.rootDir, ⟨by decide, firstRun.rootShort, by decide, by decide⟩⟩

theorem firstCalls_admissible : Admissible freshVolume firstCalls :=
  ⟨⟨firstRun.createRoom, freshVolume_takes⟩, trivial⟩

theorem census_firstCalls :
    census (play freshVolume firstCalls) = ((census freshVolume).born firstFile false 1).enter 2 [97]
    firstFile := by
  rw [firstCalls, play_one]
  exact census_after_create freshVolume_standing firstRun.createRoom freshVolume_takes.1
    freshVolume_takes.2 firstRun.creates

theorem firstCalls_file : (census (play freshVolume firstCalls)).kind firstFile = some false := by
  rw [census_firstCalls, Census.enter_kind, Census.born_kind, if_pos rfl]

theorem firstCalls_name : (census (play freshVolume firstCalls)).links 2 [97] = some firstFile := by
  rw [census_firstCalls, Census.enter_links, Links.put_same]

theorem firstCalls_free : (census (play freshVolume firstCalls)).links 2 [98] = none := by
  have hne : ([98] : Name) ≠ [97] := by decide
  rw [census_firstCalls, Census.enter_links, Links.put_name _ _ _ _ hne, Census.born_links, firstRun.rootFree]

theorem rename_admissible : Admissible freshVolume (firstCalls ++ [renameCall]) := by
  have hrename : renameCall.Allowed (play freshVolume firstCalls) :=
    ⟨firstRun.dir, firstRun.dir, ⟨by decide, firstRun.short⟩,
      ⟨by decide, firstRun.short, by decide, by decide⟩, proper_of (by decide), proper_of (by decide),
      fun he => absurd he Bool.false_ne_true⟩
  exact admissible_append.mpr ⟨firstCalls_admissible, ⟨firstRun.renameRoom, hrename⟩, trivial⟩

/-! ## (1) Names and counts -/

/-- Names are unique, stand for live inodes, and are counted by the inodes they stand for. -/
structure Agreeing (s : Mnt) : Prop where
  unique : Unique (worldOf s)
  live : ∀ d name n, (census s).links d name = some n → (census s).kind n ≠ none
  count : ∀ n, (census s).kind n ≠ none → (recordOf s.fs s.img n).nlink = (census s).links.degree n

theorem Standing.agreeing {s : Mnt} {own : Own} (h : Standing s own) : Agreeing s := by
  refine ⟨h.fit.unique, h.consistent.live, fun n hn => ?_⟩
  obtain ⟨b, hb⟩ := Option.ne_none_iff_exists'.mp hn
  rw [(valid_of_kind hb).2.2.2]
  exact h.consistent.count n hn

theorem names_and_counts_agree {s : Mnt} {own : Own} {rs : List Request} (h : Standing s own)
    (ha : Admissible s rs) : Agreeing (play s rs) := by
  obtain ⟨own', ht⟩ := history_keeps rs h ha
  exact ht.agreeing

theorem names_and_counts_agree_after_a_rename :
    Agreeing (play freshVolume (firstCalls ++ [renameCall])) :=
  names_and_counts_agree freshVolume_standing rename_admissible

/-- The way to `d`, by names that are neither of a directory's own. -/
def Way (s : Mnt) (ks : List Name) (d : Nat) : Prop :=
  (∀ k ∈ ks, Census.ProperName k) ∧ (census s).links.follow s.fs.desc.rootino ks = some d

/-- The directories are a tree with `.` and `..` in their places. -/
structure Treelike (s : Mnt) : Prop where
  way : ∀ d, (census s).kind d = some true → ∃ ks, Way s ks d ∧ ∀ ls, Way s ls d → ls = ks
  self : ∀ d, (census s).kind d = some true → (census s).links d dot = some d
  parent : ∀ p k d, (census s).kind d = some true → Census.ProperName k →
    (census s).links p k = some d → (census s).links d dotdot = some p
  root : (census s).links s.fs.desc.rootino dotdot = some s.fs.desc.rootino
  acyclic : ∀ d, ¬ Relation.TransGen (Links.Rooted.Child (census s).links (fun n => (census s).kind n =
    some true) dot dotdot) d d

theorem directories_stay_a_tree {s : Mnt} {own : Own} {rs : List Request} (h : Standing s own)
    (ha : Admissible s rs) : Treelike (play s rs) := by
  obtain ⟨own', ht⟩ := history_keeps rs h ha
  have htree := ht.consistent.tree
  refine ⟨fun d hd => ?_, htree.selves, fun p k d hd hk hp => (htree.parent d p k hd hk hp).1,
    htree.rootUp, htree.acyclic⟩
  obtain ⟨ks, hks, hway⟩ := htree.way hd
  exact ⟨ks, ⟨hks, hway⟩, fun ls hls => htree.way_unique hd hls.1 hks hls.2 hway⟩

theorem directories_stay_a_tree_after_a_rename : Treelike (play freshVolume (firstCalls ++ [renameCall])) :=
  directories_stay_a_tree freshVolume_standing rename_admissible

/-- The record of `k` and what is in its blocks are as they were. -/
def Unmoved (s t : Mnt) (k : Nat) : Prop :=
  recordOf t.fs t.img k = recordOf s.fs s.img k ∧
    (HoldsBlocks s.fs.desc k (recordOf s.fs s.img k).mode → ∀ o, Mappable s.fs o →
      byteOf t.fs t.img (recordOf t.fs t.img k) o = byteOf s.fs s.img (recordOf s.fs s.img k) o)

theorem Went.unmoved {T : Nat → Prop} {s t : Mnt} {own own' : Own} (hs : Fit s own)
    (h : Went T s own t own') {k : Nat} (hv : ValidIno s.fs k) (hk : ¬ T k) :
    Unmoved s t k := by
  have hrec := record_apart h.apart hv hk
  refine ⟨hrec, fun hb o ho => ?_⟩
  rw [hrec]
  exact (h.apart.still hk).byteOf hs.sound.owned (hs.sound.owned.disk k hv hb) ho

theorem every_call_does_or_leaves {s : Mnt} {own : Own} {rs : List Request} {r : Request}
    (h : Standing s own) (ha : Admissible s (rs ++ [r])) :
    (errorOf r.run (play s rs) = none ∧
      r.Does (census (play s rs)) (play s rs).fs.desc.rootino (census (after (play s rs) r)) ∨
      errorOf r.run (play s rs) ≠ none ∧ census (after (play s rs) r) = census (play s rs)) ∧
    ∀ k, (census (play s rs)).kind k ≠ none → ¬ r.Touches (census (play s rs)) k →
    Unmoved (play s rs) (after (play s rs) r) k := by
  obtain ⟨hrs, ⟨hroom, hr⟩, -⟩ := admissible_append.mp ha
  obtain ⟨own', ht⟩ := history_keeps rs h hrs
  obtain ⟨own'', hc⟩ := called ht hroom hr
  refine ⟨hc.does, fun k hk htouch => ?_⟩
  obtain ⟨b, hb⟩ := Option.ne_none_iff_exists'.mp hk
  exact hc.went.unmoved ht.fit (valid_of_kind hb).1 htouch

theorem the_rename_does_what_it_is_for :
    renameCall.Does (census (play freshVolume firstCalls)) (play freshVolume firstCalls).fs.desc.rootino
    (census (after (play freshVolume firstCalls) renameCall)) := by
  have hcall := (every_call_does_or_leaves freshVolume_standing rename_admissible).1
  have hok : errorOf renameCall.run (play freshVolume firstCalls) = none := firstRun.renames
  rcases hcall with ⟨-, hdoes⟩ | ⟨hne, -⟩
  · exact hdoes
  · exact absurd hok hne

/-! ## (4) Last names -/

/-- Nothing is put off. -/
def Request.Prompt : Request → Prop
  | unlink _ _ defer => defer = false
  | rename _ _ _ _ _ defer => defer = false
  | _ => True

/-- Every file has a name. -/
def Census.Named (c : Census) : Prop := ∀ n, c.kind n = some false → c.nlink n ≠ 0

theorem Census.Consistent.up_nonneg {c : Census} {root : Nat} (h : c.Consistent root) {n : Nat}
    {b : Bool} (hn : c.kind n = some b) : 0 ≤ c.nlink n :=
  h.nlink_nonneg (by rw [hn]; exact Option.some_ne_none _)

namespace Census

variable {c : Census} {root : Nat} (h : Consistent c root) (hnamed : c.Named)

include hnamed

theorem named_born {d n : Nat} {name : Name} : ((c.born n false 1).enter d name n).Named := by
  intro x hx
  rw [enter_kind, born_kind] at hx
  rw [enter_nlink, born_nlink]
  split at hx
  · rename_i hxn
    rw [if_pos hxn]
    decide
  · rename_i hxn
    rw [if_neg hxn]
    exact hnamed x hx

theorem named_grow {d n : Nat} {name : Name} (hd : c.kind d = some true) (hdn : d ≠ n) :
    (c.grow d name n).Named := by
  intro x hx
  have hkind : (if x = n then some true else c.kind x) = some false := hx
  show (if x = d then c.nlink d + 1 else if x = n then 2 else c.nlink x) ≠ 0
  split at hkind
  · cases hkind
  · rename_i hxn
    have hxd : x ≠ d := by
      rintro rfl
      rw [hd] at hkind
      cases hkind
    rw [if_neg hxd, if_neg hxn]
    exact hnamed x hkind

theorem named_gone {n : Nat} : (c.gone n).Named := by
  intro x hx
  rw [gone_kind] at hx
  rw [gone_nlink]
  split at hx
  · cases hx
  · rename_i hxn
    rw [if_neg hxn]
    exact hnamed x hx

theorem named_drop {d n : Nat} {name : Name} : (c.drop d name n false).Named := by
  unfold drop
  split
  · intro x hx
    rw [gone_kind] at hx
    rw [gone_nlink]
    split at hx
    · cases hx
    · rename_i hxn
      rw [if_neg hxn, unlink_nlink, if_neg hxn]
      exact hnamed x hx
  · rename_i hmore
    intro x hx
    have hx : c.kind x = some false := hx
    have hone : c.nlink n ≠ 1 := fun he => hmore ⟨he, rfl⟩
    rw [unlink_nlink]
    split
    · rename_i hxn
      subst hxn
      omega
    · exact hnamed x hx

theorem named_prune {p n : Nat} {name : Name} (hp : c.kind p = some true) : (c.prune p name n).Named := by
  intro x hx
  have hkind : (if x = n then none else c.kind x) = some false := hx
  show (if x = n then 0 else if x = p then c.nlink p - 1 else c.nlink x) ≠ 0
  split at hkind
  · cases hkind
  · rename_i hxn
    have hxp : x ≠ p := by
      rintro rfl
      rw [hp] at hkind
      cases hkind
    rw [if_neg hxn, if_neg hxp]
    exact hnamed x hkind

theorem named_move {sd td n : Nat} {sname tname : Name} (hsd : c.kind sd = some true)
    (htd : c.kind td = some true) : (c.move sd sname td tname n).Named := by
  intro x hx
  have hkind : (c.move sd sname td tname n).kind = c.kind := by
    show (((c.enter td tname n).leave sd sname).shift sd td).kind = _
    unfold shift
    split <;> rfl
  have hnlink : (c.move sd sname td tname n).nlink x =
    (((c.enter td tname n).leave sd sname).shift sd td).nlink x := rfl
  rw [hkind] at hx
  have hxs : x ≠ sd := by
    rintro rfl
    rw [hsd] at hx
    cases hx
  have hxt : x ≠ td := by
    rintro rfl
    rw [htd] at hx
    cases hx
  rw [hnlink]
  unfold shift
  split
  · exact hnamed x hx
  · rw [relink_nlink, if_neg hxt, relink_nlink, if_neg hxs]
    exact hnamed x hx

end Census

/-- No call that puts nothing off leaves a file without a name. -/
theorem named_does {s : Mnt} {root : Nat} {c' : Census} (h : (census s).Consistent root)
    (hnamed : (census s).Named) {r : Request} (ha : r.Allowed s)
    (hp : r.Prompt) (hd : r.Does (census s) root c') : c'.Named := by
  cases r with
  | create dir name mode uid gid =>
    obtain ⟨n, -, rfl⟩ := hd
    exact Census.named_born hnamed
  | mkdir dir name mode uid gid =>
    obtain ⟨n, hn, rfl⟩ := hd
    refine Census.named_grow hnamed ha.1 ?_
    rintro rfl
    have hdead := hn.1
    rw [ha.1] at hdead
    cases hdead
  | mknod dir name mode rdev uid gid =>
    obtain ⟨n, -, rfl⟩ := hd
    exact Census.named_born hnamed
  | symlink target dir name =>
    obtain ⟨n, -, rfl⟩ := hd
    exact Census.named_born hnamed
  | link src dir name =>
    obtain rfl := hd
    intro x hx
    have hx : (census s).kind x = some false := hx
    have hnn := h.up_nonneg hx
    rw [Census.link_nlink]
    split
    · rename_i hxs
      subst hxs
      omega
    · exact hnamed x hx
  | unlink dir name defer =>
    obtain ⟨n, -, rfl⟩ := hd
    obtain rfl : defer = false := hp
    exact Census.named_drop hnamed
  | rmdir dir name =>
    obtain ⟨n, -, rfl⟩ := hd
    exact Census.named_prune hnamed ha.1
  | rename sdir sname tdir tname flags defer =>
    obtain rfl : defer = false := hp
    obtain ⟨hsdir, htdir, -, -, hsp, htp, -⟩ := ha
    rcases hd with ⟨rfl, -⟩ | ⟨n, b, ⟨hn, hb, hne⟩, htarget, hclear, rfl⟩
    · exact hnamed
    · unfold Census.rename
      cases ht : (census s).links tdir tname with
      | none =>
        split
        · exact Census.named_move hnamed hsdir htdir
        · exact fun x hx => hnamed x hx
      | some m =>
        obtain ⟨hm, hempty⟩ := htarget m ht
        split
        · rename_i hdir
          obtain rfl : b = true := Option.some.inj (hb.symm.trans hdir)
          have hgone : ∀ {x : Nat} {l : Name}, (census s).kind x = some true → Census.ProperName l →
            (census s).links x l ≠ none →
              ((census s).prune tdir tname m).kind x = some true := by
            intro x l hx hl hne
            show (if x = m then none else (census s).kind x) = some true
            rw [if_neg, hx]
            rintro rfl
            exact hne (hempty rfl l hl)
          exact Census.named_move (Census.named_prune hnamed htdir)
            (hgone hsdir hsp (by rw [hn]; exact Option.some_ne_none _))
            (hgone htdir htp (by rw [ht]; exact Option.some_ne_none _))
        · exact fun x hx => Census.named_drop hnamed x hx
  | free ino =>
    obtain rfl := hd
    exact Census.named_gone hnamed

theorem no_file_is_orphaned {s : Mnt} {own : Own} {rs : List Request} (h : Standing s own)
    (ha : Admissible s rs) (hp : ∀ r ∈ rs, r.Prompt)
    (hnamed : (census s).Named) : (census (play s rs)).Named := by
  refine history_relates (R := fun s t => (census s).Named → (census t).Named) (fun _ => id)
    (fun h h' => h' ∘ h) ?_ rs h ha hp hnamed
  intro s own r hs hroom hr hprompt hnamed
  obtain ⟨own', hc⟩ := called hs hroom hr
  rcases hc.does with ⟨-, hdoes⟩ | ⟨-, hsame⟩
  · exact named_does hs.consistent hnamed hr hprompt hdoes
  · rw [hsame]
    exact hnamed

theorem freshVolume_named : (census freshVolume).Named := by
  intro n hn
  obtain ⟨k, L, hw⟩ := node_of_kind hn
  have hworld := freshVolume_bare.world n
  rw [show worldOf freshVolume n = _ from hw] at hworld
  split at hworld
  · have hdir := congrArg Node.dir (Option.some.inj hworld)
    exact absurd hdir Bool.false_ne_true
  · cases hworld

theorem every_file_of_the_first_calls_has_a_name :
    (census (play freshVolume (firstCalls ++ [renameCall]))).Named := by
  refine no_file_is_orphaned freshVolume_standing rename_admissible (fun r hr => ?_) freshVolume_named
  rcases List.mem_append.mp hr with hr | hr
  · rw [List.mem_singleton.mp hr]
    trivial
  · rw [List.mem_singleton.mp hr]
    rfl

/-- The call leaves a file with its last name gone alone. -/
def Request.Defers (k : Nat) : Request → Prop
  | unlink _ _ defer => defer = true
  | rename _ _ _ _ _ defer => defer = true
  | free ino => ino ≠ k
  | _ => True

/-- A file stays where every removal is put off and it is not freed. -/
theorem file_does {s : Mnt} {root : Nat} {c' : Census} {k : Nat} (hk : (census s).kind k = some false)
    {r : Request}
    (hp : r.Defers k) (hd : r.Does (census s) root c') : c'.kind k = some false := by
  have hborn : ∀ {n : Nat} {b : Bool}, (census s).kind n = none →
    (if k = n then some b else (census s).kind k) = some false := by
    intro n b hn
    rw [if_neg, hk]
    rintro rfl
    rw [hk] at hn
    cases hn
  have hstay : ∀ {n : Nat}, (census s).kind n = some true →
    (if k = n then none else (census s).kind k) = some false := by
    intro n hn
    rw [if_neg, hk]
    rintro rfl
    rw [hk] at hn
    cases hn
  cases r with
  | create dir name mode uid gid =>
    obtain ⟨n, hn, rfl⟩ := hd
    exact hborn hn.1
  | mkdir dir name mode uid gid =>
    obtain ⟨n, hn, rfl⟩ := hd
    exact hborn hn.1
  | mknod dir name mode rdev uid gid =>
    obtain ⟨n, hn, rfl⟩ := hd
    exact hborn hn.1
  | symlink target dir name =>
    obtain ⟨n, hn, rfl⟩ := hd
    exact hborn hn.1
  | link src dir name =>
    obtain rfl := hd
    exact hk
  | unlink dir name defer =>
    obtain ⟨n, -, rfl⟩ := hd
    obtain rfl : defer = true := hp
    unfold Census.drop
    rw [if_neg fun he => Bool.noConfusion he.2]
    exact hk
  | rmdir dir name =>
    obtain ⟨n, ⟨-, hn, -⟩, rfl⟩ := hd
    exact hstay hn
  | rename sdir sname tdir tname flags defer =>
    obtain rfl : defer = true := hp
    rcases hd with ⟨rfl, -⟩ | ⟨n, b, ⟨-, hb, -⟩, htarget, -, rfl⟩
    · exact hk
    · have hmove : ∀ c : Census, (c.move sdir sname tdir tname n).kind = c.kind := by
        intro c
        show (((c.enter tdir tname n).leave sdir sname).shift sdir tdir).kind = _
        unfold Census.shift
        split <;> rfl
      unfold Census.rename
      cases ht : (census s).links tdir tname with
      | none =>
        split
        · rw [hmove]
          exact hk
        · exact hk
      | some m =>
        obtain ⟨hm, -⟩ := htarget m ht
        split
        · rename_i hdir
          obtain rfl : b = true := Option.some.inj (hb.symm.trans hdir)
          rw [hmove]
          exact hstay hm
        · rw [Census.pass_kind]
          show ((census s).drop tdir tname m true).kind k = some false
          unfold Census.drop
          rw [if_neg fun he => Bool.noConfusion he.2]
          exact hk
  | free ino =>
    obtain rfl := hd
    rw [Census.gone_kind, if_neg (Ne.symm hp)]
    exact hk

/-- The file `k` has the mode and size it had, and its bytes. -/
structure Undisturbed (s t : Mnt) (k : Nat) : Prop where
  kind : (census t).kind k = some false
  mode : (recordOf t.fs t.img k).mode = (recordOf s.fs s.img k).mode
  size : (recordOf t.fs t.img k).size = (recordOf s.fs s.img k).size
  bytes : HoldsBlocks s.fs.desc k (recordOf s.fs s.img k).mode → ∀ o, Mappable s.fs o →
    byteOf t.fs t.img (recordOf t.fs t.img k) o = byteOf s.fs s.img (recordOf s.fs s.img k) o

theorem Intact.undisturbed {s t : Mnt} {own own' : Own} {k : Nat} (hs : Fit s own)
    (h : Intact k s own t own') (hv : ValidIno s.fs k)
    (hk : (census t).kind k = some false) : Undisturbed s t k := by
  have hcur := h.copy _ (current_recordOf hs.sound.owned.layout.toRecordLayout k)
  refine ⟨hk, hcur.mode.symm, hcur.size.symm, fun hb o ho => ?_⟩
  have hmap : Mappable t.fs o := by
    have hdesc := shape_desc h.shape
    unfold Mappable
    rw [hdesc]
    exact ho
  rw [← hcur.byteOf hmap]
  exact h.toStill.byteOf hs.sound.owned (hs.sound.owned.disk k hv hb) ho

theorem intact_deferred (rs : List Request) : ∀ {s : Mnt} {own : Own} {k : Nat}, Standing s own →
    Admissible s rs → (∀ r ∈ rs, r.Defers k) →
    (census s).kind k = some false → ∃ own', Standing (play s rs) own' ∧
    (census (play s rs)).kind k = some false ∧ Intact k s own (play s rs) own' := by
  induction rs with
  | nil =>
    exact fun {s own k} h _ _ hk =>
      ⟨own, h, hk, (went_looked h.fit (looked_law.refl s) fun _ => False).intact (valid_of_kind hk).1 id⟩
  | cons r rs ih =>
    intro s own k h ha hp hk
    obtain ⟨⟨hroom, hr⟩, hrest⟩ := ha
    obtain ⟨own', hc⟩ := called h hroom hr
    have hk' : (census (after s r)).kind k = some false := by
      rcases hc.does with ⟨-, hdoes⟩ | ⟨-, hsame⟩
      · exact file_does hk (hp r List.mem_cons_self) hdoes
      · rw [hsame]
        exact hk
    obtain ⟨own'', hstand, hkind, hintact⟩ :=
      ih hc.standing hrest (fun r' hr' => hp r' (List.mem_cons_of_mem _ hr')) hk'
    exact ⟨own'', hstand, hkind, (hc.files k hk hk').trans hintact⟩

theorem a_deferred_file_keeps_its_bytes {s : Mnt} {own : Own} {rs : List Request} {k : Nat}
    (h : Standing s own) (ha : Admissible s rs)
    (hp : ∀ r ∈ rs, r.Defers k) (hk : (census s).kind k = some false) : Undisturbed s (play s rs) k := by
  obtain ⟨own', -, hkind, hintact⟩ := intact_deferred rs h ha hp hk
  exact hintact.undisturbed h.fit (valid_of_kind hk).1 hkind

theorem an_unlinked_file_keeps_its_bytes :
    Undisturbed (play freshVolume firstCalls) (play (play freshVolume firstCalls) [.unlink 2 [97] true])
    firstFile := by
  obtain ⟨own', hstand⟩ := history_keeps firstCalls freshVolume_standing firstCalls_admissible
  have hunlink : (Request.unlink 2 [97] true).Allowed (play freshVolume firstCalls) := by
    refine ⟨firstRun.dir, ⟨by decide, firstRun.short⟩, proper_of (by decide), fun n hn => ?_⟩
    obtain rfl := Option.some.inj (firstCalls_name.symm.trans hn)
    exact firstCalls_file
  refine a_deferred_file_keeps_its_bytes hstand ⟨⟨trivial, hunlink⟩, trivial⟩
    (fun r hr => ?_) firstCalls_file
  rw [List.mem_singleton.mp hr]
  rfl

/-! ## (5) Renames -/

namespace Census

variable {c c' : Census} {root sd td n : Nat} {sname tname : Name} {defer : Bool}
    (h : Consistent c root) (hs : c.links sd sname = some n)
  (hne : c.links td tname ≠ some n) (hr : Renamed c root sd sname td tname defer c')

include hs hne hr

/-- A rename has more to do than nothing. -/
theorem renamed_moves : ∃ b, c.kind n = some b ∧
    (∀ m, c.links td tname = some m →
    c.kind m = some b ∧ (b = true → ∀ l, ProperName l → c.links m l = none)) ∧
    (b = true → Links.Climbs c.links dotdot root (· = n) td) ∧
    c' = c.rename sd sname td tname n (c.links td tname) defer := by
  rcases hr with ⟨-, ⟨rfl, rfl⟩ | ⟨m, hm, hm'⟩⟩ | ⟨m, b, ⟨hm, hb, -⟩, htarget, hclear, hc⟩
  · exact absurd hs hne
  · obtain rfl : n = m := Option.some.inj (hs.symm.trans hm)
    exact absurd hm' hne
  · obtain rfl : n = m := Option.some.inj (hs.symm.trans hm)
    exact ⟨b, hb, htarget, hclear, hc⟩

include h

/-- The proper names after a rename. -/
theorem renamed_links {x : Nat} {k : Name} (hk : ProperName k) :
    c'.links x k = if x = sd ∧ k = sname then none else if x = td ∧ k = tname then some n else c.links x k := by
  obtain ⟨b, hb, htarget, -, rfl⟩ := renamed_moves hs hne hr
  -- what made room has changed no other proper name
  have hput : ∀ G : Links Nat Name, (¬ (x = td ∧ k = tname) → G x k = c.links x k) →
    (G.put td tname (some n)).put sd sname none x k =
      if x = sd ∧ k = sname then none else if x = td ∧ k = tname then some n else c.links x k := by
    intro G hG
    unfold Links.put
    split
    · rfl
    · split
      · rfl
      · rename_i ht
        exact hG ht
  have hmove : ∀ d : Census, (d.move sd sname td tname n).links x k =
    (d.links.put td tname (some n)).put sd sname none x k := by
    intro d
    show ((((d.enter td tname n).leave sd sname).shift sd td).links.put n dotdot
      none).put n dotdot (some td) x k = _
    rw [Links.put_name _ _ _ _ hk.2, Links.put_name _ _ _ _ hk.2]
    unfold shift
    split <;> rfl
  unfold rename
  cases ht : c.links td tname with
  | none =>
    split
    · rw [hmove]
      exact hput c.links fun _ => rfl
    · exact hput c.links fun _ => rfl
  | some m =>
    obtain ⟨hm, hempty⟩ := htarget m ht
    split
    · rename_i hdir
      obtain rfl : b = true := Option.some.inj (hb.symm.trans hdir)
      rw [hmove]
      refine hput _ fun hnot => ?_
      show (c.links.put td tname none).wipe m x k = c.links x k
      by_cases hx : x = m
      · rw [hx, Links.wipe_same, hempty rfl k hk]
      · rw [Links.wipe_ne _ _ hx]
        exact if_neg hnot
    · rename_i hfile
      have hbare : c.kind m ≠ some true := by
        rw [hm, ← hb]
        exact hfile
      refine hput (c.drop td tname m defer).links fun hnot => ?_
      unfold drop
      split
      · show (c.links.put td tname none).wipe m x k = c.links x k
        by_cases hx : x = m
        · rw [hx, Links.wipe_same, h.bare hbare]
        · rw [Links.wipe_ne _ _ hx]
          exact if_neg hnot
      · exact if_neg hnot

end Census

/-- What lay below the source lies below the target, and ways that take neither name lead where they led. -/
structure Carried (c c' : Census) (root sd : Nat) (sname : Name) (td : Nat) (tname : Name) : Prop where
  freed : c'.links sd sname = none
  below : ∀ ks, (∀ k ∈ ks, Census.ProperName k) →
    c'.links.follow td (tname :: ks) = c.links.follow sd (sname :: ks)
  others : ∀ ks, (∀ k ∈ ks, Census.ProperName k) →
    (∀ pre k post x, ks = pre ++ k :: post → c.links.follow root pre = some x →
      ¬ (x = sd ∧ k = sname) ∧ ¬ (x = td ∧ k = tname)) →
    c'.links.follow root ks = c.links.follow root ks

theorem carried_of_renamed {c c' : Census} {root sd td n : Nat} {sname tname : Name} {defer : Bool}
    (h : c.Consistent root) (htd : c.kind td = some true)
    (hsname : Census.ProperName sname) (htname : Census.ProperName tname) (hs : c.links sd sname =
      some n) (hne : c.links td tname ≠ some n)
    (hr : Renamed c root sd sname td tname defer c') : Carried c c' root sd sname td tname := by
  obtain ⟨b, hb, -, hclear, -⟩ := Census.renamed_moves hs hne hr
  have hsd := h.tree.within sd sname n hs
  have hkeep : ∀ {x : Nat} {k : Name}, Census.ProperName k → ¬ (x = sd ∧ k = sname) →
    ¬ (x = td ∧ k = tname) → c'.links x k = c.links x k := by
    intro x k hk h1 h2
    rw [Census.renamed_links h hs hne hr hk, if_neg h1, if_neg h2]
  have hsame : ¬ (td = sd ∧ tname = sname) := by
    rintro ⟨rfl, rfl⟩
    exact hne hs
  refine ⟨?_, fun ks hks => ?_, fun ks hks hout => ?_⟩
  · rw [Census.renamed_links h hs hne hr hsname, if_pos ⟨rfl, rfl⟩]
  · rw [Links.follow_cons, Links.follow_cons, Census.renamed_links h hs hne hr htname,
      if_neg hsame, if_pos ⟨rfl, rfl⟩, hs]
    refine Links.follow_congr fun pre k post he x hx => ?_
    have hpre : ∀ l ∈ pre, Census.ProperName l := fun l hl => hks l (by rw [he]; simp [hl])
    have hk : Census.ProperName k := hks k (by rw [he]; simp)
    have hclear' : x ≠ sd ∧ x ≠ td := by
      cases b with
      | true => exact h.tree.below_avoids hb hsname hs htd (hclear rfl) hpre hx
      | false =>
        -- below a file there is nothing
        cases pre with
        | nil =>
          obtain rfl : n = x := Option.some.inj hx
          constructor
          · rintro rfl
            rw [hsd] at hb
            cases hb
          · rintro rfl
            rw [htd] at hb
            cases hb
        | cons l pre =>
          rw [Links.follow_cons, h.bare
            (by rw [hb]; exact fun he => Bool.noConfusion (Option.some.inj he))] at hx
          cases hx
    exact hkeep hk (fun he => hclear'.1 he.1) fun he => hclear'.2 he.1
  · refine Links.follow_congr fun pre k post he x hx => ?_
    obtain ⟨h1, h2⟩ := hout pre k post x he hx
    exact hkeep (hks k (by rw [he]; simp)) h1 h2

theorem a_rename_moves_a_subtree {s : Mnt} {own : Own} {rs : List Request} {sdir tdir flags n : Nat}
    {sname tname : Name} {defer : Bool} (h : Standing s own)
    (ha : Admissible s (rs ++ [.rename sdir sname tdir tname flags defer]))
    (hok : errorOf (filsysRenameIn sdir sname tdir tname flags defer) (play s rs) = none)
    (hs : (census (play s rs)).links sdir sname = some n) (hne : (census (play s rs)).links tdir tname ≠
      some n) :
    Carried (census (play s rs))
    (census (after (play s rs) (.rename sdir sname tdir tname flags defer))) (play s rs).fs.desc.rootino
    sdir sname tdir tname := by
  obtain ⟨hrs, ⟨hroom, hr⟩, -⟩ := admissible_append.mp ha
  obtain ⟨own', ht⟩ := history_keeps rs h hrs
  obtain ⟨own'', hc⟩ := called ht hroom hr
  obtain ⟨-, htdir, -, -, hsp, htp, -⟩ := hr
  rcases hc.does with ⟨-, hdoes⟩ | ⟨hfail, -⟩
  · exact carried_of_renamed ht.consistent htdir hsp htp hs hne hdoes
  · exact absurd hok hfail

theorem a_file_takes_another_name :
    Carried (census (play freshVolume firstCalls))
    (census (after (play freshVolume firstCalls) renameCall))
    (play freshVolume firstCalls).fs.desc.rootino 2 [97] 2 [98] := by
  have hother : (census (play freshVolume firstCalls)).links 2 [98] ≠ some firstFile := by
    rw [firstCalls_free]
    exact (Option.some_ne_none _).symm
  exact a_rename_moves_a_subtree freshVolume_standing rename_admissible firstRun.renames firstCalls_name hother

/-! ## (6) There and back -/

/-- A new directory that goes. -/
theorem Census.prune_grow {c : Census} {d n : Nat} {name : Name} (hn : c.kind n = none)
    (h0 : c.nlink n = 0) (hbare : ∀ l, c.links n l = none)
    (hfree : c.links d name = none) : (c.grow d name n).prune d name n = c := by
  apply Census.ext
  · funext x
    show (if x = n then none else if x = n then some true else c.kind x) = c.kind x
    by_cases hx : x = n
    · rw [if_pos hx, hx, hn]
    · rw [if_neg hx, if_neg hx]
  · funext x
    show (if x = n then 0 else if x = d then (if d = d then c.nlink d + 1 else _) - 1
      else if x = d then c.nlink d + 1 else if x = n then 2 else c.nlink x) = c.nlink x
    by_cases hx : x = n
    · rw [if_pos hx, hx, h0]
    · by_cases hxd : x = d
      · rw [if_neg hx, if_pos hxd, if_pos rfl, hxd]
        omega
      · rw [if_neg hx, if_neg hxd, if_neg hxd, if_neg hx]
  · show ((((c.links.put n dot (some n)).put n dotdot (some d)).put d name (some n)).put d
      name none).wipe n = c.links
    funext x y
    by_cases hx : x = n
    · rw [hx, Links.wipe_same, hbare]
    · rw [Links.wipe_ne _ _ hx, Links.put_put]
      by_cases hxy : x = d ∧ y = name
      · rw [hxy.1, hxy.2, Links.put_same, hfree]
      · refine (if_neg hxy).trans ?_
        rw [Links.put_dir _ _ _ _ hx, Links.put_dir _ _ _ _ hx]

/-- One more name of a file that goes. -/
theorem Census.drop_link {c : Census} {d n : Nat} {name : Name} {defer : Bool}
    (hmore : 0 < c.nlink n ∨ defer = true) (hfree : c.links d name = none) :
    (c.link d name n).drop d name n defer = c := by
  have hstay : ¬ ((c.link d name n).nlink n = 1 ∧ defer = false) := by
    rintro ⟨hone, hnow⟩
    rw [link_nlink, if_pos rfl] at hone
    rcases hmore with hpos | hdefer
    · omega
    · rw [hdefer] at hnow
      cases hnow
  unfold drop
  rw [if_neg hstay]
  apply Census.ext
  · rfl
  · funext x
    rw [unlink_nlink, link_nlink, link_nlink, if_pos rfl]
    split
    · rename_i hx
      rw [hx]
      omega
    · rfl
  · rw [unlink_links, link_links, Links.put_put, Links.put_self hfree]

section Back

variable {s : Mnt} {own : Own} {dir : Nat} {name : Name} (h : Standing s own)

include h

theorem a_directory_comes_and_goes {mode uid gid : Nat}
    (ha : Admissible s [.mkdir dir name mode uid gid, .rmdir dir name])
    (h1 : errorOf (filsysMkdirIn dir name mode uid gid) s = none)
    (h2 : errorOf (filsysRmdirIn dir name) (after s (.mkdir dir name mode uid gid)) = none) :
    census (play s [.mkdir dir name mode uid gid, .rmdir dir name]) = census s := by
  obtain ⟨⟨hroom, hr⟩, ⟨hroom', hr'⟩, -⟩ := ha
  obtain ⟨own₁, hc₁⟩ := called h hroom hr
  obtain ⟨own₂, hc₂⟩ := called hc₁.standing hroom' hr'
  rcases hc₁.does with ⟨-, n, hn, hmade⟩ | ⟨hfail, -⟩
  · rcases hc₂.does with ⟨-, m, ⟨hm, -, -⟩, hgone⟩ | ⟨hfail, -⟩
    · have hnew : (census (after s (.mkdir dir name mode uid gid))).links dir name = some n := by
        rw [hmade]
        exact Links.put_same ..
      obtain rfl : n = m := Option.some.inj (hnew.symm.trans hm)
      have hdead := censusOf_dead (kind_eq_none.mp hn.1)
      show census (after (after s _) _) = census s
      rw [hgone, hmade]
      exact Census.prune_grow hn.1 hdead.1 hdead.2 hn.2.1
    · exact absurd h2 hfail
  · exact absurd h1 hfail

theorem a_link_comes_and_goes {src : Nat} {defer : Bool}
    (ha : Admissible s [.link src dir name, .unlink dir name defer])
    (hmore : 0 < (census s).nlink src ∨ defer = true)
    (h1 : errorOf (filsysLinkIn src dir name) s = none)
    (h2 : errorOf (filsysUnlinkIn dir name defer) (after s (.link src dir name)) = none) :
    census (play s [.link src dir name, .unlink dir name defer]) = census s := by
  obtain ⟨⟨hroom, hr⟩, ⟨hroom', hr'⟩, -⟩ := ha
  obtain ⟨own₁, hc₁⟩ := called h hroom hr
  obtain ⟨own₂, hc₂⟩ := called hc₁.standing hroom' hr'
  obtain ⟨-, -, -, -, -, hfree⟩ := hr
  rcases hc₁.does with ⟨-, hmade⟩ | ⟨hfail, -⟩
  · rcases hc₂.does with ⟨-, m, hm, hgone⟩ | ⟨hfail, -⟩
    · have hmade : census (after s (.link src dir name)) = (census s).link dir name src := hmade
      have hnew : (census (after s (.link src dir name))).links dir name = some src := by
        rw [hmade]
        exact Links.put_same ..
      obtain rfl : src = m := Option.some.inj (hnew.symm.trans hm)
      show census (after (after s _) _) = census s
      rw [hgone, hmade]
      exact Census.drop_link hmore hfree
    · exact absurd h2 hfail
  · exact absurd h1 hfail

end Back

theorem a_directory_of_the_root_comes_and_goes :
    census (play freshVolume [.mkdir 2 [100] 0o755 0 0, .rmdir 2 [100]]) = census freshVolume := by
  have hmkdir : (Request.mkdir 2 [100] 0o755 0 0).Allowed freshVolume :=
    ⟨firstRun.rootDir, ⟨by decide, firstRun.rootShort, by decide, by decide⟩⟩
  have hrmdir : (Request.rmdir 2 [100]).Allowed (after freshVolume (.mkdir 2 [100] 0o755 0 0)) :=
    ⟨firstRun.madeDir, ⟨by decide, firstRun.madeShort⟩, proper_of (by decide)⟩
  exact a_directory_comes_and_goes freshVolume_standing ⟨⟨firstRun.mkdirRoom, hmkdir⟩,
    ⟨trivial, hrmdir⟩, trivial⟩ firstRun.makes firstRun.removes

theorem a_second_name_comes_and_goes :
    census (play (play freshVolume firstCalls) [.link firstFile 2 [98], .unlink 2 [98] false]) =
    census (play freshVolume firstCalls) := by
  obtain ⟨own', hstand⟩ := history_keeps firstCalls freshVolume_standing firstCalls_admissible
  have hlink : (Request.link firstFile 2 [98]).Allowed (play freshVolume firstCalls) :=
    ⟨firstRun.dir, ⟨by decide, firstRun.short, by decide, by decide⟩, proper_of (by decide),
      firstCalls_file, fun _ => (links_lt firstCalls_name).2, firstCalls_free⟩
  have hpos : 0 < (census (play freshVolume firstCalls)).nlink firstFile := by
    rw [census_firstCalls, Census.enter_nlink, Census.born_nlink, if_pos rfl]
    decide
  obtain ⟨own'', hc⟩ := called hstand firstRun.linkRoom hlink
  have hmade : census (after (play freshVolume firstCalls) (.link firstFile 2 [98])) =
    (census (play freshVolume firstCalls)).link 2 [98] firstFile := by
    rcases hc.does with ⟨-, hmade⟩ | ⟨hfail, -⟩
    · exact hmade
    · exact absurd firstRun.links hfail
  have hdir : (census (after (play freshVolume firstCalls) (.link firstFile 2 [98]))).kind 2 = some true := by
    rw [hmade, Census.link_kind]
    exact firstRun.dir
  have hunlink : (Request.unlink 2 [98] false).Allowed
    (after (play freshVolume firstCalls) (.link firstFile 2 [98])) := by
    refine ⟨hdir, ⟨by decide, firstRun.linkedShort⟩, proper_of (by decide), fun n hn => ?_⟩
    rw [hmade, Census.link_links, Links.put_same] at hn
    obtain rfl := Option.some.inj hn
    rw [hmade, Census.link_kind]
    exact firstCalls_file
  exact a_link_comes_and_goes hstand ⟨⟨firstRun.linkRoom, hlink⟩, ⟨trivial, hunlink⟩, trivial⟩ (.inl hpos)
    firstRun.links firstRun.unlinks

end Filsys.Names
