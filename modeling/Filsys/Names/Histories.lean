/-
  Filsys.Names.Histories — whole runs of the calls on names (filsys.c).

  A `Request` is one call of the library with its arguments. `Request.Does` says what it is
  for, as a change of the census and with nothing of the engine in it. Proved:

  (1) a call that succeeds does what it is for, and one that fails does nothing; inodes it
      is not about keep their records, their blocks and what is in them (`post_request`);
  (2) what a call is for keeps a consistent tree (`consistent_does`);
  (3) so after any sequence of calls the volume is fit and its tree consistent (`history_keeps`).
-/

import Filsys.Names.Moves

namespace Filsys.Names

open Filsys.Lib Filsys.Engine Filsys.Alloc Filsys.Tree

/-! ## Calls -/

inductive Request
  | create (dir : Nat) (name : Name) (mode uid gid : Nat)
  | mkdir (dir : Nat) (name : Name) (mode uid gid : Nat)
  | mknod (dir : Nat) (name : Name) (mode rdev uid gid : Nat)
  | symlink (target : Name) (dir : Nat) (name : Name)
  | link (src dir : Nat) (name : Name)
  | unlink (dir : Nat) (name : Name) (defer : Bool)
  | rmdir (dir : Nat) (name : Name)
  | rename (sdir : Nat) (sname : Name) (tdir : Nat) (tname : Name) (flags : Nat) (defer : Bool)
  /-- The last user of a file without a name is done with it. -/
  | free (ino : Nat)

namespace Request

def run : Request → M Unit
  | create dir name mode uid gid => do
    let _ ← filsysCreateIn dir name mode uid gid
    return ()
  | mkdir dir name mode uid gid => filsysMkdirIn dir name mode uid gid
  | mknod dir name mode rdev uid gid => filsysMknodIn dir name mode rdev uid gid
  | symlink target dir name => filsysSymlinkIn target dir name
  | link src dir name => filsysLinkIn src dir name
  | unlink dir name defer => filsysUnlinkIn dir name defer
  | rmdir dir name => filsysRmdirIn dir name
  | rename sdir sname tdir tname flags defer => filsysRenameIn sdir sname tdir tname flags defer
  | free ino => filsysFreeIno ino

/-- A name one can look for. -/
structure Sought (d : Desc) (name : Name) : Prop where
  nul : 0 ∉ name
  short : name.length ≤ d.maxNamlen

/-- What the callers see to: directories are live ones, a new link is to a file and its name is
    free, directories are not unlinked, and only files are kept for those that have them open
    (`fuse_op_open` refuses a directory). The number of a file that has a name fits an entry, and a
    V1 volume is mounted as one. -/
def Allowed (s : Mnt) : Request → Prop
  | create dir name _ _ _ => (census s).kind dir = some true ∧ NameOk s.fs.desc name
  | mkdir dir name _ _ _ => (census s).kind dir = some true ∧ NameOk s.fs.desc name
  | mknod dir name _ _ _ _ =>
    (census s).kind dir = some true ∧ NameOk s.fs.desc name ∧ (s.fs.desc.ops = .v1 → s.edition = .v1)
  | symlink target dir name =>
    (census s).kind dir = some true ∧ NameOk s.fs.desc name ∧ Mappable s.fs target.length
  | link src dir name => (census s).kind dir = some true ∧ NameOk s.fs.desc name ∧ Census.ProperName name ∧
      (census s).kind src = some false ∧ ((census s).nlink src = 0 → src < 65536) ∧
      (census s).links dir name = none
  | unlink dir name _ => (census s).kind dir = some true ∧ Sought s.fs.desc name ∧ Census.ProperName name ∧
      ∀ n, (census s).links dir name = some n → (census s).kind n = some false
  | rmdir dir name => (census s).kind dir = some true ∧ Sought s.fs.desc name ∧ Census.ProperName name
  | rename sdir sname tdir tname _ defer =>
    (census s).kind sdir = some true ∧ (census s).kind tdir = some true ∧
      Sought s.fs.desc sname ∧ NameOk s.fs.desc tname ∧ Census.ProperName sname ∧ Census.ProperName tname ∧
      (defer = true → ∀ n, (census s).links tdir tname = some n → (census s).kind n = some false)
  | free ino => (census s).kind ino = some false ∧ (census s).nlink ino = 0

/-- No link count leaves its field, not even while a rename is under way, and no directory grows
    past the largest file. -/
def Room (s : Mnt) : Request → Prop
  | create dir name _ _ _ => (census s).links dir name = none → Takes s dir
  | mkdir dir name _ _ _ =>
    (census s).links dir name = none → Takes s dir ∧ (census s).nlink dir < linkMax s.fs.desc
  | mknod dir name _ _ _ _ => (census s).links dir name = none → Takes s dir
  | symlink _ dir name => (census s).links dir name = none → Takes s dir
  | link src dir _ => Takes s dir ∧ (census s).nlink src < linkMax s.fs.desc
  | unlink _ _ _ => True
  | rmdir _ _ => True
  | rename sdir sname tdir tname _ _ => ∀ n, (census s).links sdir sname = some n →
      (census s).links tdir tname ≠ some n → ((census s).links tdir tname = none → Takes s tdir) ∧
        (census s).nlink n < linkMax s.fs.desc ∧
        ((census s).kind n = some true → sdir ≠ tdir → (census s).nlink tdir < linkMax s.fs.desc)
  | free _ => True

/-- A number no inode has. -/
def Unused (c : Census) (dir : Nat) (name : Name) (n : Nat) : Prop :=
  c.kind n = none ∧ c.links dir name = none ∧ Census.ProperName name

/-- What a call is for. -/
def Does (c : Census) (root : Nat) (c' : Census) : Request → Prop
  | create dir name _ _ _ => ∃ n, Unused c dir name n ∧ c' = (c.born n false 1).enter dir name n
  | mkdir dir name _ _ _ => ∃ n, Unused c dir name n ∧ c' = c.grow dir name n
  | mknod dir name _ _ _ _ => ∃ n, Unused c dir name n ∧ c' = (c.born n false 1).enter dir name n
  | symlink _ dir name => ∃ n, Unused c dir name n ∧ c' = (c.born n false 1).enter dir name n
  | link src dir name => c' = c.link dir name src
  | unlink dir name defer => ∃ n, c.links dir name = some n ∧ c' = c.drop dir name n defer
  | rmdir dir name =>
    ∃ n, (c.links dir name = some n ∧ c.kind n = some true ∧ ∀ l, Census.ProperName l →
      c.links n l = none) ∧ c' = c.prune dir name n
  | rename sdir sname tdir tname _ defer => Renamed c root sdir sname tdir tname defer c'
  | free ino => c' = c.gone ino

/-- The inodes it may write: the directories, what their names stand for, and such as were free. -/
def Touches (c : Census) (x : Nat) : Request → Prop
  | create dir _ _ _ _ => x = dir ∨ c.kind x = none
  | mkdir dir _ _ _ _ => x = dir ∨ c.kind x = none
  | mknod dir _ _ _ _ _ => x = dir ∨ c.kind x = none
  | symlink _ dir _ => x = dir ∨ c.kind x = none
  | link src dir _ => x = dir ∨ x = src
  | unlink dir name _ => x = dir ∨ c.links dir name = some x
  | rmdir dir name => x = dir ∨ c.links dir name = some x
  | rename sdir sname tdir tname _ _ => Involved c sdir sname tdir tname x
  | free ino => x = ino

end Request

/-! ## (1) One call -/

section Call

variable {s : Mnt} {own : Own} (h : Standing s own)

include h

theorem post_freeIno {ino : Nat} {b : Bool} (hn : (census s).kind ino = some b) : Post (filsysFreeIno ino s)
    (fun _ t => Becomes (· = ino) s own t ((census s).gone ino)) (fun _ _ => False) := by
  refine post_bind (post_failAs ((post_readLive h.fit h.clear hn).mono ?_ fun _ _ h => h))
  intro ip t hr
  obtain ⟨ht, hc, -⟩ := hr
  have hft := h.fit.looked ht
  have hkt : (census t).kind ino = some b := by
    rw [looked_census ht]
    exact hn
  refine (post_destroyFit hft (looked_clear ht h.clear) (hc.data_view hft hkt)
    (valid_of_kind hkt).1).mono ?_ fun _ _ h => h
  intro _ u hr
  obtain ⟨own', hu, hcu⟩ := hr
  have hall := (went_looked h.fit ht _).trans hu
  refine ⟨own', hall, by rw [hcu, looked_census ht], fun k hk hk' => hall.intact (valid_of_kind hk).1 ?_⟩
  rintro rfl
  rw [Census.gone_kind, if_pos rfl] at hk'
  cases hk'

/-- A call does what it is for, or nothing. -/
theorem post_request {r : Request} (hr : r.Room s) (ha : r.Allowed s) : Post (r.run s)
    (fun _ t => ∃ c, r.Does (census s) s.fs.desc.rootino c ∧
      Becomes (fun x => r.Touches (census s) x) s own t c)
    (fun _ t => Becomes (fun x => r.Touches (census s) x) s own t (census s)) := by
  cases r with
  | create dir name mode uid gid =>
    refine post_bind ((post_createIn h ha.1 ha.2 hr mode uid gid).mono ?_ fun _ _ he => he)
    intro n t hr
    obtain ⟨hn, ht⟩ := hr
    exact ⟨_, ⟨n, hn, rfl⟩, ht⟩
  | mkdir dir name mode uid gid =>
    have hmkdir := post_mkdirIn h ha.1 ha.2 (fun hn => (hr hn).1) (fun hn => (hr hn).2) mode uid gid
    refine hmkdir.mono ?_ fun _ _ he => he
    intro _ t hr
    obtain ⟨n, hn, ht⟩ := hr
    exact ⟨_, ⟨n, hn, rfl⟩, ht⟩
  | mknod dir name mode rdev uid gid =>
    refine (post_mknodIn h ha.1 ha.2.1 hr ha.2.2 mode rdev uid gid).mono ?_ fun _ _ he => he
    intro _ t hr
    obtain ⟨n, hn, ht⟩ := hr
    exact ⟨_, ⟨n, hn, rfl⟩, ht⟩
  | symlink target dir name =>
    refine (post_symlinkIn h ha.1 ha.2.1 hr ha.2.2).mono ?_ fun _ _ he => he
    intro _ t hr
    obtain ⟨n, hn, ht⟩ := hr
    exact ⟨_, ⟨n, hn, rfl⟩, ht⟩
  | link src dir name =>
    obtain ⟨hdir, hname, -, hfile, hnumber, hfree⟩ := ha
    have h16 : src < 65536 := by
      by_cases hn : (census s).nlink src = 0
      · exact hnumber hn
      · obtain ⟨d, l, hl⟩ := h.consistent.named (by rw [hfile]; exact nofun) hn
        exact (links_lt hl).2
    have hlink := post_linkIn h hdir hr.1 hfile hr.2 h16 hname hfree
    refine hlink.mono (fun _ t ht => ⟨_, rfl, ht⟩) fun _ _ ht => ?_
    exact ht.mono fun _ => .inl
  | unlink dir name defer =>
    obtain ⟨hdir, hname, -, hfile⟩ := ha
    refine (post_unlinkIn h hdir hname.nul hname.short hfile defer).mono ?_ ?_
    · intro _ t hr
      obtain ⟨n, hn, ht⟩ := hr
      exact ⟨_, ⟨n, hn, rfl⟩, ht⟩
    · exact fun _ _ ht => ht.2.2.mono fun _ hf => hf.elim
  | rmdir dir name =>
    obtain ⟨hdir, hname, hproper⟩ := ha
    refine (post_rmdirIn h hdir hname.nul hname.short hproper).mono ?_ ?_
    · intro _ t hr
      obtain ⟨n, hn, ht⟩ := hr
      exact ⟨_, ⟨n, hn, rfl⟩, ht⟩
    · exact fun _ _ ht => ht.mono fun _ hf => hf.elim
  | rename sdir sname tdir tname flags defer =>
    obtain ⟨hsdir, htdir, hsname, htname, hsp, htp, hdefer⟩ := ha
    exact post_renameIn h hsdir htdir hsname.nul hsname.short htname hsp htp hr flags defer hdefer
  | free ino => exact (post_freeIno h ha.1).mono (fun _ t ht => ⟨_, rfl, ht⟩) fun _ _ he => he.elim

end Call

/-! ## (2) What keeps the tree -/

theorem consistent_does {c c' : Census} {s : Mnt} {root : Nat} (hs : census s = c)
    (h : c.Consistent root) {r : Request} (ha : r.Allowed s)
    (hd : r.Does c root c') : c'.Consistent root := by
  subst hs
  have hborn : ∀ {dir name n}, (census s).kind dir = some true → Request.Unused (census s) dir name n →
    (((census s).born n false 1).enter dir name n).Consistent root :=
    fun hdir hn => Census.consistent_born h hdir hn.1 (censusOf_dead (kind_eq_none.mp hn.1)).1 hn.2.2 hn.2.1
  cases r with
  | create dir name mode uid gid =>
    obtain ⟨n, hn, rfl⟩ := hd
    exact hborn ha.1 hn
  | mkdir dir name mode uid gid =>
    obtain ⟨n, hn, rfl⟩ := hd
    exact Census.consistent_grown h ha.1 hn.1 (censusOf_dead (kind_eq_none.mp hn.1)).1 hn.2.2 hn.2.1
  | mknod dir name mode rdev uid gid =>
    obtain ⟨n, hn, rfl⟩ := hd
    exact hborn ha.1 hn
  | symlink target dir name =>
    obtain ⟨n, hn, rfl⟩ := hd
    exact hborn ha.1 hn
  | link src dir name =>
    obtain ⟨hdir, -, hproper, hfile, -, hfree⟩ := ha
    obtain rfl := hd
    exact Census.consistent_linked h hdir hfile hproper hfree
  | unlink dir name defer =>
    obtain ⟨-, -, hproper, hfile⟩ := ha
    obtain ⟨n, hn, rfl⟩ := hd
    exact Census.consistent_dropped h (hfile n hn) hproper hn defer
  | rmdir dir name =>
    obtain ⟨-, -, hproper⟩ := ha
    obtain ⟨n, ⟨hn, hk, hempty⟩, rfl⟩ := hd
    exact Census.consistent_pruned h hk hproper hn hempty
  | rename sdir sname tdir tname flags defer =>
    obtain ⟨-, htdir, -, -, hsp, htp, -⟩ := ha
    rcases hd with ⟨rfl, -⟩ | ⟨n, b, ⟨hn, hk, hne⟩, htarget, hclear, rfl⟩
    · exact h
    · exact Census.consistent_renamed h hk htdir hsp htp hn rfl hne htarget hclear defer
  | free ino =>
    obtain rfl := hd
    exact Census.consistent_gone h ha.1 ha.2

/-! ## (3) Runs -/

/-- The mount after a call, whatever the call has returned. -/
def after (s : Mnt) (r : Request) : Mnt := final r.run s

def play (s : Mnt) (rs : List Request) : Mnt := rs.foldl after s

/-- Every call finds the room it needs, and what its caller has to see to. -/
def Admissible : Mnt → List Request → Prop
  | _, [] => True
  | s, r :: rs => (r.Room s ∧ r.Allowed s) ∧ Admissible (after s r) rs

theorem admissible_append {rs rs' : List Request} : ∀ {s : Mnt}, Admissible s (rs ++ rs') ↔
    Admissible s rs ∧ Admissible (play s rs) rs' := by
  induction rs with
  | nil => exact fun {s} => ⟨fun h => ⟨trivial, h⟩, fun h => h.2⟩
  | cons r rs ih =>
    intro s
    show ((_ ∧ _) ∧ Admissible (after s r) (rs ++ rs')) ↔ ((_ ∧ _) ∧ Admissible (after s r) rs) ∧
      Admissible (play (after s r) rs) rs'
    rw [ih]
    exact and_assoc.symm

/-- What one call comes to. -/
structure Called (s : Mnt) (own : Own) (r : Request) (t : Mnt) (own' : Own) : Prop where
  standing : Standing t own'
  went : Went (fun x => r.Touches (census s) x) s own t own'
  does : errorOf r.run s = none ∧ r.Does (census s) s.fs.desc.rootino (census t) ∨
    errorOf r.run s ≠ none ∧ census t = census s
  files : ∀ k, (census s).kind k = some false → (census t).kind k = some false → Intact k s own t own'

theorem called {s : Mnt} {own : Own} (h : Standing s own) {r : Request} (hr : r.Room s)
    (ha : r.Allowed s) : ∃ own', Called s own r (after s r) own' := by
  have hpost := post_request h hr ha
  unfold after final
  cases hx : r.run s with
  | ok _ t =>
    rw [hx] at hpost
    obtain ⟨c, hd, own', hw, rfl, hfiles⟩ := hpost
    have hdesc := hw.desc
    refine ⟨own', ⟨hw.fit, ?_, hw.clear h.clear⟩, hw, .inl ⟨?_, hd⟩, hfiles⟩
    · rw [hdesc]
      exact consistent_does rfl h.consistent ha hd
    · unfold errorOf
      rw [hx]
  | error e t =>
    rw [hx] at hpost
    obtain ⟨own', hw, hc, hfiles⟩ := hpost
    have hdesc := hw.desc
    refine ⟨own', ⟨hw.fit, ?_, hw.clear h.clear⟩, hw, .inr ⟨?_, hc⟩, fun k hk hk' =>
      hfiles k hk (by rw [← hc]; exact hk')⟩
    · rw [hdesc, hc]
      exact h.consistent
    · unfold errorOf
      rw [hx]
      exact nofun

/-- After any calls the volume is fit and its tree consistent. -/
theorem history_keeps (rs : List Request) : ∀ {s : Mnt} {own : Own}, Standing s own → Admissible s rs →
    ∃ own', Standing (play s rs) own' := by
  induction rs with
  | nil => exact fun h _ => ⟨_, h⟩
  | cons r rs ih =>
    intro s own h hr
    obtain ⟨⟨hroom, ha⟩, hrest⟩ := hr
    obtain ⟨own', hc⟩ := called h hroom ha
    exact ih hc.standing hrest

/-- Links that hold between calls hold across them. -/
theorem history_relates {R : Mnt → Mnt → Prop} (hrefl : ∀ s, R s s)
    (htrans : ∀ {s t u}, R s t → R t u → R s u) {ok : Request → Prop}
    (hstep : ∀ {s own r}, Standing s own → r.Room s → r.Allowed s → ok r → R s (after s r))
    (rs : List Request) :
    ∀ {s : Mnt} {own : Own}, Standing s own → Admissible s rs → (∀ r ∈ rs, ok r) → R s (play s rs) := by
  induction rs with
  | nil => exact fun _ _ _ => hrefl _
  | cons r rs ih =>
    intro s own h hr hok
    obtain ⟨⟨hroom, ha⟩, hrest⟩ := hr
    obtain ⟨own', hc⟩ := called h hroom ha
    exact htrans (hstep h hroom ha (hok r List.mem_cons_self)) (ih hc.standing hrest fun r' hr' =>
      hok r' (List.mem_cons_of_mem _ hr'))

end Filsys.Names
