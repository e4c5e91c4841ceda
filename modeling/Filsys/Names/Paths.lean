/-
  Filsys.Names.Paths — a source path that does not split.

  `filsys_rename` splits both its paths and looks at the second return code only. Where
  `split_path` rejects the source it may have filled in the directory part or nothing,
  never the name, and the call goes on with what the buffers held
  (`filsysRenameOver`). Where the source splits, the buffers have no say: both its
  parts are those of the path (`filsysRenameOver_eq`).

  (1) `rename_depends_on_its_arguments_iff`: a rename from `src` is decided by its
      arguments and the image, and refused where `src` does not split, exactly if `src`
      splits or its directory part is filled in and does not resolve. A single call is
      settled too when the target does not split, one of the two directories does not
      resolve, or a flag is unsupported.
  (2) `an_unset_name_renames`: with `/` as the source, what was in the name buffer
      decides between success and ENOENT.
-/

import Filsys.Check.Fresh
import Filsys.Engine.Replay

namespace Filsys.Names

open Filsys.Lib Filsys.Engine

/-! ## Splitting into buffers -/

/-- What the two buffers handed to `split_path` read as. -/
structure Halves where
  dir : Name
  name : Name

/-- What stands after the last slash. -/
def baseOf (path : Name) : Name := (path.reverse.takeWhile (· ≠ slash)).reverse

/-- What stands before it, at least one byte. -/
def dirOf (path : Name) : Name :=
  let dir := path.take (path.length - (baseOf path).length - 1)
  if dir = [] then path.take 1 else dir

/-- `split_path` into `b`: the return code, and the buffers after it. -/
def splitOver (path : Name) (namesz : Nat) (b : Halves) : Option Errno × Halves :=
  if slash ∈ path then
    if 4096 ≤ (dirOf path).length then (some .enametoolong, b)
    else if baseOf path = [] then (some .einval, { b with dir := dirOf path })
    else if namesz ≤ (baseOf path).length then (some .enametoolong, { b with dir := dirOf path })
    else (none, ⟨dirOf path, baseOf path⟩)
  else (some .einval, b)

/-- Does `split_path` get as far as storing the directory part? -/
def StoresDir (path : Name) : Prop := slash ∈ path ∧ (dirOf path).length < 4096

instance (path : Name) : Decidable (StoresDir path) := inferInstanceAs (Decidable (_ ∧ _))

theorem splitPath_eq (path : Name) (namesz : Nat) : splitPath path namesz =
    if slash ∈ path then
      if 4096 ≤ (dirOf path).length then .error .enametoolong
      else if baseOf path = [] then .error .einval
      else if namesz ≤ (baseOf path).length then .error .enametoolong
      else .ok (dirOf path, baseOf path)
    else .error .einval := rfl

theorem splitOver_eq (path : Name) (namesz : Nat) (b : Halves) : splitOver path namesz b =
    match splitPath path namesz with
    | .ok (dir, name) => (none, ⟨dir, name⟩)
    | .error e => (some e, if StoresDir path then { b with dir := dirOf path } else b) := by
  rw [splitPath_eq]
  unfold splitOver StoresDir
  by_cases hslash : slash ∈ path
  · rw [if_pos hslash, if_pos hslash]
    by_cases hlong : 4096 ≤ (dirOf path).length
    · rw [if_pos hlong, if_pos hlong]
      simp only [hslash, Nat.not_lt.mpr hlong, and_false, if_false]
    · rw [if_neg hlong, if_neg hlong]
      simp only [hslash, Nat.lt_of_not_le hlong, and_self, if_true]
      by_cases hname : baseOf path = []
      · rw [if_pos hname, if_pos hname]
      · rw [if_neg hname, if_neg hname]
        by_cases hsz : namesz ≤ (baseOf path).length
        · rw [if_pos hsz, if_pos hsz]
        · rw [if_neg hsz, if_neg hsz]
  · rw [if_neg hslash, if_neg hslash]
    simp only [hslash, false_and, if_false]

/-- `filsys_rename` with what its buffers held before: `b` those of the source, `c` those of the target. -/
def filsysRenameOver (b c : Halves) (src dst : Name) (flags : Nat) (defer : Bool) : M Unit := do
  if src = dst then return ()
  else
    let d := (← getFs).desc
    -- the return code of the first split is not looked at
    let b := (splitOver src (d.maxNamlen + 1) b).2
    let (rc, c) := splitOver dst (d.maxNamlen + 1) c
    match rc with
    | some e => throw e
    | none =>
      let (sdino, _) ← pathInode b.dir
      let (tdino, _) ← pathInode c.dir
      filsysRenameIn sdino b.name tdino c.name flags defer

/-- What `split_path` says of a path under the limit of the mount. -/
def split (s : Mnt) (path : Name) : Except Errno (Name × Name) := splitPath path (s.fs.desc.maxNamlen + 1)

theorem splitM_eq (path : Name) (s : Mnt) : splitM path s =
    match split s path with
    | .ok r => .ok r s
    | .error e => .error e s := by
  unfold splitM
  rw [bind_eq_of_ok (show getFs s = .ok s.fs s from rfl)]
  unfold split
  cases splitPath path (s.fs.desc.maxNamlen + 1) with
  | ok r => rfl
  | error e => rfl

section Call

variable {s : Mnt} {src dst : Name} {flags : Nat} {defer : Bool} {b c : Halves}

/-- A call between two paths of which the second splits. -/
theorem filsysRenameOver_split (hne : src ≠ dst) {tdir tname : Name} (hdst : split s dst = .ok (tdir, tname)) :
    filsysRenameOver b c src dst flags defer s =
      (do
        let (sdino, _) ← pathInode (splitOver src (s.fs.desc.maxNamlen + 1) b).2.dir
        let (tdino, _) ← pathInode tdir
        filsysRenameIn sdino (splitOver src (s.fs.desc.maxNamlen + 1) b).2.name tdino tname flags defer) s := by
  unfold filsysRenameOver
  rw [if_neg hne, bind_eq_of_ok (show getFs s = .ok s.fs s from rfl)]
  have hdst' : splitPath dst (s.fs.desc.maxNamlen + 1) = .ok (tdir, tname) := hdst
  simp only [splitOver_eq dst, hdst']

/-- A target that does not split ends the call. -/
theorem filsysRenameOver_refused (hne : src ≠ dst) {e : Errno} (hdst : split s dst = .error e) :
    filsysRenameOver b c src dst flags defer s = .error e s := by
  unfold filsysRenameOver
  rw [if_neg hne, bind_eq_of_ok (show getFs s = .ok s.fs s from rfl)]
  have hdst' : splitPath dst (s.fs.desc.maxNamlen + 1) = .error e := hdst
  simp only [splitOver_eq dst, hdst']
  rfl

theorem filsysRenameOver_same : filsysRenameOver b c src src flags defer s = .ok () s := by
  unfold filsysRenameOver
  rw [if_pos rfl]
  rfl

/-- The call between two paths that both split. -/
def renameSplit (src dst : Name) (flags : Nat) (defer : Bool) : M Unit := do
  if src = dst then return ()
  else
    let (fdir, fname) ← splitM src
    let (tdir, tname) ← splitM dst
    let (sdino, _) ← pathInode fdir
    let (tdino, _) ← pathInode tdir
    filsysRenameIn sdino fname tdino tname flags defer

/-- A source that splits leaves the buffers no say. -/
theorem filsysRenameOver_eq (hsrc : src ≠ dst → ∃ r, split s src = .ok r) :
    filsysRenameOver b c src dst flags defer s = renameSplit src dst flags defer s := by
  unfold renameSplit
  by_cases hne : src = dst
  · rw [if_pos hne, hne, filsysRenameOver_same]
    rfl
  · rw [if_neg hne]
    obtain ⟨⟨fdir, fname⟩, hf⟩ := hsrc hne
    have hf' : splitPath src (s.fs.desc.maxNamlen + 1) = .ok (fdir, fname) := hf
    rw [bind_eq_of_ok (show splitM src s = .ok (fdir, fname) s by rw [splitM_eq, hf])]
    dsimp only
    cases hd : split s dst with
    | error e =>
      rw [filsysRenameOver_refused hne hd,
        bind_eq_of_error (show splitM dst s = .error e s by rw [splitM_eq, hd])]
    | ok r =>
      rw [filsysRenameOver_split hne hd, bind_eq_of_ok (show splitM dst s = .ok r s by rw [splitM_eq, hd])]
      simp only [splitOver_eq src, hf']

/-- A source of which only the directory part was stored. -/
theorem filsysRenameOver_stored (hne : src ≠ dst) {e : Errno} (hsrc : split s src = .error e)
    (hst : StoresDir src)
    {tdir tname : Name} (hdst : split s dst = .ok (tdir, tname)) :
    filsysRenameOver b c src dst flags defer s =
      (do
        let (sdino, _) ← pathInode (dirOf src)
        let (tdino, _) ← pathInode tdir
        filsysRenameIn sdino b.name tdino tname flags defer) s := by
  have hsrc' : splitPath src (s.fs.desc.maxNamlen + 1) = .error e := hsrc
  rw [filsysRenameOver_split hne hdst]
  simp only [splitOver_eq src, hsrc', if_pos hst]

/-- A source of which nothing was stored. -/
theorem filsysRenameOver_unset (hne : src ≠ dst) {e : Errno} (hsrc : split s src = .error e)
    (hst : ¬ StoresDir src)
    {tdir tname : Name} (hdst : split s dst = .ok (tdir, tname)) :
    filsysRenameOver b c src dst flags defer s =
      (do
        let (sdino, _) ← pathInode b.dir
        let (tdino, _) ← pathInode tdir
        filsysRenameIn sdino b.name tdino tname flags defer) s := by
  have hsrc' : splitPath src (s.fs.desc.maxNamlen + 1) = .error e := hsrc
  rw [filsysRenameOver_split hne hdst]
  simp only [splitOver_eq src, hsrc', if_neg hst]

end Call

/-! ## Paths that split -/

theorem split_fst {s : Mnt} {path : Name} {r : Name × Name} (h : split s path = .ok r) : r.1 = dirOf path := by
  unfold split at h
  rw [splitPath_eq] at h
  split at h
  · split at h
    · cases h
    · split at h
      · cases h
      · split at h
        · cases h
        · cases h
          rfl
  · cases h

theorem takeWhile_reverse_base (dir : Name) {name : Name} (hname : slash ∉ name) :
    baseOf (dir ++ slash :: name) = name := by
  have hall : ∀ x ∈ name.reverse, decide (x ≠ slash) = true := by
    intro x hx
    rw [List.mem_reverse] at hx
    exact decide_eq_true fun h => hname (h ▸ hx)
  unfold baseOf
  rw [List.reverse_append, List.reverse_cons, List.append_assoc, List.takeWhile_append_of_pos hall]
  simp

/-- A name put under a directory splits into the two. -/
theorem split_under {s : Mnt} {dir name : Name} (hdir : dir ≠ []) (hlen : dir.length < 4096) (hne : name ≠ [])
    (hname : slash ∉ name) (hfit : name.length ≤ s.fs.desc.maxNamlen) :
    split s (dir ++ slash :: name) = .ok (dir, name) := by
  have hbase := takeWhile_reverse_base dir hname
  have hd : dirOf (dir ++ slash :: name) = dir := by
    unfold dirOf
    rw [hbase]
    have hl : (dir ++ slash :: name).length - name.length - 1 = dir.length := by
      rw [List.length_append, List.length_cons]
      omega
    rw [hl, List.take_left]
    simp only [hdir, if_false]
  unfold split
  rw [splitPath_eq, hbase, hd, if_pos (by simp), if_neg (by omega), if_neg hne, if_neg (by omega)]

theorem img_of_readOnly {s t : Mnt} (hs : Solo s) (h : ReadOnly s t) : t.img = s.img := by
  obtain ⟨k, -, rfl⟩ := h hs
  rfl

/-! ## The property -/

/-- Whatever the buffers held, one return code and one image; and where the source does not
    split, an error and the image as it was. -/
def DependsOnArgs (s : Mnt) (src dst : Name) (flags : Nat) (defer : Bool) : Prop :=
  (∀ b c b' c', errorOf (filsysRenameOver b c src dst flags defer) s =
    errorOf (filsysRenameOver b' c' src dst flags defer) s ∧
    (final (filsysRenameOver b c src dst flags defer) s).img =
    (final (filsysRenameOver b' c' src dst flags defer) s).img) ∧
  ((∀ r, split s src ≠ .ok r) →
    ∀ b c, errorOf (filsysRenameOver b c src dst flags defer) s ≠ none ∧
    (final (filsysRenameOver b c src dst flags defer) s).img = s.img)

/-- The source splits, or its directory part is stored and does not resolve. -/
def Settled (s : Mnt) (src : Name) : Prop :=
  (∃ r, split s src = .ok r) ∨ StoresDir src ∧ errorOf (pathInode (dirOf src)) s ≠ none

/-- The call does not get to the name of a source that does not split. -/
def Guarded (s : Mnt) (src dst : Name) (flags : Nat) : Prop :=
  (∃ r, split s src = .ok r) ∨ (∀ r, split s dst ≠ .ok r) ∨
    StoresDir src ∧ (errorOf (do let _ ← pathInode (dirOf src); pathInode (dirOf dst)) s ≠ none ∨ flags / 2 ≠ 0)

theorem errorOf_of_error {α : Type} {x : M α} {s t : Mnt} {e : Errno} (h : x s = .error e t) :
    errorOf x s = some e := by
  unfold errorOf
  rw [h]

theorem errorOf_of_ok {α : Type} {x : M α} {s t : Mnt} {a : α} (h : x s = .ok a t) : errorOf x s = none := by
  unfold errorOf
  rw [h]

theorem final_of_error {α : Type} {x : M α} {s t : Mnt} {e : Errno} (h : x s = .error e t) : final x s = t := by
  unfold final
  rw [h]

variable {s : Mnt} {src dst : Name} {flags : Nat} {defer : Bool}

/-- One refusal for all buffers, before anything is written. -/
theorem dependsOnArgs_of_refused {e : Errno} {t : Mnt} (himg : t.img = s.img)
    (h : ∀ b c, filsysRenameOver b c src dst flags defer s = .error e t) :
    DependsOnArgs s src dst flags defer := by
  have herr : ∀ b c, errorOf (filsysRenameOver b c src dst flags defer) s = some e :=
    fun b c => errorOf_of_error (h b c)
  have hfin : ∀ b c, final (filsysRenameOver b c src dst flags defer) s = t := fun b c => final_of_error (h b c)
  refine ⟨fun b c b' c' => ?_, fun _ b c => ?_⟩
  · rw [herr, herr, hfin, hfin]
    exact ⟨rfl, rfl⟩
  · rw [herr, hfin]
    exact ⟨by simp, himg⟩

theorem dependsOnArgs_of_splits (hsrc : ∃ r, split s src = .ok r) : DependsOnArgs s src dst flags defer := by
  have hrun : ∀ b c, filsysRenameOver b c src dst flags defer s = renameSplit src dst flags defer s :=
    fun b c => filsysRenameOver_eq fun _ => hsrc
  refine ⟨fun b c b' c' => ?_, fun hno => ?_⟩
  · unfold errorOf final
    rw [hrun, hrun]
    exact ⟨rfl, rfl⟩
  · obtain ⟨r, hr⟩ := hsrc
    exact absurd hr (hno r)

theorem dependsOnArgs_of_guarded (hs : Solo s) (hne : src ≠ dst) (h : Guarded s src dst flags) :
    DependsOnArgs s src dst flags defer := by
  rcases h with hsrc | hdst | ⟨hst, hstop⟩
  · exact dependsOnArgs_of_splits hsrc
  · cases hd : split s dst with
    | ok r => exact absurd hd (hdst r)
    | error e => exact dependsOnArgs_of_refused rfl fun b c => filsysRenameOver_refused hne hd
  · cases hsrc : split s src with
    | ok r => exact dependsOnArgs_of_splits ⟨r, hsrc⟩
    | error e =>
      cases hd : split s dst with
      | error e' => exact dependsOnArgs_of_refused rfl fun b c => filsysRenameOver_refused hne hd
      | ok r =>
        obtain ⟨tdir, tname⟩ := r
        have htdir : tdir = dirOf dst := split_fst hd
        subst htdir
        have hrun := fun b c => (filsysRenameOver_stored hne hsrc hst hd :
          filsysRenameOver b c src dst flags defer s = _)
        -- the two walks read; the first thing to fail after them is the check of the flags
        have hone := pathInode_peeks (dirOf src) s
        cases h1 : pathInode (dirOf src) s with
        | error e1 t =>
          rw [h1] at hone
          exact dependsOnArgs_of_refused (img_of_readOnly hs hone) fun b c =>
            (hrun b c).trans (bind_eq_of_error h1)
        | ok a t =>
          rw [h1] at hone
          have htwo := pathInode_peeks (dirOf dst) t
          have hst : Solo t := by
            obtain ⟨k, -, rfl⟩ := hone hs
            exact hs
          cases h2 : pathInode (dirOf dst) t with
          | error e2 u =>
            rw [h2] at htwo
            refine dependsOnArgs_of_refused (e :=
              e2) ((img_of_readOnly hst htwo).trans (img_of_readOnly hs hone)) fun b c => ?_
            rw [hrun, bind_eq_of_ok h1]
            exact bind_eq_of_error h2
          | ok a2 u =>
            rw [h2] at htwo
            have hflags : flags / 2 ≠ 0 := by
              refine hstop.resolve_left fun hne => hne (errorOf_of_ok (t := u) (a := a2) ?_)
              rw [bind_eq_of_ok h1, h2]
            refine dependsOnArgs_of_refused (e := .einval)
              ((img_of_readOnly hst htwo).trans (img_of_readOnly hs hone)) fun b c => ?_
            rw [hrun, bind_eq_of_ok h1]
            dsimp only
            rw [bind_eq_of_ok h2]
            unfold filsysRenameIn
            rw [bind_eq_of_ok (show getFs u = .ok u.fs u from rfl), if_pos hflags]
            rfl

/-! ## Where the buffers decide -/

/-- A component no buffer of 64 bytes holds. -/
def longDir : Name := slash :: List.replicate 64 97

theorem pathInode_longDir (s : Mnt) : pathInode longDir s = .error .enametoolong s := by
  have hcomp : components (longDir.drop 1) [] = [List.replicate 64 97] := by decide
  have hwalk : pathLookup longDir s = .error .enametoolong s := by
    unfold pathLookup
    rw [bind_eq_of_ok (show getFs s = .ok s.fs s from rfl), if_pos (by decide), hcomp]
    rfl
  exact bind_eq_of_error hwalk

theorem pathInode_nil (s : Mnt) : pathInode [] s = .error .einval s := by
  apply bind_eq_of_error
  unfold pathLookup
  rw [bind_eq_of_ok (show getFs s = .ok s.fs s from rfl), if_neg (by decide)]
  rfl

/-- Where not even the directory part is stored, the old contents pick the error. -/
theorem not_dependsOnArgs_of_unset (hne : src ≠ dst) (hsrc : ∀ r, split s src ≠ .ok r) (hst : ¬ StoresDir src)
    {r : Name × Name} (hdst : split s dst = .ok r) : ¬ DependsOnArgs s src dst flags defer := by
  intro h
  cases he : split s src with
  | ok r => exact hsrc r he
  | error e =>
    have hrun := fun b c => (filsysRenameOver_unset hne he hst hdst :
      filsysRenameOver b c src dst flags defer s = _)
    have hsame := (h.1 ⟨[], []⟩ ⟨[], []⟩ ⟨longDir, []⟩ ⟨[], []⟩).1
    rw [errorOf_of_error ((hrun _ _).trans (bind_eq_of_error (pathInode_nil s))),
      errorOf_of_error ((hrun _ _).trans (bind_eq_of_error (pathInode_longDir s)))] at hsame
    cases hsame

/-- Where the directory part resolves, an old name that is the target's makes the call succeed. -/
theorem not_dependsOnArgs_of_stored (hs : Solo s) (hq : ∀ k, s.env.fails k = false)
    (hsrc : ∀ r, split s src ≠ .ok r)
    (hne : src ≠ dst) (hst : StoresDir src) (hres : errorOf (pathInode (dirOf src)) s = none) {tname : Name}
    (hdst : split s dst = .ok (dirOf src, tname)) : ¬ DependsOnArgs s src dst 0 defer := by
  intro h
  cases he : split s src with
  | ok r => exact hsrc r he
  | error e =>
    cases h1 : pathInode (dirOf src) s with
    | error e1 t => exact absurd hres (by rw [errorOf_of_error h1]; simp)
    | ok a t =>
      obtain ⟨-, u, -, h2⟩ := (pathInode_rereads (dirOf src)).again (recount_refl hs hq) h1
      have hrun : filsysRenameOver ⟨[], tname⟩ ⟨[], []⟩ src dst 0 defer s = _ :=
        filsysRenameOver_stored hne he hst hdst
      have hok : filsysRenameOver ⟨[], tname⟩ ⟨[], []⟩ src dst 0 defer s = .ok () u := by
        rw [hrun, bind_eq_of_ok h1]
        dsimp only
        rw [bind_eq_of_ok h2]
        unfold filsysRenameIn
        rw [bind_eq_of_ok (show getFs u = .ok u.fs u from rfl), if_neg (by decide), if_pos ⟨rfl, rfl⟩]
        rfl
      exact (h.2 hsrc ⟨[], tname⟩ ⟨[], []⟩).1 (errorOf_of_ok hok)

/-- The target whose directory is the source's. -/
theorem settled_of_dependsOnArgs (hs : Solo s) (hq : ∀ k, s.env.fails k = false) (hn : 0 < s.fs.desc.maxNamlen)
    (h : ∀ dst flags defer, src ≠ dst → DependsOnArgs s src dst flags defer) : Settled s src := by
  by_contra hno
  unfold Settled at hno
  rw [not_or, not_exists] at hno
  obtain ⟨hsrc, hno⟩ := hno
  have hneOf : ∀ {dst r}, split s dst = .ok r → src ≠ dst := fun hd heq => hsrc _ (heq ▸ hd)
  by_cases hst : StoresDir src
  · have hres : errorOf (pathInode (dirOf src)) s = none := by
      by_contra hne
      exact hno ⟨hst, hne⟩
    have hdir : dirOf src ≠ [] := by
      intro hnil
      unfold dirOf at hnil
      dsimp only at hnil
      split at hnil
      · have hmem : slash ∈ src := hst.1
        cases src with
        | nil => cases hmem
        | cons c cs => simp at hnil
      · exact absurd hnil ‹_›
    have hd : split s (dirOf src ++ slash :: [97]) = .ok (dirOf src, [97]) :=
      split_under hdir hst.2 (by decide) (by decide) hn
    exact not_dependsOnArgs_of_stored hs hq hsrc (hneOf hd) hst hres hd (h _ 0 false (hneOf hd))
  · have hd : split s ([slash] ++ slash :: [97]) = .ok ([slash], [97]) :=
      split_under (by decide) (by decide) (by decide) (by decide) hn
    exact not_dependsOnArgs_of_unset (hneOf hd) hsrc hst hd (h _ 0 false (hneOf hd))

/-- A rename to the path itself succeeds before either path is split. -/
theorem dependsOnArgs_self_iff : DependsOnArgs s src src flags defer ↔ ∃ r, split s src = .ok r := by
  refine ⟨fun h => ?_, dependsOnArgs_of_splits⟩
  by_contra hno
  rw [not_exists] at hno
  exact (h.2 hno ⟨[], []⟩ ⟨[], []⟩).1 (errorOf_of_ok filsysRenameOver_same)

theorem rename_depends_on_its_arguments_iff (s : Mnt) (hs : Solo s) (hn : 0 < s.fs.desc.maxNamlen)
    (src : Name) :
    (∀ dst flags defer, src ≠ dst → Guarded s src dst flags → DependsOnArgs s src dst flags defer) ∧
    ((∀ k, s.env.fails k = false) →
      ((∀ dst flags defer, src ≠ dst → DependsOnArgs s src dst flags defer) ↔ Settled s src)) ∧
    ∀ flags defer, DependsOnArgs s src src flags defer ↔ ∃ r, split s src = .ok r := by
  refine ⟨fun dst flags defer hne hg => dependsOnArgs_of_guarded hs hne hg, fun hq =>
    ⟨settled_of_dependsOnArgs hs hq hn, ?_⟩,
    fun flags defer => dependsOnArgs_self_iff⟩
  intro h dst flags defer hne
  rcases h with hsrc | ⟨hst, hres⟩
  · exact dependsOnArgs_of_splits hsrc
  · refine dependsOnArgs_of_guarded hs hne (.inr (.inr ⟨hst, .inl fun hok => hres ?_⟩))
    cases h1 : pathInode (dirOf src) s with
    | ok a t => exact errorOf_of_ok h1
    | error e t =>
      rw [errorOf_of_error (bind_eq_of_error h1)] at hok
      cases hok

/-- An empty V7 volume. -/
def emptyV7 : Mnt := Check.openedRw .v7 Check.smallImage 2560

/-- `/x/` has no last component and `/x` does not exist. -/
theorem a_missing_directory_settles_the_source : DependsOnArgs emptyV7 [47, 120, 47] [47, 98] 0 false :=
  ((rename_depends_on_its_arguments_iff emptyV7 (fun _ _ => rfl) (by decide +kernel) [47, 120, 47]).2.1
    fun _ => rfl).mpr
    (.inr ⟨by decide, by decide +kernel⟩) [47, 98] 0 false (by decide)

/-- From `/`, which names nothing, to `/b`: the name buffer still holds `b` or `c`. -/
theorem an_unset_name_renames :
    errorOf (filsysRenameOver ⟨[], [98]⟩ ⟨[], []⟩ [47] [47, 98] 0 false) emptyV7 = none ∧
    errorOf (filsysRenameOver ⟨[], [99]⟩ ⟨[], []⟩ [47] [47, 98] 0 false) emptyV7 = some .enoent ∧
    ¬ DependsOnArgs emptyV7 [47] [47, 98] 0 false := by
  have hb : errorOf (filsysRenameOver ⟨[], [98]⟩ ⟨[], []⟩ [47] [47, 98] 0 false) emptyV7 = none := by
    decide +kernel
  have hc : errorOf (filsysRenameOver ⟨[], [99]⟩ ⟨[], []⟩ [47] [47, 98] 0 false) emptyV7 = some .enoent := by
    decide +kernel
  refine ⟨hb, hc, fun h => ?_⟩
  have hsame := (h.1 ⟨[], [98]⟩ ⟨[], []⟩ ⟨[], [99]⟩ ⟨[], []⟩).1
  rw [hb, hc] at hsame
  cases hsame

end Filsys.Names
