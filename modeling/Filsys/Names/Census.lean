/-
  Filsys.Names.Census — what a name space is (filsys.c).

  A census lists the live inodes with their kind and link count and says what every name
  in every directory stands for. The calls of the engine come down to five changes of it:
  a name is entered or taken out, a link count is set, an inode is born or gone.

  `Consistent` is the invariant: the directories are a hierarchy, every name stands for a
  live inode and every link count is the number of names. The lemmas say what keeps it:
  a file with a first or another name, a name less, a file or an empty directory that
  goes, a new directory, a directory that moves. `debt` is by how much a link count
  differs from the number of names; every change moves it by a known amount, so a sequence
  of changes keeps the counts exactly if what it moves cancels.
-/

import Filsys.Lib.Links
import Filsys.Names.Finite
import Filsys.Names.World

namespace Filsys.Names

open Filsys.Lib Filsys.Engine

/-- The live inodes and their names. -/
@[ext] structure Census where
  /-- Is the live inode a directory? -/
  kind : Nat → Option Bool
  /-- Its link count, and 0 where there is no live inode. -/
  nlink : Nat → Int
  links : Links Nat Name

namespace Census

/-! ## Changes -/

def enter (c : Census) (d : Nat) (name : Name) (n : Nat) : Census :=
  { c with links := c.links.put d name (some n) }

def leave (c : Census) (d : Nat) (name : Name) : Census := { c with links := c.links.put d name none }

def relink (c : Census) (n : Nat) (k : Int) : Census :=
  { c with nlink := fun x => if x = n then k else c.nlink x }

def born (c : Census) (n : Nat) (dir : Bool) (k : Int) : Census :=
  { c with
    kind := fun x => if x = n then some dir else c.kind x
    nlink := fun x => if x = n then k else c.nlink x }

def gone (c : Census) (n : Nat) : Census :=
  ⟨fun x => if x = n then none else c.kind x, fun x => if x = n then 0 else c.nlink x, c.links.wipe n⟩

@[simp] theorem enter_kind (c : Census) (d : Nat) (name : Name) (n : Nat) :
    (c.enter d name n).kind = c.kind := rfl
@[simp] theorem enter_nlink (c : Census) (d : Nat) (name : Name) (n : Nat) :
    (c.enter d name n).nlink = c.nlink := rfl
@[simp] theorem enter_links (c : Census) (d : Nat) (name : Name) (n : Nat) :
    (c.enter d name n).links = c.links.put d name (some n) := rfl
@[simp] theorem leave_kind (c : Census) (d : Nat) (name : Name) : (c.leave d name).kind = c.kind := rfl
@[simp] theorem leave_nlink (c : Census) (d : Nat) (name : Name) : (c.leave d name).nlink = c.nlink := rfl
@[simp] theorem leave_links (c : Census) (d : Nat) (name : Name) :
    (c.leave d name).links = c.links.put d name none := rfl
@[simp] theorem relink_kind (c : Census) (n : Nat) (k : Int) : (c.relink n k).kind = c.kind := rfl
@[simp] theorem relink_nlink (c : Census) (n x : Nat) (k : Int) :
    (c.relink n k).nlink x = if x = n then k else c.nlink x := rfl
@[simp] theorem relink_links (c : Census) (n : Nat) (k : Int) : (c.relink n k).links = c.links := rfl
@[simp] theorem born_kind (c : Census) (n x : Nat) (dir : Bool) (k : Int) :
    (c.born n dir k).kind x = if x = n then some dir else c.kind x := rfl
@[simp] theorem born_nlink (c : Census) (n x : Nat) (dir : Bool) (k : Int) :
    (c.born n dir k).nlink x = if x = n then k else c.nlink x := rfl
@[simp] theorem born_links (c : Census) (n : Nat) (dir : Bool) (k : Int) :
    (c.born n dir k).links = c.links := rfl
@[simp] theorem gone_kind (c : Census) (n x : Nat) : (c.gone n).kind x = if x = n then none else c.kind x := rfl
@[simp] theorem gone_nlink (c : Census) (n x : Nat) : (c.gone n).nlink x = if x = n then 0 else c.nlink x := rfl
@[simp] theorem gone_links (c : Census) (n : Nat) : (c.gone n).links = c.links.wipe n := rfl

theorem relink_same {c : Census} {n : Nat} {k : Int} (h : c.nlink n = k) : c.relink n k = c := by
  apply Census.ext
  · rfl
  · funext x
    rw [relink_nlink]
    split
    · rename_i hx
      rw [hx, h]
    · rfl
  · rfl

theorem relink_relink (c : Census) (n : Nat) (k k' : Int) : (c.relink n k).relink n k' = c.relink n k' := by
  apply Census.ext
  · rfl
  · funext x
    simp only [relink_nlink]
    split <;> rfl
  · rfl

/-- With a directory go the names in it. -/
theorem gone_enter (c : Census) (n m : Nat) (name : Name) : (c.enter n name m).gone n = c.gone n := by
  apply Census.ext
  · rfl
  · rfl
  · rw [gone_links, enter_links, Links.wipe_put_same, gone_links]

/-- An inode that has come and gone. -/
theorem gone_born {c : Census} {n : Nat} {dir : Bool} {k : Int} (hk : c.kind n = none)
    (h0 : c.nlink n = 0) (hn : ∀ name, c.links n name = none) :
    (c.born n dir k).gone n = c := by
  apply Census.ext
  · funext x
    rw [gone_kind, born_kind]
    split
    · rename_i hx
      rw [hx, hk]
    · rfl
  · funext x
    rw [gone_nlink, born_nlink]
    split
    · rename_i hx
      rw [hx, h0]
    · rfl
  · rw [gone_links, born_links, Links.wipe_bare hn]

/-! ## The invariant -/

/-- The link counts are the numbers of names, and the directories a hierarchy below `root`. -/
structure Consistent (c : Census) (root : Nat) : Prop where
  few : c.links.Few
  live : ∀ d name n, c.links d name = some n → c.kind n ≠ none
  tree : Links.Rooted c.links (fun n => c.kind n = some true) root dot dotdot
  count : ∀ n, c.kind n ≠ none → c.nlink n = c.links.degree n

/-- A name that is not one of the two every directory has. -/
abbrev ProperName (name : Name) : Prop := Links.Proper dot dotdot name

/-- By how much the link count of `n` is more than its names. -/
noncomputable def debt (c : Census) (n : Nat) : Int := c.nlink n - c.links.degree n

section Debt

variable {c : Census} (hf : c.links.Few)

include hf

theorem debt_enter {d : Nat} {name : Name} (h : c.links d name = none) (m n : Nat) :
    (c.enter d name m).debt n = c.debt n - Links.hit (some m) n := by
  have := Links.degree_put hf d name (some m) n
  rw [h, Links.hit_none, Nat.add_zero] at this
  unfold debt
  rw [enter_links, enter_nlink]
  omega

theorem debt_leave {d m : Nat} {name : Name} (h : c.links d name = some m) (n : Nat) :
    (c.leave d name).debt n = c.debt n + Links.hit (some m) n := by
  have := Links.degree_put hf d name none n
  rw [h, Links.hit_none, Nat.add_zero] at this
  unfold debt
  rw [leave_links, leave_nlink]
  omega

omit hf in
theorem debt_relink (n m : Nat) (k : Int) : (c.relink m k).debt n = c.debt n + if n =
    m then k - c.nlink m else 0 := by
  unfold debt
  rw [relink_links, relink_nlink]
  split
  · rename_i h
    subst h
    omega
  · omega

omit hf in
theorem debt_born (n m : Nat) (dir : Bool) (k : Int) : (c.born m dir k).debt n = c.debt n + if n =
    m then k - c.nlink m else 0 := by
  unfold debt
  rw [born_links, born_nlink]
  split
  · rename_i h
    subst h
    omega
  · omega

/-- Where a directory with nothing but its own two names goes, another inode loses those of them that
    were its own. -/
theorem debt_gone {m : Nat} (hempty : ∀ name, ProperName name → c.links m name = none) {n : Nat} (hn : n ≠ m) :
    (c.gone m).debt n = c.debt n + Links.hit (c.links m dot) n + Links.hit (c.links m dotdot) n := by
  have := Links.degree_wipe hf (show dot ≠ dotdot by decide) (fun y h1 h2 => hempty y ⟨h1, h2⟩) n
  unfold debt
  rw [gone_links, gone_nlink, if_neg hn]
  omega

end Debt

namespace Consistent

variable {c : Census} {root : Nat} (h : Consistent c root)

include h

theorem debt_eq {n : Nat} (hn : c.kind n ≠ none) : c.debt n = 0 := by
  unfold debt
  rw [h.count n hn]
  omega

/-- Nothing stands for a dead inode. -/
theorem unnamed {n : Nat} (hn : c.kind n = none) (d : Nat) (name : Name) : c.links d name ≠ some n :=
  fun he => h.live d name n he hn

/-- A dead inode has no names in it. -/
theorem bare {n : Nat} (hn : c.kind n ≠ some true) (name : Name) : c.links n name = none := by
  refine Option.eq_none_iff_forall_ne_some.mpr fun m hm => hn ?_
  exact h.tree.within n name m hm

theorem nlink_nonneg {n : Nat} (hn : c.kind n ≠ none) : 0 ≤ c.nlink n := by
  rw [h.count n hn]
  omega

theorem nlink_pos {d n : Nat} {name : Name} (hd : c.links d name = some n) : 1 ≤ c.nlink n := by
  have := Links.degree_pos h.few hd
  rw [h.count n (h.live d name n hd)]
  omega

/-- What is counted has a name. -/
theorem named {n : Nat} (hn : c.kind n ≠ none) (h0 : c.nlink n ≠ 0) : ∃ d name, c.links d name = some n := by
  by_contra hno
  push Not at hno
  apply h0
  rw [h.count n hn, (Links.degree_eq_zero h.few).mpr hno]
  rfl

end Consistent

/-! ## What keeps it -/

/-- The empty directory `n`, which `name` in `p` stands for, goes. -/
def prune (c : Census) (p : Nat) (name : Name) (n : Nat) : Census :=
  ((c.leave p name).relink p (c.nlink p - 1)).gone n

/-- A new directory `n` under `name` in `d`. -/
def grow (c : Census) (d : Nat) (name : Name) (n : Nat) : Census :=
  ((((c.born n true 2).enter n dot n).enter n dotdot d).enter d name n).relink d (c.nlink d + 1)

/-- The parent's count for `..` passes from `sd` to `td`. -/
def shift (c : Census) (sd td : Nat) : Census :=
  if sd = td then c else (c.relink sd (c.nlink sd - 1)).relink td (c.nlink td + 1)

/-- The directory `s` moves from `sd` to `td`. -/
def move (c : Census) (sd : Nat) (sname : Name) (td : Nat) (tname : Name) (s : Nat) : Census :=
  ((((c.enter td tname s).leave sd sname).shift sd td).leave s dotdot).enter s dotdot td

section Keep

variable {c : Census} {root : Nat} (h : Consistent c root)

include h

/-- A new file and its name. -/
theorem consistent_born {d n : Nat} {name : Name} (hd : c.kind d = some true) (hn : c.kind n = none)
    (h0 : c.nlink n = 0) (hname : ProperName name)
    (hfree : c.links d name = none) : Consistent ((c.born n false 1).enter d name n) root := by
  have hdir : ∀ x, (c.born n false 1).kind x = some true ↔ c.kind x = some true := by
    intro x
    rw [born_kind]
    split
    · rename_i hx
      rw [hx, hn]
      simp
    · rfl
  refine ⟨h.few.put .., fun x y m hx => ?_,
    (Links.rooted_leaf h.tree hd hname (r := some n) ?_ ?_).dirs hdir, fun x hx => ?_⟩
  · rw [enter_kind, born_kind]
    split
    · simp
    · rename_i hm
      rcases Links.put_eq_some.mp hx with ⟨-, he⟩ | ⟨-, hg⟩
      · exact absurd (Option.some.inj he).symm hm
      · exact h.live x y m hg
  · rintro m he
    cases he
    rw [hn]
    exact nofun
  · intro m hm
    rw [hfree] at hm
    cases hm
  · have hdebt := debt_enter (c := c.born n false 1) h.few hfree n x
    rw [debt_born, h0] at hdebt
    by_cases hxn : x = n
    · subst hxn
      have hzero : c.links.degree x = 0 := (Links.degree_eq_zero h.few).mpr (h.unnamed hn)
      unfold debt at hdebt
      simp only [if_true, Links.hit_self, h0, hzero] at hdebt
      omega
    · rw [enter_kind, born_kind, if_neg hxn] at hx
      rw [h.debt_eq hx, if_neg hxn, Links.hit_ne fun he => hxn he.symm] at hdebt
      unfold debt at hdebt
      omega

/-- One more name of a file. -/
theorem consistent_linked {d n : Nat} {name : Name} (hd : c.kind d = some true)
    (hn : c.kind n = some false) (hname : ProperName name)
    (hfree : c.links d name = none) : Consistent ((c.enter d name n).relink n (c.nlink n + 1)) root := by
  refine ⟨h.few.put .., fun x y m hx => ?_, Links.rooted_leaf h.tree hd hname (r := some n) ?_ ?_,
    fun x hx => ?_⟩
  · rcases Links.put_eq_some.mp hx with ⟨-, he⟩ | ⟨-, hg⟩
    · cases he
      exact fun h0 => Option.some_ne_none false (hn.symm.trans h0)
    · exact h.live x y m hg
  · rintro m he
    cases he
    rw [hn]
    exact nofun
  · intro m hm
    rw [hfree] at hm
    cases hm
  · have hdebt := debt_relink (c := c.enter d name n) x n (c.nlink n + 1)
    rw [debt_enter h.few hfree, h.debt_eq hx, enter_nlink] at hdebt
    by_cases hxn : x = n
    · subst hxn
      rw [if_pos rfl, Links.hit_self] at hdebt
      unfold debt at hdebt
      omega
    · rw [if_neg hxn, Links.hit_ne fun he => hxn he.symm] at hdebt
      unfold debt at hdebt
      omega

/-- A name less of a file. -/
theorem consistent_unlinked {d n : Nat} {name : Name} (hn : c.kind n = some false)
    (hname : ProperName name) (hd : c.links d name = some n) :
    Consistent ((c.leave d name).relink n (c.nlink n - 1)) root := by
  refine ⟨h.few.put .., fun x y m hx => ?_, Links.rooted_leaf h.tree (h.tree.within d name n hd) hname
    (r := none) nofun ?_, fun x hx => ?_⟩
  · rcases Links.put_eq_some.mp hx with ⟨-, he⟩ | ⟨-, hg⟩
    · cases he
    · exact h.live x y m hg
  · intro m hm
    rw [hd] at hm
    cases hm
    rw [hn]
    exact nofun
  · have hdebt := debt_relink (c := c.leave d name) x n (c.nlink n - 1)
    rw [debt_leave h.few hd, h.debt_eq hx, leave_nlink] at hdebt
    by_cases hxn : x = n
    · subst hxn
      rw [if_pos rfl, Links.hit_self] at hdebt
      unfold debt at hdebt
      omega
    · rw [if_neg hxn, Links.hit_ne fun he => hxn he.symm] at hdebt
      unfold debt at hdebt
      omega

/-- A file without a name goes. -/
theorem consistent_gone {n : Nat} (hn : c.kind n = some false) (h0 : c.nlink n = 0) :
    Consistent (c.gone n) root := by
  have hsome : c.kind n ≠ none := by
    rw [hn]
    exact nofun
  have hbare : c.links.wipe n = c.links := Links.wipe_bare (h.bare (by rw [hn]; exact nofun))
  have hzero : c.links.degree n = 0 := by
    have := h.count n hsome
    omega
  have hdir : ∀ x, (c.gone n).kind x = some true ↔ c.kind x = some true := by
    intro x
    rw [gone_kind]
    split
    · rename_i hx
      rw [hx, hn]
      simp
    · rfl
  refine ⟨by rw [gone_links, hbare]; exact h.few, fun x y m hx => ?_, ?_, fun x hx => ?_⟩
  · rw [gone_links, hbare] at hx
    rw [gone_kind]
    split
    · rename_i hm
      exact absurd hx (hm ▸ (Links.degree_eq_zero h.few).mp hzero x y)
    · exact h.live x y m hx
  · rw [gone_links, hbare]
    exact h.tree.dirs hdir
  · rw [gone_kind] at hx
    rw [gone_links, hbare, gone_nlink]
    split at hx
    · exact absurd rfl hx
    · rename_i hxn
      rw [if_neg hxn]
      exact h.count x hx

/-- A new directory. -/
theorem consistent_grown {d n : Nat} {name : Name} (hd : c.kind d = some true) (hn : c.kind n = none)
    (h0 : c.nlink n = 0) (hname : ProperName name)
    (hfree : c.links d name = none) : Consistent (c.grow d name n) root := by
  have hdn : d ≠ n := by
    rintro rfl
    rw [hd] at hn
    cases hn
  have hnd : ¬ c.kind n = some true := by
    rw [hn]
    exact nofun
  have hbare : ∀ l, c.links n l = none := h.bare hnd
  have hdir : ∀ x, (c.grow d name n).kind x = some true ↔ c.kind x = some true ∨ x = n := by
    intro x
    show (if x = n then some true else c.kind x) = some true ↔ _
    split
    · rename_i hx
      simp [hx]
    · rename_i hx
      simp [hx]
  have hf1 : (c.born n true 2).links.Few := h.few
  have hf2 : ((c.born n true 2).enter n dot n).links.Few := h.few.put ..
  have hf3 : (((c.born n true 2).enter n dot n).enter n dotdot d).links.Few := (h.few.put ..).put ..
  refine ⟨((h.few.put ..).put ..).put .., fun x y m hx => ?_,
    (Links.rooted_grow h.tree (by decide) hd hnd hname hfree (h.unnamed hn)).dirs hdir,
    fun x hx => ?_⟩
  · show (if m = n then some true else c.kind m) ≠ none
    split
    · exact nofun
    · rename_i hm
      rcases Links.put_eq_some.mp hx with ⟨-, he⟩ | ⟨-, hx⟩
      · exact absurd (Option.some.inj he).symm hm
      rcases Links.put_eq_some.mp hx with ⟨-, he⟩ | ⟨-, hx⟩
      · cases he
        rw [hd]
        exact nofun
      rcases Links.put_eq_some.mp hx with ⟨-, he⟩ | ⟨-, hx⟩
      · exact absurd (Option.some.inj he).symm hm
      · exact h.live x y m hx
  · have h1 := debt_enter (c := c.born n true 2) hf1 (hbare dot) n x
    have hup : ((c.born n true 2).enter n dot n).links n dotdot = none := by
      rw [enter_links, Links.put_name _ _ _ _ (by decide)]
      exact hbare dotdot
    have hnew : (((c.born n true 2).enter n dot n).enter n dotdot d).links d name = none := by
      rw [enter_links, enter_links, Links.put_dir _ _ _ _ hdn, Links.put_dir _ _ _ _ hdn]
      exact hfree
    have h2 := debt_enter hf2 hup d x
    have h3 := debt_enter hf3 hnew n x
    have h4 := debt_relink (c := (((c.born n true 2).enter n dot n).enter n dotdot d).enter d name n) x
      d (c.nlink d + 1)
    have hold : ((((c.born n true 2).enter n dot n).enter n dotdot d).enter d name n).nlink d =
      c.nlink d := if_neg hdn
    rw [h3, h2, h1, debt_born, h0, hold] at h4
    suffices h5 : (c.grow d name n).debt x = 0 by
      unfold debt at h5
      omega
    apply h4.trans
    by_cases hxn : x = n
    · subst hxn
      have hzero : c.links.degree x = 0 := (Links.degree_eq_zero h.few).mpr (h.unnamed hn)
      have hdebt : c.debt x = 0 := by
        unfold debt
        omega
      rw [hdebt, if_pos rfl, if_neg (Ne.symm hdn), Links.hit_self, Links.hit_ne hdn]
      omega
    · have hxk : c.kind x ≠ none := by
        have : (if x = n then some true else c.kind x) ≠ none := hx
        rwa [if_neg hxn] at this
      rw [h.debt_eq hxk, if_neg hxn, Links.hit_ne fun he => hxn he.symm]
      by_cases hxd : x = d
      · rw [if_pos hxd, hxd, Links.hit_self]
        omega
      · rw [if_neg hxd, Links.hit_ne fun he => hxd he.symm]
        omega

/-- A directory nothing but its own names is in has two names. -/
theorem empty_nlink {p n : Nat} {name : Name} (hn : c.kind n = some true) (hname : ProperName name)
    (hp : c.links p name = some n)
    (hempty : ∀ l, ProperName l → c.links n l = none) : c.nlink n = 2 := by
  have hset : c.links.names n = {(n, dot), (p, name)} := by
    ext ⟨x, y⟩
    constructor
    · intro hxy
      have hxy : c.links x y = some n := hxy
      by_cases hdot : y = dot
      · rw [hdot] at hxy
        have := h.tree.selves x (h.tree.within x dot n hxy)
        rw [hxy] at this
        obtain rfl : n = x := Option.some.inj this
        exact .inl (Prod.ext rfl hdot)
      by_cases hup : y = dotdot
      · -- a child of the directory would have a name in it
        rw [hup] at hxy
        have hx := h.tree.within x dotdot n hxy
        by_cases hroot : x = root
        · rw [hroot, h.tree.rootUp] at hxy
          exact absurd (Option.some.inj hxy).symm (h.tree.parent n p name hn hname hp).2
        · obtain ⟨-, l, hl, hnl⟩ := h.tree.child_of_up hx hroot hxy
          rw [hempty l hl] at hnl
          cases hnl
      · have hy : ProperName y := ⟨hdot, hup⟩
        obtain rfl : x = p := Option.some.inj ((h.tree.parent n x y hn hy hxy).1.symm.trans
          (h.tree.parent n p name hn hname hp).1)
        obtain rfl : y = name := h.tree.once n x y name hn hy hname hxy hp
        exact .inr rfl
    · intro hr
      rcases hr with hxy | hxy
      · cases hxy
        exact h.tree.selves n hn
      · cases hxy
        exact hp
  have hcard : c.links.degree n = 2 := by
    unfold Links.degree
    rw [hset]
    refine Set.ncard_pair fun he => hname.1 ?_
    exact (congrArg Prod.snd he).symm
  rw [h.count n (by rw [hn]; exact nofun), hcard]
  rfl

/-- An empty directory goes. -/
theorem consistent_pruned {p n : Nat} {name : Name} (hn : c.kind n = some true)
    (hname : ProperName name) (hp : c.links p name = some n)
    (hempty : ∀ l, ProperName l → c.links n l = none) : Consistent (c.prune p name n) root := by
  obtain ⟨hup, hroot⟩ := h.tree.parent n p name hn hname hp
  have hself := h.tree.selves n hn
  have hpn : p ≠ n := by
    rintro rfl
    rw [hempty name hname] at hp
    cases hp
  have hdir : ∀ x, (c.prune p name n).kind x = some true ↔ c.kind x = some true ∧ x ≠ n := by
    intro x
    show (if x = n then none else c.kind x) = some true ↔ _
    split
    · rename_i hx
      simp [hx]
    · rename_i hx
      simp [hx]
  have hfl : ((c.leave p name).relink p (c.nlink p - 1)).links.Few := h.few.put ..
  refine ⟨(h.few.put ..).wipe n, fun x y m hx => ?_,
    (Links.rooted_prune h.tree hn hname hp hempty).dirs hdir, fun x hx => ?_⟩
  · obtain ⟨hxn, hx⟩ := Links.wipe_eq_some.mp hx
    rcases Links.put_eq_some.mp hx with ⟨-, he⟩ | ⟨hnot, hg⟩
    · cases he
    · show (if m = n then none else c.kind m) ≠ none
      split
      · -- the other names of `n` were its own
        rename_i hm
        rw [hm] at hg
        exfalso
        by_cases hdot : y = dot
        · rw [hdot] at hg
          rw [h.tree.selves x (h.tree.within x dot n hg)] at hg
          exact hxn (Option.some.inj hg)
        by_cases hyup : y = dotdot
        · rw [hyup] at hg
          have hxd := h.tree.within x dotdot n hg
          by_cases hxr : x = root
          · rw [hxr, h.tree.rootUp] at hg
            exact hroot (Option.some.inj hg).symm
          · obtain ⟨-, l, hl, hnl⟩ := h.tree.child_of_up hxd hxr hg
            rw [hempty l hl] at hnl
            cases hnl
        · have hy : ProperName y := ⟨hdot, hyup⟩
          obtain rfl : x = p := Option.some.inj ((h.tree.parent n x y hn hy hg).1.symm.trans hup)
          exact hnot ⟨rfl, h.tree.once n x y name hn hy hname hg hp⟩
      · exact h.live x y m hg
  · have hxn : x ≠ n := by
      rintro rfl
      exact hx (if_pos rfl)
    have hxk : c.kind x ≠ none := by
      have : (if x = n then none else c.kind x) ≠ none := hx
      rwa [if_neg hxn] at this
    have hd1 := debt_gone hfl (m := n) (fun l hl => by
      rw [relink_links, leave_links, Links.put_dir _ _ _ _ (Ne.symm hpn)]
      exact hempty l hl) hxn
    rw [debt_relink, debt_leave h.few hp, h.debt_eq hxk, Links.hit_ne (Ne.symm hxn), relink_links,
      leave_links, leave_nlink,
      Links.put_dir _ _ _ _ (Ne.symm hpn), Links.put_dir _ _ _ _ (Ne.symm hpn), hself, hup,
      Links.hit_ne (Ne.symm hxn)] at hd1
    suffices hd2 : (c.prune p name n).debt x = 0 by
      unfold debt at hd2
      omega
    apply hd1.trans
    by_cases hxp : x = p
    · rw [if_pos hxp, hxp, Links.hit_self]
      omega
    · rw [if_neg hxp, Links.hit_ne fun he => hxp he.symm]
      omega

/-- A directory moves. -/
theorem consistent_moved {s sd td : Nat} {sname tname : Name} (hs : c.kind s = some true)
    (hsname : ProperName sname) (hsd : c.links sd sname = some s)
    (htd : c.kind td = some true) (htname : ProperName tname) (hfree : c.links td tname = none)
    (hclear : Links.Climbs c.links dotdot root (· = s) td) : Consistent (c.move sd sname td tname s) root := by
  obtain ⟨hup, -⟩ := h.tree.parent s sd sname hs hsname hsd
  have hlinks : (c.move sd sname td tname s).links =
    ((c.links.put td tname (some s)).put sd sname none).put s dotdot (some td) := by
    show (((((c.enter td tname s).leave sd sname).shift sd td).leave s dotdot).links.put s dotdot (some td)) = _
    rw [leave_links, Links.put_put]
    unfold shift
    split <;> rfl
  have hkind : (c.move sd sname td tname s).kind = c.kind := by
    show (((c.enter td tname s).leave sd sname).shift sd td).kind = _
    unfold shift
    split <;> rfl
  have hnlink : ∀ x, (c.move sd sname td tname s).nlink x = c.nlink x - Links.hit (some sd) x +
    Links.hit (some td) x := by
    intro x
    show (((c.enter td tname s).leave sd sname).shift sd td).nlink x = _
    unfold shift
    by_cases hsame : sd = td
    · rw [if_pos hsame, hsame]
      show c.nlink x = _
      omega
    · rw [if_neg hsame]
      show (if x = td then c.nlink td + 1 else if x = sd then c.nlink sd - 1 else c.nlink x) = _
      by_cases hxt : x = td
      · rw [if_pos hxt, hxt, Links.hit_ne hsame, Links.hit_self]
        omega
      · rw [if_neg hxt, Links.hit_ne fun he => hxt he.symm]
        by_cases hxs : x = sd
        · rw [if_pos hxs, hxs, Links.hit_self]
          omega
        · rw [if_neg hxs, Links.hit_ne fun he => hxs he.symm]
          omega
  have hsdt : ¬ (sd = td ∧ sname = tname) := by
    rintro ⟨rfl, rfl⟩
    rw [hfree] at hsd
    cases hsd
  have hf1 := h.few.put td tname (some s)
  have hf2 := hf1.put sd sname none
  refine ⟨?_, fun x y m hx => ?_, ?_, fun x hx => ?_⟩
  · rw [hlinks]
    exact hf2.put ..
  · rw [hlinks] at hx
    rw [hkind]
    rcases Links.put_eq_some.mp hx with ⟨-, he⟩ | ⟨-, hx⟩
    · cases he
      rw [htd]
      exact Option.some_ne_none _
    rcases Links.put_eq_some.mp hx with ⟨-, he⟩ | ⟨-, hx⟩
    · cases he
    rcases Links.put_eq_some.mp hx with ⟨-, he⟩ | ⟨-, hx⟩
    · cases he
      rw [hs]
      exact Option.some_ne_none _
    · exact h.live x y m hx
  · rw [hlinks, hkind]
    exact Links.rooted_move h.tree hs hsname hsd htd htname hfree hclear
  · have h1 := Links.degree_put h.few td tname (some s) x
    have h2 := Links.degree_put hf1 sd sname none x
    have h3 := Links.degree_put hf2 s dotdot (some td) x
    have hold1 : c.links.put td tname (some s) sd sname = some s := by
      unfold Links.put
      rw [if_neg hsdt]
      exact hsd
    have hold2 : (c.links.put td tname (some s)).put sd sname none s dotdot = some sd := by
      rw [Links.put_name _ _ _ _ (Ne.symm hsname.2), Links.put_name _ _ _ _ (Ne.symm htname.2)]
      exact hup
    rw [hfree] at h1
    rw [hold1] at h2
    rw [hold2] at h3
    rw [hkind] at hx
    rw [hnlink, hlinks, h.count x hx]
    simp only [Links.hit_none, Nat.add_zero] at h1 h2
    omega

end Keep

end Census

end Filsys.Names
