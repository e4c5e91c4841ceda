/-
  Filsys.Lib.Links — directories as a graph of names.

  (1) `Links ι κ` says what each name in each directory stands for. `degree` counts the
      names a node has; rebinding one name moves it by at most one (`degree_put`).

  (2) `Rooted` is a hierarchy in which a directory names itself under `here` and its
      parent under `up`: every directory but the root has one proper name, in its parent,
      and the way up ends at the root. So no directory lies below itself
      (`Rooted.acyclic`) and each can be reached from the root (`Rooted.reached`).

  (3) The hierarchy survives a file that gets or loses a name, a new directory, an empty
      directory that goes, and a directory that moves to where the way up does not pass
      it (`rooted_leaf`, `rooted_grow`, `rooted_prune`, `rooted_move`).

  (4) `follow` walks a list of names. Each directory is at the end of exactly one way of
      proper names from the root (`Rooted.way`, `Rooted.way_unique`), and below a directory
      that can move lies neither where it comes from nor where it goes
      (`Rooted.below_avoids`).
-/

import Mathlib.Data.Set.Card
import Mathlib.Logic.Relation

namespace Filsys.Lib

/-- What each name in each directory stands for. -/
abbrev Links (ι κ : Type) := ι → κ → Option ι

namespace Links

variable {ι κ : Type}

section Wipe

variable [DecidableEq ι]

/-- `d` has no names in it. -/
def wipe (G : Links ι κ) (d : ι) : Links ι κ := fun x y => if x = d then none else G x y

@[simp] theorem wipe_same (G : Links ι κ) (d : ι) (k : κ) : G.wipe d d k = none := if_pos rfl

theorem wipe_ne (G : Links ι κ) {d x : ι} (k : κ) (h : x ≠ d) : G.wipe d x k = G x k := if_neg h

theorem wipe_eq_some {G : Links ι κ} {d x n : ι} {k : κ} : G.wipe d x k = some n ↔ x ≠ d ∧ G x k = some n := by
  unfold wipe
  by_cases h : x = d
  · simp [h]
  · simp [h]

theorem wipe_bare {G : Links ι κ} {d : ι} (h : ∀ k, G d k = none) : G.wipe d = G := by
  funext x y
  unfold wipe
  by_cases hx : x = d
  · rw [if_pos hx, hx, h]
  · rw [if_neg hx]

end Wipe

section Put

variable [DecidableEq ι] [DecidableEq κ]

/-- In `d` the name `k` stands for `r`. -/
def put (G : Links ι κ) (d : ι) (k : κ) (r : Option ι) : Links ι κ :=
  fun x y => if x = d ∧ y = k then r else G x y

@[simp] theorem put_same (G : Links ι κ) (d : ι) (k : κ) (r : Option ι) : G.put d k r d k = r :=
  if_pos ⟨rfl, rfl⟩

theorem put_dir (G : Links ι κ) {d x : ι} (k y : κ) (r : Option ι) (h : x ≠ d) :
    G.put d k r x y = G x y := if_neg fun he => h he.1

theorem put_name (G : Links ι κ) (d x : ι) {k y : κ} (r : Option ι) (h : y ≠ k) :
    G.put d k r x y = G x y := if_neg fun he => h he.2

/-- What a rebinding leaves is old or new. -/
theorem put_eq_some {G : Links ι κ} {d x n : ι} {k y : κ} {r : Option ι} :
    G.put d k r x y = some n ↔ (x = d ∧ y = k) ∧ r = some n ∨ ¬ (x = d ∧ y = k) ∧ G x y = some n := by
  unfold put
  by_cases h : x = d ∧ y = k
  · simp [h]
  · simp [h]

/-- The names of `d` after `n` has been bound to a free one. -/
theorem put_free {G : Links ι κ} {d n : ι} {k : κ} (hfree : G d k = none) {x m : ι} {y : κ} :
    G.put d k (some n) x y = some m ↔ (x = d ∧ y = k ∧ m = n) ∨ G x y = some m := by
  rw [put_eq_some]
  constructor
  · intro h
    rcases h with ⟨⟨hx, hy⟩, hm⟩ | ⟨-, hg⟩
    · exact .inl ⟨hx, hy, (Option.some.inj hm).symm⟩
    · exact .inr hg
  · intro h
    rcases h with ⟨hx, hy, rfl⟩ | hg
    · exact .inl ⟨⟨hx, hy⟩, rfl⟩
    · refine .inr ⟨?_, hg⟩
      rintro ⟨rfl, rfl⟩
      rw [hfree] at hg
      cases hg

theorem put_put (G : Links ι κ) (d : ι) (k : κ) (r r' : Option ι) :
    (G.put d k r).put d k r' = G.put d k r' := by
  funext x y
  unfold put
  by_cases h : x = d ∧ y = k
  · simp [h]
  · simp [h]

theorem put_self {G : Links ι κ} {d : ι} {k : κ} {r : Option ι} (h : G d k = r) : G.put d k r = G := by
  funext x y
  unfold put
  by_cases hxy : x = d ∧ y = k
  · rw [if_pos hxy, hxy.1, hxy.2, h]
  · rw [if_neg hxy]

theorem wipe_put (G : Links ι κ) {d e : ι} (k : κ) (r : Option ι) (h : d ≠ e) :
    (G.put d k r).wipe e = (G.wipe e).put d k r := by
  funext x y
  unfold put wipe
  by_cases hx : x = e
  · rw [if_pos hx, if_neg fun hd => h (hd.1.symm.trans hx), if_pos hx]
  · rw [if_neg hx, if_neg hx]

theorem wipe_put_same (G : Links ι κ) (d : ι) (k : κ) (r : Option ι) : (G.put d k r).wipe d = G.wipe d := by
  funext x y
  by_cases hx : x = d
  · rw [hx, wipe_same, wipe_same]
  · rw [wipe_ne _ _ hx, wipe_ne _ _ hx, put_dir _ _ _ _ hx]

end Put

/-! ## (1) Counting names -/

/-- The names of `n`, each with its directory. -/
def names (G : Links ι κ) (n : ι) : Set (ι × κ) := {p | G p.1 p.2 = some n}

noncomputable def degree (G : Links ι κ) (n : ι) : Nat := (G.names n).ncard

/-- There are finitely many names. -/
def Few (G : Links ι κ) : Prop := {p : ι × κ | G p.1 p.2 ≠ none}.Finite

section Count

variable [DecidableEq ι]

/-- One if `r` is `n`. -/
def hit (r : Option ι) (n : ι) : Nat := if r = some n then 1 else 0

@[simp] theorem hit_self (n : ι) : hit (some n) n = 1 := if_pos rfl

@[simp] theorem hit_none (n : ι) : hit none n = 0 := if_neg nofun

theorem hit_ne {m n : ι} (h : m ≠ n) : hit (some m) n = 0 := if_neg fun he => h (Option.some.inj he)

variable {G : Links ι κ} (hf : G.Few)

include hf

omit [DecidableEq ι] in
theorem Few.names (n : ι) : (G.names n).Finite := by
  apply Set.Finite.subset hf
  intro p hp h0
  rw [show G p.1 p.2 = some n from hp] at h0
  cases h0

omit [DecidableEq ι] in
theorem degree_pos {d n : ι} {k : κ} (h : G d k = some n) : 0 < G.degree n :=
  (Set.ncard_pos (hf.names n)).mpr ⟨(d, k), h⟩

omit [DecidableEq ι] in
theorem degree_eq_zero {n : ι} : G.degree n = 0 ↔ ∀ d k, G d k ≠ some n := by
  constructor
  · intro h0 d k h
    have := degree_pos hf h
    omega
  · intro h
    have hempty : G.names n = ∅ := Set.eq_empty_iff_forall_notMem.mpr fun p hp => h p.1 p.2 hp
    unfold degree
    rw [hempty, Set.ncard_empty]

theorem Few.wipe (d : ι) : (G.wipe d).Few := by
  apply Set.Finite.subset hf
  intro p hp h0
  apply hp
  show (if p.1 = d then none else G p.1 p.2) = none
  rw [h0, ite_self]

/-- A set of names with one of them left out. -/
theorem card_split (n : ι) (p : ι × κ) : (G.names n).ncard = (G.names n \ {p}).ncard + hit (G p.1 p.2) n := by
  by_cases hp : p ∈ G.names n
  · rw [show hit (G p.1 p.2) n = 1 from if_pos hp]
    exact (Set.ncard_sdiff_singleton_add_one hp (hf.names n)).symm
  · rw [show hit (G p.1 p.2) n = 0 from if_neg hp, Set.sdiff_singleton_eq_self hp, Nat.add_zero]

variable [DecidableEq κ]

theorem Few.put (d : ι) (k : κ) (r : Option ι) : (G.put d k r).Few := by
  apply Set.Finite.subset (hf.insert (d, k))
  intro p hp
  by_cases h : p.1 = d ∧ p.2 = k
  · exact .inl (Prod.ext h.1 h.2)
  · exact .inr fun h0 => hp ((if_neg h).trans h0)

/-- Rebinding a name takes one from what it stood for and adds one to what it stands for. -/
theorem degree_put (d : ι) (k : κ) (r : Option ι) (n : ι) :
    (G.put d k r).degree n + hit (G d k) n = G.degree n + hit r n := by
  have hsame : (G.put d k r).names n \ {(d, k)} = G.names n \ {(d, k)} := by
    ext p
    simp only [Set.mem_sdiff, Set.mem_singleton_iff]
    refine and_congr_left fun hp => ?_
    show G.put d k r p.1 p.2 = some n ↔ G p.1 p.2 = some n
    unfold Links.put
    rw [if_neg fun h => hp (Prod.ext h.1 h.2)]
  have h1 : (G.names n).ncard = (G.names n \ {(d, k)}).ncard + hit (G d k) n := card_split hf n (d, k)
  have h2 := card_split (hf.put d k r) n (d, k)
  rw [hsame, put_same] at h2
  unfold degree
  omega

/-- A directory with two names in it loses both. -/
theorem degree_wipe {d : ι} {k l : κ} (hkl : k ≠ l) (honly : ∀ y, y ≠ k → y ≠ l → G d y = none) (n : ι) :
    (G.wipe d).degree n + hit (G d k) n + hit (G d l) n = G.degree n := by
  have hw : G.wipe d = (G.put d k none).put d l none := by
    funext x y
    unfold Links.put Links.wipe
    by_cases hx : x = d
    · subst hx
      by_cases hl : y = l
      · simp [hl]
      · by_cases hk : y = k
        · simp [hk]
        · simp [hl, hk, honly y hk hl]
    · simp [hx]
  have h1 := degree_put hf d k none n
  have h2 := degree_put (hf.put d k none) d l none n
  rw [put_name _ _ _ _ (Ne.symm hkl)] at h2
  rw [hw]
  simp only [hit_none, Nat.add_zero] at h1 h2
  omega

end Count

/-! ## (2) Hierarchies -/

/-- From the directory to the root along `up`, on a way that keeps clear of `bar`. -/
inductive Climbs (G : Links ι κ) (up : κ) (root : ι) (bar : ι → Prop) : ι → Prop
  | top : Climbs G up root bar root
  | step {d p : ι} : ¬ bar d → G d up = some p → Climbs G up root bar p → Climbs G up root bar d

/-- A way is still one where `up` leads from its directories to where it led. -/
theorem Climbs.congr {G G' : Links ι κ} {up : κ} {root d : ι} {bar bar' : ι → Prop} (h : Climbs G up root bar d)
    (hG : ∀ x p, ¬ bar x → G x up = some p → G' x up = some p ∧ ¬ bar' x) : Climbs G' up root bar' d := by
  induction h with
  | top => exact .top
  | step hbar hup _ ih => exact .step (hG _ _ hbar hup).2 (hG _ _ hbar hup).1 ih

/-- A name that is neither of the two a directory has of its own. -/
def Proper (here up k : κ) : Prop := k ≠ here ∧ k ≠ up

/-- The hierarchy of the directories `dir` below `root`. -/
structure Rooted (G : Links ι κ) (dir : ι → Prop) (root : ι) (here up : κ) : Prop where
  top : dir root
  within : ∀ d k n, G d k = some n → dir d
  selves : ∀ d, dir d → G d here = some d
  rootUp : G root up = some root
  named : ∀ d, dir d → d ≠ root → ∃ p k, Proper here up k ∧ G p k = some d
  parent : ∀ d p k, dir d → Proper here up k → G p k = some d → G d up = some p ∧ d ≠ root
  once : ∀ d p k k', dir d → Proper here up k → Proper here up k' → G p k = some d → G p k' = some d → k = k'
  climbs : ∀ d, dir d → Climbs G up root (fun _ => False) d

namespace Rooted

variable {G : Links ι κ} {dir : ι → Prop} {root : ι} {here up : κ} (h : Rooted G dir root here up)

/-- `d` is a directory with a proper name in `p`. -/
def Child (G : Links ι κ) (dir : ι → Prop) (here up : κ) (p d : ι) : Prop :=
  dir d ∧ ∃ k, Proper here up k ∧ G p k = some d

include h

/-- `up` leads to a directory. -/
theorem up_dir {d : ι} (hd : dir d) : ∃ p, G d up = some p ∧ dir p := by
  by_cases hr : d = root
  · rw [hr]
    exact ⟨root, h.rootUp, h.top⟩
  · obtain ⟨p, k, hk, hp⟩ := h.named d hd hr
    exact ⟨p, (h.parent d p k hd hk hp).1, h.within p k d hp⟩

theorem up_eq {d p : ι} (hd : dir d) (hp : G d up = some p) : dir p := by
  obtain ⟨q, hq, hdir⟩ := h.up_dir hd
  rw [hp] at hq
  cases hq
  exact hdir

/-- The directory `up` leads to has a proper name for this one. -/
theorem child_of_up {d p : ι} (hd : dir d) (hr : d ≠ root) (hp : G d up = some p) :
    Child G dir here up p d := by
  obtain ⟨q, k, hk, hq⟩ := h.named d hd hr
  obtain rfl : q = p := Option.some.inj ((h.parent d q k hd hk hq).1.symm.trans hp)
  exact ⟨hd, k, hk, hq⟩

/-- No directory lies below itself. -/
theorem acyclic (d : ι) : ¬ Relation.TransGen (Child G dir here up) d d := by
  have hlast : ∀ {x y}, Relation.TransGen (Child G dir here up) x y → ∃ p,
    Relation.ReflTransGen (Child G dir here up) x p ∧ Child G dir here up p y :=
    fun hxy => Relation.TransGen.tail'_iff.mp hxy
  intro hc
  have hd : dir d := by
    obtain ⟨p, -, hp⟩ := hlast hc
    exact hp.1
  induction h.climbs d hd with
  | top =>
    obtain ⟨p, -, -, k, hk, hp⟩ := hlast hc
    exact (h.parent _ p k hd hk hp).2 rfl
  | @step d p _ hup _ ih =>
    obtain ⟨q, hq, hchild⟩ := hlast hc
    obtain ⟨-, k, hk, hqk⟩ := hchild
    obtain rfl : q = p := Option.some.inj ((h.parent d q k hd hk hqk).1.symm.trans hup)
    -- the round from `d` passes its parent, so there is one from there
    exact ih (.head' ⟨hd, k, hk, hqk⟩ hq) (h.within q k d hqk)

end Rooted

/-! ## (3) What keeps a hierarchy -/

section Keep

variable {G : Links ι κ} {dir : ι → Prop} {root : ι} {here up : κ} (h : Rooted G dir root here up)

/-- The same directories. -/
theorem Rooted.dirs {dir' : ι → Prop} (h : Rooted G dir root here up) (hd : ∀ x, dir' x ↔ dir x) :
    Rooted G dir' root here up := by
  obtain rfl : dir' = dir := funext fun x => propext (hd x)
  exact h

include h

variable [DecidableEq ι] [DecidableEq κ]

/-- A proper name that stands and stood for no directory. -/
theorem rooted_leaf {d : ι} (hd : dir d) {k : κ} (hk : Proper here up k) {r : Option ι}
    (hnew : ∀ m, r = some m → ¬ dir m)
    (hold : ∀ m, G d k = some m → ¬ dir m) : Rooted (G.put d k r) dir root here up := by
  have hcase : ∀ {x y n}, dir n → (G.put d k r x y = some n ↔ G x y = some n) := by
    intro x y n hn
    rw [put_eq_some]
    constructor
    · intro hrun
      rcases hrun with ⟨-, hr⟩ | ⟨-, hg⟩
      · exact absurd hn (hnew n hr)
      · exact hg
    · intro hg
      refine .inr ⟨?_, hg⟩
      rintro ⟨rfl, rfl⟩
      exact hold n hg hn
  have hup : ∀ x, G.put d k r x up = G x up := fun x => put_name _ _ _ _ (Ne.symm hk.2)
  refine ⟨h.top, fun x y n hx => ?_, fun x hx => (hcase hx).mpr (h.selves x hx),
    (hcase h.top).mpr h.rootUp, fun x hx hr => ?_, fun x p l hx hl hp => ?_,
    fun x p l l' hx hl hl' hp hp' => h.once x p l l' hx hl hl' ((hcase hx).mp hp) ((hcase hx).mp hp'),
    fun x hx => ?_⟩
  · rcases put_eq_some.mp hx with ⟨⟨rfl, -⟩, -⟩ | ⟨-, hg⟩
    · exact hd
    · exact h.within x y n hg
  · obtain ⟨p, l, hl, hp⟩ := h.named x hx hr
    exact ⟨p, l, hl, (hcase hx).mpr hp⟩
  · rw [hup]
    exact h.parent x p l hx hl ((hcase hx).mp hp)
  · exact (h.climbs x hx).congr fun y p hb hy => ⟨by rw [hup]; exact hy, hb⟩

/-- A new directory with its two own names and a name in its parent. -/
theorem rooted_grow (hne : here ≠ up) {d n : ι} (hd : dir d) (hn : ¬ dir n) {k : κ}
    (hk : Proper here up k) (hfree : G d k = none)
    (hnone : ∀ p l, G p l ≠ some n) :
    Rooted (((G.put n here (some n)).put n up (some d)).put d k (some n)) (fun x => dir x ∨
      x = n) root here up := by
  have hbare : ∀ l, G n l = none := fun l => Option.eq_none_iff_forall_ne_some.mpr
    fun m hm => hn (h.within n l m hm)
  have hnd : d ≠ n := fun he => hn (he ▸ hd)
  have hiff : ∀ {x m y}, ((G.put n here (some n)).put n up (some d)).put d k (some n) x y = some m ↔
      (x = d ∧ y = k ∧ m = n) ∨ (x = n ∧ y = up ∧ m = d) ∨ (x = n ∧ y = here ∧ m = n) ∨ G x y = some m := by
    intro x m y
    rw [put_free (by rw [put_dir _ _ _ _ hnd, put_dir _ _ _ _ hnd]; exact hfree),
      put_free (by rw [put_name _ _ _ _ (Ne.symm hne)]; exact hbare up),
      put_free (hbare here)]
  have hup : ∀ x, x ≠ n → (((G.put n here (some n)).put n up (some d)).put d k (some n)) x up = G x up := by
    intro x hx
    rw [put_name _ _ _ _ (Ne.symm hk.2), put_dir _ _ _ _ hx, put_dir _ _ _ _ hx]
  have hupn : (((G.put n here (some n)).put n up (some d)).put d k (some n)) n up = some d :=
    hiff.mpr (.inr (.inl ⟨rfl, rfl, rfl⟩))
  have hclimb : ∀ x, dir x →
    Climbs (((G.put n here (some n)).put n up (some d)).put d k (some n)) up root (fun _ => False) x := by
    intro x hx
    induction h.climbs x hx with
    | top => exact .top
    | @step x p hb hp _ ih =>
      refine .step hb ?_ (ih (h.up_eq hx hp))
      rw [hup x fun he => hn (he ▸ hx)]
      exact hp
  refine ⟨.inl h.top, fun x y m hx => ?_, fun x hx => ?_, ?_, fun x hx hr => ?_, fun x p l hx hl hp =>
    ?_, fun x p l l' hx hl hl' hp hp' => ?_,
    fun x hx => ?_⟩
  · rcases hiff.mp hx with ⟨rfl, -⟩ | ⟨rfl, -⟩ | ⟨rfl, -⟩ | hg
    · exact .inl hd
    · exact .inr rfl
    · exact .inr rfl
    · exact .inl (h.within x y m hg)
  · rcases hx with hx | rfl
    · exact hiff.mpr (.inr (.inr (.inr (h.selves x hx))))
    · exact hiff.mpr (.inr (.inr (.inl ⟨rfl, rfl, rfl⟩)))
  · exact hiff.mpr (.inr (.inr (.inr h.rootUp)))
  · rcases hx with hx | rfl
    · obtain ⟨p, l, hl, hp⟩ := h.named x hx hr
      exact ⟨p, l, hl, hiff.mpr (.inr (.inr (.inr hp)))⟩
    · exact ⟨d, k, hk, hiff.mpr (.inl ⟨rfl, rfl, rfl⟩)⟩
  · rcases hiff.mp hp with ⟨rfl, rfl, rfl⟩ | ⟨-, rfl, -⟩ | ⟨-, rfl, -⟩ | hg
    · exact ⟨hupn, fun he => hn (he ▸ h.top)⟩
    · exact absurd rfl hl.2
    · exact absurd rfl hl.1
    · have hxn : x ≠ n := by
        rintro rfl
        exact hnone p l hg
      rw [hup x hxn]
      exact h.parent x p l (hx.resolve_right hxn) hl hg
  · rcases hiff.mp hp with ⟨rfl, rfl, rfl⟩ | ⟨-, rfl, -⟩ | ⟨-, rfl, -⟩ | hg
    · rcases hiff.mp hp' with ⟨-, rfl, -⟩ | ⟨-, rfl, -⟩ | ⟨-, rfl, -⟩ | hg'
      · rfl
      · exact absurd rfl hl'.2
      · exact absurd rfl hl'.1
      · exact absurd hg' (hnone _ _)
    · exact absurd rfl hl.2
    · exact absurd rfl hl.1
    · have hxn : x ≠ n := by
        rintro rfl
        exact hnone p l hg
      rcases hiff.mp hp' with ⟨-, -, rfl⟩ | ⟨-, rfl, -⟩ | ⟨-, rfl, -⟩ | hg'
      · exact absurd rfl hxn
      · exact absurd rfl hl'.2
      · exact absurd rfl hl'.1
      · exact h.once x p l l' (hx.resolve_right hxn) hl hl' hg hg'
  · rcases hx with hx | rfl
    · exact hclimb x hx
    · exact .step id hupn (hclimb d hd)

/-- An empty directory goes, with its name. -/
theorem rooted_prune {n p : ι} {k : κ} (hn : dir n) (hk : Proper here up k) (hp : G p k = some n)
    (hempty : ∀ l, Proper here up l → G n l = none) :
    Rooted ((G.put p k none).wipe n) (fun x => dir x ∧ x ≠ n) root here up := by
  have hroot : n ≠ root := (h.parent n p k hn hk hp).2
  have hiff : ∀ {x m y}, (G.put p k none).wipe n x y = some m ↔ x ≠ n ∧ ¬ (x = p ∧ y = k) ∧ G x y = some m := by
    intro x m y
    rw [wipe_eq_some, put_eq_some]
    constructor
    · intro hrun
      rcases hrun with ⟨hx, ⟨-, hnone⟩ | hg⟩
      · cases hnone
      · exact ⟨hx, hg⟩
    · rintro ⟨hx, hg⟩
      exact ⟨hx, .inr hg⟩
  have hup : ∀ {x q}, x ≠ n → G x up = some q → (G.put p k none).wipe n x up = some q :=
    fun hx hq => hiff.mpr ⟨hx, fun he => hk.2 he.2.symm, hq⟩
  refine ⟨⟨h.top, Ne.symm hroot⟩, fun x y m hx => ?_, fun x hx =>
    hiff.mpr ⟨hx.2, fun he => hk.1 he.2.symm, h.selves x hx.1⟩,
    hup (Ne.symm hroot) h.rootUp, fun x hx hr => ?_, fun x q l hx hl hq => ?_,
    fun x q l l' hx hl hl' hq hq' => ?_, fun x hx => ?_⟩
  · obtain ⟨hx, -, hg⟩ := hiff.mp hx
    exact ⟨h.within x y m hg, hx⟩
  · obtain ⟨q, l, hl, hq⟩ := h.named x hx.1 hr
    refine ⟨q, l, hl, hiff.mpr ⟨?_, ?_, hq⟩⟩
    · rintro rfl
      rw [hempty l hl] at hq
      cases hq
    · rintro ⟨rfl, rfl⟩
      exact hx.2 (Option.some.inj (hq.symm.trans hp))
  · obtain ⟨-, -, hg⟩ := hiff.mp hq
    obtain ⟨h1, h2⟩ := h.parent x q l hx.1 hl hg
    exact ⟨hup hx.2 h1, h2⟩
  · exact h.once x q l l' hx.1 hl hl' (hiff.mp hq).2.2 (hiff.mp hq').2.2
  · obtain ⟨hd, hxn⟩ := hx
    induction h.climbs x hd with
    | top => exact .top
    | @step x q hb hq _ ih =>
      by_cases hxr : x = root
      · rw [hxr]
        exact .top
      · refine .step hb (hup hxn hq) (ih (h.up_eq hd hq) ?_)
        -- nothing has the empty directory for its parent
        rintro rfl
        obtain ⟨-, l, hl, hql⟩ := h.child_of_up hd hxr hq
        rw [hempty l hl] at hql
        cases hql

/-- A directory moves to a free name of a directory it does not lead to. -/
theorem rooted_move {s sd td : ι} {sk tk : κ} (hs : dir s) (hsk : Proper here up sk)
    (hsd : G sd sk = some s) (htd : dir td) (htk : Proper here up tk)
    (hfree : G td tk = none) (hclear : Climbs G up root (· = s) td) :
    Rooted (((G.put td tk (some s)).put sd sk none).put s up (some td)) dir root here up := by
  obtain ⟨hsup, hroot⟩ := h.parent s sd sk hs hsk hsd
  have hiff : ∀ {x m y}, ((G.put td tk (some s)).put sd sk none).put s up (some td) x y = some m ↔
      (x = s ∧ y = up ∧ m = td) ∨ (x = td ∧ y = tk ∧ m = s) ∨ ¬ (x = s ∧ y = up) ∧
      ¬ (x = sd ∧ y = sk) ∧ G x y = some m := by
    intro x m y
    have hapart : x = td ∧ y = tk → ¬ (x = sd ∧ y = sk) := by
      intro hrun hres
      obtain ⟨rfl, rfl⟩ := hrun
      obtain ⟨rfl, rfl⟩ := hres
      rw [hfree] at hsd
      cases hsd
    rw [put_eq_some, put_eq_some, put_free hfree]
    constructor
    · intro hrun
      rcases hrun with ⟨⟨hx, hy⟩, hm⟩ | ⟨hsu, ⟨-, hnone⟩ | ⟨hss, ⟨hx, hy, hm⟩ | hg⟩⟩
      · exact .inl ⟨hx, hy, (Option.some.inj hm).symm⟩
      · cases hnone
      · exact .inr (.inl ⟨hx, hy, hm⟩)
      · exact .inr (.inr ⟨hsu, hss, hg⟩)
    · intro hrun
      rcases hrun with ⟨hx, hy, rfl⟩ | ⟨hx, hy, rfl⟩ | ⟨hsu, hss, hg⟩
      · exact .inl ⟨⟨hx, hy⟩, rfl⟩
      · exact .inr ⟨fun he => htk.2 (hy ▸ he.2), .inr ⟨hapart ⟨hx, hy⟩, .inl ⟨hx, hy, rfl⟩⟩⟩
      · exact .inr ⟨hsu, .inr ⟨hss, .inr hg⟩⟩
  -- the moved directory had no other name
  have hsole : ∀ {p k}, Proper here up k → G p k = some s → p = sd ∧ k = sk := by
    intro p k hk hp
    obtain rfl : p = sd := Option.some.inj ((h.parent s p k hs hk hp).1.symm.trans hsup)
    exact ⟨rfl, h.once s p k sk hs hk hsk hp hsd⟩
  have hup : ∀ {x q}, x ≠ s → G x up = some q →
    ((G.put td tk (some s)).put sd sk none).put s up (some td) x up = some q :=
    fun hx hq => hiff.mpr (.inr (.inr ⟨fun he => hx he.1, fun he => hsk.2 he.2.symm, hq⟩))
  have hups : ((G.put td tk (some s)).put sd sk none).put s up (some td) s up = some td :=
    hiff.mpr (.inl ⟨rfl, rfl, rfl⟩)
  have htdc : Climbs (((G.put td tk (some s)).put sd sk none).put s up (some td)) up root (fun _ => False) td :=
    hclear.congr fun x q hx hq => ⟨hup hx hq, id⟩
  refine ⟨h.top, fun x y m hx => ?_, fun x hx => hiff.mpr (.inr (.inr ?_)),
    hup (Ne.symm hroot) h.rootUp, fun x hx hr => ?_, fun x p k hx hk hp => ?_,
    fun x p k k' hx hk hk' hp hp' => ?_, fun x hx => ?_⟩
  · rcases hiff.mp hx with ⟨rfl, -⟩ | ⟨rfl, -⟩ | ⟨-, -, hg⟩
    · exact hs
    · exact htd
    · exact h.within x y m hg
  · refine ⟨?_, fun he => hsk.1 he.2.symm, h.selves x hx⟩
    rintro ⟨rfl, rfl⟩
    -- `here` is not `up`: the root has both, and so has `s`, whose parent is another
    obtain rfl : x = sd := Option.some.inj ((h.selves x hx).symm.trans hsup)
    exact h.acyclic x (.single ⟨hx, sk, hsk, hsd⟩)
  · by_cases hxs : x = s
    · exact ⟨td, tk, htk, hiff.mpr (.inr (.inl ⟨rfl, rfl, hxs⟩))⟩
    · obtain ⟨p, k, hk, hp⟩ := h.named x hx hr
      refine ⟨p, k, hk, hiff.mpr (.inr (.inr ⟨fun he => hk.2 he.2, ?_, hp⟩))⟩
      rintro ⟨rfl, rfl⟩
      exact hxs (Option.some.inj (hp.symm.trans hsd))
  · rcases hiff.mp hp with ⟨-, rfl, -⟩ | ⟨rfl, rfl, rfl⟩ | ⟨-, hss, hg⟩
    · exact absurd rfl hk.2
    · exact ⟨hups, hroot⟩
    · obtain ⟨h1, h2⟩ := h.parent x p k hx hk hg
      refine ⟨hup ?_ h1, h2⟩
      rintro rfl
      exact hss (hsole hk hg)
  · rcases hiff.mp hp with ⟨-, rfl, -⟩ | ⟨-, rfl, rfl⟩ | ⟨-, hss, hg⟩
    · exact absurd rfl hk.2
    · rcases hiff.mp hp' with ⟨-, rfl, -⟩ | ⟨-, rfl, -⟩ | ⟨-, hss', hg'⟩
      · exact absurd rfl hk'.2
      · rfl
      · exact absurd (hsole hk' hg') hss'
    · rcases hiff.mp hp' with ⟨-, rfl, -⟩ | ⟨-, -, rfl⟩ | ⟨-, -, hg'⟩
      · exact absurd rfl hk'.2
      · exact absurd (hsole hk hg) hss
      · exact h.once x p k k' hx hk hk' hg hg'
  · induction h.climbs x hx with
    | top => exact .top
    | @step x q hb hq _ ih =>
      by_cases hxs : x = s
      · rw [hxs]
        exact .step id hups htdc
      · exact .step hb (hup hxs hq) (ih (h.up_eq hx hq))

end Keep

/-! ## (4) Ways -/

/-- The node the names lead to, one after the other. -/
def follow (G : Links ι κ) : ι → List κ → Option ι
  | d, [] => some d
  | d, k :: ks => (G d k).bind fun n => follow G n ks

@[simp] theorem follow_nil (G : Links ι κ) (d : ι) : G.follow d [] = some d := rfl

@[simp] theorem follow_cons (G : Links ι κ) (d : ι) (k : κ) (ks : List κ) :
    G.follow d (k :: ks) = (G d k).bind fun n => G.follow n ks := rfl

theorem follow_append (G : Links ι κ) (d : ι) (ks ls : List κ) :
    G.follow d (ks ++ ls) = (G.follow d ks).bind fun n => G.follow n ls := by
  induction ks generalizing d with
  | nil => rfl
  | cons k ks ih =>
    rw [List.cons_append, follow_cons, follow_cons]
    cases G d k with
    | none => rfl
    | some n => exact ih n

theorem follow_concat {G : Links ι κ} {d n : ι} {ks : List κ} {k : κ} :
    G.follow d (ks ++ [k]) = some n ↔ ∃ p, G.follow d ks = some p ∧ G p k = some n := by
  rw [follow_append, Option.bind_eq_some_iff]
  simp

/-- Two graphs that agree on the names a way uses. -/
theorem follow_congr {G G' : Links ι κ} {d : ι} {ks : List κ}
    (h : ∀ pre k post, ks = pre ++ k :: post → ∀ x, G.follow d pre = some x → G' x k = G x k) :
    G'.follow d ks = G.follow d ks := by
  induction ks generalizing d with
  | nil => rfl
  | cons k ks ih =>
    rw [follow_cons, follow_cons, h [] k ks rfl d rfl]
    cases hn : G d k with
    | none => rfl
    | some n =>
      refine ih fun pre l post he x hx => h (k :: pre) l post (by rw [he]; rfl) x ?_
      rw [follow_cons, hn]
      exact hx

namespace Rooted

variable {G : Links ι κ} {dir : ι → Prop} {root : ι} {here up : κ} (h : Rooted G dir root here up)

include h

/-- Every directory is at the end of a way of proper names from the root. -/
theorem way {d : ι} (hd : dir d) : ∃ ks, (∀ k ∈ ks, Proper here up k) ∧ G.follow root ks = some d := by
  induction h.climbs d hd with
  | top => exact ⟨[], nofun, rfl⟩
  | @step d p _ hup _ ih =>
    by_cases hr : d = root
    · rw [hr]
      exact ⟨[], nofun, rfl⟩
    · obtain ⟨ks, hks, hp⟩ := ih (h.up_eq hd hup)
      obtain ⟨-, k, hk, hpk⟩ := h.child_of_up hd hr hup
      refine ⟨ks ++ [k], fun l hl => ?_, follow_concat.mpr ⟨p, hp, hpk⟩⟩
      rcases List.mem_append.mp hl with hl | hl
      · exact hks l hl
      · rw [List.mem_singleton.mp hl]
        exact hk

/-- And of one only. -/
theorem way_unique {d : ι} (hd : dir d) {ks ls : List κ} (hks : ∀ k ∈ ks, Proper here up k)
    (hls : ∀ k ∈ ls, Proper here up k)
    (hk : G.follow root ks = some d) (hl : G.follow root ls = some d) : ks = ls := by
  have hroot : ∀ {ls k}, (∀ l ∈ ls ++ [k], Proper here up l) → G.follow root (ls ++ [k]) ≠ some root := by
    intro ls k hls he
    obtain ⟨p, -, hp⟩ := follow_concat.mp he
    exact (h.parent root p k h.top (hls k (by simp)) hp).2 rfl
  induction ks using List.reverseRecOn generalizing d ls with
  | nil =>
    obtain rfl : root = d := Option.some.inj hk
    cases ls using List.reverseRecOn with
    | nil => rfl
    | append_singleton ls l => exact absurd hl (hroot hls)
  | append_singleton ks k ih =>
    cases ls using List.reverseRecOn with
    | nil =>
      obtain rfl : root = d := Option.some.inj hl
      exact absurd hk (hroot hks)
    | append_singleton ls l =>
      obtain ⟨p, hp, hpk⟩ := follow_concat.mp hk
      obtain ⟨q, hq, hql⟩ := follow_concat.mp hl
      have hkp : Proper here up k := hks k (by simp)
      have hlp : Proper here up l := hls l (by simp)
      -- both ways come to it from the parent `up` leads to
      obtain rfl : p = q := Option.some.inj ((h.parent d p k hd hkp hpk).1.symm.trans
        (h.parent d q l hd hlp hql).1)
      obtain rfl : k = l := h.once d p k l hd hkp hlp hpk hql
      rw [ih (h.within p k d hpk) (fun x hx => hks x (by simp [hx])) (fun x hx => hls x (by simp [hx])) hp hq]

/-- A way down from a directory of proper names leads to what lies below it. -/
theorem below {d x : ι} {ks : List κ} (hks : ∀ k ∈ ks, Proper here up k) (hx : G.follow d ks = some x)
    (hdx : dir x) :
    Relation.ReflTransGen (Child G dir here up) d x := by
  induction ks using List.reverseRecOn generalizing x with
  | nil =>
    obtain rfl : d = x := Option.some.inj hx
    exact .refl
  | append_singleton ks k ih =>
    obtain ⟨p, hp, hpk⟩ := follow_concat.mp hx
    exact (ih (fun l hl => hks l (by simp [hl])) hp (h.within p k x hpk)).tail ⟨hdx, k, hks k (by simp), hpk⟩

/-- Below a directory the way up does not avoid it. -/
theorem not_climbs {s x : ι} (hs : dir s) (hsr : s ≠ root)
    (hx : Relation.ReflTransGen (Child G dir here up) s x) : ¬ Climbs G up root (· = s) x := by
  induction hx with
  | refl =>
    intro hc
    cases hc with
    | top => exact hsr rfl
    | step hbar => exact hbar rfl
  | @tail x y hsx hxy ih =>
    intro hc
    obtain ⟨hy, k, hk, hxk⟩ := hxy
    obtain ⟨hup, hyr⟩ := h.parent y x k hy hk hxk
    cases hc with
    | top => exact hyr rfl
    | step _ hp hc =>
      obtain rfl := Option.some.inj (hup.symm.trans hp)
      exact ih hc

/-- Below a directory lies neither the one it is in nor one whose way up avoids it. -/
theorem below_avoids {s sd td : ι} {sk : κ} (hs : dir s) (hsk : Proper here up sk)
    (hsd : G sd sk = some s) (htd : dir td)
    (hclear : Climbs G up root (· = s) td) {ks : List κ} (hks : ∀ k ∈ ks, Proper here up k) {x : ι}
    (hx : G.follow s ks = some x) : x ≠ sd ∧ x ≠ td := by
  have hroot : s ≠ root := (h.parent s sd sk hs hsk hsd).2
  constructor
  · rintro rfl
    exact h.acyclic x (.head' ⟨hs, sk, hsk, hsd⟩ (h.below hks hx (h.within x sk s hsd)))
  · rintro rfl
    exact h.not_climbs hs hroot (h.below hks hx htd) hclear

end Rooted

end Links

end Filsys.Lib
