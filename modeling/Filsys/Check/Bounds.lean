/-
  Filsys.Check.Bounds — the array accesses of the free-space scans.

  `fl->free` holds as many entries as the edition caches, and a scan works on a copy of
  its own. `v7_walk_free` and `v7_count_free` fill a copy of 946 entries with one
  `memcpy`, which reads past every smaller cache; from there on they look at each count
  they read. `v6_count_free` copies what there is and takes each count as it comes
  (`free_list_scans_in_bounds_iff`). The bitmap walk is given a usage map of the data
  band and follows a bit map of the whole volume (`bitmap_walk_in_bounds_iff`).
-/

import Filsys.Alloc.Offers
import Filsys.Check.Walkers

namespace Filsys.Check

open Filsys.Lib Filsys.Engine Filsys.Alloc Filsys.Mount

/-! ## Where a scan may go -/

/-- An access inside a cache of `cap` entries and a copy of `len`. -/
def Access.Inside (cap len : Nat) : Access → Prop
  | .free i => i < cap
  | .copy i => i < len
  | .bmap _ => True
  | .listed _ => True

/-- Every access of a scan is inside. -/
def InArrays (cap len : Nat) (log : List Access) : Prop := ∀ a ∈ log, Access.Inside cap len a

theorem inside_copies {cap len n : Nat} (h : n ≤ len) : ∀ a ∈ (List.range n).map Access.copy,
    Access.Inside cap len a := by
  intro a ha
  obtain ⟨i, hi, rfl⟩ := List.mem_map.mp ha
  exact Nat.lt_of_lt_of_le (List.mem_range.mp hi) h

theorem inside_copied {cap len : Nat} (h : len ≤ cap) : ∀ a ∈ copied len, Access.Inside cap len a := by
  intro a ha
  rcases List.mem_append.mp ha with ha | ha
  · obtain ⟨i, hi, rfl⟩ := List.mem_map.mp ha
    exact Nat.lt_of_lt_of_le (List.mem_range.mp hi) h
  · exact inside_copies (Nat.le_refl len) a ha

/-- The copy reads as many entries as it holds. -/
theorem le_cap_of_copied {cap len : Nat} (h : ∀ a ∈ copied len, Access.Inside cap len a) : len ≤ cap := by
  cases len with
  | zero => exact Nat.zero_le _
  | succ n =>
    exact h (.free n) (List.mem_append_left
      _ (List.mem_map.mpr ⟨n, List.mem_range.mpr (Nat.lt_succ_self n), rfl⟩))

/-! ## The counters -/

theorem post_countFs {α : Type} {f : Fs → MN α} {s : Mnt × List Access} {Q : α → Mnt × List Access → Prop}
    {E : Errno → Mnt × List Access → Prop} (h : Post (f s.1.fs s) Q E) :
    Post ((unwatched getFs >>= f) s) Q E := h

theorem countChainSeen_longer (strict : Bool) (guard n : Nat) (cur : Nat → Nat) (blocks : Nat) :
    Keeps Longer (countChainSeen strict guard n cur blocks) := by
  induction guard generalizing n cur blocks with
  | zero => exact keeps_pure longer_law
  | succ guard ih =>
    refine keeps_bind longer_law (unwatched_longer _) fun fs => keeps_ite (keeps_pure longer_law) ?_
    refine keeps_bind longer_law (note_longer _) fun _ => keeps_ite (keeps_pure longer_law)
      (keeps_ite ?_ (ih _ _ _))
    refine keeps_bind longer_law (unwatched_longer _) fun r => ?_
    cases r with
    | error e => exact keeps_pure longer_law
    | ok blk =>
      exact keeps_ite (keeps_pure longer_law) (keeps_bind longer_law (noteAll_longer _) fun _ => ih _ _ _)

/-- The counter's list from the cache `c` goes on, after `k` entries, in a chain block that reads as `blk`. -/
inductive GoesOn : Mnt → Cache → Nat → Buf → Prop
  | bottom {s t : Mnt} {f : Nat → Nat} {blk : Buf} :
  f 0 ≠ 0 → v7fsReadBlock (f 0) s = .ok blk t → GoesOn s (1, f) 0 blk
  | entry {s : Mnt} {n k : Nat} {f : Nat → Nat} {blk : Buf} :
    f (n + 1) ≠ 0 → GoesOn s (n + 1, f) k blk → GoesOn s (n + 2, f) (k + 1) blk
  | next {s t : Mnt} {k : Nat} {f : Nat → Nat} {blk blk' : Buf} : f 0 ≠ 0 → v7fsReadBlock (f 0) s = .ok blk t →
      GoesOn t (num (dfNfreeSig s.fs.desc) blk 0, countedFree false s.fs.desc blk) k blk' →
        GoesOn s (1, f) (k + 1) blk'

/-- Within the first `guard` entries no chain block has a count beyond `len`. -/
def CountsFit (len guard : Nat) (s : Mnt) (c : Cache) : Prop :=
  ∀ k blk, GoesOn s c k blk → k + 1 < guard → num (dfNfreeSig s.fs.desc) blk 0 ≤ len

theorem countChainSeen_inside {cap len : Nat} (strict : Bool) (guard n : Nat) (cur : Nat → Nat)
    (blocks : Nat) (s : Mnt) (l : List Access)
    (hcap : s.fs.desc.nicfree ≤ len) (hn : 0 < guard → n ≤ len) (hfit : strict = false →
      CountsFit len guard s (n, cur)) :
    Post (countChainSeen strict guard n cur blocks (s, l)) (fun _ t => Gains (Access.Inside cap len) (s, l) t)
      fun _ t => Gains (Access.Inside cap len) (s, l) t := by
  induction guard generalizing n cur blocks s l with
  | zero => exact Gains.refl _
  | succ guard ih =>
    refine post_countFs (post_ite (fun _ => Gains.refl _) fun h0 => post_note ?_)
    obtain ⟨m, rfl⟩ : ∃ m, n = m + 1 := ⟨n - 1, by omega⟩
    have hnote : Gains (Access.Inside cap len) (s, l) (s, .copy m :: l) :=
      (Gains.refl _).cons (show m < len by have := hn (Nat.succ_pos _); omega)
    refine post_ite (fun _ => hnote) fun hne => post_ite (fun hm => ?_) fun hm => ?_
    · obtain rfl : m = 0 := hm
      refine post_bind (post_unwatched (post_attempt ?_))
      have hfs := v7fsReadBlock_fs (cur 0) s
      show Post (v7fsReadBlock (cur 0) s) _ _
      cases hread : v7fsReadBlock (cur 0) s with
      | error e t => exact hnote
      | ok blk t =>
        rw [hread] at hfs
        have ht : t.fs = s.fs := hfs
        have hgains : Gains (Access.Inside cap len) (s, l) (t, .copy 0 :: l) := hnote
        refine post_ite (fun _ => hgains) fun hle => post_noteAll ?_
        have hgains' := hgains.append (@inside_copies cap _ _ hcap)
        refine (ih _ _ _ t _ (ht ▸ hcap) ?_ ?_).mono (fun _ _ h => hgains'.trans h) fun _ _ h => hgains'.trans h
        · intro hg
          cases strict with
          | true => exact Nat.le_trans (Nat.le_of_not_lt fun h => hle ⟨rfl, h⟩) hcap
          | false => exact hfit rfl 0 blk (.bottom hne hread) (by omega)
        · intro hs k blk' hgo hk
          subst hs
          rw [ht]
          exact hfit rfl (k + 1) blk' (.next hne hread hgo) (by omega)
    · obtain ⟨j, rfl⟩ : ∃ j, m = j + 1 := ⟨m - 1, by omega⟩
      refine (ih _ _ _ s _ hcap ?_ ?_).mono (fun _ _ h => hnote.trans h) fun _ _ h => hnote.trans h
      · intro _
        have := hn (Nat.succ_pos _)
        omega
      · intro hs k blk' hgo hk
        exact hfit hs (k + 1) blk' (.entry hne hgo) (by omega)

/-- A counter with entries left uses the last one's index. -/
theorem countChainSeen_top (strict : Bool) {guard n : Nat} (hg : 0 < guard) (hn : n ≠ 0)
    (cur : Nat → Nat) (blocks : Nat) (s : Mnt × List Access) :
    Post (countChainSeen strict guard n cur blocks s) (fun _ t => .copy (n - 1) ∈ t.2) fun _ t =>
    .copy (n - 1) ∈ t.2 := by
  obtain ⟨g, rfl⟩ : ∃ g, guard = g + 1 := ⟨guard - 1, by omega⟩
  refine post_countFs (post_ite (fun h => absurd h hn) fun _ => post_note ?_)
  refine post_ite (fun _ => List.mem_cons_self) fun hne => post_ite (fun _ => ?_) fun _ => ?_
  · refine post_bind ((unwatched_longer _ (s.1, _)).mono (fun r t ht => ?_)
      fun e t ht => ht _ List.mem_cons_self)
    cases r with
    | error e => exact ht _ List.mem_cons_self
    | ok blk =>
      refine post_ite (fun _ => ht _ List.mem_cons_self) fun _ => post_noteAll ?_
      refine (countChainSeen_longer strict g _ _ _ _).mono ?_ ?_
      · intro _ u hu
        exact hu _ (List.mem_append_right _ (ht _ List.mem_cons_self))
      · intro _ u hu
        exact hu _ (List.mem_append_right _ (ht _ List.mem_cons_self))
  · exact (countChainSeen_longer strict g _ _ _ _).mono (fun _ u hu => hu _ List.mem_cons_self)
      fun _ u hu => hu _ List.mem_cons_self

/-- V6's counter takes the count of every chain block within its guard as it is. -/
theorem countChainSeen_takes {s : Mnt} {c : Cache} {k : Nat} {blk : Buf} (h : GoesOn s c k blk)
    {guard : Nat} (hk : k + 1 < guard)
    (h0 : num (dfNfreeSig s.fs.desc) blk 0 ≠ 0) (blocks : Nat) (l : List Access) :
    Post (countChainSeen false guard c.1 c.2 blocks (s, l))
    (fun _ t => .copy (num (dfNfreeSig s.fs.desc) blk 0 - 1) ∈ t.2)
      fun _ t => .copy (num (dfNfreeSig s.fs.desc) blk 0 - 1) ∈ t.2 := by
  induction h generalizing guard blocks l with
  | @bottom s t f blk hne hread =>
    obtain ⟨g, rfl⟩ : ∃ g, guard = g + 1 := ⟨guard - 1, by omega⟩
    have hfs := v7fsReadBlock_fs (f 0) s
    rw [hread] at hfs
    have ht : t.fs = s.fs := hfs
    refine post_countFs (post_ite (fun h => absurd h Nat.one_ne_zero) fun _ =>
      post_note (post_ite (fun h => absurd h hne) fun _ => ?_))
    refine post_ite (fun _ => ?_) fun h => absurd rfl h
    refine post_bind (post_unwatched (post_attempt ?_))
    show Post (v7fsReadBlock (f 0) s) _ _
    rw [hread]
    exact post_ite (fun h => absurd h.1 (by decide)) fun _ =>
      post_noteAll (countChainSeen_top false (by omega) h0 _ _ _)
  | @entry s n k f blk hne hgo ih =>
    obtain ⟨g, rfl⟩ : ∃ g, guard = g + 1 := ⟨guard - 1, by omega⟩
    refine post_countFs (post_ite (fun h => absurd h (Nat.succ_ne_zero _)) fun _ =>
      post_note (post_ite (fun h => absurd h hne) fun _ => ?_))
    exact post_ite (fun h => absurd h (Nat.succ_ne_zero _)) fun _ => ih (by omega) h0 _ _
  | @next s t k f blk blk' hne hread hgo ih =>
    obtain ⟨g, rfl⟩ : ∃ g, guard = g + 1 := ⟨guard - 1, by omega⟩
    have hfs := v7fsReadBlock_fs (f 0) s
    rw [hread] at hfs
    have ht : t.fs = s.fs := hfs
    refine post_countFs (post_ite (fun h => absurd h Nat.one_ne_zero) fun _ =>
      post_note (post_ite (fun h => absurd h hne) fun _ => ?_))
    refine post_ite (fun _ => ?_) fun h => absurd rfl h
    refine post_bind (post_unwatched (post_attempt ?_))
    show Post (v7fsReadBlock (f 0) s) _ _
    rw [hread]
    rw [← ht] at h0 ih ⊢
    exact post_ite (fun h => absurd h.1 (by decide)) fun _ => post_noteAll (ih (show k + 1 < g by omega) h0 _ _)

/-! ## The check's walk -/

theorem walkFreeListSeen_longer (fuel n : Nat) (cur : Nat → Nat) (seen : List Nat) (guard : Nat) :
    Keeps Longer (walkFreeListSeen fuel n cur seen guard) := by
  induction fuel generalizing n cur seen guard with
  | zero => exact keeps_throw longer_law
  | succ fuel ih =>
    refine keeps_bind longer_law (unwatched_longer _) fun fs => keeps_ite (keeps_pure longer_law) ?_
    refine keeps_bind longer_law (note_longer _) fun _ => keeps_ite (keeps_pure longer_law)
      (keeps_ite (unwatched_longer _) ?_)
    refine keeps_ite (unwatched_longer _) (keeps_bind longer_law (note_longer _) fun _ => ?_)
    refine keeps_bind longer_law (keeps_bind longer_law (unwatched_longer _) fun _ =>
      keeps_bind longer_law (note_longer _) fun _ => unwatched_longer _) fun _ => ?_
    refine keeps_ite (unwatched_longer _) (keeps_ite ?_ (ih _ _ _ _))
    refine keeps_bind longer_law (unwatched_longer _) fun r => ?_
    cases r with
    | error e => exact unwatched_longer _
    | ok blk =>
      exact keeps_ite (unwatched_longer _) (keeps_bind longer_law (noteAll_longer _) fun _ => ih _ _ _ _)

theorem markFreeSeen_told (b : Nat) (s : (Mnt × Chk) × List Access) : Post (markFreeSeen b s)
    (fun _ t => t.1.1.fs = s.1.1.fs ∧ t.2 = .bmap ((b - v7DataFirst s.1.1.fs) / 8) :: s.2) fun _ _ =>
    False := by
  refine post_seenFs (post_note (post_unwatched (post_engFs (post_getChk (post_ite ?_ ?_)))))
  · intro _
    exact ⟨rfl, rfl⟩
  · intro _
    exact ⟨rfl, rfl⟩

/-- The check's walk looks at a count before it takes it. -/
theorem walkFreeListSeen_inside {cap len : Nat} (fuel n : Nat) (cur : Nat → Nat) (seen : List Nat) (guard : Nat)
    (s : (Mnt × Chk) × List Access) (hcap : s.1.1.fs.desc.nicfree ≤ len) (hn : n ≤ len) :
    Post (walkFreeListSeen fuel n cur seen guard s) (fun _ t => Gains (Access.Inside cap len) s t)
      fun _ t => Gains (Access.Inside cap len) s t := by
  induction fuel generalizing n cur seen guard s with
  | zero => exact Gains.refl _
  | succ fuel ih =>
    refine post_seenFs (post_ite (fun _ => Gains.refl _) fun h0 => post_note ?_)
    have hnote : Gains (Access.Inside cap len) s (s.1, .copy (n - 1) :: s.2) :=
      (Gains.refl _).cons (show n - 1 < len by omega)
    refine post_ite (fun _ => hnote) fun _ => ?_
    refine post_ite (fun _ => hnote) fun _ => ?_
    refine post_ite (fun _ => hnote) fun _ => ?_
    apply post_note
    have hlisted := hnote.cons (show Access.Inside cap len (.listed (cur (n - 1))) from trivial)
    refine post_bind ((markFreeSeen_told (cur (n - 1)) _).mono ?_ fun _ _ h => h.elim)
    intro _ r hr
    obtain ⟨⟨u, c⟩, l⟩ := r
    obtain ⟨hu, rfl⟩ := hr
    have hu' : u.fs = s.1.1.fs := hu
    have hmark : Gains (Access.Inside cap len) s ((u, c), _) :=
      hlisted.cons (show Access.Inside cap len
      (.bmap ((cur (n - 1) - v7DataFirst s.1.1.fs) / 8)) from trivial)
    refine post_ite (fun _ => hmark) fun _ => post_ite (fun _ => ?_) fun _ => ?_
    · refine post_bind (post_unwatched
        (post_outside (post_attempt ((v7fsReadBlock_fs (cur (n - 1)) u).mono ?_ fun _ _ _ => hmark))))
      intro blk t ht
      have ht' : t.fs = s.1.1.fs := ht.trans hu'
      refine post_ite (fun _ => hmark) fun hle => post_noteAll ?_
      have hcopy : Gains (Access.Inside cap len) s ((t, c), _) :=
        Gains.append (s := (t, c)) hmark (inside_copies hcap)
      refine (ih _ _ _ _ _ (show t.fs.desc.nicfree ≤ len by rw [ht']; exact hcap)
        (Nat.le_trans (Nat.le_of_not_lt hle) hcap)).mono
        (fun _ _ h => hcopy.trans h) fun _ _ h => hcopy.trans h
    · exact (ih _ _ _ _ _ (show u.fs.desc.nicfree ≤ len by rw [hu']; exact hcap) (by omega)).mono
        (fun _ _ h => hmark.trans h) fun _ _ h => hmark.trans h

/-! ## What the editions cache -/

/-- No edition caches more than the longest copy holds, and V6 caches 100 blocks. -/
structure CacheSizes (d : Desc) : Prop where
  le : d.nicfree ≤ v8NicfreeLarge
  v6 : d.isizeCount = true → d.nicfree = v6Nicfree

theorem cacheSizes_getformat (ed : Edition) : CacheSizes (filsysGetformat ed) := by
  cases ed <;> exact ⟨by decide, by decide⟩

section Scans

variable {s : Mnt} (hd : CacheSizes s.fs.desc) (hle : s.fs.nfree ≤ s.fs.desc.nicfree)

include hd hle

/-- `v7_count_free` stays inside exactly where the cache holds as many entries as the copy. -/
theorem countFreeSeen_v7 : InArrays s.fs.desc.nicfree v8NicfreeLarge (logOf (countFreeSeen true) s) ↔
    v8NicfreeLarge ≤ s.fs.desc.nicfree := by
  constructor
  · intro h
    refine le_cap_of_copied fun a (ha : a ∈ copied v8NicfreeLarge) => h a ?_
    refine Post.final (P := fun t : Mnt × List Access => a ∈ t.2) (post_countFs (post_noteAll ?_))
    have hlog := countChainSeen_longer true ((s.fs.fsize + s.fs.desc.nicfree) % 2 ^ 32 + 1) s.fs.nfree
      s.fs.free 0 (s, copied v8NicfreeLarge ++ [])
    exact hlog.mono (fun _ t ht => ht a (List.mem_append_left _ ha)) fun _ t ht =>
      ht a (List.mem_append_left _ ha)
  · intro h
    have hgains : Gains (Access.Inside s.fs.desc.nicfree v8NicfreeLarge) (s, [])
      (final (countFreeSeen true) (s, [])) := by
      refine Post.final (P := fun t => Gains (Access.Inside s.fs.desc.nicfree v8NicfreeLarge) (s, []) t)
        (post_countFs (post_noteAll ?_))
      have hcopy := (Gains.refl (P := Access.Inside s.fs.desc.nicfree v8NicfreeLarge) (s, [])).append
        (inside_copied h)
      exact (countChainSeen_inside true _ _ _ _ s _ hd.le (fun _ => Nat.le_trans hle hd.le) fun h =>
        absurd h (by decide)).mono
        (fun _ _ h => hcopy.trans h) fun _ _ h => hcopy.trans h
    exact hgains.all

/-- `v6_count_free` stays inside exactly where no chain block it goes on from has a count beyond its copy. -/
theorem countFreeSeen_v6 (h6 : s.fs.desc.isizeCount = true) :
    InArrays s.fs.desc.nicfree v6Nicfree (logOf (countFreeSeen false) s) ↔
    CountsFit v6Nicfree (entryLimit s.fs + 1) s (s.fs.nfree, s.fs.free) := by
  have hcap := hd.v6 h6
  constructor
  · intro h k blk hgo hk
    by_contra hgt
    have hin : Access.copy (num (dfNfreeSig s.fs.desc) blk 0 - 1) ∈ logOf (countFreeSeen false) s := by
      refine Post.final (P := fun t : Mnt × List Access =>
        Access.copy (num (dfNfreeSig s.fs.desc) blk 0 - 1) ∈ t.2) (post_countFs (post_noteAll ?_))
      exact countChainSeen_takes hgo hk (by omega) 0 _
    have : num (dfNfreeSig s.fs.desc) blk 0 - 1 < v6Nicfree := h _ hin
    omega
  · intro h
    have hgains : Gains (Access.Inside s.fs.desc.nicfree v6Nicfree) (s, [])
      (final (countFreeSeen false) (s, [])) := by
      refine Post.final (P := fun t => Gains (Access.Inside s.fs.desc.nicfree v6Nicfree) (s, []) t)
        (post_countFs (post_noteAll ?_))
      have hcopy := (Gains.refl (P := Access.Inside s.fs.desc.nicfree v6Nicfree) (s, [])).append
        (inside_copied (Nat.le_of_eq hcap.symm))
      exact (countChainSeen_inside false _ _ _ _ s _ (Nat.le_of_eq hcap) (fun _ => hcap ▸ hle) fun _ => h).mono
        (fun _ _ h => hcopy.trans h) fun _ _ h => hcopy.trans h
    exact hgains.all

/-- `v7_walk_free` as well. -/
theorem v7WalkFreeSeen_inside (c : Chk) :
    InArrays s.fs.desc.nicfree v8NicfreeLarge (logOf v7WalkFreeSeen (s, c)) ↔
    v8NicfreeLarge ≤ s.fs.desc.nicfree := by
  constructor
  · intro h
    refine le_cap_of_copied fun a (ha : a ∈ copied v8NicfreeLarge) => h a ?_
    refine Post.final (P := fun t : (Mnt × Chk) × List Access => a ∈ t.2) (post_seenFs (post_noteAll ?_))
    have hlog := walkFreeListSeen_longer (s.fs.fsize + s.fs.desc.nicfree + 2) s.fs.nfree s.fs.free [] 0
      ((s, c), copied v8NicfreeLarge ++ [])
    exact hlog.mono (fun _ t ht => ht a (List.mem_append_left _ ha)) fun _ t ht =>
      ht a (List.mem_append_left _ ha)
  · intro h
    have hgains : Gains (Access.Inside s.fs.desc.nicfree v8NicfreeLarge) ((s, c), [])
      (final v7WalkFreeSeen ((s, c), [])) := by
      refine Post.final (P := fun t => Gains (Access.Inside s.fs.desc.nicfree v8NicfreeLarge)
        ((s, c), []) t) (post_seenFs (post_noteAll ?_))
      have hcopy := (Gains.refl (P := Access.Inside s.fs.desc.nicfree v8NicfreeLarge)
        ((s, c), [])).append (inside_copied h)
      exact (walkFreeListSeen_inside _ _ _ _ _ ((s, c), _) hd.le (Nat.le_trans hle hd.le)).mono
        (fun _ _ h => hcopy.trans h) fun _ _ h => hcopy.trans h
    exact hgains.all

end Scans

/-- Of the three scans of a cached list, the two with the long copy stay inside their arrays exactly
    where the cache is as long as the copy, and V6's exactly where no chain block it goes on from has a
    count beyond its copy. -/
theorem free_list_scans_in_bounds_iff {s : Mnt} (hd : CacheSizes s.fs.desc)
    (hle : s.fs.nfree ≤ s.fs.desc.nicfree) :
    (s.fs.desc.freemap = .list → ∀ c, InArrays s.fs.desc.nicfree v8NicfreeLarge (logOf v7WalkFreeSeen (s, c)) ↔
      v8NicfreeLarge ≤ s.fs.desc.nicfree) ∧
    (InArrays s.fs.desc.nicfree v8NicfreeLarge (logOf (countFreeSeen true) s) ↔
      v8NicfreeLarge ≤ s.fs.desc.nicfree) ∧
    (s.fs.desc.isizeCount = true → (InArrays s.fs.desc.nicfree v6Nicfree (logOf (countFreeSeen false) s) ↔
      CountsFit v6Nicfree (entryLimit s.fs + 1) s (s.fs.nfree, s.fs.free))) :=
  ⟨fun _ => v7WalkFreeSeen_inside hd hle, countFreeSeen_v7 hd hle, countFreeSeen_v6 hd hle⟩

/-- A V6 volume whose free list goes on in block 4, which claims 101 entries. -/
def overfull : Mnt where
  fs := { desc := descV6, isize := 1, fsize := 6, nfree := 1, free := fun i => if i = 0 then 4 else 0 }
  img := fun o => if o = 2048 then 101 else 0
  size := 3072

/-- On a V7 volume the copy reads past the cache, and V6's counter runs past its copy. -/
theorem scans_leave_their_arrays :
    (∃ s, v7fsOpen false descV7 0 overlong = .ok () s ∧
      ¬ InArrays s.fs.desc.nicfree v8NicfreeLarge (logOf v7WalkFreeSeen (s, {}))) ∧
      ¬ InArrays overfull.fs.desc.nicfree v6Nicfree (logOf (countFreeSeen false) overfull) := by
  constructor
  · refine ⟨_, overlong_opens, fun h => ?_⟩
    have hd : CacheSizes (final (v7fsOpen false descV7 0) overlong).fs.desc :=
      ⟨by decide +kernel, by decide +kernel⟩
    have hcap : (final (v7fsOpen false descV7 0) overlong).fs.desc.nicfree = 50 := by decide +kernel
    have hlong := (v7WalkFreeSeen_inside hd (by decide +kernel) {}).mp h
    rw [hcap] at hlong
    exact absurd hlong (by decide)
  · intro h
    have hmem : Access.copy 100 ∈ logOf (countFreeSeen false) overfull := by decide +kernel
    exact absurd (show 100 < v6Nicfree from h _ hmem) (by decide)

/-- A V9 volume with a full cache of the blocks from 200 on; block 200 chains the three blocks below it. -/
def fullCache : Mnt where
  fs := { desc := filsysGetformat .v9, isize := 10, fsize := 1200, nfree := 946
          free := fun i => if i < 946 then 200 + i else 0 }
  img := putBlock { desc := filsysGetformat .v9 } zeroBuf 200 (dumpBuf (filsysGetformat .v9) 4 fun i =>
    if 0 < i ∧ i < 4 then 196 + i else 0)
  size := 1200 * 8192

/-- V9's cache is as long as the copy. -/
theorem a_v9_scan_stays_in_bounds :
    InArrays 946 v8NicfreeLarge (logOf v7WalkFreeSeen (fullCache, {})) ∧
    InArrays 946 v8NicfreeLarge (logOf (countFreeSeen true) fullCache) := by
  obtain ⟨hwalk, hcount, -⟩ := free_list_scans_in_bounds_iff (s := fullCache) (cacheSizes_getformat .v9)
    (by decide)
  exact ⟨(hwalk rfl {}).mpr (by decide), hcount.mpr (by decide)⟩

/-! ## The bitmap walk -/

/-- The walk looks at every set bit of a block past the i-list. -/
theorem walkFreeBitmapSeen_log (todo i : Nat) (s : (Mnt × Chk) × List Access) :
    Post (walkFreeBitmapSeen todo i s)
    (fun _ t => t.1.1.fs = s.1.1.fs ∧ ∀ a, a ∈ t.2 ↔ a ∈ s.2 ∨ ∃ j, i ≤ j ∧ j < i + todo ∧
      getBit s.1.1.fs.v8Bits j = true ∧
      InData s.1.1.fs (s.1.1.fs.v8Base + j) ∧ a = .bmap ((s.1.1.fs.v8Base + j - v7DataFirst s.1.1.fs) /
        8)) fun _ _ => False := by
  induction todo generalizing i s with
  | zero =>
    refine ⟨rfl, fun a => ⟨.inl, ?_⟩⟩
    intro hr
    rcases hr with h | ⟨j, h1, h2, -⟩
    · exact h
    · omega
  | succ todo ih =>
    have hstep : ∀ {u : (Mnt × Chk) × List Access}, u.1.1.fs = s.1.1.fs →
      (∀ a, a ∈ u.2 ↔ a ∈ s.2 ∨ (getBit s.1.1.fs.v8Bits i = true ∧
        InData s.1.1.fs (s.1.1.fs.v8Base + i) ∧ a = .bmap ((s.1.1.fs.v8Base + i - v7DataFirst s.1.1.fs) / 8))) →
        Post (walkFreeBitmapSeen todo (i + 1) u) (fun _ t => t.1.1.fs = s.1.1.fs ∧ ∀ a, a ∈ t.2 ↔
          a ∈ s.2 ∨ ∃ j, i ≤ j ∧ j < i + (todo + 1) ∧
          getBit s.1.1.fs.v8Bits j = true ∧ InData s.1.1.fs (s.1.1.fs.v8Base + j) ∧
            a = .bmap ((s.1.1.fs.v8Base + j - v7DataFirst s.1.1.fs) / 8)) fun _ _ => False := by
      intro u hfs hlog
      refine (ih (i + 1) u).mono ?_ fun _ _ h => h
      intro _ t hr
      obtain ⟨hft, ht⟩ := hr
      rw [hfs] at ht hft
      refine ⟨hft, fun a => ⟨fun ha => ?_, fun ha => ?_⟩⟩
      · rcases (ht a).mp ha with ha | ⟨j, h1, h2, h3⟩
        · exact ((hlog a).mp ha).imp id fun h => ⟨i, Nat.le_refl i, by omega, h⟩
        · exact .inr ⟨j, by omega, by omega, h3⟩
      · rcases ha with ha | ⟨j, h1, h2, h3⟩
        · exact (ht a).mpr (.inl ((hlog a).mpr (.inl ha)))
        · rcases Nat.eq_or_lt_of_le h1 with rfl | hlt
          · exact (ht a).mpr (.inl ((hlog a).mpr (.inr h3)))
          · exact (ht a).mpr (.inr ⟨j, hlt, by omega, h3⟩)
    refine post_seenFs (post_bind (post_onlyIf ?_ ?_))
    · intro hset
      refine (markFreeSeen_told _ s).mono ?_ fun _ _ h => h
      intro _ u hr
      obtain ⟨hfs, hlog⟩ := hr
      refine hstep hfs fun a => ?_
      rw [hlog, List.mem_cons, or_comm]
      have hdata : InData s.1.1.fs (s.1.1.fs.v8Base + i) := hset.2
      exact or_congr_right (by simp only [hset.1, true_and, hdata])
    · intro hset
      refine hstep rfl fun a => (or_iff_left ?_).symm
      rintro ⟨h1, h2, -⟩
      exact hset ⟨h1, h2.1, h2.2⟩

theorem getBit_inMemory (fs : Fs) (junk : Buf) (i : Nat) :
    getBit (inMemory fs junk) i = if i / 8 < bitBytes fs then getBit fs.v8Bits i else getBit junk i := by
  unfold getBit inMemory
  split <;> rfl

/-- Every byte of the usage map the walk touches is one it has. -/
def WalkInside (s : Mnt) (c : Chk) : Prop :=
  ∀ i, .bmap i ∈ logOf (walkFreeBitmapSeen s.fs.v8Nbits 0) (s, c) → i < mapBytes s.fs

/-- Whatever lies behind the free map, the walk stays inside the usage map. -/
def MapInside (s : Mnt) (c : Chk) : Prop := ∀ junk, WalkInside (withMemory s junk) c

theorem walkInside_iff {s : Mnt} (hl : Laid s.fs) (hmap : s.fs.desc.alloc = .v8bitmap) (c : Chk) :
    WalkInside s c ↔
    ∀ b, opsDataStart s.fs + 8 * mapBytes s.fs ≤ b → b < s.fs.fsize →
    getBit s.fs.v8Bits (b - s.fs.v8Base) = false := by
  obtain ⟨hops, hne, -, hcount⟩ := hl.kind.map hmap
  have hstart : opsDataStart s.fs = s.fs.isize := by
    unfold opsDataStart v7DataFirst
    rw [hops, hcount]
    simp
  have hfirst : v7DataFirst s.fs = s.fs.isize := by
    unfold v7DataFirst
    rw [hcount]
    simp
  have hext := hl.extent hne
  have hbase : s.fs.v8Base ≤ s.fs.isize := by
    cases hm : s.fs.desc.freemap with
    | list => exact absurd hm hne
    | bitmap => exact Nat.le_of_eq (hl.bitmap hm)
    | bigmap => rw [hl.bigmap hm]; exact Nat.zero_le _
  have hlog : ∀ i, .bmap i ∈ logOf (walkFreeBitmapSeen s.fs.v8Nbits 0) (s, c) ↔ ∃ j, j < s.fs.v8Nbits ∧
    getBit s.fs.v8Bits j = true ∧
      InData s.fs (s.fs.v8Base + j) ∧ i = (s.fs.v8Base + j - s.fs.isize) / 8 := by
    intro i
    obtain ⟨_, t, hr, -, ht⟩ := (walkFreeBitmapSeen_log s.fs.v8Nbits 0 ((s, c), [])).succeeds
    have hfin : logOf (walkFreeBitmapSeen s.fs.v8Nbits 0) (s, c) = t.2 := by
      unfold logOf final
      rw [hr]
    rw [hfin, ht, hfirst]
    constructor
    · intro hrun
      rcases hrun with h | ⟨j, -, h2, h3, h4, h5⟩
      · cases h
      · exact ⟨j, by omega, h3, h4, Access.bmap.inj h5⟩
    · intro hrun
      obtain ⟨j, h2, h3, h4, rfl⟩ := hrun
      exact .inr ⟨j, Nat.zero_le j, by omega, h3, h4, rfl⟩
  rw [hstart]
  constructor
  · intro h b hlo hhi
    by_contra hset
    have hin := h _ ((hlog _).mpr ⟨b - s.fs.v8Base, by omega, by simpa using hset,
      ⟨by rw [hfirst]; omega, by omega⟩, rfl⟩)
    omega
  · intro h i hi
    obtain ⟨j, hj, hset, hin, rfl⟩ := (hlog i).mp hi
    by_contra hge
    have hclear := h (s.fs.v8Base + j) (by have := hin.1; omega) hin.2
    rw [Nat.add_sub_cancel_left, hset] at hclear
    cases hclear

theorem mapInside_iff {s : Mnt} (hl : Laid s.fs) (hmap : s.fs.desc.alloc = .v8bitmap) (c : Chk) :
    MapInside s c ↔
    ∀ b, opsDataStart s.fs + 8 * mapBytes s.fs ≤ b → b < s.fs.fsize →
      (b - s.fs.v8Base) / 8 < bitBytes s.fs ∧ getBit s.fs.v8Bits (b - s.fs.v8Base) = false := by
  have heach : ∀ junk, WalkInside (withMemory s junk) c ↔
      ∀ b, opsDataStart s.fs + 8 * mapBytes s.fs ≤ b → b < s.fs.fsize →
      getBit (inMemory s.fs junk) (b - s.fs.v8Base) = false := by
    intro junk
    have hl' : Laid { s.fs with v8Bits := inMemory s.fs junk } := hl.of_shape rfl
    exact walkInside_iff (s := withMemory s junk) hl' hmap c
  constructor
  · intro h b hlo hhi
    have hbit : ∀ junk, getBit (inMemory s.fs junk) (b - s.fs.v8Base) = false :=
      fun junk => (heach junk).mp (h junk) b hlo hhi
    by_cases hin : (b - s.fs.v8Base) / 8 < bitBytes s.fs
    · have hclear := hbit zeroBuf
      rw [getBit_inMemory, if_pos hin] at hclear
      exact ⟨hin, hclear⟩
    · -- past its bytes the map may read as ones
      have hset := hbit (putBit zeroBuf (b - s.fs.v8Base) true)
      rw [getBit_inMemory, if_neg hin, getBit_putBit, if_pos rfl] at hset
      cases hset
  · intro h junk
    refine (heach junk).mpr fun b hlo hhi => ?_
    obtain ⟨hin, hclear⟩ := h b hlo hhi
    rw [getBit_inMemory, if_pos hin, hclear]

/-- On every bitmap volume an open accepts, the walk stays inside the usage map exactly when every block
    past the last whole byte of the map has a bit of its own, and that bit is clear. -/
theorem bitmap_walk_in_bounds_iff {a : OpenArgs} {s₀ s : Mnt} (hsolo : Solo s₀)
    (hopen : filsysOpenArch a s₀ = .ok () s)
    (hmap : s.fs.desc.alloc = .v8bitmap) (c : Chk) : MapInside s c ↔
      ∀ b, opsDataStart s.fs + 8 * mapBytes s.fs ≤ b → b < s.fs.fsize →
        (b - s.fs.v8Base) / 8 < bitBytes s.fs ∧ getBit s.fs.v8Bits (b - s.fs.v8Base) = false :=
  mapInside_iff ((filsysOpenArch_laid hsolo).of_ok hopen).2 hmap c

/-- A V10 volume of twelve blocks with a bigmap in the last, which calls the last free. -/
def tailFree : Mnt where
  fs := { desc := descV8 }
  img := fun o => if o = 4096 then 3 else if o = 4100 then 12 else if o = 45057 then 8 else 0
  size := 49152

theorem tailFree_opens :
    filsysOpenArch bigmapArgs tailFree = .ok () (final (filsysOpenArch bigmapArgs) tailFree) :=
  eq_done (by decide +kernel)

/-- Eight data blocks fit one byte of the usage map; block 11 lies in its second. -/
theorem a_free_tail_block_is_marked_past_the_map :
    ∃ s, filsysOpenArch bigmapArgs tailFree = .ok () s ∧ s.fs.desc.alloc = .v8bitmap ∧ ¬ MapInside s {} := by
  have hopen := tailFree_opens
  have hfacts : (final (filsysOpenArch bigmapArgs) tailFree).fs.desc.alloc = .v8bitmap ∧
      Access.bmap 1 ∈ logOf (walkFreeBitmapSeen
        (withMemory (final (filsysOpenArch bigmapArgs) tailFree) zeroBuf).fs.v8Nbits 0)
        (withMemory (final (filsysOpenArch bigmapArgs) tailFree) zeroBuf, {}) ∧
      mapBytes (withMemory (final (filsysOpenArch bigmapArgs) tailFree) zeroBuf).fs = 1 := by decide +kernel
  generalize final (filsysOpenArch bigmapArgs) tailFree = s at hopen hfacts
  obtain ⟨hmap, hmem, hbytes⟩ := hfacts
  refine ⟨s, hopen, hmap, fun h => ?_⟩
  have hlt := h zeroBuf 1 hmem
  rw [hbytes] at hlt
  exact absurd hlt (by decide)

/-- The boot block's bit is outside the usage map's range, and the walk passes it over. -/
theorem a_free_boot_block_is_passed_over : MapInside (final (filsysOpenArch bigmapArgs) bootFree) {} := by
  refine (bitmap_walk_in_bounds_iff (fun _ _ => rfl) bootFree_opens (by decide +kernel) {}).mpr
    fun b hlo hhi => ?_
  have hstart : opsDataStart (final (filsysOpenArch bigmapArgs) bootFree).fs = 2 := by decide +kernel
  have hbytes : mapBytes (final (filsysOpenArch bigmapArgs) bootFree).fs = 1 := by decide +kernel
  have hsize : (final (filsysOpenArch bigmapArgs) bootFree).fs.fsize = 4 := by decide +kernel
  omega

end Filsys.Check
