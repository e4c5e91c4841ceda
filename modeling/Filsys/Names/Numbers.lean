/-
  Filsys.Names.Numbers — inode numbers taken and given back (alloc_freelist.c, v1fs.c).

  A directory entry has sixteen bits for a number, and so have the entries of the cache the
  V7 family takes numbers from. `Numbers` says that the cache is in order; `Tally` counts
  what a call has done to it and to the total of free inodes.
-/

import Filsys.Names.Turn

namespace Filsys.Names

open Filsys.Lib Filsys.Engine Filsys.Alloc Filsys.Tree

/-- The numbers the allocator can hand out fit an entry. -/
structure Numbers (fs : Fs) : Prop where
  cache : ∀ i, fs.inode i < 65536
  few : fs.ninode ≤ fs.desc.nicinod
  v1 : fs.desc.ops = .v1 → fs.maxino < 65536

/-- Numbers in order, on the volume of `s`, with `k` free inodes on the books. -/
structure Tally (s : Mnt) (k : Nat) (t : Mnt) : Prop extends SameVol s t where
  numbers : Numbers t.fs
  tinode : t.fs.tinode = k

theorem Numbers.congr {fs fs' : Fs} (h : Numbers fs) (hs : shape fs' = shape fs)
    (hi : inoState fs' = inoState fs) : Numbers fs' := by
  have h1 : fs'.ninode = fs.ninode := congrArg (·.2.1) hi
  have h2 : fs'.inode = fs.inode := congrArg (·.2.2.1) hi
  refine ⟨?_, ?_, ?_⟩
  · rw [h2]
    exact h.cache
  · rw [h1, shape_desc hs]
    exact h.few
  · rw [shape_desc hs, shape_maxino hs]
    exact h.v1

section Steady

variable {T : Nat → Prop} {s t : Mnt} {own own' : Own} (hs : Sound s own) (h : Steady T s own t own')

include hs h

theorem Steady.numbers (hn : Numbers s.fs) : Numbers t.fs :=
  hn.congr h.apart.shape (h.ino hs.owned.mounted.solo).2

theorem Steady.tinode : t.fs.tinode = s.fs.tinode := congrArg (·.2.2.2) (h.ino hs.owned.mounted.solo).2

theorem Steady.ninode : t.fs.ninode = s.fs.ninode := congrArg (·.2.1) (h.ino hs.owned.mounted.solo).2

end Steady

/-! ## Allocation -/

theorem tally_looked {s t u : Mnt} {k : Nat} (h : Tally s k t) (hu : Looked t u) : Tally s k u := by
  obtain ⟨j, -, rfl⟩ := hu
  exact ⟨⟨h.shape, h.size, h.env⟩, h.numbers, h.tinode⟩

theorem tally_refill (todo : Nat) : ∀ {s t : Mnt} {k : Nat} (n : Nat), Mounted t → Tally s k t →
    Post (refill todo n t) (fun _ u => Tally s k u) (fun _ u => Tally s k u) := by
  induction todo with
  | zero => exact fun n _ ht => ht
  | succ todo ih =>
    intro s t k n hm ht
    refine post_bindFs (post_ite (fun hlt => ?_) fun _ => ht)
    refine post_bind (post_failAs ((post_inodeIn hm n).mono ?_ fun _ u hu => tally_looked ht hu.2))
    intro ip u h
    obtain ⟨-, -, hu⟩ := h
    have htu := tally_looked ht hu
    have hmu := hm.of_sameVol hu.idle.toSameVol
    refine post_bind (post_onlyIf (fun _ => ?_) fun _ => ih (n + 1) hmu htu)
    refine ih (n + 1) (hmu.of_sameVol ⟨rfl, rfl, rfl⟩) ⟨⟨htu.shape, htu.size, htu.env⟩,
      ⟨?_, ?_, htu.numbers.v1⟩, htu.tinode⟩
    · intro i
      show (if i = u.fs.ninode then n % 65536 else u.fs.inode i) < 65536
      split
      · exact Nat.mod_lt _ (by decide)
      · exact htu.numbers.cache i
    · show u.fs.ninode + 1 ≤ u.fs.desc.nicinod
      obtain ⟨j, -, rfl⟩ := hu
      exact hlt

/-- A number handed out: it fits an entry, the total is one less and the cache has room. -/
def Took16 (s : Mnt) (k n : Nat) (t : Mnt) : Prop :=
  n < 65536 ∧ Tally s (k - 1) t ∧ (s.fs.desc.ops ≠ .v1 → t.fs.ninode < t.fs.desc.nicinod)

theorem tally_iallocTurn {s t : Mnt} {own : Own} {k : Nat} (ho : Owned t own) (ht : Tally s k t) :
    Post (iallocTurn t) (fun r u => match r with
      | some n => Took16 s k n u
      | none => Tally s k u) (fun _ u => Tally s k u) := by
  refine post_bindFs (post_ite ?_ ?_)
  · intro hpos
    have hpop : Tally s k { t with fs := { t.fs with ninode := t.fs.ninode - 1 } } :=
      ⟨⟨ht.shape, ht.size, ht.env⟩,
        ⟨ht.numbers.cache, by show t.fs.ninode - 1 ≤ t.fs.desc.nicinod; have := ht.numbers.few; omega,
        ht.numbers.v1⟩,
        ht.tinode⟩
    have hroom : ({ t with fs := { t.fs with ninode := t.fs.ninode - 1 } } : Mnt).fs.ninode <
      t.fs.desc.nicinod := by
      show t.fs.ninode - 1 < t.fs.desc.nicinod
      have := ht.numbers.few
      omega
    have h16 : t.fs.inode (t.fs.ninode - 1) < 65536 := ht.numbers.cache _
    have hidle : Idle t { t with fs := { t.fs with ninode := t.fs.ninode - 1 } } :=
      ⟨⟨rfl, rfl, rfl⟩, rfl, rfl, rfl, id⟩
    have hop := owned_idle ho hidle
    generalize hv : ({ t with fs := { t.fs with ninode := t.fs.ninode - 1 } } : Mnt) = v at hpop hroom hop
    have hvd : v.fs.desc = t.fs.desc := by
      rw [← hv]
    refine post_bindMod (post_ite (fun _ => by rw [hv]; exact hpop) fun hrange => ?_)
    rw [hv]
    generalize t.fs.inode (t.fs.ninode - 1) = cand at h16 hrange ⊢
    refine post_bind (post_failAs ((post_inodeIn hop.mounted cand).mono ?_
      fun _ u hu => tally_looked hpop hu.2))
    intro ip u h
    obtain ⟨-, -, hu⟩ := h
    have htu := tally_looked hpop hu
    refine post_ite (fun _ => htu) fun _ => post_bind (post_attempt ?_)
    have hkeep := (sameIno_law.writeInode cand { ino := cand } u)
    have hou := hu.owned hop
    have hvol := post_inodeOut hou cand { ino := cand }
    have hdone : ∀ x, SameIno u x → SameVol u x →
        Took16 s k cand { x with fs := { x.fs with tinode := x.fs.tinode - 1, flDirty := true } } := by
      intro x hx hvx
      have hstate := (hx hou.mounted.solo).2
      have hnum : Numbers x.fs := htu.numbers.congr hvx.shape hstate
      have h1 : x.fs.ninode = u.fs.ninode := congrArg (·.2.1) hstate
      have h2 : x.fs.tinode = u.fs.tinode := congrArg (·.2.2.2) hstate
      refine ⟨h16, ⟨sameVol_law.trans htu.toSameVol ⟨hvx.shape, hvx.size, hvx.env⟩,
        ⟨hnum.cache, hnum.few, hnum.v1⟩, ?_⟩, ?_⟩
      · show x.fs.tinode - 1 = k - 1
        rw [h2, htu.tinode]
      · intro _
        show x.fs.ninode < x.fs.desc.nicinod
        rw [h1, shape_desc hvx.shape]
        obtain ⟨j, -, rfl⟩ := hu
        show v.fs.ninode < v.fs.desc.nicinod
        rw [hvd]
        exact hroom
    cases hr : writeInode cand { ino := cand } u with
    | ok _ x =>
      rw [hr] at hkeep hvol
      exact hdone x hkeep hvol.toSameVol
    | error e x =>
      rw [hr] at hkeep hvol
      exact hdone x hkeep hvol.1.toSameVol
  · intro _
    have hempty : Tally s k { t with fs := { t.fs with ninode := 0 } } :=
      ⟨⟨ht.shape, ht.size, ht.env⟩, ⟨ht.numbers.cache, Nat.zero_le _, ht.numbers.v1⟩, ht.tinode⟩
    have hm : Mounted { t with fs := { t.fs with ninode := 0 } } := ho.mounted.of_sameVol ⟨rfl, rfl, rfl⟩
    refine post_bindMod (post_bind ((tally_refill (v7Maxinode t.fs - 1) 2 hm hempty).mono ?_ fun _ _ hu => hu))
    exact fun _ u hu => post_bindFs (post_ite (fun _ => hu) fun _ => hu)

/-- What `ialloc` does to the books. -/
theorem tally_ialloc {s : Mnt} {own : Own} (ho : Owned s own) (hn : Numbers s.fs) :
    Post (ialloc s) (fun n t => Took16 s s.fs.tinode n t) (fun _ t => Tally s s.fs.tinode t) := by
  have hself : Tally s s.fs.tinode s := ⟨sameVol_law.refl s, hn, rfl⟩
  have hloop : s.fs.desc.ops ≠ .v1 → ∀ fuel {t : Mnt}, Owned t own → Tally s s.fs.tinode t →
      Post (v7fsIallocLoop fuel t) (fun n u => Took16 s s.fs.tinode n u)
      (fun _ u => Tally s s.fs.tinode u) := by
    intro hv fuel
    induction fuel with
    | zero => exact fun _ ht => ht
    | succ fuel ih =>
      intro t hot ht
      have hvt : t.fs.desc.ops ≠ .v1 := by
        rw [shape_desc ht.shape]
        exact hv
      refine post_bind (((tally_iallocTurn hot ht).and
        (post_iallocTurn (S := anything) hot (fun _ _ => trivial) hvt)).mono ?_ fun _ _ he => he.1)
      intro r u h
      obtain ⟨hr, hi⟩ := h
      cases r with
      | some n => exact hr
      | none => exact ih (owned_idle hot hi) hr
  apply post_bindFs
  cases hops : s.fs.desc.ops with
  | pdp7 => exact absurd hops ho.mounted.notPdp7
  | v6 => exact hloop (by rw [hops]; decide) s.env.fuel ho hself
  | v7 => exact hloop (by rw [hops]; decide) s.env.fuel ho hself
  | bsd211 => exact hloop (by rw [hops]; decide) s.env.fuel ho hself
  | v1 =>
    apply post_bindFs
    cases hc : firstClear s.fs.inodemap (s.fs.maxino + 1 - 41) 0 with
    | none => exact hself
    | some bit =>
      obtain ⟨-, hlt, -⟩ := Check.firstClear_some hc
      have hmax := hn.v1 hops
      exact ⟨show bit + 41 < 65536 by omega, ⟨⟨rfl, rfl, rfl⟩, ⟨hn.cache, hn.few, hn.v1⟩, rfl⟩,
        fun hv => absurd hops hv⟩

/-- What `ifree` does to the books: a full cache forgets the number. -/
theorem tally_ifree {s : Mnt} (hp : s.fs.desc.ops ≠ .pdp7) (hn : Numbers s.fs) (n : Nat) :
    Post (ifree n s) (fun _ t => Numbers t.fs ∧ SameVol s t ∧
      (s.fs.desc.ops ≠ .v1 → s.fs.ninode < s.fs.desc.nicinod →
        t.fs.tinode = (s.fs.tinode + 1) % 2 ^ 32)) (fun _ _ => False) := by
  have hfamily : Post (v7fsIfree n s) (fun _ t => Numbers t.fs ∧ SameVol s t ∧
      (s.fs.desc.ops ≠ .v1 → s.fs.ninode < s.fs.desc.nicinod →
        t.fs.tinode = (s.fs.tinode + 1) % 2 ^ 32)) (fun _ _ => False) := by
    refine post_bindFs (post_ite
      (fun hfull => ⟨hn, sameVol_law.refl s, fun _ hlt => absurd hfull (by omega)⟩) fun hroom => ?_)
    refine ⟨⟨?_, ?_, hn.v1⟩, ⟨rfl, rfl, rfl⟩, fun _ _ => rfl⟩
    · intro i
      show (if i = s.fs.ninode then n % 65536 else s.fs.inode i) < 65536
      split
      · exact Nat.mod_lt _ (by decide)
      · exact hn.cache i
    · show s.fs.ninode + 1 ≤ s.fs.desc.nicinod
      omega
  apply post_bindFs
  cases hops : s.fs.desc.ops with
  | pdp7 => exact absurd hops hp
  | v6 => rw [hops] at hfamily; exact hfamily
  | v7 => rw [hops] at hfamily; exact hfamily
  | bsd211 => rw [hops] at hfamily; exact hfamily
  | v1 =>
    refine post_bindFs (post_ite (fun _ => ⟨hn, sameVol_law.refl s, fun hv => absurd rfl hv⟩) fun _ => ?_)
    exact ⟨⟨hn.cache, hn.few, hn.v1⟩, ⟨rfl, rfl, rfl⟩, fun hv => absurd rfl hv⟩

end Filsys.Names
