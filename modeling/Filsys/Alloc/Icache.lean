/-
  Filsys.Alloc.Icache — whether `v7fs_ialloc` returns.

  The loop draws from a cache of 16-bit numbers and refills it from a scan over 32-bit
  ones. A turn either settles the call, drops an entry of the cache, or refills an empty
  one, so what matters is whether a refill brings an entry that denotes the free inode it
  was made for. The first free inode the scan meets does where it fits 16 bits; where
  every inode below 65536 is live and one above is free, no entry ever does
  (`allocates_iff`).
-/

import Filsys.Engine.Aside
import Filsys.Mount.Opened

namespace Filsys.Alloc

open Filsys.Lib Filsys.Engine Filsys.Mount

/-! ## The volume -/

/-- A volume of the V7 family with its i-list inside its image, as `v7fs_open` accepts it. -/
structure Listed (s : Mnt) : Prop where
  solo : Solo s
  notV1 : s.fs.desc.ops ≠ .v1
  notPdp7 : s.fs.desc.ops ≠ .pdp7
  /-- The cache has room. -/
  pos : 0 < s.fs.desc.nicinod
  /-- `fl.inode` is an array of `uint16_t`. -/
  cached : ∀ i, s.fs.inode i < 65536
  imgsize : s.fs.imgsize = s.size
  fits : s.fs.base + s.fs.fsize * s.fs.desc.bsize ≤ s.size
  data : v7DataFirst s.fs < s.fs.fsize
  first : 2 ≤ v7DataFirst s.fs

/-- What `inode_live` says of inode `n` on the image. -/
def LiveIno (s : Mnt) (n : Nat) : Prop := inodeLive s.fs.desc ((inodeOf s.fs s.img n).mode % 65536) = true

instance (s : Mnt) (n : Nat) : Decidable (LiveIno s n) := inferInstanceAs (Decidable (_ = true))

/-- An inode of the i-list an allocation may return. -/
structure FreeIno (s : Mnt) (n : Nat) : Prop where
  low : 2 ≤ n
  high : n ≤ v7Maxinode s.fs
  free : ¬ LiveIno s n

/-- The call returns: a free inode of the i-list, or an error. -/
def Allocates (s : Mnt) : Prop :=
  ∃ fuel, Post (v7fsIallocLoop fuel s) (fun n _ => FreeIno s n) fun e _ => e ≠ .diverges

/-- Only inodes a 16-bit cache cannot name are free, and every transfer to come goes through. -/
structure Stuck (s : Mnt) : Prop where
  low : ∀ n, n < 65536 → ¬ FreeIno s n
  high : ∃ n, FreeIno s n
  sound : ∀ k, s.ios ≤ k → s.env.fails k = false

/-- `s` with another cache, some transfers later. -/
def drawn (s : Mnt) (k m : Nat) (f : Nat → Nat) : Mnt :=
  { s with ios := k, fs := { s.fs with ninode := m, inode := f } }

theorem Listed.drawn {s : Mnt} (h : Listed s) (k m : Nat) {f : Nat → Nat} (hf : ∀ i, f i < 65536) :
    Listed (drawn s k m f) :=
  ⟨h.solo, h.notV1, h.notPdp7, h.pos, hf, h.imgsize, h.fits, h.data, h.first⟩

theorem freeIno_drawn {s : Mnt} {k m : Nat} {f : Nat → Nat} {n : Nat} :
    FreeIno (drawn s k m f) n ↔ FreeIno s n :=
  ⟨fun ⟨h1, h2, h3⟩ => ⟨h1, h2, h3⟩, fun ⟨h1, h2, h3⟩ => ⟨h1, h2, h3⟩⟩

section Turn

variable {s : Mnt} (h : Listed s)

include h

/-- Reading an inode of the i-list is one transfer, which goes through or fails. -/
theorem Listed.post_readInode {n : Nat} (h2 : 2 ≤ n) (hn : n ≤ v7Maxinode s.fs)
    {Q : Inode → Mnt → Prop} {E : Errno → Mnt → Prop}
    (hok : s.env.fails s.ios = false → Q (inodeOf s.fs s.img n) (ticked s))
    (herr : s.env.fails s.ios = true → ∀ e, E e (ticked s)) :
    Post (readInode n s) Q E := by
  have hdata := h.data
  have hfit := h.fits
  have hlist := v7Itod_lt h.first (Nat.le_of_succ_le h2) hn
  rw [ilistEnd_eq] at hlist
  have hin : s.fs.base + v7Itod s.fs n * s.fs.desc.bsize + s.fs.desc.bsize ≤ s.size := by
    have hle : (v7Itod s.fs n + 1) * s.fs.desc.bsize ≤ s.fs.fsize * s.fs.desc.bsize :=
      Nat.mul_le_mul_right _ (by omega)
    rw [Nat.succ_mul] at hle
    omega
  have hrange : checkRange s.fs (s.fs.base + v7Itod s.fs n * s.fs.desc.bsize) s.fs.desc.bsize = true := by
    unfold checkRange
    rw [h.imgsize]
    simp only [Bool.or_eq_true, beq_iff_eq, Bool.and_eq_true, decide_eq_true_eq]
    omega
  rw [readInode_v7 h.notV1 h.notPdp7]
  refine post_bindFs (post_ite (fun h0 => absurd h0 (by omega)) fun _ =>
    post_ite (fun h0 => absurd h0 (by rw [ilistEnd_eq]; omega)) fun _ => ?_)
  refine post_bind (post_failAs
    (post_bindFs (post_ite (fun _ => post_ioRead (fun hf _ => ?_) fun hf => ?_)
    fun hno => absurd hrange hno)))
  · rw [touch_solo h.solo]
    exact hok hf
  · rw [touch_solo h.solo]
    exact herr (hf.resolve_right (by omega)) _

/-- A turn with an entry on the cache: it is dropped, or it settles the call. -/
theorem post_iallocTurn_draw {m : Nat} (hm : s.fs.ninode = m + 1) {Q : Option Nat → Mnt → Prop}
    {E : Errno → Mnt → Prop}
    (hdrop : ¬ FreeIno s (s.fs.inode m) → Q none (drawn s s.ios m s.fs.inode))
    (hlive : ¬ FreeIno s (s.fs.inode m) → s.env.fails s.ios = false → Q none (drawn s (s.ios + 1) m s.fs.inode))
    (htake : FreeIno s (s.fs.inode m) → ∀ t, Q (some (s.fs.inode m)) t)
    (hfault : s.env.fails s.ios = true → ∀ t, E .eio t) :
    Post (iallocTurn s) Q E := by
  have hcand : s.fs.inode (s.fs.ninode - 1) = s.fs.inode m := by rw [hm]; rfl
  have hpop : { s with fs := { s.fs with ninode := s.fs.ninode - 1 } } = drawn s s.ios m s.fs.inode := by
    rw [hm]
    rfl
  refine post_bindFs (post_ite (fun _ => post_bindMod ?_) fun h0 => absurd h0 (by omega))
  rw [hpop]
  simp only [hcand]
  refine post_ite (fun hout => hdrop fun hfree => ?_) fun hin => ?_
  · have := hfree.low
    have := hfree.high
    omega
  · have hlow : 2 ≤ s.fs.inode m := by omega
    have hhigh : s.fs.inode m ≤ v7Maxinode s.fs := by omega
    refine post_bind (post_failAs ((h.drawn s.ios m h.cached).post_readInode hlow hhigh (fun hf => ?_)
      fun hf _ => hfault hf _))
    refine post_ite (fun hl => hlive (fun hfree => hfree.free hl) hf) fun hl => ?_
    refine post_bind (post_attempt ((post_true _).mono ?_ ?_))
    · intro _ t _
      exact htake ⟨hlow, hhigh, hl⟩ _
    · intro _ t _
      exact htake ⟨hlow, hhigh, hl⟩ _

end Turn

/-! ## A refill -/

/-- What a scan of the inodes `ino, …, ino + todo - 1` has left. -/
structure Refilled (todo ino : Nat) (s t : Mnt) : Prop where
  only : t = drawn s t.ios t.fs.ninode t.fs.inode
  cached : ∀ i, t.fs.inode i < 65536
  later : s.ios ≤ t.ios
  /-- No transfer of the scan has failed. -/
  sound : ∀ j, s.ios ≤ j → j < t.ios → s.env.fails j = false
  moved : 0 < todo → s.fs.ninode < s.fs.desc.nicinod → s.ios < t.ios
  kept : s.fs.ninode ≤ t.fs.ninode ∧ ∀ i, i < s.fs.ninode → t.fs.inode i = s.fs.inode i
  /-- Every entry was made for a free inode. -/
  made : s.fs.ninode < t.fs.ninode → ∃ n, FreeIno s n
  /-- The first one was made for the first free inode. -/
  first : s.fs.ninode < s.fs.desc.nicinod → ∀ n, ino ≤ n → n < ino + todo → FreeIno s n →
    s.fs.ninode < t.fs.ninode ∧ ∃ n', n' ≤ n ∧ FreeIno s n' ∧ t.fs.inode s.fs.ninode = n' % 65536

/-- A scan that reads nothing: no inode to scan, or no room in the cache. -/
theorem Refilled.nothing {todo : Nat} (ino : Nat) {s : Mnt} (h : Listed s)
    (hstop : todo = 0 ∨ ¬ s.fs.ninode < s.fs.desc.nicinod) :
    Refilled todo ino s s where
  only := rfl
  cached := h.cached
  later := Nat.le_refl _
  sound _ h1 h2 := absurd h2 (Nat.not_lt.mpr h1)
  moved h0 hroom := by
    rw [hstop.resolve_right (not_not_intro hroom)] at h0
    exact absurd h0 (Nat.lt_irrefl 0)
  kept := ⟨Nat.le_refl _, fun _ _ => rfl⟩
  made h0 := absurd h0 (Nat.lt_irrefl _)
  first hroom n h1 h2 := by
    rw [hstop.resolve_right (not_not_intro hroom)] at h2
    omega

theorem post_refill {todo ino : Nat} {s : Mnt} (h : Listed s) (h2 : 2 ≤ ino)
    (hend : ino + todo ≤ v7Maxinode s.fs + 1) :
    Post (refill todo ino s) (fun _ t => Refilled todo ino s t) fun e _ => e = .eio ∧ ∃ j, s.ios ≤ j ∧
    s.env.fails j = true := by
  induction todo generalizing ino s with
  | zero => exact Refilled.nothing ino h (.inl rfl)
  | succ todo ih =>
    refine post_bindFs (post_ite ?_ ?_)
    · intro hroom
      refine post_bind (post_failAs (h.post_readInode h2 (by omega) (fun hf => ?_) fun hf _ =>
        ⟨rfl, _, Nat.le_refl _, hf⟩))
      -- the scan goes on from here, with `ino` on the cache where it is free
      refine post_bind (post_onlyIf ?_ ?_)
      · intro hfree
        have hino : FreeIno s ino := ⟨h2, by omega, fun hl => by simp [LiveIno] at hl; simp [hl] at hfree⟩
        have hcached : ∀ i, (if i = s.fs.ninode then ino % 65536 else s.fs.inode i) < 65536 := by
          intro i
          split
          · exact Nat.mod_lt _ (by decide)
          · exact h.cached i
        refine (ih (s := drawn s (s.ios + 1) (s.fs.ninode + 1) _) (h.drawn _ _ hcached) (by omega)
          (by omega : _ ≤ v7Maxinode s.fs + 1)).mono ?_ ?_
        · intro _ t hrun
          obtain ⟨hon, hc, hlt, hso, -, ⟨hle, hk⟩, -, -⟩ := hrun
          have hfirst : t.fs.inode s.fs.ninode = ino % 65536 := by
            rw [hk _ (Nat.lt_succ_self _)]
            exact if_pos rfl
          refine ⟨hon, hc, Nat.le_of_succ_le hlt, fun j h1 h2 => ?_, fun _ _ => hlt,
            ⟨Nat.le_of_succ_le hle, fun i hi => ?_⟩, fun _ => ⟨ino, hino⟩, ?_⟩
          · by_cases hj : j = s.ios
            · rw [hj]
              exact hf
            · exact hso j (by show s.ios + 1 ≤ j; omega) h2
          · rw [hk i (Nat.lt_succ_of_lt hi)]
            exact if_neg (by omega)
          · exact fun _ n h1 _ _ => ⟨hle, ino, h1, hino, hfirst⟩
        · intro e _ hrun
          obtain ⟨he, j, hj, hf'⟩ := hrun
          exact ⟨he, j, Nat.le_of_succ_le hj, hf'⟩
      · intro hlive
        have hino : ¬ FreeIno s ino := fun hfree => hfree.free (by simpa [LiveIno] using hlive)
        refine (ih (s := ticked s) (h.drawn (s.ios + 1) s.fs.ninode h.cached) (by omega)
          (by omega : _ ≤ v7Maxinode s.fs + 1)).mono ?_ ?_
        · intro _ t hrun
          obtain ⟨hon, hc, hlt, hso, -, hkept, hmade, hfirst⟩ := hrun
          refine ⟨hon, hc, Nat.le_of_succ_le hlt, fun j h1 h2 => ?_, fun _ _ => hlt, hkept,
            ?_, fun hr n h1 h2 hn => ?_⟩
          · by_cases hj : j = s.ios
            · rw [hj]
              exact hf
            · exact hso j (by show s.ios + 1 ≤ j; omega) h2
          · intro hlt'
            obtain ⟨n, hn⟩ := hmade hlt'
            exact ⟨n, hn.low, hn.high, hn.free⟩
          · have hne : n ≠ ino := fun he => hino (he ▸ hn)
            obtain ⟨hcount, n', hle, hn', heq⟩ := hfirst hr n (by omega) (by omega) ⟨hn.low, hn.high, hn.free⟩
            exact ⟨hcount, n', hle, ⟨hn'.low, hn'.high, hn'.free⟩, heq⟩
        · intro e _ hrun
          obtain ⟨he, j, hj, hf'⟩ := hrun
          exact ⟨he, j, Nat.le_of_succ_le hj, hf'⟩
    · intro hfull
      exact Refilled.nothing ino h (.inr hfull)

/-- A turn with an empty cache: what the scan left, unless it left nothing. -/
theorem post_iallocTurn_refill {s : Mnt} (h : Listed s) (h0 : s.fs.ninode = 0)
    {Q : Option Nat → Mnt → Prop} {E : Errno → Mnt → Prop}
    (hfull : ∀ t, Refilled (v7Maxinode s.fs - 1) 2 s t → 0 < t.fs.ninode → Q none t)
    (hnone : ∀ t, Refilled (v7Maxinode s.fs - 1) 2 s t → t.fs.ninode = 0 → E .enospc t)
    (hfault : (∃ j, s.ios ≤ j ∧ s.env.fails j = true) → ∀ t, E .eio t) : Post (iallocTurn s) Q E := by
  have hsame : { s with fs := { s.fs with ninode := 0 } } = s := by
    rw [← h0]
  refine post_bindFs (post_ite (fun hpos => absurd hpos (by omega)) fun _ => post_bindMod ?_)
  rw [hsame]
  by_cases hmax : 1 ≤ v7Maxinode s.fs
  · refine post_bind ((post_refill h (Nat.le_refl 2) (by omega)).mono ?_ ?_)
    · intro _ t ht
      refine post_bindFs (post_ite (fun hz => hnone t ht hz) fun hz => hfull t ht (Nat.pos_of_ne_zero hz))
    · intro e t he
      rw [he.1]
      exact hfault he.2 t
  · rw [show v7Maxinode s.fs - 1 = 0 by omega] at *
    exact post_bind (post_pure
      (post_bindFs (post_ite (fun _ => hnone s (Refilled.nothing 2 h (.inl rfl)) h0)
      fun hz => absurd h0 hz)))

theorem Refilled.listed {todo ino : Nat} {s t : Mnt} (h : Listed s) (ht : Refilled todo ino s t) :
    Listed t := by
  rw [ht.only]
  exact h.drawn _ _ ht.cached

/-! ## The loop -/

/-- A turn settles the call, or leaves a state from which it settles. -/
theorem allocates_of_turn {s : Mnt} (h : Post (iallocTurn s)
    (fun r t => match r with
      | some n => FreeIno s n
      | none => ∃ k m f, t = drawn s k m f ∧ Allocates t) fun e _ => e ≠ .diverges) : Allocates s := by
  cases hr : iallocTurn s with
  | error e t =>
    refine ⟨1, post_bind ?_⟩
    rw [hr] at h ⊢
    exact h
  | ok r t =>
    rw [hr] at h
    cases r with
    | some n =>
      refine ⟨1, post_bind ?_⟩
      rw [hr]
      exact h
    | none =>
      obtain ⟨k, m, f, rfl, fuel, hfuel⟩ := h
      refine ⟨fuel + 1, post_bind ?_⟩
      rw [hr]
      exact hfuel.mono (fun _ _ hn => freeIno_drawn.mp hn) fun _ _ he => he

/-- Drawing from a cache with a good entry on it ends. -/
theorem allocates_of_entry {s : Mnt} (h : Listed s)
    (hgood : ∃ i, i < s.fs.ninode ∧ FreeIno s (s.fs.inode i)) : Allocates s := by
  generalize hm : s.fs.ninode = m at hgood
  induction m generalizing s with
  | zero =>
    obtain ⟨i, hi, -⟩ := hgood
    omega
  | succ m ih =>
    have hdrop : ¬ FreeIno s (s.fs.inode m) → ∀ k, Allocates (drawn s k m s.fs.inode) := by
      intro hbad k
      obtain ⟨i, hi, hfree⟩ := hgood
      have hne : i ≠ m := by
        rintro rfl
        exact hbad hfree
      exact ih (h.drawn k m h.cached) rfl ⟨i, by omega, freeIno_drawn.mpr hfree⟩
    refine allocates_of_turn (post_iallocTurn_draw h hm ?_ ?_ ?_ ?_)
    · exact fun hbad => ⟨_, _, _, rfl, hdrop hbad _⟩
    · exact fun hbad _ => ⟨_, _, _, rfl, hdrop hbad _⟩
    · exact fun hfree _ => hfree
    · exact fun _ _ => by decide

/-- A call settles where it does from every empty cache it can come to. -/
theorem allocates_of_empty {s : Mnt} (h : Listed s)
    (hempty : ∀ k f, (∀ i, f i < 65536) → s.ios ≤ k → (∀ j, s.ios ≤ j → j < k → s.env.fails j = false) →
      Allocates (drawn s k 0 f)) :
    Allocates s := by
  generalize hm : s.fs.ninode = m
  induction m generalizing s with
  | zero =>
    have hsame : drawn s s.ios 0 s.fs.inode = s := by
      unfold drawn
      rw [← hm]
    rw [← hsame]
    exact hempty _ _ h.cached (Nat.le_refl _) fun j h1 h2 => absurd h2 (Nat.not_lt.mpr h1)
  | succ m ih =>
    refine allocates_of_turn (post_iallocTurn_draw h hm ?_ ?_ ?_ ?_)
    · exact fun _ => ⟨_, _, _, rfl, ih (h.drawn _ _ h.cached) hempty rfl⟩
    · intro _ hf
      refine ⟨_, _, _, rfl, ih (h.drawn _ _ h.cached) (fun k f hc hk hsound =>
        hempty k f hc (Nat.le_of_succ_le hk) fun j h1 h2 => ?_) rfl⟩
      by_cases hj : j = s.ios
      · rw [hj]
        exact hf
      · exact hsound j (by show s.ios + 1 ≤ j; omega) h2
    · exact fun hfree _ => hfree
    · exact fun _ _ => by decide

/-- A free inode that fits the cache is found. -/
theorem allocates_of_low {s : Mnt} (h : Listed s) {n : Nat} (hn : FreeIno s n) (hlt : n < 65536) :
    Allocates s := by
  refine allocates_of_empty h fun k f hf _ _ => ?_
  have hl := h.drawn k 0 hf
  have hscan : n < 2 + (v7Maxinode s.fs - 1) := by
    have := hn.low
    have := hn.high
    omega
  refine allocates_of_turn (post_iallocTurn_refill hl rfl ?_ (fun _ _ _ => by decide) fun _ _ => by decide)
  intro t ht _
  obtain ⟨hpos, n', hle, hn', heq⟩ := ht.first h.pos n hn.low hscan (freeIno_drawn.mpr hn)
  refine ⟨_, _, _, ht.only, allocates_of_entry (ht.listed hl) ⟨0, hpos, ?_⟩⟩
  rw [show t.fs.inode 0 = n' from heq.trans (Nat.mod_eq_of_lt (by omega)), ht.only]
  exact freeIno_drawn.mpr hn'

/-- A full i-list is reported. -/
theorem allocates_of_none {s : Mnt} (h : Listed s) (hnone : ∀ n, ¬ FreeIno s n) : Allocates s := by
  refine allocates_of_empty h fun k f hf _ _ => ?_
  refine allocates_of_turn (post_iallocTurn_refill (h.drawn k 0 hf) rfl (fun t ht hpos => ?_)
    (fun _ _ _ => by decide) fun _ _ => by decide)
  obtain ⟨n, hn⟩ := ht.made hpos
  exact absurd (freeIno_drawn.mp hn) (hnone n)

/-- A transfer that fails ends the call when its turn comes. -/
theorem allocates_of_fault {s : Mnt} (h : Listed s) {k : Nat} (hk : s.ios ≤ k)
    (hf : s.env.fails k = true) : Allocates s := by
  generalize hd : k - s.ios = d
  induction d using Nat.strongRecOn generalizing s with
  | _ d ih =>
    refine allocates_of_empty h fun k' f hc hk' hsound => ?_
    have hl := h.drawn k' 0 hc
    have hle : k' ≤ k := by
      by_contra hlt
      exact absurd ((hsound k hk (by omega)).symm.trans hf) (by decide)
    refine allocates_of_turn (post_iallocTurn_refill hl rfl (fun t ht hpos => ?_)
      (fun _ _ _ => by decide) fun _ _ => by decide)
    obtain ⟨n, hn⟩ := ht.made hpos
    have hscan : 0 < v7Maxinode (drawn s k' 0 f).fs - 1 := by
      have := hn.low
      have := hn.high
      omega
    have hmoved : k' < t.ios := ht.moved hscan h.pos
    have hlast : t.ios ≤ k := by
      by_contra hlt
      exact absurd ((ht.sound k hle (by omega)).symm.trans hf) (by decide)
    refine ⟨_, _, _, ht.only, ih (k - t.ios) (by omega) (ht.listed hl) hlast ?_ rfl⟩
    rw [ht.only]
    exact hf

/-- The state a turn leaves is stuck again. -/
theorem Stuck.drawn {s : Mnt} (h : Stuck s) {k m : Nat} {f : Nat → Nat} (hk : s.ios ≤ k) :
    Stuck (drawn s k m f) where
  low n hn hfree := h.low n hn (freeIno_drawn.mp hfree)
  high := h.high.imp fun _ hn => freeIno_drawn.mpr hn
  sound j hj := h.sound j (Nat.le_trans hk hj)

theorem Stuck.diverges {s : Mnt} (h : Listed s) (hs : Stuck s) (fuel : Nat) :
    Post (v7fsIallocLoop fuel s) (fun _ _ => False) fun e _ => e = .diverges := by
  induction fuel generalizing s with
  | zero => exact rfl
  | succ fuel ih =>
    apply post_bind
    cases hm : s.fs.ninode with
    | succ m =>
      refine post_iallocTurn_draw h hm ?_ ?_ ?_ ?_
      · exact fun _ => ih (h.drawn _ _ h.cached) (hs.drawn (Nat.le_refl _))
      · exact fun _ _ => ih (h.drawn _ _ h.cached) (hs.drawn (Nat.le_succ _))
      · exact fun hfree => absurd hfree (hs.low _ (h.cached m))
      · exact fun hf => absurd ((hs.sound _ (Nat.le_refl _)).symm.trans hf) (by decide)
    | zero =>
      refine post_iallocTurn_refill h hm ?_ ?_ ?_
      · intro t ht _
        have hstuck := hs.drawn (m := t.fs.ninode) (f := t.fs.inode) ht.later
        rw [← ht.only] at hstuck
        exact ih (ht.listed h) hstuck
      · intro t ht h0
        obtain ⟨n, hn⟩ := hs.high
        have hscan : n < 2 + (v7Maxinode s.fs - 1) := by
          have := hn.low
          have := hn.high
          omega
        have hpos := (ht.first (hm ▸ h.pos) n hn.low hscan hn).1
        omega
      · intro hr
        obtain ⟨j, hj, hf⟩ := hr
        exact absurd ((hs.sound j hj).symm.trans hf) (by decide)

/-- The call returns unless only numbers past the cache's 16 bits are free, and every transfer goes through. -/
theorem allocates_iff {s : Mnt} (h : Listed s) : Allocates s ↔ ¬ Stuck s := by
  constructor
  · intro hrun hs
    obtain ⟨fuel, hfuel⟩ := hrun
    have hboth := hfuel.and (hs.diverges h fuel)
    cases hr : v7fsIallocLoop fuel s with
    | ok n t =>
      rw [hr] at hboth
      exact hboth.2
    | error e t =>
      rw [hr] at hboth
      exact hboth.1 hboth.2
  · intro hs
    by_cases hlow : ∃ n, n < 65536 ∧ FreeIno s n
    · obtain ⟨n, hlt, hn⟩ := hlow
      exact allocates_of_low h hn hlt
    · by_cases hfault : ∃ k, s.ios ≤ k ∧ s.env.fails k = true
      · obtain ⟨k, hk, hf⟩ := hfault
        exact allocates_of_fault h hk hf
      · refine allocates_of_none h fun n hn =>
          hs ⟨fun m hm hfree => hlow ⟨m, hm, hfree⟩, ⟨n, hn⟩, fun k hk => ?_⟩
        exact Bool.eq_false_iff.mpr fun hf => hfault ⟨k, hk, hf⟩

/-! ## What `v7fs_open` accepts -/

/-- A format whose inodes are allocated from a cache. -/
structure Cached (d : Desc) : Prop where
  notV1 : d.ops ≠ .v1
  notPdp7 : d.ops ≠ .pdp7
  pos : 0 < d.nicinod

theorem v8BitmapLoad_sameIn (sb : Buf) : Keeps (SameIn fun fs => (fs.desc, fs.inode)) (v8BitmapLoad sb) :=
  SameIn.v8BitmapLoad sb fun _ _ _ _ _ _ => rfl

theorem sbDecode_inode_lt (fs : Fs) (sb : Buf) (i : Nat) : (sbDecode fs sb).inode i < 65536 := by
  have h16 : ∀ o, fs.desc.bo.get16 sb o < 65536 := fun o =>
    Nat.lt_of_lt_of_eq (num_lt (ByteOrder.perm_sig16 _) sb o) (by rw [ByteOrder.length_sig16]; rfl)
  unfold sbDecode
  split
  · exact h16 _
  · split
    · exact h16 _
    · exact h16 _

theorem v7fsOpen_listed {proto : Desc} (hp : Cached proto) (readonly : Bool) (offset : Nat)
    {s₀ : Mnt} (hs : Solo s₀) :
    Post (v7fsOpen readonly proto offset s₀) (fun _ s => Listed s) fun _ _ => True := by
  have hf : SameIn.Incidental fun fs : Fs => (fs.desc, fs.inode) :=
    ⟨fun _ _ _ => rfl, fun _ _ _ _ => rfl, fun _ _ => rfl⟩
  suffices h : Post (v7fsOpen readonly proto offset s₀) (fun _ s => Solo s → Listed s) fun _ _ => True by
    refine (h.and (v7fsOpen_quiet readonly proto offset s₀)).mono (fun _ s hq => hq.1 fun k img => ?_)
      fun _ _ _ => trivial
    rw [hq.2.env]
    exact hs k img
  refine post_bindMod (post_bind
    (post_keeps (SameIn.openImage (f := fun fs => (fs.desc.ops, fs.desc.nicinod))) (fun _ s₁ h₁ => ?_)
    fun _ _ _ => trivial))
  refine post_bind (post_keeps (SameIn.v7OpenSuper (f := fun fs => (fs.desc.ops, fs.desc.nicinod))
    fun _ _ _ => rfl) (fun sb s₂ h₂ => ?_) fun _ _ _ => trivial)
  refine post_bindMod (post_bindFs (post_ite (fun _ => trivial) fun _ => ?_))
  refine post_bind (post_keeps (keeps_onlyIf (sameIn_law _) (keeps_failAs (v8BitmapLoad_sameIn sb)))
    (fun _ s₃ h₃ => ?_) fun _ _ _ => trivial)
  refine post_bind (post_keeps (SameIn.v7OpenTotals hf sb) (fun _ s₄ h₄ => ?_) fun _ _ _ => trivial)
  refine post_bind (post_keeps (keeps_onlyIf (sameIn_law fun fs => (fs.desc, fs.inode))
    (SameIn.modFs fun _ => rfl)) (fun _ s₅ h₅ => ?_) fun _ _ _ => trivial)
  refine post_ite (fun _ => trivial) fun _ => post_get (post_ite (fun _ => trivial) fun hgeo hsolo => ?_)
  have hrow : (s₂.fs.desc.ops, s₂.fs.desc.nicinod) = (proto.ops, proto.nicinod) := h₂.trans h₁
  have hdec : (s₅.fs.desc, s₅.fs.inode) = ((sbDecode s₂.fs sb).desc, (sbDecode s₂.fs sb).inode) :=
    h₅.trans (h₄.trans h₃)
  have hdesc : s₅.fs.desc = (sbDecode s₂.fs sb).desc := congrArg Prod.fst hdec
  have hinode : s₅.fs.inode = (sbDecode s₂.fs sb).inode := congrArg Prod.snd hdec
  have hproto : s₅.fs.desc.ops = proto.ops ∧ s₅.fs.desc.nicinod = proto.nicinod := by
    rw [hdesc, sbDecode_desc]
    exact ⟨congrArg Prod.fst hrow, congrArg Prod.snd hrow⟩
  simp only [not_or] at hgeo
  obtain ⟨hcount, hsize, hdata⟩ := hgeo
  have hfirst : 2 ≤ v7DataFirst s₅.fs := by
    unfold v7DataFirst
    rw [hdesc]
    split at hcount
    · rename_i hc
      rw [if_pos hc]
      omega
    · rename_i hc
      rw [if_neg hc]
      omega
  refine ⟨hsolo, ?_, ?_, ?_, ?_, rfl, ?_, Nat.lt_of_not_le hdata, hfirst⟩
  · exact hproto.1 ▸ hp.notV1
  · exact hproto.1 ▸ hp.notPdp7
  · exact hproto.2 ▸ hp.pos
  · intro i
    show s₅.fs.inode i < 65536
    rw [hinode]
    exact sbDecode_inode_lt _ _ _
  · show s₅.fs.base + s₅.fs.fsize * s₅.fs.desc.bsize ≤ s₅.size
    rw [hdesc]
    exact Nat.le_of_not_lt hsize

theorem cached_geomDesc {a : OpenArgs} {d : Desc} (hd : geomDesc a = .ok d) :
    d.ops ≠ .v1 → d.ops ≠ .pdp7 → Cached d := by
  intro h1 h7
  refine ⟨h1, h7, ?_⟩
  unfold geomDesc at hd
  split at hd
  · split at hd
    · rename_i hed
      obtain ⟨bo, bs, fm, rfl, -, -⟩ := applyGeom_shape hd
      show 0 < (filsysGetformat a.edition).nicinod
      rcases hed with hed | hed | hed <;> rw [hed] <;> decide
    · obtain rfl := Except.ok.inj hd
      cases hed : a.edition <;> rw [hed] at h1 h7 <;> first | decide | exact absurd rfl h1 | exact absurd rfl h7
  · obtain rfl := Except.ok.inj hd
    cases hed : a.edition <;> rw [hed] at h1 h7 <;> first | decide | exact absurd rfl h1 | exact absurd rfl h7

/-- On every image `v7fs_open` accepts, with a format an open settles on, `v7fs_ialloc` returns a free
    inode or an error unless the free inodes are all past 65535 and no transfer fails. -/
theorem ialloc_returns_iff {a : OpenArgs} {fmt : Desc} {r r' s₀ s : Mnt} {readonly : Bool}
    {offset : Nat} (hfmt : openDesc a r = .ok fmt r')
    (hops : fmt.ops ≠ .v1 ∧ fmt.ops ≠ .pdp7) (hsolo : Solo s₀)
    (hopen : v7fsOpen readonly fmt offset s₀ = .ok () s) :
    Allocates s ↔ ¬ Stuck s := by
  have hcached : fmt.ops ≠ .v1 → fmt.ops ≠ .pdp7 → Cached fmt :=
    (openDesc_settles (P := fun d => d.ops ≠ .v1 → d.ops ≠ .pdp7 → Cached d)
      (fun h _ _ _ _ h1 h7 => ⟨h1, h7, (h h1 h7).pos⟩) (fun _ hd => cached_geomDesc hd) r).of_ok hfmt
  exact allocates_iff ((v7fsOpen_listed (hcached hops.1 hops.2) readonly offset hsolo).of_ok hopen)

/-! ## Two volumes -/

/-- A V8 volume of 65536 inodes: the last is free, the others are live. -/
def lastFree : Mnt where
  fs := { desc := descV8 }
  img := fun i =>
    if i < 2048 then if i = 1024 then 2 else if i = 1028 then 4 else if i = 1025 ∨ i = 1029 then 16 else 0
    else if i < 4196288 then 1 else 0
  size := 4198400

/-- The volume as `v7fs_open` leaves it. -/
def lastFreeOpened : Mnt :=
  { lastFree with
    fs := { sbDecode { desc := descV8 } (window lastFree.img 1024 1024) with imgsize := 4198400 }, ios := 1 }

theorem lastFree_opens : v7fsOpen false descV8 0 lastFree = .ok () lastFreeOpened := by rfl

theorem lastFree_mode {n : Nat} (h1 : 1 ≤ n) (hn : n ≤ 65536) :
    (inodeOf lastFreeOpened.fs lastFreeOpened.img n).mode = if n < 65536 then 257 else 0 := by
  have hbyte : ∀ i, i < 2 → blockOf lastFreeOpened.fs lastFreeOpened.img (2 + (n - 1) / 16) ((n - 1) %
    16 * 64 + i) = if n < 65536 then 1 else 0 := by
    intro i hi
    show window lastFree.img (0 + (2 + (n - 1) / 16) * 1024) 1024 _ = _
    unfold window lastFree
    simp only
    rw [if_pos (by omega), if_neg (by omega)]
    by_cases hlt : n < 65536
    · rw [if_pos (by omega), if_pos hlt]
    · rw [if_neg (by omega), if_neg hlt]
  show num [0, 1] (blockOf lastFreeOpened.fs lastFreeOpened.img (2 + (n - 1) / 16)) ((n - 1) % 16 * 64) = _
  simp only [num, hbyte 1 (by decide)]
  rw [show (n - 1) % 16 * 64 = (n - 1) % 16 * 64 + 0 from rfl, hbyte 0 (by decide)]
  split <;> rfl

theorem lastFree_live {n : Nat} (h1 : 1 ≤ n) (hn : n ≤ 65536) : LiveIno lastFreeOpened n ↔ n < 65536 := by
  show ((inodeOf lastFreeOpened.fs lastFreeOpened.img n).mode % 65536 != 0) = true ↔ _
  rw [lastFree_mode h1 hn]
  split
  · exact ⟨fun _ => ‹_›, fun _ => by decide⟩
  · exact ⟨fun h => absurd h (by decide), fun h => absurd h ‹_›⟩

theorem lastFree_max : v7Maxinode lastFreeOpened.fs = 65536 := by decide +kernel

theorem lastFree_stuck : Stuck lastFreeOpened where
  low n hn hfree := hfree.free ((lastFree_live (Nat.le_trans (by decide) hfree.low) (Nat.le_of_lt hn)).mpr hn)
  high := ⟨65536, by decide, Nat.le_of_eq lastFree_max.symm, fun h =>
    absurd ((lastFree_live (by decide) (Nat.le_refl _)).mp h) (by decide)⟩
  sound _ _ := rfl

/-- Its one free inode goes onto the cache as number 0, and the call looks for ever. -/
theorem an_inode_past_the_cache_is_sought_for_ever :
    openDesc { edition := .v8 } lastFree = .ok descV8 lastFree ∧
    v7fsOpen false descV8 0 lastFree = .ok () lastFreeOpened ∧
      ¬ Allocates lastFreeOpened := by
  refine ⟨rfl, lastFree_opens, fun h => ?_⟩
  have hlisted : Listed lastFreeOpened :=
    (@v7fsOpen_listed descV8 ⟨by decide, by decide, by decide⟩ false 0 lastFree fun _ _ =>
      rfl).of_ok lastFree_opens
  exact (allocates_iff hlisted).mp h lastFree_stuck

/-- A V8 volume with sixteen inodes, all free. -/
def allFree : Mnt where
  fs := { desc := descV8 }
  img := fun i => if i = 1024 then 3 else if i = 1028 then 5 else 0
  size := 5120

def allFreeOpened : Mnt :=
  { allFree with
    fs := { sbDecode { desc := descV8 } (window allFree.img 1024 1024) with imgsize := 5120 }, ios := 1 }

theorem an_empty_volume_gives_an_inode : Allocates allFreeOpened := by
  have hopen : v7fsOpen false descV8 0 allFree = .ok () allFreeOpened := by rfl
  refine (ialloc_returns_iff (a := { edition := .v8 }) (r := allFree) rfl ⟨by decide, by decide⟩
    (fun _ _ => rfl) hopen).mpr fun hs => ?_
  exact hs.low 2 (by decide) ⟨by decide, by decide +kernel, by decide +kernel⟩

end Filsys.Alloc
