/-
  Filsys.Alloc.Faults — what a failed allocation costs.

  `StillOut s b` says that calls without failing transfers can still hand out `b`. When one
  transfer of a `v7fs_balloc` fails, the block it was about to hand out may be lost, and
  nothing else, except where the failing transfer is the read of the chain block at the
  bottom of the cache: the count has already gone to zero then, and everything chained
  behind is cut off (`failed_balloc_costs_one_iff`).
-/

import Filsys.Alloc.Drain
import Filsys.Alloc.Prefix

namespace Filsys.Alloc

open Filsys.Lib Filsys.Engine

/-! ## What can still be handed out -/

/-- The mount with every transfer to come going through. -/
def mended (s : Mnt) : Mnt := { s with env := { s.env with fails := fun _ => false } }

/-- Calls from here on can hand out `b`. -/
def StillOut (s : Mnt) (b : Nat) : Prop := ∃ L, Drains (mended s) L ∧ b ∈ L

theorem Drains.unique {s : Mnt} {L L' : List Nat} (h : Drains s L) (h' : Drains s L') : L = L' := by
  induction h generalizing L' with
  | done hr =>
    cases h' with
    | done => rfl
    | more hr' _ =>
      rw [hr] at hr'
      cases hr'
  | more hr _ ih =>
    cases h' with
    | done hr' =>
      rw [hr] at hr'
      cases hr'
    | more hr' ht' =>
      rw [hr] at hr'
      cases hr'
      rw [ih ht']

theorem Drains.stillOut {s : Mnt} {L : List Nat} (h : Drains (mended s) L) (b : Nat) :
    StillOut s b ↔ b ∈ L := by
  constructor
  · rintro ⟨L', h', hb⟩
    rwa [h.unique h']
  · exact fun hb => ⟨L, h, hb⟩

theorem Chain.listing {fs : Fs} {img : Buf} {c : Cache} {L K : List Nat} (h : Chain fs img c L K)
    (hfirst : 2 ≤ v7DataFirst fs) :
    Listing fs img c L K := by
  have hne : ∀ {b : Nat}, InData fs b → b ≠ 0 := by
    intro b hb
    have := hb.1
    omega
  induction h with
  | empty => exact .empty
  | sentinel h0 => exact .zero h0
  | bottom hb hle _ ih => exact .bottom hb (hne hb) hle ih
  | entry hb _ ih => exact .entry hb (hne hb) ih

theorem Mounted.mended {s : Mnt} (h : Mounted s) : Mounted (mended s) :=
  ⟨h.solo, h.notPdp7, h.writable, h.bsize, h.v1Bsize, h.fits, h.imgsize, h.first, h.room, h.last⟩

/-- A well-formed list is what can still be handed out. -/
theorem Core.stillOut {s : Mnt} {L K : List Nat} (hm : Mounted s) (hl : ListLayout s.fs)
    (hc : Core s L K) (b : Nat) : StillOut s b ↔ b ∈ L := by
  have hfirst : 2 ≤ v7DataFirst s.fs := by
    have := hm.first
    rwa [dataStart_eq hl] at this
  exact Drains.stillOut ((hc.chain.listing hfirst).drains (s := Alloc.mended s) (Mounted.mended hm)
    hfirst (fun _ => rfl) hc.nodup) b

/-! ## One failing transfer -/

/-- From `s` to `t` at most the block `b` has been lost. -/
def CostsAtMost (b : Nat) (s t : Mnt) : Prop :=
  (∀ x, StillOut t x → StillOut s x) ∧ ∀ x, StillOut s x → x ≠ b → StillOut t x

/-- Whatever error the call ends with, it has cost at most the block it was allocating. -/
def CostsOne (s : Mnt) : Prop := ∀ e t, v7fsBalloc s = .error e t → CostsAtMost (s.fs.free (s.fs.nfree - 1)) s t

section Call

variable {s : Mnt} {L K : List Nat} (hm : Mounted s) (hl : ListLayout s.fs) (hc : Core s L K)

include hc in
/-- The top of the list is the last cached entry. -/
theorem Core.top {b : Nat} {L' : List Nat} (hL : L = b :: L') : s.fs.free (s.fs.nfree - 1) = b := by
  subst hL
  rcases hc.chain.shapes with ⟨-, h, -⟩ | ⟨-, -, h, -⟩ | ⟨hn, L', K', h, -⟩ | ⟨m, L', hn, h, -⟩
  · cases h
  · cases h
  · rw [hn, (List.cons.inj h).1]
  · rw [hn, (List.cons.inj h).1]
    rfl

include hm hl hc

/-- An error that leaves the list, or the list without its top. -/
theorem costsAtMost_of_tail {t : Mnt} {L' K' : List Nat} (hvol : SameVol s t) (ht : Core t L' K')
    (h : (∀ x ∈ L', x ∈ L) ∧ ∀ x ∈ L, x ≠ s.fs.free (s.fs.nfree - 1) → x ∈ L') :
    CostsAtMost (s.fs.free (s.fs.nfree - 1)) s t := by
  have hafter := Core.stillOut (hm.of_sameVol hvol) (hl.of_shape hvol.shape) ht
  have hbefore := Core.stillOut hm hl hc
  constructor
  · intro x hx
    exact (hbefore x).mpr (h.1 x ((hafter x).mp hx))
  · intro x hx hne
    exact (hafter x).mpr (h.2 x ((hbefore x).mp hx) hne)

theorem costsOne_of_later (hok : ¬ (s.fs.nfree = 1 ∧ s.env.fails s.ios = true ∧ 1 < L.length)) :
    CostsOne s := by
  have hpost : Post (v7fsBalloc s) (fun _ _ => True) fun _ t =>
    CostsAtMost (s.fs.free (s.fs.nfree - 1)) s t := by
    refine post_v7fsBalloc_each hm hl hc (fun _ _ _ _ _ => trivial) (fun _ _ _ _ _ _ _ => trivial) ?_ ?_ ?_
    · rintro rfl hcore
      exact costsAtMost_of_tail hm hl hc (popEntry_sameVol s) hcore ⟨fun x hx => hx, fun x hx _ => hx⟩
    · intro e t hn hf hne hcore hvol _
      obtain ⟨b, rfl⟩ : ∃ b, L = [b] := by
        cases L with
        | nil => exact absurd rfl hne
        | cons b L' =>
          cases L' with
          | nil => exact ⟨b, rfl⟩
          | cons _ _ => exact absurd ⟨hn, hf, by simp⟩ hok
      refine costsAtMost_of_tail hm hl hc hvol hcore ⟨fun x hx => absurd hx List.not_mem_nil,
        fun x hx hx' => ?_⟩
      rw [hc.top rfl] at hx'
      exact absurd (List.mem_singleton.mp hx) hx'
    · rintro e t b L' K' rfl _ _ hcore hvol _
      refine costsAtMost_of_tail hm hl hc hvol hcore ⟨fun x hx => List.mem_cons_of_mem _ hx, fun x hx hx' => ?_⟩
      rw [hc.top rfl] at hx'
      exact (List.mem_cons.mp hx).resolve_left hx'
  exact fun e t hr => hpost.of_error hr

/-- The failing read of the chain block cuts off what is behind it. -/
theorem not_costsOne_of_cut (hn : s.fs.nfree = 1) (hf : s.env.fails s.ios = true)
    (hlen : 1 < L.length) : ¬ CostsOne s := by
  intro h
  have hpost : Post (v7fsBalloc s) (fun _ _ => False) fun _ t => Core t [] [] ∧ SameVol s t := by
    refine post_v7fsBalloc_each hm hl hc (fun _ _ _ hne _ => hne hn) ?_ ?_ ?_ ?_
    · intro _ _ _ _ _ hok _
      exact absurd (hok.symm.trans hf) (by decide)
    · rintro rfl -
      exact absurd hlen (by decide)
    · exact fun _ _ _ _ _ hcore hvol _ => ⟨hcore, hvol⟩
    · exact fun _ _ _ _ _ _ hok _ _ _ _ => absurd ((hok hn).symm.trans hf) (by decide)
  cases hr : v7fsBalloc s with
  | ok b t =>
    rw [hr] at hpost
    exact hpost
  | error e t =>
    rw [hr] at hpost
    obtain ⟨hcore, hvol⟩ := hpost
    match L, hc, hlen with
    | b :: c :: L', hc, _ =>
      have hcs : StillOut s c := (Core.stillOut hm hl hc c).mpr (by simp)
      have hne : c ≠ s.fs.free (s.fs.nfree - 1) := by
        rw [hc.top rfl]
        rintro rfl
        exact (List.nodup_cons.mp hc.nodup).1 List.mem_cons_self
      have hct := (h e t hr).2 c hcs hne
      exact List.not_mem_nil ((Core.stillOut (hm.of_sameVol hvol) (hl.of_shape hvol.shape) hcore c).mp hct)

/-- With one transfer `k` failing, a failed call costs at most its own block exactly when it is not the
    read of the chain block at the bottom of the cache that fails, with more blocks chained behind it.
    -/
theorem failed_balloc_costs_one_iff {k : Nat} (hk : s.env.fails = fun j => j == k) :
    CostsOne s ↔ ¬ (s.fs.nfree = 1 ∧ k = s.ios ∧ 1 < L.length) := by
  have hfails : s.env.fails s.ios = true ↔ k = s.ios := by
    rw [hk]
    exact beq_iff_eq.trans eq_comm
  constructor
  · intro h hr
    obtain ⟨hn, hios, hlen⟩ := hr
    exact not_costsOne_of_cut hm hl hc hn (hfails.mpr hios) hlen h
  · intro h
    exact costsOne_of_later hm hl hc fun ⟨hn, hf, hlen⟩ => h ⟨hn, hfails.mp hf, hlen⟩

end Call

/-! ## Two volumes -/

/-- A V7 volume whose cache is down to block 3. -/
def chainedFs : Fs where
  desc := descV7
  isize := 3
  fsize := 5
  imgsize := 2560
  nfree := 1
  free := fun i => if i = 0 then 3 else 0

/-- The mount, with block 4 chained behind that one. -/
def chained (f : Nat → Bool) : Mnt where
  fs := chainedFs
  img := putBlock { desc := descV7 } zeroBuf 3 (dumpBuf descV7 2 fun i => if i = 1 then 4 else 0)
  size := 2560
  env := { fails := f }

theorem chained_layout : ListLayout chainedFs := by
  constructor <;> first | decide | exact ⟨by decide, by decide, by decide⟩

variable (f : Nat → Bool)

theorem chained_core : Core (chained f) [3, 4] [3] := by
  have hbehind : Chain chainedFs zeroBuf (2, fun i => if i = 1 then 4 else 0) [4] [] :=
    .entry (n := 0) ⟨by decide, by decide⟩ (.sentinel rfl)
  have hchain := hbehind.dump chained_layout (by decide) (show ∀ i < 2, (if i = 1 then 4 else 0) <
    chainedFs.fsize by decide) (b := 3) ⟨by decide, by decide⟩ (by decide) fun _ => 0
  exact ⟨hchain.congr rfl (fun _ _ => rfl) rfl fun _ _ => rfl, show 1 ≤
    chainedFs.desc.nicfree by decide, by decide⟩

theorem chained_mounted : Mounted (chained f) := by
  have hd : chainedFs.desc.ops ≠ .pdp7 ∧ 512 ≤ chainedFs.desc.bsize ∧
    (chainedFs.desc.ops = .v1 → chainedFs.desc.bsize = 512) := by
    decide
  have hvol : chainedFs.base + chainedFs.fsize * chainedFs.desc.bsize ≤ 2560 ∧ 2 ≤ opsDataStart chainedFs ∧
      opsDataStart chainedFs < opsDataEnd chainedFs ∧ opsDataEnd chainedFs ≤ chainedFs.fsize := by decide
  exact ⟨fun _ _ => rfl, hd.1, rfl, hd.2.1, hd.2.2, hvol.1, rfl, hvol.2.1, hvol.2.2.1, hvol.2.2.2⟩

/-- The failing read of block 3 loses block 4 as well. -/
theorem a_failed_chain_read_loses_the_list_behind_it : ∃ s, Mounted s ∧ ListLayout s.fs ∧ Core s [3, 4] [3] ∧
    (s.env.fails = fun j => j == 0) ∧ ¬ CostsOne s := by
  let f : Nat → Bool := fun j => j == 0
  refine ⟨chained f, chained_mounted f, chained_layout, chained_core f, rfl, ?_⟩
  exact not_costsOne_of_cut (chained_mounted f) chained_layout (chained_core f) rfl rfl (by decide)

/-- Once the chain block is read, the failing zeroing of block 3 loses nothing else. -/
theorem a_failed_zeroing_loses_one_block : CostsOne (chained fun j => j == 1) :=
  (failed_balloc_costs_one_iff (chained_mounted _) chained_layout (chained_core _) (k := 1) rfl).mpr (by decide)

end Filsys.Alloc
