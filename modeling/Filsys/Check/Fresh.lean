/-
  Filsys.Check.Fresh — the inode allocator after a clean report.

  The checker calls an inode free when its mode word says so (`inode_state`). The
  allocators do not all ask the same question: V6 looks at the allocated bit alone,
  V1 at its inode map. `fresh_iff` says that after a clean report the allocator hands
  out only inodes the checker saw free exactly when every inode the allocator would take
  has the mode of a free one; V7, its relatives and the PDP-7 always do
  (`agrees_of_same_test`), V6 and V1 need not (`a_clean_v6_volume_gives_a_file_away`).
  A run of allocations takes nothing its first call would not have taken (`Drawing`), so
  the answer holds for all of them (`fresh_run`, `fresh_of_same_test`).
-/

import Filsys.Engine.Keep
import Filsys.Engine.Peek
import Filsys.Engine.Record
import Filsys.Engine.Words
import Filsys.Check.Sound

namespace Filsys.Check

open Filsys.Lib Filsys.Engine

/-! ## Classification -/

/-- The mode word of inode `n` on the image. -/
def modeWord (fs : Fs) (img : Buf) (n : Nat) : Nat :=
  if fs.desc.ops = .pdp7 then wordsOf fs img (p7Itod n) (p7Itoo n) else (recordOf fs img n).mode

/-- What the checker's first pass over `s` took inode `n` for. -/
def classified (s : Mnt) (n : Nat) : InState :=
    valueOf (markInodes (opsMaxino s.fs) 1 fun _ => .unalloc) (s, {}) n

/-- Inode reads report the mode word; they fail only when `sure` does not hold. -/
def ReadsMode (s : Mnt) (sure : Prop) : Prop :=
  ∀ n k, 1 ≤ n → n ≤ opsMaxino s.fs →
    Post (readInode n { s with ios := k }) (fun ip _ => ip.mode = modeWord s.fs s.img n) (fun _ _ => ¬ sure)

theorem solo_ios {s : Mnt} (hs : Solo s) (k : Nat) : Solo { s with ios := k } := hs

theorem markInodes_state {s : Mnt} (hs : Solo s) {sure : Prop} (hread : ReadsMode s sure)
    (todo n : Nat) (state : Nat → InState)
    (k : Nat) (c : Chk) (hn : 1 ≤ n) (htop : n + todo ≤ opsMaxino s.fs + 1) :
    Post (markInodes todo n state ({ s with ios := k }, c)) (fun st _ =>
      (∀ i, i < n → st i = state i) ∧ (∀ i, n + todo ≤ i → st i = state i) ∧
      ∀ i, n ≤ i → i < n + todo → (st i = state i ∨ st i = inodeState s.fs.desc i (modeWord s.fs s.img i)) ∧
        (sure → st i = inodeState s.fs.desc i (modeWord s.fs s.img i))) (fun _ _ => True) := by
  induction todo generalizing n state k c with
  | zero => exact ⟨fun _ _ => rfl, fun _ _ => rfl, fun i hlo hhi => absurd hhi (by omega)⟩
  | succ todo ih =>
    refine post_engFs (post_bind (post_outside (post_attempt ?_)))
    refine ((hread n k hn (by omega)).and (readInode_peeks n _)).mono ?_ ?_
    · intro ip t hr
      obtain ⟨hmode, ht⟩ := hr
      obtain ⟨k', -, rfl⟩ := ht (solo_ios hs k)
      refine post_bind ((markInode_peeks _ n ip _).mono ?_ fun _ _ _ => trivial)
      intro _ r ht
      obtain ⟨t, c'⟩ := r
      obtain ⟨k'', -, hk⟩ := ht (solo_ios hs k')
      have hk' : t = { s with ios := k'' } := hk
      subst hk'
      refine (ih (n + 1) _ k'' c' (by omega) (by omega)).mono ?_ fun _ _ h => h
      intro st _ hr
      obtain ⟨hlow, hhigh, hmid⟩ := hr
      refine ⟨fun i hi => ?_, fun i hi => ?_, fun i hlo hhi => ?_⟩
      · rw [hlow i (by omega), if_neg (by omega)]
      · rw [hhigh i (by omega), if_neg (by omega)]
      · rcases Nat.eq_or_lt_of_le hlo with rfl | hlt
        · have hst := hlow n (Nat.lt_succ_self n)
          rw [if_pos rfl, hmode] at hst
          exact ⟨.inr hst, fun _ => hst⟩
        · have h := hmid i hlt (by omega)
          rwa [if_neg (by omega)] at h
    · intro e t hr
      obtain ⟨hsure, ht⟩ := hr
      obtain ⟨k', -, rfl⟩ := ht (solo_ios hs k)
      refine (ih (n + 1) state k' _ (by omega) (by omega)).mono ?_ fun _ _ h => h
      intro st _ hr
      obtain ⟨hlow, hhigh, hmid⟩ := hr
      refine ⟨fun i hi => hlow i (by omega), fun i hi => hhigh i (by omega), fun i hlo hhi => ?_⟩
      rcases Nat.eq_or_lt_of_le hlo with rfl | hlt
      · exact ⟨.inl (hlow n (Nat.lt_succ_self n)), fun h => absurd h hsure⟩
      · exact hmid i hlt (by omega)

theorem readsMode_mounted {s : Mnt} (hm : Mounted s) : ReadsMode s (∀ k, s.env.fails k = false) := by
  intro n k h1 hn
  have hm' : Mounted { s with ios := k } := hm.of_sameVol ⟨rfl, rfl, rfl⟩
  refine hm'.post_readInode ?_ (fun hbad => absurd (validIno_of_le hm.first hm.notPdp7 h1 hn) hbad) ?_
  · intro _
    show _ = modeWord s.fs s.img n
    rw [modeWord, if_neg hm.notPdp7]
  · intro hf _ hsure
    have hf' : s.env.fails k = true := hf
    rw [hsure k] at hf'
    cases hf'

theorem readsMode_mounted7 {s : Mnt} (hm : Mounted7 s) : ReadsMode s False := by
  intro n k h1 hn
  have hm' : Mounted7 { s with ios := k } := hm.of_sameVol ⟨rfl, rfl, rfl⟩
  have hmode : ∀ o, (p7DecodeInode n fun i => wordsOf s.fs s.img (p7Itod n) (o + i)).mode =
    wordsOf s.fs s.img (p7Itod n) o := by
    intro o
    rfl
  rw [hm'.readInode_eq]
  refine post_ite (fun _ => id) fun _ =>
    post_bind (post_failAs (hm'.post_readWords (fun _ _ => ?_) (fun _ _ => id) fun _ _ => id))
  rw [modeWord, if_pos hm.pdp7, ← hmode]
  refine post_ite (fun _ => post_bind (post_inside ?_)) fun _ => rfl
  refine post_keeps (inodeReadWord_peeks _) (fun lastw _ _ => ?_) fun _ _ _ => rfl
  show (if lastw % 512 = 0 then _ else _ : Inode).mode = _
  split
  · rfl
  · rfl

/-! ## Allocation -/

/-- Inode `n` is one the allocator would take: not marked in V1's map, without the used
    flag on the PDP-7, and not live for the rest, whose cache holds 16-bit numbers. -/
def TakenForFree (fs : Fs) (img : Buf) (n : Nat) : Prop :=
  match fs.desc.ops with
  | .v1 => 41 ≤ n ∧ n ≤ fs.maxino ∧ getBit fs.inodemap (n - 41) = false
  | .pdp7 => 1 ≤ n ∧ n ≤ p7Maxino ∧ has (modeWord fs img n) 0o400000 = false
  | _ => 2 ≤ n ∧ n ≤ v7Maxinode fs ∧ n < 65536 ∧ inodeLive fs.desc (modeWord fs img n % 65536) = false

/-- The allocator's state at some later time: any free-inode cache, and no inode given
    back to V1's map. -/
structure Later (fs fs' : Fs) : Prop where
  shape : shape fs' = shape fs
  cache : ∀ k, fs'.inode k < 65536
  map : ∀ i, getBit fs.inodemap i = true → getBit fs'.inodemap i = true

/-- The mount `s`, read, its free-inode cache used. -/
structure Searching (s t : Mnt) : Prop extends SameVol s t where
  img : t.img = s.img
  cache : ∀ k, t.fs.inode k < 65536

theorem Searching.peek {s t u : Mnt} (hs : Solo s) (h : Searching s t) (hp : ReadOnly t u) : Searching s u := by
  obtain ⟨k, -, rfl⟩ := hp (by intro i img; rw [h.env]; exact hs i img)
  exact ⟨⟨h.shape, h.size, h.env⟩, h.img, h.cache⟩

theorem shape_modeWord {fs fs' : Fs} (h : shape fs' = shape fs) : modeWord fs' = modeWord fs := by
  funext img n
  unfold modeWord wordsOf wordPos
  rw [shape_desc h, shape_base h, shape_recordOf h]

section Family

variable {s : Mnt} (hm : Mounted s) (hv : s.fs.desc.ops ≠ .v1)

include hm

theorem searching_readInode {t : Mnt} (ht : Searching s t) {n : Nat} (h1 : 1 ≤ n) (hn : n ≤ opsMaxino s.fs) :
    Post (readInode n t) (fun ip u => ip.mode = modeWord s.fs s.img n ∧ Searching s u)
    (fun _ u => Searching s u) := by
  have hread := readsMode_mounted (hm.of_sameVol ht.toSameVol) n t.ios h1
    (by rw [shape_opsMaxino ht.shape]; exact hn)
  refine (hread.and (readInode_peeks n t)).mono ?_ ?_
  · intro ip u h
    obtain ⟨hmode, hp⟩ := h
    rw [shape_modeWord ht.shape, ht.img] at hmode
    exact ⟨hmode, ht.peek hm.solo hp⟩
  · intro e u h
    obtain ⟨-, hp⟩ := h
    exact ht.peek hm.solo hp

theorem searching_refill (todo n : Nat) (t : Mnt) (ht : Searching s t) (h1 : 1 ≤ n)
    (hn : ∀ i, n ≤ i → i < n + todo → i ≤ opsMaxino s.fs) :
    Post (refill todo n t) (fun _ u => Searching s u) (fun _ u => Searching s u) := by
  induction todo generalizing n t with
  | zero => exact ht
  | succ todo ih =>
    refine post_bindFs (post_ite (fun _ => ?_) fun _ => ht)
    refine post_bind (post_failAs
      ((searching_readInode hm ht h1 (hn n (Nat.le_refl n) (by omega))).mono ?_ fun _ _ h => h))
    intro ip u hr
    obtain ⟨-, hu⟩ := hr
    refine post_bind (post_onlyIf (fun _ => ?_) fun _ => ih (n + 1) u hu (by omega) fun i hlo hhi =>
      hn i (by omega) (by omega))
    refine ih (n + 1) _ ⟨⟨hu.shape, hu.size, hu.env⟩, hu.img, fun k => ?_⟩ (by omega) fun i hlo hhi =>
      hn i (by omega) (by omega)
    show (if k = u.fs.ninode then n % 65536 else u.fs.inode k) < 65536
    split
    · exact Nat.mod_lt _ (by decide)
    · exact hu.cache k

include hv

theorem opsMaxino_eq : opsMaxino s.fs = v7Maxinode s.fs := by
  unfold opsMaxino
  split
  · exact absurd ‹_› hv
  · exact absurd ‹_› hm.notPdp7
  · rfl

theorem takenForFree_iff {n : Nat} : TakenForFree s.fs s.img n ↔
    2 ≤ n ∧ n ≤ v7Maxinode s.fs ∧ n < 65536 ∧ inodeLive s.fs.desc (modeWord s.fs s.img n % 65536) = false := by
  unfold TakenForFree
  split
  · exact absurd ‹_› hv
  · exact absurd ‹_› hm.notPdp7
  · rfl

theorem iallocTurn_takes {t : Mnt} (ht : Searching s t) :
    Post (iallocTurn t) (fun r u => match r with
      | some n => TakenForFree s.fs s.img n
      | none => Searching s u) (fun _ _ => True) := by
  have hmax : v7Maxinode t.fs = v7Maxinode s.fs := shape_maxinode ht.shape
  refine post_bindFs (post_ite ?_ ?_)
  · intro _
    have hcand := ht.cache (t.fs.ninode - 1)
    generalize hc : t.fs.inode (t.fs.ninode - 1) = cand at hcand
    have hpop : Searching s { t with fs := { t.fs with ninode := t.fs.ninode - 1 } } :=
      ⟨⟨ht.shape, ht.size, ht.env⟩, ht.img, ht.cache⟩
    apply post_bindMod
    rw [hmax]
    refine post_ite (fun _ => hpop) fun hrange => ?_
    refine post_bind (post_failAs
      ((searching_readInode hm hpop (n := cand) (by omega) (by rw [opsMaxino_eq hm hv]; omega)).mono ?_
      fun _ _ _ => trivial))
    intro ip u h
    obtain ⟨hmode, hu⟩ := h
    refine post_ite (fun _ => hu) fun hlive => ?_
    have hfree : TakenForFree s.fs s.img cand := by
      refine (takenForFree_iff hm hv).mpr ⟨by omega, by omega, hcand, ?_⟩
      rw [← hmode]
      have hdesc : t.fs.desc = s.fs.desc := shape_desc ht.shape
      rw [← hdesc]
      exact Bool.eq_false_iff.mpr hlive
    refine post_bind (post_attempt ?_)
    exact (post_true (writeInode cand { ino := cand } u)).mono (fun _ _ _ => hfree) fun _ _ _ => hfree
  · intro _
    refine post_bindMod (post_bind ?_)
    have hempty : Searching s { t with fs := { t.fs with ninode := 0 } } :=
      ⟨⟨ht.shape, ht.size, ht.env⟩, ht.img, ht.cache⟩
    refine (searching_refill hm _ 2 _ hempty (by omega) ?_).mono ?_ fun _ _ _ => trivial
    · intro i hlo hhi
      rw [opsMaxino_eq hm hv]
      omega
    · intro _ u hu
      exact post_bindFs (post_ite (fun _ => trivial) fun _ => hu)

theorem v7fsIallocLoop_takes (fuel : Nat) {t : Mnt} (ht : Searching s t) :
    Post (v7fsIallocLoop fuel t) (fun n _ => TakenForFree s.fs s.img n) (fun _ _ => True) := by
  induction fuel generalizing t with
  | zero => exact trivial
  | succ fuel ih =>
    refine post_bind ((iallocTurn_takes hm hv ht).mono ?_ fun _ _ _ => trivial)
    intro r u hr
    cases r with
    | some n => exact hr
    | none => exact ih hr

end Family

theorem firstClear_some {bits : Buf} {n i j : Nat} (h : firstClear bits n i = some j) :
    i ≤ j ∧ j < i + n ∧ getBit bits j = false := by
  induction n generalizing i with
  | zero => cases h
  | succ n ih =>
    rw [firstClear] at h
    split at h
    · obtain ⟨hlo, hhi, hb⟩ := ih h
      exact ⟨by omega, by omega, hb⟩
    · rename_i hb
      cases h
      exact ⟨Nat.le_refl _, by omega, by simpa using hb⟩

theorem v1fsIalloc_takes {s t : Mnt} (hv : s.fs.desc.ops = .v1) (hl : Later s.fs t.fs) :
    Post (v1fsIalloc t) (fun n _ => TakenForFree s.fs s.img n) (fun _ _ => True) := by
  apply post_bindFs
  cases hbit : firstClear t.fs.inodemap (t.fs.maxino + 1 - 41) 0 with
  | none => exact trivial
  | some bit =>
    obtain ⟨-, hlt, hclear⟩ := firstClear_some hbit
    rw [shape_maxino hl.shape] at hlt
    show TakenForFree s.fs s.img (bit + 41)
    unfold TakenForFree
    rw [hv]
    refine ⟨by omega, by omega, ?_⟩
    rw [Nat.add_sub_cancel]
    by_contra hset
    rw [hl.map bit (by simpa using hset)] at hclear
    cases hclear

theorem p7fsIallocFrom_takes {s t : Mnt} (hm : Mounted7 s) (ht : SameVol s t) (himg : t.img = s.img)
    (todo i : Nat) (h1 : 1 ≤ i)
    (htop : i + todo ≤ p7Maxino + 1) :
    Post (p7fsIallocFrom todo i t) (fun n _ => TakenForFree s.fs s.img n) (fun _ _ => True) := by
  induction todo generalizing i t with
  | zero => exact trivial
  | succ todo ih =>
    have hm' := hm.of_sameVol ht
    refine post_bind (post_failAs (hm'.post_readWords (fun _ _ => ?_) (fun _ _ => trivial) fun _ _ => trivial))
    refine post_ite (fun _ => ih (t := ticked t) ⟨ht.shape, ht.size, ht.env⟩ himg (i + 1) (by omega)
      (by omega)) fun hfree => ?_
    have hwords : wordsOf t.fs t.img (p7Itod i) (p7Itoo i) = modeWord s.fs s.img i := by
      have hmode : modeWord t.fs t.img i = wordsOf t.fs t.img (p7Itod i) (p7Itoo i) := if_pos hm'.pdp7
      rw [← hmode, shape_modeWord ht.shape, himg]
    have htaken : TakenForFree s.fs s.img i := by
      unfold TakenForFree
      rw [hm.pdp7]
      refine ⟨h1, by omega, ?_⟩
      rw [← hwords]
      exact Bool.eq_false_iff.mpr hfree
    refine post_bind (post_failAs ((post_true _).mono ?_ fun _ _ _ => trivial))
    intro _ _ _
    exact htaken

/-- Byte- or word-addressed, mounted read-write. -/
def MountedEither (s : Mnt) : Prop := Mounted s ∨ Mounted7 s

/-- Whatever the allocator hands out later is an inode it takes for free now. -/
theorem ialloc_takes {s : Mnt} (hm : MountedEither s) {fs' : Fs} (hl : Later s.fs fs') (k : Nat) :
    Post (ialloc { s with fs := fs', ios := k }) (fun n _ => TakenForFree s.fs s.img n) (fun _ _ => True) := by
  have hdesc : fs'.desc = s.fs.desc := shape_desc hl.shape
  have hsame : SameVol s { s with fs := fs', ios := k } := ⟨hl.shape, rfl, rfl⟩
  show Post ((match fs'.desc.ops with
    | .v1 => v1fsIalloc
    | .pdp7 => p7fsIalloc
    | _ => v7fsIalloc : M Nat) _) _ _
  rw [hdesc]
  rcases hm with hm | hm
  · by_cases hv : s.fs.desc.ops = .v1
    · rw [hv]
      exact v1fsIalloc_takes hv hl
    · have hloop := v7fsIallocLoop_takes hm hv s.env.fuel (t := { s with fs := fs', ios := k })
        ⟨hsame, rfl, hl.cache⟩
      cases hops : s.fs.desc.ops with
      | v1 => exact absurd hops hv
      | pdp7 => exact absurd hops hm.notPdp7
      | v6 => exact hloop
      | v7 => exact hloop
      | bsd211 => exact hloop
  · rw [hm.pdp7]
    refine post_bindFs (post_ite (fun _ => trivial) fun _ => ?_)
    exact p7fsIallocFrom_takes hm hsame rfl p7Maxino 1 (Nat.le_refl 1) (by omega)

/-! ## The two questions -/

/-- After a clean report on `s`, `ialloc` hands out only inodes the checker saw free,
    whatever the allocator holds by then. -/
def FreshAfter (s : Mnt) : Prop :=
  ∀ t, filsysCheckCommon (s, {}) = .ok true t → ∀ fs', Later s.fs fs' → ∀ n u,
    ialloc { t.1 with fs := fs' } = .ok n u → classified s n = .unalloc

/-- Every inode the allocator would take has the mode of a free one. -/
def Agrees (fs : Fs) (img : Buf) : Prop :=
  ∀ n, TakenForFree fs img n → inodeState fs.desc n (modeWord fs img n) = .unalloc

theorem takenForFree_bounds {s : Mnt} {n : Nat} (h : TakenForFree s.fs s.img n) :
    1 ≤ n ∧ n ≤ opsMaxino s.fs := by
  unfold TakenForFree at h
  unfold opsMaxino
  cases hops : s.fs.desc.ops with
  | v1 => rw [hops] at h; exact ⟨Nat.le_trans (by decide) h.1, h.2.1⟩
  | pdp7 => rw [hops] at h; exact ⟨h.1, h.2.1⟩
  | v6 => rw [hops] at h; exact ⟨Nat.le_trans (by decide) h.1, h.2.1⟩
  | v7 => rw [hops] at h; exact ⟨Nat.le_trans (by decide) h.1, h.2.1⟩
  | bsd211 => rw [hops] at h; exact ⟨Nat.le_trans (by decide) h.1, h.2.1⟩

theorem readsMode_ready {s : Mnt} (hm : MountedEither s) : ReadsMode s False := by
  rcases hm with hm | hm
  · intro n k h1 hn
    exact (readsMode_mounted hm n k h1 hn).mono (fun _ _ h => h) fun _ _ _ => id
  · exact readsMode_mounted7 hm

theorem MountedEither.solo {s : Mnt} (hm : MountedEither s) : Solo s := by
  rcases hm with hm | hm
  · exact hm.solo
  · exact hm.solo

/-- The checker's state of an inode is that of its mode word, or the initial "free". -/
theorem classified_or {s : Mnt} (hs : Solo s) {sure : Prop} (hread : ReadsMode s sure) {n : Nat} (h1 : 1 ≤ n)
    (hn : n ≤ opsMaxino s.fs) :
    (classified s n = .unalloc ∨ classified s n = inodeState s.fs.desc n (modeWord s.fs s.img n)) := by
  have hpass := markInodes_state hs hread (opsMaxino s.fs) 1 (fun _ => .unalloc) s.ios {}
    (Nat.le_refl 1) (by omega)
  unfold classified valueOf
  cases hrun : markInodes (opsMaxino s.fs) 1 (fun _ => .unalloc) (s, {}) with
  | error e t => exact .inl rfl
  | ok st t => exact ((hpass.of_ok hrun).2.2 n h1 (by omega)).1

/-- Where the two questions agree, what the allocator takes the checker saw free. -/
theorem Agrees.classified {s : Mnt} (h : Agrees s.fs s.img) (hm : MountedEither s) {n : Nat}
    (hn : TakenForFree s.fs s.img n) :
    classified s n = .unalloc := by
  obtain ⟨h1, hmax⟩ := takenForFree_bounds hn
  rcases classified_or hm.solo (readsMode_ready hm) h1 hmax with hc | hc
  · exact hc
  · exact hc.trans (h n hn)

theorem fresh_of_agrees {s : Mnt} (hm : MountedEither s) (h : Agrees s.fs s.img) : FreshAfter s := by
  intro t ht fs' hl n u hu
  obtain ⟨k, -, hk⟩ := ((filsysCheckCommon_peeks (s, {})).of_ok ht) hm.solo
  rw [hk] at hu
  exact h.classified hm ((ialloc_takes hm hl k).of_ok hu)

theorem markInodes_of_clean {s : Mnt} :
    Post (filsysCheckCommon (s, {})) (fun clean _ => clean = true →
      ∃ st u, markInodes (opsMaxino s.fs) 1 (fun _ => .unalloc) (s, {}) = .ok st u) (fun _ _ => True) := by
  refine post_engFs (post_ite (fun _ h => by cases h) fun _ => post_bind ?_)
  show Post (markInodes (opsMaxino s.fs) 1 (fun _ => .unalloc) (s, {})) _ _
  cases hrun : markInodes (opsMaxino s.fs) 1 (fun _ => .unalloc) (s, {}) with
  | error e u => exact trivial
  | ok st u => exact post_ok.mpr ((post_true _).mono (fun _ _ _ _ => ⟨st, u, rfl⟩) fun _ _ _ => trivial)

/-- With every read succeeding the checker's state is that of the mode word. -/
theorem classified_eq {s : Mnt} (hm : Mounted s) (hq : ∀ k, s.env.fails k = false) {t : Mnt × Chk}
    (ht : filsysCheckCommon (s, {}) = .ok true t) {n : Nat} (h1 : 1 ≤ n) (hn : n ≤ opsMaxino s.fs) :
    classified s n = inodeState s.fs.desc n (modeWord s.fs s.img n) := by
  obtain ⟨st, u, hrun⟩ := markInodes_of_clean.of_ok ht rfl
  have hpass := markInodes_state hm.solo (readsMode_mounted hm) (opsMaxino s.fs) 1
    (fun _ => .unalloc) s.ios {} (Nat.le_refl 1)
    (by omega)
  unfold classified valueOf
  rw [hrun]
  exact ((hpass.of_ok hrun).2.2 n h1 (by omega)).2 hq

theorem firstClear_eq {bits : Buf} {n i j : Nat} (hlo : i ≤ j) (hhi : j < i + n) (hj : getBit bits j = false)
    (hset : ∀ k, i ≤ k → k < j → getBit bits k = true) : firstClear bits n i = some j := by
  induction n generalizing i with
  | zero => omega
  | succ n ih =>
    rw [firstClear]
    rcases Nat.eq_or_lt_of_le hlo with rfl | hlt
    · rw [hj]
      rfl
    · rw [hset i (Nat.le_refl i) hlt]
      exact ih hlt (by omega) fun k hk => hset k (by omega)

theorem getBit_ones (i : Nat) : getBit (fun _ => 255) i = true := by
  have key : ∀ j : Fin 8, (255 : UInt8).toBitVec.getLsbD j = true := by decide
  exact key ⟨i % 8, Nat.mod_lt _ (by decide)⟩

/-- An allocator state that hands out `n` next: the only number in the cache, the only
    clear bit of V1's map. -/
def offering (fs : Fs) (n : Nat) : Fs :=
  { fs with
    ninode := 1
    inode := fun _ => n % 65536
    inodemap := if fs.desc.ops = .v1 then putBit (fun _ => 255) (n - 41) false else fs.inodemap }

theorem later_offering {s : Mnt} {n : Nat} (h : TakenForFree s.fs s.img n) : Later s.fs (offering s.fs n) where
  shape := rfl
  cache _ := Nat.mod_lt _ (by decide)
  map i hi := by
    show getBit (if s.fs.desc.ops = .v1 then putBit (fun _ => 255) (n - 41) false else s.fs.inodemap) i = true
    split
    · rename_i hv
      unfold TakenForFree at h
      rw [hv] at h
      have hne : i ≠ n - 41 := by
        rintro rfl
        rw [h.2.2] at hi
        cases hi
      rw [getBit_putBit, if_neg hne]
      exact getBit_ones i
    · exact hi

theorem offered_v1 {s t : Mnt} (hv : s.fs.desc.ops = .v1) {n : Nat} (h : TakenForFree s.fs s.img n)
    (ht : t.fs = offering s.fs n) :
    Post (v1fsIalloc t) (fun m _ => m = n) (fun _ _ => False) := by
  unfold TakenForFree at h
  rw [hv] at h
  have hmap : t.fs.inodemap = putBit (fun _ => 255) (n - 41) false := by
    rw [ht]
    exact if_pos hv
  have hmax : t.fs.maxino = s.fs.maxino := by rw [ht]; rfl
  have hfirst : firstClear t.fs.inodemap (t.fs.maxino + 1 - 41) 0 = some (n - 41) := by
    rw [hmap, hmax]
    refine firstClear_eq (Nat.zero_le _) (by omega) (by rw [getBit_putBit, if_pos rfl]) fun k _ hk => ?_
    rw [getBit_putBit, if_neg (by omega)]
    exact getBit_ones k
  apply post_bindFs
  rw [hfirst]
  show n - 41 + 41 = n
  omega

theorem offered_v7 {s t : Mnt} (hm : Mounted s) (hv : s.fs.desc.ops ≠ .v1) (hq : ∀ k, s.env.fails k = false)
    (hf : 0 < s.env.fuel) {n : Nat} (h : TakenForFree s.fs s.img n) (ht : SameVol s t)
    (hfs : t.fs = offering s.fs n)
    (himg : t.img = s.img) : Post (v7fsIalloc t) (fun m _ => m = n) (fun _ _ => False) := by
  have hfree := (takenForFree_iff hm hv).mp h
  have hm' : Mounted { t with fs := { t.fs with ninode := 0 } } := hm.of_sameVol ⟨ht.shape, ht.size, ht.env⟩
  have hturn : Post (iallocTurn t) (fun r _ => r = some n) (fun _ _ => False) := by
    have hmax : v7Maxinode t.fs = v7Maxinode s.fs := shape_maxinode ht.shape
    have hone : t.fs.ninode = 1 := by rw [hfs]; rfl
    have hcand : t.fs.inode (t.fs.ninode - 1) = n := by
      rw [hfs]
      exact Nat.mod_eq_of_lt hfree.2.2.1
    refine post_bindFs (post_ite (fun _ => ?_) fun hno => absurd hone (by omega))
    apply post_bindMod
    rw [hcand, hmax, hone]
    refine post_ite (fun hbad => absurd hbad (by omega)) fun _ => post_bind (post_failAs ?_)
    apply hm'.post_readInode
    · intro _
      have hmode : (recordOf t.fs t.img n).mode = modeWord s.fs s.img n := by
        rw [shape_recordOf ht.shape, himg, modeWord, if_neg hm.notPdp7]
      have hdead : inodeLive t.fs.desc ((recordOf t.fs t.img n).mode % 65536) = false := by
        rw [hmode, shape_desc ht.shape]
        exact hfree.2.2.2
      apply post_ite
      · intro hlive
        exact absurd (hdead.symm.trans hlive) (by decide)
      · intro _
        refine post_bind (post_attempt ?_)
        exact (post_true _).mono (fun _ _ _ => rfl) fun _ _ _ => rfl
    · intro hbad
      refine absurd ((shape_validIno ht.shape).mpr (validIno_of_le hm.first hm.notPdp7 (by omega) ?_)) hbad
      rw [opsMaxino_eq hm hv]
      exact hfree.2.1
    · intro hfail
      have hok : t.env.fails t.ios = false := by rw [ht.env]; exact hq _
      exact absurd (hok.symm.trans hfail) (by decide)
  show Post (v7fsIallocLoop t.env.fuel t) _ _
  rw [ht.env]
  cases hfuel : s.env.fuel with
  | zero => omega
  | succ fuel =>
    refine post_bind (hturn.mono ?_ fun _ _ h => h)
    rintro r u rfl
    rfl

theorem agrees_pdp7 {s : Mnt} (hp : s.fs.desc.ops = .pdp7) : Agrees s.fs s.img := by
  intro n h
  unfold TakenForFree at h
  rw [hp] at h
  unfold inodeState
  rw [hp]
  simp [h.2.2]

theorem agrees_of_fresh {s : Mnt} (hm : MountedEither s) (hq : ∀ k, s.env.fails k = false)
    (hf : 0 < s.env.fuel) (h : FreshAfter s)
    {t : Mnt × Chk} (ht : filsysCheckCommon (s, {}) = .ok true t) : Agrees s.fs s.img := by
  intro n hn
  rcases hm with hm | hm
  · obtain ⟨k, -, hk⟩ := ((filsysCheckCommon_peeks (s, {})).of_ok ht) hm.solo
    obtain ⟨h1, hle⟩ := takenForFree_bounds hn
    have hgives : Post (ialloc { t.1 with fs := offering s.fs n }) (fun m _ => m = n) (fun _ _ => False) := by
      rw [hk]
      show Post ((match s.fs.desc.ops with
        | .v1 => v1fsIalloc
        | .pdp7 => p7fsIalloc
        | _ => v7fsIalloc : M Nat) _) _ _
      by_cases hv : s.fs.desc.ops = .v1
      · rw [hv]
        exact offered_v1 hv hn rfl
      · have hrun := offered_v7 hm hv hq hf hn (t := { s with fs := offering s.fs n, ios := k })
          ⟨rfl, rfl, rfl⟩ rfl rfl
        cases hops : s.fs.desc.ops with
        | v1 => exact absurd hops hv
        | pdp7 => exact absurd hops hm.notPdp7
        | v6 => exact hrun
        | v7 => exact hrun
        | bsd211 => exact hrun
    cases hrun : ialloc { t.1 with fs := offering s.fs n } with
    | error e u => exact (hgives.of_error hrun).elim
    | ok m u =>
      obtain rfl := hgives.of_ok hrun
      rw [← classified_eq hm hq ht h1 hle]
      exact h t ht _ (later_offering hn) _ u hrun
  · exact agrees_pdp7 hm.pdp7 n hn

/-- After a clean report the allocator hands out only inodes the checker saw free exactly
    when the inodes it would take all have the mode of a free one. -/
theorem fresh_iff (s : Mnt) (hm : MountedEither s) (hq : ∀ k, s.env.fails k = false) (hf : 0 < s.env.fuel) :
    FreshAfter s ↔ ((∃ t, filsysCheckCommon (s, {}) = .ok true t) → Agrees s.fs s.img) := by
  constructor
  · intro h hr
    obtain ⟨t, ht⟩ := hr
    exact agrees_of_fresh hm hq hf h ht
  · intro h t ht
    exact fresh_of_agrees hm (h ⟨t, ht⟩) t ht

/-- Where the allocator asks for a zero mode word as well, it agrees on every image. -/
theorem agrees_of_same_test {s : Mnt} (hm : Mounted s) (hv : s.fs.desc.ops ≠ .v1)
    (h6 : s.fs.desc.iallocated = 0) :
    Agrees s.fs s.img := by
  intro n h
  obtain ⟨-, -, -, hdead⟩ := (takenForFree_iff hm hv).mp h
  have hmode : modeWord s.fs s.img n < 65536 := by
    rw [modeWord, if_neg hm.notPdp7]
    unfold recordOf decodeAt decodeInode
    rw [if_neg hv]
    have hlt := num_lt (ByteOrder.perm_sig16 s.fs.desc.bo) (blockOf s.fs s.img (itod s.fs n)) (itoo s.fs n)
    rw [ByteOrder.length_sig16] at hlt
    split
    · exact hlt
    · exact hlt
  have hzero : modeWord s.fs s.img n = 0 := by
    unfold inodeLive at hdead
    rw [h6] at hdead
    have hz : modeWord s.fs s.img n % 65536 = 0 := by simpa using hdead
    omega
  rw [hzero]
  unfold inodeState
  cases hops : s.fs.desc.ops with
  | v1 => exact absurd hops hv
  | pdp7 => exact absurd hops hm.notPdp7
  | v6 => rfl
  | v7 => rfl
  | bsd211 => rfl

/-! ## Later allocations -/

/-- After some allocations from `s`: it is the same volume, and what the allocator would take now it
    would have taken then. -/
structure Drawing (s t : Mnt) : Prop extends SameVol s t where
  cache : ∀ k, t.fs.inode k < 65536
  sub : ∀ n, TakenForFree t.fs t.img n → TakenForFree s.fs s.img n

theorem Drawing.trans {s t u : Mnt} (h : Drawing s t) (h' : Drawing t u) : Drawing s u :=
  ⟨sameVol_law.trans h.toSameVol h'.toSameVol, h'.cache, fun n hn => h.sub n (h'.sub n hn)⟩

/-- The allocator's state at a later time, over the image as it was. -/
theorem Later.drawing {s : Mnt} {fs' : Fs} (hl : Later s.fs fs') (k : Nat) :
    Drawing s { s with fs := fs', ios := k } := by
  refine ⟨⟨hl.shape, rfl, rfl⟩, hl.cache, fun n hn => ?_⟩
  have hn : TakenForFree fs' s.img n := hn
  unfold TakenForFree at hn ⊢
  rw [shape_desc hl.shape, shape_maxinode hl.shape, shape_modeWord hl.shape] at hn
  cases hops : s.fs.desc.ops with
  | v1 =>
    rw [hops] at hn
    obtain ⟨h1, h2, hbit⟩ := hn
    refine ⟨h1, by rw [← shape_maxino hl.shape]; exact h2, ?_⟩
    by_contra hset
    rw [hl.map _ (by simpa using hset)] at hbit
    cases hbit
  | pdp7 => rw [hops] at hn; exact hn
  | v6 => rw [hops] at hn; exact hn
  | v7 => rw [hops] at hn; exact hn
  | bsd211 => rw [hops] at hn; exact hn

/-- A record of an inode that was taken for free is all that has changed. -/
theorem drawing_of_record {s t : Mnt} {i : Nat} (hv : SameVol s t) (hops : s.fs.desc.ops ≠ .v1)
    (hi : TakenForFree s.fs s.img i)
    (hcache : ∀ k, t.fs.inode k < 65536)
    (hmode : ∀ n, 1 ≤ n → n ≤ opsMaxino s.fs → n ≠ i → modeWord s.fs t.img n = modeWord s.fs s.img n) :
    Drawing s t := by
  refine ⟨hv, hcache, fun n hn => ?_⟩
  by_cases hni : n = i
  · rw [hni]
    exact hi
  obtain ⟨h1, hmax⟩ := takenForFree_bounds hn
  rw [shape_opsMaxino hv.shape] at hmax
  unfold TakenForFree at hn ⊢
  rw [shape_desc hv.shape, shape_maxinode hv.shape, shape_modeWord hv.shape, hmode n h1 hmax hni] at hn
  cases hd : s.fs.desc.ops with
  | v1 => exact absurd hd hops
  | pdp7 => rw [hd] at hn; exact hn
  | v6 => rw [hd] at hn; exact hn
  | v7 => rw [hd] at hn; exact hn
  | bsd211 => rw [hd] at hn; exact hn

theorem v1fsIalloc_draws {t : Mnt} (hv : t.fs.desc.ops = .v1) (hc : ∀ k, t.fs.inode k < 65536) :
    Post (v1fsIalloc t) (fun _ u => Drawing t u) fun _ u => Drawing t u := by
  apply post_bindFs
  cases hbit : firstClear t.fs.inodemap (t.fs.maxino + 1 - 41) 0 with
  | none => exact ⟨sameVol_law.refl t, hc, fun _ h => h⟩
  | some bit =>
    refine ⟨⟨rfl, rfl, rfl⟩, hc, fun n hn => ?_⟩
    unfold TakenForFree at hn ⊢
    rw [hv] at hn ⊢
    obtain ⟨h1, h2, hclear⟩ := hn
    refine ⟨h1, h2, ?_⟩
    rw [getBit_putBit] at hclear
    split at hclear
    · cases hclear
    · exact hclear

section Draws

/-- The volume is the one of `u`, with the records up to `m` but `cand`'s as they were. -/
def OthersKept (m cand : Nat) (u w : Mnt) : Prop :=
  SameVol u w ∧ ∀ n, 1 ≤ n → n ≤ m → n ≠ cand → recordOf w.fs w.img n = recordOf u.fs u.img n

variable {t : Mnt} (hm : Mounted t) (hv : t.fs.desc.ops ≠ .v1) (hl : RecordLayout t.fs.desc)

include hm hv

theorem drawing_of_searching {u : Mnt} (hu : Searching t u) : Drawing t u := by
  refine ⟨hu.toSameVol, hu.cache, fun n hn => ?_⟩
  have hmu := hm.of_sameVol hu.toSameVol
  rw [takenForFree_iff hmu (by rw [shape_desc hu.shape]; exact hv), shape_maxinode hu.shape,
    shape_desc hu.shape, shape_modeWord hu.shape,
    hu.img] at hn
  exact (takenForFree_iff hm hv).mpr hn

include hl

theorem writeInode_draws {cand : Nat} (hcand : TakenForFree t.fs t.img cand) (ip : Inode)
    {u : Mnt} (hu : Searching t u) :
    Post (writeInode cand ip u) (fun _ w => Drawing t w) fun _ w => Drawing t w := by
  have hmu := hm.of_sameVol hu.toSameVol
  have hbounds := takenForFree_bounds hcand
  have hvalid : ∀ n, 1 ≤ n → n ≤ opsMaxino t.fs → ValidIno u.fs n := by
    intro n h1 hn
    have hmax : n ≤ opsMaxino u.fs := by rw [shape_opsMaxino hu.shape]; exact hn
    exact validIno_of_le hmu.first hmu.notPdp7 h1 hmax
  -- the records lie above the superblock
  have hkept : ∀ {w : Mnt}, Kept u w → OthersKept (opsMaxino t.fs) cand u w := by
    intro w hw
    refine ⟨hw.toSameVol, fun n h1 hn _ => ?_⟩
    rw [shape_recordOf hw.shape]
    exact recordOf_congr (hw.blocks _ (hmu.itod_bounds (hvalid n h1 hn)).1)
  have hdraws : ∀ {w : Mnt}, SameIno u w → OthersKept (opsMaxino t.fs) cand u w → Drawing t w := by
    intro w hsame hw
    refine drawing_of_record (sameVol_law.trans hu.toSameVol hw.1) hv hcand ?_ ?_
    · intro k
      rw [hsame.inode hmu.solo]
      exact hu.cache k
    · intro n h1 hn hne
      have hn := hw.2 n h1 hn hne
      rw [shape_recordOf hw.1.shape, shape_recordOf hu.shape, hu.img] at hn
      unfold modeWord
      rw [if_neg hm.notPdp7, if_neg hm.notPdp7, hn]
  have hlu : RecordLayout u.fs.desc := by rw [shape_desc hu.shape]; exact hl
  have hothers : Post (writeInode cand ip u) (fun _ w => OthersKept (opsMaxino t.fs) cand u w)
      fun _ w => OthersKept (opsMaxino t.fs) cand u w := by
    refine hmu.post_writeInode (fun w hw _ => ?_)
      (fun _ w hbad => absurd (hvalid cand hbounds.1 hbounds.2) hbad) fun _ w _ hw => hkept hw
    have hmw := hmu.of_sameVol hw.toSameVol
    have hlw : RecordLayout w.fs.desc := by rw [shape_desc hw.shape]; exact hlu
    refine ⟨sameVol_law.trans hw.toSameVol (sameVol_law.trans (ticked_sameVol w) (putAt_sameVol ..)),
      fun n h1 hn hne => ?_⟩
    rw [recordOf_putInode_ne hmw hlw ip (by omega) (by omega) hne]
    exact (hkept hw.toKept).2 n h1 hn hne
  have hino := sameIno_law.writeInode cand ip u
  exact (hino.and hothers).mono (fun _ _ h => hdraws h.1 h.2) fun _ _ h => hdraws h.1 h.2

theorem iallocTurn_draws {u : Mnt} (hu : Searching t u) :
    Post (iallocTurn u) (fun r w => match r with
      | some _ => Drawing t w
      | none => Searching t w) fun _ w => Drawing t w := by
  have hdraw := fun {w : Mnt} (hw : Searching t w) => drawing_of_searching hm hv hw
  refine post_bindFs (post_ite ?_ ?_)
  · intro _
    have hcand := hu.cache (u.fs.ninode - 1)
    generalize hc : u.fs.inode (u.fs.ninode - 1) = cand at hcand
    have hpop : Searching t { u with fs := { u.fs with ninode := u.fs.ninode - 1 } } :=
      ⟨⟨hu.shape, hu.size, hu.env⟩, hu.img, hu.cache⟩
    apply post_bindMod
    rw [shape_maxinode hu.shape]
    refine post_ite (fun _ => hpop) fun hrange => ?_
    refine post_bind (post_failAs
      ((searching_readInode hm hpop (n := cand) (by omega) (by rw [opsMaxino_eq hm hv]; omega)).mono ?_
      fun _ _ h => hdraw h))
    intro ip w hr
    obtain ⟨hmode, hw⟩ := hr
    refine post_ite (fun _ => hw) fun hlive => ?_
    have hfree : TakenForFree t.fs t.img cand := by
      refine (takenForFree_iff hm hv).mpr ⟨by omega, by omega, hcand, ?_⟩
      rw [← hmode, ← shape_desc hu.shape]
      exact Bool.eq_false_iff.mpr hlive
    have hend : ∀ {v : Mnt}, Drawing t v →
      Drawing t { v with fs := { v.fs with tinode := v.fs.tinode - 1, flDirty := true } } :=
      fun h => ⟨⟨h.shape, h.size, h.env⟩, h.cache, h.sub⟩
    exact post_bind (post_attempt ((writeInode_draws hm hv hl hfree _ hw).mono (fun _ _ h => hend h)
      fun _ _ h => hend h))
  · intro _
    have hempty : Searching t { u with fs := { u.fs with ninode := 0 } } :=
      ⟨⟨hu.shape, hu.size, hu.env⟩, hu.img, hu.cache⟩
    refine post_bindMod (post_bind ((searching_refill hm _ 2 _ hempty (by omega) ?_).mono ?_
      fun _ _ h => hdraw h))
    · intro i hlo hhi
      have hmax : v7Maxinode u.fs = v7Maxinode t.fs := shape_maxinode hu.shape
      rw [opsMaxino_eq hm hv]
      omega
    · intro _ w hw
      exact post_bindFs (post_ite (fun _ => hdraw hw) fun _ => hw)

theorem v7fsIallocLoop_draws (fuel : Nat) {u : Mnt} (hu : Searching t u) :
    Post (v7fsIallocLoop fuel u) (fun _ w => Drawing t w) fun _ w => Drawing t w := by
  induction fuel generalizing u with
  | zero => exact drawing_of_searching hm hv hu
  | succ fuel ih =>
    refine post_bind ((iallocTurn_draws hm hv hl hu).mono (fun r w hr => ?_) fun _ _ h => h)
    cases r with
    | some n => exact hr
    | none => exact ih hr

end Draws

/-- The mode words after a block of words has gone out. -/
theorem modeWord_putWordBlock {fs : Fs} {n : Nat} (hp : fs.desc.ops = .pdp7) (img : Buf)
    (b : Nat) (w : Nat → Nat) :
    modeWord fs (putWordBlock fs img b w) n = if p7Itod n =
    b then word18 (w (p7Itoo n)) else modeWord fs img n := by
  unfold modeWord
  rw [if_pos hp, if_pos hp]
  split
  · rename_i h
    rw [h]
    refine wordsOf_putWordBlock fs img b w ?_
    unfold p7Itoo
    omega
  · rename_i h
    exact congrFun (wordsOf_putWordBlock_ne h img w) _

/-- Records of one block do not overlap. -/
theorem p7Itoo_apart {m n : Nat} (h : p7Itod m = p7Itod n) (hne : m ≠ n) : p7Itoo n + 12 ≤ p7Itoo m ∨
    p7Itoo m + 12 ≤ p7Itoo n := by
  unfold p7Itod p7Itoo at *
  omega

/-- Words written over inode `i` alone leave the mode of every other one. -/
theorem modeWord_spared {s : Mnt} (hm : Mounted7 s) {i n : Nat} (hne : n ≠ i) {words : Nat → Nat}
    (hkeep : ∀ k, k < p7Itoo i ∨ p7Itoo i + 12 ≤ k → words k = wordsOf s.fs s.img (p7Itod i) k) :
    modeWord s.fs (putWordBlock s.fs s.img (p7Itod i) words) n = modeWord s.fs s.img n := by
  rw [modeWord_putWordBlock hm.pdp7]
  split
  · rename_i hb
    have happart := p7Itoo_apart hb hne
    rw [hkeep _ (by omega), word18, Nat.mod_eq_of_lt (wordsOf_lt _ _ _ _), ← hb]
    exact (if_pos hm.pdp7).symm
  · rfl

theorem p7fsIallocFrom_draws {t : Mnt} (hm : Mounted7 t) (hc : ∀ k, t.fs.inode k < 65536)
    (k todo i : Nat) (h1 : 1 ≤ i)
    (htop : i + todo ≤ p7Maxino + 1) :
    Post (p7fsIallocFrom todo i { t with ios := k }) (fun _ w => Drawing t w) fun _ w => Drawing t w := by
  have hops : t.fs.desc.ops ≠ .v1 := by
    rw [hm.pdp7]
    decide
  have hread : ∀ k, Drawing t { t with ios := k } := fun _ => ⟨⟨rfl, rfl, rfl⟩, hc, fun _ h => h⟩
  have hmount : ∀ k, Mounted7 { t with ios := k } := fun _ => hm.of_sameVol ⟨rfl, rfl, rfl⟩
  induction todo generalizing i k with
  | zero => exact hread k
  | succ todo ih =>
    refine post_bind (post_failAs ((hmount k).post_readWords (fun _ _ => ?_) (fun _ _ => hread k)
      fun _ _ => hread (k + 1)))
    refine post_ite (fun _ => ih (k + 1) (i + 1) (by omega) (by omega)) fun hfree => ?_
    have htaken : TakenForFree t.fs t.img i := by
      unfold TakenForFree modeWord
      rw [hm.pdp7, if_pos rfl]
      exact ⟨h1, by omega, Bool.eq_false_iff.mpr hfree⟩
    refine post_bind (post_failAs ((hmount (k + 1)).post_writeWords (fun _ _ => ?_)
      (fun _ _ => hread (k + 1)) fun _ _ => hread (k + 2)))
    refine drawing_of_record (i := i) ⟨rfl, rfl, rfl⟩ hops htaken hc fun n _ _ hne => ?_
    refine modeWord_spared hm hne fun j hj => ?_
    show (if j = p7Itoo i then _ else if j = p7Itoo i + 9 then _ else if j = p7Itoo i + 11 then _ else
      if p7Itoo i < j ∧ j < p7Itoo i + 12 then 0 else wordsOf t.fs t.img (p7Itod i) j) = _
    rw [if_neg (by omega), if_neg (by omega), if_neg (by omega), if_neg (by omega)]

/-- Whatever `ialloc` does, it would take no inode afterwards that it would not have taken before. -/
theorem ialloc_draws {t : Mnt} (hm : MountedEither t)
    (hl : t.fs.desc.ops ≠ .pdp7 → RecordLayout t.fs.desc) (hc : ∀ k, t.fs.inode k < 65536) :
    Post (ialloc t) (fun _ u => Drawing t u) fun _ u => Drawing t u := by
  show Post ((match t.fs.desc.ops with
    | .v1 => v1fsIalloc
    | .pdp7 => p7fsIalloc
    | _ => v7fsIalloc : M Nat) _) _ _
  rcases hm with hm | hm
  · by_cases hv : t.fs.desc.ops = .v1
    · rw [hv]
      exact v1fsIalloc_draws hv hc
    · have hloop := v7fsIallocLoop_draws hm hv (hl hm.notPdp7) t.env.fuel (u := t) ⟨sameVol_law.refl t, rfl, hc⟩
      cases hops : t.fs.desc.ops with
      | v1 => exact absurd hops hv
      | pdp7 => exact absurd hops hm.notPdp7
      | v6 => exact hloop
      | v7 => exact hloop
      | bsd211 => exact hloop
  · rw [hm.pdp7]
    refine post_bindFs (post_ite (fun _ => ⟨sameVol_law.refl t, hc, fun _ h => h⟩) fun _ => ?_)
    exact p7fsIallocFrom_draws hm hc t.ios p7Maxino 1 (Nat.le_refl 1) (by omega)

/-- What `k` calls of `ialloc` hand out. -/
def iallocs : Nat → Mnt → List Nat
  | 0, _ => []
  | k + 1, t =>
    match ialloc t with
    | .ok n u => n :: iallocs k u
    | .error _ u => iallocs k u

theorem iallocs_take {s t : Mnt} (hm : MountedEither s)
    (hl : s.fs.desc.ops ≠ .pdp7 → RecordLayout s.fs.desc) (h : Drawing s t) (k : Nat) :
    ∀ n ∈ iallocs k t, TakenForFree s.fs s.img n := by
  induction k generalizing t with
  | zero => exact fun n hn => absurd hn List.not_mem_nil
  | succ k ih =>
    have hmt : MountedEither t := hm.imp (·.of_sameVol h.toSameVol) (·.of_sameVol h.toSameVol)
    have hdraws := ialloc_draws hmt (by rw [shape_desc h.shape]; exact hl) h.cache
    have hlater : Later t.fs t.fs := ⟨rfl, h.cache, fun _ hi => hi⟩
    have htakes := ialloc_takes hmt hlater t.ios
    intro n hn
    unfold iallocs at hn
    cases hrun : ialloc t with
    | error e u =>
      rw [hrun] at hn
      exact ih (h.trans (hdraws.of_error hrun)) n hn
    | ok m u =>
      rw [hrun] at hn
      rcases List.mem_cons.mp hn with rfl | hn
      · exact h.sub n (htakes.of_ok hrun)
      · exact ih (h.trans (hdraws.of_ok hrun)) n hn

/-- After a clean report every later allocation of a run, not just the first, gives an inode the checker
    saw free. -/
theorem fresh_run {s : Mnt} (hm : MountedEither s) (hl : s.fs.desc.ops ≠ .pdp7 → RecordLayout s.fs.desc)
    (h : Agrees s.fs s.img) {t : Mnt × Chk}
    (ht : filsysCheckCommon (s, {}) = .ok true t) {fs' : Fs} (hlater : Later s.fs fs') (k : Nat) :
    ∀ n ∈ iallocs k { t.1 with fs := fs' }, classified s n = .unalloc := by
  intro n hn
  obtain ⟨j, -, hj⟩ := ((filsysCheckCommon_peeks (s, {})).of_ok ht) hm.solo
  rw [hj] at hn
  exact h.classified hm (iallocs_take hm hl (hlater.drawing j) k n hn)

/-- So V7 and its relatives hand out free inodes after every clean report. -/
theorem fresh_of_same_test {s : Mnt} (hm : Mounted s) (hl : RecordLayout s.fs.desc)
    (hv : s.fs.desc.ops ≠ .v1) (h6 : s.fs.desc.iallocated = 0)
    {t : Mnt × Chk} (ht : filsysCheckCommon (s, {}) = .ok true t) {fs' : Fs} (hlater : Later s.fs fs')
    (k : Nat) :
    ∀ n ∈ iallocs k { t.1 with fs := fs' }, classified s n = .unalloc :=
  fresh_run (.inl hm) (fun _ => hl) (agrees_of_same_test hm hv h6) ht hlater k

/-- A live inode without the mark the allocator looks for. -/
theorem disagrees_of_unmarked {s : Mnt} (hm : Mounted s) (hv : s.fs.desc.ops ≠ .v1) {n : Nat}
    (h2 : 2 ≤ n) (hmax : n ≤ v7Maxinode s.fs)
    (hsmall : n < 65536) (hdead : inodeLive s.fs.desc (modeWord s.fs s.img n % 65536) = false)
    (hst : inodeState s.fs.desc n (modeWord s.fs s.img n) ≠ .unalloc) : ¬ Agrees s.fs s.img :=
  fun h => hst (h n ((takenForFree_iff hm hv).mpr ⟨h2, hmax, hsmall, hdead⟩))

/-! ## V6 and V1 -/

/-- An image opened read-write, in surroundings where nothing fails. -/
def openedRw (ed : Edition) (img : Buf) (size : Nat) : Mnt :=
  { final (filsysOpenArch { edition := ed })
      { fs := { desc := filsysGetformat ed }, img := img, size := size } with
    env := {} }

/-- A V6 volume of four blocks: the root directory in block 3 names `f`, inode 2, whose
    mode word 0644 lacks the allocated bit; the free-inode cache holds 2. -/
def staleImage : Buf := fun i =>
  if i = 512 then 1 else if i = 514 then 4            -- s_isize, s_fsize
  else if i = 718 then 1 else if i = 720 then 2       -- s_ninode, s_inode[0]
  else if i = 1025 then 0xc0 else if i = 1026 then 2 else if i = 1030 then 48 else if i = 1032 then 3
  else if i = 1056 then 0xa4 else if i = 1057 then 1 else if i = 1058 then 1
  else if i = 1536 then 1 else if i = 1538 then 46
  else if i = 1552 then 1 else if i = 1554 then 46 else if i = 1555 then 46
  else if i = 1568 then 2 else if i = 1570 then 102
  else 0

def stale : Mnt := openedRw .v6 staleImage 2048

theorem stale_mounted : Mounted stale where
  solo _ _ := rfl
  notPdp7 := by decide +kernel
  writable := by decide +kernel
  bsize := by decide +kernel
  v1Bsize := by decide +kernel
  fits := by decide +kernel
  imgsize := by decide +kernel
  first := by decide +kernel
  room := by decide +kernel
  last := by decide +kernel

/-- The check is clean and counts `f` in use; the next inode handed out is `f`'s. -/
theorem a_clean_v6_volume_gives_a_file_away :
    ¬ FreshAfter stale ∧ classified stale 2 = .ireg ∧
    valueOf ialloc (final filsysCheckCommon (stale, {})).1 = 2 := by
  have hok : errorOf filsysCheckCommon (stale, {}) = none := by decide +kernel
  have hclean : valueOf filsysCheckCommon (stale, {}) = true := by decide +kernel
  have hrun := eq_ok hok
  rw [hclean] at hrun
  have hfuel : 0 < stale.env.fuel := by decide +kernel
  have hquiet : ∀ k, stale.env.fails k = false := fun _ => rfl
  refine ⟨fun h => ?_, by decide +kernel, by decide +kernel⟩
  refine disagrees_of_unmarked stale_mounted ?_ (n := 2) (Nat.le_refl 2) ?_ (by decide) ?_ ?_
    (agrees_of_fresh (.inl stale_mounted) hquiet hfuel h hrun) <;> decide +kernel

/-- The file is lost because its mode is not that of a free inode. -/
theorem the_stale_mode_decides :
    FreshAfter stale ↔ ((∃ t, filsysCheckCommon (stale, {}) = .ok true t) → Agrees stale.fs stale.img) :=
  fresh_iff stale (.inl stale_mounted) (fun _ => rfl) (by decide +kernel)

end Filsys.Check
