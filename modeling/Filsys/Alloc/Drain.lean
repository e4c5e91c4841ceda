/-
  Filsys.Alloc.Drain — emptying the free list.

  `Listing fs img c L K` reads a list off an image as it stands: from the cache `c` the
  blocks `L`, through the chain blocks `K`, to an empty cache or a 0. `Drains s L` runs
  the allocator: call after call, `v7fs_balloc` returns `L` and then `-ENOSPC`. A list
  without a block twice drains as it reads (`Listing.drains`): what a call zeroes and
  what a flush writes is no chain block still to come.
-/

import Filsys.Alloc.Freelist

namespace Filsys.Alloc

open Filsys.Lib Filsys.Engine

/-- From the cache `c` the list reads `L`, through the chain blocks `K`, to a 0 or an empty cache. -/
inductive Listing (fs : Fs) (img : Buf) : Cache → List Nat → List Nat → Prop
  | empty {f : Nat → Nat} : Listing fs img (0, f) [] []
  | zero {n : Nat} {f : Nat → Nat} : f n = 0 → Listing fs img (n + 1, f) [] []
  | bottom {f : Nat → Nat} {L K : List Nat} :
    InData fs (f 0) → f 0 ≠ 0 → (chainOf fs img (f 0)).1 ≤ fs.desc.nicfree →
      Listing fs img (chainOf fs img (f 0)) L K → Listing fs img (1, f) (f 0 :: L) (f 0 :: K)
  | entry {n : Nat} {f : Nat → Nat} {L K : List Nat} : InData fs (f (n + 1)) → f (n + 1) ≠ 0 →
    Listing fs img (n + 1, f) L K →
      Listing fs img (n + 2, f) (f (n + 1) :: L) K

namespace Listing

variable {fs : Fs} {img : Buf} {c : Cache} {L K : List Nat}

theorem inData (h : Listing fs img c L K) : ∀ b ∈ L, InData fs b := by
  induction h with
  | empty => exact fun b hb => absurd hb List.not_mem_nil
  | zero => exact fun b hb => absurd hb List.not_mem_nil
  | bottom hb _ _ _ ih => exact List.forall_mem_cons.mpr ⟨hb, ih⟩
  | entry hb _ _ ih => exact List.forall_mem_cons.mpr ⟨hb, ih⟩

theorem sublist (h : Listing fs img c L K) : K.Sublist L := by
  induction h with
  | empty => exact List.Sublist.refl _
  | zero => exact List.Sublist.refl _
  | bottom _ _ _ _ ih => exact ih.cons_cons _
  | entry _ _ _ ih => exact ih.cons _

/-- The first chain block is the bottom of the cache. -/
theorem head {k : Nat} (h : Listing fs img c L K) (hk : k ∈ K.head?) : c.2 0 = k := by
  induction h with
  | empty => cases hk
  | zero => cases hk
  | bottom => exact Option.some.inj hk
  | entry _ _ _ ih => exact ih hk

/-- A list reads the image at its chain blocks only. -/
theorem congr {fs' : Fs} {img' : Buf} (h : Listing fs img c L K) (hsh : shape fs' = shape fs)
    (himg : ∀ b ∈ K, blockOf fs img' b = blockOf fs img b) : Listing fs' img' c L K := by
  have hchain : ∀ b ∈ K, chainOf fs' img' b = chainOf fs img b := by
    intro b hb
    unfold chainOf
    rw [shape_blockOf hsh, himg b hb, shape_desc hsh]
  clear himg
  induction h with
  | empty => exact .empty
  | zero h0 => exact .zero h0
  | bottom hb h0 hle _ ih =>
    have heq := hchain _ List.mem_cons_self
    refine .bottom ((shape_inData hsh).mpr hb) h0 (by rw [heq, shape_desc hsh]; exact hle) ?_
    rw [heq]
    exact ih fun b hb => hchain b (List.mem_cons_of_mem _ hb)
  | entry hb h0 _ ih => exact .entry ((shape_inData hsh).mpr hb) h0 (ih hchain)

end Listing

/-- `v7fs_balloc`, called until it finds the list empty, returned `L`. -/
inductive Drains : Mnt → List Nat → Prop
  | done {s t : Mnt} : v7fsBalloc s = .error .enospc t → Drains s []
  | more {s t : Mnt} {b : Nat} {L : List Nat} : v7fsBalloc s = .ok b t → Drains t L → Drains s (b :: L)

/-! ## One call, no transfer failing -/

theorem balloc_stop {s : Mnt} (h : s.fs.nfree = 0 ∨ s.fs.free (s.fs.nfree - 1) = 0) :
    ∃ t, v7fsBalloc s = .error .enospc t := by
  by_cases hn : s.fs.nfree = 0
  · refine ⟨s, ?_⟩
    show (if s.fs.nfree = 0 then _ else _ : M Nat) s = _
    rw [if_pos hn]
    rfl
  · have h0 := h.resolve_left hn
    refine ⟨popEntry s, ?_⟩
    show (if s.fs.nfree = 0 then _ else _ : M Nat) s = _
    rw [if_neg hn]
    show (if s.fs.free (s.fs.nfree - 1) = 0 then _ else _ : M Nat) (popEntry s) = _
    rw [if_pos h0]
    rfl

section Calls

variable {s : Mnt} (hm : Mounted s) (hq : ∀ k, s.env.fails k = false)

include hm hq

/-- An entry above the bottom of the cache. -/
theorem balloc_entry {n b : Nat} (hn : s.fs.nfree = n + 2) (hb : s.fs.free (n + 1) = b)
    (h0 : b ≠ 0) (hin : InData s.fs b) :
    v7fsBalloc s = .ok b (taken (putAt .block b zeroBuf (popEntry s))) := by
  have hm' : Mounted (popEntry s) := hm.of_sameVol (popEntry_sameVol s)
  have htop : s.fs.free (s.fs.nfree - 1) = b := by rw [hn]; exact hb
  have hpost : Post (v7fsBalloc s) (fun x t => x = b ∧ t = taken (putAt .block b zeroBuf (popEntry s)))
    fun _ _ => False := by
    refine post_bindFs (post_ite (fun h => absurd h (by omega)) fun _ => post_bindMod ?_)
    simp only [htop]
    refine post_ite (fun h => absurd h h0) fun _ => post_ite (fun h => ?_) fun _ => ?_
    · exact absurd h (by have := hin.1; have := hin.2; omega)
    refine post_bind (post_onlyIf (fun h => absurd h (by omega)) fun _ => ?_)
    exact post_handOut hm' hin.2 ⟨rfl, rfl⟩ fun hf _ => absurd ((hq _).symm.trans hf) (by decide)
  obtain ⟨x, t, hr, rfl, rfl⟩ := hpost.succeeds
  exact hr

/-- The bottom of the cache: the chain block's own cache comes in, and the superblock goes out. -/
theorem balloc_bottom {b : Nat} (hn : s.fs.nfree = 1) (hb : s.fs.free 0 = b)
    (h0 : b ≠ 0) (hin : InData s.fs b) :
    v7fsBalloc s = .ok b (taken (putAt .block b zeroBuf (flushed (reload b (popEntry s))))) := by
  have hm' : Mounted (popEntry s) := hm.of_sameVol (popEntry_sameVol s)
  have hm'' : Mounted (reload b (popEntry s)) := hm'.of_sameVol (reload_sameVol b _)
  have htop : s.fs.free (s.fs.nfree - 1) = b := by rw [hn]; exact hb
  have hno : ∀ {k : Nat} {P : Prop}, s.env.fails k = true → P :=
    fun hf => absurd ((hq _).symm.trans hf) (by decide)
  have hpost : Post (v7fsBalloc s) (fun x t => x = b ∧
    t = taken (putAt .block b zeroBuf (flushed (reload b (popEntry s))))) fun _ _ => False := by
    refine post_bindFs (post_ite (fun h => absurd h (by omega)) fun _ => post_bindMod ?_)
    simp only [htop]
    refine post_ite (fun h => absurd h h0) fun _ => post_ite (fun h => ?_) fun _ => ?_
    · exact absurd h (by have := hin.1; have := hin.2; omega)
    refine post_bind (post_onlyIf (fun _ => ?_) fun h => absurd (by omega) h)
    refine post_bind (post_failAs (hm'.post_read hin.2 (fun _ => ?_) fun hf _ => hno hf))
    refine post_bindMod (post_failAs (hm''.post_superWrite (fun _ _ => ?_) fun _ _ _ hf => hf.elim hno hno))
    exact post_handOut (hm''.of_sameVol (flushed_sameVol _)) hin.2 ⟨rfl, rfl⟩ fun hf _ => hno hf
  obtain ⟨x, t, hr, rfl, rfl⟩ := hpost.succeeds
  exact hr

end Calls

/-- A list without a block twice is handed out as it reads. -/
theorem Listing.drains {s : Mnt} (hm : Mounted s) (hfirst : 2 ≤ v7DataFirst s.fs)
    (hq : ∀ k, s.env.fails k = false) {L K : List Nat}
    (h : Listing s.fs s.img (s.fs.nfree, s.fs.free) L K) (hnd : L.Nodup) : Drains s L := by
  generalize hc : (s.fs.nfree, s.fs.free) = c at h
  induction L generalizing s c K with
  | nil =>
    cases h with
    | empty =>
      obtain ⟨t, ht⟩ := balloc_stop (s := s) (.inl (congrArg Prod.fst hc))
      exact .done ht
    | @zero n f h0 =>
      have hn : s.fs.nfree = n + 1 := congrArg Prod.fst hc
      have hf : s.fs.free = f := congrArg Prod.snd hc
      obtain ⟨t, ht⟩ := balloc_stop (s := s) (.inr (by rw [hn, hf]; exact h0))
      exact .done ht
  | cons b L ih =>
    obtain ⟨hbL, hnd'⟩ := List.nodup_cons.mp hnd
    cases h with
    | @bottom f _ K hin h0 hle ht =>
      have hn : s.fs.nfree = 1 := congrArg Prod.fst hc
      have hf : s.fs.free = f := congrArg Prod.snd hc
      refine .more (balloc_bottom hm hq hn (by rw [hf]) h0 hin) ?_
      have hvol : SameVol s (taken (putAt .block (f 0) zeroBuf (flushed (reload (f 0) (popEntry s))))) :=
        sameVol_law.trans (reloaded_sameVol _ s) (zeroed_sameVol _ _)
      refine ih (K := K) (hm.of_sameVol hvol) hfirst hq hnd' _ rfl ?_
      refine ht.congr hvol.shape fun k hk => ?_
      have hkL := ht.sublist.subset hk
      have hne : k ≠ f 0 := fun heq => hbL (heq ▸ hkL)
      exact (blockOf_putBlock_ne hne _ _).trans
        (blockOf_putSuper hm.bsize (Nat.le_trans hfirst (ht.inData k hkL).1) _ _)
    | @entry n f _ K hin h0 ht =>
      have hn : s.fs.nfree = n + 2 := congrArg Prod.fst hc
      have hf : s.fs.free = f := congrArg Prod.snd hc
      refine .more (balloc_entry hm hq hn (by rw [hf]) h0 hin) ?_
      have hvol : SameVol s (taken (putAt .block (f (n + 1)) zeroBuf (popEntry s))) :=
        sameVol_law.trans (popEntry_sameVol s) (zeroed_sameVol _ _)
      refine ih (K := K) (hm.of_sameVol hvol) hfirst hq hnd' (n + 1, f) ?_ ?_
      · show (s.fs.nfree - 1, s.fs.free) = _
        rw [hn, hf]
        rfl
      · refine ht.congr hvol.shape fun k hk => ?_
        have hne : k ≠ f (n + 1) := fun heq => hbL (heq ▸ ht.sublist.subset hk)
        exact blockOf_putBlock_ne hne _ _

end Filsys.Alloc
