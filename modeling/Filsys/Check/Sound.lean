/-
  Filsys.Check.Sound — what a clean report of the checker says about blocks.

  Every pass of `filsys_check_common` either claims the blocks it is given, each for
  the first time, or counts a problem (`Marks`). So passes that meet no problem have
  claimed every reference of every inode and every block the free list hands out, once
  (`accounted_of_passes`).

  The report is 0 when the 32-bit error counter is, which is not the same: a volume
  with 2^32 problems reports none (`a_volume_with_two_to_the_32_problems_checks_clean`).
  How many problems a volume has is in Filsys.Check.Tally.
-/

import Filsys.Engine.Check
import Filsys.Engine.Open
import Filsys.Engine.View
import Mathlib.Data.List.Nodup

namespace Filsys.Check

open Filsys.Lib Filsys.Engine

/-! ## References and the accounting of a volume -/

/-- A volume of the V7 family whose free space is the superblock-cache free list. -/
structure OnFreelist (fs : Fs) : Prop where
  notV1 : fs.desc.ops ≠ .v1
  notPdp7 : fs.desc.ops ≠ .pdp7
  list : fs.desc.freemap = .list
  noTail : fs.v8Nblks = 0

/-- A gone-bad i-list block recorded by the bad-block inode. -/
def IsRecord (fs : Fs) (ino b : Nat) : Prop :=
  fs.desc.badino ≠ 0 ∧ ino = fs.desc.badino ∧ 2 ≤ b ∧ b < v7DataFirst fs

/-- The inode is allocated and no device. -/
def HoldsBlocks (fs : Fs) (img : Buf) (ino : Nat) : Prop :=
  inodeState fs.desc ino (inodeOf fs img ino).mode ∉ [.unalloc, .ichr, .iblk]

/-- The slot or indirect entry `idxs` below `slot` of inode `ino` names `b`. -/
structure Names (fs : Fs) (img : Buf) (r : Nat × Nat × List Nat) (b : Nat) : Prop where
  pos : 1 ≤ r.1
  le : r.1 ≤ v7Maxinode fs
  holds : HoldsBlocks fs img r.1
  reaches : Reaches fs img (inodeOf fs img r.1) r.2.1 r.2.2 b

/-- Every data block is named once or free once, never both, and no inode names
    anything else. -/
def Accounted (fs : Fs) (img : Buf) : Prop :=
  ∃ listed, Pops fs img (fs.nfree, fs.free) listed ∧
    (∀ b, InData fs b → (∃! r, Names fs img r b) ∧ b ∉ listed ∨
      (∀ r, ¬ Names fs img r b) ∧ listed.count b = 1) ∧
    ∀ r b, Names fs img r b → InData fs b ∨ IsRecord fs r.1 b

/-! ## References as a list -/

/-- Blocks at and below `b`, `k` levels deep, each with the entries that lead to it. -/
def treeRefs (fs : Fs) (img : Buf) : Nat → Nat → List (List Nat × Nat)
  | 0, b => if b = 0 then [] else [([], b)]
  | k + 1, b =>
    if b = 0 then []
    else ([], b) :: (List.range fs.desc.nindir).flatMap fun i =>
      (treeRefs fs img k (entryOf fs img b i)).map fun r => (i :: r.1, r.2)

theorem mem_treeRefs {fs : Fs} {img : Buf} (k b : Nat) (idxs : List Nat) (b' : Nat) :
    (idxs, b') ∈ treeRefs fs img k b ↔
      idxs.length ≤ k ∧ (∀ i ∈ idxs, i < fs.desc.nindir) ∧ descend fs img b idxs = b' ∧ b' ≠ 0 := by
  induction k generalizing b idxs with
  | zero =>
    unfold treeRefs
    cases idxs with
    | nil => by_cases hb : b = 0 <;> simp [hb, descend] <;> omega
    | cons i idxs => by_cases hb : b = 0 <;> simp [hb]
  | succ k ih =>
    unfold treeRefs
    cases idxs with
    | nil => by_cases hb : b = 0 <;> simp [hb, descend] <;> omega
    | cons i idxs =>
      by_cases hb : b = 0
      · simp [hb, descend]; omega
      · simp only [if_neg hb, List.mem_cons, Prod.mk.injEq, reduceCtorEq, false_and, false_or, List.mem_flatMap,
          List.mem_range, List.mem_map, Prod.exists, List.cons.injEq, List.length_cons, descend]
        constructor
        · intro h
          obtain ⟨j, hj, p, c, hmem, ⟨rfl, rfl⟩, rfl⟩ := h
          obtain ⟨hlen, hidx, hdesc, hne⟩ := (ih _ _).mp hmem
          refine ⟨by omega, ?_, hdesc, hne⟩
          intro x h
          rcases h with rfl | hx
          · exact hj
          · exact hidx x hx
        · intro h
          obtain ⟨hlen, hidx, hdesc, hne⟩ := h
          exact ⟨i, hidx i (.inl rfl), idxs, b',
            (ih _ _).mpr ⟨by omega, fun x hx => hidx x (.inr hx), hdesc, hne⟩,
            ⟨rfl, rfl⟩, rfl⟩

def slotRefs (fs : Fs) (img : Buf) (ip : Inode) (slot : Nat) : List (List Nat × Nat) :=
  treeRefs fs img (depth fs.desc ip.mode slot) (ip.addr slot)

/-- The references of inode `ino`, in the order the checker meets them. -/
def inodeRefs (fs : Fs) (img : Buf) (ino : Nat) : List ((Nat × Nat × List Nat) × Nat) :=
  (List.range fs.desc.niaddr).flatMap fun slot =>
    (slotRefs fs img (inodeOf fs img ino) slot).map fun r => ((ino, slot, r.1), r.2)

instance (fs : Fs) (img : Buf) (ino : Nat) : Decidable (HoldsBlocks fs img ino) :=
  inferInstanceAs (Decidable (_ ∉ _))

/-- The references of the `n` inodes from `ino` on. -/
def refsFrom (fs : Fs) (img : Buf) : Nat → Nat → List ((Nat × Nat × List Nat) × Nat)
  | 0, _ => []
  | n + 1, ino => (if HoldsBlocks fs img ino then inodeRefs fs img ino else []) ++ refsFrom fs img n (ino + 1)

theorem mem_inodeRefs {fs : Fs} {img : Buf} {ino b : Nat} {r : Nat × Nat × List Nat} :
    (r, b) ∈ inodeRefs fs img ino ↔ r.1 = ino ∧ Reaches fs img (inodeOf fs img ino) r.2.1 r.2.2 b := by
  obtain ⟨n, slot, idxs⟩ := r
  simp only [inodeRefs, slotRefs, List.mem_flatMap, List.mem_range, List.mem_map, Prod.mk.injEq, Prod.exists]
  constructor
  · intro hr
    obtain ⟨sl, hsl, p, c, hmem, ⟨rfl, rfl, rfl⟩, rfl⟩ := hr
    obtain ⟨hlen, hidx, hdesc, hne⟩ := (mem_treeRefs _ _ _ _).mp hmem
    exact ⟨rfl, hsl, hlen, hidx, hdesc, hne⟩
  · rintro ⟨rfl, h⟩
    exact ⟨slot, h.slot_lt, idxs, b, (mem_treeRefs _ _ _ _).mpr ⟨h.deep, h.idx_lt, h.leads, h.ne_zero⟩,
      ⟨rfl, rfl, rfl⟩, rfl⟩

theorem mem_refsFrom {fs : Fs} {img : Buf} {n ino b : Nat} {r : Nat × Nat × List Nat} :
    (r, b) ∈ refsFrom fs img n ino ↔ ino ≤ r.1 ∧ r.1 < ino + n ∧ HoldsBlocks fs img r.1 ∧
      Reaches fs img (inodeOf fs img r.1) r.2.1 r.2.2 b := by
  induction n generalizing ino with
  | zero => simp [refsFrom]; omega
  | succ n ih =>
    rw [refsFrom, List.mem_append, ih]
    constructor
    · intro hrun
      rcases hrun with h | ⟨hlo, hhi, hh, hr⟩
      · split at h
        · obtain ⟨rfl, hr⟩ := mem_inodeRefs.mp h
          exact ⟨Nat.le_refl _, by omega, ‹_›, hr⟩
        · cases h
      · exact ⟨by omega, by omega, hh, hr⟩
    · intro hrun
      obtain ⟨hlo, hhi, hh, hr⟩ := hrun
      rcases Nat.eq_or_lt_of_le hlo with rfl | hlt
      · rw [if_pos hh]
        exact .inl (mem_inodeRefs.mpr ⟨rfl, hr⟩)
      · exact .inr ⟨hlt, by omega, hh, hr⟩

/-! ## Claiming blocks -/

/-- The checker's map says the data block `b` is claimed. -/
def Claimed (fs : Fs) (c : Chk) (b : Nat) : Prop := getBit c.bmap (b - v7DataFirst fs) = true

/-- From `c` to `c'` the blocks `L`, each beside the inode that names it, were claimed
    for the first time. -/
structure Claims (fs : Fs) (L : List (Nat × Nat)) (c c' : Chk) : Prop where
  legal : ∀ r ∈ L, InData fs r.2 ∨ IsRecord fs r.1 r.2
  nodup : ((L.map Prod.snd).filter fun b => decide (InData fs b)).Nodup
  fresh : ∀ r ∈ L, InData fs r.2 → ¬ Claimed fs c r.2
  bits : ∀ b, InData fs b → (Claimed fs c' b ↔ Claimed fs c b ∨ ∃ r ∈ L, r.2 = b)

/-- `L` was claimed, or a problem was counted. -/
structure Marks (fs : Fs) (L : List (Nat × Nat)) (c c' : Chk) : Prop where
  found_le : c.found ≤ c'.found
  claims : c'.found = c.found → Claims fs L c c'

theorem Claims.append {fs : Fs} {L L' : List (Nat × Nat)} {c c' c'' : Chk} (h : Claims fs L c c')
    (h' : Claims fs L' c' c'') :
    Claims fs (L ++ L') c c'' where
  legal r hr := by
    rcases List.mem_append.mp hr with hr | hr
    · exact h.legal r hr
    · exact h'.legal r hr
  nodup := by
    rw [List.map_append, List.filter_append, List.nodup_append]
    refine ⟨h.nodup, h'.nodup, ?_⟩
    intro a ha b hb hab
    subst hab
    simp only [List.mem_filter, List.mem_map, decide_eq_true_eq] at ha hb
    obtain ⟨⟨r, hr, rfl⟩, hin⟩ := ha
    obtain ⟨⟨r', hr', heq⟩, -⟩ := hb
    have hset : Claimed fs c' r.2 := (h.bits _ hin).mpr (.inr ⟨r, hr, rfl⟩)
    rw [← heq] at hset hin
    exact h'.fresh r' hr' hin hset
  fresh r hr hin := by
    rcases List.mem_append.mp hr with hr | hr
    · exact h.fresh r hr hin
    · exact fun hc => h'.fresh r hr hin ((h.bits _ hin).mpr (.inl hc))
  bits b hb := by
    rw [h'.bits b hb, h.bits b hb]
    simp only [List.mem_append, or_and_right, exists_or, or_assoc]

theorem Marks.append {fs : Fs} {L L' : List (Nat × Nat)} {c c' c'' : Chk} (h : Marks fs L c c')
    (h' : Marks fs L' c' c'') :
    Marks fs (L ++ L') c c'' where
  found_le := Nat.le_trans h.found_le h'.found_le
  claims heq := by
    have h1 := h.found_le
    have h2 := h'.found_le
    exact (h.claims (by omega)).append (h'.claims (by omega))

/-- Only the map and the count of problems matter. -/
theorem Marks.nil (fs : Fs) {c c' : Chk} (hb : c'.bmap = c.bmap) (hf : c'.found = c.found) :
    Marks fs [] c c' where
  found_le := Nat.le_of_eq hf.symm
  claims _ := {
    legal := by simp
    nodup := by simp
    fresh := by simp
    bits := by simp [Claimed, hb] }

theorem Marks.from {fs : Fs} {L : List (Nat × Nat)} {c c₀ c' : Chk}
    (h : Marks fs L c c') (hb : c.bmap = c₀.bmap)
    (hf : c.found = c₀.found) : Marks fs L c₀ c' := by
  have h0 : Marks fs [] c₀ c := .nil fs hb hf
  exact h0.append h

theorem Marks.problem {fs : Fs} {L : List (Nat × Nat)} {c c' : Chk} (h : c.found < c'.found) :
    Marks fs L c c' :=
  ⟨Nat.le_of_lt h, fun h' => absurd h' (by omega)⟩

section Rules

variable {α : Type} {s : Mnt × Chk} {Q : α → Mnt × Chk → Prop} {E : Errno → Mnt × Chk → Prop}

theorem post_engFs {f : Fs → MC α} (h : Post (f s.1.fs s) Q E) : Post ((eng getFs >>= f) s) Q E := h

theorem post_getChk {f : Chk → MC α} (h : Post (f s.2 s) Q E) : Post ((getChk >>= f) s) Q E := h

theorem post_modChk {g : Chk → Chk} {f : Unit → MC α} (h : Post (f () (s.1, g s.2)) Q E) :
    Post ((modChk g >>= f) s) Q E := h

end Rules

/-- Run on the mount `s` for inode `ino`, `x` claims `L` and reads the image at most. -/
def Claiming {α : Type} (s : Mnt) (ino : Nat) (x : MC α) (L : List (Nat × Nat)) : Prop :=
  ∀ k c, c.ino = ino → Post (x ({ s with ios := k }, c))
    (fun _ t => (∃ k', t.1 = { s with ios := k' }) ∧ t.2.ino = ino ∧ Marks s.fs L c t.2) (fun _ _ => False)

theorem claiming_pure {α : Type} {a : α} (s : Mnt) (ino : Nat) : Claiming s ino (pure a : MC α) [] :=
  fun k _ hc => ⟨⟨k, rfl⟩, hc, .nil s.fs rfl rfl⟩

theorem claiming_bind {α β : Type} {s : Mnt} {ino : Nat} {x : MC α} {f : α → MC β} {L L' : List (Nat × Nat)}
    (hx : Claiming s ino x L) (hf : ∀ a, Claiming s ino (f a) L') : Claiming s ino (x >>= f) (L ++ L') := by
  intro k c hc
  refine post_bind ((hx k c hc).mono ?_ fun _ _ h => h)
  intro a r hr
  obtain ⟨t, c'⟩ := r
  obtain ⟨⟨k', rfl⟩, hino, hm⟩ := hr
  refine (hf a k' c' hino).mono ?_ fun _ _ h => h
  intro b r hr
  obtain ⟨u, c''⟩ := r
  obtain ⟨hk, hino', hm'⟩ := hr
  exact ⟨hk, hino', hm.append hm'⟩

theorem claiming_eng {α β : Type} {s : Mnt} {ino : Nat} {x : M α} {f : α → MC β} {L : List (Nat × Nat)}
    (hx : ∀ k, Post (x { s with ios := k }) (fun a t => (∃ k', t = { s with ios := k' }) ∧
      Claiming s ino (f a) L)
      (fun _ _ => False)) : Claiming s ino (eng x >>= f) L := by
  intro k c hc
  refine post_bind (post_outside ((hx k).mono ?_ fun _ _ h => h))
  intro a t hr
  obtain ⟨⟨k', rfl⟩, hf⟩ := hr
  exact hf k' c hc

theorem claiming_getFs {β : Type} {s : Mnt} {ino : Nat} {f : Fs → MC β} {L : List (Nat × Nat)}
    (hf : Claiming s ino (f s.fs) L) : Claiming s ino (eng getFs >>= f) L :=
  claiming_eng fun k => ⟨⟨k, rfl⟩, hf⟩

theorem claiming_problem (s : Mnt) (ino : Nat) (L : List (Nat × Nat)) : Claiming s ino (modChk Chk.err) L :=
  fun k _ hc => ⟨⟨k, rfl⟩, hc, .problem (Nat.lt_succ_self _)⟩

section Family

variable {s : Mnt} (hl : OnFreelist s.fs)

include hl

theorem opsDataStart_v7 : opsDataStart s.fs = v7DataFirst s.fs := by
  unfold opsDataStart
  split
  · exact absurd ‹_› hl.notV1
  · exact absurd ‹_› hl.notPdp7
  · rfl

theorem opsDataEnd_v7 : opsDataEnd s.fs = s.fs.fsize := by
  unfold opsDataEnd
  split
  · exact absurd ‹_› hl.notV1
  · exact absurd ‹_› hl.notPdp7
  · rw [hl.noTail]; rfl

theorem opsMaxino_v7 : opsMaxino s.fs = v7Maxinode s.fs := by
  unfold opsMaxino
  split
  · exact absurd ‹_› hl.notV1
  · exact absurd ‹_› hl.notPdp7
  · rfl

/-- A first claim is `true`; anything else counts a problem. -/
theorem filsysMarkBlock_spec {b : Nat} (hb : b ≠ 0) (k : Nat) (c : Chk) :
    Post (filsysMarkBlock b ({ s with ios := k }, c)) (fun first t => t.1 = { s with ios := k } ∧
      t.2.ino = c.ino ∧
      Marks s.fs [(c.ino, b)] c t.2 ∧ (first = false → c.found < t.2.found)) (fun _ _ => False) := by
  refine post_engFs (post_getChk (post_ite (fun h => absurd h hb) fun _ => ?_))
  show Post ((if b < opsDataStart s.fs ∨ opsDataEnd s.fs ≤ b then _ else _ : MC Bool) _) _ _
  rw [opsDataStart_v7 hl, opsDataEnd_v7 hl]
  refine post_ite (fun hout => post_ite (fun hrec => ?_) fun _ => ?_) fun hin => ?_
  · refine ⟨rfl, rfl, ⟨Nat.le_refl _, fun _ => ?_⟩, fun h => by cases h⟩
    have hnot : ¬ InData s.fs b := by unfold InData; omega
    exact {
      legal := by
        intro r hr
        rcases hr with _ | ⟨_, ⟨⟩⟩
        exact .inr hrec
      nodup := by simp [hnot]
      fresh := by
        intro r hr h
        rcases hr with _ | ⟨_, ⟨⟩⟩
        exact absurd h hnot
      bits := by
        intro b' hb'
        refine ⟨.inl, ?_⟩
        intro hr
        rcases hr with h | ⟨r, _ | ⟨_, ⟨⟩⟩, rfl⟩
        · exact h
        · exact absurd hb' hnot }
  · exact ⟨rfl, rfl, .problem (Nat.lt_succ_self _), fun _ => Nat.lt_succ_self _⟩
  · have hdata : InData s.fs b := by unfold InData; omega
    apply post_ite
    · intro hset
      exact ⟨rfl, rfl, .problem (Nat.lt_succ_self _), fun _ => Nat.lt_succ_self _⟩
    · intro hclear
      refine ⟨rfl, rfl, ⟨Nat.le_refl _, fun _ => ?_⟩, fun h => by cases h⟩
      exact {
        legal := by
          intro r hr
          rcases hr with _ | ⟨_, ⟨⟩⟩
          exact .inl hdata
        nodup := by simp [hdata]
        fresh := by
          intro r hr _
          rcases hr with _ | ⟨_, ⟨⟩⟩
          exact hclear
        bits := by
          intro b' hb'
          have hiff : b' - v7DataFirst s.fs = b - v7DataFirst s.fs ↔ b' = b := by
            unfold InData at hdata hb'; omega
          simp only [Claimed, getBit_putBit, hiff, List.mem_singleton, exists_eq_left]
          by_cases h : b' = b
          · simp [h]
          · simp [h, Ne.symm h] }

omit hl in
theorem claiming_onlyIf {ino b : Nat} {x : MC Unit} {L : List (Nat × Nat)} (h0 : b = 0 → L = [])
    (hx : b ≠ 0 → Claiming s ino x L) : Claiming s ino (onlyIf (b ≠ 0) x) L := by
  unfold onlyIf
  split
  · exact hx ‹_›
  · rw [h0 (not_not.mp ‹_›)]
    exact claiming_pure s ino

omit hl in
theorem markEach_claiming {ino : Nat} {f : Nat → MC Unit} {g : Nat → List (Nat × Nat)} (h0 : g 0 = [])
    (hf : ∀ b, b ≠ 0 → Claiming s ino (f b) (g b)) (bs : List Nat) :
    Claiming s ino (markEach f bs) (bs.flatMap g) := by
  induction bs with
  | nil => exact claiming_pure s ino
  | cons b bs ih =>
    rw [List.flatMap_cons]
    exact claiming_bind (claiming_onlyIf (fun h => h ▸ h0) fun hb => hf b hb) fun _ => ih

/-- The references `rs` as claims of inode `ino`. -/
def tagged (ino : Nat) (rs : List (List Nat × Nat)) : List (Nat × Nat) := rs.map fun r => (ino, r.2)

omit hl in
theorem tagged_treeRefs_succ (ino k : Nat) {b : Nat} (hb : b ≠ 0) :
    tagged ino (treeRefs s.fs s.img (k + 1) b) =
      [(ino, b)] ++ (entries s.fs.desc (blockOf s.fs s.img b)).flatMap fun nb =>
      tagged ino (treeRefs s.fs s.img k nb) := by
  unfold tagged entries
  rw [treeRefs, if_neg hb, List.map_cons, List.map_flatMap, List.flatMap_map, List.singleton_append]
  simp only [List.map_map]
  rfl

omit hl in
theorem tagged_treeRefs_zero (ino k : Nat) : tagged ino (treeRefs s.fs s.img k 0) = [] := by
  cases k with
  | zero => rfl
  | succ k => rfl

variable (hs : Solo s)

include hs

theorem readBlock_reads (b k : Nat) :
    Post (attempt (readBlock b) { s with ios := k }) (fun r t => (∃ k', t = { s with ios := k' }) ∧
      ∀ buf, r = .ok buf → buf = blockOf s.fs s.img b) (fun _ _ => False) := by
  apply post_attempt
  rw [readBlock_v7 (s := { s with ios := k }) hl.notV1 hl.notPdp7]
  refine (v7fsReadBlock_spec b (s := { s with ios := k }) hs).mono ?_ ?_
  · intro buf t hr
    obtain ⟨rfl, ht⟩ := hr
    exact ⟨(ht hs).imp fun _ h => h.2, fun _ h => by cases h; rfl⟩
  · intro e t ht
    exact ⟨(ht hs).imp fun _ h => h.2, fun _ h => by cases h⟩

theorem markWith_claiming {ino k : Nat} {child : Nat → MC Unit}
    (hc : ∀ b, b ≠ 0 → Claiming s ino (child b) (tagged ino (treeRefs s.fs s.img k b))) (b : Nat) :
    Claiming s ino (markWith child b) (tagged ino (treeRefs s.fs s.img (k + 1) b)) := by
  unfold markWith
  split
  · rename_i hb
    subst hb
    exact claiming_pure s ino
  · rename_i hb
    rw [tagged_treeRefs_succ ino k hb]
    intro j c hino
    refine post_bind ((filsysMarkBlock_spec hl hb j c).mono ?_ fun _ _ h => h)
    intro first x hrun
    obtain ⟨t, c'⟩ := x
    obtain ⟨rfl, hino', hm, hfirst⟩ := hrun
    cases first with
    | false =>
      exact ⟨⟨j, rfl⟩, hino'.trans hino, .problem (hfirst rfl)⟩
    | true =>
      rw [hino] at hm
      rw [if_pos rfl]
      refine Post.mono ((claiming_getFs (L := (entries s.fs.desc (blockOf s.fs s.img b)).flatMap
        fun nb => tagged ino (treeRefs s.fs s.img k nb)) (claiming_eng fun k' =>
        (readBlock_reads hl hs b k').mono ?_ fun _ _ h => h)) j c' (hino'.trans hino)) ?_ fun _ _ h => h
      · intro r t hrun
        obtain ⟨ht, hr⟩ := hrun
        refine ⟨ht, ?_⟩
        cases r with
        | error e => exact claiming_problem s ino _
        | ok buf =>
          rw [hr buf rfl]
          exact markEach_claiming (tagged_treeRefs_zero ino k) hc _
      · intro _ u hu
        obtain ⟨hk, hino'', hm'⟩ := hu
        exact ⟨hk, hino'', hm.append hm'⟩

theorem filsysMarkTree_claiming (ino l b : Nat) :
    Claiming s ino (filsysMarkTree l b) (tagged ino (treeRefs s.fs s.img (l + 1) b)) := by
  induction l generalizing b with
  | zero =>
    refine markWith_claiming hl hs (fun nb hnb => ?_) b
    rw [treeRefs, if_neg hnb]
    intro j c hino
    refine post_bind ((filsysMarkBlock_spec hl hnb j c).mono ?_ fun _ _ h => h)
    intro first r hr
    obtain ⟨t, c'⟩ := r
    obtain ⟨rfl, hino', hm, -⟩ := hr
    rw [hino] at hm
    exact ⟨⟨j, rfl⟩, hino'.trans hino, hm⟩
  | succ l ih => exact markWith_claiming hl hs (fun nb _ => ih nb) b

theorem markSlot_claiming (ino : Nat) (ip : Inode) (slot : Nat) (h : ip.addr slot ≠ 0) :
    Claiming s ino (markSlot (slotLevel s.fs.desc ip.mode slot) (ip.addr slot))
    (tagged ino (slotRefs s.fs s.img ip slot)) := by
  unfold slotRefs depth
  cases hlev : slotLevel s.fs.desc ip.mode slot with
  | some level => exact filsysMarkTree_claiming hl hs ino level _
  | none =>
    rw [treeRefs, if_neg h]
    intro j c hino
    refine post_bind ((filsysMarkBlock_spec hl h j c).mono ?_ fun _ _ h => h)
    intro first r hr
    obtain ⟨t, c'⟩ := r
    obtain ⟨rfl, hino', hm, -⟩ := hr
    rw [hino] at hm
    exact ⟨⟨j, rfl⟩, hino'.trans hino, hm⟩

theorem markSlots_claiming (ino : Nat) (ip : Inode) (todo i : Nat) :
    Claiming s ino (markSlots ip todo i) ((List.range' i todo).flatMap fun slot =>
      tagged ino (slotRefs s.fs s.img ip slot)) := by
  induction todo generalizing i with
  | zero => exact claiming_pure s ino
  | succ todo ih =>
    rw [List.range'_succ, List.flatMap_cons]
    refine claiming_getFs (claiming_bind (claiming_onlyIf (fun h0 => ?_) fun h =>
      markSlot_claiming hl hs ino ip i h) fun _ => ih (i + 1))
    unfold slotRefs
    rw [h0]
    exact tagged_treeRefs_zero ino _

/-- The references `rs` as claims of the inodes that make them. -/
def claimsOf (rs : List ((Nat × Nat × List Nat) × Nat)) : List (Nat × Nat) := rs.map fun r => (r.1.1, r.2)

omit hl hs in
theorem claimsOf_inodeRefs (ino : Nat) : claimsOf (inodeRefs s.fs s.img ino) =
    (List.range' 0 s.fs.desc.niaddr).flatMap fun slot =>
    tagged ino (slotRefs s.fs s.img (inodeOf s.fs s.img ino) slot) := by
  unfold claimsOf inodeRefs tagged
  rw [List.map_flatMap, ← List.range_eq_range']
  simp only [List.map_map]
  rfl

theorem filsysMarkBlocks_claiming (ino : Nat) :
    Claiming s ino (filsysMarkBlocks (inodeOf s.fs s.img ino)) (claimsOf (inodeRefs s.fs s.img ino)) := by
  rw [claimsOf_inodeRefs]
  exact claiming_getFs (markSlots_claiming hl hs ino _ _ 0)

theorem markInode_marks (ino k : Nat) (c : Chk) :
    Post (markInode (inodeState s.fs.desc ino (inodeOf s.fs s.img ino).mode) ino
      (inodeOf s.fs s.img ino) ({ s with ios := k }, c))
      (fun _ t => (∃ k', t.1 = { s with ios := k' }) ∧
        Marks s.fs (claimsOf (if HoldsBlocks s.fs s.img ino then inodeRefs s.fs s.img ino else [])) c
        t.2) (fun _ _ => False) := by
  have hiff : HoldsBlocks s.fs s.img ino ↔
    inodeState s.fs.desc ino (inodeOf s.fs s.img ino).mode ∉ [.unalloc, .ichr, .iblk] := Iff.rfl
  generalize inodeState s.fs.desc ino (inodeOf s.fs s.img ino).mode = st at hiff ⊢
  refine post_ite (fun h0 => ?_) fun h0 => post_modChk (post_ite (fun h1 => ?_) fun h1 =>
    post_ite (fun h2 => ?_) fun h2 => ?_)
  · rw [if_neg (by rw [hiff, h0]; simp)]
    exact ⟨⟨k, rfl⟩, .nil _ rfl rfl⟩
  · exact ⟨⟨k, rfl⟩, .problem (Nat.lt_succ_self _)⟩
  · rw [if_neg (by rw [hiff]; rcases h2 with h2 | h2 <;> simp [h2])]
    exact ⟨⟨k, rfl⟩, .nil _ rfl rfl⟩
  · rw [if_pos (by rw [hiff]; simp only [not_or] at h2; simp [h0, h2.1, h2.2])]
    refine post_modChk ((filsysMarkBlocks_claiming hl hs ino k _ rfl).mono ?_ fun _ _ h => h)
    intro _ t hr
    obtain ⟨hk, -, hm⟩ := hr
    exact ⟨hk, hm.from rfl rfl⟩

theorem readInode_reads (ino k : Nat) :
    Post (attempt (readInode ino) { s with ios := k }) (fun r t => (∃ k', t = { s with ios := k' }) ∧
      ∀ ip, r = .ok ip → ip = inodeOf s.fs s.img ino) (fun _ _ => False) := by
  apply post_attempt
  rw [readInode_v7 (s := { s with ios := k }) hl.notV1 hl.notPdp7]
  refine (v7fsReadInode_spec ino (s := { s with ios := k }) hs).mono ?_ ?_
  · intro buf t hr
    obtain ⟨rfl, ht⟩ := hr
    exact ⟨(ht hs).imp fun _ h => h.2, fun _ h => by cases h; rfl⟩
  · intro e t ht
    exact ⟨(ht hs).imp fun _ h => h.2, fun _ h => by cases h⟩

theorem markInodes_marks (todo ino : Nat) (state : Nat → InState) (k : Nat) (c : Chk) :
    Post (markInodes todo ino state ({ s with ios := k }, c))
      (fun _ t => (∃ k', t.1 = { s with ios := k' }) ∧
        Marks s.fs (claimsOf (refsFrom s.fs s.img todo ino)) c t.2)
      (fun _ _ => False) := by
  induction todo generalizing ino state k c with
  | zero => exact ⟨⟨k, rfl⟩, .nil _ rfl rfl⟩
  | succ todo ih =>
    refine post_engFs (post_bind (post_outside ((readInode_reads hl hs ino k).mono ?_ fun _ _ h => h)))
    intro r t hrun
    obtain ⟨⟨k', rfl⟩, hr⟩ := hrun
    cases r with
    | error e =>
      refine post_modChk ((ih (ino + 1) state k' _).mono ?_ fun _ _ h => h)
      intro _ t hrun
      obtain ⟨hk, hm⟩ := hrun
      exact ⟨hk, .problem (Nat.lt_of_lt_of_le (Nat.lt_succ_self _) hm.found_le)⟩
    | ok ip =>
      rw [hr ip rfl]
      refine post_bind ((markInode_marks hl hs ino k' c).mono ?_ fun _ _ h => h)
      intro _ x hrun
      obtain ⟨t, c'⟩ := x
      obtain ⟨⟨k'', rfl⟩, hm⟩ := hrun
      refine (ih (ino + 1) _ k'' c').mono ?_ fun _ _ h => h
      intro _ t hrun
      obtain ⟨hk, hm'⟩ := hrun
      refine ⟨hk, ?_⟩
      rw [refsFrom]
      unfold claimsOf
      rw [List.map_append]
      exact hm.append hm'

/-! ## The free list and the missing blocks -/

/-- The free list from the cache `c₀` was walked to its end and claimed. -/
structure Listed (s : Mnt) (c₀ : Cache) (c c' : Chk) (L : List Nat) : Prop where
  pops : Pops s.fs s.img c₀ L
  inData : ∀ b ∈ L, InData s.fs b
  nodup : L.Nodup
  fresh : ∀ b ∈ L, ¬ Claimed s.fs c b
  bits : ∀ b, InData s.fs b → (Claimed s.fs c' b ↔ Claimed s.fs c b ∨ b ∈ L)

omit hl hs in
theorem Listed.nil {c₀ : Cache} {c c' : Chk} (h : popStep s.fs s.img c₀ = none) (hb : c'.bmap = c.bmap) :
    Listed s c₀ c c' [] := ⟨.done h, by simp, by simp, by simp, by simp [Claimed, hb]⟩

omit hl hs in
theorem Listed.cons {c₀ c₁ : Cache} {c c' c'' : Chk} {b : Nat} {L : List Nat}
    (hpop : popStep s.fs s.img c₀ = some (b, c₁))
    (hin : InData s.fs b) (hfree : ¬ Claimed s.fs c b)
    (hset : ∀ b', InData s.fs b' → (Claimed s.fs c' b' ↔ Claimed s.fs c b' ∨ b' = b))
    (h : Listed s c₁ c' c'' L) :
    Listed s c₀ c c'' (b :: L) where
  pops := .pop hpop h.pops
  inData := by
    intro x hr
    rcases hr with _ | ⟨_, hx⟩
    · exact hin
    · exact h.inData x ‹_›
  nodup := List.nodup_cons.mpr ⟨fun hmem => h.fresh b hmem ((hset b hin).mpr (.inr rfl)), h.nodup⟩
  fresh := by
    intro x hr
    rcases hr with _ | ⟨_, hx⟩
    · exact hfree
    · intro hc
      exact h.fresh x ‹_› ((hset x (h.inData x ‹_›)).mpr (.inl hc))
  bits x hx := by
    rw [h.bits x hx, hset x hx, List.mem_cons, or_assoc]

/-- The walk from `c₀` was completed, or a problem was counted. -/
def Walked (s : Mnt) (c₀ : Cache) (c : Chk) (t : Mnt × Chk) : Prop :=
  (∃ k, t.1 = { s with ios := k }) ∧ c.found ≤ t.2.found ∧ (t.2.found = c.found → ∃ L, Listed s c₀ c t.2 L)

omit hl hs in
theorem walked_problem {c₀ : Cache} {c c' : Chk} {k : Nat} (h : c.found ≤ c'.found) :
    Post (modChk Chk.err ({ s with ios := k }, c')) (fun _ t => Walked s c₀ c t) (fun _ _ => True) :=
  ⟨⟨k, rfl⟩, Nat.le_succ_of_le h, fun he => absurd he (by show c'.found + 1 ≠ _; omega)⟩

omit hl hs in
theorem markFree_spec {b : Nat} (hin : InData s.fs b) (k : Nat) (c : Chk) :
    Post (markFree b ({ s with ios := k }, c)) (fun _ t => t.1 = { s with ios := k } ∧ c.found ≤ t.2.found ∧
      (t.2.found = c.found → ¬ Claimed s.fs c b ∧
        ∀ b', InData s.fs b' → (Claimed s.fs t.2 b' ↔ Claimed s.fs c b' ∨ b' = b))) (fun _ _ => False) := by
  refine post_engFs (post_getChk (post_ite ?_ ?_))
  · intro hset
    exact ⟨rfl, Nat.le_succ _, fun h => absurd h (Nat.succ_ne_self _)⟩
  · intro hclear
    refine ⟨rfl, Nat.le_refl _, fun _ => ⟨hclear, fun b' hb' => ?_⟩⟩
    have hiff : b' - v7DataFirst s.fs = b - v7DataFirst s.fs ↔ b' = b := by
      unfold InData at hin hb'; omega
    show getBit (putBit c.bmap (b - v7DataFirst s.fs) true) (b' - v7DataFirst s.fs) = true ↔ _
    rw [getBit_putBit]
    simp only [hiff, Claimed]
    by_cases h : b' = b
    · simp [h]
    · simp [h]

omit hl in
theorem walkFreeList_walked (fuel n : Nat) (cur : Nat → Nat) (seen : List Nat) (guard k : Nat) (c : Chk) :
    Post (walkFreeList fuel n cur seen guard ({ s with ios := k }, c))
    (fun _ t => Walked s (n, cur) c t) (fun _ _ => True) := by
  induction fuel generalizing n cur seen guard k c with
  | zero => exact trivial
  | succ fuel ih =>
    have hend : popStep s.fs s.img (n, cur) = none → Walked s (n, cur) c ({ s with ios := k }, c) :=
      fun h => ⟨⟨k, rfl⟩, Nat.le_refl _, fun _ => ⟨[], .nil h rfl⟩⟩
    refine post_engFs (post_ite (fun hn => hend (by simp [popStep, hn])) fun hn => ?_)
    refine post_ite (fun h0 => hend (by simp [popStep, h0])) fun h0 => ?_
    refine post_ite (fun _ => walked_problem (Nat.le_refl _)) fun hout => ?_
    have hin : InData s.fs (cur (n - 1)) := by
      show v7DataFirst s.fs ≤ _ ∧ _ < s.fs.fsize
      refine ⟨?_, Nat.lt_of_not_le (not_or.mp hout).2⟩
      have := not_or.mp hout
      exact Nat.le_of_not_lt this.1
    refine post_ite (fun _ => walked_problem (Nat.le_refl _)) fun _ => ?_
    refine post_bind ((markFree_spec hin k c).mono ?_ fun _ _ h => absurd h id)
    intro _ r hr
    obtain ⟨t, c'⟩ := r
    obtain ⟨rfl, hle, hset⟩ := hr
    refine post_ite (fun _ => walked_problem hle) fun _ => ?_
    -- the rest of the walk, from the cache the pop leaves
    have hrest : ∀ {c₁ : Cache} {u : Mnt × Chk}, popStep s.fs s.img (n, cur) = some (cur (n - 1), c₁) →
        Walked s c₁ c' u → Walked s (n, cur) c u := by
      intro c₁ u hpop hr
      obtain ⟨hk, hle', hlist⟩ := hr
      refine ⟨hk, Nat.le_trans hle hle', fun heq => ?_⟩
      have hle'' : c'.found ≤ u.2.found := hle'
      have hle₀ : c.found ≤ c'.found := hle
      obtain ⟨L, hL⟩ := hlist (by omega)
      obtain ⟨hfree, hbits⟩ := hset (by show c'.found = c.found; omega)
      exact ⟨_, hL.cons hpop hin hfree hbits⟩
    have hstep : popStep s.fs s.img (n, cur) =
        if n - 1 = 0 then some (cur (n - 1), chainOf s.fs s.img (cur (n - 1)))
          else some (cur (n - 1), n - 1, cur) := by
      simp only [popStep, if_neg hn, if_neg h0]
      rw [if_neg hout]
    apply post_ite
    · intro hlast
      refine post_bind (post_outside
        (post_attempt ((v7fsReadBlock_spec _ (s := { s with ios := k }) hs).mono ?_ ?_)))
      · intro blk t hr
        obtain ⟨rfl, ht⟩ := hr
        obtain ⟨k', -, rfl⟩ := ht hs
        refine post_ite (fun _ => walked_problem hle) fun _ => ?_
        rw [if_pos hlast] at hstep
        exact (ih _ _ _ _ k' c').mono (fun _ _ h => hrest hstep h) fun _ _ h => h
      · intro e t ht
        obtain ⟨k', -, rfl⟩ := ht hs
        exact walked_problem hle
    · intro hmore
      rw [if_neg hmore] at hstep
      exact (ih _ _ _ _ k c').mono (fun _ _ h => hrest hstep h) fun _ _ h => h

end Family

/-! ## The counter -/

/-- Problems are only added, and the counter follows their number modulo 2^32. -/
structure Counted (a b : Mnt × Chk) : Prop where
  found_le : a.2.found ≤ b.2.found
  errors : a.2.errors = a.2.found % 2 ^ 32 → b.2.errors = b.2.found % 2 ^ 32

theorem counted_law : Law Counted where
  refl _ := ⟨Nat.le_refl _, id⟩
  trans h h' := ⟨Nat.le_trans h.found_le h'.found_le, fun he => h'.errors (h.errors he)⟩

theorem eng_counted {α : Type} (x : M α) : Keeps Counted (eng x) := by
  intro s
  apply post_outside
  cases x s.1 with
  | ok a t => exact ⟨Nat.le_refl _, id⟩
  | error e t => exact ⟨Nat.le_refl _, id⟩

theorem getChk_counted : Keeps Counted getChk := fun s => counted_law.refl s

theorem modChk_counted {f : Chk → Chk} (hf : ∀ c, (f c).found = c.found ∧ (f c).errors = c.errors) :
    Keeps Counted (modChk f) := by
  intro s
  refine ⟨Nat.le_of_eq (hf s.2).1.symm, fun he => ?_⟩
  show (f s.2).errors = (f s.2).found % 2 ^ 32
  rw [(hf s.2).1, (hf s.2).2, he]

theorem modErr_counted {f : Chk → Chk} (hf : ∀ c, (f c).found = c.found + 1 ∧ (f c).errors = inc32 c.errors) :
    Keeps Counted (modChk f) := by
  intro s
  refine ⟨by show _ ≤ (f s.2).found; rw [(hf s.2).1]; exact Nat.le_succ _, fun he => ?_⟩
  show (f s.2).errors = (f s.2).found % 2 ^ 32
  rw [(hf s.2).1, (hf s.2).2, he, inc32]
  omega

theorem err_counted : Keeps Counted (modChk Chk.err) := modErr_counted fun _ => ⟨rfl, rfl⟩

/-- What the totals and the link counts keep: whatever the engine and the counted problems do. -/
structure TailLaw (R : Mnt × Chk → Mnt × Chk → Prop) : Prop extends Law R where
  eng : ∀ {α : Type} (x : M α), Keeps R (eng x)
  err : Keeps R (modChk Chk.err)
  orphan : Keeps R (modChk fun c => { c.err with orphaned := inc32 c.orphaned })

section Tail

variable {R : Mnt × Chk → Mnt × Chk → Prop} (tail : TailLaw R)

include tail

theorem checkTotals_keeps (maxino : Nat) : Keeps R (checkTotals maxino) := by
  have law := tail.toLaw
  refine keeps_bind law (tail.eng _) fun _ => keeps_ite (keeps_bind law (fun s => law.refl s)
    fun _ => ?_) (keeps_pure law)
  exact keeps_bind law (keeps_onlyIf law tail.err) fun _ => keeps_onlyIf law tail.err

theorem countEntries_keeps (d : Desc) (maxino : Nat) (state : Nat → InState) (ip : Inode) (fuel : Nat)
    (st : Iter)
    (ecount : Nat → Nat) : Keeps R (countEntries d maxino state ip fuel st ecount) := by
  have law := tail.toLaw
  induction fuel generalizing st ecount with
  | zero => exact keeps_throw law
  | succ fuel ih =>
    refine keeps_bind law (tail.eng _) fun r => ?_
    rcases r with ⟨e | ⟨_ | ⟨dno, name⟩, st'⟩, l⟩
    · exact keeps_pure law
    · exact keeps_pure law
    · exact keeps_ite (ih _ _) <| keeps_ite (keeps_bind law tail.err fun _ => ih _ _) <|
        keeps_bind law (keeps_onlyIf law tail.err) fun _ => ih _ _

theorem countDirs_keeps (maxino : Nat) (state : Nat → InState) (todo ino : Nat) (ecount : Nat → Nat) :
    Keeps R (countDirs maxino state todo ino ecount) := by
  have law := tail.toLaw
  induction todo generalizing ino ecount with
  | zero => exact keeps_pure law
  | succ todo ih =>
    refine keeps_bind law (tail.eng _) fun fs => keeps_bind law (tail.eng _) fun r => ?_
    cases r with
    | error e => exact ih _ _
    | ok ip => exact keeps_ite (keeps_bind law (countEntries_keeps tail _ _ _ _ _ _ _) fun _ => ih _ _) (ih _ _)

theorem compareCounts_keeps (state : Nat → InState) (ecount : Nat → Nat) (todo ino : Nat) :
    Keeps R (compareCounts state ecount todo ino) := by
  have law := tail.toLaw
  induction todo generalizing ino with
  | zero => exact keeps_pure law
  | succ todo ih =>
    refine keeps_bind law (tail.eng _) fun r => ?_
    cases r with
    | error e => exact ih _
    | ok ip =>
      refine keeps_bind law ?_ fun _ => ih _
      refine keeps_bind law (tail.eng _) fun fs => keeps_ite tail.orphan <|
        keeps_ite (keeps_pure law) <| keeps_ite (keeps_pure law) <|
        keeps_ite (keeps_pure law) <| keeps_ite (keeps_pure law) tail.err

end Tail

/-- What the first pass keeps besides: claims, refusals and the count of inodes. -/
structure PassLaw (R : Mnt × Chk → Mnt × Chk → Prop) : Prop extends TailLaw R where
  bad : Keeps R (modChk fun c => { c.err with badBlocks := inc32 c.badBlocks })
  dup : Keeps R (modChk fun c => { c.err with dupBlocks := inc32 c.dupBlocks })
  claim : ∀ i, Keeps R (modChk fun c =>
    { c with bmap := putBit c.bmap i true, usedBlocks := inc32 c.usedBlocks })
  used : Keeps R (modChk fun c => { c with usedInodes := inc32 c.usedInodes })
  owner : ∀ n, Keeps R (modChk fun c => { c with ino := n })

section Pass

variable {R : Mnt × Chk → Mnt × Chk → Prop} (pass : PassLaw R)

include pass

theorem filsysMarkBlock_keeps (b : Nat) : Keeps R (filsysMarkBlock b) := by
  have law := pass.toLaw
  refine keeps_bind law (pass.eng _) fun fs => ?_
  refine keeps_bind law (fun s => law.refl s) fun c => ?_
  refine keeps_ite (keeps_pure law) <| keeps_ite (keeps_ite (keeps_pure law) ?_) <| keeps_ite ?_ ?_
  · exact keeps_bind law pass.bad fun _ => keeps_pure law
  · exact keeps_bind law pass.dup fun _ => keeps_pure law
  · exact keeps_bind law (pass.claim _) fun _ => keeps_pure law

theorem markEach_keeps {f : Nat → MC Unit} (hf : ∀ b, Keeps R (f b)) (bs : List Nat) :
    Keeps R (markEach f bs) := by
  have law := pass.toLaw
  induction bs with
  | nil => exact keeps_pure law
  | cons b bs ih => exact keeps_bind law (keeps_onlyIf law (hf b)) fun _ => ih

theorem markWith_keeps {f : Nat → MC Unit} (hf : ∀ b, Keeps R (f b)) (b : Nat) : Keeps R (markWith f b) := by
  have law := pass.toLaw
  refine keeps_ite (keeps_pure law) <| keeps_bind law (filsysMarkBlock_keeps pass b) fun first =>
    keeps_ite ?_ (keeps_pure law)
  refine keeps_bind law (pass.eng _) fun fs => keeps_bind law (pass.eng _) fun r => ?_
  cases r with
  | error e => exact pass.err
  | ok buf => exact markEach_keeps pass hf _

theorem filsysMarkTree_keeps (l b : Nat) : Keeps R (filsysMarkTree l b) := by
  have law := pass.toLaw
  induction l generalizing b with
  | zero =>
    exact markWith_keeps pass (fun nb => keeps_bind law (filsysMarkBlock_keeps pass nb)
      fun _ => keeps_pure law) b
  | succ l ih => exact markWith_keeps pass ih b

theorem markSlots_keeps (ip : Inode) (todo i : Nat) : Keeps R (markSlots ip todo i) := by
  have law := pass.toLaw
  induction todo generalizing i with
  | zero => exact keeps_pure law
  | succ todo ih =>
    refine keeps_bind law (pass.eng _) fun fs => keeps_bind law (keeps_onlyIf law ?_) fun _ => ih (i + 1)
    unfold markSlot
    split
    · exact keeps_bind law (filsysMarkBlock_keeps pass _) fun _ => keeps_pure law
    · exact filsysMarkTree_keeps pass _ _

theorem markInode_keeps (st : InState) (ino : Nat) (ip : Inode) : Keeps R (markInode st ino ip) := by
  have law := pass.toLaw
  refine keeps_ite (keeps_pure law) <| keeps_bind law pass.used fun _ => ?_
  refine keeps_ite pass.err <| keeps_ite (keeps_pure law) <| keeps_bind law (pass.owner ino) fun _ => ?_
  exact keeps_bind law (pass.eng _) fun _ => markSlots_keeps pass _ _ _

theorem markInodes_keeps (todo ino : Nat) (state : Nat → InState) : Keeps R (markInodes todo ino state) := by
  have law := pass.toLaw
  induction todo generalizing ino state with
  | zero => exact keeps_pure law
  | succ todo ih =>
    refine keeps_bind law (pass.eng _) fun fs => keeps_bind law (pass.eng _) fun r => ?_
    cases r with
    | error e => exact keeps_bind law pass.err fun _ => ih _ _
    | ok ip => exact keeps_bind law (markInode_keeps pass _ _ _) fun _ => ih _ _

end Pass

theorem counted_tail : TailLaw Counted where
  toLaw := counted_law
  eng := eng_counted
  err := err_counted
  orphan := modErr_counted fun _ => ⟨rfl, rfl⟩

theorem counted_pass : PassLaw Counted where
  toTailLaw := counted_tail
  bad := modErr_counted fun _ => ⟨rfl, rfl⟩
  dup := modErr_counted fun _ => ⟨rfl, rfl⟩
  claim _ := modChk_counted fun _ => ⟨rfl, rfl⟩
  used := modChk_counted fun _ => ⟨rfl, rfl⟩
  owner _ := modChk_counted fun _ => ⟨rfl, rfl⟩

theorem markFree_counted (b : Nat) : Keeps Counted (markFree b) :=
  keeps_bind counted_law (eng_counted _) fun _ => keeps_bind counted_law getChk_counted fun _ =>
    keeps_ite (modErr_counted fun _ => ⟨rfl, rfl⟩) (modChk_counted fun _ => ⟨rfl, rfl⟩)

theorem walkFreeList_counted (fuel n : Nat) (cur : Nat → Nat) (seen : List Nat) (guard : Nat) :
    Keeps Counted (walkFreeList fuel n cur seen guard) := by
  induction fuel generalizing n cur seen guard with
  | zero => exact keeps_throw counted_law
  | succ fuel ih =>
    refine keeps_bind counted_law (eng_counted _) fun fs => ?_
    refine keeps_ite (keeps_pure counted_law) <| keeps_ite (keeps_pure counted_law) <|
      keeps_ite err_counted <| keeps_ite err_counted <|
      keeps_bind counted_law (markFree_counted _) fun _ => ?_
    refine keeps_ite err_counted <| keeps_ite ?_ (ih _ _ _ _)
    refine keeps_bind counted_law (eng_counted _) fun r => ?_
    cases r with
    | error e => exact err_counted
    | ok blk => exact keeps_ite err_counted (ih _ _ _ _)

/-! ## Missing blocks -/

/-- Clear bits among the `todo` from `off` on. -/
def clears (bmap : Buf) : Nat → Nat → Nat
  | 0, _ => 0
  | todo + 1, off => (if getBit bmap off then 0 else 1) + clears bmap todo (off + 1)

theorem clears_eq (bmap : Buf) (todo off : Nat) :
    clears bmap todo off = ((List.range' off todo).filter fun i => !getBit bmap i).length := by
  induction todo generalizing off with
  | zero => rfl
  | succ todo ih =>
    rw [clears, ih, List.range'_succ, List.filter_cons]
    cases getBit bmap off with
    | true => simp
    | false => simp [Nat.add_comm]

theorem clears_le (bmap : Buf) (todo off : Nat) : clears bmap todo off ≤ todo := by
  induction todo generalizing off with
  | zero => exact Nat.le_refl 0
  | succ todo ih =>
    have := ih (off + 1)
    rw [clears]
    split <;> omega

theorem clears_eq_zero {bmap : Buf} {todo off : Nat} : clears bmap todo off = 0 ↔ ∀ i, off ≤ i →
    i < off + todo → getBit bmap i = true := by
  rw [clears_eq, List.length_eq_zero_iff, List.filter_eq_nil_iff]
  simp only [List.mem_range'_1, Bool.not_eq_true', Bool.not_eq_false, and_imp]

theorem clears_of_clear {bmap : Buf} {todo off : Nat}
    (h : ∀ i, off ≤ i → i < off + todo → getBit bmap i = false) : clears bmap todo off = todo := by
  induction todo generalizing off with
  | zero => rfl
  | succ todo ih =>
    rw [clears, ih fun i h1 h2 => h i (by omega) (by omega), h off (Nat.le_refl _) (by omega)]
    simp [Nat.add_comm]

/-- `n` missing blocks, as the counters have them. -/
def missed (c : Chk) : Nat → Chk
  | 0 => c
  | n + 1 => { c with
    errors := (c.errors + n + 1) % 2 ^ 32
    missingBlocks := (c.missingBlocks + n + 1) % 2 ^ 32
    found := c.found + n + 1 }

section Missed

variable (c : Chk) (n : Nat)

theorem missed_free : (missed c n).freeBlocks = c.freeBlocks := by
  cases n <;> rfl

theorem missed_used : (missed c n).usedInodes = c.usedInodes := by
  cases n <;> rfl

theorem missed_found : (missed c n).found = c.found + n := by
  cases n <;> rfl

variable {c}

theorem missed_errors (h : c.errors = c.found % 2 ^ 32) :
    (missed c n).errors = (missed c n).found % 2 ^ 32 := by
  cases n with
  | zero => exact h
  | succ n =>
    show (c.errors + n + 1) % 2 ^ 32 = (c.found + n + 1) % 2 ^ 32
    omega

/-- One more. -/
theorem missed_succ : missed { c.err with missingBlocks := inc32 c.missingBlocks } n = missed c (n + 1) := by
  cases n with
  | zero => rfl
  | succ n =>
    show ({ c with
        errors := (inc32 c.errors + n + 1) % 2 ^ 32, missingBlocks := (inc32 c.missingBlocks + n + 1) % 2 ^ 32
        found := c.found + 1 + n + 1 } : Chk) =
      { c with
        errors := (c.errors + (n + 1) + 1) % 2 ^ 32, missingBlocks := (c.missingBlocks + (n + 1) + 1) % 2 ^ 32
        found := c.found + (n + 1) + 1 }
    unfold inc32
    simp only [Chk.mk.injEq, true_and]
    omega

end Missed

/-- What the count of missing blocks comes to. -/
theorem countMissing_eq (todo off : Nat) (t : Mnt) (c : Chk) :
    countMissing todo off (t, c) = .ok () (t, missed c (clears c.bmap todo off)) := by
  induction todo generalizing off c with
  | zero => rfl
  | succ todo ih =>
    show (onlyIf ((!getBit c.bmap off) = true) (modChk fun c =>
      { c.err with missingBlocks := inc32 c.missingBlocks }) >>= fun _ =>
      countMissing todo (off + 1)) (t, c) = _
    rw [clears]
    cases hbit : getBit c.bmap off with
    | true =>
      rw [if_pos rfl, Nat.zero_add]
      exact ih (off + 1) c
    | false =>
      rw [if_neg Bool.false_ne_true, Nat.add_comm 1 (clears _ _ _), ← missed_succ]
      exact ih (off + 1) _

theorem countMissing_counted (todo off : Nat) : Keeps Counted (countMissing todo off) := by
  rintro ⟨t, c⟩
  rw [countMissing_eq]
  refine ⟨?_, missed_errors _⟩
  show c.found ≤ (missed c _).found
  rw [missed_found]
  exact Nat.le_add_right _ _

/-! ## The report -/

theorem mapOverrun_of_map {fs : Fs} (h : mapBytes fs ≠ 0) (c : Chk) : mapOverrun fs c = false := by
  unfold mapOverrun
  simp [h]

theorem not_claimed_empty (fs : Fs) (b : Nat) : ¬ Claimed fs {} b := by
  unfold Claimed getBit zeroBuf
  simp

section Report

variable {s : Mnt}

theorem names_iff_mem {r : Nat × Nat × List Nat} {b : Nat} :
    Names s.fs s.img r b ↔ (r, b) ∈ refsFrom s.fs s.img (v7Maxinode s.fs) 1 := by
  rw [mem_refsFrom]
  constructor
  · intro h
    exact ⟨h.pos, by have := h.le; omega, h.holds, h.reaches⟩
  · intro hrun
    obtain ⟨hpos, hlt, hh, hr⟩ := hrun
    exact ⟨hpos, by omega, hh, hr⟩

/-- Three passes without a problem account for every block. -/
theorem accounted_of_passes {c₁ c₂ : Chk} {L : List Nat}
    (hclaims : Claims s.fs (claimsOf (refsFrom s.fs s.img (v7Maxinode s.fs) 1)) {} c₁)
    (hlisted : Listed s (s.fs.nfree, s.fs.free) c₁ c₂ L) (hall : ∀ b, InData s.fs b → Claimed s.fs c₂ b) :
    Accounted s.fs s.img := by
  have hnamed : ∀ {r : Nat × Nat × List Nat} {b : Nat}, Names s.fs s.img r b →
      (r.1, b) ∈ claimsOf (refsFrom s.fs s.img (v7Maxinode s.fs) 1) := by
    intro r b h
    exact List.mem_map.mpr ⟨(r, b), names_iff_mem.mp h, rfl⟩
  refine ⟨L, hlisted.pops, fun b hb => ?_, fun r b h => hclaims.legal (r.1, b) (hnamed h)⟩
  by_cases hL : b ∈ L
  · refine .inr ⟨fun r h => ?_, List.count_eq_one_of_mem hlisted.nodup hL⟩
    exact hlisted.fresh b hL ((hclaims.bits b hb).mpr (.inr ⟨_, hnamed h, rfl⟩))
  · refine .inl ⟨?_, hL⟩
    have hc₁ : Claimed s.fs c₁ b := ((hlisted.bits b hb).mp (hall b hb)).resolve_right hL
    obtain ⟨r, hr, hrb⟩ := ((hclaims.bits b hb).mp hc₁).resolve_left (not_claimed_empty _ _)
    obtain ⟨ref, hmem, rfl⟩ := List.mem_map.mp hr
    have hrb' : ref.2 = b := hrb
    subst hrb'
    refine ⟨ref.1, names_iff_mem.mpr hmem, fun r' h' => ?_⟩
    have hmem' := names_iff_mem.mp h'
    have hnodup := hclaims.nodup
    unfold claimsOf at hnodup
    rw [List.map_map, List.filter_map] at hnodup
    have hinj := List.inj_on_of_nodup_map hnodup
    have heq : (r', ref.2) = ref := hinj
      (List.mem_filter.mpr ⟨hmem', by simpa using hb⟩) (List.mem_filter.mpr ⟨hmem, by simpa using hb⟩) rfl
    rw [← heq]

variable (hl : OnFreelist s.fs)

include hl

theorem walkFree_list (t : Mnt × Chk) (ht : t.1.fs = s.fs) :
    walkFree t = walkFreeList (s.fs.fsize + s.fs.desc.nicfree + 2) s.fs.nfree s.fs.free [] 0 t := by
  unfold walkFree
  rw [bindEngFs_run]
  rw [ht, hl.list]
  cases hops : s.fs.desc.ops with
  | v1 => exact absurd hops hl.notV1
  | pdp7 => exact absurd hops hl.notPdp7
  | v6 => rfl
  | v7 => rfl
  | bsd211 => rfl

end Report

/-- A 0 report on `s` says that every block is accounted for. -/
def CleanMeansAccounted (s : Mnt) : Prop := ∀ t, filsysCheckCommon (s, {}) = .ok true t → Accounted s.fs s.img

/-- A V7 image, opened read-only. -/
def openedV7 (img : Buf) (size : Nat) : Mnt :=
  final (filsysOpenArch { edition := .v7, readonly := true })
  { fs := { desc := descV7 }, img := img, size := size }

/-- Five blocks: the root directory in block 3, block 4 free. -/
def smallImage : Buf := fun i =>
  if i = 512 then 3 else if i = 516 then 5          -- s_isize, s_fsize
  else if i = 518 then 1 else if i = 522 then 4     -- s_nfree, s_free[0]
  else if i = 932 then 1 else if i = 934 then 7     -- s_tfree, s_tinode
  else if i = 1089 then 0o100 else if i = 1090 then 2 else if i = 1098 then 32 else if i = 1101 then 3
  else if i = 1536 then 2 else if i = 1538 then 46
  else if i = 1552 then 2 else if i = 1554 then 46 else if i = 1555 then 46
  else 0

/-! ## The counter wraps -/

/-- What follows the count of missing blocks. -/
def reportFrom (maxino : Nat) (state : Nat → InState) : MC Bool := do
  checkTotals maxino
  let ecount ← countDirs maxino state maxino 1 fun _ => 0
  compareCounts state ecount maxino 1
  let c ← getChk
  return decide (c.errors = 0)

theorem filsysCheckCommon_clear {s : Mnt} {state : Nat → InState} {t₁ t₂ : Mnt × Chk}
    (hgeo : opsDataStart s.fs < opsDataEnd s.fs) (hmap : mapBytes s.fs ≠ 0)
    (h₁ : markInodes (opsMaxino s.fs) 1 (fun _ => .unalloc) (s, {}) = .ok state t₁) (hbad : t₁.2.badBlocks ≤ 10)
    (h₂ : walkFree t₁ = .ok () t₂)
    (hclear : ∀ i, i < opsDataEnd s.fs - opsDataStart s.fs → getBit t₂.2.bmap i = false) :
    filsysCheckCommon (s, {}) =
      reportFrom (opsMaxino s.fs) state (t₂.1, missed t₂.2 (opsDataEnd s.fs - opsDataStart s.fs)) := by
  have hmissing := countMissing_eq (opsDataEnd s.fs - opsDataStart s.fs) 0 t₂.1 t₂.2
  rw [clears_of_clear fun i _ hi => hclear i (by omega)] at hmissing
  show (if opsDataEnd s.fs ≤ opsDataStart s.fs then modChk Chk.err >>= fun _ => pure false
    else markInodes (opsMaxino s.fs) 1 (fun _ => .unalloc) >>= fun state => getChk >>= fun c =>
      if mapOverrun s.fs c then throw .overrun
      else if 10 < c.badBlocks then pure false
      else walkFree >>= fun _ => countMissing (opsDataEnd s.fs - opsDataStart s.fs) 0 >>= fun _ =>
        reportFrom (opsMaxino s.fs) state : MC Bool) (s, {}) = _
  rw [if_neg (Nat.not_le.mpr hgeo)]
  rw [bind_eq_of_ok h₁]
  show (if mapOverrun s.fs t₁.2 then throw .overrun
      else if 10 < t₁.2.badBlocks then pure false
      else walkFree >>= fun _ => countMissing (opsDataEnd s.fs - opsDataStart s.fs) 0 >>= fun _ =>
        reportFrom (opsMaxino s.fs) state : MC Bool) t₁ = _
  rw [if_neg (by rw [mapOverrun_of_map hmap]; decide), if_neg (Nat.not_lt.mpr hbad),
    bind_eq_of_ok h₂, bind_eq_of_ok hmissing]

/-- A V7 volume of 2^32 - 5 blocks, every data block missing: two wrong totals, a root
    that nothing names with one link, and five orphans make the problems 2^32. -/
def hugeImage : Buf := fun i =>
  if i = 512 then 3                                                          -- s_isize
  else if i = 514 ∨ i = 515 ∨ i = 517 then 0xff else if i = 516 then 0xfb    -- s_fsize
  else if i = 932 then 1                                                     -- s_tfree
  else if i = 1089 then 128 else if i = 1090 then 1                          -- the root
  else if i = 1153 ∨ i = 1217 ∨ i = 1281 ∨ i = 1345 ∨ i = 1409 then 128      -- inodes 3 to 7
  else 0

def huge : Mnt := openedV7 hugeImage (2 ^ 41)

theorem pops_nil_of_empty {fs : Fs} {img : Buf} {free : Nat → Nat} {L : List Nat}
    (h : Pops fs img (0, free) L) : L = [] := by
  cases h with
  | done => rfl
  | pop hpop => simp [popStep] at hpop

/-- The first pass over `s`, and the walk of its free list. -/
def firstPass (s : Mnt) : Mnt × Chk := final (markInodes (opsMaxino s.fs) 1 fun _ => .unalloc) (s, {})
def afterWalk (s : Mnt) : Mnt × Chk := final walkFree (firstPass s)

/-- With nothing named and nothing listed every data block is missing. -/
theorem afterWalk_clear {s : Mnt} (hl : OnFreelist s.fs) (hs : Solo s)
    (hrefs : refsFrom s.fs s.img (v7Maxinode s.fs) 1 = []) (hnfree : s.fs.nfree = 0)
    (h₁ : errorOf (markInodes (opsMaxino s.fs) 1 fun _ => .unalloc) (s, {}) = none)
    (hf₁ : (firstPass s).2.found = 0)
    (h₂ : errorOf walkFree (firstPass s) = none) (hf₂ : (afterWalk s).2.found = 0)
    {b : Nat} (hb : InData s.fs b) :
    ¬ Claimed s.fs (afterWalk s).2 b := by
  have hrun₁ := eq_ok h₁
  have hrun₂ := eq_ok h₂
  rw [opsMaxino_v7 hl] at hrun₁
  obtain ⟨⟨k₁, hk₁⟩, hm₁⟩ := (markInodes_marks hl hs (v7Maxinode s.fs) 1 _ s.ios {}).of_ok hrun₁
  rw [← opsMaxino_v7 hl] at hk₁ hm₁
  have hclaims : Claims s.fs (claimsOf (refsFrom s.fs s.img (opsMaxino s.fs) 1)) {} (firstPass s).2 :=
    hm₁.claims hf₁
  rw [opsMaxino_v7 hl, hrefs] at hclaims
  have heq : firstPass s = ({ s with ios := k₁ }, (firstPass s).2) := Prod.ext hk₁ rfl
  have hwalk := walkFreeList_walked hs (s.fs.fsize + s.fs.desc.nicfree + 2) s.fs.nfree s.fs.free [] 0 k₁
    (firstPass s).2
  rw [← heq, ← walkFree_list hl (firstPass s) (by rw [heq])] at hwalk
  obtain ⟨-, -, hlist⟩ := hwalk.of_ok hrun₂
  obtain ⟨L, hL⟩ := hlist (hf₂.trans hf₁.symm)
  have hnil : L = [] := pops_nil_of_empty (hnfree ▸ hL.pops)
  intro hset
  rcases (hL.bits b hb).mp hset with h | h
  · rcases (hclaims.bits b hb).mp h with h | ⟨r, hr, -⟩
    · exact not_claimed_empty _ _ h
    · exact absurd hr (by simp [claimsOf])
  · rw [hnil] at h
    cases h

/-- A volume that names and lists nothing, whose problems number a multiple of 2^32,
    reports none. -/
theorem clean_when_wrapped {s : Mnt} (hl : OnFreelist s.fs) (hs : Solo s) (hgeo : v7DataFirst s.fs < s.fs.fsize)
    (hmap : mapBytes s.fs ≠ 0) (hrefs : refsFrom s.fs s.img (v7Maxinode s.fs) 1 = []) (hnfree : s.fs.nfree = 0)
    (h₁ : errorOf (markInodes (opsMaxino s.fs) 1 fun _ => .unalloc) (s, {}) = none)
    (hf₁ : (firstPass s).2.found = 0)
    (hbad : (firstPass s).2.badBlocks = 0) (h₂ : errorOf walkFree (firstPass s) = none)
    (hf₂ : (afterWalk s).2.found = 0)
    (h₃ : errorOf (reportFrom (opsMaxino s.fs)
      (valueOf (markInodes (opsMaxino s.fs) 1 fun _ => .unalloc) (s, {})))
      ((afterWalk s).1, missed (afterWalk s).2 (opsDataEnd s.fs - opsDataStart s.fs)) = none)
    (hv : valueOf (reportFrom (opsMaxino s.fs)
      (valueOf (markInodes (opsMaxino s.fs) 1 fun _ => .unalloc) (s, {})))
      ((afterWalk s).1, missed (afterWalk s).2 (opsDataEnd s.fs - opsDataStart s.fs)) = true) :
    ¬ CleanMeansAccounted s := by
  have hrun := filsysCheckCommon_clear (s :=
    s) (by rw [opsDataStart_v7 hl, opsDataEnd_v7 hl]; exact hgeo) hmap (eq_ok h₁)
    (by show (firstPass s).2.badBlocks ≤ 10; omega) (eq_ok h₂) (by
      intro i hi
      rw [opsDataStart_v7 hl, opsDataEnd_v7 hl] at hi
      have hclear := afterWalk_clear hl hs hrefs hnfree h₁ hf₁ h₂ hf₂ (b :=
        v7DataFirst s.fs + i) ⟨by omega, by omega⟩
      unfold Claimed at hclear
      rw [Nat.add_sub_cancel_left] at hclear
      exact Bool.eq_false_iff.mpr hclear)
  have hclean := hrun.trans (eq_ok h₃)
  unfold afterWalk firstPass at hv
  rw [hv] at hclean
  intro hsound
  obtain ⟨L, hL, hall, -⟩ := hsound _ hclean
  have hnil : L = [] := pops_nil_of_empty (hnfree ▸ hL)
  rcases hall (v7DataFirst s.fs) ⟨Nat.le_refl _, hgeo⟩ with ⟨⟨r, hr, -⟩, -⟩ | ⟨-, hcount⟩
  · have hmem := names_iff_mem.mp hr
    rw [hrefs] at hmem
    cases hmem
  · rw [hnil] at hcount
    cases hcount

theorem a_volume_with_two_to_the_32_problems_checks_clean : ¬ CleanMeansAccounted huge := by
  refine clean_when_wrapped ⟨?_, ?_, ?_, ?_⟩ (fun _ _ => rfl) ?_ ?_ ?_ ?_ ?_ ?_ ?_ ?_ ?_ ?_ ?_ <;>
    decide +kernel

end Filsys.Check
