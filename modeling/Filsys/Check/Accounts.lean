/-
  Filsys.Check.Accounts — when a report of 0 is right.

  - `clean_report_sound`: a report of 0 accounts for every block unless the blocks have
    faults and these, with the other faults of the volume, are a multiple of 2^32. Where
    the passes lose nothing and the list comes to its end, only then.
-/

import Filsys.Check.Tally

namespace Filsys.Check

open Filsys.Lib Filsys.Engine Filsys.Alloc

/-! ## An orderly pass meets every reference -/

theorem lost_law : SweepLaw fun w w' => w.lost ≤ w'.lost where
  refl _ := Nat.le_refl _
  trans h h' := Nat.le_trans h h'
  meet _ _ := Nat.le_refl _
  lose _ := Nat.le_succ _
  later _ _ := Nat.le_refl _

def Ref.claim (x : Ref) : Nat × Nat := (x.ino, x.blk)

/-- The claims `L` may all be made after `w`, and none is of a block claimed before. -/
structure InTurn (fs : Fs) (w : Sweep) (L : List (Nat × Nat)) : Prop where
  legal : ∀ r ∈ L, Legal fs ⟨r.1, r.2, true⟩
  once : ((w.met.map Ref.blk ++ L.map Prod.snd).filter fun b => decide (InArea fs b)).Nodup

/-- `g` meets the claims `L` where they are orderly and nothing is lost. -/
def Gathers (fs : Fs) (g : Sweep → Sweep) (L : List (Nat × Nat)) : Prop :=
  ∀ w, InTurn fs w L → (g w).lost = w.lost → (g w).met.map Ref.claim = w.met.map Ref.claim ++ L

theorem blks_eq (M : List Ref) : M.map Ref.blk = (M.map Ref.claim).map Prod.snd := by
  rw [List.map_map]
  rfl

section InTurn

variable {fs : Fs} {w : Sweep} {L L' : List (Nat × Nat)}

theorem InTurn.left (h : InTurn fs w (L ++ L')) : InTurn fs w L where
  legal r hr := h.legal r (List.mem_append_left _ hr)
  once := by
    refine h.once.sublist (List.Sublist.filter _ ?_)
    rw [List.map_append, ← List.append_assoc]
    exact List.sublist_append_left _ _

theorem InTurn.right {w' : Sweep} (h : InTurn fs w (L ++ L'))
    (hmet : w'.met.map Ref.claim = w.met.map Ref.claim ++ L) :
    InTurn fs w' L' where
  legal r hr := h.legal r (List.mem_append_right _ hr)
  once := by
    have honce := h.once
    rw [blks_eq w'.met, hmet, List.map_append, ← blks_eq, List.append_assoc, ← List.map_append]
    exact honce

/-- The first of orderly claims is gone down into. -/
theorem InTurn.opens {n b : Nat} (h : InTurn fs w ((n, b) :: L)) : Opens fs ⟨n, b, true⟩ w := by
  refine ⟨h.legal (n, b) List.mem_cons_self, fun hb y hy heq => ?_⟩
  have hin : InArea fs b := hb
  have hblk : y.blk = b := heq
  have honce := h.once
  rw [List.filter_append, List.nodup_append] at honce
  refine honce.2.2 b ?_ b ?_ rfl
  · rw [List.mem_filter]
    exact ⟨List.mem_map.mpr ⟨y, hy, hblk⟩, decide_eq_true hin⟩
  · rw [List.mem_filter]
    exact ⟨List.mem_map.mpr ⟨(n, b), List.mem_cons_self, rfl⟩, decide_eq_true hin⟩

end InTurn

section Gathers

variable {fs : Fs} {g g' : Sweep → Sweep} {L L' : List (Nat × Nat)}

theorem gathers_nil : Gathers fs (fun w => w) [] := fun _ _ _ => (List.append_nil _).symm

theorem gathers_seq (hmono : ∀ w, w.lost ≤ (g w).lost) (hmono' : ∀ w, w.lost ≤ (g' w).lost)
    (h : Gathers fs g L) (h' : Gathers fs g' L') :
    Gathers fs (fun w => g' (g w)) (L ++ L') := by
  intro w hord hlost
  have hlost : (g' (g w)).lost = w.lost := hlost
  have h1 := hmono w
  have h2 := hmono' (g w)
  have hfirst := h w hord.left (by omega)
  have hsecond := h' (g w) (hord.right hfirst) (by omega)
  rw [hsecond, hfirst, List.append_assoc]

theorem gathers_if {b : Nat} (h0 : b = 0 → L = []) (h : b ≠ 0 → Gathers fs g L) :
    Gathers fs (fun w => if b ≠ 0 then g w else w) L := by
  by_cases hb : b = 0
  · rw [h0 hb]
    simp only [if_neg (not_not.mpr hb)]
    exact gathers_nil
  · simp only [if_pos hb]
    exact h hb

theorem gathers_each {f : Nat → Sweep → Sweep} {t : Nat → List (Nat × Nat)}
    (hmono : ∀ b w, w.lost ≤ (f b w).lost) (h0 : t 0 = [])
    (hf : ∀ b, b ≠ 0 → Gathers fs (f b) (t b)) (bs : List Nat) :
    Gathers fs (sweepEach f bs) (bs.flatMap t) := by
  induction bs with
  | nil => exact gathers_nil
  | cons b bs ih =>
    rw [List.flatMap_cons]
    have hone : ∀ w : Sweep, w.lost ≤ (if b ≠ 0 then f b w else w).lost := by
      intro w
      split
      · exact hmono b w
      · exact Nat.le_refl _
    have hseq := gathers_seq hone (sweepEach_law lost_law hmono bs) (gathers_if (fun hb => hb ▸ h0) (hf b)) ih
    exact hseq

end Gathers

section Pass

variable {s : Mnt} (hl : OnFreelist s.fs) (hs : Solo s)

include hl hs

theorem readBlock_is {b k : Nat} {buf : Buf} {t : Mnt}
    (h : readBlock b { s with ios := k } = .ok buf t) : buf = blockOf s.fs s.img b := by
  rw [readBlock_v7 (s := { s with ios := k }) hl.notV1 hl.notPdp7] at h
  exact ((v7fsReadBlock_spec b (s := { s with ios := k }) hs).of_ok h).1

theorem readInode_is {n k : Nat} {ip : Inode} {t : Mnt}
    (h : readInode n { s with ios := k } = .ok ip t) : ip = inodeOf s.fs s.img n := by
  rw [readInode_v7 (s := { s with ios := k }) hl.notV1 hl.notPdp7] at h
  exact ((v7fsReadInode_spec n (s := { s with ios := k }) hs).of_ok h).1

theorem sweepTree_gathers (n k : Nat) {b : Nat} (hb : b ≠ 0) :
    Gathers s.fs (sweepTree s n k b) (tagged n (treeRefs s.fs s.img k b)) := by
  induction k generalizing b with
  | zero =>
    intro w _ _
    rw [treeRefs, if_neg hb]
    show (w.met ++ [_]).map Ref.claim = _
    rw [List.map_append]
    rfl
  | succ k ih =>
    intro w hord hlost
    rw [tagged_treeRefs_succ n k hb] at hord ⊢
    rw [sweepTree, if_pos hord.opens] at hlost ⊢
    have hmet : (w.meet ⟨n, b, true⟩).met.map Ref.claim = w.met.map Ref.claim ++ [(n, b)] := List.map_append
    cases hread : readBlock b { s with ios := w.ios } with
    | ok buf t =>
      rw [hread] at hlost
      dsimp only at hlost ⊢
      rw [readBlock_is hl hs hread] at hlost ⊢
      have heach := gathers_each (fun b w => sweepTree_law lost_law n k b w) (tagged_treeRefs_zero n k)
        (fun nb hnb => ih hnb)
        (entries s.fs.desc (blockOf s.fs s.img b))
      rw [heach { w.meet ⟨n, b, true⟩ with ios := t.ios } (hord.right hmet) hlost, ← List.append_assoc]
      exact congrArg (· ++ _) hmet
    | error e t =>
      rw [hread] at hlost
      exact absurd hlost (Nat.succ_ne_self _)

theorem sweepSlots_gathers (n : Nat) (ip : Inode) (todo i : Nat) :
    Gathers s.fs (sweepSlots s n ip todo i) ((List.range' i todo).flatMap fun slot =>
      tagged n (slotRefs s.fs s.img ip slot)) := by
  induction todo generalizing i with
  | zero => exact gathers_nil
  | succ todo ih =>
    rw [List.range'_succ, List.flatMap_cons]
    have hhead : Gathers s.fs (fun w => if ip.addr i ≠ 0 then sweepTree s n (depth s.fs.desc ip.mode i)
      (ip.addr i) w else w)
        (tagged n (slotRefs s.fs s.img ip i)) := by
      refine gathers_if (fun h0 => ?_) fun hne => sweepTree_gathers hl hs n _ hne
      unfold slotRefs
      rw [h0]
      exact tagged_treeRefs_zero n _
    have hmono : ∀ w : Sweep, w.lost ≤ (if ip.addr i ≠ 0 then sweepTree s n (depth s.fs.desc ip.mode i)
      (ip.addr i) w else w).lost := by
      intro w
      split
      · exact sweepTree_law lost_law n _ _ w
      · exact Nat.le_refl _
    have hseq := gathers_seq hmono (sweepSlots_law lost_law n ip todo (i + 1)) hhead (ih (i + 1))
    exact hseq

omit hl hs in
theorem sweepInode_lost (n : Nat) (ip : Inode) (w : Sweep) : w.lost ≤ (sweepInode s n ip w).lost := by
  unfold sweepInode
  dsimp only
  split
  · exact Nat.le_succ _
  · split
    · exact Nat.le_refl _
    · exact sweepSlots_law lost_law n ip _ _ (w.know n _)

omit hl hs in
theorem sweepInodes_lost (todo n : Nat) (w : Sweep) : w.lost ≤ (sweepInodes s todo n w).lost := by
  induction todo generalizing n w with
  | zero => exact Nat.le_refl _
  | succ todo ih =>
    rw [sweepInodes]
    cases readInode n { s with ios := w.ios } with
    | ok ip t => exact Nat.le_trans (sweepInode_lost n ip { w with ios := t.ios }) (ih (n + 1) _)
    | error e t => exact Nat.le_trans (Nat.le_succ w.lost) (ih (n + 1) { w.lose with ios := t.ios })

theorem sweepInode_gathers (n : Nat) : Gathers s.fs (sweepInode s n (inodeOf s.fs s.img n))
    (claimsOf (if HoldsBlocks s.fs s.img n then inodeRefs s.fs s.img n else [])) := by
  intro w hord hlost
  unfold sweepInode at hlost ⊢
  dsimp only at hlost ⊢
  split at hlost
  · exact absurd hlost (Nat.succ_ne_self _)
  · rename_i hknown
    rw [if_neg hknown]
    split at hlost
    · rename_i hskip
      have hnone : ¬ HoldsBlocks s.fs s.img n := not_not.mpr hskip
      rw [if_pos hskip, if_neg hnone]
      exact (List.append_nil _).symm
    · rename_i hskip
      have hholds : HoldsBlocks s.fs s.img n := hskip
      rw [if_pos hholds, claimsOf_inodeRefs] at hord
      rw [if_neg hskip, if_pos hholds, claimsOf_inodeRefs]
      exact sweepSlots_gathers hl hs n _ _ 0 (w.know n _) ⟨hord.legal, hord.once⟩ hlost

theorem sweepInodes_gathers (todo n : Nat) :
    Gathers s.fs (sweepInodes s todo n) (claimsOf (refsFrom s.fs s.img todo n)) := by
  induction todo generalizing n with
  | zero => exact gathers_nil
  | succ todo ih =>
    intro w hord hlost
    have hsplit : claimsOf (refsFrom s.fs s.img (todo + 1) n) =
        claimsOf (if HoldsBlocks s.fs s.img n then inodeRefs s.fs s.img n else []) ++
          claimsOf (refsFrom s.fs s.img todo (n + 1)) := List.map_append
    rw [hsplit] at hord ⊢
    rw [sweepInodes] at hlost ⊢
    cases hread : readInode n { s with ios := w.ios } with
    | ok ip t =>
      rw [hread] at hlost
      dsimp only at hlost ⊢
      rw [readInode_is hl hs hread] at hlost ⊢
      have hone := sweepInode_gathers hl hs n
      have hseq := gathers_seq (sweepInode_lost n _) (sweepInodes_lost todo (n + 1)) hone (ih (n + 1))
      exact hseq { w with ios := t.ios } ⟨hord.legal, hord.once⟩ hlost
    | error e t =>
      rw [hread] at hlost
      have hle := sweepInodes_lost (s := s) todo (n + 1) { w.lose with ios := t.ios }
      dsimp only at hlost
      rw [hlost] at hle
      exact absurd hle (Nat.not_succ_le_self _)

end Pass

/-! ## Every path once -/

section Paths

variable {fs : Fs} {img : Buf}

theorem nodup_treeRefs (k b : Nat) : (treeRefs fs img k b).Nodup := by
  induction k generalizing b with
  | zero =>
    rw [treeRefs]
    split <;> simp
  | succ k ih =>
    rw [treeRefs]
    split
    · exact List.nodup_nil
    rw [List.nodup_cons]
    constructor
    · intro hmem
      obtain ⟨i, -, hi⟩ := List.mem_flatMap.mp hmem
      obtain ⟨r, -, hr⟩ := List.mem_map.mp hi
      cases hr
    · rw [List.nodup_flatMap]
      refine ⟨fun i _ => (ih _).map ?_, ?_⟩
      · intro x q heq
        obtain ⟨p, c⟩ := x
        obtain ⟨p', c'⟩ := q
        cases heq
        rfl
      · refine List.nodup_range.imp fun {i j} hne => ?_
        change List.Disjoint _ _
        rw [List.disjoint_left]
        rintro _ hx hy
        obtain ⟨r, -, rfl⟩ := List.mem_map.mp hx
        obtain ⟨r', -, hr'⟩ := List.mem_map.mp hy
        injection hr' with h1
        injection h1 with h2
        exact hne h2.symm

theorem nodup_inodeRefs (n : Nat) : (inodeRefs fs img n).Nodup := by
  unfold inodeRefs
  rw [List.nodup_flatMap]
  refine ⟨fun i _ => (nodup_treeRefs _ _).map ?_, ?_⟩
  · intro x q heq
    obtain ⟨p, c⟩ := x
    obtain ⟨p', c'⟩ := q
    cases heq
    rfl
  · refine List.nodup_range.imp fun {i j} hne => ?_
    change List.Disjoint _ _
    rw [List.disjoint_left]
    rintro _ hx hy
    obtain ⟨r, -, rfl⟩ := List.mem_map.mp hx
    obtain ⟨r', -, hr'⟩ := List.mem_map.mp hy
    injection hr' with h1
    injection h1 with _ h2
    injection h2 with h3
    exact hne h3.symm

theorem nodup_refsFrom (todo n : Nat) : (refsFrom fs img todo n).Nodup := by
  induction todo generalizing n with
  | zero => exact List.nodup_nil
  | succ todo ih =>
    rw [refsFrom, List.nodup_append]
    refine ⟨?_, ih (n + 1), ?_⟩
    · split
      · exact nodup_inodeRefs n
      · exact List.nodup_nil
    · intro x hx _ hy heq
      obtain ⟨r, b⟩ := x
      subst heq
      obtain ⟨hlo, -⟩ := mem_refsFrom.mp hy
      split at hx
      · have hn := (mem_inodeRefs.mp hx).1
        omega
      · cases hx

end Paths

/-! ## The list as it is popped -/

theorem pops_unique {fs : Fs} {img : Buf} {c : Cache} {L L' : List Nat} (h : Pops fs img c L)
    (h' : Pops fs img c L') : L = L' := by
  induction h generalizing L' with
  | done hnone =>
    cases h' with
    | done => rfl
    | pop hpop => rw [hnone] at hpop; cases hpop
  | pop hpop _ ih =>
    cases h' with
    | done hnone => rw [hnone] at hpop; cases hpop
    | pop hpop' hrest =>
      rw [hpop] at hpop'
      cases hpop'
      rw [ih hrest]

section List

variable {s : Mnt} (hl : OnFreelist s.fs) (hs : Solo s)

include hl hs

/-- A list that is not left before its end is the one that is popped. -/
theorem roll_pops (fuel n : Nat) (cur : Nat → Nat) (seen : List Nat) (k : Nat)
    (hcut : (roll s fuel n cur seen k).cut = 0) :
    ∃ L, Pops s.fs s.img (n, cur) L ∧ (roll s fuel n cur seen k).listed = L.reverse ++ seen := by
  induction fuel generalizing n cur seen k with
  | zero => exact absurd hcut Nat.one_ne_zero
  | succ fuel ih =>
    rw [roll] at hcut ⊢
    by_cases hn : n = 0
    · rw [if_pos hn]
      exact ⟨[], .done (by simp [popStep, hn]), rfl⟩
    rw [if_neg hn] at hcut ⊢
    dsimp only at hcut ⊢
    by_cases h0 : cur (n - 1) = 0
    · rw [if_pos h0]
      exact ⟨[], .done (by simp [popStep, h0]), rfl⟩
    rw [if_neg h0] at hcut ⊢
    by_cases hbad : ¬ InArea s.fs (cur (n - 1)) ∨ cur (n - 1) ∈ seen
    · rw [if_pos hbad] at hcut
      exact absurd hcut Nat.one_ne_zero
    rw [if_neg hbad] at hcut ⊢
    by_cases hlim : walkLimit s.fs < seen.length + 1
    · rw [if_pos hlim] at hcut
      exact absurd hcut Nat.one_ne_zero
    rw [if_neg hlim] at hcut ⊢
    have hin : ¬ (cur (n - 1) < v7DataFirst s.fs ∨ s.fs.fsize ≤ cur (n - 1)) :=
      (inArea_iff hl).mp (not_not.mp (not_or.mp hbad).1)
    have hstep : popStep s.fs s.img (n, cur) =
        if n - 1 = 0 then some (cur (n - 1), chainOf s.fs s.img (cur (n - 1)))
          else some (cur (n - 1), n - 1, cur) := by
      simp only [popStep, if_neg hn, if_neg h0]
      rw [if_neg hin]
    by_cases hlast : n - 1 = 0
    · rw [if_pos hlast] at hcut hstep ⊢
      cases hread : v7fsReadBlock (cur (n - 1)) { s with ios := k } with
      | ok blk t =>
        rw [hread] at hcut
        dsimp only at hcut ⊢
        obtain rfl := ((v7fsReadBlock_spec (cur (n - 1)) (s := { s with ios := k }) hs).of_ok hread).1
        split at hcut
        · exact absurd hcut Nat.one_ne_zero
        · rename_i hfit
          rw [if_neg hfit]
          obtain ⟨L, hL, hlist⟩ := ih _ _ _ _ hcut
          refine ⟨_, .pop hstep hL, ?_⟩
          rw [hlist, List.reverse_cons, List.append_assoc]
          rfl
      | error e t =>
        rw [hread] at hcut
        exact absurd hcut Nat.one_ne_zero
    · rw [if_neg hlast] at hcut hstep ⊢
      obtain ⟨L, hL, hlist⟩ := ih _ _ _ _ hcut
      refine ⟨_, .pop hstep hL, ?_⟩
      rw [hlist, List.reverse_cons, List.append_assoc]
      rfl

omit hl hs in
theorem pops_inData {c : Cache} {L : List Nat} (h : Pops s.fs s.img c L) : ∀ b ∈ L, InData s.fs b := by
  induction h with
  | done => exact fun b hb => absurd hb List.not_mem_nil
  | pop hpop _ ih =>
    intro b hb
    rcases List.mem_cons.mp hb with rfl | hb
    · unfold popStep at hpop
      split at hpop
      · cases hpop
      dsimp only at hpop
      split at hpop
      · cases hpop
      split at hpop
      · cases hpop
      rename_i hin
      have hin : InData s.fs _ := ⟨Nat.le_of_not_lt (not_or.mp hin).1, Nat.lt_of_not_le (not_or.mp hin).2⟩
      split at hpop
      · cases hpop
        exact hin
      · cases hpop
        exact hin
    · exact ih b hb

end List

/-! ## The faults of an accounted volume -/

section Accounted

variable {s : Mnt} (hl : OnFreelist s.fs) (hs : Solo s)

include hl

theorem mem_claimsOf {r : Nat × Nat} : r ∈ claimsOf (refsFrom s.fs s.img (opsMaxino s.fs) 1) ↔ ∃ p,
    p.1 = r.1 ∧ Names s.fs s.img p r.2 := by
  unfold claimsOf
  rw [opsMaxino_v7 hl, List.mem_map]
  constructor
  · intro h
    obtain ⟨⟨p, b⟩, hmem, rfl⟩ := h
    exact ⟨p, rfl, names_iff_mem.mpr hmem⟩
  · rintro ⟨p, hp, hn⟩
    exact ⟨(p, r.2), names_iff_mem.mp hn, Prod.ext hp rfl⟩

theorem inTurn_of_accounted (h : Accounted s.fs s.img) :
    InTurn s.fs { ios := s.ios } (claimsOf (refsFrom s.fs s.img (opsMaxino s.fs) 1)) := by
  obtain ⟨listed, -, hall, hlegal⟩ := h
  have hin : ∀ {b : Nat}, InArea s.fs b → InData s.fs b := by
    intro b hb
    unfold InArea at hb
    rw [opsDataStart_v7 hl, opsDataEnd_v7 hl] at hb
    exact hb
  constructor
  · intro r hr
    obtain ⟨p, hp, hn⟩ := (mem_claimsOf hl).mp hr
    unfold Legal InArea
    rw [opsDataStart_v7 hl, opsDataEnd_v7 hl, ← hp]
    exact hlegal p r.2 hn
  · show ((claimsOf (refsFrom s.fs s.img (opsMaxino s.fs) 1)).map Prod.snd |>.filter fun b =>
      decide (InArea s.fs b)).Nodup
    unfold claimsOf
    rw [List.map_map, List.filter_map]
    refine List.Nodup.map_on ?_ ((nodup_refsFrom _ _).filter _)
    intro x hx q hy heq
    obtain ⟨p, b⟩ := x
    obtain ⟨p', b'⟩ := q
    obtain rfl : b = b' := heq
    obtain ⟨hx, hb⟩ := List.mem_filter.mp hx
    obtain ⟨hy, -⟩ := List.mem_filter.mp hy
    rw [opsMaxino_v7 hl] at hx hy
    have hb : InData s.fs b := hin (of_decide_eq_true hb)
    rcases hall b hb with ⟨hone, -⟩ | ⟨hnone, -⟩
    · rw [hone.unique (names_iff_mem.mpr hx) (names_iff_mem.mpr hy)]
    · exact absurd (names_iff_mem.mpr hx) (hnone p)

include hs

/-- A volume that is accounted for, nothing of it being lost, has no faults in its blocks. -/
theorem blockFaults_of_accounted (h : Accounted s.fs s.img) (hlost : (sweep s).lost = 0)
    (hcut : (freeList s).cut = 0) : blockFaults s = 0 := by
  have hturn := inTurn_of_accounted hl h
  have hmet : (met s).map Ref.claim = claimsOf (refsFrom s.fs s.img (opsMaxino s.fs) 1) :=
    sweepInodes_gathers hl hs (opsMaxino s.fs) 1 { ios := s.ios } hturn hlost
  have hblks : (met s).map Ref.blk = (claimsOf (refsFrom s.fs s.img (opsMaxino s.fs) 1)).map Prod.snd := by
    rw [blks_eq, hmet]
  have hnamed : ∀ {b : Nat}, named s b = true ↔ ∃ p, Names s.fs s.img p b := by
    intro b
    have hmem : (∃ y ∈ met s, y.blk = b) ↔ b ∈ (met s).map Ref.blk := List.mem_map.symm
    rw [named_iff, hmem, hblks, List.mem_map]
    constructor
    · rintro ⟨r, hr, rfl⟩
      obtain ⟨p, -, hn⟩ := (mem_claimsOf hl).mp hr
      exact ⟨p, hn⟩
    · rintro ⟨p, hn⟩
      exact ⟨(p.1, b), (mem_claimsOf hl).mpr ⟨p, rfl, hn⟩, rfl⟩
  have hbads : bads s.fs (met s) = 0 := by
    unfold bads
    rw [List.countP_eq_zero]
    intro x hx
    have hclaim : x.claim ∈ claimsOf (refsFrom s.fs s.img (opsMaxino s.fs) 1) := hmet ▸ List.mem_map_of_mem hx
    have hleg : Legal s.fs x := hturn.legal _ hclaim
    simp [hleg]
  have hreps : repeats s.fs (met s) = 0 := by
    have honce : (claims s.fs (met s)).Nodup := by
      unfold claims
      rw [hblks]
      exact hturn.once
    unfold repeats
    rw [List.toFinset_card_of_nodup honce, Nat.sub_self]
  obtain ⟨listed, hpops, hall, -⟩ := h
  obtain ⟨L, hL, hlist⟩ := roll_pops hl hs _ _ _ _ _ hcut
  obtain rfl := pops_unique hL hpops
  have hmem : ∀ {b : Nat}, b ∈ (freeList s).listed ↔ b ∈ L := by
    intro b
    show b ∈ (roll s _ _ _ _ _).listed ↔ _
    rw [hlist, List.append_nil, List.mem_reverse]
  have hboth : bothWays s = 0 := by
    unfold bothWays
    rw [List.countP_eq_zero]
    intro b hb hname
    have hb := hmem.mp hb
    obtain ⟨p, hp⟩ := hnamed.mp hname
    rcases hall b (pops_inData hL b hb) with ⟨-, hnot⟩ | ⟨hnone, -⟩
    · exact hnot hb
    · exact hnone p hp
  have hmissing : missing s = 0 := by
    unfold missing
    rw [List.length_eq_zero_iff, List.filter_eq_nil_iff]
    intro i hi
    have hi := List.mem_range'_1.mp hi
    have hin : InData s.fs (opsDataStart s.fs + i) := by
      unfold InData
      rw [← opsDataStart_v7 hl, ← opsDataEnd_v7 hl]
      omega
    rcases hall _ hin with ⟨⟨p, hp, -⟩, -⟩ | ⟨-, hone⟩
    · simp [hnamed.mpr ⟨p, hp⟩]
    · have hb : opsDataStart s.fs + i ∈ L := List.count_pos_iff.mp (hone ▸ Nat.one_pos)
      simp [hmem.mpr hb]
  unfold blockFaults
  rw [hlost, hbads, hreps, hboth, hcut, hmissing]

end Accounted

/-! ## The report -/

/-- The blocks have faults, and a check of the volume that comes to its end counts a multiple of 2^32
    faults in all. -/
structure Wraps (s : Mnt) : Prop where
  room : opsDataStart s.fs < opsDataEnd s.fs
  goesOn : bads s.fs (met s) % 2 ^ 32 ≤ 10
  faulty : blockFaults s ≠ 0
  wraps : 2 ^ 32 ∣ faults s

/-- A report of 0 is right unless the faults wrap; where nothing is lost and the list comes to its end,
    only then. -/
theorem clean_report_sound (s : Mnt) (hl : OnFreelist s.fs) (hs : Solo s) :
    (¬ Wraps s → CleanMeansAccounted s) ∧
      ((∃ r t, filsysCheckCommon (s, {}) = .ok r t) → (sweep s).lost = 0 → (freeList s).cut = 0 →
        CleanMeansAccounted s → ¬ Wraps s) := by
  have htally := filsysCheckCommon_tally hl hs
  refine ⟨fun hno t hrun => ?_, fun ⟨r, t, hrun⟩ hlost hcut hsound hwraps => ?_⟩
  · obtain ⟨hiff, hacc⟩ := htally.of_ok hrun
    obtain ⟨hroom, hfew, hdvd⟩ := hiff.mp rfl
    refine hacc rfl ?_
    by_contra hfaulty
    exact hno ⟨hroom, hfew, hfaulty, hdvd⟩
  · obtain ⟨hiff, -⟩ := htally.of_ok hrun
    obtain rfl : r = true := hiff.mpr ⟨hwraps.room, hwraps.goesOn, hwraps.wraps⟩
    exact hwraps.faulty (blockFaults_of_accounted hl hs (hsound t hrun) hlost hcut)

theorem a_small_clean_volume_is_accounted :
    Accounted (openedV7 smallImage 2560).fs (openedV7 smallImage 2560).img ∧
    ¬ Wraps (openedV7 smallImage 2560) := by
  have hl : OnFreelist (openedV7 smallImage 2560).fs :=
    ⟨by decide +kernel, by decide +kernel, by decide +kernel, by decide +kernel⟩
  have hfaults : blockFaults (openedV7 smallImage 2560) = 0 ∧ (sweep (openedV7 smallImage 2560)).lost = 0 ∧
      (freeList (openedV7 smallImage 2560)).cut = 0 := by decide +kernel
  obtain ⟨hnone, hlost, hcut⟩ := hfaults
  obtain ⟨hsound, honly⟩ := clean_report_sound (openedV7 smallImage 2560) hl fun _ _ => rfl
  have hsound := hsound fun h => h.faulty hnone
  have hok : errorOf filsysCheckCommon (openedV7 smallImage 2560, {}) = none := by decide +kernel
  have htrue : valueOf filsysCheckCommon (openedV7 smallImage 2560, {}) = true := by decide +kernel
  have hrun := eq_ok hok
  rw [htrue] at hrun
  exact ⟨hsound _ hrun, honly ⟨_, _, hrun⟩ hlost hcut hsound⟩

end Filsys.Check
