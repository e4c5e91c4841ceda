/-
  Filsys.Alloc.Stack — the cached free list is a stack of block numbers (alloc_freelist.c).

  The allocator keeps a bounded cache in core and the rest in a chain of dumped caches;
  what its callers see is a stack. `Call.onStack` is the stack's own account of a call,
  `Call.perform` runs the code and looks at what it returns, at the disk and at the total
  (`Seen`). One call on a well-formed list (`Stacked`) shows what the stack shows
  (`perform_eq`), and so does any sequence of calls, however many caches are dumped and
  read back on the way (`free_list_is_a_stack`).
-/

import Filsys.Alloc.Prefix

namespace Filsys.Alloc

open Filsys.Lib Filsys.Engine

/-- A call of the allocator. -/
inductive Call
  | balloc
  | bfree (b : Nat)

/-- What a call shows: the block handed out, with the bytes the disk holds of it, and the
    free total. -/
structure Seen where
  block : Option (Nat × Buf)
  total : Nat

namespace Call

/-- The call on a stack of free blocks. -/
def onStack : Call → List Nat → Seen × List Nat
  | balloc, [] => (⟨none, 0⟩, [])
  | balloc, b :: L => (⟨some (b, zeroBuf), L.length⟩, L)
  | bfree b, L => (⟨none, L.length + 1⟩, b :: L)

/-- A block goes back when it is one of the data area and not free. -/
def Legal (fs : Fs) : Call → List Nat → Prop
  | balloc, _ => True
  | bfree b, L => InData fs b ∧ b ∉ L

/-- An allocation as its caller sees it; `-ENOSPC` is no block. -/
def seeBalloc : M Seen := do
  match ← attempt v7fsBalloc with
  | .ok b =>
    let s ← get
    return ⟨some (b, blockOf s.fs s.img b), s.fs.tfree⟩
  | .error .enospc =>
    let fs ← getFs
    return ⟨none, fs.tfree⟩
  | .error e => throw e

def seeBfree (b : Nat) : M Seen := do
  v7fsBfree b
  let fs ← getFs
  return ⟨none, fs.tfree⟩

/-- The call on the mount. -/
def perform : Call → M Seen
  | balloc => seeBalloc
  | bfree b => seeBfree b

end Call

def performAll : List Call → M (List Seen)
  | [] => return []
  | c :: cs => do
    let seen ← c.perform
    let rest ← performAll cs
    return seen :: rest

def onStackAll : List Call → List Nat → List Seen × List Nat
  | [], L => ([], L)
  | c :: cs, L => ((c.onStack L).1 :: (onStackAll cs (c.onStack L).2).1, (onStackAll cs (c.onStack L).2).2)

/-- Every call of the sequence is legal on the stack it meets. -/
def LegalAll (fs : Fs) : List Call → List Nat → Prop
  | [], _ => True
  | c :: cs, L => c.Legal fs L ∧ LegalAll fs cs (c.onStack L).2

/-- The mount's free list is well formed and hands out `L`, its total is `L`'s length, and
    every transfer works. -/
structure Stacked (s : Mnt) (L : List Nat) : Prop where
  mounted : Mounted s
  layout : ListLayout s.fs
  quiet : ∀ k, s.env.fails k = false
  core : ∃ K, Core s L K
  total : s.fs.tfree = L.length

namespace Stacked

variable {s t : Mnt} {L : List Nat}

theorem move (h : Stacked s L) (hv : SameVol s t) {L' : List Nat} (hc : ∃ K, Core t L' K)
    (ht : t.fs.tfree = L'.length) : Stacked t L' where
  mounted := h.mounted.of_sameVol hv
  layout := h.layout.of_shape hv.shape
  quiet k := by rw [hv.env]; exact h.quiet k
  core := hc
  total := ht

/-- A block that may come back leaves the total below 2^32. -/
theorem total_lt (h : Stacked s L) {b : Nat} (hb : InData s.fs b) (hfree : b ∉ L) : L.length + 1 < 2 ^ 32 := by
  obtain ⟨K, hc⟩ := h.core
  have hnd : (b :: L).Nodup := List.nodup_cons.mpr ⟨hfree, hc.nodup⟩
  have hsub : b :: L ⊆ (List.range s.fs.fsize).tail := by
    intro x hx
    have hin : InData s.fs x := by
      rcases List.mem_cons.mp hx with rfl | hx
      · exact hb
      · exact hc.chain.inData x hx
    have h2 := two_le_of_inData h.mounted h.layout hin
    obtain ⟨m, hm⟩ : ∃ m, s.fs.fsize = m + 1 := ⟨s.fs.fsize - 1, by have := hin.2; omega⟩
    rw [hm, List.range_succ_eq_map, List.tail_cons]
    refine List.mem_map.mpr ⟨x - 1, List.mem_range.mpr ?_, by omega⟩
    have := hin.2
    omega
  have hlen := (List.subperm_of_subset hnd hsub).length_le
  rw [List.length_tail, List.length_range, List.length_cons] at hlen
  have hsize : s.fs.fsize ≤ 2 ^ 32 := by
    have := h.layout.addr
    split at this
    · exact Nat.le_trans this (by decide)
    · exact this
  have := hb.2
  omega

/-- The block handed out is on no chain, so zeroing it leaves the list alone. -/
theorem taken {u : Mnt} {b : Nat} {L' K' : List Nat} (h : Stacked s (b :: L')) (hvol : SameVol s u)
    (htot : u.fs.tfree = s.fs.tfree)
    (hc : Core u L' K') (hK : b ∉ K') : Stacked (taken (putAt .block b zeroBuf u)) L' := by
  refine @move s (Alloc.taken (putAt .block b zeroBuf u)) _ h
    (sameVol_law.trans hvol ⟨rfl, rfl, rfl⟩) L' ⟨K', ?_⟩ ?_
  · refine hc.frame rfl rfl rfl fun k hk => ?_
    have hne : k ≠ b := by
      rintro rfl
      exact hK hk
    exact blockOf_putBlock_ne hne _ _
  · show u.fs.tfree - 1 = L'.length
    rw [htot, h.total, List.length_cons, Nat.add_sub_cancel]

theorem seen_taken {u : Mnt} {b : Nat} {L' : List Nat}
    (h : Stacked (Alloc.taken (putAt .block b zeroBuf u)) L') :
    (⟨some (b, blockOf (Alloc.taken (putAt .block b zeroBuf u)).fs
      (Alloc.taken (putAt .block b zeroBuf u)).img b),
      (Alloc.taken (putAt .block b zeroBuf u)).fs.tfree⟩ : Seen) = ⟨some (b, zeroBuf), L'.length⟩ := by
  have hzero : blockOf u.fs (putAt .block b zeroBuf u).img b = zeroBuf := by
    refine (blockOf_putBlock u.fs _ b zeroBuf).trans ?_
    funext i
    exact ite_self _
  rw [h.total]
  show (⟨some (b, blockOf u.fs (putAt .block b zeroBuf u).img b), L'.length⟩ : Seen) = _
  rw [hzero]

theorem post_balloc (h : Stacked s L) : Post (v7fsBalloc s)
    (fun b t => ∃ L', L = b :: L' ∧ SameVol s t ∧ Stacked t L' ∧
      (⟨some (b, blockOf t.fs t.img b), t.fs.tfree⟩ : Seen) = ⟨some (b, zeroBuf), L'.length⟩)
    (fun e t => e = .enospc ∧ L = [] ∧ SameVol s t ∧ Stacked t []) := by
  obtain ⟨K, hc⟩ := h.core
  refine post_v7fsBalloc h.mounted h.layout hc ?_ ?_ ?_ ?_
  · rintro b L' rfl hcore
    have hnd := List.nodup_cons.mp hc.nodup
    have hvol := popEntry_sameVol s
    have hst := h.taken hvol rfl hcore fun hk => hnd.1 (hcore.chain.sublist.subset hk)
    exact ⟨L', rfl, sameVol_law.trans hvol (zeroed_sameVol b _), hst, seen_taken hst⟩
  · rintro b L' K' rfl rfl hcore
    have hnd := List.nodup_cons.mp hc.nodup
    have hmr : Mounted (reload b (popEntry s)) := h.mounted.of_sameVol ⟨rfl, rfl, rfl⟩
    have hcf := hcore.flushed hmr (h.layout.of_shape rfl)
    have hvol := reloaded_sameVol b s
    have hst := h.taken hvol rfl hcf fun hk => hnd.1 (hcf.chain.sublist.subset hk)
    exact ⟨L', rfl, sameVol_law.trans hvol (zeroed_sameVol b _), hst, seen_taken hst⟩
  · rintro rfl hcore
    have hvol := popEntry_sameVol s
    exact ⟨rfl, rfl, hvol, @move s (popEntry s) _ h hvol [] ⟨[], hcore⟩ h.total⟩
  · rintro e t hf
    obtain ⟨k, hk⟩ := hf.fails
    rw [h.quiet k] at hk
    cases hk

theorem perform_balloc (h : Stacked s L) :
    ∃ t, Call.balloc.perform s = .ok (Call.balloc.onStack L).1 t ∧ SameVol s t ∧
    Stacked t (Call.balloc.onStack L).2 := by
  have hpost := h.post_balloc
  show ∃ t, Call.seeBalloc s = _ ∧ _
  unfold Call.seeBalloc
  cases hr : v7fsBalloc s with
  | ok b t =>
    rw [hr] at hpost
    obtain ⟨L', rfl, hvol, hst, hseen⟩ := hpost
    refine ⟨t, ?_, hvol, hst⟩
    rw [bind_eq_of_ok (show attempt v7fsBalloc s = .ok (.ok b) t by unfold attempt; rw [hr])]
    show EStateM.Result.ok (⟨some (b, blockOf t.fs t.img b), t.fs.tfree⟩ : Seen) t = _
    rw [hseen]
    rfl
  | error e t =>
    rw [hr] at hpost
    obtain ⟨rfl, rfl, hvol, hst⟩ := hpost
    refine ⟨t, ?_, hvol, hst⟩
    rw [bind_eq_of_ok (show attempt v7fsBalloc s = .ok (.error .enospc) t by unfold attempt; rw [hr])]
    show EStateM.Result.ok (⟨none, t.fs.tfree⟩ : Seen) t = _
    rw [hst.total]
    rfl

theorem perform_bfree (h : Stacked s L) {b : Nat} (hb : InData s.fs b) (hfree : b ∉ L) :
    ∃ t, (Call.bfree b).perform s = .ok ((Call.bfree b).onStack L).1 t ∧ SameVol s t ∧
    Stacked t ((Call.bfree b).onStack L).2 := by
  obtain ⟨K, hc⟩ := h.core
  have hvol := primed_sameVol s
  have htot : ((primed s).fs.tfree + 1) % 2 ^ 32 = (b :: L).length := by
    have hprimed : (primed s).fs.tfree = L.length := by
      rw [← h.total]
      unfold primed
      split <;> rfl
    rw [hprimed, Nat.mod_eq_of_lt (h.total_lt hb hfree), List.length_cons]
  have hpost : Post (v7fsBfree b s) (fun _ t => SameVol s t ∧ Stacked t (b :: L)) (fun _ _ => False) := by
    refine post_v7fsBfree h.mounted h.layout hc hb hfree ?_ ?_ ?_
    · intro hct
      have hv : SameVol s (pushed b (primed s)) := sameVol_law.trans hvol ⟨rfl, rfl, rfl⟩
      exact ⟨hv, h.move hv ⟨K, hct⟩ htot⟩
    · intro hct
      have hv : SameVol s (dumped b (primed s)) := sameVol_law.trans hvol ⟨rfl, rfl, rfl⟩
      exact ⟨hv, h.move hv ⟨b :: K, hct⟩ htot⟩
    · intro hf _
      rw [h.quiet] at hf
      cases hf
  show ∃ t, Call.seeBfree b s = _ ∧ _
  unfold Call.seeBfree
  obtain ⟨_, t, hr, hst⟩ := hpost.succeeds
  refine ⟨t, ?_, hst⟩
  rw [bind_eq_of_ok hr]
  show EStateM.Result.ok (⟨none, t.fs.tfree⟩ : Seen) t = _
  rw [hst.2.total]
  rfl

/-- One call shows what the stack shows. -/
theorem perform_eq (h : Stacked s L) {c : Call} (hc : c.Legal s.fs L) :
    ∃ t, c.perform s = .ok (c.onStack L).1 t ∧ SameVol s t ∧ Stacked t (c.onStack L).2 := by
  cases c with
  | balloc => exact h.perform_balloc
  | bfree b => exact h.perform_bfree hc.1 hc.2

end Stacked

/-- A legal call is legal on every mount of the volume. -/
theorem legalAll_of_shape {fs fs' : Fs} (h : shape fs' = shape fs) (cs : List Call) :
    ∀ {L : List Nat}, LegalAll fs cs L → LegalAll fs' cs L := by
  induction cs with
  | nil => exact fun h => h
  | cons c cs ih =>
    intro L hr
    obtain ⟨hc, hcs⟩ := hr
    refine ⟨?_, ih hcs⟩
    cases c with
    | balloc => exact trivial
    | bfree b => exact ⟨(shape_inData h).mpr hc.1, hc.2⟩

/-- Any sequence of allocations and legal frees returns what the stack returns, blocks, bytes and
    totals, and leaves a list that is the stack's. -/
theorem free_list_is_a_stack {s : Mnt} {L : List Nat} (h : Stacked s L) (cs : List Call)
    (hcs : LegalAll s.fs cs L) :
    ∃ t, performAll cs s = .ok (onStackAll cs L).1 t ∧ Stacked t (onStackAll cs L).2 := by
  induction cs generalizing s L with
  | nil => exact ⟨s, rfl, h⟩
  | cons c cs ih =>
    obtain ⟨t, hc, hvol, ht⟩ := h.perform_eq hcs.1
    obtain ⟨u, hrest, hu⟩ := ih ht (legalAll_of_shape hvol.shape cs hcs.2)
    refine ⟨u, ?_, hu⟩
    unfold performAll
    rw [bind_eq_of_ok hc, bind_eq_of_ok hrest]
    rfl

/-- A block freed onto the one-block list, then allocations until the list is empty. -/
theorem a_freed_block_comes_back_first :
    ∃ t, performAll [.bfree 4, .balloc, .balloc,
      .balloc] { fiveBlocks with fs := { fiveBlocks.fs with tfree := 1 } } =
        .ok [⟨none, 2⟩, ⟨some (4, zeroBuf), 1⟩, ⟨some (3, zeroBuf), 0⟩, ⟨none, 0⟩] t ∧ Stacked t [] := by
  refine free_list_is_a_stack (L := [3]) ⟨?_, ?_, fun _ => rfl, ⟨[], ?_⟩,
    rfl⟩ _ ⟨⟨⟨by decide, by decide⟩, by decide⟩, trivial, trivial, trivial, trivial⟩
  · exact ⟨fun _ _ => rfl, by decide, rfl, by decide, by decide, by decide,
      rfl, by decide, by decide, by decide⟩
  · constructor <;> first | decide | exact ⟨by decide, by decide, by decide⟩
  · exact ⟨.entry (n := 0) ⟨by decide, by decide⟩ (.sentinel rfl), by decide, by decide⟩

end Filsys.Alloc
