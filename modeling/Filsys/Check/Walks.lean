/-
  Filsys.Check.Walks — the three walks over an inode's blocks (blocktree.c).

  The checker marks an inode's blocks, a truncation collects them, and `st_blocks` counts
  them. Each walk follows the same slots and entries, and on an inode whose blocks are its
  own and can be read each meets the same references (`slotsAt`). But whether to walk at all
  is decided twice: the checker goes by the inode's state, the other two by `is_data_inode`.
  The walks agree exactly when the latter holds or the inode names no block
  (`walks_agree_iff`); a pipe with a block on disk is the case in point.
-/

import Filsys.Alloc.Prefix
import Filsys.Check.Salvage

namespace Filsys.Check

open Filsys.Lib Filsys.Engine

/-! ## The inode's references -/

/-- A mount of any edition. -/
def OnVolume (s : Mnt) : Prop := Mounted s ∨ Mounted7 s

theorem OnVolume.reads {s : Mnt} (h : OnVolume s) : Reads s (readable s) (inodeReadable s) := by
  unfold readable inodeReadable
  rcases h with hm | hm
  · simp only [if_neg hm.notPdp7]
    exact reads_mounted hm
  · simp only [if_pos hm.pdp7]
    exact reads_mounted7 hm

theorem OnVolume.room {s : Mnt} (h : OnVolume s) : opsDataStart s.fs < opsDataEnd s.fs := by
  rcases h with hm | hm
  · exact hm.room
  · exact (Volume.words hm).room

/-- What the slots of `ip` lead to. -/
def refsOf (s : Mnt) (ip : Inode) : List Ref := slotsAt s.fs s.img (readable s) ip.ino ip s.fs.desc.niaddr 0

def blocksOf (s : Mnt) (ip : Inode) : List Nat := (refsOf s ip).map Ref.blk

/-- An inode pass 1 hands to `filsys_mark_blocks`, with no shared or out-of-range block and every block
    readable; `c` is the report so far. -/
structure Clear (s : Mnt) (ip : Inode) (c : Chk) : Prop where
  state : inodeState s.fs.desc ip.ino ip.mode ∉ [.unalloc, .unknown, .ichr, .iblk]
  driver : c.ino = ip.ino
  nodup : (blocksOf s ip).Nodup
  area : ∀ b ∈ blocksOf s ip, InArea s.fs b
  fresh : ∀ b ∈ blocksOf s ip, ¬ Marked s.fs c b
  legible : ∀ r ∈ refsOf s ip, r.ind = true → readable s r.blk = true
  quiet : ∀ k, s.env.fails k = false

/-- The blocks `filsys_mark_blocks` claims are those `filsys_itrunc` collects, and as many as
    `filsys_allocated_blocks` counts. -/
def WalksAgree (s : Mnt) (ip : Inode) (c : Chk) : Prop :=
  ∃ t c' u v, filsysMarkBlocks ip (s, c) = .ok () (t, c') ∧ filsysItrunc (s, { ip := ip }) = .ok () u ∧
    filsysAllocatedBlocks ip s = .ok u.2.bl.length v ∧ u.2.bl.Nodup ∧
    ∀ b, b ∈ u.2.bl ↔ InArea s.fs b ∧ Marked s.fs c' b ∧ ¬ Marked s.fs c b

/-! ## Marking -/

section Mark

variable {s : Mnt} {ip : Inode} {c : Chk}

theorem Clear.tidy (h : Clear s ip c) : Tidy s.fs (refsOf s ip) c where
  legal r hr _ := .inl (h.area _ (List.mem_map_of_mem hr))
  fresh r hr _ _ := h.fresh _ (List.mem_map_of_mem hr)
  alone := by
    have hnd := List.pairwise_map.mp h.nodup
    exact hnd.imp fun hne heq => absurd heq hne

/-- The checker claims the inode's blocks. -/
theorem markBlocks_claims (hv : OnVolume s) (h : Clear s ip c) :
    ∃ t c', filsysMarkBlocks ip (s, c) = .ok () (t, c') ∧
    ∀ b, InArea s.fs b → (Marked s.fs c' b ↔ Marked s.fs c b ∨ b ∈ blocksOf s ip) := by
  have hrun := runs_markSlots hv.reads hv.room ip s.fs.desc.niaddr 0 s.ios c
  have hpost : Post (filsysMarkBlocks ip (s, c))
    (fun _ t => t.2 = passSlots s.fs s.img (readable s) ip s.fs.desc.niaddr 0 c) fun _ _ => False := by
    refine post_engFs (hrun.mono ?_ fun _ _ hf => hf)
    intro _ t hres
    obtain ⟨k, -, -, hc⟩ := hres
    exact hc fun k _ _ => h.quiet k
  obtain ⟨_, ⟨t, c'⟩, hr, hc⟩ := hpost.succeeds
  refine ⟨t, c', hr, fun b hb => ?_⟩
  have hmeet : Meeting s.fs ip.ino (refsOf s ip) (passSlots s.fs s.img (readable s) ip s.fs.desc.niaddr 0) :=
    meeting_passSlots ip s.fs.desc.niaddr 0
  have htidy := (hmeet c h.driver).1.tidy h.tidy b hb
  have hc' : c' = passSlots s.fs s.img (readable s) ip s.fs.desc.niaddr 0 c := hc
  rw [hc', htidy]
  simp only [blocksOf, List.mem_map]

end Mark

/-! ## Collecting -/

/-- On the mount `s`, `x` reads at most and adds the blocks `L` to the list, in some order. -/
def Collects (s : Mnt) (x : MI Unit) (L : List Nat) : Prop := ∀ k l, Post (x ({ s with ios := k }, l))
  (fun _ t => ∃ k' L', L'.Perm L ∧ t = ({ s with ios := k' }, { l with bl := l.bl ++ L' })) fun _ _ => False

section Collect

variable {s : Mnt} {x y : MI Unit} {L L' : List Nat}

theorem collects_pure : Collects s (pure ()) [] := fun k l => ⟨k, [], .refl _, by rw [List.append_nil]⟩

theorem collects_push (b : Nat) : Collects s (pushBl b) [b] := fun k _ => ⟨k, [b], .refl _, rfl⟩

theorem collects_seq (hx : Collects s x L) (hy : Collects s y L') :
    Collects s (x >>= fun _ => y) (L ++ L') := by
  intro k l
  refine post_bind ((hx k l).mono ?_ fun _ _ hf => hf)
  intro _ t h
  obtain ⟨k', M, hM, rfl⟩ := h
  refine (hy k' _).mono ?_ fun _ _ hf => hf
  intro _ t h
  obtain ⟨k'', M', hM', rfl⟩ := h
  exact ⟨k'', M ++ M', hM.append hM', by rw [List.append_assoc]⟩

theorem Collects.perm (hx : Collects s x L) (h : L.Perm L') : Collects s x L' := by
  intro k l
  refine (hx k l).mono ?_ fun _ _ hf => hf
  intro _ t hr
  obtain ⟨k', M, hM, ht⟩ := hr
  exact ⟨k', M, hM.trans h, ht⟩

theorem collects_failAs {e : Errno} (hx : Collects s x L) : Collects s (failAs e x) L :=
  fun k l => post_failAs (hx k l)

theorem collects_onlyIf {b : Nat} (hx : b ≠ 0 → Collects s x L) :
    Collects s (onlyIf (b ≠ 0) x) (if b ≠ 0 then L else []) := by
  unfold onlyIf
  split
  · exact hx ‹_›
  · exact collects_pure

theorem collects_forEntries {f : Nat → MI Unit} {g : Nat → List Nat} (nbs : List Nat)
    (hf : ∀ nb ∈ nbs, nb ≠ 0 → Collects s (f nb) (g nb)) :
    Collects s (forEntries f nbs) (nbs.flatMap fun nb => if nb ≠ 0 then g nb else []) := by
  induction nbs with
  | nil => exact collects_pure
  | cons nb nbs ih =>
    rw [List.flatMap_cons]
    exact collects_seq (collects_onlyIf (hf nb List.mem_cons_self))
      (ih fun c hc => hf c (List.mem_cons_of_mem _ hc))

/-- Every indirect block among `L` can be read. -/
def AllRead (s : Mnt) (rb : Nat → Bool) (L : List Ref) : Prop :=
  ∀ r ∈ L, r.ind = true → rb r.blk = true ∧ r.blk < opsDataEnd s.fs

/-- The references of a tree, as block numbers. -/
theorem treeAt_blk (fs : Fs) (img : Buf) {rb : Nat → Bool} (n k : Nat) {b : Nat} (hb : rb b = true) :
    (treeAt fs img rb n (k + 1) b).map Ref.blk =
      b :: (entriesAt fs img b).flatMap fun nb => if nb ≠ 0 then (treeAt fs img rb n k nb).map Ref.blk
      else [] := by
  rw [treeAt, if_pos hb, List.map_cons, List.map_flatMap]
  congr 2
  funext nb
  split <;> rfl

theorem AllRead.child {rb : Nat → Bool} {n k b nb : Nat}
    (h : AllRead s rb (treeAt s.fs s.img rb n (k + 1) b)) (hnb : nb ∈ entriesAt s.fs s.img b)
    (h0 : nb ≠ 0) : AllRead s rb (treeAt s.fs s.img rb n k nb) := by
  have hb : rb b = true := (h _ List.mem_cons_self rfl).1
  intro r hr
  refine h r ?_
  rw [treeAt, if_pos hb]
  refine List.mem_cons_of_mem _ (List.mem_flatMap.mpr ⟨nb, hnb, ?_⟩)
  rw [if_pos h0]
  exact hr

variable {rb ri : Nat → Bool} (hr : Reads s rb ri) (hq : ∀ k, s.env.fails k = false)

include hr hq

/-- A block of the data area that can be read is. -/
theorem post_readBlock_ok {b : Nat} (hb : b < opsDataEnd s.fs) (hrd : rb b = true) (k : Nat) :
    Post (readBlock b { s with ios := k })
    (fun buf t => entries s.fs.desc buf = entriesAt s.fs s.img b ∧ ∃ k', t = { s with ios := k' })
      fun _ _ => False := by
  refine ((hr.block b k hb).and (readBlock_peeks b _)).mono ?_ ?_
  · intro buf t h
    obtain ⟨⟨-, hent⟩, ht⟩ := h
    obtain ⟨k', -, rfl⟩ := ht hr.solo
    exact ⟨hent, k', rfl⟩
  · intro e t h
    obtain ⟨hbad, -⟩ := h
    have hfalse := hbad fun k _ _ => hq k
    rw [hrd] at hfalse
    cases hfalse

theorem collects_with {child : Nat → MI Unit} {g : Nat → List Nat} {b : Nat} (hb0 : b ≠ 0)
    (hb : b < opsDataEnd s.fs) (hrd : rb b = true)
    (hc : ∀ nb ∈ entriesAt s.fs s.img b, nb ≠ 0 → Collects s (child nb) (g nb)) :
    Collects s (collectWith child b) (b :: (entriesAt s.fs s.img b).flatMap fun nb => if nb ≠
      0 then g nb else []) := by
  intro k l
  refine post_ite (fun h => absurd h hb0) fun _ => ?_
  refine post_bind (post_outside (post_bind (post_outside (post_failAs ?_))))
  refine (post_readBlock_ok hr hq hb hrd k).mono ?_ fun _ _ hf => hf
  intro buf t hrun
  obtain ⟨hent, k', rfl⟩ := hrun
  show Post ((forEntries child (entries s.fs.desc buf) >>= fun _ => pushBl b : MI Unit)
    ({ s with ios := k' }, l)) _ _
  rw [hent]
  exact (collects_seq (collects_forEntries _ hc) (collects_push b)).perm (List.perm_append_singleton b _) k' l

theorem collects_subtree (n l : Nat) {b : Nat} (hb0 : b ≠ 0)
    (hall : AllRead s rb (treeAt s.fs s.img rb n (l + 1) b)) :
    Collects s (collectSubtree l b) ((treeAt s.fs s.img rb n (l + 1) b).map Ref.blk) := by
  induction l generalizing b with
  | zero =>
    obtain ⟨hrd, hlt⟩ := hall _ List.mem_cons_self rfl
    rw [treeAt_blk _ _ _ _ hrd]
    exact collects_with hr hq hb0 hlt hrd fun nb _ _ => collects_push nb
  | succ l ih =>
    obtain ⟨hrd, hlt⟩ := hall _ List.mem_cons_self rfl
    rw [treeAt_blk _ _ _ _ hrd]
    exact collects_with hr hq hb0 hlt hrd fun nb hnb h0 => collects_failAs (ih h0 (hall.child hnb h0))

theorem collects_slot (n mode slot : Nat) {b : Nat} (hb0 : b ≠ 0)
    (hall : AllRead s rb (treeAt s.fs s.img rb n (depth s.fs.desc mode slot) b)) :
    Collects s (collectSlot (slotLevel s.fs.desc mode slot) b)
    ((treeAt s.fs s.img rb n (depth s.fs.desc mode slot) b).map Ref.blk) := by
  unfold depth at hall ⊢
  unfold collectSlot
  generalize slotLevel s.fs.desc mode slot = level at hall ⊢
  cases level with
  | none => exact collects_push b
  | some l => exact collects_failAs (collects_subtree hr hq n l hb0 hall)

omit hr hq in
theorem slotsAt_congr {fs : Fs} {img : Buf} {n : Nat} {ip ip' : Inode} (hmode : ip'.mode = ip.mode)
    (todo i : Nat)
    (haddr : ∀ j, i ≤ j → j < i + todo → ip'.addr j = ip.addr j) :
    slotsAt fs img rb n ip' todo i = slotsAt fs img rb n ip todo i := by
  induction todo generalizing i with
  | zero => rfl
  | succ todo ih =>
    rw [slotsAt, slotsAt, hmode, haddr i (Nat.le_refl i) (by omega), ih (i + 1) fun j h1 h2 =>
      haddr j (by omega) (by omega)]

omit hr hq in
/-- The last slot last. -/
theorem slotsAt_last (fs : Fs) (img : Buf) (n : Nat) (ip : Inode) (todo i : Nat) :
    slotsAt fs img rb n ip (todo + 1) i = slotsAt fs img rb n ip todo i ++
      if ip.addr (i + todo) ≠ 0 then treeAt fs img rb n (depth fs.desc ip.mode (i + todo))
      (ip.addr (i + todo)) else [] := by
  induction todo generalizing i with
  | zero => simp [slotsAt]
  | succ todo ih =>
    rw [slotsAt, ih (i + 1), slotsAt, List.append_assoc, show i + 1 + todo = i + (todo + 1) by omega]

/-- The slots below `m` are emptied into the list, the last first. -/
theorem post_itruncSlots_collects (n m : Nat) (k : Nat) (l : Loc)
    (hall : AllRead s rb (slotsAt s.fs s.img rb n l.ip m 0)) :
    Post (itruncSlots s.fs.desc m ({ s with ios := k }, l))
      (fun _ t => ∃ k' L', L'.Perm ((slotsAt s.fs s.img rb n l.ip m 0).map Ref.blk) ∧
        t.1 = { s with ios := k' } ∧ t.2.bl = l.bl ++ L')
      fun _ _ => False := by
  induction m generalizing k l with
  | zero => exact ⟨k, [], .refl _, rfl, (List.append_nil _).symm⟩
  | succ m ih =>
    rw [slotsAt_last, Nat.zero_add] at hall ⊢
    show Post ((onlyIf (l.ip.addr m ≠ 0) (modIp (fun ip => ip.setAddr m 0) >>= fun _ =>
      collectSlot (slotLevel s.fs.desc l.ip.mode m) (l.ip.addr m)) >>= fun _ =>
      itruncSlots s.fs.desc m : MI Unit) ({ s with ios := k }, l)) _ _
    refine post_bind (post_onlyIf (fun h0 => post_bind ?_) ?_)
    · rw [if_pos h0] at hall ⊢
      have hslot := collects_slot hr hq n l.ip.mode m h0 fun r hr => hall r (List.mem_append_right _ hr)
      refine (hslot k { l with ip := l.ip.setAddr m 0 }).mono ?_ fun _ _ hf => hf
      intro _ t h
      obtain ⟨k', M, hM, rfl⟩ := h
      have hsame : slotsAt s.fs s.img rb n (l.ip.setAddr m 0) m 0 = slotsAt s.fs s.img rb n l.ip m 0 := by
        refine slotsAt_congr (show (l.ip.setAddr m 0).mode = l.ip.mode from rfl) m 0 fun j _ hj => ?_
        exact if_neg (by omega)
      have hrest := ih k' { ip := l.ip.setAddr m 0, bl := l.bl ++ M }
        (by rw [hsame]; exact fun r hr => hall r (List.mem_append_left _ hr))
      rw [hsame] at hrest
      refine hrest.mono ?_ fun _ _ hf => hf
      intro _ t h
      obtain ⟨k'', M', hM', ht, hbl⟩ := h
      refine ⟨k'', M ++ M', ?_, ht, by rw [hbl, List.append_assoc]⟩
      rw [List.map_append]
      exact (hM.append hM').trans List.perm_append_comm
    · intro h0
      rw [if_neg h0, List.append_nil] at hall ⊢
      exact ih k l hall

end Collect

/-! ## Counting -/

/-- On the mount `s`, `x` reads at most and answers `n`. -/
def Answers (s : Mnt) (x : M Nat) (n : Nat) : Prop :=
  ∀ k, Post (x { s with ios := k }) (fun v t => v = n ∧ ∃ k', t = { s with ios := k' }) fun _ _ => False

section Count

variable {s : Mnt} {rb ri : Nat → Bool}

theorem answers_pure (n : Nat) : Answers s (pure n) n := fun k => ⟨rfl, k, rfl⟩

/-- A sum over a list. -/
theorem answers_fold {f : Nat → Nat → M Nat} {g : Nat → Nat} (bs : List Nat)
    (hf : ∀ b ∈ bs, ∀ n, Answers s (f n b) (n + g b)) (n : Nat) :
    Answers s (bs.foldlM f n) (n + (bs.map g).sum) := by
  induction bs generalizing n with
  | nil => exact answers_pure n
  | cons b bs ih =>
    intro k
    rw [List.foldlM_cons]
    refine post_bind ((hf b List.mem_cons_self n k).mono ?_ fun _ _ hf => hf)
    intro v t h
    obtain ⟨rfl, k', rfl⟩ := h
    rw [List.map_cons, List.sum_cons, ← Nat.add_assoc]
    exact ih (fun c hc => hf c (List.mem_cons_of_mem _ hc)) (n + g b) k'

theorem answers_plus {x : M Nat} {m : Nat} (n : Nat) (hx : Answers s x m) :
    Answers s (do return n + (← x)) (n + m) := by
  intro k
  refine post_bind ((hx k).mono ?_ fun _ _ hf => hf)
  intro v t h
  obtain ⟨rfl, k', rfl⟩ := h
  exact ⟨rfl, k', rfl⟩

variable (hr : Reads s rb ri) (hq : ∀ k, s.env.fails k = false)

include hr hq

theorem answers_with {child : Nat → M Nat} {g : Nat → List Ref} {b : Nat} (hb0 : b ≠ 0)
    (hb : b < opsDataEnd s.fs) (hrd : rb b = true)
    (hc : ∀ nb ∈ entriesAt s.fs s.img b, Answers s (child nb) (if nb ≠ 0 then g nb else []).length) :
    Answers s (countWith child b) (1 + ((entriesAt s.fs s.img b).flatMap fun nb => if nb ≠ 0 then g nb
      else []).length) := by
  intro k
  refine post_ite (fun h => absurd h hb0) fun _ => post_bindFs (post_bind (post_failAs ?_))
  refine (post_readBlock_ok hr hq hb hrd k).mono ?_ fun _ _ hf => hf
  intro buf t hrun
  obtain ⟨hent, k', rfl⟩ := hrun
  show Post (((entries s.fs.desc buf).foldlM (fun n sub => do return n + (← child sub)) 1 : M Nat)
    { s with ios := k' }) _ _
  rw [hent, List.length_flatMap]
  exact answers_fold (g := fun nb => (if nb ≠ 0 then g nb else []).length) _ (fun nb hnb n =>
    answers_plus n (hc nb hnb)) 1 k'

omit hr hq in
/-- A hole counts for nothing. -/
theorem answers_hole (l : Nat) : Answers s (countIndirect l 0) 0 := by
  intro k
  cases l with
  | zero => exact ⟨rfl, k, rfl⟩
  | succ l => exact ⟨rfl, k, rfl⟩

theorem answers_indirect (n l : Nat) {b : Nat} (hb0 : b ≠ 0)
    (hall : AllRead s rb (treeAt s.fs s.img rb n (l + 1) b)) :
    Answers s (countIndirect l b) (treeAt s.fs s.img rb n (l + 1) b).length := by
  have htree : ∀ k b, rb b = true → (treeAt s.fs s.img rb n (k + 1) b).length =
      1 + ((entriesAt s.fs s.img b).flatMap fun nb => if nb ≠ 0 then treeAt s.fs s.img rb n k nb
        else []).length := by
    intro k b hb
    rw [treeAt, if_pos hb, List.length_cons, Nat.add_comm]
  induction l generalizing b with
  | zero =>
    obtain ⟨hrd, hlt⟩ := hall _ List.mem_cons_self rfl
    rw [htree 0 b hrd]
    refine answers_with hr hq hb0 hlt hrd fun nb _ k => ?_
    by_cases h0 : nb = 0
    · rw [if_pos h0, if_neg (not_not.mpr h0)]
      exact answers_pure 0 k
    · rw [if_neg h0, if_pos h0]
      exact answers_pure 1 k
  | succ l ih =>
    obtain ⟨hrd, hlt⟩ := hall _ List.mem_cons_self rfl
    rw [htree (l + 1) b hrd]
    refine answers_with hr hq hb0 hlt hrd fun nb hnb => ?_
    by_cases h0 : nb = 0
    · rw [if_neg (not_not.mpr h0), h0]
      exact answers_hole l
    · rw [if_pos h0]
      exact ih h0 (hall.child hnb h0)

/-- The references of one slot. -/
def slotWalk (fs : Fs) (img : Buf) (rb : Nat → Bool) (n : Nat) (ip : Inode) (i : Nat) : List Ref :=
  if ip.addr i ≠ 0 then treeAt fs img rb n (depth fs.desc ip.mode i) (ip.addr i) else []

omit hr hq in
theorem sum_slotWalk (fs : Fs) (img : Buf) (n : Nat) (ip : Inode) (m : Nat) :
    ((List.range m).map fun i => (slotWalk fs img rb n ip i).length).sum =
    (slotsAt fs img rb n ip m 0).length := by
  induction m with
  | zero => rfl
  | succ m ih =>
    rw [List.range_succ, List.map_append, List.sum_append, ih, slotsAt_last, List.length_append, Nat.zero_add]
    simp [slotWalk]

omit hr hq in
theorem mem_slotsAt_of_slot {fs : Fs} {img : Buf} {n : Nat} {ip : Inode} {m i : Nat} (hi : i < m)
    {r : Ref} (h : r ∈ slotWalk fs img rb n ip i) :
    r ∈ slotsAt fs img rb n ip m 0 := by
  induction m with
  | zero => omega
  | succ m ih =>
    rw [slotsAt_last, Nat.zero_add]
    rcases Nat.lt_succ_iff_lt_or_eq.mp hi with hlt | rfl
    · exact List.mem_append_left _ (ih hlt)
    · exact List.mem_append_right _ h

theorem answers_slot (n : Nat) (ip : Inode) (i m : Nat) (hall : AllRead s rb (slotWalk s.fs s.img rb n ip i)) :
    Answers s (if ip.addr i = 0 then return m
      else match slotLevel s.fs.desc ip.mode i with
        | none => return m + 1
        | some level =>
          do return m + (← countIndirect level (ip.addr i))) (m + (slotWalk s.fs s.img rb n ip i).length) := by
  unfold slotWalk at hall ⊢
  by_cases h0 : ip.addr i = 0
  · rw [if_pos h0, if_neg (not_not.mpr h0)]
    exact answers_pure m
  · rw [if_pos h0] at hall ⊢
    rw [if_neg h0]
    unfold depth at hall ⊢
    generalize slotLevel s.fs.desc ip.mode i = level at hall ⊢
    cases level with
    | none => exact answers_pure (m + 1)
    | some l => exact answers_plus m (answers_indirect hr hq n l h0 hall)

theorem answers_allocatedBlocks (n : Nat) (ip : Inode) (hdata : isDataInode s.fs.desc ip = true)
    (hall : AllRead s rb (slotsAt s.fs s.img rb n ip s.fs.desc.niaddr 0)) :
    Answers s (filsysAllocatedBlocks ip) (slotsAt s.fs s.img rb n ip s.fs.desc.niaddr 0).length := by
  intro k
  refine post_bindFs (post_ite (fun _ => ?_) fun h => absurd hdata h)
  rw [← sum_slotWalk]
  have hfold := answers_fold (s := s) (List.range s.fs.desc.niaddr)
    (fun i hi m => answers_slot hr hq n ip i m fun r hr =>
      hall r (mem_slotsAt_of_slot (List.mem_range.mp hi) hr)) 0 k
  rw [Nat.zero_add] at hfold
  exact hfold

end Count

/-! ## The walks together -/

section Agree

variable {s : Mnt} {ip : Inode} {c : Chk}

theorem Clear.allRead (h : Clear s ip c) : AllRead s (readable s) (refsOf s ip) :=
  fun r hr hind => ⟨h.legible r hr hind, (h.area _ (List.mem_map_of_mem hr)).2⟩

/-- A data inode's blocks are collected and counted. -/
theorem itrunc_collects (hv : OnVolume s) (h : Clear s ip c) (hdata : isDataInode s.fs.desc ip = true) :
    ∃ u, filsysItrunc (s, { ip := ip }) = .ok () u ∧ u.2.bl.Perm (blocksOf s ip) := by
  have hpost : Post (filsysItrunc (s, { ip := ip })) (fun _ u => u.2.bl.Perm (blocksOf s ip)) fun _ _ =>
    False := by
    refine post_bind (post_outside ?_)
    show Post ((if isDataInode s.fs.desc ip then itruncSlots s.fs.desc s.fs.desc.niaddr >>= fun _ =>
      modIp fun ip => { ip with size := 0 }
      else pure () : MI Unit) (s, { ip := ip })) _ _
    rw [if_pos hdata]
    refine post_bind ((post_itruncSlots_collects hv.reads h.quiet ip.ino s.fs.desc.niaddr s.ios
      { ip := ip } h.allRead).mono ?_ fun _ _ hf => hf)
    intro _ t hrun
    obtain ⟨k, L, hL, -, hbl⟩ := hrun
    show t.2.bl.Perm _
    rw [hbl]
    exact hL
  obtain ⟨_, u, hr, hu⟩ := hpost.succeeds
  exact ⟨u, hr, hu⟩

theorem agree_of_data (hv : OnVolume s) (h : Clear s ip c) (hdata : isDataInode s.fs.desc ip = true) :
    WalksAgree s ip c := by
  obtain ⟨t, c', hmark, hclaim⟩ := markBlocks_claims hv h
  obtain ⟨u, htrunc, hperm⟩ := itrunc_collects hv h hdata
  obtain ⟨n, v, hcount, rfl, -⟩ :=
    (answers_allocatedBlocks hv.reads h.quiet ip.ino ip hdata h.allRead s.ios).succeeds
  refine ⟨t, c', u, v, hmark, htrunc, ?_, hperm.nodup_iff.mpr h.nodup, ?_⟩
  · rw [hperm.length_eq, blocksOf, List.length_map]
    exact hcount
  · intro b
    rw [hperm.mem_iff]
    constructor
    · intro hb
      exact ⟨h.area b hb, (hclaim b (h.area b hb)).mpr (.inr hb), h.fresh b hb⟩
    · intro hr
      obtain ⟨hin, hmk, hnot⟩ := hr
      exact ((hclaim b hin).mp hmk).resolve_left hnot

/-- On any other inode only the checker walks. -/
theorem agree_iff_of_not_data (hv : OnVolume s) (h : Clear s ip c) (hdata : isDataInode s.fs.desc ip = false) :
    WalksAgree s ip c ↔ blocksOf s ip = [] := by
  obtain ⟨t, c', hmark, hclaim⟩ := markBlocks_claims hv h
  have htrunc : filsysItrunc (s, { ip := ip }) = .ok () (s, { ip := ip }) := by
    show (if isDataInode s.fs.desc ip then itruncSlots s.fs.desc s.fs.desc.niaddr >>= fun _ => modIp
      fun ip => { ip with size := 0 }
      else pure () : MI Unit) (s, { ip := ip }) = _
    rw [if_neg (by simp [hdata])]
    rfl
  have hcount : filsysAllocatedBlocks ip s = .ok 0 s := by
    unfold filsysAllocatedBlocks
    show (if isDataInode s.fs.desc ip then _ else pure 0 : M Nat) s = _
    rw [if_neg (by simp [hdata])]
    rfl
  constructor
  · intro hr
    obtain ⟨t', c'', u, v, hm, ht, -, -, hset⟩ := hr
    obtain ⟨-, rfl⟩ : t' = t ∧ c'' = c' := by
      rw [hmark] at hm
      cases hm
      exact ⟨rfl, rfl⟩
    obtain rfl : u = (s, { ip := ip }) := by
      rw [htrunc] at ht
      cases ht
      rfl
    refine List.eq_nil_iff_forall_not_mem.mpr fun b hb => ?_
    have hmem := (hset b).mpr ⟨h.area b hb, (hclaim b (h.area b hb)).mpr (.inr hb), h.fresh b hb⟩
    cases hmem
  · intro hnil
    refine ⟨t, c', _, s, hmark, htrunc, hcount, List.nodup_nil, fun b =>
      ⟨fun hb => absurd hb List.not_mem_nil, ?_⟩⟩
    intro hr
    obtain ⟨hin, hmk, hnot⟩ := hr
    have := ((hclaim b hin).mp hmk).resolve_left hnot
    rw [hnil] at this
    cases this

/-- An inode that names no block names none at all. -/
theorem blocksOf_nil_iff : blocksOf s ip = [] ↔ ∀ i, i < s.fs.desc.niaddr → ip.addr i = 0 := by
  unfold blocksOf refsOf
  rw [List.map_eq_nil_iff]
  constructor
  · intro hnil i hi
    by_contra h0
    have hhead : (⟨ip.ino, ip.addr i, depth s.fs.desc ip.mode i ≠ 0⟩ : Ref) ∈
      slotWalk s.fs s.img (readable s) ip.ino ip i := by
      unfold slotWalk
      rw [if_pos h0]
      cases depth s.fs.desc ip.mode i with
      | zero => exact List.mem_singleton.mpr (by simp)
      | succ k => exact List.mem_cons.mpr (.inl (by simp))
    have hmem := mem_slotsAt_of_slot hi hhead
    rw [hnil] at hmem
    cases hmem
  · intro hz
    rw [← List.length_eq_zero_iff, ← sum_slotWalk]
    refine List.sum_eq_zero fun n hn => ?_
    obtain ⟨i, hi, rfl⟩ := List.mem_map.mp hn
    unfold slotWalk
    rw [if_neg (not_not.mpr (hz i (List.mem_range.mp hi)))]
    rfl

/-- The three walks agree exactly on data inodes, and where there is nothing to walk. -/
theorem walks_agree_iff (hv : OnVolume s) (h : Clear s ip c) :
    WalksAgree s ip c ↔ isDataInode s.fs.desc ip = true ∨ ∀ i, i < s.fs.desc.niaddr → ip.addr i = 0 := by
  cases hdata : isDataInode s.fs.desc ip with
  | true => exact ⟨fun _ => .inl rfl, fun _ => agree_of_data hv h hdata⟩
  | false =>
    rw [agree_iff_of_not_data hv h hdata, blocksOf_nil_iff]
    exact ⟨.inr, fun h => h.resolve_left (by simp)⟩

end Agree

/-- A named pipe whose first address is block 4. -/
def pipe : Inode := { ino := 2, mode := 0o010644, addr := fun i => if i = 0 then 4 else 0 }

theorem pipe_onVolume : OnVolume Alloc.fiveBlocks :=
  .inl ⟨fun _ _ => rfl, by decide, rfl, by decide, by decide, by decide, rfl, by decide, by decide, by decide⟩

theorem pipe_clear : Clear Alloc.fiveBlocks pipe { ino := 2 } where
  state := by decide
  driver := rfl
  nodup := by decide
  area b hb := by
    obtain rfl : b = 4 := by simpa using (show b ∈ [4] from hb)
    exact ⟨by decide, by decide⟩
  fresh b hb := by
    obtain rfl : b = 4 := by simpa using (show b ∈ [4] from hb)
    unfold Marked
    decide
  legible r hr hind := by
    obtain rfl : r = ⟨2, 4, false⟩ := by simpa using (show r ∈ [⟨2, 4, false⟩] from hr)
    cases hind
  quiet _ := rfl

/-- The checker claims the pipe's block; destroying the pipe does not free it. -/
theorem a_pipe_keeps_its_block :
    OnVolume Alloc.fiveBlocks ∧ Clear Alloc.fiveBlocks pipe { ino := 2 } ∧
    ¬ WalksAgree Alloc.fiveBlocks pipe { ino := 2 } := by
  refine ⟨pipe_onVolume, pipe_clear, ?_⟩
  rw [agree_iff_of_not_data pipe_onVolume pipe_clear rfl]
  decide

/-- A regular file with the same block. -/
def plain : Inode := { pipe with mode := 0o100644 }

theorem a_plain_file_gives_its_block_back : WalksAgree Alloc.fiveBlocks plain { ino := 2 } := by
  have hclear : Clear Alloc.fiveBlocks plain { ino := 2 } :=
    { pipe_clear with state := by decide }
  exact (walks_agree_iff pipe_onVolume hclear).mpr (.inl rfl)

end Filsys.Check
