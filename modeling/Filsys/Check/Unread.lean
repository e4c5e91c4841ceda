/-
  Filsys.Check.Unread — a salvage some of whose reads fail.

  The first pass goes on past what it cannot read. What it gets to is a list of
  references (`met`): from the records whose reads go through, where the type is known,
  down through the indirect blocks that are in place, that nothing met before names and
  whose reads go through. The usage map is these references (`firstPass_met`), and the
  rebuilt free space is the rest of the data area:
  - `salvage_safe_iff`: none of the blocks the inodes name is given away exactly if each
    is named by a reference the pass meets.
  - `a_salvage_gives_the_root_directory_away`: one i-list block is not read, and the
    block of the root directory goes on the free list.
-/

import Filsys.Check.After
import Mathlib.Data.Finset.Card

namespace Filsys.Check

open Filsys.Lib Filsys.Engine Filsys.Alloc

/-! ## The references a pass meets -/

instance (fs : Fs) (b : Nat) : Decidable (InArea fs b) := inferInstanceAs (Decidable (_ ∧ _))
instance (fs : Fs) (x : Ref) : Decidable (Legal fs x) := inferInstanceAs (Decidable (_ ∨ _))

/-- A pass under way. -/
structure Sweep where
  /-- Transfers made so far. -/
  ios : Nat
  met : List Ref := []
  /-- Records and indirect blocks not read, and records of unknown type. -/
  lost : Nat := 0
  /-- Records in use, of unknown type or not. -/
  used : Nat := 0
  state : Nat → InState := fun _ => .unalloc

namespace Sweep

def meet (w : Sweep) (x : Ref) : Sweep := { w with met := w.met ++ [x] }

def lose (w : Sweep) : Sweep := { w with lost := w.lost + 1 }

/-- The state of inode `n` is known. -/
def know (w : Sweep) (n : Nat) (st : InState) : Sweep :=
  { w with
    used := if st = .unalloc then w.used else w.used + 1
    state := fun i => if i = n then st else w.state i }

end Sweep

/-- Does the pass go down into the indirect block of `x`: in place, and named by nothing met before? -/
def Opens (fs : Fs) (x : Ref) (w : Sweep) : Prop := Legal fs x ∧ (InArea fs x.blk → ∀ y ∈ w.met, y.blk ≠ x.blk)

instance (fs : Fs) (x : Ref) (w : Sweep) : Decidable (Opens fs x w) := inferInstanceAs (Decidable (_ ∧ _))

def sweepEach (f : Nat → Sweep → Sweep) : List Nat → Sweep → Sweep
  | [], w => w
  | nb :: rest, w => sweepEach f rest (if nb ≠ 0 then f nb w else w)

section Sweeping

variable (s : Mnt)

/-- Block `b` of inode `n` and the `k` levels below it. -/
def sweepTree (n : Nat) : Nat → Nat → Sweep → Sweep
  | 0, b, w => w.meet ⟨n, b, false⟩
  | k + 1, b, w =>
    if Opens s.fs ⟨n, b, true⟩ w then
      match readBlock b { s with ios := w.ios } with
      | .ok buf t => sweepEach (sweepTree n k) (entries s.fs.desc buf) { w.meet ⟨n, b, true⟩ with ios := t.ios }
      | .error _ t => { (w.meet ⟨n, b, true⟩).lose with ios := t.ios }
    else w.meet ⟨n, b, true⟩

/-- The slots `i, i + 1, …` (`todo` of them) of a record. -/
def sweepSlots (n : Nat) (ip : Inode) : Nat → Nat → Sweep → Sweep
  | 0, _, w => w
  | todo + 1, i, w =>
    sweepSlots n ip todo (i + 1) (if ip.addr i ≠ 0 then sweepTree s n (depth s.fs.desc ip.mode i)
      (ip.addr i) w else w)

/-- Inode `n`, its record read: devices and inodes of unknown type are passed over. -/
def sweepInode (n : Nat) (ip : Inode) (w : Sweep) : Sweep :=
  let st := inodeState s.fs.desc n ip.mode
  if st = .unknown then (w.know n st).lose
  else if st ∈ [.unalloc, .ichr, .iblk] then w.know n st
  else sweepSlots s n ip s.fs.desc.niaddr 0 (w.know n st)

/-- The inodes `n, n + 1, …` (`todo` of them). -/
def sweepInodes : Nat → Nat → Sweep → Sweep
  | 0, _, w => w
  | todo + 1, n, w =>
    match readInode n { s with ios := w.ios } with
    | .ok ip t => sweepInodes todo (n + 1) (sweepInode s n ip { w with ios := t.ios })
    | .error _ t => sweepInodes todo (n + 1) { w.lose with ios := t.ios }

/-- The first pass, whichever of its reads fail. -/
def sweep : Sweep := sweepInodes s (opsMaxino s.fs) 1 { ios := s.ios }

/-- The references it meets. -/
def met : List Ref := (sweep s).met

/-- Every data block an inode names is named by a reference the pass meets. -/
def Covered : Prop := ∀ x ∈ refs s, InArea s.fs x.blk → ∃ y ∈ met s, y.blk = x.blk

instance : Decidable (Covered s) := inferInstanceAs (Decidable (∀ x ∈ refs s, _ → ∃ y ∈ met s, _))

end Sweeping

/-- What a pass does below a record holds across it where it holds of each step. -/
structure SweepLaw (R : Sweep → Sweep → Prop) : Prop where
  refl : ∀ w, R w w
  trans : ∀ {w w' w''}, R w w' → R w' w'' → R w w''
  meet : ∀ w x, R w (w.meet x)
  lose : ∀ w, R w w.lose
  later : ∀ w k, R w { w with ios := k }

section SweepLaw

variable {R : Sweep → Sweep → Prop} (law : SweepLaw R) {s : Mnt} (n : Nat)

include law

theorem sweepEach_law {f : Nat → Sweep → Sweep} (hf : ∀ b w, R w (f b w)) (bs : List Nat) (w : Sweep) :
    R w (sweepEach f bs w) := by
  induction bs generalizing w with
  | nil => exact law.refl w
  | cons b bs ih =>
    rw [sweepEach]
    split
    · exact law.trans (hf b w) (ih _)
    · exact ih w

theorem sweepTree_law (k b : Nat) (w : Sweep) : R w (sweepTree s n k b w) := by
  induction k generalizing b w with
  | zero => exact law.meet w _
  | succ k ih =>
    have hmeet := law.meet w ⟨n, b, true⟩
    rw [sweepTree]
    split
    · split
      · exact law.trans hmeet (law.trans (law.later _ _) (sweepEach_law law ih _ _))
      · exact law.trans hmeet (law.trans (law.lose _) (law.later _ _))
    · exact hmeet

theorem sweepSlots_law (ip : Inode) (todo i : Nat) (w : Sweep) : R w (sweepSlots s n ip todo i w) := by
  induction todo generalizing i w with
  | zero => exact law.refl w
  | succ todo ih =>
    rw [sweepSlots]
    split
    · exact law.trans (sweepTree_law law n _ _ _) (ih _ _)
    · exact ih _ _

end SweepLaw

theorem sameState_law : SweepLaw fun w w' => w'.state = w.state where
  refl _ := rfl
  trans h h' := h'.trans h
  meet _ _ := rfl
  lose _ := rfl
  later _ _ := rfl

/-! ## What is wrong with them -/

/-- The references to a block that their inode may not name. -/
def bads (fs : Fs) (M : List Ref) : Nat := M.countP fun x => !decide (Legal fs x)

/-- The data blocks named, each as often as it is. -/
def claims (fs : Fs) (M : List Ref) : List Nat := (M.map Ref.blk).filter fun b => decide (InArea fs b)

/-- The references to a data block that has been named before. -/
def repeats (fs : Fs) (M : List Ref) : Nat := (claims fs M).length - (claims fs M).toFinset.card

section Append

variable {fs : Fs} {M : List Ref} {x : Ref}

theorem mem_claims {b : Nat} (hb : InArea fs b) : b ∈ claims fs M ↔ ∃ y ∈ M, y.blk = b := by
  unfold claims
  simp [hb]

theorem bads_legal (h : Legal fs x) : bads fs (M ++ [x]) = bads fs M := by
  unfold bads
  simp [List.countP_append, h]

theorem bads_illegal (h : ¬ Legal fs x) : bads fs (M ++ [x]) = bads fs M + 1 := by
  unfold bads
  simp [List.countP_append, h]

theorem repeats_outside (h : ¬ InArea fs x.blk) : repeats fs (M ++ [x]) = repeats fs M := by
  unfold repeats claims
  simp [List.filter_append, h]

theorem claims_inside (h : InArea fs x.blk) : claims fs (M ++ [x]) = claims fs M ++ [x.blk] := by
  unfold claims
  simp [List.filter_append, h]

theorem repeats_again (h : InArea fs x.blk) (hm : ∃ y ∈ M, y.blk = x.blk) :
    repeats fs (M ++ [x]) = repeats fs M + 1 := by
  have hmem : x.blk ∈ (claims fs M).toFinset := List.mem_toFinset.mpr ((mem_claims h).mpr hm)
  have hle := List.toFinset_card_le (claims fs M)
  have hset : (claims fs M ++ [x.blk]).toFinset = (claims fs M).toFinset := by
    rw [List.toFinset_append]
    exact Finset.union_eq_left.mpr (by simpa using hmem)
  unfold repeats
  rw [claims_inside h, hset, List.length_append, List.length_singleton]
  omega

theorem repeats_first (h : InArea fs x.blk) (hm : ¬ ∃ y ∈ M, y.blk = x.blk) :
    repeats fs (M ++ [x]) = repeats fs M := by
  have hmem : x.blk ∉ (claims fs M).toFinset := fun he => hm ((mem_claims h).mp (List.mem_toFinset.mp he))
  have hset : (claims fs M ++ [x.blk]).toFinset = insert x.blk (claims fs M).toFinset := by
    rw [List.toFinset_append, Finset.union_comm]
    rfl
  unfold repeats
  rw [claims_inside h, hset, Finset.card_insert_of_notMem hmem, List.length_append, List.length_singleton]
  omega

end Append

/-! ## The report is what was met -/

/-- The map, and what has been counted, are those of the references met. -/
structure Mirrors (fs : Fs) (c : Chk) (w : Sweep) : Prop where
  marks : ∀ b, InArea fs b → (Marked fs c b ↔ ∃ y ∈ w.met, y.blk = b)
  found : c.found = w.lost + bads fs w.met + repeats fs w.met
  bad : c.badBlocks = bads fs w.met % 2 ^ 32
  used : c.usedInodes = w.used % 2 ^ 32
  free : c.freeBlocks = 0

theorem mirrors_start (fs : Fs) (k : Nat) : Mirrors fs {} { ios := k } := by
  refine ⟨fun b _ => ?_, by simp [bads, repeats, claims], rfl, rfl, rfl⟩
  unfold Marked
  rw [show ({} : Chk).bmap = zeroBuf from rfl, getBit_zeroBuf]
  simp

section Counters

variable {fs : Fs} {c : Chk} {w : Sweep} (h : Mirrors fs c w)

include h

theorem Mirrors.lose : Mirrors fs c.err w.lose := by
  refine ⟨h.marks, ?_, h.bad, h.used, h.free⟩
  show c.found + 1 = w.lost + 1 + bads fs w.met + repeats fs w.met
  rw [h.found]
  omega

theorem Mirrors.know {n : Nat} {st : InState} (hst : st ≠ .unalloc) (ino : Nat) :
    Mirrors fs { c with usedInodes := inc32 c.usedInodes, ino := ino } (w.know n st) := by
  refine ⟨h.marks, h.found, h.bad, ?_, h.free⟩
  show inc32 c.usedInodes = (if st = .unalloc then w.used else w.used + 1) % 2 ^ 32
  rw [if_neg hst, h.used]
  unfold inc32
  omega

theorem Mirrors.later (k : Nat) : Mirrors fs c { w with ios := k } := ⟨h.marks, h.found, h.bad, h.used, h.free⟩

theorem Mirrors.idle (n : Nat) : Mirrors fs c (w.know n .unalloc) := ⟨h.marks, h.found, h.bad, h.used, h.free⟩

end Counters

/-- One block more, first claim or not. -/
theorem mirrors_markOne {fs : Fs} {c : Chk} {w : Sweep} (h : Mirrors fs c w) {b : Nat}
    (hb : b ≠ 0) (ind : Bool) :
    Mirrors fs (markOne fs b c).2 (w.meet ⟨c.ino, b, ind⟩) := by
  have hmet : ∀ b', (∃ y ∈ (w.meet ⟨c.ino, b, ind⟩).met, y.blk = b') ↔ (∃ y ∈ w.met, y.blk = b') ∨ b = b' := by
    intro b'
    simp [Sweep.meet, or_and_right, exists_or]
  -- a claim that leaves the map alone names no data block, or one named before
  have hsame : (InArea fs b → Marked fs c b) → ∀ b', InArea fs b' →
    (Marked fs c b' ↔ ∃ y ∈ (w.meet ⟨c.ino, b, ind⟩).met, y.blk = b') := by
    intro hold b' hb'
    rw [hmet, ← h.marks b' hb']
    refine ⟨.inl, ?_⟩
    intro hr
    rcases hr with h' | rfl
    · exact h'
    · exact hold hb'
  have hfound := h.found
  have hbad := h.bad
  rcases @markOne_cases fs _ hb c with ⟨hill, he⟩ | ⟨hleg, hna, he⟩ | ⟨hin, hset, he⟩ | ⟨hin, hclear, he⟩
  · have hna : ¬ InArea fs b := fun hin => hill (.inl hin)
    have hbads : bads fs (w.meet ⟨c.ino, b, ind⟩).met = bads fs w.met + 1 := bads_illegal hill
    have hreps : repeats fs (w.meet ⟨c.ino, b, ind⟩).met = repeats fs w.met := repeats_outside hna
    rw [he]
    refine ⟨hsame fun hin => absurd hin hna, ?_, ?_, h.used, h.free⟩
    · show c.found + 1 = w.lost + _ + _
      rw [hbads, hreps]
      omega
    · show inc32 c.badBlocks = _
      rw [hbads, hbad]
      unfold inc32
      omega
  · have hbads : bads fs (w.meet ⟨c.ino, b, ind⟩).met = bads fs w.met := bads_legal hleg
    have hreps : repeats fs (w.meet ⟨c.ino, b, ind⟩).met = repeats fs w.met := repeats_outside hna
    rw [he]
    refine ⟨hsame fun hin => absurd hin hna, ?_, by rw [hbads]; exact hbad, h.used, h.free⟩
    rw [hbads, hreps]
    exact hfound
  · have hbads : bads fs (w.meet ⟨c.ino, b, ind⟩).met = bads fs w.met := bads_legal (.inl hin)
    have hreps : repeats fs (w.meet ⟨c.ino, b, ind⟩).met = repeats fs w.met + 1 :=
      repeats_again hin ((h.marks b hin).mp hset)
    rw [he]
    refine ⟨hsame fun _ => hset, ?_, by rw [hbads]; exact hbad, h.used, h.free⟩
    show c.found + 1 = w.lost + _ + _
    rw [hbads, hreps]
    omega
  · have hbads : bads fs (w.meet ⟨c.ino, b, ind⟩).met = bads fs w.met := bads_legal (.inl hin)
    have hreps : repeats fs (w.meet ⟨c.ino, b, ind⟩).met = repeats fs w.met :=
      repeats_first hin fun hm => hclear ((h.marks b hin).mpr hm)
    rw [he]
    refine ⟨fun b' hb' => ?_, by rw [hbads, hreps]; exact hfound, by rw [hbads]; exact hbad, h.used, h.free⟩
    rw [hmet, ← h.marks b' hb']
    exact marked_putBit hin hb' c _

/-- A first claim is one that is gone down into. -/
theorem markOne_opens {fs : Fs} {c : Chk} {w : Sweep} (h : Mirrors fs c w) {b : Nat} (hb : b ≠ 0) :
    (markOne fs b c).1 = true ↔ Opens fs ⟨c.ino, b, true⟩ w := by
  have hfresh : InArea fs b → ((∀ y ∈ w.met, y.blk ≠ b) ↔ ¬ Marked fs c b) := by
    intro hin
    rw [h.marks b hin]
    simp
  unfold Opens
  rcases @markOne_cases fs _ hb c with ⟨hill, he⟩ | ⟨hleg, hna, he⟩ | ⟨hin, hset, he⟩ | ⟨hin, hclear, he⟩
  · rw [he]
    exact ⟨fun h' => absurd h' Bool.false_ne_true, fun h' => absurd h'.1 hill⟩
  · rw [he]
    exact ⟨fun _ => ⟨hleg, fun hin => absurd hin hna⟩, fun _ => rfl⟩
  · rw [he]
    constructor
    · intro h'
      exact absurd h' Bool.false_ne_true
    · intro h'
      exact absurd hset ((hfresh hin).mp (h'.2 hin))
  · rw [he]
    exact ⟨fun _ => ⟨.inl hin, fun _ => (hfresh hin).mpr hclear⟩, fun _ => rfl⟩

/-- On behalf of inode `n`, `x` moves the pass on by `g`. -/
def Tracks (s : Mnt) (n : Nat) (x : MC Unit) (g : Sweep → Sweep) : Prop :=
  ∀ w c, c.ino = n → Mirrors s.fs c w → Post (x ({ s with ios := w.ios }, c))
    (fun _ t => t.1 = { s with ios := (g w).ios } ∧ t.2.ino = n ∧ Mirrors s.fs t.2 (g w)) fun _ _ => False

section Tracks

variable {s : Mnt} {n : Nat}

theorem tracks_pure : Tracks s n (pure ()) fun w => w := fun _ _ hino h => ⟨rfl, hino, h⟩

theorem tracks_seq {x y : MC Unit} {g g' : Sweep → Sweep} (hx : Tracks s n x g) (hy : Tracks s n y g') :
    Tracks s n (x >>= fun _ => y) fun w => g' (g w) := by
  intro w c hino h
  refine post_bind ((hx w c hino h).mono ?_ fun _ _ h => h)
  intro _ r hr
  obtain ⟨t, c'⟩ := r
  obtain ⟨rfl, hino', h'⟩ := hr
  exact hy (g w) c' hino' h'

theorem tracks_onlyIf {p : Prop} [Decidable p] {x : MC Unit} {g : Sweep → Sweep} (hx : p → Tracks s n x g) :
    Tracks s n (onlyIf p x) fun w => if p then g w else w := by
  intro w c hino h
  apply post_onlyIf
  · intro hp
    simp only [if_pos hp]
    exact hx hp w c hino h
  · intro hp
    simp only [if_neg hp]
    exact ⟨trivial, hino, h⟩

theorem tracks_markBlock {b : Nat} (hb : b ≠ 0) :
    Tracks s n (filsysMarkBlock b >>= fun _ => pure ()) fun w => sweepTree s n 0 b w := by
  rintro w c rfl h
  rw [bind_eq_of_ok (filsysMarkBlock_eq b w.ios c)]
  exact ⟨rfl, markOne_ino b c, mirrors_markOne h hb false⟩

theorem tracks_markEach {f : Nat → MC Unit} {g : Nat → Sweep → Sweep}
    (hf : ∀ b, b ≠ 0 → Tracks s n (f b) (g b)) (bs : List Nat) :
    Tracks s n (markEach f bs) (sweepEach g bs) := by
  induction bs with
  | nil => exact tracks_pure
  | cons b bs ih =>
    have hseq := tracks_seq (tracks_onlyIf (p := b ≠ 0) (hf b)) ih
    exact hseq

variable (hs : Solo s)

include hs

theorem tracks_markWith {child : Nat → MC Unit} {k : Nat}
    (hc : ∀ b, b ≠ 0 → Tracks s n (child b) (sweepTree s n k b)) {b : Nat}
    (hb : b ≠ 0) : Tracks s n (markWith child b) (sweepTree s n (k + 1) b) := by
  rintro w c rfl h
  refine post_ite (fun h0 => absurd h0 hb) fun _ => ?_
  rw [bind_eq_of_ok (filsysMarkBlock_eq b w.ios c), sweepTree]
  have hmet := mirrors_markOne h hb true
  apply post_ite
  · intro hfirst
    rw [if_pos ((markOne_opens h hb).mp hfirst)]
    refine post_engFs (post_bind (post_outside (post_attempt ?_)))
    have hpeek := readBlock_peeks b { s with ios := w.ios }
    cases hread : readBlock b { s with ios := w.ios } with
    | ok buf t =>
      obtain ⟨k', -, rfl⟩ := hpeek.of_ok hread hs
      exact tracks_markEach hc _ { w.meet ⟨c.ino, b, true⟩ with ios := k' } _ (markOne_ino b c) (hmet.later k')
    | error e t =>
      obtain ⟨k', -, rfl⟩ := hpeek.of_error hread hs
      exact ⟨rfl, markOne_ino b c, hmet.lose.later k'⟩
  · intro hfirst
    rw [if_neg fun ho => hfirst ((markOne_opens h hb).mpr ho)]
    exact ⟨rfl, markOne_ino b c, hmet⟩

theorem tracks_markTree (l : Nat) {b : Nat} (hb : b ≠ 0) :
    Tracks s n (filsysMarkTree l b) (sweepTree s n (l + 1) b) := by
  induction l generalizing b with
  | zero => exact tracks_markWith hs (fun _ => tracks_markBlock) hb
  | succ l ih => exact tracks_markWith hs (fun _ => ih) hb

theorem tracks_markSlot (mode slot : Nat) {b : Nat} (hb : b ≠ 0) :
    Tracks s n (markSlot (slotLevel s.fs.desc mode slot) b) (sweepTree s n (depth s.fs.desc mode slot) b) := by
  unfold depth
  cases slotLevel s.fs.desc mode slot with
  | none => exact tracks_markBlock hb
  | some l => exact tracks_markTree hs l hb

theorem tracks_markSlots (ip : Inode) (todo i : Nat) :
    Tracks s n (markSlots ip todo i) (sweepSlots s n ip todo i) := by
  induction todo generalizing i with
  | zero => exact tracks_pure
  | succ todo ih =>
    intro w c hino h
    apply post_engFs
    exact tracks_seq (tracks_onlyIf fun hne => tracks_markSlot hs ip.mode i hne) (ih (i + 1)) w c hino h

/-- One inode, its record read. -/
theorem markInode_sweeps (ip : Inode) {w : Sweep} {c : Chk} (h : Mirrors s.fs c w) :
    Post (markInode (inodeState s.fs.desc n ip.mode) n ip ({ s with ios := w.ios }, c))
      (fun _ t => t.1 = { s with ios := (sweepInode s n ip w).ios } ∧
        Mirrors s.fs t.2 (sweepInode s n ip w)) fun _ _ => False := by
  unfold sweepInode
  generalize inodeState s.fs.desc n ip.mode = st
  refine post_ite (fun h0 => ?_) fun h0 => post_modChk (post_ite (fun h1 => ?_) fun h1 =>
    post_ite (fun h2 => ?_) fun h2 => ?_)
  · subst h0
    exact ⟨rfl, h.idle n⟩
  · subst h1
    exact ⟨rfl, (h.know h0 c.ino).lose⟩
  · rw [if_neg h1, if_pos (by rcases h2 with rfl | rfl <;> decide)]
    exact ⟨rfl, h.know h0 c.ino⟩
  · rw [not_or] at h2
    rw [if_neg h1, if_neg (by simp [h0, h2.1, h2.2])]
    refine post_modChk (post_engFs ?_)
    have hslots := tracks_markSlots (n := n) hs ip s.fs.desc.niaddr 0 (w.know n st) _ rfl (h.know h0 n)
    refine hslots.mono ?_ fun _ _ h => h
    intro _ t hr
    obtain ⟨ht, -, hm⟩ := hr
    exact ⟨ht, hm⟩

omit hs in
theorem sweepInode_state (ip : Inode) (w : Sweep) :
    (sweepInode s n ip w).state = fun i => if i = n then inodeState s.fs.desc n ip.mode else w.state i := by
  unfold sweepInode
  dsimp only
  split
  · rfl
  · split
    · rfl
    · exact sweepSlots_law sameState_law n ip _ _ _

theorem markInodes_sweeps (todo : Nat) {w : Sweep} {c : Chk} (h : Mirrors s.fs c w) :
    Post (markInodes todo n w.state ({ s with ios := w.ios }, c))
      (fun state t => state = (sweepInodes s todo n w).state ∧
        t.1 = { s with ios := (sweepInodes s todo n w).ios } ∧
        Mirrors s.fs t.2 (sweepInodes s todo n w)) fun _ _ => False := by
  induction todo generalizing n w c with
  | zero => exact ⟨rfl, rfl, h⟩
  | succ todo ih =>
    rw [sweepInodes]
    refine post_engFs (post_bind (post_outside (post_attempt ?_)))
    have hpeek := readInode_peeks n { s with ios := w.ios }
    cases hread : readInode n { s with ios := w.ios } with
    | ok ip t =>
      obtain ⟨k', -, rfl⟩ := hpeek.of_ok hread hs
      refine post_bind ((markInode_sweeps hs ip (h.later k')).mono ?_ fun _ _ h => h)
      intro _ r hr
      obtain ⟨u, c'⟩ := r
      obtain ⟨rfl, hm⟩ := hr
      have hrest := @ih (n + 1) _ c' hm
      rw [sweepInode_state] at hrest
      exact hrest
    | error e t =>
      obtain ⟨k', -, rfl⟩ := hpeek.of_error hread hs
      exact ih (h.lose.later k')

end Tracks

/-- After the first pass a data block is marked exactly if a reference met names it. -/
theorem firstPass_met {s : Mnt} (hv : Volume s) {b : Nat} (hb : InArea s.fs b) :
    Marked s.fs (firstPass s).2 b ↔ ∃ y ∈ met s, y.blk = b := by
  obtain ⟨v, k, -, hrun, -, -⟩ := firstPass_eq hv
  have hsweep := markInodes_sweeps (n := 1) hv.reads.solo (opsMaxino s.fs) (mirrors_start s.fs s.ios)
  exact (hsweep.of_ok hrun).2.2.marks b hb

/-! ## What is given away -/

/-- Transfers failing or not, a pass that meets every block named leaves none to give away. -/
theorem salvage_safe_of_covered {s : Mnt} (hv : Volume s) (hw : WritesGoOut s) (hc : Covered s) :
    SalvageSafe s := by
  intro r t h k b hb x hx heq
  obtain ⟨hin, hclear⟩ := (salvage_rebuilds hv hw h).unmarked k b hb
  subst heq
  have hmarked : Marked s.fs (firstPass s).2 x.blk := (firstPass_met hv hin).mpr (hc x hx hin)
  unfold Marked at hmarked
  rw [hclear] at hmarked
  cases hmarked

/-- A rebuild whose transfers go through gives every unmarked block away. -/
theorem salvage_gives {s : Mnt} (hv : Volume s) (hw : WritesGoOut s) (h6 : s.fs.desc.ops ≠ .v6)
    (hon : Onward (firstPass s).1)
    (hin : ∀ b, InArea s.fs b → readable s b = true) {r : Bool} {t : Mnt × Chk}
    (h : filsysCheckSalvage (s, {}) = .ok (some r) t)
    {b : Nat} (hb : InArea s.fs b) (hclear : ¬ Marked s.fs (firstPass s).2 b) :
    ∃ k, b ∈ ballocs k (calm t.1) := by
  obtain ⟨n, hmake⟩ := filsysCheckSalvage_eq hv h
  obtain ⟨v, k, -, -, hfirst, -⟩ := firstPass_eq hv
  have hmnt : (firstPass s).1 = { s with ios := k } := by rw [hfirst]
  rw [hmnt] at hmake hon
  have hfree : Unmarked s.fs (firstPass s).2.bmap b := ⟨hb, Bool.eq_false_iff.mpr hclear⟩
  have hquiet : ∀ j, (calm t.1).env.fails j = false := fun _ => rfl
  cases hv with
  | bytes hm hr =>
    have hm1 : Mounted { s with ios := k } := hm.of_sameVol ⟨rfl, rfl, rfl⟩
    have hreb := (makefree_spec hm1 hr (firstPass s).2.bmap).of_ok hmake
    have hmt : Mounted (calm t.1) := by
      obtain ⟨h1, h2, h3, h4, h5, h6, h7, h8, h9, h10⟩ := hm1.of_sameVol hreb.toSameVol
      exact ⟨h1, h2, h3, h4, h5, h6, h7, h8, h9, h10⟩
    have hok : SpaceOk (calm t.1) := hreb.ok
    have hfreet : IsFree (calm t.1) b := hreb.all h6 hon b hfree
    have hone := ballocs_all hmt hok hquiet (Nat.lt_succ_self (calm t.1).fs.fsize) hfreet
    exact ⟨_, List.count_pos_iff.mp (hone ▸ Nat.one_pos)⟩
  | words hm =>
    have hm1 : Mounted7 { s with ios := k } := hm.of_sameVol ⟨rfl, rfl, rfl⟩
    have hgo := hw.nodes hm.pdp7
    rw [hmnt] at hgo
    rw [makefree_pdp7 hm1] at hmake
    have hreg := (p7fsMakefree_spec hm1 (firstPass s).2.bmap hgo).of_ok hmake
    have hstart : opsDataStart s.fs = p7Datastart := by unfold opsDataStart; rw [hm.pdp7]
    have hend : opsDataEnd s.fs = p7Kdata := by unfold opsDataEnd; rw [hm.pdp7]
    have hcover : ∀ x, clearBelow (firstPass s).2.bmap (p7Kdata - p7Datastart) p7Kdata x → WordsIn s x := by
      intro x hrun
      obtain ⟨h1, h2, -⟩ := hrun
      have hread := hin x ⟨by rw [hstart]; exact Nat.le_trans (by decide) h1, by rw [hend]; exact h2⟩
      unfold readable inImage at hread
      rw [if_pos hm.pdp7] at hread
      exact of_decide_eq_true hread
    have hclearb : clearBelow (firstPass s).2.bmap (p7Kdata - p7Datastart) p7Kdata b := by
      unfold InArea at hb
      unfold Marked at hclear
      rw [hstart, hend] at hb
      rw [hstart] at hclear
      exact ⟨Nat.le_trans (by decide) hb.1, hb.2, Bool.eq_false_iff.mpr hclear⟩
    have hmt : Mounted7 (calm t.1) := by
      obtain ⟨h1, h2, h3, h4, h5⟩ := hm1.of_sameVol hreg.toSameVol
      exact ⟨h1, h2, h3, h4, h5⟩
    obtain ⟨L, hL, hnd, -, hwords, hall⟩ := hreg.list
    have hmem : b ∈ L := hall hon hcover b hclearb
    have hLt : Lists (calm t.1) L := hL
    have hwt : ∀ x ∈ L, WordsIn (calm t.1) x :=
      fun x hx => (wordsIn_of_sameVol hreg.toSameVol x).mpr (hwords x hx)
    refine ⟨L.length, ?_⟩
    rw [ballocs_pdp7 hmt hquiet, hLt.ballocs7 hmt hquiet hnd hwt, List.take_length]
    exact hmem

/-- Whatever fails, a salvage gives none of the blocks away that inodes name if the pass meets them all;
    where the failing reads are the pass's own and the rebuild is reached, only if. -/
theorem salvage_safe_iff (s : Mnt) (hv : Volume s) (hw : WritesGoOut s) :
    (Covered s → SalvageSafe s) ∧
      (s.fs.desc.ops ≠ .v6 → Onward (firstPass s).1 → (∀ b, InArea s.fs b → readable s b = true) →
        (∃ r t, filsysCheckSalvage (s, {}) = .ok (some r) t) → SalvageSafe s → Covered s) := by
  refine ⟨salvage_safe_of_covered hv hw, fun h6 hon hin ⟨r, t, hrun⟩ hsafe x hx hb => ?_⟩
  rw [← firstPass_met hv hb]
  by_contra hclear
  obtain ⟨k, hk⟩ := salvage_gives hv hw h6 hon hin hrun hb hclear
  exact hsafe r t hrun k x.blk hk x hx rfl

/-- Eight blocks: inode 3 reaches block 6 through block 5, inode 4 names it outright. -/
def sharedImage : Buf := fun i =>
  if i = 516 then 8 else if i = 1153 then 0x80 else if i = 1195 then 5
  else if i = 1217 then 0x80 else if i = 1229 then 6 else if i = 2562 then 6
  else smallImage i

def sharedFs : Fs := { rootedFs with fsize := 8, imgsize := 4096 }

/-- The read of block 5 fails. -/
def shared : Mnt where
  fs := sharedFs
  img := sharedImage
  size := 4096
  env := { fails := fun k => k == 3 }

theorem shared_volume : Volume shared := by
  have hl : ListLayout sharedFs := by
    constructor <;> first | decide | exact ⟨by decide, by decide, by decide⟩
  refine .bytes ⟨fun _ _ => rfl, ?_, rfl, ?_, ?_, ?_, rfl, ?_, ?_, ?_⟩ (.list rfl rfl ?_ hl)
  · show sharedFs.desc.ops ≠ .pdp7
    decide
  · show 512 ≤ sharedFs.desc.bsize
    decide
  · show sharedFs.desc.ops = .v1 → sharedFs.desc.bsize = 512
    decide
  · show sharedFs.base + sharedFs.fsize * sharedFs.desc.bsize ≤ 4096
    decide
  · show 2 ≤ opsDataStart sharedFs
    decide
  · show opsDataStart sharedFs < opsDataEnd sharedFs
    decide
  · show opsDataEnd sharedFs ≤ sharedFs.fsize
    decide
  · show sharedFs.desc.ops = .v6 ↔ sharedFs.desc.isizeCount = true
    decide

/-- An indirect block goes unread, and what is behind it is met through another file. -/
theorem a_file_named_twice_survives_a_salvage :
    refs shared = [⟨2, 3, false⟩, ⟨3, 5, true⟩, ⟨3, 6, false⟩, ⟨4, 6, false⟩] ∧
      met shared = [⟨2, 3, false⟩, ⟨3, 5, true⟩, ⟨4, 6, false⟩] ∧ SalvageSafe shared := by
  have hrefs : refs shared = [⟨2, 3, false⟩, ⟨3, 5, true⟩, ⟨3, 6, false⟩, ⟨4, 6, false⟩] := by decide +kernel
  have hmet : met shared = [⟨2, 3, false⟩, ⟨3, 5, true⟩, ⟨4, 6, false⟩] := by decide +kernel
  have hw : WritesGoOut shared := writesGoOut_bytes _ (by decide : sharedFs.desc.ops ≠ .pdp7)
  have hc : Covered shared := by
    unfold Covered
    rw [hrefs, hmet]
    decide
  exact ⟨hrefs, hmet, (salvage_safe_iff _ shared_volume hw).1 hc⟩

/-- The read of inode 2 fails: the pass goes on, and the rebuild gives away the block of the
    root directory. -/
theorem a_salvage_gives_the_root_directory_away : ¬ SalvageSafe (rooted fun k => k == 1) := by
  intro h
  have hok : errorOf filsysCheckSalvage (rooted fun k => k == 1, {}) = none := by decide +kernel
  have hval : valueOf filsysCheckSalvage (rooted fun k => k == 1, {}) = some false := by decide +kernel
  have hrun := eq_ok hok
  rw [hval] at hrun
  have hmem : 3 ∈ ballocs 2 (calm (final filsysCheckSalvage (rooted fun k => k == 1, {})).1) := by
    decide +kernel
  have hrefs : refs (rooted fun k => k == 1) = [⟨2, 3, false⟩] := by decide +kernel
  exact h _ _ hrun 2 3 hmem ⟨2, 3, false⟩ (by rw [hrefs]; exact List.mem_singleton.mpr rfl) rfl

end Filsys.Check
