/-
  Filsys.Check.Tally — how many problems a volume has.

  The checker reports 0 when its 32-bit error counter is 0. What it counts is on the image:
  references that are not met as they should be (Filsys.Check.Unread), blocks the free list
  has besides or that neither has (`blockFaults`), totals that are wrong (`totalFaults`),
  entries that name nothing and link counts that are not the number of entries
  (`linkFaults`). `faults` is their sum, and
  - `filsysCheckCommon_tally`: a check that comes to its end reports 0 exactly if the
    blocks of the image are fit to be walked and 2^32 divides `faults`.
  - `clean_report_sound`: so a report of 0 is right on every volume whose faults are no
    multiple of 2^32, or whose blocks have none.
-/

import Filsys.Check.Unread

namespace Filsys.Check

open Filsys.Lib Filsys.Engine Filsys.Alloc

/-! ## The faults of a volume -/

section Faults

variable (s : Mnt)

/-- A reference met names `b`. -/
def named (b : Nat) : Bool := (met s).any fun y => y.blk == b

/-- How far the free list is walked. -/
structure Roll where
  ios : Nat
  /-- The blocks listed, the last one first. -/
  listed : List Nat
  /-- 1 where the list is left before its end. -/
  cut : Nat

/-- The list from `n` entries of `cur` on, `seen` being listed before. -/
def roll : Nat → Nat → (Nat → Nat) → List Nat → Nat → Roll
  | 0, _, _, seen, k => ⟨k, seen, 1⟩
  | fuel + 1, n, cur, seen, k =>
    if n = 0 then ⟨k, seen, 0⟩
    else
      let b := cur (n - 1)
      if b = 0 then ⟨k, seen, 0⟩
      else if ¬ InArea s.fs b ∨ b ∈ seen then ⟨k, seen, 1⟩
      else if walkLimit s.fs < seen.length + 1 then ⟨k, b :: seen, 1⟩
      else if n - 1 = 0 then
        match v7fsReadBlock b { s with ios := k } with
        | .error _ t => ⟨t.ios, b :: seen, 1⟩
        | .ok blk t =>
          if s.fs.desc.nicfree < chainNfree s.fs.desc blk then ⟨t.ios, b :: seen, 1⟩
          else roll fuel (chainNfree s.fs.desc blk) (chainFree s.fs.desc blk) (b :: seen) t.ios
      else roll fuel (n - 1) cur (b :: seen) k

def freeList : Roll := roll s (s.fs.fsize + s.fs.desc.nicfree + 2) s.fs.nfree s.fs.free [] (sweep s).ios

/-- The listed blocks that are named as well. -/
def bothWays : Nat := (freeList s).listed.countP (named s)

/-- The blocks of the data area that are neither named nor listed. -/
def missing : Nat :=
  ((List.range' 0 (opsDataEnd s.fs - opsDataStart s.fs)).filter fun i =>
    !(named s (opsDataStart s.fs + i) || decide (opsDataStart s.fs + i ∈ (freeList s).listed))).length

/-- What is wrong with the blocks of the volume. -/
def blockFaults : Nat :=
  (sweep s).lost + bads s.fs (met s) + repeats s.fs (met s) + bothWays s + (freeList s).cut + missing s

/-- What is wrong with the totals of the superblock, where the format keeps them. -/
def totalFaults : Nat :=
  if s.fs.desc.alloc = .freelist ∧ !s.fs.desc.sbCodec ∧ !s.fs.desc.isizeCount ∧
  (!s.fs.desc.pack4 ∨ s.fs.desc.magic ≠ 0) then
    (if ((freeList s).listed.countP fun b => !named s b) % 2 ^ 32 ≠ s.fs.tfree then 1 else 0) +
      if (opsMaxino s.fs + 2 ^ 32 - (sweep s).used % 2 ^ 32) % 2 ^ 32 ≠ s.fs.tinode then 1 else 0
  else 0

/-- The entries of the directory `ip` from `st` on, up to the first that is not read. -/
def entriesIn (ip : Inode) : Nat → Iter → Nat → List (Nat × Name) × Nat
  | 0, _, k => ([], k)
  | fuel + 1, st, k =>
    match inside ⟨ip, []⟩ (dirIter st) { s with ios := k } with
    | .ok (.ok (some e, st), _) t => (e :: (entriesIn ip fuel st t.ios).1, (entriesIn ip fuel st t.ios).2)
    | .ok _ t => ([], t.ios)
    | .error _ t => ([], t.ios)

/-- The entries of the directories among the inodes `n, n + 1, …` (`todo` of them). -/
def entriesOf : Nat → Nat → Nat → List (Nat × Name) × Nat
  | 0, _, k => ([], k)
  | todo + 1, n, k =>
    match readInode n { s with ios := k } with
    | .error _ t => entriesOf todo (n + 1) t.ios
    | .ok ip t =>
      if (sweep s).state n = .idir then
        let here := entriesIn s ip (ip.size + 4) {} t.ios
        (here.1 ++ (entriesOf todo (n + 1) here.2).1, (entriesOf todo (n + 1) here.2).2)
      else entriesOf todo (n + 1) t.ios

def allEntries : List (Nat × Name) × Nat := entriesOf s (opsMaxino s.fs) 1 (freeList s).ios

/-- The entry is one of those that are counted. -/
def Counts (d : Desc) (e : Nat × Name) : Prop := ¬ ((d.synthDot ∧ (e.2 = dot ∨ e.2 = dotdot)) ∨ e.1 = 0)

instance (d : Desc) (e : Nat × Name) : Decidable (Counts d e) := inferInstanceAs (Decidable (¬ _))

/-- The entry names no inode there is, or one that is not in use. -/
def Astray (e : Nat × Name) : Prop :=
  Counts s.fs.desc e ∧ (opsMaxino s.fs < e.1 ∨ (sweep s).state e.1 = .unalloc)

instance (e : Nat × Name) : Decidable (Astray s e) := inferInstanceAs (Decidable (_ ∧ _))

/-- The entries `E` that name inode `n`. -/
def namesOf (E : List (Nat × Name)) (n : Nat) : Nat := E.countP fun e => decide (Counts s.fs.desc e) && e.1 == n

/-- With `cnt` names the inode is an orphan, or its link count is wrong. -/
def Miscounted (d : Desc) (st : InState) (cnt n : Nat) (ip : Inode) : Prop :=
  (st ≠ .unalloc ∧ !modeIsDir d ip ∧ cnt = 0 ∧ n ≠ d.rootino ∧ n ≠ d.badino) ∨
    ((cnt : Int) ≠ ip.nlink ∧ ¬ (st = .unalloc ∧ cnt = 0) ∧
      ¬ (d.synthDot ∧ (st = .idir ∨ st = .ichr ∨ st = .iblk)) ∧
      ¬ (d.synthDot ∧ n = d.rootino))

instance (d : Desc) (st : InState) (cnt n : Nat) (ip : Inode) : Decidable (Miscounted d st cnt n ip) :=
  inferInstanceAs (Decidable (_ ∨ _))

/-- The inodes among `n, n + 1, …` (`todo` of them) whose counts are wrong; the checker's own stick at 255. -/
def miscounts (E : List (Nat × Name)) : Nat → Nat → Nat → Nat
  | 0, _, _ => 0
  | todo + 1, n, k =>
    match readInode n { s with ios := k } with
    | .error _ t => miscounts E todo (n + 1) t.ios
    | .ok ip t =>
      (if Miscounted s.fs.desc ((sweep s).state n) (min 255 (namesOf s E n)) n ip then 1 else 0) +
        miscounts E todo (n + 1) t.ios

/-- What is wrong with the entries and the link counts. -/
def linkFaults : Nat :=
  ((allEntries s).1.countP fun e => decide (Astray s e)) +
  miscounts s (allEntries s).1 (opsMaxino s.fs) 1 (allEntries s).2

def faults : Nat := blockFaults s + totalFaults s + linkFaults s

end Faults

/-! ## The free list -/

/-- After the list `L`: what is marked and counted. -/
structure Rolled (s : Mnt) (L : List Nat) (cut : Nat) (c : Chk) : Prop where
  marks : ∀ b, InArea s.fs b → (Marked s.fs c b ↔ named s b = true ∨ b ∈ L)
  found : c.found = (sweep s).lost + bads s.fs (met s) + repeats s.fs (met s) + L.countP (named s) + cut
  free : c.freeBlocks = (L.countP fun b => !named s b) % 2 ^ 32
  used : c.usedInodes = (sweep s).used % 2 ^ 32

theorem named_iff {s : Mnt} {b : Nat} : named s b = true ↔ ∃ y ∈ met s, y.blk = b := by
  unfold named
  simp

theorem rolled_start {s : Mnt} {c : Chk} (h : Mirrors s.fs c (sweep s)) : Rolled s [] 0 c where
  marks b hb := by
    rw [h.marks b hb, named_iff]
    simp [met]
  found := h.found
  free := h.free
  used := h.used

theorem Rolled.stop {s : Mnt} {L : List Nat} {c : Chk} (h : Rolled s L 0 c) : Rolled s L 1 c.err where
  marks := h.marks
  found := congrArg (· + 1) h.found
  free := h.free
  used := h.used

section Walk

variable {s : Mnt} (hl : OnFreelist s.fs) (hs : Solo s)

include hl

theorem inArea_iff {b : Nat} : InArea s.fs b ↔ ¬ (b < v7DataFirst s.fs ∨ s.fs.fsize ≤ b) := by
  unfold InArea
  rw [opsDataStart_v7 hl, opsDataEnd_v7 hl]
  omega

theorem markFree_rolled {b k : Nat} {L : List Nat} {c : Chk} (h : Rolled s L 0 c)
    (hb : InArea s.fs b) (hnew : b ∉ L) :
    Post (markFree b ({ s with ios := k }, c)) (fun _ t => t.1 = { s with ios := k } ∧
      Rolled s (b :: L) 0 t.2) fun _ _ => False := by
  have hstart : v7DataFirst s.fs = opsDataStart s.fs := (opsDataStart_v7 hl).symm
  have hset : Marked s.fs c b ↔ named s b = true := by
    rw [h.marks b hb]
    exact ⟨fun h' => h'.resolve_right hnew, .inl⟩
  have hfound := h.found
  have hfree := h.free
  refine post_engFs (post_getChk ?_)
  show Post ((if getBit c.bmap (b - v7DataFirst s.fs) then _ else _ : MC Unit) _) _ _
  rw [hstart]
  apply post_ite
  · intro hmark
    have hname : named s b = true := hset.mp hmark
    refine ⟨rfl, ?_, ?_, ?_, h.used⟩
    · intro b' hb'
      show Marked s.fs c b' ↔ _
      rw [h.marks b' hb', List.mem_cons]
      constructor
      · exact fun h' => h'.imp_right .inr
      · intro hr
        rcases hr with h' | rfl | h'
        · exact .inl h'
        · exact .inl hname
        · exact .inr h'
    · show c.found + 1 = _
      rw [List.countP_cons_of_pos hname]
      omega
    · show c.freeBlocks = _
      rw [List.countP_cons_of_neg (by simp [hname])]
      exact hfree
  · intro hclear
    have hname : named s b = false := Bool.eq_false_iff.mpr fun h' => hclear (hset.mpr h')
    refine ⟨rfl, ?_, ?_, ?_, h.used⟩
    · intro b' hb'
      have hput := marked_putBit hb hb' { c with freeBlocks := inc32 c.freeBlocks } c.usedBlocks
      refine Iff.trans hput ?_
      rw [show Marked s.fs { c with freeBlocks := inc32 c.freeBlocks } b' = Marked s.fs c b' from rfl,
        h.marks b' hb', List.mem_cons, or_assoc,
        or_comm (a := b' = b), eq_comm (a := b)]
    · show c.found = _
      rw [List.countP_cons_of_neg (by simp [hname])]
      exact hfound
    · show inc32 c.freeBlocks = _
      rw [List.countP_cons_of_pos (by simp [hname]), hfree]
      unfold inc32
      omega

include hs

theorem walkFreeList_rolled (fuel n : Nat) (cur : Nat → Nat) {L : List Nat} (k : Nat)
    {c : Chk} (h : Rolled s L 0 c) :
    Post (walkFreeList fuel n cur L L.length ({ s with ios := k }, c))
    (fun _ t => t.1 = { s with ios := (roll s fuel n cur L k).ios } ∧
      Rolled s (roll s fuel n cur L k).listed (roll s fuel n cur L k).cut t.2) fun _ _ => True := by
  induction fuel generalizing n cur L k c with
  | zero => exact trivial
  | succ fuel ih =>
    rw [roll]
    refine post_engFs (post_ite (fun hn => ?_) fun hn => ?_)
    · rw [if_pos hn]
      exact ⟨rfl, h⟩
    rw [if_neg hn]
    dsimp only
    generalize cur (n - 1) = b
    refine post_ite (fun h0 => ?_) fun h0 => post_ite (fun hout => ?_) fun hin =>
      post_ite (fun hseen => ?_) fun hnew => ?_
    · rw [if_pos h0]
      exact ⟨rfl, h⟩
    · rw [if_neg h0, if_pos (.inl fun hb => (inArea_iff hl).mp hb hout)]
      exact ⟨rfl, h.stop⟩
    · rw [if_neg h0, if_pos (.inr hseen)]
      exact ⟨rfl, h.stop⟩
    have hb : InArea s.fs b := (inArea_iff hl).mpr hin
    have hgood : ¬ (¬ InArea s.fs b ∨ b ∈ L) := fun h' => h'.elim (fun h' => h' hb) hnew
    rw [if_neg h0, if_neg hgood]
    refine post_bind ((markFree_rolled hl h hb hnew).mono ?_ fun _ _ h => h.elim)
    intro _ r hr
    obtain ⟨t, c'⟩ := r
    obtain ⟨rfl, h'⟩ := hr
    refine post_ite (fun hlim => ?_) fun hlim => ?_
    · have hlim : walkLimit s.fs < L.length + 1 := hlim
      rw [if_pos hlim]
      exact ⟨rfl, h'.stop⟩
    have hlim : ¬ walkLimit s.fs < L.length + 1 := hlim
    rw [if_neg hlim]
    apply post_ite
    · intro hlast
      rw [if_pos hlast]
      refine post_bind (post_outside (post_attempt ?_))
      have hpeek := v7fsReadBlock_peeks b { s with ios := k }
      cases hread : v7fsReadBlock b { s with ios := k } with
      | ok blk t =>
        obtain ⟨k', -, rfl⟩ := hpeek.of_ok hread hs
        dsimp only
        apply post_ite
        · intro hlong
          rw [if_pos hlong]
          exact ⟨rfl, h'.stop⟩
        · intro hshort
          rw [if_neg hshort]
          exact ih _ _ k' h'
      | error e t =>
        obtain ⟨k', -, rfl⟩ := hpeek.of_error hread hs
        exact ⟨rfl, h'.stop⟩
    · intro hmore
      rw [if_neg hmore]
      exact ih _ _ k h'

end Walk

/-! ## What is missing, and the totals -/

theorem missing_clears {s : Mnt} {c : Chk} (h : Rolled s (freeList s).listed (freeList s).cut c) :
    clears c.bmap (opsDataEnd s.fs - opsDataStart s.fs) 0 = missing s := by
  rw [clears_eq]
  unfold missing
  congr 1
  refine List.filter_congr fun i hi => ?_
  have hi := List.mem_range'_1.mp hi
  have hmark := h.marks (opsDataStart s.fs + i) ⟨Nat.le_add_right _ _, by omega⟩
  unfold Marked at hmark
  rw [Nat.add_sub_cancel_left] at hmark
  congr 1
  rw [Bool.eq_iff_iff, hmark, Bool.or_eq_true, decide_eq_true_iff]

theorem post_twoErrs {p q : Prop} [Decidable p] [Decidable q] (t : Mnt) (c : Chk) :
    Post ((onlyIf p (modChk Chk.err) >>= fun _ => onlyIf q (modChk Chk.err) : MC Unit) (t, c))
      (fun _ u => u.1 = t ∧ u.2.found = c.found + ((if p then 1 else 0) + if q then 1 else 0))
      fun _ _ => False := by
  refine post_bind (post_onlyIf ?_ ?_)
  · intro hp
    rw [if_pos hp]
    apply post_onlyIf
    · intro hq
      rw [if_pos hq]
      exact ⟨rfl, rfl⟩
    · intro hq
      rw [if_neg hq]
      exact ⟨rfl, rfl⟩
  · intro hp
    rw [if_neg hp]
    apply post_onlyIf
    · intro hq
      rw [if_pos hq, Nat.zero_add]
      exact ⟨rfl, rfl⟩
    · intro hq
      rw [if_neg hq]
      exact ⟨rfl, rfl⟩

theorem checkTotals_tally {s : Mnt} {k : Nat} {c : Chk}
    (hfree : c.freeBlocks = ((freeList s).listed.countP fun b => !named s b) % 2 ^ 32)
    (hused : c.usedInodes = (sweep s).used % 2 ^ 32) :
    Post (checkTotals (opsMaxino s.fs) ({ s with ios := k }, c))
      (fun _ t => t.1 = { s with ios := k } ∧ t.2.found = c.found + totalFaults s) fun _ _ => False := by
  unfold totalFaults
  rw [← hfree, ← hused]
  refine post_engFs (post_ite ?_ ?_)
  · intro h
    rw [if_pos h]
    exact post_twoErrs _ _
  · intro h
    rw [if_neg h]
    exact ⟨rfl, rfl⟩

/-! ## Entries and link counts -/

section Links

variable {s : Mnt} (hs : Solo s)

include hs

/-- What the entries of one directory add, `E` of them. -/
structure Added (s : Mnt) (E : List (Nat × Name)) (before after : Nat → Nat) (c c' : Chk) : Prop where
  found : c'.found = c.found + E.countP fun e => decide (Astray s e)
  count : ∀ n, n ≤ opsMaxino s.fs → after n = min 255 (before n + namesOf s E n)

omit hs in
theorem Added.nil {f : Nat → Nat} {c : Chk} (hf : ∀ n, f n ≤ 255) : Added s [] f f c c where
  found := rfl
  count n _ := (Nat.min_eq_right (hf n)).symm

omit hs in
theorem Added.append {E E' : List (Nat × Name)} {f g h : Nat → Nat} {c c' c'' : Chk}
    (h1 : Added s E f g c c') (h2 : Added s E' g h c' c'') :
    Added s (E ++ E') f h c c'' where
  found := by
    rw [h2.found, h1.found, List.countP_append]
    omega
  count n hn := by
    have hsplit : namesOf s (E ++ E') n = namesOf s E n + namesOf s E' n := List.countP_append
    rw [h2.count n hn, h1.count n hn, hsplit]
    omega

omit hs in
/-- One entry. -/
theorem Added.single {e : Nat × Name} {f g : Nat → Nat} {c c' : Chk}
    (hfound : c'.found = c.found + if Astray s e then 1 else 0)
    (hcount : ∀ n, n ≤ opsMaxino s.fs → g n = min 255 (f n + if Counts s.fs.desc e ∧ e.1 = n then 1
      else 0)) : Added s [e] f g c c' where
  found := by
    rw [hfound, List.countP_singleton]
    simp only [decide_eq_true_eq]
  count n hn := by
    rw [hcount n hn]
    unfold namesOf
    rw [List.countP_singleton]
    simp only [Bool.and_eq_true, decide_eq_true_eq, beq_iff_eq]

omit hs in
theorem bumpCount_le {f : Nat → Nat} (hf : ∀ n, f n ≤ 255) (dno n : Nat) : bumpCount f dno n ≤ 255 := by
  unfold bumpCount
  split
  · exact Nat.min_le_left _ _
  · exact hf n

theorem countEntries_tally (ip : Inode) (fuel : Nat) (st : Iter) {f : Nat → Nat}
    (hf : ∀ n, f n ≤ 255) (k : Nat) (c : Chk) :
    Post (countEntries s.fs.desc (opsMaxino s.fs) (sweep s).state ip fuel st f ({ s with ios := k }, c))
      (fun g t => t.1 = { s with ios := (entriesIn s ip fuel st k).2 } ∧ (∀ n, g n ≤ 255) ∧
        Added s (entriesIn s ip fuel st k).1 f g c t.2) fun _ _ => True := by
  induction fuel generalizing st f k c with
  | zero => exact trivial
  | succ fuel ih =>
    rw [entriesIn]
    refine post_bind (post_outside ?_)
    have hpeek := inside_peeks (dirIter_peeks st) ⟨ip, []⟩ { s with ios := k }
    cases hiter : inside ⟨ip, []⟩ (dirIter st) { s with ios := k } with
    | error e t => exact trivial
    | ok r t =>
      obtain ⟨k', -, rfl⟩ := hpeek.of_ok hiter hs
      rcases r with ⟨e | ⟨_ | ⟨dno, name⟩, st'⟩, l⟩
      · exact ⟨rfl, hf, .nil hf⟩
      · exact ⟨rfl, hf, .nil hf⟩
      -- one entry, then the rest
      have hone : ∀ {g : Nat → Nat} {c' : Chk}, (∀ n, g n ≤ 255) → Added s [(dno, name)] f g c c' →
          Post (countEntries s.fs.desc (opsMaxino s.fs) (sweep s).state ip fuel st' g
            ({ s with ios := k' }, c'))
            (fun g t => t.1 = { s with ios := (entriesIn s ip fuel st' k').2 } ∧ (∀ n, g n ≤ 255) ∧
              Added s ((dno, name) :: (entriesIn s ip fuel st' k').1) f g c t.2) fun _ _ => True := by
        intro g c' hg hadd
        refine (ih st' hg k' c').mono ?_ fun _ _ h => h
        intro g' t hr
        obtain ⟨ht, hg', hadd'⟩ := hr
        exact ⟨ht, hg', hadd.append hadd'⟩
      refine post_ite (fun hskip => ?_) fun hcount => ?_
      · have hnot : ¬ Counts s.fs.desc (dno, name) := fun h => h hskip
        refine hone hf (.single ?_ ?_)
        · rw [if_neg fun h => hnot h.1, Nat.add_zero]
        · intro n _
          rw [if_neg fun h => hnot h.1, Nat.add_zero, Nat.min_eq_right (hf n)]
      have hcounts : Counts s.fs.desc (dno, name) := hcount
      apply post_ite
      · intro hhigh
        refine post_modChk (hone hf (.single ?_ ?_))
        · rw [if_pos ⟨hcounts, .inl hhigh⟩]
          rfl
        · intro n hn
          have hne : ¬ (Counts s.fs.desc (dno, name) ∧ dno = n) := fun h => by omega
          rw [if_neg hne, Nat.add_zero, Nat.min_eq_right (hf n)]
      · intro hlow
        have hbump : ∀ n, bumpCount f dno n = min 255 (f n + if Counts s.fs.desc (dno, name) ∧
          dno = n then 1 else 0) := by
          intro n
          unfold bumpCount
          by_cases hn : dno = n
          · rw [if_pos hn.symm, if_pos ⟨hcounts, hn⟩]
          · rw [if_neg (Ne.symm hn), if_neg fun h => hn h.2, Nat.add_zero, Nat.min_eq_right (hf n)]
        refine post_bind (post_onlyIf ?_ ?_)
        · intro hfree
          refine hone (bumpCount_le hf dno) (.single ?_ fun n _ => hbump n)
          rw [if_pos ⟨hcounts, .inr hfree⟩]
          rfl
        · intro hfree
          refine hone (bumpCount_le hf dno) (.single ?_ fun n _ => hbump n)
          rw [if_neg fun h => h.2.elim hlow hfree, Nat.add_zero]

theorem countDirs_tally (todo n : Nat) {f : Nat → Nat} (hf : ∀ n, f n ≤ 255) (k : Nat) (c : Chk) :
    Post (countDirs (opsMaxino s.fs) (sweep s).state todo n f ({ s with ios := k }, c))
      (fun g t => t.1 = { s with ios := (entriesOf s todo n k).2 } ∧
        Added s (entriesOf s todo n k).1 f g c t.2) fun _ _ => True := by
  induction todo generalizing n f k c with
  | zero => exact ⟨rfl, .nil hf⟩
  | succ todo ih =>
    rw [entriesOf]
    refine post_engFs (post_bind (post_outside (post_attempt ?_)))
    have hpeek := readInode_peeks n { s with ios := k }
    cases hread : readInode n { s with ios := k } with
    | ok ip t =>
      obtain ⟨k', -, rfl⟩ := hpeek.of_ok hread hs
      dsimp only
      apply post_ite
      · intro hdir
        rw [if_pos hdir]
        refine post_bind ((countEntries_tally hs ip (ip.size + 4) {} hf k' c).mono ?_ fun _ _ h => h)
        intro g r hr
        obtain ⟨t, c'⟩ := r
        obtain ⟨rfl, hg, hadd⟩ := hr
        refine (ih (n + 1) hg _ c').mono ?_ fun _ _ h => h
        intro g' u hr
        obtain ⟨hu, hadd'⟩ := hr
        exact ⟨hu, hadd.append hadd'⟩
      · intro hdir
        rw [if_neg hdir]
        exact ih (n + 1) hf k' c
    | error e t =>
      obtain ⟨k', -, rfl⟩ := hpeek.of_error hread hs
      exact ih (n + 1) hf k' c

omit hs in
/-- One problem if the count is wrong, none if it is not. -/
theorem compareCount_tally (st : InState) (cnt n : Nat) (ip : Inode) (t : Mnt) (c : Chk) :
    Post (compareCount st cnt n ip (t, c))
    (fun _ u => u.1 = t ∧ u.2.found = c.found + if Miscounted t.fs.desc st cnt n ip then 1
      else 0) fun _ _ => False := by
  refine post_engFs (post_ite (fun horphan => ?_) fun horphan => ?_)
  · have hmis : Miscounted t.fs.desc st cnt n ip := .inl horphan
    rw [if_pos hmis]
    exact ⟨rfl, rfl⟩
  have hright : (cnt : Int) = ip.nlink ∨ (st = .unalloc ∧ cnt = 0) ∨
    (t.fs.desc.synthDot ∧ (st = .idir ∨ st = .ichr ∨ st = .iblk)) ∨
      (t.fs.desc.synthDot ∧ n = t.fs.desc.rootino) → ¬ Miscounted t.fs.desc st cnt n ip := by
    intro hsome hr
    rcases hr with h | ⟨h1, h2, h3, h4⟩
    · exact horphan h
    · rcases hsome with h | h | h | h
      · exact h1 h
      · exact h2 h
      · exact h3 h
      · exact h4 h
  refine post_ite (fun h1 => ?_) fun h1 => post_ite (fun h2 => ?_) fun h2 => post_ite (fun h3 => ?_)
    fun h3 => post_ite (fun h4 => ?_) fun h4 => ?_
  · rw [if_neg (hright (.inl h1))]
    exact ⟨rfl, rfl⟩
  · rw [if_neg (hright (.inr (.inl h2)))]
    exact ⟨rfl, rfl⟩
  · rw [if_neg (hright (.inr (.inr (.inl h3))))]
    exact ⟨rfl, rfl⟩
  · rw [if_neg (hright (.inr (.inr (.inr h4))))]
    exact ⟨rfl, rfl⟩
  · have hmis : Miscounted t.fs.desc st cnt n ip := .inr ⟨h1, h2, h3, h4⟩
    rw [if_pos hmis]
    exact ⟨rfl, rfl⟩

theorem compareCounts_tally {E : List (Nat × Name)} {g : Nat → Nat}
    (hg : ∀ n, n ≤ opsMaxino s.fs → g n = min 255 (namesOf s E n))
    (todo n : Nat) (htop : n + todo ≤ opsMaxino s.fs + 1) (k : Nat) (c : Chk) :
    Post (compareCounts (sweep s).state g todo n ({ s with ios := k }, c))
      (fun _ t => t.2.found = c.found + miscounts s E todo n k) fun _ _ => False := by
  induction todo generalizing n k c with
  | zero => exact rfl
  | succ todo ih =>
    rw [miscounts]
    refine post_bind (post_outside (post_attempt ?_))
    have hpeek := readInode_peeks n { s with ios := k }
    cases hread : readInode n { s with ios := k } with
    | ok ip t =>
      obtain ⟨k', -, rfl⟩ := hpeek.of_ok hread hs
      dsimp only
      rw [← hg n (by omega)]
      refine post_bind ((compareCount_tally _ _ _ _ _ c).mono ?_ fun _ _ h => h)
      intro _ r hr
      obtain ⟨t, c'⟩ := r
      obtain ⟨rfl, hfound⟩ := hr
      refine (ih (n + 1) (by omega) k' c').mono ?_ fun _ _ h => h
      intro _ u hu
      rw [hu, hfound, Nat.add_assoc]
    | error e t =>
      obtain ⟨k', -, rfl⟩ := hpeek.of_error hread hs
      exact ih (n + 1) (by omega) k' c

end Links

/-! ## The report -/

section Report

variable {s : Mnt} (hl : OnFreelist s.fs) (hs : Solo s)

include hs

/-- What is left of the check once the blocks are counted. -/
theorem reportFrom_tally {c : Chk} (hfound : c.found = blockFaults s)
    (hfree : c.freeBlocks = ((freeList s).listed.countP fun b => !named s b) % 2 ^ 32)
    (hused : c.usedInodes = (sweep s).used % 2 ^ 32) (herr : c.errors = c.found % 2 ^ 32) :
    Post (reportFrom (opsMaxino s.fs) (sweep s).state ({ s with ios := (freeList s).ios }, c))
    (fun clean _ => clean = true ↔ 2 ^ 32 ∣ faults s)
      fun _ _ => True := by
  have hcounted := checkTotals_keeps counted_tail (opsMaxino s.fs) ({ s with ios := (freeList s).ios }, c)
  refine post_bind (((checkTotals_tally hfree hused).and hcounted).mono ?_ fun _ _ _ => trivial)
  intro _ r h
  obtain ⟨t₁, c₁⟩ := r
  obtain ⟨⟨rfl, hfound₁⟩, hc₁⟩ := h
  have hdirs := countDirs_tally hs (opsMaxino s.fs) 1 (fun _ => Nat.zero_le 255) (freeList s).ios c₁
  have hcounted := countDirs_keeps counted_tail (opsMaxino s.fs) (sweep s).state (opsMaxino s.fs) 1 (fun _ => 0)
    ({ s with ios := (freeList s).ios }, c₁)
  refine post_bind ((hdirs.and hcounted).mono ?_ fun _ _ _ => trivial)
  intro g r h
  obtain ⟨t₂, c₂⟩ := r
  obtain ⟨⟨rfl, hadd⟩, hc₂⟩ := h
  have hg : ∀ n, n ≤ opsMaxino s.fs → g n = min 255 (namesOf s (allEntries s).1 n) := by
    intro n hn
    have hcount := hadd.count n hn
    rw [Nat.zero_add] at hcount
    exact hcount
  have hcompare := compareCounts_tally hs hg (opsMaxino s.fs) 1 (by omega) (allEntries s).2 c₂
  have hcounted := compareCounts_keeps counted_tail (sweep s).state g (opsMaxino s.fs) 1
    ({ s with ios := (allEntries s).2 }, c₂)
  refine post_bind ((hcompare.and hcounted).mono ?_ fun _ _ _ => trivial)
  intro _ r h
  obtain ⟨t₃, c₃⟩ := r
  obtain ⟨hfound₃, hc₃⟩ := h
  have herrors : c₃.errors = c₃.found % 2 ^ 32 :=
    (counted_law.trans hc₁ (counted_law.trans hc₂ hc₃)).errors herr
  have hall : c₃.found = faults s := by
    have h₁ : c₁.found = c.found + totalFaults s := hfound₁
    have h₂ : c₂.found = c₁.found + (allEntries s).1.countP fun e => decide (Astray s e) := hadd.found
    have h₃ : c₃.found = c₂.found + miscounts s (allEntries s).1 (opsMaxino s.fs) 1 (allEntries s).2 := hfound₃
    unfold faults linkFaults
    omega
  show decide (c₃.errors = 0) = true ↔ _
  rw [decide_eq_true_iff, herrors, hall, Nat.dvd_iff_mod_eq_zero]

include hl

/-- A check that comes to its end reports 0 exactly if its faults are a multiple of 2^32; then, the
    blocks having none, all is accounted for. -/
theorem filsysCheckCommon_tally : Post (filsysCheckCommon (s, {}))
    (fun clean _ => (clean = true ↔ opsDataStart s.fs < opsDataEnd s.fs ∧
      bads s.fs (met s) % 2 ^ 32 ≤ 10 ∧ 2 ^ 32 ∣ faults s) ∧
      (clean = true → blockFaults s = 0 → Accounted s.fs s.img)) fun _ _ => True := by
  apply post_engFs
  show Post ((if opsDataEnd s.fs ≤ opsDataStart s.fs then modChk Chk.err >>= fun _ => pure false
    else markInodes (opsMaxino s.fs) 1 (fun _ => .unalloc) >>= _ : MC Bool) _) _ _
  refine post_ite (fun hgeo => ?_) fun hgeo => ?_
  · refine ⟨⟨fun h => absurd h Bool.false_ne_true, fun h => absurd h.1 (Nat.not_lt.mpr hgeo)⟩, ?_⟩
    intro h
    exact absurd h Bool.false_ne_true
  have hmarks := markInodes_marks hl hs (opsMaxino s.fs) 1 (fun _ => .unalloc) s.ios {}
  have hsweeps := markInodes_sweeps (n := 1) hs (opsMaxino s.fs) (mirrors_start s.fs s.ios)
  have hcounted := markInodes_keeps counted_pass (opsMaxino s.fs) 1 (fun _ => .unalloc) (s, {})
  refine post_bind (((hmarks.and hsweeps).and hcounted).mono ?_ fun _ _ _ => trivial)
  intro state r hr
  obtain ⟨t₁, c₁⟩ := r
  obtain ⟨⟨⟨-, hm⟩, rfl, rfl, hmir⟩, hc₁⟩ := hr
  refine post_getChk (post_ite (fun _ => trivial) fun _ => ?_)
  have hbad : c₁.badBlocks = bads s.fs (met s) % 2 ^ 32 := hmir.bad
  refine post_ite (fun hmany => ?_) fun hfew => post_bind ?_
  · refine ⟨⟨fun h => absurd h Bool.false_ne_true, fun h => ?_⟩, fun h => absurd h Bool.false_ne_true⟩
    have hmany : 10 < c₁.badBlocks := hmany
    omega
  rw [walkFree_list hl _ rfl]
  have hroll := walkFreeList_rolled hl hs (s.fs.fsize + s.fs.desc.nicfree + 2) s.fs.nfree s.fs.free
    (sweep s).ios (rolled_start hmir)
  have hwalk := walkFreeList_walked hs (s.fs.fsize + s.fs.desc.nicfree + 2) s.fs.nfree s.fs.free [] 0
    (sweep s).ios c₁
  have hcounted := walkFreeList_counted (s.fs.fsize + s.fs.desc.nicfree + 2) s.fs.nfree s.fs.free [] 0
    ({ s with ios := (sweep s).ios }, c₁)
  refine (((hroll.and hwalk).and hcounted).mono ?_ fun _ _ _ => trivial)
  intro _ r hr
  obtain ⟨t₂, c₂⟩ := r
  obtain ⟨⟨⟨rfl, hrolled⟩, hwalked⟩, hc₂⟩ := hr
  have hmissing := countMissing_eq (opsDataEnd s.fs - opsDataStart s.fs) 0 { s with ios := (freeList s).ios } c₂
  have hc₃ := countMissing_counted (opsDataEnd s.fs - opsDataStart s.fs) 0
    ({ s with ios := (freeList s).ios }, c₂)
  have hclears := missing_clears hrolled
  rw [hmissing] at hc₃
  show Post ((countMissing (opsDataEnd s.fs - opsDataStart s.fs) 0 >>= fun _ =>
    reportFrom (opsMaxino s.fs) (sweep s).state : MC Bool)
    ({ s with ios := (freeList s).ios }, c₂)) _ _
  rw [bind_eq_of_ok hmissing]
  have hfound₃ : (missed c₂ (clears c₂.bmap (opsDataEnd s.fs - opsDataStart s.fs) 0)).found =
    blockFaults s := by
    rw [missed_found, hclears, hrolled.found]
    rfl
  have hfree₃ := (missed_free c₂ (clears c₂.bmap (opsDataEnd s.fs - opsDataStart s.fs) 0)).trans hrolled.free
  have hused₃ := (missed_used c₂ (clears c₂.bmap (opsDataEnd s.fs - opsDataStart s.fs) 0)).trans hrolled.used
  have haccounted : blockFaults s = 0 → Accounted s.fs s.img := by
    intro hnone
    have hzero : c₂.found = 0 ∧ clears c₂.bmap (opsDataEnd s.fs - opsDataStart s.fs) 0 = 0 := by
      rw [missed_found] at hfound₃
      omega
    have hle₁ : c₁.found ≤ c₂.found := hwalked.2.1
    have hzero₁ : c₁.found = ({} : Chk).found := by
      show c₁.found = 0
      omega
    obtain ⟨L, hL⟩ := hwalked.2.2 (by show c₂.found = c₁.found; omega)
    have hclaims := hm.claims hzero₁
    rw [opsMaxino_v7 hl] at hclaims
    refine accounted_of_passes hclaims hL fun b hb => ?_
    have hset := clears_eq_zero.mp hzero.2 (b - v7DataFirst s.fs) (Nat.zero_le _)
    rw [opsDataStart_v7 hl, opsDataEnd_v7 hl] at hset
    unfold InData at hb
    exact hset (by omega)
  have herr₃ := (counted_law.trans hc₁ (counted_law.trans hc₂ hc₃)).errors rfl
  refine (reportFrom_tally hs hfound₃ hfree₃ hused₃ herr₃).mono ?_ fun _ _ _ => trivial
  intro clean _ hclean
  have hfew : ¬ 10 < c₁.badBlocks := hfew
  exact ⟨⟨fun h => ⟨Nat.lt_of_not_le hgeo, by omega, hclean.mp h⟩, fun h => hclean.mpr h.2.2⟩, fun _ =>
    haccounted⟩

end Report

end Filsys.Check
