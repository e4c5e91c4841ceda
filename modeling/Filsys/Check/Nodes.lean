/-
  Filsys.Check.Nodes — what a clean PDP-7 check says about the block allocator.

  The walk of the node list builds a map of the blocks it names; a block named twice is
  set twice and noticed by nothing, and a node outside the data area is not even set.
  A clean check therefore makes the allocator safe exactly when the list names no block
  twice and keeps its nodes inside the area (`clean_nodes_iff`).
-/

import Filsys.Alloc.Nodes
import Filsys.Check.Pass

namespace Filsys.Check

open Filsys.Lib Filsys.Engine Filsys.Alloc

/-! ## A PDP-7 volume has room for few problems -/

/-- Marking adds at most `N` problems. -/
def AddsAtMost (N : Nat) (f : Chk → Chk) : Prop := ∀ c, (f c).found ≤ c.found + N

theorem markOne_adds (fs : Fs) (b : Nat) : AddsAtMost 1 fun c => (markOne fs b c).2 := by
  intro c
  show (markOne fs b c).2.found ≤ c.found + 1
  unfold markOne
  split
  · exact Nat.le_succ _
  · split
    · split
      · exact Nat.le_succ _
      · exact Nat.le_refl _
    · split
      · exact Nat.le_refl _
      · exact Nat.le_succ _

theorem markAll_adds {N : Nat} {f : Nat → Chk → Chk} (hf : ∀ b, AddsAtMost N (f b)) (bs : List Nat) :
    AddsAtMost (bs.length * N) (markAll f bs) := by
  induction bs with
  | nil => exact fun c => Nat.le_add_right _ _
  | cons b bs ih =>
    intro c
    rw [markAll, List.length_cons, Nat.succ_mul]
    have hrest := ih (if b ≠ 0 then f b c else c)
    have hhead : (if b ≠ 0 then f b c else c).found ≤ c.found + N := by
      split
      · exact hf b c
      · exact Nat.le_add_right _ _
    omega

section Bound

variable {fs : Fs} {img : Buf} {rb ri : Nat → Bool}

theorem passWith_adds {N : Nat} {child : Nat → Chk → Chk} (hc : ∀ b, AddsAtMost N (child b)) (b : Nat) :
    AddsAtMost (2 + fs.desc.nindir * N) (passWith fs img rb child b) := by
  intro c
  unfold passWith
  have hone : (markOne fs b c).2.found ≤ c.found + 1 := markOne_adds fs b c
  split
  · omega
  · split
    · split
      · have hall := markAll_adds hc (entriesAt fs img b) (markOne fs b c).2
        rw [show (entriesAt fs img b).length = fs.desc.nindir by simp [entriesAt]] at hall
        omega
      · show (markOne fs b c).2.found + 1 ≤ _
        omega
    · omega

theorem passSlots_adds {ip : Inode} {N top : Nat}
    (hs : ∀ i b, i < top → AddsAtMost N (passSlot fs img rb (slotLevel fs.desc ip.mode i) b))
    (todo i : Nat) (htop : i + todo ≤ top) :
    AddsAtMost (todo * N) (passSlots fs img rb ip todo i) := by
  induction todo generalizing i with
  | zero => exact fun c => Nat.le_add_right _ _
  | succ todo ih =>
    intro c
    rw [passSlots, Nat.succ_mul]
    have hrest := ih (i + 1) (by omega) (if ip.addr i ≠ 0 then passSlot fs img rb
      (slotLevel fs.desc ip.mode i) (ip.addr i) c else c)
    have hhead : (if ip.addr i ≠ 0 then passSlot fs img rb (slotLevel fs.desc ip.mode i) (ip.addr i) c
      else c).found ≤ c.found + N := by
      split
      · exact hs i _ (by omega) c
      · exact Nat.le_add_right _ _
    omega

theorem passInodes_adds {N : Nat} (hi : ∀ n, AddsAtMost (N + 1) (passInode fs img rb n)) (todo n : Nat) :
    AddsAtMost (todo * (N + 1)) (passInodes fs img rb ri todo n) := by
  induction todo generalizing n with
  | zero => exact fun c => Nat.le_add_right _ _
  | succ todo ih =>
    intro c
    rw [passInodes, Nat.succ_mul]
    have hrest := ih (n + 1) (if ri n then passInode fs img rb n c else c.err)
    have hhead : (if ri n then passInode fs img rb n c else c.err).found ≤ c.found + (N + 1) := by
      split
      · exact hi n c
      · show c.found + 1 ≤ _
        omega
    omega

/-- A PDP-7 slot has one level of indirection at most. -/
theorem slotLevel_pdp7 {d : Desc} (hd : ∃ bo wc, d = { descPdp7 with bo := bo, word := wc })
    (mode : Nat) {i : Nat} (hi : i < 7) :
    slotLevel d mode i = none ∨ slotLevel d mode i = some 0 := by
  obtain ⟨bo, wc, rfl⟩ := hd
  have hlarge : i < descPdp7.largeSingle := hi
  have hdirect : i < descPdp7.ndaddr := hi
  unfold slotLevel
  split
  · exact .inr rfl
  · exact .inl rfl

theorem passInode_adds7 (hd : ∃ bo wc, fs.desc = { descPdp7 with bo := bo, word := wc }) (n : Nat) :
    AddsAtMost 462 (passInode fs img rb n) := by
  have hnind : fs.desc.nindir = 64 := by
    obtain ⟨bo, wc, h⟩ := hd
    rw [h]
    rfl
  have hnaddr : fs.desc.niaddr = 7 := by
    obtain ⟨bo, wc, h⟩ := hd
    rw [h]
    rfl
  have hslot : ∀ i b, i < 7 →
    AddsAtMost 66 (passSlot fs img rb (slotLevel fs.desc (recAt fs img n).mode i) b) := by
    intro i b hi c
    rcases slotLevel_pdp7 hd (recAt fs img n).mode hi with h | h
    · rw [h]
      have hone := markOne_adds fs b c
      exact Nat.le_trans hone (by omega)
    · rw [h]
      have htree := @passWith_adds fs img rb 1 _ (fun b => markOne_adds fs b) b c
      rw [hnind] at htree
      exact htree
  intro c
  unfold passInode
  dsimp only
  split
  · omega
  · split
    · show c.found + 1 ≤ _
      omega
    · split
      · show c.found ≤ _
        omega
      · rw [hnaddr]
        exact passSlots_adds hslot 7 0 (Nat.le_refl 7) _

end Bound

/-- Whatever its outcome, `x` adds at most `N` problems. -/
def AddsIn {α : Type} (N : Nat) (x : MC α) : Prop :=
  ∀ s, Post (x s) (fun _ t => t.2.found ≤ s.2.found + N) (fun _ t => t.2.found ≤ s.2.found + N)

section AddsIn

variable {α β : Type}

theorem addsIn_pure {a : α} : AddsIn 0 (pure a : MC α) := fun s => Nat.le_refl s.2.found

theorem addsIn_throw {e : Errno} : AddsIn 0 (throw e : MC α) := fun s => Nat.le_refl s.2.found

theorem addsIn_bind {N N' : Nat} {x : MC α} {f : α → MC β} (hx : AddsIn N x) (hf : ∀ a, AddsIn N' (f a)) :
    AddsIn (N + N') (x >>= f) := by
  intro s
  refine post_bind ((hx s).mono (fun a t h => ?_) fun _ _ h => Nat.le_trans h (by omega))
  exact (hf a t).mono (fun _ u h' => by omega) fun _ u h' => by omega

theorem AddsIn.mono {N N' : Nat} {x : MC α} (hx : AddsIn N x) (h : N ≤ N') : AddsIn N' x :=
  fun s => (hx s).mono (fun _ _ h' => by omega) fun _ _ h' => by omega

theorem addsIn_eng (x : M α) : AddsIn 0 (eng x) := by
  intro s
  apply post_outside
  cases x s.1 with
  | ok a t => exact Nat.le_refl _
  | error e t => exact Nat.le_refl _

theorem addsIn_modChk {f : Chk → Chk} (hf : ∀ c, (f c).found ≤ c.found + 1) : AddsIn 1 (modChk f) :=
  fun s => hf s.2

theorem addsIn_onlyIf {N : Nat} {p : Prop} [Decidable p] {x : MC Unit} (hx : AddsIn N x) :
    AddsIn N (onlyIf p x) := by
  unfold onlyIf
  split
  · exact hx
  · exact addsIn_pure.mono (Nat.zero_le N)

end AddsIn

theorem p7WalkFree_adds (freeb : Buf) (todo off : Nat) : AddsIn todo (p7WalkFree freeb todo off) := by
  induction todo generalizing off with
  | zero => exact addsIn_pure
  | succ todo ih =>
    have hbit : AddsIn 1 (markFreeBit off) := by
      intro s
      refine post_getChk (post_modChk (post_ite ?_ ?_))
      · intro _
        exact Nat.le_refl _
      · intro _
        exact Nat.le_succ _
    exact (addsIn_bind (addsIn_onlyIf hbit) fun _ => ih (off + 1)).mono (by omega)

theorem countMissing_adds (todo off : Nat) : AddsIn todo (countMissing todo off) := by
  rintro ⟨t, c⟩
  rw [countMissing_eq]
  show (missed c _).found ≤ c.found + todo
  rw [missed_found]
  exact Nat.add_le_add_left (clears_le _ _ _) _

/-- The data area, as the walk tests it. -/
def inside7 (b : Nat) : Bool := decide (p7Datastart ≤ b) && decide (b < p7Kdata)

theorem p7NodeMap_adds (fl : Nat → Nat) (inside : Nat → Bool) (n : Nat) (freeb : Buf) :
    AddsIn n (p7NodeMap fl inside n freeb) := by
  induction n with
  | zero => exact addsIn_pure
  | succ n ih =>
    refine addsIn_bind ih fun freeb' => ?_
    intro s
    refine post_ite (fun _ => Nat.le_succ _) fun _ => post_ite (fun _ => Nat.le_succ _) fun _ => post_modChk ?_
    exact Nat.le_refl _

theorem p7FreeMap_adds (guard head : Nat) (freeb : Buf) :
    AddsIn (guard * 9 + 1) (p7FreeMap guard head freeb) := by
  induction guard generalizing head freeb with
  | zero => exact addsIn_pure.mono (Nat.zero_le _)
  | succ guard ih =>
    intro s
    refine post_ite (fun _ => Nat.le_add_right _ _) fun _ => ?_
    refine post_bind ((addsIn_eng (attempt (readWords head)) s).mono ?_ fun _ _ h => by omega)
    intro r t ht
    cases r with
    | error e =>
      apply post_modChk
      show t.2.found + 1 ≤ _
      omega
    | ok fl =>
      have hnode := addsIn_bind
        (p7NodeMap_adds fl inside7 9 (if inside7 head then putBit freeb (head - p7Datastart) true
        else freeb))
        fun freeb' => ih (word18 (fl 0)) freeb'
      exact (hnode t).mono (fun _ u h => by omega) fun _ u h => by omega

theorem countEntries_adds (d : Desc) (maxino : Nat) (state : Nat → InState) (ip : Inode) (fuel : Nat)
    (st : Iter) (ecount : Nat → Nat) :
    AddsIn fuel (countEntries d maxino state ip fuel st ecount) := by
  induction fuel generalizing st ecount with
  | zero => exact addsIn_throw
  | succ fuel ih =>
    refine (@addsIn_bind _ _ 0 (fuel + 1) _ _ (addsIn_eng _) fun r => ?_).mono (by omega)
    obtain ⟨r, l⟩ := r
    cases r with
    | error e => exact addsIn_pure.mono (Nat.zero_le _)
    | ok r =>
      obtain ⟨ent, st'⟩ := r
      cases ent with
      | none => exact addsIn_pure.mono (Nat.zero_le _)
      | some ent =>
        obtain ⟨dno, name⟩ := ent
        intro s
        refine post_ite (fun _ => ((ih st' ecount).mono (Nat.le_succ _)) s) fun _ => ?_
        apply post_ite
        · intro _
          exact (addsIn_bind (addsIn_modChk fun _ => Nat.le_refl _) fun _ => ih st' ecount).mono (by omega) s
        · intro _
          exact (addsIn_bind (addsIn_onlyIf (addsIn_modChk fun _ => Nat.le_refl _)) fun _ =>
            ih st' _).mono (by omega) s

theorem compareCounts_adds (state : Nat → InState) (ecount : Nat → Nat) (todo ino : Nat) :
    AddsIn todo (compareCounts state ecount todo ino) := by
  induction todo generalizing ino with
  | zero => exact addsIn_pure
  | succ todo ih =>
    refine (@addsIn_bind _ _ 0 (todo + 1) _ _ (addsIn_eng _) fun r => ?_).mono (by omega)
    cases r with
    | error e => exact (ih (ino + 1)).mono (Nat.le_succ _)
    | ok ip =>
      have hone : AddsIn 1 (compareCount (state ino) (ecount ino) ino ip) := by
        intro s
        refine post_engFs (post_ite (fun _ => ?_) fun _ => post_ite (fun _ => ?_) fun _ =>
          post_ite (fun _ => ?_) fun _ =>
          post_ite (fun _ => ?_) fun _ => post_ite (fun _ => ?_) fun _ => ?_)
        · exact Nat.le_refl _
        · exact Nat.le_succ _
        · exact Nat.le_succ _
        · exact Nat.le_succ _
        · exact Nat.le_succ _
        · exact Nat.le_refl _
      exact (addsIn_bind hone fun _ => ih (ino + 1)).mono (by omega)

/-! ## The walk of the node list -/

/-- The blocks `bs` of the data area are set in `fb`, beside those of `fb₀`. -/
def SetIn (fb₀ fb : Buf) (bs : List Nat) : Prop :=
  ∀ i, getBit fb i = true ↔ getBit fb₀ i = true ∨ ∃ b ∈ bs, inside7 b = true ∧ b - p7Datastart = i

theorem setIn_nil (fb : Buf) : SetIn fb fb [] := fun i => by simp

theorem SetIn.append {fb₀ fb₁ fb₂ : Buf} {bs bs' : List Nat} (h : SetIn fb₀ fb₁ bs) (h' : SetIn fb₁ fb₂ bs') :
    SetIn fb₀ fb₂ (bs ++ bs') := by
  intro i
  rw [h' i, h i]
  simp only [List.mem_append, or_and_right, exists_or, or_assoc]

theorem setIn_one {fb : Buf} {b : Nat} :
    SetIn fb (if inside7 b then putBit fb (b - p7Datastart) true else fb) [b] := by
  intro i
  by_cases hb : inside7 b = true
  · rw [if_pos hb, getBit_putBit]
    by_cases hi : i = b - p7Datastart
    · rw [if_pos hi]
      exact ⟨fun _ => .inr ⟨b, .head _, hb, hi.symm⟩, fun _ => rfl⟩
    · rw [if_neg hi]
      simp only [List.mem_singleton, exists_eq_left, hb, true_and]
      exact ⟨.inl, fun h => h.resolve_right fun he => hi he.symm⟩
  · rw [if_neg hb]
    simp [hb]

theorem p7NodeMap_spec (fl : Nat → Nat) (n : Nat) (freeb : Buf) (t : Mnt) (c : Chk) :
    Post (p7NodeMap fl inside7 n freeb (t, c)) (fun fb u => u.1 = t ∧ u.2.bmap = c.bmap ∧
      SetIn freeb fb (entriesBelow fl n) ∧
      c.found ≤ u.2.found ∧ (u.2.found = c.found ↔ ∀ b ∈ entriesBelow fl n, inside7 b = true) ∧
      ((∀ b ∈ entriesBelow fl n, inside7 b = true) → u.2 = c)) (fun _ _ => False) := by
  induction n generalizing c with
  | zero => exact ⟨rfl, rfl, setIn_nil _, Nat.le_refl _, by simp [entriesBelow], fun _ => rfl⟩
  | succ n ih =>
    refine post_bind ((ih c).mono ?_ fun _ _ h => h)
    intro fb r hr
    obtain ⟨u, c'⟩ := r
    obtain ⟨rfl, hb, hset, hle, hiff, hsame⟩ := hr
    rw [entriesBelow]
    apply post_ite
    · intro h0
      rw [if_neg (by simpa using h0)]
      exact ⟨rfl, hb, hset, hle, hiff, hsame⟩
    · intro h0
      rw [if_pos h0]
      have hset' : ∀ fb', SetIn fb fb' [fl (n + 1)] → SetIn freeb fb' (fl (n + 1) :: entriesBelow fl n) := by
        intro fb' h' i
        rw [(hset.append h') i]
        simp only [List.mem_append, List.mem_cons, List.not_mem_nil, or_false]
        simp only [or_comm]
      refine post_ite ?_ fun hout => post_modChk ?_
      · intro hin
        have hone := @setIn_one fb (fl (n + 1))
        rw [if_pos hin] at hone
        refine ⟨rfl, hb, hset' _ hone, hle, ?_, fun h => hsame fun b hb' => h b (.tail _ hb')⟩
        rw [hiff]
        simp [hin]
      · have hone := @setIn_one fb (fl (n + 1))
        rw [if_neg hout] at hone
        refine ⟨rfl, hb, hset' _ hone, Nat.le_succ_of_le hle, ?_, fun h => absurd (h _ (.head _)) hout⟩
        show c'.found + 1 = c.found ↔ _
        have hle' : c.found ≤ c'.found := hle
        exact ⟨fun h => absurd h (by omega), fun h => absurd (h _ (.head _)) hout⟩

/-- The list from `h` with the nodes `ns` is in order: it ends, and its entries lie inside. -/
structure Orderly (w : Words) (h : Nat) (ns : List Nat) : Prop where
  ends : endOf w h ns = 0
  inside : ∀ n ∈ ns, ∀ b ∈ entriesBelow (w n) 9, inside7 b = true

section Walk

variable {s : Mnt} (hm : Mounted7 s) (hq : ∀ k, s.env.fails k = false)

include hm hq

theorem p7FreeMap_spec {h : Nat} {ns : List Nat} (hseg : Seg (WordsIn s) (wordsOf s.fs s.img) h ns)
    (guard : Nat)
    (hg : ns.length < guard) (freeb : Buf) (k : Nat) (c : Chk) :
    Post (p7FreeMap guard h freeb ({ s with ios := k }, c))
    (fun fb u => (∃ k', u.1 = { s with ios := k' }) ∧ u.2.bmap = c.bmap ∧
      SetIn freeb fb (listed (wordsOf s.fs s.img) ns) ∧ c.found ≤ u.2.found ∧
      (u.2.found = c.found → Orderly (wordsOf s.fs s.img) h ns) ∧
      (Orderly (wordsOf s.fs s.img) h ns → u.2 = c)) (fun _ _ => False) := by
  induction hseg generalizing guard freeb k c with
  | @stop h hstop =>
    obtain ⟨guard, rfl⟩ : ∃ g, guard = g + 1 := ⟨guard - 1, by simp at hg; omega⟩
    have hm' : Mounted7 { s with ios := k } := hm.of_sameVol ⟨rfl, rfl, rfl⟩
    apply post_ite
    · intro h0
      exact ⟨⟨k, rfl⟩, rfl, setIn_nil _, Nat.le_refl _, fun _ => ⟨h0, by simp⟩, fun _ => rfl⟩
    · intro h0
      refine post_bind (post_outside (post_attempt (hm'.post_readWords ?_ ?_ ?_)))
      · intro hin _
        exact absurd hin (hstop.resolve_left h0)
      · intro _ _
        refine post_modChk ⟨⟨k, rfl⟩, rfl, setIn_nil _, Nat.le_succ _, fun he => ?_,
          fun ho => absurd ho.ends h0⟩
        exact absurd he (Nat.succ_ne_self _)
      · intro hf _
        exact absurd ((hq k).symm.trans hf) (by decide)
  | @node h ns h0 hin _ ih =>
    obtain ⟨guard, rfl⟩ : ∃ g, guard = g + 1 := ⟨guard - 1, by simp at hg; omega⟩
    have hm' : Mounted7 { s with ios := k } := hm.of_sameVol ⟨rfl, rfl, rfl⟩
    refine post_ite (fun h => absurd h h0) fun _ => ?_
    refine post_bind (post_outside (post_attempt (hm'.post_readWords ?_ (fun hout => absurd hin hout) ?_)))
    · intro _ _
      refine post_bind ((p7NodeMap_spec (wordsOf s.fs s.img h) 9 _ _ c).mono ?_ fun _ _ h => h)
      intro fb r hr
      obtain ⟨u, c'⟩ := r
      obtain ⟨rfl, hb, hset, hle, hiff, hsame⟩ := hr
      have hnext : word18 (wordsOf s.fs s.img h 0) = wordsOf s.fs s.img h 0 :=
        Nat.mod_eq_of_lt (wordsOf_lt _ _ _ _)
      rw [hnext]
      refine (ih guard (by simp at hg; omega) fb (k + 1) c').mono ?_ fun _ _ h => h
      intro fb' u hr
      obtain ⟨hk, hb', hset', hle', hord, hback⟩ := hr
      refine ⟨hk, hb'.trans hb, ?_, Nat.le_trans hle hle', fun he => ?_, fun ho => ?_⟩
      · intro i
        rw [((setIn_one.append hset).append hset') i, listed_cons]
        simp only [List.mem_append, List.mem_cons, List.not_mem_nil, or_false]
        constructor
        · intro hr
          rcases hr with hf | ⟨b, (hb | hb) | hb, hbit⟩
          · exact .inl hf
          · exact .inr ⟨b, .inr (.inl hb), hbit⟩
          · exact .inr ⟨b, .inl hb, hbit⟩
          · exact .inr ⟨b, .inr (.inr hb), hbit⟩
        · intro hr
          rcases hr with hf | ⟨b, hb | hb | hb, hbit⟩
          · exact .inl hf
          · exact .inr ⟨b, .inl (.inr hb), hbit⟩
          · exact .inr ⟨b, .inl (.inl hb), hbit⟩
          · exact .inr ⟨b, .inr hb, hbit⟩
      · have hle2 : c'.found ≤ u.2.found := hle'
        have hle1 : c.found ≤ c'.found := hle
        have hrest := hord (by show u.2.found = c'.found; omega)
        have hentries := hiff.mp (by show c'.found = c.found; omega)
        refine ⟨hrest.ends, ?_⟩
        intro n hr
        rcases hr with _ | ⟨_, hn⟩
        · exact hentries
        · exact hrest.inside n hn
      · have hhead := hsame (ho.inside h (.head _))
        rw [hback ⟨ho.ends, fun n hn => ho.inside n (.tail _ hn)⟩]
        exact hhead
    · intro hf _
      exact absurd ((hq k).symm.trans hf) (by decide)

end Walk

/-- What the map calls free is claimed; a problem is counted for a block claimed before. -/
theorem p7WalkFree_spec (fb : Buf) (todo off : Nat) (t : Mnt) (c : Chk) :
    Post (p7WalkFree fb todo off (t, c)) (fun _ u => u.1 = t ∧ c.found ≤ u.2.found ∧
      (∀ i, getBit u.2.bmap i = true ↔ getBit c.bmap i = true ∨ off ≤ i ∧ i < off + todo ∧ getBit fb i = true) ∧
      (u.2.found = c.found ↔ ∀ i, off ≤ i → i < off + todo → getBit fb i = true → getBit c.bmap i = false) ∧
      (u.2.found = c.found → u.2.errors = c.errors)) (fun _ _ => False) := by
  induction todo generalizing off c with
  | zero =>
    refine ⟨rfl, Nat.le_refl _, ?_, ?_, fun _ => rfl⟩
    · intro i
      simp only [Nat.add_zero]
      exact ⟨.inl, fun h => h.resolve_right (by omega)⟩
    · exact ⟨fun _ i h1 h2 => absurd h2 (by omega), fun _ => rfl⟩
  | succ todo ih =>
    refine post_bind (post_onlyIf
      (fun hfree => post_getChk (post_modChk (post_ite (fun hset => ?_) fun hclr => ?_))) fun hnot => ?_)
    · -- used and free
      refine (ih (off + 1) _).mono ?_ fun _ _ h => h
      intro _ u hr
      obtain ⟨ht, hle, hbits, -, -⟩ := hr
      have hlt : c.found < u.2.found := Nat.lt_of_lt_of_le (Nat.lt_succ_self _) hle
      refine ⟨ht, Nat.le_of_lt hlt, fun i => ?_, ⟨fun h => absurd h (by omega), fun h => ?_⟩,
        fun h => absurd h (by omega)⟩
      · rw [hbits i]
        show getBit c.bmap i = true ∨ _ ↔ _
        constructor
        · intro hr
          rcases hr with h | ⟨h1, h2, h3⟩
          · exact .inl h
          · exact .inr ⟨by omega, by omega, h3⟩
        · intro hr
          rcases hr with h | ⟨h1, h2, h3⟩
          · exact .inl h
          · rcases Nat.eq_or_lt_of_le h1 with rfl | hlt'
            · exact .inl hset
            · exact .inr ⟨hlt', by omega, h3⟩
      · have := h off (Nat.le_refl off) (by omega) hfree
        rw [hset] at this
        cases this
    · refine (ih (off + 1) _).mono ?_ fun _ _ h => h
      intro _ u hr
      obtain ⟨ht, hle, hbits, hiff, herr⟩ := hr
      refine ⟨ht, hle, ?_, ?_, herr⟩
      · intro i
        rw [hbits i]
        show getBit (putBit c.bmap off true) i = true ∨ _ ↔ _
        rw [getBit_putBit]
        by_cases hi : i = off
        · subst hi
          rw [if_pos rfl]
          exact ⟨fun _ => .inr ⟨Nat.le_refl _, by omega, hfree⟩, fun _ => .inl rfl⟩
        · rw [if_neg hi]
          constructor
          · intro hr
            rcases hr with h | ⟨h1, h2, h3⟩
            · exact .inl h
            · exact .inr ⟨by omega, by omega, h3⟩
          · intro hr
            rcases hr with h | ⟨h1, h2, h3⟩
            · exact .inl h
            · exact .inr ⟨by omega, by omega, h3⟩
      · show u.2.found = c.found ↔ _
        rw [hiff]
        show (∀ i, off + 1 ≤ i → i < off + 1 + todo → getBit fb i = true →
          getBit (putBit c.bmap off true) i = false) ↔ _
        constructor
        · intro h i h1 h2 h3
          rcases Nat.eq_or_lt_of_le h1 with rfl | hlt
          · exact Bool.eq_false_iff.mpr hclr
          · have := h i hlt (by omega) h3
            rwa [getBit_putBit, if_neg (by omega)] at this
        · intro h i h1 h2 h3
          rw [getBit_putBit, if_neg (by omega)]
          exact h i (by omega) (by omega) h3
    · refine (ih (off + 1) c).mono ?_ fun _ _ h => h
      intro _ u hr
      obtain ⟨ht, hle, hbits, hiff, herr⟩ := hr
      refine ⟨ht, hle, ?_, ?_, herr⟩
      · intro i
        rw [hbits i]
        constructor
        · intro hr
          rcases hr with h | ⟨h1, h2, h3⟩
          · exact .inl h
          · exact .inr ⟨by omega, by omega, h3⟩
        · intro hr
          rcases hr with h | ⟨h1, h2, h3⟩
          · exact .inl h
          · rcases Nat.eq_or_lt_of_le h1 with rfl | hlt
            · exact absurd h3 hnot
            · exact .inr ⟨hlt, by omega, h3⟩
      · rw [hiff]
        constructor
        · intro h i h1 h2 h3
          rcases Nat.eq_or_lt_of_le h1 with rfl | hlt
          · exact absurd h3 hnot
          · exact h i hlt (by omega) h3
        · exact fun h i h1 h2 h3 => h i (by omega) (by omega) h3

/-! ## A clean report -/

theorem p7NodeMap_keeps {R : Mnt × Chk → Mnt × Chk → Prop} (tail : TailLaw R) (fl : Nat → Nat)
    (inside : Nat → Bool) (n : Nat)
    (freeb : Buf) : Keeps R (p7NodeMap fl inside n freeb) := by
  have law := tail.toLaw
  induction n with
  | zero => exact keeps_pure law
  | succ n ih =>
    refine keeps_bind law ih fun fb => keeps_ite (keeps_pure law) (keeps_ite (keeps_pure law) ?_)
    exact keeps_bind law tail.err fun _ => keeps_pure law

theorem p7FreeMap_keeps {R : Mnt × Chk → Mnt × Chk → Prop} (tail : TailLaw R) (guard head : Nat) (freeb : Buf) :
    Keeps R (p7FreeMap guard head freeb) := by
  have law := tail.toLaw
  induction guard generalizing head freeb with
  | zero => exact keeps_pure law
  | succ guard ih =>
    refine keeps_ite (keeps_pure law) (keeps_bind law (tail.eng _) fun r => ?_)
    cases r with
    | error e => exact keeps_bind law tail.err fun _ => keeps_pure law
    | ok fl => exact keeps_bind law (p7NodeMap_keeps tail _ _ _ _) fun _ => ih _ _

theorem p7WalkFree_counted (freeb : Buf) (todo off : Nat) : Keeps Counted (p7WalkFree freeb todo off) := by
  induction todo generalizing off with
  | zero => exact keeps_pure counted_law
  | succ todo ih =>
    refine keeps_bind counted_law (keeps_onlyIf counted_law ?_) fun _ => ih _
    refine keeps_bind counted_law getChk_counted fun c => ?_
    refine keeps_bind counted_law (modChk_counted fun _ => ⟨rfl, rfl⟩) fun _ => ?_
    exact keeps_ite (modErr_counted fun _ => ⟨rfl, rfl⟩) (modChk_counted fun _ => ⟨rfl, rfl⟩)

section Clean

variable {s : Mnt} (hm : Mounted7 s)

include hm

theorem readInode_size7 (n k : Nat) :
    Post (readInode n { s with ios := k }) (fun ip _ => ip.size < 2 ^ 19) (fun _ _ => True) := by
  have hm' : Mounted7 { s with ios := k } := hm.of_sameVol ⟨rfl, rfl, rfl⟩
  rw [hm'.readInode_eq]
  refine post_ite (fun _ => trivial) fun _ => ?_
  refine post_bind (post_failAs (hm'.post_readWords (fun _ _ => ?_) (fun _ _ => trivial) fun _ _ => trivial))
  have hsize : (p7DecodeInode n fun i => wordsOf s.fs s.img (p7Itod n) (p7Itoo n + i)).size < 2 ^ 19 := by
    have := wordsOf_lt s.fs s.img (p7Itod n) (p7Itoo n + 10)
    show wordsOf s.fs s.img (p7Itod n) (p7Itoo n + 10) * 2 < 2 ^ 19
    omega
  refine post_ite (fun _ => ?_) fun _ => hsize
  refine post_bind (post_inside ((post_true _).mono (fun lastw t _ => ?_) fun _ _ _ => hsize))
  show Post ((pure (if lastw % 512 = 0 then _ else _) : M Inode) t.1) _ _
  split
  · exact Nat.lt_of_le_of_lt (Nat.sub_le _ _) hsize
  · exact hsize

theorem countDirs_adds7 {N : Nat} (hN : 2 ^ 19 + 4 ≤ N) (maxino : Nat) (state : Nat → InState)
    (todo ino : Nat) (ecount : Nat → Nat)
    (k : Nat) (c : Chk) : Post (countDirs maxino state todo ino ecount ({ s with ios := k }, c))
      (fun _ t => (∃ k', t.1 = { s with ios := k' }) ∧ t.2.found ≤ c.found + todo * N) (fun _ _ => True) := by
  induction todo generalizing ino ecount k c with
  | zero => exact ⟨⟨k, rfl⟩, Nat.le_add_right _ _⟩
  | succ todo ih =>
    refine post_engFs (post_bind (post_outside (post_attempt ?_)))
    refine ((readInode_size7 hm ino k).and (readInode_peeks ino _)).mono ?_ ?_
    · intro ip t hr
      obtain ⟨hsize, ht⟩ := hr
      obtain ⟨k', -, rfl⟩ := ht hm.solo
      apply post_ite
      · intro _
        have hcount := (countEntries_adds s.fs.desc maxino state ip (ip.size + 4) {} ecount
          ({ s with ios := k' }, c)).and
          (countEntries_peeks s.fs.desc maxino state ip (ip.size + 4) {} ecount ({ s with ios := k' }, c))
        refine post_bind (hcount.mono ?_ fun _ _ _ => trivial)
        intro ecount' r hr
        obtain ⟨t, c'⟩ := r
        obtain ⟨hadd, ht⟩ := hr
        obtain ⟨k'', -, hk⟩ := ht hm.solo
        have hk' : t = { s with ios := k'' } := hk
        subst hk'
        refine (ih (ino + 1) ecount' k'' c').mono ?_ fun _ _ h => h
        intro _ u hr
        obtain ⟨hu, hle⟩ := hr
        have hadd' : c'.found ≤ c.found + (ip.size + 4) := hadd
        exact ⟨hu, by rw [Nat.succ_mul]; omega⟩
      · intro _
        refine (ih (ino + 1) ecount k' c).mono ?_ fun _ _ h => h
        intro _ u hr
        obtain ⟨hu, hle⟩ := hr
        exact ⟨hu, by rw [Nat.succ_mul]; omega⟩
    · intro e t hr
      obtain ⟨-, ht⟩ := hr
      obtain ⟨k', -, rfl⟩ := ht hm.solo
      refine (ih (ino + 1) ecount k' c).mono ?_ fun _ _ h => h
      intro _ u hr
      obtain ⟨hu, hle⟩ := hr
      exact ⟨hu, by rw [Nat.succ_mul]; omega⟩

/-- The report after the first pass. -/
def marks7 (s : Mnt) : Chk := passInodes s.fs s.img (inImage s) (fun n => inImage s (p7Itod n)) p7Maxino 1 {}

omit hm in
theorem walkFree_pdp7 {t : Mnt × Chk} (h : t.1.fs.desc.ops = .pdp7) :
    walkFree t = (p7FreeMap p7Nblocks t.1.fs.freelist zeroBuf >>= fun fb =>
      p7WalkFree fb (p7Kdata - p7Datastart) 0) t := by
  unfold walkFree
  rw [bindEngFs_run]
  rw [h]

omit hm in
theorem mapBytes_pdp7 {fs : Fs} (h : fs.desc.ops = .pdp7) : mapBytes fs ≠ 0 := by
  unfold mapBytes opsDataEnd opsDataStart
  rw [h]
  show (p7Kdata - p7Datastart + 7) % 2 ^ 32 / 8 ≠ 0
  decide

/-- A clean report on a PDP-7 volume: the first pass met no problem, and the nodes of the
    list are in order and name nothing the pass had marked. -/
theorem filsysCheckCommon_spec7 (hq : ∀ k, s.env.fails k = false) {ns : List Nat}
    (hseg : Seg (WordsIn s) (wordsOf s.fs s.img) s.fs.freelist ns) (hlen : ns.length < p7Nblocks) :
    Post (filsysCheckCommon (s, {})) (fun clean _ => clean = true → (marks7 s).found = 0 ∧
      Orderly (wordsOf s.fs s.img) s.fs.freelist ns ∧
      ∀ b ∈ listed (wordsOf s.fs s.img) ns, inside7 b = true →
      getBit (marks7 s).bmap (b - p7Datastart) = false) (fun _ _ => True) := by
  have hstart : opsDataStart s.fs = p7Datastart := by
    unfold opsDataStart
    rw [hm.pdp7]
  have hend : opsDataEnd s.fs = p7Kdata := by
    unfold opsDataEnd
    rw [hm.pdp7]
  have hmax : opsMaxino s.fs = p7Maxino := by
    unfold opsMaxino
    rw [hm.pdp7]
  have hgeo : opsDataStart s.fs < opsDataEnd s.fs := by
    rw [hstart, hend]
    decide
  refine post_engFs (post_ite (fun h => absurd h (Nat.not_le.mpr hgeo)) fun _ => ?_)
  have hpass := runs_markInodes (reads_mounted7 hm) hgeo (opsMaxino s.fs) 1 (fun _ => .unalloc)
    (Nat.le_refl 1) (by omega) s.ios {}
  refine post_bind ((hpass.and (markInodes_keeps counted_pass _ _ _ _)).mono ?_ fun _ _ _ => trivial)
  intro state r hr
  obtain ⟨t₁, c₁⟩ := r
  obtain ⟨⟨k₁, -, rfl, hc₁'⟩, hc₁⟩ := hr
  have hmarks : c₁ = marks7 s := by
    unfold marks7
    rw [← hmax]
    exact hc₁' fun k _ _ => hq k
  refine post_getChk (post_ite (fun _ => trivial) fun _ => ?_)
  refine post_ite (fun _ h => by cases h) fun _ => post_bind ?_
  rw [walkFree_pdp7 hm.pdp7]
  have hwalk := (p7FreeMap_spec hm hq hseg p7Nblocks hlen zeroBuf k₁ c₁).and
    ((p7FreeMap_keeps counted_tail p7Nblocks s.fs.freelist zeroBuf ({ s with ios := k₁ }, c₁)).and
      (p7FreeMap_adds p7Nblocks s.fs.freelist zeroBuf ({ s with ios := k₁ }, c₁)))
  refine post_bind (hwalk.mono ?_ fun _ _ _ => trivial)
  intro fb r hr
  obtain ⟨t₂, c₂⟩ := r
  obtain ⟨⟨⟨k₂, rfl⟩, hb₂, hset, hle₂, hord, -⟩, hc₂, ha₂⟩ := hr
  have hclaim := (p7WalkFree_spec fb (p7Kdata - p7Datastart) 0 { s with ios := k₂ } c₂).and
    ((p7WalkFree_counted fb (p7Kdata - p7Datastart) 0 ({ s with ios := k₂ }, c₂)).and
      (p7WalkFree_adds fb (p7Kdata - p7Datastart) 0 ({ s with ios := k₂ }, c₂)))
  refine (hclaim.mono ?_ fun _ _ _ => trivial)
  intro _ r hr
  obtain ⟨t₃, c₃⟩ := r
  obtain ⟨⟨ht₃, hle₃, -, hfree, -⟩, hc₃, ha₃⟩ := hr
  have ht₃' : t₃ = { s with ios := k₂ } := ht₃
  subst ht₃'
  have hmiss := (countMissing_counted (opsDataEnd s.fs - opsDataStart s.fs) 0 ({ s with ios := k₂ }, c₃)).and
    (countMissing_adds (opsDataEnd s.fs - opsDataStart s.fs) 0 ({ s with ios := k₂ }, c₃))
  have hmissing := countMissing_eq (opsDataEnd s.fs - opsDataStart s.fs) 0 { s with ios := k₂ } c₃
  rw [hmissing] at hmiss
  obtain ⟨hc₄, ha₄⟩ := hmiss
  rw [bind_eq_of_ok hmissing]
  generalize missed c₃ _ = c₄ at hc₄ ha₄ ⊢
  have htot : checkTotals (opsMaxino s.fs) ({ s with ios := k₂ }, c₄) = .ok () ({ s with ios := k₂ }, c₄) := by
    show (if s.fs.desc.alloc = .freelist ∧ !s.fs.desc.sbCodec ∧ !s.fs.desc.isizeCount ∧
      (!s.fs.desc.pack4 ∨ s.fs.desc.magic ≠ 0) then _
      else pure () : MC Unit) _ = _
    rw [if_neg]
    · rfl
    · obtain ⟨bo, wc, h⟩ := hm.format
      rw [h]
      exact fun h => nomatch (show AllocOps.pdp7 = .freelist from h.1)
  rw [bind_eq_of_ok htot]
  have hdirs := (countDirs_keeps counted_tail (opsMaxino s.fs) state (opsMaxino s.fs) 1 (fun _ => 0)
    ({ s with ios := k₂ }, c₄)).and
    (countDirs_adds7 hm (Nat.le_refl (2 ^ 19 + 4)) (opsMaxino s.fs) state (opsMaxino s.fs) 1 (fun _ => 0) k₂ c₄)
  refine post_bind (hdirs.mono ?_ fun _ _ _ => trivial)
  intro ecount r hr
  obtain ⟨t₅, c₅⟩ := r
  obtain ⟨hc₅, -, ha₅⟩ := hr
  have hcmp := (compareCounts_keeps counted_tail state ecount (opsMaxino s.fs) 1 (t₅, c₅)).and
    (compareCounts_adds state ecount (opsMaxino s.fs) 1 (t₅, c₅))
  refine post_bind (hcmp.mono ?_ fun _ _ _ => trivial)
  intro _ r hr hclean
  obtain ⟨t₆, c₆⟩ := r
  obtain ⟨hc₆, ha₆⟩ := hr
  have herr : c₆.errors = 0 := of_decide_eq_true hclean
  have hcount := counted_law.trans hc₁ <| counted_law.trans hc₂ <| counted_law.trans hc₃ <|
    counted_law.trans hc₄ <| counted_law.trans hc₅ hc₆
  have hmod : c₆.errors = c₆.found % 2 ^ 32 := hcount.errors rfl
  -- the passes cannot meet 2^32 problems on 3549 inodes and 8000 blocks
  have hn₁ : c₁.found ≤ 0 + p7Maxino * 462 := by
    rw [hmarks]
    exact passInodes_adds (fun n => passInode_adds7 hm.format n) p7Maxino 1 {}
  have hn₂ : c₂.found ≤ c₁.found + (p7Nblocks * 9 + 1) := ha₂
  have hn₃ : c₃.found ≤ c₂.found + (p7Kdata - p7Datastart) := ha₃
  have hn₄ : c₄.found ≤ c₃.found + (opsDataEnd s.fs - opsDataStart s.fs) := ha₄
  have hn₅ : c₅.found ≤ c₄.found + opsMaxino s.fs * (2 ^ 19 + 4) := ha₅
  have hn₆ : c₆.found ≤ c₅.found + opsMaxino s.fs := ha₆
  have hl₂ : c₁.found ≤ c₂.found := hle₂
  have hl₃ : c₂.found ≤ c₃.found := hle₃
  have hl₄ : c₃.found ≤ c₆.found := (counted_law.trans hc₄ (counted_law.trans hc₅ hc₆)).found_le
  have hzero : c₆.found = 0 := by
    rw [hend, hstart] at hn₄
    rw [hmax] at hn₅ hn₆
    unfold p7Maxino p7Nblocks p7Kdata p7Datastart at *
    omega
  refine ⟨by rw [← hmarks]; omega, hord (by show c₂.found = c₁.found; omega), fun b hb hin => ?_⟩
  have hclr := hfree.mp (by show c₃.found = c₂.found; omega) (b - p7Datastart) (Nat.zero_le _) ?_ ?_
  · rw [← hmarks, ← hb₂]
    exact hclr
  · unfold inside7 at hin
    simp only [Bool.and_eq_true, decide_eq_true_eq] at hin
    omega
  · exact (hset _).mpr (.inr ⟨b, hb, hin, rfl⟩)

end Clean

/-! ## Handing blocks out after a clean report -/

/-- The references a PDP-7 image makes. -/
def refs7 (s : Mnt) : List Ref := inodesAt s.fs s.img (inImage s) (fun n => inImage s (p7Itod n)) p7Maxino 1

/-- However often it is called, `p7fs_balloc` returns different blocks of the data area
    that no inode in use names. -/
def SafeBlocks (s : Mnt) : Prop :=
  ∀ k, (ballocs7 k s).Nodup ∧ ∀ b ∈ ballocs7 k s, p7Datastart ≤ b ∧ b < p7Kdata ∧ ∀ r ∈ refs7 s, r.blk ≠ b

/-- A 0 report on `s` makes the block allocator safe. -/
def CleanMeansSafe (s : Mnt) : Prop := ∀ t, filsysCheckCommon (s, {}) = .ok true t → SafeBlocks t.1

/-- The list is a chain of nodes in the data area that names no block twice. -/
def WellListed (s : Mnt) : Prop :=
  ∃ ns, Seg (WordsIn s) (wordsOf s.fs s.img) s.fs.freelist ns ∧
  Distinct (WordsIn s) (listed (wordsOf s.fs s.img) ns) ∧
    ∀ n ∈ ns, inside7 n = true

theorem inside7_iff {b : Nat} : inside7 b = true ↔ p7Datastart ≤ b ∧ b < p7Kdata := by
  unfold inside7
  rw [Bool.and_eq_true, decide_eq_true_eq, decide_eq_true_eq]

theorem sublist_listed (w : Words) (ns : List Nat) : ns.Sublist (listed w ns) := by
  induction ns with
  | nil => exact List.Sublist.refl _
  | cons n ns ih =>
    rw [listed_cons]
    exact (List.Sublist.cons_cons n ih).trans (List.sublist_append_right _ _)

section Safe

variable {s : Mnt} (hm : Mounted7 s) (hq : ∀ k, s.env.fails k = false)

include hm

omit hm in
/-- A list whose blocks are all different runs out before the walk's guard does. -/
theorem wellListed_length {ns : List Nat} (hseg : Seg (WordsIn s) (wordsOf s.fs s.img) s.fs.freelist ns)
    (hd : Distinct (WordsIn s) (listed (wordsOf s.fs s.img) ns)) (hin : ∀ n ∈ ns, inside7 n = true) :
    ns.length < p7Nblocks := by
  have hsub : ns.Sublist ((listed (wordsOf s.fs s.img) ns).filter fun b => decide (WordsIn s b)) := by
    have hkeep : ns.filter (fun b => decide (WordsIn s b)) = ns := by
      rw [List.filter_eq_self]
      exact fun n hn => decide_eq_true (hseg.mem n hn).2
    have hfilter := (sublist_listed (wordsOf s.fs s.img) ns).filter fun b => decide (WordsIn s b)
    rwa [hkeep] at hfilter
  have hle : ns.length ≤ p7Kdata := nodup_length_le (hsub.nodup hd) fun n hn => (inside7_iff.mp (hin n hn)).2
  exact Nat.lt_of_le_of_lt hle (by decide)

/-- With no problem met every reference is marked. -/
theorem marks7_refs (hzero : (marks7 s).found = 0) : ∀ r ∈ refs7 s, Marked s.fs (marks7 s) r.blk := by
  have hclean := @passInodes_clean s.fs s.img (inImage s) (fun n => inImage s (p7Itod n)) p7Maxino 1 {}
  have hknown := hclean.2.2 hzero
  have hmeets := @passInodes_tidy s.fs s.img (inImage s) (fun n => inImage s (p7Itod n)) p7Maxino 1 {}
    fun m h1 h2 _ => (hknown m h1 h2).2
  intro r hr
  obtain ⟨hlegal, hmarked⟩ := hmeets.clean hzero r hr
  refine hmarked (hlegal.resolve_right fun hrec => hrec.1 ?_)
  obtain ⟨bo, wc, h⟩ := hm.format
  rw [h]
  rfl

include hq

theorem safeBlocks_of_wellListed {ns : List Nat} (hseg : Seg (WordsIn s) (wordsOf s.fs s.img) s.fs.freelist ns)
    (hd : Distinct (WordsIn s) (listed (wordsOf s.fs s.img) ns)) (hin : ∀ n ∈ ns, inside7 n = true)
    (hzero : (marks7 s).found = 0)
    (hord : Orderly (wordsOf s.fs s.img) s.fs.freelist ns)
    (hfree : ∀ b ∈ listed (wordsOf s.fs s.img) ns, inside7 b = true →
      getBit (marks7 s).bmap (b - p7Datastart) = false) :
    SafeBlocks s := by
  intro k
  have htakes := takes_of_seg hseg hd
  rw [ballocs7_eq hm hq (holds7_self s) k, htakes.takesN]
  have hsub : (((listed (wordsOf s.fs s.img) ns).take k).filter fun b => decide (WordsIn s b)).Sublist
      ((listed (wordsOf s.fs s.img) ns).filter fun b => decide (WordsIn s b)) :=
        (List.take_sublist _ _).filter _
  refine ⟨hsub.nodup hd, fun b hb => ?_⟩
  have hmem : b ∈ listed (wordsOf s.fs s.img) ns := (List.mem_filter.mp (hsub.subset hb)).1
  have hinside : inside7 b = true := by
    obtain ⟨n, hn, hbn⟩ := List.mem_flatMap.mp hmem
    rcases List.mem_append.mp hbn with hentry | hself
    · exact hord.inside n hn b hentry
    · rw [List.mem_singleton.mp hself]
      exact hin n hn
  obtain ⟨hlo, hhi⟩ := inside7_iff.mp hinside
  refine ⟨hlo, hhi, fun r hr heq => ?_⟩
  have hset := marks7_refs hm hzero r hr
  unfold Marked opsDataStart at hset
  rw [hm.pdp7, heq] at hset
  rw [hfree b hmem hinside] at hset
  cases hset

theorem wellListed_of_safeBlocks (h : SafeBlocks s) : WellListed s := by
  have hruns : ∀ k, ((takesN (WordsIn s) k (wordsOf s.fs s.img) s.fs.freelist).filter fun b =>
    decide (WordsIn s b)) = ballocs7 k s :=
    fun k => (ballocs7_eq hm hq (holds7_self s) k).symm
  obtain ⟨bs, hbs⟩ := @takes_run_out (WordsIn s) _ p7Kdata (wordsOf s.fs s.img) s.fs.freelist []
    (fun k => by rw [List.append_nil, hruns]; exact (h k).1)
    (fun k b hb => by rw [List.append_nil, hruns] at hb; exact ((h k).2 b hb).2.1)
  have hall : bs.filter (fun b => decide (WordsIn s b)) = ballocs7 bs.length s := by
    rw [← hruns, hbs.takesN, List.take_length]
  have hdist : Distinct (WordsIn s) bs := by
    unfold Distinct
    rw [hall]
    exact (h _).1
  obtain ⟨ns, hseg, hlist⟩ := seg_of_takes hbs hdist
  refine ⟨ns, hseg, hlist ▸ hdist, fun n hn => ?_⟩
  have hmem : n ∈ ballocs7 bs.length s := by
    rw [← hall, List.mem_filter]
    exact ⟨hlist ▸ mem_listed_of_mem hn, decide_eq_true (hseg.mem n hn).2⟩
  obtain ⟨hlo, hhi, -⟩ := (h _).2 n hmem
  exact inside7_iff.mpr ⟨hlo, hhi⟩

end Safe

/-- The check leaves the mount as it was, transfers counted. -/
theorem check_leaves {s : Mnt} (hs : Solo s) {clean : Bool} {t : Mnt × Chk}
    (ht : filsysCheckCommon (s, {}) = .ok clean t) :
    ∃ k, t.1 = { s with ios := k } :=
  (((filsysCheckCommon_peeks (s, {})).of_ok ht) hs).imp fun _ h => h.2

/-- After a clean report the allocator is safe exactly when the list it works from names no
    block twice and keeps its nodes in the data area. -/
theorem clean_nodes_iff {s : Mnt} (hm : Mounted7 s) (hq : ∀ k, s.env.fails k = false) :
    CleanMeansSafe s ↔ ∀ t, filsysCheckCommon (s, {}) = .ok true t → WellListed s := by
  constructor
  · intro h t ht
    obtain ⟨k, hk⟩ := check_leaves hm.solo ht
    have hsafe := h t ht
    rw [hk] at hsafe
    have hm' : Mounted7 { s with ios := k } := hm.of_sameVol ⟨rfl, rfl, rfl⟩
    have hwell : WellListed { s with ios := k } := wellListed_of_safeBlocks hm' hq hsafe
    exact hwell
  · intro h t ht
    obtain ⟨k, hk⟩ := check_leaves hm.solo ht
    obtain ⟨ns, hseg, hd, hin⟩ := h t ht
    obtain ⟨hzero, hord, hfree⟩ :=
      (filsysCheckCommon_spec7 hm hq hseg (wellListed_length hseg hd hin)).of_ok ht rfl
    have hm' : Mounted7 { s with ios := k } := hm.of_sameVol ⟨rfl, rfl, rfl⟩
    rw [hk]
    exact safeBlocks_of_wellListed hm' hq hseg hd hin hzero hord hfree

/-! ## A block listed twice -/

section Empty

variable {s : Mnt} (hm : Mounted7 s) (hq : ∀ k, s.env.fails k = false)

include hm hq

/-- With every inode free the first pass finds nothing. -/
theorem markInodes_free (hin : ∀ n, 1 ≤ n → n ≤ p7Maxino →
    WordsIn s (p7Itod n) ∧ has (wordsOf s.fs s.img (p7Itod n) (p7Itoo n)) 0o400000 = false)
    (todo n : Nat) (state : Nat → InState) (hst : ∀ i, state i = .unalloc) (h1 : 1 ≤ n)
    (htop : n + todo ≤ p7Maxino + 1) (k : Nat) (c : Chk) :
    Post (markInodes todo n state ({ s with ios := k }, c))
      (fun st t => (∃ k', t.1 = { s with ios := k' }) ∧ t.2 = c ∧ ∀ i, st i = .unalloc) (fun _ _ => False) := by
  induction todo generalizing n state k c with
  | zero => exact ⟨⟨k, rfl⟩, rfl, hst⟩
  | succ todo ih =>
    obtain ⟨hwords, hfree⟩ := hin n h1 (by omega)
    have hmax : n ≤ opsMaxino s.fs := by
      unfold opsMaxino
      rw [hm.pdp7]
      show n ≤ p7Maxino
      omega
    refine post_engFs (post_bind (post_outside (post_attempt ?_)))
    refine (((reads_mounted7 hm).inode n k h1 hmax).and (readInode_peeks n _)).mono ?_ ?_
    · intro ip t hr
      obtain ⟨⟨-, hmode, -⟩, ht⟩ := hr
      obtain ⟨k', -, rfl⟩ := ht hm.solo
      have hstate : inodeState s.fs.desc n ip.mode = .unalloc := by
        rw [hmode, recAt_words hm.pdp7]
        unfold inodeState
        rw [hm.pdp7]
        show (if !has (wordsOf s.fs s.img (p7Itod n) (p7Itoo n + 0)) 0o400000 then InState.unalloc else _) = _
        rw [Nat.add_zero, hfree]
        rfl
      show Post ((markInode (inodeState s.fs.desc n ip.mode) n ip >>= _ : MC _) _) _ _
      rw [hstate]
      refine post_bind (post_ite (fun _ => ?_) fun h => absurd rfl h)
      refine ih (n + 1) _ (fun i => ?_) (by omega) (by omega) k' c
      split
      · rfl
      · exact hst i
    · intro e t hr
      obtain ⟨hrd, ht⟩ := hr
      obtain ⟨k', -, rfl⟩ := ht hm.solo
      have hno := hrd fun j _ _ => hq j
      exact absurd hwords (of_decide_eq_false hno)

omit hq in
theorem countDirs_free {state : Nat → InState} (hst : ∀ i, state i = .unalloc) (maxino todo n : Nat)
    (ecount : Nat → Nat) (k : Nat) (c : Chk) :
    Post (countDirs maxino state todo n ecount ({ s with ios := k }, c))
      (fun e t => e = ecount ∧ (∃ k', t.1 = { s with ios := k' }) ∧ t.2 = c) (fun _ _ => False) := by
  induction todo generalizing n k with
  | zero => exact ⟨rfl, ⟨k, rfl⟩, rfl⟩
  | succ todo ih =>
    refine post_engFs (post_bind (post_outside (post_attempt ?_)))
    refine (readInode_peeks n _).mono ?_ ?_
    · intro ip t ht
      obtain ⟨k', -, rfl⟩ := ht hm.solo
      refine post_ite (fun h => ?_) fun _ => ih (n + 1) k'
      rw [hst n] at h
      cases h
    · intro e t ht
      obtain ⟨k', -, rfl⟩ := ht hm.solo
      exact ih (n + 1) k'

omit hq in
theorem compareCounts_free {state : Nat → InState} (hst : ∀ i, state i = .unalloc)
    (todo n : Nat) (k : Nat) (c : Chk) :
    Post (compareCounts state (fun _ => 0) todo n ({ s with ios := k }, c))
    (fun _ t => t.2 = c) (fun _ _ => False) := by
  induction todo generalizing n k with
  | zero => exact rfl
  | succ todo ih =>
    refine post_bind (post_outside (post_attempt ?_))
    refine (readInode_peeks n _).mono ?_ ?_
    · intro ip t ht
      obtain ⟨k', -, rfl⟩ := ht hm.solo
      show Post ((compareCount (state n) 0 n ip >>= _ : MC _) _) _ _
      rw [hst n]
      refine post_bind (post_engFs (post_ite (fun h => absurd rfl h.1) fun _ =>
        post_ite (fun _ => ih (n + 1) k') fun _ => ?_))
      exact post_ite (fun _ => ih (n + 1) k') fun h => absurd ⟨rfl, rfl⟩ h
    · intro e t ht
      obtain ⟨k', -, rfl⟩ := ht hm.solo
      exact ih (n + 1) k'

/-- A volume with no inode in use whose list names every data block checks clean. -/
theorem clean_of_all_listed
    (hin : ∀ n, 1 ≤ n → n ≤ p7Maxino →
      WordsIn s (p7Itod n) ∧ has (wordsOf s.fs s.img (p7Itod n) (p7Itoo n)) 0o400000 = false)
    {ns : List Nat} (hseg : Seg (WordsIn s) (wordsOf s.fs s.img) s.fs.freelist ns)
    (hlen : ns.length < p7Nblocks)
    (hord : Orderly (wordsOf s.fs s.img) s.fs.freelist ns)
    (hall : ∀ b, inside7 b = true → b ∈ listed (wordsOf s.fs s.img) ns) :
    ∃ t, filsysCheckCommon (s, {}) = .ok true t := by
  have hstart : opsDataStart s.fs = p7Datastart := by
    unfold opsDataStart
    rw [hm.pdp7]
  have hend : opsDataEnd s.fs = p7Kdata := by
    unfold opsDataEnd
    rw [hm.pdp7]
  have hmax : opsMaxino s.fs = p7Maxino := by
    unfold opsMaxino
    rw [hm.pdp7]
  have hrun : Post (filsysCheckCommon (s, {})) (fun clean _ => clean = true) (fun _ _ => False) := by
    apply post_engFs
    show Post ((if opsDataEnd s.fs ≤ opsDataStart s.fs then modChk Chk.err >>= fun _ => pure false
      else markInodes (opsMaxino s.fs) 1 (fun _ => .unalloc) >>= _ : MC Bool) _) _ _
    rw [hend, hstart, hmax]
    refine post_ite (fun h => absurd h (by decide)) fun _ => ?_
    refine post_bind ((markInodes_free hm hq hin p7Maxino 1 _ (fun _ => rfl) (Nat.le_refl 1)
      (by omega) s.ios {}).mono ?_ fun _ _ h => h)
    intro state r hres
    obtain ⟨t₁, c₁⟩ := r
    obtain ⟨⟨k₁, rfl⟩, rfl, hst⟩ := hres
    refine post_getChk (post_ite (fun h => ?_) fun _ => ?_)
    · rw [mapOverrun_of_map (mapBytes_pdp7 hm.pdp7)] at h
      cases h
    refine post_ite (fun h => absurd h (Nat.not_lt_zero 10)) fun _ => post_bind ?_
    rw [walkFree_pdp7 hm.pdp7]
    refine post_bind ((p7FreeMap_spec hm hq hseg p7Nblocks hlen zeroBuf k₁ {}).mono ?_ fun _ _ h => h)
    intro fb r hres
    obtain ⟨t₂, c₂⟩ := r
    obtain ⟨⟨k₂, rfl⟩, -, hset, -, -, hsame⟩ := hres
    obtain rfl : c₂ = {} := hsame hord
    refine ((p7WalkFree_spec fb (p7Kdata - p7Datastart) 0 { s with ios := k₂ } {}).mono ?_ fun _ _ h => h)
    intro _ r hres
    obtain ⟨t₃, c₃⟩ := r
    obtain ⟨ht₃, -, hbits, hfree, herr⟩ := hres
    obtain rfl : t₃ = { s with ios := k₂ } := ht₃
    have hfound := hfree.mpr fun i _ _ _ => getBit_zeroBuf i
    have hfull : ∀ i, 0 ≤ i → i < 0 + (p7Kdata - p7Datastart) → getBit c₃.bmap i = true := by
      intro i _ hi
      have hinside : inside7 (i + p7Datastart) = true := inside7_iff.mpr (by omega)
      refine (hbits i).mpr (.inr ⟨Nat.zero_le i, hi,
        (hset i).mpr (.inr ⟨_, hall _ hinside, hinside, Nat.add_sub_cancel i _⟩)⟩)
    have hnone := countMissing_eq (p7Kdata - p7Datastart) 0 { s with ios := k₂ } c₃
    rw [clears_eq_zero.mpr hfull, missed] at hnone
    rw [bind_eq_of_ok hnone]
    have htot : checkTotals p7Maxino ({ s with ios := k₂ }, c₃) = .ok () ({ s with ios := k₂ }, c₃) := by
      show (if s.fs.desc.alloc = .freelist ∧ !s.fs.desc.sbCodec ∧ !s.fs.desc.isizeCount ∧
        (!s.fs.desc.pack4 ∨ s.fs.desc.magic ≠ 0) then _
        else pure () : MC Unit) _ = _
      rw [if_neg]
      · rfl
      · obtain ⟨bo, wc, h⟩ := hm.format
        rw [h]
        exact fun h => nomatch (show AllocOps.pdp7 = .freelist from h.1)
    rw [bind_eq_of_ok htot]
    refine post_bind ((countDirs_free hm hst p7Maxino p7Maxino 1 (fun _ => 0) k₂ c₃).mono ?_ fun _ _ h => h)
    intro e r hres
    obtain ⟨t₅, c₅⟩ := r
    obtain ⟨rfl, ⟨k₅, rfl⟩, rfl⟩ := hres
    refine post_bind ((compareCounts_free hm hst p7Maxino 1 k₅ c₅).mono ?_ fun _ _ h => h)
    intro _ r heq
    obtain ⟨t₆, c₆⟩ := r
    subst heq
    exact decide_eq_true (herr hfound)
  cases hr : filsysCheckCommon (s, {}) with
  | ok clean t =>
    obtain rfl : clean = true := hrun.of_ok hr
    exact ⟨t, rfl⟩
  | error e t => exact (hrun.of_error hr).elim

end Empty

/-- The free list of an empty volume: node 712 names 713 to 719 and block 713 a second
    time, and every tenth block from 720 on is a node naming the nine that follow. -/
def doubledWords : Words := fun b i =>
  if b = 0 then if i = 0 then 712 else 0
  else if b = 712 then if i = 0 then 720 else if i < 8 then 712 + i else if i = 8 then 713 else 0
  else if 720 ≤ b ∧ b < p7Kdata ∧ b % 10 = 0 then
    if i = 0 then if b = 6390 then 0 else b + 10 else if i < 10 then b + i else 0
  else 0

def doubledImage : Buf := fun i => WordCodec.rb09.putAll (doubledWords (i / 256)) 64 zeroBuf (i % 256)

/-- A PDP-7 mount of that volume. -/
def doubled : Mnt where
  fs := { desc := descPdp7, imgsize := p7Kdata * 256, freelist := 712 }
  img := doubledImage
  size := p7Kdata * 256

theorem doubled_mounted : Mounted7 doubled where
  solo _ _ := rfl
  format := ⟨.me, some .rb09, rfl⟩
  writable := rfl
  imgsize := rfl
  room := by decide

theorem doubledWords_lt (b i : Nat) : doubledWords b i < 2 ^ 18 := by
  unfold doubledWords p7Kdata
  split
  · split <;> omega
  · split
    · split
      · omega
      · split
        · omega
        · split <;> omega
    · split
      · split
        · split <;> omega
        · split <;> omega
      · omega

theorem doubled_word {b i : Nat} (hi : i < 64) : wordsOf doubled.fs doubled.img b i = doubledWords b i := by
  have hraw := WordCodec.rb09.get_congr hi (p := window doubledImage (0 + b * 256) 256)
    (q := WordCodec.rb09.putAll (doubledWords b) 64 zeroBuf) (by
      intro k hk
      have hk' : k < 256 := hk
      rw [window_inside hk', Nat.zero_add]
      unfold doubledImage
      rw [show (b * 256 + k) / 256 = b by omega, show (b * 256 + k) % 256 = k by omega])
  show WordCodec.rb09.get (window doubledImage (0 + b * 256) 256) i = _
  rw [hraw, WordCodec.get_putAll, if_pos hi]
  exact Nat.mod_eq_of_lt (doubledWords_lt b i)

theorem doubled_words : wordsOf doubled.fs doubled.img = doubledWords := by
  funext b i
  by_cases hi : i < 64
  · exact doubled_word hi
  · have hzero : doubledWords b i = 0 := by
      unfold doubledWords
      split
      · exact if_neg (by omega)
      · split
        · rw [if_neg (by omega), if_neg (by omega), if_neg (by omega)]
        · split
          · rw [if_neg (by omega), if_neg (by omega)]
          · rfl
    rw [hzero]
    show word18 (num ByteOrder.le.sig32 (window doubledImage (0 + b * 256) 256) (4 * i)) = 0
    rw [@num_congr _ zeroBuf ByteOrder.le.sig32 (4 * i) 0 fun k _ => if_neg (by omega)]
    rfl

theorem doubled_in {b : Nat} (h : b < p7Kdata) : WordsIn doubled b := by
  show 0 + b * 256 + 256 ≤ p7Kdata * 256
  unfold p7Kdata at *
  omega

/-- Nodes `720 + 10 * j` for the last `todo` values of `j`. -/
def tens : Nat → List Nat
  | 0 => []
  | todo + 1 => (720 + 10 * (567 - todo)) :: tens todo

theorem tens_seg (todo : Nat) (h : todo ≤ 568) :
    Seg (WordsIn doubled) doubledWords (if todo = 0 then 0 else 720 + 10 * (568 - todo)) (tens todo) := by
  induction todo with
  | zero => exact .stop (.inl rfl)
  | succ todo ih =>
    rw [if_neg (Nat.succ_ne_zero todo), tens, show 568 - (todo + 1) = 567 - todo by omega]
    refine .node (by omega) (doubled_in (by unfold p7Kdata; omega)) ?_
    have hnext : doubledWords (720 + 10 * (567 - todo)) 0 = if todo = 0 then 0
      else 720 + 10 * (568 - todo) := by
      unfold doubledWords p7Kdata
      rw [if_neg (by omega), if_neg (by omega), if_pos (by omega), if_pos rfl]
      by_cases ht : todo = 0
      · rw [if_pos (by omega), if_pos ht]
      · rw [if_neg (by omega), if_neg ht]
        omega
    rw [hnext]
    exact ih (by omega)

theorem length_tens (todo : Nat) : (tens todo).length = todo := by
  induction todo with
  | zero => rfl
  | succ todo ih => rw [tens, List.length_cons, ih]

theorem mem_tens {todo n : Nat} (h : todo ≤ 568) : n ∈ tens todo ↔ ∃ j, 568 - todo ≤ j ∧
    j < 568 ∧ n = 720 + 10 * j := by
  induction todo with
  | zero =>
    simp only [tens, List.not_mem_nil, false_iff, not_exists]
    intro j
    omega
  | succ todo ih =>
    rw [tens, List.mem_cons, ih (by omega)]
    constructor
    · intro hr
      rcases hr with rfl | ⟨j, h1, h2, rfl⟩
      · exact ⟨567 - todo, by omega, by omega, rfl⟩
      · exact ⟨j, by omega, h2, rfl⟩
    · intro hr
      obtain ⟨j, h1, h2, rfl⟩ := hr
      by_cases hj : j = 567 - todo
      · exact .inl (by rw [hj])
      · exact .inr ⟨j, by omega, h2, rfl⟩

theorem endOf_tens (todo : Nat) (h : todo ≤ 568) :
    endOf doubledWords (if todo = 0 then 0 else 720 + 10 * (568 - todo)) (tens todo) = 0 := by
  induction todo with
  | zero => rfl
  | succ todo ih =>
    rw [if_neg (Nat.succ_ne_zero todo), tens, endOf]
    have hnext : doubledWords (720 + 10 * (568 - (todo + 1))) 0 = if todo = 0 then 0
      else 720 + 10 * (568 - todo) := by
      unfold doubledWords p7Kdata
      rw [if_neg (by omega), if_neg (by omega), if_pos (by omega), if_pos rfl]
      by_cases ht : todo = 0
      · rw [if_pos (by omega), if_pos ht]
      · rw [if_neg (by omega), if_neg ht]
        omega
    rw [hnext]
    exact ih (by omega)

theorem doubled_seg : Seg (WordsIn doubled) (wordsOf doubled.fs doubled.img) doubled.fs.freelist
    (712 :: tens 568) := by
  rw [doubled_words]
  have htail := tens_seg 568 (Nat.le_refl 568)
  exact .node (by decide) (doubled_in (by decide)) htail

theorem doubled_orderly : Orderly (wordsOf doubled.fs doubled.img) doubled.fs.freelist (712 :: tens 568) := by
  rw [doubled_words]
  have hends := endOf_tens 568 (Nat.le_refl 568)
  rw [if_neg (by decide)] at hends
  refine ⟨by rw [endOf]; exact hends, ?_⟩
  intro n hn b hb
  obtain ⟨hb0, i, h1, h9, rfl⟩ := mem_entriesBelow.mp hb
  rw [inside7_iff]
  rcases List.mem_cons.mp hn with rfl | hn
  · show 712 ≤ doubledWords 712 i ∧ doubledWords 712 i < 6400
    revert hb0
    unfold doubledWords
    rw [if_neg (by decide), if_pos rfl, if_neg (by omega)]
    split
    · omega
    · split
      · omega
      · exact fun h => absurd rfl h
  · obtain ⟨j, -, hj, rfl⟩ := (mem_tens (Nat.le_refl 568)).mp hn
    have hentry : doubledWords (720 + 10 * j) i = 720 + 10 * j + i := by
      unfold doubledWords p7Kdata
      rw [if_neg (by omega), if_neg (by omega), if_pos (by omega), if_neg (by omega), if_pos (by omega)]
    rw [hentry]
    unfold p7Datastart p7Kdata
    omega

theorem doubled_lists_all (b : Nat) (h : inside7 b = true) :
    b ∈ listed (wordsOf doubled.fs doubled.img) (712 :: tens 568) := by
  rw [doubled_words]
  obtain ⟨hlo, hhi⟩ := inside7_iff.mp h
  unfold p7Datastart at hlo
  unfold p7Kdata at hhi
  apply List.mem_flatMap.mpr
  by_cases hfirst : b < 720
  · refine ⟨712, .head _, ?_⟩
    by_cases hself : b = 712
    · exact List.mem_append_right _ (by rw [hself]; exact .head _)
    · refine List.mem_append_left _ (mem_entriesBelow.mpr ⟨by omega, b - 712, by omega, by omega, ?_⟩)
      unfold doubledWords
      rw [if_neg (by decide), if_pos rfl, if_neg (by omega), if_pos (by omega)]
      omega
  · refine ⟨720 + 10 * ((b - 720) / 10),
      .tail _ ((mem_tens (Nat.le_refl 568)).mpr ⟨_, Nat.zero_le _, by omega, rfl⟩), ?_⟩
    by_cases hself : (b - 720) % 10 = 0
    · refine List.mem_append_right _ (List.mem_singleton.mpr ?_)
      omega
    · refine List.mem_append_left _ (mem_entriesBelow.mpr ⟨by omega, (b - 720) % 10, by omega, by omega, ?_⟩)
      unfold doubledWords p7Kdata
      rw [if_neg (by omega), if_neg (by omega), if_pos (by omega), if_neg (by omega), if_pos (by omega)]
      omega

theorem doubled_clean : ∃ t, filsysCheckCommon (doubled, {}) = .ok true t := by
  refine clean_of_all_listed doubled_mounted (fun _ => rfl) ?_ doubled_seg ?_ doubled_orderly doubled_lists_all
  · intro n h1 hn
    have hblock : p7Itod n < p7Kdata ∧ doubledWords (p7Itod n) (p7Itoo n) = 0 := by
      unfold p7Maxino at hn
      unfold p7Itod doubledWords p7Kdata
      refine ⟨by omega, ?_⟩
      rw [if_neg (by omega), if_neg (by omega), if_neg (by omega)]
    refine ⟨doubled_in hblock.1, ?_⟩
    rw [doubled_words, hblock.2]
    rfl
  · rw [List.length_cons, length_tens]
    decide

theorem doubled_takes (k : Nat) :
    ballocs7 8 { doubled with ios := k } = [713, 719, 718, 717, 716, 715, 714, 713] := by
  have hm : Mounted7 { doubled with ios := k } := doubled_mounted.of_sameVol ⟨rfl, rfl, rfl⟩
  have hholds : Holds7 { doubled with ios := k } doubledWords 712 := ⟨rfl, fun b _ i hi => doubled_word hi⟩
  rw [ballocs7_eq hm (fun _ => rfl) hholds 8]
  show (takesN (WordsIn doubled) 8 doubledWords 712).filter (fun b => decide (WordsIn doubled b)) = _
  decide +kernel

/-- The list that names block 713 twice checks clean, and 713 is handed out twice. -/
theorem a_clean_pdp7_volume_gives_a_block_twice :
    ∃ t, filsysCheckCommon (doubled, {}) = .ok true t ∧ ¬ (ballocs7 8 t.1).Nodup := by
  obtain ⟨t, ht⟩ := doubled_clean
  obtain ⟨k, hk⟩ := check_leaves doubled_mounted.solo ht
  refine ⟨t, ht, ?_⟩
  rw [hk, doubled_takes]
  decide

/-- The list in question is none the allocator could work from safely. -/
theorem the_doubled_list_is_not_well_listed :
    ¬ ∀ t, filsysCheckCommon (doubled, {}) = .ok true t → WellListed doubled := by
  intro h
  obtain ⟨t, ht⟩ := doubled_clean
  obtain ⟨k, hk⟩ := check_leaves doubled_mounted.solo ht
  have hnodup := ((clean_nodes_iff doubled_mounted fun _ => rfl).mpr h t ht 8).1
  rw [hk, doubled_takes] at hnodup
  exact absurd hnodup (by decide)

end Filsys.Check
