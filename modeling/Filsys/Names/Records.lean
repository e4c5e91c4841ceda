/-
  Filsys.Names.Records — the two parsers of a 2.11BSD directory (dir_bsd211.c).

  A directory is a run of records of their own lengths, none across a 512-byte chunk.
  `dir_lookup`, `dir_add` and `dir_remove` walk the whole file record by record and stop at
  the first that is not legal (`records`); `dir_iter` reads chunk by chunk and goes on to the
  next chunk when no header fits in what is left of one (`listed`). So they stop alike but
  for one layout: four bytes left at the end of a chunk. The first parser sees a header there
  and refuses it, the second sees none and goes on (`listed_eq`).
-/

import Filsys.Names.Finite
import Mathlib.Data.List.Find

namespace Filsys.Names

open Filsys.Lib Filsys.Engine Filsys.Alloc Filsys.Tree

/-! ## Legal records -/

/-- What `bsd211_iter_next` accepts. -/
structure Legal (d : Desc) (f : Buf) (n : Nat) (r : BsdRec) : Prop where
  ino : r.ino = d.bo.get16 f r.off
  reclen : r.reclen = d.bo.get16 f (r.off + 2)
  namlen : r.namlen = d.bo.get16 f (r.off + 4)
  aligned : r.off % 4 = 0
  least : 8 ≤ r.reclen
  whole : r.reclen % 4 = 0
  inside : r.off + r.reclen ≤ n
  name : r.namlen + 7 ≤ r.reclen
  short : r.namlen ≤ d.maxNamlen
  chunk : r.off % 512 + r.reclen ≤ 512

/-- The entry of a record. -/
def entryOfRec (f : Buf) (r : BsdRec) : Dirent := (r.ino, bytesAt f (r.off + 6) r.namlen)

/-- The entries of the records in use. -/
def live (f : Buf) (L : List BsdRec) : List Dirent := (L.filter fun r => r.ino != 0).map (entryOfRec f)

section Next

variable {d : Desc} {f : Buf} {n off : Nat} {r : BsdRec}

theorem bsd211Next_eq_some : bsd211Next d f n off = some r ↔ Legal d f n r ∧ r.off = off := by
  unfold bsd211Next
  constructor
  · intro h
    split at h
    · cases h
    rename_i h1
    simp only at h
    split at h
    · cases h
    rename_i h2
    split at h
    · cases h
    rename_i h3
    split at h
    · cases h
    rename_i h4
    cases h
    exact ⟨⟨rfl, rfl, rfl, by simp only; omega, by simp only; omega, by simp only; omega,
      by simp only; omega, by simp only; omega,
      by simp only; omega, by simp only; omega⟩, rfl⟩
  · intro ⟨h, ho⟩
    subst ho
    obtain ⟨h1, h2, h3, h4, h5, h6, h7, h8, h9, h10⟩ := h
    rw [if_neg (by omega)]
    simp only
    rw [← h1, ← h2, ← h3, if_neg (by omega), if_neg (by omega), if_neg (by omega)]

theorem Legal.next (h : Legal d f n r) : bsd211Next d f n r.off = some r := bsd211Next_eq_some.mpr ⟨h, rfl⟩

theorem legal_of_next (h : bsd211Next d f n off = some r) : Legal d f n r := (bsd211Next_eq_some.mp h).1

theorem off_of_next (h : bsd211Next d f n off = some r) : r.off = off := (bsd211Next_eq_some.mp h).2

/-- A header is six bytes, and the length it gives the record is all that depends on the end. -/
theorem Legal.congr {f' : Buf} {n' : Nat} (h : Legal d f n r)
    (hf : ∀ i, r.off ≤ i → i < r.off + 6 → f' i = f i) (hn : r.off + r.reclen ≤ n') :
    Legal d f' n' r := by
  have hget : ∀ o, r.off ≤ o → o + 2 ≤ r.off + 6 → d.bo.get16 f' o = d.bo.get16 f o := by
    intro o h1 h2
    refine num_congr _ fun i hi => hf _ ?_ ?_
    · omega
    · rw [ByteOrder.length_sig16] at hi
      omega
  refine ⟨?_, ?_, ?_, h.aligned, h.least, h.whole, hn, h.name, h.short, h.chunk⟩
  · rw [hget _ (Nat.le_refl _) (by omega)]
    exact h.ino
  · rw [hget _ (by omega) (by omega)]
    exact h.reclen
  · rw [hget _ (by omega) (by omega)]
    exact h.namlen

theorem bsd211Next_congr {f' : Buf} (h : ∀ i, i < n → f' i = f i) :
    bsd211Next d f' n off = bsd211Next d f n off := by
  have hkeep : ∀ {g g' : Buf}, (∀ i, i < n → g' i = g i) → ∀ r, bsd211Next d g n off = some r →
    bsd211Next d g' n off = some r := by
    intro g g' hg r hr
    obtain ⟨hl, ho⟩ := bsd211Next_eq_some.mp hr
    have h1 := hl.inside
    have h2 := hl.least
    exact bsd211Next_eq_some.mpr ⟨hl.congr (fun i _ hi => hg i (by omega)) h1, ho⟩
  cases hr : bsd211Next d f n off with
  | some r => exact hkeep h r hr
  | none =>
    cases hr' : bsd211Next d f' n off with
    | none => rfl
    | some r =>
      rw [hkeep (fun i hi => (h i hi).symm) r hr'] at hr
      cases hr

theorem bsd211Next_end (h : n ≤ off) : bsd211Next d f n off = none := by
  unfold bsd211Next
  exact if_pos (.inr (by omega))

/-- Four bytes before a chunk's end no record is legal. -/
theorem bsd211Next_gap (h : off % 512 = 508) : bsd211Next d f n off = none := by
  cases hr : bsd211Next d f n off with
  | none => rfl
  | some r =>
    obtain ⟨hl, ho⟩ := bsd211Next_eq_some.mp hr
    have h1 := hl.least
    have h2 := hl.chunk
    rw [ho] at h2
    omega

end Next

/-! ## Walks -/

/-- The records from `off` on, up to the first that is not legal; with `gaps`, four bytes at the end of
    a chunk are passed over. -/
def recWalk (d : Desc) (f : Buf) (n : Nat) (gaps : Bool) : Nat → Nat → List BsdRec
  | 0, _ => []
  | fuel + 1, off =>
    match bsd211Next d f n off with
    | none => if gaps = true ∧ off % 512 = 508 then recWalk d f n gaps fuel (off + 4) else []
    | some r => r :: recWalk d f n gaps fuel (off + r.reclen)

/-- The records `while (bsd211_iter_next(&it))` goes over. -/
def records (d : Desc) (f : Buf) (n off : Nat) : List BsdRec := recWalk d f n false (n + 1) off

/-- The records `dir_iter` goes over. -/
def listed (d : Desc) (f : Buf) (n off : Nat) : List BsdRec := recWalk d f n true (n + 1) off

/-- Legal records lead from `a` to `b`. -/
inductive Tiles (d : Desc) (f : Buf) (n : Nat) : Nat → List BsdRec → Nat → Prop
  | nil (a : Nat) : Tiles d f n a [] a
  | cons {a b : Nat} {r : BsdRec} {L : List BsdRec} :
    bsd211Next d f n a = some r → Tiles d f n (a + r.reclen) L b → Tiles d f n a (r :: L) b

section Walk

variable {d : Desc} {f : Buf} {n : Nat} {gaps : Bool}

theorem recWalk_succ (fuel off : Nat) : recWalk d f n gaps (fuel + 1) off = match bsd211Next d f n off with
    | none => if gaps = true ∧ off % 512 = 508 then recWalk d f n gaps fuel (off + 4) else []
    | some r => r :: recWalk d f n gaps fuel (off + r.reclen) := rfl

theorem recWalk_end (fuel : Nat) : ∀ {off : Nat}, n ≤ off → recWalk d f n gaps fuel off = [] := by
  induction fuel with
  | zero => exact fun _ => rfl
  | succ fuel ih =>
    intro off h
    rw [recWalk_succ, bsd211Next_end h]
    by_cases hg : gaps = true ∧ off % 512 = 508
    · exact (if_pos hg).trans (ih (by omega))
    · exact if_neg hg

/-- Fuel for every byte is enough. -/
theorem recWalk_fuel {fuel fuel' : Nat} : ∀ {off : Nat}, n ≤ fuel + off → n ≤ fuel' + off →
    recWalk d f n gaps fuel off = recWalk d f n gaps fuel' off := by
  induction fuel generalizing fuel' with
  | zero =>
    intro off h _
    exact (recWalk_end fuel' (by omega)).symm
  | succ fuel ih =>
    intro off h h'
    cases fuel' with
    | zero => exact recWalk_end _ (by omega)
    | succ fuel' =>
      rw [recWalk_succ, recWalk_succ]
      cases hr : bsd211Next d f n off with
      | none =>
        have hgo := @ih fuel' (off + 4) (by omega) (by omega)
        simp only [hgo]
      | some r =>
        have := (legal_of_next hr).least
        exact congrArg (r :: ·) (ih (by omega) (by omega))

theorem recWalk_length (fuel : Nat) : ∀ off, (recWalk d f n gaps fuel off).length ≤ n - off := by
  induction fuel with
  | zero => exact fun _ => Nat.zero_le _
  | succ fuel ih =>
    intro off
    rw [recWalk_succ]
    cases hr : bsd211Next d f n off with
    | none =>
      by_cases hg : gaps = true ∧ off % 512 = 508
      · simp only [if_pos hg]
        exact Nat.le_trans (ih (off + 4)) (by omega)
      · simp only [if_neg hg]
        exact Nat.zero_le _
    | some r =>
      have hl := legal_of_next hr
      have h1 := hl.least
      have h2 := hl.inside
      rw [off_of_next hr] at h2
      have h3 := ih (off + r.reclen)
      rw [List.length_cons]
      omega

/-- A walk looks at no byte past the end. -/
theorem recWalk_congr {f' : Buf} (h : ∀ i, i < n → f' i = f i) (fuel : Nat) :
    ∀ off, recWalk d f' n gaps fuel off = recWalk d f n gaps fuel off := by
  induction fuel with
  | zero => exact fun _ => rfl
  | succ fuel ih =>
    intro off
    rw [recWalk_succ, recWalk_succ, bsd211Next_congr h]
    simp only [ih]

theorem legal_of_mem (fuel : Nat) : ∀ {off : Nat} {r : BsdRec}, r ∈ recWalk d f n gaps fuel off →
    Legal d f n r := by
  induction fuel with
  | zero => exact fun h => absurd h List.not_mem_nil
  | succ fuel ih =>
    intro off r hr
    rw [recWalk_succ] at hr
    cases hnext : bsd211Next d f n off with
    | none =>
      rw [hnext] at hr
      by_cases hg : gaps = true ∧ off % 512 = 508
      · simp only [if_pos hg] at hr
        exact ih hr
      · simp only [if_neg hg] at hr
        exact absurd hr List.not_mem_nil
    | some r' =>
      rw [hnext] at hr
      rcases List.mem_cons.mp hr with rfl | hr
      · exact legal_of_next hnext
      · exact ih hr

theorem records_congr {f' : Buf} (h : ∀ i, i < n → f' i = f i) (off : Nat) :
    records d f' n off = records d f n off := recWalk_congr h (n + 1) off

theorem records_nil {off : Nat} (h : bsd211Next d f n off = none) : records d f n off = [] := by
  unfold records
  rw [recWalk_succ, h]
  rfl

theorem records_cons {off : Nat} {r : BsdRec} (h : bsd211Next d f n off = some r) :
    records d f n off = r :: records d f n (off + r.reclen) := by
  unfold records
  rw [recWalk_succ, h]
  exact congrArg (r :: ·) (recWalk_fuel (by omega) (by omega))

theorem listed_nil {off : Nat} (h : bsd211Next d f n off = none) :
    listed d f n off = if off % 512 = 508 then listed d f n (off + 4) else [] := by
  unfold listed
  rw [recWalk_succ, h]
  simp only [true_and]
  by_cases hg : off % 512 = 508
  · rw [if_pos hg, if_pos hg]
    exact recWalk_fuel (by omega) (by omega)
  · rw [if_neg hg, if_neg hg]

theorem listed_cons {off : Nat} {r : BsdRec} (h : bsd211Next d f n off = some r) :
    listed d f n off = r :: listed d f n (off + r.reclen) := by
  unfold listed
  rw [recWalk_succ, h]
  exact congrArg (r :: ·) (recWalk_fuel (by omega) (by omega))

theorem listed_end {off : Nat} (h : n ≤ off) : listed d f n off = [] := recWalk_end _ h

/-- The first record a walk stops for. -/
theorem bsd211Find_eq (p : BsdRec → Bool) (fuel : Nat) :
    ∀ off, bsd211Find d f n p fuel off = (recWalk d f n false fuel off).find? p := by
  induction fuel with
  | zero => exact fun _ => rfl
  | succ fuel ih =>
    intro off
    rw [recWalk_succ]
    unfold bsd211Find
    cases bsd211Next d f n off with
    | none => rfl
    | some r =>
      show (if p r then some r else bsd211Find d f n p fuel (off + r.reclen)) =
        (r :: recWalk d f n false fuel (off + r.reclen)).find? p
      rw [ih]
      by_cases h : p r = true <;> simp [h]

theorem bsd211Find_records (p : BsdRec → Bool) :
    bsd211Find d f n p (n + 1) 0 = (records d f n 0).find? p := bsd211Find_eq p (n + 1) 0

namespace Tiles

variable {a b c : Nat} {L L' : List BsdRec}

theorem append (h : Tiles d f n a L b) (h' : Tiles d f n b L' c) : Tiles d f n a (L ++ L') c := by
  induction h with
  | nil a => exact h'
  | cons hr _ ih => exact .cons hr (ih h')

theorem records_eq (h : Tiles d f n a L b) : records d f n a = L ++ records d f n b := by
  induction h with
  | nil a => rfl
  | cons hr _ ih => rw [records_cons hr, ih, List.cons_append]

theorem listed_eq (h : Tiles d f n a L b) : listed d f n a = L ++ listed d f n b := by
  induction h with
  | nil a => rfl
  | cons hr _ ih => rw [listed_cons hr, ih, List.cons_append]

/-- A walk stops at one place. -/
theorem stop_unique (h : Tiles d f n a L b) (hb : bsd211Next d f n b = none) (h' : Tiles d f n a L' c)
    (hc : bsd211Next d f n c = none) : b = c := by
  induction h generalizing L' with
  | nil a =>
    cases h' with
    | nil => rfl
    | cons hr _ =>
      rw [hb] at hr
      cases hr
  | cons hr _ ih =>
    cases h' with
    | nil =>
      rw [hc] at hr
      cases hr
    | cons hr' h' =>
      rw [hr] at hr'
      cases hr'
      exact ih hb h'

end Tiles

/-- The records tile what they cover. -/
theorem records_tiles (off : Nat) : ∃ b, Tiles d f n off (records d f n off) b ∧ bsd211Next d f n b = none := by
  have hgo : ∀ k off, n ≤ k + off → ∃ b, Tiles d f n off (records d f n off) b ∧ bsd211Next d f n b = none := by
    intro k
    induction k with
    | zero =>
      intro off h
      have hend := bsd211Next_end (d := d) (f := f) (show n ≤ off by omega)
      exact ⟨off, by rw [records_nil hend]; exact .nil off, hend⟩
    | succ k ih =>
      intro off h
      cases hr : bsd211Next d f n off with
      | none => exact ⟨off, by rw [records_nil hr]; exact .nil off, hr⟩
      | some r =>
        have := (legal_of_next hr).least
        obtain ⟨b, hb, hstop⟩ := ih (off + r.reclen) (by omega)
        rw [records_cons hr]
        exact ⟨b, .cons hr hb, hstop⟩
  exact hgo n off (by omega)

end Walk

theorem live_append (f : Buf) (A B : List BsdRec) : live f (A ++ B) = live f A ++ live f B := by
  unfold live
  rw [List.filter_append, List.map_append]

theorem live_cons_pos {f : Buf} {r : BsdRec} (h : r.ino ≠ 0) (L : List BsdRec) :
    live f (r :: L) = entryOfRec f r :: live f L := by
  unfold live
  rw [List.filter_cons_of_pos (by simpa using h), List.map_cons]

theorem live_cons_neg {f : Buf} {r : BsdRec} (h : r.ino = 0) (L : List BsdRec) :
    live f (r :: L) = live f L := by
  unfold live
  rw [List.filter_cons_of_neg (by simpa using h)]

theorem live_length {d : Desc} {f : Buf} {n : Nat} : (live f (listed d f n 0)).length ≤ n := by
  unfold live
  rw [List.length_map]
  exact Nat.le_trans (List.length_filter_le ..) (recWalk_length (n + 1) 0)

theorem length_bytesAt (f : Buf) (o k : Nat) : (bytesAt f o k).length = k := by
  unfold bytesAt
  rw [List.length_map, List.length_range]

theorem bytesAt_congr {f f' : Buf} {o k : Nat} (h : ∀ i, i < k → f' (o + i) = f (o + i)) :
    bytesAt f' o k = bytesAt f o k :=
  List.map_congr_left fun i hi => h i (List.mem_range.mp hi)

/-- A legal record's name is inside it. -/
theorem Legal.entry_congr {d : Desc} {f f' : Buf} {n : Nat} {r : BsdRec} (h : Legal d f n r)
    (hf : ∀ i, r.off ≤ i → i < r.off + r.reclen → f' i = f i) :
    entryOfRec f' r = entryOfRec f r := by
  have := h.name
  exact congrArg (r.ino, ·) (bytesAt_congr fun i hi => hf _ (by omega) (by omega))

/-- The test of `dir_lookup` and `dir_remove`. -/
theorem bsd211Named_eq (f : Buf) (name : Name) (r : BsdRec) :
    bsd211Named f name r = (r.ino != 0 && (entryOfRec f r).2 == name) := by
  unfold bsd211Named entryOfRec
  by_cases h : bytesAt f (r.off + 6) r.namlen = name
  · have hlen : r.namlen = name.length := by
      rw [← h, length_bytesAt]
    simp [hlen]
  · rw [show (bytesAt f (r.off + 6) r.namlen == name) = false from beq_eq_false_iff_ne.mpr h]
    simp

theorem lookup_live (f : Buf) (L : List BsdRec) (name : Name) :
    lookup (live f L) name = (L.find? (bsd211Named f name)).map (entryOfRec f) := by
  induction L with
  | nil => rfl
  | cons r L ih =>
    have hnamed := bsd211Named_eq f name r
    by_cases h0 : r.ino = 0
    · rw [live_cons_neg h0, ih, List.find?_cons_of_neg]
      rw [hnamed]
      simp [h0]
    · rw [live_cons_pos h0, lookup_cons]
      by_cases hn : (entryOfRec f r).2 = name
      · rw [if_pos hn, List.find?_cons_of_pos]
        · rfl
        · rw [hnamed]
          simp [h0, hn]
      · rw [if_neg hn, ih, List.find?_cons_of_neg]
        rw [hnamed]
        simp [hn]

/-! ## A chunk -/

section Chunk

variable {d : Desc} {f buf : Buf} {size c got : Nat} (hc : c % 512 = 0)
    (hgot : got = min 512 (size - c)) (hbuf : ∀ i, i < got → buf i = f (c + i))

include hc hgot hbuf

/-- What `dir_iter` makes of the chunk at `c` is what it makes of the file. -/
theorem bsd211Chunk_spec (fuel : Nat) : ∀ rel, rel % 4 = 0 → rel ≤ 512 → got < fuel + rel →
    match bsd211Chunk d buf got fuel rel with
    | none => live f (listed d f size (c + rel)) = []
    | some none => live f (listed d f size (c + rel)) = live f (listed d f size (c + 512))
    | some (some r) =>
      live f (listed d f size (c + rel)) = (r.ino, bytesAt buf (r.off + 6) r.namlen) ::
        live f (listed d f size (c + r.off + r.reclen)) ∧
        (c + r.off + r.reclen) % 4 = 0 ∧ c + rel < c + r.off + r.reclen := by
  induction fuel with
  | zero =>
    intro rel _ h512 h
    show live f (listed d f size (c + rel)) = live f (listed d f size (c + 512))
    rw [listed_end (show size ≤ c + rel by omega), listed_end (show size ≤ c + 512 by omega)]
  | succ fuel ih =>
    intro rel h4 h512 hfuel
    unfold bsd211Chunk
    by_cases hfit : rel + 6 ≤ got
    · have hget : ∀ o, rel ≤ o → o + 2 ≤ rel + 6 → d.bo.get16 buf o = d.bo.get16 f (c + o) := by
        intro o h1 h2
        refine num_congr _ fun i hi => ?_
        rw [ByteOrder.length_sig16] at hi
        rw [hbuf _ (by omega), Nat.add_assoc]
      have hrefuse : bsd211Next d f size (c + rel) = none → live f (listed d f size (c + rel)) = [] := by
        intro hnone
        rw [listed_nil hnone, if_neg (by omega)]
        rfl
      obtain ⟨reclen, hreclen⟩ : ∃ x, x = d.bo.get16 f (c + (rel + 2)) := ⟨_, rfl⟩
      obtain ⟨nlen, hnlen⟩ : ∃ x, x = d.bo.get16 f (c + (rel + 4)) := ⟨_, rfl⟩
      have hlegal : ∀ r, bsd211Next d f size (c + rel) = some r → r.reclen = reclen ∧ r.namlen = nlen ∧
          8 ≤ r.reclen ∧ r.reclen % 4 = 0 ∧ rel + r.reclen ≤ got ∧ r.namlen + 7 ≤ r.reclen ∧
          r.namlen ≤ d.maxNamlen := by
        intro r hr
        obtain ⟨hl, ho⟩ := bsd211Next_eq_some.mp hr
        have h1 := hl.inside
        have h2 := hl.chunk
        have h3 := hl.reclen
        have h4 := hl.namlen
        rw [ho] at h1 h2 h3 h4
        exact ⟨h3.trans hreclen.symm, h4.trans hnlen.symm, hl.least, hl.whole, by omega, hl.name, hl.short⟩
      rw [if_pos hfit]
      simp only
      rw [hget rel (by omega) (by omega), hget (rel + 2) (by omega) (by omega),
        hget (rel + 4) (by omega) (by omega), ← hreclen, ← hnlen]
      by_cases h1 : reclen < 8 ∨ reclen % 4 ≠ 0 ∨ got < rel + reclen
      · rw [if_pos h1]
        apply hrefuse
        cases hr : bsd211Next d f size (c + rel) with
        | none => rfl
        | some r =>
          have := hlegal r hr
          omega
      rw [if_neg h1]
      by_cases h2 : reclen < nlen + 7 ∨ d.maxNamlen < nlen
      · rw [if_pos h2]
        apply hrefuse
        cases hr : bsd211Next d f size (c + rel) with
        | none => rfl
        | some r =>
          have := hlegal r hr
          omega
      rw [if_neg h2]
      -- the record is legal in the file
      have hr : bsd211Next d f size (c + rel) = some ⟨c + rel, d.bo.get16 f (c + rel), reclen, nlen⟩ := by
        refine bsd211Next_eq_some.mpr ⟨⟨rfl, ?_, ?_, ?_, ?_, ?_, ?_, ?_, ?_, ?_⟩, rfl⟩
        · rw [Nat.add_assoc]
          exact hreclen
        · rw [Nat.add_assoc]
          exact hnlen
        all_goals simp only; omega
      rw [listed_cons hr]
      by_cases h0 : d.bo.get16 f (c + rel) = 0
      · rw [if_neg (not_not.mpr h0), live_cons_neg h0]
        have hgo := ih (rel + reclen) (by omega) (by omega) (by omega)
        rw [← Nat.add_assoc c] at hgo
        cases hrun : bsd211Chunk d buf got fuel (rel + reclen) with
        | none =>
          rw [hrun] at hgo
          exact hgo
        | some r =>
          rw [hrun] at hgo
          cases r with
          | none => exact hgo
          | some r => exact ⟨hgo.1, hgo.2.1, Nat.lt_of_le_of_lt (Nat.le_add_right _ _) hgo.2.2⟩
      · rw [if_pos h0, live_cons_pos h0]
        refine ⟨congrArg (· :: _)
          (Prod.ext rfl (List.map_congr_left fun i hi => ?_)), by simp only; omega, by simp only; omega⟩
        have hi' : i < nlen := List.mem_range.mp hi
        show f (c + rel + 6 + i) = buf (rel + 6 + i)
        rw [hbuf _ (by omega)]
        congr 1
        omega
    · rw [if_neg hfit]
      show live f (listed d f size (c + rel)) = live f (listed d f size (c + 512))
      by_cases hend : rel = 512
      · rw [hend]
      have hnone : bsd211Next d f size (c + rel) = none := by
        by_cases hgap : (c + rel) % 512 = 508
        · exact bsd211Next_gap hgap
        · cases hr : bsd211Next d f size (c + rel) with
          | none => rfl
          | some r =>
            obtain ⟨hl, ho⟩ := bsd211Next_eq_some.mp hr
            have h1 := hl.inside
            have h2 := hl.least
            rw [ho] at h1
            omega
      rw [listed_nil hnone]
      by_cases hgap : (c + rel) % 512 = 508
      · rw [if_pos hgap, show c + rel + 4 = c + 512 by omega]
      · rw [if_neg hgap, listed_end (show size ≤ c + 512 by omega)]

end Chunk

/-! ## The iterator -/

/-- The directory `l` describes reads as `f`. -/
def Reads (s : Mnt) (l : Loc) (f : Buf) : Prop :=
  ∀ (n off : Nat) (t : Mnt), Looked s t → Post (filsysFileRead n off (t, l))
    (fun r u => r.1 = min n (l.ip.size - off) ∧ (∀ i, i < r.1 → r.2 i = f (off + i)) ∧ Looked s u.1 ∧ u.2 = l)
    (fun _ u => Fault s ∧ Looked s u.1 ∧ u.2 = l)

/-- A directory of a consistent volume reads as its bytes. -/
theorem reads_of_owned {s : Mnt} {own : Own} {n : Nat} {l : Loc} (h : Owned s own)
    (hv : View s.fs.desc own n l.ip) (hmap : Mappable s.fs l.ip.size) :
    Reads s l (byteOf s.fs s.img l.ip) := by
  intro k off t ht
  have hread := post_filsysFileRead (ht.owned h) (l := l) (by rw [ht.fs]; exact hv)
    (by rw [ht.fs]; exact hmap) k off
  refine hread.mono (fun r u hr => ⟨hr.1, fun i hi => ?_, looked_law.trans ht hr.2.2.1, hr.2.2.2⟩)
    fun e u hu => ⟨ht.fault hu.1, looked_law.trans ht hu.2.1, hu.2.2⟩
  rw [hr.2.1 i hi]
  exact looked_byteOf ht _ _

/-- The iterator stands at `off`, and the chunk it holds is the directory's. -/
structure BsdAt (f : Buf) (size : Nat) (st : Iter) (off : Nat) : Prop where
  next : st.nextOff = off
  aligned : off % 4 = 0
  chunk : st.bufN ≠ 0 → st.bufN = min 512 (size - st.bufOff)
  bytes : ∀ i, i < st.bufN → st.buf i = f (st.bufOff + i)

section Iter

variable {s : Mnt} {l : Loc} {f : Buf} (hread : Reads s l f)

include hread

theorem post_bsdLoad {t : Mnt} (ht : Looked s t) {st : Iter} {off : Nat}
    (hst : BsdAt f l.ip.size st off) (c : Nat) :
    Post (iterLoad 512 c st (t, l)) (fun r u => (BsdAt f l.ip.size r off ∧ r.bufOff = c ∧
      r.bufN = min 512 (l.ip.size - c)) ∧ Looked s u.1 ∧ u.2 = l)
      (fun _ u => Fault s ∧ Looked s u.1 ∧ u.2 = l) := by
  show Post ((if st.bufOff ≠ c ∨ st.bufN = 0 then filsysFileRead (min 512 (l.ip.size - c)) c >>= fun r =>
    pure { st with buf := r.2, bufN := r.1, bufOff := c } else pure st : MI Iter) (t, l)) _ _
  apply post_ite
  · intro _
    refine post_bind ((hread _ c t ht).mono ?_ fun _ _ hu => hu)
    intro x u h
    obtain ⟨got, buf⟩ := x
    obtain ⟨hgot, hbytes, hu, hl⟩ := h
    replace hgot : got = min 512 (l.ip.size - c) := by
      simpa using hgot
    exact ⟨⟨⟨hst.next, hst.aligned, fun _ => hgot, hbytes⟩, rfl, hgot⟩, hu, hl⟩
  · intro hin
    obtain ⟨hoff, hne⟩ := not_or.mp hin
    replace hoff := not_not.mp hoff
    refine ⟨⟨hst, hoff, ?_⟩, ht, rfl⟩
    rw [← hoff]
    exact hst.chunk hne

theorem post_bsd211DirIter (fuel : Nat) : ∀ (st : Iter) (off : Nat) {t : Mnt}, Looked s t →
    BsdAt f l.ip.size st off → 0 < fuel →
    l.ip.size < fuel + off →
    Post (bsd211DirIter fuel st (t, l))
      (fun r u => (match r.1 with
        | some e => ∃ off', BsdAt f l.ip.size r.2 off' ∧
            live f (listed s.fs.desc f l.ip.size off) = e :: live f (listed s.fs.desc f l.ip.size off')
        | none => live f (listed s.fs.desc f l.ip.size off) = []) ∧ Looked s u.1 ∧ u.2 = l)
      (fun _ u => Fault s ∧ Looked s u.1 ∧ u.2 = l) := by
  induction fuel with
  | zero => exact fun st off t _ _ h0 => absurd h0 (Nat.lt_irrefl 0)
  | succ fuel ih =>
    intro st off t ht hst _ hfuel
    have hnext := hst.next
    unfold bsd211DirIter
    rw [bindUpFs_run, bindIp_run]
    rw [ht.fs, hnext]
    refine post_ite (fun hend => ⟨?_, ht, rfl⟩) ?_
    · show live f (listed s.fs.desc f l.ip.size off) = []
      rw [listed_end hend]
      rfl
    · intro hlt
      refine post_bind ((post_bsdLoad hread ht hst (off / 512 * 512)).mono ?_ fun _ _ hu => hu)
      intro r x h
      obtain ⟨u, l'⟩ := x
      obtain ⟨⟨hr, hoff, hgot⟩, hu, hl⟩ := h
      obtain rfl : l' = l := hl
      have haligned := hst.aligned
      have hbytes := hr.bytes
      rw [hoff] at hbytes
      have hspec := bsd211Chunk_spec (d := s.fs.desc) (Nat.mul_mod_left (off / 512) 512) hgot hbytes
        (r.bufN + 1) (off - off / 512 * 512) (by omega) (by omega)
        (by omega)
      rw [Nat.add_sub_cancel' (show off / 512 * 512 ≤ off by omega)] at hspec
      rw [hr.next]
      cases hrun : bsd211Chunk s.fs.desc r.buf r.bufN (r.bufN + 1) (off - off / 512 * 512) with
      | none =>
        rw [hrun] at hspec
        exact ⟨hspec, hu, rfl⟩
      | some e =>
        rw [hrun] at hspec
        cases e with
        | some e => exact ⟨⟨_, ⟨rfl, hspec.2.1, hr.chunk, hr.bytes⟩, hspec.1⟩, hu, rfl⟩
        | none =>
          replace hspec : live f (listed s.fs.desc f l'.ip.size off) =
            live f (listed s.fs.desc f l'.ip.size (off / 512 * 512 + 512)) := hspec
          rw [hspec]
          exact ih _ _ hu ⟨rfl, by omega, hr.chunk, hr.bytes⟩ (by omega) (by omega)

variable (hops : s.fs.desc.ops = .bsd211)

include hops

omit hread in
theorem dirIter_bsd211 {t : Mnt} (ht : Looked s t) (st : Iter) :
    dirIter st (t, l) = bsd211DirIter (l.ip.size + 1) st (t, l) := by
  unfold dirIter
  rw [bindUpFs_run, bindIp_run]
  rw [ht.fs, hops]

/-- The entries listed are those of the records the chunks show. -/
theorem post_bsdEntries : Post (dirEntries (l.ip.size + 1) {} (s, l))
    (fun r u => r = live f (listed s.fs.desc f l.ip.size 0) ∧ Looked s u.1 ∧ u.2 = l)
    (fun _ u => Fault s ∧ Looked s u.1 ∧ u.2 = l) := by
  have hstart : BsdAt f l.ip.size {} 0 :=
    ⟨rfl, rfl, fun h0 => absurd rfl h0, fun i hi => absurd hi (Nat.not_lt_zero i)⟩
  refine post_dirEntries (P := fun st L => ∃ off, BsdAt f l.ip.size st off ∧
    L = live f (listed s.fs.desc f l.ip.size off))
    (fun st L t ht hst => ?_) (l.ip.size + 1) {} _ s (looked_law.refl s) ⟨0, hstart, rfl⟩
      (Nat.lt_succ_of_le (live_length ..))
  obtain ⟨off, hoff, rfl⟩ := hst
  rw [dirIter_bsd211 hops ht]
  refine (post_bsd211DirIter hread (l.ip.size + 1) st off ht hoff (Nat.succ_pos _) (by omega)).mono ?_
    fun _ _ he => he
  intro x u h
  obtain ⟨e, st'⟩ := x
  obtain ⟨hr, hu⟩ := h
  cases e with
  | none => exact ⟨hr, hu⟩
  | some e =>
    obtain ⟨off', hoff', hlive⟩ := hr
    exact ⟨⟨_, ⟨off', hoff', rfl⟩, hlive⟩, hu⟩

omit hops in
/-- The whole directory is in hand. -/
theorem post_bsd211Slurp :
    Post (bsd211Slurp (s, l))
    (fun r u => r.1 = l.ip.size ∧ (∀ i, i < l.ip.size → r.2 i = f i) ∧ Looked s u.1 ∧ u.2 = l)
    (fun _ u => Fault s ∧ Looked s u.1 ∧ u.2 = l) := by
  refine (hread l.ip.size 0 s (looked_law.refl s)).mono ?_ fun _ _ he => he
  intro x u h
  obtain ⟨got, buf⟩ := x
  obtain ⟨hgot, hbytes, hu⟩ := h
  replace hgot : got = l.ip.size := by
    simpa using hgot
  refine ⟨hgot, fun i hi => ?_, hu⟩
  have hbyte := hbytes i (by rw [hgot]; exact hi)
  rwa [Nat.zero_add] at hbyte

/-- The scan is of the records in the order they stand. -/
theorem post_bsdLookup (name : Name) : Post (dirLookup name (s, l))
    (fun r u => (∃ e, lookup (live f (records s.fs.desc f l.ip.size 0)) name = some e ∧ e.1 = r) ∧
      Looked s u.1 ∧ u.2 = l)
    (fun e u => (e = .enoent ∧ lookup (live f (records s.fs.desc f l.ip.size 0)) name = none ∨
      Fault s) ∧ Looked s u.1 ∧ u.2 = l) := by
  have hrun : dirLookup name (s, l) = bsd211DirLookup name (s, l) := by
    unfold dirLookup
    rw [bindUpFs_run]
    rw [hops]
  rw [hrun]
  unfold bsd211DirLookup
  rw [bindUpFs_run]
  refine post_bind ((post_bsd211Slurp hread).mono ?_ fun _ _ he => ⟨.inr he.1, he.2⟩)
  intro x u h
  obtain ⟨n, buf⟩ := x
  obtain ⟨hn, hbytes, hu⟩ := h
  obtain rfl : n = l.ip.size := hn
  have hfind : lookup (live f (records s.fs.desc f l.ip.size 0)) name =
      (bsd211Find s.fs.desc buf l.ip.size (bsd211Named buf name) (l.ip.size + 1) 0).map (entryOfRec f) := by
    rw [bsd211Find_records, records_congr hbytes, lookup_live, List.find?_congr fun r hr => ?_]
    have hl : Legal s.fs.desc f l.ip.size r := legal_of_mem _ hr
    have hin := hl.inside
    rw [bsd211Named_eq, bsd211Named_eq, hl.entry_congr fun i _ hi => hbytes i (by omega)]
  rw [hfind]
  dsimp only
  cases bsd211Find s.fs.desc buf l.ip.size (bsd211Named buf name) (l.ip.size + 1) 0 with
  | some r => exact ⟨⟨_, rfl, rfl⟩, hu⟩
  | none => exact ⟨.inl ⟨rfl, rfl⟩, hu⟩

end Iter

/-! ## Agreement -/

/-- A live record stands at or behind `off`, past legal records and gaps of four bytes at the ends of chunks. -/
inductive LiveFrom (d : Desc) (f : Buf) (n : Nat) : Nat → Prop
  | here {off : Nat} {r : BsdRec} : bsd211Next d f n off = some r → r.ino ≠ 0 → LiveFrom d f n off
  | later {off : Nat} {r : BsdRec} : bsd211Next d f n off = some r → LiveFrom d f n (off + r.reclen) →
    LiveFrom d f n off
  | gap {off : Nat} : off % 512 = 508 → LiveFrom d f n (off + 4) → LiveFrom d f n off

/-- The legal records from the start on leave four bytes of a chunk, and a live record stands behind those. -/
def HidesBehindGap (d : Desc) (f : Buf) (n : Nat) : Prop :=
  ∃ L g, Tiles d f n 0 L g ∧ g % 512 = 508 ∧ LiveFrom d f n (g + 4)

section Gap

variable {d : Desc} {f : Buf} {n : Nat}

theorem LiveFrom.lt {off : Nat} (h : LiveFrom d f n off) : off < n := by
  induction h with
  | here hr _ =>
    have hl := legal_of_next hr
    have h1 := hl.inside
    have h2 := hl.least
    rw [off_of_next hr] at h1
    omega
  | later _ _ ih => exact Nat.lt_of_le_of_lt (Nat.le_add_right ..) ih
  | gap _ _ ih => exact Nat.lt_of_le_of_lt (Nat.le_add_right ..) ih

theorem LiveFrom.listed {off : Nat} (h : LiveFrom d f n off) : live f (listed d f n off) ≠ [] := by
  induction h with
  | here hr h0 =>
    rw [listed_cons hr, live_cons_pos h0]
    exact List.cons_ne_nil _ _
  | @later off r hr _ ih =>
    rw [listed_cons hr]
    by_cases h0 : r.ino = 0
    · rw [live_cons_neg h0]
      exact ih
    · rw [live_cons_pos h0]
      exact List.cons_ne_nil _ _
  | gap hg _ ih =>
    rw [listed_nil (bsd211Next_gap hg), if_pos hg]
    exact ih

theorem liveFrom_of_walk (fuel : Nat) :
    ∀ off, live f (recWalk d f n true fuel off) ≠ [] → LiveFrom d f n off := by
  induction fuel with
  | zero => exact fun _ h => absurd rfl h
  | succ fuel ih =>
    intro off h
    rw [recWalk_succ] at h
    cases hr : bsd211Next d f n off with
    | none =>
      rw [hr] at h
      by_cases hg : off % 512 = 508
      · simp only [hg, and_self, if_true] at h
        exact .gap hg (ih _ h)
      · simp only [hg, and_false, if_false] at h
        exact absurd rfl h
    | some r =>
      rw [hr] at h
      by_cases h0 : r.ino = 0
      · simp only [live_cons_neg h0] at h
        exact .later hr (ih _ h)
      · exact .here hr h0

theorem liveFrom_iff {off : Nat} : LiveFrom d f n off ↔ live f (listed d f n off) ≠ [] :=
  ⟨LiveFrom.listed, liveFrom_of_walk (n + 1) off⟩

/-- The chunks show the records of the file and those behind a gap. -/
theorem listed_eq_records_iff : live f (listed d f n 0) = live f (records d f n 0) ↔
    ¬ HidesBehindGap d f n := by
  obtain ⟨b, hb, hstop⟩ := records_tiles (d := d) (f := f) (n := n) 0
  rw [hb.listed_eq, live_append, listed_nil hstop, List.append_right_eq_self]
  constructor
  · intro hnone ⟨L, g, hL, hg, hlive⟩
    obtain rfl : g = b := hL.stop_unique (bsd211Next_gap hg) hb hstop
    rw [if_pos hg] at hnone
    exact hlive.listed hnone
  · intro h
    by_cases hg : b % 512 = 508
    · rw [if_pos hg]
      by_contra hne
      exact h ⟨_, b, hb, hg, liveFrom_iff.mpr hne⟩
    · rw [if_neg hg]
      rfl

end Gap

/-- What `dir_iter` lists is what the scan of `dir_lookup` goes over, and a name that can be asked for
    is listed when it resolves. -/
def Agree (s : Mnt) (l : Loc) (f : Buf) : Prop :=
  ∃ L u, dirEntries (l.ip.size + 1) {} (s, l) = .ok L u ∧ L = live f (records s.fs.desc f l.ip.size 0) ∧
    ∀ name, 0 ∉ name → ((∃ ino, (ino, name) ∈ L) ↔ ∃ ino v, dirLookup name (s, l) = .ok ino v)

section Quiet

variable {s : Mnt} {l : Loc} {f : Buf} (hops : s.fs.desc.ops = .bsd211) (hread : Reads s l f) (hq : ¬ Fault s)

include hops hread hq

/-- Without a failed transfer a name resolves to what its first live record says. -/
theorem dirLookup_iff {name : Name} {ino : Nat} : (∃ v, dirLookup name (s, l) = .ok ino v) ↔
    ∃ e, lookup (live f (records s.fs.desc f l.ip.size 0)) name = some e ∧ e.1 = ino := by
  have hlookup := post_bsdLookup hread hops name
  constructor
  · intro ⟨v, hd⟩
    exact (hlookup.of_ok hd).1
  · intro ⟨e, he, hino⟩
    cases hd : dirLookup name (s, l) with
    | ok r v =>
      obtain ⟨⟨e', he', hr⟩, -⟩ := hlookup.of_ok hd
      rw [he] at he'
      cases he'
      exact ⟨v, by rw [← hino, hr]⟩
    | error e' v =>
      obtain ⟨⟨-, hnone⟩ | hfault, -⟩ := hlookup.of_error hd
      · rw [he] at hnone
        cases hnone
      · exact absurd hfault hq

theorem dirEntries_ok : ∃ v, dirEntries (l.ip.size + 1) {} (s, l) =
    .ok (live f (listed s.fs.desc f l.ip.size 0)) v := by
  obtain ⟨L, v, hrun, rfl, -⟩ :=
    ((post_bsdEntries hread hops).mono (fun _ _ h => h) fun _ _ he => hq he.1).succeeds
  exact ⟨v, hrun⟩

/-- The two parsers agree on a directory unless its records leave four bytes of a chunk with a live
    record behind. -/
theorem listing_agrees_with_lookup_iff : Agree s l f ↔ ¬ HidesBehindGap s.fs.desc f l.ip.size := by
  rw [← listed_eq_records_iff]
  obtain ⟨v, hrun⟩ := dirEntries_ok hops hread hq
  constructor
  · intro h
    obtain ⟨L, u, hL, heq, -⟩ := h
    rw [hrun] at hL
    cases hL
    exact heq
  · intro heq
    refine ⟨_, v, hrun, heq, fun name _ => ?_⟩
    rw [heq]
    constructor
    · intro ⟨ino, hmem⟩
      cases hlook : lookup (live f (records s.fs.desc f l.ip.size 0)) name with
      | none => exact absurd rfl (lookup_eq_none.mp hlook _ hmem)
      | some e => exact ⟨e.1, (dirLookup_iff hops hread hq).mpr ⟨e, hlook, rfl⟩⟩
    · intro ⟨ino, hd⟩
      obtain ⟨e, he, rfl⟩ := (dirLookup_iff hops hread hq).mp hd
      have hname : e.2 = name := by simpa using List.find?_some he
      rw [← hname]
      exact ⟨e.1, List.mem_of_find?_eq_some he⟩

end Quiet

/-! ## A root directory -/

/-- A full volume of four blocks of 1024: the root directory, block 3, has the first `size` bytes of `dir`. -/
def bsdImage (dir : Buf) (size : Nat) : Buf := fun i =>
  if i = 1024 then 3 else if i = 1028 then 4            -- s_isize, s_fsize
  else if i = 2113 then 0o100 else if i = 2114 then 2 else if i = 2122 then UInt8.ofNat size
    else if i = 2123 then UInt8.ofNat (size / 256)
  else if i = 2126 then 3 else if 3072 ≤ i then dir (i - 3072) else 0

@[irreducible] def bsdVolume (dir : Buf) (size : Nat) : Mnt :=
  { final (filsysOpenArch { edition := .bsd211 })
      { fs := { desc := filsysGetformat .bsd211 }, img := bsdImage dir size, size := 4096 } with
    env := {} }

def bsdRoot (dir : Buf) (size : Nat) : Loc :=
  { ip := recordOf (bsdVolume dir size).fs (bsdVolume dir size).img 2 }

theorem bsdVolume_env (dir : Buf) (size : Nat) : (bsdVolume dir size).env = {} := by
  unfold bsdVolume
  rfl

theorem bsdVolume_quiet (dir : Buf) (size : Nat) : ¬ Fault (bsdVolume dir size) := by
  rintro ⟨k, hk⟩
  rw [bsdVolume_env] at hk
  exact nomatch hk

/-- What there is to check of one of them. -/
def RootChecks (dir : Buf) (size : Nat) : Prop :=
  FormatChecks (bsdVolume dir size) ∧ SoleChecks (bsdVolume dir size) 2 3 ∧
  (bsdVolume dir size).fs.desc = descBsd211 ∧
    ValidIno (bsdVolume dir size).fs 2 ∧ inodeLive descBsd211 ((bsdRoot dir size).ip.mode % 65536) = true ∧
    modeIsDevice descBsd211 { ino := 2, mode := (bsdRoot dir size).ip.mode % 65536 } = false ∧
    (bsdRoot dir size).ip.ino = 2 ∧
    (bsdRoot dir size).ip.size = size ∧ size < 2 ^ 32

theorem openFile_bsd {dir : Buf} {size : Nat} (h : RootChecks dir size) :
    OpenFile (bsdVolume dir size) (soleOwn 2 3) 2 (bsdRoot dir size).ip := by
  obtain ⟨hf, hs, hd, hv, hlive, hdev, hino, hsize, hlt⟩ := h
  have hsolo : Solo (bsdVolume dir size) := by
    intro k img
    rw [bsdVolume_env]
  have ho := owned_sole hsolo hf hs
  refine ⟨ho, ho.disk 2 hv ⟨by rw [hd]; exact hlive, by rw [hd]; exact hdev⟩, hino, ?_⟩
  rw [hsize]
  exact hlt

/-- Records of 508 bytes and of 512, and four bytes between them. -/
def gapDir : Buf := fun i =>
  if i = 0 then 2 else if i = 2 then 252 else if i = 3 then 1 else if i = 4 then 1 else if i = 6 then 46
  else if i = 512 then 5 else if i = 515 then 2 else if i = 516 then 1 else if i = 518 then 120 else 0

theorem gapDir_checks : RootChecks gapDir 512 ∧ RootChecks gapDir 1024 := by
  unfold RootChecks
  decide +kernel

theorem bsdRoot_reads {dir : Buf} {size : Nat} (h : RootChecks dir size) :
    Reads (bsdVolume dir size) (bsdRoot dir size)
    (byteOf (bsdVolume dir size).fs (bsdVolume dir size).img (bsdRoot dir size).ip) := by
  have ho := openFile_bsd h
  exact reads_of_owned ho.owned ho.view (ho.mappable (Nat.le_refl _))

theorem a_directory_of_one_chunk_is_listed_as_it_resolves :
    Agree (bsdVolume gapDir 512) (bsdRoot gapDir 512)
    (byteOf (bsdVolume gapDir 512).fs (bsdVolume gapDir 512).img (bsdRoot gapDir 512).ip) := by
  refine (listing_agrees_with_lookup_iff (by decide +kernel) (bsdRoot_reads gapDir_checks.1)
    (bsdVolume_quiet _ _)).mpr ?_
  intro h
  obtain ⟨L, g, -, hg, hlive⟩ := h
  have hlt := hlive.lt
  rw [show (bsdRoot gapDir 512).ip.size = 512 by decide +kernel] at hlt
  omega

/-- `x` is listed and does not resolve. -/
theorem a_record_behind_a_gap_is_listed_and_does_not_resolve :
    Reads (bsdVolume gapDir 1024) (bsdRoot gapDir 1024) (byteOf (bsdVolume gapDir 1024).fs
      (bsdVolume gapDir 1024).img (bsdRoot gapDir 1024).ip) ∧
      ¬ Fault (bsdVolume gapDir 1024) ∧ valueOf (dirEntries 1025 {}) (bsdVolume gapDir 1024,
        bsdRoot gapDir 1024) = [(2, [46]), (5, [120])] ∧
      errorOf (dirLookup [120]) (bsdVolume gapDir 1024, bsdRoot gapDir 1024) = some .enoent ∧
      ¬ Agree (bsdVolume gapDir 1024) (bsdRoot gapDir 1024)
      (byteOf (bsdVolume gapDir 1024).fs (bsdVolume gapDir 1024).img (bsdRoot gapDir 1024).ip) := by
  have hok : errorOf (dirEntries 1025 {}) (bsdVolume gapDir 1024, bsdRoot gapDir 1024) = none := by
    decide +kernel
  have hlisted : valueOf (dirEntries 1025 {}) (bsdVolume gapDir 1024, bsdRoot gapDir 1024) =
    [(2, [46]), (5, [120])] := by
    decide +kernel
  have hscanned : live (byteOf (bsdVolume gapDir 1024).fs (bsdVolume gapDir 1024).img (bsdRoot gapDir 1024).ip)
      (records (bsdVolume gapDir 1024).fs.desc
        (byteOf (bsdVolume gapDir 1024).fs (bsdVolume gapDir 1024).img (bsdRoot gapDir 1024).ip)
        (bsdRoot gapDir 1024).ip.size 0) = [(2, [46])] := by decide +kernel
  have hrun := eq_ok hok
  rw [hlisted] at hrun
  refine ⟨bsdRoot_reads gapDir_checks.2, bsdVolume_quiet _ _, hlisted, by decide +kernel, ?_⟩
  intro h
  obtain ⟨L, u, hL, heq, -⟩ := h
  rw [show (bsdRoot gapDir 1024).ip.size + 1 = 1025 by decide +kernel, hrun] at hL
  cases hL
  rw [hscanned] at heq
  exact nomatch heq

end Filsys.Names
