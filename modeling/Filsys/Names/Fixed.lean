/-
  Filsys.Names.Fixed — directories of fixed entries (dir_fixed.c).

  An entry is an inode number and a name, zero-padded; a zero number marks a free slot. The
  scans read a directory chunk by chunk, but chunks are whole entries, so what they find is
  the first slot of the file that satisfies their test (`post_dirScan`), wherever blocks and
  chunks end. V1's entries straddle blocks.
-/

import Filsys.Tree.Write
import Mathlib.Data.List.GetD

namespace Filsys.Names

open Filsys.Lib Filsys.Engine Filsys.Alloc Filsys.Tree

/-! ## Stored names -/

section Stored

variable {b b' : Buf} {o o' max : Nat}

theorem storedName_succ (b : Buf) (o max : Nat) : storedName b o (max + 1) = if b o = 0 then []
    else b o :: storedName b (o + 1) max := by
  unfold storedName
  rw [List.range_succ_eq_map, List.map_cons, List.map_map, List.takeWhile_cons]
  have hshift : (fun i => b (o + i)) ∘ Nat.succ = fun i => b (o + 1 + i) := by
    funext i
    show b (o + (i + 1)) = _
    rw [Nat.add_assoc, Nat.add_comm 1]
  rw [hshift, Nat.add_zero]
  by_cases h0 : b o = 0
  · simp [h0]
  · simp [h0]

theorem storedName_congr (h : ∀ i, i < max → b (o + i) = b' (o' + i)) :
    storedName b o max = storedName b' o' max := by
  unfold storedName
  congr 1
  exact List.map_congr_left fun i hi => h i (List.mem_range.mp hi)

/-- A name compares as stored when what fits of it is what is stored. -/
theorem fixedNameEq_iff {name : Name} (hn : 0 ∉ name) :
    fixedNameEq b o max name = true ↔ storedName b o max = name.take max := by
  induction max generalizing o name with
  | zero =>
    rw [List.take_zero]
    exact ⟨fun _ => rfl, fun _ => by cases name <;> rfl⟩
  | succ max ih =>
    rw [storedName_succ]
    cases name with
    | nil =>
      show (b o == 0) = true ↔ _
      rw [beq_iff_eq, List.take_nil]
      by_cases h0 : b o = 0
      · simp [h0]
      · simp [h0]
    | cons c name =>
      obtain ⟨hc, hrest⟩ := not_or.mp (fun h => hn (List.mem_cons.mpr h))
      show (b o == c && fixedNameEq b (o + 1) max name) = true ↔ _
      rw [Bool.and_eq_true, beq_iff_eq, ih hrest, List.take_succ_cons]
      by_cases h0 : b o = 0
      · rw [if_pos h0, h0]
        exact ⟨fun h => absurd h.1 hc, fun h => nomatch h⟩
      · rw [if_neg h0, List.cons_eq_cons]

end Stored

/-! ## Slots -/

/-- An entry is a number and the longest name. -/
def FixedDir (d : Desc) : Prop := d.direntSize = d.maxNamlen + 2

/-- Slot `i` of a directory with the bytes `f`. -/
def slotAt (d : Desc) (f : Buf) (i : Nat) : Dirent :=
  (entryIno d f (i * d.direntSize), storedName f (i * d.direntSize + 2) d.maxNamlen)

/-- The slots from `i` on. -/
def slotsFrom (d : Desc) (f : Buf) (i : Nat) : Nat → List Dirent
  | 0 => []
  | k + 1 => slotAt d f i :: slotsFrom d f (i + 1) k

/-- A slot in use. -/
def inUse (e : Dirent) : Bool := e.1 != 0

/-- The entries of a directory of `size` bytes. -/
def fixedList (d : Desc) (f : Buf) (size : Nat) : List Dirent :=
  (slotsFrom d f 0 (size / d.direntSize)).filter inUse

theorem num_zeroBuf (ds : List Nat) (o : Nat) : num ds zeroBuf o = 0 := by
  induction ds generalizing o with
  | nil => rfl
  | cons x ds ih => simp [num, zeroBuf, ih]

section Slots

variable {d : Desc} (hd : FixedDir d)

include hd

theorem slotAt_congr {f f' : Buf} {i i' : Nat}
    (h : ∀ x, x < d.direntSize → f (i * d.direntSize + x) = f' (i' * d.direntSize + x)) :
    slotAt d f i = slotAt d f' i' := by
  unfold FixedDir at hd
  unfold slotAt entryIno ByteOrder.get16
  congr 1
  · refine num_congr _ fun x hx => h x ?_
    rw [ByteOrder.length_sig16] at hx
    omega
  · refine storedName_congr fun x hx => ?_
    rw [Nat.add_assoc, Nat.add_assoc]
    exact h (2 + x) (by omega)

omit hd in
/-- A name stored in full reads back. -/
theorem storedName_of_getD (max : Nat) : ∀ {o : Nat} {b : Buf} {name : Name}, 0 ∉ name → name.length ≤ max →
    (∀ i, b (o + i) = name.getD i 0) → storedName b o max = name := by
  induction max with
  | zero =>
    intro o b name _ hl _
    rw [List.eq_nil_of_length_eq_zero (Nat.le_zero.mp hl)]
    rfl
  | succ max ih =>
    intro o b name hn hl hb
    rw [storedName_succ]
    cases name with
    | nil => exact if_pos (hb 0)
    | cons c name =>
      have hc : b o = c := hb 0
      obtain ⟨hc0, hrest⟩ := not_or.mp (fun h => hn (List.mem_cons.mpr h))
      rw [if_neg (by rw [hc]; exact fun h => hc0 h.symm), hc]
      congr 1
      refine ih hrest (Nat.le_of_succ_le_succ hl) fun i => ?_
      rw [Nat.add_assoc, Nat.add_comm 1]
      exact hb (i + 1)

omit hd in
/-- The record `dir_add` stores. -/
theorem slotAt_makeEntry {ino : Nat} {name : Name} (h0 : 0 ∉ name) (hlen : name.length ≤ d.maxNamlen) :
    slotAt d (makeEntry d ino name) 0 = (ino % 65536, name) := by
  unfold slotAt makeEntry entryIno ByteOrder.get16
  rw [Nat.zero_mul, Nat.zero_add]
  congr 1
  · rw [num_poke_apart (.inl (Nat.le_of_eq (by rw [ByteOrder.length_sig16])))]
    unfold ByteOrder.put16
    rw [num_putNum (ByteOrder.perm_sig16 _), ByteOrder.length_sig16]
    rfl
  · refine storedName_of_getD _ h0 hlen fun i => ?_
    by_cases hi : i < name.length
    · rw [poke_inside hi, List.getD_eq_getElem _ _ hi]
    · rw [poke_outside (.inr (by omega)), List.getD_eq_default _ _ (by omega)]
      exact putNum_outside (.inr (by rw [ByteOrder.length_sig16]; omega))

omit hd in
theorem slotAt_zeroBuf (i : Nat) : (slotAt d zeroBuf i).1 = 0 := num_zeroBuf _ _

omit hd in
theorem slotsFrom_add (f : Buf) (i j k : Nat) :
    slotsFrom d f i (j + k) = slotsFrom d f i j ++ slotsFrom d f (i + j) k := by
  induction j generalizing i with
  | zero => rw [Nat.zero_add, Nat.add_zero]; rfl
  | succ j ih =>
    rw [Nat.add_right_comm]
    show slotAt d f i :: slotsFrom d f (i + 1) (j + k) = slotAt d f i :: (slotsFrom d f (i + 1) j ++ _)
    rw [ih, Nat.add_assoc, Nat.add_comm 1]

omit hd in
theorem slotsFrom_length (f : Buf) (i k : Nat) : (slotsFrom d f i k).length = k := by
  induction k generalizing i with
  | zero => rfl
  | succ k ih => exact congrArg (· + 1) (ih (i + 1))

omit hd in
/-- The slots before slot `i`, the slot, and those after it. -/
theorem slotsFrom_split (f : Buf) {i k : Nat} (h : i < k) :
    slotsFrom d f 0 k = slotsFrom d f 0 i ++ slotAt d f i :: slotsFrom d f (i + 1) (k - (i + 1)) := by
  have hk : k = i + (k - (i + 1) + 1) := by omega
  rw [hk, slotsFrom_add, Nat.zero_add, ← hk]
  rfl

omit hd in
theorem mem_slotsFrom {f : Buf} {i k : Nat} {e : Dirent} : e ∈ slotsFrom d f i k ↔ ∃ j, i ≤ j ∧
    j < i + k ∧ slotAt d f j = e := by
  induction k generalizing i with
  | zero => exact ⟨fun h => absurd h List.not_mem_nil, fun ⟨j, h1, h2, _⟩ => by omega⟩
  | succ k ih =>
    show e ∈ slotAt d f i :: slotsFrom d f (i + 1) k ↔ _
    rw [List.mem_cons, ih]
    constructor
    · intro hr
      rcases hr with rfl | ⟨j, h1, h2, h3⟩
      · exact ⟨i, Nat.le_refl _, by omega, rfl⟩
      · exact ⟨j, by omega, by omega, h3⟩
    · intro hr
      obtain ⟨j, h1, h2, h3⟩ := hr
      by_cases hj : j = i
      · subst hj
        exact .inl h3.symm
      · exact .inr ⟨j, by omega, by omega, h3⟩

theorem slotsFrom_congr {f f' : Buf} {i k : Nat}
    (h : ∀ o, i * d.direntSize ≤ o → o < (i + k) * d.direntSize → f o = f' o) :
    slotsFrom d f i k = slotsFrom d f' i k := by
  induction k generalizing i with
  | zero => rfl
  | succ k ih =>
    have hle : (i + 1) * d.direntSize ≤ (i + (k + 1)) * d.direntSize := Nat.mul_le_mul_right _ (by omega)
    show slotAt d f i :: slotsFrom d f (i + 1) k = slotAt d f' i :: slotsFrom d f' (i + 1) k
    congr 1
    · refine slotAt_congr hd fun x hx => h _ (Nat.le_add_right _ _) ?_
      rw [Nat.succ_mul] at hle
      omega
    · refine ih fun o h1 h2 => h o ?_ ?_
      · rw [Nat.succ_mul] at h1
        omega
      · rwa [Nat.add_assoc, Nat.add_comm 1] at h2

end Slots

/-! ## Lists of entries -/

/-- `e` has come in somewhere. -/
def Inserted (L L' : List Dirent) (e : Dirent) : Prop := ∃ A B, L = A ++ B ∧ L' = A ++ e :: B

/-- `e`, the first entry of its name, has gone. -/
def Removed (L L' : List Dirent) (e : Dirent) : Prop :=
  ∃ A B, L = A ++ e :: B ∧ L' = A ++ B ∧ ∀ x ∈ A, x.2 ≠ e.2

/-- The first entry of a name. -/
def lookup (L : List Dirent) (name : Name) : Option Dirent := L.find? fun e => e.2 == name

/-- Slot `i` is the first of `k` that satisfies `q`. -/
structure First (q : Nat → Bool) (k i : Nat) : Prop where
  lt : i < k
  here : q i = true
  before : ∀ j, j < i → q j = false

/-- The slot is in use and has that name. -/
def slotNamed (d : Desc) (f : Buf) (name : Name) (i : Nat) : Bool :=
  inUse (slotAt d f i) && (slotAt d f i).2 == name

section Find

variable {d : Desc} {f : Buf} {size i : Nat} {name : Name}

theorem before_names (h : ∀ j, j < i → slotNamed d f name j = false) :
    ∀ e ∈ (slotsFrom d f 0 i).filter inUse, e.2 ≠ name := by
  intro e he hname
  obtain ⟨hmem, huse⟩ := List.mem_filter.mp he
  obtain ⟨j, -, hj, rfl⟩ := mem_slotsFrom.mp hmem
  have := h j (by omega)
  unfold slotNamed at this
  rw [huse, hname] at this
  simp at this

theorem lookup_first (h : First (slotNamed d f name) (size / d.direntSize) i) :
    lookup (fixedList d f size) name = some (slotAt d f i) := by
  obtain ⟨huse, hname⟩ := Bool.and_eq_true_iff.mp h.here
  unfold lookup fixedList
  rw [slotsFrom_split f h.lt, List.filter_append, List.find?_append, List.filter_cons_of_pos huse,
    List.find?_cons_of_pos (p := fun e : Dirent => e.2 == name) hname]
  rw [List.find?_eq_none.mpr fun e he => by simpa using before_names h.before e he]
  rfl

theorem lookup_none (h : ∀ j, j < size / d.direntSize → slotNamed d f name j = false) :
    lookup (fixedList d f size) name = none := by
  refine List.find?_eq_none.mpr fun e he => ?_
  simpa using before_names h e he

end Find

section Write

variable {d : Desc} (hd : FixedDir d) {f f' : Buf} {i size : Nat} (hi : i < size / d.direntSize)
  (hbytes : ∀ o, o < size → o < i * d.direntSize ∨ (i + 1) * d.direntSize ≤ o → f' o = f o)

include hd hi hbytes

/-- A write to one slot leaves the others. -/
theorem fixedList_write : ∃ A B, fixedList d f size = A ++ ([slotAt d f i].filter inUse ++ B) ∧
    fixedList d f' size = A ++ ([slotAt d f' i].filter inUse ++ B) ∧ A = (slotsFrom d f 0 i).filter inUse := by
  have hsz : (size / d.direntSize) * d.direntSize ≤ size := Nat.div_mul_le_self ..
  have hle : (i + 1) * d.direntSize ≤ size / d.direntSize * d.direntSize := Nat.mul_le_mul_right _ hi
  have hself : i * d.direntSize ≤ (i + 1) * d.direntSize := Nat.mul_le_mul_right _ (Nat.le_succ i)
  refine ⟨_, (slotsFrom d f (i + 1) (size / d.direntSize - (i + 1))).filter inUse, ?_, ?_, rfl⟩
  · show ((slotsFrom d f 0 (size / d.direntSize)).filter inUse) = _
    rw [slotsFrom_split f hi, List.append_cons, List.append_assoc, List.filter_append, List.filter_append]
  · show ((slotsFrom d f' 0 (size / d.direntSize)).filter inUse) = _
    have hpre : slotsFrom d f' 0 i = slotsFrom d f 0 i := by
      refine slotsFrom_congr hd fun o _ ho => hbytes o ?_ (.inl ?_)
      · rw [Nat.zero_add] at ho
        omega
      · rwa [Nat.zero_add] at ho
    have hpost : slotsFrom d f' (i + 1) (size / d.direntSize - (i + 1)) =
      slotsFrom d f (i + 1) (size / d.direntSize - (i + 1)) := by
      refine slotsFrom_congr hd fun o h1 h2 => hbytes o ?_ (.inr h1)
      rw [Nat.add_sub_cancel' (show i + 1 ≤ _ from hi)] at h2
      omega
    rw [slotsFrom_split f' hi, hpre, hpost, List.append_cons, List.append_assoc,
      List.filter_append, List.filter_append]

theorem fixedList_remove {name : Name} (hf : First (slotNamed d f name) (size / d.direntSize) i)
    (hz : (slotAt d f' i).1 = 0) :
    Removed (fixedList d f size) (fixedList d f' size) (slotAt d f i) := by
  obtain ⟨huse, hname⟩ := Bool.and_eq_true_iff.mp hf.here
  obtain ⟨A, B, h1, h2, hA⟩ := fixedList_write hd hi hbytes
  have hfree : inUse (slotAt d f' i) = false := by
    unfold inUse
    rw [hz]
    rfl
  refine ⟨A, B, ?_, ?_, ?_⟩
  · rw [h1, List.filter_cons_of_pos huse]
    rfl
  · rw [h2, List.filter_cons_of_neg (by simp [hfree])]
    rfl
  · rw [hA, beq_iff_eq.mp hname]
    exact before_names hf.before

theorem fixedList_reuse (hz : (slotAt d f i).1 = 0) (hnew : inUse (slotAt d f' i) = true) :
    Inserted (fixedList d f size) (fixedList d f' size) (slotAt d f' i) := by
  obtain ⟨A, B, h1, h2, -⟩ := fixedList_write hd hi hbytes
  have hfree : inUse (slotAt d f i) = false := by
    unfold inUse
    rw [hz]
    rfl
  refine ⟨A, B, ?_, ?_⟩
  · rw [h1, List.filter_cons_of_neg (by simp [hfree])]
    rfl
  · rw [h2, List.filter_cons_of_pos hnew]
    rfl

end Write

/-- A slot added at the end. -/
theorem fixedList_append {d : Desc} (hd : FixedDir d) {f f' : Buf} {size : Nat} (hframed : d.direntSize ∣ size)
    (hbytes : ∀ o, o < size → f' o = f o) (hnew : inUse (slotAt d f' (size / d.direntSize)) = true) :
    Inserted (fixedList d f size) (fixedList d f' (size + d.direntSize))
    (slotAt d f' (size / d.direntSize)) := by
  have h0 : 0 < d.direntSize := by
    unfold FixedDir at hd
    omega
  refine ⟨fixedList d f size, [], (List.append_nil _).symm, ?_⟩
  show (slotsFrom d f' 0 ((size + d.direntSize) / d.direntSize)).filter inUse =
    (slotsFrom d f 0 (size / d.direntSize)).filter inUse ++ _
  rw [Nat.add_div_right _ h0, slotsFrom_add (k := 1), List.filter_append, Nat.zero_add]
  congr 1
  · congr 1
    refine slotsFrom_congr hd fun o _ ho => hbytes o ?_
    rwa [Nat.zero_add, Nat.div_mul_cancel hframed] at ho
  · show [slotAt d f' (size / d.direntSize)].filter inUse = _
    rw [List.filter_cons_of_pos hnew]
    rfl

/-! ## Scans -/

/-- The first slot from `b` on that satisfies `p`. -/
theorem findEntry_spec {p : Nat → Bool} {esize got : Nat} (h0 : 0 < esize) (fuel : Nat) : ∀ b, got ≤ fuel + b →
    match findEntry p esize got fuel b with
    | some c => ∃ k, c = b + k * esize ∧ c + esize ≤ got ∧ p c = true ∧ ∀ j, j < k → p (b + j * esize) = false
    | none => ∀ k, b + k * esize + esize ≤ got → p (b + k * esize) = false := by
  induction fuel with
  | zero =>
    intro b hb k hk
    omega
  | succ fuel ih =>
    intro b hb
    unfold findEntry
    by_cases hin : b + esize ≤ got
    · rw [if_pos hin]
      cases hp : p b with
      | true => exact ⟨0, by omega, hin, hp, fun j hj => absurd hj (Nat.not_lt_zero j)⟩
      | false =>
        have hnext := ih (b + esize) (by omega)
        have hshift : ∀ j, b + esize + j * esize = b + (j + 1) * esize := by
          intro j
          rw [Nat.add_mul]
          omega
        show match findEntry p esize got fuel (b + esize) with
          | some c => _
          | none => _
        cases hf : findEntry p esize got fuel (b + esize) with
        | some c =>
          rw [hf] at hnext
          obtain ⟨k, hc, hle, hpc, hbefore⟩ := hnext
          refine ⟨k + 1, hc.trans (hshift k), hle, hpc, fun j hj => ?_⟩
          cases j with
          | zero => rwa [Nat.zero_mul, Nat.add_zero]
          | succ j => rw [← hshift]; exact hbefore j (by omega)
        | none =>
          rw [hf] at hnext
          intro k hk
          cases k with
          | zero => rwa [Nat.zero_mul, Nat.add_zero]
          | succ k => rw [← hshift] at hk ⊢; exact hnext k hk
    · rw [if_neg hin]
      intro k hk
      omega

/-- Chunks are whole entries. -/
theorem dirChunk_eq (d : Desc) : ∃ c, 0 < c ∧ dirChunk d = c * d.direntSize := by
  unfold dirChunk
  by_cases hz : d.bsize / d.direntSize * d.direntSize = 0
  · exact ⟨1, Nat.one_pos, by rw [if_pos hz, Nat.one_mul]⟩
  · exact ⟨d.bsize / d.direntSize, Nat.pos_of_ne_zero fun h => hz (by rw [h, Nat.zero_mul]), if_neg hz⟩

/-- The bytes of entry `b` of `blk` are those of slot `i` of the file. -/
def HasSlot (d : Desc) (f : Buf) (blk : Buf) (b i : Nat) : Prop :=
  ∀ x, x < d.direntSize → blk (b + x) = f (i * d.direntSize + x)

section Scan

variable {s : Mnt} {own : Own} {n : Nat} {l : Loc} (h : Owned s own) (hv : View s.fs.desc own n l.ip)
    (hmap : Mappable s.fs l.ip.size)
  (h0 : 0 < s.fs.desc.direntSize) {p : Buf → Nat → Bool} {q : Nat → Bool}
  (hp : ∀ blk b i, HasSlot s.fs.desc (byteOf s.fs s.img l.ip) blk b i → p blk b = q i)

include h hv hmap h0 hp

/-- A scan finds the first slot that satisfies its test, or that there is none. -/
theorem post_dirScan (fuel : Nat) : ∀ (off m : Nat) {t : Mnt}, Looked s t →
    off = m * s.fs.desc.direntSize → l.ip.size < fuel + off →
    (∀ j, j < m → j < l.ip.size / s.fs.desc.direntSize → q j = false) →
    Post (dirScan p fuel off (t, l))
      (fun r u => (match r with
        | some (o, blk, b) =>
          ∃ i, First q (l.ip.size / s.fs.desc.direntSize) i ∧ o + b = i * s.fs.desc.direntSize ∧
            HasSlot s.fs.desc (byteOf s.fs s.img l.ip) blk b i
        | none => ∀ j, j < l.ip.size / s.fs.desc.direntSize → q j = false) ∧ Looked s u.1 ∧ u.2 = l)
      (fun _ u => Fault s ∧ Looked s u.1 ∧ u.2 = l) := by
  have hslot : ∀ {j}, j < l.ip.size / s.fs.desc.direntSize ↔
    (j + 1) * s.fs.desc.direntSize ≤ l.ip.size := fun {j} =>
    (Nat.le_div_iff_mul_le h0 (x := j + 1))
  -- past the end there is no slot left
  have hend : ∀ {off m t}, Looked s t → off = m * s.fs.desc.direntSize → l.ip.size ≤ off →
      (∀ j, j < m → j < l.ip.size / s.fs.desc.direntSize → q j = false) →
      (∀ j, j < l.ip.size / s.fs.desc.direntSize → q j = false) ∧ Looked s t ∧ l = l := by
    intro off m t ht hoff hle hbefore
    refine ⟨fun j hj => hbefore j ?_ hj, ht, rfl⟩
    have := hslot.mp hj
    exact Nat.lt_of_mul_lt_mul_right (a := s.fs.desc.direntSize) (by rw [Nat.add_mul] at this; omega)
  induction fuel with
  | zero =>
    intro off m t ht hoff hfuel hbefore
    exact hend ht hoff (by omega) hbefore
  | succ fuel ih =>
    intro off m t ht hoff hfuel hbefore
    obtain ⟨c, hc, hchunk⟩ := dirChunk_eq s.fs.desc
    show Post ((if off < l.ip.size then
      filsysFileRead (min (dirChunk t.fs.desc) (l.ip.size - off)) off >>= fun r =>
      match findEntry (p r.2) t.fs.desc.direntSize r.1 r.1 0 with
      | some b => pure (some (off, r.2, b))
      | none => dirScan p fuel (off + dirChunk t.fs.desc) else pure none : MI _) (t, l)) _ _
    refine post_ite (fun hlt => ?_) fun hge => hend ht hoff (by omega) hbefore
    have hread := post_filsysFileRead (ht.owned h) (l := l) (by rw [ht.fs]; exact hv)
      (by rw [ht.fs]; exact hmap)
      (min (dirChunk t.fs.desc) (l.ip.size - off)) off
    refine post_bind (hread.mono ?_ fun _ u hu => ⟨ht.fault hu.1, looked_law.trans ht hu.2.1, hu.2.2⟩)
    intro z pair hr
    obtain ⟨got, blk⟩ := z
    obtain ⟨u, l'⟩ := pair
    obtain ⟨hgot, hblk, hu, hl'⟩ := hr
    obtain rfl : l' = l := hl'
    have hsu := looked_law.trans ht hu
    rw [ht.fs] at hgot ⊢
    replace hgot : got = min (dirChunk s.fs.desc) (l'.ip.size - off) := by
      simpa using hgot
    have hhas : ∀ k, k * s.fs.desc.direntSize + s.fs.desc.direntSize ≤ got →
        HasSlot s.fs.desc (byteOf s.fs s.img l'.ip) blk (k * s.fs.desc.direntSize) (m + k) := by
      intro k hk x hx
      have hbyte := hblk (k * s.fs.desc.direntSize + x) (show _ < got by omega)
      rw [looked_byteOf ht, hoff, ← Nat.add_assoc, ← Nat.add_mul] at hbyte
      exact hbyte
    have hspec := @findEntry_spec (p blk) _ got h0 got 0 (Nat.le_refl _)
    show Post ((match findEntry (p blk) s.fs.desc.direntSize got got 0 with
      | some b => pure (some (off, blk, b))
      | none => dirScan p fuel (off + dirChunk s.fs.desc) : MI _) (u, l')) _ _
    cases hf : findEntry (p blk) s.fs.desc.direntSize got got 0 with
    | some b =>
      rw [hf] at hspec
      obtain ⟨k, hb, hle, hpb, hearlier⟩ := hspec
      rw [Nat.zero_add] at hb
      subst hb
      refine ⟨⟨m + k, ⟨?_, ?_, ?_⟩, ?_, hhas k hle⟩, hsu, rfl⟩
      · rw [hslot, Nat.add_right_comm, Nat.add_mul, Nat.add_mul]
        omega
      · rw [← hp blk _ _ (hhas k hle)]
        exact hpb
      · intro j hj
        by_cases hjm : j < m
        · exact hbefore j hjm (by
            rw [hslot, Nat.add_mul]
            have := Nat.mul_le_mul_right s.fs.desc.direntSize hjm
            rw [Nat.succ_mul] at this
            omega)
        · have hjk : (j - m) * s.fs.desc.direntSize + s.fs.desc.direntSize ≤ k * s.fs.desc.direntSize := by
            rw [← Nat.succ_mul]
            exact Nat.mul_le_mul_right _ (by omega)
          have hno := hearlier (j - m) (by omega)
          rw [Nat.zero_add, hp blk _ _ (hhas (j - m) (by omega))] at hno
          rwa [Nat.add_sub_cancel' (by omega)] at hno
      · rw [hoff, Nat.add_mul]
    | none =>
      rw [hf] at hspec
      have hpos : 0 < c * s.fs.desc.direntSize := Nat.mul_pos hc h0
      refine ih (off + dirChunk s.fs.desc) (m + c) hsu (by rw [hoff, hchunk, Nat.add_mul])
        (by omega) fun j hj hjs => ?_
      by_cases hjm : j < m
      · exact hbefore j hjm hjs
      · have hjc : (j - m) * s.fs.desc.direntSize + s.fs.desc.direntSize ≤ c * s.fs.desc.direntSize := by
          rw [← Nat.succ_mul]
          exact Nat.mul_le_mul_right _ (by omega)
        have hin := hslot.mp hjs
        have hsum : (j + 1) * s.fs.desc.direntSize = m * s.fs.desc.direntSize +
          ((j - m) * s.fs.desc.direntSize + s.fs.desc.direntSize) := by
          rw [← Nat.succ_mul, ← Nat.add_mul]
          congr 1
          omega
        have hgo : (j - m) * s.fs.desc.direntSize + s.fs.desc.direntSize ≤ got := by omega
        have hno := hspec (j - m) (by omega)
        rw [Nat.zero_add, hp blk _ _ (hhas (j - m) hgo)] at hno
        rwa [Nat.add_sub_cancel' (by omega)] at hno

end Scan

end Filsys.Names
