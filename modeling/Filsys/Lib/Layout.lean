/-
  Filsys.Lib.Layout — records of fields at fixed offsets.

  A field of a record is a stretch of bytes and the way it is written. An encoder that puts
  one field after another over an old image is `record fields old`. When no two fields
  overlap, the order does not matter: each field reads back what was put there
  (`num_record`, `num_record_table`, `record_byte`), and a byte of no field keeps its old
  value (`record_outside`).
-/

import Filsys.Lib.Buffer

namespace Filsys.Lib

/-- A stretch of bytes, written without a look at what it held. -/
structure Field where
  off : Nat
  len : Nat
  put : Buf → Buf
  frame : ∀ b i, i < off ∨ off + len ≤ i → put b i = b i
  fixed : ∀ b b' i, off ≤ i → i < off + len → put b i = put b' i

namespace Field

/-- The bytes of a field, as offset and length. -/
def span (f : Field) : Nat × Nat := (f.off, f.len)

/-- Two stretches share no byte. -/
def Apart (p q : Nat × Nat) : Prop := p.1 + p.2 ≤ q.1 ∨ q.1 + q.2 ≤ p.1

instance (p q : Nat × Nat) : Decidable (Apart p q) := inferInstanceAs (Decidable (_ ∨ _))

/-- Byte `i` lies in the stretch. -/
def Covers (p : Nat × Nat) (i : Nat) : Prop := p.1 ≤ i ∧ i < p.1 + p.2

instance (p : Nat × Nat) (i : Nat) : Decidable (Covers p i) := inferInstanceAs (Decidable (_ ∧ _))

def bytes (o : Nat) (xs : List UInt8) : Field where
  off := o
  len := xs.length
  put b := poke b o xs
  frame _ _ h := poke_outside h
  fixed b b' i hlo hhi := by
    unfold poke
    rw [if_pos ⟨hlo, hhi⟩, if_pos ⟨hlo, hhi⟩]

def word (ds : List Nat) (o v : Nat) : Field where
  off := o
  len := ds.length
  put b := putNum ds b o v
  frame _ _ h := putNum_outside h
  fixed b b' i hlo hhi := by
    unfold putNum poke
    rw [if_pos ⟨hlo, by simpa using hhi⟩, if_pos ⟨hlo, by simpa using hhi⟩]

theorem putTable_fixed {ds : List Nat} {off stride : Nat} {f : Nat → Nat} (hs : ds.length = stride)
    (b b' : Buf) (n : Nat) {i : Nat}
    (hlo : off ≤ i) (hhi : i < off + stride * n) :
    putTable ds off stride f n b i = putTable ds off stride f n b' i := by
  induction n with
  | zero => omega
  | succ n ih =>
    rw [Nat.mul_succ] at hhi
    unfold putTable
    rcases Nat.lt_or_ge i (off + stride * n) with hlt | hge
    · rw [putNum_outside (.inl hlt), putNum_outside (.inl hlt)]
      exact ih hlt
    · exact (word ds (off + stride * n) (f n)).fixed _ _ i hge (by show i < off + stride * n + ds.length; omega)

/-- A table of `n` fields without gaps. -/
def table (ds : List Nat) (off stride n : Nat) (f : Nat → Nat) (hs : ds.length = stride) : Field where
  off := off
  len := stride * n
  put b := putTable ds off stride f n b
  frame _ _ h := putTable_outside (Nat.le_of_eq hs) n h
  fixed b b' _ hlo hhi := putTable_fixed hs b b' n hlo hhi

@[simp] theorem span_bytes (o : Nat) (xs : List UInt8) : (bytes o xs).span = (o, xs.length) := rfl
@[simp] theorem span_word (ds : List Nat) (o v : Nat) : (word ds o v).span = (o, ds.length) := rfl
@[simp] theorem span_table (ds : List Nat) (off stride n : Nat) (f : Nat → Nat) (hs : ds.length = stride) :
    (table ds off stride n f hs).span = (off, stride * n) := rfl

end Field

/-- The fields put one after another over `b`. -/
def record (fields : List Field) (b : Buf) : Buf := fields.foldl (fun b f => f.put b) b

theorem record_append (fs gs : List Field) (b : Buf) : record (fs ++ gs) b = record gs (record fs b) :=
  List.foldl_append

/-- A byte of no field keeps its value. -/
theorem record_outside {fields : List Field} {i : Nat} (h : ∀ f ∈ fields, ¬ Field.Covers f.span i)
    (b : Buf) : record fields b i = b i := by
  induction fields generalizing b with
  | nil => rfl
  | cons f fields ih =>
    have hf : f.put b i = b i := f.frame b i (by
      have := h f List.mem_cons_self
      unfold Field.Covers Field.span at this
      omega)
    exact (ih (fun g hg => h g (List.mem_cons_of_mem f hg)) (f.put b)).trans hf

section Disjoint

variable {fields : List Field} (hd : (fields.map Field.span).Pairwise Field.Apart)

include hd

/-- In its own bytes a record is each of its fields. -/
theorem record_inside {f : Field} (hf : f ∈ fields) {i : Nat} (hi : Field.Covers f.span i)
    (b b' : Buf) : record fields b i = f.put b' i := by
  induction fields generalizing b with
  | nil => cases hf
  | cons g fields ih =>
    rw [List.map_cons, List.pairwise_cons] at hd
    rcases List.mem_cons.mp hf with rfl | hf
    · have hrest : ∀ g ∈ fields, ¬ Field.Covers g.span i := by
        intro g hg hc
        have hap := hd.1 g.span (List.mem_map_of_mem hg)
        unfold Field.Apart at hap
        unfold Field.Covers at hi hc
        omega
      exact (record_outside hrest _).trans (f.fixed b b' i hi.1 hi.2)
    · exact ih hd.2 hf (g.put b)

theorem num_record {ds : List Nat} (hp : ds.Perm (List.range ds.length)) {o v : Nat}
    (hf : Field.word ds o v ∈ fields) (b : Buf) :
    num ds (record fields b) o = v % 256 ^ ds.length := by
  rw [← num_putNum hp b o v]
  refine num_congr ds fun i hi => record_inside hd hf ⟨?_, ?_⟩ b b
  · exact Nat.le_add_right o i
  · exact Nat.add_lt_add_left hi o

theorem num_record_table {ds : List Nat} (hp : ds.Perm (List.range ds.length)) {off stride n : Nat}
    {f : Nat → Nat} {hs : ds.length = stride}
    (hf : Field.table ds off stride n f hs ∈ fields) {k : Nat} (hk : k < n) (b : Buf) :
    num ds (record fields b) (off + stride * k) = f k % 256 ^ ds.length := by
  rw [← num_putTable hp (Nat.le_of_eq hs) hk b]
  refine num_congr ds fun i hi => record_inside hd hf ⟨?_, ?_⟩ b b
  · show off ≤ off + stride * k + i
    omega
  · have hle : stride * (k + 1) ≤ stride * n := Nat.mul_le_mul_left _ hk
    rw [Nat.mul_succ] at hle
    show off + stride * k + i < off + stride * n
    omega

theorem record_byte {o : Nat} {x : UInt8} (hf : Field.bytes o [x] ∈ fields) (b : Buf) :
    record fields b o = x := by
  rw [record_inside hd hf ⟨Nat.le_refl o, Nat.lt_succ_self o⟩ b b]
  show poke b o [x] o = x
  simp [poke]

/-! ### Read through a window -/

variable {len : Nat} (hin : ∀ f ∈ fields, f.off + f.len ≤ len)

include hin

theorem num_window_record {ds : List Nat} (hp : ds.Perm (List.range ds.length)) {o v : Nat}
    (hf : Field.word ds o v ∈ fields) (b : Buf)
    (hv : v < 256 ^ ds.length) : num ds (window (record fields b) 0 len) o = v := by
  have hfit : o + ds.length ≤ len := hin _ hf
  rw [num_window hfit, Nat.zero_add, num_record hd hp hf, Nat.mod_eq_of_lt hv]

theorem num_window_table {ds : List Nat} (hp : ds.Perm (List.range ds.length)) {off stride n : Nat}
    {f : Nat → Nat} (hs : ds.length = stride)
    (hf : Field.table ds off stride n f hs ∈ fields) {k : Nat} (hk : k < n) (b : Buf)
    (hv : f k < 256 ^ stride) :
    num ds (window (record fields b) 0 len) (off + stride * k) = f k := by
  have hfit : off + stride * n ≤ len := hin _ hf
  have hle : stride * (k + 1) ≤ stride * n := Nat.mul_le_mul_left _ hk
  rw [Nat.mul_succ] at hle
  rw [num_window (by omega), Nat.zero_add, num_record_table hd hp hf hk, Nat.mod_eq_of_lt (hs ▸ hv)]

theorem window_record_byte {o : Nat} {x : UInt8} (hf : Field.bytes o [x] ∈ fields) (b : Buf) :
    window (record fields b) 0 len o = x := by
  have hfit : o + 1 ≤ len := hin _ hf
  rw [window_inside hfit, Nat.zero_add, record_byte hd hf]

end Disjoint

end Filsys.Lib
