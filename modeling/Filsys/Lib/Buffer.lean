/-
  Filsys.Lib.Buffer — byte buffers and multi-byte fields inside them.

  A buffer is a total function from offsets to bytes. `poke` overwrites a run of
  bytes, `splice` copies a run from another buffer, `window` reads one out. A
  multi-byte field is given by the significance of each of its bytes in storage
  order (`[0, 1]` is a little-endian word, `[1, 0]` a big-endian one), so every byte
  order is one reader and one writer: `num` and `putNum`. A table of equally spaced
  fields is written by `putTable`; a bit map is read and written one bit at a time.
-/

import Mathlib.Data.List.Perm.Basic
import Mathlib.Algebra.BigOperators.Group.List.Basic
import Mathlib.Algebra.GroupWithZero.Nat
import Mathlib.Tactic.Common

namespace Filsys.Lib

abbrev Buf := Nat → UInt8

def zeroBuf : Buf := fun _ => 0

def poke (b : Buf) (o : Nat) (xs : List UInt8) : Buf :=
  fun i => if o ≤ i ∧ i < o + xs.length then xs.getD (i - o) 0 else b i

/-- `n` bytes of `src` from `soff`, copied over `dst` at `doff`. -/
def splice (dst : Buf) (doff : Nat) (src : Buf) (soff n : Nat) : Buf :=
  fun i => if doff ≤ i ∧ i < doff + n then src (soff + (i - doff)) else dst i

/-- The `n` bytes of `b` from `o`, and zeros past them. -/
def window (b : Buf) (o n : Nat) : Buf := fun i => if i < n then b (o + i) else 0

theorem poke_outside {b : Buf} {o i : Nat} {xs : List UInt8} (h : i < o ∨ o + xs.length ≤ i) :
    poke b o xs i = b i := if_neg (by omega)

theorem poke_inside {b : Buf} {o k : Nat} {xs : List UInt8} (h : k < xs.length) :
    poke b o xs (o + k) = xs.getD k 0 := by
  have hk : o + k - o = k := by omega
  rw [poke, if_pos (by omega), hk]

theorem splice_outside {dst src : Buf} {doff soff n i : Nat} (h : i < doff ∨ doff + n ≤ i) :
    splice dst doff src soff n i = dst i := if_neg (by omega)

theorem splice_inside {dst src : Buf} {doff soff n k : Nat} (h : k < n) :
    splice dst doff src soff n (doff + k) = src (soff + k) := by
  have hk : doff + k - doff = k := by omega
  rw [splice, if_pos (by omega), hk]

theorem window_inside {b : Buf} {o n i : Nat} (h : i < n) : window b o n i = b (o + i) := if_pos h

theorem window_congr {b b' : Buf} {o n : Nat} (h : ∀ i, o ≤ i → i < o + n → b i = b' i) :
    window b o n = window b' o n := by
  funext i
  by_cases hi : i < n
  · rw [window_inside hi, window_inside hi, h (o + i) (by omega) (by omega)]
  · rw [window, window, if_neg hi, if_neg hi]

/-! ## Multi-byte fields -/

def digit (v k : Nat) : UInt8 := UInt8.ofNat (v / 256 ^ k)

theorem toNat_digit (v k : Nat) : (digit v k).toNat = v / 256 ^ k % 256 := by
  rw [digit, UInt8.toNat_ofNat']

/-- The field at `o` whose `i`-th byte has significance `256 ^ ds[i]`. -/
def num : List Nat → Buf → Nat → Nat
  | [], _, _ => 0
  | d :: ds, b, o => (b o).toNat * 256 ^ d + num ds b (o + 1)

def putNum (ds : List Nat) (b : Buf) (o v : Nat) : Buf := poke b o (ds.map (digit v))

theorem num_congr {b b' : Buf} (ds : List Nat) {o o' : Nat} (h : ∀ i, i < ds.length → b (o + i) = b' (o' + i)) :
    num ds b o = num ds b' o' := by
  induction ds generalizing o o' with
  | nil => rfl
  | cons d ds ih =>
    have h0 : b o = b' o' := h 0 (by simp)
    have hs : num ds b (o + 1) = num ds b' (o' + 1) := by
      refine ih fun i hi => ?_
      have h1 := h (i + 1) (by simpa using hi)
      rwa [show o + (i + 1) = o + 1 + i by omega, show o' + (i + 1) = o' + 1 + i by omega] at h1
    rw [num, num, h0, hs]

theorem putNum_outside {ds : List Nat} {b : Buf} {o v i : Nat} (h : i < o ∨ o + ds.length ≤ i) :
    putNum ds b o v i = b i := poke_outside (by simpa using h)

theorem num_putNum_sum (ds : List Nat) (b : Buf) (o v : Nat) :
    num ds (putNum ds b o v) o = (ds.map fun d => v / 256 ^ d % 256 * 256 ^ d).sum := by
  have key : ∀ (pre ds : List Nat) (b : Buf) (o : Nat),
      num ds (poke b o ((pre ++ ds).map (digit v))) (o + pre.length)
        = (ds.map fun d => v / 256 ^ d % 256 * 256 ^ d).sum := by
    intro pre ds b o
    induction ds generalizing pre with
    | nil => rfl
    | cons d ds ih =>
      have hd : poke b o ((pre ++ d :: ds).map (digit v)) (o + pre.length) = digit v d := by
        rw [poke_inside (by simp)]; simp
      have ht := ih (pre ++ [d])
      rw [List.append_assoc, List.singleton_append, List.length_append,
        List.length_singleton, ← Nat.add_assoc] at ht
      rw [num, hd, ht, toNat_digit, List.map_cons, List.sum_cons]
  exact key [] ds b o

theorem sum_digits (v n : Nat) :
    ((List.range n).map fun d => v / 256 ^ d % 256 * 256 ^ d).sum = v % 256 ^ n := by
  induction n with
  | zero => simp [Nat.mod_one]
  | succ n ih =>
    rw [List.range_succ, List.map_append, List.sum_append, ih, List.map_singleton, List.sum_singleton,
      Nat.pow_succ, Nat.mod_mul, Nat.mul_comm]

theorem num_putNum {ds : List Nat} (hp : ds.Perm (List.range ds.length)) (b : Buf) (o v : Nat) :
    num ds (putNum ds b o v) o = v % 256 ^ ds.length := by
  rw [num_putNum_sum, (hp.map _).sum_eq, sum_digits]

theorem num_lt {ds : List Nat} (hp : ds.Perm (List.range ds.length)) (b : Buf) (o : Nat) :
    num ds b o < 256 ^ ds.length := by
  have hle : ∀ (ds : List Nat) (o : Nat), num ds b o ≤ (ds.map fun d => 255 * 256 ^ d).sum := by
    intro ds
    induction ds with
    | nil => intro o; exact Nat.le_refl _
    | cons d ds ih =>
      intro o
      have h1 : (b o).toNat ≤ 255 := by have := (b o).toNat_lt; omega
      rw [num, List.map_cons, List.sum_cons]
      exact Nat.add_le_add (Nat.mul_le_mul_right _ h1) (ih (o + 1))
  have hs : ∀ n, ((List.range n).map fun d => 255 * 256 ^ d).sum + 1 = 256 ^ n := by
    intro n
    induction n with
    | zero => rfl
    | succ n ih =>
      rw [List.range_succ, List.map_append, List.sum_append, List.map_singleton,
        List.sum_singleton, Nat.pow_succ]
      omega
  have h := hle ds o
  rw [(hp.map _).sum_eq] at h
  have := hs ds.length
  omega

theorem num_window {ds : List Nat} {b : Buf} {o n k : Nat} (h : k + ds.length ≤ n) :
    num ds (window b o n) k = num ds b (o + k) := by
  refine num_congr ds fun i hi => ?_
  rw [window_inside (by omega), Nat.add_assoc]

/-! ## Tables of fields -/

/-- Fields `f 0, …, f (n-1)` written every `stride` bytes from `off`. -/
def putTable (ds : List Nat) (off stride : Nat) (f : Nat → Nat) : Nat → Buf → Buf
  | 0, b => b
  | n + 1, b => putNum ds (putTable ds off stride f n b) (off + stride * n) (f n)

theorem putTable_outside {ds : List Nat} {off stride : Nat} {f : Nat → Nat} (hw : ds.length ≤ stride) (n : Nat)
    {b : Buf} {i : Nat} (h : i < off ∨ off + stride * n ≤ i) : putTable ds off stride f n b i = b i := by
  induction n with
  | zero => rfl
  | succ n ih =>
    rw [Nat.mul_succ] at h
    rw [putTable, putNum_outside (by omega)]
    exact ih (by omega)

theorem num_putTable {ds : List Nat} (hp : ds.Perm (List.range ds.length)) {off stride : Nat} {f : Nat → Nat}
    (hw : ds.length ≤ stride) {n k : Nat} (hk : k < n) (b : Buf) :
    num ds (putTable ds off stride f n b) (off + stride * k) = f k % 256 ^ ds.length := by
  induction n with
  | zero => omega
  | succ n ih =>
    rw [putTable]
    by_cases h : k = n
    · rw [h, num_putNum hp]
    · have hle : stride * (k + 1) ≤ stride * n := Nat.mul_le_mul_left _ (by omega)
      rw [Nat.mul_succ] at hle
      have hf : num ds (putNum ds (putTable ds off stride f n b) (off + stride * n) (f n)) (off + stride * k)
          = num ds (putTable ds off stride f n b) (off + stride * k) :=
        num_congr ds fun i hi => putNum_outside (by omega)
      rw [hf]
      exact ih (by omega)

/-! ## Below a field -/

/-- A field is left alone by what is written beside it. -/
theorem num_poke_apart {ds : List Nat} {b : Buf} {o o' : Nat} {xs : List UInt8}
    (h : o + ds.length ≤ o' ∨ o' + xs.length ≤ o) :
    num ds (poke b o' xs) o = num ds b o :=
  num_congr _ fun i hi => poke_outside (by omega)

theorem num_putNum_apart {ds ds' : List Nat} {b : Buf} {o o' v : Nat}
    (h : o + ds.length ≤ o' ∨ o' + ds'.length ≤ o) :
    num ds (putNum ds' b o' v) o = num ds b o :=
  num_poke_apart (by simpa using h)

theorem num_putTable_apart {ds ds' : List Nat} {b : Buf} {o off stride n : Nat} {f : Nat → Nat}
    (hw : ds'.length ≤ stride)
    (h : o + ds.length ≤ off ∨ off + stride * n ≤ o) : num ds (putTable ds' off stride f n b) o = num ds b o :=
  num_congr _ fun i hi => putTable_outside hw _ (by omega)

theorem poke_below {b : Buf} {o i : Nat} {xs : List UInt8} (h : i < o) : poke b o xs i = b i :=
  poke_outside (.inl h)

theorem putNum_below {ds : List Nat} {b : Buf} {o v i : Nat} (h : i < o) : putNum ds b o v i = b i :=
  putNum_outside (.inl h)

/-! ## Bit maps -/

def getBit (b : Buf) (i : Nat) : Bool := (b (i / 8)).toBitVec.getLsbD (i % 8)

def putBit (b : Buf) (i : Nat) (on : Bool) : Buf :=
  poke b (i / 8) [if on then ⟨(b (i / 8)).toBitVec ||| BitVec.twoPow 8 (i % 8)⟩
    else ⟨(b (i / 8)).toBitVec &&& ~~~ BitVec.twoPow 8 (i % 8)⟩]

theorem getBit_zeroBuf (i : Nat) : getBit zeroBuf i = false := by
  unfold getBit zeroBuf
  simp

theorem getBit_putBit (b : Buf) (i : Nat) (on : Bool) (j : Nat) :
    getBit (putBit b i on) j = if j = i then on else getBit b j := by
  by_cases hb : j / 8 = i / 8
  · have hp : putBit b i on (j / 8) = (if on then ⟨(b (i / 8)).toBitVec ||| BitVec.twoPow 8 (i % 8)⟩
        else ⟨(b (i / 8)).toBitVec &&& ~~~ BitVec.twoPow 8 (i % 8)⟩) := by
      rw [hb]; simp [putBit, poke]
    have hlt : j % 8 < 8 := Nat.mod_lt _ (by decide)
    rw [getBit, hp]
    by_cases hj : j = i
    · subst hj; cases on <;> simp [hlt]
    · have hm : j % 8 ≠ i % 8 := by omega
      cases on <;> simp [hlt, hm, hj, getBit, hb]
  · have hj : j ≠ i := fun h => hb (by rw [h])
    rw [getBit, putBit, poke_outside (by simp; omega), if_neg hj, getBit]

/-- Set the bits `i < n` for which `f i`. -/
def fillBits (f : Nat → Bool) : Nat → Buf → Buf
  | 0, b => b
  | n + 1, b => if f n then putBit (fillBits f n b) n true else fillBits f n b

theorem getBit_fillBits (f : Nat → Bool) (n : Nat) (b : Buf) (i : Nat) :
    getBit (fillBits f n b) i = ((decide (i < n) && f i) || getBit b i) := by
  induction n with
  | zero => simp [fillBits]
  | succ n ih =>
    have hlt : (decide (i < n + 1) && f i) = ((decide (i < n) && f i) || (decide (i = n) && f n)) := by
      by_cases h : i = n
      · subst h; simp
      · simp [h, show i < n + 1 ↔ i < n by omega]
    by_cases hf : f n
    · rw [fillBits, if_pos hf, getBit_putBit, ih, hlt]
      by_cases h : i = n
      · subst h; simp [hf]
      · simp [h]
    · rw [fillBits, if_neg hf, ih, hlt]
      simp [hf]

/-- The word whose bit `b` is `f b`, for `b < n`. -/
def wordOf (f : Nat → Bool) : Nat → Nat
  | 0 => 0
  | n + 1 => if f n then wordOf f n ||| 2 ^ n else wordOf f n

theorem testBit_wordOf (f : Nat → Bool) (n b : Nat) : (wordOf f n).testBit b = (decide (b < n) && f b) := by
  induction n with
  | zero => simp [wordOf]
  | succ n ih =>
    by_cases h : b = n
    · subst h
      by_cases hf : f b
      · simp [wordOf, hf, ih]
      · simp [wordOf, hf, ih]
    · have hlt : b < n + 1 ↔ b < n := by omega
      by_cases hf : f n
      · simp [wordOf, hf, ih, hlt, Ne.symm h]
      · simp [wordOf, hf, ih, hlt]

theorem wordOf_lt (f : Nat → Bool) (n : Nat) : wordOf f n < 2 ^ n := by
  refine Nat.lt_pow_two_of_testBit _ fun i hi => ?_
  rw [testBit_wordOf]
  simp [show ¬ i < n by omega]

end Filsys.Lib
