/-
  Filsys.Engine.Words — a mounted PDP-7 volume, one block of words at a time.

  The three word containers differ in where the bits of a word lie; what is put into
  word `i` of a block is read back from word `i` and no other word moves, so a block
  written is the block read, 18 bits a word (`wordsOf_putWordBlock`).
-/

import Filsys.Engine.Disk

namespace Filsys.Engine

open Filsys.Lib

/-! ## The 18-bit stream -/

theorem streamBit_inj {a b : Nat} (h : streamBit a = streamBit b) : a = b := by
  unfold streamBit at h
  omega

/-- Put the bits `f 0, f 1, …` at stream positions `o, o + 1, …`. -/
def putStream (o : Nat) (f : Nat → Bool) (n : Nat) (p : Buf) : Buf :=
  (List.range n).foldl (fun p b => putBit p (streamBit (o + b)) (f b)) p

theorem getBit_putStream (o : Nat) (f : Nat → Bool) (n : Nat) (p : Buf) (pos : Nat) :
    getBit (putStream o f n p) (streamBit pos) = if o ≤ pos ∧ pos < o + n then f (pos - o)
    else getBit p (streamBit pos) := by
  induction n with
  | zero => rw [if_neg (by omega)]; rfl
  | succ n ih =>
    have hstep : putStream o f (n + 1) p = putBit (putStream o f n p) (streamBit (o + n)) (f n) := by
      unfold putStream
      rw [List.range_succ, List.foldl_append]
      rfl
    rw [hstep, getBit_putBit, ih]
    by_cases h : pos = o + n
    · subst h
      rw [if_pos rfl, if_pos (by omega), Nat.add_sub_cancel_left]
    · rw [if_neg fun he => h (streamBit_inj he)]
      by_cases hin : o ≤ pos ∧ pos < o + n
      · rw [if_pos hin, if_pos (by omega)]
      · rw [if_neg hin, if_neg (by omega)]

/-- Read high bit first, the top `n` of the low `n + k` bits of `v` are `v / 2^k`. -/
theorem foldl_testBit (v k n : Nat) :
    (List.range n).foldl (fun acc b => acc * 2 + (v.testBit (n + k - 1 - b)).toNat) 0 = v / 2 ^ k % 2 ^ n := by
  induction n generalizing k with
  | zero => simp [Nat.mod_one]
  | succ n ih =>
    rw [List.range_succ, List.foldl_append]
    have hfun : (fun acc b => acc * 2 + (v.testBit (n + 1 + k - 1 - b)).toNat) =
        fun acc b => acc * 2 + (v.testBit (n + (k + 1) - 1 - b)).toNat := by
      funext acc b
      rw [show n + 1 + k = n + (k + 1) by omega]
    rw [hfun, ih (k + 1)]
    show v / 2 ^ (k + 1) % 2 ^ n * 2 + (v.testBit (n + (k + 1) - 1 - n)).toNat = _
    rw [show n + (k + 1) - 1 - n = k by omega, Nat.pow_succ, ← Nat.div_div_eq_div_mul]
    have hbit : (v.testBit k).toNat = v / 2 ^ k % 2 := by
      rw [Nat.testBit_eq_decide_div_mod_eq]
      have := Nat.mod_two_eq_zero_or_one (v / 2 ^ k)
      rcases this with h | h <;> simp [h]
    rw [hbit, Nat.pow_succ, Nat.mul_comm (2 ^ n) 2, Nat.mod_mul]
    omega

theorem boGet18packed_eq {p : Buf} {i : Nat} {f : Nat → Bool}
    (h : ∀ b, b < 18 → getBit p (streamBit (i * 18 + b)) = f b) :
    boGet18packed p i = (List.range 18).foldl (fun acc b => acc * 2 + (f b).toNat) 0 :=
  List.foldl_ext _ _ _ fun acc b hb => by rw [h b (List.mem_range.mp hb)]

theorem boGet18packed_put (p : Buf) (i j v : Nat) :
    boGet18packed (boPut18packed p i v) j = if j = i then word18 v else boGet18packed p j := by
  have hput : boPut18packed p i v = putStream (i * 18) (fun b => v.testBit (17 - b)) 18 p := rfl
  split
  · rename_i h
    subst h
    have hread := boGet18packed_eq (p := boPut18packed p j v) (i := j) (f :=
      fun b => v.testBit (18 + 0 - 1 - b)) (by
      intro b hb
      rw [hput, getBit_putStream, if_pos (by omega), Nat.add_sub_cancel_left])
    rw [hread, foldl_testBit]
    simp [word18]
  · rename_i h
    refine boGet18packed_eq fun b hb => ?_
    rw [hput, getBit_putStream, if_neg]
    have : j < i ∨ i < j := by omega
    omega

/-! ## Word containers -/

theorem getBit_congr {p q : Buf} {i : Nat} (h : p (i / 8) = q (i / 8)) : getBit p i = getBit q i := by
  unfold getBit
  rw [h]

namespace WordCodec

theorem get_congr (c : WordCodec) {p q : Buf} {i : Nat} (hi : i < 64) (h : ∀ k, k < c.blockBytes → p k = q k) :
    c.get p i = c.get q i := by
  cases c with
  | rb09 =>
    show word18 (boGet32le p (4 * i)) = word18 (boGet32le q (4 * i))
    unfold boGet32le ByteOrder.get32
    rw [@num_congr p q ByteOrder.le.sig32 (4 * i) (4 * i) fun k hk => h _ ?_]
    have hk' : k < 4 := hk
    show _ < 256
    omega
  | packed18 =>
    show boGet18packed p i = boGet18packed q i
    refine boGet18packed_eq fun b hb => getBit_congr (h _ ?_)
    show streamBit (i * 18 + b) / 8 < 144
    unfold streamBit
    omega
  | rim =>
    have h' : ∀ k, k < 192 → p k = q k := h
    show (p (3 * i)).toNat % 64 * 4096 + (p (3 * i + 1)).toNat % 64 * 64 + (p (3 * i + 2)).toNat % 64 = _
    rw [h' _ (by omega), h' _ (by omega), h' _ (by omega)]
    rfl

theorem get_put (c : WordCodec) (b : Buf) (i j v : Nat) :
    c.get (c.put b i v) j = if j = i then word18 v else c.get b j := by
  cases c with
  | rb09 =>
    show word18 (num ByteOrder.le.sig32 (putNum ByteOrder.le.sig32 b (4 * i) (word18 v)) (4 * j)) = _
    split
    · rename_i h
      subst h
      rw [num_putNum (ByteOrder.perm_sig32 _)]
      simp only [ByteOrder.length_sig32, word18]
      omega
    · rename_i h
      rw [num_putNum_apart (by simp only [ByteOrder.length_sig32]; omega)]
      rfl
  | packed18 => exact boGet18packed_put b i j v
  | rim =>
    have hget : ∀ p : Buf, get rim p j = (p (3 * j)).toNat % 64 * 4096 + (p (3 * j + 1)).toNat % 64 *
      64 + (p (3 * j + 2)).toNat % 64 :=
      fun _ => rfl
    rw [hget]
    show ((poke b (3 * i) _) (3 * j)).toNat % 64 * 4096 + ((poke b (3 * i) _) (3 * j + 1)).toNat % 64 * 64 +
      ((poke b (3 * i) _) (3 * j + 2)).toNat % 64 = _
    split
    · rename_i h
      subst h
      rw [show poke b (3 * j) _ (3 * j) = _ from poke_inside (k := 0) (by simp),
        show poke b (3 * j) _ (3 * j + 1) = _ from poke_inside (k := 1) (by simp),
        show poke b (3 * j) _ (3 * j + 2) = _ from poke_inside (k := 2) (by simp)]
      simp only [List.getD_cons_zero, List.getD_cons_succ, UInt8.toNat_ofNat', word18]
      omega
    · rename_i h
      rw [poke_outside (by simp only [List.length_cons, List.length_nil]; omega),
        poke_outside (by simp only [List.length_cons, List.length_nil]; omega),
        poke_outside (by simp only [List.length_cons, List.length_nil]; omega), hget]

theorem get_putAll (c : WordCodec) (words : Nat → Nat) (n : Nat) (b : Buf) (i : Nat) :
    c.get (c.putAll words n b) i = if i < n then word18 (words i) else c.get b i := by
  induction n with
  | zero => rw [if_neg (Nat.not_lt_zero _)]; rfl
  | succ n ih =>
    rw [putAll, get_put, ih]
    by_cases h : i = n
    · subst h
      rw [if_pos rfl, if_pos (Nat.lt_succ_self _)]
    · rw [if_neg h]
      by_cases hlt : i < n
      · rw [if_pos hlt, if_pos (by omega)]
      · rw [if_neg hlt, if_neg (by omega)]

theorem get_lt (c : WordCodec) (b : Buf) (i : Nat) : c.get b i < 2 ^ 18 := by
  cases c with
  | rb09 => exact Nat.mod_lt _ (by decide)
  | packed18 =>
    have key : ∀ n : Nat, (List.range n).foldl (fun v k => v * 2 +
      (getBit b (streamBit (i * 18 + k))).toNat) 0 < 2 ^ n := by
      intro n
      induction n with
      | zero => exact Nat.one_pos
      | succ n ih =>
        rw [List.range_succ, List.foldl_append, Nat.pow_succ]
        show _ * 2 + _ < _
        have := Bool.toNat_le (getBit b (streamBit (i * 18 + n)))
        omega
    exact key 18
  | rim =>
    show _ * 4096 + _ * 64 + _ < 2 ^ 18
    omega

end WordCodec

/-! ## A mounted volume -/

/-- A read-write mount of a PDP-7 volume that no other process writes to. -/
structure Mounted7 (s : Mnt) : Prop where
  solo : Solo s
  /-- An open settles the byte order, which nothing reads, and the word container. -/
  format : ∃ bo wc, s.fs.desc = { descPdp7 with bo := bo, word := wc }
  writable : s.fs.readonly = false
  imgsize : s.fs.imgsize = s.size
  room : 0 < s.size

/-- Where block `b` lies. -/
def wordPos (fs : Fs) (b : Nat) : Nat := fs.base + b * (wordOps fs.desc).blockBytes

/-- The words of block `b` of an image. -/
def wordsOf (fs : Fs) (img : Buf) (b : Nat) : Nat → Nat :=
  fun i => (wordOps fs.desc).get (window img (wordPos fs b) (wordOps fs.desc).blockBytes) i

/-- Block `b` lies in the image. -/
def WordsIn (s : Mnt) (b : Nat) : Prop := wordPos s.fs b + (wordOps s.fs.desc).blockBytes ≤ s.size

instance (s : Mnt) (b : Nat) : Decidable (WordsIn s b) := inferInstanceAs (Decidable (_ ≤ _))

theorem shape_wordsOf {fs fs' : Fs} (h : shape fs' = shape fs) : wordsOf fs' = wordsOf fs := by
  funext img b
  unfold wordsOf wordPos
  rw [shape_desc h, shape_base h]

theorem wordsIn_of_sameVol {s t : Mnt} (h : SameVol s t) (b : Nat) : WordsIn t b ↔ WordsIn s b := by
  unfold WordsIn wordPos
  rw [shape_desc h.shape, shape_base h.shape, h.size]

theorem wordsIn_of_lt {s : Mnt} {b x : Nat} (h : b < x) (hx : WordsIn s x) : WordsIn s b := by
  have hle : b * (wordOps s.fs.desc).blockBytes ≤ x * (wordOps s.fs.desc).blockBytes :=
    Nat.mul_le_mul_right _ (Nat.le_of_lt h)
  unfold WordsIn wordPos at *
  omega

theorem wordsOf_lt (fs : Fs) (img : Buf) (b i : Nat) : wordsOf fs img b i < 2 ^ 18 := WordCodec.get_lt _ _ _

/-- The image with the words of block `b` overwritten. -/
def putWordBlock (fs : Fs) (img : Buf) (b : Nat) (words : Nat → Nat) : Buf :=
  splice img (wordPos fs b) ((wordOps fs.desc).putAll words 64 zeroBuf) 0 (wordOps fs.desc).blockBytes

theorem wordsOf_putWordBlock (fs : Fs) (img : Buf) (b : Nat) (words : Nat → Nat) {i : Nat} (hi : i < 64) :
    wordsOf fs (putWordBlock fs img b words) b i = word18 (words i) := by
  have hraw := WordCodec.get_congr (wordOps fs.desc) hi
    (p := window (putWordBlock fs img b words) (wordPos fs b) (wordOps fs.desc).blockBytes)
    (q := (wordOps fs.desc).putAll words 64 zeroBuf) (by
      intro k hk
      rw [window_inside hk, putWordBlock, splice_inside hk, Nat.zero_add])
  exact hraw.trans (((wordOps fs.desc).get_putAll words 64 zeroBuf i).trans (if_pos hi))

theorem wordsOf_putWordBlock_ne {fs : Fs} {b b' : Nat} (h : b' ≠ b) (img : Buf) (words : Nat → Nat) :
    wordsOf fs (putWordBlock fs img b words) b' = wordsOf fs img b' := by
  have hwin : window (putWordBlock fs img b words) (wordPos fs b') (wordOps fs.desc).blockBytes =
      window img (wordPos fs b') (wordOps fs.desc).blockBytes := by
    refine window_congr fun k hlo hhi => splice_outside ?_
    have := block_disjoint fs.base (wordOps fs.desc).blockBytes h
    unfold wordPos at *
    omega
  unfold wordsOf
  rw [hwin]

/-- The words of block `b` written. -/
def putWords (site : Site) (b : Nat) (words : Nat → Nat) (s : Mnt) : Mnt :=
  put site ((wordOps s.fs.desc).putAll words 64 zeroBuf) (wordOps s.fs.desc).blockBytes (wordPos s.fs b) s

@[simp] theorem putWords_fs (site : Site) (b : Nat) (words : Nat → Nat) (s : Mnt) :
    (putWords site b words s).fs = s.fs := rfl
@[simp] theorem putWords_img (site : Site) (b : Nat) (words : Nat → Nat) (s : Mnt) :
    (putWords site b words s).img = putWordBlock s.fs s.img b words := rfl

theorem putWords_sameVol (site : Site) (b : Nat) (words : Nat → Nat) (s : Mnt) :
    SameVol s (putWords site b words s) :=
  ⟨rfl, rfl, rfl⟩

namespace Mounted7

variable {s : Mnt} (hm : Mounted7 s)

include hm

theorem of_sameVol {t : Mnt} (h : SameVol s t) : Mounted7 t where
  solo := by
    intro k img
    rw [h.env]
    exact hm.solo k img
  format := by rw [shape_desc h.shape]; exact hm.format
  writable := (congrArg Shape.readonly h.shape).trans hm.writable
  imgsize := (congrArg Shape.imgsize h.shape).trans (hm.imgsize.trans h.size.symm)
  room := by rw [h.size]; exact hm.room

theorem pdp7 : s.fs.desc.ops = .pdp7 := by
  obtain ⟨bo, wc, h⟩ := hm.format
  rw [h]
  rfl

theorem nindir : s.fs.desc.nindir = 64 := by
  obtain ⟨bo, wc, h⟩ := hm.format
  rw [h]
  rfl

theorem readBlock_eq (b : Nat) : readBlock b s = p7fsReadBlock b s := by
  unfold readBlock
  rw [bindFs_run]
  rw [hm.pdp7]

theorem readInode_eq (n : Nat) : readInode n s = p7fsReadInode n s := by
  unfold readInode
  rw [bindFs_run]
  rw [hm.pdp7]

theorem checkRange_iff {b : Nat} :
    checkRange s.fs (wordPos s.fs b) (wordOps s.fs.desc).blockBytes = true ↔ WordsIn s b := by
  unfold checkRange WordsIn
  rw [hm.imgsize]
  have := hm.room
  simp only [Bool.or_eq_true, beq_iff_eq, Bool.and_eq_true, decide_eq_true_eq]
  omega

theorem post_readWords {b : Nat} {Q : (Nat → Nat) → Mnt → Prop} {E : Errno → Mnt → Prop}
    (hok : WordsIn s b → s.env.fails s.ios = false → Q (wordsOf s.fs s.img b) (ticked s))
    (hbad : ¬ WordsIn s b → ∀ e, E e s) (herr : s.env.fails s.ios = true → ∀ e, E e (ticked s)) :
    Post (readWords b s) Q E := by
  refine post_bindFs (post_ite (fun hc => ?_) fun hc => hbad (fun h => hc (hm.checkRange_iff.mpr h)) _)
  have hin := hm.checkRange_iff.mp hc
  refine post_bind (post_failAs (post_ioRead ?_ ?_))
  · intro hf _
    rw [touch_solo hm.solo]
    exact hok hin hf
  · intro hf
    rw [touch_solo hm.solo]
    unfold WordsIn wordPos at hin
    exact herr (hf.resolve_right (by omega)) _

theorem post_writeWords {site : Site} {b : Nat} {words : Nat → Nat}
    {Q : Unit → Mnt → Prop} {E : Errno → Mnt → Prop}
    (hok : WordsIn s b → s.env.fails s.ios = false → Q () (putWords site b words s))
    (hbad : ¬ WordsIn s b → ∀ e, E e s) (herr : s.env.fails s.ios = true → ∀ e, E e (ticked s)) :
    Post (writeWords site b words s) Q E := by
  refine post_bindFs (post_ite (fun hc => ?_) fun hc => hbad (fun h => hc (hm.checkRange_iff.mpr h)) _)
  have hin := hm.checkRange_iff.mp hc
  refine post_failAs (post_ioWrite ?_ ?_)
  · intro hf
    have hput := @wrote_solo s hm.solo site ((wordOps s.fs.desc).putAll words 64 zeroBuf) _ _ hin
    exact hput ▸ hok hin hf
  · intro hf
    rw [touch_solo hm.solo]
    exact herr hf _

end Mounted7

end Filsys.Engine
