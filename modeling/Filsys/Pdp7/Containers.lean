/-
  Filsys.Pdp7.Containers — the word containers lose nothing (byteorder.c, pdp7fs.c).

  `write_words` packs its 64 words into a stack buffer nobody has cleared, and the
  packed container changes its bytes bit by bit, around what lies beside. By the last
  word every bit of the container has been set, so the container does not depend on
  what the buffer held (`putAll_agree`), and `write_words` is the one whose buffer was
  clear (`writeWordsOver_eq`).

  (1) `get` after `put` is the value put, and the other words stay;
  (2) `read_words` returns the 64 words `write_words` wrote, whatever the buffer held;
  (3) `p7fs_read_block` and `p7fs_write_block` carry all 18 bits of every word
      (`word_containers_round_trip`).
-/

import Filsys.Pdp7.Beside

namespace Filsys.Pdp7

open Filsys.Lib Filsys.Engine Filsys.Blockmap

/-! ## The routines over a buffer of unknown contents -/

/-- `write_words`, with `raw` in its stack buffer before the first word. -/
def writeWordsOver (raw : Buf) (site : Site) (bno : Nat) (words : Nat → Nat) : M Unit := do
  let fs ← getFs
  let wc := wordOps fs.desc
  let pos := fs.base + bno * wc.blockBytes
  if checkRange fs pos wc.blockBytes then failAs .eio (ioWrite site (wc.putAll words 64 raw) wc.blockBytes pos)
  else throw .einval

/-- `p7fs_read_block` into the caller's buffer, which holds `buf`. -/
def p7fsReadBlockOver (buf : Buf) (bno : Nat) : M Buf := do
  let fs ← getFs
  let words ← failAs .eio (readWords bno)
  return (wordOps fs.desc).putAll words 64 buf

/-- `p7fs_write_block`, over the same `write_words`. -/
def p7fsWriteBlockOver (raw : Buf) (site : Site) (bno : Nat) (buf : Buf) : M Unit := do
  let fs ← getFs
  if fs.readonly then throw .erofs
  else writeWordsOver raw site bno fun i => (wordOps fs.desc).get buf i

/-! ## A container of 64 words has no byte left over -/

theorem streamBit_streamBit (j : Nat) : streamBit (streamBit j) = j := by
  unfold streamBit
  omega

theorem eq_of_getBit {p q : Buf} {k : Nat}
    (h : ∀ m, m < 8 → getBit p (8 * k + m) = getBit q (8 * k + m)) : p k = q k := by
  refine UInt8.eq_of_toBitVec_eq (BitVec.eq_of_getLsbD_eq fun m hm => ?_)
  have hbit := h m hm
  unfold getBit at hbit
  rwa [show (8 * k + m) / 8 = k by omega, show (8 * k + m) % 8 = m by omega] at hbit

theorem getBit_putAll (words : Nat → Nat) (n : Nat) (p : Buf) {pos : Nat} (h : pos < 18 * n) :
    getBit (WordCodec.packed18.putAll words n p) (streamBit pos) =
    (words (pos / 18)).testBit (17 - pos % 18) := by
  induction n with
  | zero => omega
  | succ n ih =>
    have hput : WordCodec.packed18.putAll words (n + 1) p =
        putStream (n * 18) (fun b => (words n).testBit (17 - b)) 18 (WordCodec.packed18.putAll words n p) := rfl
    rw [hput, getBit_putStream]
    by_cases hin : n * 18 ≤ pos
    · rw [if_pos ⟨hin, by omega⟩, show pos / 18 = n by omega, show pos % 18 = pos - n * 18 by omega]
    · rw [if_neg fun hc => hin hc.1]
      exact ih (by omega)

theorem putAll_agree_rb09 (words : Nat → Nat) (n : Nat) (p q : Buf) {k : Nat} (hk : k < 4 * n) :
    WordCodec.rb09.putAll words n p k = WordCodec.rb09.putAll words n q k := by
  induction n with
  | zero => omega
  | succ n ih =>
    have hput : ∀ b, WordCodec.rb09.putAll words (n + 1) b =
        poke (WordCodec.rb09.putAll words n b) (4 * n)
          (ByteOrder.le.sig32.map (digit (word18 (words n)))) := fun _ => rfl
    rw [hput, hput]
    by_cases hin : k < 4 * n
    · rw [poke_outside (.inl hin), poke_outside (.inl hin)]
      exact ih hin
    · have hlen : k - 4 * n < (ByteOrder.le.sig32.map (digit (word18 (words n)))).length := by
        simp only [List.length_map, ByteOrder.length_sig32]
        omega
      rw [show k = 4 * n + (k - 4 * n) by omega, poke_inside hlen, poke_inside hlen]

theorem putAll_agree_rim (words : Nat → Nat) (n : Nat) (p q : Buf) {k : Nat} (hk : k < 3 * n) :
    WordCodec.rim.putAll words n p k = WordCodec.rim.putAll words n q k := by
  induction n with
  | zero => omega
  | succ n ih =>
    have hput : ∀ b, WordCodec.rim.putAll words (n + 1) b = poke (WordCodec.rim.putAll words n b) (3 * n)
        [UInt8.ofNat (words n / 4096 % 64), UInt8.ofNat (words n / 64 % 64),
          UInt8.ofNat (words n % 64)] := fun _ => rfl
    rw [hput, hput]
    by_cases hin : k < 3 * n
    · rw [poke_outside (.inl hin), poke_outside (.inl hin)]
      exact ih hin
    · have hlen : k - 3 * n < 3 := by omega
      rw [show k = 3 * n + (k - 3 * n) by omega, poke_inside hlen, poke_inside hlen]

/-- What the buffer held before the words were put in is nowhere in the container. -/
theorem putAll_agree (c : WordCodec) (words : Nat → Nat) (p q : Buf) {k : Nat} (hk : k < c.blockBytes) :
    c.putAll words 64 p k = c.putAll words 64 q k := by
  cases c with
  | rb09 => exact putAll_agree_rb09 words 64 p q hk
  | rim => exact putAll_agree_rim words 64 p q hk
  | packed18 =>
    have hlt : k < 144 := hk
    refine eq_of_getBit fun m hm => ?_
    have hpos : streamBit (8 * k + m) < 18 * 64 := by
      unfold streamBit
      omega
    rw [← streamBit_streamBit (8 * k + m), getBit_putAll words 64 p hpos, getBit_putAll words 64 q hpos]

theorem splice_congr {dst src src' : Buf} {doff n : Nat} (h : ∀ k, k < n → src k = src' k) :
    splice dst doff src 0 n = splice dst doff src' 0 n := by
  funext i
  unfold splice
  by_cases hi : doff ≤ i ∧ i < doff + n
  · rw [if_pos hi, if_pos hi, h _ (by omega)]
  · rw [if_neg hi, if_neg hi]

theorem ioWrite_congr {site : Site} {buf buf' : Buf} {n off : Nat} (h : ∀ k, k < n → buf k = buf' k) :
    ioWrite site buf n off = ioWrite site buf' n off := by
  funext s
  rw [ioWrite_eq, ioWrite_eq]
  unfold wrote
  rw [splice_congr h]

theorem writeWordsOver_eq (raw : Buf) (site : Site) (bno : Nat) (words : Nat → Nat) :
    writeWordsOver raw site bno words = writeWords site bno words := by
  unfold writeWordsOver writeWords
  refine congrArg (getFs >>= ·) (funext fun fs => ?_)
  exact ite_congr rfl (fun _ => congrArg (failAs .eio) (ioWrite_congr fun k hk =>
    putAll_agree _ words raw zeroBuf hk)) fun _ => rfl

theorem p7fsWriteBlockOver_eq (raw : Buf) (site : Site) (bno : Nat) (buf : Buf) :
    p7fsWriteBlockOver raw site bno buf = p7fsWriteBlock site bno buf := by
  unfold p7fsWriteBlockOver p7fsWriteBlock
  refine congrArg (getFs >>= ·) (funext fun fs => ?_)
  rw [writeWordsOver_eq]

/-! ## Round trips -/

theorem word18_get (c : WordCodec) (b : Buf) (i : Nat) : word18 (c.get b i) = c.get b i :=
  Nat.mod_eq_of_lt (c.get_lt b i)

/-- Block `b` is out of the image's range, or one of the next two transfers fails. -/
def Barred (s : Mnt) (b : Nat) : Prop :=
  checkRange s.fs (wordPos s.fs b) (wordOps s.fs.desc).blockBytes = false ∨ s.env.fails s.ios = true ∨
  s.env.fails (s.ios + 1) = true

/-- The mount after `write_words`. -/
def wroteWords (site : Site) (b : Nat) (words : Nat → Nat) (s : Mnt) : Mnt :=
  wrote site ((wordOps s.fs.desc).putAll words 64 zeroBuf) (wordOps s.fs.desc).blockBytes (wordPos s.fs b) s

theorem img_wroteWords {s : Mnt} (hs : Solo s) (site : Site) (b : Nat) (words : Nat → Nat) :
    (wroteWords site b words s).img = putWordBlock s.fs s.img b words := by
  show splice (touch s).img _ _ 0 _ = _
  rw [touch_solo hs]
  rfl

/-- Written and read back, the 64 words are the words written. -/
theorem post_writeWords_readWords {s : Mnt} (hs : Solo s) (site : Site) (b : Nat) (words : Nat → Nat) :
    Post (writeWords site b words s)
      (fun _ t => t.fs = s.fs ∧ Post (readWords b t) (fun w _ => ∀ i, i < 64 →
        w i = word18 (words i)) fun _ _ => Barred s b)
      fun _ _ => Barred s b := by
  refine post_bindFs (post_ite (fun hc => ?_) fun hc => .inl (Bool.eq_false_iff.mpr hc))
  refine post_failAs (post_ioWrite (fun _ => ⟨rfl, ?_⟩) fun hf => .inr (.inl hf))
  refine post_bindFs (post_ite (fun _ => ?_) fun hout => absurd hc hout)
  refine post_bind (post_failAs (post_ioRead ?_ ?_))
  · intro _ _
    have hsolo : Solo (wroteWords site b words s) := hs
    intro i hi
    show (wordOps s.fs.desc).get (window (touch (wroteWords site b words s)).img (wordPos s.fs b) _) i = _
    rw [touch_solo hsolo]
    show (wordOps s.fs.desc).get (window (wroteWords site b words s).img (wordPos s.fs b) _) i = _
    rw [img_wroteWords hs]
    exact wordsOf_putWordBlock s.fs s.img b words hi
  · intro hf
    -- The write has left the image at least as long as the block needs.
    refine hf.elim (fun hf => .inr (.inr hf)) fun hshort => ?_
    exact absurd (Nat.lt_of_lt_of_le hshort (Nat.le_max_right s.size _)) (Nat.lt_irrefl _)

theorem post_readWords_solo {s : Mnt} (hs : Solo s) (b : Nat) :
    Post (readWords b s) (fun w _ => w = wordsOf s.fs s.img b)
      fun _ _ => s.size < wordPos s.fs b + (wordOps s.fs.desc).blockBytes ∨ Barred s b := by
  refine post_bindFs (post_ite (fun hc => ?_) fun hc => .inr (.inl (Bool.eq_false_iff.mpr hc)))
  refine post_bind (post_failAs (post_ioRead ?_ ?_))
  · intro _ _
    rw [touch_solo hs]
    rfl
  · intro hf
    exact hf.elim (fun hf => .inr (.inr (.inl hf))) .inl

theorem post_p7fsReadBlockOver {s : Mnt} {buf : Buf} {b : Nat} {Q : Buf → Mnt → Prop} {E : Errno → Mnt → Prop}
    (h : Post (readWords b s) (fun w t => Q ((wordOps s.fs.desc).putAll w 64 buf) t) fun _ t => E .eio t) :
    Post (p7fsReadBlockOver buf b s) Q E := post_bindFs (post_bind (post_failAs h))

/-- What `p7fs_write_block` stores, `p7fs_read_block` returns, all 18 bits of each word. -/
theorem post_write_read_block {s : Mnt} (hs : Solo s) (site : Site) (b : Nat) (buf buf' : Buf) :
    Post ((p7fsWriteBlock site b buf >>= fun _ => p7fsReadBlockOver buf' b) s)
      (fun out _ => ∀ i, i < 64 → (wordOps s.fs.desc).get out i = (wordOps s.fs.desc).get buf i)
      fun _ _ => s.fs.readonly = true ∨ Barred s b := by
  refine post_bind (post_bindFs (post_ite (fun hro => .inl hro) fun _ => ?_))
  refine (post_writeWords_readWords hs site b _).mono (fun _ t ht => post_p7fsReadBlockOver ?_)
    fun _ _ hbar => .inr hbar
  obtain ⟨hfs, hread⟩ := ht
  refine hread.mono (fun w u hw i hi => ?_) fun _ _ hbar => .inr hbar
  rw [hfs, WordCodec.get_putAll, if_pos hi, hw i hi, word18_get, word18_get]

/-- (1)–(3): the containers, the blocks of words and the blocks of bytes round trip. -/
theorem word_containers_round_trip :
    (∀ (c : WordCodec) (buf : Buf) (i j v : Nat), i < 64 → j < 64 → v < 2 ^ 18 →
      c.get (c.put buf i v) i = v ∧ (j ≠ i → c.get (c.put buf i v) j = c.get buf j)) ∧
    (∀ (s : Mnt) (raw : Buf) (site : Site) (b : Nat) (words : Nat → Nat), Solo s →
      (∀ i, i < 64 → words i < 2 ^ 18) →
      Post ((writeWordsOver raw site b words >>= fun _ => readWords b) s)
      (fun w _ => ∀ i, i < 64 → w i = words i)
        fun _ _ => Barred s b) ∧
    (∀ (s : Mnt) (buf : Buf) (b : Nat), Solo s →
      Post (p7fsReadBlockOver buf b s)
        (fun out _ => ∀ i, i < 64 → (wordOps s.fs.desc).get out i = wordsOf s.fs s.img b i)
        fun _ _ => s.size < wordPos s.fs b + (wordOps s.fs.desc).blockBytes ∨ Barred s b) ∧
    ∀ (s : Mnt) (raw buf buf' : Buf) (site : Site) (b : Nat), Solo s →
      Post ((p7fsWriteBlockOver raw site b buf >>= fun _ => p7fsReadBlockOver buf' b) s)
        (fun out _ => ∀ i, i < 64 → (wordOps s.fs.desc).get out i = (wordOps s.fs.desc).get buf i)
        fun _ _ => s.fs.readonly = true ∨ Barred s b := by
  refine ⟨fun c buf i j v _ _ hv => ?_, fun s raw site b words hs hlt => ?_, fun s buf b hs => ?_,
    fun s raw buf buf' site b hs => ?_⟩
  · constructor
    · rw [WordCodec.get_put, if_pos rfl]
      exact Nat.mod_eq_of_lt hv
    · intro hne
      rw [WordCodec.get_put, if_neg hne]
  · rw [writeWordsOver_eq]
    refine post_bind ((post_writeWords_readWords hs site b words).mono (fun _ t ht => ?_) fun _ _ hbar => hbar)
    refine ht.2.mono (fun w _ hw i hi => ?_) fun _ _ hbar => hbar
    rw [hw i hi]
    exact Nat.mod_eq_of_lt (hlt i hi)
  · refine post_p7fsReadBlockOver ((post_readWords_solo hs b).mono (fun w t hw i hi => ?_) fun _ _ hbar => hbar)
    rw [hw, WordCodec.get_putAll, if_pos hi]
    exact Nat.mod_eq_of_lt (wordsOf_lt _ _ _ _)
  · rw [p7fsWriteBlockOver_eq]
    exact post_write_read_block hs site b buf buf'

/-- A surface in packed words. -/
def packedSurface (img : Buf) : Mnt where
  fs := { desc := { descPdp7 with word := some .packed18 }, imgsize := p7Nblocks * 144 }
  img := img
  size := p7Nblocks * 144

/-- On an empty surface in packed words, over a dirty buffer. -/
theorem a_packed_surface_round_trips :
    WordCodec.packed18.get (WordCodec.packed18.put (fun _ => 255) 5 131071) 5 = 131071 ∧
    Post ((writeWordsOver (fun _ => 255) .block 3 (fun i => i) >>= fun _ => readWords 3)
      (packedSurface zeroBuf))
      (fun w _ => ∀ i, i < 64 → w i = i) (fun _ _ => Barred (packedSurface zeroBuf) 3) ∧
      ¬ Barred (packedSurface zeroBuf) 3 := by
  obtain ⟨hcodec, hwords, -, -⟩ := word_containers_round_trip
  refine ⟨(hcodec .packed18 _ 5 0 131071 (by decide) (by decide) (by decide)).1, ?_, ?_⟩
  · exact hwords (packedSurface zeroBuf) (fun _ => 255) .block 3 (fun i => i) (fun _ _ => rfl) fun i hi => by
      omega
  · rintro (h | h | h) <;> exact absurd h (by decide)

end Filsys.Pdp7
