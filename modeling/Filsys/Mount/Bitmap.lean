/-
  Filsys.Mount.Bitmap — the V8 family's superblock and free map, written and read back
  (alloc_v8bitmap.c).

  The tail of the superblock is a free list, a bitmap packed into longwords, or two flags
  that say the bitmap lies in the last blocks of the volume. Whatever the geometry, a sync
  and the decode of the next open give back the inode cache, the totals, and the list or
  every bit of the map, the partial last block of a map included (`free_map_round_trip`);
  the sync touches the superblock and the bitmap's own blocks alone.
-/

import Filsys.Mount.Codec
import Filsys.Mount.Opened

namespace Filsys.Mount

open Filsys.Lib Filsys.Engine

/-! ## The superblock as a record -/

/-- The tail of the superblock. -/
def v8FreeFields (fs : Fs) : List Field :=
  let bo := fs.desc.bo
  match fs.desc.freemap with
  | .list =>
    [.word bo.sig16 248 fs.nfree, .table bo.sig32 252 4 fs.desc.nicfree fs.free (ByteOrder.length_sig32 _)]
  | .bitmap => [.bytes 248 [1], .table bo.sig32 252 4 961 (v8Word fs) (ByteOrder.length_sig32 _)]
  | .bigmap => [.bytes 248 [1], .bytes 249 [1], .word bo.sig32 252 (fs.desc.bsize * 8)]

def v8Fields (fs : Fs) (now : Nat) : List Field :=
  let bo := fs.desc.bo
  [.word bo.sig16 0 fs.isize, .word bo.sig32 4 fs.fsize, .word bo.sig16 8 fs.ninode,
    .table bo.sig16 10 2 100 fs.inode (ByteOrder.length_sig16 _),
    .word bo.sig32 216 now, .bytes 212 [if fs.fmod != 0 then 1 else 0], .word bo.sig32 220 fs.tfree,
    .word bo.sig16 224 fs.tinode]
  ++ v8FreeFields fs

theorem v8SbEncode_eq (fs : Fs) (now : Nat) (sb : Buf) :
    v8SbEncode fs now sb = record (v8Fields fs now) sb := by
  unfold v8SbEncode v8Fields v8FreeFields
  cases fs.desc.freemap with
  | list => rfl
  | bitmap => rfl
  | bigmap => rfl

/-- What a geometry leaves of the format: the tail fits the superblock. -/
structure GeomFacts (d : Desc) : Prop where
  codec : d.sbCodec = true
  static : d.dynBsize = false
  nicinod : d.nicinod = 100
  list : d.freemap = .list → 252 + 4 * d.nicfree ≤ d.bsize
  depth : d.nicfree < 256 ^ 2
  bitmap : d.freemap = .bitmap → 4096 ≤ d.bsize
  bigmap : d.freemap = .bigmap → 4096 ≤ d.bsize

/-- The geometries `filsys_apply_geom` accepts. -/
def GeomFormat (d : Desc) : Prop :=
  ∃ ed g, (ed = .v8 ∨ ed = .v9 ∨ ed = .v10) ∧ filsysApplyGeom (filsysGetformat ed) ed g = .ok d

theorem GeomFormat.facts {d : Desc} (h : GeomFormat d) : GeomFacts d := by
  obtain ⟨ed, g, hed, hd⟩ := h
  obtain ⟨bo, bs, fm, rfl, -, rfl⟩ := applyGeom_shape hd
  rcases hed with rfl | rfl | rfl <;> cases fm <;> constructor <;> simp [filsysGetformat, descV8]

section Record

variable {fs : Fs} (hd : GeomFacts fs.desc) (now : Nat)

omit hd in
theorem v8Fields_apart : ((v8Fields fs now).map Field.span).Pairwise Field.Apart := by
  unfold v8Fields v8FreeFields
  cases fs.desc.freemap with
  | list => simp [Field.Apart]
  | bitmap => simp [Field.Apart]
  | bigmap => simp [Field.Apart]

include hd

theorem v8Fields_within : ∀ f ∈ v8Fields fs now, f.off + f.len ≤ superLen fs := by
  have hlen : superLen fs = fs.desc.bsize := if_neg (by simp [hd.static])
  have hspan : ∀ p ∈ (v8Fields fs now).map Field.span, p.1 + p.2 ≤ fs.desc.bsize := by
    unfold v8Fields v8FreeFields
    cases hf : fs.desc.freemap with
    | list =>
      have := hd.list hf
      simp
      omega
    | bitmap =>
      have := hd.bitmap hf
      simp
      omega
    | bigmap =>
      have := hd.bigmap hf
      simp
      omega
  intro f hf
  rw [hlen]
  exact hspan _ (List.mem_map_of_mem hf)

theorem get16_v8 {o v : Nat} (sb : Buf) (hf : Field.word fs.desc.bo.sig16 o v ∈ v8Fields fs now)
    (hv : v < 256 ^ 2) :
    fs.desc.bo.get16 (window (v8SbEncode fs now sb) 0 (superLen fs)) o = v := by
  rw [v8SbEncode_eq]
  exact num_window_record (v8Fields_apart now) (v8Fields_within hd now) (ByteOrder.perm_sig16 _) hf sb
    (by rwa [ByteOrder.length_sig16])

theorem get32_v8 {o v : Nat} (sb : Buf) (hf : Field.word fs.desc.bo.sig32 o v ∈ v8Fields fs now)
    (hv : v < 256 ^ 4) :
    fs.desc.bo.get32 (window (v8SbEncode fs now sb) 0 (superLen fs)) o = v := by
  rw [v8SbEncode_eq]
  exact num_window_record (v8Fields_apart now) (v8Fields_within hd now) (ByteOrder.perm_sig32 _) hf sb
    (by rwa [ByteOrder.length_sig32])

theorem table_v8 {ds : List Nat} (hp : ds.Perm (List.range ds.length)) {off stride n : Nat}
    {f : Nat → Nat} (hs : ds.length = stride)
    (sb : Buf) (hf : Field.table ds off stride n f hs ∈ v8Fields fs now) {i : Nat} (hi : i < n)
    (hv : f i < 256 ^ stride) :
    num ds (window (v8SbEncode fs now sb) 0 (superLen fs)) (off + stride * i) = f i := by
  rw [v8SbEncode_eq]
  exact num_window_table (v8Fields_apart now) (v8Fields_within hd now) hp hs hf hi sb hv

end Record

/-! ## What a sync keeps -/

/-- Every field of the state fits the bytes it has on disk, and the counts their caches. -/
structure V8Fits (fs : Fs) : Prop where
  isize : fs.isize < 256 ^ 2
  fsize : fs.fsize + fs.desc.bsize * 8 < 256 ^ 4
  ninode : fs.ninode ≤ fs.desc.nicinod
  inode : ∀ i, i < fs.desc.nicinod → fs.inode i < 256 ^ 2
  tfree : fs.tfree < 256 ^ 4
  tinode : fs.tinode < 256 ^ 2
  list : fs.desc.freemap = .list → fs.nfree ≤ fs.desc.nicfree ∧ ∀ i, i < fs.desc.nicfree → fs.free i < 256 ^ 4

/-- The extent of the map is the one `v8_bitmap_load` gave it. -/
structure MapExtent (fs : Fs) : Prop where
  bitmap : fs.desc.freemap = .bitmap → fs.v8Base = fs.isize ∧ fs.v8Nbits = fs.fsize - fs.isize ∧
    fs.v8Nbits ≤ 30752 ∧ fs.v8Nblks = 0
  bigmap : fs.desc.freemap = .bigmap → fs.v8Base = 0 ∧ fs.v8Nbits = fs.fsize ∧
    fs.v8Nblks = (fs.fsize + fs.desc.bsize * 8 - 1) / (fs.desc.bsize * 8) ∧
    fs.v8BlkStart = fs.fsize - fs.v8Nblks

/-- `fs'` has the inode cache and the totals of `fs`, and its list if it has one. -/
structure Counts (fs fs' : Fs) : Prop where
  desc : fs'.desc = fs.desc
  isize : fs'.isize = fs.isize
  fsize : fs'.fsize = fs.fsize
  ninode : fs'.ninode = fs.ninode
  inode : ∀ i, i < fs.desc.nicinod → fs'.inode i = fs.inode i
  tfree : fs'.tfree = fs.tfree
  tinode : fs'.tinode = fs.tinode
  list : fs.desc.freemap = .list → fs'.nfree = fs.nfree ∧ ∀ i, i < fs.desc.nicfree → fs'.free i = fs.free i
  noList : fs.desc.freemap ≠ .list → fs'.nfree = 0

/-- And its map, bit by bit. -/
structure Reloaded (fs fs' : Fs) : Prop extends Counts fs fs' where
  extent : fs.desc.freemap ≠ .list →
    fs'.v8Base = fs.v8Base ∧ fs'.v8Nbits = fs.v8Nbits ∧ fs'.v8Nblks = fs.v8Nblks
  bits : fs.desc.freemap ≠ .list → ∀ i, i < fs.v8Nbits → getBit fs'.v8Bits i = getBit fs.v8Bits i

theorem counts_decode {fs fs₀ : Fs} (hd : GeomFacts fs.desc) (hfit : V8Fits fs)
    (h₀ : fs₀.desc = fs.desc) (now : Nat) (sb : Buf) :
    Counts fs (sbDecode fs₀ (window (sbEncode fs now sb) 0 (superLen fs))) := by
  have henc : sbEncode fs now sb = v8SbEncode fs now sb := if_pos hd.codec
  have hdec : ∀ W, sbDecode fs₀ W = v8SbDecode fs₀ W := by
    intro W
    unfold sbDecode
    rw [h₀, if_pos hd.codec]
  rw [henc, hdec]
  unfold v8SbDecode
  rw [h₀]
  obtain ⟨h1, h2, h3, h4, h5, h6, h7⟩ := hfit
  refine ⟨rfl, ?_, ?_, ?_, fun i hi => ?_, ?_, ?_, fun hl => ⟨?_, fun i hi => ?_⟩, fun hl => if_neg hl⟩
  · exact get16_v8 hd now sb (by simp [v8Fields]) h1
  · exact get32_v8 hd now sb (by simp [v8Fields]) (by omega)
  · exact get16_v8 hd now sb (by simp [v8Fields]) (by have := hd.nicinod; omega)
  · exact table_v8 hd now (ByteOrder.perm_sig16 _) (by simp) sb (by simp [v8Fields]) (hd.nicinod ▸ hi) (h4 i hi)
  · exact get32_v8 hd now sb (by simp [v8Fields]) h5
  · exact get16_v8 hd now sb (by simp [v8Fields]) h6
  · show (if fs.desc.freemap = .list then fs.desc.bo.get16 _ 248 else 0) = _
    rw [if_pos hl]
    exact get16_v8 hd now sb (by simp [v8Fields, v8FreeFields, hl])
      (by have := (h7 hl).1; have := hd.depth; omega)
  · exact table_v8 hd now (ByteOrder.perm_sig32 _) (by simp) sb
      (by simp [v8Fields, v8FreeFields, hl]) hi ((h7 hl).2 i hi)

/-- The longwords of an in-superblock map hold its bits. -/
theorem word_bit {fs : Fs} (hd : GeomFacts fs.desc) (hf : fs.desc.freemap = .bitmap) (now : Nat)
    (sb : Buf) {i : Nat} (hi : i < 961 * 32) :
    (fs.desc.bo.get32 (window (sbEncode fs now sb) 0 (superLen fs)) (252 + 4 * (i / 32))).testBit (i % 32) =
      (decide (i < fs.v8Nbits) && getBit fs.v8Bits i) := by
  have henc : sbEncode fs now sb = v8SbEncode fs now sb := if_pos hd.codec
  have hword : fs.desc.bo.get32 (window (v8SbEncode fs now sb) 0 (superLen fs)) (252 + 4 * (i / 32)) =
    v8Word fs (i / 32) :=
    table_v8 hd now (n := 961) (ByteOrder.perm_sig32 _) (by simp) sb
    (by simp [v8Fields, v8FreeFields, hf]) (by omega)
      (Nat.lt_of_lt_of_eq (wordOf_lt _ 32) (by decide))
  rw [henc, hword]
  unfold v8Word
  rw [testBit_wordOf, show i / 32 * 32 + i % 32 = i by omega]
  simp [Nat.mod_lt]

/-! ## The bitmap's own blocks -/

/-- Byte `i` lies in none of the blocks `b` to `b + n`. -/
def BlocksMiss (fs : Fs) (b n i : Nat) : Prop :=
  ∀ j, j < n → ¬ Field.Covers (fs.base + (b + j) * fs.desc.bsize, fs.desc.bsize) i

section Flush

variable {s : Mnt}

theorem CanFlush.post_write (h : CanFlush s) {site : Site} {b : Nat} {buf : Buf}
    (hfit : s.fs.base + b * s.fs.desc.bsize + s.fs.desc.bsize ≤ s.size)
    {Q : Unit → Mnt → Prop} {E : Errno → Mnt → Prop} (hok : Q () (putAt site b buf s)) :
    Post (v7fsWriteBlock site b buf s) Q E := by
  refine post_bindFs (post_ite (fun hr => ?_) fun _ => post_ite (fun _ => ?_) fun hc =>
    absurd (h.inRange hfit) hc)
  · rw [h.writable] at hr
    cases hr
  · apply post_ioWrite
    · intro _
      rwa [wrote_solo h.solo hfit]
    · intro hf
      rw [h.quiet] at hf
      cases hf

/-- The bitmap blocks from `k` on have gone out, and nothing else. -/
structure MapOut (s t : Mnt) (k todo : Nat) : Prop where
  fs : t.fs = s.fs
  size : t.size = s.size
  env : t.env = s.env
  out : ∀ j, k ≤ j → j < k + todo → blockOf s.fs t.img (s.fs.v8BlkStart + j) =
    window (window s.fs.v8Bits (j * s.fs.desc.bsize) (bigmapBytes s.fs j)) 0 s.fs.desc.bsize
  rest : ∀ i, BlocksMiss s.fs (s.fs.v8BlkStart + k) todo i → t.img i = s.img i

theorem post_bigmapFlush (h : CanFlush s) (todo k : Nat)
    (hfit : ∀ j, j < k + todo →
      s.fs.base + (s.fs.v8BlkStart + j) * s.fs.desc.bsize + s.fs.desc.bsize ≤ s.size) :
    Post (bigmapFlush todo k s) (fun _ t => MapOut s t k todo) fun _ _ => False := by
  induction todo generalizing s k with
  | zero => exact ⟨rfl, rfl, rfl, fun j h1 h2 => by omega, fun _ _ => rfl⟩
  | succ todo ih =>
    refine post_bindFs (post_bind (post_failAs (h.post_write (hfit k (by omega)) ?_)))
    generalize hbuf : window s.fs.v8Bits (k * s.fs.desc.bsize) (bigmapBytes s.fs k) = buf
    have h' : CanFlush (putAt .bitmap (s.fs.v8BlkStart + k) buf s) :=
      ⟨h.solo, h.writable, h.imgsize, h.inside, h.quiet⟩
    refine (ih h' (k + 1) fun j hj => hfit j (by omega)).mono ?_ fun _ _ hf => hf
    intro _ t ht
    refine ⟨ht.fs, ht.size, ht.env, fun j h1 h2 => ?_, fun i hi => ?_⟩
    · rcases Nat.eq_or_lt_of_le h1 with rfl | hlt
      · -- the blocks written later leave this one alone
        have hkeep : blockOf s.fs t.img (s.fs.v8BlkStart + k) =
          blockOf s.fs (putAt .bitmap (s.fs.v8BlkStart + k) buf s).img (s.fs.v8BlkStart + k) := by
          refine window_congr fun i hlo hhi => ht.rest i fun j hj hc => ?_
          have hdis := block_disjoint s.fs.base s.fs.desc.bsize (show s.fs.v8BlkStart + k ≠
            s.fs.v8BlkStart + (k + 1) + j by omega)
          obtain ⟨hc1, hc2⟩ := hc
          simp only [putAt_fs] at hc1 hc2
          omega
        rw [hkeep, putAt_img, blockOf_putBlock, hbuf]
      · exact ht.out j hlt (by omega)
    · have hmiss : BlocksMiss s.fs (s.fs.v8BlkStart + (k + 1)) todo i := by
        intro j hj
        have := hi (j + 1) (by omega)
        rwa [show s.fs.v8BlkStart + k + (j + 1) = s.fs.v8BlkStart + (k + 1) + j by omega] at this
      have hfirst : putBlock s.fs s.img (s.fs.v8BlkStart + k) buf i = s.img i := by
        apply splice_outside
        have := hi 0 (by omega)
        unfold Field.Covers at this
        simp only [Nat.add_zero] at this
        omega
      exact (ht.rest i hmiss).trans hfirst

end Flush

section Load

/-- The bitmap blocks from `k` on have been read over the map. -/
structure MapIn (s t : Mnt) (k todo : Nat) : Prop where
  state : ∃ bits n, t = { s with fs := { s.fs with v8Bits := bits }, ios := n }
  low : ∀ p, p < k * s.fs.desc.bsize → t.fs.v8Bits p = s.fs.v8Bits p
  read : ∀ j, k ≤ j → j < k + todo → ∀ p, p < bigmapBytes s.fs j →
    t.fs.v8Bits (j * s.fs.desc.bsize + p) = blockOf s.fs s.img (s.fs.v8BlkStart + j) p

theorem post_bigmapLoad {s : Mnt} (hs : Solo s) (hio : ∀ k, s.env.fails k = false)
    (himg : s.fs.imgsize = 0) (todo k : Nat)
    (hfit : ∀ j, j < k + todo → s.fs.base + (s.fs.v8BlkStart + j) * s.fs.desc.bsize + s.fs.desc.bsize ≤ s.size)
    (hbytes : ∀ j, bigmapBytes s.fs j ≤ s.fs.desc.bsize) :
    Post (bigmapLoad todo k s) (fun _ t => MapIn s t k todo) fun _ _ => False := by
  induction todo generalizing s k with
  | zero => exact ⟨⟨s.fs.v8Bits, s.ios, rfl⟩, fun _ _ => rfl, fun j h1 h2 => by omega⟩
  | succ todo ih =>
    have hread : Post (v7fsReadBlock (s.fs.v8BlkStart + k) s)
      (fun b t => b = blockOf s.fs s.img (s.fs.v8BlkStart + k) ∧ t = ticked s) fun _ _ => False := by
      refine post_bindFs (post_ite (fun _ => post_ioRead (fun _ _ => ?_) fun hf => ?_) fun hc => absurd ?_ hc)
      · rw [touch_solo hs]
        exact ⟨rfl, rfl⟩
      · rw [hio] at hf
        rcases hf with hf | hf
        · cases hf
        · exact absurd (hfit k (by omega)) (Nat.not_le.mpr hf)
      · unfold checkRange
        rw [himg]
        rfl
    refine post_bindFs (post_bind (post_failAs (hread.mono ?_ fun _ _ hf => hf)))
    intro b t h
    obtain ⟨rfl, rfl⟩ := h
    apply post_bindMod
    simp only [ticked_fs]
    generalize hnew : splice s.fs.v8Bits (k * s.fs.desc.bsize) (blockOf s.fs s.img
      (s.fs.v8BlkStart + k)) 0 (bigmapBytes s.fs k) = bits
    have hnow : ∀ p, p < bigmapBytes s.fs k →
      bits (k * s.fs.desc.bsize + p) = blockOf s.fs s.img (s.fs.v8BlkStart + k) p := by
      intro p hp
      rw [← hnew, splice_inside hp, Nat.zero_add]
    have hlow : ∀ p, p < k * s.fs.desc.bsize → bits p = s.fs.v8Bits p := by
      intro p hp
      rw [← hnew, splice_outside (.inl hp)]
    have hmul : (k + 1) * s.fs.desc.bsize = k * s.fs.desc.bsize + s.fs.desc.bsize := Nat.succ_mul _ _
    have hs' : Solo { ticked s with fs := { s.fs with v8Bits := bits } } := hs
    refine (ih hs' hio himg (k + 1) (fun j hj => hfit j (by omega)) hbytes).mono ?_ fun _ _ hf => hf
    intro _ t h
    obtain ⟨⟨bits', n, rfl⟩, hlow', hread'⟩ := h
    refine ⟨⟨bits', n, rfl⟩, fun p hp => ?_, fun j h1 h2 p hp => ?_⟩
    · exact (hlow' p (by show p < (k + 1) * s.fs.desc.bsize; omega)).trans (hlow p hp)
    · rcases Nat.eq_or_lt_of_le h1 with rfl | hlt
      · have hle := hbytes k
        refine (hlow' _ ?_).trans (hnow p hp)
        show k * s.fs.desc.bsize + p < (k + 1) * s.fs.desc.bsize
        omega
      · exact hread' j hlt (by omega) p hp

end Load

/-! ## A sync, then the decode and the load -/

/-- The volume lies in its image and has a data area, as `v7fs_open` checked. -/
structure OnImage (s : Mnt) : Prop extends CanFlush s where
  isize : 2 ≤ s.fs.isize
  data : s.fs.isize < s.fs.fsize
  fits : s.fs.base + s.fs.fsize * s.fs.desc.bsize ≤ s.size

/-- The part of an open between the read of the superblock `sb` and the totals: `v8_sb_decode` with its
    check of the counts, and `v8_bitmap_load`. -/
def v8Reopen (sb : Buf) : M Unit := do
  modFs fun fs => sbDecode fs sb
  let fs ← getFs
  if fs.desc.nicfree < fs.nfree ∨ fs.desc.nicinod < fs.ninode then throw .einval
  else onlyIf (fs.desc.sbCodec ∧ fs.desc.freemap ≠ .list) (failAs .eio (v8BitmapLoad sb))

/-- How many blocks a bitmap fills, and which. -/
theorem bigmap_extent {f b : Nat} (hb : 4096 ≤ b) (hf : 3 ≤ f) :
    (f + b * 8 - 1) / (b * 8) + 2 ≤ f ∧ ∀ i, i < f → i / 8 / b < (f + b * 8 - 1) / (b * 8) := by
  have hpos : 0 < b * 8 := by omega
  constructor
  · obtain ⟨m, rfl⟩ : ∃ m, f = m + 2 := ⟨f - 2, by omega⟩
    have hlt : (m + 2 + b * 8 - 1) / (b * 8) < m + 1 := by
      have hle : m * 32768 ≤ m * (b * 8) := Nat.mul_le_mul_left _ (by omega)
      rw [Nat.div_lt_iff_lt_mul hpos, Nat.succ_mul]
      omega
    omega
  · intro i hi
    rw [Nat.div_div_eq_div_mul, Nat.mul_comm 8 b, Nat.lt_iff_add_one_le, ← Nat.add_div_right _ hpos]
    exact Nat.div_le_div_right (by omega)

/-- The blocks the volume's bitmap has to itself. -/
def mapBlocks (fs : Fs) : Nat := if fs.desc.freemap = .bigmap then fs.v8Nblks else 0

/-- What a sync leaves: the bitmap's blocks first, then the superblock over what they left. -/
theorem flushFs_ok {s : Mnt} (hd : GeomFacts s.fs.desc) (hext : MapExtent s.fs) (h : OnImage s) :
    ∃ t, flushFs s = .ok () (flushed t) ∧ MapOut s t 0 (mapBlocks s.fs) := by
  by_cases hbig : s.fs.desc.freemap = .bigmap
  · have hn : mapBlocks s.fs = s.fs.v8Nblks := if_pos hbig
    obtain ⟨-, -, hblks, hstart⟩ := hext.bigmap hbig
    have hroom := (bigmap_extent (hd.bigmap hbig) (f := s.fs.fsize)
      (by have := h.isize; have := h.data; omega)).1
    rw [← hblks] at hroom
    have hfit : ∀ j, j < 0 + s.fs.v8Nblks →
      s.fs.base + (s.fs.v8BlkStart + j) * s.fs.desc.bsize + s.fs.desc.bsize ≤ s.size := by
      intro j hj
      have hle : (s.fs.v8BlkStart + j + 1) * s.fs.desc.bsize ≤ s.fs.fsize * s.fs.desc.bsize :=
        Nat.mul_le_mul_right _ (by omega)
      rw [Nat.succ_mul] at hle
      have := h.fits
      omega
    obtain ⟨_, t, hr, ht⟩ := (post_bigmapFlush h.toCanFlush s.fs.v8Nblks 0 hfit).succeeds
    have h' : CanFlush t := by
      refine ⟨fun k img => ?_, ?_, ?_, ?_, fun k => ?_⟩
      · rw [ht.env]; exact h.solo k img
      · rw [ht.fs]; exact h.writable
      · rw [ht.fs, ht.size]; exact h.imgsize
      · rw [ht.fs, ht.size]; exact h.inside
      · rw [ht.env]; exact h.quiet k
    refine ⟨t, ?_, hn ▸ ht⟩
    have hsync : flushFs s = (bigmapFlush s.fs.v8Nblks 0 >>= fun _ => v7fsSuperWrite) s := by
      show (if s.fs.desc.freemap ≠ .list then v8BitmapSync else v7fsSuperWrite) s = _
      rw [if_pos (by rw [hbig]; decide)]
      show (if s.fs.readonly then pure () else
        onlyIf (s.fs.desc.freemap = .bigmap) (bigmapFlush s.fs.v8Nblks 0) >>= fun _ => v7fsSuperWrite :
        M Unit) s = _
      rw [if_neg (by simp [h.writable]), onlyIf, if_pos hbig]
    rw [hsync, bind_eq_of_ok hr, h'.v7fsSuperWrite_ok]
  · have hn : mapBlocks s.fs = 0 := if_neg hbig
    refine ⟨s, ?_, ⟨rfl, rfl, rfl, fun j _ hj => by omega, fun _ _ => rfl⟩⟩
    have hsync : flushFs s = v7fsSuperWrite s := by
      show (if s.fs.desc.freemap ≠ .list then v8BitmapSync else v7fsSuperWrite) s = _
      split
      · show (if s.fs.readonly then pure () else
          onlyIf (s.fs.desc.freemap = .bigmap) (bigmapFlush s.fs.v8Nblks 0) >>= fun _ =>
          v7fsSuperWrite : M Unit) s = _
        rw [if_neg (by simp [h.writable]), onlyIf, if_neg hbig]
        rfl
      · rfl
    rw [hsync, h.toCanFlush.v7fsSuperWrite_ok]

/-- Every byte of the last bitmap block that is copied lies in the block, and every bit of the map in a
    byte that is. -/
theorem bigmapBytes_bounds {fs : Fs} (hb : 4096 ≤ fs.desc.bsize)
    (hbits : fs.v8Nbits = fs.fsize)
    (hblks : fs.v8Nblks = (fs.fsize + fs.desc.bsize * 8 - 1) / (fs.desc.bsize * 8)) :
    (∀ j, bigmapBytes fs j ≤ fs.desc.bsize) ∧ ∀ i, i < fs.fsize →
    i / 8 % fs.desc.bsize < bigmapBytes fs (i / 8 / fs.desc.bsize) := by
  have hpos : 0 < fs.desc.bsize * 8 := by omega
  have hcover : fs.fsize ≤ fs.v8Nblks * (fs.desc.bsize * 8) := by
    have hlt := Nat.lt_succ_self ((fs.fsize + fs.desc.bsize * 8 - 1) / (fs.desc.bsize * 8))
    rw [← hblks, hblks, Nat.div_lt_iff_lt_mul hpos, Nat.succ_mul, ← hblks] at hlt
    omega
  constructor
  · intro j
    unfold bigmapBytes
    split
    · rename_i hlast
      rw [← hlast, Nat.succ_mul, ← Nat.mul_assoc] at hcover
      omega
    · exact Nat.le_refl _
  · intro i hi
    have hmod : i / 8 % fs.desc.bsize < fs.desc.bsize := Nat.mod_lt _ (by omega)
    unfold bigmapBytes
    split
    · have hdiv := Nat.div_add_mod (i / 8) fs.desc.bsize
      rw [Nat.mul_comm] at hdiv
      omega
    · exact hmod

section Reload

variable {s t r : Mnt} {sb : Buf} {fs₁ : Fs} (hc : Counts s.fs fs₁)

include hc

/-- The in-superblock form. -/
theorem post_load_bitmap (hext : MapExtent s.fs) (hmap : s.fs.desc.freemap = .bitmap)
    (hword : ∀ i, i < 961 * 32 → (s.fs.desc.bo.get32 sb (252 + 4 * (i / 32))).testBit (i %
      32) = (decide (i < s.fs.v8Nbits) && getBit s.fs.v8Bits i))
    (hdata : s.fs.isize < s.fs.fsize) :
    Post (v8BitmapLoad sb { r with fs := fs₁ }) (fun _ u => Reloaded s.fs u.fs) fun _ _ => False := by
  obtain ⟨hbase, hbits, hcap, hblks⟩ := hext.bitmap hmap
  refine post_bindFs (post_ite (fun hbig => ?_) fun _ => post_ite (fun hlarge => ?_) fun _ => ?_)
  · have hbig' : fs₁.desc.freemap = .bigmap := hbig
    rw [hc.desc, hmap] at hbig'
    cases hbig'
  · have hlarge' : fs₁.fsize < fs₁.isize ∨ 30752 < fs₁.fsize - fs₁.isize := hlarge
    rw [hc.fsize, hc.isize] at hlarge'
    omega
  · have hnb : fs₁.fsize - fs₁.isize = s.fs.v8Nbits := by rw [hc.fsize, hc.isize, hbits]
    refine ⟨⟨hc.desc, hc.isize, hc.fsize, hc.ninode, hc.inode, hc.tfree, hc.tinode, hc.list, hc.noList⟩,
      fun _ => ⟨?_, hnb, hblks.symm⟩, fun _ i hi => ?_⟩
    · exact hc.isize.trans hbase.symm
    · show getBit (fillBits (fun i => (fs₁.desc.bo.get32 sb (252 + 4 * (i / 32))).testBit (i % 32))
        (fs₁.fsize - fs₁.isize) zeroBuf) i = _
      rw [getBit_fillBits, getBit_zeroBuf, hnb, hc.desc, hword i (by omega)]
      simp [hi]

/-- The form with blocks of its own. -/
theorem post_load_bigmap (hd : GeomFacts s.fs.desc) (hext : MapExtent s.fs)
    (hmap : s.fs.desc.freemap = .bigmap) (hfit : V8Fits s.fs)
    (h : OnImage s) (hs : Solo r) (hio : ∀ k, r.env.fails k = false) (hsize : r.size = s.size)
    (himg : fs₁.imgsize = 0) (hbase₁ : fs₁.base = s.fs.base)
    (hout : ∀ j, j < s.fs.v8Nblks → blockOf s.fs r.img (s.fs.v8BlkStart + j) =
      window (window s.fs.v8Bits (j * s.fs.desc.bsize) (bigmapBytes s.fs j)) 0 s.fs.desc.bsize) :
    Post (v8BitmapLoad sb { r with fs := fs₁ }) (fun _ u => Reloaded s.fs u.fs) fun _ _ => False := by
  obtain ⟨hbase, hbits, hblks, hstart⟩ := hext.bigmap hmap
  have hf3 : 3 ≤ s.fs.fsize := by
    have := h.isize
    have := h.data
    omega
  have hb := hd.bigmap hmap
  obtain ⟨hroom, hblk⟩ := bigmap_extent hb hf3
  rw [← hblks] at hroom hblk
  obtain ⟨hle, hin⟩ := bigmapBytes_bounds hb hbits hblks
  have hnblks : (fs₁.fsize + fs₁.desc.bsize * 8 - 1) % 2 ^ 32 / (fs₁.desc.bsize * 8) = s.fs.v8Nblks := by
    have := hfit.fsize
    rw [hc.fsize, hc.desc, Nat.mod_eq_of_lt (by omega), hblks]
  refine post_bindFs (post_ite ?_ ?_)
  · intro _
    simp only [hnblks]
    apply post_bindMod
    generalize hfs₂ : ({ fs₁ with
      v8Base := 0, v8Nbits := fs₁.fsize, v8Nblks := s.fs.v8Nblks
      v8BlkStart := fs₁.fsize - s.fs.v8Nblks } : Fs) = fs₂
    have hdesc₂ : fs₂.desc = s.fs.desc := by rw [← hfs₂]; exact hc.desc
    have hstart₂ : fs₂.v8BlkStart = s.fs.v8BlkStart := by
      rw [← hfs₂, hstart]
      exact congrArg (· - s.fs.v8Nblks) hc.fsize
    have hbase₂ : fs₂.base = s.fs.base := by rw [← hfs₂]; exact hbase₁
    have hbytes₂ : ∀ j, bigmapBytes fs₂ j = bigmapBytes s.fs j := by
      intro j
      unfold bigmapBytes
      rw [hdesc₂, ← hfs₂, hbits]
      simp only [hc.fsize]
    have hblock₂ : ∀ b, blockOf fs₂ r.img b = blockOf s.fs r.img b := by
      intro b
      unfold blockOf
      rw [hdesc₂, hbase₂]
    have hinside : ∀ j, j < 0 + s.fs.v8Nblks →
      fs₂.base + (fs₂.v8BlkStart + j) * fs₂.desc.bsize + fs₂.desc.bsize ≤ r.size := by
      intro j hj
      have hmul : (s.fs.v8BlkStart + j + 1) * s.fs.desc.bsize ≤ s.fs.fsize * s.fs.desc.bsize :=
        Nat.mul_le_mul_right _ (by omega)
      rw [Nat.succ_mul] at hmul
      have := h.fits
      rw [hbase₂, hstart₂, hdesc₂, hsize]
      omega
    have himg₂ : fs₂.imgsize = 0 := by rw [← hfs₂]; exact himg
    have hload := post_bigmapLoad (s := { r with fs := fs₂ }) hs hio himg₂ s.fs.v8Nblks 0 hinside
      (fun j => by show bigmapBytes fs₂ j ≤ fs₂.desc.bsize; rw [hbytes₂, hdesc₂]; exact hle j)
    refine hload.mono ?_ fun _ _ hf => hf
    intro _ u hrun
    obtain ⟨⟨bits, n, rfl⟩, -, hread⟩ := hrun
    refine ⟨?_, fun _ => ?_, fun _ i hi => ?_⟩
    · rw [← hfs₂]
      exact ⟨hc.desc, hc.isize, hc.fsize, hc.ninode, hc.inode, hc.tfree, hc.tinode, hc.list, hc.noList⟩
    · rw [← hfs₂]
      exact ⟨hbase.symm, hc.fsize.trans hbits.symm, rfl⟩
    · rw [hbits] at hi
      have hj : i / 8 / s.fs.desc.bsize < s.fs.v8Nblks := hblk i hi
      have hp := hin i hi
      have hmod : i / 8 % s.fs.desc.bsize < s.fs.desc.bsize := Nat.mod_lt _ (by omega)
      have hsplit : i / 8 / s.fs.desc.bsize * s.fs.desc.bsize + i / 8 % s.fs.desc.bsize = i / 8 :=
        Nat.div_add_mod' _ _
      have hbyte : bits (i / 8) = s.fs.v8Bits (i / 8) := by
        have hr := hread (i / 8 / s.fs.desc.bsize) (Nat.zero_le _) (by omega) (i / 8 % s.fs.desc.bsize)
          (by show _ < bigmapBytes fs₂ _; rw [hbytes₂]; exact hp)
        simp only [hdesc₂, hstart₂] at hr
        rw [hblock₂, hout _ hj, window_inside hmod, Nat.zero_add, window_inside hp, hsplit] at hr
        exact hr
      unfold getBit
      show (bits (i / 8)).toBitVec.getLsbD (i % 8) = _
      rw [hbyte]
  · intro hsmall
    exact absurd (hc.desc ▸ hmap) hsmall

end Reload

/-- For every geometry and every state that fits it: a sync writes the superblock and the bitmap's
    blocks alone, and what the next open decodes and loads from them is the inode cache, the totals and
    the list or the map it came from. -/
theorem free_map_round_trip {s : Mnt} (hd : GeomFormat s.fs.desc) (hfit : V8Fits s.fs)
    (hext : MapExtent s.fs) (h : OnImage s) (readonly : Bool) :
    ∃ t, flushFs s = .ok () t ∧
      (∀ i, ¬ Field.Covers (superOff s.fs, superLen s.fs) i →
        BlocksMiss s.fs s.fs.v8BlkStart (mapBlocks s.fs) i → t.img i = s.img i) ∧
      ∃ u, v8Reopen (superOf s.fs
        t.img) { t with fs := { desc := s.fs.desc, readonly := readonly, base := s.fs.base } } = .ok () u ∧
        Reloaded s.fs u.fs := by
  have hg := hd.facts
  obtain ⟨t, hflush, ht⟩ := flushFs_ok hg hext h
  have hsuper : superOf s.fs (flushed t).img =
    window (sbEncode s.fs (t.env.clock t.ticks % 2 ^ 32) (superOf s.fs t.img)) 0 (superLen s.fs) := by
    show superOf s.fs (putSuper t.fs t.img (superNow t)) = _
    unfold superNow
    rw [ht.fs]
    exact superOf_putSuper _ _ _
  refine ⟨flushed t, hflush, ?_, ?_⟩
  · intro i hs hm
    have himg : (flushed t).img i = t.img i := by
      show splice t.img (superOff t.fs) (superNow t) 0 (superLen t.fs) i = _
      rw [ht.fs]
      apply splice_outside
      unfold Field.Covers at hs
      omega
    rw [himg]
    exact ht.rest i hm
  · generalize hsb : superOf s.fs (flushed t).img = sb
    rw [hsuper] at hsb
    generalize hfs₁ : sbDecode { desc := s.fs.desc, readonly := readonly, base := s.fs.base } sb = fs₁
    have hc : Counts s.fs fs₁ := by
      rw [← hfs₁, ← hsb]
      exact @counts_decode s.fs { desc := s.fs.desc, readonly := readonly, base := s.fs.base } hg hfit rfl _ _
    have hload : Post (v8Reopen sb
      { flushed t with fs := { desc := s.fs.desc, readonly := readonly, base := s.fs.base } })
        (fun _ u => Reloaded s.fs u.fs) fun _ _ => False := by
      refine post_bindMod (post_bindFs ?_)
      simp only [hfs₁]
      refine post_ite (fun hover => ?_) fun _ => ?_
      · have hino := hfit.ninode
        rw [hc.desc, hc.ninode] at hover
        by_cases hlist : s.fs.desc.freemap = .list
        · have hfree := (hfit.list hlist).1
          rw [(hc.list hlist).1] at hover
          omega
        · rw [hc.noList hlist] at hover
          omega
      refine post_onlyIf (fun hmap => post_failAs ?_) ?_
      · rw [hfs₁] at hmap
        have hmap' : s.fs.desc.freemap ≠ .list := hc.desc ▸ hmap.2
        cases hf : s.fs.desc.freemap with
        | list => exact absurd hf hmap'
        | bitmap =>
          refine post_load_bitmap hc hext hf (fun i hi => ?_) h.data
          rw [← hsb]
          exact word_bit hg hf _ _ hi
        | bigmap =>
          obtain ⟨-, -, hblks, hstart⟩ := hext.bigmap hf
          have hroom := (bigmap_extent (hg.bigmap hf) (f := s.fs.fsize)
            (by have := h.isize; have := h.data; omega)).1
          have hn : mapBlocks s.fs = s.fs.v8Nblks := if_pos hf
          refine post_load_bigmap hc hg hext hf hfit h ?_ ?_ ht.size ?_ ?_ ?_
          · intro k img
            show t.env.peer k img = img
            rw [ht.env]
            exact h.solo k img
          · intro k
            show t.env.fails k = false
            rw [ht.env]
            exact h.quiet k
          · rw [← hfs₁]
            unfold sbDecode
            rw [if_pos hg.codec]
            rfl
          · rw [← hfs₁]
            unfold sbDecode
            rw [if_pos hg.codec]
            rfl
          · intro j hj
            have hkeep : blockOf s.fs (flushed t).img (s.fs.v8BlkStart + j) =
              blockOf s.fs t.img (s.fs.v8BlkStart + j) := by
              show blockOf s.fs (putSuper t.fs t.img (superNow t)) _ = _
              rw [ht.fs]
              exact blockOf_putSuper (by have := hg.bigmap hf; omega) (by omega) _ _
            rw [hkeep]
            exact ht.out j (Nat.zero_le _) (by omega)
      · intro hlist
        rw [hfs₁] at hlist
        have hlist' : s.fs.desc.freemap = .list := by
          by_contra hne
          exact hlist ⟨by rw [hc.desc]; exact hg.codec, by rw [hc.desc]; exact hne⟩
        exact ⟨hc, fun hne => absurd hlist' hne, fun hne => absurd hlist' hne⟩
    obtain ⟨_, u, hr, hu⟩ := hload.succeeds
    exact ⟨u, hr, hu⟩

/-- A three-block V10 volume whose last block is its bitmap. -/
def threeBlocks : Mnt where
  fs := { desc := { descV8 with
            v910Mode := true, bsize := 4096, nindir := 1024, freemap := .bigmap, alloc := .v8bitmap },
          isize := 2, fsize := 3, imgsize := 12288, v8Bits := fun _ => 5, v8Nbits :=
          3, v8Nblks := 1, v8BlkStart := 2 }
  img := zeroBuf
  size := 12288

theorem a_bitmap_block_comes_back : ∃ t, flushFs threeBlocks = .ok () t ∧
    ∃ u, v8Reopen (superOf threeBlocks.fs t.img) { t with fs := { desc := threeBlocks.fs.desc } } =
    .ok () u ∧ Reloaded threeBlocks.fs u.fs := by
  have hd : GeomFormat threeBlocks.fs.desc :=
    ⟨.v10, { blocksize := 4096, freemap := some .bigmap }, .inr (.inr rfl), rfl⟩
  have hfit : V8Fits threeBlocks.fs :=
    ⟨by decide, by decide, by decide, fun _ _ => (by decide : 0 < 256 ^ 2), by decide, by decide,
    fun h => by cases h⟩
  have hext : MapExtent threeBlocks.fs := ⟨fun h => (by cases h), fun _ => ⟨rfl, rfl, by decide, rfl⟩⟩
  have himg : OnImage threeBlocks :=
    ⟨⟨fun _ _ => rfl, rfl, rfl, by decide, fun _ => rfl⟩, by decide, by decide, by decide⟩
  obtain ⟨t, hflush, -, hload⟩ := free_map_round_trip hd hfit hext himg false
  exact ⟨t, hflush, hload⟩

end Filsys.Mount
