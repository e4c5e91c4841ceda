/-
  Filsys.Mount.Codec — the superblock of V6 and the V7 family, written and read back
  (v7fs.c, v7fs.h).

  The inline codec computes its offsets from the packing, the depth of the free cache and
  the `s_dinfo` flag. Written out as fields (`sbFields`), the encoder is a record; for every
  row of the format table, in either packing, no two fields overlap and none touches the
  magic or `s_type` (`InlineFormat.apart`, `InlineFormat.spared`). A flush and the decode of
  an open then restore the state (`superblock_round_trip`), up to `fmod`, which goes out as
  a flag.
-/

import Filsys.Lib.Layout
import Filsys.Engine.Peek
import Filsys.Engine.Disk
import Filsys.Mount.Refusal

namespace Filsys.Mount

open Filsys.Lib Filsys.Engine

/-! ## The encoder as a record -/

def v6Fields (fs : Fs) (now : Nat) : List Field :=
  let bo := fs.desc.bo
  [.word bo.sig16 0 fs.isize, .word bo.sig16 2 fs.fsize, .word bo.sig16 4 fs.nfree,
    .table bo.sig16 6 2 fs.desc.nicfree fs.free (by simp), .word bo.sig16 206 fs.ninode,
    .table bo.sig16 208 2 fs.desc.nicinod fs.inode (by simp), .word bo.sig32 412 now,
    .bytes 410 [if fs.fmod != 0 then 1 else 0]]

def timeOff (d : Desc) : Nat := sbTimeOff d.pack4 d.nicfree
def totalsOff (d : Desc) : Nat := sbTfreeOff d.pack4 d.nicfree d.hasDinfo

/-- `s_tfree` and `s_tinode` are kept in the superblock. -/
def storesTotals (d : Desc) : Bool := !d.pack4 || d.magic != 0

def v7Fields (fs : Fs) (now : Nat) : List Field :=
  let d := fs.desc
  let bo := d.bo
  let tm := timeOff d
  let toff := totalsOff d
  [.word bo.sig16 0 fs.isize, .word bo.sig32 (sbFsizeOff d.pack4) fs.fsize,
    .word bo.sig16 (sbNfreeOff d.pack4) fs.nfree,
    .table bo.sig32 (sbFreeOff d.pack4) 4 d.nicfree fs.free (by simp),
    .word bo.sig16 (sbNinodeOff d.pack4 d.nicfree) fs.ninode,
    .table bo.sig16 (sbInodeOff d.pack4 d.nicfree) 2 100 fs.inode (by simp), .word bo.sig32 tm now,
    .bytes (tm - d.fmodBack) [if fs.fmod != 0 then 1 else 0]]
  ++ (if d.hasState then [.word bo.sig32 500 (if fs.fmod != 0 then 0x5e72d81a else 0x7c269d38)] else [])
  ++ (if storesTotals d then [.word bo.sig32 toff fs.tfree, .word bo.sig16 (toff + 4) fs.tinode] else [])
  ++ (if d.interleave then [.word bo.sig16 (tm + 10) fs.m, .word bo.sig16 (tm + 12) fs.n,
    .word bo.sig32 (tm + 26) fs.unique] else [])

/-- The fields of the inline superblock, in the order they are written. -/
def sbFields (fs : Fs) (now : Nat) : List Field :=
  if fs.desc.isizeCount then v6Fields fs now else v7Fields fs now

theorem v6SbEncode_eq (fs : Fs) (now : Nat) (sb : Buf) :
    v6SbEncode fs now sb = record (v6Fields fs now) sb := rfl

theorem v7SbEncode_eq (fs : Fs) (now : Nat) (sb : Buf) :
    v7SbEncode fs now sb = record (v7Fields fs now) sb := by
  unfold v7SbEncode v7Fields storesTotals
  simp only [record_append]
  split_ifs <;> rfl

theorem sbEncode_eq {fs : Fs} (hc : fs.desc.sbCodec = false) (now : Nat) (sb : Buf) :
    sbEncode fs now sb = record (sbFields fs now) sb := by
  unfold sbEncode sbFields
  rw [hc, if_neg (by simp)]
  split
  · exact v6SbEncode_eq fs now sb
  · exact v7SbEncode_eq fs now sb

/-- Where the fields lie. -/
def sbSpans (d : Desc) : List (Nat × Nat) :=
  if d.isizeCount then [(0, 2), (2, 2), (4, 2), (6, 2 * d.nicfree), (206, 2),
    (208, 2 * d.nicinod), (412, 4), (410, 1)]
  else
    let tm := timeOff d
    let toff := totalsOff d
    [(0, 2), (sbFsizeOff d.pack4, 4), (sbNfreeOff d.pack4, 2), (sbFreeOff d.pack4, 4 * d.nicfree),
      (sbNinodeOff d.pack4 d.nicfree, 2), (sbInodeOff d.pack4 d.nicfree, 2 * 100),
      (tm, 4), (tm - d.fmodBack, 1)]
    ++ (if d.hasState then [(500, 4)] else [])
    ++ (if storesTotals d then [(toff, 4), (toff + 4, 2)] else [])
    ++ (if d.interleave then [(tm + 10, 2), (tm + 12, 2), (tm + 26, 4)] else [])

theorem sbFields_spans (fs : Fs) (now : Nat) : (sbFields fs now).map Field.span = sbSpans fs.desc := by
  unfold sbFields sbSpans
  split
  · simp [v6Fields]
  · simp [v7Fields, apply_ite (List.map Field.span)]

/-! ## The formats -/

/-- The fields of a format do not overlap, lie in the superblock and spare the magic and `s_type`. -/
structure SoundSpans (d : Desc) : Prop where
  inline : d.sbCodec = false
  apart : (sbSpans d).Pairwise Field.Apart
  within : ∀ p ∈ sbSpans d, p.1 + p.2 ≤ if d.dynBsize then 512 else d.bsize
  magic : d.magic ≠ 0 → ∀ p ∈ sbSpans d, Field.Apart p (d.magicOff, 4)
  type : d.dynBsize = true → ∀ p ∈ sbSpans d, Field.Apart p (508, 4)
  nicinod : d.nicinod = 100
  v6 : d.isizeCount = true → d.interleave = false

instance (d : Desc) : Decidable (SoundSpans d) :=
  decidable_of_iff (d.sbCodec = false ∧ (sbSpans d).Pairwise Field.Apart ∧
    (∀ p ∈ sbSpans d, p.1 + p.2 ≤ if d.dynBsize then 512 else d.bsize) ∧
    (d.magic ≠ 0 → ∀ p ∈ sbSpans d, Field.Apart p (d.magicOff, 4)) ∧
    (d.dynBsize = true → ∀ p ∈ sbSpans d, Field.Apart p (508, 4)) ∧
    d.nicinod = 100 ∧ (d.isizeCount = true → d.interleave = false))
    ⟨fun ⟨h1, h2, h3, h4, h5, h6, h7⟩ => ⟨h1, h2, h3, h4, h5, h6, h7⟩,
      fun ⟨h1, h2, h3, h4, h5, h6, h7⟩ => ⟨h1, h2, h3, h4, h5, h6, h7⟩⟩

/-- A row of the format table with the inline codec, in any byte order and either packing; a
    System V superblock names its own block size. -/
def InlineFormat (d : Desc) : Prop :=
  ∃ (ed : Edition) (bo : ByteOrder) (pack4 ignore : Bool) (bsize nindir : Nat),
    let row := filsysGetformat ed
    row.ops ≠ .v1 ∧ row.ops ≠ .pdp7 ∧ row.sbCodec = false ∧ (row.dynBsize = false → bsize = row.bsize) ∧
    d = { row with bo := bo, pack4 := pack4, ignoreMagic := ignore, bsize := bsize, nindir := nindir }

theorem soundSpans_row (ed : Edition) (p : Bool) (h1 : (filsysGetformat ed).ops ≠ .v1)
    (h7 : (filsysGetformat ed).ops ≠ .pdp7)
    (hc : (filsysGetformat ed).sbCodec = false) : SoundSpans { filsysGetformat ed with pack4 := p } := by
  cases ed <;> cases p <;> first | decide | exact absurd rfl h1 | exact absurd rfl h7 | cases hc

theorem InlineFormat.sound {d : Desc} (h : InlineFormat d) : SoundSpans d := by
  obtain ⟨ed, bo, p, ig, bs, n, h1, h7, hc, hb, rfl⟩ := h
  obtain ⟨hinline, hapart, hwithin, hmagic, htype, hnic, hv6⟩ := soundSpans_row ed p h1 h7 hc
  refine ⟨hinline, hapart, fun q hq => ?_, hmagic, htype, hnic, hv6⟩
  have hle : q.1 + q.2 ≤ if (filsysGetformat ed).dynBsize then 512 else (filsysGetformat ed).bsize :=
    hwithin q hq
  show q.1 + q.2 ≤ if (filsysGetformat ed).dynBsize then 512 else bs
  by_cases hdyn : (filsysGetformat ed).dynBsize = true
  · rwa [if_pos hdyn] at hle ⊢
  · rw [if_neg hdyn] at hle ⊢
    rwa [hb (by simpa using hdyn)]

/-! ## Reading back -/

/-- Every field of the state fits the bytes it has in the superblock. -/
structure SbFits (fs : Fs) : Prop where
  isize : fs.isize < 256 ^ 2
  fsize : fs.fsize < 256 ^ (if fs.desc.isizeCount then 2 else 4)
  nfree : fs.nfree < 256 ^ 2
  free : ∀ i, i < fs.desc.nicfree → fs.free i < 256 ^ (if fs.desc.isizeCount then 2 else 4)
  ninode : fs.ninode < 256 ^ 2
  inode : ∀ i, i < fs.desc.nicinod → fs.inode i < 256 ^ 2
  fmod : fs.fmod < 256
  totals : fs.desc.isizeCount = false → storesTotals fs.desc = true → fs.tfree < 256 ^ 4 ∧ fs.tinode < 256 ^ 2
  interleave : fs.desc.interleave = true → fs.m < 256 ^ 2 ∧ fs.n < 256 ^ 2 ∧ fs.unique < 256 ^ 4

/-- `fs'` has what the superblock keeps of `fs`; of `fmod` it keeps whether it is set. -/
structure Restored (fs fs' : Fs) : Prop where
  isize : fs'.isize = fs.isize
  fsize : fs'.fsize = fs.fsize
  nfree : fs'.nfree = fs.nfree
  free : ∀ i, i < fs.desc.nicfree → fs'.free i = fs.free i
  ninode : fs'.ninode = fs.ninode
  inode : ∀ i, i < fs.desc.nicinod → fs'.inode i = fs.inode i
  fmod : fs'.fmod = if fs.fmod = 0 then 0 else 1
  totals : fs.desc.isizeCount = false → storesTotals fs.desc = true →
    fs'.tfree = fs.tfree ∧ fs'.tinode = fs.tinode
  interleave : fs.desc.interleave = true → fs'.m = fs.m ∧ fs'.n = fs.n ∧ fs'.unique = fs.unique

/-- The totals an open takes from the superblock, where it keeps them. -/
def withTotals (fs : Fs) (sb : Buf) : Fs :=
  if fs.desc.isizeCount = false ∧ storesTotals fs.desc = true then
    { fs with
      tfree := fs.desc.bo.get32 sb (totalsOff fs.desc)
      tinode := fs.desc.bo.get16 sb (totalsOff fs.desc + 4) }
  else fs

/-- The interleave an open takes from the superblock. -/
def withInterleave (fs : Fs) (sb : Buf) : Fs :=
  if fs.desc.interleave then
    { fs with
      m := fs.desc.bo.get16 sb (timeOff fs.desc + 10)
      n := fs.desc.bo.get16 sb (timeOff fs.desc + 12)
      unique := fs.desc.bo.get32 sb (timeOff fs.desc + 26) }
  else fs

/-- All that an open decodes. -/
def inlineDecode (fs : Fs) (sb : Buf) : Fs := withInterleave (withTotals (sbDecode fs sb) sb) sb

/-- What the decoders of the superblock proper leave, of which the rest of an open changes nothing. -/
def cached (fs : Fs) : Desc × Nat × Nat × Nat × (Nat → Nat) × Nat × (Nat → Nat) × Nat :=
  (fs.desc, fs.isize, fs.fsize, fs.nfree, fs.free, fs.ninode, fs.inode, fs.fmod)

theorem withTotals_cached (fs : Fs) (sb : Buf) : cached (withTotals fs sb) = cached fs := by
  unfold withTotals
  split <;> rfl

theorem withInterleave_cached (fs : Fs) (sb : Buf) : cached (withInterleave fs sb) = cached fs := by
  unfold withInterleave
  split <;> rfl

theorem withInterleave_totals (fs : Fs) (sb : Buf) : (withInterleave fs sb).tfree = fs.tfree ∧
    (withInterleave fs sb).tinode = fs.tinode := by
  unfold withInterleave
  split <;> exact ⟨rfl, rfl⟩

theorem inlineDecode_cached (fs : Fs) (sb : Buf) : cached (inlineDecode fs sb) = cached (sbDecode fs sb) :=
  (withInterleave_cached _ sb).trans (withTotals_cached _ sb)

theorem inlineDecode_totals {fs : Fs} (hi : fs.desc.isizeCount = false)
    (ht : storesTotals fs.desc = true) (sb : Buf) :
    (inlineDecode fs sb).tfree = fs.desc.bo.get32 sb (totalsOff fs.desc) ∧
      (inlineDecode fs sb).tinode = fs.desc.bo.get16 sb (totalsOff fs.desc + 4) := by
  have hdesc : (sbDecode fs sb).desc = fs.desc := (sbDecode_settled fs sb).1
  unfold inlineDecode
  rw [(withInterleave_totals _ sb).1, (withInterleave_totals _ sb).2]
  unfold withTotals
  rw [hdesc, if_pos ⟨hi, ht⟩]
  exact ⟨rfl, rfl⟩

theorem inlineDecode_interleave {fs : Fs} (hi : fs.desc.interleave = true) (sb : Buf) :
    (inlineDecode fs sb).m = fs.desc.bo.get16 sb (timeOff fs.desc + 10) ∧
      (inlineDecode fs sb).n = fs.desc.bo.get16 sb (timeOff fs.desc + 12) ∧
      (inlineDecode fs sb).unique = fs.desc.bo.get32 sb (timeOff fs.desc + 26) := by
  have hdesc : (withTotals (sbDecode fs sb) sb).desc = fs.desc :=
    (congrArg Prod.fst (withTotals_cached _ sb)).trans (sbDecode_settled fs sb).1
  unfold inlineDecode withInterleave
  rw [hdesc, if_pos hi]
  exact ⟨rfl, rfl, rfl⟩

section Read

variable {fs : Fs} (hd : SoundSpans fs.desc) (now : Nat) (sb : Buf)

include hd

theorem fields_within : ∀ f ∈ sbFields fs now, f.off + f.len ≤ superLen fs := by
  intro f hf
  have hmem := List.mem_map_of_mem (f := Field.span) hf
  rw [sbFields_spans] at hmem
  exact hd.within _ hmem

theorem fields_apart : ((sbFields fs now).map Field.span).Pairwise Field.Apart := by
  rw [sbFields_spans]
  exact hd.apart

theorem get16_super {o v : Nat} (hf : Field.word fs.desc.bo.sig16 o v ∈ sbFields fs now) (hv : v < 256 ^ 2) :
    fs.desc.bo.get16 (window (sbEncode fs now sb) 0 (superLen fs)) o = v := by
  rw [sbEncode_eq hd.inline]
  exact num_window_record (fields_apart hd now) (fields_within hd now) (ByteOrder.perm_sig16 _) hf sb
    (by rwa [ByteOrder.length_sig16])

theorem get32_super {o v : Nat} (hf : Field.word fs.desc.bo.sig32 o v ∈ sbFields fs now) (hv : v < 256 ^ 4) :
    fs.desc.bo.get32 (window (sbEncode fs now sb) 0 (superLen fs)) o = v := by
  rw [sbEncode_eq hd.inline]
  exact num_window_record (fields_apart hd now) (fields_within hd now) (ByteOrder.perm_sig32 _) hf sb
    (by rwa [ByteOrder.length_sig32])

theorem num_super_table {ds : List Nat} (hp : ds.Perm (List.range ds.length)) {off stride n : Nat}
    {f : Nat → Nat} (hs : ds.length = stride)
    (hf : Field.table ds off stride n f hs ∈ sbFields fs now) {i : Nat} (hi : i < n) (hv : f i < 256 ^ stride) :
    num ds (window (sbEncode fs now sb) 0 (superLen fs)) (off + stride * i) = f i := by
  rw [sbEncode_eq hd.inline]
  exact num_window_table (fields_apart hd now) (fields_within hd now) hp hs hf hi sb hv

theorem fmod_super {o : Nat} (hf : Field.bytes o [if fs.fmod != 0 then 1 else 0] ∈ sbFields fs now) :
    (window (sbEncode fs now sb) 0 (superLen fs) o).toNat = if fs.fmod = 0 then 0 else 1 := by
  rw [sbEncode_eq hd.inline, window_record_byte (fields_apart hd now) (fields_within hd now) hf]
  by_cases hz : fs.fmod = 0 <;> simp [hz]

end Read

section Decode

variable {fs fs₀ : Fs} (hd : SoundSpans fs.desc) (hfit : SbFits fs) (now : Nat) (sb : Buf)

include hd hfit

theorem restored_v6 (hi : fs.desc.isizeCount = true) {b n : Nat}
    (h₀ : fs₀.desc = { fs.desc with bsize := b, nindir := n }) :
    Restored fs (inlineDecode fs₀ (window (sbEncode fs now sb) 0 (superLen fs))) := by
  have hfields : sbFields fs now = v6Fields fs now := if_pos hi
  have hdec : sbDecode fs₀ (window (sbEncode fs now sb) 0 (superLen fs)) =
    v6SbDecode fs₀ (window (sbEncode fs now sb) 0 (superLen fs)) := by
    simp only [sbDecode, h₀, hd.inline, hi, if_true, Bool.false_eq_true, if_false]
  have hkeep := inlineDecode_cached fs₀ (window (sbEncode fs now sb) 0 (superLen fs))
  rw [hdec] at hkeep
  simp only [cached, v6SbDecode, h₀, Prod.mk.injEq] at hkeep
  obtain ⟨-, e1, e2, e3, e4, e5, e6, e7⟩ := hkeep
  obtain ⟨h1, h2, h3, h4, h5, h6, -, -, -⟩ := hfit
  simp only [hi, if_true] at h2 h4
  refine ⟨e1.trans ?_, e2.trans ?_, e3.trans ?_, fun i hlt => (congrFun e4 i).trans ?_, e5.trans ?_,
    fun i hlt => (congrFun e6 i).trans ?_,
    e7.trans ?_, fun h => ?_, fun h => ?_⟩
  · exact get16_super hd now sb (by simp [hfields, v6Fields]) h1
  · exact get16_super hd now sb (by simp [hfields, v6Fields]) h2
  · exact get16_super hd now sb (by simp [hfields, v6Fields]) h3
  · exact num_super_table hd now sb (ByteOrder.perm_sig16 _) (by simp) (by simp [hfields, v6Fields]) hlt
      (h4 i hlt)
  · exact get16_super hd now sb (by simp [hfields, v6Fields]) h5
  · exact num_super_table hd now sb (ByteOrder.perm_sig16 _) (by simp) (by simp [hfields, v6Fields]) hlt
      (h6 i hlt)
  · exact fmod_super hd now sb (by simp [hfields, v6Fields])
  · rw [hi] at h
    cases h
  · rw [hd.v6 hi] at h
    cases h

theorem restored_v7 (hi : fs.desc.isizeCount = false) {b n : Nat}
    (h₀ : fs₀.desc = { fs.desc with bsize := b, nindir := n }) :
    Restored fs (inlineDecode fs₀ (window (sbEncode fs now sb) 0 (superLen fs))) := by
  have hfields : sbFields fs now = v7Fields fs now := if_neg (by simp [hi])
  have hdec : sbDecode fs₀ (window (sbEncode fs now sb) 0 (superLen fs)) =
    v7SbDecode fs₀ (window (sbEncode fs now sb) 0 (superLen fs)) := by
    simp only [sbDecode, h₀, hd.inline, hi, Bool.false_eq_true, if_false]
  have hkeep := inlineDecode_cached fs₀ (window (sbEncode fs now sb) 0 (superLen fs))
  rw [hdec] at hkeep
  simp only [cached, v7SbDecode, h₀, Prod.mk.injEq] at hkeep
  obtain ⟨-, e1, e2, e3, e4, e5, e6, e7⟩ := hkeep
  obtain ⟨h1, h2, h3, h4, h5, h6, -, h8, h9⟩ := hfit
  simp only [hi, Bool.false_eq_true, if_false] at h2 h4
  refine ⟨e1.trans ?_, e2.trans ?_, e3.trans ?_, fun i hlt => (congrFun e4 i).trans ?_, e5.trans ?_,
    fun i hlt => (congrFun e6 i).trans ?_,
    e7.trans ?_, fun _ ht => ?_, fun ht => ?_⟩
  · exact get16_super hd now sb (by simp [hfields, v7Fields]) h1
  · exact get32_super hd now sb (by simp [hfields, v7Fields]) h2
  · exact get16_super hd now sb (by simp [hfields, v7Fields]) h3
  · exact num_super_table hd now sb (ByteOrder.perm_sig32 _) (by simp) (by simp [hfields, v7Fields]) hlt
      (h4 i hlt)
  · exact get16_super hd now sb (by simp [hfields, v7Fields]) h5
  · exact num_super_table hd now sb (ByteOrder.perm_sig16 _) (by simp) (by simp [hfields, v7Fields])
      (hd.nicinod ▸ hlt) (h6 i hlt)
  · exact fmod_super hd now sb (o := timeOff fs.desc - fs.desc.fmodBack) (by simp [hfields, v7Fields])
  · obtain ⟨hfree, hino⟩ := inlineDecode_totals (show fs₀.desc.isizeCount = false by rw [h₀]; exact hi)
      (by rw [h₀]; exact ht) (window (sbEncode fs now sb) 0 (superLen fs))
    rw [h₀] at hfree hino
    refine ⟨hfree.trans ?_, hino.trans ?_⟩
    · exact get32_super hd now sb (o := totalsOff fs.desc) (by simp [hfields, v7Fields, ht]) (h8 hi ht).1
    · exact get16_super hd now sb (o := totalsOff fs.desc + 4) (by simp [hfields, v7Fields, ht]) (h8 hi ht).2
  · obtain ⟨hm, hn, hu⟩ :=
      inlineDecode_interleave (show fs₀.desc.interleave = true by rw [h₀]; exact ht)
      (window (sbEncode fs now sb) 0 (superLen fs))
    rw [h₀] at hm hn hu
    refine ⟨hm.trans ?_, hn.trans ?_, hu.trans ?_⟩
    · exact get16_super hd now sb (o := timeOff fs.desc + 10) (by simp [hfields, v7Fields, ht]) (h9 ht).1
    · exact get16_super hd now sb (o := timeOff fs.desc + 12) (by simp [hfields, v7Fields, ht]) (h9 ht).2.1
    · exact get32_super hd now sb (o := timeOff fs.desc + 26) (by simp [hfields, v7Fields, ht]) (h9 ht).2.2

/-- What a flush wrote, decoded. -/
theorem restored_decode {b n : Nat} (h₀ : fs₀.desc = { fs.desc with bsize := b, nindir := n }) :
    Restored fs (inlineDecode fs₀ (window (sbEncode fs now sb) 0 (superLen fs))) := by
  cases hi : fs.desc.isizeCount with
  | true => exact restored_v6 hd hfit now sb hi h₀
  | false => exact restored_v7 hd hfit now sb hi h₀

end Decode

/-! ## A flush, then an open -/

theorem Restored.congr {fs fs' fs'' : Fs} (h : Restored fs fs') (hc : (cached fs'').2 = (cached fs').2)
    (ht : fs.desc.isizeCount = false → storesTotals fs.desc = true →
      fs''.tfree = fs'.tfree ∧ fs''.tinode = fs'.tinode)
    (hi : fs.desc.interleave = true → fs''.m = fs'.m ∧ fs''.n = fs'.n ∧ fs''.unique = fs'.unique) :
    Restored fs fs'' := by
  simp only [cached, Prod.mk.injEq] at hc
  obtain ⟨e1, e2, e3, e4, e5, e6, e7⟩ := hc
  refine ⟨e1.trans h.isize, e2.trans h.fsize, e3.trans h.nfree, fun i hlt => (congrFun e4 i).trans
    (h.free i hlt), e5.trans h.ninode,
    fun i hlt => (congrFun e6 i).trans (h.inode i hlt), e7.trans h.fmod, fun h1 h2 => ?_, fun h1 => ?_⟩
  · exact ⟨(ht h1 h2).1.trans (h.totals h1 h2).1, (ht h1 h2).2.trans (h.totals h1 h2).2⟩
  · obtain ⟨hm, hn, hu⟩ := h.interleave h1
    exact ⟨(hi h1).1.trans hm, (hi h1).2.1.trans hn, (hi h1).2.2.trans hu⟩

theorem countChain_peeks (strict : Bool) (guard n : Nat) (cur : Nat → Nat) (blocks : Nat) :
    Peeks (countChain strict guard n cur blocks) := by
  induction guard generalizing n cur blocks with
  | zero => exact keeps_pure readOnly_law
  | succ guard ih =>
    refine bindFs_peeks fun fs => keeps_ite (keeps_pure readOnly_law) (keeps_ite ?_ (ih _ _ _))
    refine keeps_bind readOnly_law (keeps_attempt (v7fsReadBlock_peeks _)) fun r => ?_
    cases r with
    | error e => exact keeps_pure readOnly_law
    | ok blk => exact keeps_ite (keeps_pure readOnly_law) (ih _ _ _)

theorem countLive_peeks (todo ino used : Nat) : Peeks (countLive todo ino used) := by
  induction todo generalizing ino used with
  | zero => exact keeps_pure readOnly_law
  | succ todo ih =>
    refine bindFs_peeks fun fs => keeps_bind readOnly_law (keeps_attempt (v7fsReadInode_peeks _)) fun r => ?_
    cases r with
    | error e => exact ih _ _
    | ok ip => exact ih _ _

/-- The totals are read, or counted; nothing else changes. -/
theorem v7OpenTotals_decodes {s : Mnt} (hs : Solo s) (hc : s.fs.desc.sbCodec = false) (sb : Buf) :
    Post (v7OpenTotals sb s) (fun _ t => ∃ x y k,
      t = { s with fs := { s.fs with tfree := x, tinode := y }, ios := k } ∧
      (s.fs.desc.isizeCount = false → storesTotals s.fs.desc = true → x = (withTotals s.fs sb).tfree ∧
        y = (withTotals s.fs sb).tinode))
      (fun _ _ => True) := by
  have hcount : ∀ P : Prop, ¬ P → Post (countFree s) (fun _ t => ∃ x y k,
    t = { s with fs := { s.fs with tfree := x, tinode := y }, ios := k } ∧
      (P → x = (withTotals s.fs sb).tfree ∧ y = (withTotals s.fs sb).tinode)) (fun _ _ => True) := by
    intro P hP
    refine post_bindFs (post_bind ((countChain_peeks _ _ _ _ _ s).mono ?_ fun _ _ _ => trivial))
    intro blocks t ht
    obtain ⟨k, -, rfl⟩ := ht hs
    refine post_bind ((countLive_peeks _ _ _ _).mono ?_ fun _ _ _ => trivial)
    intro used t ht
    obtain ⟨k', -, rfl⟩ := ht hs
    exact ⟨_, _, k', rfl, fun h => absurd h hP⟩
  refine post_bindFs (post_ite (fun h => ?_) fun _ => post_ite (fun h => ?_) fun hi =>
    post_ite (fun h => ?_) fun h => ?_)
  · rw [hc] at h
    cases h
  · refine (hcount (s.fs.desc.isizeCount = false) (by simp [h])).mono ?_ fun _ _ _ => trivial
    intro _ t hr
    obtain ⟨x, y, k, rfl, hxy⟩ := hr
    exact ⟨x, y, k, rfl, fun h' _ => hxy h'⟩
  · refine ⟨_, _, s.ios, rfl, fun h1 h2 => ?_⟩
    unfold withTotals
    rw [if_pos ⟨h1, h2⟩]
    exact ⟨rfl, rfl⟩
  · refine (hcount (storesTotals s.fs.desc = true) ?_).mono ?_ fun _ _ _ => trivial
    · unfold storesTotals
      simpa using h
    · intro _ t hr
      obtain ⟨x, y, k, rfl, hxy⟩ := hr
      exact ⟨x, y, k, rfl, fun _ h' => hxy h'⟩

/-- The superblock an open reads is the one on the image; System V's names the block size. -/
theorem v7OpenSuper_decodes {s : Mnt} (hs : Solo s) :
    Post (v7OpenSuper s) (fun sb t => sb = superOf s.fs s.img ∧
      ∃ b n k, t = { s with fs := { s.fs with desc := { s.fs.desc with bsize := b, nindir := n } }, ios := k })
      (fun _ _ => True) := by
  refine post_bindFs (post_ite ?_ ?_)
  · intro hdyn
    have hsuper : superOf s.fs s.img = window s.img (512 + s.fs.base) 512 := by
      unfold superOf superOff superLen
      rw [if_pos hdyn, if_pos hdyn]
    refine post_bind (post_failAs (post_ioRead (fun _ _ => ?_) fun _ => trivial))
    rw [touch_solo hs]
    refine post_ite (fun _ => trivial) fun _ => post_ite (fun _ => trivial) fun _ => post_bindMod ?_
    refine post_failAs (post_ioRead (fun _ _ => ?_) fun _ => trivial)
    rw [touch_solo (by exact hs)]
    exact ⟨hsuper.symm, _, _, _, rfl⟩
  · intro hdyn
    have hsuper : superOf s.fs s.img = blockOf s.fs s.img 1 := by
      unfold superOf superOff superLen
      rw [if_neg hdyn, if_neg hdyn]
      rfl
    refine post_failAs ((v7fsReadBlock_spec 1 hs).mono ?_ fun _ _ _ => trivial)
    intro sb t h
    obtain ⟨rfl, ht⟩ := h
    obtain ⟨k, -, rfl⟩ := ht hs
    exact ⟨hsuper.symm, s.fs.desc.bsize, s.fs.desc.nindir, k, rfl⟩

/-- An open that goes through has decoded the superblock of the image. -/
theorem v7fsOpen_decodes {s : Mnt} (hs : Solo s) {d : Desc} (hc : d.sbCodec = false)
    (readonly : Bool) (base : Nat) :
    Post (v7fsOpen readonly d base s) (fun _ t => ∃ b n : Nat, ∃ fs₀ : Fs,
      fs₀.desc = { d with bsize := b, nindir := n } ∧
      ∀ fs, fs.desc = d → Restored fs (inlineDecode fs₀ (superOf { desc := d, base := base } s.img)) →
      Restored fs t.fs) (fun _ _ => True) := by
  refine post_bindMod (post_bind ((openImage_spec _).mono ?_ fun _ _ _ => trivial))
  intro r t heq
  cases r
  subst heq
  have hs₁ : Solo { s with fs := { desc := d, readonly := readonly, base := base } } := hs
  refine post_bind ((v7OpenSuper_decodes hs₁).mono ?_ fun _ _ _ => trivial)
  intro sb t hrun
  obtain ⟨rfl, b, n, k, rfl⟩ := hrun
  generalize hsb : superOf { desc := d, readonly := readonly, base := base } s.img = sb
  have hsb' : superOf { desc := d, base := base } s.img = sb := hsb
  generalize h₀ : ({ desc := { d with bsize := b, nindir := n }, readonly := readonly, base := base } :
    Fs) = fs₀
  have hdesc : fs₀.desc = { d with bsize := b, nindir := n } := by rw [← h₀]
  have hdec : (sbDecode fs₀ sb).desc = fs₀.desc := (sbDecode_settled fs₀ sb).1
  rw [hsb']
  refine post_bindMod (post_bindFs (post_ite (fun _ => trivial) fun _ => ?_))
  refine post_bind (post_onlyIf (fun h => ?_) fun _ => ?_)
  · have hcodec : (sbDecode fs₀ sb).desc.sbCodec = true := h.1
    rw [hdec, hdesc] at hcodec
    exact absurd hcodec (by simp [hc])
  have hs₂ : Solo { s with fs := sbDecode fs₀ sb, ios := k } := hs
  refine post_bind ((v7OpenTotals_decodes hs₂ (by rw [hdec, hdesc]; exact hc) sb).mono ?_ fun _ _ _ => trivial)
  intro _ t hrun
  obtain ⟨x, y, k', rfl, hxy⟩ := hrun
  have hstep : Post (onlyIf (sbDecode fs₀ sb).desc.interleave (modFs fun fs => { fs with
        m := (sbDecode fs₀ sb).desc.bo.get16 sb (timeOff (sbDecode fs₀ sb).desc + 10)
        n := (sbDecode fs₀ sb).desc.bo.get16 sb (timeOff (sbDecode fs₀ sb).desc + 12)
        unique := (sbDecode fs₀ sb).desc.bo.get32 sb (timeOff (sbDecode fs₀ sb).desc + 26) })
      { s with fs := { sbDecode fs₀ sb with tfree := x, tinode := y }, ios := k' })
      (fun _ t => t = { s with fs := withInterleave { sbDecode fs₀ sb with tfree := x, tinode := y } sb, ios := k' })
      (fun _ _ => True) := by
    unfold withInterleave
    apply post_onlyIf
    · intro hi
      rw [if_pos hi]
      rfl
    · intro hi
      rw [if_neg hi]
  refine post_bind (hstep.mono ?_ fun _ _ _ => trivial)
  rintro _ t rfl
  refine post_ite (fun _ => trivial) fun _ => post_get (post_ite (fun _ => trivial) fun _ => ?_)
  refine ⟨b, n, fs₀, hdesc, fun fs hfs hr => hr.congr ?_ (fun h1 h2 => ?_) fun h1 => ?_⟩
  · have hkeep := (withInterleave_cached { sbDecode fs₀ sb with tfree := x, tinode := y } sb).trans
      (inlineDecode_cached fs₀ sb).symm
    exact congrArg Prod.snd hkeep
  · obtain ⟨hx, hy⟩ := hxy (by rw [hdec, hdesc, ← hfs]; exact h1) (by rw [hdec, hdesc, ← hfs]; exact h2)
    have hleft := withInterleave_totals { sbDecode fs₀ sb with tfree := x, tinode := y } sb
    have hright := withInterleave_totals (withTotals (sbDecode fs₀ sb) sb) sb
    exact ⟨(hleft.1.trans hx).trans hright.1.symm, (hleft.2.trans hy).trans hright.2.symm⟩
  · have hi : (sbDecode fs₀ sb).desc.interleave = true := by
      rw [hdec, hdesc, ← hfs]
      exact h1
    obtain ⟨hm, hn, hu⟩ := inlineDecode_interleave (show fs₀.desc.interleave = true by rw [← hdec]; exact hi) sb
    rw [hm, hn, hu, ← hdec]
    show (withInterleave { sbDecode fs₀ sb with tfree := x, tinode := y } sb).m = _ ∧
      (withInterleave { sbDecode fs₀ sb with tfree := x, tinode := y } sb).n = _ ∧
      (withInterleave { sbDecode fs₀ sb with tfree := x, tinode := y } sb).unique = _
    unfold withInterleave
    rw [if_pos hi]
    exact ⟨rfl, rfl, rfl⟩

/-- The mount may write, and the image holds its superblock. -/
structure CanFlush (s : Mnt) : Prop where
  solo : Solo s
  writable : s.fs.readonly = false
  imgsize : s.fs.imgsize = s.size
  inside : superOff s.fs + superLen s.fs ≤ s.size
  quiet : ∀ k, s.env.fails k = false

namespace CanFlush

variable {s : Mnt} (h : CanFlush s)

include h

theorem inRange {off n : Nat} (hin : off + n ≤ s.size) : checkRange s.fs off n = true := by
  unfold checkRange
  rw [h.imgsize]
  simp only [Bool.or_eq_true, beq_iff_eq, Bool.and_eq_true, decide_eq_true_eq]
  omega

theorem post_superRead {Q : Buf → Mnt → Prop} {E : Errno → Mnt → Prop}
    (hok : Q (superOf s.fs s.img) (ticked s)) : Post (superRead s) Q E := by
  have hin := h.inside
  have hread : ∀ {off n : Nat}, off + n ≤ s.size → Q (window s.img off n) (ticked s) →
    Post (ioRead n off s) Q E := by
    intro off n hle hq
    apply post_ioRead
    · intro _ _
      rwa [touch_solo h.solo]
    · intro hf
      rw [h.quiet] at hf
      rcases hf with hf | hf
      · cases hf
      · omega
  unfold superOf superOff superLen at hok
  unfold superOff superLen at hin
  refine post_bindFs (post_ite ?_ ?_)
  · intro hdyn
    rw [if_pos hdyn, if_pos hdyn] at hok hin
    exact hread hin hok
  · intro hdyn
    rw [if_neg hdyn, if_neg hdyn] at hok hin
    exact post_bindFs (post_ite (fun _ => hread hin hok) fun hc => absurd (h.inRange hin) hc)

theorem post_superPut {buf : Buf} {Q : Unit → Mnt → Prop} {E : Errno → Mnt → Prop}
    (hok : Q () (put .super buf (superLen s.fs) (superOff s.fs) s)) : Post (superPut buf s) Q E := by
  have hin := h.inside
  have hwrite : ∀ {off n : Nat}, off + n ≤ s.size → Q () (put .super buf n off s) →
    Post (ioWrite .super buf n off s) Q E := by
    intro off n hle hq
    apply post_ioWrite
    · intro _
      rwa [wrote_solo h.solo hle]
    · intro hf
      rw [h.quiet] at hf
      cases hf
  unfold superOff superLen at hok hin
  refine post_bindFs (post_ite ?_ ?_)
  · intro hdyn
    rw [if_pos hdyn, if_pos hdyn] at hok hin
    exact hwrite hin hok
  · intro hdyn
    rw [if_neg hdyn, if_neg hdyn] at hok hin
    refine post_bindFs (post_ite (fun hr => ?_) fun _ => post_ite (fun _ => hwrite hin hok) fun hc =>
      absurd (h.inRange hin) hc)
    rw [h.writable] at hr
    cases hr

theorem v7fsSuperWrite_ok : v7fsSuperWrite s = .ok () (flushed s) := by
  have hpost : Post (v7fsSuperWrite s) (fun _ t => t = flushed s) (fun _ _ => False) := by
    refine post_bindFs (post_ite (fun hr => ?_) fun _ => ?_)
    · rw [h.writable] at hr
      cases hr
    refine post_bind (post_failAs (h.post_superRead ?_))
    have h' : CanFlush { ticked s with ticks := s.ticks + 1 } :=
      ⟨h.solo, h.writable, h.imgsize, h.inside, h.quiet⟩
    exact post_bind (post_bind (post_failAs (h'.post_superPut rfl)))
  obtain ⟨_, t, hr, rfl⟩ := hpost.succeeds
  exact hr

end CanFlush

/-- A byte of no field is what it was. -/
theorem flushed_outside {s : Mnt} (hc : s.fs.desc.sbCodec = false) {now : Nat}
    (hnow : now = s.env.clock s.ticks % 2 ^ 32) {i : Nat}
    (h : ∀ f ∈ sbFields s.fs now, ¬ Field.Covers (superOff s.fs + f.off, f.len) i) :
    (flushed s).img i = s.img i := by
  show splice s.img (superOff s.fs) (superNow s) 0 (superLen s.fs) i = s.img i
  by_cases hin : superOff s.fs ≤ i ∧ i < superOff s.fs + superLen s.fs
  · obtain ⟨k, rfl⟩ := Nat.exists_eq_add_of_le hin.1
    have hk : k < superLen s.fs := by omega
    rw [splice_inside hk, Nat.zero_add]
    have hout : superNow s k = superOf s.fs s.img k := by
      unfold superNow
      rw [sbEncode_eq hc, ← hnow]
      refine record_outside (fun f hf hcov => h f hf ?_) _
      unfold Field.Covers Field.span at *
      omega
    rw [hout]
    exact window_inside hk
  · exact splice_outside (by omega)

theorem flushed_spares {s : Mnt} (hd : SoundSpans s.fs.desc) {o : Nat}
    (h : ∀ p ∈ sbSpans s.fs.desc, Field.Apart p (o, 4)) {i : Nat} (hi : i < 4) :
    superOf s.fs (flushed s).img (o + i) = superOf s.fs s.img (o + i) := by
  unfold superOf window
  split
  · refine flushed_outside hd.inline rfl fun f hf hcov => ?_
    have hmem := List.mem_map_of_mem (f := Field.span) hf
    rw [sbFields_spans] at hmem
    have hap := h _ hmem
    unfold Field.Apart Field.span at hap
    unfold Field.Covers at hcov
    omega
  · rfl

/-- For every format with the inline codec and every state that fits it: a flush succeeds, its fields do not
    overlap and every other byte of the image keeps its value, the magic and `s_type` among them; decoded, the
    superblock gives the state back, and so does an open that goes through. -/
theorem superblock_round_trip {s : Mnt} (hd : InlineFormat s.fs.desc) (hfit : SbFits s.fs) (h : CanFlush s) :
    ∃ t now, v7fsSuperWrite s = .ok () t ∧
      Restored s.fs (inlineDecode { desc := s.fs.desc } (superOf s.fs t.img)) ∧
      (∀ readonly, Post (v7fsOpen readonly s.fs.desc s.fs.base t) (fun _ u => Restored s.fs u.fs)
        (fun _ _ => True)) ∧
      ((sbFields s.fs now).map Field.span).Pairwise Field.Apart ∧
      (∀ i, (∀ f ∈ sbFields s.fs now, ¬ Field.Covers (superOff s.fs + f.off, f.len) i) → t.img i = s.img i) ∧
      (s.fs.desc.magic ≠ 0 → ∀ i, i < 4 →
        superOf s.fs t.img (s.fs.desc.magicOff + i) = superOf s.fs s.img (s.fs.desc.magicOff + i)) ∧
      (s.fs.desc.dynBsize = true → ∀ i, i < 4 →
        superOf s.fs t.img (508 + i) = superOf s.fs s.img (508 + i)) := by
  have hsp := hd.sound
  have hsuper : superOf s.fs (flushed s).img = window (superNow s) 0 (superLen s.fs) :=
    superOf_putSuper s.fs s.img (superNow s)
  refine ⟨flushed s, s.env.clock s.ticks % 2 ^ 32, h.v7fsSuperWrite_ok, ?_, ?_, fields_apart hsp _,
    fun i hi => flushed_outside hsp.inline rfl hi, fun hm i hi => flushed_spares hsp (hsp.magic hm) hi,
    fun hdyn i hi => flushed_spares hsp (hsp.type hdyn) hi⟩
  · rw [hsuper]
    exact restored_decode hsp hfit _ _ rfl
  · intro readonly
    have hs : Solo (flushed s) := h.solo
    refine (v7fsOpen_decodes hs hsp.inline readonly s.fs.base).mono ?_ fun _ _ _ => trivial
    intro _ u hr
    obtain ⟨b, n, fs₀, h₀, hopen⟩ := hr
    refine hopen s.fs rfl ?_
    have hsame : superOf { desc := s.fs.desc, base := s.fs.base } (flushed s).img =
      superOf s.fs (flushed s).img := rfl
    rw [hsame, hsuper]
    exact restored_decode hsp hfit _ _ h₀

/-- A V7 volume of sixty blocks in core, its block cache full and two inodes cached; its flag is a 2
    some other system left there. -/
def twoFlag : Mnt where
  fs := { desc := descV7, isize := 3, fsize := 60, imgsize := 30720, nfree := 50
          free := fun i => if i < 50 then 59 - i else 0
          ninode := 2, inode := fun i => if i < 2 then 4 + i else 0, fmod := 2, tfree := 50, tinode := 2 }
  img := zeroBuf
  size := 30720

theorem twoFlag_inline : InlineFormat twoFlag.fs.desc :=
  ⟨.v7, .me, false, false, 512, 128, by decide, by decide, rfl, fun _ => rfl, rfl⟩

theorem twoFlag_fits : SbFits twoFlag.fs :=
  ⟨by decide, by decide, by decide, by decide, by decide, by decide, by decide, fun _ _ =>
    ⟨by decide, by decide⟩, fun h => by cases h⟩

theorem twoFlag_canFlush : CanFlush twoFlag := ⟨fun _ _ => rfl, rfl, rfl, by decide, fun _ => rfl⟩

theorem a_v7_superblock_comes_back : ∃ t, v7fsSuperWrite twoFlag = .ok () t ∧
    Restored twoFlag.fs (inlineDecode { desc := descV7 } (superOf twoFlag.fs t.img)) ∧
    Post (v7fsOpen true descV7 0 t) (fun _ u => Restored twoFlag.fs u.fs) fun _ _ => True := by
  obtain ⟨t, now, hw, hr, hopen, -⟩ := superblock_round_trip twoFlag_inline twoFlag_fits twoFlag_canFlush
  exact ⟨t, hw, hr, hopen true⟩

/-- A flag of 2 comes back as 1. -/
theorem a_flag_of_two_comes_back_as_one :
    InlineFormat twoFlag.fs.desc ∧ SbFits twoFlag.fs ∧ CanFlush twoFlag ∧ twoFlag.fs.fmod = 2 ∧
      ∃ t, v7fsSuperWrite twoFlag = .ok () t ∧
      (inlineDecode { desc := descV7 } (superOf twoFlag.fs t.img)).fmod = 1 := by
  refine ⟨twoFlag_inline, twoFlag_fits, twoFlag_canFlush, rfl, flushed twoFlag,
    twoFlag_canFlush.v7fsSuperWrite_ok, ?_⟩
  have hsuper : superOf twoFlag.fs (flushed twoFlag).img =
    window (superNow twoFlag) 0 (superLen twoFlag.fs) := superOf_putSuper _ _ _
  rw [hsuper]
  have hdesc : ({ desc := descV7 } : Fs).desc = { twoFlag.fs.desc with bsize := 512, nindir := 128 } := rfl
  exact (restored_decode twoFlag_inline.sound twoFlag_fits _ _ hdesc).fmod

end Filsys.Mount
