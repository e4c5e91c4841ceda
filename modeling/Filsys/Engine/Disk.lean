/-
  Filsys.Engine.Disk — a mounted byte-addressed volume, one block at a time.

  `Mounted` is what a read-write open leaves behind: the volume lies inside the image,
  the superblock below the i-list, the i-list below the data area. On such a volume the
  block routines read `blockOf` and write `putBlock`, and fail only with a failing
  transfer.
-/

import Filsys.Engine.View

namespace Filsys.Engine

open Filsys.Lib

/-- A read-write mount of a byte-addressed volume that no other process writes to. -/
structure Mounted (s : Mnt) : Prop where
  solo : Solo s
  notPdp7 : s.fs.desc.ops ≠ .pdp7
  writable : s.fs.readonly = false
  bsize : 512 ≤ s.fs.desc.bsize
  v1Bsize : s.fs.desc.ops = .v1 → s.fs.desc.bsize = 512
  fits : s.fs.base + s.fs.fsize * s.fs.desc.bsize ≤ s.size
  imgsize : s.fs.imgsize = s.size
  first : 2 ≤ opsDataStart s.fs
  room : opsDataStart s.fs < opsDataEnd s.fs
  last : opsDataEnd s.fs ≤ s.fs.fsize

/-- What never changes while a volume is mounted. -/
structure Shape where
  desc : Desc
  readonly : Bool
  base : Nat
  imgsize : Nat
  isize : Nat
  fsize : Nat
  maxino : Nat
  freemapBytes : Nat
  inodemapBytes : Nat
  v8Nbits : Nat
  v8Base : Nat
  v8Nblks : Nat
  v8BlkStart : Nat

def shape (fs : Fs) : Shape where
  desc := fs.desc
  readonly := fs.readonly
  base := fs.base
  imgsize := fs.imgsize
  isize := fs.isize
  fsize := fs.fsize
  maxino := fs.maxino
  freemapBytes := fs.freemapBytes
  inodemapBytes := fs.inodemapBytes
  v8Nbits := fs.v8Nbits
  v8Base := fs.v8Base
  v8Nblks := fs.v8Nblks
  v8BlkStart := fs.v8BlkStart

section Shape

variable {fs fs' : Fs} (h : shape fs' = shape fs)

include h

theorem shape_desc : fs'.desc = fs.desc := congrArg Shape.desc h
theorem shape_base : fs'.base = fs.base := congrArg Shape.base h
theorem shape_isize : fs'.isize = fs.isize := congrArg Shape.isize h
theorem shape_fsize : fs'.fsize = fs.fsize := congrArg Shape.fsize h
theorem shape_maxino : fs'.maxino = fs.maxino := congrArg Shape.maxino h
theorem shape_nblks : fs'.v8Nblks = fs.v8Nblks := congrArg Shape.v8Nblks h

theorem shape_dataFirst : v7DataFirst fs' = v7DataFirst fs := by
  unfold v7DataFirst
  rw [shape_desc h, shape_isize h]

theorem shape_dataStart : opsDataStart fs' = opsDataStart fs := by
  unfold opsDataStart
  rw [shape_desc h, shape_dataFirst h, shape_maxino h]

theorem shape_dataEnd : opsDataEnd fs' = opsDataEnd fs := by
  unfold opsDataEnd
  rw [shape_desc h, shape_fsize h, shape_nblks h]

theorem shape_blockOf : blockOf fs' = blockOf fs := by
  funext img b
  unfold blockOf
  rw [shape_desc h, shape_base h]

theorem shape_inData {b : Nat} : InData fs' b ↔ InData fs b := by
  unfold InData
  rw [shape_dataFirst h, shape_fsize h]

end Shape

/-- The same volume, mounted the same way. -/
structure SameVol (s t : Mnt) : Prop where
  shape : shape t.fs = shape s.fs
  size : t.size = s.size
  env : t.env = s.env

theorem sameVol_law : Law SameVol where
  refl _ := ⟨rfl, rfl, rfl⟩
  trans h h' := ⟨h'.shape.trans h.shape, h'.size.trans h.size, h'.env.trans h.env⟩

theorem Mounted.of_sameVol {s t : Mnt} (hm : Mounted s) (h : SameVol s t) : Mounted t where
  solo := by
    intro k img
    rw [h.env]
    exact hm.solo k img
  notPdp7 := by rw [shape_desc h.shape]; exact hm.notPdp7
  writable := (congrArg Shape.readonly h.shape).trans hm.writable
  bsize := by rw [shape_desc h.shape]; exact hm.bsize
  v1Bsize := by rw [shape_desc h.shape]; exact hm.v1Bsize
  fits := by rw [shape_base h.shape, shape_fsize h.shape, shape_desc h.shape, h.size]; exact hm.fits
  imgsize := (congrArg Shape.imgsize h.shape).trans (hm.imgsize.trans h.size.symm)
  first := by rw [shape_dataStart h.shape]; exact hm.first
  room := by rw [shape_dataStart h.shape, shape_dataEnd h.shape]; exact hm.room
  last := by rw [shape_dataEnd h.shape, shape_fsize h.shape]; exact hm.last

/-! ## Blocks of an image -/

/-- The image with block `b` overwritten. -/
def putBlock (fs : Fs) (img : Buf) (b : Nat) (buf : Buf) : Buf :=
  splice img (fs.base + b * fs.desc.bsize) buf 0 fs.desc.bsize

theorem blockOf_putBlock (fs : Fs) (img : Buf) (b : Nat) (buf : Buf) :
    blockOf fs (putBlock fs img b buf) b = window buf 0 fs.desc.bsize := by
  funext i
  unfold blockOf putBlock
  by_cases hi : i < fs.desc.bsize
  · rw [window_inside hi, window_inside hi, splice_inside hi]
  · rw [window, window, if_neg hi, if_neg hi]

/-- Different blocks do not overlap. -/
theorem block_disjoint (base bsize : Nat) {b b' : Nat} (h : b ≠ b') :
    base + b * bsize + bsize ≤ base + b' * bsize ∨ base + b' * bsize + bsize ≤ base + b * bsize := by
  rcases Nat.lt_or_gt_of_ne h with hlt | hlt
  · have hle : (b + 1) * bsize ≤ b' * bsize := Nat.mul_le_mul_right _ hlt
    rw [Nat.succ_mul] at hle
    omega
  · have hle : (b' + 1) * bsize ≤ b * bsize := Nat.mul_le_mul_right _ hlt
    rw [Nat.succ_mul] at hle
    omega

theorem blockOf_putBlock_ne {fs : Fs} {b b' : Nat} (h : b' ≠ b) (img : Buf) (buf : Buf) :
    blockOf fs (putBlock fs img b buf) b' = blockOf fs img b' := by
  refine window_congr fun i hlo hhi => splice_outside ?_
  have := block_disjoint fs.base fs.desc.bsize h
  omega

/-- Where the superblock lies, and how long it is. -/
def superOff (fs : Fs) : Nat := if fs.desc.dynBsize then 512 + fs.base else fs.base + 1 * fs.desc.bsize
def superLen (fs : Fs) : Nat := if fs.desc.dynBsize then 512 else fs.desc.bsize

def superOf (fs : Fs) (img : Buf) : Buf := window img (superOff fs) (superLen fs)
def putSuper (fs : Fs) (img buf : Buf) : Buf := splice img (superOff fs) buf 0 (superLen fs)

theorem superOf_putSuper (fs : Fs) (img buf : Buf) :
    superOf fs (putSuper fs img buf) = window buf 0 (superLen fs) := by
  funext i
  unfold superOf putSuper
  by_cases hi : i < superLen fs
  · rw [window_inside hi, window_inside hi, splice_inside hi]
  · rw [window, window, if_neg hi, if_neg hi]

theorem super_below {fs : Fs} (hb : 512 ≤ fs.desc.bsize) {b : Nat} (h2 : 2 ≤ b) :
    superOff fs + superLen fs ≤ fs.base + b * fs.desc.bsize := by
  have hle : 2 * fs.desc.bsize ≤ b * fs.desc.bsize := Nat.mul_le_mul_right _ h2
  unfold superOff superLen
  split
  · omega
  · omega

theorem superOf_putBlock {fs : Fs} (hb : 512 ≤ fs.desc.bsize) {b : Nat} (h2 : 2 ≤ b) (img buf : Buf) :
    superOf fs (putBlock fs img b buf) = superOf fs img := by
  refine window_congr fun i hlo hhi => splice_outside ?_
  have := super_below hb h2
  omega

theorem blockOf_putSuper {fs : Fs} (hb : 512 ≤ fs.desc.bsize) {b : Nat} (h2 : 2 ≤ b) (img buf : Buf) :
    blockOf fs (putSuper fs img buf) b = blockOf fs img b := by
  refine window_congr fun i hlo hhi => splice_outside ?_
  have := super_below hb h2
  omega

/-! ## Transfers on a mounted volume -/

/-- One transfer later. -/
def ticked (s : Mnt) : Mnt := { s with ios := s.ios + 1 }

theorem touch_solo {s : Mnt} (hs : Solo s) : touch s = ticked s := by
  unfold touch ticked
  rw [hs]

/-- The state a write of `n` bytes at `off` leaves. -/
def put (site : Site) (buf : Buf) (n off : Nat) (s : Mnt) : Mnt :=
  { ticked s with
    img := splice s.img off buf 0 n
    trace := ⟨site, s.fs, off, n, s.img, splice s.img off buf 0 n⟩ :: s.trace }

theorem wrote_solo {s : Mnt} (hs : Solo s) {site : Site} {buf : Buf} {n off : Nat} (hin : off + n ≤ s.size) :
    wrote site buf n off s = put site buf n off s := by
  unfold wrote put
  rw [touch_solo hs, Nat.max_eq_left hin]
  rfl

/-- Block `b` written. -/
def putAt (site : Site) (b : Nat) (buf : Buf) (s : Mnt) : Mnt :=
  put site buf s.fs.desc.bsize (s.fs.base + b * s.fs.desc.bsize) s

@[simp] theorem putAt_fs (site : Site) (b : Nat) (buf : Buf) (s : Mnt) : (putAt site b buf s).fs = s.fs := rfl
@[simp] theorem putAt_img (site : Site) (b : Nat) (buf : Buf) (s : Mnt) :
    (putAt site b buf s).img = putBlock s.fs s.img b buf := rfl
@[simp] theorem ticked_fs (s : Mnt) : (ticked s).fs = s.fs := rfl
@[simp] theorem ticked_img (s : Mnt) : (ticked s).img = s.img := rfl
@[simp] theorem ticked_trace (s : Mnt) : (ticked s).trace = s.trace := rfl

theorem ticked_sameVol (s : Mnt) : SameVol s (ticked s) := ⟨rfl, rfl, rfl⟩

theorem putAt_sameVol (site : Site) (b : Nat) (buf : Buf) (s : Mnt) : SameVol s (putAt site b buf s) :=
  ⟨rfl, rfl, rfl⟩

/-- The superblock a flush puts down. -/
def superNow (s : Mnt) : Buf := sbEncode s.fs (s.env.clock s.ticks % 2 ^ 32) (superOf s.fs s.img)

/-- The state a flush leaves. -/
def flushed (s : Mnt) : Mnt :=
  { s with
    fs := { s.fs with flDirty := false }
    img := putSuper s.fs s.img (superNow s)
    ios := s.ios + 2
    ticks := s.ticks + 1
    trace := ⟨.super, s.fs, superOff s.fs, superLen s.fs, s.img, putSuper s.fs s.img (superNow s)⟩ :: s.trace }

theorem flushed_sameVol (s : Mnt) : SameVol s (flushed s) := ⟨rfl, rfl, rfl⟩

namespace Mounted

variable {s : Mnt} (hm : Mounted s)

include hm

theorem block_fits {b : Nat} (hb : b < s.fs.fsize) :
    s.fs.base + b * s.fs.desc.bsize + s.fs.desc.bsize ≤ s.size := by
  have hle : (b + 1) * s.fs.desc.bsize ≤ s.fs.fsize * s.fs.desc.bsize := Nat.mul_le_mul_right _ hb
  rw [Nat.succ_mul] at hle
  have := hm.fits
  omega

theorem inRange {off n : Nat} (h : off + n ≤ s.size) : checkRange s.fs off n = true := by
  unfold checkRange
  rw [hm.imgsize]
  simp only [Bool.or_eq_true, beq_iff_eq, Bool.and_eq_true, decide_eq_true_eq]
  omega

theorem post_read {b : Nat} (hb : b < s.fs.fsize) {Q : Buf → Mnt → Prop} {E : Errno → Mnt → Prop}
    (hok : s.env.fails s.ios = false → Q (blockOf s.fs s.img b) (ticked s))
    (herr : s.env.fails s.ios = true → ∀ e, E e (ticked s)) : Post (v7fsReadBlock b s) Q E := by
  have hfit := hm.block_fits hb
  refine post_bindFs (post_ite (fun _ => ?_) fun hc => absurd (hm.inRange hfit) hc)
  apply post_ioRead
  · intro hf _
    rw [touch_solo hm.solo]
    exact hok hf
  · intro hf
    rw [touch_solo hm.solo]
    exact herr (hf.resolve_right (by omega)) _

theorem post_write {site : Site} {b : Nat} {buf : Buf} (hb : b < s.fs.fsize) {Q : Unit → Mnt → Prop}
    {E : Errno → Mnt → Prop} (hok : s.env.fails s.ios = false → Q () (putAt site b buf s))
    (herr : s.env.fails s.ios = true → ∀ e, E e (ticked s)) : Post (v7fsWriteBlock site b buf s) Q E := by
  have hfit := hm.block_fits hb
  refine post_bindFs (post_ite (fun h => absurd h (by simp [hm.writable])) fun _ => ?_)
  refine post_ite (fun _ => ?_) fun hc => absurd (hm.inRange hfit) hc
  apply post_ioWrite
  · intro hf
    rw [wrote_solo hm.solo hfit]
    exact hok hf
  · intro hf
    rw [touch_solo hm.solo]
    exact herr hf _

theorem one_lt : 1 < s.fs.fsize := by
  have := hm.first
  have := hm.room
  have := hm.last
  omega

theorem start_lt : opsDataStart s.fs < s.fs.fsize := Nat.lt_of_lt_of_le hm.room hm.last

theorem super_fits : superOff s.fs + superLen s.fs ≤ s.size := by
  have hlow := super_below hm.bsize hm.first
  have hfit := hm.block_fits hm.start_lt
  omega

theorem post_superRead {Q : Buf → Mnt → Prop} {E : Errno → Mnt → Prop}
    (hok : s.env.fails s.ios = false → Q (superOf s.fs s.img) (ticked s))
    (herr : s.env.fails s.ios = true → ∀ e, E e (ticked s)) : Post (superRead s) Q E := by
  have hfit := hm.super_fits
  refine post_bindFs (post_ite ?_ ?_)
  · intro hd
    have hoff : superOff s.fs = 512 + s.fs.base := if_pos hd
    have hlen : superLen s.fs = 512 := if_pos hd
    unfold superOf at hok
    rw [hoff, hlen] at hok hfit
    apply post_ioRead
    · intro hf _
      rw [touch_solo hm.solo]
      exact hok hf
    · intro hf
      rw [touch_solo hm.solo]
      exact herr (hf.resolve_right (by omega)) _
  · intro hd
    have hoff : superOff s.fs = s.fs.base + 1 * s.fs.desc.bsize := if_neg hd
    have hlen : superLen s.fs = s.fs.desc.bsize := if_neg hd
    unfold superOf at hok
    rw [hoff, hlen] at hok
    exact hm.post_read hm.one_lt hok herr

theorem post_superPut {buf : Buf} {Q : Unit → Mnt → Prop} {E : Errno → Mnt → Prop}
    (hok : s.env.fails s.ios = false → Q () (put .super buf (superLen s.fs) (superOff s.fs) s))
    (herr : s.env.fails s.ios = true → ∀ e, E e (ticked s)) : Post (superPut buf s) Q E := by
  have hfit := hm.super_fits
  refine post_bindFs (post_ite ?_ ?_)
  · intro hd
    have hoff : superOff s.fs = 512 + s.fs.base := if_pos hd
    have hlen : superLen s.fs = 512 := if_pos hd
    rw [hoff, hlen] at hok hfit
    apply post_ioWrite
    · intro hf
      rw [wrote_solo hm.solo hfit]
      exact hok hf
    · intro hf
      rw [touch_solo hm.solo]
      exact herr hf _
  · intro hd
    have hoff : superOff s.fs = s.fs.base + 1 * s.fs.desc.bsize := if_neg hd
    have hlen : superLen s.fs = s.fs.desc.bsize := if_neg hd
    rw [hoff, hlen] at hok
    exact hm.post_write hm.one_lt hok herr

/-- A flush that fails has made transfers and read the clock, and no more. -/
theorem post_superWrite {Q : Unit → Mnt → Prop} {E : Errno → Mnt → Prop}
    (hok : s.env.fails s.ios = false → s.env.fails (s.ios + 1) = false → Q () (flushed s))
    (herr : ∀ i j e, s.env.fails s.ios = true ∨ s.env.fails (s.ios + 1) = true →
      E e { s with ios := i, ticks := j }) :
    Post (v7fsSuperWrite s) Q E := by
  refine post_bindFs (post_ite (fun h => absurd h (by simp [hm.writable])) fun _ => ?_)
  refine post_bind (post_failAs (hm.post_superRead (fun hf => ?_) fun hf _ => herr _ s.ticks _ (.inl hf)))
  have hm' : Mounted { ticked s with ticks := s.ticks + 1 } := hm.of_sameVol ⟨rfl, rfl, rfl⟩
  refine post_bind (post_bind
    (post_failAs (hm'.post_superPut (fun hf' => ?_) fun hf' _ => herr _ _ _ (.inr hf'))))
  exact hok hf hf'

end Mounted

end Filsys.Engine
