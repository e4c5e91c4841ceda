/-
  Filsys.Engine.Aside — what of the in-core state a routine leaves as it was.

  `SameIn f` relates two mounts whose in-core states `f` reads alike. A transfer changes
  no in-core state, so every routine made of transfers keeps `SameIn f` for every `f`;
  the last part of an open keeps it for an `f` that looks at none of the totals, the
  interleave and the image size (`Incidental`).
-/

import Filsys.Engine.Open
import Filsys.Engine.Salvage
import Filsys.Engine.Transfer

namespace Filsys.Engine

open Filsys.Lib

variable {α β : Type} {f : Fs → β}

/-- The in-core states read alike under `f`. -/
def SameIn (f : Fs → β) (s t : Mnt) : Prop := f t.fs = f s.fs

theorem sameIn_law (f : Fs → β) : Law (SameIn f) where
  refl _ := rfl
  trans h h' := h'.trans h

namespace SameIn

theorem bindFs {x : Fs → M α} (hx : ∀ fs, Keeps (SameIn f) (x fs)) : Keeps (SameIn f) (getFs >>= x) :=
  fun s => hx s.fs s

theorem modFs {g : Fs → Fs} (h : ∀ fs, f (g fs) = f fs) : Keeps (SameIn f) (modFs g) := fun s => h s.fs

theorem seq {γ : Type} {x : M α} {y : α → M γ} (hx : Keeps (SameIn f) x)
    (hy : ∀ a, Keeps (SameIn f) (y a)) : Keeps (SameIn f) (x >>= y) :=
  keeps_bind (sameIn_law f) hx hy

theorem ret (a : α) : Keeps (SameIn f) (pure a : M α) := keeps_pure (sameIn_law f)

theorem fail (e : Errno) : Keeps (SameIn f) (throw e : M α) := keeps_throw (sameIn_law f)

/-! ## Transfers -/

theorem ioRead (n off : Nat) : Keeps (SameIn f) (ioRead n off) :=
  fun _ => post_ioRead (fun _ _ => rfl) fun _ => rfl

theorem ioWrite (site : Site) (buf : Buf) (n off : Nat) : Keeps (SameIn f) (ioWrite site buf n off) :=
  fun _ => post_ioWrite (fun _ => rfl) fun _ => rfl

theorem timeNow : Keeps (SameIn f) timeNow := fun _ => rfl

theorem v7fsReadBlock (b : Nat) : Keeps (SameIn f) (v7fsReadBlock b) :=
  bindFs fun _ => keeps_ite (ioRead _ _) (fail _)

theorem v7fsWriteBlock (site : Site) (b : Nat) (buf : Buf) : Keeps (SameIn f) (v7fsWriteBlock site b buf) :=
  bindFs fun _ => keeps_ite (fail _) (keeps_ite (ioWrite _ _ _ _) (fail _))

theorem v1fsReadBlock (b : Nat) : Keeps (SameIn f) (v1fsReadBlock b) :=
  bindFs fun _ => keeps_ite (ioRead _ _) (fail _)

theorem v1fsWriteBlock (site : Site) (b : Nat) (buf : Buf) : Keeps (SameIn f) (v1fsWriteBlock site b buf) :=
  bindFs fun _ => keeps_ite (fail _) (keeps_ite (ioWrite _ _ _ _) (fail _))

theorem readWords (b : Nat) : Keeps (SameIn f) (readWords b) :=
  bindFs fun _ => keeps_ite (seq (keeps_failAs (ioRead _ _)) fun _ => ret _) (fail _)

theorem writeWords (site : Site) (b : Nat) (w : Nat → Nat) : Keeps (SameIn f) (writeWords site b w) :=
  bindFs fun _ => keeps_ite (keeps_failAs (ioWrite _ _ _ _)) (fail _)

theorem superRead : Keeps (SameIn f) superRead := bindFs fun _ => keeps_ite (ioRead _ _) (v7fsReadBlock _)

theorem superPut (sb : Buf) : Keeps (SameIn f) (superPut sb) :=
  bindFs fun _ => keeps_ite (ioWrite _ _ _ _) (v7fsWriteBlock _ _ _)

theorem v7fsSuperWrite (hf : ∀ fs dirty, f { fs with flDirty := dirty } = f fs) :
    Keeps (SameIn f) v7fsSuperWrite :=
  bindFs fun _ => keeps_ite (ret _) (seq (keeps_failAs superRead) fun _ => seq timeNow fun _ =>
    seq (keeps_failAs (superPut _)) fun _ => modFs fun _ => hf _ _)

theorem bigmapFlush (todo k : Nat) : Keeps (SameIn f) (bigmapFlush todo k) := by
  induction todo generalizing k with
  | zero => exact ret _
  | succ todo ih => exact bindFs fun _ => seq (keeps_failAs (v7fsWriteBlock _ _ _)) fun _ => ih _

theorem v8BitmapSync (hf : ∀ fs dirty, f { fs with flDirty := dirty } = f fs) : Keeps (SameIn f) v8BitmapSync :=
  bindFs fun _ => keeps_ite (ret _) (seq (keeps_onlyIf (sameIn_law f) (bigmapFlush _ _))
    fun _ => v7fsSuperWrite hf)

theorem v1SuperWrite (hf : ∀ fs dirty, f { fs with flDirty := dirty } = f fs) : Keeps (SameIn f) v1SuperWrite :=
  bindFs fun _ => keeps_ite (ret _) (seq (keeps_failAs (v1fsReadBlock _)) fun _ =>
    seq (keeps_failAs (v1fsReadBlock _)) fun _ =>
    seq (keeps_failAs (v1fsWriteBlock _ _ _)) fun _ => seq (keeps_failAs (v1fsWriteBlock _ _ _))
    fun _ => modFs fun _ => hf _ _)

theorem p7SuperWrite (hf : ∀ fs dirty, f { fs with flDirty := dirty } = f fs) : Keeps (SameIn f) p7SuperWrite :=
  bindFs fun _ => seq (keeps_failAs (readWords _)) fun _ => seq (keeps_failAs (writeWords _ _ _))
  fun _ => modFs fun _ => hf _ _

theorem p7fsBfree (hf : ∀ fs head, f { fs with freelist := head } = f fs) (b : Nat) :
    Keeps (SameIn f) (p7fsBfree b) := by
  refine bindFs fun fs => keeps_ite (ret _) (keeps_ite ?_ ?_)
  · exact seq (modFs fun _ => hf _ _) fun _ => seq (keeps_attempt (writeWords _ _ _)) fun _ => ret _
  · refine seq (keeps_attempt (readWords _)) fun r => ?_
    cases r with
    | error e => exact ret _
    | ok words =>
      simp only
      cases p7Slot words with
      | some i => exact seq (keeps_attempt (writeWords _ _ _)) fun _ => ret _
      | none => exact seq (keeps_attempt (writeWords _ _ _)) fun _ => modFs fun _ => hf _ _

theorem p7FreeUnmarked (hf : ∀ fs head, f { fs with freelist := head } = f fs)
    (bmap : Buf) (todo b nfree : Nat) :
    Keeps (SameIn f) (p7FreeUnmarked bmap todo b nfree) := by
  induction todo generalizing b nfree with
  | zero => exact ret _
  | succ todo ih => exact keeps_ite (ih _ _) (seq (p7fsBfree hf _) fun _ => ih _ _)

theorem openImage : Keeps (SameIn f) openImage := by
  intro s
  unfold Engine.openImage
  cases s.env.openErr with
  | none => exact rfl
  | some e => exact rfl

/-! ## The superblock and a bit map -/

/-- `f` does not look at the block size. -/
theorem v7OpenSuper (hf : ∀ fs bsize nindir,
    f { fs with desc := { fs.desc with bsize := bsize, nindir := nindir } } = f fs) :
    Keeps (SameIn f) v7OpenSuper := by
  refine bindFs fun _ => keeps_ite (seq (keeps_failAs (ioRead _ _)) fun probe => ?_)
    (keeps_failAs (v7fsReadBlock _))
  refine keeps_ite (fail _) (keeps_ite (fail _) ?_)
  exact seq (modFs fun _ => hf _ _ _) fun _ => keeps_failAs (ioRead _ _)

theorem bigmapLoad (hf : ∀ fs bits, f { fs with v8Bits := bits } = f fs) (todo k : Nat) :
    Keeps (SameIn f) (bigmapLoad todo k) := by
  induction todo generalizing k with
  | zero => exact ret _
  | succ todo ih =>
    refine bindFs fun _ => ?_
    refine seq (keeps_failAs (v7fsReadBlock _)) fun _ => ?_
    refine seq (modFs fun _ => hf _ _) fun _ => ?_
    exact ih _

/-- Loading a bit map, for an `f` that looks at no field of the map. -/
theorem v8BitmapLoad (sb : Buf) (hf : ∀ fs base nbits nblks start bits,
    f { fs with
      v8Base := base, v8Nbits := nbits, v8Nblks := nblks, v8BlkStart := start, v8Bits := bits } = f fs) :
    Keeps (SameIn f) (v8BitmapLoad sb) := by
  have hbits : ∀ fs bits, f { fs with v8Bits := bits } = f fs :=
    fun fs bits => hf fs fs.v8Base fs.v8Nbits fs.v8Nblks fs.v8BlkStart bits
  exact bindFs fun _ => keeps_ite (seq (modFs fun fs => hf fs _ _ _ _ fs.v8Bits) fun _ => bigmapLoad hbits _ _)
    (keeps_ite (fail _) (modFs fun fs => hf fs _ _ _ fs.v8BlkStart _))

/-! ## The end of an open -/

/-- `f` looks at none of the totals, the interleave and the image size. -/
structure Incidental (f : Fs → β) : Prop where
  totals : ∀ fs tfree tinode, f { fs with tfree := tfree, tinode := tinode } = f fs
  interleave : ∀ fs m n unique, f { fs with m := m, n := n, unique := unique } = f fs
  imgsize : ∀ fs size, f { fs with imgsize := size } = f fs

theorem v7fsReadInode (ino : Nat) : Keeps (SameIn f) (v7fsReadInode ino) :=
  bindFs fun _ => keeps_ite (fail _) (keeps_ite (fail _) (seq (keeps_failAs (v7fsReadBlock _)) fun _ => ret _))

theorem countLive (todo ino used : Nat) : Keeps (SameIn f) (countLive todo ino used) := by
  induction todo generalizing ino used with
  | zero => exact ret _
  | succ todo ih =>
    refine bindFs fun fs => seq (keeps_attempt (v7fsReadInode ino)) fun r => ?_
    cases r with
    | error e => exact ih _ _
    | ok ip => exact ih _ _

theorem countChain (strict : Bool) (guard n : Nat) (cur : Nat → Nat) (blocks : Nat) :
    Keeps (SameIn f) (countChain strict guard n cur blocks) := by
  induction guard generalizing n cur blocks with
  | zero => exact ret _
  | succ guard ih =>
    refine bindFs fun fs => keeps_ite (ret _)
      (keeps_ite (seq (keeps_attempt (v7fsReadBlock _)) fun r => ?_) (ih _ _ _))
    cases r with
    | error e => exact ret _
    | ok blk => exact keeps_ite (ret _) (ih _ _ _)

theorem v7OpenTotals (hf : Incidental f) (sb : Buf) : Keeps (SameIn f) (v7OpenTotals sb) := by
  have hcount : Keeps (SameIn f) countFree := bindFs fun _ => seq (countChain _ _ _ _ _) fun _ =>
    seq (countLive _ _ _) fun _ => modFs fun _ => hf.totals _ _ _
  exact bindFs fun _ => keeps_ite (ret _) (keeps_ite hcount (keeps_ite (modFs fun _ => hf.totals _ _ _) hcount))

/-- What an open still does once the superblock is decoded and a bit map loaded. -/
theorem v7fsOpenRest (hf : Incidental f) (d : Desc) (sb : Buf) : Keeps (SameIn f) (do
    Engine.v7OpenTotals sb
    let tm := sbTimeOff d.pack4 d.nicfree
    onlyIf d.interleave <|
      Engine.modFs fun fs => { fs with
        m := d.bo.get16 sb (tm + 10), n := d.bo.get16 sb (tm + 12), unique := d.bo.get32 sb (tm + 26) }
    if !d.ignoreMagic ∧ d.magic ≠ 0 ∧ d.bo.get32 sb d.magicOff ≠ d.magic then throw .einval
    else
      let s ← get
      let fs := s.fs
      if fs.isize < (if d.isizeCount then 1 else 2) ∨ s.size < fs.base + fs.fsize * d.bsize ∨
      fs.fsize ≤ v7DataFirst fs
      then throw .einval
      else Engine.modFs fun fs => { fs with imgsize := s.size } : M Unit) := by
  refine seq (v7OpenTotals hf sb) fun _ => ?_
  refine seq (keeps_onlyIf (sameIn_law f) (modFs fun _ => hf.interleave _ _ _ _)) fun _ => ?_
  refine keeps_ite (fail _) ?_
  exact seq (keeps_get (sameIn_law f)) fun _ => keeps_ite (fail _) (modFs fun _ => hf.imgsize _ _)

end SameIn

end Filsys.Engine
