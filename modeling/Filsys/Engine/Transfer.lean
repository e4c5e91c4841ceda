/-
  Filsys.Engine.Transfer — one transfer, as a change of the mount's state.

  Every read and write of the image goes through `ioRead` and `ioWrite`. A transfer
  first gives the other process its turn (`touch`); a write that goes through leaves
  `wrote`.
-/

import Filsys.Engine.Mount

namespace Filsys.Engine

open Filsys.Lib

/-- The state a transfer starts from. -/
def touch (s : Mnt) : Mnt := { s with img := s.env.peer s.ios s.img, ios := s.ios + 1 }

/-- The state a write leaves. -/
def wrote (site : Site) (buf : Buf) (n off : Nat) (s : Mnt) : Mnt :=
  { touch s with
    img := splice (touch s).img off buf 0 n
    size := max s.size (off + n)
    trace := ⟨site, s.fs, off, n, (touch s).img, splice (touch s).img off buf 0 n⟩ :: s.trace }

theorem ioRead_eq (n off : Nat) (s : Mnt) :
    ioRead n off s = if s.env.fails s.ios || s.size < off + n then .error .eio (touch s)
      else .ok (window (touch s).img off n) (touch s) := rfl

theorem ioWrite_eq (site : Site) (buf : Buf) (n off : Nat) (s : Mnt) :
    ioWrite site buf n off s = if s.env.fails s.ios then .error .eio (touch s)
    else .ok () (wrote site buf n off s) := rfl

theorem post_ioRead {n off : Nat} {s : Mnt} {Q : Buf → Mnt → Prop} {E : Errno → Mnt → Prop}
    (hok : s.env.fails s.ios = false → off + n ≤ s.size → Q (window (touch s).img off n) (touch s))
    (herr : s.env.fails s.ios = true ∨ s.size < off + n → E .eio (touch s)) : Post (ioRead n off s) Q E := by
  rw [ioRead_eq]
  split
  · rename_i h
    exact herr (by simpa using h)
  · rename_i h
    simp only [Bool.or_eq_true, decide_eq_true_eq, not_or] at h
    exact hok (by simpa using h.1) (by omega)

theorem post_ioWrite {site : Site} {buf : Buf} {n off : Nat} {s : Mnt}
    {Q : Unit → Mnt → Prop} {E : Errno → Mnt → Prop}
    (hok : s.env.fails s.ios = false → Q () (wrote site buf n off s))
    (herr : s.env.fails s.ios = true → E .eio (touch s)) :
    Post (ioWrite site buf n off s) Q E := by
  rw [ioWrite_eq]
  split
  · exact herr ‹_›
  · exact hok (Bool.eq_false_iff.mpr ‹_›)

theorem post_bindFs {α : Type} {f : Fs → M α} {s : Mnt} {Q : α → Mnt → Prop} {E : Errno → Mnt → Prop}
    (h : Post (f s.fs s) Q E) : Post ((getFs >>= f) s) Q E := h

theorem post_bindMod {α : Type} {g : Fs → Fs} {f : Unit → M α} {s : Mnt}
    {Q : α → Mnt → Prop} {E : Errno → Mnt → Prop}
    (h : Post (f () { s with fs := g s.fs }) Q E) : Post ((modFs g >>= f) s) Q E := h

end Filsys.Engine
