/-
  Filsys.Engine.Keep — what the routines above the transport keep without knowing it.

  Everything between the transfers and the inode allocator changes a mount in three ways
  only: by the write of a block, by the write of an inode record, and by an update of
  in-core state that leaves the inode allocator's and the volume's shape alone. A relation
  that all three keep, and that reading keeps (`WriteLaw`), is kept by every such routine,
  whatever its outcome; `ok` says for which numbers and modes the records are asked about.
  A relation any write keeps (`BlockLaw`) is the case in which nothing is asked.
-/

import Filsys.Engine.Disk
import Filsys.Engine.Peek

namespace Filsys.Lib.Law

open Filsys.Engine

variable {R : Mnt → Mnt → Prop} (law : Law R)

include law

theorem bindFs {α : Type} {f : Fs → M α} (hf : ∀ fs, Keeps R (f fs)) : Keeps R (getFs >>= f) :=
  keeps_bind law (fun s => law.refl s) hf

theorem seq {α β : Type} {x : M α} {f : α → M β} (hx : Keeps R x) (hf : ∀ a, Keeps R (f a)) :
    Keeps R (x >>= f) :=
  keeps_bind law hx hf

theorem ret {α : Type} (a : α) : Keeps R (pure a : M α) := keeps_pure law

theorem fail {α : Type} (e : Errno) : Keeps R (throw e : M α) := keeps_throw law

theorem flushIfDirty {flush : M Unit} (hf : Keeps R flush) : Keeps R (flushIfDirty flush) :=
  law.bindFs fun _ => keeps_ite hf (law.ret _)

end Filsys.Lib.Law

namespace Filsys.Engine

open Filsys.Lib

/-- The inode allocator's in-core state. -/
def inoState (fs : Fs) : Buf × Nat × (Nat → Nat) × Nat := (fs.inodemap, fs.ninode, fs.inode, fs.tinode)

/-- Kept by reading, by a write, by the clock and by updates of the rest of the in-core state: lists,
    maps and totals. -/
structure BlockLaw (R : Mnt → Mnt → Prop) : Prop extends Law R where
  peek : ∀ {s t}, ReadOnly s t → R s t
  write : ∀ site buf n off, Keeps R (ioWrite site buf n off)
  time : Keeps R timeNow
  mod : ∀ f : Fs → Fs, (∀ fs, inoState (f fs) = inoState fs ∧ shape (f fs) = shape fs) → Keeps R (modFs f)

namespace BlockLaw

variable {R : Mnt → Mnt → Prop} (law : BlockLaw R)

include law

/-! ## Blocks -/

theorem reads {α : Type} {x : M α} (hx : Peeks x) : Keeps R x := hx.mono law.peek

theorem v7fsWriteBlock (site : Site) (b : Nat) (buf : Buf) : Keeps R (v7fsWriteBlock site b buf) :=
  law.bindFs fun _ => keeps_ite (law.fail _) (keeps_ite (law.write _ _ _ _) (law.fail _))

theorem v1fsWriteBlock (site : Site) (b : Nat) (buf : Buf) : Keeps R (v1fsWriteBlock site b buf) :=
  law.bindFs fun _ => keeps_ite (law.fail _) (keeps_ite (law.write _ _ _ _) (law.fail _))

theorem writeWords (site : Site) (b : Nat) (w : Nat → Nat) : Keeps R (writeWords site b w) :=
  law.bindFs fun _ => keeps_ite (keeps_failAs (law.write _ _ _ _)) (law.fail _)

/-! ## Flushes and records -/

theorem v7fsSuperWrite : Keeps R v7fsSuperWrite := by
  refine law.bindFs fun _ => keeps_ite (law.ret _) (law.seq (keeps_failAs ?_) fun _ => law.seq law.time fun _ =>
    law.seq (keeps_failAs ?_) fun _ => law.mod _ fun _ => ⟨rfl, rfl⟩)
  · exact law.bindFs fun _ => keeps_ite (law.reads (ioRead_peeks _ _)) (law.reads (v7fsReadBlock_peeks _))
  · exact law.bindFs fun _ => keeps_ite (law.write _ _ _ _) (law.v7fsWriteBlock _ _ _)

theorem bigmapFlush (todo k : Nat) : Keeps R (bigmapFlush todo k) := by
  induction todo generalizing k with
  | zero => exact law.ret _
  | succ todo ih => exact law.bindFs fun _ => law.seq (keeps_failAs (law.v7fsWriteBlock _ _ _)) fun _ => ih _

theorem flushFs : Keeps R flushFs := by
  refine law.bindFs fun _ => keeps_ite ?_ law.v7fsSuperWrite
  exact law.bindFs fun _ => keeps_ite (law.ret _)
    (law.seq (keeps_onlyIf law.toLaw (law.bigmapFlush _ _)) fun _ => law.v7fsSuperWrite)

theorem v1SuperWrite : Keeps R v1SuperWrite := by
  refine law.bindFs fun _ => keeps_ite (law.ret _)
    (law.seq (keeps_failAs (law.reads (v1fsReadBlock_peeks _))) fun _ =>
    law.seq (keeps_failAs (law.reads (v1fsReadBlock_peeks _))) fun _ =>
    law.seq (keeps_failAs (law.v1fsWriteBlock _ _ _)) fun _ =>
      law.seq (keeps_failAs (law.v1fsWriteBlock _ _ _)) fun _ => law.mod _ fun _ => ⟨rfl, rfl⟩)

theorem p7SuperWrite : Keeps R p7SuperWrite :=
  law.bindFs fun _ => law.seq (keeps_failAs (law.reads (readWords_peeks _))) fun _ =>
  law.seq (keeps_failAs (law.writeWords _ _ _)) fun _ =>
    law.mod _ fun _ => ⟨rfl, rfl⟩

theorem p7fsWriteInode (n : Nat) (ip : Inode) : Keeps R (p7fsWriteInode n ip) :=
  law.bindFs fun _ => keeps_ite (law.fail _)
  (keeps_ite (law.fail _) (law.seq (law.toLaw.flushIfDirty law.p7SuperWrite) fun _ =>
    law.seq (keeps_failAs (law.reads (readWords_peeks _))) fun _ => law.writeWords _ _ _))

theorem writeInode (n : Nat) (ip : Inode) : Keeps R (writeInode n ip) := by
  have hv7 : Keeps R (v7fsWriteInode n ip) :=
    law.bindFs fun _ => keeps_ite (law.fail _) (law.seq (law.toLaw.flushIfDirty law.v7fsSuperWrite)
      fun _ => keeps_ite (law.fail _)
      (law.seq (keeps_failAs (law.reads (v7fsReadBlock_peeks _))) fun _ => law.v7fsWriteBlock _ _ _))
  refine law.bindFs fun fs => ?_
  cases fs.desc.ops with
  | v1 =>
    exact law.bindFs fun _ => keeps_ite (law.fail _) (law.seq (law.toLaw.flushIfDirty law.v1SuperWrite) fun _ =>
      law.seq (keeps_failAs (law.reads (v1fsReadBlock_peeks _))) fun _ => law.v1fsWriteBlock _ _ _)
  | pdp7 => exact law.p7fsWriteInode n ip
  | v6 => exact hv7
  | v7 => exact hv7
  | bsd211 => exact hv7

end BlockLaw

/-- The inode allocator's state is as it was, on a mount no one else writes to. -/
def SameIno (s t : Mnt) : Prop := Solo s → Solo t ∧ inoState t.fs = inoState s.fs

theorem sameIno_law : BlockLaw SameIno where
  refl s h := ⟨h, rfl⟩
  trans h h' hs := by
    obtain ⟨h1, h2⟩ := h hs
    obtain ⟨h3, h4⟩ := h' h1
    exact ⟨h3, h4.trans h2⟩
  peek h hs := by
    obtain ⟨k, -, rfl⟩ := h hs
    exact ⟨hs, rfl⟩
  write site buf n off s := post_ioWrite (fun _ hs => ⟨hs, rfl⟩) fun _ hs => ⟨hs, rfl⟩
  time _ hs := ⟨hs, rfl⟩
  mod f hf s hs := ⟨hs, (hf s.fs).1⟩

theorem SameIno.inodemap {s t : Mnt} (h : SameIno s t) (hs : Solo s) : t.fs.inodemap = s.fs.inodemap :=
  congrArg Prod.fst (h hs).2

theorem SameIno.inode {s t : Mnt} (h : SameIno s t) (hs : Solo s) : t.fs.inode = s.fs.inode :=
  congrArg (·.2.2.1) (h hs).2

/-- A write of anything but an inode record. -/
def Site.IsBlock : Site → Prop
  | .inode _ => False
  | _ => True

/-- Kept by reading, by the write of a block, by that of a record whose number and mode are `ok`, and by
    updates of the rest of the in-core state. A mode that gains bits stays `ok`: a file that outgrows
    its slots is marked large. -/
structure WriteLaw (ok : Nat → Nat → Prop) (R : Mnt → Mnt → Prop) : Prop extends Law R where
  peek : ∀ {s t}, ReadOnly s t → R s t
  v7Block : ∀ (site : Site) b buf, site.IsBlock → Keeps R (v7fsWriteBlock site b buf)
  v1Block : ∀ (site : Site) b buf, site.IsBlock → Keeps R (v1fsWriteBlock site b buf)
  words : ∀ (site : Site) b w, site.IsBlock → Keeps R (writeWords site b w)
  super : Keeps R v7fsSuperWrite
  record : ∀ n ip, ok n ip.mode → Keeps R (writeInode n ip)
  mod : ∀ f : Fs → Fs, (∀ fs, inoState (f fs) = inoState fs ∧ shape (f fs) = shape fs) → Keeps R (modFs f)
  gains : ∀ {n m} k, ok n m → ok n (m ||| k)

theorem BlockLaw.toWriteLaw {R : Mnt → Mnt → Prop} (law : BlockLaw R) : WriteLaw (fun _ _ => True) R where
  toLaw := law.toLaw
  peek := law.peek
  v7Block site b buf _ := law.v7fsWriteBlock site b buf
  v1Block site b buf _ := law.v1fsWriteBlock site b buf
  words site b w _ := law.writeWords site b w
  super := law.v7fsSuperWrite
  record n ip _ := law.writeInode n ip
  mod := law.mod
  gains _ _ := trivial

namespace WriteLaw

variable {ok : Nat → Nat → Prop} {R : Mnt → Mnt → Prop} (law : WriteLaw ok R)

include law

theorem reads {α : Type} {x : M α} (hx : Peeks x) : Keeps R x := hx.mono law.peek

/-! ## Blocks -/

theorem writeBlock (b : Nat) (buf : Buf) : Keeps R (writeBlock b buf) := by
  refine law.bindFs fun fs => ?_
  cases fs.desc.ops with
  | v1 => exact law.v1Block _ b buf trivial
  | pdp7 => exact law.bindFs fun _ => keeps_ite (law.fail _) (law.words _ _ _ trivial)
  | v6 => exact law.v7Block _ b buf trivial
  | v7 => exact law.v7Block _ b buf trivial
  | bsd211 => exact law.v7Block _ b buf trivial

theorem blkPut (b : Nat) (buf : Buf) : Keeps R (blkPut b buf) := by
  refine law.bindFs fun fs => ?_
  cases fs.desc.ops with
  | v1 => exact law.v1Block _ b buf trivial
  | pdp7 => exact law.bindFs fun _ => keeps_ite (law.fail _) (law.words _ _ _ trivial)
  | v6 => exact law.v7Block _ b buf trivial
  | v7 => exact law.v7Block _ b buf trivial
  | bsd211 => exact law.v7Block _ b buf trivial

theorem v1SuperWrite : Keeps R v1SuperWrite := by
  refine law.bindFs fun _ => keeps_ite (law.ret _)
    (law.seq (keeps_failAs (law.reads (v1fsReadBlock_peeks _))) fun _ =>
    law.seq (keeps_failAs (law.reads (v1fsReadBlock_peeks _))) fun _ =>
    law.seq (keeps_failAs (law.v1Block _ _ _ trivial)) fun _ =>
      law.seq (keeps_failAs (law.v1Block _ _ _ trivial)) fun _ => law.mod _ fun _ => ⟨rfl, rfl⟩)

theorem p7SuperWrite : Keeps R p7SuperWrite :=
  law.bindFs fun _ => law.seq (keeps_failAs (law.reads (readWords_peeks _))) fun _ =>
  law.seq (keeps_failAs (law.words _ _ _ trivial)) fun _ =>
    law.mod _ fun _ => ⟨rfl, rfl⟩

/-! ## Block allocation -/

theorem balloc : Keeps R balloc := by
  refine law.bindFs fun fs => ?_
  cases fs.desc.alloc with
  | freelist =>
    refine law.bindFs fun _ => keeps_ite (law.fail _) (law.seq (law.mod _ fun _ => ⟨rfl, rfl⟩) fun _ =>
      keeps_ite (law.fail _) (keeps_ite (law.fail _) ?_))
    refine law.seq (keeps_onlyIf law.toLaw ?_) fun _ =>
      law.seq (keeps_failAs (law.v7Block _ _ _ trivial)) fun _ =>
      law.seq (law.mod _ fun _ => ⟨rfl, rfl⟩) fun _ => law.ret _
    refine law.seq (keeps_failAs (law.reads (v7fsReadBlock_peeks _))) fun _ => ?_
    refine law.seq (law.mod _ fun _ => ⟨rfl, rfl⟩) fun _ => ?_
    exact keeps_failAs law.super
  | v8bitmap =>
    refine law.bindFs fun fs => ?_
    cases firstBit fs.v8Bits fs.v8Nbits 0 with
    | none => exact law.fail _
    | some i =>
      refine law.seq (law.mod _ fun _ => ⟨rfl, rfl⟩) fun _ => ?_
      refine law.seq (keeps_failAs (law.v7Block _ _ _ trivial)) fun _ => ?_
      refine law.seq (law.mod _ fun _ => ⟨rfl, rfl⟩) fun _ => ?_
      exact law.ret _
  | bitmap =>
    refine law.bindFs fun fs => ?_
    dsimp only
    cases firstBit fs.freemap (fs.fsize - v1DataStart fs.maxino) (v1DataStart fs.maxino) with
    | none => exact law.fail _
    | some b =>
      refine law.seq (law.mod _ fun _ => ⟨rfl, rfl⟩) fun _ => ?_
      refine law.seq (keeps_failAs (law.v1Block _ _ _ trivial)) fun _ => ?_
      refine law.seq (law.mod _ fun _ => ⟨rfl, rfl⟩) fun _ => ?_
      exact law.ret _
  | pdp7 =>
    refine law.bindFs fun fs => keeps_ite (law.fail _)
      (keeps_ite (law.fail _) (law.seq (keeps_failAs (law.reads (readWords_peeks _))) fun words => ?_))
    refine law.seq ?_ fun _ => law.seq (keeps_failAs (law.words _ _ _ trivial)) fun _ =>
      law.seq (law.mod _ fun _ => ⟨rfl, rfl⟩) fun _ => law.ret _
    exact keeps_ite (law.seq (law.mod _ fun _ => ⟨rfl, rfl⟩) fun _ => law.ret _)
      (law.seq (keeps_failAs (law.words _ _ _ trivial)) fun _ => law.ret _)

theorem bfree (b : Nat) : Keeps R (bfree b) := by
  refine law.bindFs fun fs => ?_
  cases fs.desc.alloc with
  | freelist =>
    refine law.bindFs fun _ => keeps_ite (law.ret _)
      (law.seq (keeps_onlyIf law.toLaw (law.mod _ fun _ => ⟨rfl, rfl⟩)) fun _ => law.bindFs fun _ =>
      keeps_ite (law.seq (keeps_attempt (law.v7Block _ _ _ trivial)) fun r => ?_)
      (law.mod _ fun _ => ⟨rfl, rfl⟩))
    cases r with
    | error e => exact law.ret _
    | ok u => exact law.seq (law.mod _ fun _ => ⟨rfl, rfl⟩) fun _ => law.mod _ fun _ => ⟨rfl, rfl⟩
  | v8bitmap => exact law.bindFs fun _ => keeps_ite (law.ret _) (law.mod _ fun _ => ⟨rfl, rfl⟩)
  | bitmap => exact law.bindFs fun _ => keeps_ite (law.ret _) (law.mod _ fun _ => ⟨rfl, rfl⟩)
  | pdp7 =>
    refine law.bindFs fun fs => keeps_ite (law.ret _)
      (keeps_ite (law.seq (law.mod _ fun _ => ⟨rfl, rfl⟩) fun _ =>
      law.seq (keeps_attempt (law.words _ _ _ trivial)) fun _ =>
      law.ret _) (law.seq (keeps_attempt (law.reads (readWords_peeks _))) fun r => ?_))
    cases r with
    | error e => exact law.ret _
    | ok words =>
      dsimp only
      cases p7Slot words with
      | some i => exact law.seq (keeps_attempt (law.words _ _ _ trivial)) fun _ => law.ret _
      | none => exact law.seq (keeps_attempt (law.words _ _ _ trivial)) fun _ => law.mod _ fun _ => ⟨rfl, rfl⟩

theorem blklistDrain (L : List Nat) : Keeps R (blklistDrain L) := by
  induction L with
  | nil => exact law.ret _
  | cons b L ih => exact law.seq (law.bfree b) fun _ => ih

/-! ## Files -/

/-- Beside an inode copy whose number and mode are `ok`, which stay so. -/
def Beside (_ : WriteLaw ok R) (a b : Mnt × Loc) : Prop :=
  ok a.2.ip.ino a.2.ip.mode → R a.1 b.1 ∧ b.2.ip.ino = a.2.ip.ino ∧ ok b.2.ip.ino b.2.ip.mode

theorem beside_law : Law law.Beside where
  refl s h := ⟨law.refl s.1, rfl, h⟩
  trans h h' ha := by
    obtain ⟨h1, hi, hok⟩ := h ha
    obtain ⟨h2, hi', hok'⟩ := h' hok
    exact ⟨law.trans h1 h2, hi'.trans hi, hok'⟩

theorem seqAt {α β : Type} {x : MI α} {f : α → MI β} (hx : Keeps law.Beside x)
    (hf : ∀ a, Keeps law.Beside (f a)) :
    Keeps law.Beside (x >>= f) := keeps_bind law.beside_law hx hf

theorem retAt {α : Type} (a : α) : Keeps law.Beside (pure a : MI α) := keeps_pure law.beside_law

theorem failAt {α : Type} (e : Errno) : Keeps law.Beside (throw e : MI α) := keeps_throw law.beside_law

theorem readsAt {α : Type} {x : MI α} (hx : PeeksAt x) : Keeps law.Beside x :=
  hx.mono fun h hok => ⟨law.peek h.1, by rw [h.2], by rw [h.2]; exact hok⟩

theorem upAt {α : Type} {x : M α} (hx : Keeps R x) : Keeps law.Beside (up x) :=
  fun s => post_outside ((hx s.1).mono (fun _ _ h hok => ⟨h, rfl, hok⟩) fun _ _ h hok => ⟨h, rfl, hok⟩)

theorem modIpAt (f : Inode → Inode) (hino : ∀ ip, (f ip).ino = ip.ino)
    (hmode : ∀ ip, ∃ k, (f ip).mode = ip.mode ||| k) :
    Keeps law.Beside (modIp f) := by
  intro s hok
  obtain ⟨k, hk⟩ := hmode s.2.ip
  refine ⟨law.refl s.1, hino s.2.ip, ?_⟩
  show ok (f s.2.ip).ino (f s.2.ip).mode
  rw [hino, hk]
  exact law.gains k hok

/-- An update that leaves number and mode alone. -/
theorem modIpSame (f : Inode → Inode) (hino : ∀ ip, (f ip).ino = ip.ino) (hmode : ∀ ip, (f ip).mode = ip.mode) :
    Keeps law.Beside (modIp f) := law.modIpAt f hino fun ip => ⟨0, by rw [hmode, Nat.or_zero]⟩

/-- The copy goes out under its own number. -/
theorem recordAt {write : Nat → Inode → M Unit} (hw : ∀ n ip, ok n ip.mode → Keeps R (write n ip)) :
    Keeps law.Beside (getIp >>= fun ip => up (write ip.ino ip)) := by
  intro s
  show Post (up (write s.2.ip.ino s.2.ip) s) _ _
  by_cases hok : ok s.2.ip.ino s.2.ip.mode
  · exact law.upAt (hw _ _ hok) s
  · exact (post_true _).mono (fun _ _ _ h => absurd h hok) fun _ _ _ h => absurd h hok

theorem bindFsAt {α : Type} {f : Fs → MI α} (hf : ∀ fs, Keeps law.Beside (f fs)) :
    Keeps law.Beside (up getFs >>= f) :=
  law.seqAt (law.readsAt (up_peeks getFs_peeks)) hf

theorem bindIpAt {α : Type} {f : Inode → MI α} (hf : ∀ ip, Keeps law.Beside (f ip)) :
    Keeps law.Beside (getIp >>= f) :=
  law.seqAt (law.readsAt getIp_peeks) hf

theorem indFollow (create : Bool) (idxs : List Nat) (b : Nat) : Keeps R (indFollow create idxs b) := by
  induction idxs generalizing b with
  | nil => exact law.fail _
  | cons i idxs ih =>
    refine law.bindFs fun _ => ?_
    refine law.seq (keeps_failAs (law.reads (readBlock_peeks _))) fun _ => ?_
    refine keeps_ite (keeps_ite ?_ (law.ret _)) (keeps_ite (law.ret _) (ih _))
    refine law.seq law.balloc fun _ => ?_
    refine law.seq (keeps_failAs (law.writeBlock _ _)) fun _ => ?_
    exact keeps_ite (law.ret _) (ih _)

theorem bmapIndFollow (create : Bool) (slot : Nat) (idxs : List Nat) :
    Keeps law.Beside (bmapIndFollow create slot idxs) := by
  refine law.bindIpAt fun _ => keeps_ite (keeps_ite ?_ (law.retAt _)) (law.upAt (law.indFollow _ _ _))
  refine law.seqAt (law.upAt law.balloc) fun _ => ?_
  refine law.seqAt (law.modIpSame _ (fun _ => rfl) fun _ => rfl) fun _ => ?_
  exact law.upAt (law.indFollow _ _ _)

theorem filsysBmap (lbn : Nat) (create : Bool) : Keeps law.Beside (filsysBmap lbn create) := by
  refine law.bindFsAt fun fs => ?_
  refine law.bindIpAt fun _ => ?_
  refine law.seqAt (keeps_onlyIf law.beside_law ?_) fun _ => law.bindIpAt fun ip => ?_
  · refine law.bindFsAt fun _ => ?_
    refine law.bindIpAt fun _ => ?_
    refine law.seqAt (law.upAt law.balloc) fun _ => ?_
    refine law.seqAt (law.upAt (keeps_failAs (law.writeBlock _ _))) fun _ => ?_
    exact law.modIpAt _ (fun _ => rfl) fun _ => ⟨_, rfl⟩
  · split
    · exact keeps_ite (law.failAt _) (law.retAt _)
    · split
      · exact keeps_ite (law.seqAt (law.upAt law.balloc) fun _ =>
          law.seqAt (law.modIpSame _ (fun _ => rfl) fun _ => rfl) fun _ => law.retAt _) (law.retAt _)
      · exact law.bmapIndFollow _ _ _

theorem fileWriteLoop (buf : Buf) (size off fuel done : Nat) :
    Keeps law.Beside (fileWriteLoop buf size off fuel done) := by
  induction fuel generalizing done with
  | zero => exact law.retAt _
  | succ fuel ih =>
    refine keeps_ite (law.retAt _) (law.bindFsAt fun _ => law.seqAt (law.filsysBmap _ _) fun _ =>
      keeps_ite (law.failAt _) ?_)
    refine law.seqAt (law.upAt (keeps_failAs (law.reads (blkGet_peeks _)))) fun _ => ?_
    refine law.seqAt (law.upAt (keeps_failAs (law.blkPut _ _))) fun _ => ?_
    exact ih _

theorem filsysFileWrite (buf : Buf) (size : Nat) (off : Int) :
    Keeps law.Beside (filsysFileWrite buf size off) := by
  -- the same program, bracketed so that the copy's record is one step of it
  have hrec : Keeps law.Beside (getIp >>= fun ip => up (Engine.writeInode ip.ino ip) >>=
    fun _ => (pure size : MI Nat)) :=
    fun s => law.seqAt (law.recordAt law.record) (fun _ => law.retAt size) s
  refine keeps_ite (law.failAt _) (law.seqAt (law.fileWriteLoop _ _ _ _ _) fun _ =>
    law.seqAt (law.modIpSame _ (fun ip => ?_) fun ip => ?_) fun _ => hrec)
  · split <;> rfl
  · split <;> rfl

theorem inodeWriteWord (woff val : Nat) : Keeps law.Beside (inodeWriteWord woff val) :=
  law.seqAt (keeps_failAs (law.filsysBmap _ _)) fun _ => keeps_ite (law.failAt _)
    (law.seqAt (law.upAt (keeps_failAs (law.reads (readWords_peeks _)))) fun _ =>
      law.upAt (law.words _ _ _ trivial))

/-! ## Directories -/

theorem v7fsDirAdd (ino : Nat) (name : Name) : Keeps law.Beside (v7fsDirAdd ino name) := by
  refine law.bindFsAt fun _ => keeps_ite (law.failAt _) (keeps_ite (law.failAt _) (law.bindIpAt fun _ =>
    law.seqAt (law.readsAt (dirScan_peeks _ _ _)) fun r => ?_))
  split <;> exact law.seqAt (law.filsysFileWrite _ _ _) fun _ => law.retAt _

theorem bsd211DirAdd (ino : Nat) (name : Name) : Keeps law.Beside (bsd211DirAdd ino name) := by
  refine law.bindFsAt fun _ => keeps_ite (law.failAt _)
    (keeps_ite (law.failAt _) (law.seqAt (law.readsAt bsd211Slurp_peeks) fun r => ?_))
  obtain ⟨n, buf⟩ := r
  dsimp only
  split
  · exact law.seqAt (law.filsysFileWrite _ _ _) fun _ => law.retAt _
  · refine keeps_ite (law.failAt _) (keeps_ite ?_ (law.seqAt (law.filsysFileWrite _ _ _) fun _ => law.retAt _))
    refine law.seqAt (keeps_failAs (law.filsysFileWrite _ _ _)) fun _ => ?_
    refine law.seqAt (law.filsysFileWrite _ _ _) fun _ => ?_
    exact law.retAt _

/-- The PDP-7's directory routine puts its record out itself. -/
theorem p7fsDirAdd (hrec : ∀ n ip, ok n ip.mode → Keeps R (p7fsWriteInode n ip)) (ino : Nat) (name : Name) :
    Keeps law.Beside (p7fsDirAdd ino name) := by
  have hfree : ∀ todo e, PeeksAt (p7FreeSlot todo e) := by
    intro todo
    induction todo with
    | zero => exact fun _ => keeps_pure peekAt_law
    | succ todo ih =>
      exact fun e => keeps_bind peekAt_law (keeps_failAs (inodeReadWord_peeks _)) fun _ =>
        keeps_ite (keeps_pure peekAt_law) (ih _)
  have hword : ∀ w v, Keeps law.Beside (failAs .eio (Engine.inodeWriteWord w v)) :=
    fun w v => keeps_failAs (law.inodeWriteWord w v)
  refine law.bindFsAt fun _ => keeps_ite (law.failAt _)
    (keeps_ite (law.failAt _) (keeps_ite (law.failAt _) (law.bindIpAt fun _ =>
    law.seqAt (law.readsAt (hfree _ _)) fun _ => ?_)))
  refine law.seqAt (hword _ _) fun _ => ?_
  refine law.seqAt (hword _ _) fun _ => ?_
  refine law.seqAt (hword _ _) fun _ => ?_
  refine law.seqAt (hword _ _) fun _ => ?_
  refine law.seqAt (hword _ _) fun _ => ?_
  refine law.seqAt (hword _ _) fun _ => ?_
  refine law.seqAt (law.modIpSame _ (fun _ => rfl) fun _ => rfl) fun _ => ?_
  exact law.recordAt hrec

theorem dirRemove (name : Name) : Keeps law.Beside (dirRemove name) := by
  have hfixed : Keeps law.Beside (v7fsDirRemove name) := by
    refine law.bindFsAt fun _ => law.bindIpAt fun _ => law.seqAt (law.readsAt (dirScan_peeks _ _ _)) fun r => ?_
    split
    · exact law.seqAt (law.filsysFileWrite _ _ _) fun _ => law.retAt _
    · exact law.failAt _
  refine law.bindFsAt fun fs => ?_
  cases fs.desc.ops with
  | v1 => exact hfixed
  | v6 => exact hfixed
  | v7 => exact hfixed
  | bsd211 =>
    refine law.bindFsAt fun _ => law.seqAt (law.readsAt bsd211Slurp_peeks) fun r => ?_
    obtain ⟨n, buf⟩ := r
    dsimp only
    split
    · exact law.seqAt (law.filsysFileWrite _ _ _) fun _ => law.retAt _
    · exact law.failAt _
  | pdp7 =>
    refine law.bindFsAt fun _ => keeps_ite (law.failAt _) (law.bindIpAt fun _ =>
      law.seqAt (law.readsAt (p7Find_peeks _ _ _)) fun r => ?_)
    split
    · exact law.inodeWriteWord _ _
    · exact law.failAt _

end WriteLaw

/-! ## Any write -/

namespace BlockLaw

variable {R : Mnt → Mnt → Prop} (law : BlockLaw R)

include law

theorem balloc : Keeps R balloc := law.toWriteLaw.balloc

theorem bfree (b : Nat) : Keeps R (bfree b) := law.toWriteLaw.bfree b

theorem blklistDrain (L : List Nat) : Keeps R (blklistDrain L) := law.toWriteLaw.blklistDrain L

theorem dirAdd (ino : Nat) (name : Name) : Keeps (fun a b : Mnt × Loc => R a.1 b.1) (dirAdd ino name) := by
  have hw := law.toWriteLaw
  refine Keeps.mono (R := hw.Beside) (hw.bindFsAt fun fs => ?_) fun h => (h trivial).1
  cases fs.desc.ops with
  | v1 => exact hw.v7fsDirAdd ino name
  | v6 => exact hw.v7fsDirAdd ino name
  | v7 => exact hw.v7fsDirAdd ino name
  | bsd211 => exact hw.bsd211DirAdd ino name
  | pdp7 => exact hw.p7fsDirAdd (fun n ip _ => law.p7fsWriteInode n ip) ino name

theorem dirRemove (name : Name) : Keeps (fun a b : Mnt × Loc => R a.1 b.1) (dirRemove name) :=
  (law.toWriteLaw.dirRemove name).mono fun h => (h trivial).1

end BlockLaw

/-! ## Cutting a file -/

/-- Kept by reading, by putting a block on the list, by clearing a slot of the copy and by writing an
    indirect block back. -/
structure CutLaw (R : Mnt × Loc → Mnt × Loc → Prop) : Prop extends Law R where
  reads : ∀ {α : Type} {x : M α}, Peeks x → Keeps R (up x)
  push : ∀ b, Keeps R (pushBl b)
  clear : ∀ i, Keeps R (modIp fun ip => ip.setAddr i 0)
  writes : ∀ b buf, Keeps R (up (writeBlock b buf))

namespace CutLaw

variable {R : Mnt × Loc → Mnt × Loc → Prop} (law : CutLaw R)

include law

theorem collectWith {child : Nat → MI Unit} (hc : ∀ nb, Keeps R (child nb)) (b : Nat) :
    Keeps R (collectWith child b) := by
  have hentries : ∀ L, Keeps R (forEntries child L) := by
    intro L
    induction L with
    | nil => exact keeps_pure law.toLaw
    | cons nb L ih => exact keeps_bind law.toLaw (keeps_onlyIf law.toLaw (hc nb)) fun _ => ih
  exact keeps_ite (keeps_pure law.toLaw) (keeps_bind law.toLaw (law.reads getFs_peeks) fun _ =>
    keeps_bind law.toLaw (law.reads (keeps_failAs (readBlock_peeks _))) fun _ => keeps_bind law.toLaw
    (hentries _) fun _ => law.push b)

theorem collectSubtree (level b : Nat) : Keeps R (collectSubtree level b) := by
  induction level generalizing b with
  | zero => exact law.collectWith law.push b
  | succ level ih => exact law.collectWith (fun nb => keeps_failAs (ih nb)) b

theorem dropWith {part whole : Nat → MI Unit} (hp : ∀ nb, Keeps R (part nb))
    (hw : ∀ nb, Keeps R (whole nb)) (sub b skip : Nat) :
    Keeps R (dropWith part whole sub b skip) := by
  have hentries : ∀ d se sp is buf, Keeps R (dropEntries d part whole se sp is buf) := by
    intro d se sp is
    induction is with
    | nil => exact fun _ => keeps_pure law.toLaw
    | cons i is ih =>
      exact fun buf => keeps_ite (ih _) (keeps_ite (keeps_bind law.toLaw (hp _) fun _ => ih _)
        (keeps_bind law.toLaw (hw _) fun _ => ih _))
  refine keeps_bind law.toLaw (law.reads getFs_peeks) fun _ => ?_
  refine keeps_bind law.toLaw (law.reads (keeps_failAs (readBlock_peeks _))) fun _ => ?_
  refine keeps_bind law.toLaw (hentries _ _ _ _ _) fun _ => ?_
  exact law.writes _ _

theorem collectSubtreeFrom (n level b skip : Nat) : Keeps R (collectSubtreeFrom n level b skip) := by
  induction level generalizing b skip with
  | zero => exact law.dropWith (fun _ => keeps_throw law.toLaw) law.push _ _ _
  | succ level ih =>
    exact law.dropWith (fun nb => keeps_failAs (ih nb _))
      (fun nb => keeps_failAs (law.collectSubtree level nb)) _ _ _

theorem dropSlot (d : Desc) (firstBlk lbn i : Nat) (level : Option Nat) (a : Nat) :
    Keeps R (dropSlot d firstBlk lbn i level a) := by
  refine keeps_ite (keeps_bind law.toLaw ?_ fun _ => law.clear i)
    (keeps_failAs (law.collectSubtreeFrom _ _ _ _))
  cases level with
  | none => exact law.push a
  | some level => exact keeps_failAs (law.collectSubtree level a)

theorem filsysItruncFrom (firstBlk : Nat) : Keeps R (filsysItruncFrom firstBlk) := by
  have hslots : ∀ d todo i lbn, Keeps R (itruncFromSlots d firstBlk todo i lbn) := by
    intro d todo
    induction todo with
    | zero => exact fun _ _ => keeps_pure law.toLaw
    | succ todo ih =>
      intro i lbn s
      exact keeps_bind law.toLaw (keeps_onlyIf law.toLaw (law.dropSlot d firstBlk lbn i _ _))
        (fun _ => ih _ _) s
  exact keeps_bind law.toLaw (law.reads getFs_peeks) fun _ => hslots _ _ _ _

end CutLaw

theorem WriteLaw.toCutLaw {ok : Nat → Nat → Prop} {R : Mnt → Mnt → Prop} (law : WriteLaw ok R) :
    CutLaw law.Beside where
  toLaw := law.beside_law
  reads hx := law.readsAt (up_peeks hx)
  push _ s hok := ⟨law.refl s.1, rfl, hok⟩
  clear _ := law.modIpSame _ (fun _ => rfl) fun _ => rfl
  writes b buf := law.upAt (law.writeBlock b buf)

/-- The volume keeps its shape, on a mount no one else writes to. -/
def SameShape (s t : Mnt) : Prop := Solo s → Solo t ∧ shape t.fs = shape s.fs

theorem sameShape_law : BlockLaw SameShape where
  refl s h := ⟨h, rfl⟩
  trans h h' hs := by
    obtain ⟨h1, h2⟩ := h hs
    obtain ⟨h3, h4⟩ := h' h1
    exact ⟨h3, h4.trans h2⟩
  peek h hs := by
    obtain ⟨k, -, rfl⟩ := h hs
    exact ⟨hs, rfl⟩
  write site buf n off s := post_ioWrite (fun _ hs => ⟨hs, rfl⟩) fun _ hs => ⟨hs, rfl⟩
  time _ hs := ⟨hs, rfl⟩
  mod f hf s hs := ⟨hs, (hf s.fs).2⟩

end Filsys.Engine
