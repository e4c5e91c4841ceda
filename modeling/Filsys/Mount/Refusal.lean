/-
  Filsys.Mount.Refusal — what a refused open does to the image.

  Two processes open one extent read-write. The second reads the superblock and the
  free list, is refused the lock, and tears down through the backend's `close`, the one
  an unmount uses: that flushes the superblock it read earlier over whatever the lock
  holder has flushed since (`a_refused_open_writes_the_superblock_back`).

  Everything before the lock only reads (`openDesc_quiet`, `opsOpen_quiet`), so an open
  the backend itself refuses leaves the image to the holder; `refused_open_iff` says
  that, up to a failing transfer in the teardown, this is the only way a refusal is
  harmless.
-/

import Filsys.Engine.Open
import Filsys.Engine.Transfer

namespace Filsys.Mount

open Filsys.Lib Filsys.Engine

/-! ## Reading only -/

/-- The image after the other process's next `n` turns, from turn `k` on. -/
def alone (peer : Nat → Buf → Buf) (k : Nat) : Nat → Buf → Buf
  | 0, img => img
  | n + 1, img => peer (k + n) (alone peer k n img)

/-- No write of ours lies between `s` and `t`: the image is what the other process
    alone would have made of it. -/
structure Quiet (s t : Mnt) : Prop where
  trace : t.trace = s.trace
  env : t.env = s.env
  size : t.size = s.size
  img : ∃ n, t.ios = s.ios + n ∧ t.img = alone s.env.peer s.ios n s.img

theorem alone_add (peer : Nat → Buf → Buf) (k m n : Nat) (img : Buf) :
    alone peer k (m + n) img = alone peer (k + m) n (alone peer k m img) := by
  induction n with
  | zero => rfl
  | succ n ih => rw [← Nat.add_assoc, alone, ih, alone, Nat.add_assoc]

theorem quiet_law : Law Quiet where
  refl s := ⟨rfl, rfl, rfl, 0, rfl, rfl⟩
  trans := by
    intro a b c h hr
    obtain ⟨ht, he, hs, m, hm, hi⟩ := h
    obtain ⟨ht', he', hs', n, hn, hi'⟩ := hr
    refine ⟨ht'.trans ht, he'.trans he, hs'.trans hs, m + n, by omega, ?_⟩
    rw [hi', hi, he, hm, alone_add]

theorem quiet_of_eq {s t : Mnt} (h : t.trace = s.trace ∧ t.env = s.env ∧ t.size = s.size ∧
    t.ios = s.ios ∧ t.img = s.img) :
    Quiet s t := by
  obtain ⟨ht, he, hs, hi, hg⟩ := h
  exact ⟨ht, he, hs, 0, hi, hg⟩

/-- What block I/O goes by. -/
def settled (fs : Fs) : Desc × Bool × Nat × Nat := (fs.desc, fs.readonly, fs.base, fs.imgsize)

/-- Where an out-of-superblock bitmap lies. -/
def tail (fs : Fs) : Nat × Nat × Nat := (fs.fsize, fs.v8Nblks, fs.v8BlkStart)

/-- `Quiet`, with the mode and the layout of the mount as they were. -/
structure Still (s t : Mnt) : Prop extends Quiet s t where
  settled : settled t.fs = settled s.fs
  tail : tail t.fs = tail s.fs

theorem still_law : Law Still where
  refl s := ⟨quiet_law.refl s, rfl, rfl⟩
  trans h h' := ⟨quiet_law.trans h.toQuiet h'.toQuiet, h'.settled.trans h.settled, h'.tail.trans h.tail⟩

abbrev QuietM {α : Type} (x : M α) : Prop := Keeps Quiet x
abbrev StillM {α : Type} (x : M α) : Prop := Keeps Still x

theorem modFs_quiet (f : Fs → Fs) : QuietM (modFs f) := fun _ => quiet_of_eq ⟨rfl, rfl, rfl, rfl, rfl⟩

theorem modFs_still {f : Fs → Fs} (h : ∀ fs, settled (f fs) = settled fs ∧ tail (f fs) = tail fs) :
    StillM (modFs f) :=
  fun s => ⟨quiet_of_eq ⟨rfl, rfl, rfl, rfl, rfl⟩, (h s.fs).1, (h s.fs).2⟩

theorem bindFs_quiet {α : Type} {f : Fs → M α} (hf : ∀ fs, QuietM (f fs)) : QuietM (getFs >>= f) :=
  keeps_bind quiet_law (fun s => quiet_law.refl s) hf

theorem bindFs_still {α : Type} {f : Fs → M α} (hf : ∀ fs, StillM (f fs)) : StillM (getFs >>= f) :=
  keeps_bind still_law (fun s => still_law.refl s) hf

theorem touch_still (s : Mnt) : Still s (touch s) := ⟨⟨rfl, rfl, rfl, 1, rfl, rfl⟩, rfl, rfl⟩

theorem ioRead_still (n off : Nat) : StillM (ioRead n off) :=
  fun s => post_ioRead (fun _ _ => touch_still s) fun _ => touch_still s

theorem openImage_quiet : QuietM openImage := by
  intro s
  unfold openImage
  cases hs : s.env.openErr with
  | none => exact quiet_law.refl s
  | some e => exact quiet_law.refl s

theorem liftE_quiet {α : Type} (r : Except Errno α) : QuietM (liftE r) := by
  cases r with
  | ok a => exact keeps_pure quiet_law
  | error e => exact keeps_throw quiet_law

theorem v7fsReadBlock_still (bno : Nat) : StillM (v7fsReadBlock bno) :=
  bindFs_still fun _ => keeps_ite (ioRead_still _ _) (keeps_throw still_law)

theorem v1fsReadBlock_still (bno : Nat) : StillM (v1fsReadBlock bno) :=
  bindFs_still fun _ => keeps_ite (ioRead_still _ _) (keeps_throw still_law)

theorem readWords_still (bno : Nat) : StillM (readWords bno) :=
  bindFs_still fun _ =>
    keeps_ite (keeps_bind still_law (keeps_failAs (ioRead_still _ _)) fun _ => keeps_pure still_law)
      (keeps_throw still_law)

theorem v7fsReadInode_still (ino : Nat) : StillM (v7fsReadInode ino) :=
  bindFs_still fun _ => keeps_ite (keeps_throw still_law) <| keeps_ite (keeps_throw still_law) <|
    keeps_bind still_law (keeps_failAs (v7fsReadBlock_still _)) fun _ => keeps_pure still_law

/-! ## The open up to the lock -/

theorem filsysResolveByteorder_quiet (fmt : Desc) (offset : Nat) (arch : Option String) (force : Bool) :
    QuietM (filsysResolveByteorder fmt offset arch force) := by
  refine keeps_bind quiet_law (liftE_quiet _) fun archBo => keeps_ite ?_ ?_
  · cases archBo with
    | none => exact keeps_pure quiet_law
    | some bo => exact keeps_pure quiet_law
  · refine keeps_bind quiet_law openImage_quiet fun _ => ?_
    refine keeps_bind quiet_law ((ioRead_still _ _).mono Still.toQuiet) fun _ => ?_
    exact liftE_quiet _

theorem openDesc_quiet (a : OpenArgs) : QuietM (openDesc a) :=
  keeps_bind quiet_law (liftE_quiet _) fun _ =>
    keeps_bind quiet_law (filsysResolveByteorder_quiet _ _ _ _) fun _ => liftE_quiet _

theorem countChain_still (strict : Bool) (guard n : Nat) (cur : Nat → Nat) (blocks : Nat) :
    StillM (countChain strict guard n cur blocks) := by
  induction guard generalizing n cur blocks with
  | zero => exact keeps_pure still_law
  | succ guard ih =>
    refine bindFs_still fun fs => keeps_ite (keeps_pure still_law) <| keeps_ite ?_ (ih _ _ _)
    refine keeps_bind still_law (keeps_attempt (v7fsReadBlock_still _)) fun r => ?_
    cases r with
    | error e => exact keeps_pure still_law
    | ok blk => exact keeps_ite (keeps_pure still_law) (ih _ _ _)

theorem countLive_still (todo ino used : Nat) : StillM (countLive todo ino used) := by
  induction todo generalizing ino used with
  | zero => exact keeps_pure still_law
  | succ todo ih =>
    refine bindFs_still fun fs => keeps_bind still_law (keeps_attempt (v7fsReadInode_still _)) fun r => ?_
    cases r with
    | error e => exact ih _ _
    | ok ip => exact ih _ _

theorem countFree_still : StillM countFree :=
  bindFs_still fun _ => keeps_bind still_law (countChain_still _ _ _ _ _) fun _ =>
    keeps_bind still_law (countLive_still _ _ _) fun _ => modFs_still fun _ => ⟨rfl, rfl⟩

theorem bigmapLoad_still (todo k : Nat) : StillM (bigmapLoad todo k) := by
  induction todo generalizing k with
  | zero => exact keeps_pure still_law
  | succ todo ih =>
    refine bindFs_still fun _ => ?_
    refine keeps_bind still_law (keeps_failAs (v7fsReadBlock_still _)) fun _ => ?_
    refine keeps_bind still_law (modFs_still fun _ => ⟨rfl, rfl⟩) fun _ => ?_
    exact ih _

/-- An out-of-superblock bitmap is the tail of the volume. -/
def TailInside (fs : Fs) : Prop := fs.v8Nblks = 0 ∨ fs.v8BlkStart = fs.fsize - fs.v8Nblks

theorem v8BitmapLoad_spec (sb : Buf) (s : Mnt) :
    Post (v8BitmapLoad sb s) (fun _ t => Quiet s t ∧ settled t.fs = settled s.fs ∧ TailInside t.fs)
    fun _ t => Quiet s t := by
  refine post_bind (post_ite (fun _ => ?_) fun _ => post_ite (fun _ => quiet_law.refl s) fun _ => ?_)
  · refine post_bindMod (post_keeps (bigmapLoad_still _ 0) (fun _ t h => ?_) fun _ t (h : Still _ t) =>
      ⟨h.trace, h.env, h.size, h.img⟩)
    have ht := h.tail
    simp only [tail, Prod.mk.injEq] at ht
    obtain ⟨hf, hn, hb⟩ := ht
    exact ⟨⟨h.trace, h.env, h.size, h.img⟩, h.settled, .inr (by rw [hf, hn, hb])⟩
  · exact ⟨quiet_of_eq ⟨rfl, rfl, rfl, rfl, rfl⟩, rfl, .inl rfl⟩

theorem v8BitmapLoad_quiet (sb : Buf) : QuietM (v8BitmapLoad sb) :=
  fun s => (v8BitmapLoad_spec sb s).mono (fun _ _ h => h.1) fun _ _ h => h

theorem v7OpenTotals_still (sb : Buf) : StillM (v7OpenTotals sb) :=
  bindFs_still fun _ => keeps_ite (keeps_pure still_law) <| keeps_ite countFree_still <|
    keeps_ite (modFs_still fun _ => ⟨rfl, rfl⟩) countFree_still

theorem p7Count_still (guard head n : Nat) : StillM (p7Count guard head n) := by
  induction guard generalizing head n with
  | zero => exact keeps_pure still_law
  | succ guard ih =>
    refine keeps_ite (keeps_pure still_law) <|
      keeps_bind still_law (keeps_attempt (readWords_still _)) fun r => ?_
    cases r with
    | error e => exact keeps_pure still_law
    | ok fl => exact ih _ _

/-! ## What a backend that has opened guarantees -/

/-- What the backend has checked when its open returns: the blocks an unmount flushes
    lie inside the image. -/
structure Opened (t : Mnt) : Prop where
  readonly : t.fs.readonly = false
  imgsize : t.fs.imgsize = t.size
  room : match t.fs.desc.ops with
    | .v1 => t.fs.base + 1024 ≤ t.size
    | .pdp7 => t.fs.base + (wordOps t.fs.desc).blockBytes ≤ t.size
    | _ => 3 ≤ t.fs.fsize ∧ t.fs.base + t.fs.fsize * t.fs.desc.bsize ≤ t.size ∧
        (t.fs.desc.dynBsize = true → 512 ≤ t.fs.desc.bsize) ∧ TailInside t.fs

/-- A refusal is quiet, and a success opens. -/
abbrev Opens (x : M Unit) (s : Mnt) : Prop :=
  Post (x s) (fun _ t => Quiet s t ∧ Opened t) (fun _ t => Quiet s t)

theorem opens_of_quiet {x : M Unit} (hq : QuietM x) {s : Mnt}
    (h : Post (x s) (fun _ t => Opened t) fun _ _ => True) :
    Opens x s :=
  ((hq s).and h).mono (fun _ _ h => h) fun _ _ h => h.1

theorem v1fsOpen_quiet (readonly : Bool) (proto : Desc) (offset : Nat) :
    QuietM (v1fsOpen readonly proto offset) :=
  keeps_bind quiet_law (modFs_quiet _) fun _ => keeps_bind quiet_law openImage_quiet fun _ =>
    keeps_bind quiet_law (keeps_failAs ((v1fsReadBlock_still _).mono Still.toQuiet)) fun _ =>
    keeps_bind quiet_law (keeps_failAs ((v1fsReadBlock_still _).mono Still.toQuiet)) fun _ =>
    keeps_ite (keeps_throw quiet_law) <| keeps_bind quiet_law (keeps_get quiet_law) fun _ =>
    keeps_ite (keeps_throw quiet_law) (modFs_quiet _)

theorem openImage_spec (s : Mnt) : Post (openImage s) (fun _ t => t = s) fun _ _ => True := by
  unfold openImage
  cases hs : s.env.openErr with
  | none => rfl
  | some e => trivial

theorem v1fsOpen_opens (proto : Desc) (offset : Nat) (hv : proto.ops = .v1) (s : Mnt) :
    Opens (v1fsOpen false proto offset) s := by
  refine opens_of_quiet (v1fsOpen_quiet _ _ _) ?_
  refine post_bind (post_bind ((openImage_spec _).mono ?_ fun _ _ _ => trivial))
  intro r t heq
  cases r
  subst heq
  refine post_bind (post_failAs ((v1fsReadBlock_still 0 _).mono ?_ fun _ _ _ => trivial))
  intro b0 t0 h0
  refine post_bind (post_failAs ((v1fsReadBlock_still 1 _).mono ?_ fun _ _ _ => trivial))
  intro b1 t1 h1
  refine post_ite (fun _ => trivial) fun hmap => ?_
  refine post_get (post_ite (fun _ => trivial) fun hsize => ?_)
  have hset : settled t1.fs = (proto, false, offset, 0) := h1.settled.trans h0.settled
  simp only [settled, Prod.mk.injEq] at hset
  obtain ⟨hd, hr, hb, -⟩ := hset
  have hroom : t1.fs.base + 1024 ≤ t1.size := by
    rw [hb]
    have hds : 2 ≤ v1DataStart (boGet16le (splice b0 512 b1 0 512) (2 +
      boGet16le (splice b0 512 b1 0 512) 0) * 8) := by
      unfold v1DataStart; omega
    omega
  refine ⟨hr, rfl, ?_⟩
  show match t1.fs.desc.ops with
    | .v1 => t1.fs.base + 1024 ≤ t1.size
    | .pdp7 => t1.fs.base + (wordOps t1.fs.desc).blockBytes ≤ t1.size
    | _ => _
  rw [hd, hv]
  exact hroom

theorem p7fsOpen_quiet (readonly : Bool) (proto : Desc) (offset : Nat) :
    QuietM (p7fsOpen readonly proto offset) :=
  keeps_bind quiet_law (modFs_quiet _) fun _ => keeps_bind quiet_law openImage_quiet fun _ =>
    keeps_bind quiet_law (keeps_get quiet_law) fun _ => keeps_ite (keeps_throw quiet_law) <|
    keeps_bind quiet_law (modFs_quiet _) fun _ =>
    keeps_bind quiet_law (keeps_failAs ((readWords_still _).mono Still.toQuiet)) fun _ =>
    keeps_bind quiet_law (modFs_quiet _) fun _ =>
    keeps_bind quiet_law ((p7Count_still _ _ _).mono Still.toQuiet) fun _ => modFs_quiet _

theorem v7OpenSuper_quiet : QuietM v7OpenSuper :=
  bindFs_quiet fun _ => keeps_ite
    (keeps_bind quiet_law (keeps_failAs ((ioRead_still _ _).mono Still.toQuiet)) fun _ =>
      keeps_ite (keeps_throw quiet_law) <| keeps_ite (keeps_throw quiet_law) <|
      keeps_bind quiet_law (modFs_quiet _) fun _ => keeps_failAs ((ioRead_still _ _).mono Still.toQuiet))
    (keeps_failAs ((v7fsReadBlock_still _).mono Still.toQuiet))

theorem v7fsOpen_quiet (readonly : Bool) (proto : Desc) (offset : Nat) :
    QuietM (v7fsOpen readonly proto offset) := by
  refine keeps_bind quiet_law (modFs_quiet _) fun _ => ?_
  refine keeps_bind quiet_law openImage_quiet fun _ => ?_
  refine keeps_bind quiet_law v7OpenSuper_quiet fun sb => ?_
  refine keeps_bind quiet_law (modFs_quiet _) fun _ => ?_
  refine bindFs_quiet fun fs => ?_
  refine keeps_ite (keeps_throw quiet_law) ?_
  refine keeps_bind quiet_law (keeps_onlyIf quiet_law (keeps_failAs (v8BitmapLoad_quiet sb))) fun _ => ?_
  refine keeps_bind quiet_law ((v7OpenTotals_still sb).mono Still.toQuiet) fun _ => ?_
  refine keeps_bind quiet_law ?_ ?_
  · exact keeps_onlyIf quiet_law (modFs_quiet _)
  · intro _
    exact keeps_ite (keeps_throw quiet_law) <| keeps_bind quiet_law (keeps_get quiet_law) fun s =>
      keeps_ite (keeps_throw quiet_law) (modFs_quiet _)

theorem p7fsOpen_opens (proto : Desc) (offset : Nat) (hp : proto.ops = .pdp7) (s : Mnt) :
    Opens (p7fsOpen false proto offset) s := by
  refine opens_of_quiet (p7fsOpen_quiet _ _ _) ?_
  refine post_bind (post_bind ((openImage_spec _).mono ?_ fun _ _ _ => trivial))
  intro r t heq
  cases r
  subst heq
  refine post_get (post_ite (fun _ => trivial) fun hsize => ?_)
  refine post_bind (post_bind (post_failAs ((readWords_still 0 _).mono ?_ fun _ _ _ => trivial)))
  intro sb t0 h0
  refine post_bind (post_bind ((p7Count_still _ _ _ _).mono ?_ fun _ _ _ => trivial))
  intro n t1 h1
  have hset : settled t1.fs = (proto, false, offset, s.size) := h1.settled.trans h0.settled
  have hsz : t1.size = s.size := h1.size.trans h0.size
  simp only [settled, Prod.mk.injEq] at hset
  obtain ⟨hd, hr, hb, hi⟩ := hset
  refine ⟨hr, hi.trans hsz.symm, ?_⟩
  show match t1.fs.desc.ops with
    | .v1 => t1.fs.base + 1024 ≤ t1.size
    | .pdp7 => t1.fs.base + (wordOps t1.fs.desc).blockBytes ≤ t1.size
    | _ => _
  rw [hd, hp]
  show t1.fs.base + (wordOps proto).blockBytes ≤ t1.size
  rw [hb, hsz]
  exact Nat.le_of_not_lt hsize

/-- The block size System V names is one of three. -/
theorem sysvBsize_pos {t : Nat} (h : sysvBsize t ≠ 0) : 512 ≤ sysvBsize t := by
  unfold sysvBsize at h ⊢
  split
  · decide
  · split
    · decide
    · split
      · decide
      · rename_i h1 h2 h3
        exact absurd (by rw [if_neg h1, if_neg h2, if_neg h3]) h

theorem v7OpenSuper_spec (s : Mnt) :
    Post (v7OpenSuper s) (fun _ t => t.fs.desc.ops = s.fs.desc.ops ∧ t.fs.readonly = s.fs.readonly ∧
      t.fs.v8Nblks = s.fs.v8Nblks ∧ (t.fs.desc.dynBsize = true → 512 ≤ t.fs.desc.bsize)) fun _ _ => True := by
  refine post_bind (post_ite ?_ ?_)
  · intro hdyn
    refine post_bind (post_failAs ((ioRead_still _ _ _).mono ?_ fun _ _ _ => trivial))
    intro probe t0 h0
    refine post_ite (fun _ => trivial) fun _ => post_ite (fun _ => trivial) fun hb => ?_
    refine post_bind (post_failAs ((ioRead_still _ _ _).mono ?_ fun _ _ _ => trivial))
    intro sb t1 h1
    have hs0 := h0.settled
    have hs1 := h1.settled
    have hn := h1.tail.trans h0.tail
    simp only [settled, tail, Prod.mk.injEq] at hs0 hs1 hn
    obtain ⟨hd0, hr0, -⟩ := hs0
    obtain ⟨hd1, hr1, -⟩ := hs1
    refine ⟨by rw [hd1, ← hd0], hr1.trans hr0, hn.2.1, fun _ => ?_⟩
    rw [hd1]
    exact sysvBsize_pos hb
  · intro hdyn
    refine post_failAs ((v7fsReadBlock_still 1 s).mono ?_ fun _ _ _ => trivial)
    intro sb t h
    have hs := h.settled
    have hn := h.tail
    simp only [settled, tail, Prod.mk.injEq] at hs hn
    obtain ⟨hd, hr, -⟩ := hs
    refine ⟨by rw [hd], hr, hn.2.1, fun h => ?_⟩
    rw [hd] at h
    exact absurd h hdyn

theorem sbDecode_settled (fs : Fs) (sb : Buf) :
    (sbDecode fs sb).desc = fs.desc ∧ (sbDecode fs sb).readonly = fs.readonly ∧
    (sbDecode fs sb).v8Nblks = fs.v8Nblks := by
  unfold sbDecode
  split
  · exact ⟨rfl, rfl, rfl⟩
  · split
    · exact ⟨rfl, rfl, rfl⟩
    · exact ⟨rfl, rfl, rfl⟩

theorem v7fsOpen_opens (proto : Desc) (offset : Nat) (hv : proto.ops ≠ .v1) (hp : proto.ops ≠ .pdp7) (s : Mnt) :
    Opens (v7fsOpen false proto offset) s := by
  refine opens_of_quiet (v7fsOpen_quiet _ _ _) ?_
  refine post_bind (post_bind ((openImage_spec _).mono ?_ fun _ _ _ => trivial))
  intro r t heq
  cases r
  subst heq
  refine post_bind ((v7OpenSuper_spec _).mono ?_ fun _ _ _ => trivial)
  intro sb t0 hrun
  obtain ⟨hops, hro, hnb, hdyn⟩ := hrun
  refine post_bind (post_bind (post_ite (fun _ => trivial) fun _ => ?_))
  obtain ⟨hdd, hrd, hnd⟩ := sbDecode_settled t0.fs sb
  refine post_bind (Post.mono (Q := fun _ t => settled t.fs = settled (sbDecode t0.fs sb) ∧ TailInside t.fs)
    (E := fun _ _ => True) (post_onlyIf (fun _ => ?_) fun _ => ⟨rfl, .inl (hnd.trans hnb)⟩) ?_
    fun _ _ _ => trivial)
  · exact post_failAs ((v8BitmapLoad_spec sb _).mono (fun _ _ h => h.2) fun _ _ _ => trivial)
  intro _ t1 hrun
  obtain ⟨hset1, htail1⟩ := hrun
  refine post_bind ((v7OpenTotals_still sb t1).mono ?_ fun _ _ _ => trivial)
  intro _ t2 h2
  have hset : settled t2.fs = settled (sbDecode t0.fs sb) := h2.settled.trans hset1
  refine post_bind (post_keeps (keeps_onlyIf still_law (modFs_still fun _ => ⟨rfl, rfl⟩)) ?_
    fun _ _ _ => trivial)
  intro _ t3 h3
  refine post_ite (fun _ => trivial) fun _ => post_get (post_ite (fun _ => trivial) fun hgeo => ?_)
  have hset3 := h3.settled.trans hset
  have htail : TailInside t3.fs := by
    have ht := h3.tail.trans h2.tail
    simp only [tail, Prod.mk.injEq] at ht
    obtain ⟨hf, hn, hb⟩ := ht
    unfold TailInside at htail1 ⊢
    rw [hf, hn, hb]
    exact htail1
  simp only [settled, Prod.mk.injEq] at hset3
  obtain ⟨hd, hr, -, -⟩ := hset3
  rw [hdd] at hd hgeo
  rw [← hd] at hops hdyn hgeo
  simp only [not_or] at hgeo
  obtain ⟨hisz, hsz, hfs⟩ := hgeo
  have h3le : 3 ≤ t3.fs.fsize := by
    unfold v7DataFirst at hfs
    split at hfs <;> rename_i hc <;> simp only [hc] at hisz <;> simp at hisz <;> omega
  refine ⟨hr.trans (hrd.trans hro), rfl, ?_⟩
  show match t3.fs.desc.ops with
    | .v1 => _
    | .pdp7 => _
    | _ => 3 ≤ t3.fs.fsize ∧ t3.fs.base + t3.fs.fsize * t3.fs.desc.bsize ≤ t3.size ∧
        (t3.fs.desc.dynBsize = true → 512 ≤ t3.fs.desc.bsize) ∧ TailInside t3.fs
  rw [hops]
  split
  · exact absurd ‹_› hv
  · exact absurd ‹_› hp
  · exact ⟨h3le, Nat.le_of_not_lt hsz, hdyn, htail⟩

/-- The backend's part of `filsys_open_arch`: everything before the lock. -/
def backendOpen (a : OpenArgs) : M Unit := do
  let fmt ← openDesc a
  opsOpen a.readonly fmt a.offset

theorem opsOpen_opens (fmt : Desc) (offset : Nat) (s : Mnt) : Opens (opsOpen false fmt offset) s := by
  unfold opsOpen
  split
  · exact v1fsOpen_opens _ _ ‹_› s
  · exact p7fsOpen_opens _ _ ‹_› s
  · exact v7fsOpen_opens _ _ ‹_› ‹_› s

theorem backendOpen_opens {a : OpenArgs} (ha : a.readonly = false) (s : Mnt) : Opens (backendOpen a) s := by
  refine post_bind (post_keeps (openDesc_quiet a) ?_ fun _ _ h => h)
  intro fmt t ht
  rw [ha]
  exact (opsOpen_opens fmt a.offset t).mono (fun _ u h => ⟨quiet_law.trans ht h.1, h.2⟩)
    fun _ u h => quiet_law.trans ht h

/-! ## The flush of a teardown -/

/-- More writes than before. -/
def Grows (s t : Mnt) : Prop := s.trace.length ≤ t.trace.length

theorem grows_law : Law Grows where
  refl _ := Nat.le_refl _
  trans h h' := Nat.le_trans h h'

/-- A run whose first write is its transfer number `k`: it was stopped by a failing
    transfer and wrote nothing, or it has written. -/
def Flushed (k : Nat) (s t : Mnt) : Prop :=
  (∃ j, j ≤ k ∧ s.env.fails (s.ios + j) = true) ∧ Quiet s t ∨
    (∀ j, j ≤ k → s.env.fails (s.ios + j) = false) ∧ s.trace.length < t.trace.length

abbrev Flushes {α : Type} (k : Nat) (x : M α) (s : Mnt) : Prop :=
  Post (x s) (fun _ t => Flushed k s t) (fun _ t => Flushed k s t)

theorem flushed_read {s t : Mnt} {k : Nat} (hs : s.env.fails s.ios = false) (h : Flushed k (touch s) t) :
    Flushed (k + 1) s t := by
  rcases h with ⟨⟨j, hj, hf⟩, hq⟩ | ⟨hf, hw⟩
  · refine .inl ⟨⟨j + 1, by omega, ?_⟩, quiet_law.trans (touch_still s).toQuiet hq⟩
    rw [show s.ios + (j + 1) = s.ios + 1 + j by omega]
    exact hf
  · refine .inr ⟨fun j hj => ?_, hw⟩
    cases j with
    | zero => exact hs
    | succ j =>
      rw [show s.ios + (j + 1) = s.ios + 1 + j by omega]
      exact hf j (by omega)

theorem flushed_tick {s t : Mnt} {k n : Nat} (h : Flushed k { s with ticks := n } t) : Flushed k s t := by
  rcases h with ⟨hf, hq⟩ | h
  · exact .inl ⟨hf, hq.trace, hq.env, hq.size, hq.img⟩
  · exact .inr h

theorem flushed_stopped {s : Mnt} (k : Nat) (hs : s.env.fails s.ios = true) : Flushed k s (touch s) :=
  .inl ⟨⟨0, by omega, hs⟩, (touch_still s).toQuiet⟩

/-- One read, which fails only if the transfer does. -/
abbrev ReadsOnce {α : Type} (x : M α) (s : Mnt) : Prop :=
  Post (x s) (fun _ t => s.env.fails s.ios = false ∧ t = touch s) (fun _ t => s.env.fails s.ios = true ∧
    t = touch s)

/-- One write, which fails only if the transfer does. -/
abbrev WritesOnce (x : M Unit) (s : Mnt) : Prop :=
  Post (x s) (fun _ t => s.env.fails s.ios = false ∧ s.trace.length < t.trace.length)
    (fun _ t => s.env.fails s.ios = true ∧ t = touch s)

theorem ioRead_once {n off : Nat} {s : Mnt} (h : off + n ≤ s.size) : ReadsOnce (ioRead n off) s :=
  post_ioRead (fun hf _ => ⟨hf, rfl⟩) fun hf => ⟨hf.resolve_right (by omega), rfl⟩

theorem ioWrite_once (site : Site) (buf : Buf) (n off : Nat) (s : Mnt) :
    WritesOnce (ioWrite site buf n off) s :=
  post_ioWrite (fun hf => ⟨hf, Nat.lt_succ_self _⟩) fun hf => ⟨hf, rfl⟩

theorem flushes_read {α β : Type} {x : M α} {f : α → M β} {s : Mnt} {e : Errno} {k : Nat} (hx : ReadsOnce x s)
    (hf : ∀ b, Flushes k (f b) (touch s)) : Flushes (k + 1) (failAs e x >>= f) s := by
  refine post_bind (post_failAs (hx.mono ?_ ?_))
  · intro b t hr
    obtain ⟨hs, rfl⟩ := hr
    exact (hf b).mono (fun _ _ h => flushed_read hs h) fun _ _ h => flushed_read hs h
  · intro e t hr
    obtain ⟨hs, rfl⟩ := hr
    exact flushed_stopped _ hs

theorem flushes_write {α : Type} {x : M Unit} {f : Unit → M α} {s : Mnt} {e : Errno} (hx : WritesOnce x s)
    (hf : Keeps Grows (f ())) : Flushes 0 (failAs e x >>= f) s := by
  refine post_bind (post_failAs (hx.mono ?_ ?_))
  · intro r t hr
    cases r
    obtain ⟨hs, hw⟩ := hr
    have hgrow : ∀ {u : Mnt}, Grows t u → Flushed 0 s u := by
      intro u hu
      refine .inr ⟨fun j hj => ?_, Nat.lt_of_lt_of_le hw hu⟩
      obtain rfl : j = 0 := by omega
      exact hs
    exact post_keeps hf (fun _ _ h => hgrow h) fun _ _ h => hgrow h
  · intro e t hr
    obtain ⟨hs, rfl⟩ := hr
    exact flushed_stopped _ hs

theorem touch_grows (s : Mnt) : Grows s (touch s) := Nat.le_refl _

theorem ioRead_grows (n off : Nat) : Keeps Grows (ioRead n off) :=
  fun s => post_ioRead (fun _ _ => touch_grows s) fun _ => touch_grows s

theorem ioWrite_grows (site : Site) (buf : Buf) (n off : Nat) : Keeps Grows (ioWrite site buf n off) :=
  fun s => post_ioWrite (fun _ => Nat.le_succ _) fun _ => touch_grows s

theorem modFs_grows (f : Fs → Fs) : Keeps Grows (modFs f) := fun _ => Nat.le_refl _

theorem bindFs_grows {α : Type} {f : Fs → M α} (hf : ∀ fs, Keeps Grows (f fs)) : Keeps Grows (getFs >>= f) :=
  keeps_bind grows_law (fun s => grows_law.refl s) hf

theorem v7fsReadBlock_grows (bno : Nat) : Keeps Grows (v7fsReadBlock bno) :=
  bindFs_grows fun _ => keeps_ite (ioRead_grows _ _) (keeps_throw grows_law)

theorem v7fsWriteBlock_grows (site : Site) (bno : Nat) (buf : Buf) :
    Keeps Grows (v7fsWriteBlock site bno buf) :=
  bindFs_grows fun _ => keeps_ite (keeps_throw grows_law) <|
  keeps_ite (ioWrite_grows _ _ _ _) (keeps_throw grows_law)

theorem v1fsWriteBlock_grows (site : Site) (bno : Nat) (buf : Buf) :
    Keeps Grows (v1fsWriteBlock site bno buf) :=
  bindFs_grows fun _ => keeps_ite (keeps_throw grows_law) <|
  keeps_ite (ioWrite_grows _ _ _ _) (keeps_throw grows_law)

theorem superRead_grows : Keeps Grows superRead :=
  bindFs_grows fun _ => keeps_ite (ioRead_grows _ _) (v7fsReadBlock_grows _)

theorem superPut_grows (sb : Buf) : Keeps Grows (superPut sb) :=
  bindFs_grows fun _ => keeps_ite (ioWrite_grows _ _ _ _) (v7fsWriteBlock_grows _ _ _)

theorem v7fsSuperWrite_grows : Keeps Grows v7fsSuperWrite :=
  bindFs_grows fun _ => keeps_ite (keeps_pure grows_law) <|
    keeps_bind grows_law (keeps_failAs superRead_grows) fun _ => keeps_bind grows_law
      (fun _ => Nat.le_refl _) fun _ =>
    keeps_bind grows_law (keeps_failAs (superPut_grows _)) fun _ => modFs_grows _

theorem bigmapFlush_grows (todo k : Nat) : Keeps Grows (bigmapFlush todo k) := by
  induction todo generalizing k with
  | zero => exact keeps_pure grows_law
  | succ todo ih =>
    exact bindFs_grows fun _ => keeps_bind grows_law (keeps_failAs (v7fsWriteBlock_grows _ _ _)) fun _ => ih _

/-- Transfers before the first write of the backend's flush. -/
def readsBeforeWrite (fs : Fs) : Nat :=
  match fs.desc.ops with
  | .v1 => 2
  | .pdp7 => 1
  | _ => if fs.desc.freemap = .bigmap ∧ 0 < fs.v8Nblks then 0 else 1

/-- A range that lies in the image passes `filsys_check_range`. -/
theorem checkRange_of_room {fs : Fs} {off n size : Nat} (hi : fs.imgsize = size) (h : off + n ≤ size) :
    checkRange fs off n = true := by
  unfold checkRange
  rw [hi]
  simp only [Bool.or_eq_true, beq_iff_eq, Bool.and_eq_true, decide_eq_true_eq]
  omega

theorem v1fsReadBlock_once {s : Mnt} {bno : Nat} (hi : s.fs.imgsize = s.size)
    (h : s.fs.base + bno * 512 + 512 ≤ s.size) : ReadsOnce (v1fsReadBlock bno) s :=
  post_bind <| post_ite (fun _ => ioRead_once h) fun hc => absurd (checkRange_of_room hi h) hc

theorem v7fsReadBlock_once {s : Mnt} {bno : Nat} (hi : s.fs.imgsize = s.size)
    (h : s.fs.base + bno * s.fs.desc.bsize + s.fs.desc.bsize ≤ s.size) : ReadsOnce (v7fsReadBlock bno) s :=
  post_bind <| post_ite (fun _ => ioRead_once h) fun hc => absurd (checkRange_of_room hi h) hc

theorem readWords_once {s : Mnt} {bno : Nat} (hi : s.fs.imgsize = s.size)
    (h : s.fs.base + bno * (wordOps s.fs.desc).blockBytes + (wordOps s.fs.desc).blockBytes ≤ s.size) :
    ReadsOnce (readWords bno) s :=
  post_bind <| post_ite (fun _ => post_bind (post_failAs (ioRead_once h))) fun hc =>
  absurd (checkRange_of_room hi h) hc

theorem v1fsWriteBlock_once {s : Mnt} {site : Site} {bno : Nat} {buf : Buf} (hr : s.fs.readonly = false)
    (hi : s.fs.imgsize = s.size) (h : s.fs.base + bno * 512 + 512 ≤ s.size) :
    WritesOnce (v1fsWriteBlock site bno buf) s :=
  post_bind <| post_ite (fun hc => absurd hc (by simp [hr])) fun _ =>
    post_ite (fun _ => ioWrite_once _ _ _ _ s) fun hc => absurd (checkRange_of_room hi h) hc

theorem v7fsWriteBlock_once {s : Mnt} {site : Site} {bno : Nat} {buf : Buf} (hr : s.fs.readonly = false)
    (hi : s.fs.imgsize = s.size) (h : s.fs.base + bno * s.fs.desc.bsize + s.fs.desc.bsize ≤ s.size) :
    WritesOnce (v7fsWriteBlock site bno buf) s :=
  post_bind <| post_ite (fun hc => absurd hc (by simp [hr])) fun _ =>
    post_ite (fun _ => ioWrite_once _ _ _ _ s) fun hc => absurd (checkRange_of_room hi h) hc

theorem writeWords_once {s : Mnt} {site : Site} {bno : Nat} {words : Nat → Nat} (hi : s.fs.imgsize = s.size)
    (h : s.fs.base + bno * (wordOps s.fs.desc).blockBytes + (wordOps s.fs.desc).blockBytes ≤ s.size) :
    WritesOnce (writeWords site bno words) s :=
  post_bind <| post_ite (fun _ => post_failAs (ioWrite_once _ _ _ _ s)) fun hc =>
  absurd (checkRange_of_room hi h) hc

section Teardown

variable {s : Mnt} (hs : Opened s)

include hs

theorem v1SuperWrite_flushes (hv : s.fs.desc.ops = .v1) : Flushes 2 v1SuperWrite s := by
  obtain ⟨hro, himg, hroom⟩ := hs
  rw [hv] at hroom
  have hsize : s.fs.base + 1024 ≤ s.size := hroom
  refine post_bind (post_ite (fun h => absurd h (by simp [hro])) fun _ => ?_)
  refine flushes_read (v1fsReadBlock_once himg (by omega)) fun b0 => ?_
  refine flushes_read (v1fsReadBlock_once himg (by show s.fs.base + 1 * 512 + 512 ≤ s.size; omega)) fun b1 => ?_
  refine flushes_write (v1fsWriteBlock_once hro himg (by show s.fs.base + 0 * 512 + 512 ≤ s.size; omega)) ?_
  exact keeps_bind grows_law (keeps_failAs (v1fsWriteBlock_grows _ _ _)) fun _ => modFs_grows _

theorem p7SuperWrite_flushes (hp : s.fs.desc.ops = .pdp7) : Flushes 1 p7SuperWrite s := by
  obtain ⟨-, himg, hroom⟩ := hs
  rw [hp] at hroom
  have hsize : s.fs.base + 0 * (wordOps s.fs.desc).blockBytes + (wordOps s.fs.desc).blockBytes ≤ s.size := by
    rw [Nat.zero_mul]; exact hroom
  refine post_bind (flushes_read (readWords_once himg hsize) fun words => ?_)
  exact flushes_write (writeWords_once himg hsize) (modFs_grows _)

theorem room_v7 (hv : s.fs.desc.ops ≠ .v1) (hp : s.fs.desc.ops ≠ .pdp7) :
    3 ≤ s.fs.fsize ∧ s.fs.base + s.fs.fsize * s.fs.desc.bsize ≤ s.size ∧
      (s.fs.desc.dynBsize = true → 512 ≤ s.fs.desc.bsize) ∧ TailInside s.fs := by
  have hroom := hs.room
  split at hroom
  · exact absurd ‹_› hv
  · exact absurd ‹_› hp
  · exact hroom

/-- A block below the size of the volume lies in the image. -/
theorem block_in_image (hv : s.fs.desc.ops ≠ .v1) (hp : s.fs.desc.ops ≠ .pdp7) {bno : Nat}
    (hb : bno < s.fs.fsize) :
    s.fs.base + bno * s.fs.desc.bsize + s.fs.desc.bsize ≤ s.size := by
  obtain ⟨-, hsize, -⟩ := room_v7 hs hv hp
  have hle : (bno + 1) * s.fs.desc.bsize ≤ s.fs.fsize * s.fs.desc.bsize := Nat.mul_le_mul_right _ hb
  rw [Nat.succ_mul] at hle
  omega

theorem v7fsSuperWrite_flushes (hv : s.fs.desc.ops ≠ .v1) (hp : s.fs.desc.ops ≠ .pdp7) :
    Flushes 1 v7fsSuperWrite s := by
  have hb : 1 < s.fs.fsize → s.fs.base + 1 * s.fs.desc.bsize + s.fs.desc.bsize ≤ s.size :=
    block_in_image hs hv hp
  obtain ⟨h3, hsize, hdyn, -⟩ := room_v7 hs hv hp
  obtain ⟨hro, himg, -⟩ := hs
  refine post_bind (post_ite (fun h => absurd h (by simp [hro])) fun _ => ?_)
  have hread : ReadsOnce superRead s := by
    refine post_bind (post_ite (fun hd => ioRead_once ?_) fun _ => v7fsReadBlock_once himg (hb (by omega)))
    have := hdyn hd
    have := Nat.mul_le_mul h3 this
    omega
  refine flushes_read hread fun sb => post_bind ?_
  have hput : WritesOnce (superPut (sbEncode s.fs (s.env.clock s.ticks % 2 ^ 32) sb))
    { touch s with ticks := s.ticks + 1 } :=
    post_bind (post_ite (fun _ => ioWrite_once _ _ _ _ _) fun _ => v7fsWriteBlock_once hro himg (hb (by omega)))
  exact (flushes_write hput (modFs_grows _)).mono (fun _ _ h => flushed_tick h) fun _ _ h => flushed_tick h

theorem flushFs_flushes (hv : s.fs.desc.ops ≠ .v1) (hp : s.fs.desc.ops ≠ .pdp7) :
    Flushes (if s.fs.desc.freemap = .bigmap ∧ 0 < s.fs.v8Nblks then 0 else 1) flushFs s := by
  have hsuper := v7fsSuperWrite_flushes hs hv hp
  refine post_bind (post_ite ?_ ?_)
  · intro hmap
    refine post_bind (post_ite (fun h => absurd h (by simp [hs.readonly])) fun _ => ?_)
    by_cases hbig : s.fs.desc.freemap = .bigmap
    · unfold onlyIf
      rw [if_pos hbig]
      cases hn : s.fs.v8Nblks with
      | zero =>
        rw [if_neg (by simp)]
        exact hsuper
      | succ n =>
        obtain ⟨h3, -, -, htail⟩ := room_v7 hs hv hp
        have hstart : s.fs.v8BlkStart + 0 < s.fs.fsize := by
          rcases htail with h0 | hb
          · omega
          · omega
        rw [if_pos ⟨hbig, Nat.succ_pos n⟩]
        show Flushes 0 ((getFs >>= fun fs => failAs .eio (v7fsWriteBlock .bitmap (fs.v8BlkStart + 0)
          (window fs.v8Bits (0 * fs.desc.bsize) (bigmapBytes fs 0))) >>= fun _ => bigmapFlush n 1) >>= fun _ =>
            v7fsSuperWrite) s
        rw [bind_assoc]
        apply post_bindFs
        rw [bind_assoc]
        refine flushes_write (v7fsWriteBlock_once hs.readonly hs.imgsize (block_in_image hs hv hp hstart)) ?_
        exact keeps_bind grows_law (bigmapFlush_grows _ _) fun _ => v7fsSuperWrite_grows
    · unfold onlyIf
      rw [if_neg hbig, if_neg fun h => hbig h.1]
      exact hsuper
  · intro hlist
    have hl : s.fs.desc.freemap = .list := not_not.mp hlist
    rw [if_neg (by simp [hl])]
    exact hsuper

theorem opsClose_flushes : Flushes (readsBeforeWrite s.fs) opsClose s := by
  refine post_bindFs (post_ite (fun h => absurd h (by simp [hs.readonly])) fun _ => ?_)
  unfold readsBeforeWrite
  cases hops : s.fs.desc.ops with
  | v1 => exact v1SuperWrite_flushes hs hops
  | pdp7 => exact p7SuperWrite_flushes hs hops
  | v6 => exact flushFs_flushes hs (by simp [hops]) (by simp [hops])
  | v7 => exact flushFs_flushes hs (by simp [hops]) (by simp [hops])
  | bsd211 => exact flushFs_flushes hs (by simp [hops]) (by simp [hops])

end Teardown

/-! ## The refused open -/

/-- The second opener has issued no write, and the image is the one the holder alone
    would have left. -/
def NoUpdateLost (s t : Mnt) : Prop :=
  t.trace = s.trace ∧ ∃ n, t.ios = s.ios + n ∧ t.img = alone s.env.peer s.ios n s.img

/-- `filsys_open_arch`, returning an error, loses no update. -/
def RefusalHarmless (a : OpenArgs) (s : Mnt) : Prop := ∀ e t, filsysOpenArch a s = .error e t → NoUpdateLost s t

/-- With the lock held elsewhere an open is the backend's open, and then its teardown. -/
theorem filsysOpenArch_locked {a : OpenArgs} (ha : a.readonly = false) (hn : a.noLock = false) (s : Mnt)
    {E : Errno → Mnt → Prop} (hopen : Post (backendOpen a s)
      (fun _ t => t.env.locked = true ∧ Post (opsClose t) (fun _ u => E .ebusy u) (fun _ u => E .ebusy u)) E) :
    Post (filsysOpenArch a s) (fun _ _ => False) E := by
  unfold filsysOpenArch
  rw [← bind_assoc]
  refine post_bind (hopen.mono ?_ fun _ _ h => h)
  intro r t hr
  cases r
  obtain ⟨hl, hclose⟩ := hr
  refine post_bind (post_onlyIf (fun _ => ?_) fun h => absurd (by simp [hn]) h)
  have hlock : lockImage a.readonly t = .error .ebusy t := by
    unfold lockImage
    rw [ha, hl]
    rfl
  refine post_bind (post_attempt ?_)
  rw [hlock]
  exact post_bind (post_attempt hclose)

theorem NoUpdateLost.of_quiet {s t : Mnt} (h : Quiet s t) : NoUpdateLost s t := ⟨h.trace, h.img⟩

/-- Against a held lock an open always fails, and loses no update exactly when the
    backend refuses the image before the lock is tried, or a transfer of the teardown's
    flush fails no later than its first write. -/
theorem refused_open_iff (a : OpenArgs) (s : Mnt) (ha : a.readonly = false) (hn : a.noLock = false)
    (hl : s.env.locked = true) :
    RefusalHarmless a s ↔ ∀ t, backendOpen a s = .ok () t →
      ∃ j, j ≤ readsBeforeWrite t.fs ∧ s.env.fails (t.ios + j) = true := by
  have hopens := backendOpen_opens ha s
  cases hb : backendOpen a s with
  | error e t =>
    have hq := hopens.of_error hb
    refine ⟨fun _ u hu => (by cases hu), fun _ => ?_⟩
    have hpost : Post (filsysOpenArch a s) (fun _ _ => False) (fun _ u => NoUpdateLost s u) :=
      filsysOpenArch_locked ha hn s (by rw [hb]; exact .of_quiet hq)
    intro e u hu
    exact hpost.of_error hu
  | ok _ t =>
    obtain ⟨hq, ho⟩ := hopens.of_ok hb
    have hclose := opsClose_flushes ho
    have hpost : Post (filsysOpenArch a s) (fun _ _ => False)
      (fun _ u => Flushed (readsBeforeWrite t.fs) t u) :=
      filsysOpenArch_locked ha hn s (by rw [hb]; exact ⟨by rw [hq.env]; exact hl, hclose⟩)
    constructor
    · intro hsafe t' ht'
      obtain rfl : t = t' := by cases ht'; rfl
      cases hr : filsysOpenArch a s with
      | ok _ u => exact absurd (hpost.of_ok hr) id
      | error e u =>
        rcases hpost.of_error hr with ⟨⟨j, hj, hf⟩, -⟩ | ⟨-, hw⟩
        · exact ⟨j, hj, by rw [← hq.env]; exact hf⟩
        · have := (hsafe e u hr).1
          rw [this, ← hq.trace] at hw
          exact absurd hw (Nat.lt_irrefl _)
    · intro hstop e u hu
      obtain ⟨j, hj, hf⟩ := hstop t rfl
      rcases hpost.of_error hu with ⟨-, hqu⟩ | ⟨hall, -⟩
      · exact .of_quiet (quiet_law.trans hq hqu)
      · have := hall j hj
        rw [hq.env, hf] at this
        exact absurd this (by decide)

/-- A V7 volume of four blocks, none free, on a file of its own. -/
def fourBlocks : Buf := fun i => if i = 512 then 3 else if i = 516 then 4 else 0

/-- The holder frees block 3 and flushes its superblock before the second opener's
    transfer number 1: `s_nfree` is 2, the list's end and block 3, and `s_tfree` 1. -/
def holderFrees : Nat → Buf → Buf := fun k img =>
  if k = 1 then poke (poke img 518 [2, 0, 0, 0, 0, 0, 0, 0, 3, 0]) 930 [0, 0, 1, 0] else img

def contended : Mnt where
  fs := { desc := descV7 }
  img := fourBlocks
  size := 2048
  env := { locked := true, peer := holderFrees }

/-- The second opener gets `-EBUSY` and has put the old `s_nfree` back. -/
theorem a_refused_open_writes_the_superblock_back :
    errorOf (filsysOpenArch { edition := .v7 }) contended = some .ebusy ∧
      (final (filsysOpenArch { edition := .v7 }) contended).img 518 = 0 ∧
      alone holderFrees 0 3 fourBlocks 518 = 2 ∧
      ¬ RefusalHarmless { edition := .v7 } contended := by
  have herr : errorOf (filsysOpenArch { edition := .v7 }) contended = some .ebusy := by decide +kernel
  have hlen : (final (filsysOpenArch { edition := .v7 }) contended).trace.length = 1 := by decide +kernel
  refine ⟨herr, by decide +kernel, by decide +kernel, fun h => ?_⟩
  have htrace := (h _ _ (eq_error herr)).1
  rw [htrace] at hlen
  exact absurd hlen (by decide)

/-- On the same image the teardown's first read failing leaves the holder's flush in place. -/
theorem a_refusal_stopped_by_its_first_read_is_harmless :
    RefusalHarmless { edition := .v7 }
    { contended with env := { contended.env with fails := fun k => k == 1 } } := by
  refine (refused_open_iff _ _ rfl rfl rfl).mpr fun t ht => ⟨0, Nat.zero_le _, ?_⟩
  have hios : (final (backendOpen { edition := .v7 })
      { contended with env := { contended.env with fails := fun k => k == 1 } }).ios = 1 := by decide +kernel
  unfold final at hios
  rw [ht] at hios
  rw [hios]
  rfl

end Filsys.Mount
