/-
  Filsys.Mount.Spaces — where an opened volume keeps its free space.

  Each allocator reads the legal range of its blocks off in-core fields that the open has
  set. After any `filsys_open_arch` that succeeds the allocator is the backend's own, a
  bit map spans the volume it says it spans, and no volume but a bigmap one has bitmap
  blocks at its tail (`Laid`). Neither a flush nor an allocator call changes that.
-/

import Filsys.Engine.Aside
import Filsys.Engine.Keep
import Filsys.Mount.Opened

namespace Filsys.Mount

open Filsys.Lib Filsys.Engine

/-! ## The formats -/

/-- The allocator is one the backend runs with. -/
structure Kind (d : Desc) : Prop where
  list : d.alloc = .freelist → d.ops ≠ .v1 ∧ d.ops ≠ .pdp7 ∧ d.freemap = .list
  map : d.alloc = .v8bitmap → d.ops = .v7 ∧ d.freemap ≠ .list ∧ d.sbCodec = true ∧ d.isizeCount = false
  v1 : d.alloc = .bitmap → d.ops = .v1 ∧ d.freemap = .list
  pdp7 : d.alloc = .pdp7 → d.ops = .pdp7 ∧ d.freemap = .list

/-- What of a format its kind depends on. -/
def rowOf (d : Desc) : Ops × AllocOps × Freemap × Bool × Bool :=
  (d.ops, d.alloc, d.freemap, d.sbCodec, d.isizeCount)

theorem Kind.of_row {d d' : Desc} (h : Kind d) (hr : rowOf d' = rowOf d) : Kind d' := by
  simp only [rowOf, Prod.mk.injEq] at hr
  obtain ⟨hops, halloc, hmap, hcodec, hcount⟩ := hr
  constructor
  · rw [hops, halloc, hmap]; exact h.list
  · rw [hops, halloc, hmap, hcodec, hcount]; exact h.map
  · rw [hops, halloc, hmap]; exact h.v1
  · rw [hops, halloc, hmap]; exact h.pdp7

theorem kind_getformat (ed : Edition) : Kind (filsysGetformat ed) := by
  cases ed <;> constructor <;> decide

theorem kind_geomDesc {a : OpenArgs} {d : Desc} (hd : geomDesc a = .ok d) : Kind d := by
  unfold geomDesc at hd
  split at hd
  · split at hd
    · rename_i hed
      obtain ⟨bo, bs, fm, rfl, -, -⟩ := applyGeom_shape hd
      rcases hed with hed | hed | hed <;> rw [hed] <;> cases fm <;> constructor <;>
        simp [filsysGetformat, descV8]
    · exact (Except.ok.inj hd) ▸ kind_getformat _
  · exact (Except.ok.inj hd) ▸ kind_getformat _

/-- Every open settles on a format whose allocator is the backend's. -/
theorem openDesc_kind (a : OpenArgs) (s : Mnt) : Post (openDesc a s) (fun d _ => Kind d) fun _ _ => True :=
  openDesc_settles (fun h _ _ _ _ => h.of_row rfl) (fun _ hd => kind_geomDesc hd) s

/-! ## The backends -/

/-- The fields an allocator takes its range from are those of the volume. -/
structure Laid (fs : Fs) : Prop where
  kind : Kind fs.desc
  noTail : fs.desc.freemap ≠ .bigmap → fs.v8Nblks = 0
  extent : fs.desc.freemap ≠ .list → fs.v8Base + fs.v8Nbits = fs.fsize
  bitmap : fs.desc.freemap = .bitmap → fs.v8Base = fs.isize
  bigmap : fs.desc.freemap = .bigmap → fs.v8Base = 0

theorem Laid.of_shape {fs fs' : Fs} (h : Laid fs) (hs : shape fs' = shape fs) : Laid fs' := by
  have hbase : fs'.v8Base = fs.v8Base := congrArg Shape.v8Base hs
  have hbits : fs'.v8Nbits = fs.v8Nbits := congrArg Shape.v8Nbits hs
  constructor
  · rw [shape_desc hs]; exact h.kind
  · rw [shape_desc hs, shape_nblks hs]; exact h.noTail
  · rw [shape_desc hs, hbase, hbits, shape_fsize hs]; exact h.extent
  · rw [shape_desc hs, hbase, shape_isize hs]; exact h.bitmap
  · rw [shape_desc hs, hbase]; exact h.bigmap

/-- What the range of an allocator is read off. -/
def layOf (fs : Fs) : (Ops × AllocOps × Freemap × Bool × Bool) × Nat × Nat × Nat × Nat × Nat :=
  (rowOf fs.desc, fs.isize, fs.fsize, fs.v8Base, fs.v8Nbits, fs.v8Nblks)

theorem layOf_incidental : SameIn.Incidental layOf := ⟨fun _ _ _ => rfl, fun _ _ _ _ => rfl, fun _ _ => rfl⟩

theorem Laid.of_lay {fs fs' : Fs} (h : Laid fs) (hs : layOf fs' = layOf fs) : Laid fs' := by
  simp only [layOf, Prod.mk.injEq] at hs
  obtain ⟨hrow, hisize, hfsize, hbase, hbits, hnblks⟩ := hs
  have hmap : fs'.desc.freemap = fs.desc.freemap := congrArg (fun r => r.2.2.1) hrow
  refine ⟨h.kind.of_row hrow, ?_, ?_, ?_, ?_⟩
  · rw [hmap, hnblks]; exact h.noTail
  · rw [hmap, hbase, hbits, hfsize]; exact h.extent
  · rw [hmap, hbase, hisize]; exact h.bitmap
  · rw [hmap, hbase]; exact h.bigmap

/-- The format and the tail, before the superblock is decoded. -/
def bareOf (fs : Fs) : (Ops × AllocOps × Freemap × Bool × Bool) × Nat := (rowOf fs.desc, fs.v8Nblks)

theorem sbDecode_bare (fs : Fs) (sb : Buf) : bareOf (sbDecode fs sb) = bareOf fs := by
  unfold sbDecode
  split
  · rfl
  · split <;> rfl

theorem v7OpenSuper_bare : Keeps (SameIn bareOf) v7OpenSuper := SameIn.v7OpenSuper fun _ _ _ => rfl

theorem bigmapLoad_lay (todo k : Nat) : Keeps (SameIn layOf) (bigmapLoad todo k) :=
  SameIn.bigmapLoad (fun _ _ => rfl) todo k

/-- Loading a map sets its extent. -/
theorem v8BitmapLoad_laid {s : Mnt} (hk : Kind s.fs.desc) (sb : Buf) :
    Post (v8BitmapLoad sb s) (fun _ t => Laid t.fs) fun _ _ => True := by
  refine post_bindFs (post_ite (fun hbig => post_bindMod ?_) fun hbig =>
    post_ite (fun _ => trivial) fun hsize => ?_)
  · refine post_keeps (bigmapLoad_lay _ _) (fun _ t ht => Laid.of_lay ⟨?_, ?_, ?_, ?_, ?_⟩ ht)
      fun _ _ _ => trivial
    · exact hk
    · exact fun h => absurd hbig h
    · exact fun _ => Nat.zero_add _
    · intro h
      rw [hbig] at h
      cases h
    · exact fun _ => rfl
  · refine ⟨hk, fun _ => rfl, fun _ => ?_, fun _ => rfl, fun h => absurd h hbig⟩
    show s.fs.isize + (s.fs.fsize - s.fs.isize) = s.fs.fsize
    omega

theorem v7fsOpen_laid {proto : Desc} (hk : Kind proto) (readonly : Bool) (offset : Nat) (s₀ : Mnt) :
    Post (v7fsOpen readonly proto offset s₀) (fun _ s => Laid s.fs) fun _ _ => True := by
  refine post_bindMod (post_bind (post_keeps (SameIn.openImage (f := bareOf)) (fun _ s₁ h₁ => ?_)
    fun _ _ _ => trivial))
  refine post_bind (post_keeps v7OpenSuper_bare (fun sb s₂ h₂ => ?_) fun _ _ _ => trivial)
  refine post_bindMod (post_bindFs (post_ite (fun _ => trivial) fun _ => ?_))
  have hbare : bareOf (sbDecode s₂.fs sb) = (rowOf proto, 0) := (sbDecode_bare _ _).trans (h₂.trans h₁)
  have hrow : rowOf (sbDecode s₂.fs sb).desc = rowOf proto := congrArg Prod.fst hbare
  have hnblks : (sbDecode s₂.fs sb).v8Nblks = 0 := congrArg Prod.snd hbare
  have hkind : Kind (sbDecode s₂.fs sb).desc := hk.of_row hrow
  refine post_bind (Post.mono (Q := fun _ t => Laid t.fs) (E := fun _ _ => True) ?_ ?_ fun _ _ h => h)
  · refine post_onlyIf (fun _ => post_failAs (v8BitmapLoad_laid hkind sb)) fun hno => ?_
    have hlist : (sbDecode s₂.fs sb).desc.freemap = .list := by
      by_contra hne
      refine hno ⟨?_, hne⟩
      cases ha : (sbDecode s₂.fs sb).desc.alloc with
      | freelist => exact absurd (hkind.list ha).2.2 hne
      | v8bitmap => exact (hkind.map ha).2.2.1
      | bitmap => exact absurd (hkind.v1 ha).2 hne
      | pdp7 => exact absurd (hkind.pdp7 ha).2 hne
    refine ⟨hkind, fun _ => hnblks, fun h => absurd hlist h, fun h => ?_, fun h => ?_⟩
    · cases hlist.symm.trans h
    · cases hlist.symm.trans h
  · intro _ t ht
    exact post_keeps (SameIn.v7fsOpenRest layOf_incidental _ sb) (fun _ u hu => ht.of_lay hu)
      fun _ _ _ => trivial

/-- A format without a bit map lays nothing out. -/
theorem laid_of_list {fs : Fs} (hk : Kind fs.desc) (hlist : fs.desc.freemap = .list)
    (hnblks : fs.v8Nblks = 0) : Laid fs where
  kind := hk
  noTail _ := hnblks
  extent h := absurd hlist h
  bitmap h := by cases hlist.symm.trans h
  bigmap h := by cases hlist.symm.trans h

theorem v1fsOpen_bare (readonly : Bool) (proto : Desc) (offset : Nat) (s₀ : Mnt) :
    Post (v1fsOpen readonly proto offset s₀) (fun _ s => bareOf s.fs = (rowOf proto, 0)) fun _ _ => True := by
  refine post_bindMod (post_keeps (R := SameIn bareOf) ?_ (fun _ _ h => h) fun _ _ _ => trivial)
  refine SameIn.seq SameIn.openImage fun _ => ?_
  refine SameIn.seq (keeps_failAs (SameIn.v1fsReadBlock _)) fun b0 => ?_
  refine SameIn.seq (keeps_failAs (SameIn.v1fsReadBlock _)) fun b1 => ?_
  refine keeps_ite (SameIn.fail _) ?_
  exact SameIn.seq (keeps_get (sameIn_law _)) fun s => keeps_ite (SameIn.fail _) (SameIn.modFs fun _ => rfl)

theorem p7Count_same {β : Type} {f : Fs → β} (guard head n : Nat) :
    Keeps (SameIn f) (p7Count guard head n) := by
  induction guard generalizing head n with
  | zero => exact SameIn.ret _
  | succ guard ih =>
    refine keeps_ite (SameIn.ret _) (SameIn.seq (keeps_attempt (SameIn.readWords _)) fun r => ?_)
    cases r with
    | error e => exact SameIn.ret _
    | ok fl => exact ih _ _

theorem p7fsOpen_bare (readonly : Bool) (proto : Desc) (offset : Nat) (s₀ : Mnt) :
    Post (p7fsOpen readonly proto offset s₀) (fun _ s => bareOf s.fs = (rowOf proto, 0)) fun _ _ => True := by
  refine post_bindMod (post_keeps (R := SameIn bareOf) ?_ (fun _ _ h => h) fun _ _ _ => trivial)
  refine SameIn.seq SameIn.openImage fun _ => ?_
  refine SameIn.seq (keeps_get (sameIn_law _)) fun s => ?_
  refine keeps_ite (SameIn.fail _) ?_
  refine SameIn.seq (SameIn.modFs fun _ => rfl) fun _ => ?_
  refine SameIn.seq (keeps_failAs (SameIn.readWords _)) fun sb => ?_
  refine SameIn.seq (SameIn.modFs fun _ => rfl) fun _ => ?_
  refine SameIn.seq (p7Count_same _ _ _) fun n => ?_
  exact SameIn.modFs fun _ => rfl

theorem opsOpen_laid {fmt : Desc} (hk : Kind fmt) (readonly : Bool) (offset : Nat) (s₀ : Mnt) :
    Post (opsOpen readonly fmt offset s₀) (fun _ s => Laid s.fs) fun _ _ => True := by
  have hbare : ∀ {s : Mnt}, fmt.freemap = .list → bareOf s.fs = (rowOf fmt, 0) → Laid s.fs := by
    intro s hlist hs
    have hrow : rowOf s.fs.desc = rowOf fmt := congrArg Prod.fst hs
    exact laid_of_list (hk.of_row hrow) ((congrArg (fun r => r.2.2.1) hrow).trans hlist) (congrArg Prod.snd hs)
  -- the backends without lists and maps of the V7 kind have one allocator each
  have hlist : ∀ {o : Ops}, fmt.ops = o → o = .v1 ∨ o = .pdp7 → fmt.freemap = .list := by
    intro o ho hor
    cases ha : fmt.alloc with
    | freelist => exact (hk.list ha).2.2
    | v8bitmap =>
      have hv7 := (hk.map ha).1
      rw [ho] at hv7
      rcases hor with rfl | rfl <;> cases hv7
    | bitmap => exact (hk.v1 ha).2
    | pdp7 => exact (hk.pdp7 ha).2
  unfold opsOpen
  cases hops : fmt.ops with
  | v1 => exact (v1fsOpen_bare _ _ _ _).mono (fun _ _ hs => hbare (hlist hops (.inl rfl)) hs) fun _ _ h => h
  | pdp7 => exact (p7fsOpen_bare _ _ _ _).mono (fun _ _ hs => hbare (hlist hops (.inr rfl)) hs) fun _ _ h => h
  | v6 => exact v7fsOpen_laid hk readonly offset s₀
  | v7 => exact v7fsOpen_laid hk readonly offset s₀
  | bsd211 => exact v7fsOpen_laid hk readonly offset s₀

/-! ## The open -/

theorem opsMark_shape (fmod : Nat) : Keeps SameShape (opsMark fmod) := by
  have law := sameShape_law
  have hmark : Keeps SameShape (modFs (fun fs => { fs with fmod := fmod }) >>= fun _ => flushFs) :=
    law.seq (law.mod _ fun _ => ⟨rfl, rfl⟩) fun _ => law.flushFs
  refine law.bindFs fun fs => ?_
  cases fs.desc.ops with
  | v1 => exact law.ret _
  | pdp7 => exact law.ret _
  | v6 => exact keeps_ite (law.ret _) hmark
  | v7 => exact keeps_ite (law.ret _) hmark
  | bsd211 => exact keeps_ite (law.ret _) hmark

/-- Where a volume has been laid out, it stays so. -/
theorem SameShape.laid {s t : Mnt} (h : SameShape s t) (hs : Solo s ∧ Laid s.fs) : Solo t ∧ Laid t.fs :=
  ⟨(h hs.1).1, hs.2.of_shape (h hs.1).2⟩

theorem opsOpen_quiet (readonly : Bool) (fmt : Desc) (offset : Nat) : QuietM (opsOpen readonly fmt offset) := by
  unfold opsOpen
  cases fmt.ops with
  | v1 => exact v1fsOpen_quiet _ _ _
  | pdp7 => exact p7fsOpen_quiet _ _ _
  | v6 => exact v7fsOpen_quiet _ _ _
  | v7 => exact v7fsOpen_quiet _ _ _
  | bsd211 => exact v7fsOpen_quiet _ _ _

/-- A step of the open that succeeds has run to its end. -/
theorem post_orClose {x : M Unit} {s : Mnt} {P : Mnt → Prop}
    (hx : Post (x s) (fun _ t => P t) fun _ _ => True) :
    Post (orClose x s) (fun _ t => P t) fun _ _ => True := by
  refine post_bind (post_attempt (hx.mono (fun _ _ h => h) fun e t _ => ?_))
  refine post_bind ((post_true (attempt opsClose t)).mono (fun r u _ => ?_) fun _ _ _ => trivial)
  cases r <;> trivial

/-- Every open that succeeds, with no one else writing to the image, leaves a volume laid out. -/
theorem filsysOpenArch_laid {a : OpenArgs} {s₀ : Mnt} (hs : Solo s₀) :
    Post (filsysOpenArch a s₀) (fun _ s => Solo s ∧ Laid s.fs) fun _ _ => True := by
  refine post_bind (((openDesc_kind a s₀).and (openDesc_quiet a s₀)).mono ?_ fun _ _ _ => trivial)
  intro fmt s₁ hr
  obtain ⟨hk, hq₁⟩ := hr
  refine post_bind (((opsOpen_laid hk a.readonly a.offset s₁).and
    (opsOpen_quiet a.readonly fmt a.offset s₁)).mono ?_ fun _ _ _ => trivial)
  intro _ s₂ hr
  obtain ⟨hlaid, hq₂⟩ := hr
  have hsolo : Solo s₂ := fun k img => by
    rw [(quiet_law.trans hq₁ hq₂).env]
    exact hs k img
  have hlock : Post (lockImage a.readonly s₂) (fun _ t => Solo t ∧ Laid t.fs) fun _ _ => True := by
    unfold lockImage
    split
    · trivial
    · exact ⟨hsolo, hlaid⟩
  refine post_bind (Post.mono (Q := fun _ t => Solo t ∧ Laid t.fs) (E := fun _ _ => True)
    (post_onlyIf (fun _ => post_orClose hlock) fun _ => ⟨hsolo, hlaid⟩) (fun _ s₃ h₃ => ?_) fun _ _ h => h)
  refine post_bind (Post.mono (Q := fun _ t => Solo t ∧ Laid t.fs) (E := fun _ _ => True)
    (post_onlyIf (fun _ => post_orClose ?_) fun _ => h₃) (fun _ s₄ h₄ => h₄) fun _ _ h => h)
  exact post_keeps (opsMark_shape 1) (fun _ t ht => SameShape.laid ht h₃) fun _ _ _ => trivial

end Filsys.Mount
