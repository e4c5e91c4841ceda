/-
  Filsys.Mount.Formats — the format a mounted volume has.

  An open takes a row of the format table, may put another geometry and byte order in it
  and, for System V, the block size its superblock names. What holds of every such
  descriptor holds of the one any successful open leaves (`filsysOpenArch_settles`).
-/

import Filsys.Mount.Spaces

namespace Filsys.Mount

open Filsys.Lib Filsys.Engine

/-- A property of formats that the System V block size has no part in. -/
def SizeFree (P : Desc → Prop) : Prop :=
  ∀ {d : Desc} (t : Nat), P d → d.dynBsize = true → sysvBsize t ≠ 0 →
  P { d with bsize := sysvBsize t, nindir := sysvBsize t / d.daddrWid }

/-- A property of every row of the table and of every geometry a row can be given. -/
structure InTable (P : Desc → Prop) : Prop where
  row : ∀ ed, P (filsysGetformat ed)
  geom : ∀ ed bo bs fm, ed = .v8 ∨ ed = .v9 ∨ ed = .v10 →
    (bs = if ed = .v9 then 8192 else if fm = Freemap.list then 1024 else 4096) →
    P { filsysGetformat ed with
      bo := bo, bsize := bs, nindir := bs / 4, freemap := fm
      alloc := if fm = .list then .freelist else .v8bitmap }

theorem InTable.geomDesc {P : Desc → Prop} (h : InTable P) {a : OpenArgs} {d : Desc}
    (hd : geomDesc a = .ok d) : P d := by
  unfold Engine.geomDesc at hd
  split at hd
  · split at hd
    · rename_i hed
      obtain ⟨bo, bs, fm, rfl, -, hbs⟩ := applyGeom_shape hd
      exact h.geom _ bo bs fm hed hbs
    · exact (Except.ok.inj hd) ▸ h.row _
  · exact (Except.ok.inj hd) ▸ h.row _

section Open

variable {P : Desc → Prop} (hS : SizeFree P)

theorem v8BitmapLoad_desc (sb : Buf) : Keeps (SameIn fun fs => fs.desc) (v8BitmapLoad sb) :=
  SameIn.v8BitmapLoad sb fun _ _ _ _ _ _ => rfl

include hS

theorem v7OpenSuper_settles {s : Mnt} (h : P s.fs.desc) :
    Post (v7OpenSuper s) (fun _ t => P t.fs.desc) fun _ _ => True := by
  refine post_bindFs (post_ite ?_ ?_)
  · intro hdyn
    refine post_bind (post_failAs (post_keeps (SameIn.ioRead (f := fun fs => fs.desc) _ _)
      (fun probe t ht => ?_) fun _ _ _ => trivial))
    refine post_ite (fun _ => trivial) fun _ => post_ite (fun _ => trivial) fun hsize => ?_
    have ht : t.fs.desc = s.fs.desc := ht
    refine post_bindMod (post_failAs (post_keeps (SameIn.ioRead (f := fun fs => fs.desc) _ _)
      (fun _ u hu => ?_) fun _ _ _ => trivial))
    have hu : u.fs.desc = { t.fs.desc with
        bsize := sysvBsize (s.fs.desc.bo.get32 probe 508), nindir :=
        sysvBsize (s.fs.desc.bo.get32 probe 508) / t.fs.desc.daddrWid } := hu
    rw [hu, ht]
    exact hS _ h hdyn hsize
  · intro _
    exact post_failAs (post_keeps (SameIn.v7fsReadBlock (f := fun fs => fs.desc) _)
      (fun _ t ht => (show t.fs.desc = s.fs.desc from ht) ▸ h)
      fun _ _ _ => trivial)

theorem v7fsOpen_settles {fmt : Desc} (h : P fmt) (readonly : Bool) (offset : Nat) (s₀ : Mnt) :
    Post (v7fsOpen readonly fmt offset s₀) (fun _ s => P s.fs.desc) fun _ _ => True := by
  have hf : SameIn.Incidental fun fs : Fs => fs.desc := ⟨fun _ _ _ => rfl, fun _ _ _ _ => rfl, fun _ _ => rfl⟩
  refine post_bindMod (post_bind (post_keeps (SameIn.openImage (f := fun fs => fs.desc))
    (fun _ s₁ h₁ => ?_) fun _ _ _ => trivial))
  have h₁ : s₁.fs.desc = fmt := h₁
  refine post_bind ((v7OpenSuper_settles hS (h₁ ▸ h)).mono (fun sb s₂ h₂ => ?_) fun _ _ _ => trivial)
  refine post_bindMod (post_bindFs (post_ite (fun _ => trivial) fun _ => ?_))
  have hload : Keeps (SameIn fun fs : Fs => fs.desc)
    (onlyIf ((sbDecode s₂.fs sb).desc.sbCodec ∧ (sbDecode s₂.fs sb).desc.freemap ≠ .list)
      (failAs .eio (v8BitmapLoad sb))) := keeps_onlyIf (sameIn_law _) (keeps_failAs (v8BitmapLoad_desc sb))
  have hrest := SameIn.seq hload fun _ => SameIn.v7fsOpenRest hf (sbDecode s₂.fs sb).desc sb
  refine post_keeps hrest (fun _ t ht => ?_) fun _ _ _ => trivial
  have ht : t.fs.desc = (sbDecode s₂.fs sb).desc := ht
  rw [ht, sbDecode_desc]
  exact h₂

theorem opsOpen_settles {fmt : Desc} (h : P fmt) (readonly : Bool) (offset : Nat) (s₀ : Mnt) :
    Post (opsOpen readonly fmt offset s₀) (fun _ s => P s.fs.desc) fun _ _ => True := by
  have hv1 : Post (v1fsOpen readonly fmt offset s₀) (fun _ s => P s.fs.desc) fun _ _ => True := by
    refine post_bindMod (post_keeps (R := SameIn fun fs => fs.desc) ?_
      (fun _ t ht => (show t.fs.desc = fmt from ht) ▸ h) fun _ _ _ => trivial)
    refine SameIn.seq SameIn.openImage fun _ => ?_
    refine SameIn.seq (keeps_failAs (SameIn.v1fsReadBlock _)) fun b0 => ?_
    refine SameIn.seq (keeps_failAs (SameIn.v1fsReadBlock _)) fun b1 => ?_
    refine keeps_ite (SameIn.fail _) ?_
    exact SameIn.seq (keeps_get (sameIn_law _)) fun s => keeps_ite (SameIn.fail _) (SameIn.modFs fun _ => rfl)
  have hp7 : Post (p7fsOpen readonly fmt offset s₀) (fun _ s => P s.fs.desc) fun _ _ => True := by
    refine post_bindMod (post_keeps (R := SameIn fun fs => fs.desc) ?_
      (fun _ t ht => (show t.fs.desc = fmt from ht) ▸ h) fun _ _ _ => trivial)
    refine SameIn.seq SameIn.openImage fun _ => ?_
    refine SameIn.seq (keeps_get (sameIn_law _)) fun s => ?_
    refine keeps_ite (SameIn.fail _) ?_
    refine SameIn.seq (SameIn.modFs fun _ => rfl) fun _ => ?_
    refine SameIn.seq (keeps_failAs (SameIn.readWords _)) fun sb => ?_
    refine SameIn.seq (SameIn.modFs fun _ => rfl) fun _ => ?_
    refine SameIn.seq (p7Count_same _ _ _) fun n => ?_
    exact SameIn.modFs fun _ => rfl
  unfold opsOpen
  cases fmt.ops with
  | v1 => exact hv1
  | pdp7 => exact hp7
  | v6 => exact v7fsOpen_settles hS h readonly offset s₀
  | v7 => exact v7fsOpen_settles hS h readonly offset s₀
  | bsd211 => exact v7fsOpen_settles hS h readonly offset s₀

/-- What holds of every format holds of the mounted one. -/
theorem filsysOpenArch_settles (hO : OrderFree P) (hT : InTable P) {a : OpenArgs} {s₀ : Mnt} (hs : Solo s₀) :
    Post (filsysOpenArch a s₀) (fun _ s => P s.fs.desc) fun _ _ => True := by
  refine post_bind (((openDesc_settles hO (fun _ hd => hT.geomDesc hd) s₀).and
    (openDesc_quiet a s₀)).mono ?_ fun _ _ _ => trivial)
  intro fmt s₁ hr
  obtain ⟨hfmt, hq₁⟩ := hr
  refine post_bind (((opsOpen_settles hS hfmt a.readonly a.offset s₁).and
    (opsOpen_quiet a.readonly fmt a.offset s₁)).mono ?_ fun _ _ _ => trivial)
  intro _ s₂ hr
  obtain ⟨hopen, hq₂⟩ := hr
  have hsolo : Solo s₂ := fun k img => by
    rw [(quiet_law.trans hq₁ hq₂).env]
    exact hs k img
  have hlock : Post (lockImage a.readonly s₂) (fun _ t => Solo t ∧ P t.fs.desc) fun _ _ => True := by
    unfold lockImage
    split
    · trivial
    · exact ⟨hsolo, hopen⟩
  refine post_bind (Post.mono (Q := fun _ t => Solo t ∧ P t.fs.desc) (E := fun _ _ => True)
    (post_onlyIf (fun _ => post_orClose hlock) fun _ => ⟨hsolo, hopen⟩) (fun _ s₃ h₃ => ?_) fun _ _ h => h)
  refine post_bind (Post.mono (Q := fun _ t => P t.fs.desc) (E := fun _ _ => True)
    (post_onlyIf (fun _ => post_orClose ?_) fun _ => h₃.2) (fun _ s₄ h₄ => show P s₄.fs.desc from h₄)
    fun _ _ h => h)
  refine post_keeps (opsMark_shape 1) (fun _ t ht => ?_) fun _ _ _ => trivial
  rw [shape_desc (ht h₃.1).2]
  exact h₃.2

end Open

/-! ## Word-addressed volumes -/

/-- The row of the word-addressed edition, in some byte order and word container. -/
def WordRow (d : Desc) : Prop := d.ops = .pdp7 → ∃ bo wc, d = { descPdp7 with bo := bo, word := wc }

theorem wordRow_inTable : InTable WordRow where
  row ed := by
    cases ed <;> first | exact fun _ => ⟨_, _, rfl⟩ | exact fun h => by cases h
  geom ed bo bs fm hed _ := by
    rcases hed with rfl | rfl | rfl <;> exact fun h => by cases h

theorem openDesc_wordRow (a : OpenArgs) (s : Mnt) :
    Post (openDesc a s) (fun d _ => WordRow d) fun _ _ => True := by
  refine post_bind ((liftE_spec (fun d hd => wordRow_inTable.geomDesc hd) s).mono ?_ fun _ _ _ => trivial)
  intro d t hd
  have hresolve : Post (filsysResolveByteorder d a.offset a.arch a.force t) (fun d' _ => WordRow d')
    fun _ _ => True := by
    refine post_bind ((liftE_quiet _ t).mono (fun archBo t' _ => ?_) fun _ _ _ => trivial)
    generalize hfmt : (if archBo = some .me then { d with pack4 := false } else d) = fmt
    have hrow : WordRow fmt := by
      subst hfmt
      split
      · intro hops
        obtain ⟨bo, wc, rfl⟩ := hd hops
        exact ⟨bo, wc, rfl⟩
      · exact hd
    apply post_ite
    · intro _
      cases archBo with
      | none => exact hrow
      | some bo =>
        intro hops
        obtain ⟨_, wc, rfl⟩ := hrow hops
        exact ⟨bo, wc, rfl⟩
    · intro hmagic
      -- a magic number is no word-addressed volume's
      have hops : fmt.ops ≠ .pdp7 := by
        intro hops
        obtain ⟨bo, wc, rfl⟩ := hrow hops
        exact hmagic rfl
      refine post_bind ((post_true _).mono (fun _ t₁ _ => ?_) fun _ _ _ => trivial)
      refine post_bind ((post_true _).mono (fun m t₂ _ => ?_) fun _ _ _ => trivial)
      refine liftE_spec (fun d' hd' h => ?_) t₂
      exact absurd h (matchMagic_settles (P := fun d => d.ops ≠ .pdp7) (fun h _ _ _ _ => h) hops hd')
  refine post_bind (hresolve.mono (fun d' t' hd' => liftE_spec (fun d'' hd'' => ?_) t') fun _ _ _ => trivial)
  unfold packDesc at hd''
  split at hd''
  · split at hd''
    · obtain rfl := Except.ok.inj hd''
      intro hops
      obtain ⟨bo, _, rfl⟩ := hd' hops
      exact ⟨bo, _, rfl⟩
    · cases hd''
  · exact (Except.ok.inj hd'') ▸ hd'

/-- What the open of a word-addressed volume has read and checked. -/
structure WordVolume (s : Mnt) : Prop where
  format : ∃ bo wc, s.fs.desc = { descPdp7 with bo := bo, word := wc }
  imgsize : s.fs.imgsize = s.size
  room : 0 < s.size
  head : s.fs.freelist < 2 ^ 18

theorem p7fsOpen_volume {fmt : Desc} (h : WordRow fmt) (hops : fmt.ops = .pdp7) (readonly : Bool)
    (offset : Nat) (s₀ : Mnt) :
    Post (p7fsOpen readonly fmt offset s₀) (fun _ s => WordVolume s) fun _ _ => True := by
  refine post_bindMod (post_bind (post_keeps (SameIn.openImage (f := fun fs => fs.desc))
    (fun _ s₁ h₁ => ?_) fun _ _ _ => trivial))
  have h₁ : s₁.fs.desc = fmt := h₁
  have hbytes : 0 < (wordOps fmt).blockBytes := by
    cases wordOps fmt <;> decide
  refine post_get (post_ite (fun _ => trivial) fun hsize => post_bindMod ?_)
  refine post_bind (post_failAs (post_keeps (readWords_still 0) (fun sb s₂ h₂ => ?_) fun _ _ _ => trivial))
  have hset : settled s₂.fs = (s₁.fs.desc, s₁.fs.readonly, s₁.fs.base, s₁.size) := h₂.settled
  have hsize₂ : s₂.size = s₁.size := h₂.size
  have hhead := p7Count_same (f := fun fs => fs.freelist) p7Nblocks (word18 (sb 0)) 0
  refine post_bindMod (post_bind (((p7Count_still p7Nblocks (word18 (sb 0)) 0 _).and (hhead _)).mono
    (fun n s₃ h₃ => ?_) fun _ _ _ => trivial))
  have hset₃ : settled s₃.fs = settled s₂.fs := h₃.1.settled
  have hsize₃ : s₃.size = s₂.size := h₃.1.size
  have hfree : s₃.fs.freelist = word18 (sb 0) := h₃.2
  have hall := hset₃.trans hset
  simp only [settled, Prod.mk.injEq] at hall
  obtain ⟨hdesc, -, -, himg⟩ := hall
  exact {
    format := by
      show ∃ bo wc, s₃.fs.desc = _
      rw [hdesc, h₁]
      exact h hops
    imgsize := himg.trans (hsize₃.trans hsize₂).symm
    room := by
      show 0 < s₃.size
      omega
    head := by
      show s₃.fs.freelist < 2 ^ 18
      rw [hfree]
      exact Nat.mod_lt _ (by decide) }

/-- Every open of a word-addressed volume that succeeds leaves one. -/
theorem filsysOpenArch_words {a : OpenArgs} {s₀ : Mnt} (hs : Solo s₀) :
    Post (filsysOpenArch a s₀) (fun _ s => s.fs.desc.ops = .pdp7 → Solo s ∧ WordVolume s) fun _ _ => True := by
  refine post_bind (((openDesc_wordRow a s₀).and (openDesc_quiet a s₀)).mono ?_ fun _ _ _ => trivial)
  intro fmt s₁ hr
  obtain ⟨hrow, hq₁⟩ := hr
  have hopen : Post (opsOpen a.readonly fmt a.offset s₁) (fun _ t => t.fs.desc.ops = .pdp7 →
    WordVolume t) fun _ _ => True := by
    by_cases hops : fmt.ops = .pdp7
    · unfold opsOpen
      rw [hops]
      exact (p7fsOpen_volume hrow hops a.readonly a.offset s₁).mono (fun _ _ h _ => h) fun _ _ h => h
    · have hkeep := opsOpen_settles (P := fun d => d.ops ≠ .pdp7) (fun _ h _ _ => h) hops a.readonly a.offset s₁
      exact hkeep.mono (fun _ _ h hp => absurd hp h) fun _ _ h => h
  refine post_bind ((hopen.and (opsOpen_quiet a.readonly fmt a.offset s₁)).mono ?_ fun _ _ _ => trivial)
  intro _ s₂ hr
  obtain ⟨hvol, hq₂⟩ := hr
  have hsolo : Solo s₂ := fun k img => by
    rw [(quiet_law.trans hq₁ hq₂).env]
    exact hs k img
  have hlock : Post (lockImage a.readonly s₂) (fun _ t => t = s₂) fun _ _ => True := by
    unfold lockImage
    split
    · trivial
    · exact rfl
  refine post_bind (Post.mono (Q := fun _ t => t = s₂) (E := fun _ _ => True)
    (post_onlyIf (fun _ => post_orClose hlock) fun _ => rfl) (fun _ s₃ h₃ => ?_) fun _ _ h => h)
  subst h₃
  have hmark : Post (opsMark 1 s₃) (fun _ t => t.fs.desc.ops = .pdp7 → Solo t ∧ WordVolume t) fun _ _ =>
    True := by
    by_cases hops : s₃.fs.desc.ops = .pdp7
    · apply post_bindFs
      rw [hops]
      exact fun _ => ⟨hsolo, hvol hops⟩
    · refine post_keeps (opsMark_shape 1) (fun _ t ht hp => ?_) fun _ _ _ => trivial
      rw [shape_desc (ht hsolo).2] at hp
      exact absurd hp hops
  refine post_bind (Post.mono (Q := fun _ t => t.fs.desc.ops = .pdp7 → Solo t ∧ WordVolume t) (E :=
    fun _ _ => True)
    (post_onlyIf (fun _ => post_orClose hmark) fun _ hops => ⟨hsolo, hvol hops⟩)
    (fun _ s₄ h₄ hops => ?_) fun _ _ h => h)
  obtain ⟨hsolo₄, hvol₄⟩ := h₄ hops
  exact ⟨hsolo₄, hvol₄.format, hvol₄.imgsize, hvol₄.room, hvol₄.head⟩

end Filsys.Mount
