/-
  Filsys.Mount.Opened — what a read-write open leaves behind.

  The engine's theorems start from a mount that lies inside its image (`Mounted`) and, for
  a free-list edition, from a format whose lists fit their blocks (`ListLayout`). Every
  `filsys_open_arch` that succeeds read-write leaves such a mount.
-/

import Filsys.Alloc.Chain
import Filsys.Mount.Refusal

namespace Filsys.Mount

open Filsys.Lib Filsys.Engine Filsys.Alloc

/-! ## The formats of the table -/

/-- What the rows of the format table with a free list have in common, byte order and
    packing aside. -/
structure ListDesc (d : Desc) : Prop where
  notV1 : d.ops ≠ .v1
  notPdp7 : d.ops ≠ .pdp7
  noMap : d.freemap = .list
  pos : 0 < d.nicfree
  small : d.nicfree < 65536
  bsize : 512 ≤ d.bsize
  width : if d.isizeCount then d.daddrWid = 2 else d.daddrWid = 4
  dump : 4 + d.daddrWid * d.nicfree ≤ if d.dynBsize then 512 else d.bsize
  room : if d.sbCodec then d.isizeCount = false ∧ d.dynBsize = false ∧ 252 + 4 * d.nicfree ≤ d.bsize
    else if d.isizeCount then d.nicfree ≤ 100
    else 12 + 4 * d.nicfree ≤ 500 ∧ d.fmodBack ≤ 200

instance (d : Desc) : Decidable (ListDesc d) :=
  decidable_of_iff (d.ops ≠ .v1 ∧ d.ops ≠ .pdp7 ∧ d.freemap = .list ∧ 0 < d.nicfree ∧
    d.nicfree < 65536 ∧ 512 ≤ d.bsize ∧
    (if d.isizeCount then d.daddrWid = 2 else d.daddrWid = 4) ∧
    (4 + d.daddrWid * d.nicfree ≤ if d.dynBsize then 512 else d.bsize) ∧
    (if d.sbCodec then d.isizeCount = false ∧ d.dynBsize = false ∧ 252 + 4 * d.nicfree ≤ d.bsize
      else if d.isizeCount then d.nicfree ≤ 100
      else 12 + 4 * d.nicfree ≤ 500 ∧ d.fmodBack ≤ 200))
    ⟨fun ⟨h1, h2, h3, h4, h5, h6, h7, h8, h9⟩ => ⟨h1, h2, h3, h4, h5, h6, h7, h8, h9⟩,
      fun ⟨h1, h2, h3, h4, h5, h6, h7, h8, h9⟩ => ⟨h1, h2, h3, h4, h5, h6, h7, h8, h9⟩⟩

theorem listDesc_getformat (ed : Edition) (h : (filsysGetformat ed).alloc = .freelist) :
    ListDesc (filsysGetformat ed) := by
  cases ed <;> first | decide | (exact absurd h (by decide))

theorem of_guard {α : Type} {c : Prop} [Decidable c] {e : Errno} {x : Except Errno α} {d : α}
    (h : (if c then .error e else x) = .ok d) : ¬ c ∧ x = .ok d := by
  split at h
  · cases h
  · exact ⟨‹_›, h⟩

/-- What a geometry may settle on: V9 has one block size, V8 and V10 have one for the free list
    and one for the bitmaps. -/
theorem applyGeom_shape {ed : Edition} {g : Geom} {d : Desc}
    (hd : filsysApplyGeom (filsysGetformat ed) ed g = .ok d) :
    ∃ bo bs fm, d = { filsysGetformat ed with
        bo := bo, bsize := bs, nindir := bs / 4, freemap := fm, alloc :=
        if fm = .list then .freelist else .v8bitmap } ∧
      (fm = .bigmap → ed = .v10) ∧ (bs = if ed = .v9 then 8192 else if fm = .list then 1024 else 4096) := by
  unfold filsysApplyGeom at hd
  simp only at hd
  generalize (if g.blocksize = 0 then (filsysGetformat ed).bsize else g.blocksize) = bs at hd
  generalize g.freemap.getD (if bs = 4096 then .bitmap else .list) = fm at hd
  obtain ⟨h1, hd⟩ := of_guard hd
  obtain ⟨h2, hd⟩ := of_guard hd
  obtain ⟨h3, hd⟩ := of_guard hd
  obtain ⟨h4, hd⟩ := of_guard hd
  obtain ⟨h5, hd⟩ := of_guard hd
  have hshape : ∃ bo, d = { filsysGetformat ed with
      bo := bo, bsize := bs, nindir := bs / 4, freemap := fm, alloc :=
      if fm = .list then .freelist else .v8bitmap } := by
    split at hd
    · exact ⟨_, (Except.ok.inj hd).symm⟩
    · exact ⟨_, (Except.ok.inj hd).symm⟩
    · exact ⟨_, (Except.ok.inj hd).symm⟩
    · cases hd
  obtain ⟨bo, rfl⟩ := hshape
  refine ⟨bo, bs, fm, rfl, ?_, ?_⟩
  · intro hfm
    by_contra hne
    exact h1 ⟨hfm, hne⟩
  · by_cases hv : ed = .v9
    · rw [if_pos hv]
      by_contra hne
      exact h2 ⟨hv, hne⟩
    · rw [if_neg hv]
      have hbs : bs = 1024 ∨ bs = 4096 := by
        by_contra hne
        exact h5 ⟨hv, fun h => hne (.inl h), fun h => hne (.inr h)⟩
      rcases hbs with rfl | rfl
      · rw [if_pos]
        by_contra hne
        exact h3 ⟨hv, rfl, hne⟩
      · rw [if_neg fun h => h4 ⟨hv, rfl, h⟩]

/-- A geometry that keeps the free list keeps the block size its cache was sized for. -/
theorem listDesc_applyGeom {ed : Edition} (hed : ed = .v8 ∨ ed = .v9 ∨ ed = .v10) {g : Geom} {d : Desc}
    (hd : filsysApplyGeom (filsysGetformat ed) ed g = .ok d) (h : d.alloc = .freelist) : ListDesc d := by
  obtain ⟨bo, bs, fm, rfl, -, hbs⟩ := applyGeom_shape hd
  have hfm : fm = .list := by
    by_contra hne
    simp [hne] at h
  subst hfm
  subst hbs
  rcases hed with rfl | rfl | rfl
  · constructor <;> simp [filsysGetformat, descV8]
  · constructor <;> simp [filsysGetformat, descV8]
  · constructor <;> simp [filsysGetformat, descV8]

theorem listDesc_geomDesc {a : OpenArgs} {d : Desc} (hd : geomDesc a = .ok d)
    (h : d.alloc = .freelist) : ListDesc d := by
  unfold geomDesc at hd
  split at hd
  · split at hd
    · exact listDesc_applyGeom ‹_› hd h
    · obtain rfl := Except.ok.inj hd
      exact listDesc_getformat _ h
  · obtain rfl := Except.ok.inj hd
    exact listDesc_getformat _ h

/-! ## The open -/

/-- Byte order, packing and container do not matter. -/
theorem ListDesc.order {d : Desc} (h : ListDesc d) (bo : ByteOrder) (ignore pack4 : Bool)
    (word : Option WordCodec) :
    ListDesc { d with bo := bo, ignoreMagic := ignore, pack4 := pack4, word := word } := by
  obtain ⟨h1, h2, h3, h4, h5, h6, h7, h8, h9⟩ := h
  exact ⟨h1, h2, h3, h4, h5, h6, h7, h8, h9⟩

/-- A property of formats that byte order, packing and container have no part in. -/
def OrderFree (P : Desc → Prop) : Prop :=
  ∀ {d : Desc}, P d → ∀ bo ignore pack4 word,
  P { d with bo := bo, ignoreMagic := ignore, pack4 := pack4, word := word }

theorem matchMagic_settles {P : Desc → Prop} (hP : OrderFree P) {d d' : Desc} (h : P d) {m : Buf}
    {archBo : Option ByteOrder} {force : Bool}
    (hm : matchMagic d m archBo force = .ok d') : P d' := by
  unfold matchMagic at hm
  simp only at hm
  split at hm
  · split at hm
    · exact (Except.ok.inj hm) ▸ hP h _ _ _ _
    · obtain ⟨-, hm⟩ := of_guard hm
      split at hm
      · exact (Except.ok.inj hm) ▸ hP h _ _ _ _
      · cases hm
  · split_ifs at hm <;> exact (Except.ok.inj hm) ▸ hP h _ _ _ _

theorem liftE_spec {α : Type} {r : Except Errno α} {P : α → Prop} (h : ∀ a, r = .ok a → P a) (s : Mnt) :
    Post (liftE r s) (fun a _ => P a) fun _ _ => True := by
  cases r with
  | ok a => exact h a rfl
  | error e => trivial

theorem resolve_settles {P : Desc → Prop} (hP : OrderFree P) {d : Desc} (h : P d) (offset : Nat)
    (arch : Option String) (force : Bool) (s : Mnt) :
    Post (filsysResolveByteorder d offset arch force s) (fun d' _ => P d') fun _ _ => True := by
  refine post_bind ((liftE_quiet _ s).mono ?_ fun _ _ _ => trivial)
  intro archBo t _
  have hp : P (if archBo = some .me then { d with pack4 := false } else d) := by
    split
    · exact hP h _ _ _ _
    · exact h
  apply post_ite
  · intro _
    cases archBo with
    | none => exact hp
    | some bo => exact hP hp bo _ _ _
  · intro _
    refine post_bind ((openImage_quiet t).mono ?_ fun _ _ _ => trivial)
    intro _ t' _
    refine post_bind ((ioRead_still _ _ t').mono ?_ fun _ _ _ => trivial)
    intro m t'' _
    exact liftE_spec (fun d' hd' => matchMagic_settles hP hp hd') t''

/-- What holds of the formats the arguments name holds of the one an open settles on. -/
theorem openDesc_settles {P : Desc → Prop} (hP : OrderFree P) {a : OpenArgs}
    (h : ∀ d, geomDesc a = .ok d → P d) (s : Mnt) :
    Post (openDesc a s) (fun d _ => P d) fun _ _ => True := by
  refine post_bind ((liftE_spec h s).mono ?_ fun _ _ _ => trivial)
  intro d t hd
  refine post_bind ((resolve_settles hP hd _ _ _ t).mono ?_ fun _ _ _ => trivial)
  intro d' t' hd'
  refine liftE_spec (fun d'' hd'' => ?_) t'
  unfold packDesc at hd''
  split at hd''
  · split at hd''
    · obtain rfl := Except.ok.inj hd''
      exact hP hd' _ _ _ _
    · cases hd''
  · exact (Except.ok.inj hd'') ▸ hd'

/-- The edition and the geometry asked for have a free list. -/
def AsksForList (a : OpenArgs) : Prop := ∀ d, geomDesc a = .ok d → d.alloc = .freelist

theorem openDesc_listDesc {a : OpenArgs} (h : AsksForList a) (s : Mnt) :
    Post (openDesc a s) (fun d _ => ListDesc d) fun _ _ => True :=
  openDesc_settles (fun h bo ignore pack4 word => h.order bo ignore pack4 word)
  (fun d hd => listDesc_geomDesc hd (h d hd)) s

/-- What the backend of a free-list edition has read and checked. -/
structure ListGeom (fs : Fs) (size : Nat) : Prop where
  desc : ListDesc fs.desc
  readonly : fs.readonly = false
  imgsize : fs.imgsize = size
  first : 2 ≤ v7DataFirst fs
  data : v7DataFirst fs < fs.fsize
  fits : fs.base + fs.fsize * fs.desc.bsize ≤ size
  noTail : fs.v8Nblks = 0
  width : fs.fsize < 256 ^ if fs.desc.isizeCount then 2 else 4

theorem ListDesc.dyn {d : Desc} (h : ListDesc d) (hdyn : d.dynBsize = true) {b : Nat} (hb : 512 ≤ b) (n : Nat) :
    ListDesc { d with bsize := b, nindir := n } := by
  have hdump := h.dump
  have hroom := h.room
  rw [if_pos hdyn] at hdump
  refine ⟨h.notV1, h.notPdp7, h.noMap, h.pos, h.small, hb, h.width, ?_, ?_⟩
  · show _ ≤ if d.dynBsize then 512 else b
    rw [if_pos hdyn]
    exact hdump
  · show if d.sbCodec then _ ∧ d.dynBsize = false ∧ _ else _
    split
    · rw [if_pos ‹_›, hdyn] at hroom
      exact absurd hroom.2.1 (by simp)
    · rw [if_neg ‹_›] at hroom
      exact hroom

theorem num_sbDecode_fsize (fs : Fs) (sb : Buf)
    (h : if fs.desc.sbCodec then fs.desc.isizeCount = false else True) :
    (sbDecode fs sb).fsize < 256 ^ if fs.desc.isizeCount then 2 else 4 := by
  have h32 : ∀ o, fs.desc.bo.get32 sb o < 256 ^ 4 := fun o =>
    Nat.lt_of_lt_of_eq (num_lt (ByteOrder.perm_sig32 _) sb o) (by rw [ByteOrder.length_sig32])
  have h16 : ∀ o, fs.desc.bo.get16 sb o < 256 ^ 2 := fun o =>
    Nat.lt_of_lt_of_eq (num_lt (ByteOrder.perm_sig16 _) sb o) (by rw [ByteOrder.length_sig16])
  unfold sbDecode
  by_cases hc : fs.desc.sbCodec = true
  · simp only [if_pos hc] at h ⊢
    rw [h]
    exact h32 4
  · simp only [if_neg hc]
    by_cases hi : fs.desc.isizeCount = true
    · simp only [if_pos hi]
      exact h16 2
    · simp only [if_neg hi]
      exact h32 _

theorem v7OpenSuper_list {s : Mnt} (h : ListDesc s.fs.desc) :
    Post (v7OpenSuper s) (fun _ t => ListDesc t.fs.desc ∧ t.fs.readonly = s.fs.readonly ∧
      t.fs.v8Nblks = s.fs.v8Nblks) fun _ _ => True := by
  refine post_bind (post_ite ?_ ?_)
  · intro hdyn
    refine post_bind (post_failAs ((ioRead_still _ _ _).mono ?_ fun _ _ _ => trivial))
    intro probe t0 h0
    refine post_ite (fun _ => trivial) fun _ => post_ite (fun _ => trivial) fun hb => ?_
    refine post_bind (post_failAs ((ioRead_still _ _ _).mono ?_ fun _ _ _ => trivial))
    intro sb t1 h1
    have hs0 := h0.settled
    have hs1 := h1.settled
    have hn := h1.tail.trans h0.tail
    simp only [settled, tail, Prod.mk.injEq] at hs0 hs1 hn
    refine ⟨?_, hs1.2.1.trans hs0.2.1, hn.2.1⟩
    rw [hs1.1, hs0.1]
    exact h.dyn hdyn (sysvBsize_pos hb) _
  · intro hdyn
    refine post_failAs ((v7fsReadBlock_still 1 s).mono ?_ fun _ _ _ => trivial)
    intro sb t ht
    have hs := ht.settled
    have hn := ht.tail
    simp only [settled, tail, Prod.mk.injEq] at hs hn
    exact ⟨hs.1 ▸ h, hs.2.1, hn.2.1⟩

theorem v7fsOpen_list {proto : Desc} (h : ListDesc proto) (offset : Nat) (s : Mnt) :
    Post (v7fsOpen false proto offset s) (fun _ t => ListGeom t.fs t.size) fun _ _ => True := by
  refine post_bind (post_bind ((openImage_spec _).mono ?_ fun _ _ _ => trivial))
  intro r t heq
  cases r
  subst heq
  refine post_bind ((v7OpenSuper_list ?_).mono ?_ fun _ _ _ => trivial)
  · exact h
  intro sb t0 hrun
  obtain ⟨hdesc, hro, hnb⟩ := hrun
  refine post_bind (post_bind (post_ite (fun _ => trivial) fun _ => ?_))
  obtain ⟨hdd, hrd, hnd⟩ := sbDecode_settled t0.fs sb
  have hwidth := num_sbDecode_fsize t0.fs sb (by have := hdesc.room; split at this <;> simp_all)
  refine post_bind (post_onlyIf (fun hc => ?_) fun _ => ?_)
  · refine absurd (hc.2 : (sbDecode t0.fs sb).desc.freemap ≠ .list) ?_
    rw [hdd, hdesc.noMap]
    simp
  refine post_bind ((v7OpenTotals_still sb _).mono ?_ fun _ _ _ => trivial)
  intro _ t2 h2
  refine post_bind (post_keeps (keeps_onlyIf still_law (modFs_still fun _ => ⟨rfl, rfl⟩)) ?_
    fun _ _ _ => trivial)
  intro _ t3 h3
  refine post_ite (fun _ => trivial) fun _ => post_get (post_ite (fun _ => trivial) fun hgeo => ?_)
  have hset := h3.settled.trans h2.settled
  have htail := h3.tail.trans h2.tail
  simp only [settled, tail, Prod.mk.injEq] at hset htail
  obtain ⟨hd, hr, -, -⟩ := hset
  obtain ⟨hfs, hn, -⟩ := htail
  have hd' : t3.fs.desc = t0.fs.desc := hd.trans hdd
  rw [show (sbDecode t0.fs sb).desc = t3.fs.desc from hd.symm] at hgeo
  simp only [not_or] at hgeo
  obtain ⟨hisz, hsz, hdata⟩ := hgeo
  refine ⟨hd' ▸ hdesc, hr.trans (hrd.trans hro), rfl, ?_, Nat.lt_of_not_le hdata, Nat.le_of_not_lt hsz,
    hn.trans (hnd.trans hnb), ?_⟩
  · show 2 ≤ t3.fs.isize + if t3.fs.desc.isizeCount then 2 else 0
    rw [Nat.not_lt] at hisz
    by_cases hc : t3.fs.desc.isizeCount = true
    · rw [if_pos hc]
      omega
    · rw [if_neg hc] at hisz ⊢
      omega
  · show t3.fs.fsize < 256 ^ if t3.fs.desc.isizeCount then 2 else 4
    rw [hfs, hd']
    exact hwidth

/-- The last steps of an open touch the superblock alone. -/
theorem listGeom_layout {s : Mnt} (h : ListGeom s.fs s.size) (hsolo : Solo s) :
    Mounted s ∧ ListLayout s.fs := by
  have hd := h.desc
  have hstart : opsDataStart s.fs = v7DataFirst s.fs := by
    unfold opsDataStart
    split
    · exact absurd ‹_› hd.notV1
    · exact absurd ‹_› hd.notPdp7
    · rfl
  have hend : opsDataEnd s.fs = s.fs.fsize := by
    unfold opsDataEnd
    split
    · rfl
    · exact absurd ‹_› hd.notPdp7
    · rw [h.noTail, Nat.sub_zero]
  have hwid := hd.width
  have hlen : (daddrSig s.fs.desc).length = s.fs.desc.daddrWid := by
    unfold daddrSig
    split at hwid <;> rw [hwid] <;> simp
  have hoff : chainFreeOff s.fs.desc ≤ 4 := by
    unfold chainFreeOff fbFreeOff
    split <;> (try split) <;> omega
  have hsuper : 512 ≤ superLen s.fs := by
    have := hd.bsize
    unfold superLen
    split <;> omega
  have hroom := hd.room
  have hdump := hd.dump
  have hbsz := hd.bsize
  refine ⟨⟨hsolo, hd.notPdp7, h.readonly, hd.bsize, fun hv => absurd hv hd.notV1,
    h.fits, h.imgsize, ?_, ?_, ?_⟩,
    ⟨hd.notV1, hd.notPdp7, h.noTail, hlen.symm, ?_, ?_, hd.pos, hd.small, ?_, Nat.le_of_lt h.width, ?_⟩⟩
  · rw [hstart]
    exact h.first
  · rw [hstart, hend]
    exact h.data
  · exact Nat.le_of_eq hend
  · rw [length_dfNfreeSig]
    unfold chainFreeOff fbFreeOff
    split <;> (try split) <;> omega
  · split at hdump <;> omega
  · unfold SuperRoom
    split
    · rw [if_pos ‹_›] at hroom
      obtain ⟨hi, hdyn, hle⟩ := hroom
      refine ⟨hd.noMap, hi, ?_⟩
      unfold superLen
      rw [if_neg (by simp [hdyn])]
      exact hle
    · rw [if_neg ‹_›] at hroom
      split
      · rw [if_pos ‹_›] at hroom
        exact ⟨hroom, by omega⟩
      · rw [if_neg ‹_›] at hroom
        have hfree : sbFreeOff s.fs.desc.pack4 ≤ 12 := by
          unfold sbFreeOff
          split <;> omega
        exact ⟨by omega, fun _ => by omega, hroom.2⟩
  · have := h.width
    split at hwid <;> rename_i hc <;> rw [hwid] <;> simp only [hc] at this <;> exact Nat.le_of_lt this

theorem opsOpen_list {fmt : Desc} (h : ListDesc fmt) (offset : Nat) (s : Mnt) :
    Post (opsOpen false fmt offset s) (fun _ t => ListGeom t.fs t.size ∧ Quiet s t) fun _ _ => True := by
  have hq : Post (opsOpen false fmt offset s) (fun _ t => Quiet s t) fun _ _ => True :=
    (opsOpen_opens fmt offset s).mono (fun _ _ h => h.1) fun _ _ _ => trivial
  have hg : Post (opsOpen false fmt offset s) (fun _ t => ListGeom t.fs t.size) fun _ _ => True := by
    unfold opsOpen
    cases hops : fmt.ops with
    | v1 => exact absurd hops h.notV1
    | pdp7 => exact absurd hops h.notPdp7
    | v6 => exact v7fsOpen_list h offset s
    | v7 => exact v7fsOpen_list h offset s
    | bsd211 => exact v7fsOpen_list h offset s
  exact (hg.and hq).mono (fun _ _ h => h) fun _ _ _ => trivial

/-- Every read-write open of a free-list edition that succeeds, with no one else writing to
    the image, leaves a mounted volume whose lists fit. -/
theorem open_leaves_list_mount {a : OpenArgs} (ha : a.readonly = false) (hl : AsksForList a)
    {s : Mnt} (hsolo : Solo s) :
    Post (filsysOpenArch a s) (fun _ t => Mounted t ∧ ListLayout t.fs) fun _ _ => True := by
  refine post_bind (((openDesc_listDesc hl s).and (openDesc_quiet a s)).mono ?_ fun _ _ _ => trivial)
  intro fmt t hr
  obtain ⟨hfmt, hq⟩ := hr
  rw [ha]
  refine post_bind ((opsOpen_list hfmt a.offset t).mono ?_ fun _ _ _ => trivial)
  intro _ t' hr
  obtain ⟨hgeom, hq'⟩ := hr
  have hsolo' : Solo t' := by
    intro k img
    rw [(quiet_law.trans hq hq').env]
    exact hsolo k img
  obtain ⟨hm, hlay⟩ := listGeom_layout hgeom hsolo'
  have hlock : Post (lockImage false t') (fun _ u => u = t') fun _ _ => True := by
    unfold lockImage
    split <;> trivial
  have hmark : Post (opsMark 1 t') (fun _ u => SameVol t' u) fun _ _ => True := by
    have hm1 : Mounted { t' with fs := { t'.fs with fmod := 1 } } := hm.of_sameVol ⟨rfl, rfl, rfl⟩
    have hflush : Post (((if t'.fs.readonly then pure () else do
        modFs fun fs => { fs with fmod := 1 }
        flushFs) : M Unit) t') (fun _ u => SameVol t' u) fun _ _ => True := by
      refine post_ite (fun h => absurd h (by simp [hgeom.readonly])) fun _ =>
        post_bindMod (post_bindFs (post_ite (fun h => ?_) fun _ => ?_))
      · exact absurd hgeom.desc.noMap h
      · exact hm1.post_superWrite (fun _ _ => ⟨rfl, rfl, rfl⟩) fun _ _ _ _ => trivial
    apply post_bindFs
    cases hops : t'.fs.desc.ops with
    | v1 => exact absurd hops hgeom.desc.notV1
    | pdp7 => exact absurd hops hgeom.desc.notPdp7
    | v6 => exact hflush
    | v7 => exact hflush
    | bsd211 => exact hflush
  have horClose : ∀ {x : M Unit} {u : Mnt} {Q : Mnt → Prop}, Post (x u) (fun _ v => Q v) (fun _ _ => True) →
      Post (orClose x u) (fun _ v => Q v) fun _ _ => True := by
    intro x u Q hx
    refine post_bind (post_attempt (hx.mono (fun _ _ hv => hv) fun e v _ => ?_))
    refine post_bind (Post.mono (Q := fun _ _ => True) (E := fun _ _ => True) ?_ (fun _ _ _ => trivial)
      fun _ _ _ => trivial)
    generalize attempt opsClose v = r
    cases r <;> trivial
  refine post_bind (Post.mono (Q := fun _ u => u = t') (post_onlyIf (fun _ => horClose hlock)
    fun _ => rfl) ?_ fun _ _ h => h)
  rintro _ u rfl
  refine post_bind (post_onlyIf (fun _ => ?_) fun h => absurd rfl h)
  refine (horClose hmark).mono ?_ fun _ _ _ => trivial
  intro _ u hu
  exact ⟨hm.of_sameVol (sameVol_law.trans hu ⟨rfl, rfl, rfl⟩), hlay.of_shape hu.shape⟩

end Filsys.Mount
