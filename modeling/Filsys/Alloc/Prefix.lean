/-
  Filsys.Alloc.Prefix — the free list on disk, after every single write.

  The superblock is flushed lazily and the chain lives in the very blocks being handed
  out, so the list on disk lags the one in core. What keeps it whole is that between two
  flushes the list on disk never changes: its chain blocks are chain blocks of the list
  in core (`Good.behind`), which no one writes to, and a flush makes the two equal. A chain
  block is only handed out after the superblock that no longer names it has gone out.
-/

import Filsys.Alloc.Freelist

namespace Filsys.Alloc

open Filsys.Lib Filsys.Engine

/-! ## Actions -/

/-- The free list the superblock of an image heads. -/
abbrev OnDisk (fs : Fs) (img : Buf) (L K : List Nat) : Prop := FreeList fs img (diskCache fs img) L K

/-- A data block that is not on the in-core list. -/
def Allocated (s : Mnt) (b : Nat) : Prop := InData s.fs b ∧ ∀ L K, Core s L K → b ∉ L

/-- What a caller of the allocator does. -/
inductive Act
  | balloc
  | bfree (b : Nat)
  /-- The caller's own write into a block it has allocated. -/
  | write (b : Nat) (buf : Buf)
  | writeInode (ino : Nat) (ip : Inode)
  | superWrite

def Act.run : Act → M Unit
  | .balloc => do
    let _ ← v7fsBalloc
    return ()
  | .bfree b => v7fsBfree b
  | .write b buf => v7fsWriteBlock .block b buf
  | .writeInode ino ip => v7fsWriteInode ino ip
  | .superWrite => v7fsSuperWrite

/-- Only allocated blocks are freed and written. -/
def Act.Legal (s : Mnt) : Act → Prop
  | .bfree b => Allocated s b
  | .write b _ => Allocated s b
  | _ => True

/-- The states legal actions lead to, whatever each of them returns. -/
inductive Run (o : Mnt) : Mnt → Prop
  | start : Run o o
  | next {s : Mnt} (a : Act) : Run o s → a.Legal s → Run o (final a.run s)

/-! ## What holds after every write -/

/-- The write `e` goes into block `b`. -/
def touches (fs : Fs) (b : Nat) (e : Event) : Bool :=
  decide (e.off < fs.base + b * fs.desc.bsize + fs.desc.bsize ∧ fs.base + b * fs.desc.bsize < e.off + e.len)

/-- Block `b` holds the cache the last write into it dumped there; or, not written since
    `o`, it is a chain block of old that holds what it held. -/
def Genuine (o : Mnt) (K : List Nat) (trace : List Event) (img : Buf) (b : Nat) : Prop :=
  match trace.find? (touches o.fs b) with
  | none => b ∈ K ∧ blockOf o.fs img b = blockOf o.fs o.img b
  | some e =>
    e.site = .dump ∧ blockOf o.fs img b = window (dumpBuf e.fs.desc e.fs.nfree e.fs.free) 0 o.fs.desc.bsize

/-- What a crash right after the write `e` finds, `older` being the writes before it. -/
structure SafeAt (o : Mnt) (K₀ : List Nat) (e : Event) (older : List Event) : Prop where
  /-- The list on disk is well formed and no chain block holds a caller's data. -/
  disk : ∃ L K, OnDisk o.fs e.after L K ∧ ∀ b ∈ K, Genuine o K₀ (e :: older) e.after b
  /-- An inode goes out only when all the disk calls free is free. -/
  inode : ∀ ip, e.site = .inode ip →
    ∃ L K L' K', OnDisk o.fs e.before L K ∧ FreeList e.fs e.before (e.fs.nfree, e.fs.free) L' K' ∧ L ⊆ L'

/-- The in-core list is whole, its chain blocks are genuine and every write so far was safe. -/
structure Sound (o : Mnt) (K₀ : List Nat) (s : Mnt) (tr : List Event) (L K : List Nat) : Prop where
  vol : SameVol o s
  core : Core s L K
  trace : s.trace = tr ++ o.trace
  safe : ∀ e older, e :: older <:+ tr → SafeAt o K₀ e older
  genuine : ∀ b ∈ K, Genuine o K₀ tr s.img b

/-- The list on disk lags behind: its chain blocks are chain blocks still, and unless
    allocations are unflushed what it calls free is free. -/
def Behind (s : Mnt) (L K : List Nat) : Prop :=
  ∃ Ld Kd, OnDisk s.fs s.img Ld Kd ∧ Kd ⊆ K ∧ (s.fs.flDirty = false → Ld ⊆ L)

def Good (o : Mnt) (K₀ : List Nat) (s : Mnt) : Prop := ∃ tr L K, Sound o K₀ s tr L K ∧ Behind s L K

/-! ## One write at a time -/

theorem touches_ne {fs : Fs} {b b' : Nat} (h : b ≠ b') {e : Event} (hoff : e.off = fs.base + b' * fs.desc.bsize)
    (hlen : e.len = fs.desc.bsize) : touches fs b e = false := by
  have := block_disjoint fs.base fs.desc.bsize h
  unfold touches
  rw [hoff, hlen, decide_eq_false_iff_not]
  omega

theorem touches_super {fs : Fs} (hb : 512 ≤ fs.desc.bsize) {b : Nat} (h2 : 2 ≤ b) {e : Event}
    (hoff : e.off = superOff fs)
    (hlen : e.len = superLen fs) : touches fs b e = false := by
  have := super_below hb h2
  unfold touches
  rw [hoff, hlen, decide_eq_false_iff_not]
  omega

/-- A write elsewhere leaves a chain block genuine. -/
theorem Genuine.cons {o : Mnt} {K : List Nat} {tr : List Event} {img img' : Buf} {b : Nat}
    (h : Genuine o K tr img b) {e : Event}
    (hne : touches o.fs b e = false) (himg : blockOf o.fs img' b = blockOf o.fs img b) :
    Genuine o K (e :: tr) img' b := by
  unfold Genuine at h ⊢
  rw [List.find?_cons_of_neg (by simp [hne]), himg]
  exact h

theorem superOf_shape {fs fs' : Fs} (h : shape fs' = shape fs) : superOf fs' = superOf fs := by
  funext img
  unfold superOf superOff superLen
  rw [shape_desc h, shape_base h]

theorem diskCache_congr {fs fs' : Fs} (h : shape fs' = shape fs) {img img' : Buf}
    (himg : superOf fs img' = superOf fs img) :
    diskCache fs' img' = diskCache fs img := by
  unfold diskCache sbDecode v8SbDecode v6SbDecode v7SbDecode
  rw [superOf_shape h, himg, shape_desc h]
  split <;> split <;> rfl

theorem OnDisk.congr {fs fs' : Fs} {img img' : Buf} {L K : List Nat} (h : OnDisk fs img L K)
    (hsh : shape fs' = shape fs)
    (hsuper : superOf fs img' = superOf fs img) (himg : ∀ b ∈ K, blockOf fs img' b = blockOf fs img b) :
    OnDisk fs' img' L K := by
  have hc := diskCache_congr hsh hsuper
  exact FreeList.congr h hsh himg (by rw [hc]) fun i _ => by rw [hc]

/-- After a flush the list on disk is the one in core. -/
theorem OnDisk.flushed {s : Mnt} {L K : List Nat} (hm : Mounted s) (hl : ListLayout s.fs) (h : Core s L K) :
    OnDisk s.fs (flushed s).img L K := by
  have hlt : ∀ i, i < s.fs.nfree → s.fs.free i < s.fs.fsize :=
    fun i hi => h.chain.entry_lt (Nat.zero_lt_of_lt hm.one_lt) hi
  obtain ⟨hn, hf⟩ := diskCache_flush hl s.img (s.env.clock s.ticks % 2 ^ 32) (superOf s.fs s.img) h.le hlt
  exact FreeList.congr (h.flushed hm hl) rfl (fun _ _ => rfl) hn hf

section Step

variable {o s : Mnt} {K₀ L K : List Nat} {tr : List Event} (hm : Mounted o) (hl : ListLayout o.fs)

include hm

omit hm in
/-- What only touches the core leaves what the disk holds. -/
theorem Sound.inCore {t : Mnt} (h : Sound o K₀ s tr L K) {L' K' : List Nat}
    (hsh : shape t.fs = shape s.fs) (himg : t.img = s.img)
    (hsize : t.size = s.size) (henv : t.env = s.env) (htr : t.trace = s.trace)
    (hcore : Core t L' K') (hsub : K' ⊆ K) :
    Sound o K₀ t tr L' K' where
  vol := sameVol_law.trans h.vol ⟨hsh, hsize, henv⟩
  core := hcore
  trace := htr.trans h.trace
  safe := h.safe
  genuine b hb := himg ▸ h.genuine b (hsub hb)

/-- A write into a block outside the chain. -/
theorem Sound.write (h : Sound o K₀ s tr L K) {Ld Kd : List Nat} (hdisk : OnDisk s.fs s.img Ld Kd)
    (hsub : Kd ⊆ K) {b : Nat}
    (h2 : 2 ≤ b) (hb : b ∉ K) {site : Site} (hsite : ∀ ip, site = .inode ip → Ld ⊆ L) (buf : Buf) :
    ∃ tr', Sound o K₀ (putAt site b buf s) tr' L K ∧ OnDisk s.fs (putAt site b buf s).img Ld Kd := by
  have hsh := h.vol.shape
  have hbs : s.fs.desc.bsize = o.fs.desc.bsize := by rw [shape_desc hsh]
  have hsuper : superOf s.fs (putAt site b buf s).img = superOf s.fs s.img :=
    superOf_putBlock (hbs ▸ hm.bsize) h2 _ _
  have hsame : ∀ k ∈ K, blockOf s.fs (putAt site b buf s).img k = blockOf s.fs s.img k := by
    intro k hk
    refine blockOf_putBlock_ne ?_ _ _
    rintro rfl
    exact hb hk
  have hgen : ∀ k ∈ K, Genuine o K₀ (⟨site, s.fs, s.fs.base + b * s.fs.desc.bsize, s.fs.desc.bsize,
    s.img, (putAt site b buf s).img⟩ :: tr)
      (putAt site b buf s).img k := by
    intro k hk
    have hne : k ≠ b := by
      rintro rfl
      exact hb hk
    refine (h.genuine k hk).cons (touches_ne hne ?_ hbs) ?_
    · rw [shape_base hsh, hbs]
    · rw [← shape_blockOf hsh]
      exact hsame k hk
  have hdisk' : OnDisk s.fs (putAt site b buf s).img Ld Kd :=
    OnDisk.congr hdisk rfl hsuper fun k hk => hsame k (hsub hk)
  refine ⟨_, ⟨sameVol_law.trans h.vol (putAt_sameVol ..), h.core.frame rfl rfl rfl hsame, ?_, ?_, hgen⟩, hdisk'⟩
  · show _ :: s.trace = _
    rw [h.trace]
    rfl
  · intro e older hsuf
    rcases List.suffix_cons_iff.mp hsuf with heq | hold
    · obtain ⟨rfl, rfl⟩ := List.cons.inj heq
      refine ⟨⟨Ld, Kd, OnDisk.congr hdisk' hsh.symm rfl fun _ _ => rfl, fun k hk => hgen k (hsub hk)⟩,
        fun ip hip => ?_⟩
      exact ⟨Ld, Kd, L, K, OnDisk.congr hdisk hsh.symm rfl fun _ _ => rfl, h.core, hsite ip hip⟩
    · exact h.safe e older hold

include hl

/-- A flush. -/
theorem Sound.flush (h : Sound o K₀ s tr L K) : ∃ tr', Sound o K₀ (flushed s) tr' L K ∧
    Behind (flushed s) L K := by
  have hsh := h.vol.shape
  have hm' := hm.of_sameVol h.vol
  have hl' := hl.of_shape hsh
  have hdisk : OnDisk s.fs (flushed s).img L K := OnDisk.flushed hm' hl' h.core
  have hgen : ∀ k ∈ K, Genuine o K₀ (⟨.super, s.fs, superOff s.fs, superLen s.fs, s.img,
    (flushed s).img⟩ :: tr) (flushed s).img k := by
    intro k hk
    have h2 : 2 ≤ k := two_le_of_inData hm' hl' (h.core.chain.inData k (h.core.chain.sublist.subset hk))
    refine (h.genuine k hk).cons (touches_super hm.bsize h2 ?_ ?_) ?_
    · unfold superOff
      rw [shape_desc hsh, shape_base hsh]
    · unfold superLen
      rw [shape_desc hsh]
    · rw [← shape_blockOf hsh]
      exact blockOf_putSuper hm'.bsize h2 _ _
  refine ⟨_, ⟨sameVol_law.trans h.vol (flushed_sameVol s), h.core.flushed hm' hl', ?_, ?_, hgen⟩, L, K,
    ?_, fun _ hx => hx, fun _ _ hx => hx⟩
  · show _ :: s.trace = _
    rw [h.trace]
    rfl
  · intro e older hsuf
    rcases List.suffix_cons_iff.mp hsuf with heq | hold
    · obtain ⟨rfl, rfl⟩ := List.cons.inj heq
      exact ⟨⟨L, K, OnDisk.congr hdisk hsh.symm rfl fun _ _ => rfl, hgen⟩, fun ip hip => by cases hip⟩
    · exact h.safe e older hold
  · exact OnDisk.congr hdisk rfl rfl fun _ _ => rfl

/-- A full cache dumped into a block that was not free. -/
theorem Sound.dump (h : Sound o K₀ s tr L K) (hd : Behind s L K) {b : Nat}
    (hb : InData s.fs b) (hfree : b ∉ L) :
    ∃ tr', Sound o K₀ (dumped b s) tr' (b :: L) (b :: K) ∧ Behind (dumped b s) (b :: L) (b :: K) := by
  have hsh := h.vol.shape
  have hbs : s.fs.desc.bsize = o.fs.desc.bsize := by rw [shape_desc hsh]
  have hm' := hm.of_sameVol h.vol
  have hl' := hl.of_shape hsh
  have hK : b ∉ K := fun hk => hfree (h.core.chain.sublist.subset hk)
  have hoff : s.fs.base + b * s.fs.desc.bsize = o.fs.base + b * o.fs.desc.bsize := by rw [shape_base hsh, hbs]
  have hsuper : superOf s.fs (dumped b s).img = superOf s.fs s.img :=
    superOf_putBlock hm'.bsize (two_le_of_inData hm' hl' hb) _ _
  have hsame : ∀ k ∈ K, blockOf s.fs (dumped b s).img k = blockOf s.fs s.img k := by
    intro k hk
    refine blockOf_putBlock_ne ?_ _ _
    rintro rfl
    exact hK hk
  have hgen : ∀ k ∈ b :: K,
    Genuine o K₀ (⟨.dump, s.fs, s.fs.base + b * s.fs.desc.bsize, s.fs.desc.bsize,
    s.img, (dumped b s).img⟩ :: tr)
      (dumped b s).img k := by
    intro k hk
    by_cases hkb : k = b
    · subst hkb
      unfold Genuine
      have hin : touches o.fs k ⟨.dump, s.fs, s.fs.base + k * s.fs.desc.bsize, s.fs.desc.bsize, s.img,
        (dumped k s).img⟩ = true := by
        have := hm.bsize
        have := hm'.bsize
        unfold touches
        rw [decide_eq_true_eq]
        dsimp only
        omega
      rw [List.find?_cons_of_pos hin, ← hbs, ← shape_blockOf hsh]
      exact ⟨rfl, blockOf_putBlock _ _ _ _⟩
    · have hk' : k ∈ K := (List.mem_cons.mp hk).resolve_left hkb
      refine (h.genuine k hk').cons (touches_ne hkb hoff hbs) ?_
      rw [← shape_blockOf hsh]
      exact hsame k hk'
  obtain ⟨Ld, Kd, hdisk, hsub, hclean⟩ := hd
  have hdisk' : OnDisk s.fs (dumped b s).img Ld Kd :=
    OnDisk.congr hdisk rfl hsuper fun k hk => hsame k (hsub hk)
  refine ⟨_, ⟨sameVol_law.trans h.vol ⟨rfl, rfl, rfl⟩, h.core.dumped hl' hb hfree, ?_, ?_, hgen⟩, Ld, Kd, ?_,
    fun k hk => List.mem_cons_of_mem _ (hsub hk), fun hf k hk => List.mem_cons_of_mem _ (hclean hf hk)⟩
  · show _ :: s.trace = _
    rw [h.trace]
    rfl
  · intro e older hsuf
    rcases List.suffix_cons_iff.mp hsuf with heq | hold
    · obtain ⟨rfl, rfl⟩ := List.cons.inj heq
      refine ⟨⟨Ld, Kd, OnDisk.congr hdisk' hsh.symm rfl fun _ _ => rfl, fun k hk => ?_⟩,
        fun ip hip => by cases hip⟩
      exact hgen k (List.mem_cons_of_mem _ (hsub hk))
    · exact h.safe e older hold
  · exact OnDisk.congr hdisk' rfl rfl fun _ _ => rfl

end Step

/-! ## One action at a time -/

section Action

variable {o s : Mnt} {K₀ : List Nat} (hm : Mounted o) (hl : ListLayout o.fs) (hio : ∀ k, o.env.fails k = false)
  (h : Good o K₀ s)

include hm hl hio h

theorem good_balloc : Post (v7fsBalloc s) (fun _ t => Good o K₀ t) (fun _ t => Good o K₀ t) := by
  obtain ⟨tr, L, K, hs, hd⟩ := h
  have hm' := hm.of_sameVol hs.vol
  have hl' := hl.of_shape hs.vol.shape
  refine post_v7fsBalloc hm' hl' hs.core ?_ ?_ ?_ ?_
  · rintro b L' rfl hcore
    have hbK : b ∉ K := fun hk => (List.nodup_cons.mp hs.core.nodup).1 (hcore.chain.sublist.subset hk)
    have h2 : 2 ≤ b := two_le_of_inData hm' hl' (hs.core.chain.inData b (List.mem_cons_self ..))
    obtain ⟨Ld, Kd, hdisk, hsub, -⟩ := hd
    have hs' : Sound o K₀ (popEntry s) tr L' K := hs.inCore rfl rfl rfl rfl rfl hcore fun _ hx => hx
    obtain ⟨tr', hs'', hdisk'⟩ := hs'.write hm (OnDisk.congr hdisk rfl rfl fun _ _ => rfl) hsub h2 hbK
      (fun _ (hip : Site.block = _) => by cases hip)
      zeroBuf
    refine ⟨tr', L', K, hs''.inCore rfl rfl rfl rfl rfl ?_ fun _ hx => hx, Ld, Kd, ?_,
      hsub, fun hf => by cases hf⟩
    · exact hs''.core.frame rfl rfl rfl fun _ _ => rfl
    · exact OnDisk.congr hdisk' rfl rfl fun _ _ => rfl
  · rintro b L' K' rfl rfl hcore
    have hbK : b ∉ K' := fun hk => (List.nodup_cons.mp hs.core.nodup).1 (hcore.chain.sublist.subset hk)
    have h2 : 2 ≤ b := two_le_of_inData hm' hl' (hs.core.chain.inData b (List.mem_cons_self ..))
    have hs' : Sound o K₀ (reload b (popEntry s)) tr L' K' :=
      hs.inCore rfl rfl rfl rfl rfl hcore fun _ hx => List.mem_cons_of_mem _ hx
    obtain ⟨tr', hs'', Ld, Kd, hdisk, hsub, -⟩ := hs'.flush hm hl
    obtain ⟨tr'', hsz, hdisk'⟩ :=
      hs''.write hm hdisk hsub h2 hbK (fun _ (hip : Site.block = _) => by cases hip) zeroBuf
    refine ⟨tr'', L', K', hsz.inCore rfl rfl rfl rfl rfl ?_ fun _ hx => hx, Ld, Kd, ?_,
      hsub, fun hf => by cases hf⟩
    · exact hsz.core.frame rfl rfl rfl fun _ _ => rfl
    · exact OnDisk.congr hdisk' rfl rfl fun _ _ => rfl
  · rintro rfl hcore
    obtain ⟨Ld, Kd, hdisk, hsub, hclean⟩ := hd
    have hK : K = [] := List.sublist_nil.mp hs.core.chain.sublist
    subst hK
    refine ⟨tr, [], [], hs.inCore rfl rfl rfl rfl rfl hcore fun _ hx => hx, Ld, Kd, ?_, hsub, hclean⟩
    exact OnDisk.congr hdisk rfl rfl fun _ _ => rfl
  · intro e t hr
    obtain ⟨⟨k, hk⟩, -, -, -⟩ := hr
    rw [hs.vol.env, hio] at hk
    cases hk

theorem good_bfree {b : Nat} (hb : Allocated s b) :
    Post (v7fsBfree b s) (fun _ t => Good o K₀ t) (fun _ t => Good o K₀ t) := by
  obtain ⟨tr, L, K, hs, Ld, Kd, hdisk, hsub, hclean⟩ := h
  have hm' := hm.of_sameVol hs.vol
  have hl' := hl.of_shape hs.vol.shape
  have hvol := primed_sameVol s
  have hfree : b ∉ L := hb.2 L K hs.core
  obtain ⟨hcore, -⟩ := hs.core.primed hl'
  have hs' : Sound o K₀ (primed s) tr L K := by
    refine hs.inCore hvol.shape (primed_img s) hvol.size hvol.env ?_ hcore fun _ hx => hx
    unfold primed
    split <;> rfl
  have hdirty : (primed s).fs.flDirty = s.fs.flDirty := by
    unfold primed
    split <;> rfl
  have hdisk' : OnDisk (primed s).fs (primed s).img Ld Kd := by
    rw [primed_img]
    exact OnDisk.congr hdisk hvol.shape rfl fun _ _ => rfl
  refine post_v7fsBfree hm' hl' hs.core hb.1 hfree ?_ ?_ ?_
  · intro hcore'
    refine ⟨tr, b :: L, K, hs'.inCore rfl rfl rfl rfl rfl hcore' fun _ hx => hx, Ld, Kd,
      ?_, hsub, fun hf k hk => ?_⟩
    · exact OnDisk.congr hdisk' rfl rfl fun _ _ => rfl
    · exact List.mem_cons_of_mem _ (hclean (hdirty ▸ hf) hk)
  · intro _
    obtain ⟨tr', hs'', hd''⟩ := hs'.dump hm hl ⟨Ld, Kd, hdisk', hsub, fun hf => hclean (hdirty ▸ hf)⟩
      ((shape_inData hvol.shape).mpr hb.1) hfree
    exact ⟨tr', _, _, hs'', hd''⟩
  · intro hf _
    rw [hs.vol.env, hio] at hf
    cases hf

theorem good_superWrite :
    Post (v7fsSuperWrite s) (fun _ t => Good o K₀ t ∧ SameVol o t ∧ t.fs.flDirty = false)
    (fun _ t => Good o K₀ t) := by
  obtain ⟨tr, L, K, hs, -⟩ := h
  have hm' := hm.of_sameVol hs.vol
  apply hm'.post_superWrite
  · intro _ _
    obtain ⟨tr', hs', hd'⟩ := hs.flush hm hl
    exact ⟨⟨tr', L, K, hs', hd'⟩, hs'.vol, rfl⟩
  · intro i j e hf
    rw [hs.vol.env, hio, hio] at hf
    simp at hf

omit hl in
/-- A write into a block the in-core list does not reach. -/
theorem good_write {site : Site} {b : Nat} (h2 : 2 ≤ b) (hlt : b < o.fs.fsize) (hb : ∀ L K, Core s L K → b ∉ K)
    (hsite : ∀ ip, site = .inode ip → s.fs.flDirty = false) (buf : Buf) :
    Post (v7fsWriteBlock site b buf s) (fun _ t => Good o K₀ t) (fun _ t => Good o K₀ t) := by
  obtain ⟨tr, L, K, hs, Ld, Kd, hdisk, hsub, hclean⟩ := h
  have hm' := hm.of_sameVol hs.vol
  refine hm'.post_write (by rw [shape_fsize hs.vol.shape]; exact hlt) ?_ ?_
  · intro _
    obtain ⟨tr', hs', hdisk'⟩ :=
      hs.write hm hdisk hsub h2 (hb L K hs.core) (fun ip hip => hclean (hsite ip hip)) buf
    exact ⟨tr', L, K, hs', Ld, Kd, hdisk', hsub, hclean⟩
  · intro hf _
    rw [hs.vol.env, hio] at hf
    cases hf

theorem good_writeInode (ino : Nat) (ip : Inode) :
    Post (v7fsWriteInode ino ip s) (fun _ t => Good o K₀ t) (fun _ t => Good o K₀ t) := by
  have hvol : SameVol o s := by
    obtain ⟨_, _, _, hs, -⟩ := h
    exact hs.vol
  have hflush : Post (flushIfDirty v7fsSuperWrite s)
      (fun _ t => Good o K₀ t ∧ SameVol o t ∧ t.fs.flDirty = false) (fun _ t => Good o K₀ t) := by
    refine post_bindFs (post_ite (fun _ => good_superWrite hm hl hio h) fun hf => ?_)
    exact ⟨h, hvol, Bool.eq_false_iff.mpr hf⟩
  refine post_bindFs (post_ite (fun _ => h) fun _ => post_bind (hflush.mono ?_ fun _ _ ht => ht))
  intro _ t hr
  obtain ⟨ht, hvol', hclean⟩ := hr
  have hm' := hm.of_sameVol hvol'
  refine post_ite (fun _ => ht) fun hin => ?_
  have hlow : v7Itod s.fs ino < v7DataFirst s.fs := by
    unfold ilistEnd v6DataStart at hin
    unfold v7DataFirst
    split at hin <;> simp_all
  have hdata : v7DataFirst o.fs < o.fs.fsize := by
    have := hm.start_lt
    rwa [dataStart_eq hl] at this
  rw [shape_dataFirst hvol.shape] at hlow
  have hlt : v7Itod s.fs ino < o.fs.fsize := by omega
  refine post_bind (post_failAs (hm'.post_read (by rw [shape_fsize hvol'.shape]; exact hlt) ?_ ?_))
  · intro _
    have ht' : Good o K₀ (ticked t) := by
      obtain ⟨tr, L, K, hs, Ld, Kd, hdisk, hsub, hcl⟩ := ht
      refine ⟨tr, L, K, hs.inCore rfl rfl rfl rfl rfl ?_ fun _ hx => hx, Ld, Kd, hdisk, hsub, hcl⟩
      exact hs.core.frame rfl rfl rfl fun _ _ => rfl
    refine good_write hm hio ht' (Nat.le_add_right 2 _) hlt (fun L K hc hk => ?_) (fun _ _ => hclean) _
    have hin' := hc.chain.inData _ (hc.chain.sublist.subset hk)
    have hge := hin'.1
    rw [ticked_fs, shape_dataFirst hvol'.shape] at hge
    exact absurd hlow (Nat.not_lt.mpr hge)
  · intro hf _
    rw [hvol'.env, hio] at hf
    cases hf

theorem good_act {a : Act} (ha : a.Legal s) : Good o K₀ (final a.run s) := by
  apply Post.final
  cases a with
  | balloc => exact post_bind ((good_balloc hm hl hio h).mono (fun _ _ ht => ht) fun _ _ ht => ht)
  | bfree b => exact good_bfree hm hl hio h ha
  | write b buf =>
    have hvol : SameVol o s := by
      obtain ⟨_, _, _, hs, -⟩ := h
      exact hs.vol
    have hin : InData o.fs b := (shape_inData hvol.shape).mp ha.1
    refine good_write hm hio h (two_le_of_inData hm hl hin) hin.2 (fun L K hc hk => ?_)
      (fun _ hip => by cases hip) buf
    exact ha.2 L K hc (hc.chain.sublist.subset hk)
  | writeInode ino ip => exact good_writeInode hm hl hio h ino ip
  | superWrite => exact (good_superWrite hm hl hio h).mono (fun _ _ ht => ht.1) fun _ _ ht => ht

end Action

/-! ## Whole runs -/

theorem good_run {o s : Mnt} {L K : List Nat} (hm : Mounted o) (hl : ListLayout o.fs)
    (hio : ∀ k, o.env.fails k = false)
    (hcore : Core o L K) (hdisk : OnDisk o.fs o.img L K) (hrun : Run o s) : Good o K s := by
  induction hrun with
  | start =>
    refine ⟨[], L, K, ⟨sameVol_law.refl o, hcore, rfl, fun e older hsuf => ?_, fun b hb => ⟨hb, rfl⟩⟩,
      L, K, hdisk,
      fun _ hx => hx, fun _ _ hx => hx⟩
    exact absurd (List.suffix_nil.mp hsuf) (List.cons_ne_nil _ _)
  | next a _ ha ih => exact good_act hm hl hio ih ha

/-- From a mount whose two free lists agree, whatever is allocated, freed, written and flushed:
    after every write the list on disk is whole and built of dumps alone, and an inode goes out
    only when every block the disk calls free is free in core. -/
theorem free_list_whole_after_every_write {o s : Mnt} {L K : List Nat} (hm : Mounted o) (hl : ListLayout o.fs)
    (hio : ∀ k, o.env.fails k = false) (hcore : Core o L K) (hdisk : OnDisk o.fs o.img L K) (hrun : Run o s)
    (e : Event) (older : List Event) (he : e :: older ++ o.trace <:+ s.trace) : SafeAt o K e older := by
  obtain ⟨tr, L', K', hs, -⟩ := good_run hm hl hio hcore hdisk hrun
  rw [hs.trace] at he
  obtain ⟨newer, hnew⟩ := he
  rw [← List.append_assoc] at hnew
  exact hs.safe e older ⟨newer, List.append_cancel_right hnew⟩

/-- A five-block V7 volume with block 3 free, just flushed. -/
def fiveBlocks : Mnt where
  fs := { desc := descV7, isize := 3, fsize := 5, imgsize := 2560, nfree := 2
          free := fun i => if i = 1 then 3 else 0 }
  img := putSuper { desc := descV7 } zeroBuf (sbEncode
    { desc := descV7, isize := 3, fsize := 5, imgsize := 2560, nfree := 2
      free := fun i => if i = 1 then 3 else 0 } 0 zeroBuf)
  size := 2560

theorem an_allocation_then_an_inode_are_three_safe_writes :
    (final (Act.writeInode 2 {}).run (final Act.balloc.run fiveBlocks)).trace.length = 3 ∧
    ∀ e older, e :: older <:+ (final (Act.writeInode 2 {}).run (final Act.balloc.run fiveBlocks)).trace →
      SafeAt fiveBlocks [] e older := by
  have hl : ListLayout fiveBlocks.fs := by
    constructor <;> first | decide | exact ⟨by decide, by decide, by decide⟩
  have hcore : Core fiveBlocks [3] [] :=
    ⟨.entry (n := 0) ⟨by decide, by decide⟩ (.sentinel rfl), by decide, by decide⟩
  have hdisk : OnDisk fiveBlocks.fs fiveBlocks.img [3] [] := by
    obtain ⟨hn, hf⟩ := diskCache_flush hl zeroBuf 0 zeroBuf (by decide) (by decide)
    exact FreeList.congr hcore rfl (fun _ hk => by cases hk) hn hf
  refine ⟨by decide +kernel, fun e older he => ?_⟩
  refine free_list_whole_after_every_write ?_ hl (fun _ => rfl) hcore hdisk
    (.next (.writeInode 2 {}) (.next .balloc .start trivial) trivial) e older ?_
  · exact ⟨fun _ _ => rfl, by decide, rfl, by decide, by decide, by decide,
      rfl, by decide, by decide, by decide⟩
  · rw [show fiveBlocks.trace = [] from rfl, List.append_nil]
    exact he

end Filsys.Alloc
