/-
  Filsys.Alloc.Freelist — the free-list allocator, step by step (alloc_freelist.c).

  `Core s L K` says that the in-core list of the mount `s` is a well-formed chain that
  hands out `L` through the chain blocks `K`. `post_v7fsBalloc` and `post_v7fsBfree`
  run the two allocator routines on such a mount: each says which states they can
  leave, a failing transfer included.
-/

import Filsys.Alloc.Chain

namespace Filsys.Alloc

open Filsys.Lib Filsys.Engine

/-- The in-core free list is the well-formed chain `L`, through `K`. -/
abbrev Core (s : Mnt) (L K : List Nat) : Prop := FreeList s.fs s.img (s.fs.nfree, s.fs.free) L K

theorem Core.frame {s t : Mnt} {L K : List Nat} (h : Core s L K) (hsh : shape t.fs = shape s.fs)
    (hn : t.fs.nfree = s.fs.nfree) (hf : t.fs.free = s.fs.free)
    (himg : ∀ b ∈ K, blockOf s.fs t.img b = blockOf s.fs s.img b) : Core t L K :=
  FreeList.congr h hsh himg hn fun i _ => congrFun hf i

/-! ## Taking a block -/

/-- One entry fewer. -/
def popEntry (s : Mnt) : Mnt := { s with fs := { s.fs with nfree := s.fs.nfree - 1 } }

/-- The cache of chain block `b`, read in place of the exhausted one. -/
def reload (b : Nat) (s : Mnt) : Mnt :=
  { ticked s with fs := { s.fs with nfree := (chainOf s.fs s.img b).1, free := (chainOf s.fs s.img b).2 } }

/-- The block is counted out. -/
def taken (s : Mnt) : Mnt := { s with fs := { s.fs with tfree := s.fs.tfree - 1, flDirty := true } }

theorem popEntry_sameVol (s : Mnt) : SameVol s (popEntry s) := ⟨rfl, rfl, rfl⟩

theorem reload_sameVol (b : Nat) (s : Mnt) : SameVol s (reload b s) := ⟨rfl, rfl, rfl⟩

theorem taken_sameVol (s : Mnt) : SameVol s (taken s) := ⟨rfl, rfl, rfl⟩

/-- The states an allocation passes through after a reload. -/
theorem reloaded_sameVol (b : Nat) (s : Mnt) : SameVol s (flushed (reload b (popEntry s))) :=
  sameVol_law.trans (popEntry_sameVol s) (sameVol_law.trans (reload_sameVol b (popEntry s)) (flushed_sameVol _))

theorem zeroed_sameVol (b : Nat) (s : Mnt) : SameVol s (taken (putAt .block b zeroBuf s)) :=
  sameVol_law.trans (putAt_sameVol .block b zeroBuf s) (taken_sameVol _)

/-- A state a failing transfer can leave: the list has lost blocks at its top, and no
    block has changed. -/
structure Faulted (s : Mnt) (L : List Nat) (t : Mnt) : Prop where
  fails : ∃ k, s.env.fails k = true
  core : ∃ L' K', Core t L' K' ∧ L' <:+ L
  vol : SameVol s t
  blocks : ∀ b, 2 ≤ b → blockOf s.fs t.img b = blockOf s.fs s.img b

section Balloc

variable {s : Mnt} {L K : List Nat} (hm : Mounted s) (hl : ListLayout s.fs) (hc : Core s L K)

include hm hl

omit hm in
theorem dataStart_eq : opsDataStart s.fs = v7DataFirst s.fs := by
  unfold opsDataStart
  split
  · exact absurd ‹_› hl.notV1
  · exact absurd ‹_› hl.notPdp7
  · rfl

theorem two_le_of_inData {b : Nat} (hb : InData s.fs b) : 2 ≤ b := by
  have := hm.first
  rw [dataStart_eq hl] at this
  exact Nat.le_trans this hb.1

omit hl in
theorem post_handOut {b : Nat} (hb : b < s.fs.fsize) {Q : Nat → Mnt → Prop} {E : Errno → Mnt → Prop}
    (hok : Q b (taken (putAt .block b zeroBuf s))) (herr : s.env.fails s.ios = true → ∀ e, E e (ticked s)) :
    Post ((do
      failAs .eio (v7fsWriteBlock .block b zeroBuf)
      modFs fun fs => { fs with tfree := fs.tfree - 1, flDirty := true }
      return b : M Nat) s) Q E :=
  post_bind (post_failAs (hm.post_write hb (fun _ => hok) fun hf _ => herr hf _))

/-- A flush writes the superblock alone. -/
theorem Core.flushed (hc : Core s L K) : Core (flushed s) L K := by
  refine hc.frame rfl rfl rfl fun b hb => blockOf_putSuper hm.bsize ?_ _ _
  exact two_le_of_inData hm hl (hc.chain.inData b (hc.chain.sublist.subset hb))

include hc

/-- An allocation, with the two kinds of fault apart: the read of the chain block at the bottom, which
    leaves an empty cache, and every later transfer, which leaves the rest of the list. -/
theorem post_v7fsBalloc_each {Q : Nat → Mnt → Prop} {E : Errno → Mnt → Prop}
    (hentry : ∀ b L', L = b :: L' → s.fs.nfree ≠ 1 → Core (popEntry s) L' K →
      Q b (taken (putAt .block b zeroBuf (popEntry s))))
    (hbottom : ∀ b L' K', L = b :: L' → K = b :: K' → s.env.fails s.ios = false →
      Core (reload b (popEntry s)) L' K' →
      Q b (taken (putAt .block b zeroBuf (flushed (reload b (popEntry s))))))
    (hfull : L = [] → Core (popEntry s) [] [] → E .enospc (popEntry s))
    (hcut : ∀ e t, s.fs.nfree = 1 → s.env.fails s.ios = true → L ≠ [] → Core t [] [] → SameVol s t →
      (∀ b, 2 ≤ b → blockOf s.fs t.img b = blockOf s.fs s.img b) → E e t)
    (hlate : ∀ e t b L' K', L = b :: L' → (s.fs.nfree = 1 → s.env.fails s.ios = false) →
      (∃ k, s.env.fails k = true) → Core t L' K' →
      SameVol s t → (∀ b, 2 ≤ b → blockOf s.fs t.img b = blockOf s.fs s.img b) → E e t) :
      Post (v7fsBalloc s) Q E := by
  have hm' : Mounted (popEntry s) := hm.of_sameVol ⟨rfl, rfl, rfl⟩
  have hpos : 1 ≤ v7DataFirst s.fs := by
    have := hm.first
    rw [dataStart_eq hl] at this
    omega
  rcases hc.chain.shapes with ⟨hn, rfl, rfl⟩ | ⟨hn, h0, rfl, rfl⟩ | ⟨hn, L', K', rfl, rfl, hb, hle,
    ht⟩ | ⟨m, L', hn, rfl, hb, ht⟩
  · have hsame : popEntry s = s := by
      unfold popEntry
      rw [hn, show 0 - 1 = s.fs.nfree from hn.symm]
    refine post_bindFs (post_ite (fun _ => ?_) fun h => absurd hn h)
    rw [hsame] at hfull
    exact hfull rfl hc
  · have hcore : Core (popEntry s) [] [] := by
      refine ⟨?_, by show s.fs.nfree - 1 ≤ _; rw [hn]; exact Nat.zero_le _, List.nodup_nil⟩
      show Chain _ _ (s.fs.nfree - 1, s.fs.free) [] []
      rw [hn]
      exact .empty
    refine post_bindFs (post_ite (fun h => absurd h (by omega)) fun _ =>
      post_bindMod (post_ite (fun _ => ?_) fun h => ?_))
    · exact hfull rfl hcore
    · exact absurd (by rw [hn]; exact h0) h
  · -- the bottom of the stack: its cache is read and the superblock flushed first
    have hb0 : s.fs.free 0 ≠ 0 := by
      have := hb.1
      omega
    have hlt : s.fs.free 0 < s.fs.fsize := hb.2
    have htop : s.fs.free (s.fs.nfree - 1) = s.fs.free 0 := by rw [hn]
    have hcore : Core (reload (s.fs.free 0) (popEntry s)) L' K' :=
      ⟨ht.congr rfl (fun _ _ => rfl) rfl fun _ _ => rfl, hle, (List.nodup_cons.mp hc.nodup).2⟩
    have hm'' : Mounted (reload (s.fs.free 0) (popEntry s)) := hm.of_sameVol ⟨rfl, rfl, rfl⟩
    refine post_bindFs (post_ite (fun h => absurd h (by omega)) fun _ => post_bindMod ?_)
    simp only [htop]
    refine post_ite (fun h => absurd h hb0) fun _ => post_ite (fun h => ?_) fun _ => ?_
    · exact absurd h (by have := hb.1; omega)
    refine post_bind (post_onlyIf (fun _ => ?_) fun h => absurd (by omega) h)
    refine post_bind (post_failAs (hm'.post_read hlt ?_ ?_))
    · intro hread
      refine post_bindMod (post_failAs (hm''.post_superWrite ?_ ?_))
      · intro _ _
        refine post_handOut (hm''.of_sameVol (flushed_sameVol _)) hlt ?_ ?_
        · exact hbottom _ L' K' rfl rfl hread hcore
        · intro hf _
          refine hlate _ _ _ L' K' rfl (fun _ => hread) ⟨_, hf⟩ ?_ ⟨rfl, rfl, rfl⟩ ?_
          · refine (hcore.flushed ?_ ?_).frame rfl rfl rfl fun _ _ => rfl
            · exact hm''
            · exact hl.of_shape rfl
          · intro b hb
            exact blockOf_putSuper hm.bsize hb _ _
      · intro i j _ hf
        refine hlate _ _ _ L' K' rfl (fun _ => hread) ?_ ?_ ⟨rfl, rfl, rfl⟩ fun _ _ => rfl
        · exact hf.elim (fun h => ⟨_, h⟩) fun h => ⟨_, h⟩
        · exact hcore.frame rfl rfl rfl fun _ _ => rfl
    · intro hf _
      refine hcut _ _ hn hf (List.cons_ne_nil _ _) ?_ ⟨rfl, rfl, rfl⟩ fun _ _ => rfl
      refine ⟨?_, ?_, List.nodup_nil⟩
      · show Chain _ _ (s.fs.nfree - 1, s.fs.free) [] []
        rw [hn]
        exact .empty
      · show s.fs.nfree - 1 ≤ _
        rw [hn]
        exact Nat.zero_le _
  · have hn' : s.fs.nfree - 1 = m + 1 := by omega
    have hb0 : s.fs.free (m + 1) ≠ 0 := by
      have := hb.1
      omega
    have hcore : Core (popEntry s) L' K := by
      refine ⟨ht.congr rfl (fun _ _ => rfl) hn' fun _ _ => rfl, ?_, (List.nodup_cons.mp hc.nodup).2⟩
      exact Nat.le_trans (Nat.sub_le _ _) hc.le
    refine post_bindFs (post_ite (fun h => absurd h (by omega)) fun _ => post_bindMod ?_)
    simp only [show s.fs.free (s.fs.nfree - 1) = s.fs.free (m + 1) from congrArg _ hn']
    refine post_ite (fun h => absurd h hb0) fun _ => post_ite (fun h => ?_) fun _ => ?_
    · exact absurd h (by have := hb.1; have := hb.2; omega)
    refine post_bind (post_onlyIf (fun h => absurd h (by omega)) fun _ => ?_)
    have hn1 : s.fs.nfree ≠ 1 := by omega
    refine post_handOut hm' hb.2 (hentry _ L' rfl hn1 hcore) fun hf _ => ?_
    refine hlate _ _ _ L' K rfl (fun h => absurd h hn1) ⟨_, hf⟩ ?_ ⟨rfl, rfl, rfl⟩ fun _ _ => rfl
    exact hcore.frame rfl rfl rfl fun _ _ => rfl

theorem post_v7fsBalloc {Q : Nat → Mnt → Prop} {E : Errno → Mnt → Prop}
    (hentry : ∀ b L', L = b :: L' → Core (popEntry s) L' K → Q b (taken (putAt .block b zeroBuf (popEntry s))))
    (hbottom : ∀ b L' K', L = b :: L' → K = b :: K' → Core (reload b (popEntry s)) L' K' →
      Q b (taken (putAt .block b zeroBuf (flushed (reload b (popEntry s))))))
    (hfull : L = [] → Core (popEntry s) [] [] → E .enospc (popEntry s))
    (hfault : ∀ e t, Faulted s L t → E e t) :
    Post (v7fsBalloc s) Q E := by
  refine post_v7fsBalloc_each hm hl hc (fun b L' hL _ => hentry b L' hL) (fun b L' K' hL hK _ =>
    hbottom b L' K' hL hK) hfull ?_ ?_
  · intro e t _ hf _ hcore hvol hblocks
    exact hfault e t ⟨⟨_, hf⟩, ⟨[], [], hcore, List.nil_suffix⟩, hvol, hblocks⟩
  · rintro e t b L' K' rfl _ hf hcore hvol hblocks
    exact hfault e t ⟨hf, ⟨L', K', hcore, List.suffix_cons _ _⟩, hvol, hblocks⟩

end Balloc

/-! ## Freeing a block -/

/-- No transfer fails from here on. -/
def Onward (s : Mnt) : Prop := ∀ k, s.ios ≤ k → s.env.fails k = false

theorem onward_of_quiet {s : Mnt} (hq : ∀ k, s.env.fails k = false) : Onward s := fun k _ => hq k

theorem Onward.next {s t : Mnt} (h : Onward s) (henv : t.env = s.env) (hios : s.ios ≤ t.ios) : Onward t := by
  intro k hk
  rw [henv]
  exact h k (Nat.le_trans hios hk)

/-- An empty cache gets the 0 the last one ends with. -/
def primed (s : Mnt) : Mnt :=
  if s.fs.nfree = 0 then
    { s with fs := { s.fs with nfree := 1, free := fun i => if i = 0 then 0 else s.fs.free i } }
  else s

/-- `b` on top of the cache. -/
def pushed (b : Nat) (s : Mnt) : Mnt :=
  { s with fs := { s.fs with
      free := fun i => if i = s.fs.nfree then b else s.fs.free i
      nfree := s.fs.nfree + 1
      tfree := (s.fs.tfree + 1) % 2 ^ 32 } }

/-- The full cache dumped into `b`, which becomes the only entry of a new one. -/
def dumped (b : Nat) (s : Mnt) : Mnt :=
  let t := putAt .dump b (dumpBuf s.fs.desc s.fs.nfree s.fs.free) s
  pushed b { t with fs := { t.fs with nfree := 0 } }

section Bfree

variable {s : Mnt} {L K : List Nat} (hm : Mounted s) (hl : ListLayout s.fs) (hc : Core s L K)

theorem primed_sameVol (s : Mnt) : SameVol s (primed s) := by
  unfold primed
  split <;> exact ⟨rfl, rfl, rfl⟩

theorem primed_img (s : Mnt) : (primed s).img = s.img := by
  unfold primed
  split <;> rfl

theorem primed_ios (s : Mnt) : (primed s).ios = s.ios := by
  unfold primed
  split <;> rfl

include hl hc

theorem Core.primed : Core (primed s) L K ∧ (Alloc.primed s).fs.nfree ≠ 0 := by
  unfold Alloc.primed
  split
  · rename_i hn
    rcases hc.chain.shapes with ⟨_, rfl, rfl⟩ | ⟨h1, _⟩ | ⟨h1, _⟩ | ⟨m, _, h1, _⟩
    · exact ⟨⟨.sentinel (by simp), hl.pos, List.nodup_nil⟩, Nat.one_ne_zero⟩
    · omega
    · omega
    · omega
  · exact ⟨hc, ‹_›⟩

omit hl in
theorem Core.pushed {b : Nat} (hb : InData s.fs b) (hfree : b ∉ L) (hn : s.fs.nfree ≠ 0)
    (hlt : s.fs.nfree < s.fs.desc.nicfree) :
    Core (pushed b s) (b :: L) K := by
  refine ⟨?_, hlt, List.nodup_cons.mpr ⟨hfree, hc.nodup⟩⟩
  exact (hc.chain.push hn hb).congr rfl (fun _ _ => rfl) rfl fun _ _ => rfl

theorem Core.dumped {b : Nat} (hb : InData s.fs b) (hfree : b ∉ L) : Core (dumped b s) (b :: L) (b :: K) := by
  have hK : b ∉ K := fun h => hfree (hc.chain.sublist.subset h)
  refine ⟨?_, hl.pos, List.nodup_cons.mpr ⟨hfree, hc.nodup⟩⟩
  exact (hc.chain.dump hl hc.le (fun i hi => hc.chain.entry_lt (Nat.zero_lt_of_lt hb.2) hi) hb hK
    s.fs.free).congr rfl (fun _ _ => rfl) rfl fun _ _ => rfl

include hm

/-- A block of the data area that is not free goes back on the list, on the cache or as the
    block a full cache is dumped into; a dump that fails leaks it. -/
theorem post_v7fsBfree {b : Nat} (hb : InData s.fs b) (hfree : b ∉ L)
    {Q : Unit → Mnt → Prop} {E : Errno → Mnt → Prop}
    (hpush : Core (pushed b (primed s)) (b :: L) K → Q () (pushed b (primed s)))
    (hdump : Core (dumped b (primed s)) (b :: L) (b :: K) → Q () (dumped b (primed s)))
    (hleak : s.env.fails s.ios = true → Core (ticked (primed s)) L K → Q () (ticked (primed s))) :
    Post (v7fsBfree b s) Q E := by
  have hvol := primed_sameVol s
  have hm' := hm.of_sameVol hvol
  have hb' : InData (primed s).fs b := (shape_inData hvol.shape).mpr hb
  obtain ⟨hc', hpos⟩ := hc.primed hl
  have hl' := hl.of_shape hvol.shape
  have hios : (primed s).env.fails (primed s).ios = s.env.fails s.ios := by unfold primed; split <;> rfl
  have hnext : Post (dumpThenPush b (primed s)) Q E := by
    refine post_bindFs (post_ite (fun _ => ?_) fun h => hpush (hc'.pushed hb' hfree hpos (by omega)))
    refine post_bind (post_attempt (hm'.post_write hb'.2 ?_ ?_))
    · intro _
      exact hdump (hc'.dumped hl' hb' hfree)
    · intro hf _
      exact hleak (hios ▸ hf) (hc'.frame rfl rfl rfl fun _ _ => rfl)
  refine post_bindFs (post_ite (fun h => ?_) fun _ => post_bind (post_onlyIf (fun hn => ?_) fun hn => ?_))
  · exact absurd h (by have := hb.1; have := hb.2; omega)
  · rw [primed, if_pos hn] at hnext
    exact hnext
  · rw [primed, if_neg hn] at hnext
    exact hnext

end Bfree

end Filsys.Alloc
