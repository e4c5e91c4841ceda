/-
  Filsys.Tree.Step — the ways the engine changes a volume.

  The engine changes the volume and the holders of its blocks in a handful of ways only.
  `Step` lists them, each with what the engine has made sure of before it, and `Step.owned`
  says that each keeps the invariant. A routine is understood once its run is a `Path` of
  such steps: whatever every step keeps, the routine keeps, also where it fails half way.

  A `Scope` says which inodes a run may change and below which places it may hang a new
  block into an indirect block.
-/

import Filsys.Tree.Owned

namespace Filsys.Tree

open Filsys.Lib Filsys.Engine Filsys.Alloc

/-- What a run may do. -/
structure Scope where
  /-- The inodes whose record or blocks it may change. -/
  touch : Nat → Prop
  /-- The places of indirect blocks it may hang new blocks into. -/
  link : Nat → List Nat → Prop

/-- Nothing on disk and nothing about free space has changed. -/
structure Idle (s t : Mnt) : Prop extends SameVol s t where
  space : spaceOf t.fs = spaceOf s.fs
  img : t.img = s.img
  trace : t.trace = s.trace
  dirty : s.fs.flDirty = true → t.fs.flDirty = true

theorem idle_law : Law Idle where
  refl s := ⟨sameVol_law.refl s, rfl, rfl, rfl, id⟩
  trans h h' := ⟨sameVol_law.trans h.toSameVol h'.toSameVol, h'.space.trans h.space,
    h'.img.trans h.img, h'.trace.trans h.trace,
    h'.dirty ∘ h.dirty⟩

theorem idle_ticked (s : Mnt) : Idle s (ticked s) := ⟨ticked_sameVol s, rfl, rfl, rfl, id⟩

/-- An allocated block no one holds. -/
structure Loose (s : Mnt) (own : Own) (b : Nat) : Prop where
  unheld : own b = none
  taken : ¬ IsFree s b
  data : DataBlock s.fs b

/-- Block `b` can be held for the place `p` of inode `n`: what its entries name is held for
    the places below. -/
def Fits (s : Mnt) (own : Own) (b n : Nat) (p : List Nat) : Prop :=
  ∀ slot idxs, p = slot :: idxs → idxs.length < cdepth s.fs.desc slot → ∀ i, i < s.fs.desc.nindir →
    entryOf s.fs s.img b i ≠ 0 → own (entryOf s.fs s.img b i) = some (n, slot :: (idxs ++ [i]))

/-- Block `b` becomes the one held for `p`. -/
def hold (own : Own) (b n : Nat) (p : List Nat) : Own := fun x => if x = b then some (n, p) else own x

inductive Step (S : Scope) : Mnt → Own → Mnt → Own → Prop
  | idle {s t : Mnt} {own : Own} : Idle s t → Step S s own t own
  /-- A block is handed out. -/
  | take {s t : Mnt} {own : Own} {b : Nat} : balloc s = .ok b t → Step S s own t own
  | full {s t : Mnt} {own : Own} {e : Errno} : balloc s = .error e t → Step S s own t own
  /-- A block goes back. -/
  | give {s t : Mnt} {own : Own} {b : Nat} : Loose s own b → bfree b s = .ok () t → Step S s own t own
  /-- A block no one holds yet is written. -/
  | fill {s : Mnt} {own : Own} {b : Nat} (buf : Buf) : Loose s own b → Step S s own (putAt .block b buf s) own
  /-- File data. -/
  | data {s : Mnt} {own : Own} {b n slot : Nat} {idxs : List Nat} (buf : Buf) :
    S.touch n → own b = some (n, slot :: idxs) →
      idxs.length = cdepth s.fs.desc slot → Step S s own (putAt .block b buf s) own
  /-- A new block is hung into an indirect block. -/
  | link {s : Mnt} {own : Own} {b nb n slot i : Nat} {idxs : List Nat} : S.touch n → S.link n (slot :: idxs) →
      own b = some (n, slot :: idxs) → idxs.length < cdepth s.fs.desc slot → i < s.fs.desc.nindir →
        entryOf s.fs s.img b i = 0 →
      Loose s own nb → blockOf s.fs s.img nb = zeroBuf →
      Step S s own (putAt .block b (indPut s.fs.desc (blockOf s.fs s.img b) i nb) s)
      (hold own nb n (slot :: (idxs ++ [i])))
  /-- Entries of an indirect block are cleared. -/
  | unlink {s : Mnt} {own : Own} {b n slot : Nat} {idxs : List Nat} (buf : Buf) :
    S.touch n → own b = some (n, slot :: idxs) →
      idxs.length < cdepth s.fs.desc slot →
      (∀ i, i < s.fs.desc.nindir → indGet s.fs.desc buf i = entryOf s.fs s.img b i ∨
        indGet s.fs.desc buf i = 0) →
      Step S s own (putAt .block b buf s) own
  /-- A block is held from now on. -/
  | hold {s : Mnt} {own : Own} {b n : Nat} {p : List Nat} :
    S.touch n → Loose s own b → Fits s own b n p → Step S s own s (hold own b n p)
  /-- Blocks are held no more. -/
  | drop {s : Mnt} {own own' : Own} : (∀ b x, own' b = some x → own b = some x) →
    (∀ b n p, own b = some (n, p) → own' b = none → S.touch n) →
      Owned s own' → Step S s own s own'
  /-- A record goes out. -/
  | inode {s t : Mnt} {own : Own} {n : Nat} {ip : Inode} :
    S.touch n → (HoldsBlocks s.fs.desc n ip.mode → View s.fs.desc own n ip) →
      writeInode n ip s = .ok () t → Step S s own t own
  | refused {s t : Mnt} {own : Own} {n : Nat} {ip : Inode} {e : Errno} :
    writeInode n ip s = .error e t → Step S s own t own

/-- A run of steps. -/
inductive Path (S : Scope) (s : Mnt) (own : Own) : Mnt → Own → Prop
  | refl : Path S s own s own
  | snoc {t u : Mnt} {own' own'' : Own} : Path S s own t own' → Step S t own' u own'' → Path S s own u own''

theorem Path.one {S : Scope} {s t : Mnt} {own own' : Own} (h : Step S s own t own') :
    Path S s own t own' := .snoc .refl h

theorem Path.trans {S : Scope} {s t u : Mnt} {own own' own'' : Own} (h : Path S s own t own')
    (h' : Path S t own' u own'') :
    Path S s own u own'' := by
  induction h' with
  | refl => exact h
  | snoc _ hstep ih => exact .snoc ih hstep

/-- Freedom to do more. -/
theorem Step.widen {S S' : Scope} {s t : Mnt} {own own' : Own} (ht : ∀ n, S.touch n → S'.touch n)
    (hl : ∀ n p, S.link n p → S'.link n p)
    (h : Step S s own t own') : Step S' s own t own' := by
  cases h with
  | idle h => exact .idle h
  | take h => exact .take h
  | full h => exact .full h
  | give h h' => exact .give h h'
  | fill buf h => exact .fill buf h
  | data buf hn h h' => exact .data buf (ht _ hn) h h'
  | link hn hp h1 h2 h3 h4 h5 h6 => exact .link (ht _ hn) (hl _ _ hp) h1 h2 h3 h4 h5 h6
  | unlink buf hn h h' h'' => exact .unlink buf (ht _ hn) h h' h''
  | hold hn h h' => exact .hold (ht _ hn) h h'
  | drop h h' h'' => exact .drop h (fun b n p hb hb' => ht _ (h' b n p hb hb')) h''
  | inode hn h h' => exact .inode (ht _ hn) h h'
  | refused h => exact .refused h

theorem Path.widen {S S' : Scope} {s t : Mnt} {own own' : Own} (ht : ∀ n, S.touch n → S'.touch n)
    (hl : ∀ n p, S.link n p → S'.link n p)
    (h : Path S s own t own') : Path S' s own t own' := by
  induction h with
  | refl => exact .refl
  | snoc _ hstep ih => exact .snoc ih (hstep.widen ht hl)

/-! ## Each step keeps the invariant -/

section Owned

variable {s t : Mnt} {own : Own} (h : Owned s own)

include h

/-- Free space after a write to a block that is not free. -/
theorem space_putAt (site : Site) {b : Nat} (hb : ¬ IsFree s b) (buf : Buf) :
    SpaceOk (putAt site b buf s) ∧ ∀ x, IsFree (putAt site b buf s) x ↔ IsFree s x := by
  refine space_congr h.mounted h.space (putAt_sameVol ..) rfl fun x hx => blockOf_putBlock_ne ?_ _ _
  rintro rfl
  exact hb hx

/-- Neither the i-list nor an indirect block has changed where only a block of another kind has. -/
theorem owned_putAt (site : Site) {b : Nat} (hdata : DataBlock s.fs b) (hnf : ¬ IsFree s b)
    (hni : ¬ Indirect s.fs.desc own b) (buf : Buf) :
    Owned (putAt site b buf s) own := by
  obtain ⟨hok, hfree⟩ := space_putAt h site hnf buf
  refine h.frame (putAt_sameVol ..) hok (fun x hx => h.free x ((hfree x).mp hx)) ?_ ?_
  · intro x _ hlt
    refine blockOf_putBlock_ne ?_ _ _
    have := hdata.1
    omega
  · intro x hx
    refine blockOf_putBlock_ne ?_ _ _
    rintro rfl
    exact hni hx

omit h in
theorem not_indirect_of_none {d : Desc} {b : Nat} (hb : own b = none) : ¬ Indirect d own b := by
  intro h
  obtain ⟨n, slot, idxs, hown, -⟩ := h
  rw [hb] at hown
  cases hown

omit h in
theorem not_indirect_of_leaf {d : Desc} {b n slot : Nat} {idxs : List Nat} (hb : own b = some (n, slot :: idxs))
    (hlen : idxs.length = cdepth d slot) : ¬ Indirect d own b := by
  intro h
  obtain ⟨n', slot', idxs', hown, hlt⟩ := h
  rw [hb] at hown
  cases hown
  omega

theorem owned_idle (hi : Idle s t) : Owned t own := by
  obtain ⟨hok, hfree⟩ := space_congr h.mounted h.space hi.toSameVol hi.space fun _ _ => by rw [hi.img]
  exact h.frame hi.toSameVol hok (fun x hx => h.free x ((hfree x).mp hx)) (fun _ _ _ => by rw [hi.img])
    fun _ _ => by
    rw [hi.img]

theorem owned_kept (hk : Kept s t) : Owned t own := by
  obtain ⟨hok, hfree⟩ := space_congr h.mounted h.space hk.toSameVol hk.space fun x hx =>
    hk.blocks x ((h.space.data hx).two_le h.mounted)
  refine h.frame hk.toSameVol hok (fun x hx => h.free x ((hfree x).mp hx)) (fun x h2 _ => hk.blocks x h2) ?_
  intro x hr
  obtain ⟨n, slot, idxs, hown, -⟩ := hr
  exact hk.blocks x (h.two_le hown)

theorem owned_took {b : Nat} (ht : Took s b t) : Owned t own := by
  have hb := h.free b ht.was
  have hd := h.space.data ht.was
  refine h.frame ht.toSameVol ht.ok (fun x hx => h.free x ((ht.free x).mp hx).1)
    (fun x h2 hlt => ht.blocks x h2 ?_) ?_
  · have := hd.1
    omega
  · intro x hr
    obtain ⟨n, slot, idxs, hown, -⟩ := hr
    refine ht.blocks x (h.two_le hown) ?_
    rintro rfl
    rw [hb] at hown
    cases hown

theorem owned_lost (ht : Lost s t) : Owned t own := by
  refine h.frame ht.toSameVol ht.ok (fun x hx => h.free x (ht.free x hx)) (fun x h2 _ => ht.blocks x h2) ?_
  intro x hr
  obtain ⟨n, slot, idxs, hown, -⟩ := hr
  exact ht.blocks x (h.two_le hown)

theorem owned_gave {b : Nat} (hb : own b = none) (hd : DataBlock s.fs b) (ht : Gave s b t) : Owned t own := by
  refine h.frame ht.toSameVol ht.ok ?_ (fun x h2 hlt => ht.blocks x h2 ?_) ?_
  · intro x hx
    rcases ht.free x hx with hx' | rfl
    · exact h.free x hx'
    · exact hb
  · have := hd.1
    omega
  · intro x hr
    obtain ⟨n, slot, idxs, hown, -⟩ := hr
    refine ht.blocks x (h.two_le hown) ?_
    rintro rfl
    rw [hb] at hown
    cases hown

/-- Holding one more block. -/
theorem owned_hold {b n : Nat} {p : List Nat} (hl : Loose s own b) (hf : Fits s own b n p) :
    Owned s (hold own b n p) := by
  have hne : ∀ x y, own x = some y → x ≠ b := by
    rintro x y hx rfl
    rw [hl.unheld] at hx
    cases hx
  have hkeep : ∀ x y, own x = some y → hold own b n p x = some y := by
    intro x y hx
    rw [hold, if_neg (hne x y hx)]
    exact hx
  refine ⟨h.mounted, h.layout, h.space, fun x hx => ?_, fun x y hx => ?_, ?_, fun k hk hh slot hs ha =>
    hkeep _ _ (h.disk k hk hh slot hs ha)⟩
  · have hxb : x ≠ b := by
      rintro rfl
      exact hl.taken hx
    rw [hold, if_neg hxb]
    exact h.free x hx
  · unfold hold at hx
    split at hx
    · rename_i hxb
      rw [hxb]
      exact hl.data
    · exact h.data x y hx
  · intro x k slot idxs hx hlen i hi he
    unfold hold at hx
    split at hx
    · rename_i hxb
      obtain ⟨rfl, hp⟩ := Prod.mk.inj (Option.some.inj hx)
      subst hxb
      exact hkeep _ _ (hf slot idxs hp hlen i hi he)
    · exact hkeep _ _ (h.tree x k slot idxs hx hlen i hi he)

/-- Rewriting an indirect block whose new entries are old ones, cleared ones, or blocks held
    for their places. -/
theorem owned_entries (site : Site) {b n slot : Nat} {idxs : List Nat}
    (hb : own b = some (n, slot :: idxs)) (buf : Buf)
    (hbuf : ∀ i, i < s.fs.desc.nindir → indGet s.fs.desc buf i = entryOf s.fs s.img b i ∨
      indGet s.fs.desc buf i = 0 ∨
      own (indGet s.fs.desc buf i) = some (n, slot :: (idxs ++ [i]))) : Owned (putAt site b buf s) own := by
  have hdata := h.data b _ hb
  have hpdp := h.mounted.notPdp7
  obtain ⟨hok, hfree⟩ := space_putAt h site (h.not_free hb) buf
  refine ⟨h.mounted.of_sameVol (putAt_sameVol ..), h.layout.of_shape rfl, hok, fun x hx =>
    h.free x ((hfree x).mp hx),
    fun x y hx => h.data x y hx, fun x k sl ids hx hlen i hi he => ?_, fun k hk hh => ?_⟩
  · show own (entryOf s.fs (putAt site b buf s).img x i) = _
    replace he : entryOf s.fs (putAt site b buf s).img x i ≠ 0 := he
    by_cases hxb : x = b
    · subst hxb
      rw [hb] at hx
      obtain ⟨rfl, hp⟩ := Prod.mk.inj (Option.some.inj hx)
      obtain ⟨rfl, rfl⟩ := List.cons.inj hp
      have hnew : entryOf s.fs (putAt site x buf s).img x i = indGet s.fs.desc buf i := by
        show indGet s.fs.desc (blockOf s.fs (putBlock s.fs s.img x buf) x) i = _
        rw [blockOf_putBlock, indGet_window hpdp h.layout.toRecordLayout _ hi]
      rw [hnew] at he ⊢
      rcases hbuf i hi with hsame | hzero | hheld
      · rw [hsame] at he ⊢
        exact h.tree x n slot idxs hb hlen i hi he
      · exact absurd hzero he
      · exact hheld
    · have hsame : entryOf s.fs (putAt site b buf s).img x i = entryOf s.fs s.img x i :=
        entryOf_congr (blockOf_putBlock_ne hxb _ _) i
      rw [hsame] at he ⊢
      exact h.tree x k sl ids hx hlen i hi he
  · have hrec : recordOf s.fs (putAt site b buf s).img k = recordOf s.fs s.img k := by
      refine recordOf_congr (blockOf_putBlock_ne ?_ _ _)
      have := (h.mounted.itod_bounds hk).2
      have := hdata.1
      omega
    replace hh : HoldsBlocks s.fs.desc k (recordOf s.fs (putAt site b buf s).img k).mode := hh
    show View s.fs.desc own k (recordOf s.fs (putAt site b buf s).img k)
    rw [hrec] at hh ⊢
    exact h.disk k hk hh

end Owned

/-! ## Records -/

theorem mod_land_mask {d : Desc} (hmask : d.ilargMask = 0 ∨ d.ilargMask = 0o10000) (m : Nat) :
    has (m % 65536) d.ilargMask = has m d.ilargMask := by
  rcases hmask with h | h
  · rw [h]
    simp [has]
  · rw [h]
    unfold has
    congr 1
    refine Nat.eq_of_testBit_eq fun i => ?_
    rw [Nat.testBit_and, Nat.testBit_and, show (65536 : Nat) = 2 ^ 16 from rfl, Nat.testBit_mod_two_pow]
    by_cases hi : i < 16
    · simp [hi]
    · have hz : Nat.testBit 0o10000 i = false :=
        Nat.testBit_lt_two_pow (Nat.lt_of_lt_of_le (by decide)
        (Nat.pow_le_pow_right (by decide) (Nat.le_of_not_lt hi)))
      rw [hz]
      simp

theorem croot_mod {d : Desc} (hmask : d.ilargMask = 0 ∨ d.ilargMask = 0o10000) (m slot : Nat) :
    croot d (m % 65536) slot = croot d m slot := by
  unfold croot
  rw [mod_land_mask hmask]

/-- The slots of a record that has gone out are those of the copy. -/
theorem view_stored {s : Mnt} {own : Own} (h : Owned s own) {n : Nat} {ip r : Inode}
    (hs : Stored s.fs.desc n ip r)
    (hv : View s.fs.desc own n ip) : View s.fs.desc own n r := by
  intro slot hslot ha
  have haddr := hs.addr slot hslot
  have hne : ip.addr slot ≠ 0 := by
    intro h0
    rw [h0, Nat.zero_mod] at haddr
    exact ha haddr
  have hown := hv slot hslot hne
  have hlt : ip.addr slot < 256 ^ addrLen s.fs.desc :=
    Nat.lt_of_lt_of_le ((h.data _ _ hown).lt_fsize h.mounted) h.layout.addr
  rw [haddr, Nat.mod_eq_of_lt hlt, hs.mode, croot_mod h.layout.mask]
  exact hown

theorem owned_putInode {s : Mnt} {own : Own} (h : Owned s own) {n : Nat} (hn : ValidIno s.fs n) {ip : Inode}
    (hv : HoldsBlocks s.fs.desc n ip.mode → View s.fs.desc own n ip) : Owned (putInode n ip s) own := by
  have hbd := h.mounted.itod_bounds hn
  have hl := h.layout.toRecordLayout
  have hvol : SameVol s (putInode n ip s) := ⟨rfl, rfl, rfl⟩
  have hblk : ∀ b, b ≠ itod s.fs n → blockOf s.fs (putInode n ip s).img b = blockOf s.fs s.img b :=
    fun b hb => blockOf_putBlock_ne hb _ _
  have hout : ∀ b, DataBlock s.fs b → b ≠ itod s.fs n := by
    intro b hb
    have := hb.1
    omega
  obtain ⟨hok, hfree⟩ := space_congr h.mounted h.space hvol rfl fun x hx => hblk x (hout x (h.space.data hx))
  refine ⟨h.mounted.of_sameVol hvol, h.layout.of_shape rfl, hok, fun x hx => h.free x ((hfree x).mp hx),
    fun x y hx => h.data x y hx, fun x k sl ids hx hlen i hi he => ?_, fun k hk hh => ?_⟩
  · show own (entryOf s.fs (putInode n ip s).img x i) = _
    replace he : entryOf s.fs (putInode n ip s).img x i ≠ 0 := he
    have hsame : entryOf s.fs (putInode n ip s).img x i = entryOf s.fs s.img x i :=
      entryOf_congr (hblk x (hout x (h.data x _ hx))) i
    rw [hsame] at he ⊢
    exact h.tree x k sl ids hx hlen i hi he
  · by_cases hkn : k = n
    · subst hkn
      have hst := recordOf_putInode h.mounted hl (n := k) ip
      refine view_stored h hst (hv ?_)
      have hm := hst.mode
      unfold HoldsBlocks at hh ⊢
      rw [hm, Nat.mod_mod] at hh
      exact hh
    · have hrec := recordOf_putInode_ne h.mounted hl ip hn.1 (show k ≠ 0 from hk.1) hkn
      rw [hrec] at hh ⊢
      exact h.disk k hk hh

/-- Every step keeps the invariant. -/
theorem Step.owned {S : Scope} {s t : Mnt} {own own' : Own} (hstep : Step S s own t own')
    (h : Owned s own) : Owned t own' := by
  cases hstep with
  | idle hi => exact owned_idle h hi
  | take hb =>
    have hspec := balloc_spec h.mounted h.space
    rw [hb] at hspec
    exact owned_took h hspec
  | full hb =>
    have hspec := balloc_spec h.mounted h.space
    rw [hb] at hspec
    exact owned_lost h hspec
  | give hl hb =>
    have hspec := bfree_spec h.mounted h.space hl.data hl.taken
    rw [hb] at hspec
    exact owned_gave h hl.unheld hl.data hspec
  | fill buf hl => exact owned_putAt h .block hl.data hl.taken (not_indirect_of_none hl.unheld) buf
  | data buf _ hb hlen =>
    exact owned_putAt h .block (h.data _ _ hb) (h.not_free hb) (not_indirect_of_leaf hb hlen) buf
  | @link _ b nb n slot i idxs _ _ hb hlen hi hzero hl hnew =>
    have hpdp := h.mounted.notPdp7
    have hfits : Fits s own nb n (slot :: (idxs ++ [i])) := by
      intro sl ids _ _ j hj he
      refine absurd ?_ he
      unfold entryOf
      rw [hnew]
      exact indGet_zeroBuf hpdp j
    have hh := owned_hold h hl hfits
    have hne : b ≠ nb := by
      rintro rfl
      rw [hl.unheld] at hb
      cases hb
    have hb' : Tree.hold own nb n (slot :: (idxs ++ [i])) b = some (n, slot :: idxs) := by
      unfold Tree.hold
      rw [if_neg hne]
      exact hb
    refine owned_entries hh .block hb' _ fun j hj => ?_
    rw [indGet_indPut hpdp]
    split
    · rename_i hji
      have hlt : nb < 256 ^ entryLen s.fs.desc := Nat.lt_of_lt_of_le (hl.data.lt_fsize h.mounted) h.layout.entry
      rw [Nat.mod_eq_of_lt hlt, hji]
      exact .inr (.inr (if_pos rfl))
    · exact .inl rfl
  | unlink buf _ hb _ hbuf => exact owned_entries h .block hb buf fun i hi => (hbuf i hi).imp_right .inl
  | hold _ hl hf => exact owned_hold h hl hf
  | drop _ _ hown => exact hown
  | @inode _ _ n ip _ hv hw =>
    have hspec : Post (writeInode n ip s) (fun _ u => Owned u own) fun _ _ => True := by
      refine h.mounted.post_writeInode (fun u hu hn => ?_) (fun _ _ _ _ => trivial) fun _ _ _ _ => trivial
      have hd := shape_desc hu.shape
      exact owned_putInode (owned_kept h hu.toKept) ((shape_validIno hu.shape).mpr hn) (by rw [hd]; exact hv)
    rw [hw] at hspec
    exact hspec
  | @refused _ _ n ip e hw =>
    have hspec : Post (writeInode n ip s) (fun _ _ => True) fun _ u => Owned u own := by
      refine h.mounted.post_writeInode (fun _ _ _ => trivial) (fun _ u _ hu => ?_)
        fun _ u _ hu => owned_kept h hu
      rcases hu with rfl | hu
      · exact h
      · exact owned_kept h hu.toKept
    rw [hw] at hspec
    exact hspec

theorem Path.owned {S : Scope} {s t : Mnt} {own own' : Own} (hp : Path S s own t own')
    (h : Owned s own) : Owned t own' := by
  induction hp with
  | refl => exact h
  | snoc _ hstep ih => exact hstep.owned ih

end Filsys.Tree
