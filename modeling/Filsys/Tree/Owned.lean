/-
  Filsys.Tree.Owned — which block belongs to which place of which file.

  `own b = some (n, path)` says that block `b` is held for the place `path` of inode `n`:
  a slot, or an entry below one. The invariant `Owned` ties that map to the volume: free
  blocks have no holder, an indirect block's entries are held for the places below its
  own, and the slots of every live file name blocks held for those slots. A block has one
  holder at most, so whatever two paths reach is the same path (`Owned.reaches`): nothing
  reachable is free, and nothing is reachable twice.
-/

import Filsys.Alloc.Space

namespace Filsys.Tree

open Filsys.Lib Filsys.Engine Filsys.Alloc

/-! ## Places -/

/-- The holder of each block: an inode and the slot and entries that lead to the block. -/
abbrev Own := Nat → Option (Nat × List Nat)

/-- Levels below a slot, in the layout a growing file ends up with. -/
def cdepth (d : Desc) (slot : Nat) : Nat := depth d d.ilargMask slot

/-- The place of slot `slot`. A small file of the editions that promote has its blocks where
    the promoted file will have them, below the first slot. -/
def croot (d : Desc) (mode slot : Nat) : List Nat :=
  if d.ilargMask ≠ 0 ∧ has mode d.ilargMask = false then [0, slot] else [slot]

/-- What a format's block map needs. -/
structure MapLayout (fs : Fs) : Prop extends RecordLayout fs.desc where
  addr : fs.fsize ≤ 256 ^ addrLen fs.desc
  entry : fs.fsize ≤ 256 ^ entryLen fs.desc
  mask : fs.desc.ilargMask = 0 ∨ fs.desc.ilargMask = 0o10000
  promotes : fs.desc.ilargMask ≠ 0 →
    0 < fs.desc.largeSingle ∧ fs.desc.ndaddr = fs.desc.niaddr ∧ fs.desc.ndaddr ≤ fs.desc.nindir ∧
      fs.desc.largeSingle + fs.desc.largeDouble = fs.desc.niaddr
  wide : fs.desc.nindir < 2 ^ 32

/-- The slots of an edition that promotes. -/
structure Promotes (d : Desc) : Prop where
  single : 0 < d.largeSingle
  most : d.largeSingle ≤ d.niaddr
  direct : d.ndaddr = d.niaddr
  fit : d.ndaddr ≤ d.nindir
  wide : d.nindir < 2 ^ 32

theorem MapLayout.promoting {fs : Fs} (h : MapLayout fs) (h0 : fs.desc.ilargMask ≠ 0) : Promotes fs.desc := by
  obtain ⟨h1, h2, h3, h4⟩ := h.promotes h0
  exact ⟨h1, by omega, h2, h3, h.wide⟩

theorem MapLayout.of_shape {fs fs' : Fs} (h : MapLayout fs) (hsh : shape fs' = shape fs) : MapLayout fs' := by
  have hd := shape_desc hsh
  obtain ⟨h1, h2, h3, h4, h5, h6⟩ := h
  refine ⟨hd ▸ h1, ?_, ?_, hd ▸ h4, hd ▸ h5, hd ▸ h6⟩
  · rw [hd, shape_fsize hsh]
    exact h2
  · rw [hd, shape_fsize hsh]
    exact h3

/-! ## The invariant -/

/-- A record of that mode holds blocks: it is live and no device. -/
def HoldsBlocks (d : Desc) (n mode : Nat) : Prop :=
  inodeLive d (mode % 65536) = true ∧ modeIsDevice d { ino := n, mode := mode % 65536 } = false

/-- The slots of `ip` name blocks held for them. -/
def View (d : Desc) (own : Own) (n : Nat) (ip : Inode) : Prop :=
  ∀ slot, slot < d.niaddr → ip.addr slot ≠ 0 → own (ip.addr slot) = some (n, croot d ip.mode slot)

/-- The block is held for a place that has entries below it. -/
def Indirect (d : Desc) (own : Own) (b : Nat) : Prop :=
  ∃ n slot idxs, own b = some (n, slot :: idxs) ∧ idxs.length < cdepth d slot

structure Owned (s : Mnt) (own : Own) : Prop where
  mounted : Mounted s
  layout : MapLayout s.fs
  space : SpaceOk s
  free : ∀ b, IsFree s b → own b = none
  data : ∀ b x, own b = some x → DataBlock s.fs b
  tree : ∀ b n slot idxs, own b = some (n, slot :: idxs) → idxs.length < cdepth s.fs.desc slot →
    ∀ i, i < s.fs.desc.nindir → entryOf s.fs s.img b i ≠ 0 →
    own (entryOf s.fs s.img b i) = some (n, slot :: (idxs ++ [i]))
  disk : ∀ n, ValidIno s.fs n → HoldsBlocks s.fs.desc n (recordOf s.fs s.img n).mode →
    View s.fs.desc own n (recordOf s.fs s.img n)

/-! ## Entries -/

section Entries

variable {d : Desc} (hd : d.ops ≠ .pdp7)

include hd

theorem indGet_eq (buf : Buf) (i : Nat) : indGet d buf i = num (daddrSig d) buf (entryLen d * i) := by
  have hw : (if d.daddrWid = 2 then 2 else 4) = entryLen d := by
    unfold entryLen daddrSig
    split <;> simp
  unfold indGet
  rw [hw]
  split
  · exact absurd ‹_› hd
  · rfl

theorem indPut_eq (buf : Buf) (i v : Nat) : indPut d buf i v = putNum (daddrSig d) buf (entryLen d * i) v := by
  have hw : (if d.daddrWid = 2 then 2 else 4) = entryLen d := by
    unfold entryLen daddrSig
    split <;> simp
  unfold indPut
  rw [hw]
  split
  · exact absurd ‹_› hd
  · rfl

theorem indGet_indPut (buf : Buf) (i v j : Nat) : indGet d (indPut d buf i v) j = if j = i then v %
    256 ^ entryLen d else indGet d buf j := by
  rw [indGet_eq hd, indPut_eq hd]
  split
  · rename_i hj
    rw [hj]
    exact num_putNum (perm_daddrSig d) _ _ _
  · rename_i hj
    rw [indGet_eq hd]
    apply num_putNum_apart
    have := block_disjoint 0 (entryLen d) hj
    unfold entryLen at *
    rw [Nat.mul_comm _ j, Nat.mul_comm _ i]
    omega

theorem indGet_zeroBuf (i : Nat) : indGet d zeroBuf i = 0 := by
  rw [indGet_eq hd]
  have hz : ∀ (ds : List Nat) (o : Nat), num ds zeroBuf o = 0 := by
    intro ds
    induction ds with
    | nil => intro o; rfl
    | cons x ds ih => intro o; simp [num, zeroBuf, ih]
  exact hz _ _

theorem indGet_window (hl : RecordLayout d) (buf : Buf) {i : Nat} (hi : i < d.nindir) :
    indGet d (window buf 0 d.bsize) i = indGet d buf i := by
  rw [indGet_eq hd, indGet_eq hd, num_window, Nat.zero_add]
  have hle : entryLen d * (i + 1) ≤ entryLen d * d.nindir := Nat.mul_le_mul_left _ hi
  have := hl.entries
  rw [Nat.mul_succ] at hle
  unfold entryLen at *
  omega

end Entries

theorem entryOf_congr {fs : Fs} {img img' : Buf} {b : Nat} (h : blockOf fs img' b = blockOf fs img b)
    (i : Nat) :
    entryOf fs img' b i = entryOf fs img b i := by
  unfold entryOf
  rw [h]

/-- Below a hole there are holes. -/
theorem descend_zero (fs : Fs) (img : Buf) (idxs : List Nat) : descend fs img 0 idxs = 0 := by
  cases idxs with
  | nil => rfl
  | cons i idxs => exact if_pos rfl

namespace Owned

variable {s t : Mnt} {own : Own} (h : Owned s own)

include h

theorem two_le {b : Nat} {x : Nat × List Nat} (hb : own b = some x) : 2 ≤ b := (h.data b x hb).two_le h.mounted

theorem not_free {b : Nat} {x : Nat × List Nat} (hb : own b = some x) : ¬ IsFree s b := by
  intro hf
  rw [h.free b hf] at hb
  cases hb

/-- A change that keeps the i-list and the indirect blocks and frees no held block. -/
theorem frame (hvol : SameVol s t) (hsp : SpaceOk t) (hfree : ∀ b, IsFree t b → own b = none)
    (hlist : ∀ b, 2 ≤ b → b < opsDataStart s.fs → blockOf s.fs t.img b = blockOf s.fs s.img b)
    (htree : ∀ b, Indirect s.fs.desc own b → blockOf s.fs t.img b = blockOf s.fs s.img b) : Owned t own := by
  have hd := shape_desc hvol.shape
  refine ⟨h.mounted.of_sameVol hvol, h.layout.of_shape hvol.shape, hsp, hfree, ?_, ?_, ?_⟩
  · intro b x hb
    exact (shape_dataBlock hvol.shape).mpr (h.data b x hb)
  · intro b n slot idxs hb hlen i hi he
    rw [hd] at hlen hi
    have hsame : entryOf t.fs t.img b i = entryOf s.fs s.img b i := by
      rw [shape_entryOf hvol.shape]
      exact entryOf_congr (htree b ⟨n, slot, idxs, hb, hlen⟩) i
    rw [hsame] at he ⊢
    exact h.tree b n slot idxs hb hlen i hi he
  · intro n hn hholds
    have hn' := (shape_validIno hvol.shape).mp hn
    have hbd := h.mounted.itod_bounds hn'
    have hrec : recordOf t.fs t.img n = recordOf s.fs s.img n := by
      rw [shape_recordOf hvol.shape]
      exact recordOf_congr (hlist _ hbd.1 hbd.2)
    rw [hrec, hd] at hholds ⊢
    exact h.disk n hn' hholds

/-- The block an entry list leads to from a held block is held for the place below it. -/
theorem descend {n slot : Nat} {pre idxs : List Nat} {b₀ b : Nat} (hb₀ : own b₀ = some (n, slot :: pre))
    (hlen : pre.length + idxs.length ≤ cdepth s.fs.desc slot) (hidx : ∀ i ∈ idxs, i < s.fs.desc.nindir)
    (hleads : Engine.descend s.fs s.img b₀ idxs = b) (hb : b ≠ 0) :
    own b = some (n, slot :: (pre ++ idxs)) := by
  induction idxs generalizing pre b₀ with
  | nil =>
    obtain rfl : b₀ = b := hleads
    rw [List.append_nil]
    exact hb₀
  | cons i idxs ih =>
    rw [List.length_cons] at hlen
    unfold Engine.descend at hleads
    split at hleads
    · exact absurd hleads.symm hb
    · have hi := hidx i (List.mem_cons_self ..)
      have hne : entryOf s.fs s.img b₀ i ≠ 0 := by
        intro h0
        rw [h0, descend_zero] at hleads
        exact hb hleads.symm
      have hnext := h.tree b₀ n slot pre hb₀ (by omega) i hi hne
      have := ih hnext (by rw [List.length_append, List.length_singleton]; omega)
        (fun j hj => hidx j (List.mem_cons_of_mem _ hj)) hleads
      rwa [List.append_assoc, List.singleton_append] at this

end Owned

/-- A promoted file and a file of an edition without promotion have their slots where they are. -/
theorem depth_eq_cdepth {d : Desc} {mode : Nat} (h : d.ilargMask = 0 ∨ has mode d.ilargMask = true)
    (slot : Nat) :
    depth d mode slot = cdepth d slot := by
  unfold cdepth depth slotLevel
  by_cases h0 : d.ilargMask = 0
  · simp [h0]
  · have hm := h.resolve_left h0
    have hself : has d.ilargMask d.ilargMask = true := by
      unfold has
      simpa using h0
    simp [h0, hm, hself]

/-- What a path of a file reaches is held for that path. -/
theorem Owned.reaches {s : Mnt} {own : Own} (h : Owned s own) {n : Nat} {ip : Inode}
    (hv : View s.fs.desc own n ip) {slot : Nat}
    {idxs : List Nat} {b : Nat} (hr : Reaches s.fs s.img ip slot idxs b) :
    own b = some (n, croot s.fs.desc ip.mode slot ++ idxs) := by
  have hslot : ip.addr slot ≠ 0 := by
    intro h0
    have hl := hr.leads
    rw [h0, descend_zero] at hl
    exact hr.ne_zero hl.symm
  have hown := hv slot hr.slot_lt hslot
  by_cases hsmall : s.fs.desc.ilargMask ≠ 0 ∧ has ip.mode s.fs.desc.ilargMask = false
  · -- a small file's slots are all direct
    have hdeep := hr.deep
    have hnd : slot < s.fs.desc.ndaddr := by
      have := hr.slot_lt
      rw [← (h.layout.promotes hsmall.1).2.1] at this
      exact this
    have h0 : depth s.fs.desc ip.mode slot = 0 := by
      unfold depth slotLevel
      rw [if_neg (by simp [hsmall.2]), if_pos hnd]
    have hnil : idxs = [] := List.eq_nil_of_length_eq_zero (by omega)
    subst hnil
    obtain rfl : ip.addr slot = b := hr.leads
    rw [List.append_nil]
    exact hown
  · have hroot : croot s.fs.desc ip.mode slot = [slot] := if_neg hsmall
    have hlarge : s.fs.desc.ilargMask = 0 ∨ has ip.mode s.fs.desc.ilargMask = true := by
      by_cases h0 : s.fs.desc.ilargMask = 0
      · exact .inl h0
      · exact .inr (by simpa using fun hf => hsmall ⟨h0, hf⟩)
    rw [hroot] at hown ⊢
    have hlen : ([] : List Nat).length + idxs.length ≤ cdepth s.fs.desc slot := by
      rw [List.length_nil, Nat.zero_add, ← depth_eq_cdepth hlarge]
      exact hr.deep
    exact h.descend hown hlen hr.idx_lt hr.leads hr.ne_zero

end Filsys.Tree
