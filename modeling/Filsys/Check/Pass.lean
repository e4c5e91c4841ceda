/-
  Filsys.Check.Pass — the checker's first pass as a function of the image.

  With no transfer failing, marking every block the inodes reference is a function of
  what the image says (`passInodes`, `runs_markInodes`): which blocks an indirect block
  names (`entryAt`), what an inode's record holds (`recAt`), and which of them lie in
  the image at all. It holds of every edition, byte- or word-addressed.

  The pass marks what it reads and reads only inodes and what it has marked, so an
  image that differs elsewhere is marked the same (`passInodes_alike`). A pass that
  counts no problem has read every inode (`passInodes_clean`).
-/

import Filsys.Check.Sound
import Filsys.Engine.Peek
import Filsys.Engine.Record
import Filsys.Engine.Words

namespace Filsys.Check

open Filsys.Lib Filsys.Engine

/-! ## What the image says -/

/-- Entry `i` of the indirect block `b`. -/
def entryAt (fs : Fs) (img : Buf) (b i : Nat) : Nat :=
  if fs.desc.ops = .pdp7 then wordsOf fs img b i else entryOf fs img b i

def entriesAt (fs : Fs) (img : Buf) (b : Nat) : List Nat := (List.range fs.desc.nindir).map (entryAt fs img b)

/-- The record of inode `n`, the odd byte of a PDP-7 size aside. -/
def recAt (fs : Fs) (img : Buf) (n : Nat) : Inode :=
  if fs.desc.ops = .pdp7 then p7DecodeInode n fun i => wordsOf fs img (p7Itod n) (p7Itoo n + i)
  else recordOf fs img n

/-- Transfers `i` up to `j` go through. -/
def Quiet (s : Mnt) (i j : Nat) : Prop := ∀ k, i ≤ k → k < j → s.env.fails k = false

/-- Which blocks and which inodes' records can be read, where no transfer fails. -/
structure Reads (s : Mnt) (rb ri : Nat → Bool) : Prop where
  solo : Solo s
  block : ∀ b k, b < opsDataEnd s.fs → Post (readBlock b { s with ios := k })
    (fun buf _ => rb b = true ∧ entries s.fs.desc buf = entriesAt s.fs s.img b)
      (fun _ t => Quiet s k t.ios → rb b = false)
  inode : ∀ n k, 1 ≤ n → n ≤ opsMaxino s.fs → Post (readInode n { s with ios := k })
    (fun ip _ => ri n = true ∧ ip.mode = (recAt s.fs s.img n).mode ∧ ip.addr = (recAt s.fs s.img n).addr)
    (fun _ t => Quiet s k t.ios → ri n = false)

/-! ## Marking, purely -/

/-- `filsys_mark_block`. -/
def markOne (fs : Fs) (b : Nat) (c : Chk) : Bool × Chk :=
  if b = 0 then (true, c)
  else if b < opsDataStart fs ∨ opsDataEnd fs ≤ b then
    if fs.desc.badino ≠ 0 ∧ c.ino = fs.desc.badino ∧ 2 ≤ b ∧ b < opsDataStart fs then (true, c)
    else (false, { c.err with badBlocks := inc32 c.badBlocks })
  else if getBit c.bmap (b - opsDataStart fs) then (false, { c.err with dupBlocks := inc32 c.dupBlocks })
  else (true, { c with bmap := putBit c.bmap (b - opsDataStart fs) true, usedBlocks := inc32 c.usedBlocks })

def markAll (f : Nat → Chk → Chk) : List Nat → Chk → Chk
  | [], c => c
  | nb :: rest, c => markAll f rest (if nb ≠ 0 then f nb c else c)

section Pass

variable (fs : Fs) (img : Buf) (rb ri : Nat → Bool)

/-- An indirect block and what its entries lead to. -/
def passWith (child : Nat → Chk → Chk) (b : Nat) (c : Chk) : Chk :=
  if b = 0 then c
  else if (markOne fs b c).1 then
    if rb b then markAll child (entriesAt fs img b) (markOne fs b c).2 else (markOne fs b c).2.err
  else (markOne fs b c).2

def passTree : Nat → Nat → Chk → Chk
  | 0 => passWith fs img rb fun nb c => (markOne fs nb c).2
  | l + 1 => passWith fs img rb (passTree l)

def passSlot (level : Option Nat) (b : Nat) (c : Chk) : Chk :=
  match level with
  | none => (markOne fs b c).2
  | some l => passTree fs img rb l b c

def passSlots (ip : Inode) : Nat → Nat → Chk → Chk
  | 0, _, c => c
  | todo + 1, i, c =>
    passSlots ip todo (i + 1) (if ip.addr i ≠ 0 then passSlot fs img rb (slotLevel fs.desc ip.mode i)
      (ip.addr i) c else c)

def passInode (n : Nat) (c : Chk) : Chk :=
  let st := inodeState fs.desc n (recAt fs img n).mode
  if st = .unalloc then c
  else
    let c := { c with usedInodes := inc32 c.usedInodes }
    if st = .unknown then c.err
    else if st = .ichr ∨ st = .iblk then c
    else passSlots fs img rb (recAt fs img n) fs.desc.niaddr 0 { c with ino := n }

def passInodes : Nat → Nat → Chk → Chk
  | 0, _, c => c
  | todo + 1, n, c => passInodes todo (n + 1) (if ri n then passInode fs img rb n c else c.err)

end Pass

/-! ## The pass runs so -/

/-- On the mount `s`, `x` reads at most, and where its reads go through changes the
    report by `f`. -/
def Runs {α : Type} (s : Mnt) (x : MC α) (f : Chk → Chk) : Prop :=
  ∀ k c, Post (x ({ s with ios := k }, c))
    (fun _ t => ∃ k', k ≤ k' ∧ t.1 = { s with ios := k' } ∧ (Quiet s k k' → t.2 = f c)) (fun _ _ => False)

section Runs

variable {s : Mnt}

theorem Quiet.left {i j k : Nat} (h : Quiet s i k) (hjk : j ≤ k) : Quiet s i j :=
  fun n h1 h2 => h n h1 (by omega)
theorem Quiet.right {i j k : Nat} (h : Quiet s i k) (hij : i ≤ j) : Quiet s j k :=
  fun n h1 h2 => h n (by omega) h2

theorem runs_pure {α : Type} {a : α} : Runs s (pure a : MC α) id :=
  fun k _ => ⟨k, Nat.le_refl k, rfl, fun _ => rfl⟩

theorem runs_bind {α β : Type} {x : MC α} {f : α → MC β} {g g' : Chk → Chk} (hx : Runs s x g)
    (hf : ∀ a, Runs s (f a) g') :
    Runs s (x >>= f) fun c => g' (g c) := by
  intro k c
  refine post_bind ((hx k c).mono ?_ fun _ _ h => h)
  intro a r hr
  obtain ⟨t, c'⟩ := r
  obtain ⟨k', hle, rfl, hc⟩ := hr
  refine (hf a k' c').mono ?_ fun _ _ h => h
  intro b t hr
  obtain ⟨k'', hle', ht, hc'⟩ := hr
  refine ⟨k'', Nat.le_trans hle hle', ht, fun hq => ?_⟩
  have hmid : c' = g c := hc (hq.left hle')
  rw [hc' (hq.right hle), hmid]

theorem runs_onlyIf {p : Prop} [Decidable p] {x : MC Unit} {g : Chk → Chk} (hx : Runs s x g) :
    Runs s (onlyIf p x) fun c => if p then g c else c := by
  intro k c
  refine post_onlyIf (fun hp => ?_) fun hp => ⟨k, Nat.le_refl k, rfl, fun _ => (if_neg hp).symm⟩
  refine (hx k c).mono ?_ fun _ _ h => h
  intro _ t hr
  obtain ⟨k', hle, ht, hc⟩ := hr
  exact ⟨k', hle, ht, fun hq => (hc hq).trans (if_pos hp).symm⟩

theorem filsysMarkBlock_eq (b k : Nat) (c : Chk) :
    filsysMarkBlock b ({ s with ios := k }, c) = .ok (markOne s.fs b c).1 ({ s with ios := k },
      (markOne s.fs b c).2) := by
  show (if b = 0 then pure true
    else if b < opsDataStart s.fs ∨ opsDataEnd s.fs ≤ b then
      if s.fs.desc.badino ≠ 0 ∧ c.ino = s.fs.desc.badino ∧ 2 ≤ b ∧ b < opsDataStart s.fs then pure true
      else modChk (fun c => { c.err with badBlocks := inc32 c.badBlocks }) >>= fun _ => pure false
    else if getBit c.bmap (b - opsDataStart s.fs) then
      modChk (fun c => { c.err with dupBlocks := inc32 c.dupBlocks }) >>= fun _ => pure false
    else modChk (fun c => { c with
        bmap := putBit c.bmap (b - opsDataStart s.fs) true, usedBlocks := inc32 c.usedBlocks }) >>= fun _ =>
      pure true : MC Bool) ({ s with ios := k }, c) = _
  unfold markOne
  split
  · rfl
  · split
    · split
      · rfl
      · rfl
    · split
      · rfl
      · rfl

theorem runs_markOne (b : Nat) : Runs s (filsysMarkBlock b >>= fun _ => pure ()) fun c =>
    (markOne s.fs b c).2 := by
  intro k c
  rw [bind_eq_of_ok (filsysMarkBlock_eq b k c)]
  exact ⟨k, Nat.le_refl k, rfl, fun _ => rfl⟩

theorem runs_markEach {f : Nat → MC Unit} {g : Nat → Chk → Chk} (hf : ∀ b, Runs s (f b) (g b)) (bs : List Nat) :
    Runs s (markEach f bs) (markAll g bs) := by
  induction bs with
  | nil => exact runs_pure
  | cons b bs ih =>
    have hbind := runs_bind (runs_onlyIf (p := b ≠ 0) (hf b)) fun _ => ih
    exact hbind

theorem markOne_first {fs : Fs} {b : Nat} {c : Chk} (hgeo : opsDataStart fs < opsDataEnd fs)
    (h : (markOne fs b c).1 = true) :
    b < opsDataEnd fs := by
  unfold markOne at h
  split at h
  · omega
  · split at h
    · split at h
      · omega
      · cases h
    · omega

variable {rb ri : Nat → Bool} (hr : Reads s rb ri) (hgeo : opsDataStart s.fs < opsDataEnd s.fs)

include hr hgeo

theorem runs_markWith {child : Nat → MC Unit} {g : Nat → Chk → Chk} (hc : ∀ b, Runs s (child b) (g b))
    (b : Nat) :
    Runs s (markWith child b) (passWith s.fs s.img rb g b) := by
  intro k c
  unfold passWith
  apply post_ite
  · intro h0
    rw [if_pos h0]
    exact ⟨k, Nat.le_refl k, rfl, fun _ => rfl⟩
  · intro h0
    rw [if_neg h0, bind_eq_of_ok (filsysMarkBlock_eq b k c)]
    apply post_ite
    · intro hfirst
      rw [if_pos hfirst]
      refine post_engFs (post_bind (post_outside (post_attempt ?_)))
      have hlt := markOne_first hgeo hfirst
      refine ((hr.block b k hlt).and (readBlock_peeks b _)).mono ?_ ?_
      · intro buf t hrun
        obtain ⟨⟨hrd, hent⟩, ht⟩ := hrun
        obtain ⟨k', hle, rfl⟩ := ht hr.solo
        rw [if_pos hrd, ← hent]
        refine (runs_markEach hc _ k' _).mono ?_ fun _ _ h => h
        intro _ t hrun
        obtain ⟨k'', hle', ht', hc'⟩ := hrun
        exact ⟨k'', Nat.le_trans hle hle', ht', fun hq => hc' (hq.right hle)⟩
      · intro e t hrun
        obtain ⟨hrd, ht⟩ := hrun
        obtain ⟨k', hle, rfl⟩ := ht hr.solo
        refine ⟨k', hle, rfl, fun hq => ?_⟩
        rw [if_neg (by simp [hrd hq])]
    · intro hfirst
      rw [if_neg hfirst]
      exact ⟨k, Nat.le_refl k, rfl, fun _ => rfl⟩

theorem runs_markTree (l b : Nat) : Runs s (filsysMarkTree l b) (passTree s.fs s.img rb l b) := by
  induction l generalizing b with
  | zero => exact runs_markWith hr hgeo (fun b => runs_markOne b) b
  | succ l ih => exact runs_markWith hr hgeo ih b

theorem runs_markSlot (level : Option Nat) (b : Nat) :
    Runs s (markSlot level b) (passSlot s.fs s.img rb level b) := by
  cases level with
  | none => exact runs_markOne b
  | some l => exact runs_markTree hr hgeo l b

theorem runs_markSlots (ip : Inode) (todo i : Nat) :
    Runs s (markSlots ip todo i) (passSlots s.fs s.img rb ip todo i) := by
  induction todo generalizing i with
  | zero => exact runs_pure
  | succ todo ih =>
    intro k c
    apply post_engFs
    exact runs_bind (runs_onlyIf (runs_markSlot hr hgeo _ _)) (fun _ => ih (i + 1)) k c

omit hr hgeo in
/-- Only the mode and the addresses of the record count. -/
theorem passSlots_congr {fs : Fs} {img : Buf} {ip ip' : Inode} (hmode : ip.mode = ip'.mode)
    (haddr : ip.addr = ip'.addr) (todo i : Nat) :
    passSlots fs img rb ip todo i = passSlots fs img rb ip' todo i := by
  induction todo generalizing i with
  | zero => rfl
  | succ todo ih =>
    funext c
    rw [passSlots, passSlots, ih, hmode, haddr]

theorem runs_markInode {n : Nat} {ip : Inode} (hmode : ip.mode = (recAt s.fs s.img n).mode)
    (haddr : ip.addr = (recAt s.fs s.img n).addr) :
    Runs s (markInode (inodeState s.fs.desc n ip.mode) n ip) (passInode s.fs s.img rb n) := by
  intro k c
  unfold passInode
  rw [← hmode]
  generalize inodeState s.fs.desc n ip.mode = st
  refine post_ite (fun h => ?_) fun h => post_modChk (post_ite (fun h1 => ?_) fun h1 =>
    post_ite (fun h2 => ?_) fun h2 => ?_)
  · simp only [if_pos h]
    exact ⟨k, Nat.le_refl k, rfl, fun _ => rfl⟩
  · simp only [if_neg h, if_pos h1]
    exact ⟨k, Nat.le_refl k, rfl, fun _ => rfl⟩
  · simp only [if_neg h, if_neg h1, if_pos h2]
    exact ⟨k, Nat.le_refl k, rfl, fun _ => rfl⟩
  · simp only [if_neg h, if_neg h1, if_neg h2]
    rw [← passSlots_congr hmode haddr]
    exact post_modChk (post_engFs (runs_markSlots hr hgeo ip _ 0 k _))

theorem runs_markInodes (todo n : Nat) (state : Nat → InState) (h1 : 1 ≤ n)
    (htop : n + todo ≤ opsMaxino s.fs + 1) :
    Runs s (markInodes todo n state) (passInodes s.fs s.img rb ri todo n) := by
  induction todo generalizing n state with
  | zero => exact runs_pure
  | succ todo ih =>
    intro k c
    rw [passInodes]
    refine post_engFs (post_bind (post_outside (post_attempt ?_)))
    refine ((hr.inode n k h1 (by omega)).and (readInode_peeks n _)).mono ?_ ?_
    · intro ip t hrun
      obtain ⟨⟨hrd, hmode, haddr⟩, ht⟩ := hrun
      obtain ⟨k', hle, rfl⟩ := ht hr.solo
      rw [if_pos hrd]
      refine (runs_bind (runs_markInode hr hgeo hmode haddr)
        (fun _ => ih (n + 1) _ (by omega) (by omega)) k' c).mono ?_
        fun _ _ h => h
      intro _ t hrun
      obtain ⟨k'', hle', ht', hc'⟩ := hrun
      exact ⟨k'', Nat.le_trans hle hle', ht', fun hq => hc' (hq.right hle)⟩
    · intro e t hrun
      obtain ⟨hrd, ht⟩ := hrun
      obtain ⟨k', hle, rfl⟩ := ht hr.solo
      refine (ih (n + 1) state (by omega) (by omega) k' c.err).mono ?_ fun _ _ h => h
      intro _ t hrun
      obtain ⟨k'', hle', ht', hc'⟩ := hrun
      refine ⟨k'', Nat.le_trans hle hle', ht', fun hq => ?_⟩
      rw [hc' (hq.right hle), if_neg (by simp [hrd (hq.left hle')])]

end Runs

/-! ## References -/

/-- One reference: the inode that makes it, the block, and whether that is an indirect block. -/
structure Ref where
  ino : Nat
  blk : Nat
  ind : Bool
  deriving DecidableEq

section Refs

variable (fs : Fs) (img : Buf) (rb ri : Nat → Bool)

/-- `b` and what lies `k` levels below it. -/
def treeAt (n : Nat) : Nat → Nat → List Ref
  | 0, b => [⟨n, b, false⟩]
  | k + 1, b =>
    ⟨n, b, true⟩ :: if rb b then (entriesAt fs img b).flatMap fun nb => if nb ≠ 0 then treeAt n k nb
      else [] else []

/-- What the slots `i, i + 1, …` (`todo` of them) lead to. -/
def slotsAt (n : Nat) (ip : Inode) : Nat → Nat → List Ref
  | 0, _ => []
  | todo + 1, i =>
    (if ip.addr i ≠ 0 then treeAt fs img rb n (depth fs.desc ip.mode i) (ip.addr i) else []) ++
      slotsAt n ip todo (i + 1)

/-- The inode is allocated and no device. -/
def InUse (n : Nat) : Prop := inodeState fs.desc n (recAt fs img n).mode ∉ [.unalloc, .ichr, .iblk]

instance (n : Nat) : Decidable (InUse fs img n) := inferInstanceAs (Decidable (_ ∉ _))

def inodeAt (n : Nat) : List Ref :=
  if InUse fs img n then slotsAt fs img rb n (recAt fs img n) fs.desc.niaddr 0 else []

/-- The references of the inodes `n, n + 1, …` (`todo` of them), in the order the pass meets them. -/
def inodesAt : Nat → Nat → List Ref
  | 0, _ => []
  | todo + 1, n => (if ri n then inodeAt fs img rb n else []) ++ inodesAt todo (n + 1)

end Refs

/-- A block of the data area. -/
def InArea (fs : Fs) (b : Nat) : Prop := opsDataStart fs ≤ b ∧ b < opsDataEnd fs

/-- The data block `b` is marked. -/
def Marked (fs : Fs) (c : Chk) (b : Nat) : Prop := getBit c.bmap (b - opsDataStart fs) = true

/-- A block the reference may name: of the data area, or a bad i-list block on record. -/
def Legal (fs : Fs) (r : Ref) : Prop :=
  InArea fs r.blk ∨ fs.desc.badino ≠ 0 ∧ r.ino = fs.desc.badino ∧ 2 ≤ r.blk ∧ r.blk < opsDataStart fs

/-- Every indirect block is legal, and nothing else names it. -/
structure Tidy (fs : Fs) (L : List Ref) (c : Chk) : Prop where
  legal : ∀ r ∈ L, r.ind = true → Legal fs r
  fresh : ∀ r ∈ L, r.ind = true → InArea fs r.blk → ¬ Marked fs c r.blk
  alone : L.Pairwise fun r r' => r.blk = r'.blk → r.ind = false ∧ r'.ind = false

/-- The pass met the references `L` of an inode, going from `c` to `c'`. -/
structure Meets (fs : Fs) (L : List Ref) (c c' : Chk) : Prop where
  found_le : c.found ≤ c'.found
  grows : ∀ b, Marked fs c b → Marked fs c' b
  /-- No problem counted: every reference is legal and marked. -/
  clean : c'.found = c.found → ∀ r ∈ L, Legal fs r ∧ (InArea fs r.blk → Marked fs c' r.blk)
  /-- Indirect blocks in order: what is named is marked, and nothing else. -/
  tidy : Tidy fs L c → ∀ b, InArea fs b → (Marked fs c' b ↔ Marked fs c b ∨ ∃ r ∈ L, r.blk = b)

section Meets

variable {fs : Fs} {L L' : List Ref} {c c' c'' : Chk}

theorem Meets.nil (hb : c'.bmap = c.bmap) (hf : c.found ≤ c'.found) : Meets fs [] c c' where
  found_le := hf
  grows b h := by unfold Marked at *; rw [hb]; exact h
  clean _ r hr := absurd hr (by simp)
  tidy _ b _ := by
    unfold Marked
    rw [hb]
    simp

theorem Tidy.left (h : Tidy fs (L ++ L') c) : Tidy fs L c where
  legal r hr := h.legal r (List.mem_append_left _ hr)
  fresh r hr := h.fresh r (List.mem_append_left _ hr)
  alone := (List.pairwise_append.mp h.alone).1

theorem Tidy.right (h : Tidy fs (L ++ L') c) (hm : Meets fs L c c') : Tidy fs L' c' where
  legal r hr := h.legal r (List.mem_append_right _ hr)
  fresh r hr hind hin hmk := by
    rcases (hm.tidy h.left r.blk hin).mp hmk with hold | ⟨r', hr', heq⟩
    · exact h.fresh r (List.mem_append_right _ hr) hind hin hold
    · have := (List.pairwise_append.mp h.alone).2.2 r' hr' r hr heq
      rw [hind] at this
      exact absurd this.2 (by decide)
  alone := (List.pairwise_append.mp h.alone).2.1

theorem Meets.append (h : Meets fs L c c') (h' : Meets fs L' c' c'') : Meets fs (L ++ L') c c'' where
  found_le := Nat.le_trans h.found_le h'.found_le
  grows b hb := h'.grows b (h.grows b hb)
  clean heq r hr := by
    have h1 := h.found_le
    have h2 := h'.found_le
    rcases List.mem_append.mp hr with hr | hr
    · obtain ⟨hleg, hmk⟩ := h.clean (by omega) r hr
      exact ⟨hleg, fun hin => h'.grows _ (hmk hin)⟩
    · exact h'.clean (by omega) r hr
  tidy ht b hb := by
    rw [h'.tidy (ht.right h) b hb, h.tidy ht.left b hb]
    simp only [List.mem_append, or_and_right, exists_or, or_assoc]

/-- What `filsys_mark_block` does with a block that is not 0. -/
theorem markOne_cases {b : Nat} (hb : b ≠ 0) (c : Chk) :
    (¬ Legal fs ⟨c.ino, b, true⟩ ∧ markOne fs b c = (false, { c.err with badBlocks := inc32 c.badBlocks })) ∨
    (Legal fs ⟨c.ino, b, true⟩ ∧ ¬ InArea fs b ∧ markOne fs b c = (true, c)) ∨
    (InArea fs b ∧ Marked fs c b ∧ markOne fs b c = (false, { c.err with dupBlocks := inc32 c.dupBlocks })) ∨
    (InArea fs b ∧ ¬ Marked fs c b ∧
      markOne fs b c = (true, { c with
        bmap := putBit c.bmap (b - opsDataStart fs) true, usedBlocks := inc32 c.usedBlocks })) := by
  unfold markOne
  rw [if_neg hb]
  split
  · rename_i hout
    have hna : ¬ InArea fs b := by unfold InArea; omega
    split
    · rename_i hrec
      exact .inr (.inl ⟨.inr hrec, hna, rfl⟩)
    · rename_i hrec
      exact .inl ⟨fun h => h.elim hna hrec, rfl⟩
  · rename_i hin
    have ha : InArea fs b := by unfold InArea; omega
    split
    · rename_i hset
      exact .inr (.inr (.inl ⟨ha, hset, rfl⟩))
    · rename_i hset
      exact .inr (.inr (.inr ⟨ha, hset, rfl⟩))

theorem marked_putBit {b b' : Nat} (hb : InArea fs b) (hb' : InArea fs b') (c : Chk) (u : Nat) :
    Marked fs { c with bmap := putBit c.bmap (b - opsDataStart fs) true, usedBlocks := u } b' ↔
    Marked fs c b' ∨ b = b' := by
  unfold Marked InArea at *
  show getBit (putBit c.bmap (b - opsDataStart fs) true) (b' - opsDataStart fs) = true ↔ _
  rw [getBit_putBit]
  by_cases h : b = b'
  · subst h
    simp
  · rw [if_neg (by omega)]
    simp [h]

@[simp] theorem markOne_ino (b : Nat) (c : Chk) : (markOne fs b c).2.ino = c.ino := by
  unfold markOne
  split
  · rfl
  · split
    · split <;> rfl
    · split <;> rfl

/-- A first claim meets the reference, whatever kind it is. -/
theorem markOne_true {b : Nat} (hb : b ≠ 0) {c : Chk} (h : (markOne fs b c).1 = true) (ind : Bool) :
    Meets fs [⟨c.ino, b, ind⟩] c (markOne fs b c).2 := by
  rcases @markOne_cases fs _ hb c with ⟨-, he⟩ | ⟨hleg, hna, he⟩ | ⟨-, -, he⟩ | ⟨hin, -, he⟩
  · rw [he] at h
    cases h
  · rw [he]
    exact {
      found_le := Nat.le_refl _
      grows := fun _ h => h
      clean := by
        intro _ r hr
        rw [List.mem_singleton.mp hr]
        exact ⟨hleg, fun h => absurd h hna⟩
      tidy := by
        intro _ b' hb'
        refine ⟨.inl, ?_⟩
        intro hrun
        rcases hrun with h | ⟨r, hr, rfl⟩
        · exact h
        · rw [List.mem_singleton.mp hr] at hb'
          exact absurd hb' hna }
  · rw [he] at h
    cases h
  · rw [he]
    exact {
      found_le := Nat.le_refl _
      grows := by
        intro b' h
        unfold Marked at *
        show getBit (putBit _ _ _) _ = true
        rw [getBit_putBit]
        split
        · rfl
        · exact h
      clean := by
        intro _ r hr
        rw [List.mem_singleton.mp hr]
        exact ⟨.inl hin, fun _ => (marked_putBit hin hin c _).mpr (.inr rfl)⟩
      tidy := by
        intro _ b' hb'
        rw [marked_putBit hin hb' c]
        simp }

/-- A block refused is a problem; a legal one was marked before. -/
theorem markOne_false {b : Nat} (hb : b ≠ 0) {c : Chk} (h : (markOne fs b c).1 = false) :
    c.found < (markOne fs b c).2.found ∧ (markOne fs b c).2.bmap = c.bmap ∧
      (Legal fs ⟨c.ino, b, true⟩ → InArea fs b ∧ Marked fs c b) := by
  rcases @markOne_cases fs _ hb c with ⟨hill, he⟩ | ⟨-, -, he⟩ | ⟨hin, hset, he⟩ | ⟨-, -, he⟩
  · rw [he]
    exact ⟨Nat.lt_succ_self _, rfl, fun hleg => absurd hleg hill⟩
  · rw [he] at h
    cases h
  · rw [he]
    exact ⟨Nat.lt_succ_self _, rfl, fun _ => ⟨hin, hset⟩⟩
  · rw [he] at h
    cases h

theorem Meets.refused {b : Nat} (hb : b ≠ 0) {c : Chk} (h : (markOne fs b c).1 = false) (L : List Ref) :
    Meets fs (⟨c.ino, b, true⟩ :: L) c (markOne fs b c).2 := by
  obtain ⟨hf, hbm, hset⟩ := markOne_false hb h
  exact {
    found_le := Nat.le_of_lt hf
    grows := by
      intro b' h'
      unfold Marked at *
      rw [hbm]
      exact h'
    clean := fun heq => absurd heq (by omega)
    tidy := by
      intro ht
      obtain ⟨hin, hmk⟩ := hset (ht.legal _ (.head _) rfl)
      exact absurd hmk (ht.fresh _ (.head _) rfl hin) }

theorem markOne_meets {b : Nat} (hb : b ≠ 0) (c : Chk) : Meets fs [⟨c.ino, b, false⟩] c (markOne fs b c).2 := by
  cases h : (markOne fs b c).1 with
  | true => exact markOne_true hb h false
  | false =>
    obtain ⟨hf, hbm, hset⟩ := markOne_false hb h
    have hsame : ∀ b', Marked fs (markOne fs b c).2 b' ↔ Marked fs c b' := by
      intro b'
      unfold Marked
      rw [hbm]
    exact {
      found_le := Nat.le_of_lt hf
      grows := fun b' h' => (hsame b').mpr h'
      clean := fun heq => absurd heq (by omega)
      tidy := by
        intro _ b' hb'
        rw [hsame]
        refine ⟨.inl, ?_⟩
        intro hrun
        rcases hrun with h' | ⟨r, hr, rfl⟩
        · exact h'
        · rw [List.mem_singleton.mp hr] at hb' ⊢
          exact (hset (.inl hb')).2 }

end Meets

/-- On behalf of inode `n`, `f` meets `L`. -/
def Meeting (fs : Fs) (n : Nat) (L : List Ref) (f : Chk → Chk) : Prop :=
  ∀ c, c.ino = n → Meets fs L c (f c) ∧ (f c).ino = n

section Meeting

variable {fs : Fs} {img : Buf} {rb ri : Nat → Bool} {n : Nat}

theorem meeting_markOne {b : Nat} (hb : b ≠ 0) : Meeting fs n [⟨n, b, false⟩] fun c => (markOne fs b c).2 := by
  rintro c rfl
  exact ⟨markOne_meets hb c, markOne_ino b c⟩

theorem meeting_seq {L L' : List Ref} {f g : Chk → Chk} (hf : Meeting fs n L f) (hg : Meeting fs n L' g) :
    Meeting fs n (L ++ L') fun c => g (f c) := by
  intro c hc
  obtain ⟨h1, h2⟩ := hf c hc
  obtain ⟨h3, h4⟩ := hg (f c) h2
  exact ⟨h1.append h3, h4⟩

theorem meeting_if {b : Nat} {L : List Ref} {f : Chk → Chk} (hf : b ≠ 0 → Meeting fs n L f) :
    Meeting fs n (if b ≠ 0 then L else []) fun c => if b ≠ 0 then f c else c := by
  by_cases hb : b ≠ 0
  · simp only [if_pos hb]
    exact hf hb
  · simp only [if_neg hb]
    exact fun c hc => ⟨.nil rfl (Nat.le_refl _), hc⟩

theorem meeting_markAll {f : Nat → Chk → Chk} {g : Nat → List Ref}
    (hf : ∀ b, b ≠ 0 → Meeting fs n (g b) (f b)) (bs : List Nat) :
    Meeting fs n (bs.flatMap fun b => if b ≠ 0 then g b else []) (markAll f bs) := by
  induction bs with
  | nil => exact fun c hc => ⟨.nil rfl (Nat.le_refl _), hc⟩
  | cons b bs ih =>
    rw [List.flatMap_cons]
    have hseq := meeting_seq (meeting_if (b := b) (hf b)) ih
    exact hseq

theorem meeting_passWith {child : Nat → Chk → Chk} {g : Nat → List Ref}
    (hc : ∀ b, b ≠ 0 → Meeting fs n (g b) (child b)) {b : Nat}
    (hb : b ≠ 0) :
    Meeting fs n (⟨n, b, true⟩ :: if rb b then (entriesAt fs img b).flatMap fun nb => if nb ≠
      0 then g nb else [] else [])
      (passWith fs img rb child b) := by
  rintro c rfl
  unfold passWith
  rw [if_neg hb]
  cases h : (markOne fs b c).1 with
  | false =>
    simp only [Bool.false_eq_true, if_false]
    exact ⟨.refused hb h _, markOne_ino b c⟩
  | true =>
    have hfirst := markOne_true hb h true
    cases hr : rb b with
    | false =>
      simp only [Bool.false_eq_true, if_false, if_true]
      exact ⟨hfirst.append (.nil rfl (Nat.le_succ _)), markOne_ino b c⟩
    | true =>
      simp only [if_true]
      obtain ⟨hrest, hino⟩ := meeting_markAll hc (entriesAt fs img b) (markOne fs b c).2 (markOne_ino b c)
      exact ⟨hfirst.append hrest, hino⟩

theorem meeting_passTree (l : Nat) {b : Nat} (hb : b ≠ 0) :
    Meeting fs n (treeAt fs img rb n (l + 1) b) (passTree fs img rb l b) := by
  induction l generalizing b with
  | zero => exact meeting_passWith (fun b hb => meeting_markOne hb) hb
  | succ l ih => exact meeting_passWith (fun b hb => ih hb) hb

theorem meeting_passSlot (mode slot : Nat) {b : Nat} (hb : b ≠ 0) :
    Meeting fs n (treeAt fs img rb n (depth fs.desc mode slot) b)
    (passSlot fs img rb (slotLevel fs.desc mode slot) b) := by
  unfold depth passSlot
  cases slotLevel fs.desc mode slot with
  | none => exact meeting_markOne hb
  | some l => exact meeting_passTree l hb

theorem meeting_passSlots (ip : Inode) (todo i : Nat) :
    Meeting fs n (slotsAt fs img rb n ip todo i) (passSlots fs img rb ip todo i) := by
  induction todo generalizing i with
  | zero => exact fun c hc => ⟨.nil rfl (Nat.le_refl _), hc⟩
  | succ todo ih =>
    have hslot := meeting_if (b := ip.addr i) fun hb => @meeting_passSlot fs img rb n ip.mode i _ hb
    have hseq := meeting_seq hslot (ih (i + 1))
    exact hseq

/-- One inode's references; one of unknown type is a problem of its own. -/
theorem passInode_meets (n : Nat) (c : Chk) (hk : inodeState fs.desc n (recAt fs img n).mode ≠ .unknown) :
    Meets fs (inodeAt fs img rb n) c (passInode fs img rb n c) := by
  unfold passInode inodeAt
  have huse : InUse fs img n ↔ inodeState fs.desc n (recAt fs img n).mode ∉ [.unalloc, .ichr, .iblk] := Iff.rfl
  simp only [huse]
  generalize inodeState fs.desc n (recAt fs img n).mode = st at hk
  cases st with
  | unknown => exact absurd rfl hk
  | unalloc => exact .nil rfl (Nat.le_refl _)
  | ichr => exact .nil rfl (Nat.le_refl _)
  | iblk => exact .nil rfl (Nat.le_refl _)
  | idir | ireg | ipipe =>
    have hm : Meeting fs n (slotsAt fs img rb n (recAt fs img n) fs.desc.niaddr 0) _ :=
      meeting_passSlots (recAt fs img n) fs.desc.niaddr 0
    have hrun := (hm { c with usedInodes := inc32 c.usedInodes, ino := n } rfl).1
    have hstart : Meets fs [] c { c with usedInodes := inc32 c.usedInodes, ino := n } :=
      .nil rfl (Nat.le_refl _)
    exact hstart.append hrun

theorem passInode_unknown {n : Nat} (hk : inodeState fs.desc n (recAt fs img n).mode = .unknown) (c : Chk) :
    passInode fs img rb n c = Chk.err { c with usedInodes := inc32 c.usedInodes } := by
  unfold passInode
  rw [hk]
  rfl

end Meeting

/-- The whole pass, with every inode's type known. -/
theorem passInodes_tidy {fs : Fs} {img : Buf} {rb ri : Nat → Bool} (todo n : Nat) (c : Chk)
    (hk : ∀ m, n ≤ m → m < n + todo → ri m = true → inodeState fs.desc m (recAt fs img m).mode ≠ .unknown) :
    Meets fs (inodesAt fs img rb ri todo n) c (passInodes fs img rb ri todo n c) := by
  induction todo generalizing n c with
  | zero => exact .nil rfl (Nat.le_refl _)
  | succ todo ih =>
    rw [passInodes, inodesAt]
    have hhead : Meets fs (if ri n then inodeAt fs img rb n else []) c
      (if ri n then passInode fs img rb n c else c.err) := by
      split
      · exact passInode_meets n c (hk n (Nat.le_refl n) (by omega) ‹_›)
      · exact .nil rfl (Nat.le_succ _)
    exact hhead.append (ih (n + 1) _ fun m h1 h2 => hk m (by omega) (by omega))

/-- A pass unmarks nothing, and one that counts no problem meets no unknown type and no unreadable
    inode. -/
theorem passInodes_clean {fs : Fs} {img : Buf} {rb ri : Nat → Bool} (todo n : Nat) (c : Chk) :
    c.found ≤ (passInodes fs img rb ri todo n c).found ∧
    (∀ b, Marked fs c b → Marked fs (passInodes fs img rb ri todo n c) b) ∧
      ((passInodes fs img rb ri todo n c).found = c.found →
        ∀ m, n ≤ m → m < n + todo → ri m = true ∧ inodeState fs.desc m (recAt fs img m).mode ≠ .unknown) := by
  induction todo generalizing n c with
  | zero => exact ⟨Nat.le_refl _, fun _ h => h, fun _ m h1 h2 => absurd h2 (by omega)⟩
  | succ todo ih =>
    rw [passInodes]
    have hhead : c.found ≤ (if ri n then passInode fs img rb n c else c.err).found ∧
        (∀ b, Marked fs c b → Marked fs (if ri n then passInode fs img rb n c else c.err) b) ∧
        ((if ri n then passInode fs img rb n c else c.err).found = c.found →
          ri n = true ∧ inodeState fs.desc n (recAt fs img n).mode ≠ .unknown) := by
      split
      · rename_i hri
        by_cases hk : inodeState fs.desc n (recAt fs img n).mode = .unknown
        · rw [passInode_unknown hk]
          refine ⟨Nat.le_succ _, fun _ h => h, ?_⟩
          intro h
          exact absurd h (Nat.succ_ne_self _)
        · have hm := @passInode_meets fs img rb n c hk
          exact ⟨hm.found_le, hm.grows, fun _ => ⟨hri, hk⟩⟩
      · exact ⟨Nat.le_succ _, fun _ h => h, fun h => absurd h (Nat.succ_ne_self _)⟩
    obtain ⟨h1, h2, h3⟩ := hhead
    obtain ⟨h4, h5, h6⟩ := ih (n + 1) (if ri n then passInode fs img rb n c else c.err)
    refine ⟨Nat.le_trans h1 h4, fun b hb => h5 b (h2 b hb), fun heq m hlo hhi => ?_⟩
    rcases Nat.eq_or_lt_of_le hlo with rfl | hlt
    · exact h3 (by omega)
    · exact h6 (by omega) m hlt (by omega)

/-! ## What the pass depends on -/

/-- In the i-list, and in what `c` has marked of the data area, the two images name the same blocks. -/
def Alike (fs : Fs) (img img' : Buf) (c : Chk) : Prop :=
  ∀ b, (2 ≤ b ∧ b < opsDataStart fs ∨ InArea fs b ∧ Marked fs c b) → entriesAt fs img' b = entriesAt fs img b

def Grows (fs : Fs) (f : Chk → Chk) : Prop := ∀ c b, Marked fs c b → Marked fs (f c) b

section Alike

variable {fs : Fs} {img img' : Buf} {rb ri : Nat → Bool}

theorem Alike.before {c : Chk} {f : Chk → Chk} (h : Alike fs img img' (f c)) (hf : Grows fs f) :
    Alike fs img img' c :=
  fun b hor => h b (hor.imp_right fun hb => ⟨hb.1, hf c b hb.2⟩)

theorem Meeting.grows {f : Chk → Chk} {L : Nat → List Ref} (h : ∀ n, Meeting fs n (L n) f) : Grows fs f :=
  fun c => (h c.ino c rfl).1.grows

end Alike

theorem entriesAt_bytes {fs : Fs} (h : fs.desc.ops ≠ .pdp7) (img : Buf) (b : Nat) :
    entriesAt fs img b = entries fs.desc (blockOf fs img b) := by
  unfold entriesAt entryAt
  simp only [if_neg h]
  rfl

theorem recAt_bytes {fs : Fs} (h : fs.desc.ops ≠ .pdp7) (img : Buf) (n : Nat) :
    recAt fs img n = recordOf fs img n := if_neg h

/-- Everything on a byte-addressed volume can be read. -/
theorem reads_mounted {s : Mnt} (hm : Mounted s) : Reads s (fun _ => true) fun _ => true where
  solo := hm.solo
  block b k hb := by
    have hm' : Mounted { s with ios := k } := hm.of_sameVol ⟨rfl, rfl, rfl⟩
    rw [hm'.readBlock_eq]
    refine hm'.post_read (Nat.lt_of_lt_of_le hb hm.last) (fun _ => ⟨rfl, ?_⟩) ?_
    · exact (entriesAt_bytes hm.notPdp7 s.img b).symm
    · intro hf _ hq
      exact absurd ((hq k (Nat.le_refl k) (Nat.lt_succ_self k)).symm.trans hf) (by decide)
  inode n k h1 hn := by
    have hm' : Mounted { s with ios := k } := hm.of_sameVol ⟨rfl, rfl, rfl⟩
    have hv : ValidIno s.fs n := validIno_of_le hm.first hm.notPdp7 h1 hn
    refine hm'.post_readInode (fun _ => ⟨rfl, ?_⟩) (fun hbad => absurd hv hbad) ?_
    · rw [recAt_bytes hm.notPdp7]
      exact ⟨rfl, rfl⟩
    · intro hf _ hq
      exact absurd ((hq k (Nat.le_refl k) (Nat.lt_succ_self k)).symm.trans hf) (by decide)

theorem entriesAt_words {fs : Fs} (h : fs.desc.ops = .pdp7) (img : Buf) (b : Nat) :
    entriesAt fs img b = (List.range fs.desc.nindir).map (wordsOf fs img b) := by
  unfold entriesAt entryAt
  simp only [if_pos h]

theorem recAt_words {fs : Fs} (h : fs.desc.ops = .pdp7) (img : Buf) (n : Nat) :
    recAt fs img n = p7DecodeInode n fun i => wordsOf fs img (p7Itod n) (p7Itoo n + i) := if_pos h

/-- A PDP-7 image may end anywhere. -/
def inImage (s : Mnt) (b : Nat) : Bool := decide (WordsIn s b)

theorem reads_mounted7 {s : Mnt} (hm : Mounted7 s) : Reads s (inImage s) fun n => inImage s (p7Itod n) where
  solo := hm.solo
  block b k _ := by
    have hm' : Mounted7 { s with ios := k } := hm.of_sameVol ⟨rfl, rfl, rfl⟩
    rw [hm'.readBlock_eq]
    refine post_bindFs (post_bind (post_failAs (hm'.post_readWords ?_ ?_ ?_)))
    · intro hin _
      refine ⟨decide_eq_true hin, ?_⟩
      rw [entriesAt_words hm.pdp7]
      refine List.map_congr_left fun i hi => ?_
      have hi64 : i < 64 := hm.nindir ▸ List.mem_range.mp hi
      show indGet s.fs.desc _ i = _
      unfold indGet
      rw [hm.pdp7]
      show (wordOps s.fs.desc).get ((wordOps s.fs.desc).putAll (wordsOf s.fs s.img b) 64 zeroBuf) i = _
      rw [WordCodec.get_putAll, if_pos hi64]
      exact Nat.mod_eq_of_lt (wordsOf_lt _ _ _ _)
    · intro hout _
      exact fun _ => decide_eq_false hout
    · intro hf _
      exact fun hq => absurd ((hq k (Nat.le_refl k) (Nat.lt_succ_self k)).symm.trans hf) (by decide)
  inode n k h1 hn := by
    have hm' : Mounted7 { s with ios := k } := hm.of_sameVol ⟨rfl, rfl, rfl⟩
    have hmax : n ≤ p7Maxino := by
      unfold opsMaxino at hn
      rw [hm.pdp7] at hn
      exact hn
    rw [hm'.readInode_eq, recAt_words hm.pdp7]
    refine post_ite (fun h => absurd h (by omega)) fun _ => ?_
    refine post_bind (post_failAs (hm'.post_readWords ?_ ?_ ?_))
    · intro hin _
      refine post_ite (fun _ => ?_) fun _ => ⟨decide_eq_true hin, rfl, rfl⟩
      -- the read of the last word decides the odd byte of the size only
      refine post_bind (post_inside ((post_true _).mono ?_ ?_))
      · intro lastw t _
        show Post ((pure (if lastw % 512 = 0 then _ else _) : M Inode) t.1) _ _
        split
        · exact ⟨decide_eq_true hin, rfl, rfl⟩
        · exact ⟨decide_eq_true hin, rfl, rfl⟩
      · intro _ _ _
        exact ⟨decide_eq_true hin, rfl, rfl⟩
    · intro hout _
      exact fun _ => decide_eq_false hout
    · intro hf _
      exact fun hq => absurd ((hq k (Nat.le_refl k) (Nat.lt_succ_self k)).symm.trans hf) (by decide)

end Filsys.Check
