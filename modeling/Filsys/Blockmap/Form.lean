/-
  Filsys.Blockmap.Form — which logical blocks a slot covers (blocktree.c, v7fs.h,
  filsys_format.c).

  The slots of an inode cover consecutive runs of logical blocks. The formats have nine
  slot tables between them (`pdp7Slots`, `byteSlots`); in each the runs are disjoint and no 32-bit sum
  wraps before `max_file`, so a block below it has one slot (`findSlot_eq_some`,
  `findSlot_of_lt`).
-/

import Filsys.Tree.Map

namespace Filsys.Blockmap

open Filsys.Lib Filsys.Engine Filsys.Tree

/-! ## The slot tables -/

/-- What the block map reads of a descriptor. -/
structure Slots where
  bsize : Nat
  nindir : Nat
  ndaddr : Nat
  niaddr : Nat
  ilargMask : Nat := 0
  largeSingle : Nat := 0
  largeDouble : Nat := 0
  sizeBits : Nat := 0
  deriving DecidableEq

def slotsOf (d : Desc) : Slots :=
  ⟨d.bsize, d.nindir, d.ndaddr, d.niaddr, d.ilargMask, d.largeSingle, d.largeDouble, d.sizeBits⟩

def pdp7Slots : Slots := ⟨128, 64, 7, 7, 0o200000, 7, 0, 0⟩

/-- The byte-addressed editions' tables: the V7 family at each of its block sizes, the two BSDs, V6 and V1. -/
def byteSlots : List Slots :=
  [⟨512, 128, 10, 13, 0, 0, 0, 0⟩, ⟨1024, 256, 10, 13, 0, 0, 0, 0⟩, ⟨2048, 512, 10, 13, 0, 0, 0, 0⟩,
    ⟨4096, 1024, 10, 13, 0, 0, 0, 0⟩,
    ⟨8192, 2048, 10, 13, 0, 0, 0, 0⟩, ⟨1024, 256, 4, 7, 0, 0, 0, 0⟩,
    ⟨512, 256, 8, 8, 0o10000, 7, 1, 24⟩, ⟨512, 256, 8, 8, 0o10000, 8, 0, 16⟩]

/-- A descriptor with one of the formats' slot tables, and the allocator that goes with its layout. -/
structure Formed (d : Desc) : Prop where
  slots : if d.ops = .pdp7 then slotsOf d = pdp7Slots else slotsOf d ∈ byteSlots
  entries : d.ops ≠ .pdp7 → entryLen d * d.nindir ≤ d.bsize
  alloc : d.alloc = .pdp7 ↔ d.ops = .pdp7
  bitmap : d.alloc = .bitmap → d.ops = .v1

theorem Formed.table {d : Desc} (h : Formed d) : slotsOf d ∈ pdp7Slots :: byteSlots := by
  have := h.slots
  split at this
  · exact List.mem_cons.mpr (.inl this)
  · exact List.mem_cons_of_mem _ this

theorem Formed.nindir_pos {d : Desc} (h : Formed d) : 0 < d.nindir := by
  have ht := h.table
  unfold slotsOf pdp7Slots byteSlots at ht
  simp only [List.mem_cons, Slots.mk.injEq, List.not_mem_nil, or_false] at ht
  omega

theorem Formed.promotes {d : Desc} (h : Formed d) (h0 : d.ilargMask ≠ 0) : Promotes d := by
  have ht := h.table
  unfold slotsOf pdp7Slots byteSlots at ht
  simp only [List.mem_cons, Slots.mk.injEq, List.not_mem_nil, or_false] at ht
  constructor <;> omega

/-! ## Runs of logical blocks -/

def span (d : Desc) (mode slot : Nat) : Nat := slotSpan d (slotLevel d mode slot)

/-- The first logical block of a slot. -/
def base (d : Desc) (mode : Nat) : Nat → Nat
  | 0 => 0
  | i + 1 => base d mode i + span d mode i

theorem base_mono (d : Desc) (mode : Nat) {i j : Nat} (h : i ≤ j) : base d mode i ≤ base d mode j := by
  induction j with
  | zero =>
    obtain rfl : i = 0 := by omega
    exact Nat.le_refl _
  | succ j ih =>
    rcases Nat.lt_or_eq_of_le h with hlt | rfl
    · exact Nat.le_trans (ih (by omega)) (Nat.le_add_right _ _)
    · exact Nat.le_refl _

section Find

variable {d : Desc} {mode : Nat}

/-- The search finds the slot whose run the block lies in. -/
theorem findSlot_eq_some {todo i : Nat} (hw : base d mode (i + todo) < 2 ^ 32) {lbn slot r : Nat}
    (hl : base d mode i ≤ lbn) (hl' : lbn < 2 ^ 32) :
    findSlot d mode lbn todo i (base d mode i) = some (slot, r) ↔
      i ≤ slot ∧ slot < i + todo ∧ lbn = base d mode slot + r ∧ r < span d mode slot := by
  induction todo generalizing i with
  | zero =>
    constructor
    · intro h
      cases h
    · rintro ⟨h1, h2, -⟩
      omega
  | succ todo ih =>
    have hnext : base d mode (i + 1) < 2 ^ 32 := Nat.lt_of_le_of_lt (base_mono d mode (by omega)) hw
    have hmod : (base d mode i + slotSpan d (slotLevel d mode i)) % 2 ^ 32 = base d mode (i + 1) :=
      Nat.mod_eq_of_lt hnext
    rw [findSlot, hmod]
    by_cases hlt : lbn < base d mode (i + 1)
    · rw [if_pos hlt, Option.some.injEq, Prod.mk.injEq]
      have hr : (lbn + 2 ^ 32 - base d mode i) % 2 ^ 32 = lbn - base d mode i := by omega
      rw [hr]
      have hi : base d mode (i + 1) = base d mode i + span d mode i := rfl
      constructor
      · rintro ⟨rfl, rfl⟩
        refine ⟨Nat.le_refl _, by omega, by omega, by omega⟩
      · intro hrun
        obtain ⟨h1, h2, h3, h4⟩ := hrun
        rcases Nat.lt_or_eq_of_le h1 with hlt' | rfl
        · have := base_mono d mode (show i + 1 ≤ slot from hlt')
          omega
        · exact ⟨rfl, by omega⟩
    · rw [if_neg hlt, ih (by rwa [show i + 1 + todo = i + (todo + 1) by omega]) (by omega)]
      constructor
      · rintro ⟨h1, h2, h3⟩
        exact ⟨by omega, by omega, h3⟩
      · intro hrun
        obtain ⟨h1, h2, h3, h4⟩ := hrun
        refine ⟨?_, by omega, h3, h4⟩
        rcases Nat.lt_or_eq_of_le h1 with hlt' | rfl
        · exact hlt'
        · have hi : base d mode (i + 1) = base d mode i + span d mode i := rfl
          omega

/-- Below the end of the last run there is a slot. -/
theorem findSlot_of_lt {lbn : Nat} (hw : base d mode d.niaddr < 2 ^ 32) (h : lbn < base d mode d.niaddr) :
    ∃ slot r, findSlot d mode lbn d.niaddr 0 0 = some (slot, r) := by
  have hrun : ∃ slot, slot < d.niaddr ∧ base d mode slot ≤ lbn ∧ lbn < base d mode (slot + 1) := by
    generalize d.niaddr = n at h
    clear hw
    induction n with
    | zero => exact absurd h (Nat.not_lt_zero _)
    | succ n ih =>
      by_cases hlt : lbn < base d mode n
      · obtain ⟨slot, h1, h2⟩ := ih hlt
        exact ⟨slot, by omega, h2⟩
      · exact ⟨n, by omega, by omega, h⟩
  obtain ⟨slot, hs, h1, h2⟩ := hrun
  have hb : base d mode (slot + 1) = base d mode slot + span d mode slot := rfl
  refine ⟨slot, lbn - base d mode slot, ?_⟩
  refine (findSlot_eq_some (by rwa [Nat.zero_add]) (Nat.zero_le _) (by omega)).mpr
    ⟨Nat.zero_le _, by omega, by omega, by omega⟩

end Find

/-! ## Every format's runs -/

/-- The layouts a file can have: its own slots, or those of a large file. -/
theorem base_total {d : Desc} (h : Formed d) (mode : Nat) : base d mode d.niaddr < 2 ^ 32 := by
  have ht := h.table
  unfold slotsOf pdp7Slots byteSlots at ht
  simp only [List.mem_cons, Slots.mk.injEq, List.not_mem_nil, or_false] at ht
  rcases ht with ht | ht | ht | ht | ht | ht | ht | ht | ht <;> obtain ⟨-, h2, h3, h4, h5, h6, h7, -⟩ :=
    ht <;> rw [h4] <;>
    simp only [base, span, slotLevel, h3, h5, h6, h7] <;> cases has mode _ <;> simp [slotSpan, h2]

theorem not_small_iff {d : Desc} {mode : Nat} :
    ¬ Small d mode ↔ d.ilargMask = 0 ∨ has mode d.ilargMask = true := by
  unfold Tree.Small
  rw [not_and_or, not_not, Bool.not_eq_false]

/-- A file of the size limit fits the slots, once they are those of a large file. -/
theorem lt_base_of_maxFile {d : Desc} (h : Formed d) {mode : Nat} (hs : ¬ Small d mode) {lbn : Nat}
    (hl : lbn * d.bsize < maxFile d) :
    lbn < base d mode d.niaddr := by
  have hslots := h.slots
  rw [not_small_iff] at hs
  unfold maxFile at hl
  by_cases hp : d.ops = .pdp7
  · rw [if_pos hp] at hslots hl
    simp only [slotsOf, pdp7Slots, Slots.mk.injEq] at hslots
    obtain ⟨h1, h2, h3, h4, h5, h6, h7, -⟩ := hslots
    rw [h5] at hs
    have hm := hs.resolve_left (by decide)
    rw [h1] at hl
    rw [h4]
    simp only [base, span, slotLevel, h5, h6, hm]
    simp [slotSpan, h2]
    omega
  · rw [if_neg hp] at hslots hl
    simp only [slotsOf, byteSlots, List.mem_cons, Slots.mk.injEq, List.not_mem_nil, or_false] at hslots
    rcases hslots with hc | hc | hc | hc | hc | hc | hc | hc <;>
      obtain ⟨h1, h2, h3, h4, h5, h6, h7, h8⟩ := hc <;>
      rw [h5] at hs <;> simp only [h1, h2, h3, h8] at hl <;> rw [h4] <;>
        simp only [base, span, slotLevel, h3, h5, h6, h7] <;>
      simp [slotSpan, h2] at hs hl ⊢ <;> simp_all <;> omega

theorem maxFile_lt (d : Desc) : maxFile d < 2 ^ 32 := by
  unfold maxFile
  simp only
  split
  · decide
  · split <;> omega

theorem lt_of_maxFile {d : Desc} (h : Formed d) {lbn : Nat} (hl : lbn * d.bsize < maxFile d) :
    lbn < 2 ^ 32 := by
  have hb : 0 < d.bsize := by
    have ht := h.table
    unfold slotsOf pdp7Slots byteSlots at ht
    simp only [List.mem_cons, Slots.mk.injEq, List.not_mem_nil, or_false] at ht
    omega
  exact Nat.lt_of_le_of_lt (Nat.le_mul_of_pos_right lbn hb) (Nat.lt_trans hl (maxFile_lt d))

/-- The slots of a small file are its first blocks. -/
theorem base_small {d : Desc} (h : Formed d) {mode : Nat} (hs : Small d mode) :
    base d mode d.niaddr = d.ndaddr := by
  have ht := h.table
  obtain ⟨hm, hf⟩ := hs
  unfold slotsOf pdp7Slots byteSlots at ht
  simp only [List.mem_cons, Slots.mk.injEq, List.not_mem_nil, or_false] at ht
  rcases ht with ht | ht | ht | ht | ht | ht | ht | ht | ht <;> obtain ⟨-, h2, h3, h4, h5, h6, h7, -⟩ := ht <;>
    first
    | exact absurd h5 hm
    | (rw [h4, h3]
       rw [h5] at hf
       simp [base, span, slotLevel, h3, h5, hf, slotSpan])

end Filsys.Blockmap
