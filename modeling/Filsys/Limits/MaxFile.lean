/-
  Filsys.Limits.MaxFile — the file size limit and the slot search (filsys_format.c,
  blocktree.c).

  `filsys_max_file_op` caps the capacity of the block map in 64-bit arithmetic; the slot
  search adds and multiplies in 32 bits. With 8192-byte blocks the span of a triple
  indirect slot wraps to zero, but the cap keeps every file short of that slot: below the
  limit the search meets no product or sum of 2^32 or more (`Resolved`), and a block that is
  asked for is never refused as too far (`max_file_is_reachable`).
-/

import Filsys.Alloc.Offers
import Filsys.Mount.Formats
import Filsys.Undo.Size

namespace Filsys.Limits

open Filsys.Lib Filsys.Engine Filsys.Blockmap Filsys.Tree Filsys.Mount

/-! ## The formats -/

/-- A mounted volume's format. -/
structure Format (d : Desc) : Prop where
  formed : Formed d
  sizes : Undo.SizeFormat d
  dyn : d.dynBsize = true → d.ops = .v7 ∧ d.alloc = .freelist ∧ d.daddrWid = 4 ∧ slotsOf d = ⟨d.bsize,
    d.nindir, 10, 13, 0, 0, 0, 0⟩

theorem entryLen_free (d : Desc) (bo : ByteOrder) (ignore pack4 : Bool) (word : Option WordCodec) :
    entryLen { d with bo := bo, ignoreMagic := ignore, pack4 := pack4, word := word } = entryLen d := by
  unfold entryLen daddrSig
  split
  · rfl
  · rw [ByteOrder.length_sig32, ByteOrder.length_sig32]

theorem Format.orderFree : OrderFree Format := by
  intro d h bo ignore pack4 word
  refine ⟨⟨h.formed.slots, fun hp => ?_, h.formed.alloc, h.formed.bitmap⟩,
    ⟨h.sizes.v1, h.sizes.v6, h.sizes.words⟩, h.dyn⟩
  rw [entryLen_free]
  exact h.formed.entries hp

theorem Format.sizeFree : SizeFree Format := by
  intro d t h hdyn ht
  obtain ⟨hops, halloc, hwid, hslots⟩ := h.dyn hdyn
  simp only [slotsOf, Slots.mk.injEq, true_and] at hslots
  obtain ⟨h3, h4, h5, h6, h7, h8⟩ := hslots
  have hb : sysvBsize t = 512 ∨ sysvBsize t = 1024 ∨ sysvBsize t = 2048 := by
    unfold sysvBsize at ht ⊢
    split
    · exact .inl rfl
    · split
      · exact .inr (.inl rfl)
      · split
        · exact .inr (.inr rfl)
        · simp_all
  have hlen : entryLen { d with bsize := sysvBsize t, nindir := sysvBsize t / d.daddrWid } = 4 := by
    show (if d.daddrWid = 2 then ByteOrder.le.sig16 else d.bo.sig32).length = 4
    rw [hwid, if_neg (by decide), ByteOrder.length_sig32]
  refine ⟨⟨?_, ?_, h.formed.alloc, h.formed.bitmap⟩, ⟨h.sizes.v1, h.sizes.v6, h.sizes.words⟩, fun _ =>
    ⟨hops, halloc, hwid, ?_⟩⟩
  · show if d.ops = .pdp7 then _
      else (⟨sysvBsize t, sysvBsize t / d.daddrWid, d.ndaddr, d.niaddr, d.ilargMask, d.largeSingle,
      d.largeDouble, d.sizeBits⟩ :
      Slots) ∈ byteSlots
    rw [if_neg (by rw [hops]; decide), hwid, h3, h4, h5, h6, h7, h8]
    rcases hb with hb | hb | hb <;> rw [hb] <;> decide
  · intro _
    rw [hlen]
    show 4 * (sysvBsize t / d.daddrWid) ≤ sysvBsize t
    rw [hwid]
    omega
  · show (⟨_, _, d.ndaddr, d.niaddr, d.ilargMask, d.largeSingle, d.largeDouble, d.sizeBits⟩ : Slots) = _
    rw [h3, h4, h5, h6, h7, h8]

theorem Format.inTable : InTable Format where
  row ed := by
    cases ed <;> exact ⟨⟨by decide, by decide, by decide, by decide⟩,
      ⟨by decide, by decide, by decide⟩, by decide⟩
  geom ed bo bs fm hed hbs := by
    have hbo : ∀ d : Desc, d.bo.sig32.length = 4 := fun d => ByteOrder.length_sig32 _
    rcases hed with rfl | rfl | rfl <;> cases fm <;> subst hbs <;>
      exact ⟨⟨by simp [filsysGetformat, descV8, slotsOf, byteSlots],
        fun _ => by simp [filsysGetformat, descV8, entryLen, daddrSig],
        by simp [filsysGetformat, descV8], by simp [filsysGetformat, descV8]⟩,
        ⟨by simp [filsysGetformat, descV8], by simp [filsysGetformat, descV8], by simp [filsysGetformat, descV8]⟩, by
        simp [filsysGetformat, descV8]⟩

/-- Every successful open leaves one of the formats. -/
theorem format_opened {a : OpenArgs} {s₀ s : Mnt} (hs : Solo s₀)
    (hopen : filsysOpenArch a s₀ = .ok () s) : Format s.fs.desc :=
  (filsysOpenArch_settles Format.sizeFree Format.orderFree Format.inTable hs).of_ok hopen

/-! ## The slot search -/

/-- The blocks a slot covers and the first of them, in exact arithmetic. -/
def exactSpan (d : Desc) : Option Nat → Nat
  | none => 1
  | some level => d.nindir ^ (level + 1)

def exactBase (d : Desc) (mode : Nat) : Nat → Nat
  | 0 => 0
  | i + 1 => exactBase d mode i + exactSpan d (slotLevel d mode i)

/-- The search for `lbn` ends at `slot`, having met nothing that wraps. -/
structure Resolved (d : Desc) (mode lbn slot r : Nat) : Prop where
  slot_lt : slot < d.niaddr
  here : lbn = exactBase d mode slot + r
  inside : r < exactSpan d (slotLevel d mode slot)
  spans : ∀ i, i ≤ slot → slotSpan d (slotLevel d mode i) = exactSpan d (slotLevel d mode i) ∧
    exactSpan d (slotLevel d mode i) < 2 ^ 32
  sums : ∀ i, i ≤ slot → exactBase d mode (i + 1) < 2 ^ 32

/-- Up to the slot of a block below the limit no span wraps. -/
theorem span_exact {d : Desc} (h : Formed d) {mode i lbn : Nat} (hi : i < d.niaddr)
    (hb : base d mode i ≤ lbn) (hl : lbn * d.bsize < maxFile d) :
    slotSpan d (slotLevel d mode i) = exactSpan d (slotLevel d mode i) ∧
    exactSpan d (slotLevel d mode i) < 2 ^ 32 := by
  have hmax := maxFile_lt d
  have hsmall : ∀ {level : Nat}, slotLevel d mode i = some level → d.nindir ^ (level + 1) < 2 ^ 32 →
      slotSpan d (slotLevel d mode i) = exactSpan d (slotLevel d mode i) ∧
      exactSpan d (slotLevel d mode i) < 2 ^ 32 := by
    intro level hlev hlt
    rw [hlev]
    exact ⟨Nat.mod_eq_of_lt hlt, hlt⟩
  cases hlev : slotLevel d mode i with
  | none => exact ⟨rfl, (by decide : 1 < 2 ^ 32)⟩
  | some level =>
    rw [← hlev]
    refine hsmall hlev ?_
    have ht := h.table
    unfold slotsOf pdp7Slots byteSlots at ht
    simp only [List.mem_cons, Slots.mk.injEq, List.not_mem_nil, or_false] at ht
    have hle : level ≤ 2 := by
      unfold slotLevel at hlev
      split at hlev
      · split at hlev
        · cases hlev
          omega
        · split at hlev
          · cases hlev
            omega
          · cases hlev
      · split at hlev
        · cases hlev
        · cases hlev
          omega
    by_cases hbig : d.nindir = 2048
    · have hd : d.bsize = 8192 ∧ d.ndaddr = 10 ∧ d.niaddr = 13 ∧ d.ilargMask = 0 := by omega
      obtain ⟨h1, h3, h4, h5⟩ := hd
      -- a block below the limit lies before the triple indirect slot
      have hlt : i ≠ 12 := by
        rintro rfl
        have hbase : base d mode 12 = 10 + 2048 + 2048 ^ 2 := by
          simp [base, span, slotLevel, slotSpan, h3, h5, hbig]
        rw [h1] at hl
        omega
      have hlevel : level ≤ 1 := by
        unfold slotLevel at hlev
        rw [if_neg (by simp [h5])] at hlev
        split at hlev
        · cases hlev
        · cases hlev
          omega
      rw [hbig]
      have : level = 0 ∨ level = 1 := by omega
      rcases this with rfl | rfl <;> decide
    · have hn : d.nindir ≤ 1024 := by omega
      calc d.nindir ^ (level + 1) ≤ 1024 ^ (level + 1) := Nat.pow_le_pow_left hn _
        _ ≤ 1024 ^ 3 := Nat.pow_le_pow_right (by decide) (by omega)
        _ < 2 ^ 32 := by decide

theorem reached_of_lt {d : Desc} (h : Formed d) {mode lbn : Nat} (hl : lbn * d.bsize < maxFile d)
    (hb : lbn < base d mode d.niaddr) :
    ∃ slot r, findSlot d mode lbn d.niaddr 0 0 = some (slot, r) ∧ Resolved d mode lbn slot r := by
  have htotal := base_total h mode
  obtain ⟨slot, r, hfind⟩ := findSlot_of_lt htotal hb
  obtain ⟨-, hslot, hhere, hin⟩ :=
    (findSlot_eq_some (by rwa [Nat.zero_add]) (Nat.zero_le _) (lt_of_maxFile h hl)).mp hfind
  rw [Nat.zero_add] at hslot
  have hspans : ∀ i, i ≤ slot → slotSpan d (slotLevel d mode i) = exactSpan d (slotLevel d mode i) ∧
    exactSpan d (slotLevel d mode i) < 2 ^ 32 := by
    intro i hi
    have := base_mono d mode hi
    exact span_exact h (by omega) (by omega) hl
  have hbase : ∀ i, i ≤ slot + 1 → exactBase d mode i = base d mode i := by
    intro i
    induction i with
    | zero => exact fun _ => rfl
    | succ i ih =>
      intro hi
      show exactBase d mode i + exactSpan d (slotLevel d mode i) =
        base d mode i + slotSpan d (slotLevel d mode i)
      rw [ih (by omega), (hspans i (by omega)).1]
  refine ⟨slot, r, hfind, hslot, ?_, ?_, hspans, ?_⟩
  · rw [hbase slot (by omega)]
    exact hhere
  · rw [← (hspans slot (Nat.le_refl _)).1]
    exact hin
  · intro i hi
    rw [hbase (i + 1) (by omega)]
    exact Nat.lt_of_le_of_lt (base_mono d mode (by omega)) htotal

/-! ## The indices -/

theorem levelIdx_succ (n level r : Nat) : levelIdx n (level + 1) r = levelIdx n level (r / n) ++ [r % n] := by
  unfold levelIdx
  rw [List.range_succ, List.map_append, List.map_singleton, Nat.sub_self, Nat.pow_zero, Nat.div_one]
  congr 1
  refine List.map_congr_left fun l hl => ?_
  have hl := List.mem_range.mp hl
  rw [Nat.div_div_eq_div_mul, show level + 1 - l = (level - l) + 1 by omega, Nat.pow_succ, Nat.mul_comm]

/-- The entries on the way down are the digits of the index, top level first. -/
theorem levelIdx_digits (n level r : Nat) : (levelIdx n level r).foldl (fun v i => v * n + i) 0 =
    r % n ^ (level + 1) := by
  induction level generalizing r with
  | zero => simp [levelIdx]
  | succ level ih =>
    rw [levelIdx_succ, List.foldl_append, ih, List.foldl_cons, List.foldl_nil,
      Nat.pow_succ n (level + 1), Nat.mul_comm (n ^ (level + 1)), Nat.mod_mul]
    rw [Nat.mul_comm, Nat.add_comm]

theorem levelIdx_lt {n : Nat} (hn : 0 < n) (level r : Nat) : ∀ i ∈ levelIdx n level r, i < n := by
  intro i hi
  obtain ⟨l, -, rfl⟩ := List.mem_map.mp hi
  exact Nat.mod_lt _ hn

/-! ## Too far -/

/-- Any error but the one for a block past the map. -/
def NotFar (e : Errno) : Prop := e ≠ .efbig

theorem throws_bindFs {α : Type} {P : Errno → Prop} {f : Fs → M α} (h : ∀ fs, Throws P (f fs)) :
    Throws P (getFs >>= f) := fun s => h s.fs s

theorem throws_modFs {P : Errno → Prop} (g : Fs → Fs) : Throws P (modFs g) := fun _ => trivial

theorem balloc_notFar : Throws NotFar balloc := by
  have hio : NotFar .eio := nofun
  have hspc : NotFar .enospc := nofun
  have hro : NotFar .erofs := nofun
  refine throws_bindFs fun fs => ?_
  cases fs.desc.alloc with
  | freelist =>
    refine throws_bindFs fun fs => throws_ite (throws_throw hspc) (throws_bind (throws_modFs _) fun _ =>
      throws_ite (throws_throw hspc) ?_)
    refine throws_ite (throws_throw hio) (throws_bind (throws_onlyIf ?_) ?_)
    · exact throws_bind (throws_failAs hio) fun _ => throws_bind (throws_modFs _) fun _ => throws_failAs hio
    · intro _
      exact throws_bind (throws_failAs hio) fun _ => throws_bind (throws_modFs _) fun _ => throws_pure
  | v8bitmap =>
    refine throws_bindFs fun fs => ?_
    cases firstBit fs.v8Bits fs.v8Nbits 0 with
    | none => exact throws_throw hspc
    | some i =>
      refine throws_bind (throws_modFs _) fun _ => ?_
      refine throws_bind (throws_failAs hio) fun _ => ?_
      exact throws_bind (throws_modFs _) fun _ => throws_pure
  | bitmap =>
    refine throws_bindFs fun fs => ?_
    show Throws NotFar (match firstBit fs.freemap (fs.fsize - v1DataStart fs.maxino) (v1DataStart fs.maxino) with
      | none => _
      | some b => _)
    cases firstBit fs.freemap (fs.fsize - v1DataStart fs.maxino) (v1DataStart fs.maxino) with
    | none => exact throws_throw hspc
    | some b =>
      refine throws_bind (throws_modFs _) fun _ => ?_
      refine throws_bind (throws_failAs hio) fun _ => ?_
      exact throws_bind (throws_modFs _) fun _ => throws_pure
  | pdp7 =>
    refine throws_bindFs fun fs => throws_ite (throws_throw hro) (throws_ite (throws_throw hspc) ?_)
    refine throws_bind (throws_failAs hio) fun words => ?_
    refine throws_bind ?_ fun b => throws_bind (throws_failAs hio) fun _ =>
      throws_bind (throws_modFs _) fun _ => throws_pure
    exact throws_ite (throws_bind (throws_modFs _) fun _ => throws_pure)
      (throws_bind (throws_failAs hio) fun _ => throws_pure)

theorem indFollow_notFar (create : Bool) (idxs : List Nat) : ∀ b, Throws NotFar (indFollow create idxs b) := by
  have hio : NotFar .eio := nofun
  induction idxs with
  | nil => exact fun _ => throws_throw hio
  | cons i rest ih =>
    refine fun b => throws_bindFs fun fs => throws_bind (throws_failAs hio) fun buf =>
      throws_ite (throws_ite ?_ throws_pure) (throws_ite throws_pure (ih _))
    refine throws_bind balloc_notFar fun nb => ?_
    refine throws_bind (throws_failAs hio) fun _ => ?_
    exact throws_ite throws_pure (ih nb)

theorem bmapIndFollow_notFar (create : Bool) (slot : Nat) (idxs : List Nat) :
    Throws NotFar (bmapIndFollow create slot idxs) := by
  have hip : Throws NotFar getIp := fun _ => trivial
  refine throws_bind hip fun ip => throws_ite (throws_ite ?_ throws_pure)
    (throws_outside (indFollow_notFar create idxs _))
  refine throws_bind (throws_outside balloc_notFar) fun b => ?_
  refine throws_bind (fun _ => trivial) fun _ => ?_
  exact throws_outside (indFollow_notFar create idxs b)

/-- The slot search of a file that is large, or whose block is one of the direct ones. -/
theorem reached_below {d : Desc} (h : Formed d) {mode lbn : Nat} (hl : lbn * d.bsize < maxFile d)
    (hm : Small d mode → lbn < d.ndaddr) :
    ∃ slot r, findSlot d mode lbn d.niaddr 0 0 = some (slot, r) ∧ Resolved d mode lbn slot r := by
  refine reached_of_lt h hl ?_
  by_cases hs : Small d mode
  · rw [base_small h hs]
    exact hm hs
  · exact lt_base_of_maxFile h hs hl

theorem filsysBmap_notFar {s : Mnt} {l : Loc} (h : Formed s.fs.desc) {lbn : Nat}
    (hl : lbn * s.fs.desc.bsize < maxFile s.fs.desc) :
    Post (filsysBmap lbn true (s, l)) (fun _ _ => True) fun e _ => NotFar e := by
  have hio : NotFar .eio := nofun
  have hrest : ∀ (t : Mnt × Loc), (Small s.fs.desc t.2.ip.mode → lbn < s.fs.desc.ndaddr) →
      Post (bmapSlot s.fs.desc lbn true t.2.ip t) (fun _ _ => True) fun e _ => NotFar e := by
    intro t hm
    obtain ⟨slot, r, hfind, -⟩ := reached_below h hl hm
    unfold bmapSlot
    rw [hfind]
    dsimp only
    cases slotLevel s.fs.desc t.2.ip.mode slot with
    | none =>
      refine post_ite (fun _ => ?_) fun _ => trivial
      have hmod : ∀ g : Inode → Inode, Throws NotFar (modIp g) := fun _ _ => trivial
      refine throws_bind (throws_outside balloc_notFar) (fun nb => ?_) t
      exact throws_bind (hmod _) fun _ => throws_pure
    | some level => exact bmapIndFollow_notFar true slot _ t
  rw [filsysBmap_eq]
  refine post_bind (post_onlyIf (fun hc => ?_) fun hc => hrest (s, l) fun hs => ?_)
  · have hpromote : Post (promote (s, l)) (fun _ t => ¬ Small s.fs.desc t.2.ip.mode) fun e _ => NotFar e := by
      show Post ((up balloc >>= fun iblk =>
        up (failAs .eio (writeBlock iblk (promoteBuf s.fs.desc l.ip.addr s.fs.desc.ndaddr))) >>= fun _ =>
        modIp fun ip => promoted s.fs.desc ip iblk : MI Unit) (s, l)) _ _
      refine post_bind (post_outside ((balloc_notFar s).mono (fun b u _ => ?_) fun _ _ he => he))
      refine post_bind (post_outside (post_failAs ((post_true _).mono (fun _ v _ => ?_) fun _ _ _ => hio)))
      intro hs
      have hmode : (promoted s.fs.desc l.ip b).mode = l.ip.mode ||| s.fs.desc.ilargMask := rfl
      exact absurd hs.2 (by rw [hmode, has_or_self hc.1]; decide)
    exact hpromote.mono (fun _ t ht => hrest t fun hs => absurd hs ht) fun _ _ he => he
  · by_contra hlt
    exact hc ⟨hs.1, by simpa using hs.2, rfl, by omega⟩

/-! ## Reachable and safe -/

/-- A file that ends within the limit has a size its record holds. -/
theorem size_fits {d : Desc} (h : Format d) (hp : d.ops ≠ .pdp7) {size : Nat} (hle : size ≤ maxFile d) :
    size < 2 ^ sizeLen d := by
  have hlt := Undo.units_lt h.sizes hle
  unfold Undo.units Undo.sizeEnd at hlt
  rwa [if_neg hp, if_neg hp] at hlt

/-- On every mounted volume the block of a byte below the limit is found, and a file that ends there is
    recorded whole. -/
theorem max_file_is_reachable {a : OpenArgs} {s₀ s : Mnt} (hs : Solo s₀)
    (hopen : filsysOpenArch a s₀ = .ok () s) (hp : s.fs.desc.ops ≠ .pdp7)
    {off : Nat} (hoff : off < maxFile s.fs.desc) :
    (∀ t l, t.fs.desc = s.fs.desc → Post (filsysBmap (off / s.fs.desc.bsize) true (t, l)) (fun _ _ =>
      True) fun e _ => e ≠ .efbig) ∧
      (∀ mode, (Small s.fs.desc mode → off / s.fs.desc.bsize < s.fs.desc.ndaddr) →
        ∃ slot r, findSlot s.fs.desc mode (off / s.fs.desc.bsize) s.fs.desc.niaddr 0 0 = some (slot, r) ∧
          Resolved s.fs.desc mode (off / s.fs.desc.bsize) slot r ∧
          ∀ level, slotLevel s.fs.desc mode slot = some level →
            (∀ i ∈ levelIdx s.fs.desc.nindir level r, i < s.fs.desc.nindir) ∧
              (levelIdx s.fs.desc.nindir level r).foldl (fun v i => v * s.fs.desc.nindir + i) 0 = r) ∧
      off + 1 < 2 ^ sizeLen s.fs.desc := by
  have hfmt := format_opened hs hopen
  have hf := hfmt.formed
  have hl : off / s.fs.desc.bsize * s.fs.desc.bsize < maxFile s.fs.desc :=
    Nat.lt_of_le_of_lt (Nat.div_mul_le_self _ _) hoff
  refine ⟨fun t l ht => ?_, fun mode hm => ?_, size_fits hfmt hp hoff⟩
  · rw [← ht] at hf hl ⊢
    exact filsysBmap_notFar hf hl
  · obtain ⟨slot, r, hfind, hreached⟩ := reached_below hf hl hm
    refine ⟨slot, r, hfind, hreached, fun level hlev => ⟨levelIdx_lt hf.nindir_pos level r, ?_⟩⟩
    have hin := hreached.inside
    rw [hlev] at hin
    rw [levelIdx_digits]
    exact Nat.mod_eq_of_lt hin

/-- The last byte of the largest file on a small V10 volume of 4096-byte blocks. -/
theorem the_last_byte_below_the_limit_is_reachable :
    ∃ s, filsysOpenArch Alloc.bigmapArgs Alloc.bootFree = .ok () s ∧
    (∀ l, Post (filsysBmap (4294967294 / s.fs.desc.bsize) true (s, l)) (fun _ _ => True) fun e _ => e ≠
      .efbig) ∧
    4294967294 + 1 < 2 ^ sizeLen s.fs.desc := by
  have hopened : ∃ s, filsysOpenArch Alloc.bigmapArgs Alloc.bootFree = .ok () s ∧
    s.fs.desc.ops ≠ .pdp7 ∧ maxFile s.fs.desc = 4294967295 :=
    ⟨_, Alloc.bootFree_opens, by decide +kernel, by decide +kernel⟩
  obtain ⟨s, hopen, hp, hmax⟩ := hopened
  obtain ⟨hbmap, -, hsize⟩ := max_file_is_reachable (fun _ _ => rfl) hopen hp (show 4294967294 <
    maxFile s.fs.desc by omega)
  exact ⟨s, hopen, fun l => hbmap s l rfl, hsize⟩

end Filsys.Limits
