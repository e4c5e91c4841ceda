/-
  Filsys.Blockmap.Extent — an extent and the block map (filsys.c).

  `filsys_bmap_ino` answers a byte range with an image address, a length and a type. It looks
  up one logical block after another, by 32-bit numbers, and goes on while each is the next
  block of the image or another hole. The blocks it looks up are those of the map
  (`post_filsysBmap_reads`), whatever the inode holds.

  The bytes of an extent lie where it says, and a hole reads as zero, exactly where the
  extent is addressable (`extents_agree_with_the_map_iff`): the address is that of a block
  within the volume, so it is right on a volume at the start of its image that has bytes for
  units, and only for bytes whose logical block is a 32-bit number.
-/

import Filsys.Blockmap.Bytes
import Filsys.Limits.MaxFile
import Filsys.Names.Iter

namespace Filsys.Blockmap

open Filsys.Lib Filsys.Engine Filsys.Alloc Filsys.Check Filsys.Tree Filsys.Mount

/-! ## Reading the map of any inode -/

section Reading

variable {s : Mnt} (hs : Solo s) (hf : Formed s.fs.desc) (hv1 : s.fs.desc.ops = .v1 → s.fs.desc.bsize = 512)

include hs hf hv1

/-- A block that can be read has the entries of the image. -/
theorem post_readBlock_entries (b : Nat) : Post (readBlock b s)
    (fun buf t => (∃ k, t = { s with ios := k }) ∧ ∀ i, i < s.fs.desc.nindir →
      indGet s.fs.desc buf i = heap s b i) fun _ _ => True := by
  have hquiet := readBlock_peeks b s
  suffices hbuf : Post (readBlock b s) (fun buf _ => ∀ i, i < s.fs.desc.nindir →
    indGet s.fs.desc buf i = heap s b i) fun _ _ => True by
    refine (hbuf.and hquiet).mono ?_ fun _ _ _ => trivial
    intro buf t hr
    obtain ⟨h, ht⟩ := hr
    obtain ⟨k, -, rfl⟩ := ht hs
    exact ⟨⟨k, rfl⟩, h⟩
  have hbytes : s.fs.desc.ops ≠ .pdp7 → ∀ i, heap s b i = indGet s.fs.desc (blockOf s.fs s.img b) i :=
    fun hp i => if_neg hp
  have hv7 : s.fs.desc.ops ≠ .pdp7 → Post (v7fsReadBlock b s)
      (fun buf _ => ∀ i, i < s.fs.desc.nindir → indGet s.fs.desc buf i = heap s b i) fun _ _ => True := by
    intro hp
    refine post_bindFs (post_ite (fun _ => post_ioRead (fun _ _ i _ => ?_) fun _ => trivial) fun _ => trivial)
    rw [touch_solo hs, hbytes hp]
    rfl
  unfold readBlock
  apply post_bindFs
  cases hops : s.fs.desc.ops with
  | v1 =>
    refine post_bindFs (post_ite (fun _ => post_ioRead (fun _ _ i _ => ?_) fun _ => trivial) fun _ => trivial)
    rw [touch_solo hs, hbytes (by rw [hops]; decide)]
    unfold blockOf
    rw [hv1 hops]
    rfl
  | pdp7 =>
    refine post_bindFs (post_bind (post_failAs ?_))
    refine post_bindFs (post_ite
      (fun _ => post_bind (post_failAs (post_ioRead (fun _ _ i hi => ?_) fun _ => trivial))) fun _ =>
      trivial)
    have hi64 : i < 64 := by
      have := hf.slots
      rw [if_pos hops] at this
      have hn : s.fs.desc.nindir = 64 := congrArg Slots.nindir this
      omega
    have hheap : heap s b i = wordsOf s.fs s.img b i := if_pos hops
    rw [touch_solo hs, hheap]
    unfold indGet
    rw [hops]
    show (wordOps s.fs.desc).get ((wordOps s.fs.desc).putAll (wordsOf s.fs s.img b) 64 zeroBuf) i = _
    rw [WordCodec.get_putAll, if_pos hi64]
    exact Nat.mod_eq_of_lt (wordsOf_lt _ _ _ _)
  | v6 => exact hv7 (by rw [hops]; decide)
  | v7 => exact hv7 (by rw [hops]; decide)
  | bsd211 => exact hv7 (by rw [hops]; decide)

/-- Down from a block, each entry is the next block. -/
theorem post_indFollow_reads (idxs : List Nat) (hidx : ∀ i ∈ idxs, i < s.fs.desc.nindir)
    (hne : idxs ≠ []) {b : Nat} (h0 : b ≠ 0) (k : Nat) :
    Post (indFollow false idxs b { s with ios := k }) (fun r _ => r = walk (heap s) b idxs) fun _ _ =>
    True := by
  induction idxs generalizing b k with
  | nil => exact absurd rfl hne
  | cons i idxs ih =>
    refine post_bindFs (post_bind (post_failAs ?_))
    refine (post_readBlock_entries (s := { s with ios := k }) hs hf hv1 b).mono ?_ fun _ _ _ => trivial
    intro buf t h
    obtain ⟨⟨k', rfl⟩, hbuf⟩ := h
    have hent : indGet s.fs.desc buf i = heap s b i := hbuf i (hidx i List.mem_cons_self)
    have hwalk : walk (heap s) b (i :: idxs) = walk (heap s) (heap s b i) idxs := if_neg h0
    show Post ((if indGet s.fs.desc buf i = 0 then _ else _ : M Nat) { s with ios := k' }) _ _
    rw [hent, hwalk]
    apply post_ite
    · intro hz
      refine post_ite (fun hc => absurd hc (by decide)) fun _ => ?_
      rw [hz, walk_zero]
      rfl
    · intro hnz
      refine post_ite (fun hnil => ?_) fun hrest =>
        ih (fun j hj => hidx j (List.mem_cons_of_mem _ hj)) hrest hnz k'
      rw [hnil]
      rfl

/-- `filsys_bmap` without `create` answers what the map of the inode says, or fails. -/
theorem post_filsysBmap_reads (l : Loc) (lbn k : Nat) :
    Post (filsysBmap lbn false ({ s with ios := k }, l)) (fun r t => r = mapAt s l.ip lbn ∧ ∃ k',
      t = ({ s with ios := k' }, l)) fun _ _ => True := by
  have hquiet := filsysBmap_peeks lbn ({ s with ios := k }, l)
  suffices hval : Post (filsysBmap lbn false ({ s with ios := k }, l)) (fun r _ => r = mapAt s l.ip lbn)
    fun _ _ => True by
    refine (hval.and hquiet).mono ?_ fun _ _ _ => trivial
    intro r t hr
    obtain ⟨h, ht, hl⟩ := hr
    obtain ⟨k', -, ht⟩ := ht hs
    exact ⟨h, k', Prod.ext ht hl⟩
  rw [filsysBmap_eq]
  refine post_bind (post_onlyIf (fun hc => absurd hc.2.2.1 (by decide)) fun _ => ?_)
  show Post (bmapSlot s.fs.desc lbn false l.ip ({ s with ios := k }, l)) _ _
  unfold bmapSlot
  cases hfind : findSlot s.fs.desc l.ip.mode lbn s.fs.desc.niaddr 0 0 with
  | none => exact (mapAt_none (findSlot_none hfind)).symm
  | some q =>
    obtain ⟨slot, r⟩ := q
    have hpath := findSlot_path hfind
    dsimp only
    rw [mapAt_some hpath]
    cases hlev : slotLevel s.fs.desc l.ip.mode slot with
    | none => exact post_ite (fun hc => absurd hc.2 (by decide)) fun _ => rfl
    | some level =>
      show Post ((if l.ip.addr slot = 0 then if false then _ else pure 0
        else up (indFollow false _ (l.ip.addr slot)) : MI Nat)
        ({ s with ios := k }, l)) _ _
      refine post_ite ?_ fun h0 => post_outside ?_
      · intro h0
        show 0 = walk (heap s) (l.ip.addr slot) _
        rw [h0, walk_zero]
      · have hne : levelIdx s.fs.desc.nindir level r ≠ [] := by
          intro hnil
          have := levelIdx_length s.fs.desc.nindir level r
          rw [hnil] at this
          cases this
        exact post_indFollow_reads hs hf hv1 _ (fun i hi => levelIdx_lt hf.nindir_pos hi) hne h0 k

end Reading

/-! ## Block numbers -/

theorem num_lt32 {ds : List Nat} (hp : ds.Perm (List.range ds.length)) (hlen : ds.length ≤ 4) (b : Buf)
    (o : Nat) : num ds b o < 2 ^ 32 :=
  Nat.lt_of_lt_of_le (num_lt hp b o) (Nat.pow_le_pow_right (by decide : 0 < 256) hlen)

/-- An entry of an indirect block is a 32-bit number. -/
theorem heap_lt (s : Mnt) (b i : Nat) : heap s b i < 2 ^ 32 := by
  unfold heap entryAt
  split
  · exact Nat.lt_trans (wordsOf_lt _ _ _ _) (by decide)
  · rename_i hp
    unfold entryOf
    rw [Tree.indGet_eq hp]
    refine num_lt32 (perm_daddrSig _) ?_ _ _
    unfold daddrSig
    split <;> simp

theorem mapAt_lt {s : Mnt} {ip : Inode} (h : ∀ i, ip.addr i < 2 ^ 32) (lbn : Nat) :
    mapAt s ip lbn < 2 ^ 32 := by
  have hwalk : ∀ (idxs : List Nat) b, b < 2 ^ 32 → walk (heap s) b idxs < 2 ^ 32 := by
    intro idxs
    induction idxs with
    | nil => exact fun b hb => hb
    | cons i idxs ih =>
      intro b hb
      unfold walk
      split
      · decide
      · exact ih _ (heap_lt s b i)
  unfold mapAt
  split
  · decide
  · exact hwalk _ _ (h _)

/-- A slot is found for 32-bit numbers only. -/
theorem findSlot_some_lt {d : Desc} {mode lbn slot r : Nat} (todo i base : Nat)
    (h : findSlot d mode lbn todo i base = some (slot, r)) :
    lbn < 2 ^ 32 := by
  induction todo generalizing i base with
  | zero => cases h
  | succ todo ih =>
    rw [findSlot] at h
    split at h
    · rename_i hlt
      exact Nat.lt_trans hlt (Nat.mod_lt _ (by decide))
    · exact ih _ _ h

/-- A mapped block is not the last a 32-bit number can name. -/
theorem lt_of_mapAt {s : Mnt} {ip : Inode} (hf : Formed s.fs.desc) {lbn : Nat}
    (h : mapAt s ip lbn ≠ 0) : lbn + 1 < 2 ^ 32 := by
  have hsome : ∃ slot r, findSlot s.fs.desc ip.mode lbn s.fs.desc.niaddr 0 0 = some (slot, r) := by
    by_contra hnone
    refine h (mapAt_none (findSlot_none ?_))
    cases hfind : findSlot s.fs.desc ip.mode lbn s.fs.desc.niaddr 0 0 with
    | none => rfl
    | some q => exact absurd ⟨q.1, q.2, hfind⟩ hnone
  obtain ⟨slot, r, hfind⟩ := hsome
  have htotal := base_total hf ip.mode
  obtain ⟨-, hslot, hlbn, hr⟩ :=
    (findSlot_eq_some (d := s.fs.desc) (i := 0) (by rwa [Nat.zero_add]) (Nat.zero_le _)
    (findSlot_some_lt _ _ _ hfind)).mp hfind
  have hnext : base s.fs.desc ip.mode (slot + 1) = base s.fs.desc ip.mode slot +
    span s.fs.desc ip.mode slot := rfl
  have hle := base_mono s.fs.desc ip.mode (show slot + 1 ≤ s.fs.desc.niaddr by omega)
  omega

/-- The addresses of an inode that has been read are 32-bit numbers. -/
theorem readInode_addr_lt (ino : Nat) (s : Mnt) :
    Post (readInode ino s) (fun ip _ => ∀ i, ip.addr i < 2 ^ 32) fun _ _ => True := by
  have h16 : ∀ (bo : ByteOrder) (b : Buf) (o : Nat), bo.get16 b o < 2 ^ 32 :=
    fun bo b o => num_lt32 (ByteOrder.perm_sig16 bo) (by simp) b o
  have hite : ∀ {c : Prop} [Decidable c] {n : Nat}, n < 2 ^ 32 → (if c then n else 0) < 2 ^ 32 := by
    intro c _ n hn
    split
    · exact hn
    · decide
  have hv7 : Post (v7fsReadInode ino s) (fun ip _ => ∀ i, ip.addr i < 2 ^ 32) fun _ _ => True := by
    refine post_bindFs (post_ite (fun _ => trivial) fun _ => post_ite (fun _ => trivial) fun _ => ?_)
    refine post_bind (post_failAs ((post_true _).mono (fun raw _ _ i => ?_) fun _ _ _ => trivial))
    unfold decodeInode
    split
    · exact hite (h16 _ _ _)
    · refine hite (num_lt32 (perm_addrSig _) ?_ _ _)
      unfold addrSig
      split <;> simp
  unfold readInode
  rw [bindFs_run]
  cases s.fs.desc.ops with
  | v1 =>
    refine post_bindFs (post_ite (fun _ => trivial) fun _ =>
      post_bind (post_failAs ((post_true _).mono (fun raw _ _ i => ?_) fun _ _ _ => trivial)))
    exact hite (h16 .le _ _)
  | pdp7 =>
    refine post_ite (fun _ => trivial) fun _ => post_bind (post_failAs ?_)
    have hwords : Post (readWords (p7Itod ino) s) (fun words _ => ∀ i, words i < 2 ^ 32) fun _ _ => True := by
      refine post_bindFs (post_ite (fun _ => ?_) fun _ => trivial)
      refine post_bind (post_failAs ((post_true _).mono (fun raw _ _ i => ?_) fun _ _ _ => trivial))
      exact Nat.lt_trans (WordCodec.get_lt _ _ _) (by decide)
    refine hwords.mono (fun words t hwords => ?_) fun _ _ _ => trivial
    have haddr : ∀ i, (p7DecodeInode ino fun i => words (p7Itoo ino + i)).addr i < 2 ^ 32 :=
      fun i => hite (hwords _)
    refine post_ite (fun _ => post_bind ((post_true _).mono ?_ fun _ _ _ => trivial)) fun _ => haddr
    rintro ⟨rc, l⟩ u -
    cases rc with
    | ok lastw =>
      intro i
      show (if lastw % 512 = 0 then _ else _ : Inode).addr i < 2 ^ 32
      split
      · exact haddr i
      · exact haddr i
    | error e => exact haddr
  | v6 => exact hv7
  | v7 => exact hv7
  | bsd211 => exact hv7

/-! ## Looking up one block after another -/

/-- The blocks of `n` logical blocks, looked up in turn. -/
def lookUps : Nat → Nat → MI (List Nat)
  | 0, _ => return []
  | n + 1, lbn => do
    let b ← filsysBmap lbn false
    let rest ← lookUps n ((lbn + 1) % 2 ^ 32)
    return b :: rest

/-- One more lookup. -/
theorem lookUps_snoc {n lbn : Nat} (hl : lbn < 2 ^ 32) {σ τ : Mnt × Loc} {bs : List Nat}
    (h : lookUps n lbn σ = .ok bs τ) :
    lookUps (n + 1) lbn σ = (filsysBmap ((lbn + n) % 2 ^ 32) false >>= fun b =>
      pure (bs ++ [b]) : MI (List Nat)) τ := by
  induction n generalizing lbn σ bs with
  | zero =>
    cases h
    rw [show (lbn + 0) % 2 ^ 32 = lbn from Nat.mod_eq_of_lt hl]
    rfl
  | succ n ih =>
    have hstep : lookUps (n + 1) lbn σ =
      (filsysBmap lbn false >>= fun b => lookUps n ((lbn + 1) % 2 ^ 32) >>= fun rest =>
      pure (b :: rest)) σ := rfl
    have hgoal : lookUps (n + 1 + 1) lbn σ =
        (filsysBmap lbn false >>= fun b => lookUps (n + 1) ((lbn + 1) % 2 ^ 32) >>= fun rest =>
          pure (b :: rest)) σ := rfl
    rw [hstep] at h
    rw [hgoal]
    cases hb : filsysBmap lbn false σ with
    | error e u => rw [bind_eq_of_error hb] at h; cases h
    | ok b u =>
      rw [bind_eq_of_ok hb] at h ⊢
      cases hr : lookUps n ((lbn + 1) % 2 ^ 32) u with
      | error e v => rw [bind_eq_of_error hr] at h; cases h
      | ok rest v =>
        rw [bind_eq_of_ok hr] at h
        cases h
        have hih := ih (Nat.mod_lt _ (by decide)) hr
        have hnum : ((lbn + 1) % 2 ^ 32 + n) % 2 ^ 32 = (lbn + (n + 1)) % 2 ^ 32 := by omega
        rw [hnum] at hih
        cases hn : filsysBmap ((lbn + (n + 1)) % 2 ^ 32) false τ with
        | error e w =>
          rw [bind_eq_of_error hn] at hih ⊢
          exact bind_eq_of_error hih
        | ok c w =>
          rw [bind_eq_of_ok hn] at hih ⊢
          exact bind_eq_of_ok hih

/-- Fewer lookups find the first of the blocks. -/
theorem lookUps_take {n m lbn : Nat} {σ τ : Mnt × Loc} {cs : List Nat} (h : lookUps (n + m) lbn σ = .ok cs τ) :
    ∃ u, lookUps n lbn σ = .ok (cs.take n) u := by
  induction n generalizing lbn σ cs with
  | zero => exact ⟨σ, by rw [List.take_zero]; rfl⟩
  | succ n ih =>
    have hstep : ∀ j, lookUps (j + 1) lbn σ =
      (filsysBmap lbn false >>= fun b => lookUps j ((lbn + 1) % 2 ^ 32) >>=
      fun rest => pure (b :: rest)) σ :=
      fun _ => rfl
    rw [Nat.succ_add, hstep] at h
    rw [hstep]
    cases hb : filsysBmap lbn false σ with
    | error e u => rw [bind_eq_of_error hb] at h; cases h
    | ok b u =>
      rw [bind_eq_of_ok hb] at h ⊢
      cases hr : lookUps (n + m) ((lbn + 1) % 2 ^ 32) u with
      | error e v => rw [bind_eq_of_error hr] at h; cases h
      | ok rest v =>
        rw [bind_eq_of_ok hr] at h
        cases h
        obtain ⟨w, hw⟩ := ih hr
        exact ⟨w, bind_eq_of_ok hw⟩

/-- The file's run of blocks reaches the last number a block can have, a hole is found behind it, and
    the range goes on there. -/
def Overruns (σ : Mnt × Loc) (off len : Nat) : Prop :=
  let bsize := σ.1.fs.desc.bsize
  let lbn := off / bsize % 2 ^ 32
  let b := mapAt σ.1 σ.2.ip lbn
  (2 ^ 32 - b) * bsize < off % bsize + len ∧ ∃ τ, lookUps (2 ^ 32 - b + 1) lbn σ =
    .ok (List.range' b (2 ^ 32 - b) ++ [0]) τ

/-! ## The loop -/

/-- A length that has grown by whole blocks. -/
theorem grown_succ {B boff len m plen : Nat} (hboff : boff < B) (hm : 1 ≤ m)
    (hwrap : (m + 1) * B < 2 ^ 64) (hplen : plen = min len (m * B - boff))
    (hlt : plen < len) : (plen + (if len < (plen + B) % 2 ^ 64 then len - plen else B)) % 2 ^ 64 =
    min len ((m + 1) * B - boff) := by
  have hmB : B ≤ m * B := Nat.le_mul_of_pos_left _ hm
  have hsucc : (m + 1) * B = m * B + B := Nat.succ_mul _ _
  rw [hsucc] at hwrap ⊢
  generalize m * B = x at *
  split <;> omega

section Loop

variable {s : Mnt} (hs : Solo s) (hf : Formed s.fs.desc)
    (hv1 : s.fs.desc.ops = .v1 → s.fs.desc.bsize = 512) {l : Loc} (haddr : ∀ i, l.ip.addr i < 2 ^ 32)

include hs hf hv1

/-- One round of the loop. -/
theorem post_extendExtent_round {len rounds cur expect plen k : Nat} {Q : Option Nat → Mnt × Loc → Prop}
    (hdone : len ≤ plen → Q (some plen) ({ s with ios := k }, l))
    (hfail : ∀ e t, plen < len → filsysBmap cur false ({ s with ios := k }, l) = .error e t → Q (some plen) t)
    (hstop : ∀ k', plen < len → filsysBmap cur false ({ s with ios := k },
      l) = .ok (mapAt s l.ip cur) ({ s with ios := k' }, l) → mapAt s l.ip cur ≠ expect →
      Q (some plen) ({ s with ios := k' }, l))
    (hmore : ∀ k', plen < len → filsysBmap cur false ({ s with ios := k },
      l) = .ok (mapAt s l.ip cur) ({ s with ios := k' }, l) → mapAt s l.ip cur = expect →
      Post (extendExtent len rounds ((cur + 1) % 2 ^ 32) (expected expect)
        ((plen + (if len < (plen + s.fs.desc.bsize) % 2 ^ 64 then len - plen else s.fs.desc.bsize)) %
          2 ^ 64) ({ s with ios := k' }, l)) Q fun _ _ => False) :
    Post (extendExtent len (rounds + 1) cur expect plen ({ s with ios := k }, l)) Q fun _ _ => False := by
  refine post_ite hdone fun hlt => ?_
  have hlt : plen < len := by omega
  show Post ((attempt (filsysBmap cur false) >>= fun r => _ : MI (Option Nat)) ({ s with ios := k }, l)) _ _
  refine post_bind (post_attempt ?_)
  have hread := post_filsysBmap_reads hs hf hv1 l cur k
  cases hrun : filsysBmap cur false ({ s with ios := k }, l) with
  | error e t => exact hfail e t hlt hrun
  | ok nb t =>
    rw [hrun] at hread
    obtain ⟨rfl, k', rfl⟩ := hread
    refine post_ite (fun hne => hstop k' hlt hrun hne) fun heq => ?_
    have heq : mapAt s l.ip cur = expect := Decidable.not_not.mp heq
    have := hmore k' hlt hrun heq
    rw [← heq] at this
    exact this

omit hs hv1 in
theorem bsize_le : s.fs.desc.bsize ≤ 8192 := by
  have ht := hf.table
  unfold slotsOf pdp7Slots byteSlots at ht
  simp only [List.mem_cons, Slots.mk.injEq, List.not_mem_nil, or_false] at ht
  omega

/-- Past the last number a block can have the loop goes over holes, and stops when it is back at the
    first block. -/
theorem post_extendExtent_past {lbn boff : Nat} (len : Nat) (hlbn : lbn < 2 ^ 32)
    (hmap : mapAt s l.ip lbn ≠ 0) (hboff : boff < s.fs.desc.bsize) (rounds : Nat) :
    ∀ {m plen k : Nat}, 1 ≤ m → m ≤ 2 ^ 32 → plen = min len (m * s.fs.desc.bsize - boff) →
      Post (extendExtent len rounds ((lbn + m) % 2 ^ 32) 0 plen ({ s with ios := k }, l))
        (fun r _ => ∀ v, r = some v → v ≤ len ∧ plen ≤ v) fun _ _ => False := by
  induction rounds with
  | zero => exact fun _ _ _ v hv => by cases hv
  | succ rounds ih =>
    intro m plen k hm hm' hplen
    have hstay : ∀ v, some plen = some v → v ≤ len ∧ plen ≤ v := by
      intro v hv
      cases hv
      omega
    refine post_extendExtent_round hs hf hv1 (fun _ => hstay) (fun _ _ _ _ => hstay)
      (fun _ _ _ _ => hstay) fun k' hlt _ hzero => ?_
    have hm2 : m < 2 ^ 32 := by
      rcases Nat.lt_or_eq_of_le hm' with h | rfl
      · exact h
      · rw [Nat.add_mod_right, Nat.mod_eq_of_lt hlbn] at hzero
        exact absurd hzero hmap
    have hwrap : (m + 1) * s.fs.desc.bsize < 2 ^ 64 :=
      Nat.lt_of_le_of_lt (Nat.mul_le_mul (show m + 1 ≤ 2 ^ 32 by omega) (bsize_le hf)) (by decide)
    rw [grown_succ hboff hm hwrap hplen hlt, show ((lbn + m) % 2 ^ 32 + 1) % 2 ^ 32 =
      (lbn + (m + 1)) % 2 ^ 32 by omega]
    refine (ih (m := m + 1) (by omega) (by omega) rfl).mono ?_ fun _ _ h => h
    intro r u hr v hv
    obtain ⟨h1, h2⟩ := hr v hv
    have hsucc : (m + 1) * s.fs.desc.bsize = m * s.fs.desc.bsize + s.fs.desc.bsize := Nat.succ_mul _ _
    exact ⟨h1, by omega⟩

end Loop

/-- The blocks of a run, and what is looked up behind it. -/
theorem take_run {b m : Nat} (hb : b ≠ 0) (hm : 1 ≤ m) (hle : b + m ≤ 2 ^ 32) :
    (List.range' b (2 ^ 32 - b) ++ [0]).take (m + 1) = List.range' b m ++ [expected (b + m - 1)] := by
  have hexp : expected (b + m - 1) = (b + m) % 2 ^ 32 := by
    unfold expected
    rw [if_neg (by omega), show b + m - 1 + 1 = b + m by omega]
  rw [hexp]
  rcases Nat.lt_or_eq_of_le hle with hlt | heq
  · rw [Nat.mod_eq_of_lt hlt, ← List.range'_1_concat, show 2 ^ 32 - b =
      (m + 1) + (2 ^ 32 - b - (m + 1)) by omega, ← List.range'_append_1,
      List.append_assoc]
    exact List.take_left' List.length_range'
  · rw [List.take_of_length_le
      (by rw [List.length_append, List.length_range', List.length_singleton]; omega), heq, Nat.mod_self,
      show 2 ^ 32 - b = m by omega]

/-- How long a run of mapped blocks may have got. -/
structure RunEnd (σ : Mnt × Loc) (off len v : Nat) : Prop where
  inside : v ≤ len
  first : min len (σ.1.fs.desc.bsize - off % σ.1.fs.desc.bsize) ≤ v
  /-- The blocks of the run are consecutive, or a hole is among them. -/
  run : (¬ Overruns σ off len ∧ ∃ m, v ≤ m * σ.1.fs.desc.bsize - off % σ.1.fs.desc.bsize ∧
      ∀ i, i < m → mapAt σ.1 σ.2.ip (off / σ.1.fs.desc.bsize % 2 ^ 32 + i) = mapAt σ.1 σ.2.ip (off /
        σ.1.fs.desc.bsize % 2 ^ 32) + i) ∨
    (Overruns σ off len ∧ ∃ m, 1 ≤ m ∧ mapAt σ.1 σ.2.ip (off / σ.1.fs.desc.bsize % 2 ^ 32 + m) = 0 ∧
      m * σ.1.fs.desc.bsize - off % σ.1.fs.desc.bsize < v)

section Run

variable {s : Mnt} (hs : Solo s) (hf : Formed s.fs.desc)
    (hv1 : s.fs.desc.ops = .v1 → s.fs.desc.bsize = 512) {l : Loc} (haddr : ∀ i, l.ip.addr i < 2 ^ 32)
  {off lbn b : Nat} (len : Nat) (hlbn : off / s.fs.desc.bsize % 2 ^ 32 = lbn)
  (hb : mapAt s l.ip lbn = b) (hb0 : b ≠ 0)

include hs hf hv1 haddr hlbn hb hb0

theorem post_extendExtent_run (rounds : Nat) :
    ∀ {m plen k : Nat}, 1 ≤ m → (∀ i, i < m → mapAt s l.ip (lbn + i) = b + i) →
    lookUps m lbn (s, l) = .ok (List.range' b m) ({ s with ios := k }, l) →
    plen = min len (m * s.fs.desc.bsize - off % s.fs.desc.bsize) →
      Post (extendExtent len rounds (lbn + m) (expected (b + m - 1)) plen ({ s with ios := k }, l))
        (fun r _ => ∀ v, r = some v → RunEnd (s, l) off len v) fun _ _ => False := by
  induction rounds with
  | zero => exact fun _ _ _ _ v hv => by cases hv
  | succ rounds ih =>
    intro m plen k hm hrun hlook hplen
    have hlast := hrun (m - 1) (by omega)
    have hlt32 := mapAt_lt (s := s) haddr (lbn + (m - 1))
    rw [hlast] at hlt32
    have hmapped : mapAt s l.ip (lbn + (m - 1)) ≠ 0 := by rw [hlast]; omega
    have hnext := lt_of_mapAt hf hmapped
    have hboff : off % s.fs.desc.bsize < s.fs.desc.bsize := Nat.mod_lt _ hf.bsize_pos
    have hone : 1 * s.fs.desc.bsize ≤ m * s.fs.desc.bsize := Nat.mul_le_mul_right _ hm
    have hfirst : ∀ n, m ≤ n →
      min len (s.fs.desc.bsize - off % s.fs.desc.bsize) ≤
      min len (n * s.fs.desc.bsize - off % s.fs.desc.bsize) := by
      intro n hn
      have := Nat.mul_le_mul_right s.fs.desc.bsize hn
      omega
    -- what is looked up after the run
    have hsnoc := lookUps_snoc (n := m) (show lbn < 2 ^ 32 by omega) hlook
    rw [Nat.mod_eq_of_lt (show lbn + m < 2 ^ 32 by omega)] at hsnoc
    have hover : Overruns (s, l) off len → ∃ τ, lookUps (m + 1) lbn (s, l) =
      .ok (List.range' b m ++ [expected (b + m - 1)]) τ := by
      rintro ⟨-, τ, hτ⟩
      have hlk : lookUps (2 ^ 32 - b + 1) lbn (s, l) = .ok (List.range' b (2 ^ 32 - b) ++ [0]) τ := by
        rw [← hb, ← hlbn]
        exact hτ
      rw [show 2 ^ 32 - b + 1 = (m + 1) + (2 ^ 32 - b - m) by omega] at hlk
      obtain ⟨u, hu⟩ := lookUps_take hlk
      rw [take_run hb0 hm (by omega)] at hu
      exact ⟨u, hu⟩
    have hstay : ¬ Overruns (s, l) off len → ∀ v, some plen = some v → RunEnd (s, l) off len v := by
      intro hno v hv
      cases hv
      refine ⟨by omega, hplen ▸ hfirst m (Nat.le_refl m), .inl ⟨hno, m, ?_, ?_⟩⟩
      · show plen ≤ m * s.fs.desc.bsize - off % s.fs.desc.bsize
        omega
      · intro i hi
        show mapAt s l.ip (off / s.fs.desc.bsize % 2 ^ 32 + i) =
          mapAt s l.ip (off / s.fs.desc.bsize % 2 ^ 32) + i
        rw [hlbn, hb]
        exact hrun i hi
    refine post_extendExtent_round hs hf hv1 (fun hdone => hstay ?_) (fun e t hlt hbad => hstay ?_)
      (fun k' hlt hok hne => hstay ?_) ?_
    · rintro ⟨hroom, -⟩
      have hroom : (2 ^ 32 - b) * s.fs.desc.bsize < off % s.fs.desc.bsize + len := by
        rw [← hb, ← hlbn]
        exact hroom
      have := Nat.mul_le_mul_right s.fs.desc.bsize (show m ≤ 2 ^ 32 - b by omega)
      omega
    · intro ho
      obtain ⟨τ, hτ⟩ := hover ho
      rw [hsnoc, bind_eq_of_error hbad] at hτ
      cases hτ
    · intro ho
      obtain ⟨τ, hτ⟩ := hover ho
      rw [hsnoc, bind_eq_of_ok hok] at hτ
      obtain ⟨heq, -⟩ := EStateM.Result.ok.inj hτ
      exact hne (List.cons.inj (List.append_cancel_left heq)).1
    · intro k' hlt hok heq
      have hmul : (m + 1) * s.fs.desc.bsize ≤ 2 ^ 32 * 8192 := Nat.mul_le_mul (by omega) (bsize_le hf)
      have hgrown := grown_succ hboff hm (by omega) hplen hlt
      have hsucc : (m + 1) * s.fs.desc.bsize = m * s.fs.desc.bsize + s.fs.desc.bsize := Nat.succ_mul _ _
      have hexp : expected (b + m - 1) = (b + m) % 2 ^ 32 := by
        unfold expected
        rw [if_neg (by omega), show b + m - 1 + 1 = b + m by omega]
      rw [hgrown]
      rw [bind_eq_of_ok hok] at hsnoc
      rcases Nat.lt_or_ge (b + m) (2 ^ 32) with hlt32' | hge
      · -- the next block of the run
        rw [hexp, Nat.mod_eq_of_lt hlt32'] at heq ⊢
        have hmapped : mapAt s l.ip (lbn + m) ≠ 0 := by rw [heq]; omega
        have hfar := lt_of_mapAt hf hmapped
        rw [Nat.mod_eq_of_lt hfar]
        refine ih (m := m + 1) (by omega) ?_ ?_ rfl
        · intro i hi
          rcases Nat.lt_or_eq_of_le (Nat.le_of_lt_succ hi) with h | rfl
          · exact hrun i h
          · exact heq
        · rw [hsnoc, heq, List.range'_1_concat]
          rfl
      · -- the number after the last is taken for a hole
        have hN : 2 ^ 32 - b = m := by omega
        rw [hexp, show b + m = 2 ^ 32 by omega, Nat.mod_self] at heq ⊢
        have hroom : m * s.fs.desc.bsize - off % s.fs.desc.bsize < len := by omega
        have hpast := post_extendExtent_past hs hf hv1 (l := l) len (show lbn < 2 ^ 32 by omega)
          (by rw [hb]; exact hb0) hboff rounds
          (m := m + 1) (k := k') (by omega) (by omega) rfl
        refine hpast.mono (fun r _ hr v hv => ?_) fun _ _ h => h
        obtain ⟨h1, h2⟩ := hr v hv
        refine ⟨h1, Nat.le_trans (hfirst (m + 1) (by omega)) h2,
          .inr ⟨⟨?_, ({ s with ios := k' }, l), ?_⟩, m, hm, ?_, ?_⟩⟩
        · show (2 ^ 32 - mapAt s l.ip (off / s.fs.desc.bsize % 2 ^ 32)) * s.fs.desc.bsize <
            off % s.fs.desc.bsize + len
          rw [hlbn, hb, hN]
          omega
        · show lookUps (2 ^ 32 - mapAt s l.ip (off / s.fs.desc.bsize % 2 ^ 32) + 1) (off /
            s.fs.desc.bsize % 2 ^ 32) (s, l) =
            .ok (List.range' (mapAt s l.ip (off / s.fs.desc.bsize % 2 ^ 32))
              (2 ^ 32 - mapAt s l.ip (off / s.fs.desc.bsize % 2 ^ 32)) ++ [0]) _
          rw [hlbn, hb, hN, hsnoc, heq]
          rfl
        · show mapAt s l.ip (off / s.fs.desc.bsize % 2 ^ 32 + m) = 0
          rw [hlbn]
          exact heq
        · show m * s.fs.desc.bsize - off % s.fs.desc.bsize < v
          omega

end Run

/-- A run of holes, by whatever numbers it is looked up. -/
theorem post_extendExtent_hole {s : Mnt} (hs : Solo s) (hf : Formed s.fs.desc)
    (hv1 : s.fs.desc.ops = .v1 → s.fs.desc.bsize = 512) {l : Loc}
    {lbn boff : Nat} (len rounds : Nat) :
    ∀ {m plen k : Nat}, 1 ≤ m → (∀ i, i < m → mapAt s l.ip ((lbn + i) % 2 ^ 32) = 0) → plen ≤ len →
    plen ≤ m * s.fs.desc.bsize - boff →
      boff < s.fs.desc.bsize →
      Post (extendExtent len rounds ((lbn + m) % 2 ^ 32) 0 plen ({ s with ios := k }, l))
        (fun r _ => ∀ v, r = some v → v ≤ len ∧ ∃ m, v ≤ m * s.fs.desc.bsize - boff ∧ ∀ i, i < m →
          mapAt s l.ip ((lbn + i) % 2 ^ 32) = 0)
        fun _ _ => False := by
  induction rounds with
  | zero => exact fun _ _ _ _ _ v hv => by cases hv
  | succ rounds ih =>
    intro m plen k hm hholes hle hplen hboff
    have hstay : ∀ v, some plen = some v → v ≤ len ∧ ∃ m, v ≤ m * s.fs.desc.bsize - boff ∧ ∀ i, i < m →
      mapAt s l.ip ((lbn + i) % 2 ^ 32) = 0 := by
      intro v hv
      cases hv
      exact ⟨hle, m, hplen, hholes⟩
    refine post_extendExtent_round hs hf hv1 (fun _ => hstay) (fun _ _ _ _ => hstay)
      (fun _ _ _ _ => hstay) fun k' hlt _ hzero => ?_
    rw [show ((lbn + m) % 2 ^ 32 + 1) % 2 ^ 32 = (lbn + (m + 1)) % 2 ^ 32 by omega]
    have hsucc : (m + 1) * s.fs.desc.bsize = m * s.fs.desc.bsize + s.fs.desc.bsize := Nat.succ_mul _ _
    have hone : 1 * s.fs.desc.bsize ≤ m * s.fs.desc.bsize := Nat.mul_le_mul_right _ hm
    refine ih (m := m + 1) (by omega) ?_ ?_ ?_ hboff
    · intro i hi
      rcases Nat.lt_or_eq_of_le (Nat.le_of_lt_succ hi) with h | rfl
      · exact hholes i h
      · exact hzero
    · split <;> omega
    · rw [hsucc]
      generalize m * s.fs.desc.bsize = x at *
      split <;> omega

/-! ## Where a byte lies -/

/-- Byte `o` of block `b` lies at `a` of the image: whatever the image holds, the block's byte is the
    image's. -/
def LiesAt (s : Mnt) (b o a : Nat) : Prop :=
  ∀ img, byteIn s.fs.desc (contents { s with img := img } b) o = img a

/-- A byte lies at its block's place in the image, except on the PDP-7, where a character is a part of a
    word. -/
theorem liesAt_iff {s : Mnt} {b o a : Nat} (ho : o < s.fs.desc.bsize) :
    LiesAt s b o a ↔ s.fs.desc.ops ≠ .pdp7 ∧ a = s.fs.base + b * s.fs.desc.bsize + o := by
  have hbyte : s.fs.desc.ops ≠ .pdp7 → ∀ img, byteIn s.fs.desc (contents { s with img := img } b) o =
    img (s.fs.base + b * s.fs.desc.bsize + o) := by
    intro hp img
    unfold byteIn contents
    rw [if_neg hp, if_neg hp, UInt8.ofNat_toNat]
    exact window_inside ho
  constructor
  · intro h
    have hp : s.fs.desc.ops ≠ .pdp7 := by
      intro hp
      have hbyte : byteIn s.fs.desc (contents { s with img := fun _ => 255 } b) o = 255 := h _
      unfold byteIn at hbyte
      rw [if_pos hp] at hbyte
      have hnat := congrArg UInt8.toNat hbyte
      rw [UInt8.toNat_ofNat'] at hnat
      split at hnat <;> (simp at hnat; omega)
    refine ⟨hp, ?_⟩
    have h1 := (hbyte hp fun i => if i = s.fs.base + b * s.fs.desc.bsize + o then 1 else 0).symm.trans (h _)
    simp only [if_true] at h1
    by_contra hne
    rw [if_neg hne] at h1
    cases h1
  · intro hr img
    obtain ⟨hp, rfl⟩ := hr
    exact hbyte hp img

/-- The bytes of an extent are where it says. -/
structure Agrees (s : Mnt) (ip : Inode) (off len : Nat) (x : Extent) : Prop where
  plen : x.plen ≤ len
  bytes : ∀ p, off ≤ p → p < off + x.plen →
    if x.mapped then
      mapAt s ip (p / s.fs.desc.bsize) ≠ 0 ∧
        LiesAt s (mapAt s ip (p / s.fs.desc.bsize)) (p % s.fs.desc.bsize) (x.paddr + (p - off))
    else byteAt s ip p = 0

theorem agrees_read {s : Mnt} (k : Nat) {ip : Inode} {off len : Nat} {x : Extent} :
    Agrees { s with ios := k } ip off len x ↔ Agrees s ip off len x :=
  ⟨fun h => ⟨h.plen, h.bytes⟩, fun h => ⟨h.plen, h.bytes⟩⟩

/-- The range is empty or starts in a hole; or the volume starts at the image's first byte and has bytes
    for units, the logical block is a 32-bit number, and no hole is taken for the block after the last.
    -/
def Addressable (σ : Mnt × Loc) (off len : Nat) : Prop :=
  len = 0 ∨ mapAt σ.1 σ.2.ip (off / σ.1.fs.desc.bsize % 2 ^ 32) = 0 ∨
    (σ.1.fs.desc.ops ≠ .pdp7 ∧ σ.1.fs.base = 0 ∧ off / σ.1.fs.desc.bsize < 2 ^ 32 ∧ ¬ Overruns σ off len)

section Extents

variable {s : Mnt} (hf : Formed s.fs.desc) {l : Loc} {off len v : Nat}

include hf

/-- In a hole nothing is wrong. -/
theorem agrees_hole (hle : v ≤ len) {m : Nat} (hv : v ≤ m * s.fs.desc.bsize - off % s.fs.desc.bsize)
    (hholes : ∀ i, i < m → mapAt s l.ip ((off / s.fs.desc.bsize % 2 ^ 32 + i) % 2 ^ 32) = 0) (paddr : Nat) :
    Agrees s l.ip off len ⟨paddr, v, false⟩ := by
  refine ⟨hle, fun p hlo hhi => ?_⟩
  rw [if_neg Bool.false_ne_true]
  apply byteAt_hole
  have hp : p / s.fs.desc.bsize < off / s.fs.desc.bsize + m := by
    refine (Nat.div_lt_iff_lt_mul hf.bsize_pos).mpr ?_
    have hdiv := Nat.div_add_mod' off s.fs.desc.bsize
    have : p < off + v := hhi
    rw [Nat.add_mul]
    omega
  have hge : off / s.fs.desc.bsize ≤ p / s.fs.desc.bsize := Nat.div_le_div_right hlo
  -- a mapped block has a 32-bit number, and that is the one that was looked up
  by_contra h0
  have hlt := lt_of_mapAt hf h0
  have := hholes (p / s.fs.desc.bsize - off / s.fs.desc.bsize) (by omega)
  rw [Nat.mod_eq_of_lt (show off / s.fs.desc.bsize < 2 ^ 32 by omega), Nat.add_sub_cancel' hge,
    Nat.mod_eq_of_lt (by omega)] at this
  exact h0 this

/-- A run of mapped blocks is where the extent says exactly where it is addressable. -/
theorem agrees_run (hlen : len ≠ 0) (hend : RunEnd (s, l) off len v)
    (hb0 : mapAt s l.ip (off / s.fs.desc.bsize % 2 ^ 32) ≠ 0) :
    Agrees s l.ip off len ⟨mapAt s l.ip (off / s.fs.desc.bsize % 2 ^ 32) * s.fs.desc.bsize +
      off % s.fs.desc.bsize, v, true⟩ ↔
      s.fs.desc.ops ≠ .pdp7 ∧ s.fs.base = 0 ∧ off / s.fs.desc.bsize < 2 ^ 32 ∧ ¬ Overruns (s, l) off len := by
  have hB := hf.bsize_pos
  have hboff : off % s.fs.desc.bsize < s.fs.desc.bsize := Nat.mod_lt _ hB
  have hdiv := Nat.div_add_mod' off s.fs.desc.bsize
  have hfirst : min len (s.fs.desc.bsize - off % s.fs.desc.bsize) ≤ v := hend.first
  constructor
  · intro hag
    have hat : ∀ p, off ≤ p → p < off + v → mapAt s l.ip (p / s.fs.desc.bsize) ≠ 0 ∧
      LiesAt s (mapAt s l.ip (p / s.fs.desc.bsize)) (p % s.fs.desc.bsize)
        (mapAt s l.ip (off / s.fs.desc.bsize % 2 ^ 32) * s.fs.desc.bsize +
          off % s.fs.desc.bsize + (p - off)) := by
      intro p hlo hhi
      have := hag.bytes p hlo hhi
      rwa [if_pos rfl] at this
    obtain ⟨hmapped, hlies⟩ := hat off (Nat.le_refl _) (by omega)
    have hsmall := lt_of_mapAt hf hmapped
    have hmod : off / s.fs.desc.bsize % 2 ^ 32 = off / s.fs.desc.bsize := Nat.mod_eq_of_lt (by omega)
    obtain ⟨hp, haddr⟩ := (liesAt_iff hboff).mp hlies
    rw [hmod] at haddr
    refine ⟨hp, by omega, by omega, fun hover => ?_⟩
    rcases hend.run with ⟨hno, -⟩ | ⟨-, m, hm, hz, hlt⟩
    · exact hno hover
    · -- the byte behind the run
      have hlt : m * s.fs.desc.bsize - off % s.fs.desc.bsize < v := hlt
      have hz : mapAt s l.ip (off / s.fs.desc.bsize % 2 ^ 32 + m) = 0 := hz
      have hone : 1 * s.fs.desc.bsize ≤ m * s.fs.desc.bsize := Nat.mul_le_mul_right _ hm
      obtain ⟨hne, -⟩ := hat (off + (m * s.fs.desc.bsize - off % s.fs.desc.bsize)) (by omega) (by omega)
      have heq : off + (m * s.fs.desc.bsize - off % s.fs.desc.bsize) =
        (off / s.fs.desc.bsize + m) * s.fs.desc.bsize := by
        rw [Nat.add_mul]
        omega
      rw [heq, Nat.mul_div_cancel _ hB] at hne
      rw [hmod] at hz
      exact hne hz
  · intro h
    obtain ⟨hp, hbase, hsmall, hno⟩ := h
    have hmod : off / s.fs.desc.bsize % 2 ^ 32 = off / s.fs.desc.bsize := Nat.mod_eq_of_lt hsmall
    rcases hend.run with ⟨-, m, hv, hrun⟩ | ⟨hover, -⟩
    · have hv : v ≤ m * s.fs.desc.bsize - off % s.fs.desc.bsize := hv
      have hrun : ∀ i, i < m → mapAt s l.ip (off / s.fs.desc.bsize + i) = mapAt s l.ip (off /
        s.fs.desc.bsize) + i := by
        rw [← hmod]
        exact hrun
      rw [hmod] at hb0 ⊢
      refine ⟨hend.inside, fun p hlo hhi => ?_⟩
      rw [if_pos rfl]
      have hhi : p < off + v := hhi
      obtain ⟨i, hi⟩ := Nat.exists_eq_add_of_le (Nat.div_le_div_right (c := s.fs.desc.bsize) hlo)
      have hpdiv := Nat.div_add_mod' p s.fs.desc.bsize
      have him : i < m := by
        have hlt : p / s.fs.desc.bsize < off / s.fs.desc.bsize + m := by
          refine (Nat.div_lt_iff_lt_mul hB).mpr ?_
          rw [Nat.add_mul]
          omega
        omega
      rw [hi, hrun i him, liesAt_iff (Nat.mod_lt _ hB)]
      refine ⟨by omega, hp, ?_⟩
      rw [hi, Nat.add_mul] at hpdiv
      show mapAt s l.ip (off / s.fs.desc.bsize) * s.fs.desc.bsize + off % s.fs.desc.bsize + (p - off) = _
      rw [hbase, Nat.add_mul]
      omega
    · exact absurd hover hno

end Extents

/-- Of any inode, `filsys_bmap_ino`'s extent is right exactly where it is addressable. -/
theorem post_bmapExtent {s : Mnt} (hs : Solo s) (hf : Formed s.fs.desc)
    (hv1 : s.fs.desc.ops = .v1 → s.fs.desc.bsize = 512) {l : Loc}
    (haddr : ∀ i, l.ip.addr i < 2 ^ 32) (rounds off len : Nat) :
    Post (bmapExtent rounds off len (s, l)) (fun r _ => ∀ x, r = some x →
      (Agrees s l.ip off len x ↔ Addressable (s, l) off len)) fun _ _ => True := by
  have hB := hf.bsize_pos
  have hboff : off % s.fs.desc.bsize < s.fs.desc.bsize := Nat.mod_lt _ hB
  have hlbn : off / s.fs.desc.bsize % 2 ^ 32 < 2 ^ 32 := Nat.mod_lt _ (by decide)
  show Post ((filsysBmap (off / s.fs.desc.bsize % 2 ^ 32) false >>= fun bno =>
    extendExtent len rounds ((off / s.fs.desc.bsize % 2 ^ 32 + 1) % 2 ^ 32) (expected bno) (min
      (s.fs.desc.bsize - off % s.fs.desc.bsize) len) >>= fun plen =>
      pure (plen.map fun plen => (⟨bno * s.fs.desc.bsize + off % s.fs.desc.bsize, plen, bno ≠ 0⟩ :
        Extent)) : MI (Option Extent)) (s, l)) _ _
  have hread := post_filsysBmap_reads hs hf hv1 l (off / s.fs.desc.bsize % 2 ^ 32) s.ios
  cases hrun : filsysBmap (off / s.fs.desc.bsize % 2 ^ 32) false (s, l) with
  | error e t =>
    apply post_bind
    rw [hrun]
    trivial
  | ok bno t =>
    rw [hrun] at hread
    obtain ⟨rfl, k, rfl⟩ := hread
    apply post_bind
    rw [hrun]
    apply post_bind
    by_cases hb0 : mapAt s l.ip (off / s.fs.desc.bsize % 2 ^ 32) = 0
    · have hone : min (s.fs.desc.bsize - off % s.fs.desc.bsize) len ≤
        1 * s.fs.desc.bsize - off % s.fs.desc.bsize := by
        omega
      have hloop := post_extendExtent_hole hs hf hv1 (l := l) len rounds (k := k) (Nat.le_refl 1)
        (fun i hi => by rw [show i = 0 by omega, Nat.add_zero, Nat.mod_eq_of_lt hlbn]; exact hb0)
          (Nat.min_le_right _ _) hone hboff
      rw [hb0]
      refine hloop.mono (fun r t hr => ?_) fun _ _ h => h.elim
      intro x hx
      obtain ⟨v, rfl, rfl⟩ := Option.map_eq_some_iff.mp hx
      obtain ⟨hle, m, hv, hholes⟩ := hr v rfl
      exact ⟨fun _ => .inr (.inl hb0), fun _ => agrees_hole hf hle hv hholes _⟩
    · by_cases hlen : len = 0
      · subst hlen
        have hnone : Post (extendExtent 0 rounds ((off / s.fs.desc.bsize % 2 ^ 32 + 1) % 2 ^ 32)
            (expected (mapAt s l.ip (off / s.fs.desc.bsize % 2 ^ 32)))
            (min (s.fs.desc.bsize - off % s.fs.desc.bsize) 0) ({ s with ios := k }, l))
            (fun r _ => ∀ v, r = some v → v = 0) fun _ _ => False := by
          rw [Nat.min_zero]
          cases rounds with
          | zero => exact fun v hv => by cases hv
          | succ rounds =>
            exact post_ite (fun _ v hv => (Option.some.inj hv).symm) fun hc => absurd (Nat.le_refl 0) hc
        refine hnone.mono (fun r t hr => ?_) fun _ _ h => h.elim
        intro x hx
        obtain ⟨v, rfl, rfl⟩ := Option.map_eq_some_iff.mp hx
        obtain rfl := hr v rfl
        refine ⟨fun _ => .inl rfl, ?_⟩
        intro _
        exact ⟨Nat.le_refl 0, fun p hlo hhi => absurd hhi (Nat.not_lt.mpr hlo)⟩
      · have hnext := lt_of_mapAt hf hb0
        have hlook : lookUps 1 (off / s.fs.desc.bsize % 2 ^ 32) (s, l) =
            .ok (List.range' (mapAt s l.ip (off / s.fs.desc.bsize % 2 ^ 32)) 1) ({ s with ios := k }, l) := by
          show (filsysBmap (off / s.fs.desc.bsize % 2 ^ 32) false >>= fun b => _ : MI (List Nat)) (s, l) = _
          rw [bind_eq_of_ok hrun]
          rfl
        have hloop := post_extendExtent_run hs hf hv1 haddr len rfl rfl hb0 rounds (Nat.le_refl 1)
          (fun i hi => by rw [show i = 0 by omega]; rfl) hlook rfl
        rw [Nat.mod_eq_of_lt hnext, Nat.min_comm]
        rw [Nat.one_mul, Nat.add_sub_cancel] at hloop
        refine hloop.mono (fun r t hr => ?_) fun _ _ h => h.elim
        intro x hx
        obtain ⟨v, rfl, rfl⟩ := Option.map_eq_some_iff.mp hx
        have hval := agrees_run hf hlen (hr v rfl) hb0
        rw [show decide (mapAt s l.ip (off / s.fs.desc.bsize % 2 ^ 32) ≠ 0) =
          true from decide_eq_true hb0, hval]
        refine ⟨fun h => .inr (.inr h), ?_⟩
        intro h
        exact (h.resolve_left hlen).resolve_left hb0

/-- The V1 family's blocks are of 512 bytes. -/
theorem v1_bsize_opened {a : OpenArgs} {s₀ s : Mnt} (hs : Solo s₀)
    (hopen : filsysOpenArch a s₀ = .ok () s) : s.fs.desc.ops = .v1 → s.fs.desc.bsize = 512 := by
  have hfmt : Limits.Format s.fs.desc := Limits.format_opened hs hopen
  intro hv1
  have hbits := (hfmt.sizes.v1 hv1).1
  have ht := hfmt.formed.table
  unfold slotsOf pdp7Slots byteSlots at ht
  simp only [List.mem_cons, Slots.mk.injEq, List.not_mem_nil, or_false] at ht
  omega

/-- On every mounted volume, for every inode and every range: where `filsys_bmap_ino` answers, its
    extent agrees with the block map exactly where the range is addressable. -/
theorem extents_agree_with_the_map_iff {a : OpenArgs} {s₀ s t : Mnt} (hs : Solo s₀)
    (hopen : filsysOpenArch a s₀ = .ok () s) (hvol : SameVol s t)
    (rounds ino off len : Nat) :
    Post (filsysBmapIno rounds ino off len t)
      (fun r _ => ∀ x, r = some x → (Agrees t (valueOf (readInode ino) t) off len x ↔
        Addressable (final (readInode ino) t, ⟨valueOf (readInode ino) t, []⟩) off len)) fun _ _ => True := by
  have hd : t.fs.desc = s.fs.desc := shape_desc hvol.shape
  have hst : Solo t := fun k img => by
    rw [hvol.env]
    exact ((filsysOpenArch_laid hs).of_ok hopen).1 k img
  have hf : Formed t.fs.desc := hd ▸ (Limits.format_opened hs hopen).formed
  have hv1 : t.fs.desc.ops = .v1 → t.fs.desc.bsize = 512 := hd ▸ v1_bsize_opened hs hopen
  show Post ((readInode ino >>= fun ip => withIp ip (bmapExtent rounds off len) : M (Option Extent)) t) _ _
  apply post_bind
  have hread := (readInode_addr_lt ino t).and (readInode_peeks ino t)
  cases hrun : readInode ino t with
  | error e u => trivial
  | ok ip u =>
    rw [hrun] at hread
    obtain ⟨haddr, hu⟩ := hread
    obtain ⟨k, -, rfl⟩ := hu hst
    have hval : valueOf (readInode ino) t = ip := by
      unfold valueOf
      rw [hrun]
    have hfinal : final (readInode ino) t = { t with ios := k } := by
      unfold final
      rw [hrun]
    rw [hval, hfinal]
    have hmap := post_bmapExtent (s := { t with ios := k }) hst hf hv1 (l := ⟨ip, []⟩) haddr rounds off len
    refine Names.post_withIp (hmap.mono (fun r _ hr x hx => ?_) fun _ _ _ => trivial)
    exact (agrees_read k).symm.trans (hr x hx)

/-- A small V7 volume, `offset` bytes into its image, before it is opened. -/
def smallVolume (offset : Nat) : Mnt where
  fs := { desc := filsysGetformat .v7 }
  img := fun o => if o < offset then 0 else Names.bareV7 (o - offset)
  size := offset + 2048

/-- The root directory's bytes, at the start of the image. -/
theorem the_root_directory_is_where_its_extent_says :
    ∃ s, filsysOpenArch { edition := .v7 } (smallVolume 0) = .ok () s ∧
    Post (filsysBmapIno 2 2 0 48 s) (fun r _ => r = some ⟨1536, 48, true⟩ ∧
      Agrees s (valueOf (readInode 2) s) 0 48 ⟨1536, 48, true⟩) fun _ _ => False := by
  obtain ⟨s, hopen, hops, hbase, hbsize, hmap, hrun, hval⟩ :
    ∃ s, filsysOpenArch { edition := .v7 } (smallVolume 0) = .ok () s ∧
      (final (readInode 2) s).fs.desc.ops ≠ .pdp7 ∧ (final (readInode 2) s).fs.base = 0 ∧
      (final (readInode 2) s).fs.desc.bsize = 512 ∧
      mapAt (final (readInode 2) s) (valueOf (readInode 2) s) 0 = 3 ∧
      errorOf (filsysBmapIno 2 2 0 48) s = none ∧ valueOf (filsysBmapIno 2 2 0 48) s = some ⟨1536, 48, true⟩ :=
    ⟨_, eq_done (by decide +kernel), by decide +kernel, by decide +kernel, by decide +kernel, by decide +kernel,
      by decide +kernel, by decide +kernel⟩
  refine ⟨s, hopen, ?_⟩
  have hagree := extents_agree_with_the_map_iff (fun _ _ => rfl) hopen (sameVol_law.refl s) 2 2 0 48
  rw [eq_ok hrun, hval] at hagree ⊢
  refine ⟨rfl, (hagree _ rfl).mpr (.inr (.inr ⟨hops, hbase, by rw [Nat.zero_div]; decide, ?_⟩))⟩
  rintro ⟨hroom, -⟩
  have hroom : (2 ^ 32 - mapAt (final (readInode 2) s) (valueOf (readInode 2) s) (0 /
    (final (readInode 2) s).fs.desc.bsize % 2 ^ 32)) *
      (final (readInode 2) s).fs.desc.bsize < 0 % (final (readInode 2) s).fs.desc.bsize + 48 := hroom
  rw [Nat.zero_div, Nat.zero_mod, Nat.zero_mod, hmap, hbsize] at hroom
  exact absurd hroom (by decide)

/-- The same volume behind one sector of something else: the extent is a sector short of the bytes. -/
theorem an_extent_of_a_volume_further_in_is_elsewhere :
    ∃ s u, filsysOpenArch { edition := .v7, offset := 512 } (smallVolume 512) = .ok () s ∧
    filsysBmapIno 2 2 0 48 s = .ok (some ⟨1536, 48, true⟩) u ∧
    LiesAt s (mapAt s (valueOf (readInode 2) s) 0) 0 2048 ∧
    ¬ Agrees s (valueOf (readInode 2) s) 0 48 ⟨1536, 48, true⟩ := by
  obtain ⟨s, hopen, hops, hbase, hbsize, hmap, hrun, hval⟩ :
    ∃ s, filsysOpenArch { edition := .v7, offset := 512 } (smallVolume 512) = .ok () s ∧
      s.fs.desc.ops ≠ .pdp7 ∧ s.fs.base = 512 ∧ s.fs.desc.bsize = 512 ∧
      mapAt s (valueOf (readInode 2) s) 0 = 3 ∧
      errorOf (filsysBmapIno 2 2 0 48) s = none ∧ valueOf (filsysBmapIno 2 2 0 48) s = some ⟨1536, 48, true⟩ :=
    ⟨_, eq_done (by decide +kernel), by decide +kernel, by decide +kernel, by decide +kernel, by decide +kernel,
      by decide +kernel, by decide +kernel⟩
  have hzero : 0 < s.fs.desc.bsize := by omega
  refine ⟨s, _, hopen, hval ▸ eq_ok hrun, (liesAt_iff hzero).mpr ⟨hops, ?_⟩, ?_⟩
  · rw [hmap, hbase, hbsize]
  · intro hagree
    have hbyte := hagree.bytes 0 (Nat.le_refl 0) (by decide)
    rw [if_pos rfl, Nat.zero_div, Nat.zero_mod, hmap, liesAt_iff hzero, hbase, hbsize] at hbyte
    exact absurd hbyte.2.2 (by decide)

end Filsys.Blockmap
