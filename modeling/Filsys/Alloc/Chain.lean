/-
  Filsys.Alloc.Chain — the free list as a chain of caches.

  `Chain fs img c L K`: from the cache `c` the list hands out the blocks `L`, of which
  `K` are the chain blocks that hold the caches still to come. A chain reads the image
  at its chain blocks only (`Chain.congr`), so whatever is written elsewhere leaves it
  alone.

  `ListLayout` is what the proofs need of a free-list format: a dumped cache fits a
  block, the superblock's copy fits the superblock, and a block number fits its field.
  Every open of a free-list edition leaves one (`Mount.open_leaves_list_mount`).
-/

import Filsys.Engine.Disk
import Mathlib.Data.List.Nodup

namespace Filsys.Alloc

open Filsys.Lib Filsys.Engine

/-! ## Chains -/

inductive Chain (fs : Fs) (img : Buf) : Cache → List Nat → List Nat → Prop
  | empty {f : Nat → Nat} : Chain fs img (0, f) [] []
  /-- The 0 at the bottom of the last cache. -/
  | sentinel {f : Nat → Nat} : f 0 = 0 → Chain fs img (1, f) [] []
  | bottom {f : Nat → Nat} {L K : List Nat} : InData fs (f 0) → (chainOf fs img (f 0)).1 ≤ fs.desc.nicfree →
      Chain fs img (chainOf fs img (f 0)) L K → Chain fs img (1, f) (f 0 :: L) (f 0 :: K)
  | entry {n : Nat} {f : Nat → Nat} {L K : List Nat} : InData fs (f (n + 1)) → Chain fs img (n + 1, f) L K →
      Chain fs img (n + 2, f) (f (n + 1) :: L) K

namespace Chain

variable {fs : Fs} {img : Buf} {c : Cache} {L K : List Nat}

theorem inData (h : Chain fs img c L K) : ∀ b ∈ L, InData fs b := by
  induction h with
  | empty => simp
  | sentinel => simp
  | bottom hb _ _ ih =>
    intro b hr
    rcases hr with _ | ⟨_, hmem⟩
    · exact hb
    · exact ih b hmem
  | entry hb _ ih =>
    intro b hr
    rcases hr with _ | ⟨_, hmem⟩
    · exact hb
    · exact ih b hmem

theorem sublist (h : Chain fs img c L K) : K.Sublist L := by
  induction h with
  | empty => exact List.Sublist.refl _
  | sentinel => exact List.Sublist.refl _
  | bottom _ _ _ ih => exact ih.cons_cons _
  | entry _ _ ih => exact ih.cons _

/-- The four ways a chain can begin. -/
theorem shapes {n : Nat} {f : Nat → Nat} (h : Chain fs img (n, f) L K) :
    (n = 0 ∧ L = [] ∧ K = []) ∨ (n = 1 ∧ f 0 = 0 ∧ L = [] ∧ K = []) ∨
    (n = 1 ∧ ∃ L' K', L = f 0 :: L' ∧ K = f 0 :: K' ∧ InData fs (f 0) ∧
      (chainOf fs img (f 0)).1 ≤ fs.desc.nicfree ∧
      Chain fs img (chainOf fs img (f 0)) L' K') ∨
    ∃ m L', n = m + 2 ∧ L = f (m + 1) :: L' ∧ InData fs (f (m + 1)) ∧ Chain fs img (m + 1, f) L' K := by
  cases h with
  | empty => exact .inl ⟨rfl, rfl, rfl⟩
  | sentinel h0 => exact .inr (.inl ⟨rfl, h0, rfl, rfl⟩)
  | bottom hb hle ht => exact .inr (.inr (.inl ⟨rfl, _, _, rfl, rfl, hb, hle, ht⟩))
  | entry hb ht => exact .inr (.inr (.inr ⟨_, _, rfl, rfl, hb, ht⟩))

/-- A chain is what the image says at its chain blocks, and the entries below the
    cache's count. -/
theorem congr {fs' : Fs} {img' : Buf} {c' : Cache} (h : Chain fs img c L K) (hsh : shape fs' = shape fs)
    (himg : ∀ b ∈ K, blockOf fs img' b = blockOf fs img b)
    (hn : c'.1 = c.1) (hfree : ∀ i, i < c.1 → c'.2 i = c.2 i) : Chain fs' img' c' L K := by
  have hd := shape_desc hsh
  have hin : ∀ {b : Nat}, InData fs b → InData fs' b := fun h => (shape_inData hsh).mpr h
  have hchain : ∀ b, b ∈ K → chainOf fs' img' b = chainOf fs img b := by
    intro b hb'
    unfold chainOf
    rw [shape_blockOf hsh, himg b hb', hd]
  clear himg
  induction h generalizing c' with
  | empty =>
    obtain ⟨n, f⟩ := c'
    obtain rfl : n = 0 := hn
    exact .empty
  | sentinel h0 =>
    obtain ⟨n, f⟩ := c'
    obtain rfl : n = 1 := hn
    exact .sentinel ((hfree 0 Nat.one_pos).trans h0)
  | @bottom f L K hb hle _ ih =>
    obtain ⟨n, f'⟩ := c'
    obtain rfl : n = 1 := hn
    have h0 : f' 0 = f 0 := hfree 0 Nat.one_pos
    rw [← h0]
    rw [← h0] at hb hle ih hchain
    have heq := hchain (f' 0) (List.mem_cons_self ..)
    refine .bottom (hin hb) (by rw [heq, hd]; exact hle) ?_
    rw [heq]
    exact ih rfl (fun _ _ => rfl) fun b hb' => hchain b (List.mem_cons_of_mem _ hb')
  | @entry n f L K hb _ ih =>
    obtain ⟨m, f'⟩ := c'
    obtain rfl : m = n + 2 := hn
    have h0 : f' (n + 1) = f (n + 1) := hfree (n + 1) (by show n + 1 < n + 2; omega)
    rw [← h0]
    rw [← h0] at hb
    exact .entry (hin hb) (ih rfl
      (fun i hi => hfree i (by show i < n + 2; have : i < n + 1 := hi; omega)) hchain)

/-- Writes outside the chain blocks leave the chain alone. -/
theorem frame {img' : Buf} (h : Chain fs img c L K) (himg : ∀ b ∈ K, blockOf fs img' b = blockOf fs img b) :
    Chain fs img' c L K := h.congr rfl himg rfl fun _ _ => rfl

theorem pops (hpos : 1 ≤ v7DataFirst fs) (h : Chain fs img c L K) : Pops fs img c L := by
  induction h with
  | empty => exact .done (by simp [popStep])
  | sentinel h0 => exact .done (by simp [popStep, h0])
  | @bottom f L K hb _ _ ih =>
    refine .pop ?_ ih
    unfold InData at hb
    simp [popStep, show f 0 ≠ 0 by omega, show ¬ (f 0 < v7DataFirst fs ∨ fs.fsize ≤ f 0) by omega]
  | @entry n f L K hb _ ih =>
    refine .pop ?_ ih
    unfold InData at hb
    simp [popStep, show f (n + 1) ≠ 0 by omega,
      show ¬ (f (n + 1) < v7DataFirst fs ∨ fs.fsize ≤ f (n + 1)) by omega]

/-- The chain determines its blocks. -/
theorem unique {L' K' : List Nat} (h : Chain fs img c L K) (h' : Chain fs img c L' K')
    (hpos : 1 ≤ v7DataFirst fs) :
    L' = L ∧ K' = K := by
  induction h generalizing L' K' with
  | empty => cases h'; exact ⟨rfl, rfl⟩
  | sentinel h0 =>
    cases h' with
    | sentinel => exact ⟨rfl, rfl⟩
    | bottom hb => unfold InData at hb; omega
  | bottom hb _ _ ih =>
    cases h' with
    | sentinel h0 => unfold InData at hb; omega
    | bottom _ _ ht =>
      obtain ⟨rfl, rfl⟩ := ih ht
      exact ⟨rfl, rfl⟩
  | entry _ _ ih =>
    cases h' with
    | entry _ ht =>
      obtain ⟨rfl, rfl⟩ := ih ht
      exact ⟨rfl, rfl⟩

end Chain

/-- From the cache `c` the free list is the chain `L` through `K`, no block twice. -/
structure FreeList (fs : Fs) (img : Buf) (c : Cache) (L K : List Nat) : Prop where
  chain : Chain fs img c L K
  le : c.1 ≤ fs.desc.nicfree
  nodup : L.Nodup

theorem FreeList.congr {fs fs' : Fs} {img img' : Buf} {c c' : Cache} {L K : List Nat}
    (h : FreeList fs img c L K)
    (hsh : shape fs' = shape fs) (himg : ∀ b ∈ K, blockOf fs img' b = blockOf fs img b)
    (hn : c'.1 = c.1) (hfree : ∀ i, i < c.1 → c'.2 i = c.2 i) : FreeList fs' img' c' L K where
  chain := h.chain.congr hsh himg hn hfree
  le := by rw [hn, shape_desc hsh]; exact h.le
  nodup := h.nodup

/-! ## Free-list formats -/

/-- The superblock's copy of the cache lies inside the superblock and nothing written
    after it overlaps it. -/
def SuperRoom (d : Desc) (len : Nat) : Prop :=
  if d.sbCodec then d.freemap = .list ∧ d.isizeCount = false ∧ 252 + 4 * d.nicfree ≤ len
  else if d.isizeCount then d.nicfree ≤ 100 ∧ 206 ≤ len
  else sbFreeOff d.pack4 + 4 * d.nicfree ≤ len ∧ (d.hasState = true → sbFreeOff d.pack4 + 4 * d.nicfree ≤ 500) ∧
    d.fmodBack ≤ 200

/-- What a format's free list needs of its layout. -/
structure ListLayout (fs : Fs) : Prop where
  notV1 : fs.desc.ops ≠ .v1
  notPdp7 : fs.desc.ops ≠ .pdp7
  noTail : fs.v8Nblks = 0
  width : fs.desc.daddrWid = (daddrSig fs.desc).length
  count : (dfNfreeSig fs.desc).length ≤ chainFreeOff fs.desc
  dump : chainFreeOff fs.desc + fs.desc.daddrWid * fs.desc.nicfree ≤ fs.desc.bsize
  pos : 0 < fs.desc.nicfree
  small : fs.desc.nicfree < 65536
  room : SuperRoom fs.desc (superLen fs)
  addr : fs.fsize ≤ 256 ^ (if fs.desc.isizeCount then 2 else 4)
  daddr : fs.fsize ≤ 256 ^ fs.desc.daddrWid

/-- Layout facts are facts of the shape. -/
theorem ListLayout.of_shape {fs fs' : Fs} (h : ListLayout fs) (hsh : shape fs' = shape fs) :
    ListLayout fs' := by
  have hd := shape_desc hsh
  have hlen : superLen fs' = superLen fs := by unfold superLen; rw [hd]
  obtain ⟨h1, h2, h3, h4, h5, h6, h7, h8, h9, h10, h11⟩ := h
  constructor <;> (try rw [hd]) <;> (try rw [shape_fsize hsh]) <;> (try rw [shape_nblks hsh]) <;>
    (try rw [hlen]) <;> assumption

theorem perm_daddrSig (d : Desc) : (daddrSig d).Perm (List.range (daddrSig d).length) := by
  unfold daddrSig
  split
  · exact ByteOrder.perm_sig16 _
  · exact ByteOrder.perm_sig32 _

theorem perm_dfNfreeSig (d : Desc) : (dfNfreeSig d).Perm (List.range (dfNfreeSig d).length) := by
  unfold dfNfreeSig
  split
  · exact ByteOrder.perm_sig32 _
  · exact ByteOrder.perm_sig16 _

theorem length_dfNfreeSig (d : Desc) : (dfNfreeSig d).length = if d.dfNfreeWid = 4 then 4 else 2 := by
  unfold dfNfreeSig
  split
  · exact ByteOrder.length_sig32 _
  · exact ByteOrder.length_sig16 _

section Layout

variable {fs : Fs} (hl : ListLayout fs)

include hl

/-- A dumped cache reads back. -/
theorem chainNfree_dump {n : Nat} (hn : n < 65536) (free : Nat → Nat) :
    chainNfree fs.desc (window (dumpBuf fs.desc n free) 0 fs.desc.bsize) = n := by
  have hlen := hl.count
  have hdump := hl.dump
  have hnum : num (dfNfreeSig fs.desc) (window (dumpBuf fs.desc n free) 0 fs.desc.bsize) 0
      = n % 256 ^ (dfNfreeSig fs.desc).length := by
    rw [num_window (by omega), ← num_putNum (perm_dfNfreeSig fs.desc) zeroBuf 0 n]
    refine num_congr _ fun i hi => putTable_outside ?_ _ (.inl (by omega))
    exact Nat.le_of_eq hl.width.symm
  unfold chainNfree
  rw [hnum, length_dfNfreeSig]
  split
  · rw [Nat.mod_eq_of_lt (show n < 256 ^ 4 by omega), Nat.mod_eq_of_lt hn]
  · rw [Nat.mod_eq_of_lt (show n < 256 ^ 2 by omega), Nat.mod_eq_of_lt hn]

theorem chainFree_dump (n : Nat) {free : Nat → Nat} {i : Nat} (hi : i < fs.desc.nicfree)
    (hv : free i < fs.fsize) :
    chainFree fs.desc (window (dumpBuf fs.desc n free) 0 fs.desc.bsize) i = free i := by
  have hdump := hl.dump
  have hw := hl.width
  have hle : fs.desc.daddrWid * (i + 1) ≤ fs.desc.daddrWid * fs.desc.nicfree := Nat.mul_le_mul_left _ hi
  rw [Nat.mul_succ] at hle
  unfold chainFree getDaddr dumpBuf
  rw [num_window (by omega), Nat.zero_add, num_putTable (perm_daddrSig _) (Nat.le_of_eq hw.symm) hi, ← hw]
  exact Nat.mod_eq_of_lt (Nat.lt_of_lt_of_le hv hl.daddr)

end Layout

/-! ## The superblock's copy -/

/-- The cache the superblock of an image holds. -/
def diskCache (fs : Fs) (img : Buf) : Cache :=
  ((sbDecode fs (superOf fs img)).nfree, (sbDecode fs (superOf fs img)).free)

/-- A count and the table after it read back from any buffer that agrees with them there. -/
theorem cache_reads (bo : ByteOrder) {sig : List Nat} (hp : sig.Perm (List.range sig.length))
    (noff foff stride nic : Nat)
    (f : Nat → Nat) (n : Nat) {len : Nat} {B sb : Buf} (hw : sig.length ≤ stride)
    (hno : noff + 2 ≤ foff) (hlen : foff + stride * nic ≤ len)
    (hB : ∀ j, noff ≤ j → j < foff + stride * nic →
      B j = putTable sig foff stride f nic (bo.put16 sb noff n) j) :
    bo.get16 (window B 0 len) noff = n % 256 ^ 2 ∧
      ∀ i, i < nic → num sig (window B 0 len) (foff + stride * i) = f i % 256 ^ sig.length := by
  constructor
  · unfold ByteOrder.get16
    rw [num_window (by rw [ByteOrder.length_sig16]; omega), Nat.zero_add]
    have hsame : num bo.sig16 B noff = num bo.sig16 (bo.put16 sb noff n) noff := by
      refine num_congr _ fun i hi => ?_
      rw [ByteOrder.length_sig16] at hi
      rw [hB _ (by omega) (by omega), putTable_outside hw _ (.inl (by omega))]
    rw [hsame]
    exact (num_putNum (ByteOrder.perm_sig16 _) _ _ _).trans (by rw [ByteOrder.length_sig16])
  · intro i hi
    have hle : stride * (i + 1) ≤ stride * nic := Nat.mul_le_mul_left _ hi
    rw [Nat.mul_succ] at hle
    rw [num_window (by omega), Nat.zero_add]
    have hsame : num sig B (foff + stride * i) =
      num sig (putTable sig foff stride f nic (bo.put16 sb noff n)) (foff + stride * i) :=
      num_congr _ fun j hj => hB _ (by omega) (by omega)
    rw [hsame]
    exact num_putTable hp hw hi _

/-- Nothing after the V6 cache is written into it. -/
theorem v6SbEncode_low (fs : Fs) (now : Nat) (sb : Buf) {j : Nat} (hj : j < 206) :
    v6SbEncode fs now sb j = putTable fs.desc.bo.sig16 6 2 fs.free fs.desc.nicfree
      (fs.desc.bo.put16 (fs.desc.bo.put16 (fs.desc.bo.put16 sb 0 fs.isize) 2 fs.fsize) 4 fs.nfree) j := by
  unfold v6SbEncode
  rw [poke_outside (.inl (by omega)), ByteOrder.put32, putNum_outside (.inl (by omega)),
    putTable_outside (by simp) _ (.inl (by omega)), ByteOrder.put16, putNum_outside (.inl (by omega))]

/-- Nothing after the V7 cache is written into it. -/
theorem v7SbEncode_low (fs : Fs) (now : Nat) (sb : Buf)
    (hst : fs.desc.hasState = true → sbFreeOff fs.desc.pack4 + 4 * fs.desc.nicfree ≤ 500)
    (hback : fs.desc.fmodBack ≤ 200) {j : Nat} (hj : j < sbFreeOff fs.desc.pack4 + 4 * fs.desc.nicfree) :
    v7SbEncode fs now sb j = putTable fs.desc.bo.sig32 (sbFreeOff fs.desc.pack4) 4 fs.free fs.desc.nicfree
      (fs.desc.bo.put16 (fs.desc.bo.put32 (fs.desc.bo.put16 sb 0 fs.isize) (sbFsizeOff fs.desc.pack4) fs.fsize)
        (sbNfreeOff fs.desc.pack4) fs.nfree) j := by
  have htm : sbFreeOff fs.desc.pack4 + 4 * fs.desc.nicfree + 204 ≤ sbTimeOff fs.desc.pack4 fs.desc.nicfree := by
    unfold sbTimeOff sbInodeOff sbNinodeOff; omega
  have htf : sbTimeOff fs.desc.pack4 fs.desc.nicfree ≤
    sbTfreeOff fs.desc.pack4 fs.desc.nicfree fs.desc.hasDinfo := by
    unfold sbTfreeOff; omega
  have hin : sbFreeOff fs.desc.pack4 + 4 * fs.desc.nicfree < sbInodeOff fs.desc.pack4 fs.desc.nicfree := by
    unfold sbInodeOff sbNinodeOff; omega
  have hni : sbFreeOff fs.desc.pack4 + 4 * fs.desc.nicfree = sbNinodeOff fs.desc.pack4 fs.desc.nicfree := rfl
  have hlow : ∀ {sb : Buf},
    putTable fs.desc.bo.sig16 (sbInodeOff fs.desc.pack4 fs.desc.nicfree) 2 fs.inode 100 sb j = sb j :=
    putTable_outside (by simp) _ (.inl (by omega))
  have h500 : fs.desc.hasState = true → j < 500 := fun h => Nat.lt_of_lt_of_le hj (hst h)
  unfold v7SbEncode
  simp only [ByteOrder.put16, ByteOrder.put32]
  by_cases hstate : fs.desc.hasState = true
  · have hj' := h500 hstate
    simp only [if_pos hstate]
    split_ifs <;> simp (disch := omega) only [putNum_below, poke_below, hlow]
  · simp only [if_neg hstate]
    split_ifs <;> simp (disch := omega) only [putNum_below, poke_below, hlow]

/-- After a flush the superblock holds the in-core cache. -/
theorem diskCache_flush {fs : Fs} (hl : ListLayout fs) (img : Buf) (now : Nat) (sb : Buf)
    (hle : fs.nfree ≤ fs.desc.nicfree)
    (hv : ∀ i, i < fs.nfree → fs.free i < fs.fsize) :
    (diskCache fs (putSuper fs img (sbEncode fs now sb))).1 = fs.nfree ∧
      ∀ i, i < fs.nfree → (diskCache fs (putSuper fs img (sbEncode fs now sb))).2 i = fs.free i := by
  have hroom := hl.room
  have haddr := hl.addr
  have hn : fs.nfree < 65536 := Nat.lt_of_le_of_lt hle hl.small
  have hn' : fs.nfree % 256 ^ 2 = fs.nfree := Nat.mod_eq_of_lt hn
  have hfit : ∀ {w : Nat} {x : Nat}, fs.fsize ≤ 256 ^ w → x < fs.fsize → x % 256 ^ w = x := by
    intro w x hw hx
    exact Nat.mod_eq_of_lt (Nat.lt_of_lt_of_le hx hw)
  unfold diskCache sbDecode sbEncode
  rw [superOf_putSuper]
  unfold SuperRoom at hroom
  by_cases hc : fs.desc.sbCodec = true
  · simp only [if_pos hc] at hroom ⊢
    obtain ⟨hlist, hcount, hlen⟩ := hroom
    obtain ⟨h1, h2⟩ := cache_reads fs.desc.bo (ByteOrder.perm_sig32 fs.desc.bo) 248 252 4
      fs.desc.nicfree fs.free fs.nfree
      (B := v8SbEncode fs now sb) (by simp) (by omega) hlen (fun j _ _ => by unfold v8SbEncode; rw [hlist])
    rw [if_neg (by simp [hcount])] at haddr
    constructor
    · show (if fs.desc.freemap = .list then fs.desc.bo.get16 _ 248 else 0) = _
      rw [if_pos hlist, h1, hn']
    · intro i hi
      exact (h2 i (Nat.lt_of_lt_of_le hi hle)).trans
        (by rw [ByteOrder.length_sig32]; exact hfit haddr (hv i hi))
  · simp only [if_neg hc] at hroom ⊢
    by_cases hcount : fs.desc.isizeCount = true
    · simp only [if_pos hcount] at hroom haddr ⊢
      obtain ⟨hnic, hlen⟩ := hroom
      have hlen' : 6 + 2 * fs.desc.nicfree ≤ superLen fs := by omega
      obtain ⟨h1, h2⟩ := cache_reads fs.desc.bo (ByteOrder.perm_sig16 fs.desc.bo) 4 6 2
        fs.desc.nicfree fs.free fs.nfree
        (B := v6SbEncode fs now sb) (by simp) (by omega) hlen'
          (fun j _ hj => v6SbEncode_low fs now sb (by omega))
      refine ⟨h1.trans hn', fun i hi => ?_⟩
      exact (h2 i (Nat.lt_of_lt_of_le hi hle)).trans
        (by rw [ByteOrder.length_sig16]; exact hfit haddr (hv i hi))
    · simp only [if_neg hcount] at hroom haddr ⊢
      obtain ⟨hlen, hst, hback⟩ := hroom
      have hoff : sbNfreeOff fs.desc.pack4 + 2 ≤ sbFreeOff fs.desc.pack4 := by
        unfold sbNfreeOff sbFreeOff
        split <;> omega
      obtain ⟨h1, h2⟩ := cache_reads fs.desc.bo (ByteOrder.perm_sig32 fs.desc.bo) (sbNfreeOff fs.desc.pack4)
        (sbFreeOff fs.desc.pack4) 4 fs.desc.nicfree fs.free fs.nfree (B :=
          v7SbEncode fs now sb) (by simp) hoff hlen
        (fun j _ hj => v7SbEncode_low fs now sb hst hback hj)
      refine ⟨h1.trans hn', fun i hi => ?_⟩
      exact (h2 i (Nat.lt_of_lt_of_le hi hle)).trans
        (by rw [ByteOrder.length_sig32]; exact hfit haddr (hv i hi))

/-! ## What the allocator does to a chain -/

namespace Chain

variable {fs : Fs} {img : Buf} {n : Nat} {f : Nat → Nat} {L K : List Nat}

theorem entry_lt (h : Chain fs img (n, f) L K) (hpos : 0 < fs.fsize) {i : Nat} (hi : i < n) :
    f i < fs.fsize := by
  generalize hc : (n, f) = c at h
  induction h generalizing n with
  | empty => cases hc; omega
  | sentinel h0 =>
    cases hc
    obtain rfl : i = 0 := by omega
    omega
  | bottom hb =>
    cases hc
    obtain rfl : i = 0 := by omega
    exact hb.2
  | @entry m g L K hb _ ih =>
    cases hc
    rcases Nat.lt_or_ge i (m + 1) with hlt | hge
    · exact ih hlt rfl
    · obtain rfl : i = m + 1 := by omega
      exact hb.2

/-- A freed block goes on top of a cache that is not empty. -/
theorem push (h : Chain fs img (n, f) L K) (hn : n ≠ 0) {b : Nat} (hb : InData fs b) :
    Chain fs img (n + 1, fun i => if i = n then b else f i) (b :: L) K := by
  obtain ⟨m, rfl⟩ := Nat.exists_eq_succ_of_ne_zero hn
  have hsame : Chain fs img (m + 1, fun i => if i = m + 1 then b else f i) L K :=
    h.congr rfl (fun _ _ => rfl) rfl fun i (hi : i < m + 1) => if_neg (by omega)
  have htop : (if m + 1 = m + 1 then b else f (m + 1)) = b := if_pos rfl
  have := Chain.entry (n := m) (f := fun i => if i = m + 1 then b else f i) (by rw [htop]; exact hb) hsame
  rwa [htop] at this

/-- A full cache dumped into a freed block becomes the next segment. -/
theorem dump (hl : ListLayout fs) (h : Chain fs img (n, f) L K) (hn : n ≤ fs.desc.nicfree)
    (hv : ∀ i, i < n → f i < fs.fsize)
    {b : Nat} (hb : InData fs b) (hfree : b ∉ K) (g : Nat → Nat) :
    Chain fs (putBlock fs img b (dumpBuf fs.desc n f)) (1, fun i => if i = 0 then b
      else g i) (b :: L) (b :: K) := by
  have hsmall := hl.small
  have hblk := blockOf_putBlock fs img b (dumpBuf fs.desc n f)
  have hcount : (chainOf fs (putBlock fs img b (dumpBuf fs.desc n f)) b).1 = n := by
    unfold chainOf
    rw [hblk]
    exact chainNfree_dump hl (by omega) f
  have htail : Chain fs (putBlock fs img b (dumpBuf fs.desc n f))
    (chainOf fs (putBlock fs img b (dumpBuf fs.desc n f)) b) L K := by
    refine h.congr rfl ?_ hcount ?_
    · intro k hk
      refine blockOf_putBlock_ne ?_ _ _
      rintro rfl
      exact hfree hk
    · intro i hi
      unfold chainOf
      rw [hblk]
      exact chainFree_dump hl n (Nat.lt_of_lt_of_le hi hn) (hv i hi)
  have := Chain.bottom (f := fun i => if i = 0 then b else g i) hb (by rw [if_pos rfl, hcount]; exact hn) htail
  rwa [if_pos rfl] at this

end Chain

end Filsys.Alloc
