/-
  Filsys.Check.Walkers — the walks of the free list against the allocator.

  The check's walk stops on every image and lists no block twice (`walk_stops`). Where it
  reports nothing it has listed what `v7fs_balloc` hands out, call after call, until the
  list is empty, and the counters run by an open find as many blocks. V6's counter reads
  the chain in the byte order of the mount, which the chain is not written in: on a
  big-endian mount it follows the wrong blocks (`walkers_agree`).
-/

import Filsys.Alloc.Drain
import Filsys.Alloc.Nodes
import Filsys.Alloc.Rebuild
import Filsys.Check.Sound
import Filsys.Engine.Indices

namespace Filsys.Check

open Filsys.Lib Filsys.Engine Filsys.Alloc

/-! ## What a walk lists -/

def listedBlock : Access → Option Nat
  | .listed b => some b
  | _ => none

/-- The blocks a log lists, in turn. -/
def listedOf (log : List Access) : List Nat := (log.filterMap listedBlock).reverse

@[simp] theorem listedOf_listed (b : Nat) (log : List Access) :
    listedOf (.listed b :: log) = listedOf log ++ [b] := by
  simp [listedOf, listedBlock]

@[simp] theorem listedOf_copy (i : Nat) (log : List Access) : listedOf (.copy i :: log) = listedOf log := rfl

@[simp] theorem listedOf_bmap (i : Nat) (log : List Access) : listedOf (.bmap i :: log) = listedOf log := rfl

@[simp] theorem listedOf_copies (is : List Nat) (log : List Access) :
    listedOf (is.map .copy ++ log) = listedOf log := by
  induction is with
  | nil => rfl
  | cons i is ih => simpa using ih

@[simp] theorem listedOf_copied (len : Nat) : listedOf (copied len ++ []) = [] := by
  have hnone : ∀ is : List Nat, (is.map Access.free).filterMap listedBlock = [] := by
    intro is
    induction is with
    | nil => rfl
    | cons i is ih => exact ih
  have hcopy : ((List.range len).map Access.copy).filterMap listedBlock = [] := by
    have := listedOf_copies (List.range len) []
    rw [List.append_nil] at this
    exact List.reverse_eq_nil_iff.mp this
  unfold listedOf copied
  rw [List.append_nil, List.filterMap_append, hnone, hcopy]
  rfl

/-- A block whose bit a map leaves clear. -/
def clearBit (fs : Fs) (c : Chk) (b : Nat) : Bool := !getBit c.bmap (b - v7DataFirst fs)

/-- From a walk's state `s` to `t` the blocks `L` were listed: new ones of the data area, each once, and
    those the map did not have counted as free. -/
structure Lists (s t : (Mnt × Chk) × List Access) (L : List Nat) : Prop where
  listed : listedOf t.2 = listedOf s.2 ++ L
  nodup : L.Nodup
  inData : ∀ b ∈ L, InData s.1.1.fs b
  counted : t.1.2.freeBlocks = inc32^[(L.filter (clearBit s.1.1.fs s.1.2)).length] s.1.2.freeBlocks

theorem lists_nil {s t : (Mnt × Chk) × List Access} (hl : listedOf t.2 = listedOf s.2)
    (hf : t.1.2.freeBlocks = s.1.2.freeBlocks) :
    Lists s t [] := ⟨by rw [hl, List.append_nil], List.nodup_nil, fun b hb => absurd hb List.not_mem_nil, hf⟩

/-- The map after `b` has been claimed from it. -/
structure Claims1 (s u : (Mnt × Chk) × List Access) (b : Nat) : Prop where
  fs : u.1.1.fs = s.1.1.fs
  listed : listedOf u.2 = listedOf s.2 ++ [b]
  free : u.1.2.freeBlocks = if clearBit s.1.1.fs s.1.2 b then inc32 s.1.2.freeBlocks else s.1.2.freeBlocks
  bits : ∀ x, InData s.1.1.fs x → x ≠ b → clearBit s.1.1.fs u.1.2 x = clearBit s.1.1.fs s.1.2 x

theorem Lists.cons {s u t : (Mnt × Chk) × List Access} {b : Nat} {L : List Nat}
    (hb : InData s.1.1.fs b) (hu : Claims1 s u b)
    (h : Lists u t L) (hnew : b ∉ L) : Lists s t (b :: L) where
  listed := by rw [h.listed, hu.listed, List.append_assoc, List.singleton_append]
  nodup := List.nodup_cons.mpr ⟨hnew, h.nodup⟩
  inData := by
    intro x hx
    rcases List.mem_cons.mp hx with rfl | hx
    · exact hb
    · rw [← hu.fs]
      exact h.inData x hx
  counted := by
    have hsame : L.filter (clearBit u.1.1.fs u.1.2) = L.filter (clearBit s.1.1.fs s.1.2) := by
      refine List.filter_congr fun x hx => ?_
      rw [hu.fs]
      refine hu.bits x ?_ fun heq => hnew (heq ▸ hx)
      rw [← hu.fs]
      exact h.inData x hx
    rw [h.counted, hu.free, hsame, List.filter_cons]
    split
    · rw [List.length_cons, Function.iterate_succ_apply]
    · rfl

theorem markFree_claims1 {s : (Mnt × Chk) × List Access} {b : Nat} (hb : InData s.1.1.fs b) :
    Post (markFreeSeen b (s.1, .listed b :: s.2)) (fun _ u => Claims1 s u b) fun _ _ => False := by
  have hbits : ∀ x, InData s.1.1.fs x → x ≠ b → x - v7DataFirst s.1.1.fs ≠ b - v7DataFirst s.1.1.fs := by
    intro x hx hne
    have := hx.1
    have := hb.1
    omega
  refine post_unwatched (post_engFs (post_getChk (post_ite ?_ ?_)))
  · intro hset
    refine ⟨rfl, by simp, ?_, fun _ _ _ => rfl⟩
    rw [if_neg (by simp only [clearBit, hset]; decide)]
    rfl
  · intro hclear
    refine ⟨rfl, by simp, ?_, ?_⟩
    · rw [if_pos (by simpa [clearBit] using hclear)]
    · intro x hx hne
      show (!getBit (putBit _ _ _) _) = _
      rw [getBit_putBit, if_neg (hbits x hx hne)]
      rfl

theorem post_seenFs {α : Type} {f : Fs → MW α} {s : (Mnt × Chk) × List Access}
    {Q : α → (Mnt × Chk) × List Access → Prop}
    {E : Errno → (Mnt × Chk) × List Access → Prop} (h : Post (f s.1.1.fs s) Q E) :
    Post ((unwatched (eng getFs) >>= f) s) Q E := h

theorem walkFreeListSeen_stops (fuel n : Nat) (cur : Nat → Nat) (seen : List Nat) (guard : Nat)
    (s : (Mnt × Chk) × List Access)
    (hnd : seen.Nodup) (hlt : ∀ b ∈ seen, b < s.1.1.fs.fsize) (hfuel : s.1.1.fs.fsize < fuel + seen.length) :
    Post (walkFreeListSeen fuel n cur seen guard s) (fun _ t => ∃ L, Lists s t L ∧ ∀ b ∈ L, b ∉ seen)
    fun _ _ => False := by
  induction fuel generalizing n cur seen guard s with
  | zero =>
    have := nodup_length_le hnd hlt
    omega
  | succ fuel ih =>
    have hstop : ∀ {t : (Mnt × Chk) × List Access}, listedOf t.2 = listedOf s.2 →
      t.1.2.freeBlocks = s.1.2.freeBlocks →
        ∃ L, Lists s t L ∧ ∀ b ∈ L, b ∉ seen :=
        fun hl hf => ⟨[], lists_nil hl hf, fun b hb => absurd hb List.not_mem_nil⟩
    refine post_seenFs (post_ite (fun _ => hstop rfl rfl) fun _ =>
      post_note (post_ite (fun _ => hstop (by simp) rfl) fun _ => ?_))
    refine post_ite (fun _ => hstop (by simp) rfl) fun hout => ?_
    refine post_ite (fun _ => hstop (by simp) rfl) fun hnew => ?_
    apply post_note
    generalize hb : cur (n - 1) = b at hout hnew ⊢
    have hin : InData s.1.1.fs b := ⟨by omega, by omega⟩
    have hmark := markFree_claims1 (s := (s.1, .copy (n - 1) :: s.2)) hin
    refine post_bind (hmark.mono ?_ fun _ _ h => h)
    intro _ u hu
    have hu' : Claims1 s u b := ⟨hu.fs, by rw [hu.listed]; simp, hu.free, hu.bits⟩
    -- what is listed from here on comes after `b`
    have hrest : ∀ {v t : (Mnt × Chk) × List Access} {L : List Nat}, v.1.1.fs = u.1.1.fs →
      v.1.2 = u.1.2 → listedOf v.2 = listedOf u.2 →
        Lists v t L → (∀ x ∈ L, x ∉ b :: seen) → ∃ L, Lists s t L ∧ ∀ x ∈ L, x ∉ seen := by
      intro v t L hvf hvc hvl hL hno
      have hu'' : Claims1 s v b :=
        ⟨hvf.trans hu'.fs, hvl.trans hu'.listed, by rw [hvc]; exact hu'.free, by rw [hvc]; exact hu'.bits⟩
      refine ⟨b :: L, hL.cons hin hu'' fun hmem => hno b hmem List.mem_cons_self, fun x hx => ?_⟩
      rcases List.mem_cons.mp hx with rfl | hx
      · exact hnew
      · exact fun hmem => hno x hx (List.mem_cons_of_mem _ hmem)
    have herr : Post (unwatched (modChk Chk.err) u) (fun _ t => ∃ L, Lists s t L ∧ ∀ x ∈ L, x ∉ seen)
      fun _ _ => False :=
      hrest (v := u) (L := []) rfl rfl rfl (lists_nil rfl rfl) fun x hx => absurd hx List.not_mem_nil
    have hnext : ∀ {n' : Nat} {cur' : Nat → Nat} {v : (Mnt × Chk) × List Access},
      v.1.1.fs = u.1.1.fs → v.1.2 = u.1.2 →
        listedOf v.2 = listedOf u.2 → Post (walkFreeListSeen fuel n' cur' (b :: seen) (guard + 1) v)
          (fun _ t => ∃ L, Lists s t L ∧ ∀ x ∈ L, x ∉ seen) fun _ _ => False := by
      intro n' cur' v hvf hvc hvl
      have hfsv : v.1.1.fs = s.1.1.fs := hvf.trans hu'.fs
      refine (ih n' cur' (b :: seen) (guard + 1) v (List.nodup_cons.mpr ⟨hnew, hnd⟩) ?_ ?_).mono ?_
        fun _ _ h => h
      · intro x hx
        rw [hfsv]
        rcases List.mem_cons.mp hx with rfl | hx
        · exact hin.2
        · exact hlt x hx
      · rw [hfsv, List.length_cons]
        omega
      · intro _ t hr
        obtain ⟨L, hL, hno⟩ := hr
        exact hrest hvf hvc hvl hL hno
    refine post_ite (fun _ => herr) fun _ => post_ite (fun _ => ?_) fun _ => hnext rfl rfl rfl
    refine post_bind (post_unwatched (post_outside (post_attempt ((v7fsReadBlock_fs b u.1.1).mono ?_ ?_))))
    · intro blk t ht
      refine post_ite (fun _ => ?_) fun _ => post_noteAll (hnext ht rfl (by simp))
      exact hrest (v := ((t, u.1.2), u.2)) (L := []) ht rfl rfl (lists_nil rfl rfl) fun x hx =>
        absurd hx List.not_mem_nil
    · intro e t ht
      exact hrest (v := ((t, u.1.2), u.2)) (L := []) ht rfl rfl (lists_nil rfl rfl) fun x hx =>
        absurd hx List.not_mem_nil

/-- On every image, however damaged, `v7_walk_free` returns, and counts no block twice. -/
theorem walk_stops (s : Mnt) (c : Chk) : Post (v7WalkFreeSeen ((s, c), [])) (fun _ t => (listedOf t.2).Nodup ∧
    t.1.2.freeBlocks = inc32^[((listedOf t.2).filter (clearBit s.fs c)).length] c.freeBlocks) fun _ _ =>
    False := by
  refine post_seenFs (post_noteAll
    ((walkFreeListSeen_stops _ _ _ [] 0 _ List.nodup_nil
    (fun b hb => absurd hb List.not_mem_nil) ?_).mono ?_
    fun _ _ h => h))
  · show s.fs.fsize < s.fs.fsize + s.fs.desc.nicfree + 2 + 0
    omega
  · intro _ t hr
    obtain ⟨L, hL, -⟩ := hr
    have hlog := hL.listed
    rw [listedOf_copied, List.nil_append] at hlog
    rw [hlog]
    exact ⟨hL.nodup, hL.counted⟩

/-! ## The list a walk reads off -/

/-- The most entries a walk takes before it says the list does not end. -/
def entryLimit (fs : Fs) : Nat := (fs.fsize + fs.desc.nicfree) % 2 ^ 32

/-- The walk from the cache `c`, `guard` entries in, listed `L` and reported nothing. -/
structure Silent (s : Mnt) (c : Cache) (guard : Nat) (L : List Nat) : Prop where
  listing : ∃ K, Listing s.fs s.img c L K
  limit : guard + L.length ≤ entryLimit s.fs

/-- The report after a free block is claimed. -/
def claimed (fs : Fs) (b : Nat) (c : Chk) : Chk :=
  { c with bmap := putBit c.bmap (b - v7DataFirst fs) true, freeBlocks := inc32 c.freeBlocks }

theorem post_markFreeSeen {α : Type} {t : Mnt} {c : Chk} {b : Nat} {log : List Access} {f : Unit → MW α}
    {Q : α → (Mnt × Chk) × List Access → Prop} {E : Errno → (Mnt × Chk) × List Access → Prop}
    (hclear : getBit c.bmap (b - v7DataFirst t.fs) = false)
    (h : Post (f () ((t, claimed t.fs b c), .bmap ((b - v7DataFirst t.fs) / 8) :: log)) Q E) :
    Post ((markFreeSeen b >>= f) ((t, c), log)) Q E := by
  refine post_bind (post_seenFs
    (post_note (post_unwatched (post_engFs (post_getChk (post_ite (fun hset => ?_) fun _ => h))))))
  exact absurd (hclear.symm.trans hset) (by decide)

/-- Where the map holds just the blocks seen so far, a walk that leaves the report empty has read the
    list to its end. -/
theorem walkFreeListSeen_silent {s : Mnt} (hs : Solo s) (fuel n : Nat) (cur : Nat → Nat)
    (seen : List Nat) (guard k : Nat) (c : Chk)
    (log : List Access) (hbits : ∀ x, InData s.fs x → (clearBit s.fs c x = false ↔ x ∈ seen))
    (herr : c.errors = 0)
    (hguard : guard ≤ entryLimit s.fs) :
    Post (walkFreeListSeen fuel n cur seen guard (({ s with ios := k }, c), log))
      (fun _ t => ∃ L, listedOf t.2 = listedOf log ++ L ∧
        (t.1.2.errors = 0 → Silent s (n, cur) guard L)) fun _ _ => True := by
  induction fuel generalizing n cur seen guard k c log with
  | zero => exact trivial
  | succ fuel ih =>
    have hone : inc32 0 ≠ 0 := by decide
    refine post_seenFs (post_ite (fun hn => ?_) fun hn => post_note (post_ite (fun h0 => ?_) fun h0 => ?_))
    · refine ⟨[], by simp, fun _ => ⟨⟨[], ?_⟩, hguard⟩⟩
      rw [hn]
      exact .empty
    · obtain ⟨m, rfl⟩ := Nat.exists_eq_succ_of_ne_zero hn
      exact ⟨[], by simp, fun _ => ⟨⟨[], .zero h0⟩, hguard⟩⟩
    have hbad : ∀ {u : Mnt} {c' : Chk} {l : List Access} {M : List Nat},
      listedOf l = listedOf log ++ M → c'.errors = 0 →
        Post (unwatched (modChk Chk.err) ((u, c'), l))
          (fun _ t => ∃ L, listedOf t.2 = listedOf log ++ L ∧
            (t.1.2.errors = 0 → Silent s (n, cur) guard L)) fun _ _ => True := by
      intro u c' l M hl he
      refine ⟨M, hl, fun h => absurd h ?_⟩
      show inc32 c'.errors ≠ 0
      rw [he]
      exact hone
    refine post_ite (fun _ => hbad (M := []) (by simp) herr) fun hout => ?_
    refine post_ite (fun _ => hbad (M := []) (by simp) herr) fun hnew => ?_
    apply post_note
    generalize hb : cur (n - 1) = b at h0 hout hnew ⊢
    have hin : InData s.fs b := ⟨Nat.le_of_not_lt (not_or.mp hout).1, Nat.lt_of_not_le (not_or.mp hout).2⟩
    have hclear : getBit c.bmap (b - v7DataFirst s.fs) = false := by
      by_contra h
      exact hnew ((hbits b hin).mp (by simpa [clearBit] using h))
    refine post_markFreeSeen (t := { s with ios := k }) hclear ?_
    generalize hc' : claimed ({ s with ios := k } : Mnt).fs b c = c'
    have herr' : c'.errors = 0 := by rw [← hc']; exact herr
    have hbits' : ∀ x, InData s.fs x → (clearBit s.fs c' x = false ↔ x ∈ b :: seen) := by
      intro x hx
      have hoff : x - v7DataFirst s.fs = b - v7DataFirst s.fs ↔ x = b := by
        have := hx.1
        have := hin.1
        omega
      rw [List.mem_cons, ← hbits x hx]
      subst hc'
      simp only [clearBit, claimed, getBit_putBit, hoff]
      by_cases hxb : x = b
      · simp [hxb]
      · simp [hxb]
    -- the rest of the list, from the cache that is left
    have hrest : ∀ {c₁ : Cache} {l : List Access} {k' : Nat}, listedOf l = listedOf log ++ [b] →
      guard + 1 ≤ entryLimit s.fs →
        (∀ L K, Listing s.fs s.img c₁ L K → ∃ K', Listing s.fs s.img (n, cur) (b :: L) K') →
        Post (walkFreeListSeen fuel c₁.1 c₁.2 (b :: seen) (guard + 1) (({ s with ios := k' }, c'), l))
          (fun _ t => ∃ L, listedOf t.2 = listedOf log ++ L ∧
            (t.1.2.errors = 0 → Silent s (n, cur) guard L)) fun _ _ => True := by
      intro c₁ l k' hl hlim hcons
      refine (ih c₁.1 c₁.2 (b :: seen) (guard + 1) k' c' l hbits' herr' hlim).mono ?_ fun _ _ h => h
      intro _ t hr
      obtain ⟨L, hL, hsilent⟩ := hr
      refine ⟨b :: L, by rw [hL, hl, List.append_assoc, List.singleton_append], fun he => ?_⟩
      obtain ⟨⟨K, hK⟩, hlen⟩ := hsilent he
      refine ⟨hcons L K hK, ?_⟩
      rw [List.length_cons]
      omega
    have hlog : ∀ i, listedOf (.bmap i :: .listed b :: .copy (n - 1) :: log) = listedOf log ++ [b] := by simp
    refine post_ite (fun _ => hbad (hlog _) herr') fun hlim => post_ite (fun hlast => ?_) fun hmore => ?_
    · obtain rfl : n = 1 := by omega
      refine post_bind (post_unwatched
        (post_outside (post_attempt ((v7fsReadBlock_spec b (s := { s with ios := k }) hs).mono ?_ ?_))))
      · intro blk t hr
        obtain ⟨rfl, ht⟩ := hr
        obtain ⟨k', -, rfl⟩ := ht hs
        refine post_ite (fun _ => hbad (hlog _) herr') fun hle => post_noteAll ?_
        refine @hrest (chainOf s.fs s.img b) _ _ (by simp) (Nat.le_of_not_lt hlim) fun L K hK => ?_
        rw [Nat.sub_self] at hb
        rw [← hb] at hin h0 hle hK ⊢
        exact ⟨_, .bottom hin h0 (Nat.le_of_not_lt hle) hK⟩
      · intro e t ht
        obtain ⟨k', -, rfl⟩ := ht hs
        exact hbad (hlog _) herr'
    · obtain ⟨m, rfl⟩ : ∃ m, n = m + 2 := ⟨n - 2, by omega⟩
      refine @hrest (m + 1, cur) _ _ (by simp) (Nat.le_of_not_lt hlim) fun L K hK => ?_
      rw [show m + 2 - 1 = m + 1 from rfl] at hb
      rw [← hb] at hin h0 ⊢
      exact ⟨K, .entry hin h0 hK⟩

theorem walk_silent {s : Mnt} (hs : Solo s) : Post (v7WalkFreeSeen ((s, {}), []))
    (fun _ t => t.1.2.errors = 0 → Silent s (s.fs.nfree, s.fs.free) 0 (listedOf t.2)) fun _ _ => True := by
  refine post_seenFs (post_noteAll
    ((walkFreeListSeen_silent hs _ _ _ [] 0 s.ios {} _ ?_ rfl (Nat.zero_le _)).mono ?_ fun _ _ h => h))
  · intro x _
    simp [clearBit, getBit_zeroBuf]
  · intro _ t hr
    obtain ⟨L, hL, hsilent⟩ := hr
    rw [listedOf_copied, List.nil_append] at hL
    rw [hL]
    exact hsilent

/-! ## The counters -/

/-- The open of the format counts the free list; the others read a stored total. -/
def CountsAtOpen (d : Desc) : Prop := d.sbCodec = false ∧ (d.isizeCount = true ∨ d.pack4 = true ∧ d.magic = 0)

/-- What the rows of the format table say of the chains that are counted. -/
structure CounterFormat (d : Desc) : Prop where
  narrow : CountsAtOpen d → d.dfNfreeWid ≠ 4
  v6 : d.isizeCount = true → ∃ bo, d = { descV6 with bo := bo }

/-- The counter reads `b` as the block that follows the chain block `a`. -/
def Follows (fs : Fs) (img : Buf) (a b : Nat) : Prop :=
  countedFree (!fs.desc.isizeCount) fs.desc (blockOf fs img a) 0 = b

/-- A two-byte field is 0 in one order where it is 0 in the other. -/
theorem get16_zero_iff (bo bo' : ByteOrder) (b : Buf) (o : Nat) : bo.get16 b o = 0 ↔ bo'.get16 b o = 0 := by
  have hle : ∀ bo : ByteOrder, bo.get16 b o = 0 ↔ (b o).toNat = 0 ∧ (b (o + 1)).toNat = 0 := by
    intro bo
    unfold ByteOrder.get16
    cases bo with
    | le => simp only [ByteOrder.sig16, num]; omega
    | be => simp only [ByteOrder.sig16, num]; omega
    | me => simp only [ByteOrder.sig16, num]; omega
  rw [hle bo, hle bo']

section Counter

variable {s : Mnt} (hm : Mounted s) (hq : ∀ k, s.env.fails k = false) (hc : CounterFormat s.fs.desc)
    (hopen : CountsAtOpen s.fs.desc)

include hc

theorem chainFree_v6 (hi : s.fs.desc.isizeCount = true) (buf : Buf) (i : Nat) :
    chainFree s.fs.desc buf i = ByteOrder.le.get16 buf (2 + 2 * i) := by
  obtain ⟨bo, hd⟩ := hc.v6 hi
  rw [hd]
  rfl

theorem countedFree_zero_iff (buf : Buf) (i : Nat) :
    countedFree (!s.fs.desc.isizeCount) s.fs.desc buf i = 0 ↔ chainFree s.fs.desc buf i = 0 := by
  unfold countedFree
  by_cases hi : s.fs.desc.isizeCount = true
  · rw [hi, chainFree_v6 hc hi]
    exact get16_zero_iff _ _ _ _
  · rw [Bool.eq_false_iff.mpr hi]
    exact Iff.rfl

/-- Off a big-endian V6 mount the counters read a chain as everyone does. -/
theorem countedFree_eq (hbe : s.fs.desc.isizeCount = true → s.fs.desc.bo ≠ .be) (buf : Buf) (i : Nat) :
    countedFree (!s.fs.desc.isizeCount) s.fs.desc buf i = chainFree s.fs.desc buf i := by
  unfold countedFree
  by_cases hi : s.fs.desc.isizeCount = true
  · rw [hi, chainFree_v6 hc hi]
    have hbo := hbe hi
    cases hb : s.fs.desc.bo with
    | le => rfl
    | me => rfl
    | be => exact absurd hb hbo
  · rw [Bool.eq_false_iff.mpr hi]
    rfl

include hm hq hopen

/-- The counter's walk of a list whose chain blocks it reads as following each other. -/
theorem countChain_listing {c : Cache} {L K : List Nat} (h : Listing s.fs s.img c L K) (cur : Nat → Nat)
    (hzero : ∀ i, i < c.1 → (cur i = 0 ↔ c.2 i = 0)) (hhead : ∀ k ∈ K.head?, cur 0 = k)
    (hchain : K.IsChain (Follows s.fs s.img))
    (g : Nat) (hg : L.length ≤ g) (blocks k : Nat) :
    Post (countChain (!s.fs.desc.isizeCount) g c.1 cur blocks { s with ios := k })
      (fun v t => v = blocks + L.length ∧ ∃ k', t = { s with ios := k' }) fun _ _ => False := by
  have hdone : ∀ {k : Nat}, (fun (v : Nat) (t : Mnt) => v = blocks + ([] : List Nat).length ∧ ∃ k',
    t = { s with ios := k' })
      blocks { s with ios := k } := fun {k} => ⟨rfl, k, rfl⟩
  induction h generalizing cur g blocks k with
  | empty =>
    cases g with
    | zero => exact hdone
    | succ g => exact post_bindFs (post_ite (fun _ => hdone) fun h => absurd (.inl rfl) h)
  | @zero n f h0 =>
    cases g with
    | zero => exact hdone
    | succ g =>
      exact post_bindFs (post_ite (fun _ => hdone) fun h =>
        absurd (.inr ((hzero n (Nat.lt_succ_self n)).mpr h0)) h)
  | @bottom f L K hin h0 hle _ ih =>
    obtain ⟨g, rfl⟩ : ∃ g', g = g' + 1 := ⟨g - 1, by rw [List.length_cons] at hg; omega⟩
    have hcur : cur 0 = f 0 := hhead _ rfl
    have hmk : Mounted { s with ios := k } := hm.of_sameVol ⟨rfl, rfl, rfl⟩
    refine post_bindFs (post_ite (fun h => ?_) fun _ => post_ite (fun _ => ?_) fun h => absurd rfl h)
    · exact absurd (hcur.symm.trans (h.resolve_left Nat.one_ne_zero)) h0
    rw [hcur]
    refine post_bind (post_attempt (hmk.post_read hin.2 (fun _ => ?_) fun hf _ =>
      absurd ((hq _).symm.trans hf) (by decide)))
    have hcount : num (dfNfreeSig s.fs.desc) (blockOf s.fs s.img (f 0)) 0 = (chainOf s.fs s.img (f 0)).1 := by
      refine (Nat.mod_eq_of_lt ?_).symm
      have hlt := num_lt (perm_dfNfreeSig s.fs.desc) (blockOf s.fs s.img (f 0)) 0
      rwa [length_dfNfreeSig, if_neg (hc.narrow hopen)] at hlt
    refine post_ite (fun h => ?_) fun _ => ?_
    · exact absurd hle (Nat.not_le.mpr (by rw [← hcount]; exact h.2))
    show Post (countChain _ g (num (dfNfreeSig s.fs.desc) (blockOf s.fs s.img (f 0)) 0)
      (countedFree (!s.fs.desc.isizeCount) s.fs.desc (blockOf s.fs s.img (f 0))) (blocks + 1)
      { s with ios := k + 1 }) _ _
    rw [hcount]
    refine (ih _ (fun i _ => countedFree_zero_iff hc _ i) ?_ hchain.of_cons g
      (by rw [List.length_cons] at hg; omega) _ _ ?_).mono ?_ fun _ _ h => h
    · intro k' hk'
      cases K with
      | nil => cases hk'
      | cons x K =>
        obtain rfl : x = k' := by simpa using hk'
        exact (List.isChain_cons_cons.mp hchain).1
    · exact fun {k} => ⟨rfl, k, rfl⟩
    · intro v t hr
      obtain ⟨hv, ht⟩ := hr
      exact ⟨by rw [hv, List.length_cons]; omega, ht⟩
  | @entry n f L K hin h0 _ ih =>
    obtain ⟨g, rfl⟩ : ∃ g', g = g' + 1 := ⟨g - 1, by rw [List.length_cons] at hg; omega⟩
    refine post_bindFs (post_ite (fun h => ?_) fun _ =>
      post_ite (fun h => absurd h (Nat.succ_ne_zero n)) fun _ => ?_)
    · exact absurd ((hzero (n + 1) (Nat.lt_succ_self _)).mp (h.resolve_left (Nat.succ_ne_zero _))) h0
    · refine (ih cur (fun i hi => hzero i (Nat.lt_succ_of_lt hi)) hhead hchain g
        (by rw [List.length_cons] at hg; omega) (blocks + 1) k ?_).mono
        ?_ fun _ _ h => h
      · exact fun {k} => ⟨rfl, k, rfl⟩
      · intro v t hr
        obtain ⟨hv, ht⟩ := hr
        exact ⟨by rw [hv, List.length_cons]; omega, ht⟩

omit hm hq hc hopen in
/-- Each chain block names the next. -/
theorem follows_of_order {c : Cache} {L K : List Nat} (h : Listing s.fs s.img c L K)
    (heq : ∀ buf, countedFree (!s.fs.desc.isizeCount) s.fs.desc buf 0 = chainFree s.fs.desc buf 0) :
    K.IsChain (Follows s.fs s.img) := by
  induction h with
  | empty => exact .nil
  | zero => exact .nil
  | @bottom f L K _ _ _ ht ih =>
    cases K with
    | nil => exact .singleton _
    | cons k K =>
      refine List.isChain_cons_cons.mpr ⟨?_, ih⟩
      exact (heq _).trans (ht.head rfl)
  | entry _ _ _ ih => exact ih

end Counter

/-! ## The walks and the allocator -/

/-- A mounted volume of the format `d` that keeps its free blocks on a list, every transfer working. -/
structure ListVolume (d : Desc) (s : Mnt) : Prop where
  mounted : Mounted s
  list : OnFreelist s.fs
  quiet : ∀ k, s.env.fails k = false
  desc : s.fs.desc = d

/-- The check's walk returns, from whatever map, and counts no block twice. Where it reports nothing
    from the empty map, it has listed what the allocator hands out until it finds no block, and an open
    that counts counts as many. -/
structure WalkersAgree (s : Mnt) : Prop where
  stops : ∀ c, ∃ t, v7WalkFreeSeen ((s, c), []) = .ok () t ∧ (listedOf t.2).Nodup ∧
    t.1.2.freeBlocks = inc32^[((listedOf t.2).filter (clearBit s.fs c)).length] c.freeBlocks
  drains : ∀ t, v7WalkFreeSeen ((s, {}), []) = .ok () t → t.1.2.errors = 0 → Drains s (listedOf t.2)
  counts : ∀ t, v7WalkFreeSeen ((s, {}), []) = .ok () t → t.1.2.errors = 0 → CountsAtOpen s.fs.desc →
    (final countFree s).fs.tfree = (listedOf t.2).length

/-- Every chain block of the list names the next one in the byte order the counter reads it in. -/
def InCounterOrder (s : Mnt) : Prop :=
  ∀ L K, Listing s.fs s.img (s.fs.nfree, s.fs.free) L K → K.IsChain (Follows s.fs s.img)

section Agree

variable {d : Desc} {s : Mnt} (hd : CounterFormat d) (hv : ListVolume d s)

include hd hv

theorem countFree_total {L : List Nat} (horder : InCounterOrder s) (hopen : CountsAtOpen s.fs.desc)
    (hL : Silent s (s.fs.nfree, s.fs.free) 0 L) : (final countFree s).fs.tfree = L.length := by
  obtain ⟨⟨K, hK⟩, hlim⟩ := hL
  have hc : CounterFormat s.fs.desc := hv.desc ▸ hd
  have hlt : L.length < 2 ^ 32 := by
    have := Nat.mod_lt (s.fs.fsize + s.fs.desc.nicfree) (show 0 < 2 ^ 32 by decide)
    unfold entryLimit at hlim
    omega
  have hpost : Post (countFree s) (fun _ t => t.fs.tfree = L.length) fun _ _ => False := by
    refine post_bindFs (post_bind
      ((countChain_listing hv.mounted hv.quiet hc hopen hK s.fs.free (fun _ _ => Iff.rfl)
      (fun k hk => hK.head hk) (horder L K hK) _ ?_ 0 s.ios).mono ?_ fun _ _ h => h))
    · unfold entryLimit at hlim
      omega
    · intro v t hrun
      obtain ⟨hblocks, -⟩ := hrun
      refine post_bind ((countLive_spec _ _ _ t).mono (fun used u _ => ?_) fun _ _ h => h)
      show v % 2 ^ 32 = L.length
      rw [hblocks, Nat.zero_add, Nat.mod_eq_of_lt hlt]
  obtain ⟨_, t, hr, ht⟩ := hpost.succeeds
  unfold final
  rw [hr]
  exact ht

theorem walkersAgree_of_order (horder : InCounterOrder s) : WalkersAgree s where
  stops c := by
    obtain ⟨_, t, hr, ht⟩ := (walk_stops s c).succeeds
    exact ⟨t, hr, ht⟩
  drains t hr he := by
    obtain ⟨⟨K, hK⟩, -⟩ := (walk_silent hv.mounted.solo).of_ok hr he
    have hfirst : 2 ≤ v7DataFirst s.fs := by
      have := hv.mounted.first
      unfold opsDataStart at this
      split at this
      · exact absurd ‹_› hv.list.notV1
      · exact absurd ‹_› hv.list.notPdp7
      · exact this
    exact hK.drains hv.mounted hfirst hv.quiet ((walk_stops s {}).of_ok hr).1
  counts t hr he hopen := countFree_total hd hv horder hopen ((walk_silent hv.mounted.solo).of_ok hr he)

theorem inCounterOrder_of_order (hbe : d.isizeCount = true → d.bo ≠ .be) : InCounterOrder s := by
  intro L K hK
  have hc : CounterFormat s.fs.desc := hv.desc ▸ hd
  exact follows_of_order hK fun buf => countedFree_eq hc (by rw [hv.desc]; exact hbe) buf 0

end Agree

/-- A big-endian V6 volume: block 3 names chain block 4, whose cache holds block 5. -/
def crossed : Mnt where
  fs := { desc := { descV6 with bo := .be }, imgsize := 3072, isize := 1, fsize := 6, nfree := 1
          free := fun i => if i = 0 then 3 else 0 }
  img := fun o => if o = 1537 then 1 else if o = 1538 then 4 else if o = 2049 then 2
    else if o = 2052 then 5 else 0
  size := 3072

theorem crossed_listVolume : ListVolume { descV6 with bo := .be } crossed where
  mounted := ⟨fun _ _ => rfl, by decide, rfl, by decide, by decide, by decide,
    rfl, by decide, by decide, by decide⟩
  list := ⟨by decide, by decide, rfl, rfl⟩
  quiet _ := rfl
  desc := rfl

/-- The walk lists three blocks, the counter counts two. -/
theorem crossed_disagrees : ¬ WalkersAgree crossed := by
  intro h
  have hlisted : listedOf (final v7WalkFreeSeen ((crossed, {}), [])).2 = [3, 4, 5] := by decide +kernel
  have herr : (final v7WalkFreeSeen ((crossed, {}), [])).1.2.errors = 0 := by decide +kernel
  have hcount : (final countFree crossed).fs.tfree = 2 := by decide +kernel
  obtain ⟨t, hr, -⟩ := h.stops {}
  have hfin : final v7WalkFreeSeen ((crossed, {}), []) = t := by
    unfold final
    rw [hr]
  rw [hfin] at hlisted herr
  have := h.counts t hr herr ⟨rfl, .inl rfl⟩
  rw [hlisted, hcount] at this
  exact absurd this (by decide)

theorem a_big_endian_v6_list_is_miscounted : ListVolume { descV6 with bo := .be } crossed ∧
    ¬ WalkersAgree crossed :=
  ⟨crossed_listVolume, crossed_disagrees⟩

/-- The walks agree where the counter reads the chain in its order, so on every volume of a format
    unless it is V6's on a big-endian machine. -/
theorem walkers_agree {d : Desc} (hd : CounterFormat d) :
    (∀ s, ListVolume d s → InCounterOrder s → WalkersAgree s) ∧
    ((∀ s, ListVolume d s → WalkersAgree s) ↔ (d.isizeCount = true → d.bo ≠ .be)) := by
  refine ⟨fun s hv horder => walkersAgree_of_order hd hv horder, fun hall hi hbo => ?_, fun hbe s hv => ?_⟩
  · obtain ⟨bo, rfl⟩ := hd.v6 hi
    obtain rfl : bo = .be := hbo
    exact crossed_disagrees (hall crossed crossed_listVolume)
  · exact walkersAgree_of_order hd hv (inCounterOrder_of_order hd hv hbe)

/-- A 32V volume of six blocks whose list is block 3 alone. -/
def straight : Mnt where
  fs := { desc := filsysGetformat .v32, imgsize := 3072, isize := 3, fsize := 6, nfree := 1
          free := fun i => if i = 0 then 3 else 0 }
  img := zeroBuf
  size := 3072

theorem straight_listVolume : ListVolume (filsysGetformat .v32) straight where
  mounted := ⟨fun _ _ => rfl, by decide, rfl, by decide, by decide, by decide,
    rfl, by decide, by decide, by decide⟩
  list := ⟨by decide, by decide, rfl, rfl⟩
  quiet _ := rfl
  desc := rfl

theorem a_32v_list_is_counted_as_it_drains : WalkersAgree straight :=
  (walkers_agree ⟨fun _ => by decide, fun h => absurd h (by decide)⟩).2.mpr
  (fun h => absurd h (by decide)) straight straight_listVolume

end Filsys.Check
