/-
  Filsys.Blockmap.Bmap — the block map is a map (blocktree.c).

  Creating a block and asking for it again gives the same block, every other logical block
  resolves as it did, and no block serves two of them or a logical block and the tree
  itself (`block_map`). A small file that outgrows its slots has its blocks moved below the
  first one on the way (`post_promote`): their places change, what they map does not.
-/

import Filsys.Alloc.Prefix
import Filsys.Blockmap.Grow

namespace Filsys.Blockmap

open Filsys.Lib Filsys.Engine Filsys.Alloc Filsys.Check Filsys.Tree

/-! ## Making a block -/

/-- What making the block at `target` leaves. -/
structure Made (s : Mnt) (l : Loc) (target : List Nat) (r : Nat) (t : Mnt × Loc) :
    Prop extends Grew s l.ip target t.1 t.2.ip where
  bl : t.2.bl = l.bl
  ne_zero : r ≠ 0
  here : blockAt t.1 t.2.ip target = r

section Slots

variable {s : Mnt} {l : Loc} (h : Able s l.ip)

include h

/-- A slot that was empty gets a block. -/
theorem grew_slot {slot : Nat} (idxs : List Nat) (hslot : slot < s.fs.desc.niaddr)
    (h0 : l.ip.addr slot = 0) {nb : Nat} {u : Mnt} (hb : balloc s = .ok nb u) :
    Grew s l.ip (slot :: idxs) u (l.ip.setAddr slot nb) ∧ blockAt u (l.ip.setAddr slot nb) [slot] = nb ∧
    nb ≠ 0 := by
  have hung := hung_slot h.ready h.tree (h.prudent 1) hb h0
  refine ⟨hung.grew h (prudent_after h.prudent hb) ⟨idxs, rfl⟩, ?_, h.ready.area_pos hung.usable.1⟩
  rw [hung.look [slot] (place_cons.mpr ⟨hslot, Nat.zero_le _, fun _ hi => absurd hi List.not_mem_nil⟩),
    if_pos rfl]

theorem post_bmapIndFollow_true {slot : Nat} {idxs : List Nat} (hne : idxs ≠ [])
    (hpl : Place s.fs.desc l.ip.mode (slot :: idxs)) :
    Post (bmapIndFollow true slot idxs (s, l)) (fun r t => Made s l (slot :: idxs) r t)
    (fun e t => NoBlock s e t.1) := by
  show Post ((if l.ip.addr slot = 0 then _ else _ : MI Nat) (s, l)) _ _
  refine post_ite (fun h0 => post_ite (fun _ => ?_) fun hc => absurd rfl hc) fun h0 => ?_
  · refine post_bind (post_outside ?_)
    cases hb : balloc s with
    | error e t => exact ⟨s, .start s, hb⟩
    | ok nb u =>
      obtain ⟨hgrew, hat, hnb⟩ := grew_slot h idxs (place_cons.mp hpl).1 h0 hb
      apply post_bind
      show Post (up (indFollow true idxs nb) (u, { l with ip := l.ip.setAddr slot nb })) _ _
      have hrun := post_indFollow_true idxs hne (p := [slot]) hgrew.able (by simp)
        (by rw [shape_desc hgrew.shape, hgrew.mode]; exact hpl) (by rw [hat]; exact hnb)
      rw [hat] at hrun
      refine post_outside (hrun.mono ?_ fun _ _ he => he.after (.took (.start s) hb))
      intro r t hres
      obtain ⟨hr0, hg, hr⟩ := hres
      exact ⟨hgrew.trans hg, rfl, hr0, hr⟩
  · refine post_outside ((post_indFollow_true idxs hne (p := [slot]) h (by simp) hpl h0).mono ?_
      fun _ _ he => he)
    intro r t hres
    obtain ⟨hr0, hg, hr⟩ := hres
    exact ⟨hg, rfl, hr0, hr⟩

/-- The search and the walk, in the layout the copy has. -/
theorem post_bmapSlots_true {lbn slot : Nat} {idxs : List Nat} (hl : lbn < 2 ^ 32)
    (hp : pathOf s.fs.desc l.ip.mode lbn = some (slot, idxs)) :
    Post ((match findSlot s.fs.desc l.ip.mode lbn s.fs.desc.niaddr 0 0 with
        | none => if true then throw .efbig else pure 0
        | some (slot, r) =>
          match slotLevel s.fs.desc l.ip.mode slot with
          | none =>
            if l.ip.addr slot = 0 ∧ true = true then up balloc >>= fun nb =>
            (modIp fun ip => ip.setAddr slot nb) >>= fun _ => pure nb
            else pure (l.ip.addr slot)
          | some level => bmapIndFollow true slot (levelIdx s.fs.desc.nindir level r) : MI Nat) (s, l))
      (fun r t => Made s l (slot :: idxs) r t) (fun e t => NoBlock s e t.1) := by
  have hpl := place_pathOf h.ready.form hl hp
  cases hf : findSlot s.fs.desc l.ip.mode lbn s.fs.desc.niaddr 0 0 with
  | none =>
    rw [findSlot_none hf] at hp
    cases hp
  | some q =>
    obtain ⟨slot', r⟩ := q
    rw [findSlot_path hf] at hp
    obtain ⟨rfl, rfl⟩ := Prod.mk.inj (Option.some.inj hp)
    show Post ((match slotLevel s.fs.desc l.ip.mode slot' with
      | none =>
        if l.ip.addr slot' = 0 ∧ true = true then up balloc >>= fun nb =>
        (modIp fun ip => ip.setAddr slot' nb) >>= fun _ => pure nb
        else pure (l.ip.addr slot')
      | some level => bmapIndFollow true slot' (levelIdx s.fs.desc.nindir level r) : MI Nat) (s, l)) _ _
    cases hlev : slotLevel s.fs.desc l.ip.mode slot' with
    | none =>
      apply post_ite
      · intro hc
        refine post_bind (post_outside ?_)
        cases hb : balloc s with
        | error e t => exact ⟨s, .start s, hb⟩
        | ok nb u =>
          obtain ⟨hgrew, hat, hnb⟩ := grew_slot h [] (pathOf_slot hl (findSlot_path hf)) hc.1 hb
          exact ⟨hgrew, rfl, hnb, hat⟩
      · intro hc
        have h0 : l.ip.addr slot' ≠ 0 := fun h0 => hc ⟨h0, rfl⟩
        exact ⟨Grew.refl h _ s.ios, rfl, h0, rfl⟩
    | some level =>
      rw [hlev] at hpl
      refine post_bmapIndFollow_true h (fun hnil => ?_) hpl
      have := levelIdx_length s.fs.desc.nindir level r
      rw [hnil] at this
      cases this

end Slots

/-! ## Promotion -/

/-- A file moved to the large layout, what it maps unchanged. -/
structure Moved (s : Mnt) (l : Loc) (t : Mnt × Loc) : Prop extends SameVol s t.1 where
  bl : t.2.bl = l.bl
  able : Able t.1 t.2.ip
  large : ¬ Small s.fs.desc t.2.ip.mode
  map : ∀ k, k < 2 ^ 32 → mapAt t.1 t.2.ip k = mapAt s l.ip k

theorem get_zeroBuf (c : WordCodec) (i : Nat) : c.get zeroBuf i = 0 := by
  cases c with
  | rb09 => simp [WordCodec.get, boGet32le, ByteOrder.get32, num, zeroBuf, word18, ByteOrder.sig32]
  | packed18 =>
    show boGet18packed zeroBuf i = 0
    unfold boGet18packed
    simp only [getBit_zeroBuf]
    rfl
  | rim => simp [WordCodec.get, zeroBuf]

/-- The buffer that goes out on a promotion holds the slots. -/
theorem Ready.indGet_promoteBuf {s : Mnt} (h : Ready s) {addr : Nat → Nat} (n : Nat)
    (haddr : ∀ i, i < n → addr i = 0 ∨ InArea s.fs (addr i)) (i : Nat) :
    indGet s.fs.desc (promoteBuf s.fs.desc addr n) i = if i < n then addr i else 0 := by
  induction n with
  | zero =>
    rw [promoteBuf, if_neg (Nat.not_lt_zero _)]
    rcases h.volume with hm | hm
    · exact indGet_zeroBuf hm.notPdp7 i
    · unfold indGet
      rw [hm.pdp7]
      exact get_zeroBuf _ i
  | succ n ih =>
    rw [promoteBuf, h.indGet_indPut (haddr n (Nat.lt_succ_self n)), ih fun j hj => haddr j (by omega)]
    by_cases hin : i = n
    · rw [if_pos hin, if_pos (by omega), hin]
    · rw [if_neg hin]
      by_cases hlt : i < n
      · rw [if_pos hlt, if_pos (by omega)]
      · rw [if_neg hlt, if_neg (by omega)]

/-- The slots are places. -/
theorem place_slot {d : Desc} {mode slot : Nat} (h : slot < d.niaddr) : Place d mode [slot] :=
  place_cons.mpr ⟨h, Nat.zero_le _, fun _ hj => absurd hj List.not_mem_nil⟩

section Promote

variable {s : Mnt} {ip : Inode} (h : Able s ip) (hs : Small s.fs.desc ip.mode)

include h hs

theorem mapAt_small (k : Nat) : mapAt s ip k = if k < s.fs.desc.niaddr then ip.addr k else 0 := by
  have hp := pathOf_small (h.ready.form.promotes hs.1) hs k
  by_cases hk : k < s.fs.desc.niaddr
  · rw [if_pos hk] at hp ⊢
    exact mapAt_some hp
  · rw [if_neg hk] at hp ⊢
    exact mapAt_none hp

/-- The places of the promoted file: the new block, and below it the old slots. -/
theorem blockAt_promoted {b : Nat} {v : Mnt} (hb0 : b ≠ 0)
    (hent : ∀ i, i < s.fs.desc.nindir → heap v b i = if i < s.fs.desc.niaddr then ip.addr i else 0)
    {q : List Nat}
    (hq : Place s.fs.desc (promoted s.fs.desc ip b).mode q) (hne : blockAt v (promoted s.fs.desc ip b) q ≠ 0) :
    q = [0] ∧ blockAt v (promoted s.fs.desc ip b) q = b ∨
      ∃ i, i < s.fs.desc.niaddr ∧ q = [0, i] ∧ blockAt v (promoted s.fs.desc ip b) q = ip.addr i := by
  have hpro := h.ready.form.promotes hs.1
  have hmask := has_or_self (m := ip.mode) hs.1
  obtain ⟨slot, idxs, rfl, hslot, hlen, hidx⟩ := hq
  by_cases h0 : slot = 0
  · subst h0
    have hdepth : depth s.fs.desc (promoted s.fs.desc ip b).mode 0 = 1 := by
      unfold depth slotLevel
      rw [if_pos ⟨hs.1, hmask⟩, if_pos hpro.single]
    rw [hdepth] at hlen
    cases idxs with
    | nil => exact .inl ⟨rfl, rfl⟩
    | cons i rest =>
      obtain rfl : rest = [] := List.eq_nil_of_length_eq_zero (by rw [List.length_cons] at hlen; omega)
      have hval : blockAt v (promoted s.fs.desc ip b) [0, i] = if i < s.fs.desc.niaddr then ip.addr i
        else 0 := by
        have hstep : blockAt v (promoted s.fs.desc ip b) [0, i] = heap v b i := if_neg hb0
        rw [hstep, hent i (hidx i (List.mem_singleton.mpr rfl))]
      rw [hval] at hne ⊢
      split at hne
      · rename_i hi
        exact .inr ⟨i, hi, rfl, if_pos hi⟩
      · exact absurd rfl hne
  · refine absurd ?_ hne
    show walk (heap v) (if slot = 0 then b else if slot < s.fs.desc.ndaddr then 0 else ip.addr slot) idxs = 0
    rw [if_neg h0, if_pos (by rw [hpro.direct]; exact hslot), walk_zero]

/-- The new first slot's block has been written with the old slots. -/
theorem moved_promote {b : Nat} {u v : Mnt} (hb : balloc s = .ok b u)
    (hw : Wrote u b (indGet s.fs.desc (promoteBuf s.fs.desc ip.addr s.fs.desc.ndaddr)) v)
    {l : Loc} (hl : l.ip = ip) :
    Moved s l (v, { l with ip := promoted s.fs.desc ip b }) := by
  have hpro := h.ready.form.promotes hs.1
  have hmask := has_or_self (m := ip.mode) hs.1
  obtain ⟨hh, hfresh, -⟩ := heap_after_balloc h.ready h.tree (h.prudent 1) hb
  have hvol := sameVol_law.trans hh.toSameVol hw.toSameVol
  have hdv : v.fs.desc = s.fs.desc := shape_desc hvol.shape
  have hb0 : b ≠ 0 := h.ready.area_pos hh.usable.1
  have hheld : ∀ i, i < s.fs.desc.niaddr → ip.addr i ≠ 0 → InTree s ip (ip.addr i) :=
    fun i hi h0 => ⟨h0, [i], place_slot hi, rfl⟩
  have hent : ∀ i, i < s.fs.desc.nindir → heap v b i = if i < s.fs.desc.niaddr then ip.addr i else 0 := by
    intro i hi
    rw [hw.here i (by rw [shape_desc hh.shape]; exact hi), h.ready.indGet_promoteBuf, hpro.direct]
    intro j hj
    by_cases h0 : ip.addr j = 0
    · exact .inl h0
    · exact .inr (h.tree.usable _ (hheld j (by rw [← hpro.direct]; exact hj) h0)).1
  have hcases := @blockAt_promoted s ip h hs b v hb0 hent
  have hin : ∀ c, InTree v (promoted s.fs.desc ip b) c → InTree s ip c ∨ c = b := by
    intro c hr
    obtain ⟨h0, q, hq, rfl⟩ := hr
    rw [hdv] at hq
    rcases hcases hq h0 with ⟨-, hv⟩ | ⟨i, hi, -, hv⟩
    · exact .inr hv
    · have hv' : look (promoted s.fs.desc ip b).addr (heap v) q = ip.addr i := hv
      rw [hv'] at h0 ⊢
      exact .inl (hheld i hi h0)
  have hlarge : ¬ Small s.fs.desc (promoted s.fs.desc ip b).mode :=
    fun hsm => absurd (hmask.symm.trans hsm.2) (by decide)
  refine ⟨hvol, rfl, ⟨h.ready.of_sameVol hvol, ⟨fun p q hp hq heq h0 => ?_, fun c hc => ?_⟩, fun k =>
    ?_⟩, hlarge, fun k hk => ?_⟩
  · rw [hdv] at hp hq
    have hne : ∀ i, i < s.fs.desc.niaddr → ip.addr i ≠ b := by
      rintro i hi rfl
      exact hfresh (hheld i hi hb0)
    have h0q : blockAt v (promoted s.fs.desc ip b) q ≠ 0 := by
      unfold blockAt
      rw [← heq]
      exact h0
    have heq' : blockAt v (promoted s.fs.desc ip b) p = blockAt v (promoted s.fs.desc ip b) q := heq
    rcases hcases hp h0 with ⟨rfl, hpv⟩ | ⟨i, hi, rfl, hpv⟩ <;>
      rcases hcases hq h0q with ⟨rfl, hqv⟩ | ⟨j, hj, rfl, hqv⟩
    · rfl
    · rw [hpv, hqv] at heq'
      exact absurd heq'.symm (hne j hj)
    · rw [hpv, hqv] at heq'
      exact absurd heq' (hne i hi)
    · rw [hpv, hqv] at heq'
      have h0' : ip.addr i ≠ 0 := hpv ▸ h0
      obtain ⟨rfl⟩ : i = j := by
        have := h.tree.unshared [i] [j] (place_slot hi) (place_slot hj) heq' h0'
        simpa using this
      rfl
  · rw [usable_of_sameVol hvol]
    rcases hin c hc with hc' | rfl
    · exact h.tree.usable c hc'
    · exact hh.usable
  · refine ((prudent_after h.prudent hb k).off ⟨hw.toSameVol, hw.fs, fun c hc => hw.other c ?_⟩).fewer hin
    rintro rfl
    exact hc (.inr rfl)
  · rw [hl, mapAt_small h hs]
    obtain ⟨hfirst, honly⟩ := pathOf_first hpro hs.1 hmask hk
    show mapAt v (promoted s.fs.desc ip b) k = _
    by_cases hlt : k < s.fs.desc.nindir
    · rw [mapAt_some (by rw [hdv]; exact hfirst hlt)]
      have hstep : blockAt v (promoted s.fs.desc ip b) [0, k] = heap v b k := if_neg hb0
      rw [hstep, hent k hlt]
    · have hfit := hpro.fit
      have hdir := hpro.direct
      rw [if_neg (by omega)]
      by_contra hne
      cases hp : pathOf s.fs.desc (promoted s.fs.desc ip b).mode k with
      | none => exact hne (mapAt_none (by rw [hdv]; exact hp))
      | some q =>
        obtain ⟨slot, idxs⟩ := q
        rw [mapAt_some (by rw [hdv]; exact hp)] at hne
        have hslot : slot = 0 := by
          rcases hcases (place_pathOf h.ready.form hk hp) hne with ⟨heq, -⟩ | ⟨i, -, heq, -⟩
          · exact (List.cons.inj heq).1
          · exact (List.cons.inj heq).1
        subst hslot
        exact hlt (honly idxs hp)

theorem post_promote {l : Loc} (hl : l.ip = ip) :
    Post (promote (s, l)) (fun _ t => Moved s l t ∧ Making s t.1) (fun e t => NoBlock s e t.1) := by
  subst hl
  show Post ((up balloc >>= fun iblk =>
    up (failAs .eio (writeBlock iblk (promoteBuf s.fs.desc l.ip.addr s.fs.desc.ndaddr))) >>= fun _ =>
    modIp fun ip => promoted s.fs.desc ip iblk : MI Unit) (s, l)) _ _
  refine post_bind (post_outside ?_)
  cases hb : balloc s with
  | error e t => exact ⟨s, .start s, hb⟩
  | ok b u =>
    obtain ⟨hh, -, -⟩ := heap_after_balloc h.ready h.tree (h.prudent 1) hb
    have hru := h.ready.of_sameVol hh.toSameVol
    have hub := (usable_of_sameVol hh.toSameVol).mpr hh.usable
    refine post_bind (post_outside (post_failAs ?_))
    refine (post_writeBlock hru.volume hru.quiet hub hru.form _).self.mono ?_ fun _ _ hf => hf.2.elim
    intro _ v hr
    obtain ⟨hrun, hw⟩ := hr
    rw [shape_desc hh.shape] at hw
    exact ⟨moved_promote h hs hb hw rfl, .wrote (.took (.start s) hb) hrun⟩

end Promote

/-! ## The whole call -/

/-- What creating the logical block `lbn` leaves. -/
structure Created (s : Mnt) (l : Loc) (lbn r : Nat) (t : Mnt × Loc) : Prop extends SameVol s t.1 where
  bl : t.2.bl = l.bl
  able : Able t.1 t.2.ip
  ne_zero : r ≠ 0
  here : mapAt t.1 t.2.ip lbn = r
  other : ∀ k, k < 2 ^ 32 → k ≠ lbn → mapAt t.1 t.2.ip k = mapAt s l.ip k

/-- The way to one logical block is no part of the way to another. -/
theorem not_prefix_path {d : Desc} {mode lbn k slot slot' : Nat} {idxs idxs' : List Nat}
    (hl : lbn < 2 ^ 32) (hk : k < 2 ^ 32)
    (hp : pathOf d mode lbn = some (slot, idxs)) (hp' : pathOf d mode k = some (slot', idxs')) (hne : k ≠ lbn) :
    ¬ slot' :: idxs' <+: slot :: idxs := by
  intro hpre
  rw [List.cons_prefix_cons] at hpre
  obtain ⟨rfl, hpre⟩ := hpre
  have hlen : idxs'.length = idxs.length := (pathOf_length hp').trans (pathOf_length hp).symm
  obtain rfl := hpre.eq_of_length hlen
  exact hne (pathOf_inj hk hl hp' hp)

theorem Made.created {s : Mnt} {l : Loc} {lbn slot r : Nat} {idxs : List Nat} {t : Mnt × Loc}
    (hf : Formed s.fs.desc) (hl : lbn < 2 ^ 32)
    (hp : pathOf s.fs.desc l.ip.mode lbn = some (slot, idxs)) (h : Made s l (slot :: idxs) r t) :
    Created s l lbn r t := by
  have hd : t.1.fs.desc = s.fs.desc := shape_desc h.shape
  refine ⟨h.toSameVol, h.bl, h.able, h.ne_zero, ?_, ?_⟩
  · rw [mapAt_some (by rw [hd, h.mode]; exact hp)]
    exact h.here
  · intro k hk hne
    cases hpk : pathOf s.fs.desc l.ip.mode k with
    | none => rw [mapAt_none hpk, mapAt_none (by rw [hd, h.mode]; exact hpk)]
    | some q =>
      obtain ⟨slot', idxs'⟩ := q
      rw [mapAt_some hpk, mapAt_some (by rw [hd, h.mode]; exact hpk)]
      exact h.keep _ (place_pathOf hf hk hpk) (.inr (not_prefix_path hl hk hp hpk hne))

theorem pathOf_of_lt {d : Desc} (hf : Formed d) {mode lbn : Nat} (h : lbn < base d mode d.niaddr) :
    ∃ slot idxs, pathOf d mode lbn = some (slot, idxs) := by
  obtain ⟨slot, r, hfind⟩ := findSlot_of_lt (base_total hf mode) h
  exact ⟨slot, _, findSlot_path hfind⟩

/-- `filsys_bmap` with `create` makes the block, unless the allocator has none to give. -/
theorem post_filsysBmap_true {s : Mnt} {l : Loc} (h : Able s l.ip) {lbn : Nat}
    (hl : lbn * s.fs.desc.bsize < maxFile s.fs.desc) :
    Post (filsysBmap lbn true (s, l)) (fun r t => Created s l lbn r t) (fun e t => NoBlock s e t.1) := by
  have hf := h.ready.form
  have hlbn := lt_of_maxFile hf hl
  show Post ((onlyIf (s.fs.desc.ilargMask ≠ 0 ∧ (!has l.ip.mode s.fs.desc.ilargMask) = true ∧
    true = true ∧ s.fs.desc.ndaddr ≤ lbn) promote >>=
    fun _ => getIp >>= fun ip => _ : MI Nat) (s, l)) _ _
  refine post_bind (post_onlyIf ?_ ?_)
  · intro hc
    have hs : Small s.fs.desc l.ip.mode := ⟨hc.1, by simpa using hc.2.1⟩
    refine (post_promote h hs rfl).mono ?_ fun _ _ he => he
    intro _ t hr
    obtain ⟨hm, hmade⟩ := hr
    have hd : t.1.fs.desc = s.fs.desc := shape_desc hm.shape
    obtain ⟨slot, idxs, hp⟩ := pathOf_of_lt hf (lt_base_of_maxFile hf hm.large hl)
    have hrun := post_bmapSlots_true hm.able hlbn (by rw [hd]; exact hp)
    rw [hd] at hrun
    refine hrun.mono ?_ fun _ _ he => he.after hmade
    intro r v hmade
    have hc := hmade.created (by rw [hd]; exact hf) hlbn (by rw [hd]; exact hp)
    refine ⟨sameVol_law.trans hm.toSameVol hc.toSameVol, hc.bl.trans hm.bl, hc.able, hc.ne_zero,
      hc.here, fun k hk hne => ?_⟩
    exact (hc.other k hk hne).trans (hm.map k hk)
  · intro hc
    obtain ⟨slot, idxs, hp⟩ : ∃ slot idxs, pathOf s.fs.desc l.ip.mode lbn = some (slot, idxs) := by
      by_cases hs : Small s.fs.desc l.ip.mode
      · refine pathOf_of_lt hf ?_
        rw [base_small hf hs]
        by_contra hge
        exact hc ⟨hs.1, by simpa using hs.2, rfl, by omega⟩
      · exact pathOf_of_lt hf (lt_base_of_maxFile hf hs hl)
    exact (post_bmapSlots_true h hlbn hp).mono (fun r t hmade => hmade.created hf hlbn hp) fun _ _ he => he

/-- What `filsys_bmap` without `create` answers for a logical block. -/
def resolves (t : Mnt × Loc) (lbn : Nat) : Option Nat :=
  match filsysBmap lbn false t with
  | .ok r _ => some r
  | .error _ _ => none

theorem resolves_eq {s : Mnt} {l : Loc} (hr : Ready s) (hok : TreeOk s l.ip) {k : Nat}
    (hk : k < 2 ^ 32) : resolves (s, l) k = some (mapAt s l.ip k) := by
  obtain ⟨r, t, hrun, hval, -⟩ := (post_filsysBmap_false hr hok hk).succeeds
  unfold resolves
  rw [hrun, hval]

/-- The block is an indirect block of the tree. -/
def IndirectBlock (s : Mnt) (ip : Inode) (b : Nat) : Prop :=
  ∃ slot idxs, Place s.fs.desc ip.mode (slot :: idxs) ∧ idxs.length < depth s.fs.desc ip.mode slot ∧
  blockAt s ip (slot :: idxs) = b

theorem mapAt_path {s : Mnt} {ip : Inode} (hf : Formed s.fs.desc) {k : Nat} (hk : k < 2 ^ 32)
    (h0 : mapAt s ip k ≠ 0) :
    ∃ slot idxs, pathOf s.fs.desc ip.mode k = some (slot, idxs) ∧
    Place s.fs.desc ip.mode (slot :: idxs) ∧ mapAt s ip k = blockAt s ip (slot :: idxs) := by
  cases hp : pathOf s.fs.desc ip.mode k with
  | none => exact absurd (mapAt_none hp) h0
  | some q =>
    obtain ⟨slot, idxs⟩ := q
    exact ⟨slot, idxs, rfl, place_pathOf hf hk hp, mapAt_some hp⟩

/-- Different logical blocks are different blocks. -/
theorem mapAt_inj {s : Mnt} {ip : Inode} (h : Able s ip) {j k : Nat} (hj : j < 2 ^ 32)
    (hk : k < 2 ^ 32) (h0 : mapAt s ip j ≠ 0)
    (heq : mapAt s ip j = mapAt s ip k) : j = k := by
  obtain ⟨slot, idxs, hp, hpl, hv⟩ := mapAt_path h.ready.form hj h0
  obtain ⟨slot', idxs', hp', hpl', hv'⟩ := mapAt_path h.ready.form hk (heq ▸ h0)
  have hsame := h.tree.unshared _ _ hpl hpl' (hv.symm.trans (heq.trans hv')) (fun hz => h0 (hv.trans hz))
  obtain ⟨rfl, rfl⟩ := List.cons.inj hsame
  exact pathOf_inj hj hk hp hp'

theorem mapAt_not_indirect {s : Mnt} {ip : Inode} (h : Able s ip) {k : Nat} (hk : k < 2 ^ 32)
    (h0 : mapAt s ip k ≠ 0) :
    ¬ IndirectBlock s ip (mapAt s ip k) := by
  intro hr
  obtain ⟨slot', idxs', hpl', hlt, heq⟩ := hr
  obtain ⟨slot, idxs, hp, hpl, hv⟩ := mapAt_path h.ready.form hk h0
  have hsame := h.tree.unshared _ _ hpl' hpl (heq.trans hv) (fun hz => h0 (heq.symm.trans hz))
  obtain ⟨rfl, rfl⟩ := List.cons.inj hsame
  rw [pathOf_length hp] at hlt
  exact Nat.lt_irrefl _ hlt

/-- Creating a logical block below the size limit succeeds unless `balloc` fails. Then the same number
    resolves to that block, every other as before, and the map stays one to one and clear of the tree's
    own blocks. -/
theorem block_map {s : Mnt} {l : Loc} (h : Able s l.ip) {lbn : Nat}
    (hl : lbn * s.fs.desc.bsize < maxFile s.fs.desc) :
    Post (filsysBmap lbn true (s, l))
      (fun b t => b ≠ 0 ∧ resolves t lbn = some b ∧ Able t.1 t.2.ip ∧
        (∀ k, k < 2 ^ 32 → k ≠ lbn → resolves t k = resolves (s, l) k) ∧
        (∀ j k c, j < 2 ^ 32 → k < 2 ^ 32 → c ≠ 0 → resolves t j = some c → resolves t k = some c → j = k) ∧
        ∀ k c, k < 2 ^ 32 → c ≠ 0 → resolves t k = some c → ¬ IndirectBlock t.1 t.2.ip c)
      (fun e t => NoBlock s e t.1) := by
  have hlbn := lt_of_maxFile h.ready.form hl
  refine (post_filsysBmap_true h hl).mono ?_ fun _ _ he => he
  intro b t hc
  have hres : ∀ k, k < 2 ^ 32 → resolves t k = some (mapAt t.1 t.2.ip k) :=
    fun k hk => resolves_eq (s := t.1) (l := t.2) hc.able.ready hc.able.tree hk
  refine ⟨hc.ne_zero, by rw [hres lbn hlbn, hc.here], hc.able, fun k hk hne => ?_,
    fun j k c hj hk h0 h1 h2 => ?_, fun k c hk h0 h1 => ?_⟩
  · rw [hres k hk, resolves_eq h.ready h.tree hk, hc.other k hk hne]
  · rw [hres j hj, Option.some.injEq] at h1
    rw [hres k hk, Option.some.injEq] at h2
    exact mapAt_inj hc.able hj hk (h1 ▸ h0) (h1.trans h2.symm)
  · rw [hres k hk, Option.some.injEq] at h1
    subst h1
    exact mapAt_not_indirect hc.able hk h0

/-- A V7 volume of twelve blocks; 9, 10 and 11 are on the free list, and block 6 names 7, 8, none and 4. -/
def twelveBlocks : Mnt where
  fs := { desc := descV7, isize := 3, fsize := 12, imgsize := 6144, nfree := 4
          free := fun i => if i = 0 then 0 else 8 + i }
  img := poke zeroBuf 3072 [0, 0, 7, 0, 0, 0, 8, 0, 0, 0, 0, 0, 0, 0, 4, 0]
  size := 6144

/-- A file with block 5 and the indirect block 6. -/
def grownFile : Loc := { ip := { addr := fun i => if i = 0 then 5 else if i = 10 then 6 else 0 } }

theorem blocks_grownFile : blocks twelveBlocks grownFile.ip = [5, 6, 7, 8, 4] := by decide +kernel

theorem able_grownFile : Able twelveBlocks grownFile.ip := by
  have hm : Mounted twelveBlocks :=
    ⟨fun _ _ => rfl, by decide, rfl, by decide, by decide, by decide, rfl, by decide, by decide, by decide⟩
  have hl : ListLayout twelveBlocks.fs := by
    constructor <;> first | decide | exact ⟨by decide, by decide, by decide⟩
  have hcore : Core twelveBlocks [11, 10, 9] [] := by
    refine ⟨.entry (n := 2) ⟨by decide, by decide⟩ (.entry (n := 1) ⟨by decide, by decide⟩
      (.entry (n := 0) ⟨by decide, by decide⟩ (.sentinel rfl))), ?_, ?_⟩
      <;> decide
  have hok : SpaceOk twelveBlocks := (spaceOk_freelist rfl).mpr ⟨hl, [11, 10, 9], [], hcore⟩
  have hform : Formed twelveBlocks.fs.desc := ⟨by decide, by decide, by decide, by decide⟩
  have hdata : ∀ b ∈ [5, 6, 7, 8, 4], opsDataStart twelveBlocks.fs ≤ b ∧
    b < opsDataEnd twelveBlocks.fs ∧ readable twelveBlocks b = true ∧
      b ∉ [11, 10, 9] := by decide
  have hold : ∀ b, InTree twelveBlocks grownFile.ip b → b ∈ [5, 6, 7, 8, 4] := by
    intro b hb
    have := mem_blocks.mpr hb
    rwa [blocks_grownFile] at this
  refine ⟨⟨.inl hm, hform, by decide, fun _ => rfl⟩, treeOk_of_blocks ?_ fun b hb => ?_, fun k => ?_⟩
  · rw [blocks_grownFile]
    decide
  · obtain ⟨h1, h2, h3, -⟩ := hdata b (hold b (mem_blocks.mp hb))
    exact ⟨⟨h1, h2⟩, h3⟩
  · refine prudent_of_space hm hok (fun b hb hfree => ?_) k
    exact (hdata b (hold b hb)).2.2.2 ((isFree_core hm rfl hl hcore).mp hfree)

/-- The hole in the indirect block is filled, and the blocks beside it stay where they were. -/
theorem a_hole_of_an_indirect_block_is_filled :
    ∃ t, filsysBmap 12 true (twelveBlocks, grownFile) = .ok 11 t ∧ resolves t 12 = some 11 ∧
    resolves t 0 = some 5 ∧ resolves t 11 = some 8 ∧ resolves t 13 = some 4 ∧ Able t.1 t.2.ip := by
  have hrun : errorOf (filsysBmap 12 true) (twelveBlocks, grownFile) = none ∧
    valueOf (filsysBmap 12 true) (twelveBlocks, grownFile) = 11 := by
    decide +kernel
  have hbefore : resolves (twelveBlocks, grownFile) 0 = some 5 ∧
    resolves (twelveBlocks, grownFile) 11 = some 8 ∧
      resolves (twelveBlocks, grownFile) 13 = some 4 := by decide +kernel
  have heq := eq_ok hrun.1
  rw [hrun.2] at heq
  have hpost := @block_map twelveBlocks grownFile able_grownFile 12 (by decide)
  rw [heq] at hpost
  obtain ⟨-, hhere, hable, hother, -⟩ := hpost
  refine ⟨_, heq, hhere, (hother 0 ?_ ?_).trans hbefore.1, (hother 11 ?_ ?_).trans hbefore.2.1,
    (hother 13 ?_ ?_).trans hbefore.2.2, hable⟩ <;> decide

end Filsys.Blockmap
