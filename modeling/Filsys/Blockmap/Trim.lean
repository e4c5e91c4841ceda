/-
  Filsys.Blockmap.Trim — what a truncate leaves alone (blocktree.c).

  `filsys_itrunc_from` writes indirect blocks and nothing else, and in those only clears
  entries (`post_itruncFromSlots_spares`). So the file reads before the boundary as it did
  and as zeros from there on, no block of another file is touched, and the blocks collected
  with those left are the ones the file had (`post_filsysItruncFrom_trims`).
-/

import Filsys.Blockmap.Bytes

namespace Filsys.Blockmap

open Filsys.Lib Filsys.Engine Filsys.Alloc Filsys.Check Filsys.Tree

/-! ## The blocks a cut writes -/

/-- No block of `D` has been written, and no entry is other than it was but cleared. -/
structure Spares (D : Nat → Prop) (s t : Mnt) : Prop extends SameVol s t where
  fs : t.fs = s.fs
  apart : ∀ c, D c → contents t c = contents s c
  clears : ∀ c i, i < s.fs.desc.nindir → heap t c i = heap s c i ∨ heap t c i = 0

theorem spares_law (D : Nat → Prop) : Law (Spares D) where
  refl s := ⟨sameVol_law.refl s, rfl, fun _ _ => rfl, fun _ _ _ => .inl rfl⟩
  trans h h' := by
    refine ⟨sameVol_law.trans h.toSameVol h'.toSameVol, h'.fs.trans h.fs, fun c hc =>
      (h'.apart c hc).trans (h.apart c hc), fun c i hi => ?_⟩
    rcases h'.clears c i (by rw [h.fs]; exact hi) with heq | hz
    · rw [heq]
      exact h.clears c i hi
    · exact .inr hz

theorem spares_read (D : Nat → Prop) (s : Mnt) (k : Nat) : Spares D s { s with ios := k } :=
  ⟨⟨rfl, rfl, rfl⟩, rfl, fun _ _ => rfl, fun _ _ _ => .inl rfl⟩

/-- The tree of `k` levels below `b` is usable, and its indirect blocks are none of `D`. -/
def Fans (s : Mnt) (D : Nat → Prop) : Nat → Nat → Prop
  | 0, b => b ≠ 0 → Usable s b
  | k + 1, b => b ≠ 0 → Usable s b ∧ ¬ D b ∧ ∀ i, i < s.fs.desc.nindir → Fans s D k (heap s b i)

section Fans

variable {D : Nat → Prop} {s t : Mnt}

theorem fans_zero (k : Nat) : Fans s D k 0 := by
  cases k with
  | zero => exact fun h => absurd rfl h
  | succ k => exact fun h => absurd rfl h

theorem Fans.usable {k b : Nat} (h : Fans s D k b) : ∀ c ∈ subtree s k b, Usable s c := by
  induction k generalizing b with
  | zero =>
    intro c hc
    have h0 := ne_zero_of_mem_nodes hc
    unfold subtree nodes at hc
    split at hc
    · cases hc
    · rw [List.mem_singleton.mp hc] at h0 ⊢
      exact h h0
  | succ k ih =>
    intro c hc
    by_cases h0 : b = 0
    · subst h0
      unfold subtree at hc
      rw [nodes_zero] at hc
      cases hc
    · obtain ⟨hu, -, hchild⟩ := h h0
      unfold subtree at hc
      rw [nodes_succ h0] at hc
      rcases List.mem_cons.mp hc with rfl | hc
      · exact hu
      · obtain ⟨i, hi, hc⟩ := List.mem_flatMap.mp hc
        exact ih (hchild i (List.mem_range.mp hi)) c hc

/-- Clearing entries makes a tree no larger. -/
theorem Fans.of_spares (hsp : Spares D s t) {k b : Nat} (h : Fans s D k b) : Fans t D k b := by
  induction k generalizing b with
  | zero => exact fun h0 => (usable_of_sameVol hsp.toSameVol).mpr (h h0)
  | succ k ih =>
    intro h0
    obtain ⟨hu, hd, hchild⟩ := h h0
    refine ⟨(usable_of_sameVol hsp.toSameVol).mpr hu, hd, fun i hi => ?_⟩
    rw [hsp.fs] at hi
    rcases hsp.clears b i hi with heq | hz
    · rw [heq]
      exact ih (hchild i hi)
    · rw [hz]
      exact fans_zero k

end Fans

section Spared

variable {D : Nat → Prop} {k : Nat} {d : Desc} {part whole : Nat → MI Unit}

theorem post_collects_spares {s : Mnt} {x : MI Unit} {L : List Nat} (l : Loc) (h : Collects s x L) :
    Post (x (s, l)) (fun _ t => Spares D s t.1 ∧ t.2.ip = l.ip) fun _ _ => False := by
  refine (h s.ios l).mono ?_ fun _ _ hf => hf
  intro _ t hr
  obtain ⟨k, M, -, rfl⟩ := hr
  exact ⟨spares_read D s k, rfl⟩

/-- The entries of one indirect block. -/
theorem post_dropEntries_spares (se sp : Nat)
    (hpart : ∀ s l nb, Ready s → s.fs.desc = d → nb ≠ 0 → Fans s D k nb → 0 < sp →
      Post (part nb (s, l)) (fun _ t => Spares D s t.1 ∧ t.2.ip = l.ip) fun _ _ => False)
    (hwhole : ∀ s l nb, Ready s → s.fs.desc = d → nb ≠ 0 → Fans s D k nb →
      Post (whole nb (s, l)) (fun _ t => Spares D s t.1 ∧ t.2.ip = l.ip) fun _ _ => False)
    (is : List Nat) {s : Mnt} (l : Loc) (hr : Ready s) (hd : s.fs.desc = d) (buf : Buf)
    (hbuf : ∀ i ∈ is, Fans s D k (indGet d buf i)) :
    Post (dropEntries d part whole se sp is buf (s, l))
      (fun buf' t => (Spares D s t.1 ∧ t.2.ip = l.ip) ∧ ∀ i, indGet d buf' i = indGet d buf i ∨
        indGet d buf' i = 0) fun _ _ => False := by
  induction is generalizing s l buf with
  | nil => exact ⟨⟨(spares_law D).refl s, rfl⟩, fun _ => .inl rfl⟩
  | cons i is ih =>
    have hgoon : ∀ (t : Mnt × Loc) (buf₁ : Buf), Spares D s t.1 ∧ t.2.ip = l.ip →
      (∀ j, indGet d buf₁ j = indGet d buf j ∨ indGet d buf₁ j = 0) →
        Post (dropEntries d part whole se sp is buf₁ t)
          (fun buf' t => (Spares D s t.1 ∧ t.2.ip = l.ip) ∧ ∀ i, indGet d buf' i = indGet d buf i ∨
            indGet d buf' i = 0) fun _ _ => False := by
      intro t buf₁ h hget
      obtain ⟨hsp, hip⟩ := h
      refine (ih t.2 (hr.of_sameVol hsp.toSameVol) (by rw [hsp.fs]; exact hd) buf₁ ?_).mono ?_ fun _ _ hf => hf
      · intro j hj
        rcases hget j with heq | hz
        · rw [heq]
          exact (hbuf j (List.mem_cons_of_mem _ hj)).of_spares hsp
        · rw [hz]
          exact fans_zero k
      · intro buf' u h
        obtain ⟨⟨hsp', hip'⟩, hget'⟩ := h
        refine ⟨⟨(spares_law D).trans hsp hsp', hip'.trans hip⟩, fun j => ?_⟩
        rcases hget' j with heq | hz
        · rw [heq]
          exact hget j
        · exact .inr hz
    have hself := hbuf i List.mem_cons_self
    show Post ((if indGet d buf i = 0 ∨ i < se then dropEntries d part whole se sp is buf
      else if i = se ∧ 0 < sp then part (indGet d buf i) >>= fun _ => dropEntries d part whole se sp is buf
      else whole (indGet d buf i) >>= fun _ => dropEntries d part whole se sp is (indPut d buf i 0) :
      MI Buf) (s, l)) _ _
    refine post_ite (fun _ => hgoon (s, l) buf ⟨(spares_law D).refl s, rfl⟩ fun _ => .inl rfl) fun hdrop => ?_
    obtain ⟨h0, -⟩ := not_or.mp hdrop
    apply post_ite
    · intro hacross
      refine post_bind ((hpart s l _ hr hd h0 hself hacross.2).mono ?_ fun _ _ hf => hf)
      exact fun _ t ht => hgoon t buf ht fun _ => .inl rfl
    · intro _
      refine post_bind ((hwhole s l _ hr hd h0 hself).mono ?_ fun _ _ hf => hf)
      refine fun _ t ht => hgoon t _ ht fun j => ?_
      subst hd
      rw [hr.indGet_indPut (.inl rfl)]
      split
      · exact .inr rfl
      · exact .inl rfl

/-- One indirect block. -/
theorem post_dropWith_spares {s : Mnt} (l : Loc) (sub skip : Nat) (hr : Ready s)
    (hpart : ∀ t l nb, Ready t → t.fs.desc = s.fs.desc → nb ≠ 0 → Fans t D k nb → 0 < skip % sub →
      Post (part nb (t, l)) (fun _ u => Spares D t u.1 ∧ u.2.ip = l.ip) fun _ _ => False)
    (hwhole : ∀ t l nb, Ready t → t.fs.desc = s.fs.desc → nb ≠ 0 → Fans t D k nb →
      Post (whole nb (t, l)) (fun _ u => Spares D t u.1 ∧ u.2.ip = l.ip) fun _ _ => False)
    {b : Nat} (h0 : b ≠ 0) (hs : Fans s D (k + 1) b) :
    Post (dropWith part whole sub b skip (s, l)) (fun _ t => Spares D s t.1 ∧ t.2.ip = l.ip) fun _ _ =>
    False := by
  obtain ⟨hu, hD, hchild⟩ := hs h0
  refine post_bind (post_outside (post_bind (post_outside (post_failAs ?_))))
  refine (post_readBlock hr.volume hr.quiet hu).mono ?_ fun _ _ hf => hf
  intro buf t h
  obtain ⟨⟨ios, rfl⟩, hbuf⟩ := h
  have hread := spares_read D s ios
  have hr1 := hr.of_sameVol hread.toSameVol
  refine post_bind ((post_dropEntries_spares (skip / sub) (skip % sub) hpart hwhole
    (List.range s.fs.desc.nindir) l hr1 rfl buf ?_).mono ?_ fun _ _ hf => hf)
  · intro i hi
    rw [hbuf i (List.mem_range.mp hi)]
    exact (hchild i (List.mem_range.mp hi)).of_spares hread
  · intro buf' u h
    obtain ⟨⟨hsp, hip⟩, hget⟩ := h
    have hsp' := (spares_law D).trans hread hsp
    have hru := hr.of_sameVol hsp'.toSameVol
    refine post_outside ((post_writeBlock hru.volume hru.quiet
      ((usable_of_sameVol hsp'.toSameVol).mpr hu) hru.form buf').mono ?_ fun _ _ hf => hf)
    intro _ v hw
    have hdu : u.1.fs.desc = s.fs.desc := shape_desc hsp'.shape
    refine ⟨⟨sameVol_law.trans hsp'.toSameVol hw.toSameVol, hw.fs.trans hsp'.fs, fun c hc =>
      ?_, fun c i hi => ?_⟩, hip⟩
    · have hne : c ≠ b := fun he => hD (he ▸ hc)
      exact (hw.other c hne).trans (hsp'.apart c hc)
    · by_cases hcb : c = b
      · subst hcb
        rw [hw.here i (by rw [hdu]; exact hi), hdu, ← hbuf i hi]
        exact hget i
      · rw [heap_of_contents hru.volume hw.toSameVol (hw.other c hcb) (by rw [hdu]; exact hi)]
        exact hsp'.clears c i hi

theorem post_collectSubtreeFrom_spares (n level : Nat) {s : Mnt} (l : Loc) (skip : Nat) (hr : Ready s)
    {b : Nat} (h0 : b ≠ 0) (hs : Fans s D (level + 1) b) :
    Post (collectSubtreeFrom n level b skip (s, l)) (fun _ t => Spares D s t.1 ∧ t.2.ip = l.ip)
    fun _ _ => False := by
  induction level generalizing s l skip b with
  | zero =>
    refine post_dropWith_spares (k := 0) l 1 skip hr ?_ ?_ h0 hs
    · intro t l nb _ _ _ _ hlt
      rw [Nat.mod_one] at hlt
      exact absurd hlt (Nat.lt_irrefl 0)
    · intro t l nb _ _ _ _
      exact post_collects_spares l (collects_push nb)
  | succ level ih =>
    refine post_dropWith_spares (k := level + 1) l _ skip hr (fun t l nb hrt _ hnb hft _ =>
      post_failAs (ih l _ hrt hnb hft)) (fun t l nb hrt _ hnb hft => ?_) h0 hs
    exact post_failAs (post_collects_spares l (collects_nodes hrt level hnb hft.usable))

/-- The slots of the copy are as they were but cleared. -/
structure Thinned (D : Nat → Prop) (s : Mnt) (l : Loc) (t : Mnt × Loc) : Prop extends Spares D s t.1 where
  kin : t.2.ip = { l.ip with addr := t.2.ip.addr }
  slots : ∀ j, t.2.ip.addr j = l.ip.addr j ∨ t.2.ip.addr j = 0

theorem Thinned.trans {s : Mnt} {l : Loc} {t u : Mnt × Loc} (h : Thinned D s l t)
    (h' : Thinned D t.1 t.2 u) : Thinned D s l u := by
  refine ⟨(spares_law D).trans h.toSpares h'.toSpares, ?_, ?_⟩
  · rw [h'.kin, h.kin]
  · intro j
    rcases h'.slots j with heq | hz
    · rw [heq]
      exact h.slots j
    · exact .inr hz

theorem Spares.thinned {s : Mnt} {l : Loc} {t : Mnt × Loc} (h : Spares D s t.1 ∧ t.2.ip = l.ip) :
    Thinned D s l t :=
  ⟨h.1, by rw [h.2], fun _ => .inl (by rw [h.2])⟩

/-- One slot. -/
theorem post_dropSlot_spares {s : Mnt} {l : Loc} (hr : Ready s) {mode i a : Nat} (firstBlk lbn : Nat)
    (h0 : a ≠ 0) (hs : Fans s D (depth s.fs.desc mode i) a) :
    Post (dropSlot s.fs.desc firstBlk lbn i (slotLevel s.fs.desc mode i) a (s, l))
    (fun _ t => Thinned D s l t) fun _ _ => False := by
  unfold depth at hs
  apply post_ite
  · intro _
    have hcoll : Post (collectSlot (slotLevel s.fs.desc mode i) a (s, l)) (fun _ t => Spares D s t.1 ∧
      t.2.ip = l.ip) fun _ _ => False := by
      unfold collectSlot
      cases hl : slotLevel s.fs.desc mode i with
      | none => exact post_collects_spares l (collects_push a)
      | some level =>
        rw [hl] at hs
        exact post_failAs (post_collects_spares l (collects_nodes hr level h0 hs.usable))
    refine post_bind (hcoll.mono ?_ fun _ _ hf => hf)
    intro _ t ht
    have hclear : Thinned D t.1 t.2 (t.1, { t.2 with ip := t.2.ip.setAddr i 0 }) := by
      refine ⟨(spares_law D).refl t.1, rfl, fun j => ?_⟩
      show (if j = i then 0 else t.2.ip.addr j) = _ ∨ _
      split
      · exact .inr (if_pos ‹_›)
      · exact .inl rfl
    exact (Spares.thinned ht).trans hclear
  · intro hpart
    obtain ⟨hlev, -⟩ := not_or.mp hpart
    obtain ⟨level, hl⟩ := Option.ne_none_iff_exists'.mp hlev
    rw [hl] at hs ⊢
    exact post_failAs ((post_collectSubtreeFrom_spares _ level l _ hr h0 hs).mono
      (fun _ t ht => Spares.thinned ht) fun _ _ hf => hf)

/-- The slots from `i` on. -/
theorem post_itruncFromSlots_spares (firstBlk todo i lbn : Nat) {s : Mnt} (l : Loc) (hr : Ready s)
    (hs : ∀ j, j < i + todo → Fans s D (depth s.fs.desc l.ip.mode j) (l.ip.addr j)) :
    Post (itruncFromSlots s.fs.desc firstBlk todo i lbn (s, l)) (fun _ t => Thinned D s l t) fun _ _ =>
    False := by
  induction todo generalizing s l i lbn with
  | zero => exact Spares.thinned ⟨(spares_law D).refl s, rfl⟩
  | succ todo ih =>
    show Post ((onlyIf (firstBlk < (lbn + slotSpan s.fs.desc (slotLevel s.fs.desc l.ip.mode i)) %
      2 ^ 32 ∧ l.ip.addr i ≠ 0)
      (dropSlot s.fs.desc firstBlk lbn i (slotLevel s.fs.desc l.ip.mode i) (l.ip.addr i)) >>= fun _ =>
      itruncFromSlots s.fs.desc firstBlk todo (i + 1)
      ((lbn + slotSpan s.fs.desc (slotLevel s.fs.desc l.ip.mode i)) % 2 ^ 32) : MI Unit) (s, l)) _ _
    have hgoon : ∀ t, Thinned D s l t → Post (itruncFromSlots s.fs.desc firstBlk todo (i + 1)
        ((lbn + slotSpan s.fs.desc (slotLevel s.fs.desc l.ip.mode i)) % 2 ^ 32) t)
        (fun _ t => Thinned D s l t) fun _ _ => False := by
      intro t ht
      have hrun := ih (i + 1) ((lbn + slotSpan s.fs.desc (slotLevel s.fs.desc l.ip.mode i)) % 2 ^ 32)
        t.2 (hr.of_sameVol ht.toSameVol) fun j hj => ?_
      · rw [ht.fs] at hrun
        exact hrun.mono (fun _ u hu => ht.trans hu) fun _ _ hf => hf
      · rw [ht.fs, ht.kin]
        show Fans t.1 D (depth s.fs.desc l.ip.mode j) (t.2.ip.addr j)
        rcases ht.slots j with heq | hz
        · rw [heq]
          exact (hs j (by omega)).of_spares ht.toSpares
        · rw [hz]
          exact fans_zero _
    refine post_bind (post_onlyIf (fun hdrop => ?_) fun _ =>
      hgoon (s, l) (Spares.thinned ⟨(spares_law D).refl s, rfl⟩))
    exact (post_dropSlot_spares hr firstBlk lbn hdrop.2 (hs i (by omega))).mono
      (fun _ t ht => hgoon t ht) fun _ _ hf => hf

end Spared

/-! ## The whole file -/

/-- Every slot's tree, with the file's indirect blocks out of `D`. -/
theorem fans_of_tree {D : Nat → Prop} {s : Mnt} {ip : Inode} (hok : TreeOk s ip)
    (hD : ∀ b, b ≠ 0 → IndirectBlock s ip b → ¬ D b) {slot : Nat}
    (hslot : slot < s.fs.desc.niaddr) : Fans s D (depth s.fs.desc ip.mode slot) (ip.addr slot) := by
  have key : ∀ k idxs, idxs.length + k = depth s.fs.desc ip.mode slot → Place s.fs.desc ip.mode (slot :: idxs) →
      Fans s D k (blockAt s ip (slot :: idxs)) := by
    intro k
    induction k with
    | zero => exact fun idxs _ hpl h0 => hok.usable _ ⟨h0, slot :: idxs, hpl, rfl⟩
    | succ k ih =>
      intro idxs hlen hpl h0
      refine ⟨hok.usable _ ⟨h0, slot :: idxs, hpl, rfl⟩, hD _ h0 ⟨slot, idxs, hpl, by omega, rfl⟩,
        fun i hi => ?_⟩
      have hnext : blockAt s ip (slot :: (idxs ++ [i])) = heap s (blockAt s ip (slot :: idxs)) i := by
        have hsnoc := look_snoc ip.addr (heap s) (List.cons_ne_nil slot idxs) i
        rw [List.cons_append] at hsnoc
        exact hsnoc.trans (if_neg h0)
      rw [← hnext]
      refine ih (idxs ++ [i]) (by rw [List.length_append, List.length_singleton]; omega) ?_
      obtain ⟨-, -, hidx⟩ := place_cons.mp hpl
      refine place_cons.mpr ⟨hslot, by rw [List.length_append, List.length_singleton]; omega, fun j hj => ?_⟩
      rcases List.mem_append.mp hj with hj | hj
      · exact hidx j hj
      · rw [List.mem_singleton.mp hj]
        exact hi
  exact key _ [] (Nat.zero_add _) (place_slot hslot)

/-- What a cut at `firstBlk` leaves of the file and of the rest of the volume; the blocks `L` await
    their return. -/
structure Trimmed (s : Mnt) (l : Loc) (firstBlk : Nat) (L : List Nat) (t : Mnt × Loc) :
    Prop extends SameVol s t.1 where
  fs : t.1.fs = s.fs
  kin : t.2.ip = { l.ip with addr := t.2.ip.addr }
  bl : t.2.bl = l.bl ++ L
  perm : (L ++ blocks t.1 t.2.ip).Perm (blocks s l.ip)
  stocked : Stocked t.1 t.2.ip
  free : ∀ x, Free t.1 x ↔ Free s x
  map : ∀ k, k < 2 ^ 32 → mapAt t.1 t.2.ip k = if k < firstBlk then mapAt s l.ip k else 0
  unit : ∀ k, k < firstBlk → k < 2 ^ 32 → ∀ i, unitAt t.1 t.2.ip k i = unitAt s l.ip k i
  same : ∀ c, ¬ InTree s l.ip c → c ≠ 0 → contents t.1 c = contents s c

theorem post_filsysItruncFrom_trims {s : Mnt} {l : Loc} (h : Stocked s l.ip) (firstBlk : Nat) :
    Post (filsysItruncFrom firstBlk (s, l)) (fun _ t => ∃ L, Trimmed s l firstBlk L t) fun _ _ => False := by
  have hr := h.stock.toReady
  have hw := h.within
  have hspares : Post (filsysItruncFrom firstBlk (s, l))
    (fun _ t => Thinned (fun b => ¬ (b ≠ 0 ∧ IndirectBlock s l.ip b)) s l t) fun _ _ => False := by
    refine post_itruncFromSlots_spares firstBlk s.fs.desc.niaddr 0 0 l hr fun j hj =>
      fans_of_tree h.tree (fun b h0 hb hn => hn ⟨h0, hb⟩) ?_
    rwa [Nat.zero_add] at hj
  refine ((post_filsysItruncFrom hr h.tree hw firstBlk).and hspares).mono ?_ fun _ _ hf => hf.1
  intro _ t hrun
  obtain ⟨hswept, hthin⟩ := hrun
  obtain ⟨L, hbl, hperm⟩ := hswept.perm
  have hplain : ∀ c, ¬ InTree s l.ip c → c ≠ 0 → contents t.1 c = contents s c :=
    fun c hc h0 => hthin.apart c fun hi => hc (hi.2.inTree h0)
  obtain ⟨hstock, hfree⟩ := h.stock.of_same hswept.toSameVol (fun _ => by rw [hswept.fs])
    (fun _ => by rw [hswept.fs]) fun c hc =>
    hplain c (fun hin => h.apart c hin hc) (hr.area_pos (h.stock.usable hc).1)
  have hmap := fun k (hk : k < 2 ^ 32) => hswept.map hr.form hw hk
  refine ⟨L, hswept.toSameVol, hswept.fs, hthin.kin, hbl, hperm,
    ⟨hstock, hswept.tree h.tree, ?_, hswept.within hw⟩, hfree, hmap, ?_, hplain⟩
  · intro b hb hf
    exact h.apart b (mem_blocks.mp (hperm.subset (List.mem_append_right L (mem_blocks.mpr hb))))
      ((hfree b).mp hf)
  · intro k hlt hk i
    unfold unitAt
    rw [hmap k hk, if_pos hlt]
    split
    · rfl
    · rename_i h0
      rw [hthin.apart _ fun hi => mapAt_not_indirect h.able hk h0 hi.2]

end Filsys.Blockmap
