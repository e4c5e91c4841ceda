/-
  Filsys.Blockmap.Truncate — cutting a file's tree at a logical block (blocktree.c).

  `filsys_itrunc_from` keeps the slots before the boundary, empties those after it and cuts
  the tree of the one across it, where each level keeps, drops or cuts the entries of one
  indirect block and writes that block back. Level by level this is `Lib.Cut`, and slot by
  slot `Lib.Sweep`; read back through the block map it is `partial_truncate`.
-/

import Filsys.Blockmap.Bmap

namespace Filsys.Blockmap

open Filsys.Lib Filsys.Engine Filsys.Alloc Filsys.Check Filsys.Tree

/-! ## Collecting whole trees -/

section Whole

variable {s : Mnt} (hr : Ready s)

include hr

theorem collects_nodes (l : Nat) {b : Nat} (h0 : b ≠ 0) (hus : ∀ c ∈ subtree s (l + 1) b, Usable s c) :
    Collects s (collectSubtree l b) (subtree s (l + 1) b) := by
  have hself : ∀ {k b}, b ≠ 0 → (∀ c ∈ subtree s k b, Usable s c) → Usable s b :=
    fun h0 hus => hus _ (mem_nodes_self h0)
  -- the entries read are those of the heap
  have hent : ∀ k b, b ≠ 0 → subtree s (k + 1) b = b :: (entriesAt s.fs s.img b).flatMap fun nb =>
    if nb ≠ 0 then subtree s k nb else [] := by
    intro k b hb
    unfold subtree entriesAt
    rw [nodes_succ hb, List.flatMap_map]
    congr 2
    funext i
    show nodes s.fs.desc.nindir (heap s) k (heap s b i) = if heap s b i ≠ 0 then _ else []
    split
    · rfl
    · rename_i hz
      rw [not_not.mp hz, nodes_zero]
  have hchild : ∀ {k b nb}, b ≠ 0 → (∀ c ∈ subtree s (k + 1) b, Usable s c) →
    nb ∈ entriesAt s.fs s.img b → ∀ c ∈ subtree s k nb, Usable s c := by
    intro k b nb hb hus hnb c hc
    obtain ⟨i, hi, rfl⟩ := List.mem_map.mp hnb
    exact hus c (mem_nodes_child hb (List.mem_range.mp hi) hc)
  induction l generalizing b with
  | zero =>
    have hu := hself h0 hus
    rw [hent 0 b h0]
    refine collects_with hr.volume.reads hr.quiet h0 hu.1.2 hu.2 fun nb _ hnb => ?_
    have hone : subtree s 0 nb = [nb] := if_neg hnb
    rw [hone]
    exact collects_push nb
  | succ l ih =>
    have hu := hself h0 hus
    rw [hent (l + 1) b h0]
    exact collects_with hr.volume.reads hr.quiet h0 hu.1.2 hu.2 fun nb hmem hnb =>
      collects_failAs (ih hnb (hchild h0 hus hmem))

end Whole

/-! ## Cutting a tree -/

/-- What cutting the tree below `a` leaves on disk and in the list. -/
structure Pruned (s : Mnt) (l : Loc) (k a skip : Nat) (t : Mnt × Loc) (a' : Nat) :
    Prop extends SameVol s t.1 where
  fs : t.1.fs = s.fs
  ip : t.2.ip = l.ip
  cut : ∃ L, t.2.bl = l.bl ++ L ∧ Cut s.fs.desc.nindir (heap s) k a skip (heap t.1) a' L

/-- A tree of its own, all of it usable. -/
structure Sound (s : Mnt) (k b : Nat) : Prop where
  nodup : (subtree s k b).Nodup
  usable : ∀ c ∈ subtree s k b, Usable s c

/-- What is left of the entry `i` of a node cut at leaf `skip`. -/
def kept (n k skip : Nat) (e : Nat → Nat) (i : Nat) : Nat := if skip ≤ i * n ^ k then 0 else e i

section Boundary

variable {m skip i : Nat}

/-- An entry before the one the boundary falls in lies before the boundary. -/
theorem entry_before (hm : 0 < m) (h : i < skip / m) : m + i * m ≤ skip := by
  have := (Nat.le_div_iff_mul_le hm).mp (show i + 1 ≤ skip / m from h)
  rw [Nat.succ_mul] at this
  omega

theorem entry_across (h : i = skip / m) : skip - i * m = skip % m := by
  have hsplit := Nat.div_add_mod' skip m
  rw [h]
  generalize skip / m * m = x at hsplit ⊢
  omega

theorem entry_past (hm : 0 < m) (h : ¬ i < skip / m) (h' : ¬ (i = skip / m ∧ 0 < skip % m)) : skip ≤ i * m := by
  by_cases heq : i = skip / m
  · have := entry_across heq
    have hz : ¬ 0 < skip % m := fun hlt => h' ⟨heq, hlt⟩
    omega
  · have := Nat.lt_mul_of_div_lt (show skip / m < i by omega) hm
    omega

end Boundary

section Entries

variable {k skip : Nat} {part whole : Nat → MI Unit}

/-- The entries of one indirect block. -/
theorem post_dropEntries {d : Desc}
    (hpart : ∀ s l nb, Ready s → s.fs.desc = d → nb ≠ 0 → Sound s k nb → 0 < skip % d.nindir ^ k →
      Post (part nb (s, l)) (fun _ t => Pruned s l k nb (skip % d.nindir ^ k) t nb) fun _ _ => False)
    (hwhole : ∀ s nb, Ready s → s.fs.desc = d → nb ≠ 0 → Sound s k nb → Collects s (whole nb) (subtree s k nb))
    (is : List Nat) (hnd : is.Nodup) {s : Mnt} (l : Loc) (hr : Ready s) (hd : s.fs.desc = d)
    (e : Nat → Nat) (buf : Buf)
    (hbuf : ∀ i ∈ is, indGet d buf i = e i) (hflat : (is.flatMap fun i => subtree s k (e i)).Nodup)
    (hus : ∀ i ∈ is, ∀ c ∈ subtree s k (e i), Usable s c) :
    Post (dropEntries d part whole (skip / d.nindir ^ k) (skip % d.nindir ^ k) is buf (s, l))
      (fun buf' t => SameVol s t.1 ∧ t.1.fs = s.fs ∧ t.2.ip = l.ip ∧
        (∀ i, indGet d buf' i = if i ∈ is then kept d.nindir k skip e i else indGet d buf i) ∧
        ∃ L, t.2.bl = l.bl ++ L ∧
          Sweep d.nindir (heap s) is (fun _ => k) e (fun i => skip - i * d.nindir ^ k) (heap t.1)
          (kept d.nindir k skip e) L)
      fun _ _ => False := by
  have hpos : 0 < d.nindir ^ k := by
    subst hd
    exact Nat.pow_pos hr.form.nindir_pos
  induction is generalizing s l buf with
  | nil => exact ⟨sameVol_law.refl s, rfl, rfl, fun i => by simp, [], (List.append_nil _).symm, .nil⟩
  | cons i is ih =>
    obtain ⟨hi, hnd⟩ := List.nodup_cons.mp hnd
    have hgoon : ∀ (t : Mnt × Loc) (buf₁ : Buf) (L₁ : List Nat), SameVol s t.1 → t.1.fs = s.fs →
      t.2.ip = l.ip → t.2.bl = l.bl ++ L₁ →
        (∀ j, indGet d buf₁ j = if j = i then kept d.nindir k skip e i else indGet d buf j) →
        Cut d.nindir (heap s) k (e i) (skip - i * d.nindir ^ k) (heap t.1) (kept d.nindir k skip e i) L₁ →
        Post (dropEntries d part whole (skip / d.nindir ^ k) (skip % d.nindir ^ k) is buf₁ t)
          (fun buf' t => SameVol s t.1 ∧ t.1.fs = s.fs ∧ t.2.ip = l.ip ∧
            (∀ j, indGet d buf' j = if j ∈ i :: is then kept d.nindir k skip e j else indGet d buf j) ∧
            ∃ L, t.2.bl = l.bl ++ L ∧ Sweep d.nindir (heap s) (i :: is) (fun _ => k) e (fun i =>
              skip - i * d.nindir ^ k) (heap t.1)
              (kept d.nindir k skip e) L) fun _ _ => False := by
      intro t buf₁ L₁ hvol hfs hip hbl hget hcut
      have hdis := hflat
      rw [List.flatMap_cons, List.nodup_append'] at hdis
      -- the trees still to come are as they were
      have hsub : ∀ j ∈ is, subtree t.1 k (e j) = subtree s k (e j) := by
        intro j hj
        unfold subtree
        rw [hfs, hd]
        refine nodes_congr fun c hc x hx => hcut.frame c (fun hc' => ?_) x hx
        rw [← hd] at hc hc'
        exact hdis.2.2 hc' (List.mem_flatMap.mpr ⟨j, hj, hc⟩)
      have hrest := ih hnd t.2 (hr.of_sameVol hvol) (by rw [hfs, hd]) buf₁
        (fun j hj => by
          have hne : j ≠ i := by
            rintro rfl
            exact hi hj
          rw [hget, if_neg hne]
          exact hbuf j (List.mem_cons_of_mem _ hj))
        (by rw [List.flatMap_congr hsub]; exact hdis.2.1)
        (fun j hj c hc => by
          rw [hsub j hj] at hc
          exact (usable_of_sameVol hvol).mpr (hus j (List.mem_cons_of_mem _ hj) c hc))
      refine hrest.mono ?_ fun _ _ hf => hf
      intro buf' u h
      obtain ⟨hvol', hfs', hip', hget', L, hbl', hsweep⟩ := h
      refine ⟨sameVol_law.trans hvol hvol', hfs'.trans hfs, hip'.trans hip, ?_, L₁ ++ L, ?_, ?_⟩
      · intro j
        rw [hget', hget]
        by_cases hji : j = i
        · subst hji
          rw [if_neg hi, if_pos rfl, if_pos List.mem_cons_self]
        · simp only [List.mem_cons, hji, false_or, if_false]
      · rw [hbl', hbl, List.append_assoc]
      · refine Sweep.cons (hd ▸ hr.form.nindir_pos) ?_ hcut hsweep
        subst hd
        exact hflat
    have hsound : Sound s k (e i) := by
      refine ⟨?_, hus i List.mem_cons_self⟩
      rw [List.flatMap_cons, List.nodup_append'] at hflat
      exact hflat.1
    have hread := hbuf i List.mem_cons_self
    show Post ((if indGet d buf i = 0 ∨ i < skip / d.nindir ^ k then
      dropEntries d part whole (skip / d.nindir ^ k) (skip % d.nindir ^ k) is buf
      else if i = skip / d.nindir ^ k ∧ 0 < skip % d.nindir ^ k then
        part (indGet d buf i) >>= fun _ => dropEntries d part whole (skip / d.nindir ^ k)
        (skip % d.nindir ^ k) is buf
      else whole (indGet d buf i) >>= fun _ =>
        dropEntries d part whole (skip / d.nindir ^ k) (skip % d.nindir ^ k) is (indPut d buf i 0) :
        MI Buf) (s, l)) _ _
    rw [hread]
    apply post_ite
    · intro hkeep
      have hval : kept d.nindir k skip e i = e i := by
        unfold kept
        split
        · rename_i hle
          rcases hkeep with h0 | hlt'
          · exact h0.symm
          · have := entry_before hpos hlt'
            omega
        · rfl
      refine hgoon (s, l) buf [] (sameVol_law.refl s) rfl rfl (List.append_nil _).symm ?_ ?_
      · intro j
        split
        · rename_i hji
          rw [hji, hread, hval]
        · rfl
      · rw [hval]
        refine .keep (hkeep.symm.imp (fun hlt' => ?_) fun h0 => h0)
        have := entry_before hpos hlt'
        omega
    · intro hdrop
      obtain ⟨h0, hge⟩ := not_or.mp hdrop
      apply post_ite
      · intro hacross
        obtain ⟨hi', hsp⟩ := hacross
        have hleft := entry_across hi'
        have hval : kept d.nindir k skip e i = e i := if_neg (by omega)
        refine post_bind ((hpart s l (e i) hr hd h0 hsound hsp).mono ?_ fun _ _ hf => hf)
        intro _ t h
        obtain ⟨hvol, hfs, hip, L₁, hbl, hcut⟩ := h
        rw [hd] at hcut
        refine hgoon t buf L₁ hvol hfs hip hbl ?_ ?_
        · intro j
          split
          · rename_i hji
            rw [hji, hread, hval]
          · rfl
        · rw [hval, hleft]
          exact hcut
      · intro hpast
        have hle := entry_past hpos hge hpast
        have hval : kept d.nindir k skip e i = 0 := if_pos hle
        refine post_bind ((hwhole s (e i) hr hd h0 hsound s.ios l).mono ?_ fun _ _ hf => hf)
        intro _ t h
        obtain ⟨ios, L₁, hL₁, rfl⟩ := h
        refine hgoon _ _ L₁ ⟨rfl, rfl, rfl⟩ rfl rfl rfl ?_ ?_
        · intro j
          subst hd
          rw [hr.indGet_indPut (.inl rfl), hval]
        · rw [hval, Nat.sub_eq_zero_of_le hle]
          subst hd
          exact .all hL₁

/-- One indirect block across the boundary. -/
theorem post_dropWith {s : Mnt} (l : Loc) (hr : Ready s)
    (hpart : ∀ t l nb, Ready t → t.fs.desc = s.fs.desc → nb ≠ 0 → Sound t k nb →
      0 < skip % s.fs.desc.nindir ^ k →
      Post (part nb (t, l)) (fun _ u => Pruned t l k nb (skip % s.fs.desc.nindir ^ k) u nb) fun _ _ => False)
    (hwhole : ∀ t nb, Ready t → t.fs.desc = s.fs.desc → nb ≠ 0 → Sound t k nb →
      Collects t (whole nb) (subtree t k nb))
    {b : Nat} (h0 : b ≠ 0) (hs : Sound s (k + 1) b) :
    Post (dropWith part whole (s.fs.desc.nindir ^ k) b skip (s, l))
    (fun _ t => Pruned s l (k + 1) b skip t b) fun _ _ => False := by
  have hu := hs.usable b (mem_nodes_self h0)
  refine post_bind (post_outside (post_bind (post_outside (post_failAs ?_))))
  refine (post_readBlock hr.volume hr.quiet hu).mono ?_ fun _ _ hf => hf
  intro buf t h
  obtain ⟨⟨ios, rfl⟩, hbuf⟩ := h
  have hchildren := hs.nodup
  unfold subtree at hchildren
  rw [nodes_succ h0, List.nodup_cons] at hchildren
  have hrun := post_dropEntries hpart hwhole (List.range s.fs.desc.nindir) List.nodup_range
    (s := { s with ios := ios }) l
    (hr.of_sameVol ⟨rfl, rfl, rfl⟩) rfl (heap s b) buf (fun i hi => hbuf i (List.mem_range.mp hi)) hchildren.2
    fun i hi c hc => hs.usable c (mem_nodes_child h0 (List.mem_range.mp hi) hc)
  refine post_bind (hrun.mono ?_ fun _ _ hf => hf)
  intro buf' u h
  obtain ⟨hvol, hfs, hip, hget, L, hbl, hsweep⟩ := h
  have hvol' : SameVol s u.1 := ⟨hvol.shape, hvol.size, hvol.env⟩
  have hru := hr.of_sameVol hvol'
  refine post_outside ((post_writeBlock hru.volume hru.quiet ((usable_of_sameVol hvol').mpr hu) hru.form
    buf').mono ?_ fun _ _ hf => hf)
  intro _ v hw
  have hdu : u.1.fs.desc = s.fs.desc := shape_desc hvol'.shape
  refine ⟨sameVol_law.trans hvol' hw.toSameVol, hw.fs.trans hfs, hip, L, hbl, ?_⟩
  refine Cut.node hr.form.nindir_pos h0 hs.nodup hsweep ?_ ?_
  · intro i hi
    rw [hw.here i (by rw [hdu]; exact hi), hdu, hget, if_pos (List.mem_range.mpr hi)]
  · intro c hc i hi
    exact heap_of_contents hru.volume hw.toSameVol (hw.other c hc) (by rw [hdu]; exact hi)

end Entries

/-- `collect_subtree_from` cuts the tree and keeps its top block. -/
theorem post_collectSubtreeFrom (level : Nat) {s : Mnt} (l : Loc) (skip : Nat) (hr : Ready s)
    (hpow : s.fs.desc.nindir ^ level < 2 ^ 32) {b : Nat}
    (h0 : b ≠ 0) (hs : Sound s (level + 1) b) :
    Post (collectSubtreeFrom s.fs.desc.nindir level b skip (s, l))
    (fun _ t => Pruned s l (level + 1) b skip t b) fun _ _ => False := by
  induction level generalizing s l skip b with
  | zero =>
    refine post_dropWith (k := 0) l hr ?_ ?_ h0 hs
    · intro t l nb _ _ _ _ hlt
      rw [Nat.pow_zero, Nat.mod_one] at hlt
      exact absurd hlt (Nat.lt_irrefl 0)
    · intro t nb _ _ hnb _
      have hone : subtree t 0 nb = [nb] := if_neg hnb
      rw [hone]
      exact collects_push nb
  | succ level ih =>
    have hsub : s.fs.desc.nindir ^ (level + 1) % 2 ^ 32 = s.fs.desc.nindir ^ (level + 1) :=
      Nat.mod_eq_of_lt hpow
    show Post (dropWith (fun nb => failAs .eio (collectSubtreeFrom s.fs.desc.nindir level nb
      (skip % (s.fs.desc.nindir ^ (level + 1) % 2 ^ 32))))
      (fun nb => failAs .eio (collectSubtree level nb)) (s.fs.desc.nindir ^ (level + 1) % 2 ^ 32) b skip
      (s, l)) _ _
    rw [hsub]
    refine post_dropWith l hr (fun t l nb hrt hd hnb hst _ => post_failAs ?_) ?_ h0 hs
    · have hpow' : t.fs.desc.nindir ^ level < 2 ^ 32 := by
        rw [hd]
        exact Nat.lt_of_le_of_lt (Nat.pow_le_pow_right hr.form.nindir_pos (Nat.le_succ level)) hpow
      have hrun := ih l (skip % s.fs.desc.nindir ^ (level + 1)) hrt hpow' hnb hst
      rwa [hd] at hrun
    · intro t nb hrt _ hnb hst
      exact collects_failAs (collects_nodes hrt level hnb hst.usable)

/-! ## The slots -/

/-- No slot past the size limit is in use. -/
def Within (d : Desc) (ip : Inode) : Prop :=
  ∀ slot, slot < d.niaddr → ip.addr slot ≠ 0 → base d ip.mode slot * d.bsize < maxFile d

/-- Below the size limit the span of a slot is no more than 32 bits; only the triple indirect slot of 8
    KB blocks' is. -/
theorem pow_depth_lt {d : Desc} (hf : Formed d) {mode slot : Nat} (hs : slot < d.niaddr)
    (hw : base d mode slot * d.bsize < maxFile d) :
    d.nindir ^ depth d mode slot < 2 ^ 32 := by
  have ht := hf.table
  unfold slotsOf pdp7Slots byteSlots at ht
  simp only [List.mem_cons, Slots.mk.injEq, List.not_mem_nil, or_false] at ht
  have hdepth : depth d mode slot ≤ 3 := by
    unfold depth slotLevel
    split
    · omega
    · rename_i level hlev
      split at hlev
      · split at hlev
        · cases hlev
          omega
        · split at hlev <;> cases hlev
          omega
      · split at hlev <;> cases hlev
        omega
  by_cases hn : d.nindir ≤ 1024
  · calc d.nindir ^ depth d mode slot ≤ 1024 ^ depth d mode slot := Nat.pow_le_pow_left hn _
      _ ≤ 1024 ^ 3 := Nat.pow_le_pow_right (by decide) hdepth
      _ < 2 ^ 32 := by decide
  · obtain ⟨h1, h2, h3, h4, h5⟩ : d.bsize = 8192 ∧ d.nindir = 2048 ∧ d.ndaddr = 10 ∧
      d.niaddr = 13 ∧ d.ilargMask = 0 := by
      omega
    have hlev : ∀ i, slotLevel d mode i = if i < 10 then none else some (i - 10) := by
      intro i
      unfold slotLevel
      rw [if_neg (fun h => h.1 h5), h3]
    have hd2 : depth d mode slot ≤ 2 := by
      by_contra hgt
      have hslot : slot = 12 := by
        unfold depth at hgt
        rw [hlev] at hgt
        split at hgt
        · omega
        · rename_i level heq
          split at heq <;> cases heq
          omega
      subst hslot
      have hmax := maxFile_lt d
      have hb : base d mode 12 = 10 + 2048 + 2048 * 2048 := by
        simp [base, span, hlev, slotSpan, h2]
      rw [hb, h1] at hw
      omega
    calc d.nindir ^ depth d mode slot ≤ 2048 ^ depth d mode slot := Nat.pow_le_pow_left (by omega) _
      _ ≤ 2048 ^ 2 := Nat.pow_le_pow_right (by decide) hd2
      _ < 2 ^ 32 := by decide

theorem span_eq {d : Desc} {mode slot : Nat} (h : d.nindir ^ depth d mode slot < 2 ^ 32) :
    span d mode slot = d.nindir ^ depth d mode slot := by
  unfold span depth at *
  cases hl : slotLevel d mode slot with
  | none => rfl
  | some level =>
    rw [hl] at h
    exact Nat.mod_eq_of_lt h

/-- What is left of the slots `a` of a file cut at `firstBlk`. -/
def remains (d : Desc) (mode : Nat) (a : Nat → Nat) (firstBlk j : Nat) : Nat :=
  if firstBlk ≤ base d mode j then 0 else a j

/-- What has become of the slots `js` of a file of that mode. -/
structure Swept (s : Mnt) (l : Loc) (js : List Nat) (m : Nat) (a : Nat → Nat) (firstBlk : Nat)
    (t : Mnt × Loc) : Prop extends SameVol s t.1 where
  fs : t.1.fs = s.fs
  mode : t.2.ip.mode = m
  addr : ∀ j, t.2.ip.addr j = if j ∈ js then remains s.fs.desc m a firstBlk j else l.ip.addr j
  sweep : ∃ L, t.2.bl = l.bl ++ L ∧ Sweep s.fs.desc.nindir (heap s) js (depth s.fs.desc m) a (fun j =>
    firstBlk - base s.fs.desc m j)
    (heap t.1) (remains s.fs.desc m a firstBlk) L

section Slots

variable {mode firstBlk : Nat} {a : Nat → Nat}

/-- One slot in use at or past the boundary. -/
theorem post_dropSlot {s : Mnt} {l : Loc} {i : Nat} (hr : Ready s)
    (hpow : s.fs.desc.nindir ^ depth s.fs.desc mode i < 2 ^ 32) (h0 : a i ≠ 0)
    (hs : Sound s (depth s.fs.desc mode i) (a i)) (hpast : firstBlk <
      base s.fs.desc mode i + span s.fs.desc mode i) :
    Post (dropSlot s.fs.desc firstBlk (base s.fs.desc mode i) i (slotLevel s.fs.desc mode i) (a i) (s, l))
      (fun _ t => SameVol s t.1 ∧ t.1.fs = s.fs ∧ t.2.ip.mode = l.ip.mode ∧
        (∀ j, t.2.ip.addr j = if j = i ∧ firstBlk ≤ base s.fs.desc mode i then 0 else l.ip.addr j) ∧
        ∃ L, t.2.bl = l.bl ++ L ∧
        Cut s.fs.desc.nindir (heap s) (depth s.fs.desc mode i) (a i) (firstBlk - base s.fs.desc mode i)
        (heap t.1)
          (remains s.fs.desc mode a firstBlk i) L) fun _ _ => False := by
  unfold remains
  unfold depth span at *
  apply post_ite
  · intro hall
    have hle : firstBlk ≤ base s.fs.desc mode i := by
      rcases hall with hnone | hle
      · rw [hnone] at hpast
        exact Nat.le_of_lt_succ hpast
      · exact hle
    have hcoll : Collects s (collectSlot (slotLevel s.fs.desc mode i) (a i))
      (subtree s (depth s.fs.desc mode i) (a i)) := by
      unfold depth collectSlot
      cases hl : slotLevel s.fs.desc mode i with
      | none =>
        have hone : subtree s 0 (a i) = [a i] := if_neg h0
        rw [hone]
        exact collects_push _
      | some level =>
        rw [hl] at hs
        exact collects_failAs (collects_nodes hr level h0 hs.usable)
    refine post_bind ((hcoll s.ios l).mono ?_ fun _ _ hf => hf)
    intro _ t hrun
    obtain ⟨ios, L, hL, rfl⟩ := hrun
    refine ⟨⟨rfl, rfl, rfl⟩, rfl, rfl, ?_, L, rfl, ?_⟩
    · intro j
      simp only [hle, and_true]
      rfl
    · rw [if_pos hle, Nat.sub_eq_zero_of_le hle]
      exact .all hL
  · intro hpart
    obtain ⟨hlev, hgt⟩ := not_or.mp hpart
    obtain ⟨level, hl⟩ := Option.ne_none_iff_exists'.mp hlev
    rw [hl] at hpow hs ⊢
    have hpow' : s.fs.desc.nindir ^ level < 2 ^ 32 :=
      Nat.lt_of_le_of_lt (Nat.pow_le_pow_right hr.form.nindir_pos (Nat.le_succ level)) hpow
    refine post_failAs ((post_collectSubtreeFrom level l (firstBlk - base s.fs.desc mode i) hr hpow' h0
      hs).mono ?_ fun _ _ hf => hf)
    intro _ t hrun
    obtain ⟨hvol, hfs, hip, L, hbl, hcut⟩ := hrun
    refine ⟨hvol, hfs, by rw [hip], ?_, L, hbl, ?_⟩
    · intro j
      rw [if_neg (fun h => hgt h.2), hip]
    · rw [if_neg hgt]
      exact hcut

/-- The slots from `i` on. -/
theorem post_itruncFromSlots (todo i : Nat) {s : Mnt} (l : Loc) (hr : Ready s)
    (hmode : l.ip.mode = mode) (hend : i + todo = s.fs.desc.niaddr)
    (haddr : ∀ j ∈ List.range' i todo, l.ip.addr j = a j)
    (hpow : ∀ j ∈ List.range' i todo, a j ≠ 0 → s.fs.desc.nindir ^ depth s.fs.desc mode j < 2 ^ 32)
    (hflat : ((List.range' i todo).flatMap fun j => subtree s (depth s.fs.desc mode j) (a j)).Nodup)
    (hus : ∀ j ∈ List.range' i todo, ∀ c ∈ subtree s (depth s.fs.desc mode j) (a j), Usable s c) :
    Post (itruncFromSlots s.fs.desc firstBlk todo i (base s.fs.desc mode i) (s, l))
      (fun _ t => Swept s l (List.range' i todo) mode a firstBlk t) fun _ _ => False := by
  induction todo generalizing s l i with
  | zero =>
    refine ⟨sameVol_law.refl s, rfl, hmode, ?_, [], (List.append_nil _).symm, .nil⟩
    intro j
    exact (if_neg (by simp)).symm
  | succ todo ih =>
    have hnext : (base s.fs.desc mode i + slotSpan s.fs.desc (slotLevel s.fs.desc mode i)) % 2 ^ 32 =
      base s.fs.desc mode (i + 1) := by
      refine Nat.mod_eq_of_lt (Nat.lt_of_le_of_lt ?_ (base_total hr.form mode))
      exact base_mono s.fs.desc mode (show i + 1 ≤ s.fs.desc.niaddr by omega)
    have hself : i ∈ List.range' i (todo + 1) := by simp
    have hlater : ∀ j ∈ List.range' (i + 1) todo, j ∈ List.range' i (todo + 1) ∧ j ≠ i := by
      intro j hj
      rw [List.mem_range'_1] at hj ⊢
      omega
    rw [List.range'_succ] at hflat
    have hdis := hflat
    rw [List.flatMap_cons, List.nodup_append'] at hdis
    have hgoon : ∀ (t : Mnt × Loc) (L₁ : List Nat), SameVol s t.1 → t.1.fs = s.fs → t.2.ip.mode = mode →
        (∀ j, t.2.ip.addr j = if j = i then remains s.fs.desc mode a firstBlk i else l.ip.addr j) →
        t.2.bl = l.bl ++ L₁ →
        Cut s.fs.desc.nindir (heap s) (depth s.fs.desc mode i) (a i) (firstBlk - base s.fs.desc mode i)
        (heap t.1)
          (remains s.fs.desc mode a firstBlk i) L₁ →
        Post (itruncFromSlots s.fs.desc firstBlk todo (i + 1) (base s.fs.desc mode (i + 1)) t)
          (fun _ u => Swept s l (List.range' i (todo + 1)) mode a firstBlk u) fun _ _ => False := by
      intro t L₁ hvol hfs hm hat hbl hcut
      have hsub : ∀ j ∈ List.range' (i + 1) todo, subtree t.1 (depth s.fs.desc mode j) (a j) =
        subtree s (depth s.fs.desc mode j) (a j) := by
        intro j hj
        unfold subtree
        rw [hfs]
        refine nodes_congr fun c hc x hx => hcut.frame c (fun hc' => ?_) x hx
        exact hdis.2.2 hc' (List.mem_flatMap.mpr ⟨j, hj, hc⟩)
      have hrest := ih (i + 1) t.2 (hr.of_sameVol hvol) hm (by rw [hfs]; omega)
        (fun j hj => by rw [hat, if_neg (hlater j hj).2]; exact haddr j (hlater j hj).1)
        (fun j hj => by rw [hfs]; exact hpow j (hlater j hj).1)
        (by rw [hfs, List.flatMap_congr hsub]; exact hdis.2.1)
        (fun j hj c hc => by
          rw [hfs, hsub j hj] at hc
          exact (usable_of_sameVol hvol).mpr (hus j (hlater j hj).1 c hc))
      rw [hfs] at hrest
      refine hrest.mono ?_ fun _ _ hf => hf
      intro _ u h
      obtain ⟨hvol', hfs', hm', hat', L, hbl', hsweep⟩ := h
      rw [hfs] at hat' hsweep
      refine ⟨sameVol_law.trans hvol hvol', hfs'.trans hfs, hm', ?_, L₁ ++ L, ?_, ?_⟩
      · intro j
        rw [hat', hat, List.range'_succ]
        by_cases hji : j = i
        · subst hji
          rw [if_neg (fun hj => (hlater j hj).2 rfl), if_pos rfl, if_pos List.mem_cons_self]
        · simp only [List.mem_cons, hji, false_or, if_false]
      · rw [hbl', hbl, List.append_assoc]
      · rw [List.range'_succ]
        exact .cons hr.form.nindir_pos hflat hcut hsweep
    show Post ((onlyIf (firstBlk < (base s.fs.desc mode i +
      slotSpan s.fs.desc (slotLevel s.fs.desc l.ip.mode i)) % 2 ^ 32 ∧ l.ip.addr i ≠ 0)
      (dropSlot s.fs.desc firstBlk (base s.fs.desc mode i) i (slotLevel s.fs.desc l.ip.mode i)
        (l.ip.addr i)) >>= fun _ =>
      itruncFromSlots s.fs.desc firstBlk todo (i + 1)
      ((base s.fs.desc mode i + slotSpan s.fs.desc (slotLevel s.fs.desc l.ip.mode i)) % 2 ^ 32) : MI Unit)
      (s, l)) _ _
    rw [hmode, hnext, haddr i hself]
    refine post_bind (post_onlyIf ?_ ?_)
    · intro hdrop
      obtain ⟨hlt, h0⟩ := hdrop
      refine (post_dropSlot (l := l) hr (hpow i hself h0) h0 ⟨hdis.1, hus i hself⟩ hlt).mono ?_ fun _ _ hf => hf
      intro _ t h
      obtain ⟨hvol, hfs, hm, hat, L, hbl, hcut⟩ := h
      refine hgoon t L hvol hfs (hm.trans hmode) (fun j => ?_) hbl hcut
      rw [hat]
      unfold remains
      by_cases hji : j = i
      · subst hji
        simp only [true_and, if_true, haddr j hself]
      · simp [hji]
    · intro hkeep
      have hval : remains s.fs.desc mode a firstBlk i = a i ∧
        (s.fs.desc.nindir ^ depth s.fs.desc mode i ≤ firstBlk - base s.fs.desc mode i ∨ a i = 0) := by
        unfold remains
        by_cases h0 : a i = 0
        · refine ⟨?_, .inr h0⟩
          rw [h0]
          exact ite_self 0
        · have hge : ¬ firstBlk < base s.fs.desc mode i + span s.fs.desc mode i := fun hlt => hkeep ⟨hlt, h0⟩
          have hpos : 0 < s.fs.desc.nindir ^ depth s.fs.desc mode i := Nat.pow_pos hr.form.nindir_pos
          rw [span_eq (hpow i hself h0)] at hge
          exact ⟨if_neg (by omega), .inl (by omega)⟩
      refine hgoon (s, l) [] (sameVol_law.refl s) rfl hmode ?_ (List.append_nil _).symm ?_
      · intro j
        rw [hval.1]
        split
        · rename_i hji
          rw [hji]
          exact haddr i hself
        · rfl
      · rw [hval.1]
        exact .keep hval.2

end Slots

/-! ## The file -/

section Blocks

variable {s : Mnt} {ip : Inode}

/-- The way down to a leaf. -/
theorem walk_levelIdx (n : Nat) (H : Heap) (level a r : Nat) :
    walk H a (levelIdx n level r) = leaf n H (level + 1) a r := by
  induction level generalizing a with
  | zero => rfl
  | succ level ih =>
    rw [levelIdx_succ, walk, leaf]
    split
    · rfl
    · exact ih _

/-- The logical block `r` of a slot is its leaf `r`. -/
theorem mapAt_leaf {lbn slot r : Nat}
    (h : findSlot s.fs.desc ip.mode lbn s.fs.desc.niaddr 0 0 = some (slot, r)) :
    mapAt s ip lbn = leaf s.fs.desc.nindir (heap s) (depth s.fs.desc ip.mode slot) (ip.addr slot) r := by
  rw [mapAt_some (findSlot_path h)]
  unfold depth
  show walk (heap s) (ip.addr slot) _ = _
  cases slotLevel s.fs.desc ip.mode slot with
  | none => rfl
  | some level => exact walk_levelIdx s.fs.desc.nindir (heap s) level (ip.addr slot) r

end Blocks

section Truncated

variable {s : Mnt} {l : Loc} {firstBlk : Nat} {t : Mnt × Loc}

/-- The whole table of slots has been swept. -/
theorem post_filsysItruncFrom (hr : Ready s) (hok : TreeOk s l.ip) (hw : Within s.fs.desc l.ip)
    (firstBlk : Nat) :
    Post (filsysItruncFrom firstBlk (s, l))
    (fun _ t => Swept s l (List.range s.fs.desc.niaddr) l.ip.mode l.ip.addr firstBlk t) fun _ _ =>
    False := by
  have hnd := nodup_blocks.mpr hok.unshared
  unfold blocks at hnd
  have hus : ∀ j ∈ List.range s.fs.desc.niaddr,
    ∀ c ∈ subtree s (depth s.fs.desc l.ip.mode j) (l.ip.addr j), Usable s c := by
    intro j hj c hc
    exact hok.usable c (mem_blocks.mp (List.mem_flatMap.mpr ⟨j, hj, hc⟩))
  have hpow : ∀ j ∈ List.range s.fs.desc.niaddr, l.ip.addr j ≠ 0 →
    s.fs.desc.nindir ^ depth s.fs.desc l.ip.mode j < 2 ^ 32 := by
    intro j hj h0
    exact pow_depth_lt hr.form (List.mem_range.mp hj) (hw j (List.mem_range.mp hj) h0)
  rw [List.range_eq_range'] at hnd hus hpow ⊢
  exact post_itruncFromSlots s.fs.desc.niaddr 0 l hr rfl (Nat.zero_add _) (fun _ _ => rfl) hpow hnd hus

/-- The slots afterwards. -/
theorem Swept.addr_eq (h : Swept s l (List.range s.fs.desc.niaddr) l.ip.mode l.ip.addr firstBlk t)
    {j : Nat} (hj : j < s.fs.desc.niaddr) :
    t.2.ip.addr j = remains s.fs.desc l.ip.mode l.ip.addr firstBlk j := by
  rw [h.addr, if_pos (List.mem_range.mpr hj)]

/-- Taken out and left, the blocks are those there were. -/
theorem Swept.perm (h : Swept s l (List.range s.fs.desc.niaddr) l.ip.mode l.ip.addr firstBlk t) :
    ∃ L, t.2.bl = l.bl ++ L ∧ (L ++ blocks t.1 t.2.ip).Perm (blocks s l.ip) := by
  obtain ⟨L, hbl, hsweep⟩ := h.sweep
  refine ⟨L, hbl, ?_⟩
  have hleft : blocks t.1 t.2.ip = (List.range s.fs.desc.niaddr).flatMap fun j =>
      nodes s.fs.desc.nindir (heap t.1) (depth s.fs.desc l.ip.mode j)
        (remains s.fs.desc l.ip.mode l.ip.addr firstBlk j) := by
    unfold blocks subtree
    rw [h.fs, h.mode]
    exact List.flatMap_congr fun j hj => by rw [h.addr_eq (List.mem_range.mp hj)]
  rw [hleft]
  exact hsweep.perm

theorem Swept.tree (h : Swept s l (List.range s.fs.desc.niaddr) l.ip.mode l.ip.addr firstBlk t)
    (hok : TreeOk s l.ip) : TreeOk t.1 t.2.ip := by
  obtain ⟨L, -, hperm⟩ := h.perm
  constructor
  · have hnd := hperm.symm.nodup (nodup_blocks.mpr hok.unshared)
    exact nodup_blocks.mp (List.nodup_append'.mp hnd).2.1
  · intro b hb
    rw [usable_of_sameVol h.toSameVol]
    exact hok.usable b (mem_blocks.mp (hperm.subset (List.mem_append_right L (mem_blocks.mpr hb))))

theorem Swept.within (h : Swept s l (List.range s.fs.desc.niaddr) l.ip.mode l.ip.addr firstBlk t)
    (hw : Within s.fs.desc l.ip) :
    Within t.1.fs.desc t.2.ip := by
  rw [h.fs]
  intro j hj h0
  rw [h.addr_eq hj] at h0
  rw [h.mode]
  unfold remains at h0
  split at h0
  · exact absurd rfl h0
  · exact hw j hj h0

/-- Before the boundary the map is as it was, from there on it is empty. -/
theorem Swept.map (h : Swept s l (List.range s.fs.desc.niaddr) l.ip.mode l.ip.addr firstBlk t)
    (hf : Formed s.fs.desc) (hw : Within s.fs.desc l.ip)
    {k : Nat} (hk : k < 2 ^ 32) : mapAt t.1 t.2.ip k = if k < firstBlk then mapAt s l.ip k else 0 := by
  have hd : t.1.fs.desc = s.fs.desc := by rw [h.fs]
  cases hfind : findSlot s.fs.desc l.ip.mode k s.fs.desc.niaddr 0 0 with
  | none =>
    rw [mapAt_none (findSlot_none hfind), mapAt_none (findSlot_none (by rw [hd, h.mode]; exact hfind))]
    exact (ite_self 0).symm
  | some q =>
    obtain ⟨slot, r⟩ := q
    have hspec := (findSlot_eq_some (by rw [Nat.zero_add]; exact base_total hf l.ip.mode)
      (Nat.zero_le k) hk).mp hfind
    obtain ⟨-, hslot, hlbn, hr⟩ := hspec
    rw [Nat.zero_add] at hslot
    rw [mapAt_leaf hfind, mapAt_leaf (by rw [hd, h.mode]; exact hfind), hd, h.mode, h.addr_eq hslot]
    by_cases h0 : l.ip.addr slot = 0
    · unfold remains
      rw [h0, ite_self, leaf_zero, leaf_zero, ite_self]
    · rw [span_eq (pow_depth_lt hf hslot (hw slot hslot h0))] at hr
      obtain ⟨L, -, hsweep⟩ := h.sweep
      rw [hsweep.leaves slot (List.mem_range.mpr hslot) r hr]
      by_cases hlt : k < firstBlk
      · rw [if_pos hlt, if_pos (by omega)]
      · rw [if_neg hlt, if_neg (by omega)]

/-- An entry of an indirect block that is left names a block that is left, or none. -/
theorem Swept.cleared (h : Swept s l (List.range s.fs.desc.niaddr) l.ip.mode l.ip.addr firstBlk t)
    {b i : Nat} (hb : IndirectBlock t.1 t.2.ip b)
    (hb0 : b ≠ 0) (hi : i < s.fs.desc.nindir) :
    heap t.1 b i = 0 ∨ heap t.1 b i = heap s b i ∧ heap s b i ∈ blocks t.1 t.2.ip := by
  obtain ⟨L, -, hsweep⟩ := h.sweep
  by_cases hz : heap t.1 b i = 0
  · exact .inl hz
  · have heq := (hsweep.clears b i hi).resolve_right hz
    refine .inr ⟨heq, mem_blocks.mpr ?_⟩
    obtain ⟨slot, idxs, hpl, hlen, rfl⟩ := hb
    obtain ⟨hslot, -, hidx⟩ := place_cons.mp hpl
    rw [← heq]
    refine ⟨hz, slot :: idxs ++ [i], ?_, ?_⟩
    · rw [List.cons_append]
      refine place_cons.mpr ⟨hslot, ?_, ?_⟩
      · rw [List.length_append]
        exact hlen
      · intro j hj
        rcases List.mem_append.mp hj with hj | hj
        · exact hidx j hj
        · rw [List.mem_singleton.mp hj, h.fs]
          exact hi
    · rw [look_snoc _ _ (List.cons_ne_nil _ _)]
      exact if_neg hb0

end Truncated

/-- Cut at `firstBlk`, a file maps the logical blocks before it as it did and has holes from there on.
    The blocks collected and those of the file are the blocks it had, each once; and no entry of an
    indirect block the file still has names a collected block. -/
theorem partial_truncate {s : Mnt} {l : Loc} (hr : Ready s) (hok : TreeOk s l.ip)
    (hw : Within s.fs.desc l.ip) (firstBlk : Nat) :
    ∃ t L, filsysItruncFrom firstBlk (s, l) = .ok () t ∧ t.2.bl = l.bl ++ L ∧
      (∀ k, k < 2 ^ 32 → resolves t k = if k < firstBlk then resolves (s, l) k else some 0) ∧
      (L ++ blocks t.1 t.2.ip).Perm (blocks s l.ip) ∧ (L ++ blocks t.1 t.2.ip).Nodup ∧
      (∀ b i, IndirectBlock t.1 t.2.ip b → b ≠ 0 → i < s.fs.desc.nindir → heap s b i ∈ L → heap t.1 b i = 0) ∧
      TreeOk t.1 t.2.ip ∧ Within t.1.fs.desc t.2.ip := by
  obtain ⟨_, t, hrun, hswept⟩ := (post_filsysItruncFrom hr hok hw firstBlk).succeeds
  obtain ⟨L, hbl, hperm⟩ := hswept.perm
  have hnd := hperm.symm.nodup (nodup_blocks.mpr hok.unshared)
  have htree := hswept.tree hok
  refine ⟨t, L, hrun, hbl, fun k hk => ?_, hperm, hnd, fun b i hb hb0 hi hL => ?_, htree, hswept.within hw⟩
  · rw [resolves_eq hr hok hk, resolves_eq (s := t.1) (l := t.2) (hr.of_sameVol hswept.toSameVol) htree
      hk, hswept.map hr.form hw hk]
    split <;> rfl
  · rcases hswept.cleared hb hb0 hi with hz | ⟨-, hmem⟩
    · exact hz
    · exact absurd hmem ((List.nodup_append'.mp hnd).2.2 hL)

theorem within_grownFile : Within twelveBlocks.fs.desc grownFile.ip := by
  have hall : ∀ slot, slot < descV7.niaddr → grownFile.ip.addr slot ≠ 0 →
    base descV7 0 slot * descV7.bsize < maxFile descV7 := by
    decide +kernel
  exact hall

/-- Cut inside its indirect block, a file keeps what lies before the cut and gives back the two blocks
    behind it. -/
theorem a_file_cut_inside_its_indirect_block : ∃ t, filsysItruncFrom 11 (twelveBlocks, grownFile) = .ok () t ∧
    (t.2.bl ++ blocks t.1 t.2.ip).Perm [5, 6, 7, 8, 4] ∧ resolves t 0 = some 5 ∧
    resolves t 10 = some 7 ∧ resolves t 11 = some 0 ∧
    resolves t 13 = some 0 := by
  have hbefore : resolves (twelveBlocks, grownFile) 0 = some 5 ∧
    resolves (twelveBlocks, grownFile) 10 = some 7 := by
    decide +kernel
  obtain ⟨t, L, hrun, hbl, hmap, hperm, -⟩ :=
    partial_truncate able_grownFile.ready able_grownFile.tree within_grownFile 11
  rw [blocks_grownFile] at hperm
  refine ⟨t, hrun, ?_, (hmap 0 (by decide)).trans hbefore.1, (hmap 10 (by decide)).trans hbefore.2,
    hmap 11 (by decide), hmap 13 (by decide)⟩
  rw [hbl]
  exact hperm

end Filsys.Blockmap
