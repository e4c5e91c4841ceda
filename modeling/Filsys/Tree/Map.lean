/-
  Filsys.Tree.Map — the block map of a file (blocktree.c).

  `pathOf` is where a logical block number is found: a slot and the entries below it.
  `mapOf` is the block there. Different numbers have different paths (`pathOf_inj`), so
  what `filsysBmap` makes for one leaves the others alone; the promotion of a small file
  moves no block (`Mapped`, `post_filsysBmap`).
-/

import Filsys.Tree.Bmap

namespace Filsys.Tree

open Filsys.Lib Filsys.Engine Filsys.Alloc

/-! ## Paths -/

theorem levelIdx_succ (nindir level r : Nat) :
    levelIdx nindir (level + 1) r = r / nindir ^ (level + 1) % nindir :: levelIdx nindir level r := by
  unfold levelIdx
  rw [List.range_succ_eq_map, List.map_cons, List.map_map]
  congr 1
  refine List.map_congr_left fun l _ => ?_
  show r / nindir ^ (level + 1 - (l + 1)) % nindir = _
  rw [Nat.add_sub_add_right]

theorem levelIdx_length (nindir level r : Nat) : (levelIdx nindir level r).length = level + 1 := by
  unfold levelIdx
  rw [List.length_map, List.length_range]

theorem levelIdx_lt {nindir level r i : Nat} (h0 : 0 < nindir) (h : i ∈ levelIdx nindir level r) :
    i < nindir := by
  obtain ⟨l, -, rfl⟩ := List.mem_map.mp h
  exact Nat.mod_lt _ h0

/-- The entries are the digits of the index. -/
theorem levelIdx_inj {nindir level : Nat} {r r' : Nat} (h : r < nindir ^ (level + 1))
    (h' : r' < nindir ^ (level + 1))
    (heq : levelIdx nindir level r = levelIdx nindir level r') : r = r' := by
  have hdigits : ∀ level r r', levelIdx nindir level r = levelIdx nindir level r' →
    r % nindir ^ (level + 1) = r' % nindir ^ (level + 1) := by
    intro level
    induction level with
    | zero =>
      intro r r' heq
      have := (List.cons.inj heq).1
      simpa using this
    | succ level ih =>
      intro r r' heq
      rw [levelIdx_succ, levelIdx_succ] at heq
      obtain ⟨htop, hrest⟩ := List.cons.inj heq
      have hlow := ih r r' hrest
      rw [pow_succ nindir (level + 1), Nat.mod_mul, Nat.mod_mul, htop, hlow]
  have := hdigits level r r' heq
  rwa [Nat.mod_eq_of_lt h, Nat.mod_eq_of_lt h'] at this

theorem slotSpan_le (d : Desc) {level r : Nat} (h : r < slotSpan d (some level)) : r < d.nindir ^ (level + 1) :=
  Nat.lt_of_lt_of_le h (Nat.mod_le _ _)

/-- Where the search ends: a slot it has not passed, and an index within the slot's span. -/
theorem findSlot_spec {d : Desc} {mode lbn slot r : Nat} (hl : lbn < 2 ^ 32)
    (todo i base : Nat) (hb : base ≤ lbn)
    (h : findSlot d mode lbn todo i base = some (slot, r)) :
    i ≤ slot ∧ slot < i + todo ∧ r < slotSpan d (slotLevel d mode slot) ∧ r ≤ lbn := by
  induction todo generalizing i base with
  | zero => cases h
  | succ todo ih =>
    rw [findSlot] at h
    split at h
    · rename_i hlt
      cases h
      refine ⟨Nat.le_refl _, by omega, ?_, by omega⟩
      have : (lbn + 2 ^ 32 - base) % 2 ^ 32 = lbn - base := by omega
      rw [this]
      omega
    · rename_i hge
      have := ih (i + 1) _ (Nat.le_of_not_lt hge) h
      omega

/-- Two numbers found in one slot at one index are one number. -/
theorem findSlot_inj {d : Desc} {mode lbn lbn' slot r : Nat} (hl : lbn < 2 ^ 32)
    (hl' : lbn' < 2 ^ 32) (todo i base : Nat)
    (hb : base ≤ lbn) (hb' : base ≤ lbn') (h : findSlot d mode lbn todo i base = some (slot, r))
    (h' : findSlot d mode lbn' todo i base = some (slot, r)) : lbn = lbn' := by
  induction todo generalizing i base with
  | zero => cases h
  | succ todo ih =>
    have hi := findSlot_spec hl (todo + 1) i base hb h
    rw [findSlot] at h h'
    split at h
    · rename_i hlt
      split at h'
      · cases h
        have := (Prod.mk.inj (Option.some.inj h')).2
        omega
      · rename_i hge
        cases h
        have := findSlot_spec hl' todo (slot + 1) _ (Nat.le_of_not_lt hge) h'
        omega
    · rename_i hge
      split at h'
      · cases h'
        have := findSlot_spec hl todo (slot + 1) _ (Nat.le_of_not_lt hge) h
        omega
      · rename_i hge'
        exact ih (i + 1) _ (Nat.le_of_not_lt hge) (Nat.le_of_not_lt hge') h h'

/-- The slot of a logical block and the entries below it. -/
def pathOf (d : Desc) (mode lbn : Nat) : Option (Nat × List Nat) :=
  (findSlot d mode lbn d.niaddr 0 0).map fun p =>
    (p.1, match slotLevel d mode p.1 with
      | none => []
      | some level => levelIdx d.nindir level p.2)

/-- The block a logical block number maps to; 0 is a hole. -/
def mapOf (fs : Fs) (img : Buf) (ip : Inode) (lbn : Nat) : Nat :=
  match pathOf fs.desc ip.mode lbn with
  | none => 0
  | some (slot, idxs) => descend fs img (ip.addr slot) idxs

section Paths

variable {d : Desc} {mode lbn lbn' slot : Nat} {idxs : List Nat}

theorem pathOf_slot (hl : lbn < 2 ^ 32) (h : pathOf d mode lbn = some (slot, idxs)) : slot < d.niaddr := by
  obtain ⟨⟨sl, r⟩, hf, heq⟩ := Option.map_eq_some_iff.mp h
  obtain ⟨rfl, -⟩ := Prod.mk.inj heq
  have := findSlot_spec hl _ _ _ (Nat.zero_le _) hf
  omega

theorem pathOf_length (h : pathOf d mode lbn = some (slot, idxs)) : idxs.length = depth d mode slot := by
  obtain ⟨⟨sl, r⟩, hf, heq⟩ := Option.map_eq_some_iff.mp h
  obtain ⟨rfl, rfl⟩ := Prod.mk.inj heq
  unfold depth
  cases hlev : slotLevel d mode sl with
  | none => rfl
  | some level => exact levelIdx_length _ _ _

theorem pathOf_lt (h0 : 0 < d.nindir) (h : pathOf d mode lbn = some (slot, idxs)) :
    ∀ i ∈ idxs, i < d.nindir := by
  obtain ⟨⟨sl, r⟩, hf, heq⟩ := Option.map_eq_some_iff.mp h
  obtain ⟨rfl, rfl⟩ := Prod.mk.inj heq
  intro i hi
  cases hlev : slotLevel d mode sl with
  | none =>
    rw [hlev] at hi
    exact absurd hi List.not_mem_nil
  | some level =>
    rw [hlev] at hi
    exact levelIdx_lt h0 hi

theorem pathOf_inj (hl : lbn < 2 ^ 32) (hl' : lbn' < 2 ^ 32) (h : pathOf d mode lbn = some (slot, idxs))
    (h' : pathOf d mode lbn' = some (slot, idxs)) : lbn = lbn' := by
  obtain ⟨⟨sl, r⟩, hf, heq⟩ := Option.map_eq_some_iff.mp h
  obtain ⟨⟨sl', r'⟩, hf', heq'⟩ := Option.map_eq_some_iff.mp h'
  obtain ⟨rfl, rfl⟩ := Prod.mk.inj heq
  obtain ⟨hs, hi⟩ := Prod.mk.inj heq'
  have hs : sl' = sl := hs
  subst hs
  have hspan := (findSlot_spec hl _ _ _ (Nat.zero_le _) hf).2.2.1
  have hspan' := (findSlot_spec hl' _ _ _ (Nat.zero_le _) hf').2.2.1
  have hr : r = r' := by
    cases hlev : slotLevel d mode sl' with
    | none =>
      rw [hlev, show slotSpan d none = 1 from rfl] at hspan hspan'
      omega
    | some level =>
      simp only [hlev] at hspan hspan' hi
      exact levelIdx_inj (slotSpan_le d hspan) (slotSpan_le d hspan') hi.symm
  subst hr
  exact findSlot_inj hl hl' _ _ _ (Nat.zero_le _) (Nat.zero_le _) hf hf'

end Paths

/-! ## What a copy maps -/

/-- A file that has not outgrown its slots, of an edition that promotes. -/
def Small (d : Desc) (mode : Nat) : Prop := d.ilargMask ≠ 0 ∧ has mode d.ilargMask = false

instance (d : Desc) (mode : Nat) : Decidable (Small d mode) := inferInstanceAs (Decidable (_ ∧ _))

/-- Its own blocks' places have entries below them. -/
def Inner (d : Desc) (p : List Nat) : Prop := ∃ slot idxs, p = slot :: idxs ∧ idxs.length < cdepth d slot

theorem depth_small {d : Desc} (hl : Promotes d) {mode slot : Nat} (hs : Small d mode)
    (hslot : slot < d.niaddr) :
    slotLevel d mode slot = none := by
  unfold slotLevel
  rw [if_neg (by simp [hs.2]), if_pos (by rw [hl.direct]; exact hslot)]

theorem depth_large {d : Desc} {mode : Nat} (h : ¬ Small d mode) (slot : Nat) :
    depth d mode slot = cdepth d slot := by
  refine depth_eq_cdepth ?_ slot
  by_cases h0 : d.ilargMask = 0
  · exact .inl h0
  · right
    cases hm : has mode d.ilargMask with
    | true => rfl
    | false => exact absurd ⟨h0, hm⟩ h

theorem cdepth_zero {fs : Fs} (hl : MapLayout fs) (h : fs.desc.ilargMask ≠ 0) : cdepth fs.desc 0 = 1 := by
  have hself : has fs.desc.ilargMask fs.desc.ilargMask = true := by
    unfold has
    simpa using h
  unfold cdepth depth slotLevel
  rw [if_pos ⟨h, hself⟩, if_pos (hl.promotes h).1]

/-- The place of a logical block is a leaf. -/
theorem leaf_place {fs : Fs} (hl : MapLayout fs) {mode lbn slot : Nat} {idxs : List Nat} (hlbn : lbn < 2 ^ 32)
    (h : pathOf fs.desc mode lbn = some (slot, idxs)) :
    ∃ sl ids, croot fs.desc mode slot ++ idxs = sl :: ids ∧ ids.length = cdepth fs.desc sl := by
  have hslot := pathOf_slot hlbn h
  have hlen := pathOf_length h
  by_cases hs : Small fs.desc mode
  · refine ⟨0, [slot], ?_, (cdepth_zero hl hs.1).symm⟩
    have hnil : idxs = [] := by
      rw [depth, depth_small (hl.promoting hs.1) hs hslot] at hlen
      exact List.eq_nil_of_length_eq_zero hlen
    rw [hnil, List.append_nil]
    exact if_pos hs
  · refine ⟨slot, idxs, ?_, hlen.trans (depth_large hs slot)⟩
    rw [show croot fs.desc mode slot = [slot] from if_neg hs, List.singleton_append]

theorem mapOf_eq {fs : Fs} {img : Buf} {ip : Inode} {lbn slot : Nat} {idxs : List Nat}
    (h : pathOf fs.desc ip.mode lbn = some (slot, idxs)) :
    mapOf fs img ip lbn = descend fs img (ip.addr slot) idxs := by
  unfold mapOf
  rw [h]

theorem mapOf_none {fs : Fs} {img : Buf} {ip : Inode} {lbn : Nat}
    (h : pathOf fs.desc ip.mode lbn = none) : mapOf fs img ip lbn = 0 := by
  unfold mapOf
  rw [h]

section Held

variable {s : Mnt} {own : Own} (h : Owned s own) {n : Nat} {ip : Inode} (hv : View s.fs.desc own n ip)

include h hv

/-- What a logical block maps to is held for its place, a leaf. -/
theorem mapOf_held {lbn : Nat} (hl : lbn < 2 ^ 32) (hb : mapOf s.fs s.img ip lbn ≠ 0) :
    ∃ slot idxs, pathOf s.fs.desc ip.mode lbn = some (slot, idxs) ∧
      own (mapOf s.fs s.img ip lbn) = some (n, croot s.fs.desc ip.mode slot ++ idxs) := by
  cases hp : pathOf s.fs.desc ip.mode lbn with
  | none => exact absurd (mapOf_none hp) hb
  | some p =>
    obtain ⟨slot, idxs⟩ := p
    refine ⟨slot, idxs, rfl, h.reaches hv ⟨pathOf_slot hl hp, Nat.le_of_eq (pathOf_length hp),
      pathOf_lt h.layout.nindir hp, (mapOf_eq hp).symm, hb⟩⟩

theorem mapOf_leaf {lbn : Nat} (hl : lbn < 2 ^ 32) (hb : mapOf s.fs s.img ip lbn ≠ 0) :
    ∃ slot idxs, own (mapOf s.fs s.img ip lbn) = some (n, slot :: idxs) ∧
    idxs.length = cdepth s.fs.desc slot := by
  obtain ⟨slot, idxs, hp, hown⟩ := mapOf_held h hv hl hb
  obtain ⟨sl, ids, heq, hlen⟩ := leaf_place h.layout hl hp
  exact ⟨sl, ids, by rw [hown, heq], hlen⟩

/-- Different logical blocks are different blocks. -/
theorem mapOf_inj {lbn lbn' : Nat} (hl : lbn < 2 ^ 32) (hl' : lbn' < 2 ^ 32) (hb : mapOf s.fs s.img ip lbn ≠ 0)
    (heq : mapOf s.fs s.img ip lbn' = mapOf s.fs s.img ip lbn) : lbn' = lbn := by
  obtain ⟨slot, idxs, hp, hown⟩ := mapOf_held h hv hl hb
  obtain ⟨slot', idxs', hp', hown'⟩ := mapOf_held h hv hl' (by rw [heq]; exact hb)
  rw [heq, hown] at hown'
  have hplace := (Prod.mk.inj (Option.some.inj hown')).2
  have hlen := pathOf_length hp
  have hlen' := pathOf_length hp'
  have hsame : slot' = slot ∧ idxs' = idxs := by
    unfold croot at hplace
    split at hplace
    · rename_i hs
      rw [depth, depth_small (h.layout.promoting hs.1) hs (pathOf_slot hl hp)] at hlen
      rw [depth, depth_small (h.layout.promoting hs.1) hs (pathOf_slot hl' hp')] at hlen'
      have h1 : idxs = [] := List.eq_nil_of_length_eq_zero hlen
      have h2 : idxs' = [] := List.eq_nil_of_length_eq_zero hlen'
      subst h1 h2
      simp at hplace
      exact ⟨hplace.symm, rfl⟩
    · simp at hplace
      exact ⟨hplace.1.symm, hplace.2.symm⟩
  rw [hsame.1, hsame.2] at hp'
  exact pathOf_inj hl' hl hp' hp

end Held

/-! ## What making a block changes -/

/-- A copy that has grown: blocks hung into its slots, at most promoted. -/
structure SameCopy (d : Desc) (ip ip' : Inode) : Prop where
  rest : ip' = { ip with addr := ip'.addr, mode := ip'.mode }
  mode : ip'.mode = ip.mode ∨ ip'.mode = ip.mode ||| d.ilargMask
  addr : ip'.mode = ip.mode → ∀ slot, ip.addr slot ≠ 0 → ip'.addr slot = ip.addr slot

theorem SameCopy.ino {d : Desc} {ip ip' : Inode} (h : SameCopy d ip ip') : ip'.ino = ip.ino := by
  rw [h.rest]

theorem SameCopy.nlink {d : Desc} {ip ip' : Inode} (h : SameCopy d ip ip') : ip'.nlink = ip.nlink := by
  rw [h.rest]

theorem SameCopy.size {d : Desc} {ip ip' : Inode} (h : SameCopy d ip ip') : ip'.size = ip.size := by
  rw [h.rest]

theorem SameCopy.refl (d : Desc) (ip : Inode) : SameCopy d ip ip := ⟨rfl, .inl rfl, fun _ _ _ => rfl⟩

theorem SameCopy.trans {d : Desc} {ip ip' ip'' : Inode} (h : SameCopy d ip ip')
    (h' : SameCopy d ip' ip'') : SameCopy d ip ip'' := by
  refine ⟨?_, ?_, ?_⟩
  · rw [h'.rest, h.rest]
  · rcases h.mode with e | e <;> rcases h'.mode with e' | e' <;> rw [e', e]
    · exact .inl rfl
    · exact .inr rfl
    · exact .inr rfl
    · right
      rw [Nat.or_assoc, Nat.or_self]
  · intro heq slot h0
    have hmode : ip'.mode = ip.mode := by
      rcases h.mode with e | e
      · exact e
      · rcases h'.mode with e' | e'
        · exact e'.symm.trans heq
        · rw [e', e, Nat.or_assoc, Nat.or_self] at heq
          exact e.trans heq
    have hsame := h.addr hmode slot h0
    rw [← hsame]
    exact h'.addr (heq.trans hmode.symm) slot (hsame ▸ h0)

/-- The map of `n`'s copy after `lbn` has been asked for: every other block is where it was, and
    this one where it was or, from a hole, a block of zeros. -/
structure Mapped (S : Scope) (n lbn : Nat) (s : Mnt) (own : Own) (ip : Inode) (t : Mnt) (own' : Own)
    (ip' : Inode) : Prop where
  path : Path S s own t own'
  frame : Frame n (Inner s.fs.desc) s own t own'
  view : View s.fs.desc own' n ip'
  copy : SameCopy s.fs.desc ip ip'
  other : ∀ l, l < 2 ^ 32 → l ≠ lbn → mapOf t.fs t.img ip' l = mapOf s.fs s.img ip l
  here : mapOf t.fs t.img ip' lbn = mapOf s.fs s.img ip lbn ∨
    mapOf s.fs s.img ip lbn = 0 ∧
    (mapOf t.fs t.img ip' lbn ≠ 0 → blockOf s.fs t.img (mapOf t.fs t.img ip' lbn) = zeroBuf)

theorem Mapped.owned {S : Scope} {n lbn : Nat} {s t : Mnt} {own own' : Own} {ip ip' : Inode}
    (h : Mapped S n lbn s own ip t own' ip')
    (ho : Owned s own) : Owned t own' := h.path.owned ho

theorem not_inner_leaf {d : Desc} {slot : Nat} {idxs : List Nat} (h : idxs.length = cdepth d slot) :
    ¬ Inner d (slot :: idxs) := by
  intro hr
  obtain ⟨sl, ids, heq, hlt⟩ := hr
  cases heq
  omega

theorem Mapped.trans {S : Scope} {n lbn : Nat} {s t u : Mnt} {own own' own'' : Own}
    {ip ip' ip'' : Inode} (ho : Owned s own) (hl : lbn < 2 ^ 32)
    (h : Mapped S n lbn s own ip t own' ip') (h' : Mapped S n lbn t own' ip' u own'' ip'') :
    Mapped S n lbn s own ip u own'' ip'' := by
  have hd := shape_desc h.frame.shape
  have hb := shape_blockOf h.frame.shape
  have hf' : Frame n (Inner s.fs.desc) t own' u own'' := by
    rw [← hd]
    exact h'.frame
  refine ⟨h.path.trans h'.path, h.frame.trans hf', ?_, ?_, fun l hl' hne =>
    (h'.other l hl' hne).trans (h.other l hl' hne), ?_⟩
  · rw [← hd]
    exact h'.view
  · exact h.copy.trans (hd ▸ h'.copy)
  · rcases h.here with h1 | ⟨h1, hz⟩
    · rcases h'.here with h2 | ⟨h2, hz'⟩
      · exact .inl (h2.trans h1)
      · refine .inr ⟨h1.symm.trans h2, ?_⟩
        rw [← hb]
        exact hz'
    · refine .inr ⟨h1, fun hne => ?_⟩
      rcases h'.here with h2 | ⟨h2, hz'⟩
      · rw [h2] at hne ⊢
        obtain ⟨slot, idxs, hown, hlen⟩ := mapOf_leaf (h.owned ho) (hd ▸ h.view) hl hne
        have := h'.frame.same _ _ _ hown fun _ => not_inner_leaf hlen
        rw [hb] at this
        exact this.trans (hz hne)
      · rw [← hb]
        exact hz' hne

/-- No block of `ip`'s moves while only places off its paths change. -/
theorem Frame.mapOf {m k : Nat} {A : List Nat → Prop} {s t : Mnt} {own own' : Own}
    (hf : Frame m A s own t own') (h : Owned s own) {ip : Inode}
    (hv : View s.fs.desc own k ip) {lbn : Nat} (hl : lbn < 2 ^ 32)
    (hA : k = m → ∀ slot idxs, pathOf s.fs.desc ip.mode lbn = some (slot, idxs) → ∀ j, j < idxs.length →
      ¬ A (slot :: idxs.take j)) :
    mapOf t.fs t.img ip lbn = mapOf s.fs s.img ip lbn := by
  have hd := shape_desc hf.shape
  cases hp : pathOf s.fs.desc ip.mode lbn with
  | none => rw [mapOf_none hp, mapOf_none (by rw [hd]; exact hp)]
  | some p =>
    obtain ⟨slot, idxs⟩ := p
    rw [mapOf_eq hp, mapOf_eq (by rw [hd]; exact hp)]
    by_cases h0 : ip.addr slot = 0
    · rw [h0, descend_zero, descend_zero]
    · have hslot := pathOf_slot hl hp
      have hlen := pathOf_length hp
      have hown := hv slot hslot h0
      by_cases hs : Small s.fs.desc ip.mode
      · rw [depth, depth_small (h.layout.promoting hs.1) hs hslot] at hlen
        rw [List.eq_nil_of_length_eq_zero hlen]
        rfl
      · rw [show croot s.fs.desc ip.mode slot = [slot] from if_neg hs] at hown
        refine hf.descend h hown ?_ (pathOf_lt h.layout.nindir hp) ?_
        · exact Nat.le_of_eq (by rw [List.length_nil, Nat.zero_add, hlen, depth_large hs])
        · intro hk j hj
          rw [List.nil_append]
          exact hA hk slot idxs hp j hj

theorem View.grows {d : Desc} {own own' : Own} {n : Nat} {ip : Inode} (h : View d own n ip)
    (hg : Grows own own') : View d own' n ip :=
  fun slot hs h0 => hg _ _ (h slot hs h0)

section Making

variable {S : Scope} {n lbn slot : Nat} {idxs : List Nat} {s t : Mnt} {own own' : Own} {ip : Inode}
    (h : Owned s own) (hv : View s.fs.desc own n ip)

include h hv

/-- Nothing made. -/
theorem mapped_of_frame (hp : Path S s own t own') (hf : Frame n (fun _ => False) s own t own')
    (hl : lbn < 2 ^ 32) :
    Mapped S n lbn s own ip t own' ip where
  path := hp
  frame := hf.mono fun _ => False.elim
  view := hv.grows hf.grows
  copy := .refl _ _
  other _ hl' _ := hf.mapOf h hv hl' fun _ _ _ _ _ _ => not_false
  here := .inl (hf.mapOf h hv hl fun _ _ _ _ _ _ => not_false)

/-- A path followed below a slot. -/
theorem mapped_of_follows (hl : lbn < 2 ^ 32) (hp : pathOf s.fs.desc ip.mode lbn = some (slot, idxs))
    (hs : ¬ Small s.fs.desc ip.mode)
    (h0 : ip.addr slot ≠ 0) (hf : Follows S n slot [] idxs (ip.addr slot) s own t own') :
    Mapped S n lbn s own ip t own' ip := by
  have hd := shape_desc hf.frame.shape
  have hlen := (pathOf_length hp).trans (depth_large hs slot)
  refine ⟨hf.path, hf.frame.mono ?_, hv.grows hf.frame.grows, .refl _ _, ?_, ?_⟩
  · intro p hr
    obtain ⟨j, hj, rfl⟩ := hr
    refine ⟨slot, _, rfl, ?_⟩
    rw [List.nil_append, List.length_take]
    omega
  · intro l hl' hne
    cases hpl : pathOf s.fs.desc ip.mode l with
    | none => rw [mapOf_none hpl, mapOf_none (by rw [hd]; exact hpl)]
    | some q =>
      obtain ⟨slot', idxs'⟩ := q
      by_cases hslot : slot' = slot
      · subst hslot
        rw [mapOf_eq hpl, mapOf_eq (by rw [hd]; exact hpl)]
        refine hf.grown.other idxs' ?_ (pathOf_lt h.layout.nindir hpl) ?_
        · rw [pathOf_length hpl, pathOf_length hp]
        · rintro rfl
          exact hne (pathOf_inj hl' hl hpl hp)
      · refine hf.frame.mapOf h hv hl' fun _ sl ids hpl' j hj => ?_
        rw [hpl] at hpl'
        obtain ⟨rfl, rfl⟩ := Prod.mk.inj (Option.some.inj hpl')
        rintro ⟨k, -, heq⟩
        exact hslot (List.cons.inj heq).1
  · rw [mapOf_eq hp, mapOf_eq (by rw [hd]; exact hp)]
    exact hf.grown.here

/-- A block of zeros hung into an empty slot. -/
theorem mapped_setSlot (hS : S.touch n) (hl : lbn < 2 ^ 32)
    (hp : pathOf s.fs.desc ip.mode lbn = some (slot, idxs)) (h0 : ip.addr slot = 0)
    {b : Nat} (hbal : balloc s = .ok b t) :
    Mapped S n lbn s own ip t (hold own b n (croot s.fs.desc ip.mode slot)) (ip.setAddr slot b) := by
  have hspec := balloc_spec h.mounted h.space
  rw [hbal] at hspec
  have hloose := loose_of_took h hspec
  have hot := owned_took h hspec
  have hd := shape_desc hspec.shape
  have hslot := pathOf_slot hl hp
  have hzero : blockOf t.fs t.img b = zeroBuf := by
    rw [shape_blockOf hspec.shape]
    exact hspec.zero
  have hfits : ∀ p, Fits t own b n p := by
    intro p sl ids _ _ i _ he
    refine absurd ?_ he
    unfold entryOf
    rw [hzero]
    exact indGet_zeroBuf hot.mounted.notPdp7 i
  have hb0 : b ≠ 0 := by
    have := hloose.data.two_le hot.mounted
    omega
  have hgrows : Grows own (hold own b n (croot s.fs.desc ip.mode slot)) := by
    intro x y hx
    have hne : x ≠ b := by
      rintro rfl
      rw [hloose.unheld] at hx
      cases hx
    rw [hold, if_neg hne]
    exact hx
  have hframe : Frame n (fun _ => False) s own t (hold own b n (croot s.fs.desc ip.mode slot)) := by
    have hf := frame_of_took h hspec n fun _ => False
    exact ⟨hf.toSameVol, hgrows, hf.list, hf.same⟩
  have hmode : (ip.setAddr slot b).mode = ip.mode := rfl
  have haddr : ∀ sl, (ip.setAddr slot b).addr sl = if sl = slot then b else ip.addr sl := fun sl => rfl
  refine ⟨(Path.one (.take hbal)).snoc (.hold hS hloose (hfits _)), hframe.mono fun _ =>
    False.elim, fun sl hsl hne => ?_,
    ⟨rfl, .inl rfl, fun _ sl hne => ?_⟩, fun l hl' hne => ?_, ?_⟩
  · rw [haddr] at hne ⊢
    rw [hmode]
    split
    · rename_i heq
      rw [heq]
      exact if_pos rfl
    · rename_i heq
      rw [if_neg heq] at hne
      exact hgrows _ _ (hv sl hsl hne)
  · rw [haddr, if_neg]
    rintro rfl
    exact hne h0
  · cases hpl : pathOf s.fs.desc ip.mode l with
    | none => rw [mapOf_none hpl, mapOf_none (by rw [hd]; exact hpl)]
    | some q =>
      obtain ⟨slot', idxs'⟩ := q
      by_cases hsl : slot' = slot
      · subst hsl
        rw [mapOf_eq hpl, mapOf_eq (by rw [hd]; exact hpl), h0, descend_zero, haddr, if_pos rfl]
        refine descend_of_zero hot.mounted hzero ?_
        rintro rfl
        have hlen := pathOf_length hp
        rw [← pathOf_length hpl] at hlen
        rw [List.eq_nil_of_length_eq_zero hlen] at hp
        exact hne (pathOf_inj hl' hl hpl hp)
      · have hsame : mapOf t.fs t.img (ip.setAddr slot b) l = mapOf t.fs t.img ip l := by
          rw [mapOf_eq (by rw [hd]; exact hpl), mapOf_eq (by rw [hd]; exact hpl), haddr, if_neg hsl]
        rw [hsame]
        exact hframe.mapOf h hv hl' fun _ _ _ _ _ _ => not_false
  · rw [mapOf_eq hp, h0, descend_zero, mapOf_eq (by rw [hd]; exact hp), haddr, if_pos rfl]
    by_cases hnil : idxs = []
    · subst hnil
      exact .inr ⟨rfl, fun _ => hspec.zero⟩
    · exact .inl (descend_of_zero hot.mounted hzero hnil)

end Making

/-! ## Promotion -/

/-- A small file's blocks are in its slots. -/
theorem pathOf_small {d : Desc} (hl : Promotes d) {mode : Nat} (hs : Small d mode) (lbn : Nat) :
    pathOf d mode lbn = if lbn < d.niaddr then some (lbn, []) else none := by
  have hle := hl.fit
  have hnd := hl.direct
  have hwide := hl.wide
  have hfind : ∀ todo i, i + todo = d.niaddr → i ≤ lbn →
      findSlot d mode lbn todo i i = if lbn < d.niaddr then some (lbn, 0) else none := by
    intro todo
    induction todo with
    | zero =>
      intro i hi hle'
      rw [if_neg (by omega)]
      rfl
    | succ todo ih =>
      intro i hi hle'
      have hnext : (i + slotSpan d (slotLevel d mode i)) % 2 ^ 32 = i + 1 := by
        rw [depth_small hl hs (by omega), show slotSpan d none = 1 from rfl]
        omega
      rw [findSlot, hnext]
      split
      · rw [if_pos (by omega), show i = lbn by omega]
        congr 2
        omega
      · exact ih (i + 1) (by omega) (by omega)
  unfold pathOf
  rw [hfind _ 0 (by omega) (Nat.zero_le _)]
  split
  · rw [Option.map_some, depth_small hl hs (by assumption)]
  · rfl

theorem mapOf_small {fs : Fs} (hl : MapLayout fs) {img : Buf} {ip : Inode} (hs : Small fs.desc ip.mode)
    (lbn : Nat) :
    mapOf fs img ip lbn = if lbn < fs.desc.niaddr then ip.addr lbn else 0 := by
  unfold mapOf
  rw [pathOf_small (hl.promoting hs.1) hs lbn]
  split <;> rename_i h
  · split at h
    · cases h
    · rw [if_neg (by assumption)]
  · split at h
    · cases h
      rw [if_pos (by assumption)]
      rfl
    · cases h

/-- The first slot of a promoted file holds the first entries. -/
theorem pathOf_first {d : Desc} (hl : Promotes d) {mode : Nat} (h0 : d.ilargMask ≠ 0)
    (hs : has mode d.ilargMask = true)
    {lbn : Nat} (hlbn : lbn < 2 ^ 32) : (lbn < d.nindir → pathOf d mode lbn = some (0, [lbn])) ∧
      ∀ idxs, pathOf d mode lbn = some (0, idxs) → lbn < d.nindir := by
  obtain ⟨hpos, hmost, hnd, hle, hwide⟩ := hl
  have hlev : slotLevel d mode 0 = some 0 := by
    unfold slotLevel
    rw [if_pos ⟨h0, hs⟩, if_pos hpos]
  have hspan : (0 + slotSpan d (slotLevel d mode 0)) % 2 ^ 32 = d.nindir := by
    rw [hlev, show slotSpan d (some 0) = d.nindir ^ (0 + 1) % 2 ^ 32 from rfl, Nat.zero_add, Nat.pow_one]
    omega
  obtain ⟨k, hk⟩ : ∃ k, d.niaddr = k + 1 := ⟨d.niaddr - 1, by omega⟩
  have hstep : findSlot d mode lbn d.niaddr 0 0 =
      if lbn < d.nindir then some (0, lbn) else findSlot d mode lbn k 1 d.nindir := by
    rw [hk, findSlot, hspan]
    split
    · rw [show (lbn + 2 ^ 32 - 0) % 2 ^ 32 = lbn by omega]
    · rfl
  refine ⟨fun hlt => ?_, fun idxs h => ?_⟩
  · unfold pathOf
    rw [hstep, if_pos hlt, Option.map_some, hlev]
    show some (0, levelIdx d.nindir 0 lbn) = _
    have : levelIdx d.nindir 0 lbn = [lbn] := by
      show [lbn / d.nindir ^ 0 % d.nindir] = _
      rw [Nat.pow_zero, Nat.div_one, Nat.mod_eq_of_lt hlt]
    rw [this]
  · by_contra hge
    obtain ⟨⟨sl, r⟩, hf, heq⟩ := Option.map_eq_some_iff.mp h
    rw [hstep, if_neg hge] at hf
    have hsl : sl = 0 := (Prod.mk.inj heq).1
    have := findSlot_spec hlbn k 1 _ (Nat.le_of_not_lt hge) hf
    omega

theorem indGet_promoteBuf {d : Desc} (hd : d.ops ≠ .pdp7) (addr : Nat → Nat) (n i : Nat) :
    indGet d (promoteBuf d addr n) i = if i < n then addr i % 256 ^ entryLen d else 0 := by
  induction n with
  | zero =>
    rw [promoteBuf, indGet_zeroBuf hd, if_neg (by omega)]
  | succ n ih =>
    rw [promoteBuf, indGet_indPut hd, ih]
    by_cases hin : i = n
    · rw [if_pos hin, if_pos (by omega), hin]
    · rw [if_neg hin]
      by_cases hlt : i < n
      · rw [if_pos hlt, if_pos (by omega)]
      · rw [if_neg hlt, if_neg (by omega)]

/-- The copy `promote` leaves. -/
def promoted (d : Desc) (ip : Inode) (b : Nat) : Inode := { ip with
  addr := fun i => if i = 0 then b else if i < d.ndaddr then 0 else ip.addr i
  mode := ip.mode ||| d.ilargMask }

theorem has_or_self {m bits : Nat} (h : bits ≠ 0) : has (m ||| bits) bits = true := by
  unfold has
  have : (m ||| bits) &&& bits = bits := by
    refine Nat.eq_of_testBit_eq fun i => ?_
    rw [Nat.testBit_and, Nat.testBit_or]
    cases bits.testBit i <;> simp
  rw [this]
  simpa using h

theorem mapped_promote {S : Scope} {n lbn : Nat} {s t : Mnt} {own : Own} {ip : Inode} (h : Owned s own)
    (hv : View s.fs.desc own n ip)
    (hS : S.touch n) (hl : lbn < 2 ^ 32) (hs : Small s.fs.desc ip.mode) {b : Nat} (hbal : balloc s = .ok b t) :
    Mapped S n lbn s own ip (putAt .block b (promoteBuf s.fs.desc ip.addr s.fs.desc.ndaddr) t)
    (hold own b n [0]) (promoted s.fs.desc ip b) := by
  have hspec := balloc_spec h.mounted h.space
  rw [hbal] at hspec
  have hloose := loose_of_took h hspec
  have hot := owned_took h hspec
  have hd := shape_desc hspec.shape
  have hpdp := hot.mounted.notPdp7
  obtain ⟨hpos, hnd, hle, hsum⟩ := h.layout.promotes hs.1
  have hb0 : b ≠ 0 := by
    have := hloose.data.two_le hot.mounted
    omega
  generalize hu : putAt .block b (promoteBuf s.fs.desc ip.addr s.fs.desc.ndaddr) t = u
  have hfill : Step S t own u own := hu ▸ .fill _ hloose
  have hou := hfill.owned hot
  have hvolu : SameVol t u := hu ▸ putAt_sameVol ..
  have hvol : SameVol s u := sameVol_law.trans hspec.toSameVol hvolu
  have hdu : u.fs.desc = s.fs.desc := shape_desc hvol.shape
  have hother : ∀ x, x ≠ b → blockOf s.fs u.img x = blockOf s.fs t.img x := by
    intro x hx
    rw [← shape_blockOf hspec.shape, ← hu]
    exact blockOf_putBlock_ne hx _ _
  have hlooseu : Loose u own b := by
    refine ⟨hloose.unheld, fun hf => ?_, (shape_dataBlock hvolu.shape).mpr hloose.data⟩
    rw [← hu] at hf
    exact hloose.taken (((space_putAt hot .block hloose.taken _).2 b).mp hf)
  -- the new block's entries are the old slots
  have hent : ∀ i, i < s.fs.desc.nindir → entryOf s.fs u.img b i = if i <
    s.fs.desc.niaddr then ip.addr i else 0 := by
    intro i hi
    have hput : entryOf t.fs u.img b i =
      indGet t.fs.desc (promoteBuf s.fs.desc ip.addr s.fs.desc.ndaddr) i := by
      rw [← hu]
      exact entryOf_putAt hot.mounted hot.layout.toRecordLayout .block b _ (by rw [hd]; exact hi)
    rw [← shape_entryOf hspec.shape, hput, hd, indGet_promoteBuf h.mounted.notPdp7, ← hnd]
    split
    · rename_i hlt
      by_cases ha : ip.addr i = 0
      · rw [ha, Nat.zero_mod]
      · have hdata := h.data _ _ (hv i (by omega) ha)
        exact Nat.mod_eq_of_lt (Nat.lt_of_lt_of_le (hdata.lt_fsize h.mounted) h.layout.entry)
    · rfl
  have hfits : Fits u own b n [0] := by
    intro sl ids heq _ i hi he
    cases heq
    rw [hdu] at hi
    rw [shape_entryOf hvol.shape, hent i hi] at he ⊢
    split at he
    · rename_i hlt
      rw [if_pos hlt]
      have := hv i hlt he
      rwa [show croot s.fs.desc ip.mode i = [0, i] from if_pos hs] at this
    · exact absurd rfl he
  have hgrows : Grows own (hold own b n [0]) := by
    intro x y hx
    have hne : x ≠ b := by
      rintro rfl
      rw [hloose.unheld] at hx
      cases hx
    rw [hold, if_neg hne]
    exact hx
  have hframe : Frame n (fun _ => False) s own u (hold own b n [0]) := by
    have hf := frame_of_took h hspec n fun _ => False
    refine ⟨hvol, hgrows, fun x h2 hlt => ?_, fun x k p hx hA => ?_⟩
    · refine (hother x ?_).trans (hf.list x h2 hlt)
      rintro rfl
      have hstart : opsDataStart t.fs ≤ x := hloose.data.1
      rw [shape_dataStart hspec.shape] at hstart
      omega
    · refine (hother x ?_).trans (hf.same x k p hx hA)
      rintro rfl
      rw [hloose.unheld] at hx
      cases hx
  have hmask := has_or_self (m := ip.mode) hs.1
  have hlarge : ¬ Small s.fs.desc (promoted s.fs.desc ip b).mode := by
    rintro ⟨-, hf⟩
    exact absurd (hmask.symm.trans hf) (by decide)
  -- every block is where it was
  have hmap : ∀ l, l < 2 ^ 32 → mapOf u.fs u.img (promoted s.fs.desc ip b) l = mapOf s.fs s.img ip l := by
    intro l hl'
    obtain ⟨hfirst, honly⟩ := pathOf_first (h.layout.promoting hs.1) hs.1 hmask hl'
    rw [mapOf_small h.layout hs]
    by_cases hlt : l < s.fs.desc.nindir
    · have hp := hfirst hlt
      rw [mapOf_eq (by rw [hdu]; exact hp)]
      have : descend u.fs u.img b [l] = entryOf u.fs u.img b l := if_neg hb0
      show descend u.fs u.img b [l] = _
      rw [this, shape_entryOf hvol.shape, hent l hlt]
    · rw [if_neg (by omega)]
      cases hp : pathOf s.fs.desc (promoted s.fs.desc ip b).mode l with
      | none => exact mapOf_none (by rw [hdu]; exact hp)
      | some q =>
        obtain ⟨slot, idxs⟩ := q
        rw [mapOf_eq (by rw [hdu]; exact hp)]
        have hslot := pathOf_slot hl' hp
        have hne : slot ≠ 0 := by
          rintro rfl
          exact hlt (honly idxs hp)
        have hz : (promoted s.fs.desc ip b).addr slot = 0 := by
          show (if slot = 0 then b else if slot < s.fs.desc.ndaddr then 0 else ip.addr slot) = 0
          rw [if_neg hne, if_pos (by omega)]
        rw [hz, descend_zero]
  refine ⟨((Path.one (.take hbal)).snoc hfill).snoc (.hold hS hlooseu hfits), hframe.mono fun _ =>
    False.elim, fun sl hsl hne => ?_,
    ⟨rfl, .inr rfl, fun hmode => ?_⟩, fun l hl' _ => hmap l hl', .inl (hmap lbn hl)⟩
  · have haddr : (promoted s.fs.desc ip b).addr sl = if sl = 0 then b
      else if sl < s.fs.desc.ndaddr then 0 else ip.addr sl := rfl
    rw [haddr] at hne ⊢
    by_cases hz : sl = 0
    · rw [if_pos hz, show croot s.fs.desc (promoted s.fs.desc ip b).mode sl = [sl] from if_neg hlarge, hz]
      exact if_pos rfl
    · rw [if_neg hz, if_pos (by omega)] at hne
      exact absurd rfl hne
  · rw [hmode] at hlarge
    exact absurd hs hlarge

/-! ## `filsys_bmap` -/

/-- The indirect blocks on the way to `lbn` may get new entries. -/
def MayLink (S : Scope) (d : Desc) (n lbn : Nat) : Prop :=
  ∀ mode slot idxs, ¬ Small d mode → pathOf d mode lbn = some (slot, idxs) → ∀ j, j < idxs.length →
  S.link n (slot :: idxs.take j)

/-- What asking for `lbn` leaves; `r` is the block, when the call returned one. -/
structure Asked (S : Scope) (n lbn : Nat) (s : Mnt) (own : Own) (l : Loc) (t : Mnt × Loc) (own' : Own) : Prop
    extends Mapped S n lbn s own l.ip t.1 own' t.2.ip where
  bl : t.2.bl = l.bl

theorem Asked.trans {S : Scope} {n lbn : Nat} {s : Mnt} {own own' own'' : Own} {l : Loc}
    {t u : Mnt × Loc} (ho : Owned s own) (hl : lbn < 2 ^ 32)
    (h : Asked S n lbn s own l t own') (h' : Asked S n lbn t.1 own' t.2 u own'') :
    Asked S n lbn s own l u own'' :=
  ⟨h.toMapped.trans ho hl h'.toMapped, h'.bl.trans h.bl⟩

section Bmap

variable {S : Scope} {n lbn : Nat} (hS : S.touch n) (create : Bool) (hl : lbn < 2 ^ 32)

include hS hl

theorem post_bmapBelow {s : Mnt} {own : Own} {l : Loc} (h : Owned s own)
    (hv : View s.fs.desc own n l.ip) (hs : ¬ Small s.fs.desc l.ip.mode)
    (hlink : create = true → mapOf s.fs s.img l.ip lbn ≠ 0 ∨ MayLink S s.fs.desc n lbn)
    {slot : Nat} {idxs : List Nat}
    (hp : pathOf s.fs.desc l.ip.mode lbn = some (slot, idxs)) (hne : idxs ≠ []) (h0 : l.ip.addr slot ≠ 0) :
    Post (indFollow create idxs (l.ip.addr slot) s)
      (fun r t => ∃ own', Asked S n lbn s own l (t, l) own' ∧ mapOf t.fs t.img l.ip lbn = r ∧
        (create = true → r ≠ 0))
      (fun _ t => ∃ own', Asked S n lbn s own l (t, l) own') := by
  have hslot := pathOf_slot hl hp
  have hown := hv slot hslot h0
  rw [show croot s.fs.desc l.ip.mode slot = [slot] from if_neg hs] at hown
  have hlen : ([] : List Nat).length + idxs.length = cdepth s.fs.desc slot := by
    rw [List.length_nil, Nat.zero_add, pathOf_length hp, depth_large hs]
  refine (post_indFollow hS create idxs h hown hne hlen (pathOf_lt h.layout.nindir hp) ?_).mono ?_ ?_
  · intro hc
    refine (hlink hc).imp ?_ ?_
    · intro hm
      rwa [mapOf_eq hp] at hm
    · intro hall j hj
      rw [List.nil_append]
      exact hall _ slot idxs hs hp j hj
  · intro r t hrun
    obtain ⟨own', hr⟩ := hrun
    have hm := mapped_of_follows h hv hl hp hs h0 hr.toFollows
    refine ⟨own', ⟨hm, rfl⟩, ?_, hr.made⟩
    rw [mapOf_eq (by rw [shape_desc hm.frame.shape]; exact hp)]
    exact hr.leads
  · intro e t hrun
    obtain ⟨own', hr⟩ := hrun
    exact ⟨own', ⟨mapped_of_follows h hv hl hp hs h0 hr, rfl⟩⟩

omit hS in
/-- A full volume changes nothing. -/
theorem asked_full {s t : Mnt} {own : Own} {l : Loc} (h : Owned s own) (hv : View s.fs.desc own n l.ip)
    {e : Errno} (hb : balloc s = .error e t) :
    Asked S n lbn s own l (t, l) own := by
  have hspec := balloc_spec h.mounted h.space
  rw [hb] at hspec
  exact ⟨mapped_of_frame h hv (.one (.full hb)) (frame_of_lost h hspec n _) hl, rfl⟩

omit hS in
theorem asked_refl {s : Mnt} {own : Own} {l : Loc} (h : Owned s own) (hv : View s.fs.desc own n l.ip) :
    Asked S n lbn s own l (s, l) own :=
  ⟨mapped_of_frame h hv .refl (Frame.refl n _ s own) hl, rfl⟩

theorem post_bmapIndFollow {s : Mnt} {own : Own} {l : Loc} (h : Owned s own)
    (hv : View s.fs.desc own n l.ip) (hs : ¬ Small s.fs.desc l.ip.mode)
    (hlink : create = true → mapOf s.fs s.img l.ip lbn ≠ 0 ∨ MayLink S s.fs.desc n lbn)
    {slot : Nat} {idxs : List Nat}
    (hp : pathOf s.fs.desc l.ip.mode lbn = some (slot, idxs)) (hne : idxs ≠ []) :
    Post (bmapIndFollow create slot idxs (s, l))
      (fun r t => ∃ own', Asked S n lbn s own l t own' ∧ mapOf t.1.fs t.1.img t.2.ip lbn = r ∧
        (create = true → r ≠ 0))
      (fun _ t => ∃ own', Asked S n lbn s own l t own') := by
  show Post ((if l.ip.addr slot = 0 then _ else _ : MI Nat) (s, l)) _ _
  refine post_ite (fun h0 => post_ite (fun hc => ?_) fun hc => ?_) fun h0 => ?_
  · refine post_bind (post_outside ?_)
    cases hb : balloc s with
    | error e t => exact ⟨own, asked_full hl h hv hb⟩
    | ok b t =>
      have hset := mapped_setSlot h hv hS hl hp h0 hb
      have hot := hset.owned h
      have hd := shape_desc hset.frame.shape
      have hb0 : b ≠ 0 := by
        have hspec := balloc_spec h.mounted h.space
        rw [hb] at hspec
        have := (h.space.data hspec.was).two_le h.mounted
        omega
      generalize hl1 : ({ l with ip := l.ip.setAddr slot b } : Loc) = l1
      have hip : l1.ip = l.ip.setAddr slot b := by rw [← hl1]
      have hbl : l1.bl = l.bl := by rw [← hl1]
      have haddr : l1.ip.addr slot = b := by
        rw [hip]
        exact if_pos rfl
      have hmode : l1.ip.mode = l.ip.mode := by rw [hip]; rfl
      rw [← hip] at hset
      have hfirst : Asked S n lbn s own l (t, l1) _ := ⟨hset, hbl⟩
      have hlink1 : create = true → mapOf t.fs t.img l1.ip lbn ≠ 0 ∨ MayLink S t.fs.desc n lbn := by
        intro hc'
        right
        rw [hd]
        refine (hlink hc').resolve_left fun hm => hm ?_
        rw [mapOf_eq hp, h0, descend_zero]
      have hview : View t.fs.desc (hold own b n (croot s.fs.desc l.ip.mode slot)) n l1.ip := by
        rw [hd]
        exact hset.view
      have hsmall : ¬ Small t.fs.desc l1.ip.mode := by rw [hd, hmode]; exact hs
      have hpath : pathOf t.fs.desc l1.ip.mode lbn = some (slot, idxs) := by rw [hd, hmode]; exact hp
      have hrun := post_bmapBelow hS create hl hot hview hsmall hlink1 hpath hne (by rw [haddr]; exact hb0)
      rw [haddr] at hrun
      show Post ((modIp _ >>= fun _ => up (indFollow create idxs b) : MI Nat) (t, l)) _ _
      apply post_bind
      show Post (up (indFollow create idxs b) (t, { l with ip := l.ip.setAddr slot b })) _ _
      rw [hl1]
      refine post_outside (hrun.mono ?_ ?_)
      · intro r u hres
        obtain ⟨own', hask, hr⟩ := hres
        exact ⟨own', hfirst.trans h hl hask, hr⟩
      · intro e u hres
        obtain ⟨own', hask⟩ := hres
        exact ⟨own', hfirst.trans h hl hask⟩
  · refine ⟨own, asked_refl hl h hv, ?_, fun hc' => absurd hc' hc⟩
    show mapOf s.fs s.img l.ip lbn = 0
    rw [mapOf_eq hp, h0, descend_zero]
  · exact post_outside (post_bmapBelow hS create hl h hv hs hlink hp hne h0)

/-- The search and the walk, whatever layout the copy has. -/
theorem post_bmapSlots {s : Mnt} {own : Own} {l : Loc} (h : Owned s own) (hv : View s.fs.desc own n l.ip)
    (hlink : create = true → mapOf s.fs s.img l.ip lbn ≠ 0 ∨ MayLink S s.fs.desc n lbn) :
    Post ((match findSlot s.fs.desc l.ip.mode lbn s.fs.desc.niaddr 0 0 with
        | none => if create then throw .efbig else pure 0
        | some (slot, r) =>
          match slotLevel s.fs.desc l.ip.mode slot with
          | none =>
            if l.ip.addr slot = 0 ∧ create = true then up balloc >>= fun nb =>
            (modIp fun ip => ip.setAddr slot nb) >>= fun _ => pure nb
            else pure (l.ip.addr slot)
          | some level => bmapIndFollow create slot (levelIdx s.fs.desc.nindir level r) : MI Nat) (s, l))
      (fun r t => ∃ own', Asked S n lbn s own l t own' ∧ mapOf t.1.fs t.1.img t.2.ip lbn = r ∧
        (create = true → r ≠ 0))
      (fun _ t => ∃ own', Asked S n lbn s own l t own') := by
  cases hf : findSlot s.fs.desc l.ip.mode lbn s.fs.desc.niaddr 0 0 with
  | none =>
    have hp : pathOf s.fs.desc l.ip.mode lbn = none := by
      unfold pathOf
      rw [hf]
      rfl
    refine post_ite (fun _ => ⟨own, asked_refl hl h hv⟩) fun hc =>
      ⟨own, asked_refl hl h hv, mapOf_none hp, fun hc' => absurd hc' hc⟩
  | some q =>
    obtain ⟨slot, r⟩ := q
    show Post ((match slotLevel s.fs.desc l.ip.mode slot with
      | none =>
        if l.ip.addr slot = 0 ∧ create = true then up balloc >>= fun nb =>
        (modIp fun ip => ip.setAddr slot nb) >>= fun _ => pure nb
        else pure (l.ip.addr slot)
      | some level => bmapIndFollow create slot (levelIdx s.fs.desc.nindir level r) : MI Nat) (s, l)) _ _
    cases hlev : slotLevel s.fs.desc l.ip.mode slot with
    | none =>
      have hp : pathOf s.fs.desc l.ip.mode lbn = some (slot, []) := by
        unfold pathOf
        rw [hf, Option.map_some, hlev]
      apply post_ite
      · intro hc
        refine post_bind (post_outside ?_)
        cases hb : balloc s with
        | error e t => exact ⟨own, asked_full hl h hv hb⟩
        | ok b t =>
          have hset := mapped_setSlot h hv hS hl hp hc.1 hb
          have hb0 : b ≠ 0 := by
            have hspec := balloc_spec h.mounted h.space
            rw [hb] at hspec
            have := (h.space.data hspec.was).two_le h.mounted
            omega
          refine ⟨_, ⟨hset, rfl⟩, ?_, fun _ => hb0⟩
          show mapOf t.fs t.img (l.ip.setAddr slot b) lbn = b
          rw [mapOf_eq (by rw [shape_desc hset.frame.shape]; exact hp)]
          exact if_pos rfl
      · intro hc
        refine ⟨own, asked_refl hl h hv, mapOf_eq hp, fun hc' h0 => hc ⟨h0, hc'⟩⟩
    | some level =>
      have hp : pathOf s.fs.desc l.ip.mode lbn = some (slot, levelIdx s.fs.desc.nindir level r) := by
        unfold pathOf
        rw [hf, Option.map_some, hlev]
      refine post_bmapIndFollow hS create hl h hv ?_ hlink hp ?_
      · intro hs
        rw [depth_small (h.layout.promoting hs.1) hs (pathOf_slot hl hp)] at hlev
        cases hlev
      · intro hnil
        have := levelIdx_length s.fs.desc.nindir level r
        rw [hnil] at this
        cases this

theorem post_filsysBmap {s : Mnt} {own : Own} {l : Loc} (h : Owned s own) (hv : View s.fs.desc own n l.ip)
    (hlink : create = true → mapOf s.fs s.img l.ip lbn ≠ 0 ∨ MayLink S s.fs.desc n lbn) :
    Post (filsysBmap lbn create (s, l))
      (fun r t => ∃ own', Asked S n lbn s own l t own' ∧ mapOf t.1.fs t.1.img t.2.ip lbn = r ∧
        (create = true → r ≠ 0))
      (fun _ t => ∃ own', Asked S n lbn s own l t own') := by
  show Post ((onlyIf (s.fs.desc.ilargMask ≠ 0 ∧ (!has l.ip.mode s.fs.desc.ilargMask) = true ∧
    create = true ∧ s.fs.desc.ndaddr ≤ lbn) promote >>= fun _ =>
    getIp >>= fun ip => _ : MI Nat) (s, l)) _ _
  refine post_bind (post_onlyIf (fun hc => ?_) fun hc => post_bmapSlots hS create hl h hv hlink)
  have hs : Small s.fs.desc l.ip.mode := ⟨hc.1, by simpa using hc.2.1⟩
  show Post ((up balloc >>= fun iblk =>
    up (failAs .eio (writeBlock iblk (promoteBuf s.fs.desc l.ip.addr s.fs.desc.ndaddr))) >>= fun _ =>
    modIp fun ip => promoted s.fs.desc ip iblk : MI Unit) (s, l)) _ _
  refine post_bind (post_outside ?_)
  cases hb : balloc s with
  | error e t => exact ⟨own, asked_full hl h hv hb⟩
  | ok b t =>
    have hspec := balloc_spec h.mounted h.space
    rw [hb] at hspec
    have hot := owned_took h hspec
    have hloose := loose_of_took h hspec
    refine post_bind (post_outside (post_failAs ?_))
    show Post (writeBlock b (promoteBuf s.fs.desc l.ip.addr s.fs.desc.ndaddr) t) _ _
    rw [hot.mounted.writeBlock_eq]
    refine hot.mounted.post_write (hloose.data.lt_fsize hot.mounted) ?_ ?_
    · intro _
      have hpro := @mapped_promote S n lbn _ _ _ _ h hv hS hl hs _ hb
      have hfirst : Asked S n lbn s own l (putAt .block b (promoteBuf s.fs.desc l.ip.addr s.fs.desc.ndaddr) t,
        { l with ip := promoted s.fs.desc l.ip b }) _ := ⟨hpro, rfl⟩
      have hd := shape_desc hpro.frame.shape
      have hou := hpro.owned h
      have hzero : mapOf s.fs s.img l.ip lbn = 0 := by
        rw [mapOf_small h.layout hs, if_neg]
        have := (h.layout.promotes hs.1).2.1
        omega
      have hlink' : create = true →
        mapOf (putAt .block b (promoteBuf s.fs.desc l.ip.addr s.fs.desc.ndaddr) t).fs
          (putAt .block b (promoteBuf s.fs.desc l.ip.addr s.fs.desc.ndaddr) t).img (promoted
            s.fs.desc l.ip b) lbn ≠ 0 ∨
            MayLink S (putAt .block b (promoteBuf s.fs.desc l.ip.addr s.fs.desc.ndaddr) t).fs.desc n lbn := by
        intro hcr
        right
        rw [hd]
        exact (hlink hcr).resolve_left fun hm => hm hzero
      have hrun := post_bmapSlots (l := { l with ip := promoted s.fs.desc l.ip b }) hS create hl hou
        (by rw [hd]; exact hpro.view) hlink'
      rw [hd] at hrun
      apply hrun.mono
      · intro r u hres
        obtain ⟨own', hask, hr⟩ := hres
        exact ⟨own', hfirst.trans h hl hask, hr⟩
      · intro e u hres
        obtain ⟨own', hask⟩ := hres
        exact ⟨own', hfirst.trans h hl hask⟩
    · intro _ _
      refine ⟨own, mapped_of_frame h hv ((Path.one (.take hb)).snoc (.idle (idle_ticked t))) ?_ hl, rfl⟩
      exact (frame_of_took h hspec n _).trans (.of_idle (idle_ticked t) n _)

end Bmap

end Filsys.Tree
