/-
  Filsys.Names.Finite — a directory is a finite map (dir_fixed.c).

  Distinct live names make the entries of a directory a map from names to inode numbers.
  `dir_lookup` evaluates it and a run of `dir_iter` lists it, each binding once
  (`Implements`); entering a fresh name binds it, removing a name unbinds it, and the slots
  but one are as they were (`fixed_directory_is_a_map`). Directories of fixed entries may
  have holes, and V1's entries straddle blocks.
-/

import Filsys.Alloc.Rebuild
import Filsys.Names.Iter

namespace Filsys.Names

open Filsys.Lib Filsys.Engine Filsys.Alloc Filsys.Tree

/-! ## Entries as a map -/

/-- No two entries have one name. -/
def Distinct (L : List Dirent) : Prop := (L.map Prod.snd).Nodup

/-- The inode number a list of entries binds a name to. -/
def binding (L : List Dirent) (name : Name) : Option Nat := (lookup L name).map Prod.fst

/-- The map with one name bound anew, or unbound. -/
def rebind (m : Name → Option Nat) (name : Name) (r : Option Nat) : Name → Option Nat :=
  fun x => if x = name then r else m x

section Maps

variable {L L' : List Dirent} {e : Dirent}

theorem lookup_eq_none {name : Name} : lookup L name = none ↔ ∀ x ∈ L, x.2 ≠ name := by
  unfold lookup
  rw [List.find?_eq_none]
  simp

theorem binding_eq_none {name : Name} : binding L name = none ↔ ∀ x ∈ L, x.2 ≠ name := by
  unfold binding
  rw [Option.map_eq_none_iff, lookup_eq_none]

theorem lookup_append (A B : List Dirent) (name : Name) :
    lookup (A ++ B) name = (lookup A name).or (lookup B name) := List.find?_append

theorem lookup_cons (B : List Dirent) (name : Name) :
    lookup (e :: B) name = if e.2 = name then some e else lookup B name := by
  unfold lookup
  by_cases h : e.2 = name <;> simp [h]

/-- The entries are the map's bindings. -/
theorem mem_iff_binding (hd : Distinct L) {name : Name} {ino : Nat} :
    (ino, name) ∈ L ↔ binding L name = some ino := by
  induction L with
  | nil => simp [binding, lookup]
  | cons x L ih =>
    have hcons : x.2 ∉ L.map Prod.snd ∧ Distinct L := List.nodup_cons.mp hd
    obtain ⟨hx, hL⟩ := hcons
    unfold binding
    rw [lookup_cons, List.mem_cons]
    by_cases h : x.2 = name
    · rw [if_pos h]
      constructor
      · intro hm
        rcases hm with rfl | hm
        · rfl
        · exact absurd (List.mem_map.mpr ⟨(ino, name), hm, h.symm⟩) hx
      · intro hm
        left
        simp only [Option.map_some, Option.some.injEq] at hm
        rw [← hm, ← h]
    · rw [if_neg h]
      have hne : (ino, name) ≠ x := by
        rintro rfl
        exact h rfl
      have hiff := ih hL
      unfold binding at hiff
      rw [← hiff]
      simp [hne]

theorem Inserted.distinct (h : Inserted L L' e) (hd : Distinct L) (hfresh : ∀ x ∈ L, x.2 ≠ e.2) :
    Distinct L' := by
  obtain ⟨A, B, rfl, rfl⟩ := h
  unfold Distinct at hd ⊢
  have hperm : ((A ++ e :: B).map Prod.snd).Perm (e.2 :: (A ++ B).map Prod.snd) := by
    rw [← List.map_cons]
    exact List.perm_middle.map _
  refine hperm.nodup_iff.mpr (List.nodup_cons.mpr ⟨fun hmem => ?_, hd⟩)
  obtain ⟨x, hx, heq⟩ := List.mem_map.mp hmem
  exact hfresh x hx heq

theorem Inserted.binding (h : Inserted L L' e) (hfresh : ∀ x ∈ L, x.2 ≠ e.2) :
    binding L' = rebind (binding L) e.2 (some e.1) := by
  obtain ⟨A, B, rfl, rfl⟩ := h
  funext name
  show (lookup (A ++ e :: B) name).map Prod.fst = if name = e.2 then some e.1
    else (lookup (A ++ B) name).map Prod.fst
  rw [lookup_append, lookup_cons, lookup_append]
  by_cases hn : name = e.2
  · subst hn
    have hA : lookup A e.2 = none := lookup_eq_none.mpr fun x hx => hfresh x (List.mem_append_left _ hx)
    rw [hA, if_pos rfl, if_pos rfl]
    rfl
  · rw [if_neg (Ne.symm hn), if_neg hn]

theorem Removed.distinct (h : Removed L L' e) (hd : Distinct L) : Distinct L' := by
  obtain ⟨A, B, rfl, rfl, -⟩ := h
  exact hd.sublist ((List.Sublist.append (List.Sublist.refl A) (List.sublist_cons_self e B)).map _)

theorem Removed.binding (h : Removed L L' e) (hd : Distinct L) : binding L' = rebind (binding L) e.2 none := by
  obtain ⟨A, B, rfl, rfl, hA⟩ := h
  funext name
  show (lookup (A ++ B) name).map Prod.fst = if name = e.2 then none
    else (lookup (A ++ e :: B) name).map Prod.fst
  rw [lookup_append, lookup_append, lookup_cons]
  by_cases hn : name = e.2
  · subst hn
    have hB : lookup B e.2 = none := by
      refine lookup_eq_none.mpr fun x hx heq => ?_
      have hnd : (e :: B).map Prod.snd |>.Nodup := by
        have := hd
        unfold Distinct at this
        rw [List.map_append] at this
        exact (List.nodup_append.mp this).2.1
      exact (List.nodup_cons.mp hnd).1 (List.mem_map.mpr ⟨x, hx, heq⟩)
    rw [lookup_eq_none.mpr hA, hB, if_pos rfl]
    rfl
  · rw [if_neg (Ne.symm hn), if_neg hn]

end Maps

/-! ## The whole listing -/

/-- Every entry from where the iterator stands: `while (dir_iter(…) == 1)`. -/
def dirEntries : Nat → Iter → MI (List Dirent)
  | 0, _ => throw .diverges
  | fuel + 1, st => do
    match ← dirIter st with
    | (none, _) => return []
    | (some e, st) =>
      let es ← dirEntries fuel st
      return e :: es

/-- A listing, from what each call of the iterator returns. -/
theorem post_dirEntries {s : Mnt} {l : Loc} {E : Errno → Mnt × Loc → Prop} {P : Iter → List Dirent → Prop}
    (hnext : ∀ st L t, Looked s t → P st L → Post (dirIter st (t, l)) (fun r u => (match r.1 with
      | some e => ∃ L', P r.2 L' ∧ L = e :: L'
      | none => L = []) ∧ Looked s u.1 ∧ u.2 = l) E) (fuel : Nat) :
    ∀ (st : Iter) (L : List Dirent) (t : Mnt), Looked s t → P st L → L.length < fuel →
      Post (dirEntries fuel st (t, l)) (fun r u => r = L ∧ Looked s u.1 ∧ u.2 = l) E := by
  induction fuel with
  | zero => exact fun st L t ht hst hlen => absurd hlen (Nat.not_lt_zero _)
  | succ fuel ih =>
    intro st L t ht hst hlen
    refine post_bind ((hnext st L t ht hst).mono ?_ fun _ _ he => he)
    intro x p h
    obtain ⟨e, st'⟩ := x
    obtain ⟨u, l'⟩ := p
    obtain ⟨hr, hu, hl⟩ := h
    obtain rfl : l' = l := hl
    cases e with
    | none => exact ⟨Eq.symm hr, hu, rfl⟩
    | some e =>
      obtain ⟨L', hst', rfl⟩ := hr
      rw [List.length_cons] at hlen
      refine post_bind ((ih st' L' u hu hst' (by omega)).mono (fun r v hv => ?_) fun _ _ he => he)
      exact ⟨congrArg (e :: ·) hv.1, hv.2⟩

/-- The walkers say of a directory that it is the map `m`; `key` is what they make of the name they are
    asked for. -/
structure Implements (key : Name → Name) (s : Mnt) (l : Loc) (m : Name → Option Nat) : Prop where
  lookup : ∀ name, 0 ∉ name → Post (dirLookup name (s, l)) (fun r t => m (key name) = some r ∧
    Looked s t.1 ∧ t.2 = l)
    (fun e t => (e = .enoent ∧ m (key name) = none ∨ Fault s) ∧ Looked s t.1 ∧ t.2 = l)
  iter : Post (dirEntries (l.ip.size + 1) {} (s, l))
    (fun L t => (Distinct L ∧ ∀ name ino, (ino, name) ∈ L ↔ m name = some ino) ∧ Looked s t.1 ∧ t.2 = l)
    (fun _ t => Fault s ∧ Looked s t.1 ∧ t.2 = l)

section Fixed

variable {s : Mnt} {own : Own} {n : Nat} {l : Loc} (h : Owned s own) (hd : FixedFormat s.fs.desc)
    (hf : Directory s own n l.ip)

include h hd hf

theorem implements_listing (hdist : Distinct (listing s.fs s.img l.ip)) :
    Implements (stem s.fs.desc) s l (binding (listing s.fs s.img l.ip)) where
  lookup name h0 := by
    refine (post_dirLookup h hd hf h0).mono (fun r t hr => ⟨?_, hr.2⟩) fun e t he => ⟨?_, he.2⟩
    · obtain ⟨⟨x, hx, hino⟩, -⟩ := hr
      unfold binding
      rw [hx, ← hino]
      rfl
    · rcases he.1 with ⟨rfl, hnone⟩ | hfault
      · left
        refine ⟨rfl, ?_⟩
        unfold binding
        rw [hnone]
        rfl
      · exact .inr hfault
  iter := by
    have hstart : IterAt s.fs.desc (byteOf s.fs s.img l.ip) l.ip.size {} 0 :=
      ⟨(Nat.zero_mul _).symm, fun h0 => absurd rfl h0, fun i hi => absurd hi (Nat.not_lt_zero i)⟩
    have hrun := post_dirEntries (s := s) (l := l) (E := fun _ u => Fault s ∧ Looked s u.1 ∧ u.2 = l)
      (P := fun st L => ∃ m, IterAt s.fs.desc (byteOf s.fs s.img l.ip) l.ip.size st m ∧
        L = rest s.fs.desc (byteOf s.fs s.img l.ip) l.ip.size m)
      (fun st L t ht hst => ?_) (l.ip.size + 1) {} _ s (looked_law.refl s) ⟨0, hstart, rfl⟩
        (Nat.lt_succ_of_le (rest_length ..))
    · refine hrun.mono (fun L t hL => ⟨?_, hL.2⟩) fun _ _ he => he
      have hlist : L = listing s.fs s.img l.ip := hL.1
      rw [hlist]
      exact ⟨hdist, fun name ino => mem_iff_binding hdist⟩
    · obtain ⟨m, hm, rfl⟩ := hst
      refine (post_dirIter h hd hf ht hm).mono ?_ fun _ _ he => he
      intro p u hres
      obtain ⟨e, st'⟩ := p
      obtain ⟨hr, hu⟩ := hres
      cases e with
      | none => exact ⟨hr, hu⟩
      | some e =>
        obtain ⟨m', hm', hrest⟩ := hr
        exact ⟨⟨_, ⟨m', hm', rfl⟩, hrest⟩, hu⟩

end Fixed

/-! ## Entering and removing -/

/-- One slot of the directory has been written; `size` is what it holds now. -/
structure Rewritten (s : Mnt) (n : Nat) (ip : Inode) (t : Mnt) (ip' : Inode) : Prop where
  /-- The volume is as consistent as it was, and the directory is one still. -/
  held : ∃ own', Owned t own' ∧ Directory t own' n ip'
  desc : t.fs.desc = s.fs.desc
  /-- The inode has gone out. -/
  stored : Stored s.fs.desc n ip' (recordOf s.fs t.img n)
  distinct : Distinct (listing t.fs t.img ip')
  /-- No other entry has changed. -/
  others : ∃ i, ∀ j, j ≠ i → j < ip.size / s.fs.desc.direntSize →
    slotAt s.fs.desc (byteOf t.fs t.img ip') j = slotAt s.fs.desc (byteOf s.fs s.img ip) j

/-- A slot nothing is entered in. -/
def HasFree (fs : Fs) (img : Buf) (ip : Inode) : Prop :=
  ∃ i, i < ip.size / fs.desc.direntSize ∧ (slotAt fs.desc (byteOf fs img ip) i).1 = 0

theorem Full.not_hasFree {fs : Fs} {img : Buf} {ip : Inode} (h : Full fs img ip) : ¬ HasFree fs img ip := by
  intro ⟨i, hi, hz⟩
  have hlt : (listing fs img ip).length <
    (slotsFrom fs.desc (byteOf fs img ip) 0 (ip.size / fs.desc.direntSize)).length := by
    refine List.length_filter_lt_length_iff_exists.mpr
      ⟨_, mem_slotsFrom.mpr ⟨i, Nat.zero_le _, by omega, rfl⟩, ?_⟩
    unfold inUse
    rw [hz]
    simp
  rw [slotsFrom_length] at hlt
  exact absurd h (Nat.not_le.mpr hlt)

/-- A write to one slot leaves the others. -/
theorem slotAt_apart {d : Desc} (hd : FixedDir d) {f f' : Buf} {i j size : Nat}
    (hj : j < size / d.direntSize) (hne : j ≠ i)
    (hbytes : ∀ o, o < size → o < i * d.direntSize ∨ (i + 1) * d.direntSize ≤ o → f' o = f o) :
    slotAt d f' j = slotAt d f j := by
  refine slotAt_congr hd fun x hx => hbytes _ ?_ ?_
  · have hle := Nat.mul_le_mul_right d.direntSize hj
    rw [Nat.succ_mul] at hle
    have := Nat.div_mul_le_self size d.direntSize
    omega
  · rcases Nat.lt_or_gt_of_ne hne with hlt | hgt
    · have hle := Nat.mul_le_mul_right d.direntSize hlt
      rw [Nat.succ_mul] at hle
      exact .inl (by omega)
    · have hle := Nat.mul_le_mul_right d.direntSize hgt
      exact .inr (Nat.le_trans hle (Nat.le_add_right _ _))

section Ops

variable {s : Mnt} {own : Own} {n : Nat} {l : Loc} (h : Owned s own) (hd : FixedFormat s.fs.desc)
    (hf : Directory s own n l.ip)

include h hd hf

/-- Entry `i`, of those the directory has or the next one, is written. -/
theorem post_slotFiled (buf : Buf) {i off size : Nat} (hoff : off = i * s.fs.desc.direntSize)
    (hsize : size = max l.ip.size (i * s.fs.desc.direntSize + s.fs.desc.direntSize))
    (hfits : size ≤ maxFile s.fs.desc) :
    Post (filsysFileWrite buf s.fs.desc.direntSize (off : Nat) (s, l))
      (fun _ t => (∃ own', Owned t.1 own' ∧ Directory t.1 own' n t.2.ip) ∧ t.1.fs.desc = s.fs.desc ∧
        t.2.ip.size = size ∧
        Stored s.fs.desc n t.2.ip (recordOf s.fs t.1.img n) ∧
        (∀ o, o < l.ip.size → o < i * s.fs.desc.direntSize ∨ (i + 1) * s.fs.desc.direntSize ≤ o →
          byteOf t.1.fs t.1.img t.2.ip o = byteOf s.fs s.img l.ip o) ∧
        slotAt s.fs.desc (byteOf t.1.fs t.1.img t.2.ip) i = slotAt s.fs.desc buf 0)
      (fun _ _ => True) := by
  have hmax := Blockmap.maxFile_lt s.fs.desc
  have hpos := hd.pos
  have hend : off + s.fs.desc.direntSize < 2 ^ 32 := by omega
  have hopen : OpenFile s own n l.ip := ⟨h, hf.view, hf.ino, hf.size_lt⟩
  have hmap : ∀ {o}, o < 2 ^ 32 → Mappable s.fs o := fun ho => Nat.lt_of_le_of_lt (Nat.div_le_self ..) ho
  refine (post_openWrite hopen buf (hmap hend)).mono ?_ fun _ _ _ => trivial
  intro _ t ht
  obtain ⟨own', hput, hnew, -, hstored⟩ := ht
  have hdesc := shape_desc hput.vol.shape
  replace hnew : t.2.ip.size = size := by
    rw [hnew, Nat.mod_eq_of_lt hend]
    split <;> omega
  have hframed : s.fs.desc.direntSize ∣ size := by
    rw [hsize]
    rcases Nat.le_total l.ip.size (i * s.fs.desc.direntSize + s.fs.desc.direntSize) with hle | hle
    · rw [Nat.max_eq_right hle, ← Nat.succ_mul]
      exact Nat.dvd_mul_left ..
    · rw [Nat.max_eq_left hle]
      exact hf.framed
  refine ⟨⟨own', hput.file.owned, hput.file.view, hput.file.ino, ?_, ?_⟩, hdesc, hnew, hstored,
    fun o ho hout => ?_, slotAt_congr hd.width fun x hx => ?_⟩
  · rwa [hdesc, hnew]
  · rwa [hdesc, hnew]
  · have hlt := hf.size_lt
    rw [Nat.succ_mul] at hout
    rw [hput.bytes o (hopen.mappable (Nat.le_of_lt ho)), if_neg (by omega)]
  · rw [hput.bytes _ (hmap (by omega)), if_pos (by omega), hoff]
    congr 1
    omega

/-- A free slot is used before the directory grows by one. -/
theorem post_enter {name : Name} (hname : NameOk s.fs.desc name) {ino : Nat}
    (hino : ino ≠ 0) (h16 : ino < 65536)
    (hroom : HasFree s.fs s.img l.ip ∨ l.ip.size + s.fs.desc.direntSize ≤ maxFile s.fs.desc)
    (hdist : Distinct (listing s.fs s.img l.ip)) (hfresh : ∀ x ∈ listing s.fs s.img l.ip, x.2 ≠ name) :
    Post (dirAdd ino name (s, l))
    (fun _ t => Rewritten s n l.ip t.1 t.2.ip ∧
      Inserted (listing s.fs s.img l.ip) (listing t.1.fs t.1.img t.2.ip) (ino, name) ∧
      (HasFree s.fs s.img l.ip → t.2.ip.size = l.ip.size))
    (fun _ _ => True) := by
  have hpos := hd.pos
  have hentry : slotAt s.fs.desc (makeEntry s.fs.desc ino name) 0 = (ino, name) := by
    rw [slotAt_makeEntry hname.nul hname.short, Nat.mod_eq_of_lt h16]
  have huse : inUse (ino, name) = true := by
    unfold inUse
    simpa using hino
  rw [dirAdd_fixed hd]
  have hshort := hname.short
  unfold v7fsDirAdd
  rw [bindUpFs_run, if_neg (by rintro (hnil | hlong); exacts [hname.ne_nil hnil, by omega]),
    if_neg hname.slash, bindIp_run]
  refine post_bind ((post_freeScan h hd hf).mono ?_ fun _ _ _ => trivial)
  intro r p hrun
  obtain ⟨t, l'⟩ := p
  obtain ⟨hr, ht, hl⟩ := hrun
  obtain rfl : l' = l := hl
  have hot := ht.owned h
  have hft := hf.of_looked ht
  obtain ⟨k, hk, rfl⟩ := id ht
  cases r with
  | some r =>
    obtain ⟨o, blk, b⟩ := r
    obtain ⟨i, hi, hoff, hfree⟩ := hr
    have hend : i * s.fs.desc.direntSize + s.fs.desc.direntSize ≤ l'.ip.size := by
      rw [← Nat.succ_mul]
      exact (Nat.le_div_iff_mul_le hpos).mp hi
    refine post_bind ((post_slotFiled hot hd hft (makeEntry s.fs.desc ino name) hoff
      (Nat.max_eq_left hend).symm hf.fits).mono ?_
      fun _ _ _ => trivial)
    intro _ u hrun
    obtain ⟨hheld, hdesc, hsize, hstored, hbytes, hslot⟩ := hrun
    replace hslot : slotAt s.fs.desc (byteOf u.1.fs u.1.img u.2.ip) i = (ino, name) := hslot.trans hentry
    have hins : Inserted (listing s.fs s.img l'.ip) (listing u.1.fs u.1.img u.2.ip) (ino, name) := by
      have hreuse := fixedList_reuse hd.width hi hbytes hfree (by rw [hslot]; exact huse)
      unfold listing
      rw [hsize, hdesc, ← hslot]
      exact hreuse
    refine ⟨⟨hheld, hdesc, hstored, hins.distinct hdist hfresh, i, fun j hj hjs => ?_⟩, hins, fun _ => hsize⟩
    exact slotAt_apart hd.width hjs hj hbytes
  | none =>
    obtain ⟨i, hi⟩ := hf.framed
    rw [Nat.mul_comm] at hi
    have hdiv : l'.ip.size / s.fs.desc.direntSize = i := by
      rw [hi]
      exact Nat.mul_div_cancel _ hpos
    have hgrow := hroom.resolve_left hr.not_hasFree
    have hmax : l'.ip.size + s.fs.desc.direntSize = max l'.ip.size (i * s.fs.desc.direntSize +
      s.fs.desc.direntSize) := by
      rw [← hi]
      exact (Nat.max_eq_right (Nat.le_add_right _ _)).symm
    refine post_bind ((post_slotFiled hot hd hft (makeEntry s.fs.desc ino name) hi hmax hgrow).mono ?_
      fun _ _ _ => trivial)
    intro _ u hrun
    obtain ⟨hheld, hdesc, hsize, hstored, hbytes, hslot⟩ := hrun
    replace hslot : slotAt s.fs.desc (byteOf u.1.fs u.1.img u.2.ip) i = (ino, name) := hslot.trans hentry
    have hold : ∀ o, o < l'.ip.size → byteOf u.1.fs u.1.img u.2.ip o = byteOf s.fs s.img l'.ip o :=
      fun o ho => hbytes o ho (.inl (Nat.lt_of_lt_of_eq ho hi))
    have hins : Inserted (listing s.fs s.img l'.ip) (listing u.1.fs u.1.img u.2.ip) (ino, name) := by
      have happ := fixedList_append hd.width hf.framed hold (by rw [hdiv, hslot]; exact huse)
      rw [hdiv, hslot] at happ
      unfold listing
      rw [hsize, hdesc]
      exact happ
    refine ⟨⟨hheld, hdesc, hstored, hins.distinct hdist hfresh, i, fun j hj hjs => ?_⟩, hins,
      fun hfree => absurd hfree hr.not_hasFree⟩
    exact slotAt_apart hd.width hjs hj hbytes

/-- The entry's slot is zeroed where it stands. -/
theorem post_leave {name : Name} (h0 : 0 ∉ name) (hdist : Distinct (listing s.fs s.img l.ip)) :
    Post (dirRemove name (s, l))
    (fun _ t => Rewritten s n l.ip t.1 t.2.ip ∧ t.2.ip.size = l.ip.size ∧
      ∃ e, e.2 = stem s.fs.desc name ∧ Removed (listing s.fs s.img l.ip) (listing t.1.fs t.1.img t.2.ip) e)
    (fun e t => lookup (listing s.fs s.img l.ip) (stem s.fs.desc name) = none →
      (e = .enoent ∨ Fault s) ∧ Looked s t.1 ∧ t.2 = l) := by
  rw [dirRemove_fixed hd]
  unfold v7fsDirRemove
  rw [bindUpFs_run, bindIp_run]
  refine post_bind ((post_nameScan h hd hf h0).mono ?_ fun e t ht _ => ⟨.inr ht.1, ht.2⟩)
  intro r x hrun
  obtain ⟨t, l'⟩ := x
  obtain ⟨hr, ht, hl⟩ := hrun
  obtain rfl : l' = l := hl
  cases r with
  | none => exact fun _ => ⟨.inl rfl, ht, rfl⟩
  | some r =>
    obtain ⟨o, blk, b⟩ := r
    obtain ⟨i, hfirst, hoff, -⟩ := hr
    have hot := ht.owned h
    have hft := hf.of_looked ht
    obtain ⟨k, hk, rfl⟩ := id ht
    have hend : i * s.fs.desc.direntSize + s.fs.desc.direntSize ≤ l'.ip.size := by
      rw [← Nat.succ_mul]
      exact (Nat.le_div_iff_mul_le hd.pos).mp hfirst.lt
    refine post_bind ((post_slotFiled hot hd hft zeroBuf hoff (Nat.max_eq_left hend).symm hf.fits).mono ?_ ?_)
    · intro _ u hrun
      obtain ⟨hheld, hdesc, hsize, hstored, hbytes, hslot⟩ := hrun
      have hrem : Removed (listing s.fs s.img l'.ip) (listing u.1.fs u.1.img u.2.ip)
        (slotAt s.fs.desc (byteOf s.fs s.img l'.ip) i) := by
        have hzero := fixedList_remove hd.width hfirst.lt hbytes hfirst
          ((congrArg Prod.fst hslot).trans (slotAt_zeroBuf 0))
        unfold listing
        rw [hsize, hdesc]
        exact hzero
      refine ⟨⟨hheld, hdesc, hstored, hrem.distinct hdist, i, fun j hj hjs =>
        slotAt_apart hd.width hjs hj hbytes⟩, hsize, _, ?_, hrem⟩
      exact beq_iff_eq.mp (Bool.and_eq_true_iff.mp hfirst.here).2
    · intro e u _ hnone
      rw [listing, lookup_first hfirst] at hnone
      exact nomatch hnone

end Ops

/-- Directories of fixed entries are finite maps: what `dir_add` and `dir_remove` do to one,
    `dir_lookup` and `dir_iter` show. -/
theorem fixed_directory_is_a_map {s : Mnt} {own : Own} {n : Nat} {l : Loc} {m : Name → Option Nat}
    (h : Owned s own) (hd : FixedFormat s.fs.desc)
    (hf : Directory s own n l.ip) (hdist : Distinct (listing s.fs s.img l.ip))
    (hm : m = binding (listing s.fs s.img l.ip)) :
    Implements (stem s.fs.desc) s l m ∧
      (∀ name ino t l', NameOk s.fs.desc name → 1 ≤ ino → ino ≤ 65535 → m name = none →
        (HasFree s.fs s.img l.ip ∨ l.ip.size + s.fs.desc.direntSize ≤ maxFile s.fs.desc) →
        dirAdd ino name (s, l) = .ok () (t, l') →
        Implements (stem s.fs.desc) t l' (rebind m name (some ino)) ∧ Rewritten s n l.ip t l'.ip ∧
        (HasFree s.fs s.img l.ip → l'.ip.size = l.ip.size)) ∧
      (∀ name t l', NameOk s.fs.desc name → dirRemove name (s, l) = .ok () (t, l') →
        m name ≠ none ∧ Implements (stem s.fs.desc) t l' (rebind m name none) ∧
        Rewritten s n l.ip t l'.ip ∧ l'.ip.size = l.ip.size) ∧
      ∀ name e t l', NameOk s.fs.desc name → m name = none → dirRemove name (s, l) = .error e (t, l') →
        (e = .enoent ∨ Fault s) ∧ Looked s t ∧ l' = l := by
  subst hm
  -- the map of a directory that has been rewritten
  have hafter : ∀ {t : Mnt} {l' : Loc}, Rewritten s n l.ip t l'.ip →
    Implements (stem s.fs.desc) t l' (binding (listing t.fs t.img l'.ip)) := by
    intro t l' hr
    obtain ⟨own', ho, hdir⟩ := hr.held
    rw [← hr.desc] at hd ⊢
    exact implements_listing ho hd hdir hr.distinct
  have hstem : ∀ {name : Name}, NameOk s.fs.desc name → stem s.fs.desc name = name :=
    fun hname => List.take_of_length_le hname.short
  refine ⟨implements_listing h hd hf hdist, ?_, ?_, ?_⟩
  · intro name ino t l' hname h1 h16 hfresh hroom hrun
    have hnew := binding_eq_none.mp hfresh
    obtain ⟨hr, hins, hsize⟩ := (post_enter h hd hf hname (by omega) (by omega) hroom hdist hnew).of_ok hrun
    refine ⟨?_, hr, hsize⟩
    rw [← hins.binding hnew]
    exact hafter hr
  · intro name t l' hname hrun
    obtain ⟨hr, hsize, e, he, hrem⟩ := (post_leave h hd hf hname.nul hdist).of_ok hrun
    rw [hstem hname] at he
    refine ⟨?_, ?_, hr, hsize⟩
    · intro hnone
      obtain ⟨A, B, hA, -⟩ := hrem
      exact binding_eq_none.mp hnone e (by rw [hA]; simp) he
    · rw [← he, ← hrem.binding hdist]
      exact hafter hr
  · intro name e t l' hname hnone hrun
    have hunbound : lookup (listing s.fs s.img l.ip) (stem s.fs.desc name) = none := by
      rw [hstem hname]
      exact Option.map_eq_none_iff.mp hnone
    exact (post_leave h hd hf hname.nul hdist).of_error hrun hunbound

/-- The editions with fixed entries: all but 2.11BSD and PDP-7. -/
theorem fixedFormat_getformat (ed : Edition) (h1 : ed ≠ .bsd211) (h2 : ed ≠ .pdp7) :
    FixedFormat (filsysGetformat ed) := by
  cases ed <;> first | exact absurd rfl h1 | exact absurd rfl h2 | exact ⟨by decide, by decide, rfl⟩

/-! ## A small volume -/

/-- The owner of a volume's only block. -/
def soleOwn (n b : Nat) : Own := fun x => if x = b then some (n, [0]) else none

instance (d : Desc) (len : Nat) : Decidable (SuperRoom d len) := inferInstanceAs (Decidable (ite _ _ _))

instance (fs : Fs) (b : Nat) : Decidable (DataBlock fs b) := inferInstanceAs (Decidable (_ ∧ _))

/-- The format of a volume with a free list, and its bounds. -/
def FormatChecks (s : Mnt) : Prop :=
  s.fs.readonly = false ∧ 512 ≤ s.fs.desc.bsize ∧ s.fs.base + s.fs.fsize * s.fs.desc.bsize ≤ s.size ∧
  s.fs.imgsize = s.size ∧
    2 ≤ opsDataStart s.fs ∧ opsDataStart s.fs < opsDataEnd s.fs ∧ opsDataEnd s.fs ≤ s.fs.fsize ∧
    s.fs.desc.ops ≠ .v1 ∧ s.fs.desc.ops ≠ .pdp7 ∧ s.fs.desc.ops ≠ .v6 ∧ s.fs.desc.alloc = .freelist ∧
    s.fs.v8Nblks = 0 ∧
    s.fs.desc.daddrWid = (daddrSig s.fs.desc).length ∧ (dfNfreeSig s.fs.desc).length ≤ chainFreeOff s.fs.desc ∧
    chainFreeOff s.fs.desc + s.fs.desc.daddrWid * s.fs.desc.nicfree ≤ s.fs.desc.bsize ∧
    0 < s.fs.desc.nicfree ∧ s.fs.desc.nicfree < 65536 ∧
    SuperRoom s.fs.desc (superLen s.fs) ∧ s.fs.fsize ≤ 256 ^ (if s.fs.desc.isizeCount then 2 else 4) ∧
    s.fs.fsize ≤ 256 ^ s.fs.desc.daddrWid ∧
    s.fs.desc.inodeSize = 64 ∧ (addrSig s.fs.desc).length * s.fs.desc.niaddr ≤ 40 ∧
    s.fs.desc.bsize % s.fs.desc.inodeSize = 0 ∧
    entryLen s.fs.desc * s.fs.desc.nindir ≤ s.fs.desc.bsize ∧ 0 < s.fs.desc.nindir ∧
    s.fs.fsize ≤ 256 ^ addrLen s.fs.desc ∧ s.fs.fsize ≤ 256 ^ entryLen s.fs.desc ∧
    s.fs.desc.ilargMask = 0 ∧ s.fs.desc.nindir < 2 ^ 32

instance (s : Mnt) : Decidable (FormatChecks s) := inferInstanceAs (Decidable (_ ∧ _))

section Format

variable {s : Mnt} (hsolo : Solo s) (h : FormatChecks s)

include hsolo h

theorem mounted_of_checks : Mounted s := by
  obtain ⟨h1, h2, h3, h4, h5, h6, h7, h8, h9, -⟩ := h
  exact ⟨hsolo, h9, h1, h2, fun hv => absurd hv h8, h3, h4, h5, h6, h7⟩

omit hsolo in
theorem listLayout_of_checks : ListLayout s.fs := by
  obtain ⟨-, -, -, -, -, -, -, h8, h9, -, -, h12, h13, h14, h15, h16, h17, h18, h19, h20, -⟩ := h
  exact ⟨h8, h9, h12, h13, h14, h15, h16, h17, h18, h19, h20⟩

omit hsolo in
theorem mapLayout_of_checks : MapLayout s.fs := by
  obtain ⟨-, -, -, -, -, -, -, h8, -, h10, -, -, -, -, -, -, -, -, -, -, h21, h22, h23, h24,
    h25, h26, h27, h28, h29⟩ := h
  refine ⟨⟨fun hv => ?_, fun _ _ => ⟨h21, h22⟩, h23, h24, h25⟩, h26, h27, .inl h28,
    fun h0 => absurd h28 h0, h29⟩
  exact absurd hv (not_or.mpr ⟨h8, h10⟩)

end Format

/-- Nothing is free, and the only live inode, `n`, has block `b` and no other. -/
def SoleChecks (s : Mnt) (n b : Nat) : Prop :=
  s.fs.nfree = 0 ∧ DataBlock s.fs b ∧ cdepth s.fs.desc 0 = 0 ∧ 0 < v7Inopb s.fs ∧
    (∀ k < (ilistEnd s.fs - 2) * v7Inopb s.fs + 1, k ≠ n →
      inodeLive s.fs.desc ((recordOf s.fs s.img k).mode % 65536) = false) ∧
    ∀ slot < s.fs.desc.niaddr, (recordOf s.fs s.img n).addr slot ≠ 0 →
      (recordOf s.fs s.img n).addr slot = b ∧ croot s.fs.desc (recordOf s.fs s.img n).mode slot = [0]

instance (s : Mnt) (n b : Nat) : Decidable (SoleChecks s n b) := inferInstanceAs (Decidable (_ ∧ _))

theorem owned_sole {s : Mnt} {n b : Nat} (hsolo : Solo s) (h : FormatChecks s) (hs : SoleChecks s n b) :
    Owned s (soleOwn n b) := by
  have hm := mounted_of_checks hsolo h
  have hlist := listLayout_of_checks h
  have hops : s.fs.desc.ops ≠ .v1 := hlist.notV1
  have ha : s.fs.desc.alloc = .freelist := h.2.2.2.2.2.2.2.2.2.2.1
  obtain ⟨hfull, hb, hdirect, hinopb, hdead, hslots⟩ := hs
  refine ⟨hm, mapLayout_of_checks h, (spaceOk_freelist ha).mpr ⟨hlist, [], [], core_empty hfull⟩,
    fun x hx => ?_, fun x p hx => ?_, fun x k slot idxs hx hlen => ?_,
    fun k hk hholds => ?_⟩
  · exact absurd ((isFree_core hm ha hlist (core_empty hfull)).mp hx) List.not_mem_nil
  · by_cases h : x = b
    · rwa [h]
    · exact nomatch (if_neg h).symm.trans hx
  · by_cases h : x = b
    · cases (if_pos h).symm.trans hx
      rw [hdirect] at hlen
      exact absurd hlen (Nat.not_lt_zero _)
    · exact nomatch (if_neg h).symm.trans hx
  · have hlt : k < (ilistEnd s.fs - 2) * v7Inopb s.fs + 1 := by
      have hvalid := hk.2
      rw [if_neg hops] at hvalid
      unfold v7Itod at hvalid
      have := (Nat.div_lt_iff_lt_mul hinopb).mp (show (k - 1) / v7Inopb s.fs < ilistEnd s.fs - 2 by omega)
      omega
    have hkn : k = n := by
      by_contra hne
      have hlive := hholds.1
      rw [hdead k hlt hne] at hlive
      exact nomatch hlive
    subst hkn
    intro slot hslot hne
    obtain ⟨haddr, hroot⟩ := hslots slot hslot hne
    rw [haddr, hroot]
    exact if_pos rfl

/-- A full volume of four blocks: the root directory, block 3, has a slot to spare. -/
def bareV7 : Buf := fun i =>
  if i = 512 then 3 else if i = 516 then 4            -- s_isize, s_fsize
  else if i = 1089 then 0o100 else if i = 1090 then 2 else if i = 1098 then 48 else if i = 1101 then 3
  else if i = 1536 then 2 else if i = 1538 then 46
  else if i = 1552 then 2 else if i = 1554 then 46 else if i = 1555 then 46
  else 0

def bareVolume : Mnt :=
  { final (filsysOpenArch { edition := .v7 })
      { fs := { desc := filsysGetformat .v7 }, img := bareV7, size := 2048 } with
    env := {} }

def bareRoot : Loc := { ip := recordOf bareVolume.fs bareVolume.img 2 }

theorem bareVolume_owned : Owned bareVolume (soleOwn 2 3) :=
  owned_sole (fun _ _ => rfl) (by decide +kernel) (by decide +kernel)

/-- The root directory gains a name and no byte. -/
theorem a_root_directory_takes_a_name_in_its_free_slot :
    ∃ t l', dirAdd 5 [120] (bareVolume, bareRoot) = .ok () (t, l') ∧ l'.ip.size = bareRoot.ip.size ∧
      Implements (stem bareVolume.fs.desc) t l'
      (rebind (binding [(2, [46]), (2, [46, 46])]) [120] (some 5)) := by
  have hformat : FixedFormat bareVolume.fs.desc := fixedFormat_getformat .v7 (by decide) (by decide)
  have hdir : Directory bareVolume (soleOwn 2 3) 2 bareRoot.ip :=
    ⟨bareVolume_owned.disk 2 (by decide +kernel)
      ⟨by decide +kernel, by decide +kernel⟩, by decide +kernel, by decide +kernel, by decide +kernel⟩
  have hlist : listing bareVolume.fs bareVolume.img bareRoot.ip = [(2, [46]), (2, [46, 46])] := by
    decide +kernel
  have hdist : Distinct (listing bareVolume.fs bareVolume.img bareRoot.ip) := by
    rw [hlist]
    unfold Distinct
    decide
  have hfree : HasFree bareVolume.fs bareVolume.img bareRoot.ip := ⟨2, by decide +kernel, by decide +kernel⟩
  have hname : NameOk bareVolume.fs.desc [120] := ⟨by decide, by decide +kernel, by decide, by decide⟩
  have hok : errorOf (dirAdd 5 [120]) (bareVolume, bareRoot) = none := by decide +kernel
  obtain ⟨-, hadd, -⟩ := fixed_directory_is_a_map bareVolume_owned hformat hdir hdist
    (congrArg binding hlist).symm
  obtain ⟨himp, -, hsize⟩ := hadd [120] 5 _ _ hname (by decide) (by decide) (by decide) (.inl hfree) (eq_ok hok)
  exact ⟨_, _, eq_ok hok, hsize hfree, himp⟩

end Filsys.Names
