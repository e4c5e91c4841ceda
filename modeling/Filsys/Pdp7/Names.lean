/-
  Filsys.Pdp7.Names — PDP-7 directories and the names they hold (pdp7fs.c).

  A name is stored as eight 7-bit characters, padded with spaces, and read back without the
  spaces at its end. It reads back as it was exactly where it has 7-bit characters only and
  does not end in a space (`unpackName_packName_iff`); `p7fs_dir_add` takes any eight bytes.
  A directory is a finite map for the names that read back, and for no other
  (`pdp7_directory_is_a_map_iff`).
-/

import Mathlib.Data.List.DropRight
import Filsys.Pdp7.Beside
import Filsys.Pdp7.Entries

namespace Filsys.Pdp7

open Filsys.Lib Filsys.Engine Filsys.Blockmap Filsys.Alloc Filsys.Check Filsys.Tree Filsys.Names

/-! ## Names as words -/

/-- A name of 7-bit characters that does not end in a space. -/
structure Canonical (name : Name) : Prop where
  ascii : ∀ c ∈ name, c.toNat < 128
  last : name.getLast? ≠ some 32

instance (name : Name) : Decidable (Canonical name) :=
  decidable_of_iff (name.all (fun c => decide (c.toNat < 128)) = true ∧ name.getLast? ≠ some 32)
    ⟨fun h => ⟨fun c hc => of_decide_eq_true (List.all_eq_true.mp h.1 c hc), h.2⟩,
      fun h => ⟨List.all_eq_true.mpr fun c hc => decide_eq_true (h.ascii c hc), h.last⟩⟩

/-- The low seven bits of a character. -/
def low7 (c : UInt8) : UInt8 := UInt8.ofNat (c.toNat % 128)

theorem low7_of_lt {c : UInt8} (h : c.toNat < 128) : low7 c = c := by
  unfold low7
  rw [Nat.mod_eq_of_lt h, UInt8.ofNat_toNat]

theorem map_low7 {name : Name} (h : ∀ c ∈ name, c.toNat < 128) : name.map low7 = name := by
  conv_rhs => rw [← List.map_id name]
  exact List.map_congr_left fun c hc => low7_of_lt (h c hc)

theorem low7_lt (c : UInt8) : (low7 c).toNat < 128 := by
  unfold low7
  rw [UInt8.toNat_ofNat']
  omega

/-- The eight characters of a packed name. -/
theorem chars_packName {name : Name} (h : name.length ≤ 8) :
    ((List.range 8).map fun i => UInt8.ofNat (if i % 2 = 0 then packName name (i / 2) / 512 % 128
      else packName name (i / 2) % 128)) =
      name.map low7 ++ List.replicate (8 - name.length) 32 := by
  have hchar : ∀ i, i < 8 →
      UInt8.ofNat (if i % 2 = 0 then packName name (i / 2) / 512 % 128 else packName name (i / 2) %
        128) = low7 (name.getD i 32) := by
    intro i hi
    unfold packName low7
    by_cases heven : i % 2 = 0
    · rw [if_pos heven, show 2 * (i / 2) = i by omega]
      congr 1
      omega
    · rw [if_neg heven, show 2 * (i / 2) + 1 = i by omega]
      congr 1
      omega
  rw [List.map_congr_left fun i hi => hchar i (List.mem_range.mp hi)]
  refine List.ext_getElem (by simp; omega) fun i h1 h2 => ?_
  rw [List.getElem_map, List.getElem_range]
  by_cases hlt : i < name.length
  · rw [List.getElem_append_left (by simpa using hlt), List.getElem_map, List.getD_eq_getElem _ _ hlt]
  · rw [List.getElem_append_right (by simpa using hlt), List.getElem_replicate,
      List.getD_eq_default _ _ (by omega)]
    rfl

theorem rdropWhile_spaces (L : Name) (n : Nat) : (L ++ List.replicate n 32).rdropWhile (· == 32) =
    L.rdropWhile (· == 32) := by
  induction n with
  | zero => simp
  | succ n ih =>
    rw [List.replicate_succ', ← List.append_assoc, List.rdropWhile_concat_pos _ _ _ (by decide), ih]

theorem unpackName_packName {name : Name} (h : name.length ≤ 8) :
    unpackName (packName name) = ((name.map low7).rdropWhile (· == 32)).takeWhile (· ≠ 0) := by
  rw [← rdropWhile_spaces _ (8 - name.length), ← chars_packName h]
  rfl

/-- A name reads back as it was exactly where it is canonical. -/
theorem unpackName_packName_iff {name : Name} (hne : name ≠ []) (h : name.length ≤ 8) (h0 : 0 ∉ name) :
    unpackName (packName name) = name ↔ Canonical name := by
  rw [unpackName_packName h]
  constructor
  · intro heq
    have hascii : ∀ c ∈ name, c.toNat < 128 := by
      intro c hc
      rw [← heq] at hc
      have hmem := (List.rdropWhile_prefix _ _).mem ((List.takeWhile_prefix _).mem hc)
      obtain ⟨b, -, rfl⟩ := List.mem_map.mp hmem
      exact low7_lt b
    refine ⟨hascii, fun hlast => ?_⟩
    rw [map_low7 hascii] at heq
    -- the space at the end has been dropped
    obtain ⟨L, rfl⟩ : ∃ L, name = L ++ [32] := List.getLast?_eq_some_iff.mp hlast
    rw [List.rdropWhile_concat_pos _ _ _ (by decide)] at heq
    have hlen := congrArg List.length heq
    have h1 := (List.takeWhile_prefix (· ≠ 0) (l := L.rdropWhile (· == 32))).length_le
    have h2 := (List.rdropWhile_prefix (l := L) (· == 32)).length_le
    rw [List.length_append, List.length_singleton] at hlen
    omega
  · intro hr
    obtain ⟨hascii, hlast⟩ := hr
    rw [map_low7 hascii]
    have hkeep : name.rdropWhile (· == 32) = name := by
      refine List.rdropWhile_eq_self_iff.mpr fun hl => ?_
      intro hc
      rw [List.getLast?_eq_getLast_of_ne_nil hl] at hlast
      exact hlast (congrArg some (beq_iff_eq.mp hc))
    rw [hkeep]
    refine List.takeWhile_eq_self_iff.mpr fun c hc => ?_
    have : c ≠ 0 := fun hz => h0 (hz ▸ hc)
    simpa using this

/-! ## The directory as a map -/

/-- A name the directory does not have is found under itself, can be removed and stands alone after it
    has been entered, exactly where it is canonical. -/
theorem pdp7_directory_is_a_map_iff {s : Mnt} {l : Loc} (hs : Sited s) (hp : s.fs.desc.ops = .pdp7)
    (hn : Numbered s l.ip.ino) (hst : Stocked s l.ip)
    (hsize : l.ip.size ≤ maxFile s.fs.desc) (hdist : Distinct (stored s l.ip)) {ino : Nat}
    (hino : 0 < ino ∧ ino < 2 ^ 18) {name : Name} (h0 : 0 ∉ name)
    (hdot : name ≠ dot ∧ name ≠ dotdot) (hfresh : binding (stored s l.ip) name = none) :
    Post (dirAdd ino name (s, l))
      (fun _ t => (Post (dirLookup name t) (fun r _ => r = ino) (fun _ _ => False) ∧
        Post (dirRemove name t) (fun _ _ => True) (fun _ _ => False) ∧
        Distinct (stored t.1 t.2.ip)) ↔ Canonical name) fun _ _ => True := by
  have hmax : l.ip.size < 2 ^ 32 := Nat.lt_of_le_of_lt hsize (maxFile_lt _)
  refine (post_dirAdd_words hs hp hn hst hmax ino).mono ?_ fun _ _ h => h
  intro _ p hres
  obtain ⟨t, l'⟩ := p
  obtain ⟨hfits, -, e, hadd⟩ := hres
  have hadd : Added s l.ip ino name e t l'.ip := hadd
  have hins := hadd.inserted hmax hino.1 hino.2
  have hpt : t.fs.desc.ops = .pdp7 := by rw [shape_desc hadd.shape]; exact hp
  have hst' := hadd.stocked
  have hmax' : l'.ip.size < 2 ^ 32 := by
    have hm : l.ip.size ≤ 57344 := by
      have := hsize
      unfold maxFile at this
      rwa [if_pos hp] at this
    rcases hadd.free_slot with ⟨-, hz⟩ | ⟨-, -, hz⟩ <;> omega
  have hlook := post_dirLookup_words ⟨hpt, hst'.stock.toReady, hst'.tree⟩ hmax' hdot.1 hdot.2
  have hiff := unpackName_packName_iff hfits.nonempty hfits.short h0
  rw [← hiff]
  constructor
  · intro hres
    obtain ⟨hfound, -, -⟩ := hres
    -- only the new entry can be the one that was found
    by_contra hne
    have hnone : binding (stored t l'.ip) name = none := by
      rw [binding_eq_none] at hfresh ⊢
      obtain ⟨A, B, hAB, hAeB⟩ := hins
      intro x hx
      rw [hAeB, List.mem_append, List.mem_cons] at hx
      rcases hx with hx | rfl | hx
      · exact hfresh x (by rw [hAB]; exact List.mem_append_left _ hx)
      · exact hne
      · exact hfresh x (by rw [hAB]; exact List.mem_append_right _ hx)
    obtain ⟨r, u, hrun, -⟩ := hfound.succeeds
    rw [hrun] at hlook
    have hsome := hlook.1
    rw [hnone] at hsome
    cases hsome
  · intro heq
    rw [heq] at hins
    have hfresh' : ∀ x ∈ stored s l.ip, x.2 ≠ name := binding_eq_none.mp hfresh
    have hbound : binding (stored t l'.ip) name = some ino := by
      rw [hins.binding hfresh']
      exact if_pos rfl
    refine ⟨hlook.mono ?_ ?_, ?_, hins.distinct hdist hfresh'⟩
    · intro r u hr
      have := hr.1
      rw [hbound] at this
      exact (Option.some.inj this).symm
    · intro e u he
      have := he.2
      rw [hbound] at this
      cases this
    · have hremove : Post (dirRemove name (t, l')) _ _ := post_dirRemove_words hpt hst' hmax'
      refine hremove.mono (fun _ _ _ => trivial) fun e u he => ?_
      unfold binding at hbound
      rw [he.2] at hbound
      cases hbound

/-- Inode 4 of this image is a directory in block 801 with one entry, the name `a` for inode 5. -/
def oneEntry : Buf := fun o =>
  if o = 704 then 16 else if o = 706 then 2 else if o = 708 then 33
    else if o = 709 then 3 else if o = 744 then 8
  else if o = 205056 then 5 else if o = 205060 then 32 else if o = 205061 then 194
  else if 205060 < o ∧ o < 205076 ∧ o % 4 = 0 then 32 else if 205060 < o ∧ o < 205076 ∧ o % 4 = 1 then 64 else 0

/-- The name `ab` enters it. -/
theorem ab_is_found_after_it_is_entered : ∃ ip, recAt (bareImage oneEntry).fs oneEntry 4 = ip ∧
    stored (bareImage oneEntry) ip = [(5, [97])] ∧
    Post (dirAdd 6 [97, 98] (bareImage oneEntry, ⟨ip, []⟩))
      (fun _ t => Post (dirLookup [97, 98] t) (fun r _ => r = 6) fun _ _ => False) fun _ _ => True := by
  obtain ⟨ip, hip, hino, haddr, hmode, hsize, hstored⟩ :
    ∃ ip, recAt (bareImage oneEntry).fs oneEntry 4 = ip ∧ ip.ino = 4 ∧
      (∀ i, i < 7 → ip.addr i = if i = 0 then 801 else 0) ∧ ip.mode = 131088 ∧ ip.size = 16 ∧
      stored (bareImage oneEntry) ip = [(5, [97])] :=
    ⟨_, rfl, rfl, by decide +kernel, by decide +kernel, by decide +kernel, by decide +kernel⟩
  have hn : Numbered (bareImage oneEntry) ip.ino := by
    rw [hino]
    refine (if_pos (show (bareImage oneEntry).fs.desc.ops = .pdp7 from rfl)).mpr ?_
    exact ⟨by decide, by decide, (by decide : 0 + 2 * 256 + 256 ≤ 2048000)⟩
  have hst := stocked_bareImage oneEntry (.inr hmode) haddr (by decide) (by decide)
  have hdist : Distinct (stored (bareImage oneEntry) ip) := by
    unfold Names.Distinct
    rw [hstored]
    decide
  refine ⟨ip, hip, hstored, (pdp7_directory_is_a_map_iff (sited_bareImage oneEntry) rfl (l :=
    ⟨ip, []⟩) hn hst (by rw [hsize]; decide) hdist
    (show 0 < 6 ∧ 6 < 2 ^ 18 by decide) (by decide) (by decide) (by rw [hstored]; decide)).mono ?_
    fun _ _ _ => trivial⟩
  intro _ t h
  exact (h.mpr (by decide +kernel)).1

/-- The image before it is opened. -/
def oneEntryVolume : Mnt := { bareImage oneEntry with fs := { desc := descPdp7 } }

theorem oneEntryVolume_opens :
    filsysOpenArch pdp7Args oneEntryVolume = .ok () (final (filsysOpenArch pdp7Args) oneEntryVolume) :=
  eq_done (by decide +kernel)

/-- Two names are entered that are not there before; one is then found under neither of them, and two
    entries are the same name. -/
theorem two_names_become_one : ∃ s l t u, filsysOpenArch pdp7Args oneEntryVolume = .ok () s ∧
    l.ip = recAt s.fs s.img 4 ∧
    stored s l.ip = [(5, [97])] ∧ errorOf (dirLookup [99]) (s, l) = some .enoent ∧
    errorOf (dirLookup [99, 32]) (s, l) = some .enoent ∧
    dirAdd 6 [99] (s, l) = .ok () t ∧ dirAdd 7 [99, 32] t = .ok () u ∧
    errorOf (dirLookup [99, 32]) u = some .enoent ∧ stored u.1 u.2.ip = [(5, [97]), (6, [99]), (7, [99])] := by
  obtain ⟨s, hopen, hstored, hone, htwo, hadd, hadd', hlook, hstored'⟩ :
    ∃ s, filsysOpenArch pdp7Args oneEntryVolume = .ok () s ∧
      stored s (recAt s.fs s.img 4) = [(5, [97])] ∧
      errorOf (dirLookup [99]) (s, ⟨recAt s.fs s.img 4, []⟩) = some .enoent ∧
      errorOf (dirLookup [99, 32]) (s, ⟨recAt s.fs s.img 4, []⟩) = some .enoent ∧
      errorOf (dirAdd 6 [99]) (s, ⟨recAt s.fs s.img 4, []⟩) = none ∧
      errorOf (dirAdd 7 [99, 32]) (final (dirAdd 6 [99]) (s, ⟨recAt s.fs s.img 4, []⟩)) = none ∧
      errorOf (dirLookup [99, 32]) (final (dirAdd 7 [99, 32])
        (final (dirAdd 6 [99]) (s, ⟨recAt s.fs s.img 4, []⟩))) = some .enoent ∧
      stored (final (dirAdd 7 [99, 32]) (final (dirAdd 6 [99]) (s, ⟨recAt s.fs s.img 4, []⟩))).1
        (final (dirAdd 7 [99, 32]) (final (dirAdd 6 [99]) (s, ⟨recAt s.fs s.img 4, []⟩))).2.ip =
          [(5, [97]), (6, [99]), (7, [99])] :=
    ⟨_, oneEntryVolume_opens, by decide +kernel, by decide +kernel, by decide +kernel, by decide +kernel,
      by decide +kernel, by decide +kernel,
      by decide +kernel⟩
  exact ⟨s, ⟨recAt s.fs s.img 4, []⟩, _, _, hopen, rfl, hstored, hone, htwo, eq_done hadd,
    eq_done hadd', hlook, hstored'⟩

end Filsys.Pdp7
