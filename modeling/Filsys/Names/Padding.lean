/-
  Filsys.Names.Padding — an insertion that finds no block (dir_bsd211.c).

  An insertion that would cross a chunk's edge first lengthens the last record to it, past
  the recorded size when that is where the directory ends, and then asks for the block. When
  there is none, the record reaches past the end, both parsers refuse it, and its name is
  gone. Every other insertion that fails leaves the records as they were.
-/

import Filsys.Names.Framing

namespace Filsys.Names

open Filsys.Lib Filsys.Engine Filsys.Alloc Filsys.Tree

/-- Every name that resolved in `(s, l)` resolves to the same inode in `(t, l')` and is listed with it. -/
def KeepsNames (s : Mnt) (l : Loc) (t : Mnt) (l' : Loc) : Prop :=
  ∀ name ino, 0 ∉ name → (∃ v, dirLookup name (s, l) = .ok ino v) →
    (∃ v, dirLookup name (t, l') = .ok ino v) ∧ ∃ L v, dirEntries (l'.ip.size + 1) {} (t, l') =
    .ok L v ∧ (ino, name) ∈ L

/-- The last record, which the insertion lengthens, is in use and alone has its name. -/
def EndangersLast (s : Mnt) (ip : Inode) (name : Name) : Prop :=
  NameOk s.fs.desc name ∧ Pads s.fs s.img ip name ∧ ∃ A p, bsdRecords s.fs s.img ip = A ++ [p] ∧ p.ino ≠ 0 ∧
    0 ∉ (entryOfRec (byteOf s.fs s.img ip) p).2 ∧ ∀ e ∈ live (byteOf s.fs s.img ip) A,
    e.2 ≠ (entryOfRec (byteOf s.fs s.img ip) p).2

section Entries

variable {s : Mnt} {own : Own} {n : Nat} {l : Loc} (h : OpenFile s own n l.ip)
    (hops : s.fs.desc.ops = .bsd211) (hq : ¬ Fault s)

include h hops hq

/-- What the parsers show of a directory whose records end at `b`. -/
theorem parsers_of_tiles {L : List BsdRec} {b : Nat}
    (hL : Tiles s.fs.desc (byteOf s.fs s.img l.ip) l.ip.size 0 L b)
    (hstop : bsd211Next s.fs.desc (byteOf s.fs s.img l.ip) l.ip.size b = none)
    (hend : listed s.fs.desc (byteOf s.fs s.img l.ip) l.ip.size b = []) :
    (∀ name ino, (∃ v, dirLookup name (s, l) = .ok ino v) ↔ ∃ e,
      lookup (live (byteOf s.fs s.img l.ip) L) name = some e ∧ e.1 = ino) ∧
      ∃ v, dirEntries (l.ip.size + 1) {} (s, l) = .ok (live (byteOf s.fs s.img l.ip) L) v := by
  have hread := reads_of_owned h.owned h.view (h.mappable (Nat.le_refl _))
  have hrecords : records s.fs.desc (byteOf s.fs s.img l.ip) l.ip.size 0 = L := by
    rw [hL.records_eq, records_nil hstop, List.append_nil]
  have hlisted : listed s.fs.desc (byteOf s.fs s.img l.ip) l.ip.size 0 = L := by
    rw [hL.listed_eq, hend, List.append_nil]
  constructor
  · intro name ino
    rw [dirLookup_iff hops hread hq, hrecords]
  · obtain ⟨v, hrun⟩ := dirEntries_ok hops hread hq
    rw [hlisted] at hrun
    exact ⟨v, hrun⟩

theorem parsers_of_holds {L : List Dirent} (hL : Holds s own n l.ip L) :
    (∀ name ino, (∃ v, dirLookup name (s, l) = .ok ino v) ↔ ∃ e, lookup L name = some e ∧ e.1 = ino) ∧
      ∃ v, dirEntries (l.ip.size + 1) {} (s, l) = .ok L v := by
  have hparse := parsers_of_tiles h hops hq hL.framed (bsd211Next_end (Nat.le_refl _))
    (listed_end (Nat.le_refl _))
  have hlive : live (byteOf s.fs s.img l.ip) (bsdRecords s.fs s.img l.ip) = L := hL.listing
  rwa [hlive] at hparse

end Entries

/-- What two directories show decides which names are kept. -/
theorem keepsNames_iff {s t : Mnt} {l l' : Loc} {L L' : List Dirent}
    (hs : ∀ name ino, (∃ v, dirLookup name (s, l) = .ok ino v) ↔ ∃ e, lookup L name = some e ∧ e.1 = ino)
    (ht : ∀ name ino, (∃ v, dirLookup name (t, l') = .ok ino v) ↔ ∃ e, lookup L' name = some e ∧ e.1 = ino)
    (hlist : ∃ v, dirEntries (l'.ip.size + 1) {} (t, l') = .ok L' v) :
    KeepsNames s l t l' ↔ ∀ name e, 0 ∉ name → lookup L name = some e → ∃ e', lookup L' name = some e' ∧
    e'.1 = e.1 := by
  constructor
  · intro h name e h0 he
    exact (ht name e.1).mp (h name e.1 h0 ((hs name e.1).mpr ⟨e, he, rfl⟩)).1
  · intro h name ino h0 hok
    obtain ⟨e, he, rfl⟩ := (hs name ino).mp hok
    obtain ⟨e', he', hino⟩ := h name e h0 he
    obtain ⟨v, hrun⟩ := hlist
    have hname : e'.2 = name := by simpa using List.find?_some he'
    refine ⟨(ht name e.1).mpr ⟨e', he', hino⟩, L', v, hrun, ?_⟩
    rw [← hname, ← hino]
    exact List.mem_of_find?_eq_some he'

/-- What is lost with the last entry. -/
theorem lookup_without_last {A : List Dirent} {x : Dirent} :
    (∀ name e, 0 ∉ name → lookup (A ++ [x]) name = some e → ∃ e', lookup A name = some e' ∧
      e'.1 = e.1) ↔ ¬ (0 ∉ x.2 ∧ ∀ e ∈ A, e.2 ≠ x.2) := by
  constructor
  · intro h hr
    obtain ⟨h0, hnone⟩ := hr
    have hlast : lookup (A ++ [x]) x.2 = some x := by
      rw [lookup_append, lookup_eq_none.mpr hnone, lookup_cons, if_pos rfl]
      rfl
    obtain ⟨e', he', -⟩ := h x.2 x h0 hlast
    rw [lookup_eq_none.mpr hnone] at he'
    cases he'
  · intro h name e h0 he
    rw [lookup_append] at he
    cases hA : lookup A name with
    | some e' =>
      rw [hA] at he
      cases he
      exact ⟨e, rfl, rfl⟩
    | none =>
      rw [hA, Option.none_or, lookup_cons] at he
      by_cases hx : x.2 = name
      · exact absurd ⟨hx ▸ h0, fun e' hmem => hx ▸ lookup_eq_none.mp hA e' hmem⟩ h
      · rw [if_neg hx] at he
        cases he

section Failed

variable {s t : Mnt} {own : Own} {n : Nat} {l l' : Loc} (h : OpenFile s own n l.ip)
    (hd : BsdFormat s.fs.desc) (hf : Framed s.fs s.img l.ip)
  (hn : ValidIno s.fs n) (hq : ¬ Fault s) {name : Name} {ino : Nat} {e : Errno}

include hd in
variable (l ino) in
/-- A name no entry can have is turned away before anything is read. -/
theorem dirAdd_unfit (h0 : 0 ∉ name) (hname : ¬ NameOk s.fs.desc name) :
    ∃ e, dirAdd ino name (s, l) = .error e (s, l) := by
  have hrun : dirAdd ino name (s, l) = bsd211DirAdd ino name (s, l) := by
    unfold dirAdd
    rw [bindUpFs_run]
    rw [hd.ops]
  rw [hrun]
  show ∃ e, (if name = [] ∨ s.fs.desc.maxNamlen < name.length then throw .enametoolong
    else if slash ∈ name then throw .einval else _ : MI Unit) (s, l) = .error e (s, l)
  by_cases hlong : name = [] ∨ s.fs.desc.maxNamlen < name.length
  · rw [if_pos hlong]
    exact ⟨_, rfl⟩
  · rw [if_neg hlong]
    by_cases hslash : slash ∈ name
    · rw [if_pos hslash]
      exact ⟨_, rfl⟩
    · exact absurd ⟨fun hnil => hlong (.inl hnil), Nat.le_of_not_lt fun hlt => hlong (.inr hlt), hslash,
        h0⟩ hname

include h hd hf hn hq

/-- An insertion that fails without a failed transfer keeps the names, unless it lengthens a last record
    that alone has its name. -/
theorem failed_insertion_keeps_names_iff (h0 : 0 ∉ name) (hrun : dirAdd ino name (s, l) = .error e (t, l')) :
    KeepsNames s l t l' ↔ ¬ EndangersLast s l.ip name := by
  have hbefore := parsers_of_holds h hd.ops hq ⟨h, hf, rfl⟩
  by_cases hname : NameOk s.fs.desc name
  · obtain ⟨own', hopen, hv, hsize, hwhy⟩ := (post_bsdAdd h hd hf hname ino).of_error hrun hn hq
    replace hsize : l'.ip.size = l.ip.size := hsize
    have hdesc := shape_desc hv.shape
    have hqt : ¬ Fault t := fun ⟨k, hk⟩ => hq ⟨k, by rw [← hv.env]; exact hk⟩
    have hopst : t.fs.desc.ops = .bsd211 := by rw [hdesc]; exact hd.ops
    rcases hwhy with ⟨hpads, hbytes⟩ | ⟨hpads, A, p, hL, hA, hlive, hstop, hgap⟩
    · have hholds : Holds t own' n l'.ip (bsdListing s.fs s.img l.ip) :=
        (Holds.mk h hf rfl).congr hopen hdesc hsize hbytes
      obtain ⟨hafter, hlist⟩ := parsers_of_holds hopen hopst hqt hholds
      rw [keepsNames_iff hbefore.1 hafter hlist]
      exact ⟨fun _ hend => hpads hend.2.1, fun _ nm x _ hx => ⟨x, hx, rfl⟩⟩
    · -- the records end before the one that was lengthened
      have hlisted := listed_nil hstop
      rw [if_neg hgap] at hlisted
      rw [← hdesc, ← hsize] at hA hstop hlisted
      obtain ⟨hafter, hlist⟩ := parsers_of_tiles hopen hopst hqt hA hstop hlisted
      rw [hlive] at hafter hlist
      have hall : bsdListing s.fs s.img l.ip = live (byteOf s.fs s.img l.ip) A ++
        live (byteOf s.fs s.img l.ip) [p] := by
        unfold bsdListing
        rw [hL, live_append]
      rw [keepsNames_iff hbefore.1 hafter hlist, hall]
      by_cases hfree : p.ino = 0
      · rw [live_cons_neg hfree, show live (byteOf s.fs s.img l.ip) [] = [] from rfl, List.append_nil]
        refine ⟨fun _ hend => ?_, fun _ nm x _ hx => ⟨x, hx, rfl⟩⟩
        obtain ⟨-, -, A', p', hL', hlast, -⟩ := hend
        obtain ⟨-, hlasts⟩ := List.append_inj' (hL.symm.trans hL') rfl
        cases hlasts
        exact hlast hfree
      · rw [live_cons_pos hfree, show live (byteOf s.fs s.img l.ip) [] = [] from rfl, lookup_without_last]
        refine not_congr ⟨fun hend => ⟨hname, hpads, A, p, hL, hfree, hend⟩, fun hend => ?_⟩
        obtain ⟨-, -, A', p', hL', -, hend⟩ := hend
        obtain ⟨rfl, hlasts⟩ := List.append_inj' (hL.symm.trans hL') rfl
        cases hlasts
        exact hend
  · obtain ⟨e', hsame⟩ := dirAdd_unfit l hd ino h0 hname
    rw [hsame] at hrun
    cases hrun
    rw [keepsNames_iff hbefore.1 hbefore.1 hbefore.2]
    exact ⟨fun _ hend => hname hend.1, fun _ nm x _ hx => ⟨x, hx, rfl⟩⟩

end Failed

/-! ## A full volume -/

/-- `.` in a record of a whole chunk, and `x` in one of `reclen` bytes behind it. -/
def fullDir (reclen : Nat) : Buf := fun i =>
  if i = 0 then 2 else if i = 3 then 2 else if i = 4 then 1 else if i = 6 then 46
  else if i = 512 then 5 else if i = 514 then UInt8.ofNat reclen
    else if i = 515 then UInt8.ofNat (reclen / 256) else if i = 516 then 1
  else if i = 518 then 120 else 0

theorem fullDir_checks : RootChecks (fullDir 504) 1016 ∧ RootChecks (fullDir 512) 1024 := by
  unfold RootChecks
  decide +kernel

theorem framed_fullDir {reclen : Nat} (h : RootChecks (fullDir reclen) (512 + reclen))
    (h0 : bsd211Next descBsd211 (byteOf (bsdVolume (fullDir reclen) (512 + reclen)).fs
      (bsdVolume (fullDir reclen) (512 + reclen)).img
      (bsdRoot (fullDir reclen) (512 + reclen)).ip) (512 + reclen) 0 = some ⟨0, 2, 512, 1⟩)
    (h1 : bsd211Next descBsd211 (byteOf (bsdVolume (fullDir reclen) (512 + reclen)).fs
      (bsdVolume (fullDir reclen) (512 + reclen)).img
      (bsdRoot (fullDir reclen) (512 + reclen)).ip) (512 + reclen) 512 = some ⟨512, 5, reclen, 1⟩) :
    Framed (bsdVolume (fullDir reclen) (512 + reclen)).fs (bsdVolume (fullDir reclen)
      (512 + reclen)).img (bsdRoot (fullDir reclen) (512 + reclen)).ip ∧
      bsdRecords (bsdVolume (fullDir reclen) (512 + reclen)).fs (bsdVolume (fullDir reclen) (512 + reclen)).img
        (bsdRoot (fullDir reclen) (512 + reclen)).ip = [⟨0, 2, 512, 1⟩, ⟨512, 5, reclen, 1⟩] := by
  obtain ⟨-, -, hd, -, -, -, -, hsize, -⟩ := h
  apply framed_of_tiles
  rw [hd, hsize]
  exact .cons h0 (.cons h1 (.nil _))

/-- `ab` would begin the next block, and there is none; no record is lengthened for it. -/
theorem a_name_refused_at_a_chunk_edge_costs_none :
    ∃ t l', dirAdd 7 [97, 98] (bsdVolume (fullDir 512) 1024, bsdRoot (fullDir 512) 1024) =
    .error .enospc (t, l') ∧
      KeepsNames (bsdVolume (fullDir 512) 1024) (bsdRoot (fullDir 512) 1024) t l' := by
  have hrun := eq_error (show errorOf (dirAdd 7 [97, 98]) (bsdVolume (fullDir 512) 1024,
    bsdRoot (fullDir 512) 1024) = some .enospc by decide +kernel)
  obtain ⟨hframed, -⟩ := framed_fullDir fullDir_checks.2 (by decide +kernel) (by decide +kernel)
  obtain ⟨-, -, hd, hn, -, -, -, hsize, -⟩ := id fullDir_checks.2
  refine ⟨_, _, hrun, (failed_insertion_keeps_names_iff (openFile_bsd fullDir_checks.2)
    (by rw [hd]; exact bsdFormat_descBsd211) hframed hn
    (bsdVolume_quiet _ _) (by decide) hrun).mpr ?_⟩
  intro h
  obtain ⟨-, ⟨-, hpads, -⟩, -⟩ := h
  rw [hsize] at hpads
  exact hpads rfl

/-- `ab` does not fit behind `x` in its chunk: `x` is lengthened past the end, and is no longer found. -/
theorem a_name_refused_inside_a_chunk_costs_the_last :
    (∃ own, OpenFile (bsdVolume (fullDir 504) 1016) own 2 (bsdRoot (fullDir 504) 1016).ip) ∧
      Framed (bsdVolume (fullDir 504) 1016).fs (bsdVolume (fullDir 504) 1016).img (bsdRoot
        (fullDir 504) 1016).ip ∧
      ¬ Fault (bsdVolume (fullDir 504) 1016) ∧ ∃ t l',
        dirAdd 7 [97, 98] (bsdVolume (fullDir 504) 1016, bsdRoot (fullDir 504) 1016) = .error .enospc (t, l') ∧
        valueOf (dirLookup [120]) (bsdVolume (fullDir 504) 1016, bsdRoot (fullDir 504) 1016) = 5 ∧
        errorOf (dirLookup [120]) (t, l') = some .enoent ∧
        ¬ KeepsNames (bsdVolume (fullDir 504) 1016) (bsdRoot (fullDir 504) 1016) t l' := by
  have hrefused : errorOf (dirAdd 7 [97, 98]) (bsdVolume (fullDir 504) 1016,
    bsdRoot (fullDir 504) 1016) = some .enospc := by
    decide +kernel
  obtain ⟨hframed, -⟩ := framed_fullDir fullDir_checks.1 (by decide +kernel) (by decide +kernel)
  have hfound : valueOf (dirLookup [120]) (bsdVolume (fullDir 504) 1016, bsdRoot (fullDir 504) 1016) = 5 := by
    decide +kernel
  have hok := eq_ok (show errorOf (dirLookup [120]) (bsdVolume (fullDir 504) 1016,
    bsdRoot (fullDir 504) 1016) = none by decide +kernel)
  rw [hfound] at hok
  have hgone : errorOf (dirLookup [120]) (final (dirAdd 7 [97, 98]) (bsdVolume (fullDir 504) 1016,
    bsdRoot (fullDir 504) 1016)) = some .enoent := by
    decide +kernel
  obtain ⟨⟨t, l'⟩, hrun, hlost⟩ :
    ∃ u, dirAdd 7 [97, 98] (bsdVolume (fullDir 504) 1016, bsdRoot (fullDir 504) 1016) = .error .enospc u ∧
      errorOf (dirLookup [120]) u = some .enoent := ⟨_, eq_error hrefused, hgone⟩
  refine ⟨⟨_, openFile_bsd fullDir_checks.1⟩, hframed, bsdVolume_quiet _ _, t, l', hrun,
    hfound, hlost, fun hkeeps => ?_⟩
  obtain ⟨⟨v, hv⟩, -⟩ := hkeeps [120] 5 (by decide) ⟨_, hok⟩
  rw [eq_error hlost] at hv
  cases hv

end Filsys.Names
