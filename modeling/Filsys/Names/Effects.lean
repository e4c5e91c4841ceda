/-
  Filsys.Names.Effects — the engine's routines on a census (filsys.c, dir_fixed.c).

  `Fit` is what the engine needs of a volume to work on its names, and `Went` that it has
  got from one such volume to another with inodes outside `T` as they were. Each routine
  the namespace operations are made of changes the census of the volume by one change of
  `Census` and leaves the volume fit; without a failed transfer it fails for want of space
  alone, and then the census is as it was.
-/

import Filsys.Names.Census
import Filsys.Names.Numbers

namespace Filsys.Names

open Filsys.Lib Filsys.Engine Filsys.Alloc Filsys.Tree

/-! ## The census of a world -/

def censusOf (w : World) : Census where
  kind n := (w n).map Node.dir
  nlink n := ((w n).map Node.nlink).getD 0
  links d name := (w d).bind fun nd => if nd.dir then binding nd.list name else none

def census (s : Mnt) : Census := censusOf (worldOf s)

/-- No directory has two entries of one name. -/
def Unique (w : World) : Prop := ∀ n nd, w n = some nd → Distinct nd.list

section Set

variable {w : World} {n : Nat} {k k' : Int} {L L' : List Dirent}

theorem censusOf_nlink {nd : Node} (h : w n = some nd) : (censusOf w).nlink n = nd.nlink := by
  unfold censusOf
  simp [h]

theorem censusOf_links (h : w n = some ⟨true, k, L⟩) (name : Name) :
    (censusOf w).links n name = binding L name := by
  unfold censusOf
  simp [h]

theorem node_of_kind {b : Bool} (h : (censusOf w).kind n = some b) : ∃ k L, w n = some ⟨b, k, L⟩ := by
  obtain ⟨nd, hn, rfl⟩ := Option.map_eq_some_iff.mp h
  exact ⟨nd.nlink, nd.list, hn⟩

theorem kind_eq_none : (censusOf w).kind n = none ↔ w n = none := Option.map_eq_none_iff

theorem censusOf_dead (h : w n = none) : (censusOf w).nlink n = 0 ∧ ∀ name,
    (censusOf w).links n name = none := by
  unfold censusOf
  simp [h]

/-- A directory's count and entries change. -/
theorem censusOf_list (h : w n = some ⟨true, k, L⟩) {G : Links Nat Name}
    (hsame : ∀ x name, x ≠ n → G x name = (censusOf w).links x name)
    (hG : ∀ name, G n name = binding L' name) : censusOf (set w n (some ⟨true, k', L'⟩)) =
    { (censusOf w).relink n k' with links := G } := by
  apply Census.ext
  · funext x
    show (set w n _ x).map Node.dir = (w x).map Node.dir
    by_cases hx : x = n
    · rw [hx, set_self, h]
      rfl
    · rw [set_ne _ _ hx]
  · funext x
    show ((set w n _ x).map Node.nlink).getD 0 = if x = n then k' else ((w x).map Node.nlink).getD 0
    by_cases hx : x = n
    · rw [hx, set_self, if_pos rfl]
      rfl
    · rw [set_ne _ _ hx, if_neg hx]
  · funext x name
    show ((set w n _ x).bind fun nd => if nd.dir then binding nd.list name else none) = G x name
    by_cases hx : x = n
    · rw [hx, set_self, hG]
      rfl
    · rw [set_ne _ _ hx, hsame x name hx]
      rfl

theorem censusOf_entered (h : w n = some ⟨true, k, L⟩) {name : Name} {ino : Nat}
    (hfree : (censusOf w).links n name = none)
    (hins : Inserted L L' (ino, name)) : censusOf (set w n (some ⟨true, k', L'⟩)) =
    ((censusOf w).enter n name ino).relink n k' := by
  rw [censusOf_links h] at hfree
  refine censusOf_list (G := (censusOf w).links.put n name (some ino)) h
    (fun x y hx => Links.put_dir _ _ _ _ hx) fun y => ?_
  rw [hins.binding (binding_eq_none.mp hfree)]
  unfold rebind
  by_cases hy : y = name
  · rw [if_pos hy, hy, Links.put_same]
  · rw [if_neg hy, Links.put_name _ _ _ _ hy, censusOf_links h]

theorem censusOf_left (h : w n = some ⟨true, k, L⟩) (hd : Distinct L) {e : Dirent} (hrem : Removed L L' e) :
    censusOf (set w n (some ⟨true, k', L'⟩)) = ((censusOf w).leave n e.2).relink n k' := by
  refine censusOf_list (G := (censusOf w).links.put n e.2 none) h
    (fun x y hx => Links.put_dir _ _ _ _ hx) fun y => ?_
  rw [hrem.binding hd]
  unfold rebind
  by_cases hy : y = e.2
  · rw [if_pos hy, hy, Links.put_same]
  · rw [if_neg hy, Links.put_name _ _ _ _ hy, censusOf_links h]

theorem censusOf_relinked {nd : Node} (h : w n = some nd) :
    censusOf (set w n (some { nd with nlink := k })) = (censusOf w).relink n k := by
  apply Census.ext
  · funext x
    show (set w n _ x).map Node.dir = (w x).map Node.dir
    by_cases hx : x = n
    · rw [hx, set_self, h]
      rfl
    · rw [set_ne _ _ hx]
  · funext x
    show ((set w n _ x).map Node.nlink).getD 0 = if x = n then k else ((w x).map Node.nlink).getD 0
    by_cases hx : x = n
    · rw [hx, set_self, if_pos rfl]
      rfl
    · rw [set_ne _ _ hx, if_neg hx]
  · funext x name
    show ((set w n _ x).bind fun nd => if nd.dir then binding nd.list name else none) =
      (w x).bind fun nd => if nd.dir then binding nd.list name else none
    by_cases hx : x = n
    · rw [hx, set_self, h]
      rfl
    · rw [set_ne _ _ hx]

theorem censusOf_born (h : w n = none) (dir : Bool) :
    censusOf (set w n (some ⟨dir, k, []⟩)) = (censusOf w).born n dir k := by
  apply Census.ext
  · funext x
    show (set w n _ x).map Node.dir = if x = n then some dir else (w x).map Node.dir
    by_cases hx : x = n
    · rw [hx, set_self, if_pos rfl]
      rfl
    · rw [set_ne _ _ hx, if_neg hx]
  · funext x
    show ((set w n _ x).map Node.nlink).getD 0 = if x = n then k else ((w x).map Node.nlink).getD 0
    by_cases hx : x = n
    · rw [hx, set_self, if_pos rfl]
      rfl
    · rw [set_ne _ _ hx, if_neg hx]
  · funext x name
    show ((set w n _ x).bind fun nd => if nd.dir then binding nd.list name else none) =
      (w x).bind fun nd => if nd.dir then binding nd.list name else none
    by_cases hx : x = n
    · rw [hx, set_self, h]
      show (if dir then binding [] name else none) = none
      split <;> rfl
    · rw [set_ne _ _ hx]

theorem censusOf_gone : censusOf (set w n none) = (censusOf w).gone n := by
  apply Census.ext
  · funext x
    show (set w n _ x).map Node.dir = if x = n then none else (w x).map Node.dir
    by_cases hx : x = n
    · rw [hx, set_self, if_pos rfl]
      rfl
    · rw [set_ne _ _ hx, if_neg hx]
  · funext x
    show ((set w n _ x).map Node.nlink).getD 0 = if x = n then 0 else ((w x).map Node.nlink).getD 0
    by_cases hx : x = n
    · rw [hx, set_self, if_pos rfl]
      rfl
    · rw [set_ne _ _ hx, if_neg hx]
  · funext x name
    show ((set w n _ x).bind fun nd => if nd.dir then binding nd.list name else none) =
      (censusOf w).links.wipe n x name
    by_cases hx : x = n
    · rw [hx, set_self, Links.wipe_same]
      rfl
    · rw [set_ne _ _ hx, Links.wipe_ne _ _ hx]
      rfl

theorem Unique.set (hu : Unique w) {o : Option Node} (ho : ∀ nd, o = some nd → Distinct nd.list) :
    Unique (Names.set w n o) := by
  intro x nd hx
  by_cases hxn : x = n
  · rw [hxn, set_self] at hx
    exact ho nd hx
  · rw [set_ne _ _ hxn] at hx
    exact hu x nd hx

end Set

/-! ## Fit volumes -/

structure Fit (s : Mnt) (own : Own) : Prop where
  sound : Sound s own
  numbers : Numbers s.fs
  unique : Unique (worldOf s)

/-- From one fit volume to another, inodes outside `T` as they were. -/
structure Went (T : Nat → Prop) (s : Mnt) (own : Own) (t : Mnt) (own' : Own) :
    Prop extends Turned T s own t own' where
  numbers : Numbers t.fs
  unique : Unique (worldOf t)

section Went

variable {T T' : Nat → Prop} {s t u : Mnt} {own own' own'' : Own}

theorem Went.fit (h : Went T s own t own') : Fit t own' := ⟨h.sound, h.numbers, h.unique⟩

theorem Went.trans (h : Went T s own t own') (h' : Went T t own' u own'') : Went T s own u own'' :=
  ⟨h.toTurned.trans h'.toTurned, h'.numbers, h'.unique⟩

theorem Went.mono (h : Went T s own t own') (hT : ∀ k, T k → T' k) : Went T' s own t own' :=
  ⟨h.toTurned.mono hT, h.numbers, h.unique⟩

/-- A further turn that keeps to `T`. -/
theorem Went.next (h : Went T s own t own') (h' : Went T' t own' u own'') (hT : ∀ k, T' k → T k) :
    Went T s own u own'' := h.trans (h'.mono hT)

theorem Went.clear (h : Went T s own t own') (hno : ¬ Fault s) : ¬ Fault t :=
  fun hf => hno (h.toTurned.fault.mp hf)

theorem went_looked (hf : Fit s own) (ht : Looked s t) (T : Nat → Prop) : Went T s own t own := by
  obtain ⟨hst, hw⟩ := steady_looked (T := T) hf.sound ht
  exact ⟨hst.toTurned, hst.numbers hf.sound hf.numbers, by rw [hw]; exact hf.unique⟩

theorem looked_world (ht : Looked s t) : worldOf t = worldOf s := by
  obtain ⟨k, -, rfl⟩ := ht
  rfl

theorem looked_census (ht : Looked s t) : census t = census s := congrArg censusOf (looked_world ht)

theorem Current.looked {n : Nat} {ip : Inode} (h : Current s n ip) (ht : Looked s t) : Current t n ip := by
  obtain ⟨k, -, rfl⟩ := ht
  exact ⟨h.ino, h.mode, h.size, h.addr⟩

theorem Fit.looked (hf : Fit s own) (ht : Looked s t) : Fit t own := (went_looked hf ht fun _ => False).fit

theorem looked_clear (ht : Looked s t) (hno : ¬ Fault s) : ¬ Fault t := fun hf => hno (ht.fault hf)

/-- Two copies of one inode that are both current. -/
theorem Current.same {n : Nat} {ip ip' : Inode} (hd : t.fs.desc = s.fs.desc) (h : Current s n ip)
    (ht : Current t n ip) (h' : Current s n ip') : Current t n ip' := by
  refine ⟨h'.ino, ?_, ?_, ?_⟩
  · rw [h'.mode, ← h.mode, ht.mode]
  · rw [h'.size, ← h.size, ht.size]
  · intro i hi
    have hi' : i < s.fs.desc.niaddr := by
      rw [← hd]
      exact hi
    rw [h'.addr i hi', ← h.addr i hi', ht.addr i hi]

/-- An inode with its blocks and what is in them, and its record but for the link count. -/
structure Intact (k : Nat) (s : Mnt) (own : Own) (t : Mnt) (own' : Own) : Prop extends Still k s own t where
  held : ∀ b p, own b = some (k, p) → own' b = some (k, p)
  copy : ∀ ip, Current s k ip → Current t k ip

theorem Intact.trans {k : Nat} (h : Intact k s own t own') (h' : Intact k t own' u own'') :
    Intact k s own u own'' := by
  refine ⟨⟨sameVol_law.trans h.toSameVol h'.toSameVol, fun b p hb => ?_⟩, fun b p hb =>
    h'.held b p (h.held b p hb), fun ip hip => h'.copy ip (h.copy ip hip)⟩
  have hsame := h'.same b p (h.held b p hb)
  rw [shape_blockOf h.shape] at hsame
  exact hsame.trans (h.same b p hb)

/-- Nothing has happened to an inode outside `T`. -/
theorem Went.intact (h : Went T s own t own') {k : Nat} (hv : ValidIno s.fs k) (hk : ¬ T k) :
    Intact k s own t own' :=
  ⟨h.apart.still hk, fun b p hb => h.apart.held b k p hb hk, fun _ hip => h.toTurned.current hv hk hip⟩

theorem intact_looked (hf : Fit s own) (ht : Looked s t) {k : Nat} (hv : ValidIno s.fs k) :
    Intact k s own t own :=
  (went_looked hf ht fun _ => False).intact hv id

/-- What the census says of a live inode, its record says. -/
theorem valid_of_kind {n : Nat} {b : Bool} (h : (census s).kind n = some b) :
    ValidIno s.fs n ∧ Live s.fs s.img n ∧
    modeIsDir s.fs.desc (recordOf s.fs s.img n) = b ∧ (recordOf s.fs s.img n).nlink = (census s).nlink n := by
  obtain ⟨k, L, hn⟩ := node_of_kind h
  obtain ⟨h1, h2, h3, h4⟩ := worldOf_some hn
  exact ⟨h1, h2, h3.symm, h4.symm.trans (censusOf_nlink hn).symm⟩

end Went

/-! ## Link counts -/

/-- The most an edition's records can count. -/
def linkMax (d : Desc) : Int := if d.ops = .v1 ∨ d.ops = .v6 then 255 else 32767

theorem toInt16_fit {k : Int} (h : -32768 ≤ k) (hk : k ≤ 32767) : toInt16 k = k := by
  unfold toInt16
  omega

theorem storeNlink_fit {d : Desc} {k : Int} (h : 0 ≤ k) (hk : k ≤ linkMax d) : storeNlink d k = k := by
  unfold linkMax at hk
  unfold storeNlink
  split
  · rename_i hv
    rw [if_pos hv] at hk
    omega
  · rename_i hv
    rw [if_neg hv] at hk
    exact toInt16_fit (by omega) hk

theorem linkMax_le (d : Desc) : linkMax d ≤ 32767 := by
  unfold linkMax
  split <;> decide

theorem linkMax_nonneg (d : Desc) : 0 ≤ linkMax d := by
  unfold linkMax
  split <;> decide

theorem storeNlink_le (d : Desc) (k : Int) : storeNlink d k ≤ linkMax d := by
  unfold linkMax storeNlink
  split
  · omega
  · unfold toInt16
    omega

/-- A count read from a record goes back as it is. -/
theorem storeNlink_read {s : Mnt} (hl : RecordLayout s.fs.desc) (n : Nat) :
    storeNlink s.fs.desc (recordOf s.fs s.img n).nlink = (recordOf s.fs s.img n).nlink :=
  (stored_recordOf hl s.img n).nlink.symm

/-- A copy with another link count. -/
theorem Current.relinked {s : Mnt} {n : Nat} {ip : Inode} (h : Current s n ip) (k : Int) :
    Current s n { ip with nlink := k } :=
  ⟨h.ino, h.mode, h.size, h.addr⟩

theorem sameIno_fileWrite (buf : Buf) (size : Nat) (off : Int) :
    Keeps (fun a b : Mnt × Loc => SameIno a.1 b.1) (filsysFileWrite buf size off) :=
  (sameIno_law.toWriteLaw.filsysFileWrite buf size off).mono fun h => (h trivial).1

/-! ## Room -/

/-- An entry more leaves directory `d` within the largest file. -/
def Takes (s : Mnt) (d : Nat) : Prop :=
  Full s.fs s.img (recordOf s.fs s.img d) →
    (recordOf s.fs s.img d).size + s.fs.desc.direntSize ≤ maxFile s.fs.desc

section Takes

variable {T : Nat → Prop} {s t : Mnt} {own own' : Own} {n : Nat} {ip ip' : Inode}

/-- Whether there is room in a directory is a matter of its entries and its size. -/
theorem full_iff (hs : Fit s own) (ht : Fit t own') (hc : Current s n ip) (hc' : Current t n ip')
    (hn : (census s).kind n = some true) (hw : worldOf t n = worldOf s n) (hd : t.fs.desc = s.fs.desc)
    (hsize : ip'.size = ip.size) : Full t.fs t.img ip' ↔ Full s.fs s.img ip := by
  obtain ⟨k, L, hL⟩ := node_of_kind hn
  unfold Full
  rw [hs.sound.listing hc hL, ht.sound.listing hc' (hw.trans hL), hsize, hd]

theorem full_record (hs : Fit s own) (hc : Current s n ip) (hn : (census s).kind n = some true) :
    Full s.fs s.img (recordOf s.fs s.img n) ↔ Full s.fs s.img ip :=
  full_iff hs hs hc (current_recordOf hs.sound.owned.layout.toRecordLayout n) hn rfl rfl hc.size.symm

theorem Takes.copy (h : Takes s n) (hs : Fit s own) (hc : Current s n ip) (hn : (census s).kind n = some true)
    (hfull : Full s.fs s.img ip) : ip.size + s.fs.desc.direntSize ≤ maxFile s.fs.desc := by
  rw [hc.size]
  exact h ((full_record hs hc hn).mpr hfull)

theorem takes_of_gap (hs : Fit s own) (hc : Current s n ip) (hn : (census s).kind n = some true)
    (hgap : ¬ Full s.fs s.img ip) : Takes s n :=
  fun hfull => absurd ((full_record hs hc hn).mp hfull) hgap

theorem takes_of_size (hc : Current s n ip)
    (hsize : ip.size + s.fs.desc.direntSize ≤ maxFile s.fs.desc) : Takes s n := by
  intro _
  rw [← hc.size]
  exact hsize

theorem Takes.looked (h : Takes s n) (ht : Looked s t) : Takes t n := by
  obtain ⟨k, -, rfl⟩ := ht
  exact h

/-- An inode outside `T` has the room it had. -/
theorem Takes.went (h : Takes s n) (hs : Fit s own) (hw : Went T s own t own') (hT : ¬ T n)
    (hn : (census s).kind n = some true) : Takes t n := by
  have hold : Current s n (recordOf s.fs s.img n) :=
    current_recordOf hs.sound.owned.layout.toRecordLayout n
  have hnew : Current t n (recordOf s.fs s.img n) := hw.current (valid_of_kind hn).1 hT hold
  have hkeep : worldOf t n = worldOf s n := world_apart hs.sound hw.apart hT
  intro hfull
  have hk : (census t).kind n = some true := (congrArg (Option.map Node.dir) hkeep).trans hn
  rw [← hnew.size, hw.desc]
  exact h ((full_iff hs hw.fit hold hnew hn hkeep hw.desc rfl).mp ((full_record hw.fit hnew hk).mp hfull))

end Takes

/-! ## Looking -/

section Routines

variable {s : Mnt} {own : Own} (hf : Fit s own) (hno : ¬ Fault s)

include hf hno

/-- A live inode is read as it is. -/
theorem post_readLive {n : Nat} {b : Bool} (hn : (census s).kind n = some b) : Post (readInode n s)
    (fun ip t => Looked s t ∧ Current t n ip ∧ ip.nlink = (census s).nlink n ∧
      modeIsDir s.fs.desc ip = b ∧ ip = recordOf s.fs s.img n) (fun _ _ => False) := by
  obtain ⟨hvalid, -, hdir, hlink⟩ := valid_of_kind hn
  refine (post_inodeIn hf.sound.owned.mounted n).mono ?_ fun _ t he => hno (he.1 hvalid)
  intro ip t h
  obtain ⟨rfl, -, ht⟩ := h
  exact ⟨ht, (current_recordOf hf.sound.owned.layout.toRecordLayout n).looked ht, hlink, hdir, rfl⟩

theorem post_lookupFit {n : Nat} {ip : Inode} (hc : Current s n ip) (hn : (census s).kind n = some true)
    {name : Name} (h0 : 0 ∉ name)
    (hname : name.length ≤ s.fs.desc.maxNamlen) : Post (lookupIn ip name s)
    (fun m t => Looked s t ∧ (census s).links n name = some m)
    (fun e t => Looked s t ∧ e = .enoent ∧ (census s).links n name = none) := by
  obtain ⟨k, L, hw⟩ := node_of_kind hn
  have hstem : stem s.fs.desc name = name := List.take_of_length_le hname
  have hspec := post_lookupIn hf.sound hc hw h0
  rw [hstem] at hspec
  apply hspec.mono
  · intro m t h
    obtain ⟨⟨e, he, rfl⟩, ht⟩ := h
    refine ⟨ht, ?_⟩
    show (censusOf (worldOf s)).links n name = _
    rw [censusOf_links hw]
    exact congrArg (Option.map Prod.fst) he
  · intro e t h
    rcases h with ⟨⟨rfl, hnone⟩ | hfault, ht⟩
    · refine ⟨ht, rfl, ?_⟩
      show (censusOf (worldOf s)).links n name = _
      rw [censusOf_links hw]
      exact congrArg (Option.map Prod.fst) hnone
    · exact absurd hfault hno

/-- The same on a copy the caller keeps. -/
theorem post_lookupOn {n : Nat} {ip : Inode} (hc : Current s n ip) (hn : (census s).kind n = some true)
    {name : Name} (h0 : 0 ∉ name)
    (hname : name.length ≤ s.fs.desc.maxNamlen) {E : Errno → Mnt → Prop} : Post (onIp ip (dirLookup name) s)
    (fun r t => Looked s t ∧ r.2 = ip ∧ match r.1 with
      | .ok m => (census s).links n name = some m
      | .error e => e = .enoent ∧ (census s).links n name = none) E := by
  obtain ⟨k, L, hw⟩ := node_of_kind hn
  have hstem : stem s.fs.desc name = name := List.take_of_length_le hname
  have hspec := post_dirLookup (l := ⟨ip, []⟩) hf.sound.owned hf.sound.format.fixed
    (hf.sound.folder hc hw rfl).directory h0
  rw [show listing s.fs s.img (⟨ip, []⟩ : Loc).ip = L from hf.sound.listing hc hw, hstem] at hspec
  refine post_onIp (hspec.mono ?_ ?_)
  · intro m x h
    obtain ⟨t, l⟩ := x
    obtain ⟨⟨e, he, rfl⟩, ht, hl⟩ := h
    obtain rfl : l = ⟨ip, []⟩ := hl
    refine ⟨ht, rfl, ?_⟩
    show (censusOf (worldOf s)).links n name = _
    rw [censusOf_links hw]
    exact congrArg (Option.map Prod.fst) he
  · intro e x h
    obtain ⟨t, l⟩ := x
    rcases h with ⟨⟨rfl, hnone⟩ | hfault, ht, hl⟩
    · obtain rfl : l = ⟨ip, []⟩ := hl
      refine ⟨ht, rfl, rfl, ?_⟩
      show (censusOf (worldOf s)).links n name = _
      rw [censusOf_links hw]
      exact congrArg (Option.map Prod.fst) hnone
    · exact absurd hfault hno

/-- Is there nothing in the directory but its own two names? -/
theorem post_emptyFit {n : Nat} (hn : (census s).kind n = some true) : Post (dirIsEmpty n s)
    (fun r t => Looked s t ∧ (r = true → ∀ name, Census.ProperName name →
      (census s).links n name = none)) (fun _ _ => False) := by
  obtain ⟨hvalid, hlive, hdir, -⟩ := valid_of_kind hn
  obtain ⟨k, L, hw⟩ := node_of_kind hn
  have hspec := post_dirIsEmpty hf.sound.owned hf.sound.format.fixed fun _ =>
    hf.sound.folders n hvalid hlive hdir
  refine hspec.mono ?_ fun _ t he => hno (he.1 hvalid hdir)
  intro r t hr
  obtain ⟨-, rfl, ht⟩ := hr
  refine ⟨ht, fun hall name hname => ?_⟩
  have hlist : listing s.fs s.img (recordOf s.fs s.img n) = L := (worldOf_dir.mp hw).2.2.2
  rw [hlist] at hall
  show (censusOf (worldOf s)).links n name = _
  rw [censusOf_links hw, binding_eq_none]
  rintro x hx rfl
  have hdots := List.all_eq_true.mp hall x hx
  rcases of_decide_eq_true hdots with h | h
  · exact hname.1 h
  · exact hname.2 h

/-! ## Changing names -/

theorem post_outFit {n : Nat} {ip : Inode} (hc : Current s n ip) {b : Bool}
    (hn : (census s).kind n = some b) (h0 : 0 ≤ ip.nlink)
    (hmax : ip.nlink ≤ linkMax s.fs.desc) : Post (writeInode n ip s)
    (fun _ t => Went (· = n) s own t own ∧ Intact n s own t own ∧
      census t = (census s).relink n ip.nlink) (fun _ _ => False) := by
  obtain ⟨k, L, hw⟩ := node_of_kind hn
  refine ((post_out hf.sound hc hw).and (post_inodeOut hf.sound.owned n ip)).mono ?_
    fun _ _ hfault => hno hfault.1
  intro _ t h
  obtain ⟨⟨hst, hcur, hwt⟩, hout⟩ := h
  rw [storeNlink_fit h0 hmax] at hwt
  refine ⟨⟨hst.toTurned, hst.numbers hf.sound hf.numbers, ?_⟩,
    ⟨hout.still hf.sound.owned n, fun _ _ hb => hb, fun _ hip => hc.same hst.toTurned.desc hcur hip⟩, ?_⟩
  · rw [hwt]
    apply hf.unique.set
    rintro nd he
    cases he
    exact hf.unique n ⟨b, k, L⟩ hw
  · unfold census
    rw [hwt]
    exact censusOf_relinked hw

/-- A name is entered, and the copy's link count goes out with it. -/
theorem post_addFit {n : Nat} {ip : Inode} (hc : Current s n ip) (hn : (census s).kind n = some true)
    {name : Name} (hname : NameOk s.fs.desc name)
    (hfree : (census s).links n name = none) {ino : Nat} (hino : ino ≠ 0) (h16 : ino < 65536)
    (hroom : Takes s n) (h0 : 0 ≤ ip.nlink) (hmax : ip.nlink ≤ linkMax s.fs.desc) {E : Errno → Mnt → Prop} :
    Post (onIp ip (dirAdd ino name) s)
    (fun r t => match r.1 with
      | .ok _ =>
        ∃ own', Went (· = n) s own t own' ∧ Current t n r.2 ∧ r.2.nlink = ip.nlink ∧
          r.2.size ≤ ip.size + s.fs.desc.direntSize ∧
          census t = ((census s).enter n name ino).relink n ip.nlink
      | .error _ =>
        Full s.fs s.img ip ∧ ∃ own', Went (· = n) s own t own' ∧ Current t n ip ∧
          worldOf t = worldOf s ∧ View s.fs.desc own' n r.2) E := by
  obtain ⟨k, L, hw⟩ := node_of_kind hn
  refine (post_addOn hf.sound hc hw hname hino h16 (hroom.copy hf hc hn)).mono ?_ fun _ _ h => h
  intro p t h
  obtain ⟨rc, ip'⟩ := p
  cases rc with
  | ok _ =>
    obtain ⟨own', L', hst, hcur, hlink, hins, hwt, hsize⟩ := h
    rw [storeNlink_fit h0 hmax] at hwt
    have hfresh : ∀ x ∈ L, x.2 ≠ name := by
      have hb : binding L name = none := (censusOf_links hw name).symm.trans hfree
      exact binding_eq_none.mp hb
    refine ⟨own', ⟨hst.toTurned, hst.numbers hf.sound hf.numbers, ?_⟩, hcur, hlink, hsize, ?_⟩
    · rw [hwt]
      apply hf.unique.set
      rintro nd he
      cases he
      exact hins.distinct (hf.unique n _ hw) hfresh
    · unfold census
      rw [hwt]
      exact censusOf_entered hw hfree hins
  | error e =>
    obtain ⟨hfull, own', hst, hcur, hwt, hview⟩ := h.resolve_left hno
    refine ⟨hfull, own', ⟨hst.toTurned, hst.numbers hf.sound hf.numbers, ?_⟩, hcur, hwt, hview⟩
    rw [hwt]
    exact hf.unique

/-- A name is taken out, and the copy's link count goes out with it. -/
theorem post_removeFit {n : Nat} {ip : Inode} (hc : Current s n ip) (hn : (census s).kind n = some true)
    {name : Name} (hz : 0 ∉ name)
    (hshort : name.length ≤ s.fs.desc.maxNamlen) {m : Nat} (hm : (census s).links n name = some m)
    (h0 : 0 ≤ ip.nlink)
    (hmax : ip.nlink ≤ linkMax s.fs.desc) {E : Errno → Mnt → Prop} : Post (onIp ip (dirRemove name) s)
    (fun r t => (∃ a, r.1 = .ok a) ∧ ∃ own', Went (· = n) s own t own' ∧ Current t n r.2 ∧
      r.2.nlink = ip.nlink ∧ r.2.size = ip.size ∧
      ¬ Full t.fs t.img r.2 ∧ census t = ((census s).leave n name).relink n ip.nlink) E := by
  obtain ⟨k, L, hw⟩ := node_of_kind hn
  have hstem : stem s.fs.desc name = name := List.take_of_length_le hshort
  have hspec := post_removeOn hf.sound hc hw hz (E := E)
  rw [hstem] at hspec
  refine hspec.mono ?_ fun _ _ h => h
  intro x t h
  obtain ⟨rc, ip'⟩ := x
  cases rc with
  | ok a =>
    obtain ⟨own', L', e, hst, hcur, hlink, hname, hrem, hwt, hfull, hsize⟩ := h
    rw [storeNlink_fit h0 hmax] at hwt
    refine ⟨⟨a, rfl⟩, own', ⟨hst.toTurned, hst.numbers hf.sound hf.numbers, ?_⟩, hcur, hlink, hsize, hfull, ?_⟩
    · rw [hwt]
      apply hf.unique.set
      rintro nd he
      cases he
      exact hrem.distinct (hf.unique n _ hw)
    · unfold census
      rw [hwt, ← hname]
      exact censusOf_left hw (hf.unique n _ hw) hrem
  | error e =>
    obtain ⟨-, hnone, -⟩ := h.resolve_left hno
    have hb : binding L name = some m := (censusOf_links hw name).symm.trans hm
    unfold binding at hb
    rw [hnone] at hb
    cases hb

omit hno in
/-- The data of a file is written, its size within its field or not; where that fails its record
    has not gone out. -/
theorem post_writeOn {n : Nat} {ip : Inode} (hc : Current s n ip) (hn : (census s).kind n = some false)
    (hv : View s.fs.desc own n ip)
    (hlink : ip.nlink = (census s).nlink n) (buf : Buf)
    {size off : Nat} (hmap : Mappable s.fs (off + size))
    {E : Errno → Mnt → Prop} : Post (onIp ip (filsysFileWrite buf size off) s)
    (fun r t => match r.1 with
      | .ok _ =>
        ∃ own', Went (· = n) s own t own' ∧ Filed anything n buf off (off + size) s own ip t own' r.2 ∧
          worldOf t = worldOf s
      | .error _ =>
        ∃ own', Went (· = n) s own t own' ∧
          Unfiled anything n buf off (off + size) s own ip t own' r.2 ∧ View s.fs.desc own' n r.2 ∧
          Current t n ip ∧ worldOf t = worldOf s) E := by
  obtain ⟨k, L, hw⟩ := node_of_kind hn
  obtain ⟨hvalid, -, -, hrec⟩ := valid_of_kind hn
  have hL : L = [] := by
    have hw' := hw
    unfold worldOf nodeOf at hw'
    split at hw'
    · rw [Option.some.injEq, Node.mk.injEq] at hw'
      rw [← hw'.2.2, if_neg (by rw [hw'.1]; exact Bool.false_ne_true)]
    · cases hw'
  have hspec := (post_filsysFileWrite (S := anything) (l := ⟨ip, []⟩) trivial buf size off
    hf.sound.owned hv hc.ino hmap
    fun x _ _ => .inr fun _ _ _ _ _ _ _ => trivial).and (sameIno_fileWrite buf size off (s, ⟨ip, []⟩))
  refine post_onIp (hspec.mono ?_ ?_)
  · intro m p h
    obtain ⟨t, l⟩ := p
    obtain ⟨⟨-, -, own', hfiled⟩, hino⟩ := h
    obtain ⟨ip₁, hcopy, hip⟩ := hfiled.copy
    have hip : l.ip = resized ip₁ (off + size) := hip
    -- the copy as its record has it
    have hlt : l.ip.size % 2 ^ sizeLen s.fs.desc < 2 ^ sizeLen s.fs.desc := Nat.mod_lt _ (Nat.two_pow_pos _)
    have hstored : Stored s.fs.desc n { l.ip with size := l.ip.size % 2 ^ sizeLen s.fs.desc }
        (recordOf s.fs t.img n) := by
      have hst := hfiled.stored
      exact ⟨hst.ino, hst.mode, hst.nlink, hst.size.trans (Nat.mod_mod _ _).symm, hst.addr, hst.none⟩
    have he : Changed n s own ip t own' { l.ip with size := l.ip.size % 2 ^ sizeLen s.fs.desc } := by
      refine ⟨hfiled.path.owned hf.sound.owned, hfiled.apart, hfiled.view.congr rfl rfl, hstored, ?_, ?_, ?_⟩
      · show l.ip.ino = ip.ino
        rw [hip, resized_ino]
        exact hcopy.ino
      · show l.ip.nlink = ip.nlink
        rw [hip, resized_nlink]
        exact hcopy.nlink
      · show l.ip.mode = ip.mode ∨ l.ip.mode = ip.mode ||| s.fs.desc.ilargMask
        rw [hip, resized_mode]
        exact hcopy.mode
    obtain ⟨hst, -, hwt⟩ := steady_changed hf.sound hc hw hino he hlt nofun
    have hsame : worldOf t = worldOf s := by
      rw [hwt]
      apply set_same
      rw [hw, hL]
      congr 2
      rw [hlink, ← hrec, storeNlink_read hf.sound.owned.layout.toRecordLayout, hrec]
      exact (censusOf_nlink hw).symm
    refine ⟨own', ⟨hst.toTurned, hst.numbers hf.sound hf.numbers, ?_⟩, hfiled, hsame⟩
    rw [hsame]
    exact hf.unique
  · intro e p h
    obtain ⟨t, l⟩ := p
    obtain ⟨⟨⟨-, own', hu⟩, -⟩, hino⟩ := h
    obtain ⟨hst, hcur, hsame⟩ : Steady (· = n) s own t own' ∧ Current t n ip ∧ worldOf t = worldOf s := by
      obtain ⟨mid, ip₁, -, -, hwrote, -⟩ := hu
      exact steady_framed hf.sound hc hw hino hwrote.path hwrote.frame nofun
    have hview : View s.fs.desc own' n l.ip := by
      obtain ⟨mid, ip₁, -, -, hwrote, hip⟩ := hu
      rcases hip with hip | ⟨hip, -⟩
      · exact hwrote.view.congr (congrArg Inode.mode hip) (congrArg Inode.addr hip)
      · exact hwrote.view.congr ((congrArg Inode.mode hip).trans (resized_mode ..))
          ((congrArg Inode.addr hip).trans (resized_addr ..))
    refine ⟨own', ⟨hst.toTurned, hst.numbers hf.sound hf.numbers, ?_⟩, hu, hview, hcur, hsame⟩
    rw [hsame]
    exact hf.unique

end Routines

/-! ## Standing volumes -/

/-- An entry names an inode its sixteen bits have room for. -/
theorem links_lt {s : Mnt} {d n : Nat} {name : Name} (h : (census s).links d name = some n) :
    n ≠ 0 ∧ n < 65536 := by
  have hnode : ∃ nd, worldOf s d = some nd ∧ (if nd.dir then binding nd.list name else none) = some n :=
    Option.bind_eq_some_iff.mp h
  obtain ⟨⟨dir, k, L⟩, hw, hb⟩ := hnode
  cases dir with
  | false => cases hb
  | true =>
    have hb : binding L name = some n := hb
    obtain ⟨-, -, -, hlist⟩ := worldOf_dir.mp hw
    obtain ⟨e, he, rfl⟩ := Option.map_eq_some_iff.mp hb
    have hmem : e ∈ L := List.mem_of_find?_eq_some he
    rw [← hlist] at hmem
    obtain ⟨hslot, huse⟩ := List.mem_filter.mp hmem
    obtain ⟨j, -, -, rfl⟩ := mem_slotsFrom.mp hslot
    refine ⟨by simpa [inUse] using huse, ?_⟩
    have hlt := num_lt (ByteOrder.perm_sig16 s.fs.desc.bo) (byteOf s.fs s.img (recordOf s.fs s.img d))
      (j * s.fs.desc.direntSize)
    rwa [ByteOrder.length_sig16] at hlt

/-- The volume has got to one with the census `c`, inodes outside `T` as they were, and the files that
    are left intact. -/
def Becomes (T : Nat → Prop) (s : Mnt) (own : Own) (t : Mnt) (c : Census) : Prop :=
  ∃ own', Went T s own t own' ∧ census t = c ∧ ∀ k, (census s).kind k = some false →
  c.kind k = some false → Intact k s own t own'

/-- Where no file is written. -/
theorem Went.becomes {T : Nat → Prop} {s t : Mnt} {own own' : Own} (h : Went T s own t own')
    (hT : ∀ k, T k → (census s).kind k ≠ some false) {c : Census}
    (hc : census t = c) : Becomes T s own t c :=
  ⟨own', h, hc, fun k hk _ => h.intact (valid_of_kind hk).1 fun hTk => hT k hTk hk⟩

theorem Becomes.mono {T T' : Nat → Prop} {s t : Mnt} {own : Own} {c : Census} (h : Becomes T s own t c)
    (hT : ∀ k, T k → T' k) : Becomes T' s own t c := by
  obtain ⟨own', hw, hrest⟩ := h
  exact ⟨own', hw.mono hT, hrest⟩

theorem becomes_looked {s t : Mnt} {own : Own} (hf : Fit s own) (ht : Looked s t) (T : Nat → Prop) :
    Becomes T s own t (census s) :=
  ((went_looked hf ht fun _ => False).becomes (fun _ hn => hn.elim) (looked_census ht)).mono fun _ hn => hn.elim

/-- A fit volume with a consistent tree of names, and no transfer failing. -/
structure Standing (s : Mnt) (own : Own) : Prop where
  fit : Fit s own
  consistent : (census s).Consistent s.fs.desc.rootino
  clear : ¬ Fault s

namespace Standing

variable {s : Mnt} {own : Own} (h : Standing s own)

include h

theorem nlink_nonneg (n : Nat) : 0 ≤ (census s).nlink n := by
  by_cases hn : (census s).kind n = none
  · exact (censusOf_dead (kind_eq_none.mp hn)).1.ge
  · exact h.consistent.nlink_nonneg hn

/-- What a record counts is within its field. -/
theorem nlink_le (n : Nat) : (census s).nlink n ≤ linkMax s.fs.desc := by
  by_cases hn : (census s).kind n = none
  · have hzero : (census s).nlink n = 0 := (censusOf_dead (kind_eq_none.mp hn)).1
    rw [hzero]
    exact linkMax_nonneg s.fs.desc
  · obtain ⟨b, hb⟩ := Option.ne_none_iff_exists'.mp hn
    rw [← (valid_of_kind hb).2.2.2, ← storeNlink_read h.fit.sound.owned.layout.toRecordLayout]
    exact storeNlink_le s.fs.desc _

theorem dots : 2 ≤ s.fs.desc.maxNamlen := h.fit.sound.format.dots

theorem fresh : 2 * s.fs.desc.direntSize ≤ maxFile s.fs.desc := h.fit.sound.format.fresh

/-- A directory's number fits an entry. -/
theorem dir_lt {d : Nat} (hd : (census s).kind d = some true) : d ≠ 0 ∧ d < 65536 :=
  links_lt (h.consistent.tree.selves d hd)

end Standing

end Filsys.Names
