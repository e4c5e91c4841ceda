/-
  Filsys.Mount.Scans — what an open computes from a superblock it has not checked yet
  (v7fs.c, alloc_freelist.c, alloc_v8bitmap.c).

  `v7fs_open` decodes the superblock, recomputes what the format does not keep, and only
  then looks whether the i-list and the volume are of a size that can be. A recount walks
  the i-list up to `v7_maxinode`, where `isize - 2` wraps for an `isize` of 0 or 1, and
  the comment at the late check names just that loop. The formats that keep their totals
  scan nothing; the others scan before the check.

  (1) Watched, an open notes every recount and every load of bitmap blocks with the
      superblock it starts from (`v7fsOpenSeen`, `v7fsOpenSeen_erases`);
  (2) what it notes is the superblock of the image, once, in the formats that recount
      or load (`logOf_v7fsOpenSeen`);
  (3) so an open is guarded exactly when there is nothing to scan or the superblock
      passes the check (`opens_scan_checked_superblocks_iff`); a file of zeros is no
      32V volume but is recounted as one (`a_blank_32v_image_is_recounted`).
-/

import Filsys.Alloc.Bound
import Filsys.Mount.Refusal

namespace Filsys.Mount

open Filsys.Lib Filsys.Engine

/-! ## Watching an open -/

/-- A scan of the volume, with the superblock it is derived from. -/
inductive Scan
  /-- `v7_count_free`, `v6_count_free`: the chain, and the i-list up to `v7_maxinode`. -/
  | totals (fs : Fs)
  /-- The bitmap blocks at the tail. -/
  | bitmap (fs : Fs)

def Scan.fs : Scan → Fs
  | totals fs => fs
  | bitmap fs => fs

/-- A routine that notes the scans it makes. -/
abbrev MS (α : Type) := Watched Errno Mnt Scan α

def countFreeNoted : MS Unit := do
  let fs ← unwatched getFs
  note (.totals fs)
  unwatched countFree

def v8BitmapLoadSeen (sb : Buf) : MS Unit := do
  let fs ← unwatched getFs
  if fs.desc.freemap = .bigmap then
    note (.bitmap fs)
    unwatched (v8BitmapLoad sb)
  else unwatched (v8BitmapLoad sb)

def v7OpenTotalsSeen (sb : Buf) : MS Unit := do
  let fs ← unwatched getFs
  let d := fs.desc
  if d.sbCodec then return ()
  else if d.isizeCount then countFreeNoted
  else if !d.pack4 ∨ d.magic ≠ 0 then
    let toff := sbTfreeOff d.pack4 d.nicfree d.hasDinfo
    unwatched (modFs fun fs => { fs with tfree := d.bo.get32 sb toff, tinode := d.bo.get16 sb (toff + 4) })
  else countFreeNoted

/-- `v7fs_open` from the interleave on: the checks that come last. -/
def v7OpenChecks (d : Desc) (sb : Buf) : M Unit := do
  let tm := sbTimeOff d.pack4 d.nicfree
  onlyIf d.interleave <|
    modFs fun fs => { fs with
      m := d.bo.get16 sb (tm + 10), n := d.bo.get16 sb (tm + 12), unique := d.bo.get32 sb (tm + 26) }
  if !d.ignoreMagic ∧ d.magic ≠ 0 ∧ d.bo.get32 sb d.magicOff ≠ d.magic then throw .einval
  else
    let s ← get
    let fs := s.fs
    if fs.isize < (if d.isizeCount then 1 else 2) ∨ s.size < fs.base + fs.fsize * d.bsize ∨
      fs.fsize ≤ v7DataFirst fs
    then throw .einval
    else modFs fun fs => { fs with imgsize := s.size }

def v7fsOpenSeen (readonly : Bool) (proto : Desc) (offset : Nat) : MS Unit := do
  unwatched (modFs fun _ => { desc := proto, readonly := readonly, base := offset })
  unwatched openImage
  let sb ← unwatched v7OpenSuper
  unwatched (modFs fun fs => sbDecode fs sb)
  let fs ← unwatched getFs
  if fs.desc.nicfree < fs.nfree ∨ fs.desc.nicinod < fs.ninode then throw .einval
  else
    onlyIf (fs.desc.sbCodec ∧ fs.desc.freemap ≠ .list) (failAs .eio (v8BitmapLoadSeen sb))
    v7OpenTotalsSeen sb
    unwatched (v7OpenChecks fs.desc sb)

theorem countFreeNoted_erases : Erases countFreeNoted countFree :=
  fun s l => erases_unwatched countFree s (Scan.totals s.fs :: l)

theorem v8BitmapLoadSeen_erases (sb : Buf) : Erases (v8BitmapLoadSeen sb) (v8BitmapLoad sb) := by
  intro s l
  show bare ((if s.fs.desc.freemap = .bigmap then (note (.bitmap s.fs) >>= fun _ =>
    unwatched (v8BitmapLoad sb)) else unwatched (v8BitmapLoad sb) : MS Unit) (s, l)) = _
  split
  · exact erases_unwatched (v8BitmapLoad sb) s (Scan.bitmap s.fs :: l)
  · exact erases_unwatched (v8BitmapLoad sb) s l

theorem v7OpenTotalsSeen_erases (sb : Buf) : Erases (v7OpenTotalsSeen sb) (v7OpenTotals sb) :=
  erases_bind (erases_unwatched getFs) fun _ => erases_ite (fun _ => erases_pure _) fun _ =>
  erases_ite (fun _ => countFreeNoted_erases)
    fun _ => erases_ite (fun _ => erases_unwatched _) fun _ => countFreeNoted_erases

/-- Its notes left out, the watched open is the open. -/
theorem v7fsOpenSeen_erases (readonly : Bool) (proto : Desc) (offset : Nat) :
    Erases (v7fsOpenSeen readonly proto offset) (v7fsOpen readonly proto offset) := by
  refine erases_bind (erases_unwatched _) fun _ => ?_
  refine erases_bind (erases_unwatched _) fun _ => ?_
  refine erases_bind (erases_unwatched _) fun sb => ?_
  refine erases_bind (erases_unwatched _) fun _ => ?_
  refine erases_bind (erases_unwatched _) fun fs => ?_
  refine erases_ite (fun _ => erases_throw _) fun _ => ?_
  refine erases_bind (erases_onlyIf fun _ => erases_failAs (v8BitmapLoadSeen_erases sb)) fun _ => ?_
  refine erases_bind (v7OpenTotalsSeen_erases sb) fun _ => ?_
  exact erases_unwatched _

/-! ## The superblock of the image -/

/-- The descriptor and the superblock bytes the image gives, if a read of them goes through and a System
    V one is such. -/
def superFound (proto : Desc) (offset : Nat) (s : Mnt) : Option (Desc × Buf) :=
  if proto.dynBsize then
    let probe := window s.img (512 + offset) 512
    let bsize := sysvBsize (proto.bo.get32 probe 508)
    if s.env.fails s.ios ∨ s.size < 512 + offset + 512 then none
    else if !proto.ignoreMagic ∧ proto.bo.get32 probe 504 ≠ sysvMagic then none
    else if bsize = 0 ∨ s.env.fails (s.ios + 1) then none
    else some ({ proto with bsize := bsize, nindir := bsize / proto.daddrWid }, probe)
  else if s.env.fails s.ios ∨ s.size < offset + 1 * proto.bsize + proto.bsize then none
  else some (proto, window s.img (offset + 1 * proto.bsize) proto.bsize)

/-- The superblock in core, its cache counts within their bounds. -/
def inCore (readonly : Bool) (proto : Desc) (offset : Nat) (s : Mnt) : Option Fs :=
  if s.env.openErr.isSome then none
  else
    match superFound proto offset s with
    | none => none
    | some (d, sb) =>
      let fs := sbDecode { desc := d, readonly := readonly, base := offset } sb
      if fs.desc.nicfree < fs.nfree ∨ fs.desc.nicinod < fs.ninode then none else some fs

/-- The format scans: its totals are recounted, or its bitmap lies in blocks of its own. -/
def Rescans (d : Desc) : Prop :=
  d.sbCodec = true ∧ d.freemap = .bigmap ∨ d.sbCodec = false ∧ (d.isizeCount = true ∨
    d.pack4 = true ∧ d.magic = 0)

instance (d : Desc) : Decidable (Rescans d) := inferInstanceAs (Decidable (_ ∨ _))

/-- What of the volume is scanned. -/
def scanOf (fs : Fs) : Scan := if fs.desc.sbCodec then .bitmap fs else .totals fs

section Reading

variable {s : Mnt} (hs : Solo s)

include hs

theorem post_ioRead_solo (n off : Nat) :
    Post (ioRead n off s) (fun b t => s.env.fails s.ios = false ∧ off + n ≤ s.size ∧
      b = window s.img off n ∧ t = ticked s)
      fun _ _ => s.env.fails s.ios = true ∨ s.size < off + n :=
  post_ioRead (fun hf hin => ⟨hf, hin, by rw [touch_solo hs]; rfl, touch_solo hs⟩) fun h => h

theorem post_v7OpenSuper (himg : s.fs.imgsize = 0) :
    Post (v7OpenSuper s) (fun sb t => superFound s.fs.desc s.fs.base s = some (t.fs.desc, sb) ∧
        ∃ k, t = { s with fs := { s.fs with desc := t.fs.desc }, ios := k })
      fun _ _ => superFound s.fs.desc s.fs.base s = none := by
  refine post_bindFs (post_ite ?_ ?_)
  · intro hdyn
    unfold superFound
    rw [if_pos hdyn]
    refine post_bind (post_failAs ((post_ioRead_solo hs 512 (512 + s.fs.base)).mono ?_
      fun _ _ hbad => if_pos hbad))
    intro probe t h
    obtain ⟨hf, hin, rfl, rfl⟩ := h
    have hgo : ¬ (s.env.fails s.ios = true ∨ s.size < 512 + s.fs.base + 512) := by
      rw [hf]
      simp
      omega
    simp only [if_neg hgo]
    refine post_ite (fun hmagic => if_pos hmagic) fun hmagic => ?_
    simp only [if_neg hmagic]
    refine post_ite (fun hb => if_pos (.inl hb)) fun hb =>
      post_bindMod (post_failAs (post_ioRead (fun hf' _ => ?_) fun hf' => ?_))
    · have hf' : s.env.fails (s.ios + 1) = false := hf'
      rw [if_neg (by rw [hf']; simpa using hb), touch_solo (by exact hs)]
      exact ⟨rfl, s.ios + 2, rfl⟩
    · have hf' : s.env.fails (s.ios + 1) = true ∨ s.size < 512 + s.fs.base + 512 := hf'
      exact if_pos (.inr (hf'.resolve_right (by omega)))
  · intro hdyn
    unfold superFound
    rw [if_neg hdyn]
    refine post_failAs (post_bindFs (post_ite ?_ ?_))
    · intro _
      refine (post_ioRead_solo hs _ _).mono ?_ fun _ _ hbad => if_pos hbad
      intro sb t h
      obtain ⟨hf, hin, rfl, rfl⟩ := h
      rw [if_neg (by rw [hf]; simp; omega)]
      exact ⟨rfl, s.ios + 1, rfl⟩
    · intro hrange
      exact absurd (by unfold checkRange; rw [himg]; rfl) hrange

end Reading

/-! ## What an open notes -/

/-- What is scanned from the superblock `fs`. -/
def notesOf (fs : Fs) : List Scan := if Rescans fs.desc then [scanOf fs] else []

theorem post_silent {α : Type} (x : M α) (s : Mnt) (l : List Scan) :
    Post (unwatched x (s, l)) (fun _ t => t.2 = l) fun _ t => t.2 = l :=
  post_unwatched ((post_true _).mono (fun _ _ _ => rfl) fun _ _ _ => rfl)

theorem post_countFreeNoted (s : Mnt) :
    Post (countFreeNoted (s, [])) (fun _ t => t.2 = [Scan.totals s.fs])
    fun _ t => t.2 = [Scan.totals s.fs] :=
  post_silent countFree s [Scan.totals s.fs]

theorem notesOf_totals {fs : Fs} (hc : fs.desc.sbCodec = false) :
    notesOf fs = if fs.desc.isizeCount = true ∨ fs.desc.pack4 = true ∧ fs.desc.magic = 0 then
    [Scan.totals fs] else [] := by
  simp [notesOf, Rescans, scanOf, hc]

theorem notesOf_bitmap {fs : Fs} (hc : fs.desc.sbCodec = true) :
    notesOf fs = if fs.desc.freemap = .bigmap then [Scan.bitmap fs] else [] := by
  simp [notesOf, Rescans, scanOf, hc]

/-- The totals outside the V8 family. -/
theorem post_v7OpenTotalsSeen (s : Mnt) (sb : Buf) (hc : s.fs.desc.sbCodec = false) :
    Post (v7OpenTotalsSeen sb (s, [])) (fun _ t => t.2 = notesOf s.fs) fun _ t => t.2 = notesOf s.fs := by
  rw [notesOf_totals hc]
  show Post ((if s.fs.desc.sbCodec then pure () else _ : MS Unit) (s, [])) _ _
  refine post_ite (fun h => absurd h (by simp [hc])) fun _ => ?_
  refine post_ite (fun h => ?_) fun h => post_ite (fun h' => ?_) fun h' => ?_
  · rw [if_pos (.inl h)]
    exact post_countFreeNoted s
  · have hno : ¬ (s.fs.desc.isizeCount = true ∨ s.fs.desc.pack4 = true ∧ s.fs.desc.magic = 0) := by
      intro hr
      rcases hr with hi | ⟨hp, hm⟩
      · exact h hi
      · exact h'.elim (fun hp' => by simp [hp] at hp') fun hm' => hm' hm
    rw [if_neg hno]
    exact post_silent _ s []
  · have hyes : s.fs.desc.pack4 = true ∧ s.fs.desc.magic = 0 := by simpa using h'
    rw [if_pos (.inr hyes)]
    exact post_countFreeNoted s

/-- The V8 family: the bit map, and no totals to count. -/
theorem post_v8BitmapLoadSeen (s : Mnt) (sb : Buf) (hc : s.fs.desc.sbCodec = true) :
    Post (v8BitmapLoadSeen sb (s, [])) (fun _ t => t.2 = notesOf s.fs) fun _ t => t.2 = notesOf s.fs := by
  rw [notesOf_bitmap hc]
  show Post ((if s.fs.desc.freemap = .bigmap then (note (Scan.bitmap s.fs) >>= fun _ =>
    unwatched (v8BitmapLoad sb)) else unwatched (v8BitmapLoad sb) : MS Unit) (s, [])) _ _
  apply post_ite
  · intro h
    rw [if_pos h]
    exact post_note (post_silent _ s [Scan.bitmap s.fs])
  · intro h
    rw [if_neg h]
    exact post_silent _ s []

theorem v8BitmapLoadSeen_sbCodec (sb : Buf) (s : Mnt × List Scan) :
    Post (v8BitmapLoadSeen sb s) (fun _ t => t.1.fs.desc.sbCodec = s.1.fs.desc.sbCodec) fun _ t =>
    t.1.fs.desc.sbCodec = s.1.fs.desc.sbCodec := by
  have hload := SameIn.v8BitmapLoad (f := fun fs => fs.desc.sbCodec) sb (fun _ _ _ _ _ _ => rfl) s.1
  show Post ((if s.1.fs.desc.freemap = .bigmap then (note (Scan.bitmap s.1.fs) >>= fun _ =>
    unwatched (v8BitmapLoad sb)) else unwatched (v8BitmapLoad sb) : MS Unit) s) _ _
  refine post_ite (fun _ => post_note (post_unwatched hload)) fun _ => post_unwatched hload

/-- From the superblock in core on. -/
theorem post_scans {s : Mnt} (sb : Buf) :
    Post ((onlyIf (s.fs.desc.sbCodec ∧ s.fs.desc.freemap ≠ .list) (failAs .eio
      (v8BitmapLoadSeen sb)) >>= fun _ =>
        v7OpenTotalsSeen sb >>= fun _ => unwatched (v7OpenChecks s.fs.desc sb) : MS Unit) (s, []))
      (fun _ t => t.2 = notesOf s.fs) fun _ t => t.2 = notesOf s.fs := by
  cases hc : s.fs.desc.sbCodec with
  | false =>
    refine post_bind (post_onlyIf (fun h => by cases h.1) fun _ => ?_)
    refine post_bind ((post_v7OpenTotalsSeen s sb hc).mono (fun _ t ht => ?_) fun _ _ h => h)
    exact (post_silent _ t.1 t.2).mono (fun _ _ h => h.trans ht) fun _ _ h => h.trans ht
  | true =>
    -- the V8 family counts no totals, so the map is the only scan
    have hrest : ∀ t : Mnt × List Scan, t.1.fs.desc.sbCodec = true → t.2 = notesOf s.fs →
        Post ((v7OpenTotalsSeen sb >>= fun _ => unwatched (v7OpenChecks s.fs.desc sb) : MS Unit) t)
          (fun _ t => t.2 = notesOf s.fs) fun _ t => t.2 = notesOf s.fs := by
      intro t ht hlog
      refine post_bind (show Post ((if t.1.fs.desc.sbCodec then pure () else _ : MS Unit) t)
        _ _ from post_ite (fun _ => ?_) fun h => absurd ht h)
      exact (post_silent _ t.1 t.2).mono (fun _ _ h => h.trans hlog) fun _ _ h => h.trans hlog
    refine post_bind (post_onlyIf (fun _ => post_failAs ?_) ?_)
    · have hkeep := v8BitmapLoadSeen_sbCodec sb (s, [])
      exact ((post_v8BitmapLoadSeen s sb hc).and hkeep).mono
        (fun _ t ht => hrest t (ht.2.trans hc) ht.1) fun _ _ ht => ht.1
    · intro h
      have hlist : s.fs.desc.freemap = .list := Classical.not_not.mp fun hne => h ⟨rfl, hne⟩
      refine hrest (s, []) hc ?_
      rw [notesOf_bitmap hc, hlist]
      rfl

/-- The scans of an open are those of the superblock in core. -/
theorem logOf_v7fsOpenSeen (readonly : Bool) (proto : Desc) (offset : Nat) {s : Mnt} (hs : Solo s) :
    logOf (v7fsOpenSeen readonly proto offset) s = ((inCore readonly proto offset s).map notesOf).getD [] := by
  refine Post.final (P := fun t : Mnt × List Scan => t.2 =
    ((inCore readonly proto offset s).map notesOf).getD []) ?_
  unfold inCore
  refine post_bind (post_unwatched (show Post (modFs _ s) _ _ from ?_))
  refine post_bind (post_unwatched ?_)
  unfold openImage
  split
  · rename_i e he
    have he : s.env.openErr = some e := he
    rw [if_pos (by rw [he]; rfl)]
    rfl
  rename_i hnone
  have hnone : s.env.openErr = none := hnone
  rw [if_neg (by rw [hnone]; simp)]
  refine post_bind (post_unwatched
    ((post_v7OpenSuper (s := { s with fs := { desc := proto, readonly := readonly, base := offset } })
    hs rfl).mono ?_ ?_))
  · intro sb t h
    obtain ⟨hsuper, k, ht⟩ := h
    generalize hd : t.fs.desc = d at *
    have hsuper : superFound proto offset s = some (d, sb) := hsuper
    rw [hsuper]
    refine post_bind (post_unwatched (show Post (modFs _ t) _ _ from ?_))
    rw [ht]
    generalize hfs : sbDecode { desc := d, readonly := readonly, base := offset } sb = fs
    refine post_bind (post_unwatched (show Post (getFs _) _ _ from ?_))
    dsimp only
    have hdecoded : sbDecode { desc := d, readonly := readonly, base := offset } sb = fs := hfs
    rw [hdecoded]
    apply post_ite
    · intro hcount
      rw [if_pos hcount]
      rfl
    · intro hcount
      rw [if_neg hcount]
      exact post_scans (s := { s with fs := fs, ios := k }) sb
  · rintro e t hsuper
    have hsuper : superFound proto offset s = none := hsuper
    rw [hsuper]
    rfl

/-! ## The late check -/

/-- The last check of `v7fs_open`, on a file of `size` bytes. -/
def Checked (fs : Fs) (size : Nat) : Prop :=
  (if fs.desc.isizeCount then 1 else 2) ≤ fs.isize ∧ fs.base + fs.fsize * fs.desc.bsize ≤ size ∧
  v7DataFirst fs < fs.fsize

/-- What the check looks at. -/
def checkedOf (fs : Fs) : Desc × Nat × Nat × Nat := (fs.desc, fs.base, fs.isize, fs.fsize)

theorem checked_congr {fs fs' : Fs} (h : checkedOf fs' = checkedOf fs) (size : Nat) :
    Checked fs' size ↔ Checked fs size := by
  simp only [checkedOf, Prod.mk.injEq] at h
  obtain ⟨hd, hb, hi, hf⟩ := h
  unfold Checked v7DataFirst
  rw [hd, hb, hi, hf]

/-- The open succeeds on a superblock that passes only. -/
theorem post_v7OpenChecks (s : Mnt) (sb : Buf) :
    Post (v7OpenChecks s.fs.desc sb s) (fun _ _ => Checked s.fs s.size) fun _ _ => True := by
  have hlast : ∀ t : Mnt, checkedOf t.fs = checkedOf s.fs → t.size = s.size →
    Post ((if !s.fs.desc.ignoreMagic ∧ s.fs.desc.magic ≠ 0 ∧
      s.fs.desc.bo.get32 sb s.fs.desc.magicOff ≠ s.fs.desc.magic then throw .einval
      else get >>= fun s' => if s'.fs.isize < (if s.fs.desc.isizeCount then 1 else 2) ∨
      s'.size < s'.fs.base + s'.fs.fsize * s.fs.desc.bsize ∨
        s'.fs.fsize ≤ v7DataFirst s'.fs then throw .einval else modFs fun fs =>
        { fs with imgsize := s'.size } : M Unit) t)
      (fun _ _ => Checked s.fs s.size) fun _ _ => True := by
    intro t hfs hsize
    refine post_ite (fun _ => trivial) fun _ => post_get (post_ite (fun _ => trivial) fun hok => ?_)
    have hdesc : t.fs.desc = s.fs.desc := congrArg Prod.fst hfs
    rw [← hdesc] at hok
    show Checked s.fs s.size
    rw [← checked_congr hfs, ← hsize]
    simp only [not_or, Nat.not_lt, Nat.not_le] at hok
    exact hok
  refine post_bind (post_onlyIf (fun _ => ?_) fun _ => hlast s rfl rfl)
  exact hlast _ rfl rfl

theorem post_checked {s : Mnt} (sb : Buf) :
    Post ((onlyIf (s.fs.desc.sbCodec ∧ s.fs.desc.freemap ≠ .list) (failAs .eio (v8BitmapLoad sb)) >>= fun _ =>
        v7OpenTotals sb >>= fun _ => v7OpenChecks s.fs.desc sb :
        M Unit) s) (fun _ _ => Checked s.fs s.size) fun _ _ => True := by
  have hload : Keeps (SameIn checkedOf) (onlyIf (s.fs.desc.sbCodec ∧ s.fs.desc.freemap ≠ .list)
    (failAs .eio (v8BitmapLoad sb)) : M Unit) :=
    keeps_onlyIf (sameIn_law _) (keeps_failAs (SameIn.v8BitmapLoad sb fun _ _ _ _ _ _ => rfl))
  have hquiet : QuietM (onlyIf (s.fs.desc.sbCodec ∧ s.fs.desc.freemap ≠ .list)
    (failAs .eio (v8BitmapLoad sb)) : M Unit) :=
    keeps_onlyIf quiet_law (keeps_failAs (v8BitmapLoad_quiet sb))
  refine post_bind (((hload s).and (hquiet s)).mono (fun _ t ht => ?_) fun _ _ _ => trivial)
  have htotals := SameIn.v7OpenTotals (f := checkedOf) ⟨fun _ _ _ => rfl, fun _ _ _ _ =>
    rfl, fun _ _ => rfl⟩ sb t
  refine post_bind ((htotals.and (v7OpenTotals_still sb t)).mono (fun _ u hu => ?_) fun _ _ _ => trivial)
  have hfs : checkedOf u.fs = checkedOf s.fs := hu.1.trans ht.1
  have hdesc : u.fs.desc = s.fs.desc := congrArg Prod.fst hfs
  rw [← hdesc, ← checked_congr hfs, ← ht.2.size, ← hu.2.size]
  exact post_v7OpenChecks u sb

/-- The subtraction in `v7_maxinode` does not wrap. -/
def NoWrap (fs : Fs) : Prop := fs.desc.isizeCount = true ∨ 2 ≤ fs.isize

/-- An open that succeeds has found a superblock that passes. -/
theorem post_v7fsOpen_checked (readonly : Bool) (proto : Desc) (offset : Nat) {s : Mnt} (hs : Solo s) :
    Post (v7fsOpen readonly proto offset s) (fun _ _ => ∀ fs, inCore readonly proto offset s = some fs →
      Checked fs s.size) fun _ _ => True := by
  unfold inCore
  refine post_bindMod (post_bind ?_)
  unfold openImage
  split
  · trivial
  rename_i hnone
  have hnone : s.env.openErr = none := hnone
  rw [if_neg (by rw [hnone]; simp)]
  refine post_bind ((post_v7OpenSuper (s :=
    { s with fs := { desc := proto, readonly := readonly, base := offset } }) hs rfl).mono ?_
    fun _ _ _ => trivial)
  intro sb t hr
  obtain ⟨hsuper, k, ht⟩ := hr
  generalize hd : t.fs.desc = d at *
  have hsuper : superFound proto offset s = some (d, sb) := hsuper
  rw [hsuper, ht]
  refine post_bindMod (post_bindFs ?_)
  dsimp only
  generalize sbDecode { desc := d, readonly := readonly, base := offset } sb = fs
  refine post_ite (fun _ => trivial) fun hcount => ?_
  rw [if_neg hcount]
  refine (post_checked (s := { s with fs := fs, ios := k }) sb).mono (fun _ _ h fs' heq => ?_)
    fun _ _ _ => trivial
  cases heq
  exact h

/-- The open subtracts from no `isize` below 2, and a superblock that does not pass the check is refused
    with nothing scanned. -/
structure Guarded (readonly : Bool) (proto : Desc) (offset : Nat) (s : Mnt) : Prop where
  wraps : ∀ fs, Scan.totals fs ∈ logOf (v7fsOpenSeen readonly proto offset) s → NoWrap fs
  checked : ∀ scan ∈ logOf (v7fsOpenSeen readonly proto offset) s, Checked scan.fs s.size
  refused : ∀ fs, inCore readonly proto offset s = some fs → ¬ Checked fs s.size →
    errorOf (v7fsOpen readonly proto offset) s ≠ none

theorem refused_unchecked (readonly : Bool) (proto : Desc) (offset : Nat) {s : Mnt} (hs : Solo s) {fs : Fs}
    (hcore : inCore readonly proto offset s = some fs) (hbad : ¬ Checked fs s.size) :
    errorOf (v7fsOpen readonly proto offset) s ≠ none := by
  intro hok
  exact hbad ((post_v7fsOpen_checked readonly proto offset hs).of_ok (eq_done hok) fs hcore)

theorem Checked.noWrap {fs : Fs} {size : Nat} (h : Checked fs size) : NoWrap fs := by
  obtain ⟨hsize, -, -⟩ := h
  cases hc : fs.desc.isizeCount with
  | true => exact .inl hc
  | false =>
    rw [hc] at hsize
    exact .inr hsize

theorem scanOf_fs (fs : Fs) : (scanOf fs).fs = fs := by
  unfold scanOf
  split <;> rfl

theorem guarded_iff (readonly : Bool) (proto : Desc) (offset : Nat) {s : Mnt} (hs : Solo s) :
    Guarded readonly proto offset s ↔ ∀ fs, inCore readonly proto offset s = some fs →
    Rescans fs.desc → Checked fs s.size := by
  have hlog := logOf_v7fsOpenSeen readonly proto offset hs
  constructor
  · intro h fs hcore hr
    have hmem : scanOf fs ∈ logOf (v7fsOpenSeen readonly proto offset) s := by
      rw [hlog, hcore, Option.map_some, Option.getD_some, notesOf, if_pos hr]
      exact List.mem_singleton.mpr rfl
    have hc := h.checked _ hmem
    rwa [scanOf_fs] at hc
  · intro h
    have hscan : ∀ scan ∈ logOf (v7fsOpenSeen readonly proto offset) s, Checked scan.fs s.size := by
      intro scan hmem
      rw [hlog] at hmem
      cases hcore : inCore readonly proto offset s with
      | none =>
        rw [hcore] at hmem
        exact absurd hmem List.not_mem_nil
      | some fs =>
        rw [hcore, Option.map_some, Option.getD_some, notesOf] at hmem
        split at hmem
        · rename_i hr
          rw [List.mem_singleton.mp hmem, scanOf_fs]
          exact h fs hcore hr
        · exact absurd hmem List.not_mem_nil
    refine ⟨?_, hscan, ?_⟩
    · intro fs hmem
      exact (hscan _ hmem).noWrap
    · intro fs hcore hbad
      exact refused_unchecked readonly proto offset hs hcore hbad

/-- (3) What is scanned has been checked, exactly when the superblock in core is one nothing is scanned
    of or passes. -/
theorem opens_scan_checked_superblocks_iff (readonly : Bool) (proto : Desc) (offset : Nat)
    {s : Mnt} (hs : Solo s) :
    Guarded readonly proto offset s ↔ ∀ fs, inCore readonly proto offset s = some fs →
    Rescans fs.desc → Checked fs s.size :=
  guarded_iff readonly proto offset hs

/-- A 32V volume of eight blocks, its i-list ending at block 4; blocks 6 and 0 are cached. -/
def vaxVolume : Mnt where
  fs := { desc := descV7 }
  img := poke zeroBuf 512 [4, 0, 0, 0, 8, 0, 0, 0, 2, 0, 0, 0, 0, 0, 0, 0, 6, 0, 0, 0]
  size := 4096

/-- It passes, and its totals are recounted. -/
theorem a_checked_32v_volume_is_recounted :
    (∃ fs, Scan.totals fs ∈ logOf (v7fsOpenSeen false (filsysGetformat .v32) 0) vaxVolume ∧ Checked fs 4096) ∧
      Guarded false (filsysGetformat .v32) 0 vaxVolume := by
  have hcore : (inCore false (filsysGetformat .v32) 0 vaxVolume).map
    (fun fs => (decide (Rescans fs.desc), fs.desc.sbCodec,
      decide ((if fs.desc.isizeCount then 1 else 2) ≤ fs.isize ∧ fs.base + fs.fsize * fs.desc.bsize ≤
        4096 ∧ v7DataFirst fs < fs.fsize))) =
      some (true, false, true) := by decide +kernel
  obtain ⟨fs, hfs, hfields⟩ := Option.map_eq_some_iff.mp hcore
  simp only [Prod.mk.injEq, decide_eq_true_eq] at hfields
  obtain ⟨hr, hcodec, hpass⟩ := hfields
  have hmem : Scan.totals fs ∈ logOf (v7fsOpenSeen false (filsysGetformat .v32) 0) vaxVolume := by
    rw [logOf_v7fsOpenSeen false _ 0 (s := vaxVolume) fun _ _ => rfl, hfs, Option.map_some,
      Option.getD_some, notesOf, if_pos hr, scanOf, hcodec]
    exact List.mem_singleton.mpr rfl
  refine ⟨⟨fs, hmem, hpass⟩, ?_⟩
  refine (opens_scan_checked_superblocks_iff false (filsysGetformat .v32) 0 (s := vaxVolume) fun _ _ =>
    rfl).mpr fun fs' hcore' _ => ?_
  rw [hfs] at hcore'
  cases hcore'
  exact hpass

/-- A file of 4096 zeros. -/
def blankFile : Mnt where
  fs := { desc := descV7 }
  img := zeroBuf
  size := 4096

/-- As a 32V volume it is recounted, from an `isize` of 0. -/
theorem a_blank_32v_image_is_recounted :
    (∃ fs, Scan.totals fs ∈ logOf (v7fsOpenSeen false (filsysGetformat .v32) 0) blankFile ∧
      fs.isize = 0 ∧ ¬ NoWrap fs) ∧
      ¬ Guarded false (filsysGetformat .v32) 0 blankFile := by
  have hcore : (inCore false (filsysGetformat .v32) 0 blankFile).map
      (fun fs => (decide (Rescans fs.desc), fs.desc.sbCodec, fs.desc.isizeCount, fs.isize)) =
        some (true, false, false, 0) := by
        decide +kernel
  obtain ⟨fs, hfs, hfields⟩ := Option.map_eq_some_iff.mp hcore
  simp only [Prod.mk.injEq, decide_eq_true_eq] at hfields
  obtain ⟨hr, hcodec, hcount, hsize⟩ := hfields
  have hwrap : ¬ NoWrap fs := by
    intro hrun
    rcases hrun with h | h
    · rw [hcount] at h
      cases h
    · omega
  have hmem : Scan.totals fs ∈ logOf (v7fsOpenSeen false (filsysGetformat .v32) 0) blankFile := by
    rw [logOf_v7fsOpenSeen false _ 0 (s := blankFile) fun _ _ => rfl, hfs, Option.map_some,
      Option.getD_some, notesOf, if_pos hr, scanOf, hcodec]
    exact List.mem_singleton.mpr rfl
  exact ⟨⟨fs, hmem, hsize, hwrap⟩, fun h => hwrap (h.wraps fs hmem)⟩

end Filsys.Mount
