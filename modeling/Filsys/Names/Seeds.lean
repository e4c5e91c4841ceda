/-
  Filsys.Names.Seeds — where histories begin.

  Mounting a volume of the V7 family leaves an inode cache in order (`open_leaves_numbers`).
  A volume whose only live inode is a root directory with its own two names is fit and its
  tree consistent (`standing_of_root`), so every history may begin there. `freshVolume` is
  one, with blocks and inodes to spare.
-/

import Filsys.Alloc.Icache
import Filsys.Mount.Spaces
import Filsys.Names.Histories

namespace Filsys.Names

open Filsys.Lib Filsys.Engine Filsys.Alloc Filsys.Tree Filsys.Mount

/-! ## Mounting -/

section Open

variable {proto : Desc} (hv : proto.ops ≠ .v1)

include hv

theorem v7fsOpen_numbers (readonly : Bool) (offset : Nat) (s : Mnt) :
    Post (v7fsOpen readonly proto offset s) (fun _ t => t.fs.desc.ops = proto.ops ∧ Numbers t.fs)
    fun _ _ => True := by
  have hf : SameIn.Incidental fun fs : Fs => (fs.desc, fs.ninode, fs.inode) :=
    ⟨fun _ _ _ => rfl, fun _ _ _ _ => rfl, fun _ _ => rfl⟩
  refine post_bindMod (post_bind (post_keeps (SameIn.openImage (f := fun fs => fs.desc.ops))
    (fun _ s₁ h₁ => ?_) fun _ _ _ => trivial))
  refine post_bind (post_keeps (SameIn.v7OpenSuper (f := fun fs => fs.desc.ops) fun _ _ _ => rfl)
    (fun sb s₂ h₂ => ?_) fun _ _ _ => trivial)
  refine post_bindMod (post_bindFs (post_ite (fun _ => trivial) fun hfits => ?_))
  refine post_bind (post_keeps (keeps_onlyIf (sameIn_law fun fs => (fs.desc, fs.ninode, fs.inode))
    (keeps_failAs (SameIn.v8BitmapLoad sb fun _ _ _ _ _ _ => rfl))) (fun _ s₃ h₃ => ?_) fun _ _ _ => trivial)
  refine post_keeps (SameIn.v7fsOpenRest hf _ sb) (fun _ t ht => ?_) fun _ _ _ => trivial
  have hdec : (t.fs.desc, t.fs.ninode, t.fs.inode) =
    ((sbDecode s₂.fs sb).desc, (sbDecode s₂.fs sb).ninode, (sbDecode s₂.fs sb).inode) := ht.trans h₃
  have hdesc : t.fs.desc = (sbDecode s₂.fs sb).desc := congrArg Prod.fst hdec
  have hninode : t.fs.ninode = (sbDecode s₂.fs sb).ninode := congrArg (fun r => r.2.1) hdec
  have hinode : t.fs.inode = (sbDecode s₂.fs sb).inode := congrArg (fun r => r.2.2) hdec
  have hops : t.fs.desc.ops = proto.ops := by
    rw [hdesc, sbDecode_desc]
    exact h₂.trans h₁
  refine ⟨hops, ?_, ?_, fun h1 => absurd (hops.symm.trans h1) hv⟩
  · intro i
    rw [hinode]
    exact sbDecode_inode_lt _ _ _
  · rw [not_or, Nat.not_lt, Nat.not_lt] at hfits
    rw [hninode, hdesc]
    exact hfits.2

theorem opsOpen_numbers (hp : proto.ops ≠ .pdp7) (readonly : Bool) (offset : Nat) (s : Mnt) :
    Post (opsOpen readonly proto offset s) (fun _ t => t.fs.desc.ops = proto.ops ∧ Numbers t.fs)
    fun _ _ => True := by
  have hopen := v7fsOpen_numbers hv readonly offset s
  unfold opsOpen
  cases hops : proto.ops with
  | v1 => exact absurd hops hv
  | pdp7 => exact absurd hops hp
  | v6 => rw [hops] at hopen; exact hopen
  | v7 => rw [hops] at hopen; exact hopen
  | bsd211 => rw [hops] at hopen; exact hopen

end Open

theorem keeps_opsMark {R : Mnt → Mnt → Prop} (law : BlockLaw R) (fmod : Nat) : Keeps R (opsMark fmod) := by
  have hmark : Keeps R (modFs (fun fs => { fs with fmod := fmod }) >>= fun _ => flushFs) :=
    law.seq (law.mod _ fun _ => ⟨rfl, rfl⟩) fun _ => law.flushFs
  refine law.bindFs fun fs => ?_
  cases fs.desc.ops with
  | v1 => exact law.ret _
  | pdp7 => exact law.ret _
  | v6 => exact keeps_ite (law.ret _) hmark
  | v7 => exact keeps_ite (law.ret _) hmark
  | bsd211 => exact keeps_ite (law.ret _) hmark

theorem ops_geomDesc {a : OpenArgs} {d : Desc} (hd : geomDesc a = .ok d) :
    d.ops = (filsysGetformat a.edition).ops := by
  unfold geomDesc at hd
  split at hd
  · split at hd
    · obtain ⟨bo, bs, fm, rfl, -, -⟩ := applyGeom_shape hd
      rfl
    · obtain rfl := Except.ok.inj hd
      rfl
  · obtain rfl := Except.ok.inj hd
    rfl

/-- Every open of a volume of the V7 family that succeeds, with no one else writing to the image. -/
theorem open_leaves_numbers {a : OpenArgs} (hv : (filsysGetformat a.edition).ops ≠ .v1)
    (hp : (filsysGetformat a.edition).ops ≠ .pdp7) {s : Mnt} (hs : Solo s) :
    Post (filsysOpenArch a s) (fun _ t => Numbers t.fs) fun _ _ => True := by
  have hdesc : Post (openDesc a s) (fun d _ => d.ops = (filsysGetformat a.edition).ops) fun _ _ => True :=
    openDesc_settles (P := fun d => d.ops = (filsysGetformat a.edition).ops) (fun h _ _ _ _ => h)
    (fun _ hd => ops_geomDesc hd) s
  refine post_bind ((hdesc.and (openDesc_quiet a s)).mono ?_ fun _ _ _ => trivial)
  intro fmt s₁ hr
  obtain ⟨hops, hq₁⟩ := hr
  rw [← hops] at hv hp
  refine post_bind (((opsOpen_numbers hv hp a.readonly a.offset s₁).and
    (opsOpen_quiet a.readonly fmt a.offset s₁)).mono ?_ fun _ _ _ => trivial)
  intro _ s₂ hr
  obtain ⟨⟨-, hnum⟩, hq₂⟩ := hr
  have hsolo : Solo s₂ := fun k img => by
    rw [(quiet_law.trans hq₁ hq₂).env]
    exact hs k img
  have hlock : Post (lockImage a.readonly s₂) (fun _ t => t = s₂) fun _ _ => True := by
    unfold lockImage
    split
    · trivial
    · rfl
  have hmark : Post (opsMark 1 s₂) (fun _ t => Numbers t.fs) fun _ _ => True := by
    refine ((keeps_opsMark sameShape_law 1 s₂).and (keeps_opsMark sameIno_law 1 s₂)).mono ?_
      fun _ _ _ => trivial
    exact fun _ t ht => hnum.congr (ht.1 hsolo).2 (ht.2 hsolo).2
  refine post_bind (Post.mono (Q := fun _ t => t = s₂) (E := fun _ _ => True)
    (post_onlyIf (fun _ => post_orClose hlock) fun _ => rfl) ?_ fun _ _ h => h)
  rintro _ s₃ rfl
  exact post_bind (Post.mono (Q := fun _ t => Numbers t.fs) (E := fun _ _ => True)
    (post_onlyIf (fun _ => post_orClose hmark) fun _ => hnum)
    (fun _ _ ht => ⟨ht.cache, ht.few, ht.v1⟩) fun _ _ h => h)

/-! ## Room -/

theorem validIno_lt {fs : Fs} (hv : fs.desc.ops ≠ .v1) (hi : 0 < v7Inopb fs) {n : Nat}
    (h : ValidIno fs n) : n < (ilistEnd fs - 2) * v7Inopb fs + 1 := by
  have hvalid := h.2
  rw [if_neg hv] at hvalid
  unfold v7Itod at hvalid
  have := (Nat.div_lt_iff_lt_mul hi).mp (show (n - 1) / v7Inopb fs < ilistEnd fs - 2 by omega)
  omega

instance (s : Mnt) (d : Nat) : Decidable (Takes s d) := inferInstanceAs (Decidable (_ ≤ _ → _ ≤ _))

instance (s : Mnt) : (r : Request) → Decidable (r.Room s)
  | .create _ _ _ _ _ => inferInstanceAs (Decidable (_ = none → Takes _ _))
  | .mkdir _ _ _ _ _ => inferInstanceAs (Decidable (_ = none → Takes _ _ ∧ _ < _))
  | .mknod _ _ _ _ _ _ => inferInstanceAs (Decidable (_ = none → Takes _ _))
  | .symlink _ _ _ => inferInstanceAs (Decidable (_ = none → Takes _ _))
  | .link _ _ _ => inferInstanceAs (Decidable (Takes _ _ ∧ _ < _))
  | .unlink _ _ _ => inferInstanceAs (Decidable True)
  | .rmdir _ _ => inferInstanceAs (Decidable True)
  | .rename sdir sname tdir tname _ _ =>
    inferInstanceAs (Decidable (∀ n ∈ (census s).links sdir sname, (census s).links tdir tname ≠ some n →
      ((census s).links tdir tname = none → Takes s tdir) ∧ (census s).nlink n < linkMax s.fs.desc ∧
        ((census s).kind n = some true → sdir ≠ tdir → (census s).nlink tdir < linkMax s.fs.desc)))
  | .free _ => inferInstanceAs (Decidable True)

/-! ## Volumes with a root and nothing else -/

/-- A root directory that has only its own two names. -/
theorem Census.consistent_root {c : Census} {root : Nat}
    (hkind : ∀ n, c.kind n = if n = root then some true else none) (hnlink : c.nlink root = 2)
    (hlinks : ∀ d name, c.links d name = if d = root ∧ (name = dot ∨ name = dotdot) then some root
      else none) : c.Consistent root := by
  have hiff : ∀ {d name n}, c.links d name = some n ↔ (d = root ∧ (name = dot ∨ name = dotdot)) ∧ n = root := by
    intro d name n
    rw [hlinks]
    split
    · rename_i h
      simp [h, eq_comm]
    · rename_i h
      simp [h]
  have hdir : ∀ {n}, c.kind n = some true ↔ n = root := by
    intro n
    rw [hkind]
    split
    · rename_i h
      simp [h]
    · rename_i h
      simp [h]
  have hnames : c.links.names root = {(root, dot), (root, dotdot)} := by
    ext ⟨d, name⟩
    show c.links d name = some root ↔ _
    rw [hiff]
    simp only [and_true, Set.mem_insert_iff, Set.mem_singleton_iff, Prod.mk.injEq]
    constructor
    · intro hrun
      rcases hrun with ⟨hd, hn | hn⟩
      · exact .inl ⟨hd, hn⟩
      · exact .inr ⟨hd, hn⟩
    · intro hrun
      rcases hrun with ⟨hd, hn⟩ | ⟨hd, hn⟩
      · exact ⟨hd, .inl hn⟩
      · exact ⟨hd, .inr hn⟩
  have hproper : ∀ {d name n}, Census.ProperName name → c.links d name ≠ some n := by
    intro d name n hname he
    rcases (hiff.mp he).1.2 with h | h
    · exact hname.1 h
    · exact hname.2 h
  refine ⟨?_, fun d name n h => ?_, ⟨hdir.mpr rfl, fun d k n h => ?_, fun d h => ?_,
    hiff.mpr ⟨⟨rfl, .inr rfl⟩, rfl⟩, fun d h hr => absurd (hdir.mp h) hr,
    fun d p k _ hk hp => absurd hp (hproper hk), fun d p k k' _ hk _ hp _ => absurd hp (hproper hk),
    fun d h => ?_⟩, fun n h => ?_⟩
  · refine Set.Finite.subset (Set.toFinite {(root, dot), (root, dotdot)}) fun p hp => ?_
    obtain ⟨n, hn⟩ := Option.ne_none_iff_exists'.mp hp
    obtain ⟨⟨hd, hname⟩, rfl⟩ := hiff.mp hn
    have hmem : p ∈ c.links.names n := hn
    rwa [hnames] at hmem
  · rw [hdir.mpr (hiff.mp h).2]
    exact nofun
  · exact hdir.mpr (hiff.mp h).1.1
  · have hd := hdir.mp h
    exact hiff.mpr ⟨⟨hd, .inl rfl⟩, hd⟩
  · rw [hdir.mp h]
    exact .top
  · have hn : n = root := by
      by_contra hne
      rw [hkind, if_neg hne] at h
      exact h rfl
    have hcard : c.links.degree root = 2 := by
      unfold Links.degree
      rw [hnames]
      refine Set.ncard_pair fun he => ?_
      have hname : dot = dotdot := congrArg Prod.snd he
      exact absurd hname (by decide)
    rw [hn, hnlink, hcard]
    rfl

/-- The root directory has block `b` and its own two names; no other inode is live and the blocks `L`
    are free. -/
structure Bare (s : Mnt) (b : Nat) (L : List Nat) : Prop where
  checks : FormatChecks s
  core : Core s L []
  spare : b ∉ L
  block : DataBlock s.fs b
  direct : cdepth s.fs.desc 0 = 0
  inopb : 0 < v7Inopb s.fs
  dead : ∀ k < (ilistEnd s.fs - 2) * v7Inopb s.fs + 1, k ≠ s.fs.desc.rootino →
    inodeLive s.fs.desc ((recordOf s.fs s.img k).mode % 65536) = false
  slots : ∀ slot < s.fs.desc.niaddr, (recordOf s.fs s.img s.fs.desc.rootino).addr slot ≠ 0 →
    (recordOf s.fs s.img s.fs.desc.rootino).addr slot = b ∧
    croot s.fs.desc (recordOf s.fs s.img s.fs.desc.rootino).mode slot = [0]
  valid : ValidIno s.fs s.fs.desc.rootino
  holds : HoldsBlocks s.fs.desc s.fs.desc.rootino (recordOf s.fs s.img s.fs.desc.rootino).mode
  isDir : modeIsDir s.fs.desc (recordOf s.fs s.img s.fs.desc.rootino) = true
  nlink : (recordOf s.fs s.img s.fs.desc.rootino).nlink = 2
  framed : s.fs.desc.direntSize ∣ (recordOf s.fs s.img s.fs.desc.rootino).size
  fits : (recordOf s.fs s.img s.fs.desc.rootino).size ≤ maxFile s.fs.desc
  small : (recordOf s.fs s.img s.fs.desc.rootino).size ≤ s.fs.desc.bsize
  mapped : mapOf s.fs s.img (recordOf s.fs s.img s.fs.desc.rootino) 0 ≠ 0
  list : listing s.fs s.img (recordOf s.fs s.img s.fs.desc.rootino) =
    [(s.fs.desc.rootino, dot), (s.fs.desc.rootino, dotdot)]

section Bare

variable {s : Mnt} {b : Nat} {L : List Nat} (hsolo : Solo s) (h : Bare s b L)

include h

theorem Bare.root_of_live {k : Nat} (hk : ValidIno s.fs k) (hl : Live s.fs s.img k) :
    k = s.fs.desc.rootino := by
  have hlt := validIno_lt (listLayout_of_checks h.checks).notV1 h.inopb hk
  by_contra hne
  exact absurd (show _ = true from hl) (by rw [h.dead k hlt hne]; exact Bool.false_ne_true)

include hsolo

theorem Bare.owned : Owned s (soleOwn s.fs.desc.rootino b) := by
  have hm := mounted_of_checks hsolo h.checks
  have hlist := listLayout_of_checks h.checks
  have ha : s.fs.desc.alloc = .freelist := h.checks.2.2.2.2.2.2.2.2.2.2.1
  refine ⟨hm, mapLayout_of_checks h.checks, (spaceOk_freelist ha).mpr ⟨hlist, L, [], h.core⟩,
    fun x hx => ?_, fun x p hx => ?_, fun x k slot idxs hx hlen => ?_,
    fun k hk hholds => ?_⟩
  · have hmem := (isFree_core hm ha hlist h.core).mp hx
    apply if_neg
    rintro rfl
    exact h.spare hmem
  · by_cases hxb : x = b
    · rw [hxb]
      exact h.block
    · exact nomatch (if_neg hxb).symm.trans hx
  · by_cases hxb : x = b
    · cases (if_pos hxb).symm.trans hx
      rw [h.direct] at hlen
      exact absurd hlen (Nat.not_lt_zero _)
    · exact nomatch (if_neg hxb).symm.trans hx
  · obtain rfl := h.root_of_live hk hholds.1
    intro slot hslot hne
    obtain ⟨haddr, hroot⟩ := h.slots slot hslot hne
    rw [haddr, hroot]
    exact if_pos rfl

omit hsolo in
theorem Bare.world (n : Nat) :
    worldOf s n = if n = s.fs.desc.rootino then some
    ⟨true, 2, [(s.fs.desc.rootino, dot), (s.fs.desc.rootino, dotdot)]⟩ else none := by
  split
  · rename_i hn
    subst hn
    exact worldOf_dir.mpr ⟨⟨h.valid, h.holds.1⟩, h.isDir, h.nlink, h.list⟩
  · rename_i hn
    unfold worldOf nodeOf
    rw [if_neg]
    rintro ⟨hv, hl⟩
    exact hn (h.root_of_live hv hl)

/-- Such a volume is fit, and its tree consistent. -/
theorem standing_of_root (hnum : Numbers s.fs) (hformat : Format s.fs.desc) (hno : ¬ Fault s) :
    Standing s (soleOwn s.fs.desc.rootino b) := by
  have ho := h.owned hsolo
  have hworld := h.world
  refine ⟨⟨⟨ho, fun hv => absurd hv (listLayout_of_checks h.checks).notV1, hformat, fun n hv hl hdir =>
    ?_⟩, hnum, fun n nd hn => ?_⟩, ?_, hno⟩
  · obtain rfl := h.root_of_live hv hl
    refine ⟨ho.disk _ hv h.holds, (stored_recordOf ho.layout.toRecordLayout s.img _).ino,
      h.framed, h.fits, fun x hx => ?_⟩
    obtain rfl : x = 0 := by
      by_contra h0
      have hle := Nat.le_mul_of_pos_left s.fs.desc.bsize (Nat.pos_of_ne_zero h0)
      have hsmall := h.small
      omega
    exact h.mapped
  · rw [hworld] at hn
    split at hn
    · cases hn
      exact (show [dot, dotdot].Nodup by decide)
    · cases hn
  · apply Census.consistent_root
    · intro n
      show (worldOf s n).map Node.dir = _
      rw [hworld]
      split <;> rfl
    · show ((worldOf s _).map Node.nlink).getD 0 = 2
      rw [hworld, if_pos rfl]
      rfl
    · intro d name
      show (worldOf s d).bind (fun nd => if nd.dir then binding nd.list name else none) = _
      rw [hworld]
      by_cases hd : d = s.fs.desc.rootino
      · rw [if_pos hd]
        show binding [(s.fs.desc.rootino, dot), (s.fs.desc.rootino, dotdot)] name = _
        unfold binding
        rw [lookup_cons, lookup_cons]
        by_cases h1 : dot = name
        · rw [if_pos h1, if_pos ⟨hd, .inl h1.symm⟩]
          rfl
        · rw [if_neg h1]
          by_cases h2 : dotdot = name
          · rw [if_pos h2, if_pos ⟨hd, .inr h2.symm⟩]
            rfl
          · rw [if_neg h2, if_neg fun he => he.2.elim (fun he => h1 he.symm) fun he => h2 he.symm]
            rfl
      · rw [if_neg hd, if_neg fun he => hd he.1]
        rfl

end Bare

/-- A V7 volume of eight blocks: block 3 is the root directory's and the four after it are free. -/
def freshImage : Buf := fun i =>
  if i = 512 then 3 else if i = 516 then 8            -- s_isize, s_fsize
  else if i = 518 then 5                              -- s_nfree, s_free
  else if i = 526 then 4 else if i = 530 then 5 else if i = 534 then 6 else if i = 538 then 7
  else if i = 1089 then 0o100 else if i = 1090 then 2 else if i = 1098 then 32 else if i = 1101 then 3
  else if i = 1536 then 2 else if i = 1538 then 46
  else if i = 1552 then 2 else if i = 1554 then 46 else if i = 1555 then 46
  else 0

def freshMedium : Mnt :=
  { fs := { desc := filsysGetformat .v7 }, img := freshImage, size := 4096, env := { fuel := 4 } }

def freshVolume : Mnt := final (filsysOpenArch { edition := .v7 }) freshMedium

theorem freshVolume_opened : filsysOpenArch { edition := .v7 } freshMedium = .ok () freshVolume :=
  eq_ok (by decide +kernel)

theorem freshVolume_core : Core freshVolume [7, 6, 5, 4] [] := by
  have hcache : freshVolume.fs.nfree = 5 ∧ freshVolume.fs.free 0 = 0 ∧ freshVolume.fs.free 1 = 4 ∧
    freshVolume.fs.free 2 = 5 ∧ freshVolume.fs.free 3 = 6 ∧
      freshVolume.fs.free 4 = 7 := by decide +kernel
  obtain ⟨hn, h0, h1, h2, h3, h4⟩ := hcache
  have hdata : InData freshVolume.fs 4 ∧ InData freshVolume.fs 5 ∧ InData freshVolume.fs 6 ∧
    InData freshVolume.fs 7 := by
    decide +kernel
  have hchain : Chain freshVolume.fs freshVolume.img (5, freshVolume.fs.free)
      [freshVolume.fs.free 4, freshVolume.fs.free 3, freshVolume.fs.free 2, freshVolume.fs.free 1] [] := by
    refine .entry ?_ (.entry ?_ (.entry ?_ (.entry ?_ (.sentinel h0))))
    · rw [h4]
      exact hdata.2.2.2
    · rw [h3]
      exact hdata.2.2.1
    · rw [h2]
      exact hdata.2.1
    · rw [h1]
      exact hdata.1
  rw [h1, h2, h3, h4] at hchain
  refine ⟨?_, by decide +kernel, by decide⟩
  rw [hn]
  exact hchain

theorem freshVolume_bare : Bare freshVolume 3 [7, 6, 5, 4] where
  checks := by decide +kernel
  core := freshVolume_core
  spare := by decide
  block := by decide +kernel
  direct := by decide +kernel
  inopb := by decide +kernel
  dead := by decide +kernel
  slots := by decide +kernel
  valid := by decide +kernel
  holds := ⟨by decide +kernel, by decide +kernel⟩
  isDir := by decide +kernel
  nlink := by decide +kernel
  framed := by decide +kernel
  fits := by decide +kernel
  small := by decide +kernel
  mapped := by decide +kernel
  list := by decide +kernel

/-- Every edition that has fixed entries and its own `.` and `..`. -/
theorem format_getformat (ed : Edition) (h1 : ed ≠ .bsd211) (h2 : ed ≠ .pdp7) :
    Format (filsysGetformat ed) := by
  refine ⟨⟨ed, h2, rfl⟩, fixedFormat_getformat ed h1 h2, ?_, ?_, ?_⟩ <;> cases ed <;> decide

theorem freshVolume_standing : Standing freshVolume (soleOwn 2 3) := by
  have hdesc : freshVolume.fs.desc = filsysGetformat .v7 := by decide +kernel
  have hnum : Numbers freshVolume.fs :=
    (open_leaves_numbers (by decide) (by decide) fun _ _ => rfl).of_ok freshVolume_opened
  refine standing_of_root (fun _ _ => rfl) freshVolume_bare hnum
    (by rw [hdesc]; exact format_getformat .v7 (by decide) (by decide)) ?_
  rintro ⟨_, hk⟩
  cases hk

end Filsys.Names
