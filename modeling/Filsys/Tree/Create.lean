/-
  Filsys.Tree.Create — a new inode (alloc_freelist.c, v1fs.c, filsys.c).

  The V7 family takes a number from its cache after it has seen that the record is not
  live; V1 takes the first clear bit of its inode map, which is as good while the map has
  the bit of every live inode (`MapTrue`). Either way the number was no live inode's, and
  what belongs to the live ones is as it was (`Fresh`); `inodeCreate` then puts the new
  record out (`Born`).
-/

import Filsys.Check.Fresh
import Filsys.Engine.Keep
import Filsys.Tree.Drop

namespace Filsys.Tree

open Filsys.Lib Filsys.Engine Filsys.Alloc

/-! ## Records come in -/

theorem post_inodeIn {s : Mnt} (hm : Mounted s) (n : Nat) :
    Post (readInode n s) (fun ip t => ip = recordOf s.fs s.img n ∧ ValidIno s.fs n ∧ Looked s t)
      (fun _ t => (ValidIno s.fs n → Fault s) ∧ Looked s t) := by
  refine hm.post_readInode (fun hn => ⟨rfl, hn, looked_ticked s⟩)
    (fun hn _ => ⟨fun h => absurd h hn, looked_law.refl s⟩) fun hf _ => ?_
  exact ⟨fun _ => ⟨_, hf⟩, looked_ticked s⟩

/-! ## Allocation -/

/-- Inode `n`, which was no live inode's number, has been handed out. -/
structure Fresh (S : Scope) (n : Nat) (s : Mnt) (own : Own) (t : Mnt) : Prop where
  path : Path S s own t own
  apart : Apart (· = n) s own t own
  valid : ValidIno s.fs n
  was : ¬ Live s.fs s.img n
  dead : ¬ Live s.fs t.img n
  map : MapTrue t
  bit : s.fs.desc.ops = .v1 → 41 ≤ n ∧ getBit t.fs.inodemap (n - 41) = true

section Ialloc

variable {S : Scope} {own : Own}

theorem Apart.of_idle {s t : Mnt} (h : Idle s t) (T : Nat → Prop) (own : Own) : Apart T s own t own := by
  refine ⟨h.toSameVol, fun _ _ _ hb _ => hb, fun _ _ _ => ?_, fun _ _ _ _ _ => ?_⟩
  · rw [h.img]
  · rw [h.img]

theorem idle_refill (todo : Nat) : ∀ {s : Mnt} (n : Nat), Mounted s →
    Post (refill todo n s) (fun _ t => Idle s t) (fun _ t => Idle s t) := by
  induction todo with
  | zero => exact fun {s} _ _ => idle_law.refl s
  | succ todo ih =>
    intro s n hm
    refine post_bindFs (post_ite (fun _ => ?_) fun _ => idle_law.refl s)
    refine post_bind (post_failAs ((post_inodeIn hm n).mono ?_ fun _ _ h => h.2.idle))
    intro ip t hr
    obtain ⟨-, -, ht⟩ := hr
    have hstep : ∀ u, Idle s u → Post (refill todo (n + 1) u) (fun _ v => Idle s v) (fun _ v => Idle s v) := by
      intro u hu
      exact (ih (n + 1) (hm.of_sameVol hu.toSameVol)).mono (fun _ _ h => idle_law.trans hu h)
        fun _ _ h => idle_law.trans hu h
    refine post_bind (post_onlyIf (fun _ => ?_) fun _ => hstep t ht.idle)
    refine hstep _ (idle_law.trans ht.idle ⟨⟨rfl, rfl, rfl⟩, rfl, rfl, rfl, id⟩)

variable {s : Mnt} (h : Owned s own) (hmap : MapTrue s) (hS : ∀ n, ¬ Live s.fs s.img n → S.touch n)

include h hS

theorem post_iallocTurn (hv : s.fs.desc.ops ≠ .v1) :
    Post (iallocTurn s) (fun r t => match r with
      | some n => Fresh S n s own t
      | none => Idle s t) (fun _ t => Idle s t) := by
  have hm := h.mounted
  have hpop : Idle s { s with fs := { s.fs with ninode := s.fs.ninode - 1 } } :=
    ⟨⟨rfl, rfl, rfl⟩, rfl, rfl, rfl, id⟩
  refine post_bindFs (post_ite ?_ ?_)
  · intro _
    refine post_bindMod (post_ite (fun _ => hpop) fun hrange => ?_)
    generalize s.fs.inode (s.fs.ninode - 1) = cand at hrange ⊢
    refine post_bind (post_failAs ((post_inodeIn (hm.of_sameVol hpop.toSameVol) cand).mono ?_
      fun _ _ he => idle_law.trans hpop he.2.idle))
    intro ip t hrun
    obtain ⟨rfl, hvalid, ht⟩ := hrun
    have hst : Idle s t := idle_law.trans hpop ht.idle
    refine post_ite (fun _ => hst) fun hdead => ?_
    have hvalid' : ValidIno s.fs cand := hvalid
    have hwas : ¬ Live s.fs s.img cand := hdead
    have hot := owned_idle h hst
    have hfinish : ∀ u, Path S t own u own → Apart (· = cand) t own u own → ¬ Live s.fs u.img cand →
        Fresh S cand s own { u with fs := { u.fs with tinode := u.fs.tinode - 1, flDirty := true } } := by
      intro u hp ha hl
      have hidle : Idle u { u with fs := { u.fs with tinode := u.fs.tinode - 1, flDirty := true } } :=
        ⟨⟨rfl, rfl, rfl⟩, rfl, rfl, rfl, fun _ => rfl⟩
      refine ⟨((Path.one (.idle hst)).trans hp).snoc (.idle hidle), (Apart.of_idle hst _ own).trans
        (ha.trans (Apart.of_idle hidle _ own)), hvalid',
        hwas, hl, fun hops => ?_, fun hops => absurd hops hv⟩
      have : u.fs.desc.ops = .v1 := hops
      rw [shape_desc ha.shape, shape_desc hst.shape] at this
      exact absurd this hv
    refine post_bind (post_attempt ?_)
    have hout := post_inodeOut hot cand { ino := cand }
    cases hr : writeInode cand { ino := cand } t with
    | ok _ u =>
      rw [hr] at hout
      have hout : Out cand { ino := cand } t u := hout
      refine hfinish u (.one (.inode (hS _ hwas) (fun hh => absurd hh (not_holdsBlocks_zero _ _)) hr))
        (hout.apart hot) ?_
      rw [← shape_live hst.shape]
      exact not_live_zero hout.stored.mode
    | error e u =>
      rw [hr] at hout
      refine hfinish u (.one (.refused hr)) (Apart.of_kept hout.1 hot _) ?_
      have hrec : recordOf s.fs u.img cand = recordOf s.fs s.img cand := by
        rw [← shape_recordOf hst.shape, ← hst.img]
        exact recordOf_congr (hout.1.blocks _ (hot.mounted.itod_bounds
          ((shape_validIno hst.shape).mpr hvalid')).1)
      rw [live_congr hrec]
      exact hwas
  · intro _
    have hempty : Idle s { s with fs := { s.fs with ninode := 0 } } := ⟨⟨rfl, rfl, rfl⟩, rfl, rfl, rfl, id⟩
    refine post_bindMod (post_bind ((idle_refill _ 2 (hm.of_sameVol hempty.toSameVol)).mono ?_
      fun _ _ he => idle_law.trans hempty he))
    intro _ t ht
    exact post_bindFs (post_ite (fun _ => idle_law.trans hempty ht) fun _ => idle_law.trans hempty ht)

omit h hS in
theorem Fresh.after {s t u : Mnt} {n : Nat} (hst : Idle s t) (h : Fresh S n t own u) : Fresh S n s own u := by
  have hb := hst.shape
  refine ⟨(Path.one (.idle hst)).trans h.path, (Apart.of_idle hst _ own).trans h.apart,
    (shape_validIno hb).mp h.valid, ?_, ?_, h.map, ?_⟩
  · have := h.was
    rwa [shape_live hb, hst.img] at this
  · have := h.dead
    rwa [shape_live hb] at this
  · intro hops
    exact h.bit (by rw [shape_desc hb]; exact hops)

omit h hS in
theorem post_iallocLoop (fuel : Nat) :
    ∀ {s : Mnt}, Owned s own → (∀ n, ¬ Live s.fs s.img n → S.touch n) → s.fs.desc.ops ≠ .v1 →
    Post (v7fsIallocLoop fuel s) (fun n t => Fresh S n s own t) (fun _ t => Idle s t) := by
  induction fuel with
  | zero => exact fun {s} _ _ _ => idle_law.refl s
  | succ fuel ih =>
    intro s h hS hv
    refine post_bind ((post_iallocTurn h hS hv).mono ?_ fun _ _ he => he)
    intro r t hr
    cases r with
    | some n => exact hr
    | none =>
      have hr : Idle s t := hr
      refine (ih (owned_idle h hr) (fun n hn => hS n ?_) (by rw [shape_desc hr.shape]; exact hv)).mono ?_ ?_
      · rwa [shape_live hr.shape, hr.img] at hn
      · exact fun n u hu => hu.after hr
      · exact fun _ u hu => idle_law.trans hr hu

include hmap

theorem post_ialloc : Post (ialloc s) (fun n t => Fresh S n s own t) (fun _ t => Idle s t ∧ MapTrue t) := by
  have hfamily : s.fs.desc.ops ≠ .v1 → Post (v7fsIalloc s) (fun n t => Fresh S n s own t) (fun _ t =>
    Idle s t ∧ MapTrue t) := by
    intro hv
    refine (post_iallocLoop s.env.fuel h hS hv).mono (fun _ _ hf => hf) fun _ t ht => ⟨ht, fun hops => ?_⟩
    rw [shape_desc ht.shape] at hops
    exact absurd hops hv
  apply post_bindFs
  cases ho : s.fs.desc.ops with
  | pdp7 => exact absurd ho h.mounted.notPdp7
  | v6 => exact hfamily (by rw [ho]; decide)
  | v7 => exact hfamily (by rw [ho]; decide)
  | bsd211 => exact hfamily (by rw [ho]; decide)
  | v1 =>
    apply post_bindFs
    cases hc : firstClear s.fs.inodemap (s.fs.maxino + 1 - 41) 0 with
    | none => exact ⟨idle_law.refl s, hmap⟩
    | some bit =>
      obtain ⟨-, hlt, hclear⟩ := Check.firstClear_some hc
      have hsub : bit + 41 - 41 = bit := Nat.add_sub_cancel ..
      have hidle : Idle s { s with
          fs := { s.fs with
            inodemap := putBit s.fs.inodemap bit true, tinode := s.fs.tinode - 1, flDirty := true } } :=
        ⟨⟨rfl, rfl, rfl⟩, rfl, rfl, rfl, fun _ => rfl⟩
      have hwas : ¬ Live s.fs s.img (bit + 41) :=
        hmap ho (bit + 41) (by omega) (by omega) (by rw [hsub]; exact hclear)
      refine ⟨.one (.idle hidle), Apart.of_idle hidle _ own, ⟨by omega, ?_⟩, hwas, hwas,
        ?_, fun _ => ⟨by omega, ?_⟩⟩
      · rw [if_pos ho]
        omega
      · refine hmap.frame hidle.toSameVol (fun i hi => .inl ?_) fun n _ _ hl => hl
        have hi : getBit (putBit s.fs.inodemap bit true) i = false := hi
        rw [getBit_putBit] at hi
        split at hi
        · cases hi
        · exact hi
      · show getBit (putBit s.fs.inodemap bit true) (bit + 41 - 41) = true
        rw [hsub, getBit_putBit, if_pos rfl]

end Ialloc

/-! ## Mode words -/

/-- The constants of an edition's mode words. -/
structure ModeWords where
  ops : Ops
  ifmt : Nat
  ifdir : Nat
  ifreg : Nat
  ifchr : Nat
  ifblk : Nat
  iflnk : Nat
  ifmpc : Nat
  ifmpb : Nat
  iallocated : Nat
  ilargMask : Nat
  deriving DecidableEq

def modeWords (d : Desc) : ModeWords :=
  ⟨d.ops, d.ifmt, d.ifdir, d.ifreg, d.ifchr, d.ifblk, d.iflnk, d.ifmpc, d.ifmpb, d.iallocated, d.ilargMask⟩

/-- The mode words are those of an edition of the table. -/
def Modes (d : Desc) : Prop := ∃ e, e ≠ .pdp7 ∧ modeWords d = modeWords (filsysGetformat e)

/-- The forms mode words come in. -/
theorem Modes.cases {d : Desc} (h : Modes d) : modeWords d = modeWords descV1 ∨ modeWords d = modeWords descV6 ∨
    modeWords d = modeWords descV7 ∨ modeWords d = modeWords descV8 ∨ modeWords d = modeWords descBsd211 := by
  obtain ⟨e, hne, h⟩ := h
  rw [h]
  cases e with
  | pdp7 => exact absurd rfl hne
  | v1 => exact .inl rfl
  | v6 => exact .inr (.inl rfl)
  | bsd211 => exact .inr (.inr (.inr (.inr rfl)))
  | v8 | v9 | v10 => exact .inr (.inr (.inr (.inl rfl)))
  | v7 | v32 | coherent | xenix | bsd29 | sysiii | svr2 | svr4 => exact .inr (.inr (.inl rfl))

namespace ModeWords

/-- The allocated bit and the type bits a new inode gets. -/
def bits (w : ModeWords) (type : FileType) : Nat := w.iallocated ||| (match type with
  | .dir => w.ifdir
  | .chr => w.ifchr
  | .blk => w.ifblk
  | .lnk => w.iflnk
  | .reg => w.ifreg)

/-- These bits, apart from the permissions, tell live from dead and the types apart. -/
structure Sound (w : ModeWords) (type : FileType) : Prop where
  lt : w.bits type < 65536
  fmt : 0o7777 &&& w.ifmt = 0
  allocated : 0o7777 &&& w.iallocated = 0
  large : 0o7777 &&& w.ilargMask = 0
  live : if w.iallocated = 0 then w.bits type &&& w.ifmt ≠ 0 else w.bits type &&& w.iallocated ≠ 0
  dir : (w.bits type &&& w.ifmt == w.ifdir) = (type == .dir)
  device : (w.bits type &&& w.ifmt == w.ifchr || w.bits type &&& w.ifmt == w.ifblk ||
    (w.ifmpc != 0 && w.bits type &&& w.ifmt == w.ifmpc) ||
    (w.ifmpb != 0 && w.bits type &&& w.ifmt == w.ifmpb)) = (type == .chr || type == .blk)
  small : w.bits type &&& w.ilargMask = 0

end ModeWords

/-- The permission bits say nothing of a mask above them. -/
theorem perm_or_and (m a c : Nat) (h : 0o7777 &&& c = 0) : ((m &&& 0o7777) ||| a) &&& c = a &&& c := by
  rw [Nat.and_or_distrib_right, Nat.and_assoc, h, Nat.and_zero, Nat.zero_or]

/-- What a new inode's mode word says. -/
structure NewMode (d : Desc) (type : FileType) (mode : Nat) : Prop where
  lt : mode < 65536
  live : inodeLive d mode = true
  dir : ∀ n, modeIsDir d { ino := n, mode := mode } = (type == .dir)
  device : ∀ n, d.ops ≠ .v1 → modeIsDevice d { ino := n, mode := mode } = (type == .chr || type == .blk)
  small : has mode d.ilargMask = false

theorem newMode_v1 {d : Desc} (h : modeWords d = modeWords descV1) (m : Nat) (type : FileType) :
    NewMode d type (modeToDisk d m type) := by
  have ho : d.ops = .v1 := congrArg ModeWords.ops h
  have hal : d.iallocated = 0 := congrArg ModeWords.iallocated h
  have hil : d.ilargMask = 0o10000 := congrArg ModeWords.ilargMask h
  have hm : modeToDisk d m type = toV1Mode m (type == .dir) := by
    unfold modeToDisk
    rw [ho]
  -- the word is one of 128
  have hfacts : ∀ b1 b2 b3 b4 b5 b6 b7 : Bool, ∀ v, v = 0o100000 ||| (if b1 then 0o040000
    else 0) ||| (if b2 then 0o10 else 0)
      ||| (if b3 then 0o4 else 0) ||| (if b4 then 0o20 else 0) ||| (if b5 then 0o2 else 0) |||
        (if b6 then 0o1 else 0)
      ||| (if b7 then 0o40 else 0) → v < 65536 ∧ (v != 0) = true ∧ has v 0o040000 = b1 ∧
        has v 0o10000 = false := by
    rintro b1 b2 b3 b4 b5 b6 b7 v rfl
    revert b1 b2 b3 b4 b5 b6 b7
    decide
  obtain ⟨h1, h2, h3, h4⟩ := hfacts _ _ _ _ _ _ _ (toV1Mode m (type == .dir)) rfl
  rw [hm]
  refine ⟨h1, ?_, ?_, fun n hv => absurd ho hv, by rw [hil]; exact h4⟩
  · unfold inodeLive
    rw [hal]
    exact h2
  · intro n
    unfold modeIsDir
    rw [ho]
    exact h3

theorem newMode_words {d : Desc} (hv : d.ops ≠ .v1) (hp : d.ops ≠ .pdp7) {type : FileType}
    (h : (modeWords d).Sound type) (m : Nat) :
    NewMode d type (modeToDisk d m type) := by
  generalize hk : (modeWords d).bits type = k at *
  have hm : modeToDisk d m type = (m &&& 0o7777) ||| k := by
    rw [← hk]
    unfold modeToDisk ModeWords.bits
    split
    · exact absurd ‹_› hv
    · exact absurd ‹_› hp
    · cases type with
      | reg =>
        show (if d.ifreg != 0 then (m &&& 0o7777) ||| d.iallocated ||| d.ifreg
          else (m &&& 0o7777) ||| d.iallocated) = _
        split
        · exact Nat.or_assoc ..
        · rename_i h0
          have h0 : d.ifreg = 0 := by simpa using h0
          show (m &&& 0o7777) ||| d.iallocated = (m &&& 0o7777) ||| (d.iallocated ||| d.ifreg)
          rw [h0, Nat.or_zero]
      | dir => exact Nat.or_assoc ..
      | chr => exact Nat.or_assoc ..
      | blk => exact Nat.or_assoc ..
      | lnk => exact Nat.or_assoc ..
  have hbits : ∀ c, 0o7777 &&& c = 0 → ((m &&& 0o7777) ||| k) &&& c = k &&& c :=
    fun c hc => perm_or_and m k c hc
  obtain ⟨hlt, hfmt, hall, hlarge, hlive, hdir, hdev, hsm⟩ := h
  rw [hk] at hlt hlive hdir hdev hsm
  rw [hm]
  have hperm : m &&& 0o7777 < 2 ^ 16 := Nat.lt_of_le_of_lt Nat.and_le_right (by decide)
  refine ⟨Nat.or_lt_two_pow hperm hlt, ?_, fun n => ?_, fun n _ => ?_, ?_⟩
  · unfold inodeLive
    replace hlive : if d.iallocated = 0 then k &&& d.ifmt ≠ 0 else k &&& d.iallocated ≠ 0 := hlive
    split at hlive
    · rename_i h0
      rw [h0]
      refine bne_iff_ne.mpr fun hz => hlive ?_
      rw [← hbits d.ifmt hfmt, hz, Nat.zero_and]
    · rename_i h0
      rw [if_pos (by simpa using h0)]
      unfold has
      rw [hbits d.iallocated hall]
      simpa using hlive
  · unfold modeIsDir
    split
    · exact absurd ‹_› hv
    · exact absurd ‹_› hp
    · show (((m &&& 0o7777) ||| k) &&& d.ifmt == d.ifdir) = _
      rw [hbits d.ifmt hfmt]
      exact hdir
  · unfold modeIsDevice
    split
    · exact absurd ‹_› hv
    · exact absurd ‹_› hp
    · show (((m &&& 0o7777) ||| k) &&& d.ifmt == d.ifchr || ((m &&& 0o7777) ||| k) &&& d.ifmt == d.ifblk ||
        (d.ifmpc != 0 && ((m &&& 0o7777) ||| k) &&& d.ifmt == d.ifmpc) ||
        (d.ifmpb != 0 && ((m &&& 0o7777) ||| k) &&& d.ifmt == d.ifmpb)) = _
      rw [hbits d.ifmt hfmt]
      exact hdev
  · unfold has
    rw [hbits d.ilargMask hlarge]
    exact bne_eq_false_iff_eq.mpr hsm

theorem newMode {d : Desc} (h : Modes d) (m : Nat) {type : FileType} (hl : type = .lnk → d.iflnk ≠ 0) :
    NewMode d type (modeToDisk d m type) := by
  have hops : ∀ {w : Desc}, modeWords d = modeWords w → d.ops = w.ops := fun h => congrArg ModeWords.ops h
  have hlnk : ∀ {w : Desc}, modeWords d = modeWords w → d.iflnk = w.iflnk := fun h => congrArg ModeWords.iflnk h
  rcases h.cases with h | h | h | h | h
  · exact newMode_v1 h m type
  · refine newMode_words (by rw [hops h]; decide) (by rw [hops h]; decide) ?_ m
    rw [h]
    cases type with
    | lnk => exact absurd (hlnk h) (hl rfl)
    | reg | dir | chr | blk => constructor <;> decide
  · refine newMode_words (by rw [hops h]; decide) (by rw [hops h]; decide) ?_ m
    rw [h]
    cases type with
    | lnk => exact absurd (hlnk h) (hl rfl)
    | reg | dir | chr | blk => constructor <;> decide
  · refine newMode_words (by rw [hops h]; decide) (by rw [hops h]; decide) ?_ m
    rw [h]
    cases type <;> constructor <;> decide
  · refine newMode_words (by rw [hops h]; decide) (by rw [hops h]; decide) ?_ m
    rw [h]
    cases type <;> constructor <;> decide

/-! ## Creation -/

/-- The copy `inodeCreate` makes. -/
def newInode (d : Desc) (n mode uid gid : Nat) (type : FileType) (rdev now : Nat) : Inode := {
  ino := n
  mode := modeToDisk d mode type
  nlink := if type = .dir then 2 else 1
  uid := toInt16 uid
  gid := toInt16 gid
  atime := now
  mtime := now
  ctime := now
  addr := fun i => if i = 0 then rdev else 0 }

/-- Inode `n`, which was no live inode's number, has the record of the copy `ip`. -/
structure Born (S : Scope) (n : Nat) (ip : Inode) (s : Mnt) (own : Own) (t : Mnt) : Prop where
  path : Path S s own t own
  apart : Apart (· = n) s own t own
  valid : ValidIno s.fs n
  was : ¬ Live s.fs s.img n
  stored : Stored s.fs.desc n ip (recordOf s.fs t.img n)
  map : MapTrue t

/-- A number was taken and given back, its record dead. -/
structure Unborn (S : Scope) (s : Mnt) (own : Own) (t : Mnt) : Prop where
  path : Path S s own t own
  apart : ∃ T : Nat → Prop, (∀ n, T n → ¬ Live s.fs s.img n ∧ ¬ Live s.fs t.img n) ∧ Apart T s own t own
  map : MapTrue t

theorem view_newInode (d : Desc) (own : Own) (n mode uid gid : Nat) (type : FileType) (now : Nat) :
    View d own n (newInode d n mode uid gid type 0 now) := by
  intro slot _ h0
  refine absurd ?_ h0
  show (if slot = 0 then 0 else 0) = 0
  split <;> rfl

theorem post_inodeCreate {S : Scope} {s : Mnt} {own : Own} (h : Owned s own) (hmap : MapTrue s)
    (hS : ∀ n, ¬ Live s.fs s.img n → S.touch n)
    (hmodes : Modes s.fs.desc) (mode uid gid : Nat) {type : FileType} {rdev : Nat}
    (hl : type = .lnk → s.fs.desc.iflnk ≠ 0)
    (hdev : rdev ≠ 0 → s.fs.desc.ops ≠ .v1 ∧ (type = .chr ∨ type = .blk)) :
    Post (inodeCreate mode uid gid type rdev s)
      (fun r t => Born S r.1 r.2 s own t ∧ ∃ now, r.2 = newInode s.fs.desc r.1 mode uid gid type rdev now)
      (fun _ t => Unborn S s own t ∧ (Fault s ∨ Idle s t)) := by
  refine post_bindFs (post_bind ((post_ialloc h hmap hS).mono ?_ ?_))
  · intro n t hf
    have hot := hf.path.owned h
    have hd := shape_desc hf.apart.shape
    have hticks : Idle t { t with ticks := t.ticks + 1 } := ⟨⟨rfl, rfl, rfl⟩, rfl, rfl, rfl, id⟩
    show Post (storeNew n (newInode s.fs.desc n mode uid gid type rdev (t.env.clock t.ticks % 2 ^ 32))
      { t with ticks := t.ticks + 1 }) _ _
    unfold storeNew
    generalize hip : newInode s.fs.desc n mode uid gid type rdev (t.env.clock t.ticks % 2 ^ 32) = ip
    generalize hu : ({ t with ticks := t.ticks + 1 } : Mnt) = u at hticks ⊢
    have hou := owned_idle hot hticks
    have hdu : u.fs.desc = s.fs.desc := (shape_desc hticks.shape).trans hd
    have hmode : ip.mode = modeToDisk s.fs.desc mode type := by rw [← hip]; rfl
    have hview : HoldsBlocks u.fs.desc n ip.mode → View u.fs.desc own n ip := by
      intro hh
      by_cases hr0 : rdev = 0
      · rw [hdu, ← hip, hr0]
        exact view_newInode s.fs.desc own n mode uid gid type _
      · obtain ⟨hv, htype⟩ := hdev hr0
        have hnm := newMode hmodes mode hl
        have hnd := hh.2
        rw [hdu, hmode, Nat.mod_eq_of_lt hnm.lt, hnm.device n hv] at hnd
        rcases htype with rfl | rfl <;> cases hnd
    have hsu : shape u.fs = shape s.fs := hticks.shape.trans hf.apart.shape
    have hap : Apart (· = n) s own u own := hf.apart.trans (Apart.of_idle hticks _ own)
    have hpath : Path S s own u own := hf.path.snoc (.idle hticks)
    have hmapu : MapTrue u := by
      rw [← hu]
      exact hf.map
    have hdeadu : ¬ Live s.fs u.img n := by
      rw [hticks.img]
      exact hf.dead
    have hvalidu : ValidIno u.fs n := (shape_validIno hsu).mpr hf.valid
    have hbitu : s.fs.desc.ops = .v1 → 41 ≤ n ∧ getBit u.fs.inodemap (n - 41) = true := by
      rw [← hu]
      exact hf.bit
    refine post_bind (post_attempt ?_)
    have hout := post_inodeOut hou n ip
    have hkeep := sameIno_law.writeInode n ip u
    cases hr : writeInode n ip u with
    | ok _ v =>
      rw [hr] at hout hkeep
      have hout : Out n ip u v := hout
      have hkeep : SameIno u v := hkeep
      refine ⟨⟨hpath.snoc (.inode (hS n hf.was) hview hr), hap.trans (hout.apart hou), hf.valid,
        hf.was, ?_, ?_⟩, _, hip.symm⟩
      · have := hout.stored
        rwa [hdu, shape_recordOf hsu] at this
      · by_cases hops : s.fs.desc.ops = .v1
        · refine hmapu.frame hout.toSameVol (fun i hi => .inl ?_) ?_
          · rwa [hkeep.inodemap hou.mounted.solo] at hi
          · intro k hvk hbit hlive
            by_cases hk : k = n
            · subst hk
              rw [hkeep.inodemap hou.mounted.solo, (hbitu hops).2] at hbit
              cases hbit
            · rwa [live_congr (hout.recs k hvk hk)] at hlive
        · intro hv
          rw [shape_desc hout.shape, hdu] at hv
          exact absurd hv hops
    | error e v =>
      rw [hr] at hout hkeep
      have hkept : Kept u v := hout.1
      have hkeep : SameIno u v := hkeep
      have hov := owned_kept hou hkept
      refine post_bind ((post_ifree hov.mounted.notPdp7 n).mono ?_ fun _ _ hf => hf.elim)
      intro _ w hrun
      obtain ⟨hidle, hbits⟩ := hrun
      have hapw : Apart (· = n) s own w own :=
        hap.trans ((Apart.of_kept hkept hou _).trans (Apart.of_idle hidle _ own))
      have hrecs : ∀ k, ValidIno u.fs k → recordOf u.fs w.img k = recordOf u.fs u.img k := by
        intro k hk
        rw [hidle.img]
        exact recordOf_congr (hkept.blocks _ (hou.mounted.itod_bounds hk).1)
      have hdeadw : ¬ Live s.fs w.img n := by
        rw [← shape_live hsu, live_congr (hrecs n hvalidu), shape_live hsu]
        exact hdeadu
      refine ⟨⟨(hpath.snoc (.refused hr)).snoc (.idle hidle),
        ⟨(· = n), fun k hk => hk ▸ ⟨hf.was, hdeadw⟩, hapw⟩, ?_⟩, .inl ?_⟩
      · refine hmapu.frame (sameVol_law.trans hkept.toSameVol hidle.toSameVol) ?_ ?_
        · intro i hi
          rcases hbits i hi with hb | rfl
          · rw [hkeep.inodemap hou.mounted.solo] at hb
            exact .inl hb
          · refine .inr ?_
            rw [shape_live hsu]
            exact hdeadw
        · intro k hk _ hlive
          rwa [live_congr (hrecs k hk)] at hlive
      · obtain ⟨k, hk⟩ := hout.2 hvalidu
        exact ⟨k, by rw [hap.env] at hk; exact hk⟩
  · intro _ t hrun
    obtain ⟨ht, hmapt⟩ := hrun
    exact ⟨⟨.one (.idle ht), ⟨fun _ => False, fun _ hf => hf.elim, Apart.of_idle ht _ own⟩, hmapt⟩, .inr ht⟩

end Filsys.Tree
