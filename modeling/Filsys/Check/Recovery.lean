/-
  Filsys.Check.Recovery — the recovery directory stays allocated (check.c).

  `filsys_preen` makes its recovery directory while it holds what the check found before
  the directory existed: the state and the entry count of an inode that was free then.
  Every turn of the repair loop keeps the new record (`preenTurn_guards`), but for the one
  that clears an inode which was free and is named; the record is live to begin with where
  `dir_mode` has the bit the edition's allocator looks for, which V6's has not.
-/

import Filsys.Check.Guard
import Filsys.Check.Sound
import Filsys.Engine.Preen

namespace Filsys.Check

open Filsys.Lib Filsys.Engine

/-! ## Copies -/

section Pass

variable {d : Desc} {n : Nat} {P : Prop}

/-- A record as it is read. -/
theorem post_copy {s : Mnt} (hs : Host d s) (m : Nat) :
    Post (readInode m s) (fun ip t => (ip.ino = m ∧ ip.mode = modeWord s.fs s.img m) ∧ ReadOnly s t)
    (fun _ t => ReadOnly s t) := by
  refine Post.mono (Post.and (Q := fun ip _ => ip.ino = m ∧ ip.mode = modeWord s.fs s.img m) (E :=
    fun _ _ => True) ?_ (readInode_peeks m s))
    (fun _ _ h => h) fun _ _ h => h.2
  rcases hs.ready with hm | hm
  · refine hm.post_readInode (fun _ => ?_) (fun _ _ => trivial) fun _ _ => trivial
    unfold modeWord
    rw [if_neg hm.notPdp7]
    refine ⟨?_, rfl⟩
    unfold recordOf decodeAt decodeInode
    split
    · rfl
    · split <;> rfl
  · rw [hm.readInode_eq]
    refine post_ite (fun _ => trivial) fun _ =>
      post_bind (post_failAs (hm.post_readWords (fun _ _ => ?_) (fun _ _ => trivial) fun _ _ => trivial))
    have hcopy : (p7DecodeInode m fun i => wordsOf s.fs s.img (p7Itod m) (p7Itoo m + i)).ino = m ∧
        (p7DecodeInode m fun i => wordsOf s.fs s.img (p7Itod m) (p7Itoo m + i)).mode =
        modeWord s.fs s.img m := by
      refine ⟨rfl, ?_⟩
      rw [modeWord, if_pos hm.pdp7]
      rfl
    refine post_ite (fun _ => post_bind (post_inside ?_)) fun _ => hcopy
    refine post_keeps (inodeReadWord_peeks _) (fun lastw _ _ => ?_) fun _ _ _ => hcopy
    show (if lastw % 512 = 0 then _ else _ : Inode).ino = _ ∧
      (if lastw % 512 = 0 then _ else _ : Inode).mode = _
    split
    · exact hcopy
    · exact hcopy

/-- What a directory routine leaves of the volume and of the copy it worked on. -/
structure Worked (d : Desc) (n : Nat) (P : Prop) (s : Mnt) (ip : Inode) (t : Mnt) (ip' : Inode) : Prop where
  guards : Guards d n P s t
  ino : ip'.ino = ip.ino
  asked : Asked d n P ip'.ino ip'.mode

theorem post_onIp {α : Type} {x : MI α} {s : Mnt} {ip : Inode}
    (law : WriteLaw (Asked d n P) (Guards d n P)) (hok : Asked d n P ip.ino ip.mode)
    (hx : Post (x (s, ⟨ip, []⟩)) (fun _ t => law.Beside (s, ⟨ip, []⟩) t)
      (fun _ t => law.Beside (s, ⟨ip, []⟩) t)) :
    Post (onIp ip x s) (fun r t => Worked d n P s ip t r.2) (fun _ _ => False) := by
  have hworked : ∀ t : Mnt × Loc, law.Beside (s, ⟨ip, []⟩) t → Worked d n P s ip t.1 t.2.ip := by
    intro t ht
    obtain ⟨hg, hi, ha⟩ := ht hok
    exact ⟨hg, hi, ha⟩
  exact post_bind (post_inside (hx.mono (fun _ t ht => hworked t ht) fun _ t ht => hworked t ht))

theorem post_enter {s : Mnt} (hs : Host d s) (h0 : n ≠ 0) {ip : Inode}
    (hok : Asked d n P ip.ino ip.mode) (m : Nat) (name : Name) :
    Post (onIp ip (dirAdd m name) s) (fun r t => Worked d n P s ip t r.2) (fun _ _ => False) := by
  have law := @guards_law d n P h0
  refine post_onIp law hok ?_
  unfold dirAdd
  rw [bindUpFs_run]
  rw [hs.desc]
  cases hops : d.ops with
  | bsd211 => exact law.bsd211DirAdd m name _
  | pdp7 => exact law.p7fsDirAdd (fun k ip hk => keeps_host fun t ht => p7Record_guards ht hops hk) m name _
  | v1 => exact law.v7fsDirAdd m name _
  | v6 => exact law.v7fsDirAdd m name _
  | v7 => exact law.v7fsDirAdd m name _

theorem post_leave {s : Mnt} (h0 : n ≠ 0) {ip : Inode} (hok : Asked d n P ip.ino ip.mode) (name : Name) :
    Post (onIp ip (dirRemove name) s) (fun r t => Worked d n P s ip t r.2) (fun _ _ => False) :=
  post_onIp (guards_law h0) hok ((guards_law h0).dirRemove name _)

/-- What was asked of a writer of `n`'s record follows from the record read before. -/
theorem Guards.always {s t : Mnt} (h : Guards d n (LiveOn s.fs s.img n) s t) : Guards d n True s t := by
  intro hs
  obtain ⟨hvol, hmap, evs, htr, hlive⟩ := h hs
  exact ⟨hvol, hmap, evs, htr, fun _ hmiss hl => hlive hl hmiss hl⟩

/-- A copy of any record, its mode as it was read. -/
theorem asked_copy {s : Mnt} (hs : Host d s) {m : Nat} {ip : Inode}
    (hc : ip.ino = m ∧ ip.mode = modeWord s.fs s.img m) :
    Asked d n (LiveOn s.fs s.img n) ip.ino ip.mode := by
  rintro hl hm
  unfold LiveOn at hl
  rw [hs.desc] at hl
  rw [hc.2, ← hc.1, hm]
  exact hl

theorem asked_other {m : Nat} (hne : m ≠ n) (mode : Nat) : Asked d n P m mode := fun _ h => absurd h hne

/-- Run on a copy just read. -/
theorem copy_guards {m : Nat} {f : Except Errno Inode → M Unit}
    (herr : ∀ e, Keeps (Guards d n True) (f (.error e)))
    (hok : ∀ {s} (P : Prop) ip, Host d s → ip.ino = m → Asked d n P ip.ino ip.mode →
      Post (f (.ok ip) s) (fun _ t => Guards d n P s t) (fun _ t => Guards d n P s t)) :
    Keeps (Guards d n True) (attempt (readInode m) >>= f) := by
  have law := guards_base d n True
  refine keeps_host fun s hs => post_bind (post_attempt ((post_copy hs m).mono ?_ fun e t ht => ?_))
  · intro ip t h
    obtain ⟨hc, ht⟩ := h
    obtain ⟨k, -, rfl⟩ := ht hs.solo
    have hpeek : Guards d n True s { s with ios := k } := guards_peek ht
    have hs' : Host d { s with ios := k } := hs.of_sameVol ⟨rfl, rfl, rfl⟩
    refine (hok _ ip hs' hc.1 (asked_copy hs' hc)).mono (fun _ u hu => law.trans hpeek ?_)
      fun _ u hu => law.trans hpeek ?_
    · exact hu.always
    · exact hu.always
  · have hpeek : Guards d n True s t := guards_peek ht
    exact (herr e t).mono (fun _ _ hu => law.trans hpeek hu) fun _ _ hu => law.trans hpeek hu

/-! ## The turns -/

theorem clearInode_guards (h0 : n ≠ 0) {ino : Nat} (hok : Asked d n P ino 0) (ip : Inode) :
    Keeps (Guards d n P) (clearInode ino ip) :=
  (guards_base d n P).seq (keeps_attempt (record_guards h0 ino _ hok)) fun _ => (guards_base d n P).ret _

/-- A directory routine, then what is done with its outcome and the copy. -/
theorem keeps_onIp {x : MI Unit} {ip : Inode} {f : Except Errno Unit × Inode → M Unit}
    (hx : ∀ {s}, Host d s → Post (onIp ip x s) (fun r t => Worked d n P s ip t r.2) (fun _ _ => False))
    (hf : ∀ rc ip', ip'.ino = ip.ino → Asked d n P ip'.ino ip'.mode → Keeps (Guards d n P) (f (rc, ip'))) :
    Keeps (Guards d n P) (onIp ip x >>= f) := by
  have law := guards_base d n P
  refine keeps_host fun s hs => post_bind ((hx hs).mono ?_ fun _ _ h => h.elim)
  intro p t hw
  obtain ⟨rc, ip'⟩ := p
  exact (hf rc ip' hw.ino hw.asked t).mono (fun _ _ h => law.trans hw.guards h)
    fun _ _ h => law.trans hw.guards h

/-- The two records that go out at the end of a reconnect. -/
theorem records_guards (h0 : n ≠ 0) {ino : Nat} (hne : ino ≠ n) (ip : Inode) {lf : Inode}
    (hlf : Asked d n P n lf.mode) :
    Keeps (Guards d n P) (attempt (writeInode ino ip) >>= fun _ => attempt (writeInode n lf) >>=
      fun _ => (pure () : M Unit)) := by
  have law := guards_base d n P
  refine law.seq (keeps_attempt (record_guards h0 ino ip (asked_other hne _))) fun _ => ?_
  refine law.seq (keeps_attempt (record_guards h0 n lf hlf)) fun _ => ?_
  exact law.ret _

theorem reconnect_guards (h0 : n ≠ 0) {ino : Nat} (hne : ino ≠ n) (ip : Inode) :
    Keeps (Guards d n True) (reconnect n ino ip) := by
  refine copy_guards (fun _ => (guards_base d n True).ret _) fun {s} P lf _ hlf hask => ?_
  refine keeps_onIp (fun hs => post_enter hs h0 hask ino (decimal ino)) (fun rc lf' hi ha => ?_) s
  rw [hi, hlf] at ha
  cases rc with
  | error e => exact (guards_base d n P).ret _
  | ok u => exact records_guards h0 hne _ ha

theorem reconnectDir_guards (h0 : n ≠ 0) {ino : Nat} (hne : ino ≠ n) {ip : Inode} (hip : ip.ino = ino) :
    Keeps (Guards d n True) (reconnectDir n ino ip) := by
  refine copy_guards (fun _ => (guards_base d n True).ret _) fun {s} P lf _ hlf hask => ?_
  have law := guards_base d n P
  have hask0 : Asked d n P ip.ino ip.mode := asked_other (hip ▸ hne) _
  refine keeps_onIp (fun _ => post_leave h0 hask0 dotdot) (fun rc ip₁ _ ha₁ => ?_) s
  cases rc with
  | error e => exact law.ret _
  | ok u =>
    refine keeps_onIp (fun hs => post_enter hs h0 ha₁ n dotdot) fun rc ip₂ _ _ => ?_
    cases rc with
    | error e => exact law.ret _
    | ok u =>
      refine keeps_onIp (fun hs => post_enter hs h0 hask ino (decimal ino)) fun rc lf' hi ha => ?_
      rw [hi, hlf] at ha
      have hnamed : Asked d n P n (mod16 lf' 1).mode := ha
      cases rc with
      | error e => exact law.ret _
      | ok u => exact records_guards h0 hne _ hnamed

/-- What holds whatever the record's writers rely on. -/
theorem Guards.anyhow {s t : Mnt} (h : Guards d n True s t) : Guards d n P s t :=
  fun hs => (h hs).relies fun _ => trivial

theorem keeps_anyhow {α : Type} {x : M α} (h : Keeps (Guards d n True) x) : Keeps (Guards d n P) x :=
  h.mono Guards.anyhow

/-- One turn of the loop keeps the new directory's record, unless it clears it: the inode was free when
    the check looked, an entry names it and the answer is yes. -/
theorem preenTurn_guards (h0 : n ≠ 0) {o : Orders} {ino : Nat}
    (hclear : ino = n → ¬ (o.state ino = .unalloc ∧ o.ecount ino % 256 ≠ 0 ∧ o.ask ino = true)) :
    Keeps (Guards d n True) (preenTurn o n ino) := by
  have hret : ∀ P, Keeps (Guards d n P) (pure () : M Unit) := fun P => (guards_base d n P).ret _
  refine (guards_base d n True).bindFs fun fs => ?_
  refine copy_guards (fun _ => hret _) fun {s} P ip hs hino hask => ?_
  have law := guards_base d n P
  have hturn : Keeps (Guards d n P) (if o.state ino = .unalloc then
    onlyIf (o.ecount ino % 256 ≠ 0 ∧ o.ask ino) (clearInode ino ip)
      else if ((o.ecount ino % 256 : Nat) : Int) = ip.nlink ∧ o.ecount ino % 256 ≠ 0 then pure ()
      else if ino = fs.desc.rootino ∨ ino = n ∨ ino = fs.desc.badino then pure ()
      else if o.ecount ino % 256 = 0 then
        if n = 0 then pure ()
        else if isRegular fs.desc ip then onlyIf (o.ask ino) (reconnect n ino ip)
        else onlyIf (o.ask ino) (clearInode ino ip)
      else if o.ecount ino % 256 = 1 ∧ o.state ino = .idir ∧ !fs.desc.synthDot ∧ n ≠ 0 then
      onlyIf (o.ask ino) (reconnectDir n ino ip)
      else if fs.desc.synthDot ∧ !isRegular fs.desc ip then pure ()
      else onlyIf (o.ask ino) do
        let _ ← attempt (writeInode ino { ip with nlink := (o.ecount ino % 256 : Nat) })
        return () : M Unit) := by
    by_cases hfree : o.state ino = .unalloc
    · rw [if_pos hfree]
      unfold onlyIf
      by_cases hyes : o.ecount ino % 256 ≠ 0 ∧ o.ask ino
      · rw [if_pos hyes]
        exact clearInode_guards h0 (asked_other (fun h => hclear h ⟨hfree, hyes⟩) _) ip
      · rw [if_neg hyes]
        exact hret P
    · rw [if_neg hfree]
      refine keeps_ite (hret P) ?_
      by_cases hlast : ino = fs.desc.rootino ∨ ino = n ∨ ino = fs.desc.badino
      · rw [if_pos hlast]
        exact hret P
      · rw [if_neg hlast]
        have hne : ino ≠ n := fun h => hlast (.inr (.inl h))
        have hdrop : Keeps (Guards d n P) (clearInode ino ip) := clearInode_guards h0 (asked_other hne _) ip
        refine keeps_ite (keeps_ite (hret P)
          (keeps_ite (keeps_onlyIf law (keeps_anyhow (reconnect_guards h0 hne ip)))
          (keeps_onlyIf law hdrop))) ?_
        refine keeps_ite (keeps_onlyIf law (keeps_anyhow (reconnectDir_guards h0 hne hino)))
          (keeps_ite (hret P) (keeps_onlyIf law ?_))
        exact law.seq (keeps_attempt (record_guards h0 ino _ (asked_other hne _))) fun _ => hret P
  exact hturn s

/-- The loop over every inode. -/
theorem preenLoop_guards (h0 : n ≠ 0) {o : Orders} (todo ino : Nat)
    (hclear : ino ≤ n → n < ino + todo → ¬ (o.state n = .unalloc ∧ o.ecount n % 256 ≠ 0 ∧ o.ask n = true)) :
    Keeps (Guards d n True) (preenLoop o n todo ino) := by
  induction todo generalizing ino with
  | zero => exact (guards_base d n True).ret _
  | succ todo ih =>
    refine (guards_base d n True).seq (preenTurn_guards h0 fun h => ?_) fun _ => ih (ino + 1)
      fun hlo hhi => hclear (by omega) (by omega)
    subst h
    exact hclear (Nat.le_refl _) (by omega)

/-! ## The counts -/

theorem countNamed_peeks (dd : Desc) (target : Nat) (ip : Inode) (fuel : Nat) (st : Iter) (cnt : Nat) :
    Peeks (countNamed dd target ip fuel st cnt) := by
  induction fuel generalizing st cnt with
  | zero => exact readOnly_law.fail _
  | succ fuel ih =>
    refine readOnly_law.seq (inside_peeks (dirIter_peeks st) _) fun r => ?_
    split
    · exact readOnly_law.ret _
    · exact readOnly_law.ret _
    · exact keeps_ite (ih _ _) (ih _ _)

theorem countLinksFrom_peeks (target todo ino cnt : Nat) : Peeks (countLinksFrom target todo ino cnt) := by
  induction todo generalizing ino cnt with
  | zero => exact readOnly_law.ret _
  | succ todo ih =>
    refine bindFs_peeks fun fs => readOnly_law.seq (keeps_attempt (readInode_peeks ino)) fun r => ?_
    cases r with
    | error e => exact ih _ _
    | ok ip => exact keeps_ite (readOnly_law.seq (countNamed_peeks _ _ _ _ _ _) fun _ => ih _ _) (ih _ _)

theorem recount_guards (h0 : n ≠ 0) (maxino target : Nat) :
    Keeps (Guards d n True) (recount maxino target) := by
  have hret : ∀ P, Keeps (Guards d n P) (pure () : M Unit) := fun P => (guards_base d n P).ret _
  refine keeps_ite (hret _) (copy_guards (fun _ => hret _) fun {s} P ip _ hi hask => ?_)
  have law := guards_base d n P
  rw [hi] at hask
  have hcount : Keeps (Guards d n P) (countLinksTo target maxino) :=
    (countLinksFrom_peeks _ _ _ _).mono guards_peek
  refine (law.seq hcount fun want => keeps_ite (hret _)
    (law.seq (keeps_attempt (record_guards h0 target _ ?_)) fun _ => hret _)) s
  exact hask

/-- All that follows the making of the recovery directory. -/
theorem preenRest_guards (h0 : n ≠ 0) {o : Orders} {maxino : Nat}
    (hclear : 1 ≤ n → n ≤ maxino → ¬ (o.state n = .unalloc ∧ o.ecount n % 256 ≠ 0 ∧ o.ask n = true)) :
    Keeps (Guards d n True) (preenRest o maxino n) := by
  have law := guards_base d n True
  refine law.bindFs fun _ => ?_
  refine law.seq (preenLoop_guards h0 maxino 1 fun hlo hhi => hclear hlo (by omega)) fun _ => ?_
  exact keeps_onlyIf law (law.seq (recount_guards h0 _ _) fun _ => recount_guards h0 _ _)

/-! ## The new record -/

/-- With no transfer failing, the record of a number the allocator gave goes out. -/
theorem post_newRecord {s : Mnt} (hs : Host d s) (hq : ∀ k, s.env.fails k = false)
    (hrec : if d.ops = .pdp7 then n ≠ 0 ∧ n ≤ p7Maxino ∧ WordsIn s (p7Itod n) else ValidIno s.fs n)
    {ip : Inode} (hlive : liveMode d ip.mode = true) :
    Post (writeInode n ip s) (fun _ t => LiveOn t.fs t.img n) (fun _ _ => False) := by
  have hst := liveMode_stored hlive
  by_cases hp : d.ops = .pdp7
  · rw [if_pos hp] at hrec hst
    obtain ⟨h0, hmax, hin⟩ := hrec
    have heq : writeInode n ip s = p7fsWriteInode n ip s := by
      unfold writeInode
      rw [bindFs_run]
      rw [hs.desc, hp]
    rw [heq]
    have hm := hs.mounted7 hp
    refine post_bindFs (post_ite (fun h => by omega) fun _ =>
      post_ite (fun h => absurd h (by simp [hm.writable])) fun _ => ?_)
    have hnofail : ∀ {t : Mnt}, SameVol s t → ∀ k, t.env.fails k ≠ true := fun hv k h => by
      rw [hv.env, hq] at h
      cases h
    -- the free list's head goes out first, to block 0
    have hhere : ∀ {t : Mnt}, SameVol s t → WordsIn t (p7Itod n) := fun hv => (wordsIn_of_sameVol hv _).mpr hin
    have hzero : ∀ {t : Mnt}, SameVol s t → WordsIn t 0 :=
      fun hv => wordsIn_of_lt (by unfold p7Itod; omega) (hhere hv)
    have hflush : Post (flushIfDirty p7SuperWrite s) (fun _ t => SameVol s t) (fun _ _ => False) := by
      refine post_bindFs (post_ite (fun _ => ?_) fun _ => sameVol_law.refl s)
      have h1 : SameVol s (ticked s) := ticked_sameVol s
      refine post_bindFs (post_bind
        (post_failAs (hm.post_readWords (fun _ _ => ?_) (fun h => absurd (hzero (sameVol_law.refl s)) h)
        fun h => absurd h (hnofail (sameVol_law.refl s) _))))
      refine post_bind (post_failAs ((hm.of_sameVol h1).post_writeWords (fun _ _ => ?_)
        (fun h => absurd (hzero h1) h) fun h =>
        absurd h (hnofail h1 _)))
      exact ⟨rfl, rfl, rfl⟩
    refine post_bind (hflush.mono (fun _ t ht => ?_) fun _ _ h => h)
    have hmt := hm.of_sameVol ht
    have h1 : SameVol s (ticked t) := sameVol_law.trans ht (ticked_sameVol t)
    refine post_bind (post_failAs (hmt.post_readWords (fun _ _ => ?_) (fun h => absurd (hhere ht) h)
      fun h => absurd h (hnofail ht _)))
    refine (hm.of_sameVol h1).post_writeWords (fun _ _ => ?_) (fun h => absurd (hhere h1) h)
      fun h => absurd h (hnofail h1 _)
    have hword : p7EncodeInode ip (wordsOf t.fs t.img (p7Itod n)) (p7Itoo n) (p7Itoo n) =
      word18 ip.mode := if_pos rfl
    unfold LiveOn
    rw [show (putWords _ _ _ (ticked t)).fs = (ticked t).fs from rfl, putWords_img,
      modeWord_putWordBlock (hmt.of_sameVol (ticked_sameVol t)).pdp7,
      if_pos rfl, hword, shape_desc h1.shape, hs.desc]
    rwa [show word18 (word18 ip.mode) = word18 ip.mode from Nat.mod_mod ..]
  · rw [if_neg hp] at hrec hst
    have hm := hs.mounted hp
    refine hm.post_writeInode ?_ (fun _ _ h _ => h hrec) ?_
    · intro t ht _
      have hvol : SameVol s (ticked t) := sameVol_law.trans ht.toSameVol (ticked_sameVol t)
      have hmt := hm.of_sameVol ht.toSameVol
      unfold LiveOn
      rw [show (putInode n ip t).fs = t.fs from rfl,
        modeWord_putInode hmt (by rw [shape_desc ht.shape]; exact hs.desc ▸ hs.layout hp) hrec.1 hrec.1,
        if_pos rfl, shape_desc ht.shape, hs.desc]
      exact hst
    · intro _ _ hf _
      obtain ⟨k, hk⟩ := hf
      rw [hq] at hk
      cases hk

/-- The entries of the new directory, and its own in the root. -/
theorem fillRest_guards (h0 : n ≠ 0) {root lf : Inode} (hroot : Asked d n True root.ino root.mode)
    (hlf : Asked d n True lf.ino lf.mode)
    {rootino : Nat} (hino : root.ino = rootino) (c : Bool) (name : Name) :
    Keeps (Guards d n True) (do
      onlyIf c do
        let (_, lf) ← onIp lf (dirAdd n dot)
        let _ ← onIp lf (dirAdd rootino dotdot)
        return ()
      let (_, root) ← onIp root (dirAdd n name)
      let _ ← attempt (writeInode rootino (mod16 root 1))
      return () : M Unit) := by
  have law := guards_base d n True
  refine law.seq (keeps_onlyIf law ?_) ?_
  · refine keeps_onIp (fun hs => post_enter hs h0 hlf n dot) fun rc lf' _ ha => ?_
    exact keeps_onIp (fun hs => post_enter hs h0 ha rootino dotdot) fun rc lf'' _ _ => law.ret _
  · intro _
    refine keeps_onIp (fun hs => post_enter hs h0 hroot n name) fun rc root' hi ha => ?_
    rw [hi, hino] at ha
    have hnamed : Asked d n True rootino (mod16 root' 1).mode := ha
    exact law.seq (keeps_attempt (record_guards h0 rootino _ hnamed)) fun _ => law.ret _

/-- From some point on the new record stands. -/
def StandsFrom (d : Desc) (n : Nat) (s u : Mnt) : Prop :=
  ∃ w, Guarded d n False s w ∧ Standing w n ∧ Guards d n True w u

theorem fillLostFound_stands {s : Mnt} (hs : Host d s) (hq : ∀ k, s.env.fails k = false) (h0 : n ≠ 0)
    (hrec : if d.ops = .pdp7 then n ≠ 0 ∧ n ≤ p7Maxino ∧ WordsIn s (p7Itod n) else ValidIno s.fs n)
    (hmap : d.ops = .v1 → 41 ≤ n ∧ getBit s.fs.inodemap (n - 41) = true) (hmode : liveMode d (dirMode d) = true)
    {root : Inode} (hino : root.ino = d.rootino) (hroot : Asked d n True root.ino root.mode) :
    Post (fillLostFound root n s) (fun _ u => StandsFrom d n s u) (fun _ u => StandsFrom d n s u) := by
  have hlf : Asked d n True n (dirMode d) := fun _ _ => hmode
  apply post_bindFs
  rw [hs.desc]
  have hwrite := (record_guards h0 n { ino := n, mode := dirMode d, nlink := 2 } hlf s).and
    (post_newRecord hs hq hrec hmode)
  refine post_bind (post_attempt (hwrite.mono ?_ fun _ _ h => h.2.elim))
  rintro - w ⟨hg, hlive⟩
  have hgw := hg hs
  have hstand : Standing w n := by
    refine ⟨hlive, fun hv => ?_⟩
    rw [shape_desc hgw.shape, hs.desc] at hv
    exact ⟨(hmap hv).1, hgw.map (hmap hv).2⟩
  have hfrom : ∀ u, Guards d n True w u → StandsFrom d n s u :=
    fun u hu => ⟨w, hgw.relies fun h => h.elim, hstand, hu⟩
  exact (fillRest_guards h0 hroot hlf hino (!d.synthDot) (lostName d) w).mono (fun _ u hu => hfrom u hu)
    fun _ u hu => hfrom u hu

/-- A recovery directory is new: its number, and what holds of its record since. -/
theorem lostFound_stands {s : Mnt} (hs : Host d s) (hq : ∀ k, s.env.fails k = false)
    (hmode : liveMode d (dirMode d) = true) :
    Post (lostFound s) (fun r u => r.2 = true →
      (r.1 = d.rootino → liveMode d (modeWord s.fs s.img r.1) = true) → r.1 ≠ 0 ∧ StandsFrom d r.1 s u)
      (fun _ _ => True) := by
  apply post_bindFs
  rw [hs.desc]
  refine post_bind (post_attempt ((post_copy hs d.rootino).mono ?_ fun _ _ _ h => by cases h))
  intro root t₁ hr
  obtain ⟨⟨hino, hrmode⟩, hpeek⟩ := hr
  have hlook : Post (onIp root (dirLookup (lostName d)) t₁) (fun r t₂ => r.2 = root ∧ ReadOnly t₁ t₂)
    (fun _ _ => False) := by
    refine post_bind (post_inside ((dirLookup_peeks _ _).mono ?_ ?_))
    · intro _ t h
      exact ⟨by rw [h.2], h.1⟩
    · intro _ t h
      exact ⟨by rw [h.2], h.1⟩
  refine post_bind (hlook.mono ?_ fun _ _ h => h.elim)
  intro x t₂ hr
  obtain ⟨rc, root'⟩ := x
  obtain ⟨rfl, hpeek₂⟩ := hr
  cases rc with
  | ok ino => exact fun h => by cases h
  | error e =>
    obtain ⟨k, -, rfl⟩ := readOnly_law.trans hpeek hpeek₂ hs.solo
    have hs₂ : Host d { s with ios := k } := hs.of_sameVol ⟨rfl, rfl, rfl⟩
    refine post_bind (post_attempt ?_)
    cases hrun : ialloc { s with ios := k } with
    | error e t => exact fun h => by cases h
    | ok m t =>
      have hone := (ialloc_guards hs₂ Nat.one_ne_zero).of_ok hrun
      have hm0 : m ≠ 0 := by
        have hrec := hone.2.record
        split at hrec
        · exact hrec.1
        · exact hrec.1
      obtain ⟨hg, hrec, hmap, -⟩ := (ialloc_guards hs₂ hm0).of_ok hrun
      have hgt := hg hs₂
      have ht : Host d t := hs₂.of_sameVol hgt.toSameVol
      have hbase : Guarded d m False s t := by
        have hread : Guarded d m False s { s with ios := k } := guarded_quiet ⟨rfl, rfl, rfl⟩ rfl rfl id
        exact hread.trans (hgt.relies fun h => h.elim)
      by_cases hroot : m = d.rootino → liveMode d (modeWord s.fs s.img m) = true
      · have hask : Asked d m True root'.ino root'.mode := by
          rintro - hm
          rw [hrmode]
          rw [hino] at hm
          rw [hm]
          exact hroot hm.symm
        rw [hs₂.desc] at hmap
        rw [hs₂.desc, ← wordsIn_of_sameVol hgt.toSameVol, ← shape_validIno hgt.shape] at hrec
        have hfill := fillLostFound_stands ht (fun k => by rw [hgt.env]; exact hq k) hm0
          hrec hmap hmode hino hask
        have hall : ∀ u, StandsFrom d m t u → StandsFrom d m s u :=
          fun u ⟨w, hw, hst, hu⟩ => ⟨w, hbase.trans hw, hst, hu⟩
        exact post_bind (hfill.mono (fun _ u hu _ _ => ⟨hm0, hall u hu⟩) fun _ _ _ => trivial)
      · exact post_bind ((post_true _).mono (fun _ _ _ _ h => absurd h hroot) fun _ _ _ => trivial)

/-! ## Later runs -/

theorem sync_guards (h0 : n ≠ 0) : Keeps (Guards d n P) opsSync := by
  have law := @guards_law d n P h0
  have hbits : ∀ todo k, Keeps (Guards d n P) (bigmapFlush todo k) := by
    intro todo
    induction todo with
    | zero => exact fun _ => law.ret _
    | succ todo ih =>
      exact fun k => law.bindFs fun _ => law.seq (keeps_failAs (law.v7Block _ _ _ trivial)) fun _ => ih _
  have hflush : Keeps (Guards d n P) flushFs := by
    refine law.bindFs fun fs => keeps_ite ?_ law.super
    exact law.bindFs fun _ => keeps_ite (law.ret _)
      (law.seq (keeps_onlyIf law.toLaw (hbits _ _)) fun _ => law.super)
  refine law.bindFs fun fs => keeps_ite (law.ret _) ?_
  cases fs.desc.ops with
  | v1 => exact law.v1SuperWrite
  | pdp7 => exact law.p7SuperWrite
  | v6 => exact hflush
  | v7 => exact hflush
  | bsd211 => exact hflush

end Pass

/-- What is asked of the engine after the repairs: every operation on a mounted volume is a sequence of
    these and of reads. -/
inductive Use where
  | ialloc
  | ifree (m : Nat)
  | writeInode (m : Nat) (ip : Inode)
  | balloc
  | bfree (b : Nat)
  | blkPut (b : Nat) (buf : Buf)
  | sync

namespace Use

/-- The inode number handed out, if any. -/
def run : Use → M (Option Nat)
  | .ialloc => do return some (← Engine.ialloc)
  | .ifree m => do Engine.ifree m; return none
  | .writeInode m ip => do Engine.writeInode m ip; return none
  | .balloc => do let _ ← Engine.balloc; return none
  | .bfree b => do Engine.bfree b; return none
  | .blkPut b buf => do Engine.blkPut b buf; return none
  | .sync => do opsSync; return none

/-- Inode `n` is neither given back nor cleared. -/
def Leaves (d : Desc) (n : Nat) : Use → Prop
  | .ifree m => m ≠ n
  | .writeInode m ip => m = n → liveMode d ip.mode = true
  | _ => True

end Use

/-- The state after a list of uses, failures passed over. -/
def endOf : List Use → Mnt → Mnt
  | [], s => s
  | x :: us, s => endOf us (final x.run s)

/-- The inode numbers handed out on the way. -/
def handedOut : List Use → Mnt → List Nat
  | [], _ => []
  | x :: us, s =>
    match x.run s with
    | .ok (some m) t => m :: handedOut us t
    | .ok none t => handedOut us t
    | .error _ t => handedOut us t

/-- The writes between two states of a run. -/
def since (s t : Mnt) : List Event := t.trace.take (t.trace.length - s.trace.length)

theorem since_eq {s t : Mnt} {evs : List Event} (h : t.trace = evs ++ s.trace) : since s t = evs := by
  unfold since
  rw [h, List.length_append, Nat.add_sub_cancel, List.take_left]

/-- No block written on the way is the i-list block that holds record `n`. -/
def Untouched (n : Nat) (s t : Mnt) : Prop := ∀ e ∈ since s t, Misses s.fs n e

section Later

variable {d : Desc} {n : Nat}

theorem use_guards {s : Mnt} (hs : Host d s) (h0 : n ≠ 0) (h41 : d.ops = .v1 → 41 ≤ n)
    {x : Use} (hx : x.Leaves d n) :
    Post (x.run s) (fun r t => Guards d n (Standing s n) s t ∧ (Standing s n → r ≠ some n))
    (fun _ t => Guards d n (Standing s n) s t) := by
  have law := @guards_law d n (Standing s n) h0
  have hnone : ∀ {α : Type} {y : M α}, Keeps (Guards d n (Standing s n)) y →
      Post ((y >>= fun _ => (pure none : M (Option Nat))) s) (fun r t => Guards d n (Standing s n) s t ∧
        (Standing s n → r ≠ some n))
        (fun _ t => Guards d n (Standing s n) s t) := by
    intro α y hy
    exact post_bind ((hy s).mono (fun _ _ h => ⟨h, fun _ h' => by cases h'⟩) fun _ _ h => h)
  cases x with
  | ialloc =>
    refine post_bind ((ialloc_guards hs h0).mono (fun m t h => ⟨h.1, fun hst heq => ?_⟩) fun _ _ h => h)
    exact h.2.other hst (Option.some.inj heq)
  | ifree m => exact hnone (ifree_guards h41 hx)
  | writeInode m ip => exact hnone (record_guards h0 m ip fun _ => hx)
  | balloc => exact hnone law.balloc
  | bfree b => exact hnone (law.bfree b)
  | blkPut b buf => exact hnone (law.blkPut b buf)
  | sync => exact hnone (sync_guards h0)

/-- A record that stands, after a stretch that spares its block. -/
theorem Guarded.stands {P : Prop} {s t : Mnt} (h : Guarded d n P s t) (hP : P) (hst : Standing s n)
    (hmiss : Untouched n s t) :
    Standing t n ∧ ∀ e ∈ since s t, LiveOn s.fs e.after n := by
  obtain ⟨hvol, hmap, evs, htr, hlive⟩ := h
  unfold Untouched at hmiss
  rw [since_eq htr] at hmiss ⊢
  obtain ⟨hl, he⟩ := hlive hP hmiss hst.record
  refine ⟨⟨?_, ?_⟩, he⟩
  · rw [shape_liveOn hvol.shape]
    exact hl
  · intro hv
    rw [shape_desc hvol.shape] at hv
    exact ⟨(hst.map hv).1, hmap (hst.map hv).2⟩

/-- Nothing is said of a stretch before the record stands. -/
theorem endOf_grows (h0 : n ≠ 0) (h41 : d.ops = .v1 → 41 ≤ n) {us : List Use}
    (hus : ∀ x ∈ us, x.Leaves d n) {s : Mnt} (hs : Host d s) :
    Guarded d n False s (endOf us s) := by
  induction us generalizing s with
  | nil => exact guarded_quiet (sameVol_law.refl s) rfl rfl id
  | cons x us ih =>
    have hx := ((use_guards hs h0 h41 (hus x List.mem_cons_self)).mono (fun _ _ h => h.1) fun _ _ h =>
      h).final hs
    have hrest := ih (fun y hy => hus y (List.mem_cons_of_mem x hy)) (hs.of_sameVol hx.toSameVol)
    exact (hx.relies fun h => h.elim).trans hrest

/-- What a stretch spares, its parts spare. -/
theorem Untouched.split {P P' : Prop} {s t u : Mnt} (h : Guarded d n P s t) (h' : Guarded d n P' t u)
    (hmiss : Untouched n s u) :
    Untouched n s t ∧ Untouched n t u := by
  obtain ⟨evs, htr, -⟩ := h.writes
  obtain ⟨evs', htr', -⟩ := h'.writes
  have hall : u.trace = (evs' ++ evs) ++ s.trace := by rw [htr', htr, List.append_assoc]
  unfold Untouched at *
  rw [since_eq hall] at hmiss
  rw [since_eq htr, since_eq htr', shape_misses h.shape]
  constructor
  · intro e he
    exact hmiss e (List.mem_append_right _ he)
  · intro e he
    exact hmiss e (List.mem_append_left _ he)

/-- A number that stands is not handed out, in any run that leaves it alone. -/
theorem not_mem_handedOut (h0 : n ≠ 0) {us : List Use} (hus : ∀ x ∈ us, x.Leaves d n) {s : Mnt}
    (hs : Host d s) (hst : Standing s n)
    (hmiss : Untouched n s (endOf us s)) : n ∉ handedOut us s := by
  have h41 : d.ops = .v1 → 41 ≤ n := fun hv => (hst.map (hs.desc ▸ hv)).1
  induction us generalizing s with
  | nil => exact List.not_mem_nil
  | cons x us ih =>
    have hleaves := hus x List.mem_cons_self
    have hrest : ∀ y ∈ us, y.Leaves d n := fun y hy => hus y (List.mem_cons_of_mem x hy)
    have hx := use_guards hs h0 h41 hleaves
    have hnext : ∀ t, final x.run s = t → Guards d n (Standing s n) s t → n ∉ handedOut us t := by
      intro t ht hg
      have hgs := hg hs
      have ht' := hs.of_sameVol hgs.toSameVol
      have hend : endOf (x :: us) s = endOf us t := by rw [← ht]; rfl
      rw [hend] at hmiss
      obtain ⟨h1, h2⟩ := Untouched.split hgs (endOf_grows h0 h41 hrest ht') hmiss
      exact ih hrest ht' (hgs.stands hst hst h1).1 h2
    unfold handedOut
    unfold final at hnext
    cases hrun : x.run s with
    | ok r t =>
      rw [hrun] at hx hnext
      cases r with
      | none => exact hnext t rfl hx.1
      | some m =>
        refine List.not_mem_cons_of_ne_of_not_mem (fun h => ?_) (hnext t rfl hx.1)
        exact hx.2 hst (by rw [h])
    | error e t =>
      rw [hrun] at hx hnext
      exact hnext t rfl hx

end Later

/-! ## The recovery directory -/

/-- Inode `n` is live from one state of a run to another, after every write between. -/
structure Stays (n : Nat) (s t : Mnt) : Prop where
  start : Standing s n
  through : ∀ e ∈ since s t, LiveOn s.fs e.after n
  finish : Standing t n

/-- The recovery directory that `filsysPreen` makes is live when it has been made, after every write of
    the rest of the pass and at its end, and no later run that leaves it alone hands its number out. -/
def StaysAllocated (o : Orders) (maxino : Nat) (s : Mnt) : Prop :=
  ∀ n u, lostFound s = .ok (n, true) u → Stays n u (final (filsysPreen o maxino) s) ∧
    ∀ us, (∀ x ∈ us, x.Leaves s.fs.desc n) →
    Untouched n (final (filsysPreen o maxino) s) (endOf us (final (filsysPreen o maxino) s)) →
      n ∉ handedOut us (final (filsysPreen o maxino) s)

/-- A new recovery directory at `n` can stay. -/
structure PreenFits (o : Orders) (maxino : Nat) (s : Mnt) (n : Nat) : Prop where
  /-- The mode it is given is live to the allocator: in every edition but V6. -/
  mode : liveMode s.fs.desc (dirMode s.fs.desc) = true
  /-- The allocator's number is the root's only where the root's record is live. -/
  root : n = s.fs.desc.rootino → LiveOn s.fs s.img n
  /-- The inode that was free when the check looked is not one the pass clears for being named. -/
  clear : 1 ≤ n → n ≤ maxino → ¬ (o.state n = .unalloc ∧ o.ecount n % 256 ≠ 0 ∧ o.ask n = true)

theorem final_filsysPreen {o : Orders} {maxino n : Nat} {s u : Mnt} {c : Bool}
    (h : lostFound s = .ok (n, c) u) :
    final (filsysPreen o maxino) s = final (preenRest o maxino n) u := by
  have hrun : filsysPreen o maxino s = preenRest o maxino n u := by
    unfold filsysPreen
    simp only [bind, EStateM.bind, h]
  unfold final
  rw [hrun]

/-- On a volume where no transfer fails, the recovery directory stays allocated in every run whose steps
    miss the i-list block that holds its record, where its mode is live, its number is not a dead root's
    and no entry named it before. -/
theorem recovery_stays_allocated {o : Orders} {maxino : Nat} {s : Mnt} (hm : MountedEither s)
    (hl : s.fs.desc.ops ≠ .pdp7 → RecordLayout s.fs.desc)
    (hq : ∀ k, s.env.fails k = false)
    (hfit : ∀ n u, lostFound s = .ok (n, true) u →
      PreenFits o maxino s n ∧ Untouched n s (final (filsysPreen o maxino) s)) :
    StaysAllocated o maxino s := by
  intro n u hrun
  obtain ⟨hf, hmiss⟩ := hfit n u hrun
  have hs : Host s.fs.desc s := ⟨hm, rfl, hl⟩
  obtain ⟨h0, w, hsw, hst, hwu⟩ := (lostFound_stands hs hq hf.mode).of_ok hrun rfl hf.root
  have hw := hs.of_sameVol hsw.toSameVol
  have hgwu := hwu hw
  have hu := hw.of_sameVol hgwu.toSameVol
  rw [final_filsysPreen hrun] at hmiss ⊢
  have hgut := (preenRest_guards h0 hf.clear u).final hu
  obtain ⟨hmw, hmt⟩ := Untouched.split (hsw.trans (hgwu.relies fun h => h.elim)) hgut hmiss
  obtain ⟨-, hmu⟩ := Untouched.split hsw hgwu hmw
  have hstu := (hgwu.stands trivial hst hmu).1
  obtain ⟨hstt, hthrough⟩ := hgut.stands trivial hstu hmt
  refine ⟨⟨hstu, hthrough, hstt⟩, fun us hus hspare => ?_⟩
  exact not_mem_handedOut h0 hus (hu.of_sameVol hgut.toSameVol) hstt hspare

/-- Every edition's row lays its records out so, the word-addressed one apart. -/
theorem recordLayout_getformat (ed : Edition) (h : (filsysGetformat ed).ops ≠ .pdp7) :
    RecordLayout (filsysGetformat ed) := by
  cases ed <;> first | exact absurd rfl h | exact ⟨by decide, by decide, by decide, by decide, by decide⟩

/-- What a check of a volume with an empty root directory alone has found. -/
def bareOrders (root : Nat) : Orders where
  state n := if n = root then .idir else .unalloc
  ecount n := if n = root then 2 else 0
  ask _ := true

/-- Five blocks: the root directory in block 3, block 4 free. -/
def orphanVolume : Mnt := { openedRw .v7 smallImage 2560 with env := { fuel := 4 } }

theorem orphanVolume_mounted : Mounted orphanVolume where
  solo _ _ := rfl
  notPdp7 := by decide +kernel
  writable := by decide +kernel
  bsize := by decide +kernel
  v1Bsize := by decide +kernel
  fits := by decide +kernel
  imgsize := by decide +kernel
  first := by decide +kernel
  room := by decide +kernel
  last := by decide +kernel

theorem a_v7_recovery_directory_stays_allocated :
    (∃ u, lostFound orphanVolume = .ok (8, true) u) ∧ StaysAllocated (bareOrders 2) 8 orphanVolume := by
  have hok : errorOf lostFound orphanVolume = none := by decide +kernel
  have hnew : valueOf lostFound orphanVolume = (8, true) := by decide +kernel
  have hrun := eq_ok hok
  rw [hnew] at hrun
  refine ⟨⟨_, hrun⟩, recovery_stays_allocated (.inl orphanVolume_mounted) ?_ (fun _ => rfl) ?_⟩
  · intro _
    exact ⟨by decide +kernel, by decide +kernel, by decide +kernel, by decide +kernel, by decide +kernel⟩
  · intro n u h
    have hn : n = 8 := by
      rw [hrun] at h
      cases h
      rfl
    subst hn
    have hmiss : Untouched 8 orphanVolume (final (filsysPreen (bareOrders 2) 8) orphanVolume) := by
      unfold Untouched
      decide +kernel
    exact ⟨⟨by decide +kernel, by decide +kernel, fun _ _ h => by simp [bareOrders] at h⟩, hmiss⟩

/-- Eight blocks: the root directory in block 3, blocks 4 to 7 free; the free-inode cache holds 16. -/
def v6Image : Buf := fun i =>
  if i = 512 then 1 else if i = 514 then 8            -- s_isize, s_fsize
  else if i = 516 then 5 else if i = 520 then 4 else if i = 522 then 5
    else if i = 524 then 6 else if i = 526 then 7
  else if i = 718 then 1 else if i = 720 then 16      -- s_ninode, s_inode[0]
  else if i = 1025 then 0xc0 else if i = 1026 then 2 else if i = 1030 then 32 else if i = 1032 then 3
  else if i = 1536 then 1 else if i = 1538 then 46
  else if i = 1552 then 1 else if i = 1554 then 46 else if i = 1555 then 46
  else 0

def v6Volume : Mnt := { openedRw .v6 v6Image 4096 with env := { fuel := 4 } }

/-- V6's new `lost+found` lacks the allocated bit; after a repair that finds nothing wrong the next
    number handed out is its own. -/
theorem a_v6_recovery_directory_is_handed_out_again :
    ¬ StaysAllocated (bareOrders 1) 16 v6Volume ∧
      handedOut [.ialloc] (final (filsysCheckRepair fun _ => true) (v6Volume, {})).1 = [16] := by
  have hok : errorOf lostFound v6Volume = none := by decide +kernel
  have hnew : valueOf lostFound v6Volume = (16, true) := by decide +kernel
  have hrun := eq_ok hok
  rw [hnew] at hrun
  refine ⟨fun h => ?_, by decide +kernel⟩
  have hlive := (h 16 _ hrun).1.start.record
  exact absurd hlive (by decide +kernel)

end Filsys.Check
