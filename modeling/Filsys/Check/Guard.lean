/-
  Filsys.Check.Guard — an inode record while everything around it is written.

  The inode allocator passes over an inode whose record looks live (V1's: whose bit is set
  in its map). `Guards d n` says of a stretch of a run on a volume of format `d`: where no
  block written on the way is the i-list block that holds record `n`, a record that was
  live stays live, after every single write. The routines that write blocks keep it
  (`guards_law`), and so does the write of any other record, and of `n`'s own with a live
  mode.
-/

import Filsys.Engine.Keep
import Filsys.Check.Fresh

namespace Filsys.Check

open Filsys.Lib Filsys.Engine

/-! ## Live records -/

/-- The mode of a record that is in use: V1 and V7 look for any bit, V6 and the PDP-7 for their own. -/
def liveMode (d : Desc) (mode : Nat) : Bool :=
  match d.ops with
  | .v1 => mode % 65536 != 0
  | .pdp7 => has mode 0o400000
  | _ => inodeLive d (mode % 65536)

theorem has_or {m k bits : Nat} (h : has m bits = true) : has (m ||| k) bits = true := by
  unfold has at h ⊢
  rw [bne_iff_ne] at h ⊢
  rw [Nat.and_or_distrib_right]
  exact fun h0 => h (Nat.or_eq_zero_iff.mp h0).1

theorem or_mod_ne_zero {m k : Nat} (h : m % 65536 ≠ 0) : (m ||| k) % 65536 ≠ 0 := by
  have hor : (m ||| k) % 2 ^ 16 = m % 2 ^ 16 ||| k % 2 ^ 16 := Nat.or_mod_two_pow
  intro h0
  rw [show (65536 : Nat) = 2 ^ 16 from rfl] at h h0
  rw [hor] at h0
  exact h (Nat.or_eq_zero_iff.mp h0).1

/-- A live mode that gains bits is live. -/
theorem liveMode_or {d : Desc} {m : Nat} (k : Nat) (h : liveMode d m = true) : liveMode d (m ||| k) = true := by
  have hlive : inodeLive d (m % 65536) = true → inodeLive d ((m ||| k) % 65536) = true := by
    unfold inodeLive
    split
    · intro hb
      have hor : (m ||| k) % 65536 = m % 65536 ||| k % 65536 := Nat.or_mod_two_pow (n := 16)
      rw [hor]
      exact has_or hb
    · intro hb
      rw [bne_iff_ne] at hb ⊢
      exact or_mod_ne_zero hb
  unfold liveMode at h ⊢
  cases hops : d.ops with
  | v1 =>
    rw [hops] at h
    simp only [bne_iff_ne] at h ⊢
    exact or_mod_ne_zero h
  | pdp7 => rw [hops] at h; exact has_or h
  | v6 => rw [hops] at h; exact hlive h
  | v7 => rw [hops] at h; exact hlive h
  | bsd211 => rw [hops] at h; exact hlive h

/-- What a record keeps of a live mode is live. -/
theorem liveMode_stored {d : Desc} {m : Nat} (h : liveMode d m = true) :
    liveMode d (if d.ops = .pdp7 then word18 m else m % 65536) = true := by
  unfold liveMode at h ⊢
  cases hops : d.ops with
  | v1 => rw [hops] at h; simpa using h
  | pdp7 =>
    rw [hops] at h
    rw [if_pos rfl]
    show has (m % 2 ^ 18) 0o400000 = true
    unfold has at h ⊢
    rw [bne_iff_ne] at h ⊢
    have hand : m % 2 ^ 18 &&& 0o400000 = m &&& 0o400000 := by
      refine Nat.eq_of_testBit_eq fun i => ?_
      rw [show (0o400000 : Nat) = 2 ^ 17 from rfl, Nat.testBit_and, Nat.testBit_and,
        Nat.testBit_mod_two_pow, Nat.testBit_two_pow]
      by_cases hi : 17 = i
      · subst hi
        simp
      · simp [hi]
    rwa [hand]
  | v6 => rw [hops] at h; simpa using h
  | v7 => rw [hops] at h; simpa using h
  | bsd211 => rw [hops] at h; simpa using h

/-- Record `n` of the image is live. -/
def LiveOn (fs : Fs) (img : Buf) (n : Nat) : Prop := liveMode fs.desc (modeWord fs img n) = true

instance (fs : Fs) (img : Buf) (n : Nat) : Decidable (LiveOn fs img n) := inferInstanceAs (Decidable (_ = true))

/-- The inode allocator takes `n` for used. -/
structure Standing (s : Mnt) (n : Nat) : Prop where
  record : LiveOn s.fs s.img n
  map : s.fs.desc.ops = .v1 → 41 ≤ n ∧ getBit s.fs.inodemap (n - 41) = true

/-! ## Where a record lies -/

/-- The block that holds record `n`: its position and length. -/
def recordBlock (fs : Fs) (n : Nat) : Nat × Nat :=
  if fs.desc.ops = .pdp7 then (wordPos fs (p7Itod n), (wordOps fs.desc).blockBytes)
  else (fs.base + itod fs n * fs.desc.bsize, fs.desc.bsize)

/-- A write of a block, not of a record, stays clear of record `n`'s block. -/
def Misses (fs : Fs) (n : Nat) (e : Event) : Prop :=
  e.site.IsBlock → e.off + e.len ≤ (recordBlock fs n).1 ∨ (recordBlock fs n).1 + (recordBlock fs n).2 ≤ e.off

instance (site : Site) : Decidable site.IsBlock := by
  cases site <;> unfold Site.IsBlock <;> infer_instance

instance (fs : Fs) (n : Nat) (e : Event) : Decidable (Misses fs n e) := inferInstanceAs (Decidable (_ → _))

theorem shape_recordBlock {fs fs' : Fs} (h : shape fs' = shape fs) : recordBlock fs' = recordBlock fs := by
  funext n
  unfold recordBlock wordPos
  rw [shape_desc h, shape_base h, shape_itod h]

theorem shape_misses {fs fs' : Fs} (h : shape fs' = shape fs) : Misses fs' = Misses fs := by
  unfold Misses
  rw [shape_recordBlock h]

theorem shape_liveOn {fs fs' : Fs} (h : shape fs' = shape fs) : LiveOn fs' = LiveOn fs := by
  unfold LiveOn
  rw [shape_desc h, shape_modeWord h]

/-- A write elsewhere leaves the mode word. -/
theorem modeWord_splice {fs : Fs} {n off len : Nat}
    (h : off + len ≤ (recordBlock fs n).1 ∨ (recordBlock fs n).1 + (recordBlock fs n).2 ≤ off) (img buf : Buf) :
    modeWord fs (splice img off buf 0 len) n = modeWord fs img n := by
  unfold modeWord
  unfold recordBlock at h
  split
  · rename_i hp
    rw [if_pos hp] at h
    have hwin : window (splice img off buf 0 len) (wordPos fs (p7Itod n)) (wordOps fs.desc).blockBytes =
        window img (wordPos fs (p7Itod n)) (wordOps fs.desc).blockBytes :=
      window_congr fun i hlo hhi => splice_outside (by omega)
    unfold wordsOf
    rw [hwin]
  · rename_i hp
    rw [if_neg hp] at h
    have hblk : blockOf fs (splice img off buf 0 len) (itod fs n) = blockOf fs img (itod fs n) :=
      window_congr fun i hlo hhi => splice_outside (by omega)
    unfold recordOf
    rw [hblk]

/-! ## The relation -/

/-- A volume of format `d`, mounted read-write. -/
structure Host (d : Desc) (s : Mnt) : Prop where
  ready : MountedEither s
  desc : s.fs.desc = d
  layout : d.ops ≠ .pdp7 → RecordLayout d

theorem Host.of_sameVol {d : Desc} {s t : Mnt} (h : Host d s) (hvol : SameVol s t) : Host d t where
  ready := h.ready.imp (fun hm => hm.of_sameVol hvol) fun hm => hm.of_sameVol hvol
  desc := (shape_desc hvol.shape).trans h.desc
  layout := h.layout

theorem Host.solo {d : Desc} {s : Mnt} (h : Host d s) : Solo s := MountedEither.solo h.ready

theorem Host.mounted {d : Desc} {s : Mnt} (h : Host d s) (hp : d.ops ≠ .pdp7) : Mounted s := by
  rcases h.ready with hm | hm
  · exact hm
  · exact absurd (h.desc ▸ hm.pdp7) hp

theorem Host.mounted7 {d : Desc} {s : Mnt} (h : Host d s) (hp : d.ops = .pdp7) : Mounted7 s := by
  rcases h.ready with hm | hm
  · exact absurd (h.desc ▸ hp) hm.notPdp7
  · exact hm

/-- A stretch of a run, seen from record `n`; `P` is what the record's own writers rely on. -/
structure Guarded (d : Desc) (n : Nat) (P : Prop) (s t : Mnt) : Prop extends SameVol s t where
  map : getBit s.fs.inodemap (n - 41) = true → getBit t.fs.inodemap (n - 41) = true
  writes : ∃ evs, t.trace = evs ++ s.trace ∧ (P → (∀ e ∈ evs, Misses s.fs n e) → LiveOn s.fs s.img n →
    LiveOn s.fs t.img n ∧ ∀ e ∈ evs, LiveOn s.fs e.after n)

def Guards (d : Desc) (n : Nat) (P : Prop) (s t : Mnt) : Prop := Host d s → Guarded d n P s t

/-- Nothing written, the image as it was. -/
theorem guarded_quiet {d : Desc} {n : Nat} {P : Prop} {s t : Mnt} (hvol : SameVol s t)
    (himg : t.img = s.img) (htrace : t.trace = s.trace)
    (hmap : getBit s.fs.inodemap (n - 41) = true → getBit t.fs.inodemap (n - 41) = true) : Guarded d n P s t :=
  ⟨hvol, hmap, [], htrace, fun _ _ hl => ⟨by rw [himg]; exact hl, fun _ he => absurd he List.not_mem_nil⟩⟩

theorem Guarded.trans {d : Desc} {n : Nat} {P : Prop} {s t u : Mnt} (h : Guarded d n P s t)
    (h' : Guarded d n P t u) : Guarded d n P s u := by
  obtain ⟨hvol, hmap, evs, htr, hlive⟩ := h
  obtain ⟨hvol', hmap', evs', htr', hlive'⟩ := h'
  refine ⟨sameVol_law.trans hvol hvol', fun hb => hmap' (hmap hb),
    evs' ++ evs, by rw [htr', htr, List.append_assoc], fun hP hmiss hl => ?_⟩
  rw [shape_misses hvol.shape, shape_liveOn hvol.shape] at hlive'
  obtain ⟨hl1, he1⟩ := hlive hP (fun e he => hmiss e (List.mem_append_right _ he)) hl
  obtain ⟨hl2, he2⟩ := hlive' hP (fun e he => hmiss e (List.mem_append_left _ he)) hl1
  refine ⟨hl2, fun e he => ?_⟩
  rcases List.mem_append.mp he with he | he
  · exact he2 e he
  · exact he1 e he

/-- One write. -/
theorem guarded_put {d : Desc} {n : Nat} {P : Prop} {s : Mnt} {site : Site} {buf : Buf} {len off : Nat}
    (h : P → Misses s.fs n ⟨site, s.fs, off, len, s.img, splice s.img off buf 0 len⟩ → LiveOn s.fs s.img n →
      LiveOn s.fs (splice s.img off buf 0 len) n) : Guarded d n P s (put site buf len off s) := by
  refine ⟨⟨rfl, rfl, rfl⟩, id, [⟨site, s.fs, off, len, s.img, splice s.img off buf 0 len⟩],
    rfl, fun hP hmiss hl => ?_⟩
  have hlive := h hP (hmiss _ (List.mem_singleton_self _)) hl
  refine ⟨hlive, fun e he => ?_⟩
  rw [List.mem_singleton.mp he]
  exact hlive

theorem guards_refl {d : Desc} {n : Nat} {P : Prop} (s : Mnt) : Guards d n P s s :=
  fun _ => guarded_quiet (sameVol_law.refl s) rfl rfl id

theorem guards_base (d : Desc) (n : Nat) (P : Prop) : Law (Guards d n P) where
  refl := guards_refl
  trans h h' hs := (h hs).trans (h' (hs.of_sameVol (h hs).toSameVol))

theorem guards_peek {d : Desc} {n : Nat} {P : Prop} {s t : Mnt} (h : ReadOnly s t) : Guards d n P s t := by
  intro hs
  obtain ⟨k, -, rfl⟩ := h hs.solo
  exact guarded_quiet ⟨rfl, rfl, rfl⟩ rfl rfl id

/-! ## Blocks -/

section Law

variable {d : Desc} {n : Nat} {P : Prop}

theorem keeps_host {α : Type} {x : M α}
    (h : ∀ s, Host d s → Post (x s) (fun _ t => Guards d n P s t) (fun _ t => Guards d n P s t)) :
    Keeps (Guards d n P) x := by
  intro s
  by_cases hs : Host d s
  · exact h s hs
  · exact (post_true _).mono (fun _ _ _ h => absurd h hs) fun _ _ _ h => absurd h hs

theorem Host.inSize {s : Mnt} (h : Host d s) {off len : Nat} (hc : checkRange s.fs off len = true) :
    off + len ≤ s.size := by
  have hsize : s.fs.imgsize = s.size ∧ 0 < s.size := by
    rcases h.ready with hm | hm
    · have := hm.block_fits hm.one_lt
      have := hm.bsize
      exact ⟨hm.imgsize, by omega⟩
    · exact ⟨hm.imgsize, hm.room⟩
  unfold checkRange at hc
  simp only [Bool.or_eq_true, beq_iff_eq, Bool.and_eq_true, decide_eq_true_eq] at hc
  omega

/-- A transfer that fails counts, and nothing else. -/
theorem guards_ticked {s : Mnt} : Guards d n P s (ticked s) :=
  fun _ => guarded_quiet (ticked_sameVol s) rfl rfl id

/-- The write of a block. -/
theorem post_blockOut {s : Mnt} (hs : Host d s) {site : Site} (hb : site.IsBlock) (buf : Buf)
    {len off : Nat} (hin : off + len ≤ s.size) :
    Post (ioWrite site buf len off s) (fun _ t => Guards d n P s t) (fun _ t => Guards d n P s t) := by
  apply post_ioWrite
  · intro _
    rw [wrote_solo hs.solo hin]
    intro _
    refine guarded_put fun _ hmiss hl => ?_
    unfold LiveOn
    rw [modeWord_splice (hmiss hb)]
    exact hl
  · intro _
    rw [touch_solo hs.solo]
    exact guards_ticked

theorem v7Block_guards (site : Site) (b : Nat) (buf : Buf) (hb : site.IsBlock) :
    Keeps (Guards d n P) (v7fsWriteBlock site b buf) :=
  keeps_host fun s hs => post_bindFs (post_ite (fun _ => guards_refl s) fun _ =>
    post_ite (fun hc => post_blockOut hs hb buf (hs.inSize hc)) fun _ => guards_refl s)

theorem v1Block_guards (site : Site) (b : Nat) (buf : Buf) (hb : site.IsBlock) :
    Keeps (Guards d n P) (v1fsWriteBlock site b buf) :=
  keeps_host fun s hs => post_bindFs (post_ite (fun _ => guards_refl s) fun _ =>
    post_ite (fun hc => post_blockOut hs hb buf (hs.inSize hc)) fun _ => guards_refl s)

theorem words_guards (site : Site) (b : Nat) (w : Nat → Nat) (hb : site.IsBlock) :
    Keeps (Guards d n P) (writeWords site b w) :=
  keeps_host fun s hs => post_bindFs
  (post_ite (fun hc => post_failAs (post_blockOut hs hb _ (hs.inSize hc))) fun _ => guards_refl s)

/-- An update of in-core state takes no bit out of V1's map. -/
theorem mod_guards {f : Fs → Fs} (hshape : ∀ fs, shape (f fs) = shape fs)
    (hmap : ∀ fs, getBit fs.inodemap (n - 41) = true → getBit (f fs).inodemap (n - 41) = true) :
    Keeps (Guards d n P) (modFs f) :=
  fun s _ => guarded_quiet ⟨hshape s.fs, rfl, rfl⟩ rfl rfl (hmap s.fs)

theorem superPut_guards (sb : Buf) : Keeps (Guards d n P) (superPut sb) := by
  refine keeps_host fun s hs => post_bindFs (post_ite (fun hd => ?_) fun _ =>
    v7Block_guards .super 1 sb trivial s)
  have hm : Mounted s := by
    rcases hs.ready with hm | hm
    · exact hm
    · obtain ⟨bo, wc, hf⟩ := hm.format
      rw [hf] at hd
      cases hd
  have hfit := hm.super_fits
  rw [superOff, superLen, if_pos hd, if_pos hd] at hfit
  exact @post_blockOut _ _ _ _ hs .super trivial sb _ _ hfit

theorem super_guards : Keeps (Guards d n P) v7fsSuperWrite := by
  have law := guards_base d n P
  refine law.bindFs fun _ => keeps_ite (law.ret _) (law.seq (keeps_failAs ?_) fun _ =>
    law.seq (fun s _ => ?_) fun _ =>
    law.seq (keeps_failAs (superPut_guards _)) fun _ => mod_guards (fun _ => rfl) fun _ => id)
  · exact law.bindFs fun _ => keeps_ite ((ioRead_peeks _ _).mono guards_peek)
      ((v7fsReadBlock_peeks _).mono guards_peek)
  · exact guarded_quiet ⟨rfl, rfl, rfl⟩ rfl rfl id

/-! ## Records -/

/-- What is asked of the writer of record `m`: that `n`'s own goes out live. -/
def Asked (d : Desc) (n : Nat) (P : Prop) (m mode : Nat) : Prop := P → m = n → liveMode d mode = true

/-- The mode words after record `m` has gone out. -/
theorem modeWord_putInode {s : Mnt} (hm : Mounted s) (hl : RecordLayout s.fs.desc) {m : Nat}
    (hm0 : m ≠ 0) (h0 : n ≠ 0) (ip : Inode) :
    modeWord s.fs (putInode m ip s).img n = if m = n then ip.mode % 65536 else modeWord s.fs s.img n := by
  unfold modeWord
  rw [if_neg hm.notPdp7, if_neg hm.notPdp7]
  split
  · rename_i h
    subst h
    exact (recordOf_putInode hm hl ip).mode
  · rename_i h
    have hrec := recordOf_putInode_ne hm hl ip hm0 h0 (Ne.symm h)
    exact congrArg Inode.mode hrec

theorem guarded_putInode {s : Mnt} (hs : Host d s) (hp : d.ops ≠ .pdp7) {m : Nat} (hm0 : m ≠ 0)
    (h0 : n ≠ 0) {ip : Inode}
    (hok : Asked d n P m ip.mode) : Guarded d n P s (putInode m ip s) := by
  have hm := hs.mounted hp
  have hword := modeWord_putInode hm (hs.desc ▸ hs.layout hp) hm0 h0 ip
  have hvol : SameVol s (ticked s) := ticked_sameVol s
  refine ⟨⟨rfl, rfl, rfl⟩, id, [_], rfl, fun hP _ hl => ?_⟩
  have hlive : LiveOn s.fs (putInode m ip s).img n := by
    unfold LiveOn
    rw [hword]
    split
    · have hst := liveMode_stored (hok hP ‹_›)
      rw [if_neg hp] at hst
      rw [hs.desc]
      exact hst
    · exact hl
  refine ⟨hlive, fun e he => ?_⟩
  rw [List.mem_singleton.mp he]
  exact hlive

/-- A block of words goes out as record `m`: `n`'s word in it is live, or as it was. -/
theorem guarded_putRecord {s : Mnt} (hp : s.fs.desc.ops = .pdp7) {m : Nat} {ip : Inode} {w : Nat → Nat}
    (hw : P → LiveOn s.fs s.img n → p7Itod n = p7Itod m →
      liveMode s.fs.desc (word18 (w (p7Itoo n))) = true) :
      Guarded d n P s (putWords (.inode ip) (p7Itod m) w s) := by
  refine ⟨⟨rfl, rfl, rfl⟩, id, [_], rfl, fun hP _ hl => ?_⟩
  have hlive : LiveOn s.fs (putWords (.inode ip) (p7Itod m) w s).img n := by
    unfold LiveOn
    rw [putWords_img, modeWord_putWordBlock hp]
    split
    · exact hw hP hl ‹_›
    · exact hl
  refine ⟨hlive, fun e he => ?_⟩
  rw [List.mem_singleton.mp he]
  exact hlive

theorem word18_wordsOf (fs : Fs) (img : Buf) (b i : Nat) : word18 (wordsOf fs img b i) = wordsOf fs img b i :=
  Nat.mod_eq_of_lt (wordsOf_lt fs img b i)

/-- A word of record `n` that was live and is written back. -/
theorem liveMode_same {s : Mnt} (hp : s.fs.desc.ops = .pdp7) {b : Nat} (hl : LiveOn s.fs s.img n)
    (hb : p7Itod n = b) :
    liveMode s.fs.desc (word18 (wordsOf s.fs s.img b (p7Itoo n))) = true := by
  rw [word18_wordsOf, ← hb]
  unfold LiveOn modeWord at hl
  rwa [if_pos hp] at hl

/-- Record `m` goes out in a block with record `n`. -/
theorem liveMode_p7Encode {s : Mnt} (hp : d.ops = .pdp7) (hd : s.fs.desc = d) {m : Nat} {ip : Inode}
    (hok : m = n → liveMode d ip.mode = true) (hl : LiveOn s.fs s.img n) (hb : p7Itod n = p7Itod m) :
    liveMode s.fs.desc (word18 (p7EncodeInode ip (wordsOf s.fs s.img (p7Itod m)) (p7Itoo m)
      (p7Itoo n))) = true := by
  by_cases hmn : m = n
  · subst hmn
    have hst := liveMode_stored (hok rfl)
    rw [if_pos hp] at hst
    have hword : p7EncodeInode ip (wordsOf s.fs s.img (p7Itod m)) (p7Itoo m) (p7Itoo m) =
      word18 ip.mode := if_pos rfl
    rw [hword, hd]
    rwa [show word18 (word18 ip.mode) = word18 ip.mode from Nat.mod_mod ..]
  · have happart := p7Itoo_apart hb.symm hmn
    have hword : p7EncodeInode ip (wordsOf s.fs s.img (p7Itod m)) (p7Itoo m) (p7Itoo n) =
      wordsOf s.fs s.img (p7Itod m) (p7Itoo n) := by
      unfold p7EncodeInode
      rw [if_neg (by omega), if_neg (by omega), if_neg (by omega), if_neg (by omega), if_neg (by omega)]
    rw [hword]
    exact liveMode_same (hd ▸ hp) hl hb

theorem p7SuperWrite_guards : Keeps (Guards d n P) p7SuperWrite := by
  have law := guards_base d n P
  refine law.bindFs fun _ => ?_
  refine law.seq (keeps_failAs ((readWords_peeks _).mono guards_peek)) fun _ => ?_
  refine law.seq (keeps_failAs (words_guards _ _ _ trivial)) fun _ => ?_
  exact mod_guards (fun _ => rfl) fun _ => id

theorem p7Record_guards {s : Mnt} (hs : Host d s) (hp : d.ops = .pdp7) {m : Nat} {ip : Inode}
    (hok : Asked d n P m ip.mode) :
    Post (p7fsWriteInode m ip s) (fun _ t => Guards d n P s t) (fun _ t => Guards d n P s t) := by
  have law := guards_base d n P
  refine post_bindFs (post_ite (fun _ => guards_refl s) fun _ => post_ite (fun _ => guards_refl s)
    fun _ => post_bind ?_)
  refine (law.flushIfDirty p7SuperWrite_guards s).mono (fun _ t ht => ?_) fun _ _ h => h
  have ht' := hs.of_sameVol (ht hs).toSameVol
  have hm := ht'.mounted7 hp
  refine post_bind (post_failAs (hm.post_readWords (fun _ _ => ?_) (fun _ _ => ht) fun _ _ =>
    law.trans ht guards_ticked))
  have hm' : Mounted7 (ticked t) := hm.of_sameVol (ticked_sameVol t)
  have htick : Guards d n P s (ticked t) := law.trans ht guards_ticked
  refine hm'.post_writeWords (fun _ _ => law.trans htick fun _ => guarded_putRecord hm'.pdp7
    fun hP hl hb => ?_) (fun _ _ => htick)
    fun _ _ => law.trans htick guards_ticked
  exact liveMode_p7Encode hp (ht'.desc) (hok hP) hl hb

theorem record_guards (h0 : n ≠ 0) (m : Nat) (ip : Inode) (hok : Asked d n P m ip.mode) :
    Keeps (Guards d n P) (writeInode m ip) := by
  have law := guards_base d n P
  refine keeps_host fun s hs => ?_
  by_cases hp : d.ops = .pdp7
  · have heq : writeInode m ip s = p7fsWriteInode m ip s := by
      unfold writeInode
      rw [bindFs_run]
      rw [hs.desc, hp]
    rw [heq]
    exact p7Record_guards hs hp hok
  · have hm := hs.mounted hp
    have hflush : Keeps (Guards d n P) (flushIfDirty (if s.fs.desc.ops = .v1 then v1SuperWrite
      else v7fsSuperWrite)) := by
      refine law.flushIfDirty (keeps_ite ?_ super_guards)
      exact law.bindFs fun _ => keeps_ite (law.ret _)
        (law.seq (keeps_failAs ((v1fsReadBlock_peeks _).mono guards_peek)) fun _ =>
        law.seq (keeps_failAs ((v1fsReadBlock_peeks _).mono guards_peek)) fun _ =>
        law.seq (keeps_failAs (v1Block_guards _ _ _ trivial)) fun _ =>
          law.seq (keeps_failAs (v1Block_guards _ _ _ trivial)) fun _ => mod_guards (fun _ => rfl) fun _ => id)
    refine hm.post_writeInode_after (K := Guards d n P s) (fun t ht => (ht hs).toSameVol) (hflush s) ?_ ?_ ?_
    · intro t ht hv
      exact law.trans ht fun ht' => guarded_putInode ht' hp hv.1 h0 hok
    · intro _ t _ ht
      rcases ht with rfl | ht
      · exact guards_refl t
      · exact ht
    · intro _ t ht _
      have h1 := law.trans ht guards_ticked
      exact ⟨h1, law.trans h1 guards_ticked⟩

/-- Everything the routines above the transport do is seen by a record so. -/
theorem guards_law (h0 : n ≠ 0) : WriteLaw (Asked d n P) (Guards d n P) where
  toLaw := guards_base d n P
  peek := guards_peek
  v7Block := v7Block_guards
  v1Block := v1Block_guards
  words := words_guards
  super := super_guards
  record := record_guards h0
  mod f hf := mod_guards (fun fs => (hf fs).2) fun fs hb => by
    rw [show (f fs).inodemap = fs.inodemap from congrArg Prod.fst (hf fs).1]
    exact hb
  gains k hok hP hm := liveMode_or k (hok hP hm)

/-! ## The inode allocator -/

theorem Guarded.relies {s t : Mnt} {P' : Prop} (h : Guarded d n P s t) (hP : P' → P) : Guarded d n P' s t := by
  obtain ⟨hvol, hmap, evs, htr, hlive⟩ := h
  exact ⟨hvol, hmap, evs, htr, fun h' => hlive (hP h')⟩

/-- Read, and the free-inode cache used. -/
def Still (s t : Mnt) : Prop :=
  Solo s → SameVol s t ∧ t.img = s.img ∧ t.trace = s.trace ∧ t.fs.inodemap = s.fs.inodemap

theorem still_law : Law Still where
  refl s _ := ⟨sameVol_law.refl s, rfl, rfl, rfl⟩
  trans := by
    intro a b c h h' ha
    obtain ⟨hv, hi, ht, hm⟩ := h ha
    obtain ⟨hv', hi', ht', hm'⟩ := h' fun k img => by rw [hv.env]; exact ha k img
    exact ⟨sameVol_law.trans hv hv', hi'.trans hi, ht'.trans ht, hm'.trans hm⟩

theorem still_peek {s t : Mnt} (h : ReadOnly s t) : Still s t := by
  intro hs
  obtain ⟨k, -, rfl⟩ := h hs
  exact ⟨⟨rfl, rfl, rfl⟩, rfl, rfl, rfl⟩

theorem Still.standing {s t : Mnt} (h : Still s t) (hs : Solo s) (hst : Standing s n) : Standing t n := by
  obtain ⟨hv, hi, -, hm⟩ := h hs
  constructor
  · rw [shape_liveOn hv.shape, hi]
    exact hst.record
  · intro hops
    rw [shape_desc hv.shape] at hops
    rw [hm]
    exact hst.map hops

theorem Still.guards {s t : Mnt} (h : Still s t) : Guards d n P s t := by
  intro hs
  obtain ⟨hv, hi, ht, hm⟩ := h hs.solo
  exact guarded_quiet hv hi ht fun hb => by rw [hm]; exact hb

theorem refill_still (todo i : Nat) : Keeps Still (refill todo i) := by
  induction todo generalizing i with
  | zero => exact still_law.ret _
  | succ todo ih =>
    refine still_law.bindFs fun fs =>
      keeps_ite (still_law.seq (keeps_failAs ((readInode_peeks _).mono still_peek)) fun ip =>
      still_law.seq (keeps_onlyIf still_law fun s _ => ?_) fun _ => ih _) (still_law.ret _)
    exact ⟨⟨rfl, rfl, rfl⟩, rfl, rfl, rfl⟩

/-- A number the allocator has taken: it has a record, V1's map has its bit, and it was not `n` while
    that stood. -/
structure Taken (n : Nat) (s t : Mnt) (m : Nat) : Prop where
  record : if s.fs.desc.ops = .pdp7 then m ≠ 0 ∧ m ≤ p7Maxino ∧ WordsIn s (p7Itod m) else ValidIno s.fs m
  map : s.fs.desc.ops = .v1 → 41 ≤ m ∧ getBit t.fs.inodemap (m - 41) = true
  other : Standing s n → m ≠ n

theorem iallocTurn_guards {s : Mnt} (hs : Host d s) (hp : d.ops ≠ .pdp7) (hv : d.ops ≠ .v1) (h0 : n ≠ 0) :
    Post (iallocTurn s) (fun r t => match r with
      | none => Still s t
      | some m => Guards d n (Standing s n) s t ∧ Taken n s t m) (fun _ t => Still s t) := by
  have hm := hs.mounted hp
  refine post_bindFs (post_ite ?_ ?_)
  · intro _
    generalize s.fs.inode (s.fs.ninode - 1) = cand
    apply post_bindMod
    generalize hs1 : ({ s with fs := { s.fs with ninode := s.fs.ninode - 1 } } : Mnt) = s1
    have hpop : Still s s1 := hs1 ▸ fun _ => ⟨⟨rfl, rfl, rfl⟩, rfl, rfl, rfl⟩
    obtain ⟨hvol, himg, -, -⟩ := hpop hs.solo
    have htick : Still s (ticked s1) := still_law.trans hpop (still_peek fun _ => ⟨_, Nat.le_succ _, rfl⟩)
    refine post_ite (fun _ => hpop) fun _ =>
      post_bind (post_failAs ((hm.of_sameVol hvol).post_readInode (fun hval => ?_) (fun _ _ => hpop)
      fun _ _ => htick))
    refine post_ite (fun _ => htick) fun hdead => ?_
    -- a number whose record stands is read as live
    have hother : Standing s n → cand ≠ n := by
      rintro hst rfl
      have hl := hst.record
      unfold LiveOn liveMode modeWord at hl
      rw [if_neg hm.notPdp7, hs.desc] at hl
      rw [shape_recordOf hvol.shape, himg] at hdead
      cases hops : d.ops with
      | v1 => exact hv hops
      | pdp7 => exact hp hops
      | v6 => rw [hops] at hl; exact hdead (hs.desc ▸ hl)
      | v7 => rw [hops] at hl; exact hdead (hs.desc ▸ hl)
      | bsd211 => rw [hops] at hl; exact hdead (hs.desc ▸ hl)
    have hask : Asked d n (Standing s n) cand ({ ino := cand } : Inode).mode :=
      fun hst heq => absurd heq (hother hst)
    refine post_bind (post_attempt ?_)
    have hfin : ∀ u, Guards d n (Standing s n) (ticked s1) u →
      Guards d n (Standing s n) s
      { u with fs := { u.fs with tinode := u.fs.tinode - 1, flDirty := true } } := by
      intro u hu
      have law := guards_base d n (Standing s n)
      refine law.trans (law.trans htick.guards hu) ?_
      exact mod_guards (f := fun fs => { fs with tinode := fs.tinode - 1, flDirty := true })
        (fun _ => rfl) (fun _ => id) u
    have htaken : ∀ u, Taken n s u cand := fun u =>
      ⟨by rw [if_neg (hs.desc ▸ hp)]; exact (shape_validIno hvol.shape).mp hval, fun hops =>
        absurd (hs.desc ▸ hops) hv, hother⟩
    exact (record_guards h0 cand _ hask (ticked s1)).mono (fun _ u hu => ⟨hfin u hu, htaken _⟩)
      fun _ u hu => ⟨hfin u hu, htaken _⟩
  · intro _
    apply post_bindMod
    have hempty : Still s { s with fs := { s.fs with ninode := 0 } } :=
      fun _ => ⟨⟨rfl, rfl, rfl⟩, rfl, rfl, rfl⟩
    refine post_bind ((refill_still _ 2 _).mono (fun _ t ht => ?_) fun _ t ht => still_law.trans hempty ht)
    exact post_bindFs (post_ite (fun _ => still_law.trans hempty ht) fun _ => still_law.trans hempty ht)

theorem iallocLoop_guards {s : Mnt} (hs : Host d s) (hp : d.ops ≠ .pdp7) (hv : d.ops ≠ .v1)
    (h0 : n ≠ 0) (fuel : Nat) :
    Post (v7fsIallocLoop fuel s) (fun m t => Guards d n (Standing s n) s t ∧ Taken n s t m)
    (fun _ t => Guards d n (Standing s n) s t) := by
  induction fuel generalizing s with
  | zero => exact guards_refl s
  | succ fuel ih =>
    refine post_bind ((iallocTurn_guards hs hp hv h0).mono ?_ fun _ t ht => ht.guards)
    intro r t ht
    cases r with
    | some m => exact ht
    | none =>
      have hstill : Still s t := ht
      have hvol := (hstill hs.solo).1
      have hcarry : ∀ u, Guards d n (Standing t n) t u → Guards d n (Standing s n) s u := fun u hu hs' =>
        (hstill.guards hs').trans ((hu (hs'.of_sameVol hvol)).relies (hstill.standing hs.solo))
      refine (ih (hs.of_sameVol hvol)).mono (fun m u hu => ⟨hcarry u hu.1, ?_⟩) fun _ u hu => hcarry u hu
      obtain ⟨hrec, hmap, hne⟩ := hu.2
      refine ⟨?_, ?_, fun hst => hne (hstill.standing hs.solo hst)⟩
      · rw [shape_desc hvol.shape, if_neg (hs.desc ▸ hp)] at hrec
        rw [if_neg (hs.desc ▸ hp)]
        exact (shape_validIno hvol.shape).mp hrec
      · rwa [shape_desc hvol.shape] at hmap

theorem v1fsIalloc_guards {s : Mnt} (hs : Host d s) (hv : d.ops = .v1) :
    Post (v1fsIalloc s) (fun m t => Guards d n (Standing s n) s t ∧ Taken n s t m)
    (fun _ t => Guards d n (Standing s n) s t) := by
  apply post_bindFs
  cases hbit : firstClear s.fs.inodemap (s.fs.maxino + 1 - 41) 0 with
  | none => exact guards_refl s
  | some bit =>
    obtain ⟨-, hlt, hclear⟩ := firstClear_some hbit
    have hops : s.fs.desc.ops = .v1 := hs.desc ▸ hv
    have hset : ∀ i, getBit s.fs.inodemap i = true → getBit (putBit s.fs.inodemap bit true) i = true := by
      intro i hi
      rw [getBit_putBit]
      split
      · rfl
      · exact hi
    refine ⟨fun _ => guarded_quiet ⟨rfl, rfl, rfl⟩ rfl rfl (hset _), ?_, fun _ => ⟨by omega, ?_⟩, ?_⟩
    · rw [if_neg (by rw [hops]; decide)]
      exact ⟨by omega, by rw [if_pos hops]; omega⟩
    · show getBit (putBit s.fs.inodemap bit true) (bit + 41 - 41) = true
      rw [Nat.add_sub_cancel, getBit_putBit, if_pos rfl]
    · rintro hst rfl
      obtain ⟨-, hb⟩ := hst.map hops
      rw [Nat.add_sub_cancel, hclear] at hb
      cases hb

/-- A block goes out with the words of record `m` changed, and `m` is another record. -/
theorem guarded_putOther {s : Mnt} (hm : Mounted7 s) {m : Nat} (hne : P → m ≠ n) (ip : Inode) {w : Nat → Nat}
    (hw : ∀ k, k < p7Itoo m ∨ p7Itoo m + 12 ≤ k → w k = wordsOf s.fs s.img (p7Itod m) k) :
    Guarded d n P s (putWords (.inode ip) (p7Itod m) w s) := by
  refine guarded_putRecord hm.pdp7 fun hP hl hb => ?_
  have happart := p7Itoo_apart hb.symm (hne hP)
  rw [hw _ (by omega)]
  exact liveMode_same hm.pdp7 hl hb

theorem p7IallocFrom_guards {s : Mnt} (hs : Host d s) (hp : d.ops = .pdp7) (todo i : Nat) (h1 : 1 ≤ i)
    (htop : i + todo ≤ p7Maxino + 1) :
    Post (p7fsIallocFrom todo i s) (fun m t => Guards d n (Standing s n) s t ∧ Taken n s t m)
    (fun _ t => Guards d n (Standing s n) s t) := by
  induction todo generalizing i s with
  | zero => exact guards_refl s
  | succ todo ih =>
    have hm := hs.mounted7 hp
    have htick : Still s (ticked s) := still_peek fun _ => ⟨_, Nat.le_succ _, rfl⟩
    have hs' := hs.of_sameVol (ticked_sameVol s)
    refine post_bind (post_failAs (hm.post_readWords (fun hin _ => ?_) (fun _ _ => guards_refl s)
      fun _ _ => guards_ticked))
    apply post_ite
    · intro _
      have hcarry : ∀ u, Guards d n (Standing (ticked s) n) (ticked s) u →
        Guards d n (Standing s n) s u := fun u hu hh =>
        (htick.guards hh).trans ((hu hs').relies (htick.standing hs.solo))
      refine (ih hs' (i + 1) (by omega) (by omega)).mono (fun m u hu => ⟨hcarry u hu.1, ?_⟩)
        fun _ u hu => hcarry u hu
      refine ⟨hu.2.record, hu.2.map, ?_⟩
      intro hst
      exact hu.2.other (htick.standing hs.solo hst)
    · intro hfree
      -- the flag of a standing record is set
      have hother : Standing s n → i ≠ n := by
        rintro hst rfl
        have hl := hst.record
        unfold LiveOn liveMode modeWord at hl
        rw [hm.pdp7, if_pos rfl] at hl
        exact hfree hl
      have hm' : Mounted7 (ticked s) := hm.of_sameVol (ticked_sameVol s)
      have law := guards_base d n (Standing s n)
      refine post_bind (post_failAs (hm'.post_writeWords (fun _ _ => ?_) (fun _ _ => guards_ticked)
        fun _ _ => law.trans guards_ticked guards_ticked))
      refine ⟨law.trans guards_ticked (law.trans (fun _ => guarded_putOther hm' hother _ fun k hk => ?_)
        (mod_guards
        (f := fun fs => { fs with flDirty := true }) (fun _ => rfl) (fun _ => id) _)), ?_, ?_, hother⟩
      · rw [if_neg (by omega), if_neg (by omega), if_neg (by omega), if_neg (by omega)]
        rfl
      · rw [if_pos hm.pdp7]
        exact ⟨by omega, by omega, hin⟩
      · intro hv
        rw [hm.pdp7] at hv
        cases hv

theorem ialloc_guards {s : Mnt} (hs : Host d s) (h0 : n ≠ 0) :
    Post (ialloc s) (fun m t => Guards d n (Standing s n) s t ∧ Taken n s t m)
    (fun _ t => Guards d n (Standing s n) s t) := by
  show Post ((match s.fs.desc.ops with
    | .v1 => v1fsIalloc
    | .pdp7 => p7fsIalloc
    | _ => v7fsIalloc : M Nat) s) _ _
  rw [hs.desc]
  have hloop := fun hp hv => iallocLoop_guards hs hp hv h0 s.env.fuel
  cases hops : d.ops with
  | v1 => exact v1fsIalloc_guards hs hops
  | pdp7 =>
    exact post_bindFs (post_ite (fun _ => guards_refl s) fun _ => p7IallocFrom_guards hs hops p7Maxino 1
      (Nat.le_refl 1) (by omega))
  | v6 => exact hloop (by rw [hops]; decide) (by rw [hops]; decide)
  | v7 => exact hloop (by rw [hops]; decide) (by rw [hops]; decide)
  | bsd211 => exact hloop (by rw [hops]; decide) (by rw [hops]; decide)

/-- Giving another inode back. -/
theorem ifree_guards (h41 : d.ops = .v1 → 41 ≤ n) {m : Nat} (hne : m ≠ n) : Keeps (Guards d n P) (ifree m) := by
  have law := guards_base d n P
  have hcache : Keeps (Guards d n P) (v7fsIfree m) :=
    law.bindFs fun _ => keeps_ite (law.ret _) (mod_guards (fun _ => rfl) fun _ => id)
  refine keeps_host fun s hs => ?_
  show Post ((match s.fs.desc.ops with
    | .v1 => v1fsIfree m
    | .pdp7 => p7fsIfree m
    | _ => v7fsIfree m : M Unit) s) _ _
  rw [hs.desc]
  cases hops : d.ops with
  | v1 =>
    have := h41 hops
    refine post_bindFs (post_ite (fun _ => guards_refl s) fun hm _ =>
      guarded_quiet ⟨rfl, rfl, rfl⟩ rfl rfl fun hb => ?_)
    show getBit (putBit s.fs.inodemap (m - 41) false) (n - 41) = true
    rw [getBit_putBit, if_neg (by omega)]
    exact hb
  | pdp7 =>
    have hm := hs.mounted7 hops
    have hm' : Mounted7 (ticked s) := hm.of_sameVol (ticked_sameVol s)
    refine post_bindFs (post_ite (fun _ => guards_refl s) fun _ => post_bind (post_attempt
      (hm.post_readWords (fun _ _ => ?_) (fun _ _ => guards_refl s) fun _ _ => guards_ticked)))
    refine post_bind (post_attempt (hm'.post_writeWords (fun _ _ => ?_) (fun _ _ => guards_ticked)
      fun _ _ => law.trans guards_ticked guards_ticked))
    refine law.trans (b := ticked s) guards_ticked fun _ => guarded_putOther hm' (fun _ => hne) _ fun k hk => ?_
    rw [if_neg (by omega)]
    rfl
  | v6 => exact hcache s
  | v7 => exact hcache s
  | bsd211 => exact hcache s

end Law

end Filsys.Check
