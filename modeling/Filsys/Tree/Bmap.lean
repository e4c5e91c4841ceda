/-
  Filsys.Tree.Bmap — finding and making the block of a logical block number
  (blocktree.c).

  `filsysBmap` follows one path of the file's tree and, asked to, makes what is missing on
  it. `Frame` bounds what that changes: no record, no held block's place, and no held block
  but the indirect ones on the path. `Grown` says what it does to the tree: every other
  path leads where it led, and this one where it led or from a hole to a block of zeros.
-/

import Filsys.Tree.Step

namespace Filsys.Tree

open Filsys.Lib Filsys.Engine Filsys.Alloc

/-! ## What a change leaves alone -/

/-- No block has lost its holder. -/
def Grows (own own' : Own) : Prop := ∀ b x, own b = some x → own' b = some x

/-- Records, holders and the held blocks outside the places `A` of inode `n` are as they were. -/
structure Frame (n : Nat) (A : List Nat → Prop) (s : Mnt) (own : Own) (t : Mnt) (own' : Own) :
    Prop extends SameVol s t where
  grows : Grows own own'
  list : ∀ b, 2 ≤ b → b < opsDataStart s.fs → blockOf s.fs t.img b = blockOf s.fs s.img b
  same : ∀ b k p, own b = some (k, p) → (k = n → ¬ A p) → blockOf s.fs t.img b = blockOf s.fs s.img b

namespace Frame

variable {n : Nat} {A : List Nat → Prop} {s t u : Mnt} {own own' own'' : Own}

theorem refl (n : Nat) (A : List Nat → Prop) (s : Mnt) (own : Own) : Frame n A s own s own :=
  ⟨sameVol_law.refl s, fun _ _ h => h, fun _ _ _ => rfl, fun _ _ _ _ _ => rfl⟩

theorem trans (h : Frame n A s own t own') (h' : Frame n A t own' u own'') : Frame n A s own u own'' := by
  have hb := shape_blockOf h.shape
  refine ⟨sameVol_law.trans h.toSameVol h'.toSameVol, fun b x hx => h'.grows b x (h.grows b x hx),
    fun b h2 hlt => ?_, fun b k p hx hA => ?_⟩
  · have := h'.list b h2 (by rw [shape_dataStart h.shape]; exact hlt)
    rw [hb] at this
    exact this.trans (h.list b h2 hlt)
  · have := h'.same b k p (h.grows b _ hx) hA
    rw [hb] at this
    exact this.trans (h.same b k p hx hA)

theorem mono {A' : List Nat → Prop} (h : Frame n A s own t own') (hA : ∀ p, A p → A' p) :
    Frame n A' s own t own' :=
  ⟨h.toSameVol, h.grows, h.list, fun b k p hx hn => h.same b k p hx fun hk => fun hp => hn hk (hA p hp)⟩

theorem of_kept (h : Kept s t) (hown : Owned s own) (n : Nat) (A : List Nat → Prop) : Frame n A s own t own :=
  ⟨h.toSameVol, fun _ _ hx => hx, fun b h2 _ => h.blocks b h2, fun b _ _ hx _ => h.blocks b (hown.two_le hx)⟩

theorem of_idle (h : Idle s t) (n : Nat) (A : List Nat → Prop) : Frame n A s own t own :=
  ⟨h.toSameVol, fun _ _ hx => hx, fun _ _ _ => by rw [h.img], fun _ _ _ _ _ => by rw [h.img]⟩

theorem record (h : Frame n A s own t own') (hm : Mounted s) {k : Nat} (hk : ValidIno s.fs k) :
    recordOf t.fs t.img k = recordOf s.fs s.img k := by
  have hbd := hm.itod_bounds hk
  rw [shape_recordOf h.shape]
  exact recordOf_congr (h.list _ hbd.1 hbd.2)

/-- Below a held block nothing has moved, unless its way down passes a changed place. -/
theorem descend (h : Frame n A s own t own') (hown : Owned s own) {k slot : Nat} {pre idxs : List Nat} {b : Nat}
    (hb : own b = some (k, slot :: pre)) (hlen : pre.length + idxs.length ≤ cdepth s.fs.desc slot)
    (hidx : ∀ i ∈ idxs, i < s.fs.desc.nindir) (hA : k = n → ∀ j, j < idxs.length →
      ¬ A (slot :: (pre ++ idxs.take j))) :
    Engine.descend t.fs t.img b idxs = Engine.descend s.fs s.img b idxs := by
  induction idxs generalizing pre b with
  | nil => rfl
  | cons i idxs ih =>
    rw [List.length_cons] at hlen
    have hsame : entryOf t.fs t.img b i = entryOf s.fs s.img b i := by
      rw [shape_entryOf h.shape]
      refine entryOf_congr (h.same b k _ hb fun hk => ?_) i
      have := hA hk 0 (by simp)
      rwa [List.take_zero, List.append_nil] at this
    unfold Engine.descend
    rw [hsame]
    split
    · rfl
    · by_cases he : entryOf s.fs s.img b i = 0
      · rw [he, descend_zero, descend_zero]
      · have hnext := hown.tree b k slot pre hb (by omega) i (hidx i (List.mem_cons_self ..)) he
        refine ih hnext (by rw [List.length_append, List.length_singleton]; omega)
          (fun j hj => hidx j (List.mem_cons_of_mem _ hj)) ?_
        intro hk j hj
        have := hA hk (j + 1) (by rw [List.length_cons]; omega)
        rw [List.take_succ_cons] at this
        rwa [List.append_assoc, List.singleton_append]

end Frame

/-! ## Following entries -/

/-- The places of the indirect blocks on the way from `slot :: pre` down `idxs`. -/
def Above (slot : Nat) (pre idxs p : List Nat) : Prop := ∃ j, j < idxs.length ∧ p = slot :: (pre ++ idxs.take j)

theorem Above.below {slot i : Nat} {pre idxs p : List Nat} (h : Above slot (pre ++ [i]) idxs p) :
    Above slot pre (i :: idxs) p := by
  obtain ⟨j, hj, rfl⟩ := h
  refine ⟨j + 1, by rw [List.length_cons]; omega, ?_⟩
  rw [List.take_succ_cons, List.append_assoc, List.singleton_append]

/-- The tree below `b` after `idxs` has been made: other paths lead where they led, and
    `idxs` where it led or from a hole to a block of zeros. -/
structure Grown (s t : Mnt) (b : Nat) (idxs : List Nat) : Prop where
  other : ∀ js, js.length = idxs.length → (∀ i ∈ js, i < s.fs.desc.nindir) → js ≠ idxs →
    descend t.fs t.img b js = descend s.fs s.img b js
  here : descend t.fs t.img b idxs = descend s.fs s.img b idxs ∨
    descend s.fs s.img b idxs = 0 ∧
    (descend t.fs t.img b idxs ≠ 0 → blockOf s.fs t.img (descend t.fs t.img b idxs) = zeroBuf)

/-- What following `idxs` below `b` does, whether or not it succeeds. -/
structure Follows (S : Scope) (n slot : Nat) (pre idxs : List Nat) (b : Nat) (s : Mnt) (own : Own)
    (t : Mnt) (own' : Own) : Prop where
  path : Path S s own t own'
  frame : Frame n (Above slot pre idxs) s own t own'
  grown : Grown s t b idxs

/-- Nothing moves below a block while no held block changes. -/
theorem grown_of_frame {n : Nat} {A : List Nat → Prop} {s t : Mnt} {own own' : Own} (h : Owned s own)
    (hf : Frame n A s own t own')
    {slot : Nat} {pre idxs : List Nat} {b : Nat} (hb : own b = some (n, slot :: pre))
    (hlen : pre.length + idxs.length = cdepth s.fs.desc slot)
    (hidx : ∀ i ∈ idxs, i < s.fs.desc.nindir) (hA : ∀ p, ¬ A p) : Grown s t b idxs where
  other js hjs hji _ := hf.descend h hb (by omega) hji fun _ _ _ => hA _
  here := .inl (hf.descend h hb (by omega) hidx fun _ _ _ => hA _)

/-- One turn: the block's own entries are as they were but for the one on the path. -/
theorem grown_cons {n : Nat} {s t : Mnt} {own own' : Own} (h : Owned s own) {slot i : Nat}
    {pre idxs : List Nat} {b : Nat}
    (hf : Frame n (Above slot pre (i :: idxs)) s own t own') (hb : own b = some (n, slot :: pre))
    (hlen : pre.length + (idxs.length + 1) = cdepth s.fs.desc slot) (hi : i < s.fs.desc.nindir)
    (hent : ∀ j, j < s.fs.desc.nindir → j ≠ i → entryOf s.fs t.img b j = entryOf s.fs s.img b j)
    (hother : ∀ js, js.length = idxs.length → (∀ k ∈ js, k < s.fs.desc.nindir) → js ≠ idxs →
      descend t.fs t.img (entryOf s.fs t.img b i) js = descend s.fs s.img (entryOf s.fs s.img b i) js)
    (hhere : descend t.fs t.img (entryOf s.fs t.img b i) idxs =
      descend s.fs s.img (entryOf s.fs s.img b i) idxs ∨
      descend s.fs s.img (entryOf s.fs s.img b i) idxs = 0 ∧
      (descend t.fs t.img (entryOf s.fs t.img b i) idxs ≠ 0 →
        blockOf s.fs t.img (descend t.fs t.img (entryOf s.fs t.img b i) idxs) = zeroBuf)) :
        Grown s t b (i :: idxs) := by
  have hb0 : b ≠ 0 := by
    have := h.two_le hb
    omega
  have hstep : ∀ j js, descend t.fs t.img b (j :: js) = descend t.fs t.img (entryOf s.fs t.img b j) js := by
    intro j js
    rw [← shape_entryOf hf.shape]
    exact if_neg hb0
  have hstep' : ∀ j js, descend s.fs s.img b (j :: js) =
    descend s.fs s.img (entryOf s.fs s.img b j) js := fun j js => if_neg hb0
  refine ⟨fun js hjs hji hne => ?_, by rw [hstep, hstep']; exact hhere⟩
  cases js with
  | nil => simp at hjs
  | cons j js =>
    rw [hstep, hstep']
    have hj := hji j (List.mem_cons_self ..)
    have hjs' : js.length = idxs.length := by simpa using hjs
    have hji' : ∀ k ∈ js, k < s.fs.desc.nindir := fun k hk => hji k (List.mem_cons_of_mem _ hk)
    by_cases hij : j = i
    · subst hij
      exact hother js hjs' hji' fun heq => hne (by rw [heq])
    · rw [hent j hj hij]
      by_cases he : entryOf s.fs s.img b j = 0
      · rw [he, descend_zero, descend_zero]
      · have hnext := h.tree b n slot pre hb (by omega) j hj he
        refine hf.descend h hnext (by rw [List.length_append, List.length_singleton]; omega) hji'
          fun _ m hm habove => ?_
        -- the places on the path carry `i` where this one carries `j`
        obtain ⟨k, hk, heq⟩ := habove
        have heq' := (List.cons.inj heq).2
        rw [List.append_assoc] at heq'
        cases k with
        | zero => simp at heq'
        | succ k =>
          rw [List.take_succ_cons, List.singleton_append] at heq'
          exact hij (List.cons.inj (List.append_cancel_left heq')).1

/-- Where following `idxs` below `b` ends. -/
structure Finds (S : Scope) (n slot : Nat) (pre idxs : List Nat) (b : Nat) (create : Bool) (s : Mnt)
    (own : Own) (r : Nat) (t : Mnt)
    (own' : Own) : Prop extends Follows S n slot pre idxs b s own t own' where
  leads : descend t.fs t.img b idxs = r
  held : r ≠ 0 → own' r = some (n, slot :: (pre ++ idxs))
  made : create = true → r ≠ 0

theorem entryOf_putAt {s : Mnt} (hm : Mounted s) (hl : RecordLayout s.fs.desc) (site : Site)
    (b : Nat) (buf : Buf) {i : Nat}
    (hi : i < s.fs.desc.nindir) : entryOf s.fs (putAt site b buf s).img b i = indGet s.fs.desc buf i := by
  show indGet s.fs.desc (blockOf s.fs (putBlock s.fs s.img b buf) b) i = _
  rw [blockOf_putBlock, indGet_window hm.notPdp7 hl _ hi]

/-- A block just handed out is no one's. -/
theorem loose_of_took {s t : Mnt} {own : Own} (h : Owned s own) {b : Nat} (ht : Took s b t) : Loose t own b :=
  ⟨h.free b ht.was, fun hf => ((ht.free b).mp hf).2 rfl, (shape_dataBlock ht.shape).mpr (h.space.data ht.was)⟩

theorem frame_of_took {s t : Mnt} {own : Own} (h : Owned s own) {b : Nat} (ht : Took s b t)
    (n : Nat) (A : List Nat → Prop) :
    Frame n A s own t own := by
  have hd := h.space.data ht.was
  refine ⟨ht.toSameVol, fun _ _ hx => hx, fun x h2 hlt => ht.blocks x h2 ?_, fun x k p hx _ =>
    ht.blocks x (h.two_le hx) ?_⟩
  · have := hd.1
    omega
  · rintro rfl
    rw [h.free x ht.was] at hx
    cases hx

theorem frame_of_lost {s t : Mnt} {own : Own} (h : Owned s own) (ht : Lost s t) (n : Nat)
    (A : List Nat → Prop) : Frame n A s own t own :=
  ⟨ht.toSameVol, fun _ _ hx => hx, fun x h2 _ => ht.blocks x h2, fun x _ _ hx _ => ht.blocks x (h.two_le hx)⟩

theorem not_above_self {slot i : Nat} {pre idxs : List Nat} : ¬ Above slot (pre ++ [i]) idxs (slot :: pre) := by
  rintro ⟨j, -, heq⟩
  have := congrArg List.length heq
  simp at this

/-- Following on from the state `u` in which entry `i` of `b` is `c`. -/
theorem follows_cons {S : Scope} {n slot i : Nat} {pre idxs : List Nat} {b c : Nat} {s u t : Mnt}
    {own own₁ own' : Own} (h : Owned s own)
    (hb : own b = some (n, slot :: pre)) (hlen : pre.length + (idxs.length + 1) = cdepth s.fs.desc slot)
    (hi : i < s.fs.desc.nindir) (hp : Path S s own u own₁)
    (hf : Frame n (Above slot pre (i :: idxs)) s own u own₁)
    (hent : ∀ j, j < s.fs.desc.nindir → j ≠ i → entryOf s.fs u.img b j = entryOf s.fs s.img b j)
    (hc : entryOf s.fs u.img b i = c)
    (hdown : ∀ js, js.length = idxs.length →
      descend u.fs u.img c js = descend s.fs s.img (entryOf s.fs s.img b i) js)
    (hr : Follows S n slot (pre ++ [i]) idxs c u own₁ t own') :
    Follows S n slot pre (i :: idxs) b s own t own' ∧
    descend t.fs t.img b (i :: idxs) = descend t.fs t.img c idxs := by
  have hbu := shape_blockOf hf.shape
  have hdu := shape_desc hf.shape
  have hsame : blockOf s.fs t.img b = blockOf s.fs u.img b := by
    have := hr.frame.same b n _ (hf.grows b _ hb) fun _ => not_above_self
    rwa [hbu] at this
  have hft : Frame n (Above slot pre (i :: idxs)) s own t own' := hf.trans (hr.frame.mono fun _ hp => hp.below)
  have hci : entryOf s.fs t.img b i = c := (entryOf_congr hsame i).trans hc
  refine ⟨⟨hp.trans hr.path, hft, grown_cons h hft hb hlen hi ?_ ?_ ?_⟩, ?_⟩
  · intro j hj hji
    exact (entryOf_congr hsame j).trans (hent j hj hji)
  · intro js hjs hji hne
    rw [hci, hr.grown.other js hjs (by rw [hdu]; exact hji) hne, hdown js hjs]
  · rw [hci]
    have hhere := hr.grown.here
    rw [hdown idxs rfl, hbu] at hhere
    exact hhere
  · rw [← hci, ← shape_entryOf hft.shape]
    exact if_neg (by have := h.two_le hb; omega)

/-- A new block of zeros hung into entry `i` of `b`. -/
structure Hung (S : Scope) (n slot i : Nat) (pre : List Nat) (b nb : Nat) (s : Mnt) (own : Own)
    (t : Mnt) (own' : Own) : Prop where
  step : Step S s own t own'
  frame : ∀ idxs, Frame n (Above slot pre (i :: idxs)) s own t own'
  entry : ∀ j, j < s.fs.desc.nindir → entryOf s.fs t.img b j = if j = i then nb else entryOf s.fs s.img b j
  zero : blockOf s.fs t.img nb = zeroBuf
  held : own' nb = some (n, slot :: (pre ++ [i]))

theorem hung_putAt {S : Scope} {n slot i : Nat} {pre : List Nat} {b nb : Nat} {s : Mnt} {own : Own}
    (h : Owned s own) (hS : S.touch n)
    (hlink : S.link n (slot :: pre)) (hb : own b = some (n, slot :: pre))
    (hlen : pre.length < cdepth s.fs.desc slot)
    (hi : i < s.fs.desc.nindir) (hz : entryOf s.fs s.img b i = 0) (hl : Loose s own nb)
    (hzero : blockOf s.fs s.img nb = zeroBuf) :
    Hung S n slot i pre b nb s own (putAt .block b (indPut s.fs.desc (blockOf s.fs s.img b) i nb) s)
      (hold own nb n (slot :: (pre ++ [i]))) := by
  have hne : ∀ x y, own x = some y → x ≠ nb := by
    rintro x y hx rfl
    rw [hl.unheld] at hx
    cases hx
  refine ⟨.link hS hlink hb hlen hi hz hl hzero, fun idxs => ⟨putAt_sameVol .., fun x y hx => ?_,
    fun x _ hlt => ?_, fun x k p hx hA => ?_⟩,
    fun j hj => ?_, ?_, if_pos rfl⟩
  · unfold hold
    rw [if_neg (hne x y hx)]
    exact hx
  · refine blockOf_putBlock_ne ?_ _ _
    have := (h.data b _ hb).1
    omega
  · refine blockOf_putBlock_ne ?_ _ _
    rintro rfl
    rw [hb] at hx
    obtain ⟨rfl, rfl⟩ := Prod.mk.inj (Option.some.inj hx)
    exact hA rfl ⟨0, by simp, by simp⟩
  · rw [entryOf_putAt h.mounted h.layout.toRecordLayout .block b _ hj, indGet_indPut h.mounted.notPdp7]
    split
    · exact Nat.mod_eq_of_lt (Nat.lt_of_lt_of_le (hl.data.lt_fsize h.mounted) h.layout.entry)
    · rfl
  · exact (blockOf_putBlock_ne (hne b _ hb).symm _ _).trans hzero

/-- Below a block of zeros there is nothing. -/
theorem descend_of_zero {s : Mnt} (hm : Mounted s) {b : Nat} (hz : blockOf s.fs s.img b = zeroBuf)
    {js : List Nat} (hjs : js ≠ []) :
    descend s.fs s.img b js = 0 := by
  cases js with
  | nil => exact absurd rfl hjs
  | cons j js =>
    have he : entryOf s.fs s.img b j = 0 := by
      unfold entryOf
      rw [hz]
      exact indGet_zeroBuf hm.notPdp7 j
    unfold descend
    split
    · rfl
    · rw [he, descend_zero]

theorem post_indFollow {S : Scope} {n slot : Nat} (hS : S.touch n) (create : Bool) (idxs : List Nat) :
    ∀ {pre : List Nat} {b : Nat} {s : Mnt} {own : Own}, Owned s own → own b = some (n, slot :: pre) →
    idxs ≠ [] →
      pre.length + idxs.length = cdepth s.fs.desc slot → (∀ i ∈ idxs, i < s.fs.desc.nindir) →
      (create = true → descend s.fs s.img b idxs ≠ 0 ∨ ∀ j, j < idxs.length →
        S.link n (slot :: (pre ++ idxs.take j))) →
      Post (indFollow create idxs b s) (fun r t => ∃ own', Finds S n slot pre idxs b create s own r t own')
        (fun _ t => ∃ own', Follows S n slot pre idxs b s own t own') := by
  induction idxs with
  | nil => intro pre b s own _ _ hne; exact absurd rfl hne
  | cons i idxs ih =>
    intro pre b s own h hb _ hlen hidx hlink
    have hm := h.mounted
    have hl := h.layout.toRecordLayout
    have hi := hidx i (List.mem_cons_self ..)
    have hidx' : ∀ j ∈ idxs, j < s.fs.desc.nindir := fun j hj => hidx j (List.mem_cons_of_mem _ hj)
    have hlen' : pre.length + (idxs.length + 1) = cdepth s.fs.desc slot := by rwa [List.length_cons] at hlen
    have hb0 : b ≠ 0 := by
      have := h.two_le hb
      omega
    have hdesc : descend s.fs s.img b (i :: idxs) = descend s.fs s.img (entryOf s.fs s.img b i) idxs :=
      if_neg hb0
    -- the read itself
    have hf1 : Frame n (Above slot pre (i :: idxs)) s own (ticked s) own := .of_idle (idle_ticked s) n _
    have hp1 : Path S s own (ticked s) own := .one (.idle (idle_ticked s))
    have hg1 : Grown s (ticked s) b (i :: idxs) :=
      grown_of_frame (A := fun _ => False) h (.of_idle (idle_ticked s) n _) hb hlen hidx fun _ hp => hp
    have hF1 : Follows S n slot pre (i :: idxs) b s own (ticked s) own := ⟨hp1, hf1, hg1⟩
    have ho1 : Owned (ticked s) own := owned_idle h (idle_ticked s)
    refine post_bindFs (post_bind (post_failAs ?_))
    rw [hm.readBlock_eq]
    refine hm.post_read ((h.data b _ hb).lt_fsize hm) (fun _ => ?_) fun _ _ => ⟨own, hF1⟩
    show Post ((if entryOf s.fs s.img b i = 0 then _ else _ : M Nat) (ticked s)) _ _
    apply post_ite
    · intro hz
      have hdz : descend s.fs s.img b (i :: idxs) = 0 := by rw [hdesc, hz, descend_zero]
      apply post_ite
      · intro hc
        -- a hole to fill
        have hperm := (hlink hc).resolve_left fun hne => hne hdz
        have hspec := balloc_spec ho1.mounted ho1.space
        apply post_bind
        cases hbal : balloc (ticked s) with
        | error e t =>
          rw [hbal] at hspec
          have hft : ∀ A, Frame n A s own t own := fun A => (Frame.of_idle (idle_ticked s) n A).trans
            (frame_of_lost ho1 hspec n A)
          exact ⟨own, hp1.trans (.one (.full hbal)), hft _,
            grown_of_frame h (hft fun _ => False) hb hlen hidx fun _ hp => hp⟩
        | ok nb t1 =>
          rw [hbal] at hspec
          have ho2 := owned_took ho1 hspec
          have hp2 : Path S s own t1 own := hp1.trans (.one (.take hbal))
          have hf2 : ∀ A, Frame n A s own t1 own := fun A => (Frame.of_idle (idle_ticked s) n A).trans
            (frame_of_took ho1 hspec n A)
          have hloose := loose_of_took ho1 hspec
          have hd1 : t1.fs.desc = s.fs.desc := shape_desc hspec.shape
          have hblk1 : blockOf t1.fs = blockOf s.fs := shape_blockOf hspec.shape
          have hbsame : blockOf s.fs t1.img b = blockOf s.fs s.img b :=
            (hf2 fun _ => False).same b n _ hb fun _ hp => hp
          have hnbb : nb ≠ b := by
            rintro rfl
            rw [hloose.unheld] at hb
            cases hb
          have hnb0 : nb ≠ 0 := by
            have := hloose.data.two_le ho2.mounted
            omega
          show Post ((failAs .eio (writeBlock b (indPut s.fs.desc (blockOf s.fs s.img b) i nb)) >>= fun _ =>
            if idxs = [] then pure nb else indFollow create idxs nb : M Nat) t1) _ _
          refine post_bind (post_failAs ?_)
          rw [ho2.mounted.writeBlock_eq]
          refine ho2.mounted.post_write ((ho2.data b _ hb).lt_fsize ho2.mounted) ?_ ?_
          · intro _
            have hung : Hung S n slot i pre b nb t1 own
              (putAt .block b (indPut s.fs.desc (blockOf s.fs s.img b) i nb) t1)
                (hold own nb n (slot :: (pre ++ [i]))) := by
              have hlk := hperm 0 (by simp)
              rw [List.take_zero, List.append_nil] at hlk
              rw [← hbsame, ← hblk1, ← hd1]
              refine hung_putAt ho2 hS hlk hb (by rw [hd1]; omega) (by rw [hd1]; exact hi) ?_ hloose
                (by rw [hblk1]; exact hspec.zero)
              rw [shape_entryOf hspec.shape]
              exact (entryOf_congr hbsame i).trans hz
            generalize putAt .block b (indPut s.fs.desc (blockOf s.fs s.img b) i nb) t1 = t2 at hung
            have ho3 := hung.step.owned ho2
            have hp3 := hp2.snoc hung.step
            have hf3 := (hf2 _).trans (hung.frame idxs)
            have hent3 : ∀ j, j < s.fs.desc.nindir → entryOf s.fs t2.img b j = if j = i then nb
              else entryOf s.fs s.img b j := by
              intro j hj
              have := hung.entry j (by rw [hd1]; exact hj)
              rwa [shape_entryOf hspec.shape, show entryOf (ticked s).fs t1.img b j =
                entryOf s.fs s.img b j from entryOf_congr hbsame j] at this
            have hzero3 : blockOf s.fs t2.img nb = zeroBuf := by rw [← hblk1]; exact hung.zero
            have hci : entryOf s.fs t2.img b i = nb := by rw [hent3 i hi, if_pos rfl]
            have hej : ∀ j, j < s.fs.desc.nindir → j ≠ i →
              entryOf s.fs t2.img b j = entryOf s.fs s.img b j := by
              intro j hj hji
              rw [hent3 j hj, if_neg hji]
            apply post_ite
            · intro hnil
              subst hnil
              have hg : Grown s t2 b [i] := by
                refine grown_cons h hf3 hb hlen' hi hej ?_ ?_
                · intro js hjs _ hne
                  exact absurd (List.eq_nil_of_length_eq_zero hjs) hne
                · rw [hci, hz]
                  exact .inr ⟨rfl, fun _ => hzero3⟩
              refine ⟨_, ⟨⟨hp3, hf3, hg⟩, ?_, fun _ => hung.held, fun _ => hnb0⟩⟩
              rw [show descend t2.fs t2.img b [i] = entryOf t2.fs t2.img b i from if_neg hb0,
                shape_entryOf hf3.shape]
              exact hci
            · intro hrest
              have hbt : blockOf t2.fs t2.img nb = zeroBuf := by
                rw [shape_blockOf hf3.shape]
                exact hzero3
              have hd3 := shape_desc hf3.shape
              have hdown : ∀ js, js.length = idxs.length →
                descend t2.fs t2.img nb js = descend s.fs s.img (entryOf s.fs s.img b i) js := by
                intro js hjs
                rw [hz, descend_zero]
                refine descend_of_zero ho3.mounted hbt ?_
                rintro rfl
                exact hrest (List.eq_nil_of_length_eq_zero hjs.symm)
              refine (ih ho3 hung.held hrest ?_ (by rw [hd3]; exact hidx') fun _ =>
                .inr fun j hj => ?_).mono ?_ ?_
              · rw [List.length_append, List.length_singleton, hd3]
                omega
              · have := hperm (j + 1) (by rw [List.length_cons]; omega)
                rwa [List.take_succ_cons, List.append_cons] at this
              · intro r t hrun
                obtain ⟨own', hr⟩ := hrun
                obtain ⟨hF, hleads⟩ := follows_cons h hb hlen' hi hp3 hf3 hej hci hdown hr.toFollows
                refine ⟨own', ⟨hF, hleads.trans hr.leads, fun hr0 => ?_, hr.made⟩⟩
                have := hr.held hr0
                rwa [List.append_assoc, List.singleton_append] at this
              · intro e t hrun
                obtain ⟨own', hr⟩ := hrun
                exact ⟨own', (follows_cons h hb hlen' hi hp3 hf3 hej hci hdown hr).1⟩
          · intro _ _
            have hft : ∀ A, Frame n A s own (ticked t1) own :=
              fun A => (hf2 A).trans (.of_idle (idle_ticked t1) n A)
            exact ⟨own, hp2.trans (.one (.idle (idle_ticked t1))), hft _,
              grown_of_frame h (hft fun _ => False) hb hlen hidx fun _ hp => hp⟩
      · intro hc
        refine ⟨own, ⟨hF1, ?_, fun hr => absurd rfl hr, fun hc' => absurd hc' hc⟩⟩
        exact hdz
    · intro hnz
      have hnext := h.tree b n slot pre hb (by omega) i hi hnz
      apply post_ite
      · intro hnil
        subst hnil
        refine ⟨own, ⟨hF1, ?_, fun _ => hnext, fun _ => hnz⟩⟩
        exact hdesc
      · intro hrest
        refine (ih ho1 hnext hrest ?_ hidx' ?_).mono ?_ ?_
        · rw [List.length_append, List.length_singleton]
          show _ = cdepth s.fs.desc slot
          omega
        · intro hc
          refine (hlink hc).imp ?_ ?_
          · intro hne
            rwa [hdesc] at hne
          · intro hall j hj
            have := hall (j + 1) (by rw [List.length_cons]; omega)
            rwa [List.take_succ_cons, List.append_cons] at this
        · intro r t hrun
          obtain ⟨own', hr⟩ := hrun
          obtain ⟨hF, hleads⟩ := follows_cons h hb hlen' hi hp1 hf1 (fun _ _ _ => rfl) rfl
            (fun _ _ => rfl) hr.toFollows
          refine ⟨own', ⟨hF, hleads.trans hr.leads, fun hr0 => ?_, hr.made⟩⟩
          have := hr.held hr0
          rwa [List.append_assoc, List.singleton_append] at this
        · intro e t hrun
          obtain ⟨own', hr⟩ := hrun
          exact ⟨own', (follows_cons h hb hlen' hi hp1 hf1 (fun _ _ _ => rfl) rfl (fun _ _ => rfl) hr).1⟩

end Filsys.Tree
