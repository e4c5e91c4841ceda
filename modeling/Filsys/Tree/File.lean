/-
  Filsys.Tree.File — the bytes of a file (v7fs.c).

  `byteOf` is what a copy of an inode says a byte of its file is: a byte of the block the
  byte's logical block maps to, or zero where there is none. A read returns these bytes
  (`post_filsysFileRead`); a write changes the ones it covers, all of them or, when it
  fails, the first of them (`Wrote`, `post_fileWriteLoop`).
-/

import Filsys.Engine.File
import Filsys.Tree.Map

namespace Filsys.Tree

open Filsys.Lib Filsys.Engine Filsys.Alloc

/-! ## Looking -/

/-- Some transfer fails. -/
def Fault (s : Mnt) : Prop := ∃ k, s.env.fails k = true

/-- Only transfers have been counted. -/
def Looked (s t : Mnt) : Prop := ∃ k, s.ios ≤ k ∧ t = { s with ios := k }

theorem looked_law : Law Looked where
  refl s := ⟨s.ios, Nat.le_refl _, rfl⟩
  trans := by
    intro a b c h hr
    obtain ⟨k, hk, rfl⟩ := h
    obtain ⟨k', hk', rfl⟩ := hr
    exact ⟨k', Nat.le_trans hk hk', rfl⟩

theorem looked_ticked (s : Mnt) : Looked s (ticked s) := ⟨s.ios + 1, Nat.le_succ _, rfl⟩

theorem Looked.idle {s t : Mnt} (h : Looked s t) : Idle s t := by
  obtain ⟨k, -, rfl⟩ := h
  exact ⟨⟨rfl, rfl, rfl⟩, rfl, rfl, rfl, id⟩

section Looked

variable {s t : Mnt} (h : Looked s t)

include h

theorem Looked.fs : t.fs = s.fs := by
  obtain ⟨k, -, rfl⟩ := h
  rfl

theorem Looked.img : t.img = s.img := by
  obtain ⟨k, -, rfl⟩ := h
  rfl

theorem Looked.fault (hf : Fault t) : Fault s := by
  obtain ⟨k, -, rfl⟩ := h
  exact hf

theorem Looked.owned {own : Own} (ho : Owned s own) : Owned t own := owned_idle ho h.idle

end Looked

/-- Where there is nothing to make, the way down is read. -/
theorem indFollow_read {own : Own} {n slot : Nat} (create : Bool) (idxs : List Nat) :
    ∀ {pre : List Nat} {b : Nat} {s : Mnt}, Owned s own →
    own b = some (n, slot :: pre) → idxs ≠ [] → pre.length + idxs.length ≤ cdepth s.fs.desc slot →
    (∀ i ∈ idxs, i < s.fs.desc.nindir) →
    (create = true → descend s.fs s.img b idxs ≠ 0) →
    Post (indFollow create idxs b s) (fun r t => r = descend s.fs s.img b idxs ∧ Looked s t)
    (fun _ t => Fault s ∧ Looked s t) := by
  induction idxs with
  | nil => intro pre b s _ _ hne; exact absurd rfl hne
  | cons i idxs ih =>
    intro pre b s h hb _ hlen hidx hmade
    have hm := h.mounted
    have hb0 : b ≠ 0 := by
      have := h.two_le hb
      omega
    have hdesc : descend s.fs s.img b (i :: idxs) = descend s.fs s.img (entryOf s.fs s.img b i) idxs :=
      if_neg hb0
    rw [hdesc] at hmade
    rw [List.length_cons] at hlen
    refine post_bindFs (post_bind (post_failAs ?_))
    rw [hm.readBlock_eq]
    refine hm.post_read ((h.data b _ hb).lt_fsize hm) (fun _ => ?_) fun hf _ => ⟨⟨_, hf⟩, looked_ticked s⟩
    show Post ((if entryOf s.fs s.img b i = 0 then _ else _ : M Nat) (ticked s)) _ _
    refine post_ite (fun hz => ?_) fun hnz => post_ite (fun hnil => ?_) fun hrest => ?_
    · rw [hz, descend_zero] at hmade
      refine post_ite (fun hc => absurd rfl (hmade hc)) fun _ => ⟨?_, looked_ticked s⟩
      rw [hdesc, hz, descend_zero]
    · refine ⟨?_, looked_ticked s⟩
      rw [hdesc, hnil]
      rfl
    · have hnext := h.tree b n slot pre hb (by omega) i (hidx i List.mem_cons_self) hnz
      refine (ih ((looked_ticked s).owned h) hnext hrest ?_
        (fun j hj => hidx j (List.mem_cons_of_mem _ hj)) hmade).mono ?_ ?_
      · rw [List.length_append, List.length_singleton]
        show _ ≤ cdepth s.fs.desc slot
        omega
      · intro r t hrun
        obtain ⟨hr, ht⟩ := hrun
        rw [hdesc]
        exact ⟨hr, looked_law.trans (looked_ticked s) ht⟩
      · intro e t hrun
        obtain ⟨hf, ht⟩ := hrun
        exact ⟨hf, looked_law.trans (looked_ticked s) ht⟩

section Reading

variable {s : Mnt} {own : Own} {n : Nat} {l : Loc} (h : Owned s own) (hv : View s.fs.desc own n l.ip)

include h hv

theorem filsysBmap_read {lbn : Nat} (hl : lbn < 2 ^ 32) (create : Bool)
    (hmade : create = true → mapOf s.fs s.img l.ip lbn ≠ 0) :
    Post (filsysBmap lbn create (s, l)) (fun r t => r = mapOf s.fs s.img l.ip lbn ∧ Looked s t.1 ∧ t.2 = l)
      (fun _ t => Fault s ∧ Looked s t.1 ∧ t.2 = l) := by
  rw [filsysBmap_eq]
  refine post_bind (post_onlyIf (fun hc => ?_) fun _ => ?_)
  · have hs : Small s.fs.desc l.ip.mode := ⟨hc.1, by simpa using hc.2.1⟩
    refine absurd ?_ (hmade hc.2.2.1)
    rw [mapOf_small h.layout hs, if_neg]
    have := (h.layout.promotes hs.1).2.1
    omega
  show Post (bmapSlot s.fs.desc lbn create l.ip (s, l)) _ _
  unfold bmapSlot
  cases hf : findSlot s.fs.desc l.ip.mode lbn s.fs.desc.niaddr 0 0 with
  | none =>
    have hp : pathOf s.fs.desc l.ip.mode lbn = none := by
      unfold pathOf
      rw [hf]
      rfl
    refine post_ite (fun hc => absurd (mapOf_none hp) (hmade hc)) fun _ => ?_
    exact ⟨(mapOf_none hp).symm, looked_law.refl s, rfl⟩
  | some q =>
    obtain ⟨slot, r⟩ := q
    dsimp only
    cases hlev : slotLevel s.fs.desc l.ip.mode slot with
    | none =>
      have hp : pathOf s.fs.desc l.ip.mode lbn = some (slot, []) := by
        unfold pathOf
        rw [hf, Option.map_some, hlev]
      refine post_ite (fun hc => absurd ?_ (hmade hc.2)) fun _ => ⟨(mapOf_eq hp).symm, looked_law.refl s, rfl⟩
      rw [mapOf_eq hp]
      exact hc.1
    | some level =>
      have hp : pathOf s.fs.desc l.ip.mode lbn = some (slot, levelIdx s.fs.desc.nindir level r) := by
        unfold pathOf
        rw [hf, Option.map_some, hlev]
      have hslot := pathOf_slot hl hp
      have hs : ¬ Small s.fs.desc l.ip.mode := by
        intro hs
        rw [depth_small (h.layout.promoting hs.1) hs hslot] at hlev
        cases hlev
      show Post ((if l.ip.addr slot = 0 then _ else _ : MI Nat) (s, l)) _ _
      refine post_ite (fun h0 => post_ite (fun hc => absurd ?_ (hmade hc)) fun _ => ?_) fun h0 => ?_
      · rw [mapOf_eq hp, h0, descend_zero]
      · refine ⟨?_, looked_law.refl s, rfl⟩
        rw [mapOf_eq hp, h0, descend_zero]
      · have hown := hv slot hslot h0
        rw [show croot s.fs.desc l.ip.mode slot = [slot] from if_neg hs] at hown
        refine post_outside ((indFollow_read create _ h hown ?_ ?_
          (pathOf_lt h.layout.nindir hp) ?_).mono ?_ ?_)
        · intro hnil
          have := levelIdx_length s.fs.desc.nindir level r
          rw [hnil] at this
          cases this
        · exact Nat.le_of_eq (by rw [List.length_nil, Nat.zero_add, pathOf_length hp, depth_large hs])
        · rw [← mapOf_eq hp]
          exact hmade
        · intro r' t hrun
          obtain ⟨hr, ht⟩ := hrun
          exact ⟨hr.trans (mapOf_eq hp).symm, ht, rfl⟩
        · intro e t hrun
          obtain ⟨hfl, ht⟩ := hrun
          exact ⟨hfl, ht, rfl⟩

end Reading

/-- A block that is there is found, unless a transfer fails. -/
theorem post_sure {s : Mnt} {own : Own} {n lbn : Nat} {l : Loc} (h : Owned s own)
    (hv : View s.fs.desc own n l.ip) (hl : lbn < 2 ^ 32) :
    Post (filsysBmap lbn true (s, l)) (fun _ _ => True) (fun _ _ => Fault s ∨
      mapOf s.fs s.img l.ip lbn = 0) := by
  by_cases hz : mapOf s.fs s.img l.ip lbn = 0
  · exact (post_true _).mono (fun _ _ _ => trivial) fun _ _ _ => .inr hz
  · exact (filsysBmap_read h hv hl true fun _ => hz).mono (fun _ _ _ => trivial) fun _ _ he => .inl he.1

/-! ## Bytes -/

/-- Byte `o` of the file `ip` describes; a hole reads zero. -/
def byteOf (fs : Fs) (img : Buf) (ip : Inode) (o : Nat) : UInt8 :=
  if mapOf fs img ip (o / fs.desc.bsize) = 0 then 0
  else blockOf fs img (mapOf fs img ip (o / fs.desc.bsize)) (o % fs.desc.bsize)

/-- A byte the block map can speak of. -/
def Mappable (fs : Fs) (o : Nat) : Prop := o / fs.desc.bsize < 2 ^ 32

theorem Mappable.of_le {fs : Fs} {o o' : Nat} (h : Mappable fs o) (hle : o' ≤ o) : Mappable fs o' :=
  Nat.lt_of_le_of_lt (Nat.div_le_div_right hle) h

theorem looked_byteOf {s t : Mnt} (h : Looked s t) (ip : Inode) (o : Nat) :
    byteOf t.fs t.img ip o = byteOf s.fs s.img ip o := by
  rw [h.fs, h.img]

/-- Bytes of one block lie side by side. -/
theorem byteOf_add {fs : Fs} {img : Buf} {ip : Inode} {o k : Nat} (hk : o % fs.desc.bsize + k < fs.desc.bsize) :
    byteOf fs img ip (o + k) = if mapOf fs img ip (o / fs.desc.bsize) = 0 then 0
      else blockOf fs img (mapOf fs img ip (o / fs.desc.bsize)) (o % fs.desc.bsize + k) := by
  have hpos : 0 < fs.desc.bsize := by omega
  have heq : o + k = fs.desc.bsize * (o / fs.desc.bsize) + (o % fs.desc.bsize + k) := by
    have := Nat.div_add_mod o fs.desc.bsize
    omega
  have hdiv : (o + k) / fs.desc.bsize = o / fs.desc.bsize := by
    rw [heq, Nat.mul_add_div hpos, Nat.div_eq_of_lt hk, Nat.add_zero]
  have hmod : (o + k) % fs.desc.bsize = o % fs.desc.bsize + k := by
    rw [heq, Nat.mul_add_mod, Nat.mod_eq_of_lt hk]
  unfold byteOf
  rw [hdiv, hmod]

/-! ## Reads -/

section Reads

variable {own : Own} {n : Nat} {l : Loc}

theorem blkOrHole_read {s : Mnt} (h : Owned s own) {b : Nat} (hb : b ≠ 0 → ∃ x, own b = some x) :
    Post (blkOrHole b s) (fun r t => r = (if b = 0 then zeroBuf else blockOf s.fs s.img b) ∧ Looked s t)
    (fun _ t => Fault s ∧ Looked s t) := by
  refine post_ite (fun h0 => ⟨(if_pos h0).symm, looked_law.refl s⟩) fun h0 => post_failAs ?_
  obtain ⟨x, hx⟩ := hb h0
  rw [h.mounted.blkGet_eq]
  refine h.mounted.post_read ((h.data b x hx).lt_fsize h.mounted)
    (fun _ => ⟨(if_neg h0).symm, looked_ticked s⟩) fun hf _ => ?_
  exact ⟨⟨_, hf⟩, looked_ticked s⟩

theorem post_fileReadLoop (size off : Nat) (fuel : Nat) : ∀ {s : Mnt} (done : Nat) (buf : Buf),
    Owned s own → View s.fs.desc own n l.ip →
    size - done ≤ fuel → Mappable s.fs (off + size) →
    Post (fileReadLoop size off fuel done buf (s, l))
      (fun r t => (∀ i, r i = if done ≤ i ∧ i < size then byteOf s.fs s.img l.ip (off + i) else buf i) ∧
        Looked s t.1 ∧ t.2 = l)
      (fun _ t => Fault s ∧ Looked s t.1 ∧ t.2 = l) := by
  induction fuel with
  | zero =>
    intro s done buf h hv hfuel hmap
    refine ⟨fun i => ?_, looked_law.refl s, rfl⟩
    rw [if_neg (by omega)]
  | succ fuel ih =>
    intro s done buf h hv hfuel hmap
    show Post ((if size ≤ done then pure buf else _ : MI Buf) (s, l)) _ _
    apply post_ite
    · intro hdone
      refine ⟨fun i => ?_, looked_law.refl s, rfl⟩
      rw [if_neg (by omega)]
    · intro hdone
      have hbs : 0 < s.fs.desc.bsize := Nat.lt_of_lt_of_le (by decide) h.mounted.bsize
      have hlbn : (off + done) / s.fs.desc.bsize < 2 ^ 32 := hmap.of_le (by omega)
      have hboff : (off + done) % s.fs.desc.bsize < s.fs.desc.bsize := Nat.mod_lt _ hbs
      show Post ((failAs .eio (filsysBmap ((off + done) / s.fs.desc.bsize % 2 ^ 32) false) >>=
        fun pbn => _ : MI Buf) (s, l)) _ _
      rw [Nat.mod_eq_of_lt hlbn]
      refine post_bind (post_failAs ((filsysBmap_read h hv hlbn false fun hc => nomatch hc).mono ?_ ?_))
      · intro pbn p hrun
        obtain ⟨t, l'⟩ := p
        obtain ⟨hpbn, ht, rfl⟩ := hrun
        have hot := ht.owned h
        have hheld : pbn ≠ 0 → ∃ x, own pbn = some x := by
          intro h0
          rw [hpbn] at h0 ⊢
          obtain ⟨slot, idxs, -, hown⟩ := mapOf_held h hv hlbn h0
          exact ⟨_, hown⟩
        refine post_bind (post_outside ((blkOrHole_read hot hheld).mono ?_ ?_))
        · intro blk u hrun
          obtain ⟨hblk, hu⟩ := hrun
          have hsu := looked_law.trans ht hu
          show Post (fileReadLoop size off fuel
            (done + min (s.fs.desc.bsize - (off + done) % s.fs.desc.bsize) (size - done))
            (splice buf done blk ((off + done) % s.fs.desc.bsize)
              (min (s.fs.desc.bsize - (off + done) % s.fs.desc.bsize) (size - done))) (u, l')) _ _
          generalize hm : min (s.fs.desc.bsize - (off + done) % s.fs.desc.bsize) (size - done) = m
          refine (ih (done + m) _ (hu.owned hot) ?_ (by omega) ?_).mono ?_ ?_
          · rw [hsu.fs]
            exact hv
          · rw [hsu.fs]
            exact hmap
          · intro r v hrun
            obtain ⟨hr, hv', hl'⟩ := hrun
            refine ⟨fun i => ?_, looked_law.trans hsu hv', hl'⟩
            rw [hr i, looked_byteOf hsu]
            by_cases h1 : done + m ≤ i ∧ i < size
            · rw [if_pos h1, if_pos (by omega)]
            · rw [if_neg h1]
              by_cases h2 : done ≤ i ∧ i < done + m
              · obtain ⟨k, rfl⟩ := Nat.exists_eq_add_of_le h2.1
                rw [splice_inside (by omega), if_pos (by omega), ← Nat.add_assoc, byteOf_add (by omega),
                  hblk, ht.fs, ht.img, hpbn]
                split
                · rfl
                · rfl
              · rw [splice_outside (by omega), if_neg (by omega)]
          · intro e v hrun
            obtain ⟨hf, hv', hl'⟩ := hrun
            exact ⟨hsu.fault hf, looked_law.trans hsu hv', hl'⟩
        · intro e u hrun
          obtain ⟨hf, hu⟩ := hrun
          exact ⟨ht.fault hf, looked_law.trans ht hu, rfl⟩
      · intro e t hrun
        obtain ⟨hf, ht, rfl⟩ := hrun
        exact ⟨hf, ht, rfl⟩

/-- A read returns the bytes there are, as many as were asked for. -/
theorem post_filsysFileRead {s : Mnt} (h : Owned s own) (hv : View s.fs.desc own n l.ip)
    (hmap : Mappable s.fs l.ip.size) (size off : Nat) :
    Post (filsysFileRead size off (s, l))
      (fun r t => r.1 = min size (l.ip.size - off) ∧
        (∀ i, i < r.1 → r.2 i = byteOf s.fs s.img l.ip (off + i)) ∧ Looked s t.1 ∧ t.2 = l)
      (fun _ t => Fault s ∧ Looked s t.1 ∧ t.2 = l) := by
  show Post ((if (off : Int) < 0 then throw .einval else if (l.ip.size : Int) ≤
    off then pure (0, zeroBuf) else _ : MI (Nat × Buf)) (s, l)) _ _
  refine post_ite (fun hneg => absurd hneg (by omega)) fun _ => post_ite (fun hend => ?_) fun hend => ?_
  · refine ⟨?_, fun i hi => absurd hi (Nat.not_lt_zero i), looked_law.refl s, rfl⟩
    show 0 = _
    omega
  · show Post ((fileReadLoop (min size (l.ip.size - off)) off (min size (l.ip.size - off)) 0 zeroBuf >>=
      fun buf =>
      pure (min size (l.ip.size - off), buf) : MI (Nat × Buf)) (s, l)) _ _
    refine post_bind ((post_fileReadLoop _ off _ 0 zeroBuf h hv (by omega) (hmap.of_le (by omega))).mono
      ?_ fun _ _ he => he)
    intro buf t hr
    obtain ⟨hbuf, ht⟩ := hr
    refine ⟨rfl, fun i hi => ?_, ht⟩
    show buf i = _
    rw [hbuf i, if_pos ⟨Nat.zero_le _, hi⟩]

end Reads

/-! ## Writes -/

section Bytes

variable {S : Scope} {n : Nat} {s t : Mnt} {own own' : Own} {ip ip' : Inode} (h : Owned s own)
    (hv : View s.fs.desc own n ip)

include h hv

/-- Asking for a block changes no byte. -/
theorem Mapped.byteOf {lbn : Nat} (hm : Mapped S n lbn s own ip t own' ip')
    {o : Nat} (ho : Mappable s.fs o) :
    byteOf t.fs t.img ip' o = byteOf s.fs s.img ip o := by
  have hd := shape_desc hm.frame.shape
  have hleaf : ∀ b, mapOf s.fs s.img ip (o / s.fs.desc.bsize) = b → b ≠ 0 →
    blockOf s.fs t.img b = blockOf s.fs s.img b := by
    rintro b rfl hb
    obtain ⟨slot, idxs, hown, hlen⟩ := mapOf_leaf h hv ho hb
    exact hm.frame.same _ _ _ hown fun _ => not_inner_leaf hlen
  have hsame : mapOf t.fs t.img ip' (o / s.fs.desc.bsize) = mapOf s.fs s.img ip (o / s.fs.desc.bsize) →
      Tree.byteOf t.fs t.img ip' o = Tree.byteOf s.fs s.img ip o := by
    intro heq
    unfold Tree.byteOf
    rw [hd, heq, shape_blockOf hm.frame.shape]
    split
    · rfl
    · rw [hleaf _ rfl (by assumption)]
  by_cases hlbn : o / s.fs.desc.bsize = lbn
  · rcases hm.here with heq | ⟨hz, hzero⟩
    · exact hsame (by rw [hlbn]; exact heq)
    · have hold : Tree.byteOf s.fs s.img ip o = 0 := if_pos (by rw [hlbn]; exact hz)
      rw [hold]
      unfold Tree.byteOf
      rw [hd, hlbn]
      split
      · rfl
      · rw [shape_blockOf hm.frame.shape, hzero (by assumption)]
        rfl
  · exact hsame (hm.other _ ho hlbn)

omit hv in
theorem frame_putLeaf {b slot : Nat} {idxs : List Nat} (hown : own b = some (n, slot :: idxs))
    (hlen : idxs.length = cdepth s.fs.desc slot)
    (buf : Buf) : Frame n (fun p => ¬ Inner s.fs.desc p) s own (putAt .block b buf s) own := by
  refine ⟨putAt_sameVol .., fun _ _ hx => hx, fun x _ hlt => blockOf_putBlock_ne ?_ _ _,
    fun x k p hx hA => blockOf_putBlock_ne ?_ _ _⟩
  · have := (h.data b _ hown).1
    omega
  · rintro rfl
    rw [hown] at hx
    obtain ⟨rfl, rfl⟩ := Prod.mk.inj (Option.some.inj hx)
    exact hA rfl (not_inner_leaf hlen)

/-- Data written into a block of the file moves no block. -/
theorem mapOf_putLeaf {b slot : Nat} {idxs : List Nat} (hown : own b = some (n, slot :: idxs))
    (hlen : idxs.length = cdepth s.fs.desc slot)
    (buf : Buf) {x : Nat} (hx : x < 2 ^ 32) : mapOf s.fs (putAt .block b buf s).img ip x =
    mapOf s.fs s.img ip x := by
  refine (frame_putLeaf h hown hlen buf).mapOf h hv hx fun _ sl ids hp j hj hA => hA ?_
  have hlen' := pathOf_length hp
  by_cases hs : Small s.fs.desc ip.mode
  · rw [depth, depth_small (h.layout.promoting hs.1) hs (pathOf_slot hx hp)] at hlen'
    rw [List.eq_nil_of_length_eq_zero hlen'] at hj
    exact absurd hj (Nat.not_lt_zero j)
  · refine ⟨sl, _, rfl, ?_⟩
    rw [List.length_take, ← depth_large hs, ← hlen']
    omega

/-- The bytes of a block of the file are written, `m` of them from `boff`. -/
theorem byteOf_putAt {lbn b boff m done : Nat} (hl : lbn < 2 ^ 32) (hb : mapOf s.fs s.img ip lbn = b)
    (h0 : b ≠ 0) (buf : Buf) {o : Nat} (ho : Mappable s.fs o) :
    byteOf s.fs (putAt .block b (splice (blockOf s.fs s.img b) boff buf done m) s).img ip o =
      if o / s.fs.desc.bsize = lbn ∧ boff ≤ o % s.fs.desc.bsize ∧ o % s.fs.desc.bsize < boff + m then
      buf (done + (o % s.fs.desc.bsize - boff))
      else byteOf s.fs s.img ip o := by
  have hbs : 0 < s.fs.desc.bsize := Nat.lt_of_lt_of_le (by decide) h.mounted.bsize
  have hmod : o % s.fs.desc.bsize < s.fs.desc.bsize := Nat.mod_lt _ hbs
  obtain ⟨slot, idxs, hown, hlen⟩ := mapOf_leaf h hv hl (by rw [hb]; exact h0)
  rw [hb] at hown
  generalize hu : putAt .block b (splice (blockOf s.fs s.img b) boff buf done m) s = u
  have hblk : ∀ x, blockOf s.fs u.img x = if x = b then
    window (splice (blockOf s.fs s.img b) boff buf done m) 0 s.fs.desc.bsize
      else blockOf s.fs s.img x := by
    intro x
    rw [← hu]
    split
    · rename_i hx
      rw [hx]
      exact blockOf_putBlock _ _ _ _
    · exact blockOf_putBlock_ne (by assumption) _ _
  have hmap : ∀ x, x < 2 ^ 32 → mapOf s.fs u.img ip x = mapOf s.fs s.img ip x := by
    intro x hx
    rw [← hu]
    exact mapOf_putLeaf h hv hown hlen _ hx
  have hother : o / s.fs.desc.bsize ≠ lbn → byteOf s.fs u.img ip o = byteOf s.fs s.img ip o := by
    intro hne
    unfold byteOf
    rw [hmap _ ho]
    split
    · rfl
    · rw [hblk, if_neg]
      intro heq
      exact hne (mapOf_inj h hv hl ho (by rw [hb]; exact h0) (heq.trans hb.symm))
  by_cases hlbn : o / s.fs.desc.bsize = lbn
  · have hnew : byteOf s.fs u.img ip o =
      splice (blockOf s.fs s.img b) boff buf done m (o % s.fs.desc.bsize) := by
      unfold byteOf
      rw [hlbn, hmap _ hl, hb, if_neg h0, hblk, if_pos rfl, window_inside hmod, Nat.zero_add]
    rw [hnew]
    unfold splice
    by_cases hin : boff ≤ o % s.fs.desc.bsize ∧ o % s.fs.desc.bsize < boff + m
    · rw [if_pos hin, if_pos ⟨hlbn, hin⟩]
    · rw [if_neg hin, if_neg fun hc => hin hc.2]
      unfold byteOf
      rw [hlbn, hb, if_neg h0]
  · rw [hother hlbn, if_neg fun hc => hlbn hc.1]

end Bytes

/-- The bytes `lo`..`mid` of `n`'s file are those of `buf`, the others as they were; blocks have been
    made for `lo`..`hi` at most. -/
structure Wrote (S : Scope) (n : Nat) (buf : Buf) (lo mid hi : Nat) (s : Mnt) (own : Own) (ip : Inode)
    (t : Mnt) (own' : Own) (ip' : Inode) :
    Prop where
  path : Path S s own t own'
  frame : Frame n (fun _ => True) s own t own'
  view : View s.fs.desc own' n ip'
  copy : SameCopy s.fs.desc ip ip'
  bytes : ∀ o, Mappable s.fs o → byteOf t.fs t.img ip' o = if lo ≤ o ∧ o < mid then buf (o - lo)
    else byteOf s.fs s.img ip o
  maps : ∀ x, x < 2 ^ 32 → mapOf s.fs s.img ip x ≠ 0 → mapOf t.fs t.img ip' x = mapOf s.fs s.img ip x
  outside : ∀ x, x < 2 ^ 32 → (x < lo / s.fs.desc.bsize ∨ hi ≤ x * s.fs.desc.bsize) →
    mapOf t.fs t.img ip' x = mapOf s.fs s.img ip x
  made : ∀ x, x < 2 ^ 32 → lo < mid → lo / s.fs.desc.bsize ≤ x → x * s.fs.desc.bsize < mid →
    mapOf t.fs t.img ip' x ≠ 0

section Wrote

variable {S : Scope} {n : Nat} {buf : Buf} {lo mid hi : Nat} {s t u : Mnt} {own own' own'' : Own}
    {ip ip' ip'' : Inode} (h : Owned s own)

theorem Wrote.refl (hv : View s.fs.desc own n ip) : Wrote S n buf lo lo hi s own ip s own ip where
  path := .refl
  frame := .refl _ _ _ _
  view := hv
  copy := .refl _ _
  bytes o _ := by rw [if_neg (by omega)]
  maps _ _ _ := rfl
  outside _ _ _ := rfl
  made _ _ hlt := absurd hlt (Nat.lt_irrefl lo)

theorem Wrote.looked (hw : Wrote S n buf lo mid hi s own ip t own' ip') (hu : Looked t u) :
    Wrote S n buf lo mid hi s own ip u own' ip' := by
  refine ⟨hw.path.snoc (.idle hu.idle), hw.frame.trans (.of_idle hu.idle n _), hw.view, hw.copy, ?_, ?_, ?_, ?_⟩
  · rw [hu.fs, hu.img]
    exact hw.bytes
  · rw [hu.fs, hu.img]
    exact hw.maps
  · rw [hu.fs, hu.img]
    exact hw.outside
  · rw [hu.fs, hu.img]
    exact hw.made

include h

/-- A block asked for on the way. -/
theorem Wrote.asked (hw : Wrote S n buf lo mid hi s own ip t own' ip') {lbn : Nat} (hl : lbn < 2 ^ 32)
    (hlo : lo / s.fs.desc.bsize ≤ lbn)
    (hhi : lbn * s.fs.desc.bsize < hi) (hm : Mapped S n lbn t own' ip' u own'' ip'') :
    Wrote S n buf lo mid hi s own ip u own'' ip'' := by
  have hd := shape_desc hw.frame.shape
  have hot := hw.path.owned h
  have hvt : View t.fs.desc own' n ip' := by
    rw [hd]
    exact hw.view
  refine ⟨hw.path.trans hm.path, hw.frame.trans (hm.frame.mono fun _ _ => trivial), hd ▸ hm.view,
    hw.copy.trans (hd ▸ hm.copy), fun o ho => ?_,
    fun x hx hne => ?_, fun x hx hout => ?_, fun x hx hlt hlox hxm => ?_⟩
  · rw [hm.byteOf hot hvt (show o / t.fs.desc.bsize < 2 ^ 32 by rw [hd]; exact ho)]
    exact hw.bytes o ho
  · have hsame := hw.maps x hx hne
    by_cases hxl : x = lbn
    · subst hxl
      rcases hm.here with heq | ⟨hz, -⟩
      · exact heq.trans hsame
      · exact absurd (hsame.symm.trans hz) hne
    · exact (hm.other x hx hxl).trans hsame
  · refine (hm.other x hx ?_).trans (hw.outside x hx hout)
    rintro rfl
    omega
  · have hwas := hw.made x hx hlt hlox hxm
    by_cases hxl : x = lbn
    · subst hxl
      rcases hm.here with heq | ⟨hz, -⟩
      · rw [heq]
        exact hwas
      · exact absurd hz hwas
    · rw [hm.other x hx hxl]
      exact hwas

/-- The next bytes, up to the end of their block at most. -/
theorem Wrote.put (hw : Wrote S n buf lo mid hi s own ip t own' ip') (hS : S.touch n) (hmid : lo ≤ mid)
    {b m : Nat} (hl : Mappable s.fs mid)
    (hb : mapOf t.fs t.img ip' (mid / s.fs.desc.bsize) = b) (h0 : b ≠ 0)
    (hm : mid % s.fs.desc.bsize + m ≤ s.fs.desc.bsize) :
    Wrote S n buf lo (mid + m) hi s own ip
      (putAt .block b (splice (blockOf t.fs t.img b) (mid % s.fs.desc.bsize) buf (mid - lo) m) t) own' ip' := by
  have hd := shape_desc hw.frame.shape
  have hot := hw.path.owned h
  have hvt : View t.fs.desc own' n ip' := by
    rw [hd]
    exact hw.view
  have hbs : 0 < s.fs.desc.bsize := Nat.lt_of_lt_of_le (by decide) h.mounted.bsize
  obtain ⟨slot, idxs, hown, hlen⟩ := mapOf_leaf hot hvt hl (by rw [hb]; exact h0)
  rw [hb] at hown
  have hmap : ∀ x, x < 2 ^ 32 →
    mapOf t.fs (putAt .block b (splice (blockOf t.fs t.img b) (mid % s.fs.desc.bsize) buf (mid - lo) m)
    t).img ip' x =
      mapOf t.fs t.img ip' x := fun x hx => mapOf_putLeaf hot hvt hown hlen _ hx
  refine ⟨hw.path.snoc (.data _ hS hown hlen), hw.frame.trans ((frame_putLeaf hot hown hlen _).mono
    fun _ _ => trivial), hw.view, hw.copy,
    fun o ho => ?_, fun x hx hne => (hmap x hx).trans (hw.maps x hx hne), fun x hx hout =>
    (hmap x hx).trans (hw.outside x hx hout),
    fun x hx hlt hlox hxm => ?_⟩
  rotate_left
  · show mapOf t.fs (putAt .block b _ t).img ip' x ≠ 0
    rw [hmap x hx]
    by_cases hxl : x = mid / s.fs.desc.bsize
    · rw [hxl, hb]
      exact h0
    · have hmd := Nat.div_add_mod mid s.fs.desc.bsize
      have hle : x < mid / s.fs.desc.bsize := by
        by_contra hge
        have := Nat.mul_le_mul_left s.fs.desc.bsize (show mid / s.fs.desc.bsize + 1 ≤ x by omega)
        rw [Nat.mul_succ, Nat.mul_comm _ x] at this
        omega
      have hmul := Nat.mul_le_mul_left s.fs.desc.bsize (show x + 1 ≤ mid / s.fs.desc.bsize from hle)
      rw [Nat.mul_succ, Nat.mul_comm _ x] at hmul
      have hlo := Nat.div_add_mod lo s.fs.desc.bsize
      have hmodlo := Nat.mod_lt lo hbs
      have hlox' := Nat.mul_le_mul_left s.fs.desc.bsize hlox
      rw [Nat.mul_comm _ x] at hlox'
      exact hw.made x hx (by omega) hlox (by omega)
  have hput := @byteOf_putAt n t own' ip' hot hvt _ b (mid % s.fs.desc.bsize) m (mid - lo) hl hb h0 buf o
    (show o / t.fs.desc.bsize < 2 ^ 32 by rw [hd]; exact ho)
  rw [hd, hw.bytes o ho] at hput
  apply hput.trans
  have hdm := Nat.div_add_mod o s.fs.desc.bsize
  have hdm' := Nat.div_add_mod mid s.fs.desc.bsize
  have hmod := Nat.mod_lt o hbs
  have hmod' := Nat.mod_lt mid hbs
  by_cases hin : o / s.fs.desc.bsize = mid / s.fs.desc.bsize ∧ mid % s.fs.desc.bsize ≤ o % s.fs.desc.bsize ∧
      o % s.fs.desc.bsize < mid % s.fs.desc.bsize + m
  · obtain ⟨h1, h2, h3⟩ := hin
    rw [h1] at hdm
    rw [if_pos ⟨h1, h2, h3⟩, if_pos (by omega)]
    congr 1
    omega
  · rw [if_neg hin]
    by_cases hlow : lo ≤ o ∧ o < mid
    · rw [if_pos hlow, if_pos (by omega)]
    · rw [if_neg hlow, if_neg]
      intro hc
      -- a byte between `mid` and `mid + m` is one of the block's
      obtain ⟨k, hk⟩ := Nat.exists_eq_add_of_le (show mid ≤ o by omega)
      have hlt : mid % s.fs.desc.bsize + k < s.fs.desc.bsize := by omega
      have hdiv : o / s.fs.desc.bsize = mid / s.fs.desc.bsize := by
        rw [show o = s.fs.desc.bsize * (mid / s.fs.desc.bsize) + (mid % s.fs.desc.bsize + k) by omega,
          Nat.mul_add_div hbs,
          Nat.div_eq_of_lt hlt, Nat.add_zero]
      rw [hdiv] at hdm
      exact hin ⟨hdiv, by omega, by omega⟩

end Wrote

/-- Some block of the bytes `lo`..`hi` is missing. -/
def Holed (s : Mnt) (ip : Inode) (lo hi : Nat) : Prop :=
  ∃ x, lo / s.fs.desc.bsize ≤ x ∧ x * s.fs.desc.bsize < hi ∧ mapOf s.fs s.img ip x = 0

section WriteLoop

variable {S : Scope} {n : Nat} (hS : S.touch n) (buf : Buf) (size off : Nat)

include hS

/-- The write loop: all the bytes, or the first of them where it fails. -/
theorem post_fileWriteLoop {s : Mnt} {own : Own} {ip : Inode} {bl : List Nat} (h : Owned s own)
    (hmap : Mappable s.fs (off + size))
    (hlink : ∀ x, off / s.fs.desc.bsize ≤ x → x * s.fs.desc.bsize < off + size →
      mapOf s.fs s.img ip x ≠ 0 ∨ MayLink S s.fs.desc n x)
    (fuel : Nat) : ∀ (done : Nat) {t : Mnt} {own' : Own} {ip' : Inode}, size - done ≤ fuel → done ≤ size →
      Wrote S n buf off (off + done) (off + size) s own ip t own' ip' →
      Post (fileWriteLoop buf size off fuel done (t, ⟨ip', bl⟩))
        (fun _ u => ∃ own'', Wrote S n buf off (off + size) (off + size) s own ip u.1 own'' u.2.ip ∧
          u.2.bl = bl)
        (fun _ u => (∃ own'' m, m ≤ size ∧
          Wrote S n buf off (off + m) (off + size) s own ip u.1 own'' u.2.ip ∧ u.2.bl = bl) ∧
          (Fault s ∨ Holed s ip off (off + size))) := by
  induction fuel with
  | zero =>
    intro done t own' ip' hfuel hle hw
    refine ⟨own', ?_, rfl⟩
    rw [show off + size = off + done by omega] at hw ⊢
    exact hw
  | succ fuel ih =>
    intro done t own' ip' hfuel hle hw
    have hot := hw.path.owned h
    have hd := shape_desc hw.frame.shape
    have hbs : 0 < s.fs.desc.bsize := Nat.lt_of_lt_of_le (by decide) h.mounted.bsize
    show Post ((if size ≤ done then pure () else _ : MI Unit) (t, ⟨ip', bl⟩)) _ _
    apply post_ite
    · intro hdone
      refine ⟨own', ?_, rfl⟩
      rw [show off + done = off + size by omega] at hw
      exact hw
    · intro hdone
      have hl : Mappable s.fs (off + done) := hmap.of_le (by omega)
      have hboff : (off + done) % s.fs.desc.bsize < s.fs.desc.bsize := Nat.mod_lt _ hbs
      have hlo : off / s.fs.desc.bsize ≤ (off + done) / s.fs.desc.bsize :=
        Nat.div_le_div_right (Nat.le_add_right _ _)
      have hhi : (off + done) / s.fs.desc.bsize * s.fs.desc.bsize < off + size := by
        have := Nat.div_mul_le_self (off + done) s.fs.desc.bsize
        omega
      have hvt : View t.fs.desc own' n ip' := by
        rw [hd]
        exact hw.view
      show Post ((filsysBmap ((off + done) / t.fs.desc.bsize % 2 ^ 32) true >>= fun pbn => _ : MI Unit)
        (t, ⟨ip', bl⟩)) _ _
      rw [hd, Nat.mod_eq_of_lt hl]
      have henv : t.env = s.env := hw.frame.env
      have hfault : Fault t → Fault s := fun ⟨k, hk⟩ => ⟨k, henv ▸ hk⟩
      refine post_bind (((post_filsysBmap hS true hl hot hvt ?_).and (post_sure hot hvt hl)).mono ?_ ?_)
      · intro _
        refine (hlink _ hlo hhi).imp (fun hne => ?_) fun hm => by rw [hd]; exact hm
        show mapOf t.fs t.img ip' _ ≠ 0
        rw [hw.maps _ hl hne]
        exact hne
      · intro pbn r hr
        obtain ⟨u, ip₁, bl₁⟩ := r
        obtain ⟨⟨own₁, hask, hpbn, hmade⟩, -⟩ := hr
        obtain rfl : bl₁ = bl := hask.bl
        have hw1 := hw.asked h hl hlo hhi hask.toMapped
        have hou := hask.owned hot
        have hfail : ∀ {v : Mnt} {k : Nat}, Looked u v → u.env.fails k = true →
            (∃ own'' m, m ≤ size ∧ Wrote S n buf off (off + m) (off + size) s own ip v own'' ip₁ ∧ bl₁ = bl₁) ∧
              (Fault s ∨ Holed s ip off (off + size)) := by
          intro v k hv hk
          refine ⟨⟨own₁, done, hle, hw1.looked hv, rfl⟩, .inl ⟨k, ?_⟩⟩
          rwa [hw1.frame.env] at hk
        refine post_ite (fun h0 => absurd h0 (hmade rfl)) fun h0 => ?_
        have hdu : u.fs.desc = s.fs.desc := shape_desc hw1.frame.shape
        obtain ⟨slot, idxs, hown, hlen⟩ :=
          mapOf_leaf hou (by rw [hdu]; exact hw1.view) hl (by rw [hpbn]; exact h0)
        rw [hpbn] at hown
        have hlt := (hou.data _ _ hown).lt_fsize hou.mounted
        refine post_bind (post_outside (post_failAs ?_))
        show Post (blkGet pbn u) _ _
        rw [hou.mounted.blkGet_eq]
        refine hou.mounted.post_read hlt (fun _ => ?_) fun hf _ => hfail (looked_ticked u) hf
        have hou1 := (looked_ticked u).owned hou
        refine post_bind (post_outside (post_failAs ?_))
        show Post (blkPut pbn (splice (blockOf u.fs u.img pbn) ((off + done) % s.fs.desc.bsize) buf done
          (min (s.fs.desc.bsize - (off + done) % s.fs.desc.bsize) (size - done))) (ticked u)) _ _
        rw [hou1.mounted.blkPut_eq]
        generalize hmm : min (s.fs.desc.bsize - (off + done) % s.fs.desc.bsize) (size - done) = m
        refine hou1.mounted.post_write hlt (fun _ => ?_) fun hf _ =>
          hfail (looked_law.trans (looked_ticked u) (looked_ticked _)) hf
        have hw2 := hw1.looked (looked_ticked u)
        have hw3 := hw2.put h hS (Nat.le_add_right _ _) hl hpbn h0
          (show (off + done) % s.fs.desc.bsize + m ≤ s.fs.desc.bsize by omega)
        rw [Nat.add_sub_cancel_left, Nat.add_assoc] at hw3
        exact ih (done + m) (by omega) (by omega) hw3
      · intro e r hr
        obtain ⟨u, l⟩ := r
        obtain ⟨⟨own₁, hask⟩, hwhy⟩ := hr
        refine ⟨⟨own₁, done, hle, hw.asked h hl hlo hhi hask.toMapped, hask.bl⟩, ?_⟩
        rcases hwhy with hf | hz
        · exact .inl (hfault hf)
        · refine .inr ⟨_, hlo, hhi, ?_⟩
          by_contra hne
          exact hne ((hw.maps _ hl hne).symm.trans hz)

end WriteLoop

end Filsys.Tree
