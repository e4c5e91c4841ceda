/-
  Filsys.Tree.Write — a file's bytes and its record go out (v7fs.c).

  `filsysFileWrite` writes the blocks, then the inode. When it returns, the record on disk
  describes the file it has written (`Filed`); when it fails, the record is the old one and
  the copy in core describes the file as far as it got (`Unfiled`). Either way what belongs
  to other inodes stays as it was (`Apart`).
-/

import Filsys.Tree.File

namespace Filsys.Tree

open Filsys.Lib Filsys.Engine Filsys.Alloc

/-! ## Other inodes -/

/-- The blocks held for inode `k` are as they were. -/
structure Still (k : Nat) (s : Mnt) (own : Own) (t : Mnt) : Prop extends SameVol s t where
  same : ∀ b p, own b = some (k, p) → blockOf s.fs t.img b = blockOf s.fs s.img b

namespace Still

variable {k : Nat} {s t : Mnt} {own : Own} (h : Still k s own t) (ho : Owned s own)

include h ho

theorem descend {slot : Nat} {pre idxs : List Nat} {b : Nat} (hb : own b = some (k, slot :: pre))
    (hlen : pre.length + idxs.length ≤ cdepth s.fs.desc slot) (hidx : ∀ i ∈ idxs, i < s.fs.desc.nindir) :
    Engine.descend t.fs t.img b idxs = Engine.descend s.fs s.img b idxs := by
  induction idxs generalizing pre b with
  | nil => rfl
  | cons i idxs ih =>
    rw [List.length_cons] at hlen
    have hsame : entryOf t.fs t.img b i = entryOf s.fs s.img b i := by
      rw [shape_entryOf h.shape]
      exact entryOf_congr (h.same b _ hb) i
    unfold Engine.descend
    rw [hsame]
    split
    · rfl
    · by_cases he : entryOf s.fs s.img b i = 0
      · rw [he, descend_zero, descend_zero]
      · have hnext := ho.tree b k slot pre hb (by omega) i (hidx i List.mem_cons_self) he
        refine ih hnext ?_ fun j hj => hidx j (List.mem_cons_of_mem _ hj)
        rw [List.length_append, List.length_singleton]
        omega

variable {ip : Inode} (hv : View s.fs.desc own k ip)

include hv

theorem mapOf {lbn : Nat} (hl : lbn < 2 ^ 32) : mapOf t.fs t.img ip lbn = mapOf s.fs s.img ip lbn := by
  have hd := shape_desc h.shape
  cases hp : pathOf s.fs.desc ip.mode lbn with
  | none => rw [mapOf_none hp, mapOf_none (by rw [hd]; exact hp)]
  | some p =>
    obtain ⟨slot, idxs⟩ := p
    rw [mapOf_eq hp, mapOf_eq (by rw [hd]; exact hp)]
    by_cases h0 : ip.addr slot = 0
    · rw [h0, descend_zero, descend_zero]
    · have hslot := pathOf_slot hl hp
      have hlen := pathOf_length hp
      have hown := hv slot hslot h0
      by_cases hs : Small s.fs.desc ip.mode
      · rw [depth, depth_small (ho.layout.promoting hs.1) hs hslot] at hlen
        rw [List.eq_nil_of_length_eq_zero hlen]
        rfl
      · rw [show croot s.fs.desc ip.mode slot = [slot] from if_neg hs] at hown
        refine h.descend ho hown ?_ (pathOf_lt ho.layout.nindir hp)
        exact Nat.le_of_eq (by rw [List.length_nil, Nat.zero_add, hlen, depth_large hs])

theorem byteOf {o : Nat} (hmap : Mappable s.fs o) : byteOf t.fs t.img ip o = byteOf s.fs s.img ip o := by
  unfold Tree.byteOf
  rw [shape_desc h.shape, h.mapOf ho hv hmap, shape_blockOf h.shape]
  split
  · rfl
  · rename_i hb
    obtain ⟨slot, idxs, -, hown⟩ := mapOf_held ho hv hmap hb
    rw [h.same _ _ hown]

end Still

theorem still_of_kept {s t : Mnt} {own : Own} (h : Kept s t) (ho : Owned s own) (k : Nat) : Still k s own t :=
  ⟨h.toSameVol, fun b _ hb => h.blocks b (ho.two_le hb)⟩

/-- What holds of every inode but those `T` is as it was: record, holders, blocks. -/
structure Apart (T : Nat → Prop) (s : Mnt) (own : Own) (t : Mnt) (own' : Own) : Prop extends SameVol s t where
  held : ∀ b k p, own b = some (k, p) → ¬ T k → own' b = some (k, p)
  recs : ∀ k, ValidIno s.fs k → ¬ T k → recordOf s.fs t.img k = recordOf s.fs s.img k
  same : ∀ b k p, own b = some (k, p) → ¬ T k → blockOf s.fs t.img b = blockOf s.fs s.img b


namespace Apart

variable {T T' : Nat → Prop} {s t u : Mnt} {own own' own'' : Own}

theorem refl (T : Nat → Prop) (s : Mnt) (own : Own) : Apart T s own s own :=
  ⟨sameVol_law.refl s, fun _ _ _ h _ => h, fun _ _ _ => rfl, fun _ _ _ _ _ => rfl⟩

theorem mono (h : Apart T s own t own') (hT : ∀ k, T k → T' k) : Apart T' s own t own' :=
  ⟨h.toSameVol, fun b k p hb hk => h.held b k p hb fun hk' => hk (hT k hk'), fun k hv hk => h.recs k hv
    fun hk' => hk (hT k hk'),
    fun b k p hb hk => h.same b k p hb fun hk' => hk (hT k hk')⟩

theorem trans (h : Apart T s own t own') (h' : Apart T t own' u own'') : Apart T s own u own'' := by
  refine ⟨sameVol_law.trans h.toSameVol h'.toSameVol, fun b k p hb hk =>
    h'.held b k p (h.held b k p hb hk) hk, fun k hv hk => ?_,
    fun b k p hb hk => ?_⟩
  · have := h'.recs k ((shape_validIno h.shape).mpr hv) hk
    rw [shape_recordOf h.shape] at this
    exact this.trans (h.recs k hv hk)
  · have := h'.same b k p (h.held b k p hb hk) hk
    rw [shape_blockOf h.shape] at this
    exact this.trans (h.same b k p hb hk)

theorem of_frame {n : Nat} {A : List Nat → Prop} (h : Frame n A s own t own') (hm : Mounted s) :
    Apart (· = n) s own t own' := by
  refine ⟨h.toSameVol, fun b k p hb _ => h.grows b _ hb, fun k hv _ => ?_, fun b k p hb hk =>
    h.same b k p hb fun hk' => absurd hk' hk⟩
  have := h.record hm hv
  rwa [shape_recordOf h.shape] at this

theorem of_kept (h : Kept s t) (ho : Owned s own) (T : Nat → Prop) : Apart T s own t own := by
  refine ⟨h.toSameVol, fun _ _ _ hb _ => hb, fun k hv _ => ?_, fun b _ _ hb _ => h.blocks b (ho.two_le hb)⟩
  exact recordOf_congr (h.blocks _ (ho.mounted.itod_bounds hv).1)

theorem of_looked (h : Looked s t) (T : Nat → Prop) (own : Own) : Apart T s own t own := by
  refine ⟨h.idle.toSameVol, fun _ _ _ hb _ => hb, fun k _ _ => ?_, fun _ _ _ _ _ => ?_⟩
  · rw [h.img]
  · rw [h.img]

theorem still (h : Apart T s own t own') {k : Nat} (hk : ¬ T k) : Still k s own t :=
  ⟨h.toSameVol, fun b p hb => h.same b k p hb hk⟩

theorem view (h : Apart T s own t own') {k : Nat} (hk : ¬ T k) {ip : Inode}
    (hv : View s.fs.desc own k ip) : View t.fs.desc own' k ip := by
  rw [shape_desc h.shape]
  exact fun slot hs h0 => h.held _ _ _ (hv slot hs h0) hk

end Apart

/-! ## Records -/

/-- The record of `n` has gone out as `ip`; no other record and no data block has changed. -/
structure Out (n : Nat) (ip : Inode) (s t : Mnt) : Prop extends SameVol s t where
  space : spaceOf t.fs = spaceOf s.fs
  valid : ValidIno s.fs n
  stored : Stored s.fs.desc n ip (recordOf s.fs t.img n)
  recs : ∀ k, ValidIno s.fs k → k ≠ n → recordOf s.fs t.img k = recordOf s.fs s.img k
  blocks : ∀ b, opsDataStart s.fs ≤ b → blockOf s.fs t.img b = blockOf s.fs s.img b

theorem post_inodeOut {s : Mnt} {own : Own} (h : Owned s own) (n : Nat) (ip : Inode) :
    Post (writeInode n ip s) (fun _ t => Out n ip s t) (fun _ t => Kept s t ∧ (ValidIno s.fs n → Fault s)) := by
  refine h.mounted.post_writeInode ?_ ?_ fun _ t hf ht => ⟨ht, fun _ => hf⟩
  · intro t ht hn
    have hmt := h.mounted.of_sameVol ht.toSameVol
    have hlt : RecordLayout t.fs.desc := by
      rw [shape_desc ht.shape]
      exact h.layout.toRecordLayout
    have hrec : recordOf t.fs = recordOf s.fs := shape_recordOf ht.shape
    have hblk : blockOf t.fs = blockOf s.fs := shape_blockOf ht.shape
    have hbd := h.mounted.itod_bounds hn
    have hsame : ∀ b, b ≠ itod s.fs n → blockOf s.fs (putInode n ip t).img b = blockOf s.fs t.img b := by
      intro b hb
      rw [← hblk]
      refine blockOf_putBlock_ne ?_ _ _
      rw [shape_itod ht.shape]
      exact hb
    refine ⟨sameVol_law.trans ht.toSameVol ⟨rfl, rfl, rfl⟩, ht.space, hn, ?_,
      fun k hk hne => ?_, fun b hb => ?_⟩
    · have := recordOf_putInode hmt hlt (n := n) ip
      rw [shape_desc ht.shape] at this
      rw [← hrec]
      exact this
    · have hput := recordOf_putInode_ne hmt hlt ip hn.1 hk.1 hne
      rw [show recordOf (putInode n ip t).fs = recordOf s.fs from hrec, hrec] at hput
      exact hput.trans (recordOf_congr (ht.blocks _ (h.mounted.itod_bounds hk).1))
    · refine (hsame b (by omega)).trans (ht.blocks b ?_)
      have := h.mounted.first
      omega
  · intro _ t hn ht
    refine ⟨?_, fun hn' => absurd hn' hn⟩
    rcases ht with rfl | ht
    · exact kept_law.refl t
    · exact ht.toKept

namespace Out

variable {n : Nat} {ip : Inode} {s t : Mnt} {own : Own} (h : Out n ip s t)

include h

theorem apart (ho : Owned s own) : Apart (· = n) s own t own :=
  ⟨h.toSameVol, fun _ _ _ hb _ => hb, fun k hv hk => h.recs k hv hk, fun b _ _ hb _ =>
    h.blocks b (ho.data b _ hb).1⟩

theorem still (ho : Owned s own) (k : Nat) : Still k s own t :=
  ⟨h.toSameVol, fun b _ hb => h.blocks b (ho.data b _ hb).1⟩

end Out

/-! ## `filsys_file_write` -/

/-- The copy after a write that ends at `hi`. -/
def resized (ip : Inode) (hi : Nat) : Inode := if ip.size < hi then { ip with size := hi % 2 ^ 32 } else ip

@[simp] theorem resized_mode (ip : Inode) (hi : Nat) : (resized ip hi).mode = ip.mode := by
  unfold resized
  split <;> rfl

@[simp] theorem resized_addr (ip : Inode) (hi : Nat) : (resized ip hi).addr = ip.addr := by
  unfold resized
  split <;> rfl

@[simp] theorem resized_ino (ip : Inode) (hi : Nat) : (resized ip hi).ino = ip.ino := by
  unfold resized
  split <;> rfl

@[simp] theorem resized_nlink (ip : Inode) (hi : Nat) : (resized ip hi).nlink = ip.nlink := by
  unfold resized
  split <;> rfl

theorem mapOf_congr {fs : Fs} {img : Buf} {ip ip' : Inode} (hm : ip'.mode = ip.mode)
    (ha : ip'.addr = ip.addr) (lbn : Nat) :
    mapOf fs img ip' lbn = mapOf fs img ip lbn := by
  unfold mapOf
  rw [hm, ha]

theorem byteOf_congr {fs : Fs} {img : Buf} {ip ip' : Inode} (hm : ip'.mode = ip.mode)
    (ha : ip'.addr = ip.addr) (o : Nat) :
    byteOf fs img ip' o = byteOf fs img ip o := by
  unfold byteOf
  rw [mapOf_congr hm ha]

theorem View.congr {d : Desc} {own : Own} {n : Nat} {ip ip' : Inode} (h : View d own n ip)
    (hm : ip'.mode = ip.mode) (ha : ip'.addr = ip.addr) :
    View d own n ip' := by
  intro slot hs h0
  rw [ha] at h0 ⊢
  rw [hm]
  exact h slot hs h0

/-- A write of the bytes `lo`..`hi` has gone out, its record last. -/
structure Filed (S : Scope) (n : Nat) (buf : Buf) (lo hi : Nat) (s : Mnt) (own : Own) (ip : Inode)
    (t : Mnt) (own' : Own) (ip' : Inode) : Prop where
  path : Path S s own t own'
  apart : Apart (· = n) s own t own'
  grows : Grows own own'
  view : View s.fs.desc own' n ip'
  valid : ValidIno s.fs n
  stored : Stored s.fs.desc n ip' (recordOf s.fs t.img n)
  copy : ∃ ip₁, SameCopy s.fs.desc ip ip₁ ∧ ip' = resized ip₁ hi
  bytes : ∀ o, Mappable s.fs o → byteOf t.fs t.img ip' o = if lo ≤ o ∧ o < hi then buf (o - lo)
    else byteOf s.fs s.img ip o
  maps : ∀ x, x < 2 ^ 32 → mapOf s.fs s.img ip x ≠ 0 → mapOf t.fs t.img ip' x = mapOf s.fs s.img ip x
  outside : ∀ x, x < 2 ^ 32 → (x < lo / s.fs.desc.bsize ∨ hi ≤ x * s.fs.desc.bsize) →
    mapOf t.fs t.img ip' x = mapOf s.fs s.img ip x
  made : ∀ x, x < 2 ^ 32 → lo < hi → lo / s.fs.desc.bsize ≤ x → x * s.fs.desc.bsize < hi →
    mapOf t.fs t.img ip' x ≠ 0

/-- A write of `lo`..`hi` has failed before its record went out. -/
def Unfiled (S : Scope) (n : Nat) (buf : Buf) (lo hi : Nat) (s : Mnt) (own : Own) (ip : Inode) (t : Mnt)
    (own' : Own) (ip' : Inode) : Prop :=
  ∃ mid ip₁, lo ≤ mid ∧ mid ≤ hi ∧ Wrote S n buf lo mid hi s own ip t own' ip₁ ∧
  (ip' = ip₁ ∨ ip' = resized ip₁ hi ∧ mid = hi)

theorem Wrote.refused {S : Scope} {n : Nat} {buf : Buf} {lo mid hi : Nat} {s t u : Mnt} {own own' : Own}
    {ip ip' ip₂ : Inode} {e : Errno}
    (h : Owned s own) (hw : Wrote S n buf lo mid hi s own ip t own' ip') (hk : Kept t u)
    (hr : writeInode n ip₂ t = .error e u) :
    Wrote S n buf lo mid hi s own ip u own' ip' := by
  have hot := hw.path.owned h
  have hd := shape_desc hw.frame.shape
  have hst := still_of_kept hk hot n
  have hvt : View t.fs.desc own' n ip' := by
    rw [hd]
    exact hw.view
  refine ⟨hw.path.snoc (.refused hr), hw.frame.trans (.of_kept hk hot n _), hw.view, hw.copy,
    fun o ho => ?_, fun x hx hne => ?_, fun x hx hout => ?_,
    fun x hx hlt hlo hxm => ?_⟩
  · rw [hst.byteOf hot hvt (show o / t.fs.desc.bsize < 2 ^ 32 by rw [hd]; exact ho)]
    exact hw.bytes o ho
  · exact (hst.mapOf hot hvt hx).trans (hw.maps x hx hne)
  · exact (hst.mapOf hot hvt hx).trans (hw.outside x hx hout)
  · rw [hst.mapOf hot hvt hx]
    exact hw.made x hx hlt hlo hxm

/-- A write breaks off in the loop, with the size as it was, or at its record, with the size it would
    have had. -/
theorem post_fileWriteParts {S : Scope} {n : Nat} (hS : S.touch n) (buf : Buf) (size off : Nat)
    {s : Mnt} {own : Own} {l : Loc} (h : Owned s own)
    (hv : View s.fs.desc own n l.ip) (hino : l.ip.ino = n) (hmap : Mappable s.fs (off + size))
    (hlink : ∀ x, off / s.fs.desc.bsize ≤ x → x * s.fs.desc.bsize < off + size →
      mapOf s.fs s.img l.ip x ≠ 0 ∨ MayLink S s.fs.desc n x) :
    Post (filsysFileWrite buf size off (s, l))
      (fun r t => r = size ∧ t.2.bl = l.bl ∧ ∃ own', Filed S n buf off (off + size) s own l.ip t.1 own' t.2.ip)
      (fun _ t => t.2.bl = l.bl ∧ ∃ own' mid ip₁, off ≤ mid ∧ mid ≤ off + size ∧
        Wrote S n buf off mid (off + size) s own l.ip t.1 own' ip₁ ∧
        (t.2.ip = ip₁ ∧ (Fault s ∨ Holed s l.ip off (off + size)) ∨
          t.2.ip = resized ip₁ (off + size) ∧ mid = off + size ∧ (ValidIno s.fs n → Fault s))) := by
  show Post ((if (off : Int) < 0 then throw .einval else fileWriteLoop buf size off size 0 >>=
    fun _ => _ : MI Nat) (s, l)) _ _
  refine post_ite (fun hneg => absurd hneg (by omega)) fun _ => ?_
  refine post_bind ((post_fileWriteLoop hS buf size off h hmap hlink size 0 (by omega) (Nat.zero_le _)
    (Wrote.refl hv)).mono ?_ ?_)
  · intro _ p hrun
    obtain ⟨t, ip₁, bl⟩ := p
    obtain ⟨own', hw, hbl⟩ := hrun
    obtain rfl : bl = l.bl := hbl
    have hot := hw.path.owned h
    have hd := shape_desc hw.frame.shape
    have hino₁ : (resized ip₁ (off + size)).ino = n := by
      rw [resized_ino]
      exact hw.copy.ino.trans hino
    show Post ((up (writeInode (resized ip₁ (off + size)).ino (resized ip₁ (off + size))) >>=
      fun _ => pure size : MI Nat)
      (t, ⟨resized ip₁ (off + size), l.bl⟩)) _ _
    rw [hino₁]
    refine post_bind (post_outside ?_)
    have hout := post_inodeOut hot n (resized ip₁ (off + size))
    show Post (writeInode n (resized ip₁ (off + size)) t) _ _
    cases hr : writeInode n (resized ip₁ (off + size)) t with
    | error e u =>
      rw [hr] at hout
      refine ⟨rfl, own', off + size, ip₁, Nat.le_add_right _ _, Nat.le_refl _, hw.refused h hout.1 hr,
        .inr ⟨rfl, rfl, fun hn => ?_⟩⟩
      obtain ⟨k, hk⟩ := hout.2 ((shape_validIno hw.frame.shape).mpr hn)
      exact ⟨k, by rw [← hw.frame.env]; exact hk⟩
    | ok _ u =>
      rw [hr] at hout
      have hout : Out n (resized ip₁ (off + size)) t u := hout
      have hview : View s.fs.desc own' n (resized ip₁ (off + size)) :=
        hw.view.congr (resized_mode _ _) (resized_addr _ _)
      have hvt : View t.fs.desc own' n ip₁ := by
        rw [hd]
        exact hw.view
      have hst := hout.still hot n
      have hmp : ∀ x, x < 2 ^ 32 → mapOf u.fs u.img (resized ip₁ (off + size)) x = mapOf t.fs t.img ip₁ x := by
        intro x hx
        rw [mapOf_congr (resized_mode _ _) (resized_addr _ _)]
        exact hst.mapOf hot hvt hx
      refine ⟨rfl, rfl, own', ⟨hw.path.snoc (.inode hS (fun _ => by rw [hd]; exact hview) hr),
        (Apart.of_frame hw.frame h.mounted).trans (hout.apart hot),
        hw.frame.grows, hview, (shape_validIno hw.frame.shape).mp hout.valid, ?_, ⟨ip₁, hw.copy, rfl⟩,
        fun o ho => ?_, fun x hx hne => ?_, fun x hx ho => ?_,
        fun x hx hlt hlo hxm => ?_⟩⟩
      · have := hout.stored
        rw [hd, shape_recordOf hw.frame.shape] at this
        exact this
      · rw [byteOf_congr (resized_mode _ _) (resized_addr _ _),
          hst.byteOf hot hvt (show o / t.fs.desc.bsize < 2 ^ 32 by rw [hd]; exact ho)]
        exact hw.bytes o ho
      · exact (hmp x hx).trans (hw.maps x hx hne)
      · exact (hmp x hx).trans (hw.outside x hx ho)
      · rw [hmp x hx]
        exact hw.made x hx hlt hlo hxm
  · intro e p hrun
    obtain ⟨t, ip₁, bl⟩ := p
    obtain ⟨⟨own', m, hm, hw, hbl⟩, hwhy⟩ := hrun
    exact ⟨hbl, own', off + m, ip₁, Nat.le_add_right _ _, by omega, hw, .inl ⟨rfl, hwhy⟩⟩

theorem post_filsysFileWrite {S : Scope} {n : Nat} (hS : S.touch n) (buf : Buf) (size off : Nat)
    {s : Mnt} {own : Own} {l : Loc} (h : Owned s own)
    (hv : View s.fs.desc own n l.ip) (hino : l.ip.ino = n) (hmap : Mappable s.fs (off + size))
    (hlink : ∀ x, off / s.fs.desc.bsize ≤ x → x * s.fs.desc.bsize < off + size →
      mapOf s.fs s.img l.ip x ≠ 0 ∨ MayLink S s.fs.desc n x) :
    Post (filsysFileWrite buf size off (s, l))
      (fun r t => r = size ∧ t.2.bl = l.bl ∧ ∃ own', Filed S n buf off (off + size) s own l.ip t.1 own' t.2.ip)
      (fun _ t => (t.2.bl = l.bl ∧ ∃ own', Unfiled S n buf off (off + size) s own l.ip t.1 own' t.2.ip) ∧
        (ValidIno s.fs n → Fault s ∨ Holed s l.ip off (off + size))) := by
  refine (post_fileWriteParts hS buf size off h hv hino hmap hlink).mono (fun _ _ ht => ht) ?_
  intro e t ht
  obtain ⟨hbl, own', mid, ip₁, hlo, hhi, hw, ⟨hip, hwhy⟩ | ⟨hip, hmid, hwhy⟩⟩ := ht
  · exact ⟨⟨hbl, own', mid, ip₁, hlo, hhi, hw, .inl hip⟩, fun _ => hwhy⟩
  · exact ⟨⟨hbl, own', mid, ip₁, hlo, hhi, hw, .inr ⟨hip, hmid⟩⟩, fun hn => .inl (hwhy hn)⟩

end Filsys.Tree
