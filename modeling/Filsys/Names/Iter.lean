/-
  Filsys.Names.Iter — listing a directory (dir_fixed.c, filsys.c).

  `dir_iter` returns the entries one at a time from a resume offset, keeping the chunk it
  has read. From slot `m` it returns the first entry of `rest m` and stands before the
  others (`post_dirIter`), so a directory is empty when every entry is `.` or `..`
  (`post_dirIsEmpty`).
-/

import Filsys.Engine.Ops
import Filsys.Names.Folder
import Filsys.Tree.Create

namespace Filsys.Names

open Filsys.Lib Filsys.Engine Filsys.Alloc Filsys.Tree

/-- The entries from slot `m` on. -/
def rest (d : Desc) (f : Buf) (size m : Nat) : List Dirent :=
  (slotsFrom d f m (size / d.direntSize - m)).filter inUse

/-- The iterator stands before slot `m`, and the chunk it holds is the file's. -/
structure IterAt (d : Desc) (f : Buf) (size : Nat) (st : Iter) (m : Nat) : Prop where
  next : st.nextOff = m * d.direntSize
  chunk : st.bufN ≠ 0 → st.bufN = min (dirChunk d) (size - st.bufOff)
  bytes : ∀ i, i < st.bufN → st.buf i = f (st.bufOff + i)

section Rest

variable {d : Desc} {f : Buf} {size m j : Nat}

theorem rest_end (h : ∀ i, m ≤ i → i < size / d.direntSize → inUse (slotAt d f i) = false) :
    rest d f size m = [] := by
  refine List.filter_eq_nil_iff.mpr fun e he => ?_
  obtain ⟨i, h1, h2, rfl⟩ := mem_slotsFrom.mp he
  rw [h i h1 (by omega)]
  exact Bool.false_ne_true

/-- Free slots are passed over. -/
theorem rest_skip (hle : m ≤ j) (h : ∀ i, m ≤ i → i < j → i < size / d.direntSize →
    inUse (slotAt d f i) = false) :
    rest d f size m = rest d f size j := by
  by_cases hj : j ≤ size / d.direntSize
  · have hsplit : size / d.direntSize - m = (j - m) + (size / d.direntSize - j) := by omega
    have hfree : (slotsFrom d f m (j - m)).filter inUse = [] := by
      refine List.filter_eq_nil_iff.mpr fun e he => ?_
      obtain ⟨i, h1, h2, rfl⟩ := mem_slotsFrom.mp he
      rw [h i h1 (by omega) (by omega)]
      exact Bool.false_ne_true
    unfold rest
    rw [hsplit, slotsFrom_add, List.filter_append, hfree, Nat.add_sub_cancel' hle, List.nil_append]
  · rw [rest_end fun i h1 h2 => h i h1 (by omega) h2, rest_end fun i h1 h2 => absurd h2 (by omega)]

theorem rest_cons (hj : j < size / d.direntSize) (huse : inUse (slotAt d f j) = true) :
    rest d f size j = slotAt d f j :: rest d f size (j + 1) := by
  have hsplit : size / d.direntSize - j = (size / d.direntSize - (j + 1)) + 1 := by omega
  unfold rest
  rw [hsplit]
  exact List.filter_cons_of_pos huse

theorem rest_length (d : Desc) (f : Buf) (size : Nat) : (rest d f size 0).length ≤ size := by
  calc (rest d f size 0).length ≤ (slotsFrom d f 0 (size / d.direntSize)).length := List.length_filter_le ..
    _ = size / d.direntSize := slotsFrom_length ..
    _ ≤ size := Nat.div_le_self ..

end Rest

section Iter

variable {s : Mnt} {own : Own} {n : Nat} {l : Loc} (h : Owned s own) (hd : FixedFormat s.fs.desc)
    (hf : Directory s own n l.ip)

include h hd hf

/-- The chunk of slot `m` is in hand. -/
theorem post_iterLoad {t : Mnt} (ht : Looked s t) {st : Iter} {m : Nat}
    (hst : IterAt s.fs.desc (byteOf s.fs s.img l.ip) l.ip.size st m) (off : Nat)
    (hlt : off < l.ip.size) : Post (iterLoad (dirChunk s.fs.desc) off st (t, l))
      (fun r u => (IterAt s.fs.desc (byteOf s.fs s.img l.ip) l.ip.size r m ∧ r.bufOff = off ∧
        r.bufN ≠ 0) ∧ Looked s u.1 ∧ u.2 = l)
      (fun _ u => Fault s ∧ Looked s u.1 ∧ u.2 = l) := by
  show Post ((if st.bufOff ≠ off ∨ st.bufN = 0 then
    filsysFileRead (min (dirChunk s.fs.desc) (l.ip.size - off)) off >>= fun r =>
    pure { st with buf := r.2, bufN := r.1, bufOff := off } else pure st : MI Iter) (t, l)) _ _
  apply post_ite
  · intro _
    have hread := post_filsysFileRead (ht.owned h) (l := l) (by rw [ht.fs]; exact hf.view)
      (by rw [ht.fs]; exact hf.mappable)
      (min (dirChunk s.fs.desc) (l.ip.size - off)) off
    refine post_bind (hread.mono ?_ fun _ u hu => ⟨ht.fault hu.1, looked_law.trans ht hu.2.1, hu.2.2⟩)
    intro x u hr
    obtain ⟨got, buf⟩ := x
    obtain ⟨hgot, hbytes, hu, hl⟩ := hr
    replace hgot : got = min (dirChunk s.fs.desc) (l.ip.size - off) := by
      simpa using hgot
    obtain ⟨c, hc, hchunk⟩ := dirChunk_eq s.fs.desc
    have hpos : 0 < c * s.fs.desc.direntSize := Nat.mul_pos hc hd.pos
    refine ⟨⟨⟨hst.next, fun _ => hgot, fun i hi => ?_⟩, rfl, show got ≠ 0 by omega⟩, looked_law.trans ht hu, hl⟩
    exact (hbytes i hi).trans (looked_byteOf ht _ _)
  · intro hin
    obtain ⟨hoff, hne⟩ := not_or.mp hin
    exact ⟨⟨hst, not_not.mp hoff, hne⟩, ht, rfl⟩

theorem post_v7fsDirIter (fuel : Nat) : ∀ (st : Iter) (m : Nat) {t : Mnt}, Looked s t →
    IterAt s.fs.desc (byteOf s.fs s.img l.ip) l.ip.size st m → l.ip.size < fuel + st.nextOff →
    Post (v7fsDirIter fuel st (t, l))
      (fun r u => (match r.1 with
        | some e => ∃ m', IterAt s.fs.desc (byteOf s.fs s.img l.ip) l.ip.size r.2 m' ∧
            rest s.fs.desc (byteOf s.fs s.img l.ip) l.ip.size m =
            e :: rest s.fs.desc (byteOf s.fs s.img l.ip) l.ip.size m'
        | none => rest s.fs.desc (byteOf s.fs s.img l.ip) l.ip.size m = []) ∧ Looked s u.1 ∧ u.2 = l)
      (fun _ u => (Fault s ∨ fuel = 0) ∧ Looked s u.1 ∧ u.2 = l) := by
  obtain ⟨c, hc, hchunk⟩ := dirChunk_eq s.fs.desc
  have hpos := hd.pos
  have hcpos : 0 < dirChunk s.fs.desc := by
    rw [hchunk]
    exact Nat.mul_pos hc hpos
  have hslot : ∀ {i}, i < l.ip.size / s.fs.desc.direntSize ↔
    (i + 1) * s.fs.desc.direntSize ≤ l.ip.size := fun {i} =>
    (Nat.le_div_iff_mul_le hpos (x := i + 1))
  induction fuel with
  | zero =>
    intro st m t ht _ _
    exact ⟨.inr rfl, ht, rfl⟩
  | succ fuel ih =>
    intro st m t ht hst hfuel
    unfold v7fsDirIter
    rw [bindUpFs_run, bindIp_run]
    rw [ht.fs]
    refine post_ite (fun hend => ⟨rest_end fun i h1 h2 => ?_, ht, rfl⟩) fun hlt => ?_
    · have h3 := hslot.mp h2
      have h4 := Nat.mul_le_mul_right s.fs.desc.direntSize h1
      rw [Nat.succ_mul] at h3
      rw [hst.next] at hend
      omega
    · have hle : st.nextOff / dirChunk s.fs.desc * dirChunk s.fs.desc ≤ st.nextOff := Nat.div_mul_le_self ..
      refine post_bind ((post_iterLoad h hd hf ht hst _ (by omega)).mono ?_ fun _ u hu => ⟨.inl hu.1, hu.2⟩)
      intro r p hrun
      obtain ⟨u, l'⟩ := p
      obtain ⟨⟨hr, hoff, hne⟩, hu, hl⟩ := hrun
      obtain rfl : l' = l := hl
      -- the chunk starts at slot `a`
      obtain ⟨a, ha⟩ : ∃ a, st.nextOff / dirChunk s.fs.desc * dirChunk s.fs.desc = a * s.fs.desc.direntSize :=
        ⟨st.nextOff / dirChunk s.fs.desc * c, by rw [hchunk, Nat.mul_assoc]⟩
      have ham : a ≤ m := by
        rw [ha, hst.next] at hle
        exact Nat.le_of_mul_le_mul_right hle hpos
      have hstart : r.nextOff - st.nextOff / dirChunk s.fs.desc * dirChunk s.fs.desc =
        (m - a) * s.fs.desc.direntSize := by
        rw [hr.next, ha, ← Nat.sub_mul]
      have hgot := hr.chunk hne
      rw [hoff] at hgot
      have hlook : ∀ i, i * s.fs.desc.direntSize + s.fs.desc.direntSize ≤ r.bufN →
          (entryIno s.fs.desc r.buf (i * s.fs.desc.direntSize),
            storedName r.buf (i * s.fs.desc.direntSize + 2) s.fs.desc.maxNamlen) =
            slotAt s.fs.desc (byteOf s.fs s.img l'.ip) (a + i) := by
        intro i hi
        refine slotAt_congr (f := r.buf) (i := i) hd.width fun x hx => ?_
        rw [hr.bytes _ (by omega), hoff, ha, Nat.add_mul, Nat.add_assoc]
      have hspec := @findEntry_spec (fun b => entryIno s.fs.desc r.buf b != 0) _ r.bufN hpos r.bufN
        (r.nextOff - st.nextOff / dirChunk s.fs.desc * dirChunk s.fs.desc) (Nat.le_add_right _ _)
      have hbase : ∀ k, r.nextOff - st.nextOff / dirChunk s.fs.desc * dirChunk s.fs.desc +
        k * s.fs.desc.direntSize = (m - a + k) * s.fs.desc.direntSize := by
        intro k
        rw [hstart, ← Nat.add_mul]
      have huse : ∀ i, i * s.fs.desc.direntSize + s.fs.desc.direntSize ≤ r.bufN →
          inUse (slotAt s.fs.desc (byteOf s.fs s.img l'.ip) (a + i)) =
          (entryIno s.fs.desc r.buf (i * s.fs.desc.direntSize) != 0) := by
        intro i hi
        rw [← hlook i hi]
        rfl
      cases hfind : findEntry (fun b => entryIno s.fs.desc r.buf b != 0) s.fs.desc.direntSize r.bufN r.bufN
          (r.nextOff - st.nextOff / dirChunk s.fs.desc * dirChunk s.fs.desc) with
      | some b =>
        rw [hfind] at hspec
        obtain ⟨k, hb, hbin, hhere, hbefore⟩ := hspec
        rw [hbase] at hb
        subst hb
        have hin : a + (m - a + k) < l'.ip.size / s.fs.desc.direntSize := by
          rw [hslot, Nat.succ_mul, Nat.add_mul]
          omega
        refine ⟨⟨a + (m - a + k) + 1, ⟨?_, hr.chunk, hr.bytes⟩, ?_⟩, hu, rfl⟩
        · show st.nextOff / dirChunk s.fs.desc * dirChunk s.fs.desc + _ + _ = _
          rw [ha, Nat.succ_mul, ← Nat.add_mul]
        · rw [hlook _ hbin, ← rest_cons hin (by rw [huse _ hbin]; exact hhere)]
          refine rest_skip (by omega) fun i h1 h2 _ => ?_
          have hi := hbefore (i - m) (by omega)
          rw [hbase, show m - a + (i - m) = i - a by omega] at hi
          have hle' : (i - a) * s.fs.desc.direntSize + s.fs.desc.direntSize ≤
            (m - a + k) * s.fs.desc.direntSize := by
            rw [← Nat.succ_mul]
            exact Nat.mul_le_mul_right _ (by omega)
          rw [show i = a + (i - a) by omega, huse _ (by omega)]
          exact hi
      | none =>
        rw [hfind] at hspec
        have hnext : st.nextOff / dirChunk s.fs.desc * dirChunk s.fs.desc + dirChunk s.fs.desc =
          (a + c) * s.fs.desc.direntSize := by
          rw [ha, hchunk, Nat.add_mul]
        have hmore : st.nextOff < st.nextOff / dirChunk s.fs.desc * dirChunk s.fs.desc +
          dirChunk s.fs.desc := Nat.lt_div_mul_add hcpos
        have hmac : m ≤ a + c := by
          rw [hnext, hst.next] at hmore
          exact Nat.le_of_lt (Nat.lt_of_mul_lt_mul_right hmore)
        have hrest : rest s.fs.desc (byteOf s.fs s.img l'.ip) l'.ip.size m =
          rest s.fs.desc (byteOf s.fs s.img l'.ip) l'.ip.size (a + c) := by
          refine rest_skip hmac fun i h1 h2 h3 => ?_
          have h4 := hslot.mp h3
          have hsum : (i + 1) * s.fs.desc.direntSize = a * s.fs.desc.direntSize +
            ((i - a) * s.fs.desc.direntSize + s.fs.desc.direntSize) := by
            rw [← Nat.succ_mul, ← Nat.add_mul]
            congr 1
            omega
          have hic : (i - a) * s.fs.desc.direntSize + s.fs.desc.direntSize ≤ c * s.fs.desc.direntSize := by
            rw [← Nat.succ_mul]
            exact Nat.mul_le_mul_right _ (by omega)
          have hbin : (i - a) * s.fs.desc.direntSize + s.fs.desc.direntSize ≤ r.bufN := by omega
          have hi := hspec (i - m)
          rw [hbase, show m - a + (i - m) = i - a by omega] at hi
          rw [show i = a + (i - a) by omega, huse _ hbin]
          exact hi hbin
        rw [hrest]
        have hgo := ih { r with
            nextOff := st.nextOff / dirChunk s.fs.desc * dirChunk s.fs.desc + dirChunk s.fs.desc } (a + c) hu
          ⟨hnext, hr.chunk, hr.bytes⟩
            (by
              show l'.ip.size < fuel + (st.nextOff / dirChunk s.fs.desc * dirChunk s.fs.desc + dirChunk s.fs.desc)
              omega)
        refine hgo.mono (fun _ _ hq => hq) fun e v hv => ⟨.inl (hv.1.resolve_right fun h0 => ?_), hv.2⟩
        subst h0
        omega

theorem post_dirIter {st : Iter} {m : Nat} {t : Mnt} (ht : Looked s t)
    (hst : IterAt s.fs.desc (byteOf s.fs s.img l.ip) l.ip.size st m) :
    Post (dirIter st (t, l))
      (fun r u => (match r.1 with
        | some e => ∃ m', IterAt s.fs.desc (byteOf s.fs s.img l.ip) l.ip.size r.2 m' ∧
            rest s.fs.desc (byteOf s.fs s.img l.ip) l.ip.size m =
            e :: rest s.fs.desc (byteOf s.fs s.img l.ip) l.ip.size m'
        | none => rest s.fs.desc (byteOf s.fs s.img l.ip) l.ip.size m = []) ∧ Looked s u.1 ∧ u.2 = l)
      (fun _ u => Fault s ∧ Looked s u.1 ∧ u.2 = l) := by
  have hfixed : dirIter st (t, l) = v7fsDirIter (l.ip.size + 1) st (t, l) := by
    unfold dirIter
    rw [bindUpFs_run, bindIp_run]
    rw [ht.fs]
    cases hops : s.fs.desc.ops with
    | bsd211 => exact absurd hops hd.bsd211
    | pdp7 => exact absurd hops hd.pdp7
    | _ => rfl
  rw [hfixed]
  refine (post_v7fsDirIter h hd hf (l.ip.size + 1) st m ht hst (by omega)).mono (fun _ _ hq => hq)
    fun _ _ he => ⟨he.1.resolve_right ?_, he.2⟩
  exact Nat.succ_ne_zero _

/-- An entry that does not keep a directory from being empty. -/
def isDots (e : Dirent) : Bool := decide (e.2 = dot ∨ e.2 = dotdot)

theorem post_onlyDots (fuel : Nat) : ∀ (st : Iter) (m : Nat) {t : Mnt}, Looked s t →
    IterAt s.fs.desc (byteOf s.fs s.img l.ip) l.ip.size st m →
    (rest s.fs.desc (byteOf s.fs s.img l.ip) l.ip.size m).length < fuel →
    Post (onlyDots fuel st (t, l))
    (fun r u => r = (rest s.fs.desc (byteOf s.fs s.img l.ip) l.ip.size m).all isDots ∧ Looked s u.1 ∧
      u.2 = l)
      (fun _ u => Fault s ∧ Looked s u.1 ∧ u.2 = l) := by
  induction fuel with
  | zero => exact fun st m t ht hst hlen => absurd hlen (Nat.not_lt_zero _)
  | succ fuel ih =>
    intro st m t ht hst hlen
    unfold onlyDots
    refine post_bind ((post_dirIter h hd hf ht hst).mono ?_ fun _ _ he => he)
    intro x p hrun
    obtain ⟨e, st'⟩ := x
    obtain ⟨u, l'⟩ := p
    obtain ⟨hr, hu, hl⟩ := hrun
    obtain rfl : l' = l := hl
    cases e with
    | none =>
      replace hr : rest s.fs.desc (byteOf s.fs s.img l'.ip) l'.ip.size m = [] := hr
      rw [hr]
      exact ⟨rfl, hu, rfl⟩
    | some e =>
      obtain ⟨ino, name⟩ := e
      obtain ⟨m', hst', hrest⟩ := hr
      rw [hrest, List.length_cons] at hlen
      rw [hrest, List.all_cons]
      show Post ((if name = dot ∨ name = dotdot then onlyDots fuel st' else pure false : MI Bool) (u, l')) _ _
      by_cases hname : name = dot ∨ name = dotdot
      · rw [if_pos hname]
        refine (ih st' m' hu hst' (by omega)).mono (fun r v hv => ⟨?_, hv.2⟩) fun _ _ he => he
        rw [hv.1, show isDots (ino, name) = true from decide_eq_true hname, Bool.true_and]
      · rw [if_neg hname]
        refine ⟨?_, hu, rfl⟩
        rw [show isDots (ino, name) = false from decide_eq_false hname, Bool.false_and]

end Iter

theorem post_withIp {α : Type} {ip : Inode} {x : MI α} {s : Mnt} {Q : α → Mnt → Prop} {E : Errno → Mnt → Prop}
    (hx : Post (x (s, ⟨ip, []⟩)) (fun a t => Q a t.1) (fun e t => E e t.1)) : Post (withIp ip x s) Q E := by
  unfold withIp onIp
  refine post_bind (post_bind (post_inside ?_))
  exact hx.mono (fun _ _ hq => hq) fun _ _ he => he

section Empty

variable {s : Mnt} {own : Own} {n : Nat} (h : Owned s own) (hd : FixedFormat s.fs.desc)
  (hf : modeIsDir s.fs.desc (recordOf s.fs s.img n) = true → Folder s own n (recordOf s.fs s.img n))

include h hd hf

theorem post_dirIsEmpty : Post (dirIsEmpty n s)
    (fun r t => modeIsDir s.fs.desc (recordOf s.fs s.img n) = true ∧
      r = (listing s.fs s.img (recordOf s.fs s.img n)).all isDots ∧ Looked s t)
    (fun _ t => (ValidIno s.fs n → modeIsDir s.fs.desc (recordOf s.fs s.img n) = true → Fault s) ∧
      Looked s t) := by
  show Post ((readInode n >>= fun ip => if !modeIsDir s.fs.desc ip then throw .enotdir
    else if maxFile s.fs.desc < ip.size then throw .efbig else withIp ip (onlyDots (ip.size + 4) {}) :
    M Bool) s) _ _
  refine post_bind ((post_inodeIn h.mounted n).mono ?_ fun _ t ht => ⟨fun hn _ => ht.1 hn, ht.2⟩)
  intro ip t hr
  obtain ⟨rfl, hn, ht⟩ := hr
  refine post_ite (fun hnot => ⟨fun _ hdir => ?_, ht⟩) fun hdir => ?_
  · rw [hdir] at hnot
    cases hnot
  replace hdir : modeIsDir s.fs.desc (recordOf s.fs s.img n) = true := by
    simpa using hdir
  refine post_ite (fun hbig => absurd (hf hdir).fits (by omega)) fun _ => post_withIp ?_
  have hgo := post_onlyDots (l := ⟨recordOf s.fs s.img n, []⟩) h hd (hf hdir).directory
    ((recordOf s.fs s.img n).size + 4) {} 0 ht
    ⟨(Nat.zero_mul _).symm, fun h0 => absurd rfl h0, fun i hi => absurd hi (Nat.not_lt_zero i)⟩
    (Nat.lt_of_le_of_lt (rest_length ..) (Nat.lt_add_of_pos_right (by decide)))
  exact hgo.mono (fun r u hu => ⟨hdir, hu.1, hu.2.1⟩) fun _ u hu => ⟨fun _ _ => hu.1, hu.2.1⟩

end Empty

end Filsys.Names
