/-
  Filsys.Pdp7.Words — a PDP-7 file as its words (pdp7fs.c).

  The directory code reads and writes a file word by word, all eighteen bits of it. A read
  returns the word there is, zero in a hole (`post_inodeReadWord_words`); a write stores
  its word and leaves the others, making a block where there is none
  (`post_inodeWriteWord`), and past the end of the map it fails
  (`post_inodeWriteWord_far`).
-/

import Filsys.Blockmap.Shrink

namespace Filsys.Pdp7

open Filsys.Lib Filsys.Engine Filsys.Blockmap Filsys.Alloc Filsys.Check Filsys.Tree

/-- Word `w` of the file. -/
def wordAt (s : Mnt) (ip : Inode) (w : Nat) : Nat := unitAt s ip (w / 64) (w % 64)

/-! ## Reads -/

/-- What a directory scan needs of its mount. -/
structure Legible (s : Mnt) (ip : Inode) : Prop where
  words : s.fs.desc.ops = .pdp7
  ready : Blockmap.Ready s
  tree : TreeOk s ip

theorem Legible.mounted {s : Mnt} {ip : Inode} (h : Legible s ip) : Mounted7 s :=
  mounted_words h.ready.volume h.words

theorem Legible.read {s : Mnt} {ip : Inode} (h : Legible s ip) (k : Nat) : Legible { s with ios := k } ip :=
  ⟨h.words, h.ready.of_sameVol ⟨rfl, rfl, rfl⟩, ⟨h.tree.unshared, h.tree.usable⟩⟩

theorem post_inodeReadWord_words {s : Mnt} {l : Loc} (h : Legible s l.ip) {w : Nat} (hw : w / 64 < 2 ^ 32) :
    Post (inodeReadWord w (s, l)) (fun v t => v = wordAt s l.ip w ∧ ∃ k, t = ({ s with ios := k }, l))
    fun _ _ => False := by
  have hpeek := inodeReadWord_peeks w (s, l)
  refine (hpeek.and (post_inodeReadWord h.mounted h.ready h.tree hw)).mono ?_ fun _ _ hf => hf.2
  intro v t hr
  obtain ⟨⟨hro, hl⟩, hv⟩ := hr
  obtain ⟨k, -, ht⟩ := hro h.mounted.solo
  exact ⟨hv, k, Prod.ext ht hl⟩

/-! ## Writes -/

/-- Word `w` is `v`, the others are as they were. -/
structure Lettered (s : Mnt) (ip : Inode) (n w v : Nat) (t : Mnt) (ip' : Inode) :
    Prop extends Joined s ip n t ip' where
  word : ∀ x, x / 64 < 2 ^ 32 → wordAt t ip' x = if x = w then word18 v else wordAt s ip x
  there : mapAt t ip' (w / 64) ≠ 0

theorem Sprouted.wordAt {s t : Mnt} {ip ip' : Inode} {n : Nat} (h : Sprouted s ip n t ip')
    {x : Nat} (hx : x / 64 < 2 ^ 32) :
    wordAt t ip' x = wordAt s ip x := h.unit _ hx _

/-- A mapped block is read, one word of it changed, and written back. -/
theorem post_letterBlock {s : Mnt} {ip : Inode} (hm : Mounted7 s) (hs : Stocked s ip) {w : Nat}
    (hw : w / 64 < 2 ^ 32) (h0 : mapAt s ip (w / 64) ≠ 0) (v : Nat) :
    Post (readWords (mapAt s ip (w / 64)) s)
      (fun words t => Post (writeWords .block (mapAt s ip (w / 64)) (fun i => if i = w % 64 then v
        else words i) t)
        (fun _ u => Lettered s ip 0 w v u ip) fun _ _ => False) fun _ _ => False := by
  have hr := hs.stock.toReady
  have hu := hs.tree.usable _ (mapAt_inTree hr.form hw h0)
  have hin := (readable_words hm.pdp7).mp hu.2
  have hnofail : ∀ k, s.env.fails k ≠ true := fun k hf => by
    rw [hr.quiet] at hf
    cases hf
  refine hm.post_readWords (fun _ _ => ?_) (fun hout => absurd hin hout) fun hf => absurd hf (hnofail _)
  have hvol : SameVol s (ticked s) := ticked_sameVol s
  have hm1 := hm.of_sameVol hvol
  refine hm1.post_writeWords (fun _ _ => ?_) (fun hout => absurd ((wordsIn_of_sameVol hvol _).mpr hin)
    hout) fun hf => absurd hf (hnofail _)
  generalize hu' : putWords .block (mapAt s ip (w / 64)) (fun i => if i = w % 64 then v
    else wordsOf s.fs s.img (mapAt s ip (w / 64)) i) (ticked s) = u
  have hvu : SameVol s u := hu' ▸ sameVol_law.trans hvol (putWords_sameVol ..)
  have hfs : u.fs = s.fs := by
    rw [← hu']
    rfl
  have hhere : ∀ i, i < 64 → contents u (mapAt s ip (w / 64)) i = if i = w % 64 then word18 v
    else contents s (mapAt s ip (w / 64)) i := by
    intro i hi
    have hget : wordsOf s.fs u.img (mapAt s ip (w / 64)) i = word18 (if i = w % 64 then v
      else wordsOf s.fs s.img (mapAt s ip (w / 64)) i) := by
      rw [← hu']
      exact wordsOf_putWordBlock _ _ _ _ hi
    unfold contents
    rw [hfs, if_pos hm.pdp7, if_pos hi, if_pos hm.pdp7, if_pos hi, hget]
    split
    · rfl
    · exact Nat.mod_eq_of_lt (wordsOf_lt ..)
  obtain ⟨hjoined, hunit, hother⟩ := hs.overwrite hw h0 hvu hfs fun b hb =>
    (contents_words hm hvu).mpr fun i _ => by
    rw [← hu']
    exact congrFun (wordsOf_putWordBlock_ne hb _ _) i
  refine ⟨hjoined, fun x hx => ?_, by rw [hjoined.map _ hw h0]; exact h0⟩
  unfold wordAt
  by_cases hxw : x / 64 = w / 64
  · have hwas : unitAt s ip (w / 64) = contents s (mapAt s ip (w / 64)) := funext fun i => if_neg h0
    rw [hxw, hunit, hhere _ (Nat.mod_lt _ (by decide)), hwas]
    by_cases hx : x = w
    · rw [if_pos hx, if_pos (by rw [hx])]
    · rw [if_neg hx, if_neg (by omega)]
  · rw [hother _ hx hxw, if_neg fun he => hxw (by rw [he])]

/-- A word below the size limit is written, or a block for it is wanting. -/
theorem post_inodeWriteWord {s : Mnt} {l : Loc} (hp : s.fs.desc.ops = .pdp7) (hs : Stocked s l.ip)
    {w : Nat} (hw : w / 64 * s.fs.desc.bsize < maxFile s.fs.desc)
    (v : Nat) : Post (inodeWriteWord w v (s, l)) (fun _ t => t.2.bl = l.bl ∧
      Lettered s l.ip 5 w v t.1 t.2.ip) (fun _ t => Stunted s l 5 t) := by
  have hf := hs.stock.form
  have hlbn := lt_of_maxFile hf hw
  refine post_bind (post_failAs ((post_filsysBmap_sprouts hs hw).mono ?_ fun _ _ he => he))
  intro pbn t h
  obtain ⟨hmade, hgrown⟩ := h
  have hpbn : mapAt t.1 t.2.ip (w / 64) = pbn := hmade.here
  have hm : Mounted7 t.1 :=
    mounted_words hgrown.stocked.stock.volume (by rw [shape_desc hgrown.shape]; exact hp)
  have hblock := post_letterBlock hm hgrown.stocked hlbn (by rw [hpbn]; exact hmade.ne_zero) v
  rw [hpbn] at hblock
  refine post_ite (fun h0 => absurd h0 hmade.ne_zero) fun _ =>
    post_bind (post_outside (post_failAs (hblock.mono ?_ fun _ _ hfalse => hfalse.elim)))
  intro words u hput
  refine post_outside (hput.mono ?_ fun _ _ hfalse => hfalse.elim)
  intro _ x hlet
  refine ⟨hgrown.bl, hgrown.toJoined.trans hlet.toJoined, ?_, hlet.there⟩
  intro y hy
  rw [hlet.word y hy, Sprouted.wordAt hgrown.toSprouted hy]

/-- A word whose block is there is written. -/
theorem post_inodeWriteWord_mapped {s : Mnt} {l : Loc} (hp : s.fs.desc.ops = .pdp7)
    (hs : Stocked s l.ip) {w : Nat} (hw : w / 64 < 2 ^ 32)
    (h0 : mapAt s l.ip (w / 64) ≠ 0) (v : Nat) :
    Post (inodeWriteWord w v (s, l)) (fun _ t => t.2 = l ∧ Lettered s l.ip 0 w v t.1 l.ip) fun _ _ =>
    False := by
  refine post_bind (post_failAs ((post_filsysBmap_mapped hs.stock.toReady hs.tree hw h0).mono ?_
    fun _ _ hf => hf))
  intro pbn t h
  obtain ⟨rfl, k, rfl⟩ := h
  have hread := hs.read k
  have hm : Mounted7 { s with ios := k } := mounted_words hread.stocked.stock.volume hp
  refine post_ite (fun hz => absurd hz h0) fun _ =>
    post_bind (post_outside (post_failAs ((post_letterBlock hm hread.stocked hw h0 v).mono ?_
    fun _ _ hfalse => hfalse.elim)))
  intro words u hput
  refine post_outside (hput.mono ?_ fun _ _ hfalse => hfalse.elim)
  intro _ x hlet
  exact ⟨rfl, hread.toJoined.trans hlet.toJoined, hlet.word, hlet.there⟩

/-- Past the last indirect block there is no word to write. -/
theorem post_inodeWriteWord_far {s : Mnt} {l : Loc} (hf : Formed s.fs.desc) (hp : s.fs.desc.ops = .pdp7)
    {w : Nat} (hw : 448 ≤ w / 64) (v : Nat) :
    Post (inodeWriteWord w v (s, l)) (fun _ _ => False) fun _ _ => True := by
  have hslots := hf.slots
  rw [if_pos hp] at hslots
  simp only [slotsOf, pdp7Slots, Slots.mk.injEq] at hslots
  obtain ⟨-, h2, h3, h4, h5, h6, h7, -⟩ := hslots
  have hsearch : ∀ (t : Mnt × Loc), ¬ Small s.fs.desc t.2.ip.mode →
      Post (bmapSlot s.fs.desc (w / 64) true t.2.ip t) (fun _ _ => False) fun _ _ => True := by
    intro t hlarge
    have hmask := (not_small_iff.mp hlarge).resolve_left (by rw [h5]; decide)
    have hnone : findSlot s.fs.desc t.2.ip.mode (w / 64) s.fs.desc.niaddr 0 0 = none := by
      have hspan : ∀ i, i < 7 → slotSpan s.fs.desc (slotLevel s.fs.desc t.2.ip.mode i) = 64 := by
        intro i hi
        unfold slotLevel
        rw [if_pos ⟨by rw [h5]; decide, hmask⟩, h6, if_pos hi]
        simp [slotSpan, h2]
      rw [h4]
      simp only [findSlot, hspan 0 (by decide), hspan 1 (by decide), hspan 2 (by decide),
        hspan 3 (by decide), hspan 4 (by decide), hspan 5 (by decide),
        hspan 6 (by decide)]
      simp only [Nat.reduceAdd, Nat.reducePow, Nat.reduceMod]
      repeat rw [if_neg (by omega)]
    unfold bmapSlot
    rw [hnone]
    trivial
  refine post_bind (post_failAs ?_)
  rw [filsysBmap_eq]
  refine post_bind (post_onlyIf ?_ ?_)
  · intro hc
    have hpromote : Post (promote (s, l)) (fun _ t => ¬ Small s.fs.desc t.2.ip.mode) fun _ _ => True := by
      show Post ((up balloc >>= fun iblk =>
        up (failAs .eio (writeBlock iblk (promoteBuf s.fs.desc l.ip.addr s.fs.desc.ndaddr))) >>= fun _ =>
        modIp fun ip => promoted s.fs.desc ip iblk : MI Unit) (s, l)) _ _
      refine post_bind (post_outside ((post_true _).mono (fun b u _ => ?_) fun _ _ _ => trivial))
      refine post_bind (post_outside
        (post_failAs ((post_true _).mono (fun _ v _ hs => ?_) fun _ _ _ => trivial)))
      have hmode : (promoted s.fs.desc l.ip b).mode = l.ip.mode ||| s.fs.desc.ilargMask := rfl
      exact absurd hs.2 (by rw [hmode, has_or_self hc.1]; decide)
    exact hpromote.mono (fun _ t ht => (hsearch t ht).mono (fun _ _ hfalse => hfalse.elim) fun _ _ _ =>
      trivial) fun _ _ _ => trivial
  · intro hc
    refine (hsearch (s, l) fun hs => hc ⟨hs.1, by simpa using hs.2, rfl, by omega⟩).mono
      (fun _ _ hfalse => hfalse.elim) fun _ _ _ => trivial

end Filsys.Pdp7
