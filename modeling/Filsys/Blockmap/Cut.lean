/-
  Filsys.Blockmap.Cut — a file is cut, its record goes out and its blocks go back
  (filsys.c).

  A rollback and a shrinking truncate end the same way: the block map is cut at a block,
  the copy is written as the record, and what was collected is freed (`post_cutTo`). The
  record then names the blocks before the cut, they read as they did, and every block that
  was free or the file's is one or the other still.
-/

import Filsys.Blockmap.Record
import Filsys.Engine.Ops
import Filsys.Mount.Spaces

namespace Filsys.Blockmap

open Filsys.Lib Filsys.Engine Filsys.Alloc Filsys.Check Filsys.Tree

/-! ## Where records lie -/

/-- The block of record `n`. -/
def recBlk (fs : Fs) (n : Nat) : Nat := if fs.desc.ops = .pdp7 then p7Itod n else itod fs n

theorem recAt_of_contents {s t : Mnt} (hv : OnVolume s) (hvol : SameVol s t) {n : Nat}
    (h : contents t (recBlk s.fs n) = contents s (recBlk s.fs n)) :
    recAt t.fs t.img n = recAt s.fs s.img n := by
  rw [shape_recAt hvol.shape]
  unfold recBlk at h
  rcases hv with hm | hm
  · rw [if_neg hm.notPdp7] at h
    rw [recAt_bytes hm.notPdp7, recAt_bytes hm.notPdp7]
    exact recordOf_congr ((contents_bytes hm hvol).mp h)
  · rw [if_pos hm.pdp7] at h
    have hw := (contents_words hm hvol).mp h
    have hword : ∀ i, i < 12 →
      wordsOf s.fs t.img (p7Itod n) (p7Itoo n + i) = wordsOf s.fs s.img (p7Itod n) (p7Itoo n + i) := by
      intro i hi
      refine hw _ ?_
      unfold p7Itoo
      omega
    rw [recAt_words hm.pdp7, recAt_words hm.pdp7]
    unfold p7DecodeInode
    simp only []
    rw [hword 0 (by decide), hword 8 (by decide), hword 9 (by decide), hword 10 (by decide)]
    congr 1
    funext i
    split
    · exact hword (1 + i) (by omega)
    · rfl

/-- A record lies past the superblock and before the data area. -/
theorem Numbered.lies {s : Mnt} (hv : OnVolume s) {n : Nat} (h : Numbered s n) :
    Lies s (recBlk s.fs n) ∧ ¬ InArea s.fs (recBlk s.fs n) := by
  unfold Numbered at h
  unfold recBlk
  rcases hv with hm | hm
  · rw [if_neg hm.notPdp7] at h ⊢
    obtain ⟨hlo, hhi⟩ := hm.itod_bounds h
    refine ⟨⟨hlo, if_neg hm.notPdp7⟩, fun hin => ?_⟩
    have := hin.1
    omega
  · rw [if_pos hm.pdp7] at h ⊢
    obtain ⟨-, hmax, hin⟩ := h
    have hitod : p7Itod n < p7Datastart ∧ 2 ≤ p7Itod n := by
      unfold p7Itod p7Datastart
      unfold p7Maxino at hmax
      omega
    refine ⟨⟨hitod.2, (readable_words hm.pdp7).mpr hin⟩, fun harea => ?_⟩
    have hstart : opsDataStart s.fs = p7Datastart := by
      unfold opsDataStart
      rw [hm.pdp7]
    have := harea.1
    omega

/-- On a volume laid out as it says no block of the data area is lost on its way back. -/
theorem returns_of_laid {fs : Fs} (h : Mount.Laid fs) {b : Nat} (hb : DataBlock fs b) : Returns fs b := by
  intro ha
  obtain ⟨hops, hlist, -, hcount⟩ := h.kind.map ha
  have hstart : opsDataStart fs = fs.isize := by
    unfold opsDataStart v7DataFirst
    rw [hops, if_neg (by simp [hcount])]
    rfl
  have hend : opsDataEnd fs ≤ fs.fsize := by
    unfold opsDataEnd
    rw [hops]
    exact Nat.sub_le _ _
  have hextent := h.extent hlist
  have hlo := hb.1
  have hhi := hb.2
  refine ⟨?_, by omega⟩
  cases hm : fs.desc.freemap with
  | list => exact absurd hm hlist
  | bitmap =>
    rw [h.bitmap hm]
    omega
  | bigmap =>
    rw [h.bigmap hm]
    exact Nat.zero_le b

/-! ## The cut -/

/-- Cut the block map of `ip` at block `k`, write the copy as record `n` with what `g` makes of it, free
    what was cut off. -/
def cutTo (k n : Nat) (g : Inode → Inode) (ip : Inode) : M Unit := do
  let (rc, l) ← collectOn ip (filsysItruncFrom k)
  match rc with
  | .error e => throw e
  | .ok _ =>
    writeInode n (g l.ip)
    blklistDrain l.bl

/-- What a cut leaves: record `n` is the file up to block `k`. -/
structure CutAt (s : Mnt) (ip : Inode) (n k len : Nat) (u : Mnt) : Prop extends SameVol s u where
  stocked : Stocked u (recAt u.fs u.img n)
  mode : (recAt u.fs u.img n).mode = ip.mode
  length : (recAt u.fs u.img n).size = keptSize s.fs.desc len
  map : ∀ j, j < 2 ^ 32 → mapAt u (recAt u.fs u.img n) j = if j < k then mapAt s ip j else 0
  unit : ∀ j, j < k → j < 2 ^ 32 → ∀ i, unitAt u (recAt u.fs u.img n) j i = unitAt s ip j i
  none_new : ∀ x, Free u x ∨ InTree u (recAt u.fs u.img n) x → Free s x ∨ InTree s ip x
  all : s.fs.desc.ops ≠ .pdp7 → Mount.Laid s.fs → ∀ x, Free s x ∨ InTree s ip x →
    Free u x ∨ InTree u (recAt u.fs u.img n) x
  same : ∀ c, Usable s c → ¬ Free s c → ¬ InTree s ip c → contents u c = contents s c
  others : s.fs.desc.ops ≠ .pdp7 → ∀ m, Numbered s m → m ≠ n → recAt u.fs u.img m = recAt s.fs s.img m

/-- A byte of the file that is left. -/
theorem CutAt.byte {s u : Mnt} {ip : Inode} {n k size : Nat} (h : CutAt s ip n k size u)
    {o : Nat} (ho : Mappable s.fs o) :
    byteAt u (recAt u.fs u.img n) o = if o / s.fs.desc.bsize < k then byteAt s ip o else 0 := by
  have hd := shape_desc h.shape
  split
  · rename_i hlt
    have hunit : unitAt u (recAt u.fs u.img n) (o / s.fs.desc.bsize) =
      unitAt s ip (o / s.fs.desc.bsize) := funext fun i => h.unit _ hlt ho i
    unfold byteAt
    rw [hd, hunit]
  · rename_i hge
    apply byteAt_hole
    rw [hd, h.map _ ho, if_neg hge]

theorem post_cutTo {s : Mnt} (hs : Sited s) {n : Nat} (hn : Numbered s n) {ip : Inode}
    (hst : Stocked s ip) (hmode : ip.mode < modeEnd s.fs.desc) (k : Nat)
    (g : Inode → Inode) (size : Nat) (hg : ∀ ip : Inode, (g ip).mode = ip.mode ∧ (g ip).addr = ip.addr)
    (hsize : ∀ ip' : Inode, ip' = { ip with addr := ip'.addr } → (g ip').size = size) :
    Post (cutTo k n g ip s) (fun _ u => CutAt s ip n k size u) fun _ _ => False := by
  have hv := hs.volume
  refine post_bind (post_inside ((post_filsysItruncFrom_trims (l := ⟨ip, []⟩) hst k).mono ?_ fun _ _ hf => hf))
  intro _ r h
  obtain ⟨t, l⟩ := r
  obtain ⟨L, ht⟩ := h
  have hvt : SameVol s t := ht.toSameVol
  have hst' : Stocked t l.ip := ht.stocked
  have hdt : t.fs.desc = s.fs.desc := shape_desc hvt.shape
  obtain ⟨hgmode, hgaddr⟩ := hg l.ip
  have hmode' : (g l.ip).mode = ip.mode := by
    have hkin : l.ip = { ip with addr := l.ip.addr } := ht.kin
    rw [hgmode, hkin]
  have hwrite := post_writeInode_records (hs.of_stock hvt hst'.stock) ((numbered_of_sameVol hvt).mpr hn)
    (g l.ip)
  refine post_bind (hwrite.mono ?_ fun _ _ hf => hf)
  intro _ v hvrec
  have hvv := sameVol_law.trans hvt hvrec.toSameVol
  -- the record is the copy
  have htwin : Twin t.fs.desc l.ip (recAt v.fs v.img n) := by
    constructor
    · rw [hvrec.mode, hgmode]
      apply Nat.mod_eq_of_lt
      rw [hdt, ← hgmode, hmode']
      exact hmode
    · intro i hi
      rw [hvrec.addr i hi, hgaddr]
      rw [hgaddr]
      by_cases h0 : l.ip.addr i = 0
      · exact .inl h0
      · exact .inr (hst'.tree.usable _ ⟨h0, [i], place_slot hi, rfl⟩).1
  have hwas : ∀ b, InTree t l.ip b → contents v b = contents t b :=
    fun b hb => hvrec.same b (hst'.tree.usable b hb)
  have hsteady : Steady t l.ip v := hst'.steady hvrec.toSameVol fun c h0 hc => hwas c (hc.inTree h0)
  have hdv : v.fs.desc = t.fs.desc := shape_desc hvrec.shape
  have htwin' : Twin v.fs.desc l.ip (recAt v.fs v.img n) := by
    rw [hdv]
    exact htwin
  have hstv : Stocked v l.ip := hsteady.stocked hst' hvrec.stock hvrec.free
  have hinv : ∀ b, InTree v (recAt v.fs v.img n) b ↔ InTree t l.ip b :=
    fun b => htwin'.inTree.trans hsteady.inTree
  have hbl : l.bl = L := by
    have := ht.bl
    rwa [List.nil_append] at this
  -- what was collected is neither free nor left in the file
  have hmem : ∀ b, InTree s ip b ↔ b ∈ L ∨ InTree t l.ip b := by
    intro b
    rw [← mem_blocks, ← mem_blocks, ← ht.perm.mem_iff, List.mem_append]
  have hnd : (L ++ blocks t l.ip).Nodup := ht.perm.nodup_iff.mpr (nodup_blocks.mpr hst.tree.unshared)
  obtain ⟨hLnd, -, hdis⟩ := List.nodup_append'.mp hnd
  have hL : ∀ b ∈ L, Usable v b ∧ ¬ Free v b := by
    intro b hb
    have hin := (hmem b).mpr (.inl hb)
    refine ⟨(usable_of_sameVol hvv).mpr (hst.tree.usable b hin), fun hf => hst.apart b hin ?_⟩
    exact (ht.free b).mp ((hvrec.free b).mp hf)
  rw [show (⟨t, l⟩ : Mnt × Loc).2.bl = L from hbl]
  refine (post_drain_stock L hvrec.stock hLnd hL).mono ?_ fun _ _ hf => hf
  intro _ u hu
  have hvu := sameVol_law.trans hvv hu.toSameVol
  have hdu : u.fs.desc = v.fs.desc := shape_desc hu.shape
  -- freeing writes free blocks only
  have hkeep : ∀ m, Numbered v m → recAt u.fs u.img m = recAt v.fs v.img m := by
    intro m hm
    obtain ⟨hlies, hout⟩ := Numbered.lies hvrec.stock.volume hm
    refine recAt_of_contents hvrec.stock.volume hu.toSameVol (hu.same _ hlies ?_ ?_)
    · intro hf
      exact hout (hvrec.stock.usable hf).1
    · intro hb
      exact hout (hL _ hb).1.1
  have hrec := hkeep n ((numbered_of_sameVol hvv).mpr hn)
  have hfreeu : ∀ x, Free u x → Free s x ∨ x ∈ L := fun x hx => (hu.free x hx).imp_left fun hf =>
    (ht.free x).mp ((hvrec.free x).mp hf)
  have happart : ∀ b, InTree t l.ip b → ¬ Free u b := by
    intro b hb hf
    rcases hfreeu b hf with hf | hf
    · exact hst.apart b ((hmem b).mpr (.inr hb)) hf
    · exact hdis hf (mem_blocks.mpr hb)
  have hcont : ∀ b, InTree t l.ip b → contents u b = contents v b := fun b hb =>
    hu.same b (((usable_of_sameVol hvrec.toSameVol).mpr (hst'.tree.usable b hb)).lies hvrec.stock.volume)
      (fun hf => hst'.apart b hb ((hvrec.free b).mp hf)) fun hmemL => hdis hmemL (mem_blocks.mpr hb)
  have hsteadyu : Steady v (recAt v.fs v.img n) u := (htwin'.stocked hstv).steady hu.toSameVol
    fun c h0 hc => hcont c ((hinv c).mp (hc.inTree h0))
  have hinu : ∀ b, InTree u (recAt u.fs u.img n) b ↔ InTree t l.ip b := by
    intro b
    rw [hrec]
    exact hsteadyu.inTree.trans (hinv b)
  have hf := hs.form
  have hft : Formed t.fs.desc := by rw [hdt]; exact hf
  have hfv : Formed v.fs.desc := by rw [hdv]; exact hft
  have hmap : ∀ j, j < 2 ^ 32 → mapAt u (recAt u.fs u.img n) j = mapAt t l.ip j := by
    intro j hj
    rw [hrec, hsteadyu.mapAt hfv hj, htwin'.mapAt hfv hj, hsteady.mapAt hft hj]
  refine ⟨hvu, ⟨hu.stock, ?_, fun b hb => happart b ((hinu b).mp hb), ?_⟩, ?_, ?_, fun j hj => ?_,
    fun j hlt hj i => ?_, fun x hx => ?_,
    fun hp hlaid x hx => ?_, fun c hc hfc hin => ?_, fun hp m hm hne => ?_⟩
  · rw [hrec]
    exact hsteadyu.tree (htwin'.tree hstv.tree)
  · rw [hrec, hdu]
    exact (htwin'.stocked hstv).within
  · rw [hrec, hvrec.mode, hmode', hdt]
    exact Nat.mod_eq_of_lt hmode
  · rw [hrec, hvrec.length, hdt, hsize l.ip ht.kin]
  · rw [hmap j hj]
    exact ht.map j hj
  · have hj0 := hmap j hj
    rw [← ht.unit j hlt hj i]
    unfold unitAt
    rw [hj0]
    split
    · rfl
    · rename_i h0
      have hin := mapAt_inTree hft hj h0
      rw [hcont _ hin, hwas _ hin]
  · rcases hx with hx | hx
    · rcases hfreeu x hx with hx | hx
      · exact .inl hx
      · exact .inr ((hmem x).mpr (.inl hx))
    · exact .inr ((hmem x).mpr (.inr ((hinu x).mp hx)))
  · have hback : ∀ b ∈ L, Returns v.fs b := fun b hb =>
      (shape_returns hvv.shape).mpr (returns_of_laid hlaid (hst.tree.usable b ((hmem b).mpr (.inl hb))).1)
    have hall := hu.all (by rw [shape_desc hvv.shape]; exact hp) hback x
    rcases hx with hx | hx
    · exact .inl (hall (.inl ((hvrec.free x).mpr ((ht.free x).mpr hx))))
    · rcases (hmem x).mp hx with hx | hx
      · exact .inl (hall (.inr hx))
      · exact .inr ((hinu x).mpr hx)
  · have hct := ht.same c hin (hs.area_pos hc.1)
    have hcv := hvrec.same c ((usable_of_sameVol hvt).mpr hc)
    refine (hu.same c (((usable_of_sameVol hvv).mpr hc).lies hvrec.stock.volume)
      (fun hx => hfc ((ht.free c).mp ((hvrec.free c).mp hx))) fun hx =>
      hin ((hmem c).mpr (.inl hx))).trans (hcv.trans hct)
  · have hmv := (numbered_of_sameVol hvv).mpr hm
    obtain ⟨hlies, hout⟩ := Numbered.lies hv hm
    have hm0 : m ≠ 0 := by
      unfold Numbered at hm
      rw [if_neg hp] at hm
      exact hm.1
    rw [hkeep m hmv, hvrec.others (by rw [hdt]; exact hp) m hm0 hne]
    refine recAt_of_contents hv hvt (ht.same _ (fun hin => hout (hst.tree.usable _ hin).1) ?_)
    have := hlies.1
    omega

end Filsys.Blockmap
