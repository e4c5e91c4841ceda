/-
  Filsys.Tree.Drop — the blocks of a file that goes away (blocktree.c, filsys.c).

  `filsysItrunc` reads a file's tree and lists its blocks, children before their indirect
  block: `fileBlocks` is that list. They are held for places of the one inode, each for
  another place, so once the record is out with mode 0 nothing holds them and each can go
  back exactly once (`post_inodeDestroy`).

  V1 keeps its free inodes in a map in core; `MapTrue` says that a clear bit is a dead
  record's.
-/

import Filsys.Engine.Keep
import Filsys.Engine.Ops
import Filsys.Tree.Write

namespace Filsys.Tree

open Filsys.Lib Filsys.Engine Filsys.Alloc

/-! ## Live inodes -/

/-- The record of `n` on the image is live. -/
def Live (fs : Fs) (img : Buf) (n : Nat) : Prop := inodeLive fs.desc ((recordOf fs img n).mode % 65536) = true

instance (fs : Fs) (img : Buf) (n : Nat) : Decidable (Live fs img n) := inferInstanceAs (Decidable (_ = true))

theorem live_congr {fs : Fs} {img img' : Buf} {n : Nat} (h : recordOf fs img' n = recordOf fs img n) :
    Live fs img' n ↔ Live fs img n := by
  unfold Live
  rw [h]

theorem shape_live {fs fs' : Fs} (h : shape fs' = shape fs) : Live fs' = Live fs := by
  funext img n
  unfold Live
  rw [shape_desc h, shape_recordOf h]

theorem not_live_zero {fs : Fs} {img : Buf} {n : Nat} (h : (recordOf fs img n).mode = 0) : ¬ Live fs img n := by
  unfold Live inodeLive
  rw [h]
  split <;> simp [has]

/-- V1's inode map has the bit of every live inode. -/
def MapTrue (s : Mnt) : Prop :=
  s.fs.desc.ops = .v1 → ∀ n, 41 ≤ n → n ≤ s.fs.maxino → getBit s.fs.inodemap (n - 41) = false →
    ¬ Live s.fs s.img n

/-- The map stays true while no record of an inode without a bit comes to life. -/
theorem MapTrue.frame {s t : Mnt} (h : MapTrue s) (hv : SameVol s t)
    (hmap : ∀ i, getBit t.fs.inodemap i = false → getBit s.fs.inodemap i = false ∨ ¬ Live s.fs t.img (i + 41))
    (hrec : ∀ n, ValidIno s.fs n → getBit t.fs.inodemap (n - 41) = false → Live s.fs t.img n →
      Live s.fs s.img n) : MapTrue t := by
  intro hops n h1 h2 hbit hlive
  have hmax : t.fs.maxino = s.fs.maxino := congrArg Shape.maxino hv.shape
  rw [shape_desc hv.shape] at hops
  rw [shape_live hv.shape] at hlive
  rw [hmax] at h2
  rcases hmap _ hbit with hb | hb
  · exact h hops n h1 h2 hb (hrec n ⟨by omega, by rw [if_pos hops]; exact h2⟩ hbit hlive)
  · rw [Nat.sub_add_cancel h1] at hb
    exact hb hlive

/-! ## Lists of blocks -/

/-- The blocks an indirect block names. -/
def kids (fs : Fs) (img : Buf) (b : Nat) : List Nat :=
  ((List.range fs.desc.nindir).map (entryOf fs img b)).filter (· ≠ 0)

/-- The blocks below an indirect block of level `l`, and the block. -/
def subtree (fs : Fs) (img : Buf) : Nat → Nat → List Nat
  | 0, b => kids fs img b ++ [b]
  | l + 1, b => (kids fs img b).flatMap (subtree fs img l) ++ [b]

/-- The blocks of the slot at that level which names `a`. -/
def slotBlocks (fs : Fs) (img : Buf) (level : Option Nat) (a : Nat) : List Nat :=
  match level with
  | none => [a]
  | some l => subtree fs img l a

/-- The blocks of the slots below `i`, the last slot's first. -/
def fileBlocks (fs : Fs) (img : Buf) (ip : Inode) : Nat → List Nat
  | 0 => []
  | i + 1 =>
    (if ip.addr i = 0 then [] else slotBlocks fs img (slotLevel fs.desc ip.mode i) (ip.addr i)) ++
      fileBlocks fs img ip i

theorem mem_kids {fs : Fs} {img : Buf} {b c : Nat} :
    c ∈ kids fs img b ↔ c ≠ 0 ∧ ∃ i, i < fs.desc.nindir ∧ entryOf fs img b i = c := by
  unfold kids
  rw [List.mem_filter, List.mem_map]
  constructor
  · intro h
    obtain ⟨⟨i, hi, rfl⟩, h0⟩ := h
    exact ⟨by simpa using h0, i, List.mem_range.mp hi, rfl⟩
  · intro h
    obtain ⟨h0, i, hi, rfl⟩ := h
    exact ⟨⟨i, List.mem_range.mpr hi, rfl⟩, by simpa using h0⟩

/-- Blocks held for places of `n` below `p`, none listed twice. -/
structure Within (own : Own) (n : Nat) (p : List Nat) (L : List Nat) : Prop where
  nodup : L.Nodup
  held : ∀ b ∈ L, ∃ q, own b = some (n, p ++ q)

namespace Within

variable {own : Own} {n : Nat} {p p' : List Nat} {L L' : List Nat}

theorem nil : Within own n p [] := ⟨List.nodup_nil, fun _ h => absurd h List.not_mem_nil⟩

theorem one {b : Nat} (h : own b = some (n, p)) : Within own n p [b] := by
  refine ⟨List.nodup_singleton b, fun x hx => ⟨[], ?_⟩⟩
  rw [List.mem_singleton.mp hx, List.append_nil]
  exact h

theorem up {r : List Nat} (h : Within own n (p ++ r) L) : Within own n p L := by
  refine ⟨h.nodup, fun b hb => ?_⟩
  obtain ⟨q, hq⟩ := h.held b hb
  exact ⟨r ++ q, by rw [hq, List.append_assoc]⟩

/-- Lists under places of which neither lies below the other. -/
theorem append (h : Within own n p L) (h' : Within own n p L') (hd : ∀ b, b ∈ L → b ∉ L') :
    Within own n p (L ++ L') := by
  refine ⟨List.nodup_append'.mpr ⟨h.nodup, h'.nodup, fun b hb hb' => hd b hb hb'⟩, fun b hb => ?_⟩
  rcases List.mem_append.mp hb with hb | hb
  · exact h.held b hb
  · exact h'.held b hb

end Within

/-- One list per entry, each below the entry's place. -/
theorem within_flatMap {own : Own} {n : Nat} {p : List Nat} {ent : Nat → Nat} {g : Nat → List Nat}
    (is : List Nat) (hnd : is.Nodup) (hg : ∀ i ∈ is, ent i ≠ 0 → Within own n (p ++ [i]) (g (ent i))) :
    Within own n p (((is.map ent).filter (· ≠ 0)).flatMap g) ∧
      ∀ b ∈ ((is.map ent).filter (· ≠ 0)).flatMap g, ∃ i ∈ is, ∃ q, own b = some (n, p ++ [i] ++ q) := by
  induction is with
  | nil => exact ⟨.nil, fun _ h => absurd h List.not_mem_nil⟩
  | cons i is ih =>
    obtain ⟨hi, hnd'⟩ := List.nodup_cons.mp hnd
    obtain ⟨hw, hpl⟩ := ih hnd' fun j hj => hg j (List.mem_cons_of_mem _ hj)
    rw [List.map_cons]
    by_cases h0 : ent i = 0
    · rw [List.filter_cons_of_neg (by simpa using h0)]
      refine ⟨hw, fun b hb => ?_⟩
      obtain ⟨j, hj, q, hq⟩ := hpl b hb
      exact ⟨j, List.mem_cons_of_mem _ hj, q, hq⟩
    · rw [List.filter_cons_of_pos (by simpa using h0), List.flatMap_cons]
      have hwi := hg i List.mem_cons_self h0
      refine ⟨hwi.up.append hw fun b hb hb' => ?_, fun b hb => ?_⟩
      · obtain ⟨q, hq⟩ := hwi.held b hb
        obtain ⟨j, hj, q', hq'⟩ := hpl b hb'
        rw [hq] at hq'
        have heq : i :: q = j :: q' := by simpa using hq'
        exact hi ((List.cons.inj heq).1 ▸ hj)
      · rcases List.mem_append.mp hb with hb | hb
        · obtain ⟨q, hq⟩ := hwi.held b hb
          exact ⟨i, List.mem_cons_self, q, hq⟩
        · obtain ⟨j, hj, q, hq⟩ := hpl b hb
          exact ⟨j, List.mem_cons_of_mem _ hj, q, hq⟩

section Held

variable {s : Mnt} {own : Own} (h : Owned s own)

include h

/-- What lies below a held indirect block is held for the places below its own. -/
theorem within_subtree (l : Nat) : ∀ {n slot : Nat} {pre : List Nat} {b : Nat}, own b = some (n, slot :: pre) →
    pre.length + (l + 1) = cdepth s.fs.desc slot → Within own n (slot :: pre) (subtree s.fs s.img l b) := by
  have hself : ∀ {n : Nat} {p L : List Nat} {b : Nat}, own b = some (n, p) → Within own n p L →
      (∀ c ∈ L, ∃ i q, own c = some (n, p ++ [i] ++ q)) → Within own n p (L ++ [b]) := by
    intro n p L b hb hL hpl
    refine hL.append (.one hb) fun c hc hcb => ?_
    rw [List.mem_singleton.mp hcb] at hc
    obtain ⟨i, q, hq⟩ := hpl b hc
    rw [hb] at hq
    have hlen := congrArg List.length (Prod.mk.inj (Option.some.inj hq)).2
    simp at hlen
  induction l with
  | zero =>
    intro n slot pre b hb hlen
    have hent : ∀ i ∈ List.range s.fs.desc.nindir, entryOf s.fs s.img b i ≠ 0 →
        Within own n (slot :: pre ++ [i]) [entryOf s.fs s.img b i] := fun i hi h0 =>
      .one (h.tree b n slot pre hb (by omega) i (List.mem_range.mp hi) h0)
    obtain ⟨hw, hpl⟩ := @within_flatMap own n (slot :: pre) _ (fun c => [c]) _ List.nodup_range hent
    rw [List.flatMap_singleton'] at hw hpl
    refine hself hb hw fun c hc => ?_
    obtain ⟨i, -, q, hq⟩ := hpl c hc
    exact ⟨i, q, hq⟩
  | succ l ih =>
    intro n slot pre b hb hlen
    have hent : ∀ i ∈ List.range s.fs.desc.nindir, entryOf s.fs s.img b i ≠ 0 →
        Within own n (slot :: pre ++ [i]) (subtree s.fs s.img l (entryOf s.fs s.img b i)) := by
      intro i hi h0
      have hnext := h.tree b n slot pre hb (by omega) i (List.mem_range.mp hi) h0
      have hdeep : (pre ++ [i]).length + (l + 1) = cdepth s.fs.desc slot := by
        rw [List.length_append, List.length_singleton]
        omega
      exact ih hnext hdeep
    obtain ⟨hw, hpl⟩ := within_flatMap _ List.nodup_range hent
    refine hself hb hw fun c hc => ?_
    obtain ⟨i, -, q, hq⟩ := hpl c hc
    exact ⟨i, q, hq⟩

variable {n : Nat} {ip : Inode} (hv : View s.fs.desc own n ip)

include hv

theorem within_slot {i : Nat} (hi : i < s.fs.desc.niaddr) (h0 : ip.addr i ≠ 0) :
    Within own n (croot s.fs.desc ip.mode i)
    (slotBlocks s.fs s.img (slotLevel s.fs.desc ip.mode i) (ip.addr i)) := by
  have hown := hv i hi h0
  cases hl : slotLevel s.fs.desc ip.mode i with
  | none => exact .one hown
  | some l =>
    have hs : ¬ Small s.fs.desc ip.mode := by
      intro hs
      rw [depth_small (h.layout.promoting hs.1) hs hi] at hl
      cases hl
    rw [show croot s.fs.desc ip.mode i = [i] from if_neg hs] at hown ⊢
    refine within_subtree h l hown ?_
    rw [← depth_large hs, depth, hl, List.length_nil, Nat.zero_add]

omit h hv in
/-- Different slots have different places. -/
theorem croot_inj {d : Desc} {mode i j : Nat} {q q' : List Nat}
    (he : croot d mode i ++ q = croot d mode j ++ q') : i = j := by
  unfold croot at he
  split at he
  · exact (List.cons.inj (List.cons.inj he).2).1
  · exact (List.cons.inj he).1

theorem fileBlocks_held (i : Nat) (hi : i ≤ s.fs.desc.niaddr) : (fileBlocks s.fs s.img ip i).Nodup ∧
    ∀ b ∈ fileBlocks s.fs s.img ip i, ∃ j q, j < i ∧ own b = some (n, croot s.fs.desc ip.mode j ++ q) := by
  induction i with
  | zero => exact ⟨List.nodup_nil, fun _ h => absurd h List.not_mem_nil⟩
  | succ i ih =>
    obtain ⟨hnd, hheld⟩ := ih (by omega)
    have hlater : ∀ b ∈ fileBlocks s.fs s.img ip i, ∃ j q, j < i + 1 ∧
      own b = some (n, croot s.fs.desc ip.mode j ++ q) := by
      intro b hb
      obtain ⟨j, q, hj, hq⟩ := hheld b hb
      exact ⟨j, q, by omega, hq⟩
    unfold fileBlocks
    by_cases h0 : ip.addr i = 0
    · rw [if_pos h0, List.nil_append]
      exact ⟨hnd, hlater⟩
    · rw [if_neg h0]
      have hw := within_slot h hv (by omega) h0
      refine ⟨List.nodup_append'.mpr ⟨hw.nodup, hnd, ?_⟩, ?_⟩
      · intro b hb hb'
        obtain ⟨q, hq⟩ := hw.held b hb
        obtain ⟨j, q', hj, hq'⟩ := hheld b hb'
        rw [hq] at hq'
        have := croot_inj (Prod.mk.inj (Option.some.inj hq')).2
        omega
      · intro b hb
        rcases List.mem_append.mp hb with hb | hb
        · obtain ⟨q, hq⟩ := hw.held b hb
          exact ⟨i, q, Nat.lt_succ_self i, hq⟩
        · exact hlater b hb

end Held

/-! ## Collecting -/

/-- `x` only reads, and appends `L` to the list; where a read fails it has appended a beginning of `L`. -/
def Gathers (s : Mnt) (x : MI Unit) (L : List Nat) : Prop := ∀ t l, Looked s t →
  Post (x (t, l)) (fun _ u => Looked s u.1 ∧ u.2 = { l with bl := l.bl ++ L })
    (fun _ u => Fault s ∧ Looked s u.1 ∧ ∃ P, P <+: L ∧ u.2 = { l with bl := l.bl ++ P })

section Gathers

variable {s : Mnt} {x y : MI Unit} {L L' : List Nat}

theorem gathers_pure : Gathers s (pure ()) [] := by
  intro t l ht
  exact ⟨ht, by simp⟩

theorem gathers_push (b : Nat) : Gathers s (pushBl b) [b] := fun _ _ ht => ⟨ht, rfl⟩

theorem gathers_seq (hx : Gathers s x L) (hy : Gathers s y L') : Gathers s (x >>= fun _ => y) (L ++ L') := by
  intro t l ht
  refine post_bind ((hx t l ht).mono ?_ ?_)
  · intro _ r h
    obtain ⟨u, l'⟩ := r
    obtain ⟨hu, rfl⟩ := h
    refine (hy u _ hu).mono ?_ ?_
    · intro _ v h
      obtain ⟨hv, hl⟩ := h
      exact ⟨hv, by rw [hl, List.append_assoc]⟩
    · intro _ v h
      obtain ⟨hf, hv, P, hP, hl⟩ := h
      exact ⟨hf, hv, L ++ P, (List.prefix_append_right_inj L).mpr hP, by rw [hl, List.append_assoc]⟩
  · intro _ v h
    obtain ⟨hf, hv, P, hP, hl⟩ := h
    exact ⟨hf, hv, P, hP.trans (List.prefix_append L L'), hl⟩

theorem gathers_failAs {e : Errno} (hx : Gathers s x L) : Gathers s (failAs e x) L :=
  fun t l ht => post_failAs (hx t l ht)

theorem gathers_forEntries {f : Nat → MI Unit} {g : Nat → List Nat} (nbs : List Nat)
    (hf : ∀ nb ∈ nbs, nb ≠ 0 → Gathers s (f nb) (g nb)) :
    Gathers s (forEntries f nbs) ((nbs.filter (· ≠ 0)).flatMap g) := by
  induction nbs with
  | nil => exact gathers_pure
  | cons nb nbs ih =>
    have hrest := ih fun c hc => hf c (List.mem_cons_of_mem _ hc)
    show Gathers s (onlyIf (nb ≠ 0) (f nb) >>= fun _ => forEntries f nbs) _
    unfold onlyIf
    by_cases h0 : nb = 0
    · rw [if_neg (by simpa using h0), List.filter_cons_of_neg (by simpa using h0)]
      exact gathers_seq gathers_pure hrest
    · rw [if_pos h0, List.filter_cons_of_pos (by simpa using h0), List.flatMap_cons]
      exact gathers_seq (hf nb List.mem_cons_self h0) hrest

theorem gathers_with {own : Own} (h : Owned s own) {child : Nat → MI Unit} {g : Nat → List Nat}
    {b : Nat} {x : Nat × List Nat} (hb : own b = some x)
    (hc : ∀ c ∈ kids s.fs s.img b, Gathers s (child c) (g c)) :
    Gathers s (collectWith child b) ((kids s.fs s.img b).flatMap g ++ [b]) := by
  have hb0 : b ≠ 0 := by
    have := h.two_le hb
    omega
  intro t l ht
  have hot := ht.owned h
  show Post ((if b = 0 then pure () else up getFs >>= fun fs => up (failAs .eio (readBlock b)) >>= fun buf =>
    forEntries child (entries fs.desc buf) >>= fun _ => pushBl b : MI Unit) (t, l)) _ _
  rw [if_neg hb0]
  refine post_bind (post_outside (post_bind (post_outside (post_failAs ?_))))
  show Post (readBlock b t) _ _
  rw [hot.mounted.readBlock_eq]
  refine hot.mounted.post_read ((hot.data b _ hb).lt_fsize hot.mounted) ?_ ?_
  · intro _
    have hents : entries t.fs.desc (blockOf t.fs t.img b) =
      (List.range s.fs.desc.nindir).map (entryOf s.fs s.img b) := by
      rw [ht.fs, ht.img]
      rfl
    have hkids : ∀ c ∈ (List.range s.fs.desc.nindir).map (entryOf s.fs s.img b), c ≠ 0 →
      Gathers s (child c) (g c) := by
      intro c hc' h0
      exact hc c (List.mem_filter.mpr ⟨hc', by simpa using h0⟩)
    show Post ((forEntries child (entries t.fs.desc (blockOf t.fs t.img b)) >>= fun _ => pushBl b :
      MI Unit) (ticked t, l)) _ _
    rw [hents]
    exact gathers_seq (gathers_forEntries _ hkids) (gathers_push b) (ticked t) l
      (looked_law.trans ht (looked_ticked t))
  · intro hf _
    refine ⟨ht.fault ⟨_, hf⟩, looked_law.trans ht (looked_ticked t), [], List.nil_prefix, ?_⟩
    rw [List.append_nil]

theorem gathers_subtree {own : Own} (h : Owned s own) (l : Nat) :
    ∀ {n slot : Nat} {pre : List Nat} {b : Nat}, own b = some (n, slot :: pre) →
    pre.length + (l + 1) = cdepth s.fs.desc slot → Gathers s (collectSubtree l b) (subtree s.fs s.img l b) := by
  induction l with
  | zero =>
    intro n slot pre b hb hlen
    have := gathers_with h hb fun c _ => gathers_push (s := s) c
    rw [List.flatMap_singleton'] at this
    exact this
  | succ l ih =>
    intro n slot pre b hb hlen
    refine gathers_with h hb fun c hc => gathers_failAs ?_
    obtain ⟨h0, i, hi, rfl⟩ := mem_kids.mp hc
    have hnext := h.tree b n slot pre hb (by omega) i hi h0
    have hdeep : (pre ++ [i]).length + (l + 1) = cdepth s.fs.desc slot := by
      rw [List.length_append, List.length_singleton]
      omega
    exact ih hnext hdeep

theorem gathers_slot {own : Own} (h : Owned s own) {n : Nat} {ip : Inode} (hv : View s.fs.desc own n ip)
    {i : Nat} (hi : i < s.fs.desc.niaddr)
    (h0 : ip.addr i ≠ 0) :
    Gathers s (collectSlot (slotLevel s.fs.desc ip.mode i) (ip.addr i))
    (slotBlocks s.fs s.img (slotLevel s.fs.desc ip.mode i) (ip.addr i)) := by
  have hown := hv i hi h0
  cases hl : slotLevel s.fs.desc ip.mode i with
  | none => exact gathers_push _
  | some l =>
    have hs : ¬ Small s.fs.desc ip.mode := by
      intro hs
      rw [depth_small (h.layout.promoting hs.1) hs hi] at hl
      cases hl
    rw [show croot s.fs.desc ip.mode i = [i] from if_neg hs] at hown
    refine gathers_failAs (gathers_subtree h l hown ?_)
    rw [← depth_large hs, depth, hl, List.length_nil, Nat.zero_add]

end Gathers

/-- The copy with the slots below `i` cleared. -/
def clearedTo (ip : Inode) (i : Nat) : Inode := { ip with addr := fun k => if k < i then 0 else ip.addr k }

theorem clearedTo_succ {ip ip' : Inode} {i : Nat}
    (h : ip' = ip.setAddr i 0 ∨ ip' = ip ∧ ip.addr i = 0) : clearedTo ip' i = clearedTo ip (i + 1) := by
  have haddr : ∀ k, (if k < i then 0 else ip'.addr k) = if k < i + 1 then 0 else ip.addr k := by
    intro k
    by_cases hk : k < i
    · rw [if_pos hk, if_pos (by omega)]
    · rw [if_neg hk]
      by_cases hki : k = i
      · subst hki
        rw [if_pos (Nat.lt_succ_self k)]
        rcases h with rfl | ⟨rfl, h0⟩
        · exact if_pos rfl
        · exact h0
      · rw [if_neg (by omega)]
        rcases h with rfl | ⟨rfl, -⟩
        · exact if_neg hki
        · rfl
  unfold clearedTo
  rw [funext haddr]
  rcases h with rfl | ⟨rfl, -⟩ <;> rfl

/-- A copy some slots of which have been cleared. -/
def PartCleared (ip ip' : Inode) : Prop :=
  ∃ addr, ip' = { ip with addr := addr } ∧ ∀ k, addr k = 0 ∨ addr k = ip.addr k

section Itrunc

variable {s : Mnt} {own : Own} {n : Nat} {ip : Inode} (h : Owned s own) (hv : View s.fs.desc own n ip)

include h hv

theorem post_itruncSlots (i : Nat) (hi : i ≤ s.fs.desc.niaddr) :
    ∀ (t : Mnt) (l : Loc), Looked s t → l.ip.mode = ip.mode →
    (∀ k, k < i → l.ip.addr k = ip.addr k) →
    Post (itruncSlots s.fs.desc i (t, l)) (fun _ u => Looked s u.1 ∧
      u.2 = ⟨clearedTo l.ip i, l.bl ++ fileBlocks s.fs s.img ip i⟩)
      (fun _ u => Fault s ∧ Looked s u.1 ∧ PartCleared l.ip u.2.ip ∧ ∃ P,
        P <+: fileBlocks s.fs s.img ip i ∧ u.2.bl = l.bl ++ P) := by
  induction i with
  | zero =>
    intro t l ht _ _
    refine ⟨ht, ?_⟩
    show l = ⟨clearedTo l.ip 0, l.bl ++ []⟩
    rw [List.append_nil]
    rfl
  | succ i ih =>
    intro t l ht hmode haddr
    have hai := haddr i (Nat.lt_succ_self i)
    show Post ((onlyIf (l.ip.addr i ≠ 0) ((modIp fun ip => ip.setAddr i 0) >>= fun _ =>
      collectSlot (slotLevel s.fs.desc l.ip.mode i) (l.ip.addr i)) >>=
      fun _ => itruncSlots s.fs.desc i : MI Unit) (t, l)) _ _
    rw [hai, hmode]
    unfold onlyIf fileBlocks
    by_cases h0 : ip.addr i = 0
    · rw [if_neg (by simpa using h0), if_pos h0, List.nil_append]
      refine (ih (by omega) t l ht hmode fun k hk => haddr k (by omega)).mono ?_ fun _ _ he => he
      intro _ u hr
      obtain ⟨hu, hl⟩ := hr
      refine ⟨hu, ?_⟩
      rw [hl, clearedTo_succ (.inr ⟨rfl, hai.trans h0⟩)]
    · rw [if_pos h0, if_neg h0]
      have hslot := gathers_slot h hv (by omega) h0
      apply post_bind
      show Post (collectSlot (slotLevel s.fs.desc ip.mode i) (ip.addr i) (t, ⟨l.ip.setAddr i 0, l.bl⟩)) _ _
      refine (hslot t ⟨l.ip.setAddr i 0, l.bl⟩ ht).mono ?_ ?_
      · intro _ r hr
        obtain ⟨u, l'⟩ := r
        obtain ⟨hu, rfl⟩ := hr
        have hkeep : ∀ k, k < i → (l.ip.setAddr i 0).addr k = ip.addr k := by
          intro k hk
          exact (if_neg (by omega)).trans (haddr k (by omega))
        refine (ih (by omega) u ⟨l.ip.setAddr i 0, _⟩ hu hmode hkeep).mono ?_ ?_
        · intro _ v hr
          obtain ⟨hv', hl⟩ := hr
          refine ⟨hv', ?_⟩
          rw [hl, clearedTo_succ (.inl rfl), List.append_assoc]
        · intro _ v hr
          obtain ⟨hf, hv', ⟨addr, hip, hpart⟩, P, hP, hbl⟩ := hr
          refine ⟨hf, hv', ⟨addr, hip, fun k => ?_⟩, _,
            (List.prefix_append_right_inj _).mpr hP, by rw [hbl, List.append_assoc]⟩
          rcases hpart k with hk | hk
          · exact .inl hk
          · by_cases hki : k = i
            · exact .inl (hk.trans (if_pos hki))
            · exact .inr (hk.trans (if_neg hki))
      · intro _ v hr
        obtain ⟨hf, hv', P, hP, hl⟩ := hr
        refine ⟨hf, hv', ?_, P, hP.trans (List.prefix_append _ _), by rw [hl]⟩
        rw [hl]
        refine ⟨_, rfl, fun k => ?_⟩
        by_cases hki : k = i
        · exact .inl (if_pos hki)
        · exact .inr (if_neg hki)

end Itrunc

/-- What is left of a copy `filsysItrunc` has run on. -/
def truncated (d : Desc) (ip : Inode) : Inode :=
  if isDataInode d ip then { clearedTo ip d.niaddr with size := 0 } else ip

/-- The blocks a file has for `filsysItrunc` to list. -/
def dataBlocks (fs : Fs) (img : Buf) (ip : Inode) : List Nat :=
  if isDataInode fs.desc ip then fileBlocks fs img ip fs.desc.niaddr else []

theorem dataBlocks_held {s : Mnt} {own : Own} {n : Nat} {ip : Inode} (h : Owned s own)
    (hv : isDataInode s.fs.desc ip = true → View s.fs.desc own n ip) :
    (dataBlocks s.fs s.img ip).Nodup ∧ ∀ b ∈ dataBlocks s.fs s.img ip, ∃ p, own b = some (n, p) := by
  unfold dataBlocks
  split
  · rename_i hdata
    obtain ⟨hnd, hheld⟩ := fileBlocks_held h (hv hdata) _ (Nat.le_refl _)
    refine ⟨hnd, fun b hb => ?_⟩
    obtain ⟨j, q, -, hq⟩ := hheld b hb
    exact ⟨_, hq⟩
  · exact ⟨List.nodup_nil, fun _ hb => absurd hb List.not_mem_nil⟩

theorem post_filsysItrunc {s : Mnt} {own : Own} {n : Nat} {ip : Inode} (h : Owned s own)
    (hv : isDataInode s.fs.desc ip = true → View s.fs.desc own n ip) :
    Post (filsysItrunc (s, ⟨ip, []⟩)) (fun _ u => Looked s u.1 ∧
      u.2 = ⟨truncated s.fs.desc ip, dataBlocks s.fs s.img ip⟩)
      (fun _ u => Fault s ∧ Looked s u.1 ∧ PartCleared ip u.2.ip ∧ u.2.bl <+: dataBlocks s.fs s.img ip) := by
  show Post ((if isDataInode s.fs.desc ip = true then itruncSlots s.fs.desc s.fs.desc.niaddr >>=
    fun _ => modIp fun ip => { ip with size := 0 }
    else pure () : MI Unit) (s, ⟨ip, []⟩)) _ _
  unfold truncated dataBlocks
  apply post_ite
  · intro hdata
    rw [if_pos hdata, if_pos hdata]
    refine post_bind ((post_itruncSlots h (hv hdata) _ (Nat.le_refl _) s ⟨ip, []⟩ (looked_law.refl s)
      rfl fun _ _ => rfl).mono ?_ ?_)
    · intro _ r hr
      obtain ⟨u, l⟩ := r
      obtain ⟨hu, rfl⟩ := hr
      exact ⟨hu, rfl⟩
    · intro _ u hr
      obtain ⟨hf, hu, hp, P, hP, hbl⟩ := hr
      exact ⟨hf, hu, hp, by rw [hbl]; exact hP⟩
  · intro hdata
    rw [if_neg hdata, if_neg hdata]
    exact ⟨looked_law.refl s, rfl⟩

/-! ## Giving back -/

/-- Blocks no one holds go back, each once. -/
theorem post_blklistDrain {S : Scope} {own : Own} (L : List Nat) : ∀ {s : Mnt}, Owned s own → L.Nodup →
    (∀ b ∈ L, Loose s own b) →
    Post (blklistDrain L s) (fun _ t => Path S s own t own ∧ Apart (fun _ => False) s own t own)
    (fun _ _ => False) := by
  induction L with
  | nil =>
    intro s _ _ _
    exact ⟨.refl, .refl _ s own⟩
  | cons b L ih =>
    intro s h hnd hL
    obtain ⟨hb, hnd'⟩ := List.nodup_cons.mp hnd
    have hlb := hL b List.mem_cons_self
    show Post ((bfree b >>= fun _ => blklistDrain L : M Unit) s) _ _
    apply post_bind
    have hspec := bfree_spec h.mounted h.space hlb.data hlb.taken
    cases hr : bfree b s with
    | error e t =>
      rw [hr] at hspec
      exact hspec.elim
    | ok u t =>
      rw [hr] at hspec
      have hg : Gave s b t := hspec
      have hstep : Step S s own t own := .give hlb hr
      have hot := hstep.owned h
      have hap : Apart (fun _ => False) s own t own := by
        refine ⟨hg.toSameVol, fun _ _ _ hx _ => hx, fun k hk _ =>
          recordOf_congr (hg.blocks _ (h.mounted.itod_bounds hk).1 ?_),
          fun x _ _ hx _ => hg.blocks x (h.two_le hx) ?_⟩
        · have := (h.mounted.itod_bounds hk).2
          have := hlb.data.1
          omega
        · rintro rfl
          rw [hlb.unheld] at hx
          cases hx
      have hrest : ∀ c ∈ L, Loose t own c := by
        intro c hc
        have hlc := hL c (List.mem_cons_of_mem _ hc)
        refine ⟨hlc.unheld, fun hf => ?_, (shape_dataBlock hg.shape).mpr hlc.data⟩
        rcases hg.free c hf with hf | rfl
        · exact hlc.taken hf
        · exact hb hc
      refine (ih hot hnd' hrest).mono ?_ fun _ _ hf => hf
      intro _ v hrun
      obtain ⟨hp, hap'⟩ := hrun
      exact ⟨(Path.one hstep).trans hp, hap.trans hap'⟩

/-- A number goes back; V1's map loses no other bit. -/
theorem post_ifree {s : Mnt} (hp : s.fs.desc.ops ≠ .pdp7) (n : Nat) :
    Post (ifree n s) (fun _ t => Idle s t ∧ ∀ i, getBit t.fs.inodemap i = false →
      getBit s.fs.inodemap i = false ∨ i + 41 = n) (fun _ _ => False) := by
  have hv7 : Post (v7fsIfree n s) (fun _ t => Idle s t ∧ ∀ i, getBit t.fs.inodemap i = false →
    getBit s.fs.inodemap i = false ∨ i + 41 = n)
      (fun _ _ => False) :=
    post_bindFs (post_ite (fun _ => ⟨idle_law.refl s, fun _ h => .inl h⟩) fun _ =>
      ⟨⟨⟨rfl, rfl, rfl⟩, rfl, rfl, rfl, id⟩, fun _ h => .inl h⟩)
  have hv1 : Post (v1fsIfree n s) (fun _ t => Idle s t ∧ ∀ i, getBit t.fs.inodemap i = false →
    getBit s.fs.inodemap i = false ∨ i + 41 = n)
      (fun _ _ => False) := by
    refine post_bindFs (post_ite (fun _ => ⟨idle_law.refl s, fun _ h => .inl h⟩) fun hr =>
      ⟨⟨⟨rfl, rfl, rfl⟩, rfl, rfl, rfl, id⟩, fun i hi => ?_⟩)
    have hi : getBit (putBit s.fs.inodemap (n - 41) false) i = false := hi
    rw [getBit_putBit] at hi
    split at hi
    · exact .inr (by omega)
    · exact .inl hi
  apply post_bindFs
  cases ho : s.fs.desc.ops with
  | v1 => exact hv1
  | pdp7 => exact absurd ho hp
  | v6 => exact hv7
  | v7 => exact hv7
  | bsd211 => exact hv7

/-! ## The end of an inode -/

/-- Nothing is held for `n` any more. -/
def disown (own : Own) (n : Nat) : Own := fun b => match own b with
  | some (k, p) => if k = n then none else some (k, p)
  | none => none

theorem disown_some {own : Own} {n b k : Nat} {p : List Nat} :
    disown own n b = some (k, p) ↔ own b = some (k, p) ∧ k ≠ n := by
  unfold disown
  cases hb : own b with
  | none => simp
  | some x =>
    obtain ⟨k', p'⟩ := x
    show (if k' = n then none else some (k', p')) = _ ↔ _
    split
    · rename_i hk
      constructor
      · intro hc
        cases hc
      · rintro ⟨hc, hne⟩
        cases hc
        exact absurd hk hne
    · rename_i hk
      constructor
      · intro hc
        cases hc
        exact ⟨rfl, hk⟩
      · rintro ⟨hc, -⟩
        exact hc

theorem disown_none {own : Own} {n b : Nat} (h : own b = none) : disown own n b = none := by
  unfold disown
  rw [h]

theorem owned_disown {s : Mnt} {own : Own} (h : Owned s own) {n : Nat}
    (hdead : ¬ HoldsBlocks s.fs.desc n (recordOf s.fs s.img n).mode) :
    Owned s (disown own n) := by
  refine ⟨h.mounted, h.layout, h.space, fun b hb => disown_none (h.free b hb), fun b x hx => ?_, ?_,
    fun k hk hh slot hs h0 => ?_⟩
  · obtain ⟨k, p⟩ := x
    exact h.data b _ (disown_some.mp hx).1
  · intro b k slot idxs hb hlen i hi he
    obtain ⟨hb, hk⟩ := disown_some.mp hb
    exact disown_some.mpr ⟨h.tree b k slot idxs hb hlen i hi he, hk⟩
  · refine disown_some.mpr ⟨h.disk k hk hh slot hs h0, ?_⟩
    rintro rfl
    exact hdead hh

/-- Inode `n` is dead and holds nothing; the others are as they were. -/
structure Gone (S : Scope) (n : Nat) (s : Mnt) (own : Own) (t : Mnt) (own' : Own) : Prop where
  path : Path S s own t own'
  apart : Apart (· = n) s own t own'
  mode : (recordOf s.fs t.img n).mode = 0
  empty : ∀ b p, own' b ≠ some (n, p)
  map : MapTrue s → MapTrue t

theorem not_holdsBlocks_zero (d : Desc) (n : Nat) : ¬ HoldsBlocks d n 0 := by
  rintro ⟨hl, -⟩
  unfold inodeLive at hl
  split at hl
  · simp [has] at hl
  · simp at hl

/-- The record goes out dead, its blocks go back, its number is free. -/
theorem post_goneOut {S : Scope} {n : Nat} (hS : S.touch n) {s : Mnt} {own : Own} (h : Owned s own)
    {ip : Inode} {L : List Nat} (hmode : ip.mode = 0)
    (hnd : L.Nodup) (hheld : ∀ b ∈ L, ∃ p, own b = some (n, p)) :
    Post ((writeInode n ip >>= fun _ => blklistDrain L >>= fun _ => ifree n : M Unit) s)
    (fun _ t => ∃ own', Gone S n s own t own')
      (fun _ t => (ValidIno s.fs n → Fault s) ∧ Kept s t ∧ Path S s own t own) := by
  apply post_bind
  have hspec := post_inodeOut h n ip
  have hino := sameIno_law.writeInode n ip s
  cases hr : writeInode n ip s with
  | error e t =>
    rw [hr] at hspec
    exact ⟨hspec.2, hspec.1, .one (.refused hr)⟩
  | ok _ t =>
    rw [hr] at hspec hino
    have hout : Out n ip s t := hspec
    have hino : SameIno s t := hino
    have hstep : Step S s own t own := .inode hS (fun hh => absurd (hmode ▸ hh) (not_holdsBlocks_zero _ _)) hr
    have hot := hstep.owned h
    have hd := shape_desc hout.shape
    have hzero : (recordOf s.fs t.img n).mode = 0 := by
      rw [hout.stored.mode, hmode]
    have hdead : ¬ HoldsBlocks t.fs.desc n (recordOf t.fs t.img n).mode := by
      rw [shape_recordOf hout.shape, hzero]
      exact not_holdsBlocks_zero _ _
    have hdis := owned_disown hot hdead
    have hdrop : Step S t own t (disown own n) := by
      refine .drop (fun b x hx => (disown_some (p := x.2)).mp hx |>.1) (fun b k p hb hnone => ?_) hdis
      by_cases hk : k = n
      · rw [hk]
        exact hS
      · rw [disown_some.mpr ⟨hb, hk⟩] at hnone
        cases hnone
    have hloose : ∀ b ∈ L, Loose t (disown own n) b := by
      intro b hb
      obtain ⟨p, hp⟩ := hheld b hb
      refine ⟨?_, hot.not_free hp, hot.data b _ hp⟩
      unfold disown
      rw [hp]
      exact if_pos rfl
    refine post_bind (((@post_blklistDrain S _ L _ hdis hnd hloose).and
      (sameIno_law.blklistDrain L t)).mono ?_ fun _ _ hf => hf.1.elim)
    intro _ u hrun
    obtain ⟨⟨hpath, hap⟩, hino'⟩ := hrun
    have hou := hpath.owned hdis
    refine (post_ifree hou.mounted.notPdp7 n).mono ?_ fun _ _ hf => hf.elim
    intro _ v hrun
    obtain ⟨hidle, hbits⟩ := hrun
    have hap0 : Apart (· = n) s own t (disown own n) := by
      have := hout.apart h
      refine ⟨this.toSameVol, ?_, this.recs, this.same⟩
      intro b k p hb hk
      exact disown_some.mpr ⟨hb, hk⟩
    have hrec : recordOf s.fs v.img n = recordOf s.fs t.img n := by
      have := hap.recs n ((shape_validIno hout.shape).mpr hout.valid) id
      rw [shape_recordOf hout.shape] at this
      rw [hidle.img]
      exact this
    have hall : Apart (· = n) s own v (disown own n) := by
      refine hap0.trans ((hap.mono fun _ hf => hf.elim).trans ⟨hidle.toSameVol, fun _ _ _ hb _ => hb,
        fun _ _ _ => ?_, fun _ _ _ _ _ => ?_⟩)
      · rw [hidle.img]
      · rw [hidle.img]
    refine ⟨disown own n, ((Path.one hstep).snoc hdrop).trans (hpath.snoc (.idle hidle)),
      hall, by rw [hrec]; exact hzero,
      fun b p hb => (disown_some.mp hb).2 rfl, fun hmap => ?_⟩
    have hdeadv : ¬ Live s.fs v.img n := not_live_zero (by rw [hrec]; exact hzero)
    refine hmap.frame hall.toSameVol ?_ ?_
    · intro i hi
      rcases hbits i hi with hb | rfl
      · rw [hino'.inodemap hot.mounted.solo, hino.inodemap h.mounted.solo] at hb
        exact .inl hb
      · exact .inr hdeadv
    · intro k hvk _ hlive
      by_cases hk : k = n
      · rw [hk] at hlive
        exact absurd hlive hdeadv
      · rwa [live_congr (hall.recs k hvk hk)] at hlive

theorem post_inodeDestroy {S : Scope} {n : Nat} (hS : S.touch n) {s : Mnt} {own : Own}
    (h : Owned s own) {ip : Inode}
    (hv : isDataInode s.fs.desc ip = true → View s.fs.desc own n ip) :
    Post (inodeDestroy n ip s) (fun _ t => ∃ own', Gone S n s own t own')
      (fun _ t => (ValidIno s.fs n → Fault s) ∧ Kept s t ∧ Path S s own t own) := by
  refine post_bind (post_inside ((post_filsysItrunc h hv).mono ?_ ?_))
  · intro _ r hr
    obtain ⟨t, l⟩ := r
    obtain ⟨ht, rfl⟩ := hr
    obtain ⟨hnd, hheld⟩ := dataBlocks_held h hv
    refine (post_goneOut hS (ht.owned h) rfl hnd hheld).mono ?_ ?_
    · intro _ u hr
      obtain ⟨own', hg⟩ := hr
      refine ⟨own', (Path.one (.idle ht.idle)).trans hg.path, (Apart.of_looked ht _ own).trans hg.apart,
        ?_, hg.empty, fun hmap => hg.map ?_⟩
      · have := hg.mode
        rwa [ht.fs] at this
      · obtain ⟨k, -, rfl⟩ := ht
        exact hmap
    · intro _ u hr
      obtain ⟨hf, hk, hp⟩ := hr
      refine ⟨fun hn => ht.fault (hf (by rw [ht.fs]; exact hn)), kept_law.trans ?_ hk,
        (Path.one (.idle ht.idle)).trans hp⟩
      exact ⟨ht.idle.toSameVol, ht.idle.space, fun _ _ => by rw [ht.img]⟩
  · intro e r hr
    obtain ⟨t, l⟩ := r
    obtain ⟨hf, ht, -⟩ := hr
    refine ⟨fun _ => hf, ⟨ht.idle.toSameVol, ht.idle.space, fun _ _ => ?_⟩, .one (.idle ht.idle)⟩
    show blockOf s.fs t.img _ = _
    rw [ht.img]

end Filsys.Tree
