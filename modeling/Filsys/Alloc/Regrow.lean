/-
  Filsys.Alloc.Regrow — giving blocks back to the PDP-7's node list (`p7fs_bfree`,
  `p7fs_makefree`).

  A freed block fills an empty entry of the head node, or becomes the head itself. So a
  list rebuilt from the usage map names unmarked blocks only, each once (`Regrown`), as
  long as the nodes it is written into go out: reads that fail lose blocks and no more.
-/

import Filsys.Alloc.Handout
import Filsys.Engine.Salvage

namespace Filsys.Alloc

open Filsys.Lib Filsys.Engine

/-- The list of the mount names the blocks `L`, in the order they are handed out. -/
def Lists (s : Mnt) (L : List Nat) : Prop :=
  ∃ ns, Seg (WordsIn s) (wordsOf s.fs s.img) s.fs.freelist ns ∧ L = listed (wordsOf s.fs s.img) ns

theorem Lists.ballocs7 {s : Mnt} (hm : Mounted7 s) (hq : ∀ k, s.env.fails k = false) {L : List Nat}
    (h : Lists s L) (hnd : L.Nodup)
    (hin : ∀ b ∈ L, WordsIn s b) (k : Nat) : ballocs7 k s = L.take k := by
  obtain ⟨ns, hseg, rfl⟩ := h
  have htakes := takes_of_seg hseg (hnd.filter _)
  rw [ballocs7_eq hm hq (holds7_self s), htakes.takesN, List.filter_eq_self]
  intro b hb
  exact decide_eq_true (hin b (List.mem_of_mem_take hb))

/-- A list is what the image says at its nodes. -/
theorem Lists.frame {s t : Mnt} {L : List Nat} (h : Lists s L) (hvol : SameVol s t)
    (hhead : t.fs.freelist = s.fs.freelist)
    (hw : ∀ b ∈ L, wordsOf s.fs t.img b = wordsOf s.fs s.img b) : Lists t L := by
  obtain ⟨ns, hseg, rfl⟩ := h
  have hin : WordsIn t = WordsIn s := funext fun b => propext (wordsIn_of_sameVol hvol b)
  have hfs : wordsOf t.fs = wordsOf s.fs := shape_wordsOf hvol.shape
  have hnodes : ∀ n ∈ ns, wordsOf s.fs t.img n = wordsOf s.fs s.img n := fun n hn => hw n (mem_listed_of_mem hn)
  refine ⟨ns, ?_, ?_⟩
  · rw [hin, hfs, hhead]
    exact hseg.congr hnodes
  · rw [hfs]
    exact (listed_congr hnodes).symm

/-! ## Giving back -/

theorem p7Slot_spec {words : Nat → Nat} {i : Nat} (h : p7Slot words = some i) :
    1 ≤ i ∧ i ≤ 9 ∧ words i = 0 := by
  unfold p7Slot at h
  have hmem := List.mem_of_find?_eq_some h
  have hz := List.find?_some h
  obtain ⟨j, hj, rfl⟩ := List.mem_map.mp hmem
  have := List.mem_range.mp hj
  exact ⟨by omega, by omega, by simpa using hz⟩

/-- Filling an empty entry adds one block. -/
theorem entriesBelow_fill {node : Nat → Nat} {n i b : Nat} (h1 : 1 ≤ i) (hn : i ≤ n)
    (hz : node i = 0) (hb : b ≠ 0) :
    (entriesBelow (fun j => if j = i then b else node j) n).Perm (b :: entriesBelow node n) := by
  induction n with
  | zero => omega
  | succ n ih =>
    rw [entriesBelow, entriesBelow]
    by_cases hi : i = n + 1
    · subst hi
      rw [if_pos (show (if n + 1 = n + 1 then b else node (n + 1)) ≠ 0 by rw [if_pos rfl]; exact hb),
        if_neg (show ¬ node (n + 1) ≠ 0 by simp [hz]), if_pos rfl]
      refine List.Perm.cons b (List.Perm.of_eq (entriesBelow_congr fun j _ hj => ?_))
      rw [if_neg (by omega)]
    · have hrest := ih (by omega)
      rw [if_neg (Ne.symm hi)]
      split
      · exact (hrest.cons _).trans (List.Perm.swap ..)
      · exact hrest

/-- Only reads fail: the node `p7fs_bfree b` writes goes out. -/
def NodeGoesOut (b : Nat) (s : Mnt) : Prop :=
  if s.fs.freelist = 0 then WordsIn s b → s.env.fails s.ios = false
  else WordsIn s s.fs.freelist → s.env.fails s.ios = false → s.env.fails (s.ios + 1) = false

/-- `b` has gone back on the list `L`, or is lost. -/
structure Gave7 (s : Mnt) (L : List Nat) (b : Nat) (t : Mnt) : Prop extends SameVol s t where
  head : t.fs.freelist < 2 ^ 18
  list : ∃ L', Lists t L' ∧ L'.Nodup ∧ (∀ x ∈ L', x = b ∨ x ∈ L) ∧ (∀ x ∈ L', WordsIn s x) ∧
    (Onward s → WordsIn s b → (s.fs.freelist ≠ 0 → WordsIn s s.fs.freelist) →
      (t.fs.freelist ≠ 0 → WordsIn s t.fs.freelist) ∧ ∀ x, x = b ∨ x ∈ L → x ∈ L')
  words : ∀ x, x ≠ b → x ∉ L → wordsOf s.fs t.img x = wordsOf s.fs s.img x

section Bfree

variable {s : Mnt} {L : List Nat} {b : Nat}

theorem Lists.empty (h : s.fs.freelist = 0 ∨ ¬ WordsIn s s.fs.freelist) : Lists s [] := ⟨[], .stop h, rfl⟩

theorem Lists.nil_of_stop (hL : Lists s L) (h : s.fs.freelist = 0 ∨ ¬ WordsIn s s.fs.freelist) : L = [] := by
  obtain ⟨ns, hseg, rfl⟩ := hL
  cases hseg with
  | stop => rfl
  | node h0 hin => exact absurd hin (h.resolve_left h0)

theorem Lists.head_mem (hL : Lists s L) (h0 : s.fs.freelist ≠ 0) (hin : WordsIn s s.fs.freelist) :
    s.fs.freelist ∈ L := by
  obtain ⟨ns, hseg, rfl⟩ := hL
  cases hseg with
  | stop hstop => exact absurd hin (hstop.resolve_left h0)
  | node => exact mem_listed_of_mem List.mem_cons_self

/-- The block is lost, or the whole list with it: a head outside the image ends it. -/
theorem Gave7.lost {t : Mnt} (hvol : SameVol s t) (hhead : t.fs.freelist < 2 ^ 18)
    (ht : Lists t []) (himg : t.img = s.img)
    (hout : WordsIn s b → s.fs.freelist ≠ 0 ∧ ¬ WordsIn s s.fs.freelist) : Gave7 s L b t where
  toSameVol := hvol
  head := hhead
  list := by
    refine ⟨[], ht, List.nodup_nil, fun _ h => absurd h List.not_mem_nil, fun _ h =>
      absurd h List.not_mem_nil, ?_⟩
    intro _ hb hhead
    obtain ⟨h0, hno⟩ := hout hb
    exact absurd (hhead h0) hno
  words _ _ _ := by rw [himg]

/-- The block fills an entry of the head node. -/
theorem Lists.fill (hL : Lists s L) (hnd : L.Nodup) (hb0 : b ≠ 0) (hb : b < 2 ^ 18) (h0 : s.fs.freelist ≠ 0)
    (hin : WordsIn s s.fs.freelist) {i : Nat} (hslot : p7Slot (wordsOf s.fs s.img s.fs.freelist) =
      some i) (site : Site) :
    ∃ L', Lists (putWords site s.fs.freelist (fun j => if j = i then b
      else wordsOf s.fs s.img s.fs.freelist j) s) L' ∧
      L'.Perm (b :: L) := by
  obtain ⟨ns, hseg, rfl⟩ := hL
  obtain ⟨h1, h9, hz⟩ := p7Slot_spec hslot
  generalize hh : s.fs.freelist = h at *
  cases hseg with
  | stop hstop => exact absurd hin (hstop.resolve_left h0)
  | @node _ ns _ _ htail =>
    rw [listed_cons] at hnd ⊢
    have hnot : h ∉ ns := fun hmem =>
      (List.nodup_cons.mp (List.nodup_append.mp hnd).2.1).1 (mem_listed_of_mem hmem)
    have hnode : ∀ j, j < 64 → wordsOf s.fs (putWordBlock s.fs s.img h fun j => if j = i then b
      else wordsOf s.fs s.img h j) h j =
        if j = i then b else wordsOf s.fs s.img h j := by
      intro j hj
      rw [wordsOf_putWordBlock _ _ _ _ hj]
      apply Nat.mod_eq_of_lt
      split
      · exact hb
      · exact wordsOf_lt _ _ _ _
    have hrest : ∀ n ∈ ns, wordsOf s.fs (putWordBlock s.fs s.img h fun j => if j = i then b
      else wordsOf s.fs s.img h j) n =
        wordsOf s.fs s.img n := by
      intro n hn
      refine wordsOf_putWordBlock_ne ?_ _ _
      rintro rfl
      exact hnot hn
    refine ⟨_, ⟨h :: ns, ?_, rfl⟩, ?_⟩
    · show Seg _ _ s.fs.freelist _
      rw [hh]
      refine .node h0 hin ?_
      rw [putWords_fs, putWords_img, hnode 0 (by decide), if_neg (by omega)]
      exact htail.congr hrest
    · rw [listed_cons, putWords_fs, putWords_img, listed_congr hrest, entriesBelow_congr
        fun j _ hj => hnode j (by omega)]
      exact (entriesBelow_fill h1 h9 hz hb0).append_right _

/-- The block becomes the head node, before the list there was. -/
theorem Lists.head (hL : Lists s L) (hb0 : b ≠ 0) (hin : WordsIn s b) (hhead : s.fs.freelist < 2 ^ 18)
    (hfree : b ∉ L) (site : Site) :
    Lists { putWords site b (fun j => if j = 0 then s.fs.freelist else 0) s with
      fs := { s.fs with freelist := b } } (b :: L) := by
  obtain ⟨ns, hseg, rfl⟩ := hL
  have hnode : ∀ j, j < 64 → wordsOf s.fs (putWordBlock s.fs s.img b fun j => if j =
    0 then s.fs.freelist else 0) b j =
      if j = 0 then s.fs.freelist else 0 := by
    intro j hj
    rw [wordsOf_putWordBlock _ _ _ _ hj]
    apply Nat.mod_eq_of_lt
    split
    · exact hhead
    · decide
  have hrest : ∀ n ∈ ns, wordsOf s.fs (putWordBlock s.fs s.img b fun j => if j = 0 then s.fs.freelist
    else 0) n = wordsOf s.fs s.img n := by
    intro n hn
    refine wordsOf_putWordBlock_ne ?_ _ _
    rintro rfl
    exact hfree (mem_listed_of_mem hn)
  refine ⟨b :: ns, .node hb0 hin ?_, ?_⟩
  · show Seg _ _ (wordsOf s.fs (putWordBlock s.fs s.img b _) b 0) _
    rw [hnode 0 (by decide), if_pos rfl]
    exact hseg.congr hrest
  · have hnone : entriesBelow (wordsOf s.fs (putWordBlock s.fs s.img b fun j => if j =
      0 then s.fs.freelist else 0) b) 9 =
        entriesBelow (fun _ => 0) 9 := by
      refine entriesBelow_congr fun j h1 h2 => ?_
      rw [hnode j (by omega), if_neg (by omega)]
    show _ = listed (wordsOf s.fs (putWordBlock s.fs s.img b _)) _
    rw [listed_cons, listed_congr hrest, hnone, entriesBelow_zero]
    rfl

/-- A block that is not on the list, given back. -/
theorem post_p7fsBfree_new (hm : Mounted7 s) (hhead : s.fs.freelist < 2 ^ 18) (hL : Lists s L)
    (hnd : L.Nodup) (hin : ∀ x ∈ L, WordsIn s x)
    (hb0 : b ≠ 0) (hb : b < 2 ^ 18) (hfree : b ∉ L) (hnear : ∀ x ∈ L, WordsIn s x → WordsIn s b)
    (hgo : NodeGoesOut b s) :
    Post (p7fsBfree b s) (fun _ t => Gave7 s L b t) fun _ _ => False := by
  unfold NodeGoesOut at hgo
  refine post_bindFs (post_ite (fun h => ?_) fun _ => post_ite (fun h0 => ?_) fun h0 => ?_)
  · exact absurd h (by simp [hb0, hm.writable])
  · -- an empty list: the block becomes its only node
    rw [if_pos h0] at hgo
    have hnil := hL.nil_of_stop (.inl h0)
    have hm1 : Mounted7 { s with fs := { s.fs with freelist := b } } := hm.of_sameVol ⟨rfl, rfl, rfl⟩
    have hout : ¬ WordsIn s b → ∀ k,
      Gave7 s L b { s with fs := { s.fs with freelist := b }, ios := k } := fun hno k =>
      .lost ⟨rfl, rfl, rfl⟩ hb (.empty (.inr hno)) rfl fun h => absurd h hno
    refine post_bindMod (post_bind (post_attempt (hm1.post_writeWords ?_ (fun hno _ => hout hno s.ios) ?_)))
    · intro hinb _
      have hone := hL.head hb0 hinb hhead hfree .dump
      rw [h0] at hone
      have hsame : (fun j => if j = 0 then 0 else 0 : Nat → Nat) = fun _ => 0 := by
        funext j
        split <;> rfl
      rw [hsame] at hone
      refine ⟨⟨rfl, rfl, rfl⟩, hb, ⟨b :: L, hone, List.nodup_cons.mpr ⟨hfree, hnd⟩, fun x hx =>
        List.mem_cons.mp hx, ?_, ?_⟩, ?_⟩
      · intro x hx
        rcases List.mem_cons.mp hx with rfl | hx
        · exact hinb
        · exact hin x hx
      · exact fun _ _ _ => ⟨fun _ => hinb, fun x hx => List.mem_cons.mpr hx⟩
      · exact fun x hx _ => wordsOf_putWordBlock_ne hx _ _
    · intro hf _
      by_cases hinb : WordsIn s b
      · exact absurd ((hgo hinb).symm.trans hf) (by decide)
      · exact hout hinb (s.ios + 1)
  · rw [if_neg h0] at hgo
    refine post_bind (post_attempt (hm.post_readWords ?_ ?_ ?_))
    · intro hinh hf
      have hgo1 := hgo hinh hf
      have hm1 : Mounted7 (ticked s) := hm.of_sameVol (ticked_sameVol s)
      have hL1 : Lists (ticked s) L := hL
      have hmem := hL.head_mem h0 hinh
      simp only
      cases hslot : p7Slot (wordsOf s.fs s.img s.fs.freelist) with
      | some i =>
        simp only
        refine post_bind (post_attempt (hm1.post_writeWords ?_ (fun hno _ => absurd hinh hno) ?_))
        · intro _ _
          obtain ⟨L', hlist, hperm⟩ := hL1.fill hnd hb0 hb h0 hinh hslot .dump
          refine ⟨⟨rfl, rfl, rfl⟩, hhead,
            ⟨L', hlist, hperm.nodup_iff.mpr (List.nodup_cons.mpr ⟨hfree, hnd⟩), ?_, ?_, ?_⟩, ?_⟩
          · exact fun x hx => List.mem_cons.mp (hperm.mem_iff.mp hx)
          · intro x hx
            rcases List.mem_cons.mp (hperm.mem_iff.mp hx) with rfl | hx
            · exact hnear _ hmem hinh
            · exact hin x hx
          · exact fun _ _ _ => ⟨fun _ => hinh, fun x hx => hperm.mem_iff.mpr (List.mem_cons.mpr hx)⟩
          · intro x hx hxL
            refine wordsOf_putWordBlock_ne ?_ _ _
            rintro rfl
            exact hxL hmem
        · intro hf' _
          exact absurd (hgo1.symm.trans hf') (by decide)
      | none =>
        -- the head node is full: the block becomes a new head
        simp only
        refine post_bind (post_attempt (hm1.post_writeWords ?_ ?_ ?_))
        · intro hinb _
          have hlist := hL1.head hb0 hinb hhead hfree .dump
          refine ⟨⟨rfl, rfl, rfl⟩, hb, ⟨b :: L, hlist, List.nodup_cons.mpr ⟨hfree, hnd⟩, fun x hx =>
            List.mem_cons.mp hx, ?_, ?_⟩, ?_⟩
          · intro x hx
            rcases List.mem_cons.mp hx with rfl | hx
            · exact hinb
            · exact hin x hx
          · exact fun _ _ _ => ⟨fun _ => hinb, fun x hx => List.mem_cons.mpr hx⟩
          · exact fun x hx _ => wordsOf_putWordBlock_ne hx _ _
        · intro hno _
          exact .lost ⟨rfl, rfl, rfl⟩ hb (.empty (.inr hno)) rfl fun h => absurd h hno
        · intro hf' _
          exact absurd (hgo1.symm.trans hf') (by decide)
    · intro hno _
      exact .lost (sameVol_law.refl s) hhead (.empty (.inr hno)) rfl fun _ => ⟨h0, hno⟩
    · intro hf _
      refine ⟨ticked_sameVol s, hhead, ⟨L, hL, hnd, fun _ h => .inr h, hin, fun hq => ?_⟩, fun _ _ _ => rfl⟩
      rw [hq s.ios (Nat.le_refl _)] at hf
      cases hf

/-- A block below those on the list, given back. -/
theorem post_p7fsBfree (hm : Mounted7 s) (hhead : s.fs.freelist < 2 ^ 18) (hL : Lists s L)
    (hnd : L.Nodup) (hin : ∀ x ∈ L, WordsIn s x)
    (hb0 : b ≠ 0) (hb : b < 2 ^ 18) (hlow : ∀ x ∈ L, b < x) (hgo : NodeGoesOut b s) :
    Post (p7fsBfree b s) (fun _ t => Gave7 s L b t) fun _ _ => False :=
  post_p7fsBfree_new hm hhead hL hnd hin hb0 hb (fun h => Nat.lt_irrefl b (hlow b h))
  (fun x hx hinx => wordsIn_of_lt (hlow x hx) hinx) hgo

end Bfree

/-! ## Rebuilding -/

/-- Only reads fail: every node the rebuild writes goes out. -/
def NodesGoOut (bmap : Buf) : Nat → Nat → Mnt → Prop
  | 0, _, _ => True
  | todo + 1, b, s =>
    if getBit bmap (b - 1 - p7Datastart) then NodesGoOut bmap todo (b - 1) s
    else NodeGoesOut (b - 1) s ∧ NodesGoOut bmap todo (b - 1) (final (p7fsBfree (b - 1)) s)

/-- The transport is the same one, further on. -/
def Onto (s t : Mnt) : Prop := t.env = s.env ∧ s.ios ≤ t.ios

theorem onto_law : Law Onto where
  refl s := ⟨rfl, Nat.le_refl s.ios⟩
  trans h h' := ⟨h'.1.trans h.1, Nat.le_trans h.2 h'.2⟩

/-- Giving a block back leaves the transport as it was. -/
theorem p7fsBfree_onto (b : Nat) (s : Mnt) : Onto s (final (p7fsBfree b) s) := by
  have law := onto_law
  have hfs : Keeps Onto getFs := law.refl
  have hmod : ∀ f, Keeps Onto (modFs f) := fun _ s => law.refl s
  have hread : ∀ b, Keeps Onto (readWords b) := by
    intro b
    have hio : ∀ n off, Keeps Onto (ioRead n off) :=
      fun n off s => post_ioRead (fun _ _ => ⟨rfl, Nat.le_succ _⟩) fun _ => ⟨rfl, Nat.le_succ _⟩
    exact keeps_bind law hfs fun _ => keeps_ite (keeps_bind law (keeps_failAs (hio _ _)) fun _ =>
      keeps_pure law) (keeps_throw law)
  have hwrite : ∀ site b w, Keeps Onto (writeWords site b w) := by
    intro site b w
    have hio : ∀ buf n off, Keeps Onto (ioWrite site buf n off) := fun buf n off s =>
      post_ioWrite (fun _ => ⟨rfl, Nat.le_succ _⟩) fun _ => ⟨rfl, Nat.le_succ _⟩
    exact keeps_bind law hfs fun _ => keeps_ite (keeps_failAs (hio _ _ _)) (keeps_throw law)
  have hall : Keeps Onto (p7fsBfree b) := by
    refine keeps_bind law hfs fun fs => keeps_ite (keeps_pure law) (keeps_ite ?_ ?_)
    · refine keeps_bind law (hmod _) fun _ => ?_
      refine keeps_bind law (keeps_attempt (hwrite _ _ _)) fun _ => ?_
      exact keeps_pure law
    · refine keeps_bind law (keeps_attempt (hread _)) fun r => ?_
      cases r with
      | error e => exact keeps_pure law
      | ok words =>
        simp only
        cases p7Slot words with
        | some i => exact keeps_bind law (keeps_attempt (hwrite _ _ _)) fun _ => keeps_pure law
        | none => exact keeps_bind law (keeps_attempt (hwrite _ _ _)) fun _ => hmod _
  exact (hall s).final

theorem nodesGoOut_of_quiet (bmap : Buf) (todo b : Nat) {s : Mnt} (hq : ∀ k, s.env.fails k = false) :
    NodesGoOut bmap todo b s := by
  induction todo generalizing b s with
  | zero => exact trivial
  | succ todo ih =>
    rw [NodesGoOut]
    split
    · exact ih (b - 1) hq
    · refine ⟨?_, ih (b - 1) ?_⟩
      · unfold NodeGoesOut
        split
        · exact fun _ => hq _
        · exact fun _ _ => hq _
      · intro k
        rw [(p7fsBfree_onto (b - 1) s).1]
        exact hq k

/-- The blocks of `b - 1, b - 2, …` (`todo` of them) the map leaves clear. -/
def clearBelow (bmap : Buf) (todo b x : Nat) : Prop :=
  b - todo ≤ x ∧ x < b ∧ getBit bmap (x - p7Datastart) = false

theorem clearBelow_succ {bmap : Buf} {todo b x : Nat} (htop : todo + 1 < b) :
    clearBelow bmap (todo + 1) b x ↔ clearBelow bmap todo (b - 1) x ∨
    x = b - 1 ∧ getBit bmap (b - 1 - p7Datastart) = false := by
  unfold clearBelow
  constructor
  · rintro ⟨h1, h2, h3⟩
    by_cases hx : x = b - 1
    · exact .inr ⟨hx, by rw [← hx]; exact h3⟩
    · exact .inl ⟨by omega, by omega, h3⟩
  · intro hr
    rcases hr with ⟨h1, h2, h3⟩ | ⟨rfl, h⟩
    · exact ⟨by omega, by omega, h3⟩
    · exact ⟨by omega, by omega, h⟩

/-- From `s`, the list of `t` has been made out of the blocks `free`. -/
structure Regrown (s : Mnt) (free : Nat → Prop) (t : Mnt) : Prop extends SameVol s t where
  list : ∃ L, Lists t L ∧ L.Nodup ∧ (∀ x ∈ L, free x) ∧ (∀ x ∈ L, WordsIn s x) ∧
    (Onward s → (∀ x, free x → WordsIn s x) → ∀ x, free x → x ∈ L)
  words : ∀ x, x ≠ 0 → ¬ free x → wordsOf s.fs t.img x = wordsOf s.fs s.img x

theorem p7FreeUnmarked_spec (bmap : Buf) (todo b nfree : Nat) {s : Mnt} (hm : Mounted7 s)
    (htop : todo < b) (hb : b ≤ 2 ^ 18) {L : List Nat}
    (hhead : s.fs.freelist < 2 ^ 18) (hL : Lists s L) (hnd : L.Nodup) (hin : ∀ x ∈ L,
      WordsIn s x) (hlow : ∀ x ∈ L, b ≤ x)
    (hgo : NodesGoOut bmap todo b s) :
    Post (p7FreeUnmarked bmap todo b nfree s) (fun _ t => SameVol s t ∧ t.fs.freelist < 2 ^ 18 ∧
      (∃ L', Lists t L' ∧ L'.Nodup ∧ (∀ x ∈ L', clearBelow bmap todo b x ∨ x ∈ L) ∧ (∀ x ∈ L', WordsIn s x) ∧
        (Onward s → (∀ x, clearBelow bmap todo b x → WordsIn s x) →
          (s.fs.freelist ≠ 0 → WordsIn s s.fs.freelist) →
          ∀ x, clearBelow bmap todo b x ∨ x ∈ L → x ∈ L')) ∧
      ∀ x, ¬ clearBelow bmap todo b x → x ∉ L → wordsOf s.fs t.img x = wordsOf s.fs s.img x) fun _ _ =>
      False := by
  induction todo generalizing s b nfree L with
  | zero =>
    refine ⟨sameVol_law.refl s, hhead, ⟨L, hL, hnd, fun _ h => .inr h, hin, fun _ _ _ x hx => ?_⟩,
      fun _ _ _ => rfl⟩
    exact hx.resolve_left fun h => by unfold clearBelow at h; omega
  | succ todo ih =>
    rw [NodesGoOut] at hgo
    have hstep := fun x => @clearBelow_succ bmap todo b x htop
    apply post_ite
    · intro hset
      rw [if_pos hset] at hgo
      have hsame : ∀ x, clearBelow bmap (todo + 1) b x ↔ clearBelow bmap todo (b - 1) x := by
        intro x
        rw [hstep x, hset]
        simp
      simp only [hsame]
      exact ih (b - 1) nfree hm (by omega) (by omega) hhead hL hnd hin
        (fun x hx => by have := hlow x hx; omega) hgo
    · intro hset
      rw [if_neg hset] at hgo
      have hclear : getBit bmap (b - 1 - p7Datastart) = false := Bool.eq_false_iff.mpr hset
      have hspec := post_p7fsBfree hm hhead hL hnd hin (show b - 1 ≠ 0 by omega) (by omega)
        (fun x hx => by have := hlow x hx; omega) hgo.1
      cases hr : p7fsBfree (b - 1) s with
      | error e t => exact (hspec.of_error hr).elim
      | ok _ t =>
        obtain ⟨hvol, hhead', ⟨L₁, hL₁, hnd₁, hsub₁, hin₁, hall₁⟩, hw₁⟩ := hspec.of_ok hr
        have hfin : final (p7fsBfree (b - 1)) s = t := by
          unfold final
          rw [hr]
        rw [hfin] at hgo
        have hwin : ∀ x, WordsIn t x ↔ WordsIn s x := wordsIn_of_sameVol hvol
        rw [bind_eq_of_ok hr]
        refine (ih (b - 1) (nfree + 1) (hm.of_sameVol hvol) (by omega) (by omega) hhead' hL₁ hnd₁
          (fun x hx => (hwin x).mpr (hin₁ x hx))
          (fun x hx => ?_) hgo.2).mono ?_ fun _ _ h => h
        · rcases hsub₁ x hx with rfl | hx
          · exact Nat.le_refl _
          · have := hlow x hx
            omega
        intro _ u hrun
        obtain ⟨hvol', hhead'', ⟨L', hL', hnd', hsub', hin', hall'⟩, hw'⟩ := hrun
        refine ⟨sameVol_law.trans hvol hvol', hhead'',
          ⟨L', hL', hnd', ?_, fun x hx => (hwin x).mp (hin' x hx), ?_⟩, ?_⟩
        · intro x hx
          rw [hstep x]
          rcases hsub' x hx with h | h
          · exact .inl (.inl h)
          · rcases hsub₁ x h with h | h
            · exact .inl (.inr ⟨h, hclear⟩)
            · exact .inr h
        · intro hq hcov hhd x hx
          have hqt : Onward t := hq.next hvol.env (hfin ▸ (p7fsBfree_onto (b - 1) s).2)
          obtain ⟨hhd₁, hmem₁⟩ := hall₁ hq (hcov (b - 1) ((hstep _).mpr (.inr ⟨rfl, hclear⟩))) hhd
          refine hall' hqt (fun x hx => (hwin x).mpr (hcov x ((hstep x).mpr (.inl hx))))
            (fun h => (hwin _).mpr (hhd₁ h)) x ?_
          rw [hstep x] at hx
          rcases hx with (h | ⟨h, -⟩) | h
          · exact .inl h
          · exact .inr (hmem₁ x (.inl h))
          · exact .inr (hmem₁ x (.inr h))
        · intro x hx hxL
          rw [hstep x, not_or] at hx
          have hne : x ≠ b - 1 := fun h => hx.2 ⟨h, hclear⟩
          have hrest := hw' x hx.1 fun h => (hsub₁ x h).elim hne hxL
          rw [shape_wordsOf hvol.shape] at hrest
          exact hrest.trans (hw₁ x hne hxL)

/-- A flush changes block 0 alone. -/
theorem p7SuperWrite_spec {s : Mnt} (hm : Mounted7 s) :
    Post (p7SuperWrite s)
      (fun _ t => SameVol s t ∧ t.fs.freelist = s.fs.freelist ∧ ∀ x, x ≠ 0 →
        wordsOf s.fs t.img x = wordsOf s.fs s.img x)
      fun _ t => SameVol s t ∧ t.fs.freelist = s.fs.freelist ∧ ∀ x, x ≠ 0 →
      wordsOf s.fs t.img x = wordsOf s.fs s.img x := by
  have hsame : ∀ {t : Mnt}, t = s ∨ (∃ k, t = { s with ios := k }) →
      SameVol s t ∧ t.fs.freelist = s.fs.freelist ∧ ∀ x, x ≠ 0 →
      wordsOf s.fs t.img x = wordsOf s.fs s.img x := by
    intro t h
    rcases h with rfl | ⟨k, rfl⟩
    · exact ⟨sameVol_law.refl _, rfl, fun _ _ => rfl⟩
    · exact ⟨⟨rfl, rfl, rfl⟩, rfl, fun _ _ => rfl⟩
  refine post_bindFs (post_bind
    (post_failAs (hm.post_readWords (fun _ _ => ?_) (fun _ _ => hsame (.inl rfl))
    fun _ _ => hsame (.inr ⟨_, rfl⟩))))
  have hm1 : Mounted7 (ticked s) := hm.of_sameVol (ticked_sameVol s)
  refine post_bind (post_failAs (hm1.post_writeWords (fun _ _ => ?_) (fun _ _ => hsame (.inr ⟨_, rfl⟩))
    fun _ _ => hsame (.inr ⟨_, rfl⟩)))
  exact ⟨⟨rfl, rfl, rfl⟩, rfl, fun x hx => wordsOf_putWordBlock_ne hx _ _⟩

/-- The rebuild of a PDP-7 list. -/
theorem p7fsMakefree_spec {s : Mnt} (hm : Mounted7 s) (bmap : Buf)
    (hgo : NodesGoOut bmap (p7Kdata - p7Datastart) p7Kdata
      { s with fs := { s.fs with freelist := 0, tfree := 0 } }) :
    Post (p7fsMakefree bmap s) (fun _ t => Regrown s (clearBelow bmap (p7Kdata - p7Datastart) p7Kdata)
      t) fun _ _ => False := by
  apply post_bindMod
  generalize hs0 : ({ s with fs := { s.fs with freelist := 0, tfree := 0 } } : Mnt) = s0 at *
  have hvol : SameVol s s0 := hs0 ▸ ⟨rfl, rfl, rfl⟩
  have himg : s0.img = s.img := by rw [← hs0]
  have h0 : s0.fs.freelist = 0 := by rw [← hs0]
  have hwin : ∀ x, WordsIn s0 x ↔ WordsIn s x := wordsIn_of_sameVol hvol
  refine post_bind ((p7FreeUnmarked_spec bmap _ _ 0 (hm.of_sameVol hvol) (by decide) (by decide)
    (by rw [h0]; decide) (.empty (.inl h0))
    List.nodup_nil (fun _ h => absurd h List.not_mem_nil) (fun _ h => absurd h List.not_mem_nil)
    hgo).mono ?_ fun _ _ h => h)
  intro n t hr
  obtain ⟨hvolt, -, ⟨L, hL, hnd, hsub, hin, hall⟩, hw⟩ := hr
  generalize ht1 : ({ t with fs := { t.fs with tfree := n } } : Mnt) = t1
  have hvolt1 : SameVol t t1 := ht1 ▸ ⟨rfl, rfl, rfl⟩
  have hvol1 : SameVol s t1 := sameVol_law.trans (sameVol_law.trans hvol hvolt) hvolt1
  have hL1 : Lists t1 L := hL.frame hvolt1 (by rw [← ht1]) fun b _ => by rw [← ht1]
  have himg1 : t1.img = t.img := by rw [← ht1]
  have hnz : ∀ x ∈ L, clearBelow bmap (p7Kdata - p7Datastart) p7Kdata x :=
    fun x hx => (hsub x hx).resolve_right List.not_mem_nil
  have hregrown : ∀ {u : Mnt}, SameVol t1 u ∧ u.fs.freelist = t1.fs.freelist ∧
      (∀ x, x ≠ 0 → wordsOf t1.fs u.img x = wordsOf t1.fs t1.img x) →
      Regrown s (clearBelow bmap (p7Kdata - p7Datastart) p7Kdata) u := by
    intro u hr
    obtain ⟨hvolu, hhead, hwu⟩ := hr
    refine ⟨sameVol_law.trans hvol1 hvolu, ⟨L, ?_, hnd, hnz, fun x hx => (hwin x).mp (hin x hx),
      fun hq hcov x hx => ?_⟩, fun x h0x hx => ?_⟩
    · refine hL1.frame hvolu hhead fun b hb => hwu b ?_
      rintro rfl
      exact absurd (hnz 0 hb).1 (by decide)
    · exact hall (hq.next hvol.env (Nat.le_of_eq (by rw [← hs0])))
        (fun y hy => (hwin y).mpr (hcov y hy)) (fun h => absurd h0 h) x (.inl hx)
    · have h1 := hwu x h0x
      have h2 := hw x hx List.not_mem_nil
      rw [shape_wordsOf hvol1.shape, himg1] at h1
      rw [shape_wordsOf hvol.shape, himg] at h2
      exact h1.trans h2
  apply post_bindMod
  rw [ht1]
  exact post_bind (post_attempt ((p7SuperWrite_spec (hm.of_sameVol hvol1)).mono
    (fun _ _ h => hregrown h) fun _ _ h => hregrown h))

end Filsys.Alloc
