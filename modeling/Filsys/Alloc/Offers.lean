/-
  Filsys.Alloc.Offers — every allocator against the data area.

  The free-list allocator looks at each number it pops, V1's and the in-superblock map
  have a bit for data blocks only. A bigmap has a bit for every block of the volume and
  the PDP-7's nodes hold any 18-bit number, and neither allocator looks at what it takes.
  What such a map or list names (`SpaceNames`) only grows by the blocks given back
  (`exec_keeps`), and with no transfer failing all of it is handed out in the end:
  - `handouts_in_data_iff`: whatever calls are made of an opened volume, the blocks
    handed out are data blocks exactly when its free space names data blocks only.
-/

import Filsys.Alloc.Bound
import Filsys.Alloc.Handout
import Filsys.Alloc.Regrow
import Filsys.Mount.Formats
import Filsys.Mount.Spaces

namespace Filsys.Alloc

open Filsys.Lib Filsys.Engine Filsys.Mount

/-! ## What the free space names -/

/-- The bytes of the in-core free map, in 32 bits: none for the seven largest volumes. -/
def bitBytes (fs : Fs) : Nat := (fs.v8Nbits + 7) % 2 ^ 32 / 8

/-- Block `b` lies in the image. -/
def BlockIn (fs : Fs) (b : Nat) : Prop := checkRange fs (fs.base + b * fs.desc.bsize) fs.desc.bsize = true

section Chain

variable (inImg : Nat → Prop)

/-- From head `h` the links lead to node `n`, through nodes of the image. -/
inductive OnChain (w : Words) : Nat → Nat → Prop
  | head {h : Nat} : h ≠ 0 → inImg h → OnChain w h h
  | next {h n : Nat} : h ≠ 0 → inImg h → OnChain w (w h 0) n → OnChain w h n

/-- The list from `h` names `x`, as a node or as an entry of one. -/
def ChainNames (w : Words) (h x : Nat) : Prop := ∃ n, OnChain inImg w h n ∧ (x = n ∨ x ∈ entriesBelow (w n) 9)

end Chain

/-- The blocks named where the allocator takes what it finds: the set bits of a bigmap, the nodes and
    entries of a PDP-7 list. -/
def SpaceNames (s : Mnt) (b : Nat) : Prop :=
  match s.fs.desc.alloc with
  | .freelist => False
  | .v8bitmap => s.fs.desc.freemap = .bigmap ∧ b < s.fs.fsize ∧ getBit s.fs.v8Bits b = true ∧ BlockIn s.fs b
  | .bitmap => False
  | .pdp7 => ChainNames (WordsIn s) (wordsOf s.fs s.img) s.fs.freelist b ∧ WordsIn s b

/-- The free space names data blocks only. -/
def NamesData (s : Mnt) : Prop := ∀ b, SpaceNames s b → DataBlock s.fs b

/-! ## Lists that name less -/

section Chain

variable {inImg : Nat → Prop} {w w' : Words} {h n x b : Nat}

theorem OnChain.start (hc : OnChain inImg w h n) : h ≠ 0 ∧ inImg h := by
  cases hc with
  | head h0 hin => exact ⟨h0, hin⟩
  | next h0 hin => exact ⟨h0, hin⟩

theorem OnChain.legible (hc : OnChain inImg w h n) : n ≠ 0 ∧ inImg n := by
  induction hc with
  | head h0 hin => exact ⟨h0, hin⟩
  | next _ _ _ ih => exact ih

theorem ChainNames.ne_zero (hx : ChainNames inImg w h x) : x ≠ 0 := by
  obtain ⟨n, hn, rfl | hx⟩ := hx
  · exact hn.legible.1
  · exact (mem_entriesBelow.mp hx).1

/-- Beside `b`, words that leave each link and each entry as it is or clear it name nothing more. -/
theorem ChainNames.of_less (hlink : ∀ m, inImg m → w' m 0 = 0 ∨ w' m 0 = w m 0)
    (hentry : ∀ m, inImg m → ∀ i, 1 ≤ i → i ≤ 9 → w' m i = 0 ∨ w' m i = b ∨ w' m i = w m i)
    (hx : ChainNames inImg w' h x) :
    x = b ∨ ChainNames inImg w h x := by
  obtain ⟨n, hn, hx⟩ := hx
  have hold : OnChain inImg w h n := by
    clear hx
    induction hn with
    | head h0 hin => exact .head h0 hin
    | @next h n h0 hin hrest ih =>
      rcases hlink h hin with hz | hsame
      · exact absurd hz hrest.start.1
      · rw [hsame] at ih
        exact .next h0 hin ih
  rcases hx with rfl | hx
  · exact .inr ⟨x, hold, .inl rfl⟩
  · obtain ⟨hx0, i, h1, h9, hi⟩ := mem_entriesBelow.mp hx
    rcases hentry n hold.legible.2 i h1 h9 with hz | hb | hsame
    · exact absurd (hi.symm.trans hz) hx0
    · exact .inl (hi.symm.trans hb)
    · exact .inr ⟨n, hold, .inr (mem_entriesBelow.mpr ⟨hx0, i, h1, h9, hsame.symm.trans hi⟩)⟩

theorem ChainNames.of_fewer (hless : ∀ m, inImg m → ∀ i, i ≤ 9 → w' m i = 0 ∨ w' m i = w m i)
    (hx : ChainNames inImg w' h x) :
    ChainNames inImg w h x := by
  have hentry : ∀ m, inImg m → ∀ i, 1 ≤ i → i ≤ 9 → w' m i = 0 ∨ w' m i = 0 ∨ w' m i = w m i :=
    fun m hm i _ hi => .inr (hless m hm i hi)
  exact (hx.of_less (fun m hm => hless m hm 0 (by decide)) hentry).resolve_left hx.ne_zero

/-- A node `b` before the list, without entries, names itself beside. -/
theorem ChainNames.of_node (hnode : inImg b → w' b 0 = h ∧ ∀ i, 1 ≤ i → i ≤ 9 → w' b i = 0)
    (hne : ∀ m, m ≠ b → ∀ i, i ≤ 9 → w' m i = w m i) (hx : ChainNames inImg w' b x) :
    x = b ∨ ChainNames inImg w h x := by
  obtain ⟨n, hn, hx⟩ := hx
  have hold : ∀ {m : Nat}, OnChain inImg w' m n → n = b ∨ OnChain inImg w h n ∨
    m ≠ b ∧ OnChain inImg w m n := by
    intro m hm
    induction hm with
    | @head m h0 hin =>
      by_cases hmb : m = b
      · exact .inl hmb
      · exact .inr (.inr ⟨hmb, .head h0 hin⟩)
    | @next m n h0 hin _ ih =>
      by_cases hmb : m = b
      · subst hmb
        rw [(hnode hin).1] at ih
        rcases ih hn hx with hnb | hh | ⟨-, hh⟩
        · exact .inl hnb
        · exact .inr (.inl hh)
        · exact .inr (.inl hh)
      · rw [hne m hmb 0 (by decide)] at ih
        rcases ih hn hx with hnb | hh | ⟨-, hh⟩
        · exact .inl hnb
        · exact .inr (.inl hh)
        · exact .inr (.inr ⟨hmb, .next h0 hin hh⟩)
  have hreach : n = b ∨ OnChain inImg w h n := by
    rcases hold hn with hnb | hh | ⟨hb, -⟩
    · exact .inl hnb
    · exact .inr hh
    · exact absurd rfl hb
  by_cases hnb : n = b
  · subst hnb
    rcases hx with rfl | hx
    · exact .inl rfl
    · obtain ⟨hx0, i, h1, h9, hi⟩ := mem_entriesBelow.mp hx
      exact absurd (hi.symm.trans ((hnode hn.legible.2).2 i h1 h9)) hx0
  · refine .inr ⟨n, hreach.resolve_left hnb, hx.imp id fun hx => ?_⟩
    rwa [entriesBelow_congr fun i _ hi => hne n hnb i hi] at hx

theorem fewer_take (w : Words) (h m i : Nat) : (take w h).2.1 m i = 0 ∨ (take w h).2.1 m i = w m i := by
  unfold take
  dsimp only
  split
  · show zeroed w h m i = 0 ∨ zeroed w h m i = w m i
    unfold zeroed
    split <;> simp
  · show zeroed (cleared w h _) _ m i = 0 ∨ zeroed (cleared w h _) _ m i = w m i
    unfold zeroed cleared
    split
    · exact .inl rfl
    · split <;> simp

/-- What is taken is named, and the list left names nothing more. -/
theorem chainNames_take (h0 : h ≠ 0) (hin : inImg h) : ChainNames inImg w h (take w h).1 ∧
    ∀ x, ChainNames inImg (take w h).2.1 (take w h).2.2 x → ChainNames inImg w h x := by
  have hless : ∀ m, inImg m → ∀ i, i ≤ 9 → (take w h).2.1 m i = 0 ∨ (take w h).2.1 m i = w m i :=
    fun m _ i _ => fewer_take w h m i
  by_cases hlast : p7Last (w h) = 0
  · have htake := take_exhausted hlast
    refine ⟨⟨h, .head h0 hin, .inl (by rw [htake])⟩, fun x hx => ?_⟩
    obtain ⟨n, hn, hxn⟩ := hx.of_fewer hless
    rw [htake] at hn
    exact ⟨n, .next h0 hin hn, hxn⟩
  · have htake := take_entry hlast
    refine ⟨⟨h, .head h0 hin, .inr ?_⟩, ?_⟩
    · rw [entries_take hlast, htake]
      exact List.mem_cons_self
    · intro x hx
      have hx := hx.of_fewer hless
      rwa [htake] at hx

/-- Of a chain that ends, the nodes and entries are the list. -/
theorem mem_listed_of_names {ns : List Nat} (hs : Seg inImg w h ns) (hx : ChainNames inImg w h x) :
    x ∈ listed w ns := by
  obtain ⟨n, hn, hx⟩ := hx
  have hmem : n ∈ ns := by
    clear hx
    induction hs with
    | stop hstop =>
      obtain ⟨h0, hin⟩ := hn.start
      exact absurd hin (hstop.resolve_left h0)
    | node _ _ _ ih =>
      cases hn with
      | head => exact List.mem_cons_self
      | next _ _ hrest => exact List.mem_cons_of_mem _ (ih hrest)
  refine List.mem_flatMap.mpr ⟨n, hmem, List.mem_append.mpr ?_⟩
  exact hx.symm.imp id List.mem_singleton.mpr

end Chain

/-- The bits a scan passes over are clear. -/
theorem firstBit_below {bits : Buf} {n i j : Nat} (h : firstBit bits n i = some j) :
    ∀ k, i ≤ k → k < j → getBit bits k = false := by
  induction n generalizing i with
  | zero => cases h
  | succ n ih =>
    intro k hik hkj
    unfold firstBit at h
    split at h
    · obtain rfl := Option.some.inj h
      omega
    · rcases Nat.eq_or_lt_of_le hik with rfl | hlt
      · exact Bool.eq_false_iff.mpr ‹_›
      · exact ih h k hlt hkj

/-! ## The free list and V1's map -/

theorem v7fsBalloc_inData (s : Mnt) : Post (v7fsBalloc s) (fun b _ => InData s.fs b) fun _ _ => True := by
  refine post_bindFs (post_ite (fun _ => trivial) fun _ =>
    post_bindMod (post_ite (fun _ => trivial) fun _ => post_ite (fun _ => trivial) fun hin => ?_))
  refine post_bind (Post.mono (post_true _) (fun _ t _ => ?_) fun _ _ h => h)
  refine post_bind (Post.mono (post_true _) (fun _ u _ => ?_) fun _ _ h => h)
  exact post_bind (show Post (modFs _ u) _ _ from ⟨by omega, by omega⟩)

theorem v1fsBalloc_inData (s : Mnt) :
    Post (v1fsBalloc s) (fun b _ => v1DataStart s.fs.maxino ≤ b ∧ b < s.fs.fsize) fun _ _ => True := by
  apply post_bindFs
  cases hf : firstBit s.fs.freemap (s.fs.fsize - v1DataStart s.fs.maxino) (v1DataStart s.fs.maxino) with
  | none => trivial
  | some b =>
    obtain ⟨h1, h2, -⟩ := firstBit_spec hf
    refine post_bindMod (post_bind (Post.mono (post_true _) (fun _ t _ => ?_) fun _ _ h => h))
    exact post_bind (show Post (modFs _ t) _ _ from ⟨h1, by omega⟩)

/-! ## The bit maps of the V8 family -/

theorem laid_dataBlock {fs : Fs} (hl : Laid fs) (ha : fs.desc.alloc = .v8bitmap) (b : Nat) :
    DataBlock fs b ↔ fs.isize ≤ b ∧ b < fs.fsize - fs.v8Nblks := by
  obtain ⟨hops, -, -, hcount⟩ := hl.kind.map ha
  unfold DataBlock opsDataStart opsDataEnd v7DataFirst
  rw [hops, hcount]
  simp

/-- The lowest bit goes, whether or not its block can be zeroed. -/
theorem v8BitmapBalloc_bits (s : Mnt) : Post (v8BitmapBalloc s)
    (fun b t => t.env = s.env ∧ ∃ i, firstBit s.fs.v8Bits s.fs.v8Nbits 0 = some i ∧
      b = s.fs.v8Base + i ∧ BlockIn s.fs b ∧
      t.fs.v8Bits = putBit s.fs.v8Bits i false)
    fun _ t => t.env = s.env ∧ (firstBit s.fs.v8Bits s.fs.v8Nbits 0 = none ∧ t.fs.v8Bits = s.fs.v8Bits ∨
      ∃ i, firstBit s.fs.v8Bits s.fs.v8Nbits 0 = some i ∧ t.fs.v8Bits = putBit s.fs.v8Bits i false) := by
  apply post_bindFs
  cases hf : firstBit s.fs.v8Bits s.fs.v8Nbits 0 with
  | none => exact ⟨rfl, .inl ⟨rfl, rfl⟩⟩
  | some i =>
    have hlost : ∀ {t : Mnt}, t.env = s.env → t.fs.v8Bits = putBit s.fs.v8Bits i false → t.env = s.env ∧
        (some i = none ∧ t.fs.v8Bits = s.fs.v8Bits ∨ ∃ j, some i = some j ∧
          t.fs.v8Bits = putBit s.fs.v8Bits j false) :=
      fun he hb => ⟨he, .inr ⟨i, rfl, hb⟩⟩
    refine post_bindMod (post_bind (post_failAs (post_bindFs (post_ite (fun _ => hlost rfl rfl) fun _ =>
      post_ite (fun hin => ?_) fun _ => hlost rfl rfl))))
    refine post_ioWrite (fun _ => ?_) fun _ => hlost rfl rfl
    exact post_bind (show Post (modFs _ _) _ _ from ⟨rfl, i, rfl, rfl, hin, rfl⟩)

/-- On a writable mount whose transfers go through a block of the image is handed out. -/
theorem v8BitmapBalloc_gives {s : Mnt} (hro : s.fs.readonly = false) (hq : ∀ k, s.env.fails k = false) {i : Nat}
    (hf : firstBit s.fs.v8Bits s.fs.v8Nbits 0 = some i) (hin : BlockIn s.fs (s.fs.v8Base + i)) :
    Post (v8BitmapBalloc s) (fun b _ => b = s.fs.v8Base + i) fun _ _ => False := by
  apply post_bindFs
  rw [hf]
  refine post_bindMod (post_bind
    (post_failAs (post_bindFs (post_ite (fun h => absurd (hro.symm.trans h) (by decide)) fun _ =>
    post_ite (fun _ => ?_) fun hout => absurd hin hout))))
  refine post_ioWrite (fun _ => ?_) fun hfail => absurd ((hq _).symm.trans hfail) (by decide)
  exact post_bind (show Post (modFs _ _) _ _ from rfl)

theorem v8BitmapBfree_bits (b : Nat) (s : Mnt) : Post (v8BitmapBfree b s)
    (fun _ t => ∀ i, getBit t.fs.v8Bits i = true → getBit s.fs.v8Bits i = true ∨ s.fs.v8Base + i = b)
    fun _ _ => False := by
  refine post_bindFs (post_ite (fun _ i hi => .inl hi) fun hin => fun i hi => ?_)
  have hi : getBit (putBit s.fs.v8Bits (b - s.fs.v8Base) true) i = true := hi
  rw [getBit_putBit] at hi
  split at hi
  · rename_i heq
    exact .inr (by omega)
  · exact .inl hi

/-! ## The PDP-7's nodes -/

/-- The list of `s` names `x`. -/
def ListNames (s : Mnt) (x : Nat) : Prop := ChainNames (WordsIn s) (wordsOf s.fs s.img) s.fs.freelist x

section Nodes

variable {s : Mnt} (hm : Mounted7 s) (hq : ∀ k, s.env.fails k = false)

/-- The list of a mount that holds the words `w` and the head `h`. -/
theorem Holds7.names {t : Mnt} {w : Words} {h : Nat} (ht : Holds7 t w h) (hvol : SameVol s t)
    {x : Nat} (hx : ListNames t x) :
    ChainNames (WordsIn s) w h x := by
  have hin : WordsIn t = WordsIn s := funext fun b => propext (wordsIn_of_sameVol hvol b)
  have hsame : ∀ m, WordsIn t m → ∀ i, i ≤ 9 → wordsOf t.fs t.img m i = 0 ∨ wordsOf t.fs t.img m i = w m i :=
    fun m hmin i hi => .inr (ht.words m hmin i (by omega))
  have hold := hx.of_fewer hsame
  rwa [hin, ht.head] at hold

include hm hq

/-- A call takes what is named, and nothing more is named after it. -/
theorem p7fsBalloc_names (hlt : s.fs.freelist < 2 ^ 18) : Post (p7fsBalloc s)
    (fun b t => (ListNames s b ∧ WordsIn s b) ∧ SameVol s t ∧ t.fs.freelist < 2 ^ 18 ∧ ∀ x,
      ListNames t x → ListNames s x)
    fun _ t => SameVol s t ∧ t.fs.freelist < 2 ^ 18 ∧ ∀ x, ListNames t x → ListNames s x := by
  have hr := holds7_self s
  by_cases hstop : s.fs.freelist = 0 ∨ ¬ WordsIn s s.fs.freelist
  · refine (post_p7fsBalloc_stop hm hq hr hstop).mono (fun _ _ h => h.elim) ?_
    intro e t hrun
    obtain ⟨rfl, -⟩ := hrun
    exact ⟨sameVol_law.refl _, hlt, fun _ h => h⟩
  · rw [not_or, not_not] at hstop
    obtain ⟨hnamed, hless⟩ := chainNames_take (w := wordsOf s.fs s.img) hstop.1 hstop.2
    have hhead : (take (wordsOf s.fs s.img) s.fs.freelist).2.2 < 2 ^ 18 := by
      by_cases hlast : p7Last (wordsOf s.fs s.img s.fs.freelist) = 0
      · rw [take_exhausted hlast]
        exact wordsOf_lt _ _ _ _
      · rw [take_entry hlast]
        exact hlt
    refine (post_p7fsBalloc hm hq hr hstop.1 hstop.2).mono ?_ ?_
    · intro b t hrun
      obtain ⟨rfl, hin, ht, hvol⟩ := hrun
      refine ⟨⟨hnamed, hin⟩, hvol, by rw [ht.head]; exact hhead, ?_⟩
      intro x hx
      exact hless x (ht.names hvol hx)
    · intro e t hrun
      obtain ⟨-, ht, hvol⟩ := hrun
      refine ⟨hvol, by rw [ht.head]; exact hhead, ?_⟩
      intro x hx
      exact hless x (ht.names hvol hx)

/-- Given back, a block is named beside what was. -/
theorem p7fsBfree_names (hlt : s.fs.freelist < 2 ^ 18) {b : Nat} (hb : b < 2 ^ 18) : Post (p7fsBfree b s)
    (fun _ t => SameVol s t ∧ t.fs.freelist < 2 ^ 18 ∧ ∀ x, ListNames t x → x = b ∨ ListNames s x)
    fun _ _ => False := by
  have hr := holds7_self s
  refine post_bindFs (post_ite (fun _ => ⟨sameVol_law.refl _, hlt, fun _ h => .inr h⟩) fun _ =>
    post_ite (fun h0 => ?_) fun h0 => ?_)
  · -- the first node of an empty list
    have hm1 : Mounted7 { s with fs := { s.fs with freelist := b } } := hm.of_sameVol ⟨rfl, rfl, rfl⟩
    refine post_bindMod (post_bind (post_attempt (hm1.post_writeWords ?_ ?_ ?_)))
    · intro _ _
      have hr1 : Holds7 { s with fs := { s.fs with freelist := b } } (wordsOf s.fs s.img) b :=
        ⟨rfl, fun _ _ _ _ => rfl⟩
      have hput := hr1.put .dump b (fun _ => 0) (zeroed (wordsOf s.fs s.img) b) (fun _ _ => by decide)
        (fun _ _ => if_pos rfl) fun x hx => zeroed_ne hx
      refine ⟨⟨rfl, rfl, rfl⟩, hb, fun x hx => ?_⟩
      have hx := hput.names ⟨rfl, rfl, rfl⟩ hx
      have hnode : WordsIn s b → zeroed (wordsOf s.fs s.img) b b 0 = s.fs.freelist ∧ ∀ i, 1 ≤ i →
        i ≤ 9 → zeroed (wordsOf s.fs s.img) b b i = 0 :=
        fun _ => ⟨(if_pos rfl).trans h0.symm, fun _ _ _ => if_pos rfl⟩
      exact hx.of_node hnode fun m hmb i _ => by rw [zeroed_ne hmb]
    · intro hout _
      refine ⟨⟨rfl, rfl, rfl⟩, hb, fun x hx => ?_⟩
      obtain ⟨n, hn, -⟩ := hx
      exact absurd hn.start.2 hout
    · intro hf _
      exact absurd ((hq _).symm.trans hf) (by decide)
  · refine post_bind (post_attempt (hm.post_readWords ?_ ?_ ?_))
    · intro hinh _
      have hm1 : Mounted7 (ticked s) := hm.of_sameVol (ticked_sameVol s)
      have hr1 : Holds7 (ticked s) (wordsOf s.fs s.img) s.fs.freelist := hr.ticked
      simp only
      cases hslot : p7Slot (wordsOf s.fs s.img s.fs.freelist) with
      | some i =>
        obtain ⟨h1, h9, -⟩ := p7Slot_spec hslot
        simp only
        refine post_bind (post_attempt (hm1.post_writeWords ?_ (fun hno _ => absurd hinh hno) ?_))
        · intro _ _
          have hput := hr1.put .dump s.fs.freelist (fun j => if j = i then b
            else wordsOf s.fs s.img s.fs.freelist j)
            (replaced (wordsOf s.fs s.img) s.fs.freelist fun j => if j = i then b
              else wordsOf s.fs s.img s.fs.freelist j)
            (fun j _ => by
              split
              · exact hb
              · exact wordsOf_lt _ _ _ _)
            (fun _ _ => if_pos rfl) fun x hx => replaced_ne hx
          refine ⟨⟨rfl, rfl, rfl⟩, hlt, fun x hx => (hput.names ⟨rfl, rfl, rfl⟩ hx).of_less
            (fun m _ => .inr ?_) fun m _ j _ _ => ?_⟩
          · by_cases hmh : m = s.fs.freelist
            · rw [hmh]
              exact (if_pos rfl).trans (if_neg (by omega))
            · rw [replaced_ne hmh]
          · by_cases hmh : m = s.fs.freelist
            · rw [hmh]
              by_cases hji : j = i
              · exact .inr (.inl ((if_pos rfl).trans (if_pos hji)))
              · exact .inr (.inr ((if_pos rfl).trans (if_neg hji)))
            · rw [replaced_ne hmh]
              exact .inr (.inr rfl)
        · intro hf _
          exact absurd ((hq _).symm.trans hf) (by decide)
      | none =>
        -- the head node is full: the block goes before it
        simp only
        refine post_bind (post_attempt (hm1.post_writeWords ?_ ?_ ?_))
        · intro _ _
          have hput := hr1.put .dump b (fun j => if j = 0 then s.fs.freelist else 0)
            (replaced (wordsOf s.fs s.img) b fun j => if j = 0 then s.fs.freelist else 0)
            (fun j _ => by
              split
              · exact hlt
              · decide)
            (fun _ _ => if_pos rfl) fun x hx => replaced_ne hx
          have hnew : Holds7 { putWords .dump b (fun j => if j = 0 then s.fs.freelist else 0) (ticked s) with
              fs := { s.fs with freelist := b } }
              (replaced (wordsOf s.fs s.img) b fun j => if j = 0 then s.fs.freelist else 0) b :=
                ⟨rfl, hput.words⟩
          refine ⟨⟨rfl, rfl, rfl⟩, hb, fun x hx => (hnew.names ⟨rfl, rfl, rfl⟩ hx).of_node
            (fun _ => ⟨?_, fun i h1 _ => ?_⟩) fun m hmb i _ => ?_⟩
          · exact (if_pos rfl).trans (if_pos rfl)
          · exact (if_pos rfl).trans (if_neg (by omega))
          · rw [replaced_ne hmb]
        · intro hout _
          refine ⟨⟨rfl, rfl, rfl⟩, hb, fun x hx => ?_⟩
          obtain ⟨n, hn, -⟩ := hx
          exact absurd hn.start.2 hout
        · intro hf _
          exact absurd ((hq _).symm.trans hf) (by decide)
    · intro hout _
      exact ⟨sameVol_law.refl _, hlt, fun _ h => .inr h⟩
    · intro hf _
      exact absurd ((hq _).symm.trans hf) (by decide)

end Nodes

/-! ## One call -/

namespace Call

/-- The call on the mount, through its edition's allocator. -/
def exec : Call → M (Option Nat)
  | balloc => do
    let b ← Engine.balloc
    return some b
  | bfree b => do
    Engine.bfree b
    return none

theorem exec_shape (c : Call) : Keeps SameShape c.exec := by
  have law := sameShape_law
  cases c with
  | balloc => exact law.seq law.balloc fun _ => law.ret _
  | bfree b => exact law.seq (law.bfree b) fun _ => law.ret _

end Call

/-- What a call may give back where the allocator takes what it finds. -/
def MayCall (fs : Fs) : Call → Prop
  | .balloc => True
  | .bfree b => fs.desc.freemap = .bigmap ∨ fs.desc.alloc = .pdp7 → DataBlock fs b

/-- An opened volume as a run of calls has it. -/
structure Serving (s : Mnt) : Prop where
  solo : Solo s
  laid : Laid s.fs
  words : s.fs.desc.alloc = .pdp7 → s.fs.readonly = false → Mounted7 s ∧ s.fs.freelist < 2 ^ 18 ∧ ∀ k,
    s.env.fails k = false

theorem namesData_looked {s : Mnt} (h : s.fs.desc.alloc = .freelist ∨ s.fs.desc.alloc = .bitmap) :
    NamesData s := by
  intro b hb
  unfold SpaceNames at hb
  rcases h with h | h
  · rw [h] at hb
    exact hb.elim
  · rw [h] at hb
    exact hb.elim

theorem namesData_map {s : Mnt} (h : s.fs.desc.alloc = .v8bitmap) : NamesData s ↔ (s.fs.desc.freemap = .bigmap →
    ∀ b, b < s.fs.fsize → getBit s.fs.v8Bits b = true → BlockIn s.fs b → DataBlock s.fs b) := by
  unfold NamesData SpaceNames
  rw [h]
  constructor
  · intro hn hbig b hlt hset hin
    exact hn b ⟨hbig, hlt, hset, hin⟩
  · intro hn b hb
    exact hn hb.1 b hb.2.1 hb.2.2.1 hb.2.2.2

theorem namesData_nodes {s : Mnt} (h : s.fs.desc.alloc = .pdp7) : NamesData s ↔ ∀ b, ListNames s b →
    WordsIn s b → DataBlock s.fs b := by
  unfold NamesData SpaceNames
  rw [h]
  exact ⟨fun hn b hname hin => hn b ⟨hname, hin⟩, fun hn b hb => hn b hb.1 hb.2⟩

section Calls

variable {s : Mnt}

/-- What a call does on a volume that names data blocks only. -/
def Served (s : Mnt) (r : Option Nat) (t : Mnt) : Prop :=
  (∀ b, r = some b → DataBlock s.fs b) ∧ Serving t ∧ NamesData t

theorem Serving.next {t : Mnt} (hs : Serving s) (ht : SameShape s t) (h7 : s.fs.desc.alloc ≠ .pdp7) :
    Serving t := by
  obtain ⟨hsolo, hshape⟩ := ht hs.solo
  refine ⟨hsolo, hs.laid.of_shape hshape, ?_⟩
  intro h
  exact absurd ((congrArg Desc.alloc (shape_desc hshape)).symm.trans h) h7

theorem inData_dataBlock (hl : Laid s.fs) (ha : s.fs.desc.alloc = .freelist) {b : Nat}
    (hb : InData s.fs b) : DataBlock s.fs b := by
  obtain ⟨h1, h7, hlist⟩ := hl.kind.list ha
  have hnblks : s.fs.v8Nblks = 0 := hl.noTail (by rw [hlist]; decide)
  unfold DataBlock opsDataStart opsDataEnd
  cases hops : s.fs.desc.ops with
  | v1 => exact absurd hops h1
  | pdp7 => exact absurd hops h7
  | v6 => exact ⟨hb.1, by rw [hnblks]; exact hb.2⟩
  | v7 => exact ⟨hb.1, by rw [hnblks]; exact hb.2⟩
  | bsd211 => exact ⟨hb.1, by rw [hnblks]; exact hb.2⟩

/-- Where the allocator looks at what it takes, a block handed out is a data block. -/
theorem balloc_looked (hs : Serving s) (ha : s.fs.desc.alloc = .freelist ∨ s.fs.desc.alloc = .bitmap) :
    Post (balloc s) (fun b _ => DataBlock s.fs b) fun _ _ => True := by
  apply post_bindFs
  rcases ha with ha | ha
  · rw [ha]
    exact (v7fsBalloc_inData s).mono (fun _ _ hb => inData_dataBlock hs.laid ha hb) fun _ _ h => h
  · rw [ha]
    refine (v1fsBalloc_inData s).mono (fun b _ hb => ?_) fun _ _ h => h
    unfold DataBlock opsDataStart opsDataEnd
    rw [(hs.laid.kind.v1 ha).1]
    exact hb

theorem BlockIn.of_shape {fs fs' : Fs} (h : shape fs' = shape fs) {b : Nat} (hb : BlockIn fs' b) :
    BlockIn fs b := by
  have himg : fs'.imgsize = fs.imgsize := congrArg Shape.imgsize h
  unfold BlockIn checkRange at *
  rwa [shape_base h, shape_desc h, himg] at hb

/-- Of a map a call clears bits or sets a data block's, and the map names data blocks still. -/
theorem namesData_map_next {t : Mnt} (ha : s.fs.desc.alloc = .v8bitmap)
    (hshape : shape t.fs = shape s.fs) (hn : NamesData s)
    (hbits : ∀ i, getBit t.fs.v8Bits i = true → getBit s.fs.v8Bits i = true ∨
      (s.fs.desc.freemap = .bigmap → DataBlock s.fs i)) : NamesData t := by
  have hdesc := shape_desc hshape
  rw [namesData_map (by rw [hdesc]; exact ha)]
  rw [namesData_map ha] at hn
  intro hbig b hlt hset hin
  rw [hdesc] at hbig
  rw [shape_fsize hshape] at hlt
  rw [shape_dataBlock hshape]
  exact (hbits b hset).elim (fun h => hn hbig b hlt h (hin.of_shape hshape)) fun h => h hbig

theorem exec_map (hs : Serving s) (ha : s.fs.desc.alloc = .v8bitmap) (hn : NamesData s)
    (c : Call) (hc : MayCall s.fs c) :
    Post (c.exec s) (fun r t => Served s r t) fun _ t => Serving t ∧ NamesData t := by
  have hshape := c.exec_shape s
  have h7 : s.fs.desc.alloc ≠ .pdp7 := by rw [ha]; decide
  have hne := (hs.laid.kind.map ha).2.1
  have hext := hs.laid.extent hne
  have hclear : ∀ {t : Mnt} {i : Nat}, t.fs.v8Bits = putBit s.fs.v8Bits i false → ∀ j,
    getBit t.fs.v8Bits j = true → getBit s.fs.v8Bits j = true := by
    intro t i ht j hj
    rw [ht, getBit_putBit] at hj
    split at hj
    · cases hj
    · exact hj
  cases c with
  | balloc =>
    have hbits : Post (Call.balloc.exec s)
        (fun r t => (∀ b, r = some b → DataBlock s.fs b) ∧ ∀ j, getBit t.fs.v8Bits j = true →
          getBit s.fs.v8Bits j = true)
        fun _ t => ∀ j, getBit t.fs.v8Bits j = true → getBit s.fs.v8Bits j = true := by
      refine post_bind (post_bindFs ?_)
      rw [ha]
      refine (v8BitmapBalloc_bits s).mono ?_ ?_
      · intro b t hrun
        obtain ⟨-, i, hi, rfl, hin, ht⟩ := hrun
        obtain ⟨-, hlt, hset⟩ := firstBit_spec hi
        refine ⟨fun b' hb' => ?_, hclear ht⟩
        obtain rfl := Option.some.inj hb'
        by_cases hbig : s.fs.desc.freemap = .bigmap
        · have hbase := hs.laid.bigmap hbig
          rw [hbase, Nat.zero_add] at hin ⊢
          exact (namesData_map ha).mp hn hbig i (by omega) hset hin
        · have hmap : s.fs.desc.freemap = .bitmap := by
            cases hm : s.fs.desc.freemap with
            | list => exact absurd hm hne
            | bitmap => rfl
            | bigmap => exact absurd hm hbig
          have hbase := hs.laid.bitmap hmap
          have hnblks := hs.laid.noTail hbig
          rw [laid_dataBlock hs.laid ha]
          omega
      · intro e t hrun
        rcases hrun with ⟨-, ⟨-, ht⟩ | ⟨i, -, ht⟩⟩
        · exact fun j hj => ht ▸ hj
        · exact hclear ht
    refine (hshape.and hbits).mono ?_ ?_
    · intro r t hrun
      obtain ⟨hsh, hr, hless⟩ := hrun
      exact ⟨hr, hs.next hsh h7, namesData_map_next ha (hsh hs.solo).2 hn fun i hi => .inl (hless i hi)⟩
    · intro e t hrun
      obtain ⟨hsh, hless⟩ := hrun
      exact ⟨hs.next hsh h7, namesData_map_next ha (hsh hs.solo).2 hn fun i hi => .inl (hless i hi)⟩
  | bfree b =>
    have hbits : Post ((Call.bfree b).exec s)
        (fun r t => r = none ∧ ∀ i, getBit t.fs.v8Bits i = true → getBit s.fs.v8Bits i = true ∨
          s.fs.v8Base + i = b) fun _ _ => False := by
      refine post_bind (post_bindFs ?_)
      rw [ha]
      exact (v8BitmapBfree_bits b s).mono (fun _ _ h => ⟨rfl, h⟩) fun _ _ h => h
    refine (hshape.and hbits).mono ?_ fun _ _ h => h.2.elim
    intro r t hrun
    obtain ⟨hsh, rfl, hmore⟩ := hrun
    refine ⟨fun b' hb' => (by cases hb'), hs.next hsh h7, namesData_map_next ha (hsh hs.solo).2 hn
      fun i hi => (hmore i hi).imp id fun heq hbig => ?_⟩
    rw [hs.laid.bigmap hbig, Nat.zero_add] at heq
    exact heq ▸ hc (.inl hbig)

theorem exec_nodes (hs : Serving s) (ha : s.fs.desc.alloc = .pdp7) (hn : NamesData s)
    (c : Call) (hc : MayCall s.fs c) :
    Post (c.exec s) (fun r t => Served s r t) fun _ t => Serving t ∧ NamesData t := by
  by_cases hro : s.fs.readonly = true
  · -- nothing is done on a read-only mount
    cases c with
    | balloc =>
      refine post_bind (post_bindFs ?_)
      rw [ha]
      exact post_bindFs (post_ite (fun _ => ⟨hs, hn⟩) fun h => absurd hro h)
    | bfree b =>
      refine post_bind (post_bindFs ?_)
      rw [ha]
      exact post_bindFs (post_ite (fun _ => ⟨fun _ h => (by cases h), hs, hn⟩) fun h => absurd (.inr hro) h)
  · obtain ⟨hm, hlt, hq⟩ := hs.words ha (Bool.eq_false_iff.mpr hro)
    have hnext : ∀ {t : Mnt}, SameVol s t → t.fs.freelist < 2 ^ 18 →
      (∀ x, ListNames t x → WordsIn s x → DataBlock s.fs x) → Serving t ∧ NamesData t := by
      intro t hvol hhead hdata
      have hdesc := shape_desc hvol.shape
      have hmt := hm.of_sameVol hvol
      refine ⟨⟨hmt.solo, hs.laid.of_shape hvol.shape, fun _ _ =>
        ⟨hmt, hhead, fun k => by rw [hvol.env]; exact hq k⟩⟩, ?_⟩
      rw [namesData_nodes (by rw [hdesc]; exact ha)]
      intro b hb hin
      rw [shape_dataBlock hvol.shape]
      exact hdata b hb ((wordsIn_of_sameVol hvol b).mp hin)
    rw [namesData_nodes ha] at hn
    cases c with
    | balloc =>
      refine post_bind (post_bindFs ?_)
      rw [ha]
      refine (p7fsBalloc_names hm hq hlt).mono ?_ ?_
      · intro b t hr
        obtain ⟨⟨hname, hin⟩, hvol, hhead, hless⟩ := hr
        refine ⟨fun b' hb' => ?_, hnext hvol hhead fun x hx hxin => hn x (hless x hx) hxin⟩
        obtain rfl := Option.some.inj hb'
        exact hn b hname hin
      · intro e t hr
        obtain ⟨hvol, hhead, hless⟩ := hr
        exact hnext hvol hhead fun x hx hxin => hn x (hless x hx) hxin
    | bfree b =>
      have hdata : DataBlock s.fs b := hc (.inr ha)
      have hb : b < 2 ^ 18 := by
        have hend : b < p7Kdata := by
          have hlast := hdata.2
          unfold opsDataEnd at hlast
          rw [(hs.laid.kind.pdp7 ha).1] at hlast
          exact hlast
        exact Nat.lt_trans hend (by decide)
      refine post_bind (post_bindFs ?_)
      rw [ha]
      refine (p7fsBfree_names hm hq hlt hb).mono ?_ fun _ _ h => h.elim
      intro _ t hr
      obtain ⟨hvol, hhead, hmore⟩ := hr
      refine ⟨fun b' hb' => (by cases hb'), hnext hvol hhead fun x hx hxin => ?_⟩
      rcases hmore x hx with rfl | hx
      · exact hdata
      · exact hn x hx hxin

/-- A call on a volume that names data blocks only hands out a data block, and the volume goes on naming
    data blocks only. -/
theorem exec_keeps (hs : Serving s) (hn : NamesData s) (c : Call) (hc : MayCall s.fs c) :
    Post (c.exec s) (fun r t => Served s r t) fun _ t => Serving t ∧ NamesData t := by
  have hlooked : s.fs.desc.alloc = .freelist ∨ s.fs.desc.alloc = .bitmap →
      Post (c.exec s) (fun r t => Served s r t) fun _ t => Serving t ∧ NamesData t := by
    intro ha
    have h7 : s.fs.desc.alloc ≠ .pdp7 := by rcases ha with ha | ha <;> rw [ha] <;> decide
    have hnames : ∀ {t : Mnt}, SameShape s t → NamesData t := fun ht => by
      apply namesData_looked
      rw [shape_desc (ht hs.solo).2]
      exact ha
    have hdata : Post (c.exec s) (fun r _ => ∀ b, r = some b → DataBlock s.fs b) fun _ _ => True := by
      cases c with
      | balloc =>
        refine post_bind ((balloc_looked hs ha).mono (fun b _ hb b' hb' => ?_) fun _ _ h => h)
        exact Option.some.inj hb' ▸ hb
      | bfree b => exact post_bind ((post_true _).mono (fun _ _ _ _ h => by cases h) fun _ _ h => h)
    exact ((c.exec_shape s).and hdata).mono (fun _ _ h => ⟨h.2, hs.next h.1 h7, hnames h.1⟩)
      fun _ _ h => ⟨hs.next h.1 h7, hnames h.1⟩
  cases ha : s.fs.desc.alloc with
  | freelist => exact hlooked (.inl ha)
  | v8bitmap => exact exec_map hs ha hn c hc
  | bitmap => exact hlooked (.inr ha)
  | pdp7 => exact exec_nodes hs ha hn c hc

end Calls

/-! ## Runs -/

/-- Every block the run hands out is a data block of the volume. -/
def HandsOutData : List Call → Mnt → Prop
  | [], _ => True
  | c :: cs, s => (∀ b t, c.exec s = .ok (some b) t → DataBlock s.fs b) ∧ HandsOutData cs (final c.exec s)

/-- Every block a run hands out is a data block where the free space names nothing else. -/
theorem handsOutData_of_names {s : Mnt} (hs : Serving s) (hn : NamesData s) (cs : List Call)
    (hc : ∀ c ∈ cs, MayCall s.fs c) : HandsOutData cs s := by
  induction cs generalizing s with
  | nil => trivial
  | cons c cs ih =>
    have hstep := exec_keeps hs hn c (hc c List.mem_cons_self)
    refine ⟨fun b t hr => (hstep.of_ok hr).1 b rfl, ?_⟩
    obtain ⟨hs', hn'⟩ := Post.final (P := fun t => Serving t ∧ NamesData t)
      (hstep.mono (fun _ _ h => h.2) fun _ _ h => h)
    have hshape : shape (final c.exec s).fs = shape s.fs :=
      (Post.final (P := fun t => SameShape s t) (c.exec_shape s) hs.solo).2
    refine ih hs' hn' fun c' hc' => ?_
    have hcall := hc c' (List.mem_cons_of_mem c hc')
    cases c' with
    | balloc => trivial
    | bfree b =>
      intro hmap
      rw [shape_dataBlock hshape]
      rw [shape_desc hshape] at hmap
      exact hcall hmap

/-! ## All that is named is handed out -/

theorem mayCall_ballocs (fs : Fs) (k : Nat) : ∀ c ∈ List.replicate k Call.balloc, MayCall fs c := by
  intro c hc
  rw [List.eq_of_mem_replicate hc]
  trivial

theorem exec_of_balloc {s t : Mnt} {b : Nat} (h : balloc s = .ok b t) :
    Call.balloc.exec s = .ok (some b) t := bind_eq_of_ok h

theorem final_exec_balloc (s : Mnt) : final Call.balloc.exec s = final balloc s := by
  unfold final
  cases h : balloc s with
  | ok b t => rw [exec_of_balloc h]
  | error e t => rw [show Call.balloc.exec s = .error e t from bind_eq_of_error h]

section Bigmap

variable {s : Mnt}

/-- A bigmap's block is one of the volume's, and some bit at or below its own is the lowest. -/
theorem lowest_of_bit (hl : Laid s.fs) (ha : s.fs.desc.alloc = .v8bitmap)
    (hbig : s.fs.desc.freemap = .bigmap) {b : Nat} (hlt : b < s.fs.fsize)
    (hset : getBit s.fs.v8Bits b = true) : ∃ i, i ≤ b ∧ firstBit s.fs.v8Bits s.fs.v8Nbits 0 = some i := by
  have hbase := hl.bigmap hbig
  have hext := hl.extent (hl.kind.map ha).2.1
  cases hf : firstBit s.fs.v8Bits s.fs.v8Nbits 0 with
  | none =>
    rw [firstBit_none hf (Nat.zero_le b) (by omega)] at hset
    cases hset
  | some i =>
    refine ⟨i, ?_, rfl⟩
    by_contra hgt
    rw [firstBit_below hf b (Nat.zero_le b) (by omega)] at hset
    cases hset

theorem balloc_map (ha : s.fs.desc.alloc = .v8bitmap) : balloc s = v8BitmapBalloc s := by
  unfold balloc
  rw [bindFs_run]
  rw [ha]

theorem final_balloc_map (ha : s.fs.desc.alloc = .v8bitmap) : final balloc s = final v8BitmapBalloc s := by
  unfold final
  rw [balloc_map ha]

/-- Where a bigmap's bits below `b - k` are clear, `k + 1` calls reach that of `b`. -/
theorem dataBlock_of_bit (k : Nat) (hl : Solo s ∧ Laid s.fs) (ha : s.fs.desc.alloc = .v8bitmap)
    (hbig : s.fs.desc.freemap = .bigmap)
    (hro : s.fs.readonly = false) (hq : ∀ k, s.env.fails k = false) {b : Nat} (hlt : b < s.fs.fsize)
    (hset : getBit s.fs.v8Bits b = true)
    (hin : BlockIn s.fs b) (hbelow : ∀ j, j < b - k → getBit s.fs.v8Bits j = false)
    (h : HandsOutData (List.replicate (k + 1) .balloc) s) :
    DataBlock s.fs b := by
  induction k generalizing s with
  | zero =>
    obtain ⟨i, hle, hi⟩ := lowest_of_bit hl.2 ha hbig hlt hset
    obtain ⟨-, -, hiset⟩ := firstBit_spec hi
    have heq : i = b := by
      by_contra hne
      rw [hbelow i (by omega)] at hiset
      cases hiset
    have hbase := hl.2.bigmap hbig
    obtain ⟨b', t, hr, rfl⟩ := (v8BitmapBalloc_gives hro hq hi (by rwa [hbase, Nat.zero_add, heq])).succeeds
    have hdata := h.1 _ t (exec_of_balloc ((balloc_map ha).trans hr))
    rwa [hbase, Nat.zero_add, heq] at hdata
  | succ k ih =>
    obtain ⟨i, hle, hi⟩ := lowest_of_bit hl.2 ha hbig hlt hset
    obtain ⟨-, -, hiset⟩ := firstBit_spec hi
    rcases Nat.eq_or_lt_of_le hle with rfl | hbefore
    · have hbase := hl.2.bigmap hbig
      obtain ⟨b', t, hr, rfl⟩ := (v8BitmapBalloc_gives hro hq hi (by rwa [hbase, Nat.zero_add])).succeeds
      have hdata := h.1 _ t (exec_of_balloc ((balloc_map ha).trans hr))
      rwa [hbase, Nat.zero_add] at hdata
    · -- a lower bit goes, and the bit of `b` is one call nearer
      obtain ⟨-, hrest⟩ := h
      rw [final_exec_balloc, final_balloc_map ha] at hrest
      have hbits : (final v8BitmapBalloc s).env = s.env ∧ (final v8BitmapBalloc s).fs.v8Bits =
        putBit s.fs.v8Bits i false := by
        refine Post.final (P := fun t : Mnt => t.env = s.env ∧ t.fs.v8Bits = putBit s.fs.v8Bits i false)
          ((v8BitmapBalloc_bits s).mono ?_ ?_)
        · intro b' t hrun
          obtain ⟨henv, j, hj, -, -, ht⟩ := hrun
          obtain rfl := Option.some.inj (hi.symm.trans hj)
          exact ⟨henv, ht⟩
        · intro e t hrun
          rcases hrun with ⟨henv, ⟨hnone, -⟩ | ⟨j, hj, ht⟩⟩
          · rw [hi] at hnone
            cases hnone
          · obtain rfl := Option.some.inj (hi.symm.trans hj)
            exact ⟨henv, ht⟩
      have hshape : SameShape s (final v8BitmapBalloc s) := by
        have hkeep := Post.final (P := fun t => SameShape s t) (Call.balloc.exec_shape s)
        rwa [final_exec_balloc, final_balloc_map ha] at hkeep
      obtain ⟨henv, hmap⟩ := hbits
      have hsh := (hshape hl.1).2
      have hdesc := shape_desc hsh
      have halloc : (final v8BitmapBalloc s).fs.desc.alloc = .v8bitmap := by rw [hdesc]; exact ha
      have hform : (final v8BitmapBalloc s).fs.desc.freemap = .bigmap := by rw [hdesc]; exact hbig
      have hquiet : ∀ k, (final v8BitmapBalloc s).env.fails k = false := fun k => by rw [henv]; exact hq k
      have hinside : b < (final v8BitmapBalloc s).fs.fsize := by rw [shape_fsize hsh]; exact hlt
      have hbit : getBit (final v8BitmapBalloc s).fs.v8Bits b = true := by
        rw [hmap, getBit_putBit, if_neg (by omega)]
        exact hset
      have hdata := ih (SameShape.laid hshape hl) halloc hform ((congrArg Shape.readonly hsh).trans hro) hquiet
        hinside hbit (hin.of_shape hsh.symm) (fun j hj => ?_) hrest
      · exact (shape_dataBlock hsh).mp hdata
      · rw [hmap, getBit_putBit]
        split
        · rfl
        · by_cases hji : j < i
          · exact firstBit_below hi j (Nat.zero_le j) hji
          · have hlow : ¬ i < b - (k + 1) := fun hlow => by
              rw [hbelow i hlow] at hiset
              cases hiset
            omega

end Bigmap

/-- The blocks `k` calls return are handed out by a run of `k` calls. -/
theorem ballocs_dataBlock (k : Nat) {s : Mnt} (hs : Solo s)
    (h : HandsOutData (List.replicate k .balloc) s) : ∀ b ∈ ballocs k s, DataBlock s.fs b := by
  induction k generalizing s with
  | zero => exact fun b hb => absurd hb List.not_mem_nil
  | succ k ih =>
    obtain ⟨hfirst, hrest⟩ := h
    have hshape : SameShape s (final Call.balloc.exec s) :=
      Post.final (P := fun t => SameShape s t) (Call.balloc.exec_shape s)
    obtain ⟨hsolo, hsh⟩ := hshape hs
    have hlater := ih hsolo hrest
    rw [final_exec_balloc] at hlater hsh
    intro b hb
    rw [ballocs] at hb
    unfold final at hlater hsh
    cases hr : balloc s with
    | ok b' t =>
      rw [hr] at hb hlater hsh
      rcases List.mem_cons.mp hb with rfl | hb
      · exact hfirst b t (exec_of_balloc hr)
      · exact (shape_dataBlock hsh).mp (hlater b hb)
    | error e t =>
      rw [hr] at hb hlater hsh
      exact (shape_dataBlock hsh).mp (hlater b hb)

/-- The PDP-7 list comes to an end, and names no block of the image twice. -/
def Ends (s : Mnt) : Prop :=
  ∃ ns, Seg (WordsIn s) (wordsOf s.fs s.img) s.fs.freelist ns ∧
    Distinct (WordsIn s) (listed (wordsOf s.fs s.img) ns)

/-- With every transfer going through, what is named is handed out. -/
theorem names_of_handsOutData {s : Mnt} (hs : Serving s) (hro : s.fs.readonly = false)
    (hq : ∀ k, s.env.fails k = false)
    (hends : s.fs.desc.alloc = .pdp7 → Ends s) (h : ∀ k, HandsOutData (List.replicate k .balloc) s) :
    NamesData s := by
  cases ha : s.fs.desc.alloc with
  | freelist => exact namesData_looked (.inl ha)
  | bitmap => exact namesData_looked (.inr ha)
  | v8bitmap =>
    rw [namesData_map ha]
    intro hbig b hlt hset hin
    exact dataBlock_of_bit b ⟨hs.solo, hs.laid⟩ ha hbig hro hq hlt hset hin (fun j hj => by omega) (h (b + 1))
  | pdp7 =>
    rw [namesData_nodes ha]
    intro b hb hin
    obtain ⟨hm, -, -⟩ := hs.words ha hro
    obtain ⟨ns, hseg, hd⟩ := hends ha
    have hmem := mem_listed_of_names hseg hb
    have htakes := takes_of_seg hseg hd
    refine ballocs_dataBlock (listed (wordsOf s.fs s.img) ns).length hs.solo (h _) b ?_
    rw [ballocs_pdp7 hm hq, ballocs7_eq hm hq (holds7_self s), htakes.takesN, List.take_length, List.mem_filter]
    exact ⟨hmem, decide_eq_true hin⟩

/-- The in-core map as the allocator reads it: what lies past its bytes is whatever the memory holds there. -/
def inMemory (fs : Fs) (junk : Buf) : Buf := fun i => if i < bitBytes fs then fs.v8Bits i else junk i

def withMemory (s : Mnt) (junk : Buf) : Mnt := { s with fs := { s.fs with v8Bits := inMemory s.fs junk } }

theorem serving_of_open {a : OpenArgs} {s₀ s : Mnt} (hsolo : Solo s₀) (hopen : filsysOpenArch a s₀ = .ok () s)
    (hq7 : s.fs.desc.alloc = .pdp7 → ∀ k, s.env.fails k = false) (junk : Buf) :
    Serving (withMemory s junk) := by
  obtain ⟨hs, hl⟩ := (filsysOpenArch_laid hsolo).of_ok hopen
  refine ⟨hs, hl.of_shape rfl, fun ha hro => ?_⟩
  obtain ⟨-, hvol⟩ := (filsysOpenArch_words hsolo).of_ok hopen (hl.kind.pdp7 ha).1
  exact ⟨⟨hs, hvol.format, hro, hvol.imgsize, hvol.room⟩, hvol.head, hq7 ha⟩

/-- On every volume an open accepts, whatever its map or list holds, the calls hand out data blocks only
    if the free space names data blocks only; and where transfers go through and a PDP-7's list ends, no
    less will do. -/
theorem handouts_in_data_iff {a : OpenArgs} {s₀ s : Mnt} (hsolo : Solo s₀)
    (hopen : filsysOpenArch a s₀ = .ok () s)
    (hq7 : s.fs.desc.alloc = .pdp7 → ∀ k, s.env.fails k = false) (junk : Buf) :
    (NamesData (withMemory s junk) → ∀ cs, (∀ c ∈ cs, MayCall s.fs c) → HandsOutData cs (withMemory s junk)) ∧
      (s.fs.readonly = false → (∀ k, s.env.fails k = false) → (s.fs.desc.alloc = .pdp7 → Ends s) →
        (∀ cs, (∀ c ∈ cs, MayCall s.fs c) → HandsOutData cs (withMemory s junk)) →
        NamesData (withMemory s junk)) := by
  have hs := serving_of_open hsolo hopen hq7 junk
  refine ⟨fun hn cs hc => handsOutData_of_names hs hn cs hc, fun hro hq hends h => ?_⟩
  exact names_of_handsOutData hs hro hq hends fun k => h _ (mayCall_ballocs s.fs k)

def bigmapArgs : OpenArgs where
  edition := .v10
  geom := some { blocksize := 4096, freemap := some .bigmap }

/-- A V10 volume of six blocks, isize 2, with a bigmap in the last: blocks 2 and 4 are free. -/
def dataFree : Mnt where
  fs := { desc := descV8 }
  img := fun o => if o = 4096 then 2 else if o = 4100 then 6 else if o = 20480 then 20 else 0
  size := 24576

/-- Both free blocks are handed out, and one of them again once it is given back. -/
theorem a_bigmap_of_data_blocks_hands_out_data : ∃ s, filsysOpenArch bigmapArgs dataFree = .ok () s ∧
    HandsOutData [.balloc, .balloc, .bfree 4, .balloc, .balloc] (withMemory s zeroBuf) ∧
      ballocs 3 (withMemory s zeroBuf) = [2, 4] := by
  have hopen : filsysOpenArch bigmapArgs dataFree =
    .ok () (final (filsysOpenArch bigmapArgs) dataFree) := eq_done (by decide +kernel)
  have hfacts : (final (filsysOpenArch bigmapArgs) dataFree).fs.desc.alloc = .v8bitmap ∧
      (final (filsysOpenArch bigmapArgs) dataFree).fs.fsize = 6 ∧
      opsDataStart (final (filsysOpenArch bigmapArgs) dataFree).fs = 2 ∧
      opsDataEnd (final (filsysOpenArch bigmapArgs) dataFree).fs = 5 ∧
      (∀ b < 6, getBit (withMemory (final (filsysOpenArch bigmapArgs) dataFree) zeroBuf).fs.v8Bits b =
        true → b = 2 ∨ b = 4) ∧
      ballocs 3 (withMemory (final (filsysOpenArch bigmapArgs) dataFree) zeroBuf) = [2, 4] := by decide +kernel
  generalize final (filsysOpenArch bigmapArgs) dataFree = s at hopen hfacts
  obtain ⟨ha, hsize, hstart, hend, hbits, hcalls⟩ := hfacts
  have hdata : ∀ b, b = 2 ∨ b = 4 → DataBlock s.fs b := by
    intro b hb
    unfold DataBlock
    omega
  have hnames : NamesData (withMemory s zeroBuf) := by
    rw [namesData_map (show (withMemory s zeroBuf).fs.desc.alloc = .v8bitmap from ha)]
    intro _ b hlt hset _
    exact hdata b (hbits b (hsize ▸ hlt) hset)
  refine ⟨s, hopen, (handouts_in_data_iff (fun _ _ => rfl) hopen ?_ zeroBuf).1 hnames _ ?_, hcalls⟩
  · intro h
    rw [ha] at h
    cases h
  · intro c hc
    cases c with
    | balloc => trivial
    | bfree b =>
      intro _
      refine hdata b (.inr ?_)
      simpa using hc

/-! ## Two volumes that give the rest away -/

/-- A V10 volume of four blocks with a bigmap in the last, whose first bit is set. -/
def bootFree : Mnt where
  fs := { desc := descV8 }
  img := fun o => if o = 4096 then 2 else if o = 4100 then 4 else if o = 12288 then 1 else 0
  size := 16384

theorem bootFree_opens :
    filsysOpenArch bigmapArgs bootFree = .ok () (final (filsysOpenArch bigmapArgs) bootFree) :=
  eq_done (by decide +kernel)

/-- A PDP-7 image whose free list has its head in block 800, which names block 5 of the i-list. -/
def inodeFree : Mnt where
  fs := { desc := descPdp7 }
  img := fun o => if o = 0 then 32 else if o = 1 then 3 else if o = 204804 then 5 else 0
  size := 2048000

def pdp7Args : OpenArgs where
  edition := .pdp7

theorem inodeFree_opens :
    filsysOpenArch pdp7Args inodeFree = .ok () (final (filsysOpenArch pdp7Args) inodeFree) :=
  eq_done (by decide +kernel)

theorem a_bigmap_and_a_node_give_away_metadata :
    (∃ s, filsysOpenArch bigmapArgs bootFree = .ok () s ∧ ¬ HandsOutData [.balloc] s) ∧
      ∃ s, filsysOpenArch pdp7Args inodeFree = .ok () s ∧ ¬ HandsOutData [.balloc] s := by
  constructor
  · refine ⟨_, bootFree_opens, fun h => ?_⟩
    have herr : errorOf Call.balloc.exec (final (filsysOpenArch bigmapArgs) bootFree) = none := by
      decide +kernel
    have hval : valueOf Call.balloc.exec (final (filsysOpenArch bigmapArgs) bootFree) = some 0 := by
      decide +kernel
    have hrun := eq_ok herr
    rw [hval] at hrun
    have hstart : opsDataStart (final (filsysOpenArch bigmapArgs) bootFree).fs = 2 := by decide +kernel
    have hb := (h.1 0 _ hrun).1
    rw [hstart] at hb
    exact absurd hb (by decide)
  · refine ⟨_, inodeFree_opens, fun h => ?_⟩
    have herr : errorOf Call.balloc.exec (final (filsysOpenArch pdp7Args) inodeFree) = none := by decide +kernel
    have hval : valueOf Call.balloc.exec (final (filsysOpenArch pdp7Args) inodeFree) = some 5 := by
      decide +kernel
    have hrun := eq_ok herr
    rw [hval] at hrun
    have hstart : opsDataStart (final (filsysOpenArch pdp7Args) inodeFree).fs = 712 := by decide +kernel
    have hb := (h.1 5 _ hrun).1
    rw [hstart] at hb
    exact absurd hb (by decide)

end Filsys.Alloc
