/-
  Filsys.Alloc.Bound — the bound of the free cache.

  `v7fs_open` refuses a count beyond the cache, and every index the two allocator
  routines use stays below it as long as the count does. `v7fs_balloc` takes the next
  count from a chain block without a look at it: the bound holds over a run of calls
  exactly as long as no chain block read on the way holds a larger count
  (`free_cache_bounded_iff`).
-/

import Filsys.Alloc.Stack
import Filsys.Engine.Aside
import Filsys.Engine.Indices

namespace Filsys.Alloc

open Filsys.Lib Filsys.Engine

/-- The size of the cache and the count of cached blocks. -/
def counts (fs : Fs) : Nat × Nat := (fs.desc.nicfree, fs.nfree)

theorem counts_incidental : SameIn.Incidental counts := ⟨fun _ _ _ => rfl, fun _ _ _ _ => rfl, fun _ _ => rfl⟩

/-! ## After an open -/

theorem v8BitmapLoad_counts (sb : Buf) : Keeps (SameIn counts) (v8BitmapLoad sb) :=
  SameIn.v8BitmapLoad sb fun _ _ _ _ _ _ => rfl

/-- The superblock is read with the cache size of the format. -/
theorem v7OpenSuper_counts : Keeps (SameIn counts) v7OpenSuper := by
  refine SameIn.bindFs fun _ => keeps_ite (SameIn.seq (keeps_failAs (SameIn.ioRead _ _)) fun probe =>
    ?_) (keeps_failAs (SameIn.v7fsReadBlock _))
  refine keeps_ite (SameIn.fail _) (keeps_ite (SameIn.fail _) ?_)
  exact SameIn.seq (SameIn.modFs fun _ => rfl) fun _ => keeps_failAs (SameIn.ioRead _ _)

/-- An accepted volume has a count within its cache. -/
theorem v7fsOpen_bounded (readonly : Bool) (proto : Desc) (offset : Nat) (s₀ : Mnt) :
    Post (v7fsOpen readonly proto offset s₀)
    (fun _ s => s.fs.nfree ≤ s.fs.desc.nicfree ∧ s.fs.desc.nicfree = proto.nicfree) fun _ _ => True := by
  refine post_bindMod (post_bind (post_keeps (SameIn.openImage (f := counts)) (fun _ s₁ h₁ => ?_)
    fun _ _ _ => trivial))
  refine post_bind (post_keeps v7OpenSuper_counts (fun sb s₂ h₂ => ?_) fun _ _ _ => trivial)
  refine post_bindMod (post_bindFs (post_ite (fun _ => trivial) fun hle => ?_))
  have hcap : (sbDecode s₂.fs sb).desc.nicfree = proto.nicfree := by
    rw [sbDecode_desc]
    exact (congrArg Prod.fst h₂).trans (congrArg Prod.fst h₁)
  have hload : Keeps (SameIn counts)
    (onlyIf ((sbDecode s₂.fs sb).desc.sbCodec ∧ (sbDecode s₂.fs sb).desc.freemap ≠ .list)
      (failAs .eio (v8BitmapLoad sb)) : M Unit) :=
    keeps_onlyIf (sameIn_law _) (keeps_failAs (v8BitmapLoad_counts sb))
  have hrest := SameIn.seq hload fun _ => SameIn.v7fsOpenRest counts_incidental (sbDecode s₂.fs sb).desc sb
  refine post_keeps hrest (fun _ t ht => ⟨?_, (congrArg Prod.fst ht).trans hcap⟩) fun _ _ _ => trivial
  have hn : t.fs.nfree = (sbDecode s₂.fs sb).nfree := congrArg Prod.snd ht
  have hc : t.fs.desc.nicfree = (sbDecode s₂.fs sb).desc.nicfree := congrArg Prod.fst ht
  rw [hn, hc]
  exact Nat.le_of_not_lt fun h => hle (.inl h)

/-! ## The indices of one call -/

theorem post_watchFs {α : Type} {f : Fs → MA α} {s : Mnt × List Nat} {Q : α → Mnt × List Nat → Prop}
    {E : Errno → Mnt × List Nat → Prop}
    (h : Post (f s.1.fs s) Q E) : Post ((unwatched getFs >>= f) s) Q E := h

theorem post_watchMod {α : Type} {g : Fs → Fs} {f : Unit → MA α} {s : Mnt × List Nat}
    {Q : α → Mnt × List Nat → Prop}
    {E : Errno → Mnt × List Nat → Prop} (h : Post (f () ({ s.1 with fs := g s.1.fs }, s.2)) Q E) :
    Post ((unwatched (modFs g) >>= f) s) Q E := h

/-- The cache keeps its size, the count is now `n`, and every index noted since is below the size. -/
structure Noted (s : Mnt) (l : List Nat) (n : Nat) (t : Mnt × List Nat) : Prop where
  nicfree : t.1.fs.desc.nicfree = s.fs.desc.nicfree
  nfree : t.1.fs.nfree = n
  log : ∀ i ∈ t.2, i ∈ l ∨ i < s.fs.desc.nicfree

namespace Noted

variable {s : Mnt} {l : List Nat} {n : Nat} {t : Mnt × List Nat}

theorem same (h : Noted s l n t) {v : Mnt} (hv : SameIn counts t.1 v) : Noted s l n (v, t.2) :=
  ⟨(congrArg Prod.fst hv).trans h.nicfree, (congrArg Prod.snd hv).trans h.nfree, h.log⟩

theorem reads (h : Noted s l n t) {is : List Nat} (his : ∀ i ∈ is, i < t.1.fs.desc.nicfree) :
    Noted s l n (t.1, is ++ t.2) := by
  refine ⟨h.nicfree, h.nfree, fun i hi => ?_⟩
  rcases List.mem_append.mp hi with hi | hi
  · exact .inr (h.nicfree ▸ his i hi)
  · exact h.log i hi

/-- A program that leaves the count alone and notes nothing. -/
theorem post_silent (h : Noted s l n t) {α : Type} {x : M α} (hx : Keeps (SameIn counts) x)
    {Q : α → Mnt × List Nat → Prop}
    {E : Errno → Mnt × List Nat → Prop} (hQ : ∀ a u, Noted s l n u → Q a u)
    (hE : ∀ e u, Noted s l n u → E e u) :
    Post (unwatched x t) Q E :=
  post_unwatched (post_keeps hx (fun a _ hv => hQ a _ (h.same hv)) fun e _ hv => hE e _ (h.same hv))

theorem sbEncodeReads_lt {d : Desc} : ∀ i ∈ sbEncodeReads d, i < d.nicfree := by
  intro i hi
  unfold sbEncodeReads at hi
  split at hi
  · cases hi
  · exact List.mem_range.mp hi

theorem post_superWriteSeen (h : Noted s l n t) : Post (superWriteSeen t) (fun _ u => Noted s l n u)
    fun _ u => Noted s l n u := by
  have hcap : ∀ {u : Mnt × List Nat}, Noted s l n u → u.1.fs.desc.nicfree = t.1.fs.desc.nicfree :=
    fun hu => hu.nicfree.trans h.nicfree.symm
  apply post_watchFs
  refine post_ite (fun _ => h) fun _ => post_bind (h.post_silent (keeps_failAs SameIn.superRead)
    (fun sb u hu => ?_) fun _ _ h => h)
  refine post_bind (hu.post_silent SameIn.timeNow (fun now v hv => ?_) fun _ _ h => h)
  apply post_noteAll
  have hr := hv.reads (fun i hi => (hcap hv).symm ▸ sbEncodeReads_lt (d := t.1.fs.desc) i hi)
  refine post_bind (hr.post_silent (keeps_failAs (SameIn.superPut _)) (fun _ w hw => ?_) fun _ _ h => h)
  exact hw.post_silent (SameIn.modFs (g := fun fs => { fs with flDirty := false }) fun _ => rfl)
    (fun _ _ h => h) fun _ _ h => h

end Noted

/-- The allocation reads the next cache from a chain block, if it does, with a count that fits. -/
def ReloadFits (s : Mnt) : Prop :=
  s.fs.nfree = 1 → s.fs.free 0 ≠ 0 → InData s.fs (s.fs.free 0) → ∀ blk t,
  v7fsReadBlock (s.fs.free 0) (popEntry s) = .ok blk t →
    chainNfree s.fs.desc blk ≤ s.fs.desc.nicfree

/-- What a call leaves of the bound: its own indices are below the cache size, and the count is within
    it exactly if `P`. -/
def Bounded (P : Prop) (s : Mnt) (l : List Nat) (t : Mnt × List Nat) : Prop :=
  ∃ n, Noted s l n t ∧ (n ≤ s.fs.desc.nicfree ↔ P)

theorem post_readSeen {s : Mnt} {l : List Nat}
    (h : Noted s l (s.fs.nfree - 1) (popEntry s, (s.fs.nfree - 1) :: l)) (b : Nat) :
    Post ((unwatched (failAs .eio (v7fsReadBlock b)) : MA Buf) (popEntry s, (s.fs.nfree - 1) :: l))
      (fun blk u => Noted s l (s.fs.nfree - 1) u ∧ u.1.fs.desc = s.fs.desc ∧
        v7fsReadBlock b (popEntry s) = .ok blk u.1)
      fun _ u => Noted s l (s.fs.nfree - 1) u ∧ ∀ blk v, v7fsReadBlock b (popEntry s) ≠ .ok blk v := by
  have hfs : Post (v7fsReadBlock b (popEntry s)) (fun _ v => v.fs = (popEntry s).fs) fun _ v =>
    v.fs = (popEntry s).fs :=
    v7fsReadBlock_fs b _
  have hsame : ∀ {v : Mnt}, v.fs = (popEntry s).fs → SameIn counts (popEntry s) v :=
    fun hv => congrArg counts hv
  refine post_unwatched (post_failAs ?_)
  show Post (v7fsReadBlock b (popEntry s)) _ _
  cases hread : v7fsReadBlock b (popEntry s) with
  | ok blk v =>
    rw [hread] at hfs
    have hv : v.fs = (popEntry s).fs := hfs
    exact ⟨h.same (hsame hv), (by rw [hv]; rfl : v.fs.desc = s.fs.desc), rfl⟩
  | error e v =>
    rw [hread] at hfs
    refine ⟨h.same (hsame hfs), fun blk w hok => ?_⟩
    cases hok

/-- `v7fs_balloc` from a count within the cache. -/
theorem post_ballocSeen {s : Mnt} (hle : s.fs.nfree ≤ s.fs.desc.nicfree) (l : List Nat) :
    Post (ballocSeen (s, l))
    (fun _ t => Bounded (ReloadFits s) s l t) fun _ t => Bounded (ReloadFits s) s l t := by
  apply post_watchFs
  show Post ((if s.fs.nfree = 0 then _ else _ : MA Nat) (s, l)) _ _
  refine post_ite (fun h0 => ?_) fun h0 => post_note ?_
  · exact ⟨s.fs.nfree, ⟨rfl, rfl, fun i hi => .inl hi⟩, iff_of_true hle fun h1 =>
      absurd (h1.symm.trans h0) Nat.one_ne_zero⟩
  apply post_watchMod
  have hpop : Noted s l (s.fs.nfree - 1) (popEntry s, (s.fs.nfree - 1) :: l) := by
    refine ⟨rfl, rfl, fun i hi => ?_⟩
    rcases List.mem_cons.mp hi with rfl | hi
    · exact .inr (by omega)
    · exact .inl hi
  -- a call that reads no chain block keeps the bound
  have hkept : (s.fs.nfree = 1 → s.fs.free 0 ≠ 0 → InData s.fs (s.fs.free 0) → False) →
      ∀ u, Noted s l (s.fs.nfree - 1) u → Bounded (ReloadFits s) s l u :=
    fun hno u hu => ⟨_, hu, iff_of_true (by omega) fun h1 h2 h3 => (hno h1 h2 h3).elim⟩
  refine post_ite (fun hz => ?_) fun hz => post_ite (fun hr => ?_) fun hr => ?_
  · refine hkept (fun h1 h2 _ => h2 ?_) _ hpop
    rw [h1] at hz
    exact hz
  · refine hkept (fun h1 _ h3 => ?_) _ hpop
    rw [h1] at hr
    exact hr.elim (fun h => absurd h3.1 (Nat.not_le_of_lt h)) fun h => absurd h3.2 (Nat.not_lt_of_le h)
  -- the block is zeroed and counted out; neither moves the count
  have hrest : ∀ n u, Noted s l n u → ∀ buf, Post ((do
      unwatched (failAs .eio (v7fsWriteBlock .block (s.fs.free (s.fs.nfree - 1)) buf))
      unwatched (modFs fun fs => { fs with tfree := fs.tfree - 1, flDirty := true })
      return s.fs.free (s.fs.nfree - 1) : MA Nat) u) (fun _ t => Noted s l n t) fun _ t => Noted s l n t := by
    intro n u hu buf
    refine post_bind (hu.post_silent (keeps_failAs (SameIn.v7fsWriteBlock _ _ _)) (fun _ v hv => ?_)
      fun _ _ h => h)
    refine post_bind (hv.post_silent
      (SameIn.modFs (g := fun fs => { fs with tfree := fs.tfree - 1, flDirty := true }) fun _ => rfl)
      (fun _ _ h => h) fun _ _ h => h)
  by_cases hn : s.fs.nfree - 1 = 0
  · have h1 : s.fs.nfree = 1 := by omega
    rw [onlyIf, if_pos hn]
    have htop : s.fs.free (s.fs.nfree - 1) = s.fs.free 0 := by rw [h1]
    simp only [htop] at hz hr ⊢ hrest
    have hin : InData s.fs (s.fs.free 0) := ⟨by omega, by omega⟩
    refine post_bind (post_bind ((post_readSeen hpop (s.fs.free 0)).mono ?_ ?_))
    · intro blk u hrun
      obtain ⟨hu, hdesc, hread⟩ := hrun
      have hfits : chainNfree s.fs.desc blk ≤ s.fs.desc.nicfree ↔ ReloadFits s := by
        refine ⟨fun hle _ _ _ blk' v hok => ?_, fun hf => hf h1 hz hin blk u.1 hread⟩
        rw [hread] at hok
        cases hok
        exact hle
      have hread' := hu.reads fun i (hi : i ∈ List.range s.fs.desc.nicfree) => by
        rw [hdesc]
        exact List.mem_range.mp hi
      have hload : Noted s l (chainNfree s.fs.desc blk) ({ u.1 with fs := { u.1.fs with
          nfree := chainNfree u.1.fs.desc blk, free := chainFree u.1.fs.desc blk } },
          List.range s.fs.desc.nicfree ++ u.2) :=
        ⟨hread'.nicfree, by rw [hdesc], hread'.log⟩
      refine post_noteAll (post_watchMod ?_)
      refine post_failAs (hload.post_superWriteSeen.mono (fun _ v hv => ?_) fun _ v hv => ⟨_, hv, hfits⟩)
      exact (hrest _ v hv zeroBuf).mono (fun _ w hw => ⟨_, hw, hfits⟩) fun _ w hw => ⟨_, hw, hfits⟩
    · intro e u hrun
      obtain ⟨hu, hread⟩ := hrun
      exact ⟨_, hu, iff_of_true (by omega) fun _ _ _ blk t hok => absurd hok (hread blk t)⟩
  · rw [onlyIf, if_neg hn]
    refine (hrest _ _ hpop zeroBuf).mono (fun _ u hu => hkept (fun h1 _ _ => hn ?_) u hu) fun _ u hu =>
      hkept (fun h1 _ _ => hn ?_) u hu
    · rw [h1]
    · rw [h1]

theorem post_pushFreeSeen {s : Mnt} {l : List Nat} {t : Mnt × List Nat} (b : Nat) {n : Nat}
    (h : Noted s l n t) (hn : n < s.fs.desc.nicfree) :
    Post (pushFreeSeen b t) (fun _ u => Bounded True s l u) fun _ u => Bounded True s l u := by
  refine post_watchFs (post_note (post_unwatched ?_))
  show Post (pushFree b t.1) _ _
  refine ⟨n + 1, ⟨h.nicfree, congrArg (· + 1) h.nfree, fun i hi => ?_⟩, iff_of_true hn trivial⟩
  rcases List.mem_cons.mp hi with rfl | hi
  · rw [h.nfree]
    exact .inr hn
  · exact h.log i hi

/-- `v7fs_bfree` from a count within the cache. -/
theorem post_bfreeSeen {s : Mnt} (hpos : 0 < s.fs.desc.nicfree) (hle : s.fs.nfree ≤ s.fs.desc.nicfree)
    (b : Nat) (l : List Nat) :
    Post (bfreeSeen b (s, l)) (fun _ t => Bounded True s l t) fun _ t => Bounded True s l t := by
  have hself : Noted s l s.fs.nfree (s, l) := ⟨rfl, rfl, fun i hi => .inl hi⟩
  have hnext : ∀ n t, Noted s l n t → n ≤ s.fs.desc.nicfree →
      Post (dumpThenPushSeen b t) (fun _ u => Bounded True s l u) fun _ u => Bounded True s l u := by
    intro n t h hn
    apply post_watchFs
    refine post_ite (fun _ => post_noteAll ?_) fun hlt => post_pushFreeSeen b h ?_
    · have hr := h.reads fun i (hi : i ∈ List.range t.1.fs.desc.nicfree) => List.mem_range.mp hi
      refine post_bind (hr.post_silent (keeps_attempt (SameIn.v7fsWriteBlock _ _ _)) ?_ ?_)
      · intro r u hu
        cases r with
        | error e => exact ⟨n, hu, iff_of_true hn trivial⟩
        | ok v =>
          apply post_watchMod
          exact post_pushFreeSeen b (n := 0) ⟨hu.nicfree, rfl, hu.log⟩ hpos
      · intro _ u hu
        exact ⟨n, hu, iff_of_true hn trivial⟩
    · have := h.nfree
      have := h.nicfree
      omega
  apply post_watchFs
  refine post_ite (fun _ => ⟨s.fs.nfree, hself, iff_of_true hle trivial⟩) fun _ =>
    post_bind (post_onlyIf (fun h0 => post_note ?_) fun _ => hnext _ _ hself hle)
  refine post_unwatched (show Post (modFs _ s) _ _ from hnext 1 _ ⟨rfl, rfl, fun i hi => ?_⟩ hpos)
  rcases List.mem_cons.mp hi with rfl | hi
  · exact .inr hpos
  · exact .inl hi

/-! ## Runs of calls -/

namespace Call

/-- The call, its block number left out. -/
def run : Call → M Unit
  | balloc => do
    let _ ← v7fsBalloc
    return ()
  | bfree b => v7fsBfree b

/-- The call with its accesses to the cache noted. -/
def seen : Call → MA Unit
  | balloc => do
    let _ ← ballocSeen
    return ()
  | bfree b => bfreeSeen b

theorem seen_erases (c : Call) : Erases c.seen c.run := by
  cases c with
  | balloc => exact erases_bind ballocSeen_erases fun _ => erases_pure _
  | bfree b => exact bfreeSeen_erases b

/-- The state after the call, whether it fails or not. -/
def after (c : Call) (s : Mnt) : Mnt := final c.run s

/-- The indices the call uses into the cache. -/
def touches (c : Call) (s : Mnt) : List Nat := logOf c.seen s

/-- The condition on the state a call starts from. -/
def Fits (s : Mnt) : Call → Prop
  | balloc => ReloadFits s
  | bfree _ => True

/-- A call from a count within the cache stays inside it, and leaves a count within it exactly if it fits. -/
theorem bounded {s : Mnt} (hpos : 0 < s.fs.desc.nicfree) (hle : s.fs.nfree ≤ s.fs.desc.nicfree) (c : Call) :
    (c.after s).fs.desc.nicfree = s.fs.desc.nicfree ∧ (∀ i ∈ c.touches s, i < s.fs.desc.nicfree) ∧
      ((c.after s).fs.nfree ≤ s.fs.desc.nicfree ↔ c.Fits s) := by
  have hb : Bounded (c.Fits s) s [] (final c.seen (s, [])) := by
    apply Post.final
    cases c with
    | balloc => exact post_bind (post_ballocSeen hle [])
    | bfree b => exact post_bfreeSeen hpos hle b []
  obtain ⟨n, hn, hfit⟩ := hb
  have hafter : (final c.seen (s, [])).1 = c.after s := c.seen_erases.final s []
  rw [← hafter]
  refine ⟨hn.nicfree, ?_, ?_⟩
  · intro i hi
    exact (hn.log i hi).resolve_left List.not_mem_nil
  · rw [hn.nfree]
    exact hfit

end Call

/-- Over a run of calls the count is within the cache before and after each, and every index is below
    the cache size. -/
def InBounds : List Call → Mnt → Prop
  | [], s => s.fs.nfree ≤ s.fs.desc.nicfree
  | c :: cs, s =>
    s.fs.nfree ≤ s.fs.desc.nicfree ∧ (∀ i ∈ c.touches s, i < s.fs.desc.nicfree) ∧ InBounds cs (c.after s)

/-- Every call of the run fits the state it starts from. -/
def ReloadsFit : List Call → Mnt → Prop
  | [], _ => True
  | c :: cs, s => c.Fits s ∧ ReloadsFit cs (c.after s)

theorem inBounds_iff {s : Mnt} (hpos : 0 < s.fs.desc.nicfree) (hle : s.fs.nfree ≤ s.fs.desc.nicfree)
    (cs : List Call) :
    InBounds cs s ↔ ReloadsFit cs s := by
  induction cs generalizing s with
  | nil => exact iff_of_true hle trivial
  | cons c cs ih =>
    obtain ⟨hcap, htouch, hfit⟩ := c.bounded hpos hle
    have hstart : InBounds cs (c.after s) → (c.after s).fs.nfree ≤ (c.after s).fs.desc.nicfree := by
      cases cs with
      | nil => exact fun h => h
      | cons _ _ => exact fun h => h.1
    constructor
    · intro hr
      obtain ⟨-, -, hrest⟩ := hr
      have hle' := hstart hrest
      exact ⟨hfit.mp (hcap ▸ hle'), (ih (hcap ▸ hpos) hle').mp hrest⟩
    · rintro ⟨hc, hrest⟩
      have hle' : (c.after s).fs.nfree ≤ (c.after s).fs.desc.nicfree := hcap ▸ hfit.mpr hc
      exact ⟨hle, htouch, (ih (hcap ▸ hpos) hle').mpr hrest⟩

/-- On every volume an open accepts, the cache is used within its bounds over a run of calls exactly
    when no allocation of the run takes its next cache from a chain block with a count beyond the cache.
    -/
theorem free_cache_bounded_iff {readonly : Bool} {proto : Desc} {offset : Nat} {s₀ s : Mnt}
    (hopen : v7fsOpen readonly proto offset s₀ = .ok () s) (hcache : 0 < proto.nicfree)
    (cs : List Call) : InBounds cs s ↔ ReloadsFit cs s := by
  obtain ⟨hle, hcap⟩ := (v7fsOpen_bounded readonly proto offset s₀).of_ok hopen
  exact inBounds_iff (hcap ▸ hcache) hle cs

/-! ## A count of 51 -/

/-- A V7 volume whose free list goes on in block 4, which claims 51 entries. -/
def overlong : Mnt where
  fs := { desc := descV7 }
  img := fun o => if o = 512 then 3 else if o = 516 then 6 else if o = 518 then 1 else if o = 522 then 4
    else if o = 2048 then 51 else 0
  size := 3072

theorem overlong_opens : v7fsOpen false descV7 0 overlong = .ok () (final (v7fsOpen false descV7 0) overlong) :=
  eq_done (by decide +kernel)

theorem one_allocation_overfills_the_cache : ∃ s, v7fsOpen false descV7 0 overlong = .ok () s ∧
    ¬ InBounds [.balloc] s := by
  refine ⟨_, overlong_opens, fun h => ?_⟩
  have hcount : (Call.balloc.after (final (v7fsOpen false descV7 0) overlong)).fs.nfree = 51 := by
    decide +kernel
  have hcap : (Call.balloc.after (final (v7fsOpen false descV7 0) overlong)).fs.desc.nicfree = 50 := by
    decide +kernel
  have hle : (Call.balloc.after (final (v7fsOpen false descV7 0) overlong)).fs.nfree ≤ _ := h.2.2
  rw [hcount, hcap] at hle
  exact absurd hle (by decide)

/-- A block freed on top of the bad one is handed out again, and the bound holds. -/
theorem a_block_above_the_bad_count_is_in_bounds : ∃ s, v7fsOpen false descV7 0 overlong = .ok () s ∧
    InBounds [.bfree 5, .balloc, .bfree 5] s := by
  refine ⟨_, overlong_opens, (free_cache_bounded_iff overlong_opens (by decide) _).mpr
    ⟨trivial, fun h1 => ?_, trivial, trivial⟩⟩
  have hcount : (Call.after (.bfree 5) (final (v7fsOpen false descV7 0) overlong)).fs.nfree = 2 := by
    decide +kernel
  rw [hcount] at h1
  exact absurd h1 (by decide)

end Filsys.Alloc
