/-
  Filsys.Pdp7.Entries — PDP-7 directories (pdp7fs.c).

  An entry is eight words: an inode number, zero for a free slot, and a name of four words.
  A scan finds the first entry that satisfies its test (`post_p7Find`); entering a name fills
  the first free slot, or the one past the end, and leaves the others
  (`post_dirAdd_words`); removing one frees its slot (`post_dirRemove_words`).
-/

import Filsys.Names.Finite
import Filsys.Pdp7.Words

namespace Filsys.Pdp7

open Filsys.Lib Filsys.Engine Filsys.Blockmap Filsys.Alloc Filsys.Check Filsys.Tree Filsys.Names

/-! ## Slots -/

/-- What a scan of the slots from `lo` to `hi` for the first that satisfies `q` comes back with. -/
def Scanned (q : Nat → Bool) (lo hi : Nat) : Option Nat → Prop
  | none => ∀ j, lo ≤ j → j < hi → q j = false
  | some i => lo ≤ i ∧ i < hi ∧ q i = true ∧ ∀ j, lo ≤ j → j < i → q j = false

theorem scanned_next {q : Nat → Bool} {lo hi : Nat} {r : Option Nat} (h0 : q lo = false)
    (h : Scanned q (lo + 1) hi r) : Scanned q lo hi r := by
  have hrest : ∀ {m}, (∀ j, lo + 1 ≤ j → j < m → q j = false) → ∀ j, lo ≤ j → j < m → q j = false := by
    intro m hm j hlo hj
    rcases Nat.eq_or_lt_of_le hlo with rfl | hlt
    · exact h0
    · exact hm j hlt hj
  cases r with
  | none => exact hrest h
  | some i => exact ⟨by have := h.1; omega, h.2.1, h.2.2.1, hrest h.2.2.2⟩

/-- The entries in use among the first `n` slots. -/
def liveOf (f : Nat → Dirent) (n : Nat) : List Dirent := ((List.range n).map f).filter inUse

section Live

variable {f g : Nat → Dirent} {n i : Nat}

theorem range_split (h : i < n) : List.range n = List.range i ++ i :: List.range' (i + 1) (n - (i + 1)) := by
  rw [List.range_eq_range', List.range_eq_range']
  conv_lhs => rw [show n = i + (n - i) by omega, ← List.range'_append_1]
  rw [Nat.zero_add, show n - i = (n - (i + 1)) + 1 by omega, List.range'_succ]

theorem live_split (h : i < n) :
    liveOf f n = liveOf f i ++ ([f i].filter inUse ++
      ((List.range' (i + 1) (n - (i + 1))).map f).filter inUse) := by
  unfold liveOf
  rw [range_split h, List.map_append, List.map_cons, List.filter_append,
    List.append_cancel_left_eq, ← List.filter_append]
  rfl

theorem mem_liveOf {x : Dirent} : x ∈ liveOf f n ↔ ∃ j, j < n ∧ f j = x ∧ inUse x = true := by
  unfold liveOf
  rw [List.mem_filter, List.mem_map]
  constructor
  · intro h
    obtain ⟨⟨j, hj, rfl⟩, huse⟩ := h
    exact ⟨j, List.mem_range.mp hj, rfl, huse⟩
  · intro h
    obtain ⟨j, hj, rfl, huse⟩ := h
    exact ⟨⟨j, List.mem_range.mpr hj, rfl⟩, huse⟩

theorem live_congr (h : ∀ j, j < n → g j = f j) : liveOf g n = liveOf f n := by
  unfold liveOf
  rw [List.map_congr_left fun j hj => h j (List.mem_range.mp hj)]

/-- One slot is written, the others stay. -/
theorem live_write (hi : i < n) (hother : ∀ j, j < n → j ≠ i → g j = f j) :
    ∃ B, liveOf f n = liveOf f i ++ ([f i].filter inUse ++ B) ∧
    liveOf g n = liveOf f i ++ ([g i].filter inUse ++ B) := by
  refine ⟨_, live_split hi, ?_⟩
  rw [live_split hi, live_congr fun j hj => hother j (by omega) (by omega)]
  congr 3
  refine List.map_congr_left fun j hj => ?_
  rw [List.mem_range'_1] at hj
  exact hother j (by omega) (by omega)

theorem live_reuse (hi : i < n) (hfree : (f i).1 = 0) (hnew : (g i).1 ≠ 0)
    (hother : ∀ j, j < n → j ≠ i → g j = f j) :
    Inserted (liveOf f n) (liveOf g n) (g i) := by
  obtain ⟨B, h1, h2⟩ := live_write hi hother
  refine ⟨liveOf f i, B, ?_, ?_⟩
  · rw [h1, List.filter_cons_of_neg (by simp [inUse, hfree])]
    rfl
  · rw [h2, List.filter_cons_of_pos (by simp [inUse, hnew])]
    rfl

theorem live_append (hnew : (g n).1 ≠ 0) (hother : ∀ j, j < n → g j = f j) :
    Inserted (liveOf f n) (liveOf g (n + 1)) (g n) := by
  refine ⟨liveOf f n, [], (List.append_nil _).symm, ?_⟩
  rw [live_split (Nat.lt_succ_self n), live_congr hother, List.filter_cons_of_pos (by simp [inUse, hnew])]
  simp

/-- A scan for a name finds the first entry of it. -/
theorem lookup_scanned {name : Name} {r : Option Nat}
    (h : Scanned (fun j => inUse (f j) && (f j).2 == name) 0 n r) :
    lookup (liveOf f n) name = r.map f := by
  have hno : ∀ m, (∀ j, j < m → (inUse (f j) && (f j).2 == name) = false) →
    lookup (liveOf f m) name = none := by
    intro m hm
    refine lookup_eq_none.mpr fun x hx heq => ?_
    obtain ⟨j, hj, rfl, huse⟩ := mem_liveOf.mp hx
    have := hm j hj
    rw [huse, heq, Bool.true_and, beq_self_eq_true] at this
    cases this
  cases r with
  | none => exact hno n fun j hj => h j (Nat.zero_le _) hj
  | some i =>
    obtain ⟨-, hlt, hhere, hbefore⟩ := h
    obtain ⟨huse, hname⟩ := Bool.and_eq_true_iff.mp hhere
    rw [live_split hlt, lookup_append, hno i fun j hj => hbefore j (Nat.zero_le _) hj,
      List.filter_cons_of_pos huse]
    show (lookup (f i :: _) name) = _
    rw [lookup_cons, if_pos (beq_iff_eq.mp hname)]
    rfl

end Live

/-! ## The entries of a directory -/

/-- Entry `e`: its inode number and name. -/
def entryAt (s : Mnt) (ip : Inode) (e : Nat) : Dirent :=
  (wordAt s ip (e * 8), unpackName fun i => wordAt s ip (e * 8 + 1 + i))

theorem inUse_entryAt (s : Mnt) (ip : Inode) (e : Nat) :
    inUse (entryAt s ip e) = (wordAt s ip (e * 8) != 0) := rfl

def slots (ip : Inode) : Nat := ip.size / 2 / 8

/-- The entries in use. -/
def stored (s : Mnt) (ip : Inode) : List Dirent := liveOf (entryAt s ip) (slots ip)

theorem unpackName_congr {w w' : Nat → Nat} (h : ∀ i, i < 4 → w i = w' i) : unpackName w = unpackName w' := by
  have hchars : ((List.range 8).map fun i => UInt8.ofNat (if i % 2 = 0 then w (i / 2) / 512 % 128
    else w (i / 2) % 128)) =
      (List.range 8).map fun i => UInt8.ofNat (if i % 2 = 0 then w' (i / 2) / 512 % 128
        else w' (i / 2) % 128) := by
    refine List.map_congr_left fun i hi => ?_
    have hi := List.mem_range.mp hi
    rw [h (i / 2) (by omega)]
  unfold unpackName
  simp only [hchars]

theorem entryAt_eq {s : Mnt} {ip : Inode} {e v : Nat} {w : Nat → Nat} (h0 : wordAt s ip (e * 8) = v)
    (h : ∀ i, i < 4 → wordAt s ip (e * 8 + 1 + i) = w i) : entryAt s ip e = (v, unpackName w) := by
  unfold entryAt
  rw [h0, unpackName_congr h]

section Scans

variable {l : Loc}

theorem post_p7NameAt {s : Mnt} (h : Legible s l.ip) {b : Nat} (hb : (b + 4) / 64 < 2 ^ 32) :
    Post (p7NameAt b (s, l)) (fun r t => r = unpackName (fun i => wordAt s l.ip (b + 1 + i)) ∧ ∃ k,
      t = ({ s with ios := k }, l)) fun _ _ => False := by
  have hword : ∀ j, j ≤ 4 → ∀ k, Post (failAs .eio (inodeReadWord (b + j)) ({ s with ios := k }, l))
      (fun v t => v = wordAt s l.ip (b + j) ∧ ∃ k, t = ({ s with ios := k }, l)) fun _ _ => False := by
    intro j hj k
    refine post_failAs ((post_inodeReadWord_words (h.read k) (by omega)).mono ?_ fun _ _ hf => hf)
    intro v t hr
    obtain ⟨hv, k', ht⟩ := hr
    exact ⟨hv, k', ht⟩
  refine post_bind ((hword 1 (by decide) s.ios).mono ?_ fun _ _ hf => hf)
  intro w0 _ hr
  obtain ⟨h0, k, rfl⟩ := hr
  refine post_bind ((hword 2 (by decide) k).mono ?_ fun _ _ hf => hf)
  intro w1 _ hr
  obtain ⟨h1, k, rfl⟩ := hr
  refine post_bind ((hword 3 (by decide) k).mono ?_ fun _ _ hf => hf)
  intro w2 _ hr
  obtain ⟨h2, k, rfl⟩ := hr
  refine post_bind ((hword 4 (by decide) k).mono ?_ fun _ _ hf => hf)
  intro w3 _ hr
  obtain ⟨h3, k, rfl⟩ := hr
  refine ⟨unpackName_congr fun i hi => ?_, k, rfl⟩
  show (if i = 0 then w0 else if i = 1 then w1 else if i = 2 then w2 else w3) = wordAt s l.ip (b + 1 + i)
  have hi : i = 0 ∨ i = 1 ∨ i = 2 ∨ i = 3 := by omega
  rcases hi with rfl | rfl | rfl | rfl
  · exact h0
  · exact h1
  · exact h2
  · exact h3

/-- The scan for a live entry whose name satisfies `p`. -/
theorem post_p7Find (p : Name → Bool) (todo : Nat) : ∀ {s : Mnt} (e : Nat), Legible s l.ip →
    (e + todo) * 8 / 64 < 2 ^ 32 →
    Post (p7Find p todo e (s, l))
      (fun r t => Scanned (fun j => inUse (entryAt s l.ip j) &&
        p (entryAt s l.ip j).2) e (e + todo) (r.map Prod.fst) ∧
        (∀ x, r = some x → x.2 = entryAt s l.ip x.1) ∧ ∃ k, t = ({ s with ios := k }, l)) fun _ _ => False := by
  induction todo with
  | zero => exact fun e _ _ => ⟨fun j h1 h2 => by omega, nofun, _, rfl⟩
  | succ todo ih =>
    intro s e h hend
    have hrest : ∀ k, (inUse (entryAt s l.ip e) && p (entryAt s l.ip e).2) = false →
        Post (p7Find p todo (e + 1) ({ s with ios := k }, l))
          (fun r t => Scanned (fun j => inUse (entryAt s l.ip j) && p (entryAt s l.ip j).2) e (e +
            (todo + 1)) (r.map Prod.fst) ∧
            (∀ x, r = some x → x.2 = entryAt s l.ip x.1) ∧ ∃ k, t = ({ s with ios := k }, l)) fun _ _ =>
            False := by
      intro k hno
      refine (ih (s := { s with ios := k }) (e + 1) (h.read k)
        (by rw [show e + 1 + todo = e + (todo + 1) by omega]; exact hend)).mono ?_
        fun _ _ hf => hf
      intro r t hr
      obtain ⟨hscan, hent, k', ht⟩ := hr
      rw [show e + 1 + todo = e + (todo + 1) by omega] at hscan
      exact ⟨scanned_next hno hscan, hent, k', ht⟩
    refine post_bind (post_failAs ((post_inodeReadWord_words h (w := e * 8) (by omega)).mono ?_
      fun _ _ hf => hf))
    intro dino _ hr
    obtain ⟨hd, k, rfl⟩ := hr
    refine post_ite (fun h0 => hrest k ?_) ?_
    · rw [inUse_entryAt, ← hd, h0]
      rfl
    · intro h0
      refine post_bind ((post_p7NameAt (h.read k) (b := e * 8) (by omega)).mono ?_ fun _ _ hf => hf)
      intro name _ hr
      obtain ⟨hname, k', rfl⟩ := hr
      have hname : name = (entryAt s l.ip e).2 := hname
      have huse : inUse (entryAt s l.ip e) = true := by
        rw [inUse_entryAt, ← hd]
        exact bne_iff_ne.mpr h0
      refine post_ite (fun hp =>
        ⟨⟨Nat.le_refl _, by omega, ?_, fun j h1 h2 => absurd h2 (Nat.not_lt.mpr h1)⟩, ?_, k', rfl⟩)
        fun hp => hrest k' ?_
      · show (inUse (entryAt s l.ip e) && p (entryAt s l.ip e).2) = true
        rw [huse, ← hname]
        exact hp
      · rintro x hx
        cases hx
        exact Prod.ext hd hname
      · rw [huse, ← hname, Bool.true_and]
        exact Bool.eq_false_iff.mpr hp

/-- The scan for a free slot. -/
theorem post_p7FreeSlot (todo : Nat) : ∀ {s : Mnt} (e : Nat), Legible s l.ip → (e + todo) * 8 / 64 < 2 ^ 32 →
    Post (p7FreeSlot todo e (s, l))
      (fun r t => Scanned (fun j => !inUse (entryAt s l.ip j)) e (e + todo) r ∧ ∃ k,
        t = ({ s with ios := k }, l)) fun _ _ => False := by
  induction todo with
  | zero => exact fun e _ _ => ⟨fun j h1 h2 => by omega, _, rfl⟩
  | succ todo ih =>
    intro s e h hend
    refine post_bind (post_failAs ((post_inodeReadWord_words h (w := e * 8) (by omega)).mono ?_
      fun _ _ hf => hf))
    intro dino _ hr
    obtain ⟨hd, k, rfl⟩ := hr
    have huse : inUse (entryAt s l.ip e) = (dino != 0) := by
      rw [hd]
      rfl
    refine post_ite (fun h0 =>
      ⟨⟨Nat.le_refl _, by omega, ?_, fun j h1 h2 => absurd h2 (Nat.not_lt.mpr h1)⟩, k, rfl⟩) ?_
    · show (!inUse (entryAt s l.ip e)) = true
      rw [huse, h0]
      rfl
    · intro h0
      refine (ih (s := { s with ios := k }) (e + 1) (h.read k)
        (by rw [show e + 1 + todo = e + (todo + 1) by omega]; exact hend)).mono ?_ fun _ _ hf => hf
      intro r t hr
      obtain ⟨hscan, k', ht⟩ := hr
      rw [show e + 1 + todo = e + (todo + 1) by omega] at hscan
      refine ⟨scanned_next ?_ hscan, k', ht⟩
      rw [huse]
      simp [h0]

end Scans

/-! ## Looking up, entering, removing -/

section Ops

variable {s : Mnt} {l : Loc} {name : Name}

theorem dirLookup_words (hp : s.fs.desc.ops = .pdp7) : dirLookup name (s, l) = p7fsDirLookup name (s, l) := by
  unfold dirLookup
  rw [bindUpFs_run]
  rw [hp]

theorem dirAdd_words (hp : s.fs.desc.ops = .pdp7) (ino : Nat) :
    dirAdd ino name (s, l) = p7fsDirAdd ino name (s, l) := by
  unfold dirAdd
  rw [bindUpFs_run]
  rw [hp]

theorem dirRemove_words (hp : s.fs.desc.ops = .pdp7) : dirRemove name (s, l) = p7fsDirRemove name (s, l) := by
  unfold dirRemove
  rw [bindUpFs_run]
  rw [hp]

theorem slots_lt (hsize : l.ip.size < 2 ^ 32) : (0 + l.ip.size / 2 / 8) * 8 / 64 < 2 ^ 32 := by omega

/-- A lookup evaluates the map of the stored entries. -/
theorem post_dirLookup_words (h : Legible s l.ip) (hsize : l.ip.size < 2 ^ 32) (hdot : name ≠ dot)
    (hdotdot : name ≠ dotdot) :
    Post (dirLookup name (s, l)) (fun r t => binding (stored s l.ip) name = some r ∧ ∃ k,
      t = ({ s with ios := k }, l))
      (fun e _ => e = .enoent ∧ binding (stored s l.ip) name = none) := by
  rw [dirLookup_words h.words]
  refine post_ite (fun hc => absurd hc hdot) fun _ => post_ite (fun hc => absurd hc hdotdot) fun _ => ?_
  refine post_bind ((post_p7Find (· == name) (l.ip.size / 2 / 8) 0 h (slots_lt hsize)).mono ?_
    fun _ _ hf => hf.elim)
  intro r _ hr
  obtain ⟨hscan, hent, k, rfl⟩ := hr
  rw [Nat.zero_add] at hscan
  have hlookup : lookup (stored s l.ip) name = (r.map Prod.fst).map (entryAt s l.ip) := lookup_scanned hscan
  cases r with
  | none => exact ⟨rfl, by unfold binding; rw [hlookup]; rfl⟩
  | some x =>
    refine ⟨?_, k, rfl⟩
    unfold binding
    rw [hlookup]
    show some (entryAt s l.ip x.1).1 = some x.2.1
    rw [hent x rfl]

/-- What `p7fs_dir_add` asks of a name. -/
structure NameFits (name : Name) : Prop where
  nonempty : name ≠ []
  short : name.length ≤ 8
  noSlash : slash ∉ name

/-- What entering a name in slot `e` leaves. -/
structure Added (s : Mnt) (ip : Inode) (ino : Nat) (name : Name) (e : Nat) (t : Mnt) (ip' : Inode) :
    Prop extends SameVol s t where
  stocked : Stocked t ip'
  free_slot : Scanned (fun j => !inUse (entryAt s ip j)) 0 (slots ip) (some e) ∧ ip'.size = ip.size / 2 * 2 ∨
    (∀ j, j < slots ip → inUse (entryAt s ip j) = true) ∧ e = slots ip ∧ ip'.size = (ip.size / 2 + 8) * 2
  here : entryAt t ip' e = (word18 ino, unpackName (packName name))
  other : ∀ j, j * 8 / 64 < 2 ^ 32 → j ≠ e → entryAt t ip' j = entryAt s ip j
  there : mapAt t ip' (e * 8 / 64) ≠ 0
  record : ∃ u, Recorded u ip.ino ip' t

theorem word18_packName (name : Name) (i : Nat) : word18 (packName name i) = packName name i := by
  apply Nat.mod_eq_of_lt
  unfold packName
  omega

/-- The words of an entry of the name in slot `e`, `wordAt s ip` elsewhere. -/
def entryWords (s : Mnt) (ip : Inode) (e ino : Nat) (name : Name) (x : Nat) : Nat :=
  if x = e * 8 + 5 then word18 ino else if x = e * 8 + 4 then packName name 3 else if x = e * 8 + 3 then
  packName name 2
  else if x = e * 8 + 2 then packName name 1 else if x = e * 8 + 1 then packName name 0
    else if x = e * 8 then word18 ino else wordAt s ip x

/-- The six words have gone in. -/
structure Spelled (s : Mnt) (l : Loc) (e ino : Nat) (name : Name) (t : Mnt × Loc) :
    Prop extends Joined s l.ip 5 t.1 t.2.ip where
  bl : t.2.bl = l.bl
  there : mapAt t.1 t.2.ip (e * 8 / 64) ≠ 0
  word : ∀ x, x / 64 < 2 ^ 32 → wordAt t.1 t.2.ip x = entryWords s l.ip e ino name x

/-- The entry is written word by word; only the first can want a block. -/
theorem post_spell (hp : s.fs.desc.ops = .pdp7) (hst : Stocked s l.ip) (e ino : Nat)
    (name : Name) {rest : MI Unit}
    {Q : Unit → Mnt × Loc → Prop} (hrest : ∀ t, Spelled s l e ino name t → Post (rest t) Q fun _ _ => True) :
    Post ((failAs .eio (inodeWriteWord (e * 8) ino) >>= fun _ =>
      failAs .eio (inodeWriteWord (e * 8 + 1) (packName name 0)) >>= fun _ =>
      failAs .eio (inodeWriteWord (e * 8 + 2) (packName name 1)) >>= fun _ =>
      failAs .eio (inodeWriteWord (e * 8 + 3) (packName name 2)) >>= fun _ =>
      failAs .eio (inodeWriteWord (e * 8 + 4) (packName name 3)) >>= fun _ =>
      failAs .eio (inodeWriteWord (e * 8 + 5) (word18 ino)) >>= fun _ =>
      rest : MI Unit) (s, l)) Q fun _ _ => True := by
  have hm := mounted_words hst.stock.volume hp
  by_cases hfar : 448 ≤ e * 8 / 64
  · refine post_bind (post_failAs ((post_inodeWriteWord_far hst.stock.form hp hfar ino).mono ?_
      fun _ _ _ => trivial))
    exact fun _ _ hfalse => hfalse.elim
  have hmax : maxFile s.fs.desc = 57344 := by
    unfold maxFile
    rw [if_pos hp]
  refine post_bind (post_failAs
    ((post_inodeWriteWord hp hst (w := e * 8) (by rw [bsize_words hm, hmax]; omega) ino).mono ?_
    fun _ _ _ => trivial))
  intro _ r h
  obtain ⟨t1, l1⟩ := r
  obtain ⟨hbl, h1⟩ := h
  have h1 : Lettered s l.ip 5 (e * 8) ino t1 l1.ip := h1
  -- the other words of the entry lie in the block of the first
  have hstep : ∀ (t : Mnt) (j v : Nat), j < 8 → SameVol s t → Stocked t l1.ip → mapAt t l1.ip (e * 8 / 64) ≠ 0 →
      Post (failAs .eio (inodeWriteWord (e * 8 + j) v) (t, l1))
        (fun _ u => u.2 = l1 ∧ Lettered t l1.ip 0 (e * 8 + j) v u.1 l1.ip ∧
          mapAt u.1 l1.ip (e * 8 / 64) ≠ 0) fun _ _ => True := by
    intro t j v hj hvol hstock h0
    have hblk : (e * 8 + j) / 64 = e * 8 / 64 := by omega
    refine post_failAs ((post_inodeWriteWord_mapped (by rw [shape_desc hvol.shape]; exact hp) hstock
      (w := e * 8 + j) (by omega) (by rw [hblk]; exact h0) v).mono
      ?_ fun _ _ hf => hf.elim)
    intro _ u h
    obtain ⟨hl, hlet⟩ := h
    have hthere := hlet.there
    rw [hblk] at hthere
    exact ⟨hl, hlet, hthere⟩
  have hv1 : SameVol s t1 := h1.toSameVol
  refine post_bind ((hstep t1 1 (packName name 0) (by decide) hv1 h1.stocked h1.there).mono ?_
    fun _ _ _ => trivial)
  intro _ r h
  obtain ⟨t2, _⟩ := r
  obtain ⟨rfl, h2, hmap2⟩ := h
  have hv2 : SameVol s t2 := sameVol_law.trans hv1 h2.toSameVol
  refine post_bind ((hstep t2 2 (packName name 1) (by decide) hv2 h2.stocked hmap2).mono ?_ fun _ _ _ =>
    trivial)
  intro _ r h
  obtain ⟨t3, _⟩ := r
  obtain ⟨rfl, h3, hmap3⟩ := h
  have hv3 : SameVol s t3 := sameVol_law.trans hv2 h3.toSameVol
  refine post_bind ((hstep t3 3 (packName name 2) (by decide) hv3 h3.stocked hmap3).mono ?_ fun _ _ _ =>
    trivial)
  intro _ r h
  obtain ⟨t4, _⟩ := r
  obtain ⟨rfl, h4, hmap4⟩ := h
  have hv4 : SameVol s t4 := sameVol_law.trans hv3 h4.toSameVol
  refine post_bind ((hstep t4 4 (packName name 3) (by decide) hv4 h4.stocked hmap4).mono ?_ fun _ _ _ =>
    trivial)
  intro _ r h
  obtain ⟨t5, _⟩ := r
  obtain ⟨rfl, h5, hmap5⟩ := h
  have hv5 : SameVol s t5 := sameVol_law.trans hv4 h5.toSameVol
  refine post_bind ((hstep t5 5 (word18 ino) (by decide) hv5 h5.stocked hmap5).mono ?_ fun _ _ _ => trivial)
  intro _ r h
  obtain ⟨t6, l6⟩ := r
  obtain ⟨rfl, h6, hmap6⟩ := h
  refine hrest _ ⟨?_, hbl, hmap6, ?_⟩
  · exact ((((h1.toJoined.trans h2.toJoined).trans h3.toJoined).trans h4.toJoined).trans
      h5.toJoined).trans h6.toJoined
  · intro x hx
    show wordAt t6 l6.ip x = _
    rw [h6.word x hx, h5.word x hx, h4.word x hx, h3.word x hx, h2.word x hx, h1.word x hx,
      word18_packName, word18_packName, word18_packName,
      word18_packName, show word18 (word18 ino) = word18 ino from Nat.mod_mod ..]
    rfl

/-- The entry and the record have gone out. -/
theorem Spelled.added {t : Mnt × Loc} {u : Mnt} {k e ino z : Nat}
    (h : Spelled { s with ios := k } l e ino name t)
    (hrec : Recorded t.1 l.ip.ino { t.2.ip with size := z } u) (he : e * 8 / 64 < 2 ^ 32)
    (hz : Scanned (fun j => !inUse (entryAt s l.ip j)) 0 (slots l.ip) (some e) ∧ z = l.ip.size / 2 * 2 ∨
      (∀ j, j < slots l.ip → inUse (entryAt s l.ip j) = true) ∧ e = slots l.ip ∧ z = (l.ip.size / 2 + 8) * 2) :
    Added s l.ip ino name e u { t.2.ip with size := z } := by
  have hf := h.stocked.stock.form
  have htwin : Twin t.1.fs.desc t.2.ip { t.2.ip with size := z } := ⟨rfl, fun _ _ => rfl⟩
  have hst : Stocked t.1 { t.2.ip with size := z } := htwin.stocked h.stocked
  have hword : ∀ x, x / 64 < 2 ^ 32 →
    wordAt u { t.2.ip with size := z } x = entryWords s l.ip e ino name x := by
    intro x hx
    have hsame : wordAt u { t.2.ip with size := z } x = wordAt t.1 t.2.ip x := by
      unfold wordAt
      rw [hrec.unitAt hst hx, htwin.unitAt hf hx]
    rw [hsame, h.word x hx]
    rfl
  have hvol : SameVol s t.1 :=
    sameVol_law.trans (show SameVol s { s with ios := k } from ⟨rfl, rfl, rfl⟩) h.toSameVol
  refine ⟨sameVol_law.trans hvol hrec.toSameVol, hrec.stocked hst, hz, ?_, ?_, ?_, t.1, hrec⟩
  · apply entryAt_eq
    · rw [hword _ he]
      simp [entryWords]
    · intro i hi
      rw [hword _ (by omega)]
      have hi : i = 0 ∨ i = 1 ∨ i = 2 ∨ i = 3 := by omega
      rcases hi with rfl | rfl | rfl | rfl <;> simp [entryWords]
  · intro j hj hne
    have hsame : ∀ i, i < 5 → wordAt u { t.2.ip with size := z } (j * 8 + i) = wordAt s l.ip (j * 8 + i) := by
      intro i hi
      rw [hword _ (by omega)]
      unfold entryWords
      rw [if_neg (by omega), if_neg (by omega), if_neg (by omega), if_neg (by omega),
        if_neg (by omega), if_neg (by omega)]
    refine entryAt_eq (hsame 0 (by decide)) fun i hi => ?_
    rw [Nat.add_assoc]
    exact hsame (1 + i) (by omega)
  · rw [(hrec.steady hst).mapAt hf he, htwin.mapAt hf he]
    exact h.there

theorem writeInode_words {t : Mnt} (hp : t.fs.desc.ops = .pdp7) (n : Nat) (ip : Inode) :
    writeInode n ip t = p7fsWriteInode n ip t := by
  unfold writeInode
  rw [bindFs_run]
  rw [hp]

/-- A name is entered in the first free slot, or in the one past the end. -/
theorem post_dirAdd_words (hs : Sited s) (hp : s.fs.desc.ops = .pdp7) (hn : Numbered s l.ip.ino)
    (hst : Stocked s l.ip) (hsize : l.ip.size < 2 ^ 32)
    (ino : Nat) :
    Post (dirAdd ino name (s, l)) (fun _ t => NameFits name ∧ t.2.bl = l.bl ∧ ∃ e,
      Added s l.ip ino name e t.1 t.2.ip) fun _ _ => True := by
  rw [dirAdd_words hp]
  refine post_ite (fun _ => trivial) fun hlen => ?_
  refine post_ite (fun _ => trivial) fun hslash => ?_
  refine post_ite (fun _ => trivial) fun _ => ?_
  have hfits : NameFits name :=
    ⟨fun hnil => hlen (.inl hnil), Nat.le_of_not_lt fun hlt => hlen (.inr hlt), hslash⟩
  show Post ((p7FreeSlot (l.ip.size / 2 / 8) 0 >>= fun found => _ : MI Unit) (s, l)) _ _
  refine post_bind ((post_p7FreeSlot (l.ip.size / 2 / 8) 0 ⟨hp, hs.toReady, hst.tree⟩
    (slots_lt hsize)).mono ?_ fun _ _ _ => trivial)
  intro found _ h
  obtain ⟨hscan, k, rfl⟩ := h
  rw [Nat.zero_add] at hscan
  generalize hz : (if found.isSome then l.ip.size / 2 else l.ip.size / 2 + 8) * 2 = z
  obtain ⟨e, he, hle, hslot⟩ : ∃ e, found.getD (l.ip.size / 2 / 8) = e ∧ e ≤ slots l.ip ∧
      (Scanned (fun j => !inUse (entryAt s l.ip j)) 0 (slots l.ip) (some e) ∧ z = l.ip.size / 2 * 2 ∨
        (∀ j, j < slots l.ip → inUse (entryAt s l.ip j) = true) ∧ e = slots l.ip ∧
        z = (l.ip.size / 2 + 8) * 2) := by
    cases found with
    | none =>
      exact ⟨_, rfl, Nat.le_refl _, .inr ⟨fun j hj => by simpa using hscan j (Nat.zero_le _) hj, rfl, hz.symm⟩⟩
    | some i => exact ⟨i, rfl, Nat.le_of_lt hscan.2.1, .inl ⟨hscan, hz.symm⟩⟩
  have hblk : e * 8 / 64 < 2 ^ 32 := by
    unfold slots at hle
    omega
  have hread := hst.read k
  refine post_spell (s := { s with ios := k }) hp hread.stocked (found.getD (l.ip.size / 2 / 8)) ino name ?_
  rw [he]
  intro r ht
  obtain ⟨t, jp, bl⟩ := r
  have hvol : SameVol s t :=
    sameVol_law.trans (show SameVol s { s with ios := k } from ⟨rfl, rfl, rfl⟩) ht.toSameVol
  have hino : jp.ino = l.ip.ino := by
    have hkin : jp = { l.ip with addr := jp.addr, mode := jp.mode } := ht.kin
    rw [hkin]
  have hrecord : ∀ i, i = l.ip.ino → Post (p7fsWriteInode i { jp with size := z } t)
      (fun _ u => NameFits name ∧ bl = l.bl ∧ ∃ e, Added s l.ip ino name e u { jp with size := z })
        fun _ _ => True := by
    rintro _ rfl
    rw [← writeInode_words (by rw [shape_desc hvol.shape]; exact hp)]
    refine (post_writeInode_records (hs.of_stock hvol ht.stocked.stock)
      ((numbered_of_sameVol hvol).mpr hn) _).mono ?_ fun _ _ _ => trivial
    intro _ u hrec
    exact ⟨hfits, ht.bl, e, ht.added hrec hblk hslot⟩
  show Post ((up (p7fsWriteInode jp.ino { jp with size := z }) : MI Unit) (t, ⟨{ jp with size := z }, bl⟩)) _ _
  exact post_outside (hrecord _ hino)

/-- What freeing slot `e` leaves; the copy is not touched. -/
structure Erased (s : Mnt) (ip : Inode) (e : Nat) (t : Mnt) : Prop extends Joined s ip 0 t ip where
  here : (entryAt t ip e).1 = 0
  other : ∀ j, j * 8 / 64 < 2 ^ 32 → j ≠ e → entryAt t ip j = entryAt s ip j

/-- A name that is there is removed, and nothing else can happen; a name that is not is refused. -/
theorem post_dirRemove_words (hp : s.fs.desc.ops = .pdp7) (hst : Stocked s l.ip) (hsize : l.ip.size < 2 ^ 32) :
    Post (dirRemove name (s, l))
      (fun _ t => t.2 = l ∧ ∃ e, Scanned (fun j => inUse (entryAt s l.ip j) &&
        (entryAt s l.ip j).2 == name) 0 (slots l.ip) (some e) ∧
        Erased s l.ip e t.1)
      (fun e _ => e = .enoent ∧ lookup (stored s l.ip) name = none) := by
  have hm := mounted_words hst.stock.volume hp
  rw [dirRemove_words hp]
  refine post_ite (fun hro => absurd hm.writable (by simp [show s.fs.readonly = true from hro])) fun _ => ?_
  show Post ((p7Find (· == name) (l.ip.size / 2 / 8) 0 >>= fun found => _ : MI Unit) (s, l)) _ _
  refine post_bind ((post_p7Find (· == name) (l.ip.size / 2 / 8) 0 ⟨hp, hst.stock.toReady, hst.tree⟩
    (slots_lt hsize)).mono ?_ fun _ _ hf => hf.elim)
  intro r _ h
  obtain ⟨hscan, -, k, rfl⟩ := h
  rw [Nat.zero_add] at hscan
  cases r with
  | none => exact ⟨rfl, lookup_scanned hscan⟩
  | some x =>
    have hread := hst.read k
    have huse : wordAt s l.ip (x.1 * 8) ≠ 0 := by
      have := (Bool.and_eq_true_iff.mp hscan.2.2.1).1
      rwa [inUse_entryAt, bne_iff_ne] at this
    have hlt : x.1 < l.ip.size / 2 / 8 := hscan.2.1
    have hblk : x.1 * 8 / 64 < 2 ^ 32 := by omega
    -- a word that is not zero lies in a block that is there
    have h0 : mapAt s l.ip (x.1 * 8 / 64) ≠ 0 := fun hz => huse (if_pos hz)
    refine (post_inodeWriteWord_mapped (s := { s with ios := k }) hp hread.stocked hblk h0 0).mono ?_
      fun _ _ hf => hf.elim
    intro _ p h
    obtain ⟨t, l'⟩ := p
    obtain ⟨hl, hlet⟩ := h
    have hlet : Lettered { s with ios := k } l.ip 0 (x.1 * 8) 0 t l.ip := hlet
    refine ⟨hl, x.1, hscan, hread.toJoined.trans hlet.toJoined, ?_, ?_⟩
    · show wordAt t l.ip (x.1 * 8) = 0
      rw [hlet.word _ hblk, if_pos rfl]
      rfl
    · intro j hj hne
      have hsame : ∀ i, i < 5 → wordAt t l.ip (j * 8 + i) = wordAt s l.ip (j * 8 + i) := by
        intro i hi
        rw [hlet.word _ (by omega), if_neg (by omega)]
        rfl
      refine entryAt_eq (hsame 0 (by decide)) fun i hi => ?_
      rw [Nat.add_assoc]
      exact hsame (1 + i) (by omega)

/-- The entries after a name has come in. -/
theorem Added.inserted {t : Mnt} {ip ip' : Inode} {ino e : Nat} (h : Added s ip ino name e t ip')
    (hsize : ip.size < 2 ^ 32) (h0 : 0 < ino)
    (h18 : ino < 2 ^ 18) : Inserted (stored s ip) (stored t ip') (ino, unpackName (packName name)) := by
  have hhere : entryAt t ip' e = (ino, unpackName (packName name)) := by
    rw [h.here, show word18 ino = ino from Nat.mod_eq_of_lt h18]
  have hother : ∀ j, j < slots ip → j ≠ e → entryAt t ip' j = entryAt s ip j := by
    intro j hj hne
    refine h.other j ?_ hne
    unfold slots at hj
    omega
  rcases h.free_slot with ⟨hscan, hz⟩ | ⟨-, rfl, hz⟩
  · have hsame : slots ip' = slots ip := by
      unfold slots
      rw [hz, Nat.mul_div_cancel _ (by decide)]
    have hfree : (entryAt s ip e).1 = 0 := by
      have := hscan.2.2.1
      rw [Bool.not_eq_true', inUse_entryAt, bne_eq_false_iff_eq] at this
      exact this
    have hins := live_reuse (f := entryAt s ip) (g := entryAt t ip') hscan.2.1 hfree
      (by rw [hhere]; exact Nat.ne_of_gt h0) hother
    rw [hhere] at hins
    unfold stored
    rwa [hsame]
  · have hmore : slots ip' = slots ip + 1 := by
      unfold slots
      rw [hz]
      omega
    have hins := live_append (f := entryAt s ip) (g := entryAt t ip') (n := slots ip)
      (by rw [hhere]; exact Nat.ne_of_gt h0) fun j hj => hother j hj (by omega)
    rw [hhere] at hins
    unfold stored
    rwa [hmore]

end Ops

end Filsys.Pdp7
