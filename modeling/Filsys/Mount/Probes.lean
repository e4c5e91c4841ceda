/-
  Filsys.Mount.Probes — how far into the superblock the parsers of V1 and of the V8 family
  read (v1fs.c, v7fs.c).

  The lengths that steer the reads come from the same untrusted bytes. `v1_probe` tests
  the offset of the second map's length before it reads there, `v1fs_open` after
  (`v1fsOpen_inside_iff`). `probe_v8_try` bounds its tables by their depth, but counts an
  in-superblock bit map over as many words as `fsize - isize` asks for, where the mount
  stops at 961 of them (`probeV8Try_inside_iff`). Together:
  `superblock_parsers_stay_inside_iff`; `superblock_parsers_read_past` has an image for each.
-/

import Filsys.Engine.Probe
import Filsys.Mount.Scans

namespace Filsys.Mount

open Filsys.Lib Filsys.Engine

/-! ## Watching the V1 open -/

/-- The lengths and the maps of a V1 superblock, and what the open makes of them. -/
def v1MapsSeen (offset : Nat) (sb : Buf) : MP Unit := do
  let freemapBytes ← look 2 boGet16le sb 0
  let inodemapBytes ← look 2 boGet16le sb (2 + freemapBytes)
  let inodemapOff := 2 + freemapBytes + 2
  if freemapBytes = 0 ∨ 1024 < inodemapOff + inodemapBytes then throw .einval
  else
    let s ← unwatched get
    let fsize := freemapBytes * 8
    let maxino := inodemapBytes * 8
    if s.size < offset + fsize * 512 ∨ fsize ≤ v1DataStart maxino then throw .einval
    else
      noteAll (List.range' 2 freemapBytes)
      let freemap := window sb 2 freemapBytes
      noteAll (List.range' inodemapOff inodemapBytes)
      let inodemap := window sb inodemapOff inodemapBytes
      unwatched (modFs fun fs => { fs with
        freemapBytes := freemapBytes, inodemapBytes := inodemapBytes, fsize := fsize, maxino := maxino
        imgsize := s.size, freemap := freemap, inodemap := inodemap
        tfree := countBits freemap true (v1DataStart maxino) (fsize - v1DataStart maxino)
        tinode := countBits inodemap false 0 (maxino + 1 - 41) })

def v1fsOpenSeen (readonly : Bool) (proto : Desc) (offset : Nat) : MP Unit := do
  unwatched (modFs fun _ => { desc := proto, readonly := readonly, base := offset })
  unwatched openImage
  let b0 ← unwatched (failAs .eio (v1fsReadBlock 0))
  let b1 ← unwatched (failAs .eio (v1fsReadBlock 1))
  v1MapsSeen offset (splice b0 512 b1 0 512)

theorem erases_look {α : Type} {n o : Nat} {get : Buf → Nat → Nat} {b : Buf} {f : Nat → MP α} {y : M α}
    (hf : Erases (f (get b o)) y) :
    Erases (look n get b o >>= f) y := fun s l => hf s (List.range' o n ++ l)

/-- Its notes left out, the watched open is the open. -/
theorem v1fsOpenSeen_erases (readonly : Bool) (proto : Desc) (offset : Nat) :
    Erases (v1fsOpenSeen readonly proto offset) (v1fsOpen readonly proto offset) := by
  refine erases_bind (erases_unwatched _) fun _ => ?_
  refine erases_bind (erases_unwatched _) fun _ => ?_
  refine erases_bind (erases_unwatched _) fun b0 => ?_
  refine erases_bind (erases_unwatched _) fun b1 => ?_
  refine erases_look (erases_look ?_)
  refine erases_ite (fun _ => erases_throw _) fun _ => ?_
  refine erases_bind (erases_unwatched _) fun s => ?_
  refine erases_ite (fun _ => erases_throw _) fun _ => ?_
  exact erases_noteAll (erases_noteAll (erases_unwatched _))

/-! ## What a parser gains -/

section Gains

variable {P : Nat → Prop} {α : Type}

theorem gains_law : Law (Gains P : Mnt × List Nat → Mnt × List Nat → Prop) := ⟨Gains.refl, Gains.trans⟩

theorem keeps_if {ε σ : Type} {R : σ → σ → Prop} {c : Prop} [Decidable c] {x y : EStateM ε σ α}
    (hx : c → Keeps R x) (hy : ¬ c → Keeps R y) :
    Keeps R (if c then x else y) := fun s => post_ite (fun h => hx h s) fun h => hy h s

theorem unwatched_gains (x : M α) : Keeps (Gains P) (unwatched x : MP α) := fun s =>
  post_unwatched ((post_true _).mono (fun _ _ _ => Gains.refl s) fun _ _ _ => Gains.refl s)

theorem look_gains {n o : Nat} (get : Buf → Nat → Nat) (b : Buf) (h : ∀ i, o ≤ i → i < o + n → P i) :
    Keeps (Gains P) (look n get b o) := fun s =>
  (Gains.refl s).append fun i hi => h i (List.mem_range'_1.mp hi).1 (List.mem_range'_1.mp hi).2

theorem post_bindLook {n o : Nat} {get : Buf → Nat → Nat} {b : Buf} {f : Nat → MP α}
    {s : Mnt × List Nat} {Q : α → Mnt × List Nat → Prop}
    {E : Errno → Mnt × List Nat → Prop} (h : Post (f (get b o) (s.1, List.range' o n ++ s.2)) Q E) :
    Post ((look n get b o >>= f) s) Q E := h

theorem anyBad_gains (bad : Nat → Bool) {read : Nat → MP Nat} (todo i : Nat)
    (h : ∀ j, i ≤ j → j < i + todo → Keeps (Gains P) (read j)) :
    Keeps (Gains P) (anyBad bad read todo i) := by
  induction todo generalizing i with
  | zero => exact keeps_pure gains_law
  | succ todo ih =>
    refine keeps_bind gains_law (h i (Nat.le_refl i) (by omega)) fun v => keeps_ite (keeps_pure gains_law) ?_
    exact ih (i + 1) fun j hj hlt => h j (by omega) (by omega)

end Gains

/-! ## V1 -/

/-- `v1_probe` looks where it reads first. -/
theorem v1Probe_gains (fmt : Desc) (base nbytes : Nat) :
    Keeps (Gains (· < 1024)) (v1Probe fmt base nbytes) := by
  refine keeps_bind gains_law (unwatched_gains _) fun r => ?_
  cases r with
  | error e => exact keeps_pure gains_law
  | ok sb =>
    refine keeps_bind gains_law (look_gains _ _ fun i _ hi => by omega) fun freemapBytes =>
      keeps_ite (keeps_pure gains_law) ?_
    refine keeps_if (fun _ => keeps_pure gains_law) fun hroom => ?_
    refine keeps_bind gains_law (look_gains _ _ fun i _ hi => by omega) fun inodemapBytes =>
      keeps_ite (keeps_pure gains_law) ?_
    refine keeps_ite (keeps_pure gains_law) (keeps_bind gains_law (unwatched_gains _) fun r => ?_)
    cases r with
    | error e => exact keeps_pure gains_law
    | ok blk => exact keeps_ite (keeps_pure gains_law) (keeps_ite (keeps_pure gains_law) (keeps_pure gains_law))

/-- The open gets hold of both superblock blocks. -/
def V1Reads (offset : Nat) (s : Mnt) : Prop :=
  s.env.openErr = none ∧ s.env.fails s.ios = false ∧ s.env.fails (s.ios + 1) = false ∧ offset + 1024 ≤ s.size

theorem post_v1Block {s : Mnt} (hs : Solo s) (himg : s.fs.imgsize = 0) (b : Nat) :
    Post (v1fsReadBlock b s) (fun buf t => s.env.fails s.ios = false ∧ s.fs.base + b * 512 + 512 ≤ s.size ∧
        buf = window s.img (s.fs.base + b * 512) 512 ∧ t = ticked s)
      fun _ _ => s.env.fails s.ios = true ∨ s.size < s.fs.base + b * 512 + 512 := by
  refine post_bindFs (post_ite (fun _ => post_ioRead_solo hs _ _) fun hrange => ?_)
  exact absurd (by unfold checkRange; rw [himg]; rfl) hrange

theorem boGet16le_super (img : Buf) (offset : Nat) (b1 : Buf) :
    boGet16le (splice (window img (offset + 0 * 512) 512) 512 b1 0 512) 0 = boGet16le img offset := by
  unfold boGet16le ByteOrder.get16
  refine num_congr _ fun i hi => ?_
  have hi : i < 2 := hi
  rw [splice_outside (by omega), window_inside (by omega)]
  congr 1
  omega

/-- The second length lies in the buffer exactly if the first leaves it room; the maps always do. -/
theorem post_v1MapsSeen (offset : Nat) (sb : Buf) (s : Mnt) :
    Post (v1MapsSeen offset sb (s, [])) (fun _ t => (∀ o ∈ t.2, o < 1024) ↔ boGet16le sb 0 ≤ 1020)
      fun _ t => (∀ o ∈ t.2, o < 1024) ↔ boGet16le sb 0 ≤ 1020 := by
  refine post_bindLook (post_bindLook ?_)
  generalize boGet16le sb 0 = n
  have hlog : (∀ o ∈ List.range' (2 + n) 2 ++ (List.range' 0 2 ++ []), o < 1024) ↔ n ≤ 1020 := by
    simp only [List.append_nil, List.mem_append, List.mem_range'_1]
    refine ⟨fun h => ?_, fun h o ho => by omega⟩
    have := h (2 + n + 1) (.inl ⟨by omega, by omega⟩)
    omega
  refine post_ite (fun _ => hlog) fun hfit =>
    post_bind (post_unwatched (show Post ((get : M Mnt) s) _ _ from ?_))
  refine post_ite (fun _ => hlog) fun _ => ?_
  refine post_noteAll (post_noteAll (post_unwatched (show Post (modFs _ s) _ _ from ?_)))
  refine iff_of_true (fun o ho => ?_) (by omega)
  simp only [List.append_nil, List.mem_append, List.mem_range'_1] at ho
  omega

/-- `v1fs_open` reads the second length before it has looked where it lies. -/
theorem v1fsOpen_inside_iff (readonly : Bool) (proto : Desc) (offset : Nat) {s : Mnt} (hs : Solo s) :
    (∀ o ∈ logOf (v1fsOpenSeen readonly proto offset) s, o < 1024) ↔
    (V1Reads offset s → boGet16le s.img offset ≤ 1020) := by
  refine Post.final (P := fun t : Mnt × List Nat => (∀ o ∈ t.2, o < 1024) ↔
    (V1Reads offset s → boGet16le s.img offset ≤ 1020)) ?_
  have hnone : ∀ t : Mnt × List Nat, t.2 = [] → ¬ V1Reads offset s →
      ((∀ o ∈ t.2, o < 1024) ↔ (V1Reads offset s → boGet16le s.img offset ≤ 1020)) := fun t ht hno =>
    iff_of_true (fun o ho => absurd (ht ▸ ho) List.not_mem_nil) fun h => absurd h hno
  refine post_bind (post_unwatched (show Post (modFs _ s) _ _ from ?_))
  refine post_bind (post_unwatched ?_)
  unfold openImage
  split
  · rename_i e he
    have he : s.env.openErr = some e := he
    exact hnone _ rfl fun h => by rw [h.1] at he; cases he
  rename_i hopen
  have hopen : s.env.openErr = none := hopen
  refine post_bind (post_unwatched
    (post_failAs ((post_v1Block (s :=
    { s with fs := { desc := proto, readonly := readonly, base := offset } }) hs rfl 0).mono ?_ ?_)))
  · intro b0 t hr
    obtain ⟨hf0, hin0, rfl, rfl⟩ := hr
    have hf0 : s.env.fails s.ios = false := hf0
    refine post_bind (post_unwatched
      (post_failAs ((post_v1Block (s :=
      ticked { s with fs := { desc := proto, readonly := readonly, base := offset } })
      hs rfl 1).mono ?_ ?_)))
    · intro b1 t hr
      obtain ⟨hf1, hin1, rfl, rfl⟩ := hr
      have hf1 : s.env.fails (s.ios + 1) = false := hf1
      have hin1 : offset + 1 * 512 + 512 ≤ s.size := hin1
      have hreads : V1Reads offset s := ⟨hopen, hf0, hf1, by omega⟩
      have hfirst := boGet16le_super s.img offset (window s.img (offset + 1 * 512) 512)
      rw [← hfirst]
      exact (post_v1MapsSeen offset _ _).mono (fun _ _ h => h.trans ⟨fun h _ => h, fun h => h hreads⟩)
        fun _ _ h => h.trans ⟨fun h _ => h, fun h => h hreads⟩
    · rintro e t hbad
      have hbad : s.env.fails (s.ios + 1) = true ∨ s.size < offset + 1 * 512 + 512 := hbad
      refine hnone _ rfl fun h => ?_
      rcases hbad with hf | hs
      · rw [h.2.2.1] at hf
        cases hf
      · have := h.2.2.2
        omega
  · rintro e t hbad
    have hbad : s.env.fails s.ios = true ∨ s.size < offset + 0 * 512 + 512 := hbad
    refine hnone _ rfl fun h => ?_
    rcases hbad with hf | hs
    · rw [h.2.1] at hf
      cases hf
    · have := h.2.2.2
      omega

/-! ## The V8 family -/

theorem probeV8Fields_gains (bo : ByteOrder) (b : Buf) (bsize nbytes : Nat) :
    Keeps (Gains (· < 8192)) (probeV8Fields bo b bsize nbytes) := by
  refine keeps_bind gains_law (look_gains _ _ fun i _ hi => by omega) fun isz =>
    keeps_ite (keeps_pure gains_law) ?_
  refine keeps_bind gains_law (look_gains _ _ fun i _ hi => by omega) fun fsz => ?_
  refine keeps_bind gains_law (look_gains _ _ fun i _ hi => by omega) fun ninode => ?_
  refine keeps_if (fun _ => keeps_pure gains_law) fun hn => ?_
  refine keeps_ite (keeps_pure gains_law)
    (keeps_bind gains_law (anyBad_gains _ _ _ fun j _ hj => look_gains _ _ fun i _ hi => by omega)
    fun _ => ?_)
  refine keeps_ite (keeps_pure gains_law) (keeps_bind gains_law (look_gains _ _ fun i _ hi => by omega)
    fun fmod => keeps_ite (keeps_pure gains_law) ?_)
  refine keeps_bind gains_law (look_gains _ _ fun i _ hi => by omega) fun tfree => ?_
  refine keeps_bind gains_law (look_gains _ _ fun i _ hi => by omega) fun tinode =>
    keeps_ite (keeps_pure gains_law) ?_
  refine keeps_bind gains_law (anyBad_gains _ _ _ fun j _ hj => look_gains _ _ fun i _ hi => by omega)
    fun _ => ?_
  exact keeps_ite (keeps_pure gains_law)
    (keeps_ite (keeps_pure gains_law) (keeps_ite (keeps_pure gains_law) (keeps_pure gains_law)))

theorem probeV8List_gains (bo : ByteOrder) (b : Buf) (base bsize : Nat) (f : V8Fields) :
    Keeps (Gains (· < 8192)) (probeV8List bo b base bsize f) := by
  have hdepth : (if bsize = 8192 then 946 else 178) ≤ 946 := by split <;> decide
  refine keeps_bind gains_law (look_gains _ _ fun i _ hi => by omega) fun nfree => ?_
  refine keeps_if (fun _ => keeps_pure gains_law) fun hn => ?_
  refine keeps_bind gains_law (anyBad_gains _ _ _ fun j _ hj => look_gains _ _ fun i _ hi => by omega)
    fun _ => keeps_ite (keeps_pure gains_law) ?_
  refine keeps_bind gains_law (look_gains _ _ fun i _ hi => by omega) fun head => ?_
  refine keeps_bind gains_law (unwatched_gains _) fun r => ?_
  obtain ⟨segs, why⟩ := r
  cases why with
  | none => exact keeps_pure gains_law
  | some why => exact keeps_pure gains_law

/-- Up to the count of a map nothing is read beyond the tables. -/
theorem probeV8Before_gains (bo : ByteOrder) (b : Buf) (base bsize nbytes : Nat) :
    Keeps (Gains (· < 8192)) (probeV8Before bo b base bsize nbytes) := by
  refine keeps_bind gains_law (probeV8Fields_gains bo b bsize nbytes) fun r => ?_
  cases r with
  | none => exact keeps_pure gains_law
  | some f =>
    refine keeps_bind gains_law (unwatched_gains _) fun r => ?_
    cases r with
    | some why => exact keeps_pure gains_law
    | none =>
      refine keeps_bind gains_law (unwatched_gains _) fun r => ?_
      cases r with
      | some why => exact keeps_pure gains_law
      | none =>
        refine keeps_bind gains_law (probeV8List_gains bo b base bsize f) fun r => ?_
        cases r with
        | ok segs => exact keeps_pure gains_law
        | error why => exact keeps_pure gains_law

/-- The fields are those of the superblock. -/
def Told (bo : ByteOrder) (b : Buf) (f : V8Fields) : Prop := f.isz = bo.get16 b 0 ∧ f.fsz = bo.get32 b 4

theorem probeV8Fields_told (bo : ByteOrder) (b : Buf) (bsize nbytes : Nat) (s : Mnt × List Nat) :
    Post (probeV8Fields bo b bsize nbytes s) (fun r _ => ∀ f, r = some f → Told bo b f) fun _ _ => True := by
  have hno : ∀ f, (none : Option V8Fields) = some f → Told bo b f := fun f h => by cases h
  have hany : ∀ {bad : Nat → Bool} {read : Nat → MP Nat} {todo i : Nat} {t : Mnt × List Nat},
      Post (anyBad bad read todo i t) (fun _ _ => True) fun _ _ => True := post_true _
  refine post_bindLook (post_ite (fun _ => hno) fun _ =>
    post_bindLook (post_bindLook (post_ite (fun _ => hno) fun _ => post_ite (fun _ => hno) fun _ => ?_)))
  refine post_bind (hany.mono (fun _ t _ => post_ite (fun _ => hno) fun _ =>
    post_bindLook (post_ite (fun _ => hno) fun _ =>
    post_bindLook (post_bindLook (post_ite (fun _ => hno) fun _ => ?_)))) fun _ _ _ => trivial)
  refine post_bind (hany.mono (fun _ t _ => post_ite (fun _ => hno) fun _ => post_ite (fun _ => hno)
    fun _ => post_ite (fun _ => hno) fun _ => ?_)
    fun _ _ _ => trivial)
  intro f hf
  cases hf
  exact ⟨rfl, rfl⟩

theorem probeV8Before_told (bo : ByteOrder) (b : Buf) (base bsize nbytes : Nat) (s : Mnt × List Nat) :
    Post (probeV8Before bo b base bsize nbytes s) (fun r _ => ∀ f why, r = .inr (f, why) → Told bo b f)
    fun _ _ => True := by
  refine post_bind ((probeV8Fields_told bo b bsize nbytes s).mono (fun r t htold => ?_) fun _ _ _ => trivial)
  cases r with
  | none => exact fun f why h => by cases h
  | some f =>
    have hf := htold f rfl
    refine post_bind ((post_true _).mono (fun r t _ => ?_) fun _ _ _ => trivial)
    cases r with
    | some why => exact fun f why h => by cases h
    | none =>
      refine post_bind ((post_true _).mono (fun r t _ => ?_) fun _ _ _ => trivial)
      cases r with
      | some why => exact fun f why h => by cases h
      | none =>
        refine post_bind ((post_true _).mono (fun r t _ => ?_) fun _ _ _ => trivial)
        cases r with
        | ok segs => exact fun f why h => by cases h
        | error why =>
          intro f' why' h
          cases h
          exact hf

/-- The words of an in-superblock map, all of them read. -/
theorem post_bitmapCount (bo : ByteOrder) (b : Buf) (nbits todo w count : Nat) (s : Mnt × List Nat) :
    Post (bitmapCount bo b nbits todo w count s)
      (fun _ t => ∀ o, o ∈ t.2 ↔ o ∈ s.2 ∨ 252 + 4 * w ≤ o ∧ o < 252 + 4 * (w + todo)) fun _ _ => False := by
  induction todo generalizing w count s with
  | zero => exact fun o => ⟨.inl, fun h => h.resolve_right (by omega)⟩
  | succ todo ih =>
    refine post_bindLook ((ih (w + 1) _ _).mono (fun _ t ht o => ?_) fun _ _ hf => hf)
    rw [ht o, List.mem_append, List.mem_range'_1]
    by_cases hm : o ∈ s.2
    · exact iff_of_true (.inl (.inr hm)) (.inl hm)
    · simp only [hm, or_false, false_or]
      omega

/-- The probe comes as far as counting a map. -/
def CountsMap (bo : ByteOrder) (b : Buf) (base bsize nbytes : Nat) (s : Mnt) : Prop :=
  ∃ f why t, probeV8Before bo b base bsize nbytes (s, []) = .ok (.inr (f, why)) t

theorem bigmapCount_silent (base bsize fsize nblks todo k count : Nat) (s : Mnt × List Nat) :
    Post (unwatched (bigmapCount base bsize fsize nblks todo k count) s) (fun _ t => t.2 = s.2)
    fun _ t => t.2 = s.2 :=
  post_unwatched ((post_true _).mono (fun _ _ _ => rfl) fun _ _ _ => rfl)

/-- The count of the map reads past the buffer exactly if the map is in the superblock and has more bits
    than fit there. -/
theorem post_probeV8BitmapCount (bo : ByteOrder) (b : Buf) (base bsize isize fsize : Nat)
    (form : Freemap) {s : Mnt × List Nat}
    (hs : ∀ o ∈ s.2, o < 8192) :
    Post (probeV8BitmapCount bo b base bsize isize fsize form s)
      (fun _ t => (∀ o ∈ t.2, o < 8192) ↔ (form ≠ .bigmap → fsize - isize ≤ 63520))
      fun _ t => (∀ o ∈ t.2, o < 8192) ↔ (form ≠ .bigmap → fsize - isize ≤ 63520) := by
  apply post_ite
  · intro hbig
    have hyes : ∀ t : Mnt × List Nat, t.2 = s.2 →
      ((∀ o ∈ t.2, o < 8192) ↔ (form ≠ .bigmap → fsize - isize ≤ 63520)) := fun t ht =>
      iff_of_true (ht ▸ hs) fun h => absurd hbig h
    exact (bigmapCount_silent _ _ _ _ _ _ _ s).mono (fun _ t ht => hyes t ht) fun _ t ht => hyes t ht
  · intro hbig
    refine post_bind ((post_bitmapCount bo b (fsize - isize) ((fsize - isize + 31) / 32) 0 0 s).mono
      (fun _ t ht => ?_) fun _ _ hf => hf.elim)
    show (∀ o ∈ t.2, o < 8192) ↔ _
    simp only [ht]
    constructor
    · intro h _
      by_contra hmany
      have := h (252 + 4 * 1985) (.inr ⟨by omega, by omega⟩)
      omega
    · intro h o hr
      rcases hr with ho | ho
      · exact hs o ho
      · have := h hbig
        omega

theorem probeV8Try_inside_iff (bo : ByteOrder) (b : Buf) (base bsize nbytes : Nat) (s : Mnt) :
    (∀ o ∈ logOf (probeV8Try bo b base bsize nbytes) s, o < 8192) ↔
      (CountsMap bo b base bsize nbytes s → mapForm b bsize ≠ .bigmap →
        bo.get32 b 4 - bo.get16 b 0 ≤ 63520) := by
  refine Post.final (P := fun t : Mnt × List Nat => (∀ o ∈ t.2, o < 8192) ↔ _) ?_
  have hgains := probeV8Before_gains bo b base bsize nbytes (s, [])
  have htold := probeV8Before_told bo b base bsize nbytes (s, [])
  apply post_bind
  cases hrun : probeV8Before bo b base bsize nbytes (s, []) with
  | error e t =>
    refine iff_of_true (hgains.of_error hrun).all ?_
    intro hr
    obtain ⟨f, why, u, hu⟩ := hr
    rw [hrun] at hu
    cases hu
  | ok r t =>
    have hin : ∀ o ∈ t.2, o < 8192 := (hgains.of_ok hrun).all
    cases r with
    | inl answer =>
      refine iff_of_true hin ?_
      intro hr
      obtain ⟨f, why, u, hu⟩ := hr
      rw [hrun] at hu
      cases hu
    | inr fw =>
      obtain ⟨f, whyList⟩ := fw
      obtain ⟨hisz, hfsz⟩ := htold.of_ok hrun f whyList rfl
      have hcounts : CountsMap bo b base bsize nbytes s := ⟨f, whyList, t, hrun⟩
      apply post_bindLook
      have hin' : ∀ o ∈ List.range' 249 1 ++ t.2, o < 8192 := by
        intro o ho
        rcases List.mem_append.mp ho with ho | ho
        · have := List.mem_range'_1.mp ho
          omega
        · exact hin o ho
      rw [← hisz, ← hfsz]
      refine post_bind ((post_probeV8BitmapCount bo b base bsize f.isz f.fsz (mapForm b bsize) (s :=
        (t.1, List.range' 249 1 ++ t.2)) hin').mono
        (fun r u hu => ?_) fun _ u hu => hu.trans ⟨fun h _ => h, fun h => h hcounts⟩)
      have hall := hu.trans ⟨fun h (_ : CountsMap bo b base bsize nbytes s) => h, fun h => h hcounts⟩
      cases r with
      | ok cnt => exact post_ite (fun _ => hall) fun _ => hall
      | error why => exact hall

/-- The parsers of V1 and of the V8 family stay inside their superblock buffers exactly if: the first
    map of a V1 volume to be opened leaves its two blocks room for the second length; a V8 superblock
    whose in-superblock map is counted has at most 63520 data blocks. `v1_probe` always does. -/
theorem superblock_parsers_stay_inside_iff (readonly : Bool) (proto fmt : Desc) (offset : Nat)
    (bo : ByteOrder) (b : Buf) (base bsize nbytes : Nat)
    (s : Mnt) :
    (Solo s → ((∀ o ∈ logOf (v1fsOpenSeen readonly proto offset) s, o < 1024) ↔
      (V1Reads offset s → boGet16le s.img offset ≤ 1020))) ∧
    (∀ o ∈ logOf (v1Probe fmt base nbytes) s, o < 1024) ∧
    ((∀ o ∈ logOf (probeV8Try bo b base bsize nbytes) s, o < 8192) ↔
      (CountsMap bo b base bsize nbytes s → mapForm b bsize ≠ .bigmap → bo.get32 b 4 - bo.get16 b 0 ≤ 63520)) :=
  ⟨fun hs => v1fsOpen_inside_iff readonly proto offset hs,
    ((v1Probe_gains fmt base nbytes (s, [])).final (P := fun t => Gains _ (s, []) t)).all,
    probeV8Try_inside_iff bo b base bsize nbytes s⟩

/-- A V1 volume of 64 blocks and 48 inodes; blocks 50 to 55 are free, inodes 41 and 42 in use. -/
def mappedVolume : Mnt where
  fs := { desc := descV1 }
  img := poke (poke (poke zeroBuf 0 [8, 0]) 8 [252]) 10 [6, 0, 3]
  size := 64 * 512

/-- The open takes it, and reads no further than the second map. -/
theorem a_mapped_volume_is_read_inside :
    errorOf (v1fsOpen false descV1 0) mappedVolume = none ∧
    ∀ o ∈ logOf (v1fsOpenSeen false descV1 0) mappedVolume, o < 1024 := by
  obtain ⟨hopen, -, -⟩ := superblock_parsers_stay_inside_iff false descV1 descV1 0 .le
    zeroBuf 0 0 0 mappedVolume
  exact ⟨by decide +kernel, (hopen fun _ _ => rfl).mpr fun _ => by decide⟩

/-- A file of 1024 bytes 255. -/
def fullVolume : Mnt where
  fs := { desc := descV1 }
  img := fun _ => 255
  size := 1024

/-- A V8 volume of 63524 blocks of 1024 bytes, its root directory in block 3; the count of its free
    cache is one too many. -/
def tallImage : Buf :=
  poke (poke (poke (poke (poke (poke (poke zeroBuf 1024 [3, 0, 0, 0, 36, 248, 0, 0]) 1272 [179, 0]) 2112
    [0, 64, 2, 0]) 2120 [32, 0, 0, 0])
    2124 [3, 0, 0]) 3072 [2, 0, 46]) 3088 [2, 0, 46, 46]

def tallVolume : Mnt where
  fs := { desc := descV8 }
  img := tallImage
  size := 63523 * 1024

/-- The superblock of `tallVolume`, as `probe_v8` reads it. -/
def tallSuper : Buf := window tallImage 1024 1024

def comesToMap (bo : ByteOrder) (b : Buf) (base bsize nbytes : Nat) (s : Mnt) : Bool :=
  match probeV8Before bo b base bsize nbytes (s, []) with
  | .ok (.inr _) _ => true
  | _ => false

theorem countsMap_of_comesToMap {bo : ByteOrder} {b : Buf} {base bsize nbytes : Nat} {s : Mnt}
    (h : comesToMap bo b base bsize nbytes s = true) :
    CountsMap bo b base bsize nbytes s := by
  unfold comesToMap at h
  cases hr : probeV8Before bo b base bsize nbytes (s, []) with
  | error e t => rw [hr] at h; cases h
  | ok r t =>
    rw [hr] at h
    cases r with
    | inl a => cases h
    | inr fw => exact ⟨fw.1, fw.2, t, hr⟩

/-- The second length of `fullVolume` is looked for at byte 65537, and the map of `tallVolume` runs past
    the buffer. -/
theorem superblock_parsers_read_past :
    (∃ o ∈ logOf (v1fsOpenSeen false descV1 0) fullVolume, 1024 ≤ o) ∧
      ∃ o ∈ logOf (probeV8Try .le tallSuper 0 1024 (63523 * 1024)) tallVolume, 8192 ≤ o := by
  constructor
  · by_contra hno
    have hin : ∀ o ∈ logOf (v1fsOpenSeen false descV1 0) fullVolume, o < 1024 :=
      fun o ho => Nat.lt_of_not_le fun hle => hno ⟨o, ho, hle⟩
    have := (v1fsOpen_inside_iff false descV1 0 (s := fullVolume) fun _ _ => rfl).mp hin
      ⟨rfl, rfl, rfl, by decide⟩
    exact absurd this (by decide)
  · by_contra hno
    have hin : ∀ o ∈ logOf (probeV8Try .le tallSuper 0 1024 (63523 * 1024)) tallVolume, o < 8192 :=
      fun o ho => Nat.lt_of_not_le fun hle => hno ⟨o, ho, hle⟩
    have hcounts := countsMap_of_comesToMap
      (show comesToMap .le tallSuper 0 1024 (63523 * 1024) tallVolume = true by decide +kernel)
    have := (probeV8Try_inside_iff _ _ _ _ _ _).mp hin hcounts (by decide)
    exact absurd this (by decide)

end Filsys.Mount
