/-
  Filsys.Names.Framing — 2.11BSD directories whose records tile them (dir_bsd211.c).

  `dir_add` uses a free record again when it is long enough, appends one where the last ends,
  or lengthens the last to the edge of its chunk and begins the next; `dir_remove` marks a
  record free. Each leaves legal records tiling the file to its recorded size (`Framed`), so
  neither parser meets a gap, and the entries are a finite map (`Kept`, `built_is_a_map`).
-/

import Filsys.Names.Records

namespace Filsys.Names

open Filsys.Lib Filsys.Engine Filsys.Alloc Filsys.Tree

/-! ## Tilings -/

namespace Tiles

variable {d : Desc} {f f' : Buf} {n n' a b : Nat} {L : List BsdRec} {r : BsdRec}

theorem le (h : Tiles d f n a L b) : a ≤ b := by
  induction h with
  | nil a => exact Nat.le_refl a
  | cons _ _ ih => exact Nat.le_trans (Nat.le_add_right ..) ih

theorem single (h : Legal d f n r) : Tiles d f n r.off [r] (r.off + r.reclen) := .cons h.next (.nil _)

theorem of_append {A B : List BsdRec} (h : Tiles d f n a (A ++ B) b) :
    ∃ c, Tiles d f n a A c ∧ Tiles d f n c B b := by
  induction A generalizing a with
  | nil => exact ⟨a, .nil a, h⟩
  | cons r A ih =>
    cases h with
    | cons hnext h =>
      obtain ⟨c, hA, hB⟩ := ih h
      exact ⟨c, .cons hnext hA, hB⟩

/-- The records before one of them, the record, and those after it. -/
theorem of_cons {A B : List BsdRec} (h : Tiles d f n a (A ++ r :: B) b) :
    Tiles d f n a A r.off ∧ Legal d f n r ∧ Tiles d f n (r.off + r.reclen) B b := by
  obtain ⟨c, hA, hB⟩ := h.of_append
  cases hB with
  | cons hnext hB =>
    obtain ⟨hl, rfl⟩ := bsd211Next_eq_some.mp hnext
    exact ⟨hA, hl, hB⟩

/-- The same bytes are tiled alike, to whatever end. -/
theorem congr (h : Tiles d f n a L b) (hf : ∀ i, a ≤ i → i < b → f' i = f i) (hn : b ≤ n') :
    Tiles d f' n' a L b := by
  induction h with
  | nil a => exact .nil a
  | cons hnext hL ih =>
    obtain ⟨hl, rfl⟩ := bsd211Next_eq_some.mp hnext
    have hle := hL.le
    have hmin := hl.least
    refine .cons (bsd211Next_eq_some.mpr ⟨hl.congr (fun i h1 h2 => hf i h1 (by omega)) (by omega), rfl⟩)
      (ih (fun i h1 h2 => hf i ?_ h2) hn)
    omega

theorem live_congr (h : Tiles d f n a L b) (hf : ∀ i, a ≤ i → i < b → f' i = f i) : live f' L = live f L := by
  induction h with
  | nil a => rfl
  | @cons a b r L hnext hL ih =>
    obtain ⟨hl, rfl⟩ := bsd211Next_eq_some.mp hnext
    have hle := hL.le
    have hgo := ih fun i h1 h2 => hf i (by omega) h2
    by_cases h0 : r.ino = 0
    · rw [live_cons_neg h0, live_cons_neg h0, hgo]
    · rw [live_cons_pos h0, live_cons_pos h0, hgo, hl.entry_congr fun i h1 h2 => hf i h1 (by omega)]

/-- A record begins at every chunk's start. -/
theorem starts (h : Tiles d f n a L b) {x : Nat} (hx : x % 512 = 0) (hax : a ≤ x) (hxb : x < b) :
    ∃ r ∈ L, r.off = x := by
  induction h with
  | nil a => omega
  | @cons a b r L hnext _ ih =>
    obtain ⟨hl, rfl⟩ := bsd211Next_eq_some.mp hnext
    by_cases hxr : r.off = x
    · exact ⟨r, List.mem_cons_self, hxr⟩
    · have hchunk := hl.chunk
      obtain ⟨r', hr', hoff⟩ := ih (by omega) hxb
      exact ⟨r', List.mem_cons_of_mem r hr', hoff⟩

/-- The end is a record's end. -/
theorem last {A : List BsdRec} {p : BsdRec} (h : Tiles d f n a (A ++ [p]) b) :
    Tiles d f n a A p.off ∧ Legal d f n p ∧ p.off + p.reclen = b := by
  obtain ⟨hA, hl, hB⟩ := h.of_cons
  cases hB
  exact ⟨hA, hl, rfl⟩

end Tiles

/-! ## Stored records -/

/-- What `dir_add` puts in front of a name is a record of it. -/
theorem get16_bsd211Entry (d : Desc) (b : Buf) (o ino reclen : Nat) (name : Name) :
    d.bo.get16 (bsd211Entry d b o ino reclen name) o = ino % 65536 ∧
    d.bo.get16 (bsd211Entry d b o ino reclen name) (o + 2) = reclen % 65536 ∧
      d.bo.get16 (bsd211Entry d b o ino reclen name) (o + 4) = name.length % 65536 := by
  have hput : ∀ (b : Buf) (o v : Nat), d.bo.get16 (d.bo.put16 b o v) o = v % 65536 := by
    intro b o v
    unfold ByteOrder.get16 ByteOrder.put16
    rw [num_putNum (ByteOrder.perm_sig16 _), ByteOrder.length_sig16]
    rfl
  have happart : ∀ (b : Buf) (o o' v : Nat), o + 2 ≤ o' →
    d.bo.get16 (d.bo.put16 b o' v) o = d.bo.get16 b o := by
    intro b o o' v h
    exact num_putNum_apart (.inl (by rwa [ByteOrder.length_sig16]))
  have hpoke : ∀ (b : Buf) (o' : Nat), o' + 2 ≤ o + 6 →
    d.bo.get16 (poke b (o + 6) name) o' = d.bo.get16 b o' := by
    intro b o' h
    exact num_poke_apart (.inl (by rwa [ByteOrder.length_sig16]))
  unfold bsd211Entry
  refine ⟨?_, ?_, ?_⟩
  · rw [hpoke _ _ (by omega), happart _ _ _ _ (by omega), happart _ _ _ _ (by omega), hput]
  · rw [hpoke _ _ (by omega), happart _ _ _ _ (by omega), hput]
  · rw [hpoke _ _ (by omega), hput]

theorem bsd211Entry_outside {d : Desc} {b : Buf} {o ino reclen i : Nat} {name : Name}
    (h : i < o ∨ o + 6 + name.length ≤ i) :
    bsd211Entry d b o ino reclen name i = b i := by
  unfold bsd211Entry ByteOrder.put16
  rw [poke_outside (by omega), putNum_outside (by rw [ByteOrder.length_sig16]; omega),
    putNum_outside (by rw [ByteOrder.length_sig16]; omega),
    putNum_outside (by rw [ByteOrder.length_sig16]; omega)]

theorem bytesAt_bsd211Entry (d : Desc) (b : Buf) (o ino reclen : Nat) (name : Name) :
    bytesAt (bsd211Entry d b o ino reclen name) (o + 6) name.length = name := by
  refine List.ext_getElem (length_bytesAt ..) fun i h1 h2 => ?_
  have hbyte : bsd211Entry d b o ino reclen name (o + 6 + i) = name[i] := by
    unfold bsd211Entry
    rw [poke_inside h2, List.getD_eq_getElem _ _ h2]
  rw [← hbyte]
  simp [bytesAt]

/-- A record `dir_add` stores at `off`. -/
structure Fits (d : Desc) (n off reclen : Nat) (name : Name) : Prop where
  aligned : off % 4 = 0
  least : 8 ≤ reclen
  whole : reclen % 4 = 0
  inside : off + reclen ≤ n
  long : name.length + 7 ≤ reclen
  short : name.length ≤ d.maxNamlen
  chunk : off % 512 + reclen ≤ 512

theorem legal_stored {d : Desc} {f b : Buf} {n off o ino reclen : Nat} {name : Name}
    (h : Fits d n off reclen name) (hino : ino < 65536)
    (hf : ∀ i, i < reclen → f (off + i) = bsd211Entry d b o ino reclen name (o + i)) :
    Legal d f n ⟨off, ino, reclen, name.length⟩ ∧
    entryOfRec f ⟨off, ino, reclen, name.length⟩ = (ino, name) := by
  obtain ⟨h1, h2, h3, h4, h5, h6, h7⟩ := h
  obtain ⟨g1, g2, g3⟩ := get16_bsd211Entry d b o ino reclen name
  have hget : ∀ k, k + 2 ≤ reclen →
    d.bo.get16 f (off + k) = d.bo.get16 (bsd211Entry d b o ino reclen name) (o + k) := by
    intro k hk
    refine num_congr _ fun i hi => ?_
    rw [ByteOrder.length_sig16] at hi
    rw [Nat.add_assoc, Nat.add_assoc]
    exact hf (k + i) (by omega)
  refine ⟨⟨?_, ?_, ?_, h1, h2, h3, h4, h5, h6, h7⟩, ?_⟩
  · have := hget 0 (by omega)
    rw [Nat.add_zero, Nat.add_zero, g1] at this
    show ino = d.bo.get16 f off
    rw [this, Nat.mod_eq_of_lt hino]
  · show reclen = d.bo.get16 f (off + 2)
    rw [hget 2 (by omega), g2, Nat.mod_eq_of_lt (by omega)]
  · show name.length = d.bo.get16 f (off + 4)
    rw [hget 4 (by omega), g3, Nat.mod_eq_of_lt (by omega)]
  · unfold entryOfRec
    refine congrArg (ino, ·) ?_
    have hbytes : bytesAt f (off + 6) name.length =
      bytesAt (bsd211Entry d b o ino reclen name) (o + 6) name.length := by
      refine List.map_congr_left fun i hi => ?_
      have := List.mem_range.mp hi
      rw [Nat.add_assoc, Nat.add_assoc]
      exact hf (6 + i) (by omega)
    exact hbytes.trans (bytesAt_bsd211Entry ..)

/-! ## Edits of a tiling -/

theorem dirsiz_bounds (k : Nat) : k + 7 ≤ bsd211Dirsiz k ∧ bsd211Dirsiz k ≤ k + 10 ∧
    bsd211Dirsiz k % 4 = 0 := by
  unfold bsd211Dirsiz
  omega

section Edits

variable {d : Desc} {f f' : Buf} {n : Nat} {A B L : List BsdRec} {r : BsdRec}

theorem Tiles.aligned {a b : Nat} (h : Tiles d f n a L b) (ha : a % 4 = 0) : b % 4 = 0 := by
  induction h with
  | nil a => exact ha
  | cons hnext _ ih =>
    have := (legal_of_next hnext).whole
    exact ih (by omega)

/-- One record is replaced by one of its length. -/
theorem Tiles.replace (h : Tiles d f n 0 (A ++ r :: B) n) {r' : BsdRec} (hr' : Legal d f' n r')
    (hoff : r'.off = r.off) (hlen : r'.reclen = r.reclen)
    (hout : ∀ i, i < n → i < r.off ∨ r.off + r.reclen ≤ i → f' i = f i) :
    Tiles d f' n 0 (A ++ r' :: B) n ∧ live f' A = live f A ∧ live f' B = live f B := by
  obtain ⟨hA, hl, hB⟩ := h.of_cons
  have hin := hl.inside
  have hbefore : ∀ i, 0 ≤ i → i < r.off → f' i = f i := fun i _ hi => hout i (by omega) (.inl hi)
  have hbehind : ∀ i, r.off + r.reclen ≤ i → i < n → f' i = f i := fun i hi hn => hout i hn (.inr hi)
  have hsingle := Tiles.single hr'
  rw [hoff, hlen] at hsingle
  exact ⟨(hA.congr hbefore (by omega)).append (hsingle.append (hB.congr hbehind (Nat.le_refl n))),
    hA.live_congr hbefore, hB.live_congr hbehind⟩

/-- A free record takes an entry. -/
theorem Tiles.reuse (h : Tiles d f n 0 (A ++ r :: B) n) (h0 : r.ino = 0) {ino o : Nat} {b : Buf}
    {name : Name} (hino : ino ≠ 0) (h16 : ino < 65536)
    (hneed : bsd211Dirsiz name.length ≤ r.reclen) (hshort : name.length ≤ d.maxNamlen)
    (hin : ∀ i, i < r.reclen → f' (r.off + i) = bsd211Entry d b o ino r.reclen name (o + i))
    (hout : ∀ i, i < n → i < r.off ∨ r.off + r.reclen ≤ i → f' i = f i) :
    ∃ L', Tiles d f' n 0 L' n ∧ Inserted (live f (A ++ r :: B)) (live f' L') (ino, name) := by
  have hl := h.of_cons.2.1
  have hdirsiz := dirsiz_bounds name.length
  obtain ⟨hr', he⟩ := legal_stored ⟨hl.aligned, hl.least, hl.whole, hl.inside, by omega,
    hshort, hl.chunk⟩ h16 hin
  obtain ⟨htiles, hA, hB⟩ := h.replace hr' rfl rfl hout
  refine ⟨_, htiles, live f A, live f B, ?_, ?_⟩
  · rw [live_append, live_cons_neg h0]
  · rw [live_append, live_cons_pos hino, he, hA, hB]

/-- A record is marked free. -/
theorem Tiles.free (h : Tiles d f n 0 (A ++ r :: B) n) (h0 : r.ino ≠ 0) (hzero : d.bo.get16 f' r.off = 0)
    (hout : ∀ i, i < n → i < r.off ∨ r.off + 2 ≤ i → f' i = f i) :
    ∃ L', Tiles d f' n 0 L' n ∧ live f (A ++ r :: B) = live f A ++ entryOfRec f r :: live f B ∧
    live f' L' = live f A ++ live f B := by
  have hl := h.of_cons.2.1
  have hin := hl.inside
  have hleast := hl.least
  have hget : ∀ k, 2 ≤ k → k + 2 ≤ r.reclen → d.bo.get16 f' (r.off + k) = d.bo.get16 f (r.off + k) := by
    intro k h2 hk
    refine num_congr _ fun i hi => ?_
    rw [ByteOrder.length_sig16] at hi
    exact hout _ (by omega) (.inr (by omega))
  have hr' : Legal d f' n { r with ino := 0 } := by
    refine ⟨hzero.symm, ?_, ?_, hl.aligned, hl.least, hl.whole, hl.inside, hl.name, hl.short, hl.chunk⟩
    · show r.reclen = _
      rw [hget 2 (Nat.le_refl 2) (by omega)]
      exact hl.reclen
    · show r.namlen = _
      rw [hget 4 (by decide) (by omega)]
      exact hl.namlen
  obtain ⟨htiles, hA, hB⟩ := h.replace hr' rfl rfl fun i hi ho => hout i hi (by omega)
  refine ⟨_, htiles, ?_, ?_⟩
  · rw [live_append, live_cons_pos h0]
  · rw [live_append, live_cons_neg rfl, hA, hB]

/-- The last record is lengthened. -/
theorem Tiles.pad (h : Tiles d f n 0 (A ++ [r]) n) {v : Nat} (hv : d.bo.get16 f' (r.off + 2) = v)
    (hle : r.reclen ≤ v) (h4 : v % 4 = 0)
    (hchunk : r.off % 512 + v ≤ 512) (hout : ∀ i, i < n → i < r.off + 2 ∨ r.off + 4 ≤ i → f' i = f i) :
    ∃ L', Tiles d f' (r.off + v) 0 L' (r.off + v) ∧ live f' L' = live f (A ++ [r]) := by
  obtain ⟨hA, hl, hend⟩ := h.last
  have hleast := hl.least
  have hname := hl.name
  have hbefore : ∀ i, 0 ≤ i → i < r.off → f' i = f i := fun i _ hi => hout i (by omega) (.inl (by omega))
  have hget : ∀ k, k = 0 ∨ k = 4 → d.bo.get16 f' (r.off + k) = d.bo.get16 f (r.off + k) := by
    intro k hk
    refine num_congr _ fun i hi => ?_
    rw [ByteOrder.length_sig16] at hi
    exact hout _ (by omega) (by omega)
  have hr' : Legal d f' (r.off + v) { r with reclen := v } := by
    refine ⟨?_, hv.symm, ?_, hl.aligned, Nat.le_trans hl.least hle, h4, Nat.le_refl _,
      Nat.le_trans hl.name hle, hl.short, hchunk⟩
    · show r.ino = _
      rw [hl.ino]
      exact (hget 0 (.inl rfl)).symm
    · show r.namlen = _
      rw [hl.namlen]
      exact (hget 4 (.inr rfl)).symm
  have hbytes : ∀ i, i < r.namlen → f' (r.off + 6 + i) = f (r.off + 6 + i) :=
    fun i hi => hout _ (by omega) (.inr (by omega))
  have hentry : entryOfRec f' { r with reclen := v } = entryOfRec f r :=
    congrArg (r.ino, ·) (bytesAt_congr hbytes)
  refine ⟨A ++ [{ r with reclen := v }], (hA.congr hbefore (by omega)).append (Tiles.single hr'), ?_⟩
  rw [live_append, live_append, hA.live_congr hbefore]
  congr 1
  by_cases h0 : r.ino = 0
  · calc live f' [{ r with reclen := v }] = live f' [] := live_cons_neg (r := { r with reclen := v }) h0 []
      _ = live f [] := rfl
      _ = live f [r] := (live_cons_neg h0 []).symm
  · rw [live_cons_pos (r := { r with reclen := v }) h0, live_cons_pos h0, hentry]
    rfl

/-- A record is added at the end. -/
theorem Tiles.grow (h : Tiles d f n 0 L n) {ino o need : Nat} {b : Buf} {name : Name}
    (hfit : Fits d (n + need) n need name) (hino : ino ≠ 0)
    (h16 : ino < 65536) (hold : ∀ i, i < n → f' i = f i) (hnew : ∀ i, i < need →
      f' (n + i) = bsd211Entry d b o ino need name (o + i)) :
    ∃ L', Tiles d f' (n + need) 0 L' (n + need) ∧ Inserted (live f L) (live f' L') (ino, name) := by
  obtain ⟨hr', he⟩ := legal_stored hfit h16 hnew
  have hsame : ∀ i, 0 ≤ i → i < n → f' i = f i := fun i _ hi => hold i hi
  refine ⟨L ++ [⟨n, ino, need, name.length⟩], (h.congr hsame (Nat.le_add_right ..)).append
    (Tiles.single hr'), live f L, [], (List.append_nil _).symm, ?_⟩
  rw [live_append, h.live_congr hsame, live_cons_pos hino, he]
  rfl

end Edits

/-! ## Framed directories -/

/-- The edition's directories have 2.11BSD's records. -/
structure BsdFormat (d : Desc) : Prop where
  ops : d.ops = .bsd211
  names : d.maxNamlen = 63
  chunks : d.bsize % 512 = 0

/-- The records of the directory a copy describes. -/
def bsdRecords (fs : Fs) (img : Buf) (ip : Inode) : List BsdRec := records fs.desc (byteOf fs img ip) ip.size 0

/-- Its entries. -/
def bsdListing (fs : Fs) (img : Buf) (ip : Inode) : List Dirent :=
  live (byteOf fs img ip) (bsdRecords fs img ip)

/-- Legal records tile it to its recorded size. -/
def Framed (fs : Fs) (img : Buf) (ip : Inode) : Prop :=
  Tiles fs.desc (byteOf fs img ip) ip.size 0 (bsdRecords fs img ip) ip.size

theorem records_of_tiles {d : Desc} {f : Buf} {n : Nat} {L : List BsdRec} (h : Tiles d f n 0 L n) :
    records d f n 0 = L := by
  rw [h.records_eq, records_nil (bsd211Next_end (Nat.le_refl n)), List.append_nil]

theorem listed_of_tiles {d : Desc} {f : Buf} {n : Nat} {L : List BsdRec} (h : Tiles d f n 0 L n) :
    listed d f n 0 = L := by
  rw [h.listed_eq, listed_end (Nat.le_refl n), List.append_nil]

section Framed

variable {s : Mnt} {own : Own} {n : Nat} {ip : Inode}

theorem framed_of_tiles {fs : Fs} {img : Buf} {ip : Inode} {L : List BsdRec}
    (h : Tiles fs.desc (byteOf fs img ip) ip.size 0 L ip.size) :
    Framed fs img ip ∧ bsdRecords fs img ip = L := by
  have hrec : bsdRecords fs img ip = L := records_of_tiles h
  refine ⟨?_, hrec⟩
  unfold Framed
  rwa [hrec]

/-- A framed directory has no holes: in every block a record begins, and no header is zero. -/
theorem Framed.solid (hd : BsdFormat s.fs.desc) (h : OpenFile s own n ip) (hf : Framed s.fs s.img ip) :
    Solid s.fs s.img ip := by
  intro x hx h0
  have hbs : 0 < s.fs.desc.bsize := Nat.lt_of_lt_of_le (by decide) h.owned.mounted.bsize
  have hmod : x * s.fs.desc.bsize % 512 = 0 := by
    rw [Nat.mul_mod, hd.chunks, Nat.mul_zero]
  obtain ⟨r, hr, hoff⟩ := hf.starts hmod (Nat.zero_le _) hx
  obtain ⟨A, B, hL⟩ := List.append_of_mem hr
  unfold Framed at hf
  rw [hL] at hf
  have hl := hf.of_cons.2.1
  have hbig : 512 ≤ s.fs.desc.bsize := Nat.le_of_dvd hbs (Nat.dvd_of_mod_eq_zero hd.chunks)
  have hzero : s.fs.desc.bo.get16 (byteOf s.fs s.img ip) (r.off + 2) = 0 := by
    have hnum : s.fs.desc.bo.get16 (byteOf s.fs s.img ip) (r.off + 2) =
      num s.fs.desc.bo.sig16 zeroBuf (r.off + 2) := by
      refine num_congr _ fun i hi => ?_
      rw [ByteOrder.length_sig16] at hi
      apply if_pos
      rw [hoff, Nat.add_assoc, Nat.add_comm, Nat.add_mul_div_right _ _ hbs, Nat.div_eq_of_lt (by omega),
        Nat.zero_add]
      exact h0
    rw [hnum, num_zeroBuf]
  have h1 := hl.least
  have h2 := hl.reclen
  omega

end Framed

/-! ## Entering and removing -/

/-- The record a name takes when it is appended. -/
def needOf (name : Name) : Nat := bsd211Dirsiz name.length

/-- Where a record of `need` bytes is appended to `n` bytes of records: behind them, or at the next
    chunk when it would not fit in theirs. -/
def appendAt (n need : Nat) : Nat := if n % 512 ≠ 0 ∧ 512 < n % 512 + need then n + (512 - n % 512) else n

/-- A free record long enough for the name. -/
def Reusable (fs : Fs) (img : Buf) (ip : Inode) (name : Name) : Prop :=
  ∃ r ∈ bsdRecords fs img ip, r.ino = 0 ∧ needOf name ≤ r.reclen

/-- The last record is lengthened first. -/
def Pads (fs : Fs) (img : Buf) (ip : Inode) (name : Name) : Prop :=
  ¬ Reusable fs img ip name ∧ ip.size % 512 ≠ 0 ∧ 512 < ip.size % 512 + needOf name

/-- The directory is framed and its entries are those of `L`. -/
structure Holds (s : Mnt) (own : Own) (n : Nat) (ip : Inode) (L : List Dirent) : Prop where
  file : OpenFile s own n ip
  framed : Framed s.fs s.img ip
  listing : bsdListing s.fs s.img ip = L

theorem holds_of_tiles {s : Mnt} {own : Own} {n : Nat} {ip : Inode} {L : List BsdRec} (h : OpenFile s own n ip)
    (hL : Tiles s.fs.desc (byteOf s.fs s.img ip) ip.size 0 L ip.size) :
    Holds s own n ip (live (byteOf s.fs s.img ip) L) := by
  obtain ⟨hframed, hrec⟩ := framed_of_tiles hL
  refine ⟨h, hframed, ?_⟩
  unfold bsdListing
  rw [hrec]

theorem bsd211Last_eq {d : Desc} {f : Buf} {n : Nat} (fuel : Nat) : ∀ (off : Nat) (last : Option BsdRec),
    bsd211Last d f n fuel off last = (recWalk d f n false fuel off).getLast?.or last := by
  induction fuel with
  | zero => exact fun _ _ => rfl
  | succ fuel ih =>
    intro off last
    rw [recWalk_succ]
    unfold bsd211Last
    cases bsd211Next d f n off with
    | none => rfl
    | some r =>
      show bsd211Last d f n fuel (off + r.reclen) (some r) =
        (r :: recWalk d f n false fuel (off + r.reclen)).getLast?.or last
      rw [ih, List.getLast?_cons]
      cases (recWalk d f n false fuel (off + r.reclen)).getLast? <;> rfl

section Ops

variable {s : Mnt} {own : Own} {n : Nat} {l : Loc} (h : OpenFile s own n l.ip)
    (hd : BsdFormat s.fs.desc) (hf : Framed s.fs s.img l.ip)

include h hd

/-- The directory is rewritten with a free record in use. -/
theorem post_reuseWrite (hf : Framed s.fs s.img l.ip) {buf : Buf}
    (hbuf : ∀ i, i < l.ip.size → buf i = byteOf s.fs s.img l.ip i) {r : BsdRec}
    (hr : r ∈ bsdRecords s.fs s.img l.ip) (h0 : r.ino = 0) {name : Name} (hneed : needOf name ≤
      r.reclen) (hshort : name.length ≤ s.fs.desc.maxNamlen)
    (ino : Nat) : Post (filsysFileWrite (bsd211Entry s.fs.desc (splice buf r.off zeroBuf 0 r.reclen)
      r.off ino r.reclen name) l.ip.size (0 : Nat) (s, l))
      (fun _ t => ino ≠ 0 → ino < 65536 → ∃ own' L, Holds t.1 own' n t.2.ip L ∧ SameVol s t.1 ∧
        Inserted (bsdListing s.fs s.img l.ip) L (ino, name))
      (fun _ _ => ValidIno s.fs n → Fault s) := by
  have hmap : ∀ {o}, o ≤ l.ip.size → Mappable s.fs o := h.mappable
  refine (post_openWrite h _ (hmap (by omega))).mono ?_ ?_
  · intro _ t ht hino h16
    obtain ⟨own', hput, hsize, -, -⟩ := ht
    rw [if_neg (by omega)] at hsize
    have hdesc := shape_desc hput.vol.shape
    obtain ⟨A, B, hL⟩ := List.append_of_mem hr
    have htiles : Tiles s.fs.desc (byteOf s.fs s.img l.ip) l.ip.size 0 (A ++ r :: B) l.ip.size := by
      rw [← hL]
      exact hf
    have hl := htiles.of_cons.2.1
    have hin := hl.inside
    have hdirsiz := dirsiz_bounds name.length
    have hnew : ∀ i, i < l.ip.size → byteOf t.1.fs t.1.img t.2.ip i =
        bsd211Entry s.fs.desc (splice buf r.off zeroBuf 0 r.reclen) r.off ino r.reclen name i := by
      intro i hi
      rw [hput.bytes i (hmap (Nat.le_of_lt hi)), if_pos (by omega)]
      rfl
    obtain ⟨L', hL', hins⟩ := htiles.reuse h0 hino h16 hneed hshort (fun i hi => hnew _ (by omega))
      fun i hi ho => by
      unfold needOf at hneed
      rw [hnew i hi, bsd211Entry_outside (by omega), splice_outside (by omega), hbuf i hi]
    rw [← hdesc, ← hsize] at hL'
    refine ⟨own', _, holds_of_tiles hput.file hL', hput.vol, ?_⟩
    unfold bsdListing
    rwa [hL]
  · intro _ t ht hn
    by_contra hno
    obtain ⟨⟨x, -, hx, hzero⟩, -⟩ := ht hn hno
    rw [Nat.zero_add] at hx
    exact hf.solid hd h x hx hzero

omit hd in
/-- An entry is written behind the records there are, `m` bytes of them. -/
theorem post_growWrite {m : Nat} {L : List BsdRec}
    (hL : Tiles s.fs.desc (byteOf s.fs s.img l.ip) m 0 L m) (hm : l.ip.size ≤ m) {name : Name}
    (hpos : name ≠ []) (hshort : name.length ≤ s.fs.desc.maxNamlen) (hchunk : m % 512 + needOf name ≤ 512)
    (hmap : Mappable s.fs (m + needOf name)) (ino : Nat) (b : Buf) :
    Post (filsysFileWrite (bsd211Entry s.fs.desc b 0 ino (needOf name) name) (needOf name) (m : Nat) (s, l))
      (fun _ t => m + needOf name < 2 ^ 32 → ino ≠ 0 → ino < 65536 → ∃ own' L',
        Holds t.1 own' n t.2.ip L' ∧ SameVol s t.1 ∧
        Inserted (live (byteOf s.fs s.img l.ip) L) L' (ino, name))
      (fun _ t => ValidIno s.fs n → ¬ Fault s → ∃ own', OpenFile t.1 own' n t.2.ip ∧ SameVol s t.1 ∧
        t.2.ip.size = l.ip.size ∧
        ∀ o, o < l.ip.size → byteOf t.1.fs t.1.img t.2.ip o = byteOf s.fs s.img l.ip o) := by
  have hdirsiz := dirsiz_bounds name.length
  have hlen : 0 < name.length := List.length_pos_iff.mpr hpos
  have hneed : bsd211Dirsiz name.length = needOf name := rfl
  have haligned := hL.aligned rfl
  refine (post_openWrite h _ hmap).mono ?_ ?_
  · intro _ t ht hlt hino h16
    obtain ⟨own', hput, hsize, -, -⟩ := ht
    rw [if_pos (by omega), Nat.mod_eq_of_lt hlt] at hsize
    have hdesc := shape_desc hput.vol.shape
    have hbelow : ∀ o, o ≤ m + needOf name → Mappable s.fs o := fun o ho => hmap.of_le ho
    have hold : ∀ i, i < m → byteOf t.1.fs t.1.img t.2.ip i = byteOf s.fs s.img l.ip i := fun i hi => by
      rw [hput.bytes i (hbelow i (by omega)), if_neg (by omega)]
    have hnew : ∀ i, i < needOf name →
      byteOf t.1.fs t.1.img t.2.ip (m + i) = bsd211Entry s.fs.desc b 0 ino (needOf name) name (0 + i) := by
      intro i hi
      rw [hput.bytes _ (hbelow _ (by omega)), if_pos (by omega), Nat.add_sub_cancel_left, Nat.zero_add]
    obtain ⟨L', hL', hins⟩ := hL.grow ⟨haligned, by omega, by omega, Nat.le_refl _, by omega, hshort,
      hchunk⟩ hino h16 hold hnew
    rw [← hdesc, ← hsize] at hL'
    exact ⟨own', _, holds_of_tiles hput.file hL', hput.vol, hins⟩
  · intro _ t ht hn hno
    obtain ⟨-, own', mid, -, hput, hsize⟩ := ht hn hno
    refine ⟨own', hput.file, hput.vol, hsize, fun o ho => ?_⟩
    rw [hput.bytes o (h.mappable (Nat.le_of_lt ho)), if_neg (by omega)]

/-- The last record is lengthened to the edge of its chunk. -/
theorem post_padWrite {A : List BsdRec} {p : BsdRec}
    (hL : Tiles s.fs.desc (byteOf s.fs s.img l.ip) l.ip.size 0 (A ++ [p]) l.ip.size)
    (hin : l.ip.size % 512 ≠ 0) {v : Nat} (hv : v = l.ip.size + (512 - l.ip.size % 512) - p.off) :
    Post (filsysFileWrite (s.fs.desc.bo.put16 zeroBuf 0 v) 2 (p.off + 2 : Nat) (s, l))
      (fun _ t => ∃ own' L', OpenFile t.1 own' n t.2.ip ∧ SameVol s t.1 ∧ t.2.ip.size = l.ip.size ∧
        Tiles s.fs.desc (byteOf t.1.fs t.1.img t.2.ip) (p.off + v) 0 L' (p.off + v) ∧
        live (byteOf t.1.fs t.1.img t.2.ip) L' = live (byteOf s.fs s.img l.ip) (A ++ [p]) ∧
        s.fs.desc.bo.get16 (byteOf t.1.fs t.1.img t.2.ip) (p.off + 2) = v ∧
        ∀ o, o < p.off → byteOf t.1.fs t.1.img t.2.ip o = byteOf s.fs s.img l.ip o)
      (fun _ _ => ValidIno s.fs n → Fault s) := by
  obtain ⟨hA, hl, hend⟩ := hL.last
  have hleast := hl.least
  have hchunk := hl.chunk
  have hwhole := hl.whole
  have haligned := hl.aligned
  have hsmall := h.size
  have hframed : Framed s.fs s.img l.ip := (framed_of_tiles hL).1
  refine (post_openWrite h _ (h.mappable (by omega))).mono ?_ ?_
  · intro _ t ht
    obtain ⟨own', hput, hsize, -, -⟩ := ht
    rw [if_neg (by omega)] at hsize
    have hout : ∀ i, i < l.ip.size → i < p.off + 2 ∨ p.off + 4 ≤ i →
      byteOf t.1.fs t.1.img t.2.ip i = byteOf s.fs s.img l.ip i := fun i hi ho => by
      rw [hput.bytes i (h.mappable (Nat.le_of_lt hi)), if_neg (by omega)]
    have hget : s.fs.desc.bo.get16 (byteOf t.1.fs t.1.img t.2.ip) (p.off + 2) = v := by
      have hnum : s.fs.desc.bo.get16 (byteOf t.1.fs t.1.img t.2.ip) (p.off + 2) =
        s.fs.desc.bo.get16 (s.fs.desc.bo.put16 zeroBuf 0 v) 0 := by
        refine num_congr _ fun i hi => ?_
        rw [ByteOrder.length_sig16] at hi
        rw [hput.bytes _ (h.mappable (by omega)), if_pos (by omega)]
        congr 1
        omega
      rw [hnum]
      unfold ByteOrder.get16 ByteOrder.put16
      rw [num_putNum (ByteOrder.perm_sig16 _), ByteOrder.length_sig16]
      exact Nat.mod_eq_of_lt (by omega)
    obtain ⟨L', hL', hlive⟩ := hL.pad hget (by omega) (by omega) (by omega) hout
    refine ⟨own', L', hput.file, hput.vol, hsize, hL', hlive, hget, ?_⟩
    intro o ho
    exact hout o (by omega) (.inl (by omega))
  · intro _ t ht hn
    by_contra hno
    obtain ⟨⟨x, -, hx, hzero⟩, -⟩ := ht hn hno
    exact hframed.solid hd h x (by omega) hzero

/-- What an insertion that has not been made leaves of the directory: its records, or those before the
    one it has lengthened. -/
def Unentered (s : Mnt) (ip : Inode) (t : Mnt) (ip' : Inode) (name : Name) : Prop :=
  ¬ Pads s.fs s.img ip name ∧ (∀ o, o < ip.size → byteOf t.fs t.img ip' o = byteOf s.fs s.img ip o) ∨
    Pads s.fs s.img ip name ∧ ∃ A p, bsdRecords s.fs s.img ip = A ++ [p] ∧
    Tiles s.fs.desc (byteOf t.fs t.img ip') ip.size 0 A p.off ∧
      live (byteOf t.fs t.img ip') A = live (byteOf s.fs s.img ip) A ∧
      bsd211Next s.fs.desc (byteOf t.fs t.img ip') ip.size p.off = none ∧ p.off % 512 ≠ 508

/-- The entry has come in. -/
def Entered (s : Mnt) (n : Nat) (ip : Inode) (e : Dirent) (t : Mnt) (ip' : Inode) : Prop :=
  ∃ own' L, Holds t own' n ip' L ∧ SameVol s t ∧ Inserted (bsdListing s.fs s.img ip) L e

/-- The entry has not come in, and no transfer has failed. -/
def Refused (s : Mnt) (n : Nat) (ip : Inode) (name : Name) (t : Mnt) (ip' : Inode) : Prop :=
  ∃ own', OpenFile t own' n ip' ∧ SameVol s t ∧ ip'.size = ip.size ∧ Unentered s ip t ip' name

/-- The directory can be appended to within the size an inode can record. -/
def CanAppend (ip : Inode) (name : Name) : Prop := appendAt ip.size (needOf name) + needOf name < 2 ^ 32

/-- The part of `bsd211_dir_add` that appends. -/
def bsd211Append (d : Desc) (ino : Nat) (name : Name) (tail prevOff : Nat) : MI Unit :=
  if tail % 4 ≠ 0 then throw .eio
  else if tail % 512 ≠ 0 ∧ 512 < tail % 512 + needOf name then do
    let _ ← failAs .eio (filsysFileWrite (d.bo.put16 zeroBuf 0 (tail + (512 - tail % 512) - prevOff)) 2
      (prevOff + 2 : Nat))
    let _ ← filsysFileWrite (bsd211Entry d zeroBuf 0 ino (needOf name) name) (needOf name)
      (tail + (512 - tail % 512) : Nat)
  else do
    let _ ← filsysFileWrite (bsd211Entry d zeroBuf 0 ino (needOf name) name) (needOf name) tail

/-- `bsd211_dir_add` on the `n` bytes of records it read. -/
def bsd211Enter (d : Desc) (ino : Nat) (name : Name) (n : Nat) (buf : Buf) : MI Unit :=
  match bsd211Find d buf n (fun r => r.ino == 0 && decide (needOf name ≤ r.reclen)) (n + 1) 0 with
  | some r =>
    filsysFileWrite (bsd211Entry d (splice buf r.off zeroBuf 0 r.reclen) r.off ino r.reclen name) n (0 :
      Nat) >>= fun _ => pure ()
  | none => bsd211Append d ino name
      (match bsd211Last d buf n (n + 1) 0 none with | some r => r.off + r.reclen | none => 0)
      (match bsd211Last d buf n (n + 1) 0 none with | some r => r.off | none => 0)

/-- `bsd211_dir_remove` on the `n` bytes of records it read. -/
def bsd211Erase (d : Desc) (name : Name) (n : Nat) (buf : Buf) : MI Unit :=
  match bsd211Find d buf n (bsd211Named buf name) (n + 1) 0 with
  | some r => filsysFileWrite (d.bo.put16 buf r.off 0) n (0 : Nat) >>= fun _ => pure ()
  | none => throw .enoent

theorem post_bsdAppend (hf : Framed s.fs s.img l.ip) {name : Name} (hname : NameOk s.fs.desc name)
    (ino : Nat) (hnew : ¬ Reusable s.fs s.img l.ip name)
    {prevOff : Nat} (hprev : l.ip.size % 512 ≠ 0 → ∃ A p, bsdRecords s.fs s.img l.ip = A ++ [p] ∧
      p.off = prevOff) :
    Post (bsd211Append s.fs.desc ino name l.ip.size prevOff (s, l))
      (fun _ t => CanAppend l.ip name → ino ≠ 0 → ino < 65536 → Entered s n l.ip (ino, name) t.1 t.2.ip)
      (fun _ t => ValidIno s.fs n → ¬ Fault s → Refused s n l.ip name t.1 t.2.ip) := by
  have hshort := hname.short
  have haligned := hf.aligned rfl
  have hneed : needOf name ≤ 73 := by
    have := dirsiz_bounds name.length
    have := hd.names
    unfold needOf
    omega
  have hmap : ∀ m, m < 2 ^ 32 + 1024 → Mappable s.fs m := fun m hm => by
    have hbs : 0 < s.fs.desc.bsize := Nat.lt_of_lt_of_le (by decide) h.owned.mounted.bsize
    have hbig := Nat.mul_le_mul_right (2 ^ 32) (Nat.le_of_dvd hbs (Nat.dvd_of_mod_eq_zero hd.chunks))
    exact Nat.div_lt_of_lt_mul (by omega)
  have hlt := h.size
  unfold bsd211Append CanAppend appendAt
  refine post_ite (fun hodd => absurd haligned hodd) fun _ => ?_
  by_cases hpads : l.ip.size % 512 ≠ 0 ∧ 512 < l.ip.size % 512 + needOf name
  · rw [if_pos hpads, if_pos hpads]
    obtain ⟨A, p, hL, rfl⟩ := hprev hpads.1
    have hfL : Tiles s.fs.desc (byteOf s.fs s.img l.ip) l.ip.size 0 (A ++ [p]) l.ip.size := by
      rw [← hL]
      exact hf
    obtain ⟨hA, hl, hend⟩ := hfL.last
    have hleast := hl.least
    have hchunk := hl.chunk
    have hslot : p.off + (l.ip.size + (512 - l.ip.size % 512) - p.off) =
      l.ip.size + (512 - l.ip.size % 512) := by
      omega
    refine post_bind (post_failAs ((post_padWrite h hd hfL hpads.1 rfl).mono ?_
      fun _ _ he hn hq => absurd (he hn) hq))
    intro _ x hrun
    obtain ⟨t, l'⟩ := x
    obtain ⟨own', L', hopen, hv, hsize, hL', hlive, hget, hbelow⟩ := hrun
    rw [hslot] at hL'
    have hdesc := shape_desc hv.shape
    replace hsize : l'.ip.size = l.ip.size := hsize
    have hfault : ¬ Fault s → ¬ Fault t := fun hq ⟨k, hk⟩ => hq ⟨k, by rw [← hv.env]; exact hk⟩
    rw [← hdesc] at hL' ⊢
    have hwrite := post_growWrite (l := l') hopen hL' (by omega) hname.ne_nil
      (by rw [hdesc]; exact hshort) (by omega)
      (by unfold Mappable; rw [hdesc]; exact hmap _ (by omega)) ino zeroBuf
    refine post_bind (hwrite.mono ?_ ?_)
    · intro _ u hu hroom hino h16
      obtain ⟨own'', L'', hL'', hvu, hins⟩ := hu hroom hino h16
      refine ⟨own'', L'', hL'', sameVol_law.trans hv hvu, ?_⟩
      unfold bsdListing
      rw [hL, ← hlive]
      exact hins
    · intro _ u hu hn hq
      obtain ⟨own'', hopenu, hvu, hsizeu, hbytes⟩ := hu ((shape_validIno hv.shape).mpr hn) (hfault hq)
      rw [hsize] at hbytes
      have hsame : ∀ i, 0 ≤ i → i < p.off → byteOf u.1.fs u.1.img u.2.ip i = byteOf s.fs s.img l.ip i :=
        fun i _ hi => by
        rw [hbytes i (by omega), hbelow i hi]
      have hstop : bsd211Next s.fs.desc (byteOf u.1.fs u.1.img u.2.ip) l.ip.size p.off = none := by
        cases hr : bsd211Next s.fs.desc (byteOf u.1.fs u.1.img u.2.ip) l.ip.size p.off with
        | none => rfl
        | some r =>
          -- its length now goes past the end
          obtain ⟨hlr, hoff⟩ := bsd211Next_eq_some.mp hr
          have hlong : s.fs.desc.bo.get16 (byteOf u.1.fs u.1.img u.2.ip) (p.off + 2) =
            s.fs.desc.bo.get16 (byteOf t.fs t.img l'.ip) (p.off + 2) := by
            refine num_congr _ fun i hi => ?_
            rw [ByteOrder.length_sig16] at hi
            exact hbytes _ (by omega)
          have hin := hlr.inside
          rw [hlr.reclen, hoff, hlong, hget] at hin
          omega
      exact ⟨own'', hopenu, sameVol_law.trans hv hvu, hsizeu.trans hsize,
        .inr ⟨⟨hnew, hpads⟩, A, p, hL, hA.congr hsame (by omega), hA.live_congr hsame, hstop, by omega⟩⟩
  · rw [if_neg hpads, if_neg hpads]
    have hwrite := post_growWrite h hf (Nat.le_refl _) hname.ne_nil hshort (by omega)
      (hmap _ (by omega)) ino zeroBuf
    refine post_bind (hwrite.mono ?_ ?_)
    · intro _ u hu hroom hino h16
      obtain ⟨own', L, hL, hv, hins⟩ := hu hroom hino h16
      exact ⟨own', L, hL, hv, hins⟩
    · intro _ u hu hn hq
      obtain ⟨own', hopen, hv, hsize, hbytes⟩ := hu hn hq
      exact ⟨own', hopen, hv, hsize, .inl ⟨fun hpad => hpads hpad.2, hbytes⟩⟩

theorem post_bsdAdd (hf : Framed s.fs s.img l.ip) {name : Name} (hname : NameOk s.fs.desc name)
    (ino : Nat) : Post (dirAdd ino name (s, l))
    (fun _ t => Reusable s.fs s.img l.ip name ∨ CanAppend l.ip name → ino ≠ 0 → ino < 65536 →
      Entered s n l.ip (ino, name) t.1 t.2.ip)
    (fun _ t => ValidIno s.fs n → ¬ Fault s → Refused s n l.ip name t.1 t.2.ip) := by
  have hrun : dirAdd ino name (s, l) = bsd211DirAdd ino name (s, l) := by
    unfold dirAdd
    rw [bindUpFs_run]
    rw [hd.ops]
  have hshort := hname.short
  rw [hrun]
  show Post ((if name = [] ∨ s.fs.desc.maxNamlen < name.length then throw .enametoolong
    else if slash ∈ name then throw .einval else _ : MI Unit) (s, l)) _ _
  rw [if_neg (by rintro (hnil | hlong); exacts [hname.ne_nil hnil, by omega]), if_neg hname.slash]
  refine post_bind ((post_bsd211Slurp (reads_of_owned h.owned h.view (h.mappable (Nat.le_refl _)))).mono
    ?_ fun _ _ he _ hno => absurd he.1 hno)
  intro x q hres
  obtain ⟨k, buf⟩ := x
  obtain ⟨t, l'⟩ := q
  obtain ⟨hk, hbuf, ht, hl⟩ := hres
  obtain rfl : l' = l := hl
  obtain rfl : k = l'.ip.size := hk
  have hno : ¬ Fault s → ¬ Fault t := fun hno hf => hno (ht.fault hf)
  have ho : OpenFile t own n l'.ip := h.of_looked ht
  obtain ⟨j, -, rfl⟩ := id ht
  have hrecs : records s.fs.desc buf l'.ip.size 0 = bsdRecords s.fs s.img l'.ip := records_congr hbuf 0
  have hfind := bsd211Find_records (d := s.fs.desc) (f := buf) (n := l'.ip.size) fun r => r.ino == 0 &&
    decide (needOf name ≤ r.reclen)
  rw [hrecs] at hfind
  have hreusable : Reusable s.fs s.img l'.ip name ↔
      (bsdRecords s.fs s.img l'.ip).find? (fun r => r.ino == 0 && decide (needOf name ≤ r.reclen)) ≠ none := by
    unfold Reusable
    rw [Ne, List.find?_eq_none]
    simp
  show Post (bsd211Enter s.fs.desc ino name l'.ip.size buf ({ s with ios := j }, l')) _ _
  unfold bsd211Enter
  cases hr : bsd211Find s.fs.desc buf l'.ip.size (fun r => r.ino == 0 &&
    decide (needOf name ≤ r.reclen)) (l'.ip.size + 1) 0 with
  | some r =>
    rw [hr] at hfind
    have hmem := List.mem_of_find?_eq_some hfind.symm
    have htest := List.find?_some hfind.symm
    simp only [Bool.and_eq_true, beq_iff_eq, decide_eq_true_eq] at htest
    have hwrite := post_reuseWrite ho hd hf hbuf hmem htest.1 htest.2 hshort ino
    refine post_bind (hwrite.mono (fun _ u hu _ hino h16 => ?_) fun _ u hu hn hq => absurd (hu hn) (hno hq))
    obtain ⟨own', L, hL, hv, hins⟩ := hu hino h16
    exact ⟨own', L, hL, ⟨hv.shape, hv.size, hv.env⟩, hins⟩
  | none =>
    rw [hr] at hfind
    have hnew : ¬ Reusable s.fs s.img l'.ip name := fun hre => hreusable.mp hre hfind.symm
    have hlast : bsd211Last s.fs.desc buf l'.ip.size (l'.ip.size + 1) 0 none =
      (bsdRecords s.fs s.img l'.ip).getLast? := by
      rw [bsd211Last_eq, Option.or_none, ← hrecs]
      rfl
    have hgo : ∀ prevOff, (l'.ip.size % 512 ≠ 0 → ∃ A p, bsdRecords s.fs s.img l'.ip = A ++ [p] ∧
      p.off = prevOff) →
        Post (bsd211Append s.fs.desc ino name l'.ip.size prevOff ({ s with ios := j }, l'))
        (fun _ t => Reusable s.fs s.img l'.ip name ∨ CanAppend l'.ip name → ino ≠ 0 → ino < 65536 →
          Entered s n l'.ip (ino, name) t.1 t.2.ip)
        (fun _ t => ValidIno s.fs n → ¬ Fault s → Refused s n l'.ip name t.1 t.2.ip) := by
      intro prevOff hprev
      refine (post_bsdAppend ho hd hf hname ino hnew hprev).mono ?_ ?_
      · intro _ u hu hroom hino h16
        obtain ⟨own', L, hL, hv, hins⟩ := hu (hroom.resolve_left hnew) hino h16
        exact ⟨own', L, hL, ⟨hv.shape, hv.size, hv.env⟩, hins⟩
      · intro _ u hu hn hq
        obtain ⟨own', hopen, hv, hrest⟩ := hu hn (hno hq)
        exact ⟨own', hopen, ⟨hv.shape, hv.size, hv.env⟩, hrest⟩
    rw [hlast]
    rcases List.eq_nil_or_concat (bsdRecords s.fs s.img l'.ip) with hnil | ⟨A, p, hL⟩
    · have hzero : l'.ip.size = 0 := by
        have hle : Tiles s.fs.desc (byteOf s.fs s.img l'.ip) l'.ip.size 0 [] l'.ip.size := by
          rw [← hnil]
          exact hf
        generalize l'.ip.size = k at hle
        cases hle
        rfl
      rw [hnil]
      have := hgo 0 fun h0 => absurd (by rw [hzero]) h0
      rwa [hzero] at this
    · rw [List.concat_eq_append] at hL
      have hfL : Tiles s.fs.desc (byteOf s.fs s.img l'.ip) l'.ip.size 0 (A ++ [p]) l'.ip.size := by
        rw [← hL]
        exact hf
      rw [hL, List.getLast?_concat]
      have := hgo p.off fun _ => ⟨A, p, hL, rfl⟩
      rwa [← hfL.last.2.2] at this

/-- The first record of the name is marked free and the whole directory written back. -/
theorem post_bsdRemove (hf : Framed s.fs s.img l.ip) (name : Name) : Post (dirRemove name (s, l))
    (fun _ t => ∃ own' L e, Holds t.1 own' n t.2.ip L ∧ SameVol s t.1 ∧ e.2 = name ∧
      Removed (bsdListing s.fs s.img l.ip) L e)
    (fun _ t => ValidIno s.fs n → ¬ Fault s → lookup (bsdListing s.fs s.img l.ip) name = none ∧
      Looked s t.1 ∧ t.2 = l) := by
  have hrun : dirRemove name (s, l) = bsd211DirRemove name (s, l) := by
    unfold dirRemove
    rw [bindUpFs_run]
    rw [hd.ops]
  rw [hrun]
  unfold bsd211DirRemove
  rw [bindUpFs_run]
  refine post_bind ((post_bsd211Slurp (reads_of_owned h.owned h.view (h.mappable (Nat.le_refl _)))).mono
    ?_ fun _ _ he _ hno => absurd he.1 hno)
  intro p q hres
  obtain ⟨k, buf⟩ := p
  obtain ⟨t, l'⟩ := q
  obtain ⟨hk, hbuf, ht, hl⟩ := hres
  obtain rfl : l' = l := hl
  obtain rfl : k = l'.ip.size := hk
  have hfind : bsd211Find s.fs.desc buf l'.ip.size (bsd211Named buf name) (l'.ip.size + 1) 0 =
      (bsdRecords s.fs s.img l'.ip).find? (bsd211Named (byteOf s.fs s.img l'.ip) name) := by
    rw [bsd211Find_records, records_congr hbuf]
    refine List.find?_congr fun r hr => ?_
    have hl : Legal s.fs.desc (byteOf s.fs s.img l'.ip) l'.ip.size r := legal_of_mem _ hr
    have hin := hl.inside
    rw [bsd211Named_eq, bsd211Named_eq, hl.entry_congr fun i _ hi => hbuf i (by omega)]
  show Post (bsd211Erase s.fs.desc name l'.ip.size buf (t, l')) _ _
  unfold bsd211Erase
  rw [hfind]
  cases hr : (bsdRecords s.fs s.img l'.ip).find? (bsd211Named (byteOf s.fs s.img l'.ip) name) with
  | none =>
    refine fun _ _ => ⟨?_, ht, rfl⟩
    unfold bsdListing
    rw [lookup_live, hr]
    rfl
  | some r =>
    obtain ⟨hnamed, A, B, hL, hbefore⟩ := List.find?_eq_some_iff_append.mp hr
    rw [bsd211Named_eq, Bool.and_eq_true, bne_iff_ne, beq_iff_eq] at hnamed
    have hfL : Tiles s.fs.desc (byteOf s.fs s.img l'.ip) l'.ip.size 0 (A ++ r :: B) l'.ip.size := by
      rw [← hL]
      exact hf
    have hl := hfL.of_cons.2.1
    have hin := hl.inside
    have hleast := hl.least
    have ho : OpenFile t own n l'.ip := h.of_looked ht
    obtain ⟨j, -, rfl⟩ := id ht
    refine post_bind ((post_openWrite ho _ (ho.mappable (by omega))).mono ?_ ?_)
    · intro _ u hu
      obtain ⟨own', hput, hsize, -, -⟩ := hu
      rw [if_neg (by omega)] at hsize
      have hdesc : u.1.fs.desc = s.fs.desc := shape_desc hput.vol.shape
      have hnew : ∀ i, i < l'.ip.size → byteOf u.1.fs u.1.img u.2.ip i = s.fs.desc.bo.put16 buf r.off 0 i := by
        intro i hi
        rw [hput.bytes i (h.mappable (Nat.le_of_lt hi)), if_pos (by omega)]
        rfl
      have hzero : s.fs.desc.bo.get16 (byteOf u.1.fs u.1.img u.2.ip) r.off = 0 := by
        have hnum : s.fs.desc.bo.get16 (byteOf u.1.fs u.1.img u.2.ip) r.off =
          s.fs.desc.bo.get16 (s.fs.desc.bo.put16 buf r.off 0) r.off := by
          refine num_congr _ fun i hi => ?_
          rw [ByteOrder.length_sig16] at hi
          exact hnew _ (by omega)
        rw [hnum]
        exact num_putNum (ByteOrder.perm_sig16 _) _ _ _
      obtain ⟨L', hL', hold, hgone⟩ := hfL.free hnamed.1 hzero fun i hi ho => by
        rw [hnew i hi]
        exact (putNum_outside (by rw [ByteOrder.length_sig16]; omega)).trans (hbuf i hi)
      rw [← hsize, ← hdesc] at hL'
      refine ⟨own', _, entryOfRec (byteOf s.fs s.img l'.ip) r, holds_of_tiles hput.file hL',
        ⟨hput.vol.shape, hput.vol.size, hput.vol.env⟩, hnamed.2, live (byteOf s.fs s.img l'.ip) A,
        live (byteOf s.fs s.img l'.ip) B, ?_, hgone, ?_⟩
      · unfold bsdListing
        rw [hL]
        exact hold
      · intro x hx hname
        unfold live at hx
        obtain ⟨y, hy, rfl⟩ := List.mem_map.mp hx
        obtain ⟨hyA, hylive⟩ := List.mem_filter.mp hy
        have := hbefore y hyA
        rw [bsd211Named_eq, hylive, hname, hnamed.2] at this
        simp at this
    · intro _ u hu hn hno
      obtain ⟨⟨x, -, hx, hzero⟩, -⟩ := hu hn fun hf => hno (ht.fault hf)
      rw [Nat.zero_add] at hx
      exact absurd hzero (hf.solid hd h x hx)

end Ops

/-! ## Runs -/

section Run

variable {s : Mnt} {own : Own} {n : Nat} {l : Loc} {L : List Dirent} (h : Holds s own n l.ip L)
    (hd : BsdFormat s.fs.desc)

include h hd

/-- Both parsers of a framed directory see its entries. -/
theorem implements_bsd (hdist : Distinct L) : Implements id s l (binding L) := by
  have hread := reads_of_owned h.file.owned h.file.view (h.file.mappable (Nat.le_refl _))
  have hscan : live (byteOf s.fs s.img l.ip) (records s.fs.desc (byteOf s.fs s.img l.ip) l.ip.size 0) =
    L := h.listing
  have hlist : live (byteOf s.fs s.img l.ip) (listed s.fs.desc (byteOf s.fs s.img l.ip) l.ip.size 0) = L := by
    rw [listed_of_tiles h.framed]
    exact h.listing
  constructor
  · intro name _
    have hlook := post_bsdLookup hread hd.ops name
    rw [hscan] at hlook
    refine hlook.mono (fun r t hr => ⟨?_, hr.2⟩) fun e t he => ⟨?_, he.2⟩
    · obtain ⟨⟨e, he, rfl⟩, -⟩ := hr
      exact congrArg (Option.map Prod.fst) he
    · rcases he.1 with ⟨rfl, hnone⟩ | hfault
      · exact .inl ⟨rfl, congrArg (Option.map Prod.fst) hnone⟩
      · exact .inr hfault
  · have hrun := post_bsdEntries hread hd.ops
    rw [hlist] at hrun
    refine hrun.mono (fun r t hr => ⟨?_, hr.2⟩) fun _ _ he => he
    rw [hr.1]
    exact ⟨hdist, fun name ino => mem_iff_binding hdist⟩

end Run

/-- `lost+found`. -/
def lostFoundName : Name := [108, 111, 115, 116, 43, 102, 111, 117, 110, 100]

/-- The root directory `seed_bsd211` writes: `.`, `..` and `lost+found` in one chunk. -/
def seedRoot : Buf :=
  let rd := bsd211Entry descBsd211 zeroBuf 0 2 (bsd211Dirsiz 1) dot
  let off := bsd211Dirsiz 1
  let rd := bsd211Entry descBsd211 rd off 2 (bsd211Dirsiz 2) dotdot
  let off := off + bsd211Dirsiz 2
  bsd211Entry descBsd211 rd off 3 (512 - off) lostFoundName

/-- The names it enters. -/
def seedNames : List Dirent := [(2, dot), (2, dotdot), (3, lostFoundName)]

theorem seedRoot_tiles :
    Tiles descBsd211 seedRoot 512 0 [⟨0, 2, 8, 1⟩, ⟨8, 2, 12, 2⟩, ⟨20, 3, 492, 10⟩] 512 := by
  have h0 : bsd211Next descBsd211 seedRoot 512 0 = some ⟨0, 2, 8, 1⟩ := by decide +kernel
  have h1 : bsd211Next descBsd211 seedRoot 512 8 = some ⟨8, 2, 12, 2⟩ := by decide +kernel
  have h2 : bsd211Next descBsd211 seedRoot 512 20 = some ⟨20, 3, 492, 10⟩ := by decide +kernel
  exact .cons h0 (.cons h1 (.cons h2 (.nil 512)))

theorem live_seedRoot : live seedRoot [⟨0, 2, 8, 1⟩, ⟨8, 2, 12, 2⟩, ⟨20, 3, 492, 10⟩] = seedNames := by
  decide +kernel

/-- The directory of inode `n`, in hand as `l`, from a fresh one by successful insertions and removals;
    `m` is the map they define. Every insertion is of a name, into a directory, that `ok` admits.
    Between the calls the rest of the volume may change. -/
inductive Built (ok : Mnt → Loc → Name → Prop) (n : Nat) : Mnt → Loc → (Name → Option Nat) → Prop
  | mkdir {s : Mnt} {own : Own} {l : Loc} : OpenFile s own n l.ip → s.fs.desc = descBsd211 →
  l.ip.size = 0 → Built ok n s l fun _ => none
  | root {s : Mnt} {own : Own} {l : Loc} : OpenFile s own n l.ip → s.fs.desc = descBsd211 → l.ip.size = 512 →
      (∀ i, i < 512 → byteOf s.fs s.img l.ip i = seedRoot i) → Built ok n s l (binding seedNames)
  | add {s t : Mnt} {l l' : Loc} {m : Name → Option Nat} {name : Name} {ino : Nat} :
    Built ok n s l m → NameOk s.fs.desc name → 1 ≤ ino →
      ino ≤ 65535 → m name = none → ok s l name → dirAdd ino name (s, l) = .ok () (t, l') →
      Built ok n t l' (rebind m name (some ino))
  | remove {s t : Mnt} {l l' : Loc} {m : Name → Option Nat} {name : Name} :
    Built ok n s l m → dirRemove name (s, l) = .ok () (t, l') →
      Built ok n t l' (rebind m name none)
  | elsewhere {s t : Mnt} {own : Own} {l l' : Loc} {m : Name → Option Nat} :
    Built ok n s l m → OpenFile t own n l'.ip → t.fs.desc = s.fs.desc →
      l'.ip.size = l.ip.size →
      (∀ o, o < l.ip.size → byteOf t.fs t.img l'.ip o = byteOf s.fs s.img l.ip o) → Built ok n t l' m

/-- The entry goes into a free record, or the directory stays within the size an inode can record. -/
def Room (s : Mnt) (l : Loc) (name : Name) : Prop := Reusable s.fs s.img l.ip name ∨ CanAppend l.ip name

/-- What holds of every directory reached. -/
structure Kept (n : Nat) (s : Mnt) (l : Loc) (m : Name → Option Nat) : Prop where
  desc : s.fs.desc = descBsd211
  holds : ∃ own L, Holds s own n l.ip L ∧ Distinct L ∧ m = binding L

theorem bsdFormat_descBsd211 : BsdFormat descBsd211 := ⟨rfl, rfl, rfl⟩

theorem holds_empty {s : Mnt} {own : Own} {n : Nat} {ip : Inode} (h : OpenFile s own n ip)
    (h0 : ip.size = 0) : Holds s own n ip [] := by
  have hL : Tiles s.fs.desc (byteOf s.fs s.img ip) ip.size 0 [] ip.size := by
    rw [h0]
    exact .nil 0
  exact holds_of_tiles h hL

/-- The same bytes hold the same entries. -/
theorem Holds.congr {s t : Mnt} {own own' : Own} {n : Nat} {ip ip' : Inode} {L : List Dirent}
    (h : Holds s own n ip L) (ho : OpenFile t own' n ip')
    (hd : t.fs.desc = s.fs.desc) (hsize : ip'.size = ip.size) (hbytes : ∀ o, o < ip.size →
      byteOf t.fs t.img ip' o = byteOf s.fs s.img ip o) :
    Holds t own' n ip' L := by
  have hsame : ∀ i, 0 ≤ i → i < ip.size → byteOf t.fs t.img ip' i = byteOf s.fs s.img ip i :=
    fun i _ hi => hbytes i hi
  have hL := h.framed.congr hsame (Nat.le_refl _)
  rw [← hd, ← hsize] at hL
  have hlive : live (byteOf t.fs t.img ip') (bsdRecords s.fs s.img ip) = L :=
    (h.framed.live_congr hsame).trans h.listing
  rw [← hlive]
  exact holds_of_tiles ho hL

theorem built_kept {n : Nat} {s : Mnt} {l : Loc} {m : Name → Option Nat} (h : Built Room n s l m) :
    Kept n s l m := by
  induction h with
  | mkdir ho hd h0 => exact ⟨hd, _, [], holds_empty ho h0, List.nodup_nil, rfl⟩
  | @root s own l ho hd hsize hbytes =>
    have hsame : ∀ i, 0 ≤ i → i < 512 → byteOf s.fs s.img l.ip i = seedRoot i := fun i _ hi => hbytes i hi
    have hL := seedRoot_tiles.congr hsame (Nat.le_refl _)
    rw [← hd, ← hsize] at hL
    have hholds := holds_of_tiles ho hL
    rw [seedRoot_tiles.live_congr hsame, live_seedRoot] at hholds
    exact ⟨hd, own, seedNames, hholds, by unfold Distinct; decide, rfl⟩
  | @add s t l l' m name ino _ hname h1 h16 hfresh hroom hrun ih =>
    obtain ⟨hd, own, L, hL, hdist, rfl⟩ := ih
    have hformat : BsdFormat s.fs.desc := by rw [hd]; exact bsdFormat_descBsd211
    obtain ⟨own', L', hL', hv, hins⟩ :=
      (post_bsdAdd hL.file hformat hL.framed hname ino).of_ok hrun hroom (by omega) (by omega)
    rw [hL.listing] at hins
    have hnew := binding_eq_none.mp hfresh
    exact ⟨(shape_desc hv.shape).trans hd, own', L', hL', hins.distinct hdist hnew, (hins.binding hnew).symm⟩
  | @remove s t l l' m name _ hrun ih =>
    obtain ⟨hd, own, L, hL, hdist, rfl⟩ := ih
    have hformat : BsdFormat s.fs.desc := by rw [hd]; exact bsdFormat_descBsd211
    obtain ⟨own', L', e, hL', hv, rfl, hrem⟩ := (post_bsdRemove hL.file hformat hL.framed name).of_ok hrun
    rw [hL.listing] at hrem
    exact ⟨(shape_desc hv.shape).trans hd, own', L', hL', hrem.distinct hdist, (hrem.binding hdist).symm⟩
  | elsewhere _ ho hdesc hsize hbytes ih =>
    obtain ⟨hd, own, L, hL, hdist, rfl⟩ := ih
    exact ⟨hdesc.trans hd, _, L, hL.congr ho hdesc hsize hbytes, hdist, rfl⟩

/-- In every run whose insertions have room, the records tile the directory and both parsers see the map
    the run defines. -/
theorem built_is_a_map {n : Nat} {s : Mnt} {l : Loc} {m : Name → Option Nat} (h : Built Room n s l m) :
    Tiles s.fs.desc (byteOf s.fs s.img l.ip) l.ip.size 0 (bsdRecords s.fs s.img l.ip) l.ip.size ∧
    Implements id s l m := by
  obtain ⟨hd, own, L, hL, hdist, rfl⟩ := built_kept h
  exact ⟨hL.framed, implements_bsd hL (by rw [hd]; exact bsdFormat_descBsd211) hdist⟩

theorem seedRoot_checks : RootChecks seedRoot 512 := by
  unfold RootChecks
  decide +kernel

/-- A root directory as `seed_bsd211` leaves it: `a` comes in behind the full chunk and `lost+found` goes. -/
theorem a_seeded_root_is_a_map :
    ∃ s l, Built Room 2 s l (rebind (rebind (binding seedNames) [97] (some 4)) lostFoundName none) ∧
    Tiles s.fs.desc (byteOf s.fs s.img l.ip) l.ip.size 0 (bsdRecords s.fs s.img l.ip) l.ip.size ∧
    Implements id s l (rebind (rebind (binding seedNames) [97] (some 4)) lostFoundName none) := by
  have hopen := openFile_bsd seedRoot_checks
  have hfacts : (bsdVolume seedRoot 512).fs.desc = descBsd211 ∧ (bsdRoot seedRoot 512).ip.size = 512 ∧
      (∀ i < 512, byteOf (bsdVolume seedRoot 512).fs (bsdVolume seedRoot 512).img (bsdRoot seedRoot
        512).ip i = seedRoot i) ∧
      errorOf (dirAdd 4 [97]) (bsdVolume seedRoot 512, bsdRoot seedRoot 512) = none ∧
      errorOf (dirRemove lostFoundName) (final (dirAdd 4 [97]) (bsdVolume seedRoot 512,
        bsdRoot seedRoot 512)) = none := by
    decide +kernel
  generalize bsdVolume seedRoot 512 = s at *
  generalize bsdRoot seedRoot 512 = l at *
  obtain ⟨hd, hsize, hbytes, hadd, hremove⟩ := hfacts
  have hroot : Built Room 2 s l (binding seedNames) := .root hopen hd hsize hbytes
  have hname : NameOk s.fs.desc [97] := by
    rw [hd]
    exact ⟨by decide, by decide, by decide, by decide⟩
  have hroom : Room s l [97] := by
    refine .inr ?_
    unfold CanAppend
    rw [hsize]
    decide
  have hadded := Built.add hroot hname (by decide) (by decide) (by decide) hroom (eq_done hadd)
  have hbuilt := Built.remove hadded (eq_done hremove)
  exact ⟨_, _, hbuilt, built_is_a_map hbuilt⟩

end Filsys.Names
