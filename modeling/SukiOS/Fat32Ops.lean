import SukiOS.Fat32Volume

/-! What creating, writing, closing and deleting a file do to a well-formed volume: to the table, to
the one directory entry they change, and to the clusters of the other files. -/
namespace SukiOS.Fat32
open ByteMemory LinkedChain

/-! ### Short names -/

section Short
variable {s : List Byte} {c : Byte}

theorem upper_upper (c : Byte) : upper (upper c) = upper c := by
  unfold upper
  by_cases h : 97 ≤ c.toNat ∧ c.toNat ≤ 122
  · rw [if_pos h]
    have hsub : (c - 32#8).toNat = c.toNat - 32 := by bv_omega
    rw [if_neg (by omega)]
  · rw [if_neg h, if_neg h]

theorem upper_space : upper space = space := by decide

/-- Only the letters change. -/
theorem upper_eq_of_not_letter {b : Byte} (hb : ¬ (65 ≤ b.toNat ∧ b.toNat ≤ 90)) :
    upper c = b ↔ c = b ∧ ¬ (97 ≤ b.toNat ∧ b.toNat ≤ 122) := by
  unfold upper
  by_cases h : 97 ≤ c.toNat ∧ c.toNat ≤ 122
  · rw [if_pos h]
    have hsub : (c - 32#8).toNat = c.toNat - 32 := by bv_omega
    refine ⟨fun he => absurd ⟨?_, ?_⟩ hb, fun he => absurd (he.1 ▸ h) he.2⟩
    · rw [← he, hsub]
      omega
    · rw [← he, hsub]
      omega
  · rw [if_neg h]
    exact ⟨fun he => ⟨he, he ▸ h⟩, fun he => he.1⟩

theorem shortBase_length (n : ℕ) : ∀ s : List Byte, (shortBase n s).1.length ≤ n := by
  induction n with
  | zero => exact fun s => le_rfl
  | succ n ih =>
    intro s
    cases s with
    | nil => exact Nat.zero_le _
    | cons c s =>
      unfold shortBase
      by_cases h : c = dot
      · rw [if_pos h]
        exact Nat.zero_le _
      · rw [if_neg h]
        exact Nat.succ_le_succ (ih s)

theorem padTo_length {n : ℕ} (h : s.length ≤ n) : (padTo n s).length = n := by
  unfold padTo
  rw [List.length_append, List.length_replicate]
  omega

theorem toShort_length (s : List Byte) : (toShort s).length = 11 := by
  unfold toShort
  dsimp only
  rw [List.length_append, padTo_length (shortBase_length 8 s), padTo_length]
  rw [List.length_map, List.length_take]
  omega

theorem shortBase_upper (n : ℕ) : ∀ s : List Byte,
    (shortBase n s).1.map upper = (shortBase n s).1 := by
  induction n with
  | zero => exact fun s => rfl
  | succ n ih =>
    intro s
    cases s with
    | nil => rfl
    | cons c s =>
      unfold shortBase
      by_cases h : c = dot
      · rw [if_pos h]
        rfl
      · rw [if_neg h, List.map_cons, upper_upper, ih s]

theorem padTo_upper {n : ℕ} (h : s.map upper = s) : (padTo n s).map upper = padTo n s := by
  unfold padTo
  rw [List.map_append, h, List.map_replicate, upper_space]

/-- A short name has no lower case letters. -/
theorem toShort_upper (s : List Byte) : (toShort s).map upper = toShort s := by
  unfold toShort
  dsimp only
  rw [List.map_append, padTo_upper (shortBase_upper 8 s), padTo_upper]
  rw [List.map_map]
  apply List.map_congr_left
  intro c _
  exact upper_upper c

theorem toShort_pos (s : List Byte) : 0 < (toShort s).length := by
  rw [toShort_length]
  decide

/-- The first byte of a short name. -/
def shortHead (s : List Byte) : Byte := (toShort s).get ⟨0, toShort_pos s⟩

/-- The first byte of a short name is a space or the first character of the name. -/
theorem shortHead_cases (s : List Byte) :
    shortHead s = space ∨ ∃ c ∈ s, shortHead s = upper c := by
  have hpos := toShort_pos s
  show (toShort s)[0] = space ∨ ∃ c ∈ s, (toShort s)[0] = upper c
  cases s with
  | nil => exact Or.inl rfl
  | cons c s =>
    by_cases hc : c = dot
    · refine Or.inl ?_
      have hbase : shortBase 8 (c::s) = ([], c::s) := if_pos hc
      simp only [toShort, hbase]
      rfl
    · refine Or.inr ⟨c, List.mem_cons_self, ?_⟩
      have hbase : shortBase 8 (c::s) = (upper c :: (shortBase 7 s).1, (shortBase 7 s).2) :=
        if_neg hc
      simp only [toShort, hbase]
      rfl

/-- The short name of a string is not an end mark. -/
theorem shortHead_ne_zero (hs : ∀ c ∈ s, c ≠ 0#8) : shortHead s ≠ 0#8 := by
  rcases shortHead_cases s with he | ⟨c, hc, he⟩
  · rw [he]
    decide
  · rw [he]
    exact fun h0 => hs c hc ((upper_eq_of_not_letter (by decide)).mp h0).1

end Short

/-! ### Entries that stay -/

/-- The two volumes agree on which entries are in use, and on their first clusters. -/
def SameEntries (fs : Fs) (root : List ℕ) (v v' : Vol) : Prop :=
  ∀ c ∈ root, ∀ i, i < fs.entryCount →
    readCluster fs v' c (32*i) = readCluster fs v c (32*i) ∧
    entAttr (readCluster fs v' c) i = entAttr (readCluster fs v c) i ∧
    entCluster (readCluster fs v' c) i = entCluster (readCluster fs v c) i ∧
    entName (readCluster fs v' c) i = entName (readCluster fs v c) i

/-- All entries but `s` have the same bytes. -/
def OtherEntries (fs : Fs) (root : List ℕ) (v v' : Vol) (s : Slot) : Prop :=
  ∀ c ∈ root, ∀ i, i < fs.entryCount → (c, i) ≠ s → ∀ b, b < 32 →
    readCluster fs v' c (32*i + b) = readCluster fs v c (32*i + b)

section Entries
variable {fs : Fs} {v v' v'' : Vol} {root : List ℕ} {own : Set ℕ} {e s : Slot} {c : ℕ}

theorem SameEntries.of_read (h : ∀ c ∈ root, readCluster fs v' c = readCluster fs v c) :
    SameEntries fs root v v' := by
  intro c hc i _
  rw [h c hc]
  exact ⟨rfl, rfl, rfl, rfl⟩

theorem SameEntries.used (h : SameEntries fs root v v') : Used fs v' root e ↔ Used fs v root e := by
  refine and_congr_right (fun hc => and_congr_right (fun hi => ?_))
  obtain ⟨h1, h2, -⟩ := h e.1 hc e.2 hi
  unfold InUse
  rw [h1, h2]

theorem SameEntries.startOf (h : SameEntries fs root v v') (hc : e.1 ∈ root)
    (hi : e.2 < fs.entryCount) : startOf fs v' e = startOf fs v e := (h e.1 hc e.2 hi).2.2.1

theorem SameEntries.endMark (h : SameEntries fs root v v') (hc : c ∈ root)
    (he : EndMark fs (readCluster fs v c)) : EndMark fs (readCluster fs v' c) := by
  intro i j hij hj h0
  rw [(h c hc i (by omega)).1] at h0
  rw [(h c hc j hj).1]
  exact he i j hij hj h0

/-- A volume stays well-formed when its directory stays. -/
theorem Wf.same (h : Wf fs root own v) (hdir : SameEntries fs root v v')
    (hown : Owned fs root own v') : Wf fs root own v' where
  toOwned := hown
  endMark := fun c hc => hdir.endMark hc (h.endMark c hc)
  starts := by
    intro e he
    have hu := hdir.used.mp he
    rw [hdir.startOf hu.1 hu.2.1]
    exact h.starts e hu
  inj := by
    intro e e' he he' heq h0
    have hu := hdir.used.mp he
    have hu' := hdir.used.mp he'
    rw [hdir.startOf hu.1 hu.2.1] at heq h0
    rw [hdir.startOf hu'.1 hu'.2.1] at heq
    exact h.inj e e' hu hu' heq h0

theorem OtherEntries.entry (h : OtherEntries fs root v v' s) (hc : e.1 ∈ root)
    (hi : e.2 < fs.entryCount) (hne : e ≠ s) :
    entName (readCluster fs v' e.1) e.2 = entName (readCluster fs v e.1) e.2 ∧
    entAttr (readCluster fs v' e.1) e.2 = entAttr (readCluster fs v e.1) e.2 ∧
    entCluster (readCluster fs v' e.1) e.2 = entCluster (readCluster fs v e.1) e.2 ∧
    entSize (readCluster fs v' e.1) e.2 = entSize (readCluster fs v e.1) e.2 :=
  entry_congr (h e.1 hc e.2 hi hne)

theorem OtherEntries.first (h : OtherEntries fs root v v' s) (hc : e.1 ∈ root)
    (hi : e.2 < fs.entryCount) (hne : e ≠ s) :
    readCluster fs v' e.1 (32*e.2) = readCluster fs v e.1 (32*e.2) :=
      h e.1 hc e.2 hi hne 0 (by decide)

theorem OtherEntries.used (h : OtherEntries fs root v v' s) (hne : e ≠ s) :
    Used fs v' root e ↔ Used fs v root e := by
  refine and_congr_right (fun hc => and_congr_right (fun hi => ?_))
  unfold InUse
  rw [h.first hc hi hne, (h.entry hc hi hne).2.1]

theorem OtherEntries.startOf (h : OtherEntries fs root v v' s) (hu : Used fs v root e)
    (hne : e ≠ s) : startOf fs v' e = startOf fs v e := (h.entry hu.1 hu.2.1 hne).2.2.1

end Entries

/-! ### Writing one cluster of the directory -/

/-- The last steps of an operation that changes the directory: the cluster `c` is written, and the
table is flushed. -/
def DirPut (fs : Fs) (v v' : Vol) (c : ℕ) (buf : Mem) : Prop :=
  ∃ w : Vol, w.disk = (writeCluster fs v c buf).disk ∧ v' = fat32Flush fs w

section Put
variable {fs : Fs} {v v' : Vol} {root : List ℕ} {c i n x o size : ℕ} {buf : Mem} {now : Stamp}
  {t : List Byte}

theorem readCluster_disk (h : v'.disk = v.disk) : readCluster fs v' x = readCluster fs v x := by
  unfold readCluster
  rw [h]

theorem DirPut.here (hf : fs.Ok) (h : DirPut fs v v' c buf) (hc : fs.IsData c)
    (ho : o < fs.clusterSize) : readCluster fs v' c o = buf o := by
  obtain ⟨w, hw, rfl⟩ := h
  rw [readCluster_flush hf hc, readCluster_disk hw, readCluster_writeCluster hf hc ho]

theorem DirPut.away (hf : fs.Ok) (h : DirPut fs v v' c buf) (hc : fs.IsData c) (hx : fs.IsData x)
    (hne : x ≠ c) : readCluster fs v' x = readCluster fs v x := by
  obtain ⟨w, hw, rfl⟩ := h
  rw [readCluster_flush hf hx, readCluster_disk hw, readCluster_writeCluster_other hf hc hx hne]

theorem entry_in_cluster {b : ℕ} (hi : i < fs.entryCount) (hb : b < 32) :
    32*i + b < fs.clusterSize := by
  rw [fs.entryCount_eq] at hi
  unfold Fs.clusterSize
  omega

/-- Only the entry `i` of the cluster changes. -/
theorem DirPut.others (hf : fs.Ok) (h : DirPut fs v v' c buf) (hc : fs.IsData c)
    (hroot : ∀ x ∈ root, fs.IsData x)
    (hbuf : ∀ o, o < 32*i ∨ 32*i + 32 ≤ o → buf o = readCluster fs v c o) :
    OtherEntries fs root v v' (c, i) := by
  intro x hx j hj hne b hb
  by_cases hxc : x = c
  · subst hxc
    have hji : j ≠ i := fun he => hne (by rw [he])
    rw [h.here hf hc (entry_in_cluster hj hb)]
    exact hbuf _ (by omega)
  · rw [h.away hf hc (hroot x hx) hxc]

theorem DirPut.entry (hf : fs.Ok) (h : DirPut fs v v' c buf) (hc : fs.IsData c)
    (hi : i < fs.entryCount) :
    entName (readCluster fs v' c) i = entName buf i ∧
    entAttr (readCluster fs v' c) i = entAttr buf i ∧
    entCluster (readCluster fs v' c) i = entCluster buf i ∧
    entSize (readCluster fs v' c) i = entSize buf i :=
  entry_congr (fun _ hb => h.here hf hc (entry_in_cluster hi hb))

theorem DirPut.first (hf : fs.Ok) (h : DirPut fs v v' c buf) (hc : fs.IsData c)
    (hi : i < fs.entryCount) : readCluster fs v' c (32*i) = buf (32*i) :=
  h.here hf hc (entry_in_cluster (b := 0) hi (by decide))

/-- A size update leaves all entries in use where they are. -/
theorem DirPut.sameEntries (hf : fs.Ok)
    (h : DirPut fs v v' c (putSize (readCluster fs v c) i size now)) (hc : fs.IsData c)
    (hroot : ∀ x ∈ root, fs.IsData x) : SameEntries fs root v v' := by
  intro x hx j hj
  by_cases hxc : x = c
  · subst hxc
    obtain ⟨h1, h2, h3, -⟩ := h.entry hf hc hj
    rw [h.first hf hc hj, h1, h2, h3]
    exact ⟨first_putSize, entAttr_putSize, entCluster_putSize, entName_putSize⟩
  · rw [h.away hf hc (hroot x hx) hxc]
    exact ⟨rfl, rfl, rfl, rfl⟩

end Put

/-! ### The operations -/

section Operations
variable {fs : Fs} {v v' : Vol} {root : List ℕ} {own : Set ℕ} {c n : ℕ} {e s : Slot}
  {name : List Byte} {L N : List ℕ}

theorem Wf.dataRoot (h : Wf fs root own v) : ∀ x ∈ root, fs.IsData x := fun _ hx => h.root_isData hx

/-- A cluster of a file in use is not free. -/
theorem Wf.start_used (hf : fs.Ok) (h : Wf fs root own v) (hc : c ∈ own) (h0 : c ≠ 0) :
    v.fatGet c &&& 0x0FFFFFFF ≠ 0 := by
  obtain ⟨L, hL⟩ := h.chains c hc
  exact hL.used hf (hL.start_mem h0)

/-- `fat32_close` changes the size and the time of the first entry with the first cluster of the
handle. -/
theorem close_cases (hf : fs.Ok) (h : Wf fs root own v) (file : File) (now : Stamp) :
    (fat32Close fs v file now = some (fat32Flush fs v) ∧
      ∀ e, Used fs v root e → startOf fs v e ≠ file.startCluster) ∨
    (∃ e v', fat32Close fs v file now = some v' ∧ v'.fat = v.fat ∧
      Used fs v root e ∧ startOf fs v e = file.startCluster ∧
      (∀ e', Used fs v root e' → Before root e' e → startOf fs v e' ≠ file.startCluster) ∧
      DirPut fs v v' e.1 (putSize (readCluster fs v e.1) e.2 file.size now)) := by
  unfold fat32Close fat32UpdateDirEntry
  rcases h.findEntry_cases hf (fun buf i => entCluster buf i == file.startCluster) with
    ⟨hn, hall⟩ | ⟨e, hs, hu, hp, hb⟩
  · rw [hn]
    exact Or.inl ⟨rfl, fun e he => by simpa [startOf] using hall e he⟩
  · rw [hs]
    refine Or.inr ⟨e, _, rfl, fat32Flush_fat _, hu, by simpa [startOf] using hp, ?_, _, rfl, rfl⟩
    exact fun e' hu' hlt => by simpa [startOf] using hb e' hu' hlt

theorem fat32Flush_get (v : Vol) (y : ℕ) : (fat32Flush fs v).fatGet y = v.fatGet y :=
  fatGet_congr (fat32Flush_fat v) y

/-- Closing leaves the entries in use and the table as they are. -/
theorem close_same (hf : fs.Ok) (h : Wf fs root own v) (file : File) (now : Stamp) :
    ∃ v', fat32Close fs v file now = some v' ∧ v'.fat = v.fat ∧ SameEntries fs root v v' ∧
      ∀ x, fs.IsData x → x ∉ root → readCluster fs v' x = readCluster fs v x := by
  rcases close_cases hf h file now with ⟨hc, -⟩ | ⟨e, v', hc, hfat, hu, -, -, hput⟩
  · refine ⟨_, hc, fat32Flush_fat v, ?_, fun x hx _ => readCluster_flush hf hx⟩
    exact SameEntries.of_read (fun x hx => readCluster_flush hf (h.root_isData hx))
  · have hd := h.root_isData hu.1
    refine ⟨v', hc, hfat, hput.sameEntries hf hd h.dataRoot, fun x hx hr => ?_⟩
    exact hput.away hf hd hx (fun he => hr (he ▸ hu.1))

theorem Wf.close (hf : fs.Ok) (h : Wf fs root own v) {file : File} {now : Stamp}
    (hc : fat32Close fs v file now = some v') : Wf fs root own v' := by
  obtain ⟨w, hw, hfat, hdir, -⟩ := close_same hf h file now
  obtain rfl : w = v' := Option.some.inj (hw.symm.trans hc)
  exact h.same hdir (h.toOwned.congr (fatGet_congr hfat))

/-- Closing writes the size of the handle into the entry of the file. -/
theorem close_size (hf : fs.Ok) (h : Wf fs root own v) (file : File) {now : Stamp}
    (hu : Used fs v root e) (hstart : startOf fs v e = file.startCluster)
    (h0 : file.startCluster ≠ 0) (hsize : file.size < 2^32)
    (hc : fat32Close fs v file now = some v') : entSize (readCluster fs v' e.1) e.2 =
      file.size := by
  rcases close_cases hf h file now with ⟨-, hall⟩ | ⟨d, w, hw, -, hud, hds, -, hput⟩
  · exact absurd hstart (hall e hu)
  · obtain rfl : w = v' := Option.some.inj (hw.symm.trans hc)
    obtain rfl : d = e := h.inj d e hud hu (hds.trans hstart.symm) (by rw [hds]; exact h0)
    rw [(hput.entry hf (h.root_isData hu.1) hu.2.1).2.2.2]
    exact entSize_putSize hsize

/-- The handle that `fat32_open` makes for an entry. -/
def fileAt (fs : Fs) (v : Vol) (e : Slot) : File where
  startCluster := startOf fs v e
  currentCluster := startOf fs v e
  size := entSize (readCluster fs v e.1) e.2
  offset := 0

theorem fat32Open_eq (h : findEntry fs v (nameMatches (toShort name)) = some (some e)) :
    fat32Open fs v name = some (some (fileAt fs v e)) := by
  unfold fat32Open
  rw [h]
  rfl

theorem fat32Open_none_iff :
    fat32Open fs v name = some none ↔ findEntry fs v (nameMatches (toShort name)) = some none := by
  unfold fat32Open
  cases findEntry fs v (nameMatches (toShort name)) with
  | none => exact ⟨(fun h => nomatch h), (fun h => nomatch h)⟩
  | some r =>
    cases r with
    | none => exact ⟨fun _ => rfl, fun _ => rfl⟩
    | some e =>
      refine ⟨fun h => ?_, (fun h => nomatch h)⟩
      exact nomatch Option.some.inj h

theorem open_cases (hf : fs.Ok) (h : Wf fs root own v) (name : List Byte) :
    fat32Open fs v name = some none ∨
    ∃ e, findEntry fs v (nameMatches (toShort name)) = some (some e) ∧ Used fs v root e ∧
      fat32Open fs v name = some (some (fileAt fs v e)) := by
  rcases h.findEntry_cases hf (nameMatches (toShort name)) with ⟨hn, -⟩ | ⟨e, hs, hu, -, -⟩
  · exact Or.inl (fat32Open_none_iff.mpr hn)
  · exact Or.inr ⟨e, hs, hu, fat32Open_eq hs⟩

/-- The slot of the directory is free. -/
def SlotFree (fs : Fs) (v : Vol) (s : Slot) : Prop :=
  readCluster fs v s.1 (32*s.2) = 0#8 ∨ readCluster fs v s.1 (32*s.2) = 0xE5#8

/-- `fat32_create_file` has put a new entry, with the cluster `n`, into the first free slot. -/
structure Created (fs : Fs) (root : List ℕ) (name : List Byte) (now : Stamp) (v v' : Vol) (n : ℕ)
    (s : Slot) : Prop where
  mem : s.1 ∈ root
  index : s.2 < fs.entryCount
  slotFree : SlotFree fs v s
  before : ∀ e : Slot, e.1 ∈ root → e.2 < fs.entryCount → Before root e s → ¬ SlotFree fs v e
  data : fs.IsData n
  free : v.fatGet n &&& 0x0FFFFFFF = 0
  fat : ∀ y, v'.fatGet y = if y = n then fatEof else v.fatGet y
  put : DirPut fs v v' s.1 (putNew (readCluster fs v s.1) s.2 (toShort name) n now)

theorem create_cases (hf : fs.Ok) (h : Wf fs root own v) (name : List Byte) (now : Stamp) :
    fat32CreateFile fs v name now = some none ∨
    (∃ s n v', fat32CreateFile fs v name now = some (some (v', ⟨n, n, 0, 0⟩)) ∧
      Created fs root name now v v' n s) := by
  unfold fat32CreateFile
  rcases freeSlot_cases hf h.rootChain with hn | ⟨c, i, A, B, hs, hr, hi, hfree, hA, hlt⟩
  · rw [hn]
    exact Or.inl rfl
  · rw [hs]
    rcases findFreeCluster_spec hf v with ⟨h0, -⟩ | ⟨hd, hzero⟩
    · refine Or.inl ?_
      show (if findFreeCluster fs v = 0 then some none else _) = _
      rw [if_pos h0]
    · have hne : ¬ findFreeCluster fs v = 0 := by
        have := hd.1
        omega
      refine Or.inr ⟨(c, i), findFreeCluster fs v, _, if_neg hne, ?_⟩
      refine { mem := ?_, index := hi, slotFree := hfree, before := ?_, data := hd, free := hzero
               fat := ?_, put := ?_ }
      · rw [hr]
        simp
      · -- an entry before the slot is in an earlier cluster, or earlier in the same one
        intro e _ hj hb
        have hnd := h.rootChain.nodup hf
        rw [hr] at hnd hb
        rcases (before_iff hnd).mp hb with hx | ⟨hx, hji⟩
        · exact not_or.mpr (hA e.1 hx e.2 hj)
        · have hfirst := hlt e.2 hji
          rw [← hx] at hfirst
          exact not_or.mpr hfirst
      · intro y
        rw [fat32Flush_get]
        exact fatGet_fatSet (by decide)
      · exact ⟨writeCluster fs (v.fatSet (findFreeCluster fs v) fatEof) c _, rfl, rfl⟩

/-- `fat32_delete` has freed the first entry with the name, and its chain `L`. -/
structure Deleted (fs : Fs) (root : List ℕ) (name : List Byte) (v v' : Vol) (L : List ℕ)
    (s : Slot) : Prop where
  found : findEntry fs v (nameMatches (toShort name)) = some (some s)
  used : Used fs v root s
  chain : FileChain fs v (startOf fs v s) L
  fat : ∀ y, v'.fatGet y = if y ∈ L then 0 else v.fatGet y
  put : DirPut fs v v' s.1 (Function.update (readCluster fs v s.1) (32*s.2) 0xE5#8)

theorem delete_cases (hf : fs.Ok) (h : Wf fs root own v) (name : List Byte) :
    (fat32Delete fs v name = some none ∧
      findEntry fs v (nameMatches (toShort name)) = some none) ∨
    (∃ s L v', fat32Delete fs v name = some (some v') ∧ Deleted fs root name v v' L s) := by
  unfold fat32Delete
  rcases h.findEntry_cases hf (nameMatches (toShort name)) with ⟨hn, -⟩ | ⟨s, hs, hu, -, -⟩
  · rw [hn]
    exact Or.inl ⟨rfl, rfl⟩
  · obtain ⟨L, hL⟩ := h.chains _ (h.starts s hu)
    -- freeing the chain of the entry, on the volume with the directory written back
    have hfree (w : Vol) (hw : w.fat = v.fat) :
        (if entCluster (readCluster fs v s.1) s.2 ≠ 0
          then fat32FreeClusterChain w (entCluster (readCluster fs v s.1) s.2) else w).disk =
            w.disk ∧
        ∀ y, (if entCluster (readCluster fs v s.1) s.2 ≠ 0
          then fat32FreeClusterChain w (entCluster (readCluster fs v s.1) s.2) else w).fatGet y =
          if y ∈ L then 0 else v.fatGet y := by
      rcases hL with ⟨h0, rfl⟩ | ⟨hne, hL⟩
      · have h0 : entCluster (readCluster fs v s.1) s.2 = 0 := h0
        rw [if_neg (not_not.mpr h0)]
        exact ⟨rfl, fun y => (fatGet_congr hw y).trans (if_neg List.not_mem_nil).symm⟩
      · have h0 : entCluster (readCluster fs v s.1) s.2 ≠ 0 := by
          cases L with
          | nil => exact absurd rfl hne
          | cons z L =>
            have hz : startOf fs v s = z := hL.1
            have h2 := hL.2.1.1
            rw [← hz] at h2
            unfold startOf at h2
            omega
        rw [if_pos h0]
        have hlen := hL.length_le hf
        have hlt := hf.total_lt
        have hspec := freeChainFrom_spec hf (2^28) w _ L (hL.congr_fat hw) (by omega)
        refine ⟨hspec.1, fun y => (hspec.2 y).trans ?_⟩
        rw [fatGet_congr hw]
    rw [hs]
    refine Or.inr ⟨s, L, _, rfl, ?_⟩
    refine { found := hs, used := hu, chain := hL, fat := ?_, put := ?_ }
    · intro y
      rw [fat32Flush_get]
      exact (hfree (writeCluster fs v s.1 _) rfl).2 y
    · exact ⟨_, (hfree (writeCluster fs v s.1 _) rfl).1, rfl⟩

end Operations

/-! ### Writing -/

section Write
variable {fs : Fs} {v v' : Vol} {root : List ℕ} {own : Set ℕ} {c x : ℕ} {L N : List ℕ}

theorem Extended.isData (h : Extended fs v v' c L N) (hx : x ∈ L ++ N) : fs.IsData x :=
  h.chain.isData hx

/-- The clusters behind which nothing was put keep their bytes. -/
theorem Extended.readCluster (hf : fs.Ok) (h : Extended fs v v' c L N) (hx : fs.IsData x)
    (hn : x ∉ L ++ N) : readCluster fs v' x = readCluster fs v x := by
  apply readCluster_congr
  intro k hk b hb
  apply h.disk
  intro y hy k' hk' heq
  rw [sector_div _ _ hb] at heq
  have hxy := (hf.apart.inj x y k k' hx (h.isData hy) hk hk' heq).1
  exact hn (hxy ▸ hy)

/-- A chain that grew from a file's does not reach the root directory. -/
theorem Wf.write_sameEntries (hf : fs.Ok) (h : Wf fs root own v) (hc : c ∈ own) (hL : L ≠ [])
    (hchain : FatChain fs v c L) (hext : Extended fs v v' c L N) : SameEntries fs root v v' := by
  have hfile : FileChain fs v c L := Or.inr ⟨hL, hchain⟩
  apply SameEntries.of_read
  intro y hy
  apply hext.readCluster hf (h.root_isData hy)
  intro hm
  rcases List.mem_append.mp hm with hm | hm
  · exact h.apartRoot c hc L hfile y hm hy
  · exact h.rootChain.used hf hy (hext.free y hm).2

theorem Wf.write (hf : fs.Ok) (h : Wf fs root own v) (hc : c ∈ own) (hL : L ≠ [])
    (hchain : FatChain fs v c L) (hext : Extended fs v v' c L N) : Wf fs root own v' := by
  apply h.same (h.write_sameEntries hf hc hL hchain hext)
  refine h.toOwned.extend hf hc (Or.inr ⟨hL, hchain⟩) (Or.inr ⟨?_, hext.chain⟩)
    (fun n hn => (hext.free n hn).2) hext.fat
  exact List.append_ne_nil_of_left_ne_nil hL N

end Write

/-! ### Creating -/

section Create
variable {fs : Fs} {v v' : Vol} {root : List ℕ} {own : Set ℕ} {n x : ℕ} {e s : Slot}
  {name : List Byte} {now : Stamp}

theorem Created.others (hf : fs.Ok) (hw : Wf fs root own v)
    (h : Created fs root name now v v' n s) :
    OtherEntries fs root v v' s :=
  h.put.others hf (hw.root_isData h.mem) hw.dataRoot
    (fun _ ho => putNew_other (toShort_length name) ho)

theorem Created.first (hf : fs.Ok) (hw : Wf fs root own v) (h : Created fs root name now v v' n s) :
    readCluster fs v' s.1 (32*s.2) = shortHead name := by
  rw [h.put.first hf (hw.root_isData h.mem) h.index]
  exact first_putNew (toShort_length name)

/-- The new entry. -/
theorem Created.entry (hf : fs.Ok) (hw : Wf fs root own v) (h : Created fs root name now v v' n s) :
    entName (readCluster fs v' s.1) s.2 = toShort name ∧
    entAttr (readCluster fs v' s.1) s.2 = 0x20 ∧ startOf fs v' s = n ∧
    entSize (readCluster fs v' s.1) s.2 = 0 := by
  obtain ⟨h1, h2, h3, h4⟩ := h.put.entry hf (hw.root_isData h.mem) h.index
  have hlt := hf.total_lt
  have hn := h.data.2
  rw [h1, h2, startOf, h3, h4]
  exact ⟨entName_putNew (toShort_length name), entAttr_putNew, entCluster_putNew (by omega),
    entSize_putNew⟩

/-- The name of the file, where a directory search can see it. -/
def Visible (name : List Byte) : Prop := shortHead name ≠ 0xE5#8

theorem not_used_of_free (h : SlotFree fs v s) : ¬ Used fs v root s := by
  rintro ⟨-, -, h1, h2, -⟩
  rcases h with h | h
  · exact h1 h
  · exact h2 h

theorem Created.used_iff (hf : fs.Ok) (hw : Wf fs root own v)
    (h : Created fs root name now v v' n s) (hname : ∀ c ∈ name, c ≠ 0#8) :
    Used fs v' root e ↔ e = s ∧ Visible name ∨ Used fs v root e := by
  by_cases hes : e = s
  · subst hes
    have hnot : ¬ Used fs v root e := not_used_of_free h.slotFree
    have hhead := shortHead_ne_zero hname
    refine ⟨fun hu => Or.inl ⟨rfl, fun (he : shortHead name = 0xE5#8) => hu.2.2.2.1 ?_⟩,
      fun hor => ?_⟩
    · rw [h.first hf hw]
      exact he
    · rcases hor with ⟨-, hv⟩ | hu
      · refine ⟨h.mem, h.index, ?_, ?_, ?_⟩
        · rw [h.first hf hw]
          exact hhead
        · rw [h.first hf hw]
          exact hv
        · rw [(h.entry hf hw).2.1]
          decide
      · exact absurd hu hnot
  · rw [(h.others hf hw).used hes]
    exact ⟨Or.inr, fun hor => hor.resolve_left (fun he => hes he.1)⟩

/-- The cluster of a new file is none of the files there are. -/
theorem Created.fresh (hf : fs.Ok) (hw : Wf fs root own v) (h : Created fs root name now v v' n s) :
    n ∉ own := by
  intro hn
  have h2 := h.data.1
  exact hw.start_used hf hn (by omega) h.free

theorem Wf.create (hf : fs.Ok) (hw : Wf fs root own v) (h : Created fs root name now v v' n s)
    (hname : ∀ c ∈ name, c ≠ 0#8) : Wf fs root (insert n own) v' := by
  have hne (e : Slot) (hu : Used fs v root e) : e ≠ s := by
    rintro rfl
    exact not_used_of_free h.slotFree hu
  have hstart (e : Slot) (hu : Used fs v root e) : startOf fs v' e = startOf fs v e :=
    (h.others hf hw).startOf hu (hne e hu)
  have hnew := (h.entry hf hw).2.2.1
  have hold (e : Slot) (hu : Used fs v root e) : startOf fs v' e ≠ n := by
    intro he
    rw [hstart e hu] at he
    exact h.fresh hf hw (he ▸ hw.starts e hu)
  refine { toOwned := hw.toOwned.add hf h.data h.free ?_ ?_, endMark := ?_, starts := ?_,
           inj := ?_ }
  · rw [h.fat, if_pos rfl]
  · intro y hy
    rw [h.fat, if_neg hy]
  · intro c hc i j hij hj h0
    have hmark := hw.endMark c hc
    by_cases hi : (c, i) = s
    · subst hi
      rw [h.first hf hw] at h0
      exact absurd h0 (shortHead_ne_zero hname)
    · have hio := (h.others hf hw).first (e := (c, i)) hc (by omega) hi
      rw [hio] at h0
      by_cases hjs : (c, j) = s
      · -- the slot taken is the first free one of its cluster
        subst hjs
        exact absurd (Or.inl h0) (h.before (c, i) hc (by dsimp only; omega) (Or.inr ⟨rfl, hij⟩))
      · rw [(h.others hf hw).first (e := (c, j)) hc hj hjs]
        exact hmark i j hij hj h0
  · intro e he
    rcases (h.used_iff hf hw hname).mp he with ⟨rfl, -⟩ | hu
    · rw [hnew]
      exact Set.mem_insert n own
    · rw [hstart e hu]
      exact Set.mem_insert_of_mem n (hw.starts e hu)
  · intro e e' he he' heq h0
    rcases (h.used_iff hf hw hname).mp he with ⟨rfl, -⟩ | hu
    · rcases (h.used_iff hf hw hname).mp he' with ⟨rfl, -⟩ | hu'
      · rfl
      · exact absurd (heq.symm.trans hnew) (hold e' hu')
    · rcases (h.used_iff hf hw hname).mp he' with ⟨rfl, -⟩ | hu'
      · exact absurd (heq.trans hnew) (hold e hu)
      · rw [hstart e hu] at heq h0
        rw [hstart e' hu'] at heq
        exact hw.inj e e' hu hu' heq h0

end Create

/-! ### Deleting -/

/-- The files that are left when one with the first cluster `c` is deleted. -/
def forget (own : Set ℕ) (c : ℕ) : Set ℕ := {d | d ∈ own ∧ (d = c → d = 0)}

theorem forget_zero (own : Set ℕ) : forget own 0 = own := by
  ext d
  exact ⟨And.left, fun hd => ⟨hd, fun he => he⟩⟩

theorem forget_of_ne_zero {own : Set ℕ} {c : ℕ} (h0 : c ≠ 0) : forget own c = own \ {c} := by
  ext d
  refine ⟨fun hd => ⟨hd.1, fun he => h0 ?_⟩, fun hd => ⟨hd.1, fun he => absurd he hd.2⟩⟩
  have hdc : d = c := he
  rw [← hdc]
  exact hd.2 hdc

section Delete
variable {fs : Fs} {v v' : Vol} {root : List ℕ} {own : Set ℕ} {x : ℕ} {L : List ℕ} {e s : Slot}
  {name : List Byte}

theorem Deleted.others (hf : fs.Ok) (hw : Wf fs root own v) (h : Deleted fs root name v v' L s) :
    OtherEntries fs root v v' s := by
  apply h.put.others hf (hw.root_isData h.used.1) hw.dataRoot
  intro o ho
  exact Function.update_of_ne (by omega) _ _

theorem Deleted.first (hf : fs.Ok) (hw : Wf fs root own v) (h : Deleted fs root name v v' L s) :
    readCluster fs v' s.1 (32*s.2) = 0xE5#8 := by
  rw [h.put.first hf (hw.root_isData h.used.1) h.used.2.1]
  exact Function.update_self _ _ _

theorem Deleted.used_iff (hf : fs.Ok) (hw : Wf fs root own v)
    (h : Deleted fs root name v v' L s) : Used fs v' root e ↔ e ≠ s ∧ Used fs v root e := by
  by_cases hes : e = s
  · subst hes
    exact ⟨fun hu => absurd (h.first hf hw) hu.2.2.2.1, fun hu => absurd rfl hu.1⟩
  · rw [(h.others hf hw).used hes]
    exact ⟨fun hu => ⟨hes, hu⟩, And.right⟩

theorem Wf.delete (hf : fs.Ok) (hw : Wf fs root own v) (h : Deleted fs root name v v' L s) :
    Wf fs root (forget own (startOf fs v s)) v' := by
  have hown := hw.starts s h.used
  have htable : Owned fs root (forget own (startOf fs v s)) v' := by
    by_cases h0 : startOf fs v s = 0
    · rw [h0, forget_zero]
      apply hw.toOwned.congr
      intro y
      have hnil : L = [] := h.chain.unique hf (Or.inl ⟨h0, rfl⟩)
      rw [h.fat, hnil, if_neg List.not_mem_nil]
    · rw [forget_of_ne_zero h0]
      apply hw.toOwned.remove hf hown h.chain
      intro y hy
      rw [h.fat, if_neg hy]
  refine { toOwned := htable, endMark := ?_, starts := ?_, inj := ?_ }
  · intro c hc i j hij hj h0
    have hmark := hw.endMark c hc
    by_cases hi : (c, i) = s
    · subst hi
      rw [h.first hf hw] at h0
      exact absurd h0 (by decide)
    · rw [(h.others hf hw).first (e := (c, i)) hc (by omega) hi] at h0
      by_cases hjs : (c, j) = s
      · -- an entry in use does not lie behind an end mark
        subst hjs
        exact absurd (hmark i j hij hj h0) h.used.2.2.1
      · rw [(h.others hf hw).first (e := (c, j)) hc hj hjs]
        exact hmark i j hij hj h0
  · intro e he
    obtain ⟨hne, hu⟩ := (h.used_iff hf hw).mp he
    rw [(h.others hf hw).startOf hu hne]
    refine ⟨hw.starts e hu, fun heq => ?_⟩
    by_contra h0
    exact hne (hw.inj e s hu h.used heq h0)
  · intro e e' he he' heq h0
    obtain ⟨hne, hu⟩ := (h.used_iff hf hw).mp he
    obtain ⟨hne', hu'⟩ := (h.used_iff hf hw).mp he'
    rw [(h.others hf hw).startOf hu hne] at heq h0
    rw [(h.others hf hw).startOf hu' hne'] at heq
    exact hw.inj e e' hu hu' heq h0

end Delete

/-! ### A small volume -/

/-- A boot sector for one sector a cluster and one sector of FAT, with `numFats` copies of the FAT,
and an empty root directory in cluster 2. -/
def sampleDisk (numFats : ℕ) : Mem := fun a =>
  if a = 0x0C then 2#8 else if a = 0x0D then 1#8 else if a = 0x0E then 1#8
  else if a = 0x10 then BitVec.ofNat 8 numFats else if a = 0x13 then 12#8
  else if a = 0x24 then 1#8 else if a = 0x2C then 2#8 else if a = 0x42 then 0x29#8
  else if 520 ≤ a ∧ a < 523 then 0xFF#8 else if a = 523 then 0x0F#8 else 0#8

def sampleFs : Fs where
  firstDataSector := 2
  dataSectors := 10
  totalClusters := 10
  fatStartSector := 1
  fatSizeSectors := 1
  sectorsPerCluster := 1
  bytesPerSector := 512
  rootCluster := 2

def sampleVol : Vol where
  disk := sampleDisk 1
  fat := diskRead (sampleDisk 1) 1 (fun _ => 0#8) 1

theorem sample_mount : fat32Mount (sampleDisk 1) = some (sampleFs, sampleVol) := rfl

theorem sample_mounted : sampleFs.Mounted := ⟨sampleDisk 1, sampleVol, sample_mount⟩

theorem sample_ok : sampleFs.Ok where
  sectors := by decide
  bytes := rfl
  covers := ⟨by decide, by decide⟩
  apart := by
    refine ⟨fun c c' k k' hc hc' hk hk' h => ?_, fun c k j hc hk hj => ?_⟩
    · have h1 := hc.1
      have h2 := hc.2
      have h3 := hc'.1
      have h4 := hc'.2
      simp only [sectorOf, clusterToLba, sampleFs] at h hk hk' h2 h4
      omega
    · have h1 := hc.1
      have h2 := hc.2
      simp only [sectorOf, clusterToLba, fatSector, sampleFs] at hk hj h2 ⊢
      omega

theorem sample_root : FatChain sampleFs sampleVol 2 [2] :=
  ⟨rfl, by decide, by show fatEof ≤ fatNextCluster sampleFs sampleVol 2; decide +kernel⟩

theorem sample_dir (o : ℕ) (ho : o < 512) : readCluster sampleFs sampleVol 2 o = 0#8 := by
  rw [readCluster_apply]
  rw [if_pos (by show o / 512 < 1; omega)]
  have hs : sectorOf sampleFs 2 (o/512) = 2 := by
    have : o / 512 = 0 := by omega
    rw [this]
    decide
  rw [hs]
  show sampleDisk 1 _ = _
  unfold sampleDisk
  repeat rw [if_neg (by omega)]

theorem sample_free (i : ℕ) (hi : i < sampleFs.entryCount) :
    readCluster sampleFs sampleVol 2 (32*i) = 0#8 := by
  have h16 : sampleFs.entryCount = 16 := by decide
  exact sample_dir _ (by omega)

theorem sample_unused (e : Slot) : ¬ Used sampleFs sampleVol [2] e := by
  rintro ⟨hc, hi, h0, -⟩
  rw [List.mem_singleton.mp hc, sample_free e.2 hi] at h0
  exact h0 rfl

theorem sample_wf : Wf sampleFs [2] ∅ sampleVol where
  rootChain := sample_root
  chains := fun c hc => nomatch hc
  apartRoot := fun c hc => nomatch hc
  apart := fun c hc => nomatch hc
  endMark := by
    intro c hc i j hij hj h0
    rw [List.mem_singleton.mp hc]
    exact sample_free j hj
  starts := fun e he => absurd he (sample_unused e)
  inj := fun e _ he => absurd he (sample_unused e)

/-- A disk whose root directory has a file `A`, a deleted entry, a part of a long name, and an entry
`C` with the attributes `attr`. -/
def mixedDisk (attr : Byte) : Mem := fun a =>
  if a < 1024 ∨ 1152 ≤ a then sampleDisk 1 a
  else if a % 32 = 0 then [65#8, 0xE5#8, 66#8, 67#8].getD (a / 32 - 32) 0#8
  else if a % 32 < 11 then space
  else if a % 32 = 11 then [0#8, 0#8, 0x0F#8, attr].getD (a / 32 - 32) 0#8
  else if a % 32 = 26 then BitVec.ofNat 8 (a / 32 - 29) else 0#8

def mixedVol (attr : Byte) : Vol where
  disk := mixedDisk attr
  fat := sampleVol.fat

theorem mixed_root (attr : Byte) : FatChain sampleFs (mixedVol attr) 2 [2] := sample_root

end SukiOS.Fat32
