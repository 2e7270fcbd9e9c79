import Mathlib.Data.Finset.Prod
import SukiOS.Fat32Atomic
import SukiOS.Fat32Inside
import SukiOS.Lib.FileStore

/-! The file layer implements a store of named files: programs that are careful get from `vfs.c` and
`fat32.c` the answers that the store gives. -/
namespace SukiOS.Fat32
open ByteMemory LinkedChain Services FileStore

/-! ### The calls of a program -/

inductive FileCall where
  | open (path : List Byte)
  | read (fd count : ℕ)
  | write (fd : ℕ) (src : List Byte)
  | close (fd : ℕ) (now : Stamp)
  | getSize (fd : ℕ)
  | create (path : List Byte) (now now' : Stamp)
  | delete (path : List Byte)

/-- What a call makes of the state, and what it returns to the caller. -/
def fileCall (fs : Fs) (s : Vfs) : FileCall → Option (Vfs × Answer Byte)
  | .open path => (vfsOpen fs s path).map fun r =>
      match r with
      | none => (s, .fail)
      | some (s', fd) => (s', ⟨fd, []⟩)
  | .read fd count =>
    let r := vfsRead fs s fd count
    some (r.state, ⟨r.ret, r.bytes⟩)
  | .write fd src =>
    let r := vfsWrite fs s fd src
    some (r.state, ⟨r.ret, []⟩)
  | .close fd now => (vfsClose fs s fd now).map fun r => (r.1, ⟨r.2, []⟩)
  | .getSize fd => some (s, ⟨vfsGetSize s fd, []⟩)
  | .create path now now' => (vfsCreate fs s path now now').map fun r => (r.1, ⟨r.2, []⟩)
  | .delete path => (vfsDelete fs s path).map fun r => (r.1, ⟨r.2, []⟩)

def vfsService (fs : Fs) : Service Vfs FileCall (Answer Byte) where
  call := fileCall fs

/-! ### The store that a volume stands for

Files go by their short names. -/

/-- The short name that `vfs_open` looks for. -/
def openName : List Byte → Option (List Byte)
  | [] => none
  | c::p => if c = slash then (component p).map toShort else none

/-- The short name that `vfs_create` and `vfs_delete` take from a path: all of it counts. -/
def wholeName : List Byte → Option (List Byte)
  | [] => none
  | c::p => if c = slash then some (toShort p) else none

def FileCall.abstract : FileCall → Call (List Byte) Byte
  | .open path => .open (openName path)
  | .read fd count => .read fd count
  | .write fd src => .write fd src
  | .close fd _ => .close fd
  | .getSize fd => .size fd
  | .create path _ _ => .create (wholeName path)
  | .delete path => .remove (wholeName path)

/-- Names are strings, and a name to be created does not begin with the mark of a deleted entry. -/
def FileCall.Named : FileCall → Prop
  | .create path _ _ => IsCString path ∧ Visible path.tail
  | _ => True

/-- The chain of `c` has the blocks of a file, and begins with what the file holds. -/
structure StoredAt (fs : Fs) (v : Vol) (c : ℕ) (L : List ℕ) (f : FileState Byte) : Prop where
  chain : FileChain fs v c L
  blocks : f.blocks = L.length
  fits : f.content.length ≤ L.length * fs.clusterSize
  bytes : ∀ p, p < f.content.length → chainByte fs v L p = f.content.getD p 0#8

/-- The slots that `fat32_create_file` may take. -/
def freeSlots (fs : Fs) (root : List ℕ) (v : Vol) : Finset Slot :=
  (root.toFinset ×ˢ Finset.range fs.entryCount).filter
    (fun e => readCluster fs v e.1 (32*e.2) = 0#8 ∨ readCluster fs v e.1 (32*e.2) = 0xE5#8)

/-- An entry in use holds a file of the store, with the length on record as its size. -/
structure EntryHolds (fs : Fs) (σ : Store (List Byte) Byte) (v : Vol) (e : Slot)
    (f : FileState Byte)
    (L : List ℕ) : Prop where
  file : σ.file (foldedName fs v e) = some f
  stored : StoredAt fs v (startOf fs v e) L f
  size : entSize (readCluster fs v e.1) e.2 = f.saved
  small : f.content.length < 2^32

/-- The volume holds the files of the store. -/
structure Holds (fs : Fs) (root : List ℕ) (σ : Store (List Byte) Byte) (v : Vol) : Prop where
  wf : ∃ own, Wf fs root own v
  distinct : FoldedDistinct fs root v
  entry : ∀ e, Used fs v root e → ∃ f L, EntryHolds fs σ v e f L
  name : ∀ k f, σ.file k = some f → ∃ e, Used fs v root e ∧ foldedName fs v e = k
  blocks : σ.freeBlocks = (freeClusters fs v).card
  entries : σ.freeEntries = (freeSlots fs root v).card

/-- A descriptor is open on the entry of its file, with the length of the file as its size. The size
of the node is older: it is that of the file while the length is on record. -/
structure OpenedAs (fs : Fs) (root : List ℕ) (σ : Store (List Byte) Byte) (v : Vol) (d : Fd)
    (h : Cursor (List Byte)) (e : Slot) (f : FileState Byte) : Prop where
  used : Used fs v root e
  name : foldedName fs v e = h.name
  start : d.node.file.startCluster = startOf fs v e
  file : σ.file h.name = some f
  pos : d.pos = h.pos
  size : d.node.file.size = f.content.length
  nodeSize : f.saved = f.content.length → d.node.size = f.content.length

/-- The state of the file layer stands for the store. -/
structure Represents (fs : Fs) (root : List ℕ) (σ : Store (List Byte) Byte) (s : Vfs) : Prop where
  ok : σ.Ok
  holds : Holds fs root σ s.vol
  closed : ∀ i, s.fds i = none ↔ σ.handle i = none
  opened : ∀ i d h, s.fds i = some d → σ.handle i = some h →
    ∃ e f, OpenedAs fs root σ s.vol d h e f

/-! ### Files and free space -/

section Space
variable {fs : Fs} {v v' : Vol} {root : List ℕ} {own : Set ℕ} {c n x : ℕ} {L : List ℕ} {e s : Slot}
  {f : FileState Byte} {name : List Byte} {now : Stamp}

theorem mem_freeSlots :
    e ∈ freeSlots fs root v ↔ (e.1 ∈ root ∧ e.2 < fs.entryCount) ∧ SlotFree fs v e := by
  rw [freeSlots, Finset.mem_filter, Finset.mem_product, List.mem_toFinset, Finset.mem_range]
  exact Iff.rfl

theorem freeSlots_same (h : SameEntries fs root v v') : freeSlots fs root v' =
    freeSlots fs root v := by
  ext e
  rw [mem_freeSlots, mem_freeSlots]
  apply and_congr_right
  intro he
  unfold SlotFree
  rw [(h e.1 he.1 e.2 he.2).1]

/-- A new entry takes its slot. -/
theorem freeSlots_create (hf : fs.Ok) (hw : Wf fs root own v)
    (h : Created fs root name now v v' n s)
    (hname : ∀ c ∈ name, c ≠ 0#8) (hv : Visible name) :
    freeSlots fs root v' = (freeSlots fs root v).erase s := by
  ext e
  rw [Finset.mem_erase, mem_freeSlots, mem_freeSlots]
  by_cases hes : e = s
  · subst hes
    refine ⟨fun he => absurd he.2 ?_, fun he => absurd rfl he.1⟩
    unfold SlotFree
    rw [h.first hf hw]
    exact not_or.mpr ⟨shortHead_ne_zero hname, hv⟩
  · have hsame (he : e.1 ∈ root ∧ e.2 < fs.entryCount) : SlotFree fs v' e ↔ SlotFree fs v e := by
      unfold SlotFree
      rw [(h.others hf hw).first he.1 he.2 hes]
    exact ⟨fun he => ⟨hes, he.1, (hsame he.1).mp he.2⟩,
      fun he => ⟨he.2.1, (hsame he.2.1).mpr he.2.2⟩⟩

/-- A deleted entry gives its slot back. -/
theorem freeSlots_delete (hf : fs.Ok) (hw : Wf fs root own v) (h : Deleted fs root name v v' L s) :
    freeSlots fs root v' = insert s (freeSlots fs root v) := by
  ext e
  rw [Finset.mem_insert, mem_freeSlots, mem_freeSlots]
  by_cases hes : e = s
  · subst hes
    exact ⟨fun _ => Or.inl rfl, fun _ => ⟨⟨h.used.1, h.used.2.1⟩, Or.inr (h.first hf hw)⟩⟩
  · have hsame (he : e.1 ∈ root ∧ e.2 < fs.entryCount) : SlotFree fs v' e ↔ SlotFree fs v e := by
      unfold SlotFree
      rw [(h.others hf hw).first he.1 he.2 hes]
    refine ⟨fun he => Or.inr ⟨he.1, (hsame he.1).mp he.2⟩, fun he => ?_⟩
    have he := he.resolve_left hes
    exact ⟨he.1, (hsame he.1).mpr he.2⟩

/-- Without a free slot nothing is created, and without a free cluster neither. -/
theorem create_none (hf : fs.Ok) (hw : Wf fs root own v)
    (h : fat32CreateFile fs v name now = some none) :
    freeSlots fs root v = ∅ ∨ freeClusters fs v = ∅ := by
  unfold fat32CreateFile at h
  rcases walkRoot_cases hf hw.rootChain (fun buf => scanFree buf 0 fs.entryCount) with
    ⟨hn, hall⟩ | ⟨c, i, A, B, hs, -⟩
  · refine Or.inl (Finset.eq_empty_of_forall_notMem fun e he => ?_)
    obtain ⟨⟨hc, hi⟩, hfree⟩ := mem_freeSlots.mp he
    rcases scanFree_spec (readCluster fs v e.1) fs.entryCount 0 with ⟨-, hno⟩ | ⟨k, hk, -⟩
    · have hno := hno e.2 (Nat.zero_le _) (by omega)
      exact not_or.mpr hno hfree
    · exact nomatch (hall e.1 hc).symm.trans hk
  · rw [hs] at h
    rcases findFree_cases hf v with ⟨-, hempty⟩ | ⟨hne, -⟩
    · exact Or.inr hempty
    · have h : (if findFreeCluster fs v = 0 then some none else _) = some none := h
      rw [if_neg hne] at h
      exact nomatch Option.some.inj h

theorem freeClusters_create (h : Created fs root name now v v' n s) :
    freeClusters fs v' = (freeClusters fs v).erase n := by
  ext y
  rw [Finset.mem_erase, mem_freeClusters, mem_freeClusters, h.fat]
  by_cases hy : y = n
  · rw [if_pos hy]
    exact ⟨fun he => absurd he.2 (by decide), fun he => absurd hy he.1⟩
  · rw [if_neg hy]
    exact ⟨fun he => ⟨hy, he⟩, And.right⟩

theorem freeClusters_delete (h : Deleted fs root name v v' L s) :
    freeClusters fs v' = freeClusters fs v ∪ L.toFinset := by
  ext y
  rw [Finset.mem_union, List.mem_toFinset, mem_freeClusters, mem_freeClusters, h.fat]
  by_cases hy : y ∈ L
  · rw [if_pos hy]
    exact ⟨fun _ => Or.inr hy, fun _ => ⟨h.chain.isData hy, Nat.zero_and _⟩⟩
  · rw [if_neg hy]
    exact ⟨Or.inl, fun he => he.resolve_right hy⟩

/-- The clusters of a file were in use. -/
theorem card_freeClusters_delete (hf : fs.Ok) (h : Deleted fs root name v v' L s) :
    (freeClusters fs v').card = (freeClusters fs v).card + L.length := by
  have hdisj : Disjoint (freeClusters fs v) L.toFinset := by
    rw [Finset.disjoint_left]
    intro y hy hL
    exact h.chain.used hf (List.mem_toFinset.mp hL) (mem_freeClusters.mp hy).2
  have hnd : L.Nodup := by
    rcases h.chain with ⟨-, rfl⟩ | ⟨-, hL⟩
    · exact List.nodup_nil
    · exact hL.nodup hf
  rw [freeClusters_delete h, Finset.card_union_of_disjoint hdisj, List.toFinset_card_of_nodup hnd]

/-- What a file holds depends on its clusters and their part of the table. -/
theorem StoredAt.congr (hf : fs.Ok) (h : StoredAt fs v c L f)
    (hfat : ∀ x ∈ L, v'.fatGet x = v.fatGet x)
    (hread : ∀ x ∈ L, readCluster fs v' x = readCluster fs v x) : StoredAt fs v' c L f where
  chain := h.chain.congr hfat
  blocks := h.blocks
  fits := h.fits
  bytes := by
    intro p hp
    have hpos : 0 < fs.clusterSize := Nat.lt_of_lt_of_le (by decide) hf.clusterSize_pos
    have hlt : p / fs.clusterSize < L.length :=
      (Nat.div_lt_iff_lt_mul hpos).mpr (hp.trans_le h.fits)
    rw [← h.bytes p hp]
    unfold chainByte
    rw [List.getD_eq_getElem?_getD, List.getElem?_eq_getElem hlt, Option.getD_some,
      hread _ (List.getElem_mem hlt)]

end Space

/-! ### What the operations make of the store -/

section Volume
variable {fs : Fs} {v v' : Vol} {root : List ℕ} {own : Set ℕ} {σ σ' : Store (List Byte) Byte}
  {e : Slot} {f : FileState Byte} {L : List ℕ} {k name src : List Byte} {p : ℕ} {now : Stamp}

/-- The clusters of two entries are apart. -/
theorem Holds.apart (hf : fs.Ok) (h : Holds fs root σ v) {e' : Slot} {f' : FileState Byte}
    {L' : List ℕ}
    (hu : Used fs v root e) (hu' : Used fs v root e') (hne : e ≠ e') (hs : EntryHolds fs σ v e f L)
    (hs' : EntryHolds fs σ v e' f' L') : ∀ x ∈ L, x ∉ L' := by
  obtain ⟨own, hw⟩ := h.wf
  by_cases hstart : startOf fs v e = startOf fs v e'
  · by_cases h0 : startOf fs v e = 0
    · have hnil : L = [] := hs.stored.chain.unique hf (Or.inl ⟨h0, rfl⟩)
      rw [hnil]
      exact fun x hx => nomatch hx
    · exact absurd (hw.inj e e' hu hu' hstart h0) hne
  · exact hw.apart _ (hw.starts e hu) _ (hw.starts e' hu') hstart L L' hs.stored.chain
      hs'.stored.chain

/-- The directory and the table stay, and so do the names in the store. -/
theorem Holds.same (h : Holds fs root σ v) (hdir : SameEntries fs root v v') (hfat : v'.fat = v.fat)
    (hfile : ∀ k f', σ'.file k = some f' → ∃ f, σ.file k = some f)
    (hentry : ∀ e, Used fs v root e → ∃ f L, EntryHolds fs σ' v' e f L)
    (hblocks : σ'.freeBlocks = σ.freeBlocks) (hentries : σ'.freeEntries = σ.freeEntries) :
    Holds fs root σ' v' := by
  obtain ⟨own, hw⟩ := h.wf
  have hname (e : Slot) (hu : Used fs v root e) : foldedName fs v' e = foldedName fs v e :=
    hdir.foldedName hu.1 hu.2.1
  refine { wf := ⟨own, hw.same hdir (hw.toOwned.congr (fatGet_congr hfat))⟩, distinct := ?_
           entry := fun e hu => hentry e (hdir.used.mp hu), name := ?_, blocks := ?_, entries :=
             ?_ }
  · intro e e' hu hu' heq
    have hu := hdir.used.mp hu
    have hu' := hdir.used.mp hu'
    rw [hname e hu, hname e' hu'] at heq
    exact h.distinct e e' hu hu' heq
  · intro k f' hk
    obtain ⟨f, hk⟩ := hfile k f' hk
    obtain ⟨e, hu, hek⟩ := h.name k f hk
    exact ⟨e, hdir.used.mpr hu, (hname e hu).trans hek⟩
  · rw [hblocks, h.blocks, freeClusters_congr hfat]
  · rw [hentries, h.entries, freeSlots_same hdir]

theorem setFile_some_of {f' : FileState Byte} (hk : σ.file k = some f) {k' : List Byte}
    {g : FileState Byte}
    (h : (σ.setFile k (some f')).file k' = some g) : ∃ f, σ.file k' = some f := by
  rw [Store.setFile_file] at h
  by_cases hkk : k' = k
  · exact ⟨f, hkk ▸ hk⟩
  · rw [if_neg hkk] at h
    exact ⟨g, h⟩

/-- What a file holds after a write that stays in its clusters. -/
theorem StoredAt.write {c : ℕ} (h : StoredAt fs v c L f) (hput : PutAt fs v v' L p src)
    (hp : p ≤ f.content.length) (hroom : p + src.length ≤ L.length * fs.clusterSize) :
    StoredAt fs v' c L { f with content := overwrite f.content p src } where
  chain := h.chain.congr (fun x _ => fatGet_congr hput.fat x)
  blocks := h.blocks
  fits := by
    have hlen := length_overwrite src hp
    have hfits := h.fits
    dsimp only
    omega
  bytes := by
    intro q hq
    have hlen := length_overwrite src hp
    have hfits := h.fits
    dsimp only at hq ⊢
    rw [hlen] at hq
    rw [hput.bytes q (by omega), getD_overwrite hp]
    by_cases hin : p ≤ q ∧ q < p + src.length
    · rw [if_pos hin, if_pos hin]
    · rw [if_neg hin, if_neg hin]
      exact h.bytes q (by omega)

/-- The file of one entry is written. -/
theorem Holds.write (hf : fs.Ok) (h : Holds fs root σ v) (hu : Used fs v root e)
    (he : EntryHolds fs σ v e f L) (hput : PutAt fs v v' L p src) (hp : p ≤ f.content.length)
    (hroom : p + src.length ≤ L.length * fs.clusterSize) (hsmall : p + src.length < 2^32) :
    SameEntries fs root v v' ∧ Holds fs root (σ.setFile (foldedName fs v e)
      (some { f with content := overwrite f.content p src })) v' := by
  obtain ⟨own, hw⟩ := h.wf
  have hL (y : ℕ) (hy : y ∈ L) : fs.IsData y := he.stored.chain.isData hy
  have hdir : SameEntries fs root v v' := by
    apply SameEntries.of_read
    intro x hx
    apply hput.readCluster hf hL (hw.root_isData hx)
    exact fun hm => hw.apartRoot _ (hw.starts e hu) L he.stored.chain x hm hx
  refine ⟨hdir, h.same hdir hput.fat (fun k f' => setFile_some_of he.file) ?_ rfl rfl⟩
  intro e' hu'
  have hsame := hdir.foldedName hu'.1 hu'.2.1
  have hstart := hdir.startOf hu'.1 hu'.2.1
  have hread : readCluster fs v' e'.1 = readCluster fs v e'.1 := by
    apply hput.readCluster hf hL (hw.root_isData hu'.1)
    exact fun hm => hw.apartRoot _ (hw.starts e hu) L he.stored.chain _ hm hu'.1
  by_cases hee : e' = e
  · subst hee
    have hlen := length_overwrite src hp
    have hold := he.small
    refine ⟨{ f with content := overwrite f.content p src }, L, ?_, ?_, ?_, ?_⟩
    · rw [hsame, Store.setFile_file, if_pos rfl]
    · rw [hstart]
      exact he.stored.write hput hp hroom
    · rw [hread]
      exact he.size
    · dsimp only
      omega
  · -- the clusters of another file are apart from those written
    obtain ⟨f', L', he'⟩ := h.entry e' hu'
    have hne : foldedName fs v e' ≠ foldedName fs v e := fun heq => hee (h.distinct e' e hu' hu heq)
    refine ⟨f', L', ?_, ?_, ?_, he'.small⟩
    · rw [hsame, Store.setFile_file, if_neg hne]
      exact he'.file
    · rw [hstart]
      apply he'.stored.congr hf (fun x _ => fatGet_congr hput.fat x)
      intro x hx
      exact hput.readCluster hf hL (he'.stored.chain.isData hx) (h.apart hf hu' hu hee he' he x hx)
    · rw [hread]
      exact he'.size

/-- Closing puts the length of the file on record: the size goes to the first entry with the first
cluster, which is another entry only when both files are empty. -/
theorem Holds.close (hf : fs.Ok) (h : Holds fs root σ v) (hu : Used fs v root e)
    (he : EntryHolds fs σ v e f L) {file : File} (hstart : file.startCluster = startOf fs v e)
    (hsize : file.size = f.content.length) (hsaved : ∀ k f, σ.file k = some f →
      f.saved ≤ f.content.length) (hc : fat32Close fs v file now = some v') :
    SameEntries fs root v v' ∧ Holds fs root (σ.setFile (foldedName fs v e)
      (some { f with saved := f.content.length })) v' := by
  obtain ⟨own, hw⟩ := h.wf
  obtain ⟨w, hw', hfat, hdir, hread⟩ := close_same hf hw file now
  obtain rfl := Option.some.inj (hw'.symm.trans hc)
  -- the size of the entries: that of the handle in the one that is found, the old one in the others
  have hsizes : ∃ d, Used fs v root d ∧ startOf fs v d = startOf fs v e ∧
      ∀ e', Used fs v root e' → entSize (readCluster fs w e'.1) e'.2 =
        if e' = d then f.content.length else entSize (readCluster fs v e'.1) e'.2 := by
    rcases close_cases hf hw file now with ⟨-, hall⟩ | ⟨d, w', hcl, -, hud, hds, -, hput⟩
    · exact absurd hstart.symm (hall e hu)
    · obtain rfl := Option.some.inj (hw'.symm.trans hcl)
      refine ⟨d, hud, hds.trans hstart, fun e' hu' => ?_⟩
      have hdata := hw.root_isData hud.1
      by_cases hed : e' = d
      · subst hed
        rw [if_pos rfl, (hput.entry hf hdata hud.2.1).2.2.2, hsize]
        exact entSize_putSize he.small
      · rw [if_neg hed]
        have hothers : OtherEntries fs root v w d := by
          apply hput.others hf hdata hw.dataRoot
          exact fun o ho => putSize_apply (by omega)
        exact (hothers.entry hu'.1 hu'.2.1 hed).2.2.2
  obtain ⟨d, hud, hds, hsizes⟩ := hsizes
  refine ⟨hdir, h.same hdir hfat (fun k f' => setFile_some_of he.file) ?_ rfl rfl⟩
  intro e' hu'
  obtain ⟨f', L', he'⟩ := h.entry e' hu'
  have hname := hdir.foldedName hu'.1 hu'.2.1
  have hst := hdir.startOf hu'.1 hu'.2.1
  have hstored : StoredAt fs w (startOf fs w e') L' f' := by
    rw [hst]
    apply he'.stored.congr hf (fun x _ => fatGet_congr hfat x)
    intro x hx
    apply hread x (he'.stored.chain.isData hx)
    exact hw.apartRoot _ (hw.starts e' hu') L' he'.stored.chain x hx
  -- a file without clusters is empty
  have hempty (e1 : Slot) (f1 : FileState Byte) (L1 : List ℕ) (h1 : EntryHolds fs σ v e1 f1 L1)
      (h0 : startOf fs v e1 = 0) : f1.content.length = 0 ∧ f1.saved = 0 := by
    have hnil : L1 = [] := h1.stored.chain.unique hf (Or.inl ⟨h0, rfl⟩)
    have hfits := h1.stored.fits
    have hle := hsaved _ f1 h1.file
    rw [hnil, List.length_nil, Nat.zero_mul] at hfits
    omega
  by_cases hee : e' = e
  · subst hee
    have hff := he'.file
    rw [he.file] at hff
    obtain rfl := Option.some.inj hff
    refine ⟨{ f with saved := f.content.length }, L', ?_, ?_, ?_, he.small⟩
    · rw [hname, Store.setFile_file, if_pos rfl]
    · exact ⟨hstored.chain, hstored.blocks, hstored.fits, hstored.bytes⟩
    · rw [hsizes e' hu']
      by_cases hed : e' = d
      · rw [if_pos hed]
      · rw [if_neg hed, he.size]
        by_cases h0 : startOf fs v e' = 0
        · obtain ⟨hz, hs⟩ := hempty e' f L he h0
          dsimp only
          omega
        · exact absurd (hw.inj d e' hud hu' hds (by rw [hds]; exact h0)).symm hed
  · have hne : foldedName fs v e' ≠ foldedName fs v e := fun heq => hee (h.distinct e' e hu' hu heq)
    refine ⟨f', L', ?_, hstored, ?_, he'.small⟩
    · rw [hname, Store.setFile_file, if_neg hne]
      exact he'.file
    · rw [hsizes e' hu']
      by_cases hed : e' = d
      · subst hed
        rw [if_pos rfl]
        by_cases h0 : startOf fs v e' = 0
        · rw [(hempty e' f' L' he' h0).2, (hempty e f L he (hds ▸ h0)).1]
        · exact absurd (hw.inj e' e hud hu hds h0) hee
      · rw [if_neg hed]
        exact he'.size

/-- A name that no entry has is not the name of a file. -/
theorem Holds.file_eq_none (h : Holds fs root σ v) :
    σ.file (toShort name) = none ↔ Absent fs root name v := by
  constructor
  · intro hnone e hu hfold
    obtain ⟨f, L, he⟩ := h.entry e hu
    have hfile := he.file
    rw [hfold, hnone] at hfile
    exact nomatch hfile
  · intro habs
    cases hk : σ.file (toShort name) with
    | none => rfl
    | some f =>
      obtain ⟨e, hu, hname⟩ := h.name _ f hk
      exact absurd hname (habs e hu)

/-- A new entry holds a file of one block and no bytes. -/
theorem Holds.create (hf : fs.Ok) (h : Holds fs root σ v) (hstr : IsCString name)
    (hv : Visible name)
    (hnone : σ.file (toShort name) = none) {n : ℕ} {s : Slot}
    (hcr : Created fs root name now v v' n s) :
    Holds fs root (σ.added (toShort name)) v' ∧
      EntryHolds fs (σ.added (toShort name)) v' s ⟨[], 0, 1⟩ [n] := by
  obtain ⟨own, hw⟩ := h.wf
  have hused {e : Slot} := hcr.used_iff (e := e) hf hw hstr
  have habs := h.file_eq_none.mp hnone
  have hentry := hcr.entry hf hw
  have hnew : EntryHolds fs (σ.added (toShort name)) v' s ⟨[], 0, 1⟩ [n] := by
    refine ⟨?_, ?_, hentry.2.2.2, by decide⟩
    · rw [hcr.foldedName hf hw, Store.added_file, if_pos rfl]
    · rw [hentry.2.2.1]
      have hend : v'.fatGet n = fatEof := by rw [hcr.fat, if_pos rfl]
      exact ⟨Or.inr ⟨List.cons_ne_nil n [], new_chain hf hcr.data hend⟩, rfl, Nat.zero_le _,
        fun p hp => absurd hp (Nat.not_lt_zero p)⟩
  refine ⟨?_, hnew⟩
  refine { wf := ⟨_, hw.create hf hcr hstr⟩
           distinct := h.distinct.create hf hw hcr hstr habs, entry := ?_, name := ?_, blocks := ?_
           entries := ?_ }
  · intro e hu
    rcases hused.mp hu with ⟨rfl, -⟩ | hu0
    · exact ⟨⟨[], 0, 1⟩, [n], hnew⟩
    · obtain ⟨f, L, he⟩ := h.entry e hu0
      have hes : e ≠ s := by
        rintro rfl
        exact not_used_of_free hcr.slotFree hu0
      have hname := hcr.foldedName_old hf hw hu0
      refine ⟨f, L, ?_, ?_, ?_, he.small⟩
      · rw [hname, Store.added_file, if_neg (habs e hu0)]
        exact he.file
      · rw [(hcr.others hf hw).startOf hu0 hes]
        apply he.stored.congr hf
        · intro x hx
          rw [hcr.fat, if_neg]
          rintro rfl
          exact he.stored.chain.used hf hx hcr.free
        · intro x hx
          apply hcr.put.away hf (hw.root_isData hcr.mem) (he.stored.chain.isData hx)
          rintro rfl
          exact hw.apartRoot _ (hw.starts e hu0) L he.stored.chain _ hx hcr.mem
      · rw [((hcr.others hf hw).entry hu0.1 hu0.2.1 hes).2.2.2]
        exact he.size
  · intro k f' hk
    rw [Store.added_file] at hk
    by_cases hkn : k = toShort name
    · refine ⟨s, hused.mpr (Or.inl ⟨rfl, hv⟩), ?_⟩
      rw [hkn]
      exact hcr.foldedName hf hw
    · rw [if_neg hkn] at hk
      obtain ⟨e, hu, hname⟩ := h.name k f' hk
      exact ⟨e, hused.mpr (Or.inr hu), (hcr.foldedName_old hf hw hu).trans hname⟩
  · have hmem := mem_freeClusters.mpr ⟨hcr.data, hcr.free⟩
    rw [freeClusters_create hcr, Finset.card_erase_of_mem hmem, ← h.blocks]
    rfl
  · have hmem : s ∈ freeSlots fs root v := mem_freeSlots.mpr ⟨⟨hcr.mem, hcr.index⟩, hcr.slotFree⟩
    rw [freeSlots_create hf hw hcr hstr hv, Finset.card_erase_of_mem hmem, ← h.entries]
    rfl

/-- A deleted file gives back its blocks and its entry. -/
theorem Holds.delete (hf : fs.Ok) (h : Holds fs root σ v) {s : Slot}
    (hdel : Deleted fs root name v v' L s) :
    ∃ f, σ.file (toShort name) = some f ∧ Holds fs root (σ.removed (toShort name) f) v' := by
  obtain ⟨own, hw⟩ := h.wf
  have hused {e : Slot} := hdel.used_iff (e := e) hf hw
  have hname := (nameMatches_iff s).mp ((hw.findEntry_iff hf).mp hdel.found).2.1
  obtain ⟨f, K, hs⟩ := h.entry s hdel.used
  obtain rfl := hs.stored.chain.unique hf hdel.chain
  have hfile := hs.file
  rw [hname] at hfile
  refine ⟨f, hfile, ?_⟩
  refine { wf := ⟨_, hw.delete hf hdel⟩, distinct := h.distinct.delete hf hw hdel, entry := ?_
           name := ?_, blocks := ?_, entries := ?_ }
  · intro e hu
    obtain ⟨hes, hu0⟩ := hused.mp hu
    obtain ⟨f', L', he⟩ := h.entry e hu0
    have hsame := (hdel.others hf hw).foldedName hu0 hes
    have hne : foldedName fs v e ≠ toShort name := by
      rw [← hname]
      exact fun heq => hes (h.distinct e s hu0 hdel.used heq)
    refine ⟨f', L', ?_, ?_, ?_, he.small⟩
    · rw [hsame, Store.removed_file, if_neg hne]
      exact he.file
    · rw [(hdel.others hf hw).startOf hu0 hes]
      apply he.stored.congr hf
      · intro x hx
        rw [hdel.fat, if_neg (h.apart hf hu0 hdel.used hes he hs x hx)]
      · intro x hx
        apply hdel.put.away hf (hw.root_isData hdel.used.1) (he.stored.chain.isData hx)
        rintro rfl
        exact hw.apartRoot _ (hw.starts e hu0) L' he.stored.chain _ hx hdel.used.1
    · rw [((hdel.others hf hw).entry hu0.1 hu0.2.1 hes).2.2.2]
      exact he.size
  · intro k f' hk
    rw [Store.removed_file] at hk
    by_cases hkn : k = toShort name
    · rw [if_pos hkn] at hk
      exact nomatch hk
    · rw [if_neg hkn] at hk
      obtain ⟨e, hu, hek⟩ := h.name k f' hk
      have hes : e ≠ s := by
        rintro rfl
        exact hkn (hek.symm.trans hname)
      exact ⟨e, hused.mpr ⟨hes, hu⟩, ((hdel.others hf hw).foldedName hu hes).trans hek⟩
  · rw [card_freeClusters_delete hf hdel, ← h.blocks, ← hs.stored.blocks]
    rfl
  · have hnot : s ∉ freeSlots fs root v :=
      fun hm => not_used_of_free (mem_freeSlots.mp hm).2 hdel.used
    rw [freeSlots_delete hf hw hdel, Finset.card_insert_of_notMem hnot, ← h.entries]
    rfl

end Volume

end SukiOS.Fat32
