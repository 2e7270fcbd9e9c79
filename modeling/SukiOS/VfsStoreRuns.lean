import SukiOS.VfsFile
import SukiOS.VfsStore

/-! Each call of the file layer answers as the store does, and so does every run of calls that the
store permits. -/
namespace SukiOS.Fat32
open ByteMemory LinkedChain Services FileStore

/-! ### Descriptors -/

section Descriptors
variable {fs : Fs} {root : List ℕ} {own : Set ℕ} {σ σ' : Store (List Byte) Byte} {s s' : Vfs}
    {v v' : Vol}
  {fd i : ℕ} {d d' : Fd} {h h' : Cursor (List Byte)} {f f' : FileState Byte} {e : Slot}
  {path : List Byte}

theorem firstFreeFd_eq {α : Type} {fds : ℕ → Option Fd} {handle : ℕ → Option α}
    (hsame : ∀ i, fds i = none ↔ handle i = none) (n : ℕ) : ∀ i,
    firstFreeFd fds i n = firstFree handle i n := by
  induction n with
  | zero => exact fun i => rfl
  | succ n ih =>
    intro i
    have hi : (fds i).isNone = (handle i).isNone := by
      rw [Bool.eq_iff_iff, Option.isNone_iff_eq_none, Option.isNone_iff_eq_none]
      exact hsame i
    rw [firstFreeFd, firstFree, hi, ih]

/-- A descriptor is closed in both, or open on the same file. -/
theorem Represents.cases (hr : Represents fs root σ s) (fd : ℕ) :
    (s.fds fd = none ∧ σ.at fd = none) ∨ ∃ d h f e, s.fds fd = some d ∧ σ.handle fd = some h ∧
      σ.at fd = some (h, f) ∧ OpenedAs fs root σ s.vol d h e f := by
  cases hd : s.fds fd with
  | none => exact Or.inl ⟨rfl, hr.ok.at_eq_none.mpr ((hr.closed fd).mp hd)⟩
  | some d =>
    cases hh : σ.handle fd with
    | none => exact nomatch hd.symm.trans ((hr.closed fd).mpr hh)
    | some h =>
      obtain ⟨e, f, ho⟩ := hr.opened fd d h hd hh
      exact Or.inr ⟨d, h, f, e, rfl, rfl, Store.at_eq_some.mpr ⟨hh, ho.file⟩, ho⟩

/-- A call through a descriptor: its file may change, and the descriptor; the other descriptors of
the file keep the size they have. -/
theorem Represents.put (hr : Represents fs root σ s) (ho : OpenedAs fs root σ s.vol d h e f)
    {o : Option (Cursor (List Byte))} {od : Option Fd} (hdir : SameEntries fs root s.vol v')
    (hholds : Holds fs root (σ.setFile h.name (some f')) v')
    (hok : ((σ.setFile h.name (some f')).setHandle fd o).Ok) (hnone : od = none ↔ o = none)
    (hself : ∀ d' h', od = some d' → o = some h' → h'.name = h.name ∧
      d'.node.file.startCluster = d.node.file.startCluster ∧ d'.pos = h'.pos ∧
      d'.node.file.size = f'.content.length ∧
      (f'.saved = f'.content.length → d'.node.size = f'.content.length))
    (hother : ∀ i h', i ≠ fd → σ.handle i = some h' → h'.name = h.name →
      f'.content.length = f.content.length ∧
        (f'.saved = f'.content.length → f.saved = f.content.length)) :
    Represents fs root ((σ.setFile h.name (some f')).setHandle fd o)
      { vol := v', fds := setFd s.fds fd od } := by
  have hslot (e : Slot) (hu : Used fs s.vol root e) : Used fs v' root e ∧
      foldedName fs v' e = foldedName fs s.vol e ∧ startOf fs v' e = startOf fs s.vol e :=
    ⟨hdir.used.mpr hu, hdir.foldedName hu.1 hu.2.1, hdir.startOf hu.1 hu.2.1⟩
  refine { ok := hok, holds := ⟨hholds.wf, hholds.distinct, ?_, hholds.name, hholds.blocks,
            hholds.entries⟩, closed := ?_, opened := ?_ }
  · intro e hu
    obtain ⟨g, L, hg⟩ := hholds.entry e hu
    exact ⟨g, L, hg.file, hg.stored, hg.size, hg.small⟩
  · intro i
    rw [Store.setHandle_handle, Store.setFile_handle]
    show Function.update s.fds fd od i = none ↔ _
    rw [Function.update_apply]
    by_cases hif : i = fd
    · rw [if_pos hif, if_pos hif, hnone]
    · rw [if_neg hif, if_neg hif]
      exact hr.closed i
  · intro i di hi hdi hhi
    rw [Store.setHandle_handle, Store.setFile_handle] at hhi
    have hdi : Function.update s.fds fd od i = some di := hdi
    rw [Function.update_apply] at hdi
    by_cases hif : i = fd
    · rw [if_pos hif] at hdi hhi
      obtain ⟨hname, hstart, hpos, hsize, hnode⟩ := hself di hi hdi hhi
      obtain ⟨hu, hfold, hst⟩ := hslot e ho.used
      refine ⟨e, f', hu, hfold.trans (ho.name.trans hname.symm), ?_, ?_, hpos, hsize, hnode⟩
      · rw [hstart, hst]
        exact ho.start
      · rw [Store.setHandle_file, Store.setFile_file, if_pos hname]
    · rw [if_neg hif] at hdi hhi
      obtain ⟨ei, g, hoi⟩ := hr.opened i di hi hdi hhi
      obtain ⟨hu, hfold, hst⟩ := hslot ei hoi.used
      by_cases hname : hi.name = h.name
      · -- another descriptor of the same file
        have hg := hoi.file
        rw [hname, ho.file] at hg
        obtain rfl := Option.some.inj hg
        obtain ⟨hlen, hsaved⟩ := hother i hi hif hhi hname
        refine ⟨ei, f', hu, hfold.trans hoi.name, hoi.start.trans hst.symm, ?_, hoi.pos, ?_, ?_⟩
        · rw [Store.setHandle_file, Store.setFile_file, if_pos hname]
        · rw [hlen]
          exact hoi.size
        · intro hsv
          rw [hlen]
          exact hoi.nodeSize (hsaved hsv)
      · refine ⟨ei, g, hu, hfold.trans hoi.name, hoi.start.trans hst.symm, ?_, hoi.pos, hoi.size,
          hoi.nodeSize⟩
        rw [Store.setHandle_file, Store.setFile_file, if_neg hname]
        exact hoi.file

/-- The size of the handle and the file of the entry agree. -/
theorem Represents.entry (hr : Represents fs root σ s) (ho : OpenedAs fs root σ s.vol d h e f) :
    ∃ L, EntryHolds fs σ s.vol e f L := by
  obtain ⟨g, L, hg⟩ := hr.holds.entry e ho.used
  have hfile := hg.file
  rw [ho.name, ho.file] at hfile
  obtain rfl := Option.some.inj hfile
  exact ⟨L, hg⟩

theorem advance_eq {pos n : ℕ} (h : pos + n < 2^32) : advance pos n = pos + n := by
  unfold advance
  by_cases hn : n = 0
  · subst hn
    exact if_neg (by omega)
  · rw [if_pos (by omega), Int.toNat_natCast, Nat.mod_eq_of_lt h]

/-- The bytes that a read returns are those of the file. -/
theorem read_stored (hf : fs.Ok) {c : ℕ} {L : List ℕ} (hs : StoredAt fs v c L f) {file : File}
    (hstart : file.startCluster = c) (hsize : file.size = f.content.length) {pos : ℕ} (count : ℕ)
    (hin : pos + count ≤ f.content.length) :
    (fat32Read fs v (fat32Seek fs v file pos) count).bytes = (f.content.drop pos).take count := by
  by_cases hcount : count = 0
  · subst hcount
    exact List.take_zero.symm
  have hfits := hs.fits
  have hmin : min pos file.size = pos := by omega
  have hchain : FatChain fs v file.startCluster L := by
    rcases hs.chain with ⟨-, rfl⟩ | ⟨-, hchain⟩
    · rw [List.length_nil, Nat.zero_mul] at hfits
      omega
    · rw [hstart]
      exact hchain
  have hbytes := (read_inside hf hchain pos count (by omega)).1
  rw [hmin, Nat.min_eq_left (by omega)] at hbytes
  rw [hbytes]
  apply List.ext_getElem
  · rw [List.length_map, List.length_range, List.length_take, List.length_drop]
    omega
  · intro i h1 h2
    rw [List.length_map, List.length_range] at h1
    rw [List.getElem_map, List.getElem_range, List.getElem_take, List.getElem_drop,
      hs.bytes (pos + i) (by omega), List.getD_eq_getElem?_getD,
        List.getElem?_eq_getElem (by omega),
      Option.getD_some]

theorem toInt32_small {n : ℕ} (h : n < 2^31) : toInt32 n = n := (toInt32_eq_iff n).mpr h

end Descriptors

/-! ### The calls -/

section Calls
variable {fs : Fs} {root : List ℕ} {σ : Store (List Byte) Byte} {s : Vfs} {fd : ℕ}

/-- The call answers as the store does, and leaves a state that stands for the new store. -/
def AnswersAs (fs : Fs) (root : List ℕ) (σ : Store (List Byte) Byte) (s : Vfs) (c : FileCall) :
    Prop :=
  ∃ s', fileCall fs s c = some (s', (σ.call maxFds c.abstract).2) ∧
    Represents fs root (σ.call maxFds c.abstract).1 s'

theorem answers_read (hf : fs.Ok) (hr : Represents fs root σ s) {count : ℕ}
    (ha : σ.Allows fs.clusterSize (.read fd count)) : AnswersAs fs root σ s (.read fd count) := by
  have hok : (σ.read fd count).1.Ok := hr.ok.read ha
  show ∃ s', some ((vfsRead fs s fd count).state,
      (⟨(vfsRead fs s fd count).ret, (vfsRead fs s fd count).bytes⟩ : Answer Byte)) =
    some (s', (σ.read fd count).2) ∧ Represents fs root (σ.read fd count).1 s'
  unfold vfsRead
  unfold Store.read at hok ⊢
  rcases hr.cases fd with ⟨hd, hat⟩ | ⟨d, h, f, e, hd, -, hat, ho⟩
  · rw [hd, hat]
    exact ⟨s, rfl, hr⟩
  · obtain ⟨hsmall, hin⟩ := ha
    have hin := hin h f hat
    obtain ⟨L, hent⟩ := hr.entry ho
    rw [hat] at hok
    rw [hd, hat]
    dsimp only at hok ⊢
    have hbytes := read_stored hf hent.stored ho.start ho.size count (ho.pos ▸ hin)
    have hlen : ((f.content.drop h.pos).take count).length = count := by
      rw [List.length_take, List.length_drop]
      omega
    rw [ho.pos] at hbytes ⊢
    have hret : (fat32Read fs s.vol (fat32Seek fs s.vol d.node.file h.pos) count).ret = count := by
      show toInt32 (fat32Read fs s.vol _ count).bytes.length = count
      rw [hbytes, hlen]
      exact toInt32_small hsmall
    have hsm := hent.small
    rw [hret, hbytes, hlen]
    refine ⟨_, rfl, ?_⟩
    have hself := Store.setFile_self ho.file
    rw [hlen, ← hself] at hok
    rw [← hself]
    refine hr.put ho (SameEntries.of_read fun _ _ => rfl) ?_ hok
      ⟨(fun hn => nomatch hn), (fun hn => nomatch hn)⟩ ?_ ?_
    · rw [hself]
      exact hr.holds
    · intro d' h' hd' hh'
      rw [← Option.some.inj hd', ← Option.some.inj hh']
      exact ⟨rfl, rfl, advance_eq (by omega), ho.size, ho.nodeSize⟩
    · exact fun _ _ _ _ _ => ⟨rfl, fun hsv => hsv⟩

/-- What a write of a careful program does. -/
theorem Represents.written (hf : fs.Ok) (hr : Represents fs root σ s) {src : List Byte} {d : Fd}
    {h : Cursor (List Byte)} {f : FileState Byte} {e : Slot}
    (ha : σ.Allows fs.clusterSize (.write fd src)) (hat : σ.at fd = some (h, f))
    (ho : OpenedAs fs root σ s.vol d h e f) :
    ∃ L, EntryHolds fs σ s.vol e f L ∧ h.pos + src.length ≤ L.length * fs.clusterSize ∧
      h.pos + src.length < 2^32 ∧ WrittenAt fs s.vol d.node.file L h.pos src
        (fat32Write fs s.vol (fat32Seek fs s.vol d.node.file h.pos) src) := by
  obtain ⟨L, hent⟩ := hr.entry ho
  have hin := ha.2 h f hat
  have hpos := hr.ok.pos_le hat
  have hfits := hent.stored.fits
  have hblocks := hent.stored.blocks
  have hlt := hf.clusterSize_lt
  have hsm := hent.small
  have hsize := ho.size
  have hfile : FileChain fs s.vol d.node.file.startCluster L := ho.start ▸ hent.stored.chain
  have hL : f.blocks ≠ 0 → L ≠ [] := by
    rintro hne rfl
    exact hne hblocks
  refine ⟨L, hent, ?_, ?_, write_within hf hfile (by omega) (by omega) ?_⟩
  · rcases hin with hin | ⟨hin, hne, -⟩
    · omega
    · exact hin.trans (Nat.le_mul_of_pos_left _ (List.length_pos_iff.mpr (hL hne)))
  · rcases hin with hin | ⟨hin, -⟩ <;> omega
  · rcases hin with hin | ⟨hin, hne, -⟩
    · exact Or.inl (by omega)
    · exact Or.inr ⟨hin, hL hne⟩

theorem answers_write (hf : fs.Ok) (hr : Represents fs root σ s) {src : List Byte}
    (ha : σ.Allows fs.clusterSize (.write fd src)) : AnswersAs fs root σ s (.write fd src) := by
  have hok : (σ.write fd src).1.Ok := hr.ok.write ha
  show ∃ s', some ((vfsWrite fs s fd src).state, (⟨(vfsWrite fs s fd src).ret, []⟩ : Answer Byte)) =
    some (s', (σ.write fd src).2) ∧ Represents fs root (σ.write fd src).1 s'
  unfold vfsWrite
  unfold Store.write at hok ⊢
  rcases hr.cases fd with ⟨hd, hat⟩ | ⟨d, h, f, e, hd, hh, hat, ho⟩
  · rw [hd, hat]
    exact ⟨s, rfl, hr⟩
  · obtain ⟨L, hent, hroom, hend, hw⟩ := hr.written hf ha hat ho
    have hpos := hr.ok.pos_le hat
    have hsaved := hr.ok.saved_le _ f ho.file
    have hlen := length_overwrite src hpos
    rw [hat] at hok
    rw [hd, hat]
    dsimp only at hok ⊢
    obtain ⟨hdir, hholds⟩ := hr.holds.write hf ho.used hent hw.put hpos hroom hend
    rw [ho.name] at hholds
    have hret := hw.ret
    rw [toInt32_small ha.1] at hret
    rw [ho.pos, hret]
    refine ⟨_, rfl, hr.put ho hdir hholds hok
      ⟨(fun hn => nomatch hn), (fun hn => nomatch hn)⟩ ?_ ?_⟩
    · intro d' h' hd' hh'
      rw [← Option.some.inj hd', ← Option.some.inj hh']
      refine ⟨rfl, hw.start, advance_eq hend, ?_, fun hsv => ?_⟩
      · dsimp only
        rw [hw.size, hlen, ho.size]
      · dsimp only at hsv ⊢
        have hnode := ho.nodeSize (by omega)
        omega
    · -- another descriptor of the file: then the file does not become longer
      intro i h' hif hhi hname
      dsimp only
      rcases ha.2 h f hat with hin | ⟨-, -, hsole⟩
      · have hsame : (overwrite f.content h.pos src).length = f.content.length := by omega
        exact ⟨hsame, fun hsv => hsv.trans hsame⟩
      · exact absurd (hsole i h' hhi hname) hif

theorem answers_close (hf : fs.Ok) (hr : Represents fs root σ s) (now : Stamp) :
    AnswersAs fs root σ s (.close fd now) := by
  have hok : (σ.close fd).1.Ok := hr.ok.call (b := 0) (c := .close fd) (n := 0) trivial
  show ∃ s', (vfsClose fs s fd now).map (fun r => (r.1, (⟨r.2, []⟩ : Answer Byte))) =
    some (s', (σ.close fd).2) ∧ Represents fs root (σ.close fd).1 s'
  unfold vfsClose
  unfold Store.close at hok ⊢
  rcases hr.cases fd with ⟨hd, hat⟩ | ⟨d, h, f, e, hd, hh, hat, ho⟩
  · rw [hd, hat]
    exact ⟨s, rfl, hr⟩
  · obtain ⟨L, hent⟩ := hr.entry ho
    obtain ⟨own, hw⟩ := hr.holds.wf
    obtain ⟨v', hv', -⟩ := close_same hf hw d.node.file now
    obtain ⟨hdir, hholds⟩ := hr.holds.close hf ho.used hent ho.start ho.size
      (fun k f => hr.ok.saved_le k f) hv'
    rw [ho.name] at hholds
    rw [hat] at hok
    rw [hd, hat]
    dsimp only at hok ⊢
    rw [hv']
    refine ⟨_, rfl, hr.put ho hdir hholds hok ⟨fun _ => rfl, fun _ => rfl⟩
      (fun d' h' hd' => nomatch hd') ?_⟩
    intro i h' hif hhi hname
    refine ⟨rfl, fun _ => ?_⟩
    -- a file with two descriptors has its length on record
    by_contra hne
    exact hif (hr.ok.sole _ f ho.file hne i fd h' h hhi hh hname rfl)

theorem answers_size (hr : Represents fs root σ s) (ha : σ.Allows fs.clusterSize (.size fd)) :
    AnswersAs fs root σ s (.getSize fd) := by
  show ∃ s', some (s, (⟨vfsGetSize s fd, []⟩ : Answer Byte)) = some (s', (σ.size fd).2) ∧
    Represents fs root (σ.size fd).1 s'
  unfold vfsGetSize Store.size
  rcases hr.cases fd with ⟨hd, hat⟩ | ⟨d, h, f, e, hd, -, hat, ho⟩
  · rw [hd, hat]
    exact ⟨s, rfl, hr⟩
  · rw [hd, hat]
    dsimp only
    rw [ho.nodeSize (ha h f hat)]
    exact ⟨s, rfl, hr⟩

/-! Names -/

/-- The search for a name ends. -/
theorem resolvePath_returns (hf : fs.Ok) {v : Vol} {own : Set ℕ} (hw : Wf fs root own v)
    (path : List Byte) : ∃ r, resolvePath fs v path = some r := by
  have hfrom (n : ℕ) : ∀ node p, ∃ r, resolveFrom fs v n node p = some r := by
    induction n with
    | zero => exact fun node p => ⟨_, rfl⟩
    | succ n ih =>
      intro node p
      unfold resolveFrom
      by_cases hp : p = []
      · rw [if_pos hp]
        exact ⟨_, rfl⟩
      · rw [if_neg hp]
        cases node with
        | file m => exact ⟨_, rfl⟩
        | root =>
          dsimp only
          rcases open_cases hf hw (takeToken 255 p).1 with hn | ⟨e, -, -, he⟩
          · rw [hn]
            exact ⟨_, rfl⟩
          · rw [he]
            exact ih _ _
  unfold resolvePath
  cases path with
  | nil => exact ⟨_, rfl⟩
  | cons c p =>
    dsimp only
    split
    · exact hfrom _ _ _
    · exact ⟨_, rfl⟩

theorem vfsOpen_returns (hf : fs.Ok) {own : Set ℕ} (hw : Wf fs root own s.vol) (path : List Byte) :
    ∃ r, vfsOpen fs s path = some r := by
  obtain ⟨r, hr⟩ := resolvePath_returns hf hw path
  unfold vfsOpen
  rw [hr]
  cases r with
  | none => exact ⟨_, rfl⟩
  | some node =>
    cases node with
    | root => exact ⟨_, rfl⟩
    | file m =>
      dsimp only [Option.bind_eq_bind, Option.bind_some]
      cases firstFreeFd s.fds 0 maxFds with
      | none => exact ⟨_, rfl⟩
      | some fd => exact ⟨_, rfl⟩

/-- The volume has a file with this name when the store has, and opening it gives its entry. -/
theorem Represents.open_cases (hf : fs.Ok) (hr : Represents fs root σ s) (tok : List Byte) :
    (fat32Open fs s.vol tok = some none ∧ σ.file (toShort tok) = none) ∨
    ∃ e f L, fat32Open fs s.vol tok = some (some (fileAt fs s.vol e)) ∧ Used fs s.vol root e ∧
      foldedName fs s.vol e = toShort tok ∧ EntryHolds fs σ s.vol e f L := by
  obtain ⟨own, hw⟩ := hr.holds.wf
  rcases Fat32.open_cases hf hw tok with hn | ⟨e, hfind, hu, he⟩
  · exact Or.inl ⟨hn, hr.holds.file_eq_none.mpr ((absent_iff hf hw).mp hn)⟩
  · obtain ⟨f, L, hent⟩ := hr.holds.entry e hu
    have hname := (nameMatches_iff e).mp ((hw.findEntry_iff hf).mp hfind).2.1
    exact Or.inr ⟨e, f, L, he, hu, hname, hent⟩

theorem openName_eq {path k : List Byte} (h : openName path = some k) :
    ∃ p tok, path = slash::p ∧ component p = some tok ∧ k = toShort tok := by
  unfold openName at h
  cases path with
  | nil => exact nomatch h
  | cons c p =>
    dsimp only at h
    split at h
    · next hc =>
      obtain ⟨tok, htok, rfl⟩ := Option.map_eq_some_iff.mp h
      exact ⟨p, tok, by rw [hc], htok, rfl⟩
    · exact nomatch h

theorem answers_open (hf : fs.Ok) (hr : Represents fs root σ s) {path : List Byte}
    (ha : σ.Allows fs.clusterSize (.open (openName path))) :
    AnswersAs fs root σ s (.open path) := by
  have hok : (σ.open maxFds (openName path)).1.Ok := hr.ok.open ha
  obtain ⟨own, hw⟩ := hr.holds.wf
  obtain ⟨r, hopen⟩ := vfsOpen_returns hf hw path
  show ∃ s', fileCall fs s (.open path) = some (s', (σ.open maxFds (openName path)).2) ∧
    Represents fs root (σ.open maxFds (openName path)).1 s'
  have hfree := firstFreeFd_eq hr.closed maxFds 0
  rw [fileCall, hopen]
  unfold Store.open at hok ⊢
  cases r with
  | none =>
    -- the store fails as well: otherwise the name would have been found
    split
    · next k fd hk hfd =>
      obtain ⟨k', hname, hmap⟩ := Option.bind_eq_some_iff.mp hk
      obtain ⟨f, hfile, rfl⟩ := Option.map_eq_some_iff.mp hmap
      obtain ⟨p, tok, rfl, htok, rfl⟩ := openName_eq hname
      rcases hr.open_cases hf tok with ⟨-, hnone⟩ | ⟨e, g, L, he, -⟩
      · exact absurd (hnone.symm.trans hfile) (Option.some_ne_none _).symm
      · have hyes := vfsOpen_iff.mpr ⟨p, tok, _, rfl, htok, he, hfree.trans hfd, rfl⟩
        exact absurd (Option.some.inj (hopen.symm.trans hyes)) (Option.some_ne_none _).symm
    · exact ⟨s, rfl, hr⟩
  | some r =>
    obtain ⟨s', fd⟩ := r
    obtain ⟨p, tok, g, rfl, htok, hfile, hfd, rfl⟩ := vfsOpen_iff.mp hopen
    rcases hr.open_cases hf tok with ⟨hnone, -⟩ | ⟨e, f, L, he, hu, hname, hent⟩
    · exact absurd (Option.some.inj (hnone.symm.trans hfile)) (Option.some_ne_none _).symm
    obtain rfl := Option.some.inj (Option.some.inj (he.symm.trans hfile))
    have hkey : openName (slash::p) = some (toShort tok) := by
      show (if slash = slash then (component p).map toShort else none) = _
      rw [if_pos rfl, htok]
      rfl
    have hk := hent.file
    rw [hname] at hk
    have hlook : (openName (slash::p)).bind (fun k => (σ.file k).map fun _ => k) =
        some (toShort tok) := by
      rw [hkey, Option.bind_some, hk]
      rfl
    rw [hlook, ← hfree, hfd] at hok ⊢
    refine ⟨_, rfl, { ok := hok, holds := ?_, closed := ?_, opened := ?_ }⟩
    · exact ⟨hr.holds.wf, hr.holds.distinct, fun e hu => by
        obtain ⟨f, L, he⟩ := hr.holds.entry e hu
        exact ⟨f, L, he.file, he.stored, he.size, he.small⟩, hr.holds.name, hr.holds.blocks,
        hr.holds.entries⟩
    · intro i
      rw [Store.setHandle_handle]
      show Function.update s.fds fd _ i = none ↔ _
      rw [Function.update_apply]
      by_cases hi : i = fd
      · rw [if_pos hi, if_pos hi]
        exact iff_of_false (Option.some_ne_none _) (Option.some_ne_none _)
      · rw [if_neg hi, if_neg hi]
        exact hr.closed i
    · intro i d h hd hh
      rw [Store.setHandle_handle] at hh
      have hd : Function.update s.fds fd _ i = some d := hd
      rw [Function.update_apply] at hd
      by_cases hi : i = fd
      · rw [if_pos hi] at hd hh
        rw [← Option.some.inj hd, ← Option.some.inj hh]
        -- the entry has the length of the file on record, so the new descriptor has that size
        have hsaved := ha (toShort tok) hkey f hk
        exact ⟨e, f, hu, hname, rfl, hk, rfl, hent.size.trans hsaved,
          fun _ => hent.size.trans hsaved⟩
      · rw [if_neg hi] at hd hh
        obtain ⟨e', f', ho⟩ := hr.opened i d h hd hh
        exact ⟨e', f', ho.used, ho.name, ho.start, ho.file, ho.pos, ho.size, ho.nodeSize⟩

/-- The descriptors stay as they are, and so do the entries of their files. -/
theorem Represents.keep {σ' : Store (List Byte) Byte} {v' : Vol} (hr : Represents fs root σ s)
    (hok : σ'.Ok) (hholds : Holds fs root σ' v') (hhandle : σ'.handle = σ.handle)
    (hkeep : ∀ i h e, σ.handle i = some h → Used fs s.vol root e → foldedName fs s.vol e = h.name →
      σ'.file h.name = σ.file h.name ∧ Used fs v' root e ∧
        foldedName fs v' e = foldedName fs s.vol e ∧ startOf fs v' e = startOf fs s.vol e) :
    Represents fs root σ' { s with vol := v' } where
  ok := hok
  holds := hholds
  closed := by
    intro i
    rw [hhandle]
    exact hr.closed i
  opened := by
    intro i d h hd hh
    rw [hhandle] at hh
    obtain ⟨e, f, ho⟩ := hr.opened i d h hd hh
    obtain ⟨hfile, hu, hname, hstart⟩ := hkeep i h e hh ho.used ho.name
    exact ⟨e, f, hu, hname.trans ho.name, ho.start.trans hstart.symm, hfile.trans ho.file, ho.pos,
      ho.size, ho.nodeSize⟩

theorem answers_create (hf : fs.Ok) (hr : Represents fs root σ s) {path : List Byte}
    (hstr : IsCString path) (hv : Visible path.tail) (now now' : Stamp)
    (ha : σ.Allows fs.clusterSize (.create (wholeName path))) :
    AnswersAs fs root σ s (.create path now now') := by
  have hok : (σ.create (wholeName path)).1.Ok := hr.ok.create ha
  show ∃ s', (vfsCreate fs s path now now').map (fun r => (r.1, (⟨r.2, []⟩ : Answer Byte))) =
    some (s', (σ.create (wholeName path)).2) ∧ Represents fs root (σ.create (wholeName path)).1 s'
  cases path with
  | nil => exact ⟨s, rfl, hr⟩
  | cons c p =>
    unfold vfsCreate
    dsimp only
    by_cases hc : c = slash
    · have hkey : wholeName (c::p) = some (toShort p) := if_pos hc
      rw [hkey] at hok ha ⊢
      rw [if_pos hc]
      have hnone := ha (toShort p) rfl
      have hp : IsCString p := fun d hd => hstr d (List.mem_cons_of_mem c hd)
      obtain ⟨own, hw⟩ := hr.holds.wf
      unfold fat32VfsCreate
      unfold Store.create at hok ⊢
      rcases create_cases hf hw p now with hn | ⟨slot, n, v1, hs, hcr⟩
      · -- the volume is full, and so is the store
        have hfull : σ.freeEntries = 0 ∨ σ.freeBlocks = 0 := by
          rw [hr.holds.entries, hr.holds.blocks, Finset.card_eq_zero, Finset.card_eq_zero]
          exact create_none hf hw hn
        dsimp only
        rw [if_pos hfull, hn]
        exact ⟨s, rfl, hr⟩
      · have hroom : ¬ (σ.freeEntries = 0 ∨ σ.freeBlocks = 0) := by
          rw [hr.holds.entries, hr.holds.blocks, Finset.card_eq_zero, Finset.card_eq_zero]
          have hslot : slot ∈ freeSlots fs root s.vol :=
            mem_freeSlots.mpr ⟨⟨hcr.mem, hcr.index⟩, hcr.slotFree⟩
          have hclu : n ∈ freeClusters fs s.vol := mem_freeClusters.mpr ⟨hcr.data, hcr.free⟩
          exact not_or.mpr ⟨Finset.ne_empty_of_mem hslot, Finset.ne_empty_of_mem hclu⟩
        dsimp only at hok ⊢
        rw [if_neg hroom] at hok ⊢
        obtain ⟨hholds, hent⟩ := hr.holds.create hf hp hv hnone hcr
        have hw1 := hw.create hf hcr hp
        obtain ⟨v2, hv2, -⟩ := close_same hf hw1 ⟨n, n, 0, 0⟩ now'
        -- the close that follows puts the length 0 on record, which is there already
        have hused : Used fs v1 root slot := (hcr.used_iff hf hw hp).mpr (Or.inl ⟨rfl, hv⟩)
        have hstart : (⟨n, n, 0, 0⟩ : File).startCluster = startOf fs v1 slot :=
          (hcr.entry hf hw).2.2.1.symm
        obtain ⟨hdir, hclosed⟩ := hholds.close hf hused hent hstart rfl
          (fun k f => hok.saved_le k f) hv2
        have hsame := Store.setFile_self hent.file
        have hclosed : Holds fs root ((σ.added (toShort p)).setFile (foldedName fs v1 slot)
          (some ⟨[], 0, 1⟩)) v2 := hclosed
        rw [hsame] at hclosed
        rw [hs]
        dsimp only [Option.bind_eq_bind, Option.bind_some]
        rw [hv2]
        refine ⟨_, rfl, hr.keep hok hclosed rfl ?_⟩
        intro i h e hh hu hname
        have hes : e ≠ slot := by
          rintro rfl
          exact not_used_of_free hcr.slotFree hu
        have hu1 : Used fs v1 root e := (hcr.used_iff hf hw hp).mpr (Or.inr hu)
        refine ⟨?_, hdir.used.mpr hu1, ?_, ?_⟩
        · rw [Store.added_file, if_neg]
          rw [← hname]
          exact hr.holds.file_eq_none.mp hnone e hu
        · rw [hdir.foldedName hu1.1 hu1.2.1]
          exact hcr.foldedName_old hf hw hu
        · rw [hdir.startOf hu1.1 hu1.2.1]
          exact (hcr.others hf hw).startOf hu hes
    · have hkey : wholeName (c::p) = none := if_neg hc
      rw [if_neg hc, hkey]
      exact ⟨s, rfl, hr⟩

theorem answers_delete (hf : fs.Ok) (hr : Represents fs root σ s) {path : List Byte}
    (ha : σ.Allows fs.clusterSize (.remove (wholeName path))) :
    AnswersAs fs root σ s (.delete path) := by
  have hok : (σ.remove (wholeName path)).1.Ok := hr.ok.remove ha
  show ∃ s', (vfsDelete fs s path).map (fun r => (r.1, (⟨r.2, []⟩ : Answer Byte))) =
    some (s', (σ.remove (wholeName path)).2) ∧ Represents fs root (σ.remove (wholeName path)).1 s'
  cases path with
  | nil => exact ⟨s, rfl, hr⟩
  | cons c p =>
    unfold vfsDelete
    dsimp only
    by_cases hc : c = slash
    · have hkey : wholeName (c::p) = some (toShort p) := if_pos hc
      rw [hkey] at hok ha ⊢
      rw [if_pos hc]
      obtain ⟨own, hw⟩ := hr.holds.wf
      unfold Store.remove at hok ⊢
      rcases delete_cases hf hw p with ⟨hn, hfind⟩ | ⟨slot, L, v', hs, hdel⟩
      · have hnone := hr.holds.file_eq_none.mpr
          ((absent_iff hf hw).mp (fat32Open_none_iff.mpr hfind))
        rw [hn, Option.bind_some, hnone]
        exact ⟨s, rfl, hr⟩
      · obtain ⟨f, hfile, hholds⟩ := hr.holds.delete hf hdel
        rw [Option.bind_some, hfile] at hok ⊢
        rw [hs]
        refine ⟨_, rfl, hr.keep hok hholds rfl ?_⟩
        intro i h e hh hu hname
        have hne := ha (toShort p) rfl i h hh
        have hslot := (nameMatches_iff slot).mp ((hw.findEntry_iff hf).mp hdel.found).2.1
        have hes : e ≠ slot := by
          rintro rfl
          exact hne (hname.symm.trans hslot)
        refine ⟨?_, (hdel.used_iff hf hw).mpr ⟨hes, hu⟩, (hdel.others hf hw).foldedName hu hes,
          (hdel.others hf hw).startOf hu hes⟩
        show (σ.removed (toShort p) f).file h.name = _
        rw [Store.removed_file, if_neg hne]
    · have hkey : wholeName (c::p) = none := if_neg hc
      rw [if_neg hc, hkey]
      exact ⟨s, rfl, hr⟩

end Calls

/-! ### Runs -/

section Runs
variable {fs : Fs} {root : List ℕ} {σ : Store (List Byte) Byte} {s : Vfs}

/-- The calls of a careful program. -/
def CarefulCall (fs : Fs) (σ : Store (List Byte) Byte) (c : FileCall) : Prop :=
  c.Named ∧ σ.Allows fs.clusterSize c.abstract

/-- A call of a careful program answers as the store does. -/
theorem implements_store (hf : fs.Ok) (root : List ℕ) :
    Implements (vfsService fs) (service (List Byte) Byte maxFds) FileCall.abstract
      (CarefulCall fs) (Represents fs root) := by
  intro σ s c hr hc
  obtain ⟨hname, ha⟩ := hc
  have hans : AnswersAs fs root σ s c := by
    cases c with
    | «open» path => exact answers_open hf hr ha
    | read fd count => exact answers_read hf hr ha
    | write fd src => exact answers_write hf hr ha
    | close fd now => exact answers_close hf hr now
    | getSize fd => exact answers_size hr ha
    | create path now now' => exact answers_create hf hr hname.1 hname.2 now now' ha
    | delete path => exact answers_delete hf hr ha
  obtain ⟨s', hcall, hr'⟩ := hans
  exact ⟨_, s', _, rfl, hcall, hr'⟩

/-- In every run of calls of a careful program, on any number of descriptors, `vfs.c` over `fat32.c`
returns what the store returns. -/
theorem vfs_run_answers (hf : fs.Ok) (hr : Represents fs root σ s) {calls : List FileCall}
    (hp : (service (List Byte) Byte maxFds).Permits FileCall.abstract (CarefulCall fs) σ calls) :
    ∃ σ' s' answers, (service (List Byte) Byte maxFds).run σ (calls.map FileCall.abstract) =
        some (σ', answers) ∧
      (vfsService fs).run s calls = some (s', answers) ∧ Represents fs root σ' s' :=
  (implements_store hf root).run hr hp

end Runs

/-! ### Mounted volumes -/

section Mounted
variable {fs : Fs} {root : List ℕ} {own : Set ℕ} {v : Vol}

/-- The sizes of the entries fit in their chains. -/
def SizesFit (fs : Fs) (root : List ℕ) (v : Vol) : Prop :=
  ∀ e, Used fs v root e → ∃ L, FileChain fs v (startOf fs v e) L ∧
    entSize (readCluster fs v e.1) e.2 ≤ L.length * fs.clusterSize

/-- What the entry holds when `L` are the clusters of its file. -/
def entryOf (fs : Fs) (v : Vol) (e : Slot) (L : List ℕ) : FileState Byte where
  content := (List.range (entSize (readCluster fs v e.1) e.2)).map (chainByte fs v L)
  saved := entSize (readCluster fs v e.1) e.2
  blocks := L.length

open Classical in
/-- The store of a volume without open files. -/
noncomputable def storeOf (fs : Fs) (root : List ℕ) (v : Vol) (hfit : SizesFit fs root v) :
    Store (List Byte) Byte where
  file k := if h : ∃ e, Used fs v root e ∧ foldedName fs v e = k then
      some (entryOf fs v h.choose (hfit h.choose h.choose_spec.1).choose)
    else none
  handle := fun _ => none
  freeBlocks := (freeClusters fs v).card
  freeEntries := (freeSlots fs root v).card

/-- Every well-formed volume stands for a store when no file is open. -/
theorem storeOf_represents (hw : Wf fs root own v) (hd : FoldedDistinct fs root v)
    (hfit : SizesFit fs root v) :
    Represents fs root (storeOf fs root v hfit) { vol := v, fds := fun _ => none } where
  ok := by
    refine ⟨(fun i h hi => nomatch hi), fun k f hk => ?_, fun k f _ _ i j h h' hi => nomatch hi⟩
    obtain ⟨h, hk⟩ := Option.dite_none_right_eq_some.mp hk
    rw [← Option.some.inj hk, entryOf, List.length_map, List.length_range]
  holds := by
    refine { wf := ⟨own, hw⟩, distinct := hd, entry := fun e hu => ?_, name := fun k f hk => ?_
             blocks := rfl, entries := rfl }
    · have hex : ∃ d, Used fs v root d ∧ foldedName fs v d = foldedName fs v e := ⟨e, hu, rfl⟩
      have hsame : hex.choose = e := hd _ e hex.choose_spec.1 hu hex.choose_spec.2
      have hfile : (storeOf fs root v hfit).file (foldedName fs v e) =
          some (entryOf fs v hex.choose (hfit hex.choose hex.choose_spec.1).choose) := dif_pos hex
      obtain ⟨hchain, hsize⟩ := (hfit hex.choose hex.choose_spec.1).choose_spec
      generalize (hfit hex.choose hex.choose_spec.1).choose = L at hfile hchain hsize
      rw [hsame] at hfile hchain hsize
      have hlen : (entryOf fs v e L).content.length = entSize (readCluster fs v e.1) e.2 := by
        rw [entryOf, List.length_map, List.length_range]
      refine ⟨_, L, hfile, ⟨hchain, rfl, hlen.trans_le hsize, fun p hp => ?_⟩, rfl, ?_⟩
      · rw [hlen] at hp
        rw [entryOf, List.getD_eq_getElem?_getD, List.getElem?_map, List.getElem?_range hp]
        rfl
      · rw [hlen]
        exact load_lt _ _ _
    · obtain ⟨⟨e, hu, he⟩, -⟩ := Option.dite_none_right_eq_some.mp hk
      exact ⟨e, hu, he⟩
  closed := fun i => ⟨fun _ => rfl, fun _ => rfl⟩
  opened := fun i d h hd => nomatch hd

end Mounted

/-! ### A run on a small volume -/

/-- The sample volume has 9 free clusters and 16 free entries. -/
def emptyStore : Store (List Byte) Byte where
  file := fun _ => none
  handle := fun _ => none
  freeBlocks := 9
  freeEntries := 16

theorem emptyStore_represents : Represents sampleFs [2] emptyStore sampleVfs where
  ok := ⟨(fun i h hi => nomatch hi), (fun k f hk => nomatch hk), (fun k f hk => nomatch hk)⟩
  holds := by
    refine ⟨⟨∅, sample_wf⟩, fun e _ he => absurd he (sample_unused e),
      fun e he => absurd he (sample_unused e), (fun k f hk => nomatch hk), ?_, ?_⟩
    · decide +kernel
    · decide +kernel
  closed := fun i => ⟨fun _ => rfl, fun _ => rfl⟩
  opened := fun i d h hd => nomatch hd

/-- Create `A`, open it, write two bytes, close it, open it again and read them. -/
def sampleCalls : List FileCall :=
  [.create pathA ⟨0, 0⟩ ⟨0, 0⟩, .open pathA, .write 0 [7#8, 8#8], .close 0 ⟨0, 0⟩, .open pathA,
    .read 0 2]

theorem sampleCalls_permitted : (service (List Byte) Byte maxFds).Permits FileCall.abstract
    (CarefulCall sampleFs) emptyStore sampleCalls := by
  have hname : openName pathA = some (toShort [65#8]) := by decide
  simp only [sampleCalls, service_permits_cons]
  refine ⟨⟨⟨by decide, by unfold Visible; decide⟩, fun k _ => rfl⟩, ⟨trivial, ?_⟩,
    ⟨trivial, by decide, ?_⟩, ⟨trivial, trivial⟩, ⟨trivial, ?_⟩, ⟨trivial, by decide, ?_⟩, trivial⟩
  · intro k hk f hf
    obtain rfl := Option.some.inj (hname.symm.trans hk)
    obtain rfl : (⟨[], 0, 1⟩ : FileState Byte) = f := Option.some.inj hf
    rfl
  · intro h f hat
    obtain ⟨rfl, rfl⟩ : (⟨toShort [65#8], 0⟩ : Cursor (List Byte)) = h ∧
      (⟨[], 0, 1⟩ : FileState Byte) = f := Prod.mk.inj (Option.some.inj hat)
    refine Or.inr ⟨by decide, by decide, fun i h' hi _ => ?_⟩
    -- the other handles are closed
    have hi : (if i = 0 then some (⟨toShort [65#8], 0⟩ : Cursor (List Byte)) else none) =
      some h' := by
      have hall := Function.update_apply (fun _ : ℕ => (none : Option (Cursor (List Byte)))) 0
        (some ⟨toShort [65#8], 0⟩) i
      exact hall.symm.trans hi
    by_contra hne
    rw [if_neg hne] at hi
    exact nomatch hi
  · intro k hk f hf
    obtain rfl := Option.some.inj (hname.symm.trans hk)
    obtain rfl : (⟨[7#8, 8#8], 2, 1⟩ : FileState Byte) = f := Option.some.inj hf
    rfl
  · intro h f hat
    obtain ⟨rfl, rfl⟩ : (⟨toShort [65#8], 0⟩ : Cursor (List Byte)) = h ∧
      (⟨[7#8, 8#8], 2, 1⟩ : FileState Byte) = f := Prod.mk.inj (Option.some.inj hat)
    decide

theorem vfs_run_answers_sample : ∃ s', (vfsService sampleFs).run sampleVfs sampleCalls =
    some (s', [⟨0, []⟩, ⟨0, []⟩, ⟨2, []⟩, ⟨0, []⟩, ⟨0, []⟩, ⟨2, [7#8, 8#8]⟩]) := by
  obtain ⟨σ', s', answers, hrun, hrun', -⟩ :=
    vfs_run_answers sample_ok emptyStore_represents sampleCalls_permitted
  have hanswers : answers = [⟨0, []⟩, ⟨0, []⟩, ⟨2, []⟩, ⟨0, []⟩, ⟨0, []⟩, ⟨2, [7#8, 8#8]⟩] :=
    (Prod.mk.inj (Option.some.inj hrun)).2.symm
  exact ⟨s', hanswers ▸ hrun'⟩

end SukiOS.Fat32
