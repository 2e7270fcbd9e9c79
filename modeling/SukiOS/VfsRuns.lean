import SukiOS.VfsPath

/-! Runs of the file layer with any number of descriptors, and what is remembered beside the state:
the entry each descriptor was opened on, whether its file was deleted since, and whether something
was written through it. -/
namespace SukiOS.Fat32
open ByteMemory Transition

structure Session where
  vfs : Vfs
  slot : ℕ → Slot
  dead : ℕ → Bool
  wrote : ℕ → Bool

inductive VfsOp where
  | open (path : List Byte)
  | read (fd count : ℕ)
  | write (fd : ℕ) (src : List Byte)
  | close (fd : ℕ) (now : Stamp)
  | create (path : List Byte) (now now' : Stamp)
  | delete (path : List Byte)

/-- The entry that a search of the root for the name finds. -/
def slotOf (fs : Fs) (v : Vol) (name : List Byte) : Slot :=
  match findEntry fs v (nameMatches (toShort name)) with
  | some (some e) => e
  | _ => (0, 0)

def sessionApply (fs : Fs) (s : Session) : VfsOp → Option Session
  | .open path => (vfsOpen fs s.vfs path).map (fun r =>
      match r with
      | none => s
      | some (w, fd) =>
        { vfs := w, slot := Function.update s.slot fd (slotOf fs s.vfs.vol
            ((component path.tail).getD []))
          dead := Function.update s.dead fd false, wrote := Function.update s.wrote fd false })
  | .read fd count => some { s with vfs := (vfsRead fs s.vfs fd count).state }
  | .write fd src => some { s with
      vfs := (vfsWrite fs s.vfs fd src).state
      wrote := Function.update s.wrote fd
        (s.wrote fd || decide (0 < (vfsWrite fs s.vfs fd src).ret)) }
  | .close fd now => (vfsClose fs s.vfs fd now).map (fun r => { s with vfs := r.1 })
  | .create path now now' => (vfsCreate fs s.vfs path now now').map (fun r => { s with vfs := r.1 })
  | .delete path => (vfsDelete fs s.vfs path).map (fun r =>
      if r.2 = 0 then
        { s with
          vfs := r.1
          dead := fun fd => s.dead fd || s.slot fd == slotOf fs s.vfs.vol path.tail }
      else { s with vfs := r.1 })

def VfsOp.PathOk : VfsOp → Prop
  | .open path => IsCString path
  | .create path _ _ => IsCString path
  | .delete path => IsCString path
  | _ => True

def session (fs : Fs) (v0 : Vol) : System Session VfsOp where
  init s := s.vfs = { vol := v0, fds := fun _ => none }
  step s op s' := op.PathOk ∧ sessionApply fs s op = some s'

/-! ### The condition on the steps -/

/-- A write through a descriptor whose file was deleted: the first cluster of the file is free, and
the write ends in it. -/
def StaleWrite (fs : Fs) (v : Vol) (d : Fd) (src : List Byte) : Prop :=
  fs.IsData d.node.file.startCluster ∧ v.fatGet d.node.file.startCluster &&& 0x0FFFFFFF = 0 ∧
    min d.pos d.node.file.size + src.length ≤ fs.clusterSize

/-- Nothing is written to a file without clusters or to clusters that were given to another file,
and a deleted file is not closed while another one has its first cluster. -/
def Careful (fs : Fs) (root : List ℕ) (s : Session) : VfsOp → Prop
  | .write fd src => src = [] ∨ ∀ d, s.vfs.fds fd = some d →
      if s.dead fd then StaleWrite fs s.vfs.vol d src else d.node.file.startCluster ≠ 0
  | .close fd _ => ∀ d, s.vfs.fds fd = some d → s.dead fd = true →
      ∀ e, Used fs s.vfs.vol root e → startOf fs s.vfs.vol e ≠ d.node.file.startCluster
  | _ => True

/-- The files are apart, and the descriptors whose files were not deleted have the first clusters
of their entries. -/
structure SessionInv (fs : Fs) (root : List ℕ) (s : Session) : Prop where
  wf : ∃ own, Wf fs root own s.vfs.vol
  live : ∀ fd d, s.vfs.fds fd = some d → s.dead fd = false →
    Used fs s.vfs.vol root (s.slot fd) ∧
      startOf fs s.vfs.vol (s.slot fd) = d.node.file.startCluster

/-! ### Writing through a stale descriptor -/

section Stale
variable {fs : Fs} {v v' : Vol} {root : List ℕ} {own : Set ℕ} {c o off : ℕ} {src : List Byte}
  {file : File}

/-- A write that ends in the cluster `c`. -/
theorem writeLoop_cluster (hf : fs.Ok) (n : ℕ) : ∀ (src : List Byte) (v : Vol) (o : ℕ),
    o + src.length ≤ fs.clusterSize → (writeLoop fs n v src c o).vol.fat = v.fat ∧
    ∀ a, (∀ k, k < fs.sectorsPerCluster → a / 512 ≠ sectorOf fs c k) →
      (writeLoop fs n v src c o).vol.disk a = v.disk a := by
  have hlt := hf.clusterSize_lt
  induction n with
  | zero => exact fun src v o _ => ⟨rfl, fun _ _ => rfl⟩
  | succ n ih =>
    intro src v o ho
    unfold writeLoop
    by_cases hsrc : src = []
    · rw [if_pos hsrc]
      exact ⟨rfl, fun _ _ => rfl⟩
    rw [if_neg hsrc]
    have hpos : 0 < src.length := List.length_pos_iff.mpr hsrc
    rw [if_neg (by omega)]
    dsimp only
    obtain ⟨chunk, hchunk, -, hle, -⟩ := turn_chunk o hpos.ne'
    rw [hchunk]
    have hmod : (o + chunk) % 2^32 = o + chunk := Nat.mod_eq_of_lt (by omega)
    rw [hmod]
    have hrest (w : Vol) := ih (src.drop chunk) w (o + chunk) (by rw [List.length_drop]; omega)
    refine ⟨(hrest _).1, fun a ha => ((hrest _).2 a ha).trans ?_⟩
    exact if_neg (ha _ (Fs.sector_lt (by omega)))

/-- Seeking in the first cluster does not look at the table. -/
theorem fat32Seek_first (hf : fs.Ok) (h : min off file.size < fs.clusterSize) :
    fat32Seek fs v file off =
      { file with currentCluster := file.startCluster, offset := min off file.size } := by
  have hmin : (if file.size < off then file.size else off) = min off file.size := by
    split <;> omega
  have hsize : fs.sectorsPerCluster * fs.bytesPerSector = fs.clusterSize := by
    rw [hf.bytes]
    rfl
  unfold fat32Seek
  rw [hmin]
  generalize min off file.size = q at h ⊢
  dsimp only
  have hloop : seekLoop fs v q q file.startCluster = (q, file.startCluster) := by
    cases q with
    | zero => rfl
    | succ q =>
      unfold seekLoop
      rw [hsize, if_neg (by omega)]
  rw [hloop]

theorem fat32Write_vol (v : Vol) (file : File) (src : List Byte) : (fat32Write fs v file src).vol =
    (writeLoop fs src.length v src file.currentCluster file.offset).vol := by
  unfold fat32Write
  dsimp only
  split <;> rfl

theorem stale_write (hf : fs.Ok) (hsrc : src ≠ [])
    (hend : min off file.size + src.length ≤ fs.clusterSize) :
    (fat32Write fs v (fat32Seek fs v file off) src).vol.fat = v.fat ∧
    ∀ a, (∀ k, k < fs.sectorsPerCluster → a / 512 ≠ sectorOf fs file.startCluster k) →
      (fat32Write fs v (fat32Seek fs v file off) src).vol.disk a = v.disk a := by
  have hpos : 0 < src.length := List.length_pos_iff.mpr hsrc
  rw [fat32Seek_first hf (by omega), fat32Write_vol]
  exact writeLoop_cluster hf src.length src v _ hend

/-- Only the cluster `c` has changed. -/
def OnlyCluster (fs : Fs) (v v' : Vol) (c : ℕ) : Prop :=
  v'.fat = v.fat ∧ ∀ x, fs.IsData x → x ≠ c → readCluster fs v' x = readCluster fs v x

theorem stale_write_only (hf : fs.Ok) (hsrc : src ≠ []) (hc : fs.IsData file.startCluster)
    (hend : min off file.size + src.length ≤ fs.clusterSize) :
    OnlyCluster fs v (fat32Write fs v (fat32Seek fs v file off) src).vol file.startCluster := by
  obtain ⟨hfat, hdisk⟩ := stale_write (v := v) hf hsrc hend
  refine ⟨hfat, fun x hx hne => ?_⟩
  apply readCluster_congr
  intro k hk b hb
  apply hdisk
  intro k' hk' heq
  rw [sector_div _ _ hb] at heq
  exact hne (hf.apart.inj x _ k k' hx hc hk hk' heq).1

/-- A cluster that is free may change. -/
theorem Wf.onlyCluster (hf : fs.Ok) (h : Wf fs root own v) (hfree : v.fatGet c &&& 0x0FFFFFFF = 0)
    (hv : OnlyCluster fs v v' c) : SameEntries fs root v v' ∧ Wf fs root own v' := by
  have hdir : SameEntries fs root v v' := by
    apply SameEntries.of_read
    intro x hx
    apply hv.2 x (h.root_isData hx)
    rintro rfl
    exact h.rootChain.used hf hx hfree
  exact ⟨hdir, h.same hdir (h.toOwned.congr (fatGet_congr hv.1))⟩

end Stale

/-! ### The steps -/

section Steps
variable {fs : Fs} {root : List ℕ} {own : Set ℕ} {s s' : Session} {v0 : Vol} {op : VfsOp}
  {fd : ℕ} {d : Fd} {src path : List Byte} {now now' : Stamp}

/-- A write through a descriptor that is open. -/
theorem vfsWrite_open (fs : Fs) (src : List Byte) {w : Vfs} (hd : w.fds fd = some d) :
    (vfsWrite fs w fd src).state.vol =
      (fat32Write fs w.vol (fat32Seek fs w.vol d.node.file d.pos) src).vol ∧
    ∃ d', (vfsWrite fs w fd src).state.fds = setFd w.fds fd (some d') ∧
      d'.node.file.startCluster = d.node.file.startCluster := by
  unfold vfsWrite
  rw [hd]
  exact ⟨rfl, _, rfl, fat32Write_start w.vol d.node.file d.pos src⟩

theorem vfsRead_state (fs : Fs) (w : Vfs) (fd count : ℕ) :
    (vfsRead fs w fd count).state = w ∨ ∃ d d', w.fds fd = some d ∧
      (vfsRead fs w fd count).state = { w with fds := setFd w.fds fd (some d') } ∧
      d'.node.file.startCluster = d.node.file.startCluster := by
  unfold vfsRead
  cases hd : w.fds fd with
  | none => exact Or.inl rfl
  | some d => exact Or.inr ⟨d, _, rfl, rfl, rfl⟩

/-- What the volume becomes through a careful write. -/
theorem careful_write (hf : fs.Ok) (hi : SessionInv fs root s)
    (hc : Careful fs root s (.write fd src))
    (hd : s.vfs.fds fd = some d) :
    (vfsWrite fs s.vfs fd src).state.vol = s.vfs.vol ∨
    (s.dead fd = true ∧ StaleWrite fs s.vfs.vol d src ∧
      OnlyCluster fs s.vfs.vol (vfsWrite fs s.vfs fd src).state.vol d.node.file.startCluster) ∨
    (s.dead fd = false ∧ ∃ L N, L ≠ [] ∧ FatChain fs s.vfs.vol d.node.file.startCluster L ∧
      Extended fs s.vfs.vol (vfsWrite fs s.vfs fd src).state.vol d.node.file.startCluster L N) := by
  obtain ⟨hvol, -⟩ := vfsWrite_open fs src hd
  rw [hvol]
  by_cases hsrc : src = []
  · subst hsrc
    exact Or.inl rfl
  have hc := hc.resolve_left hsrc d hd
  cases hdead : s.dead fd with
  | true =>
    rw [hdead, if_pos rfl] at hc
    exact Or.inr (Or.inl ⟨rfl, hc, stale_write_only hf hsrc hc.1 hc.2.2⟩)
  | false =>
    rw [hdead, if_neg Bool.false_ne_true] at hc
    obtain ⟨own, hw⟩ := hi.wf
    obtain ⟨hu, hstart⟩ := hi.live fd d hd hdead
    have hown : d.node.file.startCluster ∈ own := hstart ▸ hw.starts _ hu
    obtain ⟨L, ⟨h0, -⟩ | ⟨hne, hL⟩⟩ := hw.chains _ hown
    · exact absurd h0 hc
    · obtain ⟨N, hext, -⟩ := write_spec hf hL hne d.pos src
      exact Or.inr (Or.inr ⟨rfl, L, N, hne, hL, hext⟩)

/-- The invariant only looks at the entries in use. -/
theorem SessionInv.of_same (hi : SessionInv fs root s)
    (hdir : SameEntries fs root s.vfs.vol s'.vfs.vol)
    (hw : ∃ own, Wf fs root own s'.vfs.vol)
    (hfds : ∀ fd d, s'.vfs.fds fd = some d → s'.dead fd = false →
      ∃ d0, s.vfs.fds fd = some d0 ∧ s.dead fd = false ∧ s'.slot fd = s.slot fd ∧
        d.node.file.startCluster = d0.node.file.startCluster) : SessionInv fs root s' where
  wf := hw
  live := by
    intro fd d hd hdead
    obtain ⟨d0, hd0, hdead0, hslot, hstart⟩ := hfds fd d hd hdead
    obtain ⟨hu, hst⟩ := hi.live fd d0 hd0 hdead0
    rw [hslot, hdir.startOf hu.1 hu.2.1, hstart]
    exact ⟨hdir.used.mpr hu, hst⟩

/-- One descriptor is replaced by one of the same file. -/
theorem setFd_same {fds : ℕ → Option Fd} {d d' : Fd} (hd : fds fd = some d)
    (hstart : d'.node.file.startCluster = d.node.file.startCluster) (k : ℕ) (dk : Fd)
    (h : setFd fds fd (some d') k = some dk) :
    ∃ d0, fds k = some d0 ∧ dk.node.file.startCluster = d0.node.file.startCluster := by
  unfold setFd at h
  by_cases hk : k = fd
  · subst hk
    rw [Function.update_self] at h
    rw [← Option.some.inj h]
    exact ⟨d, hd, hstart⟩
  · rw [Function.update_of_ne hk] at h
    exact ⟨dk, h, rfl⟩

theorem SessionInv.write (hf : fs.Ok) (hi : SessionInv fs root s)
    (hc : Careful fs root s (.write fd src)) (ha : sessionApply fs s (.write fd src) = some s') :
    SessionInv fs root s' := by
  obtain rfl := Option.some.inj ha
  cases hd : s.vfs.fds fd with
  | none =>
    have hsame : (vfsWrite fs s.vfs fd src).state = s.vfs := by
      unfold vfsWrite
      rw [hd]
    refine ⟨?_, ?_⟩
    · rw [hsame]
      exact hi.wf
    · dsimp only
      rw [hsame]
      exact hi.live
  | some d =>
    obtain ⟨own, hw⟩ := hi.wf
    obtain ⟨-, d', hfds, hstart⟩ := vfsWrite_open fs src hd
    have hmap (k : ℕ) (dk : Fd) (h : (vfsWrite fs s.vfs fd src).state.fds k = some dk)
        (hdead : s.dead k = false) : ∃ d0, s.vfs.fds k = some d0 ∧ s.dead k = false ∧
          s.slot k = s.slot k ∧ dk.node.file.startCluster = d0.node.file.startCluster := by
      rw [hfds] at h
      obtain ⟨d0, hd0, hst⟩ := setFd_same hd hstart k dk h
      exact ⟨d0, hd0, hdead, rfl, hst⟩
    -- nothing is written, or the free cluster of a deleted file, or the chain of a live one
    rcases careful_write hf hi hc hd with hvol | ⟨-, hstale, honly⟩ | ⟨hlive, L, N, hne, hL, hext⟩
    · refine hi.of_same ?_ ⟨own, ?_⟩ hmap
      · dsimp only
        rw [hvol]
        exact SameEntries.of_read (fun _ _ => rfl)
      · dsimp only
        rw [hvol]
        exact hw
    · obtain ⟨hdir, hw'⟩ := hw.onlyCluster hf hstale.2.1 honly
      exact hi.of_same hdir ⟨own, hw'⟩ hmap
    · obtain ⟨hu, hst⟩ := hi.live fd d hd hlive
      have hown : d.node.file.startCluster ∈ own := hst ▸ hw.starts _ hu
      have hdir := hw.write_sameEntries hf hown hne hL hext
      exact hi.of_same hdir ⟨own, hw.write hf hown hne hL hext⟩ hmap

theorem SessionInv.read (hi : SessionInv fs root s) {count : ℕ}
    (ha : sessionApply fs s (.read fd count) = some s') : SessionInv fs root s' := by
  obtain rfl := Option.some.inj ha
  rcases vfsRead_state fs s.vfs fd count with hsame | ⟨d, d', hd, hst, hstart⟩
  · refine hi.of_same ?_ ?_ ?_
    all_goals dsimp only; rw [hsame]
    · exact SameEntries.of_read (fun _ _ => rfl)
    · exact hi.wf
    · exact fun k dk h hdead => ⟨dk, h, hdead, rfl, rfl⟩
  · refine hi.of_same ?_ ?_ ?_
    all_goals dsimp only; rw [hst]
    · exact SameEntries.of_read (fun _ _ => rfl)
    · exact hi.wf
    · intro k dk h hdead
      obtain ⟨d0, hd0, hst0⟩ := setFd_same hd hstart k dk h
      exact ⟨d0, hd0, hdead, rfl, hst0⟩

theorem slotOf_eq {v : Vol} {name : List Byte} {e : Slot}
    (h : findEntry fs v (nameMatches (toShort name)) = some (some e)) : slotOf fs v name = e := by
  unfold slotOf
  rw [h]

theorem SessionInv.open (hf : fs.Ok) (hi : SessionInv fs root s)
    (ha : sessionApply fs s (.open path) = some s') : SessionInv fs root s' := by
  obtain ⟨own, hw⟩ := hi.wf
  obtain ⟨r, hr, rfl⟩ := Option.map_eq_some_iff.mp ha
  cases r with
  | none => exact hi
  | some r =>
    obtain ⟨w, fd⟩ := r
    obtain ⟨p, tok, f, rfl, htok, hopen, -, rfl⟩ := vfsOpen_iff.mp hr
    rcases open_cases hf hw tok with hn | ⟨e, hfind, hu, hfile⟩
    · exact nomatch Option.some.inj (hn.symm.trans hopen)
    obtain rfl := Option.some.inj (Option.some.inj (hfile.symm.trans hopen))
    have hslot : slotOf fs s.vfs.vol ((component (slash::p).tail).getD []) = e := by
      rw [List.tail_cons, htok]
      exact slotOf_eq hfind
    refine ⟨⟨own, hw⟩, fun k d hd hdead => ?_⟩
    dsimp only at hd hdead ⊢
    rw [hslot]
    unfold setFd at hd
    by_cases hk : k = fd
    · subst hk
      rw [Function.update_self] at hd ⊢
      rw [← Option.some.inj hd]
      exact ⟨hu, rfl⟩
    · rw [Function.update_of_ne hk] at hd hdead ⊢
      exact hi.live k d hd hdead

/-- What closing a descriptor that is open does. -/
theorem vfsClose_open {w w' : Vfs} {r : ℤ} (hd : w.fds fd = some d)
    (h : vfsClose fs w fd now = some (w', r)) :
    fat32Close fs w.vol d.node.file now = some w'.vol ∧ w'.fds = setFd w.fds fd none := by
  unfold vfsClose at h
  rw [hd] at h
  obtain ⟨v, hv, he⟩ := Option.map_eq_some_iff.mp h
  obtain ⟨rfl, -⟩ := Prod.mk.inj he
  exact ⟨hv, rfl⟩

theorem SessionInv.close (hf : fs.Ok) (hi : SessionInv fs root s)
    (ha : sessionApply fs s (.close fd now) = some s') : SessionInv fs root s' := by
  obtain ⟨own, hw⟩ := hi.wf
  obtain ⟨⟨w, r⟩, hr, rfl⟩ := Option.map_eq_some_iff.mp ha
  cases hd : s.vfs.fds fd with
  | none =>
    unfold vfsClose at hr
    rw [hd] at hr
    obtain ⟨rfl, -⟩ := Prod.mk.inj (Option.some.inj hr)
    exact hi
  | some d =>
    obtain ⟨hclose, hfds⟩ := vfsClose_open hd hr
    obtain ⟨v', hv', -, hdir, -⟩ := close_same hf hw d.node.file now
    obtain rfl := Option.some.inj (hv'.symm.trans hclose)
    refine hi.of_same hdir ⟨own, hw.close hf hclose⟩ (fun k dk h hdead => ?_)
    dsimp only at h
    rw [hfds] at h
    unfold setFd at h
    by_cases hk : k = fd
    · subst hk
      rw [Function.update_self] at h
      exact nomatch h
    · rw [Function.update_of_ne hk] at h
      exact ⟨dk, h, hdead, rfl, rfl⟩

/-- The entries in use stay when a file is created. -/
theorem vfsCreate_keeps (hf : fs.Ok) {w w' : Vfs} {r : ℤ} (hw : Wf fs root own w.vol)
    (hstr : IsCString path) (h : vfsCreate fs w path now now' = some (w', r)) :
    w' = w ∨ w'.fds = w.fds ∧ (∃ own', Wf fs root own' w'.vol) ∧
      ∀ e, Used fs w.vol root e →
        Used fs w'.vol root e ∧ startOf fs w'.vol e = startOf fs w.vol e := by
  by_cases hr : r = 0
  · subst hr
    obtain ⟨p, slot, n, v1, -, hp, hcr, -, hdir, -, hfds, -, hw'⟩ := vfsCreate_cases hf hw h hstr
    refine Or.inr ⟨hfds, ⟨_, hw'⟩, fun e hu => ⟨?_, ?_⟩⟩
    · exact hdir.used.mpr ((hcr.used_iff hf hw hp).mpr (Or.inr hu))
    · rw [hdir.startOf hu.1 hu.2.1]
      apply (hcr.others hf hw).startOf hu
      rintro rfl
      exact not_used_of_free hcr.slotFree hu
  · -- a call that fails leaves everything as it is
    refine Or.inl ?_
    unfold vfsCreate at h
    cases path with
    | nil => exact (Prod.mk.inj (Option.some.inj h)).1.symm
    | cons c p =>
      dsimp only at h
      by_cases hc : c = slash
      · rw [if_pos hc] at h
        obtain ⟨⟨v, k⟩, hv, he⟩ := Option.map_eq_some_iff.mp h
        obtain ⟨rfl, rfl⟩ := Prod.mk.inj he
        unfold fat32VfsCreate at hv
        obtain ⟨m, hm, hv⟩ := Option.bind_eq_some_iff.mp hv
        cases m with
        | none =>
          obtain ⟨rfl, -⟩ := Prod.mk.inj (Option.some.inj hv)
          rfl
        | some m =>
          obtain ⟨v2, -, hv⟩ := Option.bind_eq_some_iff.mp hv
          exact absurd (Prod.mk.inj (Option.some.inj hv)).2.symm hr
      · rw [if_neg hc] at h
        exact (Prod.mk.inj (Option.some.inj h)).1.symm

theorem SessionInv.create (hf : fs.Ok) (hi : SessionInv fs root s) (hstr : IsCString path)
    (ha : sessionApply fs s (.create path now now') = some s') : SessionInv fs root s' := by
  obtain ⟨own, hw⟩ := hi.wf
  obtain ⟨⟨w, r⟩, hr, rfl⟩ := Option.map_eq_some_iff.mp ha
  rcases vfsCreate_keeps hf hw hstr hr with rfl | ⟨hfds, hw', hkeep⟩
  · exact hi
  · refine ⟨hw', fun k d hd hdead => ?_⟩
    dsimp only at hd
    rw [hfds] at hd
    obtain ⟨hu, hst⟩ := hi.live k d hd hdead
    obtain ⟨hu', hst'⟩ := hkeep _ hu
    exact ⟨hu', hst'.trans hst⟩

/-- What `vfs_delete` has done. -/
theorem vfsDelete_cases (hf : fs.Ok) {w w' : Vfs} {r : ℤ} (hw : Wf fs root own w.vol)
    (h : vfsDelete fs w path = some (w', r)) : w' = w ∧ r = -1 ∨ r = 0 ∧ w'.fds = w.fds ∧
      ∃ L slot, Deleted fs root path.tail w.vol w'.vol L slot := by
  unfold vfsDelete at h
  cases path with
  | nil =>
    obtain ⟨rfl, rfl⟩ := Prod.mk.inj (Option.some.inj h)
    exact Or.inl ⟨rfl, rfl⟩
  | cons c p =>
    dsimp only at h
    by_cases hc : c = slash
    · rw [if_pos hc] at h
      obtain ⟨m, hm, he⟩ := Option.map_eq_some_iff.mp h
      rcases delete_cases hf hw p with ⟨hn, -⟩ | ⟨slot, L, v', hs, hdel⟩
      · obtain rfl := Option.some.inj (hn.symm.trans hm)
        obtain ⟨rfl, rfl⟩ := Prod.mk.inj he
        exact Or.inl ⟨rfl, rfl⟩
      · obtain rfl := Option.some.inj (hs.symm.trans hm)
        obtain ⟨rfl, rfl⟩ := Prod.mk.inj he
        exact Or.inr ⟨rfl, rfl, L, slot, hdel⟩
    · rw [if_neg hc] at h
      obtain ⟨rfl, rfl⟩ := Prod.mk.inj (Option.some.inj h)
      exact Or.inl ⟨rfl, rfl⟩

theorem SessionInv.delete (hf : fs.Ok) (hi : SessionInv fs root s)
    (ha : sessionApply fs s (.delete path) = some s') : SessionInv fs root s' := by
  obtain ⟨own, hw⟩ := hi.wf
  obtain ⟨⟨w, r⟩, hr, rfl⟩ := Option.map_eq_some_iff.mp ha
  rcases vfsDelete_cases hf hw hr with ⟨rfl, rfl⟩ | ⟨rfl, hfds, L, slot, hdel⟩
  · rw [if_neg (show ¬ ((-1 : ℤ) = 0) by decide)]
    exact hi
  · rw [if_pos rfl, slotOf_eq hdel.found]
    refine ⟨⟨_, hw.delete hf hdel⟩, fun k d hd hdead => ?_⟩
    dsimp only at hd hdead ⊢
    rw [hfds] at hd
    obtain ⟨hdead0, hne⟩ := Bool.or_eq_false_iff.mp hdead
    have hne : s.slot k ≠ slot := beq_eq_false_iff_ne.mp hne
    obtain ⟨hu, hst⟩ := hi.live k d hd hdead0
    refine ⟨(hdel.used_iff hf hw).mpr ⟨hne, hu⟩, ?_⟩
    rw [(hdel.others hf hw).startOf hu hne]
    exact hst

theorem SessionInv.step (hf : fs.Ok) (hi : SessionInv fs root s) (hc : Careful fs root s op)
    (hs : (session fs v0).step s op s') : SessionInv fs root s' := by
  obtain ⟨hstr, ha⟩ := hs
  cases op with
  | «open» path => exact hi.open hf ha
  | read fd count => exact hi.read ha
  | write fd src => exact hi.write hf hc ha
  | close fd now => exact hi.close hf ha
  | create path now now' => exact hi.create hf hstr ha
  | delete path => exact hi.delete hf ha

/-- The invariant holds in every state that careful steps reach. -/
theorem session_invariant (hf : fs.Ok) (hw : Wf fs root own v0)
    (hr : ((session fs v0).restrict (Careful fs root)).Reachable s) : SessionInv fs root s := by
  refine hr.restrict_invariant (fun s h => ?_) (fun s op s' hi hc hs => hi.step hf hc hs)
  have h : s.vfs = { vol := v0, fds := fun _ => none } := h
  refine ⟨⟨own, ?_⟩, fun fd d hd => ?_⟩
  · rw [h]
    exact hw
  · rw [h] at hd
    exact nomatch hd

end Steps

/-! ### Runs on a small volume -/

/-- The state after an operation that returns. -/
def afterOp (fs : Fs) (s : Session) (op : VfsOp) : Session := (sessionApply fs s op).getD s

section After
variable {fs : Fs} {v0 : Vol} {C : Session → VfsOp → Prop} {s : Session} {op : VfsOp}

theorem afterOp_step (hok : op.PathOk) (h : (sessionApply fs s op).isSome = true) :
    (session fs v0).step s op (afterOp fs s op) := by
  obtain ⟨s', hs⟩ := Option.isSome_iff_exists.mp h
  have hafter : afterOp fs s op = s' := by
    unfold afterOp
    rw [hs]
    rfl
  exact ⟨hok, hs.trans (congrArg some hafter.symm)⟩

theorem afterOp_reachable (hr : ((session fs v0).restrict C).Reachable s) (op : VfsOp)
    (hc : C s op) (hok : op.PathOk) (h : (sessionApply fs s op).isSome = true) :
    ((session fs v0).restrict C).Reachable (afterOp fs s op) :=
  .step hr ⟨hc, afterOp_step hok h⟩

end After

def sampleSession : Session where
  vfs := sampleVfs
  slot := fun _ => (0, 0)
  dead := fun _ => false
  wrote := fun _ => false

def pathA : List Byte := [slash, 65#8]
def pathB : List Byte := [slash, 66#8]

/-- The file `A` is created and opened. -/
def openedSession : Session :=
  afterOp sampleFs (afterOp sampleFs sampleSession (.create pathA ⟨0, 0⟩ ⟨0, 0⟩)) (.open pathA)

/-- It is deleted while it is open. -/
def deletedSession : Session := afterOp sampleFs openedSession (.delete pathA)

/-- Its cluster goes to the file `B`. -/
def reusedSession : Session := afterOp sampleFs deletedSession (.create pathB ⟨0, 0⟩ ⟨0, 0⟩)

theorem opened_reachable {C : Session → VfsOp → Prop}
    (hcreate : ∀ s path now now', C s (.create path now now'))
    (hopen : ∀ s path, C s (.open path)) :
    ((session sampleFs sampleVol).restrict C).Reachable openedSession := by
  have hinit : ((session sampleFs sampleVol).restrict C).Reachable sampleSession := .init rfl
  have hmade := afterOp_reachable hinit (.create pathA ⟨0, 0⟩ ⟨0, 0⟩)
    (hcreate _ _ _ _) (show IsCString pathA by decide) (by decide +kernel)
  exact afterOp_reachable hmade (.open pathA) (hopen _ _) (show IsCString pathA by decide)
    (by decide +kernel)

theorem deleted_reachable :
    ((session sampleFs sampleVol).restrict (Careful sampleFs [2])).Reachable deletedSession :=
  afterOp_reachable (opened_reachable (fun _ _ _ _ => trivial) (fun _ _ => trivial))
    (.delete pathA) trivial (show IsCString pathA by decide) (by decide +kernel)

/-! ### Deleted files -/

/-- The entries of the files, their clusters and their part of the table are as they were, and so
are the first two words of the table. -/
structure Untouched (fs : Fs) (root : List ℕ) (v v' : Vol) : Prop where
  entries : ∀ e, Used fs v root e → ∀ b, b < 32 →
    readCluster fs v' e.1 (32*e.2 + b) = readCluster fs v e.1 (32*e.2 + b)
  clusters : ∀ e, Used fs v root e → ∀ L, FileChain fs v (startOf fs v e) L → ∀ c ∈ L,
    v'.fatGet c = v.fatGet c ∧ readCluster fs v' c = readCluster fs v c
  reserved : v'.fatGet 0 = v.fatGet 0 ∧ v'.fatGet 1 = v.fatGet 1

/-- The descriptor that an operation goes through. -/
def VfsOp.descriptor : VfsOp → Option ℕ
  | .read fd _ => some fd
  | .write fd _ => some fd
  | .close fd _ => some fd
  | _ => none

section Deletion
variable {fs : Fs} {root : List ℕ} {own : Set ℕ} {s s' : Session} {v v' v0 : Vol} {op : VfsOp}
  {c fd : ℕ} {d : Fd}

/-- It is enough that the table stays and that the clusters in use stay. -/
theorem Untouched.of_used (hf : fs.Ok) (hw : Wf fs root own v)
    (hfat : ∀ y, v'.fatGet y = v.fatGet y)
    (hread : ∀ x, fs.IsData x → v.fatGet x &&& 0x0FFFFFFF ≠ 0 →
      readCluster fs v' x = readCluster fs v x) : Untouched fs root v v' where
  entries := by
    intro e hu b _
    rw [hread e.1 (hw.root_isData hu.1) (hw.rootChain.used hf hu.1)]
  clusters := fun e hu L hL c hc => ⟨hfat c, hread c (hL.isData hc) (hL.used hf hc)⟩
  reserved := ⟨hfat 0, hfat 1⟩

/-- In a run whose writes and closes are careful, nothing that is done through the descriptor of a
deleted file touches another file. -/
theorem deleted_untouched (hf : fs.Ok) (hw : Wf fs root own v0)
    (hr : ((session fs v0).restrict (Careful fs root)).Reachable s)
    (hs : ((session fs v0).restrict (Careful fs root)).step s op s')
    (hop : op.descriptor = some fd) (hd : s.vfs.fds fd = some d) (hdead : s.dead fd = true) :
    Untouched fs root s.vfs.vol s'.vfs.vol := by
  have hi := session_invariant hf hw hr
  obtain ⟨own', hw'⟩ := hi.wf
  obtain ⟨hc, -, ha⟩ := hs
  have hsame (v : Vol) : v = s.vfs.vol → Untouched fs root s.vfs.vol v := by
    rintro rfl
    exact .of_used hf hw' (fun _ => rfl) (fun _ _ _ => rfl)
  cases op with
  | «open» path => exact nomatch hop
  | create path now now' => exact nomatch hop
  | delete path => exact nomatch hop
  | read k count =>
    obtain rfl := Option.some.inj ha
    apply hsame
    dsimp only
    rcases vfsRead_state fs s.vfs k count with hst | ⟨d0, d', -, hst, -⟩
    · rw [hst]
    · rw [hst]
  | write k src =>
    obtain rfl := Option.some.inj hop
    obtain rfl := Option.some.inj ha
    rcases careful_write hf hi hc hd with hvol | ⟨-, hstale, honly⟩ | ⟨hlive, -⟩
    · exact hsame _ hvol
    · -- the only cluster that is written is a free one
      refine .of_used hf hw' (fatGet_congr honly.1) (fun x hx hused => honly.2 x hx ?_)
      rintro rfl
      exact hused hstale.2.1
    · exact nomatch hdead.symm.trans hlive
  | close k now =>
    obtain rfl := Option.some.inj hop
    obtain ⟨⟨⟨v', fds⟩, r⟩, hr, rfl⟩ := Option.map_eq_some_iff.mp ha
    obtain ⟨hclose, -⟩ := vfsClose_open hd hr
    rcases close_cases hf hw' d.node.file now with ⟨hflush, -⟩ | ⟨e, v1, -, -, hu, hstart, -⟩
    · obtain rfl : fat32Flush fs s.vfs.vol = v' := Option.some.inj (hflush.symm.trans hclose)
      exact .of_used hf hw' (fat32Flush_get s.vfs.vol) (fun x hx _ => readCluster_flush hf hx)
    · exact absurd hstart (hc d hd hdead e hu)

end Deletion

/-- What is seen of an open descriptor. -/
def handleOf (s : Session) (fd : ℕ) : Option (ℕ × ℕ × ℕ) :=
  (s.vfs.fds fd).map (fun d => (d.node.file.startCluster, d.pos, d.node.file.size))

/-- A byte is written through the descriptor of the deleted file, whose cluster is still free. -/
theorem deleted_untouched_sample :
    Untouched sampleFs [2] deletedSession.vfs.vol
      (afterOp sampleFs deletedSession (.write 0 [1#8])).vfs.vol := by
  have hhandle : handleOf deletedSession 0 = some (3, 0, 0) := by decide +kernel
  obtain ⟨d, hd, hval⟩ := Option.map_eq_some_iff.mp hhandle
  obtain ⟨hstart, hval⟩ := Prod.mk.inj hval
  obtain ⟨hpos, hsize⟩ := Prod.mk.inj hval
  have hdead : deletedSession.dead 0 = true := by decide +kernel
  have hcareful : Careful sampleFs [2] deletedSession (.write 0 [1#8]) := by
    refine Or.inr (fun d' hd' => ?_)
    obtain rfl := Option.some.inj (hd.symm.trans hd')
    rw [hdead, if_pos rfl, StaleWrite, hstart, hpos, hsize]
    decide +kernel
  exact deleted_untouched sample_ok sample_wf deleted_reachable
    ⟨hcareful, afterOp_step trivial (by decide +kernel)⟩ rfl hd hdead

/-- The same byte after the cluster was given to another file. -/
theorem deleted_file_damages_live :
    let s := reusedSession
    let s' := afterOp sampleFs s (.write 0 [1#8])
    sampleFs.Mounted ∧ Wf sampleFs [2] ∅ sampleVol ∧ (session sampleFs sampleVol).Reachable s ∧
      (session sampleFs sampleVol).step s (.write 0 [1#8]) s' ∧ handleOf s 0 = some (3, 0, 0) ∧
      s.dead 0 = true ∧ ¬ Untouched sampleFs [2] s.vfs.vol s'.vfs.vol := by
  intro s s'
  have hr : ((session sampleFs sampleVol).restrict (Careful sampleFs [2])).Reachable s :=
    afterOp_reachable deleted_reachable (.create pathB ⟨0, 0⟩ ⟨0, 0⟩) trivial
      (show IsCString pathB by decide) (by decide +kernel)
  refine ⟨sample_mounted, sample_wf, hr.of_restrict, afterOp_step trivial (by decide +kernel),
    by decide +kernel, by decide +kernel, fun h => ?_⟩
  have hnext : fatEof ≤ fatNextCluster sampleFs s.vfs.vol 3 := by decide +kernel
  have hstart : startOf sampleFs s.vfs.vol (2, 0) = 3 := by decide +kernel
  have hchain : FileChain sampleFs s.vfs.vol (startOf sampleFs s.vfs.vol (2, 0)) [3] :=
    Or.inr ⟨List.cons_ne_nil 3 [], hstart, by decide, hnext⟩
  have hused : Used sampleFs s.vfs.vol [2] (2, 0) := by decide +kernel
  have hbyte := congrFun (h.clusters (2, 0) hused [3] hchain 3 List.mem_cons_self).2 0
  have hdiff : readCluster sampleFs s'.vfs.vol 3 0 ≠ readCluster sampleFs s.vfs.vol 3 0 := by
    decide +kernel
  exact hdiff hbyte

/-! ### Sizes -/

/-- What closing the descriptor `fd` leaves: the sizes of all entries when nothing was written
through it, and all other entries. The entry of a deleted file is none of the entries. -/
structure CloseKeeps (fs : Fs) (root : List ℕ) (s : Session) (fd : ℕ) (v' : Vol) : Prop where
  sizes : s.wrote fd = false → ∀ c ∈ root, ∀ i, i < fs.entryCount →
    entSize (readCluster fs v' c) i = entSize (readCluster fs s.vfs.vol c) i
  others : ∀ c ∈ root, ∀ i, i < fs.entryCount → (s.dead fd = true ∨ (c, i) ≠ s.slot fd) →
    ∀ b, b < 32 → readCluster fs v' c (32*i + b) = readCluster fs s.vfs.vol c (32*i + b)

/-- At each close, no entry before that of the file has the first cluster of the file, and a file
to which nothing was written through the descriptor has the size it had at the open. -/
def Settled (fs : Fs) (root : List ℕ) (s : Session) : VfsOp → Prop
  | .close fd _ => ∀ d, s.vfs.fds fd = some d → s.dead fd = false →
      (∀ e, Used fs s.vfs.vol root e → Before root e (s.slot fd) →
        startOf fs s.vfs.vol e ≠ d.node.file.startCluster) ∧
      (s.wrote fd = false →
        entSize (readCluster fs s.vfs.vol (s.slot fd).1) (s.slot fd).2 = d.node.file.size)
  | _ => True

section Sizes
variable {fs : Fs} {root : List ℕ} {own : Set ℕ} {s s' : Session} {v0 : Vol} {fd : ℕ} {d : Fd}
  {now : Stamp}

theorem entSize_lt (buf : Mem) (i : ℕ) : entSize buf i < 2^32 := load_lt buf (32*i + 28) 4

/-- In a run whose steps are careful and whose closes are settled, a close changes the entry of its
own file only, and no size when nothing was written. -/
theorem close_keeps (hf : fs.Ok) (hw : Wf fs root own v0)
    (hr : ((session fs v0).restrict (fun s op => Careful fs root s op ∧
      Settled fs root s op)).Reachable s)
    (hs : ((session fs v0).restrict (fun s op => Careful fs root s op ∧
      Settled fs root s op)).step s
      (.close fd now) s') (hd : s.vfs.fds fd = some d) : CloseKeeps fs root s fd s'.vfs.vol := by
  have hi : SessionInv fs root s := session_invariant hf hw (hr.restrict_mono fun _ _ h => h.1)
  obtain ⟨own', hw'⟩ := hi.wf
  obtain ⟨⟨hc, hset⟩, -, ha⟩ := hs
  obtain ⟨⟨⟨v', fds⟩, r⟩, hres, rfl⟩ := Option.map_eq_some_iff.mp ha
  obtain ⟨hclose, -⟩ := vfsClose_open hd hres
  rcases close_cases hf hw' d.node.file now with
    ⟨hflush, -⟩ | ⟨e, v1, hv1, -, hu, hstart, hfirst, hput⟩
  · obtain rfl : fat32Flush fs s.vfs.vol = v' := Option.some.inj (hflush.symm.trans hclose)
    have hread (c : ℕ) (hcr : c ∈ root) :=
      readCluster_flush (v := s.vfs.vol) hf (hw'.root_isData hcr)
    exact ⟨fun _ c hcr i _ => by rw [hread c hcr], fun c hcr i _ _ b _ => by rw [hread c hcr]⟩
  · obtain rfl : v1 = v' := Option.some.inj (hv1.symm.trans hclose)
    cases hdead : s.dead fd with
    | true => exact absurd hstart (hc d hd hdead e hu)
    | false =>
      obtain ⟨hbefore, hsize⟩ := hset d hd hdead
      obtain ⟨hus, hss⟩ := hi.live fd d hd hdead
      -- the first entry with the first cluster is that of the file
      have hes : e = s.slot fd := by
        by_contra hne
        rcases before_total hu.1 hne with hlt | hlt
        · exact hbefore e hu hlt hstart
        · exact hfirst _ hus hlt hss
      have hdata := hw'.root_isData hu.1
      have hothers : OtherEntries fs root s.vfs.vol v1 e := by
        apply hput.others hf hdata hw'.dataRoot
        exact fun o ho => putSize_apply (by omega)
      refine ⟨fun hwrote c hcr i hic => ?_, fun c hcr i hic hne => ?_⟩
      · by_cases hce : (c, i) = e
        · subst hce
          have hsz := hsize hwrote
          rw [← hes] at hsz
          rw [(hput.entry hf hdata hic).2.2.2, entSize_putSize (hsz ▸ entSize_lt _ _)]
          exact hsz.symm
        · exact (hothers.entry (e := (c, i)) hcr hic hce).2.2.2
      · refine hothers c hcr i hic ?_
        rw [hes]
        exact hne.resolve_left (fun h => nomatch hdead.symm.trans h)

end Sizes

/-- The file `A` is closed with nothing written. -/
theorem close_keeps_sample :
    CloseKeeps sampleFs [2] openedSession 0
      (afterOp sampleFs openedSession (.close 0 ⟨0, 0⟩)).vfs.vol := by
  have hhandle : handleOf openedSession 0 = some (3, 0, 0) := by decide +kernel
  obtain ⟨d, hd, hval⟩ := Option.map_eq_some_iff.mp hhandle
  obtain ⟨-, hval⟩ := Prod.mk.inj hval
  obtain ⟨-, hsize⟩ := Prod.mk.inj hval
  have hslot : openedSession.slot 0 = (2, 0) := by decide +kernel
  have hdead : openedSession.dead 0 = false := by decide +kernel
  have hsettled : Settled sampleFs [2] openedSession (.close 0 ⟨0, 0⟩) := by
    intro d' hd' _
    obtain rfl := Option.some.inj (hd.symm.trans hd')
    rw [hslot, hsize]
    refine ⟨fun e hu hb => ?_, fun _ => by decide +kernel⟩
    rcases hb with hb | ⟨-, hb⟩
    · exact absurd hb (by simp)
    · exact absurd hb (Nat.not_lt_zero _)
  have hcareful : Careful sampleFs [2] openedSession (.close 0 ⟨0, 0⟩) :=
    fun _ _ h => nomatch hdead.symm.trans h
  exact close_keeps sample_ok sample_wf
    (opened_reachable (fun _ _ _ _ => ⟨trivial, trivial⟩) (fun _ _ => ⟨trivial, trivial⟩))
    ⟨⟨hcareful, hsettled⟩, afterOp_step trivial (by decide +kernel)⟩ hd

/-- The file is opened once more, and one byte is written and the descriptor closed. -/
def sizedSession : Session :=
  afterOp sampleFs (afterOp sampleFs (afterOp sampleFs openedSession (.open pathA))
    (.write 1 [1#8])) (.close 1 ⟨0, 0⟩)

/-- Closing the first descriptor puts the old size back. -/
theorem close_loses_size :
    let s := sizedSession
    let s' := afterOp sampleFs s (.close 0 ⟨0, 0⟩)
    sampleFs.Mounted ∧ Wf sampleFs [2] ∅ sampleVol ∧ (session sampleFs sampleVol).Reachable s ∧
      (session sampleFs sampleVol).step s (.close 0 ⟨0, 0⟩) s' ∧
      handleOf s 0 = some (3, 0, 0) ∧ s.wrote 0 = false ∧
      entSize (readCluster sampleFs s.vfs.vol 2) 0 = 1 ∧
      entSize (readCluster sampleFs s'.vfs.vol 2) 0 = 0 ∧
      ¬ CloseKeeps sampleFs [2] s 0 s'.vfs.vol := by
  intro s s'
  have h0 : ((session sampleFs sampleVol).restrict (fun _ _ => True)).Reachable openedSession :=
    opened_reachable (fun _ _ _ _ => trivial) (fun _ _ => trivial)
  have h1 := afterOp_reachable h0 (.open pathA) trivial (show IsCString pathA by decide)
    (by decide +kernel)
  have h2 := afterOp_reachable h1 (.write 1 [1#8]) trivial trivial (by decide +kernel)
  have h3 : ((session sampleFs sampleVol).restrict (fun _ _ => True)).Reachable s :=
    afterOp_reachable h2 (.close 1 ⟨0, 0⟩) trivial trivial (by decide +kernel)
  have hwrote : s.wrote 0 = false := by decide +kernel
  have hold : entSize (readCluster sampleFs s.vfs.vol 2) 0 = 1 := by decide +kernel
  have hnew : entSize (readCluster sampleFs s'.vfs.vol 2) 0 = 0 := by decide +kernel
  refine ⟨sample_mounted, sample_wf, h3.of_restrict, afterOp_step trivial (by decide +kernel),
    by decide +kernel, hwrote, hold, hnew, fun h => ?_⟩
  have hsame := h.sizes hwrote 2 List.mem_cons_self 0 (by decide)
  rw [hold, hnew] at hsame
  exact nomatch hsame

end SukiOS.Fat32
