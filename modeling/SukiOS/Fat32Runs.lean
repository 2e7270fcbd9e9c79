import SukiOS.Fat32Names

/-! Runs of the functions of `fat32.c` with any number of handles: the clusters stay apart and none
is lost, and the disk can be mounted again. -/
namespace SukiOS.Fat32
open ByteMemory Transition

/-- The volume and the handles in use. -/
structure Driver where
  vol : Vol
  files : ℕ → Option File

inductive DriverOp where
  | create (h : ℕ) (name : List Byte) (now : Stamp)
  | open (h : ℕ) (name : List Byte)
  | read (h offset count : ℕ)
  | write (h offset : ℕ) (src : List Byte)
  | close (h : ℕ) (now : Stamp)
  | delete (name : List Byte)

/-- The handle `h` is filled in. -/
def Driver.put (s : Driver) (h : ℕ) (f : File) : ℕ → Option File :=
  Function.update s.files h (some f)

/-- The handles that may still be used when the file with the first cluster `c` is deleted. -/
def Driver.drop (s : Driver) (c : ℕ) : ℕ → Option File :=
  fun h => (s.files h).filter (fun f => f.startCluster ≠ c)

/-- The state after the operation and its result; an operation on a handle needs one in use, and
reads and writes come after a seek. -/
def driverApply (fs : Fs) (s : Driver) : DriverOp → Option (Driver × ℤ)
  | .create h name now => (fat32CreateFile fs s.vol name now).map (fun r =>
      match r with
      | none => (s, -1)
      | some (v, f) => ({ vol := v, files := s.put h f }, 0))
  | .open h name => (fat32Open fs s.vol name).map (fun r =>
      match r with
      | none => (s, -1)
      | some f => ({ s with files := s.put h f }, 0))
  | .read h offset count => (s.files h).map (fun f =>
      let r := fat32Read fs s.vol (fat32Seek fs s.vol f offset) count
      ({ s with files := s.put h r.file }, r.ret))
  | .write h offset src => (s.files h).map (fun f =>
      let r := fat32Write fs s.vol (fat32Seek fs s.vol f offset) src
      ({ vol := r.vol, files := s.put h r.file }, r.ret))
  | .close h now => (s.files h).bind (fun f =>
      (fat32Close fs s.vol f now).map (fun v => ({ s with vol := v }, 0)))
  | .delete name => (fat32Open fs s.vol name).bind (fun found =>
      (fat32Delete fs s.vol name).map (fun r =>
        match found, r with
        | some f, some v => ({ vol := v, files := s.drop f.startCluster }, 0)
        | _, _ => (s, -1)))

/-- The state after an operation that returns. -/
def driverAfter (fs : Fs) (s : Driver) (op : DriverOp) : Driver :=
  match driverApply fs s op with
  | none => s
  | some r => r.1

def DriverOp.NamesOk (p : List Byte → Prop) : DriverOp → Prop
  | .create _ name _ => p name
  | .open _ name => p name
  | .delete name => p name
  | _ => True

/-- Runs from a mounted volume, with names that meet `p`. -/
def driver (fs : Fs) (p : List Byte → Prop) (v0 : Vol) : System Driver DriverOp where
  init s := s.vol = v0 ∧ s.files = fun _ => none
  step s op s' := op.NamesOk p ∧ ∃ r, driverApply fs s op = some (s', r)

/-! ### What a step does -/

/-- The first cluster is that of a handle in use or of an entry in use. -/
def Known (fs : Fs) (root : List ℕ) (s : Driver) (c : ℕ) : Prop :=
  (∃ h f, s.files h = some f ∧ f.startCluster = c) ∨
  ∃ e, Used fs s.vol root e ∧ startOf fs s.vol e = c

inductive DriverStep (fs : Fs) (root : List ℕ) (s s' : Driver) : DriverOp → ℤ → Prop
  | quiet {op r} (hvol : s'.vol = s.vol)
      (hfiles : ∀ h f, s'.files h = some f → Known fs root s f.startCluster)
      (hret : ∀ h now, op ≠ .close h now)
      (hret' : (∃ h name now, op = .create h name now) ∨ (∃ name, op = .delete name) → r = -1) :
      DriverStep fs root s s' op r
  | create {h name now n slot} (hmade : Created fs root name now s.vol s'.vol n slot)
      (hfiles : s'.files = s.put h ⟨n, n, 0, 0⟩) : DriverStep fs root s s' (.create h name now) 0
  | write {h offset src r f f' L N} (hopen : s.files h = some f) (hL : L ≠ [])
      (hchain : FatChain fs s.vol f.startCluster L)
      (hext : Extended fs s.vol s'.vol f.startCluster L N)
      (hfiles : s'.files = s.put h f') (hstart : f'.startCluster = f.startCluster) :
      DriverStep fs root s s' (.write h offset src) r
  | close {h now f} (hclosed : fat32Close fs s.vol f now = some s'.vol)
      (hfiles : s'.files = s.files) : DriverStep fs root s s' (.close h now) 0
  | delete {name slot L} (hdel : Deleted fs root name s.vol s'.vol L slot)
      (hfiles : s'.files = s.drop (startOf fs s.vol slot)) :
      DriverStep fs root s s' (.delete name) 0

section Steps
variable {fs : Fs} {root : List ℕ} {own : Set ℕ} {s s' : Driver} {op : DriverOp} {r : ℤ} {c h : ℕ}
  {f : File}

theorem driverApply_after (h : (driverApply fs s op).map Prod.snd = some r) :
    driverApply fs s op = some (driverAfter fs s op, r) := by
  unfold driverAfter
  cases hr : driverApply fs s op with
  | none =>
    rw [hr] at h
    exact nomatch h
  | some q =>
    rw [hr] at h
    exact congrArg some (Prod.ext rfl (Option.some.inj h))

theorem Known.of_put (hk : Known fs root s f.startCluster) (h : ℕ) :
    ∀ h' f', s.put h f h' = some f' → Known fs root s f'.startCluster := by
  intro h' f' hput
  unfold Driver.put at hput
  by_cases hh : h' = h
  · rw [hh, Function.update_self] at hput
    rw [← Option.some.inj hput]
    exact hk
  · rw [Function.update_of_ne hh] at hput
    exact Or.inl ⟨h', f', hput, rfl⟩

/-- The handles in use belong to files, and every file has clusters. -/
structure DriverInv (fs : Fs) (root : List ℕ) (own : Set ℕ) (s : Driver) : Prop where
  wf : Wf fs root own s.vol
  nonzero : 0 ∉ own
  held : ∀ h f, s.files h = some f → f.startCluster ∈ own

theorem DriverInv.known (hi : DriverInv fs root own s) (hk : Known fs root s c) : c ∈ own := by
  rcases hk with ⟨h, f, hf, rfl⟩ | ⟨e, he, rfl⟩
  · exact hi.held h f hf
  · exact hi.wf.starts e he

theorem DriverInv.chain (hi : DriverInv fs root own s) (hc : c ∈ own) :
    ∃ L, L ≠ [] ∧ FatChain fs s.vol c L := by
  obtain ⟨L, ⟨h0, -⟩ | hL⟩ := hi.wf.chains c hc
  · exact absurd (h0 ▸ hc) hi.nonzero
  · exact ⟨L, hL⟩

theorem driver_cases (hf : fs.Ok) (hi : DriverInv fs root own s)
    (ha : driverApply fs s op = some (s', r)) : DriverStep fs root s s' op r := by
  have hw := hi.wf
  cases op with
  | create h name now =>
    simp only [driverApply] at ha
    rcases create_cases hf hw name now with hn | ⟨slot, n, v, hs, hc⟩
    · rw [hn] at ha
      obtain ⟨rfl, rfl⟩ := Prod.mk.inj (Option.some.inj ha)
      exact .quiet rfl (fun h f hf => Or.inl ⟨h, f, hf, rfl⟩) (fun _ _ hop => nomatch hop)
        (fun _ => rfl)
    · rw [hs] at ha
      obtain ⟨rfl, rfl⟩ := Prod.mk.inj (Option.some.inj ha)
      exact .create hc rfl
  | «open» h name =>
    simp only [driverApply] at ha
    have hret' (r : ℤ) : (∃ h' name' now, DriverOp.open h name = .create h' name' now) ∨
        (∃ name', DriverOp.open h name = .delete name') → r = -1 := by
      rintro (⟨h', name', now, hop⟩ | ⟨name', hop⟩)
      · exact nomatch hop
      · exact nomatch hop
    rcases open_cases hf hw name with hn | ⟨e, -, hu, hs⟩
    · rw [hn] at ha
      obtain ⟨rfl, rfl⟩ := Prod.mk.inj (Option.some.inj ha)
      exact .quiet rfl (fun h f hf => Or.inl ⟨h, f, hf, rfl⟩) (fun _ _ hop => nomatch hop) (hret' _)
    · rw [hs] at ha
      obtain ⟨rfl, rfl⟩ := Prod.mk.inj (Option.some.inj ha)
      exact .quiet rfl (Known.of_put (Or.inr ⟨e, hu, rfl⟩) h) (fun _ _ hop => nomatch hop) (hret' _)
  | read h offset count =>
    obtain ⟨f, hfile, he⟩ := Option.map_eq_some_iff.mp ha
    obtain ⟨rfl, rfl⟩ := Prod.mk.inj he
    have hknown : Known fs root s
        (fat32Read fs s.vol (fat32Seek fs s.vol f offset) count).file.startCluster :=
      Or.inl ⟨h, f, hfile, rfl⟩
    have hfiles := hknown.of_put h
    refine .quiet rfl hfiles (fun _ _ hop => nomatch hop) ?_
    rintro (⟨h', name', now, hop⟩ | ⟨name', hop⟩)
    · exact nomatch hop
    · exact nomatch hop
  | write h offset src =>
    -- an open file is one of the volume's, so its first cluster is the head of a chain
    obtain ⟨f, hfile, he⟩ := Option.map_eq_some_iff.mp ha
    obtain ⟨rfl, rfl⟩ := Prod.mk.inj he
    obtain ⟨L, hL, hchain⟩ := hi.chain (hi.held h f hfile)
    obtain ⟨N, hext, -, -, -⟩ := write_spec hf hchain hL offset src
    exact .write hfile hL hchain hext rfl (fat32Write_start s.vol f offset src)
  | close h now =>
    obtain ⟨f, hfile, he⟩ := Option.bind_eq_some_iff.mp ha
    obtain ⟨v, hv, he⟩ := Option.map_eq_some_iff.mp he
    obtain ⟨rfl, rfl⟩ := Prod.mk.inj he
    exact .close hv rfl
  | delete name =>
    simp only [driverApply] at ha
    rcases delete_cases hf hw name with ⟨hn, hfind⟩ | ⟨slot, L, v, hs, hd⟩
    · rw [fat32Open_none_iff.mpr hfind, hn] at ha
      obtain ⟨rfl, rfl⟩ := Prod.mk.inj (Option.some.inj ha)
      exact .quiet rfl (fun h f hf => Or.inl ⟨h, f, hf, rfl⟩) (fun _ _ hop => nomatch hop)
        (fun _ => rfl)
    · rw [fat32Open_eq hd.found, hs] at ha
      obtain ⟨rfl, rfl⟩ := Prod.mk.inj (Option.some.inj ha)
      exact .delete hd rfl

theorem held_put (hheld : ∀ h f, s.files h = some f → f.startCluster ∈ own)
    (hc : f.startCluster ∈ own) : ∀ h' f', s.put h f h' = some f' → f'.startCluster ∈ own := by
  intro h' f' hput
  unfold Driver.put at hput
  by_cases hh : h' = h
  · rw [hh, Function.update_self] at hput
    rw [← Option.some.inj hput]
    exact hc
  · rw [Function.update_of_ne hh] at hput
    exact hheld h' f' hput

theorem held_drop (hheld : ∀ h f, s.files h = some f → f.startCluster ∈ own) :
    ∀ h' f', s.drop c h' = some f' → f'.startCluster ∈ forget own c := by
  intro h' f' hdrop
  obtain ⟨hfile, hne⟩ := Option.filter_eq_some_iff.mp hdrop
  exact ⟨hheld h' f' hfile, fun he => absurd he (by simpa using hne)⟩

/-- The files after a step. -/
theorem DriverStep.inv (hf : fs.Ok) (hi : DriverInv fs root own s) (hstr : op.NamesOk IsCString)
    (h : DriverStep fs root s s' op r) : ∃ own', DriverInv fs root own' s' := by
  have hw := hi.wf
  cases h with
  | quiet hvol hfiles =>
    refine ⟨own, hvol ▸ hw, hi.nonzero, fun h f hfile => ?_⟩
    exact hi.known (hfiles h f hfile)
  | create hmade hfiles =>
    rename_i h name now n slot
    refine ⟨insert n own, hw.create hf hmade hstr, ?_, ?_⟩
    · rintro (h0 | h0)
      · exact absurd hmade.data.1 (by omega)
      · exact hi.nonzero h0
    · rw [hfiles]
      exact held_put (fun h f hfile => Set.mem_insert_of_mem n (hi.held h f hfile))
        (Set.mem_insert n own)
  | write hopen hL hchain hext hfiles hstart =>
    rename_i h offset src f f' L N
    have hc := hi.held h f hopen
    refine ⟨own, hw.write hf hc hL hchain hext, hi.nonzero, ?_⟩
    rw [hfiles]
    exact held_put hi.held (hstart ▸ hc)
  | close hclosed hfiles =>
    refine ⟨own, hw.close hf hclosed, hi.nonzero, ?_⟩
    rw [hfiles]
    exact hi.held
  | delete hdel hfiles =>
    -- the handles of the deleted file are dropped with its entry
    rename_i name slot L
    refine ⟨forget own (startOf fs s.vol slot), hw.delete hf hdel, fun h0 => hi.nonzero h0.1, ?_⟩
    rw [hfiles]
    exact held_drop hi.held

end Steps

/-! ### No cluster is shared, lost or freed too early -/

/-- The first clusters of the files in the directory. -/
def liveStarts (fs : Fs) (root : List ℕ) (v : Vol) : Set ℕ :=
  {c | ∃ e, Used fs v root e ∧ startOf fs v e = c}

/-- The chains of the root and of the files in it are apart, and all other clusters are free. -/
structure AllocInv (fs : Fs) (root : List ℕ) (v : Vol) : Prop
    extends Wf fs root (liveStarts fs root v) v where
  nonzero : ∀ e, Used fs v root e → startOf fs v e ≠ 0
  noDirs : ∀ e, Used fs v root e → entAttr (readCluster fs v e.1) e.2 &&& 0x10 = 0
  noneLost : NoneLost fs root (liveStarts fs root v) v

/-- An ASCII name. -/
def IsAscii (s : List Byte) : Prop := ∀ c ∈ s, c ≠ 0#8 ∧ c.toNat < 128

section Alloc
variable {fs : Fs} {root : List ℕ} {v v' : Vol} {s s' : Driver} {op : DriverOp} {r : ℤ}
  {name : List Byte} {n : ℕ} {e slot : Slot} {now : Stamp} {L : List ℕ} {p q : List Byte → Prop}

theorem IsAscii.cstring (h : IsAscii name) : IsCString name := fun c hc => (h c hc).1

theorem IsAscii.visible (h : IsAscii name) : Visible name := by
  intro he
  rcases shortHead_cases name with hs | ⟨c, hc, hs⟩
  · rw [hs] at he
    exact absurd he (by decide)
  · rw [hs] at he
    have hce := ((upper_eq_of_not_letter (by decide)).mp he).1
    have hlt := (h c hc).2
    rw [hce] at hlt
    exact absurd hlt (by decide)

theorem liveStarts_same (h : SameEntries fs root v v') : liveStarts fs root v' =
    liveStarts fs root v := by
  ext c
  refine ⟨fun ⟨e, he, hc⟩ => ?_, fun ⟨e, he, hc⟩ => ?_⟩
  · have hu := h.used.mp he
    exact ⟨e, hu, (h.startOf hu.1 hu.2.1).symm.trans hc⟩
  · exact ⟨e, h.used.mpr he, (h.startOf he.1 he.2.1).trans hc⟩

theorem liveStarts_create (hf : fs.Ok) (hi : AllocInv fs root v) (hname : IsAscii name)
    (h : Created fs root name now v v' n slot) :
    liveStarts fs root v' = insert n (liveStarts fs root v) := by
  have hw := hi.toWf
  have hnew := (h.entry hf hw).2.2.1
  have hne (e : Slot) (hu : Used fs v root e) : e ≠ slot := by
    rintro rfl
    exact not_used_of_free h.slotFree hu
  ext c
  refine ⟨fun ⟨e, he, hc⟩ => ?_, ?_⟩
  · rcases (h.used_iff hf hw hname.cstring).mp he with ⟨rfl, -⟩ | hu
    · exact Or.inl (hc.symm.trans hnew)
    · exact Or.inr ⟨e, hu, ((h.others hf hw).startOf hu (hne e hu)).symm.trans hc⟩
  · rintro (rfl | ⟨e, hu, hc⟩)
    · exact ⟨slot, (h.used_iff hf hw hname.cstring).mpr (Or.inl ⟨rfl, hname.visible⟩), hnew⟩
    · exact ⟨e, (h.used_iff hf hw hname.cstring).mpr (Or.inr hu),
        ((h.others hf hw).startOf hu (hne e hu)).trans hc⟩

theorem liveStarts_delete (hf : fs.Ok) (hi : AllocInv fs root v)
    (h : Deleted fs root name v v' L slot) :
    liveStarts fs root v' = forget (liveStarts fs root v) (startOf fs v slot) := by
  have hw := hi.toWf
  ext c
  refine ⟨fun ⟨e, he, hc⟩ => ?_, fun ⟨⟨e, hu, hc⟩, hkeep⟩ => ?_⟩
  · obtain ⟨hne, hu⟩ := (h.used_iff hf hw).mp he
    have hc := ((h.others hf hw).startOf hu hne).symm.trans hc
    refine ⟨⟨e, hu, hc⟩, fun heq => absurd ?_ hne⟩
    exact hw.inj e slot hu h.used (hc.trans heq) (hi.nonzero e hu)
  · have hne : e ≠ slot := by
      rintro rfl
      exact hi.nonzero e hu (hc.trans (hkeep hc.symm))
    exact ⟨e, (h.used_iff hf hw).mpr ⟨hne, hu⟩, ((h.others hf hw).startOf hu hne).trans hc⟩

theorem AllocInv.same (hi : AllocInv fs root v) (hdir : SameEntries fs root v v')
    (hw : Wf fs root (liveStarts fs root v) v') (hn : NoneLost fs root (liveStarts fs root v) v') :
    AllocInv fs root v' where
  toWf := by
    rw [liveStarts_same hdir]
    exact hw
  nonzero := by
    intro e he
    have hu := hdir.used.mp he
    rw [hdir.startOf hu.1 hu.2.1]
    exact hi.nonzero e hu
  noDirs := by
    intro e he
    have hu := hdir.used.mp he
    rw [(hdir e.1 hu.1 e.2 hu.2.1).2.1]
    exact hi.noDirs e hu
  noneLost := by
    rw [liveStarts_same hdir]
    exact hn

theorem AllocInv.create (hf : fs.Ok) (hi : AllocInv fs root v) (hname : IsAscii name)
    (h : Created fs root name now v v' n slot) : AllocInv fs root v' := by
  have hw := hi.toWf
  have hne (e : Slot) (hu : Used fs v root e) : e ≠ slot := by
    rintro rfl
    exact not_used_of_free h.slotFree hu
  have hstarts := liveStarts_create hf hi hname h
  have hend : v'.fatGet n = fatEof := by
    rw [h.fat, if_pos rfl]
  have hfat (y : ℕ) (hy : y ≠ n) : v'.fatGet y = v.fatGet y := by
    rw [h.fat, if_neg hy]
  refine { toWf := ?_, nonzero := ?_, noDirs := ?_, noneLost := ?_ }
  · rw [hstarts]
    exact hw.create hf h hname.cstring
  · intro e he
    rcases (h.used_iff hf hw hname.cstring).mp he with ⟨rfl, -⟩ | hu
    · rw [(h.entry hf hw).2.2.1]
      have := h.data.1
      omega
    · rw [(h.others hf hw).startOf hu (hne e hu)]
      exact hi.nonzero e hu
  · intro e he
    rcases (h.used_iff hf hw hname.cstring).mp he with ⟨rfl, -⟩ | hu
    · rw [(h.entry hf hw).2.1]
      rfl
    · rw [((h.others hf hw).entry hu.1 hu.2.1 (hne e hu)).2.1]
      exact hi.noDirs e hu
  · rw [hstarts]
    exact hi.noneLost.add hf h.data h.free hend hfat

theorem AllocInv.delete (hf : fs.Ok) (hi : AllocInv fs root v)
    (h : Deleted fs root name v v' L slot) : AllocInv fs root v' := by
  have hw := hi.toWf
  have hstarts := liveStarts_delete hf hi h
  refine { toWf := ?_, nonzero := ?_, noDirs := ?_, noneLost := ?_ }
  · rw [hstarts]
    exact hw.delete hf h
  · intro e he
    obtain ⟨hne, hu⟩ := (h.used_iff hf hw).mp he
    rw [(h.others hf hw).startOf hu hne]
    exact hi.nonzero e hu
  · intro e he
    obtain ⟨hne, hu⟩ := (h.used_iff hf hw).mp he
    rw [((h.others hf hw).entry hu.1 hu.2.1 hne).2.1]
    exact hi.noDirs e hu
  · rw [hstarts, forget_of_ne_zero (hi.nonzero slot h.used)]
    exact hi.noneLost.remove hf hw.toOwned (hw.starts slot h.used) h.chain h.fat

/-- The handles in use belong to files in the directory. -/
def Allocated (fs : Fs) (root : List ℕ) (s : Driver) : Prop :=
  AllocInv fs root s.vol ∧ DriverInv fs root (liveStarts fs root s.vol) s

theorem Allocated.step (hf : fs.Ok) (hi : Allocated fs root s) (hname : op.NamesOk IsAscii)
    (h : DriverStep fs root s s' op r) : Allocated fs root s' := by
  obtain ⟨ha, hd⟩ := hi
  have hw := hd.wf
  have hzero (w : Driver) (hw : AllocInv fs root w.vol) : 0 ∉ liveStarts fs root w.vol :=
    fun ⟨e, he, h0⟩ => hw.nonzero e he h0
  cases h with
  | quiet hvol hfiles =>
    have ha' : AllocInv fs root s'.vol := hvol ▸ ha
    refine ⟨ha', ha'.toWf, hzero s' ha', fun h f hfile => ?_⟩
    rw [hvol]
    exact hd.known (hfiles h f hfile)
  | create hmade hfiles =>
    rename_i h name now n slot
    have ha' := ha.create hf hname hmade
    refine ⟨ha', ha'.toWf, hzero s' ha', ?_⟩
    rw [hfiles, liveStarts_create hf ha hname hmade]
    exact held_put (fun h f hfile => Set.mem_insert_of_mem n (hd.held h f hfile))
      (Set.mem_insert n _)
  | write hopen hL hchain hext hfiles hstart =>
    rename_i h offset src f f' L N
    have hc := hd.held h f hopen
    have hfile : FileChain fs s.vol f.startCluster L := Or.inr ⟨hL, hchain⟩
    have hfree (n : ℕ) (hn : n ∈ N) := (hext.free n hn).2
    have hdir := hw.write_sameEntries hf hc hL hchain hext
    have hgrown : FileChain fs s'.vol f.startCluster (L ++ N) :=
      Or.inr ⟨List.append_ne_nil_of_left_ne_nil hL N, hext.chain⟩
    have ha' := ha.same hdir (hw.write hf hc hL hchain hext)
      (ha.noneLost.extend hf hw.toOwned hc hfile hgrown hfree hext.fat)
    refine ⟨ha', ha'.toWf, hzero s' ha', ?_⟩
    rw [hfiles, liveStarts_same hdir]
    exact held_put hd.held (hstart ▸ hc)
  | close hclosed hfiles =>
    rename_i h now f
    obtain ⟨v, hv, hfat, hdir, -⟩ := close_same hf hw f now
    obtain rfl : v = s'.vol := Option.some.inj (hv.symm.trans hclosed)
    have ha' := ha.same hdir (hw.close hf hclosed) (ha.noneLost.congr (fatGet_congr hfat))
    refine ⟨ha', ha'.toWf, hzero s' ha', ?_⟩
    rw [hfiles, liveStarts_same hdir]
    exact hd.held
  | delete hdel hfiles =>
    rename_i name slot L
    have ha' := ha.delete hf hdel
    refine ⟨ha', ha'.toWf, hzero s' ha', ?_⟩
    rw [hfiles, liveStarts_delete hf ha hdel]
    exact held_drop hd.held

/-- No cluster is ever shared by two chains, lost, or freed while it is owned. -/
theorem allocation_invariant (hm : fs.Mounted) (hc : fs.Covers) (hapart : fs.Apart)
    (h0 : AllocInv fs root v) (hr : (driver fs IsAscii v).Reachable s) :
    AllocInv fs root s.vol := by
  have hf := hm.ok hc hapart
  have hinv : Allocated fs root s := by
    apply System.Reachable.invariant ?_ ?_ hr
    · rintro u ⟨rfl, hfiles⟩
      refine ⟨h0, h0.toWf, fun ⟨e, he, hz⟩ => h0.nonzero e he hz, fun h f hfile => ?_⟩
      rw [hfiles] at hfile
      exact nomatch hfile
    · rintro u op u' hi ⟨hname, r, ha⟩
      exact hi.step hf hname (driver_cases hf hi.2 ha)
  exact hinv.1

end Alloc

/-- An empty root directory, with a table that is free but for the root. -/
theorem AllocInv.of_unused {fs : Fs} {v : Vol} {root : List ℕ} {own : Set ℕ} (h : Wf fs root own v)
    (hu : ∀ e, ¬ Used fs v root e) (hn : ∀ y, fs.IsData y → v.fatGet y ≠ 0 → y ∈ root) :
    AllocInv fs root v where
  toWf := h.mono (fun _ ⟨e, he, _⟩ => absurd he (hu e)) (fun e he => absurd he (hu e))
  nonzero := fun e he => absurd he (hu e)
  noDirs := fun e he => absurd he (hu e)
  noneLost := fun y hy h0 => Or.inl (hn y hy h0)

theorem sample_noneLost : ∀ y, sampleFs.IsData y → sampleVol.fatGet y ≠ 0 → y ∈ [2] := by
  have h : ∀ y, y < 12 → 2 ≤ y → sampleVol.fatGet y ≠ 0 → y ∈ [2] := by decide +kernel
  exact fun y hy => h y hy.2 hy.1

def sampleStart : Driver := { vol := sampleVol, files := fun _ => none }

theorem allocation_invariant_sample :
    AllocInv sampleFs [2] (driverAfter sampleFs sampleStart (.create 0 [65#8] ⟨0, 0⟩)).vol := by
  have hname : IsAscii [65#8] := by
    intro c hc
    rw [List.mem_singleton.mp hc]
    decide
  have hmake : driverApply sampleFs sampleStart (.create 0 [65#8] ⟨0, 0⟩) =
      some (driverAfter sampleFs sampleStart (.create 0 [65#8] ⟨0, 0⟩), 0) :=
    driverApply_after (by decide +kernel)
  have hr : (driver sampleFs IsAscii sampleVol).Reachable
      (driverAfter sampleFs sampleStart (.create 0 [65#8] ⟨0, 0⟩)) :=
    .step (i := .create 0 [65#8] ⟨0, 0⟩) (.init ⟨rfl, rfl⟩) ⟨hname, 0, hmake⟩
  exact allocation_invariant sample_mounted sample_ok.covers sample_ok.apart
    (.of_unused sample_wf sample_unused sample_noneLost) hr

/-- The volume with no FAT of its own: the root directory is where the table is. -/
def noFatFs : Fs := { sampleFs with firstDataSector := 1, dataSectors := 11, totalClusters := 11 }

def noFatStart : Driver where
  vol := { disk := sampleDisk 0, fat := diskRead (sampleDisk 0) 1 (fun _ => 0#8) 1 }
  files := fun _ => none

theorem noFat_unused (e : Slot) : ¬ Used noFatFs noFatStart.vol [2] e := by
  have h : ∀ i, i < noFatFs.entryCount → ¬ Used noFatFs noFatStart.vol [2] (2, i) := by
    decide +kernel
  intro he
  have hc : e = (2, e.2) := Prod.ext (List.mem_singleton.mp he.1) rfl
  rw [hc] at he
  exact h e.2 he.2.1 he

/-- `fat32_mount` accepts a volume with `num_fats = 0`, and the flush after a create writes the
table over the new entry: the cluster of the file is lost. -/
theorem create_loses_cluster :
    let s := driverAfter noFatFs noFatStart (.create 0 [65#8] ⟨0, 0⟩)
    fat32Mount (sampleDisk 0) = some (noFatFs, noFatStart.vol) ∧ noFatFs.Covers ∧
      AllocInv noFatFs [2] noFatStart.vol ∧
      (driver noFatFs IsAscii noFatStart.vol).Reachable s ∧
        ∀ root, ¬ AllocInv noFatFs root s.vol := by
  intro s
  have hname : IsAscii [65#8] := by
    intro c hc
    rw [List.mem_singleton.mp hc]
    decide
  have hmake : driverApply noFatFs noFatStart (.create 0 [65#8] ⟨0, 0⟩) = some (s, 0) :=
    driverApply_after (by decide +kernel)
  have hchain : FatChain noFatFs noFatStart.vol 2 [2] :=
    ⟨rfl, by decide, by show fatEof ≤ fatNextCluster noFatFs noFatStart.vol 2; decide +kernel⟩
  have hfirst : ∀ j, j < noFatFs.entryCount →
      readCluster noFatFs noFatStart.vol 2 (32*j) = 0#8 := by decide +kernel
  have hwf : Wf noFatFs [2] ∅ noFatStart.vol := by
    refine { rootChain := hchain, chains := (fun _ hc => nomatch hc)
             apartRoot := (fun _ hc => nomatch hc), apart := (fun _ hc => nomatch hc), endMark := ?_
             starts := fun e he => absurd he (noFat_unused e)
             inj := fun e _ he => absurd he (noFat_unused e) }
    intro x hx i j _ hj _
    rw [List.mem_singleton.mp hx]
    exact hfirst j hj
  have hfree : ∀ y, y < 13 → 2 ≤ y → noFatStart.vol.fatGet y ≠ 0 → y ∈ [2] := by decide +kernel
  have halloc : AllocInv noFatFs [2] noFatStart.vol :=
    .of_unused hwf noFat_unused (fun y hy => hfree y hy.2 hy.1)
  refine ⟨rfl, ⟨by decide, by decide⟩, halloc,
    .step (i := .create 0 [65#8] ⟨0, 0⟩) (.init ⟨rfl, rfl⟩) ⟨hname, 0, hmake⟩, fun root h => ?_⟩
  -- any directory of the state after the call is the cluster 2 alone, where the entry is gone
  have hnext : fatNextCluster noFatFs s.vol 2 = fatEof + 7 := by decide +kernel
  have hroot : root = [2] := by
    have hr := h.rootChain
    cases root with
    | nil => exact absurd (show fatEof ≤ 2 from hr) (by decide)
    | cons x root =>
      obtain ⟨rfl, -, hrest⟩ := hr
      cases root with
      | nil => rfl
      | cons y root =>
        have hy : noFatFs.IsData y := hrest.2.1
        have hy' : fatNextCluster noFatFs s.vol 2 = y := hrest.1
        rw [← hy', hnext] at hy
        exact absurd hy (by decide)
  subst hroot
  have hdata : noFatFs.IsData 3 := by decide
  have hused : s.vol.fatGet 3 ≠ 0 := by decide +kernel
  have hgone : ∀ i, i < noFatFs.entryCount → ¬ Used noFatFs s.vol [2] (2, i) := by decide +kernel
  rcases h.noneLost 3 hdata hused with hm | ⟨d, ⟨e, he, -⟩, -⟩
  · exact absurd hm (by decide)
  · have hc : e = (2, e.2) := Prod.ext (List.mem_singleton.mp he.1) rfl
    rw [hc] at he
    exact hgone e.2 he.2.1 he

end SukiOS.Fat32
