import SukiOS.VfsPath

/-! Reading and writing through one descriptor: `fat32_read` does not look at the size of the file,
only at the end of its chain. -/
namespace SukiOS.Fat32
open ByteMemory

/-- The descriptor stands at `pos` of a file with this first cluster and size. -/
structure OpenAt (s : Vfs) (fd : ℕ) (v : Vol) (start size pos : ℕ) : Prop where
  vol : s.vol = v
  desc : ∃ d, s.fds fd = some d ∧ d.node.file.startCluster = start ∧ d.node.file.size = size ∧
    d.pos = pos

section Read
variable {fs : Fs} {s : Vfs} {v : Vol} {fd start size pos count : ℕ} {L : List ℕ} {cs : List ℕ}

theorem toInt32_eq_iff (n : ℕ) : toInt32 n = n ↔ n < 2^31 := by
  unfold toInt32
  split <;> omega

/-- What `vfs_read` returns, and where it leaves the descriptor. -/
theorem vfsRead_spec (fs : Fs) (h : OpenAt s fd v start size pos) (count : ℕ) :
    ∃ f : File, f.startCluster = start ∧ f.size = size ∧
      (vfsRead fs s fd count).bytes = (fat32Read fs v (fat32Seek fs v f pos) count).bytes ∧
      (vfsRead fs s fd count).lbas = (fat32Read fs v (fat32Seek fs v f pos) count).lbas ∧
      (vfsRead fs s fd count).ret = toInt32 (vfsRead fs s fd count).bytes.length ∧
      OpenAt (vfsRead fs s fd count).state fd v start size
        (advance pos (vfsRead fs s fd count).ret) := by
  obtain ⟨hv, d, hd, rfl, rfl, rfl⟩ := h
  unfold vfsRead
  rw [hd, hv]
  dsimp only
  refine ⟨d.node.file, rfl, rfl, rfl, rfl, rfl, rfl, ?_⟩
  exact ⟨_, Function.update_self _ _ _, rfl, rfl, rfl⟩

/-- Reading in the clusters of the file. -/
theorem vfsRead_inside (hf : fs.Ok) (h : OpenAt s fd v start size pos) (hL : FatChain fs v start L)
    (hpos : pos ≤ size) (hin : pos < L.length * fs.clusterSize) (count : ℕ) :
    (vfsRead fs s fd count).bytes =
      (List.range (min count (L.length * fs.clusterSize - pos))).map
        (fun i => chainByte fs v L (pos + i)) := by
  obtain ⟨f, rfl, rfl, hb, -⟩ := vfsRead_spec fs h count
  have hmin : min pos f.size = pos := Nat.min_eq_left hpos
  have hread := (read_inside hf hL pos count (by rw [hmin]; exact hin)).1
  rw [hmin] at hread
  rw [hb, hread]

/-- Reading where the clusters end: one more sector is read. -/
theorem vfsRead_end (hf : fs.Ok) (h : OpenAt s fd v start size pos) (hL : FatChain fs v start L)
    (hne : L ≠ []) (hpos : pos = size) (hend : pos = L.length * fs.clusterSize) {count : ℕ}
    (hcount : 0 < count) : (vfsRead fs s fd count).bytes.length = min count 512 := by
  obtain ⟨f, rfl, rfl, hb, -⟩ := vfsRead_spec fs h count
  rw [hb]
  exact (read_at_end hf hL hne pos hcount (by rw [Nat.min_eq_left (by omega), hend])).1

/-- Each of the reads returns what is left of the file, at most what was asked for. -/
def ReadsTo (fs : Fs) (fd : ℕ) (bytes : ℕ → Byte) (size : ℕ) : Vfs → ℕ → List ℕ → Prop
  | _, _, [] => True
  | s, done, count::cs =>
    (vfsRead fs s fd count).ret = (min count (size - done) : ℕ) ∧
    (vfsRead fs s fd count).bytes =
      (List.range (min count (size - done))).map (fun i => bytes (done + i)) ∧
    ReadsTo fs fd bytes size (vfsRead fs s fd count).state (done + min count (size - done)) cs

/-- The reads end within the size, or the last one goes beyond it where the size fills the clusters;
no amount is too large for an `int`. -/
def ReadsInside (capacity size : ℕ) : ℕ → List ℕ → Prop
  | _, [] => True
  | done, count::cs => min count (size - done) < 2^31 ∧
    (done + count ≤ size ∧ ReadsInside capacity size (done + count) cs ∨
      size < done + count ∧ size = capacity ∧ done < size ∧ cs = [])

/-- A read that returns `n` bytes at the position. -/
theorem OpenAt.advanced (h : OpenAt s fd v start size pos) {n : ℕ}
    (hret : (vfsRead fs s fd count).ret = n) (hn : pos + n < 2^32) :
    OpenAt (vfsRead fs s fd count).state fd v start size (pos + n) := by
  obtain ⟨f, -, -, -, -, -, hst⟩ := vfsRead_spec fs h count
  rw [hret] at hst
  have hadv : advance pos (n : ℤ) = pos + n := by
    unfold advance
    by_cases h0 : (0 : ℤ) < n
    · rw [if_pos h0, Int.toNat_natCast, Nat.mod_eq_of_lt hn]
    · rw [if_neg h0]
      omega
  rwa [hadv] at hst

/-- The reads return exactly the file when they stop in time. -/
theorem readsTo_iff (hf : fs.Ok) (hL : FatChain fs v start L) (hne : L ≠ [])
    (hfit : size ≤ L.length * fs.clusterSize) (hsize : size < 2^32) : ∀ (cs : List ℕ) (s : Vfs)
    (pos : ℕ), OpenAt s fd v start size pos → pos ≤ size → (∀ c ∈ cs, 0 < c) →
    (ReadsTo fs fd (chainByte fs v L) size s pos cs ↔
      ReadsInside (L.length * fs.clusterSize) size pos cs) := by
  intro cs
  induction cs with
  | nil => exact fun _ _ _ _ _ => Iff.rfl
  | cons count cs ih =>
    intro s pos h hpos hcs
    have hcount : 0 < count := hcs count List.mem_cons_self
    have hcs' : ∀ c ∈ cs, 0 < c := fun c hc => hcs c (List.mem_cons_of_mem count hc)
    obtain ⟨f, -, -, -, -, hret, -⟩ := vfsRead_spec fs h count
    unfold ReadsTo ReadsInside
    -- the result is right when as many bytes are read, and they fit an `int`
    have hok (n : ℕ) (hlen : (vfsRead fs s fd count).bytes.length = n) :
        (vfsRead fs s fd count).ret = n ↔ n < 2^31 := by
      rw [hret, hlen]
      exact toInt32_eq_iff n
    by_cases hfits : pos + count ≤ size
    · -- all that is asked for is there, and the next reads go on behind it
      have hin : pos < L.length * fs.clusterSize := by omega
      have hb := vfsRead_inside hf h hL hpos hin count
      have hmin : min count (L.length * fs.clusterSize - pos) = min count (size - pos) := by omega
      have hm : min count (size - pos) = count := by omega
      rw [hmin] at hb
      have hlen : (vfsRead fs s fd count).bytes.length = min count (size - pos) := by
        rw [hb, List.length_map, List.length_range]
      constructor
      · rintro ⟨h1, -, h3⟩
        have hst := h.advanced h1 (by omega)
        have h3' := (ih _ _ hst (by omega) hcs').mp h3
        rw [hm] at h3'
        exact ⟨(hok _ hlen).mp h1, Or.inl ⟨hfits, h3'⟩⟩
      · rintro ⟨h1, ⟨-, h3⟩ | ⟨h3, -⟩⟩
        · have hr := (hok _ hlen).mpr h1
          have hst := h.advanced hr (by omega)
          rw [← hm] at h3
          exact ⟨hr, hb, (ih _ _ hst (by omega) hcs').mpr h3⟩
        · omega
    · have hm : min count (size - pos) = size - pos := by omega
      by_cases hin : pos < L.length * fs.clusterSize
      · -- the read goes to the end of the clusters, so it is right when the file ends there too
        have hb := vfsRead_inside hf h hL hpos hin count
        constructor
        · rintro ⟨h1, h2, h3⟩
          have hlen := congrArg List.length (hb.symm.trans h2)
          rw [List.length_map, List.length_map, List.length_range, List.length_range] at hlen
          have hcap : size = L.length * fs.clusterSize := by omega
          refine ⟨?_, Or.inr ⟨by omega, hcap, by omega, ?_⟩⟩
          · apply (hok _ ?_).mp h1
            rw [h2, List.length_map, List.length_range]
          · cases cs with
            | nil => rfl
            | cons c cs =>
              -- the next read starts where the clusters end
              have hst := h.advanced h1 (by omega)
              have hpos' : pos + min count (size - pos) = size := by omega
              have hc := hcs' c List.mem_cons_self
              have hmore := vfsRead_end hf hst hL hne hpos' (hpos'.trans hcap) hc
              rw [h3.2.1, List.length_map, List.length_range] at hmore
              omega
        · rintro ⟨h1, ⟨h2, -⟩ | ⟨-, hcap, -, rfl⟩⟩
          · omega
          · have hmin : min count (L.length * fs.clusterSize - pos) = min count (size - pos) := by
              rw [hcap]
            rw [hmin] at hb
            have hlen : (vfsRead fs s fd count).bytes.length = min count (size - pos) := by
              rw [hb, List.length_map, List.length_range]
            exact ⟨(hok _ hlen).mpr h1, hb, trivial⟩
      · -- at the end of the clusters `fat32_read` still reads up to a sector
        have hlen := vfsRead_end hf h hL hne (by omega) (by omega) hcount
        constructor
        · rintro ⟨-, h2, -⟩
          rw [h2, List.length_map, List.length_range] at hlen
          omega
        · rintro ⟨-, ⟨h2, -⟩ | ⟨-, -, h3, -⟩⟩
          · omega
          · omega

/-- A file without clusters. -/
theorem readsTo_empty (cs : List ℕ) : ∀ (s : Vfs), OpenAt s fd v 0 0 0 →
    ReadsTo fs fd (chainByte fs v []) 0 s 0 cs := by
  induction cs with
  | nil => exact fun _ _ => trivial
  | cons count cs ih =>
    intro s h
    obtain ⟨f, h1, h2, hb, -, hret, hst⟩ := vfsRead_spec fs h count
    have hnil : (vfsRead fs s fd count).bytes = [] := by
      rw [hb]
      exact (read_empty h1 h2 0 count).1
    have hzero : (vfsRead fs s fd count).ret = 0 := by
      rw [hret, hnil]
      rfl
    have hm : min count (0 - 0) = 0 := by omega
    rw [hzero] at hst
    unfold ReadsTo
    rw [hm]
    exact ⟨hzero, hnil, ih _ hst⟩

end Read

section Opened
variable {fs : Fs} {s s' : Vfs} {path : List Byte} {fd : ℕ} {d : Fd} {L cs : List ℕ}

theorem fat32Open_size {v : Vol} {name : List Byte} {f : File}
    (h : fat32Open fs v name = some (some f)) : f.size < 2^32 := by
  unfold fat32Open at h
  obtain ⟨r, -, h⟩ := Option.bind_eq_some_iff.mp h
  cases r with
  | none => exact nomatch Option.some.inj h
  | some e =>
    rw [← Option.some.inj (Option.some.inj h)]
    exact load_lt _ _ 4

/-- A descriptor that was just opened. -/
theorem vfsOpen_openAt (hopen : vfsOpen fs s path = some (some (s', fd)))
    (hd : s'.fds fd = some d) :
    OpenAt s' fd s.vol d.node.file.startCluster d.node.file.size 0 ∧ d.node.file.size < 2^32 ∧
      d.node.size = d.node.file.size ∧ d.node.inode = d.node.file.startCluster := by
  obtain ⟨f, hv, hfd, p, tok, -, -, hfile⟩ := vfsOpen_fd hopen
  obtain rfl := Option.some.inj (hd.symm.trans hfd)
  exact ⟨⟨hv, _, hfd, rfl, rfl, rfl⟩, fat32Open_size hfile, rfl, rfl⟩

/-- Reading a file that was just opened yields the file exactly when the reads stop in time. -/
theorem read_to_end_iff (hf : fs.Ok) (hopen : vfsOpen fs s path = some (some (s', fd)))
    (hd : s'.fds fd = some d) (hL : FileChain fs s.vol d.node.file.startCluster L)
    (hfit : d.node.file.size ≤ L.length * fs.clusterSize) (hcs : ∀ c ∈ cs, 0 < c) :
    ReadsTo fs fd (chainByte fs s.vol L) d.node.file.size s' 0 cs ↔
      L = [] ∨ ReadsInside (L.length * fs.clusterSize) d.node.file.size 0 cs := by
  obtain ⟨hst, hsize, -⟩ := vfsOpen_openAt hopen hd
  rcases hL with ⟨h0, rfl⟩ | ⟨hne, hL⟩
  · have hzero : d.node.file.size = 0 := by
      rw [List.length_nil, Nat.zero_mul] at hfit
      omega
    rw [h0, hzero] at hst
    rw [hzero]
    exact ⟨fun _ => Or.inl rfl, fun _ => readsTo_empty cs s' hst⟩
  · rw [readsTo_iff hf hL hne hfit hsize cs s' 0 hst (Nat.zero_le _) hcs]
    exact ⟨Or.inr, fun h => h.resolve_left hne⟩

end Opened

/-! ### The sectors that are read and written -/

inductive FileOp where
  | read (count : ℕ)
  | write (src : List Byte)

/-- The state after a call on the descriptor, and the sectors it passes to the disk. -/
def fileStep (fs : Fs) (fd : ℕ) (s : Vfs) : FileOp → Vfs × List ℕ
  | .read count => ((vfsRead fs s fd count).state, (vfsRead fs s fd count).lbas)
  | .write src => ((vfsWrite fs s fd src).state, (vfsWrite fs s fd src).lbas)

/-- Every call touches sectors of the chain of the file only, as it is after the call. -/
def StaysInside (fs : Fs) (fd start : ℕ) : Vfs → List FileOp → Prop
  | _, [] => True
  | s, op::ops =>
    (∃ L, FileChain fs (fileStep fs fd s op).1.vol start L ∧
      ∀ l ∈ (fileStep fs fd s op).2, InChain fs L l) ∧
    StaysInside fs fd start (fileStep fs fd s op).1 ops

/-- The call is not a read at the end of the clusters, unless the sector behind the last cluster
belongs to the file too, and not a write to a file without clusters. -/
def FileOp.Within (fs : Fs) (v : Vol) (d : Fd) : FileOp → Prop
  | .read count => count = 0 ∨ d.node.file.startCluster = 0 ∨
      ∃ L, ∃ hL : L ≠ [], FatChain fs v d.node.file.startCluster L ∧
        (min d.pos d.node.file.size < L.length * fs.clusterSize ∨
          InChain fs L ((clusterToLba fs (L.getLast hL) + fs.sectorsPerCluster) % 2^32))
  | .write src => src = [] ∨ d.node.file.startCluster ≠ 0

/-- All the calls are like this, each in the state it is made in. -/
def AllWithin (fs : Fs) (fd : ℕ) : Vfs → List FileOp → Prop
  | _, [] => True
  | s, op::ops => (∃ d, s.fds fd = some d ∧ op.Within fs s.vol d) ∧
      AllWithin fs fd (fileStep fs fd s op).1 ops

section Sectors
variable {fs : Fs} {s s' : Vfs} {v : Vol} {path : List Byte} {fd start count : ℕ} {d : Fd}
  {L : List ℕ} {src : List Byte} {op : FileOp} {ops : List FileOp}

/-- The descriptor is open on a file whose clusters hold its size. -/
structure FitsChain (fs : Fs) (fd start : ℕ) (s : Vfs) (d : Fd) (L : List ℕ) : Prop where
  desc : s.fds fd = some d
  first : d.node.file.startCluster = start
  chain : FileChain fs s.vol start L
  fits : d.node.file.size ≤ L.length * fs.clusterSize

theorem FileChain.nil_of_zero (h : FileChain fs v 0 L) : L = [] := by
  rcases h with ⟨-, h⟩ | ⟨-, h⟩
  · exact h
  · cases L with
    | nil => rfl
    | cons x L =>
      have hx := h.2.1.1
      rw [← h.1] at hx
      omega

theorem FileChain.ne_nil (h : FileChain fs v start L) (h0 : start ≠ 0) :
    L ≠ [] ∧ FatChain fs v start L := by
  rcases h with ⟨hz, -⟩ | h
  · exact absurd hz h0
  · exact h

/-- A read moves the descriptor only. -/
theorem FitsChain.read (h : FitsChain fs fd start s d L) (count : ℕ) :
    ∃ d', FitsChain fs fd start (fileStep fs fd s (.read count)).1 d' L := by
  have hstate : (fileStep fs fd s (.read count)).1 = (vfsRead fs s fd count).state := rfl
  unfold vfsRead at hstate
  rw [h.desc] at hstate
  rw [hstate]
  exact ⟨_, Function.update_self _ _ _, h.first, h.chain, h.fits⟩

theorem read_lbas (hd : s.fds fd = some d) : (fileStep fs fd s (.read count)).2 =
    (fat32Read fs s.vol (fat32Seek fs s.vol d.node.file d.pos) count).lbas := by
  unfold fileStep vfsRead
  rw [hd]

theorem read_vol : (fileStep fs fd s (.read count)).1.vol = s.vol := by
  unfold fileStep vfsRead
  dsimp only
  split <;> rfl

theorem read_inside_iff (hf : fs.Ok) (h : FitsChain fs fd start s d L) :
    (∃ L', FileChain fs (fileStep fs fd s (.read count)).1.vol start L' ∧
      ∀ l ∈ (fileStep fs fd s (.read count)).2, InChain fs L' l) ↔
    (FileOp.read count).Within fs s.vol d := by
  have hstart := h.first
  have hchain := h.chain
  have hfits := h.fits
  rw [read_lbas h.desc, read_vol]
  subst hstart
  unfold FileOp.Within
  by_cases hc : count = 0
  · refine ⟨fun _ => Or.inl hc, fun _ => ⟨L, hchain, fun l hl => ?_⟩⟩
    rw [hc] at hl
    exact nomatch hl
  by_cases h0 : d.node.file.startCluster = 0
  · refine ⟨fun _ => Or.inr (Or.inl h0), fun _ => ⟨L, hchain, fun l hl => ?_⟩⟩
    have hnil := (h0 ▸ hchain).nil_of_zero
    rw [hnil, List.length_nil, Nat.zero_mul] at hfits
    rw [(read_empty h0 (by omega) d.pos count).2] at hl
    exact nomatch hl
  obtain ⟨hne, hL⟩ := hchain.ne_nil h0
  by_cases hin : min d.pos d.node.file.size < L.length * fs.clusterSize
  · exact ⟨fun _ => Or.inr (Or.inr ⟨L, hne, hL, Or.inl hin⟩),
      fun _ => ⟨L, hchain, (read_inside hf hL d.pos count hin).2⟩⟩
  · -- at the end of the chain the one sector that is read lies behind the last cluster
    have hend : min d.pos d.node.file.size = L.length * fs.clusterSize := by omega
    have hcount : 0 < count := by omega
    have hlbas := (read_at_end hf hL hne d.pos hcount hend).2
    rw [hlbas]
    constructor
    · rintro ⟨L', hL', hall⟩
      obtain rfl : L' = L := hL'.unique hf hchain
      exact Or.inr (Or.inr ⟨L', hne, hL, Or.inr (hall _ List.mem_cons_self)⟩)
    · rintro (hno | hno | ⟨L', hne', hL', hlt | hsec⟩)
      · exact absurd hno hc
      · exact absurd hno h0
      · rw [hL'.unique hf hL] at hlt
        exact absurd hlt hin
      · obtain rfl : L' = L := hL'.unique hf hL
        refine ⟨L', hchain, fun l hl => ?_⟩
        rw [List.mem_singleton.mp hl]
        exact hsec

/-- Writing nothing to an empty file. -/
theorem write_nothing (fs : Fs) (v : Vol) (file : File) (hs : file.size = 0) (off : ℕ) :
    (fat32Write fs v (fat32Seek fs v file off) []).vol = v ∧
    (fat32Write fs v (fat32Seek fs v file off) []).ret = 0 ∧
    (fat32Write fs v (fat32Seek fs v file off) []).lbas = [] ∧
    (fat32Write fs v (fat32Seek fs v file off) []).file.startCluster = file.startCluster ∧
    (fat32Write fs v (fat32Seek fs v file off) []).file.size = 0 := by
  rw [fat32Seek_empty hs]
  refine ⟨rfl, rfl, rfl, rfl, ?_⟩
  show (if file.size < 0 then 0 else file.size) = 0
  rw [hs]
  rfl

/-- A write through the descriptor. -/
theorem write_state (fs : Fs) (src : List Byte) (hd : s.fds fd = some d) :
    (fileStep fs fd s (.write src)).2 =
      (fat32Write fs s.vol (fat32Seek fs s.vol d.node.file d.pos) src).lbas ∧
    (fileStep fs fd s (.write src)).1.vol =
      (fat32Write fs s.vol (fat32Seek fs s.vol d.node.file d.pos) src).vol ∧
    ∃ d', (fileStep fs fd s (.write src)).1.fds fd = some d' ∧ d'.node.file =
      (fat32Write fs s.vol (fat32Seek fs s.vol d.node.file d.pos) src).file := by
  unfold fileStep vfsWrite
  rw [hd]
  exact ⟨rfl, rfl, _, Function.update_self _ _ _, rfl⟩

/-- The first sector that is written to a file without clusters is one of cluster 0. -/
theorem write_outside (hf : fs.Ok) {file : File} (h0 : file.startCluster = 0) (hs : file.size = 0)
    (off : ℕ) (hsrc : src ≠ []) :
    (fat32Write fs v (fat32Seek fs v file off) src).lbas ≠ [] := by
  have hpos := hf.clusterSize_pos
  rw [fat32Seek_zero h0 hs]
  have hloop (n : ℕ) : (writeLoop fs (n+1) v src 0 0).lbas ≠ [] := by
    unfold writeLoop
    rw [if_neg hsrc, if_neg (by omega)]
    exact List.cons_ne_nil _ _
  unfold fat32Write
  dsimp only
  cases src with
  | nil => exact absurd rfl hsrc
  | cons b src =>
    have hne := hloop src.length
    rw [List.length_cons]
    split
    · exact hne
    · exact hne

theorem FitsChain.write (hf : fs.Ok) (h : FitsChain fs fd start s d L)
    (hw : (FileOp.write src).Within fs s.vol d) :
    (∃ L', FileChain fs (fileStep fs fd s (.write src)).1.vol start L' ∧
      ∀ l ∈ (fileStep fs fd s (.write src)).2, InChain fs L' l) ∧
    ∃ d' L', FitsChain fs fd start (fileStep fs fd s (.write src)).1 d' L' := by
  have hstart := h.first
  have hchain := h.chain
  have hfits := h.fits
  obtain ⟨hlbas, hvol, d', hd', hfile⟩ := write_state fs src h.desc
  subst hstart
  by_cases h0 : d.node.file.startCluster = 0
  · -- a file without clusters: nothing is written
    have hnil := (h0 ▸ hchain).nil_of_zero
    have hsrc : src = [] := by
      rcases hw with hsrc | hne
      · exact hsrc
      · exact absurd h0 hne
    subst hsrc hnil
    rw [List.length_nil, Nat.zero_mul] at hfits
    obtain ⟨h1, -, h2, -, h3⟩ := write_nothing fs s.vol d.node.file (by omega) d.pos
    rw [h1] at hvol
    rw [h2] at hlbas
    refine ⟨⟨[], hvol ▸ hchain, fun l hl => ?_⟩, d', [], hd', ?_, hvol ▸ hchain, ?_⟩
    · rw [hlbas] at hl
      exact nomatch hl
    · rw [hfile, fat32Write_start]
    · rw [hfile, h3]
      exact Nat.zero_le _
  · obtain ⟨hne, hL⟩ := hchain.ne_nil h0
    obtain ⟨N, hext, hin, hst, hsize⟩ := write_spec hf hL hne d.pos src
    rw [← hvol] at hext
    have hgrown : FileChain fs (fileStep fs fd s (.write src)).1.vol d.node.file.startCluster
        (L ++ N) := Or.inr ⟨List.append_ne_nil_of_left_ne_nil hne N, hext.chain⟩
    refine ⟨⟨L ++ N, hgrown, ?_⟩, d', L ++ N, hd', ?_, hgrown, ?_⟩
    · rw [hlbas]
      exact hin
    · rw [hfile, hst]
    · rw [hfile]
      exact hsize hfits

theorem write_inside_iff (hf : fs.Ok) (h : FitsChain fs fd start s d L) :
    (∃ L', FileChain fs (fileStep fs fd s (.write src)).1.vol start L' ∧
      ∀ l ∈ (fileStep fs fd s (.write src)).2, InChain fs L' l) ↔
    (FileOp.write src).Within fs s.vol d := by
  refine ⟨?_, fun hw => (h.write hf hw).1⟩
  rintro ⟨L', hL', hall⟩
  by_contra hno
  obtain ⟨hsrc, hz⟩ := not_or.mp hno
  have h0 : d.node.file.startCluster = 0 := not_not.mp hz
  have hzero : start = 0 := h.first.symm.trans h0
  have hnil : L = [] := (hzero ▸ h.chain).nil_of_zero
  have hnil' : L' = [] := (hzero ▸ hL').nil_of_zero
  have hfits := h.fits
  rw [hnil, List.length_nil, Nat.zero_mul] at hfits
  have hout := write_outside (v := s.vol) hf h0 (by omega) d.pos hsrc
  rw [(write_state fs src h.desc).1] at hall
  obtain ⟨l, hl⟩ := List.exists_mem_of_ne_nil _ hout
  obtain ⟨y, hy, -⟩ := hall l hl
  rw [hnil'] at hy
  exact nomatch hy

theorem stays_inside_of_fits (hf : fs.Ok) (ops : List FileOp) : ∀ (s : Vfs) (d : Fd) (L : List ℕ),
    FitsChain fs fd start s d L → (StaysInside fs fd start s ops ↔ AllWithin fs fd s ops) := by
  induction ops with
  | nil => exact fun _ _ _ _ => Iff.rfl
  | cons op ops ih =>
    intro s d L h
    unfold StaysInside AllWithin
    have hiff : (∃ L', FileChain fs (fileStep fs fd s op).1.vol start L' ∧
        ∀ l ∈ (fileStep fs fd s op).2, InChain fs L' l) ↔ op.Within fs s.vol d := by
      cases op with
      | read count => exact read_inside_iff hf h
      | write src => exact write_inside_iff hf h
    have hnext (hw : op.Within fs s.vol d) :
      ∃ d' L', FitsChain fs fd start (fileStep fs fd s op).1 d' L' := by
      cases op with
      | read count =>
        obtain ⟨d', h'⟩ := h.read count
        exact ⟨d', L, h'⟩
      | write src => exact (h.write hf hw).2
    constructor
    · rintro ⟨hin, hrest⟩
      have hw := hiff.mp hin
      obtain ⟨d', L', h'⟩ := hnext hw
      exact ⟨⟨d, h.desc, hw⟩, (ih _ _ _ h').mp hrest⟩
    · rintro ⟨⟨d1, hd1, hw⟩, hrest⟩
      obtain rfl : d1 = d := Option.some.inj (hd1.symm.trans h.desc)
      obtain ⟨d', L', h'⟩ := hnext hw
      exact ⟨hiff.mpr hw, (ih _ _ _ h').mpr hrest⟩

/-- Reads and writes of an opened file stay in its clusters exactly when no read starts at their
end and no write goes to a file without clusters. -/
theorem file_io_inside_iff (hf : fs.Ok) (hopen : vfsOpen fs s path = some (some (s', fd)))
    (hd : s'.fds fd = some d) (hL : FileChain fs s.vol d.node.file.startCluster L)
    (hfit : d.node.file.size ≤ L.length * fs.clusterSize) :
    StaysInside fs fd d.node.file.startCluster s' ops ↔ AllWithin fs fd s' ops := by
  obtain ⟨⟨hv, -⟩, -⟩ := vfsOpen_openAt hopen hd
  exact stays_inside_of_fits hf ops s' d L ⟨hd, rfl, hv ▸ hL, hfit⟩

end Sectors

/-! ### Writing a new file -/

/-- The state after the writes, and their results. -/
def writeAll (fs : Fs) (fd : ℕ) : Vfs → List (List Byte) → Vfs × List ℤ
  | s, [] => (s, [])
  | s, src::srcs =>
    let r := vfsWrite fs s fd src
    let rest := writeAll fs fd r.state srcs
    (rest.1, r.ret :: rest.2)

/-- The writes return their lengths, the size is the total length in the handle, from
`vfs_get_size` and after `vfs_close` in the directory, and reading the file again gives the data. -/
def AppendsExactly (fs : Fs) (s : Vfs) (fd : ℕ) (path : List Byte) (srcs : List (List Byte))
    (now : Stamp) : Prop :=
  let w := writeAll fs fd s srcs
  w.2 = srcs.map (fun src => (src.length : ℤ)) ∧
  (∃ d, w.1.fds fd = some d ∧ d.node.file.size = srcs.flatten.length) ∧
  vfsGetSize w.1 fd = srcs.flatten.length ∧
  ∃ s', vfsClose fs w.1 fd now = some (s', 0) ∧
    ∃ s'' fd', vfsOpen fs s' path = some (some (s'', fd')) ∧
      vfsGetSize s'' fd' = srcs.flatten.length ∧
      (vfsRead fs s'' fd' srcs.flatten.length).ret = srcs.flatten.length ∧
      (vfsRead fs s'' fd' srcs.flatten.length).bytes = srcs.flatten

/-- A file was made in the state `s`, and opened: `d` is its descriptor. -/
structure NewlyOpened (fs : Fs) (s s' : Vfs) (path : List Byte) (now now' : Stamp) (fd : ℕ)
    (d : Fd) : Prop where
  string : IsCString path
  made : ∃ s1, vfsCreate fs s path now now' = some (s1, 0) ∧
    vfsOpen fs s1 path = some (some (s', fd))
  desc : s'.fds fd = some d
  isNew : ∃ p v f, path = slash::p ∧ fat32CreateFile fs s.vol p now = some (some (v, f)) ∧
    d.node.inode = f.startCluster

section Append
variable {fs : Fs} {root : List ℕ} {own : Set ℕ} {s s' : Vfs} {v : Vol} {path : List Byte}
  {now now' : Stamp} {fd n : ℕ} {d : Fd} {srcs : List (List Byte)}

/-- The size in the node is the one that the file had when it was opened. -/
theorem writeAll_node (fs : Fs) (srcs : List (List Byte)) : ∀ (s : Vfs) (d : Fd),
    s.fds fd = some d →
    ∃ d', (writeAll fs fd s srcs).1.fds fd = some d' ∧ d'.node.size = d.node.size := by
  induction srcs with
  | nil => exact fun s d hd => ⟨d, hd, rfl⟩
  | cons src srcs ih =>
    intro s d hd
    unfold writeAll
    dsimp only
    have hstep : ∃ d1, (vfsWrite fs s fd src).state.fds fd = some d1 ∧
      d1.node.size = d.node.size := by
      unfold vfsWrite
      rw [hd]
      exact ⟨_, Function.update_self _ _ _, rfl⟩
    obtain ⟨d1, hd1, hsize⟩ := hstep
    obtain ⟨d', hd', hsize'⟩ := ih _ d1 hd1
    exact ⟨d', hd', hsize'.trans hsize⟩

/-- Writing nothing any number of times. -/
theorem writeAll_nothing (fs : Fs) (srcs : List (List Byte)) : ∀ (s : Vfs) (d : Fd),
    s.fds fd = some d →
    d.node.file.size = 0 → (∀ src ∈ srcs, src = []) →
    (writeAll fs fd s srcs).2 = srcs.map (fun src => (src.length : ℤ)) ∧
    (writeAll fs fd s srcs).1.vol = s.vol ∧
    ∃ d', (writeAll fs fd s srcs).1.fds fd = some d' ∧
      d'.node.file.startCluster = d.node.file.startCluster ∧ d'.node.file.size = 0 := by
  induction srcs with
  | nil => exact fun s d hd hs _ => ⟨rfl, rfl, d, hd, rfl, hs⟩
  | cons src srcs ih =>
    intro s d hd hs hall
    obtain rfl : src = [] := hall src List.mem_cons_self
    obtain ⟨h1, h2, -, h3, h4⟩ := write_nothing fs s.vol d.node.file hs d.pos
    unfold writeAll
    dsimp only
    have hstep : (vfsWrite fs s fd []).ret = 0 ∧ (vfsWrite fs s fd []).state.vol = s.vol ∧
        ∃ d1, (vfsWrite fs s fd []).state.fds fd = some d1 ∧
          d1.node.file.startCluster = d.node.file.startCluster ∧ d1.node.file.size = 0 := by
      unfold vfsWrite
      rw [hd]
      exact ⟨h2, h1, _, Function.update_self _ _ _, h3, h4⟩
    obtain ⟨hret, hvol, d1, hd1, hstart, hsize⟩ := hstep
    obtain ⟨hrets, hvol', d', hd', hstart', hsize'⟩ :=
      ih _ d1 hd1 hsize (fun src hm => hall src (List.mem_cons_of_mem _ hm))
    refine ⟨?_, hvol'.trans hvol, d', hd', hstart'.trans hstart, hsize'⟩
    rw [hret, hrets]
    rfl

/-- The entry of a file that was made and opened. -/
theorem NewlyOpened.entry (hf : fs.Ok) (hw : Wf fs root own s.vol)
    (h : NewlyOpened fs s s' path now now' fd d) :
    ∃ own' p tok e, path = slash::p ∧ component p = some tok ∧ Wf fs root own' s'.vol ∧
      findEntry fs s'.vol (nameMatches (toShort tok)) = some (some e) ∧
      d.node = nodeOf (fileAt fs s'.vol e) ∧ startOf fs s'.vol e ≠ 0 ∧
      entSize (readCluster fs s'.vol e.1) e.2 = 0 := by
  obtain ⟨s1, hmade, hopen⟩ := h.made
  obtain ⟨p, slot, n, v1, rfl, hp, hcr, hs, hdir, hfat, -, hclose, hw'⟩ :=
    vfsCreate_cases hf hw hmade h.string
  obtain ⟨f, hv, hfd, p', tok, hpp, htok, hfile⟩ := vfsOpen_fd hopen
  obtain ⟨-, rfl⟩ := List.cons.inj hpp
  obtain rfl := Option.some.inj (h.desc.symm.trans hfd)
  obtain ⟨p', v, f', hpp, hmade', hinode⟩ := h.isNew
  obtain ⟨-, rfl⟩ := List.cons.inj hpp
  obtain ⟨-, rfl⟩ := Prod.mk.inj (Option.some.inj (Option.some.inj (hs.symm.trans hmade')))
  have hw1 := hw.create hf hcr hp
  rcases open_cases hf hw' tok with hn | ⟨e, hfind, hu, hopen'⟩
  · exact nomatch Option.some.inj (hn.symm.trans hfile)
  · obtain rfl := Option.some.inj (Option.some.inj (hopen'.symm.trans hfile))
    have hstart : startOf fs s1.vol e = n := hinode
    have hu1 : Used fs v1 root e := hdir.used.mp hu
    have hstart1 : startOf fs v1 e = n := (hdir.startOf hu1.1 hu1.2.1).symm.trans hstart
    have hn0 : n ≠ 0 := by
      have := hcr.data.1
      omega
    have hsize := close_size hf hw1 ⟨n, n, 0, 0⟩ hu1 hstart1 hn0 (Nat.two_pow_pos 32) hclose
    rw [hv]
    refine ⟨_, p, tok, e, rfl, htok, hw', hfind, rfl, ?_, hsize⟩
    rw [hstart]
    exact hn0

/-- Opening the file again after it was closed with size 0. -/
theorem reopen_empty (hf : fs.Ok) (hw : Wf fs root own v) {s : Vfs} {d : Fd} {tok p : List Byte}
    {e : Slot} (hv : s.vol = v) (hfd : fd < maxFds) (hd : s.fds fd = some d)
    (hfind : findEntry fs v (nameMatches (toShort tok)) = some (some e))
    (htok : component p = some tok) (hstart : d.node.file.startCluster = startOf fs v e)
    (h0 : startOf fs v e ≠ 0) (hsize : d.node.file.size = 0) (now : Stamp) :
    ∃ s', vfsClose fs s fd now = some (s', 0) ∧ ∃ s'' fd',
      vfsOpen fs s' (slash::p) = some (some (s'', fd')) ∧ vfsGetSize s'' fd' = 0 := by
  obtain ⟨v', hc, hfat, hdir, -⟩ := close_same hf hw d.node.file now
  obtain ⟨hu, hmatch, hfirst⟩ := (hw.findEntry_iff hf).mp hfind
  have hw' := hw.close hf hc
  have hname (e' : Slot) (he' : Used fs v root e') : foldedName fs v' e' = foldedName fs v e' :=
    hdir.foldedName he'.1 he'.2.1
  -- the close changes the size in an entry, so the name still leads to the same one
  have hfind' : findEntry fs v' (nameMatches (toShort tok)) = some (some e) := by
    rw [hw'.findEntry_iff hf]
    refine ⟨hdir.used.mpr hu, ?_, fun e' he' hb => ?_⟩
    · rw [nameMatches_iff, hname e hu]
      exact (nameMatches_iff e).mp hmatch
    · have hu' := hdir.used.mp he'
      apply Bool.eq_false_iff.mpr
      intro hyes
      have hfold := (nameMatches_iff e').mp hyes
      rw [hname e' hu'] at hfold
      exact nomatch (hfirst e' hu' hb).symm.trans ((nameMatches_iff e').mpr hfold)
  have hsize' := close_size hf hw d.node.file hu hstart.symm (by rw [hstart]; exact h0)
    (by omega) hc
  obtain ⟨k, hk⟩ : ∃ k, firstFreeFd (setFd s.fds fd none) 0 maxFds = some k :=
    firstFreeFd_of_free hfd (Function.update_self _ _ _)
  refine ⟨{ vol := v', fds := setFd s.fds fd none }, ?_, _, k, vfsOpen_iff.mpr
    ⟨p, tok, fileAt fs v' e, rfl, htok, fat32Open_eq hfind', hk, rfl⟩, ?_⟩
  · unfold vfsClose
    rw [hd, hv]
    dsimp only
    rw [hc]
    rfl
  · unfold vfsGetSize setFd
    dsimp only
    rw [Function.update_self]
    exact hsize'.trans hsize

/-- Appending works as far as nothing is written: the size that `vfs_get_size` returns does not
change. -/
theorem append_iff (hf : fs.Ok) (hw : Wf fs root own s.vol)
    (h : NewlyOpened fs s s' path now now' fd d) (closed : Stamp) :
    AppendsExactly fs s' fd path srcs closed ↔ srcs.flatten.length = 0 := by
  obtain ⟨own', p, tok, e, rfl, htok, hw', hfind, hnode, h0, hsize⟩ := h.entry hf hw
  have hnsize : d.node.size = 0 := by
    rw [hnode]
    exact hsize
  constructor
  · -- `vfs_get_size` still reports the size 0 of the open
    rintro ⟨-, -, hget, -⟩
    obtain ⟨d', hd', hsame⟩ := writeAll_node fs srcs s' d h.desc
    unfold vfsGetSize at hget
    rw [hd'] at hget
    dsimp only at hget
    omega
  · intro htotal
    have hflat : srcs.flatten = [] := List.length_eq_zero_iff.mp htotal
    have hall : ∀ src ∈ srcs, src = [] := List.flatten_eq_nil_iff.mp hflat
    have hfsize : d.node.file.size = 0 := by
      rw [hnode]
      exact hsize
    obtain ⟨hrets, hvol, d', hd', hstart', hsize'⟩ :=
      writeAll_nothing fs srcs s' d h.desc hfsize hall
    obtain ⟨d1, hd1, hnode1⟩ := writeAll_node fs srcs s' d h.desc
    obtain rfl := Option.some.inj (hd1.symm.trans hd')
    have hfd : fd < maxFds := by
      obtain ⟨s1, -, hopen⟩ := h.made
      exact vfsOpen_lt hopen
    have hstart : d1.node.file.startCluster = startOf fs s'.vol e := by
      rw [hstart', hnode]
      rfl
    obtain ⟨s3, hclose, s4, fd', hopen, hget⟩ :=
      reopen_empty hf hw' hvol hfd hd1 hfind htok hstart h0 hsize' closed
    refine ⟨hrets, ⟨d1, hd1, by rw [hsize', htotal]⟩, ?_, s3, hclose, s4, fd', hopen, ?_, ?_, ?_⟩
    · unfold vfsGetSize
      rw [hd1, htotal]
      exact hnode1.trans hnsize
    · rw [hget, htotal]
    · obtain ⟨f, -, hfd4, -⟩ := vfsOpen_fd hopen
      rw [htotal]
      unfold vfsRead
      rw [hfd4]
      rfl
    · obtain ⟨f, -, hfd4, -⟩ := vfsOpen_fd hopen
      rw [htotal, hflat]
      unfold vfsRead
      rw [hfd4]
      rfl

end Append

/-! ### A new file on the small volume -/

/-- The state after a `vfs_open` that succeeds. -/
def vfsOpened (fs : Fs) (s : Vfs) (path : List Byte) : Vfs :=
  match vfsOpen fs s path with
  | some (some r) => r.1
  | _ => s

theorem vfsOpen_eq {fs : Fs} {s : Vfs} {path : List Byte} {fd : ℕ}
    (h : (vfsOpen fs s path).map (Option.map Prod.snd) = some (some fd)) :
    vfsOpen fs s path = some (some (vfsOpened fs s path, fd)) := by
  unfold vfsOpened
  obtain ⟨r, hr, hfd⟩ := Option.map_eq_some_iff.mp h
  obtain ⟨q, rfl, rfl⟩ := Option.map_eq_some_iff.mp hfd
  rw [hr]

/-- `/A` made and opened. -/
def sampleMade : Vfs := vfsCreated sampleFs sampleVfs [slash, 65#8] ⟨0, 0⟩ ⟨0, 0⟩

def sampleOpened : Vfs := vfsOpened sampleFs sampleMade [slash, 65#8]

def sampleFd : Fd := { node := nodeOf ⟨3, 3, 0, 0⟩, pos := 0 }

theorem sample_open : vfsOpen sampleFs sampleMade [slash, 65#8] = some (some (sampleOpened, 0)) :=
  vfsOpen_eq (by decide +kernel)

theorem sample_fd : sampleOpened.fds 0 = some sampleFd := by decide +kernel

theorem sample_chain : FileChain sampleFs sampleMade.vol 3 [3] :=
  Or.inr ⟨List.cons_ne_nil 3 [], rfl, by decide,
    by show fatEof ≤ fatNextCluster sampleFs sampleMade.vol 3; decide +kernel⟩

theorem sample_new :
    NewlyOpened sampleFs sampleVfs sampleOpened [slash, 65#8] ⟨0, 0⟩ ⟨0, 0⟩ 0 sampleFd := by
  have hmade : vfsCreate sampleFs sampleVfs [slash, 65#8] ⟨0, 0⟩ ⟨0, 0⟩ = some (sampleMade, 0) :=
    vfsCreate_eq (by decide +kernel)
  have hstr : IsCString [slash, 65#8] := by decide
  refine ⟨hstr, ⟨sampleMade, hmade, sample_open⟩, sample_fd, ?_⟩
  obtain ⟨p, slot, n, v1, hp, -, -, hs, -⟩ :=
    vfsCreate_cases sample_ok (s := sampleVfs) sample_wf hmade hstr
  obtain ⟨-, rfl⟩ := List.cons.inj hp
  refine ⟨_, v1, _, rfl, hs, ?_⟩
  have hfile : (fat32CreateFile sampleFs sampleVol [65#8] ⟨0, 0⟩).map (Option.map (fun r => r.2)) =
      some (some ⟨3, 3, 0, 0⟩) := by decide +kernel
  have hs' : fat32CreateFile sampleFs sampleVol [65#8] ⟨0, 0⟩ = some (some (v1, ⟨n, n, 0, 0⟩)) := hs
  rw [hs'] at hfile
  have hn : (⟨n, n, 0, 0⟩ : File) = ⟨3, 3, 0, 0⟩ := Option.some.inj (Option.some.inj hfile)
  rw [hn]
  rfl

example : vfsGetSize sampleOpened 0 = 0 := by decide +kernel

theorem read_to_end_sample :
    ReadsTo sampleFs 0 (chainByte sampleFs sampleMade.vol [3]) 0 sampleOpened 0 [1] ↔
      [3] = [] ∨ ReadsInside (1 * sampleFs.clusterSize) 0 0 [1] :=
  read_to_end_iff sample_ok sample_open sample_fd sample_chain (Nat.zero_le _) (by decide)

/-- A byte is read from a file that is empty. -/
theorem empty_file_read :
    vfsOpen sampleFs sampleMade [slash, 65#8] = some (some (sampleOpened, 0)) ∧
      sampleOpened.fds 0 = some sampleFd ∧ sampleFd.node.file.size = 0 ∧
      FileChain sampleFs sampleMade.vol 3 [3] ∧ (vfsRead sampleFs sampleOpened 0 1).ret = 1 ∧
      ¬ ReadsTo sampleFs 0 (chainByte sampleFs sampleMade.vol [3]) 0 sampleOpened 0 [1] := by
  have hret : (vfsRead sampleFs sampleOpened 0 1).ret = 1 := by decide +kernel
  refine ⟨sample_open, sample_fd, rfl, sample_chain, hret, fun h => ?_⟩
  rw [ReadsTo, hret] at h
  exact absurd h.1 (by decide)

theorem file_io_inside_sample :
    StaysInside sampleFs 0 3 sampleOpened [.write [1#8], .read 1] ↔
      AllWithin sampleFs 0 sampleOpened [.write [1#8], .read 1] :=
  file_io_inside_iff sample_ok sample_open sample_fd sample_chain (Nat.zero_le _)

/-- After 512 bytes were written to a new file, a read goes to the sector behind its cluster. -/
theorem read_behind_last_cluster :
    let ops : List FileOp := [.write (List.replicate 512 1#8), .read 1]
    vfsOpen sampleFs sampleMade [slash, 65#8] = some (some (sampleOpened, 0)) ∧
      sampleOpened.fds 0 = some sampleFd ∧ FileChain sampleFs sampleMade.vol 3 [3] ∧
      ¬ StaysInside sampleFs 0 3 sampleOpened ops := by
  intro ops
  refine ⟨sample_open, sample_fd, sample_chain, fun h => ?_⟩
  obtain ⟨-, ⟨L, hL, hall⟩, -⟩ := h
  generalize hs : (fileStep sampleFs 0 sampleOpened (.write (List.replicate 512 1#8))).1 =
    s at hL hall
  have hlbas : (fileStep sampleFs 0 s (.read 1)).2 = [4] := by
    rw [← hs]
    decide +kernel
  have hnext : fatEof ≤ fatNextCluster sampleFs (fileStep sampleFs 0 s (.read 1)).1.vol 3 := by
    rw [← hs]
    decide +kernel
  have hchain : FileChain sampleFs (fileStep sampleFs 0 s (.read 1)).1.vol 3 [3] :=
    Or.inr ⟨List.cons_ne_nil 3 [], rfl, by decide, hnext⟩
  rw [hL.unique sample_ok hchain, hlbas] at hall
  obtain ⟨y, hy, k, hk, hsec⟩ := hall 4 List.mem_cons_self
  rw [List.mem_singleton.mp hy] at hsec
  have hk0 : k = 0 := Nat.lt_one_iff.mp hk
  rw [hk0] at hsec
  exact absurd hsec (by decide)

theorem append_sample :
    AppendsExactly sampleFs sampleOpened 0 [slash, 65#8] [[1#8]] ⟨0, 0⟩ ↔
      [[(1#8 : Byte)]].flatten.length = 0 :=
  append_iff sample_ok (s := sampleVfs) sample_wf sample_new ⟨0, 0⟩

/-- After one byte was written `vfs_get_size` still returns 0. -/
theorem size_after_write :
    NewlyOpened sampleFs sampleVfs sampleOpened [slash, 65#8] ⟨0, 0⟩ ⟨0, 0⟩ 0 sampleFd ∧
      Wf sampleFs [2] ∅ sampleVol ∧ (vfsWrite sampleFs sampleOpened 0 [1#8]).ret = 1 ∧
      vfsGetSize (writeAll sampleFs 0 sampleOpened [[1#8]]).1 0 = 0 ∧
      ¬ AppendsExactly sampleFs sampleOpened 0 [slash, 65#8] [[1#8]] ⟨0, 0⟩ := by
  have hget : vfsGetSize (writeAll sampleFs 0 sampleOpened [[1#8]]).1 0 = 0 := by decide +kernel
  refine ⟨sample_new, sample_wf, by decide +kernel, hget, fun h => ?_⟩
  have hsize := h.2.2.1
  rw [hget] at hsize
  exact absurd hsize (by decide)

end SukiOS.Fat32
