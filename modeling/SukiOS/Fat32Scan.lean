import Mathlib.Order.Interval.Finset.Nat
import SukiOS.Lib.Walk
import SukiOS.VfsListing

/-! The scans of the root directory on any FAT: the clusters that the loops of `fat32_open`,
`fat32_update_dir_entry`, `fat32_create_file`, `fat32_delete`, `fat32_list_root` and of repeated
`fat32_vfs_readdir` visit, with reads that may fail. -/
namespace SukiOS.Fat32
open ByteMemory Walks

/-! ### The loops -/

/-- The six scans, with what they look for. -/
inductive DirScan where
  | open (filename : List Byte)
  | updateDirEntry (file : File)
  | createFile
  | delete (filename : List Byte)
  | listRoot
  | readdir

section Loops
variable (fs : Fs) (v : Vol) (readOk : ℕ → Bool)

/-- The outer loop of the scans that follow the chain to its end mark. `readOk` says of which
clusters `disk_read` succeeds, and `hit` whether the inner loop finds an entry. `none` stands for a
loop that is not over after `fuel` rounds. -/
def scanLoop (hit : Mem → Bool) : ℕ → ℕ → Option (List ℕ)
  | 0, _ => none
  | fuel+1, cluster =>
    if cluster < fatEof ∧ 2 ≤ cluster then
      if readOk cluster = false then some [cluster]
      else if hit (readCluster fs v cluster) then some [cluster]
      else (scanLoop hit fuel (fatNextCluster fs v cluster)).map (cluster :: ·)
    else some []

/-- The loop of `fat32_create_file` looks at the next cluster before it goes on. -/
def createLoop (hit : Mem → Bool) : ℕ → ℕ → Option (List ℕ)
  | 0, _ => none
  | fuel+1, cluster =>
    if cluster < fatEof ∧ 2 ≤ cluster then
      if readOk cluster = false then some [cluster]
      else if hit (readCluster fs v cluster) then some [cluster]
      else
        let next := fatNextCluster fs v cluster
        if fatEof ≤ next then some [cluster]
        else (createLoop hit fuel next).map (cluster :: ·)
    else some []

/-- The rounds of the loops of repeated `fat32_vfs_readdir` calls with one iterator: a call that
reports an entry is followed by another, which goes on where the iterator stands. A cluster is
visited when its first entry is looked at. -/
def readdirLoop : ℕ → DirIter → Option (List ℕ)
  | 0, _ => none
  | fuel+1, it =>
    if 2 ≤ it.cluster ∧ it.cluster < fatEof then
      let here := if it.entryOffset = 0 then [it.cluster] else []
      -- the result is -1
      if readOk it.cluster = false then some here
      else
        match readdirScan (readCluster fs v it.cluster) it.entryOffset
          (fs.entryCount - it.entryOffset) with
        | .endMark => some here
        | .entry i => (readdirLoop fuel { it with entryOffset := i + 1 }).map (here ++ ·)
        | .exhausted =>
          let next := fatNextCluster fs v it.cluster
          if fatEof ≤ next then some here
          else (readdirLoop fuel { cluster := next, entryOffset := 0 }).map (here ++ ·)
    else some []

def hitLive (p : Mem → ℕ → Bool) (buf : Mem) : Bool := (scanLive p buf 0 fs.entryCount).isSome

/-- The clusters that a scan visits. -/
def DirScan.visits (fuel : ℕ) : DirScan → Option (List ℕ)
  | .open filename =>
    scanLoop fs v readOk (hitLive fs (nameMatches (toShort filename))) fuel fs.rootCluster
  | .updateDirEntry file =>
    scanLoop fs v readOk (hitLive fs (fun buf i => entCluster buf i == file.startCluster)) fuel
      fs.rootCluster
  | .createFile =>
    createLoop fs v readOk (fun buf => (scanFree buf 0 fs.entryCount).isSome) fuel fs.rootCluster
  | .delete filename =>
    scanLoop fs v readOk (hitLive fs (nameMatches (toShort filename))) fuel fs.rootCluster
  -- an end mark ends the inner loop only
  | .listRoot => scanLoop fs v readOk (fun _ => false) fuel fs.rootCluster
  | .readdir => readdirLoop fs v readOk fuel (rootIter fs)

/-! ### When they end -/

/-- What ends a scan in a cluster that can be read. -/
def DirScan.hit : DirScan → Mem → Bool
  | .open filename => hitLive fs (nameMatches (toShort filename))
  | .updateDirEntry file => hitLive fs (fun buf i => entCluster buf i == file.startCluster)
  | .createFile => fun buf => (scanFree buf 0 fs.entryCount).isSome
  | .delete filename => hitLive fs (nameMatches (toShort filename))
  | .listRoot => fun _ => false
  | .readdir => fun buf => (scanEntries buf 0 fs.entryCount).2

def IsCluster (c : ℕ) : Prop := c < fatEof ∧ 2 ≤ c

/-- A scan ends in a cluster that cannot be read, and in one where it finds what it looks for. -/
def DirScan.Stops (s : DirScan) (c : ℕ) : Prop :=
  readOk c = false ∨ s.hit fs (readCluster fs v c) = true

/-- The scan visits at most as many clusters as the volume has, and is over. -/
def DirScan.Bounded (s : DirScan) : Prop :=
  ∃ fuel L, s.visits fs v readOk fuel = some L ∧ L.length ≤ fs.totalClusters

/-- No cluster of the chain of the root directory comes back before the scan ends, and the chain
does not lead through all clusters of the volume to a number that is not one of them. -/
def DirScan.ChainEnds (s : DirScan) : Prop :=
  NoReturn (fatNextCluster fs v) IsCluster (s.Stops fs v readOk) fs.rootCluster ∧
  ¬ ((∀ i, i < fs.totalClusters →
      Passed IsCluster (s.Stops fs v readOk) ((fatNextCluster fs v)^[i] fs.rootCluster) ∧
      fs.IsData ((fatNextCluster fs v)^[i] fs.rootCluster)) ∧
    IsCluster ((fatNextCluster fs v)^[fs.totalClusters] fs.rootCluster) ∧
    ¬ fs.IsData ((fatNextCluster fs v)^[fs.totalClusters] fs.rootCluster))

end Loops

/-! ### The loops are walks -/

section Walks
variable {fs : Fs} {v : Vol} {readOk : ℕ → Bool} {hit : Mem → Bool} {c o : ℕ} {L : List ℕ}

/-- The clusters where a loop with the test `hit` ends. -/
def LoopStops (fs : Fs) (v : Vol) (readOk : ℕ → Bool) (hit : Mem → Bool) (c : ℕ) : Prop :=
  readOk c = false ∨ hit (readCluster fs v c) = true

theorem scanLoop_loopOf : LoopOf (fatNextCluster fs v) IsCluster (LoopStops fs v readOk hit)
    (scanLoop fs v readOk hit) where
  zero _ := rfl
  leave _ _ hc := if_neg hc
  halt n c hc hs := by
    rw [scanLoop, if_pos (show c < fatEof ∧ 2 ≤ c from hc)]
    by_cases hr : readOk c = false
    · rw [if_pos hr]
    · rw [if_neg hr, if_pos (hs.resolve_left hr)]
  go n c hc hs := by
    have hboth := not_or.mp hs
    left
    rw [scanLoop, if_pos (show c < fatEof ∧ 2 ≤ c from hc), if_neg hboth.1, if_neg hboth.2]

/-- Looking ahead makes no difference: a number that ends the chain would end the loop. -/
theorem createLoop_loopOf : LoopOf (fatNextCluster fs v) IsCluster (LoopStops fs v readOk hit)
    (createLoop fs v readOk hit) where
  zero _ := rfl
  leave _ _ hc := if_neg hc
  halt n c hc hs := by
    rw [createLoop, if_pos (show c < fatEof ∧ 2 ≤ c from hc)]
    by_cases hr : readOk c = false
    · rw [if_pos hr]
    · rw [if_neg hr, if_pos (hs.resolve_left hr)]
  go n c hc hs := by
    have hboth := not_or.mp hs
    rw [createLoop, if_pos (show c < fatEof ∧ 2 ≤ c from hc), if_neg hboth.1, if_neg hboth.2]
    dsimp only
    by_cases hnext : fatEof ≤ fatNextCluster fs v c
    · rw [if_pos hnext]
      exact Or.inr ⟨fun hcell => absurd hcell.1 (by omega), Eq.refl _⟩
    · rw [if_neg hnext]
      exact Or.inl (Eq.refl _)

/-! ### Repeated `fat32_vfs_readdir` -/

/-- A cluster with an end mark, or one that cannot be read. -/
def ReaddirStops (fs : Fs) (v : Vol) (readOk : ℕ → Bool) : ℕ → Prop :=
  LoopStops fs v readOk (fun buf => (scanEntries buf 0 fs.entryCount).2)

/-- The entries of the cluster `c` from `o` on, with no end mark before them. -/
structure Reading (fs : Fs) (v : Vol) (c o : ℕ) : Prop where
  cluster : IsCluster c
  within : o ≤ fs.entryCount
  passed : ∀ j, j < o → readCluster fs v c (32*j) ≠ 0#8

/-- What one round of the loop does. -/
theorem readdirLoop_succ (h : Reading fs v c o) (hr : readOk c = true) :
    ((scanEntries (readCluster fs v c) 0 fs.entryCount).2 = true ∧
      ∀ n, readdirLoop fs v readOk (n+1) ⟨c, o⟩ = some (if o = 0 then [c] else [])) ∨
    (∃ k, o ≤ k ∧ k < fs.entryCount ∧ Reading fs v c (k+1) ∧
      ∀ n, readdirLoop fs v readOk (n+1) ⟨c, o⟩ =
        (readdirLoop fs v readOk n ⟨c, k+1⟩).map ((if o = 0 then [c] else []) ++ ·)) ∨
    ((scanEntries (readCluster fs v c) 0 fs.entryCount).2 = false ∧
      ∀ n, readdirLoop fs v readOk (n+1) ⟨c, o⟩ = if fatEof ≤ fatNextCluster fs v c then
        some (if o = 0 then [c] else [])
        else (readdirLoop fs v readOk n ⟨fatNextCluster fs v c, 0⟩).map
          ((if o = 0 then [c] else []) ++ ·)) := by
  have hround : 2 ≤ c ∧ c < fatEof := ⟨h.cluster.2, h.cluster.1⟩
  have hread : ¬ readOk c = false := by
    rw [hr]
    exact fun hb => Bool.noConfusion hb
  have hwithin := h.within
  -- no end mark lies before `o`
  have hend : (scanEntries (readCluster fs v c) 0 fs.entryCount).2 = true ↔
      (scanEntries (readCluster fs v c) o (fs.entryCount - o)).2 = true := by
    rw [scanEntries_end, scanEntries_end]
    constructor
    · intro ⟨j, _, hj, hzero⟩
      refine ⟨j, ?_, by omega, hzero⟩
      by_contra hlt
      exact h.passed j (by omega) hzero
    · exact fun ⟨j, _, hj, hzero⟩ => ⟨j, Nat.zero_le j, by omega, hzero⟩
  have hone : ∀ n, readdirLoop fs v readOk (n+1) ⟨c, o⟩ =
      match readdirScan (readCluster fs v c) o (fs.entryCount - o) with
      | .endMark => some (if o = 0 then [c] else [])
      | .entry i => (readdirLoop fs v readOk n ⟨c, i+1⟩).map ((if o = 0 then [c] else []) ++ ·)
      | .exhausted => if fatEof ≤ fatNextCluster fs v c then some (if o = 0 then [c] else [])
          else (readdirLoop fs v readOk n ⟨fatNextCluster fs v c, 0⟩).map
            ((if o = 0 then [c] else []) ++ ·) := by
    intro n
    rw [readdirLoop, if_pos hround]
    dsimp only
    rw [if_neg hread]
  rcases readdirScan_cases (readCluster fs v c) (fs.entryCount - o) o with
    ⟨hscan, hlist⟩ | ⟨hscan, hlist⟩ | ⟨k, hscan, hok, hk, hlist⟩
  · left
    refine ⟨hend.mpr (congrArg Prod.snd hlist), fun n => ?_⟩
    rw [hone, hscan]
  · right; right
    refine ⟨?_, fun n => by rw [hone, hscan]⟩
    rw [← Bool.not_eq_true, hend, congrArg Prod.snd hlist]
    exact fun hb => Bool.noConfusion hb
  · right; left
    refine ⟨k, hok, by omega, ⟨h.cluster, by omega, ?_⟩, fun n => by rw [hone, hscan]⟩
    -- the entry is live, so nothing up to it is an end mark
    have hmem : k ∈ (scanEntries (readCluster fs v c) o (fs.entryCount - o)).1 := by
      rw [hlist]
      exact List.mem_cons_self
    have hlive := ((mem_scanEntries _ _ _).mp hmem).2.2
    intro j hj
    by_cases hjo : j < o
    · exact h.passed j hjo
    · exact hlive.1 j (by omega) (by omega)

theorem readdirLoop_out (n : ℕ) (hc : ¬ IsCluster c) : readdirLoop fs v readOk (n+1) ⟨c, o⟩ =
    some [] :=
  if_neg (fun h => hc ⟨h.2, h.1⟩)

theorem readdirLoop_unread (n : ℕ) (hc : IsCluster c) (hr : readOk c = false) :
    readdirLoop fs v readOk (n+1) ⟨c, o⟩ = some (if o = 0 then [c] else []) := by
  rw [readdirLoop, if_pos (show 2 ≤ c ∧ c < fatEof from ⟨hc.2, hc.1⟩)]
  dsimp only
  rw [if_pos hr]

/-- The calls from entry `o` of a cluster on visit what the walk visits; the cluster itself is
counted at its first entry. -/
theorem readdirLoop_walk (n : ℕ) : ∀ c o L, (o = 0 ∨ Reading fs v c o ∧ readOk c = true) →
    readdirLoop fs v readOk n ⟨c, o⟩ = some L →
    ∃ L', L = (if o = 0 then L' else L'.tail) ∧
      Walk (fatNextCluster fs v) IsCluster (ReaddirStops fs v readOk) c L' := by
  induction n with
  | zero =>
    intro c o L _ h
    cases h
  | succ n ih =>
    intro c o L hstart h
    by_cases hc : IsCluster c
    swap
    · have hzero : o = 0 := by
        cases hstart with
        | inl h0 => exact h0
        | inr hread => exact absurd hread.1.cluster hc
      rw [readdirLoop_out n hc] at h
      exact ⟨[], by rw [if_pos hzero, ← Option.some.inj h], .out hc⟩
    by_cases hr : readOk c = false
    · rw [readdirLoop_unread n hc hr] at h
      refine ⟨[c], ?_, .stop hc (Or.inl hr)⟩
      rw [← Option.some.inj h]
      rfl
    have hread : readOk c = true := by
      rw [← Bool.not_eq_false]
      exact hr
    have hreading : Reading fs v c o := by
      cases hstart with
      | inl h0 =>
        rw [h0]
        exact ⟨hc, Nat.zero_le _, fun j hj => absurd hj (Nat.not_lt_zero j)⟩
      | inr hread => exact hread.1
    rcases readdirLoop_succ hreading hread with ⟨hend, heq⟩ | ⟨k, -, -, hnext, heq⟩ | ⟨hend, heq⟩
    · rw [heq] at h
      refine ⟨[c], ?_, .stop hc (Or.inr hend)⟩
      rw [← Option.some.inj h]
      rfl
    · -- the next call goes on in the same cluster
      rw [heq] at h
      obtain ⟨K, hK, rfl⟩ := Option.map_eq_some_iff.mp h
      obtain ⟨K', hKK, hw⟩ := ih c (k+1) K (Or.inr ⟨hnext, hread⟩) hK
      rw [if_neg (Nat.succ_ne_zero k)] at hKK
      refine ⟨K', ?_, hw⟩
      rw [hKK]
      cases hw with
      | out hout => exact absurd hc hout
      | stop _ _ => split <;> rfl
      | step _ _ _ => split <;> rfl
    · have hgo : ¬ ReaddirStops fs v readOk c := by
        intro hs
        cases hs with
        | inl hs => exact hr hs
        | inr hs => exact Bool.noConfusion (hend.symm.trans hs)
      rw [heq] at h
      by_cases hlast : fatEof ≤ fatNextCluster fs v c
      · rw [if_pos hlast] at h
        refine ⟨[c], ?_, .step hc hgo (.out (fun hcell => absurd hcell.1 (by omega)))⟩
        rw [← Option.some.inj h]
        rfl
      · rw [if_neg hlast] at h
        obtain ⟨K, hK, rfl⟩ := Option.map_eq_some_iff.mp h
        obtain ⟨K', hKK, hw⟩ := ih (fatNextCluster fs v c) 0 K (Or.inl (Eq.refl _)) hK
        rw [if_pos (Eq.refl _)] at hKK
        refine ⟨c::K', ?_, .step hc hgo hw⟩
        rw [hKK]
        split <;> rfl

/-- From any entry of a cluster the calls come to its end, and then to `R`, what they visit after
it. -/
theorem readdirLoop_finish {R : List ℕ}
    (hfin : ((scanEntries (readCluster fs v c) 0 fs.entryCount).2 = true → R = []) ∧
      ((scanEntries (readCluster fs v c) 0 fs.entryCount).2 = false →
        if fatEof ≤ fatNextCluster fs v c
        then R = [] else ∃ n, readdirLoop fs v readOk n ⟨fatNextCluster fs v c, 0⟩ = some R))
    (hr : readOk c = true) (m : ℕ) : ∀ o, m = fs.entryCount - o → Reading fs v c o →
      ∃ n, readdirLoop fs v readOk n ⟨c, o⟩ = some ((if o = 0 then [c] else []) ++ R) := by
  induction m using Nat.strong_induction_on with
  | _ m ih =>
    intro o hm hread
    rcases readdirLoop_succ hread hr with ⟨hend, heq⟩ | ⟨k, hok, hk, hnext, heq⟩ | ⟨hend, heq⟩
    · refine ⟨1, ?_⟩
      rw [heq 0, hfin.1 hend, List.append_nil]
    · obtain ⟨n, hn⟩ := ih (fs.entryCount - (k+1)) (by omega) (k+1) (Eq.refl _) hnext
      refine ⟨n + 1, ?_⟩
      rw [heq n, hn]
      rfl
    · have hrest := hfin.2 hend
      by_cases hlast : fatEof ≤ fatNextCluster fs v c
      · rw [if_pos hlast] at hrest
        refine ⟨1, ?_⟩
        rw [heq 0, if_pos hlast, hrest, List.append_nil]
      · rw [if_neg hlast] at hrest
        obtain ⟨n, hn⟩ := hrest
        refine ⟨n + 1, ?_⟩
        rw [heq n, if_neg hlast, hn]
        rfl

theorem walk_readdirLoop (h : Walk (fatNextCluster fs v) IsCluster (ReaddirStops fs v readOk) c L) :
    ∃ n, readdirLoop fs v readOk n ⟨c, 0⟩ = some L := by
  have hstart : ∀ c, IsCluster c → Reading fs v c 0 := fun c hc =>
    ⟨hc, Nat.zero_le _, fun j hj => absurd hj (Nat.not_lt_zero j)⟩
  induction h with
  | out hc => exact ⟨1, readdirLoop_out 0 hc⟩
  | @stop c hc hs =>
    by_cases hr : readOk c = false
    · exact ⟨1, readdirLoop_unread 0 hc hr⟩
    · have hend : (scanEntries (readCluster fs v c) 0 fs.entryCount).2 = true := hs.resolve_left hr
      apply readdirLoop_finish (R := []) ⟨fun _ => Eq.refl _, fun hno => ?_⟩ (by
        rw [← Bool.not_eq_false]
        exact hr) _ 0 (Eq.refl _) (hstart c hc)
      rw [hend] at hno
      exact Bool.noConfusion hno
  | @step c L hc hs hw ih =>
    obtain ⟨hr, hend⟩ := not_or.mp hs
    apply readdirLoop_finish (R := L) ⟨fun hyes => absurd hyes hend, fun _ => ?_⟩ (by
      rw [← Bool.not_eq_false]
      exact hr) _ 0 (Eq.refl _) (hstart c hc)
    by_cases hlast : fatEof ≤ fatNextCluster fs v c
    · rw [if_pos hlast]
      cases hw with
      | out _ => exact Eq.refl _
      | stop hcell _ => exact absurd hcell.1 (by omega)
      | step hcell _ _ => exact absurd hcell.1 (by omega)
    · rw [if_neg hlast]
      exact ih

theorem readdirLoop_walk_iff : (∃ n, readdirLoop fs v readOk n ⟨c, 0⟩ = some L) ↔
    Walk (fatNextCluster fs v) IsCluster (ReaddirStops fs v readOk) c L := by
  constructor
  · intro ⟨n, hn⟩
    obtain ⟨L', hL, hw⟩ := readdirLoop_walk n c 0 L (Or.inl (Eq.refl _)) hn
    rw [if_pos (Eq.refl _)] at hL
    rw [hL]
    exact hw
  · exact walk_readdirLoop

end Walks

/-! ### The bound -/

section Bound
variable {fs : Fs} {v : Vol} {readOk : ℕ → Bool}

/-- Each of the six scans is the walk that its test stops. -/
theorem DirScan.visits_iff (s : DirScan) (L : List ℕ) :
    (∃ fuel, s.visits fs v readOk fuel = some L) ↔
      Walk (fatNextCluster fs v) IsCluster (s.Stops fs v readOk) fs.rootCluster L := by
  cases s with
  | «open» filename => exact scanLoop_loopOf.walk_iff
  | updateDirEntry file => exact scanLoop_loopOf.walk_iff
  | createFile => exact createLoop_loopOf.walk_iff
  | delete filename => exact scanLoop_loopOf.walk_iff
  | listRoot => exact scanLoop_loopOf.walk_iff
  | readdir => exact readdirLoop_walk_iff

/-- Of a number that is not a cluster of the volume the next is an end mark. -/
theorem fatNextCluster_outside (hgeo : fs.totalClusters + 2 < 2^32) {c : ℕ} (hc : ¬ fs.IsData c) :
    ¬ IsCluster (fatNextCluster fs v c) := by
  have hout : c < 2 ∨ (fs.totalClusters + 2) % 2^32 ≤ c := by
    rw [Nat.mod_eq_of_lt hgeo]
    unfold Fs.IsData at hc
    omega
  have hnext : fatNextCluster fs v c = fatEof := if_pos hout
  rw [hnext]
  exact fun hcell => absurd hcell.1 (Nat.lt_irrefl _)

end Bound

/-- A scan of the root directory is over after at most as many clusters as the volume has exactly
when the chain ends in this sense. -/
theorem dir_scan_bounded_iff (fs : Fs) (v : Vol) (readOk : ℕ → Bool)
    (hgeo : fs.totalClusters + 2 < 2^32) (s : DirScan) :
    s.Bounded fs v readOk ↔ s.ChainEnds fs v readOk := by
  have hcard : (Finset.Ico 2 (fs.totalClusters + 2)).card = fs.totalClusters := by
    rw [Nat.card_Ico]
    omega
  have hdata : ∀ c, c ∈ Finset.Ico 2 (fs.totalClusters + 2) ↔ fs.IsData c := fun c => Finset.mem_Ico
  have hshort := exists_short_walk_iff (fatNextCluster fs v) IsCluster
    (s.Stops fs v readOk) fs.rootCluster (Finset.Ico 2 (fs.totalClusters + 2))
    (fun c _ hc => fatNextCluster_outside hgeo (fun hd => hc ((hdata c).mpr hd)))
  rw [hcard] at hshort
  simp only [hdata] at hshort
  unfold DirScan.ChainEnds
  rw [← hshort]
  constructor
  · intro ⟨fuel, L, hL, hlen⟩
    exact ⟨L, (s.visits_iff L).mp ⟨fuel, hL⟩, hlen⟩
  · intro ⟨L, hw, hlen⟩
    obtain ⟨fuel, hL⟩ := (s.visits_iff L).mpr hw
    exact ⟨fuel, L, hL, hlen⟩

/-- A volume of eight clusters, one of which is the root directory and follows itself, full of
entries that are not free. -/
def cyclicFs : Fs where
  firstDataSector := 2
  dataSectors := 8
  totalClusters := 8
  fatStartSector := 1
  fatSizeSectors := 1
  sectorsPerCluster := 1
  bytesPerSector := 512
  rootCluster := 2

def cyclicVol : Vol where
  disk := fun _ => 0x41#8
  fat := fun a => if a = 8 then 2#8 else 0#8

/-- A root directory that ends after its first cluster. -/
def shortVol : Vol where
  disk := fun _ => 0x41#8
  fat := fun a => if a = 8 then 0xF8#8 else if a = 11 then 0x0F#8 else 0xFF#8

theorem dir_scan_bounded_short : DirScan.listRoot.Bounded cyclicFs shortVol (fun _ => true) := by
  apply (dir_scan_bounded_iff cyclicFs shortVol (fun _ => true) (by decide) .listRoot).mpr
  have hone : (fatNextCluster cyclicFs shortVol)^[1] cyclicFs.rootCluster = fatEof := by decide
  have hout : ¬ IsCluster fatEof := fun h => absurd h.1 (Nat.lt_irrefl _)
  constructor
  · intro i j hij hpass heq
    by_cases hj : j = 1
    · obtain rfl : i = 0 := by omega
      rw [hj, hone] at heq
      exact absurd heq (by decide)
    · have hcell := (hpass 1 (by omega)).1
      rw [hone] at hcell
      exact hout hcell
  · intro h
    have hcell := (h.1 1 (by decide)).1.1
    rw [hone] at hcell
    exact hout hcell

theorem cyclic_next : fatNextCluster cyclicFs cyclicVol 2 = 2 := by decide

/-- `fat32_list_root` reads cluster 2 for ever. -/
theorem cyclic_root_never_ends : ¬ ∀ fs v readOk, fs.totalClusters + 2 < 2^32 →
    ∀ s : DirScan, s.Bounded fs v readOk := by
  intro hall
  obtain ⟨fuel, L, hL, hlen⟩ := hall cyclicFs cyclicVol (fun _ => true) (by decide) .listRoot
  have hwalk := (DirScan.visits_iff _ L).mp ⟨fuel, hL⟩
  have hstay : ∀ i, (fatNextCluster cyclicFs cyclicVol)^[i] cyclicFs.rootCluster = 2 :=
    Function.iterate_fixed cyclic_next
  apply (exists_walk_iff cyclicFs.totalClusters _).mp ⟨L, hwalk, hlen⟩
  have hcell : IsCluster 2 := ⟨by decide, Nat.le_refl 2⟩
  constructor
  · intro i _
    rw [hstay]
    refine ⟨hcell, ?_⟩
    intro hs
    cases hs with
    | inl h => exact Bool.noConfusion h
    | inr h => exact Bool.noConfusion h
  · rw [hstay]
    exact hcell

end SukiOS.Fat32
