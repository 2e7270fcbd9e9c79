import Mathlib.Data.Finset.Card
import Mathlib.Tactic.Linarith
import SukiOS.Fat32Failing

/-! When creating, writing and deleting are all or nothing on a disk whose transfers fail: a result
of 0 with the directory and the FAT on the disk, a result of -1 with the cached FAT and the entries
in use as they were. -/
namespace SukiOS.Fat32
open ByteMemory LinkedChain Transfers

/-! ### The free clusters -/

/-- The clusters that `find_free_cluster` may return. -/
def freeClusters (fs : Fs) (v : Vol) : Finset ℕ :=
  (Finset.range (fs.totalClusters + 2)).filter (fun c => 2 ≤ c ∧ v.fatGet c &&& 0x0FFFFFFF = 0)

section Free
variable {fs : Fs} {v v' : Vol} {c x : ℕ}

theorem mem_freeClusters : c ∈ freeClusters fs v ↔ fs.IsData c ∧ v.fatGet c &&& 0x0FFFFFFF = 0 := by
  unfold freeClusters Fs.IsData
  rw [Finset.mem_filter, Finset.mem_range]
  constructor
  · intro h
    exact ⟨⟨h.2.1, h.1⟩, h.2.2⟩
  · intro h
    exact ⟨h.1.2, h.1.1, h.2⟩

theorem freeClusters_congr (h : v'.fat = v.fat) : freeClusters fs v' = freeClusters fs v := by
  ext c
  rw [mem_freeClusters, mem_freeClusters, fatGet_congr h]

theorem findFree_cases (hf : fs.Ok) (v : Vol) :
    (findFreeCluster fs v = 0 ∧ freeClusters fs v = ∅) ∨
    (findFreeCluster fs v ≠ 0 ∧ findFreeCluster fs v ∈ freeClusters fs v) := by
  cases findFreeCluster_spec hf v with
  | inl h =>
    left
    refine ⟨h.1, Finset.eq_empty_of_forall_notMem fun c hc => ?_⟩
    have hfree := mem_freeClusters.mp hc
    exact h.2 c hfree.1 hfree.2
  | inr h =>
    right
    refine ⟨?_, mem_freeClusters.mpr h⟩
    have h2 := h.1.1
    omega

/-- The FAT with the cluster `c` put behind `x`. -/
theorem fatGet_appended (hf : fs.Ok) (hc : fs.IsData c) (y : ℕ) :
    ((v.fatSet x c).fatSet c fatEof).fatGet y =
      if y = c then fatEof else if y = x then c else v.fatGet y := by
  have hlt := hf.total_lt
  have h2 := hc.2
  rw [fatGet_fatSet (by decide), fatGet_fatSet (by omega)]

/-- Putting a free cluster behind another one makes it used, and no used one free. -/
theorem appended_used (hf : fs.Ok) (hc : fs.IsData c) {y : ℕ}
    (hy : y = c ∨ v.fatGet y &&& 0x0FFFFFFF ≠ 0) :
    ((v.fatSet x c).fatSet c fatEof).fatGet y &&& 0x0FFFFFFF ≠ 0 := by
  rw [fatGet_appended hf hc]
  by_cases hyc : y = c
  · rw [if_pos hyc]
    decide
  · rw [if_neg hyc]
    by_cases hyx : y = x
    · rw [if_pos hyx, land_cluster hf hc]
      have h2 := hc.1
      omega
    · rw [if_neg hyx]
      exact hy.resolve_left hyc

theorem freeClusters_appended (hf : fs.Ok) (hc : c ∈ freeClusters fs v)
    (hx : fatEof ≤ fatNextCluster fs v x) :
    freeClusters fs ((v.fatSet x c).fatSet c fatEof) = (freeClusters fs v).erase c := by
  have hcd := (mem_freeClusters.mp hc).1
  ext y
  rw [Finset.mem_erase, mem_freeClusters, mem_freeClusters]
  constructor
  · intro h
    have hyc : y ≠ c := fun he => appended_used hf hcd (Or.inl he) h.2
    refine ⟨hyc, h.1, ?_⟩
    by_contra hused
    exact appended_used hf hcd (Or.inr hused) h.2
  · intro h
    refine ⟨h.2.1, ?_⟩
    have hyx : y ≠ x := by
      rintro rfl
      -- the cluster before was the last of its chain
      rw [fatNextCluster_eq hf h.2.1, h.2.2] at hx
      exact absurd hx (by decide)
    rw [fatGet_appended hf hcd, if_neg h.1, if_neg hyx]
    exact h.2.2

end Free

/-! ### The turns of the write loop -/

/-- The clusters `K` come behind the current one. -/
def Behind (fs : Fs) (s : Writing) (K : List ℕ) : Prop :=
  FatChain fs s.vol (fatNextCluster fs s.vol s.cluster) K

/-- The bytes from the offset to the end of the chain. -/
def room (fs : Fs) (K : List ℕ) (offset : ℕ) : ℕ :=
  (K.length + 1) * fs.clusterSize - min offset fs.clusterSize

/-- The sectors that `len` bytes from the offset on lie in. -/
def turns (fs : Fs) (offset len : ℕ) : ℕ :=
  if len = 0 then 0 else (min offset fs.clusterSize % 512 + len + 511) / 512

/-- A free cluster has been put behind the current one, the last of its chain. -/
structure Grows (fs : Fs) (s : Writing) (K : List ℕ) (s1 : Writing) (K1 : List ℕ) : Prop where
  last : K = []
  full : fs.clusterSize ≤ s.offset
  newLast : K1 = []
  start : s1.offset = 0
  taken : s1.cluster ∈ freeClusters fs s.vol
  used : s1.vol.fatGet s1.cluster &&& 0x0FFFFFFF ≠ 0
  keeps : ∀ y, s.vol.fatGet y &&& 0x0FFFFFFF ≠ 0 → s1.vol.fatGet y &&& 0x0FFFFFFF ≠ 0
  rest : freeClusters fs s1.vol = (freeClusters fs s.vol).erase s1.cluster

/-- The turn takes place in the chain there is. -/
structure Stays (fs : Fs) (s : Writing) (K : List ℕ) (s1 : Writing) (K1 : List ℕ) : Prop where
  vol : s1.vol = s.vol
  room : room fs K1 s1.offset = room fs K s.offset
  cluster : s1.cluster = s.cluster ∨ s1.cluster ∈ K
  behind : ∀ y ∈ K1, y ∈ K

/-- Where a turn takes place. -/
structure Located (fs : Fs) (s : Writing) (K : List ℕ) (s1 : Writing) (K1 : List ℕ) : Prop where
  behind : Behind fs s1 K1
  offset : s1.offset < fs.clusterSize
  byte : s1.offset % 512 = min s.offset fs.clusterSize % 512
  src : s1.src = s.src
  transfers : s1.transfers = s.transfers
  disk : s1.vol.disk = s.vol.disk
  kind : Stays fs s K s1 K1 ∨ Grows fs s K s1 K1

section Turns
variable {fate : ℕ → Fate} {fs : Fs} {s s1 : Writing} {K K1 : List ℕ} {o len chunk : ℕ}

theorem clusterSize_mod (fs : Fs) : fs.clusterSize % 512 = 0 := by
  unfold Fs.clusterSize
  omega

theorem room_inside (ho : o < fs.clusterSize) :
    room fs K o = K.length * fs.clusterSize + (fs.clusterSize - o) := by
  unfold room
  rw [Nat.min_eq_left (by omega), Nat.succ_mul]
  omega

theorem room_full (ho : fs.clusterSize ≤ o) : room fs K o = K.length * fs.clusterSize := by
  unfold room
  rw [Nat.min_eq_right ho, Nat.succ_mul]
  omega

theorem locate_cases (hf : fs.Ok) (h : Behind fs s K) :
    (s.locate fs = none ∧ K = [] ∧ fs.clusterSize ≤ s.offset ∧ freeClusters fs s.vol = ∅) ∨
    ∃ s1 K1, s.locate fs = some s1 ∧ Located fs s K s1 K1 := by
  have hpos := hf.clusterSize_pos
  unfold Writing.locate
  by_cases ho : fs.clusterSize ≤ s.offset
  · rw [if_pos ho]
    have hzero : (0 : ℕ) % 512 = min s.offset fs.clusterSize % 512 := by
      rw [Nat.min_eq_right ho, clusterSize_mod]
    unfold nextForWrite
    dsimp only
    unfold Behind at h
    cases K with
    | nil =>
      have hend : fatEof ≤ fatNextCluster fs s.vol s.cluster := h
      rw [if_pos hend]
      cases findFree_cases hf s.vol with
      | inl hnone =>
        rw [if_pos hnone.1]
        exact Or.inl ⟨Eq.refl _, Eq.refl _, ho, hnone.2⟩
      | inr hsome =>
        rw [if_neg hsome.1]
        have hd := (mem_freeClusters.mp hsome.2).1
        have hused := appended_used (v := s.vol) (x := s.cluster) hf hd (Or.inl (Eq.refl _))
        refine Or.inr ⟨_, [], Eq.refl _, ?_, by dsimp only; omega, hzero, Eq.refl _, Eq.refl _,
          Eq.refl _, Or.inr ?_⟩
        · -- the new cluster is the end of the chain
          show fatEof ≤ fatNextCluster fs _ (findFreeCluster fs s.vol)
          rw [fatNextCluster_eq hf hd, fatGet_appended hf hd, if_pos (Eq.refl _)]
          decide
        · exact {
            last := Eq.refl _, full := ho, newLast := Eq.refl _, start := Eq.refl _
            taken := hsome.2, used := hused
            keeps := fun y hy => appended_used hf hd (Or.inr hy)
            rest := freeClusters_appended hf hsome.2 hend }
    | cons y K =>
      obtain ⟨hy, hyd, hrest⟩ := h
      rw [hy]
      rw [if_neg (not_eof hf y hyd)]
      refine Or.inr ⟨_, K, Eq.refl _, hrest, by dsimp only; omega, hzero, Eq.refl _, Eq.refl _,
        Eq.refl _, Or.inl ⟨Eq.refl _, ?_, Or.inr List.mem_cons_self,
          fun z hz => List.mem_cons_of_mem y hz⟩⟩
      dsimp only
      rw [room_inside (by omega), room_full ho, List.length_cons, Nat.succ_mul, Nat.sub_zero]
  · rw [if_neg ho]
    have hmin : min s.offset fs.clusterSize = s.offset := Nat.min_eq_left (by omega)
    exact Or.inr ⟨s, K, Eq.refl _, h, by omega, by rw [hmin], Eq.refl _, Eq.refl _, Eq.refl _,
      Or.inl ⟨Eq.refl _, Eq.refl _, Or.inl (Eq.refl _), fun y hy => hy⟩⟩

theorem chunk_bounds (hsrc : s.src ≠ []) :
    s.chunk ≤ 512 - s.offset % 512 ∧ s.chunk ≤ s.src.length ∧ 0 < s.chunk ∧
      (s.chunk = 512 - s.offset % 512 ∨ s.chunk = s.src.length) := by
  have hpos := List.length_pos_of_ne_nil hsrc
  unfold Writing.chunk
  split
  · omega
  · omega

/-- What the rest of a turn does. -/
theorem transfer_spec (fate : ℕ → Fate) (fs : Fs) (s : Writing) :
    ((s.transfer fate fs).2 = true ↔ AllDone fate s.transfers 2) ∧
    (s.transfer fate fs).1.vol.fat = s.vol.fat ∧
    ((s.transfer fate fs).1.vol.disk = s.vol.disk ∨
      (s.transfer fate fs).1.vol.disk = (s.put fs).disk) ∧
    ((s.transfer fate fs).2 = true → (s.transfer fate fs).1 =
      { s with vol := s.put fs, transfers := s.transfers + 2, src := s.src.drop s.chunk
               offset := (s.offset + s.chunk) % 2^32 }) := by
  have htwo : AllDone fate s.transfers 2 ↔
      fate s.transfers = .done ∧ fate (s.transfers + 1) = .done := by
    rw [allDone_succ, allDone_succ]
    exact ⟨fun h => ⟨h.1.2, h.2⟩, fun h => ⟨⟨AllDone.zero, h.1⟩, h.2⟩⟩
  rw [htwo]
  unfold Writing.transfer
  by_cases hread : fate s.transfers = .done
  · rw [if_pos hread]
    cases hwrite : fate (s.transfers + 1) with
    | done =>
      exact ⟨⟨fun _ => ⟨hread, Eq.refl _⟩, fun _ => Eq.refl _⟩, Eq.refl _, Or.inr (Eq.refl _),
        fun _ => Eq.refl _⟩
    | lost =>
      exact ⟨⟨fun h => absurd h Bool.false_ne_true, fun h => absurd h.2 (by decide)⟩, Eq.refl _,
        Or.inl (Eq.refl _), fun h => absurd h Bool.false_ne_true⟩
    | unconfirmed =>
      exact ⟨⟨fun h => absurd h Bool.false_ne_true, fun h => absurd h.2 (by decide)⟩, Eq.refl _,
        Or.inr (Eq.refl _), fun h => absurd h Bool.false_ne_true⟩
  · rw [if_neg hread]
    exact ⟨⟨fun h => absurd h Bool.false_ne_true, fun h => absurd h.1 hread⟩, Eq.refl _,
      Or.inl (Eq.refl _), fun h => absurd h Bool.false_ne_true⟩

/-- A turn writes bytes of one sector. -/
theorem turns_step (ho : o < fs.clusterSize) (hle : chunk ≤ 512 - o % 512) (hpos : 0 < chunk)
    (hlen : chunk ≤ len) (hor : chunk = 512 - o % 512 ∨ chunk = len) :
    turns fs o len = turns fs (o + chunk) (len - chunk) + 1 := by
  have hin := turn_in_cluster ho hle
  unfold turns
  rw [if_neg (by omega), Nat.min_eq_left (by omega), Nat.min_eq_left hin]
  split
  · omega
  · omega

theorem room_step (ho : o < fs.clusterSize) (hle : chunk ≤ 512 - o % 512) :
    room fs K (o + chunk) + chunk = room fs K o := by
  have hin := turn_in_cluster ho hle
  unfold room
  rw [Nat.min_eq_left hin, Nat.min_eq_left (by omega), Nat.succ_mul]
  omega

theorem turns_zero : turns fs o 0 = 0 := if_pos (Eq.refl 0)

theorem turns_congr {o' : ℕ} (h : min o fs.clusterSize % 512 = min o' fs.clusterSize % 512) :
    turns fs o len = turns fs o' len := by
  unfold turns
  rw [h]

theorem Located.turns_eq (h : Located fs s K s1 K1) : turns fs s1.offset len =
    turns fs s.offset len := by
  apply turns_congr
  rw [Nat.min_eq_left (by have := h.offset; omega)]
  exact h.byte

end Turns

/-! ### Runs of the loop -/

/-- The call after a turn whose transfers are made. -/
def Writing.moved (fs : Fs) (s : Writing) : Writing where
  vol := s.put fs
  transfers := s.transfers + 2
  src := s.src.drop s.chunk
  cluster := s.cluster
  offset := s.offset + s.chunk

section Loop
variable {fate : ℕ → Fate} {fs : Fs} {s s1 : Writing} {K K1 root : List ℕ} {n : ℕ}

theorem Located.src_ne (h : Located fs s K s1 K1) (hsrc : s.src ≠ []) : s1.src ≠ [] := by
  rw [h.src]
  exact hsrc

/-- The rule for the loop of `fat32_write`: it ends with the data, for want of a free cluster or at
a transfer that fails, or it makes a turn and goes on. -/
theorem writeLoopUnder_rule (hf : fs.Ok) {M : Writing → List ℕ → Writing × Bool → Prop}
    (ends : ∀ s K, s.src = [] → M s K (s, true))
    (noSpace : ∀ s K, s.src ≠ [] → K = [] → fs.clusterSize ≤ s.offset →
      freeClusters fs s.vol = ∅ → M s K (s, false))
    (fails : ∀ s K s1 K1, s.src ≠ [] → Located fs s K s1 K1 → ¬ AllDone fate s1.transfers 2 →
      M s K ((s1.transfer fate fs).1, false))
    (goesOn : ∀ s K s1 K1 r, s.src ≠ [] → Located fs s K s1 K1 → AllDone fate s1.transfers 2 →
      M (s1.moved fs) K1 r → M s K r) :
    ∀ n s K, Behind fs s K → s.src.length ≤ n → M s K (writeLoopUnder fate fs n s) := by
  have hlt := hf.clusterSize_lt
  intro n
  induction n with
  | zero =>
    intro s K _ hn
    exact ends s K (List.length_eq_zero_iff.mp (by omega))
  | succ n ih =>
    intro s K h hn
    unfold writeLoopUnder
    by_cases hsrc : s.src = []
    · rw [if_pos hsrc]
      exact ends s K hsrc
    rw [if_neg hsrc]
    rcases locate_cases hf h with ⟨hloc, hK, hfull, hfree⟩ | ⟨s1, K1, hloc, hl⟩
    · rw [hloc]
      exact noSpace s K hsrc hK hfull hfree
    · rw [hloc]
      dsimp only
      have hspec := transfer_spec fate fs s1
      have hchunk := chunk_bounds (hl.src_ne hsrc)
      have hin := turn_in_cluster hl.offset hchunk.1
      by_cases hok : AllDone fate s1.transfers 2
      · have hmoved : (s1.transfer fate fs).1 = s1.moved fs := by
          rw [hspec.2.2.2 (hspec.1.mpr hok), Nat.mod_eq_of_lt (by omega)]
          exact Eq.refl _
        rw [if_pos (hspec.1.mpr hok), hmoved]
        apply goesOn s K s1 K1 _ hsrc hl hok
        apply ih
        · have hb : FatChain fs s1.vol (fatNextCluster fs s1.vol s1.cluster) K1 := hl.behind
          have hnext : fatNextCluster fs (s1.put fs) s1.cluster =
              fatNextCluster fs s1.vol s1.cluster := fatNextCluster_congr (Eq.refl _)
          show FatChain fs (s1.put fs) (fatNextCluster fs (s1.put fs) s1.cluster) K1
          rw [hnext]
          exact hb.congr_fat (Eq.refl _)
        · show (s1.src.drop s1.chunk).length ≤ n
          rw [List.length_drop, hl.src]
          omega
      · have hfail : (s1.transfer fate fs).2 = false :=
          Bool.eq_false_iff.mpr (fun h => hok (hspec.1.mp h))
        rw [if_neg (fun h => hok (hspec.1.mp h))]
        have hpair : s1.transfer fate fs = ((s1.transfer fate fs).1, false) :=
          Prod.ext (Eq.refl _) hfail
        rw [hpair]
        exact fails s K s1 K1 hsrc hl hok

/-- A turn makes the room smaller by what it writes. -/
theorem moved_room (L : List ℕ) (hsrc : s1.src ≠ []) (ho : s1.offset < fs.clusterSize) :
    room fs L (s1.moved fs).offset + s1.chunk = room fs L s1.offset :=
  room_step ho (chunk_bounds hsrc).1

theorem moved_length (hsrc : s1.src ≠ []) :
    (s1.moved fs).src.length + s1.chunk = s1.src.length := by
  have hle := (chunk_bounds hsrc).2.1
  show (s1.src.drop s1.chunk).length + s1.chunk = s1.src.length
  rw [List.length_drop]
  omega

theorem moved_turns (hsrc : s1.src ≠ []) (ho : s1.offset < fs.clusterSize) :
    turns fs s1.offset s1.src.length =
      turns fs (s1.moved fs).offset (s1.moved fs).src.length + 1 := by
  obtain ⟨h1, h2, h3, h4⟩ := chunk_bounds hsrc
  have hlen : (s1.moved fs).src.length + s1.chunk = s1.src.length := moved_length hsrc
  have hstep : turns fs s1.offset s1.src.length =
      turns fs (s1.offset + s1.chunk) (s1.src.length - s1.chunk) + 1 := turns_step ho h1 h3 h2 h4
  rwa [show s1.src.length - s1.chunk = (s1.moved fs).src.length by omega] at hstep

/-- The same for the turns that fill the room. -/
theorem moved_turns_room (hsrc : s1.src ≠ []) (ho : s1.offset < fs.clusterSize)
    (hlt : room fs K1 s1.offset < s1.src.length) :
    turns fs s1.offset (room fs K1 s1.offset) =
      turns fs (s1.moved fs).offset (room fs K1 (s1.moved fs).offset) + 1 := by
  obtain ⟨h1, h2, h3, h4⟩ := chunk_bounds hsrc
  have hroom := moved_room K1 hsrc ho
  have hinside := room_inside (K := K1) ho
  have hsize := clusterSize_mod fs
  have hstep : turns fs s1.offset (room fs K1 s1.offset) =
      turns fs (s1.offset + s1.chunk) (room fs K1 s1.offset - s1.chunk) + 1 :=
    turns_step ho h1 h3 (by omega) (by omega)
  rwa [show room fs K1 s1.offset - s1.chunk = room fs K1 (s1.moved fs).offset by omega] at hstep

theorem allDone_turns {t m : ℕ} : AllDone fate t (2 * (m + 1)) ↔
    AllDone fate t 2 ∧ AllDone fate (t+2) (2*m) := by
  rw [show 2 * (m+1) = 2 + 2*m by omega]
  exact allDone_add

/-- A call succeeds when its transfers are made and there are clusters enough. -/
theorem writeLoopUnder_ok (hf : fs.Ok) (h : Behind fs s K) (hn : s.src.length ≤ n) :
    (writeLoopUnder fate fs n s).2 = true ↔
      AllDone fate s.transfers (2 * turns fs s.offset s.src.length) ∧
      s.src.length ≤ room fs K s.offset + fs.clusterSize * (freeClusters fs s.vol).card := by
  apply writeLoopUnder_rule (M := fun s K r => r.2 = true ↔
    AllDone fate s.transfers (2 * turns fs s.offset s.src.length) ∧
    s.src.length ≤ room fs K s.offset + fs.clusterSize * (freeClusters fs s.vol).card)
    hf ?_ ?_ ?_ ?_ n s K h hn
  · intro s K hsrc
    refine ⟨fun _ => ?_, fun _ => Eq.refl _⟩
    rw [hsrc, List.length_nil, turns_zero]
    exact ⟨AllDone.zero, Nat.zero_le _⟩
  · intro s K hsrc hK hfull hfree
    refine ⟨fun h => absurd h Bool.false_ne_true, fun h => ?_⟩
    have hpos := List.length_pos_of_ne_nil hsrc
    have hle := h.2
    rw [hfree, room_full hfull, hK, List.length_nil, Finset.card_empty] at hle
    omega
  · intro s K s1 K1 hsrc hl hfail
    refine ⟨fun h => absurd h Bool.false_ne_true, fun h => ?_⟩
    have hdone := h.1
    rw [← hl.turns_eq, ← hl.src, moved_turns (hl.src_ne hsrc) hl.offset, ← hl.transfers] at hdone
    exact absurd (allDone_turns.mp hdone).1 hfail
  · intro s K s1 K1 r hsrc hl hdone ih
    have hsrc1 := hl.src_ne hsrc
    have hroom := moved_room K1 hsrc1 hl.offset
    have hlen : (s1.moved fs).src.length + s1.chunk = s1.src.length := moved_length hsrc1
    have hfree : freeClusters fs (s1.moved fs).vol = freeClusters fs s1.vol :=
      freeClusters_congr (Eq.refl _)
    rw [ih, hfree, ← hl.turns_eq, ← hl.src, moved_turns hsrc1 hl.offset, ← hl.transfers,
      allDone_turns]
    have hbytes : room fs K1 s1.offset + fs.clusterSize * (freeClusters fs s1.vol).card =
        room fs K s.offset + fs.clusterSize * (freeClusters fs s.vol).card := by
      cases hl.kind with
      | inl hs => rw [hs.room, hs.vol]
      | inr hg =>
        -- one free cluster less, and its room more
        have hcard := Finset.card_erase_add_one hg.taken
        have hpos := hf.clusterSize_pos
        rw [hg.rest, hg.newLast, hg.start, room_inside (by omega), hg.last, room_full hg.full,
          ← hcard, Nat.mul_succ, List.length_nil]
        omega
    show AllDone fate (s1.transfers + 2) _ ∧ _ ↔ _
    constructor
    · intro h
      exact ⟨⟨hdone, h.1⟩, by omega⟩
    · intro h
      exact ⟨h.1.2, by omega⟩

theorem Located.used (h : Located fs s K s1 K1) {y : ℕ}
    (hy : s.vol.fatGet y &&& 0x0FFFFFFF ≠ 0) : s1.vol.fatGet y &&& 0x0FFFFFFF ≠ 0 := by
  cases h.kind with
  | inl hs =>
    rw [hs.vol]
    exact hy
  | inr hg => exact hg.keeps y hy

/-- The write comes to a cluster that has to be put behind the chain, and there is one. -/
def ComesToGrow (fate : ℕ → Fate) (fs : Fs) (s : Writing) (K : List ℕ) : Prop :=
  room fs K s.offset < s.src.length ∧
    AllDone fate s.transfers (2 * turns fs s.offset (room fs K s.offset)) ∧
    freeClusters fs s.vol ≠ ∅

/-- A turn in the chain changes nothing about that. -/
theorem comesToGrow_moved (hsrc : s.src ≠ []) (hl : Located fs s K s1 K1)
    (hs : Stays fs s K s1 K1) (hdone : AllDone fate s1.transfers 2) :
    ComesToGrow fate fs (s1.moved fs) K1 ↔ ComesToGrow fate fs s K := by
  have hsrc1 := hl.src_ne hsrc
  have hroom := moved_room K1 hsrc1 hl.offset
  have hlen : (s1.moved fs).src.length + s1.chunk = s1.src.length := moved_length hsrc1
  have hfree : freeClusters fs (s1.moved fs).vol = freeClusters fs s.vol := by
    calc freeClusters fs (s1.moved fs).vol = freeClusters fs s1.vol :=
      freeClusters_congr (Eq.refl _)
      _ = freeClusters fs s.vol := by rw [hs.vol]
  unfold ComesToGrow
  rw [hfree, ← hs.room, ← hl.src, ← hl.transfers, ← hl.turns_eq]
  constructor
  · intro h
    have hlt : room fs K1 s1.offset < s1.src.length := by
      have h1 := h.1
      omega
    rw [moved_turns_room hsrc1 hl.offset hlt]
    exact ⟨hlt, allDone_turns.mpr ⟨hdone, h.2.1⟩, h.2.2⟩
  · intro h
    have h2 := h.2.1
    rw [moved_turns_room hsrc1 hl.offset h.1] at h2
    have h1 := h.1
    exact ⟨by omega, (allDone_turns.mp h2).2, h.2.2⟩

/-- The cached FAT changes exactly when the write comes to a cluster that has to be put behind the
chain, and no used cluster becomes free. -/
theorem writeLoopUnder_fat (hf : fs.Ok) (h : Behind fs s K) (hn : s.src.length ≤ n) :
    (∀ y, s.vol.fatGet y &&& 0x0FFFFFFF ≠ 0 →
      (writeLoopUnder fate fs n s).1.vol.fatGet y &&& 0x0FFFFFFF ≠ 0) ∧
    ((writeLoopUnder fate fs n s).1.vol.fat = s.vol.fat ↔ ¬ ComesToGrow fate fs s K) := by
  -- the entry of a cluster that was put behind the chain is no longer free
  have hgrown : ∀ s K s1 K1 (v : Vol), s.src ≠ [] → Grows fs s K s1 K1 →
      (v.fatGet s1.cluster &&& 0x0FFFFFFF ≠ 0) →
      (v.fat = s.vol.fat ↔ ¬ ComesToGrow fate fs s K) := by
    intro s K s1 K1 v hsrc hg hused
    have hroom : room fs K s.offset = 0 := by
      rw [room_full hg.full, hg.last, List.length_nil, Nat.zero_mul]
    constructor
    · intro hfat
      rw [fatGet_congr hfat] at hused
      exact absurd (mem_freeClusters.mp hg.taken).2 hused
    · intro hnot
      apply absurd ?_ hnot
      unfold ComesToGrow
      rw [hroom, turns_zero]
      exact ⟨List.length_pos_of_ne_nil hsrc, AllDone.zero, Finset.ne_empty_of_mem hg.taken⟩
  apply writeLoopUnder_rule (M := fun s K r =>
    (∀ y, s.vol.fatGet y &&& 0x0FFFFFFF ≠ 0 → r.1.vol.fatGet y &&& 0x0FFFFFFF ≠ 0) ∧
    (r.1.vol.fat = s.vol.fat ↔ ¬ ComesToGrow fate fs s K)) hf ?_ ?_ ?_ ?_ n s K h hn
  · intro s K hsrc
    refine ⟨fun y hy => hy, fun _ hg => ?_, fun _ => Eq.refl _⟩
    have hlt := hg.1
    rw [hsrc, List.length_nil] at hlt
    exact Nat.not_lt_zero _ hlt
  · intro s K _ _ _ hfree
    exact ⟨fun y hy => hy, fun _ hg => hg.2.2 hfree, fun _ => Eq.refl _⟩
  · intro s K s1 K1 hsrc hl hfail
    have hfat := (transfer_spec fate fs s1).2.1
    dsimp only
    constructor
    · intro y hy
      rw [fatGet_congr hfat]
      exact hl.used hy
    · cases hl.kind with
      | inl hs =>
        refine ⟨fun _ hg => ?_, fun _ => by rw [hfat, hs.vol]⟩
        have hdone := hg.2.1
        have hlt := hg.1
        rw [← hs.room, ← hl.src] at hlt
        rw [← hs.room, ← hl.turns_eq, moved_turns_room (hl.src_ne hsrc) hl.offset hlt,
          ← hl.transfers] at hdone
        exact hfail (allDone_turns.mp hdone).1
      | inr hg =>
        apply hgrown s K s1 K1 _ hsrc hg
        rw [fatGet_congr hfat]
        exact hg.used
  · intro s K s1 K1 r hsrc hl hdone ih
    have hfat : (s1.moved fs).vol.fat = s1.vol.fat := Eq.refl _
    have hkeeps : ∀ y, s1.vol.fatGet y &&& 0x0FFFFFFF ≠ 0 →
        r.1.vol.fatGet y &&& 0x0FFFFFFF ≠ 0 := by
      intro y hy
      apply ih.1
      rw [fatGet_congr hfat]
      exact hy
    refine ⟨fun y hy => hkeeps y (hl.used hy), ?_⟩
    cases hl.kind with
    | inl hs =>
      have hiff := ih.2
      rwa [hfat, hs.vol, comesToGrow_moved hsrc hl hs hdone] at hiff
    | inr hg => exact hgrown s K s1 K1 _ hsrc hg (hkeeps _ hg.used)

/-- The sectors of the cluster are not those of the directory. -/
def AwayFrom (fs : Fs) (root : List ℕ) (x : ℕ) : Prop :=
  ∀ c ∈ root, ∀ k k', k < fs.sectorsPerCluster → k' < fs.sectorsPerCluster →
    sectorOf fs x k ≠ sectorOf fs c k'

theorem awayFrom_of_isData (hf : fs.Ok) (hroot : ∀ c ∈ root, fs.IsData c) {x : ℕ}
    (hx : fs.IsData x) (hr : x ∉ root) : AwayFrom fs root x := by
  intro c hc k k' hk hk' he
  have hxc := (hf.apart.inj x c k k' hx (hroot c hc) hk hk' he).1
  exact hr (hxc ▸ hc)

/-- A write does not come to the directory. -/
theorem writeLoopUnder_root (hf : fs.Ok) (h : Behind fs s K) (hn : s.src.length ≤ n)
    (hroot : ∀ c ∈ root, fs.IsData c ∧ s.vol.fatGet c &&& 0x0FFFFFFF ≠ 0)
    (haway : AwayFrom fs root s.cluster) (hK : ∀ y ∈ K, AwayFrom fs root y) :
    ∀ c ∈ root, readCluster fs (writeLoopUnder fate fs n s).1.vol c =
      readCluster fs s.vol c := by
  have hturn : ∀ s K s1 K1 (v : Vol), s.src ≠ [] → Located fs s K s1 K1 →
      (v.disk = s1.vol.disk ∨ v.disk = (s1.put fs).disk) → AwayFrom fs root s1.cluster →
      ∀ c ∈ root, readCluster fs v c = readCluster fs s.vol c := by
    intro s K s1 K1 v hsrc hl hdisk haway c hc
    apply readCluster_congr
    intro k hk x hx
    rw [← hl.disk]
    cases hdisk with
    | inl he => rw [he]
    | inr he =>
      rw [he]
      apply if_neg
      rw [sector_div _ _ hx]
      intro hsec
      exact haway c hc _ k (Fs.sector_lt hl.offset) hk hsec.symm
  have hnext : ∀ s K s1 K1, Located fs s K s1 K1 →
      (∀ c ∈ root, fs.IsData c ∧ s.vol.fatGet c &&& 0x0FFFFFFF ≠ 0) →
      AwayFrom fs root s.cluster → (∀ y ∈ K, AwayFrom fs root y) →
      AwayFrom fs root s1.cluster ∧ ∀ y ∈ K1, AwayFrom fs root y := by
    intro s K s1 K1 hl hroot haway hK
    cases hl.kind with
    | inl hs =>
      refine ⟨?_, fun y hy => hK y (hs.behind y hy)⟩
      cases hs.cluster with
      | inl he =>
        rw [he]
        exact haway
      | inr hm => exact hK _ hm
    | inr hg =>
      -- the clusters of the directory are not free
      have hfree := mem_freeClusters.mp hg.taken
      constructor
      · apply awayFrom_of_isData hf (fun c hc => (hroot c hc).1) hfree.1
        intro hm
        exact (hroot _ hm).2 hfree.2
      · rw [hg.newLast]
        exact fun y hy => absurd hy List.not_mem_nil
  revert hroot haway hK
  apply writeLoopUnder_rule (M := fun s K r =>
    (∀ c ∈ root, fs.IsData c ∧ s.vol.fatGet c &&& 0x0FFFFFFF ≠ 0) → AwayFrom fs root s.cluster →
    (∀ y ∈ K, AwayFrom fs root y) →
    ∀ c ∈ root, readCluster fs r.1.vol c = readCluster fs s.vol c) hf ?_ ?_ ?_ ?_ n s K h hn
  · exact fun s K _ _ _ _ c _ => Eq.refl _
  · exact fun s K _ _ _ _ _ _ _ c _ => Eq.refl _
  · intro s K s1 K1 hsrc hl _ hroot haway hK
    exact hturn s K s1 K1 _ hsrc hl (transfer_spec fate fs s1).2.2.1
      (hnext s K s1 K1 hl hroot haway hK).1
  · intro s K s1 K1 r hsrc hl _ ih hroot haway hK c hc
    have hn := hnext s K s1 K1 hl hroot haway hK
    have hmoved := hturn s K s1 K1 (s1.moved fs).vol hsrc hl (Or.inr (Eq.refl _)) hn.1 c hc
    rw [← hmoved]
    apply ih ?_ hn.1 hn.2 c hc
    intro x hx
    refine ⟨(hroot x hx).1, ?_⟩
    rw [show (s1.moved fs).vol.fatGet x = s1.vol.fatGet x from fatGet_congr (Eq.refl _) x]
    exact hl.used (hroot x hx).2

end Loop

/-! ### When nothing fails -/

section NoFailure
variable {fate : ℕ → Fate} {fs : Fs} {v : Vol} {root : List ℕ} {own : Set ℕ} {c : ℕ} {buf : Mem}

theorem writeClusterUnder_of_done {t : ℕ} (hdone : ∀ k, fate k = .done) :
    writeClusterUnder fate t fs v c buf =
      (writeCluster fs v c buf, t + fs.sectorsPerCluster, true) := by
  unfold writeClusterUnder
  rw [diskWriteUnder_of_done (AllDone.of_done hdone t _)]
  exact Eq.refl _

theorem fat32FlushUnder_of_done {t : ℕ} (hdone : ∀ k, fate k = .done) :
    fat32FlushUnder fate t fs v = fat32Flush fs v := by
  unfold fat32FlushUnder fat32Flush
  rw [diskWriteUnder_of_done (AllDone.of_done hdone t _)]

/-- The search finds what it finds on a disk that does not fail. -/
theorem walkRootUnder_of_done (hf : fs.Ok) (h : FatChain fs v fs.rootCluster root)
    (hdone : ∀ k, fate k = .done) (scan : Mem → Option ℕ) :
    (walkRoot fs v scan = some none ∧ ∃ t, walkRootUnder fate fs v scan = some (none, t)) ∨
    ∃ c i, walkRoot fs v scan = some (some (c, i)) ∧ walkRootUnder fate fs v scan =
      some (some (c, i, readCluster fs v c), readsTo fs root c) := by
  cases walkRootUnder_cases hf h fate scan with
  | inl hnone =>
    left
    refine ⟨?_, hnone.1⟩
    rcases walkRoot_cases hf h scan with ⟨hw, -⟩ | ⟨c, i, A, B, hw, -⟩
    · exact hw
    · exact absurd (AllDone.of_done hdone 0 _) (hnone.2 c i hw)
  | inr hsome =>
    obtain ⟨c, i, hw, -, hu⟩ := hsome
    exact Or.inr ⟨c, i, hw, hu⟩

theorem fat32CreateFileUnder_of_done (hf : fs.Ok) (hw : Wf fs root own v)
    (hdone : ∀ k, fate k = .done) (filename : List Byte) (now : Stamp) :
    fat32CreateFileUnder fate fs v filename now =
      (fat32CreateFile fs v filename now).map (fun r =>
        match r with
        | none => (v, -1)
        | some (w, _) => (w, 0)) := by
  unfold fat32CreateFileUnder fat32CreateFile
  rcases walkRootUnder_of_done hf hw.rootChain hdone
      (fun buf => scanFree buf 0 fs.entryCount) with ⟨hnone, t, ht⟩ | ⟨c, i, hslot, hfound⟩
  · rw [hnone, ht]
    exact Eq.refl _
  · rw [hslot, hfound]
    by_cases hfree : findFreeCluster fs v = 0
    · simp [hfree]
    · simp [hfree, writeClusterUnder_of_done hdone, fat32FlushUnder_of_done hdone]

theorem fat32DeleteUnder_of_done (hf : fs.Ok) (hw : Wf fs root own v)
    (hdone : ∀ k, fate k = .done) (filename : List Byte) :
    fat32DeleteUnder fate fs v filename =
      (fat32Delete fs v filename).map (fun r =>
        match r with
        | none => (v, -1)
        | some w => (w, 0)) := by
  unfold fat32DeleteUnder fat32Delete findEntry
  rcases walkRootUnder_of_done hf hw.rootChain hdone
      (fun buf => scanLive (nameMatches (toShort filename)) buf 0 fs.entryCount) with
    ⟨hnone, t, ht⟩ | ⟨c, i, hslot, hfound⟩
  · rw [hnone, ht]
    exact Eq.refl _
  · rw [hslot, hfound]
    simp [writeClusterUnder_of_done hdone, fat32FlushUnder_of_done hdone]

/-- The loop of a write, turn by turn. -/
theorem writeLoopUnder_of_done (fs : Fs) (hdone : ∀ k, fate k = .done) (n : ℕ) : ∀ s : Writing,
    (writeLoopUnder fate fs n s).2 = (writeLoop fs n s.vol s.src s.cluster s.offset).ok ∧
    (writeLoopUnder fate fs n s).1.vol = (writeLoop fs n s.vol s.src s.cluster s.offset).vol ∧
    (writeLoopUnder fate fs n s).1.cluster =
      (writeLoop fs n s.vol s.src s.cluster s.offset).cluster ∧
    (writeLoopUnder fate fs n s).1.offset =
      (writeLoop fs n s.vol s.src s.cluster s.offset).offset := by
  induction n with
  | zero => exact fun s => ⟨Eq.refl _, Eq.refl _, Eq.refl _, Eq.refl _⟩
  | succ n ih =>
    intro s
    unfold writeLoopUnder writeLoop
    by_cases hsrc : s.src = []
    · rw [if_pos hsrc, if_pos hsrc]
      exact ⟨Eq.refl _, Eq.refl _, Eq.refl _, Eq.refl _⟩
    rw [if_neg hsrc, if_neg hsrc]
    -- where the turn takes place is found in the same way
    have hturn : ∀ s1 : Writing, (s1.transfer fate fs).2 = true ∧ (s1.transfer fate fs).1 =
        { s1 with vol := s1.put fs, transfers := s1.transfers + 2, src := s1.src.drop s1.chunk
                  offset := (s1.offset + s1.chunk) % 2^32 } := by
      intro s1
      have hspec := transfer_spec fate fs s1
      have hok := hspec.1.mpr (AllDone.of_done hdone s1.transfers 2)
      exact ⟨hok, hspec.2.2.2 hok⟩
    unfold Writing.locate
    by_cases hend : fs.clusterSize ≤ s.offset
    · rw [if_pos hend, if_pos hend]
      cases nextForWrite fs s.vol s.cluster with
      | none => exact ⟨Eq.refl _, Eq.refl _, Eq.refl _, Eq.refl _⟩
      | some r =>
        dsimp only [Option.map_some]
        rw [if_pos (hturn _).1, (hturn _).2]
        exact ih _
    · rw [if_neg hend, if_neg hend]
      dsimp only
      rw [if_pos (hturn s).1, (hturn s).2]
      exact ih _

theorem fat32WriteUnder_of_done (hdone : ∀ k, fate k = .done) (file : File) (src : List Byte) :
    (fat32WriteUnder fate fs v file src).vol = (fat32Write fs v file src).vol ∧
    (fat32WriteUnder fate fs v file src).ret = (fat32Write fs v file src).ret ∧
    (fat32WriteUnder fate fs v file src).file = (fat32Write fs v file src).file := by
  obtain ⟨hok, hvol, hcluster, hoffset⟩ := writeLoopUnder_of_done fs hdone src.length
    ⟨v, 0, src, file.currentCluster, file.offset⟩
  unfold fat32WriteUnder fat32Write
  dsimp only at hok hvol hcluster hoffset ⊢
  rw [hok]
  split
  · rw [hvol, hcluster, hoffset]
    exact ⟨Eq.refl _, Eq.refl _, Eq.refl _⟩
  · rw [hvol]
    exact ⟨Eq.refl _, Eq.refl _, Eq.refl _⟩

end NoFailure

/-! ### All or nothing -/

/-- A call of one of the three functions. -/
inductive FsOp where
  | create (filename : List Byte) (now : Stamp)
  | write (file : File) (src : List Byte)
  | delete (filename : List Byte)

/-- The volume after the call and its result. -/
def FsOp.run (fate : ℕ → Fate) (fs : Fs) (v : Vol) : FsOp → Option (Vol × ℤ)
  | .create filename now => fat32CreateFileUnder fate fs v filename now
  | .write file src =>
    let r := fat32WriteUnder fate fs v file src
    some (r.vol, r.ret)
  | .delete filename => fat32DeleteUnder fate fs v filename

/-- The entries in use are the same, with the same bytes. -/
structure SameLive (fs : Fs) (root : List ℕ) (v v' : Vol) : Prop where
  used : ∀ e, Used fs v' root e ↔ Used fs v root e
  bytes : ∀ e, Used fs v root e → ∀ b, b < 32 →
    readCluster fs v' e.1 (32*e.2 + b) = readCluster fs v e.1 (32*e.2 + b)

/-- The directory and the FAT have reached the disk: they are as the call leaves them when no
transfer fails. -/
def FsOp.Committed (fs : Fs) (root : List ℕ) (v u : Vol) : FsOp → Prop
  | .create filename now =>
    ∃ w f, fat32CreateFile fs v filename now = some (some (w, f)) ∧ OnDisk fs root w u
  | .write _ _ => True
  | .delete filename => ∃ w, fat32Delete fs v filename = some (some w) ∧ OnDisk fs root w u

structure FsOp.Atomic (fs : Fs) (root : List ℕ) (v : Vol) (op : FsOp) (r : Vol × ℤ) : Prop where
  success : r.2 = 0 → op.Committed fs root v r.1
  failure : r.2 = -1 → r.1.fat = v.fat ∧ SameLive fs root v r.1

/-- A handle of an open file; the sectors that stand for cluster 0, in a file without clusters, are
not in the data area. -/
def Handle (fs : Fs) (own : Set ℕ) (v : Vol) (file : File) : Prop :=
  (file.startCluster ∈ own ∧
    ∃ L, FatChain fs v file.startCluster L ∧ L ≠ [] ∧ file.currentCluster ∈ L) ∨
  (file.currentCluster = 0 ∧ ∀ c k k', fs.IsData c → k < fs.sectorsPerCluster →
    k' < fs.sectorsPerCluster → sectorOf fs 0 k' ≠ sectorOf fs c k)

/-- The arguments that the code can receive. -/
def FsOp.Valid (fs : Fs) (own : Set ℕ) (v : Vol) : FsOp → Prop
  | .write file src => Handle fs own v file ∧ src.length < 2^32
  | _ => True

/-- The FAT with the chain of the entry freed. -/
def freedTable (v : Vol) (buf : Mem) (i : ℕ) : Mem :=
  (if entCluster buf i ≠ 0 then fat32FreeClusterChain v (entCluster buf i) else v).fat

/-- When creating is all or nothing: it comes to no slot or to no free cluster, or the writes reach
each sector that changes. -/
def CreateHolds (fate : ℕ → Fate) (fs : Fs) (root : List ℕ) (v : Vol) (filename : List Byte)
    (now : Stamp) : Prop :=
  ∀ c i, walkRoot fs v (fun buf => scanFree buf 0 fs.entryCount) = some (some (c, i)) →
    AllDone fate 0 (readsTo fs root c) → findFreeCluster fs v ≠ 0 →
    ReachesNew fate (readsTo fs root c) (readCluster fs v c)
      (putNew (readCluster fs v c) i (toShort filename) (findFreeCluster fs v) now)
      fs.sectorsPerCluster ∧
    ReachesNew fate
      (readsTo fs root c + attempts fate (readsTo fs root c) fs.sectorsPerCluster)
      (tableOnDisk fs v) (v.fatSet (findFreeCluster fs v) fatEof).fat fs.fatSizeSectors

/-- When deleting is all or nothing: it comes to no entry, or the directory is written and the flush
reaches each sector that changes, or the write of the directory fails before the sector of the
entry. -/
def DeleteHolds (fate : ℕ → Fate) (fs : Fs) (root : List ℕ) (v : Vol) (filename : List Byte) :
    Prop :=
  ∀ c i, findEntry fs v (nameMatches (toShort filename)) = some (some (c, i)) →
    AllDone fate 0 (readsTo fs root c) →
    (AllDone fate (readsTo fs root c) fs.sectorsPerCluster →
      ReachesNew fate (readsTo fs root c + fs.sectorsPerCluster) (tableOnDisk fs v)
        (freedTable v (readCluster fs v c) i) fs.fatSizeSectors) ∧
    (¬ AllDone fate (readsTo fs root c) fs.sectorsPerCluster →
      ¬ Reaches fate (readsTo fs root c) (i/16))

/-- When writing is all or nothing: the data fits into the chain, or a transfer fails before the end
of the chain, or no cluster is free, or no transfer fails and there are clusters enough; the result
for 2^32-1 bytes is -1. -/
def WriteHolds (fate : ℕ → Fate) (fs : Fs) (v : Vol) (file : File) (src : List Byte) : Prop :=
  ∀ K, FatChain fs v (fatNextCluster fs v file.currentCluster) K →
    src.length ≤ room fs K file.offset ∨
    ¬ AllDone fate 0 (2 * turns fs file.offset (room fs K file.offset)) ∨
    freeClusters fs v = ∅ ∨
    (AllDone fate 0 (2 * turns fs file.offset src.length) ∧
      src.length ≤ room fs K file.offset + fs.clusterSize * (freeClusters fs v).card ∧
      src.length ≠ 2^32 - 1)

def FsOp.Holds (fate : ℕ → Fate) (fs : Fs) (root : List ℕ) (v : Vol) : FsOp → Prop
  | .create filename now => CreateHolds fate fs root v filename now
  | .write file src => WriteHolds fate fs v file src
  | .delete filename => DeleteHolds fate fs root v filename

section Operations
variable {fate : ℕ → Fate} {fs : Fs} {v v' : Vol} {root : List ℕ} {own : Set ℕ} {op : FsOp}
  {filename : List Byte} {now : Stamp} {file : File} {src : List Byte} {c i n : ℕ}

theorem sameLive_of_read (h : ∀ c ∈ root, readCluster fs v' c = readCluster fs v c) :
    SameLive fs root v v' where
  used := fun _ => (SameEntries.of_read h).used
  bytes := by
    intro e he b _
    rw [h e.1 he.1]

/-- A call that returns -1 and changes nothing. -/
theorem atomic_unchanged : op.Atomic fs root v (v, -1) where
  success := fun h => absurd (show (-1 : ℤ) = 0 from h) (by decide)
  failure := fun _ => ⟨Eq.refl _, sameLive_of_read (fun _ _ => Eq.refl _)⟩

theorem create_iff (hf : fs.Ok) (hw : Wf fs root own v) (fate : ℕ → Fate) (filename : List Byte)
    (now : Stamp) :
    ∃ r, fat32CreateFileUnder fate fs v filename now = some r ∧
      ((FsOp.create filename now).Atomic fs root v r ↔
        CreateHolds fate fs root v filename now) := by
  unfold fat32CreateFileUnder
  rcases walkRootUnder_cases hf hw.rootChain fate (fun buf => scanFree buf 0 fs.entryCount) with
    ⟨⟨t, ht⟩, hnone⟩ | ⟨c, i, hslot, hdone, hfound⟩
  · -- no free entry, or a cluster before it cannot be read
    rw [ht]
    refine ⟨(v, -1), Eq.refl _, fun _ => ?_, fun _ => atomic_unchanged⟩
    intro c i hslot hdone
    exact absurd hdone (hnone c i hslot)
  · rw [hfound]
    by_cases hfree : findFreeCluster fs v = 0
    · refine ⟨(v, -1), if_pos hfree, fun _ => ?_, fun _ => atomic_unchanged⟩
      intro _ _ _ _ hne
      exact absurd hfree hne
    · refine ⟨_, if_neg hfree, ?_⟩
      obtain ⟨A, ⟨B, hB⟩, -⟩ := (walkRoot_found_iff hf hw.rootChain).mp hslot
      have hc : c ∈ root := by
        rw [hB]
        exact List.mem_append_right A List.mem_cons_self
      -- the directory cluster and the cached FAT that are written
      generalize hbuf : putNew (readCluster fs v c) i (toShort filename)
        (findFreeCluster fs v) now =
        buf
      generalize hv1 : v.fatSet (findFreeCluster fs v) fatEof = v1
      have hdisk : v1.disk = v.disk := by
        rw [← hv1]
        exact Eq.refl _
      have hideal : fat32CreateFile fs v filename now = some (some
          (fat32Flush fs (writeCluster fs v1 c buf),
            ⟨findFreeCluster fs v, findFreeCluster fs v, 0, 0⟩)) := by
        unfold fat32CreateFile
        rw [hslot, ← hv1, ← hbuf]
        exact if_neg hfree
      have hput : DirPut fs v (fat32Flush fs (writeCluster fs v1 c buf)) c buf := by
        refine ⟨writeCluster fs v1 c buf, ?_, Eq.refl _⟩
        unfold writeCluster
        rw [hdisk]
      have hu : (writeClusterUnder fate (readsTo fs root c) fs v1 c buf).1.disk =
          (writeClusterUnder fate (readsTo fs root c) fs v c buf).1.disk := by
        unfold writeClusterUnder
        rw [hdisk]
      have hcount : (writeClusterUnder fate (readsTo fs root c) fs v1 c buf).2.1 =
          readsTo fs root c + attempts fate (readsTo fs root c) fs.sectorsPerCluster :=
        writeClusterUnder_count
      rw [hcount]
      constructor
      · intro h c' i' hslot' _ _
        -- the search finds one entry
        obtain ⟨rfl, rfl⟩ := walkRoot_unique hslot hslot'
        rw [hbuf, hv1]
        obtain ⟨w, f, hcreate, hon⟩ := h.success (Eq.refl 0)
        have hpair := Option.some.inj (Option.some.inj (hcreate.symm.trans hideal))
        rw [(Prod.mk.inj hpair).1] at hon
        exact (onDisk_iff hf hw.dataRoot hc hput hu).mp hon
      · intro h
        have hreach := h c i hslot hdone hfree
        rw [hbuf, hv1] at hreach
        constructor
        · intro _
          exact ⟨_, _, hideal, (onDisk_iff hf hw.dataRoot hc hput hu).mpr hreach⟩
        · intro hret
          exact absurd (show (0 : ℤ) = -1 from hret) (by decide)

/-- Freeing a chain looks at the FAT and changes the FAT only. -/
theorem freeChainFrom_congr (n : ℕ) : ∀ (v v' : Vol) (c : ℕ), v'.fat = v.fat →
    (freeChainFrom v' n c).disk = v'.disk ∧
    (freeChainFrom v' n c).fat = (freeChainFrom v n c).fat := by
  induction n with
  | zero => exact fun v v' c h => ⟨Eq.refl _, h⟩
  | succ n ih =>
    intro v v' c h
    have hset : (v'.fatSet c 0).fat = (v.fatSet c 0).fat := by
      unfold Vol.fatSet
      dsimp only
      rw [h]
    unfold freeChainFrom
    dsimp only
    rw [fatGet_congr h]
    split
    · split
      · exact ⟨Eq.refl _, hset⟩
      · exact ih _ _ _ hset
    · exact ⟨Eq.refl _, h⟩

theorem freed_spec {buf : Mem} (h : v'.fat = v.fat) :
    (if entCluster buf i ≠ 0 then fat32FreeClusterChain v' (entCluster buf i) else v').disk =
      v'.disk ∧
    (if entCluster buf i ≠ 0 then fat32FreeClusterChain v' (entCluster buf i) else v').fat =
      freedTable v buf i := by
  unfold freedTable fat32FreeClusterChain
  split
  · exact freeChainFrom_congr _ v v' _ h
  · exact ⟨Eq.refl _, h⟩

/-- A write of the directory that marks the entry as deleted leaves the entries in use as they are
exactly when it does not come to the sector of the entry. -/
theorem marked_sameLive_iff (hf : fs.Ok) (hw : Wf fs root own v) {t : ℕ}
    (hu : Used fs v root (c, i)) :
    SameLive fs root v (writeClusterUnder fate t fs v c
      (Function.update (readCluster fs v c) (32*i) 0xE5#8)).1 ↔ ¬ Reaches fate t (i/16) := by
  have hd := hw.root_isData hu.1
  have hin : 32*i < fs.clusterSize := entry_in_cluster (b := 0) hu.2.1 (by decide)
  have hsec : 32*i/512 = i/16 := by omega
  constructor
  · intro h hr
    have hused := ((h.used (c, i)).mpr hu).2.2.2.1
    apply hused
    show readCluster fs _ c (32*i) = _
    rw [readCluster_writeClusterUnder hf hd hin, hsec, if_pos hr, Function.update_self]
  · intro hr
    apply sameLive_of_read
    intro x hx
    by_cases hxc : x = c
    · subst hxc
      funext o
      by_cases ho : o < fs.clusterSize
      · rw [readCluster_writeClusterUnder hf hd ho]
        by_cases hoi : o = 32*i
        · rw [hoi, hsec, if_neg hr]
        · rw [Function.update_of_ne hoi, ite_self]
      · rw [readCluster_behind (by omega), readCluster_behind (by omega)]
    · exact readCluster_writeClusterUnder_other hf hd (hw.root_isData hx) hxc

theorem delete_iff (hf : fs.Ok) (hw : Wf fs root own v) (fate : ℕ → Fate) (filename : List Byte) :
    ∃ r, fat32DeleteUnder fate fs v filename = some r ∧
      ((FsOp.delete filename).Atomic fs root v r ↔ DeleteHolds fate fs root v filename) := by
  unfold fat32DeleteUnder
  rcases walkRootUnder_cases hf hw.rootChain fate
      (fun buf => scanLive (nameMatches (toShort filename)) buf 0 fs.entryCount) with
    ⟨⟨t, ht⟩, hnone⟩ | ⟨c, i, hslot, hdone, hfound⟩
  · rw [ht]
    refine ⟨(v, -1), Eq.refl _, fun _ => ?_, fun _ => atomic_unchanged⟩
    intro c i hslot hdone
    exact absurd hdone (hnone c i hslot)
  · rw [hfound]
    have hslot : findEntry fs v (nameMatches (toShort filename)) = some (some (c, i)) := hslot
    have hu : Used fs v root (c, i) := ((hw.findEntry_iff hf).mp hslot).1
    generalize hbuf : Function.update (readCluster fs v c) (32*i) 0xE5#8 = buf
    by_cases hwrite : AllDone fate (readsTo fs root c) fs.sectorsPerCluster
    · -- the directory is written, and the table flushed
      refine ⟨_, if_pos (writeClusterUnder_ok.mpr hwrite), ?_⟩
      rw [hbuf]
      have hcount : (writeClusterUnder fate (readsTo fs root c) fs v c buf).2.1 =
          readsTo fs root c + fs.sectorsPerCluster := by
        rw [writeClusterUnder_count, attempts_of_done hwrite]
      rw [hcount]
      have hfat : (writeClusterUnder fate (readsTo fs root c) fs v c buf).1.fat = v.fat := Eq.refl _
      have hideal : ∃ w, fat32Delete fs v filename = some (some w) ∧ DirPut fs v w c buf := by
        unfold fat32Delete
        rw [hslot]
        refine ⟨_, Eq.refl _, _, ?_, Eq.refl _⟩
        rw [hbuf]
        have hkeep : (writeCluster fs v c buf).fat = v.fat := Eq.refl _
        exact (freed_spec hkeep).1
      obtain ⟨w, hdelete, hput⟩ := hideal
      constructor
      · intro h c' i' hslot' _
        -- the search finds one entry
        obtain ⟨rfl, rfl⟩ := walkRoot_unique hslot hslot'
        refine ⟨fun _ => ?_, fun hnot => absurd hwrite hnot⟩
        obtain ⟨w', hdelete', hon⟩ := h.success (Eq.refl 0)
        have hww : w' = w := Option.some.inj (Option.some.inj (hdelete'.symm.trans hdelete))
        rw [hww] at hon
        rw [← (freed_spec hfat).2]
        exact ((onDisk_iff hf hw.dataRoot hu.1 hput (freed_spec hfat).1).mp hon).2
      · intro h
        have hreach := (h c i hslot hdone).1 hwrite
        rw [← (freed_spec hfat).2] at hreach
        constructor
        · intro _
          refine ⟨w, hdelete, (onDisk_iff hf hw.dataRoot hu.1 hput (freed_spec hfat).1).mpr
            ⟨?_, hreach⟩⟩
          -- each sector of the directory is written
          exact fun k hk => Or.inl (hwrite.reaches hk)
        · intro hret
          exact absurd (show (0 : ℤ) = -1 from hret) (by decide)
    · -- the write of the directory fails
      refine ⟨_, if_neg (fun h => hwrite (writeClusterUnder_ok.mp h)), ?_⟩
      rw [hbuf]
      have hlive : SameLive fs root v (writeClusterUnder fate (readsTo fs root c) fs v c buf).1 ↔
          ¬ Reaches fate (readsTo fs root c) (i/16) := by
        rw [← hbuf]
        exact marked_sameLive_iff hf hw hu
      constructor
      · intro h c' i' hslot' _
        -- the search finds one entry
        obtain ⟨rfl, rfl⟩ := walkRoot_unique hslot hslot'
        refine ⟨fun hd => absurd hd hwrite, fun _ => ?_⟩
        exact hlive.mp (h.failure (Eq.refl _)).2
      · intro h
        constructor
        · intro hret
          exact absurd (show (-1 : ℤ) = 0 from hret) (by decide)
        · intro _
          exact ⟨Eq.refl _, hlive.mpr ((h c i hslot hdone).2 hwrite)⟩

theorem toInt32_eq_neg_one (h : n < 2^32) : toInt32 n = -1 ↔ n = 2^32 - 1 := by
  unfold toInt32
  rw [Nat.mod_eq_of_lt h]
  split
  · constructor
    · intro he
      omega
    · intro he
      omega
  · constructor
    · intro he
      omega
    · intro he
      omega

/-- The clusters behind the current one of a handle, and none of them in the directory. -/
theorem handle_behind (hf : fs.Ok) (hw : Wf fs root own v) (h : Handle fs own v file) :
    ∃ K, FatChain fs v (fatNextCluster fs v file.currentCluster) K ∧
      AwayFrom fs root file.currentCluster ∧ ∀ y ∈ K, AwayFrom fs root y := by
  cases h with
  | inl h =>
    obtain ⟨hown, L, hL, hne, hcur⟩ := h
    have haway : ∀ y ∈ L, AwayFrom fs root y := by
      intro y hy
      apply awayFrom_of_isData hf hw.dataRoot (hL.isData hy)
      exact hw.apartRoot _ hown L (Or.inr ⟨hne, hL⟩) y hy
    obtain ⟨A, K, rfl⟩ := List.append_of_mem hcur
    refine ⟨K, (Linked.suffix hL).2.2, haway _ hcur, fun y hy => haway y ?_⟩
    exact List.mem_append_right A (List.mem_cons_of_mem _ hy)
  | inr h =>
    have hend : fatNextCluster fs v file.currentCluster = fatEof := by
      rw [h.1]
      exact if_pos (Or.inl (by decide))
    refine ⟨[], ?_, ?_, fun y hy => absurd hy List.not_mem_nil⟩
    · show fatEof ≤ fatNextCluster fs v file.currentCluster
      rw [hend]
    · intro c hc k k' hk hk'
      rw [h.1]
      exact h.2 c k' k (hw.root_isData hc) hk' hk

/-- The disk and the FAT after a write are those that the loop leaves. -/
theorem fat32WriteUnder_vol : (fat32WriteUnder fate fs v file src).vol =
    (writeLoopUnder fate fs src.length ⟨v, 0, src, file.currentCluster, file.offset⟩).1.vol := by
  unfold fat32WriteUnder
  dsimp only
  split
  · exact Eq.refl _
  · exact Eq.refl _

/-- A write returns -1 when the loop stops early, and for 2^32-1 bytes. -/
theorem fat32WriteUnder_ret (hlen : src.length < 2^32) :
    (fat32WriteUnder fate fs v file src).ret = -1 ↔
      ¬ ((writeLoopUnder fate fs src.length
          ⟨v, 0, src, file.currentCluster, file.offset⟩).2 = true ∧ src.length ≠ 2^32 - 1) := by
  unfold fat32WriteUnder
  dsimp only
  by_cases hend : (writeLoopUnder fate fs src.length
      ⟨v, 0, src, file.currentCluster, file.offset⟩).2 = true
  · rw [if_pos hend]
    dsimp only
    rw [toInt32_eq_neg_one hlen]
    exact ⟨fun he hc => hc.2 he, fun hc => by_contra fun he => hc ⟨hend, he⟩⟩
  · rw [if_neg hend]
    exact ⟨fun _ hc => hend hc.1, fun _ => Eq.refl _⟩

theorem write_iff (hf : fs.Ok) (hw : Wf fs root own v) (fate : ℕ → Fate)
    (hfile : Handle fs own v file) (hlen : src.length < 2^32) :
    (FsOp.write file src).Atomic fs root v
        ((fat32WriteUnder fate fs v file src).vol, (fat32WriteUnder fate fs v file src).ret) ↔
      WriteHolds fate fs v file src := by
  obtain ⟨K, hK, haway, hKaway⟩ := handle_behind hf hw hfile
  have hv : ∀ c ∈ root, fs.IsData c ∧ v.fatGet c &&& 0x0FFFFFFF ≠ 0 :=
    fun c hc => ⟨hw.root_isData hc, hw.rootChain.used hf hc⟩
  -- what the loop does to the FAT and to the directory, and when it ends with all of the data
  obtain ⟨r, hr⟩ : ∃ r, r = writeLoopUnder fate fs src.length
      ⟨v, 0, src, file.currentCluster, file.offset⟩ := ⟨_, Eq.refl _⟩
  have hb : Behind fs ⟨v, 0, src, file.currentCluster, file.offset⟩ K := hK
  have hok : r.2 = true ↔ AllDone fate 0 (2 * turns fs file.offset src.length) ∧
      src.length ≤ room fs K file.offset + fs.clusterSize * (freeClusters fs v).card := by
    rw [hr]
    exact writeLoopUnder_ok hf hb le_rfl
  have hfat : r.1.vol.fat = v.fat ↔ ¬ (room fs K file.offset < src.length ∧
      AllDone fate 0 (2 * turns fs file.offset (room fs K file.offset)) ∧
      freeClusters fs v ≠ ∅) := by
    rw [hr]
    exact (writeLoopUnder_fat hf hb le_rfl).2
  have hlive : SameLive fs root v r.1.vol := by
    rw [hr]
    exact sameLive_of_read (writeLoopUnder_root hf hb le_rfl hv haway hKaway)
  have hvol : (fat32WriteUnder fate fs v file src).vol = r.1.vol := by
    rw [hr]
    exact fat32WriteUnder_vol
  have hret : (fat32WriteUnder fate fs v file src).ret = -1 ↔
      ¬ (r.2 = true ∧ src.length ≠ 2^32 - 1) := by
    rw [hr]
    exact fat32WriteUnder_ret hlen
  have hatomic : (FsOp.write file src).Atomic fs root v
      ((fat32WriteUnder fate fs v file src).vol, (fat32WriteUnder fate fs v file src).ret) ↔
      (¬ (r.2 = true ∧ src.length ≠ 2^32 - 1) → r.1.vol.fat = v.fat) := by
    rw [← hret, hvol]
    constructor
    · intro h he
      exact (h.failure he).1
    · intro h
      exact ⟨fun _ => trivial, fun he => ⟨h he, hlive⟩⟩
  rw [hatomic, hfat, hok]
  constructor
  · intro h K' hK'
    rw [hK'.unique hf hK]
    by_contra hnot
    obtain ⟨hroom, hnot⟩ := not_or.mp hnot
    obtain ⟨hdone, hnot⟩ := not_or.mp hnot
    obtain ⟨hfree, hrest⟩ := not_or.mp hnot
    apply h
    · exact fun hc => hrest ⟨hc.1.1, hc.1.2, hc.2⟩
    · exact ⟨Nat.lt_of_not_le hroom, not_not.mp hdone, hfree⟩
  · intro h hfail hgrow
    rcases h K hK with hroom | hdone | hfree | hall
    · exact absurd hgrow.1 (Nat.not_lt.mpr hroom)
    · exact hdone hgrow.2.1
    · exact hgrow.2.2 hfree
    · exact hfail ⟨⟨hall.1, hall.2.1⟩, hall.2.2⟩

end Operations

/-- On a well-formed volume a call is all or nothing exactly when the transfers that fail leave it
so, whatever becomes of each transfer. -/
theorem fat32_atomic_iff (fate : ℕ → Fate) (fs : Fs) (root : List ℕ) (own : Set ℕ) (v : Vol)
    (op : FsOp) (hf : fs.Ok) (hw : Wf fs root own v) (hop : op.Valid fs own v) :
    ∃ r, op.run fate fs v = some r ∧ (op.Atomic fs root v r ↔ op.Holds fate fs root v) := by
  cases op with
  | create filename now => exact create_iff hf hw fate filename now
  | write file src => exact ⟨_, Eq.refl _, write_iff hf hw fate hop.1 hop.2⟩
  | delete filename => exact delete_iff hf hw fate filename

/-! ### The small volume -/

/-- The second transfer, the write of the directory, is lost. -/
def secondLost (k : ℕ) : Fate := if k = 1 then .lost else .done

/-- A file `A` created, with nothing but the second transfer lost. -/
theorem fat32_atomic_iff_secondLost :
    ∃ r, (FsOp.create [65#8] ⟨0, 0⟩).run secondLost sampleFs sampleVol = some r ∧
      ((FsOp.create [65#8] ⟨0, 0⟩).Atomic sampleFs [2] sampleVol r ↔
        (FsOp.create [65#8] ⟨0, 0⟩).Holds secondLost sampleFs [2] sampleVol) :=
  fat32_atomic_iff secondLost sampleFs [2] ∅ sampleVol (.create [65#8] ⟨0, 0⟩) sample_ok sample_wf
    trivial

theorem sample_slot : walkRoot sampleFs sampleVol
    (fun buf => scanFree buf 0 sampleFs.entryCount) = some (some (2, 0)) := by
  decide +kernel

/-- The function returns 0 for a file whose entry never reached the disk. -/
theorem create_without_entry : ¬ ∀ fate fs root own v (op : FsOp), fs.Ok → Wf fs root own v →
    op.Valid fs own v → ∃ r, op.run fate fs v = some r ∧ op.Atomic fs root v r := by
  intro hall
  obtain ⟨r, hr, hatomic⟩ := hall secondLost sampleFs [2] ∅ sampleVol (.create [65#8] ⟨0, 0⟩)
    sample_ok sample_wf trivial
  obtain ⟨r', hr', hiff⟩ := create_iff sample_ok sample_wf secondLost [65#8] ⟨0, 0⟩
  have hrr : r = r' := Option.some.inj (hr.symm.trans hr')
  rw [hrr] at hatomic
  have hreach := (hiff.mp hatomic 2 0 sample_slot (by decide) (by decide +kernel)).1 0 (by decide)
  cases hreach with
  | inl h => exact h.2 (by decide)
  | inr h =>
    have hbyte := h 0 (by decide)
    rw [sample_dir _ (by decide)] at hbyte
    have hnew : putNew (readCluster sampleFs sampleVol 2) 0 (toShort [65#8])
        (findFreeCluster sampleFs sampleVol) ⟨0, 0⟩ (32*0) = shortHead [65#8] :=
      first_putNew (toShort_length [65#8])
    rw [show 0 * 512 + 0 = 32 * 0 from Eq.refl _, hnew] at hbyte
    revert hbyte
    decide

end SukiOS.Fat32
