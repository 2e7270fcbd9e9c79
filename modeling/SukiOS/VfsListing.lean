import SukiOS.VfsPath

/-! What repeated `vfs_readdir` reports, against what `fat32_open` finds. -/
namespace SukiOS.Fat32
open ByteMemory LinkedChain

/-! ### The entries that are reported -/

/-- The entries of a cluster from `i` on that are reported, and whether an end mark was found. -/
def scanEntries (buf : Mem) (i : ℕ) : ℕ → List ℕ × Bool
  | 0 => ([], false)
  | n+1 =>
    if buf (32*i) = 0#8 then ([], true)
    else if buf (32*i) = 0xE5#8 ∨ entAttr buf i = 0x0F then scanEntries buf (i+1) n
    else (i :: (scanEntries buf (i+1) n).1, (scanEntries buf (i+1) n).2)

/-- The entries of the clusters of a chain that are reported: up to the first end mark. -/
def listing (fs : Fs) (v : Vol) : List ℕ → List Slot
  | [] => []
  | c::L =>
    let r := scanEntries (readCluster fs v c) 0 fs.entryCount
    r.1.map (fun i => (c, i)) ++ if r.2 then [] else listing fs v L

/-- What is still to be reported from entry `i` of the cluster `c` on, before the clusters `L`. -/
def remaining (fs : Fs) (v : Vol) (c i : ℕ) (L : List ℕ) : List Slot :=
  let r := scanEntries (readCluster fs v c) i (fs.entryCount - i)
  r.1.map (fun i => (c, i)) ++ if r.2 then [] else listing fs v L

section Scan
variable {buf : Mem} {i k n : ℕ}

theorem scanEntries_succ (buf : Mem) (i n : ℕ) : scanEntries buf i (n+1) =
    if buf (32*i) = 0#8 then ([], true)
    else if buf (32*i) = 0xE5#8 ∨ entAttr buf i = 0x0F then scanEntries buf (i+1) n
    else (i :: (scanEntries buf (i+1) n).1, (scanEntries buf (i+1) n).2) := rfl

/-- The scan of one call against the entries that are reported. -/
theorem readdirScan_cases (buf : Mem) (n : ℕ) : ∀ i,
    (readdirScan buf i n = .endMark ∧ scanEntries buf i n = ([], true)) ∨
    (readdirScan buf i n = .exhausted ∧ scanEntries buf i n = ([], false)) ∨
    (∃ k, readdirScan buf i n = .entry k ∧ i ≤ k ∧ k < i + n ∧
      scanEntries buf i n = (k :: (scanEntries buf (k+1) (i + n - (k+1))).1,
        (scanEntries buf (k+1) (i + n - (k+1))).2)) := by
  induction n with
  | zero => exact fun i => Or.inr (Or.inl ⟨rfl, rfl⟩)
  | succ n ih =>
    intro i
    unfold readdirScan
    rw [scanEntries_succ buf i n]
    by_cases h0 : buf (32*i) = 0#8
    · rw [if_pos h0, if_pos h0]
      exact Or.inl ⟨rfl, rfl⟩
    rw [if_neg h0, if_neg h0]
    by_cases hskip : buf (32*i) = 0xE5#8 ∨ entAttr buf i = 0x0F
    · -- both loops go on with the next entry
      rw [if_pos hskip]
      have hnext : (if buf (32*i) = 0xE5#8 then readdirScan buf (i+1) n
          else if entAttr buf i = 0x0F then readdirScan buf (i+1) n else .entry i) =
          readdirScan buf (i+1) n := by
        by_cases h5 : buf (32*i) = 0xE5#8
        · rw [if_pos h5]
        · rw [if_neg h5, if_pos (hskip.resolve_left h5)]
      rw [hnext, show i + (n+1) = i + 1 + n by omega]
      rcases ih (i+1) with h | h | ⟨k, h1, h2, h3, h4⟩
      · exact Or.inl h
      · exact Or.inr (Or.inl h)
      · exact Or.inr (Or.inr ⟨k, h1, by omega, h3, h4⟩)
    · rw [if_neg hskip]
      obtain ⟨h5, hf⟩ := not_or.mp hskip
      rw [if_neg h5, if_neg hf]
      refine Or.inr (Or.inr ⟨i, rfl, le_rfl, by omega, ?_⟩)
      rw [show i + (n+1) - (i+1) = n by omega]

theorem mem_scanEntries (buf : Mem) (n : ℕ) : ∀ i,
    k ∈ (scanEntries buf i n).1 ↔ i ≤ k ∧ k < i + n ∧ LiveFrom buf i k := by
  induction n with
  | zero =>
    intro i
    exact ⟨(fun h => nomatch h), fun ⟨h1, h2, _⟩ => by omega⟩
  | succ n ih =>
    intro i
    unfold scanEntries
    by_cases h0 : buf (32*i) = 0#8
    · rw [if_pos h0]
      exact ⟨(fun h => nomatch h), fun ⟨h1, _, hl⟩ => absurd h0 (hl.1 i le_rfl h1)⟩
    rw [if_neg h0]
    by_cases hskip : buf (32*i) = 0xE5#8 ∨ entAttr buf i = 0x0F
    · rw [if_pos hskip, ih (i+1)]
      refine ⟨fun ⟨h1, h2, hl⟩ => ⟨by omega, by omega, (LiveFrom.succ_iff h0).mpr hl⟩,
        fun ⟨h1, h2, hl⟩ => ⟨?_, by omega, (LiveFrom.succ_iff h0).mp hl⟩⟩
      have hki : k ≠ i := by
        rintro rfl
        exact hskip.elim hl.2.1 hl.2.2
      omega
    · rw [if_neg hskip]
      obtain ⟨h5, hf⟩ := not_or.mp hskip
      rw [List.mem_cons, ih (i+1)]
      constructor
      · rintro (rfl | ⟨h1, h2, hl⟩)
        · refine ⟨le_rfl, by omega, fun j h1 h2 => ?_, h5, hf⟩
          obtain rfl : j = k := by omega
          exact h0
        · exact ⟨by omega, by omega, (LiveFrom.succ_iff h0).mpr hl⟩
      · rintro ⟨h1, h2, hl⟩
        by_cases hki : k = i
        · exact Or.inl hki
        · exact Or.inr ⟨by omega, by omega, (LiveFrom.succ_iff h0).mp hl⟩

theorem scanEntries_end (buf : Mem) (n : ℕ) : ∀ i,
    (scanEntries buf i n).2 = true ↔ ∃ j, i ≤ j ∧ j < i + n ∧ buf (32*j) = 0#8 := by
  induction n with
  | zero =>
    intro i
    exact ⟨(fun h => nomatch h), fun ⟨j, h1, h2, _⟩ => by omega⟩
  | succ n ih =>
    intro i
    unfold scanEntries
    by_cases h0 : buf (32*i) = 0#8
    · rw [if_pos h0]
      exact ⟨fun _ => ⟨i, le_rfl, by omega, h0⟩, fun _ => rfl⟩
    rw [if_neg h0]
    have hstep : (∃ j, i ≤ j ∧ j < i + (n+1) ∧ buf (32*j) = 0#8) ↔
        ∃ j, i + 1 ≤ j ∧ j < i + 1 + n ∧ buf (32*j) = 0#8 := by
      refine ⟨fun ⟨j, h1, h2, h3⟩ => ⟨j, ?_, by omega, h3⟩,
        fun ⟨j, h1, h2, h3⟩ => ⟨j, by omega, by omega, h3⟩⟩
      have hji : j ≠ i := by
        rintro rfl
        exact h0 h3
      omega
    rw [hstep, ← ih (i+1)]
    split <;> rfl

end Scan

section Listing
variable {fs : Fs} {v : Vol} {root L : List ℕ} {c i n : ℕ} {e : Slot} {it : DirIter}

/-- A cluster with an end mark. -/
def HasEnd (fs : Fs) (v : Vol) (c : ℕ) : Prop :=
  ∃ j, j < fs.entryCount ∧ readCluster fs v c (32*j) = 0#8

/-- The listing has the live entries that no cluster with an end mark comes before. -/
theorem mem_listing (L : List ℕ) : e ∈ listing fs v L ↔
    LiveAt fs v e.1 e.2 ∧ ∃ A B, L = A ++ e.1::B ∧ ∀ x ∈ A, ¬ HasEnd fs v x := by
  induction L with
  | nil =>
    refine ⟨(fun h => nomatch h), ?_⟩
    rintro ⟨-, A, B, h, -⟩
    exact absurd h.symm (List.append_ne_nil_of_right_ne_nil A (List.cons_ne_nil e.1 B))
  | cons c L ih =>
    unfold listing
    dsimp only
    have hend : (scanEntries (readCluster fs v c) 0 fs.entryCount).2 = true ↔ HasEnd fs v c := by
      rw [scanEntries_end]
      exact ⟨fun ⟨j, _, h2, h3⟩ => ⟨j, by omega, h3⟩,
        fun ⟨j, h2, h3⟩ => ⟨j, by omega, by omega, h3⟩⟩
    have hhere : e ∈ (scanEntries (readCluster fs v c) 0 fs.entryCount).1.map (fun i => (c, i)) ↔
        e.1 = c ∧ LiveAt fs v c e.2 := by
      rw [List.mem_map]
      constructor
      · rintro ⟨k, hk, rfl⟩
        obtain ⟨-, h2, hl⟩ := (mem_scanEntries _ _ 0).mp hk
        exact ⟨rfl, by dsimp only; omega, hl⟩
      · rintro ⟨h1, h2, hl⟩
        exact ⟨e.2, (mem_scanEntries _ _ 0).mpr ⟨Nat.zero_le _, by omega, hl⟩, by rw [← h1]⟩
    rw [List.mem_append, hhere]
    constructor
    · rintro (⟨h1, hl⟩ | hr)
      · exact ⟨h1 ▸ hl, [], L, by rw [h1]; rfl, fun x hx => nomatch hx⟩
      · -- an entry further on is listed only when no end mark comes before it
        by_cases he : (scanEntries (readCluster fs v c) 0 fs.entryCount).2 = true
        · rw [if_pos he] at hr
          exact nomatch hr
        · rw [if_neg he, ih] at hr
          obtain ⟨hl, A, B, rfl, hA⟩ := hr
          refine ⟨hl, c::A, B, rfl, fun x hx => ?_⟩
          rcases List.mem_cons.mp hx with rfl | hx
          · exact fun h => he (hend.mpr h)
          · exact hA x hx
    · rintro ⟨hl, A, B, hL, hA⟩
      cases A with
      | nil =>
        obtain ⟨rfl, -⟩ := List.cons.inj hL
        exact Or.inl ⟨rfl, hl⟩
      | cons a A =>
        obtain ⟨rfl, rfl⟩ := List.cons.inj hL
        have hne : ¬ (scanEntries (readCluster fs v c) 0 fs.entryCount).2 = true :=
          fun h => hA c List.mem_cons_self (hend.mp h)
        rw [if_neg hne]
        exact Or.inr (ih.mpr ⟨hl, A, B, rfl, fun x hx => hA x (List.mem_cons_of_mem c hx)⟩)

/-- One call reports the next of the remaining entries. -/
theorem readdirFrom_spec {ok : ℕ → Prop} (hok : ∀ x, ok x → 2 ≤ x ∧ x < fatEof) : ∀ n c i L,
    Linked (fatNextCluster fs v) (fun x => fatEof ≤ x) ok c (c::L) → L.length < n →
    i ≤ fs.entryCount →
    (remaining fs v c i L = [] ∧
      ∃ it', readdirFrom fs v n ⟨c, i⟩ = some (it', none) ∧ fatEof ≤ it'.cluster) ∨
    (∃ x k L', readdirFrom fs v n ⟨c, i⟩ =
        some (⟨x, k+1⟩, some (listedEntry (readCluster fs v x) k)) ∧
      Linked (fatNextCluster fs v) (fun x => fatEof ≤ x) ok x (x::L') ∧ k < fs.entryCount ∧
        L'.length ≤ L.length ∧
      remaining fs v c i L = (x, k) :: remaining fs v x (k+1) L') := by
  intro n
  induction n with
  | zero => exact fun c i L _ hn => absurd hn (Nat.not_lt_zero _)
  | succ n ih =>
    intro c i L h hn hi
    have hc := hok c h.2.1
    have hrest := h.2.2
    unfold readdirFrom remaining
    rw [if_pos hc]
    dsimp only
    rcases readdirScan_cases (readCluster fs v c) (fs.entryCount - i) i with
      ⟨hs, he⟩ | ⟨hs, he⟩ | ⟨k, hs, h1, h2, he⟩
    · rw [hs, he]
      exact Or.inl ⟨rfl, _, rfl, le_rfl⟩
    · rw [hs, he]
      dsimp only
      cases L with
      | nil =>
        have hend : fatEof ≤ fatNextCluster fs v c := hrest
        rw [if_pos hend]
        exact Or.inl ⟨rfl, _, rfl, le_rfl⟩
      | cons y L =>
        -- the call goes on at the beginning of the next cluster
        have hy : fatNextCluster fs v c = y := hrest.1
        rw [hy] at hrest ⊢
        rw [if_neg (Nat.not_le.mpr (hok y hrest.2.1).2)]
        have hlist : (([] : List ℕ).map (fun i => (c, i)) ++ if false = true then []
            else listing fs v (y::L)) = remaining fs v y 0 L := rfl
        rw [hlist]
        rcases ih y 0 L hrest (Nat.lt_of_succ_lt_succ hn) (Nat.zero_le _) with
          hdone | ⟨x, k, L', hr, hx, hk, hlen, hrem⟩
        · exact Or.inl hdone
        · exact Or.inr ⟨x, k, L', hr, hx, hk, Nat.le_succ_of_le hlen, hrem⟩
    · rw [hs, he]
      refine Or.inr ⟨c, k, L, rfl, h, by omega, le_rfl, ?_⟩
      rw [show i + (fs.entryCount - i) - (k+1) = fs.entryCount - (k+1) by omega]
      rfl

/-- The iterators that repeated calls of `vfs_readdir` go through. -/
inductive IterReached (fs : Fs) (v : Vol) : DirIter → Prop
  | init : IterReached fs v (rootIter fs)
  | next {it it' d} (h : IterReached fs v it) (hr : vfsReaddir fs v it = some (it', d)) :
      IterReached fs v it'

/-- Some call of `vfs_readdir` reports `d` for the entry `e`, and then stands behind it. -/
def Reports (fs : Fs) (v : Vol) (e : Slot) (d : DirEntry) : Prop :=
  ∃ it, IterReached fs v it ∧
    vfsReaddir fs v it = some ({ cluster := e.1, entryOffset := e.2 + 1 }, some d)

/-- The iterator has the entries of `rest` before it. -/
def Stands (fs : Fs) (v : Vol) (it : DirIter) (rest : List Slot) : Prop :=
  fatEof ≤ it.cluster ∧ rest = [] ∨
  ∃ L, FatChain fs v it.cluster (it.cluster::L) ∧ it.entryOffset ≤ fs.entryCount ∧
    L.length < fs.totalClusters + 2 ∧ rest = remaining fs v it.cluster it.entryOffset L

theorem Stands.step (hf : fs.Ok) {rest : List Slot} (h : Stands fs v it rest) :
    (rest = [] ∧ ∃ it', vfsReaddir fs v it = some (it', none) ∧ Stands fs v it' []) ∨
    (∃ e rest', rest = e::rest' ∧ vfsReaddir fs v it =
        some (⟨e.1, e.2 + 1⟩, some (listedEntry (readCluster fs v e.1) e.2)) ∧
      Stands fs v ⟨e.1, e.2 + 1⟩ rest') := by
  rcases h with ⟨hend, rfl⟩ | ⟨L, hL, hi, hlen, rfl⟩
  · refine Or.inl ⟨rfl, it, ?_, Or.inl ⟨hend, rfl⟩⟩
    unfold vfsReaddir readdirFrom
    rw [if_neg (fun h => Nat.not_le.mpr h.2 hend)]
  · have hok : ∀ x, fs.IsData x → 2 ≤ x ∧ x < fatEof := fun x hx => ⟨hx.1, hf.data_lt_eof hx⟩
    rcases readdirFrom_spec hok (fs.totalClusters + 2) it.cluster it.entryOffset L hL hlen hi with
      ⟨hnil, it', hr, hend⟩ | ⟨x, k, L', hr, hx, hk, hle, hrem⟩
    · exact Or.inl ⟨hnil, it', hr, Or.inl ⟨hend, rfl⟩⟩
    · refine Or.inr ⟨(x, k), _, hrem, hr, Or.inr ⟨L', hx, hk, by omega, rfl⟩⟩

theorem remaining_zero (fs : Fs) (v : Vol) (c : ℕ) (L : List ℕ) :
    remaining fs v c 0 L = listing fs v (c::L) := rfl

theorem rootIter_stands (hf : fs.Ok) (h : FatChain fs v fs.rootCluster root) :
    Stands fs v (rootIter fs) (listing fs v root) := by
  have hlen := h.length_le hf
  cases root with
  | nil => exact Or.inl ⟨h, rfl⟩
  | cons c L =>
    obtain ⟨hc, h2⟩ := h
    refine Or.inr ⟨L, ?_, Nat.zero_le _, hlen, ?_⟩
    · rw [← hc] at h2
      exact ⟨rfl, h2⟩
    · rw [← remaining_zero, ← hc]
      rfl

/-- The iterators reached stand before a rest of the listing. -/
theorem IterReached.stands (hf : fs.Ok) (h : FatChain fs v fs.rootCluster root)
    (hr : IterReached fs v it) : ∃ done rest, listing fs v root = done ++ rest ∧
      Stands fs v it rest := by
  induction hr with
  | init => exact ⟨[], _, rfl, rootIter_stands hf h⟩
  | next _ hstep ih =>
    obtain ⟨done, rest, hsplit, hst⟩ := ih
    rcases hst.step hf with ⟨rfl, it1, h1, h2⟩ | ⟨e, rest', rfl, h1, h2⟩
    · obtain ⟨rfl, -⟩ := Prod.mk.inj (Option.some.inj (h1.symm.trans hstep))
      exact ⟨done, [], hsplit, h2⟩
    · obtain ⟨rfl, -⟩ := Prod.mk.inj (Option.some.inj (h1.symm.trans hstep))
      exact ⟨done ++ [e], rest', by rw [hsplit]; simp, h2⟩

/-- From an iterator that stands before `rest` all of `rest` is reported. -/
theorem reports_of_mem (hf : fs.Ok) (rest : List Slot) : ∀ it, IterReached fs v it →
    Stands fs v it rest → e ∈ rest →
    Reports fs v e (listedEntry (readCluster fs v e.1) e.2) := by
  induction rest with
  | nil => exact fun it _ _ he => nomatch he
  | cons x rest ih =>
    intro it hr hst he
    rcases hst.step hf with ⟨hnil, -⟩ | ⟨y, rest', heq, h1, h2⟩
    · exact nomatch hnil
    · obtain ⟨rfl, rfl⟩ := List.cons.inj heq
      rcases List.mem_cons.mp he with rfl | he
      · exact ⟨it, hr, h1⟩
      · exact ih _ (.next hr h1) h2 he

/-- Repeated `vfs_readdir` reports the listing. -/
theorem reports_iff (hf : fs.Ok) (h : FatChain fs v fs.rootCluster root) {d : DirEntry} :
    Reports fs v e d ↔ e ∈ listing fs v root ∧ d = listedEntry (readCluster fs v e.1) e.2 := by
  constructor
  · rintro ⟨it, hr, hread⟩
    obtain ⟨done, rest, hsplit, hst⟩ := hr.stands hf h
    rcases hst.step hf with ⟨-, it', h1, -⟩ | ⟨y, rest', rfl, h1, -⟩
    · exact nomatch (Prod.mk.inj (Option.some.inj (h1.symm.trans hread))).2
    · obtain ⟨hit, hd⟩ := Prod.mk.inj (Option.some.inj (h1.symm.trans hread))
      obtain ⟨hc, hi⟩ := DirIter.mk.inj hit
      obtain rfl : y = e := Prod.ext hc (Nat.succ.inj hi)
      rw [hsplit]
      exact ⟨by simp, (Option.some.inj hd).symm⟩
  · rintro ⟨he, rfl⟩
    exact reports_of_mem hf _ _ .init (rootIter_stands hf h) he

end Listing

/-! ### Listing and opening -/

/-- The entry that `fat32_open` finds under a name. -/
def FindsEntry (fs : Fs) (v : Vol) (name : List Byte) (e : Slot) : Prop :=
  findEntry fs v (nameMatches (toShort name)) = some (some e)

/-- The path resolves to the file of the entry `e`. -/
def OpensEntry (fs : Fs) (v : Vol) (path : List Byte) (e : Slot) : Prop :=
  resolvePath fs v path = some (some (.file (nodeOf (fileAt fs v e)))) ∧
    ∃ p tok, path = slash::p ∧ component p = some tok ∧ FindsEntry fs v tok e

/-- What is listed can be opened, as the file it is listed as, and what can be opened is listed. -/
def ListingAgrees (fs : Fs) (v : Vol) : Prop :=
  (∀ e d, Reports fs v e d → OpensEntry fs v (slash :: d.name) e ∧ d.inode = startOf fs v e ∧
    d.type = vfsFlagFile) ∧
  ∀ name e, IsCString name → FindsEntry fs v name e → ∃ d, Reports fs v e d

/-- No cluster with an end mark comes before the cluster of the entry. -/
def InFront (fs : Fs) (root : List ℕ) (v : Vol) (e : Slot) : Prop :=
  ∃ A B, root = A ++ e.1::B ∧ ∀ x ∈ A, ¬ HasEnd fs v x

/-- No live entry before `e` has its name. -/
def FirstOfName (fs : Fs) (root : List ℕ) (v : Vol) (e : Slot) : Prop :=
  ∀ e' : Slot, e'.1 ∈ root → LiveAt fs v e'.1 e'.2 → Before root e' e →
    foldedName fs v e' ≠ foldedName fs v e

/-- The live entries in front of all end marks are files whose names are read back as they were
written, and no live entry that can be found lies behind an end mark. -/
def NamesReadBack (fs : Fs) (root : List ℕ) (v : Vol) : Prop :=
  (∀ e : Slot, e.1 ∈ root → LiveAt fs v e.1 e.2 → InFront fs root v e →
    entAttr (readCluster fs v e.1) e.2 &&& 0x10 = 0 ∧ FirstOfName fs root v e ∧
    ∃ tok, component (listedName (readCluster fs v e.1) e.2) = some tok ∧
      toShort tok = foldedName fs v e) ∧
  ∀ (e : Slot) (name : List Byte), e.1 ∈ root → LiveAt fs v e.1 e.2 → IsCString name →
    toShort name = foldedName fs v e → FirstOfName fs root v e → InFront fs root v e

section Agree
variable {fs : Fs} {v : Vol} {root : List ℕ} {e : Slot} {name p : List Byte}

theorem findsEntry_iff (hf : fs.Ok) (h : FatChain fs v fs.rootCluster root) :
    FindsEntry fs v name e ↔ (e.1 ∈ root ∧ LiveAt fs v e.1 e.2) ∧
      toShort name = foldedName fs v e ∧ FirstOfName fs root v e := by
  unfold FindsEntry
  rw [findEntry_iff hf h, nameMatches_iff]
  refine and_congr_right (fun _ => ⟨fun ⟨heq, hall⟩ => ⟨heq.symm, fun e' hc hl hb hsame => ?_⟩,
    fun ⟨heq, hall⟩ => ⟨heq.symm, fun e' hc hl hb => ?_⟩⟩)
  · have hyes : nameMatches (toShort name) (readCluster fs v e'.1) e'.2 = true :=
      (nameMatches_iff e').mpr (hsame.trans heq)
    exact nomatch (hall e' hc hl hb).symm.trans hyes
  · apply Bool.eq_false_iff.mpr
    intro hyes
    exact hall e' hc hl hb (((nameMatches_iff e').mp hyes).trans heq)

theorem opensEntry_iff : OpensEntry fs v (slash::p) e ↔
    ∃ tok, component p = some tok ∧ FindsEntry fs v tok e := by
  constructor
  · rintro ⟨-, p', tok, hp, htok, hfind⟩
    obtain ⟨-, rfl⟩ := List.cons.inj hp
    exact ⟨tok, htok, hfind⟩
  · rintro ⟨tok, htok, hfind⟩
    exact ⟨resolvePath_file.mpr ⟨p, tok, fileAt fs v e, rfl, htok, fat32Open_eq hfind, rfl⟩,
      p, tok, rfl, htok, hfind⟩

theorem reports_live (hf : fs.Ok) (h : FatChain fs v fs.rootCluster root) {d : DirEntry} :
    Reports fs v e d ↔ (e.1 ∈ root ∧ LiveAt fs v e.1 e.2 ∧ InFront fs root v e) ∧
      d = listedEntry (readCluster fs v e.1) e.2 := by
  rw [reports_iff hf h, mem_listing]
  refine and_congr_left (fun _ => ⟨fun ⟨hl, hfront⟩ => ⟨?_, hl, hfront⟩,
    fun ⟨_, hl, hfront⟩ => ⟨hl, hfront⟩⟩)
  obtain ⟨A, B, hr, -⟩ := hfront
  rw [hr]
  simp

theorem listedEntry_file (buf : Mem) (i : ℕ) :
    (listedEntry buf i).type = vfsFlagFile ↔ entAttr buf i &&& 0x10 = 0 := by
  unfold listedEntry
  dsimp only
  by_cases h : entAttr buf i &&& 0x10 = 0
  · rw [if_neg (not_not.mpr h)]
    exact ⟨fun _ => h, fun _ => rfl⟩
  · rw [if_pos h]
    exact ⟨fun he => absurd he (by decide), fun he => absurd he h⟩

/-- Listing and opening agree exactly on the directories whose names are read back. -/
theorem listing_agrees_iff (hf : fs.Ok) (h : FatChain fs v fs.rootCluster root) :
    ListingAgrees fs v ↔ NamesReadBack fs root v := by
  refine and_congr ⟨fun hall e hc hl hfront => ?_, fun hall e d hrep => ?_⟩
    ⟨fun hall e name hc hl hstr heq hfirst => ?_, fun hall name e hstr hfind => ?_⟩
  · obtain ⟨hopen, -, htype⟩ := hall e _ ((reports_live hf h).mpr ⟨⟨hc, hl, hfront⟩, rfl⟩)
    obtain ⟨tok, htok, hfind⟩ := opensEntry_iff.mp hopen
    obtain ⟨-, heq, hfirst⟩ := (findsEntry_iff hf h).mp hfind
    exact ⟨(listedEntry_file _ _).mp htype, hfirst, tok, htok, heq⟩
  · obtain ⟨⟨hc, hl, hfront⟩, rfl⟩ := (reports_live hf h).mp hrep
    obtain ⟨hfile, hfirst, tok, htok, heq⟩ := hall e hc hl hfront
    refine ⟨opensEntry_iff.mpr ⟨tok, htok, (findsEntry_iff hf h).mpr ⟨⟨hc, hl⟩, heq, hfirst⟩⟩, rfl,
      ?_⟩
    exact (listedEntry_file _ _).mpr hfile
  · have hfind : FindsEntry fs v name e := (findsEntry_iff hf h).mpr ⟨⟨hc, hl⟩, heq, hfirst⟩
    obtain ⟨d, hd⟩ := hall name e hstr hfind
    exact ((reports_live hf h).mp hd).1.2.2
  · obtain ⟨⟨hc, hl⟩, heq, hfirst⟩ := (findsEntry_iff hf h).mp hfind
    exact ⟨_, (reports_live hf h).mpr ⟨⟨hc, hl, hall e name hc hl hstr heq hfirst⟩, rfl⟩⟩

end Agree

/-- The two files of a directory with a deleted entry and a part of a long name between them are
listed, and are opened under the names that are listed. -/
theorem listing_agrees_mixed : Reports sampleFs (mixedVol 0#8) (2, 0) ⟨[65#8], 3, vfsFlagFile⟩ ∧
    Reports sampleFs (mixedVol 0#8) (2, 3) ⟨[67#8], 6, vfsFlagFile⟩ ∧
    ListingAgrees sampleFs (mixedVol 0#8) := by
  have hlist : listing sampleFs (mixedVol 0#8) [2] = [(2, 0), (2, 3)] := by decide +kernel
  have hfront (e : Slot) (hc : e.1 ∈ [2]) : InFront sampleFs [2] (mixedVol 0#8) e :=
    ⟨[], [], by rw [List.mem_singleton.mp hc]; rfl, fun x hx => nomatch hx⟩
  have hlive (e : Slot) (hc : e.1 ∈ [2]) (hl : LiveAt sampleFs (mixedVol 0#8) e.1 e.2) :
      e = (2, 0) ∨ e = (2, 3) := by
    have hmem : e ∈ listing sampleFs (mixedVol 0#8) [2] := (mem_listing [2]).mpr ⟨hl, hfront e hc⟩
    rw [hlist] at hmem
    simpa using hmem
  have hdiff : foldedName sampleFs (mixedVol 0#8) (2, 0) ≠
      foldedName sampleFs (mixedVol 0#8) (2, 3) := by decide +kernel
  refine ⟨(reports_iff sample_ok (mixed_root 0#8)).mpr ⟨by rw [hlist]; decide, by decide +kernel⟩,
    (reports_iff sample_ok (mixed_root 0#8)).mpr ⟨by rw [hlist]; decide, by decide +kernel⟩,
    (listing_agrees_iff sample_ok (mixed_root 0#8)).mpr ⟨fun e hc hl _ => ?_,
      fun e _ hc _ _ _ _ => hfront e hc⟩⟩
  rcases hlive e hc hl with rfl | rfl
  · refine ⟨by decide +kernel, fun e' hc' hl' hb => ?_, [65#8], by decide +kernel,
      by decide +kernel⟩
    rcases hlive e' hc' hl' with rfl | rfl
    · exact absurd hb (by decide)
    · exact hdiff.symm
  · refine ⟨by decide +kernel, fun e' hc' hl' hb => ?_, [67#8], by decide +kernel,
      by decide +kernel⟩
    rcases hlive e' hc' hl' with rfl | rfl
    · exact hdiff
    · exact absurd hb (by decide)

/-- A file created as `FOO.TXT` is listed as `FOO`, which is the name of no file. -/
theorem extension_not_listed :
    let foo : List Byte := [70#8, 79#8, 79#8]
    let v := nameAfter sampleFs sampleVol (.create (foo ++ [dot, 84#8, 88#8, 84#8]) ⟨0, 0⟩)
    sampleFs.Mounted ∧ NamesDistinct sampleFs [2] v ∧
      Reports sampleFs v (2, 0) { name := foo, inode := 3, type := vfsFlagFile } ∧
      (fat32Open sampleFs v foo).map Option.isSome = some false ∧ ¬ ListingAgrees sampleFs v := by
  intro foo v
  have hmake : nameApply sampleFs sampleVol (.create (foo ++ [dot, 84#8, 88#8, 84#8]) ⟨0, 0⟩) =
      some (v, true) := nameApply_after (by decide +kernel)
  have hread : (vfsReaddir sampleFs v (rootIter sampleFs)) =
      some (⟨2, 1⟩, some { name := foo, inode := 3, type := vfsFlagFile }) := by decide +kernel
  have hrep : Reports sampleFs v (2, 0) { name := foo, inode := 3, type := vfsFlagFile } :=
    ⟨rootIter sampleFs, .init, hread⟩
  have hopen : (fat32Open sampleFs v foo).map Option.isSome = some false := by decide +kernel
  have hused : ∀ i, i < sampleFs.entryCount → Used sampleFs v [2] (2, i) → i = 0 := by
    decide +kernel
  refine ⟨sample_mounted, fun e e' he he' _ => ?_, hrep, hopen, fun h => ?_⟩
  · have hc := List.mem_singleton.mp he.1
    have hc' := List.mem_singleton.mp he'.1
    have hslot : e = (2, e.2) := Prod.ext hc rfl
    have hslot' : e' = (2, e'.2) := Prod.ext hc' rfl
    rw [hslot] at he
    rw [hslot'] at he'
    have hi := hused e.2 he.2.1 he
    have hi' := hused e'.2 he'.2.1 he'
    exact Prod.ext (hc.trans hc'.symm) (hi.trans hi'.symm)
  · obtain ⟨tok, htok, hfind⟩ := opensEntry_iff.mp (h.1 _ _ hrep).1
    obtain rfl : foo = tok := Option.some.inj htok
    rw [fat32Open_eq hfind] at hopen
    exact nomatch hopen

end SukiOS.Fat32
