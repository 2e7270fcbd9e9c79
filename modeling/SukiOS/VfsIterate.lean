import SukiOS.Fat32Slice
import SukiOS.VfsListing
import Mathlib.Data.List.ProdSigma
import Mathlib.Data.List.TakeWhile

/-! Repeated `vfs_readdir` goes through the entries of the directory once, in the order of the disk.
-/
namespace SukiOS.Fat32
open ByteMemory LinkedChain

/-- The first character of the name of an entry. -/
def nameStart (fs : Fs) (v : Vol) (e : Slot) : Byte := readCluster fs v e.1 (32*e.2)

/-- The entries of a directory in the order of its chain. -/
def dirSlots (fs : Fs) (root : List ℕ) : List Slot := root ×ˢ List.range fs.entryCount

/-- The entries before the first one that starts with 0 which are neither deleted nor part of a
long name. -/
def dirEntries (fs : Fs) (v : Vol) (root : List ℕ) : List Slot :=
  ((dirSlots fs root).takeWhile (fun e => nameStart fs v e ≠ 0#8)).filter
    (fun e => nameStart fs v e ≠ 0xE5#8 ∧ entAttr (readCluster fs v e.1) e.2 ≠ 0x0F)

section Slots
variable {fs : Fs} {v : Vol} {root L : List ℕ} {c i n : ℕ}

theorem dirSlots_cons (c : ℕ) (L : List ℕ) : dirSlots fs (c::L) =
    (List.range fs.entryCount).map (fun i => (c, i)) ++ dirSlots fs L := rfl

theorem dirSlots_nodup (h : root.Nodup) : (dirSlots fs root).Nodup :=
  h.product List.nodup_range

theorem dirEntries_nodup (h : root.Nodup) : (dirEntries fs v root).Nodup :=
  ((dirSlots_nodup h).sublist (List.takeWhile_sublist _)).filter _

/-- The scan of a cluster, as a filter of its entries. -/
theorem scanEntries_filter (fs : Fs) (v : Vol) (c n : ℕ) : ∀ i,
    (((List.range' i n).map (fun i => ((c, i) : Slot))).takeWhile
      (fun e => nameStart fs v e ≠ 0#8)).filter
      (fun e => nameStart fs v e ≠ 0xE5#8 ∧ entAttr (readCluster fs v e.1) e.2 ≠ 0x0F) =
    (scanEntries (readCluster fs v c) i n).1.map (fun i => (c, i)) ∧
    ((scanEntries (readCluster fs v c) i n).2 = false ↔
      ∀ e ∈ (List.range' i n).map (fun i => ((c, i) : Slot)), nameStart fs v e ≠ 0#8) := by
  induction n with
  | zero => exact fun i => ⟨rfl, ⟨fun _ e he => (nomatch he), fun _ => rfl⟩⟩
  | succ n ih =>
    intro i
    obtain ⟨hlist, hend⟩ := ih (i+1)
    rw [List.range'_succ, List.map_cons, scanEntries_succ]
    have hstart : nameStart fs v (c, i) = readCluster fs v c (32*i) := rfl
    by_cases h0 : readCluster fs v c (32*i) = 0#8
    · rw [if_pos h0, List.takeWhile_cons_of_neg (by simp [hstart, h0])]
      refine ⟨rfl, fun h => (nomatch h), fun h => ?_⟩
      exact absurd (hstart.trans h0) (h (c, i) List.mem_cons_self)
    rw [if_neg h0, List.takeWhile_cons_of_pos (by simp [hstart, h0])]
    have hall : (∀ e ∈ ((c, i) : Slot) :: (List.range' (i+1) n).map (fun i => (c, i)),
          nameStart fs v e ≠ 0#8) ↔
        ∀ e ∈ (List.range' (i+1) n).map (fun i => ((c, i) : Slot)), nameStart fs v e ≠ 0#8 := by
      rw [List.forall_mem_cons]
      exact and_iff_right h0
    rw [hall]
    by_cases hskip : readCluster fs v c (32*i) = 0xE5#8 ∨ entAttr (readCluster fs v c) i = 0x0F
    · rw [if_pos hskip, List.filter_cons_of_neg (by simp [hstart]; tauto)]
      exact ⟨hlist, hend⟩
    · obtain ⟨h5, hf⟩ := not_or.mp hskip
      rw [if_neg hskip, List.filter_cons_of_pos (by simp [hstart, h5, hf]), hlist]
      exact ⟨rfl, hend⟩

/-- What the loops of `fat32_vfs_readdir` report. -/
theorem listing_eq_dirEntries (L : List ℕ) : listing fs v L = dirEntries fs v L := by
  induction L with
  | nil => rfl
  | cons c L ih =>
    have hscan := scanEntries_filter fs v c fs.entryCount 0
    rw [← List.range_eq_range'] at hscan
    obtain ⟨hlist, hend⟩ := hscan
    unfold listing dirEntries
    dsimp only
    rw [dirSlots_cons, List.takeWhile_append, ← hlist]
    cases hfound : (scanEntries (readCluster fs v c) 0 fs.entryCount).2 with
    | false =>
      -- no entry of this cluster starts with 0
      have hwhole : ((List.range fs.entryCount).map (fun i => ((c, i) : Slot))).takeWhile
          (fun e => nameStart fs v e ≠ 0#8) =
          (List.range fs.entryCount).map (fun i => (c, i)) := by
        rw [List.takeWhile_eq_self_iff]
        intro e he
        exact decide_eq_true (hend.mp hfound e he)
      rw [hwhole, if_neg (by decide), if_pos rfl, List.filter_append, ih]
      rfl
    | true =>
      have hpart : ¬ (((List.range fs.entryCount).map (fun i => ((c, i) : Slot))).takeWhile
          (fun e => nameStart fs v e ≠ 0#8)).length =
          ((List.range fs.entryCount).map (fun i => ((c, i) : Slot))).length := by
        intro hlen
        have hwhole := (List.takeWhile_prefix (l := (List.range fs.entryCount).map
          (fun i => ((c, i) : Slot))) (fun e => decide (nameStart fs v e ≠ 0#8))).eq_of_length hlen
        rw [List.takeWhile_eq_self_iff] at hwhole
        have hno := hend.mpr (fun e he => of_decide_eq_true (hwhole e he))
        have hboth := hno.symm.trans hfound
        cases hboth
      rw [if_neg hpart, if_pos rfl, List.append_nil]

end Slots

/-! ### The calls one after the other -/

section Calls
variable {fs : Fs} {v : Vol} {root L : List ℕ} {it : DirIter}

theorem Clusters.length_le {c : ℕ} (h : Clusters fs v c L) : L.length ≤ fs.totalClusters + 2 := by
  have hsub : L ⊆ List.range (fs.totalClusters + 2) :=
    fun x hx => List.mem_range.mpr (Linked.ok_of_mem h hx).1.2
  have hlen := (List.subperm_of_subset h.nodup hsub).length_le
  rwa [List.length_range] at hlen

/-- Behind the chain all calls return 0. -/
theorem nthReaddir_past (n : ℕ) : ∀ it : DirIter, fatEof ≤ it.cluster →
    nthReaddir fs v n it = some none := by
  have hone : ∀ it : DirIter, fatEof ≤ it.cluster → vfsReaddir fs v it = some (it, none) := by
    intro it hend
    unfold vfsReaddir readdirFrom
    exact if_neg (fun h => Nat.not_le.mpr h.2 hend)
  induction n with
  | zero =>
    intro it hend
    unfold nthReaddir
    rw [hone it hend]
    rfl
  | succ n ih =>
    intro it hend
    unfold nthReaddir
    rw [hone it hend]
    exact ih it hend

/-- From inside the chain the calls report what remains, and 0 afterwards. -/
theorem nthReaddir_remaining (n : ℕ) : ∀ (it : DirIter) L,
    Clusters fs v it.cluster (it.cluster::L) → L.length < fs.totalClusters + 2 →
    it.entryOffset ≤ fs.entryCount →
    nthReaddir fs v n it = some (((remaining fs v it.cluster it.entryOffset L)[n]?).map
      (fun e => listedEntry (readCluster fs v e.1) e.2)) := by
  have hok : ∀ x, fs.InRange x → 2 ≤ x ∧ x < fatEof := fun x hx => ⟨hx.1.1, hx.2⟩
  induction n with
  | zero =>
    intro it L h hlen hi
    unfold nthReaddir vfsReaddir
    rcases readdirFrom_spec hok (fs.totalClusters + 2) it.cluster it.entryOffset L h hlen hi with
      ⟨hnil, it', hr, -⟩ | ⟨x, k, L', hr, -, -, -, hrem⟩
    · rw [hr, hnil]
      rfl
    · rw [hr, hrem]
      rfl
  | succ n ih =>
    intro it L h hlen hi
    unfold nthReaddir vfsReaddir
    rcases readdirFrom_spec hok (fs.totalClusters + 2) it.cluster it.entryOffset L h hlen hi with
      ⟨hnil, it', hr, hend⟩ | ⟨x, k, L', hr, hx, hk, hle, hrem⟩
    · rw [hr, hnil]
      exact nthReaddir_past n it' hend
    · rw [hr, hrem]
      exact ih ⟨x, k+1⟩ L' hx (Nat.lt_of_le_of_lt hle hlen) hk

theorem nthReaddir_root (h : Clusters fs v fs.rootCluster root) (n : ℕ) :
    nthReaddir fs v n (rootIter fs) = some (((dirEntries fs v root)[n]?).map
      (fun e => listedEntry (readCluster fs v e.1) e.2)) := by
  rw [← listing_eq_dirEntries]
  cases root with
  | nil => exact nthReaddir_past n (rootIter fs) h
  | cons c L =>
    have hc : fs.rootCluster = c := h.1
    have hlen := h.length_le
    have hrest := h.2
    rw [← hc] at hrest
    have hchain : Clusters fs v (rootIter fs).cluster ((rootIter fs).cluster::L) := ⟨rfl, hrest⟩
    rw [← remaining_zero, ← hc]
    exact nthReaddir_remaining n (rootIter fs) L hchain hlen (Nat.zero_le _)

end Calls

/-- The calls report each entry of the directory once, in the order of the disk, and then nothing.
-/
theorem readdir_complete {fs : Fs} {v : Vol} {root : List ℕ}
    (h : Clusters fs v fs.rootCluster root) :
    (dirEntries fs v root).Nodup ∧
    (∀ n (hn : n < (dirEntries fs v root).length), ∃ d : DirEntry,
      nthReaddir fs v n (rootIter fs) = some (some d) ∧
      d.inode = entCluster (readCluster fs v (dirEntries fs v root)[n].1)
        (dirEntries fs v root)[n].2 ∧
      d.type = if entAttr (readCluster fs v (dirEntries fs v root)[n].1)
          (dirEntries fs v root)[n].2 &&& 0x10 ≠ 0 then vfsFlagDir else vfsFlagFile) ∧
    ∀ n, (dirEntries fs v root).length ≤ n → nthReaddir fs v n (rootIter fs) = some none := by
  refine ⟨dirEntries_nodup h.nodup, fun n hn => ?_, fun n hn => ?_⟩
  · have hread := nthReaddir_root h n
    rw [List.getElem?_eq_getElem hn] at hread
    exact ⟨_, hread, rfl, rfl⟩
  · rw [nthReaddir_root h n, List.getElem?_eq_none hn]
    rfl

/-- A file, a deleted entry, a part of a long name, and a directory. -/
theorem readdir_complete_mixed : let v := mixedVol 0x10#8
    dirEntries sampleFs v [2] = [(2, 0), (2, 3)] ∧ (dirEntries sampleFs v [2]).Nodup ∧
    (∃ d, nthReaddir sampleFs v 0 (rootIter sampleFs) = some (some d) ∧ d.inode = 3 ∧
      d.type = vfsFlagFile) ∧
    (∃ d, nthReaddir sampleFs v 1 (rootIter sampleFs) = some (some d) ∧ d.inode = 6 ∧
      d.type = vfsFlagDir) ∧
    ∀ n, 2 ≤ n → nthReaddir sampleFs v n (rootIter sampleFs) = some none := by
  intro v
  have hroot : Clusters sampleFs v 2 [2] :=
    ⟨rfl, by unfold Fs.InRange; decide, by show fatEof ≤ fatNextCluster sampleFs v 2; decide +kernel⟩
  have hentries : dirEntries sampleFs v [2] = [(2, 0), (2, 3)] := by decide +kernel
  obtain ⟨hnd, hall, hend⟩ := readdir_complete hroot
  simp only [hentries] at hall hend
  obtain ⟨d, hd, hinode, htype⟩ := hall 0 (by decide)
  obtain ⟨d', hd', hinode', htype'⟩ := hall 1 (by decide)
  have hfirst : entCluster (readCluster sampleFs v 2) 0 = 3 ∧
      entAttr (readCluster sampleFs v 2) 0 &&& 0x10 = 0 := by decide +kernel
  have hlast : entCluster (readCluster sampleFs v 2) 3 = 6 ∧
      entAttr (readCluster sampleFs v 2) 3 &&& 0x10 ≠ 0 := by decide +kernel
  exact ⟨hentries, hnd, ⟨d, hd, hinode.trans hfirst.1, htype.trans (if_neg (not_not.mpr hfirst.2))⟩,
    ⟨d', hd', hinode'.trans hlast.1, htype'.trans (if_pos hlast.2)⟩, hend⟩

end SukiOS.Fat32
