import SukiOS.Fat32Disk
import SukiOS.Lib.Clearing

/-! `fat32_free_cluster_chain` on any table, with chains that loop or run into each other: the loop
ends, and it clears the entries of the clusters that the start cluster leads to. -/
namespace SukiOS.Fat32
open ByteMemory ClearingWalk

/-- The loop on a table of `entries` entries: `none` when the fuel ends first, or when a cluster is
outside the table. -/
def freeChainIn (entries : ℕ) : ℕ → Vol → ℕ → Option Vol
  | 0, v, cluster => if 2 ≤ cluster ∧ cluster < fatEof then none else some v
  | n+1, v, cluster =>
    if 2 ≤ cluster ∧ cluster < fatEof then
      if entries ≤ cluster then none
      else
        let next := v.fatGet cluster &&& 0x0FFFFFFF
        if fatEof ≤ next then some (v.fatSet cluster 0)
        else freeChainIn entries n (v.fatSet cluster 0) next
    else some v

/-- A cluster at which the loop goes on. -/
def ValidCluster (c : ℕ) : Prop := 2 ≤ c ∧ c < fatEof

instance : DecidablePred ValidCluster := fun c => inferInstanceAs (Decidable (2 ≤ c ∧ c < fatEof))

/-- The masked entry of a cluster. -/
def Vol.link (v : Vol) (c : ℕ) : ℕ := v.fatGet c &&& 0x0FFFFFFF

/-- The cluster `c` is met on the way from `start` along the links of valid clusters. -/
def Reachable (v : Vol) (start c : ℕ) : Prop := Reaches v.link ValidCluster start c

/-- A value that ends a chain, or a cluster of a table of `entries` entries. -/
def EndsOrInside (entries c : ℕ) : Prop := c < 2 ∨ fatEof ≤ c ∨ c < entries

instance (entries : ℕ) : DecidablePred (EndsOrInside entries) :=
  fun c => inferInstanceAs (Decidable (c < 2 ∨ fatEof ≤ c ∨ c < entries))

/-- What freeing the chain from `start` should leave. -/
structure ChainFreed (v : Vol) (start : ℕ) (v' : Vol) : Prop where
  disk : v'.disk = v.disk
  cleared : ∀ c, Reachable v start c → v'.fatGet c = 0
  kept : ∀ c, ¬ Reachable v start c → v'.fatGet c = v.fatGet c

variable {v v' : Vol} {entries n c : ℕ}

theorem link_fatSet_zero : (v.fatSet c 0).link = Function.update v.link c 0 := by
  funext x
  unfold Vol.link
  rw [fatGet_fatSet (by omega)]
  by_cases hx : x = c
  · rw [if_pos hx, hx, Function.update_self, Nat.zero_and]
  · rw [if_neg hx, Function.update_of_ne hx]

theorem not_valid_zero : ¬ ValidCluster 0 := fun h => absurd h.1 (by omega)

theorem endsOrInside_valid (h : EndsOrInside entries c) (hc : ValidCluster c) : c < entries := by
  rcases h with h | h | h
  · exact absurd h (Nat.not_lt.mpr hc.1)
  · exact absurd h (Nat.not_le.mpr hc.2)
  · exact h

theorem freeChainIn_out (hc : ¬ ValidCluster c) : freeChainIn entries n v c = some v := by
  cases n with
  | zero => exact if_neg hc
  | succ n => exact if_neg hc

/-- A valid cluster is cleared, and the loop goes on at its link; where the link is the end of the
chain, going on and the `break` come to the same. -/
theorem freeChainIn_valid (hc : ValidCluster c) (hin : c < entries) :
    freeChainIn entries (n+1) v c = freeChainIn entries n (v.fatSet c 0) (v.link c) := by
  have hinside : ¬ entries ≤ c := Nat.not_le.mpr hin
  calc freeChainIn entries (n+1) v c
      = if fatEof ≤ v.link c then some (v.fatSet c 0)
        else freeChainIn entries n (v.fatSet c 0) (v.link c) := (if_pos hc).trans (if_neg hinside)
    _ = freeChainIn entries n (v.fatSet c 0) (v.link c) := by
        split
        · next hend =>
          have hout : ¬ ValidCluster (v.link c) := fun h => absurd h.2 (Nat.not_lt.mpr hend)
          exact (freeChainIn_out hout).symm
        · exact Eq.refl _

/-! ### Exactness -/

theorem ChainFreed.out (hc : ¬ ValidCluster c) : ChainFreed v c v where
  disk := Eq.refl _
  cleared _ h := absurd h.1 hc
  kept _ _ := Eq.refl _

theorem ChainFreed.last (hc : ValidCluster c) (hn : ¬ ValidCluster (v.link c)) :
    ChainFreed v c (v.fatSet c 0) where
  disk := Eq.refl _
  cleared x h := by
    have hx : x = c := (reaches_last hc hn).mp h
    rw [fatGet_fatSet (by omega), if_pos hx]
  kept x h := by
    have hx : x ≠ c := fun he => h ((reaches_last hc hn).mpr he)
    rw [fatGet_fatSet (by omega), if_neg hx]

/-- One turn of the loop and then the rest of it. -/
theorem ChainFreed.step (hc : ValidCluster c) (hn : ValidCluster (v.link c))
    (hrest : ChainFreed (v.fatSet c 0) (v.link c) v') : ChainFreed v c v' := by
  have hreach (x : ℕ) : Reachable v c x ↔ x = c ∨ Reachable (v.fatSet c 0) (v.link c) x := by
    unfold Reachable
    rw [link_fatSet_zero]
    exact reaches_cut not_valid_zero hc hn
  have hset (x : ℕ) : (v.fatSet c 0).fatGet x = if x = c then 0 else v.fatGet x :=
    fatGet_fatSet (by omega)
  have hdisk : v'.disk = v.disk := hrest.disk
  apply ChainFreed.mk hdisk
  · intro x hx
    by_cases hagain : Reachable (v.fatSet c 0) (v.link c) x
    · exact hrest.cleared x hagain
    · -- the entry of `c` stays cleared
      have hxc : x = c := ((hreach x).mp hx).resolve_right hagain
      calc v'.fatGet x = (v.fatSet c 0).fatGet x := hrest.kept x hagain
        _ = 0 := by rw [hset, if_pos hxc]
  · intro x hx
    have hxc : x ≠ c := fun he => hx ((hreach x).mpr (Or.inl he))
    have hagain : ¬ Reachable (v.fatSet c 0) (v.link c) x :=
      fun h => hx ((hreach x).mpr (Or.inr h))
    calc v'.fatGet x = (v.fatSet c 0).fatGet x := hrest.kept x hagain
      _ = v.fatGet x := by rw [hset, if_neg hxc]

/-! ### Termination -/

/-- The links between valid clusters of the table. -/
def chainLinks (entries : ℕ) (v : Vol) : ℕ := links (Finset.range entries) v.link ValidCluster

theorem chainLinks_lt (entries : ℕ) (v : Vol) : chainLinks entries v < 2^28 := by
  have hsub : (Finset.range entries).filter (fun x => ValidCluster x ∧ ValidCluster (v.link x)) ⊆
      Finset.range fatEof := by
    intro x hx
    exact Finset.mem_range.mpr (Finset.mem_filter.mp hx).2.1.2
  calc chainLinks entries v ≤ (Finset.range fatEof).card := Finset.card_le_card hsub
    _ = fatEof := Finset.card_range fatEof
    _ < 2^28 := by unfold fatEof; omega

/-- A cleared entry ends a chain, so the table stays one of this kind. -/
theorem endsOrInside_fatSet (h : ∀ i, i < entries → EndsOrInside entries (v.link i)) (c : ℕ) :
    ∀ i, i < entries → EndsOrInside entries ((v.fatSet c 0).link i) := by
  intro i hi
  rw [link_fatSet_zero]
  by_cases hic : i = c
  · rw [hic, Function.update_self]
    exact Or.inl (by omega)
  · rw [Function.update_of_ne hic]
    exact h i hi

/-- By induction on the fuel: each turn that goes on uses up a link between valid clusters. -/
theorem freeChainIn_spec (n : ℕ) : ∀ (v : Vol) (c : ℕ),
    (∀ i, i < entries → EndsOrInside entries (v.link i)) → EndsOrInside entries c →
    chainLinks entries v < n → ∃ v', freeChainIn entries n v c = some v' ∧ ChainFreed v c v' := by
  induction n with
  | zero => exact fun v c _ _ hn => absurd hn (Nat.not_lt_zero _)
  | succ n ih =>
    intro v c hfat hstart hn
    by_cases hc : ValidCluster c
    · have hin : c < entries := endsOrInside_valid hstart hc
      rw [freeChainIn_valid hc hin]
      by_cases hnext : ValidCluster (v.link c)
      · have hfewer : chainLinks entries (v.fatSet c 0) < chainLinks entries v := by
          unfold chainLinks
          rw [link_fatSet_zero]
          exact links_cut not_valid_zero (Finset.mem_range.mpr hin) hc hnext
        obtain ⟨v', hrun, hfreed⟩ := ih (v.fatSet c 0) (v.link c) (endsOrInside_fatSet hfat c)
          (hfat c hin) (by omega)
        exact ⟨v', hrun, hfreed.step hc hnext⟩
      · exact ⟨v.fatSet c 0, freeChainIn_out hnext, ChainFreed.last hc hnext⟩
    · exact ⟨v, freeChainIn_out hc, ChainFreed.out hc⟩

/-- Where the loop ends, the walk with that fuel is all of it. -/
theorem freeChainFrom_of_in (n : ℕ) : ∀ (v : Vol) (c : ℕ), freeChainIn entries n v c = some v' →
    freeChainFrom v n c = v' := by
  induction n with
  | zero =>
    intro v c h
    unfold freeChainIn at h
    split at h
    · cases h
    · exact Option.some.inj h
  | succ n ih =>
    intro v c h
    unfold freeChainIn at h
    unfold freeChainFrom
    dsimp only at h ⊢
    split at h
    · next hc =>
      rw [if_pos hc]
      split at h
      · cases h
      · split at h
        · next hend =>
          rw [if_pos hend]
          exact Option.some.inj h
        · next hend =>
          rw [if_neg hend]
          exact ih _ _ h
    · next hc =>
      rw [if_neg hc]
      exact Option.some.inj h

/-- On a table whose entries end a chain or lie inside it, and from a start cluster of that kind,
the loop ends without leaving the table, and it clears the entries of the clusters that the start
cluster leads to and no others. -/
theorem free_cluster_chain_exact (entries : ℕ) (v : Vol) (start : ℕ)
    (hfat : ∀ i, i < entries → EndsOrInside entries (v.fatGet i &&& 0x0FFFFFFF))
    (hstart : EndsOrInside entries start) :
    freeChainIn entries (2^28) v start = some (fat32FreeClusterChain v start) ∧
    (fat32FreeClusterChain v start).disk = v.disk ∧
    (∀ c, Reachable v start c → c < entries ∧ (fat32FreeClusterChain v start).fatGet c = 0) ∧
    (∀ c, ¬ Reachable v start c → (fat32FreeClusterChain v start).fatGet c = v.fatGet c) := by
  obtain ⟨v', hrun, hfreed⟩ := freeChainIn_spec (2^28) v start hfat hstart (chainLinks_lt entries v)
  have hresult : fat32FreeClusterChain v start = v' := freeChainFrom_of_in (2^28) v start hrun
  have hinside (c : ℕ) (h : Reachable v start c) : c < entries := by
    have hfirst : start < entries := endsOrInside_valid hstart h.1
    have hlink (y : ℕ) (hy : y < entries) (hn : ValidCluster (v.link y)) : v.link y < entries :=
      endsOrInside_valid (hfat y hy) hn
    exact h.invariant (P := fun y => y < entries) hfirst hlink
  rw [hresult]
  exact ⟨hrun, hfreed.disk, fun c hc => ⟨hinside c hc, hfreed.cleared c hc⟩, hfreed.kept⟩

/-- A table in which the clusters 2 and 3 lead to each other. -/
def loopedVol : Vol :=
  (({ disk := fun _ => 0#8, fat := fun _ => 0#8 } : Vol).fatSet 2 3).fatSet 3 2

theorem free_cluster_chain_exact_looped :
    freeChainIn 4 (2^28) loopedVol 2 = some (fat32FreeClusterChain loopedVol 2) ∧
    (fat32FreeClusterChain loopedVol 2).fatGet 3 = 0 :=
  have h := free_cluster_chain_exact 4 loopedVol 2 (by decide) (by decide)
  have hreach : Reachable loopedVol 2 3 :=
    ⟨by decide, Relation.ReflTransGen.single ⟨by decide, by decide, by decide⟩⟩
  ⟨h.1, (h.2.2.1 3 hreach).2⟩

end SukiOS.Fat32
