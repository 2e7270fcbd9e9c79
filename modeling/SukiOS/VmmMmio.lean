import SukiOS.VmmRights

/-! The windows that `vmm_map_mmio` gives to devices: each one leads to the registers it was asked
for, and no later call takes a page of it. -/
namespace SukiOS
open ByteMemory MachineWord RadixTree Transition

def vmmMmioSize : ℕ := 512*1024*1024
def vmmMmioPages : ℕ := vmmMmioSize / vmmPageSize

/-- The page `k` of the region. -/
def mmioPage (k : ℕ) : ℕ := vmmMmioBase + k*4096

/-! ### Pages of the tree -/

/-- The entry of the page of `v` is `w`. -/
def MappedAs (s : Vmm) (v w : ℕ) : Prop :=
  ∃ f, s.table every (ptPath v) = some f ∧ entry s.mem f (vmmPtIndex v) = w

/-- The tables of the kernel: writable, and within reach in the identity map of four gigabytes. -/
structure DeviceTree (s : Vmm) : Prop where
  space : TableSpace every s
  writable : WritableTables every s
  low : ∀ p f, s.table every p = some f → f < 2^20

/-- The page of `v` is not in the identity map. -/
def NotLow (v : ℕ) : Prop := ∀ x, Canonical x → walkPath x = walkPath v → 2^32 ≤ x

section Tree
variable {s s' t : Vmm} {d f v w x u : ℕ} {r : ℤ}

theorem Built.mappedAs (hb : Built every d s s') (h : MappedAs s x u) : MappedAs s' x u := by
  obtain ⟨f, hf, he⟩ := h
  refine ⟨f, hb.keep _ f hf, ?_⟩
  -- an entry of a page table is neither linked nor split
  have hbuilt := hb.entries (ptPath x) f (vmmPtIndex x) hf (vmmPtIndex_lt x)
  generalize entry s'.mem f (vmmPtIndex x) = e' at hbuilt ⊢
  have hdepth : (ptPath x).length = 3 := Eq.refl _
  rw [hdepth] at hbuilt
  cases hbuilt with
  | same => exact he
  | link g hd _ _ _ => exact absurd hd (by decide)
  | split g hd _ _ => exact absurd hd (by decide)

theorem LeafSet.mappedAs_self (hr : Reached every s)
    (hl : LeafSet every s s' (ptPath v) f (vmmPtIndex v) w) : MappedAs s' v w :=
  ⟨f, (hl.table hr _).trans hl.path, (hl.entries f _ hl.idx).trans (if_pos ⟨rfl, rfl⟩)⟩

theorem LeafSet.mappedAs (hr : Reached every s)
    (hl : LeafSet every s s' (ptPath v) f (vmmPtIndex v) w) (hne : walkPath x ≠ walkPath v)
    (h : MappedAs s x u) : MappedAs s' x u := by
  obtain ⟨g, hg, he⟩ := h
  refine ⟨g, (hl.table hr _).trans hg, ((hl.entries g _ (vmmPtIndex_lt x)).trans (if_neg ?_)).trans
    he⟩
  rintro ⟨rfl, hidx⟩
  apply hne
  rw [walkPath_eq, walkPath_eq, hr.distinct _ _ g hg hl.path, hidx]

theorem Built.low (hb : Built every d s s') (h : ∀ p f, s.table every p = some f → f < 2^20)
    (p : List ℕ) (f : ℕ) (hf : s'.table every p = some f) : f < 2^20 := by
  rcases hb.fresh p f hf with hf | hf
  · exact h p f hf
  · exact lt_max_of_free hf

theorem DeviceTree.built (hd : DeviceTree s) (hb : Built every d s s') : DeviceTree s' :=
  ⟨hb.space, hb.writable hd.writable, hb.low hd.low⟩

theorem DeviceTree.managed_low (hd : DeviceTree s) (hm : s.Managed every f) : f < 2^20 := by
  rcases hm with hf | ⟨p, hp⟩
  · exact lt_max_of_free hf
  · exact hd.low p f hp

theorem MappedAs.advance (h : MappedAs s x u) (n : ℕ) : MappedAs { s with mmioNext := n } x u := h

theorem DeviceTree.advance (hd : DeviceTree s) (n : ℕ) : DeviceTree { s with mmioNext := n } := by
  have hr := hd.space.reached
  exact ⟨⟨⟨hr.aligned, hr.distinct, hr.used, hr.reach, hr.window⟩, hd.space.accessible⟩,
    hd.writable,
    hd.low⟩

/-- Setting a page outside of the identity map. -/
theorem DeviceTree.leaf (hd : DeviceTree s) (hl : LeafSet every s s' (ptPath v) f (vmmPtIndex v) w)
    (hv : NotLow v) : DeviceTree s' := by
  have hr := hd.space.reached
  have htable := hl.table hr
  have haccess (h : ℕ) (hm : s'.Managed every h) : Window s' h := by
    have hm := (hl.managed hr h).mp hm
    intro o ho
    rw [hl.walk_off hr (liveWalk_every _)]
    · exact hd.space.accessible h hm o ho
    · -- the window lies below 4 GB
      intro hw
      have hlt := hd.managed_low hm
      have hle := hv (h*4096 + o) (Or.inl (by omega)) hw
      omega
  refine ⟨⟨⟨?_, ?_, ?_, fun _ _ _ _ => liveWalk_every _, ?_⟩, haccess⟩, ?_, ?_⟩
  · rw [hl.root, hl.pml4]
    exact hr.aligned
  · intro p q x hp hq
    exact hr.distinct p q x ((htable p).symm.trans hp) ((htable q).symm.trans hq)
  · intro p x hp hf
    exact hr.used p x ((htable p).symm.trans hp) ((hl.free x).mp hf)
  · intro h hm o ho a ha
    exact Option.some.inj (ha.symm.trans (haccess h hm o ho))
  · -- the entry that is set leads to no table
    intro p x i g hp hg
    rw [htable] at hp hg
    obtain ⟨y, hy, hchild⟩ := table_parent hg
    obtain rfl : y = x := Option.some.inj (hy.symm.trans hp)
    have hi := (child_eq_some.mp hchild).1.1
    have hlen := (child_eq_some.mp hchild).1.2.1
    rw [hl.entries y i hi, if_neg]
    · exact hd.writable p y i g hp hg
    · rintro ⟨rfl, -⟩
      have hdepth := hl.depth
      rw [hr.distinct p _ y hp hl.path] at hlen
      omega
  · intro p x hp
    exact hd.low p x ((htable p).symm.trans hp)

/-- What mapping a page keeps. -/
theorem PageBuilt.device (hd : DeviceTree s) (hv : NotLow v) (h : PageBuilt every d s s' v w r) :
    DeviceTree s' ∧ s'.mmioNext = s.mmioNext ∧ (r = 0 → MappedAs s' v w) ∧
      ∀ x u, walkPath x ≠ walkPath v → MappedAs s x u → MappedAs s' x u := by
  rcases h with ⟨rfl, hb⟩ | ⟨rfl, t, f, hb, hnext, hl⟩
  · exact ⟨hd.built hb, hb.mmioNext, fun h => absurd h (by decide), fun x u _ h => hb.mappedAs h⟩
  · have hr := hb.space.reached
    exact ⟨(hd.built hb).leaf hl hv, hnext.trans hb.mmioNext, fun _ => hl.mappedAs_self hr,
      fun x u hne h => hl.mappedAs hr hne (hb.mappedAs h)⟩

end Tree

/-! ### Addresses of the region -/

section Region
variable {k j physAddr size x : ℕ}

theorem vmmMmioPages_eq : vmmMmioPages = 131072 := by decide

theorem mmioBase_eq : vmmMmioBase = 2^64 - 2^30 := by decide

theorem mmioPage_canonical (hk : k < 131072) {o : ℕ} (ho : o < 4096) :
    Canonical (mmioPage k + o) := by
  unfold Canonical mmioPage
  rw [mmioBase_eq]
  omega

theorem mmioPage_walk (hk : k < 131072) {o : ℕ} (ho : o < 4096) :
    walkPath (mmioPage k + o) = walkPath (mmioPage k) := by
  have hc : Canonical (mmioPage k) := mmioPage_canonical (o := 0) hk (by decide)
  rw [walkPath_eq_iff (mmioPage_canonical hk ho) hc]
  unfold mmioPage
  rw [mmioBase_eq]
  omega

theorem mmioPage_inj (hk : k < 131072) (hj : j < 131072)
    (h : walkPath (mmioPage k) = walkPath (mmioPage j)) : k = j := by
  have hk0 := mmioPage_canonical hk (show 0 < 4096 by decide)
  have hj0 := mmioPage_canonical hj (show 0 < 4096 by decide)
  have h := (walkPath_eq_iff hk0 hj0).mp h
  unfold mmioPage at h
  rw [mmioBase_eq] at h
  omega

theorem mmioPage_notLow (hk : k < 131072) : NotLow (mmioPage k) := by
  intro x hx hw
  have h := (walkPath_eq_iff hx (mmioPage_canonical hk (show 0 < 4096 by decide))).mp hw
  unfold mmioPage at h
  rw [mmioBase_eq] at h
  omega

theorem mmioPhysStart_eq (h : physAddr < 2^64) : mmioPhysStart physAddr = physAddr / 4096 * 4096 :=
  land_align_down physAddr 12 (by decide) h

/-- The number of pages that the bytes of the registers touch. -/
theorem mmioPageCount_eq (h : physAddr + size + 4095 < 2^52) :
    mmioPageCount physAddr size = (physAddr % 4096 + size + 4095) / 4096 := by
  have hend : ((physAddr + size + vmmPageSize - 1) % 2^64) &&& pageMask =
      (physAddr + size + 4095) / 4096 * 4096 := by
    have hlt : (physAddr + size + vmmPageSize - 1) % 2^64 = physAddr + size + 4095 := by
      unfold vmmPageSize
      omega
    rw [hlt]
    exact land_align_down _ 12 (by decide) (by omega)
  unfold mmioPageCount
  dsimp only
  rw [hend, mmioPhysStart_eq (by omega)]
  unfold vmmPageSize
  omega

end Region

/-! ### The loop -/

/-- The entry of the page `k` of a device whose registers begin in the frame of `physAddr`. -/
def deviceEntry (physAddr k : ℕ) : ℕ :=
  pageEntry (mmioPhys (mmioPhysStart physAddr) k) vmmKernRwCd

/-- No page of the region from `k` on. -/
def NotUpcoming (k v : ℕ) : Prop := ∀ j, k ≤ j → j < 131072 → walkPath v ≠ walkPath (mmioPage j)

section Loop
variable {s s' : Vmm} {k n i : ℕ}

theorem NotUpcoming.mono {k j v : ℕ} (h : NotUpcoming k v) (hkj : k ≤ j) : NotUpcoming j v :=
  fun x hx hlt => h x (hkj.trans hx) hlt

theorem mmioPage_notUpcoming {j : ℕ} (hj : j < k) (hlt : j < 131072) :
    NotUpcoming k (mmioPage j) := by
  intro x hx hx2 hw
  have h := mmioPage_inj hlt hx2 hw
  omega

/-- `vmm_map_mmio` maps pages one after the other, and goes past the pages it mapped. -/
theorem mmioFrom_device (physStart n : ℕ) : ∀ (s : Vmm) (k i : ℕ), DeviceTree s →
    s.mmioNext = mmioPage k →
    k + n ≤ 131072 → ∃ s' ok m, mmioFrom s physStart i n = some (s', ok) ∧ DeviceTree s' ∧ m ≤ n ∧
      s'.mmioNext = mmioPage (k + m) ∧
      (ok = true → m = n ∧ ∀ j, j < n → MappedAs s' (mmioPage (k + j))
        (pageEntry (mmioPhys physStart (i + j)) vmmKernRwCd)) ∧
      ∀ x u, NotUpcoming k x → MappedAs s x u → MappedAs s' x u := by
  induction n with
  | zero =>
    intro s k i hd hnext _
    exact ⟨s, true, 0, rfl, hd, le_rfl, hnext,
      fun _ => ⟨rfl, fun j hj => absurd hj (Nat.not_lt_zero j)⟩,
      fun _ _ _ h => h⟩
  | succ n ih =>
    intro s k i hd hnext hk
    have hk1 : k < 131072 := by omega
    have hpage : s.mmioNext &&& pageMask = mmioPage k := by
      have hlt : mmioPage k < 2^64 := by
        unfold mmioPage
        rw [mmioBase_eq]
        omega
      have halign : mmioPage k &&& pageMask = mmioPage k / 4096 * 4096 :=
        land_align_down _ 12 (by decide) hlt
      rw [hnext, halign]
      unfold mmioPage
      rw [mmioBase_eq]
      omega
    obtain ⟨s1, r, hmap, hbuilt⟩ :=
      hd.space.vmmMapPage_built (liveWalk_every (s.mmioNext &&& pageMask))
      (mmioPhys physStart i) vmmKernRwCd
    rw [hpage] at hbuilt
    obtain ⟨hd1, hnext1, hself, hother⟩ := hbuilt.device hd (mmioPage_notLow hk1)
    have hfrom : mmioFrom s physStart i (n+1) = if r ≠ 0 then some (s1, false)
        else mmioFrom { s1 with mmioNext := (s1.mmioNext + vmmPageSize) % 2^64 } physStart
          (i+1) n := by
      have hbind : mmioFrom s physStart i (n+1) =
          (vmmMapPage s (mmioPhys physStart i) s.mmioNext vmmKernRwCd).bind (fun r =>
            if r.2 ≠ 0 then some (r.1, false) else
              mmioFrom { r.1 with mmioNext := (r.1.mmioNext + vmmPageSize) % 2^64 } physStart
                (i+1) n) :=
        rfl
      rw [hbind, hmap]
      rfl
    by_cases hr : r ≠ 0
    · rw [if_pos hr] at hfrom
      exact ⟨s1, false, 0, hfrom, hd1, Nat.zero_le _, hnext1.trans hnext,
        (fun h => nomatch h), fun x u hx h => hother x u (hx k le_rfl hk1) h⟩
    rw [if_neg hr] at hfrom
    have hnext2 : (s1.mmioNext + vmmPageSize) % 2^64 = mmioPage (k+1) := by
      rw [hnext1, hnext]
      unfold mmioPage vmmPageSize
      rw [mmioBase_eq]
      omega
    generalize (s1.mmioNext + vmmPageSize) % 2^64 = q at hfrom hnext2
    -- only the address of the next page differs from the state after the page
    obtain ⟨s', ok, m, hrest, hd', hm, hnext', hok, hkeep⟩ :=
      ih { s1 with mmioNext := q } (k+1) (i+1) (hd1.advance q) hnext2 (by omega)
    refine ⟨s', ok, m+1, hfrom.trans hrest, hd', Nat.succ_le_succ hm, ?_, ?_, ?_⟩
    · rw [hnext']
      congr 1
      omega
    · intro h
      obtain ⟨hmn, hall⟩ := hok h
      refine ⟨congrArg Nat.succ hmn, fun j hj => ?_⟩
      rcases j with _ | j
      · have hthis : MappedAs s1 (mmioPage k) (pageEntry (mmioPhys physStart i) vmmKernRwCd) :=
          hself (not_not.mp hr)
        exact hkeep _ _ (mmioPage_notUpcoming (Nat.lt_succ_self k) hk1) (hthis.advance q)
      · have hlater := hall j (by omega)
        rwa [Nat.add_right_comm k 1 j, Nat.add_right_comm i 1 j, Nat.add_assoc,
          Nat.add_assoc] at hlater
    · intro x u hx h
      have hstep : MappedAs s1 x u := hother x u (hx k le_rfl hk1) h
      exact hkeep x u (hx.mono (Nat.le_succ k)) (hstep.advance q)

end Loop

/-! ### Runs -/

/-- The call of `vmm_map_mmio` that returned `addr`. -/
structure DeviceWindow where
  addr : ℕ
  physAddr : ℕ
  size : ℕ
deriving DecidableEq

inductive DeviceCall where
  | mapMmio (physAddr size : ℕ)
  | mapPage (phys virt flags : ℕ)

/-- A call and, when it is one of `vmm_map_mmio` that mapped every page, its window. -/
def deviceCall (x : Vmm × List DeviceWindow) : DeviceCall → Option (Vmm × List DeviceWindow)
  | .mapMmio physAddr size => do
    let r ← mmioFrom x.1 (mmioPhysStart physAddr) 0 (mmioPageCount physAddr size)
    let a ← vmmMapMmio x.1 physAddr size
    some (a.1, if r.2 then ⟨a.2, physAddr, size⟩ :: x.2 else x.2)
  | .mapPage phys virt flags => (vmmMapPage x.1 phys virt flags).map (fun r => (r.1, x.2))

def deviceRuns (s : Vmm) : System (Vmm × List DeviceWindow) DeviceCall where
  init x := x = (s, [])
  step x c x' := deviceCall x c = some x'

/-- Registers below 2^52, and pages outside of the region and of the identity map. -/
def DeviceCall.Allowed : DeviceCall → Prop
  | .mapMmio physAddr size => 0 < size ∧ physAddr + size + 4095 < 2^52
  | .mapPage _ virt _ => ∀ x, Canonical x → walkPath x = walkPath (virt &&& pageMask) →
      2^32 ≤ x ∧ (x < vmmMmioBase ∨ vmmMmioBase + vmmMmioSize ≤ x)

/-- The condition on a canonical address. -/
theorem allowed_of_canonical {phys virt flags : ℕ} (hc : Canonical virt) (hlow : 2^32 ≤ virt)
    (hout : virt < vmmMmioBase ∨ vmmMmioBase + vmmMmioSize ≤ virt) :
    (DeviceCall.mapPage phys virt flags).Allowed := by
  intro x hx hw
  have hsize : vmmMmioSize = 2^29 := by decide
  have hpage := (walkPath_eq_iff hx hc).mp (hw.trans (walkPath_mask hc))
  rw [hsize, mmioBase_eq] at hout ⊢
  omega

/-- The pages a call asks for. -/
def DeviceCall.pages : DeviceCall → ℕ
  | .mapMmio physAddr size => mmioPageCount physAddr size
  | .mapPage _ _ _ => 0

/-- The window begins in the page `k` of the region and takes `n` pages. -/
structure WindowAt (s : Vmm) (w : DeviceWindow) (k n : ℕ) : Prop where
  size : 0 < w.size
  phys : w.physAddr + w.size + 4095 < 2^52
  addr : w.addr = mmioPage k + w.physAddr % 4096
  count : n = (w.physAddr % 4096 + w.size + 4095) / 4096
  pages : ∀ j, j < n → MappedAs s (mmioPage (k + j)) (deviceEntry w.physAddr j)

/-- Two windows have no page in common. -/
def WindowsApart (w w' : DeviceWindow) : Prop :=
  ∀ i i', i < w.size → i' < w'.size → (w.addr + i) / 4096 ≠ (w'.addr + i') / 4096

/-- The windows lie below the next page, which is at most the page `asked`, and apart. -/
structure DeviceInv (asked : ℕ) (x : Vmm × List DeviceWindow) : Prop where
  tree : DeviceTree x.1
  next : ∃ k, k ≤ asked ∧ x.1.mmioNext = mmioPage k ∧
    ∀ w ∈ x.2, ∃ j n, j + n ≤ k ∧ WindowAt x.1 w j n
  apart : x.2.Pairwise WindowsApart

section Runs
variable {s s' : Vmm} {x x' : Vmm × List DeviceWindow} {w w' : DeviceWindow} {c : DeviceCall}
  {k j n n' asked phys virt flags physAddr size : ℕ}

theorem WindowAt.kept (h : WindowAt s w j n) (hjn : j + n ≤ k) (hk : k ≤ 131072)
    (hkeep : ∀ v u, NotUpcoming k v → MappedAs s v u → MappedAs s' v u) : WindowAt s' w j n := by
  refine ⟨h.size, h.phys, h.addr, h.count, fun i hi => ?_⟩
  exact hkeep _ _ (mmioPage_notUpcoming (by omega) (by omega)) (h.pages i hi)

/-- A window that begins where the other has ended. -/
theorem WindowAt.apart (h : WindowAt s w k n) (h' : WindowAt s' w' j n') (hjk : j + n' ≤ k) :
    WindowsApart w w' := by
  intro i i' hi hi'
  have hcount := h'.count
  rw [h.addr, h'.addr]
  unfold mmioPage
  rw [mmioBase_eq]
  omega

theorem DeviceInv.mapPage (hi : DeviceInv asked x)
    (ha : (DeviceCall.mapPage phys virt flags).Allowed)
    (hk : asked ≤ 131072) (h : deviceCall x (.mapPage phys virt flags) = some x') :
    DeviceInv asked x' := by
  obtain ⟨⟨t, r⟩, hr, rfl⟩ := Option.map_eq_some_iff.mp h
  obtain ⟨t', r', hr', hbuilt⟩ := hi.tree.space.vmmMapPage_built
    (liveWalk_every (virt &&& pageMask)) phys flags
  obtain ⟨rfl, rfl⟩ := Prod.mk.inj (Option.some.inj (hr.symm.trans hr'))
  obtain ⟨hd, hnext, -, hkeep⟩ := hbuilt.device hi.tree (fun v hv hw => (ha v hv hw).1)
  obtain ⟨k, hka, hkn, hwin⟩ := hi.next
  refine ⟨hd, ⟨k, hka, hnext.trans hkn, fun w hw => ?_⟩, hi.apart⟩
  obtain ⟨j, n, hjn, hat⟩ := hwin w hw
  refine ⟨j, n, hjn, hat.size, hat.phys, hat.addr, hat.count, fun i hin => ?_⟩
  -- a page of the region is not the page that is mapped
  apply hkeep _ _ _ (hat.pages i hin)
  intro hpage
  have hj : j + i < 131072 := by omega
  have hc : Canonical (mmioPage (j + i)) := mmioPage_canonical (o := 0) hj (by decide)
  have hout := (ha _ hc hpage).2
  have hsize : vmmMmioSize = 2^29 := by decide
  unfold mmioPage at hout
  rw [hsize, mmioBase_eq] at hout
  omega

theorem DeviceInv.mapMmio (hi : DeviceInv asked x) (ha : (DeviceCall.mapMmio physAddr size).Allowed)
    (hk : asked + mmioPageCount physAddr size ≤ 131072)
    (h : deviceCall x (.mapMmio physAddr size) = some x') :
    DeviceInv (asked + mmioPageCount physAddr size) x' := by
  obtain ⟨hsize, hphys⟩ := ha
  obtain ⟨k, hka, hkn, hwin⟩ := hi.next
  obtain ⟨s', ok, m, hfrom, hd, hm, hnext, hok, hkeep⟩ := mmioFrom_device
    (mmioPhysStart physAddr) (mmioPageCount physAddr size) x.1 k 0 hi.tree hkn (by omega)
  have hcall : vmmMapMmio x.1 physAddr size =
      some (s', if ok then (x.1.mmioNext + (physAddr &&& 0xFFF)) % 2^64 else 0) := by
    unfold vmmMapMmio
    dsimp only
    rw [hfrom]
    rfl
  have hx' : x' = (s', if ok then
      (⟨if ok then (x.1.mmioNext + (physAddr &&& 0xFFF)) % 2^64 else 0, physAddr, size⟩ :
        DeviceWindow) ::
        x.2 else x.2) := by
    unfold deviceCall at h
    dsimp only at h
    rw [hfrom, hcall] at h
    exact (Option.some.inj h).symm
  -- the windows before lie below the pages that are mapped now
  have hold (w : DeviceWindow) (hw : w ∈ x.2) : ∃ j n, j + n ≤ k ∧ WindowAt s' w j n := by
    obtain ⟨j, n, hjn, hat⟩ := hwin w hw
    exact ⟨j, n, hjn, hat.kept hjn (by omega) hkeep⟩
  cases ok with
  | false =>
    -- no window, but the pages that were mapped are not used again
    rw [hx']
    refine ⟨hd, ⟨k + m, by omega, hnext, fun w hw => ?_⟩, hi.apart⟩
    obtain ⟨j, n, hjn, hat⟩ := hold w hw
    exact ⟨j, n, by omega, hat⟩
  | true =>
    obtain ⟨rfl, hall⟩ := hok rfl
    have hoff : physAddr &&& 0xFFF = physAddr % 2^12 := Nat.and_two_pow_sub_one_eq_mod physAddr 12
    have hcount := mmioPageCount_eq hphys
    have haddr : (x.1.mmioNext + (physAddr &&& 0xFFF)) % 2^64 = mmioPage k + physAddr % 4096 := by
      rw [hkn, hoff]
      unfold mmioPage
      rw [mmioBase_eq]
      omega
    have hnew : WindowAt s' ⟨mmioPage k + physAddr % 4096, physAddr, size⟩ k
        (mmioPageCount physAddr size) := by
      refine ⟨hsize, hphys, rfl, hcount, fun j hj => ?_⟩
      have hj := hall j hj
      rwa [Nat.zero_add] at hj
    rw [if_pos rfl, if_pos rfl, haddr] at hx'
    rw [hx']
    refine ⟨hd, ⟨k + mmioPageCount physAddr size, by omega, hnext, fun w hw => ?_⟩, ?_⟩
    · rcases List.mem_cons.mp hw with rfl | hw
      · exact ⟨k, _, le_rfl, hnew⟩
      · obtain ⟨j, n, hjn, hat⟩ := hold w hw
        exact ⟨j, n, by omega, hat⟩
    · refine List.pairwise_cons.mpr ⟨fun w hw => ?_, hi.apart⟩
      obtain ⟨j, n, hjn, hat⟩ := hold w hw
      exact hnew.apart hat hjn

theorem DeviceInv.step (hi : DeviceInv asked x) (ha : c.Allowed) (hk : asked + c.pages ≤ 131072)
    (h : deviceCall x c = some x') : DeviceInv (asked + c.pages) x' := by
  cases c with
  | mapMmio physAddr size => exact hi.mapMmio ha hk h
  | mapPage phys virt flags => exact hi.mapPage ha hk h

theorem DeviceInv.run {s0 : Vmm} {cs : List DeviceCall} (hrun : (deviceRuns s0).Run x cs x') :
    ∀ asked, DeviceInv asked x → (∀ c ∈ cs, c.Allowed) →
      asked + (cs.map DeviceCall.pages).sum ≤ 131072 →
      DeviceInv (asked + (cs.map DeviceCall.pages).sum) x' := by
  induction hrun with
  | nil x => exact fun asked hi _ _ => hi
  | @cons x x1 x' c cs hs _ ih =>
    intro asked hi ha hk
    rw [List.map_cons, List.sum_cons] at hk ⊢
    have hstep := hi.step (ha c List.mem_cons_self) (by omega) hs
    rw [← Nat.add_assoc]
    exact ih (asked + c.pages) hstep (fun c hc => ha c (List.mem_cons_of_mem _ hc)) (by omega)

end Runs

/-! ### What the windows lead to -/

/-- The tables before the first call: frames of their own that are not free, writable, and within
reach, as the free frames are, at the addresses equal to the physical ones. -/
structure MmioStart (s : Vmm) : Prop where
  aligned : s.pml4 = s.root * 4096
  distinct : Distinct (child s.mem every) s.root
  used : ∀ p f, s.table every p = some f → ¬ Free s f
  writable : WritableTables every s
  accessible : ∀ f, s.Managed every f → Window s f
  next : s.mmioNext = vmmMmioBase

/-- The tables are in the identity map of four gigabytes, where no call maps a page. -/
structure DeviceStart (s : Vmm) : Prop extends MmioStart s where
  low : ∀ p f, s.table every p = some f → f < 2^20

/-- The window lies in the region, and its bytes are the registers, uncached and writable. -/
structure DeviceMapped (s : Vmm) (w : DeviceWindow) : Prop where
  ne_zero : w.addr ≠ 0
  region : vmmMmioBase ≤ w.addr ∧ w.addr + w.size ≤ vmmMmioBase + vmmMmioSize
  phys : ∀ off, off < w.size → translate s.mem s.pml4 (w.addr + off) = some (w.physAddr + off)
  uncached : ∀ off, off < w.size → ∃ es pte, walkEntries s.mem s.pml4 (w.addr + off) =
    some (es ++ [pte]) ∧
    es.length = 3 ∧ pte &&& vmmPcd ≠ 0 ∧ pte &&& vmmPwt ≠ 0
  writable : ∀ off, off < w.size → ∃ es, walkEntries s.mem s.pml4 (w.addr + off) = some es ∧
    ∀ e ∈ es, e &&& vmmWrite ≠ 0

section Windows
variable {s s0 : Vmm} {w : DeviceWindow} {k n phys flags off v f3 f2 f1 : ℕ}

/-- The tables above a page are writable. -/
theorem DeviceTree.writable_walk (hd : DeviceTree s)
    (hw : TableWalk s.mem every s.root v f3 f2 f1) :
    entry s.mem s.root (vmmPml4Index v) &&& vmmWrite ≠ 0 ∧
    entry s.mem f3 (vmmPdpteIndex v) &&& vmmWrite ≠ 0 ∧
    entry s.mem f2 (vmmPdIndex v) &&& vmmWrite ≠ 0 :=
  ⟨hd.writable [] s.root _ f3 rfl hw.pdpte, hd.writable [_] f3 _ f2 hw.pdpte hw.pd,
    hd.writable [_, _] f2 _ f1 hw.pd hw.pt⟩

/-- The walk of a byte of a window. -/
theorem WindowAt.walk (hd : DeviceTree s) (h : WindowAt s w k n) (hk : k + n ≤ 131072)
    (hoff : off < w.size) : ∃ e4 e3 e2 pte,
      walkEntries s.mem s.pml4 (w.addr + off) = some [e4, e3, e2, pte] ∧
      pte = deviceEntry w.physAddr ((w.physAddr % 4096 + off) / 4096) ∧
      e4 &&& vmmWrite ≠ 0 ∧ e3 &&& vmmWrite ≠ 0 ∧ e2 &&& vmmWrite ≠ 0 ∧
      translate s.mem s.pml4 (w.addr + off) = some (w.physAddr + off) := by
  have hcount := h.count
  have hphys := h.phys
  obtain ⟨j, hj⟩ : ∃ j, j = (w.physAddr % 4096 + off) / 4096 := ⟨_, rfl⟩
  have hjn : j < n := by omega
  have hlt : k + j < 131072 := by omega
  have haddr : w.addr + off = mmioPage (k + j) + (w.physAddr % 4096 + off) % 4096 := by
    rw [h.addr, hj]
    unfold mmioPage
    omega
  have ho : (w.physAddr % 4096 + off) % 4096 < 4096 := Nat.mod_lt _ (by decide)
  have hc := mmioPage_canonical hlt ho
  have hwalk := mmioPage_walk hlt ho
  rw [← haddr] at hc hwalk
  -- the walk of the byte is that of its page
  obtain ⟨hpt, hidx⟩ : ptPath (w.addr + off) = ptPath (mmioPage (k + j)) ∧
      vmmPtIndex (w.addr + off) = vmmPtIndex (mmioPage (k + j)) := by
    rw [walkPath_eq, walkPath_eq] at hwalk
    obtain ⟨h1, h2⟩ := List.append_inj' hwalk rfl
    exact ⟨h1, (List.cons.inj h2).1⟩
  obtain ⟨f1, hf1, hentry⟩ := h.pages j hjn
  rw [← hpt] at hf1
  rw [← hidx] at hentry
  obtain ⟨f3, f2, hw⟩ := TableWalk.of_pt hf1
  obtain ⟨h4, h3, h2⟩ := hd.writable_walk hw
  have hpres : entry s.mem f1 (vmmPtIndex (w.addr + off)) &&& vmmPresent ≠ 0 := by
    rw [hentry]
    exact (land_pageEntry (i := 0) _ _ (by decide)).mpr (by decide)
  have hentries := hw.walkEntries hc
  have htrans := hw.translate hc
  rw [← hd.space.reached.aligned, if_neg hpres] at hentries htrans
  rw [hj] at hentry
  refine ⟨_, _, _, _, hentries, hentry, h4, h3, h2, htrans.trans (congrArg some ?_)⟩
  -- the frame of the page, and the offset in it
  have hpage : mmioPage (k + j) % 4096 = 0 := by
    unfold mmioPage
    rw [mmioBase_eq]
    omega
  rw [hentry, deviceEntry, frameOf_pageEntry, frameOf, mmioPhys, mmioPhysStart_eq (by omega), haddr]
  unfold vmmPageSize
  omega

theorem WindowAt.mapped (hd : DeviceTree s) (h : WindowAt s w k n) (hk : k + n ≤ 131072) :
    DeviceMapped s w := by
  have hcount := h.count
  have hsize : vmmMmioSize = 2^29 := by decide
  refine ⟨?_, ?_, fun off hoff => ?_, fun off hoff => ?_, fun off hoff => ?_⟩
  · rw [h.addr]
    unfold mmioPage
    rw [mmioBase_eq]
    omega
  · rw [h.addr, hsize]
    unfold mmioPage
    omega
  · obtain ⟨-, -, -, -, -, -, -, -, -, htrans⟩ := h.walk hd hk hoff
    exact htrans
  · obtain ⟨e4, e3, e2, pte, hes, rfl, -⟩ := h.walk hd hk hoff
    exact ⟨[e4, e3, e2], _, hes, rfl, (land_pageEntry (i := 4) _ _ (by decide)).mpr (by decide),
      (land_pageEntry (i := 3) _ _ (by decide)).mpr (by decide)⟩
  · obtain ⟨e4, e3, e2, pte, hes, rfl, h4, h3, h2, -⟩ := h.walk hd hk hoff
    refine ⟨_, hes, fun e he => ?_⟩
    simp only [List.mem_cons, List.not_mem_nil, or_false] at he
    rcases he with rfl | rfl | rfl | rfl
    · exact h4
    · exact h3
    · exact h2
    · exact (land_pageEntry (i := 1) _ _ (by decide)).mpr (by decide)

theorem DeviceStart.inv (h : DeviceStart s0) : DeviceInv 0 (s0, []) := by
  have hreached : Reached every s0 :=
    ⟨h.aligned, h.distinct, h.used, fun _ _ _ _ => liveWalk_every _,
      fun f hm o ho a ha => Option.some.inj (ha.symm.trans (h.accessible f hm o ho))⟩
  refine ⟨⟨⟨hreached, h.accessible⟩, h.writable, h.low⟩, ⟨0, le_rfl, ?_, fun w hw => ?_⟩, .nil⟩
  · exact h.next.trans (Nat.add_zero _).symm
  · exact absurd hw List.not_mem_nil

/-- In every run that asks for no more pages than the region has, the calls of `vmm_map_mmio` that
succeeded gave windows on their registers, and these stay apart and stay mapped. -/
theorem mmio_windows_kept {cs : List DeviceCall} {log : List DeviceWindow} (h0 : DeviceStart s0)
    (ha : ∀ c ∈ cs, c.Allowed) (hp : (cs.map DeviceCall.pages).sum ≤ vmmMmioPages)
    (hrun : (deviceRuns s0).Run (s0, []) cs (s, log)) :
    (∀ w ∈ log, DeviceMapped s w) ∧ log.Pairwise WindowsApart := by
  rw [vmmMmioPages_eq] at hp
  have hinv := h0.inv.run hrun 0 ha (by omega)
  refine ⟨fun w hw => ?_, hinv.apart⟩
  obtain ⟨k, hka, -, hwin⟩ := hinv.next
  obtain ⟨j, n, hjn, hat⟩ := hwin w hw
  exact hat.mapped hinv.tree (by omega)

end Windows

/-! ### One device -/

theorem hugeSpace_deviceStart : DeviceStart hugeSpace where
  aligned := hugeSpace_space.aligned
  distinct := hugeSpace_space.distinct
  used := hugeSpace_space.used
  accessible := hugeSpace_space.accessible
  low := by
    intro p f hp
    have h := (hugeSpace_managed (Or.inr ⟨p, hp⟩)).2
    omega
  next := rfl
  writable := by
    intro p f i g hp hg
    -- the only entry for a table is the first one of the root
    rcases hugeSpace_table hg with ⟨h, -⟩ | ⟨h, -⟩
    · exact absurd h (by simp)
    · obtain ⟨rfl, hi⟩ := List.append_inj' (h.trans (List.nil_append [0]).symm) rfl
      obtain rfl : i = 0 := (List.cons.inj hi).1
      obtain rfl : f = 16 := (Option.some.inj hp).symm
      rw [hugeSpace_first]
      decide

theorem hugeSpace_frames (f : ℕ) (hf : f ∈ [32, 33, 34, 35, 36, 37, 38, 39]) :
    Free hugeSpace f := by
  have hall : ∀ f ∈ [32, 33, 34, 35, 36, 37, 38, 39], f < pmmMaxPages ∧ f / 8 = 4 := by decide
  obtain ⟨hlt, h4⟩ := hall f hf
  unfold Free
  rw [bitmapTest_eq _ _ hlt, h4]
  have hbyte : (if (4 : ℕ) = 4 then 0#8 else 0xFF#8) = 0#8 := if_pos rfl
  show BitVec.getLsbD (if (4 : ℕ) = 4 then 0#8 else 0xFF#8) (f % 8) = false
  rw [hbyte]
  exact BitVec.getLsbD_zero

/-- The registers of 32 bytes at 0xFEE00010. -/
theorem hugeSpace_device : ∃ s, deviceCall (hugeSpace, []) (.mapMmio 0xFEE00010 0x20) =
    some (s, [⟨0xFFFFFFFFC0000010, 0xFEE00010, 0x20⟩]) := by
  have hidx : vmmPml4Index (vmmMmioBase &&& pageMask) = 511 := by decide
  have hnone : hugeSpace.table every [vmmPml4Index (vmmMmioBase &&& pageMask)] = none := by
    rw [hidx, Option.eq_none_iff_forall_ne_some]
    intro f hf
    rcases hugeSpace_table hf with ⟨h, -⟩ | ⟨h, -⟩
    · cases h
    · exact absurd (List.cons.inj h).1 (by decide)
  obtain ⟨s1, hmap⟩ := hugeSpace_backed.vmmMapPage_first (liveWalk_every _) hnone
    (A := [32, 33, 34, 35, 36, 37, 38, 39]) (by decide) (by decide) hugeSpace_frames
    ((mmioPhysStart 0xFEE00010 + 0*vmmPageSize) % 2^64) vmmKernRwCd
  have hcount : mmioPageCount 0xFEE00010 0x20 = 1 := by decide
  have hnext : hugeSpace.mmioNext = vmmMmioBase := rfl
  have hfrom : mmioFrom hugeSpace (mmioPhysStart 0xFEE00010) 0 1 =
      some ({ s1 with mmioNext := (s1.mmioNext + vmmPageSize) % 2^64 }, true) := by
    unfold mmioFrom
    rw [hnext, hmap]
    rfl
  refine ⟨{ s1 with mmioNext := (s1.mmioNext + vmmPageSize) % 2^64 }, ?_⟩
  have haddr : (vmmMmioBase + (0xFEE00010 &&& 0xFFF)) % 2^64 = 0xFFFFFFFFC0000010 := by decide
  have hcall : vmmMapMmio hugeSpace 0xFEE00010 0x20 =
      some ({ s1 with mmioNext := (s1.mmioNext + vmmPageSize) % 2^64 }, 0xFFFFFFFFC0000010) := by
    unfold vmmMapMmio
    rw [hcount, hfrom, hnext]
    dsimp only [Option.bind_eq_bind, Option.bind_some]
    rw [if_pos rfl, haddr]
  unfold deviceCall
  dsimp only
  rw [hcount, hfrom, hcall]
  rfl

/-- A page of user memory is mapped after the window, which stays. -/
theorem mmio_windows_kept_device : ∃ s, (deviceRuns hugeSpace).Run (hugeSpace, [])
      [.mapMmio 0xFEE00010 0x20, .mapPage 0x5000 0x8000000000 7]
      (s, [⟨0xFFFFFFFFC0000010, 0xFEE00010, 0x20⟩]) ∧
    DeviceMapped s ⟨0xFFFFFFFFC0000010, 0xFEE00010, 0x20⟩ := by
  have hmmio : (DeviceCall.mapMmio 0xFEE00010 0x20).Allowed := ⟨by decide, by decide⟩
  have hpage : (DeviceCall.mapPage 0x5000 0x8000000000 7).Allowed :=
    allowed_of_canonical (Or.inl (by decide)) (by decide) (Or.inl (by rw [mmioBase_eq]; decide))
  obtain ⟨s1, h1⟩ := hugeSpace_device
  have hinv := hugeSpace_deviceStart.inv.step hmmio (by decide) h1
  obtain ⟨s2, r, h2, -⟩ := hinv.tree.space.vmmMapPage_built
    (liveWalk_every (0x8000000000 &&& pageMask)) 0x5000 7
  have hrun : (deviceRuns hugeSpace).Run (hugeSpace, [])
      [.mapMmio 0xFEE00010 0x20, .mapPage 0x5000 0x8000000000 7]
      (s2, [⟨0xFFFFFFFFC0000010, 0xFEE00010, 0x20⟩]) := by
    refine .cons h1 (.cons ?_ (.nil _))
    exact congrArg (Option.map (fun x => (x.1, _))) h2
  have hkept := mmio_windows_kept hugeSpace_deviceStart (fun c hc => by
    rcases List.mem_cons.mp hc with rfl | hc
    · exact hmmio
    · rw [List.mem_singleton.mp hc]
      exact hpage) (by decide) hrun
  exact ⟨s2, hrun, hkept.1 _ List.mem_cons_self⟩

/-! ### A table out of the identity map -/

/-- The entries of a tree with a page table for the region in the first frame behind the identity
map: table, index and entry. -/
def farEntries : List ((ℕ × ℕ) × ℕ) :=
  [((16, 0), 17*4096 ||| 3), ((16, 511), 20*4096 ||| 3), ((17, 0), 0x83), ((17, 4), 18*4096 ||| 3),
    ((18, 0), 19*4096 ||| 3), ((19, 0), 2^32 ||| 3), ((20, 511), 21*4096 ||| 3),
    ((21, 0), 2^32 ||| 3)]

/-- The tables, with their paths. -/
def farTables : List (List ℕ × ℕ) :=
  [([], 16), ([0], 17), ([0, 4], 18), ([0, 4, 0], 19), ([511], 20), ([511, 511], 21),
    ([511, 511, 0], 2^20)]

def memOf (entries : List ((ℕ × ℕ) × ℕ)) : Mem :=
  entries.foldr (fun e m => store64 m (e.1.1*4096 + 8*e.1.2) e.2) (fun _ => 0#8)

def farSpace : Vmm where
  mem := memOf farEntries
  pmm := { bitmap := fun _ => 0xFF#8, totalPages := 262144, usedPages := 262144 }
  pml4 := 16*4096
  mmioNext := vmmMmioBase

/-- A page over the window of that page table, and a device after it. -/
def farCalls : List DeviceCall := [.mapPage 0x64000 0x100000000 3, .mapMmio 0xFEE00000 0x1000]

theorem entry_memOf {f j : ℕ} (hj : j < 512) (entries : List ((ℕ × ℕ) × ℕ))
    (hfit : ∀ e ∈ entries, e.1.2 < 512 ∧ e.2 < 2^64) :
    entry (memOf entries) f j = (entries.lookup (f, j)).getD 0 := by
  induction entries with
  | nil =>
    show load64 (fun _ => 0#8) _ = 0
    rw [load64_eq]
    exact load_zeros _ 8
  | cons e entries ih =>
    obtain ⟨hidx, hword⟩ := hfit e List.mem_cons_self
    have hrest := ih (fun e he => hfit e (List.mem_cons_of_mem _ he))
    show entry (store64 (memOf entries) (e.1.1*4096 + 8*e.1.2) e.2) f j = _
    rw [entry_store64 hidx hj hword, hrest, List.lookup_cons]
    by_cases he : (f, j) = e.1
    · rw [if_pos ⟨congrArg Prod.fst he, congrArg Prod.snd he⟩, beq_iff_eq.mpr he]
      rfl
    · have hnot : ¬ (f = e.1.1 ∧ j = e.1.2) := fun h => he (Prod.ext h.1 h.2)
      rw [if_neg hnot, beq_eq_false_iff_ne.mpr he]

theorem farSpace_entry {f j : ℕ} (hj : j < 512) :
    entry farSpace.mem f j = (farEntries.lookup (f, j)).getD 0 :=
  entry_memOf hj farEntries (by decide)

theorem farSpace_cases (f : ℕ) {j : ℕ} (hj : j < 512) :
    entry farSpace.mem f j = 0 ∨ ((f, j), entry farSpace.mem f j) ∈ farEntries := by
  rw [farSpace_entry hj]
  cases hlookup : farEntries.lookup (f, j) with
  | none => exact Or.inl rfl
  | some e =>
    obtain ⟨A, B, hsplit, -⟩ := List.lookup_eq_some_iff.mp hlookup
    refine Or.inr ?_
    rw [hsplit]
    exact List.mem_append_right A List.mem_cons_self

theorem farSpace_link {p : List ℕ} {f i g : ℕ} (h : child farSpace.mem every p f i = some g) :
    ((f, i), entry farSpace.mem f i) ∈ farEntries ∧ p.length < 3 ∧
      (p = [] ∨ entry farSpace.mem f i &&& vmmPs = 0) ∧ frameOf (entry farSpace.mem f i) = g := by
  obtain ⟨⟨hi, hlen, -, hpres, hs⟩, hg⟩ := child_eq_some.mp h
  rcases farSpace_cases f hi with hzero | hmem
  · rw [hzero] at hpres
    exact absurd rfl hpres
  · exact ⟨hmem, hlen, hs, hg⟩

theorem farSpace_table {p : List ℕ} {f : ℕ} (h : farSpace.table every p = some f) :
    (p, f) ∈ farTables := by
  induction p using List.reverseRecOn generalizing f with
  | nil =>
    obtain rfl : 16 = f := Option.some.inj h
    exact List.mem_cons_self
  | append_singleton p i ih =>
    obtain ⟨g, hg, hi⟩ := table_parent h
    obtain ⟨he, hlen, hs, rfl⟩ := farSpace_link hi
    have hall : ∀ q ∈ farTables, ∀ x ∈ farEntries, q.2 = x.1.1 → q.1.length < 3 →
        (q.1 = [] ∨ x.2 &&& vmmPs = 0) → (q.1 ++ [x.1.2], frameOf x.2) ∈ farTables := by decide
    exact hall (p, g) (ih hg) _ he rfl hlen hs

theorem farSpace_used (f : ℕ) : ¬ Free farSpace f := by
  intro h
  have hlt := lt_max_of_free h
  unfold Free at h
  rw [bitmapTest_eq _ _ hlt] at h
  have hall : ∀ k : Fin 8, (0xFF#8).getLsbD k = true := by decide
  exact absurd (h.symm.trans (hall ⟨f % 8, Nat.mod_lt _ (by decide)⟩)) Bool.noConfusion

/-- A walk through three tables that lead on. -/
theorem translate_of_entries {m : Mem} {cr3 v e4 e3 e2 : ℕ} (hc : Canonical v)
    (h4 : load64 m (cr3 + 8*vmmPml4Index v) = e4) (hp4 : e4 &&& vmmPresent ≠ 0)
    (h3 : entry m (frameOf e4) (vmmPdpteIndex v) = e3) (hp3 : e3 &&& vmmPresent ≠ 0)
    (hs3 : e3 &&& vmmPs = 0) (h2 : entry m (frameOf e3) (vmmPdIndex v) = e2)
    (hp2 : e2 &&& vmmPresent ≠ 0) (hs2 : e2 &&& vmmPs = 0) :
    translate m cr3 v = if entry m (frameOf e2) (vmmPtIndex v) &&& vmmPresent = 0 then none
      else some (frameOf (entry m (frameOf e2) (vmmPtIndex v)) * 4096 + v % 2^12) := by
  unfold translate
  rw [if_neg (not_not.mpr hc), h4]
  dsimp only
  rw [if_neg hp4, load_entry, h3, if_neg hp3, if_neg (not_not.mpr hs3), load_entry, h2, if_neg hp2,
    if_neg (not_not.mpr hs2), load_entry, land_addrMask]

/-- The page table is within reach through a page of its own. -/
theorem farSpace_window : Window farSpace (2^20) := by
  intro o ho
  obtain ⟨v, hv⟩ : ∃ v, v = 2^20*4096 + o := ⟨_, rfl⟩
  rw [← hv]
  have hc : Canonical v := Or.inl (by omega)
  have h4 : vmmPml4Index v = 0 := by
    rw [vmmPml4Index_eq]
    omega
  have h3 : vmmPdpteIndex v = 4 := by
    rw [vmmPdpteIndex_eq]
    omega
  have h2 : vmmPdIndex v = 0 := by
    rw [vmmPdIndex_eq]
    omega
  have h1 : vmmPtIndex v = 0 := by
    rw [vmmPtIndex_eq]
    omega
  have he4 : load64 farSpace.mem (farSpace.pml4 + 8*vmmPml4Index v) = 17*4096 ||| 3 := by
    rw [h4]
    exact farSpace_entry (f := 16) (j := 0) (by decide)
  have he3 : entry farSpace.mem (frameOf (17*4096 ||| 3)) (vmmPdpteIndex v) = 18*4096 ||| 3 := by
    rw [h3]
    exact farSpace_entry (f := 17) (j := 4) (by decide)
  have he2 : entry farSpace.mem (frameOf (18*4096 ||| 3)) (vmmPdIndex v) = 19*4096 ||| 3 := by
    rw [h2]
    exact farSpace_entry (f := 18) (j := 0) (by decide)
  have he1 : entry farSpace.mem (frameOf (19*4096 ||| 3)) (vmmPtIndex v) = 2^32 ||| 3 := by
    rw [h1]
    exact farSpace_entry (f := 19) (j := 0) (by decide)
  rw [translate_of_entries hc he4 (by decide) he3 (by decide) (by decide) he2 (by decide)
    (by decide), he1, if_neg (by decide)]
  have hframe : frameOf (2^32 ||| 3) = 2^20 := by decide
  rw [hframe]
  apply congrArg some
  omega

/-- Nothing is mapped in the region. -/
theorem farSpace_region {v : ℕ} (hlow : vmmMmioBase ≤ v) (hhigh : v < vmmMmioBase + vmmMmioSize) :
    translate farSpace.mem farSpace.pml4 v = none := by
  have hsize : vmmMmioSize = 2^29 := by decide
  rw [mmioBase_eq, hsize] at hhigh
  rw [mmioBase_eq] at hlow
  have hc : Canonical v := Or.inr ⟨by omega, by omega⟩
  have h4 : vmmPml4Index v = 511 := by
    rw [vmmPml4Index_eq]
    omega
  have h3 : vmmPdpteIndex v = 511 := by
    rw [vmmPdpteIndex_eq]
    omega
  have he4 : load64 farSpace.mem (farSpace.pml4 + 8*vmmPml4Index v) = 20*4096 ||| 3 := by
    rw [h4]
    exact farSpace_entry (f := 16) (j := 511) (by decide)
  have he3 : entry farSpace.mem (frameOf (20*4096 ||| 3)) (vmmPdpteIndex v) = 21*4096 ||| 3 := by
    rw [h3]
    exact farSpace_entry (f := 20) (j := 511) (by decide)
  have hframe : frameOf (21*4096 ||| 3) = 21 := by decide
  by_cases h2 : vmmPdIndex v = 0
  · have he2 : entry farSpace.mem (frameOf (21*4096 ||| 3)) (vmmPdIndex v) = 2^32 ||| 3 := by
      rw [h2]
      exact farSpace_entry (f := 21) (j := 0) (by decide)
    have he1 : entry farSpace.mem (frameOf (2^32 ||| 3)) (vmmPtIndex v) = 0 := by
      rw [farSpace_entry (vmmPtIndex_lt v)]
      rfl
    rw [translate_of_entries hc he4 (by decide) he3 (by decide) (by decide) he2 (by decide)
      (by decide), he1, if_pos (by decide)]
  · have hall : ∀ x ∈ farEntries, x.1.1 = 21 → x.1.2 = 0 := by decide
    have he2 : entry farSpace.mem 21 (vmmPdIndex v) = 0 :=
      (farSpace_cases 21 (vmmPdIndex_lt v)).resolve_right fun h => h2 (hall _ h rfl)
    unfold translate
    rw [if_neg (not_not.mpr hc), he4]
    dsimp only
    rw [if_neg (by decide), load_entry, he3, if_neg (by decide), if_neg (by decide), load_entry,
      hframe, he2, if_pos (by decide)]

theorem farSpace_start : MmioStart farSpace where
  aligned := rfl
  distinct := by
    have hall : ∀ x ∈ farTables, ∀ y ∈ farTables, x.2 = y.2 → x.1 = y.1 := by decide
    intro p q f hp hq
    exact hall (p, f) (farSpace_table hp) (q, f) (farSpace_table hq) rfl
  used p f _ := farSpace_used f
  writable := by
    have hall : ∀ x ∈ farEntries, x.2 &&& vmmWrite ≠ 0 := by decide
    intro p f i g hf hg
    obtain ⟨f', hf', hi⟩ := table_parent hg
    obtain rfl : f = f' := Option.some.inj (hf.symm.trans hf')
    exact hall _ (farSpace_link hi).1
  accessible := by
    have hall : ∀ x ∈ farTables, x.2 < 2^18 ∨ x.2 = 2^20 := by decide
    rintro f (hf | ⟨p, hp⟩)
    · exact absurd hf (farSpace_used f)
    · rcases hall (p, f) (farSpace_table hp) with hlow | hfar
      · exact window_of_huge (farSpace_entry (f := 16) (j := 0) (by decide)) (by decide)
          (farSpace_entry (f := 17) (j := 0) (by decide)) hlow
      · obtain rfl : f = 2^20 := hfar
        exact farSpace_window
  next := rfl

/-- The second call goes on in the page that the first one put over the page table: it returns an
address where nothing is mapped. -/
theorem mmio_window_lost : ∃ s w, MmioStart farSpace ∧
    (∀ v, vmmMmioBase ≤ v → v < vmmMmioBase + vmmMmioSize →
      translate farSpace.mem farSpace.pml4 v = none) ∧
    (∀ c ∈ farCalls, c.Allowed) ∧ (farCalls.map DeviceCall.pages).sum ≤ vmmMmioPages ∧
    (deviceRuns farSpace).Run (farSpace, []) farCalls (s, [w]) ∧ w.addr ≠ 0 ∧
    translate s.mem s.pml4 w.addr = none ∧ ¬ DeviceMapped s w := by
  have hallowed : ∀ c ∈ farCalls, c.Allowed := by
    intro c hc
    rcases List.mem_cons.mp hc with rfl | hc
    · exact allowed_of_canonical (Or.inl (by decide)) (by decide)
        (Or.inl (by rw [mmioBase_eq]; decide))
    · rw [List.mem_singleton.mp hc]
      exact ⟨by decide, by decide⟩
  have hrun : ((deviceCall (farSpace, []) (.mapPage 0x64000 0x100000000 3)).bind
      (deviceCall · (.mapMmio 0xFEE00000 0x1000))).map
        (fun x => (x.2, translate x.1.mem x.1.pml4 vmmMmioBase)) =
      some ([⟨vmmMmioBase, 0xFEE00000, 0x1000⟩], none) := by decide +kernel
  obtain ⟨⟨s2, log⟩, h2, hend⟩ := Option.map_eq_some_iff.mp hrun
  obtain ⟨hlog, hnone⟩ := Prod.mk.inj hend
  obtain ⟨s1, h1, h2⟩ := Option.bind_eq_some_iff.mp h2
  dsimp only at hlog hnone h2
  rw [hlog] at h2
  refine ⟨s2, _, farSpace_start, fun v => farSpace_region, hallowed, by decide,
    .cons h1 (.cons h2 (.nil _)), by decide, hnone, fun hmapped => ?_⟩
  have hphys := hmapped.phys 0 (by decide)
  rw [Nat.add_zero] at hphys
  exact nomatch hnone.symm.trans hphys

end SukiOS
