import SukiOS.VmmAccess
import SukiOS.VmmRule

/-! `vmm_map_page` changes one page: the tables it adds and the large page it splits change no
access, and the entry it writes is the one of the page. -/
namespace SukiOS
open ByteMemory MachineWord RadixTree

/-- An address space whose tables have frames of their own that are not free, where the kernel
reaches its tables and the free frames, and where an entry of a large page is present. -/
structure AddressSpace (s : Vmm) : Prop where
  aligned : s.pml4 = s.root * 4096
  distinct : Distinct (child s.mem every) s.root
  used : ∀ p f, s.table every p = some f → ¬ Free s f
  accessible : ∀ f, s.Managed every f → Window s f
  large : ∀ p f i, p ≠ [] → p.length < 3 → s.table every p = some f → i < 512 →
    entry s.mem f i &&& vmmPs ≠ 0 → entry s.mem f i &&& vmmPresent ≠ 0

/-- What `v` gives access to in `s`. -/
def Vmm.access (s : Vmm) (v : ℕ) : Option Access := SukiOS.access s.mem s.pml4 v

/-- From `s` to `s'` no access changed. -/
structure Kept (s s' : Vmm) : Prop where
  space : AddressSpace s'
  pml4 : s'.pml4 = s.pml4
  same : ∀ v, s'.access v = s.access v

section Space
variable {s s' s'' : Vmm} {p : List ℕ} {f i g v w : ℕ}

theorem Kept.rfl (hs : AddressSpace s) : Kept s s := ⟨hs, Eq.refl _, fun _ => Eq.refl _⟩

theorem Kept.trans (h : Kept s s') (h' : Kept s' s'') : Kept s s'' :=
  ⟨h'.space, h'.pml4.trans h.pml4, fun v => (h'.same v).trans (h.same v)⟩

theorem AddressSpace.reached (hs : AddressSpace s) : Reached every s where
  aligned := hs.aligned
  distinct := hs.distinct
  used := hs.used
  reach := fun _ _ _ _ => liveWalk_every _
  window := fun f hm o ho _ h => Option.some.inj (h.symm.trans (hs.accessible f hm o ho))

theorem translate_of_access (ha : s.pml4 = s.root * 4096) (hpml : s'.pml4 = s.pml4)
    (h : s'.access v = s.access v) : translate s'.mem s'.pml4 v = translate s.mem s.pml4 v := by
  unfold Vmm.access at h
  rw [hpml, ha] at h ⊢
  rw [← access_phys, ← access_phys, h]

/-- Taking a frame from the allocator. -/
theorem AddressSpace.shrink (hs : AddressSpace s) {pmm : Pmm}
    (hfree : ∀ h, bitmapTest pmm.bitmap h = false → Free s h) : Kept s { s with pmm := pmm } := by
  refine ⟨⟨hs.aligned, hs.distinct, ?_, ?_, hs.large⟩, Eq.refl _, fun _ => Eq.refl _⟩
  · intro q h hq hf
    exact hs.used q h hq (hfree h hf)
  · intro h hm
    exact hs.accessible h (hm.imp_left (hfree h))

/-! ### A new table -/

/-- Walks that do not use the entry of the new table read what they read before. -/
theorem Attach.access_off (hr : Reached every s) (ha : Attach every s s' p f i g)
    (hv : ¬ OnWalk v p i) : s'.access v = s.access v := by
  apply congrArg (Option.map (accessOf v))
  apply walkEntries_congr ha.pml4
  intro q f' j hq hw
  apply ha.entry_same hr hq (walkPath_lt (hw.subset (by simp)))
  rintro ⟨rfl, rfl⟩
  exact hv (hr.distinct q p _ hq ha.path ▸ hw)

/-- Walks through the entry: the same up to it, then what is behind it. -/
theorem Attach.access_on (hr : Reached every s) (ha : Attach every s s' p f i g)
    (hv : OnWalk v p i) (hc : Canonical v) : ∃ es is, es.length = p.length ∧
      p ++ i :: is = walkPath v ∧
      s.access v = (entriesFrom s.mem (decide (p ≠ [])) f (i::is)).map
        (fun l => accessOf v (es ++ l)) ∧
      s'.access v =
        (entriesFrom s'.mem (decide (p ≠ [])) f (i::is)).map (fun l => accessOf v (es ++ l)) := by
  obtain ⟨is, his⟩ := hv
  rw [List.append_assoc, List.singleton_append] at his
  -- the entries before the new one are in tables of their own
  have hsame (q : List ℕ) (x j : ℕ) (hq : s.table every q = some x) (hj : q ++ [j] <+: p) :
      entry s'.mem x j = entry s.mem x j := by
    apply ha.entry_same hr hq
    · apply walkPath_lt (v := v)
      rw [← his]
      exact List.mem_append_left _ (hj.subset (by simp))
    · rintro ⟨rfl, rfl⟩
      have hlen := hj.length_le
      rw [hr.distinct q p _ hq ha.path, List.length_append, List.length_singleton] at hlen
      omega
  obtain ⟨es, hlen, hes⟩ := entriesFrom_prefix ha.path hsame
  obtain ⟨h1, h2⟩ := hes (i::is)
  refine ⟨es, is, hlen, his, ?_, ?_⟩
  · unfold Vmm.access access walkEntries
    rw [if_pos hc, ← his]
    exact (congrArg (Option.map (accessOf v)) h1).trans (Option.map_map _ _ _)
  · unfold Vmm.access access walkEntries
    rw [if_pos hc, ha.pml4, ← his]
    exact (congrArg (Option.map (accessOf v)) h2).trans (Option.map_map _ _ _)

/-- A new table keeps the address space when the walks through it give the same access. -/
theorem AddressSpace.attach (hs : AddressSpace s) (ha : Attach every s s' p f i g)
    (hlarge : p.length < 2 → ∀ j, j < 512 → entry s'.mem g j &&& vmmPs ≠ 0 →
      entry s'.mem g j &&& vmmPresent ≠ 0)
    (hon : ∀ v, Canonical v → OnWalk v p i → s'.access v = s.access v) : Kept s s' := by
  have hr := hs.reached
  have hall (v : ℕ) : s'.access v = s.access v := by
    by_cases hc : Canonical v
    · by_cases hv : OnWalk v p i
      · exact hon v hc hv
      · exact ha.access_off hr hv
    · exact (access_eq_none hc).trans (access_eq_none hc).symm
  refine ⟨⟨ha.aligned hr, ha.distinct hr, ha.used hr, ?_, ?_⟩, ha.pml4, hall⟩
  · intro h hm o ho
    rw [translate_of_access hs.aligned ha.pml4 (hall _)]
    exact hs.accessible h (ha.managed hr hm) o ho
  · intro q h j hq hlen ht hj hps
    -- the new table, the one with the new entry, or another
    rcases (ha.table_iff hr q h).mp ht with ⟨rfl, rfl⟩ | ⟨-, ht⟩
    · rw [List.length_append, List.length_singleton] at hlen
      exact hlarge (by omega) j hj hps
    · by_cases hslot : h = f ∧ j = i
      · rw [hslot.1, hslot.2] at hps
        exact absurd ha.small hps
      · rw [ha.entry_same hr ht hj hslot] at hps ⊢
        exact hs.large q h j hq hlen ht hj hps

/-- An empty table behind an entry that was not present. -/
theorem AddressSpace.link (hs : AddressSpace s) (ha : Attach every s s' p f i g)
    (he : entry s.mem f i &&& vmmPresent = 0) (hempty : ∀ j, j < 512 → entry s'.mem g j = 0) :
    Kept s s' := by
  apply hs.attach ha
  · intro _ j hj hps
    rw [hempty j hj] at hps
    exact absurd (Eq.refl _) hps
  · -- the walk faulted at the entry before, and faults in the new table now
    intro v hc hv
    obtain ⟨es, is, -, his, h1, h2⟩ := ha.access_on hs.reached hv hc
    have hlen := ha.depth
    have h4 : (p ++ i :: is).length = 4 := by rw [his]; rfl
    rw [List.length_append, List.length_cons] at h4
    have hsized : decide (p ≠ []) = false ∨ entry s'.mem f i &&& vmmPs = 0 := Or.inr ha.small
    rw [h1, h2, entriesFrom_none he, entriesFrom_next ha.present hsized, ha.frame]
    match is, h4 with
    | [], h4 =>
      rw [List.length_nil] at h4
      omega
    | j::is, _ =>
      have hj : j < 512 := walkPath_lt (v := v) (by rw [← his]; simp)
      rw [entriesFrom_none (by rw [hempty j hj]; exact Nat.zero_and _)]
      rfl

/-! ### Splitting a large page -/

theorem testBit_user (pde : ℕ) {i : ℕ} (hi : i = 1 ∨ i = 2) :
    (3 ||| (pde &&& vmmUser)).testBit i = if i = 1 then true else pde.testBit 2 := by
  rw [Nat.testBit_or, Nat.testBit_and]
  rcases hi with rfl | rfl
  · exact Bool.true_or _
  · rw [if_neg (by decide)]
    exact Bool.and_true _

theorem testBit_splitEntry (pde j : ℕ) {i : ℕ} (hi : i = 1 ∨ i = 2) :
    (splitEntry pde j).testBit i = pde.testBit i := by
  rw [splitEntry_eq, testBit_frame_lor _ _ _ (by omega), Nat.testBit_or, Nat.testBit_and]
  rcases hi with rfl | rfl
  · exact (Bool.or_false _).trans (Bool.and_true _)
  · exact (Bool.or_false _).trans (Bool.and_true _)

/-- The 4 KB page gives what the 2 MB page gave. -/
theorem accessOf_split {es : List ℕ} (hes : es.length = 2) (g pde : ℕ) (v : ℕ) :
    accessOf v (es ++ [g*4096 ||| (3 ||| (pde &&& vmmUser)), splitEntry pde (vmmPtIndex v)]) =
      accessOf v (es ++ [pde]) := by
  have hbit (b : ℕ) (hb : b = 1 ∨ b = 2) :
      (decide ((g*4096 ||| (3 ||| (pde &&& vmmUser))) &&& 2^b ≠ 0) &&
        decide (splitEntry pde (vmmPtIndex v) &&& 2^b ≠ 0)) = decide (pde &&& 2^b ≠ 0) := by
    simp only [land_bit, testBit_frame_lor _ _ b (by omega), testBit_user pde hb,
      testBit_splitEntry pde _ hb, Bool.decide_eq_true]
    rcases hb with rfl | rfl
    · exact Bool.true_and _
    · exact Bool.and_self _
  have hphys : pageAddress v (es ++ [g*4096 ||| (3 ||| (pde &&& vmmUser)),
    splitEntry pde (vmmPtIndex v)]) =
      pageAddress v (es ++ [pde]) := by
    have hj := vmmPtIndex_lt v
    unfold pageAddress
    simp only [List.length_append, hes, List.length_cons, List.length_nil,
      List.getLastD_eq_getLast?,
      List.getLast?_append, List.getLast?_cons_cons, List.getLast?_singleton, Option.some_or,
      Option.getD_some]
    rw [if_neg (by decide), if_neg (by decide), if_neg (by decide), if_pos (by decide),
      land_addrMask,
      frameOf_splitEntry pde hj, land_largeMask, vmmPtIndex_eq]
    omega
  unfold accessOf
  rw [hphys]
  simp only [List.all_append, List.all_cons, List.all_nil, Bool.and_true]
  congr 1
  · exact congrArg _ (hbit 1 (Or.inl (Eq.refl _)))
  · exact congrArg _ (hbit 2 (Or.inr (Eq.refl _)))

/-- A table of 4 KB pages behind the entry of the 2 MB page they make up. -/
theorem AddressSpace.split (hs : AddressSpace s) (ha : Attach every s s' p f i g)
    (hlen : p.length = 2)
    (hps : entry s.mem f i &&& vmmPs ≠ 0)
    (hslot : entry s'.mem f i = g*4096 ||| (3 ||| (entry s.mem f i &&& vmmUser)))
    (hent : ∀ j, j < 512 → entry s'.mem g j = splitEntry (entry s.mem f i) j) : Kept s s' := by
  have hne : p ≠ [] := by
    rintro rfl
    cases hlen
  have hpres := hs.large p f i hne ha.depth ha.path ha.idx hps
  apply hs.attach ha (fun h => absurd hlen (by omega))
  intro v hc hv
  obtain ⟨es, is, hes, his, h1, h2⟩ := ha.access_on hs.reached hv hc
  -- a directory: one index is left, that of the 4 KB page
  obtain rfl : is = [vmmPtIndex v] := by
    have hpre : [vmmPml4Index v, vmmPdpteIndex v] ++ [vmmPdIndex v, vmmPtIndex v] = p ++ i :: is :=
      his.symm
    have h := (List.append_inj hpre (hlen.symm ▸ Eq.refl _)).2
    exact (List.cons.inj h).2.symm
  have hj := vmmPtIndex_lt v
  have hlast : entry s'.mem g (vmmPtIndex v) &&& vmmPresent ≠ 0 := by
    rw [hent _ hj]
    exact splitEntry_present _ _
  rw [h1, h2, decide_eq_true hne, entriesFrom_large hpres hps (List.cons_ne_nil _ _),
    entriesFrom_next ha.present (Or.inr ha.small), ha.frame, entriesFrom_last hlast, hent _ hj,
      hslot]
  exact congrArg some (accessOf_split (hes.trans hlen) g (entry s.mem f i) v)

theorem kept_rule : TableRule every v AddressSpace Kept where
  reached := fun _ hs => hs.reached
  windows := fun _ hs => hs.accessible
  space := fun _ _ hk => hk.space
  refl := fun _ hs => Kept.rfl hs
  trans := fun _ _ _ h h' => h.trans h'
  zero := fun _ hs _ hfree => hs.shrink (fun h hh => ((hfree h).mp hh).1)
  link := fun _ _ _ _ _ _ hs _ ha he _ _ hempty => hs.link ha he hempty
  split := fun _ _ _ _ _ _ hs _ ha hlen hps hslot hent => hs.split ha hlen hps hslot hent

/-! ### Setting the page -/

/-- The page of `v` leads to the frame of `w` with the flags of `w`; the other pages give access to
what they did. -/
structure PageSet (s s' : Vmm) (v w : ℕ) : Prop where
  pml4 : s'.pml4 = s.pml4
  here : ∀ x, Canonical x → walkPath x = walkPath v → ∃ es, es.length = 3 ∧
    walkEntries s'.mem s'.pml4 x = some (es ++ [w])
  others : ∀ x, walkPath x ≠ walkPath v → s'.access x = s.access x

/-- Writing the entry of a page. -/
theorem AddressSpace.pageSet (hs : AddressSpace s) (hp : s.table every (ptPath v) = some f)
    (hl : LeafSet every s s' (ptPath v) f (vmmPtIndex v) w) (hw : w &&& vmmPresent ≠ 0) :
    PageSet s s' v w := by
  have hr := hs.reached
  refine ⟨hl.pml4, fun x hc hx => ?_, fun x hx => ?_⟩
  · have hsame (q : List ℕ) (y j : ℕ) (hq : s.table every q = some y) (hj : q ++ [j] <+: ptPath v) :
        entry s'.mem y j = entry s.mem y j := by
      have hj512 : j < 512 := by
        apply walkPath_lt (v := v)
        rw [walkPath_eq]
        exact List.mem_append_left _ (hj.subset (by simp))
      refine (hl.entries y j hj512).trans (if_neg ?_)
      rintro ⟨rfl, -⟩
      have hlen := hj.length_le
      rw [hs.distinct q _ _ hq hp, List.length_append, List.length_singleton] at hlen
      omega
    obtain ⟨es, hes, hall⟩ := entriesFrom_prefix hp hsame
    have hlast := (hl.entries f (vmmPtIndex v) hl.idx).trans (if_pos ⟨Eq.refl _, Eq.refl _⟩)
    refine ⟨es, hes, ?_⟩
    unfold walkEntries
    have hroot : s.pml4 / 4096 = s.root := Eq.refl _
    rw [if_pos hc, hx, walkPath_eq, hl.pml4, hroot, (hall _).2, entriesFrom_last (hlast.symm ▸ hw),
      hlast]
    rfl
  · apply congrArg (Option.map (accessOf x))
    apply walkEntries_congr hl.pml4
    intro q y j hq hj
    refine (hl.entries y j (walkPath_lt (hj.subset (by simp)))).trans (if_neg ?_)
    rintro ⟨rfl, rfl⟩
    -- the page table is reached by one path, so the walk is that of `v`
    have hqp := hr.distinct q _ _ hq hp
    exact hx (onWalk_leaf (hqp ▸ hj) (Eq.refl _))

theorem Kept.pageSet (hk : Kept s s') (h : PageSet s' s'' v w) : PageSet s s'' v w :=
  ⟨h.pml4.trans hk.pml4, h.here, fun x hx => (h.others x hx).trans (hk.same x)⟩

/-- A page was set, or no table was found and nothing changed. -/
def Updated (s s' : Vmm) (v w : ℕ) (r : ℤ) : Prop :=
  r = 0 ∧ PageSet s s' v w ∨ r = -1 ∧ Kept s s'

theorem AddressSpace.vmmMapPage_updated (hs : AddressSpace s) (phys virt flags : ℕ)
    (hf : flags &&& vmmPresent ≠ 0) : ∃ s' r, vmmMapPage s phys virt flags = some (s', r) ∧
      Updated s s' (virt &&& pageMask) (pageEntry phys flags) r := by
  obtain ⟨s', r, hmap, hw⟩ :=
    kept_rule.vmmMapPage hs (liveWalk_every (virt &&& pageMask)) phys flags
  refine ⟨s', r, hmap, ?_⟩
  rcases hw with ⟨hr, hk⟩ | ⟨hr, t, f, hk, ht, hs'⟩
  · exact Or.inr ⟨hr, hk⟩
  · -- the tables were built without a change, and the entry is that of the page
    have hi := vmmPtIndex_lt (virt &&& pageMask)
    have hleaf := LeafSet.of_store ht (Eq.refl _) hi (pageEntry_lt phys flags)
    rw [← hs'] at hleaf
    exact Or.inl ⟨hr, hk.pageSet (hk.space.pageSet ht hleaf (pageEntry_present phys hf))⟩

/-! ### Pages -/

/-- The walk of a canonical address tells its page. -/
theorem walkPath_eq_iff {x : ℕ} (hx : Canonical x) (hv : Canonical v) :
    walkPath x = walkPath v ↔ x / 4096 = v / 4096 := by
  constructor
  · intro h
    simp only [walkPath, List.cons.injEq, and_true, vmmPml4Index_eq, vmmPdpteIndex_eq,
      vmmPdIndex_eq,
      vmmPtIndex_eq] at h
    obtain ⟨h4, h3, h2, h1⟩ := h
    unfold Canonical at hx hv
    omega
  · intro h
    rw [← walkPath_page x, ← walkPath_page v, h]

theorem canonical_page (hv : Canonical v) : Canonical (v / 4096 * 4096) := by
  unfold Canonical at hv ⊢
  omega

theorem canonical_offset (hv : Canonical v) {o : ℕ} (ho : o < 4096) :
    Canonical (v / 4096 * 4096 + o) := by
  unfold Canonical at hv ⊢
  omega

/-- The page of `virt` leads to `phys` with the given flags, and every address outside of it keeps
its physical address and its permissions. -/
structure MapsPage (s s' : Vmm) (phys virt flags : ℕ) : Prop where
  here : ∀ o, o < 4096 →
    translate s'.mem s'.pml4 (virt / 4096 * 4096 + o) = some (phys + o) ∧
    ∃ es pte, walkEntries s'.mem s'.pml4 (virt / 4096 * 4096 + o) = some (es ++ [pte]) ∧
      es.length = 3 ∧ pte &&& 0xFFF = flags &&& 0xFFF
  others : ∀ v, v / 4096 ≠ virt / 4096 → s'.access v = s.access v

theorem PageSet.mapsPage {phys virt flags : ℕ} (hv : Canonical virt) (hp : phys % 4096 = 0)
    (hlt : phys < 2^52) (ha : s.pml4 = s.root * 4096)
    (h : PageSet s s' (virt / 4096 * 4096) (pageEntry phys flags)) :
      MapsPage s s' phys virt flags := by
  have hframe : frameOf (pageEntry phys flags) * 4096 = phys := by
    rw [frameOf_pageEntry, frameOf]
    omega
  have hflags : pageEntry phys flags &&& 0xFFF = flags &&& 0xFFF := by
    have hand (x : ℕ) : x &&& 0xFFF = x % 2^12 := Nat.and_two_pow_sub_one_eq_mod x 12
    have hadd : pageEntry phys flags = frameOf phys * 2^12 + flags % 4096 := by
      rw [pageEntry_eq]
      exact lor_eq_add _ _ 12 (Nat.mod_lt _ (by decide))
    rw [hand, hand, hadd]
    omega
  refine ⟨fun o ho => ?_, fun v hne => ?_⟩
  · have hroot : s'.pml4 = s.root * 4096 := h.pml4.trans ha
    have hc := canonical_offset hv ho
    have hpage : walkPath (virt / 4096 * 4096 + o) = walkPath (virt / 4096 * 4096) := by
      rw [walkPath_eq_iff hc (canonical_page hv)]
      omega
    obtain ⟨es, hes, hw⟩ := h.here _ hc hpage
    refine ⟨?_, es, _, hw, hes, hflags⟩
    rw [hroot, ← access_phys, ← hroot]
    unfold access
    rw [hw]
    -- the walk ends in a page table, so the page has 4 KB
    have hlen : (es ++ [pageEntry phys flags]).length = 4 := by
      rw [List.length_append, hes]
      rfl
    have hphys : pageAddress (virt / 4096 * 4096 + o) (es ++ [pageEntry phys flags]) =
      phys + o := by
      unfold pageAddress
      rw [hlen, if_neg (by decide), if_neg (by decide), List.getLastD_concat, land_addrMask, hframe]
      omega
    exact congrArg some hphys
  · by_cases hc : Canonical v
    · apply h.others
      rw [ne_eq, walkPath_eq_iff hc (canonical_page hv)]
      omega
    · exact (access_eq_none hc).trans (access_eq_none hc).symm

/-- `vmm_map_page` returns, and changes the page it was asked for or nothing. -/
theorem vmm_map_page_exact (hs : AddressSpace s) {phys virt flags : ℕ} (hv : Canonical virt)
    (hp : phys % 4096 = 0) (hlt : phys < 2^52) (hf : flags &&& vmmPresent ≠ 0) :
    ∃ s' r, vmmMapPage s phys virt flags = some (s', r) ∧ (r = 0 ∨ r = -1) ∧
      (r = 0 → MapsPage s s' phys virt flags) ∧ (r = -1 → ∀ v, s'.access v = s.access v) := by
  obtain ⟨s', r, hmap, hu⟩ := hs.vmmMapPage_updated phys virt flags hf
  have hpage : virt &&& pageMask = virt / 4096 * 4096 := by
    apply land_align_down virt 12 (by decide)
    unfold Canonical at hv
    omega
  rw [hpage] at hu
  rcases hu with ⟨rfl, hset⟩ | ⟨rfl, hk⟩
  · exact ⟨s', 0, hmap, Or.inl (Eq.refl _), fun _ => hset.mapsPage hv hp hlt hs.aligned,
      fun h => absurd h (by decide)⟩
  · exact ⟨s', -1, hmap, Or.inr (Eq.refl _), fun h => absurd h (by decide), fun _ => hk.same⟩

end Space

/-! ### One huge page -/

/-- The first gigabyte is one page, the frames 16 and 17 hold the tables and the frames from 32 to
39 are free. -/
def hugeSpace : Vmm where
  mem := store64 (store64 (fun _ => 0#8) (16*4096 + 8*0) (17*4096 ||| 3)) (17*4096 + 8*0) 0x83
  pmm := { bitmap := fun i => if i = 4 then 0#8 else 0xFF#8, totalPages := 262144,
           usedPages := 262136 }
  pml4 := 16*4096
  mmioNext := vmmMmioBase

theorem hugeSpace_entry {f j : ℕ} (hj : j < 512) : entry hugeSpace.mem f j =
    if f = 17 ∧ j = 0 then 0x83 else if f = 16 ∧ j = 0 then 17*4096 ||| 3 else 0 := by
  have h0 : entry (fun _ => 0#8) f j = 0 := by
    unfold entry
    rw [load64_eq]
    exact load_zeros _ 8
  unfold hugeSpace
  dsimp only
  rw [entry_store64 (by decide) hj (by decide), entry_store64 (by decide) hj (by decide), h0]

theorem hugeSpace_table {p : List ℕ} {f : ℕ} (h : hugeSpace.table every p = some f) :
    p = [] ∧ f = 16 ∨ p = [0] ∧ f = 17 := by
  induction p using List.reverseRecOn generalizing f with
  | nil => exact Or.inl ⟨rfl, (Option.some.inj h).symm⟩
  | append_singleton p i ih =>
    obtain ⟨g, hg, hi⟩ := table_parent h
    obtain ⟨⟨hi512, -, -, hpres, hs⟩, rfl⟩ := child_eq_some.mp hi
    rw [hugeSpace_entry hi512] at hpres hs ⊢
    rcases ih hg with ⟨rfl, rfl⟩ | ⟨rfl, rfl⟩
    · by_cases h0 : i = 0
      · rw [h0]
        exact Or.inr ⟨rfl, by decide⟩
      · rw [if_neg (by omega), if_neg (by omega)] at hpres
        exact absurd rfl hpres
    · by_cases h0 : i = 0
      · rw [if_pos ⟨rfl, h0⟩] at hs
        exact absurd (hs.resolve_left (List.cons_ne_nil _ _)) (by decide)
      · rw [if_neg (by omega), if_neg (by omega)] at hpres
        exact absurd rfl hpres

theorem hugeSpace_free {f : ℕ} (h : Free hugeSpace f) : 32 ≤ f ∧ f < 40 := by
  have hlt := lt_max_of_free h
  unfold Free at h
  rw [bitmapTest_eq _ _ hlt] at h
  by_cases h4 : f / 8 = 4
  · omega
  · have hbyte : hugeSpace.pmm.bitmap (f / 8) = 0xFF#8 := if_neg h4
    rw [hbyte] at h
    have hall : ∀ k : Fin 8, (0xFF#8).getLsbD k = true := by decide
    exact absurd (h.symm.trans (hall ⟨f % 8, Nat.mod_lt _ (by decide)⟩)) Bool.noConfusion

/-- The first page of 1 GB leads to the first gigabyte. -/
theorem window_of_huge {s : Vmm} {e f : ℕ} (h4 : load64 s.mem (s.pml4 + 8*0) = e)
    (hpres : e &&& vmmPresent ≠ 0) (h3 : entry s.mem (frameOf e) 0 = 0x83) (hf : f < 2^18) :
    Window s f := by
  intro o ho
  have hc : Canonical (f*4096 + o) := Or.inl (by omega)
  have hpml4 : vmmPml4Index (f*4096 + o) = 0 := by
    rw [vmmPml4Index_eq]
    omega
  have hpdpte : vmmPdpteIndex (f*4096 + o) = 0 := by
    rw [vmmPdpteIndex_eq]
    omega
  unfold translate
  rw [if_neg (not_not.mpr hc), hpml4, h4]
  dsimp only
  rw [if_neg hpres, load_entry, hpdpte, h3, if_neg (by decide), if_pos (by decide)]
  have hmask : 0x83 &&& hugeMask = 0 := by decide
  rw [hmask]
  apply congrArg some
  omega

theorem hugeSpace_window {f : ℕ} (hf : f < 2^18) : Window hugeSpace f := by
  have h4 : load64 hugeSpace.mem (hugeSpace.pml4 + 8*0) = 17*4096 ||| 3 :=
    hugeSpace_entry (f := 16) (j := 0) (by decide)
  have hframe : frameOf (17*4096 ||| 3) = 17 := by decide
  apply window_of_huge h4 (by decide) _ hf
  rw [hframe]
  exact hugeSpace_entry (by decide)

theorem hugeSpace_space : AddressSpace hugeSpace where
  aligned := rfl
  distinct := by
    intro p q f hp hq
    rcases hugeSpace_table hp with ⟨rfl, rfl⟩ | ⟨rfl, rfl⟩
    · rcases hugeSpace_table hq with ⟨rfl, -⟩ | ⟨-, h⟩
      · rfl
      · cases h
    · rcases hugeSpace_table hq with ⟨-, h⟩ | ⟨rfl, -⟩
      · cases h
      · rfl
  used := by
    intro p f hp hf
    have hlo := (hugeSpace_free hf).1
    rcases hugeSpace_table hp with ⟨-, rfl⟩ | ⟨-, rfl⟩ <;> omega
  accessible := by
    rintro f (hf | ⟨p, hp⟩)
    · have hhi := (hugeSpace_free hf).2
      exact hugeSpace_window (by omega)
    · apply hugeSpace_window
      rcases hugeSpace_table hp with ⟨-, rfl⟩ | ⟨-, rfl⟩ <;> decide
  large := by
    intro p f i _ _ _ hi hps
    rw [hugeSpace_entry hi] at hps ⊢
    by_cases h17 : f = 17 ∧ i = 0
    · rw [if_pos h17]
      decide
    · rw [if_neg h17] at hps ⊢
      by_cases h16 : f = 16 ∧ i = 0
      · rw [if_pos h16]
        decide
      · rw [if_neg h16] at hps
        exact absurd rfl hps

/-- A page of user memory in the second gigabyte. -/
theorem vmm_map_page_exact_user_page :
    ∃ s' r, vmmMapPage hugeSpace 0x5000 0x40000000 7 = some (s', r) ∧ (r = 0 ∨ r = -1) ∧
      (r = 0 → MapsPage hugeSpace s' 0x5000 0x40000000 7) ∧
      (r = -1 → ∀ v, s'.access v = hugeSpace.access v) :=
  vmm_map_page_exact hugeSpace_space (by decide) (by decide) (by decide) (by decide)

end SukiOS
