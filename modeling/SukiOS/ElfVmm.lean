import SukiOS.ElfPages
import SukiOS.VmmAllocFail
import SukiOS.VmmPageTables

/-! The functions of `vmm.c` keep the laws that the rights of the segments rest on. -/
namespace SukiOS
open ByteMemory MachineWord RadixTree

/-- The kernel that `elf64_load` runs in, with the image at `buf`. -/
def vmmKernel (buf : ℕ) : Kernel Vmm where
  peek s o := (translate s.mem s.pml4 ((buf + o) % 2^64)).map s.mem
  store s a b := (translate s.mem s.pml4 a).map (fun x =>
    { s with mem := Function.update s.mem x b })
  vmmIsMapped := SukiOS.vmmIsMapped
  vmmAllocMap := SukiOS.vmmAllocMap

/-- An address of the kernel leads to the byte `b`, in a frame that is no table and not free. -/
structure HoldsByte (live : List ℕ → Prop) (s : Vmm) (v : ℕ) (b : Byte) (x : ℕ) : Prop where
  reach : translate s.mem s.pml4 v = some x
  data : ¬ s.Managed live (x / 4096)
  byte : s.mem x = b

/-- What `elf64_load` needs of the address space: the kernel reaches its tables, the pages of the
image are in none of the kernel's windows, and the image itself is in data frames that no segment
is stored to. -/
structure LoadSpace (live : List ℕ → Prop) (file : Mem) (buf n : ℕ) (s : Vmm) : Prop where
  backed : Backed live s
  next : s.mmioNext < 2^64
  large : LargePresent live s
  pages : ∀ x ∈ visits file, Canonical x.1 ∧ Spared live s x.1
  segments : ∀ a, SegmentAddress file a → LiveWalk live a
  apart : ∀ a x, SegmentAddress file a → translate s.mem s.pml4 a = some x →
    ¬ s.Managed live (x / 4096) ∧
      ∀ o, o < n → translate s.mem s.pml4 ((buf + o) % 2^64) ≠ some x
  reads : ∀ o, SegmentOffset file o → LiveWalk live ((buf + o) % 2^64)
  buffer : ∀ o, o < n → LiveWalk live ((buf + o) % 2^64) ∧
    (∀ x ∈ visits file, walkPath x.1 ≠ walkPath ((buf + o) % 2^64)) ∧
    ∃ x, HoldsByte live s ((buf + o) % 2^64) (file o) x

section Data
variable {live : List ℕ → Prop} {s s' : Vmm} {v x g : ℕ} {m : Mem} {b : Byte}

/-- The page tables tell what the walk reaches. -/
theorem tablesOf_present (hb : Backed live s) (hl : LiveWalk live v) :
    ((tablesOf live s).rights v).isSome ↔ (translate s.mem s.pml4 v).isSome := by
  have hphys : (s.access v).map Access.phys = translate s.mem s.pml4 v := by
    unfold Vmm.access
    rw [hb.tables.aligned]
    exact access_phys s.mem s.root v
  rw [tablesOf_rights hl, Option.isSome_map, ← hphys, Option.isSome_map]

theorem update_in_frame (m : Mem) (x : ℕ) (b : Byte) :
    SameOff {y | x/4096*4096 ≤ y ∧ y < x/4096*4096 + 4096} m (Function.update m x b) :=
  SameOff.rfl.update ⟨by omega, by omega⟩

/-- Writing to a frame of data keeps the tables, and what is free. -/
theorem Backed.write_data (hb : Backed live s) (hg : ¬ s.Managed live g)
    (hoff : SameOff {y | g*4096 ≤ y ∧ y < g*4096 + 4096} s.mem m) :
    Backed live { s with mem := m } ∧ tablesOf live { s with mem := m } = tablesOf live s ∧
      (∀ f, Vmm.Managed { s with mem := m } live f ↔ s.Managed live f) ∧
      ∀ v, LiveWalk live v → translate m s.pml4 v = translate s.mem s.pml4 v := by
  have hno (q : List ℕ) : s.table live q ≠ some g := fun hq => hg (Or.inr ⟨q, hq⟩)
  obtain ⟨htable, htree⟩ := tables_of_sameOff hno s.pmm hoff
  have hwalk (v : ℕ) (hl : LiveWalk live v) :
      translate m s.pml4 v = translate s.mem s.pml4 v :=
    hb.tables.reached.translate_of_sameOff hno hoff hl
  have hmanaged (f : ℕ) : Vmm.Managed { s with mem := m } live f ↔ s.Managed live f :=
    or_congr_right (exists_congr (fun q => by rw [← htable q]))
  refine ⟨⟨?_, ?_, fun h => hb.zero ((hmanaged 0).mp h)⟩, htree, hmanaged, hwalk⟩
  · refine { aligned := hb.tables.aligned, distinct := ?_, used := ?_, reach := ?_, window := ?_
             low := fun f hm => hb.tables.low f ((hmanaged f).mp hm), large := ?_ }
    · intro q q' f hq hq'
      exact hb.tables.distinct q q' f ((htable q).symm.trans hq) ((htable q').symm.trans hq')
    · exact fun q f hq => hb.tables.used q f ((htable q).symm.trans hq)
    · exact fun f hm => hb.tables.reach f ((hmanaged f).mp hm)
    · intro f hm o ho a ha
      have hm' := (hmanaged f).mp hm
      exact hb.tables.window f hm' o ho a ((hwalk _ (hb.tables.reach f hm' o ho)).symm.trans ha)
    · intro b f i hq hi hps
      have hq' := (htable [0, b]).symm.trans hq
      have he : entry m f i = entry s.mem f i :=
        entry_of_sameOff hoff (fun h => hno [0, b] (h ▸ hq')) hi
      dsimp only at hps ⊢
      rw [he] at hps ⊢
      exact hb.tables.large b f i hq' hi hps
  · intro f hm o ho
    have hm' := (hmanaged f).mp hm
    exact (hwalk _ (hb.tables.reach f hm' o ho)).trans (hb.windows f hm' o ho)

/-- A frame whose entries stay keeps its bytes. -/
theorem byte_of_entries (h : ∀ j, j < 512 → entry m (x / 4096) j = entry s.mem (x / 4096) j) :
    m x = s.mem x := by
  have hword := h (x % 4096 / 8) (by omega)
  unfold entry at hword
  rw [load64_eq, load64_eq, load_eq_iff] at hword
  have hbyte := hword (x % 8) (Nat.mod_lt x (by decide))
  rw [show x / 4096 * 4096 + 8 * (x % 4096 / 8) + x % 8 = x by omega] at hbyte
  exact hbyte

end Data

section Space
variable {live : List ℕ → Prop} {file : Mem} {buf n : ℕ} {s s' : Vmm} {x : ℕ × Rights}
  {perm d : ℕ}

theorem LoadSpace.store (hs : LoadSpace live file buf n s) {a y : ℕ} (b : Byte)
    (ha : SegmentAddress file a) (hy : translate s.mem s.pml4 a = some y) :
    LoadSpace live file buf n { s with mem := Function.update s.mem y b } ∧
      tablesOf live { s with mem := Function.update s.mem y b } = tablesOf live s := by
  obtain ⟨hdata, hbuffer⟩ := hs.apart a y ha hy
  have hoff := update_in_frame s.mem y b
  obtain ⟨hback, htree, hmanaged, hwalk⟩ := hs.backed.write_data hdata hoff
  have hno (q : List ℕ) : s.table live q ≠ some (y / 4096) := fun hq => hdata (Or.inr ⟨q, hq⟩)
  refine ⟨{ backed := hback, next := hs.next, large := ?_, pages := ?_, segments := hs.segments
            apart := ?_, reads := hs.reads, buffer := ?_ }, htree⟩
  · intro p f i hp hlen hf hi
    rw [(tables_of_sameOff hno s.pmm hoff).1] at hf
    have he : entry (Function.update s.mem y b) f i = entry s.mem f i :=
      entry_of_sameOff hoff (fun h => hno p (h ▸ hf)) hi
    dsimp only
    rw [he]
    exact hs.large p f i hp hlen hf hi
  · intro x hx
    obtain ⟨hc, hl, hspared⟩ := hs.pages x hx
    exact ⟨hc, hl, fun h hm => hspared h ((hmanaged h).mp hm)⟩
  · intro a' z ha' hz
    dsimp only at hz ⊢
    rw [hwalk a' (hs.segments a' ha')] at hz
    rw [hmanaged]
    refine ⟨(hs.apart a' z ha' hz).1, fun o ho => ?_⟩
    rw [hwalk _ (hs.buffer o ho).1]
    exact (hs.apart a' z ha' hz).2 o ho
  · intro o ho
    obtain ⟨hl, hne, z, hz⟩ := hs.buffer o ho
    refine ⟨hl, hne, z, (hwalk _ hl).trans hz.reach, fun hm => hz.data ((hmanaged _).mp hm), ?_⟩
    have hzy : z ≠ y := fun h => hbuffer o ho (h ▸ hz.reach)
    exact (Function.update_of_ne hzy b s.mem).trans hz.byte

/-- A page of the image that was mapped. -/
theorem LoadSpace.allocMapped (hs : LoadSpace live file buf n s) (hx : x ∈ visits file)
    (h : vmmAllocMap s x.1 perm = some (s', 0)) (hm : (tablesOf live s).mapped x.1 = false)
    (hd : AllocMapped live s s' (x.1 &&& pageMask) perm d) :
    LoadSpace live file buf n s' ∧
      tablesOf live s' = (tablesOf live s).setPage x.1 (rightsOf perm) := by
  obtain ⟨hc, hspared⟩ := hs.pages x hx
  have hpath := walkPath_mask hc
  have hkept : WindowsKept live s s' := by
    apply WindowsKept.step (c := .op (.allocMap x.1 perm)) hs.backed hs.next
    · intro v hv
      obtain ⟨w, hw⟩ := hv
      obtain ⟨rfl, -⟩ := Prod.mk.inj (Set.mem_singleton_iff.mp hw)
      unfold Spared
      rw [hpath]
      exact ⟨liveWalk_page hc hspared.1, hspared.2⟩
    · exact congrArg (Option.map Prod.fst) h
  have htree : tablesOf live s' = (tablesOf live s).setPage x.1 (rightsOf perm) := by
    rw [hd.tables]
    apply top_inj
    exact congrArg ((tablesOf live s).top.setPage (rightsOf perm)) (pagePath_eq_iff.mpr hpath)
  have hother (v : ℕ) (hl : LiveWalk live v) (hne : walkPath v ≠ walkPath x.1) {y : ℕ}
      (hy : translate s.mem s.pml4 v = some y) : translate s'.mem s'.pml4 v = some y := by
    apply hd.others v hl _ y hy
    rw [hpath]
    exact hne
  refine ⟨{ backed := hkept.backed, next := hkept.next, large := hd.large, pages := ?_
            segments := hs.segments, apart := ?_, reads := hs.reads, buffer := ?_ }, htree⟩
  · intro x' hx'
    obtain ⟨hc', hl', hspared'⟩ := hs.pages x' hx'
    exact ⟨hc', hl', fun h hm => hspared' h (hkept.managed h hm)⟩
  · intro a y ha hy
    have hl := hs.segments a ha
    by_cases hax : walkPath a = walkPath x.1
    · -- the page is the new one, and its frame was free
      have hca : Canonical a := by
        by_contra hno
        unfold translate at hy
        rw [if_pos hno] at hy
        cases hy
      rw [hd.here a hca hl (hax.trans hpath.symm)] at hy
      obtain rfl := Option.some.inj hy
      rw [show (d*4096 + a % 4096) / 4096 = d by omega]
      refine ⟨hd.taken, fun o ho hbuf => ?_⟩
      obtain ⟨hlo, hne, z, hz⟩ := hs.buffer o ho
      rw [hother _ hlo (fun h => hne x hx h.symm) hz.reach] at hbuf
      obtain rfl := Option.some.inj hbuf
      apply hz.data
      rw [show (d*4096 + a % 4096) / 4096 = d by omega]
      exact Or.inl hd.fresh
    · -- the page was present before, and leads where it did
      have hbefore : (translate s.mem s.pml4 a).isSome := by
        rw [← tablesOf_present hs.backed hl]
        have hvisit := PageTables.visits_present (v := a) [(x.1, rightsOf perm)] (tablesOf live s)
        have hset : [(x.1, rightsOf perm)].foldl PageTables.visit (tablesOf live s) =
            tablesOf live s' := by
          rw [htree, List.foldl_cons, List.foldl_nil]
          unfold PageTables.visit
          rw [hm, if_neg Bool.false_ne_true]
        rw [hset, tablesOf_present hkept.backed hl, hy] at hvisit
        refine (hvisit.mp rfl).resolve_right (fun hon => ?_)
        obtain ⟨-, x', hx', hax'⟩ := hon
        rw [List.mem_singleton.mp hx'] at hax'
        exact hax (pagePath_eq_iff.mp hax').symm
      obtain ⟨z, hz⟩ := Option.isSome_iff_exists.mp hbefore
      rw [hother a hl hax hz] at hy
      obtain rfl := Option.some.inj hy
      obtain ⟨hdata, hbuffer⟩ := hs.apart a z ha hz
      refine ⟨fun hman => hdata (hkept.managed _ hman), fun o ho hbuf => ?_⟩
      obtain ⟨hlo, hne, z', hz'⟩ := hs.buffer o ho
      rw [hother _ hlo (fun h => hne x hx h.symm) hz'.reach] at hbuf
      obtain rfl := Option.some.inj hbuf
      exact hbuffer o ho hz'.reach
  · intro o ho
    obtain ⟨hlo, hne, z, hz⟩ := hs.buffer o ho
    refine ⟨hlo, hne, z, hother _ hlo (fun h => hne x hx h.symm) hz.reach,
      fun hman => hz.data (hkept.managed _ hman), ?_⟩
    rw [← hz.byte]
    exact byte_of_entries (fun j hj => hd.data _ j hj hz.data)

/-- `vmm_is_mapped` and `vmm_alloc_map` of `vmm.c`, and memory behind the page tables, keep the laws
of the loader. -/
theorem vmmKernel_kept (live : List ℕ → Prop) (file : Mem) (buf n : ℕ) :
    TablesKept (vmmKernel buf) (LoadSpace live file buf n) (tablesOf live) file buf n where
  peek s hs o ho := by
    obtain ⟨-, -, x, hx⟩ := hs.buffer o ho
    change (translate s.mem s.pml4 ((buf + o) % 2^64)).map s.mem = _
    rw [hx.reach, Option.map_some, hx.byte]
  read s o hs ho := by
    change ((translate s.mem s.pml4 ((buf + o) % 2^64)).map s.mem).isSome ↔ _
    rw [Option.isSome_map, tablesOf_present hs.backed (hs.reads o ho)]
  write s a b hs ha := by
    change ((translate s.mem s.pml4 a).map _).isSome ↔ _
    rw [Option.isSome_map, tablesOf_present hs.backed (hs.segments a ha)]
  store s a b k hs ha h := by
    obtain ⟨y, hy, rfl⟩ := Option.map_eq_some_iff.mp h
    exact hs.store b ha hy
  query s x hs hx := by
    obtain ⟨hc, hl, -⟩ := hs.pages x hx
    exact hs.backed.vmmIsMapped_tablesOf hc hl
  alloc s x perm hs hx hperm hm := by
    obtain ⟨hc, hl, -⟩ := hs.pages x hx
    obtain ⟨s', r, h, hset⟩ := hs.backed.vmmAllocMap_tables hs.large (liveWalk_page hc hl) hperm
    refine ⟨s', r, h, fun hr => ?_⟩
    obtain ⟨d, hd⟩ := hset hr
    exact hs.allocMapped hx (hr ▸ h) hm hd

/-- The segments are open in the page tables when the page walk opens their bytes. -/
theorem LoadSpace.segmentsOpen_iff (hs : LoadSpace live file buf n s) :
    SegmentsOpen file (tablesOf live s) ↔ ∀ i k, Loads file i → k < memszOf file i →
      ∃ a, s.access ((vaddrOf file i + k) % 2^64) = some a ∧ a.user = true ∧
        (Writable file i → a.write = true) := by
  apply forall_congr'
  intro i
  apply forall_congr'
  intro k
  apply forall_congr'
  intro hi
  apply forall_congr'
  intro hk
  rw [tablesOf_rights (hs.segments _ ⟨i, k, hi, Or.inr hk, rfl⟩)]
  constructor
  · intro h
    obtain ⟨r, hr, hallow⟩ := h
    obtain ⟨a, ha, rfl⟩ := Option.map_eq_some_iff.mp hr
    exact ⟨a, ha, hallow⟩
  · intro h
    obtain ⟨a, ha, hallow⟩ := h
    exact ⟨⟨a.user, a.write⟩, by rw [ha]; rfl, hallow⟩

end Space

/-! ### A program in the second gigabyte -/

/-- Nothing is present in the second gigabyte. -/
theorem hugeSpace_second {a : ℕ} (h1 : 2^30 ≤ a) (h2 : a < 2^31) :
    translate hugeSpace.mem hugeSpace.pml4 a = none := by
  have hpml4 : vmmPml4Index a = 0 := by
    rw [vmmPml4Index_eq]
    omega
  have hpdpte : vmmPdpteIndex a = 1 := by
    rw [vmmPdpteIndex_eq]
    omega
  have hroot : load64 hugeSpace.mem (hugeSpace.pml4 + 8*0) = 17*4096 ||| 3 :=
    hugeSpace_entry (f := 16) (j := 0) (by decide)
  have hframe : frameOf (17*4096 ||| 3) = 17 := by decide
  have hentry : entry hugeSpace.mem 17 1 = 0 := hugeSpace_entry (by decide)
  have hc : Canonical a := Or.inl (by omega)
  unfold translate
  rw [if_neg (not_not.mpr hc), hpml4, hroot]
  dsimp only
  rw [if_neg (by decide), load_entry, hpdpte, hframe, hentry]
  rfl

/-- The machine with one page of 1 GB, and the image at 0x30000. -/
def programSpace : Vmm :=
  { hugeSpace with mem := fun x =>
      if 0x30000 ≤ x ∧ x < 0x31000 then oneInPage 0x40000000 (x - 0x30000)
      else hugeSpace.mem x }

theorem programSpace_visits : visits (oneInPage 0x40000000) = [(0x40000000, ⟨true, true⟩)] := by
  decide

/-- The load of a program to the second gigabyte keeps the laws. -/
theorem programSpace_loads : LoadSpace every (oneInPage 0x40000000) 0x30000 120 programSpace := by
  have hoff : SameOff {y | 48*4096 ≤ y ∧ y < 48*4096 + 4096} hugeSpace.mem programSpace.mem :=
    fun x hx => if_neg hx
  have hdata : ¬ hugeSpace.Managed every 48 := fun hm =>
    absurd (hugeSpace_managed hm).2 (by decide)
  obtain ⟨hback, -, hmanaged, hwalk⟩ := hugeSpace_backed.write_data hdata hoff
  have hbuffer (o : ℕ) (ho : o < 120) :
      translate programSpace.mem programSpace.pml4 ((0x30000 + o) % 2^64) = some (0x30000 + o) := by
    have hwindow := hugeSpace_window (f := 48) (by decide) o (by omega)
    rw [show (0x30000 + o) % 2^64 = 48*4096 + o by omega]
    exact (hwalk _ (liveWalk_every _)).trans hwindow
  have hpage (a : ℕ) (ha : a < 2^30) : walkPath 0x40000000 ≠ walkPath a := by
    intro he
    simp only [walkPath, List.cons.injEq, and_true, vmmPml4Index_eq, vmmPdpteIndex_eq,
      vmmPdIndex_eq, vmmPtIndex_eq] at he
    omega
  refine { backed := hback, next := by decide, large := ?_, pages := ?_
           segments := fun _ _ => liveWalk_every _, apart := ?_
           reads := fun _ _ => liveWalk_every _, buffer := ?_ }
  · intro p f i hp hlen hf hi
    have hno (q : List ℕ) : hugeSpace.table every q ≠ some 48 := fun hq => hdata (Or.inr ⟨q, hq⟩)
    rw [show programSpace.table every p = hugeSpace.table every p from
      (tables_of_sameOff hno hugeSpace.pmm hoff).1 p] at hf
    have he : entry programSpace.mem f i = entry hugeSpace.mem f i :=
      entry_of_sameOff hoff (fun h => hno p (h ▸ hf)) hi
    rw [he]
    exact hugeSpace_space.large p f i hp hlen hf hi
  · intro x hx
    rw [programSpace_visits] at hx
    rw [List.mem_singleton.mp hx]
    refine ⟨Or.inl (by decide), liveWalk_every _, fun h hm => ?_⟩
    have hlt := (hugeSpace_managed ((hmanaged h).mp hm)).2
    exact Ne.symm (hpage (h*4096) (by omega))
  · intro a x ha hx
    obtain ⟨i, k, hi, hk, rfl⟩ := ha
    obtain rfl := oneInPage_loads (by decide) hi
    have hvaddr : vaddrOf (oneInPage 0x40000000) 0 = 0x40000000 := by decide
    have hmemsz : memszOf (oneInPage 0x40000000) 0 = 16 := by decide
    have hfilesz : fileszOf (oneInPage 0x40000000) 0 = 8 := by decide
    rw [hfilesz, hmemsz] at hk
    have hnone : translate programSpace.mem programSpace.pml4
        ((vaddrOf (oneInPage 0x40000000) 0 + k) % 2^64) = none := by
      apply (hwalk _ (liveWalk_every _)).trans
      rw [hvaddr]
      exact hugeSpace_second (by omega) (by omega)
    rw [hnone] at hx
    cases hx
  · intro o ho
    refine ⟨liveWalk_every _, fun x hx => ?_, 0x30000 + o, hbuffer o ho, fun hm => ?_, ?_⟩
    · rw [programSpace_visits] at hx
      rw [List.mem_singleton.mp hx]
      exact hpage _ (by omega)
    · have hlt := (hugeSpace_managed ((hmanaged _).mp hm)).2
      omega
    · apply (if_pos ⟨Nat.le_add_right _ _, by omega⟩).trans
      rw [Nat.add_sub_cancel_left]

end SukiOS
