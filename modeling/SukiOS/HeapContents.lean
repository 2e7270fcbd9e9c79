import SukiOS.HeapTiling

/-! What `krealloc` and `kcalloc` do to the bytes of the allocations. -/
namespace SukiOS
open ByteMemory Transition

/-- The bytes of the payloads in use, other than that of `ptr`, are the same in `m`. -/
def Client.OthersKept (s : Client) (ptr : ℕ) (m : Mem) : Prop :=
  ∀ r ∈ s.live, r.1 ≠ ptr → ∀ i, i < s.payload r.1 → m (r.1 + i) = s.heap.mem (r.1 + i)

/-- The block behind `ptr` is still in use, with its size and its bytes. -/
structure Client.StillLive (s : Client) (ptr : ℕ) (h : Heap) : Prop where
  alloc : blkIsAlloc h.mem (ptr-blockHeaderSize) = true
  size : blkSize h.mem (ptr-blockHeaderSize) = blkSize s.heap.mem (ptr-blockHeaderSize)
  bytes : ∀ i, i < s.payload ptr → h.mem (ptr + i) = s.heap.mem (ptr + i)

section Contents
variable {s : Client} {bs bs' : List Block} {fl fl' : List ℕ} {h : Heap} {m m' : Mem} {b c : Block}
  {p ptr n i : ℕ}

/-- A byte of the payload of a live pointer lies in its block. -/
theorem ClientInv.payload_span (hi : ClientInv s bs fl) (hb : b ∈ bs)
    (hn : i < s.payload (b.addr+32)) :
    b.addr+32+i ∈ b.span := by
  rw [hi.payload_eq hb] at hn
  have hfin : b.fin = b.addr + b.size := rfl
  exact ⟨by omega, by omega⟩

/-- Writes to one block leave the payloads of the other pointers. -/
theorem ClientInv.othersKept (hi : ClientInv s bs fl) (hk : AllocatedKept bs s.heap.mem m)
    (hsame : ∀ d ∈ bs, d.alloc = true → d.addr+32 ≠ ptr → ∀ x ∈ d.span, m' x = m x) :
    s.OthersKept ptr m' := by
  intro r hr hne i hn
  obtain ⟨d, hd, hdr, hdt, -⟩ := hi.fits r hr
  rw [← hdr] at hn hne ⊢
  have hx := hi.payload_span hd hn
  exact (hsame d hd hdt hne _ hx).trans (hk d hd hdt _ hx)

theorem ClientInv.stillLive (hi : ClientInv s bs fl) (hh : HeapInv h bs' fl') (hb : b ∈ bs)
    (hbt : b.alloc = true) (hb' : b ∈ bs') (hk : AllocatedKept bs s.heap.mem h.mem) :
    s.StillLive (b.addr+32) h := by
  refine ⟨?_, ?_, fun i hn => hk b hb hbt _ (hi.payload_span hb hn)⟩
  · rw [blockHeaderSize, Nat.add_sub_cancel, hh.blkIsAlloc_eq hb', hbt]
  · rw [blockHeaderSize, Nat.add_sub_cancel, hh.blkSize_eq hb', hi.heap.blkSize_eq hb]

/-- The block that `kmalloc` hands out is apart from those in use before. -/
theorem HeapInv.taken_apart (hi : HeapInv h bs' fl') (hb : b ∈ bs') (hc : c ∈ bs')
    (hne : b.addr ≠ c.addr) : b.fin ≤ c.addr ∨ c.fin ≤ b.addr := by
  rcases hi.apart hb hc with rfl | h1 | h1
  · exact absurd rfl hne
  · exact Or.inl h1
  · exact Or.inr h1

/-- A pointer that `krealloc` moves: the old payload is copied, and nothing else in use changes. -/
theorem ClientInv.krealloc_moved (hi : ClientInv s bs fl) (hb : b ∈ bs) (hbt : b.alloc = true)
    {vmm : ℕ → Bool} {q : ℕ} (hk : kmalloc vmm s.heap n = some (h, q)) (hq : q ≠ 0)
    (hbig : b.size - 48 < n) :
    krealloc vmm s.heap (b.addr+32) n =
        some ({ h with mem := copy h.mem q (b.addr+32) (b.size-48) }, q) ∧
      (∀ i, i < b.size - 48 → copy h.mem q (b.addr+32) (b.size-48) (q + i) =
        s.heap.mem (b.addr+32+i)) ∧
      s.OthersKept (b.addr+32) (copy h.mem q (b.addr+32) (b.size-48)) := by
  obtain ⟨h1, p1, bs', fl', hk1, hh, he, -, hkept⟩ := kmalloc_full hi.heap vmm n
  obtain ⟨rfl, rfl⟩ := Prod.mk.inj (Option.some.inj (hk1.symm.trans hk))
  rcases he.layout with ⟨h0, -⟩ | ⟨best, rfl, hsize, hc⟩
  · exact absurd h0 hq
  have hts := (blockTotal_spec hsize).2.2.1
  have hmin := (hi.heap.inside b hb).min
  obtain ⟨c, hc', rfl, hct, hcs⟩ := hc.exists_taken
  have hcfin : c.fin = c.addr + c.size := rfl
  have hbfin : b.fin = b.addr + b.size := rfl
  -- the blocks in use before are still blocks, and none of them is the new one
  have happart : ∀ d ∈ bs, d.alloc = true → d.fin ≤ c.addr ∨ c.fin ≤ d.addr := fun d hd hdt =>
    hh.taken_apart ((hc.alloc_iff d hdt).1 hd) hc' (hc.fresh hi.heap hd hdt)
  have hoff := copy_sameOff h1.mem (c.addr+32) (b.addr+32) (b.size-48)
  have hcopy : HeapInv { h1 with mem := copy h1.mem (c.addr+32) (b.addr+32) (b.size-48) } bs'
    fl' := by
    apply hh.write_payload hc'
    refine hoff.mono (fun x hx => ?_)
    have h1 := hx.1
    have h2 := hx.2
    exact ⟨by omega, by omega⟩
  refine ⟨?_, fun i hn => ?_, ?_⟩
  · have hfree := kfree_of_alloc hcopy ((hc.alloc_iff b hbt).1 hb) hbt
    rw [krealloc_of_alloc hi.heap hb hk, if_neg (by omega), if_neg (by omega), if_neg hq, hfree]
  · have hsep := happart b hb hbt
    have hx : b.addr+32+i ∈ b.span := ⟨by omega, by omega⟩
    rw [copy_apply _ _ _ _ (by omega) hn]
    exact hkept b hb hbt _ hx
  · -- the copy is written to the new block
    apply hi.othersKept hkept
    intro d hd hdt _ x hx
    have hsep := happart d hd hdt
    have hx : d.addr ≤ x ∧ x < d.fin := hx
    apply hoff
    rintro ⟨h1, h2⟩
    omega

end Contents

/-- What a moved or kept pointer holds, and the other pointers in use; all of it on a failure. -/
theorem krealloc_contents {s : Client} (hr : heapSystem.Reachable s) {ptr : ℕ}
    (hp : ptr ∈ s.live.map Prod.fst) (vmm : ℕ → Bool) (n : ℕ) :
    ∃ h q, krealloc vmm s.heap ptr n = some (h, q) ∧
      (q ≠ 0 → (∀ i, i < min (s.payload ptr) n → h.mem (q + i) = s.heap.mem (ptr + i)) ∧
        s.OthersKept ptr h.mem) ∧
      (q = 0 → 0 < n → s.StillLive ptr h) := by
  obtain ⟨-, bs, fl, hi⟩ := client_reachable hr
  obtain ⟨b, hb, rfl, hbt⟩ := hi.live_block hp
  have hpay := hi.payload_eq hb
  obtain ⟨h, q, bs', fl', hk, hh, he, -, hkept⟩ := kmalloc_full hi.heap vmm n
  have hre := krealloc_of_alloc hi.heap hb hk
  have hsame : s.OthersKept (b.addr+32) s.heap.mem := fun _ _ _ _ _ => rfl
  -- a size of 0 frees the block
  by_cases hz : n = 0
  · rw [if_pos hz] at hre
    refine ⟨_, _, hre, fun h0 => absurd rfl h0, fun _ h0 => absurd hz (Nat.pos_iff_ne_zero.mp h0)⟩
  rw [if_neg hz] at hre
  -- the payload is large enough already
  by_cases hfit : n ≤ b.size - 48
  · rw [if_pos hfit] at hre
    exact ⟨_, _, hre, fun _ => ⟨fun _ _ => rfl, hsame⟩, fun h0 => absurd h0 (by omega)⟩
  rw [if_neg hfit] at hre
  -- no block was found and the old one is kept, or it moves
  by_cases hq : q = 0
  · rw [if_pos hq] at hre
    refine ⟨_, _, hre, fun h0 => absurd rfl h0, fun _ _ => ?_⟩
    rcases he.layout with ⟨-, rfl, -⟩ | ⟨best, hbest, -⟩
    · exact hi.stillLive hh hb hbt hb hkept
    · exact absurd hbest (by omega)
  · obtain ⟨hmoved, hbytes, hothers⟩ := hi.krealloc_moved hb hbt hk hq (by omega)
    refine ⟨_, _, hmoved, fun _ => ⟨fun i hn => hbytes i ?_, hothers⟩, fun h0 => absurd h0 hq⟩
    rw [hpay] at hn
    exact lt_of_lt_of_le hn (Nat.min_le_left _ _)

/-- Zeroed allocation: no pointer for a product over the limit, and no byte in use changes. -/
theorem kcalloc_contents {s : Client} (hr : heapSystem.Reachable s) (vmm : ℕ → Bool)
    (nmemb size : ℕ) :
    ∃ h q, kcalloc vmm s.heap nmemb size = some (h, q) ∧
      (q ≠ 0 → nmemb * size ≤ heapMaxAlloc ∧ ∀ i, i < nmemb * size → h.mem (q + i) = 0#8) ∧
      ∀ r ∈ s.live, ∀ i, i < s.payload r.1 → h.mem (r.1 + i) = s.heap.mem (r.1 + i) := by
  obtain ⟨-, bs, fl, hi⟩ := client_reachable hr
  -- no pointer in use is `NULL`, so the others than `NULL` are all of them
  suffices hothers : ∃ h q, kcalloc vmm s.heap nmemb size = some (h, q) ∧
      (q ≠ 0 → nmemb * size ≤ heapMaxAlloc ∧ ∀ i, i < nmemb * size → h.mem (q + i) = 0#8) ∧
      s.OthersKept 0 h.mem by
    obtain ⟨h, q, hk, hzero, hkept⟩ := hothers
    refine ⟨h, q, hk, hzero, fun r hr => hkept r hr ?_⟩
    obtain ⟨d, hd, hdr, -⟩ := hi.fits r hr
    omega
  have hsame : s.OthersKept 0 s.heap.mem := fun _ _ _ _ _ => rfl
  unfold kcalloc
  by_cases hz : nmemb = 0 ∨ size = 0
  · rw [if_pos hz]
    exact ⟨_, _, rfl, fun h0 => absurd rfl h0, hsame⟩
  rw [if_neg hz]
  -- the product is over the limit, or `kmalloc` is asked for it
  by_cases hbig : heapMaxAlloc / nmemb < size
  · rw [if_pos hbig]
    exact ⟨_, _, rfl, fun h0 => absurd rfl h0, hsame⟩
  rw [if_neg hbig]
  obtain ⟨h, q, bs', fl', hk, hh, he, -, hkept⟩ := kmalloc_full hi.heap vmm (nmemb*size)
  rw [hk]
  dsimp only
  rcases he.layout with ⟨rfl, -⟩ | ⟨best, rfl, hsize, hc⟩
  · rw [if_pos rfl]
    exact ⟨_, _, rfl, fun h0 => absurd rfl h0, hi.othersKept hkept (fun _ _ _ _ _ _ => rfl)⟩
  rw [if_neg (by omega)]
  have hts := (blockTotal_spec hsize).2.2.1
  obtain ⟨c, hc', rfl, hct, hcs⟩ := hc.exists_taken
  have hcfin : c.fin = c.addr + c.size := rfl
  refine ⟨_, _, rfl, fun _ => ⟨hsize, fun i hn => ?_⟩, ?_⟩
  · exact (fill_apply _ _ _ _ _).trans (if_pos (by omega))
  · -- the zeros are written to the new block
    apply hi.othersKept hkept
    intro d hd hdt _ x hx
    have hsep := hh.taken_apart ((hc.alloc_iff d hdt).1 hd) hc' (hc.fresh hi.heap hd hdt)
    have hx : d.addr ≤ x ∧ x < d.fin := hx
    apply fill_sameOff
    rintro ⟨h1, h2⟩
    omega

/-- Along every run `krealloc` keeps what it is given, `kcalloc` hands out zeros, and neither
changes another payload in use. -/
theorem contents_preserved {s : Client} (hr : heapSystem.Reachable s) (vmm : ℕ → Bool) :
    (∀ ptr ∈ s.live.map Prod.fst, ∀ n, ∃ h q, krealloc vmm s.heap ptr n = some (h, q) ∧
      (q ≠ 0 → (∀ i, i < min (s.payload ptr) n → h.mem (q + i) = s.heap.mem (ptr + i)) ∧
        s.OthersKept ptr h.mem) ∧
      (q = 0 → 0 < n → s.StillLive ptr h)) ∧
    ∀ nmemb size, ∃ h q, kcalloc vmm s.heap nmemb size = some (h, q) ∧
      (q ≠ 0 → nmemb * size ≤ heapMaxAlloc ∧ ∀ i, i < nmemb * size → h.mem (q + i) = 0#8) ∧
      ∀ r ∈ s.live, ∀ i, i < s.payload r.1 → h.mem (r.1 + i) = s.heap.mem (r.1 + i) :=
  ⟨fun _ hp n => krealloc_contents hr hp vmm n, kcalloc_contents hr vmm⟩

theorem contents_preserved_first_run : ∃ s : Client, (vmmHeapBase+32, 100) ∈ s.live ∧
    ∃ h q, krealloc (fun _ => true) s.heap (vmmHeapBase+32) 200 = some (h, q) ∧
      (q ≠ 0 → (∀ i, i < min (s.payload (vmmHeapBase+32)) 200 →
        h.mem (q + i) = s.heap.mem (vmmHeapBase+32 + i)) ∧ s.OthersKept (vmmHeapBase+32) h.mem) ∧
      (q = 0 → 0 < 200 → s.StillLive (vmmHeapBase+32) h) := by
  obtain ⟨h, -, hr⟩ := exists_first_run (fun _ => 0#8) (n := 100) (by decide) (by decide)
  exact ⟨_, List.mem_cons_self,
    (contents_preserved hr (fun _ => true)).1 (vmmHeapBase+32) List.mem_cons_self 200⟩

end SukiOS
