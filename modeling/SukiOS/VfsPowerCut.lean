import SukiOS.Fat32Remount
import SukiOS.VfsStoreRuns

/-! Switching the machine off between two calls: the next mount finds the same table and the same
entries, so nothing is lost but the bytes whose length is not on record. -/
namespace SukiOS.Fat32
open ByteMemory Services FileStore

/-! ### What the disk keeps -/

/-- The disk has the boot sector of `disk` and the table of the volume, which ends where the FAT
does. -/
structure Durable (fs : Fs) (disk : Mem) (v : Vol) : Prop where
  boot : ∀ a, a < 512 → v.disk a = disk a
  tail : ∀ y, 128 * fs.fatSizeSectors ≤ y → v.fatGet y = 0
  onDisk : FatOnDisk fs v

section Keep
variable {fs : Fs} {root : List ℕ} {own : Set ℕ} {disk : Mem} {v v' : Vol} {L : List ℕ} {o n : ℕ}
  {e : Slot} {name src : List Byte} {now : Stamp}

/-- The mounted volume. -/
theorem Durable.of_mount (hfits : fs.Fits) (hm : fat32Mount disk = some (fs, v)) :
    Durable fs disk v := by
  obtain ⟨boot, -, -, -, -, -, -, rfl⟩ := mount_cases hm
  refine ⟨fun a _ => rfl, fun y hy => ?_, fun j hj x hx => ?_⟩
  · apply load_zero
    intro x hx
    dsimp only
    rw [diskRead_apply, if_neg (by omega)]
  · have hsec := hfits.fatSector_eq hj
    unfold fatSector at hsec
    dsimp only
    rw [diskRead_apply, sector_div _ _ hx, if_pos hj, hsec]
    congr 1
    omega

/-- The disk is mounted to the volume itself. -/
theorem Durable.mount (hfits : fs.Fits) (hm : fat32Mount disk = some (fs, v))
    (hd : Durable fs disk v') : fat32Mount v'.disk = some (fs, v') := by
  have htable : diskRead v'.disk fs.fatStartSector (fun _ => 0#8) fs.fatSizeSectors = v'.fat := by
    funext x
    rw [diskRead_apply]
    by_cases hx : x / 512 < fs.fatSizeSectors
    · have hsec := hfits.fatSector_eq hx
      unfold fatSector at hsec
      rw [if_pos hx, hsec, hd.onDisk _ hx _ (Nat.mod_lt _ (by decide))]
      congr 1
      omega
    · have hzero := hd.tail (x/4) (by omega)
      rw [if_neg hx, byte_of_load_zero hzero (by omega) (by omega)]
  rw [mount_again hm hd.boot, htable]

/-- A write inside the clusters of a file touches neither the boot sector nor the FAT. -/
theorem Durable.put (hf : fs.Ok) (hfits : fs.Fits) (hd : Durable fs disk v)
    (hput : PutAt fs v v' L o src) (hL : ∀ y ∈ L, fs.IsData y) : Durable fs disk v' where
  boot := by
    intro a ha
    rw [← hd.boot a ha]
    apply hput.disk
    intro y hy k hk he
    have hsec := hfits.sector_ne_zero (hL y hy) hk
    omega
  tail := by
    intro y hy
    rw [fatGet_congr hput.fat]
    exact hd.tail y hy
  onDisk := by
    intro j hj x hx
    rw [hput.fat, ← hd.onDisk j hj x hx]
    apply hput.disk
    intro y hy k hk he
    rw [sector_div _ _ hx, ← hfits.fatSector_eq hj] at he
    exact hf.apart.fat y k j (hL y hy) hk hj he.symm

theorem Durable.close (hf : fs.Ok) (hfits : fs.Fits) (hw : Wf fs root own v)
    (hd : Durable fs disk v) {file : File} (hc : fat32Close fs v file now = some v') :
    Durable fs disk v' := by
  obtain ⟨w, hw', hfat, -, -⟩ := close_same hf hw file now
  obtain rfl := Option.some.inj (hw'.symm.trans hc)
  obtain ⟨hon, hboot⟩ := close_flushed hf hfits hw hc
  refine ⟨fun a ha => (hboot a ha).trans (hd.boot a ha), fun y hy => ?_, hon⟩
  rw [fatGet_congr hfat]
  exact hd.tail y hy

theorem Durable.create (hf : fs.Ok) (hfits : fs.Fits) (hw : Wf fs root own v)
    (hd : Durable fs disk v) (hcr : Created fs root name now v v' n e) : Durable fs disk v' where
  boot := fun a ha => (hcr.put.boot hfits (hw.root_isData hcr.mem) ha).trans (hd.boot a ha)
  tail := by
    intro y hy
    have hne : y ≠ n := by
      rintro rfl
      exact not_data_of_tail hf hy hcr.data
    rw [hcr.fat, if_neg hne]
    exact hd.tail y hy
  onDisk := hcr.put.onDisk hfits

theorem Durable.delete (hfits : fs.Fits) (hw : Wf fs root own v) (hd : Durable fs disk v)
    (hdel : Deleted fs root name v v' L e) : Durable fs disk v' where
  boot := fun a ha => (hdel.put.boot hfits (hw.root_isData hdel.used.1) ha).trans (hd.boot a ha)
  tail := by
    intro y hy
    rw [hdel.fat, hd.tail y hy]
    exact ite_self 0
  onDisk := hdel.put.onDisk hfits

end Keep

/-! ### The calls -/

section Calls
variable {fs : Fs} {root : List ℕ} {disk : Mem} {v : Vol} {σ : Store (List Byte) Byte} {s s' : Vfs}
  {c : FileCall} {r : Answer Byte}

/-- A careful program never leaves the table in memory only. -/
theorem Durable.call (hf : fs.Ok) (hfits : fs.Fits) (hr : Represents fs root σ s)
    (hd : Durable fs disk s.vol) (hc : CarefulCall fs σ c)
    (hcall : fileCall fs s c = some (s', r)) :
    Durable fs disk s'.vol := by
  obtain ⟨own, hw⟩ := hr.holds.wf
  obtain ⟨hname, ha⟩ := hc
  cases c with
  | «open» path =>
    obtain ⟨o, hopen, ho⟩ := Option.map_eq_some_iff.mp hcall
    cases o with
    | none =>
      obtain ⟨rfl, -⟩ := Prod.mk.inj ho
      exact hd
    | some q =>
      obtain ⟨q, fd⟩ := q
      obtain ⟨rfl, -⟩ := Prod.mk.inj ho
      obtain ⟨-, -, -, -, -, -, -, rfl⟩ := vfsOpen_iff.mp hopen
      exact hd
  | read fd count =>
    obtain ⟨rfl, -⟩ := Prod.mk.inj (Option.some.inj hcall)
    unfold vfsRead
    split
    · exact hd
    · exact hd
  | write fd src =>
    obtain ⟨rfl, -⟩ := Prod.mk.inj (Option.some.inj hcall)
    unfold vfsWrite
    rcases hr.cases fd with ⟨hnone, -⟩ | ⟨d, h, f, e, hsome, -, hat, ho⟩
    · rw [hnone]
      exact hd
    · rw [hsome]
      obtain ⟨L, hent, -, -, hwr⟩ := hr.written hf ha hat ho
      dsimp only
      rw [ho.pos]
      exact hd.put hf hfits hwr.put (fun y hy => hent.stored.chain.isData hy)
  | close fd now =>
    obtain ⟨q, hclose, hq⟩ := Option.map_eq_some_iff.mp hcall
    obtain ⟨rfl, -⟩ := Prod.mk.inj hq
    unfold vfsClose at hclose
    split at hclose
    · rw [← Option.some.inj hclose]
      exact hd
    · obtain ⟨v', hv', rfl⟩ := Option.map_eq_some_iff.mp hclose
      exact hd.close hf hfits hw hv'
  | getSize fd =>
    obtain ⟨rfl, -⟩ := Prod.mk.inj (Option.some.inj hcall)
    exact hd
  | create path now now' =>
    obtain ⟨q, hcreate, hq⟩ := Option.map_eq_some_iff.mp hcall
    obtain ⟨rfl, -⟩ := Prod.mk.inj hq
    cases path with
    | nil =>
      rw [← Option.some.inj hcreate]
      exact hd
    | cons c p =>
      unfold vfsCreate at hcreate
      dsimp only at hcreate
      split at hcreate
      · next hslash =>
        obtain ⟨w, hw', rfl⟩ := Option.map_eq_some_iff.mp hcreate
        unfold fat32VfsCreate at hw'
        rcases create_cases hf hw p now with hn | ⟨slot, n, v1, hs, hcr⟩
        · rw [hn] at hw'
          rw [← Option.some.inj hw']
          exact hd
        · rw [hs] at hw'
          dsimp only [Option.bind_eq_bind, Option.bind_some] at hw'
          obtain ⟨v2, hv2, hw'⟩ := Option.bind_eq_some_iff.mp hw'
          rw [← Option.some.inj hw']
          have hp : IsCString p := fun d hd => hname.1 d (List.mem_cons_of_mem c hd)
          exact (hd.create hf hfits hw hcr).close hf hfits (hw.create hf hcr hp) hv2
      · rw [← Option.some.inj hcreate]
        exact hd
  | delete path =>
    obtain ⟨q, hdelete, hq⟩ := Option.map_eq_some_iff.mp hcall
    obtain ⟨rfl, -⟩ := Prod.mk.inj hq
    cases path with
    | nil =>
      rw [← Option.some.inj hdelete]
      exact hd
    | cons c p =>
      unfold vfsDelete at hdelete
      dsimp only at hdelete
      split at hdelete
      · obtain ⟨w, hw', rfl⟩ := Option.map_eq_some_iff.mp hdelete
        rcases delete_cases hf hw p with ⟨hn, -⟩ | ⟨slot, L, v', hs, hdel⟩
        · rw [hn] at hw'
          rw [← Option.some.inj hw']
          exact hd
        · rw [hs] at hw'
          rw [← Option.some.inj hw']
          exact hd.delete hfits hw hdel
      · rw [← Option.some.inj hdelete]
        exact hd

/-- After a power cut the volume holds what is on record. -/
theorem Represents.recovered (hr : Represents fs root σ s) :
    Represents fs root σ.recovered { vol := s.vol, fds := fun _ => none } where
  ok := hr.ok.recovered
  holds := by
    refine { wf := hr.holds.wf, distinct := hr.holds.distinct, entry := fun e hu => ?_
             name := fun k f hk => ?_, blocks := hr.holds.blocks, entries := hr.holds.entries }
    · obtain ⟨f, L, he⟩ := hr.holds.entry e hu
      have hsaved := hr.ok.saved_le _ f he.file
      have hlen : (f.content.take f.saved).length = f.saved := List.length_take_of_le hsaved
      have hfits := he.stored.fits
      refine ⟨_, L, Store.recovered_file he.file, ⟨he.stored.chain, he.stored.blocks, ?_, ?_⟩,
        he.size, ?_⟩
      · dsimp only
        omega
      · intro p hp
        dsimp only at hp ⊢
        rw [he.stored.bytes p (by omega), List.getD_eq_getElem?_getD, List.getD_eq_getElem?_getD,
          List.getElem?_take_of_lt (by omega)]
      · exact lt_of_le_of_lt (hlen.trans_le hsaved) he.small
    · obtain ⟨g, hg, -⟩ := Option.map_eq_some_iff.mp hk
      exact hr.holds.name k g hg
  closed := fun i => ⟨fun _ => rfl, fun _ => rfl⟩
  opened := fun i d h hd => nomatch hd

end Calls

/-! ### Sessions -/

/-- The file layer with the file system that it has mounted. -/
def mountedService : Service (Fs × Vfs) FileCall (Answer Byte) where
  call s c := (fileCall s.1 s.2 c).map fun r => ((s.1, r.1), r.2)

/-- The machine starts again with what is on the disk: the disk is mounted, and no file is open. -/
def powerCycle (s : Fs × Vfs) : Option (Fs × Vfs) :=
  (fat32Mount s.2.vol.disk).map fun m => (m.1, { vol := m.2, fds := fun _ => none })

section Sessions
variable {fs : Fs} {root : List ℕ} {disk : Mem} {v : Vol} {σ : Store (List Byte) Byte}

/-- In every sequence of careful runs, with the power cut after each, the calls return what the
store returns that loses the bytes not on record at each cut, and each mount succeeds. -/
theorem power_cuts_answer (hm : fat32Mount disk = some (fs, v)) (hsmall : SmallVolume disk)
    (hc : fs.Covers) (hr : Represents fs root σ { vol := v, fds := fun _ => none })
    {runs : List (List FileCall)}
    (hp : (service (List Byte) Byte maxFds).PermitsSessions FileCall.abstract (CarefulCall fs)
      (fun σ => some σ.recovered) σ runs) :
    ∃ σ' s' answers, (service (List Byte) Byte maxFds).sessions (fun σ => some σ.recovered) σ
        (runs.map (List.map FileCall.abstract)) = some (σ', answers) ∧
      mountedService.sessions powerCycle (fs, { vol := v, fds := fun _ => none }) runs =
        some ((fs, s'), answers) ∧ Represents fs root σ' s' := by
  have hfits := hsmall.fits hm
  have hf : fs.Ok := Fs.Mounted.ok ⟨disk, v, hm⟩ hc hfits.apart
  let R (σ : Store (List Byte) Byte) (s : Fs × Vfs) : Prop :=
    s.1 = fs ∧ Represents fs root σ s.2 ∧ Durable fs disk s.2.vol
  have hcalls : Implements mountedService (service (List Byte) Byte maxFds) FileCall.abstract
      (CarefulCall fs) R := by
    intro σ s c hR hcareful
    obtain ⟨s1, s2⟩ := s
    obtain ⟨rfl, hr, hd⟩ := hR
    obtain ⟨σ', s', r, ha, hcall, hr'⟩ := implements_store hf root σ s2 c hr hcareful
    have hcall : fileCall s1 s2 c = some (s', r) := hcall
    refine ⟨σ', (s1, s'), r, ha, ?_, rfl, hr', hd.call hf hfits hr hcareful hcall⟩
    show (fileCall s1 s2 c).map _ = _
    rw [hcall]
    rfl
  have hcut : ∀ σ s, R σ s → ∃ σ' s', some σ.recovered = some σ' ∧ powerCycle s = some s' ∧
    R σ' s' := by
    intro σ s hR
    obtain ⟨s1, s2⟩ := s
    obtain ⟨rfl, hr, hd⟩ := hR
    refine ⟨σ.recovered, (s1, { vol := s2.vol, fds := fun _ => none }), rfl, ?_, rfl, hr.recovered,
      hd⟩
    show (fat32Mount s2.vol.disk).map _ = _
    rw [hd.mount hfits hm]
    rfl
  obtain ⟨σ', s', answers, ha, hs, rfl, hr', -⟩ :=
    hcalls.sessions hcut (a := σ) (s := (fs, _)) ⟨rfl, hr, .of_mount hfits hm⟩ hp
  exact ⟨σ', s'.2, answers, ha, hs, hr'⟩

end Sessions

/-- The file of the sample run is written before the power cut and read after it. -/
theorem power_cuts_answer_sample : ∃ s', mountedService.sessions powerCycle (sampleFs, sampleVfs)
      [sampleCalls, [.open pathA, .read 0 2]] =
    some ((sampleFs, s'), [[⟨0, []⟩, ⟨0, []⟩, ⟨2, []⟩, ⟨0, []⟩, ⟨0, []⟩, ⟨2, [7#8, 8#8]⟩],
      [⟨0, []⟩, ⟨2, [7#8, 8#8]⟩]]) := by
  have hname : openName pathA = some (toShort [65#8]) := by decide
  have hp : (service (List Byte) Byte maxFds).PermitsSessions FileCall.abstract
      (CarefulCall sampleFs) (fun σ => some σ.recovered) emptyStore
      [sampleCalls, [.open pathA, .read 0 2]] := by
    refine ⟨sampleCalls_permitted, fun r hr a' ha' => ⟨?_, fun _ _ _ _ => trivial⟩⟩
    obtain rfl := Option.some.inj ha'
    obtain rfl := Option.some.inj hr
    simp only [service_permits_cons]
    refine ⟨⟨trivial, ?_⟩, ⟨trivial, by decide, ?_⟩, trivial⟩
    · intro k hk f hf
      obtain rfl := Option.some.inj (hname.symm.trans hk)
      obtain rfl : (⟨[7#8, 8#8], 2, 1⟩ : FileState Byte) = f := Option.some.inj hf
      rfl
    · intro h f hat
      obtain ⟨rfl, rfl⟩ : (⟨toShort [65#8], 0⟩ : Cursor (List Byte)) = h ∧
        (⟨[7#8, 8#8], 2, 1⟩ : FileState Byte) = f := Prod.mk.inj (Option.some.inj hat)
      decide
  obtain ⟨σ', s', answers, hrun, hrun', -⟩ :=
    power_cuts_answer sample_mount sample_small sample_ok.covers emptyStore_represents hp
  have hanswers : answers = [[⟨0, []⟩, ⟨0, []⟩, ⟨2, []⟩, ⟨0, []⟩, ⟨0, []⟩, ⟨2, [7#8, 8#8]⟩],
      [⟨0, []⟩, ⟨2, [7#8, 8#8]⟩]] := (Prod.mk.inj (Option.some.inj hrun)).2.symm
  exact ⟨s', hanswers ▸ hrun'⟩

end SukiOS.Fat32
