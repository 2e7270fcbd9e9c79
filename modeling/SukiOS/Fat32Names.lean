import SukiOS.Lib.Transition
import SukiOS.Fat32Ops

/-! The names in the root directory under `fat32_create_file` and `fat32_delete`. Creating does not
look for the name, so the names stay different only where the caller has looked for it first. -/
namespace SukiOS.Fat32
open ByteMemory Transition

/-- A string has no zero byte. -/
def IsCString (s : List Byte) : Prop := ∀ c ∈ s, c ≠ 0#8

instance (s : List Byte) : Decidable (IsCString s) := inferInstanceAs (Decidable (∀ c ∈ s, c ≠ 0#8))

inductive NameOp where
  | create (name : List Byte) (now : Stamp)
  | delete (name : List Byte)

def NameOp.name : NameOp → List Byte
  | .create name _ => name
  | .delete name => name

/-- The volume after the operation, and whether it returned 0. -/
def nameApply (fs : Fs) (v : Vol) : NameOp → Option (Vol × Bool)
  | .create name now => (fat32CreateFile fs v name now).map (fun r =>
      match r with
      | none => (v, false)
      | some (v', _) => (v', true))
  | .delete name => (fat32Delete fs v name).map (fun r =>
      match r with
      | none => (v, false)
      | some v' => (v', true))

/-- The volume after an operation that returns. -/
def nameAfter (fs : Fs) (v : Vol) (op : NameOp) : Vol :=
  match nameApply fs v op with
  | none => v
  | some r => r.1

/-- Runs from the volume `v0`. -/
def nameSystem (fs : Fs) (v0 : Vol) : System Vol NameOp where
  init v := v = v0
  step v op v' := IsCString op.name ∧ ∃ ok, nameApply fs v op = some (v', ok)

/-- The name in capital letters. -/
def foldedName (fs : Fs) (v : Vol) (e : Slot) : List Byte :=
  (entName (readCluster fs v e.1) e.2).map upper

/-- No two entries in use have the same 11-byte name. -/
def NamesDistinct (fs : Fs) (root : List ℕ) (v : Vol) : Prop :=
  ∀ e e', Used fs v root e → Used fs v root e' →
    entName (readCluster fs v e.1) e.2 = entName (readCluster fs v e'.1) e'.2 → e = e'

/-- No two entries in use have the same name in capital letters. -/
def FoldedDistinct (fs : Fs) (root : List ℕ) (v : Vol) : Prop :=
  ∀ e e', Used fs v root e → Used fs v root e' → foldedName fs v e = foldedName fs v e' → e = e'

/-- `fat32_open` does not find the name that is to be created. -/
def FreshCreate (fs : Fs) (v : Vol) : NameOp → Prop
  | .create name _ => fat32Open fs v name = some none
  | .delete _ => True

/-- The operation creates a file with the short name of `name`. -/
def Recreates (fs : Fs) (name : List Byte) (v : Vol) (op : NameOp) : Prop :=
  ∃ name' now v', op = .create name' now ∧ toShort name' = toShort name ∧
    nameApply fs v op = some (v', true)

/-- No entry in use has the short name of `name`. -/
def Absent (fs : Fs) (root : List ℕ) (name : List Byte) (v : Vol) : Prop :=
  ∀ e, Used fs v root e → foldedName fs v e ≠ toShort name

section Names
variable {fs : Fs} {root : List ℕ} {own : Set ℕ} {v v' v0 : Vol} {name : List Byte} {op : NameOp}
  {n : ℕ} {s : Slot} {now : Stamp} {L : List ℕ}

theorem FoldedDistinct.distinct (h : FoldedDistinct fs root v) : NamesDistinct fs root v :=
  fun e e' he he' heq => h e e' he he' (congrArg (List.map upper) heq)

theorem nameMatches_iff (e : Slot) :
    nameMatches (toShort name) (readCluster fs v e.1) e.2 = true ↔
      foldedName fs v e = toShort name := beq_iff_eq

theorem absent_iff (hf : fs.Ok) (hw : Wf fs root own v) :
    fat32Open fs v name = some none ↔ Absent fs root name v := by
  rw [fat32Open_none_iff]
  rcases hw.findEntry_cases hf (nameMatches (toShort name)) with ⟨hn, hall⟩ | ⟨e, hs, hu, hp, -⟩
  · refine ⟨fun _ e he hfold => ?_, fun _ => hn⟩
    exact nomatch (hall e he).symm.trans ((nameMatches_iff e).mpr hfold)
  · rw [hs]
    refine ⟨(fun h => nomatch h), fun h => ?_⟩
    exact absurd ((nameMatches_iff e).mp hp) (h e hu)

/-- What an operation of a run does. -/
theorem nameApply_cases (hf : fs.Ok) (hw : Wf fs root own v) (hstr : IsCString op.name) {ok : Bool}
    (h : nameApply fs v op = some (v', ok)) :
    v' = v ∧ ok = false ∨
    (∃ name now n s, op = .create name now ∧ ok = true ∧ Created fs root name now v v' n s) ∨
    (∃ name L s, op = .delete name ∧ ok = true ∧ Deleted fs root name v v' L s) := by
  cases op with
  | create name now =>
    simp only [nameApply] at h
    rcases create_cases hf hw name now with hn | ⟨s, n, w, hs, hc⟩
    · rw [hn] at h
      obtain ⟨rfl, rfl⟩ := Prod.mk.inj (Option.some.inj h)
      exact Or.inl ⟨rfl, rfl⟩
    · rw [hs] at h
      obtain ⟨rfl, rfl⟩ := Prod.mk.inj (Option.some.inj h)
      exact Or.inr (Or.inl ⟨name, now, n, s, rfl, rfl, hc⟩)
  | delete name =>
    simp only [nameApply] at h
    rcases delete_cases hf hw name with ⟨hn, -⟩ | ⟨s, L, w, hs, hd⟩
    · rw [hn] at h
      obtain ⟨rfl, rfl⟩ := Prod.mk.inj (Option.some.inj h)
      exact Or.inl ⟨rfl, rfl⟩
    · rw [hs] at h
      obtain ⟨rfl, rfl⟩ := Prod.mk.inj (Option.some.inj h)
      exact Or.inr (Or.inr ⟨name, L, s, rfl, rfl, hd⟩)

theorem Created.foldedName (hf : fs.Ok) (hw : Wf fs root own v)
    (h : Created fs root name now v v' n s) : foldedName fs v' s = toShort name := by
  unfold Fat32.foldedName
  rw [(h.entry hf hw).1]
  exact toShort_upper name

theorem OtherEntries.foldedName {e : Slot} (h : OtherEntries fs root v v' s)
    (hu : Used fs v root e) (hne : e ≠ s) : foldedName fs v' e = foldedName fs v e := by
  unfold Fat32.foldedName
  rw [(h.entry hu.1 hu.2.1 hne).1]

/-- The other names stay when a file is created. -/
theorem Created.foldedName_old (hf : fs.Ok) (hw : Wf fs root own v)
    (h : Created fs root name now v v' n s) {e : Slot} (hu : Used fs v root e) :
    Fat32.foldedName fs v' e = Fat32.foldedName fs v e := by
  apply (h.others hf hw).foldedName hu
  rintro rfl
  exact not_used_of_free h.slotFree hu

theorem FoldedDistinct.create (hf : fs.Ok) (hw : Wf fs root own v) (hd : FoldedDistinct fs root v)
    (h : Created fs root name now v v' n s) (hstr : IsCString name)
    (habs : Absent fs root name v) : FoldedDistinct fs root v' := by
  intro e e' he he' heq
  rcases (h.used_iff hf hw hstr).mp he with ⟨rfl, -⟩ | hu
  · rcases (h.used_iff hf hw hstr).mp he' with ⟨rfl, -⟩ | hu'
    · rfl
    · rw [h.foldedName hf hw, h.foldedName_old hf hw hu'] at heq
      exact absurd heq.symm (habs e' hu')
  · rcases (h.used_iff hf hw hstr).mp he' with ⟨rfl, -⟩ | hu'
    · rw [h.foldedName hf hw, h.foldedName_old hf hw hu] at heq
      exact absurd heq (habs e hu)
    · rw [h.foldedName_old hf hw hu, h.foldedName_old hf hw hu'] at heq
      exact hd e e' hu hu' heq

theorem FoldedDistinct.delete (hf : fs.Ok) (hw : Wf fs root own v) (hd : FoldedDistinct fs root v)
    (h : Deleted fs root name v v' L s) : FoldedDistinct fs root v' := by
  intro e e' he he' heq
  obtain ⟨hne, hu⟩ := (h.used_iff hf hw).mp he
  obtain ⟨hne', hu'⟩ := (h.used_iff hf hw).mp he'
  rw [(h.others hf hw).foldedName hu hne, (h.others hf hw).foldedName hu' hne'] at heq
  exact hd e e' hu hu' heq

/-- What holds along the runs. -/
def NamesInv (fs : Fs) (root : List ℕ) (v : Vol) : Prop :=
  (∃ own, Wf fs root own v) ∧ FoldedDistinct fs root v

theorem NamesInv.step (hf : fs.Ok) (hi : NamesInv fs root v) (hc : FreshCreate fs v op)
    (hs : (nameSystem fs v0).step v op v') : NamesInv fs root v' := by
  obtain ⟨⟨own, hw⟩, hd⟩ := hi
  obtain ⟨hstr, ok, ha⟩ := hs
  rcases nameApply_cases hf hw hstr ha with
    ⟨rfl, -⟩ | ⟨name, now, n, s, rfl, -, hcr⟩ | ⟨name, L, s, rfl, -, hdel⟩
  · exact ⟨⟨own, hw⟩, hd⟩
  · exact ⟨⟨_, hw.create hf hcr hstr⟩, hd.create hf hw hcr hstr ((absent_iff hf hw).mp hc)⟩
  · exact ⟨⟨_, hw.delete hf hdel⟩, hd.delete hf hw hdel⟩

/-- Deleting the only entry with the name. -/
theorem Absent.of_deleted (hf : fs.Ok) (hw : Wf fs root own v) (hd : FoldedDistinct fs root v)
    (h : Deleted fs root name v v' L s) : Absent fs root name v' := by
  intro e he hfold
  obtain ⟨hne, hu⟩ := (h.used_iff hf hw).mp he
  rw [(h.others hf hw).foldedName hu hne] at hfold
  have hs := (nameMatches_iff s).mp ((hw.findEntry_iff hf).mp h.found).2.1
  exact hne (hd e s hu h.used (hfold.trans hs.symm))

theorem Absent.step (hf : fs.Ok) (hw : Wf fs root own v) (habs : Absent fs root name v)
    (hr : ¬ Recreates fs name v op) (hs : (nameSystem fs v0).step v op v') :
    Absent fs root name v' := by
  obtain ⟨hstr, ok, ha⟩ := hs
  rcases nameApply_cases hf hw hstr ha with
    ⟨rfl, -⟩ | ⟨name', now, n, s, rfl, rfl, hcr⟩ | ⟨name', L, s, rfl, -, hdel⟩
  · exact habs
  · intro e he hfold
    rcases (hcr.used_iff hf hw hstr).mp he with ⟨rfl, -⟩ | hu
    · rw [hcr.foldedName hf hw] at hfold
      exact hr ⟨name', now, v', rfl, hfold, ha⟩
    · rw [hcr.foldedName_old hf hw hu] at hfold
      exact habs e hu hfold
  · intro e he hfold
    obtain ⟨hne, hu⟩ := (hdel.used_iff hf hw).mp he
    rw [(hdel.others hf hw).foldedName hu hne] at hfold
    exact habs e hu hfold

/-- Where each name is looked for before it is created, the names stay different, and a deleted
name is not found until it is created again. -/
theorem names_unique (hf : fs.Ok) (hw : Wf fs root own v0) (hd : FoldedDistinct fs root v0)
    (hr : ((nameSystem fs v0).restrict (FreshCreate fs)).Reachable v) :
    NamesDistinct fs root v ∧
    ∀ name v1, nameApply fs v (.delete name) = some (v1, true) → ∀ v2,
      ((nameSystem fs v1).restrict
        (fun v op => FreshCreate fs v op ∧ ¬ Recreates fs name v op)).Reachable v2 →
      fat32Open fs v2 name = some none := by
  have hinv : NamesInv fs root v := by
    apply System.Reachable.restrict_invariant ?_ ?_ hr
    · rintro u rfl
      exact ⟨⟨own, hw⟩, hd⟩
    · exact fun u op u' hi hc hs => hi.step hf hc hs
  refine ⟨hinv.2.distinct, fun name v1 hdel v2 hr2 => ?_⟩
  obtain ⟨⟨own1, hw1⟩, hd1⟩ := hinv
  -- a second run from the state after the deletion, with the absence of the name as its invariant
  have hstart : NamesInv fs root v1 ∧ Absent fs root name v1 := by
    simp only [nameApply] at hdel
    rcases delete_cases hf hw1 name with ⟨hn, -⟩ | ⟨s, L, w, hs, hdd⟩
    · rw [hn] at hdel
      exact nomatch (Prod.mk.inj (Option.some.inj hdel)).2
    · rw [hs] at hdel
      obtain ⟨rfl, -⟩ := Prod.mk.inj (Option.some.inj hdel)
      exact ⟨⟨⟨_, hw1.delete hf hdd⟩, hd1.delete hf hw1 hdd⟩, Absent.of_deleted hf hw1 hd1 hdd⟩
  have hend : NamesInv fs root v2 ∧ Absent fs root name v2 := by
    apply System.Reachable.restrict_invariant ?_ ?_ hr2
    · rintro u rfl
      exact hstart
    · intro u op u' hi hc hs
      obtain ⟨⟨⟨own', hw'⟩, hd'⟩, ha⟩ := hi
      exact ⟨NamesInv.step hf ⟨⟨own', hw'⟩, hd'⟩ hc.1 hs, ha.step hf hw' hc.2 hs⟩
  obtain ⟨⟨⟨own2, hw2⟩, -⟩, ha⟩ := hend
  exact (absent_iff hf hw2).mpr ha

theorem nameApply_after {ok : Bool} (h : (nameApply fs v op).map Prod.snd = some ok) :
    nameApply fs v op = some (nameAfter fs v op, ok) := by
  unfold nameAfter
  cases hr : nameApply fs v op with
  | none =>
    rw [hr] at h
    exact nomatch h
  | some r =>
    rw [hr] at h
    exact congrArg some (Prod.ext rfl (Option.some.inj h))

end Names

/-- `A` deleted after it was created. -/
theorem names_unique_sample :
    let v := nameAfter sampleFs sampleVol (.create [65#8] ⟨0, 0⟩)
    let v1 := nameAfter sampleFs v (.delete [65#8])
    NamesDistinct sampleFs [2] v ∧ fat32Open sampleFs v1 [65#8] = some none := by
  intro v v1
  have hstr : IsCString [65#8] := by
    intro c hc
    rw [List.mem_singleton.mp hc]
    decide
  have hfold : FoldedDistinct sampleFs [2] sampleVol := fun e _ he => absurd he (sample_unused e)
  have hfresh : fat32Open sampleFs sampleVol [65#8] = some none := by
    rw [absent_iff sample_ok sample_wf]
    exact fun e he => absurd he (sample_unused e)
  have hmake : nameApply sampleFs sampleVol (.create [65#8] ⟨0, 0⟩) = some (v, true) :=
    nameApply_after (by decide +kernel)
  have hdel : nameApply sampleFs v (.delete [65#8]) = some (v1, true) :=
    nameApply_after (by decide +kernel)
  have hr : ((nameSystem sampleFs sampleVol).restrict (FreshCreate sampleFs)).Reachable v :=
    .step (i := .create [65#8] ⟨0, 0⟩) (.init rfl) ⟨hfresh, hstr, true, hmake⟩
  have h := names_unique sample_ok sample_wf hfold hr
  exact ⟨h.1, h.2 [65#8] v1 hdel v1 (.init rfl)⟩

/-- `A` created twice: both entries are in use, and both have the name. -/
theorem create_twice_same_name :
    let v := nameAfter sampleFs sampleVol (.create [65#8] ⟨0, 0⟩)
    let v1 := nameAfter sampleFs v (.create [65#8] ⟨0, 0⟩)
    fat32Mount (sampleDisk 1) = some (sampleFs, sampleVol) ∧ Wf sampleFs [2] ∅ sampleVol ∧
      NamesDistinct sampleFs [2] sampleVol ∧
      nameApply sampleFs sampleVol (.create [65#8] ⟨0, 0⟩) = some (v, true) ∧
      nameApply sampleFs v (.create [65#8] ⟨0, 0⟩) = some (v1, true) ∧
      ¬ NamesDistinct sampleFs [2] v1 := by
  intro v v1
  refine ⟨sample_mount, sample_wf, fun e _ he => absurd he (sample_unused e),
    nameApply_after (by decide +kernel), nameApply_after (by decide +kernel), fun h => ?_⟩
  have h0 : Used sampleFs v1 [2] (2, 0) := by decide +kernel
  have h1 : Used sampleFs v1 [2] (2, 1) := by decide +kernel
  have hname : entName (readCluster sampleFs v1 2) 0 = entName (readCluster sampleFs v1 2) 1 := by
    decide +kernel
  exact absurd (h (2, 0) (2, 1) h0 h1 hname) (by decide)

end SukiOS.Fat32
