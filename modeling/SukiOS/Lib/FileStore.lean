import Mathlib.Algebra.Group.Nat.Defs
import Mathlib.Data.Int.Notation
import Mathlib.Data.Nat.Notation
import Mathlib.Logic.Function.Basic
import SukiOS.Lib.Service

/-! What a file system is for: named files that hold lists, and handles with a position in one of
them. Space is counted in blocks and directory entries, so a call fails exactly when it has to. A
file remembers the length that is on record; it differs from its length after a write that makes
the file longer, until a handle of the file is closed. -/
namespace FileStore
open Services

/-- What a file holds, the length on record, and the number of its blocks. -/
structure FileState (β : Type*) where
  content : List β
  saved : ℕ
  blocks : ℕ
deriving DecidableEq

structure Cursor (κ : Type*) where
  name : κ
  pos : ℕ
deriving DecidableEq

structure Store (κ β : Type*) where
  file : κ → Option (FileState β)
  handle : ℕ → Option (Cursor κ)
  freeBlocks : ℕ
  freeEntries : ℕ

/-- A name that cannot be one is `none`. -/
inductive Call (κ β : Type*) where
  | open (name : Option κ)
  | read (fd count : ℕ)
  | write (fd : ℕ) (src : List β)
  | close (fd : ℕ)
  | size (fd : ℕ)
  | create (name : Option κ)
  | remove (name : Option κ)

structure Answer (β : Type*) where
  ret : ℤ
  data : List β

def Answer.fail {β : Type*} : Answer β := ⟨-1, []⟩

/-- The lowest of the handles from `i` on that is not in use. -/
def firstFree {α : Type*} (handle : ℕ → Option α) (i : ℕ) : ℕ → Option ℕ
  | 0 => none
  | n+1 => if (handle i).isNone then some i else firstFree handle (i+1) n

/-- The list with `src` written over it from `pos` on. -/
def overwrite {β : Type*} (content : List β) (pos : ℕ) (src : List β) : List β :=
  content.take pos ++ src ++ content.drop (pos + src.length)

section Calls
variable {κ β : Type*} [DecidableEq κ]

def Store.setHandle (s : Store κ β) (fd : ℕ) (h : Option (Cursor κ)) : Store κ β :=
  { s with handle := Function.update s.handle fd h }

def Store.setFile (s : Store κ β) (k : κ) (f : Option (FileState β)) : Store κ β :=
  { s with file := Function.update s.file k f }

/-- The handle and the file that it is open on. -/
def Store.at (s : Store κ β) (fd : ℕ) : Option (Cursor κ × FileState β) :=
  (s.handle fd).bind fun h => (s.file h.name).map fun f => (h, f)

/-- A name that is not the name of a file cannot be opened. -/
def Store.open (n : ℕ) (s : Store κ β) (name : Option κ) : Store κ β × Answer β :=
  match name.bind (fun k => (s.file k).map fun _ => k), firstFree s.handle 0 n with
  | some k, some fd => (s.setHandle fd (some ⟨k, 0⟩), ⟨fd, []⟩)
  | _, _ => (s, .fail)

def Store.read (s : Store κ β) (fd count : ℕ) : Store κ β × Answer β :=
  match s.at fd with
  | none => (s, .fail)
  | some (h, f) =>
    let data := (f.content.drop h.pos).take count
    (s.setHandle fd (some { h with pos := h.pos + data.length }), ⟨data.length, data⟩)

def Store.write (s : Store κ β) (fd : ℕ) (src : List β) : Store κ β × Answer β :=
  match s.at fd with
  | none => (s, .fail)
  | some (h, f) =>
    ((s.setFile h.name (some { f with content := overwrite f.content h.pos src })).setHandle fd
      (some { h with pos := h.pos + src.length }), ⟨src.length, []⟩)

/-- Closing puts the length of the file on record. -/
def Store.close (s : Store κ β) (fd : ℕ) : Store κ β × Answer β :=
  match s.at fd with
  | none => (s, .fail)
  | some (h, f) =>
    ((s.setFile h.name (some { f with saved := f.content.length })).setHandle fd none, ⟨0, []⟩)

def Store.size (s : Store κ β) (fd : ℕ) : Store κ β × Answer β :=
  match s.at fd with
  | none => (s, ⟨0, []⟩)
  | some (_, f) => (s, ⟨f.content.length, []⟩)

/-- A new file takes a directory entry and a block. -/
def Store.added (s : Store κ β) (k : κ) : Store κ β :=
  { s.setFile k (some ⟨[], 0, 1⟩) with
    freeBlocks := s.freeBlocks - 1, freeEntries := s.freeEntries - 1 }

def Store.removed (s : Store κ β) (k : κ) (f : FileState β) : Store κ β :=
  { s.setFile k none with freeBlocks := s.freeBlocks + f.blocks, freeEntries := s.freeEntries + 1 }

def Store.create (s : Store κ β) (name : Option κ) : Store κ β × Answer β :=
  match name with
  | none => (s, .fail)
  | some k =>
    if s.freeEntries = 0 ∨ s.freeBlocks = 0 then (s, .fail) else (s.added k, ⟨0, []⟩)

def Store.remove (s : Store κ β) (name : Option κ) : Store κ β × Answer β :=
  match name.bind (fun k => (s.file k).map fun f => (k, f)) with
  | none => (s, .fail)
  | some (k, f) => (s.removed k f, ⟨0, []⟩)

/-- The calls, with `n` handles. -/
def Store.call (n : ℕ) (s : Store κ β) : Call κ β → Store κ β × Answer β
  | .open name => s.open n name
  | .read fd count => s.read fd count
  | .write fd src => s.write fd src
  | .close fd => s.close fd
  | .size fd => s.size fd
  | .create name => s.create name
  | .remove name => s.remove name

/-- The store as a service: every call returns. -/
def service (κ β : Type*) [DecidableEq κ] (n : ℕ) : Service (Store κ β) (Call κ β) (Answer β) where
  call s c := some (s.call n c)

theorem service_permits_cons {ι : Type*} {n : ℕ} {f : ι → Call κ β} {pre : Store κ β → ι → Prop}
    {s : Store κ β} {i : ι} {is : List ι} : (service κ β n).Permits f pre s (i::is) ↔
      pre s i ∧ (service κ β n).Permits f pre (s.call n (f i)).1 is :=
  and_congr_right fun _ => ⟨fun h => h _ _ rfl, fun h a' r hr => by
    rw [← (Prod.mk.inj (Option.some.inj hr)).1]
    exact h⟩

/-- The calls of a careful user, for blocks of `b` elements: reads stay in the file, writes that
make it longer stay in its first block and use its only handle, a file is not opened or measured
while its length is not on record, nothing is created twice, and only closed files are removed. -/
def Store.Allows (b : ℕ) (s : Store κ β) : Call κ β → Prop
  | .open name => ∀ k ∈ name, ∀ f ∈ s.file k, f.saved = f.content.length
  | .read fd count => count < 2^31 ∧ ∀ h f, s.at fd = some (h, f) →
      h.pos + count ≤ f.content.length
  | .write fd src => src.length < 2^31 ∧ ∀ h f, s.at fd = some (h, f) →
      h.pos + src.length ≤ f.content.length ∨
      h.pos + src.length ≤ b ∧ f.blocks ≠ 0 ∧
        ∀ i h', s.handle i = some h' → h'.name = h.name → i = fd
  | .close _ => True
  | .size fd => ∀ h f, s.at fd = some (h, f) → f.saved = f.content.length
  | .create name => ∀ k ∈ name, s.file k = none
  | .remove name => ∀ k ∈ name, ∀ i h, s.handle i = some h → h.name ≠ k

end Calls

/-! ### What the calls keep -/

/-- Handles are open on files, at positions in them, and a file whose length is not on record has
one handle. -/
structure Store.Ok {κ β : Type*} (s : Store κ β) : Prop where
  open_file : ∀ i h, s.handle i = some h → ∃ f, s.file h.name = some f ∧ h.pos ≤ f.content.length
  saved_le : ∀ k f, s.file k = some f → f.saved ≤ f.content.length
  sole : ∀ k f, s.file k = some f → f.saved ≠ f.content.length →
    ∀ i j h h', s.handle i = some h → s.handle j = some h' → h.name = k → h'.name = k → i = j

section Keep
variable {κ β : Type*} {s : Store κ β} {fd : ℕ} {h : Cursor κ} {f : FileState β}
  {src content : List β} {pos n b : ℕ}

theorem length_overwrite (src : List β) (hp : pos ≤ content.length) :
    (overwrite content pos src).length = max content.length (pos + src.length) := by
  simp only [overwrite, List.length_append, List.length_take, List.length_drop]
  omega

theorem getD_overwrite (hp : pos ≤ content.length) (i : ℕ) (d : β) :
    (overwrite content pos src).getD i d =
      if pos ≤ i ∧ i < pos + src.length then src.getD (i - pos) d else content.getD i d := by
  have htake : (content.take pos).length = pos := List.length_take_of_le hp
  simp only [overwrite, List.append_assoc, List.getD_eq_getElem?_getD]
  by_cases hlt : i < pos
  · rw [List.getElem?_append_left (by omega), List.getElem?_take_of_lt hlt, if_neg (by omega)]
  · rw [List.getElem?_append_right (by omega), htake]
    by_cases hin : i < pos + src.length
    · rw [List.getElem?_append_left (by omega), if_pos ⟨by omega, hin⟩]
    · rw [List.getElem?_append_right (by omega), List.getElem?_drop, if_neg (by omega)]
      congr 2
      omega

theorem firstFree_eq_none {α : Type*} (handle : ℕ → Option α) (n : ℕ) : ∀ i k,
    firstFree handle i n = some k → handle k = none := by
  induction n with
  | zero => exact fun i k hk => nomatch hk
  | succ n ih =>
    intro i k hk
    unfold firstFree at hk
    by_cases hi : (handle i).isNone = true
    · rw [if_pos hi] at hk
      rw [← Option.some.inj hk]
      exact Option.isNone_iff_eq_none.mp hi
    · rw [if_neg hi] at hk
      exact ih (i+1) k hk

theorem Store.at_eq_some : s.at fd = some (h, f) ↔ s.handle fd = some h ∧
    s.file h.name = some f := by
  unfold Store.at
  cases hh : s.handle fd with
  | none => simp
  | some h' =>
    cases hf : s.file h'.name with
    | none =>
      simp only [Option.bind_some, hf, Option.map_none]
      grind
    | some f' =>
      simp only [Option.bind_some, hf, Option.map_some]
      grind

@[simp] theorem Store.setHandle_file (s : Store κ β) (fd : ℕ) (o : Option (Cursor κ)) :
    (s.setHandle fd o).file = s.file := rfl

theorem Store.setHandle_handle (s : Store κ β) (fd : ℕ) (o : Option (Cursor κ)) (i : ℕ) :
    (s.setHandle fd o).handle i = if i = fd then o else s.handle i := by
  simp only [Store.setHandle, Function.update_apply]

/-- In a store whose handles are open on files, a handle without a file is none. -/
theorem Store.Ok.at_eq_none (hs : s.Ok) : s.at fd = none ↔ s.handle fd = none := by
  refine ⟨fun hat => ?_, fun hn => by rw [Store.at, hn]; rfl⟩
  cases hh : s.handle fd with
  | none => rfl
  | some h =>
    obtain ⟨f, hf, -⟩ := hs.open_file fd h hh
    have hsome : s.at fd = some (h, f) := Store.at_eq_some.mpr ⟨hh, hf⟩
    exact nomatch hat.symm.trans hsome

theorem Store.Ok.pos_le (hs : s.Ok) (hat : s.at fd = some (h, f)) : h.pos ≤ f.content.length := by
  obtain ⟨hh, hf⟩ := Store.at_eq_some.mp hat
  obtain ⟨g, hg, hle⟩ := hs.open_file fd h hh
  rw [← Option.some.inj (hg.symm.trans hf)]
  exact hle

theorem Store.Ok.open (hs : s.Ok) {name : Option κ} (hc : s.Allows b (.open name)) :
    (s.open n name).1.Ok := by
  unfold Store.open
  split
  · next k fd hk hfd =>
    have hfree := firstFree_eq_none s.handle n 0 fd hfd
    obtain ⟨k', hname, hmap⟩ := Option.bind_eq_some_iff.mp hk
    obtain ⟨f, hf, rfl⟩ := Option.map_eq_some_iff.mp hmap
    have hrec := hc k' hname f hf
    refine ⟨fun i h' hi => ?_, hs.saved_le, fun k g hk hne i j h1 h2 hi hj hn1 hn2 => ?_⟩
    · rw [Store.setHandle_handle] at hi
      rw [Store.setHandle_file]
      by_cases hif : i = fd
      · rw [if_pos hif] at hi
        rw [← Option.some.inj hi]
        exact ⟨f, hf, Nat.zero_le _⟩
      · rw [if_neg hif] at hi
        exact hs.open_file i h' hi
    · -- the new handle is open on a file with its length on record
      have hold (l : ℕ) (h3 : Cursor κ) (hl : (s.setHandle fd (some ⟨k', 0⟩)).handle l = some h3)
          (hn3 : h3.name = k) : s.handle l = some h3 := by
        rw [Store.setHandle_handle] at hl
        by_cases hlf : l = fd
        · rw [if_pos hlf] at hl
          rw [← Option.some.inj hl] at hn3
          rw [← hn3] at hk
          obtain rfl := Option.some.inj (hf.symm.trans hk)
          exact absurd hrec hne
        · rw [if_neg hlf] at hl
          exact hl
      exact hs.sole k g hk hne i j h1 h2 (hold i h1 hi hn1) (hold j h2 hj hn2) hn1 hn2
  · exact hs

end Keep

section Calls
variable {κ β : Type*} [DecidableEq κ] {s : Store κ β} {n b fd : ℕ} {c : Call κ β} {h : Cursor κ}
  {f f' : FileState β} {k : κ} {o : Option (Cursor κ)}

@[simp] theorem Store.setFile_handle (s : Store κ β) (k : κ) (o : Option (FileState β)) :
    (s.setFile k o).handle = s.handle := rfl

theorem Store.setFile_file (s : Store κ β) (k : κ) (o : Option (FileState β)) (k' : κ) :
    (s.setFile k o).file k' = if k' = k then o else s.file k' := by
  simp only [Store.setFile, Function.update_apply]

theorem Store.added_file (s : Store κ β) (k k' : κ) :
    (s.added k).file k' = if k' = k then some ⟨[], 0, 1⟩ else s.file k' := s.setFile_file k _ k'

theorem Store.removed_file (s : Store κ β) (k : κ) (f : FileState β) (k' : κ) :
    (s.removed k f).file k' = if k' = k then none else s.file k' := s.setFile_file k none k'

@[simp] theorem Store.added_handle (s : Store κ β) (k : κ) : (s.added k).handle = s.handle := rfl

@[simp] theorem Store.removed_handle (s : Store κ β) (k : κ) (f : FileState β) :
    (s.removed k f).handle = s.handle := rfl

theorem Store.setFile_self (hf : s.file k = some f) : s.setFile k (some f) = s := by
  have hsame : Function.update s.file k (some f) = s.file := by
    rw [← hf]
    exact Function.update_eq_self k s.file
  rw [Store.setFile, hsame]

/-- A call through a handle changes its file and the handle. -/
theorem Store.Ok.put (hs : s.Ok) (hat : s.at fd = some (h, f))
    (ho : ∀ h' ∈ o, h'.name = h.name ∧ h'.pos ≤ f'.content.length)
    (hlen : f.content.length ≤ f'.content.length) (hsaved : f'.saved ≤ f'.content.length)
    (hsole : f'.saved ≠ f'.content.length → f.saved ≠ f.content.length ∨
      ∀ i h', s.handle i = some h' → h'.name = h.name → i = fd) :
    ((s.setFile h.name (some f')).setHandle fd o).Ok := by
  obtain ⟨hh, hf⟩ := Store.at_eq_some.mp hat
  refine ⟨fun i h' hi => ?_, fun k g hk => ?_, fun k g hk hne i j h1 h2 hi hj hn1 hn2 => ?_⟩
  · have hopen := hs.open_file i h'
    simp only [Store.setHandle_handle, Store.setFile_handle] at hi
    simp only [Store.setHandle_file, Store.setFile_file]
    grind
  · have hle := hs.saved_le k g
    simp only [Store.setHandle_file, Store.setFile_file] at hk
    grind
  · -- only the file `h.name` can have lost its place on record, and only through `fd`
    have hold := hs.sole k
    simp only [Store.setHandle_handle, Store.setFile_handle] at hi hj
    simp only [Store.setHandle_file, Store.setFile_file] at hk
    grind

theorem Store.Ok.read (hs : s.Ok) {count : ℕ} (hc : s.Allows b (.read fd count)) :
    (s.read fd count).1.Ok := by
  unfold Store.read
  cases hat : s.at fd with
  | none => exact hs
  | some p =>
    obtain ⟨h, f⟩ := p
    have hle := hc.2 h f hat
    have hf := (Store.at_eq_some.mp hat).2
    have hput : ((s.setFile h.name (some f)).setHandle fd (some { h with
        pos := h.pos + ((f.content.drop h.pos).take count).length })).Ok := by
      refine hs.put hat ?_ (Nat.le_refl _) (hs.saved_le _ f hf) Or.inl
      intro h' hh'
      rw [← Option.some.inj hh', List.length_take, List.length_drop]
      exact ⟨rfl, by dsimp only; omega⟩
    rw [Store.setFile_self hf] at hput
    exact hput

theorem Store.Ok.write (hs : s.Ok) {src : List β} (hc : s.Allows b (.write fd src)) :
    (s.write fd src).1.Ok := by
  unfold Store.write
  cases hat : s.at fd with
  | none => exact hs
  | some p =>
    obtain ⟨h, f⟩ := p
    have hlen := length_overwrite src (hs.pos_le hat)
    have hsaved := hs.saved_le _ f (Store.at_eq_some.mp hat).2
    apply hs.put hat
    · intro h' hh'
      rw [← Option.some.inj hh']
      exact ⟨rfl, by dsimp only; omega⟩
    · dsimp only
      omega
    · dsimp only
      omega
    · intro hne
      dsimp only at hne
      rcases hc.2 h f hat with hin | hgrow
      · exact Or.inl (by omega)
      · exact Or.inr hgrow.2.2

theorem Store.Ok.create (hs : s.Ok) {name : Option κ} (hc : s.Allows b (.create name)) :
    (s.create name).1.Ok := by
  cases name with
  | none => exact hs
  | some k =>
    unfold Store.create
    dsimp only
    split
    · exact hs
    · have hnone := hc k rfl
      refine ⟨fun i h' hi => ?_, fun k' g hk => ?_, fun k' g hk hne i j h1 h2 hi hj => ?_⟩
      · have hopen := hs.open_file i h' hi
        simp only [Store.added_file]
        grind
      · have hsaved := hs.saved_le k' g
        simp only [Store.added_file] at hk
        grind
      · have hsole := hs.sole k' g
        simp only [Store.added_file, Store.added_handle] at hk hi hj
        grind

theorem Store.Ok.remove (hs : s.Ok) {name : Option κ} (hc : s.Allows b (.remove name)) :
    (s.remove name).1.Ok := by
  unfold Store.remove
  split
  · exact hs
  · next k f hk =>
    obtain ⟨k', hname, hmap⟩ := Option.bind_eq_some_iff.mp hk
    obtain ⟨f', hf', he⟩ := Option.map_eq_some_iff.mp hmap
    obtain ⟨rfl, rfl⟩ := Prod.mk.inj he
    have hclosed := hc k' hname
    refine ⟨fun i h' hi => ?_, fun k g hk => ?_, fun k g hk hne i j h1 h2 hi hj => ?_⟩
    · have hopen := hs.open_file i h' hi
      have hne := hclosed i h' hi
      simp only [Store.removed_file]
      grind
    · have hsaved := hs.saved_le k g
      simp only [Store.removed_file] at hk
      grind
    · have hsole := hs.sole k g
      simp only [Store.removed_file, Store.removed_handle] at hk hi hj
      grind

/-- What each call of a careful user keeps. -/
theorem Store.Ok.call (hs : s.Ok) (hc : s.Allows b c) : (s.call n c).1.Ok := by
  cases c with
  | «open» name => exact hs.open hc
  | read fd count => exact hs.read hc
  | write fd src => exact hs.write hc
  | close fd =>
    show (s.close fd).1.Ok
    unfold Store.close
    cases hat : s.at fd with
    | none => exact hs
    | some p =>
      exact hs.put hat (fun h' hh' => nomatch hh') (Nat.le_refl _) (Nat.le_refl _)
        (fun hne => absurd rfl hne)
  | size fd =>
    show (s.size fd).1.Ok
    unfold Store.size
    cases s.at fd with
    | none => exact hs
    | some p => exact hs
  | create name => exact hs.create hc
  | remove name => exact hs.remove hc

end Calls

/-! ### Power cuts -/

/-- What is left without power: of each file as much as is on record, and no handles. -/
def Store.recovered {κ β : Type*} (s : Store κ β) : Store κ β :=
  { s with
    file := fun k => (s.file k).map fun f => { f with content := f.content.take f.saved }
    handle := fun _ => none }

section Recovery
variable {κ β : Type*} {s : Store κ β} {k : κ} {f : FileState β}

theorem Store.recovered_file (hk : s.file k = some f) :
    s.recovered.file k = some { f with content := f.content.take f.saved } := by
  simp only [Store.recovered, hk, Option.map_some]

theorem Store.Ok.recovered (hs : s.Ok) : s.recovered.Ok where
  open_file := fun i h hi => nomatch hi
  saved_le := by
    intro k f hk
    obtain ⟨g, hg, rfl⟩ := Option.map_eq_some_iff.mp hk
    have hle := hs.saved_le k g hg
    rw [List.length_take]
    exact Nat.le_min.mpr ⟨Nat.le_refl _, hle⟩
  sole := fun k f _ _ i j h h' hi => nomatch hi

end Recovery

end FileStore
