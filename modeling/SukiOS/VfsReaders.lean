import SukiOS.Vfs
import SukiOS.Lib.Noninterference

/-! Calls of `vfs_open` and `vfs_read` in any order. A read moves the position of its own
descriptor and the cluster cursor of its own handle, which the next read derives again from the
position. -/
namespace SukiOS.Fat32
open ByteMemory Noninterference

inductive ReaderOp where
  | open (path : List Byte)
  | read (fd count : ℕ)
deriving DecidableEq, Repr

/-- `opened none` is the result -1. -/
inductive ReaderResult where
  | opened (fd : Option ℕ)
  | bytes (ret : ℤ) (buf : List Byte)
deriving DecidableEq, Repr

/-- What the caller of `vfs_open` gets. -/
def openResult (s : Vfs) : Option (Vfs × ℕ) → Vfs × ReaderResult
  | none => (s, .opened none)
  | some (w, fd) => (w, .opened (some fd))

/-- The calls on one volume. Opening does not return where a chain of the root is cyclic. -/
def vfsReaders (fs : Fs) : Transducer Vfs ReaderOp ReaderResult where
  step s op :=
    match op with
    | .open path => (vfsOpen fs s path).map (openResult s)
    | .read fd count =>
      some ((vfsRead fs s fd count).state,
        .bytes (vfsRead fs s fd count).ret (vfsRead fs s fd count).bytes)

/-- Not a read through another descriptor. -/
def ReaderOp.keeps (fd : ℕ) : ReaderOp → Bool
  | .open _ => true
  | .read fd' _ => decide (fd' = fd)

/-- What was read through the descriptor `fd`: the return values and the bytes. -/
def readThrough (fd : ℕ) (tr : List (ReaderOp × ReaderResult)) : List (ℤ × List Byte) :=
  tr.filterMap (fun x =>
    match x with
    | (.read fd' _, .bytes ret buf) => if fd' = fd then some (ret, buf) else none
    | _ => none)

section Unwind
variable {fs : Fs} {s t : Vfs} {fd fd' count : ℕ} {path : List Byte}

/-- The second run has the same volume, the same descriptors in use and the same handle and
position at `fd`. -/
structure SameReader (fd : ℕ) (s t : Vfs) : Prop where
  vol : t.vol = s.vol
  used : ∀ i, (t.fds i).isNone = (s.fds i).isNone
  own : t.fds fd = s.fds fd

theorem SameReader.refl (fd : ℕ) (s : Vfs) : SameReader fd s s where
  vol := rfl
  used _ := rfl
  own := rfl

theorem firstFreeFd_congr {fds fds' : ℕ → Option Fd} (h : ∀ i, (fds' i).isNone = (fds i).isNone)
    (n : ℕ) : ∀ i, firstFreeFd fds' i n = firstFreeFd fds i n := by
  induction n with
  | zero => exact fun _ => rfl
  | succ n ih =>
    intro i
    unfold firstFreeFd
    rw [h i, ih (i+1)]

/-- Writing the same descriptor in both runs. -/
theorem SameReader.setFd (h : SameReader fd s t) (v : Vol) (i : ℕ) (d : Option Fd) :
    SameReader fd { vol := v, fds := setFd s.fds i d } { vol := v, fds := setFd t.fds i d } where
  vol := rfl
  used k := by
    change (Function.update t.fds i d k).isNone = (Function.update s.fds i d k).isNone
    by_cases hk : k = i
    · rw [hk, Function.update_self, Function.update_self]
    · rw [Function.update_of_ne hk, Function.update_of_ne hk]
      exact h.used k
  own := by
    change Function.update t.fds i d fd = Function.update s.fds i d fd
    by_cases hk : fd = i
    · rw [hk, Function.update_self, Function.update_self]
    · rw [Function.update_of_ne hk, Function.update_of_ne hk]
      exact h.own

/-- A read through another descriptor in the first run only. -/
theorem SameReader.read_other (h : SameReader fd s t) (hne : fd' ≠ fd) (count : ℕ) :
    SameReader fd (vfsRead fs s fd' count).state t := by
  unfold vfsRead
  cases hd : s.fds fd' with
  | none => exact h
  | some d =>
    refine ⟨h.vol, fun i => ?_, ?_⟩
    · change (t.fds i).isNone = (Function.update s.fds fd' _ i).isNone
      rw [h.used i]
      -- the descriptor of the read was in use and stays in use
      by_cases hi : i = fd'
      · rw [hi, Function.update_self, hd]
        rfl
      · rw [Function.update_of_ne hi]
    · change t.fds fd = Function.update s.fds fd' _ fd
      rw [h.own, Function.update_of_ne hne.symm]

/-- A read through `fd` itself seeks from the first cluster to the position, which is the same. -/
theorem SameReader.read_own (fs : Fs) (h : SameReader fd s t) (count : ℕ) :
    (vfsRead fs t fd count).ret = (vfsRead fs s fd count).ret ∧
    (vfsRead fs t fd count).bytes = (vfsRead fs s fd count).bytes ∧
    SameReader fd (vfsRead fs s fd count).state (vfsRead fs t fd count).state := by
  unfold vfsRead
  rw [h.own, h.vol]
  cases hd : s.fds fd with
  | none => exact ⟨rfl, rfl, h⟩
  | some d => exact ⟨rfl, rfl, h.setFd s.vol fd _⟩

/-- Opening sees the volume and which descriptors are in use. -/
theorem SameReader.open (fs : Fs) (h : SameReader fd s t) (path : List Byte) :
    (vfsOpen fs s path = none ∧ vfsOpen fs t path = none) ∨
    (vfsOpen fs s path = some none ∧ vfsOpen fs t path = some none) ∨
    ∃ s' t' i, vfsOpen fs s path = some (some (s', i)) ∧ vfsOpen fs t path = some (some (t', i)) ∧
      SameReader fd s' t' := by
  unfold vfsOpen
  rw [h.vol, firstFreeFd_congr h.used]
  cases resolvePath fs s.vol path with
  | none => exact Or.inl ⟨rfl, rfl⟩
  | some node =>
    right
    match node with
    | none => exact Or.inl ⟨rfl, rfl⟩
    | some .root => exact Or.inl ⟨rfl, rfl⟩
    | some (.file n) =>
      cases firstFreeFd s.fds 0 maxFds with
      | none => exact Or.inl ⟨rfl, rfl⟩
      | some i =>
        exact Or.inr ⟨_, _, i, rfl, rfl, h.setFd s.vol i (some { node := n, pos := 0 })⟩

end Unwind

theorem readers_unwinding (fs : Fs) (fd : ℕ) :
    Unwinding (vfsReaders fs) (ReaderOp.keeps fd) (SameReader fd) where
  hidden := by
    intro s t op h hp
    cases op with
    | «open» path => exact absurd hp Bool.noConfusion
    | read fd' count => exact ⟨_, _, rfl, h.read_other (of_decide_eq_false hp) count⟩
  shown := by
    intro s t op h hp
    cases op with
    | «open» path =>
      obtain ⟨hs, ht⟩ | ⟨hs, ht⟩ | ⟨s', t', i, hs, ht, h'⟩ := h.open fs path
      · exact Or.inl ⟨congrArg (Option.map (openResult s)) hs,
          congrArg (Option.map (openResult t)) ht⟩
      · exact Or.inr ⟨s, t, .opened none, congrArg (Option.map (openResult s)) hs,
          congrArg (Option.map (openResult t)) ht, h⟩
      · exact Or.inr ⟨s', t', .opened (some i), congrArg (Option.map (openResult s)) hs,
          congrArg (Option.map (openResult t)) ht, h'⟩
    | read fd' count =>
      obtain rfl : fd' = fd := of_decide_eq_true hp
      obtain ⟨hret, hbytes, h'⟩ := h.read_own fs count
      refine Or.inr ⟨_, _, _, rfl, ?_, h'⟩
      change some _ = some _
      rw [hret, hbytes]

/-- The calls that are left give the same results. -/
theorem readers_purge (fs : Fs) (s : Vfs) (fd : ℕ) (ops : List ReaderOp) :
    ((vfsReaders fs).trace s ops).filter (fun x => x.1.keeps fd) =
      (vfsReaders fs).trace s (ops.filter (ReaderOp.keeps fd)) :=
  (readers_unwinding fs fd).purge ops s s (SameReader.refl fd s)

theorem readThrough_filter (fd : ℕ) (tr : List (ReaderOp × ReaderResult)) :
    readThrough fd (tr.filter (fun x => x.1.keeps fd)) = readThrough fd tr := by
  unfold readThrough
  rw [List.filterMap_filter]
  apply List.filterMap_congr
  rintro ⟨op, r⟩ -
  cases op with
  | «open» path => rfl
  | read fd' count =>
    cases r with
    | opened i => exact ite_self _
    | bytes ret buf =>
      by_cases hfd : fd' = fd
      · exact if_pos (decide_eq_true hfd)
      · exact (if_neg (fun h => hfd (of_decide_eq_true h))).trans (if_neg hfd).symm

/-- Readers do not interfere. -/
theorem reads_without_others (fs : Fs) (s : Vfs) (fd : ℕ) (ops : List ReaderOp) :
    readThrough fd ((vfsReaders fs).trace s ops) =
      readThrough fd ((vfsReaders fs).trace s (ops.filter (ReaderOp.keeps fd))) := by
  rw [← readers_purge, readThrough_filter]

end SukiOS.Fat32
