import SukiOS.Vfs
import SukiOS.Fat32Names

/-! Resolving and opening paths: the root has no subdirectories, so a path leads to a file only when
it has one component. Creating takes all of the path behind the first slash as the name. -/
namespace SukiOS.Fat32
open ByteMemory

/-- The component of a path with only one, given what follows the first slash. -/
def component (p : List Byte) : Option (List Byte) :=
  if p ≠ [] ∧ dropSlash (takeToken 255 p).2 = [] then some (takeToken 255 p).1 else none

/-- The node that `fat32_vfs_finddir_dir` makes of a handle. -/
def nodeOf (f : File) : FileNode := { size := f.size, inode := f.startCluster, file := f }

section Path
variable {fs : Fs} {v : Vol} {root : List ℕ} {own : Set ℕ} {s s' : Vfs} {p path tok : List Byte}
  {fd n : ℕ} {m : FileNode}

theorem takeToken_length (n : ℕ) : ∀ p : List Byte,
    (takeToken n p).1.length + (takeToken n p).2.length = p.length := by
  induction n with
  | zero => exact fun p => Nat.zero_add _
  | succ n ih =>
    intro p
    cases p with
    | nil => rfl
    | cons c p =>
      unfold takeToken
      by_cases hc : c = slash
      · rw [if_pos hc]
        exact Nat.zero_add _
      · rw [if_neg hc, List.length_cons, List.length_cons, ← ih p]
        dsimp only
        omega

theorem takeToken_cons {c : Byte} {p : List Byte} (hc : c ≠ slash) (n : ℕ) :
    takeToken (n+1) (c::p) = (c :: (takeToken n p).1, (takeToken n p).2) := if_neg hc

/-- Every turn takes something off the path. -/
theorem rest_length (hp : p ≠ []) : (dropSlash (takeToken 255 p).2).length + 1 ≤ p.length := by
  cases p with
  | nil => exact absurd rfl hp
  | cons c p =>
    by_cases hc : c = slash
    · have htok : takeToken 255 (c::p) = ([], c::p) := if_pos hc
      have hdrop : dropSlash (c::p) = p := by
        unfold dropSlash
        rw [if_pos (by rw [hc]; rfl)]
        rfl
      rw [htok, hdrop]
      exact le_rfl
    · have hlen := takeToken_length 254 p
      have hle : (dropSlash (takeToken 255 (c::p)).2).length ≤ (takeToken 255 (c::p)).2.length := by
        unfold dropSlash
        split
        · rw [List.length_tail]
          omega
        · exact le_rfl
      rw [takeToken_cons hc] at hle ⊢
      dsimp only at hle ⊢
      rw [List.length_cons]
      omega

/-- A file has no entries of its own. -/
theorem resolveFrom_file (fs : Fs) (v : Vol) (m m' : FileNode) {p : List Byte} {n : ℕ}
    (hn : p.length ≤ n) :
    resolveFrom fs v n (.file m) p = some (some (.file m')) ↔ p = [] ∧ m = m' := by
  cases n with
  | zero =>
    have hp : p = [] := List.length_eq_zero_iff.mp (by omega)
    refine ⟨fun h => ⟨hp, ?_⟩, fun h => ?_⟩
    · exact Node.file.inj (Option.some.inj (Option.some.inj h))
    · rw [h.2]
      rfl
  | succ n =>
    unfold resolveFrom
    by_cases hp : p = []
    · rw [if_pos hp]
      refine ⟨fun h => ⟨hp, ?_⟩, fun h => ?_⟩
      · exact Node.file.inj (Option.some.inj (Option.some.inj h))
      · rw [h.2]
    · rw [if_neg hp]
      refine ⟨fun h => ?_, fun h => absurd h.1 hp⟩
      exact nomatch Option.some.inj h

/-- A path leads to a file when its only component is the name of one. -/
theorem resolvePath_file : resolvePath fs v path = some (some (.file m)) ↔
    ∃ p tok f, path = slash::p ∧ component p = some tok ∧ fat32Open fs v tok = some (some f) ∧
      m = nodeOf f := by
  cases path with
  | nil =>
    refine ⟨(fun h => nomatch Option.some.inj h), ?_⟩
    rintro ⟨p, tok, f, hp, -⟩
    exact nomatch hp
  | cons c p =>
    by_cases hc : c = slash
    · have hres : resolvePath fs v (c::p) = resolveFrom fs v p.length .root p := if_pos hc
      rw [hres]
      cases p with
      | nil =>
        refine ⟨(fun h => nomatch Option.some.inj (Option.some.inj h)), ?_⟩
        rintro ⟨p, tok, f, hp, hcomp, -⟩
        obtain ⟨-, rfl⟩ := List.cons.inj hp
        exact nomatch hcomp
      | cons d p =>
        have hne : d::p ≠ [] := List.cons_ne_nil d p
        have hrest := rest_length hne
        rw [List.length_cons] at hrest
        rw [List.length_cons, resolveFrom, if_neg hne]
        dsimp only
        -- one component, and nothing behind it but a slash
        have hcomp (tok : List Byte) : component (d::p) = some tok ↔
            dropSlash (takeToken 255 (d::p)).2 = [] ∧ (takeToken 255 (d::p)).1 = tok := by
          unfold component
          by_cases hd : dropSlash (takeToken 255 (d::p)).2 = []
          · rw [if_pos ⟨hne, hd⟩]
            exact ⟨fun h => ⟨hd, Option.some.inj h⟩, fun h => congrArg some h.2⟩
          · rw [if_neg (fun h => hd h.2)]
            exact ⟨(fun h => nomatch h), fun h => absurd h.1 hd⟩
        constructor
        · intro h
          obtain ⟨r, hr, h⟩ := Option.bind_eq_some_iff.mp h
          cases r with
          | none => exact nomatch Option.some.inj h
          | some f =>
            obtain ⟨hnil, hm⟩ := (resolveFrom_file fs v (nodeOf f) m (by omega)).mp h
            exact ⟨d::p, _, f, by rw [hc], (hcomp _).mpr ⟨hnil, rfl⟩, hr, hm.symm⟩
        · rintro ⟨p', tok, f, hp, htok, hopen, rfl⟩
          obtain ⟨-, rfl⟩ := List.cons.inj hp
          obtain ⟨hnil, rfl⟩ := (hcomp tok).mp htok
          rw [hopen]
          exact (resolveFrom_file fs v (nodeOf f) (nodeOf f) (by omega)).mpr ⟨hnil, rfl⟩
    · have hres : resolvePath fs v (c::p) = some none := if_neg hc
      rw [hres]
      refine ⟨(fun h => nomatch Option.some.inj h), ?_⟩
      rintro ⟨p', tok, f, hp, -⟩
      exact absurd (List.cons.inj hp).1 hc

/-! ### Descriptors -/

theorem firstFreeFd_spec (fds : ℕ → Option Fd) (n : ℕ) : ∀ i,
    (firstFreeFd fds i n = none ∧ ∀ k, i ≤ k → k < i + n → fds k ≠ none) ∨
    (∃ k, firstFreeFd fds i n = some k ∧ fds k = none ∧ i ≤ k ∧ k < i + n) := by
  induction n with
  | zero => exact fun i => Or.inl ⟨rfl, fun k h1 h2 => by omega⟩
  | succ n ih =>
    intro i
    unfold firstFreeFd
    by_cases hi : (fds i).isNone = true
    · rw [if_pos hi]
      exact Or.inr ⟨i, rfl, Option.isNone_iff_eq_none.mp hi, le_rfl, by omega⟩
    · rw [if_neg hi]
      rcases ih (i+1) with ⟨hn, hall⟩ | ⟨k, hk, hfree, h1, h2⟩
      · refine Or.inl ⟨hn, fun k h1 h2 => ?_⟩
        by_cases hki : k = i
        · rw [hki]
          exact fun h0 => hi (by rw [h0]; rfl)
        · exact hall k (by omega) (by omega)
      · exact Or.inr ⟨k, hk, hfree, by omega, by omega⟩

/-- What a successful `vfs_open` has done. -/
theorem vfsOpen_iff : vfsOpen fs s path = some (some (s', fd)) ↔
    ∃ p tok f, path = slash::p ∧ component p = some tok ∧ fat32Open fs s.vol tok = some (some f) ∧
      firstFreeFd s.fds 0 maxFds = some fd ∧
      s' = { s with fds := setFd s.fds fd (some { node := nodeOf f, pos := 0 }) } := by
  unfold vfsOpen
  constructor
  · intro h
    obtain ⟨r, hr, h⟩ := Option.bind_eq_some_iff.mp h
    cases r with
    | none => exact nomatch Option.some.inj h
    | some node =>
      cases node with
      | root => exact nomatch Option.some.inj h
      | file m =>
        obtain ⟨p, tok, f, hp, htok, hopen, rfl⟩ := resolvePath_file.mp hr
        dsimp only at h
        cases hfd : firstFreeFd s.fds 0 maxFds with
        | none =>
          rw [hfd] at h
          exact nomatch Option.some.inj h
        | some k =>
          rw [hfd] at h
          obtain ⟨rfl, rfl⟩ := Prod.mk.inj (Option.some.inj (Option.some.inj h))
          exact ⟨p, tok, f, hp, htok, hopen, rfl, rfl⟩
  · rintro ⟨p, tok, f, hp, htok, hopen, hfd, rfl⟩
    have hr : resolvePath fs s.vol path = some (some (.file (nodeOf f))) :=
      resolvePath_file.mpr ⟨p, tok, f, hp, htok, hopen, rfl⟩
    rw [hr]
    dsimp only [Option.bind_eq_bind, Option.bind_some]
    rw [hfd]

/-- The descriptor that `vfs_open` returns. -/
theorem vfsOpen_fd (h : vfsOpen fs s path = some (some (s', fd))) :
    ∃ f, s'.vol = s.vol ∧ s'.fds fd = some { node := nodeOf f, pos := 0 } ∧
      ∃ p tok, path = slash::p ∧ component p = some tok ∧
        fat32Open fs s.vol tok = some (some f) := by
  obtain ⟨p, tok, f, hp, htok, hopen, -, rfl⟩ := vfsOpen_iff.mp h
  exact ⟨f, rfl, Function.update_self _ _ _, p, tok, hp, htok, hopen⟩

/-- A free slot is found when there is one. -/
theorem firstFreeFd_of_free {fds : ℕ → Option Fd} {i : ℕ} (hi : i < maxFds) (hfree : fds i = none) :
    ∃ k, firstFreeFd fds 0 maxFds = some k := by
  rcases firstFreeFd_spec fds maxFds 0 with ⟨-, hall⟩ | ⟨k, hk, -⟩
  · exact absurd hfree (hall i (Nat.zero_le i) (by omega))
  · exact ⟨k, hk⟩

/-- The descriptor is a slot of the table. -/
theorem vfsOpen_lt (h : vfsOpen fs s path = some (some (s', fd))) : fd < maxFds := by
  obtain ⟨-, -, -, -, -, -, hfree, -⟩ := vfsOpen_iff.mp h
  rcases firstFreeFd_spec s.fds maxFds 0 with ⟨hn, -⟩ | ⟨k, hk, -, -, hlt⟩
  · exact nomatch hn.symm.trans hfree
  · obtain rfl := Option.some.inj (hk.symm.trans hfree)
    omega

end Path

/-! ### Creating a path and opening it -/

section Create
variable {fs : Fs} {v v' : Vol} {root : List ℕ} {own : Set ℕ} {s s' : Vfs}
  {name p path : List Byte} {now now' : Stamp} {e : Slot}

/-- What a successful `fat32_vfs_create` has done. -/
theorem vfsCreate_cases (hf : fs.Ok) (hw : Wf fs root own s.vol)
    (h : vfsCreate fs s path now now' = some (s', 0)) (hstr : IsCString path) :
    ∃ p slot n v1, path = slash::p ∧ IsCString p ∧ Created fs root p now s.vol v1 n slot ∧
      fat32CreateFile fs s.vol p now = some (some (v1, ⟨n, n, 0, 0⟩)) ∧
      SameEntries fs root v1 s'.vol ∧ s'.vol.fat = v1.fat ∧ s'.fds = s.fds ∧
      fat32Close fs v1 ⟨n, n, 0, 0⟩ now' = some s'.vol ∧ Wf fs root (insert n own) s'.vol := by
  cases path with
  | nil => exact absurd (Prod.mk.inj (Option.some.inj h)).2 (by decide)
  | cons c p =>
    unfold vfsCreate at h
    dsimp only at h
    by_cases hc : c = slash
    · rw [if_pos hc] at h
      have hp : IsCString p := fun d hd => hstr d (List.mem_cons_of_mem c hd)
      obtain ⟨r, hr, he⟩ := Option.map_eq_some_iff.mp h
      unfold fat32VfsCreate at hr
      rcases create_cases hf hw p now with hn | ⟨slot, n, v1, hs, hcr⟩
      · rw [hn] at hr
        rw [← Option.some.inj hr] at he
        have hret : (-1 : ℤ) = 0 := (Prod.mk.inj he).2
        exact absurd hret (by decide)
      · -- the close that follows writes the size 0 back and leaves the directory as it is
        rw [hs] at hr
        have hw1 := hw.create hf hcr hp
        obtain ⟨v2, hv2, hfat, hdir, -⟩ := close_same hf hw1 ⟨n, n, 0, 0⟩ now'
        have hr : (fat32Close fs v1 ⟨n, n, 0, 0⟩ now').bind (fun v => some (v, (0 : ℤ))) = some r :=
          hr
        rw [hv2] at hr
        obtain rfl : (v2, 0) = r := Option.some.inj hr
        obtain ⟨rfl, -⟩ := Prod.mk.inj he
        exact ⟨p, slot, n, v1, by rw [hc], hp, hcr, hs, hdir, hfat, rfl, hv2, hw1.close hf hv2⟩
    · rw [if_neg hc] at h
      exact absurd (Prod.mk.inj (Option.some.inj h)).2 (by decide)

theorem SameEntries.foldedName (h : SameEntries fs root v v') (hc : e.1 ∈ root)
    (hi : e.2 < fs.entryCount) : foldedName fs v' e = foldedName fs v e := by
  unfold Fat32.foldedName
  rw [(h e.1 hc e.2 hi).2.2.2]

/-- Opening the path gives a descriptor of the file that `vfs_create` has just made. -/
def OpensCreated (fs : Fs) (s s' : Vfs) (path : List Byte) (now : Stamp) : Prop :=
  ∃ p v f, path = slash::p ∧ fat32CreateFile fs s.vol p now = some (some (v, f)) ∧
    ∃ s'' fd d, vfsOpen fs s' path = some (some (s'', fd)) ∧ s''.fds fd = some d ∧
      d.node.inode = f.startCluster

/-- The path has one component, of which `to_short` makes what it makes of all of the path. The
name starts with a byte that is not the mark of a deleted entry, and entries with the name come
only after a free slot. -/
def Openable (fs : Fs) (root : List ℕ) (v : Vol) (path : List Byte) : Prop :=
  ∃ p tok, path = slash::p ∧ component p = some tok ∧ toShort tok = toShort p ∧ Visible p ∧
    ∀ e, Used fs v root e → foldedName fs v e = toShort p →
      ∃ e' : Slot, e'.1 ∈ root ∧ e'.2 < fs.entryCount ∧ SlotFree fs v e' ∧ Before root e' e

theorem before_asymm {e e' : Slot} (h : Before root e e') : ¬ Before root e' e := by
  intro h'
  rcases h with h | ⟨h1, h2⟩
  · rcases h' with h' | ⟨h1', -⟩
    · omega
    · rw [h1'] at h
      omega
  · rcases h' with h' | ⟨-, h2'⟩
    · rw [h1] at h'
      omega
    · omega

theorem before_trans {e e' e'' : Slot} (h : Before root e e') (h' : Before root e' e'') :
    Before root e e'' := by
  rcases h with h | ⟨h1, h2⟩
  · rcases h' with h' | ⟨h1', -⟩
    · exact Or.inl (by omega)
    · rw [h1'] at h
      exact Or.inl h
  · rcases h' with h' | ⟨h1', h2'⟩
    · rw [← h1] at h'
      exact Or.inl h'
    · exact Or.inr ⟨h1.trans h1', by omega⟩

/-- The slot that is taken is the first free one. -/
theorem Created.before_iff {n : ℕ} {slot : Slot} (h : Created fs root name now v v' n slot) :
    Before root slot e ↔
      ∃ e' : Slot, e'.1 ∈ root ∧ e'.2 < fs.entryCount ∧ SlotFree fs v e' ∧ Before root e' e := by
  refine ⟨fun hb => ⟨slot, h.mem, h.index, h.slotFree, hb⟩, ?_⟩
  rintro ⟨e', hc, hi, hfree, hb⟩
  by_cases hes : e' = slot
  · rw [← hes]
    exact hb
  · rcases before_total h.mem (Ne.symm hes) with hlt | hlt
    · exact before_trans hlt hb
    · exact absurd hfree (h.before e' hc hi hlt)

/-- A path that was created can be opened exactly when its two readings agree and the name was
not in use before. -/
theorem create_then_open_iff (hf : fs.Ok) (hw : Wf fs root own s.vol) (hstr : IsCString path)
    (hfd : ∃ i, i < maxFds ∧ s.fds i = none)
    (hc : vfsCreate fs s path now now' = some (s', 0)) :
    OpensCreated fs s s' path now ↔ Openable fs root s.vol path := by
  obtain ⟨p, slot, n, v1, rfl, hp, hcr, hs, hdir, -, hfds, -, hw'⟩ := vfsCreate_cases hf hw hc hstr
  -- the directory after the call: the entries from before, and the new one unless its name hides it
  have hused (e : Slot) : Used fs s'.vol root e ↔ e = slot ∧ Visible p ∨ Used fs s.vol root e := by
    rw [hdir.used]
    exact hcr.used_iff hf hw hp
  have hnew : startOf fs s'.vol slot = n := by
    rw [hdir.startOf hcr.mem hcr.index]
    exact (hcr.entry hf hw).2.2.1
  have hne (e : Slot) (hu : Used fs s.vol root e) : e ≠ slot := by
    rintro rfl
    exact not_used_of_free hcr.slotFree hu
  have hold (e : Slot) (hu : Used fs s.vol root e) : startOf fs s'.vol e ≠ n := by
    rw [hdir.startOf hu.1 hu.2.1, (hcr.others hf hw).startOf hu (hne e hu)]
    intro he
    exact hcr.fresh hf hw (he ▸ hw.starts e hu)
  have hname : foldedName fs s'.vol slot = toShort p := by
    rw [hdir.foldedName hcr.mem hcr.index]
    exact hcr.foldedName hf hw
  have hname' (e : Slot) (hu : Used fs s.vol root e) :
      foldedName fs s'.vol e = foldedName fs s.vol e := by
    rw [hdir.foldedName hu.1 hu.2.1]
    exact hcr.foldedName_old hf hw hu
  constructor
  · -- the entry that `vfs_open` found has the new cluster, so it is the new one
    rintro ⟨p', v, f, hpp, hmade, s'', fd, d, hopen, hd, hin⟩
    obtain ⟨-, rfl⟩ := List.cons.inj hpp
    obtain ⟨-, rfl⟩ := Prod.mk.inj (Option.some.inj (Option.some.inj (hs.symm.trans hmade)))
    obtain ⟨f, -, hfd', p', tok, hpp, htok, hfile⟩ := vfsOpen_fd hopen
    obtain ⟨-, rfl⟩ := List.cons.inj hpp
    obtain rfl := Option.some.inj (hd.symm.trans hfd')
    rcases open_cases hf hw' tok with hn | ⟨e, hfind, hu, hfile'⟩
    · exact nomatch Option.some.inj (hn.symm.trans hfile)
    · obtain rfl := Option.some.inj (Option.some.inj (hfile'.symm.trans hfile))
      have hstart : startOf fs s'.vol e = n := hin
      obtain ⟨-, hmatch, hfirst⟩ := (hw'.findEntry_iff hf).mp hfind
      rcases (hused e).mp hu with ⟨rfl, hv⟩ | hu0
      · have hshort : toShort tok = toShort p :=
          ((nameMatches_iff e).mp hmatch).symm.trans hname
        refine ⟨p, tok, rfl, htok, hshort, hv, fun e' he' hfold => ?_⟩
        rw [← hcr.before_iff]
        rcases before_total hcr.mem (hne e' he').symm with hlt | hlt
        · exact hlt
        · have hno := hfirst e' ((hused e').mpr (Or.inr he')) hlt
          have hyes : nameMatches (toShort tok) (readCluster fs s'.vol e'.1) e'.2 = true :=
            (nameMatches_iff e').mpr ((hname' e' he').trans (hfold.trans hshort.symm))
          exact nomatch hno.symm.trans hyes
      · exact absurd hstart (hold e hu0)
  · -- no entry with the name lies before the new one, so the search stops there
    rintro ⟨p', tok, hpp, htok, hshort, hv, hlater⟩
    obtain ⟨-, rfl⟩ := List.cons.inj hpp
    have hfind : findEntry fs s'.vol (nameMatches (toShort tok)) = some (some slot) := by
      rw [hw'.findEntry_iff hf]
      refine ⟨(hused slot).mpr (Or.inl ⟨rfl, hv⟩), ?_, fun e' he' hb => ?_⟩
      · rw [nameMatches_iff, hname, hshort]
      · apply Bool.eq_false_iff.mpr
        intro hmatch
        have hfold := (nameMatches_iff e').mp hmatch
        rcases (hused e').mp he' with ⟨rfl, -⟩ | hu0
        · exact before_asymm hb hb
        · rw [hname' e' hu0, hshort] at hfold
          exact before_asymm hb (hcr.before_iff.mpr (hlater e' hu0 hfold))
    obtain ⟨k, hk⟩ : ∃ k, firstFreeFd s'.fds 0 maxFds = some k := by
      rw [hfds]
      obtain ⟨i, hi, hfree⟩ := hfd
      exact firstFreeFd_of_free hi hfree
    refine ⟨p, v1, ⟨n, n, 0, 0⟩, rfl, hs, _, k, _,
      vfsOpen_iff.mpr ⟨p, tok, fileAt fs s'.vol slot, rfl, htok, fat32Open_eq hfind, hk, rfl⟩,
      Function.update_self _ _ _, ?_⟩
    exact hnew

end Create

/-- The state after a `vfs_create` that returns. -/
def vfsCreated (fs : Fs) (s : Vfs) (path : List Byte) (now now' : Stamp) : Vfs :=
  match vfsCreate fs s path now now' with
  | none => s
  | some r => r.1

theorem vfsCreate_eq {fs : Fs} {s : Vfs} {path : List Byte} {now now' : Stamp} {r : ℤ}
    (h : (vfsCreate fs s path now now').map Prod.snd = some r) :
    vfsCreate fs s path now now' = some (vfsCreated fs s path now now', r) := by
  unfold vfsCreated
  cases hr : vfsCreate fs s path now now' with
  | none =>
    rw [hr] at h
    exact nomatch h
  | some q =>
    rw [hr] at h
    exact congrArg some (Prod.ext rfl (Option.some.inj h))

def sampleVfs : Vfs := { vol := sampleVol, fds := fun _ => none }

theorem create_then_open_sample :
    OpensCreated sampleFs sampleVfs (vfsCreated sampleFs sampleVfs [slash, 65#8] ⟨0, 0⟩ ⟨0, 0⟩)
      [slash, 65#8] ⟨0, 0⟩ ↔ Openable sampleFs [2] sampleVol [slash, 65#8] := by
  have hstr : IsCString [slash, 65#8] := by decide
  exact create_then_open_iff sample_ok (s := sampleVfs) sample_wf hstr ⟨0, by decide, rfl⟩
    (vfsCreate_eq (by decide +kernel))

/-- `/A/B` is created under the name `A/B`, and cannot be opened. -/
theorem nested_path_not_openable :
    let s := vfsCreated sampleFs sampleVfs [slash, 65#8, slash, 66#8] ⟨0, 0⟩ ⟨0, 0⟩
    sampleFs.Mounted ∧ Wf sampleFs [2] ∅ sampleVol ∧
      vfsCreate sampleFs sampleVfs [slash, 65#8, slash, 66#8] ⟨0, 0⟩ ⟨0, 0⟩ = some (s, 0) ∧
      (vfsOpen sampleFs s [slash, 65#8, slash, 66#8]).map Option.isSome = some false ∧
      ¬ OpensCreated sampleFs sampleVfs s [slash, 65#8, slash, 66#8] ⟨0, 0⟩ := by
  intro s
  have hopen : (vfsOpen sampleFs s [slash, 65#8, slash, 66#8]).map Option.isSome = some false := by
    decide +kernel
  refine ⟨sample_mounted, sample_wf, vfsCreate_eq (by decide +kernel), hopen, ?_⟩
  rintro ⟨p, v, f, -, -, s'', fd, d, h, -⟩
  rw [h] at hopen
  exact nomatch hopen

end SukiOS.Fat32
