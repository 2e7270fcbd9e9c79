import Mathlib.Data.List.Basic
import SukiOS.Fat32File

/-! Well-formed volumes: every file has a chain of clusters of its own, apart from the chain of the
root directory. What each change of the FAT and of the directory does to them. -/
namespace SukiOS.Fat32
open ByteMemory LinkedChain

/-- The entry is in use: not free, and not part of a long name. -/
def InUse (buf : Mem) (k : ℕ) : Prop :=
  buf (32*k) ≠ 0#8 ∧ buf (32*k) ≠ 0xE5#8 ∧ entAttr buf k ≠ 0x0F

/-- Behind an entry that starts with 0 all entries of the cluster do. -/
def EndMark (fs : Fs) (buf : Mem) : Prop :=
  ∀ i j, i < j → j < fs.entryCount → buf (32*i) = 0#8 → buf (32*j) = 0#8

/-- The clusters of a file; a file of length zero may have none. -/
def FileChain (fs : Fs) (v : Vol) (c : ℕ) (L : List ℕ) : Prop :=
  c = 0 ∧ L = [] ∨ L ≠ [] ∧ FatChain fs v c L

/-- A slot of the root directory: a cluster of it, and the number of an entry. -/
abbrev Slot := ℕ × ℕ

/-- The slot holds an entry in use. -/
def Used (fs : Fs) (v : Vol) (root : List ℕ) (e : Slot) : Prop :=
  e.1 ∈ root ∧ e.2 < fs.entryCount ∧ InUse (readCluster fs v e.1) e.2

instance (buf : Mem) (k : ℕ) : Decidable (InUse buf k) := inferInstanceAs (Decidable (_ ∧ _))

instance (fs : Fs) (v : Vol) (root : List ℕ) (e : Slot) : Decidable (Used fs v root e) :=
  inferInstanceAs (Decidable (_ ∧ _))

/-- The first cluster of the entry. -/
def startOf (fs : Fs) (v : Vol) (e : Slot) : ℕ := entCluster (readCluster fs v e.1) e.2

/-- The chains of the files with the first clusters `own` are apart from each other and from the
chain of the root. -/
structure Owned (fs : Fs) (root : List ℕ) (own : Set ℕ) (v : Vol) : Prop where
  rootChain : FatChain fs v fs.rootCluster root
  chains : ∀ c ∈ own, ∃ L, FileChain fs v c L
  apartRoot : ∀ c ∈ own, ∀ L, FileChain fs v c L → ∀ x ∈ L, x ∉ root
  apart : ∀ c ∈ own, ∀ c' ∈ own, c ≠ c' → ∀ L L', FileChain fs v c L → FileChain fs v c' L' →
    ∀ x ∈ L, x ∉ L'

/-- A well-formed volume: the entries in use are files of `own`, each with a first cluster of its
own unless the file is empty. -/
structure Wf (fs : Fs) (root : List ℕ) (own : Set ℕ) (v : Vol) : Prop
    extends Owned fs root own v where
  endMark : ∀ c ∈ root, EndMark fs (readCluster fs v c)
  starts : ∀ e, Used fs v root e → startOf fs v e ∈ own
  inj : ∀ e e', Used fs v root e → Used fs v root e' → startOf fs v e = startOf fs v e' →
    startOf fs v e ≠ 0 → e = e'

/-- The search of the directory comes to `e` before it comes to `e'`. -/
def Before (root : List ℕ) (e e' : Slot) : Prop :=
  root.idxOf e.1 < root.idxOf e'.1 ∨ e.1 = e'.1 ∧ e.2 < e'.2

instance (root : List ℕ) (e e' : Slot) : Decidable (Before root e e') :=
  inferInstanceAs (Decidable (_ ∨ _))

section Basics
variable {fs : Fs} {v v' : Vol} {root : List ℕ} {own own' : Set ℕ} {c k x : ℕ}
  {K L : List ℕ} {buf : Mem} {e e' : Slot}

theorem before_iff {A B : List ℕ} {c i : ℕ} {e : Slot} (hnd : (A ++ c::B).Nodup) :
    Before (A ++ c::B) e (c, i) ↔ e.1 ∈ A ∨ e.1 = c ∧ e.2 < i := by
  have hc : c ∉ A := by
    rw [List.nodup_append] at hnd
    exact fun hm => hnd.2.2 c hm c List.mem_cons_self rfl
  have hidx : (A ++ c::B).idxOf c = A.length := by
    rw [List.idxOf_append_of_notMem hc, List.idxOf_cons_self, Nat.add_zero]
  have hleft : (A ++ c::B).idxOf e.1 < (A ++ c::B).idxOf c ↔ e.1 ∈ A := by
    rw [hidx]
    by_cases hm : e.1 ∈ A
    · rw [List.idxOf_append_of_mem hm]
      exact ⟨fun _ => hm, fun _ => List.idxOf_lt_length_of_mem hm⟩
    · rw [List.idxOf_append_of_notMem hm]
      exact ⟨fun hlt => absurd hlt (by omega), fun hm' => absurd hm' hm⟩
  exact or_congr_left hleft

theorem before_total {e e' : Slot} (he : e.1 ∈ root) (hne : e ≠ e') :
    Before root e e' ∨ Before root e' e := by
  rcases Nat.lt_trichotomy (root.idxOf e.1) (root.idxOf e'.1) with hlt | heq | hlt
  · exact Or.inl (Or.inl hlt)
  · have hfst : e.1 = e'.1 := (List.idxOf_inj he).mp heq
    rcases Nat.lt_trichotomy e.2 e'.2 with hlt | hsnd | hlt
    · exact Or.inl (Or.inr ⟨hfst, hlt⟩)
    · exact absurd (Prod.ext hfst hsnd) hne
    · exact Or.inr (Or.inr ⟨hfst.symm, hlt⟩)
  · exact Or.inr (Or.inl hlt)

theorem live_iff (h : EndMark fs buf) (hk : k < fs.entryCount) : Live buf k ↔ InUse buf k := by
  refine ⟨fun hl => ⟨hl.1 k (Nat.zero_le k) le_rfl, hl.2⟩, fun hu => ⟨fun j _ hj h0 => ?_, hu.2⟩⟩
  by_cases hjk : j = k
  · rw [hjk] at h0
    exact hu.1 h0
  · exact hu.1 (h j k (by omega) hk h0)

theorem liveAt_iff (h : EndMark fs (readCluster fs v c)) :
    LiveAt fs v c k ↔ k < fs.entryCount ∧ InUse (readCluster fs v c) k :=
  and_congr_right (fun hk => live_iff h hk)

theorem FileChain.unique (hf : fs.Ok) (h : FileChain fs v c K) (h' : FileChain fs v c L) : K =
    L := by
  rcases h with ⟨rfl, rfl⟩ | ⟨hK, h⟩
  · rcases h' with ⟨-, rfl⟩ | ⟨hL, h'⟩
    · rfl
    · cases L with
      | nil => rfl
      | cons y L =>
        have hy := h'.2.1.1
        rw [← h'.1] at hy
        omega
  · rcases h' with ⟨rfl, rfl⟩ | ⟨-, h'⟩
    · cases K with
      | nil => rfl
      | cons y K =>
        have hy := h.2.1.1
        rw [← h.1] at hy
        omega
    · exact h.unique hf h'

theorem FileChain.isData (h : FileChain fs v c L) (hx : x ∈ L) : fs.IsData x := by
  rcases h with ⟨-, rfl⟩ | ⟨-, h⟩
  · exact nomatch hx
  · exact h.isData hx

theorem FileChain.used (hf : fs.Ok) (h : FileChain fs v c L) (hx : x ∈ L) :
    v.fatGet x &&& 0x0FFFFFFF ≠ 0 := by
  rcases h with ⟨-, rfl⟩ | ⟨-, h⟩
  · exact nomatch hx
  · exact h.used hf hx

theorem FileChain.congr (h : FileChain fs v c L) (hn : ∀ x ∈ L, v'.fatGet x = v.fatGet x) :
    FileChain fs v' c L :=
  h.imp_right (fun h => ⟨h.1, h.2.congr hn⟩)

/-- A file with clusters starts with the first of them. -/
theorem FileChain.start_mem (h : FileChain fs v c L) (hc : c ≠ 0) : c ∈ L := by
  rcases h with ⟨h0, -⟩ | ⟨hL, h⟩
  · exact absurd h0 hc
  · cases L with
    | nil => exact absurd rfl hL
    | cons y L =>
      rw [h.1]
      exact List.mem_cons_self

/-- There is less to keep apart when a file is forgotten. -/
theorem Wf.mono (h : Wf fs root own v) (hsub : own' ⊆ own)
    (hs : ∀ e, Used fs v root e → startOf fs v e ∈ own') : Wf fs root own' v where
  rootChain := h.rootChain
  chains := fun c hc => h.chains c (hsub hc)
  apartRoot := fun c hc => h.apartRoot c (hsub hc)
  apart := fun c hc c' hc' => h.apart c (hsub hc) c' (hsub hc')
  endMark := h.endMark
  starts := hs
  inj := h.inj

theorem Wf.root_isData (h : Wf fs root own v) (hc : c ∈ root) : fs.IsData c := h.rootChain.isData hc

/-- `findEntry` finds the first live entry that meets the test, in the order of the search. -/
theorem findEntry_first (hf : fs.Ok) (h : FatChain fs v fs.rootCluster root) (p : Mem → ℕ → Bool) :
    (findEntry fs v p = some none ∧
      ∀ e : Slot, e.1 ∈ root → LiveAt fs v e.1 e.2 → p (readCluster fs v e.1) e.2 = false) ∨
    (∃ e : Slot, findEntry fs v p = some (some e) ∧ (e.1 ∈ root ∧ LiveAt fs v e.1 e.2) ∧
      p (readCluster fs v e.1) e.2 = true ∧
      ∀ e' : Slot, e'.1 ∈ root → LiveAt fs v e'.1 e'.2 → Before root e' e →
        p (readCluster fs v e'.1) e'.2 = false) := by
  rcases findEntry_cases hf h p with ⟨hn, hall⟩ | ⟨c, i, A, B, hs, hr, hl, hp, hA, hi⟩
  · exact Or.inl ⟨hn, fun e he hl => hall e.1 he e.2 hl⟩
  · have hc : c ∈ root := by
      rw [hr]
      simp
    have hnd := h.nodup hf
    refine Or.inr ⟨(c, i), hs, ⟨hc, hl⟩, hp, fun e' _ hlive hb => ?_⟩
    rw [hr] at hnd hb
    rcases (before_iff hnd).mp hb with hx | ⟨hx, hj⟩
    · exact hA e'.1 hx e'.2 hlive
    · rw [hx] at hlive ⊢
      exact hi e'.2 hj hlive

theorem findEntry_iff (hf : fs.Ok) (h : FatChain fs v fs.rootCluster root) {p : Mem → ℕ → Bool} :
    findEntry fs v p = some (some e) ↔ (e.1 ∈ root ∧ LiveAt fs v e.1 e.2) ∧
      p (readCluster fs v e.1) e.2 = true ∧
      ∀ e' : Slot, e'.1 ∈ root → LiveAt fs v e'.1 e'.2 → Before root e' e →
        p (readCluster fs v e'.1) e'.2 = false := by
  rcases findEntry_first hf h p with ⟨hn, hall⟩ | ⟨d, hs, hu, hp, hb⟩
  · rw [hn]
    refine ⟨(fun he => nomatch he), fun he => ?_⟩
    exact nomatch (hall e he.1.1 he.1.2).symm.trans he.2.1
  · rw [hs]
    refine ⟨fun he => ?_, fun ⟨hue, hpe, hbe⟩ => ?_⟩
    · obtain rfl : d = e := Option.some.inj (Option.some.inj he)
      exact ⟨hu, hp, hb⟩
    · by_cases hde : d = e
      · rw [hde]
      · rcases before_total hu.1 hde with hlt | hlt
        · exact nomatch (hbe d hu.1 hu.2 hlt).symm.trans hp
        · exact nomatch (hb e hue.1 hue.2 hlt).symm.trans hpe

/-- In a well-formed volume the entries in use are the live ones. -/
theorem Wf.used_iff (h : Wf fs root own v) :
    Used fs v root e ↔ e.1 ∈ root ∧ LiveAt fs v e.1 e.2 :=
  and_congr_right (fun hc => (liveAt_iff (h.endMark e.1 hc)).symm)

/-- `findEntry` in a well-formed volume finds the first entry in use that meets the test. -/
theorem Wf.findEntry_cases (hf : fs.Ok) (h : Wf fs root own v) (p : Mem → ℕ → Bool) :
    (findEntry fs v p = some none ∧ ∀ e, Used fs v root e → p (readCluster fs v e.1) e.2 = false) ∨
    (∃ e, findEntry fs v p = some (some e) ∧ Used fs v root e ∧
      p (readCluster fs v e.1) e.2 = true ∧
      ∀ e', Used fs v root e' → Before root e' e → p (readCluster fs v e'.1) e'.2 = false) := by
  rcases findEntry_first hf h.rootChain p with ⟨hn, hall⟩ | ⟨e, hs, hu, hp, hb⟩
  · refine Or.inl ⟨hn, fun e he => ?_⟩
    obtain ⟨hc, hl⟩ := h.used_iff.mp he
    exact hall e hc hl
  · refine Or.inr ⟨e, hs, h.used_iff.mpr hu, hp, fun e' he' => ?_⟩
    obtain ⟨hc, hl⟩ := h.used_iff.mp he'
    exact hb e' hc hl

theorem Wf.findEntry_iff (hf : fs.Ok) (h : Wf fs root own v) {p : Mem → ℕ → Bool} :
    findEntry fs v p = some (some e) ↔ Used fs v root e ∧ p (readCluster fs v e.1) e.2 = true ∧
      ∀ e', Used fs v root e' → Before root e' e → p (readCluster fs v e'.1) e'.2 = false := by
  rw [Fat32.findEntry_iff hf h.rootChain, ← h.used_iff]
  refine and_congr_right (fun _ => and_congr_right
    (fun _ => ⟨fun hall e' he' => ?_, fun hall e' hc hl => ?_⟩))
  · obtain ⟨hc, hl⟩ := h.used_iff.mp he'
    exact hall e' hc hl
  · exact hall e' (h.used_iff.mpr ⟨hc, hl⟩)

end Basics

/-! ### The table -/

section Table
variable {fs : Fs} {v v' : Vol} {root : List ℕ} {own : Set ℕ} {c n : ℕ} {L N : List ℕ}

/-- The chains of the other files do not meet a chain that grows by free clusters. -/
theorem Owned.away_extended (hf : fs.Ok) (h : Owned fs root own v) (hc : c ∈ own)
    (hL : FileChain fs v c L) (hfree : ∀ n ∈ N, v.fatGet n &&& 0x0FFFFFFF = 0) {d y : ℕ}
    {M : List ℕ} (hd : d ∈ own) (hne : d ≠ c) (hM : FileChain fs v d M) (hy : y ∈ M) :
    y ∉ L ++ N := by
  intro hm
  rcases List.mem_append.mp hm with hm | hm
  · exact h.apart d hd c hc hne M L hM hL y hy hm
  · exact hM.used hf hy (hfree y hm)

/-- The chain of one file grows by clusters that were free. -/
theorem Owned.extend (hf : fs.Ok) (h : Owned fs root own v) (hc : c ∈ own)
    (hL : FileChain fs v c L) (hN : FileChain fs v' c (L ++ N))
    (hfree : ∀ n ∈ N, v.fatGet n &&& 0x0FFFFFFF = 0)
    (hfat : ∀ y, y ∉ L ++ N → v'.fatGet y = v.fatGet y) : Owned fs root own v' := by
  have hroot (y : ℕ) (hy : y ∈ root) : y ∉ L ++ N := by
    intro hm
    rcases List.mem_append.mp hm with hm | hm
    · exact h.apartRoot c hc L hL y hm hy
    · exact h.rootChain.used hf hy (hfree y hm)
  have hother (d : ℕ) (hd : d ∈ own) (hne : d ≠ c) (M : List ℕ) (hM : FileChain fs v d M) (y : ℕ)
      (hy : y ∈ M) : y ∉ L ++ N := h.away_extended hf hc hL hfree hd hne hM hy
  -- the chain of a file in the new volume
  have hkind (d : ℕ) (hd : d ∈ own) (M : List ℕ) (hM : FileChain fs v' d M) :
      d = c ∧ M = L ++ N ∨ d ≠ c ∧ FileChain fs v d M := by
    by_cases hdc : d = c
    · subst hdc
      exact Or.inl ⟨rfl, hM.unique hf hN⟩
    · obtain ⟨M', hM'⟩ := h.chains d hd
      have hnew : FileChain fs v' d M' :=
        hM'.congr (fun x hx => hfat x (hother d hd hdc M' hM' x hx))
      rw [hM.unique hf hnew]
      exact Or.inr ⟨hdc, hM'⟩
  refine { rootChain := ?_, chains := ?_, apartRoot := ?_, apart := ?_ }
  · exact h.rootChain.congr (fun x hx => hfat x (hroot x hx))
  · intro d hd
    by_cases hdc : d = c
    · exact ⟨L ++ N, hdc ▸ hN⟩
    · obtain ⟨M, hM⟩ := h.chains d hd
      exact ⟨M, hM.congr (fun x hx => hfat x (hother d hd hdc M hM x hx))⟩
  · intro d hd M hM x hx hr
    rcases hkind d hd M hM with ⟨-, rfl⟩ | ⟨-, hM⟩
    · exact hroot x hr hx
    · exact h.apartRoot d hd M hM x hx hr
  · intro d1 h1 d2 h2 hne M1 M2 hM1 hM2 x hx hx'
    rcases hkind d1 h1 M1 hM1 with ⟨rfl, rfl⟩ | ⟨hn1, hM1⟩
    · rcases hkind d2 h2 M2 hM2 with ⟨rfl, -⟩ | ⟨hn2, hM2⟩
      · exact hne rfl
      · exact hother d2 h2 hn2 M2 hM2 x hx' hx
    · rcases hkind d2 h2 M2 hM2 with ⟨rfl, rfl⟩ | ⟨hn2, hM2⟩
      · exact hother d1 h1 hn1 M1 hM1 x hx hx'
      · exact h.apart d1 h1 d2 h2 hne M1 M2 hM1 hM2 x hx hx'

/-- A table with the same entries. -/
theorem Owned.congr (h : Owned fs root own v) (hfat : ∀ y, v'.fatGet y = v.fatGet y) :
    Owned fs root own v' := by
  have hback (d : ℕ) (M : List ℕ) (hM : FileChain fs v' d M) : FileChain fs v d M :=
    hM.congr (fun x _ => (hfat x).symm)
  refine { rootChain := h.rootChain.congr (fun x _ => hfat x), chains := ?_, apartRoot := ?_
           apart := ?_ }
  · intro d hd
    obtain ⟨M, hM⟩ := h.chains d hd
    exact ⟨M, hM.congr (fun x _ => hfat x)⟩
  · exact fun d hd M hM => h.apartRoot d hd M (hback d M hM)
  · exact fun d hd d' hd' hne M M' hM hM' =>
      h.apart d hd d' hd' hne M M' (hback d M hM) (hback d' M' hM')

theorem new_chain (hf : fs.Ok) (hn : fs.IsData n) (hend : v.fatGet n = fatEof) :
    FatChain fs v n [n] := by
  refine ⟨rfl, hn, ?_⟩
  show fatEof ≤ fatNextCluster fs v n
  rw [fatNextCluster_eq hf hn, hend]
  decide

/-- A new file takes a free cluster. -/
theorem Owned.add (hf : fs.Ok) (h : Owned fs root own v) (hn : fs.IsData n)
    (hfree : v.fatGet n &&& 0x0FFFFFFF = 0) (hend : v'.fatGet n = fatEof)
    (hfat : ∀ y, y ≠ n → v'.fatGet y = v.fatGet y) : Owned fs root (insert n own) v' := by
  have hnew : FileChain fs v' n [n] := Or.inr ⟨List.cons_ne_nil n [], new_chain hf hn hend⟩
  have hnot (d : ℕ) (M : List ℕ) (hM : FileChain fs v d M) (y : ℕ) (hy : y ∈ M) : y ≠ n := by
    rintro rfl
    exact hM.used hf hy hfree
  have hroot (y : ℕ) (hy : y ∈ root) : y ≠ n := by
    rintro rfl
    exact h.rootChain.used hf hy hfree
  -- each chain is the new cluster alone, or one from before
  have hkind (d : ℕ) (hd : d ∈ insert n own) (M : List ℕ) (hM : FileChain fs v' d M) :
      d = n ∧ M = [n] ∨ d ∈ own ∧ FileChain fs v d M := by
    rcases hd with rfl | hd
    · exact Or.inl ⟨rfl, hM.unique hf hnew⟩
    · obtain ⟨M', hM'⟩ := h.chains d hd
      have hkeep : FileChain fs v' d M' := hM'.congr (fun x hx => hfat x (hnot d M' hM' x hx))
      rw [hM.unique hf hkeep]
      exact Or.inr ⟨hd, hM'⟩
  refine { rootChain := ?_, chains := ?_, apartRoot := ?_, apart := ?_ }
  · exact h.rootChain.congr (fun x hx => hfat x (hroot x hx))
  · rintro d (rfl | hd)
    · exact ⟨[d], hnew⟩
    · obtain ⟨M, hM⟩ := h.chains d hd
      exact ⟨M, hM.congr (fun x hx => hfat x (hnot d M hM x hx))⟩
  · intro d hd M hM x hx hr
    rcases hkind d hd M hM with ⟨-, rfl⟩ | ⟨hd, hM⟩
    · exact hroot x hr (List.mem_singleton.mp hx)
    · exact h.apartRoot d hd M hM x hx hr
  · intro d1 h1 d2 h2 hne M1 M2 hM1 hM2 x hx hx'
    rcases hkind d1 h1 M1 hM1 with ⟨rfl, rfl⟩ | ⟨h1, hM1⟩
    · rcases hkind d2 h2 M2 hM2 with ⟨rfl, -⟩ | ⟨h2, hM2⟩
      · exact hne rfl
      · exact hnot d2 M2 hM2 x hx' (List.mem_singleton.mp hx)
    · rcases hkind d2 h2 M2 hM2 with ⟨rfl, rfl⟩ | ⟨h2, hM2⟩
      · exact hnot d1 M1 hM1 x hx (List.mem_singleton.mp hx')
      · exact h.apart d1 h1 d2 h2 hne M1 M2 hM1 hM2 x hx hx'

/-- A file gives its clusters back. -/
theorem Owned.remove (hf : fs.Ok) (h : Owned fs root own v) (hc : c ∈ own) (hL : FileChain fs v c L)
    (hfat : ∀ y, y ∉ L → v'.fatGet y = v.fatGet y) : Owned fs root (own \ {c}) v' := by
  have hkeep (d : ℕ) (hd : d ∈ own \ {c}) (M : List ℕ) (hM : FileChain fs v d M) :
      FileChain fs v' d M :=
    hM.congr (fun x hx => hfat x (h.apart d hd.1 c hc hd.2 M L hM hL x hx))
  have hback (d : ℕ) (hd : d ∈ own \ {c}) (M : List ℕ) (hM : FileChain fs v' d M) :
      FileChain fs v d M := by
    obtain ⟨M', hM'⟩ := h.chains d hd.1
    rw [hM.unique hf (hkeep d hd M' hM')]
    exact hM'
  refine { rootChain := ?_, chains := ?_, apartRoot := ?_, apart := ?_ }
  · exact h.rootChain.congr (fun x hx => hfat x (fun hm => h.apartRoot c hc L hL x hm hx))
  · intro d hd
    obtain ⟨M, hM⟩ := h.chains d hd.1
    exact ⟨M, hkeep d hd M hM⟩
  · exact fun d hd M hM => h.apartRoot d hd.1 M (hback d hd M hM)
  · exact fun d hd d' hd' hne M M' hM hM' =>
      h.apart d hd.1 d' hd'.1 hne M M' (hback d hd M hM) (hback d' hd' M' hM')

/-- Every cluster whose entry is not 0 belongs to the root or to a file. -/
def NoneLost (fs : Fs) (root : List ℕ) (own : Set ℕ) (v : Vol) : Prop :=
  ∀ y, fs.IsData y → v.fatGet y ≠ 0 → y ∈ root ∨ ∃ d ∈ own, ∃ M, FileChain fs v d M ∧ y ∈ M

theorem NoneLost.extend (hf : fs.Ok) (h : NoneLost fs root own v) (ho : Owned fs root own v)
    (hc : c ∈ own) (hL : FileChain fs v c L) (hN : FileChain fs v' c (L ++ N))
    (hfree : ∀ n ∈ N, v.fatGet n &&& 0x0FFFFFFF = 0)
    (hfat : ∀ y, y ∉ L ++ N → v'.fatGet y = v.fatGet y) : NoneLost fs root own v' := by
  intro y hy h0
  by_cases hm : y ∈ L ++ N
  · exact Or.inr ⟨c, hc, L ++ N, hN, hm⟩
  · rw [hfat y hm] at h0
    rcases h y hy h0 with hr | ⟨d, hd, M, hM, hyM⟩
    · exact Or.inl hr
    · have hdc : d ≠ c := by
        rintro rfl
        rw [hM.unique hf hL] at hyM
        exact hm (List.mem_append_left N hyM)
      exact Or.inr ⟨d, hd, M, hM.congr (fun x hx =>
        hfat x (ho.away_extended hf hc hL hfree hd hdc hM hx)), hyM⟩

theorem NoneLost.congr (h : NoneLost fs root own v) (hfat : ∀ y, v'.fatGet y = v.fatGet y) :
    NoneLost fs root own v' := by
  intro y hy h0
  rw [hfat] at h0
  rcases h y hy h0 with hr | ⟨d, hd, M, hM, hyM⟩
  · exact Or.inl hr
  · exact Or.inr ⟨d, hd, M, hM.congr (fun x _ => hfat x), hyM⟩

theorem NoneLost.add (hf : fs.Ok) (h : NoneLost fs root own v) (hn : fs.IsData n)
    (hfree : v.fatGet n &&& 0x0FFFFFFF = 0) (hend : v'.fatGet n = fatEof)
    (hfat : ∀ y, y ≠ n → v'.fatGet y = v.fatGet y) : NoneLost fs root (insert n own) v' := by
  intro y hy h0
  by_cases hyn : y = n
  · subst hyn
    exact Or.inr ⟨y, Set.mem_insert y own, [y],
      Or.inr ⟨List.cons_ne_nil y [], new_chain hf hn hend⟩,
      List.mem_singleton_self y⟩
  · rw [hfat y hyn] at h0
    rcases h y hy h0 with hr | ⟨d, hd, M, hM, hyM⟩
    · exact Or.inl hr
    · refine Or.inr ⟨d, Set.mem_insert_of_mem n hd, M, hM.congr (fun x hx => hfat x ?_), hyM⟩
      rintro rfl
      exact hM.used hf hx hfree

theorem NoneLost.remove (hf : fs.Ok) (h : NoneLost fs root own v) (ho : Owned fs root own v)
    (hc : c ∈ own) (hL : FileChain fs v c L)
    (hfat : ∀ y, v'.fatGet y = if y ∈ L then 0 else v.fatGet y) :
    NoneLost fs root (own \ {c}) v' := by
  intro y hy h0
  have hm : y ∉ L := by
    intro hm
    rw [hfat, if_pos hm] at h0
    exact h0 rfl
  rw [hfat, if_neg hm] at h0
  rcases h y hy h0 with hr | ⟨d, hd, M, hM, hyM⟩
  · exact Or.inl hr
  · have hdc : d ≠ c := by
      rintro rfl
      rw [hM.unique hf hL] at hyM
      exact hm hyM
    refine Or.inr ⟨d, ⟨hd, hdc⟩, M, hM.congr (fun x hx => ?_), hyM⟩
    rw [hfat, if_neg (ho.apart d hd c hc hdc M L hM hL x hx)]

/-- `fat32_free_cluster_chain` clears the entries of the chain. -/
theorem freeChainFrom_spec (hf : fs.Ok) (n : ℕ) : ∀ (v : Vol) (c : ℕ) (L : List ℕ),
    FatChain fs v c L → L.length ≤ n → (freeChainFrom v n c).disk = v.disk ∧
      ∀ y, (freeChainFrom v n c).fatGet y = if y ∈ L then 0 else v.fatGet y := by
  induction n with
  | zero =>
    intro v c L _ hn
    obtain rfl : L = [] := List.length_eq_zero_iff.mp (by omega)
    exact ⟨rfl, fun y => (if_neg (List.not_mem_nil)).symm⟩
  | succ n ih =>
    intro v c L h hn
    unfold freeChainFrom
    cases L with
    | nil =>
      have hend : fatEof ≤ c := h
      rw [if_neg (by omega)]
      exact ⟨rfl, fun y => (if_neg (List.not_mem_nil)).symm⟩
    | cons x L =>
      -- the rest of the chain does not use the entry that is cleared
      have hnd := h.nodup hf
      obtain ⟨rfl, hx, hrest⟩ := h
      have hrest : FatChain fs v (fatNextCluster fs v c) L := hrest
      rw [if_pos ⟨hx.1, hf.data_lt_eof hx⟩]
      dsimp only
      rw [← fatNextCluster_eq hf hx]
      have hset (y : ℕ) : (v.fatSet c 0).fatGet y = if y = c then 0 else v.fatGet y :=
        fatGet_fatSet (by decide)
      by_cases hend : fatEof ≤ fatNextCluster fs v c
      · rw [if_pos hend]
        have hnil : L = [] := hrest.unique hf (L := []) hend
        subst hnil
        refine ⟨rfl, fun y => ?_⟩
        rw [hset]
        simp only [List.mem_singleton]
      · rw [if_neg hend]
        have hnot : c ∉ L := (List.nodup_cons.mp hnd).1
        have hrest' : FatChain fs (v.fatSet c 0) (fatNextCluster fs v c) L := by
          apply hrest.congr
          intro y hy
          rw [hset, if_neg (fun he : y = c => hnot (he ▸ hy))]
        obtain ⟨hd, hall⟩ := ih _ _ L hrest' (by simpa using hn)
        refine ⟨hd, fun y => ?_⟩
        rw [hall, hset]
        by_cases hyc : y = c
        · simp [hyc]
        · simp [hyc]

end Table

end SukiOS.Fat32
