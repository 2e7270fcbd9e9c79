import SukiOS.IdeRuns

/-! `ide_init`: which of the drives of the channel it finds, and what it leaves of them. -/
namespace SukiOS.Ata
open ByteMemory Polling Polling.Io
open Fat32 (TaskFile)

/-! ### `ide_probe_ata` -/

/-- Both drives, where there are any, are idle. -/
def Channel.Rests (c : Channel) : Prop := ∀ b d, c.drive b = some d → ∃ err, d.phase = .idle err

/-- There is a drive with sectors. -/
def Channel.hasAta (c : Channel) (slave : Bool) : Bool :=
  match c.drive slave with
  | none => false
  | some d => !d.packet

/-- A drive that has been given `turns` commands, and none that writes. -/
def SameDisk (turns : ℕ) (o o' : Option Drive) : Prop :=
  (o = none ∧ o' = none) ∨ ∃ d d', o = some d ∧ o' = some d' ∧ d'.disk = d.disk ∧ d'.fate = d.fate ∧
    d'.turn = d.turn + turns ∧ d'.packet = d.packet ∧ ∃ err, d'.phase = .idle err

section Probe
variable {c : Channel} {d : Drive} {n : ℕ} {p : Phase} {words : List (BitVec 16)}

theorem Phase.polled_delayed (hp : p.polled = p) (n : ℕ) :
    (Phase.delayed n p).polled = .delayed (n-1) p := by
  cases n with
  | zero => exact hp
  | succ n => exact Phase.polled_busy n p

theorem Phase.flags_ne_zero (p : Phase) : p.flags &&& 0xC0#8 ≠ 0#8 := by
  cases p with
  | idle err => cases err <;> decide
  | busy n next => show 0x80#8 &&& 0xC0#8 ≠ 0#8; decide
  | dataIn words => show 0x48#8 &&& 0xC0#8 ≠ 0#8; decide
  | dataOut lba fate words => show 0x48#8 &&& 0xC0#8 ≠ 0#8; decide

theorem data_ready : (Phase.dataIn words).flags &&& 0x80#8 = 0#8 ∧
    (Phase.dataIn words).flags &&& 0x40#8 ≠ 0#8 := by
  show 0x48#8 &&& 0x80#8 = 0#8 ∧ 0x48#8 &&& 0x40#8 ≠ 0#8
  decide

theorem Drive.status_ne_zero (d : Drive) : d.status ≠ 0#8 := by
  intro h0
  have hand := d.status_and (m := 0xC0#8) (by decide)
  rw [h0, BitVec.zero_and] at hand
  exact d.phase.flags_ne_zero hand.symm

/-- After a command the status is not 0, and the drive becomes ready. -/
theorem answer_returns (h : c.drive c.onSlave = some d) (hd : d.phase = .delayed n p)
    (hp : p.polled = p) (hready : p.flags &&& 0x80#8 = 0#8 ∧ p.flags &&& 0x40#8 ≠ 0#8) :
    ∃ status c', Completes (input Channel.inStatus) c status c' ∧ status ≠ 0#8 ∧
      Completes ideWaitReady c' 0 (c.setDrive c.onSlave (d.enter p)) := by
  have hread := Completes.input Channel.inStatus (d := c)
  rw [inStatus_eq h, hd, Phase.polled_delayed hp] at hread
  have hwait := ideWaitReady_returns (c := c.setDrive c.onSlave (d.enter (.delayed (n-1) p)))
    (d := d.enter (.delayed (n-1) p)) (by simp) rfl hp hready
  simp only [Channel.setDrive_onSlave, Channel.setDrive_setDrive] at hwait
  exact ⟨_, _, hread, d.status_ne_zero, hwait⟩

/-- What `ide_probe_ata` does with the data of the drive. -/
def drain : Io Channel Unit :=
  forUpTo (fun _ _ => do
    let _ ← input Channel.inData
    pure ()) () 256

theorem drain_data (h : c.drive c.onSlave = some d) (hd : d.phase = .dataIn words)
    (hlen : words.length = 256) :
    Completes drain c () (c.setDrive c.onSlave (d.enter (.idle false))) := by
  have hstart : c.setDrive c.onSlave (d.enter (giving words 0)) = c := by
    rw [giving, if_pos (by omega), List.drop_zero, ← hd, Drive.enter_self, Channel.setDrive_self h]
  have hend : giving words 256 = .idle false := by
    rw [giving, if_neg (by omega)]
  have hloop := Completes.loop (f := fun _ _ => do
        let _ ← input Channel.inData
        pure ()) (fun _ => ())
      (fun i => c.setDrive c.onSlave (d.enter (giving words i))) (n := 256) (fun i hi => by
    have hin : i < words.length := by omega
    have hin := inData_giving c d hin
    refine (Completes.input Channel.inData).bind ?_
    rw [hin]
    exact Completes.pure)
  rw [hstart, hend] at hloop
  exact hloop

/-- A drive that has refused the command has no data. -/
theorem drain_idle (err : Bool) (h : c.drive c.onSlave = some d) (hd : d.phase = .idle err) :
    Completes drain c () c := by
  apply Completes.loop (fun _ => ()) (fun _ => c)
  intro i _
  have htake : d.takeWord = (0xFFFF#16, d) := by rw [Drive.takeWord, hd]
  have hin : c.inData.2 = c := by
    rw [Channel.inData, h]
    dsimp only
    rw [htake]
    exact Channel.setDrive_self h
  have hread := (Completes.input Channel.inData (d := c)).bind
    (f := fun _ => pure ()) Completes.pure
  rw [hin] at hread
  exact hread

/-- The end of `ide_probe_ata`: a packet drive shows itself by its signature. -/
def signature : Io Channel Bool := do
  let mid ← input fun c => (c.regs.lbaMid, c)
  let high ← input fun c => (c.regs.lbaHigh, c)
  if mid = 0x14 ∧ high = 0xEB then pure false
  else do
    drain
    pure true

/-- `ide_probe_ata` after its command. -/
def answer : Io Channel Bool := do
  let status ← input Channel.inStatus
  if status = 0#8 then pure false
  else do
    let r ← ideWaitReady
    if r ≠ 0 then pure false
    else signature

/-- The channel when `ide_probe_ata` gives its command. -/
def probing (c : Channel) (driveSel : ℕ) : Channel :=
  { c with count := 0, regs := ⟨0, 0, 0, driveSel⟩ }

theorem SameDisk.of_idle {err : Bool} (hd : d.phase = .idle err) : SameDisk 0 (some d) (some d) :=
  Or.inr ⟨d, d, rfl, rfl, rfl, rfl, rfl, rfl, err, hd⟩

/-- `ide_probe_ata` up to the command. -/
theorem select_returns (hrest : c.Rests) (x : ℕ) :
    Completes (forUpTo (fun _ _ => readStatus) () 10) (c.out (.driveSel, x)) ()
      (c.out (.driveSel, x)) := by
  apply delay_returns
  intro d hd
  obtain ⟨err, he⟩ := hrest (x.testBit 4) d hd
  rw [he]
  rfl

theorem probe_of_answer (hrest : c.Rests) (x : ℕ) {c' : Channel} {r : Bool}
    (hm : Completes answer ((probing c x).out (.command, 0xEC)) r c') :
    Completes (ideProbeAta x) c r c' :=
  (Completes.output _).bind ((select_returns hrest x).bind ((Completes.output _).bind
    ((Completes.output _).bind ((Completes.output _).bind ((Completes.output _).bind
      ((Completes.output _).bind hm))))))

/-- A missing drive that reads as busy is waited for without end. -/
theorem probe_hangs (hrest : c.Rests) (x : ℕ) (hnone : c.drive (x.testBit 4) = none)
    (hbusy : c.absent = 0xFF#8) : Hangs (ideProbeAta x) c := by
  have hnone : (probing c x).drive (probing c x).onSlave = none := hnone
  have hout : (probing c x).out (.command, 0xEC) = probing c x := by
    simp only [Channel.out, hnone]
  have hin : (probing c x).inStatus = (0xFF#8, probing c x) := by
    rw [Channel.inStatus, hnone, ← hbusy]
    rfl
  have hread := Completes.input Channel.inStatus (d := probing c x)
  rw [hin] at hread
  have hwait : Hangs ideWaitReady (probing c x) := by
    apply Hangs.bind
    apply Hangs.wait (P := fun c' => c' = probing c x) rfl
    rintro c' rfl
    rw [hin]
    exact ⟨(by decide : decide (0xFF#8 &&& 0x80#8 = 0#8) = false), rfl⟩
  have hanswer : Hangs answer (probing c x) := by
    apply Hangs.after hread
    rw [if_neg (by decide : ¬ 0xFF#8 = 0#8)]
    exact hwait.bind
  rw [← hout] at hanswer
  exact Hangs.after (Completes.output _) (Hangs.after (select_returns hrest x)
    (Hangs.after (Completes.output _) (Hangs.after (Completes.output _)
      (Hangs.after (Completes.output _)
      (Hangs.after (Completes.output _) (Hangs.after (Completes.output _) hanswer))))))

/-- A probe finds a drive with sectors. -/
theorem probe_returns (hrest : c.Rests) (x : ℕ)
    (hquiet : c.drive (x.testBit 4) = none → c.absent = 0#8) :
    ∃ c', Completes (ideProbeAta x) c (c.hasAta (x.testBit 4)) c' ∧ c'.absent = c.absent ∧
      SameDisk 1 (c.drive (x.testBit 4)) (c'.drive (x.testBit 4)) ∧
      c'.drive (!x.testBit 4) = c.drive (!x.testBit 4) := by
  have hon : (probing c x).onSlave = x.testBit 4 := rfl
  have hdrives : ∀ b, (probing c x).drive b = c.drive b := fun b => rfl
  cases hd : c.drive (x.testBit 4) with
  | none =>
    -- nothing answers, and the status is 0
    have hnone : (probing c x).drive (probing c x).onSlave = none := hd
    have hout : (probing c x).out (.command, 0xEC) = probing c x := by
      simp only [Channel.out, hnone]
    have hin : (probing c x).inStatus = (0#8, probing c x) := by
      rw [Channel.inStatus, hnone, ← hquiet hd]
      rfl
    have hat : c.hasAta (x.testBit 4) = false := by rw [Channel.hasAta, hd]
    have hread := Completes.input Channel.inStatus (d := probing c x)
    rw [hin] at hread
    refine ⟨probing c x, ?_, rfl, Or.inl ⟨rfl, hd⟩, rfl⟩
    rw [hat]
    apply probe_of_answer hrest x
    rw [hout]
    exact hread.bind Completes.pure
  | some d =>
    have hsome : (probing c x).drive (probing c x).onSlave = some d := hd
    have hat : c.hasAta (x.testBit 4) = !d.packet := by rw [Channel.hasAta, hd]
    have hout : (probing c x).out (.command, 0xEC) =
        { (probing c x).setDrive (x.testBit 4) (d.command (probing c x).regs 0 0xEC).1 with
          regs := (d.command (probing c x).regs 0 0xEC).2 } := by
      simp only [Channel.out, hsome]
      rfl
    -- what is left once the drive `d2` has its command and will be in the phase `p`
    have hrun (d2 : Drive) (t : TaskFile) (n : ℕ) (p : Phase) (r : Bool) (err : Bool)
        (hcmd : d.command (probing c x).regs 0 0xEC = (d2, t)) (hsel : t.driveSel = x)
        (h2 : d2.disk = d.disk ∧ d2.fate = d.fate ∧ d2.turn = d.turn + 1 ∧ d2.packet = d.packet)
        (hph : d2.phase = .delayed n p) (hp : p.polled = p)
        (hready : p.flags &&& 0x80#8 = 0#8 ∧ p.flags &&& 0x40#8 ≠ 0#8)
        (hend : ∀ c4 : Channel, c4.regs = t → c4.drive c4.onSlave = some (d2.enter p) →
          Completes signature c4 r (c4.setDrive c4.onSlave (d2.enter (.idle err)))) :
        ∃ c', Completes (ideProbeAta x) c r c' ∧ c'.absent = c.absent ∧
          SameDisk 1 (some d) (c'.drive (x.testBit 4)) ∧
          c'.drive (!x.testBit 4) = c.drive (!x.testBit 4) := by
      rw [hcmd] at hout
      generalize hc2 : ({ (probing c x).setDrive (x.testBit 4) d2 with regs := t } : Channel) =
        c2 at hout
      have hregs : c2.regs = t := by rw [← hc2]
      have hon2 : c2.onSlave = x.testBit 4 := by rw [Channel.onSlave, hregs, hsel]
      have hd2 : c2.drive c2.onSlave = some d2 := by
        rw [hon2, ← hc2]
        cases x.testBit 4 <;> rfl
      obtain ⟨status, c3, hread, hne, hwait⟩ := answer_returns hd2 hph hp hready
      have hfin := hend (c2.setDrive c2.onSlave (d2.enter p)) (by simp [hregs]) (by simp)
      simp only [Channel.setDrive_onSlave, Channel.setDrive_setDrive] at hfin
      refine ⟨c2.setDrive c2.onSlave (d2.enter (.idle err)), ?_, ?_, ?_, ?_⟩
      · apply probe_of_answer hrest x
        rw [hout]
        refine hread.bind ?_
        rw [if_neg hne]
        exact hwait.bind hfin
      · rw [hon2, ← hc2]
        cases x.testBit 4 <;> rfl
      · refine Or.inr ⟨d, d2.enter (.idle err), rfl, ?_, h2.1, h2.2.1, h2.2.2.1, h2.2.2.2, err, rfl⟩
        rw [hon2, Channel.drive_setDrive_self]
      · rw [hon2, Channel.drive_other, ← hc2]
        cases x.testBit 4 <;> rfl
    rw [hat]
    cases hpk : d.packet with
    | true =>
      refine hrun { d.enter (.delayed (d.fate d.turn).wait (.idle true)) with turn := d.turn + 1 }
        { (probing c x).regs with lbaMid := 0x14, lbaHigh := 0xEB } (d.fate d.turn).wait
        (.idle true)
        false true ?_ ?_ ⟨rfl, rfl, rfl, rfl⟩ rfl rfl (idle_ready true) ?_
      · rw [Drive.command, if_neg (by omega), if_neg (by omega), if_neg (by omega),
          if_neg (by rw [hpk]; decide), if_pos rfl]
      · rfl
      · intro c4 hregs hd4
        rw [Channel.setDrive_self hd4]
        refine (Completes.input _).bind ((Completes.input _).bind ?_)
        rw [hregs, if_pos ⟨rfl, rfl⟩]
        exact Completes.pure
    | false =>
      have hcmd : d.command (probing c x).regs 0 0xEC =
          ({ d.enter (.delayed (d.fate d.turn).wait (if (d.fate d.turn).accepted
            then .dataIn ((List.range 256).map d.ident) else .idle true)) with turn := d.turn + 1 },
            (probing c x).regs) := by
        rw [Drive.command, if_neg (by omega), if_neg (by omega), if_neg (by omega),
          if_pos ⟨rfl, hpk⟩]
      have hsign (c4 c' : Channel) (hregs : c4.regs = (probing c x).regs)
          (hdrain : Completes drain c4 () c') :
          Completes signature c4 true c' := by
        refine (Completes.input _).bind ((Completes.input _).bind ?_)
        rw [hregs, if_neg (fun h => absurd (h.1 : (0 : ℕ) = 0x14) (by decide))]
        exact hdrain.bind Completes.pure
      cases hacc : (d.fate d.turn).accepted with
      | true =>
        rw [hacc, if_pos rfl] at hcmd
        refine hrun _ _ (d.fate d.turn).wait _ true false hcmd rfl ⟨rfl, rfl, rfl, rfl⟩ rfl rfl
          data_ready ?_
        intro c4 hregs hd4
        have hlen : ((List.range 256).map d.ident).length = 256 := by
          rw [List.length_map, List.length_range]
        exact hsign c4 _ hregs (drain_data hd4 (d := Drive.enter _ _) rfl hlen)
      | false =>
        rw [hacc, if_neg Bool.false_ne_true] at hcmd
        refine hrun _ _ (d.fate d.turn).wait _ true true hcmd rfl ⟨rfl, rfl, rfl, rfl⟩ rfl rfl
          (idle_ready true) ?_
        intro c4 hregs hd4
        have hidle := drain_idle true hd4 rfl
        rw [Channel.setDrive_self hd4]
        exact hsign c4 _ hregs hidle

end Probe

/-! ### `ide_init` -/

/-- No missing drive that is probed reads as busy. -/
def Channel.Quiet (c : Channel) : Prop :=
  c.absent = 0#8 ∨ c.hasAta false = true ∨ c.master ≠ none ∧ c.slave ≠ none

section Init
variable {c c' : Channel} {d : Drive} {o o' : Option Drive} {n : ℕ}

theorem SameDisk.rests (h : SameDisk n o o') : ∀ d, o' = some d → ∃ err, d.phase = .idle err := by
  intro d hd
  rcases h with ⟨-, hnone⟩ | ⟨-, d', -, hd', -, -, -, -, err, he⟩
  · exact nomatch hnone.symm.trans hd
  · exact ⟨err, (Option.some.inj (hd'.symm.trans hd)) ▸ he⟩

theorem SameDisk.refl_of_rests (hrest : c.Rests) (b : Bool) :
    SameDisk 0 (c.drive b) (c.drive b) := by
  cases hd : c.drive b with
  | none => exact Or.inl ⟨rfl, rfl⟩
  | some d =>
    obtain ⟨err, he⟩ := hrest b d hd
    exact .of_idle he

theorem rests_of_probe (hrest : c.Rests) {b : Bool} (h : SameDisk 1 (c.drive b) (c'.drive b))
    (hother : c'.drive (!b) = c.drive (!b)) : c'.Rests := by
  intro b' d hd
  by_cases hb : b' = b
  · subst hb
    exact h.rests d hd
  · have hb' : b' = !b := by cases b <;> cases b' <;> first | rfl | exact absurd rfl hb
    rw [hb', hother] at hd
    exact hrest (!b) d hd

/-- `ide_init` selects the first drive that has sectors, and leaves all sectors as they are; where a
missing drive that is probed reads as busy, it does not return. -/
theorem ideInit_cases (hrest : c.Rests) (habs : c.absent = 0#8 ∨ c.absent = 0xFF#8) :
    (c.Quiet → ∃ c', Completes ideInit c (Fat32.ideInit (c.hasAta false) (c.hasAta true)) c' ∧
      SameDisk 1 c.master c'.master ∧ SameDisk (if c.hasAta false then 0 else 1) c.slave c'.slave) ∧
    (¬ c.Quiet → Hangs ideInit c) := by
  have hbit0 : (0xE0 : ℕ).testBit 4 = false := by decide
  have hbit1 : (0xF0 : ℕ).testBit 4 = true := by decide
  have hloud (h : ¬ c.Quiet) : c.absent = 0xFF#8 := habs.resolve_left (fun h0 => h (Or.inl h0))
  by_cases hmaster : c.master = none ∧ c.absent ≠ 0#8
  · -- the master is missing and reads as busy
    have hata : c.hasAta false = false := by
      show (match c.master with | none => false | some d => !d.packet) = false
      rw [hmaster.1]
    have hnot : ¬ c.Quiet := by
      rintro (h | h | h)
      · exact hmaster.2 h
      · exact nomatch hata.symm.trans h
      · exact h.1 hmaster.1
    refine ⟨fun h => absurd h hnot, fun _ => ?_⟩
    exact (probe_hangs hrest 0xE0 (hbit0 ▸ hmaster.1) (hloud hnot)).bind
  have hquiet0 : c.drive ((0xE0 : ℕ).testBit 4) = none → c.absent = 0#8 := by
    intro h
    by_contra hne
    exact hmaster ⟨h, hne⟩
  obtain ⟨c1, hprobe, habs1, hsame, hother⟩ := probe_returns hrest 0xE0 hquiet0
  rw [hbit0] at hprobe hsame hother
  have hslave : c1.slave = c.slave := hother
  cases hata : c.hasAta false with
  | true =>
    rw [hata] at hprobe
    have hq : c.Quiet := Or.inr (Or.inl hata)
    refine ⟨fun _ => ⟨c1, hprobe.bind Completes.pure, hsame, ?_⟩, fun h => absurd hq h⟩
    rw [hslave]
    exact SameDisk.refl_of_rests hrest true
  | false =>
    rw [hata] at hprobe
    have hrest1 : c1.Rests := rests_of_probe hrest hsame hother
    have hdrive : c1.drive ((0xF0 : ℕ).testBit 4) = c.slave := hslave
    by_cases hmissing : c.slave = none ∧ c.absent ≠ 0#8
    · have hnot : ¬ c.Quiet := by
        rintro (h | h | h)
        · exact hmissing.2 h
        · exact nomatch hata.symm.trans h
        · exact h.2 hmissing.1
      refine ⟨fun h => absurd h hnot, fun _ => ?_⟩
      have hhang := probe_hangs hrest1 0xF0 (hdrive.trans hmissing.1) (habs1.trans (hloud hnot))
      exact Hangs.after hprobe hhang.bind
    · have hquiet1 : c1.drive ((0xF0 : ℕ).testBit 4) = none → c1.absent = 0#8 := by
        intro h
        by_contra hne
        rw [habs1] at hne
        exact hmissing ⟨hdrive.symm.trans h, hne⟩
      obtain ⟨c2, hprobe2, -, hsame2, hother2⟩ := probe_returns hrest1 0xF0 hquiet1
      rw [hbit1] at hprobe2 hsame2 hother2
      have hata2 : c1.hasAta true = c.hasAta true := by
        show (match c1.slave with | none => false | some d => !d.packet) = _
        rw [hslave]
        rfl
      have hq : c.Quiet := by
        by_cases h0 : c.absent = 0#8
        · exact Or.inl h0
        · exact Or.inr (Or.inr ⟨fun h => hmaster ⟨h, h0⟩, fun h => hmissing ⟨h, h0⟩⟩)
      refine ⟨fun _ => ⟨c2, ?_, ?_, ?_⟩, fun h => absurd hq h⟩
      · rw [← hata2]
        refine hprobe.bind (hprobe2.bind ?_)
        cases c1.hasAta true <;> exact Completes.pure
      · have hmaster2 : c2.master = c1.master := hother2
        rw [hmaster2]
        exact hsame
      · have hsame2 : SameDisk 1 c1.slave c2.slave := hsame2
        rw [hslave] at hsame2
        exact hsame2

/-- `ide_init` returns exactly when no missing drive that it asks reads as busy. -/
theorem ide_init_returns_iff (hrest : c.Rests) (habs : c.absent = 0#8 ∨ c.absent = 0xFF#8) :
    (∃ sel c', Completes ideInit c sel c') ↔ c.Quiet := by
  obtain ⟨hquiet, hloud⟩ := ideInit_cases hrest habs
  constructor
  · rintro ⟨sel, c', n, hn⟩
    by_contra hnot
    obtain ⟨k, hk⟩ := hloud hnot
    have hsome := hn (max n k) (le_max_left n k)
    rw [hk (max n k) (le_max_right n k)] at hsome
    exact nomatch hsome
  · intro hq
    obtain ⟨c', hret, -⟩ := hquiet hq
    exact ⟨_, c', hret⟩

theorem SameDisk.attached {sel : ℕ} (h :
    SameDisk n (c.drive (sel.testBit 4)) (c'.drive (sel.testBit 4)))
    (hd : c.drive (sel.testBit 4) = some d) (hpk : d.packet = false) :
    Attached sel c' ⟨d.disk, d.fate, d.turn + n⟩ (c'.drive (!sel.testBit 4)) := by
  rcases h with ⟨hnone, -⟩ | ⟨d0, d', hd0, hd', hdisk, hfate, hturn, hpacket, err, he⟩
  · exact nomatch hnone.symm.trans hd
  · obtain rfl := Option.some.inj (hd0.symm.trans hd)
    exact ⟨⟨d', err, hd', he, hpacket.trans hpk, hdisk, hfate, hturn⟩, rfl⟩

/-- From `ide_init` on, every sequence of reads and writes works on the sectors of the first drive
that has some. -/
theorem ide_boot_run (hrest : c.Rests) (habs : c.absent = 0#8 ∨ c.absent = 0xFF#8) (hq : c.Quiet)
    {slave : Bool} (hd : c.drive slave = some d) (hpk : d.packet = false)
    (hfirst : slave = true → c.hasAta false = false) (calls : List SectorCall) :
    ∃ p' answers c', platterService.run ⟨d.disk, d.fate, d.turn + 1⟩ calls = some (p', answers) ∧
      Completes (do
        let ideDriveSel ← ideInit
        ideCalls ideDriveSel calls) c answers c' ∧
      ∃ d', c'.drive slave = some d' ∧ d'.disk = p'.disk := by
  obtain ⟨c1, hinit, hmaster, hslave⟩ := (ideInit_cases hrest habs).1 hq
  have hrun {sel : ℕ} (hsel : sel = 0xE0 ∨ sel = 0xF0) (hbit : sel.testBit 4 = slave)
      (hfound : Fat32.ideInit (c.hasAta false) (c.hasAta true) = sel)
      (h : Attached sel c1 ⟨d.disk, d.fate, d.turn + 1⟩ (c1.drive (!sel.testBit 4))) :
      ∃ p' answers c', platterService.run ⟨d.disk, d.fate, d.turn + 1⟩ calls = some (p', answers) ∧
        Completes (do
          let ideDriveSel ← ideInit
          ideCalls ideDriveSel calls) c answers c' ∧
        ∃ d', c'.drive slave = some d' ∧ d'.disk = p'.disk := by
    obtain ⟨p', answers, c', hplatter, hcalls, h'⟩ := ideCalls_returns hsel h calls
    obtain ⟨d', err, hd', -, -, hdisk, -⟩ := h'.drive
    rw [hfound] at hinit
    rw [hbit] at hd'
    exact ⟨p', answers, c', hplatter, hinit.bind hcalls, d', hd', hdisk⟩
  cases slave with
  | false =>
    have hata : c.hasAta false = true := by
      rw [Channel.hasAta, hd]
      show (!d.packet) = true
      rw [hpk]
      rfl
    have hsame : SameDisk 1 (c.drive ((0xE0 : ℕ).testBit 4)) (c1.drive ((0xE0 : ℕ).testBit 4)) :=
      hmaster
    exact hrun (Or.inl rfl) (by decide) (by rw [hata]; rfl) (hsame.attached hd hpk)
  | true =>
    have hata : c.hasAta true = true := by
      rw [Channel.hasAta, hd]
      show (!d.packet) = true
      rw [hpk]
      rfl
    have hnot := hfirst rfl
    rw [hnot, if_neg Bool.false_ne_true] at hslave
    have hsame : SameDisk 1 (c.drive ((0xF0 : ℕ).testBit 4)) (c1.drive ((0xF0 : ℕ).testBit 4)) :=
      hslave
    exact hrun (Or.inr rfl) (by decide) (by rw [hnot, hata]; rfl) (hsame.attached hd hpk)

end Init

/-! ### A channel with a slow drive -/

/-- A drive that is busy for three polls with every command and refuses none. -/
def slowDrive : Drive where
  disk := fun a => BitVec.ofNat 8 a
  phase := .idle false
  fate := fun _ => ⟨3, true, 3, true⟩
  turn := 0
  other := 0x10#8
  packet := false
  ident := fun _ => 0#16

/-- The drive is the slave, behind a drive without sectors. -/
def slowChannel : Channel where
  count := 0
  regs := ⟨0, 0, 0, 0⟩
  master := some { slowDrive with packet := true }
  slave := some slowDrive
  absent := 0xFF#8

theorem slowChannel_rests : slowChannel.Rests := by
  intro b d hd
  cases b with
  | false =>
    obtain rfl := Option.some.inj hd
    exact ⟨false, rfl⟩
  | true =>
    obtain rfl := Option.some.inj hd
    exact ⟨false, rfl⟩

theorem slowChannel_quiet : slowChannel.Quiet :=
  Or.inr (Or.inr ⟨by simp [slowChannel], by simp [slowChannel]⟩)

/-- What was written is read back. -/
theorem ide_boot_run_slow : ∃ answers c', Completes (do
      let ideDriveSel ← ideInit
      ideCalls ideDriveSel [.write 1 (fun _ => 7#8), .read 1 (fun _ => 0#8)]) slowChannel answers c'
        ∧
    answers.map (fun a => (a.ok, a.buffer 511)) = [(true, 7#8), (true, 7#8)] := by
  obtain ⟨p', answers, c', hrun, hret, -⟩ := ide_boot_run slowChannel_rests (Or.inr rfl)
    slowChannel_quiet (show slowChannel.drive true = some slowDrive from rfl) rfl (fun _ => rfl)
    [.write 1 (fun _ => 7#8), .read 1 (fun _ => 0#8)]
  refine ⟨answers, c', hret, ?_⟩
  rw [← (Prod.mk.inj (Option.some.inj hrun)).2]
  rfl

/-- Without the drive in front of it the slave is not found: the master reads as busy. -/
theorem ide_init_returns_slow : (∃ sel c', Completes ideInit slowChannel sel c') ∧
    ¬ ∃ sel c', Completes ideInit { slowChannel with master := none } sel c' := by
  refine ⟨(ide_init_returns_iff slowChannel_rests (Or.inr rfl)).mpr slowChannel_quiet, fun h => ?_⟩
  have hrest : ({ slowChannel with master := none } : Channel).Rests := by
    intro b d hd
    cases b with
    | false => exact nomatch hd
    | true => exact slowChannel_rests true d hd
  rcases (ide_init_returns_iff hrest (Or.inr rfl)).mp h with h | h | h
  · exact absurd h (by decide)
  · exact nomatch h
  · exact h.1 rfl

end SukiOS.Ata
