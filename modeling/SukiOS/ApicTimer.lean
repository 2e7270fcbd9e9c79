import Mathlib.Algebra.BigOperators.Group.Finset.Basic
import Mathlib.Algebra.Group.Nat.Defs
import Mathlib.Data.Nat.Find
import Mathlib.Logic.Function.Iterate

/-! `apic_timer.c`: the calibration of the LAPIC timer against the PIT, and the initial count that
`apic_timer_init` programs. -/
namespace SukiOS

/-! ### The timer of the LAPIC -/

/-- The registers of the timer. -/
structure LapicTimer where
  divConf : ℕ
  lvt : ℕ
  initCount : ℕ
  curCount : ℕ
deriving DecidableEq, Repr

inductive LapicReg where
  | divConf
  | lvtTimer
  | initCount
  | curCount
deriving DecidableEq, Repr

def lapicDiv16 : ℕ := 0x03

def lapicLvtMask : ℕ := 2^16

def lapicLvtPeriodic : ℕ := 2^17

/-- A write of the initial count starts the countdown; a write of 0 stops it. The current count
cannot be written. -/
def lapicWrite (t : LapicTimer) : LapicReg → ℕ → LapicTimer
  | .divConf, v => { t with divConf := v }
  | .lvtTimer, v => { t with lvt := v }
  | .initCount, v => { t with initCount := v, curCount := v }
  | .curCount, _ => t

def lapicRead (t : LapicTimer) : LapicReg → ℕ
  | .divConf => t.divConf
  | .lvtTimer => t.lvt
  | .initCount => t.initCount
  | .curCount => t.curCount

/-- One divided tick. At 0 the timer stands; a periodic timer starts again where it would reach 0.
-/
def LapicTimer.tick (t : LapicTimer) : LapicTimer :=
  if t.curCount = 0 then t
  else if t.curCount = 1 ∧ t.lvt &&& lapicLvtPeriodic ≠ 0 then { t with curCount := t.initCount }
  else { t with curCount := t.curCount - 1 }

def LapicTimer.elapse (k : ℕ) (t : LapicTimer) : LapicTimer := LapicTimer.tick^[k] t

/-! ### Calibration -/

/-- What the hardware gives while the timer is calibrated. -/
structure TimerEnv where
  /-- The bytes that the port of channel 0 returns, in order. -/
  inb : ℕ → BitVec 8
  /-- The divided ticks that elapse before the `j`-th reading of the PIT, since the access before.
  -/
  ticks : ℕ → ℕ
  /-- Those between the last reading and the write that stops the timer. -/
  ticksStop : ℕ
  /-- Those between that write and the reading of the current count. -/
  ticksRead : ℕ

def pitFreqHz : ℕ := 1193182

/-- The `j`-th call: the low byte, then the high byte. -/
def pitReadChannel0 (env : TimerEnv) (j : ℕ) : BitVec 16 :=
  (env.inb (2*j)).setWidth 16 ||| (env.inb (2*j + 1)).setWidth 16 <<< 8

def pitTarget : ℕ := pitFreqHz / 100 % 2^16

/-- How far the PIT has counted down at the `j`-th reading; the difference wraps. -/
def pitDelta (env : TimerEnv) (j : ℕ) : ℕ :=
  (pitReadChannel0 env 0 - pitReadChannel0 env j).toNat

/-- The loop that waits for the PIT, from the `j`-th reading on. -/
def waitPit (env : TimerEnv) : ℕ → ℕ → LapicTimer → Option LapicTimer
  | 0, _, _ => none
  | n+1, j, t =>
    let t := t.elapse (env.ticks j)
    if pitTarget ≤ pitDelta env j then some t else waitPit env n (j + 1) t

structure Calibration where
  ticksElapsed : ℕ
  busFreq : ℕ
  timer : LapicTimer
deriving DecidableEq, Repr

def calibrateApicTimer (env : TimerEnv) (fuel : ℕ) (t : LapicTimer) : Option Calibration := do
  let t := lapicWrite t .divConf lapicDiv16
  let t := lapicWrite t .lvtTimer lapicLvtMask
  let t := lapicWrite t .initCount 0xFFFFFFFF
  let t ← waitPit env fuel 1 (t.elapse (env.ticks 0))
  -- the timer is stopped first, and then its count is read
  let t := (lapicWrite (t.elapse env.ticksStop) .initCount 0).elapse env.ticksRead
  let ticksElapsed := (0xFFFFFFFF + 2^32 - lapicRead t .curCount) % 2^32
  some { ticksElapsed := ticksElapsed, busFreq := ticksElapsed * 100 % 2^32 * 16 % 2^32,
         timer := t }

/-! ### `apic_timer_init` -/

def irqApicTimer : ℕ := 0x20

inductive TtyItem where
  | print (s : String)
  | dec (n : ℕ)
deriving DecidableEq, Repr

structure TimerInit where
  calibration : Calibration
  /-- `timer_freq_hz`, 0 as long as it is not set -/
  freqHz : ℕ
  timer : LapicTimer
  tty : List TtyItem
deriving DecidableEq, Repr

/-- The initial count for `target_freq` interrupts a second. -/
def initCountFor (busFreq targetFreq : ℕ) : ℕ :=
  let initCount := busFreq / 16 / targetFreq
  let initCount := if initCount = 0 then 1 else initCount
  if 0xFFFFFFFF < initCount then 0xFFFFFFFF else initCount

def apicTimerInit (env : TimerEnv) (fuel : ℕ) (t : LapicTimer) : Option TimerInit := do
  let c ← calibrateApicTimer env fuel t
  if c.busFreq = 0 then
    some { calibration := c, freqHz := 0, timer := c.timer
           tty := [.print "  ERROR: LAPIC Timer calibration failed!\n"] }
  else
    let initCount := initCountFor c.busFreq 100
    let t := lapicWrite c.timer .divConf lapicDiv16
    let t := lapicWrite t .lvtTimer (irqApicTimer ||| lapicLvtPeriodic)
    let t := lapicWrite t .initCount initCount
    some { calibration := c, freqHz := 100, timer := t
           tty := [.print "[OK] LAPIC Timer: bus_freq=", .dec (c.busFreq / 1000000),
                   .print " MHz  freq=", .dec 100, .print " Hz  init_count=", .dec initCount,
                   .print "\n"] }

/-! ### What is measured -/

/-- The `m`-th reading is the first after the start at which the target is reached. -/
structure FirstReached (env : TimerEnv) (m : ℕ) : Prop where
  pos : 1 ≤ m
  earlier : ∀ j, 1 ≤ j → j < m → pitDelta env j < pitTarget
  reached : pitTarget ≤ pitDelta env m

/-- The divided ticks from the start of the timer to the write that stops it. -/
def windowTicks (env : TimerEnv) (m : ℕ) : ℕ :=
  ∑ j ∈ Finset.range (m + 1), env.ticks j + env.ticksStop

/-- The initial count is the `n` ticks that were measured, and no product left 32 bits. -/
structure Calibrated (n : ℕ) (r : TimerInit) : Prop where
  count : r.timer.initCount = n
  noOverflow : r.calibration.ticksElapsed * 100 < 2^32
  noOverflow' : r.calibration.ticksElapsed * 100 % 2^32 * 16 < 2^32

variable {env : TimerEnv} {t : LapicTimer} {k m n fuel : ℕ}

theorem exists_firstReached {j : ℕ} (hj : 1 ≤ j) (h : pitTarget ≤ pitDelta env j) :
    ∃ m, FirstReached env m := by
  have hex : ∃ j, 1 ≤ j ∧ pitTarget ≤ pitDelta env j := ⟨j, hj, h⟩
  have hfirst := Nat.find_spec hex
  apply Exists.intro (Nat.find hex)
  apply FirstReached.mk hfirst.1 _ hfirst.2
  intro i hi hlt
  by_contra hge
  exact Nat.find_min hex hlt ⟨hi, Nat.not_lt.mp hge⟩

theorem tick_oneShot (h : t.lvt &&& lapicLvtPeriodic = 0) :
    t.tick = { t with curCount := t.curCount - 1 } := by
  unfold LapicTimer.tick
  by_cases hc : t.curCount = 0
  · rw [if_pos hc, hc]
    cases t
    simp_all
  · rw [if_neg hc, if_neg (fun hp => hp.2 h)]

/-- A timer that is not periodic counts down and stands at 0. -/
theorem elapse_oneShot (k : ℕ) : ∀ t : LapicTimer, t.lvt &&& lapicLvtPeriodic = 0 →
    t.elapse k = { t with curCount := t.curCount - k } := by
  induction k with
  | zero => exact fun t _ => Eq.refl _
  | succ k ih =>
    intro t h
    calc t.elapse (k + 1) = t.tick.elapse k := Function.iterate_succ_apply _ _ _
      _ = { t with curCount := t.curCount - 1 - k } := by rw [tick_oneShot h]; exact ih _ h
      _ = { t with curCount := t.curCount - (k + 1) } := by rw [Nat.sub_sub, Nat.add_comm 1 k]

/-- The loop ends at the first reading that reaches the target, and the timer has counted down by
the ticks up to there. -/
theorem waitPit_spec (k : ℕ) : ∀ (j fuel : ℕ) (t : LapicTimer),
    (∀ i, j ≤ i → i < j + k → pitDelta env i < pitTarget) → pitTarget ≤ pitDelta env (j + k) →
    k < fuel → t.lvt &&& lapicLvtPeriodic = 0 →
    waitPit env fuel j t =
      some { t with curCount := t.curCount - ∑ i ∈ Finset.range (k + 1), env.ticks (j + i) } := by
  induction k with
  | zero =>
    intro j fuel t _ hr hf ht
    obtain ⟨fuel, rfl⟩ : ∃ f, fuel = f + 1 := ⟨fuel - 1, by omega⟩
    have hend : pitTarget ≤ pitDelta env j := hr
    unfold waitPit
    dsimp only
    rw [if_pos hend, elapse_oneShot _ t ht, Finset.sum_range_one, Nat.add_zero]
  | succ k ih =>
    intro j fuel t he hr hf ht
    obtain ⟨fuel, rfl⟩ : ∃ f, fuel = f + 1 := ⟨fuel - 1, by omega⟩
    have hgo : ¬ pitTarget ≤ pitDelta env j :=
      Nat.not_le.mpr (he j (Nat.le_refl j) (by omega))
    have hsum : ∑ i ∈ Finset.range (k + 1 + 1), env.ticks (j + i) =
        env.ticks j + ∑ i ∈ Finset.range (k + 1), env.ticks (j + 1 + i) := by
      rw [Finset.sum_range_succ', Nat.add_comm, Nat.add_zero]
      simp only [Nat.add_assoc, Nat.add_comm 1]
    have hlast : pitTarget ≤ pitDelta env (j + 1 + k) := by
      rw [Nat.add_assoc, Nat.add_comm 1 k]
      exact hr
    have hrest := ih (j + 1) fuel { t with curCount := t.curCount - env.ticks j }
      (fun i hi hlt => he i (by omega) (by omega)) hlast (by omega) ht
    unfold waitPit
    dsimp only
    rw [if_neg hgo, elapse_oneShot _ t ht, hrest, hsum]
    simp only [Nat.sub_sub]

/-- The timer as it counts during the calibration. -/
def countingTimer (left : ℕ) : LapicTimer :=
  { divConf := lapicDiv16, lvt := lapicLvtMask, initCount := 0xFFFFFFFF, curCount := left }

theorem mask_oneShot : lapicLvtMask &&& lapicLvtPeriodic = 0 := by decide

theorem countingTimer_oneShot (left : ℕ) : (countingTimer left).lvt &&& lapicLvtPeriodic = 0 :=
  mask_oneShot

theorem countingTimer_elapse (left k : ℕ) :
    (countingTimer left).elapse k = countingTimer (left - k) :=
  elapse_oneShot k _ (countingTimer_oneShot left)

/-- Until it is stopped the timer holds what the calibration asks for: the ticks of the window are
missing from its count. -/
theorem waitPit_window (hm : FirstReached env m) (hf : m ≤ fuel) :
    (waitPit env fuel 1 ((countingTimer 0xFFFFFFFF).elapse (env.ticks 0))).map
      (LapicTimer.elapse env.ticksStop) =
        some (countingTimer (0xFFFFFFFF - windowTicks env m)) := by
  obtain ⟨k, rfl⟩ : ∃ k, m = 1 + k := ⟨m - 1, by have := hm.pos; omega⟩
  have hwait := waitPit_spec k 1 fuel (countingTimer (0xFFFFFFFF - env.ticks 0)) hm.earlier
    hm.reached (by omega) (countingTimer_oneShot _)
  have hsum : windowTicks env (1 + k) =
      env.ticks 0 + ∑ i ∈ Finset.range (k + 1), env.ticks (1 + i) + env.ticksStop := by
    unfold windowTicks
    rw [Nat.add_comm 1 k, Finset.sum_range_succ', Nat.add_comm (∑ i ∈ _, _)]
    simp only [Nat.add_comm 1]
  rw [countingTimer_elapse, hwait, Option.map_some]
  have helapse := countingTimer_elapse
    (0xFFFFFFFF - env.ticks 0 - ∑ i ∈ Finset.range (k + 1), env.ticks (1 + i)) env.ticksStop
  rw [hsum, ← Nat.sub_sub, ← Nat.sub_sub]
  exact congrArg some helapse

/-- The calibration reads 0 from the timer that it has stopped, however many ticks elapsed. -/
theorem calibrate_spec (t : LapicTimer) (hm : FirstReached env m) (hf : m ≤ fuel) :
    calibrateApicTimer env fuel t =
      some { ticksElapsed := 0xFFFFFFFF, busFreq := 4294965696
             timer := { divConf := lapicDiv16, lvt := lapicLvtMask, initCount := 0,
                        curCount := 0 } } := by
  have hwindow := waitPit_window hm hf
  obtain ⟨t', hwait, hstop⟩ := Option.map_eq_some_iff.mp hwindow
  have hstopped : (lapicWrite (t'.elapse env.ticksStop) .initCount 0).elapse env.ticksRead =
      { divConf := lapicDiv16, lvt := lapicLvtMask, initCount := 0, curCount := 0 } := by
    rw [hstop]
    calc (lapicWrite (countingTimer (0xFFFFFFFF - windowTicks env m)) .initCount 0).elapse
          env.ticksRead
        = { divConf := lapicDiv16, lvt := lapicLvtMask, initCount := 0
            curCount := 0 - env.ticksRead } := elapse_oneShot _ _ mask_oneShot
      _ = { divConf := lapicDiv16, lvt := lapicLvtMask, initCount := 0, curCount := 0 } := by
          rw [Nat.zero_sub]
  have hstart : lapicWrite (lapicWrite (lapicWrite t .divConf lapicDiv16) .lvtTimer lapicLvtMask)
      .initCount 0xFFFFFFFF = countingTimer 0xFFFFFFFF := Eq.refl _
  unfold calibrateApicTimer
  dsimp only
  rw [hstart, hwait]
  change some _ = _
  rw [hstopped]
  rfl

theorem apicTimerInit_spec (t : LapicTimer) (hm : FirstReached env m) (hf : m ≤ fuel) :
    ∃ r, apicTimerInit env fuel t = some r ∧ r.timer.initCount = 2684353 ∧
      r.calibration.ticksElapsed = 0xFFFFFFFF := by
  unfold apicTimerInit
  rw [calibrate_spec t hm hf]
  exact ⟨_, Eq.refl _, by decide, Eq.refl _⟩

/-- For every sequence of readings that reaches the target, and whatever ticks elapse meanwhile, the
calibration ends, the initial count is 2684353, and the product for the bus frequency has left 32
bits; so the timer is never calibrated to the ticks that were measured. -/
theorem timer_never_calibrated (env : TimerEnv) (t : LapicTimer) (j : ℕ) (hj : 1 ≤ j)
    (h : pitTarget ≤ pitDelta env j) :
    ∃ m, FirstReached env m ∧ ∀ fuel, m ≤ fuel → ∃ r, apicTimerInit env fuel t = some r ∧
      r.timer.initCount = 2684353 ∧ r.calibration.ticksElapsed = 0xFFFFFFFF ∧
      ¬ Calibrated (windowTicks env m) r := by
  obtain ⟨m, hm⟩ := exists_firstReached hj h
  refine ⟨m, hm, fun fuel hf => ?_⟩
  obtain ⟨r, hr, hcount, hticks⟩ := apicTimerInit_spec t hm hf
  have hover : ¬ Calibrated (windowTicks env m) r := by
    intro hcal
    -- 0xFFFFFFFF ticks a hundred times over do not fit, whatever the count is
    have hproduct := hcal.noOverflow
    rw [hticks] at hproduct
    omega
  exact ⟨r, hr, hcount, hticks, hover⟩

/-- The PIT reads 0xFFFF and then 0xD164, and 625000 divided ticks elapse in between, those of a
bus of 1 GHz. -/
def gigahertzEnv : TimerEnv where
  inb i := if i = 2 then 0x64#8 else if i = 3 then 0xD1#8 else 0xFF#8
  ticks j := if j = 1 then 625000 else 0
  ticksStop := 0
  ticksRead := 0

def resetTimer : LapicTimer := { divConf := 0, lvt := lapicLvtMask, initCount := 0, curCount := 0 }

theorem gigahertz_reached : FirstReached gigahertzEnv 1 :=
  ⟨by decide, fun j h1 h2 => absurd h2 (by omega), by decide⟩

theorem timer_never_calibrated_gigahertz :
    ∃ m, FirstReached gigahertzEnv m ∧ ∀ fuel, m ≤ fuel →
      ∃ r, apicTimerInit gigahertzEnv fuel resetTimer = some r ∧ r.timer.initCount = 2684353 ∧
        r.calibration.ticksElapsed = 0xFFFFFFFF ∧ ¬ Calibrated (windowTicks gigahertzEnv m) r :=
  timer_never_calibrated gigahertzEnv resetTimer 1 (Nat.le_refl 1) (by decide)

/-- 625000 ticks are measured, and another count is programmed. -/
theorem gigahertz_count_wrong :
    FirstReached gigahertzEnv 1 ∧ windowTicks gigahertzEnv 1 = 625000 ∧
    ∃ r, apicTimerInit gigahertzEnv 1 resetTimer = some r ∧
      r.timer.initCount ≠ windowTicks gigahertzEnv 1 := by
  have hn : windowTicks gigahertzEnv 1 = 625000 := by decide
  obtain ⟨r, hr, hcount, -⟩ := apicTimerInit_spec resetTimer gigahertz_reached (Nat.le_refl 1)
  refine ⟨gigahertz_reached, hn, r, hr, ?_⟩
  rw [hcount, hn]
  decide

end SukiOS
