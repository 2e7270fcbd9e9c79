import Mathlib.Algebra.Group.Nat.Defs
import SukiOS.Lib.Fields
import SukiOS.Lib.Polling
import SukiOS.Fat32Ops

/-! The real-time clock: `rtc_read_time` reads the registers of a clock that goes on, one after the
other, and `fat32.c` stamps its directory entries with the time that it makes of them. -/
namespace SukiOS.Rtc
open Polling Polling.Io ByteMemory Fields

/-! ### The clock -/

structure DateTime where
  second : ℕ
  minute : ℕ
  hour : ℕ
  day : ℕ
  month : ℕ
  year : ℕ
deriving DecidableEq, Repr

structure DateTime.Valid (t : DateTime) : Prop where
  second : t.second < 60
  minute : t.minute < 60
  hour : t.hour < 24
  day : t.day < 32
  month : t.month < 13
  year : t.year < 10000

/-- What is behind the address of the century: a counter, or a byte that never changes. -/
inductive CenturyByte
  | counts | zeros | ones
deriving DecidableEq, Repr

/-- The clock at its two ports. Time passes between the reads: `shows n` is what the clock shows at
the read number `n`, and `updating n` its flag for an update. -/
structure Clock where
  index : ℕ
  reads : ℕ
  shows : ℕ → DateTime
  updating : ℕ → Bool
  binary : Bool
  hours24 : Bool
  century : CenturyByte

namespace Clock

/-- A number below 100 in a register. -/
def digits (c : Clock) (n : ℕ) : ℕ := if c.binary then n else 16*(n/10) + n%10

/-- The hour on the dial of a clock with 12 hours. -/
def dial (hour : ℕ) : ℕ := if hour % 12 = 0 then 12 else hour % 12

def hourByte (c : Clock) (hour : ℕ) : ℕ :=
  if c.hours24 then c.digits hour else c.digits (dial hour) + (if 12 ≤ hour then 0x80 else 0)

def centuryByte (c : Clock) (year : ℕ) : ℕ :=
  match c.century with
  | .counts => c.digits (year/100)
  | .zeros => 0
  | .ones => 0xFF

def statusB (c : Clock) : ℕ := (if c.binary then 0x04 else 0) + (if c.hours24 then 0x02 else 0)

def register (c : Clock) (t : DateTime) (busy : Bool) : ℕ → ℕ
  | 0x00 => c.digits t.second
  | 0x02 => c.digits t.minute
  | 0x04 => c.hourByte t.hour
  | 0x07 => c.digits t.day
  | 0x08 => c.digits t.month
  | 0x09 => c.digits (t.year % 100)
  | 0x0A => (if busy then 0x80 else 0) + 0x26
  | 0x0B => c.statusB
  | 0x32 => c.centuryByte t.year
  | _ => 0

/-- Bit 7 is not part of the address. -/
def out (c : Clock) (x : ℕ) : Clock := { c with index := x % 2^7 }

def inData (c : Clock) : ℕ × Clock :=
  (c.register (c.shows c.reads) (c.updating c.reads) c.index, { c with reads := c.reads + 1 })

end Clock

/-! ### The driver -/

def rtcSeconds : ℕ := 0x00
def rtcMinutes : ℕ := 0x02
def rtcHours : ℕ := 0x04
def rtcDay : ℕ := 0x07
def rtcMonth : ℕ := 0x08
def rtcYear : ℕ := 0x09
def rtcCentury : ℕ := 0x32
def rtcStatusA : ℕ := 0x0A
def rtcStatusB : ℕ := 0x0B
def cmosNmiDisable : ℕ := 0x80

def cmosRead (reg : ℕ) : Io Clock ℕ := do
  output fun c => c.out (cmosNmiDisable ||| reg)
  input Clock.inData

def rtcIsUpdating (c : Clock) : Bool × Clock :=
  let r := (c.out (cmosNmiDisable ||| rtcStatusA)).inData
  (r.1 &&& 0x80 ≠ 0, r.2)

def bcdToBin (bcd : ℕ) : ℕ := ((bcd >>> 4) * 10 + (bcd &&& 0x0F)) % 2^8

structure RtcTime where
  second : ℕ
  minute : ℕ
  hour : ℕ
  day : ℕ
  month : ℕ
  year : ℕ
  century : ℕ
deriving DecidableEq, Repr

/-- `rtc_read_time` once the registers are read. -/
def convert (time : RtcTime) (statusB : ℕ) : RtcTime :=
  let time := if statusB &&& 0x04 = 0 then
      { second := bcdToBin time.second, minute := bcdToBin time.minute
        hour := bcdToBin time.hour, day := bcdToBin time.day
        month := bcdToBin time.month, year := bcdToBin time.year
        century := if time.century ≠ 0xFF ∧ time.century ≠ 0x00 then bcdToBin time.century
          else time.century }
    else time
  let century := if time.century = 0x00 ∨ time.century = 0xFF then 20 else time.century
  { time with century := century, year := (century * 100 + time.year) % 2^16 }

def rtcReadTime : Io Clock RtcTime := do
  let _ ← waitUntil rtcIsUpdating (fun updating => !updating)
  let second ← cmosRead rtcSeconds
  let minute ← cmosRead rtcMinutes
  let hour ← cmosRead rtcHours
  let day ← cmosRead rtcDay
  let month ← cmosRead rtcMonth
  let year ← cmosRead rtcYear
  let century ← cmosRead rtcCentury
  let statusB ← cmosRead rtcStatusB
  pure (convert ⟨second, minute, hour, day, month, year, century⟩ statusB)

def rtcToFatTime (time : RtcTime) : ℕ :=
  ((time.second / 2) &&& 0x1F) ||| ((time.minute &&& 0x3F) <<< 5) ||| ((time.hour &&& 0x1F) <<< 11)

def rtcToFatDate (time : RtcTime) : ℕ :=
  let yearOffset := (time.year + (2^16 - 1980)) % 2^16
  (time.day &&& 0x1F) ||| ((time.month &&& 0x0F) <<< 5) ||| ((yearOffset &&& 0x7F) <<< 9)

/-- The stamp that `fat32_update_dir_entry` and `fat32_create_file` put into an entry. -/
def rtcStamp : Io Clock Fat32.Stamp := do
  let now ← rtcReadTime
  pure ⟨rtcToFatTime now, rtcToFatDate now⟩

/-! ### What a stamp stands for -/

/-- The time in the two fields of a directory entry. -/
def stampTime (s : Fat32.Stamp) : DateTime where
  second := 2 * (s.time % 32)
  minute := s.time / 32 % 64
  hour := s.time / 2048
  day := s.date % 32
  month := s.date / 32 % 16
  year := 1980 + s.date / 512

/-- A stamp counts in steps of two seconds. -/
def DateTime.even (t : DateTime) : DateTime := { t with second := 2 * (t.second / 2) }

theorem rtcToFatTime_eq (t : RtcTime) :
    rtcToFatTime t = t.second/2 % 32 + 32 * (t.minute % 64 + 64 * (t.hour % 32)) := by
  have hsecond : (t.second/2) &&& 0x1F = t.second/2 % 2^5 := Nat.and_two_pow_sub_one_eq_mod _ 5
  have hminute : t.minute &&& 0x3F = t.minute % 2^6 := Nat.and_two_pow_sub_one_eq_mod _ 6
  have hhour : t.hour &&& 0x1F = t.hour % 2^5 := Nat.and_two_pow_sub_one_eq_mod _ 5
  unfold rtcToFatTime
  rw [hsecond, hminute, hhour]
  exact or_fields 5 6 _ (Nat.mod_lt _ (by decide)) (Nat.mod_lt _ (by decide))

theorem rtcToFatDate_eq (t : RtcTime) :
    rtcToFatDate t =
      t.day % 32 + 32 * (t.month % 16 + 16 * ((t.year + (2^16 - 1980)) % 2^16 % 128)) := by
  have hday : t.day &&& 0x1F = t.day % 2^5 := Nat.and_two_pow_sub_one_eq_mod _ 5
  have hmonth : t.month &&& 0x0F = t.month % 2^4 := Nat.and_two_pow_sub_one_eq_mod _ 4
  have hyear : (t.year + (2^16 - 1980)) % 2^16 &&& 0x7F = (t.year + (2^16 - 1980)) % 2^16 % 2^7 :=
    Nat.and_two_pow_sub_one_eq_mod _ 7
  unfold rtcToFatDate
  dsimp only
  rw [hday, hmonth, hyear]
  exact or_fields 5 4 _ (Nat.mod_lt _ (by decide)) (Nat.mod_lt _ (by decide))

/-- What is left of a time in its stamp. -/
theorem stampTime_rtc (t : RtcTime) :
    stampTime ⟨rtcToFatTime t, rtcToFatDate t⟩ =
      { second := 2 * (t.second/2 % 32), minute := t.minute % 64, hour := t.hour % 32
        day := t.day % 32, month := t.month % 16
        year := 1980 + (t.year + (2^16 - 1980)) % 2^16 % 128 } := by
  unfold stampTime
  rw [rtcToFatTime_eq, rtcToFatDate_eq, DateTime.mk.injEq]
  dsimp only
  refine ⟨?_, ?_, ?_, ?_, ?_, ?_⟩ <;> omega

/-- The time of the last change that the entry `i` of a directory holds. -/
def writeTime (buf : Mem) (i : ℕ) : DateTime :=
  stampTime ⟨load buf (32*i + 22) 2, load buf (32*i + 24) 2⟩

theorem rtcToFatTime_lt (t : RtcTime) : rtcToFatTime t < 256^2 := by
  rw [rtcToFatTime_eq]
  omega

theorem rtcToFatDate_lt (t : RtcTime) : rtcToFatDate t < 256^2 := by
  rw [rtcToFatDate_eq]
  omega

theorem writeTime_putSize (t : RtcTime) (buf : Mem) (i size : ℕ) :
    writeTime (Fat32.putSize buf i size ⟨rtcToFatTime t, rtcToFatDate t⟩) i =
      stampTime ⟨rtcToFatTime t, rtcToFatDate t⟩ := by
  unfold writeTime Fat32.putSize
  rw [load_store, load_store_of_disjoint _ _ _ _ _ _ (by omega), load_store,
    Nat.mod_eq_of_lt (rtcToFatTime_lt t), Nat.mod_eq_of_lt (rtcToFatDate_lt t)]

theorem writeTime_putNew (t : RtcTime) (buf : Mem) (i : ℕ) (target : List Byte) (newClu : ℕ) :
    writeTime (Fat32.putNew buf i target newClu ⟨rtcToFatTime t, rtcToFatDate t⟩) i =
      stampTime ⟨rtcToFatTime t, rtcToFatDate t⟩ := by
  unfold writeTime Fat32.putNew
  dsimp only
  rw [load_store_of_disjoint _ _ _ _ _ _ (by omega), load_store_of_disjoint _ _ _ _ _ _ (by omega),
    load_store, load_store_of_disjoint _ _ _ _ _ _ (by omega), load_store,
    Nat.mod_eq_of_lt (rtcToFatTime_lt t), Nat.mod_eq_of_lt (rtcToFatDate_lt t)]

/-! ### On the disk -/

/-- The entries that `fat32.c` stamps with `s` are on the disk with a time that meets `p`: the one
that an update finds, and the one that a new file takes. -/
structure StampedOnDisk (s : Fat32.Stamp) (p : DateTime → Prop) : Prop where
  update : ∀ (fs : Fat32.Fs) (v : Fat32.Vol) (root : List ℕ) (file : Fat32.File) (e : Fat32.Slot),
    fs.Ok → Fat32.FatChain fs v fs.rootCluster root →
    Fat32.findEntry fs v (fun buf i => Fat32.entCluster buf i == file.startCluster) =
      some (some e) →
    ∃ v', Fat32.fat32UpdateDirEntry fs v file s = some v' ∧
      p (writeTime (Fat32.readCluster fs v' e.1) e.2)
  create : ∀ (fs : Fat32.Fs) (v : Fat32.Vol) (root : List ℕ) (name : List Byte) (e : Fat32.Slot),
    fs.Ok → Fat32.FatChain fs v fs.rootCluster root →
    Fat32.walkRoot fs v (fun buf => Fat32.scanFree buf 0 fs.entryCount) = some (some e) →
    Fat32.findFreeCluster fs v ≠ 0 →
    ∃ v' file, Fat32.fat32CreateFile fs v name s = some (some (v', file)) ∧
      p (writeTime (Fat32.readCluster fs v' e.1) e.2)

section Disk
variable {fs : Fat32.Fs} {v : Fat32.Vol} {buf : Mem} {c i : ℕ}

/-- The time in an entry of a cluster that was written from `buf`. -/
theorem writeTime_cluster (hread : ∀ o, o < fs.clusterSize → Fat32.readCluster fs v c o = buf o)
    (hi : i < fs.entryCount) : writeTime (Fat32.readCluster fs v c) i = writeTime buf i := by
  have hload (a : ℕ) (ha : a + 2 ≤ 32) :
      load (Fat32.readCluster fs v c) (32*i + a) 2 = load buf (32*i + a) 2 := by
    apply load_congr
    intro x hlow hhigh
    apply hread
    have hx := Fat32.entry_in_cluster hi (show x - 32*i < 32 by omega)
    omega
  rw [writeTime, hload 22 (by decide), hload 24 (by decide)]
  rfl

theorem stampedOnDisk (t : RtcTime) {p : DateTime → Prop}
    (hp : p (stampTime ⟨rtcToFatTime t, rtcToFatDate t⟩)) :
    StampedOnDisk ⟨rtcToFatTime t, rtcToFatDate t⟩ p where
  update fs v root file e hf hroot he := by
    rcases Fat32.findEntry_cases hf hroot
        (fun buf i => Fat32.entCluster buf i == file.startCluster) with
      ⟨hnone, -⟩ | ⟨c, i, A, B, hfound, hsplit, hlive, -⟩
    · rw [hnone] at he
      exact nomatch Option.some.inj he
    obtain rfl := Option.some.inj (Option.some.inj (he.symm.trans hfound))
    have hc : fs.IsData c := hroot.isData (hsplit ▸ List.mem_append_right A List.mem_cons_self)
    refine ⟨_, by rw [Fat32.fat32UpdateDirEntry, he]; rfl, ?_⟩
    rw [writeTime_cluster (fun o ho => Fat32.readCluster_writeCluster hf hc ho) hlive.1,
      writeTime_putSize]
    exact hp
  create fs v root name e hf hroot he hfree := by
    rcases Fat32.freeSlot_cases hf hroot with hnone | ⟨c, i, A, B, hfound, hsplit, hi, -⟩
    · rw [hnone] at he
      exact nomatch Option.some.inj he
    obtain rfl := Option.some.inj (Option.some.inj (he.symm.trans hfound))
    have hc : fs.IsData c := hroot.isData (hsplit ▸ List.mem_append_right A List.mem_cons_self)
    have hread (w : Fat32.Vol) (buf : Mem) (o : ℕ) (ho : o < fs.clusterSize) :
        Fat32.readCluster fs (Fat32.fat32Flush fs (Fat32.writeCluster fs w c buf)) c o = buf o := by
      rw [Fat32.readCluster_flush hf hc]
      exact Fat32.readCluster_writeCluster hf hc ho
    refine ⟨_, _, by
      rw [Fat32.fat32CreateFile, he, Option.bind_eq_bind, Option.bind_some]
      exact if_neg hfree, ?_⟩
    rw [writeTime_cluster (hread _ _) hi, writeTime_putNew]
    exact hp

end Disk

/-! ### What the driver reads -/

section Converting
variable {c : Clock} {n hour year : ℕ}

theorem bcdToBin_eq {b : ℕ} (hb : b < 256) : bcdToBin b = b / 16 * 10 + b % 16 := by
  have hhigh : b >>> 4 = b / 16 := Nat.shiftRight_eq_div_pow b 4
  have hlow : b &&& 0x0F = b % 16 := Nat.and_two_pow_sub_one_eq_mod b 4
  unfold bcdToBin
  rw [hhigh, hlow]
  exact Nat.mod_eq_of_lt (by omega)

theorem bcdToBin_digits (hn : n < 100) : bcdToBin (16*(n/10) + n%10) = n := by
  rw [bcdToBin_eq (by omega)]
  omega

theorem dial_lt (hour : ℕ) : 0 < Clock.dial hour ∧ Clock.dial hour < 13 := by
  unfold Clock.dial
  split <;> omega

/-- The hour that the driver makes of the register: it knows no clock with 12 hours. -/
def Clock.hourRead (c : Clock) (hour : ℕ) : ℕ :=
  if c.hours24 then hour
  else Clock.dial hour + (if 12 ≤ hour then (if c.binary then 128 else 80) else 0)

def Clock.centuryRead (c : Clock) (year : ℕ) : ℕ :=
  if c.century = .counts ∧ year / 100 ≠ 0 then year / 100 else 20

/-- A byte after the conversion that `statusB` asks for. -/
def Clock.converted (c : Clock) (byte : ℕ) : ℕ := if c.binary then byte else bcdToBin byte

theorem converted_digits (hn : n < 100) : c.converted (c.digits n) = n := by
  unfold Clock.converted Clock.digits
  split
  · rfl
  · exact bcdToBin_digits hn

theorem converted_hour (h : hour < 24) : c.converted (c.hourByte hour) = c.hourRead hour := by
  obtain ⟨-, hdial⟩ := dial_lt hour
  unfold Clock.hourByte Clock.hourRead
  split
  · exact converted_digits (by omega)
  · unfold Clock.converted Clock.digits
    cases c.binary
    · rw [if_neg Bool.false_ne_true, if_neg Bool.false_ne_true, if_neg Bool.false_ne_true]
      split
      · rw [bcdToBin_eq (by omega)]
        omega
      · exact bcdToBin_digits (by omega)
    · rw [if_pos rfl, if_pos rfl, if_pos rfl]

theorem statusB_mode (c : Clock) : c.statusB &&& 0x04 = 0 ↔ c.binary = false := by
  unfold Clock.statusB
  cases c.binary <;> cases c.hours24 <;> decide

/-- The driver's century: 20 where the byte cannot be one. -/
theorem converted_century (hyear : year < 10000) :
    (let century := if c.binary then c.centuryByte year
        else if c.centuryByte year ≠ 0xFF ∧ c.centuryByte year ≠ 0x00 then
          bcdToBin (c.centuryByte year)
        else c.centuryByte year
      if century = 0x00 ∨ century = 0xFF then 20 else century) = c.centuryRead year := by
  have hdigits : year / 100 < 100 := by omega
  have hbcd := bcdToBin_digits hdigits
  unfold Clock.centuryByte Clock.centuryRead Clock.digits
  cases c.century with
  | zeros => cases c.binary <;> rfl
  | ones => cases c.binary <;> rfl
  | counts =>
    simp only [true_and]
    cases c.binary
    · -- the two special bytes are not the digits of a century, but for 0
      rw [if_neg Bool.false_ne_true, if_neg Bool.false_ne_true, hbcd]
      split_ifs <;> omega
    · rw [if_pos rfl, if_pos rfl]
      split_ifs <;> omega

/-- The bytes of a time whose fields were read at different moments. -/
theorem convert_read {t : DateTime} {year : ℕ} (ht : t.Valid) (hyear : year < 10000) :
    convert ⟨c.digits t.second, c.digits t.minute, c.hourByte t.hour, c.digits t.day,
        c.digits t.month, c.digits (t.year % 100), c.centuryByte year⟩ c.statusB =
      { second := t.second, minute := t.minute, hour := c.hourRead t.hour, day := t.day
        month := t.month, year := c.centuryRead year * 100 + t.year % 100
        century := c.centuryRead year } := by
  have hsecond := converted_digits (c := c) (Nat.lt_trans ht.second (by decide : 60 < 100))
  have hminute := converted_digits (c := c) (Nat.lt_trans ht.minute (by decide : 60 < 100))
  have hhour := converted_hour (c := c) ht.hour
  have hday := converted_digits (c := c) (Nat.lt_trans ht.day (by decide : 32 < 100))
  have hmonth := converted_digits (c := c) (Nat.lt_trans ht.month (by decide : 13 < 100))
  have hlow := converted_digits (c := c) (Nat.mod_lt t.year (by decide : 0 < 100))
  have hcentury := converted_century (c := c) hyear
  have hread : c.centuryRead year * 100 + t.year % 100 < 2^16 := by
    unfold Clock.centuryRead
    split <;> omega
  unfold Clock.converted at hsecond hminute hhour hday hmonth hlow
  unfold convert
  dsimp only at hcentury ⊢
  cases hb : c.binary
  · have hbit : c.statusB &&& 0x04 = 0 := (statusB_mode c).mpr hb
    rw [hb, if_neg Bool.false_ne_true] at hsecond hminute hhour hday hmonth hlow
    simp only [hb, if_neg Bool.false_ne_true] at hcentury
    rw [if_pos hbit]
    dsimp only
    rw [hsecond, hminute, hhour, hday, hmonth, hlow, hcentury, Nat.mod_eq_of_lt hread]
  · have hbit : ¬ c.statusB &&& 0x04 = 0 := by
      rw [statusB_mode, hb]
      exact Bool.noConfusion
    rw [hb, if_pos rfl] at hsecond hminute hhour hday hmonth hlow
    simp only [hb, if_pos] at hcentury
    rw [if_neg hbit]
    dsimp only
    rw [hsecond, hminute, hhour, hday, hmonth, hlow, hcentury, Nat.mod_eq_of_lt hread]

end Converting

/-! ### One call on a running clock -/

/-- The first read of the flag that finds no update. -/
structure Clock.FirstIdle (c : Clock) (p : ℕ) : Prop where
  after : c.reads ≤ p
  idle : c.updating p = false
  busy : ∀ j, c.reads ≤ j → j < p → c.updating j = true

/-- No update goes on for ever. -/
def Clock.UpdatesEnd (c : Clock) : Prop := ∀ j, ∃ k, j ≤ k ∧ c.updating k = false

section Reading
variable {c : Clock} {p : ℕ}

theorem exists_firstIdle (h : c.UpdatesEnd) : ∃ p, c.FirstIdle p := by
  have hex := h c.reads
  obtain ⟨hafter, hidle⟩ := Nat.find_spec hex
  refine ⟨Nat.find hex, hafter, hidle, fun j hj hlt => ?_⟩
  have hbusy := Nat.find_min hex hlt
  cases hu : c.updating j
  · exact absurd ⟨hj, hu⟩ hbusy
  · rfl

theorem rtcIsUpdating_eq (c : Clock) :
    rtcIsUpdating c =
      (c.updating c.reads, { c with index := rtcStatusA, reads := c.reads + 1 }) := by
  have hflag : (decide ((((if c.updating c.reads then 0x80 else 0) + 0x26 : ℕ) &&& 0x80) ≠ 0)) =
      c.updating c.reads := by
    cases c.updating c.reads <;> decide
  exact Prod.ext hflag rfl

theorem waits_firstIdle (hp : c.FirstIdle p) :
    Completes (waitUntil rtcIsUpdating (fun updating => !updating)) c false
      { c with index := rtcStatusA, reads := p + 1 } := by
  obtain ⟨n, hn⟩ := Nat.exists_eq_add_of_le hp.after
  induction n generalizing c with
  | zero =>
    have hhere : p = c.reads := hn
    have hnow : c.updating c.reads = false := hhere ▸ hp.idle
    have hread := rtcIsUpdating_eq c
    rw [hnow] at hread
    rw [hhere]
    exact Completes.wait_done hread rfl
  | succ n ih =>
    have hnow : c.updating c.reads = true := hp.busy _ (Nat.le_refl _) (by omega)
    have hread := rtcIsUpdating_eq c
    rw [hnow] at hread
    refine Completes.wait_step (by rw [hread]; rfl) ?_
    rw [hread]
    exact ih (c := { c with index := rtcStatusA, reads := c.reads + 1 })
      ⟨by show c.reads + 1 ≤ p; omega, hp.idle, fun j hj => hp.busy j (Nat.le_of_succ_le hj)⟩
      (by show p = c.reads + 1 + n; omega)

/-- What the call returns: the fields are read one by one, the century last. -/
def Clock.readFrom (c : Clock) (p : ℕ) : RtcTime where
  second := (c.shows (p+1)).second
  minute := (c.shows (p+2)).minute
  hour := c.hourRead (c.shows (p+3)).hour
  day := (c.shows (p+4)).day
  month := (c.shows (p+5)).month
  year := c.centuryRead (c.shows (p+7)).year * 100 + (c.shows (p+6)).year % 100
  century := c.centuryRead (c.shows (p+7)).year

theorem rtcReadTime_completes (hp : c.FirstIdle p) (hvalid : ∀ j, (c.shows j).Valid) :
    Completes rtcReadTime c (c.readFrom p) { c with index := rtcStatusB, reads := p + 9 } := by
  -- the fields are those of a time that need not have been on the clock
  have hmixed : (DateTime.mk (c.shows (p+1)).second (c.shows (p+2)).minute (c.shows (p+3)).hour
      (c.shows (p+4)).day (c.shows (p+5)).month (c.shows (p+6)).year).Valid :=
    ⟨(hvalid _).second, (hvalid _).minute, (hvalid _).hour, (hvalid _).day, (hvalid _).month,
      (hvalid _).year⟩
  have hconvert := convert_read (c := c) hmixed (hvalid (p+7)).year
  unfold Clock.readFrom
  rw [← hconvert]
  exact (waits_firstIdle hp).bind ⟨0, fun _ _ => rfl⟩

theorem rtcStamp_completes (hp : c.FirstIdle p) (hvalid : ∀ j, (c.shows j).Valid) :
    Completes rtcStamp c ⟨rtcToFatTime (c.readFrom p), rtcToFatDate (c.readFrom p)⟩
      { c with index := rtcStatusB, reads := p + 9 } :=
  (rtcReadTime_completes hp hvalid).bind Completes.pure

end Reading

/-! ### The stamp of a clock that tells of its updates in time -/

/-- No update begins during the reads that follow one that finds the flag clear. -/
def Clock.TellsInTime (c : Clock) : Prop :=
  ∀ j, c.updating j = false → ∀ k, k ≤ 7 → c.shows (j+k) = c.shows j

/-- The hours that survive: those of a clock with 24 of them, the morning from one o'clock on, and
noon of a binary clock, whose mark for the afternoon does not fit into the stamp. -/
def Clock.HourKept (c : Clock) (hour : ℕ) : Prop :=
  c.hours24 = true ∨ (1 ≤ hour ∧ hour < 12) ∨ (c.binary = true ∧ hour = 12)

/-- The years that a stamp can hold, and of these the ones that the driver can tell. -/
def Clock.YearKept (c : Clock) (year : ℕ) : Prop :=
  1980 ≤ year ∧ year < 2108 ∧ (c.century = .counts ∨ year / 100 = 20)

section Exact
variable {c : Clock} {p : ℕ}

theorem hourRead_kept_iff {hour : ℕ} (h : hour < 24) :
    c.hourRead hour % 32 = hour ↔ c.HourKept hour := by
  unfold Clock.hourRead Clock.HourKept Clock.dial
  cases c.hours24
  · cases c.binary <;> simp only [Bool.false_eq_true, if_false, if_true, false_or, true_and,
      false_and, or_false]
    · split_ifs <;> omega
    · split_ifs <;> omega
  · simp only [if_true, true_or, iff_true]
    exact Nat.mod_eq_of_lt (by omega)

theorem yearRead_kept_iff {year : ℕ} (h : year < 10000) :
    1980 + (c.centuryRead year * 100 + year % 100 + (2^16 - 1980)) % 2^16 % 128 = year ↔
      c.YearKept year := by
  unfold Clock.centuryRead Clock.YearKept
  by_cases hcounts : c.century = .counts
  · simp only [hcounts, true_and, true_or, and_true]
    split_ifs <;> omega
  · simp only [hcounts, false_and, if_false, false_or]
    omega

theorem readFrom_still (h : ∀ k, k ≤ 7 → c.shows (p+k) = c.shows p) :
    c.readFrom p =
      { second := (c.shows p).second, minute := (c.shows p).minute
        hour := c.hourRead (c.shows p).hour, day := (c.shows p).day, month := (c.shows p).month
        year := c.centuryRead (c.shows p).year * 100 + (c.shows p).year % 100
        century := c.centuryRead (c.shows p).year } := by
  unfold Clock.readFrom
  rw [h 1 (by decide), h 2 (by decide), h 3 (by decide), h 4 (by decide), h 5 (by decide),
    h 6 (by decide), h 7 (by decide)]

/-- The call returns, and the entry that is stamped holds the time of the clock at the read that
found no update, in the buffer and on the disk, if and only if the hour and the year are among those
that survive. -/
theorem stamp_exact_iff (c : Clock) (hends : c.UpdatesEnd) (htells : c.TellsInTime)
    (hvalid : ∀ j, (c.shows j).Valid) :
    ∃ p s c', c.FirstIdle p ∧ Completes rtcStamp c s c' ∧
      (∀ buf i size, writeTime (Fat32.putSize buf i size s) i = (c.shows p).even ↔
        c.HourKept (c.shows p).hour ∧ c.YearKept (c.shows p).year) ∧
      StampedOnDisk s fun t => t = (c.shows p).even ↔
        c.HourKept (c.shows p).hour ∧ c.YearKept (c.shows p).year := by
  obtain ⟨p, hp⟩ := exists_firstIdle hends
  have ht := hvalid p
  have hexact : stampTime ⟨rtcToFatTime (c.readFrom p), rtcToFatDate (c.readFrom p)⟩ =
      (c.shows p).even ↔ c.HourKept (c.shows p).hour ∧ c.YearKept (c.shows p).year := by
    rw [readFrom_still (htells p hp.idle), stampTime_rtc, ← hourRead_kept_iff ht.hour,
      ← yearRead_kept_iff ht.year, DateTime.even, DateTime.mk.injEq]
    constructor
    · rintro ⟨-, -, hhour, -, -, hyear⟩
      exact ⟨hhour, hyear⟩
    · rintro ⟨hhour, hyear⟩
      have hsecond := ht.second
      exact ⟨by dsimp only; omega, Nat.mod_eq_of_lt (Nat.lt_trans ht.minute (by decide)), hhour,
        Nat.mod_eq_of_lt ht.day, Nat.mod_eq_of_lt (Nat.lt_trans ht.month (by decide)), hyear⟩
  refine ⟨p, _, _, hp, rtcStamp_completes hp hvalid, fun buf i size => ?_, stampedOnDisk _ hexact⟩
  rw [writeTime_putSize]
  exact hexact

end Exact

/-- A clock with 12 hours in the update to one o'clock. -/
def lunchClock : Clock where
  index := 0
  reads := 0
  shows n := if n < 3 then ⟨59, 59, 12, 19, 11, 2026⟩ else ⟨0, 0, 13, 19, 11, 2026⟩
  updating n := decide (n < 3)
  binary := false
  hours24 := false
  century := .counts

/-- The handle of the file `A` of the sample directory. -/
def lunchFile : Fat32.File := { startCluster := 3, currentCluster := 3, size := 0, offset := 0 }

/-- The entry of the file `A` is stamped over lunch. -/
theorem stamp_exact_iff_lunch :
    ∃ p s c', lunchClock.FirstIdle p ∧ Completes rtcStamp lunchClock s c' ∧
      ∃ v', Fat32.fat32UpdateDirEntry Fat32.sampleFs (Fat32.mixedVol 0#8) lunchFile s = some v' ∧
        (writeTime (Fat32.readCluster Fat32.sampleFs v' 2) 0 = (lunchClock.shows p).even ↔
          lunchClock.HourKept (lunchClock.shows p).hour ∧
            lunchClock.YearKept (lunchClock.shows p).year) := by
  have hends : lunchClock.UpdatesEnd :=
    fun j => ⟨j + 3, Nat.le_add_right j 3, decide_eq_false (show ¬ j + 3 < 3 by omega)⟩
  have htells : lunchClock.TellsInTime := by
    intro j hj k _
    have hlate : ¬ j < 3 := of_decide_eq_false hj
    show (if j + k < 3 then _ else _) = if j < 3 then _ else _
    rw [if_neg hlate, if_neg (by omega)]
  have hvalid : ∀ j, (lunchClock.shows j).Valid := by
    intro j
    show DateTime.Valid (if j < 3 then _ else _)
    split
    · exact ⟨by decide, by decide, by decide, by decide, by decide, by decide⟩
    · exact ⟨by decide, by decide, by decide, by decide, by decide, by decide⟩
  have hfound : Fat32.findEntry Fat32.sampleFs (Fat32.mixedVol 0#8)
      (fun buf i => Fat32.entCluster buf i == lunchFile.startCluster) = some (some (2, 0)) := by
    decide +kernel
  obtain ⟨p, s, c', hp, hstamp, -, hdisk⟩ := stamp_exact_iff lunchClock hends htells hvalid
  exact ⟨p, s, c', hp, hstamp, hdisk.update Fat32.sampleFs (Fat32.mixedVol 0#8) [2] lunchFile (2, 0)
    Fat32.sample_ok (Fat32.mixed_root 0#8) hfound⟩

/-! ### The stamp of a clock that ticks between the reads -/

namespace DateTime

def monthCount (t : DateTime) : ℕ := t.year * 13 + t.month
def dayCount (t : DateTime) : ℕ := t.monthCount * 32 + t.day
def hourCount (t : DateTime) : ℕ := t.dayCount * 24 + t.hour
def minuteCount (t : DateTime) : ℕ := t.hourCount * 60 + t.minute

/-- The times in their order. -/
def count (t : DateTime) : ℕ := t.minuteCount * 60 + t.second

end DateTime

section Order
variable {t t' : DateTime}

theorem count_even (t : DateTime) : t.even.count = 2 * (t.count / 2) := by
  have hminute : t.even.minuteCount = t.minuteCount := rfl
  unfold DateTime.count
  rw [hminute, DateTime.even]
  dsimp only
  omega

/-- Times in order are in order in each of their units. -/
theorem units_le (ht' : t'.Valid) (h : t.count ≤ t'.count) :
    t.minuteCount ≤ t'.minuteCount ∧ t.hourCount ≤ t'.hourCount ∧ t.dayCount ≤ t'.dayCount ∧
      t.monthCount ≤ t'.monthCount ∧ t.year ≤ t'.year := by
  have hminute : t.minuteCount ≤ t'.minuteCount := by
    have := ht'.second
    unfold DateTime.count at h
    omega
  have hhour : t.hourCount ≤ t'.hourCount := by
    have := ht'.minute
    unfold DateTime.minuteCount at hminute
    omega
  have hday : t.dayCount ≤ t'.dayCount := by
    have := ht'.hour
    unfold DateTime.hourCount at hhour
    omega
  have hmonth : t.monthCount ≤ t'.monthCount := by
    have := ht'.day
    unfold DateTime.dayCount at hday
    omega
  have hyear : t.year ≤ t'.year := by
    have := ht'.month
    unfold DateTime.monthCount at hmonth
    omega
  exact ⟨hminute, hhour, hday, hmonth, hyear⟩

end Order

/-- The clock never goes back, and shows times that a stamp can hold. -/
structure Clock.Forward (c : Clock) : Prop where
  order : ∀ j k, j ≤ k → (c.shows j).count ≤ (c.shows k).count
  valid : ∀ j, (c.shows j).Valid
  years : ∀ j, 1980 ≤ (c.shows j).year ∧ (c.shows j).year < 2100

section Forward
variable {c : Clock} {p : ℕ}

theorem Clock.Forward.units (h : c.Forward) (j k : ℕ) (hjk : j ≤ k) :
    (c.shows j).minuteCount ≤ (c.shows k).minuteCount ∧
      (c.shows j).hourCount ≤ (c.shows k).hourCount ∧
      (c.shows j).dayCount ≤ (c.shows k).dayCount ∧
      (c.shows j).monthCount ≤ (c.shows k).monthCount ∧ (c.shows j).year ≤ (c.shows k).year :=
  units_le (h.valid k) (h.order j k hjk)

/-- The year that is read, of which the century was read last. -/
def Clock.yearRead (c : Clock) (p : ℕ) : ℕ :=
  c.centuryRead (c.shows (p+7)).year * 100 + (c.shows (p+6)).year % 100

/-- Where no byte tells the century, years before 2000 are taken for later ones. -/
theorem Clock.Forward.year (h : c.Forward) (p : ℕ) :
    (c.shows (p+6)).year ≤ c.yearRead p ∧ 1980 ≤ c.yearRead p ∧ c.yearRead p < 2108 := by
  obtain ⟨-, -, -, -, hle⟩ := h.units (p+6) (p+7) (Nat.le_succ _)
  have hlow := h.years (p+6)
  have hhigh := h.years (p+7)
  unfold Clock.yearRead Clock.centuryRead
  by_cases hcounts : c.century = .counts
  · have hcentury : (c.shows (p+7)).year / 100 ≠ 0 := by omega
    rw [if_pos ⟨hcounts, hcentury⟩]
    omega
  · rw [if_neg (fun h => hcounts h.1)]
    omega

/-- The time that is put together from the reads. -/
def Clock.timeRead (c : Clock) (p : ℕ) : DateTime where
  second := (c.shows (p+1)).second
  minute := (c.shows (p+2)).minute
  hour := (c.shows (p+3)).hour
  day := (c.shows (p+4)).day
  month := (c.shows (p+5)).month
  year := c.yearRead p

/-- The finer a field is, the earlier it is read, so a tick between the reads brings the time
forward. -/
theorem Clock.Forward.timeRead (h : c.Forward) (p : ℕ) :
    (c.shows (p+1)).count ≤ (c.timeRead p).count := by
  obtain ⟨hyear, -, -⟩ := h.year p
  obtain ⟨hminute, -, -, -, -⟩ := h.units (p+1) (p+2) (Nat.le_succ _)
  obtain ⟨-, hhour, -, -, -⟩ := h.units (p+2) (p+3) (Nat.le_succ _)
  obtain ⟨-, -, hday, -, -⟩ := h.units (p+3) (p+4) (Nat.le_succ _)
  obtain ⟨-, -, -, hmonth, -⟩ := h.units (p+4) (p+5) (Nat.le_succ _)
  obtain ⟨-, -, -, -, hnext⟩ := h.units (p+5) (p+6) (Nat.le_succ _)
  -- from the year down to the second, against the time on the clock at the read of that field
  have hmonths : (c.shows (p+5)).monthCount ≤ (c.timeRead p).monthCount := by
    show (c.shows (p+5)).year * 13 + (c.shows (p+5)).month ≤
      c.yearRead p * 13 + (c.shows (p+5)).month
    omega
  have hdays : (c.shows (p+4)).dayCount ≤ (c.timeRead p).dayCount := by
    show (c.shows (p+4)).monthCount * 32 + (c.shows (p+4)).day ≤
      (c.timeRead p).monthCount * 32 + (c.shows (p+4)).day
    omega
  have hhours : (c.shows (p+3)).hourCount ≤ (c.timeRead p).hourCount := by
    show (c.shows (p+3)).dayCount * 24 + (c.shows (p+3)).hour ≤
      (c.timeRead p).dayCount * 24 + (c.shows (p+3)).hour
    omega
  have hminutes : (c.shows (p+2)).minuteCount ≤ (c.timeRead p).minuteCount := by
    show (c.shows (p+2)).hourCount * 60 + (c.shows (p+2)).minute ≤
      (c.timeRead p).hourCount * 60 + (c.shows (p+2)).minute
    omega
  show (c.shows (p+1)).minuteCount * 60 + (c.shows (p+1)).second ≤
    (c.timeRead p).minuteCount * 60 + (c.shows (p+1)).second
  omega

theorem stampTime_readFrom (h : c.Forward) (h24 : c.hours24 = true) (p : ℕ) :
    stampTime ⟨rtcToFatTime (c.readFrom p), rtcToFatDate (c.readFrom p)⟩ = (c.timeRead p).even := by
  obtain ⟨-, hlow, hhigh⟩ := h.year p
  have hyear : (c.readFrom p).year = c.yearRead p := rfl
  have hhour : (c.readFrom p).hour = (c.shows (p+3)).hour := if_pos h24
  have hsecond := (h.valid (p+1)).second
  rw [stampTime_rtc, hhour, hyear, DateTime.even, DateTime.mk.injEq]
  refine ⟨?_, ?_, ?_, ?_, ?_, ?_⟩
  · show 2 * ((c.shows (p+1)).second / 2 % 32) = 2 * ((c.shows (p+1)).second / 2)
    omega
  · exact Nat.mod_eq_of_lt (Nat.lt_trans (h.valid (p+2)).minute (by decide))
  · exact Nat.mod_eq_of_lt (Nat.lt_trans (h.valid (p+3)).hour (by decide))
  · exact Nat.mod_eq_of_lt (h.valid (p+4)).day
  · exact Nat.mod_eq_of_lt (Nat.lt_trans (h.valid (p+5)).month (by decide))
  · show 1980 + (c.yearRead p + (2^16 - 1980)) % 2^16 % 128 = c.yearRead p
    omega

/-- Whenever the clock ticks, no entry is stamped with a time before the call began, to the two
seconds that a stamp counts in. -/
theorem stamp_never_early (c : Clock) (hends : c.UpdatesEnd) (h : c.Forward)
    (h24 : c.hours24 = true) :
    ∃ s c', Completes rtcStamp c s c' ∧
      (∀ buf i size, (c.shows c.reads).even.count ≤
        (writeTime (Fat32.putSize buf i size s) i).count) ∧
      (∀ buf i target newClu, (c.shows c.reads).even.count ≤
        (writeTime (Fat32.putNew buf i target newClu s) i).count) ∧
      StampedOnDisk s fun t => (c.shows c.reads).even.count ≤ t.count := by
  obtain ⟨p, hp⟩ := exists_firstIdle hends
  have hbegan : (c.shows c.reads).count ≤ (c.shows (p+1)).count :=
    h.order _ _ (Nat.le_succ_of_le hp.after)
  have hread := hbegan.trans (h.timeRead p)
  have heven : (c.shows c.reads).even.count ≤ (c.timeRead p).even.count := by
    rw [count_even, count_even]
    omega
  rw [← stampTime_readFrom h h24] at heven
  refine ⟨_, _, rtcStamp_completes hp h.valid, fun buf i size => ?_, fun buf i target newClu => ?_,
    stampedOnDisk _ heven⟩
  · rw [writeTime_putSize]
    exact heven
  · rw [writeTime_putNew]
    exact heven

end Forward

/-- The year ends after the second was read. -/
def newYearClock : Clock where
  index := 0
  reads := 0
  shows n := if n < 2 then ⟨59, 59, 23, 31, 12, 2026⟩ else ⟨0, 0, 0, 1, 1, 2027⟩
  updating _ := false
  binary := false
  hours24 := true
  century := .zeros

/-- A file that is created over the new year. -/
theorem stamp_never_early_newYear :
    ∃ s c', Completes rtcStamp newYearClock s c' ∧
      ∃ v' file, Fat32.fat32CreateFile Fat32.sampleFs (Fat32.mixedVol 0#8) [66#8] s =
          some (some (v', file)) ∧
        (newYearClock.shows newYearClock.reads).even.count ≤
          (writeTime (Fat32.readCluster Fat32.sampleFs v' 2) 1).count := by
  have hshows : ∀ j, newYearClock.shows j = ⟨59, 59, 23, 31, 12, 2026⟩ ∨
      newYearClock.shows j = ⟨0, 0, 0, 1, 1, 2027⟩ := by
    intro j
    show (if j < 2 then _ else _) = _ ∨ (if j < 2 then _ else _) = _
    split
    · exact Or.inl rfl
    · exact Or.inr rfl
  have hforward : newYearClock.Forward := by
    refine ⟨fun j k hjk => ?_, fun j => ?_, fun j => ?_⟩
    · show DateTime.count (if j < 2 then _ else _) ≤ DateTime.count (if k < 2 then _ else _)
      split_ifs
      · exact Nat.le_refl _
      · decide
      · omega
      · exact Nat.le_refl _
    · rcases hshows j with hj | hj <;> rw [hj] <;>
        exact ⟨by decide, by decide, by decide, by decide, by decide, by decide⟩
    · rcases hshows j with hj | hj <;> rw [hj] <;> decide
  -- the entry of the deleted file is taken
  have hslot : Fat32.walkRoot Fat32.sampleFs (Fat32.mixedVol 0#8)
      (fun buf => Fat32.scanFree buf 0 Fat32.sampleFs.entryCount) = some (some (2, 1)) := by
    decide +kernel
  have hfree : Fat32.findFreeCluster Fat32.sampleFs (Fat32.mixedVol 0#8) ≠ 0 := by decide +kernel
  obtain ⟨s, c', hstamp, -, -, hdisk⟩ :=
    stamp_never_early newYearClock (fun j => ⟨j, Nat.le_refl j, rfl⟩) hforward rfl
  exact ⟨s, c', hstamp, hdisk.create Fat32.sampleFs (Fat32.mixedVol 0#8) [2] [66#8] (2, 1)
    Fat32.sample_ok (Fat32.mixed_root 0#8) hslot hfree⟩

/-- The stamp lies ahead of both times on the clock. -/
example : (rtcStamp 1 newYearClock).map (fun r => stampTime r.1) =
    some ⟨58, 0, 0, 1, 1, 2027⟩ := by decide

end SukiOS.Rtc
