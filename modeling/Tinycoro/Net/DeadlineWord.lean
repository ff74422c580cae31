import Tinycoro.Net.TcpStream
import Mathlib.Algebra.Group.Int.Defs
import Mathlib.Tactic.ByContra
import Mathlib.Tactic.SplitIfs

/-! Time as the source counts it. A clock reading is a 64-bit signed count of
nanoseconds and a timeout one of milliseconds, and `Clock::now() + timeout` first turns
the timeout into nanoseconds. Both steps wrap where they overflow. As long as none
does, the words compute what the unbounded numbers of the other modules do. -/
namespace Tinycoro.Net

/-- `Clock::now() + timeout`, in `arm_wait` and in `Deadline`. -/
def addTimeout (now timeout : Int64) : Int64 := now + timeout * 1000000

def FitsInt64 (x : Int) : Prop := -2 ^ 63 ≤ x ∧ x < 2 ^ 63

/-- Neither the conversion to nanoseconds nor the sum overflows. -/
def NoOverflow (now timeout : Int64) : Prop :=
  FitsInt64 (timeout.toInt * 1000000) ∧ FitsInt64 (now.toInt + timeout.toInt * 1000000)

/-- A timer with this deadline is popped by `expire_timers` at this reading. -/
def isDue (deadline now : Int64) : Bool := deadline ≤ now

theorem FitsInt64.bmod {x : Int} (h : FitsInt64 x) : x.bmod (2 ^ 64) = x := by
  unfold FitsInt64 at h
  apply Int.bmod_eq_of_le <;> omega

theorem toInt_million : (1000000 : Int64).toInt = 1000000 := by decide

theorem toInt_addTimeout {now timeout : Int64} (h : NoOverflow now timeout) :
    (addTimeout now timeout).toInt = now.toInt + timeout.toInt * 1000000 := by
  rw [addTimeout, Int64.toInt_add, Int64.toInt_mul, toInt_million, h.1.bmod, h.2.bmod]

theorem noOverflow_iff {now timeout : Int64} (hNow : 0 ≤ now) (hTimeout : 0 ≤ timeout) :
    NoOverflow now timeout ↔ now.toInt + timeout.toInt * 1000000 < 2 ^ 63 := by
  rw [Int64.le_iff_toInt_le, Int64.toInt_zero] at hNow hTimeout
  unfold NoOverflow FitsInt64
  omega

/-- The deadline is never too early exactly if nothing overflows. A sum that wraps
comes out below its true value. -/
theorem never_due_early_iff {now timeout : Int64} (hNow : 0 ≤ now) (hTimeout : 0 ≤ timeout) :
    (∀ later, now ≤ later → isDue (addTimeout now timeout) later →
        now.toInt + timeout.toInt * 1000000 ≤ later.toInt) ↔ NoOverflow now timeout := by
  constructor
  · intro hEarly
    rw [noOverflow_iff hNow hTimeout]
    by_contra hBig
    rw [Int64.le_iff_toInt_le, Int64.toInt_zero] at hNow hTimeout
    -- At the later of the two readings the wrapped deadline is due.
    have hRange := Int64.toInt_lt (addTimeout now timeout)
    have hNowRange := Int64.toInt_lt now
    rcases Int.le_total now.toInt (addTimeout now timeout).toInt with hAfter | hBefore
    · have hDue := hEarly (addTimeout now timeout) (Int64.le_iff_toInt_le.mpr hAfter)
        (decide_eq_true (Int64.le_refl _))
      omega
    · have hDue := hEarly now (Int64.le_refl _) (decide_eq_true (Int64.le_iff_toInt_le.mpr hBefore))
      omega
  · intro hExact later _ hDue
    rw [← toInt_addTimeout hExact]
    exact Int64.le_iff_toInt_le.mp (of_decide_eq_true hDue)

/-- `Deadline` with its fields as words. -/
structure DeadlineWord where
  enabled : Bool
  deadline : Int64
  deriving DecidableEq

namespace DeadlineWord

def create (timeout now : Int64) : DeadlineWord where
  enabled := timeout ≥ 0
  deadline := if timeout ≥ 0 then addTimeout now timeout else 0

def remaining (d : DeadlineWord) (now : Int64) : Int64 :=
  if !d.enabled then -1
  else if now ≥ d.deadline then 0
  else
    let remaining := d.deadline - now
    let milliseconds := remaining / 1000000
    if milliseconds * 1000000 < remaining then milliseconds + 1 else milliseconds

/-- The deadline of the model. -/
def toDeadline (d : DeadlineWord) : Deadline := ⟨d.enabled, d.deadline.toInt⟩

theorem toDeadline_create {timeout now : Int64} (h : 0 ≤ timeout → NoOverflow now timeout) :
    (create timeout now).toDeadline = Deadline.create timeout.toInt now.toInt := by
  have hSign : timeout ≥ 0 ↔ timeout.toInt ≥ 0 := by
    rw [ge_iff_le, Int64.le_iff_toInt_le, Int64.toInt_zero]
  unfold toDeadline create Deadline.create
  by_cases hOn : timeout ≥ 0
  · simp only [hOn, hSign.mp hOn, decide_true, if_true]
    rw [toInt_addTimeout (h hOn)]
    rfl
  · simp only [hOn, mt hSign.mpr hOn, decide_false, if_false]
    rfl

/-- No step of `remaining` overflows on a clock that is not negative. -/
theorem toInt_remaining (d : DeadlineWord) {now : Int64} (hNow : 0 ≤ now) :
    (d.remaining now).toInt = d.toDeadline.remaining now.toInt := by
  rw [Int64.le_iff_toInt_le, Int64.toInt_zero] at hNow
  have hDeadline := Int64.toInt_lt d.deadline
  have hPast : now ≥ d.deadline ↔ now.toInt ≥ d.deadline.toInt := Int64.le_iff_toInt_le
  unfold remaining Deadline.remaining toDeadline
  cases d.enabled with
  | false => rfl
  | true =>
    simp only [Bool.not_true, Bool.false_eq_true, if_false, hPast, nanoseconds]
    by_cases hDue : now.toInt ≥ d.deadline.toInt
    · rw [if_pos hDue, if_pos hDue]
      rfl
    · rw [if_neg hDue, if_neg hDue]
      have hLeft : (d.deadline - now).toInt = d.deadline.toInt - now.toInt := by
        rw [Int64.toInt_sub, FitsInt64.bmod ⟨by omega, by omega⟩]
      have hTdiv : (d.deadline.toInt - now.toInt).tdiv 1000000 = (d.deadline.toInt - now.toInt) /
          1000000 :=
        Int.tdiv_eq_ediv_of_nonneg (by omega)
      have hQuotient : ((d.deadline - now) / 1000000).toInt = (d.deadline.toInt - now.toInt) /
          1000000 := by
        rw [Int64.toInt_div, hLeft, toInt_million, hTdiv, FitsInt64.bmod ⟨by omega, by omega⟩]
      have hProduct : ((d.deadline - now) / 1000000 * 1000000).toInt =
          (d.deadline.toInt - now.toInt) / 1000000 * 1000000 := by
        rw [Int64.toInt_mul, hQuotient, toInt_million, FitsInt64.bmod ⟨by omega, by omega⟩]
      simp only [Int64.lt_iff_toInt_lt, hProduct, hLeft, hTdiv]
      split_ifs
      · rw [Int64.toInt_add, hQuotient, show (1 : Int64).toInt = 1 from rfl,
          FitsInt64.bmod ⟨by omega, by omega⟩]
      · exact hQuotient

end DeadlineWord

/-- The time left, with the rounding written as a division. -/
theorem Deadline.remaining_of_lt {d : Deadline} (h : d.enabled = true) {now : Int}
    (hLt : now < d.deadline) : d.remaining now = (d.deadline - now + 999999) / 1000000 := by
  unfold remaining
  have hTdiv : (d.deadline - now).tdiv nanoseconds = (d.deadline - now) / 1000000 :=
    Int.tdiv_eq_ediv_of_nonneg (by omega)
  simp only [h, Bool.not_true, Bool.false_eq_true, if_false, ge_iff_le, Int.not_le.mpr hLt, hTdiv]
  have hNano : nanoseconds = 1000000 := rfl
  by_cases hUp : (d.deadline - now) / 1000000 * nanoseconds < d.deadline - now
  · rw [if_pos hUp]
    rw [hNano] at hUp
    change @Eq Int _ _
    omega
  · rw [if_neg hUp]
    rw [hNano] at hUp
    change @Eq Int _ _
    omega

/-- The time left is not cut short, and less than a millisecond is added. -/
theorem Deadline.remaining_bounds {d : Deadline} (h : d.enabled = true) (now : Int) :
    (0 : Int) ≤ d.remaining now ∧ d.deadline ≤ now + d.remaining now * 1000000 ∧
      (now < d.deadline → now + d.remaining now * 1000000 < d.deadline + 1000000) := by
  by_cases hLt : now < d.deadline
  · rw [Deadline.remaining_of_lt h hLt]
    omega
  · have hZero : d.remaining now = (0 : Int) := by
      simp only [remaining, h, Bool.not_true, Bool.false_eq_true, if_false, ge_iff_le,
        Int.not_lt.mp hLt, if_true]
    rw [hZero]
    omega

/-- What the words of a timeout do in a wait and in an operation with a deadline:
`start` is the reading in `Deadline`, `asked` the one in `remaining` and `armed` the one
in `arm_wait`. -/
structure TimesOutOnTime (timeout : Int64) : Prop where
  /-- a wait armed with the timeout itself -/
  wait : ∀ now, 0 ≤ now →
    (NoOverflow now timeout ↔ now.toInt + timeout.toInt * 1000000 < 2 ^ 63) ∧
    (NoOverflow now timeout → now ≤ addTimeout now timeout) ∧
    (NoOverflow now timeout ↔ ∀ later, now ≤ later → isDue (addTimeout now timeout) later →
      now.toInt + timeout.toInt * 1000000 ≤ later.toInt)
  /-- a wait of an operation, armed with the time left -/
  operation : ∀ start asked armed, 0 ≤ start → start ≤ asked → asked ≤ armed →
    NoOverflow start timeout → let left := (DeadlineWord.create timeout start).remaining asked
    (NoOverflow armed left ↔ armed.toInt + left.toInt * 1000000 < 2 ^ 63) ∧
    (NoOverflow armed left → armed ≤ addTimeout armed left ∧
      ∀ later, isDue (addTimeout armed left) later →
        start.toInt + timeout.toInt * 1000000 ≤ later.toInt)

/-- The deadlines of a timeout are exact, and waits never end too early, exactly if
the sum in nanoseconds stays below `2 ^ 63`, each time it is formed. -/
theorem timesOutOnTime (timeout : Int64) (hTimeout : 0 ≤ timeout) : TimesOutOnTime timeout where
  wait := by
    intro now hNow
    refine ⟨noOverflow_iff hNow hTimeout, ?_, (never_due_early_iff hNow hTimeout).symm⟩
    intro hExact
    rw [Int64.le_iff_toInt_le, Int64.toInt_zero] at hTimeout
    rw [Int64.le_iff_toInt_le, toInt_addTimeout hExact]
    omega
  operation := by
    intro start asked armed hStart hAsked hArmed hExact
    have hCreate := DeadlineWord.toDeadline_create (fun _ => hExact)
    have hLeft := DeadlineWord.toInt_remaining (.create timeout start)
        (Int64.le_trans hStart hAsked)
    have hEnabled : (Deadline.create timeout.toInt start.toInt).enabled = true := by
      rw [Int64.le_iff_toInt_le, Int64.toInt_zero] at hTimeout
      exact decide_eq_true hTimeout
    have hDeadline : (Deadline.create timeout.toInt start.toInt).deadline =
        start.toInt + timeout.toInt * 1000000 := by
      rw [Int64.le_iff_toInt_le, Int64.toInt_zero] at hTimeout
      exact if_pos hTimeout
    rw [hCreate] at hLeft
    have hBounds := Deadline.remaining_bounds hEnabled asked.toInt
    rw [← hLeft, hDeadline] at hBounds
    have hNonneg : 0 ≤ (DeadlineWord.create timeout start).remaining asked := by
      rw [Int64.le_iff_toInt_le, Int64.toInt_zero]
      exact hBounds.1
    have hClock : 0 ≤ armed := Int64.le_trans (Int64.le_trans hStart hAsked) hArmed
    rw [Int64.le_iff_toInt_le] at hArmed
    refine ⟨noOverflow_iff hClock hNonneg, ?_⟩
    intro hFits
    have hSum := toInt_addTimeout hFits
    refine ⟨Int64.le_iff_toInt_le.mpr (by omega), ?_⟩
    intro later hDue
    have hLater := Int64.le_iff_toInt_le.mp (of_decide_eq_true hDue)
    omega

theorem timesOutOnTime_hour : (0 : Int64) ≤ 3600000 ∧ TimesOutOnTime 3600000 :=
  ⟨by decide, timesOutOnTime 3600000 (by decide)⟩

/-- The longest timeout wraps to a deadline in the past. The wait is due when it is
armed, and an operation with this timeout has no time left at once. -/
theorem longest_timeout_due_at_once :
    ¬ NoOverflow 5 Int64.maxValue ∧ addTimeout 5 Int64.maxValue < 5 ∧
      isDue (addTimeout 5 Int64.maxValue) 5 = true ∧
      (DeadlineWord.create Int64.maxValue 5).remaining 5 = 0 := by
  refine ⟨?_, by decide, by decide, by decide⟩
  rw [noOverflow_iff (by decide) (by decide)]
  decide

end Tinycoro.Net
