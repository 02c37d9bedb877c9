import PacketLoss.RotatingWindow
import Mathlib.Tactic.Linarith

/-!
The clock that opens a new period at the first reading more than `period`
after the last period was opened. Nothing happens between readings, so how
long a period lasts depends on when the clock is read. Times are natural
numbers and no order of the readings is assumed unless stated.
-/
namespace PacketLoss.EpochClock

open RotatingWindow

def due (period start now : ℕ) : Option ℕ := if start + period < now then some now else none

variable (period : ℕ)

theorem clockStep_of_le {start n now : ℕ} (h : now ≤ start + period) :
    clockStep (due period) (start, n) now = (start, n) := by
  simp [clockStep, due, Nat.not_lt.mpr h]

theorem clockStep_of_lt {start n now : ℕ} (h : start + period < now) :
    clockStep (due period) (start, n) now = (now, n + 1) := by
  simp [clockStep, due, h]

theorem tick_of_le {α : Type*} {w : Window ℕ α} {now : ℕ} (h : now ≤ w.clock + period) :
    tick (due period) w now = w := by
  simp [tick, due, Nat.not_lt.mpr h]

theorem tick_of_lt {α : Type*} {w : Window ℕ α} {now : ℕ} (h : w.clock + period < now) :
    tick (due period) w now = ⟨now, w.rolls + 1, ∅, w.cur⟩ := by
  simp [tick, due, h]

/-- A reading belongs to the period that is open after it. -/
theorem le_clockStep (c : ℕ × ℕ) (now : ℕ) :
    now ≤ (clockStep (due period) c now).1 + period := by
  obtain ⟨start, n⟩ := c
  rcases Nat.lt_or_ge (start + period) now with hlt | hge
  · simp [clockStep_of_lt period hlt]
  · simpa [clockStep_of_le period hge] using hge

theorem clockStep_mono (c : ℕ × ℕ) (now : ℕ) :
    c.1 ≤ (clockStep (due period) c now).1 ∧ c.2 ≤ (clockStep (due period) c now).2 := by
  obtain ⟨start, n⟩ := c
  rcases Nat.lt_or_ge (start + period) now with hlt | hge
  · simp only [clockStep_of_lt period hlt]
    omega
  · simp [clockStep_of_le period hge]

theorem clockRun_mono (c : ℕ × ℕ) (times : List ℕ) :
    c.1 ≤ (clockRun (due period) c times).1 ∧ c.2 ≤ (clockRun (due period) c times).2 := by
  induction times generalizing c with
  | nil => exact ⟨le_rfl, le_rfl⟩
  | cons now rest ih =>
    have hstep := clockStep_mono period c now
    have hrest := ih (clockStep (due period) c now)
    exact ⟨hstep.1.trans hrest.1, hstep.2.trans hrest.2⟩

/-- Every period that was opened took more than `period` of the time axis. -/
theorem rolls_mul_le_start (times : List ℕ) :
    (clockRun (due period) (0, 0) times).2 * (period + 1) ≤
      (clockRun (due period) (0, 0) times).1 := by
  induction times using List.reverseRecOn with
  | nil => simp [clockRun]
  | append_singleton times now ih =>
    rw [clockRun_concat]
    generalize clockRun (due period) (0, 0) times = c at ih ⊢
    obtain ⟨start, n⟩ := c
    rcases Nat.lt_or_ge (start + period) now with hlt | hge
    · simp only [clockStep_of_lt period hlt]
      simp only at ih
      linarith
    · simpa [clockStep_of_le period hge] using ih

theorem rolls_le_start (times : List ℕ) :
    (clockRun (due period) (0, 0) times).2 ≤ (clockRun (due period) (0, 0) times).1 :=
  (Nat.le_mul_of_pos_right _ (Nat.succ_pos period)).trans (rolls_mul_le_start period times)

/-- The clock shows the opening of a period, so never more than the latest reading. -/
theorem start_le_of_forall_le (start n bound : ℕ) (times : List ℕ) (hstart : start ≤ bound)
    (htimes : ∀ now ∈ times, now ≤ bound) :
    (clockRun (due period) (start, n) times).1 ≤ bound := by
  induction times generalizing start n with
  | nil => exact hstart
  | cons now rest ih =>
    have hrest : ∀ later ∈ rest, later ≤ bound := fun later h =>
      htimes later (List.mem_cons_of_mem _ h)
    change (clockRun (due period) (clockStep (due period) (start, n) now) rest).1 ≤ bound
    rcases Nat.lt_or_ge (start + period) now with hlt | hge
    · rw [clockStep_of_lt period hlt]
      exact ih now (n + 1) (htimes now List.mem_cons_self) hrest
    · rw [clockStep_of_le period hge]
      exact ih start n hstart hrest

/-- Readings inside the open period change nothing. -/
theorem clockRun_of_forall_le {start n : ℕ} (times : List ℕ)
    (htimes : ∀ now ∈ times, now ≤ start + period) :
    clockRun (due period) (start, n) times = (start, n) := by
  induction times with
  | nil => rfl
  | cons now rest ih =>
    change clockRun (due period) (clockStep (due period) (start, n) now) rest = _
    rw [clockStep_of_le period (htimes now List.mem_cons_self)]
    exact ih fun later h => htimes later (List.mem_cons_of_mem _ h)

/-- Two periods cannot be opened by readings that lie within one period. -/
theorem rolls_le_succ_of_within {start n t : ℕ} (times : List ℕ)
    (htimes : ∀ now ∈ times, t ≤ now ∧ now ≤ t + period) :
    (clockRun (due period) (start, n) times).2 ≤ n + 1 := by
  induction times with
  | nil => exact Nat.le_succ n
  | cons now rest ih =>
    have hnow := htimes now List.mem_cons_self
    have hrest : ∀ later ∈ rest, t ≤ later ∧ later ≤ t + period := fun later h =>
      htimes later (List.mem_cons_of_mem _ h)
    change (clockRun (due period) (clockStep (due period) (start, n) now) rest).2 ≤ n + 1
    rcases Nat.lt_or_ge (start + period) now with hlt | hge
    · rw [clockStep_of_lt period hlt, clockRun_of_forall_le period rest]
      intro later hlater
      have := (hrest later hlater).2
      omega
    · rw [clockStep_of_le period hge]
      exact ih hrest

theorem last_le_of_no_roll {start n : ℕ} (times : List ℕ) (last : ℕ)
    (hrolls : (clockRun (due period) (start, n) (times ++ [last])).2 ≤ n) :
    last ≤ start + period := by
  induction times with
  | nil =>
    by_contra hlt
    have hstep : clockRun (due period) (start, n) [last] = (last, n + 1) :=
      clockStep_of_lt period (by omega)
    rw [List.nil_append, hstep] at hrolls
    omega
  | cons now rest ih =>
    change (clockRun (due period) (clockStep (due period) (start, n) now)
      (rest ++ [last])).2 ≤ n at hrolls
    rcases Nat.lt_or_ge (start + period) now with hlt | hge
    · rw [clockStep_of_lt period hlt] at hrolls
      have := (clockRun_mono period (now, n + 1) (rest ++ [last])).2
      omega
    · rw [clockStep_of_le period hge] at hrolls
      exact ih hrolls

/-- With at most one new period since `first`, the last reading lies at most two
periods and one gap between neighbouring readings after the open period began. -/
theorem last_le_of_rolls_le_succ {start n first : ℕ} (times : List ℕ) (last : ℕ)
    (hfirst : first ≤ start + period)
    (hrolls : (clockRun (due period) (start, n) (times ++ [last])).2 ≤ n + 1) :
    ∃ pre before after post, first :: times ++ [last] = pre ++ before :: after :: post ∧
      last ≤ start + 2 * period + (after - before) := by
  induction times generalizing first with
  | nil => exact ⟨[], first, last, [], rfl, by omega⟩
  | cons now rest ih =>
    change (clockRun (due period) (clockStep (due period) (start, n) now)
      (rest ++ [last])).2 ≤ n + 1 at hrolls
    rcases Nat.lt_or_ge (start + period) now with hlt | hge
    · rw [clockStep_of_lt period hlt] at hrolls
      have hlast := last_le_of_no_roll period rest last hrolls
      exact ⟨[], first, now, rest ++ [last], rfl, by omega⟩
    · rw [clockStep_of_le period hge] at hrolls
      obtain ⟨pre, before, after, post, hsplit, hbound⟩ := ih hge hrolls
      exact ⟨first :: pre, before, after, post, by simp [← hsplit], hbound⟩

end PacketLoss.EpochClock
