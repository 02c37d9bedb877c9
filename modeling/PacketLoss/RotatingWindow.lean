import Mathlib.Data.List.Induction
import Mathlib.Data.Set.Insert
import PacketLoss.ListSplits

/-!
A set that forgets in two steps. Elements are inserted into the current
generation. When the clock says that a period is over, the current generation
becomes the previous one and the previous one is dropped. The clock is a
parameter: all that is used of it is when it starts a new period.
-/
namespace PacketLoss.RotatingWindow

variable {σ τ α : Type*}

/-- One use of the window: a reading of the clock, or an insertion. -/
inductive Call (τ α : Type*)
  | tick (now : τ)
  | insert (xs : Set α)

structure Window (σ α : Type*) where
  clock : σ
  rolls : ℕ
  cur : Set α
  prev : Set α

def empty (clock : σ) : Window σ α := ⟨clock, 0, ∅, ∅⟩

namespace Window

/-- An element is remembered while either generation has it. -/
def Holds (w : Window σ α) (x : α) : Prop := x ∈ w.cur ∨ x ∈ w.prev

def insert (w : Window σ α) (xs : Set α) : Window σ α := { w with cur := w.cur ∪ xs }

theorem insert_insert (w : Window σ α) (xs ys : Set α) :
    (w.insert xs).insert ys = w.insert (xs ∪ ys) := by
  simp [insert, Set.union_assoc]

end Window

section Run

-- `due start now` is the clock of the new period that `now` opens, if it opens one
variable (due : σ → τ → Option σ)

def tick (w : Window σ α) (now : τ) : Window σ α :=
  match due w.clock now with
  | none => w
  | some clock => ⟨clock, w.rolls + 1, ∅, w.cur⟩

def step (w : Window σ α) : Call τ α → Window σ α
  | .tick now => tick due w now
  | .insert xs => w.insert xs

def run (w : Window σ α) (calls : List (Call τ α)) : Window σ α :=
  calls.foldl (step due) w

/-- The clock alone, with the number of periods it has opened. -/
def clockStep (c : σ × ℕ) (now : τ) : σ × ℕ :=
  match due c.1 now with
  | none => c
  | some clock => (clock, c.2 + 1)

def clockRun (c : σ × ℕ) (times : List τ) : σ × ℕ := times.foldl (clockStep due) c

def ticks : List (Call τ α) → List τ
  | [] => []
  | .tick now :: rest => now :: ticks rest
  | .insert _ :: rest => ticks rest

theorem ticks_append (left right : List (Call τ α)) :
    ticks (left ++ right) = ticks left ++ ticks right := by
  induction left with
  | nil => rfl
  | cons call rest ih => cases call <;> simp [ticks, ih]

theorem run_concat (w : Window σ α) (calls : List (Call τ α)) (call : Call τ α) :
    run due w (calls ++ [call]) = step due (run due w calls) call := by
  simp [run, List.foldl_append]

theorem clockRun_append (c : σ × ℕ) (left right : List τ) :
    clockRun due c (left ++ right) = clockRun due (clockRun due c left) right := by
  simp [clockRun, List.foldl_append]

theorem clockRun_concat (c : σ × ℕ) (times : List τ) (now : τ) :
    clockRun due c (times ++ [now]) = clockStep due (clockRun due c times) now := by
  simp [clockRun, List.foldl_append]

theorem clock_tick (w : Window σ α) (now : τ) :
    ((tick due w now).clock, (tick due w now).rolls) =
      clockStep due (w.clock, w.rolls) now := by
  cases hdue : due w.clock now <;> simp [tick, clockStep, hdue]

/-- Insertions do not touch the clock: it sees only the readings. -/
theorem clock_run (w : Window σ α) (calls : List (Call τ α)) :
    ((run due w calls).clock, (run due w calls).rolls) =
      clockRun due (w.clock, w.rolls) (ticks calls) := by
  induction calls generalizing w with
  | nil => rfl
  | cons call rest ih =>
    cases call with
    | tick now =>
      have hrest := ih (tick due w now)
      rw [clock_tick] at hrest
      exact hrest
    | insert xs => exact ih (w.insert xs)

theorem rolls_run (w : Window σ α) (calls : List (Call τ α)) :
    (run due w calls).rolls = (clockRun due (w.clock, w.rolls) (ticks calls)).2 :=
  congrArg Prod.snd (clock_run due w calls)

/-- Some insertion of `x` found the window after `n` rolls. -/
def InsertedAt (w : Window σ α) (calls : List (Call τ α)) (x : α) (n : ℕ) : Prop :=
  ∃ pre xs post, calls = pre ++ .insert xs :: post ∧ x ∈ xs ∧ (run due w pre).rolls = n

theorem not_insertedAt_nil (w : Window σ α) (x : α) (n : ℕ) :
    ¬ InsertedAt due w ([] : List (Call τ α)) x n := by
  intro hins
  rcases hins with ⟨pre, xs, post, hsplit, -⟩
  simp at hsplit

/-- The last call of a run is the insertion meant, or an earlier one is. -/
theorem insertedAt_concat (w : Window σ α) (calls : List (Call τ α)) (call : Call τ α)
    (x : α) (n : ℕ) :
    InsertedAt due w (calls ++ [call]) x n ↔
      InsertedAt due w calls x n ∨
        ∃ xs, call = .insert xs ∧ x ∈ xs ∧ (run due w calls).rolls = n := by
  constructor
  · intro hins
    rcases hins with ⟨pre, xs, post, hsplit, hx, hn⟩
    rcases ListSplits.concat_eq_append_cons hsplit with ⟨rfl, rfl, -⟩ | ⟨post', -, hcalls⟩
    · exact Or.inr ⟨xs, rfl, hx, hn⟩
    · exact Or.inl ⟨pre, xs, post', hcalls, hx, hn⟩
  · intro hins
    rcases hins with ⟨pre, xs, post, rfl, hx, hn⟩ | ⟨xs, rfl, hx, hn⟩
    · exact ⟨pre, xs, post ++ [call], by simp, hx, hn⟩
    · exact ⟨calls, xs, [], rfl, hx, hn⟩

/-- Both generations, by what was inserted when. -/
theorem mem_run_iff (clock : σ) (calls : List (Call τ α)) (x : α) :
    let w := run due (empty clock) calls
    (x ∈ w.cur ↔ InsertedAt due (empty clock) calls x w.rolls) ∧
      (x ∈ w.prev ↔ ∃ n, n + 1 = w.rolls ∧ InsertedAt due (empty clock) calls x n) ∧
        ∀ n, InsertedAt due (empty clock) calls x n → n ≤ w.rolls := by
  induction calls using List.reverseRecOn with
  | nil => simp [run, empty, not_insertedAt_nil]
  | append_singleton calls call ih =>
    obtain ⟨hcur, hprev, hle⟩ := ih
    simp only [run_concat, insertedAt_concat]
    generalize run due (empty clock) calls = w at *
    cases call with
    | tick now =>
      simp only [reduceCtorEq, false_and, exists_false, or_false, step, tick]
      cases hdue : due w.clock now with
      | none => exact ⟨hcur, hprev, hle⟩
      | some c =>
        refine ⟨?_, ?_, fun n hn => (hle n hn).trans (Nat.le_succ _)⟩
        · simp only [Set.mem_empty_iff_false, false_iff]
          intro hn
          have := hle _ hn
          omega
        · simpa using hcur
    | insert xs =>
      simp only [step, Window.insert, Call.insert.injEq, Set.mem_union, hcur, hprev]
      refine ⟨by simp, ?_, ?_⟩
      · constructor
        · intro hprev
          rcases hprev with ⟨n, hn, hins⟩
          exact ⟨n, hn, Or.inl hins⟩
        · intro hprev
          rcases hprev with ⟨n, hn, hins | ⟨_, rfl, -, hrolls⟩⟩
          · exact ⟨n, hn, hins⟩
          · omega
      · rintro n (hins | ⟨_, rfl, -, hrolls⟩)
        · exact hle n hins
        · omega

/-- An element is remembered exactly until its second roll. -/
theorem holds_run_iff (clock : σ) (calls : List (Call τ α)) (x : α) :
    (run due (empty clock) calls).Holds x ↔
      ∃ n, InsertedAt due (empty clock) calls x n ∧
        (run due (empty clock) calls).rolls ≤ n + 1 := by
  obtain ⟨hcur, hprev, hle⟩ := mem_run_iff due clock calls x
  unfold Window.Holds
  rw [hcur, hprev]
  constructor
  · intro hheld
    rcases hheld with hins | ⟨n, hn, hins⟩
    · exact ⟨_, hins, Nat.le_succ _⟩
    · exact ⟨n, hins, hn.ge⟩
  · intro hheld
    rcases hheld with ⟨n, hins, hn⟩
    rcases Nat.lt_or_ge n (run due (empty clock) calls).rolls with hlt | hge
    · exact Or.inr ⟨n, by omega, hins⟩
    · have heq : n = (run due (empty clock) calls).rolls := le_antisymm (hle n hins) hge
      exact Or.inl (heq ▸ hins)

end Run

end PacketLoss.RotatingWindow
