import Mathlib.Data.List.Induction
import Mathlib.Tactic.Common

/-!
A condition that is looked at now and then, and reported when it begins and every so
often while it lasts. A look finds it or finds it over, and a look that fails says
nothing. The reports of a stretch depend on how many looks found the condition, not on
the looks that failed in between.
-/
namespace PacketLoss.Stretches

variable (every : ℕ)

/-- The number of looks that found the condition since it began, and whether the last
look is reported. -/
def look (n : ℕ) : Option Bool → ℕ × Bool
  | none => (n, false)
  | some true => (n + 1, n + 1 = 1 || (n + 1) % every = 0)
  | some false => (0, false)

def after (n : ℕ) (looks : List (Option Bool)) : ℕ :=
  looks.foldl (fun n l => (look every n l).1) n

def reports : ℕ → List (Option Bool) → ℕ
  | _, [] => 0
  | n, l :: looks => (if (look every n l).2 then 1 else 0) + reports (look every n l).1 looks

/-- How many of the last looks found the condition, of those that did not fail. -/
def stretch (looks : List (Option Bool)) : ℕ :=
  ((looks.filterMap id).reverse.takeWhile id).length

/-- How often a stretch is reported of which `n` looks are past. -/
def due (n : ℕ) : ℕ := if n = 0 then 0 else 1 + n / every

variable {every}

theorem after_concat (n : ℕ) (looks : List (Option Bool)) (l : Option Bool) :
    after every n (looks ++ [l]) = (look every (after every n looks) l).1 := by
  simp [after, List.foldl_append]

theorem after_eq_stretch (every : ℕ) (looks : List (Option Bool)) :
    after every 0 looks = stretch looks := by
  unfold stretch
  induction looks using List.reverseRecOn with
  | nil => rfl
  | append_singleton looks l ih =>
    rw [after_concat, List.filterMap_append, List.reverse_append]
    cases l with
    | none => simpa [look] using ih
    | some found =>
      cases found with
      | false => simp [look]
      | true => simp [look, ih]

/-- One look more is one report more exactly if it is reported. -/
theorem due_succ (hevery : 1 < every) (n : ℕ) :
    due every (n + 1) = due every n + if (look every n (some true)).2 then 1 else 0 := by
  have hdvd : (n + 1) % every = 0 ↔ every ∣ n + 1 := Nat.dvd_iff_mod_eq_zero.symm
  unfold due
  cases n with
  | zero =>
    have hlt : (0 + 1) / every = 0 := Nat.div_eq_of_lt (by omega)
    simp [look, hlt]
  | succ n =>
    have hreported : (look every (n + 1) (some true)).2 = decide (every ∣ n + 1 + 1) := by
      simp only [look, hdvd]
      simp
    rw [if_neg (Nat.succ_ne_zero _), if_neg (Nat.succ_ne_zero _), hreported, Nat.succ_div]
    simp [Nat.add_assoc]

/-- No more looks are counted than found the condition. -/
theorem look_add_count_le (every n : ℕ) (l : Option Bool) (looks : List (Option Bool)) :
    (look every n l).1 + looks.count (some true) ≤ n + (l :: looks).count (some true) := by
  cases l with
  | none => simp [look]
  | some found => cases found <;> simp [look, Nat.add_assoc, Nat.add_comm 1]

/-- While the condition lasts, the reports are those due. -/
theorem reports_of_lasting (hevery : 1 < every) (n : ℕ) {looks : List (Option Bool)}
    (hlasts : some false ∉ looks) :
    due every n + reports every n looks = due every (n + looks.count (some true)) := by
  induction looks generalizing n with
  | nil => rfl
  | cons l looks ih =>
    rw [List.mem_cons, not_or] at hlasts
    cases l with
    | none =>
      rw [reports, List.count_cons_of_ne (by simp)]
      simpa [look] using ih n hlasts.2
    | some found =>
      cases found with
      | false => exact absurd rfl hlasts.1
      | true =>
        have hrest := ih (n + 1) hlasts.2
        rw [due_succ hevery] at hrest
        rw [reports, List.count_cons_self]
        simp only [look] at hrest ⊢
        rw [← Nat.add_assoc, hrest]
        congr 1
        omega

end PacketLoss.Stretches
