import Mathlib.Algebra.BigOperators.Group.List.Basic
import Mathlib.Algebra.Group.Basic
import Mathlib.Data.List.DropRight
import Mathlib.Logic.Function.Basic

/-!
A ring buffer of `cap` slots that keeps the sum of what it holds. When it is full,
the slot at `pos` holds the oldest value; it is subtracted before it is
overwritten. After any number of values the sum is that of the last `cap` ones.
-/
namespace PacketLoss.SlidingWindow

variable {A : Type*} [AddCommGroup A]

@[ext]
structure RingBuffer (A : Type*) where
  slots : ℕ → A
  pos : ℕ
  len : ℕ
  sum : A

def empty : RingBuffer A := ⟨fun _ => 0, 0, 0, 0⟩

def push (cap : ℕ) (r : RingBuffer A) (a : A) : RingBuffer A where
  slots := Function.update r.slots r.pos a
  pos := (r.pos + 1) % cap
  len := if r.len = cap then r.len else r.len + 1
  sum := (if r.len = cap then r.sum - r.slots r.pos else r.sum) + a

/-- The ring holds the end of the history. -/
structure Holds (cap : ℕ) (history : List A) (r : RingBuffer A) : Prop where
  pos : r.pos = history.length % cap
  len : r.len = min history.length cap
  slots : ∀ t (h : t < history.length), history.length ≤ t + cap → r.slots (t % cap) = history[t]
  sum : r.sum = (history.rtake cap).sum

theorem holds_empty (cap : ℕ) : Holds cap [] (empty : RingBuffer A) where
  pos := by simp [empty]
  len := by simp [empty]
  slots := by simp
  sum := by simp [empty]

theorem rtake_of_length_le {α : Type*} {l : List α} {n : ℕ} (h : l.length ≤ n) :
    l.rtake n = l := by
  rw [List.rtake, Nat.sub_eq_zero_of_le h, List.drop_zero]

/-- A longer suffix starts with one more element. -/
theorem rtake_succ_of_lt {α : Type*} {l : List α} {n : ℕ} (h : n < l.length) :
    l.rtake (n + 1) = l[l.length - (n + 1)] :: l.rtake n := by
  have hindex : l.length - (n + 1) + 1 = l.length - n := by omega
  rw [List.rtake, List.rtake, ← hindex]
  exact List.drop_eq_getElem_cons (by omega)

theorem sum_rtake_concat_of_lt {cap : ℕ} {history : List A} (h : history.length < cap) (a : A) :
    ((history ++ [a]).rtake cap).sum = (history.rtake cap).sum + a := by
  rw [rtake_of_length_le (by simp; omega), rtake_of_length_le h.le, List.sum_append,
    List.sum_singleton]

theorem sum_rtake_concat_of_le {cap : ℕ} (hcap : 0 < cap) {history : List A}
    (h : cap ≤ history.length) (a : A) :
    ((history ++ [a]).rtake cap).sum =
      (history.rtake cap).sum - history[history.length - cap] + a := by
  cases cap with
  | zero => exact absurd hcap (Nat.lt_irrefl 0)
  | succ n =>
    rw [List.rtake_concat_succ, rtake_succ_of_lt h, List.sum_append, List.sum_singleton,
      List.sum_cons, add_sub_cancel_left]

/-- Indices less than `cap` apart have different slots. -/
theorem mod_ne_of_lt {cap t k : ℕ} (hlt : t < k) (hnear : k < t + cap) : t % cap ≠ k % cap := by
  intro heq
  have hdvd := Nat.dvd_of_mod_eq_zero (Nat.sub_mod_eq_zero_of_mod_eq heq.symm)
  have hle := Nat.le_of_dvd (by omega) hdvd
  omega

theorem holds_push {cap : ℕ} (hcap : 0 < cap) {history : List A} {r : RingBuffer A}
    (h : Holds cap history r) (a : A) : Holds cap (history ++ [a]) (push cap r a) where
  pos := by
    show (r.pos + 1) % cap = _
    rw [h.pos, List.length_append, List.length_singleton, Nat.mod_add_mod]
  len := by
    show (if r.len = cap then r.len else r.len + 1) = _
    have hlen := h.len
    simp only [List.length_append, List.length_singleton]
    split <;> omega
  slots := by
    intro t ht hnear
    rw [List.length_append, List.length_singleton] at ht hnear
    show Function.update r.slots r.pos a (t % cap) = _
    rw [h.pos]
    rcases Nat.lt_or_ge t history.length with hold | hnew
    · rw [Function.update_of_ne (mod_ne_of_lt hold (by omega)),
        List.getElem_append_left hold]
      exact h.slots t hold (by omega)
    · have hlast : t = history.length := by omega
      subst hlast
      simp
  sum := by
    show (if r.len = cap then r.sum - r.slots r.pos else r.sum) + a = _
    have hlen := h.len
    by_cases hfull : cap ≤ history.length
    · have hslot := h.slots (history.length - cap) (by omega) (by omega)
      rw [← Nat.mod_eq_sub_mod hfull, ← h.pos] at hslot
      rw [if_pos (by omega), h.sum, hslot, sum_rtake_concat_of_le hcap hfull]
    · rw [if_neg (by omega), h.sum, sum_rtake_concat_of_lt (by omega)]

/-- The ring after a whole history. -/
theorem holds_foldl {cap : ℕ} (hcap : 0 < cap) (history : List A) :
    Holds cap history (history.foldl (push cap) empty) := by
  induction history using List.reverseRecOn with
  | nil => exact holds_empty cap
  | append_singleton history a ih =>
    rw [List.foldl_append]
    exact holds_push hcap ih a

end PacketLoss.SlidingWindow
