import Mathlib.Data.List.Forall2

/-!
Lists that part: they are equal up to some position and have different members
there. Such lists stay different whatever is appended, so lists that were joined
from parts which are equal or diverge are equal only if all of their parts are.
-/
namespace PacketLoss.Divergence

variable {α : Type*} {xs ys : List α}

def Diverge (xs ys : List α) : Prop :=
  ∃ common x xrest y yrest, xs = common ++ x :: xrest ∧ ys = common ++ y :: yrest ∧ x ≠ y

theorem Diverge.ne (h : Diverge xs ys) : xs ≠ ys := by
  obtain ⟨common, x, xrest, y, yrest, rfl, rfl, hne⟩ := h
  intro heq
  rw [List.append_right_inj, List.cons.injEq] at heq
  exact hne heq.1

theorem Diverge.append (h : Diverge xs ys) (us vs : List α) : Diverge (xs ++ us) (ys ++ vs) := by
  obtain ⟨common, x, xrest, y, yrest, rfl, rfl, hne⟩ := h
  exact ⟨common, x, xrest ++ us, y, yrest ++ vs, by simp, by simp, hne⟩

theorem Diverge.prepend (h : Diverge xs ys) (us : List α) : Diverge (us ++ xs) (us ++ ys) := by
  obtain ⟨common, x, xrest, y, yrest, rfl, rfl, hne⟩ := h
  exact ⟨us ++ common, x, xrest, y, yrest, by simp, by simp, hne⟩

theorem Diverge.symm (h : Diverge xs ys) : Diverge ys xs := by
  obtain ⟨common, x, xrest, y, yrest, hx, hy, hne⟩ := h
  exact ⟨common, y, yrest, x, xrest, hy, hx, hne.symm⟩

theorem diverge_cons {x y : α} (h : x ≠ y) (us vs : List α) : Diverge (x :: us) (y :: vs) :=
  ⟨[], x, us, y, vs, rfl, rfl, h⟩

theorem exists_intercalate_cons (sep x : List α) (parts : List (List α)) :
    ∃ rest, sep.intercalate (x :: parts) = x ++ rest := by
  cases parts with
  | nil => exact ⟨[], by simp⟩
  | cons y parts => exact ⟨sep ++ sep.intercalate (y :: parts), by simp⟩

/-- Equal parts are told from the joined lists. -/
theorem intercalate_eq_iff (sep : List α) {parts parts' : List (List α)}
    (h : List.Forall₂ (fun x y => x = y ∨ Diverge x y) parts parts') :
    sep.intercalate parts = sep.intercalate parts' ↔ parts = parts' := by
  induction h with
  | nil => simp
  | @cons x y parts parts' hhead htail ih =>
    rcases hhead with rfl | hdiverge
    · rw [List.cons.injEq, and_iff_right rfl, ← ih]
      cases htail with
      | nil => simp
      | cons _ _ =>
        simp only [List.intercalate_cons_cons, List.append_assoc, List.append_right_inj]
    · obtain ⟨rest, hrest⟩ := exists_intercalate_cons sep x parts
      obtain ⟨rest', hrest'⟩ := exists_intercalate_cons sep y parts'
      rw [hrest, hrest', List.cons.injEq]
      have hjoined := (hdiverge.append rest rest').ne
      have hparts := hdiverge.ne
      tauto

end PacketLoss.Divergence
