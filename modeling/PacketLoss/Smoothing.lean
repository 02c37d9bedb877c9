import Mathlib.Algebra.Order.Field.Basic
import Mathlib.Tactic.Linarith
import Mathlib.Tactic.Ring

/-!
Exponential smoothing over an ordered field: a value is blended with one input
after the other. While the weights are between 0 and 1 the value stays in the
hull of the inputs, and its distance from an input shrinks by the weight.
-/
namespace PacketLoss.Smoothing

variable {K : Type*}

section Hull

variable [Preorder K]

/-- `y` lies between two members of the list. -/
def InHull (xs : List K) (y : K) : Prop := (∃ lower ∈ xs, lower ≤ y) ∧ ∃ upper ∈ xs, y ≤ upper

theorem inHull_of_mem {xs : List K} {y : K} (h : y ∈ xs) : InHull xs y :=
  ⟨⟨y, h, le_rfl⟩, ⟨y, h, le_rfl⟩⟩

theorem InHull.mono {xs ys : List K} {y : K} (h : InHull xs y) (hsub : xs ⊆ ys) :
    InHull ys y := by
  obtain ⟨⟨lower, hlower, hle⟩, ⟨upper, hupper, hge⟩⟩ := h
  exact ⟨⟨lower, hsub hlower, hle⟩, ⟨upper, hsub hupper, hge⟩⟩

end Hull

variable [Field K]

/-- The next value: `x` is the input and `y` the value before. -/
def blend (w x y : K) : K := w * x + (1 - w) * y

theorem blend_sub_input (w x y : K) : blend w x y - x = (1 - w) * (y - x) := by
  unfold blend
  ring

theorem blend_eq_self_iff {w x y : K} : blend w x y = y ↔ w = 0 ∨ x = y := by
  have hdiff : blend w x y - y = w * (x - y) := by
    unfold blend
    ring
  rw [← sub_eq_zero, hdiff, mul_eq_zero, sub_eq_zero]

variable [LinearOrder K] [IsStrictOrderedRing K]

/-- A blend lies between any bounds of its parts. -/
theorem blend_bounds {w x y lower upper : K} (hw : 0 ≤ w ∧ w ≤ 1) (hx : lower ≤ x ∧ x ≤ upper)
    (hy : lower ≤ y ∧ y ≤ upper) : lower ≤ blend w x y ∧ blend w x y ≤ upper := by
  obtain ⟨hzero, hone⟩ := hw
  have hrest : 0 ≤ 1 - w := sub_nonneg.mpr hone
  have hlower := add_le_add (mul_le_mul_of_nonneg_left hx.1 hzero)
    (mul_le_mul_of_nonneg_left hy.1 hrest)
  have hupper := add_le_add (mul_le_mul_of_nonneg_left hx.2 hzero)
    (mul_le_mul_of_nonneg_left hy.2 hrest)
  unfold blend
  constructor
  · linarith
  · linarith

theorem InHull.blend {xs : List K} {w x y : K} (hw : 0 ≤ w ∧ w ≤ 1) (hx : InHull xs x)
    (hy : InHull xs y) : InHull xs (blend w x y) := by
  obtain ⟨⟨lx, hlx, hlxle⟩, ⟨ux, hux, huxge⟩⟩ := hx
  obtain ⟨⟨ly, hly, hlyle⟩, ⟨uy, huy, huyge⟩⟩ := hy
  obtain ⟨hlower, hupper⟩ := blend_bounds hw
    ⟨(min_le_left lx ly).trans hlxle, huxge.trans (le_max_left ux uy)⟩
    ⟨(min_le_right lx ly).trans hlyle, huyge.trans (le_max_right ux uy)⟩
  refine ⟨⟨min lx ly, ?_, hlower⟩, ⟨max ux uy, ?_, hupper⟩⟩
  · rcases min_choice lx ly with hmin | hmin
    · rwa [hmin]
    · rwa [hmin]
  · rcases max_choice ux uy with hmax | hmax
    · rwa [hmax]
    · rwa [hmax]

end PacketLoss.Smoothing
