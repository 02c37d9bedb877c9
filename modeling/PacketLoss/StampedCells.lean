import Mathlib.Data.Nat.Notation
import Mathlib.Logic.Function.Basic

/-!
Storage that is cleared lazily. A cell carries the generation that wrote it
last. A generation reads zero from every cell it has not written, and its
first write into a cell drops what an older generation left there. Where a
generation keeps its cells is a parameter, so generations may share storage.
-/
namespace PacketLoss.StampedCells

structure Cell (γ σ : Type*) where
  gen : γ
  val : σ

variable {γ σ κ ι : Type*} [DecidableEq γ] [DecidableEq κ] [Zero σ]

namespace Cell

def read (c : Cell γ σ) (g : γ) : σ := if c.gen = g then c.val else 0

def write (c : Cell γ σ) (g : γ) (f : σ → σ) : Cell γ σ := ⟨g, f (c.read g)⟩

theorem read_write_self (c : Cell γ σ) (g : γ) (f : σ → σ) :
    (c.write g f).read g = f (c.read g) := by simp [read, write]

end Cell

/-- What generation `g` sees at its place `i`, which is stored at `loc g i`. -/
def view (loc : γ → ι → κ) (cells : κ → Cell γ σ) (g : γ) (i : ι) : σ :=
  (cells (loc g i)).read g

def store (loc : γ → ι → κ) (cells : κ → Cell γ σ) (g : γ) (i : ι) (f : σ → σ) :
    κ → Cell γ σ :=
  Function.update cells (loc g i) ((cells (loc g i)).write g f)

theorem view_store_self (loc : γ → ι → κ) (cells : κ → Cell γ σ) (g : γ) (i : ι)
    (f : σ → σ) : view loc (store loc cells g i f) g i = f (view loc cells g i) := by
  simp [view, store, Cell.read_write_self]

theorem view_store_of_ne (loc : γ → ι → κ) (cells : κ → Cell γ σ) {g g' : γ} {i j : ι}
    (f : σ → σ) (hne : loc g' j ≠ loc g i) :
    view loc (store loc cells g i f) g' j = view loc cells g' j := by
  simp [view, store, hne]

/-- No cell was written by a generation of rank above `n`. -/
def UpTo (rank : γ → ℕ) (n : ℕ) (cells : κ → Cell γ σ) : Prop :=
  ∀ k, rank (cells k).gen ≤ n

omit [DecidableEq γ] [DecidableEq κ] [Zero σ] in
theorem UpTo.mono {rank : γ → ℕ} {m n : ℕ} {cells : κ → Cell γ σ}
    (h : UpTo rank m cells) (hmn : m ≤ n) : UpTo rank n cells :=
  fun k => Nat.le_trans (h k) hmn

theorem UpTo.store {rank : γ → ℕ} {n : ℕ} {cells : κ → Cell γ σ} (h : UpTo rank n cells)
    (loc : γ → ι → κ) {g : γ} (i : ι) (f : σ → σ) (hg : rank g ≤ n) :
    UpTo rank n (store loc cells g i f) := by
  intro k
  by_cases hk : k = loc g i
  · simpa [StampedCells.store, hk, Cell.write] using hg
  · simpa [StampedCells.store, hk] using h k

omit [DecidableEq κ] in
/-- A generation that has not begun sees nothing, wherever its cells are. -/
theorem UpTo.view_eq_zero {rank : γ → ℕ} {n : ℕ} {cells : κ → Cell γ σ}
    (h : UpTo rank n cells) (loc : γ → ι → κ) {g : γ} (i : ι) (hg : n < rank g) :
    view loc cells g i = 0 := by
  have hne : (cells (loc g i)).gen ≠ g := by
    intro heq
    exact absurd (heq ▸ h (loc g i)) (Nat.not_le.mpr hg)
  simp [view, Cell.read, hne]

end PacketLoss.StampedCells
