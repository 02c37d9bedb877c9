import Mathlib.Algebra.Group.Nat.Defs

/-!
What the low bits of a word determine. Masking with `2 ^ n - 1` keeps the same
information as truncation to `n` bits, and truncation commutes with addition
and exclusive or. An offset inside an exclusive or can only be hidden for all
summands at once if doubling it gives zero.
-/
namespace PacketLoss.LowBits

variable {w n : ℕ}

theorem and_mask_eq_iff (hn : n ≤ w) (x y : BitVec w) :
    x &&& BitVec.ofNat w (2 ^ n - 1) = y &&& BitVec.ofNat w (2 ^ n - 1) ↔
      x.setWidth n = y.setWidth n := by
  have hpow : 2 ^ n ≤ 2 ^ w := Nat.pow_le_pow_right (by omega) hn
  have hmask : (BitVec.ofNat w (2 ^ n - 1)).toNat = 2 ^ n - 1 := by
    rw [BitVec.toNat_ofNat]
    have := Nat.two_pow_pos n
    exact Nat.mod_eq_of_lt (by omega)
  rw [← BitVec.toNat_inj, ← BitVec.toNat_inj, BitVec.toNat_and, BitVec.toNat_and, hmask,
    Nat.and_two_pow_sub_one_eq_mod, Nat.and_two_pow_sub_one_eq_mod, BitVec.toNat_setWidth,
    BitVec.toNat_setWidth]

/-- If two offset sums agree under exclusive or for every summand, the
difference of the offsets is also the difference of the masks, and it is its
own negative. -/
theorem offset_of_forall_xor_add_eq {a a' c c' : BitVec n}
    (h : ∀ s, a ^^^ (s + c) = a' ^^^ (s + c')) :
    a ^^^ a' = c' - c ∧ (c' - c) + (c' - c) = 0#n := by
  have hzero : a = a' ^^^ (c' - c) := by
    have := h (-c)
    rwa [BitVec.add_comm (-c) c, ← BitVec.sub_eq_add_neg, BitVec.sub_self, BitVec.xor_zero,
      BitVec.add_comm (-c) c', ← BitVec.sub_eq_add_neg] at this
  have hdiff : a ^^^ a' = c' - c := by
    rw [hzero, BitVec.xor_comm a', BitVec.xor_assoc, BitVec.xor_self, BitVec.xor_zero]
  refine ⟨hdiff, ?_⟩
  have htwice := h (c' - c - c)
  have hleft : c' - c - c + c = c' - c := BitVec.sub_add_cancel _ _
  have hright : c' - c - c + c' = (c' - c) + (c' - c) := by
    rw [BitVec.sub_eq_add_neg (c' - c) c, BitVec.add_assoc, BitVec.add_comm (-c) c',
      ← BitVec.sub_eq_add_neg]
  rw [hleft, hright] at htwice
  have hcancel : a' ^^^ (a ^^^ (c' - c)) = (c' - c) + (c' - c) := by
    rw [htwice, ← BitVec.xor_assoc, BitVec.xor_self, BitVec.zero_xor]
  rw [← hcancel, ← BitVec.xor_assoc, BitVec.xor_comm a', hdiff, BitVec.xor_self]

end PacketLoss.LowBits
