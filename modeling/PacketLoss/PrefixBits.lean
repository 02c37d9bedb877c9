import PacketLoss.Machine
import Mathlib.Data.List.Basic

/-!
Byte strings as bit strings, each byte from its highest bit. Under a mask of n
ones and then zeros two byte strings are equal exactly if they agree in their
first n bits.
-/
namespace PacketLoss.PrefixBits

open Machine

def byteBits (b : U8) : List Bool := (List.range 8).map b.getMsbD

def bytesBits (bytes : List U8) : List Bool := bytes.flatMap byteBits

theorem length_byteBits (b : U8) : (byteBits b).length = 8 := by simp [byteBits]

@[simp] theorem bytesBits_cons (b : U8) (bytes : List U8) :
    bytesBits (b :: bytes) = byteBits b ++ bytesBits bytes := rfl

theorem bytesBits_append (as bs : List U8) :
    bytesBits (as ++ bs) = bytesBits as ++ bytesBits bs := List.flatMap_append

theorem length_bytesBits (bytes : List U8) : (bytesBits bytes).length = 8 * bytes.length := by
  induction bytes with
  | nil => rfl
  | cons b rest ih =>
    rw [bytesBits_cons, List.length_append, length_byteBits, ih, List.length_cons]
    omega

theorem byteBits_inj {a b : U8} : byteBits a = byteBits b ↔ a = b := by
  refine ⟨fun h => BitVec.eq_of_getMsbD_eq fun i hi => ?_, congrArg byteBits⟩
  exact List.map_inj_left.mp h i (List.mem_range.mpr hi)

theorem bytesBits_inj {as bs : List U8} (hlen : as.length = bs.length) :
    bytesBits as = bytesBits bs ↔ as = bs := by
  refine ⟨fun h => ?_, congrArg bytesBits⟩
  induction as generalizing bs with
  | nil => exact (List.length_eq_zero_iff.mp hlen.symm).symm
  | cons a as ih =>
    cases bs with
    | nil => simp at hlen
    | cons b bs =>
      rw [bytesBits_cons, bytesBits_cons] at h
      obtain ⟨hbyte, hrest⟩ := List.append_inj h (by rw [length_byteBits, length_byteBits])
      rw [byteBits_inj.mp hbyte, ih (by simpa using hlen) hrest]

theorem byteBits_and (a b : U8) :
    byteBits (a &&& b) = List.zipWith (· && ·) (byteBits a) (byteBits b) := by
  unfold byteBits
  rw [List.zipWith_map, List.zipWith_self]
  simp

theorem bytesBits_and (as bs : List U8) :
    bytesBits (List.zipWith (· &&& ·) as bs) =
      List.zipWith (· && ·) (bytesBits as) (bytesBits bs) := by
  induction as generalizing bs with
  | nil => rfl
  | cons a as ih =>
    cases bs with
    | nil => simp [bytesBits]
    | cons b bs =>
      rw [List.zipWith_cons_cons, bytesBits_cons, bytesBits_cons, bytesBits_cons, ih,
        byteBits_and, List.zipWith_append (by rw [length_byteBits, length_byteBits])]

/-- The bits of a mask with `ones` leading ones. -/
def maskBits (ones total : ℕ) : List Bool :=
  List.replicate ones true ++ List.replicate (total - ones) false

theorem zipWith_maskBits (bits : List Bool) {ones : ℕ} (h : ones ≤ bits.length) :
    List.zipWith (· && ·) bits (maskBits ones bits.length) =
      bits.take ones ++ List.replicate (bits.length - ones) false := by
  induction bits generalizing ones with
  | nil => simp [Nat.le_zero.mp h, maskBits]
  | cons b bits ih =>
    cases ones with
    | zero =>
      have hrest := ih (Nat.zero_le _)
      simp only [maskBits, List.replicate_zero, Nat.sub_zero, List.nil_append, List.take_zero,
        List.length_cons, List.replicate_succ, List.zipWith_cons_cons, Bool.and_false] at hrest ⊢
      rw [hrest]
    | succ n =>
      have hrest := ih (Nat.le_of_succ_le_succ h)
      simp only [maskBits, List.replicate_succ, List.length_cons, Nat.add_sub_add_right,
        List.cons_append, List.zipWith_cons_cons, Bool.and_true, List.take_succ_cons] at hrest ⊢
      rw [hrest]

/-- Equality under a mask is equality of the leading bits. -/
theorem and_mask_eq_iff {as bs mask : List U8} {ones : ℕ} (ha : as.length = mask.length)
    (hb : bs.length = mask.length) (hones : ones ≤ 8 * mask.length)
    (hmask : bytesBits mask = maskBits ones (8 * mask.length)) :
    List.zipWith (· &&& ·) as mask = List.zipWith (· &&& ·) bs mask ↔
      (bytesBits as).take ones = (bytesBits bs).take ones := by
  have hlena : (bytesBits as).length = 8 * mask.length := by rw [length_bytesBits, ha]
  have hlenb : (bytesBits bs).length = 8 * mask.length := by rw [length_bytesBits, hb]
  rw [← bytesBits_inj (by simp [ha, hb]), bytesBits_and, bytesBits_and, hmask, ← hlena,
    zipWith_maskBits _ (by omega), hlena, ← hlenb, zipWith_maskBits _ (by omega), hlenb]
  exact List.append_left_inj _

end PacketLoss.PrefixBits
