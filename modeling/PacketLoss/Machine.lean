import Mathlib.Algebra.Group.Nat.Defs
import Mathlib.Logic.Function.Basic

/-!
What the program's two halves share of the machine they run on: fixed-width
words, the byte order of the host, and the kernel's array maps.
-/
namespace PacketLoss.Machine

abbrev U8 := BitVec 8
abbrev U16 := BitVec 16
abbrev U32 := BitVec 32
abbrev U64 := BitVec 64

inductive Endian
  | little
  | big
deriving DecidableEq

/-- A 16-bit load from memory whose first byte is `b0`. -/
def loadU16 (e : Endian) (b0 b1 : U8) : U16 :=
  match e with
  | .little => BitVec.ofNat 16 (b0.toNat + 2 ^ 8 * b1.toNat)
  | .big => BitVec.ofNat 16 (b1.toNat + 2 ^ 8 * b0.toNat)

/-- A 32-bit load from memory whose first byte is `b0`. -/
def loadU32 (e : Endian) (b0 b1 b2 b3 : U8) : U32 :=
  match e with
  | .little =>
    BitVec.ofNat 32 (b0.toNat + 2 ^ 8 * b1.toNat + 2 ^ 16 * b2.toNat + 2 ^ 24 * b3.toNat)
  | .big =>
    BitVec.ofNat 32 (b3.toNat + 2 ^ 8 * b2.toNat + 2 ^ 16 * b1.toNat + 2 ^ 24 * b0.toNat)

/-- The four bytes that a 32-bit store leaves in memory, first byte first. -/
def storeU32 (e : Endian) (v : U32) : List U8 :=
  match e with
  | .little => [v.extractLsb' 0 8, v.extractLsb' 8 8, v.extractLsb' 16 8, v.extractLsb' 24 8]
  | .big => [v.extractLsb' 24 8, v.extractLsb' 16 8, v.extractLsb' 8 8, v.extractLsb' 0 8]

theorem byte_ofNat_sum (b0 b1 b2 b3 : U8) :
    let v := BitVec.ofNat 32 (b0.toNat + 2 ^ 8 * b1.toNat + 2 ^ 16 * b2.toNat + 2 ^ 24 * b3.toNat)
    v.extractLsb' 0 8 = b0 ∧ v.extractLsb' 8 8 = b1 ∧ v.extractLsb' 16 8 = b2 ∧
      v.extractLsb' 24 8 = b3 := by
  have h0 := b0.isLt
  have h1 := b1.isLt
  have h2 := b2.isLt
  have h3 := b3.isLt
  refine ⟨?_, ?_, ?_, ?_⟩
  all_goals
    apply BitVec.eq_of_toNat_eq
    simp only [BitVec.extractLsb'_toNat, BitVec.toNat_ofNat, Nat.shiftRight_eq_div_pow]
    omega

/-- Storing what was loaded restores the bytes on either host. -/
theorem storeU32_loadU32 (e : Endian) (b0 b1 b2 b3 : U8) :
    storeU32 e (loadU32 e b0 b1 b2 b3) = [b0, b1, b2, b3] := by
  cases e with
  | little =>
    obtain ⟨h0, h1, h2, h3⟩ := byte_ofNat_sum b0 b1 b2 b3
    simp only [storeU32, loadU32, h0, h1, h2, h3]
  | big =>
    obtain ⟨h0, h1, h2, h3⟩ := byte_ofNat_sum b3 b2 b1 b0
    simp only [storeU32, loadU32, h0, h1, h2, h3]

/-- Loading what was stored returns the word on either host. -/
theorem loadU32_storeU32 (e : Endian) (v : U32) :
    ∃ b0 b1 b2 b3, storeU32 e v = [b0, b1, b2, b3] ∧ loadU32 e b0 b1 b2 b3 = v := by
  have hlt := v.isLt
  cases e with
  | little =>
    refine ⟨_, _, _, _, rfl, BitVec.eq_of_toNat_eq ?_⟩
    simp only [loadU32, BitVec.extractLsb'_toNat, BitVec.toNat_ofNat, Nat.shiftRight_eq_div_pow]
    omega
  | big =>
    refine ⟨_, _, _, _, rfl, BitVec.eq_of_toNat_eq ?_⟩
    simp only [loadU32, BitVec.extractLsb'_toNat, BitVec.toNat_ofNat, Nat.shiftRight_eq_div_pow]
    omega

/-- `bpf_ntohs` and `bpf_htons`: the same bytes, read first byte highest. -/
def ntohs (e : Endian) (v : U16) : U16 :=
  match e with
  | .little => loadU16 .big (v.extractLsb' 0 8) (v.extractLsb' 8 8)
  | .big => v

theorem toNat_loadU16_big (b0 b1 : U8) :
    (loadU16 .big b0 b1).toNat = 2 ^ 8 * b0.toNat + b1.toNat := by
  have h0 := b0.isLt
  have h1 := b1.isLt
  simp only [loadU16, BitVec.toNat_ofNat]
  omega

theorem byte_ofNat_sum16 (b0 b1 : U8) :
    let v := BitVec.ofNat 16 (b0.toNat + 2 ^ 8 * b1.toNat)
    v.extractLsb' 0 8 = b0 ∧ v.extractLsb' 8 8 = b1 := by
  have h0 := b0.isLt
  have h1 := b1.isLt
  constructor
  all_goals
    apply BitVec.eq_of_toNat_eq
    simp only [BitVec.extractLsb'_toNat, BitVec.toNat_ofNat, Nat.shiftRight_eq_div_pow]
    omega

/-- What was sent in network order is read in network order on either host. -/
theorem ntohs_loadU16 (e : Endian) (b0 b1 : U8) :
    ntohs e (loadU16 e b0 b1) = loadU16 .big b0 b1 := by
  cases e with
  | little =>
    obtain ⟨h0, h1⟩ := byte_ofNat_sum16 b0 b1
    simp only [ntohs, loadU16, h0, h1]
  | big => rfl

theorem loadU16_bytes (v : U16) :
    loadU16 .little (v.extractLsb' 0 8) (v.extractLsb' 8 8) = v := by
  have hv := v.isLt
  apply BitVec.eq_of_toNat_eq
  simp only [loadU16, BitVec.extractLsb'_toNat, BitVec.toNat_ofNat, Nat.shiftRight_eq_div_pow]
  omega

theorem ntohs_ntohs (e : Endian) (v : U16) : ntohs e (ntohs e v) = v := by
  cases e with
  | little =>
    -- Swapped bytes, loaded from the other end, are the bytes of the word.
    change ntohs .little (loadU16 .little (v.extractLsb' 8 8) (v.extractLsb' 0 8)) = v
    rw [ntohs_loadU16]
    exact loadU16_bytes v
  | big => rfl

theorem loadU16_eq_ntohs_iff (e : Endian) (b0 b1 : U8) (v : U16) :
    loadU16 e b0 b1 = ntohs e v ↔ loadU16 .big b0 b1 = v := by
  rw [← ntohs_loadU16 e]
  constructor
  · intro h
    rw [h, ntohs_ntohs]
  · intro h
    rw [← h, ntohs_ntohs]

/-- `bpf_ntohl` -/
def ntohl (e : Endian) (v : U32) : U32 :=
  match e with
  | .little => loadU32 .big (v.extractLsb' 0 8) (v.extractLsb' 8 8) (v.extractLsb' 16 8)
      (v.extractLsb' 24 8)
  | .big => v

/-- `BPF_MAP_TYPE_ARRAY`: every slot exists from the start. -/
abbrev ArrayMap (n : ℕ) (V : Type) := Fin n → V

namespace ArrayMap

variable {n : ℕ} {V : Type}

/-- `bpf_map_lookup_elem`: the slot's content, or NULL beyond the last slot. -/
def lookup (m : ArrayMap n V) (k : U32) : Option V :=
  if h : k.toNat < n then some (m ⟨k.toNat, h⟩) else none

/-- `bpf_map_update_elem` or a store through the pointer that a lookup returned. -/
def update (m : ArrayMap n V) (k : U32) (v : V) : ArrayMap n V :=
  if h : k.toNat < n then Function.update m ⟨k.toNat, h⟩ v else m

theorem lookup_of_lt (m : ArrayMap n V) {k : U32} (h : k.toNat < n) :
    m.lookup k = some (m ⟨k.toNat, h⟩) := dif_pos h

theorem update_of_lt (m : ArrayMap n V) {k : U32} (h : k.toNat < n) (v : V) :
    m.update k v = Function.update m ⟨k.toNat, h⟩ v := dif_pos h

end ArrayMap

/-- `__sync_val_compare_and_swap`, run alone: the value found and the value left. -/
def syncValCompareAndSwap (cur old new : U64) : U64 × U64 :=
  if cur = old then (cur, new) else (cur, cur)

/-- `__sync_bool_compare_and_swap`, run alone: whether it swapped and the value left. -/
def syncBoolCompareAndSwap (cur old new : U64) : Bool × U64 :=
  if cur = old then (true, new) else (false, cur)

end PacketLoss.Machine
