import PacketLoss.BloomRefinement
import PacketLoss.LowBits

/-!
What the three Bloom indices of a key depend on. The last mixing step adds the
sequence number to a value that is fixed for a flow and keeps 21 bits of the
sum. So the indices of one flow repeat with period 2^21 in the sequence
number, for all three seeds at once, and of the state that the first steps
reach only the low 23 bits can be told apart.
-/
namespace PacketLoss.BloomHashing

open Machine BloomFilter BloomRefinement

structure FourTuple where
  saddr : U32
  daddr : U32
  sport : U16
  dport : U16
deriving DecidableEq

def FourTuple.key (t : FourTuple) (seq : U32) : BloomKey :=
  ⟨t.saddr, t.daddr, t.sport, t.dport, seq⟩

/-- The state of `bloom_hash` after its two addresses. -/
def hostState (saddr daddr seed : U32) : U32 :=
  (seed ^^^ saddr) ^^^
    (daddr + 0x9e3779b9#32 + ((seed ^^^ saddr) <<< 6) + ((seed ^^^ saddr) >>> 2))

/-- The state of `bloom_hash` before the step that reads `seq`. -/
def flowState (t : FourTuple) (seed : U32) : U32 :=
  hostState t.saddr t.daddr seed ^^^ ((t.sport.setWidth 32 <<< 16) ||| t.dport.setWidth 32)

/-- The step that reads `seq`, and the mask. -/
def seqIndex (h seq : U32) : U32 :=
  (h ^^^ (seq + 0x9e3779b9#32 + (h <<< 6) + (h >>> 2))) &&& bloomBitmask

theorem bitAt_key (t : FourTuple) (seq seed : U32) :
    bitAt (t.key seq) seed = seqIndex (flowState t seed) seq := rfl

/-- What the last step adds to `seq`, as far as the mask keeps it. -/
def seqOffset (h : U32) : BitVec 21 := (0x9e3779b9#32 + (h <<< 6) + (h >>> 2)).setWidth 21

theorem setWidth_seqSum (h seq : U32) :
    (h ^^^ (seq + 0x9e3779b9#32 + (h <<< 6) + (h >>> 2))).setWidth 21 =
      h.setWidth 21 ^^^ (seq.setWidth 21 + seqOffset h) := by
  have hassoc : seq + 0x9e3779b9#32 + (h <<< 6) + (h >>> 2) =
      seq + (0x9e3779b9#32 + (h <<< 6) + (h >>> 2)) := by
    rw [BitVec.add_assoc, BitVec.add_assoc, ← BitVec.add_assoc 0x9e3779b9#32]
  rw [hassoc, BitVec.setWidth_xor, BitVec.setWidth_add _ _ (by omega)]
  rfl

theorem seqIndex_eq_iff (h h' seq seq' : U32) :
    seqIndex h seq = seqIndex h' seq' ↔
      h.setWidth 21 ^^^ (seq.setWidth 21 + seqOffset h) =
        h'.setWidth 21 ^^^ (seq'.setWidth 21 + seqOffset h') := by
  have hmask : bloomBitmask = BitVec.ofNat 32 (2 ^ 21 - 1) := rfl
  unfold seqIndex
  rw [hmask, LowBits.and_mask_eq_iff (by omega), setWidth_seqSum,
    setWidth_seqSum]

/-- The offset reads the 21 bits that the index shows and two bits above them. -/
theorem seqOffset_toNat (h : U32) :
    (seqOffset h).toNat = (0x9e3779b9 + h.toNat % 2 ^ 21 * 64 + h.toNat % 2 ^ 21 / 4 +
      h.toNat / 2 ^ 21 % 4 * 2 ^ 19) % 2 ^ 21 := by
  have hsum : (seqOffset h).toNat = (0x9e3779b9 + h.toNat * 64 + h.toNat / 4) % 2 ^ 21 := by
    simp only [seqOffset, BitVec.toNat_setWidth, BitVec.toNat_add, BitVec.toNat_shiftLeft,
      BitVec.toNat_ushiftRight, BitVec.toNat_ofNat, Nat.shiftLeft_eq, Nat.shiftRight_eq_div_pow]
    omega
  have hquarter : h.toNat / 4 = h.toNat / 2 ^ 23 * 2 ^ 21 + h.toNat / 2 ^ 21 % 4 * 2 ^ 19 +
      h.toNat % 2 ^ 21 / 4 := by omega
  have hsplit : 0x9e3779b9 + h.toNat * 64 + h.toNat / 4 =
      0x9e3779b9 + h.toNat % 2 ^ 21 * 64 + h.toNat % 2 ^ 21 / 4 +
        h.toNat / 2 ^ 21 % 4 * 2 ^ 19 + 2 ^ 21 * (h.toNat / 2 ^ 21 * 64 + h.toNat / 2 ^ 23) := by
    omega
  rw [hsum, hsplit, Nat.add_mul_mod_self_left]

/-- On one flow a hash collides exactly for sequence numbers that agree modulo `BLOOM_BITS`. -/
theorem seqIndex_seq_eq_iff (h seq seq' : U32) :
    seqIndex h seq = seqIndex h seq' ↔ seq.toNat % bloomBits = seq'.toNat % bloomBits := by
  rw [seqIndex_eq_iff, BitVec.xor_right_inj, BitVec.add_left_inj, ← BitVec.toNat_inj,
    BitVec.toNat_setWidth, BitVec.toNat_setWidth]
  rfl

theorem seqIndex_eq_of_low {h h' : U32} (hlow : h.toNat % 2 ^ 23 = h'.toNat % 2 ^ 23)
    (seq : U32) : seqIndex h seq = seqIndex h' seq := by
  have hstate : h.setWidth 21 = h'.setWidth 21 := by
    apply BitVec.eq_of_toNat_eq
    rw [BitVec.toNat_setWidth, BitVec.toNat_setWidth]
    omega
  have hoffset : seqOffset h = seqOffset h' := by
    have hmod : h.toNat % 2 ^ 21 = h'.toNat % 2 ^ 21 := by omega
    have hnext : h.toNat / 2 ^ 21 % 4 = h'.toNat / 2 ^ 21 % 4 := by omega
    apply BitVec.eq_of_toNat_eq
    rw [seqOffset_toNat, seqOffset_toNat, hmod, hnext]
  rw [seqIndex_eq_iff, hstate, hoffset]

theorem offset_ne_of_bit20 {p p' q q' base : ℕ} (hp : p < 2 ^ 21) (hp' : p' < 2 ^ 21)
    (hlow : p % 2 ^ 20 = p' % 2 ^ 20) (hhigh : p ≠ p') :
    (base + p' * 64 + p' / 4 + q' * 2 ^ 19) % 2 ^ 21 ≠
      ((base + p * 64 + p / 4 + q * 2 ^ 19) % 2 ^ 21 + 2 ^ 20) % 2 ^ 21 := by
  have hcases : p' = p + 2 ^ 20 ∨ p = p' + 2 ^ 20 := by omega
  rcases hcases with rfl | rfl
  · have hquarter : (p + 2 ^ 20) / 4 = p / 4 + 2 ^ 18 := by omega
    rw [hquarter]
    generalize p / 4 = r
    omega
  · have hquarter : (p' + 2 ^ 20) / 4 = p' / 4 + 2 ^ 18 := by omega
    rw [hquarter]
    generalize p' / 4 = r
    omega

/-- Two states that no sequence number tells apart agree on 23 bits. The offsets
can only differ by 2^20, and then the states would differ in bit 20 and agree
below it, which changes the offsets by an odd multiple of 2^18. -/
theorem low_of_forall_seqIndex_eq {h h' : U32}
    (hall : ∀ seq, seqIndex h seq = seqIndex h' seq) :
    h.toNat % 2 ^ 23 = h'.toNat % 2 ^ 23 := by
  have hsum : ∀ s : BitVec 21, h.setWidth 21 ^^^ (s + seqOffset h) =
      h'.setWidth 21 ^^^ (s + seqOffset h') := by
    intro s
    have hs := (seqIndex_eq_iff h h' (s.setWidth 32) (s.setWidth 32)).mp (hall _)
    rwa [BitVec.setWidth_setWidth_of_le _ (by omega), BitVec.setWidth_eq] at hs
  obtain ⟨hdiff, htwice⟩ := LowBits.offset_of_forall_xor_add_eq hsum
  have hoffset : (seqOffset h').toNat =
      ((seqOffset h).toNat + (seqOffset h' - seqOffset h).toNat) % 2 ^ 21 := by
    rw [← BitVec.toNat_add, BitVec.add_comm, BitVec.sub_add_cancel]
  rw [seqOffset_toNat, seqOffset_toNat] at hoffset
  generalize seqOffset h' - seqOffset h = d at hdiff htwice hoffset
  have hd : d.toNat = 0 ∨ d.toNat = 2 ^ 20 := by
    have := congrArg BitVec.toNat htwice
    rw [BitVec.toNat_add, BitVec.toNat_ofNat] at this
    have := d.isLt
    omega
  rcases hd with hd | hd
  · have hstate : (h.setWidth 21).toNat = (h'.setWidth 21).toNat := by
      have hzero : d = 0#21 := BitVec.eq_of_toNat_eq hd
      rw [hzero, BitVec.xor_eq_zero_iff] at hdiff
      rw [hdiff]
    rw [BitVec.toNat_setWidth, BitVec.toNat_setWidth] at hstate
    rw [hstate, hd] at hoffset
    generalize 0x9e3779b9 + h'.toNat % 2 ^ 21 * 64 + h'.toNat % 2 ^ 21 / 4 = base at hoffset
    omega
  · have hlow : (h.setWidth 21).setWidth 20 = (h'.setWidth 21).setWidth 20 := by
      have hzero : d.setWidth 20 = 0#20 := by
        apply BitVec.eq_of_toNat_eq
        rw [BitVec.toNat_setWidth, hd]
        rfl
      rw [← BitVec.xor_eq_zero_iff, ← BitVec.setWidth_xor, hdiff, hzero]
    have hhigh : h.setWidth 21 ≠ h'.setWidth 21 := by
      intro heq
      rw [heq, BitVec.xor_self] at hdiff
      rw [← hdiff] at hd
      simp at hd
    rw [← BitVec.toNat_inj] at hlow
    rw [Ne, ← BitVec.toNat_inj] at hhigh
    simp only [BitVec.toNat_setWidth] at hlow hhigh
    rw [hd] at hoffset
    exact absurd hoffset (offset_ne_of_bit20 (Nat.mod_lt _ (by omega))
      (Nat.mod_lt _ (by omega)) hlow hhigh)

def bloomSeeds : List U32 := [0x12345678#32, 0x9e3779b9#32, 0xdeadbeef#32]

theorem indices_key (t : FourTuple) (seq : U32) :
    indices (t.key seq) = bloomSeeds.map fun seed => seqIndex (flowState t seed) seq := rfl

theorem indices_key_eq_iff (t u : FourTuple) (seq seq' : U32) :
    indices (t.key seq) = indices (u.key seq') ↔
      ∀ seed ∈ bloomSeeds, seqIndex (flowState t seed) seq = seqIndex (flowState u seed) seq' := by
  rw [indices_key, indices_key]
  exact List.map_inj_left

/-- Two flows get different indices for some sequence number exactly if one of
the three seeds leads them to states that differ in their low 23 bits. -/
theorem flows_separated_iff (t u : FourTuple) :
    (∃ seq, indices (t.key seq) ≠ indices (u.key seq)) ↔
      ∃ seed ∈ bloomSeeds,
        (flowState t seed).toNat % 2 ^ 23 ≠ (flowState u seed).toNat % 2 ^ 23 := by
  constructor
  · intro hkeys
    rcases hkeys with ⟨seq, hne⟩
    by_contra hnone
    push Not at hnone
    exact hne ((indices_key_eq_iff t u seq seq).mpr fun seed hseed =>
      seqIndex_eq_of_low (hnone seed hseed) seq)
  · intro hstates
    rcases hstates with ⟨seed, hseed, hne⟩
    by_contra hnone
    push Not at hnone
    exact hne (low_of_forall_seqIndex_eq fun seq =>
      (indices_key_eq_iff t u seq seq).mp (hnone seq) seed hseed)

/-- 192.168.3.10 to port 443 of 192.168.0.20 from port 40000, as a little-endian
host reads the headers. -/
def flow40000 : FourTuple := ⟨0x0a03a8c0#32, 0x1400a8c0#32, 0x409c#16, 0xbb01#16⟩

/-- The same hosts and destination port, from port 40001. -/
def flow40001 : FourTuple := { flow40000 with sport := 0x419c#16 }

theorem flow40000_low_eq : ∀ seed ∈ bloomSeeds,
    (flowState flow40000 seed).toNat % 2 ^ 23 = (flowState flow40001 seed).toNat % 2 ^ 23 := by
  intro seed hseed
  simp only [bloomSeeds, List.mem_cons, List.not_mem_nil, or_false] at hseed
  rcases hseed with rfl | rfl | rfl <;> decide

/-- Two connections from neighbouring ports are one flow to the filter. -/
theorem neighbouring_ports_not_separated :
    flow40000 ≠ flow40001 ∧ ∀ seq, indices (flow40000.key seq) = indices (flow40001.key seq) := by
  refine ⟨by decide, fun seq => ?_⟩
  rw [indices_key_eq_iff]
  intro seed hseed
  exact seqIndex_eq_of_low (flow40000_low_eq seed hseed) seq

/-- On one flow the three indices of two sequence keys differ exactly if the
keys differ modulo `BLOOM_BITS`, and one hash collides only when all three do. -/
theorem positions_separated_iff (t : FourTuple) (k k' : U32) :
    (indices (t.key k) ≠ indices (t.key k') ↔ k.toNat % bloomBits ≠ k'.toNat % bloomBits) ∧
      ∀ seed, bitAt (t.key k) seed = bitAt (t.key k') seed ↔
        indices (t.key k) = indices (t.key k') := by
  have hone : ∀ seed, bitAt (t.key k) seed = bitAt (t.key k') seed ↔
      k.toNat % bloomBits = k'.toNat % bloomBits := fun seed => by
    rw [bitAt_key, bitAt_key, seqIndex_seq_eq_iff]
  have hall : indices (t.key k) = indices (t.key k') ↔
      k.toNat % bloomBits = k'.toNat % bloomBits := by
    rw [indices_key_eq_iff]
    simp only [seqIndex_seq_eq_iff, bloomSeeds, List.mem_cons, List.not_mem_nil, or_false]
    exact ⟨fun h => h _ (Or.inl rfl), fun h _ _ => h⟩
  exact ⟨not_congr hall, fun seed => (hone seed).trans hall.symm⟩

/-- Two segments 32 MiB apart in one stream have all three indices in common. -/
theorem positions_32MiB_apart_collide :
    0x00000000#32 >>> 4 ≠ 0x02000000#32 >>> 4 ∧
      indices (flow40000.key (0x00000000#32 >>> 4)) =
        indices (flow40000.key (0x02000000#32 >>> 4)) := by
  decide

end PacketLoss.BloomHashing
