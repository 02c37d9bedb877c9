import Mathlib.Data.BitVec
import PacketLoss.BloomFilter
import PacketLoss.EpochClock
import PacketLoss.StampedCells

/-!
The generation-tagged array of packet_loss.bpf.c behaves as two plain sets of
bit indices. The array is an instance of lazily cleared cells whose place
depends on the parity of the generation; the sets are a rotating window driven
by the epoch clock. A generation number cannot wrap around, because every roll
moves `start_ns` forward by more than one epoch.
-/
namespace PacketLoss.BloomRefinement

open Machine BloomFilter RotatingWindow StampedCells

/-! Bit indices: their word, their slot and their mask. -/

def bitAt (k : BloomKey) (seed : U32) : U32 :=
  bloomBitIndex k.saddr k.daddr k.sport k.dport k.seq seed

/-- The three bits of a key, in the order `bloom_test_and_set` computes them. -/
def indices (k : BloomKey) : List U32 :=
  [bitAt k 0x12345678#32, bitAt k 0x9e3779b9#32, bitAt k 0xdeadbeef#32]

theorem bloomBitIndex_lt (saddr daddr : U32) (sport dport : U16) (seq seed : U32) :
    (bloomBitIndex saddr daddr sport dport seq seed).toNat < bloomBits := by
  have hmask : bloomBitmask.toNat = bloomBits - 1 := by decide
  have hle := Nat.and_le_right (n := (bloomHash saddr daddr sport dport seq seed).toNat)
    (m := bloomBitmask.toNat)
  unfold bloomBitIndex
  rw [BitVec.toNat_and]
  have hpos : 0 < bloomBits := by decide
  omega

theorem lt_of_mem_indices {k : BloomKey} {bit : U32} (h : bit ∈ indices k) :
    bit.toNat < bloomBits := by
  simp only [indices, List.mem_cons, List.not_mem_nil, or_false] at h
  rcases h with rfl | rfl | rfl <;> exact bloomBitIndex_lt _ _ _ _ _ _

theorem wordSlot_toNat {bit : U32} (h : bit.toNat < bloomBits) (gen : U64) :
    (wordSlot bit gen).toNat = gen.toNat % 2 * bloomWords + bit.toNat / 64 := by
  have hgen : (gen &&& 1#64).toNat = gen.toNat % 2 := by
    rw [BitVec.toNat_and]
    exact Nat.and_one_is_mod _
  have hword : (bit >>> 6).toNat = bit.toNat / 64 := by
    simp [Nat.shiftRight_eq_div_pow]
  have hlt : bit.toNat / 64 < 32768 := by
    simp only [bloomBits, bloomWords] at h
    omega
  have hwords : (BitVec.ofNat 64 bloomWords).toNat = 32768 := rfl
  unfold wordSlot
  rw [BitVec.toNat_setWidth, BitVec.toNat_add, BitVec.toNat_mul, BitVec.toNat_setWidth,
    hgen, hword, hwords, show bloomWords = 32768 from rfl]
  omega

/-- Every lookup of the filter finds its word. -/
theorem wordSlot_lt {bit : U32} (h : bit.toNat < bloomBits) (gen : U64) :
    (wordSlot bit gen).toNat < 2 * bloomWords := by
  rw [wordSlot_toNat h]
  simp only [bloomBits, bloomWords] at h ⊢
  omega

theorem wordMask_eq (bit : U32) : wordMask bit = BitVec.twoPow 64 (bit.toNat % 64) := by
  have hshift : (bit &&& 63#32).toNat = bit.toNat % 64 := by
    rw [BitVec.toNat_and]
    exact Nat.and_two_pow_sub_one_eq_mod bit.toNat 6
  unfold wordMask
  rw [BitVec.shiftLeft_eq', hshift]
  rfl

theorem and_wordMask_ne_zero (w : U64) (bit : U32) :
    (w &&& wordMask bit != 0#64) = w.getLsbD (bit.toNat % 64) := by
  have hlt : bit.toNat % 64 < 64 := by omega
  rw [wordMask_eq, BitVec.and_twoPow]
  cases hbit : w.getLsbD (bit.toNat % 64) with
  | false => simp
  | true =>
    simp only [ite_true, bne_iff_ne]
    intro hzero
    have := congrArg (fun v : U64 => v.getLsbD (bit.toNat % 64)) hzero
    simp [hlt] at this

/-- Inside one word the mask of a bit selects that bit alone. -/
theorem getLsbD_wordMask {bit bit' : U32} (hword : bit.toNat / 64 = bit'.toNat / 64) :
    (wordMask bit).getLsbD (bit'.toNat % 64) = decide (bit' = bit) := by
  have hlt : bit.toNat % 64 < 64 := by omega
  rw [wordMask_eq, BitVec.getLsbD_twoPow, decide_eq_true hlt, Bool.true_and]
  congr 1
  rw [eq_iff_iff, ← BitVec.toNat_inj]
  omega

/-! The array as lazily cleared cells, with two generations sharing storage. -/

def place (gen : U64) (word : Fin bloomWords) : Fin (2 * bloomWords) :=
  ⟨gen.toNat % 2 * bloomWords + word.val, by
    have := word.isLt
    simp only [bloomWords] at this ⊢
    omega⟩

theorem place_ne_of_word_ne {gen : U64} {i j : Fin bloomWords} (h : i ≠ j) :
    place gen i ≠ place gen j := by
  intro heq
  have := congrArg Fin.val heq
  simp only [place] at this
  exact h (Fin.ext (by omega))

theorem place_ne_of_parity_ne {gen gen' : U64} (h : gen.toNat % 2 ≠ gen'.toNat % 2)
    (i j : Fin bloomWords) : place gen i ≠ place gen' j := by
  intro heq
  have hval := congrArg Fin.val heq
  have hi := i.isLt
  have hj := j.isLt
  simp only [place, bloomWords] at hval hi hj
  omega

def wordOf (bit : U32) (h : bit.toNat < bloomBits) : Fin bloomWords :=
  ⟨bit.toNat / 64, by
    simp only [bloomBits] at h
    omega⟩

def cells (s : Bloom) : Fin (2 * bloomWords) → Cell U64 U64 :=
  fun i => ⟨(s.bits i).gen, (s.bits i).bits⟩

theorem lookup_wordSlot (s : Bloom) {bit : U32} (h : bit.toNat < bloomBits) (gen : U64) :
    s.bits.lookup (wordSlot bit gen) = some (s.bits (place gen (wordOf bit h))) := by
  rw [ArrayMap.lookup_of_lt _ (wordSlot_lt h gen)]
  congr 3
  exact wordSlot_toNat h gen

theorem update_wordSlot (s : Bloom) {bit : U32} (h : bit.toNat < bloomBits) (gen : U64)
    (w : BloomWord) : s.bits.update (wordSlot bit gen) w =
      Function.update s.bits (place gen (wordOf bit h)) w := by
  rw [ArrayMap.update_of_lt _ (wordSlot_lt h gen)]
  congr 2
  exact wordSlot_toNat h gen

theorem bloomTestBitGen_eq_view (s : Bloom) {bit : U32} (h : bit.toNat < bloomBits)
    (gen : U64) : bloomTestBitGen s bit gen =
      (view place (cells s) gen (wordOf bit h)).getLsbD (bit.toNat % 64) := by
  unfold bloomTestBitGen
  rw [lookup_wordSlot s h]
  simp only [testWord, and_wordMask_ne_zero, view, Cell.read, cells]
  by_cases hgen : (s.bits (place gen (wordOf bit h))).gen = gen <;> simp [hgen]

theorem bloomSetBitGen_eq (s : Bloom) {bit : U32} (h : bit.toNat < bloomBits) (gen : U64) :
    bloomSetBitGen s bit gen =
      ⟨Function.update s.bits (place gen (wordOf bit h))
        ⟨gen, (cells s (place gen (wordOf bit h))).read gen ||| wordMask bit⟩, s.epoch⟩ := by
  unfold bloomSetBitGen
  rw [lookup_wordSlot s h]
  simp only [Option.elim_some, update_wordSlot s h, setWord, cells, Cell.read,
    syncValCompareAndSwap]
  by_cases hgen : (s.bits (place gen (wordOf bit h))).gen = gen <;> simp [hgen]

/-- Reading a bit does not depend on the epoch record. -/
theorem bloomTestBitGen_epoch (s : Bloom) (epoch : ArrayMap 1 BloomEpochState) {bit : U32}
    (h : bit.toNat < bloomBits) (gen : U64) :
    bloomTestBitGen ⟨s.bits, epoch⟩ bit gen = bloomTestBitGen s bit gen := by
  rw [bloomTestBitGen_eq_view _ h, bloomTestBitGen_eq_view s h]
  rfl

theorem cells_bloomSetBitGen (s : Bloom) {bit : U32} (h : bit.toNat < bloomBits) (gen : U64) :
    cells (bloomSetBitGen s bit gen) =
      store place (cells s) gen (wordOf bit h) (· ||| wordMask bit) := by
  rw [bloomSetBitGen_eq s h]
  funext i
  by_cases hi : i = place gen (wordOf bit h)
  · simp [cells, store, Cell.write, hi]
  · simp [cells, store, hi]

theorem epoch_bloomSetBitGen (s : Bloom) {bit : U32} (h : bit.toNat < bloomBits) (gen : U64) :
    (bloomSetBitGen s bit gen).epoch = s.epoch := by
  rw [bloomSetBitGen_eq s h]

/-- Within a generation, setting a bit shows that bit and no other. -/
theorem bloomTestBitGen_set_self (s : Bloom) {bit bit' : U32} (h : bit.toNat < bloomBits)
    (h' : bit'.toNat < bloomBits) (gen : U64) :
    bloomTestBitGen (bloomSetBitGen s bit gen) bit' gen =
      (decide (bit' = bit) || bloomTestBitGen s bit' gen) := by
  rw [bloomTestBitGen_eq_view _ h', bloomTestBitGen_eq_view _ h', cells_bloomSetBitGen s h]
  by_cases hword : wordOf bit' h' = wordOf bit h
  · have hdiv : bit.toNat / 64 = bit'.toNat / 64 := (congrArg Fin.val hword).symm
    rw [hword, view_store_self, BitVec.getLsbD_or, getLsbD_wordMask hdiv, Bool.or_comm]
  · have hne : bit' ≠ bit := by
      rintro rfl
      exact hword rfl
    rw [view_store_of_ne place (cells s) _ (place_ne_of_word_ne hword)]
    simp [hne]

/-- Setting a bit does not show in the generation that uses the other half. -/
theorem bloomTestBitGen_set_other (s : Bloom) {bit bit' : U32} (h : bit.toNat < bloomBits)
    (h' : bit'.toNat < bloomBits) {gen gen' : U64} (hpar : gen'.toNat % 2 ≠ gen.toNat % 2) :
    bloomTestBitGen (bloomSetBitGen s bit gen) bit' gen' = bloomTestBitGen s bit' gen' := by
  rw [bloomTestBitGen_eq_view _ h', bloomTestBitGen_eq_view _ h', cells_bloomSetBitGen s h,
    view_store_of_ne place (cells s) _ (place_ne_of_parity_ne hpar _ _)]

/-! Runs of the filter, and the two sets they compute. -/

inductive BloomCall
  | maybeRollEpoch (now : U64)
  | testAndSet (k : BloomKey)

def callStep (s : Bloom) : BloomCall → Bloom
  | .maybeRollEpoch now => bloomMaybeRollEpoch s now
  | .testAndSet k => (bloomTestAndSet s k).2

def runCalls (s : Bloom) (calls : List BloomCall) : Bloom := calls.foldl callStep s

/-- What a call does to the two sets: it reads the clock, or it inserts three indices. -/
def abstractCall : BloomCall → Call ℕ U32
  | .maybeRollEpoch now => .tick now.toNat
  | .testAndSet k => .insert {bit | bit ∈ indices k}

/-- The two sets of bit indices after some calls, both empty at first. -/
def bitSets (calls : List BloomCall) : Window ℕ U32 :=
  run (EpochClock.due bloomEpochNs.toNat) (RotatingWindow.empty 0) (calls.map abstractCall)

/-- The generation that the filter writes, and the state of its clock. -/
def epochState (s : Bloom) : BloomEpochState := s.epoch 0

/-- The maps show exactly the bits of the two sets. `upTo` is what makes lazy
clearing sound: no word carries the tag of a generation still to come. -/
structure Refines (s : Bloom) (w : Window ℕ U32) : Prop where
  clock : (epochState s).startNs.toNat = w.clock
  gen : (epochState s).gen.toNat = w.rolls
  upTo : UpTo BitVec.toNat w.rolls (cells s)
  cur : ∀ bit : U32, bit.toNat < bloomBits →
    (bloomTestBitGen s bit (epochState s).gen = true ↔ bit ∈ w.cur)
  prev : ∀ bit : U32, bit.toNat < bloomBits →
    (bloomTestBitGen s bit ((epochState s).gen - 1#64) = true ↔ bit ∈ w.prev)

theorem bloomTestBitGen_of_upTo {s : Bloom} {n : ℕ} (h : UpTo BitVec.toNat n (cells s))
    {bit : U32} (hbit : bit.toNat < bloomBits) {gen : U64} (hgen : n < gen.toNat) :
    bloomTestBitGen s bit gen = false := by
  rw [bloomTestBitGen_eq_view s hbit, h.view_eq_zero place _ hgen]
  exact BitVec.getLsbD_zero

theorem refines_zeroed : Refines Bloom.zeroed (RotatingWindow.empty 0) where
  clock := rfl
  gen := rfl
  upTo := fun _ => Nat.le_refl 0
  cur := fun bit hbit => by
    rw [bloomTestBitGen_eq_view _ hbit]
    simp [view, Cell.read, cells, Bloom.zeroed, RotatingWindow.empty, epochState]
  prev := fun bit hbit => by
    have hempty : UpTo BitVec.toNat 0 (cells Bloom.zeroed) := fun _ => Nat.le_refl 0
    rw [bloomTestBitGen_of_upTo hempty hbit (by decide)]
    simp [RotatingWindow.empty]

theorem lookup_epoch (s : Bloom) : s.epoch.lookup 0#32 = some (epochState s) :=
  ArrayMap.lookup_of_lt _ (by decide)

theorem due_iff (start now : U64) :
    (start < now ∧ bloomEpochNs < now - start) ↔
      start.toNat + bloomEpochNs.toNat < now.toNat := by
  rw [BitVec.lt_def, BitVec.lt_def]
  constructor
  · intro hdue
    rcases hdue with ⟨hlt, hperiod⟩
    rw [BitVec.toNat_sub_of_le (by rw [BitVec.le_def]; omega)] at hperiod
    omega
  · intro hsum
    refine ⟨by omega, ?_⟩
    rw [BitVec.toNat_sub_of_le (by rw [BitVec.le_def]; omega)]
    omega

theorem bloomMaybeRollEpoch_of_le {s : Bloom} {now : U64}
    (h : now.toNat ≤ (epochState s).startNs.toNat + bloomEpochNs.toNat) :
    bloomMaybeRollEpoch s now = s := by
  have hnot : ¬((epochState s).startNs < now ∧ bloomEpochNs < now - (epochState s).startNs) := by
    rw [due_iff]
    omega
  simp only [bloomMaybeRollEpoch, lookup_epoch, if_neg hnot]

theorem bloomMaybeRollEpoch_of_lt {s : Bloom} {now : U64}
    (h : (epochState s).startNs.toNat + bloomEpochNs.toNat < now.toNat) :
    bloomMaybeRollEpoch s now = ⟨s.bits, fun _ => ⟨(epochState s).gen + 1#64, now⟩⟩ := by
  have hdue := (due_iff _ _).mpr h
  simp only [bloomMaybeRollEpoch, lookup_epoch, if_pos hdue, syncBoolCompareAndSwap, if_true]
  congr 1
  funext i
  have hi : i = ⟨(0#32).toNat, by decide⟩ := Fin.ext (by have := i.isLt; omega)
  rw [ArrayMap.update_of_lt _ (by decide), hi, Function.update_self]

/-- A roll turns what was current into the previous generation and starts empty. -/
theorem Refines.maybeRollEpoch {s : Bloom} {w : Window ℕ U32} (h : Refines s w) (now : U64)
    (hfits : (tick (EpochClock.due bloomEpochNs.toNat) w now.toNat).rolls < 2 ^ 64) :
    Refines (bloomMaybeRollEpoch s now)
      (tick (EpochClock.due bloomEpochNs.toNat) w now.toNat) := by
  have hclock := h.clock
  generalize hperiod : bloomEpochNs.toNat = period at hfits ⊢
  rcases Nat.lt_or_ge (w.clock + period) now.toNat with hlt | hge
  · rw [EpochClock.tick_of_lt period hlt] at hfits
    have hgen : ((epochState s).gen + 1#64).toNat = w.rolls + 1 := by
      rw [BitVec.toNat_add, h.gen]
      exact Nat.mod_eq_of_lt hfits
    have hold : (epochState s).gen + 1#64 - 1#64 = (epochState s).gen :=
      BitVec.add_sub_cancel _ _
    rw [EpochClock.tick_of_lt period hlt, bloomMaybeRollEpoch_of_lt (by omega)]
    refine ⟨rfl, hgen, h.upTo.mono (Nat.le_succ _), ?_, ?_⟩
    · intro bit hbit
      rw [bloomTestBitGen_epoch s _ hbit]
      change bloomTestBitGen s bit ((epochState s).gen + 1#64) = true ↔ bit ∈ (∅ : Set U32)
      rw [bloomTestBitGen_of_upTo h.upTo hbit (by rw [hgen]; exact Nat.lt_succ_self _)]
      simp
    · intro bit hbit
      rw [bloomTestBitGen_epoch s _ hbit]
      change bloomTestBitGen s bit ((epochState s).gen + 1#64 - 1#64) = true ↔ bit ∈ w.cur
      rw [hold]
      exact h.cur bit hbit
  · rw [EpochClock.tick_of_le period hge, bloomMaybeRollEpoch_of_le (by omega)]
    exact h

/-- Neighbouring generations use different halves, also around zero. -/
theorem parity_pred_ne (gen : U64) : (gen - 1#64).toNat % 2 ≠ gen.toNat % 2 := by
  bv_omega

theorem Refines.setBit {s : Bloom} {w : Window ℕ U32} (h : Refines s w) {bit : U32}
    (hbit : bit.toNat < bloomBits) :
    Refines (bloomSetBitGen s bit (epochState s).gen) (w.insert {bit}) := by
  have hepoch : epochState (bloomSetBitGen s bit (epochState s).gen) = epochState s := by
    rw [epochState, epochState, epoch_bloomSetBitGen s hbit]
  have hparity := parity_pred_ne (epochState s).gen
  refine ⟨?_, ?_, ?_, ?_, ?_⟩
  · rw [hepoch]
    exact h.clock
  · rw [hepoch]
    exact h.gen
  · rw [cells_bloomSetBitGen s hbit]
    exact h.upTo.store place _ _ h.gen.le
  · intro other hother
    rw [hepoch, bloomTestBitGen_set_self s hbit hother]
    simp [Window.insert, h.cur other hother]
  · intro other hother
    rw [hepoch, bloomTestBitGen_set_other s hbit hother hparity]
    exact h.prev other hother

theorem bloomTestAndSet_eq (s : Bloom) (k : BloomKey) :
    bloomTestAndSet s k =
      ((indices k).all fun bit => bloomTestBitGen s bit (epochState s).gen ||
          bloomTestBitGen s bit ((epochState s).gen - 1#64),
        (indices k).foldl (fun s' bit => bloomSetBitGen s' bit (epochState s).gen) s) := by
  unfold bloomTestAndSet
  rw [lookup_epoch, indices, List.foldl_cons, List.foldl_cons, List.foldl_cons,
    List.foldl_nil, List.all_cons, List.all_cons, List.all_cons, List.all_nil, Bool.and_true,
    ← Bool.and_assoc]
  rfl

theorem Refines.testAndSet_fst {s : Bloom} {w : Window ℕ U32} (h : Refines s w)
    (k : BloomKey) : (bloomTestAndSet s k).1 = true ↔ ∀ bit ∈ indices k, w.Holds bit := by
  rw [bloomTestAndSet_eq, List.all_eq_true]
  refine forall₂_congr fun bit hmem => ?_
  have hbit := lt_of_mem_indices hmem
  rw [Bool.or_eq_true, h.cur bit hbit, h.prev bit hbit]
  rfl

theorem Refines.foldl_setBit {gen : U64} (bits : List U32) :
    ∀ {s : Bloom} {w : Window ℕ U32}, Refines s w → (epochState s).gen = gen →
      (∀ bit ∈ bits, bit.toNat < bloomBits) →
      Refines (bits.foldl (fun s' bit => bloomSetBitGen s' bit gen) s)
        (w.insert {bit | bit ∈ bits}) := by
  induction bits with
  | nil =>
    intro s w h _ _
    simpa [Window.insert] using h
  | cons bit rest ih =>
    intro s w h hgen hbits
    have hbit := hbits bit List.mem_cons_self
    have hone := h.setBit hbit
    rw [hgen] at hone
    have hkept : (epochState (bloomSetBitGen s bit gen)).gen = gen := by
      rw [epochState, epoch_bloomSetBitGen s hbit]
      exact hgen
    have hrest := ih hone hkept fun b hb => hbits b (List.mem_cons_of_mem _ hb)
    have hcons : {b | b ∈ bit :: rest} = ({bit} ∪ {b | b ∈ rest} : Set U32) := by
      ext b
      simp
    rw [Window.insert_insert, ← hcons] at hrest
    exact hrest

theorem Refines.testAndSet_snd {s : Bloom} {w : Window ℕ U32} (h : Refines s w)
    (k : BloomKey) : Refines (bloomTestAndSet s k).2 (w.insert {bit | bit ∈ indices k}) := by
  rw [bloomTestAndSet_eq]
  exact h.foldl_setBit (indices k) rfl fun _ => lt_of_mem_indices

theorem bitSets_concat (calls : List BloomCall) (call : BloomCall) :
    bitSets (calls ++ [call]) =
      step (EpochClock.due bloomEpochNs.toNat) (bitSets calls) (abstractCall call) := by
  unfold bitSets
  rw [List.map_append]
  exact run_concat _ _ _ _

/-- The epoch clock cannot roll often enough to wrap the generation around. -/
theorem bitSets_rolls_lt (calls : List BloomCall) : (bitSets calls).rolls < 2 ^ 64 := by
  have htimes : ∀ now ∈ ticks (calls.map abstractCall), now ≤ 2 ^ 64 - 1 := by
    intro now hnow
    induction calls with
    | nil => simp [ticks] at hnow
    | cons call rest ih =>
      cases call with
      | maybeRollEpoch t =>
        rcases List.mem_cons.mp hnow with rfl | hrest
        · have := t.isLt
          omega
        · exact ih hrest
      | testAndSet k => exact ih hnow
  unfold bitSets
  rw [rolls_run]
  have hle := EpochClock.rolls_le_start bloomEpochNs.toNat (ticks (calls.map abstractCall))
  have hbound := EpochClock.start_le_of_forall_le bloomEpochNs.toNat 0 0 (2 ^ 64 - 1)
    (ticks (calls.map abstractCall)) (Nat.zero_le _) htimes
  exact Nat.lt_of_le_of_lt (hle.trans hbound) (by decide)

/-- Every state the filter reaches from the zeroed maps refines the two sets. -/
theorem refines_runCalls (calls : List BloomCall) :
    Refines (runCalls Bloom.zeroed calls) (bitSets calls) := by
  induction calls using List.reverseRecOn with
  | nil => exact refines_zeroed
  | append_singleton calls call ih =>
    have hfits := bitSets_rolls_lt (calls ++ [call])
    rw [bitSets_concat] at hfits ⊢
    unfold runCalls
    rw [List.foldl_append]
    change Refines (callStep (runCalls Bloom.zeroed calls) call) _
    cases call with
    | maybeRollEpoch now => exact ih.maybeRollEpoch now hfits
    | testAndSet k => exact ih.testAndSet_snd k

theorem insertedAt_iff (calls : List BloomCall) (bit : U32) (n : ℕ) :
    InsertedAt (EpochClock.due bloomEpochNs.toNat) (RotatingWindow.empty 0)
        (calls.map abstractCall) bit n ↔
      ∃ pre k post, calls = pre ++ .testAndSet k :: post ∧ bit ∈ indices k ∧
        (bitSets pre).rolls = n := by
  constructor
  · intro hins
    rcases hins with ⟨pre, xs, post, hsplit, hbit, hn⟩
    obtain ⟨left, right, rfl, rfl, hright⟩ := List.map_eq_append_iff.mp hsplit
    obtain ⟨call, rest, rfl, hcall, -⟩ := List.map_eq_cons_iff.mp hright
    cases call with
    | maybeRollEpoch now => simp [abstractCall] at hcall
    | testAndSet k =>
      simp only [abstractCall, Call.insert.injEq] at hcall
      subst hcall
      exact ⟨left, k, rest, rfl, hbit, hn⟩
  · intro htested
    rcases htested with ⟨pre, k, post, rfl, hbit, hn⟩
    exact ⟨pre.map abstractCall, {b | b ∈ indices k}, post.map abstractCall,
      by simp [abstractCall], hbit, hn⟩

/-- A bit is in the two sets exactly if a key that has it was inserted at most one roll ago. -/
theorem holds_bitSets_iff (calls : List BloomCall) (bit : U32) :
    (bitSets calls).Holds bit ↔
      ∃ pre k post, calls = pre ++ .testAndSet k :: post ∧ bit ∈ indices k ∧
        (bitSets calls).rolls ≤ (bitSets pre).rolls + 1 := by
  unfold bitSets
  rw [holds_run_iff]
  constructor
  · intro hheld
    rcases hheld with ⟨n, hins, hn⟩
    obtain ⟨pre, k, post, hsplit, hbit, rfl⟩ := (insertedAt_iff calls bit n).mp hins
    exact ⟨pre, k, post, hsplit, hbit, hn⟩
  · intro htested
    rcases htested with ⟨pre, k, post, hsplit, hbit, hn⟩
    exact ⟨_, (insertedAt_iff calls bit _).mpr ⟨pre, k, post, hsplit, hbit, rfl⟩, hn⟩

/-- After any calls from the zeroed maps the filter answers as the two sets do.
Both of its lookups together show a bit exactly until its second roll, no roll
wraps the generation around, and every lookup is in range. -/
theorem bloom_refines_bit_sets (calls : List BloomCall) :
    let s := runCalls Bloom.zeroed calls
    let w := bitSets calls
    (∀ k, (bloomTestAndSet s k).1 = true ↔ ∀ bit ∈ indices k, bit ∈ w.cur ∨ bit ∈ w.prev) ∧
      (∀ bit : U32, bit.toNat < bloomBits →
        ((bloomTestBitGen s bit (epochState s).gen = true ∨
            bloomTestBitGen s bit ((epochState s).gen - 1#64) = true) ↔
          ∃ pre k post, calls = pre ++ .testAndSet k :: post ∧ bit ∈ indices k ∧
            w.rolls ≤ (bitSets pre).rolls + 1)) ∧
      (epochState s).gen.toNat = w.rolls ∧
      ∀ k, ∀ bit ∈ indices k, ∀ gen, (wordSlot bit gen).toNat < 2 * bloomWords := by
  have href := refines_runCalls calls
  refine ⟨href.testAndSet_fst, fun bit hbit => ?_, href.gen,
    fun k bit hmem gen => wordSlot_lt (lt_of_mem_indices hmem) gen⟩
  rw [href.cur bit hbit, href.prev bit hbit]
  exact holds_bitSets_iff calls bit

end PacketLoss.BloomRefinement
