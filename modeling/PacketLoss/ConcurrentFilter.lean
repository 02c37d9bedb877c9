import PacketLoss.ConcurrentRoll
import PacketLoss.ConcurrentSetBit

/-!
The whole filter on several CPUs at once. A call is what one packet does with the
filter: it rolls the epoch, reads the generation, tests its three bits for this
generation and the one before, and sets them. Each access to a map is one step of one
call. A call that runs alone does what the sequential code does.
-/
namespace PacketLoss.ConcurrentFilter

open Machine BloomFilter BloomRefinement Schedules

/-- The packet's time, and its key if the filter is asked about it. -/
structure Call where
  now : U64
  key : Option BloomKey

def seed : Fin 3 → U32
  | 0 => 0x12345678#32
  | 1 => 0x9e3779b9#32
  | 2 => 0xdeadbeef#32

/-- `bit0`, `bit1` and `bit2` -/
def Call.bit (c : Call) (n : Fin 3) : U32 := c.key.elim 0#32 fun k => bitAt k (seed n)

/-- Where a call is: in `bloom_maybe_roll_epoch`, before the read of `epoch->gen`,
before the read of a word's tag or of its bits in the test of bit `n`, or in
`bloom_set_bit_gen` for bit `n`. `seen` is the answer so far, and `prev` says which of
the two generations is tested. -/
inductive Pc
  | rolling (pc : ConcurrentRoll.Pc)
  | readGen
  | readTag (curGen : U64) (n : Fin 3) (prev seen : Bool)
  | readBits (curGen : U64) (n : Fin 3) (prev seen : Bool)
  | setting (curGen : U64) (n : Fin 3) (seen : Bool) (pc : ConcurrentSetBit.Pc)
  | notAsked
  | returned (curGen : U64) (seen : Bool)
deriving DecidableEq

def testedGen (curGen : U64) (prev : Bool) : U64 := if prev then curGen - 1#64 else curGen

def afterRoll (c : Call) : Pc := if c.key.isSome then .readGen else .notAsked

/-- The second generation is tested only if the bit is not seen in the first. -/
def afterTest (curGen : U64) (n : Fin 3) (prev seen hit : Bool) : Pc :=
  if !hit && !prev then .readTag curGen n true seen
  else if h : n.val + 1 < 3 then .readTag curGen ⟨n.val + 1, h⟩ false (seen && hit)
  else .setting curGen 0 (seen && hit) .readGen

def afterSet (curGen : U64) (n : Fin 3) (seen : Bool) : Pc :=
  if h : n.val + 1 < 3 then .setting curGen ⟨n.val + 1, h⟩ seen .readGen
  else .returned curGen seen

/-- The next access of a call. -/
def access (c : Call) (m : Bloom) : Pc → Bloom × Pc
  | .rolling pc =>
    match m.epoch.lookup 0#32 with
    | none => ({ m with epoch := m.epoch.update 0#32 ⟨0#64, c.now⟩ }, afterRoll c)
    | some epoch =>
      let (epoch, pc) := ConcurrentRoll.access c.now epoch pc
      ({ m with epoch := m.epoch.update 0#32 epoch },
        if pc = .rolled ∨ pc = .returned then afterRoll c else .rolling pc)
  | .readGen =>
    match m.epoch.lookup 0#32 with
    | none => (m, .notAsked)
    | some epoch => (m, .readTag epoch.gen 0 false true)
  | .readTag curGen n prev seen =>
    let gen := testedGen curGen prev
    match m.bits.lookup (wordSlot (c.bit n) gen) with
    | none => (m, afterTest curGen n prev seen false)
    | some w =>
      (m, if w.gen ≠ gen then afterTest curGen n prev seen false
        else .readBits curGen n prev seen)
  | .readBits curGen n prev seen =>
    match m.bits.lookup (wordSlot (c.bit n) (testedGen curGen prev)) with
    | none => (m, afterTest curGen n prev seen false)
    | some w => (m, afterTest curGen n prev seen (w.bits &&& wordMask (c.bit n) != 0#64))
  | .setting curGen n seen pc =>
    match m.bits.lookup (wordSlot (c.bit n) curGen) with
    | none => (m, afterSet curGen n seen)
    | some w =>
      let (w, pc) := ConcurrentSetBit.access (c.bit n) curGen w pc
      ({ m with bits := m.bits.update (wordSlot (c.bit n) curGen) w },
        if pc = .returned then afterSet curGen n seen else .setting curGen n seen pc)
  | .notAsked => (m, .notAsked)
  | .returned curGen seen => (m, .returned curGen seen)

/-! The accesses with the lookups resolved: every lookup finds its word. -/

theorem Call.bit_lt (c : Call) (n : Fin 3) : (c.bit n).toNat < bloomBits := by
  cases hkey : c.key with
  | none => simp [Call.bit, hkey, bloomBits, bloomWords]
  | some k =>
    rw [Call.bit, hkey]
    exact bloomBitIndex_lt _ _ _ _ _ _

theorem mem_indices_iff {k : BloomKey} {bit : U32} :
    bit ∈ indices k ↔ ∃ n, bitAt k (seed n) = bit := by
  simp [indices, Fin.exists_fin_succ, seed, eq_comm]

/-- The slot of the word with bit `n` in the half of a generation. -/
def Call.slot (c : Call) (n : Fin 3) (gen : U64) : Fin (2 * bloomWords) :=
  place gen (wordOf (c.bit n) (c.bit_lt n))

def setSlot (m : Bloom) (x : Fin (2 * bloomWords)) (w : BloomWord) : Bloom :=
  { m with bits := Function.update m.bits x w }

def setEpoch (m : Bloom) (epoch : BloomEpochState) : Bloom := { m with epoch := fun _ => epoch }

variable (c : Call) (m : Bloom)

theorem lookup_slot (n : Fin 3) (gen : U64) :
    m.bits.lookup (wordSlot (c.bit n) gen) = some (m.bits (c.slot n gen)) :=
  lookup_wordSlot m (c.bit_lt n) gen

theorem update_slot (n : Fin 3) (gen : U64) (w : BloomWord) :
    m.bits.update (wordSlot (c.bit n) gen) w = Function.update m.bits (c.slot n gen) w :=
  update_wordSlot m (c.bit_lt n) gen w

theorem access_rolling (pc : ConcurrentRoll.Pc) :
    access c m (.rolling pc) =
      (setEpoch m (ConcurrentRoll.access c.now (epochState m) pc).1,
        if (ConcurrentRoll.access c.now (epochState m) pc).2 = .rolled ∨
          (ConcurrentRoll.access c.now (epochState m) pc).2 = .returned then afterRoll c
        else .rolling (ConcurrentRoll.access c.now (epochState m) pc).2) := by
  have hupdate : ∀ epoch, m.epoch.update 0#32 epoch = fun _ => epoch := by
    intro epoch
    funext i
    have hi : i = ⟨(0#32).toNat, by decide⟩ := Fin.ext (by have := i.isLt; omega)
    rw [ArrayMap.update_of_lt _ (by decide), hi, Function.update_self]
  simp only [access, lookup_epoch, hupdate]
  rfl

theorem access_readGen : access c m .readGen = (m, .readTag (epochState m).gen 0 false true) := by
  simp only [access, lookup_epoch]

theorem access_readTag (curGen : U64) (n : Fin 3) (prev seen : Bool) :
    access c m (.readTag curGen n prev seen) =
      (m, if (m.bits (c.slot n (testedGen curGen prev))).gen ≠ testedGen curGen prev then
          afterTest curGen n prev seen false
        else .readBits curGen n prev seen) := by
  rw [access, lookup_slot]

theorem access_readBits (curGen : U64) (n : Fin 3) (prev seen : Bool) :
    access c m (.readBits curGen n prev seen) =
      (m, afterTest curGen n prev seen
        ((m.bits (c.slot n (testedGen curGen prev))).bits.getLsbD ((c.bit n).toNat % 64))) := by
  rw [access, lookup_slot]
  simp only [and_wordMask_ne_zero]

theorem access_setting (curGen : U64) (n : Fin 3) (seen : Bool) (pc : ConcurrentSetBit.Pc) :
    access c m (.setting curGen n seen pc) =
      (setSlot m (c.slot n curGen)
          (ConcurrentSetBit.access (c.bit n) curGen (m.bits (c.slot n curGen)) pc).1,
        if (ConcurrentSetBit.access (c.bit n) curGen (m.bits (c.slot n curGen)) pc).2 = .returned
        then afterSet curGen n seen
        else .setting curGen n seen
          (ConcurrentSetBit.access (c.bit n) curGen (m.bits (c.slot n curGen)) pc).2) := by
  rw [access, lookup_slot]
  simp only [update_slot, setSlot]

/-! One call alone. -/

/-- The call gets from one place to the other if it runs alone. -/
def Goes (x y : Bloom × Pc) : Prop := ∃ n, (fun x => access c x.1 x.2)^[n] x = y

variable {c} {m}

theorem Goes.refl (x : Bloom × Pc) : Goes c x x := ⟨0, rfl⟩

theorem Goes.head {x y z : Bloom × Pc} (h : access c x.1 x.2 = y) (hgoes : Goes c y z) :
    Goes c x z := by
  obtain ⟨n, hn⟩ := hgoes
  refine ⟨n + 1, ?_⟩
  rw [Function.iterate_succ_apply, h, hn]

theorem Goes.trans {x y z : Bloom × Pc} (h : Goes c x y) (h' : Goes c y z) : Goes c x z := by
  obtain ⟨n, hn⟩ := h
  obtain ⟨n', hn'⟩ := h'
  refine ⟨n' + n, ?_⟩
  rw [Function.iterate_add_apply, hn, hn']

theorem setEpoch_epochState (m : Bloom) : setEpoch m (epochState m) = m := by
  have hepoch : (fun _ => epochState m) = m.epoch := by
    funext i
    rw [epochState, Subsingleton.elim i 0]
  rw [setEpoch, hepoch]

theorem setSlot_self (m : Bloom) (x : Fin (2 * bloomWords)) : setSlot m x (m.bits x) = m := by
  rw [setSlot, Function.update_eq_self]

theorem goes_rolling (c : Call) (m : Bloom) :
    Goes c (m, .rolling .readStart) (bloomMaybeRollEpoch m c.now, afterRoll c) := by
  by_cases hstart : (epochState m).startNs < c.now
  · refine Goes.head (y := (m, .rolling .readStartAgain)) ?_ ?_
    · simp [access_rolling, ConcurrentRoll.access, hstart, setEpoch_epochState]
    by_cases hperiod : bloomEpochNs < c.now - (epochState m).startNs
    · have hlt := (due_iff _ _).mp ⟨hstart, hperiod⟩
      refine Goes.head (y := (m, .rolling .readExpected)) ?_ ?_
      · simp [access_rolling, ConcurrentRoll.access, hperiod, setEpoch_epochState]
      refine Goes.head (y := (m, .rolling (.swap (epochState m).startNs))) ?_ ?_
      · simp [access_rolling, ConcurrentRoll.access, setEpoch_epochState]
      refine Goes.head
        (y := (setEpoch m ⟨(epochState m).gen, c.now⟩, .rolling .addGen)) ?_ ?_
      · simp [access_rolling, ConcurrentRoll.access_swap_of_eq]
      refine Goes.head ?_ (Goes.refl _)
      rw [bloomMaybeRollEpoch_of_lt hlt, access_rolling]
      rfl
    · refine Goes.head ?_ (Goes.refl _)
      rw [bloomMaybeRollEpoch_of_le (by rw [← Nat.not_lt, ← due_iff]; exact fun h => hperiod h.2)]
      simp [access_rolling, ConcurrentRoll.access, hperiod, setEpoch_epochState]
  · refine Goes.head ?_ (Goes.refl _)
    rw [bloomMaybeRollEpoch_of_le (by rw [← Nat.not_lt, ← due_iff]; exact fun h => hstart h.1)]
    simp [access_rolling, ConcurrentRoll.access, hstart, setEpoch_epochState]

theorem bloomTestBitGen_bit (c : Call) (m : Bloom) (n : Fin 3) (gen : U64) :
    bloomTestBitGen m (c.bit n) gen =
      if (m.bits (c.slot n gen)).gen ≠ gen then false
      else (m.bits (c.slot n gen)).bits.getLsbD ((c.bit n).toNat % 64) := by
  rw [bloomTestBitGen, lookup_slot, testWord, and_wordMask_ne_zero]

theorem goes_testGen (curGen : U64) (n : Fin 3) (prev seen : Bool) :
    Goes c (m, .readTag curGen n prev seen)
      (m, afterTest curGen n prev seen (bloomTestBitGen m (c.bit n) (testedGen curGen prev))) := by
  rw [bloomTestBitGen_bit]
  by_cases hgen : (m.bits (c.slot n (testedGen curGen prev))).gen ≠ testedGen curGen prev
  · refine Goes.head ?_ (Goes.refl _)
    rw [access_readTag, if_pos hgen, if_pos hgen]
  · refine Goes.head (y := (m, .readBits curGen n prev seen)) ?_ ?_
    · rw [access_readTag, if_neg hgen]
    · refine Goes.head ?_ (Goes.refl _)
      rw [access_readBits, if_neg hgen]

/-- The test of one bit, with the second generation only if the first does not have it. -/
theorem goes_test (curGen : U64) (n : Fin 3) (seen : Bool) :
    Goes c (m, .readTag curGen n false seen)
      (m, afterTest curGen n true seen (bloomTestBitGen m (c.bit n) curGen ||
        bloomTestBitGen m (c.bit n) (curGen - 1#64))) := by
  have hcur : Goes c (m, .readTag curGen n false seen) _ := goes_testGen curGen n false seen
  have hprev : Goes c (m, .readTag curGen n true seen) _ := goes_testGen curGen n true seen
  simp only [testedGen, Bool.false_eq_true, if_false, if_true] at hcur hprev
  cases hseen : bloomTestBitGen m (c.bit n) curGen with
  | true =>
    have hhit : afterTest curGen n false seen true = afterTest curGen n true seen true := rfl
    rw [hseen, hhit] at hcur
    rw [Bool.true_or]
    exact hcur
  | false =>
    have hmiss : afterTest curGen n false seen false = .readTag curGen n true seen := rfl
    rw [hseen, hmiss] at hcur
    rw [Bool.false_or]
    exact hcur.trans hprev

theorem goes_set (curGen : U64) (n : Fin 3) (seen : Bool) :
    Goes c (m, .setting curGen n seen .readGen)
      (bloomSetBitGen m (c.bit n) curGen, afterSet curGen n seen) := by
  have hset : bloomSetBitGen m (c.bit n) curGen =
      setSlot m (c.slot n curGen) (setWord (c.bit n) curGen (m.bits (c.slot n curGen))) := by
    rw [bloomSetBitGen, lookup_slot, Option.elim_some, update_slot, setSlot]
  rw [hset]
  generalize hx : c.slot n curGen = x
  by_cases hgen : (m.bits x).gen = curGen
  · refine Goes.head (y := (m, .setting curGen n seen .setBit)) ?_ (Goes.head ?_ (Goes.refl _))
    · simp [access_setting, hx, ConcurrentSetBit.access, hgen, setSlot_self]
    · simp [access_setting, hx, ConcurrentSetBit.access, setWord, hgen]
  · refine Goes.head (y := (m, .setting curGen n seen .readExpected)) ?_ ?_
    · simp [access_setting, hx, ConcurrentSetBit.access, hgen, setSlot_self]
    refine Goes.head (y := (m, .setting curGen n seen (.swap (m.bits x).gen))) ?_ ?_
    · simp [access_setting, hx, ConcurrentSetBit.access, setSlot_self]
    refine Goes.head
      (y := (setSlot m x ⟨curGen, (m.bits x).bits⟩, .setting curGen n seen .clear)) ?_ ?_
    · simp [access_setting, hx, ConcurrentSetBit.access_swap_of_ne _ hgen]
    refine Goes.head (y := (setSlot m x ⟨curGen, 0#64⟩, .setting curGen n seen .setBit)) ?_ ?_
    · simp [access_setting, hx, ConcurrentSetBit.access, setSlot]
    refine Goes.head ?_ (Goes.refl _)
    simp [access_setting, hx, ConcurrentSetBit.access, setSlot, setWord, hgen,
      syncValCompareAndSwap]

theorem afterTest_prev (curGen : U64) (n : Fin 3) (seen hit : Bool) :
    afterTest curGen n true seen hit =
      if h : n.val + 1 < 3 then .readTag curGen ⟨n.val + 1, h⟩ false (seen && hit)
      else .setting curGen 0 (seen && hit) .readGen := by
  simp [afterTest]

/-- Alone, the test and the insertion are the sequential ones. -/
theorem goes_testAndSet {k : BloomKey} (hkey : c.key = some k) (m : Bloom) :
    Goes c (m, .readGen)
      ((bloomTestAndSet m k).2, .returned (epochState m).gen (bloomTestAndSet m k).1) := by
  have hbit : ∀ n, c.bit n = bitAt k (seed n) := by
    intro n
    rw [Call.bit, hkey, Option.elim_some]
  refine Goes.head (access_readGen c m) ?_
  refine (goes_test _ 0 true).trans ?_
  rw [afterTest_prev, dif_pos (by decide)]
  refine (goes_test _ 1 _).trans ?_
  rw [afterTest_prev, dif_pos (by decide)]
  refine (goes_test _ 2 _).trans ?_
  rw [afterTest_prev, dif_neg (by decide)]
  refine (goes_set _ 0 _).trans ?_
  rw [afterSet, dif_pos (by decide)]
  refine (goes_set _ 1 _).trans ?_
  rw [afterSet, dif_pos (by decide)]
  refine (goes_set _ 2 _).trans ?_
  rw [afterSet, dif_neg (by decide)]
  rw [bloomTestAndSet_eq]
  simp only [hbit, indices, List.foldl_cons, List.foldl_nil, List.all_cons, List.all_nil,
    Bool.and_true, Bool.true_and, ← Bool.and_assoc, seed]
  exact Goes.refl _

section Run

variable {ι : Type*} [DecidableEq ι] (calls : ι → Call)

def start : Threads ι Bloom Pc := ⟨Bloom.zeroed, fun _ => .rolling .readStart⟩

def step : Threads ι Bloom Pc → ι → Threads ι Bloom Pc := threadStep fun i => access (calls i)

variable {calls} {s : Threads ι Bloom Pc}

theorem mem_step (i : ι) : (step calls s i).mem = (access (calls i) s.mem (s.pc i)).1 := rfl

theorem pc_step_self (i : ι) : (step calls s i).pc i = (access (calls i) s.mem (s.pc i)).2 :=
  pc_threadStep_self _ _ _

theorem pc_step_of_ne {i j : ι} (h : j ≠ i) : (step calls s i).pc j = s.pc j :=
  pc_threadStep_of_ne _ _ h

/-- A packet that has the CPUs to itself does what the sequential code does. -/
theorem run_alone (i : ι) (hi : s.pc i = .rolling .readStart) {k : BloomKey}
    (hkey : (calls i).key = some k) :
    let m := bloomMaybeRollEpoch s.mem (calls i).now
    ∃ n, (run (step calls) s (List.replicate n i)).mem = (bloomTestAndSet m k).2 ∧
      (run (step calls) s (List.replicate n i)).pc i =
        .returned (epochState m).gen (bloomTestAndSet m k).1 := by
  intro m
  have hgoes : Goes (calls i) (s.mem, s.pc i)
      ((bloomTestAndSet m k).2, .returned (epochState m).gen (bloomTestAndSet m k).1) := by
    rw [hi]
    refine (goes_rolling (calls i) s.mem).trans ?_
    rw [afterRoll, hkey]
    exact goes_testAndSet hkey m
  obtain ⟨n, hn⟩ := hgoes
  obtain ⟨hmem, hpc⟩ := run_replicate (fun i => access (calls i)) s i n
  exact ⟨n, hmem.trans (congrArg Prod.fst hn), hpc.trans (congrArg Prod.snd hn)⟩

/-! A call returns after a bounded number of its own accesses, whatever others do. -/

def rollLeft : ConcurrentRoll.Pc → ℕ
  | .readStart => 5
  | .readStartAgain => 4
  | .readExpected => 3
  | .swap _ => 2
  | .addGen | .rolled | .returned => 1

def setLeft : ConcurrentSetBit.Pc → ℕ
  | .readGen => 5
  | .readExpected => 4
  | .swap _ => 3
  | .clear => 2
  | .setBit | .returned => 1

/-- A bound on the accesses that a call still has to make. -/
def left : Pc → ℕ
  | .rolling pc => 28 + rollLeft pc
  | .readGen => 28
  | .readTag _ n prev _ => 15 + 4 * (2 - n.val) + if prev then 2 else 4
  | .readBits _ n prev _ => 15 + 4 * (2 - n.val) + if prev then 1 else 3
  | .setting _ n _ pc => 5 * (2 - n.val) + setLeft pc
  | .notAsked | .returned _ _ => 0

theorem left_afterTest (curGen : U64) (n : Fin 3) (prev seen hit : Bool) :
    left (afterTest curGen n prev seen hit) + 1 ≤ left (.readBits curGen n prev seen) := by
  unfold afterTest
  split
  next hmiss =>
    rw [Bool.and_eq_true, Bool.not_eq_true', Bool.not_eq_true'] at hmiss
    simp [left, hmiss.2]
  next =>
    split
    next hlt =>
      simp only [left, Bool.false_eq_true, if_false]
      split <;> omega
    next =>
      simp only [left, setLeft]
      split <;> omega

theorem left_afterSet (curGen : U64) (n : Fin 3) (seen : Bool) :
    left (afterSet curGen n seen) ≤ 5 * (2 - n.val) := by
  unfold afterSet
  split
  · simp [left, setLeft]
    omega
  · simp [left]

theorem left_afterRoll (c : Call) : left (afterRoll c) ≤ 28 := by
  unfold afterRoll
  split
  · simp [left]
  · simp [left]

theorem rollLeft_access (now : U64) (epoch : BloomEpochState) (pc : ConcurrentRoll.Pc)
    (h : ¬((ConcurrentRoll.access now epoch pc).2 = .rolled ∨
      (ConcurrentRoll.access now epoch pc).2 = .returned)) :
    rollLeft (ConcurrentRoll.access now epoch pc).2 < rollLeft pc := by
  cases pc with
  | readStart =>
    simp only [ConcurrentRoll.access]
    split <;> decide
  | readStartAgain =>
    simp only [ConcurrentRoll.access]
    split <;> decide
  | readExpected => simp [ConcurrentRoll.access, rollLeft]
  | swap expected =>
    simp only [ConcurrentRoll.access]
    split <;> simp [rollLeft]
  | addGen => exact absurd (Or.inl rfl) h
  | rolled => exact absurd (Or.inl rfl) h
  | returned => exact absurd (Or.inr rfl) h

theorem setLeft_access (bit : U32) (gen : U64) (w : BloomWord) (pc : ConcurrentSetBit.Pc)
    (h : (ConcurrentSetBit.access bit gen w pc).2 ≠ .returned) :
    setLeft (ConcurrentSetBit.access bit gen w pc).2 < setLeft pc := by
  cases pc with
  | readGen =>
    simp only [ConcurrentSetBit.access]
    split <;> decide
  | readExpected => simp [ConcurrentSetBit.access, setLeft]
  | swap expected =>
    simp only [ConcurrentSetBit.access]
    split <;> simp [setLeft]
  | clear => simp [ConcurrentSetBit.access, setLeft]
  | setBit => exact absurd rfl h
  | returned => exact absurd rfl h

theorem setLeft_pos (pc : ConcurrentSetBit.Pc) : 0 < setLeft pc := by
  cases pc <;> exact Nat.succ_pos _

theorem left_eq_zero {pc : Pc} (h : left pc = 0) :
    pc = .notAsked ∨ ∃ curGen seen, pc = .returned curGen seen := by
  cases pc with
  | notAsked => exact Or.inl rfl
  | returned curGen seen => exact Or.inr ⟨curGen, seen, rfl⟩
  | setting curGen n seen pc =>
    have hpos := setLeft_pos pc
    simp only [left] at h
    omega
  | rolling pc => simp [left] at h
  | readGen => simp [left] at h
  | readTag curGen n prev seen => simp [left] at h
  | readBits curGen n prev seen => simp [left] at h

theorem left_access (c : Call) (m : Bloom) {pc : Pc} (h : left pc ≠ 0) :
    left (access c m pc).2 < left pc := by
  cases pc with
  | rolling pc =>
    rw [access_rolling]
    have hleft : left (.rolling pc) = 28 + rollLeft pc := rfl
    simp only
    split
    next =>
      have hafter := left_afterRoll c
      have hpos : 0 < rollLeft pc := by cases pc <;> exact Nat.succ_pos _
      omega
    next hnot => exact Nat.add_lt_add_left (rollLeft_access c.now (epochState m) pc hnot) 28
  | readGen =>
    rw [access_readGen]
    simp [left]
  | readTag curGen n prev seen =>
    have hbits : left (.readBits curGen n prev seen) < left (.readTag curGen n prev seen) := by
      cases prev <;> simp [left]
    rw [access_readTag]
    simp only
    split
    · have hafter := left_afterTest curGen n prev seen false
      omega
    · exact hbits
  | readBits curGen n prev seen =>
    rw [access_readBits]
    exact left_afterTest _ _ _ _ _
  | setting curGen n seen pc =>
    rw [access_setting]
    have hleft : left (.setting curGen n seen pc) = 5 * (2 - n.val) + setLeft pc := rfl
    simp only
    split
    next =>
      have hafter := left_afterSet curGen n seen
      have hpos := setLeft_pos pc
      omega
    next hnot => exact Nat.add_lt_add_left (setLeft_access _ _ _ pc hnot) _
  | notAsked => exact absurd rfl h
  | returned curGen seen => exact absurd rfl h

theorem left_step (i j : ι) : left ((step calls s j).pc i) ≤ left (s.pc i) ∧
    (j = i → left (s.pc i) ≠ 0 → left ((step calls s j).pc i) < left (s.pc i)) := by
  by_cases hj : i = j
  · subst hj
    rw [pc_step_self]
    refine ⟨?_, fun _ => left_access (calls i) s.mem⟩
    by_cases hzero : left (s.pc i) = 0
    · rcases left_eq_zero hzero with hpc | ⟨curGen, seen, hpc⟩
      · rw [hpc]
        exact le_rfl
      · rw [hpc]
        exact le_rfl
    · exact (left_access (calls i) s.mem hzero).le
  · rw [pc_step_of_ne hj]
    exact ⟨le_rfl, fun heq => absurd heq.symm hj⟩

/-- A call that asks the filter does not end without an answer. -/
theorem access_ne_notAsked {c : Call} (hkey : c.key.isSome) (m : Bloom) {pc : Pc}
    (h : pc ≠ .notAsked) : (access c m pc).2 ≠ .notAsked := by
  cases pc with
  | rolling pc =>
    rw [access_rolling, afterRoll, if_pos hkey]
    simp only
    split
    · simp
    · simp
  | readGen => simp [access_readGen]
  | readTag curGen n prev seen =>
    rw [access_readTag, afterTest]
    simp only
    split
    · split
      · simp
      · split
        · simp
        · simp
    · simp
  | readBits curGen n prev seen =>
    rw [access_readBits, afterTest]
    simp only
    split
    · simp
    · split
      · simp
      · simp
  | setting curGen n seen pc =>
    rw [access_setting, afterSet]
    simp only
    split
    · split
      · simp
      · simp
    · simp
  | notAsked => exact absurd rfl h
  | returned curGen seen => exact h

/-- A call with a key returns within 33 accesses of its own. -/
theorem returns_of_count {i : ι} (hkey : (calls i).key.isSome) {sched : List ι}
    (hcount : 33 ≤ sched.countP (· = i)) :
    ∃ curGen seen, (run (step calls) start sched).pc i = .returned curGen seen := by
  have hzero : left ((run (step calls) start sched).pc i) = 0 := by
    refine reached_of_count (c := fun _ _ => True) (I := fun _ => True) (p := (· = i))
      (G := fun s : Threads ι Bloom Pc => left (s.pc i) = 0)
      (fun s : Threads ι Bloom Pc => left (s.pc i)) (fun _ _ _ _ => trivial) ?_ ?_ ?_
      (fun _ _ hdone => hdone) trivial (fun _ _ _ _ => trivial) hcount
    · intro s j _ _ hdone
      exact Nat.le_zero.mp (hdone ▸ (left_step i j).1)
    · exact fun s j _ _ _ => (left_step i j).1
    · exact fun s j _ _ heq hne => (left_step i j).2 heq hne
  have hasked : (run (step calls) start sched).pc i ≠ .notAsked := by
    refine invariant_run (I := fun s : Threads ι Bloom Pc => s.pc i ≠ .notAsked) ?_ ?_ sched
    · simp [start]
    · intro s j h
      by_cases hj : i = j
      · subst hj
        rw [pc_step_self]
        exact access_ne_notAsked hkey s.mem h
      · rwa [pc_step_of_ne hj]
  exact (left_eq_zero hzero).resolve_left hasked

end Run

end PacketLoss.ConcurrentFilter
