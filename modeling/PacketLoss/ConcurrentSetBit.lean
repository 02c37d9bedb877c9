import PacketLoss.BloomRefinement
import PacketLoss.Schedules

/-!
`bloom_set_bit_gen` on several CPUs at once. Each access to the word is one step
of one call. The tag of the word is switched before its old bits are cleared, so
in between the old bits can be seen under the new tag, and a bit that is set in
between is cleared with them.
-/
namespace PacketLoss.ConcurrentSetBit

open Machine BloomFilter BloomRefinement Schedules

/-- Where a call of `bloom_set_bit_gen` is: before its first read of `w->gen`,
before the second one, before the compare-and-swap, and so on. -/
inductive Pc
  | readGen
  | readExpected
  | swap (expected : U64)
  | clear
  | setBit
  | returned
deriving DecidableEq

/-- The next access of a call to its word. -/
def access (bit : U32) (gen : U64) (w : BloomWord) : Pc → BloomWord × Pc
  | .readGen => (w, if w.gen ≠ gen then .readExpected else .setBit)
  | .readExpected => (w, .swap w.gen)
  | .swap expected =>
    let (old, new) := syncValCompareAndSwap w.gen expected gen
    ({ w with gen := new }, if old ≠ gen then .clear else .setBit)
  | .clear => ({ w with bits := 0#64 }, .setBit)
  | .setBit => ({ w with bits := w.bits ||| wordMask bit }, .returned)
  | .returned => (w, .returned)

/-- Calls for one generation that set bits of one word, which an older
generation wrote last. -/
structure Calls (ι : Type*) where
  gen : U64
  word : U32
  bitOf : ι → U32
  sameWord : ∀ i, bitOf i >>> 6 = word
  stale : BloomWord
  older : stale.gen ≠ gen

variable {ι : Type*} (c : Calls ι)

def start : Threads ι BloomWord Pc := ⟨c.stale, fun _ => .readGen⟩

/-- The word shows the bits of the calls that have returned and no others. -/
structure Exact (s : Threads ι BloomWord Pc) : Prop where
  seen : ∀ i, s.pc i = .returned → testWord (c.bitOf i) c.gen (some s.mem) = true
  sound : ∀ bit : U32, bit >>> 6 = c.word → testWord bit c.gen (some s.mem) = true →
    ∃ i, s.pc i = .returned ∧ c.bitOf i = bit

/-- The swap that switches the tag finds no old bit, and the store that clears
the bits finds no call that has returned. -/
def Harmless (s : Threads ι BloomWord Pc) (i : ι) : Prop :=
  match s.pc i with
  | .swap expected => s.mem.gen = expected → expected ≠ c.gen → s.mem.bits = 0#64
  | .clear => ∀ j, s.pc j ≠ .returned
  | _ => True

theorem testWord_iff (bit : U32) (gen : U64) (w : BloomWord) :
    testWord bit gen (some w) = true ↔ w.gen = gen ∧ w.bits.getLsbD (bit.toNat % 64) = true := by
  unfold testWord
  by_cases hgen : w.gen = gen
  · simp only [hgen, ne_eq, not_true_eq_false, if_false, true_and, and_wordMask_ne_zero]
  · simp [hgen]

/-- Before the switch no call is past its compare-and-swap. -/
def Early (pc : Pc) : Prop :=
  match pc with
  | .readGen | .readExpected => True
  | .swap expected => expected = c.stale.gen
  | _ => False

/-- The word shows the bits of the returned calls, whatever its tag is. -/
def ShowsReturned (s : Threads ι BloomWord Pc) : Prop :=
  ∀ bit : U32, bit >>> 6 = c.word → (s.mem.bits.getLsbD (bit.toNat % 64) = true ↔
    ∃ i, s.pc i = .returned ∧ c.bitOf i = bit)

structure Inv (s : Threads ι BloomWord Pc) : Prop where
  before : s.mem.gen ≠ c.gen → s.mem = c.stale ∧ ∀ i, Early c (s.pc i)
  after : s.mem.gen = c.gen → ShowsReturned c s

/-- Once the tag is switched, a compare-and-swap changes nothing. -/
theorem access_swap_of_eq (bit : U32) {gen : U64} {w : BloomWord} (h : w.gen = gen)
    (expected : U64) : access bit gen w (.swap expected) = (w, .setBit) := by
  subst h
  obtain ⟨tag, bits⟩ := w
  by_cases heq : tag = expected <;> simp [access, syncValCompareAndSwap, heq]

theorem access_swap_of_ne (bit : U32) {gen : U64} {w : BloomWord} (h : w.gen ≠ gen) :
    access bit gen w (.swap w.gen) = ({ w with gen := gen }, .clear) := by
  simp [access, syncValCompareAndSwap, h]

theorem inv_start : Inv c (start c) where
  before := fun _ => ⟨rfl, fun _ => trivial⟩
  after := fun h => absurd h c.older

theorem not_returned_of_early {pc : Pc} (h : Early c pc) : pc ≠ .returned := by
  intro heq
  rw [heq] at h
  exact h

theorem exact_of_inv {c : Calls ι} {s : Threads ι BloomWord Pc} (h : Inv c s) : Exact c s := by
  constructor
  · intro i hi
    rw [testWord_iff]
    have hgen : s.mem.gen = c.gen := by
      by_contra hne
      exact not_returned_of_early c ((h.before hne).2 i) hi
    exact ⟨hgen, (h.after hgen _ (c.sameWord i)).mpr ⟨i, hi, rfl⟩⟩
  · intro bit hbit htest
    rw [testWord_iff] at htest
    exact (h.after htest.1 bit hbit).mp htest.2

/-- A word that is not 0 has a bit at an index of the calls' word. -/
theorem exists_bit_of_ne_zero (i : ι) {bits : U64} (h : bits ≠ 0#64) :
    ∃ bit : U32, bit >>> 6 = c.word ∧ bits.getLsbD (bit.toNat % 64) = true := by
  obtain ⟨k, hk, hset⟩ : ∃ k, k < 64 ∧ bits.getLsbD k = true := by
    by_contra hnone
    push Not at hnone
    apply h
    apply BitVec.eq_of_getLsbD_eq
    intro k hk
    simpa using hnone k hk
  have hlt := (c.bitOf i).isLt
  have htoNat : (BitVec.ofNat 32 ((c.bitOf i).toNat / 64 * 64 + k)).toNat =
      (c.bitOf i).toNat / 64 * 64 + k := by
    rw [BitVec.toNat_ofNat]
    omega
  refine ⟨BitVec.ofNat 32 ((c.bitOf i).toNat / 64 * 64 + k), ?_, ?_⟩
  · rw [← c.sameWord i]
    apply BitVec.eq_of_toNat_eq
    simp only [BitVec.toNat_ushiftRight, Nat.shiftRight_eq_div_pow, htoNat]
    omega
  · have hmod : ((c.bitOf i).toNat / 64 * 64 + k) % 64 = k := by omega
    rw [htoNat, hmod]
    exact hset

variable [DecidableEq ι]

def step : Threads ι BloomWord Pc → ι → Threads ι BloomWord Pc :=
  threadStep fun i => access (c.bitOf i) c.gen

variable {c} {s : Threads ι BloomWord Pc}

/-- A call that is alone does to the word what the sequential code does. -/
theorem run_alone (i : ι) (hi : s.pc i = .readGen) :
    (run (step c) s (List.replicate 5 i)).mem = setWord (c.bitOf i) c.gen s.mem ∧
      (run (step c) s (List.replicate 5 i)).pc i = .returned := by
  by_cases hgen : s.mem.gen = c.gen
  · simp [run, List.replicate, step, threadStep, access, setWord, hi, hgen]
  · simp [run, List.replicate, step, threadStep, access, setWord, syncValCompareAndSwap, hi, hgen]

/-- A step that leaves the word and does not return leaves what the word shows. -/
theorem ShowsReturned.of_pc (h : ShowsReturned c s) {i : ι} (hi : s.pc i ≠ .returned)
    (hmem : (step c s i).mem = s.mem) (hpc : (step c s i).pc i ≠ .returned) :
    ShowsReturned c (step c s i) := by
  intro bit hbit
  rw [hmem, h bit hbit]
  refine exists_congr fun j => and_congr_left fun _ => ?_
  by_cases hj : j = i
  · subst hj
    exact iff_of_false hi hpc
  · rw [step, pc_threadStep_of_ne _ _ hj]

theorem ShowsReturned.clear (h : ∀ j, s.pc j ≠ .returned) {i : ι} (hi : s.pc i = .clear) :
    ShowsReturned c (step c s i) := by
  intro bit _
  have hmem : (step c s i).mem.bits = 0#64 := by simp [step, threadStep, hi, access]
  rw [hmem]
  refine iff_of_false (by simp) ?_
  intro hsome
  rcases hsome with ⟨j, hj, -⟩
  by_cases hij : j = i
  · subst hij
    simp [step, threadStep, hi, access] at hj
  · rw [step, pc_threadStep_of_ne _ _ hij] at hj
    exact h j hj

theorem ShowsReturned.setBit (h : ShowsReturned c s) {i : ι} (hi : s.pc i = .setBit) :
    ShowsReturned c (step c s i) := by
  intro bit hbit
  have hmem : (step c s i).mem.bits = s.mem.bits ||| wordMask (c.bitOf i) := by
    simp [step, threadStep, hi, access]
  have hword : (c.bitOf i).toNat / 64 = bit.toNat / 64 := by
    have heq := congrArg BitVec.toNat ((c.sameWord i).trans hbit.symm)
    simpa [Nat.shiftRight_eq_div_pow] using heq
  rw [hmem, BitVec.getLsbD_or, getLsbD_wordMask hword, Bool.or_eq_true, h bit hbit,
    decide_eq_true_eq]
  constructor
  · intro hset
    rcases hset with ⟨j, hj, hbitj⟩ | heq
    · have hne : j ≠ i := by
        intro heq
        rw [heq, hi] at hj
        cases hj
      refine ⟨j, ?_, hbitj⟩
      rwa [step, pc_threadStep_of_ne _ _ hne]
    · refine ⟨i, ?_, heq.symm⟩
      rw [step, pc_threadStep_self, hi]
      rfl
  · intro hset
    rcases hset with ⟨j, hj, hbitj⟩
    by_cases hij : j = i
    · subst hij
      exact Or.inr hbitj.symm
    · rw [step, pc_threadStep_of_ne _ _ hij] at hj
      exact Or.inl ⟨j, hj, hbitj⟩

theorem early_of_step (h : ∀ j, Early c (s.pc j)) {i : ι} (hpc : Early c ((step c s i).pc i))
    (j : ι) : Early c ((step c s i).pc j) := by
  by_cases hj : j = i
  · subst hj
    exact hpc
  · rw [step, pc_threadStep_of_ne _ _ hj]
    exact h j

/-- The step that switches the tag: from then on the word has to show what is set. -/
theorem inv_switch (h : Inv c s) (hgen : s.mem.gen ≠ c.gen) {i : ι} (hi : s.pc i = .swap s.mem.gen)
    (hbits : s.mem.bits = 0#64) : Inv c (step c s i) := by
  obtain ⟨-, hearly⟩ := h.before hgen
  have hstep := access_swap_of_ne (c.bitOf i) hgen
  have hmem : (step c s i).mem = ⟨c.gen, 0#64⟩ := by
    rw [step, threadStep, hi, hstep, hbits]
  have hpc : (step c s i).pc i = .clear := by
    rw [step, pc_threadStep_self, hi, hstep]
  constructor
  · intro hne
    rw [hmem] at hne
    exact absurd rfl hne
  · intro _ bit _
    rw [hmem]
    refine iff_of_false (by simp) ?_
    intro hsome
    rcases hsome with ⟨j, hj, -⟩
    by_cases hij : j = i
    · subst hij
      rw [hpc] at hj
      cases hj
    · rw [step, pc_threadStep_of_ne _ _ hij] at hj
      exact not_returned_of_early c (hearly j) hj

theorem inv_step_before (h : Inv c s) (hgen : s.mem.gen ≠ c.gen) (i : ι)
    (hharmless : Harmless c s i) : Inv c (step c s i) := by
  obtain ⟨hstale, hearly⟩ := h.before hgen
  have hi := hearly i
  have hkeep : (step c s i).mem = s.mem → Early c ((step c s i).pc i) → Inv c (step c s i) := by
    intro hmem hpc
    refine ⟨fun _ => ⟨hmem.trans hstale, early_of_step hearly hpc⟩, fun heq => ?_⟩
    rw [hmem] at heq
    exact absurd heq hgen
  cases hpc : s.pc i with
  | readGen =>
    apply hkeep
    · simp [step, threadStep, hpc, access]
    · simp [step, threadStep, hpc, access, hgen, Early]
  | readExpected =>
    apply hkeep
    · simp [step, threadStep, hpc, access]
    · simp [step, threadStep, hpc, access, Early, hstale]
  | swap expected =>
    rw [hpc] at hi
    have heq : expected = s.mem.gen := by
      rw [hstale]
      exact hi
    subst heq
    have hbits : s.mem.bits = 0#64 := by
      unfold Harmless at hharmless
      rw [hpc] at hharmless
      exact hharmless rfl hgen
    exact inv_switch h hgen hpc hbits
  | clear => simp [hpc, Early] at hi
  | setBit => simp [hpc, Early] at hi
  | returned => simp [hpc, Early] at hi

theorem inv_step_after (h : Inv c s) (hgen : s.mem.gen = c.gen) (i : ι)
    (hharmless : Harmless c s i) : Inv c (step c s i) := by
  have hshows := h.after hgen
  have hkeep : (step c s i).mem.gen = c.gen → ShowsReturned c (step c s i) →
      Inv c (step c s i) := fun heq hnext => ⟨fun hne => absurd heq hne, fun _ => hnext⟩
  cases hpc : s.pc i with
  | readGen =>
    have hmem : (step c s i).mem = s.mem := by simp [step, threadStep, hpc, access]
    apply hkeep (hmem ▸ hgen)
    apply hshows.of_pc (by simp [hpc]) hmem
    simp [step, threadStep, hpc, access, hgen]
  | readExpected =>
    have hmem : (step c s i).mem = s.mem := by simp [step, threadStep, hpc, access]
    apply hkeep (hmem ▸ hgen)
    apply hshows.of_pc (by simp [hpc]) hmem
    simp [step, threadStep, hpc, access]
  | swap expected =>
    have hstep := access_swap_of_eq (c.bitOf i) hgen expected
    have hmem : (step c s i).mem = s.mem := by rw [step, threadStep, hpc, hstep]
    apply hkeep (hmem ▸ hgen)
    apply hshows.of_pc (by simp [hpc]) hmem
    rw [step, pc_threadStep_self, hpc, hstep]
    simp
  | clear =>
    have hnone : ∀ j, s.pc j ≠ .returned := by
      unfold Harmless at hharmless
      rwa [hpc] at hharmless
    apply hkeep
    · simp [step, threadStep, hpc, access, hgen]
    · exact ShowsReturned.clear hnone hpc
  | setBit =>
    apply hkeep
    · simp [step, threadStep, hpc, access, hgen]
    · exact hshows.setBit hpc
  | returned =>
    have hsame : step c s i = s := by
      rw [step, threadStep, hpc]
      show (⟨s.mem, Function.update s.pc i .returned⟩ : Threads ι BloomWord Pc) = s
      rw [← hpc, Function.update_eq_self]
    rw [hsame]
    exact h

theorem not_exact_of_switch (h : Inv c s) (hgen : s.mem.gen ≠ c.gen) {i : ι}
    (hpc : s.pc i = .swap s.mem.gen) (hbits : s.mem.bits ≠ 0#64) : ¬Exact c (step c s i) := by
  intro hexact
  have hstep := access_swap_of_ne (c.bitOf i) hgen
  obtain ⟨bit, hword, hset⟩ := exists_bit_of_ne_zero c i hbits
  have htest : testWord bit c.gen (some (step c s i).mem) = true := by
    rw [testWord_iff, step, threadStep, hpc, hstep]
    exact ⟨rfl, hset⟩
  obtain ⟨j, hj, -⟩ := hexact.sound bit hword htest
  by_cases hij : j = i
  · subst hij
    rw [step, pc_threadStep_self, hpc, hstep] at hj
    cases hj
  · rw [step, pc_threadStep_of_ne _ _ hij] at hj
    exact not_returned_of_early c ((h.before hgen).2 j) hj

theorem not_exact_of_clear {i j : ι} (hpc : s.pc i = .clear) (hj : s.pc j = .returned) :
    ¬Exact c (step c s i) := by
  intro hexact
  have hij : j ≠ i := by
    intro heq
    rw [heq, hpc] at hj
    cases hj
  have hreturned : (step c s i).pc j = .returned := by
    rw [step, pc_threadStep_of_ne _ _ hij]
    exact hj
  have htest := hexact.seen j hreturned
  rw [testWord_iff, step, threadStep, hpc] at htest
  simp [access] at htest

/-- After a harmful step an old bit shows, or a bit that was set does not. -/
theorem not_exact_of_harmful (h : Inv c s) {i : ι} (hharmful : ¬Harmless c s i) :
    ¬Exact c (step c s i) := by
  cases hpc : s.pc i with
  | swap expected =>
    simp only [Harmless, hpc, Classical.not_imp] at hharmful
    obtain ⟨heq, hgen, hbits⟩ := hharmful
    subst heq
    exact not_exact_of_switch h hgen hpc hbits
  | clear =>
    simp only [Harmless, hpc, not_forall, not_not] at hharmful
    obtain ⟨j, hj⟩ := hharmful
    exact not_exact_of_clear hpc hj
  | readGen => simp [Harmless, hpc] at hharmful
  | readExpected => simp [Harmless, hpc] at hharmful
  | setBit => simp [Harmless, hpc] at hharmful
  | returned => simp [Harmless, hpc] at hharmful

/-- Whatever the order of the accesses, the word is exact all the time if and
only if every step is harmless. -/
theorem exact_iff_harmless (sched : List ι) :
    Throughout (step c) (Exact c) (start c) sched ↔
      Meets (step c) (Harmless c) (start c) sched :=
  throughout_iff_meets (inv_start c)
    (fun s i h hharmless => by
      by_cases hgen : s.mem.gen = c.gen
      · exact inv_step_after h hgen i hharmless
      · exact inv_step_before h hgen i hharmless)
    (fun _ => exact_of_inv) (fun _ _ h => not_exact_of_harmful h) sched

/-- Two calls for bits 0 and 1 of a word that generation 1 left without bits. -/
def twoCalls : Calls (Fin 2) where
  gen := 2#64
  word := 0#32
  bitOf := fun i => BitVec.ofNat 32 i.val
  sameWord := by decide
  stale := ⟨1#64, 0#64⟩
  older := by decide

/-- Call `j` comes between the switch of the tag by call `i` and its clear. -/
def overtaken {ι : Type*} (i j : ι) : List ι := [i, i, i, j, j, i]

theorem overtaken_loses_bit :
    (run (step twoCalls) (start twoCalls) (overtaken 0 1)).pc 1 = .returned ∧
      testWord 1#32 2#64 (some (run (step twoCalls) (start twoCalls) (overtaken 0 1)).mem) =
        false ∧
      ¬Throughout (step twoCalls) (Exact twoCalls) (start twoCalls) (overtaken 0 1) := by
  have hreturned : (run (step twoCalls) (start twoCalls) (overtaken 0 1)).pc 1 = .returned := by
    decide
  have hlost : testWord 1#32 2#64
      (some (run (step twoCalls) (start twoCalls) (overtaken 0 1)).mem) = false := by
    decide
  refine ⟨hreturned, hlost, ?_⟩
  intro hexact
  have hseen := hexact.last.seen 1 hreturned
  rw [show twoCalls.bitOf 1 = 1#32 from rfl, show twoCalls.gen = 2#64 from rfl, hlost] at hseen
  cases hseen

/-- A switch that finds an old bit shows it under the new tag, even to one call alone. -/
def staleCall : Calls (Fin 1) where
  gen := 2#64
  word := 0#32
  bitOf := fun _ => 0#32
  sameWord := by decide
  stale := ⟨1#64, 32#64⟩
  older := by decide

example : testWord 5#32 2#64 (some (run (step staleCall) (start staleCall) [0, 0, 0]).mem) = true :=
  by decide

end PacketLoss.ConcurrentSetBit
