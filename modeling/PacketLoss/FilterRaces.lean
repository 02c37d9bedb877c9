import Mathlib.Data.Fintype.Basic
import PacketLoss.ConcurrentFilter

/-!
What the races of the filter can do. Calls are prompt if the generation moves on at most
once while a call is under way. Then the calls that write one word at one time write it
for one generation, and it is a matter of the moments between the switch of a word's tag
and the store that clears it: a call that reads the word in such a moment can see old
bits, and a bit that is set in such a moment can be lost. Without either, a flagged
packet has had its bits set by other packets of about its own generation, and a repeated
packet is flagged.
-/
namespace PacketLoss.FilterRaces

open Machine BloomFilter BloomRefinement Schedules ConcurrentFilter

/-- The generation of a call that has read it and has not returned. -/
def activeGen : Pc → Option U64
  | .readTag curGen _ _ _ | .readBits curGen _ _ _ | .setting curGen _ _ _ => some curGen
  | _ => none

/-- The generation in which a call has set its bit `n`. -/
def setGen : Pc → Fin 3 → Option U64
  | .setting curGen n' _ _, n => if n < n' then some curGen else none
  | .returned curGen _, _ => some curGen
  | _, _ => none

/-- The word that the next access of a call clears. -/
def clearSlot (c : Call) : Pc → Option (Fin (2 * bloomWords))
  | .setting curGen n _ .clear => some (c.slot n curGen)
  | _ => none

/-- The word whose bits the next access of a call reads. -/
def readSlot (c : Call) : Pc → Option (Fin (2 * bloomWords))
  | .readBits curGen n prev _ => some (c.slot n (testedGen curGen prev))
  | _ => none

/-- The same generation or a neighbouring one. -/
def Near (gen gen' : U64) : Prop := gen = gen' ∨ gen = gen' + 1#64 ∨ gen' = gen + 1#64

theorem Near.eq_of_parity {gen gen' : U64} (h : Near gen gen')
    (hparity : gen.toNat % 2 = gen'.toNat % 2) : gen = gen' := by
  rcases h with heq | heq | heq
  · exact heq
  · subst heq
    exact absurd hparity (by bv_omega)
  · subst heq
    exact absurd hparity (by bv_omega)

theorem near_testedGen (curGen : U64) (prev : Bool) : Near (testedGen curGen prev) curGen := by
  cases prev with
  | false => exact Or.inl rfl
  | true =>
    refine Or.inr (Or.inr ?_)
    rw [testedGen, if_pos rfl, BitVec.sub_add_cancel]

theorem parity_of_slot_eq {c c' : Call} {n n' : Fin 3} {gen gen' : U64}
    (h : c.slot n gen = c'.slot n' gen') : gen.toNat % 2 = gen'.toNat % 2 := by
  by_contra hne
  exact place_ne_of_parity_ne hne _ _ h

/-- Bits of one word at the same place in it are the same bit. -/
theorem bit_eq_of_slot_eq {c c' : Call} {n n' : Fin 3} {gen gen' : U64}
    (hslot : c.slot n gen = c'.slot n' gen')
    (hmod : (c.bit n).toNat % 64 = (c'.bit n').toNat % 64) : c.bit n = c'.bit n' := by
  have hparity := parity_of_slot_eq hslot
  have hval := congrArg Fin.val hslot
  simp only [Call.slot, place, wordOf, hparity] at hval
  apply BitVec.eq_of_toNat_eq
  omega

variable {ι : Type*} {calls : ι → Call} {s : Threads ι Bloom Pc}

/-- The generation has moved on at most once since a call under way has read it. -/
def Prompt (s : Threads ι Bloom Pc) : Prop :=
  ∀ i, ∀ gen ∈ activeGen (s.pc i),
    (epochState s.mem).gen = gen ∨ (epochState s.mem).gen = gen + 1#64

theorem Prompt.near (h : Prompt s) {i j : ι} {gen gen' : U64} (hi : gen ∈ activeGen (s.pc i))
    (hj : gen' ∈ activeGen (s.pc j)) : Near gen gen' := by
  rcases h i gen hi with heq | heq <;> rcases h j gen' hj with heq' | heq' <;> rw [heq] at heq'
  · exact Or.inl heq'
  · exact Or.inr (Or.inl heq')
  · exact Or.inr (Or.inr heq'.symm)
  · exact Or.inl (by bv_omega)

variable (calls) in
/-- Some call has switched the tag of the word and is about to clear it. -/
def Clearing (s : Threads ι Bloom Pc) (x : Fin (2 * bloomWords)) : Prop :=
  ∃ i, clearSlot (calls i) (s.pc i) = some x

variable (calls) in
/-- The call has set the bit in the generation. -/
def HasSet (s : Threads ι Bloom Pc) (i : ι) (bit : U32) (gen : U64) : Prop :=
  ∃ n, (calls i).bit n = bit ∧ setGen (s.pc i) n = some gen

/-! What one step does to a word and to its call. -/

variable [DecidableEq ι]

theorem setGen_afterSet (curGen : U64) (n n' : Fin 3) (seen : Bool) :
    setGen (afterSet curGen n seen) n' = if n' ≤ n then some curGen else none := by
  unfold afterSet
  split
  next h =>
    have hiff : n' < ⟨n.val + 1, h⟩ ↔ n' ≤ n := by
      show n'.val < n.val + 1 ↔ n'.val ≤ n.val
      omega
    simp only [setGen, hiff]
  next h =>
    have hle : n' ≤ n := by
      rw [Fin.le_def]
      omega
    rw [if_pos hle]
    rfl

theorem setGen_afterTest (curGen : U64) (n n' : Fin 3) (prev seen hit : Bool) :
    setGen (afterTest curGen n prev seen hit) n' = none := by
  unfold afterTest
  split
  · rfl
  · split
    · rfl
    · simp [setGen]

theorem setGen_setBit (c : Call) (m : Bloom) (curGen : U64) (n : Fin 3) (seen : Bool) :
    setGen (access c m (.setting curGen n seen .setBit)).2 n = some curGen := by
  rw [access_setting]
  simp only [ConcurrentSetBit.access, if_true, setGen_afterSet, le_refl]

/-- A bit that is set is never unset by its call. -/
theorem setGen_access {c : Call} {m : Bloom} {pc : Pc} {n : Fin 3} {gen : U64}
    (h : setGen pc n = some gen) : setGen (access c m pc).2 n = some gen := by
  cases pc with
  | rolling pc => cases h
  | readGen => cases h
  | readTag curGen n' prev seen => cases h
  | readBits curGen n' prev seen => cases h
  | notAsked => cases h
  | returned curGen seen => exact h
  | setting curGen n' seen pc =>
    rw [access_setting]
    by_cases hreturned : (ConcurrentSetBit.access (c.bit n') curGen
        (m.bits (c.slot n' curGen)) pc).2 = .returned
    · simp only [if_pos hreturned, setGen_afterSet]
      simp only [setGen] at h
      split at h
      next hlt => rw [if_pos (le_of_lt hlt), h]
      next => cases h
    · simp only [if_neg hreturned]
      exact h

theorem HasSet.step {i j : ι} {bit : U32} {gen : U64} (h : HasSet calls s j bit gen) :
    HasSet calls (step calls s i) j bit gen := by
  obtain ⟨n, hbit, hset⟩ := h
  refine ⟨n, hbit, ?_⟩
  by_cases hj : j = i
  · subst hj
    rw [pc_step_self]
    exact setGen_access hset
  · rwa [pc_step_of_ne hj]

/-- What a step does to a word: nothing, or the next access of a call that sets a bit. -/
theorem bits_step (i : ι) (x : Fin (2 * bloomWords)) :
    (step calls s i).mem.bits x = s.mem.bits x ∨
      ∃ curGen n seen pc, s.pc i = .setting curGen n seen pc ∧ (calls i).slot n curGen = x ∧
        (step calls s i).mem.bits x =
          (ConcurrentSetBit.access ((calls i).bit n) curGen (s.mem.bits x) pc).1 := by
  rw [mem_step]
  cases hpc : s.pc i with
  | rolling pc =>
    rw [access_rolling]
    exact Or.inl rfl
  | readGen =>
    rw [access_readGen]
    exact Or.inl rfl
  | readTag curGen n prev seen =>
    rw [access_readTag]
    exact Or.inl rfl
  | readBits curGen n prev seen =>
    rw [access_readBits]
    exact Or.inl rfl
  | notAsked => exact Or.inl rfl
  | returned curGen seen => exact Or.inl rfl
  | setting curGen n seen pc =>
    rw [access_setting]
    by_cases hx : (calls i).slot n curGen = x
    · refine Or.inr ⟨curGen, n, seen, pc, rfl, hx, ?_⟩
      rw [hx]
      exact Function.update_self _ _ _
    · exact Or.inl (Function.update_of_ne (fun heq => hx heq.symm) _ _)

theorem gen_access (bit : U32) (gen : U64) (w : BloomWord) (pc : ConcurrentSetBit.Pc) :
    (ConcurrentSetBit.access bit gen w pc).1.gen = w.gen ∨
      w.gen ≠ gen ∧ (ConcurrentSetBit.access bit gen w pc).1.gen = gen ∧
        (ConcurrentSetBit.access bit gen w pc).2 = .clear := by
  cases pc with
  | swap expected =>
    by_cases hgen : w.gen = gen
    · rw [ConcurrentSetBit.access_swap_of_eq bit hgen]
      exact Or.inl rfl
    · by_cases heq : w.gen = expected
      · rw [← heq, ConcurrentSetBit.access_swap_of_ne bit hgen]
        exact Or.inr ⟨hgen, rfl, rfl⟩
      · simp [ConcurrentSetBit.access, syncValCompareAndSwap, heq]
  | readGen => exact Or.inl rfl
  | readExpected => exact Or.inl rfl
  | clear => exact Or.inl rfl
  | setBit => exact Or.inl rfl
  | returned => exact Or.inl rfl

/-- A bit of the word is new only if the call sets it. -/
theorem bits_access {bit : U32} {gen : U64} {w : BloomWord} {pc : ConcurrentSetBit.Pc} {p : ℕ}
    (h : (ConcurrentSetBit.access bit gen w pc).1.bits.getLsbD p = true) :
    w.bits.getLsbD p = true ∨ pc = .setBit ∧ p = bit.toNat % 64 := by
  cases pc with
  | setBit =>
    simp only [ConcurrentSetBit.access, BitVec.getLsbD_or, Bool.or_eq_true, wordMask_eq,
      BitVec.getLsbD_twoPow, Bool.and_eq_true, decide_eq_true_eq] at h
    exact h.imp id fun h => ⟨rfl, h.2.symm⟩
  | clear => simp [ConcurrentSetBit.access] at h
  | readGen => exact Or.inl h
  | readExpected => exact Or.inl h
  | swap expected => exact Or.inl h
  | returned => exact Or.inl h

theorem activeGen_of_clearSlot {c : Call} {pc : Pc} {x : Fin (2 * bloomWords)}
    (h : clearSlot c pc = some x) :
    ∃ curGen n seen, pc = .setting curGen n seen .clear ∧ c.slot n curGen = x := by
  unfold clearSlot at h
  split at h
  next curGen n seen => exact ⟨curGen, n, seen, rfl, Option.some.inj h⟩
  next => cases h

/-- A tag changes only when a call switches it, which then is about to clear the word. -/
theorem tag_step (i : ι) (x : Fin (2 * bloomWords)) :
    ((step calls s i).mem.bits x).gen = (s.mem.bits x).gen ∨
      ∃ curGen n seen pc, s.pc i = .setting curGen n seen pc ∧ (calls i).slot n curGen = x ∧
        (s.mem.bits x).gen ≠ curGen ∧ ((step calls s i).mem.bits x).gen = curGen ∧
          clearSlot (calls i) ((step calls s i).pc i) = some x := by
  rcases bits_step i x with hsame | ⟨curGen, n, seen, pc, hpc, hx, hbits⟩
  · exact Or.inl (congrArg BloomWord.gen hsame)
  · rw [hbits]
    rcases gen_access ((calls i).bit n) curGen (s.mem.bits x) pc with hsame | ⟨hne, hgen, hclear⟩
    · exact Or.inl hsame
    · refine Or.inr ⟨curGen, n, seen, pc, hpc, hx, hne, hgen, ?_⟩
      rw [pc_step_self, hpc, access_setting, hx, hclear, if_neg (by simp)]
      exact congrArg some hx

/-- A word is about to be cleared until it is cleared. -/
theorem Clearing.step {x : Fin (2 * bloomWords)} (h : Clearing calls s x) (i : ι) :
    Clearing calls (step calls s i) x ∨ ((step calls s i).mem.bits x).bits = 0#64 := by
  obtain ⟨j, hj⟩ := h
  by_cases hij : j = i
  · subst hij
    obtain ⟨curGen, n, seen, hpc, hx⟩ := activeGen_of_clearSlot hj
    refine Or.inr ?_
    rw [mem_step, hpc, access_setting, hx]
    simp [setSlot, ConcurrentSetBit.access]
  · refine Or.inl ⟨j, ?_⟩
    rwa [pc_step_of_ne hij]

/-- What a call under way relies on about the tag of its word. -/
def Tagged (c : Call) (m : Bloom) : Pc → Prop
  | .setting curGen n _ (.swap expected) =>
    (m.bits (c.slot n curGen)).gen = expected ∨ (m.bits (c.slot n curGen)).gen = curGen
  | .setting curGen n _ .clear => (m.bits (c.slot n curGen)).gen = curGen
  | .setting curGen n _ .setBit => (m.bits (c.slot n curGen)).gen = curGen
  | .setting _ _ _ .returned => False
  | .readBits curGen n prev _ => Near (m.bits (c.slot n (testedGen curGen prev))).gen curGen
  | _ => True

/-- The other calls keep it: they switch the tag to their own generation only, and that
of a call which sets bits of the same word is the same. -/
theorem tagged_of_other (hprompt : Prompt s) (i j : ι) (h : Tagged (calls j) s.mem (s.pc j)) :
    Tagged (calls j) (step calls s i).mem (s.pc j) := by
  have hkeep : ∀ (n : Fin 3) (gen curGen : U64), curGen ∈ activeGen (s.pc j) →
      ((step calls s i).mem.bits ((calls j).slot n gen)).gen =
          (s.mem.bits ((calls j).slot n gen)).gen ∨
        Near ((step calls s i).mem.bits ((calls j).slot n gen)).gen curGen ∧
          (gen = curGen → ((step calls s i).mem.bits ((calls j).slot n gen)).gen = curGen) := by
    intro n gen curGen hactive
    rcases tag_step i ((calls j).slot n gen) with
      hsame | ⟨curGen', n', seen, pc, hpc, hx, -, hgen, -⟩
    · exact Or.inl hsame
    · have hnear : Near curGen' curGen := hprompt.near (by rw [hpc]; rfl) hactive
      rw [hgen]
      refine Or.inr ⟨hnear, ?_⟩
      rintro rfl
      exact hnear.eq_of_parity (parity_of_slot_eq hx)
  cases hpc : s.pc j with
  | readBits curGen n prev seen =>
    rw [hpc] at h
    simp only [Tagged] at h ⊢
    rcases hkeep n (testedGen curGen prev) curGen (by rw [hpc]; rfl) with hsame | ⟨hnear, -⟩
    · rwa [hsame]
    · exact hnear
  | setting curGen n seen pc =>
    rw [hpc] at h
    have hown := hkeep n curGen curGen (by rw [hpc]; rfl)
    cases pc with
    | swap expected =>
      simp only [Tagged] at h ⊢
      rcases hown with hsame | ⟨-, hgen⟩
      · rwa [hsame]
      · exact Or.inr (hgen rfl)
    | clear =>
      simp only [Tagged] at h ⊢
      rcases hown with hsame | ⟨-, hgen⟩
      · rwa [hsame]
      · exact hgen rfl
    | setBit =>
      simp only [Tagged] at h ⊢
      rcases hown with hsame | ⟨-, hgen⟩
      · rwa [hsame]
      · exact hgen rfl
    | readGen => trivial
    | readExpected => trivial
    | returned => exact h
  | rolling pc => trivial
  | readGen => trivial
  | readTag curGen n prev seen => trivial
  | notAsked => trivial
  | returned curGen seen => trivial

theorem tagged_afterTest (c : Call) (m : Bloom) (curGen : U64) (n : Fin 3)
    (prev seen hit : Bool) : Tagged c m (afterTest curGen n prev seen hit) := by
  unfold afterTest
  split
  · trivial
  · split
    · trivial
    · trivial

theorem tagged_afterSet (c : Call) (m : Bloom) (curGen : U64) (n : Fin 3) (seen : Bool) :
    Tagged c m (afterSet curGen n seen) := by
  unfold afterSet
  split
  · trivial
  · trivial

theorem tagged_afterRoll (c c' : Call) (m : Bloom) : Tagged c m (afterRoll c') := by
  unfold afterRoll
  split
  · trivial
  · trivial

/-- The call itself makes it so. -/
theorem tagged_access {c : Call} {m : Bloom} {pc : Pc} (h : Tagged c m pc) :
    Tagged c (access c m pc).1 (access c m pc).2 := by
  cases pc with
  | rolling pc =>
    rw [access_rolling]
    split
    · exact tagged_afterRoll _ _ _
    · trivial
  | readGen =>
    rw [access_readGen]
    trivial
  | readTag curGen n prev seen =>
    rw [access_readTag]
    split
    · exact tagged_afterTest _ _ _ _ _ _ _
    next hgen =>
      simp only [Tagged, not_not.mp hgen]
      exact near_testedGen curGen prev
  | readBits curGen n prev seen =>
    rw [access_readBits]
    exact tagged_afterTest _ _ _ _ _ _ _
  | notAsked => trivial
  | returned curGen seen => trivial
  | setting curGen n seen pc =>
    rw [access_setting]
    generalize hx : c.slot n curGen = x
    have hself : ∀ w, (setSlot m x w).bits x = w := fun w => Function.update_self _ _ _
    cases pc with
    | readGen =>
      by_cases hgen : (m.bits x).gen = curGen
      · simp [ConcurrentSetBit.access, Tagged, hgen, hx, hself]
      · simp [ConcurrentSetBit.access, Tagged, hgen]
    | readExpected => simp [ConcurrentSetBit.access, Tagged, hx, hself]
    | swap expected =>
      simp only [Tagged, hx] at h
      by_cases hgen : (m.bits x).gen = curGen
      · simpa [ConcurrentSetBit.access_swap_of_eq _ hgen, Tagged, hx, hself] using hgen
      · have heq : (m.bits x).gen = expected := h.resolve_right hgen
        rw [← heq, ConcurrentSetBit.access_swap_of_ne _ hgen]
        simp [Tagged, hx, hself]
    | clear =>
      simp only [Tagged, hx] at h
      simpa [ConcurrentSetBit.access, Tagged, hx, hself] using h
    | setBit =>
      simp only [ConcurrentSetBit.access, if_true]
      exact tagged_afterSet _ _ _ _ _
    | returned => exact h.elim

variable (calls) in
def AllTagged (s : Threads ι Bloom Pc) : Prop := ∀ i, Tagged (calls i) s.mem (s.pc i)

theorem AllTagged.step (h : AllTagged calls s) (hprompt : Prompt s) (i : ι) :
    AllTagged calls (step calls s i) := by
  intro j
  by_cases hj : j = i
  · subst hj
    rw [pc_step_self]
    exact tagged_access (h j)
  · rw [pc_step_of_ne hj]
    exact tagged_of_other hprompt i j (h j)

/-! What is seen has been set. -/

variable (calls) in
/-- A bit that a word shows was set in the generation of the word's tag, or the word is
about to be cleared. -/
def Backed (s : Threads ι Bloom Pc) : Prop :=
  ∀ (c : Call) (n : Fin 3) (gen : U64),
    (s.mem.bits (c.slot n gen)).bits.getLsbD ((c.bit n).toNat % 64) = true →
      (∃ i, HasSet calls s i (c.bit n) (s.mem.bits (c.slot n gen)).gen) ∨
        Clearing calls s (c.slot n gen)

theorem backed_step (h : Backed calls s) (htagged : AllTagged calls s) (i : ι) :
    Backed calls (step calls s i) := by
  intro c n gen hbit
  generalize hx : c.slot n gen = x at hbit ⊢
  -- A bit that was there before is still backed.
  have hbefore : (s.mem.bits x).bits.getLsbD ((c.bit n).toNat % 64) = true →
      (∃ i', HasSet calls (step calls s i) i' (c.bit n) ((step calls s i).mem.bits x).gen) ∨
        Clearing calls (step calls s i) x := by
    intro hold
    have hback := h c n gen
    rw [hx] at hback
    rcases hback hold with ⟨j, hset⟩ | hclearing
    · rcases tag_step i x with hsame | ⟨-, -, -, -, -, -, -, -, hclear⟩
      · rw [hsame]
        exact Or.inl ⟨j, hset.step⟩
      · exact Or.inr ⟨i, hclear⟩
    · rcases hclearing.step i with hstill | hzero
      · exact Or.inr hstill
      · rw [hzero] at hbit
        simp at hbit
  rcases bits_step i x with hsame | ⟨curGen, n', seen, pc, hpc, hslot, haccess⟩
  · rw [hsame] at hbit
    exact hbefore hbit
  · have hbits := hbit
    rw [haccess] at hbits
    rcases bits_access hbits with hold | ⟨rfl, hmod⟩
    · exact hbefore hold
    · -- The call has set it, and the tag is that of its own generation.
      have htag := htagged i
      rw [hpc] at htag
      simp only [Tagged, hslot] at htag
      have hgen : ((step calls s i).mem.bits x).gen = curGen := by
        rw [haccess]
        exact htag
      refine Or.inl ⟨i, n', (bit_eq_of_slot_eq (hx.trans hslot.symm) hmod).symm, ?_⟩
      rw [hgen, pc_step_self, hpc]
      exact setGen_setBit _ _ _ _ _

variable (calls) in
/-- Another call has set bit `n` of this one, in this generation or a neighbouring one. -/
def SetByOther (s : Threads ι Bloom Pc) (i : ι) (curGen : U64) (n : Fin 3) : Prop :=
  ∃ j, j ≠ i ∧ ∃ gen, Near gen curGen ∧ HasSet calls s j ((calls i).bit n) gen

variable (calls) in
/-- What a call has seen so far has been set by others. -/
def SeenSet (s : Threads ι Bloom Pc) (i : ι) : Pc → Prop
  | .readTag curGen n _ seen => seen = true → ∀ n' < n, SetByOther calls s i curGen n'
  | .readBits curGen n _ seen => seen = true → ∀ n' < n, SetByOther calls s i curGen n'
  | .setting curGen _ seen _ => seen = true → ∀ n, SetByOther calls s i curGen n
  | .returned curGen seen => seen = true → ∀ n, SetByOther calls s i curGen n
  | _ => True

theorem SetByOther.step {i : ι} {curGen : U64} {n : Fin 3} (h : SetByOther calls s i curGen n)
    (a : ι) : SetByOther calls (step calls s a) i curGen n := by
  obtain ⟨j, hne, gen, hnear, hset⟩ := h
  exact ⟨j, hne, gen, hnear, hset.step⟩

theorem SeenSet.step {i : ι} {pc : Pc} (h : SeenSet calls s i pc) (a : ι) :
    SeenSet calls (step calls s a) i pc := by
  cases pc with
  | readTag curGen n prev seen => exact fun hseen n' hlt => (h hseen n' hlt).step a
  | readBits curGen n prev seen => exact fun hseen n' hlt => (h hseen n' hlt).step a
  | setting curGen n seen pc => exact fun hseen n' => (h hseen n').step a
  | returned curGen seen => exact fun hseen n' => (h hseen n').step a
  | rolling pc => trivial
  | readGen => trivial
  | notAsked => trivial

omit [DecidableEq ι] in
theorem seenSet_afterTest {i : ι} {curGen : U64} {n : Fin 3} {prev seen hit : Bool}
    (h : seen = true → ∀ n' < n, SetByOther calls s i curGen n')
    (hhit : hit = true → SetByOther calls s i curGen n) :
    SeenSet calls s i (afterTest curGen n prev seen hit) := by
  unfold afterTest
  split
  · exact h
  · have hboth : (seen && hit) = true → ∀ n' ≤ n, SetByOther calls s i curGen n' := by
      intro hand n' hle
      rw [Bool.and_eq_true] at hand
      rcases lt_or_eq_of_le hle with hlt | rfl
      · exact h hand.1 n' hlt
      · exact hhit hand.2
    split
    next hlast =>
      intro hand n' hlt
      apply hboth hand
      rw [Fin.lt_def] at hlt
      rw [Fin.le_def]
      exact Nat.le_of_lt_succ hlt
    next hlast =>
      intro hand n'
      apply hboth hand
      rw [Fin.le_def]
      omega

omit [DecidableEq ι] in
theorem seenSet_afterSet {i : ι} {curGen : U64} {n : Fin 3} {seen : Bool}
    (h : seen = true → ∀ n, SetByOther calls s i curGen n) :
    SeenSet calls s i (afterSet curGen n seen) := by
  unfold afterSet
  split
  · exact h
  · exact h

variable (calls) in
/-- Calls are prompt, and the bits that are read are not those of a word which another
call is about to clear. -/
def ReadsSettled (s : Threads ι Bloom Pc) (i : ι) : Prop :=
  Prompt s ∧ ∀ x ∈ readSlot (calls i) (s.pc i), ¬Clearing calls s x

omit [DecidableEq ι] in
theorem seenSet_access {i : ι} (h : SeenSet calls s i (s.pc i)) (hbacked : Backed calls s)
    (htagged : AllTagged calls s) (hsettled : ReadsSettled calls s i) :
    SeenSet calls s i (access (calls i) s.mem (s.pc i)).2 := by
  cases hpc : s.pc i with
  | rolling pc =>
    rw [access_rolling]
    simp only
    split
    · unfold afterRoll
      split
      · trivial
      · trivial
    · trivial
  | readGen =>
    rw [access_readGen]
    exact fun _ n' hlt => absurd hlt (Fin.not_lt_zero n')
  | readTag curGen n prev seen =>
    rw [hpc] at h
    rw [access_readTag]
    simp only
    split
    · exact seenSet_afterTest h fun hit => absurd hit (by simp)
    · exact h
  | readBits curGen n prev seen =>
    have htag := htagged i
    rw [hpc] at h htag
    rw [access_readBits]
    apply seenSet_afterTest h
    intro hhit
    rcases hbacked (calls i) n _ hhit with ⟨j, hset⟩ | hclearing
    · refine ⟨j, ?_, _, htag, hset⟩
      rintro rfl
      obtain ⟨n', -, hset⟩ := hset
      rw [hpc] at hset
      cases hset
    · exact absurd hclearing (hsettled.2 _ (by rw [hpc]; rfl))
  | setting curGen n seen pc =>
    rw [hpc] at h
    rw [access_setting]
    simp only
    split
    · exact seenSet_afterSet h
    · exact h
  | notAsked => trivial
  | returned curGen seen =>
    rw [hpc] at h
    exact h

variable (calls) in
structure Sound (s : Threads ι Bloom Pc) : Prop where
  tagged : AllTagged calls s
  backed : Backed calls s
  seen : ∀ i, SeenSet calls s i (s.pc i)

omit [DecidableEq ι] in
theorem sound_start : Sound calls start where
  tagged := fun _ => trivial
  backed := by
    intro c n gen hbit
    have hzero : (Bloom.zeroed.bits (c.slot n gen)).bits = 0#64 := rfl
    rw [start, hzero] at hbit
    simp at hbit
  seen := fun _ => trivial

theorem Sound.step (h : Sound calls s) {i : ι} (hsettled : ReadsSettled calls s i) :
    Sound calls (step calls s i) where
  tagged := h.tagged.step hsettled.1 i
  backed := backed_step h.backed h.tagged i
  seen := by
    intro j
    by_cases hj : j = i
    · subst hj
      rw [pc_step_self]
      exact (seenSet_access (h.seen j) h.backed h.tagged hsettled).step j
    · rw [pc_step_of_ne hj]
      exact (h.seen j).step i

/-- Whatever the order of the accesses: if calls are prompt and no bits are read of a word
between the switch of its tag and its clearing, then a call finds only bits that other
calls have set in its own generation or a neighbouring one. -/
theorem flagged_bits_set_by_others {sched : List ι}
    (hmeets : Meets (step calls) (ReadsSettled calls) start sched) {i : ι} {k : BloomKey}
    (hkey : (calls i).key = some k) {curGen : U64}
    (hflagged : (run (step calls) start sched).pc i = .returned curGen true) :
    ∀ bit ∈ indices k, ∃ j, j ≠ i ∧ ∃ gen, Near gen curGen ∧
      HasSet calls (run (step calls) start sched) j bit gen := by
  have hsound : Sound calls (run (step calls) start sched) :=
    invariant_of_meets sound_start (fun _ _ h hsettled => h.step hsettled) hmeets
  intro bit hbit
  obtain ⟨n, rfl⟩ := mem_indices_iff.mp hbit
  have hseen := hsound.seen i
  rw [hflagged] at hseen
  have hset := hseen rfl n
  rwa [SetByOther, Call.bit, hkey] at hset

section Decidable

variable [Fintype ι]

instance decidablePrompt (s : Threads ι Bloom Pc) : Decidable (Prompt s) :=
  have (i : ι) := Option.decidableForallMem
    (p := fun gen => (epochState s.mem).gen = gen ∨ (epochState s.mem).gen = gen + 1#64)
    (activeGen (s.pc i))
  Fintype.decidableForallFintype

instance decidableClearing (s : Threads ι Bloom Pc) (x : Fin (2 * bloomWords)) :
    Decidable (Clearing calls s x) :=
  inferInstanceAs (Decidable (∃ i, clearSlot (calls i) (s.pc i) = some x))

instance decidableReadsSettled (s : Threads ι Bloom Pc) (i : ι) :
    Decidable (ReadsSettled calls s i) :=
  have := Option.decidableForallMem (p := fun x => ¬Clearing calls s x)
    (readSlot (calls i) (s.pc i))
  inferInstanceAs (Decidable (_ ∧ _))

end Decidable

/-- Two packets with one key. -/
def samePacket (second : Bool) : Call where
  now := BitVec.ofNat 64 (2000000000 + second.toNat)
  key := some ⟨1#32, 2#32, 3#16, 4#16, 5#32⟩

/-- The second begins while the first is under way. -/
def overlapping : List Bool :=
  List.replicate 10 false ++ [true, true] ++ List.replicate 20 false ++ List.replicate 13 true

theorem overlapping_flagged :
    (run (step samePacket) start overlapping).pc true = .returned 1#64 true ∧
      ∀ bit ∈ indices ⟨1#32, 2#32, 3#16, 4#16, 5#32⟩, ∃ j, j ≠ true ∧ ∃ gen, Near gen 1#64 ∧
        HasSet samePacket (run (step samePacket) start overlapping) j bit gen := by
  have hflagged : (run (step samePacket) start overlapping).pc true = .returned 1#64 true := by
    decide +kernel
  exact ⟨hflagged, flagged_bits_set_by_others (by decide +kernel) rfl hflagged⟩

end PacketLoss.FilterRaces
