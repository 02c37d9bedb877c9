import Mathlib.Data.Fintype.Option
import PacketLoss.FilterRaces

/-!
Repeated packets on several CPUs. A call that begins after another call with the same key
has returned finds all three bits, whatever other calls do meanwhile, if the generation
moves on at most once from the first call to the end of the second and no bit is set
between the switch of its word's tag and the clearing.
-/
namespace PacketLoss.ConcurrentRetrans

open Machine BloomFilter BloomRefinement Schedules ConcurrentFilter FilterRaces

/-- The generation of a call that has returned. -/
def returnedGen : Pc → Option U64
  | .returned curGen _ => some curGen
  | _ => none

/-- The generation of a call that has read it. -/
def readGen : Pc → Option U64
  | .returned curGen _ => some curGen
  | pc => activeGen pc

/-- The word in which the next access of a call sets a bit. -/
def writeSlot (c : Call) : Pc → Option (Fin (2 * bloomWords))
  | .setting curGen n _ .setBit => some (c.slot n curGen)
  | _ => none

variable {ι : Type*} {calls : ι → Call} {s : Threads ι Bloom Pc} {i j : ι}

variable (calls) in
/-- The step is that of a prompt call, sets no bit in a word that another call is about to
clear, and lets call `i` begin after call `j` has returned, and end before the generation
of `j` is more than one behind. -/
structure Settled (i j : ι) (s : Threads ι Bloom Pc) (a : ι) : Prop where
  prompt : Prompt s
  writes : ∀ x ∈ writeSlot (calls a) (s.pc a), ¬Clearing calls s x
  later : a = i → s.pc i = .readGen → (returnedGen (s.pc j)).isSome
  recent : returnedGen (s.pc i) = none → ∀ gen ∈ readGen (s.pc j),
    (epochState s.mem).gen = gen ∨ (epochState s.mem).gen = gen + 1#64

variable (calls) in
/-- The bit is in its word, under its generation, and nobody is about to clear it. -/
structure Lasting (s : Threads ι Bloom Pc) (c : Call) (n : Fin 3) (gen : U64) : Prop where
  tag : (s.mem.bits (c.slot n gen)).gen = gen
  bit : (s.mem.bits (c.slot n gen)).bits.getLsbD ((c.bit n).toNat % 64) = true
  settled : ¬Clearing calls s (c.slot n gen)

theorem access_bits_keep {bit : U32} {gen : U64} {w : BloomWord} {pc : ConcurrentSetBit.Pc}
    {p : ℕ} (hpc : pc ≠ .clear) (h : w.bits.getLsbD p = true) :
    (ConcurrentSetBit.access bit gen w pc).1.bits.getLsbD p = true := by
  cases pc with
  | setBit => simp [ConcurrentSetBit.access, h]
  | clear => exact absurd rfl hpc
  | readGen => exact h
  | readExpected => exact h
  | swap expected => exact h
  | returned => exact h

/-- A call is setting a bit because it was before, or it has just come to it. -/
theorem setting_of_access {c : Call} {m : Bloom} {pc : Pc} {curGen : U64} {n : Fin 3}
    {seen : Bool} {pc' : ConcurrentSetBit.Pc}
    (h : (access c m pc).2 = .setting curGen n seen pc') :
    pc' = .readGen ∨ ∃ pc₀, pc = .setting curGen n seen pc₀ ∧
      pc' = (ConcurrentSetBit.access (c.bit n) curGen (m.bits (c.slot n curGen)) pc₀).2 := by
  have hafterTest : ∀ curGen' n' prev seen' hit,
      afterTest curGen' n' prev seen' hit = .setting curGen n seen pc' → pc' = .readGen := by
    intro curGen' n' prev seen' hit heq
    unfold afterTest at heq
    split at heq
    · cases heq
    · split at heq
      · cases heq
      · cases heq
        rfl
  cases pc with
  | rolling pc =>
    rw [access_rolling] at h
    simp only [afterRoll] at h
    split at h
    · split at h <;> cases h
    · cases h
  | readGen =>
    rw [access_readGen] at h
    cases h
  | readTag curGen' n' prev seen' =>
    rw [access_readTag] at h
    simp only at h
    split at h
    · exact Or.inl (hafterTest _ _ _ _ _ h)
    · cases h
  | readBits curGen' n' prev seen' =>
    rw [access_readBits] at h
    exact Or.inl (hafterTest _ _ _ _ _ h)
  | notAsked => cases h
  | returned curGen' seen' => cases h
  | setting curGen' n' seen' pc₀ =>
    rw [access_setting] at h
    simp only at h
    split at h
    · unfold afterSet at h
      split at h
      · cases h
        exact Or.inl rfl
      · cases h
    · cases h
      exact Or.inr ⟨pc₀, rfl, rfl⟩

/-- The store that clears a word follows the switch of its tag. -/
theorem swap_of_clear {bit : U32} {gen : U64} {w : BloomWord} {pc : ConcurrentSetBit.Pc}
    (h : (ConcurrentSetBit.access bit gen w pc).2 = .clear) :
    ∃ expected, pc = .swap expected ∧ w.gen ≠ gen := by
  cases pc with
  | swap expected =>
    refine ⟨expected, rfl, fun hgen => ?_⟩
    rw [ConcurrentSetBit.access_swap_of_eq bit hgen] at h
    cases h
  | readGen =>
    simp only [ConcurrentSetBit.access] at h
    split at h <;> cases h
  | readExpected => cases h
  | clear => cases h
  | setBit => cases h
  | returned => cases h

/-- A call comes to clear a word by switching its tag. -/
theorem switched_of_clearSlot {c : Call} {m : Bloom} {pc : Pc} {x : Fin (2 * bloomWords)}
    (h : clearSlot c (access c m pc).2 = some x) :
    ∃ curGen n seen pc', pc = .setting curGen n seen pc' ∧ c.slot n curGen = x ∧
      (m.bits x).gen ≠ curGen := by
  obtain ⟨curGen, n, seen, hpc, rfl⟩ := activeGen_of_clearSlot h
  obtain hread | ⟨pc₀, rfl, hclear⟩ := setting_of_access hpc
  · cases hread
  · obtain ⟨expected, rfl, hne⟩ := swap_of_clear hclear.symm
    exact ⟨curGen, n, seen, _, rfl, rfl, hne⟩

/-- A call has a bit set because it had it before or by this access. -/
theorem setBit_of_setGen {c : Call} {m : Bloom} {pc : Pc} {n : Fin 3} {gen : U64}
    (htagged : Tagged c m pc) (h : setGen (access c m pc).2 n = some gen) :
    setGen pc n = some gen ∨ ∃ seen, pc = .setting gen n seen .setBit := by
  cases pc with
  | rolling pc =>
    rw [access_rolling] at h
    simp only [afterRoll] at h
    split at h
    · split at h <;> cases h
    · cases h
  | readGen =>
    rw [access_readGen] at h
    cases h
  | readTag curGen n' prev seen =>
    rw [access_readTag] at h
    simp only at h
    split at h
    · rw [setGen_afterTest] at h
      cases h
    · cases h
  | readBits curGen n' prev seen =>
    rw [access_readBits] at h
    simp only [setGen_afterTest] at h
    cases h
  | notAsked => cases h
  | returned curGen seen => exact Or.inl h
  | setting curGen n' seen pc =>
    by_cases hset : pc = .setBit
    · subst hset
      rw [access_setting] at h
      simp only [ConcurrentSetBit.access, if_true, setGen_afterSet] at h
      split at h
      next hle =>
        rcases lt_or_eq_of_le hle with hlt | rfl
        · refine Or.inl ?_
          rw [setGen, if_pos hlt]
          exact h
        · obtain rfl := Option.some.inj h
          exact Or.inr ⟨seen, rfl⟩
      next => cases h
    · refine Or.inl ?_
      rw [access_setting, if_neg] at h
      · exact h
      · cases pc with
        | setBit => exact absurd rfl hset
        | returned => exact htagged.elim
        | readGen =>
          by_cases hgen : (m.bits (c.slot n' curGen)).gen = curGen
          · simp [ConcurrentSetBit.access, hgen]
          · simp [ConcurrentSetBit.access, hgen]
        | readExpected => simp [ConcurrentSetBit.access]
        | swap expected =>
          simp only [ConcurrentSetBit.access]
          split <;> simp
        | clear => simp [ConcurrentSetBit.access]

variable [DecidableEq ι]

/-- As long as the generation is that of the bit or the next one, a step leaves the bit. -/
theorem Lasting.step {c : Call} {n : Fin 3} {gen : U64} (h : Lasting calls s c n gen)
    (hprompt : Prompt s)
    (hgen : (epochState s.mem).gen = gen ∨ (epochState s.mem).gen = gen + 1#64) (a : ι) :
    Lasting calls (step calls s a) c n gen := by
  -- A call that writes the word now writes it for the same generation.
  have hsame : ∀ curGen n' seen pc, s.pc a = .setting curGen n' seen pc →
      (calls a).slot n' curGen = c.slot n gen → curGen = gen := by
    intro curGen n' seen pc hpc hslot
    have hnear : Near curGen gen := by
      rcases hprompt a curGen (by rw [hpc]; rfl) with heq | heq <;>
        rcases hgen with heq' | heq' <;> rw [heq] at heq'
      · exact Or.inl heq'
      · exact Or.inr (Or.inl heq')
      · exact Or.inr (Or.inr heq'.symm)
      · exact Or.inl (by bv_omega)
    exact hnear.eq_of_parity (parity_of_slot_eq hslot)
  constructor
  · rcases tag_step a (c.slot n gen) with htag | ⟨curGen, n', seen, pc, hpc, hslot, hne, -, -⟩
    · rw [htag]
      exact h.tag
    · rw [hsame curGen n' seen pc hpc hslot] at hne
      exact absurd h.tag hne
  · rcases bits_step a (c.slot n gen) with hbits | ⟨curGen, n', seen, pc, hpc, hslot, hbits⟩
    · rw [hbits]
      exact h.bit
    · rw [hbits]
      apply access_bits_keep ?_ h.bit
      rintro rfl
      exact h.settled ⟨a, by rw [hpc, clearSlot, hslot]⟩
  · rintro ⟨b, hb⟩
    by_cases hba : b = a
    · subst hba
      rw [pc_step_self] at hb
      obtain ⟨curGen, n', seen, pc, hpc, hslot, hne⟩ := switched_of_clearSlot hb
      rw [hsame curGen n' seen pc hpc hslot] at hne
      exact hne h.tag
    · rw [pc_step_of_ne hba] at hb
      exact h.settled ⟨b, hb⟩

/-- A bit that is set while nobody is about to clear its word lasts. -/
theorem lasting_of_setBit (htagged : AllTagged calls s) {n : Fin 3} {gen : U64} {seen : Bool}
    (hpc : s.pc j = .setting gen n seen .setBit)
    (hwrites : ¬Clearing calls s ((calls j).slot n gen)) :
    Lasting calls (step calls s j) (calls j) n gen := by
  have htag := htagged j
  rw [hpc] at htag
  have hword : (step calls s j).mem.bits ((calls j).slot n gen) =
      ⟨(s.mem.bits ((calls j).slot n gen)).gen,
        (s.mem.bits ((calls j).slot n gen)).bits ||| wordMask ((calls j).bit n)⟩ := by
    rw [mem_step, hpc, access_setting]
    exact Function.update_self _ _ _
  constructor
  · rw [hword]
    exact htag
  · rw [hword]
    simp only [BitVec.getLsbD_or, wordMask_eq, BitVec.getLsbD_twoPow]
    simp [Nat.mod_lt]
  · rintro ⟨b, hb⟩
    by_cases hbj : b = j
    · subst hbj
      rw [pc_step_self, hpc] at hb
      obtain ⟨curGen, n', seen', pc', heq, -, hne⟩ := switched_of_clearSlot hb
      cases heq
      exact hne htag
    · rw [pc_step_of_ne hbj] at hb
      exact hwrites ⟨b, hb⟩

theorem returnedGen_access {c : Call} {m : Bloom} {pc : Pc}
    (h : returnedGen (access c m pc).2 = none) : returnedGen pc = none := by
  cases pc with
  | returned curGen seen => exact h
  | _ => rfl

theorem readGen_of_setGen {pc : Pc} {n : Fin 3} {gen : U64} (h : setGen pc n = some gen) :
    gen ∈ readGen pc := by
  cases pc with
  | setting curGen n' seen pc =>
    simp only [setGen] at h
    split at h
    · exact h
    · cases h
  | returned curGen seen => exact h
  | rolling pc => cases h
  | readGen => cases h
  | readTag curGen n' prev seen => cases h
  | readBits curGen n' prev seen => cases h
  | notAsked => cases h

variable (calls) in
/-- As long as call `i` has not returned, the bits that call `j` has set last. -/
def AllLasting (i j : ι) (s : Threads ι Bloom Pc) : Prop :=
  returnedGen (s.pc i) = none → ∀ n gen, setGen (s.pc j) n = some gen →
    Lasting calls s (calls j) n gen

theorem AllLasting.step (h : AllLasting calls i j s) (htagged : AllTagged calls s) {a : ι}
    (hsettled : Settled calls i j s a) : AllLasting calls i j (step calls s a) := by
  intro hrunning n gen hset
  have hbefore : returnedGen (s.pc i) = none := by
    by_cases hia : i = a
    · subst hia
      rw [pc_step_self] at hrunning
      exact returnedGen_access hrunning
    · rwa [pc_step_of_ne hia] at hrunning
  have hold : setGen (s.pc j) n = some gen → Lasting calls (ConcurrentFilter.step calls s a)
      (calls j) n gen := fun hset =>
    (h hbefore n gen hset).step hsettled.prompt
      (hsettled.recent hbefore gen (readGen_of_setGen hset)) a
  by_cases hja : j = a
  · subst hja
    rw [pc_step_self] at hset
    rcases setBit_of_setGen (htagged j) hset with hset' | ⟨seen, hpc⟩
    · exact hold hset'
    · apply lasting_of_setBit htagged hpc
      exact hsettled.writes _ (by rw [hpc]; rfl)
  · rw [pc_step_of_ne hja] at hset
    exact hold hset

/-- What a call with the key of a returned one has found so far: nothing is missing, and a
second generation is only tested if it is that of the returned call. -/
def Found (pc : Pc) : Pc → Prop
  | .readTag curGen _ prev seen | .readBits curGen _ prev seen =>
    seen = true ∧ ∃ gen ∈ returnedGen pc, (curGen = gen ∧ prev = false) ∨ curGen = gen + 1#64
  | .setting _ _ seen _ | .returned _ seen => seen = true
  | _ => True

omit [DecidableEq ι] in
theorem setGen_of_returnedGen {pc : Pc} {gen : U64} (h : gen ∈ returnedGen pc) (n : Fin 3) :
    setGen pc n = some gen := by
  cases pc with
  | returned curGen seen => exact h
  | rolling pc => cases h
  | readGen => cases h
  | readTag curGen n prev seen => cases h
  | readBits curGen n prev seen => cases h
  | setting curGen n seen pc => cases h
  | notAsked => cases h

omit [DecidableEq ι] in
theorem slot_congr {c c' : Call} (h : c.key = c'.key) (n : Fin 3) (gen : U64) :
    c.slot n gen = c'.slot n gen ∧ c.bit n = c'.bit n := by
  have hbit : c.bit n = c'.bit n := by rw [Call.bit, Call.bit, h]
  refine ⟨?_, hbit⟩
  simp only [Call.slot, hbit]

omit [DecidableEq ι] in
theorem found_next {pc : Pc} {curGen : U64} {n : Fin 3} {prev hit : Bool}
    (hgen : ∃ gen ∈ returnedGen pc, (curGen = gen ∧ prev = false) ∨ curGen = gen + 1#64)
    (hmiss : hit = false → prev = false ∧ ∃ gen ∈ returnedGen pc, curGen = gen + 1#64) :
    Found pc (afterTest curGen n prev true hit) := by
  unfold afterTest
  cases hit with
  | false =>
    obtain ⟨rfl, gen, hreturned, hcur⟩ := hmiss rfl
    simp only [Bool.not_false, Bool.and_self, if_true]
    exact ⟨rfl, gen, hreturned, Or.inr hcur⟩
  | true =>
    simp only [Bool.not_true, Bool.false_and, Bool.false_eq_true, if_false, Bool.and_true]
    split
    · obtain ⟨gen, hreturned, hcur⟩ := hgen
      exact ⟨rfl, gen, hreturned, hcur.imp (fun h => ⟨h.1, rfl⟩) id⟩
    · rfl

omit [DecidableEq ι] in
theorem found_access (hkey : (calls i).key = (calls j).key)
    (hlasting : AllLasting calls i j s) (hrunning : returnedGen (s.pc i) = none)
    (hlater : s.pc i = .readGen → (returnedGen (s.pc j)).isSome)
    (hrecent : ∀ gen ∈ readGen (s.pc j),
      (epochState s.mem).gen = gen ∨ (epochState s.mem).gen = gen + 1#64)
    (h : Found (s.pc j) (s.pc i)) :
    Found (s.pc j) (access (calls i) s.mem (s.pc i)).2 := by
  have hword : ∀ gen ∈ returnedGen (s.pc j), ∀ n,
      (s.mem.bits ((calls i).slot n gen)).gen = gen ∧
        (s.mem.bits ((calls i).slot n gen)).bits.getLsbD (((calls i).bit n).toNat % 64) =
          true := by
    intro gen hreturned n
    obtain ⟨hslot, hbit⟩ := slot_congr hkey n gen
    have hlast := hlasting hrunning n gen (setGen_of_returnedGen hreturned n)
    rw [hslot, hbit]
    exact ⟨hlast.tag, hlast.bit⟩
  cases hpc : s.pc i with
  | rolling pc =>
    rw [access_rolling]
    simp only
    split
    · unfold afterRoll
      split
      · trivial
      · trivial
    · trivial
  | readGen =>
    rw [access_readGen]
    obtain ⟨gen, hreturned⟩ := Option.isSome_iff_exists.mp (hlater hpc)
    refine ⟨rfl, gen, hreturned, ?_⟩
    have hread := readGen_of_setGen (setGen_of_returnedGen hreturned 0)
    exact (hrecent gen hread).imp (fun heq => ⟨heq, rfl⟩) id
  | readTag curGen n prev seen =>
    rw [hpc] at h
    obtain ⟨rfl, hgen⟩ := h
    rw [access_readTag]
    simp only
    split
    next hne =>
      apply found_next hgen
      intro _
      obtain ⟨gen, hreturned, hcur⟩ := hgen
      have htag := (hword gen hreturned n).1
      cases prev with
      | false =>
        rcases hcur with ⟨rfl, -⟩ | hcur
        · exact absurd htag hne
        · exact ⟨rfl, gen, hreturned, hcur⟩
      | true =>
        obtain rfl := hcur.resolve_left fun h => Bool.noConfusion h.2
        rw [testedGen, if_pos rfl, BitVec.add_sub_cancel] at hne
        exact absurd htag hne
    next => exact ⟨rfl, hgen⟩
  | readBits curGen n prev seen =>
    rw [hpc] at h
    obtain ⟨rfl, hgen⟩ := h
    rw [access_readBits]
    apply found_next hgen
    intro hmiss
    obtain ⟨gen, hreturned, hcur⟩ := hgen
    have hbit := (hword gen hreturned n).2
    cases prev with
    | false =>
      rcases hcur with ⟨rfl, -⟩ | hcur
      · simp [testedGen, hbit] at hmiss
      · exact ⟨rfl, gen, hreturned, hcur⟩
    | true =>
      obtain rfl := hcur.resolve_left fun h => Bool.noConfusion h.2
      rw [testedGen, if_pos rfl, BitVec.add_sub_cancel, hbit] at hmiss
      cases hmiss
  | setting curGen n seen pc =>
    rw [hpc] at h
    rw [access_setting]
    simp only
    split
    · unfold afterSet
      split
      · exact h
      · exact h
    · exact h
  | notAsked => trivial
  | returned curGen seen =>
    rw [hpc] at hrunning
    cases hrunning

theorem returnedGen_step {gen : U64} (h : gen ∈ returnedGen (s.pc j)) (a : ι) :
    gen ∈ returnedGen ((step calls s a).pc j) := by
  by_cases hja : j = a
  · subst hja
    rw [pc_step_self]
    cases hpc : s.pc j with
    | returned curGen seen =>
      rw [hpc] at h
      exact h
    | _ =>
      rw [hpc] at h
      cases h
  · rwa [pc_step_of_ne hja]

theorem Found.step {pc : Pc} (h : Found (s.pc j) pc) (a : ι) :
    Found ((step calls s a).pc j) pc := by
  have hreturned : ∀ {curGen : U64} {prev : Bool},
      (∃ gen ∈ returnedGen (s.pc j), (curGen = gen ∧ prev = false) ∨ curGen = gen + 1#64) →
      ∃ gen ∈ returnedGen ((ConcurrentFilter.step calls s a).pc j),
        (curGen = gen ∧ prev = false) ∨ curGen = gen + 1#64 :=
    fun ⟨gen, hgen, hcur⟩ => ⟨gen, returnedGen_step hgen a, hcur⟩
  cases pc with
  | readTag curGen n prev seen => exact ⟨h.1, hreturned h.2⟩
  | readBits curGen n prev seen => exact ⟨h.1, hreturned h.2⟩
  | setting curGen n seen pc => exact h
  | returned curGen seen => exact h
  | rolling pc => trivial
  | readGen => trivial
  | notAsked => trivial

variable (calls) in
structure Complete (i j : ι) (s : Threads ι Bloom Pc) : Prop where
  tagged : AllTagged calls s
  lasting : AllLasting calls i j s
  found : Found (s.pc j) (s.pc i)

omit [DecidableEq ι] in
theorem complete_start (i j : ι) : Complete calls i j start where
  tagged := fun _ => trivial
  lasting := fun _ n gen hset => by cases hset
  found := trivial

theorem Complete.step (hkey : (calls i).key = (calls j).key) (h : Complete calls i j s) {a : ι}
    (hsettled : Settled calls i j s a) : Complete calls i j (step calls s a) where
  tagged := h.tagged.step hsettled.prompt a
  lasting := h.lasting.step h.tagged hsettled
  found := by
    apply Found.step
    by_cases hia : i = a
    · subst hia
      rw [pc_step_self]
      cases hreturned : returnedGen (s.pc i) with
      | none =>
        exact found_access hkey h.lasting hreturned (hsettled.later rfl)
          (hsettled.recent hreturned) h.found
      | some gen =>
        cases hpc : s.pc i with
        | returned curGen seen =>
          have hfound := h.found
          rw [hpc] at hfound
          exact hfound
        | _ =>
          rw [hpc] at hreturned
          cases hreturned
    · rw [pc_step_of_ne hia]
      exact h.found

/-- Whatever the order of the accesses: a packet whose call begins after a call with the
same key has returned is flagged, if calls are prompt, the generation moves on at most once
from the first of the two to the end of the second, and no bit is set between the switch of
its word's tag and the clearing. -/
theorem repeated_call_flagged (hkey : (calls i).key = (calls j).key)
    (hasked : (calls i).key.isSome) {sched : List ι}
    (hmeets : Meets (step calls) (Settled calls i j) start sched)
    (hcount : 33 ≤ sched.countP (· = i)) :
    ∃ curGen, (run (step calls) start sched).pc i = .returned curGen true := by
  have hcomplete : Complete calls i j (run (step calls) start sched) :=
    invariant_of_meets (complete_start i j) (fun _ _ h hsettled => h.step hkey hsettled) hmeets
  obtain ⟨curGen, seen, hreturned⟩ := returns_of_count hasked hcount
  have hfound := hcomplete.found
  rw [hreturned] at hfound
  obtain rfl : seen = true := hfound
  exact ⟨curGen, hreturned⟩

instance decidableSettled [Fintype ι] (i j : ι) (s : Threads ι Bloom Pc) (a : ι) :
    Decidable (Settled calls i j s a) :=
  have := Option.decidableForallMem (p := fun x => ¬Clearing calls s x)
    (writeSlot (calls a) (s.pc a))
  have := Option.decidableForallMem
    (p := fun gen => (epochState s.mem).gen = gen ∨ (epochState s.mem).gen = gen + 1#64)
    (readGen (s.pc j))
  decidable_of_iff (Prompt s ∧ (∀ x ∈ writeSlot (calls a) (s.pc a), ¬Clearing calls s x) ∧
      (a = i → s.pc i = .readGen → (returnedGen (s.pc j)).isSome) ∧
        (returnedGen (s.pc i) = none → ∀ gen ∈ readGen (s.pc j),
          (epochState s.mem).gen = gen ∨ (epochState s.mem).gen = gen + 1#64))
    ⟨fun h => ⟨h.1, h.2.1, h.2.2.1, h.2.2.2⟩, fun h => ⟨h.1, h.2, h.3, h.4⟩⟩

/-- Two calls with one key, and one with another. -/
def threeCalls : Option Bool → Call
  | some second => ⟨BitVec.ofNat 64 (2000000000 + second.toNat),
      some ⟨1#32, 2#32, 3#16, 4#16, 5#32⟩⟩
  | none => ⟨2000000002#64, some ⟨1#32, 2#32, 3#16, 4#16, 6#32⟩⟩

/-- The third call is under way during the first, and goes on during the second. -/
def alongside : List (Option Bool) :=
  (List.replicate 12 [some false, some false, some false, none]).flatten ++
    (List.replicate 12 [some true, some true, none, some true]).flatten

theorem alongside_flagged :
    ∃ curGen, (run (step threeCalls) start alongside).pc (some true) = .returned curGen true := by
  have hkey : (threeCalls (some true)).key = (threeCalls (some false)).key := rfl
  exact repeated_call_flagged hkey (by decide) (by decide +kernel) (by decide +kernel)

end PacketLoss.ConcurrentRetrans
