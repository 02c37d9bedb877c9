import PacketLoss.BloomRefinement
import PacketLoss.Schedules
import Mathlib.Data.Finset.Card

/-!
`bloom_maybe_roll_epoch` on several CPUs at once. The two reads of `start_ns` in
the condition, the read that gives the compare-and-swap its expected value, the
compare-and-swap and the increment of `gen` are one step each. A start that
another call has set in the meantime can be the expected value without having
been compared with the time of this call.
-/
namespace PacketLoss.ConcurrentRoll

open Machine BloomFilter BloomRefinement Schedules

inductive Pc
  | readStart
  | readStartAgain
  | readExpected
  | swap (expected : U64)
  | addGen
  | rolled
  | returned
deriving DecidableEq

/-- The next access of a call at time `now` to the epoch record. -/
def access (now : U64) (epoch : BloomEpochState) : Pc → BloomEpochState × Pc
  | .readStart => (epoch, if epoch.startNs < now then .readStartAgain else .returned)
  | .readStartAgain =>
    (epoch, if bloomEpochNs < now - epoch.startNs then .readExpected else .returned)
  | .readExpected => (epoch, .swap epoch.startNs)
  | .swap expected =>
    let (swapped, startNs) := syncBoolCompareAndSwap epoch.startNs expected now
    ({ epoch with startNs := startNs }, if swapped then .addGen else .returned)
  | .addGen => ({ epoch with gen := epoch.gen + 1#64 }, .rolled)
  | .rolled => (epoch, .rolled)
  | .returned => (epoch, .returned)

/-- The compare-and-swap of the call has succeeded. -/
def Swapped (pc : Pc) : Prop := pc = .addGen ∨ pc = .rolled

/-- One time is more than an epoch after the other. -/
def Apart (a b : U64) : Prop :=
  a.toNat + bloomEpochNs.toNat < b.toNat ∨ b.toNat + bloomEpochNs.toNat < a.toNat

theorem Apart.symm {a b : U64} (h : Apart a b) : Apart b a := Or.symm h

theorem access_swap_of_eq (now : U64) (epoch : BloomEpochState) :
    access now epoch (.swap epoch.startNs) = ({ epoch with startNs := now }, .addGen) := by
  simp [access, syncBoolCompareAndSwap]

theorem access_swap_of_ne (now : U64) {epoch : BloomEpochState} {expected : U64}
    (h : epoch.startNs ≠ expected) : access now epoch (.swap expected) = (epoch, .returned) := by
  simp [access, syncBoolCompareAndSwap, h]

/-- Any other access leaves the start, and leaves whether the call has swapped. -/
theorem access_of_not_swap (now : U64) {epoch : BloomEpochState} {pc : Pc}
    (h : pc ≠ .swap epoch.startNs) :
    (access now epoch pc).1.startNs = epoch.startNs ∧
      (Swapped (access now epoch pc).2 ↔ Swapped pc) := by
  cases pc with
  | readStart => by_cases hlt : epoch.startNs < now <;> simp [access, Swapped, hlt]
  | readStartAgain =>
    by_cases hlt : bloomEpochNs < now - epoch.startNs <;> simp [access, Swapped, hlt]
  | readExpected => simp [access, Swapped]
  | swap expected =>
    have hne : epoch.startNs ≠ expected := by
      intro heq
      exact h (by rw [heq])
    simp [access_swap_of_ne now hne, Swapped]
  | addGen => simp [access, Swapped]
  | rolled => simp [access]
  | returned => simp [access]

variable {ι : Type*}

def start (init : BloomEpochState) : Threads ι BloomEpochState Pc := ⟨init, fun _ => .readStart⟩

theorem not_swapped_start (init : BloomEpochState) (i : ι) : ¬Swapped ((start init).pc i) := by
  simp [start, Swapped]

/-- The calls that have swapped are apart, and the start is not before their times. -/
structure Spaced (now : ι → U64) (s : Threads ι BloomEpochState Pc) : Prop where
  behind : ∀ i, Swapped (s.pc i) → (now i).toNat ≤ s.mem.startNs.toNat
  apart : ∀ i j, i ≠ j → Swapped (s.pc i) → Swapped (s.pc j) → Apart (now i) (now j)

theorem spaced_start (now : ι → U64) (init : BloomEpochState) : Spaced now (start init) where
  behind := fun i h => absurd h (not_swapped_start init i)
  apart := fun i _ _ h _ => absurd h (not_swapped_start init i)

/-- The calls among `calls` that have incremented `gen`. -/
def rolledOf (calls : Finset ι) (s : Threads ι BloomEpochState Pc) : Finset ι :=
  {i ∈ calls | s.pc i = .rolled}

theorem mem_rolledOf {calls : Finset ι} {s : Threads ι BloomEpochState Pc} {i : ι} :
    i ∈ rolledOf calls s ↔ i ∈ calls ∧ s.pc i = .rolled := Finset.mem_filter

variable [DecidableEq ι] (now : ι → U64)

def step : Threads ι BloomEpochState Pc → ι → Threads ι BloomEpochState Pc :=
  threadStep fun i => access (now i)

/-- A compare-and-swap that succeeds replaces a start more than an epoch before the call. -/
def Validated (s : Threads ι BloomEpochState Pc) (i : ι) : Prop :=
  s.pc i = .swap s.mem.startNs → s.mem.startNs.toNat + bloomEpochNs.toNat < (now i).toNat

variable {s : Threads ι BloomEpochState Pc}

theorem step_of_swap {i : ι} (h : s.pc i = .swap s.mem.startNs) :
    (step now s i).mem.startNs = now i ∧
      ∀ j, Swapped ((step now s i).pc j) ↔ j = i ∨ Swapped (s.pc j) := by
  have haccess := access_swap_of_eq (now i) s.mem
  constructor
  · rw [step, threadStep, h, haccess]
  · intro j
    by_cases hj : j = i
    · subst hj
      rw [step, pc_threadStep_self, h, haccess]
      simp [Swapped]
    · rw [step, pc_threadStep_of_ne _ _ hj]
      simp [hj]

theorem step_of_not_swap {i : ι} (h : s.pc i ≠ .swap s.mem.startNs) :
    (step now s i).mem.startNs = s.mem.startNs ∧
      ∀ j, Swapped ((step now s i).pc j) ↔ Swapped (s.pc j) := by
  obtain ⟨hstart, hswapped⟩ := access_of_not_swap (now i) h
  refine ⟨hstart, fun j => ?_⟩
  by_cases hj : j = i
  · subst hj
    rw [step, pc_threadStep_self]
    exact hswapped
  · rw [step, pc_threadStep_of_ne _ _ hj]

/-- A call that is alone does what the sequential code does. -/
theorem run_alone (i : ι) (hi : s.pc i = .readStart) (b : Bloom) (hb : epochState b = s.mem) :
    (run (step now) s (List.replicate 5 i)).mem = epochState (bloomMaybeRollEpoch b (now i)) := by
  rcases Nat.lt_or_ge (s.mem.startNs.toNat + bloomEpochNs.toNat) (now i).toNat with hlt | hge
  · obtain ⟨hstart, hperiod⟩ := (due_iff _ _).mpr hlt
    rw [← hb] at hlt hstart hperiod
    rw [bloomMaybeRollEpoch_of_lt hlt]
    simp [run, List.replicate, step, threadStep, access, syncBoolCompareAndSwap, hi, ← hb,
      hstart, hperiod]
    rfl
  · rw [bloomMaybeRollEpoch_of_le (by rw [hb]; exact hge), hb]
    by_cases hstart : s.mem.startNs < now i
    · have hnot : ¬bloomEpochNs < now i - s.mem.startNs := by
        intro hperiod
        have hdue := (due_iff _ _).mp ⟨hstart, hperiod⟩
        omega
      simp [run, List.replicate, step, threadStep, access, hi, hstart, hnot]
    · simp [run, List.replicate, step, threadStep, access, hi, hstart]

theorem step_of_addGen {i : ι} (h : s.pc i = .addGen) {calls : Finset ι} (hi : i ∈ calls) :
    (step now s i).mem.gen = s.mem.gen + 1#64 ∧
      (rolledOf calls (step now s i)).card = (rolledOf calls s).card + 1 := by
  refine ⟨by rw [step, threadStep, h]; rfl, ?_⟩
  have hnot : i ∉ rolledOf calls s := by simp [mem_rolledOf, h]
  rw [← Finset.card_insert_of_notMem hnot]
  congr 1
  ext j
  by_cases hj : j = i
  · subst hj
    rw [mem_rolledOf, step, pc_threadStep_self, h]
    simp [access, hi]
  · rw [mem_rolledOf, step, pc_threadStep_of_ne _ _ hj, Finset.mem_insert, mem_rolledOf]
    simp [hj]

theorem step_of_not_addGen {i : ι} (h : s.pc i ≠ .addGen) (calls : Finset ι) :
    (step now s i).mem.gen = s.mem.gen ∧ rolledOf calls (step now s i) = rolledOf calls s := by
  have haccess : (access (now i) s.mem (s.pc i)).1.gen = s.mem.gen ∧
      ((access (now i) s.mem (s.pc i)).2 = .rolled ↔ s.pc i = .rolled) := by
    cases hpc : s.pc i with
    | readStart => by_cases hlt : s.mem.startNs < now i <;> simp [access, hlt]
    | readStartAgain =>
      by_cases hlt : bloomEpochNs < now i - s.mem.startNs <;> simp [access, hlt]
    | readExpected => simp [access]
    | swap expected =>
      by_cases heq : s.mem.startNs = expected <;> simp [access, syncBoolCompareAndSwap, heq]
    | addGen => exact absurd hpc h
    | rolled => simp [access]
    | returned => simp [access]
  refine ⟨haccess.1, ?_⟩
  ext j
  by_cases hj : j = i
  · subst hj
    rw [mem_rolledOf, mem_rolledOf, step, pc_threadStep_self, haccess.2]
  · rw [mem_rolledOf, mem_rolledOf, step, pc_threadStep_of_ne _ _ hj]

/-- `gen` counts the calls that have rolled. -/
theorem gen_run (init : BloomEpochState) {sched : List ι} {calls : Finset ι}
    (hcalls : ∀ i ∈ sched, i ∈ calls) :
    (run (step now) (start init) sched).mem.gen = init.gen + BitVec.ofNat 64
      (rolledOf calls (run (step now) (start init) sched)).card := by
  induction sched using List.reverseRecOn with
  | nil => simp [run, start, rolledOf]
  | append_singleton sched i ih =>
    have hrest := ih fun j hj => hcalls j (List.mem_append_left _ hj)
    rw [run_concat]
    by_cases hi : (run (step now) (start init) sched).pc i = .addGen
    · obtain ⟨hgen, hcard⟩ := step_of_addGen now hi (hcalls i (by simp))
      rw [hgen, hcard, hrest, BitVec.ofNat_add, BitVec.add_assoc]
    · obtain ⟨hgen, hrolled⟩ := step_of_not_addGen now hi calls
      rw [hgen, hrolled, hrest]

/-- Calls that are all within an epoch of each other advance `gen` at most once. -/
theorem gen_of_not_apart {init : BloomEpochState} {sched : List ι}
    (h : ∀ i j, i ≠ j → (run (step now) (start init) sched).pc i = .rolled →
      (run (step now) (start init) sched).pc j = .rolled → Apart (now i) (now j))
    (hclose : ∀ i ∈ sched, ∀ j ∈ sched, ¬Apart (now i) (now j)) :
    (run (step now) (start init) sched).mem.gen = init.gen ∨
      (run (step now) (start init) sched).mem.gen = init.gen + 1#64 := by
  have hmem : ∀ i ∈ sched, i ∈ sched.toFinset := fun i hi => List.mem_toFinset.mpr hi
  rw [gen_run now init hmem]
  have hle : (rolledOf sched.toFinset (run (step now) (start init) sched)).card ≤ 1 := by
    rw [Finset.card_le_one]
    intro i hi j hj
    rw [mem_rolledOf, List.mem_toFinset] at hi hj
    by_contra hij
    exact hclose i hi.1 j hj.1 (h i j hij hi.2 hj.2)
  rcases Nat.le_one_iff_eq_zero_or_eq_one.mp hle with hzero | hone
  · left
    rw [hzero]
    simp
  · right
    rw [hone]

variable {now}

theorem swapped_step {i j : ι} (h : Swapped (s.pc j)) : Swapped ((step now s i).pc j) := by
  by_cases hi : s.pc i = .swap s.mem.startNs
  · exact ((step_of_swap now hi).2 j).mpr (Or.inr h)
  · exact ((step_of_not_swap now hi).2 j).mpr h

theorem swapped_run {j : ι} (h : Swapped (s.pc j)) (sched : List ι) :
    Swapped ((run (step now) s sched).pc j) :=
  invariant_run (I := fun s : Threads ι BloomEpochState Pc => Swapped (s.pc j)) h
    (fun _ _ => swapped_step) sched

theorem spaced_step (h : Spaced now s) (i : ι) (hvalid : Validated now s i) :
    Spaced now (step now s i) := by
  by_cases hi : s.pc i = .swap s.mem.startNs
  · obtain ⟨hstart, hswapped⟩ := step_of_swap now hi
    have hlater := hvalid hi
    have hnew : ∀ j, Swapped (s.pc j) → Apart (now j) (now i) := by
      intro j hj
      have hle := h.behind j hj
      exact Or.inl (by omega)
    constructor
    · intro j hj
      rw [hstart]
      rcases (hswapped j).mp hj with rfl | hjold
      · exact le_rfl
      · have hle := h.behind j hjold
        omega
    · intro j k hjk hj hk
      rcases (hswapped j).mp hj with hji | hjold
      · rcases (hswapped k).mp hk with hki | hkold
        · exact absurd (hji.trans hki.symm) hjk
        · rw [hji]
          exact (hnew k hkold).symm
      · rcases (hswapped k).mp hk with hki | hkold
        · rw [hki]
          exact hnew j hjold
        · exact h.apart j k hjk hjold hkold
  · obtain ⟨hstart, hswapped⟩ := step_of_not_swap now hi
    constructor
    · intro j hj
      rw [hstart]
      exact h.behind j ((hswapped j).mp hj)
    · intro j k hjk hj hk
      exact h.apart j k hjk ((hswapped j).mp hj) ((hswapped k).mp hk)

theorem startNs_le_of_validated {i : ι} (hvalid : Validated now s i) :
    s.mem.startNs.toNat ≤ (step now s i).mem.startNs.toNat := by
  by_cases hi : s.pc i = .swap s.mem.startNs
  · have hlater := hvalid hi
    rw [(step_of_swap now hi).1]
    omega
  · rw [(step_of_not_swap now hi).1]

/-- What a call has learnt in its condition while the start was `initial`. -/
def Guarded (initial now : U64) (pc : Pc) : Prop :=
  match pc with
  | .readStartAgain => initial < now
  | .readExpected | .swap _ => initial < now ∧ bloomEpochNs < now - initial
  | _ => True

/-- Either no call has swapped, and the calls have compared their times with
the first start, or the start is the time of a call that has. -/
def Known (now : ι → U64) (initial : U64) (s : Threads ι BloomEpochState Pc) : Prop :=
  (s.mem.startNs = initial ∧ ∀ i, Guarded initial (now i) (s.pc i)) ∨
    ∃ j, Swapped (s.pc j) ∧ s.mem.startNs = now j

theorem guarded_access {initial now : U64} {epoch : BloomEpochState} {pc : Pc}
    (hstart : epoch.startNs = initial) (h : Guarded initial now pc) :
    Guarded initial now (access now epoch pc).2 := by
  subst hstart
  cases pc with
  | readStart => by_cases hlt : epoch.startNs < now <;> simp [access, Guarded, hlt]
  | readStartAgain =>
    have hlt : epoch.startNs < now := h
    by_cases hperiod : bloomEpochNs < now - epoch.startNs <;>
      simp [access, Guarded, hlt, hperiod]
  | readExpected => exact h
  | swap expected =>
    by_cases heq : epoch.startNs = expected <;>
      simp [access, syncBoolCompareAndSwap, Guarded, heq]
  | addGen => trivial
  | rolled => trivial
  | returned => trivial

theorem known_step {initial : U64} (h : Known now initial s) (i : ι) :
    Known now initial (step now s i) := by
  by_cases hi : s.pc i = .swap s.mem.startNs
  · obtain ⟨hstart, hswapped⟩ := step_of_swap now hi
    exact Or.inr ⟨i, (hswapped i).mpr (Or.inl rfl), hstart⟩
  · obtain ⟨hstart, hswapped⟩ := step_of_not_swap now hi
    rcases h with ⟨hinitial, hguarded⟩ | ⟨j, hj, heq⟩
    · refine Or.inl ⟨hstart.trans hinitial, fun j => ?_⟩
      by_cases hj : j = i
      · subst hj
        rw [step, pc_threadStep_self]
        exact guarded_access hinitial (hguarded j)
      · rw [step, pc_threadStep_of_ne _ _ hj]
        exact hguarded j
    · exact Or.inr ⟨j, (hswapped j).mpr hj, hstart.trans heq⟩

theorem known_run (init : BloomEpochState) (sched : List ι) :
    Known now init.startNs (run (step now) (start init) sched) := by
  apply invariant_run
  · exact Or.inl ⟨rfl, fun _ => trivial⟩
  · intro s i h
    exact known_step h i

/-- Distinct increments are more than an epoch apart, `start_ns` never goes back,
and calls that are all within an epoch of each other advance `gen` at most once. -/
structure RollsOnce (now : ι → U64) (init : BloomEpochState) (sched : List ι) : Prop where
  apart : ∀ i j, i ≠ j → (run (step now) (start init) sched).pc i = .rolled →
    (run (step now) (start init) sched).pc j = .rolled → Apart (now i) (now j)
  forward : ∀ pre i post, sched = pre ++ i :: post →
    (run (step now) (start init) pre).mem.startNs.toNat ≤
      (run (step now) (start init) (pre ++ [i])).mem.startNs.toNat
  once : (∀ i ∈ sched, ∀ j ∈ sched, ¬Apart (now i) (now j)) →
    (run (step now) (start init) sched).mem.gen = init.gen ∨
      (run (step now) (start init) sched).mem.gen = init.gen + 1#64

theorem rollsOnce_of_validated {init : BloomEpochState} {sched : List ι}
    (h : Meets (step now) (Validated now) (start init) sched) : RollsOnce now init sched := by
  have hspaced : Spaced now (run (step now) (start init) sched) :=
    invariant_of_meets (spaced_start now init) (fun _ i hs => spaced_step hs i) h
  have hapart : ∀ i j, i ≠ j → (run (step now) (start init) sched).pc i = .rolled →
      (run (step now) (start init) sched).pc j = .rolled → Apart (now i) (now j) := by
    intro i j hij hi hj
    exact hspaced.apart i j hij (Or.inr hi) (Or.inr hj)
  refine ⟨hapart, ?_, gen_of_not_apart now hapart⟩
  intro pre i post hsplit
  rw [run_concat]
  exact startNs_le_of_validated (h pre i post hsplit)

/-- A swap that is not validated replaces the time of another call, which is
not more than an epoch older. -/
theorem validated_of_rollsOnce {init : BloomEpochState} {sched : List ι}
    (hsettled : ∀ i, (run (step now) (start init) sched).pc i ≠ .addGen)
    (h : RollsOnce now init sched) :
    Meets (step now) (Validated now) (start init) sched := by
  intro pre i post hsplit hswap
  have hrun : run (step now) (start init) sched =
      run (step now) (step now (run (step now) (start init) pre) i) post := by
    rw [hsplit, run_append]
    rfl
  have hrolled : ∀ j, Swapped ((step now (run (step now) (start init) pre) i).pc j) →
      (run (step now) (start init) sched).pc j = .rolled := by
    intro j hj
    have hlast : Swapped ((run (step now) (start init) sched).pc j) := by
      rw [hrun]
      exact swapped_run hj post
    exact hlast.resolve_left (hsettled j)
  have hknown : Known now init.startNs (run (step now) (start init) pre) := known_run init pre
  have hforward := h.forward pre i post hsplit
  rw [run_concat] at hforward
  generalize run (step now) (start init) pre = s at hswap hrolled hknown hforward ⊢
  obtain ⟨hstart, hswapped⟩ := step_of_swap now hswap
  rcases hknown with ⟨hinitial, hguarded⟩ | ⟨j, hj, heq⟩
  · have hi := hguarded i
    rw [hswap] at hi
    rw [hinitial]
    exact (due_iff _ _).mp hi
  · have hne : j ≠ i := by
      intro hji
      rw [hji, hswap] at hj
      simp [Swapped] at hj
    have hapart := h.apart j i hne (hrolled j ((hswapped j).mpr (Or.inr hj)))
      (hrolled i ((hswapped i).mpr (Or.inl rfl)))
    rw [hstart, heq] at hforward
    rw [heq]
    rcases hapart with hlt | hlt
    · exact hlt
    · omega

/-- Every schedule whose swaps are validated rolls once. A schedule that leaves
no call between its swap and its increment rolls once only if they are. -/
theorem rollsOnce_iff_validated (now : ι → U64) (init : BloomEpochState) (sched : List ι) :
    (Meets (step now) (Validated now) (start init) sched → RollsOnce now init sched) ∧
      ((∀ i, (run (step now) (start init) sched).pc i ≠ .addGen) →
        (RollsOnce now init sched ↔ Meets (step now) (Validated now) (start init) sched)) :=
  ⟨rollsOnce_of_validated,
    fun hsettled => ⟨validated_of_rollsOnce hsettled, rollsOnce_of_validated⟩⟩

/-- Two calls, a nanosecond apart, at the end of the first epoch. -/
def boundary (i : Fin 2) : U64 := BitVec.ofNat 64 (1600000000 + i.val)

/-- The first call passes its condition, the second one rolls, and the first one
then finds the new start as its expected value. -/
def overtaken : List (Fin 2) := [0, 0, 1, 1, 1, 1, 0, 0, 0, 1]

theorem overtaken_rolls_twice :
    (run (step boundary) (start ⟨5#64, 0#64⟩) overtaken).mem = ⟨7#64, 1600000000#64⟩ ∧
      (run (step boundary) (start ⟨5#64, 0#64⟩) (overtaken.take 6)).mem =
        ⟨5#64, 1600000001#64⟩ ∧
      ¬RollsOnce boundary ⟨5#64, 0#64⟩ overtaken := by
  have htwice : (run (step boundary) (start ⟨5#64, 0#64⟩) overtaken).mem =
      ⟨7#64, 1600000000#64⟩ := by decide
  refine ⟨htwice, by decide, ?_⟩
  intro h
  have honce := h.once (by simp only [Apart]; decide)
  rw [htwice] at honce
  revert honce
  decide

end PacketLoss.ConcurrentRoll
