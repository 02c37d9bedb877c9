import Mathlib.Data.List.Induction
import Mathlib.Logic.Function.Basic
import Mathlib.Logic.Function.Iterate
import Mathlib.Tactic.ByContra
import PacketLoss.ListSplits

/-!
Several parties that take their steps in any order. The whole system is one
step function and a schedule is the list of the steps taken. A condition on
steps can be required of a whole schedule; then an invariant needs to be kept
only by the steps that meet it. A common case is threads that share a memory:
each step is one access of one thread.
-/
namespace PacketLoss.Schedules

variable {σ α : Type*} (step : σ → α → σ)

def run (s : σ) (sched : List α) : σ := sched.foldl step s

theorem run_concat (s : σ) (sched : List α) (a : α) :
    run step s (sched ++ [a]) = step (run step s sched) a := by
  simp [run, List.foldl_append]

theorem run_append (s : σ) (left right : List α) :
    run step s (left ++ right) = run step (run step s left) right := by
  simp [run, List.foldl_append]

/-- Each step of the schedule is taken from a state in which it meets `c`. -/
def Meets (c : σ → α → Prop) (s : σ) (sched : List α) : Prop :=
  ∀ pre a post, sched = pre ++ a :: post → c (run step s pre) a

/-- Each state that the schedule passes through has the property `p`. -/
def Throughout (p : σ → Prop) (s : σ) (sched : List α) : Prop :=
  ∀ pre post, sched = pre ++ post → p (run step s pre)

variable {step}
variable {c : σ → α → Prop} {s : σ}

theorem meets_nil : Meets step c s [] := by
  intro pre a post hsplit
  simp at hsplit

theorem meets_cons {a : α} {sched : List α} :
    Meets step c s (a :: sched) ↔ c s a ∧ Meets step c (step s a) sched := by
  constructor
  · intro h
    refine ⟨h [] a sched rfl, ?_⟩
    intro pre b post hsplit
    exact h (a :: pre) b post (by rw [hsplit, List.cons_append])
  · intro h
    rcases h with ⟨hfirst, hrest⟩
    intro pre b post hsplit
    cases pre with
    | nil =>
      rw [List.nil_append, List.cons.injEq] at hsplit
      rw [← hsplit.1]
      exact hfirst
    | cons a' pre =>
      rw [List.cons_append, List.cons.injEq] at hsplit
      rw [← hsplit.1]
      exact hrest pre b post hsplit.2

instance decidableMeets [∀ s a, Decidable (c s a)] (s : σ) :
    (sched : List α) → Decidable (Meets step c s sched)
  | [] => isTrue meets_nil
  | a :: sched =>
    have := decidableMeets (step s a) sched
    decidable_of_iff (c s a ∧ Meets step c (step s a) sched) meets_cons.symm

theorem Meets.of_append {left right : List α} (h : Meets step c s (left ++ right)) :
    Meets step c s left := by
  intro pre a post hsplit
  apply h pre a (post ++ right)
  rw [hsplit]
  simp

theorem Meets.last {sched : List α} {a : α} (h : Meets step c s (sched ++ [a])) :
    c (run step s sched) a := h sched a [] rfl

theorem Throughout.of_append {p : σ → Prop} {left right : List α}
    (h : Throughout step p s (left ++ right)) : Throughout step p s left := by
  intro pre post hsplit
  apply h pre (post ++ right)
  rw [hsplit, List.append_assoc]

theorem Throughout.last {p : σ → Prop} {sched : List α} (h : Throughout step p s sched) :
    p (run step s sched) := h sched [] (List.append_nil _).symm

theorem throughout_cons {p : σ → Prop} {a : α} {sched : List α} :
    Throughout step p s (a :: sched) ↔ p s ∧ Throughout step p (step s a) sched := by
  constructor
  · intro h
    refine ⟨h [] (a :: sched) rfl, ?_⟩
    intro pre post hsplit
    exact h (a :: pre) post (by rw [hsplit, List.cons_append])
  · intro h
    rcases h with ⟨hfirst, hrest⟩
    intro pre post hsplit
    cases pre with
    | nil => exact hfirst
    | cons a' pre =>
      rw [List.cons_append, List.cons.injEq] at hsplit
      rw [← hsplit.1]
      exact hrest pre post hsplit.2

theorem throughout_nil {p : σ → Prop} : Throughout step p s [] ↔ p s := by
  constructor
  · exact fun h => h.last
  · intro h pre post hsplit
    rw [(List.nil_eq_append_iff.mp hsplit).1]
    exact h

instance decidableThroughout {p : σ → Prop} [DecidablePred p] (s : σ) :
    (sched : List α) → Decidable (Throughout step p s sched)
  | [] => decidable_of_iff (p s) throughout_nil.symm
  | a :: sched =>
    have : Decidable (Throughout step p (step s a) sched) := decidableThroughout (step s a) sched
    decidable_of_iff (p s ∧ Throughout step p (step s a) sched) throughout_cons.symm

/-- Then each step of the schedule leads to a state with the property. -/
theorem Throughout.meets {p : σ → Prop} {sched : List α} (h : Throughout step p s sched) :
    Meets step (fun s a => p (step s a)) s sched := by
  intro pre a post hsplit
  rw [← run_concat step]
  apply h (pre ++ [a]) post
  rw [hsplit, List.append_assoc, List.singleton_append]

/-- What holds at first and is kept by every step that meets the condition holds
after every schedule whose steps meet it. -/
theorem invariant_of_meets {I : σ → Prop} (hinit : I s)
    (hstep : ∀ s a, I s → c s a → I (step s a)) {sched : List α}
    (hmeets : Meets step c s sched) : I (run step s sched) := by
  induction sched using List.reverseRecOn with
  | nil => exact hinit
  | append_singleton sched a ih =>
    rw [run_concat]
    exact hstep _ a (ih hmeets.of_append) hmeets.last

theorem invariant_run {I : σ → Prop} (hinit : I s) (hstep : ∀ s a, I s → I (step s a))
    (sched : List α) : I (run step s sched) :=
  invariant_of_meets (c := fun _ _ => True) hinit (fun s a h _ => hstep s a h)
    fun _ _ _ _ => trivial

theorem throughout_of_meets {I p : σ → Prop} (hinit : I s)
    (hstep : ∀ s a, I s → c s a → I (step s a)) (hp : ∀ s, I s → p s) {sched : List α}
    (hmeets : Meets step c s sched) : Throughout step p s sched := by
  intro pre post hsplit
  apply hp
  rw [hsplit] at hmeets
  exact invariant_of_meets hinit hstep hmeets.of_append

/-- If moreover a step that does not meet the condition leads to a state without
the property, then the condition is exact. -/
theorem throughout_iff_meets {I p : σ → Prop} (hinit : I s)
    (hstep : ∀ s a, I s → c s a → I (step s a)) (hp : ∀ s, I s → p s)
    (hfail : ∀ s a, I s → ¬c s a → ¬p (step s a)) (sched : List α) :
    Throughout step p s sched ↔ Meets step c s sched := by
  refine ⟨fun hall => ?_, throughout_of_meets hinit hstep hp⟩
  induction sched using List.reverseRecOn with
  | nil => exact meets_nil
  | append_singleton sched a ih =>
    have hmeets := ih hall.of_append
    have hinv := invariant_of_meets hinit hstep hmeets
    have hlast : c (run step s sched) a := by
      by_contra hnot
      apply hfail _ a hinv hnot
      rw [← run_concat step]
      exact hall.last
    intro pre b post hsplit
    rcases ListSplits.concat_eq_append_cons hsplit with ⟨rfl, rfl, -⟩ | ⟨post', -, hsched⟩
    · exact hlast
    · exact hmeets pre b post' hsched

/-! What a party gets done, however the others come in between. -/

section Progress

variable {p : α → Prop} [DecidablePred p] {I G : σ → Prop}

/-- If no step raises the measure and the steps `p` lower it, until the goal is reached,
then a schedule with as many of these steps as the measure reaches it. -/
theorem reached_of_count (V : σ → ℕ) (hkeep : ∀ s a, I s → c s a → I (step s a))
    (hstable : ∀ s a, I s → c s a → G s → G (step s a))
    (hother : ∀ s a, I s → c s a → ¬G s → V (step s a) ≤ V s)
    (hlower : ∀ s a, I s → c s a → p a → ¬G s → V (step s a) < V s)
    (hzero : ∀ s, I s → V s = 0 → G s)
    {sched : List α} (hs : I s) (hmeets : Meets step c s sched)
    (hcount : V s ≤ sched.countP p) : G (run step s sched) := by
  induction sched generalizing s with
  | nil =>
    rw [List.countP_nil] at hcount
    exact hzero s hs (Nat.le_zero.mp hcount)
  | cons a sched ih =>
    obtain ⟨hfirst, hrest⟩ := meets_cons.mp hmeets
    have hrun : run step s (a :: sched) = run step (step s a) sched := rfl
    rw [hrun]
    rw [List.countP_cons] at hcount
    by_cases hgoal : G s
    · have hboth : I (step s a) ∧ G (step s a) :=
        ⟨hkeep s a hs hfirst, hstable s a hs hfirst hgoal⟩
      refine (invariant_of_meets (I := fun s => I s ∧ G s) hboth ?_ hrest).2
      exact fun s a h hc => ⟨hkeep s a h.1 hc, hstable s a h.1 hc h.2⟩
    · have hle := hother s a hs hfirst hgoal
      by_cases ha : p a
      · have hlt := hlower s a hs hfirst ha hgoal
        apply ih (hkeep s a hs hfirst) hrest
        simp only [ha, decide_true, if_true] at hcount
        omega
      · apply ih (hkeep s a hs hfirst) hrest
        simp only [ha, decide_false, Bool.false_eq_true, if_false] at hcount
        omega

end Progress

/-! A system that asks for an answer now and then. The answers can be fixed
beforehand, as a sequence, or be given when they are asked for. -/

section Answers

variable {β : Type*}

/-- `asked` counts the questions so far: a step that asks one looks at that answer
only, and the others look at none. -/
structure Asks (step : (ℕ → β) → σ → α → σ) (asked : σ → ℕ) (asks : σ → α → Prop) : Prop where
  looks : ∀ s a answers answers', (asks s a → answers (asked s) = answers' (asked s)) →
    step answers s a = step answers' s a
  counts : ∀ s a answers, asks s a → asked (step answers s a) = asked s + 1
  keeps : ∀ s a answers, ¬asks s a → asked (step answers s a) = asked s

variable {step : (ℕ → β) → σ → α → σ} {asked : σ → ℕ} {asks : σ → α → Prop}

/-- A step with its answer, given when it is asked for. -/
def answeredStep (step : (ℕ → β) → σ → α → σ) (s : σ) (a : α × β) : σ :=
  step (fun _ => a.2) s a.1

theorem Asks.asked_le_run (h : Asks step asked asks) (answers : ℕ → β) (s : σ) (sched : List α) :
    asked s ≤ asked (run (step answers) s sched) := by
  apply invariant_run (I := fun s' => asked s ≤ asked s') (Nat.le_refl _)
  intro s' a hle
  by_cases ha : asks s' a
  · rw [h.counts s' a answers ha]
    omega
  · rwa [h.keeps s' a answers ha]

/-- Answers to later questions do not matter. -/
theorem Asks.run_congr (h : Asks step asked asks) {answers answers' : ℕ → β} (s : σ)
    {sched : List α}
    (hsame : ∀ k, k < asked (run (step answers) s sched) → answers k = answers' k) :
    run (step answers') s sched = run (step answers) s sched := by
  induction sched using List.reverseRecOn with
  | nil => rfl
  | append_singleton sched a ih =>
    rw [run_concat] at hsame
    have hstep : run (step answers') s sched = run (step answers) s sched := by
      apply ih
      intro k hk
      apply hsame k
      exact Nat.lt_of_lt_of_le hk (h.asked_le_run answers (run (step answers) s sched) [a])
    rw [run_concat, run_concat, hstep]
    apply h.looks
    intro ha
    refine (hsame _ ?_).symm
    rw [h.counts _ a answers ha]
    exact Nat.lt_succ_self _

/-- A run whose answers are given on the way is the run of some fixed answers. -/
theorem Asks.exists_answers [Inhabited β] (h : Asks step asked asks) (s : σ)
    (sched : List (α × β)) :
    ∃ answers, run (answeredStep step) s sched = run (step answers) s (sched.map Prod.fst) := by
  induction sched using List.reverseRecOn with
  | nil => exact ⟨fun _ => default, rfl⟩
  | append_singleton sched a ih =>
    obtain ⟨answers, hrun⟩ := ih
    -- The last answer goes where the run up to it has not looked yet.
    let answers' := Function.update answers (asked (run (answeredStep step) s sched)) a.2
    have hbefore : run (step answers') s (sched.map Prod.fst) =
        run (answeredStep step) s sched := by
      rw [hrun]
      apply h.run_congr
      intro k hk
      rw [← hrun] at hk
      exact (Function.update_of_ne (Nat.ne_of_lt hk) _ _).symm
    refine ⟨answers', ?_⟩
    rw [List.map_append, List.map_singleton, run_concat, run_concat, hbefore]
    apply h.looks
    intro _
    exact (Function.update_self (f := answers) _ _).symm

end Answers

section Threads

variable {ι μ κ : Type*} [DecidableEq ι]

/-- A shared memory, and for each thread where it is in its code. -/
structure Threads (ι μ κ : Type*) where
  mem : μ
  pc : ι → κ

variable (access : ι → μ → κ → μ × κ)

/-- The next access of thread `i`. -/
def threadStep (s : Threads ι μ κ) (i : ι) : Threads ι μ κ :=
  ⟨(access i s.mem (s.pc i)).1, Function.update s.pc i (access i s.mem (s.pc i)).2⟩

theorem pc_threadStep_self (s : Threads ι μ κ) (i : ι) :
    (threadStep access s i).pc i = (access i s.mem (s.pc i)).2 := Function.update_self _ _ _

theorem pc_threadStep_of_ne (s : Threads ι μ κ) {i j : ι} (h : j ≠ i) :
    (threadStep access s i).pc j = s.pc j := Function.update_of_ne h _ _

/-- A thread that has the memory to itself. -/
theorem run_replicate (s : Threads ι μ κ) (i : ι) (n : ℕ) :
    (run (threadStep access) s (List.replicate n i)).mem =
        ((fun x => access i x.1 x.2)^[n] (s.mem, s.pc i)).1 ∧
      (run (threadStep access) s (List.replicate n i)).pc i =
        ((fun x => access i x.1 x.2)^[n] (s.mem, s.pc i)).2 := by
  induction n generalizing s with
  | zero => exact ⟨rfl, rfl⟩
  | succ n ih =>
    have hstep : ((threadStep access s i).mem, (threadStep access s i).pc i) =
        access i s.mem (s.pc i) := Prod.ext rfl (pc_threadStep_self access s i)
    have hrest := ih (threadStep access s i)
    rw [hstep] at hrest
    exact hrest

end Threads

end PacketLoss.Schedules
