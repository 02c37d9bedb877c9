import Mathlib.Data.List.Basic

/-!
Programs over a state that may fail or crash. A failure is an error that the caller
can handle; a crash is the end of the run, and only the state that it has reached
is left. What a program ensures is said of the three ends apart. The rules follow
the program: one for each of its parts, and an invariant for a loop over a list.
-/
namespace PacketLoss.CrashPrograms

inductive Outcome (ε α : Type)
  | returned (a : α)
  | failed (err : ε)
  | crashed

namespace Outcome

def isReturned {ε α : Type} : Outcome ε α → Bool
  | returned _ => true
  | failed _ => false
  | crashed => false

def isFailed {ε α : Type} : Outcome ε α → Bool
  | returned _ => false
  | failed _ => true
  | crashed => false

end Outcome

def Prog (σ ε α : Type) : Type := σ → Outcome ε α × σ

namespace Prog

variable {σ ε α β : Type}

instance : Monad (Prog σ ε) where
  pure a s := (.returned a, s)
  bind m f s :=
    match m s with
    | (.returned a, s') => f a s'
    | (.failed err, s') => (.failed err, s')
    | (.crashed, s') => (.crashed, s')

def fail (err : ε) : Prog σ ε α := fun s => (.failed err, s)

def read : Prog σ ε σ := fun s => (.returned s, s)

def modify (f : σ → σ) : Prog σ ε Unit := fun s => (.returned (), f s)

/-- Run a program and give its error to the caller as a value. -/
def attempt (m : Prog σ ε α) : Prog σ ε (Except ε α) := fun s =>
  match m s with
  | (.returned a, s') => (.returned (.ok a), s')
  | (.failed err, s') => (.returned (.error err), s')
  | (.crashed, s') => (.crashed, s')

def mapError (g : ε → ε) (m : Prog σ ε α) : Prog σ ε α := fun s =>
  match m s with
  | (.returned a, s') => (.returned a, s')
  | (.failed err, s') => (.failed (g err), s')
  | (.crashed, s') => (.crashed, s')

def forEach (f : β → Prog σ ε Unit) : List β → Prog σ ε Unit
  | [] => pure ()
  | b :: bs => do
    f b
    forEach f bs

/-- Started in `s`, the program returns with `Q`, fails with `E` or crashes with `C`. -/
def Ensures (m : Prog σ ε α) (s : σ) (Q : α → σ → Prop) (E : ε → σ → Prop) (C : σ → Prop) :
    Prop :=
  match m s with
  | (.returned a, s') => Q a s'
  | (.failed err, s') => E err s'
  | (.crashed, s') => C s'

variable {m : Prog σ ε α} {s : σ} {Q Q' : α → σ → Prop} {E E' : ε → σ → Prop} {C C' : σ → Prop}

@[simp]
theorem ensures_pure (a : α) : Ensures (pure a) s Q E C ↔ Q a s := Iff.rfl

@[simp]
theorem ensures_fail (err : ε) : Ensures (fail err) s Q E C ↔ E err s := Iff.rfl

@[simp]
theorem ensures_read {Q : σ → σ → Prop} : Ensures read s Q E C ↔ Q s s := Iff.rfl

@[simp]
theorem ensures_modify (f : σ → σ) {Q : Unit → σ → Prop} :
    Ensures (modify f) s Q E C ↔ Q () (f s) := Iff.rfl

@[simp]
theorem ensures_bind (f : α → Prog σ ε β) {Q : β → σ → Prop} :
    Ensures (m >>= f) s Q E C ↔ Ensures m s (fun a s' => Ensures (f a) s' Q E C) E C := by
  simp only [Ensures, bind]
  rcases m s with ⟨_ | _ | _, s'⟩
  · rfl
  · rfl
  · rfl

@[simp]
theorem ensures_attempt {Q : Except ε α → σ → Prop} :
    Ensures (attempt m) s Q E C ↔
      Ensures m s (fun a => Q (.ok a)) (fun err => Q (.error err)) C := by
  simp only [Ensures, attempt]
  rcases m s with ⟨_ | _ | _, s'⟩
  · rfl
  · rfl
  · rfl

@[simp]
theorem ensures_mapError (g : ε → ε) :
    Ensures (mapError g m) s Q E C ↔ Ensures m s Q (fun err => E (g err)) C := by
  simp only [Ensures, mapError]
  rcases m s with ⟨_ | _ | _, s'⟩
  · rfl
  · rfl
  · rfl

theorem Ensures.mono (h : Ensures m s Q E C) (hQ : ∀ a s', Q a s' → Q' a s')
    (hE : ∀ err s', E err s' → E' err s') (hC : ∀ s', C s' → C' s') :
    Ensures m s Q' E' C' := by
  unfold Ensures at h ⊢
  rcases hrun : m s with ⟨_ | _ | _, s'⟩
  · rw [hrun] at h
    exact hQ _ s' h
  · rw [hrun] at h
    exact hE _ s' h
  · rw [hrun] at h
    exact hC s' h

/-- What a program ensures in two ways it ensures at once. -/
theorem Ensures.and (h : Ensures m s Q E C) (h' : Ensures m s Q' E' C') :
    Ensures m s (fun a s' => Q a s' ∧ Q' a s') (fun err s' => E err s' ∧ E' err s')
      fun s' => C s' ∧ C' s' := by
  unfold Ensures at h h' ⊢
  rcases hrun : m s with ⟨_ | _ | _, s'⟩
  · rw [hrun] at h h'
    exact ⟨h, h'⟩
  · rw [hrun] at h h'
    exact ⟨h, h'⟩
  · rw [hrun] at h h'
    exact ⟨h, h'⟩

/-- The state that a program returns in is the one that it leads to. -/
theorem Ensures.returned_eq (h : Ensures m s Q E C) :
    Ensures m s (fun a s' => Q a s' ∧ (m s).2 = s') E C := by
  unfold Ensures at h ⊢
  rcases hrun : m s with ⟨_ | _ | _, s'⟩
  · rw [hrun] at h
    exact ⟨h, rfl⟩
  · rw [hrun] at h
    exact h
  · rw [hrun] at h
    exact h

theorem Ensures.of_returned {a : α} {s' : σ} (h : Ensures m s Q E C)
    (hrun : m s = (.returned a, s')) : Q a s' := by
  unfold Ensures at h
  rwa [hrun] at h

theorem exists_returned (h : (m s).1.isReturned = true) : ∃ a, m s = (.returned a, (m s).2) := by
  rcases hrun : m s with ⟨a | _ | _, s'⟩
  · exact ⟨a, rfl⟩
  · rw [hrun] at h
    cases h
  · rw [hrun] at h
    cases h

theorem exists_failed (h : (m s).1.isFailed = true) : ∃ err, m s = (.failed err, (m s).2) := by
  rcases hrun : m s with ⟨_ | err | _, s'⟩
  · rw [hrun] at h
    cases h
  · exact ⟨err, rfl⟩
  · rw [hrun] at h
    cases h

/-- A program that neither fails nor crashes returns. -/
theorem Ensures.exists_eq (h : Ensures m s Q (fun _ _ => False) fun _ => False) :
    ∃ a s', m s = (.returned a, s') ∧ Q a s' := by
  unfold Ensures at h
  rcases hrun : m s with ⟨a | _ | _, s'⟩
  · rw [hrun] at h
    exact ⟨a, s', rfl, h⟩
  · rw [hrun] at h
    exact h.elim
  · rw [hrun] at h
    exact h.elim

/-- The invariant speaks of the members that the loop has been through. -/
theorem ensures_forEach {f : β → Prog σ ε Unit} {I : List β → σ → Prop} {xs : List β}
    (hinit : I [] s)
    (hstep : ∀ pre b post s', xs = pre ++ b :: post → I pre s' →
      Ensures (f b) s' (fun _ s'' => I (pre ++ [b]) s'') E C) :
    Ensures (forEach f xs) s (fun _ s' => I xs s') E C := by
  have hrest : ∀ post pre s', xs = pre ++ post → I pre s' →
      Ensures (forEach f post) s' (fun _ s'' => I xs s'') E C := by
    intro post
    induction post with
    | nil =>
      intro pre s' hsplit hinv
      rw [List.append_nil] at hsplit
      rw [hsplit]
      exact hinv
    | cons b post ih =>
      intro pre s' hsplit hinv
      rw [forEach, ensures_bind]
      apply (hstep pre b post s' hsplit hinv).mono
      · intro _ s'' hinv'
        exact ih (pre ++ [b]) s'' (by rw [hsplit, List.append_assoc, List.singleton_append]) hinv'
      · intro err s'' hE
        exact hE
      · intro s'' hC
        exact hC
  exact hrest xs [] s rfl hinit

end Prog

end PacketLoss.CrashPrograms
