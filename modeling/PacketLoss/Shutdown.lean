import Mathlib.Data.Nat.Count
import PacketLoss.ForeignFilters
import PacketLoss.Restarts

/-!
The end of a process. After a signal the deferred calls close each attachment and
then, with the collection, each object once more, and their errors are ignored. So
a filter stays only if two calls about it have failed, as long as others have left
its handle alone. After a fatal error no deferred call runs.
-/
namespace PacketLoss.Shutdown

open ForeignFilters (addOther delOther)
open CrashPrograms KeyedLists Prog Netlink TcAttach AttachRollback Restarts

/-- What others do to the filters while the process runs. -/
inductive Change
  | add (hook : Hook) (n : ℕ) (f : Filter)
  | del (hook : Hook) (f : Filter)

namespace Change

def hook : Change → Hook
  | add hook _ _ => hook
  | del hook _ => hook

def filter : Change → Filter
  | add _ _ f => f
  | del _ f => f

def apply (host : Host) : Change → Host
  | add hook n f => addOther host hook n f
  | del hook f => delOther host hook f

end Change

/-- What the process does when `main` ends. -/
inductive Ending
  | signal
  | fatal (err : Err)

variable (e : Env) (prog : Program)

/-- Opening the ring buffer touches no filter. -/
def newRingbufReader : Code Unit := query e fun _ => .ok ()

def ignoreError (m : Code Unit) : Code Unit := do
  let _ ← attempt m
  pure ()

/-- The deferred calls, the last one first. -/
def deferred (attachments : List Attachment) : Code Unit := do
  forEach (fun a => ignoreError (a.close e)) attachments
  ignoreError (collectionClose e)

/-- Up to the end of the loop that waits for ticks and for the signal. The process makes
no calls about filters there, and the changes of others come there, one after the other. -/
def serve (names : List String) (changes : List Change) : Code (List Attachment) := do
  let attachments ← start e prog names
  newRingbufReader e
  modify fun w => { w with host := changes.foldl Change.apply w.host }
  pure attachments

/-- An error is fatal: the process exits and runs no deferred call. -/
def main (names : List String) (changes : List Change) (ending : Ending) : Code Unit := do
  let attachments ← serve e prog names changes
  match ending with
  | .signal => deferred e attachments
  | .fatal err => fail err

variable {e} {prog} {base : Host}

/-- How many of the first `n` calls fail. -/
def failedCalls (e : Env) (n : ℕ) : ℕ := Nat.count (fun k => (e.fails k).isSome) n

theorem failedCalls_mono {n n' : ℕ} (h : n ≤ n') : failedCalls e n ≤ failedCalls e n' :=
  Nat.count_monotone _ h

theorem failedCalls_lt {n n' : ℕ} {err : Err} (hfails : e.fails n = some err) (h : n < n') :
    failedCalls e n < failedCalls e n' :=
  Nat.count_strict_mono (by rw [hfails]; rfl) h

/-- An error is that of a call which fails, or that of the host. -/
theorem ensures_query_counted {α : Type} (f : Host → Except Err α) (w : State) :
    Ensures (query e f) w (fun a w' => w' = w.after w.host ∧ f w.host = .ok a)
      (fun _ w' => w' = w.after w.host ∧
        (failedCalls e w.calls < failedCalls e w'.calls ∨ ∃ err, f w.host = .error err))
      (fun _ => True) := by
  apply (ensures_query f w).mono
  · intro a w' h
    exact ⟨h.1, h.2.2⟩
  · intro err w' h
    obtain ⟨rfl, hfails | ⟨-, hf⟩⟩ := h
    · exact ⟨rfl, Or.inl (failedCalls_lt hfails (Nat.lt_succ_self _))⟩
    · exact ⟨rfl, Or.inr ⟨err, hf⟩⟩
  · intro _ _
    exact trivial

theorem ensures_close_counted {p : ℕ} {c : ClsactFilter} {w : State}
    (hc : w.proc.heap[p]? = some c) (hhandle : c.handle ≠ 0)
    (hknown : c.ifaceIdx ∈ w.host.interfaces.map Prod.snd) :
    Ensures (ClsactFilter.close e p) w (fun _ _ => True)
      (fun _ w' => failedCalls e w.calls < failedCalls e w'.calls ∨
        firstWithHandle w.host c = none)
      (fun _ => True) := by
  simp only [ClsactFilter.close, ensures_bind, ensures_read, hc, if_neg hhandle, ensures_mapError]
  apply (ensures_query_counted _ w).mono
  · intro link w₁ h
    obtain ⟨rfl, hlink⟩ := h
    rw [if_pos hknown, Except.ok.injEq] at hlink
    rw [← hlink]
    have hle : failedCalls e w.calls ≤ failedCalls e (w.after w.host).calls :=
      failedCalls_mono (Nat.le_succ _)
    apply (ensures_query_counted _ _).mono
    · intro filters w₂ h
      obtain ⟨rfl, hlist⟩ := h
      rw [← Except.ok.inj hlist]
      have hfirst : (((w.after w.host).host.filters ⟨c.ifaceIdx, c.parent⟩).entries.find?
          fun filter => filter.handle = c.handle) = firstWithHandle w.host c := rfl
      rcases hfind : firstWithHandle w.host c with _ | f
      · simp only [hfirst, hfind, ensures_fail]
        exact Or.inr trivial
      · simp only [hfirst, hfind, ensures_bind, ensures_mapError]
        have hmem : f ∈ (w.host.filters c.hook).entries := List.mem_of_find?_eq_some hfind
        apply (ensures_filterDel c.hook ((w.after w.host).after w.host) hmem).mono
        · intro _ _ _
          exact trivial
        · intro err w₃ h
          obtain ⟨rfl, hfails⟩ := h
          obtain ⟨err', hsome⟩ := Option.ne_none_iff_exists'.mp hfails
          refine Or.inl (lt_of_le_of_lt ?_ (failedCalls_lt hsome (Nat.lt_succ_self _)))
          exact failedCalls_mono (Nat.le_add_right _ 2)
        · intro _ _
          exact trivial
    · intro err w₂ h
      obtain ⟨rfl, hlt | ⟨err', hlist⟩⟩ := h
      · exact Or.inl (lt_of_le_of_lt hle hlt)
      · cases hlist
    · intro _ _
      exact trivial
  · intro err w₁ h
    obtain ⟨rfl, hlt | ⟨err', hlink⟩⟩ := h
    · exact Or.inl hlt
    · rw [if_pos hknown] at hlink
      cases hlink
  · intro _ _
    exact trivial

/-- The object at `p` still holds a handle. -/
def liveAt (w : State) (p : ℕ) : Bool := (w.proc.heap[p]?).any fun c => c.handle ≠ 0

def liveObjects (w : State) : ℕ := w.proc.heap.countP fun c => c.handle ≠ 0

theorem countP_liveAt (w : State) :
    (List.range w.proc.heap.length).countP (liveAt w) = liveObjects w := by
  have hmap : (List.range w.proc.heap.length).map (fun p => w.proc.heap[p]?) =
      w.proc.heap.map some := by
    apply List.ext_getElem
    · simp
    · intro p hp hp'
      simp
  have hcount := congrArg (List.countP fun c : Option ClsactFilter => c.any fun c => c.handle ≠ 0)
    hmap
  rw [List.countP_map, List.countP_map] at hcount
  exact hcount

/-- The objects `ps` were closed one after the other: each that still holds a handle
has cost a failed call. -/
structure Releasing (e : Env) (prog : Program) (base : Host) (w₀ : State) (ps : List ℕ)
    (w : State) : Prop where
  owned : Owned prog base w
  length : w.proc.heap.length = w₀.proc.heap.length
  links : w.proc.links = w₀.proc.links
  calls : w₀.calls ≤ w.calls
  held : ∀ p, liveAt w p → liveAt w₀ p
  left : ps.countP (liveAt w) + failedCalls e w₀.calls ≤ failedCalls e w.calls

theorem releasing_nil {w : State} (h : Owned prog base w) : Releasing e prog base w [] w :=
  ⟨h, rfl, rfl, le_rfl, fun _ hp => hp, by simp⟩

/-- The object at `p` holds no handle afterwards, or one call more has failed. -/
theorem Releasing.concat {w₀ w w' : State} {ps : List ℕ} {p : ℕ}
    (h : Releasing e prog base w₀ ps w) (howned : Owned prog base w')
    (hlength : w'.proc.heap.length = w.proc.heap.length) (hlinks : w'.proc.links = w.proc.links)
    (hcalls : w.calls ≤ w'.calls) (hheld : ∀ q, liveAt w' q → liveAt w q)
    (hlast : liveAt w' p = false ∨ failedCalls e w.calls < failedCalls e w'.calls) :
    Releasing e prog base w₀ (ps ++ [p]) w' where
  owned := howned
  length := hlength.trans h.length
  links := hlinks.trans h.links
  calls := h.calls.trans hcalls
  held := fun q hq => h.held q (hheld q hq)
  left := by
    have hleft := h.left
    have hmono : ps.countP (liveAt w') ≤ ps.countP (liveAt w) :=
      List.countP_mono_left fun q _ hq => hheld q hq
    have hcount := failedCalls_mono (e := e) hcalls
    rw [List.countP_append, List.countP_singleton]
    rcases hlast with hclosed | hlt
    · rw [hclosed, if_neg Bool.false_ne_true]
      omega
    · have hone : (if liveAt w' p = true then 1 else 0) ≤ 1 := by
        split <;> decide
      omega

theorem liveAt_of_closed {w : State} {p : ℕ} (h : ClosedAt w p) : liveAt w p = false := by
  rcases hc : w.proc.heap[p]? with _ | c
  · simp [liveAt, hc]
  · simp [liveAt, hc, h c hc]

theorem Releasing.close {w₀ w : State} {ps : List ℕ} (h : Releasing e prog base w₀ ps w) (p : ℕ) :
    Ensures (ClsactFilter.close e p) w (fun _ w' => Releasing e prog base w₀ (ps ++ [p]) w')
      (fun _ w' => Releasing e prog base w₀ (ps ++ [p]) w') (Abandoned e prog base) := by
  by_cases hclosed : ClosedAt w p
  · apply (ensures_close_of_closed hclosed).mono
    · intro _ w' hw
      rw [hw]
      exact h.concat h.owned rfl rfl le_rfl (fun _ hq => hq) (Or.inl (liveAt_of_closed hclosed))
    · intro _ _ hfalse
      exact hfalse
    · intro _ hfalse
      exact hfalse
  · obtain ⟨c, hc, hhandle⟩ : ∃ c, w.proc.heap[p]? = some c ∧ c.handle ≠ 0 := by
      simpa [ClosedAt] using hclosed
    have hmem : c ∈ w.proc.heap := List.mem_of_getElem? hc
    have hknown : c.ifaceIdx ∈ w.host.interfaces.map Prod.snd := by
      rw [h.owned.interfaces]
      exact h.owned.known c hmem
    have hfound := h.owned.layered.exists_first (mem_liveHandles hmem hhandle)
    apply ((ensures_close_live h.owned hc hhandle).and
      (ensures_close_counted hc hhandle hknown)).mono
    · intro _ w' hboth
      obtain ⟨⟨howned, hcalls, hproc⟩, -⟩ := hboth
      have hgone : liveAt w' p = false := by
        rw [liveAt, hproc, List.getElem?_set_self (List.getElem?_eq_some_iff.mp hc).1]
        rfl
      refine h.concat howned ?_ ?_ hcalls ?_ (Or.inl hgone)
      · rw [hproc, List.length_set]
      · rw [hproc]
      · intro q hq
        by_cases hqp : q = p
        · rw [hqp, hgone] at hq
          cases hq
        · rwa [liveAt, hproc, List.getElem?_set_ne (Ne.symm hqp)] at hq
    · intro err w' hboth
      obtain ⟨⟨hcalls, hhost, hproc, -⟩, hcause⟩ := hboth
      have howned : Owned prog base w' := by
        refine ⟨?_, ?_, ?_⟩
        · rw [hhost, hproc]
          exact h.owned.layered
        · rw [hhost]
          exact h.owned.interfaces
        · rw [hproc]
          exact h.owned.known
      refine h.concat howned (by rw [hproc]) (by rw [hproc]) hcalls ?_
        (Or.inr (hcause.resolve_right hfound))
      intro q hq
      rwa [liveAt, hproc] at hq
    · intro w' hboth
      exact hboth.1

/-- The deferred function that closes the attachments. -/
theorem ensures_closeEach {attachments : List Attachment} {w : State}
    (howned : Owned prog base w) (hholding : Holding attachments w) :
    Ensures (forEach (fun a => ignoreError (Attachment.close e a)) attachments) w
      (fun _ w' => Releasing e prog base w (List.range w.proc.heap.length) w')
      (fun _ _ => False) (Abandoned e prog base) := by
  rw [← hholding.length_eq]
  apply ensures_forEach (I := fun pre w' => Releasing e prog base w (List.range pre.length) w')
  · exact releasing_nil howned
  · intro pre a post w' hsplit hreleasing
    obtain ⟨hclose, -⟩ := hholding.close_eq (e := e) hsplit
    rw [List.length_append, List.length_singleton, List.range_succ, ignoreError, ensures_bind,
      ensures_attempt, hclose]
    apply (hreleasing.close pre.length).mono
    · intro _ w'' h
      exact h
    · intro err w'' h
      exact h
    · intro w'' h
      exact h

theorem ensures_closeLinks_releasing {w₀ w : State} {ps : List ℕ}
    (h : Releasing e prog base w₀ ps w) (links : List ℕ) (first : Option Err) :
    Ensures (closeLinks e links first) w
      (fun _ w' => Releasing e prog base w₀ (ps ++ links) w') (fun _ _ => False)
      (Abandoned e prog base) := by
  induction links generalizing w ps first with
  | nil =>
    rw [List.append_nil]
    exact h
  | cons p links ih =>
    have hsplit : ps ++ p :: links = (ps ++ [p]) ++ links := by simp
    rw [closeLinks, ensures_bind, ensures_attempt, hsplit]
    apply (h.close p).mono
    · intro _ w' h'
      exact ih h' first
    · intro err w' h'
      exact ih h' (first.or (some err))
    · intro w' h'
      exact h'

/-- Closing the collection closes the objects once more. -/
theorem ensures_collectionClose_releasing {w : State} (h : Owned prog base w) :
    Ensures (collectionClose e) w (fun _ w' => Releasing e prog base w w.proc.links w')
      (fun _ w' => Releasing e prog base w w.proc.links w') (Abandoned e prog base) := by
  rw [collectionClose]
  simp only [ensures_bind, ensures_read, ensures_attempt]
  have hnone : [] ++ w.proc.links = w.proc.links := List.nil_append _
  apply (ensures_closeLinks_releasing (releasing_nil h) w.proc.links none).mono
  · intro first w₁ hreleasing
    rw [hnone] at hreleasing
    have hafter : Releasing e prog base w w.proc.links (w₁.after w₁.host) := by
      refine ⟨⟨hreleasing.owned.layered, hreleasing.owned.interfaces, hreleasing.owned.known⟩,
        hreleasing.length, hreleasing.links, hreleasing.calls.trans (Nat.le_succ _),
        hreleasing.held, hreleasing.left.trans (failedCalls_mono (Nat.le_succ _))⟩
    apply (ensures_query _ w₁).mono
    · intro _ w₂ hquery
      rw [hquery.1]
      rcases first with _ | err
      · exact hafter
      · exact hafter
    · intro err w₂ hquery
      rw [hquery.1]
      rcases first with _ | err'
      · exact hafter
      · exact hafter
    · intro w₂ hquery
      rw [hquery.1]
      exact ⟨⟨_, hreleasing.owned.layered⟩, w₁.calls, hquery.2⟩
  · intro _ _ hfalse
    exact hfalse.elim
  · intro _ habandoned
    exact habandoned

/-- Each filter that is left has cost two failed calls. -/
theorem ensures_deferred {attachments : List Attachment} {w : State}
    (howned : Owned prog base w) (hholding : Holding attachments w) :
    Ensures (deferred e attachments) w
      (fun _ w' => Owned prog base w' ∧
        2 * liveObjects w' + failedCalls e w.calls ≤ failedCalls e w'.calls)
      (fun _ _ => False) (Abandoned e prog base) := by
  rw [deferred, ensures_bind]
  apply (ensures_closeEach howned hholding).mono
  · intro _ w₁ hfirst
    rw [ignoreError, ensures_bind, ensures_attempt]
    have hend : ∀ w', Releasing e prog base w₁ w₁.proc.links w' →
        Owned prog base w' ∧
          2 * liveObjects w' + failedCalls e w.calls ≤ failedCalls e w'.calls := by
      intro w' hsecond
      refine ⟨hsecond.owned, ?_⟩
      have hleft := hfirst.left
      have hleft' := hsecond.left
      have hlength := hsecond.length.trans hfirst.length
      rw [hfirst.links, hholding.links, ← hlength, countP_liveAt] at hleft'
      have hmono : (List.range w.proc.heap.length).countP (liveAt w') ≤
          (List.range w.proc.heap.length).countP (liveAt w₁) :=
        List.countP_mono_left fun q _ hq => hsecond.held q hq
      rw [← hlength, countP_liveAt] at hmono
      rw [← hlength] at hleft
      omega
    apply (ensures_collectionClose_releasing hfirst.owned).mono
    · intro _ w' hsecond
      exact hend w' hsecond
    · intro err w' hsecond
      exact hend w' hsecond
    · intro _ habandoned
      exact habandoned
  · intro _ _ hfalse
    exact hfalse.elim
  · intro _ habandoned
    exact habandoned

/-! Others may change the lists meanwhile, as long as they leave alone the handles that
this process holds. -/

section Others

/-- A change is not seen by who looks for filters of another kind. -/
theorem filter_apply (host : Host) (c : Change) (hook : Hook) (p : Filter → Bool)
    (hp : c.hook = hook → p c.filter = false) :
    ((c.apply host).filters hook).entries.filter p = (host.filters hook).entries.filter p := by
  by_cases hhook : c.hook = hook
  · have hf := hp hhook
    subst hhook
    cases c with
    | add hook n f =>
      have hf : p f = false := hf
      show ((addOther host hook n f).filters hook).entries.filter p =
        (host.filters hook).entries.filter p
      unfold addOther
      rcases hadd : (host.filters hook).add n f with _ | t
      · rfl
      · rw [Host.filters_setFilters_self, (KeyedList.add_eq_some_iff.mp hadd).2,
          List.filter_append, List.filter_cons_of_neg (by simp [hf]), ← List.filter_append,
          List.take_append_drop]
    | del hook f =>
      have hf : p f = false := hf
      show ((delOther host hook f).filters hook).entries.filter p =
        (host.filters hook).entries.filter p
      rw [delOther, Host.filters_setFilters_self]
      show ((host.filters hook).entries.erase f).filter p = _
      rw [(host.filters hook).nodup_entries.erase_eq_filter, List.filter_filter]
      apply List.filter_congr
      intro g _
      by_cases hg : g = f
      · simp [hg, hf]
      · simp [hg]
  · have hother : (c.apply host).filters hook = host.filters hook := by
      cases c with
      | add hook' n f =>
        show (addOther host hook' n f).filters hook = host.filters hook
        unfold addOther
        rcases (host.filters hook').add n f with _ | t
        · rfl
        · exact Host.filters_setFilters_of_ne t (Ne.symm hhook)
      | del hook' f => exact Host.filters_setFilters_of_ne _ (Ne.symm hhook)
    rw [hother]

theorem interfaces_apply (host : Host) (c : Change) :
    (c.apply host).interfaces = host.interfaces := by
  cases c with
  | add hook n f =>
    show (addOther host hook n f).interfaces = host.interfaces
    unfold addOther
    rcases (host.filters hook).add n f with _ | t
    · rfl
    · rfl
  | del hook f => rfl

/-- The host without the filters whose handles the process holds. -/
def withoutHeld (w : State) : Host where
  interfaces := w.host.interfaces
  nodup := w.host.nodup
  qdiscs := w.host.qdiscs
  filters hook :=
    { entries := (w.host.filters hook).entries.filter fun f =>
        f.handle ∉ liveHandles w.proc.heap hook
      nodup := (w.host.filters hook).nodup.sublist (List.filter_sublist.map _) }

/-- What the process holds lies over the rest. -/
def Held (prog : Program) (w : State) : Prop := Owned prog (withoutHeld w) w

theorem entries_withoutHeld {w : State} (h : Owned prog base w) (hook : Hook) :
    ((withoutHeld w).filters hook).entries = (base.filters hook).entries :=
  ((h.layered hook).base_eq label_own).symm

theorem held_of_owned {w : State} (h : Owned prog base w) : Held prog w where
  layered := by
    intro hook
    rw [entries_withoutHeld h hook]
    exact h.layered hook
  interfaces := rfl
  known := by
    show ∀ c ∈ w.proc.heap, c.ifaceIdx ∈ w.host.interfaces.map Prod.snd
    rw [h.interfaces]
    exact h.known

def changed (w : State) (changes : List Change) : State :=
  { w with host := changes.foldl Change.apply w.host }

/-- Others do not use the handles that the process holds. -/
def Apart (w : State) (changes : List Change) : Prop :=
  ∀ c ∈ changes, c.filter.handle ∉ liveHandles w.proc.heap c.hook

theorem Held.changed {w : State} (h : Held prog w) {changes : List Change}
    (hapart : Apart w changes) : Held prog (changed w changes) := by
  induction changes generalizing w with
  | nil => exact h
  | cons c changes ih =>
    obtain ⟨hfirst, hrest⟩ := List.forall_mem_cons.mp hapart
    apply ih (w := { w with host := c.apply w.host }) _ hrest
    refine ⟨?_, rfl, ?_⟩
    · intro hook
      apply Layer.of_labelled (h.layered hook).nodup
      show (((c.apply w.host).filters hook).entries.filter fun f =>
        f.handle ∈ liveHandles w.proc.heap hook).Perm _
      rw [filter_apply w.host c hook fun f => f.handle ∈ liveHandles w.proc.heap hook]
      · exact (h.layered hook).labelled label_own
      · rintro rfl
        exact decide_eq_false hfirst
    · show ∀ c' ∈ w.proc.heap, c'.ifaceIdx ∈ (c.apply w.host).interfaces.map Prod.snd
      rw [interfaces_apply]
      exact h.known

end Others

/-- What a start has made of the host when it has attached to all interfaces. -/
structure Attaches (prog : Program) (names : List String) (host : Host)
    (attachments : List Attachment) (w : State) : Prop where
  holding : Holding attachments w
  held : Held prog w
  interfaces : w.host.interfaces = host.interfaces
  foreign : ForeignKept prog host w.host
  cleaned : w.proc.log = [] → ∀ name ∈ names, ∃ index, host.indexOf name = some index ∧
    Cleaned prog (withoutHeld w) ⟨index, HANDLE_MIN_EGRESS⟩

theorem Attaches.kept {names : List String} {host : Host} {attachments : List Attachment}
    {w w' : State} (h : Attaches prog names host attachments w) (hkept : Kept w w') :
    Attaches prog names host attachments w' where
  holding := ⟨h.holding.link, hkept.proc ▸ h.holding.clsact, hkept.proc ▸ h.holding.links⟩
  held := held_of_owned (h.held.kept hkept)
  interfaces := hkept.interfaces.trans h.interfaces
  foreign := fun hook => by rw [hkept.filters, h.foreign hook]
  cleaned := by
    intro hlog name hname
    rw [hkept.proc] at hlog
    obtain ⟨index, hindex, hclean⟩ := h.cleaned hlog name hname
    refine ⟨index, hindex, fun f hf => hclean f ?_⟩
    rwa [entries_withoutHeld (h.held.kept hkept)] at hf

theorem ensures_start_attaches (names : List String) (host : Host) :
    Ensures (start e prog names) (World.fresh host) (Attaches prog names host)
      (fun _ w' => ForeignKept prog host w'.host) (fun w' => ForeignKept prog host w'.host) := by
  rw [start, ensures_bind]
  apply (ensures_cleanupAll names (World.fresh host)).mono
  · intro _ w₁ hcleaned
    have hspared := hcleaned.spared
    have howned : Owned prog w₁.host w₁ := owned_of_heap_nil hspared.heap
    apply (ensures_attachAll names howned (holding_nil hspared.heap hspared.links)).mono
    · intro attachments w' h
      obtain ⟨objects, hall, -, -⟩ := h
      refine ⟨hall.holding, held_of_owned hall.owned,
        hall.owned.interfaces.trans hspared.interfaces,
        foreignKept_of_layered hspared hall.owned.layered, ?_⟩
      intro hlog name hname
      rw [hall.log] at hlog
      obtain ⟨index, hindex, hclean⟩ := hcleaned.cleaned hlog name hname
      refine ⟨index, hindex, fun f hf => hclean f ?_⟩
      rwa [entries_withoutHeld hall.owned] at hf
    · intro err w' h
      obtain ⟨_, _, _, _, -, -, -, hclosing⟩ := h
      exact foreignKept_of_layered hspared hclosing.owned.layered
    · intro w' h
      obtain ⟨⟨handles, hlayered⟩, -⟩ := h
      exact foreignKept_of_layered hspared hlayered
  · intro _ _ hfalse
    exact hfalse.elim
  · intro w₁ h
    exact h.1.foreign

theorem ensures_serve (names : List String) (changes : List Change) (host : Host) :
    Ensures (serve e prog names changes) (World.fresh host)
      (fun attachments w' => ∃ w, w' = changed w changes ∧
        Attaches prog names host attachments w)
      (fun _ w' => ForeignKept prog host w'.host) (fun w' => ForeignKept prog host w'.host) := by
  rw [serve, ensures_bind]
  apply (ensures_start_attaches names host).mono
  · intro attachments w₁ hattaches
    rw [ensures_bind]
    have hforeign : ∀ w₂, Kept w₁ w₂ → ForeignKept prog host w₂.host :=
      fun _ hkept => (hattaches.kept hkept).foreign
    apply (ensures_query_kept _ w₁).mono
    · intro _ w₂ h
      exact ⟨w₂, rfl, hattaches.kept h.1⟩
    · intro err w₂ h
      exact hforeign w₂ h.1
    · intro w₂ h
      exact hforeign w₂ h.1
  · intro _ _ h
    exact h
  · intro _ h
    exact h

theorem Attaches.holding_changed {names : List String} {host : Host}
    {attachments : List Attachment} {w : State} (h : Attaches prog names host attachments w)
    (changes : List Change) : Holding attachments (changed w changes) :=
  ⟨h.holding.link, h.holding.clsact, h.holding.links⟩

/-- What the deferred calls leave: over the filters of others a layer, of which each
filter has cost two failed calls. -/
structure Stopped (e : Env) (prog : Program) (w w' : State) : Prop where
  layered : ∀ hook, Layer Filter.handle (ownFilter prog) ((withoutHeld w).filters hook).entries
    (w'.host.filters hook).entries (liveHandles w'.proc.heap hook)
  left : 2 * liveObjects w' + failedCalls e w.calls ≤ failedCalls e w'.calls
  restored : failedCalls e w'.calls < failedCalls e w.calls + 2 →
    w'.host.filters = (withoutHeld w).filters

theorem liveHandles_eq_nil {w : State} (h : liveObjects w = 0) (hook : Hook) :
    liveHandles w.proc.heap hook = [] := by
  rw [liveHandles, List.filter_eq_nil_iff.mpr, List.map_nil]
  intro c hc hboth
  have hzero := List.countP_eq_zero.mp h c hc
  simp only [decide_eq_true_eq] at hboth hzero
  exact hzero hboth.2

theorem stopped_of_owned {w w' : State} (howned : Owned prog (withoutHeld w) w')
    (hleft : 2 * liveObjects w' + failedCalls e w.calls ≤ failedCalls e w'.calls) :
    Stopped e prog w w' where
  layered := howned.layered
  left := hleft
  restored := fun hfew =>
    howned.layered.filters_eq (liveHandles_eq_nil (by omega))

section Example

def both : List String := ["eth0", "wg0"]

/-- Somebody adds a filter in front. -/
def otherAdds : List Change := [.add ⟨2, HANDLE_MIN_EGRESS⟩ 0 ⟨7, ETH_P_ALL, 1, none⟩]

/-- The first deletion after the signal fails. -/
def deletionFails : Env :=
  { quiet with fails := fun n => if n = 21 then some (.errno 16) else none }

def served : State := (serve deletionFails loaded both otherAdds (World.fresh bareHost)).2

example :
    let w := (main deletionFails loaded both otherAdds .signal (World.fresh bareHost)).2
    failedCalls deletionFails w.calls = 1 ∧
      [2, 5].map (fun link => (served.host.filters ⟨link, HANDLE_MIN_EGRESS⟩).entries.length) =
        [2, 1] ∧
      [2, 5].map (fun link => (w.host.filters ⟨link, HANDLE_MIN_EGRESS⟩).entries.length) =
        [1, 0] := by
  decide +kernel

end Example

end PacketLoss.Shutdown
