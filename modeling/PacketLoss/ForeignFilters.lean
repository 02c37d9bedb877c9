import PacketLoss.Schedules
import PacketLoss.TcAttach

/-!
Detaching while others use the same hook. The object remembers only the handle of
its filter, and handles may repeat under another priority or protocol, or return
once the filter is gone. So a close is about the first filter with that handle,
which may be somebody else's. The cleanup of stale filters compares name and tag
before it deletes; a close does not.
-/
namespace PacketLoss.ForeignFilters

open CrashPrograms KeyedLists Prog Netlink TcAttach Schedules

/-- Others add and delete filters; the process closes its object. -/
inductive Event
  | add (hook : Hook) (n : ℕ) (f : Filter)
  | del (hook : Hook) (f : Filter)
  | close

/-- `present` says that the filter of the attach has stayed, `closed` that a close
has returned without an error. -/
structure Detaching where
  w : State
  present : Bool
  closed : Bool

variable (e : Env) (p : ℕ) (hook : Hook) (own : Filter)

/-- Others cannot add a second filter with the same key either. -/
def addOther (host : Host) (hook' : Hook) (n : ℕ) (f : Filter) : Host :=
  match (host.filters hook').add n f with
  | some t => host.setFilters hook' t
  | none => host

def delOther (host : Host) (hook' : Hook) (f : Filter) : Host :=
  host.setFilters hook' ((host.filters hook').del f)

def step (s : Detaching) : Event → Detaching
  | .add hook' n f => { s with w := { s.w with host := addOther s.w.host hook' n f } }
  | .del hook' f =>
    { s with
      w := { s.w with host := delOther s.w.host hook' f }
      present := s.present && !(decide (hook' = hook) && decide (f = own)) }
  | .close =>
    { w := (ClsactFilter.close e p s.w).2
      present := s.present &&
        decide (own ∈ ((ClsactFilter.close e p s.w).2.host.filters hook).entries)
      closed := s.closed || (ClsactFilter.close e p s.w).1.isReturned }

/-- What a close does when it is about the filter of the attach only. -/
structure DetachesOwn (s : Detaching) : Prop where
  atMostOwn : (ClsactFilter.close e p s.w).2.host.filters = s.w.host.filters ∨
    s.present = true ∧ (ClsactFilter.close e p s.w).2.host.filters =
      Function.update s.w.host.filters hook ((s.w.host.filters hook).del own)
  again : s.closed = true → ClsactFilter.close e p s.w = (.returned (), s.w)
  gone : s.closed = false → s.present = false →
    (∃ err, (ClsactFilter.close e p s.w).1 = .failed err) ∧
      (ClsactFilter.close e p s.w).2.host.filters = s.w.host.filters

/-- A filter with the handle is the one of the attach or stands behind it. -/
def HandleIsOwn (s : Detaching) : Prop :=
  s.closed = false → (∀ k < 3, e.fails (s.w.calls + k) = none) →
    ∀ pre f post, (s.w.host.filters hook).entries = pre ++ f :: post →
      f.handle = own.handle → s.present = true ∧ (f = own ∨ own ∈ pre)

/-- The object at `p` is that of the attach. -/
structure Tracks (s : Detaching) : Prop where
  object : ∃ c, s.w.proc.heap[p]? = some c ∧ c.hook = hook ∧
    c.handle = if s.closed then 0 else own.handle
  known : hook.link ∈ s.w.host.interfaces.map Prod.snd
  present : s.present = true → own ∈ (s.w.host.filters hook).entries

variable {e} {p} {hook} {own}

theorem closes_again {s : Detaching} (h : Tracks p hook own s) (hclosed : s.closed = true) :
    ClsactFilter.close e p s.w = (.returned (), s.w) := by
  obtain ⟨c, hc, -, hhandle⟩ := h.object
  rw [if_pos hclosed] at hhandle
  have hclosedAt : ClosedAt s.w p := by
    intro c' hc'
    rw [← Option.some.inj (hc.symm.trans hc')]
    exact hhandle
  obtain ⟨_, w', hrun, rfl⟩ := (ensures_close_of_closed (e := e) hclosedAt).exists_eq
  exact hrun

/-- The first filter with the handle goes, or nothing. -/
theorem close_cases {s : Detaching} (hlive : ¬Dies e) (hown : own.handle ≠ 0)
    (h : Tracks p hook own s) (hopen : s.closed = false) :
    (∃ w' f c, ClsactFilter.close e p s.w = (.returned (), w') ∧
      (∀ k < 3, e.fails (s.w.calls + k) = none) ∧
      (s.w.host.filters hook).entries.find? (fun f => f.handle = own.handle) = some f ∧
      w'.host = s.w.host.setFilters hook ((s.w.host.filters hook).del f) ∧
      w'.proc.heap[p]? = some c ∧ c.hook = hook ∧ c.handle = 0) ∨
    ∃ w' err, ClsactFilter.close e p s.w = (.failed err, w') ∧ w'.host = s.w.host ∧
      w'.proc = s.w.proc ∧ ((∃ k < 3, e.fails (s.w.calls + k) ≠ none) ∨
        (s.w.host.filters hook).entries.find? (fun f => f.handle = own.handle) = none) := by
  obtain ⟨c, hc, hhook, hhandle⟩ := h.object
  rw [hopen] at hhandle
  have hhandle' : c.handle = own.handle := by simpa using hhandle
  have hknown : c.ifaceIdx ∈ s.w.host.interfaces.map Prod.snd := by
    have hlink : c.ifaceIdx = hook.link := by rw [← hhook, ClsactFilter.hook]
    rw [hlink]
    exact h.known
  have hclose := ensures_close (e := e) hc (by rw [hhandle']; exact hown) hknown
  unfold Ensures firstWithHandle detached at hclose
  rcases hrun : ClsactFilter.close e p s.w with ⟨_ | err | _, w'⟩
  · rw [hrun] at hclose
    obtain ⟨-, hnone, f, hfind, hhost, hproc⟩ := hclose
    rw [hhook, hhandle'] at hfind
    rw [hhook] at hhost
    have hlt : p < s.w.proc.heap.length := (List.getElem?_eq_some_iff.mp hc).1
    refine Or.inl ⟨w', f, { c with handle := 0 }, rfl, hnone, hfind, hhost, ?_, hhook, rfl⟩
    rw [hproc]
    exact List.getElem?_set_self hlt
  · rw [hrun] at hclose
    obtain ⟨-, hhost, hproc, hcause⟩ := hclose
    rw [hhook, hhandle'] at hcause
    exact Or.inr ⟨w', err, rfl, hhost, hproc, hcause⟩
  · rw [hrun] at hclose
    exact absurd hclose.2.2 hlive

theorem tracks_add {s : Detaching} (hook' : Hook) (n : ℕ) (f : Filter) (h : Tracks p hook own s) :
    Tracks p hook own (step e p hook own s (.add hook' n f)) := by
  obtain ⟨hobject, hknown, hpresent⟩ := h
  refine ⟨hobject, ?_, ?_⟩
  · simp only [step, addOther]
    split
    · exact hknown
    · exact hknown
  · intro hs
    simp only [step, addOther]
    split
    next t hadd =>
      by_cases hhook : hook = hook'
      · rw [hhook, Host.filters_setFilters_self]
        apply (KeyedList.sublist_add hadd).subset
        rw [← hhook]
        exact hpresent hs
      · rw [Host.filters_setFilters_of_ne t hhook]
        exact hpresent hs
    next => exact hpresent hs

theorem tracks_del {s : Detaching} (hook' : Hook) (f : Filter) (h : Tracks p hook own s) :
    Tracks p hook own (step e p hook own s (.del hook' f)) := by
  obtain ⟨hobject, hknown, hpresent⟩ := h
  refine ⟨hobject, hknown, ?_⟩
  intro hs
  simp only [step, Bool.and_eq_true, Bool.not_eq_true', Bool.and_eq_false_iff,
    decide_eq_false_iff_not] at hs
  obtain ⟨hs, hother⟩ := hs
  simp only [step, delOther]
  by_cases hhook : hook = hook'
  · have hne : own ≠ f := by
      intro heq
      rcases hother with hnot | hnot
      · exact hnot hhook.symm
      · exact hnot heq.symm
    rw [hhook, Host.filters_setFilters_self, KeyedList.mem_del, ← hhook]
    exact ⟨hne, hpresent hs⟩
  · rw [Host.filters_setFilters_of_ne _ hhook]
    exact hpresent hs

theorem tracks_close {s : Detaching} (hlive : ¬Dies e) (hown : own.handle ≠ 0)
    (h : Tracks p hook own s) : Tracks p hook own (step e p hook own s .close) := by
  have hstay : (step e p hook own s .close).present = true →
      own ∈ ((step e p hook own s .close).w.host.filters hook).entries := by
    intro hs
    simp only [step, Bool.and_eq_true, decide_eq_true_eq] at hs
    exact hs.2
  rcases hclosed : s.closed with _ | _
  · rcases close_cases hlive hown h hclosed with
      ⟨w', f, c, hrun, -, -, hhost, hc, hhook, hzero⟩ | ⟨w', err, hrun, hhost, hproc, -⟩
    · refine ⟨⟨c, ?_, hhook, ?_⟩, ?_, hstay⟩
      · simp only [step, hrun]
        exact hc
      · simp [step, hrun, Outcome.isReturned, hzero]
      · simp only [step, hrun, hhost]
        exact h.known
    · refine ⟨?_, ?_, hstay⟩
      · simp only [step, hrun, hproc, Outcome.isReturned, Bool.or_false]
        exact h.object
      · simp only [step, hrun, hhost]
        exact h.known
  · have hrun := closes_again (e := e) h hclosed
    refine ⟨?_, ?_, hstay⟩
    · have hobject := h.object
      rw [hclosed] at hobject
      simp only [step, hrun, hclosed, Bool.true_or]
      exact hobject
    · simp only [step, hrun]
      exact h.known

theorem tracks_step {s : Detaching} (hlive : ¬Dies e) (hown : own.handle ≠ 0) (a : Event)
    (h : Tracks p hook own s) : Tracks p hook own (step e p hook own s a) := by
  cases a with
  | add hook' n f => exact tracks_add hook' n f h
  | del hook' f => exact tracks_del hook' f h
  | close => exact tracks_close hlive hown h

/-- The condition speaks of the filter that a close finds. -/
theorem handleIsOwn_iff {s : Detaching} :
    HandleIsOwn e hook own s ↔
      (s.closed = false → (∀ k < 3, e.fails (s.w.calls + k) = none) →
        ∀ f, (s.w.host.filters hook).entries.find? (fun f => f.handle = own.handle) = some f →
          s.present = true ∧ f = own) := by
  have hiff := ListSplits.find?_eq_iff_forall (s.w.host.filters hook).entries
    (p := fun f : Filter => f.handle = own.handle) (x := own) (decide_eq_true rfl)
  refine imp_congr_right fun _ => imp_congr_right fun _ => ?_
  constructor
  · intro h f hfind
    obtain ⟨hhandle, pre, post, hsplit, -⟩ := List.find?_eq_some_iff_append.mp hfind
    refine ⟨(h pre f post hsplit (of_decide_eq_true hhandle)).1, ?_⟩
    apply hiff.mpr _ f hfind
    intro pre y post hsplit hy
    exact (h pre y post hsplit (of_decide_eq_true hy)).2
  · intro h pre f post hsplit hhandle
    rcases hfind : (s.w.host.filters hook).entries.find? fun f => f.handle = own.handle with _ | g
    · have hnone := List.find?_eq_none.mp hfind f (by rw [hsplit]; simp)
      exact absurd (decide_eq_true hhandle) hnone
    · refine ⟨(h g hfind).1, ?_⟩
      exact hiff.mp (fun y hy => (h y hy).2) pre f post hsplit (decide_eq_true hhandle)

/-- Deleting a filter that is there is no deleting of another, and not nothing. -/
theorem eq_of_setFilters_del {host : Host} {f : Filter}
    (hf : f ∈ (host.filters hook).entries)
    (h : (host.setFilters hook ((host.filters hook).del f)).filters = host.filters ∨
      (host.setFilters hook ((host.filters hook).del f)).filters =
        Function.update host.filters hook ((host.filters hook).del own)) : f = own := by
  have hgone : f ∉ ((host.setFilters hook ((host.filters hook).del f)).filters hook).entries := by
    rw [Host.filters_setFilters_self, KeyedList.mem_del]
    intro hmem
    exact hmem.1 rfl
  rcases h with h | h
  · rw [h] at hgone
    exact absurd hf hgone
  · rw [h, Function.update_self, KeyedList.mem_del] at hgone
    by_contra hne
    exact hgone ⟨hne, hf⟩

theorem detachesOwn_of_closed {s : Detaching} (h : Tracks p hook own s)
    (hclosed : s.closed = true) : DetachesOwn e p hook own s := by
  have hrun := closes_again (e := e) h hclosed
  refine ⟨?_, fun _ => hrun, ?_⟩
  · rw [hrun]
    exact Or.inl rfl
  · intro hopen
    rw [hclosed] at hopen
    cases hopen

theorem detachesOwn_of_failed {s : Detaching} {err : Err} {w' : State} (hopen : s.closed = false)
    (hrun : ClsactFilter.close e p s.w = (.failed err, w')) (hhost : w'.host = s.w.host) :
    DetachesOwn e p hook own s := by
  refine ⟨?_, ?_, ?_⟩
  · rw [hrun, hhost]
    exact Or.inl rfl
  · intro hclosed
    rw [hopen] at hclosed
    cases hclosed
  · intro _ _
    rw [hrun, hhost]
    exact ⟨⟨err, rfl⟩, rfl⟩

/-- A close that deletes has to delete the filter of the attach. -/
theorem detachesOwn_iff_of_deleted {s : Detaching} {f : Filter} {w' : State}
    (hopen : s.closed = false) (hrun : ClsactFilter.close e p s.w = (.returned (), w'))
    (hf : f ∈ (s.w.host.filters hook).entries)
    (hhost : w'.host = s.w.host.setFilters hook ((s.w.host.filters hook).del f)) :
    DetachesOwn e p hook own s ↔ s.present = true ∧ f = own := by
  constructor
  · intro hdetach
    have hatMost := hdetach.atMostOwn
    rw [hrun, hhost] at hatMost
    refine ⟨?_, eq_of_setFilters_del hf (hatMost.imp_right And.right)⟩
    rcases hs : s.present with _ | _
    · obtain ⟨⟨err, herr⟩, -⟩ := hdetach.gone hopen hs
      rw [hrun] at herr
      cases herr
    · rfl
  · intro h
    obtain ⟨hpresent, rfl⟩ := h
    refine ⟨?_, ?_, ?_⟩
    · rw [hrun, hhost]
      exact Or.inr ⟨hpresent, rfl⟩
    · intro hclosed
      rw [hopen] at hclosed
      cases hclosed
    · intro _ hgone
      rw [hpresent] at hgone
      cases hgone

theorem detachesOwn_iff {s : Detaching} (hlive : ¬Dies e) (hown : own.handle ≠ 0)
    (h : Tracks p hook own s) : DetachesOwn e p hook own s ↔ HandleIsOwn e hook own s := by
  rw [handleIsOwn_iff]
  rcases hclosed : s.closed with _ | _
  · rcases close_cases hlive hown h hclosed with
      ⟨w', f, c, hrun, hcalls, hfind, hhost, -⟩ | ⟨w', err, hrun, hhost, -, hcause⟩
    · rw [detachesOwn_iff_of_deleted hclosed hrun (List.mem_of_find?_eq_some hfind) hhost]
      constructor
      · intro hdetach _ _ g hg
        rw [← Option.some.inj (hfind.symm.trans hg)]
        exact hdetach
      · intro hcond
        exact hcond rfl hcalls f hfind
    · refine iff_of_true (detachesOwn_of_failed hclosed hrun hhost) ?_
      intro _ hcalls g hg
      rcases hcause with ⟨k, hk, hfails⟩ | hnone
      · exact absurd (hcalls k hk) hfails
      · rw [hnone] at hg
        cases hg
  · refine iff_of_true (detachesOwn_of_closed h hclosed) ?_
    intro hopen
    cases hopen

/-- After any attach and in any run that follows, with others and with several
closes, each close is about the filter of the attach only exactly if no other
filter with its handle stands before it, or is there when it is gone. -/
theorem close_spares_others_iff {prog : Program} {name : String} {index : ℕ} {w₀ w : State}
    (hlive : ¬Dies e)
    (hattach : attachClsActEgress e prog name index w₀ = (.returned p, w)) :
    ∃ handle n, (w₀.host.filters ⟨index, HANDLE_MIN_EGRESS⟩).add n (ownFilter prog handle) =
        some (w.host.filters ⟨index, HANDLE_MIN_EGRESS⟩) ∧
      ∀ events,
        Meets (step e p ⟨index, HANDLE_MIN_EGRESS⟩ (ownFilter prog handle))
          (fun s a => a = .close →
            DetachesOwn e p ⟨index, HANDLE_MIN_EGRESS⟩ (ownFilter prog handle) s)
          ⟨w, true, false⟩ events ↔
        Meets (step e p ⟨index, HANDLE_MIN_EGRESS⟩ (ownFilter prog handle))
          (fun s a => a = .close →
            HandleIsOwn e ⟨index, HANDLE_MIN_EGRESS⟩ (ownFilter prog handle) s)
          ⟨w, true, false⟩ events := by
  obtain ⟨⟨handle, hgained, hheap⟩, rfl, -, -, hindex⟩ :=
    (ensures_attachClsActEgress name index w₀).of_returned hattach
  obtain ⟨n, hadd⟩ := hgained.added
  refine ⟨handle, n, hadd, ?_⟩
  have hown : (ownFilter prog handle).handle ≠ 0 := hgained.handle_ne_zero
  have htracks : Tracks w₀.proc.heap.length ⟨index, HANDLE_MIN_EGRESS⟩ (ownFilter prog handle)
      ⟨w, true, false⟩ := by
    refine ⟨⟨⟨name, index, handle, HANDLE_MIN_EGRESS⟩, ?_, rfl, rfl⟩, ?_, ?_⟩
    · rw [hheap]
      exact List.getElem?_concat_length
    · rw [hgained.interfaces]
      exact hindex
    · intro _
      rw [(KeyedList.perm_add hadd).mem_iff]
      exact List.mem_cons_self
  intro events
  have hrun : ∀ pre, Tracks w₀.proc.heap.length ⟨index, HANDLE_MIN_EGRESS⟩ (ownFilter prog handle)
      (run (step e w₀.proc.heap.length ⟨index, HANDLE_MIN_EGRESS⟩ (ownFilter prog handle))
        ⟨w, true, false⟩ pre) :=
    invariant_run htracks fun s a h => tracks_step hlive hown a h
  constructor
  · intro hmeets pre a post hsplit ha
    exact (detachesOwn_iff hlive hown (hrun pre)).mp (hmeets pre a post hsplit ha)
  · intro hmeets pre a post hsplit ha
    exact (detachesOwn_iff hlive hown (hrun pre)).mpr (hmeets pre a post hsplit ha)

section Example

def egress : Hook := ⟨2, HANDLE_MIN_EGRESS⟩

def attachedWorld : State := (attachClsActEgress quiet loaded "eth0" 2 (World.fresh bareHost)).2

theorem attach_returned :
    attachClsActEgress quiet loaded "eth0" 2 (World.fresh bareHost) =
      (.returned 0, attachedWorld) := by
  rfl

theorem close_spares_others_bareHost :
    ∃ handle n, ((World.fresh bareHost).host.filters egress).add n (ownFilter loaded handle) =
        some (attachedWorld.host.filters egress) ∧
      ∀ events,
        Meets (step quiet 0 egress (ownFilter loaded handle))
          (fun s a => a = .close → DetachesOwn quiet 0 egress (ownFilter loaded handle) s)
          ⟨attachedWorld, true, false⟩ events ↔
        Meets (step quiet 0 egress (ownFilter loaded handle))
          (fun s a => a = .close → HandleIsOwn quiet egress (ownFilter loaded handle) s)
          ⟨attachedWorld, true, false⟩ events :=
  close_spares_others_iff not_dies_quiet attach_returned

/-- Others delete the filter of the attach, and one of them takes its handle. -/
def otherTakesHandle : List Event :=
  [.del egress (ownFilter loaded 0x1600), .add egress 0 ⟨2, ETH_P_ALL, 0x1600, none⟩]

theorem close_removes_foreign :
    attachClsActEgress quiet loaded "eth0" 2 (World.fresh bareHost) =
        (.returned 0, attachedWorld) ∧
      ¬Meets (step quiet 0 egress (ownFilter loaded 0x1600))
        (fun s a => a = .close → DetachesOwn quiet 0 egress (ownFilter loaded 0x1600) s)
        ⟨attachedWorld, true, false⟩ (otherTakesHandle ++ [.close]) := by
  refine ⟨rfl, ?_⟩
  intro hmeets
  have hgone := (hmeets otherTakesHandle .close [] rfl rfl).gone rfl rfl
  obtain ⟨⟨err, herr⟩, -⟩ := hgone
  cases herr

end Example

end PacketLoss.ForeignFilters
