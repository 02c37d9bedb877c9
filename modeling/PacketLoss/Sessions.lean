import PacketLoss.Shutdown

/-!
Sessions of one program version on a host that others use too. Each session starts,
serves while others change filters, and ends by a signal, by a fatal error or by its
death. As long as others do not use a handle that the session holds, the filters of
others are through all of them only what others make of them, and one orderly session
that is stopped by a signal leaves none of the own ones, whatever the sessions before it
have left.
-/
namespace PacketLoss.Sessions

open CrashPrograms KeyedLists Prog Netlink TcAttach AttachRollback Restarts Schedules Shutdown

structure Session where
  env : Env
  names : List String
  nodup : names.Nodup
  changes : List Change
  ending : Ending

variable {e : Env} {prog : Program}

def sessionOn (prog : Program) (host : Host) (s : Session) : Outcome Err Unit × State :=
  main s.env prog s.names s.changes s.ending (World.fresh host)

def afterSession (prog : Program) (host : Host) (s : Session) : Host :=
  (sessionOn prog host s).2.host

/-- While the session serves, others do not use the handles that it holds. -/
def KeepsApart (prog : Program) (host : Host) (s : Session) : Prop :=
  ∀ attachments w, serve s.env prog s.names s.changes (World.fresh host) =
    (.returned attachments, w) → Apart w s.changes

/-- What is there of the filters of others: what was there or was added, and all of
what was there and was not deleted. -/
structure OthersKept (prog : Program) (history : List Session) (host host' : Host) : Prop where
  old : ∀ hook, ∀ f ∈ (host'.filters hook).entries, isOwn prog f = false →
    f ∈ (host.filters hook).entries ∨ ∃ s ∈ history, ∃ n, Change.add hook n f ∈ s.changes
  kept : ∀ hook, ∀ f ∈ (host.filters hook).entries, isOwn prog f = false →
    (∀ s ∈ history, Change.del hook f ∉ s.changes) → f ∈ (host'.filters hook).entries

theorem othersKept_nil (host : Host) : OthersKept prog [] host host :=
  ⟨fun _ _ hf _ => Or.inl hf, fun _ _ hf _ _ => hf⟩

theorem OthersKept.concat {history : List Session} {s : Session} {host host' host'' : Host}
    (h : OthersKept prog history host host') (h' : OthersKept prog [s] host' host'') :
    OthersKept prog (history ++ [s]) host host'' where
  old := by
    intro hook f hf hforeign
    rcases h'.old hook f hf hforeign with hold | ⟨s', hs', n, hadd⟩
    · rcases h.old hook f hold hforeign with hold | ⟨s', hs', hadd⟩
      · exact Or.inl hold
      · exact Or.inr ⟨s', List.mem_append_left _ hs', hadd⟩
    · exact Or.inr ⟨s', List.mem_append_right _ hs', n, hadd⟩
  kept := by
    intro hook f hf hforeign hnone
    apply h'.kept hook f _ hforeign fun s' hs' => hnone s' (List.mem_append_right _ hs')
    exact h.kept hook f hf hforeign fun s' hs' => hnone s' (List.mem_append_left _ hs')

theorem mem_iff_of_foreignKept {host host' : Host} (h : ForeignKept prog host host') (hook : Hook)
    {f : Filter} (hforeign : isOwn prog f = false) :
    f ∈ (host'.filters hook).entries ↔ f ∈ (host.filters hook).entries := by
  have hlists := congrArg (f ∈ ·) (h hook)
  simpa [List.mem_filter, foreign, hforeign] using hlists

/-- One change adds its filter, deletes it or does nothing. -/
theorem mem_apply (host : Host) (c : Change) (hook : Hook) (f : Filter) :
    (f ∈ ((c.apply host).filters hook).entries →
      f ∈ (host.filters hook).entries ∨ ∃ n, c = .add hook n f) ∧
    (f ∈ (host.filters hook).entries → c ≠ .del hook f →
      f ∈ ((c.apply host).filters hook).entries) := by
  by_cases hsame : c.hook = hook ∧ c.filter = f
  · obtain ⟨rfl, rfl⟩ := hsame
    cases c with
    | add hook n f =>
      refine ⟨fun _ => Or.inr ⟨n, rfl⟩, fun hf _ => ?_⟩
      show f ∈ ((ForeignFilters.addOther host hook n f).filters hook).entries
      unfold ForeignFilters.addOther
      rcases hadd : (host.filters hook).add n f with _ | t
      · exact hf
      · rw [Host.filters_setFilters_self]
        exact (KeyedList.sublist_add hadd).subset hf
    | del hook f =>
      refine ⟨fun hf => ?_, fun _ hne => absurd rfl hne⟩
      have hmem : f ∈ ((ForeignFilters.delOther host hook f).filters hook).entries := hf
      rw [ForeignFilters.delOther, Host.filters_setFilters_self, KeyedList.mem_del] at hmem
      exact absurd rfl hmem.1
  · have hlists := filter_apply host c hook (fun g => g = f) fun hhook =>
      decide_eq_false fun hf => hsame ⟨hhook, hf⟩
    have hmem := congrArg (f ∈ ·) hlists
    simp only [List.mem_filter, decide_true, and_true, eq_iff_iff] at hmem
    exact ⟨fun hf => Or.inl (hmem.mp hf), fun hf _ => hmem.mpr hf⟩

theorem mem_foldl_apply (host : Host) (changes : List Change) (hook : Hook) (f : Filter) :
    (f ∈ ((changes.foldl Change.apply host).filters hook).entries →
      f ∈ (host.filters hook).entries ∨ ∃ n, Change.add hook n f ∈ changes) ∧
    (f ∈ (host.filters hook).entries → Change.del hook f ∉ changes →
      f ∈ ((changes.foldl Change.apply host).filters hook).entries) := by
  induction changes generalizing host with
  | nil => exact ⟨Or.inl, fun hf _ => hf⟩
  | cons c changes ih =>
    obtain ⟨hold, hkept⟩ := ih (c.apply host)
    obtain ⟨hold', hkept'⟩ := mem_apply host c hook f
    constructor
    · intro hf
      rcases hold hf with hf | ⟨n, hadd⟩
      · rcases hold' hf with hf | ⟨n, rfl⟩
        · exact Or.inl hf
        · exact Or.inr ⟨n, List.mem_cons_self⟩
      · exact Or.inr ⟨n, List.mem_cons_of_mem c hadd⟩
    · intro hf hnone
      refine hkept (hkept' hf ?_) fun hmem => hnone (List.mem_cons_of_mem c hmem)
      rintro rfl
      exact hnone List.mem_cons_self

/-- The filters of others are those from before, or those that the changes make of
them. -/
def ForeignThrough (prog : Program) (changes : List Change) (host host' : Host) : Prop :=
  ForeignKept prog host host' ∨ ∃ mid, ForeignKept prog host mid ∧
    ForeignKept prog (changes.foldl Change.apply mid) host'

theorem othersKept_of_through {s : Session} {host host' : Host}
    (h : ForeignThrough prog s.changes host host') : OthersKept prog [s] host host' := by
  rcases h with hkept | ⟨mid, hbefore, hafter⟩
  · exact ⟨fun hook f hf hforeign => Or.inl ((mem_iff_of_foreignKept hkept hook hforeign).mp hf),
      fun hook f hf hforeign _ => (mem_iff_of_foreignKept hkept hook hforeign).mpr hf⟩
  · constructor
    · intro hook f hf hforeign
      rw [mem_iff_of_foreignKept hafter hook hforeign] at hf
      rcases (mem_foldl_apply mid s.changes hook f).1 hf with hf | ⟨n, hadd⟩
      · exact Or.inl ((mem_iff_of_foreignKept hbefore hook hforeign).mp hf)
      · exact Or.inr ⟨s, List.mem_singleton_self s, n, hadd⟩
    · intro hook f hf hforeign hnone
      rw [mem_iff_of_foreignKept hafter hook hforeign]
      rw [← mem_iff_of_foreignKept hbefore hook hforeign] at hf
      exact (mem_foldl_apply mid s.changes hook f).2 hf (hnone s (List.mem_singleton_self s))

/-- What lies over the rest of a host does not belong to others. -/
theorem foreignKept_of_layers {host : Host} {w : State} {handles : Hook → List ℕ}
    (hheld : Held prog w) (hlayered : Layered prog (withoutHeld w) host handles) :
    ForeignKept prog w.host host := by
  intro hook
  rw [(hlayered hook).filter_eq (foreign prog) foreign_ownFilter,
    (hheld.layered hook).filter_eq (foreign prog) foreign_ownFilter]

theorem ensures_main_foreign (host : Host) (s : Session) (hapart : KeepsApart prog host s) :
    Ensures (main s.env prog s.names s.changes s.ending) (World.fresh host)
      (fun _ w' => ForeignThrough prog s.changes host w'.host)
      (fun _ w' => ForeignThrough prog s.changes host w'.host)
      (fun w' => ForeignThrough prog s.changes host w'.host) := by
  rw [main, ensures_bind]
  have hserve : Ensures (serve s.env prog s.names s.changes) (World.fresh host) _ _ _ :=
    ensures_serve s.names s.changes host
  unfold Ensures at hserve ⊢
  rcases hrun : serve s.env prog s.names s.changes (World.fresh host) with ⟨attachments | _ | _, w⟩
  · rw [hrun] at hserve
    obtain ⟨w₁, hw, hattaches⟩ := hserve
    have hfree := hapart attachments w hrun
    rw [hw] at hfree ⊢
    have hthrough : ∀ host', ForeignKept prog (changed w₁ s.changes).host host' →
        ForeignThrough prog s.changes host host' :=
      fun host' hkept => Or.inr ⟨w₁.host, hattaches.foreign, hkept⟩
    have hheld : Held prog (changed w₁ s.changes) := hattaches.held.changed hfree
    rcases s.ending with _ | err
    · apply (ensures_deferred hheld (hattaches.holding_changed s.changes)).mono
      · intro _ w' h
        exact hthrough _ (foreignKept_of_layers hheld h.1.layered)
      · intro _ _ hfalse
        exact hfalse.elim
      · intro w' h
        obtain ⟨⟨handles, hlayered⟩, -⟩ := h
        exact hthrough _ (foreignKept_of_layers hheld hlayered)
    · exact hthrough _ fun _ => rfl
  · rw [hrun] at hserve
    exact Or.inl hserve
  · rw [hrun] at hserve
    exact Or.inl hserve

theorem othersKept_afterSession (host : Host) (s : Session) (hapart : KeepsApart prog host s) :
    OthersKept prog [s] host (afterSession prog host s) := by
  have hmain := ensures_main_foreign host s hapart
  unfold Ensures at hmain
  unfold afterSession sessionOn
  rcases hrun : main s.env prog s.names s.changes s.ending (World.fresh host) with ⟨_ | _ | _, w⟩
  · rw [hrun] at hmain
    exact othersKept_of_through hmain
  · rw [hrun] at hmain
    exact othersKept_of_through hmain
  · rw [hrun] at hmain
    exact othersKept_of_through hmain

theorem othersKept_run (host : Host) {history : List Session}
    (hapart : Meets (afterSession prog) (KeepsApart prog) host history) :
    OthersKept prog history host (run (afterSession prog) host history) := by
  induction history using List.reverseRecOn with
  | nil => exact othersKept_nil host
  | append_singleton history s ih =>
    rw [run_concat]
    exact (ih hapart.of_append).concat (othersKept_afterSession _ s hapart.last)

/-- No call fails, all interfaces have a place, and others neither add nor delete a
filter that looks like an own one. -/
structure Orderly (prog : Program) (host : Host) (s : Session) : Prop where
  start : CanStart prog host ⟨s.env, s.names, s.nodup⟩
  foreign : ∀ c ∈ s.changes, isOwn prog c.filter = false

/-- After a signal no own filter is left on the interfaces; after a fatal error there
is one on each. -/
def EndsAs (prog : Program) (names : List String) (host : Host) : Ending → Prop
  | .signal => ∀ name ∈ names, ∃ index, host.indexOf name = some index ∧
      Cleaned prog host ⟨index, HANDLE_MIN_EGRESS⟩
  | .fatal _ => OneOwnEach prog names host

theorem filter_foldl_apply (host : Host) {changes : List Change} (hook : Hook)
    (p : Filter → Bool) (hp : ∀ c ∈ changes, c.hook = hook → p c.filter = false) :
    ((changes.foldl Change.apply host).filters hook).entries.filter p =
      (host.filters hook).entries.filter p := by
  induction changes generalizing host with
  | nil => rfl
  | cons c changes ih =>
    obtain ⟨hfirst, hrest⟩ := List.forall_mem_cons.mp hp
    rw [List.foldl_cons, ih _ hrest, filter_apply host c hook p hfirst]

theorem interfaces_foldl_apply (host : Host) (changes : List Change) :
    (changes.foldl Change.apply host).interfaces = host.interfaces := by
  induction changes generalizing host with
  | nil => rfl
  | cons c changes ih => rw [List.foldl_cons, ih, interfaces_apply]

theorem failedCalls_eq_zero (hcalls : ∀ n, e.fails n = none) (n : ℕ) : failedCalls e n = 0 := by
  rw [failedCalls, Nat.count_eq_card_filter_range, Finset.card_eq_zero,
    Finset.filter_eq_empty_iff]
  intro k _
  simp [hcalls k]

theorem ensures_start_orderly {host : Host} {st : Start} (h : CanStart prog host st) :
    Ensures (start st.env prog st.names) (World.fresh host)
      (fun attachments w => Attaches prog st.names host attachments w ∧ w.proc.log = [] ∧
        OneOwnEach prog st.names w.host)
      (fun _ _ => False) (fun _ => False) := by
  apply ((ensures_start_attaches st.names host).and (ensures_start host st)).mono
  · intro attachments w hboth
    obtain ⟨hattaches, -, hone, hlog⟩ := hboth
    exact ⟨hattaches, hlog h, hone (hlog h)⟩
  · intro err w hboth
    exact hboth.2.2 h
  · intro w hboth
    exact h.not_dies hboth.2.2

theorem ensures_serve_orderly {host : Host} {s : Session} (h : Orderly prog host s) :
    Ensures (serve s.env prog s.names s.changes) (World.fresh host)
      (fun attachments w' => ∃ w, w' = changed w s.changes ∧
        Attaches prog s.names host attachments w ∧ w.proc.log = [] ∧
        OneOwnEach prog s.names w.host)
      (fun _ _ => False) (fun _ => False) := by
  rw [serve, ensures_bind]
  apply (ensures_start_orderly h.start).mono
  · intro attachments w₁ hstarted
    obtain ⟨hattaches, hlog, hone⟩ := hstarted
    rw [ensures_bind]
    apply ((ensures_query_kept _ w₁).and (ensures_query _ w₁)).mono
    · intro _ w₂ hboth
      obtain ⟨⟨hkept, -⟩, hw, -⟩ := hboth
      refine ⟨w₂, rfl, hattaches.kept hkept, hkept.proc ▸ hlog, ?_⟩
      rw [hw]
      exact hone
    · intro err w₂ hboth
      obtain ⟨-, -, hfails | ⟨-, hok⟩⟩ := hboth
      · rw [h.start.calls] at hfails
        cases hfails
      · cases hok
    · intro w₂ hboth
      exact h.start.not_dies ⟨_, hboth.2.2⟩
  · intro _ _ hfalse
    exact hfalse
  · intro _ hfalse
    exact hfalse

/-- What others have changed is not on the interfaces' lists of own filters. -/
theorem oneOwnEach_changed {names : List String} {w : State} {changes : List Change}
    (h : OneOwnEach prog names w.host) (hforeign : ∀ c ∈ changes, isOwn prog c.filter = false) :
    OneOwnEach prog names (changed w changes).host := by
  intro name hname
  obtain ⟨index, hindex, hlength⟩ := h name hname
  refine ⟨index, ?_, ?_⟩
  · rw [← hindex]
    exact indexOf_congr (interfaces_foldl_apply w.host changes) name
  · rw [← hlength]
    exact congrArg List.length
      (filter_foldl_apply w.host _ (isOwn prog) fun c hc _ => hforeign c hc)

theorem cleaned_changed {w : State} {changes : List Change} {hook : Hook}
    (h : Cleaned prog (withoutHeld w) hook)
    (hforeign : ∀ c ∈ changes, isOwn prog c.filter = false) :
    Cleaned prog (withoutHeld (changed w changes)) hook := by
  intro f hf
  let p : Filter → Bool := fun f =>
    isOwn prog f && decide (f.handle ∉ liveHandles w.proc.heap hook)
  have hp : ∀ c ∈ changes, c.hook = hook → p c.filter = false := fun c hc _ => by
    simp [p, hforeign c hc]
  by_contra hown
  have hown : isOwn prog f = true := by simpa using hown
  have hmem : f ∈ ((changed w changes).host.filters hook).entries ∧
      f.handle ∉ liveHandles w.proc.heap hook :=
    ⟨(List.mem_filter.mp hf).1, of_decide_eq_true (List.mem_filter.mp hf).2⟩
  have hin : f ∈ (w.host.filters hook).entries.filter p := by
    rw [← filter_foldl_apply w.host hook p hp]
    exact List.mem_filter.mpr ⟨hmem.1, by simp [p, hown, hmem.2]⟩
  have hnot := h f (List.mem_filter.mpr ⟨(List.mem_filter.mp hin).1, decide_eq_true hmem.2⟩)
  rw [hown] at hnot
  cases hnot

theorem ensures_main_orderly {host : Host} {s : Session} (h : Orderly prog host s)
    (hapart : KeepsApart prog host s) :
    Ensures (main s.env prog s.names s.changes s.ending) (World.fresh host)
      (fun _ w' => EndsAs prog s.names w'.host s.ending)
      (fun _ w' => EndsAs prog s.names w'.host s.ending) (fun _ => False) := by
  rw [main, ensures_bind]
  have hserve := ensures_serve_orderly h
  unfold Ensures at hserve ⊢
  rcases hrun : serve s.env prog s.names s.changes (World.fresh host) with ⟨attachments | _ | _, w⟩
  · rw [hrun] at hserve
    obtain ⟨w₁, hw, hattaches, hlog, hone⟩ := hserve
    have hfree := hapart attachments w hrun
    rw [hw] at hfree ⊢
    rcases hending : s.ending with _ | err
    · apply (ensures_deferred (e := s.env) (hattaches.held.changed hfree)
        (hattaches.holding_changed s.changes)).mono
      · intro _ w' hdone
        have hstopped := stopped_of_owned hdone.1 hdone.2
        have hfilters := hstopped.restored (by
          rw [failedCalls_eq_zero h.start.calls, failedCalls_eq_zero h.start.calls]
          omega)
        intro name hname
        obtain ⟨index, hindex, hclean⟩ := hattaches.cleaned hlog name hname
        refine ⟨index, ?_, ?_⟩
        · rw [← hindex]
          apply indexOf_congr
          rw [hdone.1.interfaces]
          exact (interfaces_foldl_apply w₁.host s.changes).trans hattaches.interfaces
        · intro f hf
          rw [hfilters] at hf
          exact cleaned_changed hclean h.foreign f hf
      · intro _ _ hfalse
        exact hfalse.elim
      · intro w' habandoned
        exact h.start.not_dies habandoned.2
    · exact oneOwnEach_changed hone h.foreign
  · rw [hrun] at hserve
    exact hserve.elim
  · rw [hrun] at hserve
    exact hserve.elim

theorem endsAs_afterSession {host : Host} {s : Session} (h : Orderly prog host s)
    (hapart : KeepsApart prog host s) :
    EndsAs prog s.names (afterSession prog host s) s.ending := by
  have hmain := ensures_main_orderly h hapart
  unfold Ensures at hmain
  unfold afterSession sessionOn
  rcases hrun : main s.env prog s.names s.changes s.ending (World.fresh host) with ⟨_ | _ | _, w⟩
  · rw [hrun] at hmain
    exact hmain
  · rw [hrun] at hmain
    exact hmain
  · rw [hrun] at hmain
    exact hmain.elim

section Example

/-- The process dies when it has attached to one interface of two. -/
def killed : Session where
  env := { quiet with crashes := fun n => n = 12 }
  names := both
  nodup := by decide
  changes := []
  ending := .signal

/-- The HTTP server fails. -/
def serverFails : Session where
  env := quiet
  names := both
  nodup := by decide
  changes := []
  ending := .fatal (.errorf "http: %v" [.text "address already in use"])

/-- Somebody adds a filter before the signal. -/
def stopped : Session where
  env := quiet
  names := both
  nodup := by decide
  changes := otherAdds
  ending := .signal

theorem history_apart : Meets (afterSession loaded) (KeepsApart loaded) bareHost
    ([killed, serverFails] ++ [stopped]) := by
  simp only [List.cons_append, List.nil_append, meets_cons]
  refine ⟨?_, ?_, ?_, meets_nil⟩
  · intro _ _ _ c hc
    cases hc
  · intro _ _ _ c hc
    cases hc
  · intro attachments w hrun
    obtain rfl : _ = w := congrArg Prod.snd hrun
    unfold Apart
    decide +kernel

/-- The last session meets filters of the program only, which it removes. -/
theorem stopped_orderly :
    Orderly loaded (run (afterSession loaded) bareHost [killed, serverFails]) stopped := by
  have hothers := othersKept_run bareHost history_apart.of_append
  have hplaces : ∀ x ∈ bareHost.interfaces,
      (run (afterSession loaded) bareHost [killed, serverFails]).indexOf x.1 = some x.2 ∧
        (((run (afterSession loaded) bareHost [killed, serverFails]).qdiscs x.2).find? fun q =>
          q.parent = HANDLE_CLSACT).all (·.type = "clsact") := by decide +kernel
  generalize run (afterSession loaded) bareHost [killed, serverFails] = host at *
  have hknown : ∀ name ∈ both, ∃ x ∈ bareHost.interfaces, x.1 = name := by decide
  refine ⟨⟨fun _ => rfl, fun _ => rfl, by decide, ?_⟩, by decide⟩
  intro name hname
  obtain ⟨x, hx, rfl⟩ := hknown name hname
  obtain ⟨hindex, hready⟩ := hplaces x hx
  refine ⟨x.2, hindex, ?_, filterHandleBase, List.mem_range'_1.mpr (by decide), ?_⟩
  · intro q hq
    rw [hq] at hready
    simpa using hready
  · intro f hf _
    by_contra hforeign
    rcases hothers.old _ f hf (by simpa using hforeign) with hold | ⟨s, hs, n, hadd⟩
    · cases hold
    · rcases List.mem_pair.mp hs with rfl | rfl <;> cases hadd

example :
    let hosts := [[killed], [killed, serverFails], [killed, serverFails, stopped]].map
      (run (afterSession loaded) bareHost)
    hosts.map (fun host =>
      [2, 5].map fun link => (host.filters ⟨link, HANDLE_MIN_EGRESS⟩).entries.length) =
        [[1, 0], [1, 1], [1, 0]] := by
  decide +kernel

end Example

end PacketLoss.Sessions
