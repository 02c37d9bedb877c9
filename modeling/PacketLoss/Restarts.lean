import PacketLoss.AttachRollback
import PacketLoss.Schedules

/-!
Starts of one program version, one after the other, each of which may end with a
crash after any call. A start first deletes what earlier ones have left, told by
name and tag, and then attaches. Everybody else's filters stay through all of them,
and a start that reports no error leaves one own filter on each interface.
-/
namespace PacketLoss.Restarts

open CrashPrograms KeyedLists Prog Netlink TcAttach AttachRollback Schedules

/-- An own name prefix and the tag of the program. -/
def isOwn (prog : Program) (f : Filter) : Bool :=
  match f.bpf with
  | none => false
  | some bf => isStaleEgressProg bf.name && bf.tag == prog.tag

variable {e : Env} {prog : Program}

theorem isOwn_ownFilter (handle : ℕ) : isOwn prog (ownFilter prog handle) = true := by
  simp [isOwn, ownFilter, isStaleEgressProg]

def foreign (prog : Program) (f : Filter) : Bool := !isOwn prog f

theorem foreign_ownFilter (handle : ℕ) : foreign prog (ownFilter prog handle) = false := by
  rw [foreign, isOwn_ownFilter, Bool.not_true]

/-- Own filters may have gone, and nothing else has changed. -/
structure Spared (prog : Program) (w w' : State) : Prop where
  sublist : ∀ hook, (w'.host.filters hook).entries.Sublist (w.host.filters hook).entries
  foreign : ∀ hook, (w'.host.filters hook).entries.filter (foreign prog) =
    (w.host.filters hook).entries.filter (foreign prog)
  interfaces : w'.host.interfaces = w.host.interfaces
  ready : ∀ link, ClsactReady w.host link → ClsactReady w'.host link
  heap : w'.proc.heap = w.proc.heap
  links : w'.proc.links = w.proc.links
  calls : w.calls ≤ w'.calls

theorem spared_of_kept {w w' : State} (h : Kept w w') : Spared prog w w' where
  sublist := fun hook => by rw [h.filters]
  foreign := fun hook => by rw [h.filters]
  interfaces := h.interfaces
  ready := h.ready
  heap := congrArg Process.heap h.proc
  links := congrArg Process.links h.proc
  calls := h.calls

theorem Spared.trans {w w' w'' : State} (h : Spared prog w w') (h' : Spared prog w' w'') :
    Spared prog w w'' where
  sublist := fun hook => (h'.sublist hook).trans (h.sublist hook)
  foreign := fun hook => (h'.foreign hook).trans (h.foreign hook)
  interfaces := h'.interfaces.trans h.interfaces
  ready := fun link hready => h'.ready link (h.ready link hready)
  heap := h'.heap.trans h.heap
  links := h'.links.trans h.links
  calls := h.calls.trans h'.calls

/-- No own filter hangs there. -/
def Cleaned (prog : Program) (host : Host) (hook : Hook) : Prop :=
  ∀ f ∈ (host.filters hook).entries, isOwn prog f = false

/-- The loop over a listing has been through `pre`. -/
structure Cleaning (prog : Program) (hook : Hook) (w : State) (pre : List Filter) (w' : State) :
    Prop where
  entries : (w'.host.filters hook).entries =
    pre.filter (foreign prog) ++ (w.host.filters hook).entries.drop pre.length
  others : ∀ hook', hook' ≠ hook → w'.host.filters hook' = w.host.filters hook'
  interfaces : w'.host.interfaces = w.host.interfaces
  qdiscs : w'.host.qdiscs = w.host.qdiscs
  proc : w'.proc = w.proc
  calls : w.calls ≤ w'.calls

theorem Cleaning.spared {hook : Hook} {w w' : State} {pre post : List Filter}
    (h : Cleaning prog hook w pre w') (hsplit : (w.host.filters hook).entries = pre ++ post) :
    Spared prog w w' := by
  have hentries : (w'.host.filters hook).entries = pre.filter (foreign prog) ++ post := by
    rw [h.entries, hsplit, List.drop_left]
  refine ⟨?_, ?_, h.interfaces, ?_, congrArg Process.heap h.proc, congrArg Process.links h.proc,
    h.calls⟩
  · intro hook'
    by_cases hhook : hook' = hook
    · rw [hhook, hentries, hsplit]
      exact List.filter_sublist.append (List.Sublist.refl post)
    · rw [h.others hook' hhook]
  · intro hook'
    by_cases hhook : hook' = hook
    · rw [hhook, hentries, hsplit, List.filter_append, List.filter_append, List.filter_filter]
      simp
    · rw [h.others hook' hhook]
  · intro link hready
    unfold ClsactReady
    rw [h.qdiscs]
    exact hready

theorem Cleaning.keep {hook : Hook} {w w' : State} {pre post : List Filter} {f : Filter}
    (h : Cleaning prog hook w pre w')
    (hsplit : (w.host.filters hook).entries = pre ++ f :: post) (hf : isOwn prog f = false) :
    Cleaning prog hook w (pre ++ [f]) w' where
  entries := by
    rw [h.entries, hsplit, List.drop_left, List.filter_append, List.append_assoc]
    simp [foreign, hf, List.drop_append]
  others := h.others
  interfaces := h.interfaces
  qdiscs := h.qdiscs
  proc := h.proc
  calls := h.calls

theorem Cleaning.delete {hook : Hook} {w w' : State} {pre post : List Filter} {f : Filter}
    (h : Cleaning prog hook w pre w')
    (hsplit : (w.host.filters hook).entries = pre ++ f :: post) (hf : isOwn prog f = true) :
    Cleaning prog hook w (pre ++ [f])
      (w'.after (w'.host.setFilters hook ((w'.host.filters hook).del f))) where
  entries := by
    have hnot : f ∉ pre.filter (foreign prog) := by
      intro hmem
      have hforeign := (List.mem_filter.mp hmem).2
      rw [foreign, hf] at hforeign
      cases hforeign
    have hdrop : (pre ++ f :: post).drop (pre ++ [f]).length = post := by
      simp [List.drop_append]
    rw [World.host_after, Host.filters_setFilters_self, hsplit, hdrop]
    show ((w'.host.filters hook).entries).erase f = _
    rw [h.entries, hsplit, List.drop_left, List.erase_append_right _ hnot, List.erase_cons_head,
      List.filter_append, List.filter_cons_of_neg (by simp [foreign, hf]), List.filter_nil,
      List.append_nil]
  others := fun hook' hne => by
    rw [World.host_after, Host.filters_setFilters_of_ne _ hne]
    exact h.others hook' hne
  interfaces := h.interfaces
  qdiscs := h.qdiscs
  proc := h.proc
  calls := h.calls.trans (Nat.le_succ _)

theorem cleaning_nil (hook : Hook) (w : State) : Cleaning prog hook w [] w :=
  ⟨rfl, fun _ _ => rfl, rfl, rfl, rfl, le_rfl⟩

/-- A filter of the listing is still there when the loop comes to it. -/
theorem Cleaning.mem {hook : Hook} {w w' : State} {pre post : List Filter} {f : Filter}
    (h : Cleaning prog hook w pre w')
    (hsplit : (w.host.filters hook).entries = pre ++ f :: post) :
    f ∈ (w'.host.filters hook).entries := by
  rw [h.entries, hsplit, List.drop_left]
  exact List.mem_append_right _ List.mem_cons_self

theorem cleanupFilter_of_foreign {name : String} {hook : Hook} {f : Filter}
    (hf : isOwn prog f = false) : cleanupFilter e name prog.tag hook f = pure () := by
  unfold cleanupFilter
  unfold isOwn at hf
  split
  next => rfl
  next bf hbf =>
    simp only [hbf, Bool.and_eq_false_iff, beq_eq_false_iff_ne] at hf
    rw [if_pos]
    simpa using hf

theorem cleanupFilter_of_own {name : String} {hook : Hook} {f : Filter}
    (hf : isOwn prog f = true) :
    cleanupFilter e name prog.tag hook f =
      mapError (.wrap "delete stale filter on %q: %w" [.text name]) (filterDel e hook f) := by
  unfold cleanupFilter
  unfold isOwn at hf
  split
  next hbf =>
    simp only [hbf] at hf
    cases hf
  next bf hbf =>
    simp only [hbf, Bool.and_eq_true, beq_iff_eq] at hf
    rw [if_neg]
    simp [hf]

/-- The loop deletes from the list what it finds in the listing. -/
theorem ensures_cleanupLoop (name : String) (hook : Hook) (w : State) :
    Ensures (forEach (cleanupFilter e name prog.tag hook) (w.host.filters hook).entries) w
      (fun _ w' => Cleaning prog hook w (w.host.filters hook).entries w')
      (fun _ w' => Spared prog w w' ∧ w'.proc = w.proc ∧ FailsFrom e w.calls)
      (fun w' => Spared prog w w' ∧ Dies e) := by
  apply ensures_forEach (I := fun pre w' => Cleaning prog hook w pre w')
  · exact cleaning_nil hook w
  · intro pre f post w' hsplit hcleaning
    rcases hf : isOwn prog f with _ | _
    · rw [cleanupFilter_of_foreign hf]
      exact hcleaning.keep hsplit hf
    · rw [cleanupFilter_of_own hf, ensures_mapError]
      apply (ensures_filterDel hook w' (hcleaning.mem hsplit)).mono
      · intro _ w'' h
        rw [h.1]
        exact hcleaning.delete hsplit hf
      · intro err w'' h
        obtain ⟨rfl, hfails⟩ := h
        have hspared := (hcleaning.spared hsplit).trans (spared_of_kept (kept_after w'))
        exact ⟨hspared, hcleaning.proc, w'.calls, hcleaning.calls, hfails⟩
      · intro w'' h
        obtain ⟨rfl | rfl, hdies⟩ := h
        · exact ⟨(hcleaning.spared hsplit).trans (spared_of_kept (kept_after w')), hdies⟩
        · have hsplit' : (w.host.filters hook).entries = (pre ++ [f]) ++ post := by
            rw [hsplit, List.append_assoc, List.singleton_append]
          exact ⟨(hcleaning.delete hsplit hf).spared hsplit', hdies⟩

theorem Cleaning.cleaned {hook : Hook} {w w' : State}
    (h : Cleaning prog hook w (w.host.filters hook).entries w') : Cleaned prog w'.host hook := by
  intro f hf
  rw [h.entries, List.drop_length, List.append_nil] at hf
  have hforeign := (List.mem_filter.mp hf).2
  rwa [foreign, Bool.not_eq_true'] at hforeign

theorem ensures_programTag (w : State) :
    Ensures (programTag e prog) w (fun tag w' => Kept w w' ∧ tag = prog.tag)
      (Quits e (prog.tag = "") w) (Stops e w) := by
  rw [programTag, ensures_bind, ensures_mapError]
  apply (ensures_query_kept _ w).mono
  · intro tag w' h
    obtain ⟨hkept, hop⟩ := h
    obtain rfl := Except.ok.inj hop
    by_cases htag : prog.tag = ""
    · rw [if_pos htag]
      exact ⟨hkept, Or.inr htag⟩
    · rw [if_neg htag]
      exact ⟨hkept, rfl⟩
  · intro err w' h
    apply h.of_kept (Kept.refl w)
    intro hcause
    obtain ⟨err', hop⟩ := hcause
    cases hop
  · intro w' h
    exact h

theorem ensures_cleanupEgress (name : String) (w : State) :
    Ensures (cleanupEgress e prog name) w
      (fun _ w' => Spared prog w w' ∧ w'.proc = w.proc ∧
        ∃ index, w.host.indexOf name = some index ∧
          Cleaned prog w'.host ⟨index, HANDLE_MIN_EGRESS⟩)
      (fun _ w' => Spared prog w w' ∧ w'.proc = w.proc ∧
        (FailsFrom e w.calls ∨ prog.tag = "" ∨ w.host.indexOf name = none))
      (fun w' => Spared prog w w' ∧ Dies e) := by
  have hstops : ∀ w', Stops e w w' → Spared prog w w' ∧ Dies e :=
    fun _ h => ⟨spared_of_kept h.1, h.2⟩
  rw [cleanupEgress]
  refine ensures_bind_of_kept (Kept.refl w) ((ensures_mapError _).mpr (ensures_programTag w))
    (fun _ _ h => ?_) hstops ?_
  · exact ⟨spared_of_kept h.1, h.1.proc, h.2.imp_right Or.inl⟩
  intro tag w₁ hkept₁ htag
  obtain rfl : tag = prog.tag := htag
  refine ensures_bind_of_kept hkept₁ ((ensures_mapError _).mpr (ensures_interfaceByName name w₁))
    (fun _ _ h => ?_) hstops ?_
  · rw [indexOf_congr hkept₁.interfaces] at h
    exact ⟨spared_of_kept h.1, h.1.proc, h.2.imp_right Or.inr⟩
  intro index w₂ hkept hindex
  have hkept₂ := hkept₁.trans hkept
  rw [indexOf_congr hkept₁.interfaces] at hindex
  have hmem : index ∈ w₂.host.interfaces.map Prod.snd := by
    rw [hkept₂.interfaces]
    exact Host.index_mem_of_indexOf hindex
  refine ensures_bind_of_kept hkept₂ ((ensures_mapError _).mpr (ensures_linkByIndex index w₂))
    (fun _ _ h => ?_) hstops ?_
  · exact ⟨spared_of_kept h.1, h.1.proc, h.2.imp_right fun hnot => absurd hmem hnot⟩
  intro link w₃ hkept h
  obtain ⟨rfl, -⟩ := h
  have hkept₃ := hkept₂.trans hkept
  refine ensures_bind_of_kept hkept₃ ((ensures_mapError _).mpr (ensures_query_kept _ w₃))
    (fun _ _ h => ?_) hstops ?_
  · exact ⟨spared_of_kept h.1, h.1.proc, h.2.imp_right fun hnever => by simp at hnever⟩
  intro filters w₄ hkept hop
  have hkept₄ := hkept₃.trans hkept
  obtain rfl := Except.ok.inj hop
  rw [← hkept.filters]
  apply (ensures_cleanupLoop name _ w₄).mono
  · intro _ w₅ hcleaning
    refine ⟨(spared_of_kept hkept₄).trans (hcleaning.spared (List.append_nil _).symm),
      hcleaning.proc.trans hkept₄.proc, link, hindex, hcleaning.cleaned⟩
  · intro err w₅ h
    obtain ⟨hspared, hproc, hfails⟩ := h
    exact ⟨(spared_of_kept hkept₄).trans hspared, hproc.trans hkept₄.proc,
      Or.inl (hfails.mono hkept₄.calls)⟩
  · intro w₅ h
    exact ⟨(spared_of_kept hkept₄).trans h.1, h.2⟩

/-- Why the cleanup of some interface reports an error. -/
def CleanupFails (e : Env) (prog : Program) (names : List String) (w : State) : Prop :=
  FailsFrom e w.calls ∨ prog.tag = "" ∨ ∃ name ∈ names, w.host.indexOf name = none

/-- The interfaces `pre` have been cleaned, or an error was logged. -/
structure CleanedAll (e : Env) (prog : Program) (names : List String) (w : State)
    (pre : List String) (w' : State) : Prop where
  spared : Spared prog w w'
  cleaned : w'.proc.log = [] → ∀ name ∈ pre, ∃ index, w.host.indexOf name = some index ∧
    Cleaned prog w'.host ⟨index, HANDLE_MIN_EGRESS⟩
  logged : w'.proc.log = w.proc.log ∨ CleanupFails e prog names w

theorem Cleaned.of_spared {hook : Hook} {w w' : State} (h : Cleaned prog w.host hook)
    (hspared : Spared prog w w') : Cleaned prog w'.host hook :=
  fun f hf => h f ((hspared.sublist hook).subset hf)

theorem ensures_cleanupAll (names : List String) (w : State) :
    Ensures (cleanupAll e prog names) w (fun _ w' => CleanedAll e prog names w names w')
      (fun _ _ => False) (fun w' => Spared prog w w' ∧ Dies e) := by
  apply ensures_forEach (I := fun pre w' => CleanedAll e prog names w pre w')
  · exact ⟨spared_of_kept (Kept.refl w), fun _ _ hname => absurd hname List.not_mem_nil,
      Or.inl rfl⟩
  · intro pre name post w' hsplit hcleaned
    have hmem : name ∈ names := by simp [hsplit]
    rw [ensures_bind, ensures_attempt]
    apply (ensures_cleanupEgress name w').mono
    · intro _ w'' h
      obtain ⟨hspared, hproc, index, hindex, hclean⟩ := h
      rw [indexOf_congr hcleaned.spared.interfaces] at hindex
      refine ⟨hcleaned.spared.trans hspared, ?_, ?_⟩
      · intro hlog name' hname'
        rw [hproc] at hlog
        rcases List.mem_append.mp hname' with hname' | hname'
        · obtain ⟨index', hindex', hclean'⟩ := hcleaned.cleaned hlog name' hname'
          exact ⟨index', hindex', hclean'.of_spared hspared⟩
        · rw [List.mem_singleton.mp hname']
          exact ⟨index, hindex, hclean⟩
      · rw [hproc]
        exact hcleaned.logged
    · intro err w'' h
      obtain ⟨hspared, hproc, hcause⟩ := h
      have hspared' := hcleaned.spared.trans hspared
      refine ⟨⟨hspared'.sublist, hspared'.foreign, hspared'.interfaces, hspared'.ready,
        hspared'.heap, hspared'.links, hspared'.calls⟩, ?_, Or.inr ?_⟩
      · intro hlog
        simp at hlog
      · rw [indexOf_congr hcleaned.spared.interfaces] at hcause
        exact hcause.imp (fun hfails => hfails.mono hcleaned.spared.calls)
          (Or.imp_right fun hnone => ⟨name, hmem, hnone⟩)
    · intro w'' h
      exact ⟨hcleaned.spared.trans h.1, h.2⟩

structure Start where
  env : Env
  names : List String
  nodup : names.Nodup

def startOn (prog : Program) (host : Host) (st : Start) : Outcome Err (List Attachment) × State :=
  start st.env prog st.names (World.fresh host)

def afterStart (prog : Program) (host : Host) (st : Start) : Host := (startOn prog host st).2.host

/-- The start returns, and no cleanup has logged an error. -/
def Succeeds (prog : Program) (host : Host) (st : Start) : Prop :=
  (startOn prog host st).1.isReturned = true ∧ (startOn prog host st).2.proc.log = []

/-- No call fails, and on each named interface there is a handle that is free once
the own filters are gone. -/
structure CanStart (prog : Program) (host : Host) (st : Start) : Prop where
  calls : ∀ n, st.env.fails n = none
  alive : ∀ n, st.env.crashes n = false
  tag : prog.tag ≠ ""
  serves : ∀ name ∈ st.names, ∃ index, host.indexOf name = some index ∧
    ClsactReady host index ∧ ∃ handle ∈ handleRange,
      ∀ f ∈ (host.filters ⟨index, HANDLE_MIN_EGRESS⟩).entries, f.handle = handle →
        isOwn prog f = true

/-- Each name of the list attaches one filter to its interface. -/
theorem countP_indexOf {host : Host} {names : List String} (hnodup : names.Nodup) {name : String}
    (hname : name ∈ names) {index : ℕ} (hindex : host.indexOf name = some index) :
    (names.countP fun name => host.indexOf name = some index) = 1 := by
  rw [← List.count_eq_one_of_mem hnodup hname, List.count]
  apply List.countP_congr
  intro name' _
  simp only [decide_eq_true_eq, beq_iff_eq]
  constructor
  · intro hindex'
    exact Host.indexOf_inj hindex' hindex
  · intro heq
    rw [heq]
    exact hindex

/-- The filters of others are as they were. -/
def ForeignKept (prog : Program) (host host' : Host) : Prop :=
  ∀ hook, (host'.filters hook).entries.filter (foreign prog) =
    (host.filters hook).entries.filter (foreign prog)

theorem foreignKept_of_layered {w w' : State} {handles : Hook → List ℕ} {host : Host}
    (h : Spared prog w w') (hlayered : Layered prog w'.host host handles) :
    ForeignKept prog w.host host :=
  fun hook => ((hlayered hook).filter_eq (foreign prog) foreign_ownFilter).trans (h.foreign hook)

/-- One own filter hangs on each of the interfaces. -/
def OneOwnEach (prog : Program) (names : List String) (host : Host) : Prop :=
  ∀ name ∈ names, ∃ index, host.indexOf name = some index ∧
    ((host.filters ⟨index, HANDLE_MIN_EGRESS⟩).entries.filter (isOwn prog)).length = 1

theorem oneOwnEach {names : List String} {w w₁ w' : State} {objects : List ClsactFilter}
    {attachments : List Attachment} (hnodup : names.Nodup)
    (hcleaned : CleanedAll e prog names w names w₁) (hheap : w.proc.heap = [])
    (hall : AttachedAll prog w₁.host w₁ objects attachments w')
    (hnames : objects.map ClsactFilter.ifaceName = names) (hlog : w'.proc.log = []) :
    OneOwnEach prog names w'.host := by
  intro name hname
  rw [hall.log] at hlog
  obtain ⟨index, hindex, hclean⟩ := hcleaned.cleaned hlog name hname
  rw [← indexOf_congr hcleaned.spared.interfaces] at hindex
  refine ⟨index, ?_, ?_⟩
  · rw [indexOf_congr hall.owned.interfaces]
    exact hindex
  · have hheap' : w'.proc.heap = objects := by
      rw [hall.heap, hcleaned.spared.heap, hheap, List.nil_append]
    have hnone : (w₁.host.filters ⟨index, HANDLE_MIN_EGRESS⟩).entries.filter (isOwn prog) = [] :=
      List.filter_eq_nil_iff.mpr fun f hf => by simp [hclean f hf]
    rw [(hall.owned.layered _).length_filter (isOwn prog) isOwn_ownFilter, hnone, hheap',
      length_liveHandles hall.objects, hnames, if_pos rfl, countP_indexOf hnodup hname hindex]
    rfl

/-- With a handle left by the others, the interface of a name that has not been
attached to has a place for a filter. -/
theorem not_noPlace {st : Start} {host : Host} {w₁ w' : State} {objects : List ClsactFilter}
    {attachments : List Attachment} {name : String} {post : List String}
    (hstart : CanStart prog host st)
    (hcleaned : CleanedAll st.env prog st.names (World.fresh host) st.names w₁)
    (hlog : w₁.proc.log = [])
    (hall : AttachedAll prog w₁.host w₁ objects attachments w')
    (hnames : st.names = objects.map ClsactFilter.ifaceName ++ name :: post) :
    ¬NoPlace w₁.host name w₁ w' := by
  have hname : name ∈ st.names := by simp [hnames]
  obtain ⟨index, hindex, hready, handle, hrange, hfree⟩ := hstart.serves name hname
  obtain ⟨index', hindex', hclean⟩ := hcleaned.cleaned hlog name hname
  obtain rfl : index = index' := Option.some.inj (hindex.symm.trans hindex')
  replace hindex : w₁.host.indexOf name = some index := by
    rw [indexOf_congr hcleaned.spared.interfaces]
    exact hindex
  have hheap : w'.proc.heap = objects := by
    rw [hall.heap, hcleaned.spared.heap]
    exact List.nil_append objects
  have hnil : liveHandles w'.proc.heap ⟨index, HANDLE_MIN_EGRESS⟩ = [] := by
    rw [← List.length_eq_zero_iff, hheap, length_liveHandles hall.objects, if_pos rfl,
      List.countP_eq_zero]
    intro name' hname' hsame
    have heq : name' = name := Host.indexOf_inj (of_decide_eq_true hsame) hindex
    have hnodup := st.nodup
    rw [hnames, List.nodup_middle, List.nodup_cons] at hnodup
    exact hnodup.1 (List.mem_append_left _ (heq ▸ hname'))
  intro hno
  rcases hno with hnone | ⟨index', hindex', hnot | hused⟩
  · rw [hindex] at hnone
    cases hnone
  · obtain rfl : index = index' := Option.some.inj (hindex.symm.trans hindex')
    exact hnot (hcleaned.spared.ready index hready)
  · obtain rfl : index = index' := Option.some.inj (hindex.symm.trans hindex')
    obtain ⟨f, hf, hhandle⟩ := hused handle hrange
    have hlayer := hall.owned.layered ⟨index, HANDLE_MIN_EGRESS⟩
    rw [hnil] at hlayer
    rw [hlayer.eq_of_nil] at hf
    have hforeign := hclean f hf
    have hown := hfree f ((hcleaned.spared.sublist _).subset hf) hhandle
    rw [hforeign] at hown
    cases hown

theorem CanStart.not_failsFrom {host : Host} {st : Start} (h : CanStart prog host st) (n : ℕ) :
    ¬FailsFrom st.env n := by
  intro hfails
  obtain ⟨k, -, hk⟩ := hfails
  exact hk (h.calls k)

theorem CanStart.not_dies {host : Host} {st : Start} (h : CanStart prog host st) :
    ¬Dies st.env := by
  intro hdies
  obtain ⟨n, hn⟩ := hdies
  rw [h.alive n] at hn
  cases hn

theorem CanStart.not_cleanupFails {host : Host} {st : Start} (h : CanStart prog host st) :
    ¬CleanupFails st.env prog st.names (World.fresh host) := by
  intro hfails
  rcases hfails with hfails | htag | ⟨name, hname, hnone⟩
  · exact h.not_failsFrom _ hfails
  · exact h.tag htag
  · obtain ⟨index, hindex, -⟩ := h.serves name hname
    have hnone' : host.indexOf name = none := hnone
    rw [hindex] at hnone'
    cases hnone'

/-- What a start can do to the host, and when it reports an error. -/
theorem ensures_start (host : Host) (st : Start) :
    Ensures (start st.env prog st.names) (World.fresh host)
      (fun _ w' => ForeignKept prog host w'.host ∧
        (w'.proc.log = [] → OneOwnEach prog st.names w'.host) ∧
        (CanStart prog host st → w'.proc.log = []))
      (fun _ w' => ForeignKept prog host w'.host ∧ ¬CanStart prog host st)
      (fun w' => ForeignKept prog host w'.host ∧ Dies st.env) := by
  rw [start, ensures_bind]
  apply (ensures_cleanupAll st.names (World.fresh host)).mono
  · intro _ w₁ hcleaned
    have hspared := hcleaned.spared
    have howned : Owned prog w₁.host w₁ := owned_of_heap_nil hspared.heap
    apply (ensures_attachAll st.names howned (holding_nil hspared.heap hspared.links)).mono
    · intro attachments w' h
      obtain ⟨objects, hall, hnames, -⟩ := h
      refine ⟨foreignKept_of_layered hspared hall.owned.layered,
        oneOwnEach st.nodup hcleaned rfl hall hnames, ?_⟩
      intro hstart
      rw [hall.log]
      exact hcleaned.logged.resolve_right hstart.not_cleanupFails
    · intro err w' h
      obtain ⟨objects, attachments, name, post, hall, hnames, hcause, hclosing⟩ := h
      refine ⟨foreignKept_of_layered hspared hclosing.owned.layered, ?_⟩
      intro hstart
      have hlog : w₁.proc.log = [] := hcleaned.logged.resolve_right hstart.not_cleanupFails
      rcases hcause with hfails | hno
      · exact hstart.not_failsFrom _ hfails
      · exact not_noPlace hstart hcleaned hlog hall hnames hno
    · intro w' h
      obtain ⟨⟨handles, hlayered⟩, hdies⟩ := h
      exact ⟨foreignKept_of_layered hspared hlayered, hdies⟩
  · intro _ _ hfalse
    exact hfalse.elim
  · intro w₁ h
    exact ⟨h.1.foreign, h.2⟩

theorem afterStart_spec (host : Host) (st : Start) :
    ForeignKept prog host (afterStart prog host st) ∧
      (Succeeds prog host st → OneOwnEach prog st.names (afterStart prog host st)) ∧
      (CanStart prog host st → Succeeds prog host st) := by
  have hstart : Ensures (start st.env prog st.names) (World.fresh host) _ _ _ :=
    ensures_start host st
  unfold Ensures at hstart
  unfold Succeeds afterStart startOn
  rcases hrun : start st.env prog st.names (World.fresh host) with ⟨_ | _ | _, w'⟩
  · rw [hrun] at hstart
    obtain ⟨hkept, hone, hlog⟩ := hstart
    exact ⟨hkept, fun hsucceeds => hone hsucceeds.2, fun hcan => ⟨rfl, hlog hcan⟩⟩
  · rw [hrun] at hstart
    obtain ⟨hkept, hcan⟩ := hstart
    exact ⟨hkept, fun hsucceeds => absurd hsucceeds.1 Bool.false_ne_true,
      fun hcan' => absurd hcan' hcan⟩
  · rw [hrun] at hstart
    obtain ⟨hkept, hdies⟩ := hstart
    exact ⟨hkept, fun hsucceeds => absurd hsucceeds.1 Bool.false_ne_true,
      fun hcan => absurd hdies hcan.not_dies⟩

theorem run_foreignKept (host : Host) (history : List Start) :
    ForeignKept prog host (run (afterStart prog) host history) := by
  apply invariant_run (I := fun host' => ForeignKept prog host host')
  · exact fun _ => rfl
  · intro host' st h hook
    exact ((afterStart_spec host' st).1 hook).trans (h hook)

/-- Through any history of starts and crashes the filters of others stay as they
were; a start that reports no error leaves one own filter on each of its interfaces;
and a start reports an error only if a call fails or some interface has no place. -/
theorem restarts_spare_and_converge (prog : Program) (host : Host) (history : List Start)
    (st : Start) :
    ForeignKept prog host (run (afterStart prog) host (history ++ [st])) ∧
      (Succeeds prog (run (afterStart prog) host history) st →
        OneOwnEach prog st.names (run (afterStart prog) host (history ++ [st]))) ∧
      (CanStart prog (run (afterStart prog) host history) st →
        Succeeds prog (run (afterStart prog) host history) st) := by
  refine ⟨run_foreignKept host (history ++ [st]), ?_⟩
  rw [run_concat]
  exact (afterStart_spec _ st).2

/-- The first start dies when it has attached to one interface of two. -/
example :
    let names := ["eth0", "wg0"]
    let died := afterStart loaded bareHost ⟨{ quiet with crashes := fun n => n = 12 }, names,
      by decide⟩
    let after := afterStart loaded died ⟨quiet, names, by decide⟩
    [2, 5].map (fun link => (died.filters ⟨link, HANDLE_MIN_EGRESS⟩).entries.length) = [1, 0] ∧
      [2, 5].map (fun link => (after.filters ⟨link, HANDLE_MIN_EGRESS⟩).entries.length) =
        [1, 1] := by
  decide +kernel

section Full

/-- The filters of others have all handles that the program may take. -/
def ForeignFull (prog : Program) (host : Host) (hook : Hook) : Prop :=
  ∀ handle ∈ handleRange, ∃ f ∈ (host.filters hook).entries,
    f.handle = handle ∧ isOwn prog f = false

theorem ForeignFull.handlesUsed {hook : Hook} {w w' : State} (h : ForeignFull prog w.host hook)
    (hspared : Spared prog w w') : HandlesUsed w'.host hook := by
  intro handle hrange
  obtain ⟨f, hf, hhandle, hforeign⟩ := h handle hrange
  have hkept : f ∈ (w'.host.filters hook).entries.filter (foreign prog) := by
    rw [hspared.foreign, List.mem_filter, foreign, hforeign]
    exact ⟨hf, rfl⟩
  exact ⟨f, (List.mem_filter.mp hkept).1, hhandle⟩

theorem ensures_attachAll_full {name : String} {index : ℕ} {w : State} (hlive : ¬Dies e)
    (hindex : w.host.indexOf name = some index)
    (hused : HandlesUsed w.host ⟨index, HANDLE_MIN_EGRESS⟩) :
    Ensures (attachAll e prog [name]) w (fun _ _ => False) (fun _ w' => Kept w w')
      (fun _ => False) := by
  simp only [attachAll, attachEach, ensures_bind, ensures_attempt]
  apply (ensures_attachEgress name w).mono
  · intro a w' h
    obtain ⟨index', hindex', ⟨handle, hgained, -⟩, -⟩ := h
    obtain rfl : index = index' := Option.some.inj (hindex.symm.trans hindex')
    exact absurd hused hgained.not_handlesUsed
  · intro err w' h
    exact h.1
  · intro w' h
    obtain ⟨index', -, hdies⟩ := h
    exact hlive hdies

/-- A start on an interface where the others have left no handle is an error and adds
nothing, even if no call fails. -/
theorem ensures_start_full {host : Host} {name : String} {index : ℕ} (hlive : ¬Dies e)
    (hindex : host.indexOf name = some index)
    (hfull : ForeignFull prog host ⟨index, HANDLE_MIN_EGRESS⟩) :
    Ensures (start e prog [name]) (World.fresh host) (fun _ _ => False)
      (fun _ w' => Spared prog (World.fresh host) w') (fun _ => False) := by
  rw [start, ensures_bind]
  apply (ensures_cleanupAll [name] (World.fresh host)).mono
  · intro _ w₁ hcleaned
    have hspared := hcleaned.spared
    have hindex₁ : w₁.host.indexOf name = some index := by
      rw [indexOf_congr hspared.interfaces]
      exact hindex
    have hfull₀ : ForeignFull prog (World.fresh host).host ⟨index, HANDLE_MIN_EGRESS⟩ := hfull
    apply (ensures_attachAll_full hlive hindex₁ (hfull₀.handlesUsed hspared)).mono
    · intro _ _ hfalse
      exact hfalse
    · intro err w' hkept
      exact hspared.trans (spared_of_kept hkept)
    · intro _ hfalse
      exact hfalse
  · intro _ _ hfalse
    exact hfalse.elim
  · intro w' h
    exact hlive h.2

theorem not_oneOwnEach_of_full {host : Host} {name : String} {index : ℕ} (hlive : ¬Dies e)
    (hindex : host.indexOf name = some index)
    (hfull : ForeignFull prog host ⟨index, HANDLE_MIN_EGRESS⟩)
    (hclean : Cleaned prog host ⟨index, HANDLE_MIN_EGRESS⟩) :
    ¬OneOwnEach prog [name] (afterStart prog host ⟨e, [name], List.nodup_singleton name⟩) := by
  intro hone
  have hstart := ensures_start_full hlive hindex hfull
  unfold Ensures at hstart
  unfold afterStart startOn at hone
  rcases hrun : start e prog [name] (World.fresh host) with ⟨_ | _ | _, w'⟩
  · rw [hrun] at hstart
    exact hstart
  · rw [hrun] at hstart hone
    obtain ⟨index', hindex', hlength⟩ := hone name (List.mem_singleton_self name)
    have hinterfaces : w'.host.interfaces = host.interfaces := hstart.interfaces
    rw [indexOf_congr hinterfaces] at hindex'
    obtain rfl : index = index' := Option.some.inj (hindex.symm.trans hindex')
    have hcleaned : Cleaned prog w'.host ⟨index, HANDLE_MIN_EGRESS⟩ := by
      intro f hf
      exact hclean f ((hstart.sublist _).subset hf)
    rw [List.filter_eq_nil_iff.mpr fun f hf => by simp [hcleaned f hf]] at hlength
    cases hlength
  · rw [hrun] at hstart
    exact hstart

/-- Somebody else's filters, one for each handle. -/
def fullTable : FilterTable where
  entries := handleRange.map fun handle => ⟨2, ETH_P_ALL, handle, none⟩
  nodup := by
    rw [List.map_map]
    apply List.Nodup.map _ List.nodup_range'
    intro handle handle' heq
    simpa [Filter.key] using heq

def fullHost : Host := bareHost.setFilters ⟨2, HANDLE_MIN_EGRESS⟩ fullTable

/-- All calls succeed, and the program has found no handle. -/
theorem full_interface_stays_bare :
    (∀ n, quiet.fails n = none ∧ quiet.crashes n = false) ∧
      ¬OneOwnEach loaded ["eth0"]
        (afterStart loaded fullHost ⟨quiet, ["eth0"], List.nodup_singleton _⟩) := by
  have hentries : ∀ f ∈ (fullHost.filters ⟨2, HANDLE_MIN_EGRESS⟩).entries,
      isOwn loaded f = false := by
    intro f hf
    rw [fullHost, Host.filters_setFilters_self] at hf
    obtain ⟨handle, -, rfl⟩ := List.mem_map.mp hf
    rfl
  have hfull : ForeignFull loaded fullHost ⟨2, HANDLE_MIN_EGRESS⟩ := by
    intro handle hrange
    refine ⟨⟨2, ETH_P_ALL, handle, none⟩, ?_, rfl, rfl⟩
    rw [fullHost, Host.filters_setFilters_self]
    exact List.mem_map_of_mem hrange
  have hindex : fullHost.indexOf "eth0" = some 2 := rfl
  refine ⟨fun _ => ⟨rfl, rfl⟩, ?_⟩
  exact not_oneOwnEach_of_full not_dies_quiet hindex hfull hentries

end Full

end PacketLoss.Restarts
