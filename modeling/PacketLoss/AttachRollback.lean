import PacketLoss.TcAttach

/-!
Attaching to all interfaces or to none. While no other party acts, the filters of
this process are a layer over the lists that were there before, with the handles
that its objects hold as labels. Every attach and every close keeps this, whichever
calls fail, so that a rollback finds its own filters again.
-/
namespace PacketLoss.AttachRollback

open CrashPrograms KeyedLists Prog Netlink TcAttach

/-- The handles that the objects of the process hold at a hook. -/
def liveHandles (heap : List ClsactFilter) (hook : Hook) : List ℕ :=
  (heap.filter fun c => c.hook = hook ∧ c.handle ≠ 0).map ClsactFilter.handle

theorem mem_liveHandles {heap : List ClsactFilter} {c : ClsactFilter} (hc : c ∈ heap)
    (hhandle : c.handle ≠ 0) : c.handle ∈ liveHandles heap c.hook :=
  List.mem_map_of_mem (List.mem_filter.mpr ⟨hc, by simp [hhandle]⟩)

theorem liveHandles_concat {heap : List ClsactFilter} {c : ClsactFilter} (hhandle : c.handle ≠ 0) :
    liveHandles (heap ++ [c]) =
      Function.update (liveHandles heap) c.hook (liveHandles heap c.hook ++ [c.handle]) := by
  funext hook
  by_cases hhook : hook = c.hook
  · rw [hhook, Function.update_self]
    simp [liveHandles, hhandle]
  · rw [Function.update_of_ne hhook]
    simp [liveHandles, Ne.symm hhook]

theorem liveHandles_release {heap : List ClsactFilter} {p : ℕ} {c : ClsactFilter}
    (hc : heap[p]? = some c) (hhandle : c.handle ≠ 0) (hnodup : (liveHandles heap c.hook).Nodup) :
    liveHandles (heap.set p { c with handle := 0 }) =
      Function.update (liveHandles heap) c.hook ((liveHandles heap c.hook).erase c.handle) := by
  obtain ⟨pre, post, rfl, rfl⟩ : ∃ pre post, heap = pre ++ c :: post ∧ p = pre.length := by
    obtain ⟨hlt, hget⟩ := List.getElem?_eq_some_iff.mp hc
    refine ⟨heap.take p, heap.drop (p + 1), ?_, ?_⟩
    · rw [← hget, List.getElem_cons_drop, List.take_append_drop]
    · rw [List.length_take, Nat.min_eq_left hlt.le]
  rw [List.set_append_right _ _ le_rfl, Nat.sub_self, List.set_cons_zero]
  funext hook
  by_cases hhook : hook = c.hook
  · rw [hhook, Function.update_self]
    have hlive : liveHandles (pre ++ c :: post) c.hook =
        liveHandles pre c.hook ++ c.handle :: liveHandles post c.hook := by
      simp [liveHandles, hhandle]
    rw [hlive, List.nodup_middle, List.nodup_cons, List.mem_append] at hnodup
    rw [hlive, List.erase_append_right _ fun hmem => hnodup.1 (Or.inl hmem),
      List.erase_cons_head]
    simp [liveHandles]
  · rw [Function.update_of_ne hhook]
    have hhook' : ({ c with handle := 0 } : ClsactFilter).hook ≠ hook := Ne.symm hhook
    simp [liveHandles, Ne.symm hhook]

/-- The filters under the given handles lie over those of `base`. -/
def Layered (prog : Program) (base host : Host) (handles : Hook → List ℕ) : Prop :=
  ∀ hook, Layer Filter.handle (ownFilter prog) (base.filters hook).entries
    (host.filters hook).entries (handles hook)

variable {e : Env} {prog : Program} {base : Host}

theorem label_own (handle : ℕ) : (ownFilter prog handle).handle = handle := rfl

theorem Layered.gain {hook : Hook} {handle : ℕ} {handles : Hook → List ℕ} {w w' : State}
    (h : Layered prog base w.host handles) (hgained : Gained prog hook handle w w') :
    Layered prog base w'.host (Function.update handles hook (handles hook ++ [handle])) := by
  intro hook'
  by_cases hhook : hook' = hook
  · rw [hhook, Function.update_self]
    obtain ⟨n, hadd⟩ := hgained.added
    exact (h hook).insert label_own hgained.free (KeyedList.sublist_add hadd)
      (KeyedList.perm_add hadd)
  · rw [Function.update_of_ne hhook, hgained.others hook' hhook]
    exact h hook'

/-- A close finds the filter of its own object. -/
theorem Layered.detach {c : ClsactFilter} {f : Filter} {handles : Hook → List ℕ} {host host' : Host}
    (h : Layered prog base host handles) (hc : c.handle ∈ handles c.hook)
    (hfirst : firstWithHandle host c = some f) (hhost : host' = detached host c f) :
    Layered prog base host'
      (Function.update handles c.hook ((handles c.hook).erase c.handle)) := by
  obtain rfl : ownFilter prog c.handle = f := by
    have hfind := (h c.hook).find?_eq label_own hc
    exact Option.some.inj (hfind.symm.trans hfirst)
  intro hook
  rw [hhost, detached]
  by_cases hhook : hook = c.hook
  · rw [hhook, Function.update_self, Host.filters_setFilters_self]
    exact (h c.hook).erase label_own hc
  · rw [Function.update_of_ne hhook, Host.filters_setFilters_of_ne _ hhook]
    exact h hook

theorem Layered.exists_first {c : ClsactFilter} {handles : Hook → List ℕ} {host : Host}
    (h : Layered prog base host handles) (hc : c.handle ∈ handles c.hook) :
    firstWithHandle host c ≠ none := by
  have hfind := (h c.hook).find?_eq label_own hc
  rw [firstWithHandle, hfind]
  exact Option.some_ne_none _

/-- Without a handle that is held, the lists are those of `base`. -/
theorem Layered.filters_eq {handles : Hook → List ℕ} {host : Host}
    (h : Layered prog base host handles) (hnil : ∀ hook, handles hook = []) :
    host.filters = base.filters := by
  funext hook
  have hlayer := h hook
  rw [hnil hook] at hlayer
  exact KeyedList.ext hlayer.eq_of_nil

/-- The process holds the filters that it has added over `base`. -/
structure Owned (prog : Program) (base : Host) (w : State) : Prop where
  layered : Layered prog base w.host (liveHandles w.proc.heap)
  interfaces : w.host.interfaces = base.interfaces
  known : ∀ c ∈ w.proc.heap, c.ifaceIdx ∈ base.interfaces.map Prod.snd

theorem owned_of_heap_nil {w : State} (h : w.proc.heap = []) : Owned prog w.host w where
  layered := by
    rw [h]
    exact fun _ => Layer.refl
  interfaces := rfl
  known := by
    rw [h]
    exact fun _ hc => absurd hc List.not_mem_nil

theorem Owned.kept {w w' : State} (h : Owned prog base w) (hkept : Kept w w') :
    Owned prog base w' where
  layered := by
    rw [hkept.proc]
    intro hook
    rw [hkept.filters]
    exact h.layered hook
  interfaces := hkept.interfaces.trans h.interfaces
  known := hkept.proc ▸ h.known

theorem Owned.attached {name : String} {index : ℕ} {w w' : State} (h : Owned prog base w)
    (hattached : Attached prog name index w w') (hindex : index ∈ base.interfaces.map Prod.snd) :
    Owned prog base w' := by
  obtain ⟨handle, hgained, hheap⟩ := hattached
  refine ⟨?_, hgained.interfaces.trans h.interfaces, ?_⟩
  · rw [hheap, liveHandles_concat hgained.handle_ne_zero]
    exact h.layered.gain hgained
  · intro c hc
    rw [hheap, List.mem_append, List.mem_singleton] at hc
    rcases hc with hc | rfl
    · exact h.known c hc
    · exact hindex

/-- What a crash leaves is a layer still, whatever the objects held. -/
def Abandoned (e : Env) (prog : Program) (base : Host) (w : State) : Prop :=
  (∃ handles, Layered prog base w.host handles) ∧ Dies e

theorem Owned.diesAttaching {index : ℕ} {w w' : State} (h : Owned prog base w)
    (hdies : DiesAttaching e prog index w w') : Abandoned e prog base w' := by
  obtain ⟨hkept | ⟨handle, hgained, -⟩, hdies⟩ := hdies
  · exact ⟨⟨_, (h.kept hkept).layered⟩, hdies⟩
  · exact ⟨⟨_, h.layered.gain hgained⟩, hdies⟩

theorem ensures_close_live {w : State} {p : ℕ} {c : ClsactFilter} (h : Owned prog base w)
    (hc : w.proc.heap[p]? = some c) (hhandle : c.handle ≠ 0) :
    Ensures (ClsactFilter.close e p) w
      (fun _ w' => Owned prog base w' ∧ w.calls ≤ w'.calls ∧
        w'.proc = { w.proc with heap := w.proc.heap.set p { c with handle := 0 } })
      (fun _ w' => w.calls ≤ w'.calls ∧ w'.host = w.host ∧ w'.proc = w.proc ∧
        FailsFrom e w.calls)
      (Abandoned e prog base) := by
  have hmem : c ∈ w.proc.heap := List.mem_of_getElem? hc
  have hlive := mem_liveHandles hmem hhandle
  have hknown : c.ifaceIdx ∈ w.host.interfaces.map Prod.snd := by
    rw [h.interfaces]
    exact h.known c hmem
  apply (ensures_close hc hhandle hknown).mono
  · intro _ w' hreturn
    obtain ⟨hcalls, -, f, hfirst, hhost, hproc⟩ := hreturn
    refine ⟨⟨?_, ?_, ?_⟩, hcalls, hproc⟩
    · rw [hproc, liveHandles_release hc hhandle (h.layered c.hook).nodup]
      exact h.layered.detach hlive hfirst hhost
    · rw [hhost]
      exact h.interfaces
    · intro c' hc'
      rw [hproc] at hc'
      rcases List.mem_or_eq_of_mem_set hc' with hc' | rfl
      · exact h.known c' hc'
      · exact h.known c hmem
  · intro err w' hfail
    obtain ⟨hcalls, hhost, hproc, ⟨k, -, hfails⟩ | hnone⟩ := hfail
    · exact ⟨hcalls, hhost, hproc, w.calls + k, Nat.le_add_right _ _, hfails⟩
    · exact absurd hnone (h.layered.exists_first hlive)
  · intro w' hcrash
    obtain ⟨hproc, hhost | ⟨f, hfirst, hhost⟩, hdies⟩ := hcrash
    · rw [Abandoned, hhost]
      exact ⟨⟨_, h.layered⟩, hdies⟩
    · exact ⟨⟨_, h.layered.detach hlive hfirst hhost⟩, hdies⟩

/-- The objects `ps` were closed one after the other, unless a call failed. -/
structure Closing (e : Env) (prog : Program) (base : Host) (w₀ : State) (ps : List ℕ) (w : State) :
    Prop where
  owned : Owned prog base w
  length : w.proc.heap.length = w₀.proc.heap.length
  links : w.proc.links = w₀.proc.links
  log : w.proc.log = w₀.proc.log
  calls : w₀.calls ≤ w.calls
  closed : FailsFrom e w₀.calls ∨ ∀ p ∈ ps, ClosedAt w p

theorem closing_nil {w : State} (h : Owned prog base w) : Closing e prog base w [] w :=
  ⟨h, rfl, rfl, rfl, le_rfl, Or.inr fun _ hp => absurd hp List.not_mem_nil⟩

theorem Closing.again {w₀ w : State} {ps : List ℕ} {p : ℕ} (h : Closing e prog base w₀ ps w)
    (hp : ClosedAt w p) : Closing e prog base w₀ (ps ++ [p]) w := by
  refine ⟨h.owned, h.length, h.links, h.log, h.calls, h.closed.imp_right ?_⟩
  intro hclosed q hq
  rcases List.mem_append.mp hq with hq | hq
  · exact hclosed q hq
  · rw [List.mem_singleton.mp hq]
    exact hp

theorem Closing.released {w₀ w w' : State} {ps : List ℕ} {p : ℕ} {c : ClsactFilter}
    (h : Closing e prog base w₀ ps w) (howned : Owned prog base w') (hcalls : w.calls ≤ w'.calls)
    (hproc : w'.proc = { w.proc with heap := w.proc.heap.set p { c with handle := 0 } }) :
    Closing e prog base w₀ (ps ++ [p]) w' := by
  refine ⟨howned, ?_, ?_, ?_, h.calls.trans hcalls, h.closed.imp_right ?_⟩
  · rw [hproc, List.length_set]
    exact h.length
  · rw [hproc]
    exact h.links
  · rw [hproc]
    exact h.log
  · intro hclosed q hq c' hc'
    rw [hproc, List.getElem?_set] at hc'
    split at hc'
    · split at hc'
      · rw [← Option.some.inj hc']
      · cases hc'
    next hne =>
      rcases List.mem_append.mp hq with hq | hq
      · exact hclosed q hq c' hc'
      · exact absurd (List.mem_singleton.mp hq).symm hne

theorem Closing.refused {w₀ w w' : State} {ps : List ℕ} (h : Closing e prog base w₀ ps w)
    (hcalls : w.calls ≤ w'.calls) (hhost : w'.host = w.host) (hproc : w'.proc = w.proc)
    (hfails : FailsFrom e w₀.calls) (p : ℕ) : Closing e prog base w₀ (ps ++ [p]) w' := by
  refine ⟨⟨?_, ?_, ?_⟩, ?_, ?_, ?_, h.calls.trans hcalls, Or.inl hfails⟩
  · rw [hhost, hproc]
    exact h.owned.layered
  · rw [hhost]
    exact h.owned.interfaces
  · rw [hproc]
    exact h.owned.known
  · rw [hproc]
    exact h.length
  · rw [hproc]
    exact h.links
  · rw [hproc]
    exact h.log

theorem Closing.close {w₀ w : State} {ps : List ℕ} {p : ℕ} (h : Closing e prog base w₀ ps w)
    (hp : p < w₀.proc.heap.length) :
    Ensures (ClsactFilter.close e p) w (fun _ w' => Closing e prog base w₀ (ps ++ [p]) w')
      (fun _ w' => Closing e prog base w₀ (ps ++ [p]) w' ∧ FailsFrom e w₀.calls)
      (Abandoned e prog base) := by
  obtain ⟨c, hc⟩ : ∃ c, w.proc.heap[p]? = some c :=
    ⟨_, List.getElem?_eq_getElem (by rw [h.length]; exact hp)⟩
  by_cases hhandle : c.handle = 0
  · have hclosedAt : ClosedAt w p := by
      intro c' hc'
      rw [Option.some.inj (hc'.symm.trans hc)]
      exact hhandle
    apply (ensures_close_of_closed hclosedAt).mono
    · intro _ w' hw
      rw [hw]
      exact h.again hclosedAt
    · intro _ _ hfalse
      exact hfalse
    · intro _ hfalse
      exact hfalse
  · apply (ensures_close_live h.owned hc hhandle).mono
    · intro _ w' hreturn
      obtain ⟨howned, hcalls, hproc⟩ := hreturn
      exact h.released howned hcalls hproc
    · intro err w' hfail
      obtain ⟨hcalls, hhost, hproc, hfails⟩ := hfail
      have hfrom := hfails.mono h.calls
      exact ⟨h.refused hcalls hhost hproc hfrom p, hfrom⟩
    · intro w' hcrash
      exact hcrash

/-- Both owners hold the same objects, which are all there are. -/
structure Holding (attachments : List Attachment) (w : State) : Prop where
  link : ∀ a ∈ attachments, a.link = none
  clsact : attachments.map Attachment.clsact = (List.range w.proc.heap.length).map some
  links : w.proc.links = List.range w.proc.heap.length

theorem holding_nil {w : State} (hheap : w.proc.heap = []) (hlinks : w.proc.links = []) :
    Holding [] w where
  link := fun _ ha => absurd ha List.not_mem_nil
  clsact := by rw [hheap, List.length_nil, List.range_zero, List.map_nil, List.map_nil]
  links := by rw [hheap, hlinks, List.length_nil, List.range_zero]

theorem Holding.attach {attachments : List Attachment} {w w' : State} {name : String}
    {index : ℕ} (h : Holding attachments w) (hattached : Attached prog name index w w')
    (hlinks : w'.proc.links = w.proc.links ++ [w.proc.heap.length]) :
    Holding (attachments ++ [⟨none, some w.proc.heap.length, index⟩]) w' := by
  obtain ⟨handle, -, hheap⟩ := hattached
  have hlength : w'.proc.heap.length = w.proc.heap.length + 1 := by
    rw [hheap, List.length_append, List.length_singleton]
  refine ⟨?_, ?_, ?_⟩
  · intro a ha
    rcases List.mem_append.mp ha with ha | ha
    · exact h.link a ha
    · rw [List.mem_singleton.mp ha]
  · rw [hlength, List.range_succ, List.map_append, List.map_append, h.clsact]
    rfl
  · rw [hlength, List.range_succ, hlinks, h.links]

theorem Holding.length_eq {attachments : List Attachment} {w : State}
    (h : Holding attachments w) : attachments.length = w.proc.heap.length := by
  have hlengths := congrArg List.length h.clsact
  simpa using hlengths

/-- Closing the attachments is closing the objects in order. -/
theorem Holding.close_eq {attachments : List Attachment} {w : State}
    (h : Holding attachments w) {pre post : List Attachment} {a : Attachment}
    (hsplit : attachments = pre ++ a :: post) :
    a.close e = ClsactFilter.close e pre.length ∧ pre.length < w.proc.heap.length := by
  have hlength := h.length_eq
  have hlt : pre.length < attachments.length := by simp [hsplit]
  have hget : a.clsact = some pre.length := by
    have hat := congrArg (fun l => l[pre.length]?) h.clsact
    simp only [List.getElem?_map, List.getElem?_range (hlength ▸ hlt)] at hat
    rw [hsplit] at hat
    simpa using hat
  have hlink : a.link = none := h.link a (by rw [hsplit]; simp)
  exact ⟨by simp only [Attachment.close, hlink, hget], hlength ▸ hlt⟩

/-- Every loop that closes all attachments closes all objects. -/
theorem ensures_closeAttachments {attachments : List Attachment} {w : State}
    {f : Attachment → Code Unit} {E : Err → State → Prop} (howned : Owned prog base w)
    (hholding : Holding attachments w)
    (hf : ∀ ps p w', Closing e prog base w ps w' → p < w.proc.heap.length →
      ∀ a : Attachment, a.close e = ClsactFilter.close e p →
      Ensures (f a) w' (fun _ w'' => Closing e prog base w (ps ++ [p]) w'') E
        (Abandoned e prog base)) :
    Ensures (forEach f attachments) w
      (fun _ w' => Closing e prog base w (List.range w.proc.heap.length) w') E
      (Abandoned e prog base) := by
  rw [← hholding.length_eq]
  apply ensures_forEach (I := fun pre w' => Closing e prog base w (List.range pre.length) w')
  · exact closing_nil howned
  · intro pre a post w' hsplit hclosing
    obtain ⟨hclose, hlt⟩ := hholding.close_eq (e := e) hsplit
    rw [List.length_append, List.length_singleton, List.range_succ]
    exact hf (List.range pre.length) pre.length w' hclosing hlt a hclose

/-- With all objects closed, nothing of the process is left. -/
theorem Closing.filters_eq {w₀ w : State}
    (h : Closing e prog base w₀ (List.range w₀.proc.heap.length) w)
    (hfails : ¬FailsFrom e w₀.calls) :
    w.host.filters = base.filters ∧ ∀ p, ClosedAt w p := by
  have hall : ∀ p, ClosedAt w p := by
    intro p c hc
    have hlt := (List.getElem?_eq_some_iff.mp hc).1
    rw [h.length] at hlt
    exact h.closed.resolve_left hfails p (List.mem_range.mpr hlt) c hc
  refine ⟨h.owned.layered.filters_eq ?_, hall⟩
  intro hook
  rw [liveHandles, List.filter_eq_nil_iff.mpr, List.map_nil]
  intro c hc
  obtain ⟨p, hp⟩ := List.getElem?_of_mem hc
  simp [hall p c hp]

theorem indexOf_congr {host : Host} (h : host.interfaces = base.interfaces) (name : String) :
    host.indexOf name = base.indexOf name := by
  rw [Host.indexOf, h, Host.indexOf]

/-- Why no filter was added for a name when no call failed; `w` is the state that
the loop started in and `w'` the one that it has reached. -/
def NoPlace (base : Host) (name : String) (w w' : State) : Prop :=
  base.indexOf name = none ∨ ∃ index, base.indexOf name = some index ∧
    (¬ClsactReady w.host index ∨ HandlesUsed w'.host ⟨index, HANDLE_MIN_EGRESS⟩)

/-- The loop over the names has come from `w` to `w'` and made these objects. -/
structure AttachedAll (prog : Program) (base : Host) (w : State) (objects : List ClsactFilter)
    (attachments : List Attachment) (w' : State) : Prop where
  owned : Owned prog base w'
  holding : Holding attachments w'
  log : w'.proc.log = w.proc.log
  calls : w.calls ≤ w'.calls
  heap : w'.proc.heap = w.proc.heap ++ objects
  objects : ∀ c ∈ objects, c.handle ≠ 0 ∧ c.parent = HANDLE_MIN_EGRESS ∧
    base.indexOf c.ifaceName = some c.ifaceIdx
  ready : ∀ link, ClsactReady w.host link → ClsactReady w'.host link

theorem AttachedAll.nil {attachments : List Attachment} {w w' : State} (howned : Owned prog base w)
    (hholding : Holding attachments w) (hkept : Kept w w') :
    AttachedAll prog base w [] attachments w' where
  owned := howned.kept hkept
  holding := ⟨hholding.link, hkept.proc ▸ hholding.clsact, hkept.proc ▸ hholding.links⟩
  log := congrArg Process.log hkept.proc
  calls := hkept.calls
  heap := by rw [hkept.proc, List.append_nil]
  objects := fun _ hc => absurd hc List.not_mem_nil
  ready := hkept.ready

theorem AttachedAll.cons {name : String} {index : ℕ} {objects : List ClsactFilter}
    {attachments : List Attachment} {w w₁ w' : State} (hindex : base.indexOf name = some index)
    (hattached : Attached prog name index w w₁) (hlog : w₁.proc.log = w.proc.log)
    (h : AttachedAll prog base w₁ objects attachments w') :
    ∃ c : ClsactFilter, c.ifaceName = name ∧
      AttachedAll prog base w (c :: objects) attachments w' := by
  obtain ⟨handle, hgained, hheap⟩ := hattached
  refine ⟨⟨name, index, handle, HANDLE_MIN_EGRESS⟩, rfl, h.owned, h.holding, h.log.trans hlog,
    hgained.calls.trans h.calls, ?_, ?_,
    fun link hready => h.ready link (hgained.ready link hready)⟩
  · rw [h.heap, hheap, List.append_assoc, List.singleton_append]
  · intro c hc
    rcases List.mem_cons.mp hc with rfl | hc
    · exact ⟨hgained.handle_ne_zero, rfl, hindex⟩
    · exact h.objects c hc

theorem noPlace_of_refused {name : String} {w w' : State}
    (hinterfaces : w.host.interfaces = base.interfaces) (hkept : Kept w w')
    (h : w.host.indexOf name = none ∨
      ∃ index, w.host.indexOf name = some index ∧ Refused w.host index) :
    NoPlace base name w w' := by
  rw [indexOf_congr hinterfaces] at h
  rcases h with hnone | ⟨index, hindex, hnot | hnot | hused⟩
  · exact Or.inl hnone
  · rw [hinterfaces] at hnot
    exact absurd (Host.index_mem_of_indexOf hindex) hnot
  · exact Or.inr ⟨index, hindex, Or.inl hnot⟩
  · refine Or.inr ⟨index, hindex, Or.inr ?_⟩
    unfold HandlesUsed
    rw [hkept.filters]
    exact hused

theorem ensures_attachEach (names : List String) (attachments : List Attachment) (w : State)
    (howned : Owned prog base w) (hholding : Holding attachments w) :
    Ensures (attachEach e prog names attachments) w
      (fun r w' => ∃ objects, AttachedAll prog base w objects r.1 w' ∧
        (r.2 = none ∧ objects.map ClsactFilter.ifaceName = names ∨
          ∃ err name post, r.2 = some err ∧
            names = objects.map ClsactFilter.ifaceName ++ name :: post ∧
              (FailsFrom e w.calls ∨ NoPlace base name w w')))
      (fun _ _ => False) (Abandoned e prog base) := by
  induction names generalizing attachments w with
  | nil => exact ⟨[], AttachedAll.nil howned hholding (Kept.refl w), Or.inl ⟨rfl, rfl⟩⟩
  | cons name names ih =>
    rw [attachEach, ensures_bind, ensures_attempt]
    apply (ensures_attachEgress name w).mono
    · intro a w₁ h
      obtain ⟨index, hindex, hattached, rfl, hlinks, hlog⟩ := h
      rw [indexOf_congr howned.interfaces] at hindex
      have hmem := Host.index_mem_of_indexOf hindex
      apply (ih _ w₁ (howned.attached hattached hmem) (hholding.attach hattached hlinks)).mono
      · intro r w' h
        obtain ⟨objects, hall, hend⟩ := h
        obtain ⟨c, hname, hcons⟩ := hall.cons hindex hattached hlog
        refine ⟨c :: objects, hcons, ?_⟩
        rw [List.map_cons, hname]
        rcases hend with ⟨hnone, hnames⟩ | ⟨err, name', post, herr, hnames, hcause⟩
        · exact Or.inl ⟨hnone, by rw [hnames]⟩
        · refine Or.inr ⟨err, name', post, herr, by rw [hnames, List.cons_append], ?_⟩
          obtain ⟨handle, hgained, -⟩ := hattached
          exact hcause.imp (fun hfails => hfails.mono hgained.calls) fun hno =>
            hno.imp_right fun ⟨i, hi, hwhy⟩ =>
              ⟨i, hi, hwhy.imp_left fun hnot hready => hnot (hgained.ready i hready)⟩
      · intro _ _ hfalse
        exact hfalse
      · intro _ habandoned
        exact habandoned
    · intro err w₁ h
      obtain ⟨hkept, hcause⟩ := h
      refine ⟨[], AttachedAll.nil howned hholding hkept,
        Or.inr ⟨err, name, names, rfl, rfl, hcause.imp_right ?_⟩⟩
      exact noPlace_of_refused howned.interfaces hkept
    · intro w₁ h
      obtain ⟨index, hdies⟩ := h
      exact howned.diesAttaching hdies

theorem ensures_rollback {attachments : List Attachment} {w : State}
    (howned : Owned prog base w) (hholding : Holding attachments w) :
    Ensures (forEach (fun existing => do
        let _ ← attempt (Attachment.close e existing)
        pure ()) attachments) w
      (fun _ w' => Closing e prog base w (List.range w.proc.heap.length) w') (fun _ _ => False)
      (Abandoned e prog base) := by
  apply ensures_closeAttachments howned hholding
  intro ps p w' hclosing hp a hclose
  rw [ensures_bind, ensures_attempt, hclose]
  apply (hclosing.close hp).mono
  · intro _ w'' h
    exact h
  · intro err w'' h
    exact h.1
  · intro w'' h
    exact h

/-- The state in which the loop over the names ends, before any rollback. -/
def loopEnd (e : Env) (prog : Program) (names : List String) (w : State) : State :=
  (attachEach e prog names [] w).2

theorem ensures_attachAll (names : List String) {w : State} (howned : Owned prog base w)
    (hholding : Holding [] w) :
    Ensures (attachAll e prog names) w
      (fun attachments w' => ∃ objects, AttachedAll prog base w objects attachments w' ∧
        objects.map ClsactFilter.ifaceName = names ∧ w' = loopEnd e prog names w)
      (fun _ w' => ∃ objects attachments name post,
        AttachedAll prog base w objects attachments (loopEnd e prog names w) ∧
          names = objects.map ClsactFilter.ifaceName ++ name :: post ∧
          (FailsFrom e w.calls ∨ NoPlace base name w (loopEnd e prog names w)) ∧
          Closing e prog base (loopEnd e prog names w)
            (List.range (loopEnd e prog names w).proc.heap.length) w')
      (Abandoned e prog base) := by
  rw [attachAll, ensures_bind]
  apply (ensures_attachEach names [] w howned hholding).returned_eq.mono
  · intro r w₁ h
    obtain ⟨⟨objects, hall, hend⟩, hrun⟩ := h
    obtain ⟨attachments, failure⟩ := r
    have hloop : loopEnd e prog names w = w₁ := hrun
    rcases hend with ⟨rfl, hnames⟩ | ⟨err, name, post, rfl, hnames, hcause⟩
    · exact ⟨objects, hall, hnames, hloop.symm⟩
    · rw [hloop]
      simp only [ensures_bind]
      apply (ensures_rollback hall.owned hall.holding).mono
      · intro _ w₂ hclosing
        exact ⟨objects, attachments, name, post, hall, hnames, hcause, hclosing⟩
      · intro _ _ hfalse
        exact hfalse.elim
      · intro w₂ habandoned
        exact habandoned
  · intro _ _ hfalse
    exact hfalse.elim
  · intro _ habandoned
    exact habandoned

theorem ensures_closeLinks {w : State} (hclosed : ∀ p, ClosedAt w p) (links : List ℕ)
    (first : Option Err) :
    Ensures (closeLinks e links first) w (fun first' w' => first' = first ∧ w' = w)
      (fun _ _ => False) (fun _ => False) := by
  induction links with
  | nil => exact ⟨rfl, rfl⟩
  | cons p links ih =>
    rw [closeLinks, ensures_bind, ensures_attempt]
    apply (ensures_close_of_closed (hclosed p)).mono
    · intro _ w' hw
      rw [hw]
      exact ih
    · intro _ _ hfalse
      exact hfalse
    · intro _ hfalse
      exact hfalse

/-- Closing the collection touches no filter once all objects are closed. -/
theorem ensures_collectionClose {w : State} (hclosed : ∀ p, ClosedAt w p) :
    Ensures (collectionClose e) w (fun _ w' => w'.host = w.host)
      (fun _ w' => w'.host = w.host ∧ FailsFrom e w.calls) (fun _ => Dies e) := by
  rw [collectionClose]
  simp only [ensures_bind, ensures_read, ensures_attempt]
  apply (ensures_closeLinks hclosed w.proc.links none).mono
  · intro first w₁ h
    obtain ⟨rfl, rfl⟩ := h
    apply (ensures_query _ _).mono
    · intro _ w₂ h
      obtain ⟨rfl, -, -⟩ := h
      rfl
    · intro err w₂ h
      obtain ⟨rfl, hfails | ⟨-, hop⟩⟩ := h
      · refine ⟨rfl, _, le_rfl, ?_⟩
        rw [hfails]
        exact Option.some_ne_none err
      · cases hop
    · intro w₂ h
      exact ⟨_, h.2⟩
  · intro _ _ hfalse
    exact hfalse.elim
  · intro _ hfalse
    exact hfalse.elim

/-- Each interface holds as many handles as its name is in the list. -/
theorem length_liveHandles {objects : List ClsactFilter}
    (h : ∀ c ∈ objects, c.handle ≠ 0 ∧ c.parent = HANDLE_MIN_EGRESS ∧
      base.indexOf c.ifaceName = some c.ifaceIdx) (hook : Hook) :
    (liveHandles objects hook).length =
      if hook.parent = HANDLE_MIN_EGRESS then
        (objects.map ClsactFilter.ifaceName).countP fun name => base.indexOf name = some hook.link
      else 0 := by
  rw [liveHandles, List.length_map, ← List.countP_eq_length_filter, List.countP_map]
  obtain ⟨link, parent⟩ := hook
  split
  next hparent =>
    apply List.countP_congr
    intro c hc
    obtain ⟨hhandle, hc', hindex⟩ := h c hc
    have hparent' : parent = HANDLE_MIN_EGRESS := hparent
    simp [ClsactFilter.hook, hhandle, hc', hindex, hparent']
  next hparent =>
    rw [List.countP_eq_zero]
    intro c hc
    obtain ⟨-, hc', -⟩ := h c hc
    have hparent' : ¬HANDLE_MIN_EGRESS = parent := fun heq => hparent heq.symm
    simp [ClsactFilter.hook, hc', hparent']

/-- Closing every attachment, then the collection. -/
def closeAll (e : Env) (attachments : List Attachment) : Code Unit := do
  forEach (Attachment.close e) attachments
  collectionClose e

theorem ensures_closeAll {attachments : List Attachment} {w : State} (hlive : ¬Dies e)
    (hcalls : ¬FailsFrom e w.calls) (howned : Owned prog base w)
    (hholding : Holding attachments w) :
    Ensures (closeAll e attachments) w (fun _ w' => w'.host.filters = base.filters)
      (fun _ _ => False) (fun _ => False) := by
  have hdead : ∀ w', Abandoned e prog base w' → False := fun _ h => hlive h.2
  rw [closeAll, ensures_bind]
  have hclosing : Ensures (forEach (Attachment.close e) attachments) w
      (fun _ w' => Closing e prog base w (List.range w.proc.heap.length) w')
      (fun _ _ => FailsFrom e w.calls) (Abandoned e prog base) := by
    apply ensures_closeAttachments howned hholding
    intro ps p w' hclosing hp a hclose
    rw [hclose]
    apply (hclosing.close hp).mono
    · intro _ w'' h
      exact h
    · intro _ w'' h
      exact h.2
    · intro w'' h
      exact h
  apply hclosing.mono
  · intro _ w' h
    obtain ⟨hfilters, hclosed⟩ := h.filters_eq hcalls
    apply (ensures_collectionClose hclosed).mono
    · intro _ w'' hhost
      rw [hhost]
      exact hfilters
    · intro _ w'' hfails
      exact hcalls (hfails.2.mono h.calls)
    · intro w'' hdies
      exact hlive hdies
  · intro _ _ hfails
    exact hcalls hfails
  · intro w' habandoned
    exact hdead w' habandoned

/-- Each interface has gained an own filter for each time that it is named, under
handles that no other filter there has. -/
def GainsEach (prog : Program) (names : List String) (host : Host) (w : State) : Prop :=
  ∃ gained, Layered prog host w.host gained ∧ ∀ hook, (gained hook).length =
    if hook.parent = HANDLE_MIN_EGRESS then
      names.countP fun name => host.indexOf name = some hook.link
    else 0

/-- If no call fails after the loop over the names has ended, then an error leaves
no filter behind, and success adds one filter for each name, which closing removes
again. -/
theorem attachAll_all_or_nothing (names : List String) (host : Host) (hlive : ¬Dies e)
    (hcalls : ¬FailsFrom e (loopEnd e prog names (World.fresh host)).calls)
    {out : Outcome Err (List Attachment)} {w : State}
    (hrun : attachAll e prog names (World.fresh host) = (out, w)) :
    match out with
    | .returned attachments => GainsEach prog names host w ∧
      Ensures (closeAll e attachments) w (fun _ w' => w'.host.filters = host.filters)
        (fun _ _ => False) (fun _ => False)
    | .failed _ => w.host.filters = host.filters ∧
      Ensures (collectionClose e) w (fun _ w' => w'.host = w.host) (fun _ _ => False)
        (fun _ => False)
    | .crashed => False := by
  have howned : Owned prog (World.fresh host).host (World.fresh host) := owned_of_heap_nil rfl
  have hall := ensures_attachAll (e := e) names howned (holding_nil rfl rfl)
  unfold Ensures at hall
  rw [hrun] at hall
  rcases out with attachments | err | _
  · obtain ⟨objects, hall, hnames, hend⟩ := hall
    have hheap : w.proc.heap = objects := hall.heap
    refine ⟨⟨liveHandles w.proc.heap, hall.owned.layered, ?_⟩, ?_⟩
    · intro hook
      rw [hheap, ← hnames]
      exact length_liveHandles hall.objects hook
    · rw [← hend] at hcalls
      exact ensures_closeAll hlive hcalls hall.owned hall.holding
  · obtain ⟨objects, attachments, name, post, -, -, -, hclosing⟩ := hall
    obtain ⟨hfilters, hclosed⟩ := hclosing.filters_eq hcalls
    refine ⟨hfilters, (ensures_collectionClose hclosed).mono ?_ ?_ ?_⟩
    · intro _ w' hhost
      exact hhost
    · intro _ w' hfails
      exact hcalls (hfails.2.mono hclosing.calls)
    · intro w' hdies
      exact hlive hdies
  · exact hlive hall.2

section Example

def thrice : List String := ["eth0", "wg0", "eth0"]

/-- The last filter of the three is not added. -/
def lastAddFails : Env := ⟨fun n => if n = 15 then some (.errno 12) else none, fun _ => false, id⟩

theorem calls_loopEnd :
    (loopEnd lastAddFails loaded thrice (World.fresh bareHost)).calls = 16 := by
  decide +kernel

theorem attachAll_lastAddFails :
    (attachAll lastAddFails loaded thrice (World.fresh bareHost)).1.isFailed = true ∧
      (attachAll lastAddFails loaded thrice (World.fresh bareHost)).2.host.filters =
        bareHost.filters := by
  have hlive : ¬Dies lastAddFails := by
    intro hdies
    obtain ⟨n, hn⟩ := hdies
    cases hn
  have hcalls : ¬FailsFrom lastAddFails
      (loopEnd lastAddFails loaded thrice (World.fresh bareHost)).calls := by
    rw [calls_loopEnd]
    intro hfails
    obtain ⟨k, hk, hk'⟩ := hfails
    exact hk' (if_neg (by omega))
  have hfailed :
      (attachAll lastAddFails loaded thrice (World.fresh bareHost)).1.isFailed = true := by
    decide +kernel
  obtain ⟨err, hrun⟩ := exists_failed hfailed
  exact ⟨hfailed, (attachAll_all_or_nothing thrice bareHost hlive hcalls hrun).1⟩

end Example

end PacketLoss.AttachRollback
