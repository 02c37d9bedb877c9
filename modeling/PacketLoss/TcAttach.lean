import Mathlib.Order.Nat
import PacketLoss.Netlink

/-!
Attaching the program to the egress hooks and detaching it again. A
`clsactFilter` is shared by the list of attachments and by the collection, so the
objects are kept in a heap and both sides hold pointers to them. What a function
can do to the host and to the process is said once, by its `ensures_` lemma.
-/
namespace PacketLoss.TcAttach

open CrashPrograms KeyedLists Prog Netlink

def filterHandleBase : ℕ := 0x1600

structure ClsactFilter where
  ifaceName : String
  ifaceIdx : ℕ
  handle : ℕ
  parent : ℕ

def ClsactFilter.hook (c : ClsactFilter) : Hook := ⟨c.ifaceIdx, c.parent⟩

/-- `links` are the pointers that the collection holds, `log` the errors that are
only logged. -/
structure Process where
  heap : List ClsactFilter
  links : List ℕ
  log : List Err

abbrev State := World Process
abbrev Code := Prog State Err

/-- A process that has done nothing yet. -/
def World.fresh (host : Host) : State := ⟨host, 0, ⟨[], [], []⟩⟩

/-- A loaded program; the kernel computes the tag from its instructions. -/
structure Program where
  tag : String

structure Attachment where
  link : Option (Code Unit)
  clsact : Option ℕ
  ifaceIdx : ℕ

def new (c : ClsactFilter) : Code ℕ := do
  let w ← read
  modify fun w => { w with proc := { w.proc with heap := w.proc.heap ++ [c] } }
  pure w.proc.heap.length

def setHandle (p : ℕ) (c : ClsactFilter) (handle : ℕ) : Code Unit :=
  modify fun w =>
    { w with proc := { w.proc with heap := w.proc.heap.set p { c with handle := handle } } }

def addLink (p : ℕ) : Code Unit :=
  modify fun w => { w with proc := { w.proc with links := w.proc.links ++ [p] } }

def logError (err : Err) : Code Unit :=
  modify fun w => { w with proc := { w.proc with log := w.proc.log ++ [err] } }

variable (e : Env)

/-- A pointer to no object is a nil pointer. -/
def ClsactFilter.close (p : ℕ) : Code Unit := do
  let w ← read
  match w.proc.heap[p]? with
  | none => pure ()
  | some c =>
    if c.handle = 0 then pure ()
    else do
      let link ← mapError (.wrap "lookup interface index %d: %w" [.number c.ifaceIdx])
        (linkByIndex e c.ifaceIdx)
      let filters ← mapError (.wrap "list filters: %w" []) (filterList e ⟨link, c.parent⟩)
      match filters.find? fun filter => filter.handle = c.handle with
      | some filter => do
        mapError (.wrap "delete filter: %w" []) (filterDel e ⟨link, c.parent⟩ filter)
        setHandle p c 0
      | none =>
        fail (.errorf "filter handle %#x not found on %q" [.number c.handle, .text c.ifaceName])

def Attachment.close (a : Attachment) : Code Unit :=
  match a.link with
  | some link => link
  | none =>
    match a.clsact with
    | some p => ClsactFilter.close e p
    | none => pure ()

def verifyClsAct (link : ℕ) : Code Unit := do
  let qdiscs ← mapError (.wrap "list qdiscs: %w" []) (qdiscList e link)
  match qdiscs.find? fun q => q.parent = HANDLE_CLSACT with
  | some q =>
    if q.type = "clsact" then pure ()
    else fail (.errorf "interface already has non-clsact qdisc on clsact parent: %s" [.text q.type])
  | none => pure ()

def ensureClsAct (link : ℕ) : Code Unit := do
  match ← attempt (qdiscAdd e link ⟨HANDLE_CLSACT, "clsact"⟩) with
  | .ok () => pure ()
  | .error err =>
    if err.is EEXIST then verifyClsAct e link
    else fail (.wrap "add clsact qdisc: %w" [] err)

def handleRange : List ℕ := List.range' filterHandleBase (0xffff - filterHandleBase)

def nextFilterHandle (link parent : ℕ) : Code ℕ := do
  let filters ← filterList e ⟨link, parent⟩
  match handleRange.find? fun handle => handle ∉ filters.map Filter.handle with
  | some handle => pure handle
  | none => fail (.errorf "no free tc filter handles" [])

variable (prog : Program)

/-- The filter that is added under a handle, as the host lists it. -/
def ownFilter (handle : ℕ) : Filter where
  priority := 1
  protocol := ETH_P_ALL
  handle := handle
  bpf := some ⟨"path_egress", prog.tag⟩

def attachClsActEgress (ifaceName : String) (ifaceIdx : ℕ) : Code ℕ := do
  let nl ← mapError (.wrap "netlink lookup: %w" []) (linkByIndex e ifaceIdx)
  ensureClsAct e nl
  let handle ← nextFilterHandle e nl HANDLE_MIN_EGRESS
  mapError (.wrap "add bpf filter: %w" [])
    (filterAdd e ⟨ifaceIdx, HANDLE_MIN_EGRESS⟩ (ownFilter prog handle))
  new ⟨ifaceName, ifaceIdx, handle, HANDLE_MIN_EGRESS⟩

def attachEgress (ifaceName : String) : Code Attachment := do
  let index ← mapError (.wrap "interface %q: %w" [.text ifaceName]) (interfaceByName e ifaceName)
  let cls ← mapError (.wrap "attach clsact egress on %q: %w" [.text ifaceName])
    (attachClsActEgress e prog ifaceName index)
  addLink cls
  pure ⟨none, some cls, index⟩

/-- The loop over the names, up to the first error. -/
def attachEach : List String → List Attachment → Code (List Attachment × Option Err)
  | [], attachments => pure (attachments, none)
  | name :: names, attachments => do
    match ← attempt (attachEgress e prog name) with
    | .ok a => attachEach names (attachments ++ [a])
    | .error err => pure (attachments, some err)

def attachAll (names : List String) : Code (List Attachment) := do
  match ← attachEach e prog names [] with
  | (attachments, none) => pure attachments
  | (attachments, some err) => do
    forEach (fun existing => do
      let _ ← attempt (existing.close e)
      pure ()) attachments
    fail err

/-- Closing the maps and the program, after which nothing of them is used. -/
def objsClose : Code Unit := query e fun _ => .ok ()

def closeLinks : List ℕ → Option Err → Code (Option Err)
  | [], first => pure first
  | p :: links, first => do
    match ← attempt (ClsactFilter.close e p) with
    | .ok () => closeLinks links first
    | .error err => closeLinks links (first.or (some err))

/-- Closing the collection reports the first error. -/
def collectionClose : Code Unit := do
  let w ← read
  let first ← closeLinks e w.proc.links none
  match ← attempt (objsClose e), first with
  | _, some err => fail err
  | .error err, none => fail err
  | .ok (), none => pure ()

/-- The kernel cuts names off, so that only a prefix can be compared. -/
def isStaleEgressProg (name : String) : Bool :=
  "path_egress".toList.isPrefixOf name.toList || "transit_egress".toList.isPrefixOf name.toList

def programTag : Code String := do
  let tag ← mapError (.wrap "program info: %w" []) (query e fun _ => .ok prog.tag)
  if tag = "" then
    fail (.errorf "kernel did not report a program tag (requires Linux >= 4.13)" [])
  else pure tag

/-- One round of the loop over the listed filters. -/
def cleanupFilter (ifaceName ownTag : String) (hook : Hook) (f : Filter) : Code Unit :=
  match f.bpf with
  | none => pure ()
  | some bf =>
    if !isStaleEgressProg bf.name || bf.tag ≠ ownTag then pure ()
    else mapError (.wrap "delete stale filter on %q: %w" [.text ifaceName]) (filterDel e hook f)

def cleanupEgress (ifaceName : String) : Code Unit := do
  let ownTag ← mapError (.wrap "resolve own program tag: %w" []) (programTag e prog)
  let index ← mapError (.wrap "interface %q: %w" [.text ifaceName]) (interfaceByName e ifaceName)
  let link ← mapError (.wrap "netlink lookup %q: %w" [.text ifaceName]) (linkByIndex e index)
  let filters ← mapError (.wrap "list filters on %q: %w" [.text ifaceName])
    (filterList e ⟨link, HANDLE_MIN_EGRESS⟩)
  forEach (cleanupFilter e ifaceName ownTag ⟨link, HANDLE_MIN_EGRESS⟩) filters

/-- An error of a cleanup is only logged. -/
def cleanupAll (names : List String) : Code Unit :=
  forEach (fun name => do
    match ← attempt (cleanupEgress e prog name) with
    | .ok () => pure ()
    | .error err => logError (.wrap "cleanup stale filters on %q: %v" [.text name] err)) names

/-- What the main program does about filters when it starts. -/
def start (names : List String) : Code (List Attachment) := do
  cleanupAll e prog names
  attachAll e prog names

/-- The qdisc at the parent of `clsact`, if there is one, is a `clsact` qdisc. -/
def ClsactReady (host : Host) (link : ℕ) : Prop :=
  ∀ q, (host.qdiscs link).find? (fun q => q.parent = HANDLE_CLSACT) = some q → q.type = "clsact"

/-- Only qdiscs may have been added, and only `clsact` ones. -/
structure Kept (w w' : State) : Prop where
  proc : w'.proc = w.proc
  filters : w'.host.filters = w.host.filters
  interfaces : w'.host.interfaces = w.host.interfaces
  ready : ∀ link, ClsactReady w.host link → ClsactReady w'.host link
  calls : w.calls ≤ w'.calls

theorem Kept.refl (w : State) : Kept w w := ⟨rfl, rfl, rfl, fun _ h => h, le_rfl⟩

theorem Kept.trans {w w' w'' : State} (h : Kept w w') (h' : Kept w' w'') : Kept w w'' where
  proc := h'.proc.trans h.proc
  filters := h'.filters.trans h.filters
  interfaces := h'.interfaces.trans h.interfaces
  ready := fun link hready => h'.ready link (h.ready link hready)
  calls := h.calls.trans h'.calls

theorem kept_after (w : State) : Kept w (w.after w.host) :=
  ⟨rfl, rfl, rfl, fun _ h => h, Nat.le_succ _⟩

variable {e} {prog}

/-- Some call from number `n` on fails. -/
def FailsFrom (e : Env) (n : ℕ) : Prop := ∃ k, n ≤ k ∧ e.fails k ≠ none

def Dies (e : Env) : Prop := ∃ n, e.crashes n = true

theorem FailsFrom.mono {n n' : ℕ} (h : FailsFrom e n') (hle : n ≤ n') : FailsFrom e n := by
  obtain ⟨k, hk, hfails⟩ := h
  exact ⟨k, hle.trans hk, hfails⟩

/-- An error because a call fails or for the given cause. -/
def Quits (e : Env) (cause : Prop) (w : State) (_ : Err) (w' : State) : Prop :=
  Kept w w' ∧ (FailsFrom e w.calls ∨ cause)

def Stops (e : Env) (w w' : State) : Prop := Kept w w' ∧ Dies e

theorem Quits.of_kept {cause cause' : Prop} {w w' w'' : State} {err : Err}
    (h : Quits e cause w' err w'') (hkept : Kept w w') (hcause : cause → cause') :
    Quits e cause' w err w'' :=
  ⟨hkept.trans h.1, h.2.imp (fun hfails => hfails.mono hkept.calls) hcause⟩

theorem Quits.imp {cause cause' : Prop} {w w' : State} {err : Err} (h : Quits e cause w err w')
    (hcause : cause → cause') : Quits e cause' w err w' := h.of_kept (Kept.refl w) hcause

theorem Stops.of_kept {w w' w'' : State} (h : Stops e w' w'') (hkept : Kept w w') :
    Stops e w w'' := ⟨hkept.trans h.1, h.2⟩

theorem quits_of_fails {cause : Prop} {w : State} {err : Err}
    (hfails : e.fails w.calls = some err) (err' : Err) :
    Quits e cause w err' (w.after w.host) := by
  refine ⟨kept_after w, Or.inl ⟨w.calls, le_rfl, ?_⟩⟩
  rw [hfails]
  exact Option.some_ne_none err

theorem ensures_query_kept {α : Type} (f : Host → Except Err α) (w : State) :
    Ensures (query e f) w (fun a w' => Kept w w' ∧ f w.host = .ok a)
      (Quits e (∃ err, f w.host = .error err) w) (Stops e w) := by
  apply (ensures_query f w).mono
  · intro a w' h
    obtain ⟨rfl, -, hf⟩ := h
    exact ⟨kept_after w, hf⟩
  · intro err w' h
    obtain ⟨rfl, hfails | ⟨-, hf⟩⟩ := h
    · exact quits_of_fails hfails err
    · exact ⟨kept_after w, Or.inr ⟨err, hf⟩⟩
  · intro w' h
    obtain ⟨rfl, hcrash⟩ := h
    exact ⟨kept_after w, w.calls, hcrash⟩

/-- A part that only adds qdiscs hands its errors and its death to the whole. -/
theorem ensures_bind_of_kept {α β : Type} {m : Code α} {f : α → Code β} {w₀ w : State}
    {P : α → State → Prop} {Q : β → State → Prop} {E : Err → State → Prop} {C : State → Prop}
    {cause : Prop} (hkept : Kept w₀ w)
    (hm : Ensures m w (fun a w' => Kept w w' ∧ P a w') (Quits e cause w) (Stops e w))
    (hquits : ∀ err w', Quits e cause w₀ err w' → E err w')
    (hstops : ∀ w', Stops e w₀ w' → C w')
    (hf : ∀ a w', Kept w w' → P a w' → Ensures (f a) w' Q E C) :
    Ensures (m >>= f) w Q E C := by
  rw [ensures_bind]
  apply hm.mono
  · intro a w' h
    exact hf a w' h.1 h.2
  · intro err w' h
    exact hquits err w' (h.of_kept hkept id)
  · intro w' h
    exact hstops w' (h.of_kept hkept)

theorem ensures_interfaceByName (name : String) (w : State) :
    Ensures (interfaceByName e name) w
      (fun index w' => Kept w w' ∧ w.host.indexOf name = some index)
      (Quits e (w.host.indexOf name = none) w) (Stops e w) := by
  apply (ensures_query_kept _ w).mono
  · intro index w' h
    obtain ⟨hkept, hf⟩ := h
    rcases hindex : w.host.indexOf name with _ | index'
    · simp [hindex] at hf
    · simp only [hindex, Except.ok.injEq] at hf
      exact ⟨hkept, by rw [hf]⟩
  · intro err w' h
    apply h.imp
    intro hcause
    obtain ⟨err', hf⟩ := hcause
    rcases hindex : w.host.indexOf name with _ | index'
    · rfl
    · simp [hindex] at hf
  · intro w' h
    exact h

theorem ensures_linkByIndex (index : ℕ) (w : State) :
    Ensures (linkByIndex e index) w
      (fun link w' => Kept w w' ∧ link = index ∧ index ∈ w.host.interfaces.map Prod.snd)
      (Quits e (index ∉ w.host.interfaces.map Prod.snd) w) (Stops e w) := by
  apply (ensures_query_kept _ w).mono
  · intro link w' h
    obtain ⟨hkept, hf⟩ := h
    by_cases hindex : index ∈ w.host.interfaces.map Prod.snd
    · rw [if_pos hindex, Except.ok.injEq] at hf
      exact ⟨hkept, hf.symm, hindex⟩
    · rw [if_neg hindex] at hf
      cases hf
  · intro err w' h
    apply h.imp
    intro hcause
    obtain ⟨err', hf⟩ := hcause
    intro hindex
    rw [if_pos hindex] at hf
    cases hf
  · intro w' h
    exact h

theorem ensures_verifyClsAct (link : ℕ) (w : State) :
    Ensures (verifyClsAct e link) w (fun _ w' => Kept w w') (Quits e (¬ClsactReady w.host link) w)
      (Stops e w) := by
  rw [verifyClsAct, ensures_bind, ensures_mapError]
  apply (ensures_query_kept _ w).mono
  · intro qdiscs w' h
    obtain ⟨hkept, hlist⟩ := h
    obtain rfl : w.host.qdiscs link = qdiscs := by simpa using hlist
    rcases hfind : (w.host.qdiscs link).find? fun q => q.parent = HANDLE_CLSACT with _ | q
    · simp only [hfind]
      exact hkept
    · simp only [hfind]
      by_cases htype : q.type = "clsact"
      · simp only [if_pos htype]
        exact hkept
      · simp only [if_neg htype]
        exact ⟨hkept, Or.inr fun hready => htype (hready q hfind)⟩
  · intro err w' h
    apply h.imp
    simp
  · intro w' h
    exact h

theorem kept_addQdisc {w : State} {link : ℕ} {q : Qdisc} (htype : q.type = "clsact") :
    Kept w (w.after (w.host.addQdisc link q)) where
  proc := rfl
  filters := rfl
  interfaces := rfl
  ready := by
    intro link' hready q' hfind
    by_cases hlink : link' = link
    · rw [hlink, World.host_after, Host.qdiscs_addQdisc_self, List.find?_append] at hfind
      rcases Option.or_eq_some_iff.mp hfind with hold | ⟨-, hnew⟩
      · rw [hlink] at hready
        exact hready q' hold
      · have hq := List.mem_of_find?_eq_some hnew
        rw [List.mem_singleton.mp hq]
        exact htype
    · rw [World.host_after, Host.qdiscs_addQdisc_of_ne q hlink] at hfind
      exact hready q' hfind
  calls := Nat.le_succ _

theorem ensures_qdiscAdd (link : ℕ) (w : State) :
    Ensures (qdiscAdd e link ⟨HANDLE_CLSACT, "clsact"⟩) w (fun _ w' => Kept w w')
      (fun err w' => Quits e (err = .errno EEXIST) w err w') (Stops e w) := by
  apply (ensures_update _ w).mono
  · intro _ w' h
    obtain ⟨host, rfl, -, hop⟩ := h
    split at hop
    · cases hop
    · obtain rfl := Except.ok.inj hop
      exact kept_addQdisc rfl
  · intro err w' h
    obtain ⟨rfl, hfails | ⟨-, hop⟩⟩ := h
    · exact quits_of_fails hfails err
    · split at hop
      · exact ⟨kept_after w, Or.inr (Except.error.inj hop).symm⟩
      · cases hop
  · intro w' h
    obtain ⟨rfl | ⟨host, rfl, hop⟩, hcrash⟩ := h
    · exact ⟨kept_after w, w.calls, hcrash⟩
    · split at hop
      · cases hop
      · obtain rfl := Except.ok.inj hop
        exact ⟨kept_addQdisc rfl, w.calls, hcrash⟩

theorem ensures_ensureClsAct (link : ℕ) (w : State) :
    Ensures (ensureClsAct e link) w (fun _ w' => Kept w w') (Quits e (¬ClsactReady w.host link) w)
      (Stops e w) := by
  rw [ensureClsAct, ensures_bind, ensures_attempt]
  apply (ensures_qdiscAdd link w).mono
  · intro _ w' hkept
    exact hkept
  · intro err w' h
    obtain ⟨hkept, hcause⟩ := h
    by_cases his : err.is EEXIST = true
    · simp only [if_pos his]
      apply (ensures_verifyClsAct link w').mono
      · intro _ w'' hkept'
        exact hkept.trans hkept'
      · intro err' w'' hquits
        exact hquits.of_kept hkept fun hnot hready => hnot (hkept.ready link hready)
      · intro w'' hstops
        exact hstops.of_kept hkept
    · simp only [if_neg his]
      refine ⟨hkept, Or.inl ?_⟩
      rcases hcause with hfails | rfl
      · exact hfails
      · simp [Err.is] at his
  · intro w' h
    exact h

/-- No handle that the program may take is free. -/
def HandlesUsed (host : Host) (hook : Hook) : Prop :=
  ∀ handle ∈ handleRange, ∃ f ∈ (host.filters hook).entries, f.handle = handle

theorem ensures_nextFilterHandle (link parent : ℕ) (w : State) :
    Ensures (nextFilterHandle e link parent) w
      (fun handle w' => Kept w w' ∧ handle ∈ handleRange ∧
        ∀ f ∈ (w.host.filters ⟨link, parent⟩).entries, f.handle ≠ handle)
      (Quits e (HandlesUsed w.host ⟨link, parent⟩) w) (Stops e w) := by
  rw [nextFilterHandle, ensures_bind]
  apply (ensures_query_kept _ w).mono
  · intro filters w' h
    obtain ⟨hkept, hlist⟩ := h
    obtain rfl : (w.host.filters ⟨link, parent⟩).entries = filters := by simpa using hlist
    rcases hfind : handleRange.find? fun handle =>
        handle ∉ (w.host.filters ⟨link, parent⟩).entries.map Filter.handle with _ | handle
    · refine ⟨hkept, Or.inr ?_⟩
      intro handle hmem
      have hused := List.find?_eq_none.mp hfind handle hmem
      simpa using hused
    · refine ⟨hkept, ?_, ?_⟩
      · exact List.mem_of_find?_eq_some hfind
      · intro f hf heq
        have hfree := List.find?_some hfind
        simp only [decide_eq_true_eq] at hfree
        exact hfree (List.mem_map.mpr ⟨f, hf, heq⟩)
  · intro err w' h
    apply h.imp
    simp
  · intro w' h
    exact h

/-- The filter under the handle was added to a list without that handle. -/
structure Gained (prog : Program) (hook : Hook) (handle : ℕ) (w w' : State) : Prop where
  range : handle ∈ handleRange
  free : ∀ f ∈ (w.host.filters hook).entries, f.handle ≠ handle
  added : ∃ n, (w.host.filters hook).add n (ownFilter prog handle) = some (w'.host.filters hook)
  others : ∀ hook', hook' ≠ hook → w'.host.filters hook' = w.host.filters hook'
  interfaces : w'.host.interfaces = w.host.interfaces
  ready : ∀ link, ClsactReady w.host link → ClsactReady w'.host link
  calls : w.calls ≤ w'.calls

theorem Gained.handle_ne_zero {hook : Hook} {handle : ℕ} {w w' : State}
    (h : Gained prog hook handle w w') : handle ≠ 0 := by
  have hlow := (List.mem_range'_1.mp h.range).1
  have hbase : filterHandleBase = 0x1600 := rfl
  omega

theorem Gained.of_kept {hook : Hook} {handle : ℕ} {w w' w'' : State}
    (h : Gained prog hook handle w' w'') (hkept : Kept w w') : Gained prog hook handle w w'' where
  range := h.range
  free := hkept.filters ▸ h.free
  added := hkept.filters ▸ h.added
  others := fun hook' hne => by rw [h.others hook' hne, hkept.filters]
  interfaces := h.interfaces.trans hkept.interfaces
  ready := fun link hready => h.ready link (hkept.ready link hready)
  calls := hkept.calls.trans h.calls

/-- What the process writes in its own memory is not part of it. -/
theorem Gained.of_host_eq {hook : Hook} {handle : ℕ} {w w' w'' : State}
    (h : Gained prog hook handle w w') (hhost : w''.host = w'.host)
    (hcalls : w''.calls = w'.calls) : Gained prog hook handle w w'' where
  range := h.range
  free := h.free
  added := hhost ▸ h.added
  others := hhost ▸ h.others
  interfaces := hhost ▸ h.interfaces
  ready := hhost ▸ h.ready
  calls := hcalls ▸ h.calls

theorem gained_setFilters {hook : Hook} {handle : ℕ} {w : State} {t : FilterTable} {n : ℕ}
    (hrange : handle ∈ handleRange)
    (hfree : ∀ f ∈ (w.host.filters hook).entries, f.handle ≠ handle)
    (hadd : (w.host.filters hook).add n (ownFilter prog handle) = some t) :
    Gained prog hook handle w (w.after (w.host.setFilters hook t)) where
  range := hrange
  free := hfree
  added := ⟨n, by rw [hadd, World.host_after, Host.filters_setFilters_self]⟩
  others := fun hook' hne => Host.filters_setFilters_of_ne t hne
  interfaces := rfl
  ready := fun _ hready => hready
  calls := Nat.le_succ _

/-- Adding under a free handle does not meet a filter with the same key. -/
theorem ensures_filterAdd (hook : Hook) {handle : ℕ} (w : State)
    (hrange : handle ∈ handleRange)
    (hfree : ∀ f ∈ (w.host.filters hook).entries, f.handle ≠ handle) :
    Ensures (filterAdd e hook (ownFilter prog handle)) w
      (fun _ w' => Gained prog hook handle w w' ∧ w'.proc = w.proc) (Quits e False w)
      (fun w' => (Kept w w' ∨ Gained prog hook handle w w' ∧ w'.proc = w.proc) ∧ Dies e) := by
  apply (ensures_update _ w).mono
  · intro _ w' h
    obtain ⟨host, rfl, -, hop⟩ := h
    rcases hadd : (w.host.filters hook).add (e.place w.calls) (ownFilter prog handle) with _ | t
    · simp [hadd] at hop
    · simp only [hadd, Except.ok.injEq] at hop
      rw [← hop]
      exact ⟨gained_setFilters hrange hfree hadd, rfl⟩
  · intro err w' h
    obtain ⟨rfl, hfails | ⟨-, hop⟩⟩ := h
    · exact quits_of_fails hfails err
    · have hkey : (ownFilter prog handle).key ∉ (w.host.filters hook).entries.map Filter.key := by
        intro hmem
        obtain ⟨f, hf, heq⟩ := List.mem_map.mp hmem
        exact hfree f hf (congrArg (fun k => k.2.2) heq)
      obtain ⟨t, hadd⟩ := KeyedList.exists_add (n := e.place w.calls) hkey
      simp [hadd] at hop
  · intro w' h
    obtain ⟨rfl | ⟨host, rfl, hop⟩, hcrash⟩ := h
    · exact ⟨Or.inl (kept_after w), w.calls, hcrash⟩
    · rcases hadd : (w.host.filters hook).add (e.place w.calls) (ownFilter prog handle) with _ | t
      · simp [hadd] at hop
      · simp only [hadd, Except.ok.injEq] at hop
        rw [← hop]
        exact ⟨Or.inr ⟨gained_setFilters hrange hfree hadd, rfl⟩, w.calls, hcrash⟩

theorem ensures_new (c : ClsactFilter) (w : State) {E : Err → State → Prop} {C : State → Prop} :
    Ensures (new c) w
      (fun p w' => p = w.proc.heap.length ∧ w' =
        { w with proc := { w.proc with heap := w.proc.heap ++ [c] } }) E C := by
  simp [new]

/-- Why the filter is not added when no call fails. -/
def Refused (host : Host) (index : ℕ) : Prop :=
  index ∉ host.interfaces.map Prod.snd ∨ ¬ClsactReady host index ∨
    HandlesUsed host ⟨index, HANDLE_MIN_EGRESS⟩

theorem HandlesUsed.of_kept {w w' : State} {hook : Hook} (h : HandlesUsed w'.host hook)
    (hkept : Kept w w') : HandlesUsed w.host hook := by
  unfold HandlesUsed at h ⊢
  rwa [hkept.filters] at h

theorem Refused.of_kept {w w' : State} {index : ℕ} (h : Refused w'.host index)
    (hkept : Kept w w') : Refused w.host index := by
  rcases h with hnot | hnot | hused
  · rw [hkept.interfaces] at hnot
    exact Or.inl hnot
  · exact Or.inr (Or.inl fun hready => hnot (hkept.ready index hready))
  · exact Or.inr (Or.inr (hused.of_kept hkept))

/-- A filter of this process under a handle that was free before. -/
def Attached (prog : Program) (name : String) (index : ℕ) (w w' : State) : Prop :=
  ∃ handle, Gained prog ⟨index, HANDLE_MIN_EGRESS⟩ handle w w' ∧
    w'.proc.heap = w.proc.heap ++ [⟨name, index, handle, HANDLE_MIN_EGRESS⟩]

/-- With all handles used there is none for another filter. -/
theorem Gained.not_handlesUsed {hook : Hook} {handle : ℕ} {w w' : State}
    (h : Gained prog hook handle w w') : ¬HandlesUsed w.host hook := by
  intro hused
  obtain ⟨f, hf, hhandle⟩ := hused handle h.range
  exact h.free f hf hhandle

/-- Dying, the process leaves at most one filter more. -/
def DiesAttaching (e : Env) (prog : Program) (index : ℕ) (w w' : State) : Prop :=
  (Kept w w' ∨ ∃ handle, Gained prog ⟨index, HANDLE_MIN_EGRESS⟩ handle w w' ∧
    w'.proc = w.proc) ∧ Dies e

theorem DiesAttaching.of_kept {w w' w'' : State} {index : ℕ}
    (h : DiesAttaching e prog index w' w'') (hkept : Kept w w') :
    DiesAttaching e prog index w w'' := by
  obtain ⟨hkept' | ⟨handle, hgained, hproc⟩, hdies⟩ := h
  · exact ⟨Or.inl (hkept.trans hkept'), hdies⟩
  · exact ⟨Or.inr ⟨handle, hgained.of_kept hkept, hproc.trans hkept.proc⟩, hdies⟩

theorem Stops.diesAttaching {w w' : State} (h : Stops e w w') (index : ℕ) :
    DiesAttaching e prog index w w' := ⟨Or.inl h.1, h.2⟩

theorem ensures_attachClsActEgress (name : String) (index : ℕ) (w : State) :
    Ensures (attachClsActEgress e prog name index) w
      (fun p w' => Attached prog name index w w' ∧ p = w.proc.heap.length ∧
        w'.proc.links = w.proc.links ∧ w'.proc.log = w.proc.log ∧
        index ∈ w.host.interfaces.map Prod.snd)
      (Quits e (Refused w.host index) w) (DiesAttaching e prog index w) := by
  have hdies : ∀ w', Stops e w w' → DiesAttaching e prog index w w' :=
    fun _ h => h.diesAttaching index
  rw [attachClsActEgress]
  refine ensures_bind_of_kept (Kept.refl w)
    ((ensures_mapError _).mpr (ensures_linkByIndex index w)) (fun _ _ h => h.imp Or.inl) hdies ?_
  intro link w₁ hkept₁ h
  obtain ⟨rfl, hindex⟩ := h
  have hclsact : Ensures (ensureClsAct e link) w₁ (fun _ w' => Kept w₁ w' ∧ True) _ _ :=
    (ensures_ensureClsAct link w₁).mono (fun _ _ h => ⟨h, trivial⟩) (fun _ _ h => h) fun _ h => h
  refine ensures_bind_of_kept hkept₁ hclsact (fun _ _ h => h.imp ?_) hdies ?_
  · intro hnot
    exact Or.inr (Or.inl fun hready => hnot (hkept₁.ready link hready))
  · intro _ w₂ hkept _
    have hkept₂ := hkept₁.trans hkept
    refine ensures_bind_of_kept hkept₂ (ensures_nextFilterHandle link HANDLE_MIN_EGRESS w₂)
      (fun _ _ h => h.imp ?_) hdies ?_
    · intro hused
      exact Or.inr (Or.inr (hused.of_kept hkept₂))
    · intro handle w₃ hkept h
      obtain ⟨hrange, hfree⟩ := h
      have hkept₃ := hkept₂.trans hkept
      rw [← hkept.filters] at hfree
      rw [ensures_bind, ensures_mapError]
      apply (ensures_filterAdd ⟨link, HANDLE_MIN_EGRESS⟩ w₃ hrange hfree).mono
      · intro _ w₄ h
        obtain ⟨hgained, hproc⟩ := h
        have hproc₄ := hproc.trans hkept₃.proc
        apply (ensures_new _ w₄).mono
        · intro p w₅ h
          obtain ⟨rfl, rfl⟩ := h
          rw [hproc₄]
          exact ⟨⟨handle, (hgained.of_kept hkept₃).of_host_eq rfl rfl, rfl⟩, rfl, rfl, rfl, hindex⟩
        · intro _ _ h
          exact h
        · intro _ h
          exact h
      · intro err w₄ h
        exact h.of_kept hkept₃ False.elim
      · intro w₄ h
        have hdies' : DiesAttaching e prog link w₃ w₄ :=
          ⟨h.1.imp_right fun hgained => ⟨handle, hgained⟩, h.2⟩
        exact hdies'.of_kept hkept₃

theorem ensures_attachEgress (name : String) (w : State) :
    Ensures (attachEgress e prog name) w
      (fun a w' => ∃ index, w.host.indexOf name = some index ∧ Attached prog name index w w' ∧
        a = ⟨none, some w.proc.heap.length, index⟩ ∧
        w'.proc.links = w.proc.links ++ [w.proc.heap.length] ∧ w'.proc.log = w.proc.log)
      (Quits e (w.host.indexOf name = none ∨
        ∃ index, w.host.indexOf name = some index ∧ Refused w.host index) w)
      (fun w' => ∃ index, DiesAttaching e prog index w w') := by
  rw [attachEgress]
  refine ensures_bind_of_kept (Kept.refl w)
    ((ensures_mapError _).mpr (ensures_interfaceByName name w)) (fun _ _ h => h.imp Or.inl)
    (fun _ h => ⟨0, h.diesAttaching 0⟩) ?_
  intro index w₁ hkept₁ hindex
  rw [ensures_bind, ensures_mapError]
  apply (ensures_attachClsActEgress name index w₁).mono
  · intro p w₂ h
    obtain ⟨⟨handle, hgained, hheap⟩, rfl, hlinks, hlog, -⟩ := h
    rw [hkept₁.proc] at hheap hlinks hlog
    refine ⟨index, hindex, ⟨handle, (hgained.of_kept hkept₁).of_host_eq rfl rfl, hheap⟩, ?_, ?_,
      hlog⟩
    · rw [hkept₁.proc]
    · rw [hkept₁.proc, ← hlinks]
  · intro err w₂ h
    apply h.of_kept hkept₁
    intro hrefused
    exact Or.inr ⟨index, hindex, hrefused.of_kept hkept₁⟩
  · intro w₂ h
    exact ⟨index, h.of_kept hkept₁⟩

/-- The object has been closed, or there is none. -/
def ClosedAt (w : State) (p : ℕ) : Prop := ∀ c, w.proc.heap[p]? = some c → c.handle = 0

theorem ensures_close_of_closed {p : ℕ} {w : State} (h : ClosedAt w p) {E : Err → State → Prop}
    {C : State → Prop} : Ensures (ClsactFilter.close e p) w (fun _ w' => w' = w) E C := by
  rcases hc : w.proc.heap[p]? with _ | c
  · simp only [ClsactFilter.close, ensures_bind, ensures_read, hc, ensures_pure]
  · simp only [ClsactFilter.close, ensures_bind, ensures_read, hc, if_pos (h c hc), ensures_pure]

/-- The host without the first filter that has the handle of the object. -/
def detached (host : Host) (c : ClsactFilter) (f : Filter) : Host :=
  host.setFilters c.hook ((host.filters c.hook).del f)

def firstWithHandle (host : Host) (c : ClsactFilter) : Option Filter :=
  (host.filters c.hook).entries.find? fun filter => filter.handle = c.handle

theorem ensures_filterDel (hook : Hook) {f : Filter} (w : State)
    (hf : f ∈ (w.host.filters hook).entries) :
    Ensures (filterDel e hook f) w
      (fun _ w' => w' = w.after (w.host.setFilters hook ((w.host.filters hook).del f)) ∧
        e.fails w.calls = none)
      (fun _ w' => w' = w.after w.host ∧ e.fails w.calls ≠ none)
      (fun w' => (w' = w.after w.host ∨
        w' = w.after (w.host.setFilters hook ((w.host.filters hook).del f))) ∧ Dies e) := by
  apply (ensures_update _ w).mono
  · intro _ w' h
    obtain ⟨host, rfl, hnone, hop⟩ := h
    rw [if_pos hf, Except.ok.injEq] at hop
    rw [hop]
    exact ⟨rfl, hnone⟩
  · intro err w' h
    obtain ⟨rfl, hfails | ⟨-, hop⟩⟩ := h
    · rw [hfails]
      exact ⟨rfl, Option.some_ne_none err⟩
    · rw [if_pos hf] at hop
      cases hop
  · intro w' h
    obtain ⟨rfl | ⟨host, rfl, hop⟩, hcrash⟩ := h
    · exact ⟨Or.inl rfl, w.calls, hcrash⟩
    · rw [if_pos hf, Except.ok.injEq] at hop
      rw [hop]
      exact ⟨Or.inr rfl, w.calls, hcrash⟩

/-- Closing an object that holds a handle makes three calls, and only the last of
them changes the host. -/
theorem ensures_close {p : ℕ} {c : ClsactFilter} {w : State} (hc : w.proc.heap[p]? = some c)
    (hhandle : c.handle ≠ 0) (hknown : c.ifaceIdx ∈ w.host.interfaces.map Prod.snd) :
    Ensures (ClsactFilter.close e p) w
      (fun _ w' => w.calls ≤ w'.calls ∧ (∀ k < 3, e.fails (w.calls + k) = none) ∧
        ∃ f, firstWithHandle w.host c = some f ∧ w'.host = detached w.host c f ∧
          w'.proc = { w.proc with heap := w.proc.heap.set p { c with handle := 0 } })
      (fun _ w' => w.calls ≤ w'.calls ∧ w'.host = w.host ∧ w'.proc = w.proc ∧
        ((∃ k < 3, e.fails (w.calls + k) ≠ none) ∨ firstWithHandle w.host c = none))
      (fun w' => w'.proc = w.proc ∧ (w'.host = w.host ∨
        ∃ f, firstWithHandle w.host c = some f ∧ w'.host = detached w.host c f) ∧ Dies e) := by
  simp only [ClsactFilter.close, ensures_bind, ensures_read, hc, if_neg hhandle, ensures_mapError]
  apply (ensures_query _ w).mono
  · intro link w₁ h
    obtain ⟨rfl, hnone₀, hlink⟩ := h
    rw [if_pos hknown, Except.ok.injEq] at hlink
    rw [← hlink]
    apply (ensures_query _ _).mono
    · intro filters w₂ h
      obtain ⟨rfl, hnone₁, hlist⟩ := h
      rw [← Except.ok.inj hlist]
      change Ensures (match firstWithHandle w.host c with | some _ => _ | none => _) _ _ _ _
      rcases hfind : firstWithHandle w.host c with _ | f
      · exact ⟨Nat.le_add_right _ 2, rfl, rfl, Or.inr rfl⟩
      · simp only [ensures_bind, ensures_mapError]
        have hmem : f ∈ (w.host.filters c.hook).entries := List.mem_of_find?_eq_some hfind
        apply (ensures_filterDel c.hook ((w.after w.host).after w.host) hmem).mono
        · intro _ w₃ h
          obtain ⟨rfl, hnone₂⟩ := h
          refine ⟨Nat.le_add_right _ 3, ?_, f, rfl, rfl, rfl⟩
          intro k hk
          rcases k with _ | _ | _ | k
          · exact hnone₀
          · exact hnone₁
          · exact hnone₂
          · omega
        · intro err w₃ h
          obtain ⟨rfl, hfails⟩ := h
          exact ⟨Nat.le_add_right _ 3, rfl, rfl, Or.inl ⟨2, by decide, hfails⟩⟩
        · intro w₃ h
          obtain ⟨rfl | rfl, hdies⟩ := h
          · exact ⟨rfl, Or.inl rfl, hdies⟩
          · exact ⟨rfl, Or.inr ⟨f, rfl, rfl⟩, hdies⟩
    · intro err w₂ h
      obtain ⟨rfl, hfails | ⟨-, hlist⟩⟩ := h
      · refine ⟨Nat.le_add_right _ 2, rfl, rfl, Or.inl ⟨1, by decide, ?_⟩⟩
        rw [World.after] at hfails
        rw [hfails]
        exact Option.some_ne_none err
      · cases hlist
    · intro w₂ h
      obtain ⟨rfl, hcrash⟩ := h
      exact ⟨rfl, Or.inl rfl, _, hcrash⟩
  · intro err w₁ h
    obtain ⟨rfl, hfails | ⟨-, hlink⟩⟩ := h
    · refine ⟨Nat.le_add_right _ 1, rfl, rfl, Or.inl ⟨0, by decide, ?_⟩⟩
      rw [Nat.add_zero, hfails]
      exact Option.some_ne_none err
    · rw [if_pos hknown] at hlink
      cases hlink
  · intro w₁ h
    obtain ⟨rfl, hcrash⟩ := h
    exact ⟨rfl, Or.inl rfl, _, hcrash⟩

section Example

/-- No call fails, and a filter is listed first when it is added. -/
def quiet : Env := ⟨fun _ => none, fun _ => false, fun _ => 0⟩

def bareHost : Host where
  interfaces := [("eth0", 2), ("wg0", 5)]
  nodup := by decide
  qdiscs := fun _ => []
  filters := fun _ => ⟨[], List.nodup_nil⟩

def loaded : Program := ⟨"a04f5eef06a7f555"⟩

theorem not_dies_quiet : ¬Dies quiet := by
  intro hdies
  obtain ⟨n, hn⟩ := hdies
  cases hn

end Example

end PacketLoss.TcAttach
