import PacketLoss.Interfaces
import PacketLoss.Restarts

/-!
From the configuration to the hooks. A start that reports no error leaves one own
filter on each interface that is selected, and does not touch any other list, neither
to attach nor to clean up.
-/
namespace PacketLoss.Selection

open CrashPrograms KeyedLists Prog Netlink TcAttach AttachRollback Restarts Interfaces

variable {e : Env} {prog : Program}

/-- The hook is the egress hook of one of the names. -/
def EgressOf (host : Host) (names : List String) (hook : Hook) : Prop :=
  hook.parent = HANDLE_MIN_EGRESS ∧ ∃ name ∈ names, host.indexOf name = some hook.link

/-- A cleanup deletes from one list only. -/
theorem ensures_cleanupEgress_hook (name : String) (w : State) :
    Ensures (cleanupEgress e prog name) w
      (fun _ w' => w'.proc = w.proc ∧ w'.host.interfaces = w.host.interfaces ∧
        ∀ hook, ¬EgressOf w.host [name] hook → w'.host.filters hook = w.host.filters hook)
      (fun _ _ => True) (fun _ => True) := by
  have hstops : ∀ w', Stops e w w' → True := fun _ _ => trivial
  rw [cleanupEgress]
  refine ensures_bind_of_kept (Kept.refl w) ((ensures_mapError _).mpr (ensures_programTag w))
    (fun _ _ _ => trivial) hstops ?_
  intro tag w₁ hkept₁ htag
  obtain rfl : tag = prog.tag := htag
  refine ensures_bind_of_kept hkept₁ ((ensures_mapError _).mpr (ensures_interfaceByName name w₁))
    (fun _ _ _ => trivial) hstops ?_
  intro index w₂ hkept hindex
  have hkept₂ := hkept₁.trans hkept
  rw [indexOf_congr hkept₁.interfaces] at hindex
  refine ensures_bind_of_kept hkept₂ ((ensures_mapError _).mpr (ensures_linkByIndex index w₂))
    (fun _ _ _ => trivial) hstops ?_
  intro link w₃ hkept h
  obtain ⟨rfl, -⟩ := h
  have hkept₃ := hkept₂.trans hkept
  refine ensures_bind_of_kept hkept₃ ((ensures_mapError _).mpr (ensures_query_kept _ w₃))
    (fun _ _ _ => trivial) hstops ?_
  intro filters w₄ hkept hop
  have hkept₄ := hkept₃.trans hkept
  obtain rfl := Except.ok.inj hop
  rw [← hkept.filters]
  apply (ensures_cleanupLoop name _ w₄).mono
  · intro _ w₅ hcleaning
    refine ⟨hcleaning.proc.trans hkept₄.proc, hcleaning.interfaces.trans hkept₄.interfaces, ?_⟩
    intro hook hnot
    have hne : hook ≠ ⟨link, HANDLE_MIN_EGRESS⟩ := by
      rintro rfl
      exact hnot ⟨rfl, name, List.mem_singleton_self name, hindex⟩
    rw [hcleaning.others hook hne, hkept₄.filters]
  · intro _ _ _
    exact trivial
  · intro _ _
    exact trivial

/-- If no error is logged, the cleanup has deleted from the lists of the names only. -/
def CleanedOnly (names : List String) (w w' : State) : Prop :=
  w'.proc.log = [] → w'.host.interfaces = w.host.interfaces ∧
    ∀ hook, ¬EgressOf w.host names hook → w'.host.filters hook = w.host.filters hook

theorem ensures_cleanupAll_only (names : List String) (w : State) :
    Ensures (cleanupAll e prog names) w (fun _ w' => CleanedOnly names w w')
      (fun _ _ => True) (fun _ => True) := by
  apply ensures_forEach (I := fun _ w' => CleanedOnly names w w')
  · exact fun _ => ⟨rfl, fun _ _ => rfl⟩
  · intro pre name post w' hsplit hpre
    rw [ensures_bind, ensures_attempt]
    apply (ensures_cleanupEgress_hook name w').mono
    · intro _ w'' h hlog
      obtain ⟨hproc, hinterfaces, hfilters⟩ := h
      rw [hproc] at hlog
      obtain ⟨hinterfaces', hfilters'⟩ := hpre hlog
      refine ⟨hinterfaces.trans hinterfaces', fun hook hnot => ?_⟩
      rw [hfilters hook, hfilters' hook hnot]
      rintro ⟨hparent, name', hname', hindex⟩
      rw [List.mem_singleton.mp hname', indexOf_congr hinterfaces'] at hindex
      exact hnot ⟨hparent, name, by simp [hsplit], hindex⟩
    · intro err w'' _ hlog
      simp at hlog
    · intro _ _
      exact trivial

/-- A start with no logged error adds to the lists of the names only. -/
theorem ensures_start_hooks (names : List String) (host : Host) :
    Ensures (start e prog names) (World.fresh host)
      (fun _ w' => w'.proc.log = [] →
        ∀ hook, ¬EgressOf host names hook → w'.host.filters hook = host.filters hook)
      (fun _ _ => True) (fun _ => True) := by
  rw [start, ensures_bind]
  apply ((ensures_cleanupAll names (World.fresh host)).and
    (ensures_cleanupAll_only names (World.fresh host))).mono
  · intro _ w₁ hboth
    obtain ⟨hcleaned, honly⟩ := hboth
    have hspared := hcleaned.spared
    have howned : Owned prog w₁.host w₁ := owned_of_heap_nil hspared.heap
    apply (ensures_attachAll names howned (holding_nil hspared.heap hspared.links)).mono
    · intro attachments w' h hlog hook hnot
      obtain ⟨objects, hall, hnames, -⟩ := h
      rw [hall.log] at hlog
      have hbefore : w₁.host.filters hook = host.filters hook := (honly hlog).2 hook hnot
      rw [← hbefore]
      have hheap : w'.proc.heap = objects := by
        rw [hall.heap, hspared.heap]
        exact List.nil_append objects
      have hnil : liveHandles w'.proc.heap hook = [] := by
        rw [← List.length_eq_zero_iff, hheap, length_liveHandles hall.objects, hnames]
        split
        next hparent =>
          rw [List.countP_eq_zero]
          intro name hname hindex
          rw [indexOf_congr hspared.interfaces] at hindex
          exact hnot ⟨hparent, name, hname, of_decide_eq_true hindex⟩
        next => rfl
      have hlayer := hall.owned.layered hook
      rw [hnil] at hlayer
      exact KeyedList.ext hlayer.eq_of_nil
    · intro _ _ _
      exact trivial
    · intro _ _
      exact trivial
  · intro _ _ hfalse
    exact hfalse.1.elim
  · intro _ _
    exact trivial

/-- The selected interfaces have one own filter each, and all else is as it was. -/
structure AttachedExactly (prog : Program) (net : Net) (configured : List String)
    (host host' : Host) : Prop where
  selected : ∀ name, Wanted net configured name → ∃ index, host'.indexOf name = some index ∧
    ((host'.filters ⟨index, HANDLE_MIN_EGRESS⟩).entries.filter (isOwn prog)).length = 1
  others : ∀ hook, (hook.parent = HANDLE_MIN_EGRESS →
      ∀ name, Wanted net configured name → host.indexOf name ≠ some hook.link) →
    host'.filters hook = host.filters hook

theorem attached_to_selected {net : Net} {configured : List String} {host : Host} {st : Start}
    (hnames : transitInterfaceNames net configured = .ok st.names)
    (hsucceeds : Succeeds prog host st) :
    AttachedExactly prog net configured host (afterStart prog host st) := by
  have hanswers := answers_transit net configured
  rw [hnames] at hanswers
  have hchosen : Chosen net configured st.names := hanswers
  constructor
  · intro name hwanted
    exact (afterStart_spec host st).2.1 hsucceeds name ((hchosen.mem name).mpr hwanted)
  · intro hook hnone
    have hnot : ¬EgressOf host st.names hook := by
      rintro ⟨hparent, name, hname, hindex⟩
      exact hnone hparent name ((hchosen.mem name).mp hname) hindex
    have hstart : Ensures (start st.env prog st.names) (World.fresh host) _ _ _ :=
      ensures_start_hooks st.names host
    unfold Ensures at hstart
    unfold Succeeds at hsucceeds
    unfold afterStart
    unfold startOn at hsucceeds ⊢
    rcases hrun : start st.env prog st.names (World.fresh host) with ⟨_ | _ | _, w'⟩
    · rw [hrun] at hstart hsucceeds
      exact hstart hsucceeds.2 hook hnot
    · rw [hrun] at hsucceeds
      exact absurd hsucceeds.1 Bool.false_ne_true
    · rw [hrun] at hsucceeds
      exact absurd hsucceeds.1 Bool.false_ne_true

section Example

def sampleInterfaces : List Interface :=
  [⟨"lo", true, true⟩, ⟨"wg0", true, false⟩, ⟨"docker0", true, false⟩, ⟨"eth0", true, false⟩]

/-- A host with a loopback, an Ethernet and a WireGuard interface and a bridge of Docker. -/
def sampleNet : Net where
  interfaceByName := fun name =>
    match sampleInterfaces.find? fun iface => iface.name = name with
    | some iface => .ok iface
    | none => .error "route ip+net: no such network interface"
  interfaces := .ok sampleInterfaces
  nodup := fun ifaces h => by
    rw [← Except.ok.inj h]
    decide
  stat := fun path =>
    if path = "/sys/class/net/wg0/wireguard" then .ok () else .error "no such file or directory"
  readFile := fun path =>
    if path = "/sys/class/net/wg0/type" then .ok "65534\n" else .ok "1\n"

theorem transitInterfaceNames_sampleNet :
    transitInterfaceNames sampleNet [] = .ok ["eth0", "wg0"] := by
  decide +kernel

def sampleStart : Start := ⟨quiet, ["eth0", "wg0"], by decide⟩

theorem sampleNet_attached :
    AttachedExactly loaded sampleNet [] bareHost (afterStart loaded bareHost sampleStart) := by
  apply attached_to_selected transitInterfaceNames_sampleNet
  have hreturned : (startOn loaded bareHost sampleStart).1.isReturned = true := by
    decide +kernel
  have hlog : (startOn loaded bareHost sampleStart).2.proc.log.length = 0 := by
    decide +kernel
  exact ⟨hreturned, List.length_eq_zero_iff.mp hlog⟩

end Example

end PacketLoss.Selection
