import Mathlib.Data.List.DropRight
import PacketLoss.ValidConfig

/-!
internal/config/interfaces.go: the interfaces to attach to, either those of the
configuration or the ones that are found. What the functions ask the system is a
parameter. The result is a set of names in order, whatever the order and the
repetitions of what it is made from, and an error is about the first name that
cannot be used.
-/
namespace PacketLoss.Interfaces

open ZoneConfig Config ValidConfig

/-- `net.Interface`, with the two flags that are looked at. -/
structure Interface where
  name : String
  up : Bool
  loopback : Bool
deriving DecidableEq

/-- What the system says about its interfaces. Files are read as text, and an error
is known by its text. -/
structure Net where
  interfaceByName : String → Except String Interface
  interfaces : Except String (List Interface)
  nodup : ∀ ifaces, interfaces = .ok ifaces → (ifaces.map Interface.name).Nodup
  stat : String → Except String Unit
  readFile : String → Except String String

def arphrdEther : ℤ := 1

def defaultIgnorePatterns : List String :=
  ["lo", "docker0", "br-*", "veth*", "dummy*", "tun*", "tap*", "cilium*", "flannel*", "cni*",
    "kube*", "calico*"]

def hasSuffixStar (pattern : String) : Bool := pattern.toList.getLast? = some '*'

def trimSuffixStar (pattern : String) : List Char :=
  if hasSuffixStar pattern then pattern.toList.dropLast else pattern.toList

def ShouldIgnore (name : String) : List String → Bool
  | [] => false
  | pattern :: patterns =>
    if pattern = name then true
    else if hasSuffixStar pattern && (trimSuffixStar pattern).isPrefixOf name.toList then true
    else ShouldIgnore name patterns

/-- `unicode.IsSpace` -/
def isSpace (c : Char) : Bool :=
  c.toNat ∈ [9, 10, 11, 12, 13, 0x20, 0x85, 0xA0, 0x1680, 0x2028, 0x2029, 0x202f, 0x205f, 0x3000] ||
    (0x2000 ≤ c.toNat && c.toNat ≤ 0x200a)

/-- `strings.TrimSpace` -/
def trimSpace (s : List Char) : List Char := (s.dropWhile isSpace).rdropWhile isSpace

def digits (s : List Char) : Option ℕ :=
  if !s.isEmpty && s.all Char.isDigit then some (s.foldl (fun n c => 10 * n + (c.toNat - 48)) 0)
  else none

/-- `strconv.Atoi` -/
def atoi : List Char → Option ℤ
  | '-' :: s => (digits s).bind fun n => if n ≤ 2 ^ 63 then some (-n) else none
  | '+' :: s => (digits s).bind fun n => if n < 2 ^ 63 then some n else none
  | s => (digits s).bind fun n => if n < 2 ^ 63 then some n else none

/-- `filepath.Join("/sys/class/net", name, file)` for a name without a slash. -/
def sysClassNet (name file : String) : String := "/sys/class/net/" ++ name ++ "/" ++ file

variable (net : Net)

def isWireguard (name : String) : Bool :=
  match net.stat (sysClassNet name "wireguard") with
  | .ok () => true
  | .error _ => false

def isEthernet (name : String) : Bool :=
  match net.readFile (sysClassNet name "type") with
  | .error _ => false
  | .ok data =>
    match atoi (trimSpace data.toList) with
    | none => false
    | some typ => typ = arphrdEther

/-- The loop of `resolveInterfaceNames`. -/
def resolveNames (seen out : List String) : List String → Except FmtError (List String)
  | [] => .ok out
  | name :: names =>
    if name = "" then resolveNames seen out names
    else if name ∈ seen then resolveNames seen out names
    else
      match net.interfaceByName name with
      | .error err => .error ⟨"lookup %q: %w", [name, err]⟩
      | .ok iface =>
        if iface.up = false then .error ⟨"interface %q is not up", [name]⟩
        else resolveNames (name :: seen) (out ++ [name]) names

def resolveInterfaceNames (names : List String) : Except FmtError (List String) :=
  match resolveNames net [] [] names with
  | .error err => .error err
  | .ok out =>
    if out.length = 0 then .error ⟨"no transit interfaces configured", []⟩
    else .ok (sortStrings out)

/-- The loop of `DiscoverTransitInterfaces`. -/
def discoverNames (names : List String) : List Interface → List String
  | [] => names
  | iface :: ifaces =>
    if iface.loopback then discoverNames names ifaces
    else if iface.up = false then discoverNames names ifaces
    else if ShouldIgnore iface.name defaultIgnorePatterns then discoverNames names ifaces
    else if isWireguard net iface.name || isEthernet net iface.name then
      discoverNames (names ++ [iface.name]) ifaces
    else discoverNames names ifaces

def DiscoverTransitInterfaces : Except FmtError (List String) :=
  match net.interfaces with
  | .error err => .error ⟨"list interfaces: %w", [err]⟩
  | .ok ifaces =>
    let names := discoverNames net [] ifaces
    if names.length = 0 then
      .error ⟨"no transit interfaces found (looking for up wireguard or ethernet interfaces)", []⟩
    else .ok (sortStrings names)

/-- `configured` is the list of interfaces of the configuration. -/
def transitInterfaceNames (configured : List String) : Except FmtError (List String) :=
  if 0 < configured.length then resolveInterfaceNames net configured
  else DiscoverTransitInterfaces net

/-- A pattern with a star at its end stands for the names with that beginning. -/
def Matches (pattern name : String) : Prop :=
  pattern = name ∨ ∃ front, pattern.toList = front ++ ['*'] ∧ front <+: name.toList

theorem hasSuffixStar_iff (pattern : String) :
    hasSuffixStar pattern = true ↔ ∃ front, pattern.toList = front ++ ['*'] := by
  unfold hasSuffixStar
  rw [decide_eq_true_iff, List.getLast?_eq_some_iff]

theorem shouldIgnore_iff (name : String) (patterns : List String) :
    ShouldIgnore name patterns = true ↔ ∃ pattern ∈ patterns, Matches pattern name := by
  induction patterns with
  | nil => simp [ShouldIgnore]
  | cons pattern patterns ih =>
    have hstar : (hasSuffixStar pattern && (trimSuffixStar pattern).isPrefixOf name.toList) =
        true ↔ ∃ front, pattern.toList = front ++ ['*'] ∧ front <+: name.toList := by
      rw [Bool.and_eq_true, List.isPrefixOf_iff_prefix, hasSuffixStar_iff]
      constructor
      · rintro ⟨⟨front, hfront⟩, hprefix⟩
        have hstar := (hasSuffixStar_iff pattern).mpr ⟨front, hfront⟩
        rw [trimSuffixStar, if_pos hstar, hfront, List.dropLast_concat] at hprefix
        exact ⟨front, hfront, hprefix⟩
      · rintro ⟨front, hfront, hprefix⟩
        have hstar := (hasSuffixStar_iff pattern).mpr ⟨front, hfront⟩
        refine ⟨⟨front, hfront⟩, ?_⟩
        rw [trimSuffixStar, if_pos hstar, hfront, List.dropLast_concat]
        exact hprefix
    simp only [ShouldIgnore, List.mem_cons, exists_eq_or_imp]
    rw [← ih]
    unfold Matches
    rw [← hstar]
    by_cases hname : pattern = name
    · simp [hname]
    · rw [if_neg hname]
      split
      next h => simp [h]
      next h => simp [hname, h]

variable {net}

/-- The interface is found and it is up. -/
def Usable (net : Net) (name : String) : Prop :=
  ∃ iface, net.interfaceByName name = .ok iface ∧ iface.up = true

/-- Why a name cannot be used, as the error says it. -/
def Unusable (net : Net) (name : String) (err : FmtError) : Prop :=
  (∃ text, net.interfaceByName name = .error text ∧ err = ⟨"lookup %q: %w", [name, text]⟩) ∨
    ∃ iface, net.interfaceByName name = .ok iface ∧ iface.up = false ∧
      err = ⟨"interface %q is not up", [name]⟩

theorem Unusable.not_usable {name : String} {err : FmtError} (h : Unusable net name err) :
    ¬Usable net name := by
  rintro ⟨iface, hfound, hup⟩
  rcases h with ⟨text, herror, -⟩ | ⟨iface', hfound', hdown, -⟩
  · rw [hfound] at herror
    cases herror
  · rw [hfound, Except.ok.injEq] at hfound'
    rw [← hfound', hup] at hdown
    cases hdown

/-- What the loop makes of the names that are left, when it has taken `out`. -/
def Resolved (net : Net) (out names : List String) : Except FmtError (List String) → Prop
  | .ok out' => out'.Nodup ∧ (∀ name, name ∈ out' ↔ name ∈ out ∨ name ∈ names ∧ name ≠ "") ∧
      ∀ name ∈ names, name ≠ "" → name ∉ out → Usable net name
  | .error err => ∃ pre name post, names = pre ++ name :: post ∧ name ≠ "" ∧
      (∀ name' ∈ pre, name' ≠ "" → name' ∉ out → Usable net name') ∧ Unusable net name err

theorem Resolved.skip {out names : List String} {name : String} {r : Except FmtError (List String)}
    (h : Resolved net out names r) (hskipped : name = "" ∨ name ∈ out) :
    Resolved net out (name :: names) r := by
  have hhead : name ≠ "" → name ∉ out → Usable net name :=
    fun hne hnot => (hskipped.elim hne hnot).elim
  cases r with
  | ok out' =>
    obtain ⟨hnodup, hmem, husable⟩ := h
    refine ⟨hnodup, fun x => ?_, List.forall_mem_cons.mpr ⟨hhead, husable⟩⟩
    rw [hmem, List.mem_cons]
    constructor
    · rintro (hout | ⟨hx, hne⟩)
      · exact Or.inl hout
      · exact Or.inr ⟨Or.inr hx, hne⟩
    · rintro (hout | ⟨rfl | hx, hne⟩)
      · exact Or.inl hout
      · exact Or.inl (hskipped.resolve_left hne)
      · exact Or.inr ⟨hx, hne⟩
  | error err =>
    obtain ⟨pre, x, post, hsplit, hne, husable, hcause⟩ := h
    exact ⟨name :: pre, x, post, by rw [hsplit, List.cons_append], hne,
      List.forall_mem_cons.mpr ⟨hhead, husable⟩, hcause⟩

theorem Resolved.take {out names : List String} {name : String} {r : Except FmtError (List String)}
    (h : Resolved net (out ++ [name]) names r) (hne : name ≠ "") (husable : Usable net name) :
    Resolved net out (name :: names) r := by
  have hrest : ∀ x, x ∉ out → (x ∉ out ++ [name] → Usable net x) → Usable net x := by
    intro x hnot hx
    by_cases hname : x = name
    · rw [hname]
      exact husable
    · apply hx
      simp [hnot, hname]
  cases r with
  | ok out' =>
    obtain ⟨hnodup, hmem, hall⟩ := h
    refine ⟨hnodup, fun x => ?_, List.forall_mem_cons.mpr ⟨fun _ _ => husable,
      fun x hx hx' hnot => hrest x hnot (hall x hx hx')⟩⟩
    rw [hmem, List.mem_append, List.mem_singleton, List.mem_cons]
    constructor
    · rintro ((hout | rfl) | ⟨hx, hx'⟩)
      · exact Or.inl hout
      · exact Or.inr ⟨Or.inl rfl, hne⟩
      · exact Or.inr ⟨Or.inr hx, hx'⟩
    · rintro (hout | ⟨rfl | hx, hx'⟩)
      · exact Or.inl (Or.inl hout)
      · exact Or.inl (Or.inr rfl)
      · exact Or.inr ⟨hx, hx'⟩
  | error err =>
    obtain ⟨pre, x, post, hsplit, hx, hall, hcause⟩ := h
    exact ⟨name :: pre, x, post, by rw [hsplit, List.cons_append], hx,
      List.forall_mem_cons.mpr ⟨fun _ _ => husable,
        fun y hy hy' hnot => hrest y hnot (hall y hy hy')⟩, hcause⟩

theorem resolveNames_spec (names : List String) {seen out : List String}
    (hseen : ∀ name, name ∈ seen ↔ name ∈ out) (hnodup : out.Nodup) :
    Resolved net out names (resolveNames net seen out names) := by
  induction names generalizing seen out with
  | nil => exact ⟨hnodup, by simp, by simp⟩
  | cons name names ih =>
    rw [resolveNames]
    split
    next hempty => exact (ih hseen hnodup).skip (Or.inl hempty)
    next hne =>
      split
      next hmem => exact (ih hseen hnodup).skip (Or.inr ((hseen name).mp hmem))
      next hnot =>
        have hfresh : name ∉ out := fun hmem => hnot ((hseen name).mpr hmem)
        have hbad : ∀ err, Unusable net name err →
            Resolved net out (name :: names) (.error err) :=
          fun err hcause => ⟨[], name, names, rfl, hne, by simp, hcause⟩
        rcases hfound : net.interfaceByName name with text | iface
        · exact hbad _ (Or.inl ⟨text, hfound, rfl⟩)
        · by_cases hup : iface.up = false
          · simp only [if_pos hup]
            exact hbad _ (Or.inr ⟨iface, hfound, hup, rfl⟩)
          · simp only [if_neg hup]
            refine Resolved.take (ih ?_ ?_) hne ⟨iface, hfound, by simpa using hup⟩
            · intro x
              rw [List.mem_cons, List.mem_append, List.mem_singleton, hseen, or_comm]
            · rw [List.nodup_append_comm, List.singleton_append, List.nodup_cons]
              exact ⟨hfresh, hnodup⟩

/-- An interface that is found to be fit. -/
def Transit (net : Net) (name : String) : Prop :=
  ∃ ifaces, net.interfaces = .ok ifaces ∧ ∃ iface ∈ ifaces, iface.name = name ∧
    iface.loopback = false ∧ iface.up = true ∧
      (¬∃ pattern ∈ defaultIgnorePatterns, Matches pattern name) ∧
        (isWireguard net name = true ∨ isEthernet net name = true)

def isTransit (net : Net) (iface : Interface) : Bool :=
  !iface.loopback && iface.up && !ShouldIgnore iface.name defaultIgnorePatterns &&
    (isWireguard net iface.name || isEthernet net iface.name)

theorem discoverNames_eq (names : List String) (ifaces : List Interface) :
    discoverNames net names ifaces =
      names ++ (ifaces.filter (isTransit net)).map Interface.name := by
  induction ifaces generalizing names with
  | nil => simp [discoverNames]
  | cons iface ifaces ih =>
    rw [discoverNames, List.filter_cons]
    unfold isTransit at ih ⊢
    rcases hloop : iface.loopback with _ | _
    · rcases hup : iface.up with _ | _
      · simp [ih]
      · rcases hignore : ShouldIgnore iface.name defaultIgnorePatterns with _ | _
        · rcases htype : isWireguard net iface.name || isEthernet net iface.name with _ | _
          · simp [ih]
          · simp [ih]
        · simp [ih]
    · simp [ih]

theorem transit_iff {ifaces : List Interface} (hlisted : net.interfaces = .ok ifaces)
    (name : String) :
    Transit net name ↔ name ∈ (ifaces.filter (isTransit net)).map Interface.name := by
  unfold Transit
  simp only [hlisted, Except.ok.injEq, exists_eq_left', List.mem_map, List.mem_filter, isTransit,
    ← shouldIgnore_iff, Bool.and_eq_true, Bool.not_eq_true', Bool.or_eq_true, Bool.not_eq_true]
  constructor
  · rintro ⟨iface, hmem, rfl, hloop, hup, hignore, htype⟩
    exact ⟨iface, ⟨hmem, ⟨⟨hloop, hup⟩, hignore⟩, htype⟩, rfl⟩
  · rintro ⟨iface, ⟨hmem, ⟨⟨hloop, hup⟩, hignore⟩, htype⟩, rfl⟩
    exact ⟨iface, hmem, rfl, hloop, hup, hignore, htype⟩

/-- The names that are asked for, or else those that are found. -/
def Wanted (net : Net) (configured : List String) (name : String) : Prop :=
  if configured = [] then Transit net name else name ∈ configured ∧ name ≠ ""

/-- The result: the wanted names in order, each once, and all that were asked for are
usable. -/
structure Chosen (net : Net) (configured out : List String) : Prop where
  sorted : out.Pairwise (· < ·)
  nonempty : out ≠ []
  mem : ∀ name, name ∈ out ↔ Wanted net configured name
  usable : ∀ name ∈ configured, name ≠ "" → Usable net name

/-- What an error says: the first name that cannot be used, or that there is none. -/
def Complains (net : Net) (configured : List String) (err : FmtError) : Prop :=
  if configured = [] then
    (∃ text, net.interfaces = .error text ∧ err = ⟨"list interfaces: %w", [text]⟩) ∨
      (∀ name, ¬Transit net name) ∧
        err = ⟨"no transit interfaces found (looking for up wireguard or ethernet interfaces)",
          []⟩
  else
    (∃ pre name post, configured = pre ++ name :: post ∧ name ≠ "" ∧
      (∀ name' ∈ pre, name' ≠ "" → Usable net name') ∧ Unusable net name err) ∨
      (∀ name ∈ configured, name = "") ∧ err = ⟨"no transit interfaces configured", []⟩

/-- The problem that an error complains of rules out any choice. -/
theorem Complains.not_chosen {configured out : List String} {err : FmtError}
    (h : Complains net configured err) : ¬Chosen net configured out := by
  intro hchosen
  obtain ⟨name, hname⟩ := List.exists_mem_of_ne_nil out hchosen.nonempty
  have hwanted := (hchosen.mem name).mp hname
  unfold Complains at h
  unfold Wanted at hwanted
  split at h
  next hnone =>
    rw [if_pos hnone] at hwanted
    rcases h with ⟨text, herror, -⟩ | ⟨hno, -⟩
    · obtain ⟨ifaces, hlisted, -⟩ := hwanted
      rw [herror] at hlisted
      cases hlisted
    · exact hno name hwanted
  next hsome =>
    rw [if_neg hsome] at hwanted
    rcases h with ⟨pre, bad, post, hsplit, hne, -, hcause⟩ | ⟨hempty, -⟩
    · exact hcause.not_usable (hchosen.usable bad (by simp [hsplit]) hne)
    · exact hwanted.2 (hempty name hwanted.1)

/-- Sorting the wanted names makes the choice. -/
theorem chosen_sortStrings {configured names : List String} (hnodup : names.Nodup)
    (hlen : names.length ≠ 0) (hmem : ∀ name, name ∈ names ↔ Wanted net configured name)
    (husable : ∀ name ∈ configured, name ≠ "" → Usable net name) :
    Chosen net configured (sortStrings names) where
  sorted := by
    have hsorted : (sortStrings names).Pairwise (· ≤ ·) := List.pairwise_insertionSort _ _
    have hdistinct : (sortStrings names).Nodup :=
      (List.perm_insertionSort _ _).nodup_iff.mpr hnodup
    exact (hsorted.and hdistinct).imp fun hle => lt_of_le_of_ne hle.1 hle.2
  nonempty := by
    intro hnil
    have hperm := List.perm_insertionSort (· ≤ ·) names
    exact hlen (by rw [← hperm.length_eq, ← sortStrings, hnil, List.length_nil])
  mem := fun name => by rw [sortStrings, List.mem_insertionSort, hmem]
  usable := husable

/-- A result is a choice, and an error a complaint. -/
def Answers (net : Net) (configured : List String) : Except FmtError (List String) → Prop
  | .ok out => Chosen net configured out
  | .error err => Complains net configured err

theorem answers_discover : Answers net [] (DiscoverTransitInterfaces net) := by
  rw [DiscoverTransitInterfaces]
  rcases hlisted : net.interfaces with text | ifaces
  · exact Or.inl ⟨text, hlisted, rfl⟩
  · have hmem := transit_iff hlisted
    simp only [discoverNames_eq, List.nil_append]
    by_cases hlen : ((ifaces.filter (isTransit net)).map Interface.name).length = 0
    · rw [if_pos hlen]
      refine Or.inr ⟨fun name htransit => ?_, rfl⟩
      rw [hmem, List.length_eq_zero_iff.mp hlen] at htransit
      cases htransit
    · rw [if_neg hlen]
      apply chosen_sortStrings _ hlen
      · intro name
        rw [← hmem, Wanted, if_pos rfl]
      · simp
      · exact (net.nodup ifaces hlisted).sublist (List.filter_sublist.map _)

theorem answers_resolve {configured : List String} (hconf : configured ≠ []) :
    Answers net configured (resolveInterfaceNames net configured) := by
  rw [resolveInterfaceNames]
  have hspec : Resolved net [] configured (resolveNames net [] [] configured) :=
    resolveNames_spec configured (fun _ => Iff.rfl) List.nodup_nil
  rcases hrun : resolveNames net [] [] configured with err | out
  · rw [hrun] at hspec
    obtain ⟨pre, name, post, hsplit, hne, husable, hcause⟩ := hspec
    show Complains net configured err
    rw [Complains, if_neg hconf]
    exact Or.inl ⟨pre, name, post, hsplit, hne,
      fun name' hmem hne' => husable name' hmem hne' List.not_mem_nil, hcause⟩
  · rw [hrun] at hspec
    obtain ⟨hnodup, hmem, husable⟩ := hspec
    simp only [List.not_mem_nil, false_or] at hmem
    by_cases hlen : out.length = 0
    · simp only [if_pos hlen]
      show Complains net configured _
      rw [Complains, if_neg hconf]
      refine Or.inr ⟨fun name hname => ?_, rfl⟩
      by_contra hne
      have hout := (hmem name).mpr ⟨hname, hne⟩
      rw [List.length_eq_zero_iff.mp hlen] at hout
      cases hout
    · simp only [if_neg hlen]
      apply chosen_sortStrings hnodup hlen
      · intro name
        rw [hmem, Wanted, if_neg hconf]
      · exact fun name hname hne => husable name hname hne List.not_mem_nil

theorem answers_transit (net : Net) (configured : List String) :
    Answers net configured (transitInterfaceNames net configured) := by
  unfold transitInterfaceNames
  by_cases hconf : configured = []
  · rw [hconf]
    exact answers_discover
  · rw [if_pos (List.length_pos_iff.mpr hconf)]
    exact answers_resolve hconf

/-- The interfaces are what is asked for or found, in an order of their own; and an
error names the first problem. -/
theorem transit_interfaces_exact (net : Net) (configured : List String) :
    (∀ out, transitInterfaceNames net configured = .ok out ↔ Chosen net configured out) ∧
      ∀ err, transitInterfaceNames net configured = .error err →
        Complains net configured err := by
  have hcases := answers_transit net configured
  constructor
  · intro out
    rcases hrun : transitInterfaceNames net configured with err | out'
    · rw [hrun] at hcases
      constructor
      · intro hok
        cases hok
      · intro hchosen
        exact absurd hchosen hcases.not_chosen
    · rw [hrun] at hcases
      rw [Except.ok.injEq]
      constructor
      · rintro rfl
        exact hcases
      · intro hchosen
        apply List.Pairwise.eq_of_mem_iff hcases.sorted hchosen.sorted
        intro name
        rw [hcases.mem, hchosen.mem]
  · intro err hrun
    rw [hrun] at hcases
    exact hcases

end PacketLoss.Interfaces
