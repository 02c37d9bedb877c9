import PacketLoss.ValidConfig

/-!
`Load` of internal/config: a file is read, parsed over the defaults, filled in and
validated. Reading and parsing are parameters. `Validate` ranges over the map of zones,
so the order decides which of several faults is named, but not whether there is one.
-/
namespace PacketLoss.LoadedConfig

open Cidr ZoneConfig Config ValidConfig

/-- What `yaml.Unmarshal` writes into. -/
def initial : Config where
  sourceZone := ""
  listen := ":9435"
  pollInterval := second
  instantWindow := 10 * second
  zones := GoMap.empty
  emaHalfLife := 5 * 60 * second
  zoneIDs := fun _ => none

def load {Data : Type} (readFile : Except String Data)
    (unmarshal : Data → Config → Except String Config) (range names : ∀ c : Config, c.zones.Range) :
    Except FmtError Config :=
  match readFile with
  | .error err => .error ⟨"read config: %w", [err]⟩
  | .ok data =>
    match unmarshal data initial with
    | .error err => .error ⟨"parse config: %w", [err]⟩
    | .ok cfg => validate (applyDefaults cfg) (range _) (names _)

/-- What is wrong with the zones of a configuration, and the error that says so. -/
inductive Fault (c : Config) : FmtError → Prop
  | noSource (h : c.sourceZone = "") : Fault c ⟨"source_zone is required", []⟩
  | noZones (h : c.zones.entries = []) : Fault c ⟨"zones map is required", []⟩
  | unknownSource (h : ∀ e ∈ c.zones.entries, e.1 ≠ c.sourceZone) :
      Fault c ⟨"source_zone %q must exist in zones", [c.sourceZone]⟩
  | noSubnets {name : String} (h : (name, []) ∈ c.zones.entries) :
      Fault c ⟨"zone %q: at least one subnet required", [name]⟩
  | badSubnet {name s err : String} {subnets : List String}
      (he : (name, subnets) ∈ c.zones.entries) (hs : s ∈ subnets) (h : parseCIDR s = .error err) :
      Fault c ⟨"zone %q: invalid subnet %q: %w", [name, s, err]⟩
  | noRemote (h : ∀ e ∈ c.zones.entries, e.1 = c.sourceZone) :
      Fault c ⟨"at least one remote zone (other than source_zone) is required", []⟩
  | tooMany (h : 255 < c.zones.entries.length) :
      Fault c ⟨"too many zones: %d (max 255)", [toString c.zones.entries.length]⟩

theorem fault_of_checkSubnets {name : String} {subnets : List String} {err : FmtError}
    (h : checkSubnets name subnets = .error err) :
    ∃ s ∈ subnets, ∃ text, parseCIDR s = .error text ∧
      err = ⟨"zone %q: invalid subnet %q: %w", [name, s, text]⟩ := by
  induction subnets with
  | nil => cases h
  | cons s rest ih =>
    rw [checkSubnets] at h
    cases hs : parseCIDR s with
    | error text =>
      simp only [hs, Except.error.injEq] at h
      exact ⟨s, List.mem_cons_self, text, hs, h.symm⟩
    | ok n =>
      simp only [hs] at h
      obtain ⟨t, ht, hbad⟩ := ih h
      exact ⟨t, List.mem_cons_of_mem _ ht, hbad⟩

theorem fault_of_checkZones {c : Config} {sourceZone : String} {count : ℕ}
    {entries : List (String × List String)} {err : FmtError}
    (hsub : ∀ e ∈ entries, e ∈ c.zones.entries)
    (h : checkZones sourceZone count entries = .error err) : Fault c err := by
  induction entries generalizing count with
  | nil => cases h
  | cons e rest ih =>
    obtain ⟨name, subnets⟩ := e
    have hmem := hsub _ List.mem_cons_self
    rw [checkZones] at h
    split at h
    · rename_i hlength
      obtain rfl := Except.error.inj h
      rw [List.length_eq_zero_iff.mp hlength] at hmem
      exact Fault.noSubnets hmem
    · cases hcheck : checkSubnets name subnets with
      | error err' =>
        simp only [hcheck] at h
        obtain ⟨s, hs, text, hbad, rfl⟩ := fault_of_checkSubnets hcheck
        obtain rfl := Except.error.inj h
        exact Fault.badSubnet hmem hs hbad
      | ok u =>
        simp only [hcheck] at h
        exact ih (fun e he => hsub e (List.mem_cons_of_mem _ he)) h

theorem fault_of_assignZoneIDs {c : Config} {names : c.zones.Range} {err : FmtError}
    (h : assignZoneIDs (applyDefaults c) names = .error err) : Fault c err := by
  have hlength : (sortStrings (names.order.map Prod.fst)).length = c.zones.entries.length := by
    rw [sortStrings, List.length_insertionSort, List.length_map, names.perm.length_eq]
  unfold assignZoneIDs at h
  simp only [hlength] at h
  split at h
  · rename_i hmany
    obtain rfl := Except.error.inj h
    exact Fault.tooMany hmany
  · cases h

/-- The defaults pass their own checks. -/
theorem applyDefaults_pos (c : Config) :
    0 < (applyDefaults c).pollInterval ∧ 0 < (applyDefaults c).instantWindow ∧
      0 < (applyDefaults c).emaHalfLife ∧ (applyDefaults c).listen ≠ "" := by
  refine ⟨?_, ?_, ?_, ?_⟩
  · simp only [applyDefaults, second]
    split <;> omega
  · simp only [applyDefaults, second]
    split <;> omega
  · simp only [applyDefaults, second]
    split <;> omega
  · simp only [applyDefaults]
    split
    · decide
    · assumption

/-- With the defaults filled in, only the zones are ever at fault. -/
theorem fault_of_validate {c : Config} {range names : c.zones.Range} {err : FmtError}
    (h : validate (applyDefaults c) range names = .error err) : Fault c err := by
  obtain ⟨hpoll, hwindow, -, -⟩ := applyDefaults_pos c
  unfold validate at h
  split at h
  · rename_i hsource
    obtain rfl := Except.error.inj h
    exact Fault.noSource hsource
  split at h
  · rename_i hzones
    obtain rfl := Except.error.inj h
    exact Fault.noZones (List.length_eq_zero_iff.mp hzones)
  split at h
  · rename_i hget
    obtain rfl := Except.error.inj h
    refine Fault.unknownSource fun e he hname => ?_
    have hsome := (c.zones.get_eq_some_iff e.1 e.2).mpr he
    rw [hname] at hsome
    exact Option.some_ne_none _ (hsome.symm.trans hget)
  cases hzones : checkZones (applyDefaults c).sourceZone 0 range.order with
  | error err' =>
    simp only [hzones] at h
    obtain rfl := Except.error.inj h
    exact fault_of_checkZones (fun e he => (range.mem_iff e).mp he) hzones
  | ok remote =>
    simp only [hzones] at h
    split at h
    · rename_i hremote
      obtain rfl := Except.error.inj h
      refine Fault.noRemote fun e he => ?_
      obtain ⟨-, htotal⟩ := checkZones_ok hzones
      rw [Nat.zero_add, hremote] at htotal
      by_contra hne
      have hnone := List.filter_eq_nil_iff.mp (List.length_eq_zero_iff.mp htotal.symm) e
        ((range.mem_iff e).mpr he)
      simp [applyDefaults, hne] at hnone
    · cases hids : assignZoneIDs (applyDefaults c) names with
      | error err' =>
        simp only [hids] at h
        obtain rfl := Except.error.inj h
        exact fault_of_assignZoneIDs hids
      | ok assigned =>
        -- The checks of the durations come last and are those that the defaults pass.
        obtain ⟨heq, -, -⟩ := assignZoneIDs_ok hids
        have hassigned : assigned.pollInterval = (applyDefaults c).pollInterval ∧
            assigned.instantWindow = (applyDefaults c).instantWindow := by
          rw [heq]
          exact ⟨rfl, rfl⟩
        simp only [hids, hassigned, if_neg (not_le.mpr hpoll), if_neg (not_lt.mpr hwindow.le)] at h
        cases h

/-- An accepted configuration has no fault. -/
theorem not_fault {c c' : Config} {range names : c.zones.Range}
    (h : validate (applyDefaults c) range names = .ok c') (err : FmtError) : ¬Fault c err := by
  obtain ⟨hvalid, heq⟩ := validate_ok h
  have hzones : c'.zones = c.zones := by rw [heq]; rfl
  have hsource : c'.sourceZone = c.sourceZone := by rw [heq]; rfl
  obtain ⟨subnets, hmem⟩ := hvalid.source
  obtain ⟨e, he, hne⟩ := hvalid.remote
  rw [hsource] at hmem hne
  rw [hzones] at hmem he
  intro hfault
  cases hfault with
  | noSource hnone =>
    unfold validate at h
    rw [if_pos (show (applyDefaults c).sourceZone = "" from hnone)] at h
    cases h
  | noZones hnone =>
    rw [hnone] at hmem
    cases hmem
  | unknownSource hunknown => exact hunknown _ hmem rfl
  | noSubnets hempty => exact hvalid.nonempty _ (hzones ▸ hempty) rfl
  | badSubnet hin hs hbad =>
    obtain ⟨n, hn⟩ := hvalid.parses _ (hzones ▸ hin) _ hs
    rw [hbad] at hn
    cases hn
  | noRemote hall => exact hne (hall e he)
  | tooMany hmany =>
    have hfew := hvalid.few
    rw [hzones] at hfew
    omega

section Load

variable {Data : Type} (readFile : Except String Data)
  (unmarshal : Data → Config → Except String Config)

/-- Why there is no configuration. -/
inductive Refused : FmtError → Prop
  | unread {err : String} (h : readFile = .error err) : Refused ⟨"read config: %w", [err]⟩
  | unparsed {data : Data} {err : String} (hread : readFile = .ok data)
      (h : unmarshal data initial = .error err) : Refused ⟨"parse config: %w", [err]⟩
  | faulty {data : Data} {cfg : Config} {err : FmtError} (hread : readFile = .ok data)
      (hparse : unmarshal data initial = .ok cfg) (h : Fault cfg err) : Refused err

/-- A configuration that the exporter can start from. -/
structure Complete (c : Config) : Prop where
  valid : Valid c
  instantWindow : 0 < c.instantWindow
  emaHalfLife : 0 < c.emaHalfLife
  listen : c.listen ≠ ""

theorem complete_of_validate {c c' : Config} {range names : c.zones.Range}
    (h : validate (applyDefaults c) range names = .ok c') : Complete c' := by
  obtain ⟨-, hwindow, hhalf, hlisten⟩ := applyDefaults_pos c
  obtain ⟨hvalid, heq⟩ := validate_ok h
  rw [heq] at hvalid ⊢
  exact ⟨hvalid, hwindow, hhalf, hlisten⟩

variable {readFile unmarshal}

variable (readFile unmarshal) in
/-- How it ends: at the file, at the text, or with what `Validate` says. -/
theorem load_cases (range names : ∀ c : Config, c.zones.Range) :
    (∃ text, readFile = .error text ∧
      load readFile unmarshal range names = .error ⟨"read config: %w", [text]⟩) ∨
    (∃ data text, readFile = .ok data ∧ unmarshal data initial = .error text ∧
      load readFile unmarshal range names = .error ⟨"parse config: %w", [text]⟩) ∨
    ∃ data cfg, readFile = .ok data ∧ unmarshal data initial = .ok cfg ∧
      load readFile unmarshal range names =
        validate (applyDefaults cfg) (range _) (names _) := by
  unfold load
  cases readFile with
  | error text => exact Or.inl ⟨text, rfl, rfl⟩
  | ok data =>
    refine Or.inr ?_
    simp only
    cases hparse : unmarshal data initial with
    | error text => exact Or.inl ⟨data, text, rfl, hparse, rfl⟩
    | ok cfg => exact Or.inr ⟨data, cfg, rfl, hparse, rfl⟩

theorem refused_of_load {range names : ∀ c : Config, c.zones.Range} {err : FmtError}
    (h : load readFile unmarshal range names = .error err) : Refused readFile unmarshal err := by
  obtain ⟨text, hread, hload⟩ | ⟨data, text, hread, hparse, hload⟩ |
    ⟨data, cfg, hread, hparse, hload⟩ := load_cases readFile unmarshal range names
  · obtain rfl := Except.error.inj (h.symm.trans hload)
    exact Refused.unread hread
  · obtain rfl := Except.error.inj (h.symm.trans hload)
    exact Refused.unparsed hread hparse
  · exact Refused.faulty hread hparse (fault_of_validate (hload.symm.trans h))

theorem load_ok {range names : ∀ c : Config, c.zones.Range} {c' : Config}
    (h : load readFile unmarshal range names = .ok c') :
    ∃ data cfg, readFile = .ok data ∧ unmarshal data initial = .ok cfg ∧
      validate (applyDefaults cfg) (range _) (names _) = .ok c' := by
  obtain ⟨text, -, hload⟩ | ⟨data, text, -, -, hload⟩ | ⟨data, cfg, hread, hparse, hload⟩ :=
    load_cases readFile unmarshal range names
  · cases h.symm.trans hload
  · cases h.symm.trans hload
  · exact ⟨data, cfg, hread, hparse, hload.symm.trans h⟩

theorem not_refused_of_load {range names : ∀ c : Config, c.zones.Range} {c' : Config}
    (h : load readFile unmarshal range names = .ok c') (err : FmtError) :
    ¬Refused readFile unmarshal err := by
  obtain ⟨data, cfg, hread, hparse, hvalidate⟩ := load_ok h
  intro hrefused
  cases hrefused with
  | unread hunread =>
    rw [hread] at hunread
    cases hunread
  | unparsed hread' hunparsed =>
    rw [hread, Except.ok.injEq] at hread'
    rw [← hread', hparse] at hunparsed
    cases hunparsed
  | faulty hread' hparse' hfault =>
    rw [hread, Except.ok.injEq] at hread'
    rw [← hread', hparse, Except.ok.injEq] at hparse'
    rw [← hparse'] at hfault
    exact not_fault hvalidate err hfault

variable (readFile unmarshal)

end Load

end PacketLoss.LoadedConfig
