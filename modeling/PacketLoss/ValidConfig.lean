import PacketLoss.ZoneConfig
import Mathlib.Data.List.Induction

/-!
What is known of a configuration that `Validate` accepted, whatever order it
ranged over the zones in: all subnets parse, and the zones have distinct ids
that depend on their names alone.
-/
namespace PacketLoss.ValidConfig

open Machine Cidr ZoneConfig Config

/-- `n` is a subnet of the zone `name`. -/
def Subnet (c : Config) (name : String) (n : IPNet) : Prop :=
  ∃ subnets s, (name, subnets) ∈ c.zones.entries ∧ s ∈ subnets ∧ parseCIDR s = .ok n

theorem Subnet.canonical {c : Config} {name : String} {n : IPNet} (h : Subnet c name n) :
    Canonical n (maskSize n.mask) := by
  obtain ⟨_, _, -, -, hparse⟩ := h
  obtain ⟨ones, hn⟩ := parseCIDR_canonical hparse
  rwa [← hn.size_mask] at hn

/-- The names in the order of their ids. -/
def sortedNames (c : Config) : List String := sortStrings (c.zones.entries.map Prod.fst)

structure Valid (c : Config) : Prop where
  source : ∃ subnets, (c.sourceZone, subnets) ∈ c.zones.entries
  remote : ∃ e ∈ c.zones.entries, e.1 ≠ c.sourceZone
  nonempty : ∀ e ∈ c.zones.entries, e.2 ≠ []
  parses : ∀ e ∈ c.zones.entries, ∀ s ∈ e.2, ∃ n, parseCIDR s = .ok n
  few : c.zones.entries.length ≤ 255
  zoneID_iff : ∀ name z, c.zoneID name = some z ↔
    ∃ i, (sortedNames c)[i]? = some name ∧ z = BitVec.ofNat 8 (i + 1)
  pollInterval : 0 < c.pollInterval
  instantWindow : 0 ≤ c.instantWindow

/-- Sorting forgets the order in which the names came. -/
theorem sortStrings_eq_of_perm {names names' : List String} (h : names.Perm names') :
    sortStrings names = sortStrings names' := by
  have hperm : (sortStrings names).Perm (sortStrings names') :=
    (List.perm_insertionSort _ _).trans (h.trans (List.perm_insertionSort _ _).symm)
  exact hperm.eq_of_pairwise' (List.pairwise_insertionSort _ _) (List.pairwise_insertionSort _ _)

theorem sortStrings_range {c : Config} (range : c.zones.Range) :
    sortStrings (range.order.map Prod.fst) = sortedNames c :=
  sortStrings_eq_of_perm (range.perm.map _)

theorem nodup_sortedNames (c : Config) : (sortedNames c).Nodup :=
  (List.perm_insertionSort _ _).nodup_iff.mpr c.zones.nodup

theorem mem_sortedNames (c : Config) (name : String) :
    name ∈ sortedNames c ↔ ∃ subnets, (name, subnets) ∈ c.zones.entries := by
  unfold sortedNames sortStrings
  rw [List.mem_insertionSort]
  simp

theorem map_dstZone_remoteZones {c : Config} (range : c.zones.Range) :
    (c.remoteZones range).map ResolvedZone.dstZone =
      sortStrings ((range.order.map Prod.fst).filter (· ≠ c.sourceZone)) := by
  simp only [remoteZones, List.map_map]
  exact List.map_id _

theorem nodup_remoteZones {c : Config} (range : c.zones.Range) :
    ((c.remoteZones range).map ResolvedZone.dstZone).Nodup := by
  rw [map_dstZone_remoteZones, sortStrings, (List.perm_insertionSort _ _).nodup_iff]
  apply List.Nodup.filter
  exact (range.perm.map Prod.fst).nodup_iff.mpr c.zones.nodup

theorem mem_remoteZones {c : Config} (range : c.zones.Range) (z : ResolvedZone) :
    z ∈ c.remoteZones range ↔ (∃ subnets, (z.dstZone, subnets) ∈ c.zones.entries) ∧
      z.dstZone ≠ c.sourceZone ∧ z.zoneID = (c.zoneID z.dstZone).getD 0#8 ∧
        z.sourceZone = c.sourceZone := by
  obtain ⟨dstZone, zoneID, sourceZone⟩ := z
  simp only [remoteZones, sortStrings, List.mem_map, List.mem_insertionSort, List.mem_filter,
    decide_eq_true_eq, Prod.exists, range.mem_iff, exists_and_right, exists_eq_right,
    ResolvedZone.mk.injEq]
  constructor
  · intro hz
    rcases hz with ⟨name, ⟨hname, hne⟩, rfl, rfl, rfl⟩
    exact ⟨hname, hne, rfl, rfl⟩
  · intro hz
    rcases hz with ⟨hname, hne, rfl, rfl⟩
    exact ⟨dstZone, ⟨hname, hne⟩, rfl, rfl, rfl⟩

/-- What the loop over the sorted names writes. -/
theorem foldl_zipIdx_eq_some_iff {names : List String} (hnodup : names.Nodup) (name : String)
    (z : U8) :
    names.zipIdx.foldl
        (fun ids (p : String × ℕ) => Function.update ids p.1 (some (BitVec.ofNat 8 (p.2 + 1))))
        (fun _ => none) name = some z ↔
      ∃ i, names[i]? = some name ∧ z = BitVec.ofNat 8 (i + 1) := by
  induction names using List.reverseRecOn with
  | nil => simp
  | append_singleton names last ih =>
    obtain ⟨hrest, -, hlast⟩ := List.nodup_append.mp hnodup
    have hindex : ∀ i, (names ++ [last])[i]? = some name ↔
        names[i]? = some name ∨ i = names.length ∧ last = name := by
      intro i
      rcases Nat.lt_trichotomy i names.length with hlt | rfl | hgt
      · simp [List.getElem?_append_left hlt, hlt.ne]
      · simp
      · have hnone : names[i]? = none := List.getElem?_eq_none hgt.le
        have hnone' : (names ++ [last])[i]? = none := List.getElem?_eq_none (by simp; omega)
        simp [hnone, hnone', hgt.ne']
    rw [List.zipIdx_append, List.foldl_append]
    simp only [List.zipIdx_singleton, Nat.zero_add, List.foldl_cons, List.foldl_nil, hindex]
    by_cases hname : name = last
    · subst hname
      have habsent : ∀ i : ℕ, names[i]? ≠ some name := fun i hi =>
        hlast name (List.mem_of_getElem? hi) name (List.mem_singleton_self _) rfl
      simp [habsent, eq_comm]
    · rw [Function.update_of_ne hname, ih hrest]
      simp [Ne.symm hname]

theorem assignZoneIDs_ok {c c' : Config} {range : c.zones.Range}
    (h : assignZoneIDs c range = .ok c') :
    c' = { c with zoneIDs := c'.zoneIDs } ∧ c.zones.entries.length ≤ 255 ∧
      ∀ name z, c'.zoneID name = some z ↔
        ∃ i, (sortedNames c)[i]? = some name ∧ z = BitVec.ofNat 8 (i + 1) := by
  unfold assignZoneIDs at h
  simp only [sortStrings_range] at h
  split at h
  · cases h
  · rename_i hlength
    rw [Except.ok.injEq] at h
    subst h
    refine ⟨rfl, ?_, foldl_zipIdx_eq_some_iff (nodup_sortedNames c)⟩
    rw [sortedNames, sortStrings, List.length_insertionSort, List.length_map] at hlength
    omega

theorem checkSubnets_ok {name : String} {subnets : List String}
    (h : checkSubnets name subnets = .ok ()) : ∀ s ∈ subnets, ∃ n, parseCIDR s = .ok n := by
  induction subnets with
  | nil => simp
  | cons s rest ih =>
    rw [checkSubnets] at h
    cases hs : parseCIDR s with
    | error err => simp [hs] at h
    | ok n =>
      simp only [hs] at h
      rintro t (_ | ⟨_, ht⟩)
      · exact ⟨n, hs⟩
      · exact ih h t ht

theorem checkZones_ok {sourceZone : String} {count total : ℕ}
    {entries : List (String × List String)}
    (h : checkZones sourceZone count entries = .ok total) :
    (∀ e ∈ entries, e.2 ≠ [] ∧ ∀ s ∈ e.2, ∃ n, parseCIDR s = .ok n) ∧
      total = count + (entries.filter fun e => e.1 ≠ sourceZone).length := by
  induction entries generalizing count with
  | nil =>
    rw [checkZones, Except.ok.injEq] at h
    simp [h]
  | cons e rest ih =>
    obtain ⟨name, subnets⟩ := e
    rw [checkZones] at h
    split at h
    · cases h
    · rename_i hlength
      cases hcheck : checkSubnets name subnets with
      | error err => simp [hcheck] at h
      | ok u =>
        simp only [hcheck] at h
        obtain ⟨hrest, htotal⟩ := ih h
        refine ⟨?_, ?_⟩
        · rintro e (_ | ⟨_, he⟩)
          · exact ⟨fun hnil => hlength (by simp [show subnets = [] from hnil]),
              checkSubnets_ok hcheck⟩
          · exact hrest e he
        · by_cases hname : name = sourceZone
          · simp [htotal, hname]
          · simp only [htotal, ne_eq, hname, not_false_eq_true, ite_true, decide_true,
              List.filter_cons_of_pos, List.length_cons]
            omega

/-- Acceptance, whatever the two orders, only adds the ids. -/
theorem validate_ok {c c' : Config} {range names : c.zones.Range}
    (h : validate c range names = .ok c') :
    Valid c' ∧ c' = { c with zoneIDs := c'.zoneIDs } := by
  unfold validate at h
  split at h
  · cases h
  split at h
  · cases h
  split at h
  · cases h
  rename_i hsource
  cases hzones : checkZones c.sourceZone 0 range.order with
  | error err => simp [hzones] at h
  | ok remote =>
    simp only [hzones] at h
    split at h
    · cases h
    rename_i hremote
    obtain ⟨hall, htotal⟩ := checkZones_ok hzones
    cases hids : assignZoneIDs c names with
    | error err => simp [hids] at h
    | ok assigned =>
      simp only [hids] at h
      split at h
      · cases h
      rename_i hpoll
      split at h
      · cases h
      rename_i hinstant
      rw [Except.ok.injEq] at h
      subst h
      obtain ⟨heq, hfew, hid⟩ := assignZoneIDs_ok hids
      rw [heq]
      rw [heq] at hpoll hinstant
      refine ⟨⟨?_, ?_, ?_, ?_, hfew, hid, by simpa using hpoll, by simpa using hinstant⟩, rfl⟩
      · cases hget : c.zones.get c.sourceZone with
        | none => exact absurd hget hsource
        | some subnets => exact ⟨subnets, (c.zones.get_eq_some_iff _ _).mp hget⟩
      · have hpos : 0 < (range.order.filter fun e => e.1 ≠ c.sourceZone).length := by omega
        obtain ⟨e, he⟩ := List.exists_mem_of_length_pos hpos
        obtain ⟨hmem, hne⟩ := List.mem_filter.mp he
        exact ⟨e, (range.mem_iff e).mp hmem, by simpa using hne⟩
      · exact fun e he => (hall e ((range.mem_iff e).mpr he)).1
      · exact fun e he => (hall e ((range.mem_iff e).mpr he)).2

theorem valid_of_validate {c c' : Config} {range names : c.zones.Range}
    (h : validate c range names = .ok c') :
    Valid c' ∧ c'.zones = c.zones ∧ c'.sourceZone = c.sourceZone := by
  obtain ⟨hvalid, heq⟩ := validate_ok h
  refine ⟨hvalid, ?_, ?_⟩ <;> rw [heq]

/-- The orders leave no trace in an accepted configuration. -/
theorem validate_unique {c c₁ c₂ : Config} {range range' names names' : c.zones.Range}
    (h₁ : validate c range names = .ok c₁) (h₂ : validate c range' names' = .ok c₂) :
    c₁ = c₂ := by
  obtain ⟨hvalid₁, heq₁⟩ := validate_ok h₁
  obtain ⟨hvalid₂, heq₂⟩ := validate_ok h₂
  have hnames : sortedNames c₁ = sortedNames c₂ := by
    unfold sortedNames
    rw [heq₁, heq₂]
  have hids : c₁.zoneIDs = c₂.zoneIDs := by
    funext name
    refine Option.ext fun z => ?_
    have hz₁ := hvalid₁.zoneID_iff name z
    have hz₂ := hvalid₂.zoneID_iff name z
    rw [hnames, ← hz₂] at hz₁
    exact hz₁
  rw [heq₁, heq₂, hids]

/-! The ids and the entries of an accepted configuration. -/

variable {c : Config}

theorem Valid.exists_zoneID (h : Valid c) {name : String} {subnets : List String}
    (he : (name, subnets) ∈ c.zones.entries) : ∃ z, c.zoneID name = some z := by
  obtain ⟨i, hi⟩ := List.mem_iff_getElem?.mp ((mem_sortedNames c name).mpr ⟨subnets, he⟩)
  exact ⟨_, (h.zoneID_iff name _).mpr ⟨i, hi, rfl⟩⟩

theorem Valid.lt_of_getElem? (h : Valid c) {i : ℕ} {name : String}
    (hi : (sortedNames c)[i]? = some name) : i < 255 := by
  have hlt := (List.getElem?_eq_some_iff.mp hi).1
  have hfew := h.few
  rw [sortedNames, sortStrings, List.length_insertionSort, List.length_map] at hlt
  omega

/-- Two zones never share an id. -/
theorem Valid.zoneID_inj (h : Valid c) {name name' : String} {z : U8}
    (hz : c.zoneID name = some z) (hz' : c.zoneID name' = some z) : name = name' := by
  obtain ⟨i, hi, rfl⟩ := (h.zoneID_iff name z).mp hz
  obtain ⟨j, hj, heq⟩ := (h.zoneID_iff name' _).mp hz'
  have hilt := h.lt_of_getElem? hi
  have hjlt := h.lt_of_getElem? hj
  have hij : i = j := by
    have := congrArg BitVec.toNat heq
    simp only [BitVec.toNat_ofNat] at this
    omega
  subst hij
  exact Option.some.inj (hi.symm.trans hj)

/-- The networks of a list of subnets, those that do not parse left out. -/
def nets (subnets : List String) : List IPNet := subnets.filterMap fun s => (parseCIDR s).toOption

theorem mem_nets (subnets : List String) (n : IPNet) :
    n ∈ nets subnets ↔ ∃ s ∈ subnets, parseCIDR s = .ok n := by
  unfold nets
  rw [List.mem_filterMap]
  refine exists_congr fun s => and_congr_right fun _ => ?_
  cases parseCIDR s <;> simp [Except.toOption]

/-- All networks of the configuration with their zones. -/
def allNets (zones : GoMap String (List String)) : List (String × IPNet) :=
  zones.entries.flatMap fun e => (nets e.2).map fun n => (e.1, n)

theorem subnet_iff_mem (c : Config) (name : String) (n : IPNet) :
    Subnet c name n ↔ (name, n) ∈ allNets c.zones := by
  simp only [allNets, List.mem_flatMap, List.mem_map, Prod.mk.injEq, mem_nets]
  constructor
  · intro hsubnet
    rcases hsubnet with ⟨subnets, s, he, hs, hparse⟩
    exact ⟨(name, subnets), he, n, ⟨s, hs, hparse⟩, rfl, rfl⟩
  · intro hpair
    rcases hpair with ⟨e, he, _, ⟨s, hs, hparse⟩, rfl, rfl⟩
    exact ⟨e.2, s, he, hs, hparse⟩

def zoneEntriesOf (c : Config) (e : String × List String) : List ZoneEntry :=
  (nets e.2).map fun n => ⟨(c.zoneID e.1).getD 0#8, n⟩

theorem subnetEntries_eq {name : String} {id : U8} {subnets : List String}
    (hparses : ∀ s ∈ subnets, ∃ n, parseCIDR s = .ok n) :
    subnetEntries name id subnets = .ok ((nets subnets).map fun n => ⟨id, n⟩) := by
  induction subnets with
  | nil => rfl
  | cons s rest ih =>
    obtain ⟨n, hn⟩ := hparses s List.mem_cons_self
    have hrest := ih fun t ht => hparses t (List.mem_cons_of_mem _ ht)
    simp [subnetEntries, nets, hn, hrest, Except.toOption, Except.map]

theorem Valid.remoteEntries_eq (h : Valid c) {entries : List (String × List String)}
    (hsub : ∀ e ∈ entries, e ∈ c.zones.entries) :
    remoteEntries c entries =
      .ok ((entries.filter fun e => e.1 ≠ c.sourceZone).flatMap (zoneEntriesOf c)) := by
  induction entries with
  | nil => rfl
  | cons e rest ih =>
    obtain ⟨name, subnets⟩ := e
    have hmem := hsub _ List.mem_cons_self
    have hrest := ih fun e he => hsub e (List.mem_cons_of_mem _ he)
    by_cases hname : name = c.sourceZone
    · simp [remoteEntries, hname, hrest]
    · obtain ⟨z, hz⟩ := h.exists_zoneID hmem
      simp [remoteEntries, hname, hrest, hz, subnetEntries_eq (h.parses _ hmem), zoneEntriesOf,
        Except.map]

theorem Valid.zoneLPMEntries_eq (h : Valid c) (range : c.zones.Range) :
    zoneLPMEntries c range =
      .ok ((range.order.filter fun e => e.1 ≠ c.sourceZone).flatMap (zoneEntriesOf c)) :=
  h.remoteEntries_eq fun e he => (range.mem_iff e).mp he

theorem Valid.sourceZoneLPMEntries_eq (h : Valid c) :
    ∃ subnets, (c.sourceZone, subnets) ∈ c.zones.entries ∧
      sourceZoneLPMEntries c = .ok (zoneEntriesOf c (c.sourceZone, subnets)) := by
  obtain ⟨subnets, hmem⟩ := h.source
  obtain ⟨z, hz⟩ := h.exists_zoneID hmem
  refine ⟨subnets, hmem, ?_⟩
  simp [sourceZoneLPMEntries, (c.zones.get_eq_some_iff _ _).mpr hmem, hz,
    subnetEntries_eq (h.parses _ hmem), zoneEntriesOf]

theorem Valid.mem_zoneEntriesOf (h : Valid c) {e : String × List String}
    (he : e ∈ c.zones.entries) (entry : ZoneEntry) :
    entry ∈ zoneEntriesOf c e ↔
      c.zoneID e.1 = some entry.zoneID ∧ entry.net ∈ nets e.2 := by
  obtain ⟨z, hz⟩ := h.exists_zoneID (show (e.1, e.2) ∈ c.zones.entries from he)
  obtain ⟨id, n⟩ := entry
  simp only [zoneEntriesOf, hz, Option.getD_some, List.mem_map, ZoneEntry.mk.injEq,
    Option.some.injEq]
  constructor
  · intro hentry
    rcases hentry with ⟨n', hn', rfl, rfl⟩
    exact ⟨rfl, hn'⟩
  · intro hentry
    rcases hentry with ⟨rfl, hn⟩
    exact ⟨n, hn, rfl, rfl⟩

/-- The entries for `zone_lpm` are the subnets of the remote zones with their ids. -/
theorem Valid.mem_remote_entries (h : Valid c) (range : c.zones.Range) (entry : ZoneEntry) :
    entry ∈ (range.order.filter fun e => e.1 ≠ c.sourceZone).flatMap (zoneEntriesOf c) ↔
      ∃ name, name ≠ c.sourceZone ∧ c.zoneID name = some entry.zoneID ∧
        Subnet c name entry.net := by
  simp only [List.mem_flatMap, List.mem_filter, decide_eq_true_eq, range.mem_iff]
  constructor
  · intro hmem
    rcases hmem with ⟨e, ⟨he, hne⟩, hentry⟩
    obtain ⟨hid, hnet⟩ := (h.mem_zoneEntriesOf he entry).mp hentry
    obtain ⟨s, hs, hparse⟩ := (mem_nets _ _).mp hnet
    exact ⟨e.1, hne, hid, e.2, s, he, hs, hparse⟩
  · intro hsubnet
    rcases hsubnet with ⟨name, hne, hid, subnets, s, he, hs, hparse⟩
    exact ⟨(name, subnets), ⟨he, hne⟩,
      (h.mem_zoneEntriesOf he entry).mpr ⟨hid, (mem_nets _ _).mpr ⟨s, hs, hparse⟩⟩⟩

end PacketLoss.ValidConfig
