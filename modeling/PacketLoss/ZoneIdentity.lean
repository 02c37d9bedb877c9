import PacketLoss.Counters
import PacketLoss.FilterRuns
import PacketLoss.WindowHistory
import PacketLoss.ZoneClassification

/-!
A zone from its subnets to its metrics. `Validate` gives it an id, the tries and
the ring buffer carry the id as one byte, and the accumulator and the averages
find the zone by it. An event counts for the zone whose subnet it came from.
-/
namespace PacketLoss.ZoneIdentity

open Machine Cidr ZoneConfig Config ValidConfig KernelTrie LongestPrefix PathEgress FilterRuns
  ZoneTables ZoneClassification EmaStore WindowHistory Counters Segments

variable {c : Config}

theorem toNat_zoneID (h : Valid c) {name : String} {z : U8} (hz : c.zoneID name = some z) :
    z.toNat = (sortedNames c).idxOf name + 1 ∧ z.toNat ≤ 255 := by
  obtain ⟨i, hi, rfl⟩ := (h.zoneID_iff name z).mp hz
  have hlt := h.lt_of_getElem? hi
  obtain ⟨hlength, hname⟩ := List.getElem?_eq_some_iff.mp hi
  have hindex : (sortedNames c).idxOf name = i := by
    rw [← hname]
    exact List.Nodup.idxOf_getElem (nodup_sortedNames c) i hlength
  rw [hindex, BitVec.toNat_ofNat]
  omega

/-- The names alone decide the ids. -/
theorem zoneID_congr {c' : Config} (h : Valid c) (h' : Valid c')
    (hnames : ∀ name, (∃ subnets, (name, subnets) ∈ c.zones.entries) ↔
      ∃ subnets, (name, subnets) ∈ c'.zones.entries) (name : String) :
    c'.zoneID name = c.zoneID name := by
  have hperm : (c.zones.entries.map Prod.fst).Perm (c'.zones.entries.map Prod.fst) := by
    rw [List.perm_ext_iff_of_nodup c.zones.nodup c'.zones.nodup]
    simpa using hnames
  have hsorted : sortedNames c' = sortedNames c := (sortStrings_eq_of_perm hperm).symm
  apply Option.ext
  intro z
  rw [h.zoneID_iff, h'.zoneID_iff, hsorted]

theorem nodup_zoneID_remoteZones (h : Valid c) (range : c.zones.Range) :
    ((c.remoteZones range).map ResolvedZone.zoneID).Nodup := by
  apply List.Nodup.map_on
  · intro z hz z' hz' heq
    obtain ⟨⟨subnets, he⟩, hne, hid, hsource⟩ := (mem_remoteZones range z).mp hz
    obtain ⟨⟨subnets', he'⟩, hne', hid', hsource'⟩ := (mem_remoteZones range z').mp hz'
    obtain ⟨id, hsome⟩ := h.exists_zoneID he
    obtain ⟨id', hsome'⟩ := h.exists_zoneID he'
    rw [hsome, Option.getD_some] at hid
    rw [hsome', Option.getD_some] at hid'
    have hname : z.dstZone = z'.dstZone := by
      apply h.zoneID_inj hsome
      rw [hsome', ← hid', ← heq, hid]
    cases z
    cases z'
    simp_all
  · exact (nodup_remoteZones range).of_map _

/-- The index of a remote zone. -/
theorem exists_index (h : Valid c) (range : c.zones.Range) {name : String} {z : U8}
    (hne : name ≠ c.sourceZone) (hz : c.zoneID name = some z) :
    ∃ idx, (c.remoteZones range).get idx = ⟨name, z, c.sourceZone⟩ ∧
      (buildZoneIndex (c.remoteZones range)).get z = some idx := by
  obtain ⟨i, hi, -⟩ := (h.zoneID_iff name z).mp hz
  have hname := (mem_sortedNames c name).mp (List.mem_of_getElem? hi)
  have hmem : (⟨name, z, c.sourceZone⟩ : ResolvedZone) ∈ c.remoteZones range := by
    rw [mem_remoteZones]
    exact ⟨hname, hne, by rw [hz]; rfl, rfl⟩
  obtain ⟨idx, hidx⟩ := List.mem_iff_get.mp hmem
  have hget := get_buildZoneIndex (nodup_zoneID_remoteZones h range) idx
  rw [hidx] at hget
  exact ⟨idx, hidx, hget⟩

theorem zoneNames_injective (range : c.zones.Range) :
    Function.Injective (newAccumulator (c.remoteZones range)).zoneNames := by
  intro i j heq
  have hinj := List.nodup_iff_injective_get.mp (nodup_remoteZones range)
  have hcast : ((c.remoteZones range).map ResolvedZone.dstZone).get (i.cast (by simp)) =
      ((c.remoteZones range).map ResolvedZone.dstZone).get (j.cast (by simp)) := by
    simpa [newAccumulator] using heq
  simpa using hinj hcast

/-- What recording an event does to the next snapshot: it adds to one entry. -/
theorem snapshot_record {n : ℕ} (acc : Accumulator n) (hnames : Function.Injective acc.zoneNames)
    (idx : Fin n) (isRetrans : Bool) :
    (acc.record idx isRetrans).snapshotAndReset.1.get (acc.zoneNames idx) =
        some ⟨acc.segs idx + 1#64, if isRetrans then acc.rets idx + 1#64 else acc.rets idx⟩ ∧
      ∀ name, name ≠ acc.zoneNames idx →
        (acc.record idx isRetrans).snapshotAndReset.1.get name =
          acc.snapshotAndReset.1.get name := by
  have hsame : (acc.record idx isRetrans).zoneNames = acc.zoneNames := by
    cases isRetrans <;> rfl
  have hnames' : Function.Injective (acc.record idx isRetrans).zoneNames := by rwa [hsame]
  constructor
  · rw [← hsame, Accumulator.get_snapshotAndReset _ hnames']
    cases isRetrans <;> simp [Accumulator.record, Accumulator.addSeg, Accumulator.addRet]
  · intro name hname
    by_cases hzone : ∃ j, acc.zoneNames j = name
    · obtain ⟨j, rfl⟩ := hzone
      have hj : j ≠ idx := by
        intro heq
        exact hname (by rw [heq])
      rw [acc.get_snapshotAndReset hnames, ← hsame, Accumulator.get_snapshotAndReset _ hnames']
      cases isRetrans <;>
        simp [Accumulator.record, Accumulator.addSeg, Accumulator.addRet, Function.update_of_ne hj]
    · push Not at hzone
      rw [acc.get_snapshotAndReset_of_ne hnames hzone,
        Accumulator.get_snapshotAndReset_of_ne _ hnames' (by rwa [hsame])]

theorem dstZone_zoneRun {K : Type} [Field K] [LinearOrder K] (exp : K → K) (name : String)
    (st : ZoneState K) (polls : List Poll) :
    (zoneRun exp c name st polls).dstZone = st.dstZone := by
  induction polls generalizing st with
  | nil => rfl
  | cons p polls ih =>
    refine (ih (updateZone exp c p.now (deltaOf p.counters name) st)).trans ?_
    have hslide : (slide st (deltaOf p.counters name)).dstZone = st.dstZone := by
      unfold slide
      split <;> rfl
    rw [← hslide]
    unfold updateZone smooth
    dsimp only
    split <;> rfl

/-- Events with the zone id `id` count for the zone `name` alone: their samples
are decoded, recorded and snapshotted under it, whatever the other bytes are, and
the averages that are published with this label are made from its snapshots. -/
structure CountsFor (K : Type) [Field K] [LinearOrder K] (c : Config) (range : c.zones.Range)
    (id : U8) (name : String) : Prop where
  decoded : ∀ (e : Endian) (ifindex : U32) (isRetrans : U8) (pad : U8 × U8),
    parseStatsEvent e (statsEventBytes e ⟨ifindex, id, isRetrans⟩ pad) =
      .ok ⟨ifindex, id, isRetrans⟩
  recorded : ∃ idx, (buildZoneIndex (c.remoteZones range)).get id = some idx ∧
    ∀ acc : Accumulator (c.remoteZones range).length,
      acc.zoneNames = (newAccumulator (c.remoteZones range)).zoneNames → ∀ isRetrans,
        (acc.record idx isRetrans).snapshotAndReset.1.get name =
            some ⟨acc.segs idx + 1#64, if isRetrans then acc.rets idx + 1#64 else acc.rets idx⟩ ∧
          ∀ name', name' ≠ name → (acc.record idx isRetrans).snapshotAndReset.1.get name' =
            acc.snapshotAndReset.1.get name'
  labelled : ∀ (exp : K → K) (polls : List Poll), ∃ st : ZoneState K,
    (runPolls exp (newEMAStore c (c.remoteZones range)) polls).zones.get name = some st ∧
      st.dstZone = name ∧ Windowed (instantWindowCap c) (samplesOf name polls) st

theorem countsFor (K : Type) [Field K] [LinearOrder K] (h : Valid c) (range : c.zones.Range)
    {name : String} {id : U8} (hne : name ≠ c.sourceZone) (hid : c.zoneID name = some id) :
    CountsFor K c range id name := by
  obtain ⟨idx, hidx, hget⟩ := exists_index h range hne hid
  have hname : (newAccumulator (c.remoteZones range)).zoneNames idx = name := by
    show ((c.remoteZones range).get idx).dstZone = name
    rw [hidx]
  constructor
  · intro e ifindex isRetrans pad
    exact parseStatsEvent_statsEventBytes e _ pad
  · refine ⟨idx, hget, fun acc hacc isRetrans => ?_⟩
    have hrecord := snapshot_record acc (by rw [hacc]; exact zoneNames_injective range) idx
      isRetrans
    rw [hacc, hname] at hrecord
    exact hrecord
  · intro exp polls
    have hz : (⟨name, id, c.sourceZone⟩ : ResolvedZone) ∈ c.remoteZones range := by
      rw [← hidx]
      exact List.get_mem _ _
    have hstate := get_newEMAStore (K := K) c (nodup_remoteZones range) hz
    refine ⟨zoneRun exp c name (newZoneState c ⟨name, id, c.sourceZone⟩) polls, ?_, ?_,
      windowed_zoneRun exp c _ name polls⟩
    · rw [get_runPolls, hstate]
      rfl
    · rw [dstZone_zoneRun]
      rfl

variable {T : Type} [LpmTrie T] {e : Endian}

/-- What a lookup in `zone_lpm` returns is the id of a remote zone. -/
theorem exists_zone_of_lookup (h : Valid c) {range : c.zones.Range} {m : Maps T}
    (hstart : start T e c range = some m) {addr : U32} {z : U8}
    (hz : LpmTrie.lookup m.zoneLpm (lpmKey e addr) = some z) :
    ∃ name, name ≠ c.sourceZone ∧ c.zoneID name = some z := by
  obtain ⟨dst, -, hdst, -, hcontent, -, -⟩ := tables_of_start hstart h
  rw [lookup_lpmKey, hcontent, lookup_eq_some_iff] at hz
  obtain ⟨p, -, hp⟩ := hz
  rw [insertAll_apply, Option.or_none] at hp
  obtain ⟨entry, hentry, heq⟩ := List.mem_map.mp (mem_of_lastValue hp)
  obtain ⟨name, hid, hremote⟩ := (hdst entry).mp hentry
  obtain ⟨-, rfl⟩ := Prod.mk.inj heq
  exact ⟨name, hremote.1, hid⟩

/-- An event of a run carries an id that `zone_lpm` was filled with. -/
theorem exists_zone_of_event (h : Valid c)
    {range : c.zones.Range} {m : Maps T} (hstart : start T e c range = some m)
    (invs : List Invocation) (evt : StatsEvent) (hevt : evt ∈ (run e m invs).statsRb) :
    ∃ name, name ≠ c.sourceZone ∧ c.zoneID name = some evt.dstZoneId := by
  rcases (mem_statsRb_iff e m invs evt).mp hevt with hold | ⟨pre, q, -, -, -, zoneId, r, hout, rfl⟩
  · obtain ⟨dst, src, -, -, hload⟩ := (start_eq_some_iff e c range m).mp hstart
    rw [loaded_of_load e hload] at hold
    cases hold
  · obtain ⟨seg, hzoned⟩ := zoned_of_counted e m hout
    obtain ⟨-, -, hlookup⟩ := (zonedSegment_eq_some_iff e m).mp hzoned
    exact exists_zone_of_lookup h hstart hlookup

/-- What `Validate` promises about the ids, and what becomes of them. -/
structure Identified (K : Type) [Field K] [LinearOrder K] (c : Config) : Prop where
  ids : ∀ name subnets, (name, subnets) ∈ c.zones.entries →
    ∃ z, c.zoneID name = some z ∧ z.toNat = (sortedNames c).idxOf name + 1 ∧ z.toNat ≤ 255
  distinct : ∀ name name' z, c.zoneID name = some z → c.zoneID name' = some z → name = name'
  namesOnly : ∀ (c₁ c' : Config) (zoneOrder nameOrder : c₁.zones.Range),
    c₁.validate zoneOrder nameOrder = .ok c' →
      (∀ name, (∃ subnets, (name, subnets) ∈ c.zones.entries) ↔
        ∃ subnets, (name, subnets) ∈ c'.zones.entries) →
          ∀ name, c'.zoneID name = c.zoneID name
  entries : ∀ (order : c.zones.Range) (entries : List ZoneEntry),
    c.zoneLPMEntries order = .ok entries → ∀ entry ∈ entries, ∃ name,
      RemoteSubnet c name entry.net ∧ c.zoneID name = some entry.zoneID ∧
        ∀ range, CountsFor K c range entry.zoneID name
  events : ∀ (T : Type) [LpmTrie T] (e : Endian) (order : c.zones.Range) (m : Maps T)
    (invs : List Invocation), start T e c order = some m → ∀ evt ∈ (run e m invs).statsRb,
      ∃ name, name ≠ c.sourceZone ∧ c.zoneID name = some evt.dstZoneId ∧
        ∀ range, CountsFor K c range evt.dstZoneId name

/-- Zone identity is preserved from the configuration to the metrics. -/
theorem identified_of_accepted (K : Type) [Field K] [LinearOrder K] {c₀ : Config}
    {zoneOrder nameOrder : c₀.zones.Range} (haccepted : c₀.validate zoneOrder nameOrder = .ok c) :
    Identified K c := by
  obtain ⟨hvalid, -, -⟩ := valid_of_validate haccepted
  constructor
  · intro name subnets hname
    obtain ⟨z, hz⟩ := hvalid.exists_zoneID hname
    exact ⟨z, hz, toNat_zoneID hvalid hz⟩
  · intro name name' z
    exact hvalid.zoneID_inj
  · intro c₁ c' r₁ r₂ haccepted' hnames
    exact zoneID_congr hvalid (valid_of_validate haccepted').1 hnames
  · intro order entries hentries entry hentry
    rw [hvalid.zoneLPMEntries_eq, Except.ok.injEq] at hentries
    rw [← hentries, hvalid.mem_remote_entries] at hentry
    obtain ⟨name, hne, hid, hsubnet⟩ := hentry
    exact ⟨name, ⟨hne, hsubnet⟩, hid, fun range => countsFor K hvalid range hne hid⟩
  · intro T _ e order m invs hstart evt hevt
    obtain ⟨name, hne, hid⟩ := exists_zone_of_event hvalid hstart invs evt hevt
    exact ⟨name, hne, hid, fun range => countsFor K hvalid range hne hid⟩

theorem readme_identified :
    ∃ c, (sampleConfig readmeZones).validate readmeZones.listed readmeZones.listed = .ok c ∧
      c.zoneID "f" = some 4#8 ∧ Identified ℚ c := by
  obtain ⟨c, haccepted, hid⟩ := exists_accepted (sampleConfig readmeZones)
    (fun c => c.zoneID "f") 4#8 (by decide +kernel)
  exact ⟨c, haccepted, hid, identified_of_accepted ℚ haccepted⟩

end PacketLoss.ZoneIdentity
