import PacketLoss.EndToEnd
import PacketLoss.ZoneIdentity

/-!
The whole path as the exporter sets it up: the maps and the index of the zones are
both made from one accepted configuration. Then each sample is of a known zone, and
the count of each zone is the count of the packets with its id.
-/
namespace PacketLoss.KnownZones

open PathEgress hiding run
open Polling hiding start step
open Machine ZoneConfig Config ValidConfig KernelTrie Counters EmaStore Schedules ExactlyOnce
  Pipeline EndToEnd ZoneIdentity

variable {T : Type} [LpmTrie T] {e : Endian} {c : Config}

/-- What `main` makes of the configuration for the reader and the publisher. -/
def setupOf (e : Endian) (c : Config) (order : c.zones.Range)
    (outcomes : ℕ → ReadOutcome) : Setup where
  zones := c.remoteZones order
  nodup := nodup_remoteZones order
  zoneByID := buildZoneIndex (c.remoteZones order)
  endian := e
  outcomes := outcomes

/-- The packets that are counted with the id `z`. -/
def hasID (z : U8) : U8 → Bool → Bool := fun zoneId _ => zoneId = z

/-- These of them that are retransmissions. -/
def retransWithID (z : U8) : U8 → Bool → Bool := fun zoneId isRetrans => zoneId = z && isRetrans

section Index

variable (order : c.zones.Range)

theorem get_index_iff (h : Valid c) {name : String} {z : U8} (hne : name ≠ c.sourceZone)
    (hz : c.zoneID name = some z) {i : Fin (c.remoteZones order).length}
    (hi : ((c.remoteZones order).get i).dstZone = name) (zoneId : U8)
    (hknown : ∃ name', name' ≠ c.sourceZone ∧ c.zoneID name' = some zoneId) :
    (buildZoneIndex (c.remoteZones order)).get zoneId = some i ↔ zoneId = z := by
  obtain ⟨name', hne', hz'⟩ := hknown
  obtain ⟨idx, hidx, hget⟩ := exists_index h order hne hz
  obtain ⟨idx', hidx', hget'⟩ := exists_index h order hne' hz'
  have hsame : idx = i := by
    apply zoneNames_injective order
    show ((c.remoteZones order).get idx).dstZone = ((c.remoteZones order).get i).dstZone
    rw [hidx, hi]
  subst hsame
  constructor
  · intro hfound
    rw [hget', Option.some.injEq] at hfound
    rw [hfound, hidx] at hidx'
    exact (congrArg ResolvedZone.zoneID hidx').symm
  · rintro rfl
    exact hget

end Index

/-- What a lookup can return is what packets are counted with. -/
theorem known_of_counted {known : U8 → Prop} {m : Maps T}
    (hlookup : ∀ addr z, LpmTrie.lookup m.zoneLpm (lpmKey e addr) = some z → known z)
    (invs : List Invocation) : ∀ t ∈ DropReasons.trace e m invs, ∀ z r,
      t.2 = .counted z r → known z := by
  induction invs generalizing m with
  | nil => simp [DropReasons.trace]
  | cons inv invs ih =>
    intro t ht z r hout
    rw [DropReasons.trace] at ht
    rcases List.mem_cons.mp ht with rfl | hrest
    · rcases pathEgress_cases e m inv with ⟨reason, m', -, heq, -⟩ |
        ⟨seg, zoneId, m', hzoned, heq, -⟩
      · rw [heq] at hout
        cases hout
      · rw [heq] at hout
        cases hout
        exact hlookup _ _ ((zonedSegment_eq_some_iff e m).mp hzoned).2.2
    · refine ih ?_ t hrest z r hout
      rw [(FilterRuns.tries_pathEgress e m inv).1]
      exact hlookup

/-- Sets of events that agree on the known ids have the same packets. -/
theorem countedPackets_congr {known : U8 → Prop} {m : Maps T}
    (hlookup : ∀ addr z, LpmTrie.lookup m.zoneLpm (lpmKey e addr) = some z → known z)
    {q q' : U8 → Bool → Bool} (hq : ∀ z r, known z → q z r = q' z r) (invs : List Invocation) :
    countedPackets e m invs q = countedPackets e m invs q' ∧
      lostPackets e m invs q = lostPackets e m invs q' := by
  have hall : ∀ t ∈ DropReasons.trace e m invs, countedAs q t.2 = countedAs q' t.2 := by
    intro t ht
    cases hout : t.2 with
    | left reason => rfl
    | counted z r => exact hq z r (known_of_counted hlookup invs t ht z r hout)
  constructor
  · apply List.countP_congr
    intro t ht
    rw [hall t ht]
  · apply List.countP_congr
    intro t ht
    rw [hall t ht]

theorem account_congr (s : Setup) {known : U8 → Prop} (m : Maps T) (invs : List Invocation)
    (p : State T s.zones.length) {q q' : U8 → Bool → Bool}
    (hq : ∀ z r, known z → q z r = q' z r)
    (hlookup : ∀ addr z, LpmTrie.lookup m.zoneLpm (lpmKey s.endian addr) = some z → known z)
    (hevents : ∀ evt ∈ p.maps.statsRb, known evt.dstZoneId) (total : ℕ) :
    account s m invs p q total = account s m invs p q' total := by
  unfold account
  rw [(countedPackets_congr hlookup hq invs).2]
  congr 2
  apply List.countP_congr
  intro evt hevt
  unfold eventAs
  rw [hq _ _ (hevents evt (List.mem_of_mem_drop hevt))]

variable (order : c.zones.Range) (outcomes : ℕ → ReadOutcome)

/-- The counts by name: every sample is of a remote zone, none is unknown, and the
counts of each zone make up for the packets with its id. -/
structure CountedByName (m : Maps T) (invs : List Invocation)
    (p : State T (setupOf e c order outcomes).zones.length) : Prop where
  known : ∀ raw ∈ p.exporter.processed, ∃ i isRetrans,
    classify e (buildZoneIndex (c.remoteZones order)) raw = .zone i isRetrans
  unknown : p.exporter.acc.unknown = 0#64
  zones : ∀ name z, name ≠ c.sourceZone → c.zoneID name = some z → ∃ i,
    (c.remoteZones order).get i = ⟨name, z, c.sourceZone⟩ ∧
      Counted
        (account (setupOf e c order outcomes) m invs p (hasID z)
          (totalSegs (setupOf e c order outcomes) p.exporter i + dueSegs i p.exporter.reader))
        (countedPackets e m invs (hasID z)) ∧
      Counted
        (account (setupOf e c order outcomes) m invs p (retransWithID z)
          (totalRets (setupOf e c order outcomes) p.exporter i + dueRets i p.exporter.reader))
        (countedPackets e m invs (retransWithID z))

/-- With the tables of the configuration no event is ever counted as unknown. -/
theorem counted_by_name {c₀ : Config} {zoneOrder nameOrder : c₀.zones.Range} {m : Maps T}
    (haccepted : c₀.validate zoneOrder nameOrder = .ok c) {range : c.zones.Range}
    (hstart : ZoneTables.start T e c range = some m) (sched : List Action) :
    CountedByName order outcomes m (packets sched)
      (run (step (setupOf e c order outcomes)) (start (setupOf e c order outcomes) m) sched) := by
  obtain ⟨h, -, -⟩ := valid_of_validate haccepted
  let s := setupOf e c order outcomes
  obtain ⟨dst, src, -, -, hload⟩ := (ZoneTables.start_eq_some_iff e c range m).mp hstart
  have hempty : m.statsRb = [] := by
    rw [ZoneTables.loaded_of_load e hload]
    rfl
  have hall := accountedFor_run s m hempty sched
  have hmaps := maps_run s m sched
  have hknown : ∀ evt ∈ (run (step s) (start s m) sched).maps.statsRb,
      ∃ name, name ≠ c.sourceZone ∧ c.zoneID name = some evt.dstZoneId := by
    rw [hmaps]
    exact exists_zone_of_event h hstart (packets sched)
  have hlookup : ∀ addr z, LpmTrie.lookup m.zoneLpm (lpmKey e addr) = some z →
      ∃ name, name ≠ c.sourceZone ∧ c.zoneID name = some z :=
    fun _ _ => exists_zone_of_lookup h hstart
  have hsamples : ∀ raw ∈ (run (step s) (start s m) sched).exporter.processed, ∃ i isRetrans,
      classify e (buildZoneIndex (c.remoteZones order)) raw = .zone i isRetrans := by
    intro raw hraw
    have hmem := List.mem_map_of_mem (f := parseStatsEvent e) hraw
    have hdecoded := hall.decoded
    rw [show parseStatsEvent s.endian = parseStatsEvent e from rfl] at hdecoded
    rw [hdecoded] at hmem
    obtain ⟨evt, hevt, hparse⟩ := List.mem_map.mp hmem
    obtain ⟨name, hne, hz⟩ := hknown evt (List.mem_of_mem_take hevt)
    obtain ⟨idx, -, hget⟩ := exists_index h order hne hz
    refine ⟨idx, evt.isRetrans ≠ 0#8, ?_⟩
    simp only [classify, ← hparse, hget]
  have hpackets := fun (q q' : U8 → Bool → Bool)
      (hq : ∀ z r, (∃ name, name ≠ c.sourceZone ∧ c.zoneID name = some z) → q z r = q' z r) =>
    countedPackets_congr hlookup hq (packets sched)
  have hwaiting := fun (q q' : U8 → Bool → Bool)
      (hq : ∀ z r, (∃ name, name ≠ c.sourceZone ∧ c.zoneID name = some z) → q z r = q' z r) =>
    account_congr s m (packets sched) (run (step s) (start s m) sched) hq hlookup hknown
  refine ⟨hsamples, ?_, ?_⟩
  · have hnone := hpackets (unmapped s) (fun _ _ => false) fun z r hz => by
      obtain ⟨name, hne, hid⟩ := hz
      obtain ⟨idx, -, hget⟩ := exists_index h order hne hid
      exact decide_eq_false (by rw [show s.zoneByID.get z = some idx from hget]; simp)
    have hcounted := hall.unknown
    rw [show s.endian = e from rfl, hnone.1] at hcounted
    obtain ⟨overflows, hzero⟩ := hcounted
    have hcount : countedPackets e m (packets sched) (fun _ _ => false) = 0 := by
      refine List.countP_eq_zero.mpr fun t _ => ?_
      cases t.2 <;> simp [countedAs]
    rw [hcount, account] at hzero
    have hunknown : (run (step s) (start s m) sched).exporter.acc.unknown.toNat = 0 := by omega
    exact BitVec.eq_of_toNat_eq hunknown
  · intro name z hne hz
    obtain ⟨idx, hidx, -⟩ := exists_index h order hne hz
    have hname : ((c.remoteZones order).get idx).dstZone = name := by rw [hidx]
    have hsegs : ∀ zoneId r, (∃ name, name ≠ c.sourceZone ∧ c.zoneID name = some zoneId) →
        ofZone s idx zoneId r = hasID z zoneId r := by
      intro zoneId r hzone
      exact decide_eq_decide.mpr (get_index_iff order h hne hz hname zoneId hzone)
    have hrets : ∀ zoneId r, (∃ name, name ≠ c.sourceZone ∧ c.zoneID name = some zoneId) →
        retransOfZone s idx zoneId r = retransWithID z zoneId r := by
      intro zoneId r hzone
      exact congrArg (· && r) (hsegs zoneId r hzone)
    refine ⟨idx, hidx, ?_, ?_⟩
    · rw [← (hpackets _ _ hsegs).1, ← hwaiting _ _ hsegs]
      exact hall.segs idx
    · rw [← (hpackets _ _ hrets).1, ← hwaiting _ _ hrets]
      exact hall.rets idx

/-- One packet whose event is read and counted. -/
def onePacket : List Action :=
  .packet (sampleSegment 1000#32 0x18#8 [1#8, 2#8] 2000000000#64) ::
    List.replicate 4 (.reader (.record (0#8, 0#8)))

theorem readme_counted_by_name :
    ∃ c m, (ZoneClassification.sampleConfig ZoneClassification.readmeZones).validate
        ZoneClassification.readmeZones.listed ZoneClassification.readmeZones.listed = .ok c ∧
      ZoneTables.start PrefixList .little c c.zones.listed = some m ∧
        let s := setupOf .little c c.zones.listed fun _ => .sample []
        CountedByName c.zones.listed (fun _ => .sample []) m (packets onePacket)
          (run (step s) (start s m) onePacket) := by
  obtain ⟨c, m, haccepted, hstart, -⟩ := ZoneClassification.exists_started
    (ZoneClassification.sampleConfig ZoneClassification.readmeZones) (fun _ => ()) ()
    (by decide +kernel)
  exact ⟨c, m, haccepted, hstart, counted_by_name _ _ haccepted hstart onePacket⟩

end PacketLoss.KnownZones
