import PacketLoss.Pipeline

/-!
Every packet that is counted for a zone is accounted for in every state of the whole
path: its event found no room, or waits in the ring buffer, or its count is still to
be made, or is in a counter, or was swapped out. A set of events is given by what the
exporter looks at, the zone id and whether it is a retransmission.
-/
namespace PacketLoss.EndToEnd

open PathEgress hiding run
open Polling hiding start step
open Machine ZoneConfig KernelTrie DropReasons Counters EmaStore Schedules ExactlyOnce Pipeline

section Kernel

/-- The packet was counted, as one of those that `q` is about. -/
def countedAs (q : U8 → Bool → Bool) : Outcome → Bool
  | .left _ => false
  | .counted zoneId isRetrans => q zoneId isRetrans

def eventAs (q : U8 → Bool → Bool) (evt : StatsEvent) : Bool :=
  q evt.dstZoneId (evt.isRetrans ≠ 0#8)

/-- How many packets of a run were counted, of those that `q` is about. -/
def countedPackets {T : Type} [LpmTrie T] (e : Endian) (m : Maps T) (invs : List Invocation)
    (q : U8 → Bool → Bool) : ℕ := (trace e m invs).countP fun t => countedAs q t.2

/-- How many of these found no room in the ring buffer. -/
def lostPackets {T : Type} [LpmTrie T] (e : Endian) (m : Maps T) (invs : List Invocation)
    (q : U8 → Bool → Bool) : ℕ :=
  (trace e m invs).countP fun t => countedAs q t.2 && !t.1.reserve

theorem countP_submitted_single (q : U8 → Bool → Bool) (t : Invocation × Outcome) :
    (if countedAs q t.2 then 1 else 0) = (submitted t).toList.countP (eventAs q) +
      if countedAs q t.2 && !t.1.reserve then 1 else 0 := by
  obtain ⟨inv, out⟩ := t
  cases out with
  | left reason => rfl
  | counted zoneId isRetrans =>
    have hevt : eventAs q ⟨inv.skb.ifindex, zoneId, if isRetrans then 1#8 else 0#8⟩ =
        q zoneId isRetrans := by
      cases isRetrans <;> rfl
    cases hroom : inv.reserve
    · cases hq : q zoneId isRetrans <;> simp [submitted, countedAs, hroom, hq]
    · cases hq : q zoneId isRetrans <;> simp [submitted, countedAs, hroom, hevt, hq]

/-- Each packet that was counted has submitted its event, or found no room. -/
theorem countP_submitted (q : U8 → Bool → Bool) (l : List (Invocation × Outcome)) :
    l.countP (fun t => countedAs q t.2) = (l.filterMap submitted).countP (eventAs q) +
      l.countP fun t => countedAs q t.2 && !t.1.reserve := by
  induction l with
  | nil => rfl
  | cons t l ih =>
    have hhead := countP_submitted_single q t
    have hcons : (t :: l).filterMap submitted =
        (submitted t).toList ++ l.filterMap submitted := by
      rw [List.filterMap_cons]
      cases submitted t <;> rfl
    rw [List.countP_cons, List.countP_cons, ih, hcons, List.countP_append, hhead]
    omega

theorem length_trace {T : Type} [LpmTrie T] (e : Endian) (m : Maps T) (invs : List Invocation) :
    (trace e m invs).length = invs.length := by
  induction invs generalizing m with
  | nil => rfl
  | cons inv invs ih => rw [trace, List.length_cons, ih, List.length_cons]

end Kernel

variable {T : Type} [LpmTrie T] (c : Setup)

/-! The sets of events that the exporter keeps a count of. -/

def ofZone (i : Fin c.zones.length) : U8 → Bool → Bool :=
  fun zoneId _ => c.zoneByID.get zoneId = some i

def retransOfZone (i : Fin c.zones.length) : U8 → Bool → Bool :=
  fun zoneId isRetrans => c.zoneByID.get zoneId = some i && isRetrans

def unmapped : U8 → Bool → Bool := fun zoneId _ => c.zoneByID.get zoneId = none

def decodedAs (q : U8 → Bool → Bool) : Except FmtError StatsEvent → Bool
  | .ok evt => eventAs q evt
  | .error _ => false

theorem parseStatsEvent_eq (raw : List U8) :
    (raw.length < statsEventSize ∧ ∃ err, parseStatsEvent c.endian raw = .error err) ∨
      statsEventSize ≤ raw.length ∧ ∃ ifindex, parseStatsEvent c.endian raw =
        .ok ⟨ifindex, raw.getD 4 0#8, raw.getD 5 0#8⟩ := by
  unfold parseStatsEvent
  rcases Nat.lt_or_ge raw.length statsEventSize with hlt | hle
  · exact Or.inl ⟨hlt, ⟨_, if_pos hlt⟩⟩
  · exact Or.inr ⟨hle, ⟨_, if_neg (Nat.not_lt.mpr hle)⟩⟩

/-- Whether a sample is of a zone can be read off the event that it decodes to. -/
theorem decodedAs_iff (raw : List U8) :
    (∀ i, OfZone c i raw ↔ decodedAs (ofZone c i) (parseStatsEvent c.endian raw)) ∧
      (∀ i, RetransOfZone c i raw ↔
        decodedAs (retransOfZone c i) (parseStatsEvent c.endian raw)) ∧
      (Unmapped c raw ↔ decodedAs (unmapped c) (parseStatsEvent c.endian raw)) := by
  rcases parseStatsEvent_eq c raw with ⟨hshort, err, hparse⟩ | ⟨hlong, ifindex, hparse⟩
  · have hnot : ¬statsEventSize ≤ raw.length := Nat.not_le.mpr hshort
    rw [hparse]
    simp [OfZone, RetransOfZone, Unmapped, decodedAs, hnot]
  · rw [hparse]
    simp [OfZone, RetransOfZone, Unmapped, decodedAs, eventAs, ofZone, retransOfZone, unmapped,
      hlong, -List.getD_eq_getElem?_getD]

/-- Samples that decode to given events are as many of each kind as the events. -/
theorem countP_decoded (p : List U8 → Prop) [DecidablePred p] (q : U8 → Bool → Bool)
    (hpq : ∀ raw, p raw ↔ decodedAs q (parseStatsEvent c.endian raw)) {raws : List (List U8)}
    {evts : List StatsEvent} (h : raws.map (parseStatsEvent c.endian) = evts.map .ok) :
    raws.countP p = evts.countP (eventAs q) := by
  have hraws : raws.countP p = (raws.map (parseStatsEvent c.endian)).countP (decodedAs q) := by
    rw [List.countP_map]
    apply List.countP_congr
    intro raw _
    simpa using hpq raw
  rw [hraws, h, List.countP_map]
  rfl

/-! The counts do not depend on how the reads end. -/

section Outcomes

variable (outcomes : ℕ → ReadOutcome) (s : System c.zones.length)

theorem swappedOut_withOutcomes (f : CounterSnapshot → U64) (i : Fin c.zones.length) :
    swappedOut (withOutcomes c outcomes) f s i = swappedOut c f s i := by
  unfold swappedOut inHand
  cases s.publisher <;> rfl

theorem totals_withOutcomes (i : Fin c.zones.length) :
    totalSegs (withOutcomes c outcomes) s i = totalSegs c s i ∧
      totalRets (withOutcomes c outcomes) s i = totalRets c s i := by
  unfold totalSegs totalRets
  exact ⟨congrArg (· + _) (swappedOut_withOutcomes c outcomes s _ i),
    congrArg (· + _) (swappedOut_withOutcomes c outcomes s _ i)⟩

/-- The accounts of the exporter alone, without the reads. -/
theorem counted_run (m : Maps T) (sched : List Action) :
    let s := (run (step c) (start c m) sched).exporter
    (∀ i, Counted (totalSegs c s i + dueSegs i s.reader) (s.processed.countP (OfZone c i))) ∧
      (∀ i, Counted (totalRets c s i + dueRets i s.reader)
        (s.processed.countP (RetransOfZone c i))) ∧
      Counted (s.acc.unknown.toNat + dueUnknown s.reader) (s.processed.countP (Unmapped c)) := by
  obtain ⟨outcomes, parties, hrun⟩ := exists_outcomes c m sched
  have hall : Accounted (withOutcomes c outcomes)
      (run (step c) (start c m) sched).exporter := by
    rw [hrun]
    exact (accounted_run (withOutcomes c outcomes) parties).2
  refine ⟨fun i => ?_, fun i => ?_, hall.unknown⟩
  · rw [← (totals_withOutcomes c outcomes _ i).1]
    exact hall.segs i
  · rw [← (totals_withOutcomes c outcomes _ i).2]
    exact hall.rets i

end Outcomes

/-- The events that were submitted and that the reader has not processed yet. -/
def waiting (p : State T c.zones.length) : List StatsEvent :=
  p.maps.statsRb.drop p.exporter.processed.length

/-- In the order in which they were submitted, the events are processed or wait. -/
theorem decoded_run (m : Maps T) (hm : m.statsRb = []) (sched : List Action) :
    let p := run (step c) (start c m) sched
    p.exporter.processed.map (parseStatsEvent c.endian) =
      (p.maps.statsRb.take p.exporter.processed.length).map .ok := by
  intro p
  have hhanded : Handed c p := handed_run c hm sched
  have htake := congrArg (List.take p.exporter.processed.length) hhanded.decoded
  rw [← List.map_take, ← List.map_take, received, List.take_left', List.take_take] at htake
  · refine htake.trans ?_
    rw [min_eq_left]
    have hlen := congrArg List.length hhanded.decoded
    rw [List.length_map, List.length_map, received, List.length_append, List.length_take] at hlen
    omega
  · rfl

theorem counted_add {total count : ℕ} (h : Counted total count) (k : ℕ) :
    Counted (total + k) (count + k) := by
  obtain ⟨overflows, rfl⟩ := h
  exact ⟨overflows, by omega⟩

/-- What was counted of the processed samples makes up for the packets, together with
the events that wait and those that found no room. -/
theorem counted_packets (m : Maps T) (hm : m.statsRb = []) (sched : List Action) {total : ℕ}
    (p : List U8 → Prop) [DecidablePred p] (q : U8 → Bool → Bool)
    (hpq : ∀ raw, p raw ↔ decodedAs q (parseStatsEvent c.endian raw))
    (h : Counted total ((run (step c) (start c m) sched).exporter.processed.countP p)) :
    Counted (total + (waiting c (run (step c) (start c m) sched)).countP (eventAs q) +
        lostPackets c.endian m (packets sched) q)
      (countedPackets c.endian m (packets sched) q) := by
  have hprocessed := countP_decoded c p q hpq (decoded_run c m hm sched)
  have hsubmitted := statsRb_run c.endian m (packets sched)
  rw [hm, List.nil_append, ← maps_run] at hsubmitted
  rw [countedPackets, countP_submitted, ← hsubmitted, lostPackets]
  apply counted_add
  rw [← List.take_append_drop
    (run (step c) (start c m) sched).exporter.processed.length
    (run (step c) (start c m) sched).maps.statsRb, List.countP_append, ← hprocessed]
  exact counted_add h _

/-- What is known of the packets that `q` is about, if the exporter counted `total`. -/
def account (m : Maps T) (invs : List Invocation) (p : State T c.zones.length)
    (q : U8 → Bool → Bool) (total : ℕ) : ℕ :=
  total + (waiting c p).countP (eventAs q) + lostPackets c.endian m invs q

/-- Where the packets of a run are that were counted. -/
structure AccountedFor (m : Maps T) (invs : List Invocation) (p : State T c.zones.length) :
    Prop where
  decoded : p.exporter.processed.map (parseStatsEvent c.endian) =
    (p.maps.statsRb.take p.exporter.processed.length).map .ok
  segs : ∀ i, Counted
    (account c m invs p (ofZone c i) (totalSegs c p.exporter i + dueSegs i p.exporter.reader))
    (countedPackets c.endian m invs (ofZone c i))
  rets : ∀ i, Counted
    (account c m invs p (retransOfZone c i)
      (totalRets c p.exporter i + dueRets i p.exporter.reader))
    (countedPackets c.endian m invs (retransOfZone c i))
  unknown : Counted
    (account c m invs p (unmapped c)
      (p.exporter.acc.unknown.toNat + dueUnknown p.exporter.reader))
    (countedPackets c.endian m invs (unmapped c))

theorem countedPackets_le (e : Endian) (m : Maps T) (invs : List Invocation)
    (q : U8 → Bool → Bool) : countedPackets e m invs q ≤ invs.length := by
  rw [countedPackets, ← length_trace e m invs]
  exact List.countP_le_length

/-- The accounts of the whole path, which are exact for fewer than `2 ^ 64` packets. -/
structure ExactlyAccountedFor (m : Maps T) (invs : List Invocation)
    (p : State T c.zones.length) : Prop extends AccountedFor c m invs p where
  exact : invs.length < 2 ^ 64 →
    (∀ i, account c m invs p (ofZone c i)
        (totalSegs c p.exporter i + dueSegs i p.exporter.reader) =
      countedPackets c.endian m invs (ofZone c i)) ∧
    (∀ i, account c m invs p (retransOfZone c i)
        (totalRets c p.exporter i + dueRets i p.exporter.reader) =
      countedPackets c.endian m invs (retransOfZone c i)) ∧
    account c m invs p (unmapped c)
        (p.exporter.acc.unknown.toNat + dueUnknown p.exporter.reader) =
      countedPackets c.endian m invs (unmapped c)

theorem accountedFor_run (m : Maps T) (hm : m.statsRb = []) (sched : List Action) :
    AccountedFor c m (packets sched) (run (step c) (start c m) sched) := by
  obtain ⟨hsegs, hrets, hunknown⟩ := counted_run c m sched
  constructor
  · exact decoded_run c m hm sched
  · exact fun i => counted_packets c m hm sched _ _ (fun raw => (decodedAs_iff c raw).1 i) (hsegs i)
  · exact fun i =>
      counted_packets c m hm sched _ _ (fun raw => (decodedAs_iff c raw).2.1 i) (hrets i)
  · exact counted_packets c m hm sched _ _ (fun raw => (decodedAs_iff c raw).2.2) hunknown

/-- Whatever packets come, whatever the reads return and in whatever order the steps are
taken: in every state each counted packet is lost for want of room, waiting, or counted
once. -/
theorem packets_accounted_for (zoneLpm srcZoneLpm : T) (sched : List Action) :
    ExactlyAccountedFor c (Maps.loaded zoneLpm srcZoneLpm) (packets sched)
      (run (step c) (start c (Maps.loaded zoneLpm srcZoneLpm)) sched) := by
  have hall := accountedFor_run c (Maps.loaded zoneLpm srcZoneLpm) rfl sched
  refine ⟨hall, fun hlt => ?_⟩
  have hfew := fun q => (countedPackets_le c.endian (Maps.loaded zoneLpm srcZoneLpm)
    (packets sched) q).trans_lt hlt
  exact ⟨fun i => (hall.segs i).eq_of_lt (hfew _), fun i => (hall.rets i).eq_of_lt (hfew _),
    hall.unknown.eq_of_lt (hfew _)⟩

end PacketLoss.EndToEnd
