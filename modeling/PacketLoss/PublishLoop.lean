import PacketLoss.ChangeDetection
import PacketLoss.DropReasons
import PacketLoss.ZoneIdentity

/-!
The body of the poll loop: each call of `publish` polls the zones and makes the
counters that the summary of the tick is rendered from. They are what the change
detection takes for granted: numbered, never empty, and with distinct names.
-/
namespace PacketLoss.PublishLoop

open Machine ZoneConfig Config ValidConfig EmaStore DropReasons TickSummary ChangeDetection

variable {K : Type} [Field K] [LinearOrder K] (exp : K → K)

/-- What the loop keeps from tick to tick. -/
structure Publisher (K : Type) where
  tick : U64
  prevTCP : U64
  prevZoned : U64
  ema : EMAStore K

/-- What one call reads: the clock and the snapshot, the count of unknown zones, and
the debug counters if they can be read. -/
structure Observation where
  poll : Poll
  unknown : U64
  debug : Option DebugCounters

def zoneTick (counters : GoMap String CounterSnapshot) (st : ZoneState K) : ZoneTick K where
  zone := st.dstZone
  segments := (deltaOf counters st.dstZone).segments
  retrans := (deltaOf counters st.dstZone).retrans
  loss := st.instantPercent
  ema := st.emaPercent

variable (range : (s : EMAStore K) → s.zones.Range)

def publish (p : Publisher K) (o : Observation) : Publisher K × TickCounters K :=
  let tick := p.tick + 1#64
  let ema := update exp p.ema o.poll.now o.poll.counters
  let zones := (ema.snapshot (range ema)).map (zoneTick o.poll.counters)
  match o.debug with
  | some dbg =>
    (⟨tick, dbg.tcpPackets, dbg.tcpZoned, ema⟩,
      ⟨tick, zones, dbg.tcpPackets - p.prevTCP, dbg.tcpZoned - p.prevZoned, o.unknown⟩)
  | none => (⟨tick, p.prevTCP, p.prevZoned, ema⟩, ⟨tick, zones, 0#64, 0#64, o.unknown⟩)

/-- The loop after `t` calls, of which the first reads `observations 1`. -/
def publisherAfter (init : Publisher K) (observations : ℕ → Observation) : ℕ → Publisher K
  | 0 => init
  | t + 1 => (publish exp range (publisherAfter init observations t) (observations (t + 1))).1

/-- The counters of tick `t`. -/
def published (init : Publisher K) (observations : ℕ → Observation) : ℕ → TickCounters K
  | 0 => ⟨0#64, [], 0#64, 0#64, 0#64⟩
  | t + 1 => (publish exp range (publisherAfter exp range init observations t)
      (observations (t + 1))).2

def polls (observations : ℕ → Observation) (t : ℕ) : List Poll :=
  (List.range t).map fun i => (observations (i + 1)).poll

theorem polls_succ (observations : ℕ → Observation) (t : ℕ) :
    polls observations (t + 1) = polls observations t ++ [(observations (t + 1)).poll] := by
  rw [polls, List.range_succ, List.map_append]
  rfl

theorem publish_fst (p : Publisher K) (o : Observation) :
    (publish exp range p o).1.tick = p.tick + 1#64 ∧
      (publish exp range p o).1.ema = update exp p.ema o.poll.now o.poll.counters := by
  unfold publish
  rcases o.debug with _ | dbg
  · exact ⟨rfl, rfl⟩
  · exact ⟨rfl, rfl⟩

theorem publish_snd (p : Publisher K) (o : Observation) :
    (publish exp range p o).2.tick = p.tick + 1#64 ∧
      (publish exp range p o).2.zones =
        ((update exp p.ema o.poll.now o.poll.counters).snapshot
          (range (update exp p.ema o.poll.now o.poll.counters))).map
            (zoneTick o.poll.counters) := by
  unfold publish
  rcases o.debug with _ | dbg
  · exact ⟨rfl, rfl⟩
  · exact ⟨rfl, rfl⟩

variable (init : Publisher K) (observations : ℕ → Observation)

theorem tick_publisherAfter (t : ℕ) :
    (publisherAfter exp range init observations t).tick = init.tick + BitVec.ofNat 64 t := by
  induction t with
  | zero => exact (BitVec.add_zero _).symm
  | succ t ih =>
    rw [publisherAfter, (publish_fst exp range _ _).1, ih, BitVec.ofNat_add, BitVec.add_assoc]

/-- The store has seen one poll for each tick. -/
theorem ema_publisherAfter (t : ℕ) :
    (publisherAfter exp range init observations t).ema =
      runPolls exp init.ema (polls observations t) := by
  induction t with
  | zero => rfl
  | succ t ih =>
    rw [publisherAfter, (publish_fst exp range _ _).2, ih, polls_succ, runPolls, runPolls,
      List.foldl_append]
    rfl

/-- The zones of a tick are those of the store after its poll. -/
theorem zones_published (t : ℕ) :
    (published exp range init observations (t + 1)).zones =
      ((runPolls exp init.ema (polls observations (t + 1))).snapshot
        (range (runPolls exp init.ema (polls observations (t + 1))))).map
          (zoneTick (observations (t + 1)).poll.counters) := by
  have hrun : runPolls exp init.ema (polls observations (t + 1)) =
      update exp (publisherAfter exp range init observations t).ema
        (observations (t + 1)).poll.now (observations (t + 1)).poll.counters := by
    rw [← ema_publisherAfter exp range, publisherAfter, (publish_fst exp range _ _).2]
  rw [hrun]
  exact (publish_snd exp range _ _).2

variable {c : Config}

/-- The loop starts with a store for the remote zones. -/
def firstPublisher (c : Config) (order : c.zones.Range) : Publisher K :=
  ⟨0#64, 0#64, 0#64, newEMAStore c (c.remoteZones order)⟩

theorem exists_remoteZone (h : Valid c) (order : c.zones.Range) :
    ∃ z, z ∈ c.remoteZones order := by
  obtain ⟨entry, hentry, hne⟩ := h.remote
  have hname : entry.1 ∈ (c.remoteZones order).map ResolvedZone.dstZone := by
    rw [map_dstZone_remoteZones, sortStrings, List.mem_insertionSort, List.mem_filter]
    refine ⟨List.mem_map_of_mem ((order.mem_iff entry).mpr hentry), ?_⟩
    exact decide_eq_true hne
  obtain ⟨z, hz, -⟩ := List.mem_map.mp hname
  exact ⟨z, hz⟩

/-- Each zone is published under the name that it is stored under. -/
theorem dstZone_of_mem (order : c.zones.Range) (past : List Poll) {name : String}
    {st : ZoneState K}
    (hst : (runPolls exp (newEMAStore c (c.remoteZones order)) past).zones.get name = some st) :
    st.dstZone = name := by
  rw [get_runPolls, Option.map_eq_some_iff] at hst
  obtain ⟨st₀, hst₀, rfl⟩ := hst
  rw [ZoneIdentity.dstZone_zoneRun]
  unfold newEMAStore at hst₀
  rw [GoMap.get_ofEntries (by rw [List.map_map]; exact nodup_remoteZones order),
    List.mem_map] at hst₀
  obtain ⟨z, -, heq⟩ := hst₀
  obtain ⟨rfl, rfl⟩ := Prod.mk.inj heq
  rfl

/-- In an accepted config the ticks are as the change detection needs them. -/
theorem numbered_published (h : Valid c) (order : c.zones.Range)
    (observations : ℕ → Observation) :
    Numbered (published exp range (firstPublisher c order) observations) := by
  refine ⟨?_, ?_, ?_⟩
  · intro t hpos
    obtain ⟨t, rfl⟩ := Nat.exists_eq_succ_of_ne_zero hpos.ne'
    have htick := (publish_snd exp range
      (publisherAfter exp range (firstPublisher c order) observations t)
      (observations (t + 1))).1
    rw [tick_publisherAfter] at htick
    refine htick.trans ?_
    rw [Nat.succ_eq_add_one, BitVec.ofNat_add]
    exact congrArg (· + 1#64) (BitVec.zero_add _)
  · intro t hpos
    obtain ⟨t, rfl⟩ := Nat.exists_eq_succ_of_ne_zero hpos.ne'
    obtain ⟨z, hz⟩ := exists_remoteZone h order
    have hget := get_runPolls exp (newEMAStore c (c.remoteZones order))
      (polls observations (t + 1)) z.dstZone
    rw [get_newEMAStore c (nodup_remoteZones order) hz, Option.map_some,
      GoMap.get_eq_some_iff, ← GoMap.Range.mem_iff (range _)] at hget
    rw [Nat.succ_eq_add_one, zones_published, EMAStore.snapshot, List.map_map]
    intro hnil
    have hmem : _ ∈ (range (runPolls exp (firstPublisher c order).ema
      (polls observations (t + 1)))).order := hget
    rw [List.map_eq_nil_iff.mp hnil] at hmem
    exact absurd hmem List.not_mem_nil
  · intro t hpos
    obtain ⟨t, rfl⟩ := Nat.exists_eq_succ_of_ne_zero hpos.ne'
    rw [Nat.succ_eq_add_one, zones_published, EMAStore.snapshot, List.map_map, List.map_map]
    have hkeys : ∀ entry ∈ (range (runPolls exp (firstPublisher c order).ema
        (polls observations (t + 1)))).order, entry.2.dstZone = entry.1 := by
      intro entry hentry
      rw [GoMap.Range.mem_iff, ← GoMap.get_eq_some_iff] at hentry
      exact dstZone_of_mem exp order (polls observations (t + 1)) hentry
    have hmap := List.map_congr_left hkeys
    refine (congrArg List.Nodup hmap).mpr ?_
    rw [((range _).perm.map Prod.fst).nodup_iff]
    exact GoMap.nodup _

end PacketLoss.PublishLoop
