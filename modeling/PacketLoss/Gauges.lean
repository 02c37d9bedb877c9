import PacketLoss.BinaryRounding
import PacketLoss.LossPercent
import PacketLoss.PublishLoop

/-!
internal/metrics/exporter.go: three vectors of gauges that `Publish` sets after each
poll, one call of `Set` after the other, while scrapes read them. The vectors are
those of the metrics library; the model takes any implementation that keeps their
contract. What a scrape between two calls shows of a zone is what the last poll or the
poll before it has made of it. The first call for a series begins it at 0, which a scrape
can see. The percents are exact here, and their rounding down is that of `float64`.
-/
namespace PacketLoss.Gauges

open Machine ZoneConfig Config ValidConfig EmaStore MovingAverage LossPercent PublishLoop
  BinaryRounding

structure Labels where
  sourceZone : String
  dstZone : String
deriving DecidableEq

/-- The contract of `GaugeVec`: `With(labels).Set(v)` makes the series if need be, and
a scrape collects the series that there are. -/
class GaugeVec (K : outParam Type) (V : Type) where
  new : V
  set : V → Labels → K → V
  collect : V → Labels → Option K
  collect_new : ∀ labels, collect new labels = none
  collect_set : ∀ v labels x labels', collect (set v labels x) labels' =
    if labels' = labels then some x else collect v labels'

instance (K : Type) : GaugeVec K (GoMap Labels K) where
  new := GoMap.empty
  set v labels x := v.set labels x
  collect v labels := v.get labels
  collect_new := GoMap.get_empty
  collect_set v labels x labels' := GoMap.get_set v labels x labels'

inductive Gauge
  | percent
  | percentEMA
  | emaTimestamp
deriving DecidableEq

structure Exporter (V : Type) where
  percent : V
  percentEMA : V
  emaTimestamp : V

/-- One `With(labels).Set(v)`. -/
structure SetCall (K : Type) where
  gauge : Gauge
  labels : Labels
  value : K

namespace Exporter

variable {K V : Type} [GaugeVec K V]

def newExporter : Exporter V := ⟨GaugeVec.new, GaugeVec.new, GaugeVec.new⟩

def shows (e : Exporter V) (labels : Labels) : Gauge → Option K
  | .percent => GaugeVec.collect e.percent labels
  | .percentEMA => GaugeVec.collect e.percentEMA labels
  | .emaTimestamp => GaugeVec.collect e.emaTimestamp labels

def apply (e : Exporter V) (c : SetCall K) : Exporter V :=
  match c.gauge with
  | .percent => { e with percent := GaugeVec.set e.percent c.labels c.value }
  | .percentEMA => { e with percentEMA := GaugeVec.set e.percentEMA c.labels c.value }
  | .emaTimestamp => { e with emaTimestamp := GaugeVec.set e.emaTimestamp c.labels c.value }

/-- `With(labels)` alone: a series that is not there yet begins at 0. -/
def withLabels [Zero K] (e : Exporter V) (c : SetCall K) : Exporter V :=
  if (e.shows c.labels c.gauge).isSome then e else e.apply { c with value := 0 }

variable {e : Exporter V} {labels : Labels} {gauge : Gauge}

theorem shows_new : (newExporter : Exporter V).shows labels gauge = none := by
  cases gauge with
  | percent => exact GaugeVec.collect_new labels
  | percentEMA => exact GaugeVec.collect_new labels
  | emaTimestamp => exact GaugeVec.collect_new labels

def Hits (labels : Labels) (gauge : Gauge) (c : SetCall K) : Prop :=
  labels = c.labels ∧ gauge = c.gauge

theorem shows_apply_of_hits {c : SetCall K} (h : Hits labels gauge c) :
    (e.apply c).shows labels gauge = some c.value := by
  obtain ⟨rfl, rfl⟩ := h
  rcases c with ⟨_ | _ | _, labels, value⟩
  · exact (GaugeVec.collect_set _ _ _ _).trans (if_pos rfl)
  · exact (GaugeVec.collect_set _ _ _ _).trans (if_pos rfl)
  · exact (GaugeVec.collect_set _ _ _ _).trans (if_pos rfl)

theorem shows_apply_of_not_hits {c : SetCall K} (h : ¬Hits labels gauge c) :
    (e.apply c).shows labels gauge = e.shows labels gauge := by
  by_cases hlabels : labels = c.labels
  · have hgauge : gauge ≠ c.gauge := fun heq => h ⟨hlabels, heq⟩
    rcases c with ⟨_ | _ | _, labels', value⟩
    · cases gauge with
      | percent => exact absurd rfl hgauge
      | percentEMA => rfl
      | emaTimestamp => rfl
    · cases gauge with
      | percent => rfl
      | percentEMA => exact absurd rfl hgauge
      | emaTimestamp => rfl
    · cases gauge with
      | percent => rfl
      | percentEMA => rfl
      | emaTimestamp => exact absurd rfl hgauge
  · have hset : ∀ v : V, GaugeVec.collect (GaugeVec.set v c.labels c.value) labels =
        GaugeVec.collect v labels := fun v => by rw [GaugeVec.collect_set, if_neg hlabels]
    rcases c with ⟨_ | _ | _, labels', value⟩
    · cases gauge with
      | percent => exact hset _
      | percentEMA => rfl
      | emaTimestamp => rfl
    · cases gauge with
      | percent => rfl
      | percentEMA => exact hset _
      | emaTimestamp => rfl
    · cases gauge with
      | percent => rfl
      | percentEMA => rfl
      | emaTimestamp => exact hset _

/-- Only the series of the call can be another, and only if it was not there. -/
theorem shows_withLabels [Zero K] {c : SetCall K} {x : K}
    (hx : (e.withLabels c).shows labels gauge = some x) :
    e.shows labels gauge = some x ∨
      Hits labels gauge c ∧ e.shows labels gauge = none ∧ x = 0 := by
  unfold withLabels at hx
  split_ifs at hx with hthere
  · exact Or.inl hx
  · by_cases hhits : Hits labels gauge c
    · rw [shows_apply_of_hits (e := e) (c := { c with value := (0 : K) }) hhits,
        Option.some.injEq] at hx
      obtain ⟨rfl, rfl⟩ := hhits
      exact Or.inr ⟨⟨rfl, rfl⟩, Option.not_isSome_iff_eq_none.mp hthere, hx.symm⟩
    · rw [shows_apply_of_not_hits (e := e) (c := { c with value := (0 : K) }) hhits] at hx
      exact Or.inl hx

theorem shows_foldl_of_not_hits {calls : List (SetCall K)}
    (h : ∀ c ∈ calls, ¬Hits labels gauge c) :
    (calls.foldl apply e).shows labels gauge = e.shows labels gauge := by
  induction calls generalizing e with
  | nil => rfl
  | cons c calls ih =>
    obtain ⟨hfirst, hrest⟩ := List.forall_mem_cons.mp h
    rw [List.foldl_cons, ih hrest, shows_apply_of_not_hits hfirst]

/-- A series that one call sets is as before up to that call, and as set from it on. -/
theorem shows_foldl_take {calls pre post : List (SetCall K)} {c : SetCall K}
    (hsplit : calls = pre ++ c :: post) (hhits : Hits labels gauge c)
    (hpre : ∀ c ∈ pre, ¬Hits labels gauge c) (hpost : ∀ c ∈ post, ¬Hits labels gauge c)
    (k : ℕ) :
    ((calls.take k).foldl apply e).shows labels gauge =
      if k ≤ pre.length then e.shows labels gauge else some c.value := by
  rw [hsplit, List.take_append, List.foldl_append]
  split
  next hle =>
    rw [Nat.sub_eq_zero_of_le hle, List.take_zero]
    exact shows_foldl_of_not_hits fun c hc => hpre c (List.mem_of_mem_take hc)
  next hlt =>
    obtain ⟨j, hj⟩ := Nat.exists_eq_succ_of_ne_zero (Nat.sub_ne_zero_of_lt (not_le.mp hlt))
    rw [hj, List.take_succ_cons, List.foldl_cons,
      shows_foldl_of_not_hits fun c hc => hpost c (List.mem_of_mem_take hc)]
    exact shows_apply_of_hits hhits

end Exporter

section Publish

variable {K V : Type} [Field K] [LinearOrder K] [FloorRing K] [GaugeVec K V]

/-- The product and the quotient are rounded, and the floor is exact. -/
def floorToTwoDecimals (v : K) : K :=
  float64.round ((⌊float64.round (v * (100 : ℕ))⌋ : K) / (100 : ℕ))

/-- Seconds from the zero time to 1970. -/
def unixToInternal : ℤ := 62135596800

/-- `Time.Unix` -/
def unix (t : Time) : ℤ := t / 1000000000 - unixToInternal

def labelsOf (st : ZoneState K) : Labels := ⟨st.sourceZone, st.dstZone⟩

/-- The body of the loop of `Publish`. -/
def Exporter.publishState (e : Exporter V) (st : ZoneState K) : Exporter V :=
  let labels := labelsOf st
  let e := { e with
    percent := GaugeVec.set e.percent labels (floorToTwoDecimals st.instantPercent) }
  let e := { e with
    percentEMA := GaugeVec.set e.percentEMA labels (floorToTwoDecimals st.emaPercent) }
  if st.lastUpdate ≠ 0 then
    { e with emaTimestamp := GaugeVec.set e.emaTimestamp labels ((unix st.lastUpdate : ℤ) : K) }
  else e

def Exporter.publish (e : Exporter V) (states : List (ZoneState K)) : Exporter V :=
  states.foldl Exporter.publishState e

def timestampCall (st : ZoneState K) : List (SetCall K) :=
  if st.lastUpdate ≠ 0 then [⟨.emaTimestamp, labelsOf st, ((unix st.lastUpdate : ℤ) : K)⟩] else []

/-- The calls for one zone, in their order. -/
def setCalls (st : ZoneState K) : List (SetCall K) :=
  ⟨.percent, labelsOf st, floorToTwoDecimals st.instantPercent⟩ ::
    ⟨.percentEMA, labelsOf st, floorToTwoDecimals st.emaPercent⟩ :: timestampCall st

theorem publishState_eq (e : Exporter V) (st : ZoneState K) :
    e.publishState st = (setCalls st).foldl Exporter.apply e := by
  unfold Exporter.publishState setCalls timestampCall
  by_cases hset : st.lastUpdate ≠ 0
  · rw [if_pos hset, if_pos hset]
    rfl
  · rw [if_neg hset, if_neg hset]
    rfl

theorem publish_eq (e : Exporter V) (states : List (ZoneState K)) :
    e.publish states = (states.flatMap setCalls).foldl Exporter.apply e := by
  induction states generalizing e with
  | nil => rfl
  | cons st states ih =>
    rw [List.flatMap_cons, List.foldl_append, ← publishState_eq]
    exact ih (e.publishState st)

theorem labels_of_mem_setCalls {st : ZoneState K} {c : SetCall K} (hc : c ∈ setCalls st) :
    c.labels = labelsOf st := by
  unfold setCalls timestampCall at hc
  split at hc
  · simp only [List.mem_cons, List.not_mem_nil, or_false] at hc
    rcases hc with rfl | rfl | rfl
    · rfl
    · rfl
    · rfl
  · simp only [List.mem_cons, List.not_mem_nil, or_false] at hc
    rcases hc with rfl | rfl
    · rfl
    · rfl

/-- What the series of a zone shows when the zone has been published in this state. -/
def shown (st : ZoneState K) : Gauge → Option K
  | .percent => some (floorToTwoDecimals st.instantPercent)
  | .percentEMA => some (floorToTwoDecimals st.emaPercent)
  | .emaTimestamp => if st.lastUpdate ≠ 0 then some ((unix st.lastUpdate : ℤ) : K) else none

/-- The three series of a zone are set one after the other. -/
def Gauge.place : Gauge → ℕ
  | .percent => 0
  | .percentEMA => 1
  | .emaTimestamp => 2

variable {e : Exporter V}

theorem not_hits_of_labels {labels : Labels} {states : List (ZoneState K)}
    (h : ∀ st ∈ states, labelsOf st ≠ labels) (gauge : Gauge) :
    ∀ c ∈ states.flatMap setCalls, ¬Exporter.Hits labels gauge c := by
  intro c hc hhits
  obtain ⟨st, hst, hmem⟩ := List.mem_flatMap.mp hc
  exact h st hst ((labels_of_mem_setCalls hmem).symm.trans hhits.1.symm)

section Changes

variable {states pre post : List (ZoneState K)} {st : ZoneState K}
  (hsplit : states = pre ++ st :: post)
  (hothers : ∀ st' ∈ pre ++ post, labelsOf st' ≠ labelsOf st) {gauge : Gauge}
include hsplit hothers

/-- The calls for the other zones do not change the series of this one. -/
theorem shows_take_of_call (front : List (SetCall K)) {back : List (SetCall K)} {c : SetCall K}
    (hcall : setCalls st = front ++ c :: back) (hgauge : gauge = c.gauge)
    (hone : ∀ c' ∈ front ++ back, gauge ≠ c'.gauge) (k : ℕ) :
    (((states.flatMap setCalls).take k).foldl Exporter.apply e).shows (labelsOf st) gauge =
      if k ≤ (pre.flatMap setCalls).length + front.length then e.shows (labelsOf st) gauge
      else some c.value := by
  have hpre := not_hits_of_labels
    (fun st' hst' => hothers st' (List.mem_append_left post hst')) gauge
  have hpost := not_hits_of_labels
    (fun st' hst' => hothers st' (List.mem_append_right pre hst')) gauge
  have hcalls : states.flatMap setCalls =
      (pre.flatMap setCalls ++ front) ++ c :: (back ++ post.flatMap setCalls) := by
    rw [hsplit, List.flatMap_append, List.flatMap_cons, hcall]
    simp
  have hmem : c ∈ setCalls st := by simp [hcall]
  rw [← List.length_append]
  apply Exporter.shows_foldl_take hcalls ⟨(labels_of_mem_setCalls hmem).symm, hgauge⟩
  · intro c' hc' hhits
    rcases List.mem_append.mp hc' with hc' | hc'
    · exact hpre c' hc' hhits
    · exact hone c' (List.mem_append_left back hc') hhits.2
  · intro c' hc' hhits
    rcases List.mem_append.mp hc' with hc' | hc'
    · exact hone c' (List.mem_append_right front hc') hhits.2
    · exact hpost c' hc' hhits

/-- While the states are published, each series of a zone changes once. -/
theorem shows_take_publish
    (hnew : gauge = .emaTimestamp → st.lastUpdate = 0 →
      e.shows (labelsOf st) .emaTimestamp = none) (k : ℕ) :
    (((states.flatMap setCalls).take k).foldl Exporter.apply e).shows (labelsOf st) gauge =
      if k ≤ (pre.flatMap setCalls).length + gauge.place then e.shows (labelsOf st) gauge
      else shown st gauge := by
  let first : SetCall K := ⟨.percent, labelsOf st, floorToTwoDecimals st.instantPercent⟩
  let second : SetCall K := ⟨.percentEMA, labelsOf st, floorToTwoDecimals st.emaPercent⟩
  have hcalls : setCalls st = first :: second :: timestampCall st := rfl
  have hstamp : ∀ c ∈ timestampCall st, c.gauge = .emaTimestamp := by
    intro c hc
    unfold timestampCall at hc
    split at hc
    · rw [List.mem_singleton.mp hc]
    · cases hc
  cases gauge with
  | percent =>
    apply shows_take_of_call hsplit hothers [] hcalls rfl
    intro c' hc'
    rcases List.mem_cons.mp hc' with rfl | hc'
    · exact fun heq => Gauge.noConfusion heq
    · rw [hstamp c' hc']
      exact fun heq => Gauge.noConfusion heq
  | percentEMA =>
    apply shows_take_of_call hsplit hothers [first] hcalls rfl
    intro c' hc'
    rcases List.mem_cons.mp hc' with rfl | hc'
    · exact fun heq => Gauge.noConfusion heq
    · rw [hstamp c' hc']
      exact fun heq => Gauge.noConfusion heq
  | emaTimestamp =>
    by_cases hset : st.lastUpdate ≠ 0
    · rw [timestampCall, if_pos hset] at hcalls
      rw [shown, if_pos hset]
      apply shows_take_of_call hsplit hothers [first, second] hcalls rfl
      intro c' hc'
      simp only [List.append_nil, List.mem_cons, List.not_mem_nil, or_false] at hc'
      rcases hc' with rfl | rfl
      · exact fun heq => Gauge.noConfusion heq
      · exact fun heq => Gauge.noConfusion heq
    · -- Nothing is set, and nothing was set before.
      rw [timestampCall, if_neg hset] at hcalls
      have hnone := hnew rfl (not_not.mp hset)
      rw [shown, if_neg hset, hnone, ite_self, ← hnone]
      apply Exporter.shows_foldl_of_not_hits
      intro c hc hhits
      obtain ⟨st', hst', hmem⟩ := List.mem_flatMap.mp (List.mem_of_mem_take hc)
      have hlabels := (labels_of_mem_setCalls hmem).symm.trans hhits.1.symm
      rw [hsplit] at hst'
      rcases List.mem_append.mp hst' with hst' | hst'
      · exact hothers st' (List.mem_append_left post hst') hlabels
      · rcases List.mem_cons.mp hst' with rfl | hst'
        · rw [hcalls] at hmem
          simp only [List.mem_cons, List.not_mem_nil, or_false] at hmem
          rcases hmem with rfl | rfl
          · exact Gauge.noConfusion hhits.2
          · exact Gauge.noConfusion hhits.2
        · exact hothers st' (List.mem_append_right pre hst') hlabels

end Changes

end Publish

section Scrapes

variable {K : Type} [Field K] [LinearOrder K] (exp : K → K)
  (range : (s : EMAStore K) → s.zones.Range) (c : Config) (order : c.zones.Range)
  (observations : ℕ → Observation)

/-- The states that tick `t` publishes. -/
def snapshotAt (t : ℕ) : List (ZoneState K) :=
  let ema := (publisherAfter exp range (firstPublisher c order) observations t).ema
  ema.snapshot (range ema)

def stateAfter (z : ResolvedZone) (t : ℕ) : ZoneState K :=
  zoneRun exp c z.dstZone (newZoneState c z) (polls observations t)

def seriesOf (z : ResolvedZone) : Labels := ⟨z.sourceZone, z.dstZone⟩

theorem sourceZone_zoneRun (name : String) (st : ZoneState K) (past : List Poll) :
    (zoneRun exp c name st past).sourceZone = st.sourceZone := by
  induction past generalizing st with
  | nil => rfl
  | cons p past ih =>
    refine (ih (updateZone exp c p.now (deltaOf p.counters name) st)).trans ?_
    have hslide : (slide st (deltaOf p.counters name)).sourceZone = st.sourceZone := by
      unfold slide
      split <;> rfl
    rw [← hslide]
    unfold updateZone smooth
    dsimp only
    split <;> rfl

theorem labelsOf_stateAfter (z : ResolvedZone) (t : ℕ) :
    labelsOf (stateAfter exp c observations z t) = seriesOf z := by
  rw [labelsOf, stateAfter, sourceZone_zoneRun, ZoneIdentity.dstZone_zoneRun]
  rfl

theorem snapshotAt_eq (t : ℕ) : snapshotAt exp range c order observations t =
    (runPolls exp (newEMAStore c (c.remoteZones order)) (polls observations t)).snapshot
      (range (runPolls exp (newEMAStore c (c.remoteZones order)) (polls observations t))) := by
  have hrun := ema_publisherAfter exp range (firstPublisher c order) observations t
  rw [snapshotAt, hrun]
  rfl

theorem stateAfter_mem {z : ResolvedZone} (hz : z ∈ c.remoteZones order) (t : ℕ) :
    stateAfter exp c observations z t ∈ snapshotAt exp range c order observations t := by
  have hget := get_runPolls exp (newEMAStore c (c.remoteZones order)) (polls observations t)
    z.dstZone
  rw [get_newEMAStore c (nodup_remoteZones order) hz, Option.map_some, GoMap.get_eq_some_iff,
    ← GoMap.Range.mem_iff (range _)] at hget
  rw [snapshotAt_eq]
  exact List.mem_map_of_mem hget

theorem exists_of_mem_snapshotAt {st : ZoneState K} {t : ℕ}
    (hst : st ∈ snapshotAt exp range c order observations t) :
    ∃ z ∈ c.remoteZones order, st = stateAfter exp c observations z t := by
  rw [snapshotAt_eq] at hst
  exact exists_of_mem_snapshot exp c (nodup_remoteZones order) _ _ hst

theorem nodup_snapshotAt (t : ℕ) :
    ((snapshotAt exp range c order observations t).map labelsOf).Nodup := by
  have hnames : ((snapshotAt exp range c order observations t).map
      ZoneState.dstZone).Nodup := by
    rw [snapshotAt_eq, EMAStore.snapshot, List.map_map]
    have hkeys : ∀ entry ∈ (range (runPolls exp (newEMAStore c (c.remoteZones order))
        (polls observations t))).order, entry.2.dstZone = entry.1 := by
      intro entry hentry
      rw [GoMap.Range.mem_iff, ← GoMap.get_eq_some_iff] at hentry
      exact dstZone_of_mem exp order (polls observations t) hentry
    refine (congrArg List.Nodup (List.map_congr_left hkeys)).mpr ?_
    rw [((range _).perm.map Prod.fst).nodup_iff]
    exact GoMap.nodup _
  have hmap : (snapshotAt exp range c order observations t).map ZoneState.dstZone =
      ((snapshotAt exp range c order observations t).map labelsOf).map Labels.dstZone := by
    rw [List.map_map]
    rfl
  rw [hmap] at hnames
  exact hnames.of_map

/-- Each zone is published once. -/
theorem exists_split {z : ResolvedZone} (hz : z ∈ c.remoteZones order) (t : ℕ) :
    ∃ pre post, snapshotAt exp range c order observations t =
        pre ++ stateAfter exp c observations z t :: post ∧
      ∀ st ∈ pre ++ post, labelsOf st ≠ labelsOf (stateAfter exp c observations z t) := by
  obtain ⟨pre, post, hsplit⟩ :=
    List.append_of_mem (stateAfter_mem exp range c order observations hz t)
  refine ⟨pre, post, hsplit, fun st hst heq => ?_⟩
  have hnodup := nodup_snapshotAt exp range c order observations t
  rw [hsplit, List.map_append, List.map_cons, List.nodup_middle, List.nodup_cons,
    ← List.map_append] at hnodup
  exact hnodup.1 (heq ▸ List.mem_map_of_mem hst)

/-- A zone that was updated stays so. -/
theorem lastUpdate_eq_zero (hclock : ∀ t, (observations (t + 1)).poll.now ≠ 0)
    (z : ResolvedZone) {t : ℕ}
    (hzero : (stateAfter exp c observations z (t + 1)).lastUpdate = 0) :
    (stateAfter exp c observations z t).lastUpdate = 0 := by
  rw [stateAfter, polls_succ, WindowHistory.zoneRun_concat] at hzero
  rcases updateZone_cases exp c (observations (t + 1)).poll.now
    (deltaOf (observations (t + 1)).poll.counters z.dstZone)
    (zoneRun exp c z.dstZone (newZoneState c z) (polls observations t))
    with ⟨-, haveraged⟩ | ⟨-, hheld⟩
  · exact absurd (haveraged.lastUpdate.symm.trans hzero) (hclock t)
  · exact hheld.lastUpdate.symm.trans hzero

variable [FloorRing K] (V : Type) [GaugeVec K V]

/-- The gauges when `t` ticks have been published. -/
def exporterAfter : ℕ → Exporter V
  | 0 => Exporter.newExporter
  | t + 1 => (exporterAfter t).publish (snapshotAt exp range c order observations (t + 1))

/-- The gauges when `k` calls of tick `t + 1` have been made. -/
def exporterDuring (t k : ℕ) : Exporter V :=
  (((snapshotAt exp range c order observations (t + 1)).flatMap setCalls).take k).foldl
    Exporter.apply (exporterAfter exp range c order observations V t)

/-- The same, or, if `begun`, when `With` of the next call has returned. -/
def exporterAt (t k : ℕ) (begun : Bool) : Exporter V :=
  let e := exporterDuring exp range c order observations V t k
  if begun then
    (((snapshotAt exp range c order observations (t + 1)).flatMap setCalls)[k]?).elim e e.withLabels
  else e

variable {V}

/-- What a series of a zone shows when `t` ticks have been published. -/
def shownAfter (z : ResolvedZone) (t : ℕ) (gauge : Gauge) : Option K :=
  if t = 0 then none else shown (stateAfter exp c observations z t) gauge

theorem shownAfter_timestamp (hclock : ∀ t, (observations (t + 1)).poll.now ≠ 0)
    (z : ResolvedZone) {t : ℕ}
    (hzero : (stateAfter exp c observations z (t + 1)).lastUpdate = 0) :
    shownAfter exp c observations z t .emaTimestamp = none := by
  have hbefore := lastUpdate_eq_zero exp c observations hclock z hzero
  rw [shownAfter, shown, if_neg (not_not.mpr hbefore), ite_self]

theorem shows_exporterAfter {z : ResolvedZone} (hz : z ∈ c.remoteZones order) {gauge : Gauge}
    (hclock : gauge = .emaTimestamp → ∀ t, (observations (t + 1)).poll.now ≠ 0) (t : ℕ) :
    (exporterAfter exp range c order observations V t).shows (seriesOf z) gauge =
      shownAfter exp c observations z t gauge := by
  induction t with
  | zero => exact Exporter.shows_new
  | succ t ih =>
    obtain ⟨pre, post, hsplit, hothers⟩ :=
      exists_split exp range c order observations hz (t + 1)
    rw [← labelsOf_stateAfter exp c observations z (t + 1)] at ih ⊢
    have hnew : gauge = .emaTimestamp →
        (stateAfter exp c observations z (t + 1)).lastUpdate = 0 →
        (exporterAfter exp range c order observations V t).shows
          (labelsOf (stateAfter exp c observations z (t + 1))) .emaTimestamp = none := by
      rintro rfl hzero
      rw [ih]
      exact shownAfter_timestamp exp c observations (hclock rfl) z hzero
    let calls := (snapshotAt exp range c order observations (t + 1)).flatMap setCalls
    have hall := shows_take_publish hsplit hothers hnew
      (calls.length + ((pre.flatMap setCalls).length + gauge.place + 1))
    rw [List.take_of_length_le (Nat.le_add_right _ _), if_neg (by omega), ← publish_eq] at hall
    exact hall

theorem shows_exporterDuring {z : ResolvedZone} (hz : z ∈ c.remoteZones order) (t : ℕ) :
    ∃ n, ∀ gauge, (gauge = .emaTimestamp → ∀ t, (observations (t + 1)).poll.now ≠ 0) →
      ∀ k, (exporterDuring exp range c order observations V t k).shows (seriesOf z) gauge =
        if k ≤ n + gauge.place then shownAfter exp c observations z t gauge
        else shownAfter exp c observations z (t + 1) gauge := by
  obtain ⟨pre, post, hsplit, hothers⟩ := exists_split exp range c order observations hz (t + 1)
  refine ⟨(pre.flatMap setCalls).length, fun gauge hclock k => ?_⟩
  have hbefore := shows_exporterAfter (V := V) exp range c order observations hz hclock t
  rw [← hbefore, exporterDuring]
  rw [← labelsOf_stateAfter exp c observations z (t + 1)] at hbefore ⊢
  apply shows_take_publish hsplit hothers
  rintro rfl hzero
  rw [hbefore]
  exact shownAfter_timestamp exp c observations (hclock rfl) z hzero

/-- Whatever the order of the zones in the snapshots: after any number of calls each series
of a zone shows what the last published tick made of it or what this tick makes of it,
and the series of a zone change one after the other. -/
theorem scrape_between_ticks (hclock : ∀ t, (observations (t + 1)).poll.now ≠ 0)
    {z : ResolvedZone} (hz : z ∈ c.remoteZones order) (t : ℕ) :
    ∃ n, ∀ gauge k,
      (exporterDuring exp range c order observations V t k).shows (seriesOf z) gauge =
        if k ≤ n + gauge.place then shownAfter exp c observations z t gauge
        else shownAfter exp c observations z (t + 1) gauge := by
  obtain ⟨n, hn⟩ := shows_exporterDuring (V := V) exp range c order observations hz t
  exact ⟨n, fun gauge k => hn gauge (fun _ => hclock) k⟩

theorem shows_others {labels : Labels} (h : ∀ z ∈ c.remoteZones order, labels ≠ seriesOf z)
    (gauge : Gauge) (t k : ℕ) :
    (exporterDuring exp range c order observations V t k).shows labels gauge = none := by
  have hnot : ∀ t, ∀ call ∈ (snapshotAt exp range c order observations t).flatMap setCalls,
      ¬Exporter.Hits labels gauge call := by
    intro t
    apply not_hits_of_labels
    intro st hst hlabels
    obtain ⟨z, hz, rfl⟩ := exists_of_mem_snapshotAt exp range c order observations hst
    rw [labelsOf_stateAfter] at hlabels
    exact h z hz hlabels.symm
  have hafter : (exporterAfter exp range c order observations V t).shows labels gauge = none := by
    induction t with
    | zero => exact Exporter.shows_new
    | succ t ih => rw [exporterAfter, publish_eq, Exporter.shows_foldl_of_not_hits (hnot _), ih]
  rw [exporterDuring, Exporter.shows_foldl_of_not_hits, hafter]
  exact fun call hcall => hnot _ call (List.mem_of_mem_take hcall)

/-- A series of a percent is there from the first tick on. -/
theorem eq_zero_of_shows_none {z : ResolvedZone} (hz : z ∈ c.remoteZones order) {gauge : Gauge}
    (hgauge : gauge ≠ .emaTimestamp) {t k : ℕ}
    (hnone : (exporterDuring exp range c order observations V t k).shows (seriesOf z) gauge =
      none) : t = 0 := by
  obtain ⟨n, hn⟩ := shows_exporterDuring (V := V) exp range c order observations hz t
  rw [hn gauge (fun heq => absurd heq hgauge) k] at hnone
  have hshown : ∀ st : ZoneState K, shown st gauge ≠ none := by
    intro st
    cases gauge with
    | percent => exact Option.some_ne_none _
    | percentEMA => exact Option.some_ne_none _
    | emaTimestamp => exact absurd rfl hgauge
  split at hnone
  · unfold shownAfter at hnone
    split at hnone
    next hzero => exact hzero
    next => exact absurd hnone (hshown _)
  · rw [shownAfter, if_neg (Nat.succ_ne_zero t)] at hnone
    exact absurd hnone (hshown _)

section Values

variable [IsStrictOrderedRing K]

/-- What the rounding of the product and of the quotient can make wrong. -/
def slack (v : K) : K := (|v| + 1) / (2 ^ 51 : ℕ)

/-- The number nearest to one with two decimals, which is at most the real percent and
less than a hundredth below it, but for the rounding. -/
structure RoundedDown (v x : K) : Prop where
  le : x ≤ v + slack v
  near : v < x + 1 / 100 + slack v
  cents : ∃ n : ℤ, x = float64.round ((n : K) / 100)
  percent : IsPercent v → IsPercent x

theorem abs_float64_sub_le (x : K) : |float64.round x - x| ≤ |x| / 2 ^ 53 + 1 / 2 ^ 53 := by
  have hround := float64.abs_round_sub_le x
  have hfinest : (2 : K) ^ (-1074 : ℤ) ≤ 1 / 2 ^ 53 := by
    rw [one_div, ← zpow_natCast, ← zpow_neg]
    exact zpow_le_zpow_right₀ one_le_two (by decide)
  exact hround.trans (add_le_add_right hfinest _)

/-- No rounding leads out of the range of percents. -/
theorem isPercent_floor {v : K} (hv : IsPercent v) : IsPercent (floorToTwoDecimals v) := by
  obtain ⟨hnonneg, hle⟩ := hv
  rw [Nat.cast_ofNat] at hle
  have hproduct : (0 : K) ≤ float64.round (v * (100 : ℕ)) :=
    float64.round_nonneg (mul_nonneg hnonneg (Nat.cast_nonneg 100))
  have hproduct' : float64.round (v * (100 : ℕ)) ≤ ((10000 : ℕ) : K) := by
    apply float64.round_le (by decide) (by decide)
    rw [abs_of_nonneg (mul_nonneg hnonneg (Nat.cast_nonneg 100)), Nat.cast_ofNat, Nat.cast_ofNat]
    linarith
  have hfloor : (0 : K) ≤ ⌊float64.round (v * (100 : ℕ))⌋ :=
    Int.cast_nonneg (Int.floor_nonneg.mpr hproduct)
  have hquotient : (0 : K) ≤ (⌊float64.round (v * (100 : ℕ))⌋ : K) / (100 : ℕ) :=
    div_nonneg hfloor (Nat.cast_nonneg 100)
  constructor
  · exact float64.round_nonneg hquotient
  · apply float64.round_le (by decide) (by decide)
    have hle := (Int.floor_le (float64.round (v * (100 : ℕ)))).trans hproduct'
    rw [abs_of_nonneg hquotient, div_le_iff₀ (Nat.cast_pos.mpr (by decide))]
    refine hle.trans (le_of_eq ?_)
    norm_num

theorem roundedDown_floor (v : K) : RoundedDown v (floorToTwoDecimals v) := by
  let product := float64.round (v * 100)
  let hundredths : ℤ := ⌊product⌋
  have hx : floorToTwoDecimals v = float64.round ((hundredths : K) / 100) := by
    rw [floorToTwoDecimals, Nat.cast_ofNat]
  have hproduct := abs_le.mp (abs_float64_sub_le (v * 100))
  have hquotient := abs_le.mp (abs_float64_sub_le ((hundredths : K) / 100))
  rw [abs_mul, abs_of_pos (by norm_num : (0 : K) < 100)] at hproduct
  have hfloor : (hundredths : K) ≤ product := Int.floor_le product
  have hfloor' : product < hundredths + 1 := Int.lt_floor_add_one product
  have hv := neg_abs_le v
  have hv' := le_abs_self v
  have hsize : |(hundredths : K) / 100| ≤ 2 * |v| + 1 := by
    rw [abs_le]
    constructor <;> linarith
  have hslack : slack v = (|v| + 1) / 2 ^ 51 := by
    rw [slack, Nat.cast_pow, Nat.cast_ofNat]
  refine ⟨?_, ?_, ⟨hundredths, hx⟩, isPercent_floor⟩
  · rw [hx, hslack]
    linarith
  · rw [hx, hslack]
    linarith

/-- 23 retransmits of 125 segments are 18.4 percent, and a full hundredth less is shown. -/
example : floorToTwoDecimals (float64.round (float64.round (23 / 125) * 100) : ℚ) =
    float64.round (1839 / 100) := by decide +kernel

/-- The percent that a gauge is about. -/
def percentOf (st : ZoneState K) : Gauge → Option K
  | .percent => some st.instantPercent
  | .percentEMA => some st.emaPercent
  | .emaTimestamp => none

theorem roundedDown_shown {st : ZoneState K} {gauge : Gauge} (hgauge : gauge ≠ .emaTimestamp)
    {x : K} (hx : shown st gauge = some x) :
    ∃ v, percentOf st gauge = some v ∧ RoundedDown v x := by
  cases gauge with
  | percent =>
    obtain rfl := Option.some.inj hx
    exact ⟨_, rfl, roundedDown_floor _⟩
  | percentEMA =>
    obtain rfl := Option.some.inj hx
    exact ⟨_, rfl, roundedDown_floor _⟩
  | emaTimestamp => exact absurd rfl hgauge

theorem rounded_exporterDuring {z : ResolvedZone} (hz : z ∈ c.remoteZones order) {gauge : Gauge}
    (hgauge : gauge ≠ .emaTimestamp) {t k : ℕ} {x : K}
    (hx : (exporterDuring exp range c order observations V t k).shows (seriesOf z) gauge =
      some x) :
    ∃ s, (s = t ∨ s = t + 1) ∧ 0 < s ∧
      ∃ v, percentOf (stateAfter exp c observations z s) gauge = some v ∧ RoundedDown v x := by
  obtain ⟨n, hn⟩ := shows_exporterDuring (V := V) exp range c order observations hz t
  rw [hn gauge (fun heq => absurd heq hgauge) k] at hx
  split at hx
  · unfold shownAfter at hx
    split at hx
    · cases hx
    next hpos => exact ⟨t, Or.inl rfl, Nat.pos_of_ne_zero hpos, roundedDown_shown hgauge hx⟩
  · rw [shownAfter, if_neg (Nat.succ_ne_zero t)] at hx
    exact ⟨t + 1, Or.inr rfl, Nat.succ_pos t, roundedDown_shown hgauge hx⟩

end Values

end Scrapes

section Example

open WindowHistory SlidingWindow

/-- Zone `b` has three segments each second, and one of them is a retransmit. -/
def eachSecond (t : ℕ) : Observation :=
  ⟨⟨second * t, GoMap.empty.set "b" ⟨3#64, 1#64⟩⟩, 0#64, none⟩

def gaugesOfB (t k : ℕ) : Exporter (GoMap Labels ℚ) :=
  exporterDuring (fun x => 1 / (1 - x)) (fun s => s.zones.listed) twoPolls twoPolls.zones.listed
    eachSecond (GoMap Labels ℚ) t k

theorem eachSecond_between_ticks :
    ∃ n, ∀ gauge k, (gaugesOfB 1 k).shows ⟨"a", "b"⟩ gauge =
      if k ≤ n + gauge.place then
        shownAfter (fun x : ℚ => 1 / (1 - x)) twoPolls eachSecond ⟨"b", 2#8, "a"⟩ 1 gauge
      else shownAfter (fun x : ℚ => 1 / (1 - x)) twoPolls eachSecond ⟨"b", 2#8, "a"⟩ 2 gauge := by
  have hclock : ∀ t, (eachSecond (t + 1)).poll.now ≠ 0 := by
    intro t
    exact mul_ne_zero (by decide) (Nat.cast_ne_zero.mpr (Nat.succ_ne_zero t))
  have hz : (⟨"b", 2#8, "a"⟩ : ResolvedZone) ∈ twoPolls.remoteZones twoPolls.zones.listed := by
    decide
  exact scrape_between_ticks _ _ twoPolls twoPolls.zones.listed eachSecond hclock hz 1

end Example

end PacketLoss.Gauges
