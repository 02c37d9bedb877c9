import PacketLoss.LossPercent

/-!
The moving average never leaves the hull of what was observed: it lies between
two of the percents that the updates so far computed.
-/
namespace PacketLoss.EmaHull

open Machine ZoneConfig Config ValidConfig EmaStore WindowHistory LossPercent MovingAverage
open Smoothing

variable {K : Type} [Field K] [LinearOrder K]

/-- The percent that an update computed, which it does for a window with segments. -/
def computed (st : ZoneState K) : Option K :=
  if 0#64 < st.sumSeg then some st.instantPercent else none

/-- The percents that the updates computed for a zone. -/
def observed (exp : K → K) (s : EMAStore K) (dstZone : String) (polls : List Poll) : List K :=
  (states exp s dstZone polls).filterMap computed

variable [IsStrictOrderedRing K] {exp : K → K}

/-- A zone that was ever updated has its average in the hull of `past`. -/
def Hulled (past : List K) (st : ZoneState K) : Prop :=
  st.lastUpdate ≠ 0 → InHull past st.emaPercent

theorem hulled_updateZone (hexp : Damps exp) (c : Config) (now : Time) (d : CounterSnapshot)
    {past : List K} {st : ZoneState K} (h : Hulled past st) :
    Hulled (past ++ [updateZone exp c now d st].filterMap computed)
      (updateZone exp c now d st) := by
  intro hlast
  rcases updateZone_cases exp c now d st with ⟨hpos, haveraged⟩ | ⟨hzero, hheld⟩
  · have hnew : InHull (past ++ [updateZone exp c now d st].filterMap computed)
        (updateZone exp c now d st).instantPercent := inHull_of_mem (by simp [computed, hpos])
    rw [haveraged.ema]
    split
    · exact hnew
    · rename_i hset
      exact InHull.blend (alpha_bounds hexp c _) hnew
        ((h hset).mono (List.subset_append_left _ _))
  · rw [hheld.lastUpdate] at hlast
    rw [hheld.ema]
    exact (h hlast).mono (List.subset_append_left _ _)

theorem hulled_zoneRun (hexp : Damps exp) (c : Config) {zones : List ResolvedZone}
    (hnodup : (zones.map ResolvedZone.dstZone).Nodup) {z : ResolvedZone} (hz : z ∈ zones)
    (polls : List Poll) :
    Hulled (observed exp (newEMAStore c zones) z.dstZone polls)
      (zoneRun exp c z.dstZone (newZoneState c z) polls) := by
  induction polls using List.reverseRecOn with
  | nil =>
    intro hlast
    exact absurd rfl hlast
  | append_singleton polls p ih =>
    have hstep := hulled_updateZone hexp c p.now (deltaOf p.counters z.dstZone) ih
    rw [← zoneRun_concat] at hstep
    unfold observed
    rw [states_concat, get_runPolls, get_newEMAStore c hnodup hz, List.filterMap_append]
    exact hstep

/-- Whatever is polled and whenever: the average of an updated zone lies between
observed percents, and the updates with an empty window leave it as it is. -/
theorem ema_in_hull (hexp : Damps exp) (c : Config) (range : c.zones.Range) (polls : List Poll)
    (z : ResolvedZone) (hz : z ∈ c.remoteZones range) :
    ∃ st : ZoneState K,
      (runPolls exp (newEMAStore c (c.remoteZones range)) polls).zones.get z.dstZone =
          some st ∧
        (st.lastUpdate ≠ 0 →
          InHull (observed exp (newEMAStore c (c.remoteZones range)) z.dstZone polls)
            st.emaPercent) ∧
        ∀ p st', (runPolls exp (newEMAStore c (c.remoteZones range))
            (polls ++ [p])).zones.get z.dstZone = some st' →
          st'.sumSeg = 0#64 → st'.emaPercent = st.emaPercent := by
  have hnodup := nodup_remoteZones range
  have hget : ∀ polls, (runPolls exp (newEMAStore c (c.remoteZones range)) polls).zones.get
      z.dstZone = some (zoneRun exp c z.dstZone (newZoneState c z) polls) := by
    intro polls
    rw [get_runPolls, get_newEMAStore c hnodup hz]
    rfl
  refine ⟨_, hget polls, hulled_zoneRun hexp c hnodup hz polls, ?_⟩
  intro p st' hst' hsum
  rw [hget, Option.some_inj, zoneRun_concat] at hst'
  subst hst'
  rcases updateZone_cases exp c p.now (deltaOf p.counters z.dstZone)
    (zoneRun exp c z.dstZone (newZoneState c z) polls) with ⟨hpos, -⟩ | ⟨-, hheld⟩
  · rw [hsum] at hpos
    exact absurd hpos (by decide)
  · exact hheld.ema

theorem ema_in_hull_threePolls :
    ∃ st : ZoneState ℝ,
      (runPolls Real.exp (newEMAStore twoPolls (twoPolls.remoteZones twoPolls.zones.listed))
        threePolls).zones.get "b" = some st ∧ 10 ≤ st.emaPercent ∧ st.emaPercent ≤ 25 := by
  obtain ⟨st, hst, hhull, -⟩ := ema_in_hull damps_exp twoPolls twoPolls.zones.listed threePolls
    ⟨"b", 2#8, "a"⟩ (by decide)
  have hobserved : observed Real.exp
      (newEMAStore twoPolls (twoPolls.remoteZones twoPolls.zones.listed)) "b" threePolls =
        [100 * ((1 : ℕ) : ℝ) / ((10 : ℕ) : ℝ), 100 * ((1 : ℕ) : ℝ) / ((10 : ℕ) : ℝ),
          100 * ((1 : ℕ) : ℝ) / ((4 : ℕ) : ℝ)] := by rfl
  have hlast : st.lastUpdate = 3 * second := by
    have hget := congrArg (Option.map ZoneState.lastUpdate) hst
    exact (Option.some_inj.mp hget).symm
  rw [hobserved, hlast] at hhull
  obtain ⟨⟨lower, hlower, hle⟩, ⟨upper, hupper, hge⟩⟩ := hhull (by decide)
  norm_num at hlower hupper
  refine ⟨st, hst, ?_, ?_⟩
  · rcases hlower with rfl | rfl <;> linarith
  · rcases hupper with rfl | rfl <;> linarith

end PacketLoss.EmaHull
