import PacketLoss.Smoothing
import PacketLoss.WindowHistory

/-!
What the updates do to the average of a zone. When the window has segments, its
percent is blended into the average; else the average stays as it is.
-/
namespace PacketLoss.MovingAverage

open Machine ZoneConfig EmaStore WindowHistory Smoothing

variable {K : Type} [Field K] [LinearOrder K] (exp : K → K) (c : Config)

/-- The states that a zone passes through, one after each poll. -/
def states (s : EMAStore K) (dstZone : String) (polls : List Poll) : List (ZoneState K) :=
  polls.inits.tail.filterMap fun past => (runPolls exp s past).zones.get dstZone

@[simp]
theorem states_nil (s : EMAStore K) (dstZone : String) : states exp s dstZone [] = [] := rfl

theorem states_cons (s : EMAStore K) (dstZone : String) (p : Poll) (polls : List Poll) :
    states exp s dstZone (p :: polls) =
      ((update exp s p.now p.counters).zones.get dstZone).toList ++
        states exp (update exp s p.now p.counters) dstZone polls := by
  have hinits : (p :: polls).inits.tail = [p] :: polls.inits.tail.map (p :: ·) := by
    cases polls <;> simp
  unfold states
  rw [hinits, List.filterMap_cons, List.filterMap_map]
  have hfirst : runPolls exp s [p] = update exp s p.now p.counters := rfl
  rw [hfirst]
  cases (update exp s p.now p.counters).zones.get dstZone <;> rfl

theorem states_concat (s : EMAStore K) (dstZone : String) (polls : List Poll) (p : Poll) :
    states exp s dstZone (polls ++ [p]) = states exp s dstZone polls ++
      ((runPolls exp s (polls ++ [p])).zones.get dstZone).toList := by
  have hinits : (polls ++ [p]).inits.tail = polls.inits.tail ++ [polls ++ [p]] := by
    rw [List.inits_append]
    cases polls <;> simp
  unfold states
  rw [hinits, List.filterMap_append, List.filterMap_cons, List.filterMap_nil]
  cases (runPolls exp s (polls ++ [p])).zones.get dstZone <;> rfl

/-- The time since the last poll, as `Update` computes it. -/
def elapsed (lastPoll now : Time) : ℤ :=
  if lastPoll = 0 then c.pollInterval else sub now lastPoll

/-- An update whose window has segments. -/
structure Averaged (now : Time) (st st' : ZoneState K) : Prop where
  lastUpdate : st'.lastUpdate = now
  ema : st'.emaPercent =
    if st.lastUpdate = 0 then st'.instantPercent
    else blend (alpha exp c (elapsed c st.lastPoll now)) st'.instantPercent st.emaPercent

/-- An update whose window is empty. -/
structure Held (st st' : ZoneState K) : Prop where
  lastUpdate : st'.lastUpdate = st.lastUpdate
  ema : st'.emaPercent = st.emaPercent

theorem updateZone_cases (now : Time) (d : CounterSnapshot) (st : ZoneState K) :
    (0#64 < (updateZone exp c now d st).sumSeg ∧
        Averaged exp c now st (updateZone exp c now d st)) ∨
      ((updateZone exp c now d st).sumSeg = 0#64 ∧ Held st (updateZone exp c now d st)) := by
  have hslide : (slide st d).lastUpdate = st.lastUpdate ∧
      (slide st d).emaPercent = st.emaPercent := by
    unfold slide
    split <;> exact ⟨rfl, rfl⟩
  obtain ⟨hlast, hema⟩ := hslide
  have hsum : (updateZone exp c now d st).sumSeg = (slide st d).sumSeg :=
    congrArg (fun r => r.sum.1) (ringOf_updateZone exp c now d st)
  rw [hsum]
  by_cases hpos : 0#64 < (slide st d).sumSeg
  · refine Or.inl ⟨hpos, ?_⟩
    unfold updateZone smooth
    simp only [if_pos hpos]
    refine ⟨rfl, ?_⟩
    show (if (slide st d).lastUpdate = 0 then _ else _) = _
    rw [hlast, hema]
    rfl
  · refine Or.inr ⟨by simpa using hpos, ?_⟩
    unfold updateZone smooth
    simp only [if_neg hpos]
    exact ⟨hlast, hema⟩

end PacketLoss.MovingAverage
