import PacketLoss.HalfLife

/-!
A zone that falls quiet. Its average is held once the window has no segments, and
until then each poll averages the samples of the past once more.
-/
namespace PacketLoss.QuietZones

open Machine ZoneConfig Config ValidConfig EmaStore WindowHistory LossPercent MovingAverage
open Smoothing HalfLife

/-- The polls have no segments and no retransmits of the zone. -/
def Quiet (dstZone : String) (polls : List Poll) : Prop :=
  ∀ p ∈ polls, deltaOf p.counters dstZone = ⟨0#64, 0#64⟩

/-- None of the next `k` polls finds a segment of the past in the window. The sum of
the window has 64 bits. -/
def Drained (cap k : ℕ) (past : List CounterSnapshot) : Prop :=
  ∀ j, 0 < j → j ≤ k → segments (past.rtake (cap - j)) % 2 ^ 64 = 0

theorem samplesOf_append (dstZone : String) (polls rest : List Poll) :
    samplesOf dstZone (polls ++ rest) = samplesOf dstZone polls ++ samplesOf dstZone rest :=
  List.map_append

theorem Quiet.samplesOf_eq {dstZone : String} {polls : List Poll} (h : Quiet dstZone polls) :
    samplesOf dstZone polls = List.replicate polls.length ⟨0#64, 0#64⟩ := by
  apply List.eq_replicate_iff.mpr
  refine ⟨List.length_map _, ?_⟩
  intro d hd
  obtain ⟨p, hp, rfl⟩ := List.mem_map.mp hd
  exact h p hp

/-- The quiet polls take the places of as many older ones in the window. -/
theorem sum_rtake_append_quiet (f : CounterSnapshot → ℕ) (hf : f ⟨0#64, 0#64⟩ = 0) (cap k : ℕ)
    (past : List CounterSnapshot) :
    (((past ++ List.replicate k (⟨0#64, 0#64⟩ : CounterSnapshot)).rtake cap).map f).sum =
      ((past.rtake (cap - k)).map f).sum := by
  have hquiet : ∀ n,
      (((List.replicate k (⟨0#64, 0#64⟩ : CounterSnapshot)).drop n).map f).sum = 0 := by
    intro n
    simp [hf]
  rw [List.rtake, List.drop_append, List.map_append, List.sum_append, hquiet, List.rtake,
    List.length_append, List.length_replicate, Nat.add_zero]
  rcases Nat.le_total k cap with hle | hge
  · rw [show past.length + k - cap = past.length - (cap - k) by omega]
  · rw [List.drop_eq_nil_of_le (by omega), List.drop_eq_nil_of_le (by omega)]

section Held

variable {K : Type} [Field K] [LinearOrder K] (exp : K → K) (c : Config)

/-- The percent that `Update` computes from a window; the sums have 64 bits. -/
def windowPercent (samples : List CounterSnapshot) : K :=
  (100 : ℕ) * ((retrans samples % 2 ^ 64 : ℕ) : K) / ((segments samples % 2 ^ 64 : ℕ) : K)

/-- A poll leaves an average and its time where they are, given the samples that are
in the window then: there are no segments, or the poll comes at the very time of the
last update, with the percent that the average has, or when nothing is weighed in. -/
def LeavesAverage (window : List CounterSnapshot) (st : ZoneState K) (lastPoll now : Time) :
    Prop :=
  segments window % 2 ^ 64 = 0 ∨
    now = st.lastUpdate ∧ (windowPercent window = st.emaPercent ∨
      st.lastUpdate ≠ 0 ∧ alpha exp c (elapsed c lastPoll now) = 0)

/-- The time of the last poll, if there was one. -/
def lastTime (polls : List Poll) : Time := (polls.getLast?.map Poll.now).getD 0

theorem lastPoll_zoneRun (z : ResolvedZone) (dstZone : String) (polls : List Poll) :
    (zoneRun exp c dstZone (newZoneState c z : ZoneState K) polls).lastPoll = lastTime polls := by
  induction polls using List.reverseRecOn with
  | nil => rfl
  | append_singleton polls p ih =>
    rw [zoneRun_concat, lastTime, List.getLast?_concat]
    rfl

/-- Each poll of a quiet run leaves the average where it was before the run. -/
def LeavesThroughout (dstZone : String) (past quiet : List Poll) (st : ZoneState K) : Prop :=
  ∀ pre p post, quiet = pre ++ p :: post →
    LeavesAverage exp c
      ((samplesOf dstZone past).rtake (instantWindowCap c - (pre.length + 1))) st
      (lastTime (past ++ pre)) p.now

/-- The sums of the window after a quiet run. -/
theorem sums_zoneRun_append_quiet (z : ResolvedZone) (dstZone : String) (past : List Poll)
    {quiet : List Poll} (hquiet : Quiet dstZone quiet) :
    let st : ZoneState K := zoneRun exp c dstZone (newZoneState c z) (past ++ quiet)
    let window := (samplesOf dstZone past).rtake (instantWindowCap c - quiet.length)
    st.sumSeg.toNat = segments window % 2 ^ 64 ∧ st.sumRet.toNat = retrans window % 2 ^ 64 := by
  intro st window
  obtain ⟨hseg, hret⟩ := sums_zoneRun (K := K) exp c z dstZone (past ++ quiet)
  rw [samplesOf_append, hquiet.samplesOf_eq] at hseg hret
  rw [segments, sum_rtake_append_quiet _ rfl] at hseg
  rw [retrans, sum_rtake_append_quiet _ rfl] at hret
  exact ⟨hseg, hret⟩

variable {exp} {c}

/-- An update that averages leaves the average only at its time, and if the blend
is the average again. -/
theorem held_iff_of_averaged {now : Time} {st s s' : ZoneState K} (h : Averaged exp c now s s')
    (hheld : Held st s) : Held st s' ↔ now = st.lastUpdate ∧ (s'.instantPercent = st.emaPercent ∨
      st.lastUpdate ≠ 0 ∧ alpha exp c (elapsed c s.lastPoll now) = 0) := by
  have hema := h.ema
  rw [hheld.lastUpdate, hheld.ema] at hema
  have hleaves : s'.emaPercent = st.emaPercent ↔ (s'.instantPercent = st.emaPercent ∨
      st.lastUpdate ≠ 0 ∧ alpha exp c (elapsed c s.lastPoll now) = 0) := by
    rw [hema]
    by_cases hzero : st.lastUpdate = 0
    · simp [hzero]
    · rw [if_neg hzero, blend_eq_self_iff, or_comm, and_iff_right hzero]
  rw [← hleaves, ← h.lastUpdate]
  exact ⟨fun hst => ⟨hst.lastUpdate, hst.ema⟩, fun hst => ⟨hst.1, hst.2⟩⟩

variable (exp) (c)

/-- One more quiet poll. -/
theorem held_concat_iff (z : ResolvedZone) (dstZone : String) (past : List Poll)
    {quiet : List Poll} {p : Poll} (hquiet : Quiet dstZone (quiet ++ [p])) {st : ZoneState K}
    (hheld : Held st (zoneRun exp c dstZone (newZoneState c z) (past ++ quiet))) :
    Held st (zoneRun exp c dstZone (newZoneState c z) (past ++ (quiet ++ [p]))) ↔
      LeavesAverage exp c
        ((samplesOf dstZone past).rtake (instantWindowCap c - (quiet.length + 1))) st
        (lastTime (past ++ quiet)) p.now := by
  have hlastPoll := lastPoll_zoneRun (K := K) exp c z dstZone (past ++ quiet)
  have hinstant := instantPercent_updateZone exp c p.now (deltaOf p.counters dstZone)
    (zoneRun exp c dstZone (newZoneState c z : ZoneState K) (past ++ quiet))
  have hcases := updateZone_cases exp c p.now (deltaOf p.counters dstZone)
    (zoneRun exp c dstZone (newZoneState c z : ZoneState K) (past ++ quiet))
  obtain ⟨hseg, hret⟩ := sums_zoneRun_append_quiet (K := K) exp c z dstZone past hquiet
  rw [← zoneRun_concat, List.append_assoc] at hinstant hcases
  rw [List.length_append, List.length_singleton] at hseg hret
  rw [LeavesAverage, ← hlastPoll, windowPercent, Nat.cast_ofNat, ← hseg, ← hret]
  rcases hcases with ⟨hpos, haveraged⟩ | ⟨hzero, hsame⟩
  · have hpos' : 0 < (zoneRun exp c dstZone (newZoneState c z : ZoneState K)
        (past ++ (quiet ++ [p]))).sumSeg.toNat := hpos
    rw [if_pos hpos'] at hinstant
    rw [held_iff_of_averaged haveraged hheld, hinstant, or_iff_right hpos'.ne']
  · have hzero' := congrArg BitVec.toNat hzero
    refine iff_of_true ?_ (Or.inl hzero')
    exact ⟨hsame.lastUpdate.trans hheld.lastUpdate, hsame.ema.trans hheld.ema⟩

theorem held_iff_leaves (z : ResolvedZone) (dstZone : String) (past quiet : List Poll)
    (hquiet : Quiet dstZone quiet) :
    (∀ pre post, quiet = pre ++ post →
        Held (zoneRun exp c dstZone (newZoneState c z : ZoneState K) past)
          (zoneRun exp c dstZone (newZoneState c z) (past ++ pre))) ↔
      LeavesThroughout exp c dstZone past quiet
        (zoneRun exp c dstZone (newZoneState c z : ZoneState K) past) := by
  have hnext : ∀ pre p post, quiet = pre ++ p :: post → Quiet dstZone (pre ++ [p]) := by
    intro pre p post hsplit p' hp'
    apply hquiet p'
    rw [hsplit, List.append_cons]
    exact List.mem_append_left post hp'
  constructor
  · intro hall pre p post hsplit
    have hbefore := hall pre (p :: post) hsplit
    apply (held_concat_iff exp c z dstZone past (hnext pre p post hsplit) hbefore).mp
    apply hall (pre ++ [p]) post
    rw [hsplit, List.append_cons]
  · intro hleaves pre
    induction pre using List.reverseRecOn with
    | nil =>
      intro _ _
      rw [List.append_nil]
      exact ⟨rfl, rfl⟩
    | append_singleton pre p ih =>
      intro post hsplit
      rw [← List.append_cons] at hsplit
      have hbefore := ih (p :: post) hsplit
      exact (held_concat_iff exp c z dstZone past (hnext pre p post hsplit) hbefore).mpr
        (hleaves pre p post hsplit)

/-- A poll that does not come at the time of the last update leaves the average only
if the window has drained. -/
theorem leaves_iff_drained {dstZone : String} {past quiet : List Poll} {st : ZoneState K}
    (hnows : ∀ p ∈ quiet, p.now ≠ st.lastUpdate) :
    LeavesThroughout exp c dstZone past quiet st ↔
      Drained (instantWindowCap c) quiet.length (samplesOf dstZone past) := by
  constructor
  · intro hleaves j hpos hle
    obtain ⟨k, rfl⟩ : ∃ k, j = k + 1 := ⟨j - 1, by omega⟩
    have hsplit : quiet = quiet.take k ++ quiet[k] :: quiet.drop (k + 1) := by
      rw [List.getElem_cons_drop, List.take_append_drop]
    have hlength : (quiet.take k).length = k := by
      rw [List.length_take]
      omega
    rcases hleaves _ _ _ hsplit with hzero | ⟨hnow, -⟩
    · rwa [hlength] at hzero
    · exact absurd hnow (hnows _ (List.getElem_mem _))
  · intro hdrained pre p post hsplit
    apply Or.inl
    apply hdrained (pre.length + 1) (Nat.succ_pos _)
    rw [hsplit, List.length_append, List.length_cons]
    omega

/-- A quiet run does not move an average and its time exactly if none of its polls
does; and that is, unless one comes at the very time of the last update, if the
window drains at once. -/
theorem held_iff_drained (range : c.zones.Range) (z : ResolvedZone) (hz : z ∈ c.remoteZones range)
    (past quiet : List Poll) (hquiet : Quiet z.dstZone quiet) :
    ∃ st : ZoneState K,
      (runPolls exp (newEMAStore c (c.remoteZones range)) past).zones.get z.dstZone = some st ∧
      ((∀ pre post, quiet = pre ++ post → ∃ st',
          (runPolls exp (newEMAStore c (c.remoteZones range)) (past ++ pre)).zones.get z.dstZone =
            some st' ∧ Held st st') ↔
        LeavesThroughout exp c z.dstZone past quiet st) ∧
      ((∀ p ∈ quiet, p.now ≠ st.lastUpdate) →
        (LeavesThroughout exp c z.dstZone past quiet st ↔
          Drained (instantWindowCap c) quiet.length (samplesOf z.dstZone past))) := by
  have hget : ∀ polls, (runPolls exp (newEMAStore c (c.remoteZones range)) polls).zones.get
      z.dstZone = some (zoneRun exp c z.dstZone (newZoneState c z) polls) := by
    intro polls
    rw [get_runPolls, get_newEMAStore c (nodup_remoteZones range) hz]
    rfl
  refine ⟨_, hget past, ?_, leaves_iff_drained exp c⟩
  rw [← held_iff_leaves exp c z z.dstZone past quiet hquiet]
  simp only [hget, Option.some.injEq, exists_eq_left']

end Held

/-- All segments of the first poll were retransmits, and none of the second. -/
def twoSamples : List Poll := [pollOf 1 10#64 10#64, pollOf 2 10#64 0#64]

def oneQuiet : List Poll := [pollOf 3 0#64 0#64]

noncomputable def storeOf (polls : List Poll) : EMAStore ℝ :=
  runPolls Real.exp (newEMAStore accepted (accepted.remoteZones accepted.zones.listed)) polls

theorem quiet_zone_moves :
    twoPolls.validate twoPolls.zones.listed twoPolls.zones.listed = .ok accepted ∧
      Quiet "b" oneQuiet ∧ ∃ st st',
        (storeOf twoSamples).zones.get "b" = some st ∧
        (storeOf (twoSamples ++ oneQuiet)).zones.get "b" = some st' ∧
        st.lastUpdate = 2 * second ∧ st'.lastUpdate = 3 * second ∧
        st'.emaPercent < st.emaPercent := by
  let w := alpha Real.exp accepted second
  have hget : ((storeOf twoSamples).zones.get "b").map
      (fun st => (st.emaPercent, st.lastUpdate)) =
        some (w * (100 * ((10 : ℕ) : ℝ) / ((20 : ℕ) : ℝ)) +
          (1 - w) * (100 * ((10 : ℕ) : ℝ) / ((10 : ℕ) : ℝ)), 2 * second) := by rfl
  have hget' : ((storeOf (twoSamples ++ oneQuiet)).zones.get "b").map
      (fun st => (st.emaPercent, st.lastUpdate)) =
        some (w * (100 * ((0 : ℕ) : ℝ) / ((10 : ℕ) : ℝ)) +
          (1 - w) * (w * (100 * ((10 : ℕ) : ℝ) / ((20 : ℕ) : ℝ)) +
            (1 - w) * (100 * ((10 : ℕ) : ℝ) / ((10 : ℕ) : ℝ))), 3 * second) := by rfl
  obtain ⟨st, hst, hst_eq⟩ := Option.map_eq_some_iff.mp hget
  obtain ⟨st', hst', hst'_eq⟩ := Option.map_eq_some_iff.mp hget'
  obtain ⟨hema, hlast⟩ := Prod.mk.inj hst_eq
  obtain ⟨hema', hlast'⟩ := Prod.mk.inj hst'_eq
  have hw : 0 < w ∧ w < 1 := by
    have hleft : 1 - w = decay accepted second := one_sub_alpha (by decide) (by decide)
    have hdecay : 0 < decay accepted second ∧ decay accepted second < 1 := by
      refine ⟨Real.exp_pos _, Real.exp_lt_one_iff.mpr (neg_lt_zero.mpr ?_)⟩
      norm_num [seconds, accepted, twoPolls, second]
    constructor <;> linarith
  have hquiet : Quiet "b" oneQuiet := by
    unfold Quiet
    decide
  refine ⟨rfl, hquiet, st, st', hst, hst', hlast, hlast', ?_⟩
  rw [hema, hema']
  norm_num
  nlinarith

/-- The window of two samples has no segments once a second poll was quiet. -/
theorem held_iff_drained_quiet :
    ∃ st st' : ZoneState ℝ,
      (storeOf [pollOf 1 10#64 10#64, pollOf 2 0#64 0#64]).zones.get "b" = some st ∧
      (storeOf ([pollOf 1 10#64 10#64, pollOf 2 0#64 0#64] ++ oneQuiet)).zones.get "b" =
        some st' ∧ Held st st' := by
  obtain ⟨st, hst, hiff, -⟩ := held_iff_drained Real.exp accepted
    accepted.zones.listed ⟨"b", 2#8, "a"⟩ (by decide) [pollOf 1 10#64 10#64, pollOf 2 0#64 0#64]
    oneQuiet (by unfold Quiet; decide)
  have hleaves : ∀ pre p post, oneQuiet = pre ++ p :: post →
      segments ((samplesOf "b" [pollOf 1 10#64 10#64, pollOf 2 0#64 0#64]).rtake
        (instantWindowCap accepted - (pre.length + 1))) % 2 ^ 64 = 0 := by
    intro pre p post hsplit
    have hlength := congrArg List.length hsplit
    rw [oneQuiet, List.length_singleton, List.length_append, List.length_cons] at hlength
    obtain rfl : pre = [] := List.length_eq_zero_iff.mp (by omega)
    decide
  obtain ⟨st', hst', hheld⟩ := hiff.mpr (fun pre p post hsplit =>
    Or.inl (hleaves pre p post hsplit)) oneQuiet [] (List.append_nil _).symm
  exact ⟨st, st', hst, hst', hheld⟩

end PacketLoss.QuietZones
