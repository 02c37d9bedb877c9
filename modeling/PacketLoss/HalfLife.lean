import PacketLoss.LossPercent

/-!
How fast the moving average follows a steady loss. Whatever the times of the
updates, its distance from the loss decays by the factor `e^(-t / ema_half_life)`
over a time `t`. After one half life that factor is not a half.
-/
namespace PacketLoss.HalfLife

open Machine ZoneConfig EmaStore WindowHistory MovingAverage Smoothing

/-- The times since the previous poll, as the updates compute them. -/
def elapsedTimes (c : Config) : Time → List Time → List ℤ
  | _, [] => []
  | lastPoll, now :: nows => elapsed c lastPoll now :: elapsedTimes c now nows

/-- The window has segments in each of the states, and their percent is `x`. -/
def Steady (x : ℝ) (states : List (ZoneState ℝ)) : Prop :=
  ∀ st ∈ states, 0#64 < st.sumSeg ∧ st.instantPercent = x

noncomputable def decay (c : Config) (t : ℤ) : ℝ :=
  Real.exp (-(seconds t / seconds c.emaHalfLife))

theorem decay_zero (c : Config) : decay c 0 = 1 := by simp [decay, seconds]

theorem decay_add (c : Config) (t u : ℤ) : decay c (t + u) = decay c t * decay c u := by
  unfold decay seconds
  rw [← Real.exp_add, Int.cast_add]
  congr 1
  ring

theorem decay_halfLife {c : Config} (hpos : 0 < c.emaHalfLife) :
    decay c c.emaHalfLife = Real.exp (-1) := by
  have hne : (seconds c.emaHalfLife : ℝ) ≠ 0 := by
    unfold seconds
    have hcast : (c.emaHalfLife : ℝ) ≠ 0 := Int.cast_ne_zero.mpr hpos.ne'
    positivity
  rw [decay, div_self hne]

/-- `1 - Alpha` is what is left of the distance. -/
theorem one_sub_alpha {c : Config} (hpos : 0 < c.emaHalfLife) {t : ℤ} (ht : 0 < t) :
    1 - alpha Real.exp c t = decay c t := by
  have hratio : ¬(seconds t / seconds c.emaHalfLife : ℝ) ≤ 0 := by
    have htcast : (0 : ℝ) < t := Int.cast_pos.mpr ht
    have hcast : (0 : ℝ) < c.emaHalfLife := Int.cast_pos.mpr hpos
    unfold seconds
    rw [not_le]
    positivity
  rw [alpha, if_neg (by omega), expNeg, if_neg hratio, sub_sub_cancel]
  rfl

/-- The distance after some updates: nothing is left of it where the average was
seeded anew, and else the decay over the time they took. -/
theorem ema_sub_runPolls {s : EMAStore ℝ} (hpos : 0 < s.cfg.emaHalfLife) {dstZone : String}
    {st : ZoneState ℝ} (hst : s.zones.get dstZone = some st) {x : ℝ} {polls : List Poll}
    (hsteady : Steady x (states Real.exp s dstZone polls))
    (htimes : ∀ t ∈ elapsedTimes s.cfg st.lastPoll (polls.map Poll.now), 0 < t) :
    ∃ st', (runPolls Real.exp s polls).zones.get dstZone = some st' ∧
      (st'.emaPercent = x ∨ st'.emaPercent - x =
        decay s.cfg (elapsedTimes s.cfg st.lastPoll (polls.map Poll.now)).sum *
          (st.emaPercent - x)) := by
  induction polls generalizing s st with
  | nil =>
    refine ⟨st, hst, Or.inr ?_⟩
    simp [elapsedTimes, decay_zero]
  | cons p polls ih =>
    have hget := get_update Real.exp s p dstZone
    rw [hst, Option.map_some] at hget
    rw [states_cons, hget] at hsteady
    simp only [List.map_cons, elapsedTimes, List.mem_cons, forall_eq_or_imp] at htimes
    obtain ⟨hfirst, hrest⟩ := htimes
    obtain ⟨st', hst', hdist⟩ := ih (s := update Real.exp s p.now p.counters) hpos hget
      (fun st' hmem => hsteady st' (List.mem_append_right _ hmem)) hrest
    change _ ∨ _ = decay s.cfg (elapsedTimes s.cfg p.now (polls.map Poll.now)).sum * _ at hdist
    refine ⟨st', hst', ?_⟩
    obtain ⟨hseg, hinstant⟩ := hsteady _
      (List.mem_append_left _ (Option.mem_toList.mpr (Option.mem_some_self _)))
    rcases updateZone_cases Real.exp s.cfg p.now (deltaOf p.counters dstZone) st with
      ⟨-, haveraged⟩ | ⟨hzero, -⟩
    · have hema := haveraged.ema
      rw [hinstant] at hema
      rcases hdist with hdist | hdist
      · exact Or.inl hdist
      · rw [hema] at hdist
        split at hdist
        · left
          simpa [sub_eq_zero] using hdist
        · right
          rw [blend_sub_input, one_sub_alpha hpos hfirst] at hdist
          rw [hdist, List.map_cons, elapsedTimes, List.sum_cons, decay_add]
          ring
    · rw [hzero] at hseg
      exact absurd hseg (by decide)

/-- What is left of the distance after one half life is not the half of it. -/
theorem exists_factor {s : EMAStore ℝ} {dstZone : String} {st : ZoneState ℝ}
    (hst : s.zones.get dstZone = some st) {x : ℝ} {polls : List Poll}
    (hsteady : Steady x (states Real.exp s dstZone polls))
    (htimes : ∀ t ∈ elapsedTimes s.cfg st.lastPoll (polls.map Poll.now), 0 < t)
    (hsum : (elapsedTimes s.cfg st.lastPoll (polls.map Poll.now)).sum = s.cfg.emaHalfLife) :
    ∃ st', (runPolls Real.exp s polls).zones.get dstZone = some st' ∧
      ∃ k : ℝ, k ≠ 1 / 2 ∧ |st'.emaPercent - x| = k * |st.emaPercent - x| := by
  by_cases hpos : 0 < s.cfg.emaHalfLife
  · obtain ⟨st', hst', hdist⟩ := ema_sub_runPolls hpos hst hsteady htimes
    refine ⟨st', hst', ?_⟩
    rw [hsum, decay_halfLife hpos] at hdist
    rcases hdist with hdist | hdist
    · exact ⟨0, by norm_num, by simp [hdist]⟩
    · refine ⟨Real.exp (-1), ?_, ?_⟩
      · have htwo := Real.add_one_lt_exp (x := 1) one_ne_zero
        intro hhalf
        rw [Real.exp_neg, one_div, inv_inj] at hhalf
        linarith
      · rw [hdist, abs_mul, abs_of_pos (Real.exp_pos _)]
  · -- Positive times do not add up to such a half life, so there are no updates.
    cases polls with
    | nil => exact ⟨st, hst, 1, by norm_num, by ring⟩
    | cons p polls =>
      have hsumpos := List.sum_pos _ htimes (by simp [elapsedTimes])
      omega

/-- Updates that take one half life and all compute the percent `x` halve the
distance of the average from it only where there is none. -/
theorem halved_iff_reached (s : EMAStore ℝ) (dstZone : String) (st : ZoneState ℝ)
    (hst : s.zones.get dstZone = some st) (x : ℝ) (polls : List Poll)
    (hsteady : Steady x (states Real.exp s dstZone polls))
    (htimes : ∀ t ∈ elapsedTimes s.cfg st.lastPoll (polls.map Poll.now), 0 < t)
    (hsum : (elapsedTimes s.cfg st.lastPoll (polls.map Poll.now)).sum = s.cfg.emaHalfLife) :
    ∃ st', (runPolls Real.exp s polls).zones.get dstZone = some st' ∧
      (|st'.emaPercent - x| = |st.emaPercent - x| / 2 ↔ st.emaPercent = x) := by
  obtain ⟨st', hst', k, hk, hdist⟩ := exists_factor hst hsteady htimes hsum
  refine ⟨st', hst', ?_⟩
  rw [hdist, ← sub_eq_zero (b := x), ← abs_eq_zero]
  constructor
  · intro hhalf
    have hzero : (k - 1 / 2) * |st.emaPercent - x| = 0 := by linarith
    exact (mul_eq_zero.mp hzero).resolve_left (sub_ne_zero.mpr hk)
  · intro hzero
    rw [hzero]
    norm_num

theorem steady_of_map {x : ℝ} {sts : List (ZoneState ℝ)} {c : List (U64 × ℝ)}
    (hmap : sts.map (fun st => (st.sumSeg, st.instantPercent)) = c)
    (h : ∀ q ∈ c, 0#64 < q.1 ∧ q.2 = x) : Steady x sts := by
  intro st hst
  apply h (st.sumSeg, st.instantPercent)
  rw [← hmap]
  exact List.mem_map_of_mem hst

theorem exists_of_map_get {s : EMAStore ℝ} {dstZone : String} {ema : ℝ} {now : Time}
    (h : (s.zones.get dstZone).map (fun st => (st.emaPercent, st.lastUpdate, st.lastPoll)) =
      some (ema, now, now)) :
    ∃ st, s.zones.get dstZone = some st ∧ st.emaPercent = ema ∧ st.lastUpdate = now ∧
      st.lastPoll = now := by
  obtain ⟨st, hst, heq⟩ := Option.map_eq_some_iff.mp h
  rw [Prod.mk.injEq, Prod.mk.injEq] at heq
  exact ⟨st, hst, heq⟩

def accepted : Config :=
  { twoPolls with
    zoneIDs := Function.update (Function.update (fun _ => none) "a" (some 1#8)) "b" (some 2#8) }

/-- What is polled of zone `b`. -/
def pollOf (seconds : ℕ) (segments retrans : U64) : Poll :=
  ⟨seconds * second, GoMap.empty.set "b" ⟨segments, retrans⟩⟩

/-- The store after a poll one second after the start. -/
noncomputable def storeAfter (segments retrans : U64) : EMAStore ℝ :=
  runPolls Real.exp (newEMAStore accepted [⟨"b", 2#8, "a"⟩]) [pollOf 1 segments retrans]

/-- In the five minutes after that poll the window has 10 retransmits among 100 segments. -/
def tenPercent : List Poll := [pollOf 151 90#64 0#64, pollOf 301 10#64 10#64]

theorem distance_not_halved :
    twoPolls.validate twoPolls.zones.listed twoPolls.zones.listed = .ok accepted ∧
      ∃ st, (storeAfter 10#64 10#64).zones.get "b" = some st ∧ st.lastUpdate ≠ 0 ∧
        Steady 10 (states Real.exp (storeAfter 10#64 10#64) "b" tenPercent) ∧
        (∀ t ∈ elapsedTimes accepted st.lastPoll (tenPercent.map Poll.now), 0 < t) ∧
        (elapsedTimes accepted st.lastPoll (tenPercent.map Poll.now)).sum =
          accepted.emaHalfLife ∧
        ∃ st', (runPolls Real.exp (storeAfter 10#64 10#64) tenPercent).zones.get "b" = some st' ∧
          |st'.emaPercent - 10| ≠ |st.emaPercent - 10| / 2 := by
  refine ⟨rfl, ?_⟩
  have hget : ((storeAfter 10#64 10#64).zones.get "b").map
      (fun st => (st.emaPercent, st.lastUpdate, st.lastPoll)) =
        some (100 * ((10 : ℕ) : ℝ) / ((10 : ℕ) : ℝ), second, second) := by rfl
  obtain ⟨st, hst, hema, hupdate, hpoll⟩ := exists_of_map_get hget
  have hsteady : Steady 10 (states Real.exp (storeAfter 10#64 10#64) "b" tenPercent) := by
    apply steady_of_map
      (c := List.replicate 2 (100#64, 100 * ((10 : ℕ) : ℝ) / ((100 : ℕ) : ℝ))) (by rfl)
    intro q hq
    rw [List.eq_of_mem_replicate hq]
    exact ⟨by decide, by norm_num⟩
  have hpos : ∀ t ∈ elapsedTimes accepted st.lastPoll (tenPercent.map Poll.now), 0 < t := by
    rw [hpoll]
    decide
  have hsum : (elapsedTimes accepted st.lastPoll (tenPercent.map Poll.now)).sum =
      accepted.emaHalfLife := by
    rw [hpoll]
    rfl
  obtain ⟨st', hst', k, hk, hdist⟩ := exists_factor hst hsteady hpos hsum
  refine ⟨st, hst, ?_, hsteady, hpos, hsum, st', hst', ?_⟩
  · rw [hupdate]
    decide
  · intro hhalf
    rw [hdist, hema] at hhalf
    apply hk
    norm_num at hhalf
    linarith

/-- The window has the loss that the first poll had. -/
def stillTenPercent : List Poll := [pollOf 151 10#64 1#64, pollOf 301 10#64 1#64]

theorem halved_iff_reached_stillTenPercent :
    ∃ st, (storeAfter 10#64 1#64).zones.get "b" = some st ∧ ∃ st',
      (runPolls Real.exp (storeAfter 10#64 1#64) stillTenPercent).zones.get "b" = some st' ∧
        |st'.emaPercent - 10| = |st.emaPercent - 10| / 2 := by
  have hget : ((storeAfter 10#64 1#64).zones.get "b").map
      (fun st => (st.emaPercent, st.lastUpdate, st.lastPoll)) =
        some (100 * ((1 : ℕ) : ℝ) / ((10 : ℕ) : ℝ), second, second) := by rfl
  obtain ⟨st, hst, hema, -, hpoll⟩ := exists_of_map_get hget
  have hsteady : Steady 10 (states Real.exp (storeAfter 10#64 1#64) "b" stillTenPercent) := by
    apply steady_of_map
      (c := List.replicate 2 (20#64, 100 * ((2 : ℕ) : ℝ) / ((20 : ℕ) : ℝ))) (by rfl)
    intro q hq
    rw [List.eq_of_mem_replicate hq]
    exact ⟨by decide, by norm_num⟩
  obtain ⟨st', hst', hiff⟩ := halved_iff_reached (storeAfter 10#64 1#64) "b" st hst 10
    stillTenPercent hsteady (by rw [hpoll]; decide) (by rw [hpoll]; rfl)
  refine ⟨st, hst, st', hst', hiff.mpr ?_⟩
  rw [hema]
  norm_num

end PacketLoss.HalfLife
