import PacketLoss.MovingAverage
import Mathlib.Analysis.Complex.Exponential
import Mathlib.Tactic.NormNum

/-!
Published loss is a percentage as far as each poll has no more retransmits than
segments: the percent of a window is in the range from 0 to 100, and the moving
average is a mixture of such percents.
-/
namespace PacketLoss.LossPercent

open Machine ZoneConfig EmaStore WindowHistory MovingAverage Smoothing

variable {K : Type} [Field K] [LinearOrder K] [IsStrictOrderedRing K]

/-- `math.Exp` of a negative number is in the range from 0 to 1. -/
def Damps (exp : K → K) : Prop := ∀ x, x < 0 → 0 ≤ exp x ∧ exp x ≤ 1

theorem damps_exp : Damps Real.exp :=
  fun _ hx => ⟨Real.exp_nonneg _, Real.exp_le_one_iff.mpr hx.le⟩

theorem alpha_bounds {exp : K → K} (hexp : Damps exp) (c : Config) (dt : ℤ) :
    0 ≤ alpha exp c dt ∧ alpha exp c dt ≤ 1 := by
  unfold alpha expNeg
  split
  · constructor <;> norm_num
  split
  · simp
  · rename_i hpos
    obtain ⟨hzero, hone⟩ := hexp (-(seconds dt / seconds c.emaHalfLife))
      (neg_lt_zero.mpr (not_le.mp hpos))
    exact ⟨sub_nonneg.mpr hone, sub_le_self 1 hzero⟩

def IsPercent (x : K) : Prop := 0 ≤ x ∧ x ≤ (100 : ℕ)

theorem isPercent_zero : IsPercent (0 : K) := ⟨le_rfl, Nat.cast_nonneg 100⟩

theorem isPercent_ratio {ret seg : ℕ} (hle : ret ≤ seg) (hpos : 0 < seg) :
    IsPercent ((100 : ℕ) * (ret : K) / (seg : K)) := by
  have hseg : (0 : K) < seg := Nat.cast_pos.mpr hpos
  constructor
  · positivity
  · rw [div_le_iff₀ hseg]
    exact mul_le_mul_of_nonneg_left (Nat.cast_le.mpr hle) (Nat.cast_nonneg 100)

/-- No poll has more retransmits than segments. -/
def Plausible (samples : List CounterSnapshot) : Prop :=
  ∀ d ∈ samples, d.retrans.toNat ≤ d.segments.toNat

theorem retrans_le_segments {samples : List CounterSnapshot} (h : Plausible samples) :
    retrans samples ≤ segments samples := by
  induction samples with
  | nil => exact le_rfl
  | cons d samples ih =>
    have hhead := h d List.mem_cons_self
    have htail := ih fun d' hd' => h d' (List.mem_cons_of_mem _ hd')
    simp only [retrans, segments, List.map_cons, List.sum_cons] at htail ⊢
    omega

theorem isPercent_lastPercent (cap : ℕ) {samples : List CounterSnapshot} (h : Plausible samples) :
    IsPercent (lastPercent cap samples : K) := by
  unfold lastPercent
  split
  · exact isPercent_zero
  · rename_i past hfind
    have hpos := List.find?_some hfind
    rw [decide_eq_true_eq] at hpos
    have hpast : past <+: samples := by
      have hmem := List.mem_of_find?_eq_some hfind
      rwa [List.mem_reverse, List.mem_inits] at hmem
    apply isPercent_ratio _ hpos
    apply retrans_le_segments
    intro d hd
    exact h d (hpast.subset (List.mem_of_mem_drop hd))

variable (c : Config)

theorem emaPercent_updateZone {exp : K → K} (hexp : Damps exp) (now : Time) (d : CounterSnapshot)
    {st : ZoneState K} (hema : IsPercent st.emaPercent)
    (hinstant : IsPercent (updateZone exp c now d st).instantPercent) :
    IsPercent (updateZone exp c now d st).emaPercent := by
  rcases updateZone_cases exp c now d st with ⟨-, haveraged⟩ | ⟨-, hheld⟩
  · rw [haveraged.ema]
    split
    · exact hinstant
    · exact blend_bounds (alpha_bounds hexp c _) hinstant hema
  · rwa [hheld.ema]

/-- Both percents of a zone whose polls are all plausible. -/
theorem isPercent_zoneRun {exp : K → K} (hexp : Damps exp) (z : ResolvedZone) (dstZone : String)
    {polls : List Poll} (hretrans : Plausible (samplesOf dstZone polls))
    (hfits : Fits (instantWindowCap c) (samplesOf dstZone polls)) :
    IsPercent (zoneRun exp c dstZone (newZoneState c z) polls).instantPercent ∧
      IsPercent (zoneRun exp c dstZone (newZoneState c z) polls).emaPercent := by
  have hinstant : IsPercent (zoneRun exp c dstZone (newZoneState c z) polls).instantPercent := by
    rw [instantPercent_zoneRun exp c z dstZone polls hfits]
    exact isPercent_lastPercent _ hretrans
  refine ⟨hinstant, ?_⟩
  induction polls using List.reverseRecOn with
  | nil => exact isPercent_zero
  | append_singleton polls p ih =>
    have hsamples : samplesOf dstZone (polls ++ [p]) =
        samplesOf dstZone polls ++ [deltaOf p.counters dstZone] := by simp [samplesOf]
    rw [hsamples] at hretrans hfits
    have hrest : Plausible (samplesOf dstZone polls) := fun d hd =>
      hretrans d (List.mem_append_left _ hd)
    have hema := ih hrest hfits.of_append (by
      rw [instantPercent_zoneRun exp c z dstZone polls hfits.of_append]
      exact isPercent_lastPercent _ hrest)
    rw [zoneRun_concat] at hinstant ⊢
    exact emaPercent_updateZone c hexp p.now _ hema hinstant

end PacketLoss.LossPercent
