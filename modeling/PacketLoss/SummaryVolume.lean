import PacketLoss.Divergence
import PacketLoss.TickSummary

/-!
What the volume of a tick does to the summary. A zone without losses is `idle` only
if it also has no segments, so its volume changes the body when it falls to zero or
rises from it; no other volume does.
-/
namespace PacketLoss.SummaryVolume

open Machine TickSummary Divergence

variable {F : Type} (S : SortSlice)

/-- Two zones of one name with the same percents. -/
def SamePercents (z z' : ZoneTick F) : Prop :=
  z.zone = z'.zone ∧ z.loss = z'.loss ∧ z.ema = z'.ema

/-- Two ticks that differ at most in the volumes. -/
structure SameButVolume (c c' : TickCounters F) : Prop where
  zones : List.Forall₂ SamePercents c.zones c'.zones
  tcp : c.tcp = 0#64 ↔ c'.tcp = 0#64
  zoned : c.zoned = 0#64 ↔ c'.zoned = 0#64
  unknown : c.unknown = c'.unknown

theorem warnings_eq {c c' : TickCounters F} (h : SameButVolume c c') :
    warnings c = warnings c' := by
  have htcp : 0#64 < c.tcp ↔ 0#64 < c'.tcp := by
    have hzero := h.tcp
    bv_omega
  unfold warnings
  simp only [h.tcp, h.zoned, h.unknown, htcp]

/-- The sort puts the zones of both ticks in the same order. -/
theorem exists_pairs {c c' : TickCounters F} (h : SameButVolume c c') :
    ∃ pairs : List (ZoneTick F × ZoneTick F),
      S.slice ZoneTick.zone c.zones = pairs.map Prod.fst ∧
        S.slice ZoneTick.zone c'.zones = pairs.map Prod.snd ∧
          pairs.Perm (c.zones.zip c'.zones) := by
  obtain ⟨hlength, hsame⟩ := List.forall₂_iff_zip.mp h.zones
  refine ⟨S.slice (ZoneTick.zone ∘ Prod.fst) (c.zones.zip c'.zones), ?_, ?_, S.perm_slice _ _⟩
  · rw [← S.slice_map, List.map_fst_zip hlength.le]
  · have hsnd := S.slice_map ZoneTick.zone Prod.snd (c.zones.zip c'.zones)
    rw [List.map_snd_zip hlength.ge] at hsnd
    exact hsnd.trans (congrArg (List.map Prod.snd) (S.slice_congr fun p hp => (hsame hp).1.symm))

variable [Percent F]

/-- A zone without losses has segments in both or in none. -/
def IdleAlike (z z' : ZoneTick F) : Prop :=
  Percent.isZero z.loss → Percent.isZero z.ema → (z.segments = 0#64 ↔ z'.segments = 0#64)

theorem idle_iff_idle {z z' : ZoneTick F} (h : SamePercents z z') :
    (z.Idle ↔ z'.Idle) ↔ IdleAlike z z' := by
  obtain ⟨-, hloss, hema⟩ := h
  unfold ZoneTick.Idle IdleAlike
  rw [hloss, hema]
  tauto

theorem zoneBody_diverge {z z' : ZoneTick F} (hname : z.zone = z'.zone) (hidle : z.Idle)
    (hnot : ¬z'.Idle) : Diverge (zoneBody z).toList (zoneBody z').toList := by
  have hleft : (zoneBody z).toList = (z.zone.toList ++ ['=']) ++ 'i' :: "dle".toList := by
    rw [zoneBody, if_pos hidle]
    simp
  have hright : (zoneBody z').toList = (z.zone.toList ++ ['=']) ++ 'l' ::
      ("oss" ++ Percent.fixed1 z'.loss ++ "%/ema" ++ Percent.fixed1 z'.ema ++ "%").toList := by
    rw [zoneBody, if_neg hnot, hname]
    simp
  rw [hleft, hright]
  exact (diverge_cons (by decide) _ _).prepend _

theorem zoneBody_cases {z z' : ZoneTick F} (h : SamePercents z z') :
    (IdleAlike z z' ∧ zoneBody z = zoneBody z') ∨
      (¬IdleAlike z z' ∧ Diverge (zoneBody z).toList (zoneBody z').toList) := by
  rw [← idle_iff_idle h]
  by_cases hidle : z.Idle
  · by_cases hidle' : z'.Idle
    · left
      refine ⟨by tauto, ?_⟩
      rw [zoneBody, zoneBody, if_pos hidle, if_pos hidle', h.1]
    · exact Or.inr ⟨by tauto, zoneBody_diverge h.1 hidle hidle'⟩
  · by_cases hidle' : z'.Idle
    · exact Or.inr ⟨by tauto, (zoneBody_diverge h.1.symm hidle' hidle).symm⟩
    · left
      refine ⟨by tauto, ?_⟩
      rw [zoneBody, zoneBody, if_neg hidle, if_neg hidle', h.1, h.2.1, h.2.2]

/-- Joined from the zones in the same order, the bodies are equal where those of
all zones are. -/
theorem intercalate_zoneBody_eq_iff {pairs : List (ZoneTick F × ZoneTick F)}
    (hsame : ∀ p ∈ pairs, SamePercents p.1 p.2) :
    String.intercalate " " (pairs.map fun p => zoneBody p.1) =
        String.intercalate " " (pairs.map fun p => zoneBody p.2) ↔
      ∀ p ∈ pairs, IdleAlike p.1 p.2 := by
  have hparts : List.Forall₂ (fun x y => x = y ∨ Diverge x y)
      (pairs.map fun p => (zoneBody p.1).toList) (pairs.map fun p => (zoneBody p.2).toList) := by
    rw [List.forall₂_map_left_iff, List.forall₂_map_right_iff, List.forall₂_same]
    intro p hp
    rcases zoneBody_cases (hsame p hp) with ⟨-, heq⟩ | ⟨-, hdiverge⟩
    · exact Or.inl (congrArg String.toList heq)
    · exact Or.inr hdiverge
  rw [← String.toList_inj, String.toList_intercalate, String.toList_intercalate, List.map_map,
    List.map_map]
  apply (intercalate_eq_iff _ hparts).trans
  rw [List.map_inj_left]
  refine forall₂_congr fun p hp => ?_
  rcases zoneBody_cases (hsame p hp) with ⟨halike, heq⟩ | ⟨hnot, hdiverge⟩
  · simp [halike, heq]
  · simp [hnot, hdiverge.ne]

theorem body_eq_iff {c c' : TickCounters F} (h : SameButVolume c c') :
    (formatTickSummary S c).1 = (formatTickSummary S c').1 ↔
      List.Forall₂ IdleAlike c.zones c'.zones := by
  obtain ⟨pairs, hfst, hsnd, hperm⟩ := exists_pairs S h
  obtain ⟨hlength, hsame⟩ := List.forall₂_iff_zip.mp h.zones
  have hpairs : ∀ p ∈ pairs, SamePercents p.1 p.2 := fun p hp => hsame (hperm.mem_iff.mp hp)
  have hbodies := intercalate_zoneBody_eq_iff hpairs
  simp only [formatTickSummary, hfst, hsnd, warnings_eq h, String.append_left_inj, List.map_map]
  apply hbodies.trans
  rw [List.forall₂_iff_zip, and_iff_right hlength]
  constructor
  · intro hall z z' hz
    exact hall (z, z') (hperm.mem_iff.mpr hz)
  · intro hall p hp
    exact hall (hperm.mem_iff.mp hp)

/-- Two runs whose ticks differ at most in the volumes, by which no zone turns idle
or ceases to be. -/
theorem stateAfter_eq (init : SummaryState) {ticks ticks' : ℕ → TickCounters F}
    (hsame : ∀ t, SameButVolume (ticks t) (ticks' t))
    (htick : ∀ t, (ticks t).tick = (ticks' t).tick) {n : ℕ}
    (halike : ∀ t, 0 < t → t ≤ n → List.Forall₂ IdleAlike (ticks t).zones (ticks' t).zones) :
    stateAfter S init ticks n = stateAfter S init ticks' n ∧
      (lineAt S init ticks n).isSome = (lineAt S init ticks' n).isSome := by
  induction n with
  | zero => exact ⟨rfl, rfl⟩
  | succ n ih =>
    obtain ⟨hstate, -⟩ := ih fun t hpos hle => halike t hpos (by omega)
    have hbody := (body_eq_iff S (hsame (n + 1))).mpr (halike (n + 1) (by omega) le_rfl)
    simp only [stateAfter, lineAt, emitTickSummary, hstate, hbody, htick]
    split <;> exact ⟨rfl, rfl⟩

/-- The volumes leave a body as it is exactly where no zone without losses has
segments in one tick only; and where that holds of the ticks of two runs, both log
at the same ticks. -/
theorem silent_iff_idleAlike :
    (∀ c c' : TickCounters F, SameButVolume c c' →
      ((formatTickSummary S c).1 = (formatTickSummary S c').1 ↔
        List.Forall₂ IdleAlike c.zones c'.zones)) ∧
      ∀ (init : SummaryState) (ticks ticks' : ℕ → TickCounters F),
        (∀ t, SameButVolume (ticks t) (ticks' t)) → (∀ t, (ticks t).tick = (ticks' t).tick) →
          ∀ n, (∀ t, 0 < t → t ≤ n → List.Forall₂ IdleAlike (ticks t).zones (ticks' t).zones) →
            ∀ t ≤ n, (lineAt S init ticks t).isSome = (lineAt S init ticks' t).isSome := by
  refine ⟨fun c c' hsame => body_eq_iff S hsame, ?_⟩
  intro init ticks ticks' hsame htick n halike t hle
  exact (stateAfter_eq S init hsame htick fun u hpos hu => halike u hpos (hu.trans hle)).2

/-- The ticks of the test with any volume of zone `f`, which has losses. -/
def withVolume (segments retrans : U64) (t : ℕ) : TickCounters ℚ :=
  { sampleTick (BitVec.ofNat 64 t) with
    zones := [⟨"f", segments, retrans, 66 / 100, 1 / 2⟩, ⟨"c", 0#64, 0#64, 0, 0⟩] }

theorem silent_iff_idleAlike_withVolume :
    (formatTickSummary stableSort (withVolume 5818#64 71#64 1)).1 =
        (formatTickSummary stableSort (withVolume 4000#64 1#64 2)).1 ∧
      ∀ t ≤ 100, (lineAt stableSort ⟨"", 0#64⟩ (withVolume 5818#64 71#64) t).isSome =
        (lineAt stableSort ⟨"", 0#64⟩ (withVolume 4000#64 1#64) t).isSome := by
  have hsame : ∀ t u, SameButVolume (withVolume 5818#64 71#64 t) (withVolume 4000#64 1#64 u) := by
    intro t u
    refine ⟨?_, Iff.rfl, Iff.rfl, rfl⟩
    simp [withVolume, SamePercents]
  have halike : ∀ t u, List.Forall₂ IdleAlike (withVolume 5818#64 71#64 t).zones
      (withVolume 4000#64 1#64 u).zones := by
    intro t u
    simp [withVolume, IdleAlike]
  obtain ⟨hbody, hrun⟩ := silent_iff_idleAlike (F := ℚ) stableSort
  exact ⟨(hbody _ _ (hsame 1 2)).mpr (halike 1 2),
    hrun ⟨"", 0#64⟩ _ _ (fun t => hsame t t) (fun _ => rfl) 100 fun t _ _ => halike t t⟩

/-- Zone `c` has no losses, and segments in the second tick only. -/
def risen (segments : U64) (t : ℕ) : TickCounters ℚ :=
  { sampleTick (BitVec.ofNat 64 t) with
    zones := [⟨"c", if t = 2 then segments else 0#64, 0#64, 0, 0⟩] }

theorem volume_logs_line :
    (∀ t, SameButVolume (risen 0#64 t) (risen 5#64 t)) ∧
      (formatTickSummary stableSort (risen 0#64 2)).1 = "c=idle" ∧
      (formatTickSummary stableSort (risen 5#64 2)).1 = "c=loss0.0%/ema0.0%" ∧
      lineAt stableSort ⟨"", 0#64⟩ (risen 0#64) 2 = none ∧
      lineAt stableSort ⟨"", 0#64⟩ (risen 5#64) 2 =
        some "tick 2: c=loss0.0%/ema0.0% seg/ret=c:5/0" := by
  refine ⟨?_, by decide +kernel, by decide +kernel, by decide +kernel, by decide +kernel⟩
  intro t
  refine ⟨?_, Iff.rfl, Iff.rfl, rfl⟩
  simp [risen, SamePercents]

end PacketLoss.SummaryVolume
