import PacketLoss.EmaStore
import Mathlib.Algebra.Field.Rat
import Mathlib.Algebra.Order.Ring.Unbundled.Rat
import Mathlib.Data.List.Infix

/-!
The window of a zone and the history of its polls. The ring, its two sums and the
loss percent are what one computes anew from the last polls.
-/
namespace PacketLoss.WindowHistory

open Machine ZoneConfig Config ValidConfig EmaStore SlidingWindow

variable {K : Type}

def pair (d : CounterSnapshot) : U64 × U64 := (d.segments, d.retrans)

/-- The ring buffer of a zone, with both sums as one. -/
def ringOf (st : ZoneState K) : RingBuffer (U64 × U64) where
  slots := fun i => ((st.window.getD i ⟨0#64, 0#64⟩).seg, (st.window.getD i ⟨0#64, 0#64⟩).ret)
  pos := st.windowPos
  len := st.windowLen
  sum := (st.sumSeg, st.sumRet)

/-- The window has its slots, and the next one to write is one of them. -/
structure Sized (cap : ℕ) (st : ZoneState K) : Prop where
  windowCap : st.windowCap = cap
  length : st.window.length = cap
  pos_lt : st.windowPos < cap

theorem sized_slide {cap : ℕ} {st : ZoneState K} (h : Sized cap st) (d : CounterSnapshot) :
    Sized cap (slide st d) := by
  obtain ⟨rfl, hlength, hpos⟩ := h
  have hnext : (st.windowPos + 1) % st.windowCap < st.windowCap := Nat.mod_lt _ (by omega)
  unfold slide
  split <;> exact ⟨rfl, by simpa using hlength, hnext⟩

theorem ringOf_slide {cap : ℕ} {st : ZoneState K} (h : Sized cap st) (d : CounterSnapshot) :
    ringOf (slide st d) = push cap (ringOf st) (pair d) := by
  obtain ⟨rfl, hlength, hpos⟩ := h
  have hslots : ∀ i, (st.window.set st.windowPos ⟨d.segments, d.retrans⟩).getD i ⟨0#64, 0#64⟩ =
      if i = st.windowPos then ⟨d.segments, d.retrans⟩ else st.window.getD i ⟨0#64, 0#64⟩ := by
    intro i
    rw [List.getD_eq_getElem?_getD, List.getElem?_set, List.getD_eq_getElem?_getD]
    by_cases hi : i = st.windowPos
    · subst hi
      simp [hlength, hpos]
    · simp [hi, Ne.symm hi]
  have hring : (fun i => (((st.window.set st.windowPos ⟨d.segments, d.retrans⟩).getD i
      ⟨0#64, 0#64⟩).seg, ((st.window.set st.windowPos ⟨d.segments, d.retrans⟩).getD i
      ⟨0#64, 0#64⟩).ret)) = Function.update (ringOf st).slots st.windowPos (pair d) := by
    funext i
    rw [hslots, Function.update_apply]
    by_cases hi : i = st.windowPos <;> simp [hi, ringOf, pair]
  unfold slide
  by_cases hfull : st.windowLen = st.windowCap
  · rw [if_pos hfull]
    apply RingBuffer.ext
    · exact hring
    · rfl
    · exact (if_pos hfull).symm
    · simp [ringOf, push, pair, hfull]
  · rw [if_neg hfull]
    apply RingBuffer.ext
    · exact hring
    · rfl
    · exact (if_neg hfull).symm
    · simp [ringOf, push, pair, hfull]

def segments (samples : List CounterSnapshot) : ℕ := (samples.map fun d => d.segments.toNat).sum

def retrans (samples : List CounterSnapshot) : ℕ := (samples.map fun d => d.retrans.toNat).sum

theorem toNat_sum_pair (samples : List CounterSnapshot) :
    (samples.map pair).sum.1.toNat = segments samples % 2 ^ 64 ∧
      (samples.map pair).sum.2.toNat = retrans samples % 2 ^ 64 := by
  induction samples with
  | nil => decide
  | cons d samples ih =>
    simp only [List.map_cons, List.sum_cons, Prod.fst_add, Prod.snd_add, BitVec.toNat_add, ih.1,
      ih.2, segments, retrans, pair, Nat.add_mod_mod, and_self]

theorem instantWindowCap_pos (c : Config) : 0 < instantWindowCap c := by
  unfold instantWindowCap
  dsimp only
  split <;> omega

/-- What the polls have to say about one zone. -/
def samplesOf (dstZone : String) (polls : List Poll) : List CounterSnapshot :=
  polls.map fun p => deltaOf p.counters dstZone

variable [Field K]

theorem sized_newZoneState (c : Config) (z : ResolvedZone) :
    Sized (instantWindowCap c) (newZoneState c z : ZoneState K) where
  windowCap := rfl
  length := List.length_replicate
  pos_lt := instantWindowCap_pos c

theorem ringOf_newZoneState (c : Config) (z : ResolvedZone) :
    ringOf (newZoneState c z : ZoneState K) = empty := by
  apply RingBuffer.ext
  · funext i
    simp only [ringOf, newZoneState, List.getD_eq_getElem?_getD, List.getElem?_replicate]
    split <;> rfl
  · rfl
  · rfl
  · rfl

/-- The loss percent of the last `cap` polls, at the most recent poll for which
they had a segment. -/
def lastPercent (cap : ℕ) (samples : List CounterSnapshot) : K :=
  match samples.inits.reverse.find? fun past => 0 < segments (past.rtake cap) with
  | none => 0
  | some past =>
    (100 : ℕ) * (retrans (past.rtake cap) : K) / (segments (past.rtake cap) : K)

/-- The sums over every window fit in 64 bits. -/
def Fits (cap : ℕ) (samples : List CounterSnapshot) : Prop :=
  ∀ past, past <+: samples →
    segments (past.rtake cap) < 2 ^ 64 ∧ retrans (past.rtake cap) < 2 ^ 64

/-- The state of a zone's window after the given samples. -/
structure Windowed (cap : ℕ) (samples : List CounterSnapshot) (st : ZoneState K) : Prop where
  sized : Sized cap st
  windowPos : st.windowPos = samples.length % cap
  windowLen : st.windowLen = min samples.length cap
  sumSeg : st.sumSeg.toNat = segments (samples.rtake cap) % 2 ^ 64
  sumRet : st.sumRet.toNat = retrans (samples.rtake cap) % 2 ^ 64
  instant : Fits cap samples → st.instantPercent = lastPercent cap samples

theorem Fits.of_append {cap : ℕ} {samples rest : List CounterSnapshot}
    (h : Fits cap (samples ++ rest)) : Fits cap samples := by
  intro past hpast
  exact h past (hpast.trans (List.prefix_append _ _))

theorem lastPercent_nil (cap : ℕ) : (lastPercent cap [] : K) = 0 := by
  simp [lastPercent, segments]

theorem lastPercent_concat (cap : ℕ) (samples : List CounterSnapshot) (d : CounterSnapshot) :
    (lastPercent cap (samples ++ [d]) : K) =
      if 0 < segments ((samples ++ [d]).rtake cap) then
        100 * (retrans ((samples ++ [d]).rtake cap) : K) /
          (segments ((samples ++ [d]).rtake cap) : K)
      else lastPercent cap samples := by
  have hinits : (samples ++ [d]).inits.reverse = (samples ++ [d]) :: samples.inits.reverse := by
    simp [List.inits_append]
  unfold lastPercent
  rw [hinits, List.find?_cons]
  by_cases hpos : 0 < segments ((samples ++ [d]).rtake cap) <;> simp [hpos]

variable [LinearOrder K] (exp : K → K) (c : Config)

theorem ringOf_smooth (now : Time) (dt : ℤ) (st : ZoneState K) :
    ringOf (smooth exp c now dt st) = ringOf st := by
  unfold smooth
  split <;> rfl

theorem ringOf_updateZone (now : Time) (d : CounterSnapshot) (st : ZoneState K) :
    ringOf (updateZone exp c now d st) = ringOf (slide st d) := ringOf_smooth exp c now _ _

theorem sized_updateZone {cap : ℕ} {st : ZoneState K} (h : Sized cap st) (now : Time)
    (d : CounterSnapshot) : Sized cap (updateZone exp c now d st) := by
  have hslide := sized_slide h d
  have hsmooth : ∀ dt, Sized cap (smooth exp c now dt (slide st d)) := by
    intro dt
    unfold smooth
    split <;> exact ⟨hslide.windowCap, hslide.length, hslide.pos_lt⟩
  exact ⟨(hsmooth _).windowCap, (hsmooth _).length, (hsmooth _).pos_lt⟩

/-- The window of a zone refines the ring buffer. -/
theorem ringOf_zoneRun {cap : ℕ} {st : ZoneState K} (h : Sized cap st) (dstZone : String)
    (polls : List Poll) :
    Sized cap (zoneRun exp c dstZone st polls) ∧
      ringOf (zoneRun exp c dstZone st polls) =
        ((samplesOf dstZone polls).map pair).foldl (push cap) (ringOf st) := by
  induction polls generalizing st with
  | nil => exact ⟨h, rfl⟩
  | cons p polls ih =>
    obtain ⟨hsized, hring⟩ := ih (sized_updateZone exp c h p.now (deltaOf p.counters dstZone))
    refine ⟨hsized, hring.trans ?_⟩
    rw [ringOf_updateZone, ringOf_slide h]
    rfl

theorem zoneRun_concat (dstZone : String) (st : ZoneState K) (polls : List Poll) (p : Poll) :
    zoneRun exp c dstZone st (polls ++ [p]) =
      updateZone exp c p.now (deltaOf p.counters dstZone) (zoneRun exp c dstZone st polls) := by
  simp [zoneRun, List.foldl_append]

theorem instantPercent_updateZone (now : Time) (d : CounterSnapshot) (st : ZoneState K) :
    (updateZone exp c now d st).instantPercent =
      if 0 < (updateZone exp c now d st).sumSeg.toNat then
        100 * ((updateZone exp c now d st).sumRet.toNat : K) /
          ((updateZone exp c now d st).sumSeg.toNat : K)
      else st.instantPercent := by
  have hsum := congrArg RingBuffer.sum (ringOf_updateZone exp c now d st)
  simp only [ringOf, Prod.mk.injEq] at hsum
  rw [hsum.1, hsum.2]
  have hslide : (slide st d).instantPercent = st.instantPercent := by
    unfold slide
    split <;> rfl
  rw [← hslide]
  unfold updateZone smooth
  by_cases hpos : 0#64 < (slide st d).sumSeg
  · have hpos' : 0 < (slide st d).sumSeg.toNat := hpos
    simp [hpos, hpos']
  · have hpos' : ¬0 < (slide st d).sumSeg.toNat := hpos
    simp [hpos, hpos']

/-- The sums of a new zone after any polls. -/
theorem sums_zoneRun (z : ResolvedZone) (dstZone : String) (polls : List Poll) :
    let st : ZoneState K := zoneRun exp c dstZone (newZoneState c z) polls
    let recent := (samplesOf dstZone polls).rtake (instantWindowCap c)
    st.sumSeg.toNat = segments recent % 2 ^ 64 ∧ st.sumRet.toNat = retrans recent % 2 ^ 64 := by
  intro st recent
  obtain ⟨-, hring⟩ := ringOf_zoneRun exp c (sized_newZoneState c z) dstZone polls
  have hholds := holds_foldl (instantWindowCap_pos c) ((samplesOf dstZone polls).map pair)
  rw [← ringOf_newZoneState (K := K) c z, ← hring] at hholds
  have hsum := hholds.sum
  have hmap : ((samplesOf dstZone polls).map pair).rtake (instantWindowCap c) =
      recent.map pair := by
    simp only [recent, List.rtake, List.length_map, List.map_drop]
  rw [hmap] at hsum
  obtain ⟨hseg, hret⟩ := toNat_sum_pair recent
  rw [← hsum] at hseg hret
  exact ⟨hseg, hret⟩

theorem instantPercent_zoneRun (z : ResolvedZone) (dstZone : String) (polls : List Poll)
    (hfits : Fits (instantWindowCap c) (samplesOf dstZone polls)) :
    (zoneRun exp c dstZone (newZoneState c z : ZoneState K) polls).instantPercent =
      lastPercent (instantWindowCap c) (samplesOf dstZone polls) := by
  induction polls using List.reverseRecOn with
  | nil => exact (lastPercent_nil _).symm
  | append_singleton polls p ih =>
    have hsamples : samplesOf dstZone (polls ++ [p]) =
        samplesOf dstZone polls ++ [deltaOf p.counters dstZone] := by simp [samplesOf]
    obtain ⟨hseg, hret⟩ := sums_zoneRun (K := K) exp c z dstZone (polls ++ [p])
    have hlast := hfits _ (List.prefix_refl _)
    rw [Nat.mod_eq_of_lt hlast.1] at hseg
    rw [Nat.mod_eq_of_lt hlast.2] at hret
    rw [hsamples] at hfits hseg hret ⊢
    rw [zoneRun_concat] at hseg hret ⊢
    rw [instantPercent_updateZone, hseg, hret, lastPercent_concat, ih hfits.of_append]

theorem windowed_zoneRun (z : ResolvedZone) (dstZone : String) (polls : List Poll) :
    Windowed (instantWindowCap c) (samplesOf dstZone polls)
      (zoneRun exp c dstZone (newZoneState c z : ZoneState K) polls) := by
  obtain ⟨hsized, hring⟩ := ringOf_zoneRun exp c (sized_newZoneState c z) dstZone polls
  have hholds := holds_foldl (instantWindowCap_pos c) ((samplesOf dstZone polls).map pair)
  rw [← ringOf_newZoneState (K := K) c z, ← hring] at hholds
  obtain ⟨hseg, hret⟩ := sums_zoneRun (K := K) exp c z dstZone polls
  have hpos := hholds.pos
  have hlen := hholds.len
  rw [List.length_map] at hpos hlen
  exact ⟨hsized, hpos, hlen, hseg, hret, instantPercent_zoneRun exp c z dstZone polls⟩

/-- Whatever is polled, each zone's window is what its last polls give anew. -/
theorem window_eq_recomputed (range : c.zones.Range) (polls : List Poll) (z : ResolvedZone)
    (hz : z ∈ c.remoteZones range) :
    ∃ st : ZoneState K,
      (runPolls exp (newEMAStore c (c.remoteZones range)) polls).zones.get z.dstZone =
        some st ∧ Windowed (instantWindowCap c) (samplesOf z.dstZone polls) st := by
  refine ⟨_, ?_, windowed_zoneRun exp c z z.dstZone polls⟩
  rw [get_runPolls, get_newEMAStore c (nodup_remoteZones range) hz]
  rfl

/-- A window of two polls, over the source zone `a` and the remote zone `b`. -/
def twoPolls : Config where
  sourceZone := "a"
  listen := ":9435"
  pollInterval := second
  instantWindow := 2 * second
  zones := ⟨[("a", ["10.0.0.0/24"]), ("b", ["10.0.1.0/24"])], by decide⟩
  emaHalfLife := 5 * 60 * second
  zoneIDs := fun name => if name = "a" then some 1#8 else some 2#8

/-- Zone `b` has 10 segments, then no entry, then 4 segments. -/
def threePolls : List Poll :=
  [⟨second, GoMap.empty.set "b" ⟨10#64, 1#64⟩⟩, ⟨2 * second, GoMap.empty⟩,
    ⟨3 * second, GoMap.empty.set "b" ⟨4#64, 1#64⟩⟩]

theorem window_eq_recomputed_threePolls :
    ∃ st : ZoneState ℚ,
      (runPolls (fun x => 1 / (1 - x))
        (newEMAStore twoPolls (twoPolls.remoteZones twoPolls.zones.listed)) threePolls).zones.get
          "b" = some st ∧ Windowed 2 [⟨10#64, 1#64⟩, ⟨0#64, 0#64⟩, ⟨4#64, 1#64⟩] st ∧
            st.sumSeg.toNat = 4 ∧ st.windowPos = 1 := by
  obtain ⟨st, hst, hwindow⟩ := window_eq_recomputed (K := ℚ) (fun x => 1 / (1 - x)) twoPolls
    twoPolls.zones.listed threePolls ⟨"b", 2#8, "a"⟩ (by decide)
  exact ⟨st, hst, hwindow, hwindow.sumSeg, hwindow.windowPos⟩

end PacketLoss.WindowHistory
