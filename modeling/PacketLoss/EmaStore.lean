import PacketLoss.SlidingWindow
import PacketLoss.ValidConfig
import Mathlib.Algebra.Field.Basic
import Mathlib.Algebra.Group.Prod
import Mathlib.Data.BitVec
import Mathlib.Order.Defs.LinearOrder

/-!
internal/metrics/ema.go: for each remote zone a window over the last polls, the
loss percent of the window and its moving average. Percents are elements of an
arbitrary field `K`, so their arithmetic is exact, and `math.Exp` is a parameter.
-/
namespace PacketLoss.EmaStore

open Machine ZoneConfig SlidingWindow

/-- `time.Time`, in nanoseconds after the zero time. -/
abbrev Time := ℤ

/-- `Time.Sub`, which keeps to the range of `time.Duration`. -/
def sub (t u : Time) : ℤ := max (-2 ^ 63) (min (2 ^ 63 - 1) (t - u))

structure CounterSnapshot where
  segments : U64
  retrans : U64
deriving DecidableEq

structure Sample where
  seg : U64
  ret : U64
deriving DecidableEq

structure ZoneState (K : Type) where
  sourceZone : String
  dstZone : String
  instantPercent : K
  emaPercent : K
  lastUpdate : Time
  lastPoll : Time
  window : List Sample
  windowCap : ℕ
  windowPos : ℕ
  windowLen : ℕ
  sumSeg : U64
  sumRet : U64
deriving DecidableEq

structure EMAStore (K : Type) where
  cfg : Config
  zones : GoMap String (ZoneState K)

def instantWindowCap (c : Config) : ℕ :=
  let n := c.instantWindow.tdiv c.pollInterval
  if n < 1 then 1 else n.toNat

section Arithmetic

variable {K : Type}

/-- The first half of the loop body of `Update`: the window and its sums. -/
def slide (st : ZoneState K) (delta : CounterSnapshot) : ZoneState K :=
  let st :=
    if st.windowLen = st.windowCap then
      let old := st.window.getD st.windowPos ⟨0#64, 0#64⟩
      { st with sumSeg := st.sumSeg - old.seg, sumRet := st.sumRet - old.ret }
    else { st with windowLen := st.windowLen + 1 }
  { st with
    window := st.window.set st.windowPos ⟨delta.segments, delta.retrans⟩
    sumSeg := st.sumSeg + delta.segments
    sumRet := st.sumRet + delta.retrans
    windowPos := (st.windowPos + 1) % st.windowCap }

variable [Field K]

def newZoneState (c : Config) (z : ResolvedZone) : ZoneState K where
  sourceZone := z.sourceZone
  dstZone := z.dstZone
  instantPercent := 0
  emaPercent := 0
  lastUpdate := 0
  lastPoll := 0
  window := List.replicate (instantWindowCap c) ⟨0#64, 0#64⟩
  windowCap := instantWindowCap c
  windowPos := 0
  windowLen := 0
  sumSeg := 0#64
  sumRet := 0#64

def newEMAStore (c : Config) (zones : List ResolvedZone) : EMAStore K where
  cfg := c
  zones := GoMap.ofEntries (zones.map fun z => (z.dstZone, newZoneState c z))

theorem get_newEMAStore (c : Config) {zones : List ResolvedZone}
    (hnodup : (zones.map ResolvedZone.dstZone).Nodup) {z : ResolvedZone} (hz : z ∈ zones) :
    (newEMAStore c zones : EMAStore K).zones.get z.dstZone = some (newZoneState c z) := by
  unfold newEMAStore
  rw [GoMap.get_ofEntries (by rwa [List.map_map])]
  exact List.mem_map_of_mem hz

/-- `Duration.Seconds` -/
def seconds (d : ℤ) : K := d / 1000000000

variable [LinearOrder K] (exp : K → K)

def expNeg (x : K) : K := if x ≤ 0 then 1 else exp (-x)

def alpha (c : Config) (dt : ℤ) : K :=
  if c.emaHalfLife ≤ 0 then 3 / 10
  else 1 - expNeg exp (seconds dt / seconds c.emaHalfLife)

/-- The second half: the percents, which are kept when the window is empty. -/
def smooth (c : Config) (now : Time) (dt : ℤ) (st : ZoneState K) : ZoneState K :=
  if 0#64 < st.sumSeg then
    let instant : K := 100 * (st.sumRet.toNat : K) / (st.sumSeg.toNat : K)
    { st with
      instantPercent := instant
      emaPercent :=
        if st.lastUpdate = 0 then instant
        else alpha exp c dt * instant + (1 - alpha exp c dt) * st.emaPercent
      lastUpdate := now }
  else st

def updateZone (c : Config) (now : Time) (delta : CounterSnapshot) (st : ZoneState K) :
    ZoneState K :=
  let dt := if st.lastPoll = 0 then c.pollInterval else sub now st.lastPoll
  { smooth exp c now dt (slide st delta) with lastPoll := now }

/-- The counters of a zone; a zone without an entry reads as zero. -/
def deltaOf (counters : GoMap String CounterSnapshot) (dstZone : String) : CounterSnapshot :=
  (counters.get dstZone).getD ⟨0#64, 0#64⟩

/-- `Update` ranges over the zones, and each of them reads and writes only its own state. -/
def update (s : EMAStore K) (now : Time) (counters : GoMap String CounterSnapshot) : EMAStore K :=
  { s with
    zones := s.zones.mapValues fun dstZone st =>
      updateZone exp s.cfg now (deltaOf counters dstZone) st }

def EMAStore.snapshot (s : EMAStore K) (range : s.zones.Range) : List (ZoneState K) :=
  range.order.map Prod.snd

/-- One call of `Update`. -/
structure Poll where
  now : Time
  counters : GoMap String CounterSnapshot

def runPolls (s : EMAStore K) (polls : List Poll) : EMAStore K :=
  polls.foldl (fun s p => update exp s p.now p.counters) s

/-- What one zone sees of the polls. -/
def zoneRun (c : Config) (dstZone : String) (st : ZoneState K) (polls : List Poll) : ZoneState K :=
  polls.foldl (fun st p => updateZone exp c p.now (deltaOf p.counters dstZone) st) st

theorem get_update (s : EMAStore K) (p : Poll) (dstZone : String) :
    (update exp s p.now p.counters).zones.get dstZone =
      (s.zones.get dstZone).map
        (updateZone exp s.cfg p.now (deltaOf p.counters dstZone)) := GoMap.get_mapValues _ _ _

/-- The zones do not see each other. -/
theorem get_runPolls (s : EMAStore K) (polls : List Poll) (dstZone : String) :
    (runPolls exp s polls).zones.get dstZone =
      (s.zones.get dstZone).map fun st => zoneRun exp s.cfg dstZone st polls := by
  induction polls generalizing s with
  | nil => simp [runPolls, zoneRun]
  | cons p polls ih =>
    have hrest := ih (update exp s p.now p.counters)
    rw [get_update, Option.map_map] at hrest
    exact hrest

/-- What is handed to `Publish` is the state of each zone after the polls. -/
theorem exists_of_mem_snapshot (c : Config) {zones : List ResolvedZone}
    (hnodup : (zones.map ResolvedZone.dstZone).Nodup) (polls : List Poll)
    (range : (runPolls exp (newEMAStore c zones) polls).zones.Range) {st : ZoneState K}
    (hst : st ∈ (runPolls exp (newEMAStore c zones) polls).snapshot range) :
    ∃ z ∈ zones, st = zoneRun exp c z.dstZone (newZoneState c z) polls := by
  obtain ⟨⟨name, st'⟩, hmem, rfl⟩ := List.mem_map.mp hst
  rw [GoMap.Range.mem_iff, ← GoMap.get_eq_some_iff, get_runPolls, Option.map_eq_some_iff] at hmem
  obtain ⟨st₀, hst₀, hrun⟩ := hmem
  unfold newEMAStore at hst₀
  rw [GoMap.get_ofEntries (by rwa [List.map_map]), List.mem_map] at hst₀
  obtain ⟨z, hz, heq⟩ := hst₀
  obtain ⟨rfl, rfl⟩ := Prod.mk.inj heq
  exact ⟨z, hz, hrun.symm⟩

end Arithmetic

end PacketLoss.EmaStore
