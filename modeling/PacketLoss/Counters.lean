import PacketLoss.EmaStore
import PacketLoss.PathEgress

/-!
The accumulator of cmd/ebpf-packet-loss-exporter: the reader of the ring buffer
adds the events of each zone, and each poll swaps the counters out. Zones are
numbered by their place in the list that the accumulator is made from.
-/
namespace PacketLoss.Counters

open Machine ZoneConfig PathEgress EmaStore

def statsEventSize : ℕ := 8

structure Accumulator (n : ℕ) where
  segs : Fin n → U64
  rets : Fin n → U64
  zoneNames : Fin n → String
  unknown : U64

def newAccumulator (zones : List ResolvedZone) : Accumulator zones.length where
  segs := fun _ => 0#64
  rets := fun _ => 0#64
  zoneNames := fun i => (zones.get i).dstZone
  unknown := 0#64

def parseStatsEvent (e : Endian) (raw : List U8) : Except FmtError StatsEvent :=
  let byte := fun i => raw.getD i 0#8
  if raw.length < statsEventSize then
    .error ⟨"short ringbuf sample: %d bytes", [toString raw.length]⟩
  else .ok ⟨loadU32 e (byte 0) (byte 1) (byte 2) (byte 3), byte 4, byte 5⟩

/-- The bytes of an event in the ring buffer; nothing writes the padding. -/
def statsEventBytes (e : Endian) (evt : StatsEvent) (pad : U8 × U8) : List U8 :=
  storeU32 e evt.ifindex ++ [evt.dstZoneId, evt.isRetrans, pad.1, pad.2]

theorem parseStatsEvent_statsEventBytes (e : Endian) (evt : StatsEvent) (pad : U8 × U8) :
    parseStatsEvent e (statsEventBytes e evt pad) = .ok evt := by
  obtain ⟨b0, b1, b2, b3, hbytes, hload⟩ := loadU32_storeU32 e evt.ifindex
  rw [statsEventBytes, hbytes]
  show Except.ok (StatsEvent.mk (loadU32 e b0 b1 b2 b3) evt.dstZoneId evt.isRetrans) = _
  rw [hload]

def buildZoneIndex (zones : List ResolvedZone) : GoMap U8 (Fin zones.length) :=
  GoMap.ofEntries ((List.finRange zones.length).map fun i => ((zones.get i).zoneID, i))

/-- With distinct ids, the index finds each zone at its place. -/
theorem get_buildZoneIndex {zones : List ResolvedZone}
    (hnodup : (zones.map ResolvedZone.zoneID).Nodup) (i : Fin zones.length) :
    (buildZoneIndex zones).get (zones.get i).zoneID = some i := by
  unfold buildZoneIndex
  rw [GoMap.get_ofEntries]
  · exact List.mem_map_of_mem (List.mem_finRange i)
  · have hids : ((List.finRange zones.length).map fun i => ((zones.get i).zoneID, i)).map Prod.fst =
        zones.map ResolvedZone.zoneID := by
      rw [List.map_map]
      show (List.finRange zones.length).map (ResolvedZone.zoneID ∘ zones.get) = _
      rw [← List.map_map, List.map_get_finRange]
    rwa [hids]

namespace Accumulator

variable {n : ℕ} (acc : Accumulator n)

/-- `atomic.AddUint64(&acc.segs[idx], 1)` -/
def addSeg (idx : Fin n) : Accumulator n :=
  { acc with segs := Function.update acc.segs idx (acc.segs idx + 1#64) }

/-- `atomic.AddUint64(&acc.rets[idx], 1)` -/
def addRet (idx : Fin n) : Accumulator n :=
  { acc with rets := Function.update acc.rets idx (acc.rets idx + 1#64) }

/-- `acc.unknown.Add(1)` -/
def addUnknown : Accumulator n := { acc with unknown := acc.unknown + 1#64 }

/-- `atomic.SwapUint64(&acc.segs[i], 0)`: the old count is read beforehand. -/
def clearSegs (i : Fin n) : Accumulator n := { acc with segs := Function.update acc.segs i 0#64 }

/-- `atomic.SwapUint64(&acc.rets[i], 0)` -/
def clearRets (i : Fin n) : Accumulator n := { acc with rets := Function.update acc.rets i 0#64 }

def record (idx : Fin n) (isRetrans : Bool) : Accumulator n :=
  let acc := acc.addSeg idx
  if isRetrans then acc.addRet idx else acc

/-- The loop of `snapshotAndReset` over the zones. -/
def swapOut : List (Fin n) → GoMap String CounterSnapshot × Accumulator n →
    GoMap String CounterSnapshot × Accumulator n
  | [], s => s
  | i :: rest, (counters, acc) =>
    let segs := acc.segs i
    let acc := acc.clearSegs i
    let rets := acc.rets i
    let acc := acc.clearRets i
    swapOut rest (counters.set (acc.zoneNames i) ⟨segs, rets⟩, acc)

/-- The loop gives each zone of the list its own counts and leaves the other names. -/
theorem get_swapOut {l : List (Fin n)} (hnodup : l.Nodup)
    (hnames : Function.Injective acc.zoneNames) (m : GoMap String CounterSnapshot) :
    (∀ i ∈ l, (swapOut l (m, acc)).1.get (acc.zoneNames i) = some ⟨acc.segs i, acc.rets i⟩) ∧
      ∀ name, (∀ i ∈ l, acc.zoneNames i ≠ name) → (swapOut l (m, acc)).1.get name = m.get name := by
  induction l generalizing m acc with
  | nil => exact ⟨by simp, fun _ _ => rfl⟩
  | cons k rest ih =>
    obtain ⟨hk, hrest⟩ := List.nodup_cons.mp hnodup
    obtain ⟨hin, hout⟩ := ih ((acc.clearSegs k).clearRets k) hrest hnames
      (m.set (acc.zoneNames k) ⟨acc.segs k, acc.rets k⟩)
    constructor
    · intro i hi
      by_cases hik : i = k
      · subst hik
        have hlast : ∀ j ∈ rest, acc.zoneNames j ≠ acc.zoneNames i := by
          intro j hj heq
          rw [hnames heq] at hj
          exact hk hj
        refine (hout _ hlast).trans ?_
        exact (GoMap.get_set _ _ _ _).trans (if_pos rfl)
      · have hmem : i ∈ rest := (List.mem_cons.mp hi).resolve_left hik
        refine (hin i hmem).trans ?_
        simp [clearSegs, clearRets, Function.update_of_ne hik]
    · intro name hname
      refine (hout name fun i hi => hname i (List.mem_cons_of_mem _ hi)).trans ?_
      exact (GoMap.get_set _ _ _ _).trans (if_neg (hname k List.mem_cons_self).symm)

theorem swapOut_counts (l : List (Fin n)) (m : GoMap String CounterSnapshot) (i : Fin n) :
    (swapOut l (m, acc)).2.segs i = (if i ∈ l then 0#64 else acc.segs i) ∧
      (swapOut l (m, acc)).2.rets i = if i ∈ l then 0#64 else acc.rets i := by
  induction l generalizing m acc with
  | nil => simp [swapOut]
  | cons k rest ih =>
    obtain ⟨hsegs, hrets⟩ := ih ((acc.clearSegs k).clearRets k)
      (m.set (acc.zoneNames k) ⟨acc.segs k, acc.rets k⟩)
    refine ⟨hsegs.trans ?_, hrets.trans ?_⟩
    all_goals
      by_cases hik : i = k
      · subst hik
        simp [clearSegs, clearRets]
      · simp [clearSegs, clearRets, hik]

def snapshotAndReset : GoMap String CounterSnapshot × Accumulator n :=
  swapOut (List.finRange n) (.empty, acc)

/-- A snapshot that nothing comes in between has every zone's counts under its name. -/
theorem get_snapshotAndReset (hnames : Function.Injective acc.zoneNames) (i : Fin n) :
    acc.snapshotAndReset.1.get (acc.zoneNames i) = some ⟨acc.segs i, acc.rets i⟩ :=
  (acc.get_swapOut (List.nodup_finRange n) hnames .empty).1 i (List.mem_finRange i)

/-- It has no other names. -/
theorem get_snapshotAndReset_of_ne (hnames : Function.Injective acc.zoneNames) {name : String}
    (h : ∀ i, acc.zoneNames i ≠ name) : acc.snapshotAndReset.1.get name = none :=
  (acc.get_swapOut (List.nodup_finRange n) hnames .empty).2 name fun i _ => h i

end Accumulator

/-- What a sample counts for. -/
inductive Verdict (n : ℕ)
  | malformed
  | unknown
  | zone (idx : Fin n) (isRetrans : Bool)
deriving DecidableEq

/-- What the reader does with a sample before it counts it. -/
def classify {n : ℕ} (e : Endian) (zoneByID : GoMap U8 (Fin n)) (raw : List U8) : Verdict n :=
  match parseStatsEvent e raw with
  | .error _ => .malformed
  | .ok evt =>
    match zoneByID.get evt.dstZoneId with
    | none => .unknown
    | some idx => .zone idx (evt.isRetrans ≠ 0#8)

end PacketLoss.Counters
