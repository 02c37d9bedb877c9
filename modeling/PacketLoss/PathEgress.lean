import PacketLoss.BloomRefinement
import PacketLoss.KernelTrie
import PacketLoss.Segments

/-!
`path_egress` as a step on the maps that it shares with the exporter. The
clock, the CPU and whether the ring buffer has room come with each invocation.
What a run does to the Bloom filter depends on the packets alone: the tries are
not written, so which packets are counted, and under which keys, is fixed
beforehand.
-/
namespace PacketLoss.PathEgress

open Machine BloomFilter BloomRefinement BloomHashing KernelTrie Segments

/-- `struct stats_event` without its padding, which is not written. -/
structure StatsEvent where
  ifindex : U32
  dstZoneId : U8
  isRetrans : U8
deriving DecidableEq

/-- The maps of the program. `statsRb` is what was submitted so far. -/
structure Maps (T : Type) where
  zoneLpm : T
  srcZoneLpm : T
  bloom : Bloom
  statsRb : List StatsEvent
  debug : DebugMap → ℕ → U64

/-- The maps when the program starts to run: only the tries have been filled. -/
def Maps.loaded {T : Type} (zoneLpm srcZoneLpm : T) : Maps T :=
  ⟨zoneLpm, srcZoneLpm, Bloom.zeroed, [], fun _ _ => 0#64⟩

structure Invocation where
  skb : SkBuff
  now : U64
  cpu : ℕ
  reserve : Bool

/-- `debug_inc`, on the CPU that runs the program. -/
def debugInc {T : Type} (m : Maps T) (cpu : ℕ) (map : DebugMap) : Maps T :=
  let v := m.debug map
  { m with debug := Function.update m.debug map (Function.update v cpu (v cpu + 1#64)) }

/-- `lpm_key`: the address goes into the key as it lies in the packet. -/
def lpmKey (e : Endian) (addr : U32) : LpmKey := ⟨32#32, storeU32 e addr⟩

/-- `is_retrans`, and the filter afterwards. -/
def testSegment (s : Bloom) (seg : Segment) : Bool × Bloom :=
  if 0 < seg.payloadLen then
    let seqKey := seg.seq >>> 4
    bloomTestAndSet s ⟨seg.saddr, seg.daddr, seg.source, seg.dest, seqKey⟩
  else if seg.syn && !seg.ack then
    bloomTestAndSet s ⟨seg.saddr, seg.daddr, seg.source, seg.dest, seg.seq⟩
  else (false, s)

/-- How an invocation ended. The program itself always returns `TC_ACT_UNSPEC`. -/
inductive Outcome
  | left (reason : DebugMap)
  | counted (dstZoneId : U8) (isRetrans : Bool)
deriving DecidableEq

variable {T : Type} [LpmTrie T]

def pathEgress (e : Endian) (m : Maps T) (inv : Invocation) : Maps T × Outcome :=
  let m := debugInc m inv.cpu .seen
  match parseSegment e inv.skb with
  | .error reason => (debugInc m inv.cpu reason, .left reason)
  | .ok seg =>
    let m := debugInc m inv.cpu .tcpPayload
    match LpmTrie.lookup m.srcZoneLpm (lpmKey e seg.saddr) with
    | none => (debugInc m inv.cpu .noSrcZone, .left .noSrcZone)
    | some _ =>
      match LpmTrie.lookup m.zoneLpm (lpmKey e seg.daddr) with
      | none => (debugInc m inv.cpu .noDstZone, .left .noDstZone)
      | some zoneId =>
        let m := debugInc m inv.cpu .tcpZoned
        let (isRetrans, bloom) := testSegment (bloomMaybeRollEpoch m.bloom inv.now) seg
        let m := { m with bloom := bloom }
        let evt := ⟨inv.skb.ifindex, zoneId, if isRetrans then 1#8 else 0#8⟩
        let m := if inv.reserve then { m with statsRb := m.statsRb ++ [evt] } else m
        (m, .counted zoneId isRetrans)

def run (e : Endian) (m : Maps T) (invs : List Invocation) : Maps T :=
  invs.foldl (fun m inv => (pathEgress e m inv).1) m

/-- How the invocation `inv` ends that follows a run. -/
def outcomeAfter (e : Endian) (m : Maps T) (invs : List Invocation) (inv : Invocation) :
    Outcome := (pathEgress e (run e m invs) inv).2

/-- The segment and the zone of a packet that is counted. -/
def zonedSegment (e : Endian) (m : Maps T) (skb : SkBuff) : Option (Segment × U8) :=
  match parseSegment e skb with
  | .error _ => none
  | .ok seg =>
    if LpmTrie.lookup m.srcZoneLpm (lpmKey e seg.saddr) = none then none
    else (LpmTrie.lookup m.zoneLpm (lpmKey e seg.daddr)).map fun zoneId => (seg, zoneId)

theorem zonedSegment_eq_some_iff (e : Endian) (m : Maps T) {skb : SkBuff} {seg : Segment}
    {zoneId : U8} :
    zonedSegment e m skb = some (seg, zoneId) ↔ parseSegment e skb = .ok seg ∧
      (LpmTrie.lookup m.srcZoneLpm (lpmKey e seg.saddr)).isSome ∧
        LpmTrie.lookup m.zoneLpm (lpmKey e seg.daddr) = some zoneId := by
  unfold zonedSegment
  cases parseSegment e skb with
  | error reason => simp
  | ok found =>
    simp only [Except.ok.injEq]
    constructor
    · intro hz
      split at hz
      · cases hz
      · rename_i hsrc
        obtain ⟨z, hdst, hpair⟩ := Option.map_eq_some_iff.mp hz
        obtain ⟨rfl, rfl⟩ := Prod.mk.inj hpair
        exact ⟨rfl, Option.isSome_iff_ne_none.mpr hsrc, hdst⟩
    · intro hfound
      obtain ⟨rfl, hsrc, hdst⟩ := hfound
      rw [if_neg (Option.isSome_iff_ne_none.mp hsrc), hdst, Option.map_some]

/-- The key under which a segment is looked up in the filter, if it is. -/
def bloomKey (seg : Segment) : Option BloomKey :=
  if 0 < seg.payloadLen then some (seg.flow.key (seg.seq >>> 4))
  else if seg.syn && !seg.ack then some (seg.flow.key seg.seq)
  else none

/-- The kinds of segment that the filter is asked about. -/
inductive Kind
  | payload
  | syn
deriving DecidableEq

def kind (seg : Segment) : Option Kind :=
  if 0 < seg.payloadLen then some .payload
  else if seg.syn && !seg.ack then some .syn
  else none

/-- The sequence number as it enters the key of a segment of each kind. -/
def seqKey (seq : U32) : Kind → U32
  | .payload => seq >>> 4
  | .syn => seq

theorem bloomKey_eq (seg : Segment) :
    bloomKey seg = (kind seg).map fun κ => seg.flow.key (seqKey seg.seq κ) := by
  unfold bloomKey kind
  split
  · rfl
  · split <;> rfl

theorem testSegment_eq (s : Bloom) (seg : Segment) :
    testSegment s seg = (bloomKey seg).elim (false, s) (bloomTestAndSet s) := by
  unfold testSegment bloomKey
  split
  · rfl
  · split <;> rfl

/-- Everything an invocation can do to the maps and how it ends. -/
theorem pathEgress_cases (e : Endian) (m : Maps T) (inv : Invocation) :
    (∃ reason m', zonedSegment e m inv.skb = none ∧
      pathEgress e m inv = (m', .left reason) ∧ m'.zoneLpm = m.zoneLpm ∧
        m'.srcZoneLpm = m.srcZoneLpm ∧ m'.bloom = m.bloom ∧ m'.statsRb = m.statsRb) ∨
    ∃ seg zoneId m', zonedSegment e m inv.skb = some (seg, zoneId) ∧
      pathEgress e m inv = (m', .counted zoneId
        (testSegment (bloomMaybeRollEpoch m.bloom inv.now) seg).1) ∧
        m'.zoneLpm = m.zoneLpm ∧ m'.srcZoneLpm = m.srcZoneLpm ∧
          m'.bloom = (testSegment (bloomMaybeRollEpoch m.bloom inv.now) seg).2 ∧
            m'.statsRb = if inv.reserve then m.statsRb ++ [⟨inv.skb.ifindex, zoneId,
              if (testSegment (bloomMaybeRollEpoch m.bloom inv.now) seg).1 then 1#8 else 0#8⟩]
                else m.statsRb := by
  unfold pathEgress zonedSegment
  cases hparse : parseSegment e inv.skb with
  | error reason => exact Or.inl ⟨reason, _, rfl, rfl, rfl, rfl, rfl, rfl⟩
  | ok seg =>
    simp only [debugInc]
    cases hsrc : LpmTrie.lookup m.srcZoneLpm (lpmKey e seg.saddr) with
    | none => exact Or.inl ⟨_, _, rfl, rfl, rfl, rfl, rfl, rfl⟩
    | some src =>
      cases hdst : LpmTrie.lookup m.zoneLpm (lpmKey e seg.daddr) with
      | none => exact Or.inl ⟨_, _, rfl, rfl, rfl, rfl, rfl, rfl⟩
      | some zoneId =>
        refine Or.inr ⟨seg, zoneId, _, rfl, rfl, ?_⟩
        cases inv.reserve <;> exact ⟨rfl, rfl, rfl, rfl⟩

/-! A sample: two of the zones of the README, and one flow between them. -/

/-- `zone_lpm` with zone 1 at 192.168.0.0/24. -/
def zoneTrie : PrefixList :=
  ⟨[((⟨24#32, [192#8, 168#8, 0#8, 0#8]⟩ : LpmKey).bits, 1#8)], List.nodup_singleton _⟩

/-- `src_zone_lpm` with zone 3 at 192.168.3.0/24. -/
def srcZoneTrie : PrefixList :=
  ⟨[((⟨24#32, [192#8, 168#8, 3#8, 0#8]⟩ : LpmKey).bits, 3#8)], List.nodup_singleton _⟩

/-- A segment from 192.168.3.10:40000 to 192.168.0.20:443 on a little-endian host
and a device without Ethernet headers. -/
def sampleSegment (seq : U32) (flags : U8) (payload : List U8) (now : U64) : Invocation where
  skb.protocol := 0x0008#32
  skb.ifindex := 7#32
  skb.data :=
    [0x45#8, 0#8, 0#8, BitVec.ofNat 8 (40 + payload.length), 0#8, 0#8, 0#8, 0#8] ++
      [64#8, 6#8, 0#8, 0#8, 192#8, 168#8, 3#8, 10#8, 192#8, 168#8, 0#8, 20#8] ++
      [0x9c#8, 0x40#8, 0x01#8, 0xbb#8] ++ storeU32 .big seq ++ [0#8, 0#8, 0#8, 0#8] ++
      [0x50#8, flags, 0xff#8, 0xff#8, 0#8, 0#8, 0#8, 0#8] ++ payload
  now := now
  cpu := 0
  reserve := true

end PacketLoss.PathEgress
