import PacketLoss.PathEgress

/-!
What a run of `path_egress` asks the Bloom filter. Only counted packets touch
it: each reads the clock first and then, if it has a key, is looked up and
inserted. So a packet is taken for a retransmission exactly if each of its bits
was inserted by an earlier packet that at most one epoch roll separates from it.
-/
namespace PacketLoss.FilterRuns

open Machine BloomFilter BloomRefinement KernelTrie PathEgress
open RotatingWindow (clockRun ticks ticks_append rolls_run)
open ListSplits (concat_eq_append_cons exists_concat_iff flatMap_eq_append_cons)

variable {T : Type} [LpmTrie T] (e : Endian) (m : Maps T)

/-- The calls that an invocation makes to the filter. -/
def bloomCalls (inv : Invocation) : List BloomCall :=
  (zonedSegment e m inv.skb).elim [] fun z =>
    .maybeRollEpoch inv.now :: (bloomKey z.1).toList.map .testAndSet

/-- The key that an invocation inserts, if it does. -/
def keyOf (inv : Invocation) : Option BloomKey :=
  (zonedSegment e m inv.skb).bind fun z => bloomKey z.1

/-- The clock readings of a run, oldest first. -/
def zonedTimes (invs : List Invocation) : List ℕ :=
  (invs.filter fun inv => (zonedSegment e m inv.skb).isSome).map fun inv => inv.now.toNat

/-- How often the epoch rolls in a run that starts with zeroed maps. -/
def epochs (invs : List Invocation) : ℕ :=
  (clockRun (EpochClock.due bloomEpochNs.toNat) (0, 0) (zonedTimes e m invs)).2

theorem bloom_pathEgress (inv : Invocation) :
    (pathEgress e m inv).1.bloom = runCalls m.bloom (bloomCalls e m inv) := by
  rcases pathEgress_cases e m inv with ⟨_, m', hzone, heq, -, -, hbloom, -⟩ |
    ⟨seg, zoneId, m', hzone, heq, -, -, hbloom, -⟩
  · rw [heq, bloomCalls, hzone]
    exact hbloom
  · rw [heq, bloomCalls, hzone, hbloom, testSegment_eq, Option.elim_some]
    cases bloomKey seg with
    | none => rfl
    | some k =>
      rw [Option.elim_some, Option.toList_some, List.map_singleton, runCalls, List.foldl_cons,
        List.foldl_cons, List.foldl_nil, callStep, callStep]

theorem tries_pathEgress (inv : Invocation) :
    (pathEgress e m inv).1.zoneLpm = m.zoneLpm ∧
      (pathEgress e m inv).1.srcZoneLpm = m.srcZoneLpm := by
  rcases pathEgress_cases e m inv with ⟨_, m', -, heq, hzone, hsrc, -⟩ |
    ⟨_, _, m', -, heq, hzone, hsrc, -⟩ <;>
  · rw [heq]
    exact ⟨hzone, hsrc⟩

/-- Only the tries decide which packets are counted. -/
theorem zonedSegment_congr {m m' : Maps T} (hzone : m'.zoneLpm = m.zoneLpm)
    (hsrc : m'.srcZoneLpm = m.srcZoneLpm) : zonedSegment e m' = zonedSegment e m := by
  funext skb
  unfold zonedSegment
  rw [hzone, hsrc]

theorem zonedSegment_pathEgress (inv : Invocation) :
    zonedSegment e (pathEgress e m inv).1 = zonedSegment e m :=
  zonedSegment_congr e (tries_pathEgress e m inv).1 (tries_pathEgress e m inv).2

theorem zonedSegment_run (invs : List Invocation) :
    zonedSegment e (run e m invs) = zonedSegment e m := by
  induction invs generalizing m with
  | nil => rfl
  | cons inv rest ih =>
    change zonedSegment e (run e (pathEgress e m inv).1 rest) = _
    rw [ih, zonedSegment_pathEgress]

theorem bloomCalls_pathEgress (inv : Invocation) :
    bloomCalls e (pathEgress e m inv).1 = bloomCalls e m := by
  funext other
  unfold bloomCalls
  rw [zonedSegment_pathEgress]

/-- A run leaves the filter as its calls leave it. -/
theorem bloom_run (invs : List Invocation) :
    (run e m invs).bloom = runCalls m.bloom (invs.flatMap (bloomCalls e m)) := by
  induction invs generalizing m with
  | nil => rfl
  | cons inv rest ih =>
    change (run e (pathEgress e m inv).1 rest).bloom = _
    rw [ih, bloomCalls_pathEgress, bloom_pathEgress, List.flatMap_cons, runCalls, runCalls,
      runCalls, List.foldl_append]

theorem run_concat (invs : List Invocation) (inv : Invocation) :
    run e m (invs ++ [inv]) = (pathEgress e (run e m invs) inv).1 := by
  simp [run, List.foldl_append]

theorem zonedTimes_append (left right : List Invocation) :
    zonedTimes e m (left ++ right) = zonedTimes e m left ++ zonedTimes e m right := by
  simp [zonedTimes]

theorem ticks_bloomCalls (invs : List Invocation) :
    ticks ((invs.flatMap (bloomCalls e m)).map abstractCall) = zonedTimes e m invs := by
  induction invs with
  | nil => rfl
  | cons inv rest ih =>
    rw [List.flatMap_cons, List.map_append, ticks_append, ih, zonedTimes, zonedTimes]
    cases hz : zonedSegment e m inv.skb with
    | none => simp [bloomCalls, hz, ticks]
    | some z => cases hkey : bloomKey z.1 <;> simp [bloomCalls, hz, hkey, ticks, abstractCall]

theorem bloomCalls_eq_append_cons {inv : Invocation} {pre post : List BloomCall}
    {k : BloomKey} (h : bloomCalls e m inv = pre ++ .testAndSet k :: post) :
    keyOf e m inv = some k ∧ pre = [.maybeRollEpoch inv.now] := by
  unfold bloomCalls at h
  unfold keyOf
  cases hz : zonedSegment e m inv.skb with
  | none => simp [hz] at h
  | some z =>
    cases hkey : bloomKey z.1 with
    | none => simp [hz, hkey, List.cons_eq_append_iff] at h
    | some k' =>
      simp only [hz, hkey, Option.elim_some, Option.toList_some, List.map_cons, List.map_nil,
        List.cons_eq_append_iff] at h
      rcases h with ⟨-, h⟩ | ⟨pre', rfl, h⟩
      · simp at h
      · simp only [Option.bind_some, hkey]
        rcases h with ⟨rfl, h⟩ | ⟨pre'', rfl, h⟩
        · simp_all
        · simp at h

theorem bloomCalls_of_keyOf {inv : Invocation} {k : BloomKey} (h : keyOf e m inv = some k) :
    bloomCalls e m inv = [.maybeRollEpoch inv.now, .testAndSet k] := by
  obtain ⟨z, hz, hkey⟩ := Option.bind_eq_some_iff.mp h
  simp [bloomCalls, hz, hkey]

/-- The epoch that a counted packet sees is the one after its own clock reading. -/
theorem rolls_bloomCalls_roll (invs : List Invocation) {inv : Invocation}
    (hz : (zonedSegment e m inv.skb).isSome) :
    (bitSets (invs.flatMap (bloomCalls e m) ++ [.maybeRollEpoch inv.now])).rolls =
      epochs e m (invs ++ [inv]) := by
  have htimes : zonedTimes e m [inv] = [inv.now.toNat] := by simp [zonedTimes, hz]
  rw [bitSets, rolls_run, List.map_append, ticks_append, ticks_bloomCalls, epochs,
    zonedTimes_append, htimes]
  rfl

theorem holds_roll_iff (calls : List BloomCall) (now : U64) (bit : U32) :
    (bitSets (calls ++ [.maybeRollEpoch now])).Holds bit ↔
      ∃ pre k post, calls = pre ++ .testAndSet k :: post ∧ bit ∈ indices k ∧
        (bitSets (calls ++ [.maybeRollEpoch now])).rolls ≤ (bitSets pre).rolls + 1 := by
  rw [holds_bitSets_iff]
  constructor
  · intro htested
    rcases htested with ⟨pre, k, post, hsplit, hbit, hrolls⟩
    rcases concat_eq_append_cons hsplit with ⟨-, hroll, -⟩ | ⟨post', -, hcalls⟩
    · cases hroll
    · exact ⟨pre, k, post', hcalls, hbit, hrolls⟩
  · intro htested
    rcases htested with ⟨pre, k, post, hsplit, hbit, hrolls⟩
    exact ⟨pre, k, post ++ [.maybeRollEpoch now], by simp [hsplit], hbit, hrolls⟩

/-- `p` is a packet of `invs` that at most one epoch roll separates from `q`. -/
def Recent (invs : List Invocation) (q p : Invocation) : Prop :=
  ∃ a b, invs = a ++ p :: b ∧ epochs e m (invs ++ [q]) ≤ epochs e m (a ++ [p]) + 1

theorem Recent.mem {invs : List Invocation} {p q : Invocation} (h : Recent e m invs q p) :
    p ∈ invs := by
  obtain ⟨a, b, rfl, -⟩ := h
  simp

/-- The bits that the filter shows a counted packet are those of recent packets. -/
theorem holds_iff_recent (invs : List Invocation) {q : Invocation}
    (hz : (zonedSegment e m q.skb).isSome) (bit : U32) :
    (bitSets (invs.flatMap (bloomCalls e m) ++ [.maybeRollEpoch q.now])).Holds bit ↔
      ∃ p k, Recent e m invs q p ∧ keyOf e m p = some k ∧ bit ∈ indices k := by
  rw [holds_roll_iff, rolls_bloomCalls_roll e m invs hz]
  have hrolls : ∀ a p k, keyOf e m p = some k →
      (bitSets (a.flatMap (bloomCalls e m) ++ [.maybeRollEpoch p.now])).rolls =
        epochs e m (a ++ [p]) := by
    intro a p k hkey
    obtain ⟨z, hz, -⟩ := Option.bind_eq_some_iff.mp hkey
    exact rolls_bloomCalls_roll e m a (by simp [hz])
  constructor
  · intro htested
    rcases htested with ⟨pre, k, post, hsplit, hbit, hle⟩
    obtain ⟨a, p, b, pre', post', rfl, hp, rfl⟩ := flatMap_eq_append_cons hsplit
    obtain ⟨hkey, rfl⟩ := bloomCalls_eq_append_cons e m hp
    rw [hrolls a p k hkey] at hle
    exact ⟨p, k, ⟨a, b, rfl, hle⟩, hkey, hbit⟩
  · intro hrecent
    rcases hrecent with ⟨p, k, ⟨a, b, rfl, hle⟩, hkey, hbit⟩
    refine ⟨a.flatMap (bloomCalls e m) ++ [.maybeRollEpoch p.now], k,
      b.flatMap (bloomCalls e m), ?_, hbit, ?_⟩
    · simp [bloomCalls_of_keyOf e m hkey]
    · rw [hrolls a p k hkey]
      exact hle

/-- `is_retrans` was 1 for the packet that follows a run. -/
def Flagged (invs : List Invocation) (q : Invocation) : Prop :=
  ∃ zoneId, outcomeAfter e m invs q = .counted zoneId true

/-- How a packet ends follows from its segment and from what the filter answers. -/
theorem outcomeAfter_of_zoned (invs : List Invocation) {q : Invocation}
    {seg : Segments.Segment} {zoneId : U8} (hz : zonedSegment e m q.skb = some (seg, zoneId)) :
    outcomeAfter e m invs q = .counted zoneId
      (testSegment (bloomMaybeRollEpoch (run e m invs).bloom q.now) seg).1 := by
  rcases pathEgress_cases e (run e m invs) q with ⟨_, _, hnone, -⟩ |
    ⟨seg', zoneId', _, hsome, heq, -⟩
  · rw [zonedSegment_run, hz] at hnone
    cases hnone
  · rw [zonedSegment_run, hz, Option.some.injEq, Prod.mk.injEq] at hsome
    obtain ⟨rfl, rfl⟩ := hsome
    rw [outcomeAfter, heq]

theorem zoned_of_counted {invs : List Invocation} {q : Invocation} {zoneId : U8} {r : Bool}
    (h : outcomeAfter e m invs q = .counted zoneId r) :
    ∃ seg, zonedSegment e m q.skb = some (seg, zoneId) := by
  rcases pathEgress_cases e (run e m invs) q with ⟨_, _, -, heq, -⟩ | ⟨seg, _, _, hsome, heq, -⟩
  · rw [outcomeAfter, heq] at h
    cases h
  · rw [outcomeAfter, heq, Outcome.counted.injEq] at h
    obtain ⟨rfl, -⟩ := h
    exact ⟨seg, by rw [← hsome, zonedSegment_run]⟩

/-- The event of a counted packet says what `is_retrans` was, if there is room for it. -/
theorem statsRb_of_counted {invs : List Invocation} {q : Invocation} {zoneId : U8} {r : Bool}
    (h : outcomeAfter e m invs q = .counted zoneId r) :
    (run e m (invs ++ [q])).statsRb =
      if q.reserve then (run e m invs).statsRb ++
        [⟨q.skb.ifindex, zoneId, if r then 1#8 else 0#8⟩]
      else (run e m invs).statsRb := by
  rw [run_concat]
  rcases pathEgress_cases e (run e m invs) q with ⟨_, _, -, heq, -⟩ |
    ⟨seg, _, m', -, heq, -, -, -, hstats⟩
  · rw [outcomeAfter, heq] at h
    cases h
  · rw [outcomeAfter, heq, Outcome.counted.injEq] at h
    obtain ⟨rfl, rfl⟩ := h
    rw [heq, hstats]

/-- What is not counted submits nothing. -/
theorem statsRb_of_left {invs : List Invocation} {q : Invocation} {reason : Segments.DebugMap}
    (h : outcomeAfter e m invs q = .left reason) :
    (run e m (invs ++ [q])).statsRb = (run e m invs).statsRb := by
  rw [run_concat]
  rcases pathEgress_cases e (run e m invs) q with ⟨_, _, -, heq, -, -, -, hstats⟩ |
    ⟨_, _, _, -, heq, -⟩
  · rw [heq, hstats]
  · rw [outcomeAfter, heq] at h
    cases h

/-- The packet that follows a run is counted, and `evt` is its event. -/
def Submits (invs : List Invocation) (q : Invocation) (evt : StatsEvent) : Prop :=
  q.reserve = true ∧ ∃ zoneId r, outcomeAfter e m invs q = .counted zoneId r ∧
    evt = ⟨q.skb.ifindex, zoneId, if r then 1#8 else 0#8⟩

/-- Each event of a run is that of one of its packets. -/
theorem mem_statsRb_iff (invs : List Invocation) (evt : StatsEvent) :
    evt ∈ (run e m invs).statsRb ↔
      evt ∈ m.statsRb ∨ ∃ pre q post, invs = pre ++ q :: post ∧ Submits e m pre q evt := by
  induction invs using List.reverseRecOn with
  | nil => simp [run]
  | append_singleton invs q ih =>
    rw [exists_concat_iff, ← or_assoc, ← ih]
    unfold Submits
    cases hout : outcomeAfter e m invs q with
    | left reason =>
      rw [statsRb_of_left e m hout]
      simp
    | counted zoneId r =>
      rw [statsRb_of_counted e m hout]
      cases r <;> cases q.reserve <;> simp

section Loaded

variable (zone src : T)

/-- A packet is flagged exactly if it has a key and each bit of that key was
inserted by a recent packet. -/
theorem flagged_iff (invs : List Invocation) (q : Invocation) :
    Flagged e (Maps.loaded zone src) invs q ↔
      ∃ k, keyOf e (Maps.loaded zone src) q = some k ∧ ∀ bit ∈ indices k,
        ∃ p kp, Recent e (Maps.loaded zone src) invs q p ∧
          keyOf e (Maps.loaded zone src) p = some kp ∧ bit ∈ indices kp := by
  generalize hm : Maps.loaded zone src = m
  have hbloom : m.bloom = Bloom.zeroed := by rw [← hm]; rfl
  cases hz : zonedSegment e m q.skb with
  | none =>
    simp only [keyOf, hz, Option.bind_none, reduceCtorEq, false_and, exists_false, iff_false]
    intro hsome
    rcases hsome with ⟨zoneId, hcounted⟩
    obtain ⟨seg, hseg⟩ := zoned_of_counted e m hcounted
    rw [hz] at hseg
    cases hseg
  | some z =>
    obtain ⟨seg, zoneId⟩ := z
    have hstate : bloomMaybeRollEpoch (run e m invs).bloom q.now = runCalls Bloom.zeroed
        (invs.flatMap (bloomCalls e m) ++ [.maybeRollEpoch q.now]) := by
      rw [bloom_run, hbloom, runCalls, runCalls, List.foldl_append]
      rfl
    have hkeyOf : keyOf e m q = bloomKey seg := by simp [keyOf, hz]
    unfold Flagged
    rw [outcomeAfter_of_zoned e m invs hz, hstate, hkeyOf, testSegment_eq]
    simp only [Outcome.counted.injEq, exists_and_right, exists_eq', true_and]
    cases bloomKey seg with
    | none => simp
    | some k =>
      simp only [Option.elim_some, Option.some.injEq, exists_eq_left',
        ← holds_iff_recent e m invs (q := q) (by simp [hz])]
      exact (refines_runCalls _).testAndSet_fst k

/-- Where no two keys share a bit, the filter is a set of keys. -/
theorem flagged_iff_of_disjoint (invs : List Invocation) (q : Invocation)
    (hdisjoint : ∀ p ∈ invs, ∀ kp k, keyOf e (Maps.loaded zone src) p = some kp →
      keyOf e (Maps.loaded zone src) q = some k → kp ≠ k → (indices kp).Disjoint (indices k)) :
    Flagged e (Maps.loaded zone src) invs q ↔
      ∃ k p, keyOf e (Maps.loaded zone src) q = some k ∧
        Recent e (Maps.loaded zone src) invs q p ∧
          keyOf e (Maps.loaded zone src) p = some k := by
  rw [flagged_iff]
  constructor
  · intro hflag
    rcases hflag with ⟨k, hk, hbits⟩
    have hmem : bitAt k 0x12345678#32 ∈ indices k := List.mem_cons_self
    obtain ⟨p, kp, hrecent, hkp, hbit⟩ := hbits _ hmem
    have heq : kp = k := by
      by_contra hne
      exact hdisjoint p hrecent.mem kp k hkp hk hne hbit hmem
    exact ⟨k, p, hk, hrecent, heq ▸ hkp⟩
  · intro hrecent
    rcases hrecent with ⟨k, p, hk, hrecent, hkp⟩
    exact ⟨k, hk, fun bit hbit => ⟨p, k, hrecent, hkp, hbit⟩⟩

end Loaded

end PacketLoss.FilterRuns
