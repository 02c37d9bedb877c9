import PacketLoss.FilterRuns

/-!
The drop reasons that the exporter logs while it sees no traffic. Every packet
goes one way through `path_egress`, and each way increments one counter per
level; so the counters of a level, summed over the CPUs, add up to the counter
above it. A packet that is not counted as zoned leaves no other trace.
-/
namespace PacketLoss.DropReasons

open Machine KernelTrie Segments PathEgress FilterRuns

structure DebugCounters where
  seen : U64
  notIPv4 : U64
  notTCP : U64
  tcpShort : U64
  tcpPureAck : U64
  tcpPackets : U64
  noSrcZone : U64
  noDstZone : U64
  tcpZoned : U64

/-- `sumPerCPU`, on the values that the lookup returned. -/
def sumPerCPU (perCPU : List U64) : U64 := perCPU.foldl (fun total v => total + v) 0#64

variable {T : Type}

/-- `sumPerCPUArray`, on a machine with `cpus` possible CPUs. -/
def sumPerCPUArray (m : Maps T) (cpus : ℕ) (map : DebugMap) : U64 :=
  sumPerCPU ((List.range cpus).map (m.debug map))

def readDebugCounters (m : Maps T) (cpus : ℕ) : DebugCounters where
  seen := sumPerCPUArray m cpus .seen
  notIPv4 := sumPerCPUArray m cpus .notIpv4
  notTCP := sumPerCPUArray m cpus .notTcp
  tcpShort := sumPerCPUArray m cpus .tcpShort
  tcpPureAck := sumPerCPUArray m cpus .tcpPureAck
  tcpPackets := sumPerCPUArray m cpus .tcpPayload
  noSrcZone := sumPerCPUArray m cpus .noSrcZone
  noDstZone := sumPerCPUArray m cpus .noDstZone
  tcpZoned := sumPerCPUArray m cpus .tcpZoned

theorem sumPerCPU_concat (perCPU : List U64) (v : U64) :
    sumPerCPU (perCPU ++ [v]) = sumPerCPU perCPU + v := by
  simp [sumPerCPU, List.foldl_append]

theorem sumPerCPU_update (v : ℕ → U64) (cpu cpus : ℕ) :
    sumPerCPU ((List.range cpus).map (Function.update v cpu (v cpu + 1#64))) =
      sumPerCPU ((List.range cpus).map v) + if cpu < cpus then 1#64 else 0#64 := by
  induction cpus with
  | zero => simp [sumPerCPU]
  | succ n ih =>
    rw [List.range_succ, List.map_append, List.map_append, List.map_singleton,
      List.map_singleton, sumPerCPU_concat, sumPerCPU_concat, ih]
    rcases Nat.lt_trichotomy cpu n with hlt | rfl | hgt
    · rw [if_pos hlt, if_pos (by omega), Function.update_of_ne (by omega), BitVec.add_assoc,
        BitVec.add_assoc, BitVec.add_comm 1#64]
    · rw [if_neg (Nat.lt_irrefl _), if_pos (Nat.lt_succ_self _), Function.update_self,
        BitVec.add_zero, BitVec.add_assoc]
    · rw [if_neg (by omega), if_neg (by omega), Function.update_of_ne (by omega),
        BitVec.add_zero, BitVec.add_zero]

theorem sumPerCPUArray_debugInc (m : Maps T) {cpu cpus : ℕ} (hcpu : cpu < cpus)
    (map map' : DebugMap) :
    sumPerCPUArray (debugInc m cpu map') cpus map =
      sumPerCPUArray m cpus map + if map' = map then 1#64 else 0#64 := by
  unfold sumPerCPUArray debugInc
  dsimp only
  by_cases hmap : map' = map
  · subst hmap
    rw [if_pos rfl, Function.update_self, sumPerCPU_update, if_pos hcpu]
  · rw [if_neg hmap, Function.update_of_ne (Ne.symm hmap), BitVec.add_zero]

/-- What `debug_inc` adds to a reading once, several of them add as often as they
name the counter. -/
theorem reading_countAll (reading : Maps T → U64) {cpu : ℕ} {map : DebugMap}
    (hone : ∀ m map', reading (debugInc m cpu map') =
      reading m + if map' = map then 1#64 else 0#64) (m : Maps T) (maps : List DebugMap) :
    reading (maps.foldl (fun m map => debugInc m cpu map) m) =
      reading m + BitVec.ofNat 64 (maps.count map) := by
  induction maps generalizing m with
  | nil => simp
  | cons map' maps ih =>
    rw [List.foldl_cons, ih, hone, List.count_cons, BitVec.add_assoc]
    congr 1
    by_cases hmap : map' = map
    · rw [if_pos hmap, if_pos (by simpa using hmap), BitVec.ofNat_add, BitVec.add_comm]
    · rw [if_neg hmap, if_neg (by simpa using hmap), BitVec.zero_add, Nat.add_zero]

theorem debug_debugInc (m : Maps T) (cpu : ℕ) (map map' : DebugMap) :
    (debugInc m cpu map').debug map cpu =
      m.debug map cpu + if map' = map then 1#64 else 0#64 := by
  by_cases hmap : map' = map
  · subst hmap
    simp [debugInc]
  · simp [debugInc, hmap, Function.update_of_ne (Ne.symm hmap)]

theorem debug_incs_of_ne (m : Maps T) {cpu cpu' : ℕ} (h : cpu ≠ cpu') (map : DebugMap)
    (maps : List DebugMap) :
    (maps.foldl (fun m map => debugInc m cpu' map) m).debug map cpu = m.debug map cpu := by
  induction maps generalizing m with
  | nil => rfl
  | cons map' maps ih =>
    rw [List.foldl_cons, ih]
    unfold debugInc
    dsimp only
    by_cases hmap : map = map'
    · subst hmap
      rw [Function.update_self, Function.update_of_ne h]
    · rw [Function.update_of_ne hmap]

/-- What several increments on one CPU add to each value. -/
theorem debug_incs (m : Maps T) (cpu' : ℕ) (maps : List DebugMap) (map : DebugMap) (cpu : ℕ) :
    (maps.foldl (fun m map => debugInc m cpu' map) m).debug map cpu =
      m.debug map cpu + BitVec.ofNat 64 (if cpu' = cpu then maps.count map else 0) := by
  by_cases hcpu : cpu' = cpu
  · subst hcpu
    rw [if_pos rfl]
    exact reading_countAll (fun m => m.debug map cpu')
      (fun m map' => debug_debugInc m cpu' map map') m maps
  · rw [if_neg hcpu, BitVec.add_zero]
    exact debug_incs_of_ne m (Ne.symm hcpu) map maps

theorem sumPerCPUArray_zeroed {m : Maps T} (hzero : ∀ map cpu, m.debug map cpu = 0#64)
    (cpus : ℕ) (map : DebugMap) : sumPerCPUArray m cpus map = 0#64 := by
  have hmap : m.debug map = fun _ => 0#64 := funext fun cpu => hzero map cpu
  rw [sumPerCPUArray, hmap]
  induction cpus with
  | zero => rfl
  | succ n ih =>
    rw [List.range_succ, List.map_append, List.map_singleton, sumPerCPU_concat, ih]
    rfl

variable [LpmTrie T] (e : Endian)

def isCounted : Outcome → Bool
  | .left _ => false
  | .counted _ _ => true

@[simp] theorem isCounted_left (reason : DebugMap) : isCounted (.left reason) = false := rfl

@[simp] theorem isCounted_counted (zoneId : U8) (r : Bool) :
    isCounted (.counted zoneId r) = true := rfl

/-- The packets of a run, each with how it ended. -/
def trace : Maps T → List Invocation → List (Invocation × Outcome)
  | _, [] => []
  | m, inv :: invs => (inv, (pathEgress e m inv).2) :: trace (pathEgress e m inv).1 invs

/-- The zoned packets whose event found no room. -/
def failedReservations (m : Maps T) (invs : List Invocation) : ℕ :=
  (trace e m invs).countP fun t => isCounted t.2 && !t.1.reserve

/-- A run without the packets that it did not count as zoned. -/
def zonedOnly (m : Maps T) (invs : List Invocation) : List Invocation :=
  ((trace e m invs).filter fun t => isCounted t.2).map Prod.fst

/-! The counters that each way increments. -/

def countersOf : Outcome → List DebugMap
  | .left .noSrcZone => [.seen, .tcpPayload, .noSrcZone]
  | .left .noDstZone => [.seen, .tcpPayload, .noDstZone]
  | .left reason => [.seen, reason]
  | .counted _ _ => [.seen, .tcpPayload, .tcpZoned]

/-- The counters of the packets that went on are no reasons to leave. -/
def IsWayOut : Outcome → Prop
  | .left reason => reason ≠ .seen ∧ reason ≠ .tcpPayload ∧ reason ≠ .tcpZoned
  | .counted _ _ => True

theorem parseSegment_error {skb : SkBuff} {reason : DebugMap}
    (h : parseSegment e skb = .error reason) :
    reason = .notIpv4 ∨ reason = .notTcp ∨ reason = .tcpShort ∨ reason = .tcpPureAck := by
  unfold parseSegment at h
  split at h
  · cases h
    exact Or.inl rfl
  · dsimp only at h
    split_ifs at h <;> cases h <;> simp

theorem isWayOut_pathEgress (m : Maps T) (inv : Invocation) :
    IsWayOut (pathEgress e m inv).2 := by
  unfold pathEgress
  cases hparse : parseSegment e inv.skb with
  | error reason =>
    rcases parseSegment_error e hparse with rfl | rfl | rfl | rfl <;> simp [IsWayOut]
  | ok seg =>
    simp only [debugInc]
    cases LpmTrie.lookup m.srcZoneLpm (lpmKey e seg.saddr) with
    | none => simp [IsWayOut]
    | some src =>
      cases LpmTrie.lookup m.zoneLpm (lpmKey e seg.daddr) with
      | none => simp [IsWayOut]
      | some zoneId => trivial

/-- An invocation increments the counters of its way, on its own CPU. -/
theorem debug_pathEgress (m : Maps T) (inv : Invocation) :
    (pathEgress e m inv).1.debug =
      ((countersOf (pathEgress e m inv).2).foldl
        (fun m map => debugInc m inv.cpu map) m).debug := by
  unfold pathEgress
  cases hparse : parseSegment e inv.skb with
  | error reason =>
    rcases parseSegment_error e hparse with rfl | rfl | rfl | rfl <;> rfl
  | ok seg =>
    dsimp only
    cases hsrc : LpmTrie.lookup (debugInc (debugInc m inv.cpu .seen) inv.cpu
        .tcpPayload).srcZoneLpm (lpmKey e seg.saddr) with
    | none => rfl
    | some src =>
      dsimp only
      cases hdst : LpmTrie.lookup (debugInc (debugInc m inv.cpu .seen) inv.cpu
          .tcpPayload).zoneLpm (lpmKey e seg.daddr) with
      | none => rfl
      | some zoneId => cases inv.reserve <;> rfl

/-- How often a run increments a counter. -/
def increments (m : Maps T) (invs : List Invocation) (map : DebugMap) : ℕ :=
  ((trace e m invs).flatMap fun t => countersOf t.2).count map

/-- Each sum grows by the increments of the run. -/
theorem sumPerCPUArray_run (m : Maps T) {cpus : ℕ} {invs : List Invocation}
    (hcpu : ∀ inv ∈ invs, inv.cpu < cpus) (map : DebugMap) :
    sumPerCPUArray (run e m invs) cpus map =
      sumPerCPUArray m cpus map + BitVec.ofNat 64 (increments e m invs map) := by
  induction invs generalizing m with
  | nil => simp [run, increments, trace]
  | cons inv invs ih =>
    have hhead : inv.cpu < cpus := hcpu inv List.mem_cons_self
    have htail : ∀ inv ∈ invs, inv.cpu < cpus := fun i hi => hcpu i (List.mem_cons_of_mem _ hi)
    have hstep : sumPerCPUArray (pathEgress e m inv).1 cpus map = sumPerCPUArray m cpus map +
        BitVec.ofNat 64 ((countersOf (pathEgress e m inv).2).count map) := by
      have hall := reading_countAll (fun m => sumPerCPUArray m cpus map)
        (fun m map' => sumPerCPUArray_debugInc m hhead map map') m
          (countersOf (pathEgress e m inv).2)
      rw [← hall, sumPerCPUArray, sumPerCPUArray, debug_pathEgress]
    change sumPerCPUArray (run e (pathEgress e m inv).1 invs) cpus map = _
    rw [ih _ htail, hstep, increments, increments, trace, List.flatMap_cons, List.count_append,
      BitVec.ofNat_add, BitVec.add_assoc]

/-! What the increments of a run add up to. -/

/-- One packet increments one counter per level. -/
theorem countersOf_levels {o : Outcome} (h : IsWayOut o) :
    (countersOf o).count .seen = (countersOf o).count .notIpv4 + (countersOf o).count .notTcp +
        (countersOf o).count .tcpShort + (countersOf o).count .tcpPureAck +
          (countersOf o).count .tcpPayload ∧
    (countersOf o).count .tcpPayload = (countersOf o).count .noSrcZone +
        (countersOf o).count .noDstZone + (countersOf o).count .tcpZoned ∧
    (countersOf o).count .tcpZoned = (if isCounted o then 1 else 0) := by
  cases o with
  | left reason =>
    obtain ⟨hseen, hpayload, hzoned⟩ := h
    cases reason with
    | seen => exact absurd rfl hseen
    | tcpPayload => exact absurd rfl hpayload
    | tcpZoned => exact absurd rfl hzoned
    | _ => decide
  | counted zoneId r => exact ⟨rfl, rfl, rfl⟩

theorem countersOf_nodup {o : Outcome} (h : IsWayOut o) : (countersOf o).Nodup := by
  cases o with
  | left reason =>
    obtain ⟨hseen, -⟩ := h
    cases reason with
    | seen => exact absurd rfl hseen
    | _ => decide
  | counted zoneId r => simp [countersOf]

theorem increments_levels (m : Maps T) (invs : List Invocation) (map : DebugMap) :
    let n := increments e m invs
    n .seen = n .notIpv4 + n .notTcp + n .tcpShort + n .tcpPureAck + n .tcpPayload ∧
      n .tcpPayload = n .noSrcZone + n .noDstZone + n .tcpZoned ∧
        n .tcpZoned = (trace e m invs).countP (fun t => isCounted t.2) ∧
          n map ≤ invs.length := by
  induction invs generalizing m with
  | nil => simp [increments, trace]
  | cons inv invs ih =>
    obtain ⟨hseen, hpayload, hzoned, hle⟩ := ih (pathEgress e m inv).1
    have hway := isWayOut_pathEgress e m inv
    obtain ⟨hseen', hpayload', hzoned'⟩ := countersOf_levels hway
    have hle' := List.nodup_iff_count_le_one.mp (countersOf_nodup hway) map
    have hcons : ∀ map, increments e m (inv :: invs) map =
        (countersOf (pathEgress e m inv).2).count map +
          increments e (pathEgress e m inv).1 invs map := by
      intro map
      rw [increments, trace, List.flatMap_cons, List.count_append, increments]
    simp only [hcons, trace, List.countP_cons, List.length_cons]
    omega

/-! What a packet that is not counted leaves behind. -/

/-- The counters decide nothing. -/
theorem pathEgress_with_debug (m : Maps T) (debug : DebugMap → ℕ → U64) (inv : Invocation) :
    ∃ debug', pathEgress e { m with debug := debug } inv =
      ({ (pathEgress e m inv).1 with debug := debug' }, (pathEgress e m inv).2) := by
  unfold pathEgress
  cases parseSegment e inv.skb with
  | error reason => exact ⟨_, rfl⟩
  | ok seg =>
    simp only [debugInc]
    cases LpmTrie.lookup m.srcZoneLpm (lpmKey e seg.saddr) with
    | none => exact ⟨_, rfl⟩
    | some src =>
      dsimp only
      cases LpmTrie.lookup m.zoneLpm (lpmKey e seg.daddr) with
      | none => exact ⟨_, rfl⟩
      | some zoneId => cases inv.reserve <;> exact ⟨_, rfl⟩

/-- Such a packet changes counters only. -/
theorem pathEgress_of_left {m : Maps T} {inv : Invocation} {reason : DebugMap}
    (h : (pathEgress e m inv).2 = .left reason) :
    ∃ debug, (pathEgress e m inv).1 = { m with debug := debug } := by
  rcases pathEgress_cases e m inv with ⟨_, m', -, heq, hzone, hsrc, hbloom, hstats⟩ |
    ⟨_, _, _, -, heq, -⟩
  · refine ⟨m'.debug, ?_⟩
    rw [heq, ← hzone, ← hsrc, ← hbloom, ← hstats]
  · rw [heq] at h
    cases h

/-- Without them a run ends with the same tries, filter and events. -/
theorem run_zonedOnly (m : Maps T) (debug : DebugMap → ℕ → U64) (invs : List Invocation) :
    ∃ debug', run e { m with debug := debug } (zonedOnly e m invs) =
      { run e m invs with debug := debug' } := by
  induction invs generalizing m debug with
  | nil => exact ⟨debug, rfl⟩
  | cons inv invs ih =>
    change ∃ debug', _ = { run e (pathEgress e m inv).1 invs with debug := debug' }
    cases hout : (pathEgress e m inv).2 with
    | left reason =>
      have hskip : zonedOnly e m (inv :: invs) = zonedOnly e (pathEgress e m inv).1 invs := by
        rw [zonedOnly, trace, List.filter_cons_of_neg (by simp [hout]), zonedOnly]
      obtain ⟨debug₁, hleft⟩ := pathEgress_of_left e hout
      have hmaps : { m with debug := debug } =
          { (pathEgress e m inv).1 with debug := debug } := by
        rw [hleft]
      rw [hskip, hmaps]
      exact ih _ debug
    | counted zoneId r =>
      have hkeep : zonedOnly e m (inv :: invs) =
          inv :: zonedOnly e (pathEgress e m inv).1 invs := by
        rw [zonedOnly, trace, List.filter_cons_of_pos (by simp [hout]), List.map_cons, zonedOnly]
      obtain ⟨debug₁, hcounted⟩ := pathEgress_with_debug e m debug inv
      rw [hkeep]
      change ∃ debug', run e (pathEgress e { m with debug := debug } inv).1 _ = _
      rw [hcounted]
      exact ih _ debug₁

/-- A run submits one event for each zoned packet that finds room. -/
theorem exists_submitted (m : Maps T) (invs : List Invocation) :
    ∃ submitted, (run e m invs).statsRb = m.statsRb ++ submitted ∧
      (trace e m invs).countP (fun t => isCounted t.2) =
        submitted.length + failedReservations e m invs := by
  induction invs generalizing m with
  | nil => exact ⟨[], by simp [run], by simp [trace, failedReservations]⟩
  | cons inv invs ih =>
    obtain ⟨submitted, hrest, hcount⟩ := ih (pathEgress e m inv).1
    have htrace : trace e m (inv :: invs) =
        (inv, (pathEgress e m inv).2) :: trace e (pathEgress e m inv).1 invs := rfl
    rw [failedReservations] at hcount
    rw [failedReservations, htrace, List.countP_cons, List.countP_cons, hcount]
    change ∃ all, (run e (pathEgress e m inv).1 invs).statsRb = m.statsRb ++ all ∧ _
    rcases pathEgress_cases e m inv with ⟨_, m', -, heq, -, -, -, hstats⟩ |
      ⟨_, _, m', -, heq, -, -, -, hstats⟩
    · refine ⟨submitted, ?_, ?_⟩
      · rw [hrest, heq, hstats]
      · simp [heq]
    · cases hroom : inv.reserve with
      | false =>
        rw [hroom, if_neg Bool.false_ne_true] at hstats
        refine ⟨submitted, ?_, ?_⟩
        · rw [hrest, heq, hstats]
        · simp [heq, Nat.add_assoc]
      | true =>
        rw [hroom, if_pos rfl] at hstats
        obtain ⟨evt, hevt⟩ : ∃ evt, m'.statsRb = m.statsRb ++ [evt] := ⟨_, hstats⟩
        refine ⟨evt :: submitted, ?_, ?_⟩
        · rw [hrest, heq, hevt, List.append_assoc, List.singleton_append]
        · simp [heq, Nat.add_right_comm]

/-- From zeroed counters on, whatever the other maps hold: the drop reasons add up
level by level, and the packets that were not counted as zoned could as well not
have been there. -/
theorem drop_reasons_complete (m : Maps T) (hzero : ∀ map cpu, m.debug map cpu = 0#64)
    (cpus : ℕ) (invs : List Invocation) (hcpu : ∀ inv ∈ invs, inv.cpu < cpus)
    (hlen : invs.length < 2 ^ 64) :
    let c := readDebugCounters (run e m invs) cpus
    c.seen.toNat = c.notIPv4.toNat + c.notTCP.toNat + c.tcpShort.toNat + c.tcpPureAck.toNat +
        c.tcpPackets.toNat ∧
    c.tcpPackets.toNat = c.noSrcZone.toNat + c.noDstZone.toNat + c.tcpZoned.toNat ∧
    (∃ submitted, (run e m invs).statsRb = m.statsRb ++ submitted ∧
      c.tcpZoned.toNat = submitted.length + failedReservations e m invs) ∧
    (∀ pre inv post reason, invs = pre ++ inv :: post →
      outcomeAfter e m pre inv = .left reason →
        (run e m (pre ++ [inv])).bloom = (run e m pre).bloom) ∧
    (run e m (zonedOnly e m invs)).statsRb = (run e m invs).statsRb := by
  have hsum : ∀ map, (sumPerCPUArray (run e m invs) cpus map).toNat = increments e m invs map := by
    intro map
    rw [sumPerCPUArray_run e m hcpu, sumPerCPUArray_zeroed hzero, BitVec.zero_add,
      BitVec.toNat_ofNat, Nat.mod_eq_of_lt]
    exact lt_of_le_of_lt (increments_levels e m invs map).2.2.2 hlen
  obtain ⟨hseen, hpayload, hzoned, -⟩ := increments_levels e m invs .seen
  simp only [readDebugCounters, hsum]
  refine ⟨hseen, hpayload, ?_, ?_, ?_⟩
  · obtain ⟨submitted, hstats, hcount⟩ := exists_submitted e m invs
    exact ⟨submitted, hstats, hzoned.trans hcount⟩
  · intro pre inv post reason _ hleft
    obtain ⟨debug, hmaps⟩ := pathEgress_of_left e hleft
    rw [run_concat, hmaps]
  · obtain ⟨debug, hmaps⟩ := run_zonedOnly e m m.debug invs
    have hstats := congrArg (fun m' => m'.statsRb) hmaps
    exact hstats

/-- A zoned segment on CPU 0, its repetition on CPU 1 that finds no room, a pure
ACK, and a packet too short for any header. -/
def fourPackets : List Invocation :=
  let zoned := sampleSegment 1000#32 0x18#8 [1#8, 2#8] 2000000000#64
  let pureAck := sampleSegment 1002#32 0x10#8 [] 2000003000#64
  [zoned, { zoned with now := 2000002000#64, cpu := 1, reserve := false }, pureAck,
    { pureAck with skb := { pureAck.skb with data := [0x45#8] } }]

theorem fourPackets_accounted :
    let m := Maps.loaded zoneTrie srcZoneTrie
    let c := readDebugCounters (run .little m fourPackets) 2
    c.seen.toNat = c.notIPv4.toNat + c.notTCP.toNat + c.tcpShort.toNat + c.tcpPureAck.toNat +
        c.tcpPackets.toNat ∧
      c.tcpPackets.toNat = c.noSrcZone.toNat + c.noDstZone.toNat + c.tcpZoned.toNat ∧
        (run .little m (zonedOnly .little m fourPackets)).statsRb =
          (run .little m fourPackets).statsRb :=
  have h := drop_reasons_complete .little (Maps.loaded zoneTrie srcZoneTrie) (fun _ _ => rfl) 2
    fourPackets (by decide) (by decide)
  ⟨h.1, h.2.1, h.2.2.2.2⟩

end PacketLoss.DropReasons
