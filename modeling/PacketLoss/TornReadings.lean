import Mathlib.Algebra.BigOperators.Group.Finset.Piecewise
import Mathlib.Algebra.Order.BigOperators.Group.Finset
import PacketLoss.DropReasons

/-!
`ReadDebugCounters` while packets arrive. The nine maps are looked up one after the
other, and the kernel copies the values of a map CPU by CPU, so the counters of one
reading are of different times. Here each counter is looked at by itself: a packet
increments it at one moment and is taken as a whole at that moment. Each sum is then one
of the time of its lookup.
-/
namespace PacketLoss.TornReadings

open Machine KernelTrie Segments PathEgress DropReasons

variable {T : Type} [LpmTrie T] (e : Endian)

/-- `sumPerCPUArray`, with the packets that arrive before each CPU's value is copied. -/
def sumPerCPUArrayDuring (m : Maps T) (cpus : ℕ) (map : DebugMap)
    (arrivals : ℕ → List Invocation) : Maps T × U64 :=
  (List.range cpus).foldl
    (fun s cpu =>
      let m := run e s.1 (arrivals cpu)
      (m, s.2 + m.debug map cpu))
    (m, 0#64)

/-- `ReadDebugCounters`, if every lookup succeeds. -/
def readDebugCountersDuring (m : Maps T) (cpus : ℕ) (arrivals : DebugMap → ℕ → List Invocation) :
    Maps T × DebugCounters :=
  let seen := sumPerCPUArrayDuring e m cpus .seen (arrivals .seen)
  let notIPv4 := sumPerCPUArrayDuring e seen.1 cpus .notIpv4 (arrivals .notIpv4)
  let notTCP := sumPerCPUArrayDuring e notIPv4.1 cpus .notTcp (arrivals .notTcp)
  let tcpShort := sumPerCPUArrayDuring e notTCP.1 cpus .tcpShort (arrivals .tcpShort)
  let tcpPureAck := sumPerCPUArrayDuring e tcpShort.1 cpus .tcpPureAck (arrivals .tcpPureAck)
  let tcpPackets := sumPerCPUArrayDuring e tcpPureAck.1 cpus .tcpPayload (arrivals .tcpPayload)
  let noSrcZone := sumPerCPUArrayDuring e tcpPackets.1 cpus .noSrcZone (arrivals .noSrcZone)
  let noDstZone := sumPerCPUArrayDuring e noSrcZone.1 cpus .noDstZone (arrivals .noDstZone)
  let tcpZoned := sumPerCPUArrayDuring e noDstZone.1 cpus .tcpZoned (arrivals .tcpZoned)
  (tcpZoned.1,
    { seen := seen.2
      notIPv4 := notIPv4.2
      notTCP := notTCP.2
      tcpShort := tcpShort.2
      tcpPureAck := tcpPureAck.2
      tcpPackets := tcpPackets.2
      noSrcZone := noSrcZone.2
      noDstZone := noDstZone.2
      tcpZoned := tcpZoned.2 })

/-! The increments of one CPU. -/

def cellIncrements (m : Maps T) (invs : List Invocation) (map : DebugMap) (cpu : ℕ) : ℕ :=
  (((trace e m invs).filter fun t => t.1.cpu = cpu).flatMap fun t => countersOf t.2).count map

theorem trace_append (m : Maps T) (left right : List Invocation) :
    trace e m (left ++ right) = trace e m left ++ trace e (run e m left) right := by
  induction left generalizing m with
  | nil => rfl
  | cons inv left ih =>
    rw [List.cons_append, trace, trace, ih, List.cons_append]
    rfl

theorem cellIncrements_append (m : Maps T) (left right : List Invocation) (map : DebugMap)
    (cpu : ℕ) : cellIncrements e m (left ++ right) map cpu =
      cellIncrements e m left map cpu + cellIncrements e (run e m left) right map cpu := by
  rw [cellIncrements, trace_append, List.filter_append, List.flatMap_append, List.count_append]
  rfl

theorem cellIncrements_cons (m : Maps T) (inv : Invocation) (invs : List Invocation)
    (map : DebugMap) (cpu : ℕ) : cellIncrements e m (inv :: invs) map cpu =
      (if inv.cpu = cpu then (countersOf (pathEgress e m inv).2).count map else 0) +
        cellIncrements e (pathEgress e m inv).1 invs map cpu := by
  rw [cellIncrements, trace]
  by_cases hcpu : inv.cpu = cpu
  · rw [List.filter_cons_of_pos (by simpa using hcpu), if_pos hcpu, List.flatMap_cons,
      List.count_append]
    rfl
  · rw [List.filter_cons_of_neg (by simpa using hcpu), if_neg hcpu, Nat.zero_add]
    rfl

theorem increments_append (m : Maps T) (left right : List Invocation) (map : DebugMap) :
    increments e m (left ++ right) map =
      increments e m left map + increments e (run e m left) right map := by
  rw [increments, trace_append, List.flatMap_append, List.count_append]
  rfl

/-- The CPUs together make all the increments. -/
theorem sum_cellIncrements (m : Maps T) {cpus : ℕ} {invs : List Invocation}
    (hcpu : ∀ inv ∈ invs, inv.cpu < cpus) (map : DebugMap) :
    ∑ cpu ∈ Finset.range cpus, cellIncrements e m invs map cpu = increments e m invs map := by
  induction invs generalizing m with
  | nil => simp [cellIncrements, increments, trace]
  | cons inv invs ih =>
    have hhead : inv.cpu ∈ Finset.range cpus :=
      Finset.mem_range.mpr (hcpu inv List.mem_cons_self)
    simp only [cellIncrements_cons]
    rw [Finset.sum_add_distrib, Finset.sum_ite_eq, if_pos hhead,
      ih _ fun i hi => hcpu i (List.mem_cons_of_mem _ hi)]
    rw [increments, increments, trace, List.flatMap_cons, List.count_append]

/-- Each value grows by the increments of its CPU. -/
theorem debug_run (m : Maps T) (invs : List Invocation) (map : DebugMap) (cpu : ℕ) :
    (run e m invs).debug map cpu =
      m.debug map cpu + BitVec.ofNat 64 (cellIncrements e m invs map cpu) := by
  induction invs generalizing m with
  | nil => simp [run, cellIncrements, trace]
  | cons inv invs ih =>
    have hstep : (pathEgress e m inv).1.debug map cpu = m.debug map cpu + BitVec.ofNat 64
        (if inv.cpu = cpu then (countersOf (pathEgress e m inv).2).count map else 0) := by
      rw [debug_pathEgress, debug_incs]
    change (run e (pathEgress e m inv).1 invs).debug map cpu = _
    rw [ih, hstep, cellIncrements_cons, BitVec.ofNat_add, BitVec.add_assoc]

/-- Everything that arrives during the lookup of a map. -/
def arrivedIn (cpus : ℕ) (arrivals : ℕ → List Invocation) : List Invocation :=
  (List.range cpus).flatMap arrivals

theorem arrivedIn_succ (k : ℕ) (arrivals : ℕ → List Invocation) :
    arrivedIn (k + 1) arrivals = arrivedIn k arrivals ++ arrivals k := by
  rw [arrivedIn, arrivedIn, List.range_succ, List.flatMap_append, List.flatMap_singleton]

theorem run_append (m : Maps T) (left right : List Invocation) :
    run e m (left ++ right) = run e (run e m left) right := by
  simp [run, List.foldl_append]

section Lookup

variable {m₀ : Maps T} (past : List Invocation) (map : DebugMap) (arrivals : ℕ → List Invocation)

/-- The lookup of a map sums, for each CPU, the increments up to some moment of it. -/
theorem lookup_upTo (hzero : ∀ map cpu, m₀.debug map cpu = 0#64) (k : ℕ) :
    let s := sumPerCPUArrayDuring e (run e m₀ past) k map arrivals
    s.1 = run e m₀ (past ++ arrivedIn k arrivals) ∧
      ∃ total, s.2 = BitVec.ofNat 64 total ∧
        ∑ cpu ∈ Finset.range k, cellIncrements e m₀ past map cpu ≤ total ∧
          total ≤ ∑ cpu ∈ Finset.range k,
            cellIncrements e m₀ (past ++ arrivedIn k arrivals) map cpu := by
  induction k with
  | zero => exact ⟨by simp [sumPerCPUArrayDuring, arrivedIn], 0, rfl, by simp, by simp⟩
  | succ k ih =>
    obtain ⟨hmaps, total, hsum, hlower, hupper⟩ := ih
    have hsucc : sumPerCPUArrayDuring e (run e m₀ past) (k + 1) map arrivals =
        let s := sumPerCPUArrayDuring e (run e m₀ past) k map arrivals
        (run e s.1 (arrivals k), s.2 + (run e s.1 (arrivals k)).debug map k) := by
      simp only [sumPerCPUArrayDuring, List.range_succ, List.foldl_append, List.foldl_cons,
        List.foldl_nil]
    have hafter : run e (run e m₀ (past ++ arrivedIn k arrivals)) (arrivals k) =
        run e m₀ (past ++ arrivedIn (k + 1) arrivals) := by
      rw [← run_append, List.append_assoc, ← arrivedIn_succ]
    rw [hsucc]
    dsimp only
    rw [hmaps, hafter, hsum]
    refine ⟨rfl, total + cellIncrements e m₀ (past ++ arrivedIn (k + 1) arrivals) map k, ?_, ?_, ?_⟩
    · rw [debug_run, hzero, BitVec.zero_add, BitVec.ofNat_add]
    · rw [Finset.sum_range_succ, cellIncrements_append e m₀ past _ map k]
      omega
    · rw [Finset.sum_range_succ]
      refine Nat.add_le_add_right (hupper.trans (Finset.sum_le_sum fun cpu _ => ?_)) _
      rw [arrivedIn_succ, ← List.append_assoc, cellIncrements_append e m₀ _ (arrivals k)]
      exact Nat.le_add_right _ _

variable {cpus : ℕ} {before after : List Invocation}

/-- What a lookup returns lies between the counts before it and after it. -/
theorem lookup_between (hzero : ∀ map cpu, m₀.debug map cpu = 0#64) (hbefore : before <+: past)
    (hafter : past ++ arrivedIn cpus arrivals <+: after)
    (hcpu : ∀ inv ∈ after, inv.cpu < cpus) (hlen : after.length < 2 ^ 64) :
    increments e m₀ before map ≤
        (sumPerCPUArrayDuring e (run e m₀ past) cpus map arrivals).2.toNat ∧
      (sumPerCPUArrayDuring e (run e m₀ past) cpus map arrivals).2.toNat ≤
        increments e m₀ after map := by
  obtain ⟨-, total, hsum, hlower, hupper⟩ := lookup_upTo e past map arrivals hzero cpus
  obtain ⟨more, rfl⟩ := hbefore
  obtain ⟨rest, rfl⟩ := hafter
  have hdone : ∀ inv ∈ before ++ more ++ arrivedIn cpus arrivals, inv.cpu < cpus :=
    fun inv hinv => hcpu inv (List.mem_append_left _ hinv)
  rw [sum_cellIncrements e m₀ fun inv hinv => hdone inv (List.mem_append_left _ hinv),
    increments_append] at hlower
  rw [sum_cellIncrements e m₀ hdone] at hupper
  have hall := (increments_levels e m₀ (before ++ more ++ arrivedIn cpus arrivals) map).2.2.2
  rw [List.length_append] at hlen
  rw [hsum, BitVec.toNat_ofNat, Nat.mod_eq_of_lt (by omega), increments_append e m₀ _ rest]
  omega

end Lookup

/-- Everything that arrives during the lookups of some maps. -/
def arrivedDuring (cpus : ℕ) (arrivals : DebugMap → ℕ → List Invocation)
    (maps : List DebugMap) : List Invocation :=
  maps.flatMap fun map => arrivedIn cpus (arrivals map)

/-- The maps in the order in which they are read. -/
def lookupOrder : List DebugMap :=
  [.seen, .notIpv4, .notTcp, .tcpShort, .tcpPureAck, .tcpPayload, .noSrcZone, .noDstZone, .tcpZoned]

/-- What has arrived when the first `k` maps were read. -/
def upTo (cpus : ℕ) (past : List Invocation) (arrivals : DebugMap → ℕ → List Invocation)
    (k : ℕ) : List Invocation :=
  past ++ arrivedDuring cpus arrivals (lookupOrder.take k)

section Order

variable {cpus : ℕ} {past : List Invocation} {arrivals : DebugMap → ℕ → List Invocation}

theorem arrivedDuring_append (maps more : List DebugMap) :
    arrivedDuring cpus arrivals (maps ++ more) =
      arrivedDuring cpus arrivals maps ++ arrivedDuring cpus arrivals more :=
  List.flatMap_append

theorem upTo_succ {k : ℕ} {map : DebugMap}
    (hmap : lookupOrder.take (k + 1) = lookupOrder.take k ++ [map]) :
    upTo cpus past arrivals (k + 1) =
      upTo cpus past arrivals k ++ arrivedIn cpus (arrivals map) := by
  rw [upTo, hmap, arrivedDuring_append, ← List.append_assoc, ← upTo]
  congr 1
  exact List.flatMap_singleton _ _

theorem prefix_upTo {j k : ℕ} (h : j ≤ k) :
    upTo cpus past arrivals j <+: upTo cpus past arrivals k := by
  obtain ⟨maps, hmaps⟩ := List.take_prefix_take_left (l := lookupOrder) h
  refine ⟨arrivedDuring cpus arrivals maps, ?_⟩
  rw [upTo, upTo, ← hmaps, arrivedDuring_append, ← List.append_assoc]

/-- The lookup that follows on the first `k`: what it leaves and what it returns. -/
theorem lookup_in_order {m : Maps T} (hzero : ∀ map cpu, m.debug map cpu = 0#64)
    (hcpu : ∀ inv ∈ upTo cpus past arrivals 9, inv.cpu < cpus)
    (hlen : (upTo cpus past arrivals 9).length < 2 ^ 64) (k : ℕ) (map : DebugMap)
    (hmap : lookupOrder.take (k + 1) = lookupOrder.take k ++ [map]) (hk : k < 9) :
    let s := sumPerCPUArrayDuring e (run e m (upTo cpus past arrivals k)) cpus map (arrivals map)
    s.1 = run e m (upTo cpus past arrivals (k + 1)) ∧
      (∀ j, j ≤ k → increments e m (upTo cpus past arrivals j) map ≤ s.2.toNat) ∧
      ∀ j, k < j → j ≤ 9 → s.2.toNat ≤ increments e m (upTo cpus past arrivals j) map := by
  have hbetween : ∀ i j, i ≤ k → k < j → j ≤ 9 →
      let s := sumPerCPUArrayDuring e (run e m (upTo cpus past arrivals k)) cpus map (arrivals map)
      increments e m (upTo cpus past arrivals i) map ≤ s.2.toNat ∧
        s.2.toNat ≤ increments e m (upTo cpus past arrivals j) map := by
    intro i j hi hj hend
    have hall : upTo cpus past arrivals j <+: upTo cpus past arrivals 9 := prefix_upTo hend
    apply lookup_between e _ map (arrivals map) hzero (prefix_upTo hi)
    · rw [← upTo_succ hmap]
      exact prefix_upTo hj
    · exact fun inv hinv => hcpu inv (hall.subset hinv)
    · exact lt_of_le_of_lt hall.length_le hlen
  refine ⟨?_, fun i hi => ?_, fun j hj hend => ?_⟩
  · rw [upTo_succ hmap]
    exact (lookup_upTo e _ map (arrivals map) hzero cpus).1
  · exact (hbetween i 9 hi hk (Nat.le_refl _)).1
  · exact (hbetween k j (Nat.le_refl _) hj hend).2

end Order

section Reading

variable {m : Maps T} {cpus : ℕ} {past : List Invocation}
  {arrivals : DebugMap → ℕ → List Invocation}

/-- The lookup that is made after `k` others. -/
def lookupAfter (m : Maps T) (cpus : ℕ) (past : List Invocation)
    (arrivals : DebugMap → ℕ → List Invocation) (k : ℕ) (map : DebugMap) : Maps T × U64 :=
  sumPerCPUArrayDuring e (run e m (upTo cpus past arrivals k)) cpus map (arrivals map)

/-- The counters of a reading, each by its place in the order. -/
theorem reading_eq (hzero : ∀ map cpu, m.debug map cpu = 0#64)
    (hcpu : ∀ inv ∈ past ++ arrivedDuring cpus arrivals lookupOrder, inv.cpu < cpus)
    (hlen : (past ++ arrivedDuring cpus arrivals lookupOrder).length < 2 ^ 64) :
    let value := fun k map => (lookupAfter e m cpus past arrivals k map).2
    readDebugCountersDuring e (run e m past) cpus arrivals =
      (run e m (past ++ arrivedDuring cpus arrivals lookupOrder),
        { seen := value 0 .seen
          notIPv4 := value 1 .notIpv4
          notTCP := value 2 .notTcp
          tcpShort := value 3 .tcpShort
          tcpPureAck := value 4 .tcpPureAck
          tcpPackets := value 5 .tcpPayload
          noSrcZone := value 6 .noSrcZone
          noDstZone := value 7 .noDstZone
          tcpZoned := value 8 .tcpZoned }) := by
  intro value
  have hlookup := fun k map hmap hk => (lookup_in_order e hzero hcpu hlen k map hmap hk).1
  have hstart : upTo cpus past arrivals 0 = past := List.append_nil past
  have hseen := hlookup 0 .seen rfl (by omega)
  rw [hstart] at hseen
  simp only [readDebugCountersDuring]
  rw [hseen, hlookup 1 .notIpv4 rfl (by omega), hlookup 2 .notTcp rfl (by omega),
    hlookup 3 .tcpShort rfl (by omega), hlookup 4 .tcpPureAck rfl (by omega),
    hlookup 5 .tcpPayload rfl (by omega), hlookup 6 .noSrcZone rfl (by omega),
    hlookup 7 .noDstZone rfl (by omega), hlookup 8 .tcpZoned rfl (by omega)]
  simp only [value, lookupAfter, hstart]
  rfl

/-- The count of TCP segments is one of the time of the reading. -/
theorem tcpPackets_between (hzero : ∀ map cpu, m.debug map cpu = 0#64)
    (hcpu : ∀ inv ∈ past ++ arrivedDuring cpus arrivals lookupOrder, inv.cpu < cpus)
    (hlen : (past ++ arrivedDuring cpus arrivals lookupOrder).length < 2 ^ 64) :
    let c := (readDebugCountersDuring e (run e m past) cpus arrivals).2
    increments e m past .tcpPayload ≤ c.tcpPackets.toNat ∧ c.tcpPackets.toNat ≤
      increments e m (past ++ arrivedDuring cpus arrivals lookupOrder) .tcpPayload := by
  obtain ⟨-, hfrom, hto⟩ := lookup_in_order e hzero hcpu hlen 5 .tcpPayload rfl (by omega)
  have hlower := hfrom 0 (by omega)
  rw [show upTo cpus past arrivals 0 = past from List.append_nil past] at hlower
  rw [reading_eq e hzero hcpu hlen]
  exact ⟨hlower, hto 9 (by omega) (Nat.le_refl _)⟩

end Reading

/-- Without arrivals the reading is the one of a single moment. -/
theorem readDebugCountersDuring_alone (m : Maps T) (cpus : ℕ) :
    readDebugCountersDuring e m cpus (fun _ _ => []) = (m, readDebugCounters m cpus) := by
  have hlookup : ∀ map, sumPerCPUArrayDuring e m cpus map (fun _ => []) =
      (m, sumPerCPUArray m cpus map) := by
    intro map
    unfold sumPerCPUArrayDuring sumPerCPUArray
    induction cpus with
    | zero => rfl
    | succ n ih =>
      rw [List.range_succ, List.foldl_append, ih, List.map_append, List.map_singleton,
        sumPerCPU_concat]
      rfl
  simp only [readDebugCountersDuring, hlookup]
  rfl

end PacketLoss.TornReadings
