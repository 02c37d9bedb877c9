import Mathlib.Algebra.BigOperators.Intervals
import Mathlib.Data.Fintype.BigOperators
import Mathlib.Data.List.Infix
import PacketLoss.ReadingSteps

/-!
What a reading of the counters says while packets are under way. It can find a packet
that is seen and not yet counted below, and one that was not there when the upper counter
was looked up. The maps are looked up from the top level down: what is missing from a
level is then at most the packets under way at one time, and what is too much at most
those that overlap the reading.
-/
namespace PacketLoss.ConcurrentReadings

open PathEgress hiding run
open Machine KernelTrie Segments DropReasons TornReadings Schedules
open ReadingSteps hiding start step

variable {T : Type} {ι : Type*} [Fintype ι]

section Counts

variable {cpus : ℕ} {invs : ι → Invocation} {s : State T ι}

/-- What the packets of one CPU have added to a counter so far. -/
def cell (invs : ι → Invocation) (s : State T ι) (map : DebugMap) (cpu : ℕ) : ℕ :=
  ∑ i, if (invs i).cpu = cpu then (done (s.packets.pc i)).count map else 0

def total (s : State T ι) (map : DebugMap) : ℕ := ∑ i, (done (s.packets.pc i)).count map

/-- How many packets have begun and are not through. -/
def underWay (s : State T ι) : ℕ :=
  (Finset.univ.filter fun i => begun (s.packets.pc i) && !finished (s.packets.pc i)).card

/-- How many packets have begun in between. -/
def arrived (s s' : State T ι) : ℕ :=
  (Finset.univ.filter fun i => !begun (s.packets.pc i) && begun (s'.packets.pc i)).card

theorem sum_cell (hcpu : ∀ i, (invs i).cpu < cpus) (map : DebugMap) :
    ∑ cpu ∈ Finset.range cpus, cell invs s map cpu = total s map := by
  unfold cell total
  rw [Finset.sum_comm]
  apply Finset.sum_congr rfl
  intro i _
  rw [Finset.sum_ite_eq, if_pos (Finset.mem_range.mpr (hcpu i))]

/-- The counters hold what the packets have added, and no sum holds more than was there. -/
structure Counted (cpus : ℕ) (invs : ι → Invocation) (s : State T ι) : Prop where
  cells : ∀ map cpu, s.packets.mem.debug map cpu = BitVec.ofNat 64 (cell invs s map cpu)
  proper : ∀ i, Proper (s.packets.pc i)
  fits : s.reading.Fits cpus
  out_le : ∀ map, (s.reading.out map).toNat ≤
    ∑ cpu ∈ Finset.range (s.reading.copied cpus map), cell invs s map cpu

theorem counted_start {m : Maps T} (hzero : ∀ map cpu, m.debug map cpu = 0#64) :
    Counted cpus invs (ReadingSteps.start ι m) := by
  refine ⟨fun map cpu => ?_, fun i => trivial, Reading.fits_start, fun map => Nat.zero_le _⟩
  simp [ReadingSteps.start, cell, done, hzero]

/-- Each packet counts at most once. -/
theorem Counted.total_le (h : Counted cpus invs s) (map : DebugMap) :
    total s map ≤ Fintype.card ι := by
  rw [Fintype.card_eq_sum_ones]
  exact Finset.sum_le_sum fun i _ => count_done_le (h.proper i) map

theorem Counted.sum_cell_le (h : Counted cpus invs s) (hcpu : ∀ i, (invs i).cpu < cpus)
    (map : DebugMap) {k : ℕ} (hk : k ≤ cpus) :
    ∑ cpu ∈ Finset.range k, cell invs s map cpu ≤ Fintype.card ι := by
  have hrange : Finset.range k ⊆ Finset.range cpus := Finset.range_mono hk
  have hsum := Finset.sum_le_sum_of_subset (f := cell invs s map) hrange
  rw [sum_cell hcpu] at hsum
  exact hsum.trans (h.total_le map)

/-- A step of the reading leaves what it has of a map, or adds what the packets of the next
CPU have added. -/
theorem Counted.reading_step (h : Counted cpus invs s) (hcpu : ∀ i, (invs i).cpu < cpus)
    (hcard : Fintype.card ι < 2 ^ 64) (map : DebugMap) :
    let r := s.reading.step cpus s.packets.mem
    (r.out map = s.reading.out map ∧ r.copied cpus map = s.reading.copied cpus map) ∨
      s.reading.copied cpus map < cpus ∧
        (r.out map).toNat =
          (s.reading.out map).toNat + cell invs s map (s.reading.copied cpus map) ∧
        r.copied cpus map = s.reading.copied cpus map + 1 := by
  intro r
  obtain ⟨hout, hcopied⟩ | ⟨map', hlt, hout, hcopied⟩ := h.fits.step_cases s.packets.mem
  · exact Or.inl ⟨congrFun hout map, congrFun hcopied map⟩
  · by_cases hmap : map = map'
    · subst hmap
      -- All that the packets add to one map is less than 2^64, so nothing wraps around.
      have hle := h.out_le map
      have hbound := h.sum_cell_le hcpu map hlt
      rw [Finset.sum_range_succ] at hbound
      refine Or.inr ⟨hlt, ?_, ?_⟩
      · rw [hout, Function.update_self, h.cells, BitVec.toNat_add, BitVec.toNat_ofNat]
        rw [Nat.mod_eq_of_lt (by omega : cell invs s map (s.reading.copied cpus map) < 2 ^ 64),
          Nat.mod_eq_of_lt (by omega)]
      · rw [hcopied, Function.update_self]
    · refine Or.inl ⟨?_, ?_⟩
      · rw [hout, Function.update_of_ne hmap]
      · rw [hcopied, Function.update_of_ne hmap]

/-! What the reading will say of a map if no packet counts in it any more. -/

def expected (cpus : ℕ) (invs : ι → Invocation) (s : State T ι) (map : DebugMap) : ℕ :=
  (s.reading.out map).toNat +
    ∑ cpu ∈ Finset.Ico (s.reading.copied cpus map) cpus, cell invs s map cpu

theorem expected_of_notMem {map : DebugMap} (h : map ∉ s.reading.todo) :
    expected cpus invs s map = (s.reading.out map).toNat := by
  rw [expected, Reading.copied_of_notMem h, Finset.Ico_self, Finset.sum_empty, Nat.add_zero]

theorem Counted.expected_le (h : Counted cpus invs s) (hcpu : ∀ i, (invs i).cpu < cpus)
    (map : DebugMap) : expected cpus invs s map ≤ total s map := by
  rw [← sum_cell hcpu, ← Finset.sum_range_add_sum_Ico _ (h.fits.copied_le map)]
  exact Nat.add_le_add_right (h.out_le map) _

/-- Nothing is known yet of a map whose lookup has not begun. -/
theorem Counted.expected_eq (h : Counted cpus invs s) (hcpu : ∀ i, (invs i).cpu < cpus)
    {map : DebugMap} (htail : map ∈ s.reading.todo.tail) :
    expected cpus invs s map = total s map := by
  have hout := h.out_le map
  rw [Reading.copied_of_mem_tail htail, Finset.sum_range_zero] at hout
  rw [expected, Reading.copied_of_mem_tail htail, ← Finset.range_eq_Ico, sum_cell hcpu]
  omega

/-- Nothing is known when the reading begins. -/
theorem expected_of_start (hcpu : ∀ i, (invs i).cpu < cpus) (hstart : s.reading = .start)
    (map : DebugMap) : expected cpus invs s map = total s map := by
  have hcopied : s.reading.copied cpus map = 0 := by
    have hmem : map ∈ lookupOrder := by cases map <;> decide
    rw [hstart]
    unfold Reading.copied
    split_ifs with htail htodo
    · rfl
    · rfl
    · exact absurd hmem htodo
  rw [expected, hcopied, hstart, ← Finset.range_eq_Ico, sum_cell hcpu]
  exact Nat.zero_add _

/-! The levels. -/

/-- The counters `lower` divide `upper` and are looked up after it. -/
structure Level (upper : DebugMap) (lower : Finset DebugMap) : Prop where
  counts : ∀ pc, Proper pc → ∑ map ∈ lower, (done pc).count map ≤ (done pc).count upper ∧
    (done pc).count upper ≤ ∑ map ∈ lower, (done pc).count map +
      if begun pc && !finished pc then 1 else 0
  order : ∀ todo, todo <:+ lookupOrder → upper ∈ todo → ∀ map ∈ lower, map ∈ todo.tail

theorem level_seen : Level .seen reasons := by
  refine ⟨fun pc h => (done_levels h).2.1, fun todo hsuffix hmem => ?_⟩
  have hall : ∀ todo ∈ lookupOrder.tails, DebugMap.seen ∈ todo →
      ∀ map ∈ reasons, map ∈ todo.tail := by decide
  exact hall todo ((List.mem_tails _ _).mpr hsuffix) hmem

theorem level_packets : Level .tcpPayload zonings := by
  refine ⟨fun pc h => (done_levels h).2.2, fun todo hsuffix hmem => ?_⟩
  have hall : ∀ todo ∈ lookupOrder.tails, DebugMap.tcpPayload ∈ todo →
      ∀ map ∈ zonings, map ∈ todo.tail := by decide
  exact hall todo ((List.mem_tails _ _).mpr hsuffix) hmem

variable {upper : DebugMap} {lower : Finset DebugMap} {k : ℕ}

theorem Counted.total_upper_le (h : Counted cpus invs s) (hlevel : Level upper lower) :
    total s upper ≤ ∑ map ∈ lower, total s map + underWay s := by
  unfold total underWay
  rw [Finset.sum_comm, Finset.card_filter, ← Finset.sum_add_distrib]
  exact Finset.sum_le_sum fun i _ => (hlevel.counts _ (h.proper i)).2

theorem Counted.total_lower_le (h : Counted cpus invs s) (hlevel : Level upper lower) :
    ∑ map ∈ lower, total s map ≤ total s upper := by
  unfold total
  rw [Finset.sum_comm]
  exact Finset.sum_le_sum fun i _ => (hlevel.counts _ (h.proper i)).1

/-- As long as the upper counter is looked up, the lower ones can only be expected. -/
theorem Counted.expected_upper_le (h : Counted cpus invs s) (hcpu : ∀ i, (invs i).cpu < cpus)
    (hlevel : Level upper lower) (hunder : underWay s ≤ k) (hmem : upper ∈ s.reading.todo) :
    expected cpus invs s upper ≤ ∑ map ∈ lower, expected cpus invs s map + k := by
  have hlower : ∑ map ∈ lower, expected cpus invs s map = ∑ map ∈ lower, total s map := by
    apply Finset.sum_congr rfl
    intro map hmap
    exact h.expected_eq hcpu (hlevel.order _ h.fits.suffix hmem map hmap)
  have hupper := h.expected_le hcpu upper
  have hlevels := h.total_upper_le hlevel
  omega

/-- A packet was seen before or has begun since. -/
theorem total_seen_le {s' : State T ι} (h : Counted cpus invs s) (h' : Counted cpus invs s') :
    total s' .seen ≤ total s .seen + arrived s s' := by
  unfold total arrived
  rw [Finset.card_filter, ← Finset.sum_add_distrib]
  apply Finset.sum_le_sum
  intro i _
  rw [(done_levels (h.proper i)).1, (done_levels (h'.proper i)).1]
  cases begun (s.packets.pc i) <;> cases begun (s'.packets.pc i) <;> simp

end Counts

/-! A step. -/

section Steps

variable [LpmTrie T] [DecidableEq ι]
  {e : Endian} {cpus : ℕ} {invs : ι → Invocation} {s : State T ι}

variable (e cpus invs s) in
theorem cell_step_packet (i : ι) : ∃ new : List DebugMap, ∀ map cpu,
    cell invs (ReadingSteps.step e cpus invs s (some i)) map cpu =
        cell invs s map cpu + (if (invs i).cpu = cpu then new.count map else 0) ∧
      (ReadingSteps.step e cpus invs s (some i)).packets.mem.debug map cpu =
        s.packets.mem.debug map cpu +
          BitVec.ofNat 64 (if (invs i).cpu = cpu then new.count map else 0) := by
  obtain ⟨new, hdone, hdebug⟩ := access_done e (invs i) s.packets.mem (s.packets.pc i)
  refine ⟨new, fun map cpu => ⟨?_, ?_⟩⟩
  · have hpc : ∀ j, (done ((ReadingSteps.step e cpus invs s (some i)).packets.pc j)).count map =
        (done (s.packets.pc j)).count map + if j = i then new.count map else 0 := by
      intro j
      by_cases hj : j = i
      · subst hj
        simp only [ReadingSteps.step]
        rw [pc_threadStep_self, hdone, List.count_append, if_true]
      · simp only [ReadingSteps.step]
        rw [pc_threadStep_of_ne _ _ hj, if_neg hj, Nat.add_zero]
    have hterm : ∀ j, (if (invs j).cpu = cpu then
        (done ((ReadingSteps.step e cpus invs s (some i)).packets.pc j)).count map else 0) =
          (if (invs j).cpu = cpu then (done (s.packets.pc j)).count map else 0) +
            if j = i then (if (invs i).cpu = cpu then new.count map else 0) else 0 := by
      intro j
      rw [hpc]
      by_cases hj : j = i
      · subst hj
        split_ifs <;> rfl
      · rw [if_neg hj, if_neg hj, Nat.add_zero, Nat.add_zero]
    rw [cell, Finset.sum_congr rfl fun j _ => hterm j, Finset.sum_add_distrib,
      Finset.sum_ite_eq', if_pos (Finset.mem_univ i), cell]
  · simp only [ReadingSteps.step, threadStep]
    rw [hdebug, debug_incs]

theorem cell_le_step (a : Option ι) (map : DebugMap) (cpu : ℕ) :
    cell invs s map cpu ≤ cell invs (ReadingSteps.step e cpus invs s a) map cpu := by
  cases a with
  | none => exact Nat.le_refl _
  | some i =>
    obtain ⟨new, hnew⟩ := cell_step_packet e cpus invs s i
    rw [(hnew map cpu).1]
    exact Nat.le_add_right _ _

theorem Counted.step (h : Counted cpus invs s) (hcpu : ∀ i, (invs i).cpu < cpus)
    (hcard : Fintype.card ι < 2 ^ 64) (a : Option ι) :
    Counted cpus invs (ReadingSteps.step e cpus invs s a) := by
  cases a with
  | some i =>
    refine ⟨fun map cpu => ?_, fun j => ?_, h.fits, fun map => ?_⟩
    · obtain ⟨new, hnew⟩ := cell_step_packet e cpus invs s i
      rw [(hnew map cpu).1, (hnew map cpu).2, h.cells, BitVec.ofNat_add]
    · by_cases hj : j = i
      · subst hj
        simp only [ReadingSteps.step]
        rw [pc_threadStep_self]
        exact proper_access e (invs j) s.packets.mem (h.proper j)
      · simp only [ReadingSteps.step]
        rw [pc_threadStep_of_ne _ _ hj]
        exact h.proper j
    · exact (h.out_le map).trans (Finset.sum_le_sum fun cpu _ => cell_le_step (some i) map cpu)
  | none =>
    refine ⟨h.cells, h.proper, h.fits.step s.packets.mem, fun map => ?_⟩
    change ((s.reading.step cpus s.packets.mem).out map).toNat ≤ ∑ cpu ∈ Finset.range
      ((s.reading.step cpus s.packets.mem).copied cpus map), cell invs s map cpu
    obtain ⟨hout, hcopied⟩ | ⟨-, hout, hcopied⟩ := h.reading_step hcpu hcard map
    · rw [hout, hcopied]
      exact h.out_le map
    · rw [hout, hcopied, Finset.sum_range_succ]
      exact Nat.add_le_add_right (h.out_le map) _

variable (e cpus invs s) in
theorem expected_le_packet (i : ι) (map : DebugMap) :
    expected cpus invs s map ≤ expected cpus invs (ReadingSteps.step e cpus invs s (some i)) map :=
  Nat.add_le_add_left (Finset.sum_le_sum fun cpu _ => cell_le_step (some i) map cpu) _

theorem Counted.expected_reading (h : Counted cpus invs s) (hcpu : ∀ i, (invs i).cpu < cpus)
    (hcard : Fintype.card ι < 2 ^ 64) (map : DebugMap) :
    expected cpus invs (ReadingSteps.step e cpus invs s none) map =
      expected cpus invs s map := by
  change ((s.reading.step cpus s.packets.mem).out map).toNat + ∑ cpu ∈ Finset.Ico
    ((s.reading.step cpus s.packets.mem).copied cpus map) cpus, cell invs s map cpu = _
  obtain ⟨hout, hcopied⟩ | ⟨hlt, hout, hcopied⟩ := h.reading_step hcpu hcard map
  · rw [hout, hcopied, expected]
  · rw [hout, hcopied, expected, Finset.sum_eq_sum_Ico_succ_bot hlt, Nat.add_assoc]

variable {upper : DebugMap} {lower : Finset DebugMap} {k : ℕ}

/-- Once it is, its sum does not change, and those of the lower ones only grow. -/
theorem Counted.missing_step (h : Counted cpus invs s) (hcpu : ∀ i, (invs i).cpu < cpus)
    (hcard : Fintype.card ι < 2 ^ 64) (hlevel : Level upper lower) {a : Option ι}
    (hunder : underWay (ReadingSteps.step e cpus invs s a) ≤ k)
    (hmissing : expected cpus invs s upper ≤ ∑ map ∈ lower, expected cpus invs s map + k) :
    expected cpus invs (ReadingSteps.step e cpus invs s a) upper ≤
      ∑ map ∈ lower, expected cpus invs (ReadingSteps.step e cpus invs s a) map + k := by
  cases a with
  | none => simpa only [h.expected_reading hcpu hcard] using hmissing
  | some i =>
    by_cases hmem : upper ∈ s.reading.todo
    · exact (h.step hcpu hcard (some i)).expected_upper_le hcpu hlevel hunder hmem
    · have hlower := Finset.sum_le_sum fun map (_ : map ∈ lower) =>
        expected_le_packet e cpus invs s i map
      rw [expected_of_notMem hmem] at hmissing
      rw [expected_of_notMem (s := ReadingSteps.step e cpus invs s (some i)) hmem]
      exact hmissing.trans (Nat.add_le_add_right hlower k)

/-! A whole reading. -/

section Reading

variable {m : Maps T} (hzero : ∀ map cpu, m.debug map cpu = 0#64)
  (hcpu : ∀ i, (invs i).cpu < cpus) (hcard : Fintype.card ι < 2 ^ 64)

include hzero hcpu hcard

theorem counted_run (sched : List (Option ι)) :
    Counted cpus invs (run (ReadingSteps.step e cpus invs) (ReadingSteps.start ι m) sched) :=
  invariant_run (counted_start hzero) (fun _ a h => h.step hcpu hcard a) sched

/-- What is expected of a map is never taken back. -/
theorem expected_le_run (before during : List (Option ι)) (map : DebugMap) :
    expected cpus invs (run (ReadingSteps.step e cpus invs) (ReadingSteps.start ι m) before) map ≤
      expected cpus invs
        (run (ReadingSteps.step e cpus invs) (ReadingSteps.start ι m) (before ++ during)) map := by
  rw [run_append]
  refine (invariant_run (I := fun s => Counted cpus invs s ∧
    expected cpus invs (run (ReadingSteps.step e cpus invs) (ReadingSteps.start ι m) before) map ≤
      expected cpus invs s map) ⟨counted_run hzero hcpu hcard before, Nat.le_refl _⟩
    (fun s a h => ⟨h.1.step hcpu hcard a, ?_⟩) during).2
  cases a with
  | none =>
    rw [h.1.expected_reading hcpu hcard]
    exact h.2
  | some i => exact h.2.trans (expected_le_packet e cpus invs s i map)

variable {before during : List (Option ι)}

theorem missing_run (hbefore : none ∉ before) {k : ℕ}
    (hunder : Throughout (ReadingSteps.step e cpus invs) (fun s => underWay s ≤ k)
      (run (ReadingSteps.step e cpus invs) (ReadingSteps.start ι m) before) during)
    {upper : DebugMap} {lower : Finset DebugMap} (hlevel : Level upper lower)
    (hupper : upper ∈ lookupOrder) :
    let s := run (ReadingSteps.step e cpus invs) (ReadingSteps.start ι m) (before ++ during)
    expected cpus invs s upper ≤ ∑ map ∈ lower, expected cpus invs s map + k := by
  intro s
  have hcounted := counted_run (e := e) hzero hcpu hcard before
  have hbegins : upper ∈ (run (ReadingSteps.step e cpus invs)
      (ReadingSteps.start ι m) before).reading.todo := by
    rw [reading_of_notMem hbefore]
    exact hupper
  have hfirst := hcounted.expected_upper_le hcpu hlevel (hunder [] during rfl) hbegins
  change expected cpus invs (run _ _ (before ++ during)) upper ≤
    ∑ map ∈ lower, expected cpus invs (run _ _ (before ++ during)) map + k
  rw [run_append]
  refine (invariant_of_meets (I := fun s => Counted cpus invs s ∧
    expected cpus invs s upper ≤ ∑ map ∈ lower, expected cpus invs s map + k) ⟨hcounted, hfirst⟩
      (fun s a h hk => ⟨h.1.step hcpu hcard a, ?_⟩) hunder.meets).2
  exact h.1.missing_step hcpu hcard hlevel hk h.2

end Reading

/-- A TCP segment was counted before, was under way then or has begun since. -/
theorem total_payload_le {sched : List (Option ι)}
    (h : Counted cpus invs (run (ReadingSteps.step e cpus invs) s sched)) :
    total (run (ReadingSteps.step e cpus invs) s sched) .tcpPayload ≤
      total s .tcpPayload + underWay s +
        arrived s (run (ReadingSteps.step e cpus invs) s sched) := by
  unfold total arrived underWay
  rw [Finset.card_filter, Finset.card_filter, ← Finset.sum_add_distrib, ← Finset.sum_add_distrib]
  apply Finset.sum_le_sum
  intro i _
  have hle := count_done_le (h.proper i) .tcpPayload
  cases hfinished : finished (s.packets.pc i) with
  | true =>
    rw [finished_run hfinished]
    omega
  | false =>
    cases hbegun : begun (s.packets.pc i) with
    | true => simpa using hle.trans (Nat.le_add_left _ _)
    | false =>
      cases hlater : begun ((run (ReadingSteps.step e cpus invs) s sched).packets.pc i) with
      | true => simpa using hle.trans (Nat.le_add_left _ _)
      | false =>
        have hentry : (run (ReadingSteps.step e cpus invs) s sched).packets.pc i = .entry := by
          cases hpc : (run (ReadingSteps.step e cpus invs) s sched).packets.pc i with
          | entry => rfl
          | _ => simp [hpc, begun] at hlater
        simp [hentry, done]

/-- A reading adds up at each level, but for the packets that overlap it. -/
structure AddsUp (c : DebugCounters) (underWay arrived : ℕ) : Prop where
  seen_le : c.seen.toNat ≤ c.notIPv4.toNat + c.notTCP.toNat + c.tcpShort.toNat +
    c.tcpPureAck.toNat + c.tcpPackets.toNat + underWay
  le_seen : c.notIPv4.toNat + c.notTCP.toNat + c.tcpShort.toNat + c.tcpPureAck.toNat +
    c.tcpPackets.toNat ≤ c.seen.toNat + arrived
  packets_le : c.tcpPackets.toNat ≤
    c.noSrcZone.toNat + c.noDstZone.toNat + c.tcpZoned.toNat + underWay
  le_packets : c.noSrcZone.toNat + c.noDstZone.toNat + c.tcpZoned.toNat ≤
    c.tcpPackets.toNat + underWay + arrived

/-- A reading that takes its steps returns, and adds up but for the packets that overlap
it: at most `k` are missing if never more are under way at once, and at most those that
have begun since are too much, on the second level with those under way at the beginning. -/
theorem torn_reading_adds_up (zoneLpm srcZoneLpm : T) (hcpu : ∀ i, (invs i).cpu < cpus)
    (hcard : Fintype.card ι < 2 ^ 64) {before during : List (Option ι)} (hbefore : none ∉ before)
    (hmany : 9 * (cpus + 1) ≤ during.countP (· = none)) {k : ℕ}
    (hunder : Throughout (ReadingSteps.step e cpus invs) (fun s => underWay s ≤ k)
      (run (ReadingSteps.step e cpus invs)
        (ReadingSteps.start ι (Maps.loaded zoneLpm srcZoneLpm)) before) during) :
    let start := ReadingSteps.start ι (Maps.loaded zoneLpm srcZoneLpm)
    let s := run (ReadingSteps.step e cpus invs) start before
    let s' := run (ReadingSteps.step e cpus invs) start (before ++ during)
    s'.reading.todo = [] ∧ AddsUp s'.reading.counters k (arrived s s') := by
  intro start s s'
  have hzero : ∀ map cpu, (Maps.loaded zoneLpm srcZoneLpm).debug map cpu = 0#64 := fun _ _ => rfl
  have hs : Counted cpus invs s := counted_run hzero hcpu hcard before
  have hs' : Counted cpus invs s' := counted_run hzero hcpu hcard (before ++ during)
  have hrun : s' = run (ReadingSteps.step e cpus invs) s during := run_append ..
  have hreturned : s'.reading.todo = [] := by
    rw [hrun]
    refine reading_returns hs.fits ?_
    rw [reading_of_notMem hbefore]
    exact hmany
  have hsum : ∀ map, expected cpus invs s' map = (s'.reading.out map).toNat := fun map =>
    expected_of_notMem (by rw [hreturned]; exact List.not_mem_nil)
  have hfrom : ∀ map, total s map ≤ (s'.reading.out map).toNat := by
    intro map
    rw [← hsum, ← expected_of_start hcpu (reading_of_notMem hbefore) map]
    exact expected_le_run hzero hcpu hcard before during map
  have hto : ∀ map, (s'.reading.out map).toNat ≤ total s' map := by
    intro map
    rw [← hsum]
    exact hs'.expected_le hcpu map
  have hseen : expected cpus invs s' .seen ≤ ∑ map ∈ reasons, expected cpus invs s' map + k :=
    missing_run hzero hcpu hcard hbefore hunder level_seen (by decide)
  have hpackets : expected cpus invs s' .tcpPayload ≤
      ∑ map ∈ zonings, expected cpus invs s' map + k :=
    missing_run hzero hcpu hcard hbefore hunder level_packets (by decide)
  simp only [hsum, sum_reasons] at hseen
  simp only [hsum, sum_zonings] at hpackets
  refine ⟨hreturned, hseen, ?_, hpackets, ?_⟩
  · have hbelow := Finset.sum_le_sum fun map (_ : map ∈ reasons) => hto map
    have hlevel := hs'.total_lower_le level_seen
    have hmore := total_seen_le hs hs'
    have hfirst := hfrom .seen
    rw [sum_reasons] at hbelow
    simp only [Reading.counters]
    omega
  · have hbelow := Finset.sum_le_sum fun map (_ : map ∈ zonings) => hto map
    have hlevel := hs'.total_lower_le level_packets
    have hmore : total s' .tcpPayload ≤ total s .tcpPayload + underWay s + arrived s s' := by
      rw [hrun] at hs' ⊢
      exact total_payload_le hs'
    have hfirst := hfrom .tcpPayload
    have hk : underWay s ≤ k := hunder [] during rfl
    rw [sum_zonings] at hbelow
    simp only [Reading.counters]
    omega

end Steps

/-- Two segments on two CPUs. -/
def twoSegments (second : Bool) : Invocation :=
  { sampleSegment 1000#32 0x18#8 [1#8, 2#8] (BitVec.ofNat 64 (2000000000 + second.toNat)) with
    cpu := second.toNat }

/-- The second comes and goes while the first, which has been seen, is held up. -/
def overtaking : List (Option Bool) :=
  List.replicate 18 none ++ List.replicate 4 (some true) ++ List.replicate 9 none ++ [some false]

theorem overtaking_adds_up :
    let start := ReadingSteps.start Bool (Maps.loaded zoneTrie srcZoneTrie)
    let s := run (ReadingSteps.step .little 2 twoSegments) start [some false]
    let s' := run (ReadingSteps.step .little 2 twoSegments) start ([some false] ++ overtaking)
    s'.reading.todo = [] ∧ AddsUp s'.reading.counters 2 (arrived s s') :=
  torn_reading_adds_up zoneTrie srcZoneTrie (by decide) (by decide) (by decide) (by decide)
    (by decide +kernel)

/-- Then the first is missing on the first level and the second too much on the other. -/
example :
    let start := ReadingSteps.start Bool (Maps.loaded zoneTrie srcZoneTrie)
    let c := (run (ReadingSteps.step .little 2 twoSegments) start
      ([some false] ++ overtaking)).reading.counters
    c.seen = 1#64 ∧ c.tcpPackets = 0#64 ∧ c.tcpZoned = 1#64 := by decide +kernel

end PacketLoss.ConcurrentReadings
