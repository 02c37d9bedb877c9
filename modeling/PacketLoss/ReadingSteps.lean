import Mathlib.Algebra.BigOperators.Intervals
import Mathlib.Data.Fintype.BigOperators
import PacketLoss.Schedules
import PacketLoss.TornReadings

/-!
`path_egress` and `ReadDebugCounters` at the same time. A packet increments its counters
one after the other, on its own CPU, and the kernel copies the values of a map CPU by CPU.
Each increment and each copy is a step, and the packets and the reading take their steps
in any order.
-/
namespace PacketLoss.ReadingSteps

open PathEgress hiding run
open Machine KernelTrie Segments BloomFilter DropReasons TornReadings Schedules

/-- Where a packet is in `path_egress`: before its first increment, between two of
them, after the last, or through. -/
inductive Pc
  | entry
  | parsing
  | zoning (seg : Segment)
  | testing (seg : Segment) (zoneId : U8)
  | returned (outcome : Outcome)

section Access

variable {T : Type} [LpmTrie T] (e : Endian) (inv : Invocation)

/-- The next increment of a packet, with what is computed before it. What follows the
last, on the filter and the ring buffer, counts nothing and is taken as one step. -/
def access (m : Maps T) : Pc → Maps T × Pc
  | .entry => (debugInc m inv.cpu .seen, .parsing)
  | .parsing =>
    match parseSegment e inv.skb with
    | .error reason => (debugInc m inv.cpu reason, .returned (.left reason))
    | .ok seg => (debugInc m inv.cpu .tcpPayload, .zoning seg)
  | .zoning seg =>
    match LpmTrie.lookup m.srcZoneLpm (lpmKey e seg.saddr) with
    | none => (debugInc m inv.cpu .noSrcZone, .returned (.left .noSrcZone))
    | some _ =>
      match LpmTrie.lookup m.zoneLpm (lpmKey e seg.daddr) with
      | none => (debugInc m inv.cpu .noDstZone, .returned (.left .noDstZone))
      | some zoneId => (debugInc m inv.cpu .tcpZoned, .testing seg zoneId)
  | .testing seg zoneId =>
    let (isRetrans, bloom) := testSegment (bloomMaybeRollEpoch m.bloom inv.now) seg
    let m := { m with bloom := bloom }
    let evt := ⟨inv.skb.ifindex, zoneId, if isRetrans then 1#8 else 0#8⟩
    let m := if inv.reserve then { m with statsRb := m.statsRb ++ [evt] } else m
    (m, .returned (.counted zoneId isRetrans))
  | .returned outcome => (m, .returned outcome)

/-- The counters that a packet has incremented so far. -/
def done : Pc → List DebugMap
  | .entry => []
  | .parsing => [.seen]
  | .zoning _ => [.seen, .tcpPayload]
  | .testing _ _ => [.seen, .tcpPayload, .tcpZoned]
  | .returned outcome => countersOf outcome

/-- An access does the increments that it adds to those done. -/
theorem access_done (m : Maps T) (pc : Pc) :
    ∃ new, done (access e inv m pc).2 = done pc ++ new ∧
      (access e inv m pc).1.debug =
        (new.foldl (fun m map => debugInc m inv.cpu map) m).debug := by
  cases pc with
  | entry => exact ⟨[.seen], rfl, rfl⟩
  | parsing =>
    simp only [access]
    cases hparse : parseSegment e inv.skb with
    | error reason =>
      refine ⟨[reason], ?_, rfl⟩
      rcases parseSegment_error e hparse with rfl | rfl | rfl | rfl <;> rfl
    | ok seg => exact ⟨[.tcpPayload], rfl, rfl⟩
  | zoning seg =>
    simp only [access]
    cases LpmTrie.lookup m.srcZoneLpm (lpmKey e seg.saddr) with
    | none => exact ⟨[.noSrcZone], rfl, rfl⟩
    | some src =>
      dsimp only
      cases LpmTrie.lookup m.zoneLpm (lpmKey e seg.daddr) with
      | none => exact ⟨[.noDstZone], rfl, rfl⟩
      | some zoneId => exact ⟨[.tcpZoned], rfl, rfl⟩
  | testing seg zoneId =>
    refine ⟨[], rfl, ?_⟩
    simp only [access]
    cases inv.reserve <;> rfl
  | returned outcome => exact ⟨[], (List.append_nil _).symm, rfl⟩

/-- Alone, the accesses are those of `path_egress`. -/
theorem iterate_access (m : Maps T) :
    (fun x => access e inv x.1 x.2)^[4] (m, .entry) =
      ((pathEgress e m inv).1, .returned (pathEgress e m inv).2) := by
  let m₁ := debugInc m inv.cpu .seen
  simp only [Function.iterate_succ_apply, Function.iterate_zero_apply]
  have hentry : access e inv m .entry = (m₁, .parsing) := rfl
  have hreturned : ∀ (m : Maps T) outcome,
      access e inv m (.returned outcome) = (m, .returned outcome) := fun _ _ => rfl
  rw [hentry]
  cases hparse : parseSegment e inv.skb with
  | error reason =>
    have hparsing : access e inv m₁ .parsing =
        (debugInc m₁ inv.cpu reason, .returned (.left reason)) := by simp only [access, hparse]
    simp only [hparsing, hreturned, pathEgress, hparse]
    rfl
  | ok seg =>
    let m₂ := debugInc m₁ inv.cpu .tcpPayload
    have hparsing : access e inv m₁ .parsing = (m₂, .zoning seg) := by
      simp only [access, hparse]
      rfl
    rw [hparsing]
    cases hsrc : LpmTrie.lookup m₂.srcZoneLpm (lpmKey e seg.saddr) with
    | none =>
      have hzoning : access e inv m₂ (.zoning seg) =
          (debugInc m₂ inv.cpu .noSrcZone, .returned (.left .noSrcZone)) := by
        simp only [access, hsrc]
      simp only [hzoning, hreturned, pathEgress, hparse]
      rw [hsrc]
    | some src =>
      cases hdst : LpmTrie.lookup m₂.zoneLpm (lpmKey e seg.daddr) with
      | none =>
        have hzoning : access e inv m₂ (.zoning seg) =
            (debugInc m₂ inv.cpu .noDstZone, .returned (.left .noDstZone)) := by
          simp only [access, hsrc, hdst]
        simp only [hzoning, hreturned, pathEgress, hparse]
        rw [hsrc]
        dsimp only
        rw [hdst]
      | some zoneId =>
        have hzoning : access e inv m₂ (.zoning seg) =
            (debugInc m₂ inv.cpu .tcpZoned, .testing seg zoneId) := by
          simp only [access, hsrc, hdst]
        simp only [hzoning, pathEgress, hparse]
        rw [hsrc]
        dsimp only
        rw [hdst]
        rfl

end Access

/-! `done` at each level. -/

def begun : Pc → Bool
  | .entry => false
  | _ => true

def finished : Pc → Bool
  | .returned _ => true
  | _ => false

def Proper : Pc → Prop
  | .returned outcome => IsWayOut outcome
  | _ => True

/-- The counters that `seen` is divided into. -/
def reasons : Finset DebugMap := {.notIpv4, .notTcp, .tcpShort, .tcpPureAck, .tcpPayload}

/-- The counters that `tcpPayload` is divided into. -/
def zonings : Finset DebugMap := {.noSrcZone, .noDstZone, .tcpZoned}

theorem sum_reasons (f : DebugMap → ℕ) : ∑ map ∈ reasons, f map =
    f .notIpv4 + f .notTcp + f .tcpShort + f .tcpPureAck + f .tcpPayload := by
  simp [reasons, Nat.add_assoc]

theorem sum_zonings (f : DebugMap → ℕ) :
    ∑ map ∈ zonings, f map = f .noSrcZone + f .noDstZone + f .tcpZoned := by
  simp [zonings, Nat.add_assoc]

theorem proper_access {T : Type} [LpmTrie T] (e : Endian) (inv : Invocation) (m : Maps T)
    {pc : Pc} (h : Proper pc) : Proper (access e inv m pc).2 := by
  cases pc with
  | entry => trivial
  | parsing =>
    simp only [access]
    cases hparse : parseSegment e inv.skb with
    | error reason =>
      rcases parseSegment_error e hparse with rfl | rfl | rfl | rfl <;> simp [Proper, IsWayOut]
    | ok seg => trivial
  | zoning seg =>
    simp only [access]
    cases LpmTrie.lookup m.srcZoneLpm (lpmKey e seg.saddr) with
    | none => simp [Proper, IsWayOut]
    | some src =>
      dsimp only
      cases LpmTrie.lookup m.zoneLpm (lpmKey e seg.daddr) with
      | none => simp [Proper, IsWayOut]
      | some zoneId => trivial
  | testing seg zoneId => trivial
  | returned outcome => exact h

theorem count_done_le {pc : Pc} (h : Proper pc) (map : DebugMap) : (done pc).count map ≤ 1 := by
  refine List.nodup_iff_count_le_one.mp ?_ map
  cases pc with
  | returned outcome => exact countersOf_nodup h
  | _ => simp [done]

/-- A packet under way may be missing from one level, and is never on a level that it is
missing from above. -/
theorem done_levels {pc : Pc} (h : Proper pc) :
    (done pc).count .seen = (if begun pc then 1 else 0) ∧
      (∑ map ∈ reasons, (done pc).count map ≤ (done pc).count .seen ∧
        (done pc).count .seen ≤ ∑ map ∈ reasons, (done pc).count map +
          if begun pc && !finished pc then 1 else 0) ∧
      ∑ map ∈ zonings, (done pc).count map ≤ (done pc).count .tcpPayload ∧
        (done pc).count .tcpPayload ≤ ∑ map ∈ zonings, (done pc).count map +
          if begun pc && !finished pc then 1 else 0 := by
  rw [sum_reasons, sum_zonings]
  cases pc with
  | returned outcome =>
    obtain ⟨hseen, hpayload, -⟩ := countersOf_levels h
    have hone : (countersOf outcome).count .seen = 1 := by
      refine le_antisymm (count_done_le h .seen) (List.count_pos_iff.mpr ?_)
      unfold countersOf
      split <;> exact List.mem_cons_self
    simp only [done, begun, finished, if_true, Bool.not_true, Bool.and_false, Bool.false_eq_true,
      if_false]
    omega
  | _ => simp [done, begun, finished]

/-! The reading. -/

/-- `ReadDebugCounters` under way: the maps that are still to be looked up, the first of
them from `cpu` on, and `out`, the sums so far. It returns when no map is left. -/
structure Reading where
  todo : List DebugMap
  cpu : ℕ
  out : DebugMap → U64

namespace Reading

def start : Reading := ⟨lookupOrder, 0, fun _ => 0#64⟩

def counters (r : Reading) : DebugCounters where
  seen := r.out .seen
  notIPv4 := r.out .notIpv4
  notTCP := r.out .notTcp
  tcpShort := r.out .tcpShort
  tcpPureAck := r.out .tcpPureAck
  tcpPackets := r.out .tcpPayload
  noSrcZone := r.out .noSrcZone
  noDstZone := r.out .noDstZone
  tcpZoned := r.out .tcpZoned

variable {T : Type} (cpus : ℕ)

/-- One value is copied, or the lookup of a map is over. -/
def step (m : Maps T) (r : Reading) : Reading :=
  match r.todo with
  | [] => r
  | map :: todo =>
    if r.cpu < cpus then
      { r with
        cpu := r.cpu + 1
        out := Function.update r.out map (r.out map + m.debug map r.cpu) }
    else { r with todo := todo, cpu := 0 }

/-- From which CPU on the values of a map are still to be copied. -/
def copied (r : Reading) (map : DebugMap) : ℕ :=
  if map ∈ r.todo.tail then 0 else if map ∈ r.todo then r.cpu else cpus

structure Fits (r : Reading) : Prop where
  suffix : r.todo <:+ lookupOrder
  cpu_le : r.cpu ≤ cpus

variable {cpus} {r : Reading}

theorem fits_start : start.Fits cpus := ⟨List.suffix_refl _, Nat.zero_le _⟩

theorem Fits.step (h : r.Fits cpus) (m : Maps T) : (r.step cpus m).Fits cpus := by
  unfold Reading.step
  cases htodo : r.todo with
  | nil => exact h
  | cons map todo =>
    have hsuffix := h.suffix
    rw [htodo] at hsuffix
    dsimp only
    split_ifs with hcpu
    · exact ⟨hsuffix, hcpu⟩
    · exact ⟨(List.suffix_cons map todo).trans hsuffix, Nat.zero_le _⟩

theorem Fits.copied_le (h : r.Fits cpus) (map : DebugMap) : r.copied cpus map ≤ cpus := by
  unfold copied
  split_ifs
  · exact Nat.zero_le _
  · exact h.cpu_le
  · exact Nat.le_refl _

theorem copied_of_notMem {map : DebugMap} (h : map ∉ r.todo) : r.copied cpus map = cpus := by
  rw [copied, if_neg (fun htail => h (List.mem_of_mem_tail htail)), if_neg h]

theorem copied_of_mem_tail {map : DebugMap} (h : map ∈ r.todo.tail) :
    r.copied cpus map = 0 := if_pos h

/-- A step leaves the sums as they are, or copies the value that is next for some map. -/
theorem Fits.step_cases (h : r.Fits cpus) (m : Maps T) :
    ((r.step cpus m).out = r.out ∧ (r.step cpus m).copied cpus = r.copied cpus) ∨
      ∃ map, r.copied cpus map < cpus ∧
        (r.step cpus m).out =
          Function.update r.out map (r.out map + m.debug map (r.copied cpus map)) ∧
        (r.step cpus m).copied cpus =
          Function.update (r.copied cpus) map (r.copied cpus map + 1) := by
  unfold Reading.step
  cases htodo : r.todo with
  | nil => exact Or.inl ⟨rfl, rfl⟩
  | cons map todo =>
    have hnodup : (map :: todo).Nodup := by
      rw [← htodo]
      exact h.suffix.sublist.nodup (by decide)
    have hnot : map ∉ todo := (List.nodup_cons.mp hnodup).1
    have hfirst : r.copied cpus map = r.cpu := by
      simp [copied, htodo, hnot]
    dsimp only
    split_ifs with hcpu
    · refine Or.inr ⟨map, by rwa [hfirst], by rw [hfirst], ?_⟩
      funext map'
      by_cases hmap : map' = map
      · subst hmap
        simp [copied, htodo, hnot]
      · rw [Function.update_of_ne hmap]
        by_cases htail : map' ∈ todo <;> simp [copied, htodo, hmap, htail]
    · refine Or.inl ⟨rfl, ?_⟩
      have hcpus : r.cpu = cpus := le_antisymm h.cpu_le (Nat.le_of_not_lt hcpu)
      funext map'
      by_cases hmap : map' = map
      · subst hmap
        simp [copied, htodo, hnot, hcpus, List.mem_of_mem_tail.mt hnot]
      · by_cases htail : map' ∈ todo
        · simp [copied, htodo, htail]
        · simp [copied, htodo, htail, hmap, List.mem_of_mem_tail.mt htail]

/-- The steps that the reading still takes. -/
def left (cpus : ℕ) (r : Reading) : ℕ := r.todo.length * (cpus + 1) - r.cpu

theorem Fits.left_step (h : r.Fits cpus) (m : Maps T) (hnot : r.todo ≠ []) :
    (r.step cpus m).left cpus < r.left cpus := by
  have hcpu := h.cpu_le
  unfold Reading.step left
  cases htodo : r.todo with
  | nil => exact absurd htodo hnot
  | cons map todo =>
    dsimp only
    split_ifs with hlt
    · simp only [List.length_cons, Nat.succ_mul]
      omega
    · simp only [List.length_cons, Nat.succ_mul]
      omega

theorem step_of_lt (m : Maps T) (map : DebugMap) (todo : List DebugMap) {k : ℕ} (hk : k < cpus)
    (out : DebugMap → U64) : step cpus m ⟨map :: todo, k, out⟩ =
      ⟨map :: todo, k + 1, Function.update out map (out map + m.debug map k)⟩ := if_pos hk

theorem step_last (m : Maps T) (map : DebugMap) (todo : List DebugMap) (out : DebugMap → U64) :
    step cpus m ⟨map :: todo, cpus, out⟩ = ⟨todo, 0, out⟩ := if_neg (Nat.lt_irrefl _)

/-- Alone, the lookup of a map sums the values of one moment. -/
theorem iterate_lookup (m : Maps T) (map : DebugMap) (todo : List DebugMap)
    (out : DebugMap → U64) :
    (step cpus m)^[cpus + 1] ⟨map :: todo, 0, out⟩ =
      ⟨todo, 0, Function.update out map (out map + sumPerCPUArray m cpus map)⟩ := by
  have hcopies : ∀ k, k ≤ cpus → (step cpus m)^[k] ⟨map :: todo, 0, out⟩ =
      ⟨map :: todo, k, Function.update out map (out map + sumPerCPUArray m k map)⟩ := by
    intro k
    induction k with
    | zero => simp [sumPerCPUArray, sumPerCPU]
    | succ k ih =>
      intro hk
      have hsum : sumPerCPUArray m (k + 1) map = sumPerCPUArray m k map + m.debug map k := by
        rw [sumPerCPUArray, List.range_succ, List.map_append, List.map_singleton,
          sumPerCPU_concat]
        rfl
      rw [Function.iterate_succ_apply', ih (Nat.le_of_succ_le hk), step_of_lt m map todo hk,
        Function.update_self, Function.update_idem, hsum, BitVec.add_assoc]
  rw [Function.iterate_succ_apply', hcopies cpus (Nat.le_refl _), step_last]

variable (cpus) in
theorem iterate_lookups (m : Maps T) {todo : List DebugMap} (hnodup : todo.Nodup)
    (out : DebugMap → U64) :
    (step cpus m)^[(cpus + 1) * todo.length] ⟨todo, 0, out⟩ =
      ⟨[], 0, fun map => out map + if map ∈ todo then sumPerCPUArray m cpus map else 0#64⟩ := by
  induction todo generalizing out with
  | nil => simp
  | cons map todo ih =>
    obtain ⟨hnot, hrest⟩ := List.nodup_cons.mp hnodup
    rw [List.length_cons, Nat.mul_succ, Function.iterate_add_apply, iterate_lookup, ih hrest]
    congr 1
    funext map'
    by_cases hmap : map' = map
    · subst hmap
      simp [hnot]
    · simp [hmap]

/-- Alone, the reading is the one of a single moment. -/
theorem iterate_start (m : Maps T) :
    ((step cpus m)^[9 * (cpus + 1)] start).todo = [] ∧
      ((step cpus m)^[9 * (cpus + 1)] start).counters = readDebugCounters m cpus := by
  have hnodup : lookupOrder.Nodup := by decide
  have hall := iterate_lookups cpus m hnodup fun _ => 0#64
  have hlength : lookupOrder.length = 9 := rfl
  rw [hlength, Nat.mul_comm] at hall
  rw [start, hall]
  exact ⟨rfl, by simp [counters, readDebugCounters, lookupOrder]⟩

end Reading

/-! Packets and a reading, in any order. -/

structure State (T : Type) (ι : Type*) where
  packets : Threads ι (Maps T) Pc
  reading : Reading

def start {T : Type} (ι : Type*) (m : Maps T) : State T ι := ⟨⟨m, fun _ => .entry⟩, .start⟩

variable {T : Type} [LpmTrie T] {ι : Type*} [DecidableEq ι]

variable (e : Endian) (cpus : ℕ) (invs : ι → Invocation)

/-- A step of a packet, or of the reading. -/
def step (s : State T ι) : Option ι → State T ι
  | some i => { s with packets := threadStep (fun i => access e (invs i)) s.packets i }
  | none => { s with reading := s.reading.step cpus s.packets.mem }

variable {e cpus invs} {s : State T ι}

/-- A packet that has the CPUs to itself does what `path_egress` does. -/
theorem packet_alone {i : ι} (hentry : s.packets.pc i = .entry) :
    (run (step e cpus invs) s (List.replicate 4 (some i))).packets.mem =
        (pathEgress e s.packets.mem (invs i)).1 ∧
      (run (step e cpus invs) s (List.replicate 4 (some i))).packets.pc i =
        .returned (pathEgress e s.packets.mem (invs i)).2 := by
  have hpackets : (run (step e cpus invs) s (List.replicate 4 (some i))).packets =
      run (threadStep fun i => access e (invs i)) s.packets (List.replicate 4 i) := rfl
  rw [hpackets, (run_replicate _ s.packets i 4).1, (run_replicate _ s.packets i 4).2, hentry,
    iterate_access]
  exact ⟨rfl, rfl⟩

theorem run_reading (n : ℕ) : run (step e cpus invs) s (List.replicate n none) =
    { s with reading := (Reading.step cpus s.packets.mem)^[n] s.reading } := by
  induction n generalizing s with
  | zero => rfl
  | succ n ih =>
    rw [List.replicate_succ]
    exact ih (s := step e cpus invs s none)

/-- A reading that has the maps to itself does what `ReadDebugCounters` does. -/
theorem reading_alone (hstart : s.reading = .start) :
    let r := (run (step e cpus invs) s (List.replicate (9 * (cpus + 1)) none)).reading
    r.todo = [] ∧ r.counters = readDebugCounters s.packets.mem cpus := by
  intro r
  have hr : r = (Reading.step cpus s.packets.mem)^[9 * (cpus + 1)] .start := by
    rw [← hstart]
    exact congrArg State.reading (run_reading _)
  rw [hr]
  exact Reading.iterate_start s.packets.mem

/-- A packet that is through stays so. -/
theorem finished_step {i : ι} (h : finished (s.packets.pc i) = true) (a : Option ι) :
    (step e cpus invs s a).packets.pc i = s.packets.pc i := by
  cases a with
  | none => rfl
  | some j =>
    simp only [step]
    by_cases hi : i = j
    · subst hi
      rw [pc_threadStep_self]
      cases hpc : s.packets.pc i with
      | returned outcome => rfl
      | _ => simp [hpc, finished] at h
    · exact pc_threadStep_of_ne _ _ hi

theorem finished_run {i : ι} (h : finished (s.packets.pc i) = true) (sched : List (Option ι)) :
    (run (step e cpus invs) s sched).packets.pc i = s.packets.pc i := by
  refine invariant_run (I := fun s' : State T ι => s'.packets.pc i = s.packets.pc i) rfl ?_ sched
  intro s' a heq
  rw [finished_step (by rwa [heq]) a, heq]

/-- The reading begins with its first step. -/
theorem reading_of_notMem {sched : List (Option ι)} (hnot : none ∉ sched) :
    (run (step e cpus invs) s sched).reading = s.reading := by
  refine invariant_of_meets (c := fun _ a => a ≠ none)
    (I := fun s' : State T ι => s'.reading = s.reading) rfl ?_ ?_
  · intro s' a heq ha
    cases a with
    | none => exact absurd rfl ha
    | some i => exact heq
  · intro pre a post hsplit ha
    rw [hsplit, ha] at hnot
    simp at hnot

/-- A reading that takes its steps returns, whatever the packets do. -/
theorem reading_returns (hfits : s.reading.Fits cpus) {sched : List (Option ι)}
    (hcount : s.reading.left cpus ≤ sched.countP (· = none)) :
    (run (step e cpus invs) s sched).reading.todo = [] := by
  refine reached_of_count (c := fun _ _ => True) (p := (· = none))
    (I := fun s : State T ι => s.reading.Fits cpus)
    (G := fun s : State T ι => s.reading.todo = []) (fun s : State T ι => s.reading.left cpus)
    ?_ ?_ ?_ ?_ ?_ hfits (fun _ _ _ _ => trivial) hcount
  · intro s a hfits _
    cases a with
    | none => exact hfits.step s.packets.mem
    | some i => exact hfits
  · intro s a _ _ hdone
    cases a with
    | none => simp only [step, Reading.step, hdone]
    | some i => exact hdone
  · intro s a hfits _ hnot
    cases a with
    | none => exact Nat.le_of_lt (hfits.left_step s.packets.mem hnot)
    | some i => exact Nat.le_refl _
  · intro s a hfits _ ha hnot
    subst ha
    exact hfits.left_step s.packets.mem hnot
  · intro s hfits hzero
    have hcpu := hfits.cpu_le
    unfold Reading.left at hzero
    cases htodo : s.reading.todo with
    | nil => rfl
    | cons map todo =>
      rw [htodo, List.length_cons, Nat.succ_mul] at hzero
      omega

end PacketLoss.ReadingSteps
