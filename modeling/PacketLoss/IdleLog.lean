import PacketLoss.PublishLoop
import PacketLoss.Stretches
import PacketLoss.TornReadings

/-!
The rest of `publish`: the line about missing TCP segments. A tick is idle if its
reading of the debug counters succeeds, no zone had a segment and the count of TCP
segments is that of the last reading. The drop reasons are logged at the first idle
tick and every 60 while it lasts.
-/
namespace PacketLoss.IdleLog

open PathEgress hiding run
open Machine EmaStore KernelTrie Segments DropReasons TornReadings TickSummary PublishLoop Stretches

variable {K : Type} [Field K] [LinearOrder K] (exp : K → K)

/-- `zeroPolls` is an `int` of 64 bits. -/
structure LoggingPublisher (K : Type) where
  publisher : Publisher K
  zeroPolls : U64

/-- `userSegs` of the counters that `publish` has put together. -/
def userSegs (tc : TickCounters K) : U64 :=
  tc.zones.foldl (fun total z => total + z.segments) 0#64

variable (range : (s : EMAStore K) → s.zones.Range)

/-- `publish` with its line about missing segments, which shows the counters read. -/
def publishLogged (p : LoggingPublisher K) (o : Observation) :
    LoggingPublisher K × TickCounters K × Option DebugCounters :=
  let next := publish exp range p.publisher o
  match o.debug with
  | none => (⟨next.1, p.zeroPolls⟩, next.2, none)
  | some dbg =>
    if userSegs next.2 = 0#64 ∧ next.2.tcp = 0#64 then
      let zeroPolls := p.zeroPolls + 1#64
      (⟨next.1, zeroPolls⟩, next.2,
        if zeroPolls = 1#64 ∨ zeroPolls.srem 60#64 = 0#64 then some dbg else none)
    else (⟨next.1, 0#64⟩, next.2, none)

variable (init : Publisher K) (observations : ℕ → Observation)

/-- The loop after `t` calls; `zeroPolls` starts at 0. -/
def loggingAfter : ℕ → LoggingPublisher K
  | 0 => ⟨init, 0#64⟩
  | t + 1 => (publishLogged exp range (loggingAfter t) (observations (t + 1))).1

/-- What tick `t` logs about missing segments. -/
def lineAt : ℕ → Option DebugCounters
  | 0 => none
  | t + 1 => (publishLogged exp range (loggingAfter exp range init observations t)
      (observations (t + 1))).2.2

/-- What tick `t` found out about missing segments, if it could read the counters. -/
def findingAt (t : ℕ) : Option Bool :=
  (observations t).debug.map fun _ =>
    userSegs (published exp range init observations t) = 0#64 ∧
      (published exp range init observations t).tcp = 0#64

/-- What the ticks after `s` found out, `t` of them. -/
def findings (s t : ℕ) : List (Option Bool) :=
  (List.range t).map fun i => findingAt exp range init observations (s + i + 1)

theorem findings_succ (s t : ℕ) : findings exp range init observations s (t + 1) =
    findings exp range init observations s t ++
      [findingAt exp range init observations (s + t + 1)] := by
  rw [findings, List.range_succ, List.map_append]
  rfl

theorem publisher_loggingAfter (t : ℕ) :
    (loggingAfter exp range init observations t).publisher =
      publisherAfter exp range init observations t := by
  induction t with
  | zero => rfl
  | succ t ih =>
    rw [loggingAfter, publisherAfter, ← ih, publishLogged]
    cases (observations (t + 1)).debug with
    | none => rfl
    | some dbg =>
      dsimp only
      split <;> rfl

theorem srem_sixty {n : ℕ} (hn : n < 2 ^ 63) :
    (BitVec.ofNat 64 n).srem 60#64 = BitVec.ofNat 64 (n % 60) := by
  have hto : (BitVec.ofNat 64 n).toNat = n := by
    rw [BitVec.toNat_ofNat, Nat.mod_eq_of_lt (by omega)]
  have hmsb : (BitVec.ofNat 64 n).msb = false := by
    rw [BitVec.msb_eq_false_iff_two_mul_lt, hto]
    omega
  have hsixty : (60#64).msb = false := by decide
  have hrem : (BitVec.ofNat 64 n).srem 60#64 = BitVec.ofNat 64 n % 60#64 := by
    rw [BitVec.srem_eq, hmsb, hsixty]
  apply BitVec.eq_of_toNat_eq
  rw [hrem, BitVec.toNat_umod, hto, BitVec.toNat_ofNat, BitVec.toNat_ofNat,
    Nat.mod_eq_of_lt (by decide : 60 < 2 ^ 64),
    Nat.mod_eq_of_lt (by omega : n % 60 < 2 ^ 64)]

/-- The tests on the `int` are those on the number, before it overflows. -/
theorem int_tests {n : ℕ} (hn : n < 2 ^ 63) :
    (BitVec.ofNat 64 n = 1#64 ∨ (BitVec.ofNat 64 n).srem 60#64 = 0#64) ↔ n = 1 ∨ n % 60 = 0 := by
  have hsmall : ∀ {a b : ℕ}, a < 2 ^ 63 → b < 2 ^ 63 →
      (BitVec.ofNat 64 a = BitVec.ofNat 64 b ↔ a = b) := by
    intro a b ha hb
    rw [← BitVec.toNat_inj, BitVec.toNat_ofNat, BitVec.toNat_ofNat, Nat.mod_eq_of_lt (by omega),
      Nat.mod_eq_of_lt (by omega)]
  rw [srem_sixty hn, hsmall hn (by omega), hsmall (by omega) (by omega)]

/-- One tick counts and logs as a look at a condition does that is reported every 60. -/
theorem logging_succ {t n : ℕ}
    (hn : (loggingAfter exp range init observations t).zeroPolls = BitVec.ofNat 64 n) :
    let found := findingAt exp range init observations (t + 1)
    (loggingAfter exp range init observations (t + 1)).zeroPolls =
        BitVec.ofNat 64 (look 60 n found).1 ∧
      ((look 60 n found).1 < 2 ^ 63 → lineAt exp range init observations (t + 1) =
        if (look 60 n found).2 then (observations (t + 1)).debug else none) := by
  have hpublished : published exp range init observations (t + 1) =
      (publish exp range (loggingAfter exp range init observations t).publisher
        (observations (t + 1))).2 := by
    rw [publisher_loggingAfter]
    rfl
  simp only [loggingAfter, lineAt, publishLogged, findingAt, hpublished]
  generalize publish exp range (loggingAfter exp range init observations t).publisher
    (observations (t + 1)) = next
  cases (observations (t + 1)).debug with
  | none => exact ⟨hn, fun _ => rfl⟩
  | some dbg =>
    by_cases hidle : userSegs next.2 = 0#64 ∧ next.2.tcp = 0#64
    · simp only [Option.map_some, if_pos hidle, decide_eq_true hidle, look, hn,
        ← BitVec.ofNat_add]
      refine ⟨trivial, fun hsmall => ?_⟩
      rw [if_congr (int_tests hsmall) rfl rfl]
      simp
    · simp only [Option.map_some, if_neg hidle, decide_eq_false hidle, look]
      exact ⟨trivial, fun _ => rfl⟩

/-- How many of the ticks after `s` log a line, of the next `t`. -/
def linesBetween (s t : ℕ) : ℕ :=
  ((List.range t).map fun i => lineAt exp range init observations (s + i + 1)).countP Option.isSome

theorem zeroPolls_eq (t : ℕ) : (loggingAfter exp range init observations t).zeroPolls =
    BitVec.ofNat 64 (stretch (findings exp range init observations 0 t)) := by
  rw [← after_eq_stretch 60]
  induction t with
  | zero => rfl
  | succ t ih =>
    rw [findings_succ, after_concat, Nat.zero_add]
    exact (logging_succ exp range init observations ih).1

theorem linesBetween_eq (s t : ℕ) {n : ℕ}
    (hn : (loggingAfter exp range init observations s).zeroPolls = BitVec.ofNat 64 n)
    (hfew : n + (findings exp range init observations s t).count (some true) < 2 ^ 63) :
    linesBetween exp range init observations s t =
      reports 60 n (findings exp range init observations s t) := by
  induction t generalizing s n with
  | zero => rfl
  | succ t ih =>
    obtain ⟨hcount, hline⟩ := logging_succ exp range init observations hn
    have hshift : ∀ {α : Type} (f : ℕ → α), (List.range (t + 1)).map (fun i => f (s + i + 1)) =
        f (s + 1) :: (List.range t).map fun i => f (s + 1 + i + 1) := by
      intro α f
      rw [List.range_succ_eq_map, List.map_cons, List.map_map]
      congr 1
      apply List.map_congr_left
      intro i _
      exact congrArg f (by simp only [Nat.succ_eq_add_one]; omega)
    have hcons : findings exp range init observations s (t + 1) =
        findingAt exp range init observations (s + 1) ::
          findings exp range init observations (s + 1) t := hshift _
    have hle := look_add_count_le 60 n
      (findingAt exp range init observations (s + 1))
      (findings exp range init observations (s + 1) t)
    rw [hcons] at hfew ⊢
    rw [linesBetween, hshift, List.countP_cons, reports, ← ih (s + 1) hcount (by omega),
      linesBetween, hline (by omega), Nat.add_comm]
    congr 1
    cases hdebug : (observations (s + 1)).debug with
    | none => simp [findingAt, hdebug, look]
    | some dbg => cases (look 60 _ (findingAt exp range init observations (s + 1))).2 <;> rfl

/-- When a line is logged, and how many there are, as long as the idle ticks of a stretch do
not overflow their count. A reading that fails neither begins nor ends a stretch. -/
structure LoggedRarely : Prop where
  lines : ∀ t dbg, stretch (findings exp range init observations 0 (t + 1)) < 2 ^ 63 →
    (lineAt exp range init observations (t + 1) = some dbg ↔
      (observations (t + 1)).debug = some dbg ∧
        findingAt exp range init observations (t + 1) = some true ∧
          let n := stretch (findings exp range init observations 0 (t + 1))
          n = 1 ∨ n % 60 = 0)
  count : ∀ s t, some false ∉ findings exp range init observations s t →
    let n := stretch (findings exp range init observations 0 s)
    let more := (findings exp range init observations s t).count (some true)
    n + more < 2 ^ 63 →
      due 60 n + linesBetween exp range init observations s t = due 60 (n + more)

theorem idle_ticks_logged_rarely : LoggedRarely exp range init observations := by
  constructor
  · intro t dbg hfew
    have hn := zeroPolls_eq exp range init observations t
    obtain ⟨-, hline⟩ := logging_succ exp range init observations hn
    have hstretch : stretch (findings exp range init observations 0 (t + 1)) =
        (look 60 (stretch (findings exp range init observations 0 t))
          (findingAt exp range init observations (t + 1))).1 := by
      rw [findings_succ, ← after_eq_stretch 60, after_concat, after_eq_stretch, Nat.zero_add]
    rw [hstretch] at hfew
    rw [hline hfew, hstretch]
    cases hfound : findingAt exp range init observations (t + 1) with
    | none => simp [look]
    | some found => cases found <;> simp [look, and_comm]
  · intro s t hlasts n more hfew
    rw [linesBetween_eq exp range init observations s t
      (zeroPolls_eq exp range init observations s) hfew]
    exact reports_of_lasting (by omega) _ hlasts

/-! The readings are of one run of `path_egress`. -/

section Kernel

variable {T : Type} [LpmTrie T] (e : Endian) (m : Maps T) (cpus : ℕ)
  (pasts : ℕ → List Invocation) (arrivals : ℕ → DebugMap → ℕ → List Invocation)

/-- The packets up to the end of the reading of tick `t`. -/
def through (t : ℕ) : List Invocation := pasts t ++ arrivedDuring cpus (arrivals t) lookupOrder

/-- Tick `t` reads the counters after the packets `pasts t`, while others arrive. -/
structure Observes : Prop where
  readings : ∀ t dbg, (observations t).debug = some dbg →
    dbg = (readDebugCountersDuring e (PathEgress.run e m (pasts t)) cpus (arrivals t)).2
  later : ∀ t, through cpus pasts arrivals t <+: pasts (t + 1)
  cpu : ∀ t, ∀ inv ∈ pasts t, inv.cpu < cpus
  few : ∀ t, (pasts t).length < 2 ^ 64

/-- The last tick up to `t` whose reading succeeded, 0 if there is none. -/
def lastReading : ℕ → ℕ
  | 0 => 0
  | t + 1 => if (observations (t + 1)).debug.isSome then t + 1 else lastReading t

/-- What had arrived when the last reading began. -/
def readFrom (t : ℕ) : List Invocation :=
  if lastReading observations t = 0 then [] else pasts (lastReading observations t)

/-- What had arrived when it ended. -/
def readThrough (t : ℕ) : List Invocation :=
  if lastReading observations t = 0 then []
  else through cpus pasts arrivals (lastReading observations t)

variable {observations e m cpus pasts arrivals}

theorem lastReading_le (t : ℕ) : lastReading observations t ≤ t := by
  induction t with
  | zero => exact Nat.le_refl _
  | succ t ih =>
    rw [lastReading]
    split_ifs <;> omega

theorem Observes.prefix_of_lt (h : Observes observations e m cpus pasts arrivals) {s t : ℕ}
    (hst : s < t) : through cpus pasts arrivals s <+: pasts t := by
  induction t with
  | zero => omega
  | succ t ih =>
    rcases Nat.lt_succ_iff_lt_or_eq.mp hst with hlt | rfl
    · exact (ih hlt).trans ((List.prefix_append _ _).trans (h.later t))
    · exact h.later s

theorem Observes.between (h : Observes observations e m cpus pasts arrivals)
    (hzero : ∀ map cpu, m.debug map cpu = 0#64) {t : ℕ} {dbg : DebugCounters}
    (hdebug : (observations t).debug = some dbg) :
    increments e m (pasts t) .tcpPayload ≤ dbg.tcpPackets.toNat ∧
      dbg.tcpPackets.toNat ≤ increments e m (through cpus pasts arrivals t) .tcpPayload := by
  rw [h.readings t dbg hdebug]
  apply tcpPackets_between e hzero
  · exact fun inv hinv => h.cpu (t + 1) inv ((h.later t).subset hinv)
  · exact lt_of_le_of_lt (h.later t).length_le (h.few (t + 1))

/-- The count that the next reading is compared with is that of the last. -/
theorem prevTCP_between (h : Observes observations e m cpus pasts arrivals)
    (hzero : ∀ map cpu, m.debug map cpu = 0#64) (hinit : init.prevTCP = 0#64) (t : ℕ) :
    let prev := (publisherAfter exp range init observations t).prevTCP
    increments e m (readFrom observations pasts t) .tcpPayload ≤ prev.toNat ∧
      prev.toNat ≤ increments e m (readThrough observations cpus pasts arrivals t) .tcpPayload := by
  induction t with
  | zero => simp [publisherAfter, hinit, readFrom, lastReading, increments, trace]
  | succ t ih =>
    rw [publisherAfter, publish]
    cases hdebug : (observations (t + 1)).debug with
    | none =>
      have hlast : lastReading observations (t + 1) = lastReading observations t := by
        simp [lastReading, hdebug]
      rw [readFrom, readThrough, hlast]
      exact ih
    | some dbg =>
      have hlast : lastReading observations (t + 1) = t + 1 := by simp [lastReading, hdebug]
      rw [readFrom, readThrough, hlast, if_neg (Nat.succ_ne_zero t), if_neg (Nat.succ_ne_zero t)]
      exact h.between hzero hdebug

theorem tcp_published {t : ℕ} {dbg : DebugCounters}
    (hdebug : (observations (t + 1)).debug = some dbg) :
    (published exp range init observations (t + 1)).tcp =
      dbg.tcpPackets - (publisherAfter exp range init observations t).prevTCP := by
  rw [published, publish, hdebug]

theorem Observes.readThrough_prefix (h : Observes observations e m cpus pasts arrivals) (t : ℕ) :
    readThrough observations cpus pasts arrivals t <+: pasts (t + 1) := by
  unfold readThrough
  split_ifs
  · exact List.nil_prefix
  · exact h.prefix_of_lt (Nat.lt_succ_of_le (lastReading_le t))

theorem prefix_readFrom (t : ℕ) :
    readFrom observations pasts t <+: readThrough observations cpus pasts arrivals t := by
  unfold readFrom readThrough
  split_ifs
  · exact List.prefix_refl _
  · exact List.prefix_append _ _

theorem increments_le_of_prefix (m : Maps T) {left right : List Invocation} (h : left <+: right)
    (map : DebugMap) : increments e m left map ≤ increments e m right map := by
  obtain ⟨more, rfl⟩ := h
  rw [increments_append]
  exact Nat.le_add_right _ _

/-- What is found out about TCP segments is true of the kernel's run: an idle tick had
none between the last reading and its own, and a tick that had none from the beginning
of the last reading to the end of its own finds none. -/
theorem idle_ticks_truthful (h : Observes observations e m cpus pasts arrivals)
    (hzero : ∀ map cpu, m.debug map cpu = 0#64) (hinit : init.prevTCP = 0#64) (t : ℕ) :
    (findingAt exp range init observations (t + 1) = some true →
      ∃ gap, pasts (t + 1) = readThrough observations cpus pasts arrivals t ++ gap ∧
        increments e (PathEgress.run e m (readThrough observations cpus pasts arrivals t)) gap
          .tcpPayload = 0) ∧
    ((observations (t + 1)).debug.isSome →
      userSegs (published exp range init observations (t + 1)) = 0#64 →
      (∀ gap, through cpus pasts arrivals (t + 1) = readFrom observations pasts t ++ gap →
        increments e (PathEgress.run e m (readFrom observations pasts t)) gap .tcpPayload = 0) →
      findingAt exp range init observations (t + 1) = some true) := by
  obtain ⟨hlower, hupper⟩ := prevTCP_between exp range init h hzero hinit t
  constructor
  · intro hfound
    obtain ⟨dbg, hdebug, hidle⟩ := Option.map_eq_some_iff.mp hfound
    obtain ⟨-, htcp⟩ := of_decide_eq_true hidle
    rw [tcp_published exp range init hdebug] at htcp
    have hsame : dbg.tcpPackets = (publisherAfter exp range init observations t).prevTCP := by
      have hadd := congrArg (· + (publisherAfter exp range init observations t).prevTCP) htcp
      simpa using hadd
    obtain ⟨gap, hgap⟩ := h.readThrough_prefix t
    refine ⟨gap, hgap.symm, ?_⟩
    have hread := (h.between hzero hdebug).1
    rw [← hgap, increments_append, hsame] at hread
    omega
  · intro hsome hsegs hnone
    obtain ⟨dbg, hdebug⟩ := Option.isSome_iff_exists.mp hsome
    have hread := h.between hzero hdebug
    have hnow : pasts (t + 1) <+: through cpus pasts arrivals (t + 1) := List.prefix_append _ _
    obtain ⟨gap, hgap⟩ := ((prefix_readFrom t).trans (h.readThrough_prefix t)).trans hnow
    have hall : increments e m (through cpus pasts arrivals (t + 1)) .tcpPayload =
        increments e m (readFrom observations pasts t) .tcpPayload := by
      rw [← hgap, increments_append, hnone gap hgap.symm, Nat.add_zero]
    -- No count can change between the beginning of the last reading and the end of this one.
    have hinner : readFrom observations pasts t <+:
        readThrough observations cpus pasts arrivals t := prefix_readFrom t
    have hfrom := increments_le_of_prefix (e := e) m hinner .tcpPayload
    have hthrough := increments_le_of_prefix (e := e) m (h.readThrough_prefix t) .tcpPayload
    have hrest := increments_le_of_prefix (e := e) m hnow .tcpPayload
    have hsame : dbg.tcpPackets = (publisherAfter exp range init observations t).prevTCP :=
      BitVec.eq_of_toNat_eq (by omega)
    have htcp := tcp_published exp range init hdebug
    rw [hsame, BitVec.sub_self] at htcp
    rw [findingAt, hdebug, Option.map_some, Option.some.injEq]
    exact decide_eq_true ⟨hsegs, htcp⟩

end Kernel

/-- A packet before the first tick, and none after it. -/
def onePast : ℕ → List Invocation
  | 0 => []
  | _ + 1 => [sampleSegment 1000#32 0x18#8 [1#8, 2#8] 2000000000#64]

/-- The reading of the second tick fails. -/
def thirdIdle (t : ℕ) : Observation where
  poll := ⟨ZoneConfig.second * t, .empty⟩
  unknown := 0#64
  debug := if t = 2 then none else
    some (readDebugCountersDuring .little
      (PathEgress.run .little (Maps.loaded zoneTrie srcZoneTrie) (onePast t)) 1 (fun _ _ => [])).2

theorem thirdIdle_observes :
    Observes thirdIdle .little (Maps.loaded zoneTrie srcZoneTrie) 1 onePast fun _ _ _ => [] := by
  have hnone : ∀ t, through 1 onePast (fun _ _ _ => []) t = onePast t := by
    intro t
    rw [through, show arrivedDuring 1 (fun _ _ => []) lookupOrder = [] from rfl, List.append_nil]
  constructor
  · intro t dbg hdebug
    by_cases ht : t = 2
    · simp [thirdIdle, ht] at hdebug
    · simpa [thirdIdle, ht] using hdebug.symm
  · intro t
    rw [hnone]
    cases t with
    | zero => exact List.nil_prefix
    | succ t => exact List.prefix_refl _
  · intro t
    cases t with
    | zero => simp [onePast]
    | succ t => simp [onePast, sampleSegment]
  · intro t
    cases t <;> simp [onePast]

/-- The third tick is idle: the packet was read by the first. -/
theorem thirdIdle_truthful :
    let init : Publisher ℚ :=
      ⟨0#64, 0#64, 0#64, newEMAStore (ZoneClassification.sampleConfig .empty) []⟩
    findingAt (fun x => 1 / (1 - x)) (fun s => s.zones.listed) init thirdIdle 3 = some true ∧
      ∃ gap, onePast 3 = readThrough thirdIdle 1 onePast (fun _ _ _ => []) 2 ++ gap ∧
        increments .little (PathEgress.run .little (Maps.loaded zoneTrie srcZoneTrie)
          (readThrough thirdIdle 1 onePast (fun _ _ _ => []) 2)) gap .tcpPayload = 0 := by
  have hfound : findingAt (fun x => 1 / (1 - x)) (fun s => s.zones.listed)
      (⟨0#64, 0#64, 0#64, newEMAStore (ZoneClassification.sampleConfig .empty) []⟩ : Publisher ℚ)
        thirdIdle 3 = some true := by decide +kernel
  exact ⟨hfound, (idle_ticks_truthful _ _ _ thirdIdle_observes (fun _ _ => rfl) rfl 2).1 hfound⟩

end PacketLoss.IdleLog
