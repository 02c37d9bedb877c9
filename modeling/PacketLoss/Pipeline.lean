import PacketLoss.DropReasons
import PacketLoss.ExactlyOnce

/-!
The whole path of an event: `path_egress` submits it to the ring buffer, the reader
takes it out and counts it, and the publisher swaps the counts out. Packets, steps
of the reader and steps of the publisher come in any order. The ring buffer hands
out the oldest event that was not taken yet, or an error; while it is empty the
reader waits.
-/
namespace PacketLoss.Pipeline

open Machine ZoneConfig KernelTrie PathEgress DropReasons Counters EmaStore Schedules Polling
  ExactlyOnce

/-- `taken` is how many of the submitted events the reader has taken out. -/
structure State (T : Type) (n : ℕ) where
  maps : Maps T
  taken : ℕ
  exporter : System n

/-- How a read of the ring buffer ends: with a record, whose padding is anything, or
with an error. -/
inductive Answer
  | record (pad : U8 × U8)
  | failed (err : ReadError) (ctxDone : Bool) (left : List U8)

inductive Action
  | packet (inv : Invocation)
  | reader (answer : Answer)
  | publisher

variable {T : Type} [LpmTrie T] (c : Setup)

/-- The exporter as if each of its reads ended with the given outcome. -/
abbrev withOutcomes (outcomes : ℕ → ReadOutcome) : Setup := { c with outcomes := outcomes }

def exporterStep (outcomes : ℕ → ReadOutcome) (s : System c.zones.length) (a : Party) :
    System c.zones.length := Polling.step (withOutcomes c outcomes) s a

/-- The reader is at one of its two reads. -/
def Reading {n : ℕ} (pc : ReaderPc n) : Prop := pc = .blockingRead ∨ pc = .drainRead

instance {n : ℕ} (pc : ReaderPc n) : Decidable (Reading pc) :=
  inferInstanceAs (Decidable (_ ∨ _))

/-- What a read gives; there is no record while the ring buffer is empty. -/
def readOutcome (events : List StatsEvent) (taken : ℕ) : Answer → Option ReadOutcome
  | .record pad => events[taken]?.map fun evt => .sample (statsEventBytes c.endian evt pad)
  | .failed err ctxDone left => some (.failed err ctxDone left)

def takes : ReadOutcome → ℕ
  | .sample _ => 1
  | .failed .. => 0

def readerStep (p : State T c.zones.length) (answer : Answer) : State T c.zones.length :=
  if Reading p.exporter.reader then
    match readOutcome c p.maps.statsRb p.taken answer with
    | none => p
    | some outcome =>
      { p with
        taken := p.taken + takes outcome
        exporter := answeredStep (exporterStep c) p.exporter (.reader, outcome) }
  else { p with exporter := exporterStep c c.outcomes p.exporter .reader }

def step (p : State T c.zones.length) : Action → State T c.zones.length
  | .packet inv => { p with maps := (pathEgress c.endian p.maps inv).1 }
  | .reader answer => readerStep c p answer
  | .publisher => { p with exporter := exporterStep c c.outcomes p.exporter .publisher }

/-- The exporter starts on maps that nothing was counted in. -/
def start (m : Maps T) : State T c.zones.length := ⟨m, 0, Polling.start c⟩

def packets (sched : List Action) : List Invocation :=
  sched.filterMap fun
    | .packet inv => some inv
    | _ => none

/-! The exporter alone goes through the steps of `Polling`. -/

theorem readInto_congr {c : Setup} {outcomes outcomes' : ℕ → ReadOutcome}
    (s : System c.zones.length) (h : outcomes s.reads = outcomes' s.reads)
    (onError : ReadError → Bool → ReaderPc c.zones.length) :
    readInto (withOutcomes c outcomes) s onError =
      readInto (withOutcomes c outcomes') s onError := by
  simp only [readInto, h]

theorem afterParse_congr {c : Setup} (outcomes outcomes' : ℕ → ReadOutcome) (raw : List U8) :
    afterParse (withOutcomes c outcomes) raw = afterParse (withOutcomes c outcomes') raw := by
  unfold afterParse
  dsimp only [withOutcomes]
  cases classify c.endian c.zoneByID raw <;> rfl

theorem publisherStep_congr {c : Setup} (outcomes outcomes' : ℕ → ReadOutcome)
    (s : System c.zones.length) :
    publisherStep (withOutcomes c outcomes) s = publisherStep (withOutcomes c outcomes') s := by
  unfold publisherStep
  cases s.publisher <;> rfl

theorem reads_readInto (s : System c.zones.length)
    (onError : ReadError → Bool → ReaderPc c.zones.length) :
    (readInto c s onError).reads = s.reads + 1 := by
  unfold readInto
  split <;> rfl

/-- The reader looks at the outcome of its next read, and only when it reads. -/
theorem asks_exporterStep : Asks (exporterStep c) (fun s => s.reads)
    fun s a => a = .reader ∧ Reading s.reader := by
  constructor
  · intro s a outcomes outcomes' h
    cases a with
    | publisher => exact publisherStep_congr outcomes outcomes' s
    | reader =>
      simp only [exporterStep, Polling.step, Polling.readerStep]
      cases hpc : s.reader with
      | blockingRead => exact readInto_congr s (h ⟨rfl, Or.inl hpc⟩) _
      | drainRead => exact readInto_congr s (h ⟨rfl, Or.inr hpc⟩) _
      | process => simp only [afterParse_congr outcomes outcomes']
      | _ => rfl
  · rintro s a outcomes ⟨rfl, hpc | hpc⟩
    · simp only [exporterStep, Polling.step, Polling.readerStep, hpc]
      exact reads_readInto (withOutcomes c outcomes) s _
    · simp only [exporterStep, Polling.step, Polling.readerStep, hpc]
      exact reads_readInto (withOutcomes c outcomes) s _
  · intro s a outcomes hnot
    cases a with
    | publisher =>
      simp only [exporterStep, Polling.step, Polling.publisherStep]
      cases s.publisher with
      | idle => exact (swapFrom_frame _ _ _).2.2.2.2.1
      | swapSegs i counters => rfl
      | swapRets i counters segs => exact (swapFrom_frame _ _ _).2.2.2.2.1
    | reader =>
      simp only [exporterStep, Polling.step, Polling.readerStep]
      cases hpc : s.reader with
      | blockingRead => exact absurd ⟨rfl, Or.inl hpc⟩ hnot
      | drainRead => exact absurd ⟨rfl, Or.inr hpc⟩ hnot
      | _ => rfl

theorem exists_log (m : Maps T) (sched : List Action) :
    ∃ log, (run (step c) (start c m) sched).exporter =
      run (answeredStep (exporterStep c)) (Polling.start c) log := by
  apply invariant_run (I := fun p : State T c.zones.length => ∃ log, p.exporter =
    run (answeredStep (exporterStep c)) (Polling.start c) log)
  · exact ⟨[], rfl⟩
  · intro p a hlog
    obtain ⟨log, hp⟩ := hlog
    have hquiet : ∀ a : Party, ¬(a = .reader ∧ Reading p.exporter.reader) →
        ∃ log, exporterStep c c.outcomes p.exporter a =
          run (answeredStep (exporterStep c)) (Polling.start c) log := by
      intro a hnot
      refine ⟨log ++ [(a, c.outcomes 0)], ?_⟩
      rw [run_concat, ← hp]
      exact (asks_exporterStep c).looks _ _ _ _ fun hasks => absurd hasks hnot
    cases a with
    | packet inv => exact ⟨log, hp⟩
    | publisher => exact hquiet .publisher fun h => nomatch h.1
    | reader answer =>
      simp only [step, readerStep]
      split_ifs with hreading
      · cases readOutcome c p.maps.statsRb p.taken answer with
        | none => exact ⟨log, hp⟩
        | some outcome =>
          refine ⟨log ++ [(.reader, outcome)], ?_⟩
          rw [run_concat, ← hp]
      · exact hquiet .reader fun h => hreading h.2

/-- In every state of the whole path, the exporter is as after a run of its own whose
reads end in some way that was fixed beforehand. -/
theorem exists_outcomes (m : Maps T) (sched : List Action) :
    ∃ outcomes parties, (run (step c) (start c m) sched).exporter =
      run (exporterStep c outcomes) (Polling.start c) parties := by
  obtain ⟨log, hlog⟩ := exists_log c m sched
  have : Inhabited ReadOutcome := ⟨.sample []⟩
  obtain ⟨outcomes, hrun⟩ := (asks_exporterStep c).exists_answers (Polling.start c) log
  exact ⟨outcomes, log.map Prod.fst, hlog.trans hrun⟩

/-- The packets alone decide about the maps. -/
theorem maps_run (m : Maps T) (sched : List Action) :
    (run (step c) (start c m) sched).maps = PathEgress.run c.endian m (packets sched) := by
  induction sched using List.reverseRecOn with
  | nil => rfl
  | append_singleton sched a ih =>
    rw [Schedules.run_concat, packets, List.filterMap_append, ← packets]
    cases a with
    | packet inv =>
      rw [show List.filterMap _ [Action.packet inv] = [inv] from rfl, FilterRuns.run_concat, ← ih]
      rfl
    | publisher =>
      rw [show List.filterMap _ [Action.publisher] = ([] : List Invocation) from rfl,
        List.append_nil, ← ih]
      rfl
    | reader answer =>
      rw [show List.filterMap _ [Action.reader answer] = ([] : List Invocation) from rfl,
        List.append_nil, ← ih]
      simp only [step, readerStep]
      split_ifs
      · cases readOutcome c (run (step c) (start c m) sched).maps.statsRb
          (run (step c) (start c m) sched).taken answer <;> rfl
      · rfl

/-! What the reader processes is what was submitted, in that order. -/

/-- The samples that the reader has processed, and the one it is about to. -/
def received (s : System c.zones.length) : List (List U8) := s.processed ++ unprocessed c s

theorem received_of_idle {s : System c.zones.length} (h : s.reader ≠ .process) :
    received c s = s.processed := by
  rw [received, unprocessed, if_neg h, List.append_nil]

theorem afterParse_ne (raw : List U8) :
    afterParse c raw ≠ .process ∧ afterParse c raw ≠ .blockingRead ∧
      afterParse c raw ≠ .drainRead := by
  unfold afterParse
  split <;> simp

theorem received_readInto {s : System c.zones.length} {outcome : ReadOutcome}
    (hpc : s.reader ≠ .process) {onError : ReadError → Bool → ReaderPc c.zones.length}
    (herror : ∀ err ctxDone, onError err ctxDone ≠ .process) :
    received c (readInto (withOutcomes c fun _ => outcome) s onError) =
      received c s ++ match outcome with
        | .sample raw => [raw]
        | .failed .. => [] := by
  rw [received_of_idle c hpc]
  cases outcome with
  | sample raw => rfl
  | failed err ctxDone left =>
    rw [List.append_nil]
    exact received_of_idle c (s := readInto (withOutcomes c fun _ => .failed err ctxDone left) s
      onError) (herror err ctxDone)

theorem received_read {s : System c.zones.length} (outcome : ReadOutcome)
    (hreading : Reading s.reader) :
    received c (answeredStep (exporterStep c) s (.reader, outcome)) =
      received c s ++ match outcome with
        | .sample raw => [raw]
        | .failed .. => [] := by
  have hpc : s.reader ≠ .process := by
    rcases hreading with h | h <;> simp [h]
  unfold answeredStep exporterStep Polling.step Polling.readerStep
  rcases hreading with h | h
  · simp only [h]
    apply received_readInto c hpc
    intro err ctxDone
    unfold afterBlockingError
    split <;> simp
  · simp only [h]
    apply received_readInto c hpc
    intro err ctxDone
    unfold afterDrainError
    repeat' split
    all_goals simp

/-- Between two reads the reader gets nothing and drops nothing. -/
theorem received_quiet {s : System c.zones.length} (hnot : ¬Reading s.reader) :
    received c (exporterStep c c.outcomes s .reader) = received c s := by
  unfold exporterStep Polling.step Polling.readerStep received
  cases hpc : s.reader with
  | blockingRead => exact absurd (Or.inl hpc) hnot
  | drainRead => exact absurd (Or.inr hpc) hnot
  | process =>
    have hnext := (afterParse_ne c s.rawSample).1
    simp [unprocessed, hpc, hnext]
  | addSeg idx isRetrans => cases isRetrans <;> simp [unprocessed, hpc]
  | _ => simp [unprocessed, hpc]

theorem publisher_frame (outcomes : ℕ → ReadOutcome) (s : System c.zones.length) :
    (exporterStep c outcomes s .publisher).reader = s.reader ∧
      (exporterStep c outcomes s .publisher).processed = s.processed ∧
        (exporterStep c outcomes s .publisher).rawSample = s.rawSample := by
  simp only [exporterStep, Polling.step, publisherStep]
  cases s.publisher with
  | idle =>
    obtain ⟨-, hreader, hprocessed, hraw, -⟩ := swapFrom_frame s 0 .empty
    exact ⟨hreader, hprocessed, hraw⟩
  | swapSegs i counters => exact ⟨rfl, rfl, rfl⟩
  | swapRets i counters segs =>
    obtain ⟨-, hreader, hprocessed, hraw, -⟩ :=
      swapFrom_frame (c := c) { s with acc := s.acc.clearRets i } (i + 1)
        (counters.set (s.acc.zoneNames i) ⟨segs, s.acc.rets i⟩)
    exact ⟨hreader, hprocessed, hraw⟩

theorem received_publisher (outcomes : ℕ → ReadOutcome) (s : System c.zones.length) :
    received c (exporterStep c outcomes s .publisher) = received c s := by
  obtain ⟨hreader, hprocessed, hraw⟩ := publisher_frame c outcomes s
  simp only [received, unprocessed, hreader, hprocessed, hraw]

/-- The reader was handed the events that it took, and could decode each. -/
structure Handed (p : State T c.zones.length) : Prop where
  decoded : (received c p.exporter).map (parseStatsEvent c.endian) =
    (p.maps.statsRb.take p.taken).map .ok
  taken_le : p.taken ≤ p.maps.statsRb.length

/-- The event that a packet submits, if it does. -/
def submitted (t : Invocation × Outcome) : Option StatsEvent :=
  match t.2 with
  | .left _ => none
  | .counted zoneId isRetrans =>
    if t.1.reserve then
      some ⟨t.1.skb.ifindex, zoneId, if isRetrans then 1#8 else 0#8⟩
    else none

theorem statsRb_pathEgress (e : Endian) (m : Maps T) (inv : Invocation) :
    (pathEgress e m inv).1.statsRb =
      m.statsRb ++ (submitted (inv, (pathEgress e m inv).2)).toList := by
  rcases pathEgress_cases e m inv with ⟨reason, m', -, heq, -, -, -, hstats⟩ |
    ⟨seg, zoneId, m', -, heq, -, -, -, hstats⟩
  · rw [heq]
    exact hstats.trans (List.append_nil _).symm
  · rw [heq]
    refine hstats.trans ?_
    cases hroom : inv.reserve <;> simp [submitted, hroom]

theorem statsRb_run (e : Endian) (m : Maps T) (invs : List Invocation) :
    (PathEgress.run e m invs).statsRb = m.statsRb ++ (trace e m invs).filterMap submitted := by
  induction invs generalizing m with
  | nil => exact (List.append_nil _).symm
  | cons inv invs ih =>
    refine (ih (pathEgress e m inv).1).trans ?_
    rw [statsRb_pathEgress, List.append_assoc, trace, List.filterMap_cons]
    cases submitted (inv, (pathEgress e m inv).2) <;> rfl

theorem handed_step {p : State T c.zones.length} (h : Handed c p) (a : Action) :
    Handed c (step c p a) := by
  obtain ⟨hdecoded, hle⟩ := h
  cases a with
  | packet inv =>
    constructor
    · simp only [step, statsRb_pathEgress]
      rw [List.take_append_of_le_length hle]
      exact hdecoded
    · simp only [step, statsRb_pathEgress, List.length_append]
      omega
  | publisher => exact ⟨by simpa only [step, received_publisher] using hdecoded, hle⟩
  | reader answer =>
    simp only [step, readerStep]
    split_ifs with hreading
    · cases answer with
      | failed err ctxDone left =>
        refine ⟨?_, hle⟩
        simp only [readOutcome, received_read c _ hreading, List.append_nil, takes, Nat.add_zero]
        exact hdecoded
      | record pad =>
        simp only [readOutcome]
        cases hevt : p.maps.statsRb[p.taken]? with
        | none => exact ⟨hdecoded, hle⟩
        | some evt =>
          obtain ⟨hlt, -⟩ := List.getElem?_eq_some_iff.mp hevt
          simp only [Option.map_some]
          constructor
          · rw [received_read c _ hreading, takes, List.map_append, hdecoded, List.take_add_one,
              hevt, List.map_append, List.map_singleton, parseStatsEvent_statsEventBytes]
            rfl
          · exact hlt
    · exact ⟨by simpa only [received_quiet c hreading] using hdecoded, hle⟩

theorem handed_run {m : Maps T} (hm : m.statsRb = []) (sched : List Action) :
    Handed c (run (step c) (start c m) sched) := by
  apply invariant_run (I := Handed c)
  · refine ⟨?_, Nat.zero_le _⟩
    show [] = List.map Except.ok (m.statsRb.take 0)
    rw [hm]
    rfl
  · exact fun p a h => handed_step c h a

end PacketLoss.Pipeline
