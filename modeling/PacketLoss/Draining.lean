import PacketLoss.EndToEnd

/-!
What the reader gets done. While no packets come and the ring buffer gives what it
has, the reader empties it, whatever the publisher does meanwhile; a snapshot after
that has published every event. Once the ring buffer is closed the reader stops.
-/
namespace PacketLoss.Draining

open PathEgress hiding run
open Polling hiding start step readerStep
open Machine ZoneConfig KernelTrie Counters EmaStore Schedules ExactlyOnce Pipeline EndToEnd

variable {T : Type} (c : Setup)

/-- The drain deadline is set for the reads that drain the ring buffer, and only then. -/
structure Deadlines {n : ℕ} (s : System n) : Prop where
  blocking : s.reader = .blockingRead → s.deadline = false
  draining : s.reader = .drainRead → s.deadline = true

theorem deadlines_of_ne {n : ℕ} {s : System n} (hblocking : s.reader ≠ .blockingRead)
    (hdrain : s.reader ≠ .drainRead) : Deadlines s :=
  ⟨fun heq => absurd heq hblocking, fun heq => absurd heq hdrain⟩

theorem afterBlockingError_ne (err : ReadError) (ctxDone : Bool) :
    afterBlockingError c err ctxDone ≠ .drainRead ∧
      afterBlockingError c err ctxDone ≠ .process := by
  unfold afterBlockingError
  split <;> simp

theorem afterDrainError_ne (err : ReadError) (ctxDone : Bool) :
    afterDrainError c err ctxDone ≠ .blockingRead ∧ afterDrainError c err ctxDone ≠ .drainRead ∧
      afterDrainError c err ctxDone ≠ .process := by
  unfold afterDrainError
  repeat' split
  all_goals simp

theorem deadlines_exporterStep (outcomes : ℕ → ReadOutcome) {s : System c.zones.length}
    (h : Deadlines s) (a : Party) : Deadlines (exporterStep c outcomes s a) := by
  cases a with
  | publisher =>
    have hdeadline : (exporterStep c outcomes s .publisher).deadline = s.deadline := by
      simp only [exporterStep, Polling.step, publisherStep]
      cases s.publisher with
      | idle => exact (swapFrom_frame _ _ _).2.2.2.2.2
      | swapSegs i counters => rfl
      | swapRets i counters segs => exact (swapFrom_frame _ _ _).2.2.2.2.2
    obtain ⟨hreader, -⟩ := publisher_frame c outcomes s
    constructor
    · rw [hreader, hdeadline]
      exact h.blocking
    · rw [hreader, hdeadline]
      exact h.draining
  | reader =>
    simp only [exporterStep, Polling.step, Polling.readerStep]
    cases hpc : s.reader with
    | blockingRead =>
      simp only [readInto]
      split
      · exact deadlines_of_ne (by simp) (by simp)
      · exact ⟨fun _ => h.blocking hpc, fun heq => absurd heq (afterBlockingError_ne _ _ _).1⟩
    | drainRead =>
      simp only [readInto]
      split
      · exact deadlines_of_ne (by simp) (by simp)
      · obtain ⟨hblocking, hdrain, -⟩ := afterDrainError_ne (withOutcomes c outcomes) _ _
        exact deadlines_of_ne hblocking hdrain
    | process =>
      obtain ⟨-, hblocking, hdrain⟩ := afterParse_ne (withOutcomes c outcomes) s.rawSample
      exact deadlines_of_ne hblocking hdrain
    | setDeadline => exact ⟨by simp, fun _ => rfl⟩
    | clearDeadline => exact ⟨fun _ => rfl, by simp⟩
    | addSeg idx isRetrans => cases isRetrans <;> exact deadlines_of_ne (by simp) (by simp)
    | addRet idx => exact deadlines_of_ne (by simp) (by simp)
    | addUnknown => exact deadlines_of_ne (by simp) (by simp)
    | stopped => exact h

/-! No packets come, and a read gives the oldest event if there is one. If there is none,
a read with the deadline set fails for it, and any other waits. -/

def Obliging (p : State T c.zones.length) : Action → Prop
  | .packet _ => False
  | .publisher => True
  | .reader answer => Reading p.exporter.reader →
    match answer with
    | .record _ => p.taken < p.maps.statsRb.length ∨ p.exporter.deadline = false
    | .failed err _ _ => p.maps.statsRb.length ≤ p.taken ∧ p.exporter.deadline = true ∧
        err = .deadlineExceeded

instance (p : State T c.zones.length) : (a : Action) → Decidable (Obliging c p a)
  | .packet _ => isFalse id
  | .publisher => isTrue trivial
  | .reader (.record _) => inferInstanceAs (Decidable (_ → _ ∨ _))
  | .reader (.failed _ _ _) => inferInstanceAs (Decidable (_ → _ ∧ _ ∧ _))

def isReader : Action → Bool
  | .reader _ => true
  | _ => false

/-- What the reader still has to do before it reads again. -/
def weight {n : ℕ} : ReaderPc n → ℕ
  | .process => 4
  | .addSeg _ _ => 3
  | .addRet _ => 2
  | .addUnknown => 2
  | .setDeadline => 1
  | .clearDeadline => 1
  | _ => 0

def remaining (p : State T c.zones.length) : ℕ :=
  5 * (p.maps.statsRb.length - p.taken) + weight p.exporter.reader

structure Running (p : State T c.zones.length) : Prop where
  handed : Handed c p
  deadlines : Deadlines p.exporter
  notStopped : p.exporter.reader ≠ .stopped

theorem length_received {p : State T c.zones.length} (h : Handed c p) :
    p.exporter.processed.length + (unprocessed c p.exporter).length = p.taken := by
  have hlen := congrArg List.length h.decoded
  have hle := h.taken_le
  rw [List.length_map, List.length_map, received, List.length_append, List.length_take] at hlen
  omega

/-- Every event was taken out, and the reader has done with the last. -/
def Drained (p : State T c.zones.length) : Prop :=
  p.maps.statsRb.length ≤ p.taken ∧ weight p.exporter.reader ≤ 1

theorem idle_of_weight {n : ℕ} {pc : ReaderPc n} (h : weight pc ≤ 1) :
    Idle pc ∧ pc ≠ .process := by
  cases pc with
  | process => simp [weight] at h
  | addSeg idx isRetrans => simp [weight] at h
  | addRet idx => simp [weight] at h
  | addUnknown => simp [weight] at h
  | _ => exact ⟨⟨fun _ => rfl, fun _ => rfl, rfl⟩, by simp⟩

theorem Drained.processed {p : State T c.zones.length} (h : Drained c p) (hhanded : Handed c p) :
    waiting c p = [] ∧ Idle p.exporter.reader := by
  obtain ⟨hidle, hpc⟩ := idle_of_weight h.2
  have hlen := length_received c hhanded
  rw [unprocessed, if_neg hpc, List.length_nil, Nat.add_zero] at hlen
  refine ⟨?_, hidle⟩
  rw [waiting, hlen]
  exact List.drop_eq_nil_of_le h.1

theorem weight_afterParse (raw : List U8) : weight (afterParse c raw) < 4 ∧
    afterParse c raw ≠ .stopped := by
  unfold afterParse
  split <;> simp [weight]

/-- Between two reads the reader comes closer to the next. -/
theorem weight_quiet {s : System c.zones.length} (hnot : ¬Reading s.reader)
    (hrunning : s.reader ≠ .stopped) :
    weight (exporterStep c c.outcomes s .reader).reader < weight s.reader ∧
      (exporterStep c c.outcomes s .reader).reader ≠ .stopped := by
  simp only [exporterStep, Polling.step, Polling.readerStep]
  cases hpc : s.reader with
  | blockingRead => exact absurd (Or.inl hpc) hnot
  | drainRead => exact absurd (Or.inr hpc) hnot
  | stopped => exact absurd hpc hrunning
  | process => exact weight_afterParse c s.rawSample
  | addSeg idx isRetrans => cases isRetrans <;> simp [weight]
  | _ => simp [weight]

/-- What a reader's step does while the ring buffer gives what it has. -/
theorem obliged_cases {p : State T c.zones.length} (h : Running c p) {answer : Answer}
    (hobliging : Obliging c p (.reader answer)) :
    (readerStep c p answer).maps = p.maps ∧
      ((p.maps.statsRb.length ≤ p.taken ∧ (readerStep c p answer).taken = p.taken ∧
          ((readerStep c p answer).exporter.reader = .blockingRead ∨
            (readerStep c p answer).exporter.reader = .clearDeadline)) ∨
        (p.taken < p.maps.statsRb.length ∧ (readerStep c p answer).taken = p.taken + 1 ∧
          (readerStep c p answer).exporter.reader = .process) ∨
        ((readerStep c p answer).taken = p.taken ∧
          weight (readerStep c p answer).exporter.reader < weight p.exporter.reader ∧
            (readerStep c p answer).exporter.reader ≠ .stopped)) := by
  unfold readerStep
  split_ifs with hreading
  · have hoblige := hobliging hreading
    cases answer with
    | failed err ctxDone left =>
      obtain ⟨hempty, hdeadline, rfl⟩ := hoblige
      have hdrain : p.exporter.reader = .drainRead := by
        refine hreading.resolve_left fun hblocking => ?_
        rw [h.deadlines.blocking hblocking] at hdeadline
        cases hdeadline
      refine ⟨rfl, Or.inl ⟨hempty, rfl, Or.inr ?_⟩⟩
      simp [readOutcome, answeredStep, exporterStep, Polling.step, Polling.readerStep, hdrain,
        readInto, afterDrainError]
    | record pad =>
      simp only [readOutcome]
      cases hevt : p.maps.statsRb[p.taken]? with
      | none =>
        have hempty := List.getElem?_eq_none_iff.mp hevt
        have hdeadline : p.exporter.deadline = false := hoblige.resolve_left (by omega)
        have hblocking : p.exporter.reader = .blockingRead := by
          refine hreading.resolve_right fun hdrain => ?_
          rw [h.deadlines.draining hdrain] at hdeadline
          cases hdeadline
        exact ⟨rfl, Or.inl ⟨hempty, rfl, Or.inl hblocking⟩⟩
      | some evt =>
        obtain ⟨hlt, -⟩ := List.getElem?_eq_some_iff.mp hevt
        refine ⟨rfl, Or.inr (Or.inl ⟨hlt, rfl, ?_⟩)⟩
        rcases hreading with hpc | hpc <;>
          simp [answeredStep, exporterStep, Polling.step, Polling.readerStep, hpc, readInto]
  · exact ⟨rfl, Or.inr (Or.inr ⟨rfl, weight_quiet c hreading h.notStopped⟩)⟩

variable [LpmTrie T]

theorem deadlines_run (m : Maps T) (sched : List Action) :
    Deadlines (run (step c) (start c m) sched).exporter := by
  obtain ⟨outcomes, parties, hrun⟩ := exists_outcomes c m sched
  rw [hrun]
  exact invariant_run (I := Deadlines) ⟨fun _ => rfl, by simp [Polling.start]⟩
    (fun _ a h => deadlines_exporterStep c outcomes h a) parties

theorem deadlines_step {p : State T c.zones.length} (h : Deadlines p.exporter) (a : Action) :
    Deadlines (step c p a).exporter := by
  cases a with
  | packet inv => exact h
  | publisher => exact deadlines_exporterStep c c.outcomes h .publisher
  | reader answer =>
    simp only [step, readerStep]
    split_ifs
    · cases readOutcome c p.maps.statsRb p.taken answer with
      | none => exact h
      | some outcome => exact deadlines_exporterStep c (fun _ => outcome) h .reader
    · exact deadlines_exporterStep c c.outcomes h .reader

theorem running_step {p : State T c.zones.length} {a : Action} (h : Running c p)
    (hobliging : Obliging c p a) : Running c (step c p a) := by
  refine ⟨handed_step c h.handed a, deadlines_step c h.deadlines a, ?_⟩
  cases a with
  | packet inv => exact h.notStopped
  | publisher =>
    simp only [step, (publisher_frame c c.outcomes p.exporter).1]
    exact h.notStopped
  | reader answer =>
    obtain ⟨-, ⟨-, -, hpc | hpc⟩ | ⟨-, -, hpc⟩ | ⟨-, -, hpc⟩⟩ := obliged_cases c h hobliging
    · simp [step, hpc]
    · simp [step, hpc]
    · simp [step, hpc]
    · exact hpc

theorem drained_step {p : State T c.zones.length} {a : Action} (h : Running c p)
    (hobliging : Obliging c p a) (hdrained : Drained c p) : Drained c (step c p a) := by
  obtain ⟨hempty, hweight⟩ := hdrained
  cases a with
  | packet inv => exact absurd hobliging id
  | publisher =>
    unfold Drained
    simp only [step, (publisher_frame c c.outcomes p.exporter).1]
    exact ⟨hempty, hweight⟩
  | reader answer =>
    unfold Drained
    simp only [step]
    obtain ⟨hmaps, ⟨-, htaken, hpc | hpc⟩ | ⟨hlt, -⟩ | ⟨htaken, hless, -⟩⟩ :=
      obliged_cases c h hobliging
    · rw [hmaps, htaken, hpc]
      exact ⟨hempty, Nat.zero_le _⟩
    · rw [hmaps, htaken, hpc]
      exact ⟨hempty, Nat.le_refl _⟩
    · omega
    · rw [hmaps, htaken]
      exact ⟨hempty, by omega⟩

/-- Each step of the reader brings it closer to the end. -/
theorem remaining_step {p : State T c.zones.length} {a : Action} (h : Running c p)
    (hobliging : Obliging c p a) (hnot : ¬Drained c p) :
    remaining c (step c p a) ≤ remaining c p ∧
      (isReader a → remaining c (step c p a) < remaining c p) := by
  unfold remaining
  cases a with
  | packet inv => exact absurd hobliging id
  | publisher =>
    simp only [step, (publisher_frame c c.outcomes p.exporter).1]
    exact ⟨Nat.le_refl _, by simp [isReader]⟩
  | reader answer =>
    simp only [step]
    obtain ⟨hmaps, ⟨hempty, htaken, hpc⟩ | ⟨hlt, htaken, hpc⟩ | ⟨htaken, hless, -⟩⟩ :=
      obliged_cases c h hobliging
    · -- A read that finds nothing is a step of a reader that has done with the last event.
      have hreading : ¬weight p.exporter.reader ≤ 1 := fun hw => hnot ⟨hempty, hw⟩
      rw [hmaps, htaken]
      have hdone : weight (readerStep c p answer).exporter.reader ≤ 1 := by
        rcases hpc with hpc | hpc <;> simp [hpc, weight]
      exact ⟨by omega, fun _ => by omega⟩
    · rw [hmaps, htaken, hpc]
      simp only [weight]
      omega
    · rw [hmaps, htaken]
      omega

theorem packets_append (left right : List Action) :
    packets (left ++ right) = packets left ++ packets right := List.filterMap_append ..

theorem packets_of_obliging {p : State T c.zones.length} {quiet : List Action}
    (hobliging : Meets (step c) (Obliging c) p quiet) : packets quiet = [] := by
  induction quiet generalizing p with
  | nil => rfl
  | cons a quiet ih =>
    obtain ⟨hfirst, hrest⟩ := meets_cons.mp hobliging
    cases a with
    | packet inv => exact absurd hfirst id
    | reader answer => exact ih hrest
    | publisher => exact ih hrest

/-- A reader that takes enough steps empties the ring buffer. -/
theorem drained_run {m : Maps T} (hm : m.statsRb = []) {sched quiet : List Action}
    (hopen : (run (step c) (start c m) sched).exporter.reader ≠ .stopped)
    (hobliging : Meets (step c) (Obliging c) (run (step c) (start c m) sched) quiet)
    (hmany : remaining c (run (step c) (start c m) sched) ≤ quiet.countP isReader) :
    Drained c (run (step c) (start c m) (sched ++ quiet)) := by
  rw [run_append]
  refine reached_of_count (p := fun a => isReader a = true) (I := Running c) (G := Drained c)
    (remaining c) ?_ ?_ ?_ ?_ ?_ ?_ hobliging ?_
  · exact fun p a h hob => running_step c h hob
  · exact fun p a h hob hdrained => drained_step c h hob hdrained
  · exact fun p a h hob hnot => (remaining_step c h hob hnot).1
  · exact fun p a h hob ha hnot => (remaining_step c h hob hnot).2 ha
  · intro p h hnone
    unfold remaining at hnone
    exact ⟨by omega, by omega⟩
  · exact ⟨handed_run c hm sched, deadlines_run c m sched, hopen⟩
  · simpa using hmany

/-! A snapshot that the publisher takes alone. -/

def publishAlone : List Action := List.replicate (2 * c.zones.length + 1) .publisher

theorem run_publishers (p : State T c.zones.length) (k : ℕ) :
    run (step c) p (List.replicate k .publisher) =
      { p with exporter := run (Polling.step c) p.exporter (List.replicate k .publisher) } := by
  induction k generalizing p with
  | zero => rfl
  | succ k ih =>
    rw [List.replicate_succ, List.replicate_succ]
    exact ih (step c p .publisher)

theorem run_publishAlone {p : State T c.zones.length} (hidle : p.exporter.publisher = .idle) :
    run (step c) p (publishAlone c) =
      { p with
        exporter :=
          { p.exporter with
            acc := p.exporter.acc.snapshotAndReset.2
            snapshots := p.exporter.snapshots ++ [p.exporter.acc.snapshotAndReset.1] } } := by
  rw [publishAlone, run_publishers, snapshotAndReset_alone hidle]

/-- What all snapshots together say of zone `i`. -/
def inSnapshots (f : CounterSnapshot → U64) (p : State T c.zones.length)
    (i : Fin c.zones.length) : ℕ :=
  (p.exporter.snapshots.map fun m => (f (deltaOf m (nameOf c i))).toNat).sum

/-- After such a snapshot the counters are empty. -/
theorem totals_publishAlone {p : State T c.zones.length} (hidle : p.exporter.publisher = .idle)
    (i : Fin c.zones.length) :
    totalSegs c (run (step c) p (publishAlone c)).exporter i =
        inSnapshots c CounterSnapshot.segments (run (step c) p (publishAlone c)) i ∧
      totalRets c (run (step c) p (publishAlone c)).exporter i =
        inSnapshots c CounterSnapshot.retrans (run (step c) p (publishAlone c)) i := by
  obtain ⟨hsegs, hrets⟩ := p.exporter.acc.swapOut_counts (List.finRange c.zones.length) .empty i
  rw [if_pos (List.mem_finRange i)] at hsegs hrets
  rw [run_publishAlone c hidle]
  simp [totalSegs, totalRets, swappedOut, inSnapshots, inHand, hidle,
    Accumulator.snapshotAndReset, hsegs, hrets]

/-- Every counted packet is in the snapshots, or found no room. -/
structure Published (m : Maps T) (invs : List Invocation) (p : State T c.zones.length) :
    Prop where
  segs : ∀ i, Counted
    (inSnapshots c CounterSnapshot.segments p i + lostPackets c.endian m invs (ofZone c i))
    (countedPackets c.endian m invs (ofZone c i))
  rets : ∀ i, Counted
    (inSnapshots c CounterSnapshot.retrans p i + lostPackets c.endian m invs (retransOfZone c i))
    (countedPackets c.endian m invs (retransOfZone c i))
  unknown : Counted
    (p.exporter.acc.unknown.toNat + lostPackets c.endian m invs (unmapped c))
    (countedPackets c.endian m invs (unmapped c))

/-- A reader that takes enough steps empties the ring buffer, and once the publisher has
then taken a snapshot, with the reader waiting meanwhile, every packet of the run is
published whose event found room. -/
theorem published_after_drain (zoneLpm srcZoneLpm : T) {sched quiet : List Action}
    (hopen : (run (step c) (start c (Maps.loaded zoneLpm srcZoneLpm)) sched).exporter.reader ≠
      .stopped)
    (hobliging : Meets (step c) (Obliging c)
      (run (step c) (start c (Maps.loaded zoneLpm srcZoneLpm)) sched) quiet)
    (hmany : remaining c (run (step c) (start c (Maps.loaded zoneLpm srcZoneLpm)) sched) ≤
      quiet.countP isReader)
    (hidle : (run (step c) (start c (Maps.loaded zoneLpm srcZoneLpm))
      (sched ++ quiet)).exporter.publisher = .idle) :
    Drained c (run (step c) (start c (Maps.loaded zoneLpm srcZoneLpm)) (sched ++ quiet)) ∧
      Published c (Maps.loaded zoneLpm srcZoneLpm) (packets sched)
        (run (step c) (start c (Maps.loaded zoneLpm srcZoneLpm))
          (sched ++ quiet ++ publishAlone c)) := by
  let m := Maps.loaded zoneLpm srcZoneLpm
  have hdrained := drained_run c (m := m) rfl hopen hobliging hmany
  obtain ⟨hwaiting, hsegs, hrets, hunknown⟩ :=
    hdrained.processed c (handed_run c (m := m) rfl (sched ++ quiet))
  have hall := accountedFor_run c m rfl (sched ++ quiet ++ publishAlone c)
  have hpackets : packets (sched ++ quiet ++ publishAlone c) = packets sched := by
    rw [packets_append, packets_append, packets_of_obliging c hobliging, List.append_nil]
    have halone : packets (publishAlone c) = [] := by
      refine List.filterMap_eq_nil_iff.mpr fun a ha => ?_
      rw [List.eq_of_mem_replicate ha]
    rw [halone, List.append_nil]
  rw [hpackets] at hall
  rw [run_append (step c) _ (sched ++ quiet)] at hall ⊢
  have hrun := run_publishAlone c hidle
  have hnone : waiting c (run (step c) (run (step c) (start c m) (sched ++ quiet))
      (publishAlone c)) = [] := by
    rw [hrun]
    exact hwaiting
  have hreader : (run (step c) (run (step c) (start c m) (sched ++ quiet))
      (publishAlone c)).exporter.reader =
        (run (step c) (start c m) (sched ++ quiet)).exporter.reader := by
    rw [hrun]
  refine ⟨hdrained, ?_, ?_, ?_⟩
  · intro i
    have hcount := hall.segs i
    rwa [account, hnone, hreader, hsegs, (totals_publishAlone c hidle i).1] at hcount
  · intro i
    have hcount := hall.rets i
    rwa [account, hnone, hreader, hrets, (totals_publishAlone c hidle i).2] at hcount
  · have hcount := hall.unknown
    rwa [account, hnone, hreader, hunknown] at hcount

/-! The shutdown: reads fail because the reader was closed, or they fail and the context
is done. -/

def Closing (p : State T c.zones.length) : Action → Prop
  | .reader answer => Reading p.exporter.reader →
    match answer with
    | .record _ => False
    | .failed err ctxDone _ => err = .closed ∨ ctxDone = true
  | _ => True

instance (p : State T c.zones.length) : (a : Action) → Decidable (Closing c p a)
  | .packet _ => isTrue trivial
  | .publisher => isTrue trivial
  | .reader (.record _) => inferInstanceAs (Decidable (_ → False))
  | .reader (.failed _ _ _) => inferInstanceAs (Decidable (_ → _ ∨ _))

/-- The steps that the reader takes at most before it stops: a drain that runs into its
deadline is followed by one more read. -/
def toStop {n : ℕ} : ReaderPc n → ℕ
  | .process => 7
  | .addSeg _ _ => 6
  | .addRet _ => 5
  | .addUnknown => 5
  | .setDeadline => 4
  | .drainRead => 3
  | .clearDeadline => 2
  | .blockingRead => 1
  | .stopped => 0

theorem toStop_le {n : ℕ} (pc : ReaderPc n) : toStop pc ≤ 7 := by
  cases pc <;> simp [toStop]

theorem eq_stopped_of_toStop {n : ℕ} {pc : ReaderPc n} (h : toStop pc = 0) : pc = .stopped := by
  cases pc <;> simp [toStop] at h ⊢

theorem toStop_afterBlockingError {err : ReadError} {ctxDone : Bool}
    (hfails : err = .closed ∨ ctxDone = true) :
    toStop (afterBlockingError c err ctxDone) = 0 := by
  rw [afterBlockingError, if_pos hfails, toStop]

theorem toStop_afterDrainError {err : ReadError} {ctxDone : Bool}
    (hfails : err = .closed ∨ ctxDone = true) :
    toStop (afterDrainError c err ctxDone) ≤ 2 := by
  unfold afterDrainError
  rw [if_pos hfails]
  split <;> simp [toStop]

theorem toStop_afterParse (raw : List U8) : toStop (afterParse c raw) ≤ 6 := by
  unfold afterParse
  split <;> simp [toStop]

omit [LpmTrie T] in
theorem readerStep_closing {p : State T c.zones.length} {answer : Answer}
    (hclosing : Closing c p (.reader answer)) (hrunning : p.exporter.reader ≠ .stopped) :
    toStop (readerStep c p answer).exporter.reader < toStop p.exporter.reader := by
  unfold readerStep
  split_ifs with hreading
  · have hfails := hclosing hreading
    cases answer with
    | record pad => exact absurd hfails id
    | failed err ctxDone left =>
      simp only [readOutcome, answeredStep, exporterStep, Polling.step, Polling.readerStep]
      rcases hreading with hpc | hpc
      · have hstop := toStop_afterBlockingError
          (withOutcomes c fun _ => .failed err ctxDone left) hfails
        simp only [hpc, readInto]
        rw [hstop]
        exact Nat.one_pos
      · have hle := toStop_afterDrainError
          (withOutcomes c fun _ => .failed err ctxDone left) hfails
        simp only [hpc, readInto]
        exact Nat.lt_succ_of_le hle
  · simp only [exporterStep, Polling.step, Polling.readerStep]
    cases hpc : p.exporter.reader with
    | blockingRead => exact absurd (Or.inl hpc) hreading
    | drainRead => exact absurd (Or.inr hpc) hreading
    | stopped => exact absurd hpc hrunning
    | process => exact Nat.lt_succ_of_le (toStop_afterParse c p.exporter.rawSample)
    | addSeg idx isRetrans => cases isRetrans <;> simp [toStop]
    | _ => simp [toStop]

omit [LpmTrie T] in
/-- A reader that has stopped does nothing more. -/
theorem readerStep_stopped {p : State T c.zones.length} (h : p.exporter.reader = .stopped)
    (answer : Answer) : readerStep c p answer = p := by
  have hnot : ¬Reading p.exporter.reader := by simp [Reading, h]
  rw [readerStep, if_neg hnot]
  simp [exporterStep, Polling.step, Polling.readerStep, h]

theorem stopped_step {p : State T c.zones.length} (h : p.exporter.reader = .stopped)
    (a : Action) : (step c p a).exporter.reader = .stopped ∧
      (step c p a).exporter.processed = p.exporter.processed ∧ (step c p a).taken = p.taken := by
  cases a with
  | packet inv => exact ⟨h, rfl, rfl⟩
  | publisher =>
    obtain ⟨hreader, hprocessed, -⟩ := publisher_frame c c.outcomes p.exporter
    exact ⟨hreader.trans h, hprocessed, rfl⟩
  | reader answer =>
    rw [step, readerStep_stopped c h]
    exact ⟨h, rfl, rfl⟩

theorem toStop_step {p : State T c.zones.length} {a : Action} (hclosing : Closing c p a)
    (hrunning : p.exporter.reader ≠ .stopped) :
    toStop (step c p a).exporter.reader ≤ toStop p.exporter.reader ∧
      (isReader a → toStop (step c p a).exporter.reader < toStop p.exporter.reader) := by
  cases a with
  | packet inv => exact ⟨Nat.le_refl _, by simp [isReader]⟩
  | publisher =>
    rw [step, (publisher_frame c c.outcomes p.exporter).1]
    exact ⟨Nat.le_refl _, by simp [isReader]⟩
  | reader answer =>
    have hlt := readerStep_closing c hclosing hrunning
    exact ⟨Nat.le_of_lt hlt, fun _ => hlt⟩

/-- Once reads fail for good, the reader stops within seven more steps of its own, wherever
it was and whatever the others do. Every event that it took is then counted. -/
theorem reader_stops (zoneLpm srcZoneLpm : T) {sched closing : List Action}
    (hclosing : Meets (step c) (Closing c)
      (run (step c) (start c (Maps.loaded zoneLpm srcZoneLpm)) sched) closing)
    (hmany : 7 ≤ closing.countP isReader) :
    let p := run (step c) (start c (Maps.loaded zoneLpm srcZoneLpm)) (sched ++ closing)
    p.exporter.reader = .stopped ∧ p.exporter.processed.length = p.taken ∧
      ∀ more, (run (step c) p more).exporter.processed = p.exporter.processed ∧
        (run (step c) p more).taken = p.taken := by
  let m := Maps.loaded zoneLpm srcZoneLpm
  have hstopped : (run (step c) (start c m) (sched ++ closing)).exporter.reader = .stopped := by
    rw [run_append]
    refine reached_of_count (p := fun a => isReader a = true) (I := fun _ => True)
      (G := fun p : State T c.zones.length => p.exporter.reader = .stopped)
      (fun p => toStop p.exporter.reader) ?_ ?_ ?_ ?_ ?_ trivial hclosing ?_
    · exact fun _ _ _ _ => trivial
    · exact fun p a _ _ h => (stopped_step c h a).1
    · exact fun p a _ hc hnot => (toStop_step c hc hnot).1
    · exact fun p a _ hc ha hnot => (toStop_step c hc hnot).2 ha
    · exact fun p _ hzero => eq_stopped_of_toStop hzero
    · have hle := toStop_le (run (step c) (start c m) sched).exporter.reader
      have hcount : closing.countP (fun a => isReader a = true) = closing.countP isReader := by
        simp
      omega
  intro p
  refine ⟨hstopped, ?_, ?_⟩
  · have hlen := length_received c (handed_run c (m := m) rfl (sched ++ closing))
    rw [unprocessed, if_neg (by rw [hstopped]; simp), List.length_nil] at hlen
    exact hlen
  · intro more
    refine (invariant_run (I := fun p' : State T c.zones.length =>
      p'.exporter.reader = .stopped ∧ p'.exporter.processed = p.exporter.processed ∧
        p'.taken = p.taken) ⟨hstopped, rfl, rfl⟩ ?_ more).2
    intro p' a h
    obtain ⟨hreader, hprocessed, htaken⟩ := stopped_step c h.1 a
    exact ⟨hreader, hprocessed.trans h.2.1, htaken.trans h.2.2⟩

/-- One zone, with the id that `zoneTrie` gives out. -/
def oneZone : Setup where
  zones := [⟨"c", 1#8, "e"⟩]
  nodup := by decide
  zoneByID := buildZoneIndex [⟨"c", 1#8, "e"⟩]
  endian := .little
  outcomes := fun _ => .sample []

/-- A segment is sent, and sent again while the reader counts the first. -/
def twoPackets : List Action :=
  [.packet (sampleSegment 1000#32 0x18#8 [1#8, 2#8] 2000000000#64),
    .reader (.record (0#8, 0#8)), .reader (.record (0#8, 0#8)),
    .packet (sampleSegment 1000#32 0x18#8 [1#8, 2#8] 2000003000#64)]

/-- The reader counts both, finds the ring buffer empty and waits. -/
def untilEmpty : List Action :=
  List.replicate 7 (.reader (.record (0#8, 0#8))) ++
    [.reader (.failed .deadlineExceeded false [])] ++
      List.replicate 6 (.reader (.record (0#8, 0#8)))

theorem twoPackets_published :
    Drained oneZone (run (step oneZone) (start oneZone (Maps.loaded zoneTrie srcZoneTrie))
        (twoPackets ++ untilEmpty)) ∧
      Published oneZone (Maps.loaded zoneTrie srcZoneTrie) (packets twoPackets)
        (run (step oneZone) (start oneZone (Maps.loaded zoneTrie srcZoneTrie))
          (twoPackets ++ untilEmpty ++ publishAlone oneZone)) :=
  published_after_drain oneZone zoneTrie srcZoneTrie (by decide +kernel) (by decide +kernel)
    (by decide +kernel) (by rfl)

/-- The context is done while the reader counts the first segment. The drain runs into its
deadline, and the read after that finds the reader closed. -/
def untilStopped : List Action :=
  List.replicate 3 (.reader (.failed .deadlineExceeded true [])) ++ [.publisher] ++
    List.replicate 4 (.reader (.failed .closed true []))

theorem twoPackets_stops :
    let p := run (step oneZone) (start oneZone (Maps.loaded zoneTrie srcZoneTrie))
      (twoPackets ++ untilStopped)
    p.exporter.reader = .stopped ∧ p.exporter.processed.length = p.taken ∧
      ∀ more, (run (step oneZone) p more).exporter.processed = p.exporter.processed ∧
        (run (step oneZone) p more).taken = p.taken :=
  reader_stops oneZone zoneTrie srcZoneTrie (by decide +kernel) (by decide +kernel)

end PacketLoss.Draining
