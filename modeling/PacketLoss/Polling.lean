import PacketLoss.Counters
import PacketLoss.Schedules

/-!
The goroutine that reads the ring buffer and the one that publishes, step by
step. Each read of the ring buffer, each change of its deadline and each atomic
operation on the accumulator is one step, and the two take their steps in any
order.
-/
namespace PacketLoss.Polling

open Machine ZoneConfig Counters EmaStore Schedules

inductive ReadError
  | deadlineExceeded
  | closed
  | other
deriving DecidableEq

/-- What `ReadInto` does: it fills the record, or it fails and leaves something in
it. `ctxDone` is whether `ctx.Err()` is set when the error is looked at. -/
inductive ReadOutcome
  | sample (raw : List U8)
  | failed (err : ReadError) (ctxDone : Bool) (left : List U8)
deriving DecidableEq

/-- The zones have distinct names, as those of `RemoteZones` do. -/
structure Setup where
  zones : List ResolvedZone
  nodup : (zones.map ResolvedZone.dstZone).Nodup
  zoneByID : GoMap U8 (Fin zones.length)
  endian : Endian
  outcomes : ℕ → ReadOutcome

/-- Where the reader is in its two loops. -/
inductive ReaderPc (n : ℕ)
  | blockingRead
  | process
  | addUnknown
  | addSeg (idx : Fin n) (isRetrans : Bool)
  | addRet (idx : Fin n)
  | setDeadline
  | drainRead
  | clearDeadline
  | stopped
deriving DecidableEq

/-- Where the publisher is in `snapshotAndReset`, with its local variables. -/
inductive PublisherPc (n : ℕ)
  | idle
  | swapSegs (i : Fin n) (counters : GoMap String CounterSnapshot)
  | swapRets (i : Fin n) (counters : GoMap String CounterSnapshot) (segs : U64)

/-- `processed` and `snapshots` are what the reader has processed and what the
publisher has got so far. -/
structure System (n : ℕ) where
  acc : Accumulator n
  reader : ReaderPc n
  rawSample : List U8
  deadline : Bool
  reads : ℕ
  processed : List (List U8)
  publisher : PublisherPc n
  snapshots : List (GoMap String CounterSnapshot)

inductive Party
  | reader
  | publisher
deriving DecidableEq

variable (c : Setup)

def start : System c.zones.length where
  acc := newAccumulator c.zones
  reader := .blockingRead
  rawSample := []
  deadline := false
  reads := 0
  processed := []
  publisher := .idle
  snapshots := []

/-- The error paths of the blocking read of the outer loop. -/
def afterBlockingError (err : ReadError) (ctxDone : Bool) : ReaderPc c.zones.length :=
  if err = .closed ∨ ctxDone then .stopped else .blockingRead

/-- The error paths of the read that drains the ring buffer. -/
def afterDrainError (err : ReadError) (ctxDone : Bool) : ReaderPc c.zones.length :=
  if err = .deadlineExceeded then .clearDeadline
  else if err = .closed ∨ ctxDone then .stopped
  else .clearDeadline

def readInto (s : System c.zones.length)
    (onError : ReadError → Bool → ReaderPc c.zones.length) : System c.zones.length :=
  match c.outcomes s.reads with
  | .sample raw => { s with rawSample := raw, reads := s.reads + 1, reader := .process }
  | .failed err ctxDone left =>
    { s with rawSample := left, reads := s.reads + 1, reader := onError err ctxDone }

def afterParse (raw : List U8) : ReaderPc c.zones.length :=
  match classify c.endian c.zoneByID raw with
  | .malformed => .setDeadline
  | .unknown => .addUnknown
  | .zone idx isRetrans => .addSeg idx isRetrans

def readerStep (s : System c.zones.length) : System c.zones.length :=
  match s.reader with
  | .blockingRead => readInto c s (afterBlockingError c)
  | .process =>
    { s with processed := s.processed ++ [s.rawSample], reader := afterParse c s.rawSample }
  | .addUnknown => { s with acc := s.acc.addUnknown, reader := .setDeadline }
  | .addSeg idx isRetrans =>
    { s with
      acc := s.acc.addSeg idx
      reader := if isRetrans then .addRet idx else .setDeadline }
  | .addRet idx => { s with acc := s.acc.addRet idx, reader := .setDeadline }
  | .setDeadline => { s with deadline := true, reader := .drainRead }
  | .drainRead => readInto c s (afterDrainError c)
  | .clearDeadline => { s with deadline := false, reader := .blockingRead }
  | .stopped => s

/-- The loop of `snapshotAndReset` goes on at zone `i`, or it is done. -/
def swapFrom (s : System c.zones.length) (i : ℕ) (counters : GoMap String CounterSnapshot) :
    System c.zones.length :=
  if h : i < c.zones.length then { s with publisher := .swapSegs ⟨i, h⟩ counters }
  else { s with publisher := .idle, snapshots := s.snapshots ++ [counters] }

def publisherStep (s : System c.zones.length) : System c.zones.length :=
  match s.publisher with
  | .idle => swapFrom c s 0 .empty
  | .swapSegs i counters =>
    { s with acc := s.acc.clearSegs i, publisher := .swapRets i counters (s.acc.segs i) }
  | .swapRets i counters segs =>
    swapFrom c { s with acc := s.acc.clearRets i } (i + 1)
      (counters.set (s.acc.zoneNames i) ⟨segs, s.acc.rets i⟩)

def step (s : System c.zones.length) : Party → System c.zones.length
  | .reader => readerStep c s
  | .publisher => publisherStep c s

variable {c} {s : System c.zones.length}

/-- If the publisher does not come in between, an event is recorded at once. -/
theorem record_alone {idx : Fin c.zones.length} {isRetrans : Bool}
    (h : s.reader = .addSeg idx isRetrans) :
    run (step c) s (List.replicate (if isRetrans then 2 else 1) .reader) =
      { s with acc := s.acc.record idx isRetrans, reader := .setDeadline } := by
  cases isRetrans <;> simp [run, List.replicate, step, readerStep, h, Accumulator.record]

/-- The loop of `snapshotAndReset`, two swaps for each zone from `k` on. -/
theorem swapOut_alone (m : ℕ) {k : ℕ} (hk : k + m = c.zones.length)
    (counters : GoMap String CounterSnapshot) :
    run (step c) (swapFrom c s k counters) (List.replicate (2 * m) .publisher) =
      let out := Accumulator.swapOut ((List.finRange c.zones.length).drop k) (counters, s.acc)
      { s with acc := out.2, publisher := .idle, snapshots := s.snapshots ++ [out.1] } := by
  induction m generalizing k s counters with
  | zero =>
    have hdone : ¬k < c.zones.length := by omega
    rw [List.drop_eq_nil_of_le (by simp; omega)]
    simp [run, swapFrom, hdone, Accumulator.swapOut]
  | succ m ih =>
    have hlt : k < c.zones.length := by omega
    have hzone : (List.finRange c.zones.length).drop k =
        ⟨k, hlt⟩ :: (List.finRange c.zones.length).drop (k + 1) := by
      rw [List.drop_eq_getElem_cons (by simpa using hlt)]
      simp
    have hswap : swapFrom c s k counters = { s with publisher := .swapSegs ⟨k, hlt⟩ counters } :=
      dif_pos hlt
    rw [hswap, hzone, show 2 * (m + 1) = 2 * m + 1 + 1 by omega, List.replicate_succ,
      List.replicate_succ]
    simp only [run, List.foldl_cons, step, publisherStep]
    rw [← run, ih (by omega)]
    rfl

/-- If the reader does not come in between, a snapshot is taken at once. -/
theorem snapshotAndReset_alone (h : s.publisher = .idle) :
    run (step c) s (List.replicate (2 * c.zones.length + 1) .publisher) =
      { s with
        acc := s.acc.snapshotAndReset.2
        snapshots := s.snapshots ++ [s.acc.snapshotAndReset.1] } := by
  have hstep : step c s .publisher = swapFrom c s 0 .empty := by
    simp only [step, publisherStep, h]
  rw [List.replicate_succ]
  show run (step c) (step c s .publisher) _ = _
  rw [hstep, swapOut_alone c.zones.length (by omega), List.drop_zero, ← h]
  rfl

end PacketLoss.Polling
