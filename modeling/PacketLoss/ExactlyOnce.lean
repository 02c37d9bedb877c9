import PacketLoss.Polling

/-!
Every sample that is read from the ring buffer is processed once, and each of its
increments is in one snapshot, or still in its counter, or still to be made. The
counters have 64 bits, so the accounts agree modulo `2 ^ 64`, and exactly while
no count is beyond that.
-/
namespace PacketLoss.ExactlyOnce

open Machine ZoneConfig Counters EmaStore Schedules Polling

/-- `total` was counted up one by one, but lost `2 ^ 64` at each overflow. -/
def Counted (total count : ℕ) : Prop := ∃ overflows, count = total + 2 ^ 64 * overflows

theorem Counted.mod {total count : ℕ} (h : Counted total count) :
    total % 2 ^ 64 = count % 2 ^ 64 := by
  obtain ⟨overflows, rfl⟩ := h
  exact (Nat.add_mul_mod_self_left _ _ _).symm

theorem Counted.eq_of_lt {total count : ℕ} (h : Counted total count) (hlt : count < 2 ^ 64) :
    total = count := by
  obtain ⟨overflows, rfl⟩ := h
  have hzero : overflows = 0 := by omega
  simp [hzero]

theorem Counted.succ {total count : ℕ} (h : Counted total count) :
    Counted (total + 1) (count + 1) := by
  obtain ⟨overflows, rfl⟩ := h
  exact ⟨overflows, by omega⟩

/-- One more element is counted where it is due. -/
theorem Counted.process {α : Type} {p : α → Prop} [DecidablePred p] {total : ℕ} {l : List α}
    (h : Counted total (l.countP p)) (a : α) :
    Counted (total + if p a then 1 else 0) ((l ++ [a]).countP p) := by
  rw [List.countP_append, List.countP_singleton]
  by_cases hp : p a
  · simpa [hp] using h.succ
  · simpa [hp] using h

/-- An increment that was due is made. -/
theorem Counted.add {rest : ℕ} {x : U64} {count : ℕ} (h : Counted (rest + x.toNat + 1) count) :
    Counted (rest + (x + 1#64).toNat) count := by
  obtain ⟨overflows, rfl⟩ := h
  have hlt := x.isLt
  rw [BitVec.toNat_add, show (1#64).toNat = 1 from rfl]
  by_cases hmax : x.toNat + 1 = 2 ^ 64
  · refine ⟨overflows + 1, ?_⟩
    rw [hmax]
    omega
  · refine ⟨overflows, ?_⟩
    rw [Nat.mod_eq_of_lt (by omega)]
    omega

variable (c : Setup)

def nameOf (i : Fin c.zones.length) : String := (c.zones.get i).dstZone

theorem nameOf_injective : Function.Injective (nameOf c) := by
  intro i j heq
  have hinj := List.nodup_iff_injective_get.mp c.nodup
  have hcast : ((c.zones.map ResolvedZone.dstZone).get (i.cast (by simp))) =
      (c.zones.map ResolvedZone.dstZone).get (j.cast (by simp)) := by simpa [nameOf] using heq
  simpa using hinj hcast

/-- A sample of at least 8 bytes whose zone id maps to `i`. -/
def OfZone (i : Fin c.zones.length) (raw : List U8) : Prop :=
  statsEventSize ≤ raw.length ∧ c.zoneByID.get (raw.getD 4 0#8) = some i

instance (i : Fin c.zones.length) (raw : List U8) : Decidable (OfZone c i raw) :=
  inferInstanceAs (Decidable (_ ∧ _))

/-- Such a sample with a retransmit byte that is not zero. -/
def RetransOfZone (i : Fin c.zones.length) (raw : List U8) : Prop :=
  OfZone c i raw ∧ raw.getD 5 0#8 ≠ 0#8

instance (i : Fin c.zones.length) (raw : List U8) : Decidable (RetransOfZone c i raw) :=
  inferInstanceAs (Decidable (_ ∧ _))

/-- A sample of at least 8 bytes whose zone id is not mapped. -/
def Unmapped (raw : List U8) : Prop :=
  statsEventSize ≤ raw.length ∧ c.zoneByID.get (raw.getD 4 0#8) = none

instance (raw : List U8) : Decidable (Unmapped c raw) := inferInstanceAs (Decidable (_ ∧ _))

section Reader

variable {n : ℕ}

/-- The segment increments of zone `i` that the reader is about to make. -/
def dueSegs (i : Fin n) : ReaderPc n → ℕ
  | .addSeg idx _ => if idx = i then 1 else 0
  | _ => 0

def dueRets (i : Fin n) : ReaderPc n → ℕ
  | .addSeg idx isRetrans => if idx = i ∧ isRetrans then 1 else 0
  | .addRet idx => if idx = i then 1 else 0
  | _ => 0

def dueUnknown : ReaderPc n → ℕ
  | .addUnknown => 1
  | _ => 0

/-- The reader is about to make no increment. -/
def Idle (pc : ReaderPc n) : Prop :=
  (∀ i, dueSegs i pc = 0) ∧ (∀ i, dueRets i pc = 0) ∧ dueUnknown pc = 0

end Reader

theorem idle_afterBlockingError (err : ReadError) (ctxDone : Bool) :
    Idle (afterBlockingError c err ctxDone) := by
  unfold afterBlockingError
  split <;> exact ⟨fun _ => rfl, fun _ => rfl, rfl⟩

theorem idle_afterDrainError (err : ReadError) (ctxDone : Bool) :
    Idle (afterDrainError c err ctxDone) := by
  unfold afterDrainError
  repeat' split
  all_goals exact ⟨fun _ => rfl, fun _ => rfl, rfl⟩

theorem due_afterParse (raw : List U8) :
    (∀ i, dueSegs i (afterParse c raw) = if OfZone c i raw then 1 else 0) ∧
      (∀ i, dueRets i (afterParse c raw) = if RetransOfZone c i raw then 1 else 0) ∧
        dueUnknown (afterParse c raw) = if Unmapped c raw then 1 else 0 := by
  by_cases hshort : raw.length < statsEventSize
  · have hpc : afterParse c raw = .setDeadline := by
      simp [afterParse, classify, parseStatsEvent, hshort]
    have hnot : ¬statsEventSize ≤ raw.length := by omega
    simp [hpc, dueSegs, dueRets, dueUnknown, OfZone, RetransOfZone, Unmapped, hnot]
  · have hlong : statsEventSize ≤ raw.length := by omega
    cases hzone : c.zoneByID.get (raw.getD 4 0#8) with
    | none =>
      have hpc : afterParse c raw = .addUnknown := by
        simp only [afterParse, classify, parseStatsEvent, if_neg hshort, hzone]
      simp [hpc, dueSegs, dueRets, dueUnknown, OfZone, RetransOfZone, Unmapped, hlong, hzone,
        -List.getD_eq_getElem?_getD]
    | some idx =>
      have hpc : afterParse c raw = .addSeg idx (raw.getD 5 0#8 ≠ 0#8) := by
        simp only [afterParse, classify, parseStatsEvent, if_neg hshort, hzone]
      simp [hpc, dueSegs, dueRets, dueUnknown, OfZone, RetransOfZone, Unmapped, hlong, hzone,
        -List.getD_eq_getElem?_getD]

/-- What the publisher has in its local variables for zone `i`. -/
def inHand (i : Fin c.zones.length) : PublisherPc c.zones.length → CounterSnapshot
  | .idle => ⟨0#64, 0#64⟩
  | .swapSegs _ counters => deltaOf counters (nameOf c i)
  | .swapRets j counters segs =>
    if i = j then ⟨segs, 0#64⟩ else deltaOf counters (nameOf c i)

/-- The counts of zone `i` in the snapshots taken so far and in the one being taken. -/
def swappedOut (f : CounterSnapshot → U64) (s : System c.zones.length) (i : Fin c.zones.length) :
    ℕ :=
  (s.snapshots.map fun m => (f (deltaOf m (nameOf c i))).toNat).sum +
    (f (inHand c i s.publisher)).toNat

def totalSegs (s : System c.zones.length) (i : Fin c.zones.length) : ℕ :=
  swappedOut c CounterSnapshot.segments s i + (s.acc.segs i).toNat

def totalRets (s : System c.zones.length) (i : Fin c.zones.length) : ℕ :=
  swappedOut c CounterSnapshot.retrans s i + (s.acc.rets i).toNat

/-- The samples among the outcomes of the first `reads` reads. -/
def samplesRead (reads : ℕ) : List (List U8) :=
  (List.range reads).filterMap fun k =>
    match c.outcomes k with
    | .sample raw => some raw
    | .failed .. => none

/-- The sample that was read but not processed yet. -/
def unprocessed (s : System c.zones.length) : List (List U8) :=
  if s.reader = .process then [s.rawSample] else []

/-- Every sample is accounted for. The terms `due` are the increments that the
reader is about to make. -/
structure Accounted (s : System c.zones.length) : Prop where
  order : s.processed ++ unprocessed c s = samplesRead c s.reads
  segs : ∀ i, Counted (totalSegs c s i + dueSegs i s.reader) (s.processed.countP (OfZone c i))
  rets : ∀ i, Counted (totalRets c s i + dueRets i s.reader)
    (s.processed.countP (RetransOfZone c i))
  unknown : Counted (s.acc.unknown.toNat + dueUnknown s.reader) (s.processed.countP (Unmapped c))
  blocking : s.reader = .blockingRead → s.deadline = false

variable {c} {s : System c.zones.length}

/-- The publisher's part of the invariant: no entry yet for the zones to come. -/
structure Swapping (s : System c.zones.length) : Prop where
  names : s.acc.zoneNames = nameOf c
  ahead : match s.publisher with
    | .idle => True
    | .swapSegs i counters | .swapRets i counters _ =>
      ∀ j, i ≤ j → counters.get (nameOf c j) = none

theorem swapping_start : Swapping (start c) := ⟨rfl, trivial⟩

/-- The counts of a snapshot in the making are in hand, those of a full one are taken. -/
theorem swappedOut_swapFrom (f : CounterSnapshot → U64) (hf : f ⟨0#64, 0#64⟩ = 0#64)
    (s : System c.zones.length) (k : ℕ) (counters : GoMap String CounterSnapshot)
    (i : Fin c.zones.length) :
    swappedOut c f (swapFrom c s k counters) i =
      (s.snapshots.map fun m => (f (deltaOf m (nameOf c i))).toNat).sum +
        (f (deltaOf counters (nameOf c i))).toNat := by
  unfold swapFrom
  split
  · rfl
  · simp [swappedOut, inHand, hf]

theorem swapFrom_frame (s : System c.zones.length) (k : ℕ)
    (counters : GoMap String CounterSnapshot) :
    (swapFrom c s k counters).acc = s.acc ∧ (swapFrom c s k counters).reader = s.reader ∧
      (swapFrom c s k counters).processed = s.processed ∧
        (swapFrom c s k counters).rawSample = s.rawSample ∧
          (swapFrom c s k counters).reads = s.reads ∧
            (swapFrom c s k counters).deadline = s.deadline := by
  unfold swapFrom
  split <;> exact ⟨rfl, rfl, rfl, rfl, rfl, rfl⟩

theorem swapping_swapFrom {k : ℕ} {counters : GoMap String CounterSnapshot}
    (hnames : s.acc.zoneNames = nameOf c)
    (h : ∀ j : Fin c.zones.length, k ≤ j.val → counters.get (nameOf c j) = none) :
    Swapping (swapFrom c s k counters) := by
  unfold swapFrom
  split
  · exact ⟨hnames, fun j hj => h j hj⟩
  · exact ⟨hnames, trivial⟩

theorem deltaOf_eq_zero {counters : GoMap String CounterSnapshot} {name : String}
    (h : counters.get name = none) : deltaOf counters name = ⟨0#64, 0#64⟩ := by
  simp [deltaOf, h]

theorem deltaOf_set (counters : GoMap String CounterSnapshot) (j i : Fin c.zones.length)
    (d : CounterSnapshot) : deltaOf (counters.set (nameOf c j) d) (nameOf c i) =
      if i = j then d else deltaOf counters (nameOf c i) := by
  unfold deltaOf
  rw [GoMap.get_set]
  by_cases hij : i = j
  · simp [hij]
  · rw [if_neg fun heq => hij (nameOf_injective c heq), if_neg hij]

theorem swapping_publisherStep (h : Swapping s) : Swapping (publisherStep c s) := by
  obtain ⟨hnames, hahead⟩ := h
  unfold publisherStep
  cases hpc : s.publisher with
  | idle => exact swapping_swapFrom hnames fun _ _ => rfl
  | swapSegs i counters =>
    rw [hpc] at hahead
    exact ⟨hnames, hahead⟩
  | swapRets i counters segs =>
    rw [hpc] at hahead
    apply swapping_swapFrom
    · exact hnames
    · intro j hj
      rw [hnames, GoMap.get_set, if_neg fun heq => ?_]
      · exact hahead j (Fin.le_def.mpr (by omega))
      · have hij := nameOf_injective c heq
        subst hij
        omega

/-- The publisher moves counts, and makes and loses none. -/
theorem total_publisherStep (h : Swapping s) (i : Fin c.zones.length) :
    totalSegs c (publisherStep c s) i = totalSegs c s i ∧
      totalRets c (publisherStep c s) i = totalRets c s i := by
  obtain ⟨hnames, hahead⟩ := h
  unfold publisherStep totalSegs totalRets
  cases hpc : s.publisher with
  | idle =>
    simp only [swappedOut_swapFrom, swapFrom_frame]
    simp [swappedOut, hpc, inHand, deltaOf]
  | swapSegs k counters =>
    rw [hpc] at hahead
    by_cases hik : i = k
    · subst hik
      have hnone := deltaOf_eq_zero (hahead i le_rfl)
      simp [swappedOut, hpc, inHand, hnone, Accumulator.clearSegs]
    · simp [swappedOut, hpc, inHand, hik, Accumulator.clearSegs]
  | swapRets k counters segs =>
    simp only [swappedOut_swapFrom, swapFrom_frame, hnames, deltaOf_set]
    by_cases hik : i = k
    · subst hik
      simp [swappedOut, hpc, inHand, Accumulator.clearRets]
    · simp [swappedOut, hpc, inHand, hik, Accumulator.clearRets]

/-- A step that processes no sample may move counts, but not change the totals. -/
theorem Accounted.of_totals_eq {s' : System c.zones.length} (h : Accounted c s)
    (hdue : (∀ i, dueSegs i s'.reader = dueSegs i s.reader) ∧
      (∀ i, dueRets i s'.reader = dueRets i s.reader) ∧
        dueUnknown s'.reader = dueUnknown s.reader)
    (htotal : ∀ i, totalSegs c s' i = totalSegs c s i ∧ totalRets c s' i = totalRets c s i)
    (hunknown : s'.acc.unknown = s.acc.unknown) (hprocessed : s'.processed = s.processed)
    (horder : s.processed ++ unprocessed c s' = samplesRead c s'.reads)
    (hblocking : s'.reader = .blockingRead → s'.deadline = false) : Accounted c s' := by
  constructor
  · rw [hprocessed]
    exact horder
  · intro i
    rw [(htotal i).1, hdue.1, hprocessed]
    exact h.segs i
  · intro i
    rw [(htotal i).2, hdue.2.1, hprocessed]
    exact h.rets i
  · rw [hunknown, hdue.2.2, hprocessed]
    exact h.unknown
  · exact hblocking

theorem accounted_publisherStep (hswap : Swapping s) (h : Accounted c s) :
    Accounted c (publisherStep c s) := by
  have hframe : (publisherStep c s).reader = s.reader ∧
      (publisherStep c s).processed = s.processed ∧
        (publisherStep c s).rawSample = s.rawSample ∧ (publisherStep c s).reads = s.reads ∧
          (publisherStep c s).deadline = s.deadline ∧
            (publisherStep c s).acc.unknown = s.acc.unknown := by
    unfold publisherStep
    cases s.publisher with
    | idle => simp [swapFrom_frame]
    | swapSegs i counters => exact ⟨rfl, rfl, rfl, rfl, rfl, rfl⟩
    | swapRets i counters segs => simp [swapFrom_frame, Accumulator.clearRets]
  obtain ⟨hreader, hprocessed, hraw, hreads, hdeadline, hunknown⟩ := hframe
  apply h.of_totals_eq
  · rw [hreader]
    exact ⟨fun _ => rfl, fun _ => rfl, rfl⟩
  · exact total_publisherStep hswap
  · exact hunknown
  · exact hprocessed
  · simpa only [unprocessed, hreader, hraw, hreads] using h.order
  · rw [hreader, hdeadline]
    exact h.blocking

theorem samplesRead_succ (reads : ℕ) :
    samplesRead c (reads + 1) = samplesRead c reads ++
      match c.outcomes reads with
      | .sample raw => [raw]
      | .failed .. => [] := by
  unfold samplesRead
  rw [List.range_succ, List.filterMap_append]
  cases hout : c.outcomes reads <;> simp [hout]

theorem idle_of_due {pc pc' : ReaderPc c.zones.length} (h : Idle pc) (h' : Idle pc') :
    (∀ i, dueSegs i pc' = dueSegs i pc) ∧ (∀ i, dueRets i pc' = dueRets i pc) ∧
      dueUnknown pc' = dueUnknown pc :=
  ⟨fun i => (h'.1 i).trans (h.1 i).symm, fun i => (h'.2.1 i).trans (h.2.1 i).symm,
    h'.2.2.trans h.2.2.symm⟩

/-- A read with no increment due leaves the counts, and brings the next sample or none. -/
theorem accounted_readInto {onError : ReadError → Bool → ReaderPc c.zones.length}
    (h : Accounted c s) (hidle : Idle s.reader) (hpc : s.reader ≠ .process)
    (herror : ∀ err ctxDone, Idle (onError err ctxDone) ∧ onError err ctxDone ≠ .process)
    (hblocking : ∀ err ctxDone, onError err ctxDone = .blockingRead → s.deadline = false) :
    Accounted c (readInto c s onError) := by
  have horder := h.order
  rw [unprocessed, if_neg hpc, List.append_nil] at horder
  have hsamples := samplesRead_succ (c := c) s.reads
  unfold readInto
  cases hout : c.outcomes s.reads with
  | sample raw =>
    have hprocess : Idle (.process : ReaderPc c.zones.length) :=
      ⟨fun _ => rfl, fun _ => rfl, rfl⟩
    apply h.of_totals_eq
    · exact idle_of_due hidle hprocess
    · exact fun _ => ⟨rfl, rfl⟩
    · rfl
    · rfl
    · rw [hout] at hsamples
      simp [unprocessed, hsamples, horder]
    · intro heq
      cases heq
  | failed err ctxDone left =>
    have hnext := herror err ctxDone
    apply h.of_totals_eq
    · exact idle_of_due hidle hnext.1
    · exact fun _ => ⟨rfl, rfl⟩
    · rfl
    · rfl
    · rw [hout] at hsamples
      simp [unprocessed, hsamples, horder, hnext.2]
    · exact hblocking err ctxDone

/-- Processing a sample makes its increments due. -/
theorem accounted_process (h : Accounted c s) (hpc : s.reader = .process) :
    Accounted c { s with
      processed := s.processed ++ [s.rawSample], reader := afterParse c s.rawSample } := by
  obtain ⟨hsegs, hrets, hunknown⟩ := due_afterParse c s.rawSample
  have hnext : afterParse c s.rawSample ≠ .process ∧ afterParse c s.rawSample ≠ .blockingRead := by
    unfold afterParse
    split <;> simp
  constructor
  · have horder := h.order
    rw [unprocessed, if_pos hpc] at horder
    simpa [unprocessed, hnext.1] using horder
  · intro i
    have hold := h.segs i
    rw [hpc] at hold
    show Counted (totalSegs c s i + dueSegs i (afterParse c s.rawSample)) _
    rw [hsegs]
    exact hold.process _
  · intro i
    have hold := h.rets i
    rw [hpc] at hold
    show Counted (totalRets c s i + dueRets i (afterParse c s.rawSample)) _
    rw [hrets]
    exact hold.process _
  · have hold := h.unknown
    rw [hpc] at hold
    show Counted (s.acc.unknown.toNat + dueUnknown (afterParse c s.rawSample)) _
    rw [hunknown]
    exact hold.process _
  · intro heq
    exact absurd heq hnext.2

theorem accounted_addSeg (h : Accounted c s) {idx : Fin c.zones.length} {isRetrans : Bool}
    (hpc : s.reader = .addSeg idx isRetrans) :
    Accounted c { s with
      acc := s.acc.addSeg idx, reader := if isRetrans then .addRet idx else .setDeadline } := by
  constructor
  · have horder := h.order
    rw [unprocessed, if_neg (by simp [hpc])] at horder
    cases isRetrans <;> simpa [unprocessed] using horder
  · intro i
    have hold := h.segs i
    have hdue : dueSegs i (if isRetrans then .addRet idx else .setDeadline) = 0 := by
      cases isRetrans <;> rfl
    show Counted (swappedOut c CounterSnapshot.segments s i + ((s.acc.addSeg idx).segs i).toNat +
      dueSegs i (if isRetrans then .addRet idx else .setDeadline)) _
    rw [hdue, Nat.add_zero]
    by_cases hi : idx = i
    · subst hi
      simp only [hpc, dueSegs, if_true] at hold
      simpa only [Accumulator.addSeg, Function.update_self] using hold.add
    · simp only [hpc, dueSegs, if_neg hi, Nat.add_zero, totalSegs] at hold
      simpa only [Accumulator.addSeg, Function.update_of_ne (Ne.symm hi)] using hold
  · intro i
    have hdue : dueRets i (if isRetrans then .addRet idx else .setDeadline) =
        dueRets i s.reader := by
      rw [hpc]
      cases isRetrans <;> simp [dueRets]
    show Counted (totalRets c s i + dueRets i (if isRetrans then .addRet idx else .setDeadline)) _
    rw [hdue]
    exact h.rets i
  · have hold := h.unknown
    rw [hpc] at hold
    cases isRetrans <;> exact hold
  · cases isRetrans <;> simp

theorem accounted_addRet (h : Accounted c s) {idx : Fin c.zones.length}
    (hpc : s.reader = .addRet idx) :
    Accounted c { s with acc := s.acc.addRet idx, reader := .setDeadline } := by
  constructor
  · have horder := h.order
    rw [unprocessed, if_neg (by simp [hpc])] at horder
    simpa [unprocessed] using horder
  · intro i
    have hold := h.segs i
    rw [hpc] at hold
    exact hold
  · intro i
    have hold := h.rets i
    show Counted (swappedOut c CounterSnapshot.retrans s i + ((s.acc.addRet idx).rets i).toNat) _
    by_cases hi : idx = i
    · subst hi
      simp only [hpc, dueRets, if_true] at hold
      simpa only [Accumulator.addRet, Function.update_self] using hold.add
    · simp only [hpc, dueRets, if_neg hi, Nat.add_zero, totalRets] at hold
      simpa only [Accumulator.addRet, Function.update_of_ne (Ne.symm hi)] using hold
  · have hold := h.unknown
    rw [hpc] at hold
    exact hold
  · simp

theorem accounted_addUnknown (h : Accounted c s) (hpc : s.reader = .addUnknown) :
    Accounted c { s with acc := s.acc.addUnknown, reader := .setDeadline } := by
  constructor
  · have horder := h.order
    rw [unprocessed, if_neg (by simp [hpc])] at horder
    simpa [unprocessed] using horder
  · intro i
    have hold := h.segs i
    rw [hpc] at hold
    exact hold
  · intro i
    have hold := h.rets i
    rw [hpc] at hold
    exact hold
  · have hold := h.unknown
    rw [hpc, dueUnknown, ← Nat.zero_add s.acc.unknown.toNat] at hold
    simpa [Accumulator.addUnknown, dueUnknown] using hold.add
  · simp

/-- Setting the deadline or clearing it leaves the counts. -/
theorem accounted_deadline (h : Accounted c s) (hidle : Idle s.reader)
    (hpc : s.reader ≠ .process) {pc : ReaderPc c.zones.length} {deadline : Bool}
    (hnext : Idle pc ∧ pc ≠ .process) (hblocking : pc = .blockingRead → deadline = false) :
    Accounted c { s with deadline := deadline, reader := pc } := by
  apply h.of_totals_eq
  · exact idle_of_due hidle hnext.1
  · exact fun _ => ⟨rfl, rfl⟩
  · rfl
  · rfl
  · have horder := h.order
    rw [unprocessed, if_neg hpc] at horder
    simpa [unprocessed, hnext.2] using horder
  · exact hblocking

theorem accounted_readerStep (h : Accounted c s) : Accounted c (readerStep c s) := by
  unfold readerStep
  cases hpc : s.reader with
  | blockingRead =>
    apply accounted_readInto h
    · rw [hpc]
      exact ⟨fun _ => rfl, fun _ => rfl, rfl⟩
    · simp [hpc]
    · intro err ctxDone
      refine ⟨idle_afterBlockingError c err ctxDone, ?_⟩
      unfold afterBlockingError
      split <;> simp
    · intro err ctxDone _
      exact h.blocking hpc
  | process => exact accounted_process h hpc
  | addUnknown => exact accounted_addUnknown h hpc
  | addSeg idx isRetrans => exact accounted_addSeg h hpc
  | addRet idx => exact accounted_addRet h hpc
  | setDeadline =>
    apply accounted_deadline h
    · rw [hpc]
      exact ⟨fun _ => rfl, fun _ => rfl, rfl⟩
    · simp [hpc]
    · exact ⟨⟨fun _ => rfl, fun _ => rfl, rfl⟩, by simp⟩
    · simp
  | drainRead =>
    apply accounted_readInto h
    · rw [hpc]
      exact ⟨fun _ => rfl, fun _ => rfl, rfl⟩
    · simp [hpc]
    · intro err ctxDone
      refine ⟨idle_afterDrainError c err ctxDone, ?_⟩
      unfold afterDrainError
      repeat' split
      all_goals simp
    · intro err ctxDone
      unfold afterDrainError
      repeat' split
      all_goals simp
  | clearDeadline =>
    apply accounted_deadline h
    · rw [hpc]
      exact ⟨fun _ => rfl, fun _ => rfl, rfl⟩
    · simp [hpc]
    · exact ⟨⟨fun _ => rfl, fun _ => rfl, rfl⟩, by simp⟩
    · simp
  | stopped => exact h

theorem swapping_readerStep (h : Swapping s) : Swapping (readerStep c s) := by
  obtain ⟨hnames, hahead⟩ := h
  unfold readerStep
  cases s.reader with
  | blockingRead =>
    simp only [readInto]
    split <;> exact ⟨hnames, hahead⟩
  | drainRead =>
    simp only [readInto]
    split <;> exact ⟨hnames, hahead⟩
  | process => exact ⟨hnames, hahead⟩
  | addUnknown => exact ⟨hnames, hahead⟩
  | addSeg idx isRetrans => exact ⟨hnames, hahead⟩
  | addRet idx => exact ⟨hnames, hahead⟩
  | setDeadline => exact ⟨hnames, hahead⟩
  | clearDeadline => exact ⟨hnames, hahead⟩
  | stopped => exact ⟨hnames, hahead⟩

variable (c)

theorem accounted_start : Accounted c (start c) where
  order := rfl
  segs := fun _ => ⟨0, by simp [totalSegs, swappedOut, start, inHand, dueSegs, newAccumulator]⟩
  rets := fun _ => ⟨0, by simp [totalRets, swappedOut, start, inHand, dueRets, newAccumulator]⟩
  unknown := ⟨0, by simp [start, dueUnknown, newAccumulator]⟩
  blocking := fun _ => rfl

theorem accounted_run (sched : List Party) :
    Swapping (run (step c) (start c) sched) ∧ Accounted c (run (step c) (start c) sched) := by
  apply invariant_run (I := fun s => Swapping s ∧ Accounted c s)
  · exact ⟨swapping_start, accounted_start c⟩
  · intro s a h
    cases a with
    | reader => exact ⟨swapping_readerStep h.1, accounted_readerStep h.2⟩
    | publisher => exact ⟨swapping_publisherStep h.1, accounted_publisherStep h.1 h.2⟩

/-- The accounts of a state: exact as long as fewer than `2 ^ 64` samples were
read, and always modulo `2 ^ 64`. -/
structure Accounts (s : System c.zones.length) : Prop where
  order : s.processed ++ unprocessed c s = samplesRead c s.reads
  segs_mod : ∀ i, (totalSegs c s i + dueSegs i s.reader) % 2 ^ 64 =
    s.processed.countP (OfZone c i) % 2 ^ 64
  rets_mod : ∀ i, (totalRets c s i + dueRets i s.reader) % 2 ^ 64 =
    s.processed.countP (RetransOfZone c i) % 2 ^ 64
  unknown_mod : (s.acc.unknown.toNat + dueUnknown s.reader) % 2 ^ 64 =
    s.processed.countP (Unmapped c) % 2 ^ 64
  exact : (samplesRead c s.reads).length < 2 ^ 64 →
    (∀ i, totalSegs c s i + dueSegs i s.reader = s.processed.countP (OfZone c i)) ∧
      (∀ i, totalRets c s i + dueRets i s.reader = s.processed.countP (RetransOfZone c i)) ∧
        s.acc.unknown.toNat + dueUnknown s.reader = s.processed.countP (Unmapped c)
  blocking : s.reader = .blockingRead → s.deadline = false

theorem accounts_of_accounted {s : System c.zones.length} (h : Accounted c s) : Accounts c s := by
  have hle : ∀ (p : List U8 → Prop) [DecidablePred p],
      s.processed.countP p ≤ (samplesRead c s.reads).length := by
    intro p _
    rw [← h.order, List.length_append]
    exact List.countP_le_length.trans (Nat.le_add_right _ _)
  refine ⟨h.order, fun i => (h.segs i).mod, fun i => (h.rets i).mod, h.unknown.mod, ?_, h.blocking⟩
  intro hlt
  exact ⟨fun i => (h.segs i).eq_of_lt ((hle _).trans_lt hlt),
    fun i => (h.rets i).eq_of_lt ((hle _).trans_lt hlt), h.unknown.eq_of_lt ((hle _).trans_lt hlt)⟩

/-- Whatever the reads return and in whatever order the two take their steps,
every sample is accounted for in every state. -/
theorem samples_accounted_for (sched : List Party) :
    Throughout (step c) (Accounts c) (start c) sched := by
  intro pre _ _
  exact accounts_of_accounted c (accounted_run c pre).2

end PacketLoss.ExactlyOnce
