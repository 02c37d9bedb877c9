import PacketLoss.ExactlyOnce
import PacketLoss.LossPercent
import PacketLoss.ZoneClassification
import Mathlib.Algebra.Order.BigOperators.Group.List

/-!
What the publisher hands out. An event adds to `segs` and then to `rets`, and a
snapshot swaps `segs` and then `rets`, so a snapshot can get the retransmit of an
event and not its segment. It has no more retransmits than segments if the same
snapshot takes both additions of every event.
-/
namespace PacketLoss.PublishedLoss

open Machine ZoneConfig Counters EmaStore Schedules Polling ExactlyOnce SlidingWindow
  WindowHistory LossPercent

variable (c : Setup)

/-- The snapshot that will take an addition to `segs` of zone `i` made now. -/
def segsTaker (s : System c.zones.length) (i : Fin c.zones.length) : ℕ :=
  match s.publisher with
  | .idle => s.snapshots.length
  | .swapSegs j _ => if i < j then s.snapshots.length + 1 else s.snapshots.length
  | .swapRets j _ _ => if i ≤ j then s.snapshots.length + 1 else s.snapshots.length

/-- The snapshot that will take an addition to `rets` of zone `i` made now. -/
def retsTaker (s : System c.zones.length) (i : Fin c.zones.length) : ℕ :=
  match s.publisher with
  | .idle => s.snapshots.length
  | .swapSegs j _ | .swapRets j _ _ =>
    if i < j then s.snapshots.length + 1 else s.snapshots.length

/-- The system, and the snapshot that takes the last segment that was added. -/
structure Traced (n : ℕ) where
  sys : System n
  taker : ℕ

def tracedStart : Traced c.zones.length := ⟨start c, 0⟩

def tracedStep (t : Traced c.zones.length) (a : Party) : Traced c.zones.length where
  sys := step c t.sys a
  taker :=
    match a, t.sys.reader with
    | .reader, .addSeg idx _ => segsTaker c t.sys idx
    | _, _ => t.taker

/-- The retransmit of an event is added for the snapshot that takes its segment. -/
def SameSnapshot (t : Traced c.zones.length) (a : Party) : Prop :=
  match a, t.sys.reader with
  | .reader, .addRet idx => retsTaker c t.sys idx = t.taker
  | _, _ => True

theorem sys_run (t : Traced c.zones.length) (sched : List Party) :
    (run (tracedStep c) t sched).sys = run (step c) t.sys sched := by
  induction sched generalizing t with
  | nil => rfl
  | cons a sched ih => exact ih (tracedStep c t a)

/-- The segments that the snapshot which takes the retransmits of zone `i` has of it. -/
def segsFor (s : System c.zones.length) (i : Fin c.zones.length) : ℕ :=
  match s.publisher with
  | .swapRets j _ segs => if i = j then segs.toNat else (s.acc.segs i).toNat
  | _ => (s.acc.segs i).toNat

/-- The part of a snapshot that has been made. -/
def partOf {n : ℕ} : PublisherPc n → GoMap String CounterSnapshot
  | .idle => .empty
  | .swapSegs _ counters | .swapRets _ counters _ => counters

/-- A retransmit of zone `i` that is to be added, for the given snapshot. -/
def dueFor (t : Traced c.zones.length) (i : Fin c.zones.length) (taker : ℕ) : ℕ :=
  match t.sys.reader with
  | .addRet idx => if idx = i ∧ t.taker = taker then 1 else 0
  | _ => 0

/-- No snapshot has more retransmits than segments, nor will it if the
retransmits to come are those of segments that were added. -/
structure Paired (t : Traced c.zones.length) : Prop where
  taken : ∀ m ∈ t.sys.snapshots, ∀ i,
    (deltaOf m (nameOf c i)).retrans.toNat ≤ (deltaOf m (nameOf c i)).segments.toNat
  partly : ∀ i, (deltaOf (partOf t.sys.publisher) (nameOf c i)).retrans.toNat ≤
    (deltaOf (partOf t.sys.publisher) (nameOf c i)).segments.toNat
  earlier : ∀ i, (t.sys.acc.rets i).toNat + dueFor c t i (retsTaker c t.sys i) ≤ segsFor c t.sys i
  later : ∀ i, dueFor c t i (segsTaker c t.sys i) ≤ (t.sys.acc.segs i).toNat
  tag : ∀ idx, t.sys.reader = .addRet idx → t.taker ≤ segsTaker c t.sys idx

variable {c}

theorem taker_swapFrom (s : System c.zones.length) (k : ℕ) (m : GoMap String CounterSnapshot)
    (i : Fin c.zones.length) :
    segsTaker c (swapFrom c s k m) i =
        (if i.val < k then s.snapshots.length + 1 else s.snapshots.length) ∧
      retsTaker c (swapFrom c s k m) i =
        (if i.val < k then s.snapshots.length + 1 else s.snapshots.length) ∧
      segsFor c (swapFrom c s k m) i = (s.acc.segs i).toNat := by
  have hi := i.isLt
  unfold swapFrom
  by_cases hk : k < c.zones.length
  · simp only [dif_pos hk, segsTaker, retsTaker, segsFor, Fin.lt_def, and_self]
  · have hlt : i.val < k := by omega
    simp [hk, segsTaker, retsTaker, segsFor, hlt]

/-- The loop of a snapshot goes on at zone `k`. -/
theorem paired_swapFrom {t : Traced c.zones.length} {k : ℕ} {m : GoMap String CounterSnapshot}
    (htaken : ∀ m ∈ t.sys.snapshots, ∀ i,
      (deltaOf m (nameOf c i)).retrans.toNat ≤ (deltaOf m (nameOf c i)).segments.toNat)
    (hpart : ∀ i,
      (deltaOf m (nameOf c i)).retrans.toNat ≤ (deltaOf m (nameOf c i)).segments.toNat)
    (hearlier : ∀ i, (t.sys.acc.rets i).toNat +
      dueFor c t i (if i.val < k then t.sys.snapshots.length + 1 else t.sys.snapshots.length) ≤
        (t.sys.acc.segs i).toNat)
    (htag : ∀ idx, t.sys.reader = .addRet idx →
      t.taker ≤ if idx.val < k then t.sys.snapshots.length + 1 else t.sys.snapshots.length) :
    Paired c ⟨swapFrom c t.sys k m, t.taker⟩ := by
  have hdue : ∀ i taker, dueFor c ⟨swapFrom c t.sys k m, t.taker⟩ i taker = dueFor c t i taker := by
    intro i taker
    simp only [dueFor, swapFrom_frame]
  constructor
  · intro m' hm'
    unfold swapFrom at hm'
    split at hm'
    · exact htaken m' hm'
    · rcases List.mem_append.mp hm' with hm' | hm'
      · exact htaken m' hm'
      · rw [List.mem_singleton.mp hm']
        exact hpart
  · intro i
    by_cases hk : k < c.zones.length
    · simpa only [swapFrom, dif_pos hk, partOf] using hpart i
    · simp [swapFrom, hk, partOf, deltaOf]
  · intro i
    rw [hdue, (taker_swapFrom _ _ _ i).2.1, (taker_swapFrom _ _ _ i).2.2]
    simpa only [swapFrom_frame] using hearlier i
  · intro i
    have hle := hearlier i
    rw [hdue, (taker_swapFrom _ _ _ i).1]
    simp only [swapFrom_frame]
    omega
  · intro idx hidx
    simp only [swapFrom_frame] at hidx
    rw [(taker_swapFrom _ _ _ idx).1]
    exact htag idx hidx

/-- A segment that was added before goes to an earlier snapshot. -/
theorem dueFor_of_lt {t : Traced c.zones.length} {i : Fin c.zones.length} {taker : ℕ}
    (h : t.sys.reader = .addRet i → t.taker < taker) : dueFor c t i taker = 0 := by
  unfold dueFor
  split
  · rename_i idx hidx
    apply if_neg
    intro hsame
    rw [hsame.1] at hidx
    have hlt := h hidx
    omega
  · rfl

/-- Once its segments are taken, those of zone `k` count for its retransmits. -/
theorem paired_swapSegs {t : Traced c.zones.length} (h : Paired c t) {k : Fin c.zones.length}
    {m : GoMap String CounterSnapshot} (hpc : t.sys.publisher = .swapSegs k m) :
    Paired c ⟨{ t.sys with
      acc := t.sys.acc.clearSegs k, publisher := .swapRets k m (t.sys.acc.segs k) }, t.taker⟩ := by
  obtain ⟨htaken, hpart, hearlier, hlater, htag⟩ := h
  simp only [hpc, segsTaker, retsTaker, segsFor, partOf] at hearlier hlater htag hpart
  constructor
  · exact htaken
  · exact hpart
  · intro i
    have hle := hearlier i
    by_cases hik : i = k
    · subst hik
      simpa [retsTaker, segsFor, dueFor, Accumulator.clearSegs] using hle
    · simpa [retsTaker, segsFor, dueFor, Accumulator.clearSegs, hik] using hle
  · intro i
    have hle := hlater i
    by_cases hik : i = k
    · subst hik
      rw [dueFor_of_lt]
      · exact Nat.zero_le _
      · intro hreader
        have htaker := htag i hreader
        simp only [lt_irrefl, if_false] at htaker
        simp only [segsTaker, le_refl, if_true]
        omega
    · have hiff : i ≤ k ↔ i < k := Ne.le_iff_lt hik
      simpa [segsTaker, dueFor, Accumulator.clearSegs, hik, hiff] using hle
  · intro idx hidx
    have htaker := htag idx hidx
    simp only [segsTaker]
    have hmono : idx < k → idx ≤ k := le_of_lt
    split at htaker <;> split <;> omega

/-- The snapshot gets both counts of zone `k`, and the loop goes on. -/
theorem paired_swapRets {t : Traced c.zones.length} (hnames : t.sys.acc.zoneNames = nameOf c)
    (h : Paired c t) {k : Fin c.zones.length} {m : GoMap String CounterSnapshot} {segs : U64}
    (hpc : t.sys.publisher = .swapRets k m segs) :
    Paired c ⟨swapFrom c { t.sys with acc := t.sys.acc.clearRets k } (k + 1)
      (m.set (t.sys.acc.zoneNames k) ⟨segs, t.sys.acc.rets k⟩), t.taker⟩ := by
  obtain ⟨htaken, hpart, hearlier, hlater, htag⟩ := h
  simp only [hpc, segsTaker, retsTaker, segsFor, partOf] at hearlier hlater htag hpart
  have hnext : ∀ i : Fin c.zones.length, i ≤ k ↔ i.val < k.val + 1 := fun i =>
    Fin.le_def.trans Nat.lt_succ_iff.symm
  apply paired_swapFrom (t := { t with sys := { t.sys with acc := t.sys.acc.clearRets k } })
  · exact htaken
  · intro i
    rw [hnames, deltaOf_set]
    by_cases hik : i = k
    · subst hik
      have hle := hearlier i
      simp only [if_true] at hle ⊢
      omega
    · rw [if_neg hik]
      exact hpart i
  · intro i
    simp only [← hnext]
    by_cases hik : i = k
    · subst hik
      have hle := hlater i
      simpa [dueFor, Accumulator.clearRets] using hle
    · have hle := hearlier i
      have hiff : i ≤ k ↔ i < k := Ne.le_iff_lt hik
      simpa [dueFor, Accumulator.clearRets, hik, hiff] using hle
  · intro idx hidx
    simp only [← hnext]
    exact htag idx hidx

theorem paired_publisherStep {t : Traced c.zones.length} (hswap : Swapping t.sys)
    (h : Paired c t) : Paired c (tracedStep c t .publisher) := by
  show Paired c ⟨publisherStep c t.sys, t.taker⟩
  unfold publisherStep
  cases hpc : t.sys.publisher with
  | idle =>
    obtain ⟨htaken, -, hearlier, -, htag⟩ := h
    simp only [hpc, segsTaker, retsTaker, segsFor] at hearlier htag
    apply paired_swapFrom htaken
    · intro i
      simp [deltaOf]
    · simpa using hearlier
    · simpa using htag
  | swapSegs k m => exact paired_swapSegs h hpc
  | swapRets k m segs => exact paired_swapRets hswap.names h hpc

/-- A step of the reader that adds nothing for a zone. -/
theorem readerStep_quiet {s : System c.zones.length}
    (hseg : ∀ idx isRetrans, s.reader ≠ .addSeg idx isRetrans)
    (hret : ∀ idx, s.reader ≠ .addRet idx) :
    (readerStep c s).acc.segs = s.acc.segs ∧ (readerStep c s).acc.rets = s.acc.rets ∧
      (readerStep c s).publisher = s.publisher ∧ (readerStep c s).snapshots = s.snapshots ∧
        ∀ idx, (readerStep c s).reader ≠ .addRet idx := by
  unfold readerStep
  cases hpc : s.reader with
  | blockingRead =>
    simp only [readInto]
    split
    · exact ⟨rfl, rfl, rfl, rfl, by simp⟩
    · refine ⟨rfl, rfl, rfl, rfl, ?_⟩
      simp only [afterBlockingError]
      split <;> simp
  | process =>
    refine ⟨rfl, rfl, rfl, rfl, ?_⟩
    simp only [afterParse]
    split <;> simp
  | addUnknown => exact ⟨rfl, rfl, rfl, rfl, by simp⟩
  | addSeg idx isRetrans => exact absurd hpc (hseg idx isRetrans)
  | addRet idx => exact absurd hpc (hret idx)
  | setDeadline => exact ⟨rfl, rfl, rfl, rfl, by simp⟩
  | drainRead =>
    simp only [readInto]
    split
    · exact ⟨rfl, rfl, rfl, rfl, by simp⟩
    · refine ⟨rfl, rfl, rfl, rfl, ?_⟩
      simp only [afterDrainError]
      repeat' split
      all_goals simp
  | clearDeadline => exact ⟨rfl, rfl, rfl, rfl, by simp⟩
  | stopped => exact ⟨rfl, rfl, rfl, rfl, by simp [hpc]⟩

theorem paired_quiet {t : Traced c.zones.length} (h : Paired c t)
    (hseg : ∀ idx isRetrans, t.sys.reader ≠ .addSeg idx isRetrans)
    (hret : ∀ idx, t.sys.reader ≠ .addRet idx) : Paired c (tracedStep c t .reader) := by
  obtain ⟨htaken, hpart, hearlier, hlater, htag⟩ := h
  obtain ⟨hsegs, hrets, hpublisher, hsnapshots, hreader⟩ := readerStep_quiet hseg hret
  have hdue : ∀ i taker, dueFor c (tracedStep c t .reader) i taker = 0 := fun i _ =>
    dueFor_of_lt fun heq => absurd heq (hreader i)
  constructor
  · simpa only [tracedStep, step, hsnapshots] using htaken
  · simpa only [tracedStep, step, hpublisher] using hpart
  · intro i
    have hle := hearlier i
    rw [hdue]
    simp only [tracedStep, step, segsFor, hrets, hsegs, hpublisher] at hle ⊢
    omega
  · intro i
    rw [hdue]
    exact Nat.zero_le _
  · intro idx hidx
    exact absurd hidx (hreader idx)

theorem toNat_segs_addSeg {acc : Accumulator c.zones.length} {idx : Fin c.zones.length}
    (hroom : (acc.segs idx).toNat + 1 < 2 ^ 64) :
    ((acc.addSeg idx).segs idx).toNat = (acc.segs idx).toNat + 1 := by
  simp only [Accumulator.addSeg, Function.update_self, BitVec.toNat_add]
  exact Nat.mod_eq_of_lt hroom

/-- A segment added for the same snapshot makes room for its retransmit. -/
theorem segsFor_addSeg {s : System c.zones.length} {idx : Fin c.zones.length}
    (hroom : (s.acc.segs idx).toNat + 1 < 2 ^ 64) (pc : ReaderPc c.zones.length)
    (i : Fin c.zones.length) :
    segsFor c s i + (if idx = i ∧ segsTaker c s idx = retsTaker c s i then 1 else 0) ≤
      segsFor c { s with acc := s.acc.addSeg idx, reader := pc } i := by
  have hadd := toNat_segs_addSeg hroom
  by_cases hi : idx = i
  · subst hi
    cases hpc : s.publisher with
    | idle => simp [segsFor, hpc, hadd, segsTaker, retsTaker]
    | swapSegs j m => simp [segsFor, hpc, hadd, segsTaker, retsTaker]
    | swapRets j m segs =>
      by_cases hj : idx = j
      · subst hj
        simp [segsFor, hpc, segsTaker, retsTaker]
      · simp only [segsFor, hpc, if_neg hj, hadd]
        split <;> omega
  · simp [segsFor, hi, Accumulator.addSeg, Function.update_of_ne (Ne.symm hi)]

theorem paired_addSeg {t : Traced c.zones.length} (h : Paired c t) {idx : Fin c.zones.length}
    {isRetrans : Bool} (hpc : t.sys.reader = .addSeg idx isRetrans)
    (hroom : (t.sys.acc.segs idx).toNat + 1 < 2 ^ 64) :
    Paired c ⟨{ t.sys with
      acc := t.sys.acc.addSeg idx, reader := if isRetrans then .addRet idx else .setDeadline },
        segsTaker c t.sys idx⟩ := by
  obtain ⟨htaken, hpart, hearlier, hlater, htag⟩ := h
  have hdue : ∀ i taker, dueFor c ⟨{ t.sys with
      acc := t.sys.acc.addSeg idx, reader := if isRetrans then .addRet idx else .setDeadline },
        segsTaker c t.sys idx⟩ i taker ≤
          if idx = i ∧ segsTaker c t.sys idx = taker then 1 else 0 := by
    intro i taker
    cases isRetrans <;> simp [dueFor]
  constructor
  · exact htaken
  · exact hpart
  · intro i
    have hle := hearlier i
    have hsegs := segsFor_addSeg hroom (if isRetrans then .addRet idx else .setDeadline) i
    refine (Nat.add_le_add_left (hdue i (retsTaker c t.sys i)) _).trans (le_trans ?_ hsegs)
    show (t.sys.acc.rets i).toNat + _ ≤ _
    omega
  · intro i
    refine (hdue i _).trans ?_
    by_cases hi : idx = i
    · subst hi
      have hsegs := toNat_segs_addSeg hroom
      have hone : ∀ (p : Prop) [Decidable p], (if p then 1 else 0) ≤ 1 := by
        intro p _
        split <;> omega
      exact (hone _).trans (hsegs ▸ Nat.le_add_left 1 _)
    · simp [hi]
  · intro idx' hidx'
    have heq : idx' = idx := by
      cases isRetrans
      · simp at hidx'
      · simpa using hidx'.symm
    subst heq
    exact le_rfl

theorem paired_addRet {t : Traced c.zones.length} (h : Paired c t) {idx : Fin c.zones.length}
    (hpc : t.sys.reader = .addRet idx) (hsame : retsTaker c t.sys idx = t.taker) :
    Paired c ⟨{ t.sys with acc := t.sys.acc.addRet idx, reader := .setDeadline }, t.taker⟩ := by
  obtain ⟨htaken, hpart, hearlier, hlater, htag⟩ := h
  constructor
  · exact htaken
  · exact hpart
  · intro i
    have hle := hearlier i
    show ((t.sys.acc.addRet idx).rets i).toNat + 0 ≤ segsFor c t.sys i
    by_cases hi : idx = i
    · subst hi
      have hdue : dueFor c t idx (retsTaker c t.sys idx) = 1 := by
        simp [dueFor, hpc, hsame]
      rw [hdue] at hle
      simp only [Accumulator.addRet, Function.update_self, BitVec.toNat_add]
      have hmod := Nat.mod_le ((t.sys.acc.rets idx).toNat + (1#64).toNat) (2 ^ 64)
      have hone : (1#64).toNat = 1 := rfl
      omega
    · simp only [Accumulator.addRet, Function.update_of_ne (Ne.symm hi)]
      omega
  · intro i
    exact Nat.zero_le _
  · intro idx' hidx'
    cases hidx'

theorem paired_readerStep {t : Traced c.zones.length} (h : Paired c t)
    (hsame : SameSnapshot c t .reader)
    (hroom : ∀ idx isRetrans, t.sys.reader = .addSeg idx isRetrans →
      (t.sys.acc.segs idx).toNat + 1 < 2 ^ 64) : Paired c (tracedStep c t .reader) := by
  by_cases hseg : ∃ idx isRetrans, t.sys.reader = .addSeg idx isRetrans
  · obtain ⟨idx, isRetrans, hpc⟩ := hseg
    have hnext : tracedStep c t .reader = ⟨{ t.sys with
        acc := t.sys.acc.addSeg idx
        reader := if isRetrans then .addRet idx else .setDeadline }, segsTaker c t.sys idx⟩ := by
      simp only [tracedStep, step, readerStep, hpc]
    rw [hnext]
    exact paired_addSeg h hpc (hroom idx isRetrans hpc)
  by_cases hret : ∃ idx, t.sys.reader = .addRet idx
  · obtain ⟨idx, hpc⟩ := hret
    have hnext : tracedStep c t .reader =
        ⟨{ t.sys with acc := t.sys.acc.addRet idx, reader := .setDeadline }, t.taker⟩ := by
      simp only [tracedStep, step, readerStep, hpc]
    rw [hnext]
    simp only [SameSnapshot, hpc] at hsame
    exact paired_addRet h hpc hsame
  · push Not at hseg hret
    exact paired_quiet h hseg hret

theorem reads_le_step (s : System c.zones.length) (a : Party) : s.reads ≤ (step c s a).reads := by
  cases a with
  | reader =>
    show s.reads ≤ (readerStep c s).reads
    unfold readerStep
    split
    case h_1 =>
      simp only [readInto]
      split <;> exact Nat.le_succ _
    case h_7 =>
      simp only [readInto]
      split <;> exact Nat.le_succ _
    all_goals exact le_rfl
  | publisher =>
    show s.reads ≤ (publisherStep c s).reads
    unfold publisherStep
    split
    · simp only [swapFrom_frame, le_refl]
    · exact le_rfl
    · simp only [swapFrom_frame, le_refl]

theorem reads_le_run (s : System c.zones.length) (sched : List Party) :
    s.reads ≤ (run (step c) s sched).reads := by
  apply invariant_run (I := fun s' : System c.zones.length => s.reads ≤ s'.reads) le_rfl
  intro s' a h
  exact h.trans (reads_le_step s' a)

/-- Every count is at most the number of reads. -/
theorem count_le_reads {s : System c.zones.length} (h : Accounted c s) (p : List U8 → Prop)
    [DecidablePred p] : s.processed.countP p ≤ s.reads := by
  have hlength : s.processed.length ≤ (samplesRead c s.reads).length := by
    rw [← h.order, List.length_append]
    exact Nat.le_add_right _ _
  have hreads : (samplesRead c s.reads).length ≤ s.reads := by
    simpa [samplesRead] using List.length_filterMap_le _ (List.range s.reads)
  exact List.countP_le_length.trans (hlength.trans hreads)

theorem total_le_reads {s : System c.zones.length} (h : Accounted c s) (hreads : s.reads < 2 ^ 64)
    (i : Fin c.zones.length) : totalSegs c s i + dueSegs i s.reader ≤ s.reads ∧
      totalRets c s i + dueRets i s.reader ≤ s.reads := by
  have hsegs := count_le_reads h (OfZone c i)
  have hrets := count_le_reads h (RetransOfZone c i)
  rw [(h.segs i).eq_of_lt (by omega), (h.rets i).eq_of_lt (by omega)]
  exact ⟨hsegs, hrets⟩

/-- What holds along a schedule that adds every event for one snapshot. -/
theorem paired_run {sched : List Party}
    (h : Meets (tracedStep c) (SameSnapshot c) (tracedStart c) sched) :
    let t := run (tracedStep c) (tracedStart c) sched
    Swapping t.sys ∧ Accounted c t.sys ∧ (t.sys.reads < 2 ^ 64 → Paired c t) := by
  apply invariant_of_meets
    (I := fun t => Swapping t.sys ∧ Accounted c t.sys ∧ (t.sys.reads < 2 ^ 64 → Paired c t)) _ _ h
  · refine ⟨swapping_start, accounted_start c, fun _ => ?_⟩
    constructor
    · simp [tracedStart, start]
    · simp [tracedStart, start, partOf, deltaOf]
    · simp [tracedStart, start, newAccumulator, dueFor]
    · simp [tracedStart, start, dueFor]
    · simp [tracedStart, start]
  · intro t a hinv hsame
    obtain ⟨hswap, hacc, hpaired⟩ := hinv
    have hbefore : (tracedStep c t a).sys.reads < 2 ^ 64 → t.sys.reads < 2 ^ 64 :=
      (reads_le_step t.sys a).trans_lt
    cases a with
    | reader =>
      refine ⟨swapping_readerStep hswap, accounted_readerStep hacc, fun hreads => ?_⟩
      apply paired_readerStep (hpaired (hbefore hreads)) hsame
      intro idx isRetrans hpc
      have htotal := (total_le_reads hacc (hbefore hreads) idx).1
      simp only [hpc, dueSegs, if_true, totalSegs] at htotal
      have hlt := hbefore hreads
      omega
    | publisher =>
      refine ⟨swapping_publisherStep hswap, accounted_publisherStep hswap hacc, fun hreads => ?_⟩
      exact paired_publisherStep hswap (hpaired (hbefore hreads))

/-- The updates that the snapshots cause, at any times. -/
def pollsOf (times : ℕ → Time) (snapshots : List (GoMap String CounterSnapshot)) : List Poll :=
  snapshots.zipIdx.map fun p => ⟨times p.2, p.1⟩

theorem samplesOf_pollsOf (times : ℕ → Time) (snapshots : List (GoMap String CounterSnapshot))
    (dstZone : String) :
    samplesOf dstZone (pollsOf times snapshots) = snapshots.map fun m => deltaOf m dstZone := by
  unfold samplesOf pollsOf
  rw [List.map_map]
  show snapshots.zipIdx.map ((fun m => deltaOf m dstZone) ∘ Prod.fst) = _
  rw [← List.map_map, List.zipIdx_map_fst]

theorem sum_rtake_le {α : Type} (f : α → ℕ) {past l : List α} (h : past <+: l) (cap : ℕ) :
    ((past.rtake cap).map f).sum ≤ (l.map f).sum := by
  apply List.Sublist.sum_le_sum
  · exact ((List.drop_sublist _ _).trans h.sublist).map f
  · intro a _
    exact Nat.zero_le a

/-- The window of a zone cannot overflow before the counts of all reads do. -/
theorem fits_of_reads {s : System c.zones.length} (h : Accounted c s) (hreads : s.reads < 2 ^ 64)
    (cap : ℕ) (i : Fin c.zones.length) :
    Fits cap (s.snapshots.map fun m => deltaOf m (nameOf c i)) := by
  obtain ⟨hsegs, hrets⟩ := total_le_reads h hreads i
  intro past hpast
  have hseg := sum_rtake_le (fun d => d.segments.toNat) hpast cap
  have hret := sum_rtake_le (fun d => d.retrans.toNat) hpast cap
  rw [List.map_map] at hseg hret
  simp only [totalSegs, totalRets, swappedOut] at hsegs hrets
  constructor
  · refine lt_of_le_of_lt (hseg.trans ?_) hreads
    exact (Nat.le_add_right _ _).trans ((Nat.le_add_right _ _).trans
      ((Nat.le_add_right _ _).trans hsegs))
  · refine lt_of_le_of_lt (hret.trans ?_) hreads
    exact (Nat.le_add_right _ _).trans ((Nat.le_add_right _ _).trans
      ((Nat.le_add_right _ _).trans hrets))

variable {K : Type} [Field K] [LinearOrder K]

/-- No snapshot has more retransmits than segments, and with the updates that the
snapshots cause, at whatever times, all percents that are published are percents. -/
structure InRange (cfg : Config) (exp : K → K) (s : System c.zones.length) : Prop where
  snapshots : ∀ m ∈ s.snapshots, ∀ i,
    (deltaOf m (nameOf c i)).retrans ≤ (deltaOf m (nameOf c i)).segments
  percents : ∀ (times : ℕ → Time)
    (range : (runPolls exp (newEMAStore cfg c.zones) (pollsOf times s.snapshots)).zones.Range),
    ∀ st ∈ (runPolls exp (newEMAStore cfg c.zones) (pollsOf times s.snapshots)).snapshot range,
      IsPercent st.instantPercent ∧ IsPercent st.emaPercent

theorem inRange_of_paired [IsStrictOrderedRing K] {exp : K → K} (hexp : Damps exp) (cfg : Config)
    {t : Traced c.zones.length} (hacc : Accounted c t.sys) (hreads : t.sys.reads < 2 ^ 64)
    (h : Paired c t) : InRange cfg exp t.sys := by
  refine ⟨h.taken, ?_⟩
  intro times range st hst
  obtain ⟨z, hz, rfl⟩ := exists_of_mem_snapshot exp cfg c.nodup _ range hst
  obtain ⟨i, rfl⟩ := List.mem_iff_get.mp hz
  apply isPercent_zoneRun cfg hexp
  · rw [samplesOf_pollsOf]
    intro d hd
    obtain ⟨m, hm, rfl⟩ := List.mem_map.mp hd
    exact h.taken m hm i
  · rw [samplesOf_pollsOf]
    exact fits_of_reads hacc hreads _ i

/-- In every run that adds both counts of each event for the same snapshot, and
makes fewer than `2 ^ 64` reads, what is published is a percentage all the time. -/
theorem inRange_of_sameSnapshot [IsStrictOrderedRing K] {exp : K → K} (hexp : Damps exp)
    (cfg : Config) (sched : List Party) (hreads : (run (step c) (start c) sched).reads < 2 ^ 64)
    (h : Meets (tracedStep c) (SameSnapshot c) (tracedStart c) sched) :
    Throughout (step c) (InRange cfg exp) (start c) sched := by
  intro pre post hsplit
  rw [hsplit] at h hreads
  rw [run_append] at hreads
  obtain ⟨-, hacc, hpaired⟩ := paired_run h.of_append
  have hsys : (run (tracedStep c) (tracedStart c) pre).sys = run (step c) (start c) pre :=
    sys_run c (tracedStart c) pre
  have hlt := (reads_le_run (run (step c) (start c) pre) post).trans_lt hreads
  rw [← hsys] at hlt ⊢
  exact inRange_of_paired hexp cfg hacc hlt (hpaired hlt)

/-- The program with a ring buffer that has two retransmits for a zone and is then closed. -/
def setupOf (cfg : Config) (zoneID : U8) : Setup where
  zones := cfg.remoteZones cfg.zones.listed
  nodup := ValidConfig.nodup_remoteZones _
  zoneByID := buildZoneIndex _
  endian := .little
  outcomes := fun k =>
    if k < 2 then .sample [7#8, 0#8, 0#8, 0#8, zoneID, 1#8, 0#8, 0#8] else .failed .closed true []

/-- The first event is recorded, and then all zones are swapped out. -/
def together : List Party := List.replicate 5 .reader ++ List.replicate 3 .publisher

theorem inRange_together :
    Throughout (step (setupOf twoPolls 2#8)) (InRange twoPolls Real.exp)
      (start (setupOf twoPolls 2#8)) together := by
  apply inRange_of_sameSnapshot damps_exp twoPolls together
  · decide
  · simp only [together, List.replicate, List.cons_append, List.nil_append, meets_cons]
    exact ⟨trivial, trivial, trivial, rfl, trivial, trivial, trivial, trivial, meets_nil⟩

/-- The second event is recorded between the two swaps of its zone. -/
def split : List Party :=
  List.replicate 7 .reader ++ [.publisher, .publisher, .reader, .reader] ++
    List.replicate 5 .publisher

/-- The counts of a zone with more retransmits than segments, and the percents
above 100 that are published a second apart. -/
def beyond (cfg : Config) (zoneID : U8) (sched : List Party) : List CounterSnapshot × List ℚ :=
  let c := setupOf cfg zoneID
  let s := run (step c) (start c) sched
  let counts := s.snapshots.flatMap fun m => (List.finRange c.zones.length).map fun i =>
    deltaOf m (nameOf c i)
  let store := runPolls (fun x : ℚ => 1 / (1 - x)) (newEMAStore cfg c.zones)
    (pollsOf (fun k => second * k) s.snapshots)
  (counts.filter fun d => d.segments < d.retrans,
    ((store.snapshot store.zones.listed).map ZoneState.instantPercent).filter fun x => 100 < x)

theorem split_publishes_200 :
    ∃ cfg, (ZoneClassification.sampleConfig ZoneClassification.readmeZones).validate
        ZoneClassification.readmeZones.listed ZoneClassification.readmeZones.listed = .ok cfg ∧
      beyond cfg 1#8 split = ([⟨1#64, 2#64⟩], [200]) ∧
        ¬InRange cfg (fun x : ℚ => 1 / (1 - x))
          (run (step (setupOf cfg 1#8)) (start (setupOf cfg 1#8)) split) := by
  obtain ⟨cfg, hval, hbeyond⟩ := ZoneClassification.exists_accepted
    (ZoneClassification.sampleConfig ZoneClassification.readmeZones)
    (fun cfg => some (beyond cfg 1#8 split)) ([⟨1#64, 2#64⟩], [200]) (by decide +kernel)
  rw [Option.some.injEq] at hbeyond
  refine ⟨cfg, hval, hbeyond, ?_⟩
  intro hrange
  have hmem : (⟨1#64, 2#64⟩ : CounterSnapshot) ∈ (beyond cfg 1#8 split).1 := by
    rw [hbeyond]
    exact List.mem_singleton_self _
  simp only [beyond, List.mem_filter, List.mem_flatMap, List.mem_map] at hmem
  obtain ⟨⟨m, hm, i, -, hi⟩, -⟩ := hmem
  have hle := hrange.snapshots m hm i
  rw [hi] at hle
  revert hle
  decide

end PacketLoss.PublishedLoss
