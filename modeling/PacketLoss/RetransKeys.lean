import PacketLoss.FilterRuns

/-!
Which segments the filter takes for one another when no two keys share a bit. A
key consists of the flow and a number: the sequence number without its low four
bits for a segment with payload, the whole sequence number for a SYN. So
segments closer than 16 bytes can have one key, and so can a SYN and a segment
with payload.
-/
namespace PacketLoss.RetransKeys

open Machine BloomFilter BloomRefinement BloomHashing KernelTrie Segments PathEgress FilterRuns

variable {T : Type} [LpmTrie T] (e : Endian) (m : Maps T)

def segmentOf (inv : Invocation) : Option Segment :=
  (zonedSegment e m inv.skb).map Prod.fst

/-- No two distinct keys of a run share a bit. -/
def KeysDisjoint (invs : List Invocation) : Prop :=
  ∀ p ∈ invs, ∀ q ∈ invs, ∀ kp kq, keyOf e m p = some kp → keyOf e m q = some kq →
    kp ≠ kq → (indices kp).Disjoint (indices kq)

/-- Two counted segments of one flow have the same sequence number. -/
def SameSeq (p q : Invocation) : Prop :=
  ∃ sp sq, segmentOf e m p = some sp ∧ segmentOf e m q = some sq ∧
    sp.flow = sq.flow ∧ sp.seq = sq.seq

/-- Two counted segments of one flow, of the kinds `κ` and `κ'`, have numbers
that are equal as each kind enters them into its key. -/
def SameKey (κ κ' : Kind) (p q : Invocation) : Prop :=
  ∃ sp sq, segmentOf e m p = some sp ∧ segmentOf e m q = some sq ∧
    kind sp = some κ ∧ kind sq = some κ' ∧ sp.flow = sq.flow ∧ seqKey sp.seq κ = seqKey sq.seq κ'

theorem keyOf_eq (inv : Invocation) :
    keyOf e m inv = (segmentOf e m inv).bind fun seg =>
      (kind seg).map fun κ => seg.flow.key (seqKey seg.seq κ) := by
  unfold keyOf segmentOf
  rw [Option.bind_map]
  congr 1
  funext z
  exact bloomKey_eq z.1

theorem key_eq_some_iff (inv : Invocation) (k : BloomKey) :
    keyOf e m inv = some k ↔ ∃ seg κ, segmentOf e m inv = some seg ∧ kind seg = some κ ∧
      seg.flow.key (seqKey seg.seq κ) = k := by
  rw [keyOf_eq, Option.bind_eq_some_iff]
  simp only [Option.map_eq_some_iff]
  constructor
  · intro hkey
    rcases hkey with ⟨seg, hseg, κ, hκ, hk⟩
    exact ⟨seg, κ, hseg, hκ, hk⟩
  · intro hkey
    rcases hkey with ⟨seg, κ, hseg, hκ, hk⟩
    exact ⟨seg, hseg, κ, hκ, hk⟩

theorem key_inj (t u : FourTuple) (seq seq' : U32) :
    t.key seq = u.key seq' ↔ t = u ∧ seq = seq' := by
  cases t
  cases u
  simp only [FourTuple.key, BloomKey.mk.injEq, FourTuple.mk.injEq, and_assoc]

theorem exists_key_iff (p q : Invocation) :
    (∃ k, keyOf e m q = some k ∧ keyOf e m p = some k) ↔ ∃ κ κ', SameKey e m κ κ' p q := by
  simp only [key_eq_some_iff]
  constructor
  · intro hsame
    rcases hsame with ⟨k, ⟨sq, κ', hq, hκ', rfl⟩, sp, κ, hp, hκ, hk⟩
    obtain ⟨hflow, hseq⟩ := (key_inj _ _ _ _).mp hk
    exact ⟨κ, κ', sp, sq, hp, hq, hκ, hκ', hflow, hseq⟩
  · intro hsame
    rcases hsame with ⟨κ, κ', sp, sq, hp, hq, hκ, hκ', hflow, hseq⟩
    exact ⟨_, ⟨sq, κ', hq, hκ', rfl⟩, sp, κ, hp, hκ, (key_inj _ _ _ _).mpr ⟨hflow, hseq⟩⟩

theorem KeysDisjoint.flagged_iff {zone src : T} {invs : List Invocation}
    (hkeys : KeysDisjoint e (Maps.loaded zone src) invs) {pre post : List Invocation}
    {q : Invocation} (hsplit : invs = pre ++ q :: post) :
    Flagged e (Maps.loaded zone src) pre q ↔
      ∃ p, Recent e (Maps.loaded zone src) pre q p ∧
        ∃ κ κ', SameKey e (Maps.loaded zone src) κ κ' p q := by
  have hmem : ∀ p ∈ pre, p ∈ invs := fun p hp => by
    rw [hsplit]
    exact List.mem_append_left _ hp
  have hq : q ∈ invs := by simp [hsplit]
  rw [flagged_iff_of_disjoint e zone src pre q fun p hp kp k hkp hk hne =>
    hkeys p (hmem p hp) q hq kp k hkp hk hne]
  simp only [← exists_key_iff]
  constructor
  · intro hkey
    rcases hkey with ⟨k, p, hk, hrecent, hkp⟩
    exact ⟨p, hrecent, k, hk, hkp⟩
  · intro hkey
    rcases hkey with ⟨p, hrecent, k, hk, hkp⟩
    exact ⟨k, p, hk, hrecent, hkp⟩

theorem SameKey.kinds_payload {κ κ' : Kind} {p q : Invocation} (h : SameKey e m κ κ' p q)
    (hp : ∃ seg, segmentOf e m p = some seg ∧ 0 < seg.payloadLen)
    (hq : ∃ seg, segmentOf e m q = some seg ∧ 0 < seg.payloadLen) :
    κ = .payload ∧ κ' = .payload := by
  obtain ⟨sp, sq, hsp, hsq, hκ, hκ', -⟩ := h
  obtain ⟨sp', hsp', hlenp⟩ := hp
  obtain ⟨sq', hsq', hlenq⟩ := hq
  rw [hsp, Option.some.injEq] at hsp'
  rw [hsq, Option.some.injEq] at hsq'
  subst hsp' hsq'
  rw [kind, if_pos hlenp, Option.some.injEq] at hκ
  rw [kind, if_pos hlenq, Option.some.injEq] at hκ'
  exact ⟨hκ.symm, hκ'.symm⟩

theorem SameKey.kind_right {κ κ' μ μ' : Kind} {p p' q : Invocation}
    (h : SameKey e m κ κ' p q) (h' : SameKey e m μ μ' p' q) : κ' = μ' := by
  obtain ⟨_, sq, -, hsq, -, hκ', -⟩ := h
  obtain ⟨_, sq', -, hsq', -, hμ', -⟩ := h'
  rw [hsq, Option.some.injEq] at hsq'
  subst hsq'
  rwa [hκ', Option.some.injEq] at hμ'

theorem keysDisjoint_of_eq {invs : List Invocation} {k : BloomKey}
    (h : ∀ p ∈ invs, keyOf e m p = some k) : KeysDisjoint e m invs := by
  intro p hp q hq kp kq hkp hkq hne
  rw [h p hp, Option.some.injEq] at hkp
  rw [h q hq, Option.some.injEq] at hkq
  exact absurd (hkp.symm.trans hkq) hne

/-- In a run of segments with payload, whatever is flagged repeats a sequence
number of its flow exactly if that holds of every segment that follows another
of its flow, within one roll, in the same block of 16 sequence numbers. -/
theorem flagged_only_repeated_iff (zone src : T) (invs : List Invocation)
    (hkeys : KeysDisjoint e (Maps.loaded zone src) invs)
    (hpayload : ∀ p ∈ invs, ∃ seg, segmentOf e (Maps.loaded zone src) p = some seg ∧
      0 < seg.payloadLen) :
    (∀ pre q post, invs = pre ++ q :: post → Flagged e (Maps.loaded zone src) pre q →
        ∃ p ∈ pre, SameSeq e (Maps.loaded zone src) p q) ↔
      ∀ pre q post, invs = pre ++ q :: post → ∀ p, Recent e (Maps.loaded zone src) pre q p →
        SameKey e (Maps.loaded zone src) .payload .payload p q →
          ∃ p' ∈ pre, SameSeq e (Maps.loaded zone src) p' q := by
  constructor
  · intro hflags pre q post hsplit p hrecent hkey
    exact hflags pre q post hsplit
      ((hkeys.flagged_iff e hsplit).mpr ⟨p, hrecent, _, _, hkey⟩)
  · intro hcond pre q post hsplit hflag
    obtain ⟨p, hrecent, κ, κ', hkey⟩ := (hkeys.flagged_iff e hsplit).mp hflag
    have hp : p ∈ invs := by
      rw [hsplit]
      exact List.mem_append_left _ hrecent.mem
    obtain ⟨rfl, rfl⟩ := hkey.kinds_payload e _ (hpayload p hp) (hpayload q (by simp [hsplit]))
    exact hcond pre q post hsplit p hrecent hkey

/-- One typed character at 2 s. -/
def keystroke : Invocation := sampleSegment 1000#32 0x18#8 [1#8] 2000000000#64

/-- The next one, 0.1 s later. -/
def nextKeystroke : Invocation := sampleSegment 1001#32 0x18#8 [2#8] 2100000000#64

theorem segmentOf_keystroke : segmentOf .little (Maps.loaded zoneTrie srcZoneTrie) keystroke =
    some ⟨0x0a03a8c0#32, 0x1400a8c0#32, 0x409c#16, 0xbb01#16, 1000#32, 1, false, true⟩ := by
  decide +kernel

theorem segmentOf_nextKeystroke :
    segmentOf .little (Maps.loaded zoneTrie srcZoneTrie) nextKeystroke =
      some ⟨0x0a03a8c0#32, 0x1400a8c0#32, 0x409c#16, 0xbb01#16, 1001#32, 1, false, true⟩ := by
  decide +kernel

theorem keystrokes_keysDisjoint :
    KeysDisjoint .little (Maps.loaded zoneTrie srcZoneTrie) [keystroke, nextKeystroke] := by
  apply keysDisjoint_of_eq (k := ⟨0x0a03a8c0#32, 0x1400a8c0#32, 0x409c#16, 0xbb01#16, 62#32⟩)
  simp only [List.mem_cons, List.not_mem_nil, or_false]
  rintro p (rfl | rfl)
  · rw [keyOf_eq, segmentOf_keystroke]
    rfl
  · rw [keyOf_eq, segmentOf_nextKeystroke]
    rfl

theorem keystrokes_payload : ∀ p ∈ [keystroke, nextKeystroke], ∃ seg,
    segmentOf .little (Maps.loaded zoneTrie srcZoneTrie) p = some seg ∧ 0 < seg.payloadLen := by
  simp only [List.mem_cons, List.not_mem_nil, or_false]
  rintro p (rfl | rfl)
  · exact ⟨_, segmentOf_keystroke, Nat.zero_lt_one⟩
  · exact ⟨_, segmentOf_nextKeystroke, Nat.zero_lt_one⟩

/-- The second of two typed characters is flagged; it is a new segment. -/
theorem next_keystroke_flagged :
    let m := Maps.loaded zoneTrie srcZoneTrie
    KeysDisjoint .little m [keystroke, nextKeystroke] ∧
      (∀ p ∈ [keystroke, nextKeystroke], ∃ seg, segmentOf .little m p = some seg ∧
        0 < seg.payloadLen) ∧
        Flagged .little m [keystroke] nextKeystroke ∧
          ¬∃ p ∈ [keystroke], SameSeq .little m p nextKeystroke := by
  refine ⟨keystrokes_keysDisjoint, keystrokes_payload, ⟨1#8, by decide +kernel⟩, ?_⟩
  intro hsome
  rcases hsome with ⟨p, hp, sp, sq, hsp, hsq, -, hseq⟩
  rw [List.mem_singleton] at hp
  subst hp
  rw [segmentOf_keystroke, Option.some.injEq] at hsp
  rw [segmentOf_nextKeystroke, Option.some.injEq] at hsq
  subst hsp hsq
  exact absurd hseq (by decide)

theorem keystrokes_repeated_iff :
    let m := Maps.loaded zoneTrie srcZoneTrie
    (∀ pre q post, [keystroke, nextKeystroke] = pre ++ q :: post → Flagged .little m pre q →
        ∃ p ∈ pre, SameSeq .little m p q) ↔
      ∀ pre q post, [keystroke, nextKeystroke] = pre ++ q :: post → ∀ p,
        Recent .little m pre q p → SameKey .little m .payload .payload p q →
          ∃ p' ∈ pre, SameSeq .little m p' q :=
  flagged_only_repeated_iff .little zoneTrie srcZoneTrie _ keystrokes_keysDisjoint
    keystrokes_payload

/-- Whatever is flagged repeats a key of its own kind exactly if that holds of
every segment that shares its key with a recent segment of the other kind. -/
theorem flagged_only_own_kind_iff (zone src : T) (invs : List Invocation)
    (hkeys : KeysDisjoint e (Maps.loaded zone src) invs) :
    (∀ pre q post, invs = pre ++ q :: post → Flagged e (Maps.loaded zone src) pre q →
        ∃ p ∈ pre, ∃ κ, SameKey e (Maps.loaded zone src) κ κ p q) ↔
      ∀ pre q post, invs = pre ++ q :: post → ∀ p κ κ', κ ≠ κ' →
        Recent e (Maps.loaded zone src) pre q p →
          SameKey e (Maps.loaded zone src) κ κ' p q →
            ∃ p' ∈ pre, SameKey e (Maps.loaded zone src) κ' κ' p' q := by
  constructor
  · intro hflags pre q post hsplit p κ κ' _ hrecent hkey
    obtain ⟨p', hp', κ'', hown⟩ := hflags pre q post hsplit
      ((hkeys.flagged_iff e hsplit).mpr ⟨p, hrecent, κ, κ', hkey⟩)
    rw [hkey.kind_right e _ hown]
    exact ⟨p', hp', hown⟩
  · intro hcond pre q post hsplit hflag
    obtain ⟨p, hrecent, κ, κ', hkey⟩ := (hkeys.flagged_iff e hsplit).mp hflag
    by_cases hκ : κ = κ'
    · subst hκ
      exact ⟨p, hrecent.mem, κ, hkey⟩
    · obtain ⟨p', hp', hown⟩ := hcond pre q post hsplit p κ κ' hκ hrecent hkey
      exact ⟨p', hp', κ', hown⟩

/-- The SYN of a connection whose initial sequence number is 0. -/
def zeroSyn : Invocation := sampleSegment 0#32 0x02#8 [] 2000000000#64

/-- The first data segment of that connection. -/
def firstData : Invocation := sampleSegment 1#32 0x18#8 [1#8, 2#8] 2100000000#64

theorem segmentOf_zeroSyn : segmentOf .little (Maps.loaded zoneTrie srcZoneTrie) zeroSyn =
    some ⟨0x0a03a8c0#32, 0x1400a8c0#32, 0x409c#16, 0xbb01#16, 0#32, 0, true, false⟩ := by
  decide +kernel

theorem segmentOf_firstData :
    segmentOf .little (Maps.loaded zoneTrie srcZoneTrie) firstData =
      some ⟨0x0a03a8c0#32, 0x1400a8c0#32, 0x409c#16, 0xbb01#16, 1#32, 2, false, true⟩ := by
  decide +kernel

theorem handshake_keysDisjoint :
    KeysDisjoint .little (Maps.loaded zoneTrie srcZoneTrie) [zeroSyn, firstData] := by
  apply keysDisjoint_of_eq (k := ⟨0x0a03a8c0#32, 0x1400a8c0#32, 0x409c#16, 0xbb01#16, 0#32⟩)
  simp only [List.mem_cons, List.not_mem_nil, or_false]
  rintro p (rfl | rfl)
  · rw [keyOf_eq, segmentOf_zeroSyn]
    rfl
  · rw [keyOf_eq, segmentOf_firstData]
    rfl

/-- The first data segment of a connection is taken for a repetition of its SYN. -/
theorem first_data_flagged_after_syn :
    let m := Maps.loaded zoneTrie srcZoneTrie
    KeysDisjoint .little m [zeroSyn, firstData] ∧ Flagged .little m [zeroSyn] firstData ∧
      ¬∃ p ∈ [zeroSyn], ∃ κ, SameKey .little m κ κ p firstData := by
  refine ⟨handshake_keysDisjoint, ⟨1#8, by decide +kernel⟩, ?_⟩
  intro hsome
  rcases hsome with ⟨p, hp, κ, sp, sq, hsp, hsq, hκ, hκ', -⟩
  rw [List.mem_singleton] at hp
  subst hp
  rw [segmentOf_zeroSyn, Option.some.injEq] at hsp
  rw [segmentOf_firstData, Option.some.injEq] at hsq
  subst hsp hsq
  exact absurd (hκ.trans hκ'.symm) (by decide)

theorem handshake_own_kind_iff :
    let m := Maps.loaded zoneTrie srcZoneTrie
    (∀ pre q post, [zeroSyn, firstData] = pre ++ q :: post → Flagged .little m pre q →
        ∃ p ∈ pre, ∃ κ, SameKey .little m κ κ p q) ↔
      ∀ pre q post, [zeroSyn, firstData] = pre ++ q :: post → ∀ p κ κ', κ ≠ κ' →
        Recent .little m pre q p → SameKey .little m κ κ' p q →
          ∃ p' ∈ pre, SameKey .little m κ' κ' p' q :=
  flagged_only_own_kind_iff .little zoneTrie srcZoneTrie _ handshake_keysDisjoint

end PacketLoss.RetransKeys
