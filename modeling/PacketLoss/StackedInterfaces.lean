import PacketLoss.RetransKeys

/-!
One program and one filter serve every attached interface. The interface goes
into the event and not into the key, so a segment that is forwarded through two
stacked interfaces, such as a VLAN and its parent, is looked up twice under one
key.
-/
namespace PacketLoss.StackedInterfaces

open Machine BloomFilter BloomRefinement BloomHashing KernelTrie Segments PathEgress FilterRuns
open RetransKeys

variable {T : Type} [LpmTrie T] (e : Endian) (m : Maps T)

/-- Two counted segments have the same addresses, ports and `seq >> 4`. -/
def SameBlock (p q : Invocation) : Prop :=
  ∃ sp sq, segmentOf e m p = some sp ∧ segmentOf e m q = some sq ∧
    sp.flow = sq.flow ∧ sp.seq >>> 4 = sq.seq >>> 4

/-- All counted packets of a run carry payload. -/
def CarryPayload (invs : List Invocation) : Prop :=
  ∀ p ∈ invs, ∀ seg, segmentOf e m p = some seg → 0 < seg.payloadLen

def OncePerInterface (invs : List Invocation) : Prop :=
  invs.Pairwise fun p q => p.skb.ifindex = q.skb.ifindex → ¬SameBlock e m p q

/-- At most once in the run, on whatever interfaces. -/
def OncePerRun (invs : List Invocation) : Prop :=
  invs.Pairwise fun p q => ¬SameBlock e m p q

def NoRetransEvent (invs : List Invocation) : Prop :=
  ∀ evt ∈ (run e m invs).statsRb, evt.isRetrans ≠ 1#8

/-- A run submits an event with `is_retrans = 1` exactly if one of its packets is
flagged and finds room. -/
theorem noRetransEvent_iff (zone src : T) (invs : List Invocation) :
    NoRetransEvent e (Maps.loaded zone src) invs ↔
      ∀ pre q post, invs = pre ++ q :: post → q.reserve = true →
        ¬Flagged e (Maps.loaded zone src) pre q := by
  have hempty : (Maps.loaded zone src).statsRb = [] := rfl
  simp only [NoRetransEvent, mem_statsRb_iff, hempty, List.not_mem_nil, false_or]
  constructor
  · intro hnone pre q post hsplit hroom hflag
    obtain ⟨zoneId, hout⟩ := hflag
    exact hnone _ ⟨pre, q, post, hsplit, hroom, zoneId, true, hout, rfl⟩ rfl
  · intro hnone evt hsome hretrans
    obtain ⟨pre, q, post, hsplit, hroom, zoneId, r, hout, rfl⟩ := hsome
    cases r with
    | false => simp at hretrans
    | true => exact hnone pre q post hsplit hroom ⟨zoneId, hout⟩

/-- Among segments with payload, having one key is being of one block. -/
theorem CarryPayload.exists_sameKey_iff {invs : List Invocation}
    (hpayload : CarryPayload e m invs) {p q : Invocation} (hp : p ∈ invs) (hq : q ∈ invs) :
    (∃ κ κ', SameKey e m κ κ' p q) ↔ SameBlock e m p q := by
  constructor
  · intro hkey
    rcases hkey with ⟨κ, κ', hkey⟩
    have hsegs := hkey
    obtain ⟨sp, sq, hsp, hsq, -, -, hflow, hseq⟩ := hsegs
    obtain ⟨rfl, rfl⟩ := hkey.kinds_payload e m ⟨sp, hsp, hpayload p hp sp hsp⟩
      ⟨sq, hsq, hpayload q hq sq hsq⟩
    exact ⟨sp, sq, hsp, hsq, hflow, hseq⟩
  · intro hblock
    rcases hblock with ⟨sp, sq, hsp, hsq, hflow, hseq⟩
    refine ⟨.payload, .payload, sp, sq, hsp, hsq, ?_, ?_, hflow, hseq⟩
    · rw [kind, if_pos (hpayload p hp sp hsp)]
    · rw [kind, if_pos (hpayload q hq sq hsq)]

/-- On any interfaces, the events of a run say nothing of retransmissions exactly
if none of them is of a segment whose block was counted within one epoch roll
before. -/
theorem no_retrans_event_iff (zone src : T) (invs : List Invocation)
    (hkeys : KeysDisjoint e (Maps.loaded zone src) invs)
    (hpayload : CarryPayload e (Maps.loaded zone src) invs) :
    (NoRetransEvent e (Maps.loaded zone src) invs ↔
      ∀ pre q post, invs = pre ++ q :: post → q.reserve = true →
        ∀ p, Recent e (Maps.loaded zone src) pre q p →
          ¬SameBlock e (Maps.loaded zone src) p q) ∧
    (OncePerRun e (Maps.loaded zone src) invs →
      NoRetransEvent e (Maps.loaded zone src) invs) := by
  have hevents : NoRetransEvent e (Maps.loaded zone src) invs ↔
      ∀ pre q post, invs = pre ++ q :: post → q.reserve = true →
        ∀ p, Recent e (Maps.loaded zone src) pre q p →
          ¬SameBlock e (Maps.loaded zone src) p q := by
    rw [noRetransEvent_iff]
    refine forall_congr' fun pre => forall_congr' fun q => forall_congr' fun post =>
      forall_congr' fun hsplit => imp_congr_right fun _ => ?_
    rw [hkeys.flagged_iff e hsplit, not_exists]
    refine forall_congr' fun p => ?_
    rw [not_and]
    refine imp_congr_right fun hrecent => not_congr ?_
    apply hpayload.exists_sameKey_iff e
    · rw [hsplit]
      exact List.mem_append_left _ hrecent.mem
    · simp [hsplit]
  refine ⟨hevents, fun honce => hevents.mpr ?_⟩
  intro pre q post hsplit _ p hrecent
  rw [OncePerRun, hsplit, List.pairwise_append] at honce
  exact honce.2.2 p hrecent.mem q List.mem_cons_self

/-- A segment as it leaves through a VLAN, at 2 s. -/
def onVlan : Invocation := sampleSegment 1000#32 0x18#8 [1#8, 2#8] 2000000000#64

/-- The same segment 2 µs later, as it leaves through the parent of the VLAN. -/
def onParent : Invocation :=
  let inv := sampleSegment 1000#32 0x18#8 [1#8, 2#8] 2000002000#64
  { inv with skb := { inv.skb with ifindex := 2#32 } }

theorem segmentOf_stacked : ∀ p ∈ [onVlan, onParent],
    segmentOf .little (Maps.loaded zoneTrie srcZoneTrie) p =
      some ⟨0x0a03a8c0#32, 0x1400a8c0#32, 0x409c#16, 0xbb01#16, 1000#32, 2, false, true⟩ := by
  simp only [List.mem_cons, List.not_mem_nil, or_false]
  rintro p (rfl | rfl) <;> decide +kernel

theorem stacked_keysDisjoint :
    KeysDisjoint .little (Maps.loaded zoneTrie srcZoneTrie) [onVlan, onParent] := by
  apply keysDisjoint_of_eq (k := ⟨0x0a03a8c0#32, 0x1400a8c0#32, 0x409c#16, 0xbb01#16, 62#32⟩)
  intro p hp
  rw [keyOf_eq, segmentOf_stacked p hp]
  rfl

theorem stacked_carryPayload :
    CarryPayload .little (Maps.loaded zoneTrie srcZoneTrie) [onVlan, onParent] := by
  intro p hp seg hseg
  rw [segmentOf_stacked p hp, Option.some.injEq] at hseg
  subst hseg
  exact Nat.zero_lt_two

/-- A forwarded segment is reported as its own retransmission. -/
theorem forwarded_twice_reported :
    let m := Maps.loaded zoneTrie srcZoneTrie
    KeysDisjoint .little m [onVlan, onParent] ∧ CarryPayload .little m [onVlan, onParent] ∧
      OncePerInterface .little m [onVlan, onParent] ∧
        (run .little m [onVlan, onParent]).statsRb =
          [⟨7#32, 1#8, 0#8⟩, ⟨2#32, 1#8, 1#8⟩] := by
  refine ⟨stacked_keysDisjoint, stacked_carryPayload, ?_, by decide +kernel⟩
  refine List.pairwise_pair.mpr fun hsame => ?_
  exact absurd hsame (by decide)

theorem stacked_events_iff :
    let m := Maps.loaded zoneTrie srcZoneTrie
    (NoRetransEvent .little m [onVlan, onParent] ↔
      ∀ pre q post, [onVlan, onParent] = pre ++ q :: post → q.reserve = true →
        ∀ p, Recent .little m pre q p → ¬SameBlock .little m p q) ∧
    (OncePerRun .little m [onVlan, onParent] →
      NoRetransEvent .little m [onVlan, onParent]) :=
  no_retrans_event_iff .little zoneTrie srcZoneTrie _ stacked_keysDisjoint stacked_carryPayload

end PacketLoss.StackedInterfaces
