import PacketLoss.FilterRuns

/-!
How long the filter remembers a segment. Within one epoch length a repetition
is always seen: two rolls do not fit. In the other direction there is no fixed
bound, because the epoch only rolls when a packet is counted: what was inserted
last before a silence is still there after it.
-/
namespace PacketLoss.RetransWindow

open Machine BloomFilter BloomRefinement KernelTrie Segments PathEgress FilterRuns
open RotatingWindow (clockRun clockRun_append clockRun_concat clockStep)

variable {T : Type} [LpmTrie T] (e : Endian)

def times (invs : List Invocation) : List ℕ := invs.map fun inv => inv.now.toNat

theorem sorted_of_sublist {invs invs' : List Invocation} (h : invs.Sublist invs')
    (hsorted : (times invs').Pairwise (· ≤ ·)) : (times invs).Pairwise (· ≤ ·) :=
  List.Pairwise.sublist (h.map _) hsorted

theorem mem_times_of_mem_zonedTimes (m : Maps T) {invs : List Invocation} {t : ℕ}
    (h : t ∈ zonedTimes e m invs) : t ∈ times invs := by
  obtain ⟨inv, hinv, rfl⟩ := List.mem_map.mp h
  exact List.mem_map_of_mem (List.mem_of_mem_filter hinv)

/-- A packet that follows within one epoch length is at most one roll away. -/
theorem recent_of_within (m : Maps T) (pre mid : List Invocation) (p q : Invocation)
    (hsorted : (times (p :: mid ++ [q])).Pairwise (· ≤ ·))
    (hwithin : q.now.toNat ≤ p.now.toNat + bloomEpochNs.toNat) :
    Recent e m (pre ++ p :: mid) q p := by
  refine ⟨pre, mid, rfl, ?_⟩
  have hsplit : pre ++ p :: mid ++ [q] = (pre ++ [p]) ++ (mid ++ [q]) := by simp
  rw [hsplit, epochs, zonedTimes_append, clockRun_append, epochs]
  apply EpochClock.rolls_le_succ_of_within (t := p.now.toNat)
  intro now hnow
  have hmem := mem_times_of_mem_zonedTimes e m hnow
  have hcons : times (p :: mid ++ [q]) = p.now.toNat :: times (mid ++ [q]) := rfl
  have hlast : times (mid ++ [q]) = times mid ++ [q.now.toNat] := by simp [times]
  rw [hcons, List.pairwise_cons] at hsorted
  refine ⟨hsorted.1 now hmem, le_trans ?_ hwithin⟩
  rw [hlast, List.pairwise_append] at hsorted
  rw [hlast, List.mem_append, List.mem_singleton] at hmem
  rcases hmem with hmid | rfl
  · exact hsorted.2.2.2 now hmid _ (List.mem_singleton_self _)
  · exact le_rfl

theorem zonedSegment_of_flow_eq (m : Maps T) {skb skb' : SkBuff} {seg seg' : Segment}
    {zoneId : U8} (hz : zonedSegment e m skb = some (seg, zoneId))
    (hparse : parseSegment e skb' = .ok seg') (hflow : seg'.flow = seg.flow) :
    zonedSegment e m skb' = some (seg', zoneId) := by
  simp only [Segment.flow, BloomHashing.FourTuple.mk.injEq] at hflow
  obtain ⟨-, hsrc, hdst⟩ := (zonedSegment_eq_some_iff e m).mp hz
  rw [← hflow.1] at hsrc
  rw [← hflow.2.1] at hdst
  exact (zonedSegment_eq_some_iff e m).mpr ⟨hparse, hsrc, hdst⟩

/-- A segment of the same kind, flow and sequence number that follows within one
epoch length is flagged, whatever came in between. -/
theorem repeated_segment_flagged (zone src : T) (pre mid post : List Invocation)
    (p q : Invocation) (segp segq : Segment) (zoneId : U8) (κ : Kind)
    (hsorted : (times (pre ++ p :: mid ++ q :: post)).Pairwise (· ≤ ·))
    (hp : zonedSegment e (Maps.loaded zone src) p.skb = some (segp, zoneId))
    (hq : parseSegment e q.skb = .ok segq)
    (hkindp : kind segp = some κ) (hkindq : kind segq = some κ)
    (hflow : segq.flow = segp.flow) (hseq : segq.seq = segp.seq)
    (hwithin : q.now.toNat ≤ p.now.toNat + bloomEpochNs.toNat) :
    outcomeAfter e (Maps.loaded zone src) (pre ++ p :: mid) q = .counted zoneId true ∧
      (q.reserve = true →
        (run e (Maps.loaded zone src) (pre ++ p :: mid ++ [q])).statsRb =
          (run e (Maps.loaded zone src) (pre ++ p :: mid)).statsRb ++
            [⟨q.skb.ifindex, zoneId, 1#8⟩]) := by
  generalize hm : Maps.loaded zone src = m at hp ⊢
  have hz := zonedSegment_of_flow_eq e m hp hq hflow
  have hkeyp : keyOf e m p = some (segp.flow.key (seqKey segp.seq κ)) := by
    simp [keyOf, hp, bloomKey_eq, hkindp]
  have hkeyq : keyOf e m q = some (segp.flow.key (seqKey segp.seq κ)) := by
    simp [keyOf, hz, bloomKey_eq, hkindq, hflow, hseq]
  have hmiddle : (times (p :: mid ++ [q])).Pairwise (· ≤ ·) := by
    have hright : (p :: mid ++ [q]).Sublist (p :: mid ++ q :: post) :=
      List.Sublist.append_left (List.singleton_sublist.mpr List.mem_cons_self) _
    rw [List.append_assoc pre] at hsorted
    exact sorted_of_sublist (hright.trans (List.sublist_append_right pre _)) hsorted
  have hrecent := recent_of_within e m pre mid p q hmiddle hwithin
  have hflag : Flagged e m (pre ++ p :: mid) q := by
    rw [← hm] at hkeyp hkeyq hrecent ⊢
    exact (flagged_iff e zone src _ q).mpr
      ⟨_, hkeyq, fun bit hbit => ⟨p, _, hrecent, hkeyp, hbit⟩⟩
  have hcounted : outcomeAfter e m (pre ++ p :: mid) q = .counted zoneId true := by
    obtain ⟨zoneId', hout⟩ := hflag
    obtain ⟨seg, hseg⟩ := zoned_of_counted e m hout
    rw [hz, Option.some.injEq, Prod.mk.injEq] at hseg
    rw [hout, hseg.2]
  refine ⟨hcounted, fun hreserve => ?_⟩
  rw [statsRb_of_counted e m hcounted, if_pos hreserve]
  rfl

/-- A segment at 1 s is flagged when it comes again at 2.4 s, although another
segment has rolled the epoch at 2 s. -/
theorem repeated_across_roll_flagged :
    let m := Maps.loaded zoneTrie srcZoneTrie
    let p := sampleSegment 1000#32 0x18#8 [1#8, 2#8] 1000000000#64
    let other := sampleSegment 2000#32 0x18#8 [3#8] 2000000000#64
    let q := sampleSegment 1000#32 0x18#8 [1#8, 2#8] 2400000000#64
    epochs .little m [p] = 0 ∧ epochs .little m [p, other] = 1 ∧
      outcomeAfter .little m [p, other] q = .counted 1#8 true ∧
        (q.reserve = true → (run .little m [p, other, q]).statsRb =
          (run .little m [p, other]).statsRb ++ [⟨q.skb.ifindex, 1#8, 1#8⟩]) := by
  refine ⟨by decide +kernel, by decide +kernel, ?_⟩
  exact repeated_segment_flagged .little zoneTrie srcZoneTrie []
    [sampleSegment 2000#32 0x18#8 [3#8] 2000000000#64] []
    (sampleSegment 1000#32 0x18#8 [1#8, 2#8] 1000000000#64)
    (sampleSegment 1000#32 0x18#8 [1#8, 2#8] 2400000000#64)
    ⟨0x0a03a8c0#32, 0x1400a8c0#32, 0x409c#16, 0xbb01#16, 1000#32, 2, false, true⟩
    ⟨0x0a03a8c0#32, 0x1400a8c0#32, 0x409c#16, 0xbb01#16, 1000#32, 2, false, true⟩
    1#8 .payload (by decide +kernel) (by decide +kernel) (by rfl) (by decide) (by decide)
    (by decide) (by decide) (by decide +kernel)

theorem zonedTimes_concat (m : Maps T) (invs : List Invocation) {p : Invocation}
    {k : BloomKey} (hk : keyOf e m p = some k) :
    zonedTimes e m (invs ++ [p]) = zonedTimes e m invs ++ [p.now.toNat] := by
  obtain ⟨z, hz, -⟩ := Option.bind_eq_some_iff.mp hk
  simp [zonedTimes, hz]

/-- The epoch that a packet sees began before the packet and no more than one
period earlier than it would have to for the packet to open the next. -/
theorem epoch_start_bounds (m : Maps T) (a : List Invocation) {p : Invocation}
    {k : BloomKey} (hk : keyOf e m p = some k)
    (hsorted : (times (a ++ [p])).Pairwise (· ≤ ·)) :
    let start := (clockRun (EpochClock.due bloomEpochNs.toNat) (0, 0)
      (zonedTimes e m (a ++ [p]))).1
    start ≤ p.now.toNat ∧ p.now.toNat ≤ start + bloomEpochNs.toNat := by
  constructor
  · refine EpochClock.start_le_of_forall_le _ 0 0 _ _ (Nat.zero_le _) fun now hnow => ?_
    have hmem := mem_times_of_mem_zonedTimes e m hnow
    have hlast : times (a ++ [p]) = times a ++ [p.now.toNat] := by simp [times]
    rw [hlast, List.pairwise_append] at hsorted
    rw [hlast, List.mem_append, List.mem_singleton] at hmem
    rcases hmem with ha | rfl
    · exact hsorted.2.2 now ha _ (List.mem_singleton_self _)
    · exact le_rfl
  · rw [zonedTimes_concat e m a hk, clockRun_concat]
    exact EpochClock.le_clockStep _ _ _

/-- How old the insertions behind a flag can be: two epochs and one pause between
neighbouring clock readings. -/
theorem flagged_age_le (zone src : T) (pre : List Invocation) (q : Invocation)
    (hsorted : (times (pre ++ [q])).Pairwise (· ≤ ·))
    (hflag : Flagged e (Maps.loaded zone src) pre q) :
    ∃ k, keyOf e (Maps.loaded zone src) q = some k ∧ ∀ bit ∈ indices k,
      ∃ a p b kp, pre = a ++ p :: b ∧ keyOf e (Maps.loaded zone src) p = some kp ∧
        bit ∈ indices kp ∧ ∃ c before after d,
          zonedTimes e (Maps.loaded zone src) (p :: b ++ [q]) = c ++ before :: after :: d ∧
            q.now.toNat ≤ p.now.toNat + 2 * bloomEpochNs.toNat + (after - before) := by
  obtain ⟨k, hk, hbits⟩ := (flagged_iff e zone src pre q).mp hflag
  refine ⟨k, hk, fun bit hbit => ?_⟩
  obtain ⟨p, kp, hrecent, hkp, hmem⟩ := hbits bit hbit
  obtain ⟨a, b, rfl, hepochs⟩ := hrecent
  refine ⟨a, p, b, kp, rfl, hkp, hmem, ?_⟩
  generalize Maps.loaded zone src = m at hk hkp hepochs ⊢
  have hsplit : a ++ p :: b ++ [q] = (a ++ [p]) ++ (b ++ [q]) := by simp
  have hfirst : (times (a ++ [p])).Pairwise (· ≤ ·) := by
    rw [hsplit] at hsorted
    exact sorted_of_sublist (List.sublist_append_left _ _) hsorted
  obtain ⟨hstart, hopen⟩ := epoch_start_bounds e m a hkp hfirst
  rw [hsplit, epochs, zonedTimes_append, clockRun_append, zonedTimes_concat e m b hk,
    epochs] at hepochs
  obtain ⟨c, before, after, d, htimes, hbound⟩ :=
    EpochClock.last_le_of_rolls_le_succ bloomEpochNs.toNat _ _ hopen hepochs
  refine ⟨c, before, after, d, ?_, by omega⟩
  have hcons : zonedTimes e m (p :: b ++ [q]) = zonedTimes e m ([] ++ [p]) ++
      zonedTimes e m (b ++ [q]) := by
    rw [← zonedTimes_append]
    rfl
  rw [hcons, zonedTimes_concat e m [] hkp, zonedTimes_concat e m b hk]
  exact htimes

/-- 2 s after the start. -/
def beforePause : Invocation := sampleSegment 1000#32 0x18#8 [1#8, 2#8] 2000000000#64

/-- The same segment one hour later. -/
def afterPause : Invocation := sampleSegment 1000#32 0x18#8 [1#8, 2#8] 3602000000000#64

/-- After an hour of silence a segment is flagged, with nothing counted in between. -/
theorem hour_old_segment_flagged :
    (times [beforePause, afterPause]).Pairwise (· ≤ ·) ∧
      Flagged .little (Maps.loaded zoneTrie srcZoneTrie) [beforePause] afterPause ∧
        ∀ p ∈ [beforePause], p.now.toNat + 2 * bloomEpochNs.toNat < afterPause.now.toNat := by
  refine ⟨by decide +kernel, ⟨1#8, by decide +kernel⟩, fun p hp => ?_⟩
  rw [List.mem_singleton] at hp
  subst hp
  decide

theorem hour_old_segment_age :
    ∃ k, keyOf .little (Maps.loaded zoneTrie srcZoneTrie) afterPause = some k ∧
      ∀ bit ∈ indices k, ∃ a p b kp, [beforePause] = a ++ p :: b ∧
        keyOf .little (Maps.loaded zoneTrie srcZoneTrie) p = some kp ∧ bit ∈ indices kp ∧
          ∃ c before after d,
            zonedTimes .little (Maps.loaded zoneTrie srcZoneTrie) (p :: b ++ [afterPause]) =
              c ++ before :: after :: d ∧
            afterPause.now.toNat ≤
              p.now.toNat + 2 * bloomEpochNs.toNat + (after - before) :=
  flagged_age_le .little zoneTrie srcZoneTrie [beforePause] afterPause (by decide +kernel)
    ⟨1#8, by decide +kernel⟩

end PacketLoss.RetransWindow
