import PacketLoss.FilterRuns
import PacketLoss.ZoneClassification
import Mathlib.Data.Set.Finite.Lemmas
import Mathlib.Data.Set.Finite.List

/-!
To which remote zone a packet is counted. The source address is looked up among
the subnets of the source zone alone and the destination among those of the
remote zones alone. One table of all zones would agree as long as no remote
subnet around the source address, and no source subnet around the destination,
is the longer one.
-/
namespace PacketLoss.ZoneAttribution

open Machine Cidr ZoneConfig ValidConfig KernelTrie Segments PathEgress FilterRuns ZoneTables
  ZoneClassification

variable {T : Type} [LpmTrie T] {e : Endian} {c : Config} {range : c.zones.Range} {m : Maps T}

/-- The address lies in the source zone. -/
def InSource (c : Config) (addr : List U8) : Prop :=
  ∃ n, Subnet c c.sourceZone n ∧ n.IsIPv4 ∧ n.Contains addr

/-- A remote subnet around the address is longer than every source subnet around it. -/
def RemoteLonger (c : Config) (addr : List U8) : Prop :=
  ∃ name n, RemoteSubnet c name n ∧ n.IsIPv4 ∧ n.Contains addr ∧
    ∀ n', Subnet c c.sourceZone n' → n'.IsIPv4 → n'.Contains addr →
      maskSize n'.mask < maskSize n.mask

/-- A source subnet around the address is longer than every remote subnet around it. -/
def SourceLonger (c : Config) (addr : List U8) : Prop :=
  ∃ n, Subnet c c.sourceZone n ∧ n.IsIPv4 ∧ n.Contains addr ∧
    ∀ name' n', RemoteSubnet c name' n' → n'.IsIPv4 → n'.Contains addr →
      maskSize n'.mask < maskSize n.mask

theorem counted_iff (m : Maps T) (pre : List Invocation) {inv : Invocation} {seg : Segment}
    (hparse : parseSegment e inv.skb = .ok seg) (z : U8) :
    (∃ r, outcomeAfter e m pre inv = .counted z r) ↔
      (LpmTrie.lookup m.srcZoneLpm (lpmKey e seg.saddr)).isSome ∧
        LpmTrie.lookup m.zoneLpm (lpmKey e seg.daddr) = some z := by
  constructor
  · intro hcounted
    rcases hcounted with ⟨r, hout⟩
    obtain ⟨seg', hseg⟩ := zoned_of_counted e m hout
    obtain ⟨hparse', hlookups⟩ := (zonedSegment_eq_some_iff e m).mp hseg
    rw [hparse, Except.ok.injEq] at hparse'
    subst hparse'
    exact hlookups
  · intro hlookups
    have hz := (zonedSegment_eq_some_iff e m).mpr ⟨hparse, hlookups⟩
    exact ⟨_, outcomeAfter_of_zoned e m pre hz⟩

/-- Among the source subnets around an address there is a longest. -/
theorem exists_longest_source {addr : List U8} (h : InSource c addr) :
    ∃ n, Subnet c c.sourceZone n ∧ n.IsIPv4 ∧ n.Contains addr ∧
      ∀ n', Subnet c c.sourceZone n' → n'.IsIPv4 → n'.Contains addr →
        maskSize n'.mask ≤ maskSize n.mask := by
  have hfinite : {n | Subnet c c.sourceZone n ∧ n.IsIPv4 ∧ n.Contains addr}.Finite := by
    apply Set.Finite.subset (List.finite_toSet ((allNets c.zones).map Prod.snd))
    rintro n ⟨hn, -⟩
    exact List.mem_map.mpr ⟨_, (subnet_iff_mem c _ n).mp hn, rfl⟩
  obtain ⟨n, ⟨hn, hfour, hcontains⟩, hmax⟩ :=
    Set.exists_max_image _ (fun n => maskSize n.mask) hfinite h
  exact ⟨n, hn, hfour, hcontains, fun n' hn' hfour' hcontains' =>
    hmax n' ⟨hn', hfour', hcontains'⟩⟩

theorem ownsLongest_source_iff (addr : List U8) :
    OwnsLongest (Subnet c) addr c.sourceZone ↔ InSource c addr ∧ ¬RemoteLonger c addr := by
  constructor
  · intro howns
    rcases howns with ⟨n, hn, hfour, hcontains, hlongest⟩
    refine ⟨⟨n, hn, hfour, hcontains⟩, ?_⟩
    intro hlong
    rcases hlong with ⟨name, n', hn', hfour', hcontains', hlonger⟩
    have hle := hlongest name n' hn'.2 hfour' hcontains'
    have hlt := hlonger n hn hfour hcontains
    omega
  · intro hboth
    rcases hboth with ⟨hsource, hnot⟩
    obtain ⟨n, hn, hfour, hcontains, hmax⟩ := exists_longest_source hsource
    refine ⟨n, hn, hfour, hcontains, fun name n' hn' hfour' hcontains' => ?_⟩
    by_cases hname : name = c.sourceZone
    · subst hname
      exact hmax n' hn' hfour' hcontains'
    · by_contra hlt
      refine hnot ⟨name, n', ⟨hname, hn'⟩, hfour', hcontains', fun n'' hn'' hf hc => ?_⟩
      have hle := hmax n'' hn'' hf hc
      omega

theorem ownsLongest_remote_iff (addr : List U8) {name : String} (hname : name ≠ c.sourceZone) :
    OwnsLongest (Subnet c) addr name ↔
      OwnsLongest (RemoteSubnet c) addr name ∧ ¬SourceLonger c addr := by
  constructor
  · intro howns
    rcases howns with ⟨n, hn, hfour, hcontains, hlongest⟩
    refine ⟨⟨n, ⟨hname, hn⟩, hfour, hcontains, fun name' n' hn' => hlongest name' n' hn'.2⟩, ?_⟩
    intro hlong
    rcases hlong with ⟨n', hn', hfour', hcontains', hlonger⟩
    have hle := hlongest _ n' hn' hfour' hcontains'
    have hlt := hlonger name n ⟨hname, hn⟩ hfour hcontains
    omega
  · intro hboth
    rcases hboth with ⟨⟨n, hn, hfour, hcontains, hlongest⟩, hnot⟩
    refine ⟨n, hn.2, hfour, hcontains, fun name' n' hn' hfour' hcontains' => ?_⟩
    by_cases hsource : name' = c.sourceZone
    · subst hsource
      by_contra hlt
      refine hnot ⟨n', hn', hfour', hcontains', fun name'' n'' hn'' hf hc => ?_⟩
      have hle := hlongest name'' n'' hn'' hf hc
      omega
    · exact hlongest name' n' ⟨hsource, hn'⟩ hfour' hcontains'

/-- A counted packet goes to the remote zone that owns the longest remote subnet
around its destination, if its source lies in the source zone. One table of all
zones says the same, unless the other side has the longer subnet at either end. -/
theorem attributed_iff {c₀ : Config} {zoneOrder nameOrder : c₀.zones.Range}
    (haccepted : c₀.validate zoneOrder nameOrder = .ok c)
    (hstart : start T e c range = some m) (hfour : ∀ name n, Subnet c name n → n.IsIPv4)
    (hdistinct : DistinctNets c) (pre : List Invocation) {inv : Invocation} {seg : Segment}
    (hparse : parseSegment e inv.skb = .ok seg) {name : String} {z : U8}
    (hname : name ≠ c.sourceZone) (hz : c.zoneID name = some z) :
    ((∃ r, outcomeAfter e m pre inv = .counted z r) ↔
        InSource c (storeU32 e seg.saddr) ∧
          OwnsLongest (RemoteSubnet c) (storeU32 e seg.daddr) name) ∧
      (OwnsLongest (Subnet c) (storeU32 e seg.saddr) c.sourceZone ∧
          OwnsLongest (Subnet c) (storeU32 e seg.daddr) name ↔
        (∃ r, outcomeAfter e m pre inv = .counted z r) ∧
          ¬RemoteLonger c (storeU32 e seg.saddr) ∧ ¬SourceLonger c (storeU32 e seg.daddr)) := by
  have hvalid := (valid_of_validate haccepted).1
  have hcounted : (∃ r, outcomeAfter e m pre inv = .counted z r) ↔
      InSource c (storeU32 e seg.saddr) ∧
        OwnsLongest (RemoteSubnet c) (storeU32 e seg.daddr) name := by
    rw [counted_iff m pre hparse, source_iff_contains hvalid hstart hfour,
      zone_iff_ownsLongest hvalid hstart hfour hdistinct]
    refine and_congr_right fun _ => ⟨?_, fun howns => ⟨name, hz, howns⟩⟩
    intro hexists
    rcases hexists with ⟨name', hz', howns⟩
    rwa [← hvalid.zoneID_inj hz' hz]
  refine ⟨hcounted, ?_⟩
  rw [hcounted, ownsLongest_source_iff, ownsLongest_remote_iff _ hname]
  tauto

/-- Zone `d` is a part of the source zone's subnet. -/
def nestedZones : GoMap String (List String) where
  entries := [("c", ["192.168.0.0/24"]), ("d", ["192.168.3.0/28"]), ("e", ["192.168.3.0/24"])]
  nodup := by decide

/-- A packet of the sample flow, from 192.168.3.10 to 192.168.0.20. -/
def nestedPacket : Invocation := sampleSegment 1000#32 0x18#8 [1#8] 2000000000#64

theorem nestedPacket_segment : parseSegment .little nestedPacket.skb =
    .ok ⟨0x0a03a8c0#32, 0x1400a8c0#32, 0x409c#16, 0xbb01#16, 1000#32, 1, false, true⟩ := by
  rfl

theorem exists_started_nested :
    ∃ c m, (sampleConfig nestedZones).validate nestedZones.listed nestedZones.listed = .ok c ∧
      start PrefixList .little c c.zones.listed = some m ∧ c.zoneID "c" = some 1#8 ∧
        outcomeAfter .little m [] nestedPacket = .counted 1#8 false := by
  obtain ⟨c, m, hval, hstart, hout⟩ := exists_started (sampleConfig nestedZones)
    (fun m => outcomeAfter .little m [] nestedPacket) (.counted 1#8 false) (by decide +kernel)
  obtain ⟨hvalid, hzones, -⟩ := valid_of_validate hval
  refine ⟨c, m, hval, hstart, (hvalid.zoneID_iff _ _).mpr ⟨0, ?_, rfl⟩, hout⟩
  rw [sortedNames, hzones]
  decide +kernel

theorem nested_isIPv4 : ∀ p ∈ allNets nestedZones, p.2.IsIPv4 := by decide +kernel

theorem nested_distinct : ∀ p ∈ allNets nestedZones, ∀ q ∈ allNets nestedZones,
    p.2 = q.2 → p.2.IsIPv4 → p.1 = q.1 := by decide +kernel

/-- A packet from zone `d` is counted as traffic from the source zone to `c`. -/
theorem remote_source_attributed :
    ∃ c m, (sampleConfig nestedZones).validate nestedZones.listed nestedZones.listed = .ok c ∧
      start PrefixList .little c c.zones.listed = some m ∧
        (∀ name n, Subnet c name n → n.IsIPv4) ∧ DistinctNets c ∧
          c.zoneID "c" = some 1#8 ∧
            outcomeAfter .little m [] nestedPacket = .counted 1#8 false ∧
              OwnsLongest (Subnet c) (storeU32 .little 0x0a03a8c0#32) "d" ∧
                ¬OwnsLongest (Subnet c) (storeU32 .little 0x0a03a8c0#32) c.sourceZone := by
  obtain ⟨c, m, hval, hstart, hid, hout⟩ := exists_started_nested
  obtain ⟨-, hzones, hsource⟩ := valid_of_validate hval
  refine ⟨c, m, hval, hstart, ?_, ?_, hid, hout, ?_, ?_⟩
  · rw [isIPv4_iff, hzones]
    exact nested_isIPv4
  · rw [distinctNets_iff, hzones]
    exact nested_distinct
  · rw [ownsLongest_iff, hzones]
    decide +kernel
  · rw [ownsLongest_iff, hzones, hsource]
    decide +kernel

theorem nested_attributed :
    ∃ c m, (sampleConfig nestedZones).validate nestedZones.listed nestedZones.listed = .ok c ∧
      start PrefixList .little c c.zones.listed = some m ∧
        InSource c (storeU32 .little 0x0a03a8c0#32) ∧
          OwnsLongest (RemoteSubnet c) (storeU32 .little 0x1400a8c0#32) "c" := by
  obtain ⟨c, m, hval, hstart, hid, hout⟩ := exists_started_nested
  obtain ⟨-, hzones, hsource⟩ := valid_of_validate hval
  have hfour : ∀ name n, Subnet c name n → n.IsIPv4 := by
    rw [isIPv4_iff, hzones]
    exact nested_isIPv4
  have hdistinct : DistinctNets c := by
    rw [distinctNets_iff, hzones]
    exact nested_distinct
  have hremote : "c" ≠ c.sourceZone := by
    rw [hsource]
    decide
  have hattributed := attributed_iff hval hstart hfour hdistinct [] nestedPacket_segment
    hremote hid
  exact ⟨c, m, hval, hstart, hattributed.1.mp ⟨false, hout⟩⟩

end PacketLoss.ZoneAttribution
