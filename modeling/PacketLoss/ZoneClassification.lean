import PacketLoss.ZoneTables

/-!
Which zone an address gets. With IPv4 subnets only, the two tries do what the
configuration says: a source address is found if it lies in the source zone,
and a destination gets the remote zone that owns the longest subnet around it.
A subnet of IPv6 becomes the empty prefix, which every address has.
-/
namespace PacketLoss.ZoneClassification

open Machine PrefixBits Cidr ZoneConfig ValidConfig KernelTrie PathEgress LongestPrefix ZoneTables

def RemoteSubnet (c : Config) (name : String) (n : IPNet) : Prop :=
  name ≠ c.sourceZone ∧ Subnet c name n

/-- The longest IPv4 network of a table around an address belongs to `name`. -/
def OwnsLongest (table : String → IPNet → Prop) (addr : List U8) (name : String) : Prop :=
  ∃ n, table name n ∧ n.IsIPv4 ∧ n.Contains addr ∧ ∀ name' n', table name' n' → n'.IsIPv4 →
    n'.Contains addr → maskSize n'.mask ≤ maskSize n.mask

/-- No IPv4 network belongs to two zones. -/
def DistinctNets (c : Config) : Prop :=
  ∀ name name' n, Subnet c name n → Subnet c name' n → n.IsIPv4 → name = name'

theorem distinctNets_iff (c : Config) :
    DistinctNets c ↔ ∀ p ∈ allNets c.zones, ∀ q ∈ allNets c.zones,
      p.2 = q.2 → p.2.IsIPv4 → p.1 = q.1 := by
  simp only [DistinctNets, subnet_iff_mem, Prod.forall]
  constructor
  · rintro h name n hn name' _ hn' rfl hfour
    exact h name name' n hn hn' hfour
  · exact fun h name name' n hn hn' hfour => h name n hn name' n hn' rfl hfour

theorem isIPv4_iff (c : Config) :
    (∀ name n, Subnet c name n → n.IsIPv4) ↔ ∀ p ∈ allNets c.zones, p.2.IsIPv4 := by
  simp only [subnet_iff_mem, Prod.forall]

theorem ownsLongest_iff (c : Config) (addr : List U8) (name : String) :
    OwnsLongest (Subnet c) addr name ↔
      ∃ p ∈ allNets c.zones, p.1 = name ∧ p.2.IsIPv4 ∧ p.2.Contains addr ∧
        ∀ q ∈ allNets c.zones, q.2.IsIPv4 → q.2.Contains addr →
          maskSize q.2.mask ≤ maskSize p.2.mask := by
  simp only [OwnsLongest, subnet_iff_mem, Prod.exists, Prod.forall]
  constructor
  · intro howns
    rcases howns with ⟨n, hn, hrest⟩
    exact ⟨name, n, hn, rfl, hrest⟩
  · intro howns
    rcases howns with ⟨_, n, hn, rfl, hrest⟩
    exact ⟨n, hn, hrest⟩

variable {T : Type} [LpmTrie T] {e : Endian} {c : Config} {range : c.zones.Range} {m : Maps T}

theorem mem_source_entries (hvalid : Valid c) {subnets : List String}
    (hsource : (c.sourceZone, subnets) ∈ c.zones.entries) (entry : ZoneEntry) :
    entry ∈ zoneEntriesOf c (c.sourceZone, subnets) ↔
      c.zoneID c.sourceZone = some entry.zoneID ∧ Subnet c c.sourceZone entry.net := by
  rw [hvalid.mem_zoneEntriesOf hsource, mem_nets]
  refine and_congr_right fun _ => ⟨?_, ?_⟩
  · intro hnet
    rcases hnet with ⟨s, hs, hparse⟩
    exact ⟨subnets, s, hsource, hs, hparse⟩
  · intro hnet
    rcases hnet with ⟨subnets', s, hmem, hs, hparse⟩
    rw [c.zones.eq_of_mem hsource hmem]
    exact ⟨s, hs, hparse⟩

/-- What the tries hold after a start. -/
theorem tables_of_start (hstart : start T e c range = some m) (hvalid : Valid c) :
    ∃ dst src : List ZoneEntry,
      (∀ entry, entry ∈ dst ↔ ∃ name, c.zoneID name = some entry.zoneID ∧
        RemoteSubnet c name entry.net) ∧
      (∀ entry, entry ∈ src ↔ c.zoneID c.sourceZone = some entry.zoneID ∧
        Subnet c c.sourceZone entry.net) ∧
      LpmTrie.content m.zoneLpm = insertAll (fun _ => none) (dst.map (tableEntry e)) ∧
      LpmTrie.content m.srcZoneLpm = insertAll (fun _ => none) (src.map (tableEntry e)) ∧
      ∀ entry ∈ dst ++ src, (lpmKeyFromNet e entry.net).prefixLen.toNat ≤ 32 := by
  obtain ⟨dst, src, hdst, hsrc, hload⟩ := (start_eq_some_iff e c range m).mp hstart
  obtain ⟨subnets, hsource, hentries⟩ := hvalid.sourceZoneLPMEntries_eq
  rw [hvalid.zoneLPMEntries_eq range, Except.ok.injEq] at hdst
  rw [hentries, Except.ok.injEq] at hsrc
  refine ⟨dst, src, fun entry => ?_, fun entry => ?_, content_load e hload⟩
  · rw [← hdst, hvalid.mem_remote_entries range]
    refine exists_congr fun name => ?_
    rw [RemoteSubnet]
    tauto
  · rw [← hsrc, mem_source_entries hvalid hsource]

/-- Every subnet was put, so its key has at most 32 bits. -/
theorem prefixLen_le_of_start (hstart : start T e c range = some m) (hvalid : Valid c)
    {name : String} {n : IPNet} (hn : Subnet c name n) :
    (lpmKeyFromNet e n).prefixLen.toNat ≤ 32 := by
  obtain ⟨dst, src, hdst, hsrc, -, -, hlen⟩ := tables_of_start hstart hvalid
  obtain ⟨subnets, s, hmem, hs, hparse⟩ := id hn
  obtain ⟨z, hz⟩ := hvalid.exists_zoneID hmem
  apply hlen ⟨z, n⟩
  rw [List.mem_append, hdst, hsrc]
  by_cases hname : name = c.sourceZone
  · subst hname
    exact Or.inr ⟨hz, hn⟩
  · exact Or.inl ⟨name, hz, hname, hn⟩

theorem source_lookup_iff (hstart : start T e c range = some m) (hvalid : Valid c)
    (addr : U32) :
    (LpmTrie.lookup m.srcZoneLpm (lpmKey e addr)).isSome ↔
      ∃ n, Subnet c c.sourceZone n ∧ netBits e n <+: bytesBits (storeU32 e addr) := by
  obtain ⟨-, src, -, hsrc, -, hcontent, -⟩ := tables_of_start hstart hvalid
  rw [lookup_lpmKey, hcontent, lookup_insertAll_isSome_iff]
  constructor
  · intro hfound
    rcases hfound with ⟨_, hpair, hprefix⟩
    obtain ⟨entry, hentry, rfl⟩ := List.mem_map.mp hpair
    exact ⟨entry.net, ((hsrc entry).mp hentry).2, hprefix⟩
  · intro hnet
    rcases hnet with ⟨n, hn, hprefix⟩
    obtain ⟨subnets, _, hmem, -⟩ := id hn
    obtain ⟨z, hz⟩ := hvalid.exists_zoneID hmem
    exact ⟨_, List.mem_map_of_mem ((hsrc ⟨z, n⟩).mpr ⟨hz, hn⟩), hprefix⟩

theorem remote_lookup_isSome_iff (hstart : start T e c range = some m) (hvalid : Valid c)
    (addr : U32) :
    (LpmTrie.lookup m.zoneLpm (lpmKey e addr)).isSome ↔
      ∃ name n, RemoteSubnet c name n ∧ netBits e n <+: bytesBits (storeU32 e addr) := by
  obtain ⟨dst, -, hdst, -, hcontent, -, -⟩ := tables_of_start hstart hvalid
  rw [lookup_lpmKey, hcontent, lookup_insertAll_isSome_iff]
  constructor
  · intro hfound
    rcases hfound with ⟨_, hpair, hprefix⟩
    obtain ⟨entry, hentry, rfl⟩ := List.mem_map.mp hpair
    obtain ⟨name, -, hn⟩ := (hdst entry).mp hentry
    exact ⟨name, entry.net, hn, hprefix⟩
  · intro hnet
    rcases hnet with ⟨name, n, hn, hprefix⟩
    obtain ⟨subnets, _, hmem, -⟩ := id hn.2
    obtain ⟨z, hz⟩ := hvalid.exists_zoneID hmem
    exact ⟨_, List.mem_map_of_mem ((hdst ⟨z, n⟩).mpr ⟨name, hz, hn⟩), hprefix⟩

/-- No two remote zones have subnets with one key. -/
def KeysApart (e : Endian) (c : Config) : Prop :=
  ∀ name n name' n', RemoteSubnet c name n → RemoteSubnet c name' n' →
    netBits e n = netBits e n' → name = name'

theorem tableEntry_agree {dst : List ZoneEntry}
    (hdst : ∀ entry, entry ∈ dst ↔ ∃ name, c.zoneID name = some entry.zoneID ∧
      RemoteSubnet c name entry.net) (hapart : KeysApart e c) (p : List Bool) (v v' : U8)
    (hv : (p, v) ∈ dst.map (tableEntry e)) (hv' : (p, v') ∈ dst.map (tableEntry e)) :
    v = v' := by
  obtain ⟨entry, hentry, heq⟩ := List.mem_map.mp hv
  obtain ⟨entry', hentry', heq'⟩ := List.mem_map.mp hv'
  obtain ⟨name, hz, hn⟩ := (hdst entry).mp hentry
  obtain ⟨name', hz', hn'⟩ := (hdst entry').mp hentry'
  obtain ⟨rfl, rfl⟩ := Prod.mk.inj heq
  obtain ⟨hbits, rfl⟩ := Prod.mk.inj heq'
  rw [hapart name _ name' _ hn hn' hbits.symm, hz'] at hz
  exact (Option.some.inj hz).symm

/-- Where no two remote zones share a key, the longest key decides. -/
theorem remote_lookup_iff (hstart : start T e c range = some m) (hvalid : Valid c)
    (hapart : KeysApart e c) (addr : U32) (z : U8) :
    LpmTrie.lookup m.zoneLpm (lpmKey e addr) = some z ↔
      ∃ name n, c.zoneID name = some z ∧ RemoteSubnet c name n ∧
        netBits e n <+: bytesBits (storeU32 e addr) ∧
          ∀ name' n', RemoteSubnet c name' n' →
            netBits e n' <+: bytesBits (storeU32 e addr) →
              (netBits e n').length ≤ (netBits e n).length := by
  obtain ⟨dst, -, hdst, -, hcontent, -, -⟩ := tables_of_start hstart hvalid
  rw [lookup_lpmKey, hcontent, lookup_insertAll_eq_some_iff (tableEntry_agree hdst hapart)]
  constructor
  · intro hfound
    rcases hfound with ⟨p, hmem, hprefix, hlongest⟩
    obtain ⟨entry, hentry, heq⟩ := List.mem_map.mp hmem
    obtain ⟨rfl, rfl⟩ := Prod.mk.inj heq
    obtain ⟨name, hz, hn⟩ := (hdst entry).mp hentry
    refine ⟨name, entry.net, hz, hn, hprefix, fun name' n' hn' hprefix' => ?_⟩
    obtain ⟨subnets, _, hmem', -⟩ := id hn'.2
    obtain ⟨z', hz'⟩ := hvalid.exists_zoneID hmem'
    exact hlongest _ (List.mem_map_of_mem ((hdst ⟨z', n'⟩).mpr ⟨name', hz', hn'⟩)) hprefix'
  · intro hlong
    rcases hlong with ⟨name, n, hz, hn, hprefix, hlongest⟩
    refine ⟨netBits e n, List.mem_map_of_mem ((hdst ⟨z, n⟩).mpr ⟨name, hz, hn⟩), hprefix, ?_⟩
    intro _ hpair hprefix'
    obtain ⟨entry, hentry, rfl⟩ := List.mem_map.mp hpair
    obtain ⟨name', -, hn'⟩ := (hdst entry).mp hentry
    exact hlongest name' entry.net hn' hprefix'

/-- The two tries classify as the configuration says. -/
structure Classifies (e : Endian) (c : Config) (m : Maps T) : Prop where
  source : ∀ addr, (LpmTrie.lookup m.srcZoneLpm (lpmKey e addr)).isSome ↔
    ∃ n, Subnet c c.sourceZone n ∧ n.IsIPv4 ∧ n.Contains (storeU32 e addr)
  zone : ∀ addr z, LpmTrie.lookup m.zoneLpm (lpmKey e addr) = some z ↔
    ∃ name, c.zoneID name = some z ∧ OwnsLongest (RemoteSubnet c) (storeU32 e addr) name
  noZone : ∀ addr, LpmTrie.lookup m.zoneLpm (lpmKey e addr) = none ↔
    ¬∃ name n, RemoteSubnet c name n ∧ n.IsIPv4 ∧ n.Contains (storeU32 e addr)
  notIPv4 : ∀ name n, Subnet c name n → ¬n.IsIPv4 →
    ∀ addr, ¬netBits e n <+: bytesBits (storeU32 e addr)

theorem prefix_iff_contains {name : String} {n : IPNet} (hn : Subnet c name n)
    (hfour : n.IsIPv4) (addr : U32) :
    netBits e n <+: bytesBits (storeU32 e addr) ↔ n.Contains (storeU32 e addr) :=
  netBits_prefix_iff e hn.canonical hfour addr

theorem keysApart_of_distinctNets (hfour : ∀ name n, Subnet c name n → n.IsIPv4)
    (hdistinct : DistinctNets c) : KeysApart e c := by
  intro name n name' n' hn hn' heq
  have hnets : n = n' := netBits_inj e hn.2.canonical hn'.2.canonical (hfour _ _ hn.2)
    (hfour _ _ hn'.2) heq
  subst hnets
  exact hdistinct name name' n hn.2 hn'.2 (hfour _ _ hn.2)

theorem zone_iff_ownsLongest (hvalid : Valid c) (hstart : start T e c range = some m)
    (hfour : ∀ name n, Subnet c name n → n.IsIPv4) (hdistinct : DistinctNets c)
    (addr : U32) (z : U8) :
    LpmTrie.lookup m.zoneLpm (lpmKey e addr) = some z ↔
      ∃ name, c.zoneID name = some z ∧ OwnsLongest (RemoteSubnet c) (storeU32 e addr) name := by
  rw [remote_lookup_iff hstart hvalid (keysApart_of_distinctNets hfour hdistinct)]
  have hlen : ∀ name n, RemoteSubnet c name n → (netBits e n).length = maskSize n.mask :=
    fun name n hn => length_netBits e hn.2.canonical (hfour name n hn.2)
  constructor
  · intro hlong
    rcases hlong with ⟨name, n, hz, hn, hprefix, hlongest⟩
    refine ⟨name, hz, n, hn, hfour _ _ hn.2,
      (prefix_iff_contains hn.2 (hfour _ _ hn.2) addr).mp hprefix, fun name' n' hn' hf hc => ?_⟩
    rw [← hlen name n hn, ← hlen name' n' hn']
    exact hlongest name' n' hn' ((prefix_iff_contains hn'.2 hf addr).mpr hc)
  · intro howns
    rcases howns with ⟨name, hz, n, hn, hf, hc, hlongest⟩
    refine ⟨name, n, hz, hn, (prefix_iff_contains hn.2 hf addr).mpr hc, fun name' n' hn' hp => ?_⟩
    rw [hlen name n hn, hlen name' n' hn']
    exact hlongest name' n' hn' (hfour _ _ hn'.2)
      ((prefix_iff_contains hn'.2 (hfour _ _ hn'.2) addr).mp hp)

theorem source_iff_contains (hvalid : Valid c) (hstart : start T e c range = some m)
    (hfour : ∀ name n, Subnet c name n → n.IsIPv4) (addr : U32) :
    (LpmTrie.lookup m.srcZoneLpm (lpmKey e addr)).isSome ↔
      ∃ n, Subnet c c.sourceZone n ∧ n.IsIPv4 ∧ n.Contains (storeU32 e addr) := by
  rw [source_lookup_iff hstart hvalid]
  refine exists_congr fun n => and_congr_right fun hn => ?_
  rw [prefix_iff_contains hn (hfour _ _ hn)]
  exact (and_iff_right (hfour _ _ hn)).symm

/-- An accepted configuration is classified as it says exactly if it has no
subnet outside IPv4. -/
theorem classifies_iff {c₀ : Config} {zoneOrder nameOrder : c₀.zones.Range}
    (haccepted : c₀.validate zoneOrder nameOrder = .ok c)
    (hstart : start T e c range = some m) (hdistinct : DistinctNets c) :
    Classifies e c m ↔ ∀ name n, Subnet c name n → n.IsIPv4 := by
  have hvalid := (valid_of_validate haccepted).1
  constructor
  · intro h name n hn
    by_contra hnot
    apply h.notIPv4 name n hn hnot 0#32
    rw [netBits_of_not_isIPv4 e hn.canonical hnot (prefixLen_le_of_start hstart hvalid hn)]
    exact List.nil_prefix
  · intro hfour
    refine ⟨source_iff_contains hvalid hstart hfour,
      zone_iff_ownsLongest hvalid hstart hfour hdistinct, fun addr => ?_,
      fun name n hn hnot => absurd (hfour name n hn) hnot⟩
    rw [← Option.not_isSome_iff_eq_none, remote_lookup_isSome_iff hstart hvalid]
    refine not_congr (exists₂_congr fun name n => and_congr_right fun hn => ?_)
    rw [prefix_iff_contains hn.2 (hfour _ _ hn.2)]
    exact (and_iff_right (hfour _ _ hn.2)).symm

/-- A configuration with the given zones, of which `e` is the source. -/
def sampleConfig (zones : GoMap String (List String)) : Config where
  sourceZone := "e"
  listen := ":9435"
  pollInterval := second
  instantWindow := 10 * second
  zones := zones
  emaHalfLife := 5 * 60 * second
  zoneIDs := fun _ => none

theorem exists_accepted {α : Type} (c₀ : Config) (f : Config → Option α) (a : α)
    (h : (c₀.validate c₀.zones.listed c₀.zones.listed).toOption.bind f = some a) :
    ∃ c, c₀.validate c₀.zones.listed c₀.zones.listed = .ok c ∧ f c = some a := by
  cases hval : c₀.validate c₀.zones.listed c₀.zones.listed with
  | error err => simp [hval, Except.toOption] at h
  | ok c => exact ⟨c, rfl, by simpa [hval, Except.toOption] using h⟩

/-- What the maps of a sample show can be computed. -/
theorem exists_started {α : Type} (c₀ : Config) (f : Maps PrefixList → α) (a : α)
    (h : ((c₀.validate c₀.zones.listed c₀.zones.listed).toOption.bind fun c =>
      (start PrefixList .little c c.zones.listed).map f) = some a) :
    ∃ c m, c₀.validate c₀.zones.listed c₀.zones.listed = .ok c ∧
      start PrefixList .little c c.zones.listed = some m ∧ f m = a := by
  obtain ⟨c, hval, hrest⟩ := exists_accepted c₀ _ a h
  obtain ⟨m, hm, hf⟩ := Option.map_eq_some_iff.mp hrest
  exact ⟨c, m, hval, hm, hf⟩

/-- The zones of the README. -/
def readmeZones : GoMap String (List String) where
  entries := [("c", ["192.168.0.0/24"]), ("d", ["192.168.1.0/24"]),
    ("e", ["192.168.3.0/24", "192.168.4.0/24"]), ("f", ["192.168.5.0/24", "192.168.6.0/24"])]
  nodup := by decide

theorem readme_classifies :
    ∃ c m, (sampleConfig readmeZones).validate readmeZones.listed readmeZones.listed = .ok c ∧
      start PrefixList .little c c.zones.listed = some m ∧ Classifies .little c m := by
  obtain ⟨c, m, hval, hstart, -⟩ := exists_started (sampleConfig readmeZones)
    (fun _ => ()) () (by decide +kernel)
  obtain ⟨-, hzones, -⟩ := valid_of_validate hval
  refine ⟨c, m, hval, hstart, (classifies_iff hval hstart ?_).mpr ?_⟩
  · rw [distinctNets_iff, hzones]
    decide +kernel
  · rw [isIPv4_iff, hzones]
    decide +kernel

/-- Zone `d` has an IPv6 subnet. -/
def ipv6Zones : GoMap String (List String) where
  entries := [("c", ["192.168.0.0/24"]), ("d", ["2001:db8::/32"]), ("e", ["192.168.3.0/24"])]
  nodup := by decide

/-- With an IPv6 subnet in zone `d`, 8.8.8.8 is classified as zone `d`. -/
theorem ipv6_subnet_matches_all :
    ∃ c m, (sampleConfig ipv6Zones).validate ipv6Zones.listed ipv6Zones.listed = .ok c ∧
      start PrefixList .little c c.zones.listed = some m ∧ DistinctNets c ∧
        LpmTrie.lookup m.zoneLpm (lpmKey .little 0x08080808#32) = some 2#8 ∧
          ¬∃ name n, RemoteSubnet c name n ∧ n.IsIPv4 ∧
            n.Contains (storeU32 .little 0x08080808#32) := by
  obtain ⟨c, m, hval, hstart, hlookup⟩ := exists_started (sampleConfig ipv6Zones)
    (fun m => LpmTrie.lookup m.zoneLpm (lpmKey .little 0x08080808#32)) (some 2#8)
    (by decide +kernel)
  obtain ⟨-, hzones, -⟩ := valid_of_validate hval
  refine ⟨c, m, hval, hstart, ?_, hlookup, ?_⟩
  · rw [distinctNets_iff, hzones]
    decide +kernel
  · intro howns
    rcases howns with ⟨name, n, ⟨-, hn⟩, hfour, hcontains⟩
    have hnone : ∀ p ∈ allNets ipv6Zones, p.2.IsIPv4 →
        ¬p.2.Contains (storeU32 .little 0x08080808#32) := by decide +kernel
    rw [subnet_iff_mem, hzones] at hn
    exact hnone (name, n) hn hfour hcontains

end PacketLoss.ZoneClassification
