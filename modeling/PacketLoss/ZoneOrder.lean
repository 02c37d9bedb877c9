import PacketLoss.ZoneClassification

/-!
`ZoneLPMEntries` ranges over the map of zones as it comes. If two remote zones
have subnets with one key, the trie keeps the id of the zone that came last, so
a restart can move the traffic of that key from one zone to the other.
-/
namespace PacketLoss.ZoneOrder

open Machine Cidr ZoneConfig Config ValidConfig KernelTrie PathEgress LongestPrefix ZoneTables
  ZoneClassification

variable {T : Type} [LpmTrie T] {e : Endian} {c : Config}

def keysOf (e : Endian) (netsOf : List (String × IPNet)) : Finset (List Bool) :=
  (netsOf.map fun p => netBits e p.2).toFinset

/-- What `Put` needs: short prefixes, and no more of them than a trie has room for. -/
def TablesFit (e : Endian) (c : Config) : Prop :=
  (∀ p ∈ allNets c.zones, (lpmKeyFromNet e p.2).prefixLen.toNat ≤ 32) ∧
    (keysOf e ((allNets c.zones).filter fun p => p.1 ≠ c.sourceZone)).card ≤ maxZoneEntries ∧
      (keysOf e ((allNets c.zones).filter fun p => p.1 = c.sourceZone)).card ≤ maxZoneEntries

theorem fits_iff {entries : List ZoneEntry} {netsOf : List (String × IPNet)}
    (h : ∀ n, n ∈ entries.map ZoneEntry.net ↔ n ∈ netsOf.map Prod.snd) :
    Fits e entries ↔ (∀ p ∈ netsOf, (lpmKeyFromNet e p.2).prefixLen.toNat ≤ 32) ∧
      (keysOf e netsOf).card ≤ maxZoneEntries := by
  have hkeys : (entries.map fun entry => netBits e entry.net).toFinset = keysOf e netsOf := by
    ext p
    have hleft : entries.map (fun entry => netBits e entry.net) =
        (entries.map ZoneEntry.net).map (netBits e) := by simp
    have hright : netsOf.map (fun p => netBits e p.2) = (netsOf.map Prod.snd).map (netBits e) := by
      simp
    unfold keysOf
    rw [List.mem_toFinset, List.mem_toFinset, hleft, hright, List.mem_map, List.mem_map]
    simp only [h]
  have hlen : (∀ entry ∈ entries, (lpmKeyFromNet e entry.net).prefixLen.toNat ≤ 32) ↔
      ∀ p ∈ netsOf, (lpmKeyFromNet e p.2).prefixLen.toNat ≤ 32 := by
    have hleft := List.forall_mem_map (l := entries) (f := ZoneEntry.net)
      (P := fun n => (lpmKeyFromNet e n).prefixLen.toNat ≤ 32)
    have hright := List.forall_mem_map (l := netsOf) (f := Prod.snd)
      (P := fun n => (lpmKeyFromNet e n).prefixLen.toNat ≤ 32)
    rw [← hleft, ← hright]
    simp only [h]
  unfold Fits
  rw [hkeys, hlen]

theorem mem_remote_nets (hvalid : Valid c) (range : c.zones.Range) (n : IPNet) :
    n ∈ ((range.order.filter fun e => e.1 ≠ c.sourceZone).flatMap
        (zoneEntriesOf c)).map ZoneEntry.net ↔
      n ∈ ((allNets c.zones).filter fun p => p.1 ≠ c.sourceZone).map Prod.snd := by
  simp only [List.mem_map, hvalid.mem_remote_entries range, List.mem_filter, decide_eq_true_eq,
    Prod.exists, ← subnet_iff_mem, exists_eq_right]
  constructor
  · intro hentry
    rcases hentry with ⟨entry, ⟨name, hname, -, hn⟩, rfl⟩
    exact ⟨name, hn, hname⟩
  · intro hnet
    rcases hnet with ⟨name, hn, hname⟩
    obtain ⟨subnets, _, hmem, -⟩ := id hn
    obtain ⟨z, hz⟩ := hvalid.exists_zoneID hmem
    exact ⟨⟨z, n⟩, ⟨name, hname, hz, hn⟩, rfl⟩

theorem mem_source_nets (hvalid : Valid c) {subnets : List String}
    (hsource : (c.sourceZone, subnets) ∈ c.zones.entries) (n : IPNet) :
    n ∈ (zoneEntriesOf c (c.sourceZone, subnets)).map ZoneEntry.net ↔
      n ∈ ((allNets c.zones).filter fun p => p.1 = c.sourceZone).map Prod.snd := by
  simp only [List.mem_map, mem_source_entries hvalid hsource, List.mem_filter,
    decide_eq_true_eq, Prod.exists, ← subnet_iff_mem, exists_eq_right]
  constructor
  · intro hentry
    rcases hentry with ⟨entry, ⟨-, hn⟩, rfl⟩
    exact hn
  · intro hn
    obtain ⟨z, hz⟩ := hvalid.exists_zoneID hsource
    exact ⟨⟨z, n⟩, ⟨hz, hn⟩, rfl⟩

theorem start_isSome_iff (hvalid : Valid c) (range : c.zones.Range) :
    (∃ m, start T e c range = some m) ↔ TablesFit e c := by
  obtain ⟨subnets, hsource, hsrc⟩ := hvalid.sourceZoneLPMEntries_eq
  simp only [start_eq_some_iff, hvalid.zoneLPMEntries_eq range, hsrc, Except.ok.injEq,
    exists_and_left, exists_eq_left', load_isOk_iff]
  rw [fits_iff (mem_remote_nets hvalid range), fits_iff (mem_source_nets hvalid hsource),
    TablesFit]
  have hall : (∀ p ∈ allNets c.zones, (lpmKeyFromNet e p.2).prefixLen.toNat ≤ 32) ↔
      (∀ p ∈ (allNets c.zones).filter fun p => p.1 ≠ c.sourceZone,
          (lpmKeyFromNet e p.2).prefixLen.toNat ≤ 32) ∧
        ∀ p ∈ (allNets c.zones).filter fun p => p.1 = c.sourceZone,
          (lpmKeyFromNet e p.2).prefixLen.toNat ≤ 32 := by
    simp only [List.mem_filter, decide_eq_true_eq]
    refine ⟨fun h => ⟨fun p hp => h p hp.1, fun p hp => h p hp.1⟩, fun h p hp => ?_⟩
    by_cases hname : p.1 = c.sourceZone
    · exact h.2 p ⟨hp, hname⟩
    · exact h.1 p ⟨hp, hname⟩
  rw [hall]
  tauto

/-- The zone that comes last keeps its keys. -/
theorem content_of_last (hvalid : Valid c) {range : c.zones.Range} {m : Maps T}
    (hstart : start T e c range = some m) {rest : List (String × List String)} {name : String}
    {subnets : List String} (hlast : range.order = rest ++ [(name, subnets)])
    (hname : name ≠ c.sourceZone) {n : IPNet} (hn : n ∈ nets subnets) :
    LpmTrie.content m.zoneLpm (netBits e n) = c.zoneID name := by
  obtain ⟨dst, src, hdst, -, hload⟩ := (start_eq_some_iff e c range m).mp hstart
  have hmem : (name, subnets) ∈ c.zones.entries := by
    rw [← range.mem_iff, hlast]
    simp
  obtain ⟨z, hz⟩ := hvalid.exists_zoneID hmem
  rw [hvalid.zoneLPMEntries_eq range, Except.ok.injEq, hlast, List.filter_append,
    List.filter_cons_of_pos (by simpa using hname), List.filter_nil, List.flatMap_append,
    List.flatMap_singleton] at hdst
  rw [(content_load e hload).1, ← hdst, List.map_append, insertAll_append, insertAll_apply, hz]
  have hvalue : lastValue ((zoneEntriesOf c (name, subnets)).map (tableEntry e)) (netBits e n) =
      some z := by
    apply lastValue_of_agree
    · exact List.mem_map_of_mem ((hvalid.mem_zoneEntriesOf hmem ⟨z, n⟩).mpr ⟨hz, hn⟩)
    · intro z' hz'
      obtain ⟨entry, hentry, heq⟩ := List.mem_map.mp hz'
      obtain ⟨hid, -⟩ := (hvalid.mem_zoneEntriesOf hmem entry).mp hentry
      obtain ⟨-, rfl⟩ := Prod.mk.inj heq
      exact Option.some.inj (hid.symm.trans hz)
  rw [hvalue]
  rfl

/-- Without shared keys the trie is the set of keys with the ids of their zones. -/
theorem content_iff_of_keysApart (hvalid : Valid c) {range : c.zones.Range} {m : Maps T}
    (hstart : start T e c range = some m) (hapart : KeysApart e c) (p : List Bool) (z : U8) :
    LpmTrie.content m.zoneLpm p = some z ↔
      ∃ name n, RemoteSubnet c name n ∧ netBits e n = p ∧ c.zoneID name = some z := by
  obtain ⟨dst, -, hdst, -, hcontent, -, -⟩ := tables_of_start hstart hvalid
  rw [hcontent, insertAll_eq_some_iff (tableEntry_agree hdst hapart), List.mem_map]
  constructor
  · intro hentry
    rcases hentry with ⟨entry, hentry, heq⟩
    obtain ⟨rfl, rfl⟩ := Prod.mk.inj heq
    obtain ⟨name, hz, hn⟩ := (hdst entry).mp hentry
    exact ⟨name, entry.net, hn, rfl, hz⟩
  · intro hkey
    rcases hkey with ⟨name, n, hn, rfl, hz⟩
    exact ⟨⟨z, n⟩, (hdst _).mpr ⟨name, hz, hn⟩, rfl⟩

/-- The classification of an accepted configuration is the same after every
start exactly if no start succeeds or no two remote zones share a key. -/
theorem order_irrelevant_iff {c₀ : Config} {zoneOrder nameOrder : c₀.zones.Range}
    (haccepted : c₀.validate zoneOrder nameOrder = .ok c) :
    (∀ (range range' : c.zones.Range) (m m' : Maps T), start T e c range = some m →
        start T e c range' = some m' →
          LpmTrie.content m.zoneLpm = LpmTrie.content m'.zoneLpm ∧
            ∀ addr, LpmTrie.lookup m.zoneLpm (lpmKey e addr) =
              LpmTrie.lookup m'.zoneLpm (lpmKey e addr)) ↔
      ¬TablesFit e c ∨ KeysApart e c := by
  have hvalid := (valid_of_validate haccepted).1
  constructor
  · intro hsame
    by_contra hnot
    push Not at hnot
    obtain ⟨hfit, hshared⟩ := hnot
    unfold KeysApart at hshared
    push Not at hshared
    obtain ⟨name, n, name', n', ⟨hname, hn⟩, ⟨hname', hn'⟩, hkey, hne⟩ := hshared
    obtain ⟨subnets, s, hmem, hs, hparse⟩ := hn
    obtain ⟨subnets', s', hmem', hs', hparse'⟩ := hn'
    obtain ⟨range, rest, hlast⟩ := GoMap.Range.exists_endingWith hmem
    obtain ⟨range', rest', hlast'⟩ := GoMap.Range.exists_endingWith hmem'
    obtain ⟨m, hm⟩ := (start_isSome_iff (T := T) hvalid range).mpr hfit
    obtain ⟨m', hm'⟩ := (start_isSome_iff (T := T) hvalid range').mpr hfit
    have hid := content_of_last hvalid hm hlast hname ((mem_nets _ n).mpr ⟨s, hs, hparse⟩)
    have hid' := content_of_last hvalid hm' hlast' hname' ((mem_nets _ n').mpr ⟨s', hs', hparse'⟩)
    rw [(hsame range range' m m' hm hm').1, hkey, hid'] at hid
    obtain ⟨z, hz⟩ := hvalid.exists_zoneID hmem
    rw [hz] at hid
    exact hne (hvalid.zoneID_inj hz hid)
  · intro hcond range range' m m' hm hm'
    have hapart : KeysApart e c :=
      hcond.resolve_left (not_not.mpr ((start_isSome_iff hvalid range).mp ⟨m, hm⟩))
    have hcontent : LpmTrie.content m.zoneLpm = LpmTrie.content m'.zoneLpm := by
      funext p
      refine Option.ext fun z => ?_
      rw [content_iff_of_keysApart hvalid hm hapart, content_iff_of_keysApart hvalid hm' hapart]
    exact ⟨hcontent, fun addr => by rw [lookup_lpmKey, lookup_lpmKey, hcontent]⟩

theorem readme_order_irrelevant :
    ∃ c, (sampleConfig readmeZones).validate readmeZones.listed readmeZones.listed = .ok c ∧
      ∀ (range range' : c.zones.Range) (m m' : Maps PrefixList),
        start PrefixList .little c range = some m → start PrefixList .little c range' = some m' →
          LpmTrie.content m.zoneLpm = LpmTrie.content m'.zoneLpm ∧
            ∀ addr, LpmTrie.lookup m.zoneLpm (lpmKey .little addr) =
              LpmTrie.lookup m'.zoneLpm (lpmKey .little addr) := by
  obtain ⟨c, hval, -⟩ := exists_accepted (sampleConfig readmeZones)
    (fun _ => some ()) () (by decide +kernel)
  obtain ⟨-, hzones, -⟩ := valid_of_validate hval
  refine ⟨c, hval, (order_irrelevant_iff hval).mpr (Or.inr (keysApart_of_distinctNets ?_ ?_))⟩
  · rw [isIPv4_iff, hzones]
    decide +kernel
  · rw [distinctNets_iff, hzones]
    decide +kernel

/-- Two remote zones have the same network. -/
def sharedZones : GoMap String (List String) where
  entries := [("c", ["10.0.0.0/8"]), ("d", ["10.1.2.3/8"]), ("e", ["192.168.3.0/24"])]
  nodup := by decide

/-- The zone of 10.9.9.9 depends on the order. -/
theorem shared_network_order_visible :
    ∃ c m m', (sampleConfig sharedZones).validate sharedZones.listed sharedZones.listed = .ok c ∧
      start PrefixList .little c c.zones.listed = some m ∧
        start PrefixList .little c c.zones.reversed = some m' ∧
          LpmTrie.lookup m.zoneLpm (lpmKey .little 0x0909090a#32) = some 2#8 ∧
            LpmTrie.lookup m'.zoneLpm (lpmKey .little 0x0909090a#32) = some 1#8 := by
  obtain ⟨c, hval, hrun⟩ := exists_accepted (sampleConfig sharedZones)
    (fun c => (start PrefixList .little c c.zones.listed).bind fun m =>
      (start PrefixList .little c c.zones.reversed).map fun m' =>
        (LpmTrie.lookup m.zoneLpm (lpmKey .little 0x0909090a#32),
          LpmTrie.lookup m'.zoneLpm (lpmKey .little 0x0909090a#32)))
    (some 2#8, some 1#8) (by decide +kernel)
  obtain ⟨m, hm, hrest⟩ := Option.bind_eq_some_iff.mp hrun
  obtain ⟨m', hm', heq⟩ := Option.map_eq_some_iff.mp hrest
  obtain ⟨hlisted, hreversed⟩ := Prod.mk.inj heq
  exact ⟨c, m, m', hval, hm, hm', hlisted, hreversed⟩

end PacketLoss.ZoneOrder
