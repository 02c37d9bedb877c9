import PacketLoss.ZoneOrder

/-!
What `Validate` accepts and what the tries have room for. It limits the number of
zones, but a trie takes 64 networks and prefixes of at most 32 bits.
-/
namespace PacketLoss.TableLimits

open Machine Cidr ZoneConfig Config ValidConfig KernelTrie ZoneTables ZoneOrder
  ZoneClassification

/-- The network is written as an IPv4-mapped IPv6 one. -/
def IsMapped (n : IPNet) : Prop := n.ip.length = 16 ∧ n.ip.take 12 = v4InV6Prefix

instance (n : IPNet) : Decidable (IsMapped n) := inferInstanceAs (Decidable (_ ∧ _))

/-- The IPv4 network whose key `n` gets: the IPv6 networks get that of 0.0.0.0/0. -/
def keyNet (n : IPNet) : IPNet :=
  if n.IsIPv4 then n else ⟨List.replicate 4 0#8, List.replicate 4 0#8⟩

/-- How many keys the networks need. -/
def keyCount (netsOf : List (String × IPNet)) : ℕ :=
  (netsOf.map fun p => keyNet p.2).toFinset.card

/-- The subnets that the tries have room for. -/
structure Small (c : Config) : Prop where
  unmapped : ∀ p ∈ allNets c.zones, ¬IsMapped p.2
  remote : keyCount ((allNets c.zones).filter fun p => p.1 ≠ c.sourceZone) ≤ maxZoneEntries
  source : keyCount ((allNets c.zones).filter fun p => p.1 = c.sourceZone) ≤ maxZoneEntries

/-- The keys that `Load` puts into one trie. -/
def loadKeys (e : Endian) (entries : List ZoneEntry) : List ZoneLpmKey :=
  entries.map fun entry => lpmKeyFromNet e entry.net

/-- No key is longer than an address, and there are no more than the trie takes. -/
def KeysFit (e : Endian) (entries : List ZoneEntry) : Prop :=
  (∀ k ∈ loadKeys e entries, k.prefixLen.toNat ≤ 32) ∧
    (loadKeys e entries).toFinset.card ≤ maxZoneEntries

variable (e : Endian)

/-- What `To4` makes of a network: a mapped one passes for IPv4 under its long mask. -/
theorem to4_cases {n : IPNet} {ones : ℕ} (h : Canonical n ones) :
    (n.IsIPv4 ∧ ¬IsMapped n ∧ ones ≤ 32 ∧ to4 n.ip = some n.ip) ∨
      (IsMapped n ∧ 32 < ones ∧ to4 n.ip = some (n.ip.drop 12)) ∨
      (¬n.IsIPv4 ∧ ¬IsMapped n ∧ to4 n.ip = none) := by
  have hones := h.ones_le
  rcases h.length_ip with hfour | hsixteen
  · left
    refine ⟨hfour, fun hmapped => ?_, by omega, if_pos hfour⟩
    have hlength := hmapped.1
    omega
  · have hnot : ¬n.ip.length = 4 := by omega
    right
    by_cases hprefix : n.ip.take 12 = v4InV6Prefix
    · left
      refine ⟨⟨hsixteen, hprefix⟩, h.ones_of_mapped hsixteen hprefix, ?_⟩
      rw [to4, if_neg hnot, if_pos ⟨hsixteen, hprefix⟩]
    · right
      refine ⟨hnot, fun hmapped => hprefix hmapped.2, ?_⟩
      rw [to4, if_neg hnot, if_neg fun hmapped => hprefix hmapped.2]

theorem prefixLen_le_iff {n : IPNet} {ones : ℕ} (h : Canonical n ones) :
    (lpmKeyFromNet e n).prefixLen.toNat ≤ 32 ↔ ¬IsMapped n := by
  have hones : ones ≤ 128 := by
    have hle := h.ones_le
    have hlength := h.length_ip
    omega
  rcases to4_cases h with ⟨-, hnot, hshort, hto4⟩ | ⟨hmapped, hlong, hto4⟩ | ⟨-, hnot, hto4⟩
  · simp only [lpmKeyFromNet, hto4, h.size_mask, BitVec.toNat_ofNat, hnot, not_false_iff, iff_true]
    omega
  · simp only [lpmKeyFromNet, hto4, h.size_mask, BitVec.toNat_ofNat, hmapped, not_true, iff_false]
    omega
  · simp [lpmKeyFromNet, hto4, hnot]

theorem lpmKeyFromNet_keyNet {n : IPNet} {ones : ℕ} (h : Canonical n ones) (hnot : ¬IsMapped n) :
    lpmKeyFromNet e (keyNet n) = lpmKeyFromNet e n := by
  rcases to4_cases h with ⟨hfour, -⟩ | ⟨hmapped, -⟩ | ⟨hnotfour, -, hto4⟩
  · rw [keyNet, if_pos hfour]
  · exact absurd hmapped hnot
  · rw [keyNet, if_neg hnotfour, lpmKeyFromNet, lpmKeyFromNet, hto4]
    cases e <;> rfl

theorem canonical_keyNet {n : IPNet} {ones : ℕ} (h : Canonical n ones) :
    (keyNet n).IsIPv4 ∧ ∃ ones', Canonical (keyNet n) ones' := by
  unfold keyNet
  split
  · rename_i hfour
    exact ⟨hfour, ones, h⟩
  · refine ⟨by decide, 0, ?_⟩
    constructor <;> decide

/-- The bits in the trie tell the networks apart as far as their keys do. -/
theorem netBits_eq_iff {n n' : IPNet} {ones ones' : ℕ} (h : Canonical n ones)
    (h' : Canonical n' ones') (hnot : ¬IsMapped n) (hnot' : ¬IsMapped n') :
    (netBits e n = netBits e n' ↔ keyNet n = keyNet n') ∧
      (netBits e n = netBits e n' ↔ lpmKeyFromNet e n = lpmKeyFromNet e n') := by
  have hkey := lpmKeyFromNet_keyNet e h hnot
  have hkey' := lpmKeyFromNet_keyNet e h' hnot'
  have hbits : netBits e n = netBits e n' → keyNet n = keyNet n' := by
    intro heq
    obtain ⟨hfour, _, hn⟩ := canonical_keyNet h
    obtain ⟨hfour', _, hn'⟩ := canonical_keyNet h'
    apply netBits_inj e hn hn' hfour hfour'
    rw [netBits, netBits, hkey, hkey']
    exact heq
  have hnet : keyNet n = keyNet n' → lpmKeyFromNet e n = lpmKeyFromNet e n' := by
    intro heq
    rw [← hkey, ← hkey', heq]
  have hlpm : lpmKeyFromNet e n = lpmKeyFromNet e n' → netBits e n = netBits e n' := by
    intro heq
    rw [netBits, netBits, heq]
  exact ⟨⟨hbits, fun heq => hlpm (hnet heq)⟩, ⟨fun heq => hnet (hbits heq), hlpm⟩⟩

theorem card_toFinset_map_eq {α β γ : Type*} [DecidableEq β] [DecidableEq γ] {l : List α}
    {f : α → β} {g : α → γ} (h : ∀ a ∈ l, ∀ b ∈ l, f a = f b ↔ g a = g b) :
    (l.map f).toFinset.card = (l.map g).toFinset.card := by
  induction l with
  | nil => rfl
  | cons a l ih =>
    have hrest := ih fun b hb b' hb' => h b (List.mem_cons_of_mem _ hb) b'
      (List.mem_cons_of_mem _ hb')
    have hmem : f a ∈ (l.map f).toFinset ↔ g a ∈ (l.map g).toFinset := by
      simp only [List.mem_toFinset, List.mem_map]
      constructor
      · intro hfa
        rcases hfa with ⟨b, hb, heq⟩
        exact ⟨b, hb, (h b (List.mem_cons_of_mem _ hb) a List.mem_cons_self).mp heq⟩
      · intro hga
        rcases hga with ⟨b, hb, heq⟩
        exact ⟨b, hb, (h b (List.mem_cons_of_mem _ hb) a List.mem_cons_self).mpr heq⟩
    rw [List.map_cons, List.map_cons, List.toFinset_cons, List.toFinset_cons,
      Finset.card_insert_eq_ite, Finset.card_insert_eq_ite, hrest]
    simp only [hmem]

variable {e} {c : Config}

theorem fits_iff_keysFit {entries : List ZoneEntry}
    (hnets : ∀ entry ∈ entries, ∃ ones, Canonical entry.net ones) :
    Fits e entries ↔ KeysFit e entries := by
  unfold Fits KeysFit loadKeys
  rw [List.forall_mem_map]
  apply and_congr_right
  intro hlen
  rw [card_toFinset_map_eq (g := fun entry => lpmKeyFromNet e entry.net)]
  intro entry hentry entry' hentry'
  obtain ⟨ones, hn⟩ := hnets entry hentry
  obtain ⟨ones', hn'⟩ := hnets entry' hentry'
  exact (netBits_eq_iff e hn hn' ((prefixLen_le_iff e hn).mp (hlen entry hentry))
    ((prefixLen_le_iff e hn').mp (hlen entry' hentry'))).2

theorem tablesFit_iff_small (c : Config) : TablesFit e c ↔ Small c := by
  have hcanonical : ∀ p ∈ allNets c.zones, Canonical p.2 (maskSize p.2.mask) := by
    intro p hp
    exact ((subnet_iff_mem c p.1 p.2).mpr hp).canonical
  have hunmapped : (∀ p ∈ allNets c.zones, (lpmKeyFromNet e p.2).prefixLen.toNat ≤ 32) ↔
      ∀ p ∈ allNets c.zones, ¬IsMapped p.2 :=
    forall₂_congr fun p hp => prefixLen_le_iff e (hcanonical p hp)
  have hcount : (∀ p ∈ allNets c.zones, ¬IsMapped p.2) → ∀ q : String × IPNet → Bool,
      (keysOf e ((allNets c.zones).filter q)).card = keyCount ((allNets c.zones).filter q) := by
    intro hnot q
    apply card_toFinset_map_eq
    intro p hp p' hp'
    have hmem := List.mem_of_mem_filter hp
    have hmem' := List.mem_of_mem_filter hp'
    exact (netBits_eq_iff e (hcanonical p hmem) (hcanonical p' hmem') (hnot p hmem)
      (hnot p' hmem')).1
  unfold TablesFit
  rw [hunmapped]
  constructor
  · intro hfit
    rcases hfit with ⟨hnot, hremote, hsource⟩
    rw [hcount hnot] at hremote hsource
    exact ⟨hnot, hremote, hsource⟩
  · intro hsmall
    refine ⟨hsmall.unmapped, ?_, ?_⟩
    · rw [hcount hsmall.unmapped]
      exact hsmall.remote
    · rw [hcount hsmall.unmapped]
      exact hsmall.source

/-- For an accepted configuration the entries are there, whatever the order of the
zones; their keys fit the tries and `Load` succeeds exactly if the subnets are small. -/
theorem loads_iff_small (T : Type) [LpmTrie T] (e : Endian) {c₀ c : Config}
    {zoneOrder nameOrder : c₀.zones.Range} (haccepted : c₀.validate zoneOrder nameOrder = .ok c)
    (range : c.zones.Range) :
    ∃ dst src, c.zoneLPMEntries range = .ok dst ∧ c.sourceZoneLPMEntries = .ok src ∧
      ((KeysFit e dst ∧ KeysFit e src ∧ ∃ m, load T e dst src = .ok m) ↔ Small c) := by
  have hvalid := (valid_of_validate haccepted).1
  obtain ⟨subnets, hsource, hsrc⟩ := hvalid.sourceZoneLPMEntries_eq
  refine ⟨_, _, hvalid.zoneLPMEntries_eq range, hsrc, ?_⟩
  rw [load_isOk_iff, ← fits_iff_keysFit, ← fits_iff_keysFit, ← tablesFit_iff_small (e := e) c,
    ← start_isSome_iff (T := T) hvalid range]
  · simp only [start_eq_some_iff, hvalid.zoneLPMEntries_eq range, hsrc, Except.ok.injEq,
      exists_and_left, exists_eq_left', load_isOk_iff]
    tauto
  · intro entry hentry
    obtain ⟨-, hn⟩ := (mem_source_entries hvalid hsource entry).mp hentry
    exact ⟨_, hn.canonical⟩
  · intro entry hentry
    obtain ⟨name, -, -, hn⟩ := (hvalid.mem_remote_entries range entry).mp hentry
    exact ⟨_, hn.canonical⟩

theorem readme_loads :
    ∃ c dst src, (sampleConfig readmeZones).validate readmeZones.listed readmeZones.listed = .ok c ∧
      c.zoneLPMEntries c.zones.listed = .ok dst ∧ c.sourceZoneLPMEntries = .ok src ∧
        KeysFit .little dst ∧ KeysFit .little src ∧
          ∃ m, load PrefixList .little dst src = .ok m := by
  obtain ⟨c, hval, -⟩ := exists_accepted (sampleConfig readmeZones)
    (fun _ => some ()) () (by decide +kernel)
  obtain ⟨-, hzones, hsource⟩ := valid_of_validate hval
  obtain ⟨dst, src, hdst, hsrc, hiff⟩ :=
    loads_iff_small PrefixList .little hval c.zones.listed
  have hsmall : Small c := by
    constructor
    · rw [hzones]
      decide +kernel
    · rw [hzones, hsource]
      decide +kernel
    · rw [hzones, hsource]
      decide +kernel
  exact ⟨c, dst, src, hval, hdst, hsrc, hiff.mpr hsmall⟩

/-- The subnet of zone `d` is an IPv4 one in its IPv6 form. -/
def mappedZones : GoMap String (List String) where
  entries := [("d", ["::ffff:10.1.0.0/112"]), ("e", ["192.168.3.0/24"])]
  nodup := by decide

theorem eq_ok_of_toOption {ε α : Type} {x : Except ε α} {a : α} (h : x.toOption = some a) :
    x = .ok a := by
  cases x with
  | error err => cases h
  | ok b => rw [Option.some_inj.mp h]

theorem mapped_subnet_fails_load :
    ∃ c dst src, (sampleConfig mappedZones).validate mappedZones.listed mappedZones.listed = .ok c ∧
      c.zoneLPMEntries c.zones.listed = .ok dst ∧ c.sourceZoneLPMEntries = .ok src ∧
        (loadKeys .little dst).map ZoneLpmKey.prefixLen = [112#32] ∧ ¬KeysFit .little dst ∧
          ∃ err, load PrefixList .little dst src = .error err ∧ err.err = .einval := by
  obtain ⟨c, hval, hrun⟩ := exists_accepted (sampleConfig mappedZones)
    (fun c => (c.zoneLPMEntries c.zones.listed).toOption.bind fun dst =>
      c.sourceZoneLPMEntries.toOption.map fun src =>
        ((loadKeys .little dst).map ZoneLpmKey.prefixLen,
          match load PrefixList .little dst src with
          | .error err => some err.err
          | .ok _ => none))
    ([112#32], some .einval) (by decide +kernel)
  obtain ⟨dst, hdst, hrest⟩ := Option.bind_eq_some_iff.mp hrun
  obtain ⟨src, hsrc, heq⟩ := Option.map_eq_some_iff.mp hrest
  obtain ⟨hkeys, hload⟩ := Prod.mk.inj heq
  refine ⟨c, dst, src, hval, eq_ok_of_toOption hdst, eq_ok_of_toOption hsrc, hkeys, ?_, ?_⟩
  · intro hfit
    have hmem : 112#32 ∈ (loadKeys .little dst).map ZoneLpmKey.prefixLen := by
      rw [hkeys]
      exact List.mem_singleton_self _
    obtain ⟨k, hk, hlen⟩ := List.mem_map.mp hmem
    have hshort := hfit.1 k hk
    rw [hlen] at hshort
    exact absurd hshort (by decide)
  · cases hresult : load PrefixList .little dst src with
    | error err =>
      simp only [hresult, Option.some.injEq] at hload
      exact ⟨err, rfl, hload⟩
    | ok m => simp [hresult] at hload

end PacketLoss.TableLimits
