import PacketLoss.PathEgress
import PacketLoss.ValidConfig

/-!
`Load` of internal/bpf: the entries of the configuration become keys of the two
tries. It succeeds exactly if every prefix fits into 32 bits and no trie gets
more than 64 different prefixes, and then each trie has for each prefix the id
that was put last.
-/
namespace PacketLoss.ZoneTables

open Machine PrefixBits Cidr ZoneConfig ValidConfig KernelTrie PathEgress LongestPrefix

/-- `zoneLpmKey` -/
structure ZoneLpmKey where
  prefixLen : U32
  addr : U32
deriving DecidableEq

def lpmKeyFromNet (e : Endian) (n : IPNet) : ZoneLpmKey :=
  match to4 n.ip with
  | none => ⟨0#32, 0#32⟩
  | some ip =>
    ⟨BitVec.ofNat 32 (maskSize n.mask),
      loadU32 e (ip.getD 0 0#8) (ip.getD 1 0#8) (ip.getD 2 0#8) (ip.getD 3 0#8)⟩

/-- How the kernel reads the key: the address field as it lies in memory. -/
def ZoneLpmKey.toLpmKey (e : Endian) (k : ZoneLpmKey) : LpmKey := ⟨k.prefixLen, storeU32 e k.addr⟩

/-- An error of `Load`: its format, the prefix and the error of `Put`. -/
structure LoadError where
  format : String
  net : IPNet
  err : Errno

variable {T : Type} [LpmTrie T] (e : Endian)

/-- The loop of `Load` over the entries for one trie. -/
def populate (format : String) (t : T) : List ZoneEntry → Except LoadError T
  | [] => .ok t
  | entry :: rest =>
    match LpmTrie.put t ((lpmKeyFromNet e entry.net).toLpmKey e) entry.zoneID with
    | .error err => .error ⟨format, entry.net, err⟩
    | .ok t' => populate format t' rest

/-- `Load`, once the kernel has accepted the program. -/
def load (T : Type) [LpmTrie T] (e : Endian) (dstEntries srcEntries : List ZoneEntry) :
    Except LoadError (Maps T) :=
  match populate e "populate zone_lpm %s: %w" (LpmTrie.empty : T) dstEntries with
  | .error err => .error err
  | .ok zoneLpm =>
    match populate e "populate src_zone_lpm %s: %w" (LpmTrie.empty : T) srcEntries with
    | .error err => .error err
    | .ok srcZoneLpm => .ok (Maps.loaded zoneLpm srcZoneLpm)

/-- The start of the exporter up to the filled tries. Any error ends the program. -/
def start (T : Type) [LpmTrie T] (e : Endian) (c : Config) (range : c.zones.Range) :
    Option (Maps T) :=
  match c.zoneLPMEntries range with
  | .error _ => none
  | .ok zoneEntries =>
    match c.sourceZoneLPMEntries with
    | .error _ => none
    | .ok srcZoneEntries => (load T e zoneEntries srcZoneEntries).toOption

/-- The bits under which the trie stores a network. -/
def netBits (n : IPNet) : List Bool := ((lpmKeyFromNet e n).toLpmKey e).bits

theorem exists_of_length_eq_four {bytes : List U8} (h : bytes.length = 4) :
    ∃ b0 b1 b2 b3, bytes = [b0, b1, b2, b3] := by
  match bytes, h with
  | [b0, b1, b2, b3], _ => exact ⟨b0, b1, b2, b3, rfl⟩

/-- On either host an IPv4 network is stored under its leading bits on the wire. -/
theorem netBits_of_isIPv4 {n : IPNet} {ones : ℕ} (h : Canonical n ones) (hfour : n.IsIPv4) :
    netBits e n = (bytesBits n.ip).take ones := by
  obtain ⟨b0, b1, b2, b3, hip⟩ := exists_of_length_eq_four hfour
  have hones : ones ≤ 32 := by
    have := h.ones_le
    rw [hfour] at this
    omega
  have hto4 : to4 n.ip = some [b0, b1, b2, b3] := by
    rw [to4, if_pos (show n.ip.length = 4 from hfour), hip]
  have hlen : (BitVec.ofNat 32 ones).toNat = ones := by
    rw [BitVec.toNat_ofNat]
    omega
  simp only [netBits, lpmKeyFromNet, hto4, ZoneLpmKey.toLpmKey, LpmKey.bits, h.size_mask, hlen,
    List.getD_cons_zero, List.getD_cons_succ, storeU32_loadU32]
  rw [hip]

/-- The fallback key of `lpmKeyFromNet` is a prefix of every address. -/
theorem netBits_of_not_isIPv4 {n : IPNet} {ones : ℕ} (h : Canonical n ones)
    (hnot : ¬n.IsIPv4) (hfits : (lpmKeyFromNet e n).prefixLen.toNat ≤ 32) : netBits e n = [] := by
  have hsixteen : n.ip.length = 16 := h.length_ip.resolve_left hnot
  have hones := h.ones_le
  by_cases hmapped : n.ip.take 12 = v4InV6Prefix
  · exfalso
    have hlong := h.ones_of_mapped hsixteen hmapped
    have hto4 : to4 n.ip = some (n.ip.drop 12) := by
      rw [to4, if_neg (show ¬n.ip.length = 4 from hnot), if_pos ⟨hsixteen, hmapped⟩]
    simp only [lpmKeyFromNet, hto4, h.size_mask, BitVec.toNat_ofNat] at hfits
    omega
  · have hto4 : to4 n.ip = none := by
      rw [to4, if_neg (show ¬n.ip.length = 4 from hnot), if_neg fun hboth => hmapped hboth.2]
    simp only [netBits, lpmKeyFromNet, hto4, ZoneLpmKey.toLpmKey, LpmKey.bits]
    rfl

theorem length_netBits {n : IPNet} {ones : ℕ} (h : Canonical n ones) (hfour : n.IsIPv4) :
    (netBits e n).length = ones := by
  rw [netBits_of_isIPv4 e h hfour, List.length_take_of_le]
  rw [length_bytesBits]
  exact h.ones_le

theorem netBits_inj {n n' : IPNet} {ones ones' : ℕ} (h : Canonical n ones)
    (h' : Canonical n' ones') (hfour : n.IsIPv4) (hfour' : n'.IsIPv4)
    (heq : netBits e n = netBits e n') : n = n' := by
  have hones : ones = ones' := by
    rw [← length_netBits e h hfour, ← length_netBits e h' hfour', heq]
  subst hones
  rw [netBits_of_isIPv4 e h hfour, netBits_of_isIPv4 e h' hfour'] at heq
  exact h.eq_of_take_eq h' (hfour.trans hfour'.symm) heq

theorem netBits_prefix_iff {n : IPNet} {ones : ℕ} (h : Canonical n ones) (hfour : n.IsIPv4)
    (addr : U32) :
    netBits e n <+: bytesBits (storeU32 e addr) ↔ n.Contains (storeU32 e addr) := by
  have hlen : (storeU32 e addr).length = n.ip.length := by
    rw [hfour]
    cases e <;> rfl
  rw [h.contains_iff hlen, netBits_of_isIPv4 e h hfour]

def tableEntry (entry : ZoneEntry) : List Bool × U8 := (netBits e entry.net, entry.zoneID)

theorem content_populate {format : String} {t t' : T} {entries : List ZoneEntry}
    (h : populate e format t entries = .ok t') :
    (∀ entry ∈ entries, (lpmKeyFromNet e entry.net).prefixLen.toNat ≤ 32) ∧
      LpmTrie.content t' = insertAll (LpmTrie.content t) (entries.map (tableEntry e)) := by
  induction entries generalizing t with
  | nil =>
    rw [populate, Except.ok.injEq] at h
    subst h
    exact ⟨by simp, rfl⟩
  | cons entry rest ih =>
    rw [populate] at h
    cases hput : LpmTrie.put t ((lpmKeyFromNet e entry.net).toLpmKey e) entry.zoneID with
    | error err => simp [hput] at h
    | ok t₁ =>
      simp only [hput] at h
      obtain ⟨hlen, hcontent⟩ := content_of_put hput
      obtain ⟨hrest, htable⟩ := ih h
      refine ⟨?_, ?_⟩
      · rintro other (_ | ⟨_, hother⟩)
        · exact hlen
        · exact hrest other hother
      · rw [htable, hcontent]
        rfl

theorem stored_of_put {t t' : T} {k : LpmKey} {v : U8} (h : LpmTrie.put t k v = .ok t') :
    LpmTrie.stored t' = insert k.bits (LpmTrie.stored t) := by
  have hcontent := (content_of_put h).2
  ext p
  rw [LpmTrie.mem_stored, hcontent, Finset.mem_insert, LpmTrie.mem_stored]
  by_cases hp : p = k.bits
  · simp [hp]
  · simp [hp]

/-- `Put` fails for a long prefix and for a new one in a full trie, and else succeeds. -/
theorem put_isOk_iff (t : T) (k : LpmKey) (v : U8)
    (hroom : (LpmTrie.stored t).card ≤ maxZoneEntries) :
    (∃ t', LpmTrie.put t k v = .ok t') ↔
      k.prefixLen.toNat ≤ 32 ∧ (insert k.bits (LpmTrie.stored t)).card ≤ maxZoneEntries := by
  by_cases hlen : k.prefixLen.toNat ≤ 32
  · have hmem := LpmTrie.mem_stored t k.bits
    by_cases hstored : k.bits ∈ LpmTrie.stored t
    · obtain ⟨t', hput, -⟩ := LpmTrie.put_ok t k v hlen (Or.inl (hmem.mp hstored))
      simp [hput, hlen, Finset.insert_eq_of_mem hstored, hroom]
    · have hnone : LpmTrie.content t k.bits = none := by
        by_contra hne
        exact hstored (hmem.mpr hne)
      rw [Finset.card_insert_of_notMem hstored]
      rcases Nat.lt_or_ge (LpmTrie.stored t).card maxZoneEntries with hlt | hge
      · obtain ⟨t', hput, -⟩ := LpmTrie.put_ok t k v hlen (Or.inr hlt)
        simp [hput, hlen, Nat.succ_le_of_lt hlt]
      · rw [LpmTrie.put_full t k v hlen hnone hge]
        simp only [reduceCtorEq, exists_false, false_iff, not_and, Nat.not_le]
        omega
  · rw [LpmTrie.put_long t k v (by omega)]
    simp [hlen]

theorem populate_isOk_iff (format : String) (t : T) (entries : List ZoneEntry)
    (hroom : (LpmTrie.stored t).card ≤ maxZoneEntries) :
    (∃ t', populate e format t entries = .ok t') ↔
      (∀ entry ∈ entries, (lpmKeyFromNet e entry.net).prefixLen.toNat ≤ 32) ∧
        (LpmTrie.stored t ∪ (entries.map fun entry => netBits e entry.net).toFinset).card ≤
          maxZoneEntries := by
  induction entries generalizing t with
  | nil => simp [populate, hroom]
  | cons entry rest ih =>
    have hunion : LpmTrie.stored t ∪
        ((entry :: rest).map fun entry => netBits e entry.net).toFinset =
          insert (netBits e entry.net) (LpmTrie.stored t) ∪
            (rest.map fun entry => netBits e entry.net).toFinset := by
      ext p
      simp only [List.map_cons, List.toFinset_cons, Finset.mem_union, Finset.mem_insert]
      tauto
    rw [hunion, populate, List.forall_mem_cons]
    have hone := put_isOk_iff t ((lpmKeyFromNet e entry.net).toLpmKey e) entry.zoneID hroom
    cases hput : LpmTrie.put t ((lpmKeyFromNet e entry.net).toLpmKey e) entry.zoneID with
    | error err =>
      simp only [hput, reduceCtorEq, exists_false, false_iff, not_and, Nat.not_le] at hone ⊢
      intro hfits
      rcases hfits with ⟨hlen, -⟩
      exact (hone hlen).trans_le (Finset.card_le_card Finset.subset_union_left)
    | ok t' =>
      simp only [hput, Except.ok.injEq, exists_eq', true_iff] at hone
      have hstored := stored_of_put hput
      have hroom' : (LpmTrie.stored t').card ≤ maxZoneEntries := by
        rw [hstored]
        exact hone.2
      have hrest := ih t' hroom'
      rw [hstored] at hrest
      apply hrest.trans
      rw [and_assoc]
      exact ⟨fun h => ⟨hone.1, h⟩, fun h => h.2⟩

theorem content_load {dst src : List ZoneEntry} {m : Maps T} (h : load T e dst src = .ok m) :
    LpmTrie.content m.zoneLpm = insertAll (fun _ => none) (dst.map (tableEntry e)) ∧
      LpmTrie.content m.srcZoneLpm = insertAll (fun _ => none) (src.map (tableEntry e)) ∧
        ∀ entry ∈ dst ++ src, (lpmKeyFromNet e entry.net).prefixLen.toNat ≤ 32 := by
  have hempty : LpmTrie.content (LpmTrie.empty : T) = fun _ => none :=
    funext LpmTrie.content_empty
  unfold load at h
  cases hdst : populate e "populate zone_lpm %s: %w" (LpmTrie.empty : T) dst with
  | error err => simp [hdst] at h
  | ok zoneLpm =>
    simp only [hdst] at h
    cases hsrc : populate e "populate src_zone_lpm %s: %w" (LpmTrie.empty : T) src with
    | error err => simp [hsrc] at h
    | ok srcZoneLpm =>
      simp only [hsrc, Except.ok.injEq] at h
      subst h
      obtain ⟨hdstlen, hdstcontent⟩ := content_populate e hdst
      obtain ⟨hsrclen, hsrccontent⟩ := content_populate e hsrc
      rw [hempty] at hdstcontent hsrccontent
      refine ⟨hdstcontent, hsrccontent, fun entry hentry => ?_⟩
      rcases List.mem_append.mp hentry with hmem | hmem
      · exact hdstlen entry hmem
      · exact hsrclen entry hmem

/-- A load fills the two tries and leaves the other maps zeroed. -/
theorem loaded_of_load {dst src : List ZoneEntry} {m : Maps T} (h : load T e dst src = .ok m) :
    m = Maps.loaded m.zoneLpm m.srcZoneLpm := by
  unfold load at h
  split at h
  · cases h
  · split at h
    · cases h
    · rw [Except.ok.injEq] at h
      rw [← h]
      rfl

/-- The entries fit one trie. -/
def Fits (entries : List ZoneEntry) : Prop :=
  (∀ entry ∈ entries, (lpmKeyFromNet e entry.net).prefixLen.toNat ≤ 32) ∧
    (entries.map fun entry => netBits e entry.net).toFinset.card ≤ maxZoneEntries

theorem load_isOk_iff (dst src : List ZoneEntry) :
    (∃ m, load T e dst src = .ok m) ↔ Fits e dst ∧ Fits e src := by
  have hempty : LpmTrie.stored (LpmTrie.empty : T) = ∅ := by
    ext p
    simp [LpmTrie.mem_stored, LpmTrie.content_empty]
  have hroom : (LpmTrie.stored (LpmTrie.empty : T)).card ≤ maxZoneEntries := by simp [hempty]
  have hdst := populate_isOk_iff e "populate zone_lpm %s: %w" (LpmTrie.empty : T) dst hroom
  have hsrc := populate_isOk_iff e "populate src_zone_lpm %s: %w" (LpmTrie.empty : T) src hroom
  rw [hempty, Finset.empty_union] at hdst hsrc
  unfold Fits
  rw [← hdst, ← hsrc, load]
  cases populate e "populate zone_lpm %s: %w" (LpmTrie.empty : T) dst with
  | error err => simp
  | ok zoneLpm =>
    cases populate e "populate src_zone_lpm %s: %w" (LpmTrie.empty : T) src <;> simp

theorem start_eq_some_iff (c : Config) (range : c.zones.Range) (m : Maps T) :
    start T e c range = some m ↔
      ∃ dst src, c.zoneLPMEntries range = .ok dst ∧ c.sourceZoneLPMEntries = .ok src ∧
        load T e dst src = .ok m := by
  unfold start
  cases c.zoneLPMEntries range with
  | error err => simp
  | ok dst =>
    cases c.sourceZoneLPMEntries with
    | error err => simp
    | ok src =>
      simp only [Except.ok.injEq, exists_and_left, exists_eq_left']
      cases load T e dst src <;> simp [Except.toOption]

/-- A lookup of an address reads the table at the bits of its bytes on the wire. -/
theorem lookup_lpmKey (t : T) (addr : U32) :
    LpmTrie.lookup t (lpmKey e addr) =
      LongestPrefix.lookup (LpmTrie.content t) (bytesBits (storeU32 e addr)) := by
  have hlen : (bytesBits (storeU32 e addr)).length = 32 := by
    rw [length_bytesBits]
    cases e <;> rfl
  have hwhole : (lpmKey e addr).prefixLen.toNat = 32 := rfl
  rw [LpmTrie.lookup_eq t (lpmKey e addr) hwhole.le, LpmKey.bits, hwhole, lpmKey,
    List.take_of_length_le hlen.le]

end PacketLoss.ZoneTables
