import PacketLoss.FilterRuns

/-!
Whether a packet starts with an Ethernet header. `parse_ipv4` tells it from the
packet's bytes: what would be the EtherType has to be that of IPv4. In a packet
without an Ethernet header these bytes are the first half of the source address.
-/
namespace PacketLoss.Framing

open Machine KernelTrie Segments PathEgress FilterRuns

inductive Device
  | layer3
  | ethernet
deriving DecidableEq

namespace Device

/-- Where a packet of the device has its IPv4 header. -/
def headerAt : Device → ℕ
  | layer3 => 0
  | ethernet => sizeofEthhdr

/-- An IPv4 packet as a device of this kind sends it. -/
def Sends (e : Endian) (skb : SkBuff) : Device → Prop
  | layer3 => skb.protocol = (ntohs e ethPIp).setWidth 32 ∧ sizeofIphdr ≤ skb.data.length
  | ethernet => skb.byteAt 12 = 0x08#8 ∧ skb.byteAt 13 = 0x00#8 ∧
      sizeofEthhdr + sizeofIphdr ≤ skb.data.length

end Device

variable {T : Type} [LpmTrie T] (e : Endian) (m : Maps T)

/-- If a packet is counted then by the addresses of the header at `off`. -/
def ClassifiedAt (inv : Invocation) (off : ℕ) : Prop :=
  ∀ zoneId r, (pathEgress e m inv).2 = .counted zoneId r →
    (LpmTrie.lookup m.srcZoneLpm (lpmKey e (inv.skb.load32 e (off + 12)))).isSome ∧
      LpmTrie.lookup m.zoneLpm (lpmKey e (inv.skb.load32 e (off + 16))) = some zoneId

/-- The EtherType is compared byte by byte on either host. -/
theorem ethertype_iff (skb : SkBuff) :
    skb.load16 e 12 = ntohs e ethPIp ↔ skb.byteAt 12 = 0x08#8 ∧ skb.byteAt 13 = 0x00#8 := by
  have h1 := (skb.byteAt 13).isLt
  rw [SkBuff.load16, loadU16_eq_ntohs_iff]
  simp only [← BitVec.toNat_inj, toNat_loadU16_big, ethPIp, BitVec.reduceToNat,
    Nat.reduceAdd]
  omega

theorem parseIpv4_of_ethertype {skb : SkBuff} (hlen : sizeofEthhdr ≤ skb.data.length)
    (htype : skb.byteAt 12 = 0x08#8 ∧ skb.byteAt 13 = 0x00#8) :
    parseIpv4 e skb =
      if skb.data.length < sizeofEthhdr + sizeofIphdr then none else some sizeofEthhdr := by
  rw [parseIpv4, if_pos ⟨hlen, (ethertype_iff e skb).mpr htype⟩]

theorem parseIpv4_of_not_ethertype {skb : SkBuff}
    (htype : ¬(skb.byteAt 12 = 0x08#8 ∧ skb.byteAt 13 = 0x00#8)) :
    parseIpv4 e skb =
      if skb.protocol = (ntohs e ethPIp).setWidth 32 then
        if skb.data.length < sizeofIphdr then none else some 0
      else none := by
  rw [parseIpv4, if_neg fun h => htype ((ethertype_iff e skb).mp h.2)]

/-- A counted packet was classified by the header that `parse_ipv4` found. -/
theorem classifiedAt_of_parseIpv4 {inv : Invocation} {off : ℕ}
    (h : parseIpv4 e inv.skb = some off) : ClassifiedAt e m inv off := by
  intro zoneId r hout
  have hout' : outcomeAfter e m [] inv = .counted zoneId r := hout
  obtain ⟨seg, hz⟩ := zoned_of_counted e m hout'
  obtain ⟨hparse, hsrc, hdst⟩ := (zonedSegment_eq_some_iff e m).mp hz
  obtain ⟨iph, hiph, hsaddr, hdaddr⟩ := addresses_of_parseSegment hparse
  rw [h, Option.some.injEq] at hiph
  subst hiph
  rw [← hsaddr, ← hdaddr]
  exact ⟨hsrc, hdst⟩

/-- The right header is found unless the packet has none but the IPv4 header and
its source address starts with 8.0. -/
theorem header_found_iff {inv : Invocation} (d : Device) (h : d.Sends e inv.skb) :
    (parseIpv4 e inv.skb = some d.headerAt ∧ ClassifiedAt e m inv d.headerAt) ↔
      ¬(d = .layer3 ∧ inv.skb.byteAt 12 = 0x08#8 ∧ inv.skb.byteAt 13 = 0x00#8) := by
  have hfound : parseIpv4 e inv.skb = some d.headerAt ↔
      ¬(d = .layer3 ∧ inv.skb.byteAt 12 = 0x08#8 ∧ inv.skb.byteAt 13 = 0x00#8) := by
    cases d with
    | layer3 =>
      obtain ⟨hproto, hlen⟩ := h
      by_cases htype : inv.skb.byteAt 12 = 0x08#8 ∧ inv.skb.byteAt 13 = 0x00#8
      · have heth : sizeofEthhdr ≤ inv.skb.data.length :=
          le_trans (by decide : sizeofEthhdr ≤ sizeofIphdr) hlen
        rw [parseIpv4_of_ethertype e heth htype]
        simp only [htype, and_self, not_true_eq_false, iff_false]
        split
        · exact Option.some_ne_none _ |>.symm
        · exact fun hoff => absurd (Option.some.inj hoff) (by decide)
      · rw [parseIpv4_of_not_ethertype e htype, if_pos hproto, if_neg (Nat.not_lt.mpr hlen)]
        simp [htype, Device.headerAt]
    | ethernet =>
      obtain ⟨hhigh, hlow, hlen⟩ := h
      have heth : sizeofEthhdr ≤ inv.skb.data.length :=
        le_trans (Nat.le_add_right _ _) hlen
      rw [parseIpv4_of_ethertype e heth ⟨hhigh, hlow⟩, if_neg (Nat.not_lt.mpr hlen)]
      simp [Device.headerAt]
  rw [← hfound]
  exact ⟨fun hboth => hboth.1, fun hoff => ⟨hoff, classifiedAt_of_parseIpv4 e m hoff⟩⟩

/-- A UDP datagram from 8.0.69.1 to 192.168.0.20, as WireGuard sends it. Its
checksum and first bytes of payload are chosen by the sender. -/
def datagram : Invocation where
  skb.protocol := 0x0008#32
  skb.ifindex := 7#32
  skb.data :=
    [0x45#8, 0#8, 0#8, 54#8, 0#8, 0#8, 0#8, 0#8] ++
      [64#8, 17#8, 0#8, 0#8, 8#8, 0#8, 69#8, 1#8, 192#8, 168#8, 0#8, 20#8] ++
      [0x9c#8, 0x40#8, 0x14#8, 0x06#8, 0#8, 34#8, 192#8, 168#8] ++
      [3#8, 10#8, 192#8, 168#8, 0#8, 20#8] ++ List.replicate 12 0#8 ++
      [0x50#8, 0x18#8, 0#8, 0#8, 0#8, 0#8, 0#8, 0#8]
  now := 2000000000#64
  cpu := 0
  reserve := true

/-- It is counted as a TCP segment to zone 1, by addresses from its payload. -/
theorem datagram_counted :
    let m := Maps.loaded zoneTrie srcZoneTrie
    Device.layer3.Sends .little datagram.skb ∧
      parseIpv4 .little datagram.skb = some 14 ∧
        (pathEgress .little m datagram).2 = .counted 1#8 false ∧
          ¬(parseIpv4 .little datagram.skb = some Device.layer3.headerAt ∧
            ClassifiedAt .little m datagram Device.layer3.headerAt) := by
  have hcounted : (pathEgress .little (Maps.loaded zoneTrie srcZoneTrie) datagram).2 =
      .counted 1#8 false := by decide +kernel
  refine ⟨⟨by decide, by decide⟩, by decide +kernel, hcounted, ?_⟩
  intro hboth
  have hsource := (hboth.2 1#8 false hcounted).1
  exact absurd hsource (by decide +kernel)

theorem datagram_header_iff :
    let m := Maps.loaded zoneTrie srcZoneTrie
    (parseIpv4 .little datagram.skb = some Device.layer3.headerAt ∧
        ClassifiedAt .little m datagram Device.layer3.headerAt) ↔
      ¬(Device.layer3 = .layer3 ∧ datagram.skb.byteAt 12 = 0x08#8 ∧
        datagram.skb.byteAt 13 = 0x00#8) :=
  header_found_iff .little (Maps.loaded zoneTrie srcZoneTrie) .layer3
    ⟨by decide, by decide⟩

end PacketLoss.Framing
