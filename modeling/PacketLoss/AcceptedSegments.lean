import PacketLoss.DropReasons

/-!
Which packets `path_egress` takes for TCP segments. Against the fields of the
two headers, four checks are made: the protocol, that the fixed TCP header lies
in the packet, the TCP header length, and the total length. The version, the
length of the IPv4 header and the fragment offset are not looked at.
-/
namespace PacketLoss.AcceptedSegments

open Machine KernelTrie Segments PathEgress DropReasons

/-! The fields of an IPv4 header at `iph`, as they were sent. -/

section Fields

variable (skb : SkBuff) (iph : ℕ)

def version : ℕ := (skb.byteAt iph).toNat / 2 ^ 4

/-- In words of four bytes. -/
def ihl : ℕ := (skb.byteAt iph).toNat % 2 ^ 4

def totLen : ℕ := 2 ^ 8 * (skb.byteAt (iph + 2)).toNat + (skb.byteAt (iph + 3)).toNat

/-- In units of eight bytes. -/
def fragOff : ℕ :=
  2 ^ 8 * ((skb.byteAt (iph + 6)).toNat % 2 ^ 5) + (skb.byteAt (iph + 7)).toNat

def protocol : U8 := skb.byteAt (iph + 9)

/-- Where the TCP header is. -/
def tcph : ℕ := iph + 4 * ihl skb iph

/-- In words of four bytes. -/
def doff : ℕ := (skb.byteAt (tcph skb iph + 12)).toNat / 2 ^ 4

/-- The lengths of both headers. -/
def hdrLen : ℕ := 4 * ihl skb iph + 4 * doff skb iph

def fin : Bool := (skb.byteAt (tcph skb iph + 13)).getLsbD 0

def syn : Bool := (skb.byteAt (tcph skb iph + 13)).getLsbD 1

def rst : Bool := (skb.byteAt (tcph skb iph + 13)).getLsbD 2

/-- What `path_egress` checks of the headers at `iph`. -/
structure Checked : Prop where
  protocol : protocol skb iph = ipprotoTcp
  fits : tcph skb iph + sizeofTcphdr ≤ skb.data.length
  doff : 5 ≤ doff skb iph
  total : hdrLen skb iph ≤ totLen skb iph
  counts : hdrLen skb iph < totLen skb iph ∨ syn skb iph ∨ fin skb iph ∨ rst skb iph

/-- What moreover makes the bytes at `tcph` those of a TCP header. -/
structure ProperHeader : Prop where
  version : version skb iph = 4
  ihl : 5 ≤ ihl skb iph
  fragOff : fragOff skb iph = 0

/-- A TCP segment that is to be counted. -/
def IsSegment : Prop := Checked skb iph ∧ ProperHeader skb iph

/-- `payload_len`, in the widths of the source. -/
def payloadLen (e : Endian) : U32 :=
  let tcpHdrLen : U16 := (skb.byteAt (tcph skb iph + 12) >>> 4).setWidth 16 * 4#16
  let ipTotal : U16 := ntohs e (skb.load16 e (iph + 2))
  let ipHdrLen : U32 := (skb.byteAt iph &&& 0x0f#8).setWidth 32 * 4#32
  ipTotal.setWidth 32 - ipHdrLen - tcpHdrLen.setWidth 32

theorem ihl_le : ihl skb iph ≤ 15 := by
  unfold ihl
  omega

theorem doff_le : doff skb iph ≤ 15 := by
  have h := (skb.byteAt (tcph skb iph + 12)).isLt
  unfold doff
  omega

theorem ihl_eq : (skb.byteAt iph &&& 0x0f#8).toNat = ihl skb iph := by
  have h := Nat.and_two_pow_sub_one_eq_mod (skb.byteAt iph).toNat 4
  simpa [ihl] using h

theorem doff_eq : (skb.byteAt (tcph skb iph + 12) >>> 4).toNat = doff skb iph := by
  rw [doff, BitVec.toNat_ushiftRight, Nat.shiftRight_eq_div_pow]

theorem totLen_eq (e : Endian) : (ntohs e (skb.load16 e (iph + 2))).toNat = totLen skb iph := by
  rw [SkBuff.load16, ntohs_loadU16, toNat_loadU16_big, totLen, Nat.add_assoc]

theorem tcph_eq : iph + (skb.byteAt iph &&& 0x0f#8).toNat * 4 = tcph skb iph := by
  rw [ihl_eq, tcph, Nat.mul_comm]

/-- `payload_len` does not wrap around where the total length was checked. -/
theorem toNat_payloadLen (e : Endian) (h : hdrLen skb iph ≤ totLen skb iph) :
    (payloadLen skb iph e).toNat = totLen skb iph - hdrLen skb iph := by
  have hihl := ihl_le skb iph
  have hdoff := doff_le skb iph
  have htot : totLen skb iph < 2 ^ 16 := by
    rw [← totLen_eq skb iph e]
    exact BitVec.isLt _
  have hip : (((skb.byteAt iph &&& 0x0f#8).setWidth 32 : U32) * 4#32).toNat =
      4 * ihl skb iph := by
    rw [BitVec.toNat_mul, BitVec.toNat_setWidth, ihl_eq]
    simp only [BitVec.toNat_ofNat]
    omega
  have htcp : ((((skb.byteAt (tcph skb iph + 12) >>> 4).setWidth 16 : U16) * 4#16).setWidth 32 :
      U32).toNat = 4 * doff skb iph := by
    rw [BitVec.toNat_setWidth, BitVec.toNat_mul, BitVec.toNat_setWidth, doff_eq]
    simp only [BitVec.toNat_ofNat]
    omega
  have htotal : ((ntohs e (skb.load16 e (iph + 2))).setWidth 32 : U32).toNat =
      totLen skb iph := by
    rw [BitVec.toNat_setWidth, totLen_eq]
    omega
  simp only [payloadLen, BitVec.toNat_sub, hip, htcp, htotal]
  unfold hdrLen at h ⊢
  omega

end Fields

variable {T : Type} [LpmTrie T] (e : Endian)

/-- `path_egress` increments `debug_tcp_payload` for the packet. -/
def ReachesTcpPayload (m : Maps T) (inv : Invocation) : Prop :=
  (pathEgress e m inv).1.debug .tcpPayload inv.cpu = m.debug .tcpPayload inv.cpu + 1#64

theorem reaches_iff (m : Maps T) (inv : Invocation) :
    ReachesTcpPayload e m inv ↔ ∃ seg, parseSegment e inv.skb = .ok seg := by
  have hone : ReachesTcpPayload e m inv ↔
      BitVec.ofNat 64 ((countersOf (pathEgress e m inv).2).count .tcpPayload) = 1#64 := by
    have hall := reading_countAll (fun m => m.debug .tcpPayload inv.cpu)
      (fun m map' => debug_debugInc m inv.cpu .tcpPayload map') m
        (countersOf (pathEgress e m inv).2)
    rw [ReachesTcpPayload, debug_pathEgress, hall]
    exact BitVec.add_right_inj _
  rw [hone]
  unfold pathEgress
  cases hparse : parseSegment e inv.skb with
  | error reason =>
    rcases parseSegment_error e hparse with rfl | rfl | rfl | rfl <;> simp [countersOf]
  | ok seg =>
    simp only [debugInc]
    cases LpmTrie.lookup m.srcZoneLpm (lpmKey e seg.saddr) with
    | none => simp [countersOf]
    | some src =>
      cases LpmTrie.lookup m.zoneLpm (lpmKey e seg.daddr) with
      | none => simp [countersOf]
      | some zoneId => simp [countersOf]

theorem checked_of_parseSegment {skb : SkBuff} {iph : ℕ} (h : parseIpv4 e skb = some iph)
    {seg : Segment} (hseg : parseSegment e skb = .ok seg) :
    Checked skb iph ∧ seg.payloadLen = totLen skb iph - hdrLen skb iph := by
  unfold parseSegment at hseg
  rw [h] at hseg
  dsimp only at hseg
  rw [tcph_eq, totLen_eq, doff_eq, ihl_eq] at hseg
  split_ifs at hseg with hproto hfits hdoff htotal hack
  have hcounts : hdrLen skb iph < totLen skb iph ∨ syn skb iph ∨ fin skb iph ∨
      rst skb iph := by
    unfold hdrLen
    by_contra hnone
    simp only [not_or, Bool.not_eq_true] at hnone
    obtain ⟨hlen, hsyn, hfin, hrst⟩ := hnone
    exact hack ⟨by omega, hsyn, hfin, hrst⟩
  unfold sizeofTcphdr at hdoff
  constructor
  · refine ⟨not_not.mp hproto, Nat.not_lt.mp hfits, by omega, ?_, hcounts⟩
    unfold hdrLen
    omega
  · cases hseg
    unfold hdrLen
    dsimp only
    omega

theorem parseSegment_of_checked {skb : SkBuff} {iph : ℕ} (h : parseIpv4 e skb = some iph)
    (hchecked : Checked skb iph) : ∃ seg, parseSegment e skb = .ok seg := by
  obtain ⟨hproto, hfits, hdoff, htotal, hcounts⟩ := hchecked
  unfold hdrLen at htotal hcounts
  have hproto' : ¬skb.byteAt (iph + 9) ≠ ipprotoTcp := not_not.mpr hproto
  have hack : ¬(totLen skb iph - ihl skb iph * 4 - doff skb iph * 4 = 0 ∧
      syn skb iph = false ∧ fin skb iph = false ∧ rst skb iph = false) := by
    intro hnone
    obtain ⟨hlen, hsyn, hfin, hrst⟩ := hnone
    rw [hsyn, hfin, hrst] at hcounts
    rcases hcounts with hlt | hflag | hflag | hflag
    · omega
    all_goals cases hflag
  unfold syn fin rst at hack
  unfold parseSegment
  rw [h]
  dsimp only
  rw [tcph_eq, totLen_eq, doff_eq, ihl_eq, if_neg hproto', if_neg (Nat.not_lt.mpr hfits),
    if_neg, if_neg, if_neg hack]
  · exact ⟨_, rfl⟩
  · omega
  · unfold sizeofTcphdr
    omega

/-- The program counts exactly the TCP segments unless the header that passed its
checks is no proper header: no version 4, too short, or of a later fragment. -/
theorem accepts_iff (m : Maps T) {inv : Invocation} {iph : ℕ}
    (h : parseIpv4 e inv.skb = some iph) :
    ((ReachesTcpPayload e m inv ↔ IsSegment inv.skb iph) ∧
        (ReachesTcpPayload e m inv → ∃ seg, parseSegment e inv.skb = .ok seg ∧
          seg.payloadLen = (payloadLen inv.skb iph e).toNat ∧
            seg.payloadLen + hdrLen inv.skb iph = totLen inv.skb iph)) ↔
      (Checked inv.skb iph → ProperHeader inv.skb iph) := by
  have hreach : ReachesTcpPayload e m inv ↔ Checked inv.skb iph := by
    rw [reaches_iff]
    constructor
    · intro hok
      obtain ⟨seg, hseg⟩ := hok
      exact (checked_of_parseSegment e h hseg).1
    · exact parseSegment_of_checked e h
  rw [hreach]
  constructor
  · intro haccepts hchecked
    exact (haccepts.1.mp hchecked).2
  · intro hproper
    refine ⟨⟨fun hchecked => ⟨hchecked, hproper hchecked⟩, fun hsegment => hsegment.1⟩, ?_⟩
    intro hchecked
    have htotal := hchecked.total
    obtain ⟨seg, hseg⟩ := parseSegment_of_checked e h hchecked
    have hlen := (checked_of_parseSegment e h hseg).2
    refine ⟨seg, hseg, ?_, ?_⟩
    · rw [hlen, toNat_payloadLen _ _ e htotal]
    · omega

/-- A fragment from the middle of a datagram: its data reads like a TCP header. -/
def lateFragment : Invocation :=
  let inv := sampleSegment 1000#32 0x18#8 [1#8, 2#8] 2000000000#64
  { inv with skb := { inv.skb with data := inv.skb.data.set 7 185#8 } }

theorem lateFragment_reaches :
    let m := Maps.loaded zoneTrie srcZoneTrie
    parseIpv4 .little lateFragment.skb = some 0 ∧ fragOff lateFragment.skb 0 = 185 ∧
      ReachesTcpPayload .little m lateFragment ∧ ¬IsSegment lateFragment.skb 0 := by
  refine ⟨by decide +kernel, by decide, ?_, fun hsegment => ?_⟩
  · unfold ReachesTcpPayload
    decide +kernel
  · exact absurd hsegment.2.fragOff (by decide)

theorem lateFragment_accepts_iff :
    let m := Maps.loaded zoneTrie srcZoneTrie
    ((ReachesTcpPayload .little m lateFragment ↔ IsSegment lateFragment.skb 0) ∧
        (ReachesTcpPayload .little m lateFragment →
          ∃ seg, parseSegment .little lateFragment.skb = .ok seg ∧
            seg.payloadLen = (payloadLen lateFragment.skb 0 .little).toNat ∧
              seg.payloadLen + hdrLen lateFragment.skb 0 = totLen lateFragment.skb 0)) ↔
      (Checked lateFragment.skb 0 → ProperHeader lateFragment.skb 0) :=
  accepts_iff .little (Maps.loaded zoneTrie srcZoneTrie) (by decide +kernel)

end PacketLoss.AcceptedSegments
