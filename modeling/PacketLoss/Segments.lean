import PacketLoss.BloomHashing

/-!
The first half of `path_egress`: where the IPv4 header of a packet is, and
which packets are TCP segments that count. A packet is the bytes between `data`
and `data_end`; headers are read at offsets from `data`.
-/
namespace PacketLoss.Segments

open Machine BloomHashing

/-- What the program reads of `struct __sk_buff`. -/
structure SkBuff where
  protocol : U32
  ifindex : U32
  data : List U8

namespace SkBuff

def byteAt (skb : SkBuff) (off : ℕ) : U8 := skb.data.getD off 0#8

def load16 (e : Endian) (skb : SkBuff) (off : ℕ) : U16 :=
  loadU16 e (skb.byteAt off) (skb.byteAt (off + 1))

def load32 (e : Endian) (skb : SkBuff) (off : ℕ) : U32 :=
  loadU32 e (skb.byteAt off) (skb.byteAt (off + 1)) (skb.byteAt (off + 2)) (skb.byteAt (off + 3))

end SkBuff

/-- `ETH_P_IP` -/
def ethPIp : U16 := 0x0800#16

/-- `IPPROTO_TCP` -/
def ipprotoTcp : U8 := 6#8

/-- `sizeof(struct ethhdr)` -/
def sizeofEthhdr : ℕ := 14

/-- `sizeof(struct iphdr)` -/
def sizeofIphdr : ℕ := 20

/-- `sizeof(struct tcphdr)` -/
def sizeofTcphdr : ℕ := 20

/-- `parse_ipv4`: the offset of the IPv4 header. -/
def parseIpv4 (e : Endian) (skb : SkBuff) : Option ℕ :=
  if sizeofEthhdr ≤ skb.data.length ∧ skb.load16 e 12 = ntohs e ethPIp then
    if skb.data.length < sizeofEthhdr + sizeofIphdr then none else some sizeofEthhdr
  else if skb.protocol = (ntohs e ethPIp).setWidth 32 then
    if skb.data.length < sizeofIphdr then none else some 0
  else none

/-- The per-CPU counters: one for all packets, one for each way out. -/
inductive DebugMap
  | seen
  | notIpv4
  | notTcp
  | tcpShort
  | tcpPureAck
  | tcpPayload
  | noSrcZone
  | noDstZone
  | tcpZoned
deriving DecidableEq

/-- A TCP segment that passed the header checks. Addresses and ports are as the
host loads them; `seq` is in host order. -/
structure Segment where
  saddr : U32
  daddr : U32
  source : U16
  dest : U16
  seq : U32
  payloadLen : ℕ
  syn : Bool
  ack : Bool
deriving DecidableEq

def Segment.flow (seg : Segment) : FourTuple := ⟨seg.saddr, seg.daddr, seg.source, seg.dest⟩

/-- The header checks of `path_egress`, with the counter of the check that failed. -/
def parseSegment (e : Endian) (skb : SkBuff) : Except DebugMap Segment :=
  match parseIpv4 e skb with
  | none => .error .notIpv4
  | some iph =>
    if skb.byteAt (iph + 9) ≠ ipprotoTcp then .error .notTcp
    else
      let ipHdrLen := (skb.byteAt iph &&& 0x0f#8).toNat * 4
      let tcph := iph + ipHdrLen
      if skb.data.length < tcph + sizeofTcphdr then .error .tcpShort
      else
        let tcpHdrLen := (skb.byteAt (tcph + 12) >>> 4).toNat * 4
        if tcpHdrLen < sizeofTcphdr then .error .tcpShort
        else
          let ipTotal := (ntohs e (skb.load16 e (iph + 2))).toNat
          if ipTotal < ipHdrLen + tcpHdrLen then .error .tcpShort
          else
            let payloadLen := ipTotal - ipHdrLen - tcpHdrLen
            let flags := skb.byteAt (tcph + 13)
            let fin := flags.getLsbD 0
            let syn := flags.getLsbD 1
            let rst := flags.getLsbD 2
            if payloadLen = 0 ∧ syn = false ∧ fin = false ∧ rst = false then .error .tcpPureAck
            else
              .ok
                { saddr := skb.load32 e (iph + 12)
                  daddr := skb.load32 e (iph + 16)
                  source := skb.load16 e tcph
                  dest := skb.load16 e (tcph + 2)
                  seq := ntohl e (skb.load32 e (tcph + 4))
                  payloadLen := payloadLen
                  syn := syn
                  ack := flags.getLsbD 4 }

/-- The addresses of a segment are those of the header that was found. -/
theorem addresses_of_parseSegment {e : Endian} {skb : SkBuff} {seg : Segment}
    (h : parseSegment e skb = .ok seg) :
    ∃ iph, parseIpv4 e skb = some iph ∧ seg.saddr = skb.load32 e (iph + 12) ∧
      seg.daddr = skb.load32 e (iph + 16) := by
  unfold parseSegment at h
  split at h
  · cases h
  · rename_i iph hiph
    dsimp only at h
    split_ifs at h
    cases h
    exact ⟨iph, hiph, rfl, rfl⟩

end PacketLoss.Segments
