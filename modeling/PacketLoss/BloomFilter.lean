import PacketLoss.Machine

/-!
The Bloom filter of packet_loss.bpf.c, run one call at a time: two halves of
one array hold the current and the previous generation by the parity of the
generation number, and a word is cleared when a new generation first writes it.
-/
namespace PacketLoss.BloomFilter

open Machine

/-- `BLOOM_WORDS` -/
def bloomWords : ℕ := 32768

/-- `BLOOM_BITS` -/
def bloomBits : ℕ := bloomWords * 64

/-- `BLOOM_BITMASK` -/
def bloomBitmask : U32 := BitVec.ofNat 32 (bloomBits - 1)

/-- `BLOOM_EPOCH_NS`: 1.5 seconds. -/
def bloomEpochNs : U64 := 1500000000#64

structure BloomWord where
  gen : U64
  bits : U64
deriving DecidableEq

structure BloomEpochState where
  gen : U64
  startNs : U64
deriving DecidableEq

/-- The maps `bloom_bits` and `bloom_epoch`. -/
structure Bloom where
  bits : ArrayMap (2 * bloomWords) BloomWord
  epoch : ArrayMap 1 BloomEpochState

/-- Array maps start zeroed. -/
def Bloom.zeroed : Bloom := ⟨fun _ => ⟨0#64, 0#64⟩, fun _ => ⟨0#64, 0#64⟩⟩

/-- The arguments of `bloom_test_and_set`: one flow and a sequence number. -/
structure BloomKey where
  saddr : U32
  daddr : U32
  sport : U16
  dport : U16
  seq : U32
deriving DecidableEq

def bloomHash (saddr daddr : U32) (sport dport : U16) (seq seed : U32) : U32 :=
  let h := seed
  let h := h ^^^ saddr
  let h := h ^^^ (daddr + 0x9e3779b9#32 + (h <<< 6) + (h >>> 2))
  let h := h ^^^ ((sport.setWidth 32 <<< 16) ||| dport.setWidth 32)
  let h := h ^^^ (seq + 0x9e3779b9#32 + (h <<< 6) + (h >>> 2))
  h

def bloomBitIndex (saddr daddr : U32) (sport dport : U16) (seq seed : U32) : U32 :=
  bloomHash saddr daddr sport dport seq seed &&& bloomBitmask

/-- The slot of the word that holds `bit` for generation `gen`. -/
def wordSlot (bit : U32) (gen : U64) : U32 :=
  ((gen &&& 1#64) * BitVec.ofNat 64 bloomWords + (bit >>> 6).setWidth 64).setWidth 32

def wordMask (bit : U32) : U64 := 1#64 <<< (bit &&& 63#32)

/-- `bloom_test_bit_gen` after its lookup. -/
def testWord (bit : U32) (gen : U64) : Option BloomWord → Bool
  | none => false
  | some w =>
    if w.gen ≠ gen then false
    else w.bits &&& wordMask bit != 0#64

def bloomTestBitGen (s : Bloom) (bit : U32) (gen : U64) : Bool :=
  testWord bit gen (s.bits.lookup (wordSlot bit gen))

/-- What `bloom_set_bit_gen` stores through the pointer it looked up. -/
def setWord (bit : U32) (gen : U64) (w : BloomWord) : BloomWord :=
  let w :=
    if w.gen ≠ gen then
      let (old, new) := syncValCompareAndSwap w.gen w.gen gen
      let w := { w with gen := new }
      if old ≠ gen then { w with bits := 0#64 } else w
    else w
  { w with bits := w.bits ||| wordMask bit }

def bloomSetBitGen (s : Bloom) (bit : U32) (gen : U64) : Bloom :=
  (s.bits.lookup (wordSlot bit gen)).elim s fun w =>
    { s with bits := s.bits.update (wordSlot bit gen) (setWord bit gen w) }

def bloomMaybeRollEpoch (s : Bloom) (now : U64) : Bloom :=
  match s.epoch.lookup 0#32 with
  | none => { s with epoch := s.epoch.update 0#32 ⟨0#64, now⟩ }
  | some epoch =>
    if epoch.startNs < now ∧ bloomEpochNs < now - epoch.startNs then
      let (swapped, startNs) := syncBoolCompareAndSwap epoch.startNs epoch.startNs now
      let epoch := { epoch with startNs := startNs }
      let epoch := if swapped then { epoch with gen := epoch.gen + 1#64 } else epoch
      { s with epoch := s.epoch.update 0#32 epoch }
    else s

/-- `bloom_test_and_set`: whether all three bits were seen, and the filter afterwards. -/
def bloomTestAndSet (s : Bloom) (k : BloomKey) : Bool × Bloom :=
  match s.epoch.lookup 0#32 with
  | none => (false, s)
  | some epoch =>
    let curGen := epoch.gen
    let prevGen := curGen - 1#64
    let bit0 := bloomBitIndex k.saddr k.daddr k.sport k.dport k.seq 0x12345678#32
    let bit1 := bloomBitIndex k.saddr k.daddr k.sport k.dport k.seq 0x9e3779b9#32
    let bit2 := bloomBitIndex k.saddr k.daddr k.sport k.dport k.seq 0xdeadbeef#32
    let seen0 := bloomTestBitGen s bit0 curGen || bloomTestBitGen s bit0 prevGen
    let seen1 := bloomTestBitGen s bit1 curGen || bloomTestBitGen s bit1 prevGen
    let seen2 := bloomTestBitGen s bit2 curGen || bloomTestBitGen s bit2 prevGen
    let s := bloomSetBitGen s bit0 curGen
    let s := bloomSetBitGen s bit1 curGen
    let s := bloomSetBitGen s bit2 curGen
    (seen0 && seen1 && seen2, s)

end PacketLoss.BloomFilter
