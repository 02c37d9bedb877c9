import PacketLoss.PrefixBits
import Mathlib.Tactic.IntervalCases

/-!
What the configuration uses of Go's packages net and net/netip: an address with
a prefix length is read from text, masked, and reduced to its 4-byte form.
-/
namespace PacketLoss.Cidr

open Machine PrefixBits

/-- `netip.Addr`: four or sixteen bytes, with the zone that an IPv6 address can carry. -/
structure Addr where
  bytes : List U8
  zone : List Char

def Addr.bitLen (a : Addr) : ℕ := 8 * a.bytes.length

def v4InV6Prefix : List U8 := List.replicate 10 0#8 ++ [0xff#8, 0xff#8]

def Addr.as16 (a : Addr) : List U8 :=
  if a.bytes.length = 4 then v4InV6Prefix ++ a.bytes else a.bytes

def isDecimal (c : Char) : Bool := '0' ≤ c ∧ c ≤ '9'

def decimalVal (c : Char) : ℕ := c.toNat - '0'.toNat

/-- `parseIPv4Fields`, with the value and the digits of the current field so far. -/
def parseIPv4Fields (val digLen : ℕ) (fields : List U8) : List Char → Option (List U8)
  | [] => if fields.length < 3 then none else some (fields ++ [BitVec.ofNat 8 val])
  | c :: rest =>
    if isDecimal c then
      if digLen = 1 ∧ val = 0 then none
      else
        let val := val * 10 + decimalVal c
        if 255 < val then none else parseIPv4Fields val (digLen + 1) fields rest
    else if c = '.' then
      if digLen = 0 ∨ rest = [] then none
      else if fields.length = 3 then none
      else parseIPv4Fields 0 0 (fields ++ [BitVec.ofNat 8 val]) rest
    else none

def parseIPv4 (s : List Char) : Option Addr :=
  (parseIPv4Fields 0 0 [] s).map fun fields => ⟨fields, []⟩

def isHex (c : Char) : Bool :=
  isDecimal c || ('a' ≤ c ∧ c ≤ 'f') || ('A' ≤ c ∧ c ≤ 'F')

def hexVal (c : Char) : ℕ :=
  if isDecimal c then decimalVal c
  else if 'a' ≤ c ∧ c ≤ 'f' then c.toNat - 'a'.toNat + 10
  else c.toNat - 'A'.toNat + 10

/-- The loop of `parseIPv6`, with room for `n` more groups: what is left of the
text, the bytes, and the position of the ellipsis. -/
def parseGroups : ℕ → List Char → List U8 → Option ℕ →
    Option (List Char × List U8 × Option ℕ)
  | 0, s, ip, ellipsis => some (s, ip, ellipsis)
  | n + 1, s, ip, ellipsis =>
    let digits := s.takeWhile isHex
    let rest := s.dropWhile isHex
    if digits = [] ∨ 4 < digits.length then none
    else if rest.head? = some '.' then
      if ellipsis = none ∧ ip.length ≠ 12 then none
      else if 16 < ip.length + 4 then none
      else (parseIPv4Fields 0 0 [] s).map fun fields => ([], ip ++ fields, ellipsis)
    else
      let acc := digits.foldl (fun acc c => acc * 16 + hexVal c) 0
      let ip := ip ++ [BitVec.ofNat 8 (acc / 256), BitVec.ofNat 8 acc]
      match rest with
      | [] => some ([], ip, ellipsis)
      | ':' :: ':' :: rest =>
        if ellipsis ≠ none then none
        else if rest = [] then some ([], ip, some ip.length)
        else parseGroups n rest ip (some ip.length)
      | ':' :: c :: rest => parseGroups n (c :: rest) ip ellipsis
      | _ => none

/-- The end of `parseIPv6`: zero bytes take the place of the ellipsis. -/
def expandEllipsis : List Char × List U8 × Option ℕ → Option (List U8)
  | (s, ip, ellipsis) =>
    if s ≠ [] then none
    else
      match ellipsis with
      | none => if ip.length < 16 then none else some ip
      | some i =>
        if ip.length < 16 then some (ip.take i ++ List.replicate (16 - ip.length) 0#8 ++ ip.drop i)
        else none

def parseIPv6 (s : List Char) : Option Addr :=
  let addr := s.takeWhile (· ≠ '%')
  let zone := (s.dropWhile (· ≠ '%')).drop 1
  if '%' ∈ s ∧ zone = [] then none
  else
    let groups :=
      match addr with
      | [':', ':'] => some ([], [], some 0)
      | ':' :: ':' :: rest => parseGroups 8 rest [] (some 0)
      | _ => parseGroups 8 addr [] none
    (groups.bind expandEllipsis).map fun ip => ⟨ip, zone⟩

def parseAddr (s : List Char) : Option Addr :=
  match s.find? fun c => c = '.' ∨ c = ':' ∨ c = '%' with
  | some '.' => parseIPv4 s
  | some ':' => parseIPv6 s
  | _ => none

/-- `dtoi`: the number and how many characters it has. -/
def dtoi (n i : ℕ) : List Char → Option (ℕ × ℕ)
  | [] => if i = 0 then none else some (n, i)
  | c :: rest =>
    if isDecimal c then
      let n := n * 10 + decimalVal c
      if 0xFFFFFF ≤ n then none else dtoi n (i + 1) rest
    else if i = 0 then none else some (n, i)

/-- The loop of `CIDRMask`. -/
def maskFrom : ℕ → ℕ → List U8
  | 0, _ => []
  | l + 1, n => if 8 ≤ n then 0xff#8 :: maskFrom l (n - 8) else ~~~(0xff#8 >>> n) :: maskFrom l 0

def cidrMask (ones bits : ℕ) : List U8 :=
  if bits ≠ 32 ∧ bits ≠ 128 then [] else if bits < ones then [] else maskFrom (bits / 8) ones

/-- `IP.Mask` -/
def maskIP (ip mask : List U8) : List U8 :=
  let mask :=
    if mask.length = 16 ∧ ip.length = 4 ∧ mask.take 12 = List.replicate 12 0xff#8 then
      mask.drop 12
    else mask
  let ip := if mask.length = 4 ∧ ip.length = 16 ∧ ip.take 12 = v4InV6Prefix then ip.drop 12 else ip
  if ip.length ≠ mask.length then [] else List.zipWith (· &&& ·) ip mask

/-- `net.IPNet` -/
structure IPNet where
  ip : List U8
  mask : List U8
deriving DecidableEq

/-- `net.ParseCIDR` without the address it also returns; an error is its text. -/
def parseCIDR (s : String) : Except String IPNet :=
  let err := .error ("invalid CIDR address: " ++ s)
  let addr := s.toList.takeWhile (· ≠ '/')
  let mask := (s.toList.dropWhile (· ≠ '/')).drop 1
  if '/' ∉ s.toList then err
  else
    match parseAddr addr with
    | none => err
    | some a =>
      if a.zone ≠ [] then err
      else
        match dtoi 0 0 mask with
        | none => err
        | some (n, i) =>
          if i ≠ mask.length ∨ a.bitLen < n then err
          else
            let m := cidrMask n a.bitLen
            .ok ⟨maskIP a.as16 m, m⟩

/-- `IP.To4` -/
def to4 (ip : List U8) : Option (List U8) :=
  if ip.length = 4 then some ip
  else if ip.length = 16 ∧ ip.take 12 = v4InV6Prefix then some (ip.drop 12)
  else none

/-- Count and shift out the leading ones of a byte. -/
def shiftOnes : ℕ → ℕ → U8 → ℕ × U8
  | 0, n, v => (n, v)
  | fuel + 1, n, v => if v &&& 0x80#8 ≠ 0#8 then shiftOnes fuel (n + 1) (v <<< 1) else (n, v)

/-- `simpleMaskLength`, which is -1 where this is `none`. -/
def simpleMaskLength (n : ℕ) : List U8 → Option ℕ
  | [] => some n
  | v :: rest =>
    if v = 0xff#8 then simpleMaskLength (n + 8) rest
    else
      let (n, v) := shiftOnes 8 n v
      if v ≠ 0#8 then none else if rest.all (· = 0#8) then some n else none

/-- The first result of `IPMask.Size` -/
def maskSize (mask : List U8) : ℕ := (simpleMaskLength 0 mask).getD 0

/-! What a parsed network looks like. -/

theorem length_parseIPv4Fields {val digLen : ℕ} {fields ip : List U8} {s : List Char}
    (hfields : fields.length ≤ 3) (h : parseIPv4Fields val digLen fields s = some ip) :
    ip.length = 4 := by
  fun_induction parseIPv4Fields val digLen fields s with
  | case1 val digLen fields hshort => cases h
  | case2 val digLen fields hlong =>
    rw [Option.some.injEq] at h
    subst h
    rw [List.length_append, List.length_singleton]
    omega
  | case3 => cases h
  | case4 => cases h
  | case5 val digLen fields c rest hdigit hzero val' hsmall ih => exact ih hfields h
  | case6 => cases h
  | case7 => cases h
  | case8 val digLen fields rest hdigit hsome hthree ih =>
    refine ih ?_ h
    rw [List.length_append, List.length_singleton]
    omega
  | case9 => cases h

theorem length_parseGroups {n : ℕ} {s s' : List Char} {ip ip' : List U8}
    {ellipsis ellipsis' : Option ℕ} (hroom : ip.length + 2 * n ≤ 16)
    (h : parseGroups n s ip ellipsis = some (s', ip', ellipsis')) : ip'.length ≤ 16 := by
  fun_induction parseGroups n s ip ellipsis with
  | case1 =>
    cases h
    omega
  | case2 => cases h
  | case3 => cases h
  | case4 => cases h
  | case5 n s ip ellipsis digits rest hdigits hdot hplace hfits =>
    obtain ⟨fields, hfields, heq⟩ := Option.map_eq_some_iff.mp h
    cases heq
    have hfour := length_parseIPv4Fields (by simp) hfields
    rw [List.length_append]
    omega
  | case6 n s ip ellipsis digits rest hdigits hdot acc next hrest =>
    simp only [Option.some.injEq, Prod.mk.injEq] at h
    rw [← h.2.1]
    simp only [next, List.length_append, List.length_cons, List.length_nil]
    omega
  | case7 => cases h
  | case8 n s ip ellipsis digits rest hdigits hdot acc next hnone hrest =>
    simp only [Option.some.injEq, Prod.mk.injEq] at h
    rw [← h.2.1]
    simp only [next, List.length_append, List.length_cons, List.length_nil]
    omega
  | case9 n s ip ellipsis digits rest hdigits hdot acc next rest' hrest hnone hne ih =>
    refine ih ?_ h
    simp only [next, List.length_append, List.length_cons, List.length_nil]
    omega
  | case10 n s ip ellipsis digits rest hdigits hdot acc next c rest' hc hrest ih =>
    refine ih ?_ h
    simp only [next, List.length_append, List.length_cons, List.length_nil]
    omega
  | case11 => cases h

theorem length_expandEllipsis {parsed : List Char × List U8 × Option ℕ} {ip : List U8}
    (hroom : parsed.2.1.length ≤ 16) (h : expandEllipsis parsed = some ip) :
    ip.length = 16 := by
  obtain ⟨s, bytes, ellipsis⟩ := parsed
  simp only [expandEllipsis] at h
  split at h
  · cases h
  · cases ellipsis with
    | none =>
      simp only at h
      split at h
      · cases h
      · rw [Option.some.injEq] at h
        subst h
        simp only at hroom
        omega
    | some i =>
      simp only at h
      split at h
      · rw [Option.some.injEq] at h
        subst h
        simp only [List.length_append, List.length_take, List.length_replicate, List.length_drop]
        omega
      · cases h

theorem length_parseIPv6 {s : List Char} {a : Addr} (h : parseIPv6 s = some a) :
    a.bytes.length = 16 := by
  unfold parseIPv6 at h
  simp only at h
  split at h
  · cases h
  · obtain ⟨ip, hgroups, rfl⟩ := Option.map_eq_some_iff.mp h
    obtain ⟨⟨s', bytes, ellipsis⟩, hparse, hexpand⟩ := Option.bind_eq_some_iff.mp hgroups
    refine length_expandEllipsis ?_ hexpand
    split at hparse
    · cases hparse
      exact Nat.zero_le _
    · exact length_parseGroups (by simp) hparse
    · exact length_parseGroups (by simp) hparse

theorem length_parseAddr {s : List Char} {a : Addr} (h : parseAddr s = some a) :
    a.bytes.length = 4 ∨ a.bytes.length = 16 := by
  unfold parseAddr at h
  split at h
  · obtain ⟨ip, hparse, rfl⟩ := Option.map_eq_some_iff.mp h
    exact Or.inl (length_parseIPv4Fields (by simp) hparse)
  · exact Or.inr (length_parseIPv6 h)
  · cases h

theorem byteBits_ff : byteBits 0xff#8 = List.replicate 8 true := by decide

theorem byteBits_partial {n : ℕ} (h : n < 8) :
    byteBits (~~~(0xff#8 >>> n)) = maskBits n 8 := by
  interval_cases n <;> decide

theorem partial_ne_ff {n : ℕ} (h : n < 8) : ~~~(0xff#8 >>> n) ≠ 0xff#8 := by
  interval_cases n <;> decide

theorem shiftOnes_partial (m : ℕ) {n : ℕ} (h : n < 8) :
    shiftOnes 8 m (~~~(0xff#8 >>> n)) = (m + n, 0#8) := by
  interval_cases n <;> rfl

theorem maskFrom_zero (l : ℕ) : maskFrom l 0 = List.replicate l 0#8 := by
  induction l with
  | zero => rfl
  | succ l ih =>
    rw [maskFrom, if_neg (by omega), ih]
    rfl

theorem bytesBits_maskFrom {l ones : ℕ} (h : ones ≤ 8 * l) :
    bytesBits (maskFrom l ones) = maskBits ones (8 * l) := by
  induction l generalizing ones with
  | zero => simp [Nat.le_zero.mp h, maskFrom, bytesBits, maskBits]
  | succ l ih =>
    rw [maskFrom]
    split
    · rename_i hbyte
      rw [bytesBits_cons, byteBits_ff, ih (by omega), maskBits, maskBits, ← List.append_assoc,
        ← List.replicate_add]
      congr 2 <;> omega
    · rename_i hbyte
      rw [bytesBits_cons, byteBits_partial (by omega), ih (Nat.zero_le _), maskBits, maskBits,
        maskBits, List.replicate_zero, List.nil_append, List.append_assoc, ← List.replicate_add]
      congr 2
      omega

theorem simpleMaskLength_maskFrom {l ones : ℕ} (n : ℕ) (h : ones ≤ 8 * l) :
    simpleMaskLength n (maskFrom l ones) = some (n + ones) := by
  induction l generalizing n ones with
  | zero => simp [Nat.le_zero.mp h, maskFrom, simpleMaskLength]
  | succ l ih =>
    rw [maskFrom]
    split
    · rename_i hbyte
      rw [simpleMaskLength, if_pos rfl, ih _ (by omega)]
      congr 1
      omega
    · rename_i hbyte
      rw [simpleMaskLength, if_neg (partial_ne_ff (by omega)), shiftOnes_partial n (by omega)]
      simp [maskFrom_zero]

/-- A network as `ParseCIDR` returns it, with its prefix length. -/
structure Canonical (n : IPNet) (ones : ℕ) : Prop where
  length_ip : n.ip.length = 4 ∨ n.ip.length = 16
  length_mask : n.mask.length = n.ip.length
  ones_le : ones ≤ 8 * n.ip.length
  bits_mask : bytesBits n.mask = maskBits ones (8 * n.ip.length)
  size_mask : maskSize n.mask = ones
  masked : List.zipWith (· &&& ·) n.ip n.mask = n.ip

theorem length_maskFrom (l ones : ℕ) : (maskFrom l ones).length = l := by
  induction l generalizing ones with
  | zero => rfl
  | succ l ih =>
    rw [maskFrom]
    split <;> rw [List.length_cons, ih]

theorem zipWith_and_self (ip mask : List U8) :
    List.zipWith (· &&& ·) (List.zipWith (· &&& ·) ip mask) mask =
      List.zipWith (· &&& ·) ip mask := by
  induction ip generalizing mask with
  | nil => rfl
  | cons b ip ih =>
    cases mask with
    | nil => rfl
    | cons m mask => simp [ih, BitVec.and_assoc]

theorem canonical_of_mask {bytes : List U8} {ones : ℕ}
    (hbytes : bytes.length = 4 ∨ bytes.length = 16) (hones : ones ≤ 8 * bytes.length) :
    Canonical ⟨List.zipWith (· &&& ·) bytes (maskFrom bytes.length ones),
      maskFrom bytes.length ones⟩ ones := by
  have hip : (List.zipWith (· &&& ·) bytes (maskFrom bytes.length ones)).length =
      bytes.length := by simp [length_maskFrom]
  refine ⟨?_, ?_, ?_, ?_, ?_, zipWith_and_self _ _⟩
  · rw [hip]
    exact hbytes
  · rw [hip, length_maskFrom]
  · rw [hip]
    exact hones
  · rw [hip]
    exact bytesBits_maskFrom hones
  · simp [maskSize, simpleMaskLength_maskFrom 0 hones]

/-- `As16` and `IP.Mask` together mask the bytes of the address itself. -/
theorem maskIP_as16 {a : Addr} (hbytes : a.bytes.length = 4 ∨ a.bytes.length = 16) {ones : ℕ} :
    maskIP a.as16 (maskFrom a.bytes.length ones) =
      List.zipWith (· &&& ·) a.bytes (maskFrom a.bytes.length ones) := by
  rcases hbytes with hfour | hsixteen
  · have htake : (v4InV6Prefix ++ a.bytes).take 12 = v4InV6Prefix :=
      List.take_left' (by decide)
    have hdrop : (v4InV6Prefix ++ a.bytes).drop 12 = a.bytes := List.drop_left' (by decide)
    have hprefix : v4InV6Prefix.length = 12 := by decide
    simp [maskIP, Addr.as16, hfour, length_maskFrom, htake, hdrop, hprefix]
  · simp [maskIP, Addr.as16, hsixteen, length_maskFrom]

/-- What is accepted is an address of four or sixteen bytes under its mask. -/
theorem parseCIDR_canonical {s : String} {n : IPNet} (h : parseCIDR s = .ok n) :
    ∃ ones, Canonical n ones := by
  unfold parseCIDR at h
  simp only at h
  split at h
  · cases h
  · split at h
    · cases h
    · rename_i a haddr
      split at h
      · cases h
      · split at h
        · cases h
        · rename_i ones i hdtoi
          split at h
          · cases h
          · rename_i hrange
            push Not at hrange
            have hbytes := length_parseAddr haddr
            have hmask : cidrMask ones a.bitLen = maskFrom a.bytes.length ones := by
              have hbits : a.bitLen = 8 * a.bytes.length := rfl
              have hlen : 8 * a.bytes.length / 8 = a.bytes.length := by omega
              rw [cidrMask, if_neg (by omega), if_neg (by omega), hbits, hlen]
            rw [Except.ok.injEq, hmask, maskIP_as16 hbytes] at h
            subst h
            exact ⟨ones, canonical_of_mask hbytes hrange.2⟩

def IPNet.IsIPv4 (n : IPNet) : Prop := n.ip.length = 4

instance (n : IPNet) : Decidable n.IsIPv4 := inferInstanceAs (Decidable (_ = _))

/-- The address has the network number of `n` under the mask of `n`. -/
def IPNet.Contains (n : IPNet) (addr : List U8) : Prop :=
  addr.length = n.ip.length ∧ List.zipWith (· &&& ·) addr n.mask = n.ip

instance (n : IPNet) (addr : List U8) : Decidable (n.Contains addr) :=
  inferInstanceAs (Decidable (_ ∧ _))

/-- The network number: the leading bits under the mask. -/
theorem Canonical.contains_iff {n : IPNet} {ones : ℕ} (h : Canonical n ones) {addr : List U8}
    (haddr : addr.length = n.ip.length) :
    n.Contains addr ↔ (bytesBits n.ip).take ones <+: bytesBits addr := by
  have hlen : ((bytesBits n.ip).take ones).length = ones := by
    rw [List.length_take_of_le]
    rw [length_bytesBits]
    exact h.ones_le
  have hmask : bytesBits n.mask = maskBits ones (8 * n.mask.length) := by
    rw [h.length_mask]
    exact h.bits_mask
  have hleading := and_mask_eq_iff (haddr.trans h.length_mask.symm) h.length_mask.symm
    (by rw [h.length_mask]; exact h.ones_le) hmask
  rw [h.masked] at hleading
  rw [List.prefix_iff_eq_take, hlen, IPNet.Contains, hleading, and_iff_right haddr]
  exact eq_comm

/-- A network is determined by its leading bits. -/
theorem Canonical.eq_of_take_eq {n n' : IPNet} {ones : ℕ} (h : Canonical n ones)
    (h' : Canonical n' ones) (hlen : n.ip.length = n'.ip.length)
    (hbits : (bytesBits n.ip).take ones = (bytesBits n'.ip).take ones) : n = n' := by
  have hmasks : n.mask = n'.mask := by
    rw [← bytesBits_inj (by rw [h.length_mask, h'.length_mask, hlen]), h.bits_mask, h'.bits_mask,
      hlen]
  have hmask : bytesBits n.mask = maskBits ones (8 * n.mask.length) := by
    rw [h.length_mask]
    exact h.bits_mask
  have hips : n.ip = n'.ip := by
    have hleading := and_mask_eq_iff h.length_mask.symm (hlen.symm.trans h.length_mask.symm)
      (by rw [h.length_mask]; exact h.ones_le) hmask
    rw [← hleading, h.masked, hmasks, h'.masked] at hbits
    exact hbits
  cases n
  cases n'
  simp only at hips hmasks
  rw [hips, hmasks]

/-- An IPv6 network that `To4` takes for IPv4 has a mask longer than an IPv4 address. -/
theorem Canonical.ones_of_mapped {n : IPNet} {ones : ℕ} (h : Canonical n ones)
    (hsixteen : n.ip.length = 16) (hmapped : n.ip.take 12 = v4InV6Prefix) : 32 < ones := by
  have hones := h.ones_le
  have htotal : (bytesBits n.ip).length = 8 * n.ip.length := length_bytesBits n.ip
  have hbits : bytesBits n.ip =
      (bytesBits n.ip).take ones ++ List.replicate (8 * n.ip.length - ones) false := by
    have hand := congrArg bytesBits h.masked
    rw [bytesBits_and, h.bits_mask, ← htotal, zipWith_maskBits _ (by omega), htotal] at hand
    exact hand.symm
  have hset : (bytesBits n.ip)[95]? = some true := by
    have hsplit : n.ip = v4InV6Prefix ++ n.ip.drop 12 := by
      rw [← hmapped, List.take_append_drop]
    have hleft : 95 < (bytesBits v4InV6Prefix).length := by decide
    rw [hsplit, bytesBits_append, List.getElem?_append_left hleft]
    decide
  by_contra hshort
  have htake : ((bytesBits n.ip).take ones).length = ones := List.length_take_of_le (by omega)
  rw [hbits, List.getElem?_append_right (by omega), List.getElem?_replicate] at hset
  simp at hset

end PacketLoss.Cidr
