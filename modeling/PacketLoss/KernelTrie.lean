import PacketLoss.LongestPrefix
import PacketLoss.PrefixBits
import Mathlib.Data.Finset.Card

/-!
The kernel's LPM trie map, which both `zone_lpm` and `src_zone_lpm` are. Its
code is not part of the program: the model takes any implementation that keeps
the documented contract, and one such implementation shows that the contract
can be met.
-/
namespace PacketLoss.KernelTrie

open Machine LongestPrefix PrefixBits

/-- `MAX_ZONE_ENTRIES` -/
def maxZoneEntries : ℕ := 64

/-- `struct bpf_lpm_trie_key` with four data bytes. -/
structure LpmKey where
  prefixLen : U32
  data : List U8
deriving DecidableEq

/-- The bits a key stands for: the first `prefixlen` bits of its data, each byte
read from its highest bit. -/
def LpmKey.bits (k : LpmKey) : List Bool := (bytesBits k.data).take k.prefixLen.toNat

inductive Errno
  | einval
  | enospc
deriving DecidableEq

/-- The contract of a trie with 32 data bits and `MAX_ZONE_ENTRIES` entries.
`content` is the table of the stored prefixes and `stored` its domain. -/
class LpmTrie (T : Type) where
  empty : T
  put : T → LpmKey → U8 → Except Errno T
  lookup : T → LpmKey → Option U8
  content : T → Table Bool U8
  stored : T → Finset (List Bool)
  mem_stored : ∀ t p, p ∈ stored t ↔ content t p ≠ none
  content_empty : ∀ p, content empty p = none
  put_long : ∀ t k v, 32 < k.prefixLen.toNat → put t k v = .error .einval
  put_full : ∀ t k v, k.prefixLen.toNat ≤ 32 → content t k.bits = none →
    maxZoneEntries ≤ (stored t).card → put t k v = .error .enospc
  put_ok : ∀ t k v, k.prefixLen.toNat ≤ 32 →
    content t k.bits ≠ none ∨ (stored t).card < maxZoneEntries →
    ∃ t', put t k v = .ok t' ∧ content t' = Function.update (content t) k.bits (some v)
  lookup_eq : ∀ t k, k.prefixLen.toNat ≤ 32 →
    lookup t k = LongestPrefix.lookup (content t) k.bits

variable {T : Type} [LpmTrie T]

open LpmTrie

theorem content_of_put {t t' : T} {k : LpmKey} {v : U8} (h : put t k v = .ok t') :
    k.prefixLen.toNat ≤ 32 ∧ content t' = Function.update (content t) k.bits (some v) := by
  have hlen : k.prefixLen.toNat ≤ 32 := by
    by_contra hlong
    rw [put_long t k v (by omega)] at h
    cases h
  refine ⟨hlen, ?_⟩
  by_cases hroom : content t k.bits ≠ none ∨ (stored t).card < maxZoneEntries
  · obtain ⟨t'', hput, hcontent⟩ := put_ok t k v hlen hroom
    rw [h, Except.ok.injEq] at hput
    rwa [hput]
  · push Not at hroom
    rw [put_full t k v hlen hroom.1 hroom.2] at h
    cases h

/-- A list of distinct prefixes with their values. -/
structure PrefixList where
  entries : List (List Bool × U8)
  nodup : (entries.map Prod.fst).Nodup

namespace PrefixList

def content (t : PrefixList) : Table Bool U8 :=
  fun p => (t.entries.find? fun e => e.1 = p).map Prod.snd

theorem content_eq_none_iff (t : PrefixList) (p : List Bool) :
    t.content p = none ↔ p ∉ t.entries.map Prod.fst := by
  simp only [content, Option.map_eq_none_iff, List.find?_eq_none, decide_eq_true_eq,
    List.mem_map, not_exists, not_and]

def replace (t : PrefixList) (p : List Bool) (v : U8) : PrefixList where
  entries := (p, v) :: t.entries.filter fun e => e.1 ≠ p
  nodup := by
    have hsub : ((t.entries.filter fun e => e.1 ≠ p).map Prod.fst).Sublist
        (t.entries.map Prod.fst) := List.filter_sublist.map _
    refine List.nodup_cons.mpr ⟨?_, hsub.nodup t.nodup⟩
    simp

theorem content_replace (t : PrefixList) (p : List Bool) (v : U8) :
    (t.replace p v).content = Function.update t.content p (some v) := by
  funext q
  by_cases hq : q = p
  · subst hq
    simp [content, replace]
  · have hne : p ≠ q := Ne.symm hq
    rw [Function.update_of_ne hq]
    simp only [content, replace, List.find?_cons, decide_eq_false hne, List.find?_filter]
    congr 2
    funext e
    by_cases he : e.1 = q <;> simp [he, hq]

def put (t : PrefixList) (k : LpmKey) (v : U8) : Except Errno PrefixList :=
  if 32 < k.prefixLen.toNat then .error .einval
  else if t.content k.bits = none ∧ maxZoneEntries ≤ t.entries.length then .error .enospc
  else .ok (t.replace k.bits v)

def lookup (t : PrefixList) (k : LpmKey) : Option U8 :=
  if 32 < k.prefixLen.toNat then none else LongestPrefix.lookup t.content k.bits

instance : LpmTrie PrefixList where
  empty := ⟨[], List.nodup_nil⟩
  put := put
  lookup := lookup
  content := content
  stored t := (t.entries.map Prod.fst).toFinset
  mem_stored t p := by simp [Ne, content_eq_none_iff]
  content_empty p := rfl
  put_long t k v h := by simp [put, h]
  put_full t k v h hnone hcard := by
    rw [List.toFinset_card_of_nodup t.nodup, List.length_map] at hcard
    simp [put, Nat.not_lt.mpr h, hnone, hcard]
  put_ok t k v h hroom := by
    rw [List.toFinset_card_of_nodup t.nodup, List.length_map] at hroom
    have hnot : ¬(t.content k.bits = none ∧ maxZoneEntries ≤ t.entries.length) := by
      intro hboth
      rcases hboth with ⟨hnone, hfull⟩
      rcases hroom with hsome | hlt
      · exact hsome hnone
      · omega
    exact ⟨t.replace k.bits v, by simp [put, Nat.not_lt.mpr h, hnot], content_replace t _ v⟩
  lookup_eq t k h := by simp [lookup, Nat.not_lt.mpr h]

end PrefixList

end PacketLoss.KernelTrie
