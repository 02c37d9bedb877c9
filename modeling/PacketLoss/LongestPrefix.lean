import Mathlib.Data.List.Infix
import Mathlib.Data.Finset.Image
import Mathlib.Logic.Function.Basic

/-!
Tables of words and the longest word of a table that is a prefix of a given
word. Writing entries one after another keeps the last value of each word, so
the order of the entries matters only between entries of one word.
-/
namespace PacketLoss.LongestPrefix

variable {α V : Type*}

abbrev Table (α V : Type*) := List α → Option V

/-- `p` is the longest prefix of `word` that the table has. -/
def IsLongest (t : Table α V) (word p : List α) : Prop :=
  p <+: word ∧ t p ≠ none ∧ ∀ q, q <+: word → t q ≠ none → q.length ≤ p.length

/-- Try the prefixes of `word` of lengths `n`, `n - 1`, ..., 0. -/
def lookupFrom (t : Table α V) (word : List α) : ℕ → Option V
  | 0 => t []
  | n + 1 => (t (word.take (n + 1))).or (lookupFrom t word n)

def lookup (t : Table α V) (word : List α) : Option V := lookupFrom t word word.length

theorem lookupFrom_eq_none_iff (t : Table α V) (word : List α) (n : ℕ) :
    lookupFrom t word n = none ↔ ∀ m ≤ n, t (word.take m) = none := by
  induction n with
  | zero => simp [lookupFrom]
  | succ n ih =>
    rw [lookupFrom, Option.or_eq_none_iff, ih]
    constructor
    · rintro ⟨hlast, hrest⟩ m hm
      rcases Nat.le_succ_iff.mp hm with hle | rfl
      · exact hrest m hle
      · exact hlast
    · exact fun h => ⟨h _ le_rfl, fun m hm => h m (Nat.le_succ_of_le hm)⟩

theorem lookupFrom_eq_some_iff (t : Table α V) (word : List α) (n : ℕ) (v : V) :
    lookupFrom t word n = some v ↔
      ∃ m ≤ n, t (word.take m) = some v ∧ ∀ k, m < k → k ≤ n → t (word.take k) = none := by
  induction n with
  | zero =>
    constructor
    · exact fun h => ⟨0, le_rfl, by simpa [lookupFrom] using h, fun k hk hk' => by omega⟩
    · intro hfound
      rcases hfound with ⟨m, hm, hv, -⟩
      obtain rfl : m = 0 := by omega
      simpa [lookupFrom] using hv
  | succ n ih =>
    rw [lookupFrom, Option.or_eq_some_iff, ih]
    constructor
    · intro hfound
      rcases hfound with hlast | ⟨hnone, m, hm, hv, hlonger⟩
      · exact ⟨n + 1, le_rfl, hlast, fun k hk hk' => by omega⟩
      · refine ⟨m, Nat.le_succ_of_le hm, hv, fun k hk hk' => ?_⟩
        rcases Nat.le_succ_iff.mp hk' with hle | rfl
        · exact hlonger k hk hle
        · exact hnone
    · intro hfound
      rcases hfound with ⟨m, hm, hv, hlonger⟩
      rcases Nat.le_succ_iff.mp hm with hle | rfl
      · exact Or.inr ⟨hlonger _ (by omega) le_rfl, m, hle, hv,
          fun k hk hk' => hlonger k hk (Nat.le_succ_of_le hk')⟩
      · exact Or.inl hv

theorem lookup_eq_none_iff (t : Table α V) (word : List α) :
    lookup t word = none ↔ ∀ p, p <+: word → t p = none := by
  unfold lookup
  rw [lookupFrom_eq_none_iff]
  constructor
  · intro h p hp
    rw [List.prefix_iff_eq_take.mp hp]
    exact h _ hp.length_le
  · exact fun h m _ => h _ (List.take_prefix m word)

/-- A lookup returns the value of the longest prefix in the table. -/
theorem lookup_eq_some_iff (t : Table α V) (word : List α) (v : V) :
    lookup t word = some v ↔ ∃ p, IsLongest t word p ∧ t p = some v := by
  unfold lookup
  rw [lookupFrom_eq_some_iff]
  constructor
  · intro hfound
    rcases hfound with ⟨m, hm, hv, hlonger⟩
    refine ⟨word.take m, ⟨List.take_prefix m word, by simp [hv], fun q hq hne => ?_⟩, hv⟩
    rw [List.length_take_of_le hm]
    by_contra hlt
    apply hne
    rw [List.prefix_iff_eq_take.mp hq]
    exact hlonger q.length (by omega) hq.length_le
  · intro hlong
    rcases hlong with ⟨p, ⟨hp, -, hlongest⟩, hv⟩
    refine ⟨p.length, hp.length_le, ?_, fun k hk hk' => ?_⟩
    · rwa [← List.prefix_iff_eq_take.mp hp]
    · by_contra hne
      have hle := hlongest _ (List.take_prefix k word) hne
      rw [List.length_take_of_le hk'] at hle
      omega

section Entries

variable [DecidableEq α]

/-- Write the entries in turn; a later entry replaces the value of its word. -/
def insertAll (t : Table α V) (entries : List (List α × V)) : Table α V :=
  entries.foldl (fun t e => Function.update t e.1 (some e.2)) t

/-- The value that the last entry for a word carries. -/
def lastValue (entries : List (List α × V)) (p : List α) : Option V :=
  ((entries.filter fun e => e.1 = p).getLast?).map Prod.snd

theorem insertAll_concat (t : Table α V) (entries : List (List α × V)) (e : List α × V) :
    insertAll t (entries ++ [e]) = Function.update (insertAll t entries) e.1 (some e.2) := by
  simp [insertAll, List.foldl_append]

theorem insertAll_apply (t : Table α V) (entries : List (List α × V)) (p : List α) :
    insertAll t entries p = (lastValue entries p).or (t p) := by
  induction entries using List.reverseRecOn with
  | nil => simp [insertAll, lastValue]
  | append_singleton entries e ih =>
    rw [insertAll_concat]
    by_cases hp : e.1 = p
    · subst hp
      simp [lastValue, List.filter_append]
    · rw [Function.update_of_ne (Ne.symm hp), ih]
      simp [lastValue, List.filter_append, hp]

theorem lastValue_eq_none_iff (entries : List (List α × V)) (p : List α) :
    lastValue entries p = none ↔ ∀ e ∈ entries, e.1 ≠ p := by
  simp [lastValue]

theorem mem_of_lastValue {entries : List (List α × V)} {p : List α} {v : V}
    (h : lastValue entries p = some v) : (p, v) ∈ entries := by
  rw [lastValue, Option.map_eq_some_iff] at h
  obtain ⟨e, hlast, rfl⟩ := h
  have hmem := List.mem_of_getLast? hlast
  obtain ⟨he, hp⟩ := List.mem_filter.mp hmem
  obtain rfl : e.1 = p := by simpa using hp
  exact he

/-- Where all entries of a word agree, that is the value it gets. -/
theorem lastValue_of_agree {entries : List (List α × V)} {p : List α} {v : V}
    (hmem : (p, v) ∈ entries) (hagree : ∀ v', (p, v') ∈ entries → v' = v) :
    lastValue entries p = some v := by
  cases hlast : lastValue entries p with
  | none => exact absurd rfl ((lastValue_eq_none_iff entries p).mp hlast _ hmem)
  | some v' => rw [hagree v' (mem_of_lastValue hlast)]

theorem insertAll_append (t : Table α V) (left right : List (List α × V)) :
    insertAll t (left ++ right) = insertAll (insertAll t left) right := by
  simp [insertAll, List.foldl_append]

/-- Where entries of one word agree, the table is the set of entries. -/
theorem insertAll_eq_some_iff {entries : List (List α × V)}
    (hagree : ∀ p v v', (p, v) ∈ entries → (p, v') ∈ entries → v = v') (p : List α) (v : V) :
    insertAll (fun _ => none) entries p = some v ↔ (p, v) ∈ entries := by
  rw [insertAll_apply, Option.or_none]
  exact ⟨mem_of_lastValue, fun hmem =>
    lastValue_of_agree hmem fun v' hmem' => hagree p v' v hmem' hmem⟩

/-- A word is found exactly if an entry is a prefix of it. -/
theorem lookup_insertAll_isSome_iff (entries : List (List α × V)) (word : List α) :
    (lookup (insertAll (fun _ => none) entries) word).isSome ↔ ∃ e ∈ entries, e.1 <+: word := by
  rw [Option.isSome_iff_ne_none, Ne, lookup_eq_none_iff]
  simp only [insertAll_apply, Option.or_none, lastValue_eq_none_iff]
  push Not
  constructor
  · intro hprefix
    rcases hprefix with ⟨p, hp, e, he, rfl⟩
    exact ⟨e, he, hp⟩
  · intro hprefix
    rcases hprefix with ⟨e, he, hp⟩
    exact ⟨e.1, hp, e, he, rfl⟩

/-- Where entries of one word agree, a lookup returns the value of the longest
entry that is a prefix, in whatever order the entries were written. -/
theorem lookup_insertAll_eq_some_iff {entries : List (List α × V)}
    (hagree : ∀ p v v', (p, v) ∈ entries → (p, v') ∈ entries → v = v') (word : List α) (v : V) :
    lookup (insertAll (fun _ => none) entries) word = some v ↔
      ∃ p, (p, v) ∈ entries ∧ p <+: word ∧
        ∀ e ∈ entries, e.1 <+: word → e.1.length ≤ p.length := by
  have hfound : ∀ p, insertAll (fun _ => none) entries p ≠ none ↔ ∃ v, (p, v) ∈ entries := by
    intro p
    rw [Option.ne_none_iff_exists']
    exact exists_congr fun v => insertAll_eq_some_iff hagree p v
  rw [lookup_eq_some_iff]
  simp only [IsLongest, hfound, insertAll_eq_some_iff hagree]
  constructor
  · intro hfirst
    rcases hfirst with ⟨p, ⟨hp, -, hlongest⟩, hv⟩
    exact ⟨p, hv, hp, fun e he hprefix => hlongest e.1 hprefix ⟨e.2, he⟩⟩
  · intro hlong
    rcases hlong with ⟨p, hmem, hp, hlongest⟩
    refine ⟨p, ⟨hp, ⟨v, hmem⟩, ?_⟩, hmem⟩
    rintro q hq ⟨v', he⟩
    exact hlongest (q, v') he hq

end Entries

end PacketLoss.LongestPrefix
