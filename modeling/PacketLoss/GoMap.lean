import Mathlib.Data.List.Induction
import Mathlib.Data.List.Nodup
import Mathlib.Data.List.Perm.Basic

/-!
Maps whose keys are distinct and whose entries have no order: a program that
ranges over one sees them in any order.
-/
namespace PacketLoss

structure GoMap (K V : Type) where
  entries : List (K × V)
  nodup : (entries.map Prod.fst).Nodup

namespace GoMap

variable {K V : Type} (m : GoMap K V)

def get [DecidableEq K] (k : K) : Option V := (m.entries.find? fun e => e.1 = k).map Prod.snd

theorem eq_of_mem {k : K} {v v' : V} (h : (k, v) ∈ m.entries) (h' : (k, v') ∈ m.entries) :
    v = v' := by
  have heq := List.inj_on_of_nodup_map m.nodup h h' rfl
  exact (Prod.mk.inj heq).2

theorem get_eq_some_iff [DecidableEq K] (k : K) (v : V) :
    m.get k = some v ↔ (k, v) ∈ m.entries := by
  rw [get, Option.map_eq_some_iff]
  constructor
  · intro hget
    rcases hget with ⟨⟨k', v'⟩, hfind, rfl⟩
    have hk := List.find?_some hfind
    simp only [decide_eq_true_eq] at hk
    subst hk
    exact List.mem_of_find?_eq_some hfind
  · intro hmem
    cases hfind : m.entries.find? fun e => e.1 = k with
    | none => simpa using List.find?_eq_none.mp hfind _ hmem
    | some e =>
      have hk := List.find?_some hfind
      simp only [decide_eq_true_eq] at hk
      subst hk
      exact ⟨e, rfl, m.eq_of_mem (List.mem_of_find?_eq_some hfind) hmem⟩

def empty : GoMap K V := ⟨[], List.nodup_nil⟩

@[simp]
theorem get_empty [DecidableEq K] (k : K) : (empty : GoMap K V).get k = none := rfl

/-- `m[k] = v` -/
def set [DecidableEq K] (k : K) (v : V) : GoMap K V where
  entries := m.entries.filter (fun e => e.1 ≠ k) ++ [(k, v)]
  nodup := by
    rw [List.map_append, List.nodup_append]
    refine ⟨(List.filter_sublist.map _).nodup m.nodup, by simp, ?_⟩
    intro a ha b hb heq
    simp only [List.mem_map, List.mem_filter, decide_eq_true_eq] at ha
    obtain ⟨e, ⟨-, hne⟩, rfl⟩ := ha
    simp only [List.map_cons, List.map_nil, List.mem_singleton] at hb
    exact hne (heq.trans hb)

theorem get_set [DecidableEq K] (k : K) (v : V) (k' : K) :
    (m.set k v).get k' = if k' = k then some v else m.get k' := by
  by_cases hk : k' = k
  · subst hk
    rw [if_pos rfl, get_eq_some_iff]
    simp [set]
  · rw [if_neg hk]
    apply Option.ext
    intro v'
    rw [get_eq_some_iff, get_eq_some_iff]
    simp [set, hk]

/-- A map made by setting one key after the other. -/
def ofEntries [DecidableEq K] (es : List (K × V)) : GoMap K V :=
  es.foldl (fun m e => m.set e.1 e.2) empty

theorem ofEntries_concat [DecidableEq K] (es : List (K × V)) (e : K × V) :
    ofEntries (es ++ [e]) = (ofEntries es).set e.1 e.2 := by
  simp [ofEntries, List.foldl_append]

theorem get_ofEntries [DecidableEq K] {es : List (K × V)} (hnodup : (es.map Prod.fst).Nodup)
    (k : K) (v : V) : (ofEntries es).get k = some v ↔ (k, v) ∈ es := by
  induction es using List.reverseRecOn with
  | nil => simp [ofEntries]
  | append_singleton es e ih =>
    rw [List.map_append, List.nodup_append] at hnodup
    obtain ⟨hrest, -, hlast⟩ := hnodup
    rw [ofEntries_concat, get_set, List.mem_append, List.mem_singleton]
    by_cases hk : k = e.1
    · subst hk
      have hnot : (e.1, v) ∉ es := by
        intro hmem
        have hkey : e.1 ∈ es.map Prod.fst := List.mem_map.mpr ⟨(e.1, v), hmem, rfl⟩
        exact hlast e.1 hkey e.1 (by simp) rfl
      rw [if_pos rfl, Option.some.injEq]
      constructor
      · intro heq
        exact Or.inr (Prod.ext rfl heq.symm)
      · intro hmem
        exact ((Prod.mk.inj (hmem.resolve_left hnot)).2).symm
    · rw [if_neg hk, ih hrest]
      constructor
      · exact Or.inl
      · intro hmem
        rcases hmem with hmem | heq
        · exact hmem
        · exact absurd (congrArg Prod.fst heq) hk

/-- A program ranges over the map and changes each value in its place. -/
def mapValues {W : Type} (f : K → V → W) : GoMap K W where
  entries := m.entries.map fun e => (e.1, f e.1 e.2)
  nodup := by
    have hkeys : (m.entries.map fun e => (e.1, f e.1 e.2)).map Prod.fst =
        m.entries.map Prod.fst := by
      rw [List.map_map]
      rfl
    rw [hkeys]
    exact m.nodup

theorem get_mapValues [DecidableEq K] {W : Type} (f : K → V → W) (k : K) :
    (m.mapValues f).get k = (m.get k).map (f k) := by
  apply Option.ext
  intro w
  rw [get_eq_some_iff, Option.map_eq_some_iff]
  simp only [get_eq_some_iff, mapValues, List.mem_map, Prod.mk.injEq, Prod.exists]
  constructor
  · intro hmem
    rcases hmem with ⟨k', v, hv, rfl, hw⟩
    exact ⟨v, hv, hw⟩
  · intro hmem
    rcases hmem with ⟨v, hv, hw⟩
    exact ⟨k, v, hv, rfl, hw⟩

/-- An order in which a program can range over the map. -/
structure Range where
  order : List (K × V)
  perm : order.Perm m.entries

/-- The order of the list itself. -/
def listed : m.Range := ⟨m.entries, .refl _⟩

def reversed : m.Range := ⟨m.entries.reverse, m.entries.reverse_perm⟩

namespace Range

variable {m}

theorem mem_iff (r : m.Range) (e : K × V) : e ∈ r.order ↔ e ∈ m.entries := r.perm.mem_iff

/-- Any entry can come last. -/
theorem exists_endingWith {e : K × V} (h : e ∈ m.entries) :
    ∃ (r : m.Range) (rest : List (K × V)), r.order = rest ++ [e] := by
  obtain ⟨left, right, hsplit⟩ := List.append_of_mem h
  refine ⟨⟨left ++ right ++ [e], ?_⟩, left ++ right, rfl⟩
  rw [hsplit]
  have hcons : (left ++ right ++ [e]).Perm (e :: (left ++ right)) :=
    List.perm_append_singleton e (left ++ right)
  exact hcons.trans List.perm_middle.symm

end Range

end GoMap

end PacketLoss
