import Mathlib.Data.List.Nodup
import Mathlib.Data.List.Perm.Basic

/-!
Lists whose members have distinct keys, with an operation that adds a member at any
place and one that deletes a member. Members that one party adds to a list under
labels of its own form a layer over what was there before: the party finds each of
them again by its label, and deleting them all gives the old list back.
-/
namespace PacketLoss.KeyedLists

variable {α κ : Type*}

@[ext]
structure KeyedList (key : α → κ) where
  entries : List α
  nodup : (entries.map key).Nodup

namespace KeyedList

variable {key : α → κ} (t : KeyedList key)

theorem nodup_entries : t.entries.Nodup := t.nodup.of_map

theorem perm_put (n : ℕ) (x : α) :
    (t.entries.take n ++ x :: t.entries.drop n).Perm (x :: t.entries) := by
  have hmiddle : (t.entries.take n ++ x :: t.entries.drop n).Perm
      (x :: (t.entries.take n ++ t.entries.drop n)) := List.perm_middle
  rwa [List.take_append_drop] at hmiddle

def del [DecidableEq α] (x : α) : KeyedList key where
  entries := t.entries.erase x
  nodup := t.nodup.sublist ((List.erase_sublist).map key)

theorem mem_del [DecidableEq α] {t : KeyedList key} {x y : α} :
    y ∈ (t.del x).entries ↔ y ≠ x ∧ y ∈ t.entries := t.nodup_entries.mem_erase_iff

variable [DecidableEq κ]

/-- No two members get the same key. -/
def add (n : ℕ) (x : α) : Option (KeyedList key) :=
  if h : key x ∈ t.entries.map key then none
  else some
    { entries := t.entries.take n ++ x :: t.entries.drop n
      nodup := by
        rw [((t.perm_put n x).map key).nodup_iff, List.map_cons, List.nodup_cons]
        exact ⟨h, t.nodup⟩ }

variable {t} {t' : KeyedList key} {n : ℕ} {x : α}

theorem add_eq_some_iff :
    t.add n x = some t' ↔
      key x ∉ t.entries.map key ∧ t'.entries = t.entries.take n ++ x :: t.entries.drop n := by
  unfold add
  split
  next h => simp [h]
  next h =>
    rw [Option.some.injEq, KeyedList.ext_iff]
    simp only [h, not_false_eq_true, true_and]
    exact eq_comm

theorem exists_add (h : key x ∉ t.entries.map key) : ∃ t', t.add n x = some t' := by
  unfold add
  rw [dif_neg h]
  exact ⟨_, rfl⟩

theorem perm_add (h : t.add n x = some t') : t'.entries.Perm (x :: t.entries) := by
  rw [(add_eq_some_iff.mp h).2]
  exact t.perm_put n x

theorem sublist_add (h : t.add n x = some t') : t.entries.Sublist t'.entries := by
  rw [(add_eq_some_iff.mp h).2]
  nth_rewrite 1 [← List.take_append_drop n t.entries]
  exact (List.Sublist.refl _).append (List.sublist_cons_self _ _)

end KeyedList

/-- What one party has added under the labels `ks` to the list `base`. -/
structure Layer (label : α → κ) (own : κ → α) (base xs : List α) (ks : List κ) : Prop where
  sublist : base.Sublist xs
  perm : xs.Perm (base ++ ks.map own)
  nodup : ks.Nodup
  fresh : ∀ x ∈ base, label x ∉ ks

namespace Layer

variable {label : α → κ} {own : κ → α} {base xs ys : List α} {ks : List κ} {k : κ}

theorem refl : Layer label own xs xs [] where
  sublist := List.Sublist.refl xs
  perm := by simp
  nodup := List.nodup_nil
  fresh := fun _ _ => List.not_mem_nil

theorem eq_of_nil (h : Layer label own base xs []) : xs = base := by
  have hperm : xs.Perm base := by simpa using h.perm
  exact (h.sublist.eq_of_length hperm.length_eq.symm).symm

/-- What the added members all lack is as it was. -/
theorem filter_eq (h : Layer label own base xs ks) (p : α → Bool) (hown : ∀ k, p (own k) = false) :
    xs.filter p = base.filter p := by
  have hperm : (xs.filter p).Perm (base.filter p) := by
    have hfilter := h.perm.filter p
    rw [List.filter_append, List.filter_map] at hfilter
    have hnone : ks.filter (p ∘ own) = [] :=
      List.filter_eq_nil_iff.mpr fun k _ => by simp [hown k]
    rwa [hnone, List.map_nil, List.append_nil] at hfilter
  exact ((h.sublist.filter p).eq_of_length hperm.length_eq.symm).symm

/-- What the added members all have is as it was, and besides there are these. -/
theorem length_filter (h : Layer label own base xs ks) (p : α → Bool)
    (hown : ∀ k, p (own k) = true) :
    (xs.filter p).length = (base.filter p).length + ks.length := by
  rw [(h.perm.filter p).length_eq, List.filter_append, List.length_append, List.filter_map]
  have hall : ks.filter (p ∘ own) = ks := List.filter_eq_self.mpr fun k _ => hown k
  rw [hall, List.length_map]

/-- There is a layer if the members with its labels are the added ones. -/
theorem of_labelled [DecidableEq κ] (hnodup : ks.Nodup)
    (hperm : (xs.filter fun x => label x ∈ ks).Perm (ks.map own)) :
    Layer label own (xs.filter fun x => label x ∉ ks) xs ks where
  sublist := List.filter_sublist
  perm := by
    have hsplit := List.filter_append_perm (fun x => decide (label x ∈ ks)) xs
    simp only [← decide_not] at hsplit
    refine hsplit.symm.trans (List.perm_append_comm.trans ?_)
    exact hperm.append_left _
  nodup := hnodup
  fresh := fun _ hx => of_decide_eq_true (List.mem_filter.mp hx).2

variable (hown : ∀ k, label (own k) = k)
include hown

theorem insert (h : Layer label own base xs ks) (hk : ∀ x ∈ xs, label x ≠ k)
    (hsub : xs.Sublist ys) (hperm : ys.Perm (own k :: xs)) :
    Layer label own base ys (ks ++ [k]) where
  sublist := h.sublist.trans hsub
  perm := by
    rw [List.map_append, ← List.append_assoc]
    apply hperm.trans
    apply (h.perm.cons (own k)).trans
    exact (List.perm_append_singleton _ _).symm
  nodup := by
    rw [List.nodup_append_comm, List.singleton_append, List.nodup_cons]
    refine ⟨?_, h.nodup⟩
    intro hmem
    apply hk (own k) _ (hown k)
    rw [h.perm.mem_iff]
    exact List.mem_append_right _ (List.mem_map_of_mem hmem)
  fresh := by
    intro x hx hmem
    rcases List.mem_append.mp hmem with hmem | hmem
    · exact h.fresh x hx hmem
    · exact hk x (h.sublist.subset hx) (List.mem_singleton.mp hmem)

/-- The first member with a label of the layer is the one added under it. -/
theorem find?_eq [DecidableEq κ] (h : Layer label own base xs ks) (hk : k ∈ ks) :
    xs.find? (fun x => label x = k) = some (own k) := by
  have hmem : own k ∈ xs := by
    rw [h.perm.mem_iff]
    exact List.mem_append_right _ (List.mem_map_of_mem hk)
  rcases hfind : xs.find? (fun x => label x = k) with _ | x
  · have hnone := List.find?_eq_none.mp hfind (own k) hmem
    simp [hown k] at hnone
  · have hlabel : label x = k := by simpa using List.find?_some hfind
    have hx := List.mem_of_find?_eq_some hfind
    rw [h.perm.mem_iff, List.mem_append, List.mem_map] at hx
    rcases hx with hx | ⟨k', -, rfl⟩
    · exact absurd (hlabel ▸ hk) (h.fresh x hx)
    · rw [hown k'] at hlabel
      rw [hlabel]

theorem erase [DecidableEq α] [DecidableEq κ] (h : Layer label own base xs ks) (hk : k ∈ ks) :
    Layer label own base (xs.erase (own k)) (ks.erase k) := by
  have hnot : own k ∉ base := by
    intro hmem
    apply h.fresh (own k) hmem
    rwa [hown k]
  refine ⟨?_, ?_, h.nodup.erase k, ?_⟩
  · have hsub := h.sublist.erase (own k)
    rwa [List.erase_of_not_mem hnot] at hsub
  · have hinj : Function.Injective own := fun k k' heq => by rw [← hown k, heq, hown k']
    rw [List.map_erase hinj, ← List.erase_append_right _ hnot]
    exact h.perm.erase (own k)
  · intro x hx hmem
    exact h.fresh x hx (List.mem_of_mem_erase hmem)

/-- What lies under a layer is what has none of its labels. -/
theorem base_eq [DecidableEq κ] (h : Layer label own base xs ks) :
    base = xs.filter fun x => label x ∉ ks := by
  have hbase : base.filter (fun x => label x ∉ ks) = base :=
    List.filter_eq_self.mpr fun x hx => decide_eq_true (h.fresh x hx)
  have hnone : (ks.map own).filter (fun x => label x ∉ ks) = [] := by
    refine List.filter_eq_nil_iff.mpr fun x hx => ?_
    obtain ⟨k, hk, rfl⟩ := List.mem_map.mp hx
    simpa [hown k] using hk
  have hperm := h.perm.filter fun x => label x ∉ ks
  rw [List.filter_append, hnone, List.append_nil] at hperm
  have hsub := h.sublist.filter fun x => label x ∉ ks
  have heq := hsub.eq_of_length hperm.length_eq.symm
  rwa [hbase] at heq

theorem labelled [DecidableEq κ] (h : Layer label own base xs ks) :
    (xs.filter fun x => label x ∈ ks).Perm (ks.map own) := by
  have hnone : base.filter (fun x => label x ∈ ks) = [] :=
    List.filter_eq_nil_iff.mpr fun x hx => by simpa using h.fresh x hx
  have hall : (ks.map own).filter (fun x => label x ∈ ks) = ks.map own := by
    refine List.filter_eq_self.mpr fun x hx => ?_
    obtain ⟨k, hk, rfl⟩ := List.mem_map.mp hx
    simpa [hown k] using hk
  have hperm := h.perm.filter fun x => label x ∈ ks
  rwa [List.filter_append, hnone, List.nil_append, hall] at hperm

end Layer

end PacketLoss.KeyedLists
