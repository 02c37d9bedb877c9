import Mathlib.Data.List.Basic

/-!
Where a member of a list stands. Facts about a run often name one of its steps
by what comes before and after it; these lemmas find the step again when the
run was built by adding one, or by expanding each of its members.
-/
namespace PacketLoss.ListSplits

/-- A member of a list that one more was added to is the new one or an old one. -/
theorem concat_eq_append_cons {α : Type*} {xs pre post : List α} {x y : α}
    (h : xs ++ [x] = pre ++ y :: post) :
    (pre = xs ∧ y = x ∧ post = []) ∨ ∃ post', post = post' ++ [x] ∧ xs = pre ++ y :: post' := by
  rcases List.eq_nil_or_concat post with rfl | ⟨post', z, rfl⟩
  · obtain ⟨hpre, hlast⟩ := List.append_inj' h rfl
    exact Or.inl ⟨hpre.symm, (List.singleton_inj.mp hlast).symm, rfl⟩
  · have hcons : xs ++ [x] = (pre ++ y :: post') ++ [z] := by simpa using h
    obtain ⟨hxs, hlast⟩ := List.append_inj' hcons rfl
    obtain rfl : x = z := List.singleton_inj.mp hlast
    exact Or.inr ⟨post', List.concat_eq_append, hxs⟩

/-- Some member, after what comes before it, is as `P` says. -/
theorem exists_concat_iff {α : Type*} {P : List α → α → Prop} {xs : List α} {x : α} :
    (∃ pre y post, xs ++ [x] = pre ++ y :: post ∧ P pre y) ↔
      (∃ pre y post, xs = pre ++ y :: post ∧ P pre y) ∨ P xs x := by
  constructor
  · intro hsome
    rcases hsome with ⟨pre, y, post, hsplit, hp⟩
    rcases concat_eq_append_cons hsplit with ⟨rfl, rfl, -⟩ | ⟨post', -, hxs⟩
    · exact Or.inr hp
    · exact Or.inl ⟨pre, y, post', hxs, hp⟩
  · intro hsome
    rcases hsome with ⟨pre, y, post, rfl, hp⟩ | hp
    · exact ⟨pre, y, post ++ [x], by simp, hp⟩
    · exact ⟨xs, x, [], rfl, hp⟩

/-- A member of a list made by expanding another comes from one of its members. -/
theorem flatMap_eq_append_cons {α β : Type*} {f : α → List β} {xs : List α} {left : List β}
    {c : β} {right : List β} (h : xs.flatMap f = left ++ c :: right) :
    ∃ a x b pre post, xs = a ++ x :: b ∧ f x = pre ++ c :: post ∧ left = a.flatMap f ++ pre := by
  induction xs generalizing left with
  | nil => simp at h
  | cons y ys ih =>
    rw [List.flatMap_cons, List.append_eq_append_iff] at h
    rcases h with ⟨left', rfl, hrest⟩ | ⟨mid, hy, hmid⟩
    · obtain ⟨a, x, b, pre, post, rfl, hx, rfl⟩ := ih hrest
      exact ⟨y :: a, x, b, pre, post, rfl, hx, by simp⟩
    · rcases List.cons_eq_append_iff.mp hmid with ⟨rfl, hrest⟩ | ⟨mid', rfl, -⟩
      · have hrest' : ys.flatMap f = [] ++ c :: right := hrest
        obtain ⟨a, x, b, pre, post, rfl, hx, hleft⟩ := ih hrest'
        refine ⟨y :: a, x, b, pre, post, rfl, hx, ?_⟩
        rw [List.append_nil] at hy
        rw [List.flatMap_cons, hy, List.append_assoc, ← hleft, List.append_nil]
      · exact ⟨[], y, ys, left, mid', rfl, hy, rfl⟩

/-- The first member as `p` says is `x` exactly if the others come after `x`. -/
theorem find?_eq_iff_forall {α : Type*} (xs : List α) {p : α → Bool} {x : α} (hx : p x = true) :
    (∀ y, xs.find? p = some y → y = x) ↔
      ∀ pre y post, xs = pre ++ y :: post → p y = true → y = x ∨ x ∈ pre := by
  constructor
  · intro hfirst pre y post hsplit hy
    rw [hsplit, List.find?_append, List.find?_cons_of_pos hy] at hfirst
    rcases hpre : pre.find? p with _ | z
    · exact Or.inl (hfirst y (by rw [hpre, Option.none_or]))
    · have hz : z = x := hfirst z (by rw [hpre, Option.some_or])
      rw [← hz]
      exact Or.inr (List.mem_of_find?_eq_some hpre)
  · intro hafter y hfind
    obtain ⟨hy, left, right, hsplit, hnot⟩ := List.find?_eq_some_iff_append.mp hfind
    rcases hafter left y right hsplit hy with heq | hmem
    · exact heq
    · have hfalse := hnot x hmem
      rw [hx] at hfalse
      cases hfalse

end PacketLoss.ListSplits
