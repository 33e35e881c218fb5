import Mathlib.Data.List.Forall2

/-!
# Lists by position

Taking the elements of a list at some positions, and lists that are related position by position.
-/

namespace LoopTuner

theorem filterMap_getElem?_range' {α : Type} (xs : List α) (start count : Nat) :
    (List.range' start count).filterMap (xs[·]?) = (xs.drop start).take count := by
  induction count with
  | zero => rfl
  | succ count ih =>
    rw [List.range'_concat, List.filterMap_append, ih, List.take_add_one, List.getElem?_drop,
      Nat.one_mul]
    cases h : xs[start + count]? with
    | none => simp [h]
    | some x => simp [h]

theorem filterMap_getElem?_range {α : Type} (xs : List α) :
    (List.range xs.length).filterMap (xs[·]?) = xs := by
  rw [List.range_eq_range', filterMap_getElem?_range', List.drop_zero, List.take_length]

/-- No position is skipped, because there is an element at each of the old ones. -/
theorem getElem?_filterMap_getElem? {α : Type} {order : List Nat} {xs : List α}
    (h : ∀ old ∈ order, old < xs.length) (i : Nat) :
    (order.filterMap (xs[·]?))[i]? = order[i]?.bind fun old => xs[old]? := by
  induction order generalizing i with
  | nil => rfl
  | cons old order ih =>
    obtain ⟨hold, horder⟩ := List.forall_mem_cons.mp h
    rw [List.filterMap_cons_some (List.getElem?_eq_getElem hold)]
    cases i with
    | zero => exact (List.getElem?_eq_getElem hold).symm
    | succ i => exact ih horder i

/-- The elements at the positions in any order. -/
theorem perm_filterMap_getElem? {α : Type} {order : List Nat} {xs : List α}
    (h : order.Perm (List.range xs.length)) : (order.filterMap (xs[·]?)).Perm xs := by
  have hperm := h.filterMap (xs[·]?)
  rwa [filterMap_getElem?_range] at hperm

/-- The orders of the positions are the permutations of the first numbers. -/
theorem perm_range_iff {order : List Nat} {count : Nat} :
    order.Perm (List.range count) ↔ order.Nodup ∧ ∀ i, i ∈ order ↔ i < count := by
  constructor
  · intro h
    exact ⟨h.nodup_iff.mpr List.nodup_range, fun i => h.mem_iff.trans List.mem_range⟩
  · rintro ⟨hnodup, hmem⟩
    refine (List.perm_ext_iff_of_nodup hnodup List.nodup_range).mpr fun i => ?_
    rw [hmem, List.mem_range]

/-- Two elements of a list are in the same place, or one of them stands before the other. -/
theorem eq_or_mem_of_append_cons {α : Type} {before after before' after' : List α} {x y : α}
    (h : before ++ x :: after = before' ++ y :: after') :
    x = y ∨ (x ∈ before' ∧ y ∈ after) ∨ (y ∈ before ∧ x ∈ after') := by
  rcases List.append_eq_append_iff.mp h with ⟨between, rfl, hrest⟩ | ⟨between, rfl, hrest⟩
  · cases between with
    | nil => exact Or.inl (List.cons.inj hrest).1
    | cons z between =>
      obtain ⟨rfl, rfl⟩ := List.cons.inj hrest
      exact Or.inr (Or.inl ⟨List.mem_append_right _ List.mem_cons_self, List.mem_append_right _ List.mem_cons_self⟩)
  · cases between with
    | nil => exact Or.inl (List.cons.inj hrest).1.symm
    | cons z between =>
      obtain ⟨rfl, rfl⟩ := List.cons.inj hrest
      exact Or.inr (Or.inr ⟨List.mem_append_right _ List.mem_cons_self, List.mem_append_right _ List.mem_cons_self⟩)

theorem exists_of_forall₂_of_mem {α β : Type} {R : α → β → Prop} {xs : List α} {ys : List β}
    (h : List.Forall₂ R xs ys) {y : β} (hy : y ∈ ys) : ∃ x ∈ xs, R x y := by
  induction h with
  | nil => cases hy
  | cons hfirst _ ih =>
    rcases List.mem_cons.mp hy with rfl | hy
    · exact ⟨_, List.mem_cons_self, hfirst⟩
    · obtain ⟨x, hx, hR⟩ := ih hy
      exact ⟨x, List.mem_cons_of_mem _ hx, hR⟩

theorem forall₂_getElem? {α β : Type} {R : α → β → Prop} {xs : List α} {ys : List β}
    (h : List.Forall₂ R xs ys) {i : Nat} {x : α} {y : β} (hx : xs[i]? = some x)
    (hy : ys[i]? = some y) : R x y := by
  obtain ⟨hi, rfl⟩ := List.getElem?_eq_some_iff.mp hx
  obtain ⟨hi', rfl⟩ := List.getElem?_eq_some_iff.mp hy
  exact (List.forall₂_iff_get.mp h).2 i hi hi'

theorem exists_forall₂ {α β : Type} {R : α → β → Prop} {xs : List α} (h : ∀ x ∈ xs, ∃ y, R x y) :
    ∃ ys, List.Forall₂ R xs ys := by
  induction xs with
  | nil => exact ⟨[], .nil⟩
  | cons x xs ih =>
    obtain ⟨⟨y, hy⟩, hrest⟩ := List.forall_mem_cons.mp h
    obtain ⟨ys, hys⟩ := ih hrest
    exact ⟨y :: ys, .cons hy hys⟩

theorem pairwise_of_forall₂ {α β : Type} {R : α → β → Prop} {P : α → α → Prop} {Q : β → β → Prop}
    (hPQ : ∀ x y x' y', R x y → R x' y' → P x x' → Q y y') {xs : List α} {ys : List β}
    (h : List.Forall₂ R xs ys) (hxs : xs.Pairwise P) : ys.Pairwise Q := by
  induction h with
  | nil => exact .nil
  | cons hfirst hrest ih =>
    obtain ⟨hP, hxs⟩ := List.pairwise_cons.mp hxs
    refine .cons (fun y' hy' => ?_) (ih hxs)
    obtain ⟨x', hx', hR⟩ := exists_of_forall₂_of_mem hrest hy'
    exact hPQ _ _ _ _ hfirst hR (hP x' hx')

/-- What holds of the views of elements holds in any list with the same views. -/
theorem forall_of_map_eq {α β : Type} {view : α → β} {p : β → Prop} {xs ys : List α}
    (h : ys.map view = xs.map view) (hp : ∀ x ∈ xs, p (view x)) : ∀ y ∈ ys, p (view y) := by
  intro y hy
  have hmem := List.mem_map_of_mem (f := view) hy
  rw [h] at hmem
  obtain ⟨x, hx, heq⟩ := List.mem_map.mp hmem
  rw [← heq]
  exact hp x hx

/-- What is read back one by one is read back as a list. -/
theorem mapM_map_of_leftInverse {α β : Type} {write : α → β} {read? : β → Option α}
    (h : ∀ x, read? (write x) = some x) (xs : List α) : (xs.map write).mapM read? = some xs := by
  induction xs with
  | nil => rfl
  | cons x xs ih => simp [List.mapM_cons, h, ih]

end LoopTuner
