import LoopTuner.Cost
import Mathlib.Tactic.ByContra
import Mathlib.Tactic.SplitIfs

/-!
# Least elements

Among the elements of least key the first one is chosen (`Cost.firstLeast_of_leastBy`). Of ascending numbers it
is the one that comes before all others by key and number (`Cost.leastBy_eq_of_before`).
-/

namespace LoopTuner.Cost

variable {α : Type} {key : α → UInt64} {xs : List α} {x : α}

/-- The element is the first one of least key: those before it have greater keys, and those after it have no
smaller ones. -/
def FirstLeast (key : α → UInt64) (xs : List α) (x : α) : Prop :=
  ∃ before after, xs = before ++ x :: after ∧ (∀ y ∈ before, key x < key y) ∧ ∀ y ∈ after, key x ≤ key y

/-- One more element takes the place of the first one only if its key is smaller. -/
theorem FirstLeast.append (h : FirstLeast key xs x) (y : α) :
    FirstLeast key (xs ++ [y]) (if key y < key x then y else x) := by
  obtain ⟨before, after, hxs, hbefore, hafter⟩ := h
  split_ifs with hlt
  · refine ⟨xs, [], rfl, ?_, List.forall_mem_nil _⟩
    rw [hxs, List.forall_mem_append, List.forall_mem_cons]
    refine ⟨fun z hz => UInt64.lt_trans hlt (hbefore z hz), hlt, fun z hz => ?_⟩
    exact UInt64.lt_of_lt_of_le hlt (hafter z hz)
  · refine ⟨before, after ++ [y], ?_, hbefore, ?_⟩
    · rw [hxs, List.append_assoc, List.cons_append]
    · rw [List.forall_mem_append, List.forall_mem_singleton]
      exact ⟨hafter, UInt64.not_lt.mp hlt⟩

theorem FirstLeast.foldl (h : FirstLeast key xs x) (ys : List α) :
    FirstLeast key (xs ++ ys) (ys.foldl (fun best y => if key y < key best then y else best) x) := by
  induction ys generalizing xs x with
  | nil =>
    rw [List.append_nil]
    exact h
  | cons y ys ih =>
    rw [List.append_cons]
    exact ih (h.append y)

theorem firstLeast_of_leastBy (h : leastBy key xs = some x) : FirstLeast key xs x := by
  cases xs with
  | nil => cases h
  | cons y ys =>
    cases h
    have hfirst : FirstLeast key [y] y := ⟨[], [], rfl, List.forall_mem_nil _, List.forall_mem_nil _⟩
    exact hfirst.foldl ys

theorem leastBy_mem (h : leastBy key xs = some x) : x ∈ xs := by
  obtain ⟨before, after, rfl, -⟩ := firstLeast_of_leastBy h
  exact List.mem_append_right _ List.mem_cons_self

/-- Of ascending numbers, the first of least key is the one that comes before all others. -/
theorem leastBy_eq_of_before {key : Nat → UInt64} {i : Nat} {xs : List Nat}
    (hxs : xs.Pairwise (· < ·)) (hi : i ∈ xs)
    (hmin : ∀ j ∈ xs, j ≠ i → key i < key j ∨ key i = key j ∧ i < j) :
    leastBy key xs = some i := by
  cases hx : leastBy key xs with
  | none =>
    rw [leastBy_eq_none.mp hx] at hi
    cases hi
  | some x =>
    have hmem := leastBy_mem hx
    obtain ⟨before, after, rfl, hbefore, hafter⟩ := firstLeast_of_leastBy hx
    by_contra hne
    have hx := hmin x hmem fun heq => hne (congrArg some heq)
    rcases List.mem_append.mp hi with hi | hi
    · have hlt := hbefore i hi
      rcases hx with h | ⟨h, -⟩
      · exact UInt64.lt_asymm h hlt
      · exact UInt64.lt_irrefl _ (h ▸ hlt)
    · rcases List.mem_cons.mp hi with rfl | hi
      · exact hne rfl
      · rcases hx with h | ⟨-, h⟩
        · exact UInt64.not_le.mpr h (hafter i hi)
        · have hlt := (List.pairwise_cons.mp (List.pairwise_append.mp hxs).2.1).1 i hi
          exact Nat.lt_asymm h hlt

end LoopTuner.Cost
