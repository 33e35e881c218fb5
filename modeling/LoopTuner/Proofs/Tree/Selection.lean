import LoopTuner.Proofs.Cost.Order
import LoopTuner.Proofs.Tree.Walks

/-!
# Selection by score

A selection compares scores, and these are floats. As long as they are numbers it goes on at the first child of
least score (`Descent.firstLowest_bestScored`); a score that is NaN undercuts nothing and is undercut by nothing,
and then it goes on at some child. If the nodes it can pass were visited, it ends at a node that can still be
expanded or has no children (`Descent.exists_select`).
-/

namespace LoopTuner

variable {P T : Type}

/-! ## The first of the lowest scores -/

namespace Cost

variable {α : Type} {score : α → Float} {xs : List α} {x : α}

/-- The element is the first one of least score: none undercuts it, and it undercuts all before it. -/
structure FirstLowest (score : α → Float) (xs : List α) (x : α) : Prop where
  lowest : ∀ y ∈ xs, ¬ score y < score x
  first : ∃ before after, xs = before ++ x :: after ∧ ∀ y ∈ before, score x < score y

theorem FirstLowest.mem (h : FirstLowest score xs x) : x ∈ xs := by
  obtain ⟨before, after, rfl, -⟩ := h.first
  exact List.mem_append_right _ List.mem_cons_self

theorem firstLowest_singleton (score : α → Float) (x : α) : FirstLowest score [x] x where
  lowest y hy := by
    rw [List.mem_singleton.mp hy]
    exact not_lt_self _
  first := ⟨[], [], rfl, List.forall_mem_nil _⟩

/-- One more element takes the place of the first one only if it undercuts it. -/
theorem FirstLowest.append (h : FirstLowest score xs x) {y : α}
    (hxs : ∀ z ∈ xs, (score z).isNaN = false) (hy : (score y).isNaN = false) :
    FirstLowest score (xs ++ [y]) (if score y < score x then y else x) := by
  have hx := hxs x h.mem
  obtain ⟨before, after, hsplit, hbefore⟩ := h.first
  split_ifs with hlt
  · -- what does not undercut `x` is undercut by whatever undercuts `x`
    have hall : ∀ z ∈ xs, score y < score z := fun z hz =>
      lt_of_lt_of_not_lt hy hx (hxs z hz) hlt (h.lowest z hz)
    refine ⟨?_, xs, [], rfl, hall⟩
    rw [List.forall_mem_append, List.forall_mem_singleton]
    exact ⟨fun z hz => lt_asymm hy (hxs z hz) (hall z hz), not_lt_self _⟩
  · refine ⟨?_, before, after ++ [y], ?_, hbefore⟩
    · rw [List.forall_mem_append, List.forall_mem_singleton]
      exact ⟨h.lowest, hlt⟩
    · rw [hsplit, List.append_assoc, List.cons_append]

end Cost

namespace Descent

theorem better_scored (d : Descent) (t : Tree P T) (n : Node P T) (x y : Nat) :
    d.better t n (x, d.scoreOf t n x) y =
      (if d.scoreOf t n y < d.scoreOf t n x then y else x,
        d.scoreOf t n (if d.scoreOf t n y < d.scoreOf t n x then y else x)) := by
  unfold better
  simp only
  split_ifs
  · rfl
  · rfl

/-- Going through the other children keeps the first of the lowest scores seen so far. -/
theorem firstLowest_foldl (d : Descent) (t : Tree P T) (n : Node P T) {xs : List Nat} {x : Nat}
    (h : Cost.FirstLowest (d.scoreOf t n) xs x) {ys : List Nat}
    (hnumbers : ∀ y ∈ xs ++ ys, (d.scoreOf t n y).isNaN = false) :
    Cost.FirstLowest (d.scoreOf t n) (xs ++ ys)
      (ys.foldl (d.better t n) (x, d.scoreOf t n x)).1 := by
  induction ys generalizing xs x with
  | nil =>
    rw [List.append_nil]
    exact h
  | cons y ys ih =>
    rw [List.append_cons] at hnumbers ⊢
    obtain ⟨hseen, -⟩ := List.forall_mem_append.mp hnumbers
    obtain ⟨hxs, hy⟩ := List.forall_mem_append.mp hseen
    rw [List.foldl_cons, better_scored]
    exact ih (h.append hxs (hy y List.mem_cons_self)) hnumbers

/-- Among children whose scores are numbers the first one of least score is chosen. -/
theorem firstLowest_bestScored (d : Descent) (t : Tree P T) (n : Node P T) {first : Nat}
    {others : List Nat} (hnumbers : ∀ i ∈ first :: others, (d.scoreOf t n i).isNaN = false) :
    Cost.FirstLowest (d.scoreOf t n) (first :: others) (d.bestScored t n first others) :=
  d.firstLowest_foldl t n (Cost.firstLowest_singleton _ first) hnumbers

/-- The ways of a selection: from an expanded node with children on at a child, at the first one of least score
where the scores are numbers, until a node can still be expanded or has no children. -/
inductive Selects (d : Descent) (t : Tree P T) : Nat → Nat → Prop
  | stop {i : Nat} {n : Node P T} (hn : t.node? i = some n)
      (h : n.expanded = false ∨ n.children = #[]) : Selects d t i i
  | step {i j r : Nat} {n : Node P T} (hn : t.node? i = some n) (hexpanded : n.expanded = true)
      (hmem : j ∈ n.children) (hparent : t.parent? j = some i)
      (hlowest : (∀ k ∈ n.children, (d.scoreOf t n k).isNaN = false) →
        Cost.FirstLowest (d.scoreOf t n) n.children.toList j)
      (rest : Selects d t j r) : Selects d t i r

theorem selects_of_next_eq_none {d : Descent} {t : Tree P T} {i : Nat} (hi : i < t.size)
    (h : d.next? t i = none) : d.Selects t i i := by
  obtain ⟨n, hn⟩ := Tree.exists_node? hi
  refine .stop hn ?_
  unfold next? at h
  rw [hn, Option.bind_some] at h
  split_ifs at h with hexpanded
  · right
    cases hlist : n.children.toList with
    | nil => exact Array.toList_eq_nil_iff.mp hlist
    | cons first others =>
      rw [hlist] at h
      cases h
  · exact Or.inl (Bool.eq_false_iff.mpr hexpanded)

theorem Selects.of_next {d : Descent} {t : Tree P T} (ht : t.WellFormed) {i j r : Nat}
    (h : d.next? t i = some j) (rest : d.Selects t j r) : d.Selects t i r := by
  have hparent := downward_next ht d i j h
  obtain ⟨n, first, others, hn, hexpanded, hlist, rfl⟩ := exists_of_next? h
  refine .step hn hexpanded ((ht.mem_children_iff i n _ hn).mpr hparent) hparent ?_ rest
  intro hnumbers
  rw [hlist]
  refine d.firstLowest_bestScored t n fun k hk => hnumbers k ?_
  rw [← Array.mem_toList_iff, hlist]
  exact hk

end Descent

/-- The nodes below which a selection goes on were visited. -/
def Tree.VisitedInside (t : Tree P T) : Prop :=
  ∀ i n, t.node? i = some n → n.expanded = true → n.children ≠ #[] → n.isVisited = true

namespace Descent

/-- A walk over visited nodes ends at its last place. -/
theorem exists_settle {d : Descent} {t : Tree P T} (ht : t.WellFormed) (hvisited : t.VisitedInside)
    {i : Nat} (hi : i < t.size) {path : List Nat} (h : Trace (d.next? t) i path) :
    ∃ r, settle t i path = .ok r ∧ d.Selects t i r := by
  induction h with
  | @stop i hnone => exact ⟨i, rfl, selects_of_next_eq_none hi hnone⟩
  | @step i j path hsome _ ih =>
    obtain ⟨r, hr, hselects⟩ := ih (Tree.lt_size_of_parent? (downward_next ht d i j hsome))
    refine ⟨r, ?_, .of_next ht hsome hselects⟩
    obtain ⟨n, first, others, hn, hexpanded, hlist, -⟩ := exists_of_next? hsome
    have hne : n.children ≠ #[] := fun hempty => by
      rw [hempty] at hlist
      cases hlist
    unfold settle
    rw [hn, Option.any_some, hvisited i n hn hexpanded hne, if_pos rfl]
    exact hr

/-- From every node of a tree whose inner nodes were visited, a selection ends. It goes from parents to children,
and it ends where a node can still be expanded or has no children. -/
theorem exists_select {t : Tree P T} (ht : t.WellFormed) (hvisited : t.VisitedInside) (d : Descent)
    {i : Nat} (hi : i < t.size) : ∃ r, d.select t i = .ok r ∧ d.Selects t i r := by
  obtain ⟨path, htrace⟩ := ht.exists_trace (downward_next ht d) hi
  rw [select_of_trace ht htrace hi]
  exact exists_settle ht hvisited hi htrace

end Descent

/-- A first child, or a root, that was visited and expanded. -/
def Node.passed (parent : Option Nat) (stage : Stage) : Node Nat Nat :=
  ((Node.fresh parent stage 0 0).record 3).markExpanded

/-- A root with two children, the first of which has a child of its own. -/
def Tree.fork : Tree Nat Nat :=
  ((ofRoot (.passed none 0)).withChildren 0 [.passed (some 0) 1, .fresh (some 0) 1 1 0]).withChildren 1
    [.fresh (some 1) 2 0 0]

theorem Tree.wellFormed_fork : Tree.fork.WellFormed := by
  have hroot : (ofRoot (Node.passed none 0)).WellFormed := wellFormed_ofRoot rfl rfl
  exact (hroot.withChildren (p := 0) rfl (by decide)).withChildren (p := 1) rfl (by decide)

theorem Tree.visitedInside_fork : Tree.fork.VisitedInside := by
  have hall : ∀ n ∈ Tree.fork.nodes, n.expanded = true → n.children ≠ #[] → n.isVisited = true := by
    decide
  exact fun i n hn => hall n (Array.mem_of_getElem? hn)

theorem Descent.exists_select_fork :
    (Tree.fork.WellFormed ∧ Tree.fork.VisitedInside ∧ 0 < Tree.fork.size) ∧
      ∃ r, (⟨0.5⟩ : Descent).select Tree.fork 0 = .ok r ∧ (⟨0.5⟩ : Descent).Selects Tree.fork 0 r := by
  refine ⟨⟨Tree.wellFormed_fork, Tree.visitedInside_fork, by decide⟩, ?_⟩
  exact exists_select Tree.wellFormed_fork Tree.visitedInside_fork ⟨0.5⟩ (by decide)

end LoopTuner
