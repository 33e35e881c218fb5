import LoopTuner.Proofs.Growth.Moves
import Mathlib.Algebra.GroupWithZero.Nat

/-!
# The balance of visits

A node that has children was visited once on its own, in the round that expanded it, and once for each
visit of a child. `Tree.Balanced` states this for a tree between two rounds, and also within a round,
when the visit of the selected node is still due. Every round that is completed adds one visit to the
root (`Growth.searchRound_ran`).
-/

namespace LoopTuner

variable {P T O σ ε : Type}

/-- The number of visits of node `i`. -/
def Tree.visitsOf (t : Tree P T) (i : Nat) : Nat :=
  match t.node? i with
  | some n => n.visits
  | none => 0

/-- One for the node whose visit is due. -/
def visitsDue (due : Option Nat) (i : Nat) : Nat := if due = some i then 1 else 0

/-- The invariant of tree search after `total` rounds, where the visit of a node may be due. -/
structure Tree.Balanced (last : Stage) (due : Option Nat) (total : Nat) (t : Tree P T) : Prop where
  wellFormed : t.WellFormed
  root_visits : t.visitsOf rootIndex = total
  inner : ∀ i n, t.node? i = some n → n.children ≠ #[] →
    n.expanded = true ∧ n.visits + visitsDue due i = 1 + (n.children.toList.map t.visitsOf).sum
  measured : ∀ i n, t.node? i = some n → 0 < n.visits → n.evaluation.isSome = true
  unvisited : ∀ i n, t.node? i = some n → n.visits + visitsDue due i = 0 →
    n.children = #[] ∧ n.expanded = false
  expanded_of_stage_le : ∀ i n, t.node? i = some n → 0 < n.visits + visitsDue due i →
    n.stage ≤ last → n.expanded = true

/-- A root that no search has worked on. Its cost may be known. -/
structure Node.Untouched (n : Node P T) : Prop where
  parent_eq : n.parent = none
  children_eq : n.children = #[]
  visits_eq : n.visits = 0
  expanded_eq : n.expanded = false

namespace Tree

/-! ## Counting -/

theorem visitsOf_of_node? {t : Tree P T} {i : Nat} {n : Node P T} (h : t.node? i = some n) :
    t.visitsOf i = n.visits := by
  unfold visitsOf
  rw [h]

theorem visitsDue_self (i : Nat) : visitsDue (some i) i = 1 := if_pos rfl

theorem visitsDue_of_ne {i j : Nat} (h : i ≠ j) : visitsDue (some i) j = 0 :=
  if_neg fun heq => h (Option.some.inj heq)

theorem visitsDue_none (i : Nat) : visitsDue none i = 0 := rfl

theorem sum_map_add_countP (f : Nat → Nat) (p : Nat → Bool) (xs : List Nat) :
    (xs.map fun x => f x + if p x then 1 else 0).sum = (xs.map f).sum + xs.countP p := by
  induction xs with
  | nil => rfl
  | cons x xs ih =>
    rw [List.map_cons, List.sum_cons, List.map_cons, List.sum_cons, List.countP_cons, ih]
    omega

/-! ## The start -/

theorem balanced_of_untouched {root : Node P T} (h : root.Untouched) (last : Stage) :
    (ofRoot root).Balanced last none 0 where
  wellFormed := wellFormed_ofRoot h.parent_eq h.children_eq
  root_visits := h.visits_eq
  inner i n hn hne := by
    obtain ⟨-, rfl⟩ := node?_ofRoot hn
    exact absurd h.children_eq hne
  measured i n hn hpos := by
    obtain ⟨-, rfl⟩ := node?_ofRoot hn
    exact absurd h.visits_eq (Nat.ne_of_gt hpos)
  unvisited i n hn _ := by
    obtain ⟨-, rfl⟩ := node?_ofRoot hn
    exact ⟨h.children_eq, h.expanded_eq⟩
  expanded_of_stage_le i n hn hpos _ := by
    obtain ⟨-, rfl⟩ := node?_ofRoot hn
    rw [visitsDue_none] at hpos
    exact absurd h.visits_eq (Nat.ne_of_gt hpos)

theorem balanced_ofRoot (last : Stage) (program : P) (stage : Stage) :
    (ofRoot (Node.root program stage : Node P T)).Balanced last none 0 :=
  balanced_of_untouched ⟨rfl, rfl, rfl, rfl⟩ last

namespace Balanced

variable {last : Stage} {due : Option Nat} {total i : Nat} {t : Tree P T}

/-! ## Measuring -/

theorem node?_modify_evaluation {t : Tree P T} {i j : Nat} {n m' : Node P T} {cost : Float}
    (hn : t.node? i = some n)
    (h : (t.modify i fun _ => { n with evaluation := some cost }).node? j = some m') :
    ∃ m, t.node? j = some m ∧ (m' = { m with evaluation := some cost } ∨ m' = m) := by
  rw [node?_modify] at h
  split_ifs at h with hij
  · subst hij
    rw [hn] at h
    exact ⟨n, hn, Or.inl (Option.some.inj h).symm⟩
  · exact ⟨m', h, Or.inr rfl⟩

theorem visitsOf_modify_evaluation {t : Tree P T} {i : Nat} {n : Node P T} (hn : t.node? i = some n)
    (cost : Float) :
    (t.modify i fun _ => { n with evaluation := some cost }).visitsOf = t.visitsOf := by
  funext j
  unfold visitsOf
  rw [node?_modify]
  split_ifs with hij
  · subst hij
    rw [hn]
    rfl
  · rfl

/-- Storing a cost changes nothing that counts. -/
theorem measure (h : t.Balanced last due total) {i : Nat} {n : Node P T} (hn : t.node? i = some n)
    (cost : Float) :
    (t.modify i fun _ => { n with evaluation := some cost }).Balanced last due total where
  wellFormed := by
    refine h.wellFormed.of_agree (Agree.modify t i fun m hm => ?_)
    rw [hn] at hm
    cases hm
    rfl
  root_visits := by
    rw [visitsOf_modify_evaluation hn]
    exact h.root_visits
  inner j m' hm := by
    rw [visitsOf_modify_evaluation hn]
    obtain ⟨m, hold, rfl | rfl⟩ := node?_modify_evaluation hn hm
    · exact h.inner j m hold
    · exact h.inner j _ hold
  measured j m' hm := by
    obtain ⟨m, hold, rfl | rfl⟩ := node?_modify_evaluation hn hm
    · exact fun _ => rfl
    · exact h.measured j _ hold
  unvisited j m' hm := by
    obtain ⟨m, hold, rfl | rfl⟩ := node?_modify_evaluation hn hm
    · exact h.unvisited j m hold
    · exact h.unvisited j _ hold
  expanded_of_stage_le j m' hm := by
    obtain ⟨m, hold, rfl | rfl⟩ := node?_modify_evaluation hn hm
    · exact h.expanded_of_stage_le j m hold
    · exact h.expanded_of_stage_le j _ hold

/-! ## Expanding -/

/-- A node that can still be expanded has no children. -/
theorem children_eq (h : t.Balanced last due total) {i : Nat} {n : Node P T} (hn : t.node? i = some n)
    (hleaf : n.expanded = false ∨ n.children = #[]) : n.children = #[] := by
  rcases hleaf with hexpanded | hchildren
  · by_contra hne
    rw [(h.inner i n hn hne).1] at hexpanded
    cases hexpanded
  · exact hchildren

/-- Past the last stage a node is visited without being expanded. -/
theorem visit (h : t.Balanced last none total) {i : Nat} {n : Node P T} (hn : t.node? i = some n)
    (hleaf : n.expanded = false ∨ n.children = #[]) (hstage : last < n.stage) :
    t.Balanced last (some i) total where
  wellFormed := h.wellFormed
  root_visits := h.root_visits
  inner j m hm hne := by
    by_cases hij : i = j
    · subst hij
      rw [hn] at hm
      cases hm
      exact absurd (h.children_eq hn hleaf) hne
    · rw [visitsDue_of_ne hij]
      exact h.inner j m hm hne
  measured := h.measured
  unvisited j m hm hzero := h.unvisited j m hm (by rw [visitsDue_none]; omega)
  expanded_of_stage_le j m hm hpos hle := by
    by_cases hij : i = j
    · subst hij
      rw [hn] at hm
      cases hm
      exact absurd hle (Nat.not_le.mpr hstage)
    · rw [visitsDue_of_ne hij] at hpos
      exact h.expanded_of_stage_le j m hm hpos hle

/-- A node after an expansion was there before, with its new children if it is the expanded one, or it
is one of these, which are fresh. -/
theorem node?_expandedBy {t : Tree P T} {i j : Nat} {n m : Node P T} {kids : List (Node P T)}
    (hkids : ∀ kid ∈ kids, ∃ c : Candidate P T, c.Becomes n i kid)
    (h : (t.expandedBy i kids).node? j = some m) :
    (∃ m₀, t.node? j = some m₀ ∧
      m = if j = i then m₀.markExpanded.adoptAll (List.range' t.size kids.length) else m₀) ∨
    (t.size ≤ j ∧ m.visits = 0 ∧ m.children = #[] ∧ m.expanded = false) := by
  rcases Nat.lt_or_ge j t.size with hlt | hge
  · exact Or.inl (node?_expandedBy_old hlt h)
  · obtain ⟨k, rfl⟩ := Nat.exists_eq_add_of_le hge
    rw [node?_expandedBy_new] at h
    obtain ⟨c, offset, evaluation, rfl⟩ := hkids m (List.mem_of_getElem? h)
    exact Or.inr ⟨hge, rfl, rfl, rfl⟩

theorem visitsOf_expandedBy {t : Tree P T} {i : Nat} {n : Node P T} {kids : List (Node P T)}
    (hkids : ∀ kid ∈ kids, ∃ c : Candidate P T, c.Becomes n i kid) (j : Nat) :
    (t.expandedBy i kids).visitsOf j = t.visitsOf j := by
  unfold visitsOf
  cases hj : (t.expandedBy i kids).node? j with
  | none =>
    rw [node?_eq_none]
    by_contra hlt
    obtain ⟨m, hm⟩ := exists_node? (t := t.expandedBy i kids) (i := j) (by
      rw [size_expandedBy]
      omega)
    rw [hj] at hm
    cases hm
  | some m =>
    rcases node?_expandedBy hkids hj with ⟨m₀, hm₀, rfl⟩ | ⟨hge, hvisits, -⟩
    · rw [hm₀]
      simp only
      split_ifs <;> rfl
    · rw [node?_eq_none hge]
      exact hvisits

theorem sum_visitsOf_new (t : Tree P T) (count : Nat) :
    ((List.range' t.size count).map t.visitsOf).sum = 0 := by
  refine List.sum_eq_zero_iff_forall_eq_nat.mpr fun x hx => ?_
  obtain ⟨j, hj, rfl⟩ := List.mem_map.mp hx
  unfold visitsOf
  rw [node?_eq_none (List.mem_range'_1.mp hj).1]

theorem visits_eq_zero (h : t.Balanced last none total) {i : Nat} {n : Node P T}
    (hn : t.node? i = some n) (hexpanded : n.expanded = false) (hstage : n.stage ≤ last) :
    n.visits = 0 := by
  by_contra hpos
  have := h.expanded_of_stage_le i n hn (by omega) hstage
  rw [hexpanded] at this
  cases this

/-- The new children, unvisited as they are, make up for the first visit of their parent. -/
theorem inner_expandedBy (h : t.Balanced last none total) {i : Nat} {n : Node P T}
    (hn : t.node? i = some n) (hleaf : n.expanded = false ∨ n.children = #[]) (hstage : n.stage ≤ last)
    {kids : List (Node P T)} (hkids : ∀ kid ∈ kids, n.expanded = false)
    (hne : (n.markExpanded.adoptAll (List.range' t.size kids.length)).children ≠ #[]) :
    n.visits + visitsDue (some i) i =
      1 + ((n.markExpanded.adoptAll (List.range' t.size kids.length)).children.toList.map
        t.visitsOf).sum := by
  have hchildren := h.children_eq hn hleaf
  have hempty : n.markExpanded.children = #[] := hchildren
  rw [Ne, ← Array.toList_inj, Node.toList_children_adoptAll hempty] at hne
  obtain ⟨kid, hkid⟩ := List.exists_mem_of_ne_nil kids fun hnil => hne (by rw [hnil]; rfl)
  rw [Node.toList_children_adoptAll hempty, sum_visitsOf_new, visitsDue_self,
    h.visits_eq_zero hn (hkids kid hkid) hstage]

/-- An expanded node gets its first visit. -/
theorem expand (h : t.Balanced last none total) {i : Nat} {n : Node P T} (hn : t.node? i = some n)
    (hleaf : n.expanded = false ∨ n.children = #[]) (hstage : n.stage ≤ last)
    {kids : List (Node P T)}
    (hkids : ∀ kid ∈ kids, n.expanded = false ∧ ∃ c : Candidate P T, c.Becomes n i kid) :
    (t.expandedBy i kids).Balanced last (some i) total := by
  have hbecomes : ∀ kid ∈ kids, ∃ c : Candidate P T, c.Becomes n i kid := fun kid hk => (hkids kid hk).2
  have hvisits : (t.expandedBy i kids).visitsOf = t.visitsOf := funext (visitsOf_expandedBy hbecomes)
  exact {
    wellFormed := h.wellFormed.expandedBy hn hbecomes
    root_visits := by
      rw [hvisits]
      exact h.root_visits
    inner := by
      intro j m hm hne
      rw [hvisits]
      rcases node?_expandedBy hbecomes hm with ⟨m₀, hm₀, rfl⟩ | ⟨-, -, hempty, -⟩
      · by_cases hij : j = i
        · subst hij
          rw [hn] at hm₀
          cases hm₀
          rw [if_pos rfl] at hne ⊢
          exact ⟨rfl, h.inner_expandedBy hn hleaf hstage (fun kid hk => (hkids kid hk).1) hne⟩
        · rw [if_neg hij] at hne ⊢
          rw [visitsDue_of_ne (Ne.symm hij)]
          exact h.inner j m₀ hm₀ hne
      · exact absurd hempty hne
    measured := by
      intro j m hm
      rcases node?_expandedBy hbecomes hm with ⟨m₀, hm₀, rfl⟩ | ⟨-, hvisits, -⟩
      · have := h.measured j m₀ hm₀
        split_ifs <;> exact this
      · intro hpos
        omega
    unvisited := by
      intro j m hm hzero
      rcases node?_expandedBy hbecomes hm with ⟨m₀, hm₀, rfl⟩ | ⟨-, -, hempty⟩
      · by_cases hij : j = i
        · subst hij
          rw [visitsDue_self] at hzero
          omega
        · rw [if_neg hij] at hzero ⊢
          exact h.unvisited j m₀ hm₀ (by rw [visitsDue_none]; omega)
      · exact hempty
    expanded_of_stage_le := by
      intro j m hm hpos
      rcases node?_expandedBy hbecomes hm with ⟨m₀, hm₀, rfl⟩ | ⟨hge, hvisits, -⟩
      · by_cases hij : j = i
        · rw [if_pos hij]
          exact fun _ => rfl
        · rw [if_neg hij] at hpos ⊢
          rw [visitsDue_of_ne (Ne.symm hij)] at hpos
          exact h.expanded_of_stage_le j m₀ hm₀ hpos
      · have hlt := lt_size_of_node? hn
        rw [hvisits, visitsDue_of_ne (show i ≠ j by omega)] at hpos
        exact absurd hpos (Nat.lt_irrefl 0) }

/-! ## Backing up -/

theorem visitsOf_recordAll (t : Tree P T) (cost : Float) {path : List Nat} (hpath : path.Nodup)
    {j : Nat} (hj : j < t.size) :
    (t.recordAll cost path).visitsOf j = t.visitsOf j + if j ∈ path then 1 else 0 := by
  obtain ⟨m, hm⟩ := exists_node? hj
  unfold visitsOf
  rw [node?_recordAll t cost hpath, hm]
  split_ifs <;> rfl

theorem sum_visitsOf_recordAll (ht : t.WellFormed) {i j : Nat} {n : Node P T} (hi : i < t.size)
    (hj : t.node? j = some n) (cost : Float) :
    (n.children.toList.map (t.recordAll cost (t.pathToRoot i)).visitsOf).sum =
      (n.children.toList.map t.visitsOf).sum + if j ∈ t.pathToRoot i ∧ j ≠ i then 1 else 0 := by
  have hmap : n.children.toList.map (t.recordAll cost (t.pathToRoot i)).visitsOf =
      n.children.toList.map fun c =>
        t.visitsOf c + if decide (c ∈ t.pathToRoot i) then 1 else 0 := by
    refine List.map_congr_left fun c hc => ?_
    obtain ⟨-, cn, hcn, -⟩ := ht.child hj (Array.mem_toList_iff.mp hc)
    rw [visitsOf_recordAll t cost (ht.rooted.nodup_pathToRoot hi) (lt_size_of_node? hcn)]
    simp only [decide_eq_true_eq]
  rw [hmap, sum_map_add_countP, ht.countP_children hi hj]

/-- Above the selected node every node on the way up has a child. -/
theorem children_ne_of_mem_path (ht : t.WellFormed) {i j : Nat} {n : Node P T} (hi : i < t.size)
    (hj : t.node? j = some n) (hmem : j ∈ t.pathToRoot i) (hne : j ≠ i) : n.children ≠ #[] := by
  intro hempty
  have hcount := ht.countP_children hi hj
  rw [hempty, if_pos ⟨hmem, hne⟩] at hcount
  cases hcount

/-- The nodes above the selected one are inner nodes, so they are expanded and visited. -/
theorem above (h : t.Balanced last (some i) total) (hi : i < t.size) {j : Nat} {m : Node P T}
    (hm : t.node? j = some m) (hmem : j ∈ t.pathToRoot i) (hne : j ≠ i) :
    m.expanded = true ∧ 0 < m.visits := by
  obtain ⟨hexpanded, hsum⟩ := h.inner j m hm (children_ne_of_mem_path h.wellFormed hi hm hmem hne)
  rw [visitsDue_of_ne (Ne.symm hne)] at hsum
  exact ⟨hexpanded, by omega⟩

theorem node?_recordAll_some {t : Tree P T} {cost : Float} {path : List Nat} (hpath : path.Nodup)
    {j : Nat} {m' : Node P T} (h : (t.recordAll cost path).node? j = some m') :
    ∃ m, t.node? j = some m ∧ m' = if j ∈ path then m.record cost else m := by
  rw [node?_recordAll t cost hpath] at h
  split_ifs at h ⊢
  · obtain ⟨m, hold, rfl⟩ := Option.map_eq_some_iff.mp h
    exact ⟨m, hold, rfl⟩
  · exact ⟨m', h, rfl⟩

/-- Recording adds a visit and leaves alone what else counts. -/
theorem record_fields (n : Node P T) (cost : Float) (p : Prop) [Decidable p] :
    (if p then n.record cost else n).visits = n.visits + (if p then 1 else 0) ∧
      (if p then n.record cost else n).children = n.children ∧
      (if p then n.record cost else n).expanded = n.expanded ∧
      (if p then n.record cost else n).evaluation = n.evaluation ∧
      (if p then n.record cost else n).stage = n.stage := by
  split_ifs
  · exact ⟨rfl, rfl, rfl, rfl, rfl⟩
  · exact ⟨rfl, rfl, rfl, rfl, rfl⟩

/-- Backing up pays the visit that is due. -/
theorem backup (h : t.Balanced last (some i) total) {n : Node P T} (hn : t.node? i = some n)
    (hmeasured : n.evaluation.isSome = true) (cost : Float) :
    (t.recordAll cost (t.pathToRoot i)).Balanced last none (total + 1) := by
  have hi := lt_size_of_node? hn
  have hnodup := h.wellFormed.rooted.nodup_pathToRoot hi
  have hself := mem_pathToRoot_self t i
  exact {
    wellFormed := h.wellFormed.of_agree (Agree.recordAll (fun _ _ => rfl) t cost _)
    root_visits := by
      rw [visitsOf_recordAll t cost hnodup (j := rootIndex) h.wellFormed.size_pos,
        if_pos (h.wellFormed.rooted.root_mem_pathToRoot hi), h.root_visits]
    inner := by
      intro j m' hm hne
      obtain ⟨m, hold, rfl⟩ := node?_recordAll_some hnodup hm
      obtain ⟨hvisits, hchildren, hexpanded', -, -⟩ := record_fields m cost (j ∈ t.pathToRoot i)
      rw [hchildren] at hne ⊢
      obtain ⟨hexpanded, hsum⟩ := h.inner j m hold hne
      refine ⟨hexpanded'.trans hexpanded, ?_⟩
      rw [hvisits, sum_visitsOf_recordAll h.wellFormed hi hold, visitsDue_none]
      by_cases hij : i = j
      · subst hij
        rw [visitsDue_self] at hsum
        rw [if_pos hself, if_neg fun hmem => hmem.2 rfl]
        omega
      · rw [visitsDue_of_ne hij] at hsum
        simp only [ne_eq, Ne.symm hij, not_false_eq_true, and_true]
        omega
    measured := by
      intro j m' hm hpos
      obtain ⟨m, hold, rfl⟩ := node?_recordAll_some hnodup hm
      obtain ⟨hvisits, -, -, hevaluation, -⟩ := record_fields m cost (j ∈ t.pathToRoot i)
      rw [hvisits] at hpos
      rw [hevaluation]
      by_cases hij : j = i
      · subst hij
        rw [hn] at hold
        cases hold
        exact hmeasured
      · by_cases hmem : j ∈ t.pathToRoot i
        · exact h.measured j m hold (h.above hi hold hmem hij).2
        · rw [if_neg hmem] at hpos
          exact h.measured j m hold hpos
    unvisited := by
      intro j m' hm hzero
      obtain ⟨m, hold, rfl⟩ := node?_recordAll_some hnodup hm
      rw [(record_fields m cost (j ∈ t.pathToRoot i)).1, visitsDue_none] at hzero
      have hmem : j ∉ t.pathToRoot i := by
        intro hmem
        rw [if_pos hmem] at hzero
        omega
      have hij : i ≠ j := fun hij => hmem (hij ▸ hself)
      rw [if_neg hmem] at hzero ⊢
      refine h.unvisited j m hold ?_
      rw [visitsDue_of_ne hij]
      exact hzero
    expanded_of_stage_le := by
      intro j m' hm hpos hle
      obtain ⟨m, hold, rfl⟩ := node?_recordAll_some hnodup hm
      obtain ⟨hvisits, -, hexpanded, -, hstage⟩ := record_fields m cost (j ∈ t.pathToRoot i)
      rw [hvisits, visitsDue_none] at hpos
      rw [hstage] at hle
      rw [hexpanded]
      by_cases hij : j = i
      · subst hij
        exact h.expanded_of_stage_le j m hold (by rw [visitsDue_self]; omega) hle
      · by_cases hmem : j ∈ t.pathToRoot i
        · exact (h.above hi hold hmem hij).1
        · rw [if_neg hmem] at hpos
          exact h.expanded_of_stage_le j m hold (Nat.add_pos_left hpos _) hle }

end Balanced

end Tree

end LoopTuner
