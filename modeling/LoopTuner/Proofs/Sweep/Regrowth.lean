import LoopTuner.Proofs.Growth.Moves
import LoopTuner.Proofs.Growth.Siblings
import LoopTuner.Proofs.Sweep.Refinement

/-!
# Sweeping a grown tree

A best-first search starts with the root as the only entry of its queue. If an earlier growth expanded the
root, it has no more candidates and the search returns it at once; otherwise the root is still the whole
tree, and the search returns the first of the cheapest nodes (`Search.best_of_regrown`). So on a grown tree
the result can be worse than a node that an earlier growth has measured (`Search.exists_cheaper_regrown`).
-/

namespace LoopTuner

variable {P T O σ ε : Type}

/-! ## Trees of an unexpanded root -/

namespace Tree

theorem Grown.wellFormed {allowed : Strategy → Prop} {root : Node P T} {t : Tree P T}
    (h : Grown allowed root t) (hparent : root.parent = none) (hchildren : root.children = #[]) :
    t.WellFormed := by
  induction h with
  | root => exact wellFormed_ofRoot hparent hchildren
  | grow _ s _ classification rounds ih =>
    exact (s.grow_moves classification _ rounds).preserve WellFormed.move ih

/-- Below a root without children there are no nodes. -/
theorem WellFormed.eq_ofRoot {t : Tree P T} (ht : t.WellFormed) {n : Node P T}
    (hn : t.node? rootIndex = some n) (hchildren : n.children = #[]) : t = ofRoot n := by
  have hsize : t.size = 1 := by
    by_contra hne
    have hpos := ht.size_pos
    obtain ⟨p, hp, hlt⟩ := ht.parent_lt 1 Nat.one_pos (by omega)
    obtain rfl : p = rootIndex := Nat.lt_one_iff.mp hlt
    have hmem := (ht.mem_children_iff rootIndex n 1 hn).mpr hp
    rw [hchildren] at hmem
    exact Array.not_mem_empty 1 hmem
  apply ext_node?
  intro i
  rcases Nat.eq_zero_or_pos i with rfl | hpos
  · exact hn
  · rw [node?_eq_none (by omega), node?_eq_none (by rw [size_ofRoot]; omega)]

end Tree

/-! ## Rounds on a grown tree -/

namespace Growth

variable {g : Growth P T O σ ε}

/-- A round on an expanded node adds nothing. -/
theorem sweepRound_of_expanded {i : Nat} {n : Node P T} (hn : g.tree.node? i = some n)
    (hexpanded : n.expanded = true) (classification : Classification O) (round : Nat) (s : Sweep) :
    ∃ g', g.sweepRound classification round i s = (.ok s, g') ∧ g'.tree = g.tree := by
  rw [sweepRound_eq hn, Expander.candidates_of_idle (Or.inl hexpanded)]
  simp only [sweepKids_nil]
  refine ⟨_, rfl, ?_⟩
  show (g.tree.modify i Node.markExpanded).withChildren i [] = g.tree
  rw [Tree.withChildren_nil, Tree.modify_markExpanded hn hexpanded]

/-- If the root is expanded, then after one round the queue is empty. -/
theorem sweepRounds_of_expanded {n : Node P T} (hn : g.tree.node? Tree.rootIndex = some n)
    (hexpanded : n.expanded = true) (classification : Classification O) (count round : Nat)
    (cost : Float) :
    ∃ s' g', sweepRounds classification count round (.start cost) g = (.ok s', g') ∧
      s'.best = Tree.rootIndex ∧ g'.tree = g.tree := by
  cases count with
  | zero => exact ⟨.start cost, g, rfl, rfl, rfl⟩
  | succ count =>
    obtain ⟨g', hround, htree⟩ := sweepRound_of_expanded hn hexpanded classification round
      { Sweep.start cost with queue := [] }
    have hpop : Queued.pop? (Sweep.start cost).queue = some (⟨cost, 0, Tree.rootIndex⟩, []) := rfl
    refine ⟨{ Sweep.start cost with queue := [] }, g', ?_, rfl, htree⟩
    unfold sweepRounds
    simp only [hpop, hround]
    cases count <;> rfl

end Growth

/-! ## Growing -/

namespace Search

/-- Below an expanded root, a best-first search finds nothing. -/
theorem grow_of_expanded {s : Search P T O σ ε} (hstrategy : s.config.strategy = .bestFirst)
    {t : Tree P T} {n : Node P T} (hn : t.node? Tree.rootIndex = some n) (hexpanded : n.expanded = true)
    (classification : Classification O) (rounds : Nat) :
    ∃ cost s', s.grow t classification rounds = (.ok Tree.rootIndex,
        t.modify Tree.rootIndex fun _ => { n with evaluation := some cost }, s') ∧
      ∀ c, n.evaluation = some c → c = cost := by
  obtain ⟨cost, g, hmeasure, htree, hfirst⟩ : ∃ cost g,
      Growth.measure ⟨s.restart, t⟩ Tree.rootIndex = (.ok cost, g) ∧
        (g.tree = t.modify Tree.rootIndex fun _ => { n with evaluation := some cost }) ∧
        ∀ c, n.evaluation = some c → c = cost :=
    ⟨_, _, Growth.measure_eq hn, rfl, fun c hc => by rw [Meter.measure_of_evaluation hc]⟩
  have hn' : g.tree.node? Tree.rootIndex = some { n with evaluation := some cost } := by
    rw [htree]
    exact Tree.node?_modify_self _ hn
  obtain ⟨sweep, g', hrun, hbest, hsame⟩ :=
    Growth.sweepRounds_of_expanded hn' hexpanded classification rounds 0 cost
  refine ⟨cost, g'.search.close g'.tree.size, ?_, hfirst⟩
  exact (grow_eq_ok_iff classification hstrategy hmeasure).mpr
    ⟨sweep, g', hrun, hbest, hsame.trans htree, rfl⟩

/-- On a tree that was grown before, a best-first search that does not fail returns the root if an earlier
growth expanded it, and then at most measures it. Otherwise the tree is only the root, and the search
returns the first of the cheapest nodes. -/
theorem best_of_regrown {s s' : Search P T O σ ε} (hstrategy : s.config.strategy = .bestFirst)
    {root : Node P T} (hparent : root.parent = none) (hchildren : root.children = #[])
    (hcost : ∀ c, root.evaluation = some c → c.isNaN = false) {t₀ t : Tree P T}
    (hgrown : Tree.Grown (fun _ => True) root t₀) {classification : Classification O}
    {rounds best : Nat} (h : s.grow t₀ classification rounds = (.ok best, t, s')) :
    ∃ n, t₀.node? Tree.rootIndex = some n ∧
      (n.expanded = true → best = Tree.rootIndex ∧
        ∃ cost, t = t₀.modify Tree.rootIndex fun _ => { n with evaluation := some cost }) ∧
      (n.expanded = false → t₀ = .ofRoot n ∧
        (∀ i m, t.node? i = some m → m.evaluation = some (t.costOf i)) ∧
        Cheapest t.costOf t.size best) := by
  have hwf := hgrown.wellFormed hparent hchildren
  have hnum := hgrown.preserve (Tree.numeric_ofRoot hcost) fun _ => Tree.Change.numeric
  obtain ⟨n, hn⟩ := Tree.exists_node? (show Tree.rootIndex < t₀.size from hwf.size_pos)
  refine ⟨n, hn, fun hexpanded => ?_, fun hexpanded => ?_⟩
  · obtain ⟨cost, s'', hgrow, -⟩ := grow_of_expanded hstrategy hn hexpanded classification rounds
    rw [h] at hgrow
    cases hgrow
    exact ⟨rfl, cost, rfl⟩
  · obtain rfl := hwf.eq_ofRoot hn ((hgrown.aligned hchildren).children_eq _ n hn hexpanded)
    have hnumber : ∀ c, n.evaluation = some c → c.isNaN = false := fun c hc =>
      hnum Tree.rootIndex c ((Tree.evaluationOf_of_node? hn).trans hc)
    obtain ⟨g₁, hmeasure, hstart⟩ : ∃ g₁, Growth.measure ⟨s.restart, .ofRoot n⟩ Tree.rootIndex =
          (.ok (s.meter.reset.measure n).1, g₁) ∧
        (Naive.start n s.expander.memory s.meter.reset).Matches s.expander.pipeline g₁ :=
      ⟨_, rfl, rfl, rfl, rfl, rfl⟩
    obtain ⟨sweep, g, hrun, rfl, rfl, -⟩ := (grow_eq_ok_iff classification hstrategy hmeasure).mp h
    obtain ⟨r, hg, hr⟩ := hstart.of_sweepRounds
      (Naive.tracked_start hexpanded hnumber s.expander.memory s.meter.reset) hrun
    rw [hg.tree_eq]
    exact ⟨rfl, hr.measured, hr.covers.best⟩

/-- After one round the root is expanded, and a second search returns it. -/
theorem best_of_regrown_unsorted :
    ∃ (s : Search Nat Nat Unit Unit Unit) (t : Tree Nat Nat) (s' : Search Nat Nat Unit Unit Unit)
      (n : Node Nat Nat) (cost : Float), s.config.strategy = .bestFirst ∧
      s.grow unsortedTree .empty 1 = (.ok 0, t, s') ∧
      unsortedTree.node? Tree.rootIndex = some n ∧ n.expanded = true ∧
      t = unsortedTree.modify Tree.rootIndex fun _ => { n with evaluation := some cost } := by
  obtain ⟨s, hgrow, hconfig⟩ := grow_unsortedLeaves
  have hstrategy : s.config.strategy = .bestFirst := by
    rw [hconfig]
    rfl
  have hgrown : Tree.Grown (fun _ => True) (.root 0 0) unsortedTree := by
    have h : Tree.Grown (fun _ => True) (.root 0 0)
        (unsortedLeaves.grow (.ofRoot (.root 0 0)) .empty 1).2.1 :=
      .grow .root unsortedLeaves trivial .empty 1
    rwa [hgrow] at h
  obtain ⟨_, s', hagain, -⟩ :=
    grow_of_expanded hstrategy (t := unsortedTree) rfl rfl .empty 1
  obtain ⟨n, hn, hexpanded, -⟩ :=
    best_of_regrown hstrategy rfl rfl (fun c hc => by cases hc) hgrown hagain
  have hmark : n.expanded = true := by
    cases hn
    rfl
  obtain ⟨-, cost, ht⟩ := hexpanded hmark
  exact ⟨s, _, s', n, cost, hstrategy, hagain, hn, hmark, ht⟩

/-- The second search returns the root, although a leaf is cheaper. -/
theorem exists_cheaper_regrown :
    ∃ t s t' s', unsortedLeaves.grow (.ofRoot (.root 0 0)) .empty 1 = (.ok 1, t, s) ∧
      unsortedLeaves.config.validate = .ok () ∧ unsortedLeaves.config.strategy = .bestFirst ∧
      s.grow t .empty 1 = (.ok 0, t', s') ∧
      t'.evaluationOf 0 = some 10 ∧ t'.evaluationOf 1 = some 5 ∧ (5 : Float) < 10 := by
  obtain ⟨s, hgrow, hconfig⟩ := grow_unsortedLeaves
  have hstrategy : s.config.strategy = .bestFirst := by
    rw [hconfig]
    rfl
  obtain ⟨cost, s', hagain, hcost⟩ :=
    grow_of_expanded hstrategy (t := unsortedTree) rfl rfl .empty 1
  obtain rfl : 10 = cost := hcost 10 rfl
  exact ⟨unsortedTree, s, _, s', hgrow, by decide, rfl, hagain, rfl, rfl, by decide⟩

end Search

end LoopTuner
