import LoopTuner.Proofs.Growth.Extraction

/-!
# Usable costs

A measurement that fails counts as infinite cost, so no search stores anything but usable costs
(`Search.usable_grow`): finite ones and positive infinity. Whichever node a growth returns, its cost is
stored (`Search.exists_cost_of_grow`).
-/

namespace LoopTuner

variable {P T O σ ε : Type}

/-! ## Stored costs -/

namespace Tree

/-- Every stored cost is usable. -/
def Usable (t : Tree P T) : Prop :=
  ∀ i cost, t.evaluationOf i = some cost → Cost.isUsable cost = true

variable {t : Tree P T}

theorem Usable.numeric (h : t.Usable) : t.Numeric :=
  fun i cost hcost => Cost.isNaN_of_isUsable (h i cost hcost)

theorem usable_ofRoot {root : Node P T} (hroot : root.evaluation = none) : (ofRoot root).Usable := by
  intro i cost hcost
  obtain ⟨n, hn, hevaluation⟩ := Option.bind_eq_some_iff.mp hcost
  obtain ⟨-, rfl⟩ := node?_ofRoot hn
  rw [hroot] at hevaluation
  cases hevaluation

theorem Usable.expandedBy (h : t.Usable) (i : Nat) {kids : List (Node P T)}
    (hkids : ∀ kid ∈ kids, ∀ cost, kid.evaluation = some cost → Cost.isUsable cost = true) :
    (t.expandedBy i kids).Usable := by
  intro j cost hcost
  rcases Nat.lt_or_ge j t.size with hlt | hge
  · rw [evaluationOf_expandedBy_old i kids hlt] at hcost
    exact h j cost hcost
  · obtain ⟨k, rfl⟩ := Nat.exists_eq_add_of_le hge
    rw [evaluationOf_expandedBy_new] at hcost
    obtain ⟨kid, hkid, hcost⟩ := Option.bind_eq_some_iff.mp hcost
    exact hkids kid (List.mem_of_getElem? hkid) cost hcost

end Tree

namespace Growth

variable {classification : Classification O} {g g' : Growth P T O σ ε}

theorem measure_usable (h : g.tree.Usable) (i : Nat) : (g.measure i).2.tree.Usable := by
  cases hn : g.tree.node? i with
  | none =>
    rw [measure_of_none hn]
    exact h
  | some n =>
    rw [measure_eq hn]
    intro j cost hcost
    rw [Tree.evaluationOf_modify hn] at hcost
    split_ifs at hcost
    · cases hcost
      cases hevaluation : n.evaluation with
      | none => exact Meter.isUsable_measure hevaluation
      | some c =>
        rw [Meter.measure_of_evaluation hevaluation]
        exact h i c ((Tree.evaluationOf_of_node? hn).trans hevaluation)
    · exact h j cost hcost

theorem expand_usable (h : g.tree.Usable) {i : Nat} {n : Node P T} (hn : g.tree.node? i = some n) :
    (g.expand classification i n).2.tree.Usable := by
  rw [expand_eq hn]
  rcases g.search.expander.candidates n i classification with ⟨_ | candidates, x⟩
  · exact h
  · refine h.expandedBy i fun kid hkid cost hcost => ?_
    rw [Candidate.evaluation_of_mem_toNodes hkid] at hcost
    cases hcost

theorem backup_usable (h : g.tree.Usable) (i : Nat) (cost : Float) :
    (g.backup i cost).2.tree.Usable := by
  intro j c hc
  rw [(agree_backup (fun _ _ => rfl) g i cost).evaluationOf] at hc
  exact h j c hc

theorem sweepRound_usable (h : g.tree.Usable) (round i : Nat) (s : Sweep) :
    (g.sweepRound classification round i s).2.tree.Usable := by
  cases hn : g.tree.node? i with
  | none =>
    rw [sweepRound_of_none hn]
    exact h
  | some n =>
    rw [sweepRound_eq hn]
    rcases g.search.expander.candidates n i classification with ⟨_ | candidates, x⟩
    · exact h
    · refine h.expandedBy i fun kid hkid cost hcost => ?_
      obtain ⟨e, he, rfl⟩ := List.mem_map.mp hkid
      rw [(exists_of_mem_sweepKids he).1] at hcost
      cases hcost
      exact isUsable_of_mem_sweepKids he

/-- Every operation stores usable costs only. -/
theorem Operation.usable {strategy : Strategy} (hoperation : Operation classification strategy g g')
    (h : g.tree.Usable) : g'.tree.Usable := by
  cases hoperation with
  | measure => exact measure_usable h _
  | expand hn => exact expand_usable h hn
  | backup => exact backup_usable h _ _
  | sweepRound => exact sweepRound_usable h _ _ _

end Growth

/-! ## The cost of the result -/

/-- The entries that come into the queue tell the costs of the new nodes. -/
theorem Tree.evaluationOf_of_mem_zip {t : Tree P T} {kids : List (Float × Node P T)}
    (hkids : ∀ kid ∈ kids, kid.2.evaluation = some kid.1) (i : Nat) {cost : Float} {j : Nat}
    (h : (cost, j) ∈ (kids.map (·.1)).zip (List.range' t.size kids.length)) :
    (t.expandedBy i (kids.map (·.2))).evaluationOf j = some cost := by
  obtain ⟨k, hk⟩ := List.mem_iff_getElem?.mp h
  obtain ⟨hcost, hj⟩ := List.getElem?_zip_eq_some.mp hk
  rw [List.getElem?_map, Option.map_eq_some_iff] at hcost
  obtain ⟨kid, hkid, hcost⟩ := hcost
  obtain ⟨hlt, hj⟩ := List.getElem?_eq_some_iff.mp hj
  rw [List.getElem_range', Nat.one_mul] at hj
  simp only at hcost hj
  rw [← hj, evaluationOf_expandedBy_new, List.getElem?_map, hkid, ← hcost]
  exact hkids kid (List.mem_of_getElem? hkid)

/-- The best node of a sweep was the best before or is one of those that came in. -/
theorem Sweep.best_pushAll (s : Sweep) (entries : List (Float × Nat)) :
    ((s.pushAll entries).bestCost, (s.pushAll entries).best) ∈ (s.bestCost, s.best) :: entries := by
  induction entries generalizing s with
  | nil => exact List.mem_singleton_self _
  | cons entry entries ih =>
    obtain ⟨cost, index⟩ := entry
    have hrest := ih (s.push cost index)
    unfold pushAll
    rcases List.mem_cons.mp hrest with heq | hmem
    · rw [heq]
      unfold push
      simp only
      split_ifs
      · exact List.mem_cons_of_mem _ List.mem_cons_self
      · exact List.mem_cons_self
    · exact List.mem_cons_of_mem _ (List.mem_cons_of_mem _ hmem)

namespace Growth

variable {classification : Classification O} {g g' : Growth P T O σ ε}

/-- After a round the cost of the best node is stored, as it was before. -/
theorem sweepRound_stored {round i : Nat} {s s' : Sweep}
    (h : g.sweepRound classification round i s = (.ok s', g'))
    (hbest : g.tree.evaluationOf s.best = some s.bestCost) :
    g'.tree.evaluationOf s'.best = some s'.bestCost := by
  cases hn : g.tree.node? i with
  | none =>
    rw [sweepRound_of_none hn] at h
    cases h
  | some n =>
    rw [sweepRound_eq hn] at h
    rcases hc : g.search.expander.candidates n i classification with ⟨_ | candidates, x⟩
    · rw [hc] at h
      cases h
    · rw [hc] at h
      cases h
      simp only
      rcases List.mem_cons.mp (s.best_pushAll _) with heq | hmem
      · rw [Prod.mk.injEq] at heq
        rw [heq.1, heq.2, Tree.evaluationOf_expandedBy_old _ _ (Tree.lt_size_of_evaluationOf hbest)]
        exact hbest
      · exact Tree.evaluationOf_of_mem_zip (fun kid hkid => (exists_of_mem_sweepKids hkid).1) i hmem

theorem sweepRounds_stored {count round : Nat} {s s' : Sweep}
    (h : sweepRounds classification count round s g = (.ok s', g'))
    (hbest : g.tree.evaluationOf s.best = some s.bestCost) :
    g'.tree.evaluationOf s'.best = some s'.bestCost := by
  induction count generalizing round s g with
  | zero =>
    cases h
    exact hbest
  | succ count ih =>
    unfold sweepRounds at h
    split at h
    · cases h
      exact hbest
    · rename_i entry queue _
      rcases hx : g.sweepRound classification round entry.index { s with queue := queue } with
        ⟨_ | s₁, g₁⟩
      · rw [hx] at h
        cases h
      · rw [hx] at h
        exact ih h (sweepRound_stored hx hbest)

theorem bestFirst_stored {rounds best : Nat}
    (h : g.bestFirst classification rounds = (.ok best, g')) :
    ∃ cost, g'.tree.evaluationOf best = some cost := by
  unfold bestFirst at h
  cases hn : g.tree.node? Tree.rootIndex with
  | none =>
    rw [measure_of_none hn] at h
    cases h
  | some n =>
    obtain ⟨cost, g₁, hmeasure, hcost, -⟩ := exists_measure_eq (Tree.lt_size_of_node? hn)
    rw [hmeasure] at h
    rcases hx : sweepRounds classification rounds 0 (.start cost) g₁ with ⟨_ | s, g₂⟩
    · simp only [hx] at h
      cases h
    · simp only [hx] at h
      cases h
      exact ⟨s.bestCost, sweepRounds_stored hx hcost⟩

theorem treeSearch_stored (ht : g.tree.WellFormed) (hnum : g.tree.Numeric) {rounds best : Nat}
    (h : g.treeSearch classification rounds = (.ok best, g')) :
    ∃ cost, g'.tree.evaluationOf best = some cost := by
  have hnums := searchRounds_numeric hnum classification rounds 0
  have hwfs := (searchRounds_reaches classification rounds 0 g).moves.preserve Tree.WellFormed.move ht
  unfold treeSearch at h
  rcases hx : searchRounds classification rounds 0 g with ⟨_ | _, g₁⟩
  · rw [hx] at h
    cases h
  · rw [hx] at h hnums hwfs
    simp only at h
    obtain ⟨path, result, cost, hok, -, hcheapest⟩ := extractBest_cheapest hwfs hnums
    rw [h] at hok hcheapest
    cases hok
    exact ⟨cost, hcheapest.1⟩

end Growth

namespace Search

variable {s : Search P T O σ ε} {t : Tree P T}

/-- A growth stores usable costs only, whatever its result is. -/
theorem usable_grow (s : Search P T O σ ε) (ht : t.Usable) (classification : Classification O)
    (rounds : Nat) : (s.grow t classification rounds).2.1.Usable := by
  rw [tree_grow]
  exact (s.grown_run classification t rounds).preserve (I := fun g => g.tree.Usable)
    Growth.Operation.usable ht

/-- The node that a growth returns is measured. -/
theorem exists_cost_of_grow (hwf : t.WellFormed) (ht : t.Usable)
    {classification : Classification O} {rounds best : Nat}
    (h : (s.grow t classification rounds).1 = .ok best) :
    ∃ cost, (s.grow t classification rounds).2.1.evaluationOf best = some cost := by
  rw [result_grow] at h
  rw [tree_grow]
  unfold grown at h ⊢
  cases hs : s.config.strategy with
  | treeSearch =>
    rw [hs] at h
    exact Growth.treeSearch_stored (g := ⟨s.restart, t⟩) hwf ht.numeric (Prod.ext h rfl)
  | bestFirst =>
    rw [hs] at h
    exact Growth.bestFirst_stored (g := ⟨s.restart, t⟩) (Prod.ext h rfl)

end Search

end LoopTuner
