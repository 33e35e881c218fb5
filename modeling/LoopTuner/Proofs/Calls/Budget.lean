import LoopTuner.Proofs.Calls.FailedRounds
import LoopTuner.Proofs.Growth.Conservation

/-!
# The budget of a tree search

Each round of a tree search measures one node at most, and the result takes one more call at most
(`Search.evaluator_budget`): all nodes on the path of least averages have children, except the last, so they
were visited and measured in some round, of this growth or of an earlier one.
-/

namespace LoopTuner

variable {P T O σ ε : Type}

/-! ## Rounds -/

/-- Measuring a node takes one call at most. -/
theorem Meter.measured_le (m : Meter P T ε) (n : Node P T) :
    (m.measure n).2.2.measured ≤ m.measured + 1 := by
  rw [(m.measure_calls n).1]
  unfold calls
  cases n.evaluation with
  | some _ => exact Nat.le_succ m.measured
  | none => exact Nat.le_refl _

namespace Growth

theorem measured_measure_le (g : Growth P T O σ ε) (i : Nat) :
    (g.measure i).2.search.meter.measured ≤ g.search.meter.measured + 1 := by
  cases hn : g.tree.node? i with
  | none =>
    rw [measure_of_none hn]
    exact Nat.le_succ _
  | some n =>
    rw [measure_eq hn]
    exact g.search.meter.measured_le n

theorem meter_expandSelected (g : Growth P T O σ ε) (classification : Classification O) (i : Nat) :
    (g.expandSelected classification i).2.search.meter = g.search.meter := by
  rcases g.expandSelected_cases classification i with hsame | ⟨n, hn, -, hexpand⟩
  · rw [hsame]
  · rw [hexpand, expand_eq hn]
    rcases g.search.expander.candidates n i classification with ⟨_ | _, _⟩ <;>
      exact counted_meter g n

theorem meter_backup (g : Growth P T O σ ε) (i : Nat) (cost : Float) :
    (g.backup i cost).2.search.meter = g.search.meter := by
  unfold backup
  cases g.tree.backup i cost <;> rfl

/-- A round measures the selected node only. -/
theorem measured_searchRound_le (classification : Classification O) (round : Nat)
    (g : Growth P T O σ ε) :
    (g.searchRound classification round).2.search.meter.measured ≤ g.search.meter.measured + 1 := by
  unfold searchRound
  split
  · exact Nat.le_succ _
  · rename_i i _
    have hexpand := meter_expandSelected g classification i
    split
    · rename_i hx
      rw [hx] at hexpand
      exact (congrArg Meter.measured hexpand).le.trans (Nat.le_succ _)
    · rename_i _ g₁ hx
      rw [hx] at hexpand
      have hmeasure := measured_measure_le g₁ i
      rw [show g₁.search.meter = _ from hexpand] at hmeasure
      split
      · rename_i hm
        rw [hm] at hmeasure
        exact hmeasure
      · rename_i cost g₂ hm
        rw [hm] at hmeasure
        rw [meter_backup]
        exact hmeasure

theorem measured_searchRounds_le (classification : Classification O) (count round : Nat)
    (g : Growth P T O σ ε) :
    (searchRounds classification count round g).2.search.meter.measured ≤
      g.search.meter.measured + count := by
  induction count generalizing round g with
  | zero => exact Nat.le_refl _
  | succ count ih =>
    have hround := measured_searchRound_le classification round g
    unfold searchRounds
    rcases hx : g.searchRound classification round with ⟨_ | _, g₁⟩
    · rw [hx] at hround
      exact hround.trans (Nat.add_le_add_left (Nat.succ_le_succ (Nat.zero_le count)) _)
    · rw [hx] at hround
      have hrest := ih (round + 1) g₁
      simp only at hround ⊢
      omega

end Growth

/-! ## Extraction -/

/-- On a walk all nodes but the last have a next one. -/
theorem Trace.exists_next {α : Type} {next : α → Option α} {a : α} {path : List α}
    (h : Trace next a path) : ∀ b ∈ (a :: path).dropLast, ∃ c, next b = some c := by
  induction h with
  | stop _ => exact List.forall_mem_nil _
  | step hnext _ ih =>
    rw [List.dropLast_cons_cons]
    exact List.forall_mem_cons.mpr ⟨⟨_, hnext⟩, ih⟩

/-- Between two rounds, all nodes that have a best child are measured. -/
theorem Tree.Balanced.exists_evaluationOf {last : Stage} {total i j : Nat} {t : Tree P T}
    (h : t.Balanced last none total) (hj : t.bestChild? i = some j) :
    ∃ cost, t.evaluationOf i = some cost := by
  obtain ⟨n, hn, hleast⟩ := Option.bind_eq_some_iff.mp hj
  have hne : n.children ≠ #[] := fun hempty => by
    rw [hempty] at hleast
    cases hleast
  have hvisits := (h.inner i n hn hne).2
  rw [visitsDue_none] at hvisits
  obtain ⟨cost, hcost⟩ := Option.isSome_iff_exists.mp (h.measured i n hn (by omega))
  exact ⟨cost, (evaluationOf_of_node? hn).trans hcost⟩

namespace Growth

variable {g : Growth P T O σ ε}

/-- Measuring a node again changes nothing. -/
theorem measure_of_stored {i : Nat} {cost : Float} (h : g.tree.evaluationOf i = some cost) :
    g.measure i = (.ok cost, g) := by
  obtain ⟨n, hn, hcost⟩ := Option.bind_eq_some_iff.mp h
  have hsame : (g.tree.modify i fun _ => { n with evaluation := some cost }) = g.tree := by
    refine Tree.modify_eq_self fun m hm => ?_
    cases hn.symm.trans hm
    rw [← hcost]
  rw [measure_eq hn, Meter.measure_of_evaluation hcost]
  simp only [hsame]

/-- The call for a node, if it is not measured yet. -/
theorem callsAt_cases (g : Growth P T O σ ε) (i : Nat) :
    g.callsAt i = [] ∨ ∃ call : Evaluator.Call P T, g.callsAt i = [call] ∧
      g.tree.node? i = some call.node ∧ call.node.evaluation = none := by
  cases hn : g.tree.node? i with
  | none =>
    unfold callsAt
    rw [hn]
    exact Or.inl rfl
  | some n =>
    rw [callsAt_of_node? hn]
    unfold Meter.calls
    cases hcost : n.evaluation with
    | some cost => exact Or.inl rfl
    | none => exact Or.inr ⟨_, rfl, rfl, hcost⟩

theorem length_callsAt_le (g : Growth P T O σ ε) (i : Nat) : (g.callsAt i).length ≤ 1 := by
  rcases g.callsAt_cases i with hnil | ⟨call, hone, -⟩
  · rw [hnil]
    exact Nat.zero_le 1
  · rw [hone]
    exact Nat.le_refl 1

/-- A path that is measured except for its last node takes the call for this node. -/
theorem measurePath_calls (asked : List (Generator.Call P T)) (measured : List (Evaluator.Call P T))
    (best : Nat) (bestCost : Float) {i : Nat} {path : List Nat}
    (h : ∀ j ∈ (i :: path).dropLast, ∃ cost, g.tree.evaluationOf j = some cost) :
    (measurePath best bestCost (i :: path) (g.recording asked measured)).2.search.meter.memory.2 =
      measured ++ g.callsAt ((i :: path).getLast (List.cons_ne_nil i path)) := by
  induction path generalizing i best bestCost with
  | nil =>
    unfold measurePath
    rw [measure_recording]
    rcases (g.measure i).1 with f | cost
    · rfl
    · simp only
      split_ifs <;> rfl
  | cons j path ih =>
    rw [List.dropLast_cons_cons, List.forall_mem_cons] at h
    obtain ⟨⟨cost, hcost⟩, hrest⟩ := h
    rw [List.getLast_cons (List.cons_ne_nil j path),
      measurePath_cons (measure_of_stored (g := g.recording asked measured) hcost)]
    exact ih _ _ hrest

theorem measureAlong_calls (asked : List (Generator.Call P T)) (measured : List (Evaluator.Call P T))
    {i : Nat} {path : List Nat}
    (h : ∀ j ∈ (i :: path).dropLast, ∃ cost, g.tree.evaluationOf j = some cost) :
    (measureAlong i path (g.recording asked measured)).2.search.meter.memory.2 =
      measured ++ g.callsAt ((i :: path).getLast (List.cons_ne_nil i path)) := by
  unfold measureAlong
  cases path with
  | nil =>
    rw [measure_recording]
    rcases (g.measure i).1 with f | cost <;> rfl
  | cons j path =>
    rw [List.dropLast_cons_cons, List.forall_mem_cons] at h
    obtain ⟨⟨cost, hcost⟩, hrest⟩ := h
    rw [List.getLast_cons (List.cons_ne_nil j path),
      measure_of_stored (g := g.recording asked measured) hcost]
    exact measurePath_calls asked measured i cost hrest

end Growth

/-! ## Growing -/

namespace Search

theorem searchRounds_eq_advance {s : Search P T O σ ε} (hs : s.config.strategy = .treeSearch)
    (t : Tree P T) (classification : Classification O) (rounds : Nat) :
    Growth.searchRounds classification rounds 0 ⟨s.restart, t⟩ = s.advance t classification rounds := by
  unfold advance
  rw [hs]

/-- The rounds of a tree search take one call each at most. -/
theorem length_evaluatorCallsInRounds_le {s : Search P T O σ ε}
    (hs : s.config.strategy = .treeSearch) (t : Tree P T) (classification : Classification O)
    (rounds : Nat) : (s.evaluatorCallsInRounds t classification rounds).length ≤ rounds := by
  obtain ⟨asked, -, hrun⟩ := s.advance_calls t classification rounds
  have hmeasured := hrun.meter.1
  have hle := Growth.measured_searchRounds_le classification rounds 0 ⟨s.restart, t⟩
  rw [searchRounds_eq_advance hs, hmeasured] at hle
  exact Nat.le_of_add_le_add_left hle

/-- If the path of least averages is measured except for its last node, then the result takes the call for
this node. -/
theorem evaluatorCalls_of_advance {s : Search P T O σ ε} (hs : s.config.strategy = .treeSearch)
    {t : Tree P T} {classification : Classification O} {rounds : Nat} {g : Growth P T O σ ε}
    (hadvance : s.advance t classification rounds = (.ok (), g)) (hwf : g.tree.WellFormed)
    {path : List Nat} (htrace : Trace g.tree.bestChild? Tree.rootIndex path)
    (hstored : ∀ i ∈ (Tree.rootIndex :: path).dropLast, ∃ cost, g.tree.evaluationOf i = some cost) :
    s.evaluatorCalls t classification rounds = s.evaluatorCallsInRounds t classification rounds ++
      g.callsAt ((Tree.rootIndex :: path).getLast (List.cons_ne_nil _ path)) := by
  obtain ⟨asked, hrecorded, -⟩ := s.advance_calls t classification rounds
  rw [hadvance] at hrecorded
  unfold evaluatorCalls
  rw [meter_grow, grown_of_searched (s := s.recording [] []) hs hrecorded,
    Growth.extractBest_of_trace (g := g.recording _ _) hwf htrace]
  exact Growth.measureAlong_calls _ _ hstored

/-- Each successful growth of a tree search, after any growths of the same tree by the same search, takes at
most one call of the evaluator more than it has rounds. One call comes from the result, if the last node on
the path of least averages is not measured yet; all other nodes of this path are. -/
theorem evaluator_budget {s : Search P T O σ ε} (hs : s.config.strategy = .treeSearch) (program : P)
    (stage : Stage) (calls : List (Classification O × Nat))
    {results : List (Except Failure Nat × Nat)} {t : Tree P T} {s' : Search P T O σ ε}
    (hgrown : s.growAll (.ofRoot (.root program stage)) calls = (results, t, s'))
    {classification : Classification O} {rounds best : Nat} {t' : Tree P T} {s'' : Search P T O σ ε}
    (hgrow : s'.grow t classification rounds = (.ok best, t', s'')) :
    (s'.evaluatorCalls t classification rounds).length ≤ rounds + 1 ∧
      ∃ (g : Growth P T O σ ε) (path : List Nat) (atEnd : List (Evaluator.Call P T)),
        s'.advance t classification rounds = (.ok (), g) ∧
        Trace g.tree.bestChild? Tree.rootIndex path ∧
        s'.evaluatorCalls t classification rounds =
          s'.evaluatorCallsInRounds t classification rounds ++ atEnd ∧
        (s'.evaluatorCallsInRounds t classification rounds).length ≤ rounds ∧
        (∀ i ∈ (Tree.rootIndex :: path).dropLast, ∃ cost, g.tree.evaluationOf i = some cost) ∧
        (atEnd = [] ∨ ∃ call : Evaluator.Call P T, atEnd = [call] ∧
          g.tree.node? ((Tree.rootIndex :: path).getLast (List.cons_ne_nil _ path)) =
            some call.node ∧ call.node.evaluation = none) := by
  obtain ⟨hbalanced, hs', -⟩ := growAll_balanced hs
    (Tree.balanced_ofRoot s.expander.lastStage program stage) calls
  rw [hgrown] at hbalanced hs'
  obtain ⟨done, hran⟩ := Growth.searchRounds_ran (g := ⟨s'.restart, t⟩) classification rounds 0 hbalanced
  rw [searchRounds_eq_advance hs'] at hran
  have hlength := length_evaluatorCallsInRounds_le hs' t classification rounds
  rcases hadvance : s'.advance t classification rounds with ⟨f | _, g⟩
  · rw [grow_eq, grown_of_error hadvance] at hgrow
    rcases f with e | v <;> cases hgrow
  · rw [hadvance] at hran
    have hwf : g.tree.WellFormed := hran.balanced.wellFormed
    obtain ⟨path, htrace⟩ :=
      hwf.exists_trace hwf.downward_bestChild (show Tree.rootIndex < g.tree.size from hwf.size_pos)
    have hstored : ∀ i ∈ (Tree.rootIndex :: path).dropLast, ∃ cost, g.tree.evaluationOf i = some cost := by
      intro i hi
      obtain ⟨j, hj⟩ := htrace.exists_next i hi
      exact hran.balanced.exists_evaluationOf hj
    have hcalls := evaluatorCalls_of_advance hs' hadvance hwf htrace hstored
    refine ⟨?_, g, path, _, rfl, htrace, hcalls, hlength, hstored, g.callsAt_cases _⟩
    rw [hcalls, List.length_append]
    exact Nat.add_le_add hlength (g.length_callsAt_le _)

/-- A search that was interrupted in its second round takes at most two calls in its next growth of one
round. -/
theorem evaluator_budget_secondBusy :
    ∃ results t s' best t' s'', secondBusy.growAll (.ofRoot (.root 0 0)) [(.empty, 3)] = (results, t, s') ∧
      s'.grow t .empty 1 = (.ok best, t', s'') ∧ (s'.evaluatorCalls t .empty 1).length ≤ 1 + 1 := by
  obtain ⟨results, t, s', hgrown, best, t', s'', hgrow⟩ : ∃ results t s',
      secondBusy.growAll (.ofRoot (.root 0 0)) [(.empty, 3)] = (results, t, s') ∧
        ∃ best t' s'', s'.grow t .empty 1 = (.ok best, t', s'') :=
    ⟨_, _, _, rfl, _, _, _, rfl⟩
  exact ⟨results, t, s', best, t', s'', hgrown, hgrow, (evaluator_budget rfl 0 0 _ hgrown hgrow).1⟩

end Search

end LoopTuner
