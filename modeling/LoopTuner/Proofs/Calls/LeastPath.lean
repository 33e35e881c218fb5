import LoopTuner.Proofs.Calls.Recording
import LoopTuner.Proofs.Cost.Order
import LoopTuner.Proofs.Growth.Extraction
import LoopTuner.Proofs.Lists

/-!
# The end of a tree search

At its end a tree search walks from the root to a leaf, from each node to the first child of least average
(`Tree.LeastPath`). Averages compare in the total order of floats (`Node.Undercuts`), so there is always a least
one, and one path. On the way the search measures the nodes that have no cost yet, each with one call, and changes
nothing else (`Tree.Measures`). As the averages do not depend on the stored costs, the path is that of the tree
before the walk. The result is the first of the cheapest nodes on the path (`Growth.extractBest_exact`).
-/

namespace LoopTuner

variable {P T O σ ε : Type}

/-! ## Averages -/

/-- The average of a node is the sum of the costs that were backed up through it over their number, or zero
before the first one. A node undercuts another one if its average comes before the other's in the total order.
A sum in which opposite infinities clashed is undefined, and such a node undercuts all nodes without a clash. -/
def Node.Undercuts (m n : Node P T) : Prop :=
  n.accumulated.clashed = false ∧ (m.accumulated.clashed = true ∨
    Cost.Precedes (m.accumulated.sum / (max 1 m.visits).toFloat)
      (n.accumulated.sum / (max 1 n.visits).toFloat))

theorem Node.rank_lt_iff_undercuts (m n : Node P T) : m.rank < n.rank ↔ m.Undercuts n := by
  have haverage (k : Node P T) : k.average = k.accumulated.sum / (max 1 k.visits).toFloat := rfl
  unfold rank Undercuts
  rw [← haverage, ← haverage, ← Cost.rank_lt_iff_precedes]
  cases n.accumulated.clashed with
  | true => simp
  | false =>
    cases m.accumulated.clashed with
    | true => simpa using Cost.rank_pos n.average
    | false => simp

/-! ## The path -/

namespace Tree

variable {t : Tree P T}

/-- Child `j` of a node is the first one of least average: it undercuts the children before it, and no child
after it undercuts it. -/
def LeastChild (t : Tree P T) (n : Node P T) (j : Nat) : Prop :=
  ∃ before after m, n.children.toList = before ++ j :: after ∧ t.node? j = some m ∧
    (∀ i ∈ before, ∃ k, t.node? i = some k ∧ m.Undercuts k) ∧
    ∀ i ∈ after, ∃ k, t.node? i = some k ∧ ¬ k.Undercuts m

/-- The way from a node to a leaf, at each node to the first child of least average. -/
inductive LeastPath (t : Tree P T) : Nat → List Nat → Prop
  | leaf {i : Nat} {n : Node P T} (hn : t.node? i = some n) (hleaf : n.children = #[]) : LeastPath t i []
  | child {i j : Nat} {n : Node P T} {path : List Nat} (hn : t.node? i = some n)
      (hleast : t.LeastChild n j) (rest : LeastPath t j path) : LeastPath t i (j :: path)

theorem LeastChild.children_ne {n : Node P T} {j : Nat} (h : t.LeastChild n j) : n.children ≠ #[] := by
  obtain ⟨before, after, -, hsplit, -⟩ := h
  intro hnone
  rw [hnone] at hsplit
  simp at hsplit

theorem LeastChild.unique {n : Node P T} {i j : Nat} (hi : t.LeastChild n i) (hj : t.LeastChild n j) :
    i = j := by
  obtain ⟨before, after, ki, hsplit, hki, hbefore, hafter⟩ := hi
  obtain ⟨before', after', kj, hsplit', hkj, hbefore', hafter'⟩ := hj
  -- the later of two would undercut the earlier one, and it would not
  rcases eq_or_mem_of_append_cons (hsplit.symm.trans hsplit') with rfl | ⟨hmem, hmem'⟩ | ⟨hmem, hmem'⟩
  · rfl
  · obtain ⟨k, hk, hlt⟩ := hbefore' i hmem
    obtain ⟨k', hk', hnot⟩ := hafter j hmem'
    cases hk.symm.trans hki
    cases hk'.symm.trans hkj
    exact absurd hlt hnot
  · obtain ⟨k, hk, hlt⟩ := hbefore j hmem
    obtain ⟨k', hk', hnot⟩ := hafter' i hmem'
    cases hk.symm.trans hkj
    cases hk'.symm.trans hki
    exact absurd hlt hnot

theorem LeastPath.unique {i : Nat} {path path' : List Nat} (h : t.LeastPath i path)
    (h' : t.LeastPath i path') : path = path' := by
  induction h generalizing path' with
  | leaf hn hnone =>
    cases h' with
    | leaf => rfl
    | child hn' hleast =>
      cases hn.symm.trans hn'
      exact absurd hnone hleast.children_ne
  | child hn hleast _ ih =>
    cases h' with
    | leaf hn' hnone =>
      cases hn.symm.trans hn'
      exact absurd hnone hleast.children_ne
    | child hn' hleast' rest' =>
      cases hn.symm.trans hn'
      cases hleast.unique hleast'
      rw [ih rest']

/-- The places of the averages lead to the first child of least average. -/
theorem WellFormed.leastChild_of_firstLeast (ht : t.WellFormed) {i j : Nat} {n : Node P T}
    (hn : t.node? i = some n) (h : Cost.FirstLeast t.rankOf n.children.toList j) : t.LeastChild n j := by
  have hchild : ∀ c ∈ n.children.toList, ∃ m, t.node? c = some m ∧ t.rankOf c = m.rank := by
    intro c hc
    have hparent := (ht.mem_children_iff i n c hn).mp (Array.mem_toList_iff.mp hc)
    obtain ⟨m, hm⟩ := exists_node? (lt_size_of_parent? hparent)
    refine ⟨m, hm, ?_⟩
    unfold rankOf
    rw [hm]
  obtain ⟨before, after, hsplit, hbefore, hafter⟩ := h
  rw [hsplit, List.forall_mem_append, List.forall_mem_cons] at hchild
  obtain ⟨hchildren, ⟨m, hm, hrank⟩, hchildren'⟩ := hchild
  refine ⟨before, after, m, hsplit, hm, fun x hx => ?_, fun x hx => ?_⟩
  · obtain ⟨k, hk, hrank'⟩ := hchildren x hx
    have hlt := hbefore x hx
    rw [hrank, hrank', Node.rank_lt_iff_undercuts] at hlt
    exact ⟨k, hk, hlt⟩
  · obtain ⟨k, hk, hrank'⟩ := hchildren' x hx
    have hle := UInt64.not_lt.mpr (hafter x hx)
    rw [hrank, hrank', Node.rank_lt_iff_undercuts] at hle
    exact ⟨k, hk, hle⟩

theorem WellFormed.leastPath_of_trace (ht : t.WellFormed) {i : Nat} {path : List Nat}
    (h : Trace t.bestChild? i path) (hi : i < t.size) : t.LeastPath i path := by
  induction h with
  | @stop i hnone =>
    obtain ⟨n, hn⟩ := exists_node? hi
    unfold bestChild? at hnone
    rw [hn, Option.bind_some, Cost.leastBy_eq_none] at hnone
    exact .leaf hn (Array.toList_eq_nil_iff.mp hnone)
  | @step i j path hj _ ih =>
    have hlt := lt_size_of_parent? (ht.downward_bestChild i j hj)
    obtain ⟨n, hn, hleast⟩ := Option.bind_eq_some_iff.mp hj
    exact .child hn (ht.leastChild_of_firstLeast hn (Cost.firstLeast_of_leastBy hleast)) (ih hlt)

end Tree

/-! ## Measuring nodes -/

namespace Tree

/-- The second tree has costs for the given nodes, and is otherwise the same: stored costs stay, and of the
other nodes and the other fields nothing changes. -/
structure Measures (t : Tree P T) (nodes : List Nat) (t' : Tree P T) : Prop where
  fields : Agree (fun n => { n with evaluation := none }) t t'
  stored : ∀ i cost, t.evaluationOf i = some cost → t'.evaluationOf i = some cost
  others : ∀ i, i ∉ nodes → t'.evaluationOf i = t.evaluationOf i
  measured : ∀ i ∈ nodes, ∃ cost, t'.evaluationOf i = some cost

/-- Those of the given nodes that have no cost yet. -/
def unmeasured (t : Tree P T) (nodes : List Nat) : List (Node P T) :=
  nodes.filterMap fun i => (t.node? i).filter (·.evaluation.isNone)

variable {t t' t'' : Tree P T} {nodes others : List Nat}

theorem Measures.refl (t : Tree P T) : t.Measures [] t where
  fields _ := rfl
  stored _ _ h := h
  others _ _ := rfl
  measured := List.forall_mem_nil _

theorem Measures.trans (h : t.Measures nodes t') (h' : t'.Measures others t'') :
    t.Measures (nodes ++ others) t'' where
  fields i := (h'.fields i).trans (h.fields i)
  stored i cost hcost := h'.stored i cost (h.stored i cost hcost)
  others i hi := by
    rw [List.mem_append, not_or] at hi
    exact (h'.others i hi.2).trans (h.others i hi.1)
  measured := by
    refine List.forall_mem_append.mpr ⟨fun i hi => ?_, h'.measured⟩
    obtain ⟨cost, hcost⟩ := h.measured i hi
    exact ⟨cost, h'.stored i cost hcost⟩

end Tree

namespace Growth

variable {g : Growth P T O σ ε}

theorem node?_measure_of_ne {i j : Nat} (hne : i ≠ j) :
    (g.measure i).2.tree.node? j = g.tree.node? j := by
  cases hn : g.tree.node? i with
  | none => rw [measure_of_none hn]
  | some n =>
    rw [measure_eq hn]
    simp only
    rw [Tree.node?_modify, if_neg hne]

/-- Measuring a node takes a call if it has no cost yet. -/
theorem map_node_callsAt (g : Growth P T O σ ε) (i : Nat) :
    (g.callsAt i).map (·.node) = g.tree.unmeasured [i] := by
  unfold callsAt Meter.calls Tree.unmeasured
  cases hn : g.tree.node? i with
  | none => simp [hn]
  | some n => cases hevaluation : n.evaluation <;> simp [Option.filter, hn, hevaluation]

theorem measure_measures {i : Nat} {cost : Float} {g' : Growth P T O σ ε}
    (h : g.measure i = (.ok cost, g')) (hi : i < g.tree.size) : g.tree.Measures [i] g'.tree := by
  obtain ⟨_, _, hmeasure, hcost, hstored⟩ := exists_measure_eq hi
  cases h.symm.trans hmeasure
  have hagree : Tree.Agree (fun n => { n with evaluation := none }) g.tree (g.measure i).2.tree :=
    agree_measure (fun _ _ => rfl) g i
  rw [h] at hagree
  refine ⟨hagree, hstored, fun j hj => ?_, List.forall_mem_singleton.mpr ⟨cost, hcost⟩⟩
  have hother := node?_measure_of_ne (g := g) fun heq : i = j => hj (List.mem_singleton.mpr heq.symm)
  rw [h] at hother
  unfold Tree.evaluationOf
  rw [hother]

/-- Measuring a node leaves the other ones to be measured. -/
theorem unmeasured_measure {i : Nat} {path : List Nat} (hi : i ∉ path) :
    (g.measure i).2.tree.unmeasured path = g.tree.unmeasured path := by
  refine List.filterMap_congr fun j hj => ?_
  have hne : i ≠ j := by
    rintro rfl
    exact hi hj
  rw [node?_measure_of_ne hne]

/-- The nodes are measured one after another, with the given calls. -/
structure MeasuresEach (g : Growth P T O σ ε) (nodes : List Nat) (calls : List (Evaluator.Call P T))
    (g' : Growth P T O σ ε) : Prop where
  tree : g.tree.Measures nodes g'.tree
  calls_eq : calls.map (·.node) = g.tree.unmeasured nodes

/-- A node may be measured before other ones. -/
theorem MeasuresEach.cons {i : Nat} {path : List Nat} {cost : Float} {g' g'' : Growth P T O σ ε}
    {calls : List (Evaluator.Call P T)} (hmeasure : g.measure i = (.ok cost, g')) (hi : i < g.tree.size)
    (hnew : i ∉ path) (h : g'.MeasuresEach path calls g'') :
    g.MeasuresEach (i :: path) (g.callsAt i ++ calls) g'' := by
  have hunmeasured := unmeasured_measure (g := g) hnew
  rw [hmeasure] at hunmeasured
  refine ⟨(measure_measures hmeasure hi).trans h.tree, ?_⟩
  rw [List.map_append, map_node_callsAt, h.calls_eq, hunmeasured]
  exact List.filterMap_append.symm

theorem recording_measure {i : Nat} {cost : Float} {g' : Growth P T O σ ε}
    (h : g.measure i = (.ok cost, g')) (asked : List (Generator.Call P T))
    (log : List (Evaluator.Call P T)) :
    (g.recording asked log).measure i = (.ok cost, g'.recording asked (log ++ g.callsAt i)) := by
  rw [measure_recording, h]

/-- Measuring a path changes the costs of its nodes only, and takes a call for each one that has none. -/
theorem measurePath_measures (best : Nat) (bestCost : Float) {path : List Nat} (hnodup : path.Nodup)
    (hpath : ∀ i ∈ path, i < g.tree.size) :
    ∃ calls, g.MeasuresEach path calls (measurePath best bestCost path g).2 ∧
      ∀ asked log, measurePath best bestCost path (g.recording asked log) =
        ((measurePath best bestCost path g).1,
          (measurePath best bestCost path g).2.recording asked (log ++ calls)) := by
  induction path generalizing g best bestCost with
  | nil =>
    refine ⟨[], ⟨.refl g.tree, rfl⟩, fun asked log => ?_⟩
    rw [List.append_nil]
    rfl
  | cons i path ih =>
    obtain ⟨hi, hrest⟩ := List.forall_mem_cons.mp hpath
    obtain ⟨hnew, hnodup⟩ := List.nodup_cons.mp hnodup
    obtain ⟨cost, g', hmeasure, -, -⟩ := exists_measure_eq hi
    rw [← (measure_measures hmeasure hi).fields.size] at hrest
    rw [measurePath_cons hmeasure]
    obtain ⟨calls, hcalls, hrecorded⟩ := ih (if cost < bestCost then i else best)
      (if cost < bestCost then cost else bestCost) hnodup hrest
    refine ⟨_, hcalls.cons hmeasure hi hnew, fun asked log => ?_⟩
    rw [measurePath_cons (recording_measure hmeasure asked log), hrecorded, List.append_assoc]

/-- After the root, extraction measures the path below it. -/
theorem extractBest_of_measure (ht : g.tree.WellFormed) {path : List Nat}
    (h : Trace g.tree.bestChild? Tree.rootIndex path) {cost : Float} {g' : Growth P T O σ ε}
    (hmeasure : g.measure Tree.rootIndex = (.ok cost, g')) :
    g.extractBest = measurePath Tree.rootIndex cost path g' := by
  rw [extractBest_of_trace ht h, measureAlong, hmeasure]

theorem extractBest_measures (ht : g.tree.WellFormed) {path : List Nat}
    (h : Trace g.tree.bestChild? Tree.rootIndex path) :
    ∃ calls, g.MeasuresEach (Tree.rootIndex :: path) calls g.extractBest.2 ∧
      ∀ asked log, (g.recording asked log).extractBest =
        (g.extractBest.1, g.extractBest.2.recording asked (log ++ calls)) := by
  have hroot : Tree.rootIndex < g.tree.size := ht.size_pos
  obtain ⟨hlt, hpairwise⟩ := List.pairwise_cons.mp (ht.pairwise_trace ht.downward_bestChild h)
  obtain ⟨cost, g', hmeasure, -, -⟩ := exists_measure_eq hroot
  have hpath : ∀ i ∈ path, i < g'.tree.size := by
    rw [(measure_measures hmeasure hroot).fields.size]
    exact h.forall_mem fun i j hj => Tree.lt_size_of_parent? (ht.downward_bestChild i j hj)
  obtain ⟨calls, hcalls, hrecorded⟩ :=
    measurePath_measures Tree.rootIndex cost (hpairwise.imp Nat.ne_of_lt) hpath
  rw [extractBest_of_measure ht h hmeasure]
  refine ⟨_, hcalls.cons hmeasure hroot fun hmem => Nat.lt_irrefl _ (hlt _ hmem), fun asked log => ?_⟩
  rw [extractBest_of_measure (g := g.recording asked log) ht h (recording_measure hmeasure asked log),
    hrecorded, List.append_assoc]

end Growth

/-! ## The result -/

/-- The first node of the path is no cheaper than the cheapest one. -/
theorem Tree.CheapestOn.not_lt_first {t : Tree P T} {i best : Nat} {path : List Nat} {cost : Float}
    (h : t.CheapestOn (i :: path) best cost) (hnum : t.Numeric) :
    ∃ c, t.evaluationOf i = some c ∧ ¬ c < cost := by
  obtain ⟨hbest, before, after, hpath, hbefore, -⟩ := h
  cases before with
  | nil =>
    cases hpath
    exact ⟨cost, hbest, Cost.not_lt_self cost⟩
  | cons j before =>
    cases hpath
    obtain ⟨c, hc, hlt⟩ := hbefore i List.mem_cons_self
    exact ⟨c, hc, Cost.lt_asymm (hnum best cost hbest) (hnum i c hc) hlt⟩

namespace Growth

/-- Extraction walks from the root to a leaf, always to the first child of least average; there is one such way.
It calls the evaluator for the nodes on the way that have no cost, in this order, stores the costs and changes
nothing else. Its result is the first of the cheapest nodes on the way, so the root is no cheaper. -/
theorem extractBest_exact {g : Growth P T O σ ε} (ht : g.tree.WellFormed) (hnum : g.tree.Numeric) :
    ∃ path best cost calls, g.tree.LeastPath Tree.rootIndex path ∧
      (∀ other, g.tree.LeastPath Tree.rootIndex other → other = path) ∧ g.extractBest.1 = .ok best ∧
      g.MeasuresEach (Tree.rootIndex :: path) calls g.extractBest.2 ∧
      (∀ asked log, (g.recording asked log).extractBest =
        (.ok best, g.extractBest.2.recording asked (log ++ calls))) ∧
      g.extractBest.2.tree.CheapestOn (Tree.rootIndex :: path) best cost ∧
      ∃ rootCost, g.extractBest.2.tree.evaluationOf Tree.rootIndex = some rootCost ∧ ¬ rootCost < cost := by
  obtain ⟨path, best, cost, hok, htrace, hcheapest⟩ := extractBest_cheapest ht hnum
  -- the measurements have not changed the averages
  have hagree : Tree.Agree Node.standing g.tree g.extractBest.2.tree :=
    extractBest_preserve (I := fun g' => Tree.Agree Node.standing g.tree g'.tree)
      (fun {g'} h i j => (g'.measure_agree i j).trans (h j)) fun _ => rfl
  rw [hagree.bestChild?] at htrace
  have hnum' : g.extractBest.2.tree.Numeric :=
    extractBest_preserve (I := fun g => g.tree.Numeric) (fun h i => measure_numeric h i) hnum
  obtain ⟨calls, hcalls, hrecorded⟩ := extractBest_measures ht htrace
  rw [hok] at hrecorded
  have hpath := ht.leastPath_of_trace htrace ht.size_pos
  exact ⟨path, best, cost, calls, hpath, fun other hother => hother.unique hpath, hok, hcalls, hrecorded,
    hcheapest, hcheapest.not_lt_first hnum'⟩

/-- The two leaves after further costs: the first leaf has the sum six of one visit, the second one the sum ten
of two visits. -/
def visitedLeaves : Growth Nat Nat Unit Unit Unit :=
  (((Search.twoLeavesOnce.backup 1 6).2.backup 2 3).2.backup 2 7).2

theorem visitedLeaves_run :
    Run .empty .treeSearch ⟨Search.twoLeaves.restart, .ofRoot (.root 0 0)⟩ visitedLeaves :=
  (((searchRound_run .empty 0 _).tail (.backup _ 1 6)).tail (.backup _ 2 3)).tail (.backup _ 2 7)

/-- Of two visited leaves the second one has the greater sum and the lesser average, so the way leads there. The
root was measured before, so there is one call, and the leaf is cheaper than the root. -/
theorem extractBest_exact_visitedLeaves :
    visitedLeaves.tree.WellFormed ∧ visitedLeaves.tree.Numeric ∧
      (∃ first second, visitedLeaves.tree.node? 1 = some first ∧ visitedLeaves.tree.node? 2 = some second ∧
        first.visits = 1 ∧ first.accumulated.sum = 6 ∧ first.average = 6 ∧
        second.visits = 2 ∧ second.accumulated.sum = 10 ∧ second.average = 5 ∧ second.Undercuts first) ∧
      visitedLeaves.tree.LeastPath Tree.rootIndex [2] ∧ visitedLeaves.extractBest.1 = .ok 2 ∧
      ∃ cost calls, calls.length = 1 ∧
        visitedLeaves.MeasuresEach [Tree.rootIndex, 2] calls visitedLeaves.extractBest.2 ∧
        visitedLeaves.extractBest.2.tree.CheapestOn [Tree.rootIndex, 2] 2 cost ∧
        ∃ rootCost, visitedLeaves.extractBest.2.tree.evaluationOf Tree.rootIndex = some rootCost ∧
          ¬ rootCost < cost := by
  have hwf : visitedLeaves.tree.WellFormed :=
    visitedLeaves_run.reaches.moves.preserve Tree.WellFormed.move (Tree.wellFormed_ofRoot rfl rfl)
  have hroot : (Tree.ofRoot (Node.root 0 0 : Node Nat Nat)).Numeric :=
    Tree.numeric_ofRoot fun _ hcost => by cases hcost
  have hnum : visitedLeaves.tree.Numeric :=
    visitedLeaves_run.preserve (I := fun g => g.tree.Numeric) (fun hoperation => hoperation.change.numeric) hroot
  have hway : visitedLeaves.tree.LeastPath Tree.rootIndex [2] :=
    hwf.leastPath_of_trace (.step rfl (.stop rfl)) hwf.size_pos
  have hsecond : visitedLeaves.extractBest.1 = .ok 2 := rfl
  obtain ⟨path, best, cost, calls, -, hunique, hbest, hcalls, -, hcheapest⟩ := extractBest_exact hwf hnum
  obtain rfl := hunique [2] hway
  cases hbest.symm.trans hsecond
  have hlength : calls.length = 1 := by
    rw [← List.length_map, hcalls.calls_eq]
    rfl
  exact ⟨hwf, hnum, ⟨_, _, rfl, rfl, rfl, rfl, rfl, rfl, rfl, rfl, (Node.rank_lt_iff_undercuts _ _).mp (by decide)⟩,
    hway, hsecond, cost, calls, hlength, hcalls, hcheapest⟩

end Growth

end LoopTuner
