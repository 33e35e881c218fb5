import LoopTuner.Proofs.Growth.Changes
import LoopTuner.Proofs.Growth.Moves
import LoopTuner.Proofs.Tree.Walks

/-!
# The result of a tree search

A tree search does not return the cheapest node that it measured, but the cheapest one on the path of
least averages, which it walks down from the root at its end and whose nodes it measures on the way
(`Search.cheapest_of_grow`). An unvisited child has the average zero, so the path can lead past a cheaper
node (`Search.exists_cheaper_beside_path`).
-/

namespace LoopTuner

variable {P T O σ ε : Type}

/-! ## The path of least averages -/

/-- What the choice of a best child looks at. -/
def Node.standing (n : Node P T) : Array Nat × UInt64 := (n.children, n.rank)

namespace Tree

theorem rankOf_eq_getD (t : Tree P T) (i : Nat) :
    t.rankOf i = ((t.node? i).bind fun n => some n.rank).getD 0 := by
  unfold rankOf
  cases t.node? i <;> rfl

theorem Agree.bestChild? {t t' : Tree P T} (h : Agree Node.standing t t') :
    t'.bestChild? = t.bestChild? := by
  have hrank : t'.rankOf = t.rankOf := by
    funext i
    have hbind := h.bind_eq (f := fun n => some n.rank)
      (fun _ _ hstanding => congrArg (fun s => some s.2) hstanding) i
    rw [rankOf_eq_getD, rankOf_eq_getD, hbind]
  funext i
  unfold Tree.bestChild?
  rw [hrank]
  exact h.bind_eq
    (fun _ _ hstanding => congrArg (fun s => Cost.leastBy t.rankOf s.1.toList) hstanding) i

theorem Agree.bestChild_eq {t t' : Tree P T} (h : Agree Node.standing t t') (i : Nat) :
    t'.bestChild i = t.bestChild i := by
  rcases Nat.lt_or_ge i t.size with hlt | hge
  · rw [Tree.bestChild_eq hlt, Tree.bestChild_eq (h.size.symm ▸ hlt), h.bestChild?]
  · unfold Tree.bestChild
    rw [node?_eq_none hge, node?_eq_none (h.size.symm ▸ hge)]

end Tree

namespace Growth

/-- Measures the nodes of a path one after another and keeps the cheapest; among equals the first. -/
def measurePath (best : Nat) (bestCost : Float) :
    List Nat → Growth P T O σ ε → Except Failure Nat × Growth P T O σ ε
  | [], g => (.ok best, g)
  | i :: path, g =>
    match g.measure i with
    | (.error f, g) => (.error f, g)
    | (.ok cost, g) =>
      if cost < bestCost then measurePath i cost path g else measurePath best bestCost path g

theorem measurePath_cons {g g' : Growth P T O σ ε} {i : Nat} {cost : Float}
    (h : g.measure i = (.ok cost, g')) (best : Nat) (bestCost : Float) (path : List Nat) :
    measurePath best bestCost (i :: path) g =
      measurePath (if cost < bestCost then i else best) (if cost < bestCost then cost else bestCost) path g' := by
  rw [measurePath, h]
  simp only
  split_ifs <;> rfl

/-- Measures a node and the path below it, and finds the cheapest of these nodes. -/
def measureAlong (i : Nat) (path : List Nat) (g : Growth P T O σ ε) :
    Except Failure Nat × Growth P T O σ ε :=
  match g.measure i with
  | (.error f, g) => (.error f, g)
  | (.ok cost, g) => measurePath i cost path g

/-- Measuring a node changes nothing but its stored cost. -/
theorem agree_measure {α : Type} {view : Node P T → α}
    (hview : ∀ n cost, view { n with evaluation := some cost } = view n) (g : Growth P T O σ ε)
    (i : Nat) : Tree.Agree view g.tree (g.measure i).2.tree := by
  cases hn : g.tree.node? i with
  | none =>
    rw [measure_of_none hn]
    exact fun _ => rfl
  | some n =>
    rw [measure_eq hn]
    refine Tree.Agree.modify g.tree i fun m hm => ?_
    rw [hn] at hm
    cases hm
    exact hview n _

/-- Backing up a cost changes nothing but what nodes record. -/
theorem agree_backup {α : Type} {view : Node P T → α}
    (hview : ∀ (n : Node P T) cost, view (n.record cost) = view n) (g : Growth P T O σ ε) (i : Nat)
    (cost : Float) : Tree.Agree view g.tree (g.backup i cost).2.tree := by
  unfold backup Tree.backup
  split_ifs
  · exact Tree.Agree.recordAll hview g.tree cost _
  · exact fun _ => rfl

theorem measure_agree (g : Growth P T O σ ε) (i : Nat) :
    Tree.Agree Node.standing g.tree (g.measure i).2.tree :=
  agree_measure (fun _ _ => rfl) g i

theorem measure_wellFormed {g : Growth P T O σ ε} (ht : g.tree.WellFormed) (i : Nat) :
    (g.measure i).2.tree.WellFormed :=
  (measure_reaches .empty g i).moves.preserve Tree.WellFormed.move ht

/-- With enough fuel, extraction measures the path of least averages to its end. -/
theorem extractFrom_of_trace {g : Growth P T O σ ε} (ht : g.tree.WellFormed) {i : Nat}
    {path : List Nat} (h : Trace g.tree.bestChild? i path) (hi : i < g.tree.size) (best : Nat)
    (bestCost : Float) {fuel : Nat} (hfuel : path.length ≤ fuel) :
    extractFrom fuel best bestCost i g = measurePath best bestCost path g := by
  induction path generalizing g i best bestCost fuel with
  | nil =>
    cases h with
    | stop hnone =>
      cases fuel with
      | zero => rfl
      | succ fuel =>
        unfold extractFrom
        rw [Tree.bestChild_eq hi, hnone]
        rfl
  | cons j path ih =>
    cases h with
    | step hj hrest =>
      cases fuel with
      | zero => exact absurd hfuel (Nat.not_succ_le_zero path.length)
      | succ fuel =>
        have hlt := Tree.lt_size_of_parent? (ht.downward_bestChild i j hj)
        have hagree := g.measure_agree j
        have hwf := measure_wellFormed ht j
        unfold extractFrom measurePath
        rw [Tree.bestChild_eq hi, hj]
        rw [← hagree.bestChild?] at hrest
        rw [← hagree.size] at hlt
        rcases hm : g.measure j with ⟨_ | cost, g'⟩
        · simp only [hm]
        · simp only [hm] at hwf hrest hlt ⊢
          have hle : path.length ≤ fuel := Nat.le_of_succ_le_succ hfuel
          split_ifs
          · exact ih hwf hrest hlt j cost hle
          · exact ih hwf hrest hlt best bestCost hle

/-- Extraction measures the path of least averages from the root to its end. -/
theorem extractBest_of_trace {g : Growth P T O σ ε} (ht : g.tree.WellFormed) {path : List Nat}
    (h : Trace g.tree.bestChild? Tree.rootIndex path) :
    g.extractBest = measureAlong Tree.rootIndex path g := by
  have hagree := g.measure_agree Tree.rootIndex
  have hwf := measure_wellFormed ht Tree.rootIndex
  rw [← hagree.bestChild?] at h
  unfold extractBest measureAlong
  rcases hm : g.measure Tree.rootIndex with ⟨_ | cost, g'⟩
  · rfl
  · simp only [hm] at h hwf
    have hpos : Tree.rootIndex < g'.tree.size := hwf.size_pos
    have hlength := hwf.length_lt_of_trace hwf.downward_bestChild hpos h
    exact extractFrom_of_trace hwf h hpos Tree.rootIndex cost (Nat.le_of_lt hlength)

end Growth

/-! ## Stored costs -/

namespace Growth

variable {g : Growth P T O σ ε}

/-- Measuring a node of the tree stores its cost, and all costs that were stored stay. -/
theorem exists_measure_eq {i : Nat} (hi : i < g.tree.size) :
    ∃ cost g', g.measure i = (.ok cost, g') ∧ g'.tree.evaluationOf i = some cost ∧
      ∀ j c, g.tree.evaluationOf j = some c → g'.tree.evaluationOf j = some c := by
  obtain ⟨n, hn⟩ := Tree.exists_node? hi
  rw [measure_eq hn]
  refine ⟨_, _, rfl, Tree.evaluationOf_of_node? (Tree.node?_modify_self _ hn), fun j c hc => ?_⟩
  by_cases hij : i = j
  · subst hij
    rw [Tree.evaluationOf_of_node? hn] at hc
    rw [Tree.evaluationOf_of_node? (Tree.node?_modify_self _ hn), Meter.measure_of_evaluation hc]
  · unfold Tree.evaluationOf at hc ⊢
    simp only
    rw [Tree.node?_modify, if_neg hij]
    exact hc

theorem measure_numeric (h : g.tree.Numeric) (i : Nat) : (g.measure i).2.tree.Numeric :=
  (measure_change .treeSearch g i).numeric h

/-- The rounds of a tree search store numbers only. -/
theorem searchRounds_numeric (h : g.tree.Numeric) (classification : Classification O)
    (count round : Nat) :
    (searchRounds classification count round g).2.tree.Numeric :=
  (searchRounds_run classification count round g).preserve (I := fun g => g.tree.Numeric)
    (fun hoperation => hoperation.change.numeric) h

end Growth

/-! ## The cheapest node of a path -/

/-- Node `best` is the first of the cheapest nodes of a path on which every node is measured. -/
def Tree.CheapestOn (t : Tree P T) (path : List Nat) (best : Nat) (cost : Float) : Prop :=
  t.evaluationOf best = some cost ∧ ∃ before after, path = before ++ best :: after ∧
    (∀ i ∈ before, ∃ c, t.evaluationOf i = some c ∧ cost < c) ∧
    ∀ i ∈ after, ∃ c, t.evaluationOf i = some c ∧ ¬ c < cost

namespace Tree.CheapestOn

variable {t : Tree P T} {path : List Nat} {best : Nat} {cost : Float}

theorem singleton (h : t.evaluationOf best = some cost) : t.CheapestOn [best] best cost :=
  ⟨h, [], [], rfl, List.forall_mem_nil _, List.forall_mem_nil _⟩

/-- Storing further costs keeps the cheapest node. -/
theorem of_stored {t' : Tree P T} (h : t.CheapestOn path best cost)
    (hstored : ∀ i c, t.evaluationOf i = some c → t'.evaluationOf i = some c) :
    t'.CheapestOn path best cost := by
  obtain ⟨hbest, before, after, hpath, hbefore, hafter⟩ := h
  refine ⟨hstored best cost hbest, before, after, hpath, fun i hi => ?_, fun i hi => ?_⟩
  · obtain ⟨c, hc, hlt⟩ := hbefore i hi
    exact ⟨c, hstored i c hc, hlt⟩
  · obtain ⟨c, hc, hlt⟩ := hafter i hi
    exact ⟨c, hstored i c hc, hlt⟩

/-- One more node of the path replaces the cheapest one only if it is cheaper. -/
theorem append (h : t.CheapestOn path best cost) (ht : t.Numeric) {i : Nat} {c : Float}
    (hi : t.evaluationOf i = some c) :
    t.CheapestOn (path ++ [i]) (if c < cost then i else best) (if c < cost then c else cost) := by
  obtain ⟨hbest, before, after, hpath, hbefore, hafter⟩ := h
  split_ifs with hlt
  · refine ⟨hi, path, [], rfl, ?_, List.forall_mem_nil _⟩
    rw [hpath, List.forall_mem_append, List.forall_mem_cons]
    have hc := ht i c hi
    have hcost := ht best cost hbest
    refine ⟨fun j hj => ?_, ⟨cost, hbest, hlt⟩, fun j hj => ?_⟩
    · obtain ⟨cj, hcj, hltj⟩ := hbefore j hj
      have hnum := ht j cj hcj
      exact ⟨cj, hcj, Cost.lt_of_lt_of_not_lt hc hcost hnum hlt (Cost.lt_asymm hcost hnum hltj)⟩
    · obtain ⟨cj, hcj, hltj⟩ := hafter j hj
      exact ⟨cj, hcj, Cost.lt_of_lt_of_not_lt hc hcost (ht j cj hcj) hlt hltj⟩
  · refine ⟨hbest, before, after ++ [i], ?_, hbefore, ?_⟩
    · rw [hpath, List.append_assoc, List.cons_append]
    · rw [List.forall_mem_append, List.forall_mem_singleton]
      exact ⟨hafter, c, hi, hlt⟩

end Tree.CheapestOn

namespace Growth

/-- Measuring a path to its end finds the cheapest of its nodes. -/
theorem measurePath_cheapest {g : Growth P T O σ ε} (hnum : g.tree.Numeric) {done path : List Nat}
    {best : Nat} {bestCost : Float} (h : g.tree.CheapestOn done best bestCost)
    (hpath : ∀ i ∈ path, i < g.tree.size) :
    Tree.Agree Node.standing g.tree (measurePath best bestCost path g).2.tree ∧
      ∃ result cost, (measurePath best bestCost path g).1 = .ok result ∧
        (measurePath best bestCost path g).2.tree.CheapestOn (done ++ path) result cost := by
  induction path generalizing g done best bestCost with
  | nil =>
    refine ⟨fun _ => rfl, best, bestCost, rfl, ?_⟩
    rw [List.append_nil]
    exact h
  | cons i path ih =>
    obtain ⟨hi, hrest⟩ := List.forall_mem_cons.mp hpath
    obtain ⟨cost, g', hmeasure, hcost, hstored⟩ := exists_measure_eq hi
    have hagree := g.measure_agree i
    have hnum' := measure_numeric hnum i
    rw [hmeasure] at hagree hnum'
    have hnext := (h.of_stored hstored).append hnum' hcost
    rw [← hagree.size] at hrest
    rw [measurePath_cons hmeasure, List.append_cons]
    obtain ⟨hagree', hresult⟩ := ih hnum' hnext hrest
    exact ⟨fun j => (hagree' j).trans (hagree j), hresult⟩

/-- Extraction returns the cheapest node on the path of least averages. -/
theorem extractBest_cheapest {g : Growth P T O σ ε} (ht : g.tree.WellFormed) (hnum : g.tree.Numeric) :
    ∃ path result cost, g.extractBest.1 = .ok result ∧
      Trace g.extractBest.2.tree.bestChild? Tree.rootIndex path ∧
      g.extractBest.2.tree.CheapestOn (Tree.rootIndex :: path) result cost := by
  obtain ⟨path, htrace⟩ :=
    ht.exists_trace ht.downward_bestChild (show Tree.rootIndex < g.tree.size from ht.size_pos)
  rw [extractBest_of_trace ht htrace]
  obtain ⟨cost, g', hmeasure, hcost, -⟩ := exists_measure_eq (i := Tree.rootIndex) ht.size_pos
  have hagree := g.measure_agree Tree.rootIndex
  have hnum' := measure_numeric hnum Tree.rootIndex
  unfold measureAlong
  simp only [hmeasure] at hagree hnum' ⊢
  have hpath : ∀ i ∈ path, i < g'.tree.size := by
    rw [hagree.size]
    exact htrace.forall_mem fun i j hj => Tree.lt_size_of_parent? (ht.downward_bestChild i j hj)
  obtain ⟨hagree', result, least, hok, hcheapest⟩ :=
    measurePath_cheapest hnum' (Tree.CheapestOn.singleton hcost) hpath
  refine ⟨path, result, least, hok, ?_, hcheapest⟩
  rw [hagree'.bestChild?, hagree.bestChild?]
  exact htrace

end Growth

/-! ## Growing -/

namespace Search

/-- The node that a tree search returns is the first of the cheapest nodes on the path of least
averages from the root to a leaf, and all nodes on this path are measured. -/
theorem cheapest_of_grow {s s' : Search P T O σ ε} (hstrategy : s.config.strategy = .treeSearch)
    {root : Node P T} (hparent : root.parent = none) (hchildren : root.children = #[])
    (hroot : ∀ cost, root.evaluation = some cost → cost.isNaN = false)
    {classification : Classification O} {rounds best : Nat} {t : Tree P T}
    (h : s.grow (.ofRoot root) classification rounds = (.ok best, t, s')) :
    ∃ path cost, Trace t.bestChild? Tree.rootIndex path ∧
      t.CheapestOn (Tree.rootIndex :: path) best cost := by
  have hnum : (Tree.ofRoot root).Numeric := by
    intro i cost hcost
    obtain ⟨n, hn, hevaluation⟩ := Option.bind_eq_some_iff.mp hcost
    obtain ⟨-, rfl⟩ := Tree.node?_ofRoot hn
    exact hroot cost hevaluation
  have hwf := Tree.wellFormed_ofRoot hparent hchildren
  have hnums := Growth.searchRounds_numeric (g := ⟨s.restart, .ofRoot root⟩) hnum classification
    rounds 0
  have hwfs := (Growth.searchRounds_reaches classification rounds 0
    ⟨s.restart, .ofRoot root⟩).moves.preserve Tree.WellFormed.move hwf
  rw [grow_eq] at h
  unfold grown Growth.treeSearch at h
  simp only [hstrategy] at h
  rcases hx : Growth.searchRounds classification rounds 0 ⟨s.restart, .ofRoot root⟩ with ⟨f | _, g⟩
  · rw [hx] at h
    cases f <;> cases h
  · simp only [hx] at h hnums hwfs
    obtain ⟨path, result, cost, hok, htrace, hcheapest⟩ := Growth.extractBest_cheapest hwfs hnums
    rcases hb : g.extractBest with ⟨r, g'⟩
    simp only [hb] at h hok htrace hcheapest
    subst hok
    cases h
    exact ⟨path, cost, htrace, hcheapest⟩

/-- A search below a root of cost ten with two leaves, the first of cost five and the second of cost
nine. -/
def twoLeaves : Search Nat Nat Unit Unit Unit where
  config := .standard
  expander :=
    ⟨[⟨.tiling, .pure fun n _ _ => .ok [.extending n 1 0, .extending n 2 1]⟩], 25, .ofSeed 0, ()⟩
  meter := .create (.pure fun n => .ok (match n.program with | 0 => 10 | 1 => 5 | _ => 9)) ()
  statistics := .zero

/-- A root that was measured before, with cost seven. -/
def measuredRoot : Node Nat Nat := { Node.root 0 0 with evaluation := some 7 }

/-- After one round the path leads to the first leaf, which is cheaper than the root. -/
theorem cheapest_of_grow_twoLeaves :
    ∃ t s', twoLeaves.grow (.ofRoot measuredRoot) .empty 1 = (.ok 1, t, s') ∧
      ∃ path cost, Trace t.bestChild? Tree.rootIndex path ∧
        t.CheapestOn (Tree.rootIndex :: path) 1 cost := by
  obtain ⟨t, s', hgrow⟩ : ∃ t s', twoLeaves.grow (.ofRoot measuredRoot) .empty 1 = (.ok 1, t, s') :=
    ⟨_, _, rfl⟩
  have hroot : ∀ cost, measuredRoot.evaluation = some cost → cost.isNaN = false := by
    intro cost hcost
    obtain rfl : 7 = cost := Option.some.inj hcost
    decide
  exact ⟨t, s', hgrow, cheapest_of_grow rfl rfl rfl hroot hgrow⟩

end Search

/-! ## A cheaper node beside the path -/

/-- Among children of equal scores the first is the most promising. -/
theorem Descent.bestScored_eq_first {d : Descent} {t : Tree P T} {n : Node P T} {first : Nat}
    {others : List Nat} (h : ∀ i ∈ others, d.scoreOf t n i = d.scoreOf t n first) :
    d.bestScored t n first others = first := by
  have hfold : others.foldl (d.better t n) (first, d.scoreOf t n first) =
      (first, d.scoreOf t n first) := by
    induction others with
    | nil => rfl
    | cons i others ih =>
      obtain ⟨hi, hothers⟩ := List.forall_mem_cons.mp h
      have hkeep : d.better t n (first, d.scoreOf t n first) i = (first, d.scoreOf t n first) := by
        unfold better
        simp only
        rw [hi, if_neg (Cost.not_lt_self _)]
      rw [List.foldl_cons, hkeep, ih hothers]
  unfold bestScored
  rw [hfold]

namespace Search

/-- The growth of the two leaves after one round. -/
def twoLeavesOnce : Growth Nat Nat Unit Unit Unit :=
  (Growth.searchRound .empty 0 ⟨twoLeaves.restart, .ofRoot (.root 0 0)⟩).2

theorem select_twoLeavesOnce :
    twoLeavesOnce.search.config.descent.select twoLeavesOnce.tree Tree.rootIndex = .ok 1 := by
  let root : Node Nat Nat := (twoLeavesOnce.tree.node? Tree.rootIndex).getD (.root 0 0)
  have hfirst : twoLeavesOnce.search.config.descent.bestScored twoLeavesOnce.tree root 1 [2] = 1 := by
    refine Descent.bestScored_eq_first fun i hi => ?_
    obtain rfl := List.mem_singleton.mp hi
    rfl
  show twoLeavesOnce.search.config.descent.walk twoLeavesOnce.tree 3
    (twoLeavesOnce.search.config.descent.bestScored twoLeavesOnce.tree root 1 [2]) = .ok 1
  rw [hfirst]
  rfl

/-- The second round measures the first leaf. The path of least averages then leads to the other leaf,
which is unvisited and more expensive. -/
theorem exists_cheaper_beside_path :
    ∃ t s', twoLeaves.grow (.ofRoot (.root 0 0)) .empty 2 = (.ok 2, t, s') ∧
      twoLeaves.config.validate = .ok () ∧ twoLeaves.config.strategy = .treeSearch ∧
      t.evaluationOf 2 = some 9 ∧ t.evaluationOf 1 = some 5 ∧ (5 : Float) < 9 := by
  have hfirst : Growth.searchRound .empty 0 ⟨twoLeaves.restart, .ofRoot (.root 0 0)⟩ =
      (.ok (), twoLeavesOnce) := by rfl
  have hsecond : ∃ g, twoLeavesOnce.searchRound .empty 1 = (.ok (), g) ∧
      g.extractBest.1 = .ok 2 ∧ g.extractBest.2.tree.evaluationOf 2 = some 9 ∧
      g.extractBest.2.tree.evaluationOf 1 = some 5 := by
    unfold Growth.searchRound
    rw [select_twoLeavesOnce]
    exact ⟨_, rfl, rfl, rfl, rfl⟩
  obtain ⟨g, hsecond, hbest, hlast, hbeside⟩ := hsecond
  have hgrown : twoLeaves.grown (.ofRoot (.root 0 0)) .empty 2 = g.extractBest := by
    show Growth.treeSearch .empty 2 ⟨twoLeaves.restart, .ofRoot (.root 0 0)⟩ = g.extractBest
    unfold Growth.treeSearch Growth.searchRounds
    rw [hfirst]
    simp only
    unfold Growth.searchRounds
    rw [hsecond]
    rfl
  rw [grow_eq, hgrown]
  rcases hx : g.extractBest with ⟨result, g'⟩
  rw [hx] at hbest hlast hbeside
  obtain rfl : result = .ok 2 := hbest
  exact ⟨_, _, rfl, by decide, rfl, hlast, hbeside, by decide⟩

end Search

end LoopTuner
