import LoopTuner.Proofs.Growth.Runs
import LoopTuner.Proofs.Sweep.Naive

/-!
# What the operations change

Each operation of a growth leaves the tree as it is or changes it in one of three ways (`Tree.Change`,
`Growth.Operation.change`). Unlike a move, a change tells the new nodes of an expansion one by one: those
of a tree search are the kept candidates in their order, those of a sweep all candidates in the order of
their costs (`Node.Family`). What every change preserves, all trees have that are grown from a root, by
any number of searches (`Tree.Grown.preserve`): stored costs stay, and none of them is NaN
(`Tree.Change.stored`, `Tree.Change.numeric`).
-/

namespace LoopTuner

variable {P T O σ ε : Type}

/-- The new nodes that an expansion adds below node `i`. -/
inductive Node.Family (n : Node P T) (i : Nat) : Strategy → List (Node P T) → Prop
  | kept (candidates : List (Candidate P T)) :
      Family n i .treeSearch (Candidate.toNodes candidates n i)
  | swept {ε : Type} (m : Meter P T ε) (candidates : List (Candidate P T)) :
      Family n i .bestFirst ((Growth.sweepKids m candidates n i).map (·.2))

/-- One change of a tree by a search of this strategy. -/
inductive Tree.Change (strategy : Strategy) : Tree P T → Tree P T → Prop
  | none (t : Tree P T) : Change strategy t t
  | measure {t : Tree P T} {i : Nat} {n : Node P T} {cost : Float} (h : t.node? i = some n)
      (hfirst : ∀ c, n.evaluation = some c → c = cost)
      (hnumber : n.evaluation = none → cost.isNaN = false) :
      Change strategy t (t.modify i fun _ => { n with evaluation := some cost })
  | backup (t : Tree P T) (path : List Nat) (cost : Float) : Change strategy t (t.recordAll cost path)
  | expand {t : Tree P T} {i : Nat} {n : Node P T} {kids : List (Node P T)} (h : t.node? i = some n)
      (hkids : n.Family i strategy kids) (hexpanded : n.expanded = true → kids = []) :
      Change strategy t (t.expandedBy i kids)

/-! ## The operations as changes -/

/-- An expanded node has no more candidates. -/
theorem Expander.eq_nil_of_candidates {x : Expander P T O σ} {n : Node P T} {i : Nat}
    {classification : Classification O} {candidates : List (Candidate P T)}
    (h : (x.candidates n i classification).1 = .ok candidates) (hn : n.expanded = true) :
    candidates = [] := by
  refine List.eq_nil_iff_forall_not_mem.mpr fun c hc => ?_
  have hexpanded := (proposes_of_mem_candidates h hc).1
  rw [hn] at hexpanded
  cases hexpanded

namespace Growth

variable {classification : Classification O} {g g' : Growth P T O σ ε}

theorem expand_change {i : Nat} {n : Node P T} (h : g.tree.node? i = some n) :
    Tree.Change .treeSearch g.tree (g.expand classification i n).2.tree := by
  rw [expand_eq h]
  rcases hc : g.search.expander.candidates n i classification with ⟨_ | candidates, x⟩
  · exact .none g.tree
  · refine .expand h (.kept _) fun hn => ?_
    rw [Expander.eq_nil_of_candidates (congrArg Prod.fst hc) hn, Expander.limit_nil]
    rfl

theorem sweepRound_change (round i : Nat) (s : Sweep) (g : Growth P T O σ ε) :
    Tree.Change .bestFirst g.tree (g.sweepRound classification round i s).2.tree := by
  cases hn : g.tree.node? i with
  | none =>
    rw [sweepRound_of_none hn]
    exact .none g.tree
  | some n =>
    rw [sweepRound_eq hn]
    rcases hc : g.search.expander.candidates n i classification with ⟨_ | candidates, x⟩
    · exact .none g.tree
    · refine .expand hn (.swept g.search.meter candidates) fun hexpanded => ?_
      rw [Expander.eq_nil_of_candidates (congrArg Prod.fst hc) hexpanded, sweepKids_nil]
      rfl

theorem measure_change (strategy : Strategy) (g : Growth P T O σ ε) (i : Nat) :
    Tree.Change strategy g.tree (g.measure i).2.tree := by
  cases hn : g.tree.node? i with
  | none =>
    rw [measure_of_none hn]
    exact .none g.tree
  | some n =>
    rw [measure_eq hn]
    refine .measure hn (fun c hc => ?_) fun hnone => ?_
    · rw [Meter.measure_of_evaluation hc]
    · exact Cost.isNaN_of_isUsable (Meter.isUsable_measure hnone)

/-- Every operation changes the tree in one way at most. -/
theorem Operation.change {strategy : Strategy} (h : Operation classification strategy g g') :
    Tree.Change strategy g.tree g'.tree := by
  cases h with
  | measure => exact measure_change strategy g _
  | expand h => exact expand_change h
  | backup =>
    unfold Growth.backup Tree.backup
    split_ifs
    · exact .backup g.tree _ _
    · exact .none g.tree
  | sweepRound => exact sweepRound_change _ _ _ g

end Growth

/-! ## Grown trees -/

/-- The trees that come from a root by any number of growths of allowed strategies, failed ones
included. Each growth may be that of another search. -/
inductive Tree.Grown (allowed : Strategy → Prop) (root : Node P T) : Tree P T → Prop
  | root : Grown allowed root (.ofRoot root)
  | grow {t : Tree P T} (h : Grown allowed root t) {O σ ε : Type} (s : Search P T O σ ε)
      (hs : allowed s.config.strategy) (classification : Classification O) (rounds : Nat) :
      Grown allowed root (s.grow t classification rounds).2.1

/-- What the root has and every change preserves, a grown tree has. -/
theorem Tree.Grown.preserve {allowed : Strategy → Prop} {root : Node P T} {t : Tree P T}
    (h : Tree.Grown allowed root t) {I : Tree P T → Prop} (hroot : I (.ofRoot root))
    (hI : ∀ {strategy t t'}, allowed strategy → Tree.Change strategy t t' → I t → I t') : I t := by
  induction h with
  | root => exact hroot
  | grow _ s hs classification rounds ih =>
    rw [Search.tree_grow]
    exact (s.grown_run classification _ rounds).preserve (I := fun g => I g.tree)
      (fun hoperation => hI hs hoperation.change) ih

/-! ## New nodes -/

theorem Growth.isUsable_of_mem_sweepKids {m : Meter P T ε} {candidates : List (Candidate P T)}
    {n : Node P T} {i : Nat} {kid : Float × Node P T} (h : kid ∈ sweepKids m candidates n i) :
    Cost.isUsable kid.1 = true :=
  Meter.isUsable_of_mem_measureAll (fun _ => Candidate.evaluation_of_mem_toNodes)
    (List.mem_mergeSort.mp h)

/-- The new nodes of a sweep are measured, at a cost that is a number, and not expanded. -/
theorem Growth.new_of_mem_sweepKids {m : Meter P T ε} {candidates : List (Candidate P T)}
    {n : Node P T} {i : Nat} {kid : Float × Node P T} (h : kid ∈ sweepKids m candidates n i) :
    kid.2.evaluation = some kid.1 ∧ kid.1.isNaN = false ∧ kid.2.expanded = false := by
  obtain ⟨hevaluation, c, -, offset, evaluation, hkid⟩ := exists_of_mem_sweepKids h
  exact ⟨hevaluation, Cost.isNaN_of_isUsable (isUsable_of_mem_sweepKids h),
    congrArg Node.expanded hkid⟩

namespace Node.Family

variable {n kid : Node P T} {i : Nat} {strategy : Strategy} {kids : List (Node P T)}

theorem becomes (h : n.Family i strategy kids) (hkid : kid ∈ kids) :
    ∃ c : Candidate P T, c.Becomes n i kid := by
  cases h with
  | kept candidates =>
    obtain ⟨c, -, hbecomes⟩ := Candidate.exists_of_mem_toNodes hkid
    exact ⟨c, hbecomes⟩
  | swept m candidates =>
    obtain ⟨e, he, rfl⟩ := List.mem_map.mp hkid
    obtain ⟨-, c, -, hbecomes⟩ := Growth.exists_of_mem_sweepKids he
    exact ⟨c, hbecomes⟩

/-- A new node has no children yet. -/
theorem children_eq (h : n.Family i strategy kids) (hkid : kid ∈ kids) : kid.children = #[] := by
  obtain ⟨c, offset, evaluation, rfl⟩ := h.becomes hkid
  rfl

/-- A cost that a new node has is a number. -/
theorem isNaN_eq (h : n.Family i strategy kids) (hkid : kid ∈ kids) {cost : Float}
    (hcost : kid.evaluation = some cost) : cost.isNaN = false := by
  cases h with
  | kept candidates =>
    rw [Candidate.evaluation_of_mem_toNodes hkid] at hcost
    cases hcost
  | swept m candidates =>
    obtain ⟨e, he, rfl⟩ := List.mem_map.mp hkid
    obtain ⟨hevaluation, hnumber, -⟩ := Growth.new_of_mem_sweepKids he
    rw [hevaluation] at hcost
    cases hcost
    exact hnumber

end Node.Family

/-! ## Stored costs -/

namespace Tree

/-- The cost that is stored on a node. -/
def evaluationOf (t : Tree P T) (i : Nat) : Option Float := (t.node? i).bind (·.evaluation)

/-- No stored cost is NaN. -/
def Numeric (t : Tree P T) : Prop := ∀ i cost, t.evaluationOf i = some cost → cost.isNaN = false

theorem evaluationOf_of_node? {t : Tree P T} {i : Nat} {n : Node P T} (h : t.node? i = some n) :
    t.evaluationOf i = n.evaluation := by
  unfold evaluationOf
  rw [h]
  rfl

theorem Agree.evaluationOf {t t' : Tree P T} (h : Agree Node.evaluation t t') :
    t'.evaluationOf = t.evaluationOf :=
  funext (h.bind_eq fun _ _ hevaluation => hevaluation)

theorem evaluationOf_expandedBy_old {t : Tree P T} {j : Nat} (i : Nat) (kids : List (Node P T))
    (hj : j < t.size) : (t.expandedBy i kids).evaluationOf j = t.evaluationOf j :=
  bind_node?_expandedBy (fun _ _ => rfl) i kids hj

theorem evaluationOf_expandedBy_new (t : Tree P T) (i k : Nat) (kids : List (Node P T)) :
    (t.expandedBy i kids).evaluationOf (t.size + k) = kids[k]?.bind (·.evaluation) := by
  unfold evaluationOf
  rw [node?_expandedBy_new]

theorem lt_size_of_evaluationOf {t : Tree P T} {i : Nat} {cost : Float}
    (h : t.evaluationOf i = some cost) : i < t.size := by
  obtain ⟨n, hn, -⟩ := Option.bind_eq_some_iff.mp h
  exact lt_size_of_node? hn

theorem evaluationOf_modify {t : Tree P T} {i : Nat} {n : Node P T} (h : t.node? i = some n)
    (cost : Float) (j : Nat) :
    (t.modify i fun _ => { n with evaluation := some cost }).evaluationOf j =
      if i = j then some cost else t.evaluationOf j := by
  unfold evaluationOf
  rw [node?_modify]
  split_ifs with hij
  · subst hij
    rw [h]
    rfl
  · rfl

variable {strategy : Strategy} {t t' : Tree P T}

/-- A stored cost is final. -/
theorem Change.stored (h : Change strategy t t') {i : Nat} {cost : Float}
    (hcost : t.evaluationOf i = some cost) : t'.evaluationOf i = some cost := by
  cases h with
  | none => exact hcost
  | @measure j n c hn hfirst _ =>
    rw [evaluationOf_modify hn]
    split_ifs with hij
    · subst hij
      rw [evaluationOf_of_node? hn] at hcost
      rw [hfirst cost hcost]
    · exact hcost
  | backup path c =>
    rw [(Agree.recordAll (fun _ _ => rfl) t c path).evaluationOf]
    exact hcost
  | expand _ _ _ =>
    rw [evaluationOf_expandedBy_old _ _ (lt_size_of_evaluationOf hcost)]
    exact hcost

/-- Every change stores numbers only. -/
theorem Change.numeric (h : Change strategy t t') (hnum : t.Numeric) : t'.Numeric := by
  intro j cost hcost
  cases h with
  | none => exact hnum j cost hcost
  | @measure i n c hn hfirst hnumber =>
    rw [evaluationOf_modify hn] at hcost
    split_ifs at hcost
    · cases hcost
      cases hevaluation : n.evaluation with
      | none => exact hnumber hevaluation
      | some c =>
        rw [← hfirst c hevaluation]
        exact hnum i c ((evaluationOf_of_node? hn).trans hevaluation)
    · exact hnum j cost hcost
  | backup path c =>
    rw [(Agree.recordAll (fun _ _ => rfl) t c path).evaluationOf] at hcost
    exact hnum j cost hcost
  | @expand i n kids hn hkids _ =>
    rcases Nat.lt_or_ge j t.size with hlt | hge
    · rw [evaluationOf_expandedBy_old i kids hlt] at hcost
      exact hnum j cost hcost
    · obtain ⟨k, rfl⟩ := Nat.exists_eq_add_of_le hge
      rw [evaluationOf_expandedBy_new] at hcost
      obtain ⟨kid, hkid, hcost⟩ := Option.bind_eq_some_iff.mp hcost
      exact hkids.isNaN_eq (List.mem_of_getElem? hkid) hcost

theorem numeric_ofRoot {root : Node P T}
    (hroot : ∀ cost, root.evaluation = some cost → cost.isNaN = false) : (ofRoot root).Numeric := by
  intro i cost hcost
  obtain ⟨n, hn, hevaluation⟩ := Option.bind_eq_some_iff.mp hcost
  obtain ⟨-, rfl⟩ := node?_ofRoot hn
  exact hroot cost hevaluation

end Tree

end LoopTuner
