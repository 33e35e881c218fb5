import LoopTuner.Proofs.Growth.Runs

/-!
# Growths that go alike

Two searches can differ in what their generators and evaluators remember and still do the same. If a
relation of their growths is kept by every operation, with equal decisions and results, then the searches
grow a tree alike to the end (`Growth.Correspondence.grown`). The growths may have equal trees
(`Growth.Simulation`), but the decisions leave room for trees that differ in what none of them looks at.
For tree search it is enough that the searches go alike as long as no expansion spoils the first one
(`Growth.SearchCorrespondence`).
-/

namespace LoopTuner

variable {P T O σ ε σ' ε' : Type}

namespace Growth

/-- Two parts of a search have the same result and end in related growths. -/
structure Alike {α : Type} (R : Growth P T O σ ε → Growth P T O σ' ε' → Prop)
    (out : Except Failure α × Growth P T O σ ε) (out' : Except Failure α × Growth P T O σ' ε') :
    Prop where
  result : out'.1 = out.1
  related : R out.2 out'.2

/-- Both parts fail, or both go on with the same value. -/
theorem Alike.cases {α : Type} {R : Growth P T O σ ε → Growth P T O σ' ε' → Prop}
    {out : Except Failure α × Growth P T O σ ε} {out' : Except Failure α × Growth P T O σ' ε'}
    (h : Alike R out out') :
    (∃ f g g', out = (.error f, g) ∧ out' = (.error f, g') ∧ R g g') ∨
      ∃ a g g', out = (.ok a, g) ∧ out' = (.ok a, g') ∧ R g g' := by
  obtain ⟨result, g⟩ := out
  obtain ⟨result', g'⟩ := out'
  obtain ⟨hresult, hR⟩ := h
  obtain rfl : result' = result := hresult
  cases result' with
  | error f => exact Or.inl ⟨f, g, g', rfl, rfl, hR⟩
  | ok a => exact Or.inr ⟨a, g, g', rfl, rfl, hR⟩

/-- A relation of growths under which a strategy does the same: every decision and every operation has the
same result on both sides, and the relation stays. -/
structure Correspondence (classification : Classification O) (strategy : Strategy)
    (R : Growth P T O σ ε → Growth P T O σ' ε' → Prop) : Prop where
  measure : ∀ {g g'}, R g g' → ∀ i, Alike R (g.measure i) (g'.measure i)
  select_eq : strategy = .treeSearch → ∀ {g g'}, R g g' →
    g'.search.config.descent.select g'.tree Tree.rootIndex =
      g.search.config.descent.select g.tree Tree.rootIndex
  expandSelected : strategy = .treeSearch → ∀ {g g'}, R g g' → ∀ i,
    Alike R (g.expandSelected classification i) (g'.expandSelected classification i)
  backup : strategy = .treeSearch → ∀ {g g'}, R g g' → ∀ i cost,
    Alike R (g.backup i cost) (g'.backup i cost)
  size_eq : strategy = .treeSearch → ∀ {g g'}, R g g' → g'.tree.size = g.tree.size
  bestChild_eq : strategy = .treeSearch → ∀ {g g'}, R g g' → ∀ i,
    g'.tree.bestChild i = g.tree.bestChild i
  sweepRound : strategy = .bestFirst → ∀ {g g'}, R g g' → ∀ round i s,
    Alike R (g.sweepRound classification round i s) (g'.sweepRound classification round i s)

/-- A relation of growths under which tree searches do the same, unless an expansion spoils the first one.
A spoiled growth stays spoiled, whatever is done with it. -/
structure SearchCorrespondence (classification : Classification O) (B : Growth P T O σ ε → Prop)
    (R : Growth P T O σ ε → Growth P T O σ' ε' → Prop) : Prop where
  spoiled : SearchInvariant classification B
  measure : ∀ {g g'}, R g g' → ∀ i, Alike R (g.measure i) (g'.measure i)
  select_eq : ∀ {g g'}, R g g' → g'.search.config.descent.select g'.tree Tree.rootIndex =
    g.search.config.descent.select g.tree Tree.rootIndex
  expandSelected : ∀ {g g'}, R g g' → ∀ i, B (g.expandSelected classification i).2 ∨
    Alike R (g.expandSelected classification i) (g'.expandSelected classification i)
  backup : ∀ {g g'}, R g g' → ∀ i cost, Alike R (g.backup i cost) (g'.backup i cost)
  size_eq : ∀ {g g'}, R g g' → g'.tree.size = g.tree.size
  bestChild_eq : ∀ {g g'}, R g g' → ∀ i, g'.tree.bestChild i = g.tree.bestChild i

/-! ## Tree search -/

namespace SearchCorrespondence

variable {classification : Classification O} {B : Growth P T O σ ε → Prop}
  {R : Growth P T O σ ε → Growth P T O σ' ε' → Prop} {g : Growth P T O σ ε} {g' : Growth P T O σ' ε'}
  (h : SearchCorrespondence classification B R)

include h

theorem searchRound (hR : R g g') (round : Nat) :
    B (g.searchRound classification round).2 ∨
      Alike R (g.searchRound classification round) (g'.searchRound classification round) := by
  cases hselect : g.search.config.descent.select g.tree Tree.rootIndex with
  | error v =>
    unfold Growth.searchRound
    rw [h.select_eq hR]
    simp only [hselect]
    exact Or.inr ⟨rfl, hR⟩
  | ok i =>
    rcases h.expandSelected hR i with hspoiled | halike
    · exact Or.inl (h.spoiled.searchRound_of_selected hselect hspoiled round)
    · unfold Growth.searchRound
      rw [h.select_eq hR]
      simp only [hselect]
      rcases halike.cases with ⟨f, g₁, g₁', hx, hx', hR₁⟩ | ⟨kids, g₁, g₁', hx, hx', hR₁⟩
      · simp only [hx, hx']
        exact Or.inr ⟨rfl, hR₁⟩
      · rcases (h.measure hR₁ i).cases with
          ⟨f, g₂, g₂', hm, hm', hR₂⟩ | ⟨cost, g₂, g₂', hm, hm', hR₂⟩
        · simp only [hx, hx', hm, hm']
          exact Or.inr ⟨rfl, hR₂⟩
        · simp only [hx, hx', hm, hm']
          exact Or.inr (h.backup hR₂ i cost)

theorem searchRounds (hR : R g g') (count round : Nat) :
    B (Growth.searchRounds classification count round g).2 ∨
      Alike R (Growth.searchRounds classification count round g)
        (Growth.searchRounds classification count round g') := by
  induction count generalizing g g' round with
  | zero => exact Or.inr ⟨rfl, hR⟩
  | succ count ih =>
    unfold Growth.searchRounds
    rcases h.searchRound hR round with hspoiled | halike
    · refine Or.inl ?_
      rcases hx : g.searchRound classification round with ⟨_ | _, g₁⟩
      · rw [hx] at hspoiled
        exact hspoiled
      · rw [hx] at hspoiled
        exact h.spoiled.searchRounds hspoiled count (round + 1)
    · rcases halike.cases with ⟨f, g₁, g₁', hx, hx', hR₁⟩ | ⟨_, g₁, g₁', hx, hx', hR₁⟩
      · simp only [hx, hx']
        exact Or.inr ⟨rfl, hR₁⟩
      · simp only [hx, hx']
        exact ih hR₁ (round + 1)

theorem extractFrom (hR : R g g') (fuel best : Nat) (bestCost : Float) (i : Nat) :
    Alike R (Growth.extractFrom fuel best bestCost i g)
      (Growth.extractFrom fuel best bestCost i g') := by
  induction fuel generalizing g g' best bestCost i with
  | zero => exact ⟨rfl, hR⟩
  | succ fuel ih =>
    unfold Growth.extractFrom
    rw [h.bestChild_eq hR]
    rcases g.tree.bestChild i with v | _ | child
    · exact ⟨rfl, hR⟩
    · exact ⟨rfl, hR⟩
    · rcases (h.measure hR child).cases with
        ⟨f, g₁, g₁', hm, hm', hR₁⟩ | ⟨cost, g₁, g₁', hm, hm', hR₁⟩
      · simp only [hm, hm']
        exact ⟨rfl, hR₁⟩
      · simp only [hm, hm']
        split_ifs
        · exact ih hR₁ child cost child
        · exact ih hR₁ best bestCost child

theorem extractBest (hR : R g g') : Alike R g.extractBest g'.extractBest := by
  unfold Growth.extractBest
  rcases (h.measure hR Tree.rootIndex).cases with
    ⟨f, g₁, g₁', hm, hm', hR₁⟩ | ⟨cost, g₁, g₁', hm, hm', hR₁⟩
  · simp only [hm, hm']
    exact ⟨rfl, hR₁⟩
  · simp only [hm, hm']
    rw [h.size_eq hR₁]
    exact h.extractFrom hR₁ _ _ _ _

theorem treeSearch (hR : R g g') (rounds : Nat) :
    B (g.treeSearch classification rounds).2 ∨
      Alike R (g.treeSearch classification rounds) (g'.treeSearch classification rounds) := by
  unfold Growth.treeSearch
  rcases h.searchRounds hR rounds 0 with hspoiled | halike
  · refine Or.inl ?_
    rcases hx : Growth.searchRounds classification rounds 0 g with ⟨_ | _, g₁⟩
    · rw [hx] at hspoiled
      exact hspoiled
    · rw [hx] at hspoiled
      exact extractBest_preserve h.spoiled.measure hspoiled
  · refine Or.inr ?_
    rcases halike.cases with ⟨f, g₁, g₁', hx, hx', hR₁⟩ | ⟨_, g₁, g₁', hx, hx', hR₁⟩
    · simp only [hx, hx']
      exact ⟨rfl, hR₁⟩
    · simp only [hx, hx']
      exact h.extractBest hR₁

/-- Tree searches that start alike grow a tree alike, unless the first one is spoiled. -/
theorem grown {s : Search P T O σ ε} {s' : Search P T O σ' ε'}
    (hs : s.config.strategy = .treeSearch) (hs' : s'.config.strategy = .treeSearch) {t : Tree P T}
    (hstart : R ⟨s.restart, t⟩ ⟨s'.restart, t⟩) (rounds : Nat) :
    B (s.grown t classification rounds).2 ∨
      Alike R (s.grown t classification rounds) (s'.grown t classification rounds) := by
  unfold Search.grown
  rw [hs, hs']
  exact h.treeSearch hstart rounds

end SearchCorrespondence

namespace Correspondence

variable {classification : Classification O} {R : Growth P T O σ ε → Growth P T O σ' ε' → Prop}
  {g : Growth P T O σ ε} {g' : Growth P T O σ' ε'}

/-- Under a correspondence nothing spoils a tree search. -/
theorem search (h : Correspondence classification .treeSearch R) :
    SearchCorrespondence classification (fun _ => False) R where
  spoiled := ⟨False.elim, False.elim, False.elim⟩
  measure := h.measure
  select_eq := h.select_eq rfl
  expandSelected hR i := Or.inr (h.expandSelected rfl hR i)
  backup := h.backup rfl
  size_eq := h.size_eq rfl
  bestChild_eq := h.bestChild_eq rfl

theorem searchRounds (h : Correspondence classification .treeSearch R) (hR : R g g')
    (count round : Nat) :
    Alike R (Growth.searchRounds classification count round g)
      (Growth.searchRounds classification count round g') :=
  (h.search.searchRounds hR count round).resolve_left id

theorem extractBest (h : Correspondence classification .treeSearch R) (hR : R g g') :
    Alike R g.extractBest g'.extractBest :=
  h.search.extractBest hR

theorem treeSearch (h : Correspondence classification .treeSearch R) (hR : R g g') (rounds : Nat) :
    Alike R (g.treeSearch classification rounds) (g'.treeSearch classification rounds) :=
  (h.search.treeSearch hR rounds).resolve_left id

/-! ## Best-first sweep -/

section BestFirst

variable (h : Correspondence classification .bestFirst R)

include h

theorem sweepRounds (hR : R g g') (count round : Nat) (s : Sweep) :
    Alike R (Growth.sweepRounds classification count round s g)
      (Growth.sweepRounds classification count round s g') := by
  induction count generalizing g g' round s with
  | zero => exact ⟨rfl, hR⟩
  | succ count ih =>
    unfold Growth.sweepRounds
    cases Queued.pop? s.queue with
    | none => exact ⟨rfl, hR⟩
    | some popped =>
      rcases (h.sweepRound rfl hR round popped.1.index { s with queue := popped.2 }).cases with
        ⟨f, g₁, g₁', hx, hx', hR₁⟩ | ⟨s₁, g₁, g₁', hx, hx', hR₁⟩
      · simp only [hx, hx']
        exact ⟨rfl, hR₁⟩
      · simp only [hx, hx']
        exact ih hR₁ (round + 1) s₁

theorem bestFirst (hR : R g g') (rounds : Nat) :
    Alike R (g.bestFirst classification rounds) (g'.bestFirst classification rounds) := by
  unfold Growth.bestFirst
  rcases (h.measure hR Tree.rootIndex).cases with
    ⟨f, g₁, g₁', hm, hm', hR₁⟩ | ⟨cost, g₁, g₁', hm, hm', hR₁⟩
  · simp only [hm, hm']
    exact ⟨rfl, hR₁⟩
  · rcases (h.sweepRounds hR₁ rounds 0 (.start cost)).cases with
      ⟨f, g₂, g₂', hx, hx', hR₂⟩ | ⟨s, g₂, g₂', hx, hx', hR₂⟩
    · simp only [hm, hm', hx, hx']
      exact ⟨rfl, hR₂⟩
    · simp only [hm, hm', hx, hx']
      exact ⟨rfl, hR₂⟩

end BestFirst

/-! ## Growing -/

/-- Searches that start alike grow a tree alike. -/
theorem grown {s : Search P T O σ ε} {s' : Search P T O σ' ε'}
    (h : Correspondence classification s.config.strategy R)
    (hstrategy : s'.config.strategy = s.config.strategy) {t : Tree P T}
    (hstart : R ⟨s.restart, t⟩ ⟨s'.restart, t⟩) (rounds : Nat) :
    Alike R (s.grown t classification rounds) (s'.grown t classification rounds) := by
  unfold Search.grown
  rw [hstrategy]
  cases hs : s.config.strategy with
  | treeSearch =>
    rw [hs] at h
    exact h.treeSearch hstart rounds
  | bestFirst =>
    rw [hs] at h
    exact h.bestFirst hstart rounds

end Correspondence

/-! ## Equal trees -/

/-- A correspondence of growths of one tree. -/
structure Simulation (classification : Classification O) (strategy : Strategy)
    (R : Growth P T O σ ε → Growth P T O σ' ε' → Prop) : Prop where
  tree_eq : ∀ {g g'}, R g g' → g'.tree = g.tree
  measure : ∀ {g g'}, R g g' → ∀ i, Alike R (g.measure i) (g'.measure i)
  descent_eq : strategy = .treeSearch → ∀ {g g'}, R g g' →
    g'.search.config.descent = g.search.config.descent
  lastStage_eq : strategy = .treeSearch → ∀ {g g'}, R g g' →
    g'.search.expander.lastStage = g.search.expander.lastStage
  expand : strategy = .treeSearch → ∀ {g g'}, R g g' → ∀ i n, g.tree.node? i = some n →
    Alike R (g.expand classification i n) (g'.expand classification i n)
  backup : strategy = .treeSearch → ∀ {g g'}, R g g' → ∀ i cost,
    Alike R (g.backup i cost) (g'.backup i cost)
  sweepRound : strategy = .bestFirst → ∀ {g g'}, R g g' → ∀ round i s,
    Alike R (g.sweepRound classification round i s) (g'.sweepRound classification round i s)

namespace Simulation

variable {classification : Classification O} {strategy : Strategy}
  {R : Growth P T O σ ε → Growth P T O σ' ε' → Prop}

theorem expandSelected (h : Simulation classification strategy R) (hs : strategy = .treeSearch)
    {g : Growth P T O σ ε} {g' : Growth P T O σ' ε'} (hR : R g g') (i : Nat) :
    Alike R (g.expandSelected classification i) (g'.expandSelected classification i) := by
  unfold Growth.expandSelected
  rw [h.tree_eq hR, h.lastStage_eq hs hR]
  cases hn : g.tree.node? i with
  | none => exact ⟨rfl, hR⟩
  | some n =>
    simp only
    split_ifs
    · exact h.expand hs hR i n hn
    · exact ⟨rfl, hR⟩

/-- On equal trees, equal parameters make equal decisions. -/
theorem correspondence (h : Simulation classification strategy R) :
    Correspondence classification strategy R where
  measure := h.measure
  select_eq hs _ _ hR := by rw [h.tree_eq hR, h.descent_eq hs hR]
  expandSelected hs _ _ hR := h.expandSelected hs hR
  backup := h.backup
  size_eq _ _ _ hR := by rw [h.tree_eq hR]
  bestChild_eq _ _ _ hR i := by rw [h.tree_eq hR]
  sweepRound := h.sweepRound

end Simulation

end Growth

end LoopTuner
