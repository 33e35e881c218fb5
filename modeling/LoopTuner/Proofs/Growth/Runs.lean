import LoopTuner.Proofs.Growth.Operations
import Mathlib.Logic.Relation

/-!
# Growths as runs of operations

Both strategies are loops around a few operations: a tree search expands, measures and backs up nodes, a
best-first search measures the root and then takes round after round (`Growth.Operation`). A growth is a
run of the operations of its strategy, whatever its result is (`Search.grown_run`).
-/

namespace LoopTuner

variable {P T O σ ε : Type}

namespace Growth

/-- One operation of a search at work, with whatever result. -/
inductive Operation (classification : Classification O) :
    Strategy → Growth P T O σ ε → Growth P T O σ ε → Prop
  | measure (strategy : Strategy) (g : Growth P T O σ ε) (i : Nat) :
      Operation classification strategy g (g.measure i).2
  | expand {g : Growth P T O σ ε} {i : Nat} {n : Node P T} (h : g.tree.node? i = some n) :
      Operation classification .treeSearch g (g.expand classification i n).2
  | backup (g : Growth P T O σ ε) (i : Nat) (cost : Float) :
      Operation classification .treeSearch g (g.backup i cost).2
  | sweepRound (g : Growth P T O σ ε) (round i : Nat) (s : Sweep) :
      Operation classification .bestFirst g (g.sweepRound classification round i s).2

/-- A chain of operations. -/
abbrev Run (classification : Classification O) (strategy : Strategy) :
    Growth P T O σ ε → Growth P T O σ ε → Prop :=
  Relation.ReflTransGen (Operation classification strategy)

/-- What a run preserves. -/
theorem Run.preserve {classification : Classification O} {strategy : Strategy}
    {g g' : Growth P T O σ ε} (h : Run classification strategy g g') {I : Growth P T O σ ε → Prop}
    (hI : ∀ {g g'}, Operation classification strategy g g' → I g → I g') (hg : I g) : I g' := by
  induction h with
  | refl => exact hg
  | tail _ hoperation ih => exact hI hoperation ih

variable (classification : Classification O)

theorem measure_run (strategy : Strategy) (g : Growth P T O σ ε) (i : Nat) :
    Run classification strategy g (g.measure i).2 :=
  .single (.measure strategy g i)

/-! ## Tree search -/

theorem expandSelected_run (g : Growth P T O σ ε) (i : Nat) :
    Run classification .treeSearch g (g.expandSelected classification i).2 := by
  rcases g.expandSelected_cases classification i with hsame | ⟨n, hn, -, hexpand⟩
  · rw [hsame]
  · rw [hexpand]
    exact .single (.expand hn)

section Preserve

variable {classification} {I : Growth P T O σ ε → Prop}

/-- Extraction only measures, so it keeps what every measuring keeps. -/
theorem extractFrom_preserve (hI : ∀ {g}, I g → ∀ i, I (g.measure i).2) (fuel best : Nat)
    (bestCost : Float) (i : Nat) {g : Growth P T O σ ε} (hg : I g) :
    I (extractFrom fuel best bestCost i g).2 := by
  induction fuel generalizing best bestCost i g with
  | zero => exact hg
  | succ fuel ih =>
    unfold extractFrom
    split
    · exact hg
    · exact hg
    · rename_i child _
      have hmeasured := hI hg child
      split
      · rename_i hm
        rw [hm] at hmeasured
        exact hmeasured
      · rename_i cost g₁ hm
        rw [hm] at hmeasured
        split_ifs
        · exact ih _ _ _ hmeasured
        · exact ih _ _ _ hmeasured

theorem extractBest_preserve (hI : ∀ {g}, I g → ∀ i, I (g.measure i).2) {g : Growth P T O σ ε}
    (hg : I g) : I g.extractBest.2 := by
  have hmeasured := hI hg Tree.rootIndex
  unfold extractBest
  split
  · rename_i hm
    rw [hm] at hmeasured
    exact hmeasured
  · rename_i cost g₁ hm
    rw [hm] at hmeasured
    exact extractFrom_preserve hI _ _ _ _ hmeasured

/-- A round keeps what measuring keeps, if expanding the selected node leads to it and backing up the measured cost
keeps it. -/
theorem searchRound_preserve (hmeasure : ∀ {g}, I g → ∀ i, I (g.measure i).2)
    (hbackup : ∀ {g g' i cost}, I g → g.measure i = (.ok cost, g') → I (g'.backup i cost).2)
    {g : Growth P T O σ ε} {i : Nat}
    (hselect : g.search.config.descent.select g.tree Tree.rootIndex = .ok i)
    (hexpanded : I (g.expandSelected classification i).2) (round : Nat) :
    I (g.searchRound classification round).2 := by
  unfold Growth.searchRound
  simp only [hselect]
  split
  · rename_i hx
    rw [hx] at hexpanded
    exact hexpanded
  · rename_i _ g₁ hx
    rw [hx] at hexpanded
    have hmeasured := hmeasure hexpanded i
    split
    · rename_i hm
      rw [hm] at hmeasured
      exact hmeasured
    · rename_i cost g₂ hm
      exact hbackup hexpanded hm

theorem searchRounds_preserve (hround : ∀ {g}, I g → ∀ round, I (g.searchRound classification round).2)
    {g : Growth P T O σ ε} (hg : I g) (count round : Nat) :
    I (Growth.searchRounds classification count round g).2 := by
  induction count generalizing round g with
  | zero => exact hg
  | succ count ih =>
    have hnext := hround hg round
    unfold Growth.searchRounds
    split
    · rename_i hx
      rw [hx] at hnext
      exact hnext
    · rename_i g₁ hx
      rw [hx] at hnext
      exact ih hnext (round + 1)

theorem treeSearch_preserve (hround : ∀ {g}, I g → ∀ round, I (g.searchRound classification round).2)
    (hmeasure : ∀ {g}, I g → ∀ i, I (g.measure i).2) {g : Growth P T O σ ε} (hg : I g) (rounds : Nat) :
    I (g.treeSearch classification rounds).2 := by
  have hrounds := searchRounds_preserve hround hg rounds 0
  unfold Growth.treeSearch
  split
  · rename_i hx
    rw [hx] at hrounds
    exact hrounds
  · rename_i g₁ hx
    rw [hx] at hrounds
    exact extractBest_preserve hmeasure hrounds

/-- A property that every part of a round of tree search keeps. Expanding has to keep it for selected nodes
only. -/
structure SearchInvariant (classification : Classification O) (I : Growth P T O σ ε → Prop) : Prop where
  expandSelected : ∀ {g}, I g → ∀ i, I (g.expandSelected classification i).2
  measure : ∀ {g}, I g → ∀ i, I (g.measure i).2
  backup : ∀ {g}, I g → ∀ i cost, I (g.backup i cost).2

namespace SearchInvariant

/-- It is enough that the property holds once the selected node is expanded. -/
theorem searchRound_of_selected (hI : SearchInvariant classification I) {g : Growth P T O σ ε} {i : Nat}
    (hselect : g.search.config.descent.select g.tree Tree.rootIndex = .ok i)
    (hexpanded : I (g.expandSelected classification i).2) (round : Nat) :
    I (g.searchRound classification round).2 := by
  refine searchRound_preserve hI.measure (fun {g g' i cost} hg hm => ?_) hselect hexpanded round
  have hmeasured := hI.measure hg i
  rw [hm] at hmeasured
  exact hI.backup hmeasured i cost

variable (hI : SearchInvariant classification I) {g : Growth P T O σ ε} (hg : I g)

include hI hg

theorem searchRound (round : Nat) : I (g.searchRound classification round).2 := by
  cases hselect : g.search.config.descent.select g.tree Tree.rootIndex with
  | error v =>
    unfold Growth.searchRound
    simp only [hselect]
    exact hg
  | ok i => exact hI.searchRound_of_selected hselect (hI.expandSelected hg i) round

theorem searchRounds (count round : Nat) : I (Growth.searchRounds classification count round g).2 :=
  searchRounds_preserve (fun hg => hI.searchRound hg) hg count round

theorem treeSearch (rounds : Nat) : I (g.treeSearch classification rounds).2 :=
  treeSearch_preserve (fun hg => hI.searchRound hg) hI.measure hg rounds

end SearchInvariant

end Preserve

/-- To be reached by a run is such a property. -/
theorem run_searchInvariant (g : Growth P T O σ ε) :
    SearchInvariant classification (Run classification .treeSearch g) where
  expandSelected hrun i := hrun.trans (expandSelected_run classification _ i)
  measure hrun i := hrun.tail (.measure .treeSearch _ i)
  backup hrun i cost := hrun.tail (.backup _ i cost)

theorem searchRound_run (round : Nat) (g : Growth P T O σ ε) :
    Run classification .treeSearch g (g.searchRound classification round).2 :=
  (run_searchInvariant classification g).searchRound .refl round

theorem searchRounds_run (count round : Nat) (g : Growth P T O σ ε) :
    Run classification .treeSearch g (searchRounds classification count round g).2 :=
  (run_searchInvariant classification g).searchRounds .refl count round

/-- Every strategy measures. -/
theorem extractBest_run (strategy : Strategy) (g : Growth P T O σ ε) :
    Run classification strategy g g.extractBest.2 :=
  extractBest_preserve (I := Run classification strategy g)
    (fun hrun i => hrun.tail (.measure strategy _ i)) .refl

theorem treeSearch_run (rounds : Nat) (g : Growth P T O σ ε) :
    Run classification .treeSearch g (g.treeSearch classification rounds).2 :=
  (run_searchInvariant classification g).treeSearch .refl rounds

/-! ## Best-first sweep -/

theorem sweepRounds_run (count round : Nat) (s : Sweep) (g : Growth P T O σ ε) :
    Run classification .bestFirst g (sweepRounds classification count round s g).2 := by
  induction count generalizing round s g with
  | zero => exact .refl
  | succ count ih =>
    unfold sweepRounds
    split
    · exact .refl
    · rename_i entry queue _
      have hround : Run classification .bestFirst g
          (g.sweepRound classification round entry.index { s with queue := queue }).2 :=
        .single (.sweepRound g round entry.index { s with queue := queue })
      split
      · rename_i hx
        rw [hx] at hround
        exact hround
      · rename_i s₁ g₁ hx
        rw [hx] at hround
        exact hround.trans (ih (round + 1) s₁ g₁)

theorem bestFirst_run (rounds : Nat) (g : Growth P T O σ ε) :
    Run classification .bestFirst g (g.bestFirst classification rounds).2 := by
  have hmeasure := measure_run classification .bestFirst g Tree.rootIndex
  unfold bestFirst
  split
  · rename_i hm
    rw [hm] at hmeasure
    exact hmeasure
  · rename_i cost g₁ hm
    rw [hm] at hmeasure
    have hrounds := sweepRounds_run classification rounds 0 (.start cost) g₁
    split
    · rename_i hx
      rw [hx] at hrounds
      exact hmeasure.trans hrounds
    · rename_i hx
      rw [hx] at hrounds
      exact hmeasure.trans hrounds

end Growth

/-! ## Growing -/

namespace Search

variable (classification : Classification O)

/-- The growth of a tree, at the end of its rounds. -/
def grown (s : Search P T O σ ε) (tree : Tree P T) (classification : Classification O)
    (rounds : Nat) : Except Failure Nat × Growth P T O σ ε :=
  match s.config.strategy with
  | .treeSearch => Growth.treeSearch classification rounds ⟨s.restart, tree⟩
  | .bestFirst => Growth.bestFirst classification rounds ⟨s.restart, tree⟩

theorem grow_eq (s : Search P T O σ ε) (tree : Tree P T) (rounds : Nat) :
    s.grow tree classification rounds =
      match s.grown tree classification rounds with
      | (.error (.violation v), g) => (.error (.violation v), g.tree, g.search)
      | (result, g) => (result, g.tree, g.search.close g.tree.size) := by
  unfold grow grown
  cases s.config.strategy with
  | treeSearch =>
    simp only
    rcases Growth.treeSearch classification rounds ⟨s.restart, tree⟩ with ⟨(_ | _) | _, g⟩ <;> rfl
  | bestFirst =>
    simp only
    rcases Growth.bestFirst classification rounds ⟨s.restart, tree⟩ with ⟨(_ | _) | _, g⟩ <;> rfl

theorem result_grow (s : Search P T O σ ε) (tree : Tree P T) (rounds : Nat) :
    (s.grow tree classification rounds).1 = (s.grown tree classification rounds).1 := by
  rw [grow_eq]
  rcases s.grown tree classification rounds with ⟨(_ | _) | _, g⟩ <;> rfl

theorem tree_grow (s : Search P T O σ ε) (tree : Tree P T) (rounds : Nat) :
    (s.grow tree classification rounds).2.1 = (s.grown tree classification rounds).2.tree := by
  rw [grow_eq]
  rcases s.grown tree classification rounds with ⟨(_ | _) | _, g⟩ <;> rfl

/-- Closing the counters leaves the parties alone. -/
theorem expander_grow (s : Search P T O σ ε) (tree : Tree P T) (rounds : Nat) :
    (s.grow tree classification rounds).2.2.expander =
      (s.grown tree classification rounds).2.search.expander := by
  rw [grow_eq]
  rcases s.grown tree classification rounds with ⟨(_ | _) | _, g⟩ <;> rfl

theorem meter_grow (s : Search P T O σ ε) (tree : Tree P T) (rounds : Nat) :
    (s.grow tree classification rounds).2.2.meter =
      (s.grown tree classification rounds).2.search.meter := by
  rw [grow_eq]
  rcases s.grown tree classification rounds with ⟨(_ | _) | _, g⟩ <;> rfl

/-- A best-first search that does not fail measures the root and then sweeps to the end of its rounds. -/
theorem grow_eq_ok_iff {s s' : Search P T O σ ε} (hstrategy : s.config.strategy = .bestFirst)
    {tree t : Tree P T} {cost : Float} {g : Growth P T O σ ε}
    (hmeasure : Growth.measure ⟨s.restart, tree⟩ Tree.rootIndex = (.ok cost, g)) {rounds best : Nat} :
    s.grow tree classification rounds = (.ok best, t, s') ↔
      ∃ sweep g', Growth.sweepRounds classification rounds 0 (.start cost) g = (.ok sweep, g') ∧
        sweep.best = best ∧ g'.tree = t ∧ g'.search.close g'.tree.size = s' := by
  rw [grow_eq]
  unfold grown
  rw [hstrategy]
  unfold Growth.bestFirst
  rw [hmeasure]
  simp only
  rcases Growth.sweepRounds classification rounds 0 (.start cost) g with ⟨(_ | _) | sweep, g'⟩
  · simp
  · simp
  · simp only [Prod.mk.injEq, Except.ok.injEq]
    constructor
    · rintro ⟨rfl, rfl, rfl⟩
      exact ⟨sweep, g', ⟨rfl, rfl⟩, rfl, rfl, rfl⟩
    · rintro ⟨_, _, ⟨rfl, rfl⟩, rfl, rfl, rfl⟩
      exact ⟨rfl, rfl, rfl⟩

theorem grown_run (s : Search P T O σ ε) (tree : Tree P T) (rounds : Nat) :
    Growth.Run classification s.config.strategy ⟨s.restart, tree⟩
      (s.grown tree classification rounds).2 := by
  unfold grown
  cases s.config.strategy with
  | treeSearch => exact Growth.treeSearch_run classification rounds _
  | bestFirst => exact Growth.bestFirst_run classification rounds _

end Search

end LoopTuner
