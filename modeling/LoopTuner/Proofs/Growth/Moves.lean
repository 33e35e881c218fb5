import LoopTuner.Proofs.Growth.Runs
import LoopTuner.Proofs.Tree.Shape

/-!
# The moves of a growth

A search changes its tree in three ways only: it stores a cost on a node that has none, it expands a
node, and it backs up a cost. Growing a tree is a chain of such moves, with either strategy and also
when it ends early (`Search.grow_moves`), so what every move preserves holds after every growth.
-/

namespace LoopTuner

variable {P T O σ ε : Type}

/-- One change of a tree by a search whose generators can propose certain candidates. -/
inductive Tree.Move (proposes : Node P T → Candidate P T → Prop) : Tree P T → Tree P T → Prop
  | measure {t : Tree P T} {i : Nat} {n : Node P T} {cost : Float} (h : t.node? i = some n)
      (hfirst : ∀ c, n.evaluation = some c → c = cost) :
      Move proposes t (t.modify i fun _ => { n with evaluation := some cost })
  | expand {t : Tree P T} {i : Nat} {n : Node P T} {kids : List (Node P T)} (h : t.node? i = some n)
      (hkids : ∀ kid ∈ kids, n.expanded = false ∧ ∃ c, proposes n c ∧ c.Becomes n i kid) :
      Move proposes t (t.expandedBy i kids)
  | backup (t : Tree P T) (i : Nat) (cost : Float) :
      Move proposes t (t.recordAll cost (t.pathToRoot i))

/-- A chain of moves. -/
abbrev Tree.Moves (proposes : Node P T → Candidate P T → Prop) : Tree P T → Tree P T → Prop :=
  Relation.ReflTransGen (Tree.Move proposes)

/-- What a chain of moves preserves. -/
theorem Tree.Moves.preserve {proposes : Node P T → Candidate P T → Prop} {t t' : Tree P T}
    (h : Tree.Moves proposes t t') {I : Tree P T → Prop}
    (hI : ∀ {t t'}, Tree.Move proposes t t' → I t → I t') (ht : I t) : I t' := by
  induction h with
  | refl => exact ht
  | tail _ hmove ih => exact hI hmove ih

theorem Tree.WellFormed.expandedBy {t : Tree P T} (ht : t.WellFormed) {i : Nat} {n : Node P T}
    (h : t.node? i = some n) {kids : List (Node P T)}
    (hkids : ∀ kid ∈ kids, ∃ c : Candidate P T, c.Becomes n i kid) :
    (t.expandedBy i kids).WellFormed := by
  have hmarked : Tree.Agree Node.place t (t.modify i Node.markExpanded) :=
    Tree.Agree.modify t i fun _ _ => rfl
  refine (ht.of_agree hmarked).withChildren (Tree.node?_modify_self _ h) fun kid hkid => ?_
  obtain ⟨c, offset, evaluation, rfl⟩ := hkids kid hkid
  exact ⟨rfl, rfl, rfl⟩

/-- Every move keeps a tree well-formed. -/
theorem Tree.WellFormed.move {proposes : Node P T → Candidate P T → Prop} {t t' : Tree P T}
    (hmove : Tree.Move proposes t t') (ht : t.WellFormed) : t'.WellFormed := by
  cases hmove with
  | measure h _ =>
    refine ht.of_agree (Tree.Agree.modify t _ fun m hm => ?_)
    rw [h] at hm
    cases hm
    rfl
  | expand h hkids =>
    refine ht.expandedBy h fun kid hkid => ?_
    obtain ⟨-, c, -, hbecomes⟩ := hkids kid hkid
    exact ⟨c, hbecomes⟩
  | backup i cost => exact ht.of_agree (Tree.Agree.recordAll (fun _ _ => rfl) t cost _)

/-- What a node is born with. -/
def Node.origin (n : Node P T) : Option Nat × Stage × Nat × P × Option T × List T :=
  (n.parent, n.stage, n.siblingIndex, n.program, n.transformation, n.history)

/-- A node after a move was there before, or is a candidate that was proposed for one that was. -/
theorem Tree.Move.node? {proposes : Node P T → Candidate P T → Prop} {t t' : Tree P T}
    (hmove : Tree.Move proposes t t') {i : Nat} {n' : Node P T} (hn : t'.node? i = some n') :
    (∃ n, t.node? i = some n ∧ n.origin = n'.origin) ∨
      ∃ p pn c, t.node? p = some pn ∧ proposes pn c ∧ c.Becomes pn p n' := by
  cases hmove with
  | @measure j m cost h _ =>
    refine Or.inl ((Tree.Agree.modify t j fun m' hm => ?_).node? hn)
    rw [h] at hm
    cases hm
    rfl
  | @expand p pn kids h hkids =>
    have hmarked : Tree.Agree Node.origin t (t.modify p Node.markExpanded) :=
      Tree.Agree.modify t p fun _ _ => rfl
    unfold Tree.expandedBy at hn
    rcases Nat.lt_or_ge i (t.modify p Node.markExpanded).size with hlt | hge
    · obtain ⟨m, hm, rfl⟩ := Tree.node?_withChildren_old hlt hn
      obtain ⟨n, hn', horigin⟩ := hmarked.node? hm
      refine Or.inl ⟨n, hn', horigin.trans ?_⟩
      split_ifs <;> rfl
    · obtain ⟨-, c, hproposes, hbecomes⟩ := hkids n' (Tree.node?_withChildren_new hge hn)
      exact Or.inr ⟨p, pn, c, h, hproposes, hbecomes⟩
  | backup j cost => exact Or.inl ((Tree.Agree.recordAll (fun _ _ => rfl) t cost _).node? hn)

/-- A move keeps every node and what it was born with. -/
theorem Tree.Move.exists_node? {proposes : Node P T → Candidate P T → Prop} {t t' : Tree P T}
    (hmove : Tree.Move proposes t t') {i : Nat} {n : Node P T} (hn : t.node? i = some n) :
    ∃ n', t'.node? i = some n' ∧ n'.origin = n.origin := by
  cases hmove with
  | @measure j m cost h _ =>
    refine (Tree.Agree.modify t j fun m' hm => ?_).symm.node? hn
    rw [h] at hm
    cases hm
    rfl
  | @expand p pn kids h hkids =>
    have hmarked : Tree.Agree Node.origin t (t.modify p Node.markExpanded) :=
      Tree.Agree.modify t p fun _ _ => rfl
    obtain ⟨m, hm, horigin⟩ := hmarked.symm.node? hn
    unfold Tree.expandedBy
    rw [Tree.node?_withChildren_of_lt p kids (Tree.lt_size_of_node? hm), hm]
    split_ifs
    · exact ⟨_, rfl, horigin⟩
    · exact ⟨m, rfl, horigin⟩
  | backup j cost =>
    have hrecorded : Tree.Agree Node.origin t (t.recordAll cost (t.pathToRoot j)) :=
      Tree.Agree.recordAll (fun _ _ => rfl) t cost _
    exact hrecorded.symm.node? hn

/-! ## The operations as moves -/

/-- An expansion is a move, unless the generator fails or there is no such node. -/
theorem Expander.expand_moves (x : Expander P T O σ) (t : Tree P T) (i : Nat)
    (classification : Classification O) :
    Tree.Moves (x.pipeline.Proposes classification) t (x.expand t i classification).2.1 ∧
      (x.expand t i classification).2.2.pipeline = x.pipeline := by
  cases h : t.node? i with
  | none =>
    unfold expand
    rw [h]
    exact ⟨.refl, rfl⟩
  | some n =>
    rw [expand_eq h]
    obtain ⟨memory, hx⟩ := x.candidates_expander n i classification
    rcases hc : x.candidates n i classification with ⟨_ | candidates, x'⟩
    · rw [hc] at hx
      cases hx
      exact ⟨.refl, rfl⟩
    · obtain ⟨stream, hlimit⟩ := x'.limit_expander candidates
      refine ⟨.single (.expand h fun kid hkid => ?_), ?_⟩
      · obtain ⟨c, hmem, hbecomes⟩ := Candidate.exists_of_mem_toNodes hkid
        obtain ⟨hexpanded, hproposes⟩ :=
          proposes_of_mem_candidates (congrArg Prod.fst hc) (mem_of_mem_limit hmem)
        exact ⟨hexpanded, c, hproposes, hbecomes⟩
      · rw [hc] at hx
        show (x'.limit candidates).2.pipeline = _
        rw [hlimit, show x' = _ from hx]

namespace Growth

/-- A growth that has gone on: its tree has moved, and the search still has its pipeline. -/
structure Reaches (classification : Classification O) (g g' : Growth P T O σ ε) : Prop where
  moves : Tree.Moves (g.search.expander.pipeline.Proposes classification) g.tree g'.tree
  config_eq : g'.search.config = g.search.config
  pipeline_eq : g'.search.expander.pipeline = g.search.expander.pipeline

variable {classification : Classification O} {g g' g'' : Growth P T O σ ε}

theorem Reaches.refl (g : Growth P T O σ ε) : Reaches classification g g := ⟨.refl, rfl, rfl⟩

theorem Reaches.trans (h : Reaches classification g g') (h' : Reaches classification g' g'') :
    Reaches classification g g'' where
  moves := h.moves.trans (h.pipeline_eq ▸ h'.moves)
  config_eq := h'.config_eq.trans h.config_eq
  pipeline_eq := h'.pipeline_eq.trans h.pipeline_eq

variable (classification)

theorem measure_reaches (g : Growth P T O σ ε) (i : Nat) :
    Reaches classification g (g.measure i).2 := by
  cases h : g.tree.node? i with
  | none =>
    rw [measure_of_none h]
    exact Reaches.refl g
  | some n =>
    rw [measure_eq h]
    refine ⟨.single (.measure h fun c hc => ?_), rfl, rfl⟩
    rw [Meter.measure_of_evaluation hc]

theorem backup_reaches (g : Growth P T O σ ε) (i : Nat) (cost : Float) :
    Reaches classification g (g.backup i cost).2 := by
  unfold backup Tree.backup
  split_ifs
  · exact ⟨.single (.backup g.tree i cost), rfl, rfl⟩
  · exact Reaches.refl g

theorem expand_reaches (g : Growth P T O σ ε) (i : Nat) (n : Node P T) :
    Reaches classification g (g.expand classification i n).2 := by
  obtain ⟨hmoves, hpipeline⟩ := g.search.expander.expand_moves g.tree i classification
  unfold expand
  rw [show (if n.expanded then g.search else g.search.countExpansion) = g.counted n from rfl]
  simp only [counted_expander]
  exact ⟨hmoves, counted_config g n, hpipeline⟩

theorem sweepRound_reaches (round i : Nat) (s : Sweep) (g : Growth P T O σ ε) :
    Reaches classification g (g.sweepRound classification round i s).2 := by
  cases h : g.tree.node? i with
  | none =>
    rw [sweepRound_of_none h]
    exact Reaches.refl g
  | some n =>
    rw [sweepRound_eq h]
    obtain ⟨memory, hx⟩ := g.search.expander.candidates_expander n i classification
    rcases hc : g.search.expander.candidates n i classification with ⟨_ | candidates, x⟩
    · rw [hc] at hx
      cases hx
      exact ⟨.refl, counted_config g n, rfl⟩
    · rw [hc] at hx
      cases hx
      refine ⟨.single (.expand h fun kid hkid => ?_), counted_config g n, rfl⟩
      obtain ⟨e, he, rfl⟩ := List.mem_map.mp hkid
      obtain ⟨-, c, hmem, hbecomes⟩ := exists_of_mem_sweepKids he
      obtain ⟨hexpanded, hproposes⟩ :=
        Expander.proposes_of_mem_candidates (congrArg Prod.fst hc) hmem
      exact ⟨hexpanded, c, hproposes, hbecomes⟩

variable {classification}

/-- What an operation does to the tree is a chain of moves. -/
theorem Operation.reaches {strategy : Strategy} (h : Operation classification strategy g g') :
    Reaches classification g g' := by
  cases h with
  | measure => exact measure_reaches classification g _
  | expand => exact expand_reaches classification g _ _
  | backup => exact backup_reaches classification g _ _
  | sweepRound => exact sweepRound_reaches classification _ _ _ g

theorem Run.reaches {strategy : Strategy} (h : Run classification strategy g g') :
    Reaches classification g g' := by
  induction h with
  | refl => exact Reaches.refl g
  | tail _ hoperation ih => exact ih.trans hoperation.reaches

variable (classification)

theorem searchRound_reaches (round : Nat) (g : Growth P T O σ ε) :
    Reaches classification g (g.searchRound classification round).2 :=
  (searchRound_run classification round g).reaches

theorem searchRounds_reaches (count round : Nat) (g : Growth P T O σ ε) :
    Reaches classification g (searchRounds classification count round g).2 :=
  (searchRounds_run classification count round g).reaches

theorem treeSearch_reaches (rounds : Nat) (g : Growth P T O σ ε) :
    Reaches classification g (g.treeSearch classification rounds).2 :=
  (treeSearch_run classification rounds g).reaches

end Growth

namespace Search

variable (classification : Classification O)

/-- Growing a tree is a chain of moves, whatever its result is. -/
theorem grow_moves (s : Search P T O σ ε) (tree : Tree P T) (rounds : Nat) :
    Tree.Moves (s.expander.pipeline.Proposes classification) tree
      (s.grow tree classification rounds).2.1 := by
  rw [tree_grow]
  exact (s.grown_run classification tree rounds).reaches.moves

end Search

end LoopTuner
