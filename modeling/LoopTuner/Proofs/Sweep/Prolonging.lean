import LoopTuner.Proofs.Calls.Accounts
import LoopTuner.Proofs.Growth.Independence
import LoopTuner.Proofs.Sweep.Regrowth

/-!
# Longer sweeps

A best-first search with more rounds first does the same as one with fewer. So the tree of the shorter
search is an initial segment of that of the longer one (`Tree.InitialSegment`), and the node that the longer
search returns is not more expensive (`Search.initialSegment_of_le`). The searches may be two, if their
parties answer without memory.
-/

namespace LoopTuner

variable {P T O σ ε : Type}

/-- What becomes of a measured node: it can be expanded and get its children, once. -/
structure Node.GrowsInto (n n' : Node P T) : Prop where
  origin_eq : n'.origin = n.origin
  evaluation_eq : n'.evaluation = n.evaluation
  children : n'.children = n.children ∨ n.children = #[]
  expanded : n'.expanded = n.expanded ∨ n.expanded = false

/-- Every node of the first tree has its number in the second one, and at most grew there. -/
def Tree.InitialSegment (t t' : Tree P T) : Prop :=
  ∀ i n, t.node? i = some n → ∃ n', t'.node? i = some n' ∧ n.GrowsInto n'

/-- If all nodes are measured, and only expanded ones have children, then what stays is all but the growth
of nodes. -/
theorem Tree.Keeps.initialSegment {t t' : Tree P T} (h : t.Keeps t')
    (hmeasured : ∀ i n, t.node? i = some n → ∃ cost, n.evaluation = some cost)
    (hchildren : ∀ i n, t.node? i = some n → n.expanded = false → n.children = #[]) :
    t.InitialSegment t' := by
  intro i n hn
  obtain ⟨n', hn', hkept⟩ := h i n hn
  obtain ⟨cost, hcost⟩ := hmeasured i n hn
  have hevaluation : n'.evaluation = n.evaluation := (hkept.evaluation cost hcost).trans hcost.symm
  refine ⟨n', hn', ?_⟩
  cases hexpanded : n.expanded with
  | false =>
    exact ⟨hkept.origin, hevaluation, Or.inr (hchildren i n hn hexpanded), Or.inr hexpanded⟩
  | true =>
    obtain ⟨hmark, hsame⟩ := hkept.children hexpanded
    exact ⟨hkept.origin, hevaluation, Or.inl hsame, Or.inl (hmark.trans hexpanded.symm)⟩

namespace Search

variable {s s' : Search P T O σ ε}

/-- More rounds of one search keep what fewer rounds found. -/
theorem keeps_of_le (hs : s.config.strategy = .bestFirst) {t t₁ t₂ : Tree P T}
    {classification : Classification O} {rounds rounds' best best' : Nat} {u₁ u₂ : Search P T O σ ε}
    (hle : rounds ≤ rounds') (h₁ : s.grow t classification rounds = (.ok best, t₁, u₁))
    (h₂ : s.grow t classification rounds' = (.ok best', t₂, u₂)) : t₁.Keeps t₂ := by
  obtain ⟨g₁, g₁', hadvance₁, hgrown₁, rfl, -⟩ := exists_advance_of_grow h₁
  obtain ⟨g₂, g₂', hadvance₂, hgrown₂, rfl, -⟩ := exists_advance_of_grow h₂
  -- the result of a best-first search is there when its rounds are over
  obtain ⟨_, hswept₁⟩ := grown_of_swept hs hadvance₁
  obtain ⟨_, hswept₂⟩ := grown_of_swept hs hadvance₂
  obtain rfl : g₁ = g₁' := (Prod.mk.inj (hswept₁.symm.trans hgrown₁)).2
  obtain rfl : g₂ = g₂' := (Prod.mk.inj (hswept₂.symm.trans hgrown₂)).2
  obtain ⟨more, rfl⟩ := Nat.exists_eq_add_of_le hle
  have hrun := s.advance_run t classification rounds more
  rw [hadvance₁, hadvance₂] at hrun
  exact hrun.keeps

/-- With more rounds, a best-first search grows a tree that begins with the one it grows with fewer, and
returns a node that is not more expensive. -/
theorem initialSegment_of_le (hkin : s.Kin s') (hs : s.config.strategy = .bestFirst)
    (hstateless : s.Stateless) (hp : s.expander.pipeline.NeverFails) {root : Node P T}
    (hchildren : root.children = #[]) (hexpanded : root.expanded = false)
    (hnumber : ∀ c, root.evaluation = some c → c.isNaN = false) (classification : Classification O)
    {rounds rounds' : Nat} (hle : rounds ≤ rounds') :
    ∃ best best' t t' u u' cost cost',
      s.grow (.ofRoot root) classification rounds = (.ok best, t, u) ∧
      s'.grow (.ofRoot root) classification rounds' = (.ok best', t', u') ∧
      t.InitialSegment t' ∧ t.evaluationOf best = some cost ∧ t'.evaluationOf best' = some cost' ∧
      ¬ cost < cost' := by
  obtain ⟨r, best, u, -, hgrow, -, -, hmeasured, hbest⟩ :=
    grow_eq_naive hs hp hexpanded hnumber classification rounds
  obtain ⟨r', best', u', -, hgrow', -, -, hmeasured', hbest'⟩ :=
    grow_eq_naive hs hp hexpanded hnumber classification rounds'
  obtain ⟨memory, evaluatorMemory, hsame⟩ :=
    grow_of_kin hkin hstateless (.ofRoot root) classification rounds'
  have hgrown : Tree.Grown (fun _ => True) root r.tree := by
    have h : Tree.Grown (fun _ => True) root (s.grow (.ofRoot root) classification rounds).2.1 :=
      .grow .root s trivial classification rounds
    rwa [hgrow] at h
  have hsegment : r.tree.InitialSegment r'.tree :=
    (keeps_of_le hs hle hgrow hgrow').initialSegment (fun i n hn => ⟨_, hmeasured i n hn⟩)
      (hgrown.aligned hchildren).children_eq
  obtain ⟨n, hn⟩ := Tree.exists_node? hbest.best_lt
  obtain ⟨n', hn', hgrows⟩ := hsegment best n hn
  obtain ⟨m, hm⟩ := Tree.exists_node? hbest'.best_lt
  rw [hgrow'] at hsame
  refine ⟨best, best', r.tree, r'.tree, u, _, _, _, hgrow, hsame, hsegment,
    (Tree.evaluationOf_of_node? hn).trans (hmeasured best n hn),
    (Tree.evaluationOf_of_node? hm).trans (hmeasured' best' m hm), ?_⟩
  have hcost : r'.tree.costOf best = r.tree.costOf best :=
    Tree.costOf_of_node? hn' (hgrows.evaluation_eq.trans (hmeasured best n hn))
  rw [← hcost]
  exact hbest'.not_lt best (Tree.lt_size_of_node? hn')

/-- Two numbers follow on every number, in two phases. The longer search was used before. -/
theorem initialSegment_of_le_numbers :
    let generator : Generator Nat Nat Unit Unit := .pure fun n _ _ =>
      .ok [.extending n (2 * n.program) 0, .extending n (2 * n.program + 1) 1]
    let evaluator : Evaluator Nat Nat Nat := fun n calls => (.ok (100 - n.program.toFloat), calls + 1)
    let s : Search Nat Nat Unit Unit Nat :=
      ⟨⟨0, 1, 0, .bestFirst⟩, ⟨[⟨.tiling, generator⟩, ⟨.interchange, generator⟩], 1, .ofSeed 0, ()⟩,
        .create evaluator 0, .zero⟩
    let used := (s.grow (.ofRoot (.root 3 0)) .empty 1).2.2
    s.Kin used ∧ s.config.strategy = .bestFirst ∧ s.Stateless ∧ s.expander.pipeline.NeverFails ∧
      ∃ best best' t t' u u' cost cost',
        s.grow (.ofRoot (.root 1 0)) .empty 1 = (.ok best, t, u) ∧
        used.grow (.ofRoot (.root 1 0)) .empty 3 = (.ok best', t', u') ∧
        t.InitialSegment t' ∧ t.evaluationOf best = some cost ∧ t'.evaluationOf best' = some cost' ∧
        ¬ cost < cost' := by
  intro generator evaluator s used
  have hkin : s.Kin used := s.kin_grow (.ofRoot (.root 3 0)) .empty 1
  have hphase : ∀ phase ∈ s.expander.pipeline, phase.propose = generator := by
    intro phase hphase
    rcases List.mem_cons.mp hphase with rfl | hphase
    · rfl
    · rw [List.mem_singleton.mp hphase]
  have hstateless : s.Stateless := by
    refine ⟨fun phase hmem n stage classification memory memory' => ?_, fun _ _ _ => rfl⟩
    rw [hphase phase hmem]
  have hp : s.expander.pipeline.NeverFails := by
    intro phase hmem n stage classification memory
    rw [hphase phase hmem]
    exact ⟨_, rfl⟩
  exact ⟨hkin, rfl, hstateless, hp, initialSegment_of_le hkin rfl hstateless hp rfl rfl
    (fun c hc => by cases hc) .empty (show 1 ≤ 3 by decide)⟩

end Search

end LoopTuner
