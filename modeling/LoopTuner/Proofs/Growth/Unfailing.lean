import LoopTuner.Proofs.Growth.Independence
import LoopTuner.Proofs.Growth.Refusals
import LoopTuner.Proofs.Growth.Replay
import LoopTuner.Proofs.Growth.Usable
import LoopTuner.Proofs.Kernel.Applicable
import LoopTuner.Proofs.Kernel.Iterations

/-!
# Searches over kernels do not fail

Every kernel in a search tree has the ids of the kernel at the root, so the generators can always answer
(`Growth.not_refused`). With a valid configuration and at least one kind of transformation, a search over
a kernel that was read from a text therefore returns a measured node, whatever its evaluator does
(`Search.run_never_fails`).
-/

namespace LoopTuner

variable {P T O σ ε : Type}

/-! ## Kernels in a tree -/

section Linked

variable {kinds : List Kind} {t : Tree Kernel Step} {k : Kernel} {stage : Stage} {i : Nat}
  {n : KernelNode}

theorem Tree.Linked.reshaped (ht : t.Linked kinds (.root k stage)) (hn : t.node? i = some n) :
    List.Forall₂ Nest.Reshaped k.nests n.program.nests := by
  obtain ⟨steps, hsteps⟩ := ht.replays rfl hn
  exact Kernel.reshaped_of_applyAll hsteps.replay (Nest.reshaped_refl k.nests)

/-- Each step of a chain leads one stage further. -/
theorem Tree.Linked.length_history (ht : t.Linked kinds (.root k 0)) (hn : t.node? i = some n) :
    n.history.length = n.stage := by
  obtain ⟨root, hroot, horigin⟩ := ht.root_eq
  obtain ⟨steps, hsteps⟩ := ht.replays rfl hn
  have hstage : root.stage = 0 := congrArg (·.2.1) horigin
  have hpath := ht.wellFormed.length_pathToRoot hroot hn
  rw [hstage, Nat.add_zero, ← hsteps.length_eq] at hpath
  rw [show n.history = [] ++ steps from hsteps.history_eq, List.nil_append]
  exact Nat.add_right_cancel hpath

/-- The kernels of a tree can be worked on: each nest has a loop that runs innermost, and no loop is cut
into tiles of size zero. -/
theorem Tree.Linked.workable (ht : t.Linked kinds (.root k stage)) (hk : ∀ m ∈ k.nests, m.Declared)
    (hn : t.node? i = some n) :
    ∀ nest ∈ n.program.nests, nest.loops ≠ [] ∧
      ∀ l ∈ nest.loops, ∀ size, l.tile = some size → 0 < size := by
  obtain ⟨steps, hsteps⟩ := ht.replays rfl hn
  have hstepped := Kernel.stepped_of_applyAll hsteps.replay
    (List.forall₂_same.mpr fun m hm => Nest.stepped_of_declared (hk m hm))
  intro nest hnest
  obtain ⟨declared, hdeclared, hnest⟩ := exists_of_forall₂_of_mem hstepped hnest
  obtain ⟨front, last, -, hloops⟩ := hk declared hdeclared
  refine ⟨fun hnil => ?_, fun l hl size hsize => (hnest.divided l hl size hsize).1⟩
  have hlength := hnest.perm.length_eq
  rw [hnil, hloops] at hlength
  simp at hlength

end Linked

/-! ## Generators -/

/-- The generators of a kernel search answer for every node of its tree. -/
theorem Growth.not_refused {g : Growth Kernel Step Nat σ ε} {stages : List (Kind × Option (List Nat))}
    {kinds : List Kind} {k : Kernel} {stage : Stage}
    (hp : g.search.expander.pipeline = Proposals.phases stages)
    (ht : g.tree.Linked kinds (.root k stage)) : ¬ g.Refused k.classify := by
  rintro ⟨i, n, e, hn, herror⟩
  rw [hp] at herror
  unfold Pipeline.generate Proposals.phases at herror
  rw [List.getElem?_map] at herror
  cases hstage : stages[n.stage]? with
  | none =>
    rw [hstage] at herror
    cases herror
  | some entry =>
    obtain ⟨candidates, hcandidates⟩ :=
      Proposals.exists_candidates (Nest.map_id_of_reshaped (ht.reshaped hn)) entry.1 entry.2
    rw [hstage] at herror
    have hpropose : Proposals.candidates (Proposals.ofKind entry.1 entry.2) n k.classify = .error e :=
      herror
    rw [hcandidates] at hpropose
    cases hpropose

/-! ## Searches -/

/-- What a search returns: a measured node outside of any tree. -/
structure Node.Returned (n : Node P T) : Prop where
  measured : ∃ cost, n.evaluation = some cost ∧ cost.isNaN = false ∧ ¬ (cost.isInf = true ∧ cost < 0)
  parent_eq : n.parent = none
  children_eq : n.children = #[]
  length_history : n.history.length = n.stage

/-- What the arithmetic of a search relies on: visits that fit into 32 bits, nests with an innermost loop,
and tiles that one can divide by. -/
structure Node.Workable (n : KernelNode) : Prop where
  visits_lt : n.visits < 2 ^ 32
  loops_ne : ∀ nest ∈ n.program.nests, nest.loops ≠ []
  tile_pos : ∀ nest ∈ n.program.nests, ∀ l ∈ nest.loops, ∀ size, l.tile = some size → 0 < size

namespace Search

/-- No node is visited more often than there are rounds. -/
theorem visits_le_of_treeFrom {s : Search P T O σ ε} {program : P} {stage : Stage}
    {classification : Classification O} {rounds i : Nat} {n : Node P T}
    (hn : (s.treeFrom (.root program stage) classification rounds).node? i = some n) :
    n.visits ≤ rounds := by
  rw [← Tree.visitsOf_of_node? hn]
  cases hs : s.config.strategy with
  | treeSearch =>
    obtain ⟨result, t, s', hgrow, hbalanced, -, hends⟩ := grow_balanced hs
      (Tree.balanced_ofRoot s.expander.lastStage program stage) classification rounds
    have hdone : s'.statistics.rounds ≤ rounds := by
      rcases hends with ⟨-, hdone⟩ | ⟨-, hlt⟩
      · exact Nat.le_of_eq hdone
      · exact Nat.le_of_lt hlt
    have hle := hbalanced.visitsOf_le (i := i)
    unfold treeFrom at hn ⊢
    rw [hgrow] at hn ⊢
    exact (hle (Tree.lt_size_of_node? hn)).trans (by rwa [Nat.zero_add])
  | bestFirst =>
    unfold treeFrom at hn ⊢
    rw [visitsOf_grow hs]
    unfold Tree.visitsOf
    cases hm : (Tree.ofRoot (Node.root program stage : Node P T)).node? i with
    | none => exact Nat.zero_le rounds
    | some m =>
      obtain ⟨-, rfl⟩ := Tree.node?_ofRoot hm
      exact Nat.zero_le rounds

/-- A run takes the node that its growth returns out of the tree. -/
theorem run_eq_ok {s : Search P T O σ ε} {root m : Node P T} {classification : Classification O}
    {rounds best : Nat} (h : (s.grow (.ofRoot root) classification rounds).1 = .ok best)
    (hm : (s.treeFrom root classification rounds).node? best = some m) :
    (s.run root classification rounds).1 = .ok m.detached := by
  unfold treeFrom at hm
  unfold run
  rcases hgrow : s.grow (.ofRoot root) classification rounds with ⟨_ | i, t, s'⟩
  · rw [hgrow] at h
    cases h
  · rw [hgrow] at h hm
    cases h
    simp only at hm
    simp only [Tree.detach, hm]

section Kernel

variable {s : Search Kernel Step Nat σ ε} {stages : List (Kind × Option (List Nat))}
  (hs : s.expander.pipeline = Proposals.phases stages) (k : Kernel)

include hs

/-- A growth over a kernel has a result. -/
theorem exists_best (stage : Stage) (rounds : Nat) :
    ∃ best, (s.grow (.ofRoot (.root k stage)) k.classify rounds).1 = .ok best := by
  rcases s.grow_root_cases k stage k.classify rounds with hok | ⟨g, hrun, hrefused⟩
  · exact hok
  · have hreaches := hrun.reaches
    have hmoves := hreaches.moves
    rw [show (Growth.mk s.restart _).search.expander.pipeline = _ from hs] at hmoves
    have hlinked := hmoves.preserve Tree.Linked.move (Tree.linked_ofRoot _ (.root k stage) rfl rfl)
    exact absurd hrefused (Growth.not_refused (hreaches.pipeline_eq.trans hs) hlinked)

theorem exists_returned (rounds : Nat) :
    ∃ n, (s.run (.root k 0) k.classify rounds).1 = .ok n ∧ n.Returned := by
  obtain ⟨best, hbest⟩ := exists_best hs k 0 rounds
  have hroot : (Tree.ofRoot (.root k 0 : KernelNode)).Usable := Tree.usable_ofRoot rfl
  obtain ⟨cost, hcost⟩ := exists_cost_of_grow (Tree.wellFormed_ofRoot rfl rfl) hroot hbest
  have husable := s.usable_grow hroot k.classify rounds best cost hcost
  have hlinked := (Tree.linked_ofRoot (stages.map (·.1)) (.root k 0) rfl rfl).grow hs k.classify rounds
  obtain ⟨m, hm, hevaluation⟩ := Option.bind_eq_some_iff.mp hcost
  have hlength := hlinked.length_history hm
  refine ⟨m.detached, run_eq_ok hbest hm,
    ⟨cost, hevaluation, Cost.isNaN_of_isUsable husable, fun hinfinite => ?_⟩, rfl, rfl, hlength⟩
  rw [(Cost.isUsable_eq_false_iff cost).mpr (Or.inr hinfinite)] at husable
  cases husable

theorem workable_of_treeFrom (hk : ∀ n ∈ k.nests, n.Declared) {rounds : Nat}
    (hrounds : rounds < 2 ^ 32) {i : Nat} {n : KernelNode}
    (hn : (s.treeFrom (.root k 0) k.classify rounds).node? i = some n) : n.Workable := by
  have hlinked := (Tree.linked_ofRoot (stages.map (·.1)) (.root k 0) rfl rfl).grow hs k.classify rounds
  have hworkable := hlinked.workable hk hn
  exact {
    visits_lt := Nat.lt_of_le_of_lt (visits_le_of_treeFrom hn) hrounds
    loops_ne := fun nest hnest => (hworkable nest hnest).1
    tile_pos := fun nest hnest => (hworkable nest hnest).2 }

end Kernel

/-- With a valid configuration and any kinds of transformations, a search over a kernel text returns a
measured node, whatever its evaluator answers. It does so without a step that it may not take: no node is
visited too often, the generators can work on every kernel of the tree, and no cost is stored twice. -/
theorem run_never_fails {text : String} {k : Kernel} (hread : Kernel.read text = .ok k)
    {kinds : List Kind} (hkinds : kinds ≠ []) {config : Config} (hconfig : config.validate = .ok ())
    (evaluator : Evaluator Kernel Step ε) (memory : ε) {rounds : Nat} (hrounds : rounds < 2 ^ 32) :
    ∃ s, create config (Proposals.pipeline kinds) () evaluator memory = .ok s ∧
      (∃ n, (s.run (.root k 0) k.classify rounds).1 = .ok n ∧ n.Returned) ∧
      (∀ i n, (s.treeFrom (.root k 0) k.classify rounds).node? i = some n → n.Workable) ∧
      ∀ (m : Meter Kernel Step ε) n, n.evaluation = some (m.measure n).1 ∧ (m.measure n).2.1 = n ∨
        n.setEvaluation (m.measure n).1 = .ok (m.measure n).2.1 := by
  have hpipeline : (Proposals.pipeline kinds : Pipeline Kernel Step Nat Unit) =
      Proposals.phases (kinds.map (·, none)) := by
    unfold Proposals.pipeline Proposals.phases
    rw [List.map_map]
    rfl
  have hne : (Proposals.pipeline kinds : Pipeline Kernel Step Nat Unit) ≠ [] :=
    fun h => hkinds (List.map_eq_nil_iff.mp h)
  exact ⟨_, create_eq hconfig hne () evaluator memory, exists_returned hpipeline k rounds,
    fun i n hn => workable_of_treeFrom hpipeline k (Kernel.declared_of_read hread) hrounds hn,
    Meter.measure_eq_setEvaluation⟩

/-- An evaluator that fails at every other call, and answers with NaN at the others. -/
theorem run_never_fails_unmeasurable :
    let k : Kernel := ⟨[⟨"sum", .reduction, [.declare "i" 16 false, .declare "k" 4 true]⟩]⟩
    let evaluator : Evaluator Kernel Step Nat := fun _ calls =>
      (if calls % 2 = 0 then .error (.ofCause (.reported "busy")) else .ok (0 / 0), calls + 1)
    Kernel.read "sum reduction i=16 k=4" = .ok k ∧ [Kind.tiling, .vectorization] ≠ [] ∧
      Config.standard.validate = .ok () ∧ 3 < 2 ^ 32 ∧
      ∃ s, create .standard (Proposals.pipeline [.tiling, .vectorization]) () evaluator 0 = .ok s ∧
        (∃ n, (s.run (.root k 0) k.classify 3).1 = .ok n ∧ n.Returned) ∧
        (∀ i n, (s.treeFrom (.root k 0) k.classify 3).node? i = some n → n.Workable) ∧
        ∀ (m : Meter Kernel Step Nat) n,
          n.evaluation = some (m.measure n).1 ∧ (m.measure n).2.1 = n ∨
            n.setEvaluation (m.measure n).1 = .ok (m.measure n).2.1 := by
  intro k evaluator
  have hread : Kernel.read "sum reduction i=16 k=4" = .ok k := by rfl
  have hkinds : [Kind.tiling, .vectorization] ≠ [] := List.cons_ne_nil _ _
  have hconfig : Config.standard.validate = .ok () := by decide
  have hrounds : 3 < 2 ^ 32 := by decide
  exact ⟨hread, hkinds, hconfig, hrounds, run_never_fails hread hkinds hconfig evaluator 0 hrounds⟩

end Search

end LoopTuner
