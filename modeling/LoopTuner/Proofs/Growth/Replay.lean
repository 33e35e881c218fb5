import LoopTuner.Proofs.Growth.Moves
import LoopTuner.Proofs.Kernel.Candidates
import LoopTuner.Proofs.Kernel.Steps

/-!
# Histories can be replayed

Every edge of a search tree over kernels carries one step, of the kind of the stage that it leaves.
The history of a node lists the steps on the way down to it, and applying them to the kernel of the
root yields the kernel of the node (`Search.replays_of_grow`), also if the growth ends early.
-/

namespace LoopTuner

/-! ## The edges of a tree -/

/-- A node that lies one step below another one. -/
def Node.Follows (kinds : List Kind) (pn cn : KernelNode) (step : Step) : Prop :=
  cn.transformation = some step ∧ cn.history = pn.history ++ [step] ∧
    kinds[pn.stage]? = some step.kind ∧ step.apply pn.program = .ok cn.program

/-- The steps on the way down from the root to a node, one on each edge. -/
inductive Tree.Way (kinds : List Kind) (t : Tree Kernel Step) : Nat → List Step → Prop
  | root : Way kinds t rootIndex []
  | edge {p c : Nat} {pn cn : KernelNode} {steps : List Step} {step : Step}
      (hway : Way kinds t p steps) (hp : t.node? p = some pn) (hc : t.node? c = some cn)
      (hparent : cn.parent = some p) (hstep : cn.transformation = some step)
      (hkind : kinds[pn.stage]? = some step.kind) : Way kinds t c (steps ++ [step])

/-- The history of node `i` replays the way down to it. -/
structure Tree.Replays (kinds : List Kind) (root : KernelNode) (t : Tree Kernel Step) (i : Nat)
    (n : KernelNode) (steps : List Step) : Prop where
  way : t.Way kinds i steps
  length_eq : steps.length + 1 = (t.pathToRoot i).length
  history_eq : n.history = root.history ++ steps
  transformation_eq : n.transformation = steps.getLast?
  transformation_none : n.transformation = none ↔ i = rootIndex
  replay : Step.applyAll steps root.program = .ok n.program

/-- A node outside of its tree still has its history. -/
theorem Tree.Replays.detached {kinds : List Kind} {root : KernelNode} {t : Tree Kernel Step}
    {i : Nat} {n : KernelNode} {steps : List Step} (h : t.Replays kinds root i n steps) :
    t.Replays kinds root i n.detached steps :=
  ⟨h.way, h.length_eq, h.history_eq, h.transformation_eq, h.transformation_none, h.replay⟩

/-- What every growth from a root keeps: each edge carries a step. -/
structure Tree.Linked (kinds : List Kind) (root : KernelNode) (t : Tree Kernel Step) : Prop where
  wellFormed : t.WellFormed
  root_eq : ∃ n, t.node? rootIndex = some n ∧ n.origin = root.origin
  edge : ∀ c cn p pn, t.node? c = some cn → cn.parent = some p → t.node? p = some pn →
    ∃ step, Node.Follows kinds pn cn step

variable {kinds : List Kind} {root : KernelNode} {t t' : Tree Kernel Step}

theorem Node.Follows.congr {pn pn' cn cn' : KernelNode} {step : Step}
    (h : Follows kinds pn cn step) (hp : pn'.origin = pn.origin) (hc : cn'.origin = cn.origin) :
    Follows kinds pn' cn' step := by
  unfold Node.origin at hp hc
  simp only [Prod.mk.injEq] at hp hc
  obtain ⟨-, hstage, -, hprogram, -, hhistory⟩ := hp
  obtain ⟨-, -, -, hprogram', htransformation', hhistory'⟩ := hc
  unfold Follows
  rw [hstage, hprogram, hhistory, hprogram', htransformation', hhistory']
  exact h

/-- Along the way up, one step is added to the chain at each edge. -/
theorem Tree.Linked.replays (ht : t.Linked kinds root) (hroot : root.transformation = none) {i : Nat}
    {n : KernelNode} (hn : t.node? i = some n) : ∃ steps, t.Replays kinds root i n steps := by
  have hi := Tree.lt_size_of_node? hn
  induction i, hi using ht.wellFormed.rooted.induction_up generalizing n with
  | root =>
    obtain ⟨m, hm, horigin⟩ := ht.root_eq
    rw [show t.node? 0 = some m from hm] at hn
    cases hn
    unfold Node.origin at horigin
    simp only [Prod.mk.injEq] at horigin
    obtain ⟨-, -, -, hprogram, htransformation, hhistory⟩ := horigin
    refine ⟨[], .root, ?_, ?_, ?_, ?_, ?_⟩
    · rw [Tree.pathToRoot_of_root ht.wellFormed.parent_root]
      rfl
    · rw [hhistory, List.append_nil]
    · rw [htransformation, hroot]
      rfl
    · exact iff_of_true (htransformation.trans hroot) rfl
    · rw [hprogram]
      rfl
  | step i p h hp ih =>
    obtain ⟨pn, hpn⟩ := Tree.exists_node? hp
    obtain ⟨steps, hsteps⟩ := ih hpn
    have hparent : n.parent = some p := by rw [← Tree.parent?_of_node? hn, h]
    obtain ⟨step, htransformation, hhistory, hkind, happly⟩ := ht.edge i n p pn hn hparent hpn
    refine ⟨steps ++ [step], hsteps.way.edge hpn hn hparent htransformation hkind, ?_, ?_, ?_, ?_, ?_⟩
    · rw [ht.wellFormed.rooted.pathToRoot_of_parent h, List.length_cons, ← hsteps.length_eq,
        List.length_append, List.length_singleton]
    · rw [hhistory, hsteps.history_eq, List.append_assoc]
    · rw [htransformation, List.getLast?_concat]
    · have hpi := ht.wellFormed.rooted.parent?_lt h
      exact iff_of_false (by rw [htransformation]; exact Option.some_ne_none step)
        (Nat.ne_of_gt (Nat.zero_lt_of_lt hpi))
    · exact Step.applyAll_concat hsteps.replay happly

/-- A tree that is only a root has no edges. -/
theorem Tree.linked_ofRoot (kinds : List Kind) (root : KernelNode) (hparent : root.parent = none)
    (hchildren : root.children = #[]) : (Tree.ofRoot root).Linked kinds root where
  wellFormed := Tree.wellFormed_ofRoot hparent hchildren
  root_eq := ⟨root, rfl, rfl⟩
  edge c cn p pn hc hcp _ := by
    rw [(Tree.node?_ofRoot hc).2, hparent] at hcp
    cases hcp

/-! ## Growing keeps the edges -/

variable {σ ε : Type} {stages : List (Kind × Option (List Nat))} {classification : Classification Nat}

/-- A candidate lies one step below its node. -/
theorem follows_of_proposes {pn : KernelNode} {c : Candidate Kernel Step}
    (h : (Proposals.phases stages : Pipeline Kernel Step Nat σ).Proposes classification pn c)
    {p : Nat} {cn : KernelNode} (hbecomes : c.Becomes pn p cn) :
    ∃ step, Node.Follows (stages.map (·.1)) pn cn step := by
  obtain ⟨phase, memory, candidates, hphase, hpropose, hmem⟩ := h
  unfold Proposals.phases at hphase
  rw [List.getElem?_map, Option.map_eq_some_iff] at hphase
  obtain ⟨⟨kind, sizes⟩, hstage, rfl⟩ := hphase
  obtain ⟨step, program, ⟨_, _, _, _, -, -, -, hstep⟩, happly, rfl⟩ :=
    Proposals.exists_of_mem_candidates hpropose hmem
  obtain ⟨offset, evaluation, rfl⟩ := hbecomes
  refine ⟨step, rfl, rfl, ?_, happly⟩
  rw [List.getElem?_map, hstage, (Proposals.kind_of_mem_ofKind hstep).1]
  rfl

theorem Tree.Linked.move
    (hmove : Tree.Move
      ((Proposals.phases stages : Pipeline Kernel Step Nat σ).Proposes classification) t t')
    (ht : t.Linked (stages.map (·.1)) root) :
    t'.Linked (stages.map (·.1)) root where
  wellFormed := ht.wellFormed.move hmove
  root_eq := by
    obtain ⟨n, hn, horigin⟩ := ht.root_eq
    obtain ⟨n', hn', horigin'⟩ := hmove.exists_node? hn
    exact ⟨n', hn', horigin'.trans horigin⟩
  edge c cn' p pn' hc hparent hp := by
    rcases hmove.node? hc with ⟨cn, hcn, horigin⟩ | ⟨q, qn, candidate, hq, hproposes, hbecomes⟩
    · have hparent' : cn.parent = some p := (congrArg Prod.fst horigin).trans hparent
      have hlt := ht.wellFormed.rooted.parent?_lt ((Tree.parent?_of_node? hcn).trans hparent')
      obtain ⟨pn, hpn⟩ := Tree.exists_node? (Nat.lt_trans hlt (Tree.lt_size_of_node? hcn))
      obtain ⟨m, hm, horigin'⟩ := hmove.exists_node? hpn
      rw [hp] at hm
      cases hm
      obtain ⟨step, hfollows⟩ := ht.edge c cn p pn hcn hparent' hpn
      exact ⟨step, hfollows.congr horigin' horigin.symm⟩
    · have hqp : q = p := by
        obtain ⟨offset, evaluation, rfl⟩ := hbecomes
        exact Option.some.inj hparent
      subst hqp
      obtain ⟨m, hm, horigin⟩ := hmove.exists_node? hq
      rw [hp] at hm
      cases hm
      obtain ⟨step, hfollows⟩ := follows_of_proposes hproposes hbecomes
      exact ⟨step, hfollows.congr horigin rfl⟩

/-- The tree that a growth from a root leaves behind. -/
def Search.treeFrom {P T O σ ε : Type} (s : Search P T O σ ε) (root : Node P T)
    (classification : Classification O) (rounds : Nat) : Tree P T :=
  (s.grow (.ofRoot root) classification rounds).2.1

/-- A run returns a node of the tree that it grows, on its own. -/
theorem Search.exists_of_run {P T O σ ε : Type} {s : Search P T O σ ε} {root n : Node P T}
    {classification : Classification O} {rounds : Nat}
    (h : (s.run root classification rounds).1 = .ok n) :
    ∃ i m, (s.grow (.ofRoot root) classification rounds).1 = .ok i ∧
      (s.treeFrom root classification rounds).node? i = some m ∧ n = m.detached := by
  unfold run at h
  unfold treeFrom
  generalize s.grow (.ofRoot root) classification rounds = out at h ⊢
  rcases out with ⟨_ | best, tree, s'⟩
  · cases h
  · simp only [Tree.detach] at h
    cases hm : tree.node? best with
    | none =>
      rw [hm] at h
      cases h
    | some m =>
      rw [hm] at h
      cases h
      exact ⟨best, m, rfl, hm, rfl⟩

theorem Tree.Linked.grow {s : Search Kernel Step Nat σ ε}
    (hs : s.expander.pipeline = Proposals.phases stages)
    (ht : t.Linked (stages.map (·.1)) root) (classification : Classification Nat) (rounds : Nat) :
    (s.grow t classification rounds).2.1.Linked (stages.map (·.1)) root := by
  have hmoves := s.grow_moves classification t rounds
  rw [hs] at hmoves
  exact hmoves.preserve Tree.Linked.move ht

/-- Whatever the result of a growth is, the history of every node replays the way down to it, and so
does that of the node that a run returns. -/
theorem Search.replays_of_grow {s : Search Kernel Step Nat σ ε}
    (hs : s.expander.pipeline = Proposals.phases stages) (k : Kernel)
    (stage : Stage) (classification : Classification Nat) (rounds : Nat) :
    (∀ i n, (s.treeFrom (.root k stage) classification rounds).node? i = some n →
      ∃ steps, (s.treeFrom (.root k stage) classification rounds).Replays (stages.map (·.1))
        (.root k stage) i n steps) ∧
    ∀ n, (s.run (.root k stage) classification rounds).1 = .ok n →
      ∃ i m steps, (s.treeFrom (.root k stage) classification rounds).node? i = some m ∧
        n = m.detached ∧
        (s.treeFrom (.root k stage) classification rounds).Replays (stages.map (·.1))
          (.root k stage) i n steps := by
  have hlinked : (s.treeFrom (.root k stage) classification rounds).Linked (stages.map (·.1))
      (.root k stage) := (Tree.linked_ofRoot _ _ rfl rfl).grow hs classification rounds
  refine ⟨fun i n hn => hlinked.replays rfl hn, fun n h => ?_⟩
  obtain ⟨i, m, -, hm, rfl⟩ := exists_of_run h
  obtain ⟨steps, hsteps⟩ := hlinked.replays rfl hm
  exact ⟨i, m, steps, hm, rfl, hsteps.detached⟩

/-- One round of tree search gives the root a tiled child, and the run returns a node. -/
theorem Search.replays_of_grow_tiled :
    let s : Search Kernel Step Nat Unit Unit :=
      ⟨.standard, ⟨[Proposals.phase .tiling (some [4])], defaultCap, .ofSeed 0, ()⟩,
        .create (.pure fun _ => .ok 1) (), .zero⟩
    let k : Kernel := ⟨[⟨"copy", .elementwise, [.declare "i" 8 false]⟩]⟩
    let t := s.treeFrom (.root k 0) k.classify 1
    (∃ n, t.node? 1 = some n ∧ ∃ steps, t.Replays [.tiling] (.root k 0) 1 n steps) ∧
    ∃ n, (s.run (.root k 0) k.classify 1).1 = .ok n ∧
      ∃ i m steps, t.node? i = some m ∧ n = m.detached ∧
        t.Replays [.tiling] (.root k 0) i n steps := by
  intro s k t
  have hs : s.expander.pipeline = Proposals.phases [(.tiling, some [4])] := rfl
  have hall := replays_of_grow hs k 0 k.classify 1
  have hchild : (t.node? 1).isSome = true := by decide +kernel
  obtain ⟨n, hn⟩ := Option.isSome_iff_exists.mp hchild
  have hrun : (s.run (.root k 0) k.classify 1).1.isOk = true := by decide +kernel
  refine ⟨⟨n, hn, hall.1 1 n hn⟩, ?_⟩
  cases hm : (s.run (.root k 0) k.classify 1).1 with
  | error f =>
    rw [hm] at hrun
    cases hrun
  | ok m => exact ⟨m, rfl, hall.2 m hm⟩

end LoopTuner
