import LoopTuner.Proofs.Sweep.Naive
import Mathlib.Data.List.Forall2

/-!
# Candidate trees

If the generators answer by rules and the evaluator by the program alone, then everything that a search
can find below a node is known in advance: it is the tree of all candidates, level by level to the end of
the pipeline (`Finding.full`), a tree with ordered branches (`Rose`). A search tree can show such a tree at
one of its nodes (`Tree.Shows`). What an expansion finds is the next level, in the order of its costs
(`Growth.entries_sweepKids`).
-/

namespace LoopTuner

/-- A finite tree with its branches in order. -/
inductive Rose (α : Type) where
  | node (label : α) (branches : List (Rose α))

namespace Rose

variable {α : Type}

def label : Rose α → α
  | node a _ => a

mutual

/-- The labels of a tree, parents before their branches. -/
def labels : Rose α → List α
  | node a branches => a :: labelsAll branches

/-- The labels of several trees. -/
def labelsAll : List (Rose α) → List α
  | [] => []
  | b :: bs => labels b ++ labelsAll bs

end

theorem labelsAll_eq (bs : List (Rose α)) : labelsAll bs = bs.flatMap labels := by
  induction bs with
  | nil => rfl
  | cons b bs ih => rw [labelsAll, ih, List.flatMap_cons]

theorem labels_node (a : α) (bs : List (Rose α)) : (node a bs).labels = a :: bs.flatMap labels := by
  rw [labels, labelsAll_eq]

theorem labels_ne_nil (b : Rose α) : b.labels ≠ [] := by
  cases b
  rw [labels_node]
  exact List.cons_ne_nil _ _

mutual

/-- The tree with the branches everywhere in the order of their labels; equal ones keep their order. -/
def arrange (le : α → α → Bool) : Rose α → Rose α
  | node a branches => node a ((arrangeAll le branches).mergeSort fun b c => le b.label c.label)

/-- Arranges several trees, and leaves these in their order. -/
def arrangeAll (le : α → α → Bool) : List (Rose α) → List (Rose α)
  | [] => []
  | b :: bs => arrange le b :: arrangeAll le bs

end

theorem arrangeAll_eq (le : α → α → Bool) (bs : List (Rose α)) :
    arrangeAll le bs = bs.map (arrange le) := by
  induction bs with
  | nil => rfl
  | cons b bs ih => rw [arrangeAll, ih, List.map_cons]

@[simp] theorem label_arrange (le : α → α → Bool) (b : Rose α) : (b.arrange le).label = b.label := by
  cases b
  rfl

/-- Branches can be put into order before they are arranged themselves. -/
theorem arrange_node (le : α → α → Bool) (a : α) (bs : List (Rose α)) :
    (node a bs).arrange le =
      node a ((bs.mergeSort fun b c => le b.label c.label).map (arrange le)) := by
  rw [arrange, arrangeAll_eq, ← List.map_mergeSort]
  intro b _ c _
  rw [label_arrange, label_arrange]

end Rose

/-! ## Findings -/

variable {P T O σ ε : Type}

/-- What a search finds out about a node, apart from its place in the tree. -/
structure Finding (P T : Type) where
  program : P
  transformation : Option T
  history : List T
  evaluation : Option Float

def Node.finding (n : Node P T) : Finding P T :=
  ⟨n.program, n.transformation, n.history, n.evaluation⟩

namespace Finding

/-- The cost that was found, infinite if there is none. -/
def cost (f : Finding P T) : Float := f.evaluation.getD Cost.infinity

/-- The order in which a sweep adds its findings. -/
def le (a b : Finding P T) : Bool := Cost.le a.cost b.cost

end Finding

/-! ## Generators and evaluators by rule -/

/-- The candidates of a phase as a function of program, history, stage and classification. -/
abbrev Rule (P T O : Type) := P → List T → Stage → Classification O → List (Candidate P T)

/-- The generators never fail, and answer by the rules whatever they remember. -/
def Pipeline.Follows (p : Pipeline P T O σ) (rules : List (Rule P T O)) : Prop :=
  List.Forall₂ (fun phase rule => ∀ (n : Node P T) (stage : Stage) (classification : Classification O)
    (memory : σ), (phase.propose n stage classification memory).1 =
      .ok (rule n.program n.history stage classification)) p rules

/-- The evaluator answers by the program of a node, whatever it remembers. -/
def Evaluator.Follows (e : Evaluator P T ε) (answer : P → Except Error Float) : Prop :=
  ∀ n memory, (e n memory).1 = answer n.program

/-- The cost of an answer; without a usable one it is infinite. -/
def Meter.costOf (answer : Except Error Float) : Float := (usable? answer).getD Cost.infinity

/-! ## The tree of all candidates -/

section Full

variable (answer : P → Except Error Float) (classification : Classification O)

/-- What is found at a node of this candidate. -/
def Candidate.found (c : Candidate P T) : Finding P T :=
  ⟨c.program, some c.transformation, c.history, some (Meter.costOf (answer c.program))⟩

namespace Finding

/-- All candidates of a finding by the rules, from its stage on. -/
def full : List (Rule P T O) → Stage → Finding P T → Rose (Finding P T)
  | [], _, f => .node f []
  | rule :: rules, stage, f =>
    .node f ((rule f.program f.history stage classification).map fun c =>
      full rules (stage + 1) (c.found answer))

/-- The candidates that the rule of a stage has for a finding. -/
def offers (rules : List (Rule P T O)) (stage : Stage) (f : Finding P T) : List (Candidate P T) :=
  match rules[stage]? with
  | none => []
  | some rule => rule f.program f.history stage classification

/-- The full tree goes on with the candidates of the stage. -/
theorem full_drop (rules : List (Rule P T O)) (stage : Stage) (f : Finding P T) :
    full answer classification (rules.drop stage) stage f =
      .node f ((offers classification rules stage f).map fun c =>
        full answer classification (rules.drop (stage + 1)) (stage + 1) (c.found answer)) := by
  unfold offers
  cases h : rules[stage]? with
  | none =>
    rw [List.drop_eq_nil_of_le (List.getElem?_eq_none_iff.mp h)]
    rfl
  | some rule =>
    obtain ⟨hlt, rfl⟩ := List.getElem?_eq_some_iff.mp h
    rw [List.drop_eq_getElem_cons hlt]
    rfl

theorem label_full (rules : List (Rule P T O)) (stage : Stage) (f : Finding P T) :
    (full answer classification rules stage f).label = f := by
  cases rules <;> rfl

/-- What is found right below a finding, in the order in which a sweep adds it. -/
def next (rules : List (Rule P T O)) (stage : Stage) (f : Finding P T) : List (Finding P T) :=
  ((offers classification rules stage f).map (·.found answer)).mergeSort le

theorem next_of_drop_eq_nil {rules : List (Rule P T O)} {stage : Stage} (h : rules.drop stage = [])
    (f : Finding P T) : next answer classification rules stage f = [] := by
  unfold next offers
  rw [List.getElem?_eq_none (List.drop_eq_nil_iff.mp h)]
  exact List.mergeSort_nil

/-- Everything that is found from a finding on, by its stage. -/
def below (rules : List (Rule P T O)) (entry : Finding P T × Stage) : List (Finding P T) :=
  (full answer classification (rules.drop entry.2) entry.2 entry.1).labels

/-- That is the finding itself, and everything from its candidates on. -/
theorem below_perm (rules : List (Rule P T O)) (stage : Stage) (f : Finding P T) :
    (below answer classification rules (f, stage)).Perm
      (f :: ((next answer classification rules stage f).map fun c => (c, stage + 1)).flatMap
        (below answer classification rules)) := by
  unfold below
  rw [full_drop, Rose.labels_node, List.flatMap_map, List.flatMap_map]
  refine List.Perm.cons f ?_
  unfold next
  refine .trans ?_ (((List.mergeSort_perm _ le).symm).flatMap_right _)
  rw [List.flatMap_map]

/-- Arranged, the full tree goes on with the candidates in the order of their costs. -/
theorem arrange_full (rules : List (Rule P T O)) (stage : Stage) (f : Finding P T) :
    (full answer classification (rules.drop stage) stage f).arrange le =
      .node f ((next answer classification rules stage f).map fun c =>
        (full answer classification (rules.drop (stage + 1)) (stage + 1) c).arrange le) := by
  have hsorted : ((offers classification rules stage f).map fun c =>
        full answer classification (rules.drop (stage + 1)) (stage + 1) (c.found answer)).mergeSort
          (fun b c => le b.label c.label) =
      (next answer classification rules stage f).map
        (full answer classification (rules.drop (stage + 1)) (stage + 1)) := by
    unfold next
    rw [List.map_mergeSort, List.map_map]
    · rfl
    · intro a _ b _
      rw [label_full, label_full]
  rw [full_drop, Rose.arrange_node, hsorted, List.map_map]
  rfl

end Finding

/-- What is found at a root once it is measured. -/
def Node.rootFinding (root : Node P T) : Finding P T :=
  { root.finding with evaluation := some (root.evaluation.getD (Meter.costOf (answer root.program))) }

/-- All candidates below a root. -/
def Node.candidateTree (rules : List (Rule P T O)) (root : Node P T) : Rose (Finding P T) :=
  Finding.full answer classification (rules.drop root.stage) root.stage (root.rootFinding answer)

end Full

/-! ## Search trees -/

/-- What is found at a node, with the stage of its candidates. -/
def Node.entry (n : Node P T) : Finding P T × Stage := (n.finding, n.stage)

namespace Tree

variable {t : Tree P T}

def entryOf (t : Tree P T) (i : Nat) : Option (Finding P T × Stage) :=
  (t.node? i).bind fun n => some n.entry

theorem entryOf_of_node? {i : Nat} {n : Node P T} (h : t.node? i = some n) :
    t.entryOf i = some n.entry := by
  unfold entryOf
  rw [h]
  rfl

theorem lt_size_of_entryOf {i : Nat} {entry : Finding P T × Stage} (h : t.entryOf i = some entry) :
    i < t.size := by
  obtain ⟨n, hn, -⟩ := Option.bind_eq_some_iff.mp h
  exact lt_size_of_node? hn

theorem entryOf_expandedBy_old {i : Nat} (p : Nat) (kids : List (Node P T)) (hi : i < t.size) :
    (t.expandedBy p kids).entryOf i = t.entryOf i :=
  bind_node?_expandedBy (fun _ _ => rfl) p kids hi

theorem map_entryOf_expandedBy (t : Tree P T) (i : Nat) (kids : List (Node P T)) :
    (List.range' t.size kids.length).map (t.expandedBy i kids).entryOf =
      kids.map fun kid => some kid.entry := by
  have hlength : ((List.range' t.size kids.length).map (t.expandedBy i kids).entryOf).length =
      (kids.map fun kid => some kid.entry).length := by
    rw [List.length_map, List.length_range', List.length_map]
  refine List.ext_getElem hlength fun k hk hk' => ?_
  rw [List.length_map] at hk'
  rw [List.getElem_map, List.getElem_range', Nat.one_mul, List.getElem_map]
  refine entryOf_of_node? ?_
  rw [node?_expandedBy_new, List.getElem?_eq_getElem hk']

/-- Below node `i` the tree has these findings, with the same edges and the same order of siblings. -/
inductive Shows (t : Tree P T) : Nat → Rose (Finding P T) → Prop
  | node {i : Nat} {n : Node P T} {branches : List (Rose (Finding P T))} (h : t.node? i = some n)
      (hbranches : List.Forall₂ t.Shows n.children.toList branches) :
      Shows t i (.node n.finding branches)

end Tree

/-! ## Operations by rule -/

section Rules

variable {rules : List (Rule P T O)} {answer : P → Except Error Float}

/-- The generators offer the candidates of the rules. -/
theorem Pipeline.Follows.generate {p : Pipeline P T O σ} (hp : p.Follows rules)
    (classification : Classification O) (n : Node P T) (memory : σ) :
    ∃ memory', p.generate classification n memory =
      (.ok (Finding.offers classification rules n.stage n.finding), memory') := by
  unfold Pipeline.generate Finding.offers
  rcases Nat.lt_or_ge n.stage p.length with hlt | hge
  · have hlt' : n.stage < rules.length := hp.length_eq ▸ hlt
    have hpropose := hp.get hlt hlt' n n.stage classification memory
    rw [List.getElem?_eq_getElem hlt, List.getElem?_eq_getElem hlt']
    exact ⟨_, Prod.ext hpropose rfl⟩
  · rw [List.getElem?_eq_none hge, List.getElem?_eq_none (hp.length_eq ▸ hge)]
    exact ⟨memory, rfl⟩

namespace Meter

variable {m : Meter P T ε}

/-- The cost of a node is the stored one, or that of its program. -/
theorem measure_of_follows (h : m.evaluator.Follows answer) (n : Node P T) :
    (m.measure n).1 = n.evaluation.getD (costOf (answer n.program)) := by
  unfold measure
  cases n.evaluation with
  | some cost => rfl
  | none =>
    simp only [h n m.memory, Option.getD_none]
    unfold costOf
    cases usable? (answer n.program) <;> rfl

/-- Measured nodes without a cost get those of their programs. -/
theorem measureAll_of_follows (h : m.evaluator.Follows answer) {nodes : List (Node P T)}
    (hnodes : ∀ n ∈ nodes, n.evaluation = none) :
    (m.measureAll nodes).1 = nodes.map fun n =>
      (costOf (answer n.program), { n with evaluation := some (costOf (answer n.program)) }) := by
  induction nodes generalizing m with
  | nil => rfl
  | cons n nodes ih =>
    have hcost : (m.measure n).1 = costOf (answer n.program) := by
      rw [measure_of_follows h, hnodes n List.mem_cons_self]
      rfl
    have hrest := ih (m := (m.measure n).2.2) ((evaluator_measure m n).symm ▸ h)
      fun n' hn' => hnodes n' (List.mem_cons_of_mem _ hn')
    unfold measureAll
    simp only [hrest, measure_node, hcost, List.map_cons]

end Meter

/-- What a sweep finds at the new nodes of an expansion. -/
theorem Growth.entries_sweepKids {m : Meter P T ε} (h : m.evaluator.Follows answer)
    (candidates : List (Candidate P T)) (n : Node P T) (i : Nat) :
    ((sweepKids m candidates n i).map fun e => e.2.entry) =
      ((candidates.map (·.found answer)).mergeSort Finding.le).map fun f => (f, n.stage + 1) := by
  unfold sweepKids sortMeasured
  rw [Meter.measureAll_of_follows h fun _ => Candidate.evaluation_of_mem_toNodes,
    List.map_mergeSort (s := fun a b => Finding.le a.1 b.1),
    List.map_mergeSort (s := fun a b => Finding.le a.1 b.1)]
  · congr 1
    rw [List.map_map, List.map_map]
    refine List.ext_getElem? fun k => ?_
    unfold Candidate.toNodes
    rw [List.getElem?_map, List.getElem?_mapIdx, List.getElem?_map, Option.map_map]
    rfl
  · intro a _ b _
    rfl
  · intro a ha b hb
    obtain ⟨_, _, rfl⟩ := List.mem_map.mp ha
    obtain ⟨_, _, rfl⟩ := List.mem_map.mp hb
    rfl

end Rules

end LoopTuner
