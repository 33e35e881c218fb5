import LoopTuner.Proofs.Random.Sampling
import LoopTuner.Proofs.Tree.Nodes
import LoopTuner.Search.Run
import Mathlib.Tactic.SplitIfs

/-!
# What the operations of a growth do

For each operation of a search at work, the tree and the search that it leaves: measuring stores a
cost that a node does not have yet, and expanding marks a node and adds the candidates that its
phase proposes.
-/

namespace LoopTuner

variable {P T O σ ε : Type}

/-! ## Candidates -/

/-- The candidates that a pipeline can propose for a node. -/
def Pipeline.Proposes (p : Pipeline P T O σ) (classification : Classification O) (n : Node P T)
    (c : Candidate P T) : Prop :=
  ∃ phase memory candidates, p[n.stage]? = some phase ∧
    (phase.propose n n.stage classification memory).1 = .ok candidates ∧ c ∈ candidates

namespace Expander

/-- A generator is asked about a node that is not expanded and has a phase. -/
theorem phase_cases (x : Expander P T O σ) (n : Node P T) :
    (n.expanded = true ∨ x.pipeline.length ≤ n.stage) ∨
      ∃ phase, n.expanded = false ∧ x.pipeline[n.stage]? = some phase := by
  cases hphase : x.pipeline[n.stage]? with
  | none => exact Or.inl (Or.inr (List.getElem?_eq_none_iff.mp hphase))
  | some phase =>
    cases hexpanded : n.expanded with
    | true => exact Or.inl (Or.inl rfl)
    | false => exact Or.inr ⟨phase, rfl, rfl⟩

variable {x x' : Expander P T O σ} {n : Node P T} {i : Nat} {classification : Classification O}

theorem candidates_of_idle (h : n.expanded = true ∨ x.pipeline.length ≤ n.stage) (i : Nat)
    (classification : Classification O) :
    x.candidates n i classification = (.ok [], x) := by
  unfold candidates
  rcases h with hexpanded | hstage
  · rw [hexpanded]
    cases x.pipeline[n.stage]? <;> rfl
  · rw [List.getElem?_eq_none hstage]

/-- The answer of the phase decides. -/
theorem candidates_of_phase {phase : Phase P T O σ} (hexpanded : n.expanded = false)
    (hphase : x.pipeline[n.stage]? = some phase) (i : Nat) (classification : Classification O) :
    x.candidates n i classification =
      ((phase.propose n n.stage classification x.memory).1.mapError
          (·.within (.candidates phase.kind i n.stage)),
        { x with memory := (phase.propose n n.stage classification x.memory).2 }) := by
  unfold candidates
  simp only [hphase, hexpanded, Bool.false_eq_true, if_false]
  rcases phase.propose n n.stage classification x.memory with ⟨_ | _, _⟩ <;> rfl

/-- Asking for candidates changes nothing but what the generators remember. -/
theorem candidates_expander (x : Expander P T O σ) (n : Node P T) (i : Nat)
    (classification : Classification O) :
    ∃ memory, (x.candidates n i classification).2 = { x with memory := memory } := by
  rcases x.phase_cases n with hidle | ⟨phase, hexpanded, hphase⟩
  · rw [candidates_of_idle hidle]
    exact ⟨x.memory, rfl⟩
  · rw [candidates_of_phase hexpanded hphase]
    exact ⟨_, rfl⟩

/-- Candidates are those that the phase proposes, and without a phase there are none. -/
theorem candidates_ok_cases {candidates : List (Candidate P T)}
    (h : x.candidates n i classification = (.ok candidates, x')) :
    (n.expanded = true ∨ x.pipeline.length ≤ n.stage) ∧ candidates = [] ∧ x' = x ∨
      ∃ phase, n.expanded = false ∧ x.pipeline[n.stage]? = some phase ∧
        phase.propose n n.stage classification x.memory = (.ok candidates, x'.memory) := by
  rcases x.phase_cases n with hidle | ⟨phase, hexpanded, hphase⟩
  · rw [candidates_of_idle hidle] at h
    cases h
    exact Or.inl ⟨hidle, rfl, rfl⟩
  · rw [candidates_of_phase hexpanded hphase] at h
    rcases hpropose : phase.propose n n.stage classification x.memory with ⟨_ | _, memory⟩
    · rw [hpropose] at h
      cases h
    · rw [hpropose] at h
      cases h
      exact Or.inr ⟨phase, hexpanded, hphase, hpropose⟩

/-- An expander passes on the errors of its generators and has none of its own. -/
theorem exists_of_candidates_error {e : Error} (h : x.candidates n i classification = (.error e, x')) :
    ∃ phase e', n.expanded = false ∧ x.pipeline[n.stage]? = some phase ∧
      e = e'.within (.candidates phase.kind i n.stage) ∧
      phase.propose n n.stage classification x.memory = (.error e', x'.memory) := by
  rcases x.phase_cases n with hidle | ⟨phase, hexpanded, hphase⟩
  · rw [candidates_of_idle hidle] at h
    cases h
  · rw [candidates_of_phase hexpanded hphase] at h
    rcases hpropose : phase.propose n n.stage classification x.memory with ⟨e' | _, memory⟩
    · rw [hpropose] at h
      cases h
      exact ⟨phase, e', hexpanded, hphase, rfl, hpropose⟩
    · rw [hpropose] at h
      cases h

theorem proposes_of_mem_candidates {candidates : List (Candidate P T)}
    (h : (x.candidates n i classification).1 = .ok candidates) {c : Candidate P T}
    (hc : c ∈ candidates) : n.expanded = false ∧ x.pipeline.Proposes classification n c := by
  rcases candidates_ok_cases (Prod.ext h rfl) with ⟨-, rfl, -⟩ | ⟨phase, hexpanded, hphase, hpropose⟩
  · cases hc
  · exact ⟨hexpanded, phase, x.memory, candidates, hphase, congrArg Prod.fst hpropose, hc⟩

/-- Limiting the candidates keeps some of them and advances the stream. -/
theorem limit_expander (x : Expander P T O σ) (candidates : List (Candidate P T)) :
    ∃ stream, (x.limit candidates).2 = { x with stream := stream } := by
  unfold limit
  split_ifs
  · exact ⟨_, rfl⟩
  · exact ⟨x.stream, rfl⟩

/-- The kept candidates keep their order. -/
theorem limit_sublist (x : Expander P T O σ) (candidates : List (Candidate P T)) :
    (x.limit candidates).1.Sublist candidates := by
  unfold limit
  split_ifs
  · exact Random.sample_sublist candidates x.cap x.stream
  · exact List.Sublist.refl _

theorem mem_of_mem_limit {x : Expander P T O σ} {candidates : List (Candidate P T)}
    {c : Candidate P T} (h : c ∈ (x.limit candidates).1) : c ∈ candidates :=
  (x.limit_sublist candidates).subset h

theorem length_limit (x : Expander P T O σ) (candidates : List (Candidate P T)) :
    (x.limit candidates).1.length = min candidates.length x.cap := by
  unfold limit
  split_ifs with hmany
  · rw [Nat.min_eq_right (Nat.le_of_lt hmany)]
    exact Random.length_sample (Nat.le_of_lt hmany) x.stream
  · exact (Nat.min_eq_left (Nat.not_lt.mp hmany)).symm

/-- Up to the cap, all candidates are kept and nothing is drawn. -/
theorem limit_of_length_le {x : Expander P T O σ} {candidates : List (Candidate P T)}
    (h : candidates.length ≤ x.cap) : x.limit candidates = (candidates, x) := by
  unfold limit
  rw [if_neg (Nat.not_lt.mpr h)]

theorem limit_nil (x : Expander P T O σ) : x.limit [] = ([], x) :=
  limit_of_length_le (Nat.zero_le _)

end Expander

/-! ## New nodes -/

/-- The nodes that a candidate can become below node `i`: measured or not, at any place among the
children. -/
def Candidate.Becomes (c : Candidate P T) (n : Node P T) (i : Nat) (kid : Node P T) : Prop :=
  ∃ offset evaluation, kid = { c.toNode n i offset with evaluation := evaluation }

theorem Candidate.exists_of_mem_toNodes {candidates : List (Candidate P T)} {n kid : Node P T}
    {i : Nat} (h : kid ∈ Candidate.toNodes candidates n i) :
    ∃ c ∈ candidates, c.Becomes n i kid := by
  unfold Candidate.toNodes at h
  obtain ⟨offset, hlt, rfl⟩ := List.mem_mapIdx.mp h
  exact ⟨_, List.getElem_mem hlt, offset, none, rfl⟩

theorem Candidate.evaluation_of_mem_toNodes {candidates : List (Candidate P T)} {n kid : Node P T}
    {i : Nat} (h : kid ∈ Candidate.toNodes candidates n i) : kid.evaluation = none := by
  obtain ⟨_, _, rfl⟩ := List.mem_mapIdx.mp h
  rfl

theorem Candidate.expanded_of_mem_toNodes {candidates : List (Candidate P T)} {n kid : Node P T}
    {i : Nat} (h : kid ∈ Candidate.toNodes candidates n i) : kid.expanded = false := by
  obtain ⟨_, _, rfl⟩ := List.mem_mapIdx.mp h
  rfl

theorem Candidate.Becomes.measured {c : Candidate P T} {n kid : Node P T} {i : Nat}
    (h : c.Becomes n i kid) (cost : Float) : c.Becomes n i { kid with evaluation := some cost } := by
  obtain ⟨offset, evaluation, rfl⟩ := h
  exact ⟨offset, some cost, rfl⟩

/-! ## Measuring -/

namespace Meter

/-- Measuring stores the cost on the node. -/
theorem measure_node (m : Meter P T ε) (n : Node P T) :
    (m.measure n).2.1 = { n with evaluation := some (m.measure n).1 } := by
  unfold measure
  cases h : n.evaluation with
  | some cost =>
    simp only
    rw [← h]
  | none =>
    simp only
    cases usable? (m.evaluator n m.memory).1 <;> rfl

theorem evaluator_measure (m : Meter P T ε) (n : Node P T) :
    (m.measure n).2.2.evaluator = m.evaluator := by
  unfold measure
  split
  · rfl
  · simp only
    split <;> rfl

theorem evaluator_measureAll (m : Meter P T ε) (nodes : List (Node P T)) :
    (m.measureAll nodes).2.evaluator = m.evaluator := by
  induction nodes generalizing m with
  | nil => rfl
  | cons n nodes ih => exact (ih (m.measure n).2.2).trans (evaluator_measure m n)

/-- A stored cost stays. -/
theorem measure_of_evaluation {m : Meter P T ε} {n : Node P T} {cost : Float}
    (h : n.evaluation = some cost) : m.measure n = (cost, n, m) := by
  unfold measure
  rw [h]

/-- Measuring keeps the nodes in their places. -/
theorem getElem?_measureAll {m : Meter P T ε} {nodes : List (Node P T)} {k : Nat}
    {e : Float × Node P T} (h : (m.measureAll nodes).1[k]? = some e) :
    ∃ n, nodes[k]? = some n ∧ e.2 = { n with evaluation := some e.1 } := by
  induction nodes generalizing m k with
  | nil => cases h
  | cons n nodes ih =>
    unfold measureAll at h
    cases k with
    | zero =>
      cases h
      exact ⟨n, rfl, measure_node m n⟩
    | succ k => exact ih h

theorem mem_measureAll {m : Meter P T ε} {nodes : List (Node P T)} {e : Float × Node P T}
    (h : e ∈ (m.measureAll nodes).1) :
    ∃ n ∈ nodes, e.2 = { n with evaluation := some e.1 } := by
  obtain ⟨k, hk⟩ := List.mem_iff_getElem?.mp h
  obtain ⟨n, hn, he⟩ := getElem?_measureAll hk
  exact ⟨n, List.mem_of_getElem? hn, he⟩

end Meter

namespace Growth

theorem measure_eq {g : Growth P T O σ ε} {i : Nat} {n : Node P T} (h : g.tree.node? i = some n) :
    g.measure i =
      (.ok (g.search.meter.measure n).1,
        ⟨{ g.search with meter := (g.search.meter.measure n).2.2 },
          g.tree.modify i fun _ => { n with evaluation := some (g.search.meter.measure n).1 }⟩) := by
  unfold measure
  rw [h]
  simp only [Meter.measure_node]

theorem measure_of_none {g : Growth P T O σ ε} {i : Nat} (h : g.tree.node? i = none) :
    g.measure i = (.error (.violation (.noNode i)), g) := by
  unfold measure
  rw [h]

theorem statistics_measure (g : Growth P T O σ ε) (i : Nat) :
    (g.measure i).2.search.statistics = g.search.statistics := by
  cases hn : g.tree.node? i with
  | none => rw [measure_of_none hn]
  | some n => rw [measure_eq hn]

theorem expander_measure (g : Growth P T O σ ε) (i : Nat) :
    (g.measure i).2.search.expander = g.search.expander := by
  cases hn : g.tree.node? i with
  | none => rw [measure_of_none hn]
  | some n => rw [measure_eq hn]

end Growth

/-! ## Expanding -/

/-- The tree in which node `i` is expanded and has the given new children. -/
def Tree.expandedBy (t : Tree P T) (i : Nat) (kids : List (Node P T)) : Tree P T :=
  (t.modify i Node.markExpanded).withChildren i kids

theorem Tree.size_expandedBy (t : Tree P T) (i : Nat) (kids : List (Node P T)) :
    (t.expandedBy i kids).size = t.size + kids.length := by
  unfold expandedBy
  rw [size_withChildren, size_modify]

/-- Of the nodes that were there, only the expanded one changes. -/
theorem Tree.node?_expandedBy_old {t : Tree P T} {i j : Nat} {kids : List (Node P T)}
    {n' : Node P T} (hj : j < t.size) (h : (t.expandedBy i kids).node? j = some n') :
    ∃ n, t.node? j = some n ∧
      n' = if j = i then n.markExpanded.adoptAll (List.range' t.size kids.length) else n := by
  unfold expandedBy at h
  obtain ⟨m, hm, rfl⟩ := node?_withChildren_old ((size_modify t i _).symm ▸ hj) h
  rw [node?_modify] at hm
  by_cases hi : i = j
  · rw [if_pos hi] at hm
    obtain ⟨n, hn, rfl⟩ := Option.map_eq_some_iff.mp hm
    exact ⟨n, hn, by rw [if_pos hi, if_pos hi.symm, size_modify]⟩
  · rw [if_neg hi] at hm
    exact ⟨m, hm, by rw [if_neg hi, if_neg (Ne.symm hi)]⟩

theorem Tree.node?_expandedBy_new (t : Tree P T) (i k : Nat) (kids : List (Node P T)) :
    (t.expandedBy i kids).node? (t.size + k) = kids[k]? := by
  unfold expandedBy
  rw [node?_withChildren_of_ge _ _ (by rw [size_modify]; exact Nat.le_add_right _ _), size_modify,
    Nat.add_sub_cancel_left]

/-- Of a node that was there, an expansion changes the mark and the children at most. -/
theorem Tree.bind_node?_expandedBy {α : Type} {f : Node P T → Option α}
    (hf : ∀ n indices, f (n.markExpanded.adoptAll indices) = f n) {t : Tree P T} {j : Nat} (i : Nat)
    (kids : List (Node P T)) (hj : j < t.size) :
    ((t.expandedBy i kids).node? j).bind f = (t.node? j).bind f := by
  obtain ⟨n', hn'⟩ := exists_node? (t := t.expandedBy i kids) (i := j) (by
    rw [size_expandedBy]
    exact Nat.lt_add_right _ hj)
  obtain ⟨n, hn, rfl⟩ := node?_expandedBy_old hj hn'
  rw [hn', hn, Option.bind_some, Option.bind_some]
  split_ifs
  · exact hf n _
  · rfl

/-- New nodes are taken as children. -/
theorem Tree.addChildren_markExpanded {t : Tree P T} {i : Nat} {n : Node P T}
    (h : t.node? i = some n) {kids : List (Node P T)}
    (hkids : ∀ kid ∈ kids, ∃ c : Candidate P T, c.Becomes n i kid) :
    (t.modify i Node.markExpanded).addChildren i kids =
      (.ok (List.range' t.size kids.length), t.expandedBy i kids) := by
  have hmarked := Tree.node?_modify_self Node.markExpanded h
  rw [Tree.addChildren_eq hmarked, Tree.size_modify]
  · rfl
  · intro kid hkid
    obtain ⟨c, offset, evaluation, rfl⟩ := hkids kid hkid
    exact ⟨rfl, rfl⟩

/-- A generator that fails leaves the tree alone; otherwise the kept candidates become the
children. -/
theorem Expander.expand_eq {x : Expander P T O σ} {t : Tree P T} {i : Nat} {n : Node P T}
    (h : t.node? i = some n) (classification : Classification O) :
    x.expand t i classification =
      match x.candidates n i classification with
      | (.error e, x') => (.error (.error e), t, x')
      | (.ok candidates, x') =>
        (.ok (List.range' t.size (x'.limit candidates).1.length),
          t.expandedBy i (Candidate.toNodes (x'.limit candidates).1 n i), (x'.limit candidates).2) := by
  unfold expand
  rw [h]
  simp only
  rcases hc : x.candidates n i classification with ⟨_ | candidates, x'⟩
  · rfl
  · simp only
    rw [Tree.addChildren_markExpanded h]
    · simp only [Candidate.toNodes, List.length_mapIdx]
    · intro kid hkid
      obtain ⟨c, -, hbecomes⟩ := Candidate.exists_of_mem_toNodes hkid
      exact ⟨c, hbecomes⟩

namespace Growth

/-- The search of a growth once it has counted an expansion of the node. -/
def counted (g : Growth P T O σ ε) (n : Node P T) : Search P T O σ ε :=
  if n.expanded then g.search else g.search.countExpansion

theorem counted_config (g : Growth P T O σ ε) (n : Node P T) :
    (g.counted n).config = g.search.config := by
  unfold counted
  split_ifs <;> rfl

theorem counted_expander (g : Growth P T O σ ε) (n : Node P T) :
    (g.counted n).expander = g.search.expander := by
  unfold counted
  split_ifs <;> rfl

theorem counted_meter (g : Growth P T O σ ε) (n : Node P T) :
    (g.counted n).meter = g.search.meter := by
  unfold counted
  split_ifs <;> rfl

theorem counted_rounds (g : Growth P T O σ ε) (n : Node P T) :
    (g.counted n).statistics.rounds = g.search.statistics.rounds := by
  unfold counted
  split_ifs <;> rfl

theorem expand_eq {g : Growth P T O σ ε} {i : Nat} {n : Node P T} (h : g.tree.node? i = some n)
    (classification : Classification O) :
    g.expand classification i n =
      match g.search.expander.candidates n i classification with
      | (.error e, x) => (.error (.error e), ⟨{ g.counted n with expander := x }, g.tree⟩)
      | (.ok candidates, x) =>
        (.ok (List.range' g.tree.size (x.limit candidates).1.length),
          ⟨{ g.counted n with expander := (x.limit candidates).2 },
            g.tree.expandedBy i (Candidate.toNodes (x.limit candidates).1 n i)⟩) := by
  unfold expand
  rw [show (if n.expanded then g.search else g.search.countExpansion) = g.counted n from rfl]
  simp only [counted_expander, Expander.expand_eq h]
  rcases g.search.expander.candidates n i classification with ⟨_ | candidates, x⟩ <;> rfl

/-- A selected node that has a phase is expanded; otherwise nothing happens. -/
theorem expandSelected_cases (g : Growth P T O σ ε) (classification : Classification O) (i : Nat) :
    (g.expandSelected classification i).2 = g ∨
      ∃ n, g.tree.node? i = some n ∧ n.stage ≤ g.search.expander.lastStage ∧
        g.expandSelected classification i = g.expand classification i n := by
  unfold expandSelected
  cases hn : g.tree.node? i with
  | none => exact Or.inl rfl
  | some n =>
    simp only
    split_ifs with hstage
    · exact Or.inr ⟨n, rfl, hstage, rfl⟩
    · exact Or.inl rfl

/-- The measured candidates of a node in the order in which a sweep adds them. -/
def sweepKids (m : Meter P T ε) (candidates : List (Candidate P T)) (n : Node P T) (i : Nat) :
    List (Float × Node P T) :=
  sortMeasured (m.measureAll (Candidate.toNodes candidates n i)).1

theorem sweepKids_nil (m : Meter P T ε) (n : Node P T) (i : Nat) : sweepKids m [] n i = [] :=
  List.mergeSort_nil

theorem exists_of_mem_sweepKids {m : Meter P T ε} {candidates : List (Candidate P T)}
    {n : Node P T} {i : Nat} {e : Float × Node P T} (h : e ∈ sweepKids m candidates n i) :
    e.2.evaluation = some e.1 ∧ ∃ c ∈ candidates, c.Becomes n i e.2 := by
  unfold sweepKids sortMeasured at h
  rw [List.mem_mergeSort] at h
  obtain ⟨kid, hkid, he⟩ := Meter.mem_measureAll h
  obtain ⟨c, hc, hbecomes⟩ := Candidate.exists_of_mem_toNodes hkid
  rw [he]
  exact ⟨rfl, c, hc, hbecomes.measured e.1⟩

theorem sweepRound_of_none {g : Growth P T O σ ε} {i : Nat} (h : g.tree.node? i = none)
    (classification : Classification O) (round : Nat) (s : Sweep) :
    g.sweepRound classification round i s = (.error (.violation (.noNode i)), g) := by
  unfold sweepRound
  rw [h]

/-- A round of a sweep leaves the tree alone if the generator fails; otherwise all candidates become
children. -/
theorem sweepRound_eq {g : Growth P T O σ ε} {i : Nat} {n : Node P T}
    (h : g.tree.node? i = some n) (classification : Classification O) (round : Nat) (s : Sweep) :
    g.sweepRound classification round i s =
      match g.search.expander.candidates n i classification with
      | (.error e, x) =>
        (.error (.error (e.within (.bestFirstLevel round))),
          ⟨{ g.counted n with expander := x }, g.tree⟩)
      | (.ok candidates, x) =>
        let kids := sweepKids g.search.meter candidates n i
        (.ok (s.pushAll ((kids.map (·.1)).zip (List.range' g.tree.size kids.length))),
          ⟨{ g.counted n with
              expander := x
              meter := (g.search.meter.measureAll (Candidate.toNodes candidates n i)).2 }.countRound,
            g.tree.expandedBy i (kids.map (·.2))⟩) := by
  unfold sweepRound
  rw [h]
  simp only
  rw [show (if n.expanded then g.search else g.search.countExpansion) = g.counted n from rfl]
  simp only [counted_expander, counted_meter]
  rcases hc : g.search.expander.candidates n i classification with ⟨_ | candidates, x⟩
  · rfl
  · simp only
    rw [Tree.addChildren_markExpanded h]
    · simp only [List.length_map]
      rfl
    · intro kid hkid
      obtain ⟨e, he, rfl⟩ := List.mem_map.mp hkid
      obtain ⟨-, c, -, hbecomes⟩ := exists_of_mem_sweepKids he
      exact ⟨c, hbecomes⟩

/-- A round that does not fail is counted. -/
theorem rounds_of_sweepRound {g g' : Growth P T O σ ε} {classification : Classification O}
    {round i : Nat} {s s' : Sweep} (h : g.sweepRound classification round i s = (.ok s', g')) :
    g'.search.statistics.rounds = g.search.statistics.rounds + 1 := by
  cases hn : g.tree.node? i with
  | none =>
    rw [sweepRound_of_none hn] at h
    cases h
  | some n =>
    rw [sweepRound_eq hn] at h
    rcases hc : g.search.expander.candidates n i classification with ⟨_ | candidates, x⟩
    · rw [hc] at h
      cases h
    · rw [hc] at h
      cases h
      exact congrArg (· + 1) (counted_rounds g n)

end Growth

end LoopTuner
