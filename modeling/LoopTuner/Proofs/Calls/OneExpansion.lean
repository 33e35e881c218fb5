import LoopTuner.Proofs.Calls.Recording

/-!
# One expansion

Expanding a node ends in one of three ways (`Expander.expand_exact`). Without a phase for its stage, or if it
was expanded before, the node is marked, and no generator is asked. If the generator fails, the tree and the
random stream stay as they were. And if it answers, then the candidates that are kept become the last children
of the node, in their order; the stream is only used if there are more candidates than the cap. No expansion
adds anything to a node a second time.
-/

namespace LoopTuner

variable {P T O σ : Type}

/-- The node that a candidate becomes as child of `n` at number `i`, if `n` has `siblings` children before it. -/
def Candidate.newNode (c : Candidate P T) (i : Nat) (n : Node P T) (siblings : Nat) : Node P T where
  parent := some i
  children := #[]
  stage := n.stage + 1
  siblingIndex := siblings
  visits := 0
  accumulated := .empty
  expanded := false
  evaluation := none
  program := c.program
  transformation := some c.transformation
  history := c.history

/-- The second tree is the first one with node `i` expanded: the kept candidates are the nodes behind those
that were there, in their order, and the last children of node `i`. Nothing else of the tree is different. -/
structure Tree.ExpandsTo (t : Tree P T) (i : Nat) (n : Node P T) (kept : List (Candidate P T))
    (t' : Tree P T) : Prop where
  size_eq : t'.size = t.size + kept.length
  node : t'.node? i = some { n with
    expanded := true
    children := n.children ++ (List.range' t.size kept.length).toArray }
  others : ∀ j, j < t.size → j ≠ i → t'.node? j = t.node? j
  new : ∀ offset, t'.node? (t.size + offset) =
    kept[offset]?.map fun c => c.newNode i n (n.children.size + offset)

namespace Tree

variable {t : Tree P T} {i : Nat} {n : Node P T}

theorem expandsTo_expandedBy (hn : t.node? i = some n) (kept : List (Candidate P T)) :
    t.ExpandsTo i n kept (t.expandedBy i (Candidate.toNodes kept n i)) := by
  have hlength : (Candidate.toNodes kept n i).length = kept.length := List.length_mapIdx
  have hold : ∀ j, j < t.size → ∃ m, t.node? j = some m ∧
      (t.expandedBy i (Candidate.toNodes kept n i)).node? j =
        some (if j = i then m.markExpanded.adoptAll (List.range' t.size kept.length) else m) := by
    intro j hj
    obtain ⟨m', hm'⟩ := exists_node? (t := t.expandedBy i (Candidate.toNodes kept n i)) (i := j) (by
      rw [size_expandedBy]
      exact Nat.lt_add_right _ hj)
    obtain ⟨m, hm, rfl⟩ := node?_expandedBy_old hj hm'
    exact ⟨m, hm, hlength ▸ hm'⟩
  refine ⟨by rw [size_expandedBy, hlength], ?_, fun j hj hne => ?_, fun offset => ?_⟩
  · obtain ⟨m, hm, hnode⟩ := hold i (lt_size_of_node? hn)
    cases hn.symm.trans hm
    rw [hnode, if_pos rfl]
    rfl
  · obtain ⟨m, hm, hnode⟩ := hold j hj
    rw [hnode, if_neg hne, hm]
  · rw [node?_expandedBy_new, Candidate.toNodes, List.getElem?_mapIdx]
    rfl

/-- Without new children, only the mark is set. -/
theorem expandedBy_nil (t : Tree P T) (i : Nat) : t.expandedBy i [] = t.modify i Node.markExpanded :=
  withChildren_nil _ i

end Tree

namespace Expander

variable {x : Expander P T O σ} {t : Tree P T} {i : Nat} {n : Node P T} {classification : Classification O}

/-! ## The three ways to end -/

theorem expand_recording (hn : t.node? i = some n) (x : Expander P T O σ)
    (classification : Classification O) (log : List (Generator.Call P T)) :
    (x.recording log).expand t i classification =
      ((x.expand t i classification).1, (x.expand t i classification).2.1,
        (x.expand t i classification).2.2.recording (log ++ x.calls n classification)) := by
  rw [expand_eq hn, expand_eq hn, candidates_recording]
  rcases x.candidates n i classification with ⟨_ | candidates, x'⟩
  · rfl
  · simp only [limit_recording]

theorem expand_of_idle (hn : t.node? i = some n)
    (h : n.expanded = true ∨ x.pipeline.length ≤ n.stage) :
    x.expand t i classification = (.ok [], t.modify i Node.markExpanded, x) := by
  rw [expand_eq hn, candidates_of_idle h]
  simp only [limit_nil, Candidate.toNodes, List.mapIdx_nil, Tree.expandedBy_nil, List.length_nil,
    List.range'_zero]

theorem expand_of_error {x' : Expander P T O σ} {e : Error} (hn : t.node? i = some n)
    (h : x.candidates n i classification = (.error e, x')) :
    x.expand t i classification = (.error (.error e), t, x') := by
  rw [expand_eq hn, h]

theorem expand_of_ok {x' : Expander P T O σ} {candidates : List (Candidate P T)} (hn : t.node? i = some n)
    (h : x.candidates n i classification = (.ok candidates, x')) :
    x.expand t i classification =
      (.ok (List.range' t.size (x'.limit candidates).1.length),
        t.expandedBy i (Candidate.toNodes (x'.limit candidates).1 n i), (x'.limit candidates).2) := by
  rw [expand_eq hn, h]

/-- An expansion that does not fail leaves an expanded node. -/
theorem expanded_of_expand (hn : t.node? i = some n) {indices : List Nat} {t' : Tree P T}
    {x' : Expander P T O σ} (h : x.expand t i classification = (.ok indices, t', x')) :
    ∃ n', t'.node? i = some n' ∧ n'.expanded = true := by
  rcases hc : x.candidates n i classification with ⟨_ | candidates, x₁⟩
  · rw [expand_of_error hn hc] at h
    cases h
  · rw [expand_of_ok hn hc] at h
    cases h
    exact ⟨_, (Tree.expandsTo_expandedBy hn _).node, rfl⟩

/-- What an expansion of node `i` makes of the candidates. Of those it keeps as many as the cap allows, in
their order, and it draws from the stream only if that leaves some of them out. -/
structure ExpandsBy (x : Expander P T O σ) (t : Tree P T) (i : Nat) (n : Node P T)
    (candidates kept : List (Candidate P T)) (stream : Random.Stream) (t' : Tree P T) : Prop where
  kept_sublist : kept.Sublist candidates
  length_kept : kept.length = min candidates.length x.cap
  of_length_le : candidates.length ≤ x.cap → kept = candidates ∧ stream = x.stream
  tree : t.ExpandsTo i n kept t'

theorem exists_expandsBy {memory : σ} {candidates : List (Candidate P T)} (hn : t.node? i = some n)
    (h : x.candidates n i classification = (.ok candidates, { x with memory := memory })) :
    ∃ kept stream t', x.ExpandsBy t i n candidates kept stream t' ∧
      x.expand t i classification =
        (.ok (List.range' t.size kept.length), t', { x with stream := stream, memory := memory }) := by
  obtain ⟨stream, hstream⟩ := limit_expander { x with memory := memory } candidates
  refine ⟨_, stream, _, ⟨limit_sublist _ candidates, length_limit { x with memory := memory } candidates,
    fun hle => ?_, Tree.expandsTo_expandedBy hn _⟩, ?_⟩
  · have hall := limit_of_length_le (x := { x with memory := memory }) hle
    rw [hall] at hstream ⊢
    exact ⟨rfl, (congrArg Expander.stream hstream).symm⟩
  · rw [expand_of_ok hn h, hstream]

/-- Expanding a node of a tree only marks it if it was expanded before or has no phase. Otherwise its phase is
asked about it once. If that fails, the tree and the stream stay as they are, and else the candidates that are
kept become the children. After that, no expansion of the node changes the tree any more. -/
theorem expand_exact (x : Expander P T O σ) (hn : t.node? i = some n)
    (classification : Classification O) :
    (∀ log, (x.recording log).expand t i classification =
      ((x.expand t i classification).1, (x.expand t i classification).2.1,
        (x.expand t i classification).2.2.recording (log ++ x.calls n classification))) ∧
    (n.expanded = true ∨ x.pipeline.length ≤ n.stage →
      x.calls n classification = [] ∧
      x.expand t i classification = (.ok [], t.modify i Node.markExpanded, x)) ∧
    (∀ phase answer memory, n.expanded = false → x.pipeline[n.stage]? = some phase →
      phase.propose n n.stage classification x.memory = (answer, memory) →
        x.calls n classification = [⟨n, answer⟩] ∧
        (∀ e, answer = .error e → x.expand t i classification =
          (.error (.error (e.within (.candidates phase.kind i n.stage))), t, { x with memory := memory })) ∧
        ∀ candidates, answer = .ok candidates → ∃ kept stream t',
          x.ExpandsBy t i n candidates kept stream t' ∧
          x.expand t i classification =
            (.ok (List.range' t.size kept.length), t', { x with stream := stream, memory := memory })) ∧
    ∀ indices t' x', x.expand t i classification = (.ok indices, t', x') →
      ∀ (y : Expander P T O σ) again, y.expand t' i again = (.ok [], t', y) := by
  refine ⟨x.expand_recording hn classification, fun hidle => ?_, ?_, ?_⟩
  · exact ⟨calls_of_idle hidle classification, expand_of_idle hn hidle⟩
  · intro phase answer memory hexpanded hphase hpropose
    have hcalls := calls_of_phase hexpanded hphase classification
    have hcandidates := candidates_of_phase hexpanded hphase i classification
    rw [hpropose] at hcalls hcandidates
    refine ⟨hcalls, ?_, ?_⟩
    · rintro e rfl
      exact expand_of_error hn hcandidates
    · rintro candidates rfl
      exact exists_expandsBy hn hcandidates
  · intro indices t' x' h y again
    obtain ⟨n', hn', hexpanded⟩ := expanded_of_expand hn h
    rw [expand_of_idle hn' (Or.inl hexpanded), Tree.modify_markExpanded hn' hexpanded]

/-- A root with one child, for which three candidates are proposed, of which two can be kept. -/
theorem expand_exact_three :
    let propose : Generator Nat Nat Unit Unit :=
      .pure fun n _ _ => .ok [.extending n 1 0, .extending n 2 1, .extending n 3 2]
    let x : Expander Nat Nat Unit Unit := ⟨[⟨.tiling, propose⟩], 2, .ofSeed 0, ()⟩
    let root : Node Nat Nat := { Node.root 0 0 with children := #[1] }
    let child : Candidate Nat Nat := .extending root 7 0
    let t : Tree Nat Nat := ⟨#[root, child.newNode 0 root 0]⟩
    t.node? 0 = some root ∧
      ∃ kept stream t', x.ExpandsBy t 0 root [.extending root 1 0, .extending root 2 1, .extending root 3 2]
          kept stream t' ∧
        x.expand t 0 .empty = (.ok [2, 3], t', { x with stream := stream }) ∧
        ∀ again, (x.expand t 0 .empty).2.2.expand t' 0 again = (.ok [], t', (x.expand t 0 .empty).2.2) := by
  intro propose x root child t
  have hn : t.node? 0 = some root := rfl
  obtain ⟨-, -, hasked, hagain⟩ := x.expand_exact hn .empty
  obtain ⟨-, -, hkept⟩ := hasked ⟨.tiling, propose⟩ _ () rfl rfl rfl
  obtain ⟨kept, stream, t', hexpands, hexpand⟩ := hkept _ rfl
  have hlength : kept.length = 2 := hexpands.length_kept
  rw [hlength] at hexpand
  exact ⟨hn, kept, stream, t', hexpands, hexpand, hagain _ _ _ hexpand _⟩

end Expander

end LoopTuner
