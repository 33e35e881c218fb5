import LoopTuner.Proofs.Calls.Recording
import LoopTuner.Proofs.Growth.Changes
import LoopTuner.Proofs.Growth.Extraction

/-!
# Accounts of the calls

Measuring is expensive, so no node is measured twice: over any number of growths of one tree, whatever
their strategies and results, each call of the evaluator is about another node, which had no cost before
and keeps the one that it gets. In the same way each successful call of a generator is about another node,
which is expanded from then on and gets no more children (`Tree.Account`, `Tree.GrownWith.account`). The
counters of a growth are the numbers of these calls (`Search.statistics_grow`).

What one operation does is added to the account of the operations before it (`Tree.Account.trans`,
`Growth.CallStep.account`).
-/

namespace LoopTuner

variable {P T O σ ε : Type}

/-! ## Answers -/

namespace Evaluator.Call

/-- The answer has no usable cost: it is an error, NaN or negative infinity. -/
def Failed (call : Evaluator.Call P T) : Prop :=
  match call.answer with
  | .ok cost => cost.isNaN = true ∨ (cost.isInf = true ∧ cost < 0)
  | .error _ => True

instance (call : Evaluator.Call P T) : Decidable call.Failed := by
  unfold Failed
  split <;> infer_instance

/-- A failed call leaves infinite cost, any other one the cost of its answer. -/
structure Leaves (call : Evaluator.Call P T) (cost : Float) : Prop where
  failed : call.Failed → cost = Cost.infinity
  measured : ¬ call.Failed → call.answer = .ok cost

end Evaluator.Call

/-- Whether the generator proposed candidates. -/
def Generator.Call.succeeds (call : Generator.Call P T) : Bool := call.answer.isOk

namespace Meter

theorem usable?_eq_none_iff (call : Evaluator.Call P T) :
    usable? call.answer = none ↔ call.Failed := by
  unfold usable? Evaluator.Call.Failed
  cases call.answer with
  | error e => exact iff_of_true rfl trivial
  | ok cost =>
    simp only
    rw [← Cost.isUsable_eq_false_iff]
    split_ifs with h
    · rw [h]
      exact iff_of_false nofun nofun
    · exact iff_of_true rfl (Bool.eq_false_iff.mpr h)

theorem eq_ok_of_usable? {answer : Except Error Float} {cost : Float}
    (h : usable? answer = some cost) : answer = .ok cost := by
  unfold usable? at h
  split at h
  · split_ifs at h
    cases h
    rfl
  · cases h

/-- Measuring a node counts the calls, and a call leaves its cost. -/
theorem measure_calls (m : Meter P T ε) (n : Node P T) :
    (m.measure n).2.2.measured = m.measured + (m.calls n).length ∧
      (m.measure n).2.2.failed = m.failed + (m.calls n).countP (·.Failed) ∧
      ∀ call ∈ m.calls n, call.Leaves (m.measure n).1 := by
  unfold measure calls
  cases n.evaluation with
  | some cost => exact ⟨rfl, rfl, List.forall_mem_nil _⟩
  | none =>
    have hiff := usable?_eq_none_iff ⟨n, (m.evaluator n m.memory).1⟩
    simp only [List.forall_mem_singleton, List.countP_singleton, List.length_singleton,
      decide_eq_true_eq]
    cases husable : usable? (m.evaluator n m.memory).1 with
    | none =>
      have hfailed := hiff.mp husable
      rw [if_pos hfailed]
      exact ⟨rfl, rfl, fun _ => rfl, fun h => absurd hfailed h⟩
    | some cost =>
      have hfailed : ¬ Evaluator.Call.Failed ⟨n, (m.evaluator n m.memory).1⟩ := fun h => by
        rw [hiff.mpr h] at husable
        cases husable
      rw [if_neg hfailed]
      exact ⟨rfl, rfl, fun h => absurd h hfailed, fun _ => eq_ok_of_usable? husable⟩

/-- A measured node and its cost, as a call leaves them. -/
structure Yields (call : Evaluator.Call P T) (measured : Float × Node P T) : Prop where
  unmeasured : call.node.evaluation = none
  node_eq : measured.2 = { call.node with evaluation := some measured.1 }
  leaves : call.Leaves measured.1

/-- Measuring new nodes counts the calls, one for each node. -/
theorem measureAll_calls (m : Meter P T ε) {nodes : List (Node P T)}
    (hnodes : ∀ n ∈ nodes, n.evaluation = none) :
    (m.measureAll nodes).2.measured = m.measured + (m.callsAll nodes).length ∧
      (m.measureAll nodes).2.failed = m.failed + (m.callsAll nodes).countP (·.Failed) ∧
      List.Forall₂ Yields (m.callsAll nodes) (m.measureAll nodes).1 := by
  induction nodes generalizing m with
  | nil => exact ⟨rfl, rfl, .nil⟩
  | cons n nodes ih =>
    obtain ⟨hnone, hrest⟩ := List.forall_mem_cons.mp hnodes
    obtain ⟨hmeasured, hfailed, hleaves⟩ := m.measure_calls n
    obtain ⟨hmeasured', hfailed', hyields⟩ := ih (m.measure n).2.2 hrest
    have hcalls : m.calls n = [⟨n, (m.evaluator n m.memory).1⟩] := by
      unfold calls
      rw [hnone]
    unfold measureAll callsAll
    simp only
    rw [hmeasured', hfailed', hmeasured, hfailed, List.length_append, List.countP_append]
    refine ⟨Nat.add_assoc _ _ _, Nat.add_assoc _ _ _, ?_⟩
    rw [hcalls] at hleaves ⊢
    exact .cons ⟨hnone, m.measure_node n, hleaves _ (List.mem_singleton.mpr rfl)⟩ hyields

end Meter

/-! ## What stays -/

/-- What a node keeps in all later states: what it was born with, its cost, and its children once it is
expanded. -/
structure Node.Kept (n n' : Node P T) : Prop where
  origin : n'.origin = n.origin
  evaluation : ∀ cost, n.evaluation = some cost → n'.evaluation = some cost
  children : n.expanded = true → n'.expanded = true ∧ n'.children = n.children

/-- Every node is still there, and has kept what it has to. -/
def Tree.Keeps (t t' : Tree P T) : Prop :=
  ∀ i n, t.node? i = some n → ∃ n', t'.node? i = some n' ∧ n.Kept n'

namespace Tree

variable {t t' t'' : Tree P T}

theorem Keeps.refl (t : Tree P T) : t.Keeps t :=
  fun _ n hn => ⟨n, hn, rfl, fun _ h => h, fun h => ⟨h, rfl⟩⟩

theorem Keeps.trans (h : t.Keeps t') (h' : t'.Keeps t'') : t.Keeps t'' := by
  intro i n hn
  obtain ⟨n', hn', hkept⟩ := h i n hn
  obtain ⟨n'', hn'', hkept'⟩ := h' i n' hn'
  refine ⟨n'', hn'', hkept'.origin.trans hkept.origin,
    fun cost hcost => hkept'.evaluation cost (hkept.evaluation cost hcost), fun hexpanded => ?_⟩
  obtain ⟨hexpanded', hchildren⟩ := hkept.children hexpanded
  obtain ⟨hexpanded'', hchildren'⟩ := hkept'.children hexpanded'
  exact ⟨hexpanded'', hchildren'.trans hchildren⟩

theorem Change.keeps {strategy : Strategy} (h : Change strategy t t') : t.Keeps t' := by
  cases h with
  | none => exact .refl t
  | @measure i n cost hn hfirst _ =>
    intro j m hm
    rw [node?_modify]
    split_ifs with hij
    · subst hij
      rw [hn] at hm ⊢
      cases hm
      exact ⟨_, rfl, rfl, fun c hc => by rw [hfirst c hc], fun h => ⟨h, rfl⟩⟩
    · exact Keeps.refl t j m hm
  | backup path cost =>
    intro j m hm
    have hagree : Agree (fun n => (n.origin, n.evaluation, n.expanded, n.children)) t
        (t.recordAll cost path) := Agree.recordAll (fun _ _ => rfl) t cost path
    obtain ⟨m', hm', hview⟩ := hagree.symm.node? hm
    obtain ⟨horigin, hevaluation, hexpanded, hchildren⟩ : _ ∧ _ ∧ _ ∧ _ := by
      simpa only [Prod.mk.injEq] using hview
    exact ⟨m', hm', horigin, fun c hc => hevaluation.trans hc,
      fun h => ⟨hexpanded.trans h, hchildren⟩⟩
  | @expand i n kids hn _ hexpanded =>
    intro j m hm
    have hlt := lt_size_of_node? hm
    obtain ⟨m', hm'⟩ := exists_node? (t := t.expandedBy i kids) (i := j) (by
      rw [size_expandedBy]
      exact Nat.lt_add_right _ hlt)
    obtain ⟨m₀, hm₀, rfl⟩ := node?_expandedBy_old hlt hm'
    rw [hm] at hm₀
    cases hm₀
    refine ⟨_, hm', ?_⟩
    split_ifs with hji
    · subst hji
      rw [hn] at hm
      cases hm
      refine ⟨rfl, fun _ h => h, fun h => ⟨rfl, ?_⟩⟩
      rw [hexpanded h, List.length_nil, List.range'_zero, Node.adoptAll_nil]
      rfl
    · exact ⟨rfl, fun _ h => h, fun h => ⟨h, rfl⟩⟩

/-! ## One node for each call -/

/-- Each of the calls is about another node, one that was open before and is settled afterwards. -/
def OneEach {C : Type} (opened : Nat → Prop) (settled : C → Nat → Prop) (calls : List C) : Prop :=
  ∃ indices : List Nat, List.Forall₂ settled calls indices ∧ indices.Nodup ∧ ∀ i ∈ indices, opened i

theorem OneEach.nil {C : Type} {opened : Nat → Prop} {settled : C → Nat → Prop} :
    OneEach opened settled [] :=
  ⟨[], .nil, List.nodup_nil, List.forall_mem_nil _⟩

theorem OneEach.singleton {C : Type} {opened : Nat → Prop} {settled : C → Nat → Prop} {call : C}
    {i : Nat} (hopened : opened i) (hsettled : settled call i) : OneEach opened settled [call] :=
  ⟨[i], .cons hsettled .nil, List.nodup_singleton i, List.forall_mem_singleton.mpr hopened⟩

/-- Later calls are about other nodes, because what is settled is not open any more. -/
theorem OneEach.append {C : Type} {opened opened' : Nat → Prop} {settled settled' : C → Nat → Prop}
    {calls calls' : List C} (h : OneEach opened settled calls) (h' : OneEach opened' settled' calls')
    (hopened : ∀ i, opened' i → opened i) (hsettled : ∀ call i, settled call i → settled' call i)
    (hdisjoint : ∀ call i, settled call i → ¬ opened' i) :
    OneEach opened settled' (calls ++ calls') := by
  obtain ⟨indices, hall, hnodup, hmem⟩ := h
  obtain ⟨indices', hall', hnodup', hmem'⟩ := h'
  refine ⟨indices ++ indices', List.rel_append (hall.imp hsettled) hall', ?_, ?_⟩
  · refine List.nodup_append.mpr ⟨hnodup, hnodup', fun i hi j hj hij => ?_⟩
    subst hij
    obtain ⟨k, hk, rfl⟩ := List.getElem_of_mem hi
    exact hdisjoint _ _ (hall.get (hall.length_eq ▸ hk) hk) (hmem' _ hj)
  · exact List.forall_mem_append.mpr ⟨hmem, fun i hi => hopened i (hmem' i hi)⟩

/-- No cost is stored at this number. -/
def Unmeasured (t : Tree P T) (i : Nat) : Prop := t.evaluationOf i = none

/-- No node of this number is expanded. -/
def Unexpanded (t : Tree P T) (i : Nat) : Prop := ∀ n, t.node? i = some n → n.expanded = false

/-- The call was about node `i`, which had no cost, and left the one that is stored now. -/
def MeasuredBy (t : Tree P T) (call : Evaluator.Call P T) (i : Nat) : Prop :=
  call.node.evaluation = none ∧ ∃ n cost, t.node? i = some n ∧ n.origin = call.node.origin ∧
    n.evaluation = some cost ∧ call.Leaves cost

/-- The call was about node `i`, which was not expanded and is now. -/
def UnfoldedBy (t : Tree P T) (call : Generator.Call P T) (i : Nat) : Prop :=
  call.node.expanded = false ∧ ∃ n, t.node? i = some n ∧ n.origin = call.node.origin ∧
    n.expanded = true

/-- What becomes of a tree in the course of some calls of generators and of evaluators. -/
structure Account (t : Tree P T) (asked : List (Generator.Call P T))
    (measured : List (Evaluator.Call P T)) (t' : Tree P T) : Prop where
  keeps : t.Keeps t'
  measured : OneEach t.Unmeasured t'.MeasuredBy measured
  asked : OneEach t.Unexpanded t'.UnfoldedBy (asked.filter (·.succeeds))

theorem Keeps.unmeasured (h : t.Keeps t') {i : Nat} (hi : t'.Unmeasured i) : t.Unmeasured i := by
  unfold Unmeasured at hi ⊢
  cases hcost : t.evaluationOf i with
  | none => rfl
  | some cost =>
    obtain ⟨n, hn, hevaluation⟩ := Option.bind_eq_some_iff.mp hcost
    obtain ⟨n', hn', hkept⟩ := h i n hn
    rw [evaluationOf_of_node? hn', hkept.evaluation cost hevaluation] at hi
    cases hi

theorem Keeps.unexpanded (h : t.Keeps t') {i : Nat} (hi : t'.Unexpanded i) : t.Unexpanded i := by
  intro n hn
  obtain ⟨n', hn', hkept⟩ := h i n hn
  by_contra hexpanded
  have hstill := (hkept.children (Bool.eq_true_of_not_eq_false hexpanded)).1
  rw [hi n' hn'] at hstill
  cases hstill

theorem Keeps.measuredBy (h : t.Keeps t') {call : Evaluator.Call P T} {i : Nat}
    (hi : t.MeasuredBy call i) : t'.MeasuredBy call i := by
  obtain ⟨hnone, n, cost, hn, horigin, hcost, hleaves⟩ := hi
  obtain ⟨n', hn', hkept⟩ := h i n hn
  exact ⟨hnone, n', cost, hn', hkept.origin.trans horigin, hkept.evaluation cost hcost, hleaves⟩

theorem Keeps.unfoldedBy (h : t.Keeps t') {call : Generator.Call P T} {i : Nat}
    (hi : t.UnfoldedBy call i) : t'.UnfoldedBy call i := by
  obtain ⟨hbefore, n, hn, horigin, hexpanded⟩ := hi
  obtain ⟨n', hn', hkept⟩ := h i n hn
  exact ⟨hbefore, n', hn', hkept.origin.trans horigin, (hkept.children hexpanded).1⟩

theorem MeasuredBy.not_unmeasured {call : Evaluator.Call P T} {i : Nat} (h : t.MeasuredBy call i) :
    ¬ t.Unmeasured i := by
  obtain ⟨-, n, cost, hn, -, hcost, -⟩ := h
  intro hnone
  rw [Unmeasured, evaluationOf_of_node? hn, hcost] at hnone
  cases hnone

theorem UnfoldedBy.not_unexpanded {call : Generator.Call P T} {i : Nat} (h : t.UnfoldedBy call i) :
    ¬ t.Unexpanded i := by
  obtain ⟨-, n, hn, -, hexpanded⟩ := h
  intro hnot
  rw [hnot n hn] at hexpanded
  cases hexpanded

theorem Account.refl (t : Tree P T) : t.Account [] [] t := ⟨.refl t, .nil, .nil⟩

/-- Accounts add up. -/
theorem Account.trans {asked asked' : List (Generator.Call P T)}
    {measured measured' : List (Evaluator.Call P T)} (h : t.Account asked measured t')
    (h' : t'.Account asked' measured' t'') : t.Account (asked ++ asked') (measured ++ measured') t'' where
  keeps := h.keeps.trans h'.keeps
  measured := h.measured.append h'.measured (fun _ => h.keeps.unmeasured)
    (fun _ _ => h'.keeps.measuredBy) fun _ _ => MeasuredBy.not_unmeasured
  asked := by
    rw [List.filter_append]
    exact h.asked.append h'.asked (fun _ => h.keeps.unexpanded)
      (fun _ _ => h'.keeps.unfoldedBy) fun _ _ => UnfoldedBy.not_unexpanded

end Tree

/-! ## The operations -/

/-- Relations of neighbouring lists compose. -/
theorem forall₂_comp {α β γ : Type} {r : α → β → Prop} {q : β → γ → Prop} {xs : List α} {ys : List β}
    {zs : List γ} (h : List.Forall₂ r xs ys) (h' : List.Forall₂ q ys zs) :
    List.Forall₂ (fun x z => ∃ y, r x y ∧ q y z) xs zs := by
  induction h generalizing zs with
  | nil =>
    cases h'
    exact .nil
  | cons hr _ ih =>
    cases h' with
    | cons hq hrest => exact .cons ⟨_, hr, hq⟩ (ih hrest)

theorem forall₂_range' {α : Type} {r : α → Nat → Prop} {xs : List α} {start : Nat}
    (h : ∀ k x, xs[k]? = some x → r x (start + k)) :
    List.Forall₂ r xs (List.range' start xs.length) := by
  induction xs generalizing start with
  | nil => exact .nil
  | cons x xs ih =>
    rw [List.length_cons, List.range'_succ]
    refine .cons (h 0 x rfl) (ih fun k y hk => ?_)
    rw [Nat.add_assoc, Nat.add_comm 1 k]
    exact h (k + 1) y hk

namespace Growth

variable {classification : Classification O} {g g' : Growth P T O σ ε} {i : Nat} {n : Node P T}

theorem measure_account (g : Growth P T O σ ε) (i : Nat) :
    g.tree.Account [] (g.callsAt i) (g.measure i).2.tree := by
  cases hn : g.tree.node? i with
  | none =>
    rw [measure_of_none hn]
    unfold callsAt
    rw [hn]
    exact .refl g.tree
  | some n =>
    refine ⟨(measure_change .treeSearch g i).keeps, ?_, .nil⟩
    rw [callsAt_of_node? hn, measure_eq hn]
    have hleaves := (g.search.meter.measure_calls n).2.2
    unfold Meter.calls at hleaves ⊢
    cases hnone : n.evaluation with
    | some cost => exact .nil
    | none =>
      rw [hnone] at hleaves
      refine .singleton (i := i) ?_ ⟨hnone, _, _, Tree.node?_modify_self _ hn, rfl, rfl,
        hleaves _ (List.mem_singleton.mpr rfl)⟩
      unfold Tree.Unmeasured
      rw [Tree.evaluationOf_of_node? hn, hnone]

/-- A successful call of a generator is that of the expansion. -/
theorem calls_oneEach {x' : Expander P T O σ} {candidates : List (Candidate P T)}
    (hn : g.tree.node? i = some n)
    (hc : g.search.expander.candidates n i classification = (.ok candidates, x'))
    (kids : List (Node P T)) :
    Tree.OneEach g.tree.Unexpanded (g.tree.expandedBy i kids).UnfoldedBy
      ((g.search.expander.calls n classification).filter (·.succeeds)) := by
  rcases Expander.calls_of_ok hc with ⟨-, hcalls⟩ | ⟨hexpanded, hcalls⟩
  · rw [hcalls]
    exact .nil
  · have hlt := Tree.lt_size_of_node? hn
    obtain ⟨n', hn'⟩ := Tree.exists_node? (t := g.tree.expandedBy i kids) (i := i) (by
      rw [Tree.size_expandedBy]
      exact Nat.lt_add_right _ hlt)
    obtain ⟨m, hm, rfl⟩ := Tree.node?_expandedBy_old hlt hn'
    rw [hn] at hm
    cases hm
    rw [if_pos rfl] at hn'
    rw [hcalls]
    refine .singleton (i := i) (fun m hm => ?_) ⟨hexpanded, _, hn', rfl, rfl⟩
    rw [hn] at hm
    cases hm
    exact hexpanded

theorem calls_oneEach_of_error {x' : Expander P T O σ} {e : Error} {t' : Tree P T}
    (hc : g.search.expander.candidates n i classification = (.error e, x')) :
    Tree.OneEach g.tree.Unexpanded t'.UnfoldedBy
      ((g.search.expander.calls n classification).filter (·.succeeds)) := by
  obtain ⟨-, kind, e', -, hcalls⟩ := Expander.calls_of_error hc
  rw [hcalls]
  exact .nil

theorem expand_account (hn : g.tree.node? i = some n) :
    g.tree.Account (g.search.expander.calls n classification) []
      (g.expand classification i n).2.tree := by
  refine ⟨(expand_change hn).keeps, .nil, ?_⟩
  rw [expand_eq hn]
  rcases hc : g.search.expander.candidates n i classification with ⟨_ | candidates, x⟩
  · exact calls_oneEach_of_error hc
  · exact calls_oneEach hn hc _

/-- The new nodes of a sweep are those that were measured, in the order of their costs. -/
theorem sweepCalls_oneEach (t : Tree P T) (m : Meter P T ε) (candidates : List (Candidate P T))
    (n : Node P T) (i : Nat) :
    Tree.OneEach t.Unmeasured
      (t.expandedBy i ((sweepKids m candidates n i).map (·.2))).MeasuredBy
      (m.callsAll (Candidate.toNodes candidates n i)) := by
  have hfresh : ∀ kid ∈ Candidate.toNodes candidates n i, kid.evaluation = none :=
    fun _ => Candidate.evaluation_of_mem_toNodes
  obtain ⟨-, -, hyields⟩ := m.measureAll_calls hfresh
  have hnew : List.Forall₂
      (fun (e : Float × Node P T) j =>
        (t.expandedBy i ((sweepKids m candidates n i).map (·.2))).node? j = some e.2)
      (sweepKids m candidates n i) (List.range' t.size (sweepKids m candidates n i).length) := by
    refine forall₂_range' fun k e hk => ?_
    rw [Tree.node?_expandedBy_new, List.getElem?_map, hk]
    rfl
  have hperm : (m.measureAll (Candidate.toNodes candidates n i)).1.Perm (sweepKids m candidates n i) :=
    (List.mergeSort_perm _ _).symm
  obtain ⟨indices, hindices, hrange⟩ := List.perm_comp_forall₂ hperm hnew
  refine ⟨indices, (forall₂_comp hyields hindices).imp ?_, hrange.nodup_iff.mpr (List.nodup_range' 1),
    fun j hj => ?_⟩
  · rintro call j ⟨e, hyield, hj⟩
    rw [hyield.node_eq] at hj
    exact ⟨hyield.unmeasured, _, _, hj, rfl, rfl, hyield.leaves⟩
  · unfold Tree.Unmeasured Tree.evaluationOf
    rw [Tree.node?_eq_none (List.mem_range'_1.mp (hrange.mem_iff.mp hj)).1]
    rfl

theorem sweepRound_account (hn : g.tree.node? i = some n) (round : Nat) (s : Sweep) :
    g.tree.Account (g.search.expander.calls n classification) (g.sweepCalls classification i n)
      (g.sweepRound classification round i s).2.tree := by
  refine ⟨(sweepRound_change round i s g).keeps, ?_, ?_⟩
  · unfold sweepCalls
    rw [sweepRound_eq hn]
    rcases hc : g.search.expander.candidates n i classification with ⟨_ | candidates, x⟩
    · exact .nil
    · exact sweepCalls_oneEach g.tree g.search.meter candidates n i
  · rw [sweepRound_eq hn]
    rcases hc : g.search.expander.candidates n i classification with ⟨_ | candidates, x⟩
    · exact calls_oneEach_of_error hc
    · exact calls_oneEach hn hc _

/-- Every operation accounts for its calls. -/
theorem CallStep.account {strategy : Strategy} {asks : List (Generator.Call P T)}
    {measures : List (Evaluator.Call P T)}
    (h : CallStep classification strategy g asks measures g') :
    g.tree.Account asks measures g'.tree := by
  cases h with
  | measure => exact measure_account g _
  | expand hn => exact expand_account hn
  | backup _ i cost =>
    have hoperation : Operation classification .treeSearch g (g.backup i cost).2 := .backup g i cost
    exact ⟨hoperation.change.keeps, .nil, .nil⟩
  | sweepRound hn round s => exact sweepRound_account hn round s

/-- So does a run. -/
theorem CallRun.account {strategy : Strategy} {start : Growth P T O σ ε}
    {asked : List (Generator.Call P T)} {measured : List (Evaluator.Call P T)}
    (h : CallRun classification strategy start asked measured g) :
    start.tree.Account asked measured g.tree := by
  induction h with
  | refl => exact .refl start.tree
  | tail _ hstep ih => exact ih.trans hstep.account

/-- A run of operations takes nothing back. -/
theorem Run.keeps {strategy : Strategy} (h : Run classification strategy g g') :
    g.tree.Keeps g'.tree :=
  h.preserve (I := fun g' => g.tree.Keeps g'.tree)
    (fun hoperation hkeeps => hkeeps.trans hoperation.change.keeps) (.refl g.tree)

/-! ## Counters -/

/-- Every operation counts its calls of the evaluator. -/
theorem CallStep.meter {strategy : Strategy} {asks : List (Generator.Call P T)}
    {measures : List (Evaluator.Call P T)}
    (h : CallStep classification strategy g asks measures g') :
    g'.search.meter.measured = g.search.meter.measured + measures.length ∧
      g'.search.meter.failed = g.search.meter.failed + measures.countP (·.Failed) := by
  cases h with
  | measure _ _ i =>
    cases hn : g.tree.node? i with
    | none =>
      rw [measure_of_none hn]
      unfold callsAt
      rw [hn]
      exact ⟨rfl, rfl⟩
    | some n =>
      rw [callsAt_of_node? hn, measure_eq hn]
      obtain ⟨hmeasured, hfailed, -⟩ := g.search.meter.measure_calls n
      exact ⟨hmeasured, hfailed⟩
  | @expand _ i n hn =>
    rw [expand_eq hn]
    rcases g.search.expander.candidates n i classification with ⟨_ | candidates, x⟩
    all_goals exact ⟨congrArg Meter.measured (counted_meter g n), congrArg Meter.failed (counted_meter g n)⟩
  | backup _ i cost =>
    unfold Growth.backup
    cases g.tree.backup i cost <;> exact ⟨rfl, rfl⟩
  | @sweepRound _ i n hn round s =>
    rw [sweepRound_eq hn]
    unfold sweepCalls
    rcases g.search.expander.candidates n i classification with ⟨_ | candidates, x⟩
    · exact ⟨congrArg Meter.measured (counted_meter g n), congrArg Meter.failed (counted_meter g n)⟩
    · have hfresh : ∀ kid ∈ Candidate.toNodes candidates n i, kid.evaluation = none :=
        fun _ => Candidate.evaluation_of_mem_toNodes
      obtain ⟨hmeasured, hfailed, -⟩ := g.search.meter.measureAll_calls hfresh
      exact ⟨hmeasured, hfailed⟩

theorem CallRun.meter {strategy : Strategy} {start : Growth P T O σ ε}
    {asked : List (Generator.Call P T)} {measured : List (Evaluator.Call P T)}
    (h : CallRun classification strategy start asked measured g) :
    g.search.meter.measured = start.search.meter.measured + measured.length ∧
      g.search.meter.failed = start.search.meter.failed + measured.countP (·.Failed) := by
  induction h with
  | refl => exact ⟨rfl, rfl⟩
  | tail _ hstep ih =>
    obtain ⟨hmeasured, hfailed⟩ := hstep.meter
    rw [hmeasured, hfailed, ih.1, ih.2, List.length_append, List.countP_append, Nat.add_assoc,
      Nat.add_assoc]
    exact ⟨rfl, rfl⟩

end Growth

/-! ## Growing -/

namespace Search

/-- Unless a violation ends a growth, its counters are the numbers of its calls. -/
theorem statistics_grow {s : Search P T O σ ε} {t : Tree P T} {classification : Classification O}
    {rounds : Nat} (h : ∀ v, (s.grow t classification rounds).1 ≠ .error (.violation v)) :
    (s.grow t classification rounds).2.2.statistics.nodes =
        (s.grow t classification rounds).2.1.size ∧
      (s.grow t classification rounds).2.2.statistics.measurements =
        (s.evaluatorCalls t classification rounds).length ∧
      (s.grow t classification rounds).2.2.statistics.failed =
        (s.evaluatorCalls t classification rounds).countP (·.Failed) := by
  obtain ⟨hmeasured, hfailed⟩ := (grown_calls s t classification rounds).2.meter
  have hzero : ∀ a b : Nat, a = 0 + b → a = b := fun a b h => h.trans (Nat.zero_add b)
  replace hmeasured := hzero _ _ hmeasured
  replace hfailed := hzero _ _ hfailed
  rw [grow_eq] at h ⊢
  rcases hx : s.grown t classification rounds with ⟨(_ | v) | _, g⟩
  · rw [hx] at hmeasured hfailed
    exact ⟨rfl, hmeasured, hfailed⟩
  · rw [hx] at h
    exact absurd rfl (h v)
  · rw [hx] at hmeasured hfailed
    exact ⟨rfl, hmeasured, hfailed⟩

end Search

namespace Tree

/-- The trees that come from a first one by any number of growths, with all the calls of these growths.
Each growth may be that of another search. -/
inductive GrownWith (start : Tree P T) :
    List (Generator.Call P T) → List (Evaluator.Call P T) → Tree P T → Prop
  | start : GrownWith start [] [] start
  | grow {asked : List (Generator.Call P T)} {measured : List (Evaluator.Call P T)} {t : Tree P T}
      (h : GrownWith start asked measured t) {O σ ε : Type} (s : Search P T O σ ε)
      (classification : Classification O) (rounds : Nat) :
      GrownWith start (asked ++ s.generatorCalls t classification rounds)
        (measured ++ s.evaluatorCalls t classification rounds) (s.grow t classification rounds).2.1

theorem GrownWith.account {start t : Tree P T} {asked : List (Generator.Call P T)}
    {measured : List (Evaluator.Call P T)} (h : GrownWith start asked measured t) :
    start.Account asked measured t := by
  induction h with
  | start => exact .refl start
  | grow _ s classification rounds ih =>
    rw [Search.tree_grow]
    exact ih.trans (s.grown_calls _ classification rounds).2.account

/-- Over any sequence of growths of one tree, each call of the evaluator and each successful call of a
generator is about another node. From round to round every node keeps its cost, and its children once it
is expanded, and the counters of a growth are the numbers of its calls. -/
theorem each_node_once {start t : Tree P T} {asked : List (Generator.Call P T)}
    {measured : List (Evaluator.Call P T)} (h : GrownWith start asked measured t) :
    start.Account asked measured t ∧
      ∀ {O σ ε : Type} (s : Search P T O σ ε) (classification : Classification O) (rounds : Nat),
        (t.Keeps (s.advance t classification 0).2.tree ∧
          (∀ k more, (s.advance t classification k).2.tree.Keeps
            (s.advance t classification (k + more)).2.tree) ∧
          (s.advance t classification rounds).2.tree.Keeps (s.grow t classification rounds).2.1) ∧
        ((∀ v, (s.grow t classification rounds).1 ≠ .error (.violation v)) →
          (s.grow t classification rounds).2.2.statistics.measurements =
              (s.evaluatorCalls t classification rounds).length ∧
            (s.grow t classification rounds).2.2.statistics.failed =
              (s.evaluatorCalls t classification rounds).countP (·.Failed)) := by
  refine ⟨h.account, fun s classification rounds => ⟨⟨?_, fun k more => ?_, ?_⟩, fun hresult => ?_⟩⟩
  · obtain ⟨-, _, _, -, hrun⟩ := s.advance_recorded t classification 0
    exact hrun.account.keeps
  · exact (s.advance_run t classification k more).keeps
  · rw [Search.tree_grow]
    exact (s.advance_run_grown t classification rounds).keeps
  · exact (Search.statistics_grow hresult).2

end Tree

namespace Search

/-- A search of two stages whose generators fail when they are asked for the second time. -/
def secondBusy : Search Nat Nat Unit Nat Unit where
  config := .standard
  expander :=
    let generator : Generator Nat Nat Unit Nat := fun n _ _ asked =>
      (if asked = 1 then .error (.ofCause (.reported "busy"))
        else .ok [.extending n (n.program + 1) 0], asked + 1)
    ⟨[⟨.tiling, generator⟩, ⟨.vectorization, generator⟩], 1, .ofSeed 0, 0⟩
  meter := .create (.pure fun _ => .ok 1) ()
  statistics := .zero

/-- The tree when the second of its rounds has failed. -/
def busyTree : Tree Nat Nat := (secondBusy.grow (.ofRoot (.root 0 0)) .empty 3).2.1

/-- The tree when another growth has got further. -/
def retriedTree : Tree Nat Nat := (secondBusy.grow busyTree .empty 1).2.1

/-- A sweep by the same generators. -/
def busySweep : Search Nat Nat Unit Nat Unit := { secondBusy with config := ⟨0, 25, 0, .bestFirst⟩ }

end Search

namespace Tree

/-- A growth whose second round fails, another one that tries again, and a sweep of the tree that they leave: of
three nodes each is measured once and each of the two inner ones is expanded once. The growth that fails has
measured one node, and the sweep calls nobody. -/
theorem each_node_once_retried :
    ∃ asked measured t, (ofRoot (.root 0 0)).GrownWith asked measured t ∧
      (Search.secondBusy.grow (.ofRoot (.root 0 0)) .empty 3).1.isOk = false ∧
      (Search.secondBusy.grow Search.busyTree .empty 1).1.isOk = true ∧
      t = (Search.busySweep.grow Search.retriedTree .empty 2).2.1 ∧
      t.size = 3 ∧ asked.length = 3 ∧ (asked.filter (·.succeeds)).length = 2 ∧ measured.length = 3 ∧
      (ofRoot (.root 0 0)).Account asked measured t ∧
      (Search.secondBusy.grow (.ofRoot (.root 0 0)) .empty 3).2.2.statistics.measurements = 1 := by
  have hfailed : (ofRoot (.root 0 0)).GrownWith _ _ Search.busyTree :=
    .grow .start Search.secondBusy .empty 3
  have hretried : (ofRoot (.root 0 0)).GrownWith _ _ Search.retriedTree :=
    .grow hfailed Search.secondBusy .empty 1
  have hswept := hretried.grow Search.busySweep .empty 2
  obtain ⟨-, hcounters⟩ := (each_node_once .start).2 Search.secondBusy .empty 3
  have hresult : ∀ v, (Search.secondBusy.grow (.ofRoot (.root 0 0)) .empty 3).1 ≠ .error (.violation v) := by
    intro v h
    cases h
  refine ⟨_, _, _, hswept, rfl, rfl, rfl, ?_, ?_, ?_, ?_, (each_node_once hswept).1, (hcounters hresult).1⟩
  · decide +kernel
  · decide +kernel
  · decide +kernel
  · decide +kernel

end Tree

end LoopTuner
