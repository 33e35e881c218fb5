import LoopTuner.Proofs.Growth.Visits
import LoopTuner.Proofs.Tree.Walks
import Mathlib.Algebra.Order.BigOperators.Group.List
import Mathlib.Algebra.Order.Ring.Nat

/-!
# Visits are conserved

Tree search keeps the balance of visits over any sequence of growths of one tree, whatever the
generators and the evaluator do (`Search.visits_conserved`). It never walks below an unvisited node,
never stores a second cost, and ends early only if a generator fails.
-/

namespace LoopTuner

variable {P T O σ ε : Type}

/-! ## Selection -/

/-- Numbers grow on the way down, so the walk ends, at a node without children or to be expanded. -/
theorem Tree.Balanced.walk {last : Stage} {total : Nat} {t : Tree P T}
    (h : t.Balanced last none total) (d : Descent) {fuel i : Nat} (hi : i < t.size)
    (hfuel : t.size ≤ fuel + i) :
    ∃ j n, d.walk t fuel i = .ok j ∧ t.node? j = some n ∧
      (n.expanded = false ∨ n.children = #[]) := by
  induction fuel generalizing i with
  | zero => omega
  | succ fuel ih =>
    obtain ⟨n, hn⟩ := Tree.exists_node? hi
    unfold Descent.walk
    rw [hn]
    simp only
    by_cases hexpanded : n.expanded = true
    · rw [if_pos hexpanded]
      cases hlist : n.children.toList with
      | nil => exact ⟨i, n, rfl, hn, Or.inr (Array.toList_eq_nil_iff.mp hlist)⟩
      | cons first others =>
        have hne : n.children ≠ #[] := fun hempty => by
          rw [hempty] at hlist
          cases hlist
        have hvisited : n.isVisited = true := by
          have hsum := (h.inner i n hn hne).2
          rw [visitsDue_none] at hsum
          unfold Node.isVisited
          rw [decide_eq_true_iff]
          omega
        have hmem : d.bestScored t n first others ∈ n.children := by
          rw [← Array.mem_toList_iff, hlist]
          exact d.bestScored_mem t n first others
        obtain ⟨hlt, cn, hcn, -⟩ := h.wellFormed.child hn hmem
        simp only [hvisited, if_true]
        exact ih (Tree.lt_size_of_node? hcn) (by omega)
    · rw [if_neg hexpanded]
      exact ⟨i, n, rfl, hn, Or.inl (Bool.eq_false_iff.mpr hexpanded)⟩

/-! ## Rounds -/

namespace Growth

/-- A part of a search that was to complete `budget` rounds after `total` rounds, and completed `done`
of them. -/
structure Ran {α : Type} (last : Stage) (total budget done : Nat) (g : Growth P T O σ ε)
    (out : Except Failure α × Growth P T O σ ε) : Prop where
  balanced : out.2.tree.Balanced last none (total + done)
  rounds_eq : out.2.search.statistics.rounds = g.search.statistics.rounds + done
  lastStage_eq : out.2.search.expander.lastStage = g.search.expander.lastStage
  result : ((∃ a, out.1 = .ok a) ∧ done = budget) ∨ ((∃ e, out.1 = .error (.error e)) ∧ done < budget)

variable {last : Stage} {total : Nat} {classification : Classification O} {g : Growth P T O σ ε}

theorem Reaches.lastStage_eq {g' : Growth P T O σ ε} (h : Reaches classification g g') :
    g'.search.expander.lastStage = g.search.expander.lastStage := by
  unfold Expander.lastStage
  rw [h.pipeline_eq]

/-- Measuring a node of the tree stores its cost and keeps the balance. -/
theorem measure_balanced {due : Option Nat} (h : g.tree.Balanced last due total) {i : Nat}
    (hi : i < g.tree.size) :
    ∃ cost g' n, g.measure i = (.ok cost, g') ∧ g'.tree.Balanced last due total ∧
      g'.tree.node? i = some n ∧ n.evaluation = some cost ∧
      g'.search.statistics = g.search.statistics ∧ g'.search.expander = g.search.expander := by
  obtain ⟨n, hn⟩ := Tree.exists_node? hi
  rw [measure_eq hn]
  exact ⟨_, _, _, rfl, h.measure hn _, Tree.node?_modify_self _ hn, rfl, rfl, rfl⟩

/-- Either the generator fails and the tree stays as it is, or the visit of the node is due. -/
theorem expandSelected_balanced (h : g.tree.Balanced g.search.expander.lastStage none total) {i : Nat}
    {n : Node P T} (hn : g.tree.node? i = some n) (hleaf : n.expanded = false ∨ n.children = #[])
    (classification : Classification O) :
    (∃ e g', g.expandSelected classification i = (.error (.error e), g') ∧ g'.tree = g.tree ∧
      g'.search.statistics.rounds = g.search.statistics.rounds) ∨
    ∃ kids g', g.expandSelected classification i = (.ok kids, g') ∧ i < g'.tree.size ∧
      g'.tree.Balanced g.search.expander.lastStage (some i) total ∧
      g'.search.statistics.rounds = g.search.statistics.rounds := by
  have hlt := Tree.lt_size_of_node? hn
  unfold expandSelected
  rw [hn]
  simp only
  split_ifs with hstage
  · rw [expand_eq hn]
    rcases hc : g.search.expander.candidates n i classification with ⟨e | candidates, x⟩
    · exact Or.inl ⟨e, _, rfl, rfl, counted_rounds g n⟩
    · refine Or.inr ⟨_, _, rfl, ?_, ?_, counted_rounds g n⟩
      · rw [Tree.size_expandedBy]
        exact Nat.lt_add_right _ hlt
      · refine h.expand hn hleaf hstage fun kid hkid => ?_
        obtain ⟨c, hmem, hbecomes⟩ := Candidate.exists_of_mem_toNodes hkid
        have hproposes := Expander.proposes_of_mem_candidates (congrArg Prod.fst hc)
          (Expander.mem_of_mem_limit hmem)
        exact ⟨hproposes.1, c, hbecomes⟩
  · exact Or.inr ⟨[], g, rfl, hlt, h.visit hn hleaf (Nat.not_le.mp hstage), rfl⟩

/-- A round adds one visit to the root, or it leaves the tree alone because a generator failed. -/
theorem searchRound_ran (h : g.tree.Balanced g.search.expander.lastStage none total)
    (classification : Classification O) (round : Nat) :
    ∃ done, Ran g.search.expander.lastStage total 1 done g (g.searchRound classification round) := by
  obtain ⟨i, n, hselect, hn, hleaf⟩ := h.walk g.search.config.descent h.wellFormed.size_pos
    (Nat.le_succ (g.tree.size))
  have hlast := (searchRound_reaches classification round g).lastStage_eq
  unfold searchRound at hlast ⊢
  rw [show g.search.config.descent.select g.tree Tree.rootIndex = .ok i from hselect] at hlast ⊢
  simp only at hlast ⊢
  rcases expandSelected_balanced h hn hleaf classification with
    ⟨e, g', hx, htree, hrounds⟩ | ⟨kids, g', hx, hlt, hbalanced, hrounds⟩
  · rw [hx] at hlast ⊢
    refine ⟨0, ?_, hrounds, hlast, Or.inr ⟨⟨_, rfl⟩, Nat.one_pos⟩⟩
    rw [htree]
    exact h
  · obtain ⟨cost, g'', n', hmeasure, hbalanced', hn', hcost, hstatistics, -⟩ :=
      measure_balanced hbalanced hlt
    rw [hx] at hlast ⊢
    simp only [hmeasure] at hlast ⊢
    unfold Growth.backup Tree.backup at hlast ⊢
    simp only [if_pos (Tree.lt_size_of_node? hn')] at hlast ⊢
    refine ⟨1, hbalanced'.backup hn' ?_ cost, ?_, hlast, Or.inl ⟨⟨(), rfl⟩, rfl⟩⟩
    · rw [hcost]
      rfl
    · show g''.search.statistics.rounds + 1 = _
      rw [hstatistics, hrounds]

/-- The rounds before the first failure each add one visit to the root. -/
theorem searchRounds_ran (classification : Classification O) (count round : Nat)
    (h : g.tree.Balanced g.search.expander.lastStage none total) :
    ∃ done, Ran g.search.expander.lastStage total count done g
      (searchRounds classification count round g) := by
  induction count generalizing g total round with
  | zero => exact ⟨0, h, rfl, rfl, Or.inl ⟨⟨(), rfl⟩, rfl⟩⟩
  | succ count ih =>
    obtain ⟨done, hround⟩ := searchRound_ran h classification round
    unfold searchRounds
    rcases hx : g.searchRound classification round with ⟨_ | _, g'⟩
    · rw [hx] at hround
      rcases hround.result with ⟨⟨_, hok⟩, -⟩ | ⟨herror, hlt⟩
      · cases hok
      · exact ⟨done, hround.balanced, hround.rounds_eq, hround.lastStage_eq,
          Or.inr ⟨herror, by omega⟩⟩
    · rw [hx] at hround
      rcases hround.result with ⟨-, rfl⟩ | ⟨⟨_, herror⟩, -⟩
      · have hlast : g'.search.expander.lastStage = g.search.expander.lastStage :=
          hround.lastStage_eq
        have hbalanced : g'.tree.Balanced g'.search.expander.lastStage none (total + 1) :=
          hlast ▸ hround.balanced
        obtain ⟨done, hrest⟩ := ih (round + 1) hbalanced
        have hrounds : g'.search.statistics.rounds = g.search.statistics.rounds + 1 :=
          hround.rounds_eq
        refine ⟨done + 1, ?_, ?_, hrest.lastStage_eq.trans hlast, ?_⟩
        · rw [← hlast, show total + (done + 1) = total + 1 + done by omega]
          exact hrest.balanced
        · rw [hrest.rounds_eq, hrounds]
          omega
        · rcases hrest.result with ⟨hok, rfl⟩ | ⟨herror, hlt⟩
          · exact Or.inl ⟨hok, rfl⟩
          · exact Or.inr ⟨herror, by omega⟩
      · cases herror

/-! ## Extraction -/

/-- A part of a search may be preceded by what completes no round. -/
theorem Ran.of_eq {α : Type} {budget done : Nat} {g' : Growth P T O σ ε}
    {out : Except Failure α × Growth P T O σ ε} (h : Ran last total budget done g' out)
    (hstatistics : g'.search.statistics = g.search.statistics)
    (hexpander : g'.search.expander = g.search.expander) : Ran last total budget done g out where
  balanced := h.balanced
  rounds_eq := hstatistics ▸ h.rounds_eq
  lastStage_eq := hexpander ▸ h.lastStage_eq
  result := h.result

/-- Extraction stores costs on its way down and never fails. -/
theorem extractFrom_ran (fuel best : Nat) (bestCost : Float) {i : Nat}
    (h : g.tree.Balanced last none total) (hi : i < g.tree.size) :
    Ran last total 0 0 g (extractFrom fuel best bestCost i g) := by
  induction fuel generalizing best bestCost i g with
  | zero => exact ⟨h, rfl, rfl, Or.inl ⟨⟨best, rfl⟩, rfl⟩⟩
  | succ fuel ih =>
    obtain ⟨n, hn⟩ := Tree.exists_node? hi
    unfold extractFrom Tree.bestChild
    rw [hn]
    simp only
    cases hbest : Cost.leastBy g.tree.rankOf n.children.toList with
    | none => exact ⟨h, rfl, rfl, Or.inl ⟨⟨best, rfl⟩, rfl⟩⟩
    | some child =>
      have hmem := Array.mem_toList_iff.mp (Cost.leastBy_mem hbest)
      obtain ⟨-, cn, hcn, -⟩ := h.wellFormed.child hn hmem
      obtain ⟨cost, g', n', hmeasure, hbalanced, hn', -, hstatistics, hexpander⟩ :=
        measure_balanced h (Tree.lt_size_of_node? hcn)
      have hlt := Tree.lt_size_of_node? hn'
      simp only [hmeasure]
      split_ifs
      · exact (ih child cost hbalanced hlt).of_eq hstatistics hexpander
      · exact (ih best bestCost hbalanced hlt).of_eq hstatistics hexpander

theorem extractBest_ran (h : g.tree.Balanced last none total) :
    Ran last total 0 0 g g.extractBest := by
  obtain ⟨cost, g', n, hmeasure, hbalanced, hn, -, hstatistics, hexpander⟩ :=
    measure_balanced h h.wellFormed.size_pos
  unfold extractBest
  rw [show g.measure Tree.rootIndex = _ from hmeasure]
  exact (extractFrom_ran _ _ _ hbalanced (Tree.lt_size_of_node? hn)).of_eq hstatistics hexpander

theorem treeSearch_ran (h : g.tree.Balanced g.search.expander.lastStage none total)
    (classification : Classification O) (rounds : Nat) :
    ∃ done, Ran g.search.expander.lastStage total rounds done g
      (g.treeSearch classification rounds) := by
  obtain ⟨done, hrounds⟩ := searchRounds_ran classification rounds 0 h
  unfold treeSearch
  rcases hx : searchRounds classification rounds 0 g with ⟨_ | _, g'⟩
  · rw [hx] at hrounds
    rcases hrounds.result with ⟨⟨_, hok⟩, -⟩ | ⟨⟨e, herror⟩, hlt⟩
    · cases hok
    · cases herror
      exact ⟨done, hrounds.balanced, hrounds.rounds_eq, hrounds.lastStage_eq,
        Or.inr ⟨⟨e, rfl⟩, hlt⟩⟩
  · rw [hx] at hrounds
    rcases hrounds.result with ⟨-, hdone⟩ | ⟨⟨_, herror⟩, -⟩
    · have hbest := extractBest_ran (g := g') hrounds.balanced
      refine ⟨done, hbest.balanced, hbest.rounds_eq.trans hrounds.rounds_eq,
        hbest.lastStage_eq.trans hrounds.lastStage_eq, Or.inl ⟨?_, hdone⟩⟩
      rcases hbest.result with ⟨hok, -⟩ | ⟨-, hlt⟩
      · exact hok
      · exact absurd hlt (Nat.lt_irrefl 0)
    · cases herror

end Growth

/-! ## Sequences of growths -/

namespace Search

/-- How a growth of so many rounds ends: with a result after all of them, or with an error of a
generator after fewer. -/
def Ends (rounds : Nat) (result : Except Failure Nat) (done : Nat) : Prop :=
  ((∃ best, result = .ok best) ∧ done = rounds) ∨ ((∃ e, result = .error (.error e)) ∧ done < rounds)

/-- Grows a tree several times; each result comes with the number of completed rounds. -/
def growAll (s : Search P T O σ ε) (t : Tree P T) :
    List (Classification O × Nat) → List (Except Failure Nat × Nat) × Tree P T × Search P T O σ ε
  | [] => ([], t, s)
  | (classification, rounds) :: calls =>
    match s.grow t classification rounds with
    | (result, t, s) =>
      match s.growAll t calls with
      | (results, t', s') => ((result, s.statistics.rounds) :: results, t', s')

theorem grow_balanced {s : Search P T O σ ε} (hstrategy : s.config.strategy = .treeSearch)
    {t : Tree P T} {total : Nat} (h : t.Balanced s.expander.lastStage none total)
    (classification : Classification O) (rounds : Nat) :
    ∃ result t' s', s.grow t classification rounds = (result, t', s') ∧
      t'.Balanced s'.expander.lastStage none (total + s'.statistics.rounds) ∧
      s'.config.strategy = .treeSearch ∧ Ends rounds result s'.statistics.rounds := by
  obtain ⟨done, hran⟩ := Growth.treeSearch_ran (g := ⟨s.restart, t⟩) h classification rounds
  have hconfig := (Growth.treeSearch_reaches classification rounds ⟨s.restart, t⟩).config_eq
  rw [grow_eq]
  unfold grown
  rw [hstrategy]
  simp only
  generalize Growth.treeSearch classification rounds ⟨s.restart, t⟩ = out at hran hconfig ⊢
  obtain ⟨result, g⟩ := out
  have hdone : g.search.statistics.rounds = done := hran.rounds_eq.trans (Nat.zero_add done)
  have hbalanced : g.tree.Balanced g.search.expander.lastStage none
      (total + g.search.statistics.rounds) := by
    rw [hdone, hran.lastStage_eq]
    exact hran.balanced
  have hstrategy' : g.search.config.strategy = .treeSearch := by
    rw [show g.search.config = _ from hconfig]
    exact hstrategy
  have hends : Ends rounds result g.search.statistics.rounds := by
    rw [hdone]
    exact hran.result
  rcases hran.result with ⟨⟨best, hok⟩, -⟩ | ⟨⟨e, herror⟩, -⟩
  · obtain rfl : result = .ok best := hok
    exact ⟨_, _, _, rfl, hbalanced, hstrategy', hends⟩
  · obtain rfl : result = .error (.error e) := herror
    exact ⟨_, _, _, rfl, hbalanced, hstrategy', hends⟩

theorem growAll_balanced {s : Search P T O σ ε} (hstrategy : s.config.strategy = .treeSearch)
    {t : Tree P T} {total : Nat} (h : t.Balanced s.expander.lastStage none total)
    (calls : List (Classification O × Nat)) :
    (s.growAll t calls).2.1.Balanced (s.growAll t calls).2.2.expander.lastStage none
      (total + ((s.growAll t calls).1.map (·.2)).sum) ∧
    (s.growAll t calls).2.2.config.strategy = .treeSearch ∧
    List.Forall₂ (fun call out => Ends call.2 out.1 out.2) calls (s.growAll t calls).1 := by
  induction calls generalizing s t total with
  | nil => exact ⟨h, hstrategy, .nil⟩
  | cons call calls ih =>
    obtain ⟨classification, rounds⟩ := call
    obtain ⟨result, t', s', hgrow, hbalanced, hstrategy', hends⟩ :=
      grow_balanced hstrategy h classification rounds
    obtain ⟨hlast, hsearch, hall⟩ := ih hstrategy' hbalanced
    unfold growAll
    simp only [hgrow]
    refine ⟨?_, hsearch, .cons hends hall⟩
    rw [List.map_cons, List.sum_cons, ← Nat.add_assoc]
    exact hlast

end Search

/-! ## Conservation -/

/-- The balance of visits between two growths, after `total` completed rounds. -/
structure Tree.Conserved (total : Nat) (t : Tree P T) : Prop where
  root_visits : ∃ root, t.node? rootIndex = some root ∧ root.visits = total
  inner : ∀ i n, t.node? i = some n → n.children ≠ #[] →
    n.expanded = true ∧ n.evaluation.isSome = true ∧
      n.visits = 1 + (n.children.toList.map t.visitsOf).sum
  visited : ∀ i n, t.node? i = some n → 0 < n.visits → n.evaluation.isSome = true
  unvisited : ∀ i n, t.node? i = some n → n.visits = 0 → n.children = #[] ∧ n.expanded = false
  visits_le : ∀ i n, t.node? i = some n → n.visits ≤ total
  select_ok : ∀ d : Descent, ∃ i, d.select t rootIndex = .ok i

/-- No node is visited more often than its parent. -/
theorem Tree.Balanced.visitsOf_le {last : Stage} {total : Nat} {t : Tree P T}
    (h : t.Balanced last none total) {i : Nat} (hi : i < t.size) : t.visitsOf i ≤ total := by
  induction i, hi using h.wellFormed.rooted.induction_up with
  | root => exact Nat.le_of_eq h.root_visits
  | step i p hparent hp ih =>
    obtain ⟨pn, hpn⟩ := exists_node? hp
    have hmem := (h.wellFormed.mem_children_iff p pn i hpn).mpr hparent
    have hne : pn.children ≠ #[] := fun hempty => by
      rw [hempty] at hmem
      cases hmem with | mk hmem => cases hmem
    have hsum := (h.inner p pn hpn hne).2
    have hle : t.visitsOf i ≤ (pn.children.toList.map t.visitsOf).sum :=
      List.single_le_sum (fun _ _ => Nat.zero_le _) _
        (List.mem_map_of_mem (Array.mem_toList_iff.mpr hmem))
    rw [visitsOf_of_node? hpn] at ih
    rw [visitsDue_none] at hsum
    omega

theorem Tree.Balanced.conserved {last : Stage} {total : Nat} {t : Tree P T}
    (h : t.Balanced last none total) : t.Conserved total where
  root_visits := by
    obtain ⟨root, hroot⟩ := exists_node? h.wellFormed.size_pos
    exact ⟨root, hroot, (visitsOf_of_node? hroot).symm.trans h.root_visits⟩
  inner i n hn hne := by
    obtain ⟨hexpanded, hsum⟩ := h.inner i n hn hne
    rw [visitsDue_none, Nat.add_zero] at hsum
    exact ⟨hexpanded, h.measured i n hn (by omega), hsum⟩
  visited := h.measured
  unvisited i n hn hzero := h.unvisited i n hn hzero
  visits_le i n hn := by
    rw [← visitsOf_of_node? hn]
    exact h.visitsOf_le (lt_size_of_node? hn)
  select_ok d := by
    obtain ⟨i, -, hselect, -⟩ := h.walk d h.wellFormed.size_pos (Nat.le_succ t.size)
    exact ⟨i, hselect⟩

/-- A cost is stored only on a node that has none. -/
theorem Meter.measure_eq_setEvaluation (m : Meter P T ε) (n : Node P T) :
    n.evaluation = some (m.measure n).1 ∧ (m.measure n).2.1 = n ∨
      n.setEvaluation (m.measure n).1 = .ok (m.measure n).2.1 := by
  rw [measure_node]
  cases h : n.evaluation with
  | some cost =>
    rw [measure_of_evaluation h]
    refine Or.inl ⟨rfl, ?_⟩
    rw [← h]
  | none =>
    refine Or.inr ?_
    unfold Node.setEvaluation
    rw [h]

/-- Any sequence of growths of a fresh root conserves visits; its growths end early only with errors of
generators, and no cost is ever stored twice. -/
theorem Search.visits_conserved {s : Search P T O σ ε} (hstrategy : s.config.strategy = .treeSearch)
    (program : P) (stage : Stage) (calls : List (Classification O × Nat)) :
    (s.growAll (.ofRoot (.root program stage)) calls).2.1.Conserved
      ((s.growAll (.ofRoot (.root program stage)) calls).1.map (·.2)).sum ∧
    List.Forall₂ (fun call out => Ends call.2 out.1 out.2) calls
      (s.growAll (.ofRoot (.root program stage)) calls).1 ∧
    ∀ (m : Meter P T ε) (n : Node P T), n.evaluation = some (m.measure n).1 ∧ (m.measure n).2.1 = n ∨
      n.setEvaluation (m.measure n).1 = .ok (m.measure n).2.1 := by
  obtain ⟨hbalanced, -, hends⟩ := growAll_balanced hstrategy
    (Tree.balanced_ofRoot s.expander.lastStage program stage) calls
  rw [Nat.zero_add] at hbalanced
  exact ⟨hbalanced.conserved, hends, Meter.measure_eq_setEvaluation⟩

/-- Two growths of one tree, the first of which ends with the second question to the generator. -/
theorem Search.visits_conserved_retried :
    let generator : Generator Nat Nat Unit Nat := fun n _ _ asked =>
      (if asked = 1 then .error (.ofCause (.reported "busy"))
        else .ok [.extending n (n.program + 1) 0], asked + 1)
    let s : Search Nat Nat Unit Nat Unit :=
      ⟨.standard, ⟨[⟨.tiling, generator⟩, ⟨.vectorization, generator⟩], 1, .ofSeed 0, 0⟩,
        .create (.pure fun _ => .ok 1) (), .zero⟩
    let calls : List (Classification Unit × Nat) := [(.empty, 3), (.empty, 2)]
    (s.growAll (.ofRoot (.root 0 0)) calls).2.1.Conserved
      ((s.growAll (.ofRoot (.root 0 0)) calls).1.map (·.2)).sum ∧
    List.Forall₂ (fun call out => Ends call.2 out.1 out.2) calls
      (s.growAll (.ofRoot (.root 0 0)) calls).1 ∧
    ∀ (m : Meter Nat Nat Unit) (n : Node Nat Nat),
      n.evaluation = some (m.measure n).1 ∧ (m.measure n).2.1 = n ∨
        n.setEvaluation (m.measure n).1 = .ok (m.measure n).2.1 := by
  intro generator s calls
  exact visits_conserved rfl 0 0 calls

end LoopTuner
