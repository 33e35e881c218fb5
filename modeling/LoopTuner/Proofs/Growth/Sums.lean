import LoopTuner.Proofs.Cost.Sums
import LoopTuner.Proofs.Growth.Usable
import LoopTuner.Proofs.Tree.Backup

/-!
# The sums of a tree search

A tree search backs up stored costs only, and the nodes record nothing else (`Tree.Accounted`). These costs are
usable, but their sum need not be: finite costs can add up to negative infinity, and a failed measurement after them
turns the sum into NaN. Nothing else does (`Tree.Grown.isNaN_sum_iff`), so there has to be a negative cost
(`Tree.Grown.isNaN_sum_eq_false`).
-/

namespace LoopTuner

variable {P T O σ ε : Type}

/-- What a node has recorded. -/
def Node.statistics (n : Node P T) : Nat × Tally := (n.visits, n.accumulated)

theorem Node.statistics_foldl_record {n : Node P T} {earlier : List Float}
    (h : n.statistics = (earlier.length, earlier.foldl Tally.add .empty)) (costs : List Float) :
    (costs.foldl record n).statistics =
      ((earlier ++ costs).length, (earlier ++ costs).foldl Tally.add .empty) := by
  obtain ⟨hvisits, hsum⟩ := Prod.mk.inj h
  rw [foldl_record, List.length_append, List.foldl_append, ← hvisits, ← hsum]
  rfl

namespace Tree

/-! ## Accounts -/

/-- The statistics of the nodes are those of these calls, each of which backed up the cost that is stored on its
node. -/
structure Accounted (t : Tree P T) (calls : List (Nat × Float)) : Prop where
  wellFormed : t.WellFormed
  stored : ∀ call ∈ calls, t.evaluationOf call.1 = some call.2
  recorded : ∀ i n, t.node? i = some n →
    n.statistics = ((t.costsThrough calls i).length, (t.costsThrough calls i).foldl Tally.add .empty)

theorem accounted_ofRoot (program : P) (stage : Stage) :
    (ofRoot (Node.root program stage : Node P T)).Accounted [] where
  wellFormed := wellFormed_ofRoot rfl rfl
  stored := List.forall_mem_nil _
  recorded i n hn := by
    obtain ⟨-, rfl⟩ := node?_ofRoot hn
    rfl

namespace Accounted

variable {t t' : Tree P T} {calls : List (Nat × Float)}

theorem lt_size (h : t.Accounted calls) : ∀ call ∈ calls, call.1 < t.size :=
  fun call hcall => lt_size_of_evaluationOf (h.stored call hcall)

/-- Storing one more cost makes no difference to the account. -/
theorem of_agree (h : t.Accounted calls) (hplace : Agree Node.place t t')
    (hstatistics : Agree Node.statistics t t')
    (hstored : ∀ i cost, t.evaluationOf i = some cost → t'.evaluationOf i = some cost) :
    t'.Accounted calls where
  wellFormed := h.wellFormed.of_agree hplace
  stored call hcall := hstored _ _ (h.stored call hcall)
  recorded i n hn := by
    obtain ⟨m, hm, hsame⟩ := hstatistics.node? hn
    rw [costsThrough_congr fun c _ => hplace.pathToRoot_eq c.1, ← hsame]
    exact h.recorded i m hm

/-- A stored cost that is backed up is one more call. -/
theorem backup (h : t.Accounted calls) {i : Nat} {cost : Float} (hcost : t.evaluationOf i = some cost) :
    ∃ t', t.backup i cost = .ok t' ∧ t'.Accounted (calls ++ [(i, cost)]) := by
  obtain ⟨t', hbackup, hplace, hnodes⟩ := h.wellFormed.rooted.exists_backup (lt_size_of_evaluationOf hcost) cost
  refine ⟨t', hbackup, h.wellFormed.of_agree hplace, ?_, fun j n hn => ?_⟩
  · have hevaluation : Agree Node.evaluation t t' := Agree.of_map hnodes fun j n => by
      rw [Node.foldl_record]
    rw [hevaluation.evaluationOf, List.forall_mem_append, List.forall_mem_singleton]
    exact ⟨h.stored, hcost⟩
  · rw [hnodes] at hn
    obtain ⟨m, hm, rfl⟩ := Option.map_eq_some_iff.mp hn
    rw [costsThrough_congr fun c _ => hplace.pathToRoot_eq c.1, costsThrough_append]
    exact Node.statistics_foldl_record (h.recorded j m hm) _

/-- New nodes have recorded nothing, and no call came from them. -/
theorem expandedBy (h : t.Accounted calls) {i : Nat} {kids : List (Node P T)}
    (ht : (t.expandedBy i kids).WellFormed) (hkids : ∀ kid ∈ kids, kid.statistics = (0, .empty)) :
    (t.expandedBy i kids).Accounted calls := by
  have hpath : ∀ j, j < t.size → (t.expandedBy i kids).pathToRoot j = t.pathToRoot j := fun j hj =>
    h.wellFormed.rooted.pathToRoot_eq ht.rooted
      (fun k hk => bind_node?_expandedBy (fun _ _ => rfl) i kids hk) hj
  have hcosts := costsThrough_congr fun c hc => hpath c.1 (h.lt_size c hc)
  refine ⟨ht, fun call hcall => ?_, fun j n hn => ?_⟩
  · rw [evaluationOf_expandedBy_old i kids (h.lt_size call hcall)]
    exact h.stored call hcall
  · rw [hcosts]
    rcases Nat.lt_or_ge j t.size with hlt | hge
    · obtain ⟨m, hm, rfl⟩ := node?_expandedBy_old hlt hn
      rw [← h.recorded j m hm]
      split_ifs <;> rfl
    · obtain ⟨k, rfl⟩ := Nat.exists_eq_add_of_le hge
      rw [node?_expandedBy_new] at hn
      rw [hkids n (List.mem_of_getElem? hn), costsThrough_eq_nil]
      · rfl
      · -- the ways up from nodes that were there pass no new ones
        intro call hcall hmem
        have hle := h.wellFormed.rooted.le_of_mem_pathToRoot (h.lt_size call hcall) hmem
        have hlt := h.lt_size call hcall
        omega

end Accounted

end Tree

/-! ## Searches -/

namespace Growth

variable {classification : Classification O} {g g' : Growth P T O σ ε} {calls : List (Nat × Float)}

theorem measure_accounted (h : g.tree.Accounted calls) (i : Nat) :
    (g.measure i).2.tree.Accounted calls :=
  h.of_agree (agree_measure (fun _ _ => rfl) g i) (agree_measure (fun _ _ => rfl) g i)
    fun _ _ hcost => (measure_change .treeSearch g i).stored hcost

theorem expandSelected_accounted (h : g.tree.Accounted calls) (i : Nat) :
    (g.expandSelected classification i).2.tree.Accounted calls := by
  rcases g.expandSelected_cases classification i with hsame | ⟨n, hn, -, hexpand⟩
  · rw [hsame]
    exact h
  · rw [hexpand, expand_eq hn]
    rcases g.search.expander.candidates n i classification with ⟨_ | candidates, x⟩
    · exact h
    · refine h.expandedBy (h.wellFormed.expandedBy hn fun kid hkid => ?_) fun kid hkid => ?_
      · obtain ⟨c, -, hbecomes⟩ := Candidate.exists_of_mem_toNodes hkid
        exact ⟨c, hbecomes⟩
      · obtain ⟨c, -, offset, evaluation, rfl⟩ := Candidate.exists_of_mem_toNodes hkid
        rfl

/-- The cost that measuring answers is the one that it leaves on the node. -/
theorem evaluationOf_of_measure {i : Nat} {cost : Float} (h : g.measure i = (.ok cost, g')) :
    g'.tree.evaluationOf i = some cost := by
  by_cases hi : i < g.tree.size
  · obtain ⟨c, g₁, hmeasure, hcost, -⟩ := exists_measure_eq hi
    rw [hmeasure] at h
    cases h
    exact hcost
  · rw [measure_of_none (Tree.node?_eq_none (Nat.not_lt.mp hi))] at h
    cases h

/-- Some calls account for the tree. -/
def Accountable (g : Growth P T O σ ε) : Prop := ∃ calls, g.tree.Accounted calls

theorem Accountable.measure (h : g.Accountable) (i : Nat) : (g.measure i).2.Accountable := by
  obtain ⟨calls, h⟩ := h
  exact ⟨calls, measure_accounted h i⟩

/-- A round backs up the cost of the selected node, which is stored by then. -/
theorem Accountable.searchRound (h : g.Accountable) (round : Nat) :
    (g.searchRound classification round).2.Accountable := by
  cases hselect : g.search.config.descent.select g.tree Tree.rootIndex with
  | error v =>
    unfold Growth.searchRound
    simp only [hselect]
    exact h
  | ok i =>
    refine searchRound_preserve (fun hg i => hg.measure i) (fun {g g' i cost} hg hm => ?_) hselect ?_ round
    · obtain ⟨calls, hmeasured⟩ := hg.measure i
      rw [hm] at hmeasured
      obtain ⟨t', hbackup, haccounted⟩ := hmeasured.backup (evaluationOf_of_measure hm)
      refine ⟨calls ++ [(i, cost)], ?_⟩
      unfold Growth.backup
      rw [hbackup]
      exact haccounted
    · obtain ⟨calls, h⟩ := h
      exact ⟨calls, expandSelected_accounted h i⟩

end Growth

theorem Search.accounted_grow {s : Search P T O σ ε} (hs : s.config.strategy = .treeSearch) {t : Tree P T}
    {calls : List (Nat × Float)} (h : t.Accounted calls) (classification : Classification O) (rounds : Nat) :
    ∃ calls', (s.grow t classification rounds).2.1.Accounted calls' := by
  rw [tree_grow]
  unfold grown
  rw [hs]
  exact Growth.treeSearch_preserve (I := Growth.Accountable) (fun hg => hg.searchRound)
    (fun hg => hg.measure) (g := ⟨s.restart, t⟩) ⟨calls, h⟩ rounds

namespace Tree

/-- Usable costs are summed up, and the sum is NaN exactly if they clash. -/
theorem Accounted.sum_eq {t : Tree P T} {calls : List (Nat × Float)} (h : t.Accounted calls) (ht : t.Usable)
    {i : Nat} {n : Node P T} (hn : t.node? i = some n) :
    n.accumulated.sum = Cost.total (t.costsThrough calls i) ∧
      (n.accumulated.sum.isNaN = true ↔ Cost.Clash (t.costsThrough calls i)) := by
  have htotal : n.accumulated.sum = Cost.total (t.costsThrough calls i) := by
    rw [(Prod.mk.inj (h.recorded i n hn)).2]
    exact Tally.sum_foldl_add .empty _
  refine ⟨htotal, ?_⟩
  rw [htotal]
  refine Cost.isNaN_total_iff fun cost hcost => ?_
  obtain ⟨call, hcall, rfl⟩ := mem_costsThrough hcost
  exact ht _ _ (h.stored call hcall)

theorem Grown.exists_accounted {program : P} {stage : Stage} {t : Tree P T}
    (h : Grown (· = .treeSearch) (Node.root program stage) t) : t.Usable ∧ ∃ calls, t.Accounted calls := by
  induction h with
  | root => exact ⟨usable_ofRoot rfl, [], accounted_ofRoot program stage⟩
  | grow _ s hs classification rounds ih =>
    obtain ⟨husable, calls, haccounted⟩ := ih
    exact ⟨s.usable_grow husable classification rounds, s.accounted_grow hs haccounted classification rounds⟩

/-- As long as no cost is negative, no sum is NaN. -/
theorem Grown.isNaN_sum_eq_false {program : P} {stage : Stage} {t : Tree P T}
    (h : Grown (· = .treeSearch) (Node.root program stage) t)
    (hcosts : ∀ i cost, t.evaluationOf i = some cost → ¬ cost < 0) {i : Nat} {n : Node P T}
    (hn : t.node? i = some n) : n.accumulated.sum.isNaN = false := by
  obtain ⟨husable, calls, haccounted⟩ := h.exists_accounted
  rw [Bool.eq_false_iff, Ne, (haccounted.sum_eq husable hn).2]
  refine Cost.not_clash_of_not_lt_zero fun cost hcost => ?_
  obtain ⟨call, hcall, rfl⟩ := mem_costsThrough hcost
  exact hcosts _ _ (haccounted.stored call hcall)

/-- In a tree that tree searches have grown from a fresh root, every node has added up the stored costs that were
backed up through it, all of them usable. The sum is NaN exactly if an infinite cost, that of a failed measurement,
came after costs whose sum had got to negative infinity. -/
theorem Grown.isNaN_sum_iff {program : P} {stage : Stage} {t : Tree P T}
    (h : Grown (· = .treeSearch) (Node.root program stage) t) :
    ∃ calls : List (Nat × Float),
      (∀ call ∈ calls, t.evaluationOf call.1 = some call.2 ∧ Cost.isUsable call.2 = true) ∧
      ∀ i n, t.node? i = some n →
        n.visits = (t.costsThrough calls i).length ∧
        n.accumulated.sum = Cost.total (t.costsThrough calls i) ∧
        (n.accumulated.sum.isNaN = true ↔ Cost.Clash (t.costsThrough calls i)) := by
  obtain ⟨husable, calls, haccounted⟩ := h.exists_accounted
  refine ⟨calls, fun call hcall => ?_, fun i n hn => ?_⟩
  · have hstored := haccounted.stored call hcall
    exact ⟨hstored, husable _ _ hstored⟩
  · exact ⟨(Prod.mk.inj (haccounted.recorded i n hn)).1, haccounted.sum_eq husable hn⟩

end Tree

/-! ## A sum that overflows -/

/-- The least finite float. -/
def Cost.leastFinite : Float := .ofBits 0xffefffffffffffff

namespace Search

/-- A chain of three programs. The first two have the least finite cost, the third one cannot be measured. -/
def overflowing : Search Nat Nat Unit Unit Unit where
  config := .standard
  expander :=
    let next : Phase Nat Nat Unit Unit := ⟨.tiling, .pure fun n _ _ => .ok [.extending n (n.program + 1) 0]⟩
    ⟨[next, next], 25, .ofSeed 0, ()⟩
  meter :=
    let failure : Error := .ofCause (.reported "failed")
    .create (.pure fun n => if n.program < 2 then .ok Cost.leastFinite else .error failure) ()
  statistics := .zero

/-- The tree after three rounds. -/
def overflowed : Tree Nat Nat := (overflowing.grow (.ofRoot (.root 0 0)) .empty 3).2.1

/-- The root of that tree has had a clash. -/
theorem isNaN_sum_overflowed :
    Tree.Grown (· = .treeSearch) (.root 0 0) overflowed ∧
      ∃ calls, (overflowed.costsThrough calls Tree.rootIndex).length = 3 ∧
        Cost.Clash (overflowed.costsThrough calls Tree.rootIndex) := by
  have hgrown : Tree.Grown (· = .treeSearch) (.root 0 0) overflowed :=
    .grow .root overflowing (by rfl) .empty 3
  obtain ⟨calls, -, hnodes⟩ := hgrown.isNaN_sum_iff
  obtain ⟨hvisits, -, hnan⟩ := hnodes Tree.rootIndex _ rfl
  exact ⟨hgrown, calls, hvisits.symm, hnan.mp (by decide)⟩

/-- The first two costs add up to negative infinity at the root. The third one is infinite, and the sum is NaN. -/
theorem exists_undefined_sum :
    ∃ t s' root, overflowing.grow (.ofRoot (.root 0 0)) .empty 3 = (.ok 0, t, s') ∧
      overflowing.config.validate = .ok () ∧ overflowing.config.strategy = .treeSearch ∧
      t.node? Tree.rootIndex = some root ∧ root.visits = 3 ∧ root.accumulated.sum.isNaN = true :=
  ⟨_, _, _, rfl, by decide, rfl, rfl, rfl, by decide⟩

end Search

end LoopTuner
