import LoopTuner.Proofs.Growth.Moves
import LoopTuner.Proofs.Growth.Siblings
import LoopTuner.Proofs.Sweep.CandidateTree
import LoopTuner.Proofs.Sweep.Refinement

/-!
# Exhausting the candidates

With generators by rule, an evaluator by program and enough rounds, a best-first search ends with an empty
queue, after as many rounds as the full tree has nodes, and its tree is complete (`Search.exhausts`). A
waiting node stands for everything below it and a taken one only for itself (`Naive.due`). A round takes
one node and adds its candidates, so what is due at all nodes together stays the same
(`Naive.Unfolds.ledger`).
-/

namespace LoopTuner

variable {P T O σ ε : Type}

/-! ## The ledger -/

/-- A sum of lists in which one summand gives up a part. -/
theorem perm_flatMap_of_ne {α β : Type} {l : List α} {a : α} {f f' : α → List β} {extra : List β}
    (hl : l.Nodup) (ha : a ∈ l) (hsame : ∀ b ∈ l, b ≠ a → f' b = f b)
    (hperm : (f' a ++ extra).Perm (f a)) : (l.flatMap f' ++ extra).Perm (l.flatMap f) := by
  induction l with
  | nil => cases ha
  | cons b l ih =>
    obtain ⟨hb, hl⟩ := List.nodup_cons.mp hl
    rw [List.flatMap_cons, List.flatMap_cons]
    rcases List.mem_cons.mp ha with rfl | ha
    · have hrest : l.flatMap f' = l.flatMap f := by
        refine List.flatMap_congr fun c hc => hsame c (List.mem_cons_of_mem _ hc) ?_
        rintro rfl
        exact hb hc
      rw [hrest, List.append_assoc]
      refine (List.perm_append_comm.append_left (f' a)).trans ?_
      rw [← List.append_assoc]
      exact hperm.append_right _
    · have hne : b ≠ a := by
        rintro rfl
        exact hb ha
      rw [hsame b List.mem_cons_self hne, List.append_assoc]
      exact (ih hl ha fun c hc => hsame c (List.mem_cons_of_mem _ hc)).append_left _

/-- The finding at a node has the cost of the node. -/
theorem Tree.costOf_eq_cost {t : Tree P T} {i : Nat} {n : Node P T} (h : t.node? i = some n) :
    t.costOf i = n.finding.cost := by
  unfold costOf
  rw [h]
  rfl

namespace Naive

section Unfolds

variable (answer : P → Except Error Float) (classification : Classification O)
  (rules : List (Rule P T O))

/-- What node `i` stands for: itself once it was taken, until then everything below it. -/
def due (r : Naive P T σ ε) (i : Nat) : List (Finding P T) :=
  (r.tree.entryOf i).elim [] fun entry =>
    if i ∈ r.taken then [entry.1] else Finding.below answer classification rules entry

/-- A sweep on its way to all that is found from its root on. -/
structure Unfolds (top : Finding P T × Stage) (r : Naive P T σ ε) : Prop where
  follows : r.meter.evaluator.Follows answer
  root : r.tree.entryOf Tree.rootIndex = some top
  nodup : r.taken.Nodup
  waiting : ∀ i n, r.tree.node? i = some n → i ∉ r.taken → n.children = #[]
  filled : ∀ i n, r.tree.node? i = some n → i ∈ r.taken →
    n.children.toList.map r.tree.entryOf =
      (Finding.next answer classification rules n.stage n.finding).map fun f => some (f, n.stage + 1)
  ledger : ((List.range r.tree.size).flatMap (r.due answer classification rules)).Perm
    (Finding.below answer classification rules top)

end Unfolds

variable {answer : P → Except Error Float} {classification : Classification O}
  {rules : List (Rule P T O)} {top : Finding P T × Stage} {r : Naive P T σ ε}

theorem due_of_taken {i : Nat} {entry : Finding P T × Stage} (h : r.tree.entryOf i = some entry)
    (hi : i ∈ r.taken) : r.due answer classification rules i = [entry.1] := by
  unfold due
  rw [h]
  exact if_pos hi

theorem due_of_waiting {i : Nat} {entry : Finding P T × Stage} (h : r.tree.entryOf i = some entry)
    (hi : i ∉ r.taken) :
    r.due answer classification rules i = Finding.below answer classification rules entry := by
  unfold due
  rw [h]
  exact if_neg hi

/-- Waiting nodes stand for everything below them. -/
theorem flatMap_due_of_waiting {indices : List Nat} (h : ∀ i ∈ indices, i ∉ r.taken)
    {entries : List (Finding P T × Stage)} (hentries : indices.map r.tree.entryOf = entries.map some) :
    indices.flatMap (r.due answer classification rules) =
      entries.flatMap (Finding.below answer classification rules) := by
  induction indices generalizing entries with
  | nil =>
    obtain rfl := List.map_eq_nil_iff.mp hentries.symm
    rfl
  | cons i indices ih =>
    obtain ⟨entry, entries, rfl, hentry, hrest⟩ := List.map_eq_cons_iff.mp hentries.symm
    rw [List.flatMap_cons, List.flatMap_cons, due_of_waiting hentry.symm (h i List.mem_cons_self),
      ih (fun j hj => h j (List.mem_cons_of_mem _ hj)) hrest.symm]

section Grown

variable {i : Nat} {n : Node P T} {kids : List (Float × Node P T)} {memory : σ} {meter : Meter P T ε}

theorem map_entryOf_grown (i : Nat) (kids : List (Float × Node P T)) (memory : σ) (meter : Meter P T ε) :
    (List.range' r.tree.size kids.length).map (r.grown i kids memory meter).tree.entryOf =
      (kids.map fun e => e.2.entry).map some := by
  have h := Tree.map_entryOf_expandedBy r.tree i (kids.map (·.2))
  rw [List.length_map, List.map_map] at h
  rw [List.map_map]
  exact h

/-- Taking a node pays for it, and leaves what is below it to its candidates. -/
theorem Unfolds.ledger_grown (h : r.Unfolds answer classification rules top)
    (htaken : ∀ j ∈ r.taken, j < r.tree.size) (hn : r.tree.node? i = some n) (hi : i ∉ r.taken)
    (hkids : (kids.map fun e => e.2.entry) =
      (Finding.next answer classification rules n.stage n.finding).map fun f => (f, n.stage + 1)) :
    ((List.range (r.grown i kids memory meter).tree.size).flatMap
      ((r.grown i kids memory meter).due answer classification rules)).Perm
        (Finding.below answer classification rules top) := by
  have hlt := Tree.lt_size_of_node? hn
  have hold : ∀ j, j < r.tree.size →
      (r.grown i kids memory meter).tree.entryOf j = r.tree.entryOf j :=
    fun j hj => Tree.entryOf_expandedBy_old i _ hj
  have hsame : ∀ j ∈ List.range r.tree.size, j ≠ i →
      (r.grown i kids memory meter).due answer classification rules j =
        r.due answer classification rules j := by
    intro j hj hne
    have hmem : j ∈ (r.grown i kids memory meter).taken ↔ j ∈ r.taken :=
      List.mem_cons.trans (or_iff_right hne)
    unfold due
    simp only [hold j (List.mem_range.mp hj), hmem]
  have hpaid : (r.grown i kids memory meter).due answer classification rules i = [n.finding] :=
    due_of_taken ((hold i hlt).trans (Tree.entryOf_of_node? hn)) List.mem_cons_self
  have howed : r.due answer classification rules i =
      Finding.below answer classification rules (n.finding, n.stage) :=
    due_of_waiting (Tree.entryOf_of_node? hn) hi
  have hnew : (List.range' r.tree.size kids.length).flatMap
        ((r.grown i kids memory meter).due answer classification rules) =
      (kids.map fun e => e.2.entry).flatMap (Finding.below answer classification rules) := by
    refine flatMap_due_of_waiting (fun j hj hmem => ?_) (map_entryOf_grown i kids memory meter)
    have hge := (List.mem_range'_1.mp hj).1
    rcases List.mem_cons.mp hmem with rfl | hmem
    · exact absurd hlt (Nat.not_lt.mpr hge)
    · exact absurd (htaken j hmem) (Nat.not_lt.mpr hge)
  -- among the old nodes only `i` is due less, and the new nodes are due the difference
  refine .trans ?_ h.ledger
  rw [size_grown, List.range_eq_range', ← List.range'_append_1, Nat.zero_add, List.flatMap_append, hnew,
    ← List.range_eq_range']
  refine perm_flatMap_of_ne List.nodup_range (List.mem_range.mpr hlt) hsame ?_
  rw [hpaid, howed, hkids]
  exact (Finding.below_perm answer classification rules n.stage n.finding).symm

theorem Unfolds.grown (h : r.Unfolds answer classification rules top)
    (htaken : ∀ j ∈ r.taken, j < r.tree.size) (hn : r.tree.node? i = some n) (hi : i ∉ r.taken)
    (hkids : (kids.map fun e => e.2.entry) =
      (Finding.next answer classification rules n.stage n.finding).map fun f => (f, n.stage + 1))
    (hchildren : ∀ kid ∈ kids, kid.2.children = #[]) (hmeter : meter.evaluator.Follows answer) :
    (r.grown i kids memory meter).Unfolds answer classification rules top where
  follows := hmeter
  root := (Tree.entryOf_expandedBy_old i _ (Tree.lt_size_of_entryOf h.root)).trans h.root
  nodup := List.nodup_cons.mpr ⟨hi, h.nodup⟩
  waiting := by
    intro j m' hm' hj
    rcases node?_grown hm' with ⟨m, hm, -, hsame⟩ | ⟨k, cost, rfl, hk⟩
    · rw [hsame fun heq => hj (heq ▸ List.mem_cons_self)]
      exact h.waiting j m hm fun hmem => hj (List.mem_cons_of_mem _ hmem)
    · exact hchildren _ (List.mem_of_getElem? hk)
  filled := by
    intro j m' hm' hj
    have hlt : j < r.tree.size := by
      rcases List.mem_cons.mp hj with rfl | hj
      · exact Tree.lt_size_of_node? hn
      · exact htaken j hj
    obtain ⟨m, hm, rfl⟩ := Tree.node?_expandedBy_old hlt hm'
    by_cases hij : j = i
    · subst hij
      rw [hn] at hm
      cases hm
      rw [if_pos rfl, List.length_map,
        Node.toList_children_adoptAll (n := n.markExpanded) (h.waiting j n hn hi), map_entryOf_grown,
        hkids, List.map_map]
      rfl
    · rw [if_neg hij]
      have hold := h.filled j m hm ((List.mem_cons.mp hj).resolve_left hij)
      rw [← hold]
      refine List.map_congr_left fun c hc => Tree.entryOf_expandedBy_old i _ ?_
      have hmem : r.tree.entryOf c ∈ m.children.toList.map r.tree.entryOf := List.mem_map_of_mem hc
      rw [hold] at hmem
      obtain ⟨f, -, hf⟩ := List.mem_map.mp hmem
      exact Tree.lt_size_of_entryOf hf.symm
  ledger := h.ledger_grown htaken hn hi hkids

end Grown

/-! ## Rounds -/

variable {p : Pipeline P T O σ} {s : Sweep} {g : Growth P T O σ ε}

theorem Unfolds.sweepRound (h : r.Unfolds answer classification rules top) (hg : r.Matches p g)
    (htracked : r.Tracked s) (hp : p.Follows rules) {e : Queued} {queue : List Queued}
    (hpop : Queued.pop? s.queue = some (e, queue)) (round : Nat) :
    ∃ (r' : Naive P T σ ε) (s' : Sweep) (g' : Growth P T O σ ε),
      g.sweepRound classification round e.index { s with queue := queue } = (.ok s', g') ∧
      r'.Matches p g' ∧ r'.Tracked s' ∧ r'.Unfolds answer classification rules top ∧
      r'.taken.length = r.taken.length + 1 ∧
      g'.search.statistics.rounds = g.search.statistics.rounds + 1 := by
  obtain ⟨⟨hlt, hi⟩, -⟩ := htracked.covers.waiting_of_pop? hpop
  obtain ⟨n, hn⟩ := Tree.exists_node? hlt
  obtain ⟨memory, hgenerate⟩ := hp.generate classification n r.memory
  obtain ⟨r', s', g', htake, hround, hg', htracked'⟩ :=
    hg.sweepRound_of_generate htracked hpop hn hgenerate round
  rw [take_of_generate hn hgenerate] at htake
  cases htake
  refine ⟨_, s', g', hround, hg', htracked', ?_, rfl, ?_⟩
  · refine h.grown htracked.taken_lt hn hi (Growth.entries_sweepKids h.follows _ n e.index)
      (fun kid hkid => ?_) ?_
    · obtain ⟨-, c, -, offset, evaluation, hkid⟩ := Growth.exists_of_mem_sweepKids hkid
      rw [hkid]
      rfl
    · rw [Evaluator.Follows, Meter.evaluator_measureAll]
      exact h.follows
  · exact Growth.rounds_of_sweepRound hround

/-- The rounds end when every node was taken, or at their number. -/
theorem Unfolds.sweepRounds (h : r.Unfolds answer classification rules top) (hg : r.Matches p g)
    (htracked : r.Tracked s) (hp : p.Follows rules) (count round : Nat) :
    ∃ (r' : Naive P T σ ε) (s' : Sweep) (g' : Growth P T O σ ε) (done : Nat),
      Growth.sweepRounds classification count round s g = (.ok s', g') ∧
      r'.Matches p g' ∧ r'.Tracked s' ∧ r'.Unfolds answer classification rules top ∧
      r'.taken.length = r.taken.length + done ∧
      g'.search.statistics.rounds = g.search.statistics.rounds + done ∧
      (s'.queue = [] ∨ done = count) := by
  induction count generalizing r s g round with
  | zero => exact ⟨r, s, g, 0, rfl, hg, htracked, h, rfl, rfl, Or.inr rfl⟩
  | succ count ih =>
    unfold Growth.sweepRounds
    cases hpop : Queued.pop? s.queue with
    | none => exact ⟨r, s, g, 0, rfl, hg, htracked, h, rfl, rfl, Or.inl (Queued.pop?_eq_none hpop)⟩
    | some popped =>
      obtain ⟨e, queue⟩ := popped
      obtain ⟨r₁, s₁, g₁, hround, hg₁, htracked₁, h₁, htaken₁, hrounds₁⟩ :=
        h.sweepRound hg htracked hp hpop round
      obtain ⟨r', s', g', done, hrun, hg', htracked', h', htaken', hrounds', hend⟩ :=
        ih h₁ hg₁ htracked₁ (round + 1)
      simp only [hround]
      refine ⟨r', s', g', done + 1, hrun, hg', htracked', h', by omega, by omega, ?_⟩
      exact hend.imp_right (congrArg (· + 1))

/-! ## The end -/

theorem due_ne_nil {i : Nat} (hi : i < r.tree.size) : r.due answer classification rules i ≠ [] := by
  obtain ⟨n, hn⟩ := Tree.exists_node? hi
  by_cases htaken : i ∈ r.taken
  · rw [due_of_taken (Tree.entryOf_of_node? hn) htaken]
    exact List.cons_ne_nil _ _
  · rw [due_of_waiting (Tree.entryOf_of_node? hn) htaken]
    exact Rose.labels_ne_nil _

/-- There are never more nodes than can be found from the root on. -/
theorem Unfolds.size_le (h : r.Unfolds answer classification rules top) :
    r.tree.size ≤ (Finding.below answer classification rules top).length := by
  rw [← h.ledger.length_eq, List.length_flatMap]
  calc r.tree.size = ((List.range r.tree.size).map _).length := by
        rw [List.length_map, List.length_range]
    _ ≤ _ := List.length_le_sum_of_one_le _ fun k hk => by
        obtain ⟨i, hi, rfl⟩ := List.mem_map.mp hk
        exact List.length_pos_of_ne_nil (due_ne_nil (List.mem_range.mp hi))

/-- If the queue is empty, or as many rounds are over as there are findings, then every node was taken. -/
theorem Unfolds.taken_perm (h : r.Unfolds answer classification rules top) (htracked : r.Tracked s)
    (hend : s.queue = [] ∨ (Finding.below answer classification rules top).length ≤ r.taken.length) :
    r.taken.Perm (List.range r.tree.size) := by
  have hsub : r.taken.Subperm (List.range r.tree.size) :=
    h.nodup.subperm fun i hi => List.mem_range.mpr (htracked.taken_lt i hi)
  rcases hend with hqueue | hlength
  · refine (List.perm_ext_iff_of_nodup h.nodup List.nodup_range).mpr fun i =>
      ⟨fun hi => hsub.subset hi, fun hi => ?_⟩
    by_contra hnot
    have hmem := htracked.covers.mem_queue (List.mem_range.mp hi) hnot
    rw [hqueue] at hmem
    cases hmem
  · refine hsub.perm_of_length_le ?_
    rw [List.length_range]
    exact h.size_le.trans hlength

/-- The queue holds no node that was taken. -/
theorem Tracked.queue_eq_nil (h : r.Tracked s) (hall : ∀ i, i < r.tree.size → i ∈ r.taken) :
    s.queue = [] := by
  refine List.eq_nil_iff_forall_not_mem.mpr fun e he => ?_
  obtain ⟨⟨hlt, hnot⟩, -⟩ := (h.covers.mem_queue_iff e).mp he
  exact hnot (hall e.index hlt)

/-- Once every node was taken, the tree has all findings. -/
theorem Unfolds.findings (h : r.Unfolds answer classification rules top)
    (hall : ∀ i, i < r.tree.size → i ∈ r.taken) :
    (r.tree.toList.map Node.finding).Perm (Finding.below answer classification rules top) := by
  refine .trans (.of_eq ?_) h.ledger
  have hdue : (List.range r.tree.size).map (r.due answer classification rules) =
      r.tree.toList.map fun n => [n.finding] := by
    refine List.ext_getElem ?_ fun i hi hi' => ?_
    · rw [List.length_map, List.length_range, List.length_map]
      rfl
    · rw [List.length_map, List.length_range] at hi
      rw [List.getElem_map, List.getElem_range, List.getElem_map]
      exact due_of_taken (Tree.entryOf_of_node? (Array.getElem?_eq_getElem hi)) (hall i hi)
  rw [List.map_eq_flatMap, List.flatMap_def, List.flatMap_def, hdue]

/-- The children of a taken node are its candidates. -/
theorem Unfolds.children (h : r.Unfolds answer classification rules top) {i : Nat} {n : Node P T}
    (hn : r.tree.node? i = some n) (hi : i ∈ r.taken) :
    List.Forall₂ (fun c f => r.tree.entryOf c = some (f, n.stage + 1)) n.children.toList
      (Finding.next answer classification rules n.stage n.finding) := by
  have hfilled := h.filled i n hn hi
  rwa [← List.forall₂_eq_eq_eq, List.forall₂_map_left_iff, List.forall₂_map_right_iff] at hfilled

/-- Once every node was taken, the tree shows all candidates below each node. -/
theorem Unfolds.shows (h : r.Unfolds answer classification rules top)
    (hall : ∀ i, i < r.tree.size → i ∈ r.taken) {i stage : Nat} {f : Finding P T}
    (hi : r.tree.entryOf i = some (f, stage)) :
    r.tree.Shows i
      ((Finding.full answer classification (rules.drop stage) stage f).arrange Finding.le) := by
  -- by the rules that are left, as the full tree is built
  induction hrest : rules.drop stage generalizing i stage f with
  | nil =>
    obtain ⟨n, hn, hentry⟩ := Option.bind_eq_some_iff.mp hi
    cases hentry
    have hchildren := h.children hn (hall i (Tree.lt_size_of_node? hn))
    have hnext := Finding.next_of_drop_eq_nil answer classification hrest n.finding
    rw [← hrest, Finding.arrange_full, hnext, List.map_nil]
    rw [hnext] at hchildren
    exact .node hn (List.forall₂_nil_right_iff.mpr (List.forall₂_nil_right_iff.mp hchildren))
  | cons rule rest ih =>
    obtain ⟨n, hn, hentry⟩ := Option.bind_eq_some_iff.mp hi
    cases hentry
    have hchildren := h.children hn (hall i (Tree.lt_size_of_node? hn))
    have hrest' : rules.drop (n.stage + 1) = rest := by
      rw [← List.drop_drop, hrest]
      rfl
    rw [← hrest, Finding.arrange_full, hrest']
    exact .node hn (List.forall₂_map_right_iff.mpr (hchildren.imp fun c f hc => ih hc hrest'))

/-- No finding of the tree undercuts the best node. -/
theorem Tracked.not_cost_lt_best (h : r.Tracked s) :
    ∃ n cost, r.tree.node? s.best = some n ∧ n.evaluation = some cost ∧
      ∀ f ∈ r.tree.toList.map Node.finding, ¬ f.cost < cost := by
  have hbest := h.covers.best
  obtain ⟨n, hn⟩ := Tree.exists_node? hbest.best_lt
  refine ⟨n, _, hn, h.measured s.best n hn, fun f hf => ?_⟩
  obtain ⟨m, hm, rfl⟩ := List.mem_map.mp hf
  obtain ⟨i, hi⟩ := List.mem_iff_getElem?.mp hm
  have hi' : r.tree.node? i = some m := Array.getElem?_toList.symm.trans hi
  rw [← Tree.costOf_eq_cost hi']
  exact hbest.not_lt i (Tree.lt_size_of_node? hi')

/-- The start of a sweep, from a root without children. -/
theorem unfolds_start {m : Meter P T ε} (h : m.evaluator.Follows answer) {root : Node P T}
    (hchildren : root.children = #[]) (memory : σ) :
    (start root memory m).Unfolds answer classification rules (root.rootFinding answer, root.stage) := by
  have hroot : (start root memory m).tree.entryOf Tree.rootIndex =
      some (root.rootFinding answer, root.stage) := by
    refine (Tree.entryOf_of_node? (n := (m.measure root).2.1) rfl).trans ?_
    rw [Meter.measure_node, Meter.measure_of_follows h]
    rfl
  exact {
    follows := by
      unfold start Evaluator.Follows
      rw [Meter.evaluator_measure]
      exact h
    root := hroot
    nodup := List.nodup_nil
    waiting := by
      intro i n hn _
      obtain ⟨-, rfl⟩ := Tree.node?_ofRoot hn
      rw [Meter.measure_node]
      exact hchildren
    filled := by
      intro i n _ hi
      cases hi
    ledger := by
      rw [← due_of_waiting hroot List.not_mem_nil]
      exact .of_eq (List.flatMap_singleton _ 0) }

end Naive

/-! ## Growing -/

/-- The tree below a root is complete: it shows all candidates, siblings in the order of their costs, and
has no other nodes. -/
structure Tree.Complete (t : Tree P T) (full : Rose (Finding P T)) : Prop where
  wellFormed : t.WellFormed
  shows : t.Shows rootIndex (full.arrange Finding.le)
  findings : (t.toList.map Node.finding).Perm full.labels

namespace Search

/-- If the generators answer by rules and the evaluator by the program, then a best-first search with at
least as many rounds as the full tree of candidates has nodes takes exactly that many rounds. It ends with
an empty queue and a complete tree, and no candidate undercuts the node that it returns. -/
theorem exhausts {s : Search P T O σ ε} (hstrategy : s.config.strategy = .bestFirst)
    {rules : List (Rule P T O)} (hrules : s.expander.pipeline.Follows rules)
    {answer : P → Except Error Float} (hanswer : s.meter.evaluator.Follows answer) {root : Node P T}
    (hparent : root.parent = none) (hchildren : root.children = #[]) (hexpanded : root.expanded = false)
    (hcost : ∀ c, root.evaluation = some c → c.isNaN = false) (classification : Classification O)
    {rounds : Nat} (hrounds : (root.candidateTree answer classification rules).labels.length ≤ rounds) :
    ∃ best t s', s.grow (.ofRoot root) classification rounds = (.ok best, t, s') ∧
      s'.statistics.rounds = (root.candidateTree answer classification rules).labels.length ∧
      (∃ cost g sweep g', Growth.measure ⟨s.restart, .ofRoot root⟩ Tree.rootIndex = (.ok cost, g) ∧
        Growth.sweepRounds classification rounds 0 (.start cost) g = (.ok sweep, g') ∧
        sweep.queue = [] ∧ g'.tree = t) ∧
      t.Complete (root.candidateTree answer classification rules) ∧
      ∃ n cost, t.node? best = some n ∧ n.evaluation = some cost ∧
        ∀ f ∈ (root.candidateTree answer classification rules).labels, ¬ f.cost < cost := by
  obtain ⟨g₀, hmeasure, hmatches, hzero⟩ : ∃ g₀, Growth.measure ⟨s.restart, .ofRoot root⟩ Tree.rootIndex =
        (.ok (s.meter.reset.measure root).1, g₀) ∧
      (Naive.start root s.expander.memory s.meter.reset).Matches s.expander.pipeline g₀ ∧
      g₀.search.statistics.rounds = 0 :=
    ⟨_, rfl, ⟨rfl, rfl, rfl, rfl⟩, rfl⟩
  have hstart : (Naive.start root s.expander.memory s.meter.reset).Unfolds answer classification rules
      (root.rootFinding answer, root.stage) :=
    Naive.unfolds_start (m := s.meter.reset) hanswer hchildren s.expander.memory
  obtain ⟨r, sweep, g, done, hrun, hg, htracked, hunfolds, htaken, hdone, hend⟩ :=
    hstart.sweepRounds hmatches (Naive.tracked_start hexpanded hcost s.expander.memory s.meter.reset)
      hrules rounds 0
  have htaken' : r.taken.length = done := htaken.trans (Nat.zero_add done)
  have hperm := hunfolds.taken_perm htracked
    (hend.imp_right fun heq => by rw [htaken', heq]; exact hrounds)
  have hall : ∀ i, i < r.tree.size → i ∈ r.taken :=
    fun i hi => hperm.mem_iff.mpr (List.mem_range.mpr hi)
  have hfindings : (r.tree.toList.map Node.finding).Perm
      (root.candidateTree answer classification rules).labels := hunfolds.findings hall
  have hcount : g.search.statistics.rounds =
      (root.candidateTree answer classification rules).labels.length :=
    calc g.search.statistics.rounds = r.taken.length := by rw [hdone, hzero, htaken]; rfl
      _ = r.tree.size := by rw [hperm.length_eq, List.length_range]
      _ = (r.tree.toList.map Node.finding).length := (List.length_map _).symm
      _ = _ := hfindings.length_eq
  have hgrow : s.grow (.ofRoot root) classification rounds =
      (.ok sweep.best, g.tree, g.search.close g.tree.size) :=
    (grow_eq_ok_iff classification hstrategy hmeasure).mpr ⟨sweep, g, hrun, rfl, rfl, rfl⟩
  have hwellFormed := (s.grow_moves classification (.ofRoot root) rounds).preserve Tree.WellFormed.move
    (Tree.wellFormed_ofRoot hparent hchildren)
  obtain ⟨n, cost, hn, hevaluation, hbest⟩ := htracked.not_cost_lt_best
  rw [hgrow] at hwellFormed
  refine ⟨sweep.best, g.tree, _, hgrow, hcount,
    ⟨_, g₀, sweep, g, hmeasure, hrun, htracked.queue_eq_nil hall, rfl⟩, ?_⟩
  rw [hg.tree_eq] at hwellFormed ⊢
  exact ⟨⟨hwellFormed, hunfolds.shows hall hunfolds.root, hfindings⟩, n, cost, hn, hevaluation,
    fun f hf => hbest f (hfindings.mem_iff.mpr hf)⟩

/-- Three rounds take the root and its two leaves. -/
theorem exhausts_unsorted :
    let rule : Rule Nat Nat Unit := fun _ history _ _ =>
      [⟨1, 0, history ++ [0]⟩, ⟨2, 1, history ++ [1]⟩]
    let answer : Nat → Except Error Float := fun program =>
      (unsortedLeaves.meter.evaluator (.root program 0) ()).1
    ∃ best t s', unsortedLeaves.grow (.ofRoot (.root 0 0)) .empty 3 = (.ok best, t, s') ∧
      s'.statistics.rounds = 3 ∧ t.Complete ((Node.root 0 0).candidateTree answer .empty [rule]) := by
  intro rule answer
  have hrules : unsortedLeaves.expander.pipeline.Follows [rule] :=
    .cons (fun _ _ _ _ => rfl) .nil
  have hanswer : unsortedLeaves.meter.evaluator.Follows answer := fun _ _ => rfl
  have hparent : (Node.root 0 0 : Node Nat Nat).parent = none := rfl
  have hlength : ((Node.root 0 0).candidateTree answer .empty [rule]).labels.length = 3 := rfl
  obtain ⟨best, t, s', hgrow, hrounds, -, hcomplete, -⟩ :=
    exhausts rfl hrules hanswer hparent rfl rfl (fun c hc => by cases hc) .empty hlength.le
  exact ⟨best, t, s', hgrow, hrounds.trans hlength, hcomplete⟩

end Search

end LoopTuner
