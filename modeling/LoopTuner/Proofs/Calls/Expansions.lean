import LoopTuner.Proofs.Calls.Accounts
import LoopTuner.Proofs.Growth.Independence
import Mathlib.Data.Finset.Card
import Mathlib.Data.Finset.Range

/-!
# The count of expansions

A search counts a node as expanded when it takes up an unexpanded one. The generator is asked only if the
node has a phase. Tree search does not take up a node past the last phase, so there the count is that of the
calls of the generators. A sweep takes up every node of its queue, and its count exceeds the number of calls
by the nodes past the last phase that it marked (`Search.expansions_grow`).
-/

namespace LoopTuner

variable {P T O σ ε : Type}

/-! ## Expanded nodes -/

namespace Tree

/-- The numbers of the expanded nodes at certain stages. -/
def expandedAt (t : Tree P T) (p : Stage → Prop) [DecidablePred p] : Finset Nat :=
  (Finset.range t.size).filter fun i => (t.node? i).any fun n => n.expanded && decide (p n.stage)

variable {t t' : Tree P T} {p : Stage → Prop} [DecidablePred p]

theorem mem_expandedAt {i : Nat} :
    i ∈ t.expandedAt p ↔ ∃ n, t.node? i = some n ∧ n.expanded = true ∧ p n.stage := by
  unfold expandedAt
  rw [Finset.mem_filter, Finset.mem_range, Option.any_eq_true]
  simp only [Bool.and_eq_true, decide_eq_true_eq]
  constructor
  · rintro ⟨-, n, hn, h⟩
    exact ⟨n, hn, h⟩
  · rintro ⟨n, hn, h⟩
    exact ⟨lt_size_of_node? hn, n, hn, h⟩

/-- Where marks and stages agree, the same nodes are expanded. -/
theorem Agree.expandedAt_eq (h : Agree (fun n => (n.expanded, n.stage)) t t') :
    t'.expandedAt p = t.expandedAt p := by
  have hsub : ∀ {t t' : Tree P T}, Agree (fun n => (n.expanded, n.stage)) t t' →
      t'.expandedAt p ⊆ t.expandedAt p := by
    intro t t' h i hi
    obtain ⟨n', hn', hexpanded, hp⟩ := mem_expandedAt.mp hi
    obtain ⟨n, hn, hview⟩ := h.node? hn'
    obtain ⟨hmark, hstage⟩ := Prod.mk.inj hview
    exact mem_expandedAt.mpr ⟨n, hn, hmark.trans hexpanded, hstage ▸ hp⟩
  exact (hsub h).antisymm (hsub h.symm)

theorem expandedAt_ofRoot {root : Node P T} (h : root.expanded = false) :
    (ofRoot root).expandedAt p = ∅ := by
  refine Finset.eq_empty_of_forall_notMem fun i hi => ?_
  obtain ⟨n, hn, hexpanded, -⟩ := mem_expandedAt.mp hi
  obtain ⟨-, rfl⟩ := node?_ofRoot hn
  rw [h] at hexpanded
  cases hexpanded

/-- An expansion adds the expanded node to those at its stage. -/
theorem expandedAt_expandedBy {i : Nat} {n : Node P T} (hn : t.node? i = some n)
    {kids : List (Node P T)} (hkids : ∀ kid ∈ kids, kid.expanded = false) :
    (t.expandedBy i kids).expandedAt p =
      if p n.stage then insert i (t.expandedAt p) else t.expandedAt p := by
  have hmem : ∀ j, j ∈ (t.expandedBy i kids).expandedAt p ↔
      (j = i ∧ p n.stage) ∨ j ∈ t.expandedAt p := by
    intro j
    rw [mem_expandedAt, mem_expandedAt]
    rcases Nat.lt_or_ge j t.size with hlt | hge
    · obtain ⟨m', hm'⟩ := exists_node? (t := t.expandedBy i kids) (i := j) (by
        rw [size_expandedBy]
        exact Nat.lt_add_right _ hlt)
      obtain ⟨m, hm, rfl⟩ := node?_expandedBy_old hlt hm'
      rw [hm', hm]
      by_cases hij : j = i
      · subst hij
        obtain rfl : n = m := Option.some.inj (hn.symm.trans hm)
        simp [Node.markExpanded, Node.adoptAll]
      · simp [hij]
    · obtain ⟨k, rfl⟩ := Nat.exists_eq_add_of_le hge
      have hne : t.size + k ≠ i := fun h =>
        absurd (lt_size_of_node? hn) (h ▸ Nat.not_lt.mpr hge)
      rw [node?_expandedBy_new, node?_eq_none hge]
      simp only [hne, false_and, false_or, reduceCtorEq, exists_false, iff_false]
      rintro ⟨kid, hkid, hexpanded, -⟩
      rw [hkids kid (List.mem_of_getElem? hkid)] at hexpanded
      cases hexpanded
  ext j
  rw [hmem]
  split_ifs with h
  · rw [Finset.mem_insert, and_iff_left h]
  · rw [or_iff_right fun hj => h hj.2]

/-- An expanded node counts once. -/
theorem expandedAt_expandedBy_of_expanded {i : Nat} {n : Node P T} (hn : t.node? i = some n)
    (hexpanded : n.expanded = true) {kids : List (Node P T)}
    (hkids : ∀ kid ∈ kids, kid.expanded = false) :
    (t.expandedBy i kids).expandedAt p = t.expandedAt p := by
  rw [expandedAt_expandedBy hn hkids]
  split_ifs with h
  · exact Finset.insert_eq_of_mem (mem_expandedAt.mpr ⟨n, hn, hexpanded, h⟩)
  · rfl

theorem card_expandedAt_expandedBy {i : Nat} {n : Node P T} (hn : t.node? i = some n)
    (hexpanded : n.expanded = false) {kids : List (Node P T)}
    (hkids : ∀ kid ∈ kids, kid.expanded = false) :
    ((t.expandedBy i kids).expandedAt p).card =
      (t.expandedAt p).card + if p n.stage then 1 else 0 := by
  have hnot : i ∉ t.expandedAt p := by
    intro hi
    obtain ⟨m, hm, hmark, -⟩ := mem_expandedAt.mp hi
    obtain rfl : n = m := Option.some.inj (hn.symm.trans hm)
    rw [hexpanded] at hmark
    cases hmark
  rw [expandedAt_expandedBy hn hkids]
  split_ifs
  · exact Finset.card_insert_of_notMem hnot
  · rfl

end Tree

/-! ## Calls -/

/-- The generator of a node is asked if the node is not expanded and has a phase. Otherwise the node has no
candidates. -/
theorem Expander.calls_cases (x : Expander P T O σ) (n : Node P T) (i : Nat)
    (classification : Classification O) :
    (n.expanded = true ∨ x.pipeline.length ≤ n.stage) ∧ x.calls n classification = [] ∧
        (x.candidates n i classification).1 = .ok [] ∨
      (n.expanded = false ∧ n.stage < x.pipeline.length) ∧
        ∃ answer, x.calls n classification = [⟨n, answer⟩] ∧
          answer.isOk = (x.candidates n i classification).1.isOk := by
  rcases x.phase_cases n with hidle | ⟨phase, hexpanded, hphase⟩
  · refine Or.inl ⟨hidle, calls_of_idle hidle classification, ?_⟩
    rw [candidates_of_idle hidle]
  · have hcalls := calls_of_phase hexpanded hphase classification
    refine Or.inr ⟨⟨hexpanded, (List.getElem?_eq_some_iff.mp hphase).1⟩, _, hcalls, ?_⟩
    rw [candidates_of_phase hexpanded hphase]
    rcases phase.propose n n.stage classification x.memory with ⟨_ | _, _⟩ <;> rfl

theorem Expander.lastStage_lt {x : Expander P T O σ} (hp : x.pipeline ≠ []) :
    x.lastStage < x.pipeline.length := by
  have hempty : ¬ x.pipeline.isEmpty = true := fun h => hp (List.isEmpty_iff.mp h)
  unfold lastStage Pipeline.lastStage?
  rw [if_neg hempty]
  exact Nat.sub_lt (List.length_pos_iff.mpr hp) Nat.one_pos

namespace Growth

variable {classification : Classification O} {strategy : Strategy} {g g' g'' : Growth P T O σ ε}

/-- What a run counts: each call of a generator, and each node past the last phase that it expands. A
successful call leaves an expanded node. The nodes that were expanded before stand on the other side, so
that the equations of two runs add up. -/
structure Ledger (length : Nat) (g : Growth P T O σ ε) (asked : List (Generator.Call P T))
    (g' : Growth P T O σ ε) : Prop where
  expansions_eq : g'.search.statistics.expansions + (g.tree.expandedAt (length ≤ ·)).card =
    g.search.statistics.expansions + asked.length + (g'.tree.expandedAt (length ≤ ·)).card
  succeeded_eq : (g'.tree.expandedAt (· < length)).card =
    (g.tree.expandedAt (· < length)).card + asked.countP (·.succeeds)

theorem Ledger.trans {length : Nat} {asked asked' : List (Generator.Call P T)}
    (h : Ledger length g asked g') (h' : Ledger length g' asked' g'') :
    Ledger length g (asked ++ asked') g'' where
  expansions_eq := by
    have hfirst := h.expansions_eq
    have hsecond := h'.expansions_eq
    rw [List.length_append]
    omega
  succeeded_eq := by
    rw [h'.succeeded_eq, h.succeeded_eq, List.countP_append, Nat.add_assoc]

/-- Operations that ask no generator and leave the marks alone do not count. -/
theorem Ledger.of_agree (length : Nat)
    (hcount : g'.search.statistics.expansions = g.search.statistics.expansions)
    (hagree : Tree.Agree (fun n => (n.expanded, n.stage)) g.tree g'.tree) :
    Ledger length g [] g' where
  expansions_eq := by rw [hcount, hagree.expandedAt_eq, List.length_nil, Nat.add_zero]
  succeeded_eq := by rw [hagree.expandedAt_eq, List.countP_nil, Nat.add_zero]

theorem counted_expansions (g : Growth P T O σ ε) (n : Node P T) :
    (g.counted n).statistics.expansions =
      g.search.statistics.expansions + if n.expanded then 0 else 1 := by
  unfold counted
  split_ifs <;> rfl

/-- If no generator is asked, the node is expanded already, or it is marked past the last phase. -/
theorem Ledger.of_idle {length i : Nat} {n : Node P T} (hn : g.tree.node? i = some n)
    (hidle : n.expanded = true ∨ length ≤ n.stage)
    (hcount : g'.search.statistics.expansions = (g.counted n).statistics.expansions)
    {kids : List (Node P T)} (htree : g'.tree = g.tree.expandedBy i kids)
    (hkids : ∀ kid ∈ kids, kid.expanded = false) : Ledger length g [] g' := by
  rw [counted_expansions] at hcount
  cases hexpanded : n.expanded with
  | true =>
    rw [if_pos hexpanded, Nat.add_zero] at hcount
    have hsame : ∀ (p : Stage → Prop) [DecidablePred p], g'.tree.expandedAt p = g.tree.expandedAt p :=
      fun _ _ => htree ▸ Tree.expandedAt_expandedBy_of_expanded hn hexpanded hkids
    constructor
    · rw [hcount, hsame, List.length_nil, Nat.add_zero]
    · rw [hsame, List.countP_nil, Nat.add_zero]
  | false =>
    have hge : length ≤ n.stage := hidle.resolve_left (Bool.eq_false_iff.mp hexpanded)
    rw [hexpanded] at hcount
    constructor
    · rw [hcount, htree, Tree.card_expandedAt_expandedBy hn hexpanded hkids, if_pos hge]
      simp only [Bool.false_eq_true, if_false, List.length_nil]
      omega
    · rw [htree, Tree.card_expandedAt_expandedBy hn hexpanded hkids, if_neg (Nat.not_lt.mpr hge),
        List.countP_nil]

/-- If a generator is asked, the node is counted, and marked if the generator succeeds. -/
theorem Ledger.of_call {length i : Nat} {n : Node P T} (hn : g.tree.node? i = some n)
    (hexpanded : n.expanded = false) (hlt : n.stage < length)
    (hcount : g'.search.statistics.expansions = (g.counted n).statistics.expansions)
    {call : Generator.Call P T} (herror : call.succeeds = false → g'.tree = g.tree)
    (hok : call.succeeds = true →
      ∃ kids, g'.tree = g.tree.expandedBy i kids ∧ ∀ kid ∈ kids, kid.expanded = false) :
    Ledger length g [call] g' := by
  rw [counted_expansions, hexpanded] at hcount
  cases hsucceeds : call.succeeds with
  | false =>
    constructor
    · rw [hcount, herror hsucceeds]
      simp only [Bool.false_eq_true, if_false, List.length_singleton]
    · rw [herror hsucceeds]
      simp [hsucceeds]
  | true =>
    obtain ⟨kids, htree, hkids⟩ := hok hsucceeds
    constructor
    · rw [hcount, htree, Tree.card_expandedAt_expandedBy hn hexpanded hkids,
        if_neg (Nat.not_le.mpr hlt)]
      simp only [Bool.false_eq_true, if_false, List.length_singleton, Nat.add_zero]
    · rw [htree, Tree.card_expandedAt_expandedBy hn hexpanded hkids, if_pos hlt]
      simp [hsucceeds]

/-- What an expansion counts, with either strategy. -/
theorem Ledger.of_candidates {i : Nat} {n : Node P T} (hn : g.tree.node? i = some n)
    (hcount : g'.search.statistics.expansions = (g.counted n).statistics.expansions)
    (herror : (g.search.expander.candidates n i classification).1.isOk = false → g'.tree = g.tree)
    (hok : (g.search.expander.candidates n i classification).1.isOk = true →
      ∃ kids, g'.tree = g.tree.expandedBy i kids ∧ ∀ kid ∈ kids, kid.expanded = false) :
    Ledger g.search.expander.pipeline.length g (g.search.expander.calls n classification) g' := by
  rcases g.search.expander.calls_cases n i classification with
    ⟨hidle, hcalls, hnone⟩ | ⟨⟨hexpanded, hlt⟩, answer, hcalls, hanswer⟩
  · obtain ⟨kids, htree, hkids⟩ := hok (congrArg Except.isOk hnone)
    rw [hcalls]
    exact .of_idle hn hidle hcount htree hkids
  · rw [← hanswer] at herror hok
    rw [hcalls]
    exact .of_call hn hexpanded hlt hcount herror hok

theorem expansions_backup (g : Growth P T O σ ε) (i : Nat) (cost : Float) :
    (g.backup i cost).2.search.statistics.expansions = g.search.statistics.expansions := by
  unfold backup
  cases g.tree.backup i cost <;> rfl

/-- Every operation counts as it asks. -/
theorem CallStep.ledger {asks : List (Generator.Call P T)} {measures : List (Evaluator.Call P T)}
    (h : CallStep classification strategy g asks measures g') :
    Ledger g.search.expander.pipeline.length g asks g' := by
  cases h with
  | measure _ _ i =>
    exact .of_agree _ (congrArg Statistics.expansions (statistics_measure g i))
      (agree_measure (fun _ _ => rfl) g i)
  | @expand _ i n hn =>
    rw [expand_eq hn]
    rcases hc : g.search.expander.candidates n i classification with ⟨_ | candidates, x⟩
    · refine .of_candidates hn rfl (fun _ => rfl) fun h => ?_
      rw [hc] at h
      cases h
    · refine .of_candidates hn rfl (fun h => ?_) fun _ =>
        ⟨_, rfl, fun _ hkid => Candidate.expanded_of_mem_toNodes hkid⟩
      rw [hc] at h
      cases h
  | backup _ i cost => exact .of_agree _ (expansions_backup g i cost) (agree_backup (fun _ _ => rfl) g i cost)
  | @sweepRound _ i n hn round s =>
    rw [sweepRound_eq hn]
    rcases hc : g.search.expander.candidates n i classification with ⟨_ | candidates, x⟩
    · refine .of_candidates hn rfl (fun _ => rfl) fun h => ?_
      rw [hc] at h
      cases h
    · refine .of_candidates hn rfl (fun h => ?_) fun _ => ⟨_, rfl, fun kid hkid => ?_⟩
      · rw [hc] at h
        cases h
      · obtain ⟨e, he, rfl⟩ := List.mem_map.mp hkid
        exact (new_of_mem_sweepKids he).2.2

/-- So does a run. -/
theorem CallRun.ledger {asked : List (Generator.Call P T)} {measured : List (Evaluator.Call P T)}
    (h : CallRun classification strategy g asked measured g') :
    Ledger g.search.expander.pipeline.length g asked g' := by
  induction h with
  | refl => exact .of_agree _ rfl fun _ => rfl
  | tail hrun hstep ih =>
    have hledger := hstep.ledger
    rw [hrun.run.kin.pipeline_eq] at hledger
    exact ih.trans hledger

/-! ## Tree search -/

/-- A node that tree search expands has a phase. -/
theorem expandSelected_expandedAt (hp : g.search.expander.pipeline ≠ [])
    (classification : Classification O) (i : Nat) :
    (g.expandSelected classification i).2.tree.expandedAt (g.search.expander.pipeline.length ≤ ·) =
      g.tree.expandedAt (g.search.expander.pipeline.length ≤ ·) := by
  rcases g.expandSelected_cases classification i with hsame | ⟨n, hn, hstage, hexpand⟩
  · rw [hsame]
  · have hlt : ¬ g.search.expander.pipeline.length ≤ n.stage :=
      Nat.not_le.mpr (Nat.lt_of_le_of_lt hstage (g.search.expander.lastStage_lt hp))
    rw [hexpand, expand_eq hn]
    rcases g.search.expander.candidates n i classification with ⟨_ | candidates, x⟩
    · rfl
    · have hkids : ∀ kid ∈ Candidate.toNodes (x.limit candidates).1 n i, kid.expanded = false :=
        fun _ hkid => Candidate.expanded_of_mem_toNodes hkid
      exact (Tree.expandedAt_expandedBy hn hkids).trans (if_neg hlt)

/-- Along a tree search the pipeline stays, and the same nodes past its last phase are expanded. -/
theorem expandedAt_searchInvariant (hp : g.search.expander.pipeline ≠ [])
    (classification : Classification O) :
    SearchInvariant classification fun g' => g.search.Kin g'.search ∧
      g'.tree.expandedAt (g.search.expander.pipeline.length ≤ ·) =
        g.tree.expandedAt (g.search.expander.pipeline.length ≤ ·) where
  expandSelected := by
    rintro g' ⟨hkin, hsame⟩ i
    have hexpanded := expandSelected_expandedAt (hkin.pipeline_eq.symm ▸ hp) classification i
    rw [hkin.pipeline_eq] at hexpanded
    exact ⟨hkin.trans (expandSelected_run classification g' i).kin, hexpanded.trans hsame⟩
  measure := by
    rintro g' ⟨hkin, hsame⟩ i
    exact ⟨hkin.trans (measure_run classification .treeSearch g' i).kin,
      (agree_measure (fun _ _ => rfl) g' i).expandedAt_eq.trans hsame⟩
  backup := by
    rintro g' ⟨hkin, hsame⟩ i cost
    have hstep : Operation classification .treeSearch g' (g'.backup i cost).2 := .backup g' i cost
    exact ⟨hkin.trans hstep.kin, (agree_backup (fun _ _ => rfl) g' i cost).expandedAt_eq.trans hsame⟩

theorem treeSearch_expandedAt (hp : g.search.expander.pipeline ≠ [])
    (classification : Classification O) (rounds : Nat) :
    (g.treeSearch classification rounds).2.tree.expandedAt (g.search.expander.pipeline.length ≤ ·) =
      g.tree.expandedAt (g.search.expander.pipeline.length ≤ ·) :=
  ((expandedAt_searchInvariant hp classification).treeSearch ⟨.refl g.search, rfl⟩ rounds).2

end Growth

/-! ## Growing -/

namespace Search

/-- Closing the counters leaves the count of expansions alone. -/
theorem expansions_of_grown (s : Search P T O σ ε) (t : Tree P T) (classification : Classification O)
    (rounds : Nat) :
    (s.grow t classification rounds).2.2.statistics.expansions =
      (s.grown t classification rounds).2.search.statistics.expansions := by
  rw [grow_eq]
  rcases s.grown t classification rounds with ⟨(_ | _) | _, g⟩ <;> rfl

/-- A growth of an unexpanded root counts the calls of its generators, and besides these the nodes past the
last phase that it marks as expanded. Tree search marks no such node. The successful calls are as many as
the expanded nodes that have a phase. -/
theorem expansions_grow {s u : Search P T O σ ε} {root : Node P T} (hroot : root.expanded = false)
    {classification : Classification O} {rounds : Nat} {result : Except Failure Nat} {t : Tree P T}
    (h : s.grow (.ofRoot root) classification rounds = (result, t, u)) :
    u.statistics.expansions = (s.generatorCalls (.ofRoot root) classification rounds).length +
        (t.expandedAt (s.expander.pipeline.length ≤ ·)).card ∧
      (s.generatorCalls (.ofRoot root) classification rounds).countP (·.succeeds) =
        (t.expandedAt (· < s.expander.pipeline.length)).card ∧
      (s.config.strategy = .treeSearch → s.expander.pipeline ≠ [] →
        u.statistics.expansions = (s.generatorCalls (.ofRoot root) classification rounds).length) := by
  have hledger := (s.grown_calls (.ofRoot root) classification rounds).2.ledger
  have hcount := s.expansions_of_grown (.ofRoot root) classification rounds
  have htree := s.tree_grow classification (.ofRoot root) rounds
  have hnone : ∀ (p : Stage → Prop) [DecidablePred p],
      (Growth.mk s.restart (.ofRoot root)).tree.expandedAt p = ∅ :=
    fun _ _ => Tree.expandedAt_ofRoot hroot
  rw [h] at hcount htree
  have hexpansions : u.statistics.expansions =
      (s.generatorCalls (.ofRoot root) classification rounds).length +
        (t.expandedAt (s.expander.pipeline.length ≤ ·)).card := by
    have heq := hledger.expansions_eq
    rw [hnone, ← htree, ← hcount] at heq
    exact heq.trans (congrArg (· + _) (Nat.zero_add _))
  have hsucceeded : (s.generatorCalls (.ofRoot root) classification rounds).countP (·.succeeds) =
      (t.expandedAt (· < s.expander.pipeline.length)).card := by
    have heq := hledger.succeeded_eq
    rw [hnone, ← htree] at heq
    exact (heq.trans (Nat.zero_add _)).symm
  refine ⟨hexpansions, hsucceeded, fun hs hp => ?_⟩
  have hsame :=
    Growth.treeSearch_expandedAt (g := ⟨s.restart, .ofRoot root⟩) hp classification rounds
  unfold grown at htree
  rw [hs] at htree
  rw [hnone, ← htree] at hsame
  rw [hexpansions, show t.expandedAt (s.expander.pipeline.length ≤ ·) = ∅ from hsame,
    Finset.card_empty, Nat.add_zero]

/-- Two rounds of tree search from a measured root, the second of which takes up a leaf. -/
theorem expansions_grow_twoLeaves :
    ∃ result t u, twoLeaves.grow (.ofRoot measuredRoot) .empty 2 = (result, t, u) ∧
      measuredRoot.expanded = false ∧
      (u.statistics.expansions = (twoLeaves.generatorCalls (.ofRoot measuredRoot) .empty 2).length +
          (t.expandedAt (twoLeaves.expander.pipeline.length ≤ ·)).card ∧
        (twoLeaves.generatorCalls (.ofRoot measuredRoot) .empty 2).countP (·.succeeds) =
          (t.expandedAt (· < twoLeaves.expander.pipeline.length)).card ∧
        (twoLeaves.config.strategy = .treeSearch → twoLeaves.expander.pipeline ≠ [] →
          u.statistics.expansions =
            (twoLeaves.generatorCalls (.ofRoot measuredRoot) .empty 2).length)) := by
  rcases hgrow : twoLeaves.grow (.ofRoot measuredRoot) .empty 2 with ⟨result, t, u⟩
  exact ⟨result, t, u, rfl, rfl, expansions_grow rfl hgrow⟩

/-- A best-first search below a root with a single leaf. -/
def loneLeaf : Search Nat Nat Unit Unit Unit where
  config := ⟨0, 25, 0, .bestFirst⟩
  expander := ⟨[⟨.tiling, .pure fun n _ _ => .ok [.extending n 1 0]⟩], 25, .ofSeed 0, ()⟩
  meter := .create (.pure fun n => .ok (if n.program = 0 then 10 else 5)) ()
  statistics := .zero

/-- The second round takes up the leaf, which has no phase: two expansions are counted for one call. -/
theorem exists_expansion_without_call :
    ∃ best t u, loneLeaf.grow (.ofRoot (.root 0 0)) .empty 2 = (.ok best, t, u) ∧
      loneLeaf.config.validate = .ok () ∧ loneLeaf.expander.pipeline ≠ [] ∧
      loneLeaf.expander.pipeline.NeverFails ∧ u.statistics.expansions = 2 ∧
      (loneLeaf.generatorCalls (.ofRoot (.root 0 0)) .empty 2).length = 1 := by
  have hok : (loneLeaf.grow (.ofRoot (.root 0 0)) .empty 2).1.isOk = true := by decide +kernel
  have hcount : (loneLeaf.grow (.ofRoot (.root 0 0)) .empty 2).2.2.statistics.expansions = 2 := by
    decide +kernel
  have hp : loneLeaf.expander.pipeline.NeverFails := by
    intro phase hphase n stage classification memory
    rw [List.mem_singleton.mp hphase]
    exact ⟨_, rfl⟩
  rcases hgrow : loneLeaf.grow (.ofRoot (.root 0 0)) .empty 2 with ⟨_ | best, t, u⟩
  · rw [hgrow] at hok
    cases hok
  · rw [hgrow] at hcount
    exact ⟨best, t, u, rfl, rfl, List.cons_ne_nil _ _, hp, hcount, by decide +kernel⟩

end Search

end LoopTuner
