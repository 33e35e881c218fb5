import LoopTuner.Proofs.Growth.Changes

/-!
# Best-first search refines the naive sweep

Round by round, the best-first search and the naive sweep leave the same tree, generators with the same
memory, and the same evaluator after the same calls. A best-first search whose generators do not fail
returns the first node that no node of its tree undercuts (`Search.grow_eq_naive`).
-/

namespace LoopTuner

variable {P T O σ ε : Type}

/-! ## Rounds -/

namespace Naive

/-- A search at work that has come as far as the naive sweep. -/
structure Matches (p : Pipeline P T O σ) (r : Naive P T σ ε) (g : Growth P T O σ ε) : Prop where
  tree_eq : g.tree = r.tree
  meter_eq : g.search.meter = r.meter
  memory_eq : g.search.expander.memory = r.memory
  pipeline_eq : g.search.expander.pipeline = p

variable {p : Pipeline P T O σ} {r : Naive P T σ ε} {s : Sweep} {g : Growth P T O σ ε}

/-- Taking a node whose generator answers. -/
theorem take_of_generate {i : Nat} {n : Node P T} (hn : r.tree.node? i = some n)
    {classification : Classification O} {candidates : List (Candidate P T)} {memory : σ}
    (hgenerate : p.generate classification n r.memory = (.ok candidates, memory)) :
    r.take p classification i = .ok (r.grown i (Growth.sweepKids r.meter candidates n i) memory
      (r.meter.measureAll (Candidate.toNodes candidates n i)).2) := by
  unfold take
  rw [hn]
  simp only [hgenerate]
  rfl

section Round

variable {e : Queued} {queue : List Queued}

/-- If the generator answers, a round of the sweep expands the node that the queue hands out like the
naive sweep. -/
theorem Matches.sweepRound_of_generate (hg : r.Matches p g) (h : r.Tracked s)
    (hpop : Queued.pop? s.queue = some (e, queue)) {classification : Classification O} {n : Node P T}
    (hn : r.tree.node? e.index = some n) {candidates : List (Candidate P T)} {memory : σ}
    (hgenerate : p.generate classification n r.memory = (.ok candidates, memory)) (round : Nat) :
    ∃ r' s' g', r.take p classification e.index = .ok r' ∧
      g.sweepRound classification round e.index { s with queue := queue } = (.ok s', g') ∧
      r'.Matches p g' ∧ r'.Tracked s' := by
  obtain ⟨⟨-, hnot⟩, -⟩ := h.covers.waiting_of_pop? hpop
  have htake := take_of_generate hn hgenerate
  have hround :=
    Growth.sweepRound_eq (hg.tree_eq ▸ hn) classification round { s with queue := queue }
  rw [← hg.pipeline_eq, ← hg.memory_eq] at hgenerate
  rw [Expander.candidates_eq (h.unexpanded e.index n hn hnot) hgenerate e.index] at hround
  simp only [hg.meter_eq, hg.tree_eq] at hround
  refine ⟨_, _, _, htake, hround, ⟨rfl, rfl, rfl, hg.pipeline_eq⟩, ?_⟩
  exact h.grown hpop fun kid => Growth.new_of_mem_sweepKids

theorem Matches.sweepRound (hg : r.Matches p g) (h : r.Tracked s) (hp : p.NeverFails)
    (hpop : Queued.pop? s.queue = some (e, queue)) (classification : Classification O) (round : Nat) :
    ∃ r' s' g', r.take p classification e.index = .ok r' ∧
      g.sweepRound classification round e.index { s with queue := queue } = (.ok s', g') ∧
      r'.Matches p g' ∧ r'.Tracked s' := by
  obtain ⟨n, hn⟩ := Tree.exists_node? (h.covers.waiting_of_pop? hpop).1.1
  obtain ⟨candidates, memory, hgenerate⟩ := hp.generate classification n r.memory
  exact hg.sweepRound_of_generate h hpop hn hgenerate round

/-- A round that does not fail keeps the invariant. -/
theorem Matches.of_sweepRound (hg : r.Matches p g) (h : r.Tracked s)
    (hpop : Queued.pop? s.queue = some (e, queue)) {classification : Classification O} {round : Nat}
    {s' : Sweep} {g' : Growth P T O σ ε}
    (hround : g.sweepRound classification round e.index { s with queue := queue } = (.ok s', g')) :
    ∃ r' : Naive P T σ ε, r'.Matches p g' ∧ r'.Tracked s' := by
  obtain ⟨⟨hlt, hnot⟩, -⟩ := h.covers.waiting_of_pop? hpop
  obtain ⟨n, hn⟩ := Tree.exists_node? hlt
  have heq := Growth.sweepRound_eq (hg.tree_eq ▸ hn) classification round { s with queue := queue }
  rcases hc : g.search.expander.candidates n e.index classification with ⟨_ | candidates, x⟩
  · rw [hround, hc] at heq
    cases heq
  · obtain ⟨memory, hgenerate⟩ :=
      Expander.generate_of_candidates (h.unexpanded e.index n hn hnot) hc
    rw [hg.pipeline_eq, hg.memory_eq] at hgenerate
    obtain ⟨r', s'', g'', -, hround', hg', h'⟩ :=
      hg.sweepRound_of_generate h hpop hn hgenerate round
    rw [hround] at hround'
    cases hround'
    exact ⟨r', hg', h'⟩

end Round

theorem Matches.sweepRounds (hg : r.Matches p g) (h : r.Tracked s) (hp : p.NeverFails)
    (classification : Classification O) (count round : Nat) :
    ∃ r' s' g', r.rounds p classification count = .ok r' ∧
      Growth.sweepRounds classification count round s g = (.ok s', g') ∧
      r'.Matches p g' ∧ r'.Tracked s' := by
  induction count generalizing r s g round with
  | zero => exact ⟨r, s, g, rfl, rfl, hg, h⟩
  | succ count ih =>
    unfold rounds Growth.sweepRounds
    cases hpop : Queued.pop? s.queue with
    | none =>
      rw [h.next?_of_none hpop]
      exact ⟨r, s, g, rfl, rfl, hg, h⟩
    | some popped =>
      obtain ⟨e, queue⟩ := popped
      rw [h.next?_of_some hpop]
      obtain ⟨r', s', g', htake, hround, hg', h'⟩ := hg.sweepRound h hp hpop classification round
      simp only [htake, hround]
      exact ih hg' h' (round + 1)

theorem Matches.of_sweepRounds (hg : r.Matches p g) (h : r.Tracked s)
    {classification : Classification O} {count round : Nat} {s' : Sweep} {g' : Growth P T O σ ε}
    (hrun : Growth.sweepRounds classification count round s g = (.ok s', g')) :
    ∃ r' : Naive P T σ ε, r'.Matches p g' ∧ r'.Tracked s' := by
  induction count generalizing r s g round with
  | zero =>
    cases hrun
    exact ⟨r, hg, h⟩
  | succ count ih =>
    unfold Growth.sweepRounds at hrun
    split at hrun
    · cases hrun
      exact ⟨r, hg, h⟩
    · rename_i hpop
      split at hrun
      · cases hrun
      · rename_i hround
        obtain ⟨r', hg', h'⟩ := hg.of_sweepRound h hpop hround
        exact ih hg' h' hrun

/-! ## The start -/

/-- A sweep starts with the root as its only entry. -/
theorem tracked_start {root : Node P T} (hexpanded : root.expanded = false)
    (hcost : ∀ c, root.evaluation = some c → c.isNaN = false) (memory : σ) (meter : Meter P T ε) :
    (start root memory meter).Tracked (.start (meter.measure root).1) := by
  have hroot := Meter.measure_node meter root
  have hcostOf : (start root memory meter).tree.costOf 0 = (meter.measure root).1 :=
    Tree.costOf_of_node? (n := (meter.measure root).2.1) rfl (by rw [hroot])
  have hnumber := Meter.isNaN_measure (m := meter) hcost
  have hzero : ∀ i n, (start root memory meter).tree.node? i = some n →
      i = 0 ∧ n = (meter.measure root).2.1 := fun i n hn => Tree.node?_ofRoot hn
  have hlt : ∀ i, i < (start root memory meter).tree.size → i = 0 :=
    fun i hi => Nat.lt_one_iff.mp hi
  exact {
    measured := by
      intro i n hn
      obtain ⟨rfl, rfl⟩ := hzero i n hn
      rw [hcostOf, hroot]
    numbers := by
      intro i hi
      rw [hlt i hi, hcostOf]
      exact hnumber
    taken_lt := by
      intro i hi
      cases hi
    unexpanded := by
      intro i n hn _
      obtain ⟨rfl, rfl⟩ := hzero i n hn
      rw [hroot]
      exact hexpanded
    covers := {
      mem_queue_iff := by
        intro e
        obtain ⟨cost, order, i⟩ := e
        unfold Sweep.start
        rw [List.mem_singleton, Queued.mk.injEq]
        constructor
        · rintro ⟨rfl, rfl, rfl⟩
          exact ⟨⟨Nat.one_pos, List.not_mem_nil⟩, rfl, hcostOf.symm⟩
        · rintro ⟨⟨hi, -⟩, horder, hc⟩
          obtain rfl : i = 0 := hlt i hi
          exact ⟨hc.trans hcostOf, horder, rfl⟩
      nodup := List.nodup_singleton _
      pushed_eq := rfl
      best := by
        refine ⟨Nat.one_pos, fun j hj => ?_, fun j hj => ?_⟩
        · rw [hlt j hj]
          show ¬ (start root memory meter).tree.costOf 0 < (start root memory meter).tree.costOf 0
          rw [hcostOf]
          exact Cost.lt_irrefl hnumber
        · cases hj
      bestCost_eq := hcostOf.symm } }

end Naive

/-! ## Growing -/

/-- If no generator fails, a best-first search from an unexpanded root ends like the naive sweep, with
the same tree and the same memory of generators and evaluator; an evaluator that remembers its calls
has had the same ones. The result is the first node that no node of the tree undercuts. -/
theorem Search.grow_eq_naive {s : Search P T O σ ε} (hstrategy : s.config.strategy = .bestFirst)
    (hp : s.expander.pipeline.NeverFails) {root : Node P T} (hexpanded : root.expanded = false)
    (hcost : ∀ c, root.evaluation = some c → c.isNaN = false) (classification : Classification O)
    (rounds : Nat) :
    ∃ r best s', (Naive.start root s.expander.memory s.meter.reset).rounds s.expander.pipeline
        classification rounds = .ok r ∧
      s.grow (.ofRoot root) classification rounds = (.ok best, r.tree, s') ∧
      s'.expander.memory = r.memory ∧ s'.meter = r.meter ∧
      (∀ i n, r.tree.node? i = some n → n.evaluation = some (r.tree.costOf i)) ∧
      Cheapest r.tree.costOf r.tree.size best := by
  obtain ⟨r, sweep, g, hrounds, hsweep, hg, h⟩ :=
    Naive.Matches.sweepRounds (g := ⟨{ s.restart with meter := (s.meter.reset.measure root).2.2 },
      .ofRoot (s.meter.reset.measure root).2.1⟩) ⟨rfl, rfl, rfl, rfl⟩
      (Naive.tracked_start hexpanded hcost s.expander.memory s.meter.reset) hp classification rounds 0
  refine ⟨r, sweep.best, g.search.close g.tree.size, hrounds, ?_, hg.memory_eq, hg.meter_eq,
    h.measured, h.covers.best⟩
  have hmeasure : Growth.measure ⟨s.restart, .ofRoot root⟩ Tree.rootIndex =
      (.ok (s.meter.reset.measure root).1,
        ⟨{ s.restart with meter := (s.meter.reset.measure root).2.2 },
          .ofRoot (s.meter.reset.measure root).2.1⟩) := rfl
  rw [grow_eq]
  unfold grown
  rw [hstrategy]
  unfold Growth.bestFirst
  rw [hmeasure]
  simp only [hsweep, hg.tree_eq]

/-- Two numbers follow on every number, and the evaluator lists the numbers that it is asked about. -/
theorem Search.grow_eq_naive_numbers :
    let generator : Generator Nat Nat Unit Unit := .pure fun n _ _ =>
      .ok [.extending n (2 * n.program) 0, .extending n (2 * n.program + 1) 1]
    let evaluator : Evaluator Nat Nat (List Nat) := fun n calls =>
      (.ok (100 - n.program.toFloat), calls ++ [n.program])
    let s : Search Nat Nat Unit Unit (List Nat) :=
      ⟨⟨0, 1, 0, .bestFirst⟩, ⟨[⟨.tiling, generator⟩, ⟨.interchange, generator⟩], 1, .ofSeed 0, ()⟩,
        .create evaluator [], .zero⟩
    ∃ r best s', (Naive.start (.root 1 0) () s.meter.reset).rounds s.expander.pipeline .empty 3 =
        .ok r ∧
      s.grow (.ofRoot (.root 1 0)) .empty 3 = (.ok best, r.tree, s') ∧
      s'.expander.memory = r.memory ∧ s'.meter = r.meter ∧
      (∀ i n, r.tree.node? i = some n → n.evaluation = some (r.tree.costOf i)) ∧
      Cheapest r.tree.costOf r.tree.size best := by
  intro generator evaluator s
  refine grow_eq_naive (s := s) rfl (fun phase hphase n stage _ _ => ?_) rfl
    (fun c hc => by cases hc) .empty 3
  rcases List.mem_cons.mp hphase with rfl | hphase
  · exact ⟨_, rfl⟩
  · rw [List.mem_singleton.mp hphase]
    exact ⟨_, rfl⟩

end LoopTuner
