import LoopTuner.Proofs.Calls.Accounts

/-!
# Failed rounds

A round in which a generator fails leaves no trace in the tree (`Growth.Outcome`): the search stops with the
tree as the rounds before have left it, and its counters say how far it has come
(`Search.first_failed_round`).
-/

namespace LoopTuner

variable {P T O σ ε : Type}

/-- The context that a failed round adds to its error. -/
def Strategy.roundContext : Strategy → Nat → Context
  | .treeSearch, round => .searchRound round
  | .bestFirst, round => .bestFirstLevel round

/-- Candidates that were proposed come from successful calls. -/
theorem Expander.succeeds_of_candidates {x x' : Expander P T O σ} {n : Node P T} {i : Nat}
    {classification : Classification O} {candidates : List (Candidate P T)}
    (h : x.candidates n i classification = (.ok candidates, x')) :
    ∀ call ∈ x.calls n classification, call.succeeds = true := by
  rcases calls_of_ok h with ⟨-, hcalls⟩ | ⟨-, hcalls⟩
  · rw [hcalls]
    exact List.forall_mem_nil _
  · rw [hcalls]
    exact List.forall_mem_singleton.mpr rfl

namespace Growth

/-- How a round ends that goes on from the growth `g`, as a recording search sees it: at a step that it may
not take, before it has asked anyone; with an error of a generator, and the tree as it was; or without a
failed call of a generator. -/
inductive Outcome {α : Type} (context : Context) (g : Growth P T O σ ε)
    (asked : List (Generator.Call P T)) (measured : List (Evaluator.Call P T)) :
    Except Failure α ×
      Growth P T O (σ × List (Generator.Call P T)) (ε × List (Evaluator.Call P T)) → Prop
  | violation (v : Violation) :
      Outcome context g asked measured (.error (.violation v), g.recording asked measured)
  | failed {g' : Growth P T O σ ε} {i : Nat} {n : Node P T} {kind : Kind} {e : Error}
      (hn : g.tree.node? i = some n) (hexpanded : n.expanded = false) (htree : g'.tree = g.tree)
      (hrounds : g'.search.statistics.rounds = g.search.statistics.rounds) :
      Outcome context g asked measured
        (.error (.error ((e.within (.candidates kind i n.stage)).within context)),
          g'.recording (asked ++ [⟨n, .error e⟩]) measured)
  | completed {a : α} {g' : Growth P T O σ ε} {asks : List (Generator.Call P T)}
      {measures : List (Evaluator.Call P T)} (hasks : ∀ call ∈ asks, call.succeeds = true) :
      Outcome context g asked measured
        (.ok a, g'.recording (asked ++ asks) (measured ++ measures))

variable {g : Growth P T O σ ε} {asked : List (Generator.Call P T)}
  {measured : List (Evaluator.Call P T)} {classification : Classification O}

theorem Outcome.discard {α : Type} {context : Context} {out : Except Failure α ×
      Growth P T O (σ × List (Generator.Call P T)) (ε × List (Evaluator.Call P T))}
    (h : Outcome context g asked measured out) :
    Outcome context g asked measured (Growth.discard out) := by
  cases h with
  | violation v => exact .violation v
  | failed hn hexpanded htree hrounds => exact .failed hn hexpanded htree hrounds
  | completed hasks => exact .completed hasks

/-! ## Rounds of tree search -/

/-- Once a node is expanded or needs no expansion, its round is completed. -/
theorem measure_backup_recording {i : Nat} (hi : i < g.tree.size)
    (asked : List (Generator.Call P T)) (measured : List (Evaluator.Call P T)) :
    ∃ (cost : Float) (g₁ g' : Growth P T O σ ε), (g.recording asked measured).measure i =
        (.ok cost, g₁.recording asked (measured ++ g.callsAt i)) ∧
      (g₁.recording asked (measured ++ g.callsAt i)).backup i cost =
        (.ok (), g'.recording asked (measured ++ g.callsAt i)) := by
  obtain ⟨n, hn⟩ := Tree.exists_node? hi
  have hlt : i < (g.measure i).2.tree.size := by
    rw [measure_eq hn, Tree.size_modify]
    exact hi
  obtain ⟨cost, hcost⟩ : ∃ cost, (g.measure i).1 = .ok cost := ⟨_, congrArg Prod.fst (measure_eq hn)⟩
  rw [measure_recording, hcost]
  refine ⟨cost, _, ((g.measure i).2.backup i cost).2, rfl, ?_⟩
  rw [backup_recording]
  refine Prod.ext ?_ rfl
  unfold backup Tree.backup
  rw [if_pos hlt]

theorem searchRound_outcome (g : Growth P T O σ ε) (asked : List (Generator.Call P T))
    (measured : List (Evaluator.Call P T)) (classification : Classification O) (round : Nat) :
    Outcome (Strategy.treeSearch.roundContext round) g asked measured
      ((g.recording asked measured).searchRound classification round) := by
  unfold searchRound
  rw [show (g.recording asked measured).search.config.descent.select (g.recording asked measured).tree =
    g.search.config.descent.select g.tree from rfl]
  rcases g.search.config.descent.select g.tree Tree.rootIndex with v | i
  · exact .violation v
  · unfold expandSelected
    simp only [show (g.recording asked measured).tree = g.tree from rfl]
    cases hn : g.tree.node? i with
    | none => exact .violation _
    | some n =>
      have hlt := Tree.lt_size_of_node? hn
      simp only [show (g.recording asked measured).search.expander =
        g.search.expander.recording asked from rfl, Expander.lastStage_recording]
      split_ifs
      · rw [expand_recording hn, expand_eq hn]
        rcases hc : g.search.expander.candidates n i classification with ⟨e | candidates, x⟩
        · obtain ⟨hexpanded, kind, e, rfl, hcalls⟩ := Expander.calls_of_error hc
          rw [hcalls]
          exact .failed hn hexpanded rfl (counted_rounds g n)
        · simp only
          have hlt' : i < (g.tree.expandedBy i
              (Candidate.toNodes (x.limit candidates).1 n i)).size := by
            rw [Tree.size_expandedBy]
            exact Nat.lt_add_right _ hlt
          obtain ⟨cost, g₁, g', hmeasure, hbackup⟩ := measure_backup_recording
            (g := ⟨{ g.counted n with expander := (x.limit candidates).2 },
              g.tree.expandedBy i (Candidate.toNodes (x.limit candidates).1 n i)⟩) hlt'
            (asked ++ g.search.expander.calls n classification) measured
          simp only [hmeasure, hbackup]
          exact .completed (Expander.succeeds_of_candidates hc)
      · obtain ⟨cost, g₁, g', hmeasure, hbackup⟩ := measure_backup_recording hlt asked measured
        simp only [hmeasure, hbackup]
        have h : Outcome (α := Unit) (Strategy.treeSearch.roundContext round) g asked measured
            (.ok (), g'.recording (asked ++ []) (measured ++ g.callsAt i)) :=
          .completed (List.forall_mem_nil _)
        rwa [List.append_nil] at h

/-! ## Rounds of a sweep -/

theorem sweepOnce_outcome (g : Growth P T O σ ε) (asked : List (Generator.Call P T))
    (measured : List (Evaluator.Call P T)) (classification : Classification O) (round : Nat)
    (s : Sweep) :
    Outcome (Strategy.bestFirst.roundContext round) g asked measured
      ((g.recording asked measured).sweepOnce classification round s) := by
  unfold sweepOnce
  cases Queued.pop? s.queue with
  | none =>
    have h : Outcome (Strategy.bestFirst.roundContext round) g asked measured
        (.ok s, g.recording (asked ++ []) (measured ++ [])) := .completed (List.forall_mem_nil _)
    rwa [List.append_nil, List.append_nil] at h
  | some popped =>
    simp only
    cases hn : g.tree.node? popped.1.index with
    | none =>
      rw [sweepRound_of_none (g := g.recording asked measured) hn]
      exact .violation _
    | some n =>
      rw [sweepRound_recording hn, sweepRound_eq hn]
      unfold sweepCalls
      rcases hc : g.search.expander.candidates n popped.1.index classification with ⟨e | candidates, x⟩
      · obtain ⟨hexpanded, kind, e, rfl, hcalls⟩ := Expander.calls_of_error hc
        rw [hcalls, List.append_nil]
        exact .failed hn hexpanded rfl (counted_rounds g n)
      · exact .completed (Expander.succeeds_of_candidates hc)

/-! ## The first failed round -/

section Repeated

variable {α : Type} {context : Nat → Context}
  {step : Nat → α → Growth P T O (σ × List (Generator.Call P T)) (ε × List (Evaluator.Call P T)) →
    Except Failure α × Growth P T O (σ × List (Generator.Call P T)) (ε × List (Evaluator.Call P T))}
  (hstep : ∀ round a (g : Growth P T O σ ε) asked measured,
    Outcome (context round) g asked measured (step round a (g.recording asked measured)))

include hstep

/-- The rounds end with an error exactly if a call of a generator has failed. -/
theorem repeated_outcome (a : α) (g : Growth P T O σ ε) (measured : List (Evaluator.Call P T))
    (count : Nat) :
    ∃ (g' : Growth P T O σ ε) (asked' : List (Generator.Call P T))
        (measured' : List (Evaluator.Call P T)),
      (repeated step a (g.recording [] measured) count).2 = g'.recording asked' measured' ∧
      ((∃ call ∈ asked', call.succeeds = false) ↔
        ∃ e, (repeated step a (g.recording [] measured) count).1 = .error (.error e)) := by
  induction count with
  | zero =>
    refine ⟨g, [], measured, rfl, iff_of_false ?_ (by simp [repeated])⟩
    rintro ⟨call, hcall, -⟩
    cases hcall
  | succ count ih =>
    obtain ⟨g', asked', measured', hgrowth, hiff⟩ := ih
    rw [repeated]
    rcases hx : repeated step a (g.recording [] measured) count with ⟨f | a', g₁⟩
    · rw [hx] at hgrowth hiff
      exact ⟨g', asked', measured', hgrowth, hiff⟩
    · rw [hx] at hgrowth hiff
      obtain rfl : g₁ = _ := hgrowth
      have hnone : ¬ ∃ call ∈ asked', call.succeeds = false := fun h => by
        obtain ⟨_, herror⟩ := hiff.mp h
        cases herror
      have hround := hstep count a' g' asked' measured'
      simp only
      generalize step count a' (g'.recording asked' measured') = out at hround
      cases hround with
      | violation v => exact ⟨g', asked', measured', rfl, iff_of_false hnone (by simp)⟩
      | @failed g'' i n kind e hn hexpanded htree hrounds =>
        have hmem : ⟨n, .error e⟩ ∈ asked' ++ [(⟨n, .error e⟩ : Generator.Call P T)] :=
          List.mem_append_right asked' (List.mem_singleton_self _)
        exact ⟨g'', _, measured', rfl, iff_of_true ⟨_, hmem, rfl⟩ ⟨_, rfl⟩⟩
      | completed hasks =>
        refine ⟨_, _, _, rfl, iff_of_false ?_ (by simp)⟩
        rintro ⟨call, hcall, hfails⟩
        rcases List.mem_append.mp hcall with hcall | hcall
        · exact hnone ⟨call, hcall, hfails⟩
        · rw [hasks call hcall] at hfails
          cases hfails

/-- If the first failed call comes in round `r`, then the rounds before were completed, and round `r` ends
with the error. -/
theorem repeated_first_failure (a : α) (g : Growth P T O σ ε)
    (measured : List (Evaluator.Call P T)) {r : Nat}
    (hbefore : ∀ call ∈ (repeated step a (g.recording [] measured) r).2.search.expander.memory.2,
      call.succeeds = true)
    (hfails : ∃ call ∈ (repeated step a (g.recording [] measured) (r + 1)).2.search.expander.memory.2,
      call.succeeds = false) :
    ∃ (a' : α) (g' : Growth P T O σ ε) (asked' : List (Generator.Call P T))
        (measured' : List (Evaluator.Call P T)),
      repeated step a (g.recording [] measured) r = (.ok a', g'.recording asked' measured') ∧
      Outcome (context r) g' asked' measured' (repeated step a (g.recording [] measured) (r + 1)) ∧
      ∃ e, (repeated step a (g.recording [] measured) (r + 1)).1 = .error (.error e) := by
  obtain ⟨g₁, asked₁, measured₁, hgrowth₁, hiff₁⟩ :=
    repeated_outcome hstep a g measured (r + 1)
  rw [hgrowth₁] at hfails
  have herror := hiff₁.mp hfails
  refine (?_ : ∃ a' g' asked' measured', _ ∧ _).imp fun a' => Exists.imp fun g' =>
    Exists.imp fun asked' => Exists.imp fun measured' h => ⟨h.1, h.2, herror⟩
  obtain ⟨g', asked', measured', hgrowth, hiff⟩ := repeated_outcome hstep a g measured r
  rw [hgrowth] at hbefore
  have hnone : ¬ ∃ e, (repeated step a (g.recording [] measured) r).1 = .error (.error e) := by
    rw [← hiff]
    rintro ⟨call, hcall, hfails⟩
    rw [hbefore call hcall] at hfails
    cases hfails
  rw [repeated] at herror ⊢
  rcases hx : repeated step a (g.recording [] measured) r with ⟨f | a', g₂⟩
  · rw [hx] at herror hnone
    exact absurd herror hnone
  · rw [hx] at hgrowth
    obtain rfl : g₂ = _ := hgrowth
    exact ⟨a', g', asked', measured', rfl, hstep r a' g' asked' measured'⟩

end Repeated

/-! ## Extraction -/

/-- Extraction asks no generator. -/
theorem expander_extractBest (g : Growth P T O σ ε) :
    g.extractBest.2.search.expander = g.search.expander :=
  extractBest_preserve (I := fun g' => g'.search.expander = g.search.expander)
    (fun hsame i => (expander_measure _ i).trans hsame) rfl

end Growth

/-! ## Growing -/

namespace Search

variable {s : Search P T O σ ε} {t : Tree P T} {classification : Classification O}

/-- The generators are asked in the rounds only. -/
theorem expander_grown (s : Search P T O σ ε) (t : Tree P T) (classification : Classification O)
    (rounds : Nat) :
    (s.grown t classification rounds).2.search.expander =
      (s.advance t classification rounds).2.search.expander := by
  rcases h : s.advance t classification rounds with ⟨_ | _, g⟩
  · rw [grown_of_error h]
  · cases hs : s.config.strategy with
    | treeSearch =>
      rw [grown_of_searched hs h]
      exact g.expander_extractBest
    | bestFirst =>
      obtain ⟨best, hgrown⟩ := grown_of_swept hs h
      rw [hgrown]

theorem generatorCalls_eq (s : Search P T O σ ε) (t : Tree P T) (classification : Classification O)
    (rounds : Nat) :
    s.generatorCalls t classification rounds =
      ((s.recording [] []).advance t classification rounds).2.search.expander.memory.2 := by
  unfold generatorCalls
  rw [expander_grow, expander_grown]

/-- If the first failed call of a generator comes in round `r`, then the rounds before were completed, and
round `r` ends with the error. -/
theorem advance_first_failure {r : Nat}
    (hbefore : ∀ call ∈ s.generatorCalls t classification r, call.succeeds = true)
    (hfails : ∃ call ∈ s.generatorCalls t classification (r + 1), call.succeeds = false) :
    ∃ (g : Growth P T O σ ε) (asked : List (Generator.Call P T)) (measured : List (Evaluator.Call P T)),
      (s.recording [] []).advance t classification r = (.ok (), g.recording asked measured) ∧
      Growth.Outcome (s.config.strategy.roundContext r) g asked measured
        ((s.recording [] []).advance t classification (r + 1)) ∧
      ∃ e, ((s.recording [] []).advance t classification (r + 1)).1 = .error (.error e) := by
  rw [generatorCalls_eq] at hbefore hfails
  cases hs : s.config.strategy with
  | treeSearch =>
    simp only [advance_of_treeSearch (s := s.recording [] []) hs] at hbefore hfails ⊢
    obtain ⟨_, g, asked, measured, hrounds, houtcome, herror⟩ := Growth.repeated_first_failure
      (fun round _ g asked measured => g.searchRound_outcome asked measured classification round)
      () ⟨s.restart, t⟩ [] hbefore hfails
    exact ⟨g, asked, measured, hrounds, houtcome, herror⟩
  | bestFirst =>
    rcases hm : Growth.measure ⟨s.restart, t⟩ Tree.rootIndex with ⟨f | cost, g₀⟩
    all_goals
      have hm' := Growth.measure_recording ⟨s.restart, t⟩ [] [] Tree.rootIndex
      rw [hm] at hm'
    · rw [advance_of_unmeasured (s := s.recording [] []) hs hm'] at hfails
      obtain ⟨call, hcall, -⟩ := hfails
      cases hcall
    · simp only [advance_of_measured (s := s.recording [] []) hs hm', Growth.discard_snd]
        at hbefore hfails ⊢
      obtain ⟨_, g, asked, measured, hrounds, houtcome, e, herror⟩ := Growth.repeated_first_failure
        (fun round s g asked measured => g.sweepOnce_outcome asked measured classification round s)
        (.start cost) g₀ _ hbefore hfails
      refine ⟨g, asked, measured, ?_, houtcome.discard, e, ?_⟩
      · rw [hrounds]
        rfl
      · rw [Growth.discard_fst, herror]
        rfl

/-- The search itself goes through the same rounds as the recording search. -/
theorem exists_advance {rounds : Nat} {result : Except Failure Unit} {g : Growth P T O σ ε}
    {asked : List (Generator.Call P T)} {measured : List (Evaluator.Call P T)}
    (h : (s.recording [] []).advance t classification rounds =
      (result, g.recording asked measured)) :
    ∃ g', s.advance t classification rounds = (result, g') ∧ g'.tree = g.tree ∧
      g'.search.statistics = g.search.statistics := by
  obtain ⟨hresult, _, _, hrelated, -⟩ := s.advance_recorded t classification rounds
  rw [h] at hresult hrelated
  replace hrelated : g.recording asked measured = _ := hrelated
  have htree : (g.recording asked measured).tree = _ := congrArg Growth.tree hrelated
  have hstatistics : (g.recording asked measured).search.statistics = _ :=
    congrArg (·.search.statistics) hrelated
  exact ⟨_, Prod.ext hresult.symm rfl, htree.symm, hstatistics.symm⟩

/-- Before its first round, a tree search has left the tree alone, and a best-first search has measured the
root. -/
theorem tree_advance_zero {g : Growth P T O σ ε}
    (h : s.advance t classification 0 = (.ok (), g)) :
    (s.config.strategy = .treeSearch → g.tree = t) ∧
      (s.config.strategy = .bestFirst → ∃ root cost, t.node? Tree.rootIndex = some root ∧
        (∀ c, root.evaluation = some c → c = cost) ∧
        g.tree = t.modify Tree.rootIndex fun _ => { root with evaluation := some cost }) := by
  refine ⟨fun hs => ?_, fun hs => ?_⟩
  · rw [advance_of_treeSearch hs] at h
    cases h
    rfl
  · cases hn : t.node? Tree.rootIndex with
    | none =>
      rw [advance_of_unmeasured hs (Growth.measure_of_none hn)] at h
      cases h
    | some root =>
      rw [advance_of_measured hs (Growth.measure_eq hn)] at h
      cases h
      exact ⟨root, _, rfl, fun c hc => by rw [Meter.measure_of_evaluation hc], rfl⟩

/-- A growth in which the first failed call of a generator comes in round `r` returns the error, with this
round and the node in its contexts. The tree is that after the rounds before, in which the node is not
expanded, and the counters are those of the rounds before. -/
theorem first_failed_round {r rounds : Nat} (hr : r < rounds)
    (hbefore : ∀ call ∈ s.generatorCalls t classification r, call.succeeds = true)
    (hfails : ∃ call ∈ s.generatorCalls t classification (r + 1), call.succeeds = false) :
    ∃ (g : Growth P T O σ ε) (s' : Search P T O σ ε) (i : Nat) (n : Node P T) (kind : Kind) (e : Error),
      s.advance t classification r = (.ok (), g) ∧
      s.grow t classification rounds = (.error (.error ((e.within (.candidates kind i n.stage)).within
        (s.config.strategy.roundContext r))), g.tree, s') ∧
      (g.tree.node? i = some n ∧ n.expanded = false ∧
        s.generatorCalls t classification rounds =
          s.generatorCalls t classification r ++ [⟨n, .error e⟩]) ∧
      (s'.statistics.rounds = r ∧ s'.statistics.nodes = g.tree.size ∧
        s'.statistics.measurements = (s.evaluatorCalls t classification rounds).length) ∧
      s.evaluatorCalls t classification rounds = s.evaluatorCallsInRounds t classification r ∧
      (r = 0 → (s.config.strategy = .treeSearch → g.tree = t) ∧
        (s.config.strategy = .bestFirst → ∃ root cost, t.node? Tree.rootIndex = some root ∧
          (∀ c, root.evaluation = some c → c = cost) ∧
          g.tree = t.modify Tree.rootIndex fun _ => { root with evaluation := some cost })) := by
  obtain ⟨more, rfl⟩ := Nat.exists_eq_add_of_le hr
  obtain ⟨g₁, asked, measured, hadvance, houtcome, herror⟩ := advance_first_failure hbefore hfails
  generalize hnext : (s.recording [] []).advance t classification (r + 1) = out at houtcome herror
  cases houtcome with
  | violation v =>
    obtain ⟨_, herror⟩ := herror
    cases herror
  | completed hasks =>
    obtain ⟨_, herror⟩ := herror
    cases herror
  | @failed g₂ i n kind e hn hexpanded htree hrounds =>
    have hdone : g₁.search.statistics.rounds = r := by
      rcases rounds_advance hadvance with hdone | hidle
      · exact hdone
      · rw [hidle 1] at hnext
        cases hnext
    have hlast := advance_of_error hnext more
    -- the search without logs goes through the same rounds
    obtain ⟨g, hg, htree₁, -⟩ := exists_advance hadvance
    obtain ⟨g', hg', htree₂, hstatistics⟩ := exists_advance hlast
    have hsame : g'.tree = g.tree := by rw [htree₂, htree, htree₁]
    have hgrow : s.grow t classification (r + 1 + more) = (.error (.error
        ((e.within (.candidates kind i n.stage)).within (s.config.strategy.roundContext r))),
        g.tree, g'.search.close g'.tree.size) := by
      rw [grow_eq, grown_of_error hg', ← hsame]
    have hresult : ∀ v, (s.grow t classification (r + 1 + more)).1 ≠ .error (.violation v) := by
      intro v h
      rw [hgrow] at h
      cases h
    obtain ⟨hnodes, hmeasurements, -⟩ := statistics_grow hresult
    rw [hgrow] at hnodes hmeasurements
    refine ⟨g, _, i, n, kind, e, hg, hgrow, ⟨by rwa [htree₁], hexpanded, ?_⟩,
      ⟨?_, hnodes, hmeasurements⟩, ?_, ?_⟩
    · rw [generatorCalls_eq, generatorCalls_eq, hlast, hadvance]
      rfl
    · show g'.search.statistics.rounds = r
      rw [hstatistics, hrounds, hdone]
    · unfold evaluatorCalls evaluatorCallsInRounds
      rw [meter_grow, grown_of_error hlast, hadvance]
      rfl
    · rintro rfl
      exact tree_advance_zero hg

/-- Of three rounds, the search completes one. -/
theorem first_failed_round_secondBusy :
    ∃ (g : Growth Nat Nat Unit Nat Unit) (s' : Search Nat Nat Unit Nat Unit) (i : Nat)
        (n : Node Nat Nat) (kind : Kind) (e : Error), secondBusy.advance (.ofRoot (.root 0 0)) .empty 1 = (.ok (), g) ∧
      secondBusy.grow (.ofRoot (.root 0 0)) .empty 3 = (.error (.error
        ((e.within (.candidates kind i n.stage)).within (.searchRound 1))), g.tree, s') ∧
      s'.statistics.rounds = 1 := by
  have hbefore : (secondBusy.generatorCalls (.ofRoot (.root 0 0)) .empty 1).all (·.succeeds) =
    true := rfl
  have hfails : (secondBusy.generatorCalls (.ofRoot (.root 0 0)) .empty 2).any (!·.succeeds) =
    true := rfl
  obtain ⟨g, s', i, n, kind, e, hadvance, hgrow, -, ⟨hrounds, -⟩, -⟩ :=
    first_failed_round (s := secondBusy) (show 1 < 3 by decide)
      (List.all_eq_true.mp hbefore) (by simpa using hfails)
  exact ⟨g, s', i, n, kind, e, hadvance, hgrow, hrounds⟩

end Search

end LoopTuner
