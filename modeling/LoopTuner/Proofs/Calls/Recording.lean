import LoopTuner.Proofs.Growth.Rounds

/-!
# Searches that record their calls

A search asks two parties: its generators for candidates and its evaluator for costs. A recording search
keeps a log of both, with the answers, beside what the parties remember. Otherwise it does the same: each
operation leaves the recording of what it leaves without logs (`Growth.measure_recording`,
`Growth.expand_recording`, `Growth.backup_recording`, `Growth.sweepRound_recording`), and so does the growth
of a tree (`Search.grow_recording`). The logs are the calls of a growth in the order in which they are made:
those of the generators (`Search.generatorCalls`) and those of the evaluator (`Search.evaluatorCalls`).
-/

namespace LoopTuner

variable {P T O σ ε : Type}

/-- A call of an evaluator: the node that it was asked about, and its answer. -/
structure Evaluator.Call (P T : Type) where
  node : Node P T
  answer : Except Error Float

/-- A call of a generator: the node that it was asked about, and its answer. -/
structure Generator.Call (P T : Type) where
  node : Node P T
  answer : Except Error (List (Candidate P T))

/-! ## Recording -/

/-- The same evaluator with a log of its calls. -/
def Evaluator.recording (evaluator : Evaluator P T ε) :
    Evaluator P T (ε × List (Evaluator.Call P T)) :=
  fun node memory =>
    let (answer, remembered) := evaluator node memory.1
    (answer, remembered, memory.2 ++ [⟨node, answer⟩])

/-- The same generator with a log of its calls. -/
def Generator.recording (generator : Generator P T O σ) :
    Generator P T O (σ × List (Generator.Call P T)) :=
  fun node stage classification memory =>
    let (answer, remembered) := generator node stage classification memory.1
    (answer, remembered, memory.2 ++ [⟨node, answer⟩])

def Phase.recording (phase : Phase P T O σ) : Phase P T O (σ × List (Generator.Call P T)) :=
  ⟨phase.kind, Generator.recording phase.propose⟩

def Meter.recording (m : Meter P T ε) (log : List (Evaluator.Call P T)) :
    Meter P T (ε × List (Evaluator.Call P T)) :=
  ⟨Evaluator.recording m.evaluator, (m.memory, log), m.measured, m.failed⟩

/-- All generators of a pipeline write into one log. -/
def Expander.recording (x : Expander P T O σ) (log : List (Generator.Call P T)) :
    Expander P T O (σ × List (Generator.Call P T)) :=
  ⟨x.pipeline.map Phase.recording, x.cap, x.stream, (x.memory, log)⟩

/-- The same search with the logs that its generators and its evaluator have kept so far. -/
def Search.recording (s : Search P T O σ ε) (asked : List (Generator.Call P T))
    (measured : List (Evaluator.Call P T)) :
    Search P T O (σ × List (Generator.Call P T)) (ε × List (Evaluator.Call P T)) :=
  ⟨s.config, s.expander.recording asked, s.meter.recording measured, s.statistics⟩

def Growth.recording (g : Growth P T O σ ε) (asked : List (Generator.Call P T))
    (measured : List (Evaluator.Call P T)) :
    Growth P T O (σ × List (Generator.Call P T)) (ε × List (Evaluator.Call P T)) :=
  ⟨g.search.recording asked measured, g.tree⟩

/-! ## Measuring -/

namespace Meter

/-- The calls that measuring a node takes. -/
def calls (m : Meter P T ε) (n : Node P T) : List (Evaluator.Call P T) :=
  match n.evaluation with
  | some _ => []
  | none => [⟨n, (m.evaluator n m.memory).1⟩]

/-- The calls that measuring the nodes in order takes. -/
def callsAll (m : Meter P T ε) : List (Node P T) → List (Evaluator.Call P T)
  | [] => []
  | n :: rest => m.calls n ++ (m.measure n).2.2.callsAll rest

theorem measure_recording (m : Meter P T ε) (log : List (Evaluator.Call P T)) (n : Node P T) :
    (m.recording log).measure n =
      ((m.measure n).1, (m.measure n).2.1, (m.measure n).2.2.recording (log ++ m.calls n)) := by
  unfold measure calls
  cases n.evaluation with
  | some cost =>
    simp only [List.append_nil]
  | none =>
    simp only [recording, Evaluator.recording]
    cases usable? (m.evaluator n m.memory).1 <;> rfl

theorem measureAll_recording (m : Meter P T ε) (log : List (Evaluator.Call P T))
    (nodes : List (Node P T)) :
    (m.recording log).measureAll nodes =
      ((m.measureAll nodes).1, (m.measureAll nodes).2.recording (log ++ m.callsAll nodes)) := by
  induction nodes generalizing m log with
  | nil =>
    unfold measureAll callsAll
    rw [List.append_nil]
  | cons n nodes ih =>
    unfold measureAll callsAll
    simp only [measure_recording, ih, List.append_assoc]

end Meter

namespace Growth

/-- The calls that measuring node `i` takes. -/
def callsAt (g : Growth P T O σ ε) (i : Nat) : List (Evaluator.Call P T) :=
  ((g.tree.node? i).map g.search.meter.calls).getD []

theorem callsAt_of_node? {g : Growth P T O σ ε} {i : Nat} {n : Node P T}
    (h : g.tree.node? i = some n) : g.callsAt i = g.search.meter.calls n := by
  unfold callsAt
  rw [h]
  rfl

theorem measure_recording (g : Growth P T O σ ε) (asked : List (Generator.Call P T))
    (measured : List (Evaluator.Call P T)) (i : Nat) :
    (g.recording asked measured).measure i =
      ((g.measure i).1, (g.measure i).2.recording asked (measured ++ g.callsAt i)) := by
  cases h : g.tree.node? i with
  | none =>
    unfold callsAt
    rw [measure_of_none h, measure_of_none (g := g.recording asked measured) h, h]
    simp only [Option.map_none, Option.getD_none, List.append_nil]
  | some n =>
    rw [measure_eq h, measure_eq (g := g.recording asked measured) h, callsAt_of_node? h]
    simp only [recording, Search.recording, Meter.measure_recording]

theorem backup_recording (g : Growth P T O σ ε) (asked : List (Generator.Call P T))
    (measured : List (Evaluator.Call P T)) (i : Nat) (cost : Float) :
    (g.recording asked measured).backup i cost =
      ((g.backup i cost).1, (g.backup i cost).2.recording asked measured) := by
  unfold backup
  rw [show (g.recording asked measured).tree = g.tree from rfl]
  cases g.tree.backup i cost <;> rfl

end Growth

/-! ## Expanding -/

namespace Expander

/-- The calls that asking for the candidates of a node takes. -/
def calls (x : Expander P T O σ) (n : Node P T) (classification : Classification O) :
    List (Generator.Call P T) :=
  match x.pipeline[n.stage]? with
  | none => []
  | some phase =>
    if n.expanded then [] else [⟨n, (phase.propose n n.stage classification x.memory).1⟩]

theorem candidates_recording (x : Expander P T O σ) (log : List (Generator.Call P T))
    (n : Node P T) (i : Nat) (classification : Classification O) :
    (x.recording log).candidates n i classification =
      ((x.candidates n i classification).1,
        (x.candidates n i classification).2.recording (log ++ x.calls n classification)) := by
  unfold candidates calls
  rw [show (x.recording log).pipeline[n.stage]? = x.pipeline[n.stage]?.map Phase.recording from
    List.getElem?_map]
  cases x.pipeline[n.stage]? with
  | none =>
    simp only [Option.map_none, List.append_nil]
  | some phase =>
    simp only [Option.map_some]
    split_ifs
    · rw [List.append_nil]
    · rcases h : phase.propose n n.stage classification x.memory with ⟨_ | _, _⟩
      all_goals simp only [recording, Phase.recording, Generator.recording, h]

theorem lastStage_recording (x : Expander P T O σ) (log : List (Generator.Call P T)) :
    (x.recording log).lastStage = x.lastStage := by
  unfold lastStage Pipeline.lastStage? recording
  rw [List.isEmpty_map, List.length_map]

theorem limit_recording (x : Expander P T O σ) (log : List (Generator.Call P T))
    (candidates : List (Candidate P T)) :
    (x.recording log).limit candidates =
      ((x.limit candidates).1, (x.limit candidates).2.recording log) := by
  unfold limit
  rw [show (x.recording log).cap = x.cap from rfl, show (x.recording log).stream = x.stream from rfl]
  split_ifs <;> rfl

variable {x x' : Expander P T O σ} {n : Node P T} {i : Nat} {classification : Classification O}

theorem calls_of_idle (h : n.expanded = true ∨ x.pipeline.length ≤ n.stage)
    (classification : Classification O) : x.calls n classification = [] := by
  unfold calls
  rcases h with hexpanded | hstage
  · rw [hexpanded]
    cases x.pipeline[n.stage]? <;> rfl
  · rw [List.getElem?_eq_none hstage]

/-- The phase is asked once. -/
theorem calls_of_phase {phase : Phase P T O σ} (hexpanded : n.expanded = false)
    (hphase : x.pipeline[n.stage]? = some phase) (classification : Classification O) :
    x.calls n classification = [⟨n, (phase.propose n n.stage classification x.memory).1⟩] := by
  unfold calls
  simp only [hphase, hexpanded, Bool.false_eq_true, if_false]

/-- A generator fails only below a node that is not expanded, and answers with the cause of the error. -/
theorem calls_of_error {e : Error} (h : x.candidates n i classification = (.error e, x')) :
    n.expanded = false ∧ ∃ kind e', e = e'.within (.candidates kind i n.stage) ∧
      x.calls n classification = [⟨n, .error e'⟩] := by
  obtain ⟨phase, e', hexpanded, hphase, he, hpropose⟩ := exists_of_candidates_error h
  have hcalls := calls_of_phase hexpanded hphase classification
  rw [hpropose] at hcalls
  exact ⟨hexpanded, phase.kind, e', he, hcalls⟩

/-- If no generator fails, the only call is that for the node itself, before it was expanded, and without a
call there are no candidates. -/
theorem calls_of_ok {candidates : List (Candidate P T)}
    (h : x.candidates n i classification = (.ok candidates, x')) :
    candidates = [] ∧ x.calls n classification = [] ∨
      n.expanded = false ∧ x.calls n classification = [⟨n, .ok candidates⟩] := by
  rcases candidates_ok_cases h with ⟨hidle, rfl, -⟩ | ⟨phase, hexpanded, hphase, hpropose⟩
  · exact Or.inl ⟨rfl, calls_of_idle hidle classification⟩
  · have hcalls := calls_of_phase hexpanded hphase classification
    rw [hpropose] at hcalls
    exact Or.inr ⟨hexpanded, hcalls⟩

end Expander

namespace Growth

theorem expand_recording {g : Growth P T O σ ε} {i : Nat} {n : Node P T}
    (h : g.tree.node? i = some n) (asked : List (Generator.Call P T))
    (measured : List (Evaluator.Call P T)) (classification : Classification O) :
    (g.recording asked measured).expand classification i n =
      ((g.expand classification i n).1, (g.expand classification i n).2.recording
        (asked ++ g.search.expander.calls n classification) measured) := by
  have hcounted : (g.recording asked measured).counted n = (g.counted n).recording asked measured := by
    unfold counted
    split_ifs <;> rfl
  rw [expand_eq h, expand_eq (g := g.recording asked measured) h, hcounted,
    show (g.recording asked measured).search.expander = g.search.expander.recording asked from rfl,
    Expander.candidates_recording]
  rcases g.search.expander.candidates n i classification with ⟨_ | candidates, x⟩
  · rfl
  · simp only [Expander.limit_recording]
    rfl

/-- The calls of the evaluator in a round of a sweep that expands a node. -/
def sweepCalls (g : Growth P T O σ ε) (classification : Classification O) (i : Nat) (n : Node P T) :
    List (Evaluator.Call P T) :=
  match (g.search.expander.candidates n i classification).1 with
  | .error _ => []
  | .ok candidates => g.search.meter.callsAll (Candidate.toNodes candidates n i)

theorem sweepRound_recording {g : Growth P T O σ ε} {i : Nat} {n : Node P T}
    (h : g.tree.node? i = some n) (asked : List (Generator.Call P T))
    (measured : List (Evaluator.Call P T)) (classification : Classification O) (round : Nat)
    (s : Sweep) :
    (g.recording asked measured).sweepRound classification round i s =
      ((g.sweepRound classification round i s).1,
        (g.sweepRound classification round i s).2.recording
          (asked ++ g.search.expander.calls n classification)
          (measured ++ g.sweepCalls classification i n)) := by
  have hcounted : (g.recording asked measured).counted n = (g.counted n).recording asked measured := by
    unfold counted
    split_ifs <;> rfl
  rw [sweepRound_eq h, sweepRound_eq (g := g.recording asked measured) h, hcounted,
    show (g.recording asked measured).search.expander = g.search.expander.recording asked from rfl,
    show (g.recording asked measured).search.meter = g.search.meter.recording measured from rfl,
    Expander.candidates_recording]
  unfold sweepCalls
  rcases g.search.expander.candidates n i classification with ⟨_ | candidates, x⟩
  · simp only [List.append_nil]
    rfl
  · simp only [sweepKids, Meter.measureAll_recording]
    rfl

/-! ## Operations with their calls -/

/-- An operation of a search at work, with the calls of the generators and of the evaluator that it
takes. -/
inductive CallStep (classification : Classification O) :
    Strategy → Growth P T O σ ε → List (Generator.Call P T) → List (Evaluator.Call P T) →
      Growth P T O σ ε → Prop
  | measure (strategy : Strategy) (g : Growth P T O σ ε) (i : Nat) :
      CallStep classification strategy g [] (g.callsAt i) (g.measure i).2
  | expand {g : Growth P T O σ ε} {i : Nat} {n : Node P T} (h : g.tree.node? i = some n) :
      CallStep classification .treeSearch g (g.search.expander.calls n classification) []
        (g.expand classification i n).2
  | backup (g : Growth P T O σ ε) (i : Nat) (cost : Float) :
      CallStep classification .treeSearch g [] [] (g.backup i cost).2
  | sweepRound {g : Growth P T O σ ε} {i : Nat} {n : Node P T} (h : g.tree.node? i = some n)
      (round : Nat) (s : Sweep) :
      CallStep classification .bestFirst g (g.search.expander.calls n classification)
        (g.sweepCalls classification i n) (g.sweepRound classification round i s).2

/-- A chain of operations, with all the calls that they take. -/
inductive CallRun (classification : Classification O) (strategy : Strategy)
    (start : Growth P T O σ ε) :
    List (Generator.Call P T) → List (Evaluator.Call P T) → Growth P T O σ ε → Prop
  | refl : CallRun classification strategy start [] [] start
  | tail {asked asks : List (Generator.Call P T)} {measured measures : List (Evaluator.Call P T)}
      {g g' : Growth P T O σ ε} (h : CallRun classification strategy start asked measured g)
      (step : CallStep classification strategy g asks measures g') :
      CallRun classification strategy start (asked ++ asks) (measured ++ measures) g'

section

variable {g g' : Growth P T O σ ε} {classification : Classification O} {strategy : Strategy}
  {asked asks : List (Generator.Call P T)} {measured measures : List (Evaluator.Call P T)}

theorem CallStep.operation (h : CallStep classification strategy g asks measures g') :
    Operation classification strategy g g' := by
  cases h with
  | measure _ _ i => exact .measure strategy g i
  | expand hn => exact .expand hn
  | backup _ i cost => exact .backup g i cost
  | sweepRound _ round s => exact .sweepRound g round _ s

theorem CallRun.run (h : CallRun classification strategy g asked measured g') :
    Run classification strategy g g' := by
  induction h with
  | refl => exact .refl
  | tail _ hstep ih => exact ih.tail hstep.operation

end

/-- The second growth is a recording of the first, and its logs are the calls since the start. -/
def Recorded (classification : Classification O) (strategy : Strategy) (start g : Growth P T O σ ε)
    (g' : Growth P T O (σ × List (Generator.Call P T)) (ε × List (Evaluator.Call P T))) : Prop :=
  ∃ asked measured, g' = g.recording asked measured ∧
    CallRun classification strategy start asked measured g

/-- Recording does not change what a search does. -/
theorem recorded_simulation (classification : Classification O) (strategy : Strategy)
    (start : Growth P T O σ ε) :
    Simulation classification strategy (Recorded classification strategy start) where
  tree_eq := by
    rintro g _ ⟨asked, measured, rfl, -⟩
    rfl
  measure := by
    rintro g _ ⟨asked, measured, rfl, hrun⟩ i
    have hnext := hrun.tail (.measure strategy g i)
    rw [List.append_nil] at hnext
    rw [measure_recording]
    exact ⟨rfl, _, _, rfl, hnext⟩
  descent_eq := by
    rintro - g _ ⟨asked, measured, rfl, -⟩
    rfl
  lastStage_eq := by
    rintro - g _ ⟨asked, measured, rfl, -⟩
    exact Expander.lastStage_recording g.search.expander asked
  expand := by
    rintro rfl g _ ⟨asked, measured, rfl, hrun⟩ i n hn
    have hnext := hrun.tail (.expand hn)
    rw [List.append_nil] at hnext
    rw [expand_recording hn]
    exact ⟨rfl, _, _, rfl, hnext⟩
  backup := by
    rintro rfl g _ ⟨asked, measured, rfl, hrun⟩ i cost
    have hnext := hrun.tail (.backup g i cost)
    rw [List.append_nil, List.append_nil] at hnext
    rw [backup_recording]
    exact ⟨rfl, _, _, rfl, hnext⟩
  sweepRound := by
    rintro rfl g _ ⟨asked, measured, rfl, hrun⟩ round i s
    cases hn : g.tree.node? i with
    | none =>
      rw [sweepRound_of_none hn, sweepRound_of_none (g := g.recording asked measured) hn]
      exact ⟨rfl, _, _, rfl, hrun⟩
    | some n =>
      rw [sweepRound_recording hn]
      exact ⟨rfl, _, _, rfl, hrun.tail (.sweepRound hn round s)⟩

end Growth

/-! ## Growing -/

namespace Search

variable (s : Search P T O σ ε) (t : Tree P T) (classification : Classification O) (rounds : Nat)

/-- The calls of the generators in a growth. -/
def generatorCalls : List (Generator.Call P T) :=
  ((s.recording [] []).grow t classification rounds).2.2.expander.memory.2

/-- The calls of the evaluator in a growth. -/
def evaluatorCalls : List (Evaluator.Call P T) :=
  ((s.recording [] []).grow t classification rounds).2.2.meter.memory.2

/-- The calls of the evaluator in the rounds of a growth, before the result is taken. -/
def evaluatorCallsInRounds : List (Evaluator.Call P T) :=
  ((s.recording [] []).advance t classification rounds).2.search.meter.memory.2

theorem grown_recorded :
    Growth.Alike (Growth.Recorded classification s.config.strategy ⟨s.restart, t⟩)
      (s.grown t classification rounds) ((s.recording [] []).grown t classification rounds) :=
  (Growth.recorded_simulation classification s.config.strategy ⟨s.restart, t⟩).correspondence.grown
    (show (s.recording [] []).config.strategy = s.config.strategy from rfl) ⟨[], [], rfl, .refl⟩ rounds

theorem advance_recorded :
    Growth.Alike (Growth.Recorded classification s.config.strategy ⟨s.restart, t⟩)
      (s.advance t classification rounds) ((s.recording [] []).advance t classification rounds) :=
  (Growth.recorded_simulation classification s.config.strategy ⟨s.restart, t⟩).correspondence.advance
    (show (s.recording [] []).config.strategy = s.config.strategy from rfl) ⟨[], [], rfl, .refl⟩ rounds

/-- A growth is a run of operations that takes its calls. -/
theorem grown_calls :
    (s.recording [] []).grown t classification rounds =
        ((s.grown t classification rounds).1,
          (s.grown t classification rounds).2.recording (s.generatorCalls t classification rounds)
            (s.evaluatorCalls t classification rounds)) ∧
      Growth.CallRun classification s.config.strategy ⟨s.restart, t⟩
        (s.generatorCalls t classification rounds) (s.evaluatorCalls t classification rounds)
        (s.grown t classification rounds).2 := by
  obtain ⟨hresult, asked, measured, hrelated, hrun⟩ := grown_recorded s t classification rounds
  have hasked : s.generatorCalls t classification rounds = asked := by
    unfold generatorCalls
    rw [expander_grow, hrelated]
    rfl
  have hmeasured : s.evaluatorCalls t classification rounds = measured := by
    unfold evaluatorCalls
    rw [meter_grow, hrelated]
    rfl
  rw [hasked, hmeasured]
  exact ⟨Prod.ext hresult hrelated, hrun⟩

/-- So are the rounds of a growth. -/
theorem advance_calls :
    ∃ asked, (s.recording [] []).advance t classification rounds =
        ((s.advance t classification rounds).1,
          (s.advance t classification rounds).2.recording asked
            (s.evaluatorCallsInRounds t classification rounds)) ∧
      Growth.CallRun classification s.config.strategy ⟨s.restart, t⟩ asked
        (s.evaluatorCallsInRounds t classification rounds) (s.advance t classification rounds).2 := by
  obtain ⟨hresult, asked, measured, hrelated, hrun⟩ := advance_recorded s t classification rounds
  have hmeasured : s.evaluatorCallsInRounds t classification rounds = measured := by
    unfold evaluatorCallsInRounds
    rw [hrelated]
    rfl
  rw [hmeasured]
  exact ⟨asked, Prod.ext hresult hrelated, hrun⟩

/-- A recording search grows a tree like the search itself. -/
theorem grow_recording :
    (s.recording [] []).grow t classification rounds =
      ((s.grow t classification rounds).1, (s.grow t classification rounds).2.1,
        (s.grow t classification rounds).2.2.recording (s.generatorCalls t classification rounds)
          (s.evaluatorCalls t classification rounds)) := by
  rw [grow_eq, (grown_calls s t classification rounds).1, grow_eq]
  rcases s.grown t classification rounds with ⟨(_ | _) | _, g⟩ <;> rfl

end Search

end LoopTuner
