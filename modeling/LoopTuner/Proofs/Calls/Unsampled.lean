import LoopTuner.Proofs.Calls.Recording
import LoopTuner.Proofs.Growth.Independence

/-!
# Parameters that do not show

A best-first sweep keeps all candidates, so it looks neither at the seed nor at the cap, and it does not
walk down the tree, so it does not look at the exploration factor. A tree search draws from the random
stream only when a generator proposes more candidates than the cap. Therefore searches that differ in such
parameters grow a tree alike (`Search.grow_alike`). For tree search this needs that no generator proposes
too many candidates, which can be seen from the calls of either search: until the first such call the second
search does what the first one does, and an overfull log stays overfull.
-/

namespace LoopTuner

variable {P T O σ ε : Type}

/-! ## Other parameters -/

def Expander.reconfigured (x : Expander P T O σ) (cap : Nat) (stream : Random.Stream) :
    Expander P T O σ :=
  { x with cap := cap, stream := stream }

/-- The same search with another configuration and another random stream. -/
def Search.reconfigured (s : Search P T O σ ε) (config : Config) (stream : Random.Stream) :
    Search P T O σ ε :=
  ⟨config, s.expander.reconfigured config.cap stream, s.meter, s.statistics⟩

def Growth.reconfigured (g : Growth P T O σ ε) (config : Config) (stream : Random.Stream) :
    Growth P T O σ ε :=
  ⟨g.search.reconfigured config stream, g.tree⟩

namespace Expander

variable {x : Expander P T O σ}

theorem candidates_reconfigured (x : Expander P T O σ) (cap : Nat) (stream : Random.Stream)
    (n : Node P T) (i : Nat) (classification : Classification O) :
    (x.reconfigured cap stream).candidates n i classification =
      ((x.candidates n i classification).1,
        (x.candidates n i classification).2.reconfigured cap stream) := by
  unfold candidates
  rw [show (x.reconfigured cap stream).pipeline = x.pipeline from rfl,
    show (x.reconfigured cap stream).memory = x.memory from rfl]
  cases x.pipeline[n.stage]? with
  | none => rfl
  | some phase =>
    simp only
    split_ifs
    · rfl
    · rcases phase.propose n n.stage classification x.memory with ⟨_ | _, _⟩ <;> rfl

end Expander

namespace Growth

theorem counted_reconfigured (g : Growth P T O σ ε) (config : Config) (stream : Random.Stream)
    (n : Node P T) :
    (g.reconfigured config stream).counted n = (g.counted n).reconfigured config stream := by
  unfold counted
  split_ifs <;> rfl

theorem measure_reconfigured (g : Growth P T O σ ε) (config : Config) (stream : Random.Stream)
    (i : Nat) :
    (g.reconfigured config stream).measure i =
      ((g.measure i).1, (g.measure i).2.reconfigured config stream) := by
  cases h : g.tree.node? i with
  | none => rw [measure_of_none h, measure_of_none (g := g.reconfigured config stream) h]
  | some n =>
    rw [measure_eq h, measure_eq (g := g.reconfigured config stream) h]
    rfl

theorem backup_reconfigured (g : Growth P T O σ ε) (config : Config) (stream : Random.Stream)
    (i : Nat) (cost : Float) :
    (g.reconfigured config stream).backup i cost =
      ((g.backup i cost).1, (g.backup i cost).2.reconfigured config stream) := by
  unfold backup
  rw [show (g.reconfigured config stream).tree = g.tree from rfl]
  cases g.tree.backup i cost <;> rfl

/-- A round of a sweep keeps all candidates. -/
theorem sweepRound_reconfigured (g : Growth P T O σ ε) (config : Config) (stream : Random.Stream)
    (classification : Classification O) (round i : Nat) (s : Sweep) :
    (g.reconfigured config stream).sweepRound classification round i s =
      ((g.sweepRound classification round i s).1,
        (g.sweepRound classification round i s).2.reconfigured config stream) := by
  cases h : g.tree.node? i with
  | none => rw [sweepRound_of_none h, sweepRound_of_none (g := g.reconfigured config stream) h]
  | some n =>
    rw [sweepRound_eq h, sweepRound_eq (g := g.reconfigured config stream) h, counted_reconfigured,
      show (g.reconfigured config stream).search.expander =
        g.search.expander.reconfigured config.cap stream from rfl, Expander.candidates_reconfigured]
    rcases g.search.expander.candidates n i classification with ⟨_ | candidates, x⟩ <;> rfl

theorem sweepCalls_reconfigured (g : Growth P T O σ ε) (config : Config)
    (stream : Random.Stream) (classification : Classification O) (i : Nat) (n : Node P T) :
    (g.reconfigured config stream).sweepCalls classification i n = g.sweepCalls classification i n := by
  unfold sweepCalls
  rw [show (g.reconfigured config stream).search.expander =
    g.search.expander.reconfigured config.cap stream from rfl, Expander.candidates_reconfigured]
  rfl

end Growth

/-! ## Expansions -/

/-- A generator has proposed more candidates than the bound. -/
def Generator.Call.Exceeds (call : Generator.Call P T) (bound : Nat) : Prop :=
  ∃ candidates, call.answer = .ok candidates ∧ bound < candidates.length

namespace Growth

/-- The calls that expanding a selected node takes. -/
def selectedCalls (g : Growth P T O σ ε) (classification : Classification O) (i : Nat) :
    List (Generator.Call P T) :=
  match g.tree.node? i with
  | none => []
  | some n =>
    if n.stage ≤ g.search.expander.lastStage then g.search.expander.calls n classification else []

theorem expandSelected_recording (g : Growth P T O σ ε) (asked : List (Generator.Call P T))
    (measured : List (Evaluator.Call P T)) (classification : Classification O) (i : Nat) :
    (g.recording asked measured).expandSelected classification i =
      ((g.expandSelected classification i).1, (g.expandSelected classification i).2.recording
        (asked ++ g.selectedCalls classification i) measured) := by
  unfold expandSelected selectedCalls
  rw [show (g.recording asked measured).tree = g.tree from rfl,
    show (g.recording asked measured).search.expander = g.search.expander.recording asked from rfl,
    Expander.lastStage_recording]
  cases h : g.tree.node? i with
  | none => simp only [List.append_nil]
  | some n =>
    simp only
    split_ifs
    · exact expand_recording h asked measured classification
    · rw [List.append_nil]

variable {g : Growth P T O σ ε} {classification : Classification O} {config : Config} {bound : Nat}

/-- An expansion for which the caps of both searches are wide enough. -/
theorem expand_reconfigured {i : Nat} {n : Node P T} (h : g.tree.node? i = some n)
    (hcap : bound ≤ g.search.expander.cap) (hcap' : bound ≤ config.cap)
    (hfits : ∀ call ∈ g.search.expander.calls n classification, ¬ call.Exceeds bound)
    (stream : Random.Stream) :
    (g.reconfigured config stream).expand classification i n =
      ((g.expand classification i n).1,
        (g.expand classification i n).2.reconfigured config stream) := by
  rw [expand_eq h, expand_eq (g := g.reconfigured config stream) h, counted_reconfigured,
    show (g.reconfigured config stream).search.expander =
      g.search.expander.reconfigured config.cap stream from rfl, Expander.candidates_reconfigured]
  rcases hc : g.search.expander.candidates n i classification with ⟨_ | candidates, x⟩
  · rfl
  · have hlength : candidates.length ≤ bound := by
      rcases Expander.calls_of_ok hc with ⟨rfl, -⟩ | ⟨-, hcalls⟩
      · exact Nat.zero_le bound
      · rw [hcalls, List.forall_mem_singleton] at hfits
        exact Nat.not_lt.mp fun hlt => hfits ⟨candidates, rfl, hlt⟩
    have hkept : candidates.length ≤ x.cap := by
      rw [(Expander.parties_of_candidates hc).2]
      exact Nat.le_trans hlength hcap
    have hkept' : candidates.length ≤ (x.reconfigured config.cap stream).cap :=
      Nat.le_trans hlength hcap'
    simp only [Expander.limit_of_length_le hkept, Expander.limit_of_length_le hkept']
    rfl

theorem expandSelected_reconfigured {i : Nat} (hcap : bound ≤ g.search.expander.cap)
    (hcap' : bound ≤ config.cap)
    (hfits : ∀ call ∈ g.selectedCalls classification i, ¬ call.Exceeds bound)
    (stream : Random.Stream) :
    (g.reconfigured config stream).expandSelected classification i =
      ((g.expandSelected classification i).1,
        (g.expandSelected classification i).2.reconfigured config stream) := by
  unfold selectedCalls at hfits
  unfold expandSelected
  rw [show (g.reconfigured config stream).tree = g.tree from rfl,
    show (g.reconfigured config stream).search.expander.lastStage = g.search.expander.lastStage from rfl]
  cases h : g.tree.node? i with
  | none => rfl
  | some n =>
    simp only [h] at hfits ⊢
    split_ifs at hfits ⊢
    · exact expand_reconfigured h hcap hcap' hfits stream
    · rfl

/-! ## Growths -/

/-- A recording growth in whose log a call exceeds the bound. -/
def Overfull (bound : Nat)
    (x : Growth P T O (σ × List (Generator.Call P T)) (ε × List (Evaluator.Call P T))) : Prop :=
  ∃ (g : Growth P T O σ ε) (asked : List (Generator.Call P T)) (measured : List (Evaluator.Call P T)),
    x = g.recording asked measured ∧ ∃ call ∈ asked, call.Exceeds bound

/-- The log only grows. -/
theorem overfull_searchInvariant (bound : Nat) (classification : Classification O) :
    SearchInvariant classification
      (Overfull bound : Growth P T O (σ × List (Generator.Call P T))
        (ε × List (Evaluator.Call P T)) → Prop) where
  expandSelected := by
    rintro _ ⟨g, asked, measured, rfl, call, hcall, hexceeds⟩ i
    rw [expandSelected_recording]
    exact ⟨_, _, _, rfl, call, List.mem_append_left _ hcall, hexceeds⟩
  measure := by
    rintro _ ⟨g, asked, measured, rfl, hcall⟩ i
    rw [measure_recording]
    exact ⟨_, _, _, rfl, hcall⟩
  backup := by
    rintro _ ⟨g, asked, measured, rfl, hcall⟩ i cost
    rw [backup_recording]
    exact ⟨_, _, _, rfl, hcall⟩

/-- Two recording growths with the same logs. The second one is the first one with another configuration
and another random stream. -/
def Reconfigured (config config' : Config)
    (x y : Growth P T O (σ × List (Generator.Call P T)) (ε × List (Evaluator.Call P T))) : Prop :=
  ∃ (g : Growth P T O σ ε) (asked : List (Generator.Call P T)) (measured : List (Evaluator.Call P T))
      (stream : Random.Stream),
    g.search.config = config ∧ g.search.expander.cap = config.cap ∧ x = g.recording asked measured ∧
      y = (g.reconfigured config' stream).recording asked measured

/-- It is enough that an operation leaves the same but for the configuration. -/
theorem Alike.of_run {α : Type} {strategy : Strategy} {config config' : Config}
    {out : Except Failure α × Growth P T O σ ε} (hrun : Run classification strategy g out.2)
    (hconfig : g.search.config = config) (hcap : g.search.expander.cap = config.cap)
    (asked : List (Generator.Call P T)) (measured : List (Evaluator.Call P T))
    (stream : Random.Stream) :
    Alike (Reconfigured config config') (out.1, out.2.recording asked measured)
      (out.1, (out.2.reconfigured config' stream).recording asked measured) :=
  ⟨rfl, out.2, asked, measured, stream, hrun.kin.config_eq.trans hconfig,
    hrun.kin.cap_eq.trans hcap, rfl, rfl⟩

variable {config' : Config}

/-- A sweep does not look at the configuration. -/
theorem reconfigured_correspondence (config config' : Config) (classification : Classification O) :
    Correspondence classification .bestFirst
      (Reconfigured config config' : Growth P T O (σ × List (Generator.Call P T))
        (ε × List (Evaluator.Call P T)) → _ → Prop) where
  measure := by
    rintro _ _ ⟨g, asked, measured, stream, hconfig, hcap, rfl, rfl⟩ i
    rw [measure_recording, measure_recording, measure_reconfigured]
    exact .of_run (measure_run classification .bestFirst g i) hconfig hcap _ _ stream
  select_eq h := nomatch h
  expandSelected h := nomatch h
  backup h := nomatch h
  size_eq h := nomatch h
  bestChild_eq h := nomatch h
  sweepRound := by
    rintro - _ _ ⟨g, asked, measured, stream, hconfig, hcap, rfl, rfl⟩ round i s
    have hrun : Run classification .bestFirst g (g.sweepRound classification round i s).2 :=
      .single (.sweepRound g round i s)
    cases h : g.tree.node? i with
    | none =>
      rw [sweepRound_of_none (g := g.recording asked measured) h,
        sweepRound_of_none (g := (g.reconfigured config' stream).recording asked measured) h]
      exact ⟨rfl, g, asked, measured, stream, hconfig, hcap, rfl, rfl⟩
    | some n =>
      rw [sweepRound_recording h, sweepRound_recording (g := g.reconfigured config' stream) h,
        sweepRound_reconfigured, sweepCalls_reconfigured]
      exact .of_run hrun hconfig hcap _ _ stream

/-- A tree search does not look at the cap and at the random stream before a call exceeds the caps. -/
theorem reconfigured_searchCorrespondence (hexploration : config'.exploration = config.exploration)
    (hcap : bound ≤ config.cap) (hcap' : bound ≤ config'.cap) (classification : Classification O) :
    SearchCorrespondence classification (Overfull bound)
      (Reconfigured config config' : Growth P T O (σ × List (Generator.Call P T))
        (ε × List (Evaluator.Call P T)) → _ → Prop) where
  spoiled := overfull_searchInvariant bound classification
  measure := by
    rintro _ _ ⟨g, asked, measured, stream, hconfig, hcap, rfl, rfl⟩ i
    rw [measure_recording, measure_recording, measure_reconfigured]
    exact .of_run (measure_run classification .treeSearch g i) hconfig hcap _ _ stream
  select_eq := by
    rintro _ _ ⟨g, asked, measured, stream, rfl, -, rfl, rfl⟩
    show Descent.select ⟨config'.exploration⟩ g.tree Tree.rootIndex =
      Descent.select ⟨g.search.config.exploration⟩ g.tree Tree.rootIndex
    rw [hexploration]
  expandSelected := by
    rintro _ _ ⟨g, asked, measured, stream, hconfig, hkept, rfl, rfl⟩ i
    rw [expandSelected_recording, expandSelected_recording,
      show (g.reconfigured config' stream).selectedCalls classification i =
        g.selectedCalls classification i from rfl]
    by_cases hexceeds : ∃ call ∈ g.selectedCalls classification i, call.Exceeds bound
    · obtain ⟨call, hcall, hexceeds⟩ := hexceeds
      exact Or.inl ⟨_, _, _, rfl, call, List.mem_append_right _ hcall, hexceeds⟩
    · have hfits : ∀ call ∈ g.selectedCalls classification i, ¬ call.Exceeds bound :=
        fun call hcall h => hexceeds ⟨call, hcall, h⟩
      rw [expandSelected_reconfigured (hkept ▸ hcap) hcap' hfits stream]
      exact Or.inr (.of_run (expandSelected_run classification g i) hconfig hkept _ _ stream)
  backup := by
    rintro _ _ ⟨g, asked, measured, stream, hconfig, hcap, rfl, rfl⟩ i cost
    rw [backup_recording, backup_recording, backup_reconfigured]
    have hrun : Run classification .treeSearch g (g.backup i cost).2 := .single (.backup g i cost)
    exact .of_run hrun hconfig hcap _ _ stream
  size_eq := by
    rintro _ _ ⟨g, asked, measured, stream, -, -, rfl, rfl⟩
    rfl
  bestChild_eq := by
    rintro _ _ ⟨g, asked, measured, stream, -, -, rfl, rfl⟩ i
    rfl

end Growth

/-! ## Answers -/

/-- A call is answered by a generator of the pipeline. -/
def Pipeline.Answers (p : Pipeline P T O σ) (classification : Classification O)
    (call : Generator.Call P T) : Prop :=
  ∃ phase ∈ p, ∃ memory,
    call.answer = (phase.propose call.node call.node.stage classification memory).1

theorem Expander.answers_of_mem_calls {x : Expander P T O σ} {n : Node P T}
    {classification : Classification O} {call : Generator.Call P T}
    (h : call ∈ x.calls n classification) : x.pipeline.Answers classification call := by
  unfold calls at h
  cases hphase : x.pipeline[n.stage]? with
  | none =>
    rw [hphase] at h
    exact absurd h List.not_mem_nil
  | some phase =>
    rw [hphase] at h
    simp only at h
    split_ifs at h
    · exact absurd h List.not_mem_nil
    · obtain rfl := List.mem_singleton.mp h
      exact ⟨phase, List.mem_of_getElem? hphase, x.memory, rfl⟩

namespace Growth

variable {g g' : Growth P T O σ ε} {classification : Classification O} {strategy : Strategy}
  {asked asks : List (Generator.Call P T)} {measured measures : List (Evaluator.Call P T)}
  {call : Generator.Call P T}

theorem CallStep.answers (h : CallStep classification strategy g asks measures g')
    (hcall : call ∈ asks) : g.search.expander.pipeline.Answers classification call := by
  cases h with
  | measure => exact absurd hcall List.not_mem_nil
  | expand => exact Expander.answers_of_mem_calls hcall
  | backup => exact absurd hcall List.not_mem_nil
  | sweepRound => exact Expander.answers_of_mem_calls hcall

theorem CallRun.answers (h : CallRun classification strategy g asked measured g')
    (hcall : call ∈ asked) : g.search.expander.pipeline.Answers classification call := by
  induction h with
  | refl => exact absurd hcall List.not_mem_nil
  | tail hrun hstep ih =>
    rcases List.mem_append.mp hcall with hbefore | hnow
    · exact ih hbefore
    · have hanswers := hstep.answers hnow
      rwa [hrun.run.kin.pipeline_eq] at hanswers

end Growth

/-- All calls of a growth are answered by the generators of its search. -/
theorem Search.answers_of_mem_generatorCalls {s : Search P T O σ ε} {t : Tree P T}
    {classification : Classification O} {rounds : Nat} {call : Generator.Call P T}
    (h : call ∈ s.generatorCalls t classification rounds) :
    s.expander.pipeline.Answers classification call :=
  (s.grown_calls t classification rounds).2.answers h

/-! ## Growing -/

namespace Search

variable {s s' : Search P T O σ ε} {t : Tree P T} {classification : Classification O} {rounds : Nat}

/-- Two searches grow the same tree, with the same result, the same counters and the same calls. -/
structure GrowAlike (s s' : Search P T O σ ε) (t : Tree P T) (classification : Classification O)
    (rounds : Nat) : Prop where
  result : (s'.grow t classification rounds).1 = (s.grow t classification rounds).1
  tree : (s'.grow t classification rounds).2.1 = (s.grow t classification rounds).2.1
  statistics : (s'.grow t classification rounds).2.2.statistics =
    (s.grow t classification rounds).2.2.statistics
  generatorCalls : s'.generatorCalls t classification rounds = s.generatorCalls t classification rounds
  evaluatorCalls : s'.evaluatorCalls t classification rounds = s.evaluatorCalls t classification rounds

theorem growAlike_of_reconfigured {config config' : Config}
    (h : Growth.Alike (Growth.Reconfigured config config')
      ((s.recording [] []).grown t classification rounds)
      ((s'.recording [] []).grown t classification rounds)) :
    s.GrowAlike s' t classification rounds := by
  obtain ⟨hresult, g, asked, measured, stream, -, -, hx, hy⟩ := h
  have hgrow : ∃ result t' u, (s.recording [] []).grow t classification rounds = (result, t', u) ∧
      (s'.recording [] []).grow t classification rounds =
        (result, t', u.reconfigured config' stream) := by
    rw [grow_eq, grow_eq]
    generalize (s.recording [] []).grown t classification rounds = out at hresult hx
    generalize (s'.recording [] []).grown t classification rounds = out' at hresult hy
    obtain ⟨result, x⟩ := out
    obtain ⟨result', y⟩ := out'
    obtain rfl : result' = result := hresult
    obtain rfl : x = g.recording asked measured := hx
    obtain rfl : y = (g.reconfigured config' stream).recording asked measured := hy
    rcases result' with (_ | _) | _ <;> exact ⟨_, _, _, rfl, rfl⟩
  obtain ⟨result, t', u, hu, hu'⟩ := hgrow
  have hs := grow_recording s t classification rounds
  have hs' := grow_recording s' t classification rounds
  rw [hu] at hs
  rw [hu'] at hs'
  refine ⟨?_, ?_, ?_, ?_, ?_⟩
  · exact (congrArg (·.1) hs').symm.trans (congrArg (·.1) hs)
  · exact (congrArg (·.2.1) hs').symm.trans (congrArg (·.2.1) hs)
  · exact (congrArg (·.2.2.statistics) hs').symm.trans (congrArg (·.2.2.statistics) hs)
  · unfold generatorCalls
    rw [hu, hu']
    rfl
  · unfold evaluatorCalls
    rw [hu, hu']
    rfl

/-- The log of a growth that is overfull has a call that exceeds the bound. -/
theorem exists_exceeds_of_overfull {bound : Nat}
    (h : Growth.Overfull bound ((s.recording [] []).grown t classification rounds).2) :
    ∃ call ∈ s.generatorCalls t classification rounds, call.Exceeds bound := by
  obtain ⟨g, asked, measured, hx, hcall⟩ := h
  rw [(grown_calls s t classification rounds).1] at hx
  have hasked : s.generatorCalls t classification rounds = asked :=
    congrArg (·.search.expander.memory.2) hx
  rw [hasked]
  exact hcall

variable {config config' : Config} {p : Pipeline P T O σ} {memory : σ} {evaluator : Evaluator P T ε}
  {evaluatorMemory : ε}

/-- At the start, one of two searches with the same parties is the other one reconfigured. -/
theorem reconfigured_of_create (hs : create config p memory evaluator evaluatorMemory = .ok s)
    (hs' : create config' p memory evaluator evaluatorMemory = .ok s') (t : Tree P T) :
    Growth.Reconfigured config config' ⟨(s.recording [] []).restart, t⟩
      ⟨(s'.recording [] []).restart, t⟩ := by
  obtain rfl := eq_of_create hs
  obtain rfl := eq_of_create hs'
  exact ⟨⟨restart _, t⟩, [], [], .ofSeed config'.seed, rfl, rfl, rfl, rfl⟩

/-- Two searches with the same parties grow alike, if both are best-first searches, or if both are tree
searches with the same exploration factor and in the first one no generator proposes more candidates than
either cap. -/
theorem grow_alike (hs : create config p memory evaluator evaluatorMemory = .ok s)
    (hs' : create config' p memory evaluator evaluatorMemory = .ok s') (t : Tree P T)
    (classification : Classification O) (rounds : Nat) :
    (config.strategy = .bestFirst → config'.strategy = .bestFirst →
      s.GrowAlike s' t classification rounds) ∧
    (config.strategy = .treeSearch → config'.strategy = .treeSearch →
      config'.exploration = config.exploration →
      (∀ call ∈ s.generatorCalls t classification rounds, ∀ candidates, call.answer = .ok candidates →
        candidates.length ≤ config.cap ∧ candidates.length ≤ config'.cap) →
      s.GrowAlike s' t classification rounds) := by
  have hstart := reconfigured_of_create hs hs' t
  have hconfig : s.config = config := by rw [eq_of_create hs]
  have hconfig' : s'.config = config' := by rw [eq_of_create hs']
  constructor
  · intro hstrategy hstrategy'
    have hs : (s.recording [] []).config.strategy = .bestFirst := hconfig ▸ hstrategy
    have hs' : (s'.recording [] []).config.strategy = .bestFirst := hconfig' ▸ hstrategy'
    refine growAlike_of_reconfigured (Growth.Correspondence.grown ?_ (hs'.trans hs.symm) hstart rounds)
    rw [hs]
    exact Growth.reconfigured_correspondence config config' classification
  · intro hstrategy hstrategy' hexploration hfits
    have hs : (s.recording [] []).config.strategy = .treeSearch := hconfig ▸ hstrategy
    have hs' : (s'.recording [] []).config.strategy = .treeSearch := hconfig' ▸ hstrategy'
    rcases (Growth.reconfigured_searchCorrespondence hexploration (Nat.min_le_left _ _)
      (Nat.min_le_right _ _) classification).grown hs hs' hstart rounds with hoverfull | halike
    · obtain ⟨call, hcall, candidates, hanswer, hlt⟩ := exists_exceeds_of_overfull hoverfull
      obtain ⟨hle, hle'⟩ := hfits call hcall candidates hanswer
      exact absurd (Nat.le_min.mpr ⟨hle, hle'⟩) (Nat.not_le.mpr hlt)
    · exact growAlike_of_reconfigured halike

/-- A search of two stages whose generators propose two candidates for every node. -/
def pairs (config : Config) : Search Nat Nat Unit Unit Unit where
  config := config
  expander :=
    let generator : Generator Nat Nat Unit Unit :=
      .pure fun n _ _ => .ok [.extending n 1 0, .extending n 2 1]
    ⟨[⟨.tiling, generator⟩, ⟨.interchange, generator⟩], config.cap, .ofSeed config.seed, ()⟩
  meter := .create (.pure fun n => .ok (if n.program = 2 then 5 else 10)) ()
  statistics := .zero

/-- A sweep keeps both candidates with any cap, and a tree search keeps them if its cap is two. -/
theorem grow_alike_pairs :
    let sweep := pairs ⟨0, 1, 0, .bestFirst⟩
    let sweep' := pairs ⟨1, 25, 7, .bestFirst⟩
    let search := pairs ⟨1, 2, 0, .treeSearch⟩
    let search' := pairs ⟨1, 25, 7, .treeSearch⟩
    (∀ s ∈ [sweep, sweep', search, search'],
      create s.config s.expander.pipeline () s.meter.evaluator () = .ok s) ∧
      sweep.GrowAlike sweep' (.ofRoot (.root 0 0)) .empty 3 ∧
      (∀ call ∈ search.generatorCalls (.ofRoot (.root 0 0)) .empty 3, ∀ candidates,
        call.answer = .ok candidates → candidates.length ≤ 2) ∧
      search.GrowAlike search' (.ofRoot (.root 0 0)) .empty 3 := by
  intro sweep sweep' search search'
  have hmade (config : Config) (h : config.validate = .ok ()) :
      create config (pairs config).expander.pipeline () (pairs config).meter.evaluator () =
        .ok (pairs config) := create_eq h (List.cons_ne_nil _ _) () _ ()
  have hsweep := hmade ⟨0, 1, 0, .bestFirst⟩ rfl
  have hsweep' := hmade ⟨1, 25, 7, .bestFirst⟩ rfl
  have hsearch := hmade ⟨1, 2, 0, .treeSearch⟩ rfl
  have hsearch' := hmade ⟨1, 25, 7, .treeSearch⟩ rfl
  have hfits : ∀ call ∈ search.generatorCalls (.ofRoot (.root 0 0)) .empty 3, ∀ candidates,
      call.answer = .ok candidates → candidates.length ≤ 2 := by
    intro call hcall candidates hanswer
    obtain ⟨phase, hphase, memory, hpropose⟩ := answers_of_mem_generatorCalls hcall
    have htwo : (phase.propose call.node call.node.stage .empty memory).1 =
        .ok [.extending call.node 1 0, .extending call.node 2 1] := by
      rcases List.mem_cons.mp hphase with rfl | hphase
      · rfl
      · rw [List.mem_singleton.mp hphase]
        rfl
    rw [hanswer, htwo] at hpropose
    cases hpropose
    exact Nat.le_refl 2
  refine ⟨?_, (grow_alike hsweep hsweep' _ .empty 3).1 rfl rfl, hfits,
    (grow_alike hsearch hsearch' _ .empty 3).2 rfl rfl rfl ?_⟩
  · simp only [List.forall_mem_cons]
    exact ⟨hsweep, hsweep', hsearch, hsearch', List.forall_mem_nil _⟩
  · intro call hcall candidates hanswer
    have hle := hfits call hcall candidates hanswer
    exact ⟨hle, Nat.le_trans hle (by decide)⟩

end Search

end LoopTuner
