import LoopTuner.Proofs.Growth.Runs
import LoopTuner.Proofs.Growth.Simulation

/-!
# Searches without memory

What the generators and the evaluator remember is the only state that outlives a growth: the random stream
and the counters start anew (`Search.Kin.restart_eq`). If the answers of generators and evaluator do not
depend on it, then searches of the same make grow a tree alike (`Search.grow_of_kin`), and what a search was
used for before does not show in its next run (`Search.run_eq_of_used`).
-/

namespace LoopTuner

variable {P T O σ ε : Type}

/-! ## Answers without memory -/

/-- What the generators answer does not depend on what they remember. -/
def Pipeline.Stateless (p : Pipeline P T O σ) : Prop :=
  ∀ phase ∈ p, ∀ n stage classification memory memory',
    (phase.propose n stage classification memory).1 = (phase.propose n stage classification memory').1

/-- What the evaluator answers does not depend on what it remembers. -/
def Evaluator.Stateless (e : Evaluator P T ε) : Prop :=
  ∀ n memory memory', (e n memory).1 = (e n memory').1

structure Search.Stateless (s : Search P T O σ ε) : Prop where
  generators : s.expander.pipeline.Stateless
  evaluator : s.meter.evaluator.Stateless

/-! ## Other memories -/

def Meter.remembering (m : Meter P T ε) (memory : ε) : Meter P T ε := { m with memory := memory }

def Expander.remembering (x : Expander P T O σ) (memory : σ) : Expander P T O σ :=
  { x with memory := memory }

/-- The same search, with other memories of its generators and its evaluator. -/
def Search.remembering (s : Search P T O σ ε) (memory : σ) (evaluatorMemory : ε) :
    Search P T O σ ε :=
  ⟨s.config, s.expander.remembering memory, s.meter.remembering evaluatorMemory, s.statistics⟩

def Growth.remembering (g : Growth P T O σ ε) (memory : σ) (evaluatorMemory : ε) :
    Growth P T O σ ε :=
  ⟨g.search.remembering memory evaluatorMemory, g.tree⟩

namespace Meter

variable {m : Meter P T ε}

theorem measure_remembering (h : m.evaluator.Stateless) (memory : ε) (n : Node P T) :
    ∃ memory', (m.remembering memory).measure n =
      ((m.measure n).1, (m.measure n).2.1, (m.measure n).2.2.remembering memory') := by
  unfold measure
  cases n.evaluation with
  | some cost => exact ⟨memory, rfl⟩
  | none =>
    refine ⟨(m.evaluator n memory).2, ?_⟩
    simp only [remembering, h n memory m.memory]
    cases usable? (m.evaluator n m.memory).1 <;> rfl

theorem measureAll_remembering (h : m.evaluator.Stateless) (memory : ε) (nodes : List (Node P T)) :
    ∃ memory', (m.remembering memory).measureAll nodes =
      ((m.measureAll nodes).1, (m.measureAll nodes).2.remembering memory') := by
  induction nodes generalizing m memory with
  | nil => exact ⟨memory, rfl⟩
  | cons n nodes ih =>
    obtain ⟨memory₁, hmeasure⟩ := measure_remembering h memory n
    obtain ⟨memory₂, hrest⟩ := ih ((evaluator_measure m n).symm ▸ h) memory₁
    refine ⟨memory₂, ?_⟩
    unfold measureAll
    simp only [hmeasure, hrest]

end Meter

namespace Expander

variable {x : Expander P T O σ}

theorem candidates_remembering (h : x.pipeline.Stateless) (memory : σ) (n : Node P T) (i : Nat)
    (classification : Classification O) :
    ∃ memory', (x.remembering memory).candidates n i classification =
      ((x.candidates n i classification).1,
        (x.candidates n i classification).2.remembering memory') := by
  unfold candidates
  rw [show (x.remembering memory).pipeline = x.pipeline from rfl]
  cases hphase : x.pipeline[n.stage]? with
  | none => exact ⟨memory, rfl⟩
  | some phase =>
    simp only
    split_ifs
    · exact ⟨memory, rfl⟩
    · -- the answers are equal, so both sides take the same branch
      have hanswer := h phase (List.mem_of_getElem? hphase) n n.stage classification memory x.memory
      refine ⟨(phase.propose n n.stage classification memory).2, ?_⟩
      rcases hpropose : phase.propose n n.stage classification x.memory with ⟨_ | _, _⟩
      all_goals
        rw [hpropose] at hanswer
        simp only [show phase.propose n n.stage classification (x.remembering memory).memory =
          (_, (phase.propose n n.stage classification memory).2) from Prod.ext hanswer rfl]
        rfl

/-- Asking a generator moves its memory only. -/
theorem parties_of_candidates {n : Node P T} {i : Nat} {classification : Classification O}
    {result : Except Error (List (Candidate P T))} {x' : Expander P T O σ}
    (h : x.candidates n i classification = (result, x')) :
    x'.pipeline = x.pipeline ∧ x'.cap = x.cap := by
  obtain ⟨memory, hx⟩ := x.candidates_expander n i classification
  rw [h] at hx
  obtain rfl : x' = _ := hx
  exact ⟨rfl, rfl⟩

/-- Choosing candidates moves the random stream only. -/
theorem parties_of_limit (x : Expander P T O σ) (candidates : List (Candidate P T)) :
    (x.limit candidates).2.pipeline = x.pipeline ∧ (x.limit candidates).2.cap = x.cap := by
  obtain ⟨stream, hlimit⟩ := x.limit_expander candidates
  rw [hlimit]
  exact ⟨rfl, rfl⟩

theorem limit_remembering (x : Expander P T O σ) (memory : σ) (candidates : List (Candidate P T)) :
    (x.remembering memory).limit candidates =
      ((x.limit candidates).1, (x.limit candidates).2.remembering memory) := by
  unfold limit
  rw [show (x.remembering memory).cap = x.cap from rfl,
    show (x.remembering memory).stream = x.stream from rfl]
  split_ifs <;> rfl

end Expander

/-! ## Searches of the same make -/

/-- Two searches with the same configuration and parties, whatever they were used for. -/
structure Search.Kin (s s' : Search P T O σ ε) : Prop where
  config_eq : s'.config = s.config
  pipeline_eq : s'.expander.pipeline = s.expander.pipeline
  cap_eq : s'.expander.cap = s.expander.cap
  evaluator_eq : s'.meter.evaluator = s.meter.evaluator

namespace Search.Kin

variable {s s' s'' : Search P T O σ ε}

theorem refl (s : Search P T O σ ε) : s.Kin s := ⟨rfl, rfl, rfl, rfl⟩

theorem symm (h : s.Kin s') : s'.Kin s :=
  ⟨h.config_eq.symm, h.pipeline_eq.symm, h.cap_eq.symm, h.evaluator_eq.symm⟩

theorem trans (h : s.Kin s') (h' : s'.Kin s'') : s.Kin s'' where
  config_eq := h'.config_eq.trans h.config_eq
  pipeline_eq := h'.pipeline_eq.trans h.pipeline_eq
  cap_eq := h'.cap_eq.trans h.cap_eq
  evaluator_eq := h'.evaluator_eq.trans h.evaluator_eq

theorem remembering (s : Search P T O σ ε) (memory : σ) (evaluatorMemory : ε) :
    s.Kin (s.remembering memory evaluatorMemory) :=
  ⟨rfl, rfl, rfl, rfl⟩

theorem stateless (h : s.Kin s') (hs : s.Stateless) : s'.Stateless where
  generators := h.pipeline_eq ▸ hs.generators
  evaluator := h.evaluator_eq ▸ hs.evaluator

/-- At the start of a growth, only what the parties remember is left of earlier ones. -/
theorem restart_eq (h : s.Kin s') :
    s'.restart = s.restart.remembering s'.expander.memory s'.meter.memory := by
  obtain ⟨config, ⟨pipeline, cap, stream, memory⟩, ⟨evaluator, evaluatorMemory, measured, failed⟩,
    statistics⟩ := s'
  obtain ⟨rfl, rfl, rfl, rfl⟩ := h
  rfl

end Search.Kin

/-! ## Operations -/

namespace Growth

variable {classification : Classification O} {strategy : Strategy} {g g' : Growth P T O σ ε}

theorem counted_remembering (g : Growth P T O σ ε) (n : Node P T) (memory : σ) (evaluatorMemory : ε) :
    (g.remembering memory evaluatorMemory).counted n =
      (g.counted n).remembering memory evaluatorMemory := by
  unfold counted
  split_ifs <;> rfl

theorem kin_counted (g : Growth P T O σ ε) (n : Node P T) : g.search.Kin (g.counted n) := by
  unfold counted
  split_ifs
  · exact .refl g.search
  · exact ⟨rfl, rfl, rfl, rfl⟩

/-- No operation changes what a search is made of. -/
theorem Operation.kin (h : Operation classification strategy g g') : g.search.Kin g'.search := by
  cases h with
  | measure _ _ i =>
    cases hn : g.tree.node? i with
    | none =>
      rw [measure_of_none hn]
      exact .refl g.search
    | some n =>
      rw [measure_eq hn]
      exact ⟨rfl, rfl, rfl, Meter.evaluator_measure g.search.meter n⟩
  | @expand _ i n hn =>
    have hkin := kin_counted g n
    rw [expand_eq hn]
    rcases hc : g.search.expander.candidates n i classification with ⟨_ | candidates, x⟩
    · obtain ⟨hpipeline, hcap⟩ := Expander.parties_of_candidates hc
      exact ⟨hkin.config_eq, hpipeline, hcap, hkin.evaluator_eq⟩
    · obtain ⟨hpipeline, hcap⟩ := Expander.parties_of_candidates hc
      obtain ⟨hpipeline', hcap'⟩ := x.parties_of_limit candidates
      exact ⟨hkin.config_eq, hpipeline'.trans hpipeline, hcap'.trans hcap, hkin.evaluator_eq⟩
  | backup _ i cost =>
    unfold Growth.backup
    split
    · exact .refl g.search
    · exact ⟨rfl, rfl, rfl, rfl⟩
  | sweepRound _ round i s =>
    cases hn : g.tree.node? i with
    | none =>
      rw [sweepRound_of_none hn]
      exact .refl g.search
    | some n =>
      have hkin := kin_counted g n
      rw [sweepRound_eq hn]
      rcases hc : g.search.expander.candidates n i classification with ⟨_ | candidates, x⟩
      · obtain ⟨hpipeline, hcap⟩ := Expander.parties_of_candidates hc
        exact ⟨hkin.config_eq, hpipeline, hcap, hkin.evaluator_eq⟩
      · obtain ⟨hpipeline, hcap⟩ := Expander.parties_of_candidates hc
        exact ⟨hkin.config_eq, hpipeline, hcap, Meter.evaluator_measureAll g.search.meter _⟩

theorem Run.kin (h : Run classification strategy g g') : g.search.Kin g'.search :=
  h.preserve (I := fun g' => g.search.Kin g'.search) (fun hoperation hkin => hkin.trans hoperation.kin)
    (.refl g.search)

/-- The second growth differs from the first in its memories only, on which no answer depends. -/
def Resembles (g g' : Growth P T O σ ε) : Prop :=
  g.search.Stateless ∧ ∃ memory evaluatorMemory, g' = g.remembering memory evaluatorMemory

/-- It is enough that an operation leaves the same but for the memories. -/
theorem Alike.of_operation {α : Type} {out out' : Except Failure α × Growth P T O σ ε}
    (h : Operation classification strategy g out.2) (hg : g.search.Stateless)
    (hout : ∃ memory evaluatorMemory, out' = (out.1, out.2.remembering memory evaluatorMemory)) :
    Alike Resembles out out' := by
  obtain ⟨memory, evaluatorMemory, rfl⟩ := hout
  exact ⟨rfl, h.kin.stateless hg, memory, evaluatorMemory, rfl⟩

/-- Without memory, the parties of resembling growths answer alike. -/
theorem resembles_simulation (classification : Classification O) (strategy : Strategy) :
    Simulation classification strategy
      (Resembles : Growth P T O σ ε → Growth P T O σ ε → Prop) where
  tree_eq := by
    rintro g _ ⟨-, memory, evaluatorMemory, rfl⟩
    rfl
  measure := by
    rintro g _ ⟨hg, memory, evaluatorMemory, rfl⟩ i
    have hmeasured : Operation classification strategy g (g.measure i).2 := .measure strategy g i
    refine .of_operation hmeasured hg ?_
    cases hn : g.tree.node? i with
    | none =>
      rw [measure_of_none hn, measure_of_none (g := g.remembering memory evaluatorMemory) hn]
      exact ⟨memory, evaluatorMemory, rfl⟩
    | some n =>
      obtain ⟨evaluatorMemory', hmeasure⟩ :=
        Meter.measure_remembering hg.evaluator evaluatorMemory n
      refine ⟨memory, evaluatorMemory', ?_⟩
      rw [measure_eq hn, measure_eq (g := g.remembering memory evaluatorMemory) hn]
      simp only [remembering, Search.remembering, hmeasure]
  descent_eq := by
    rintro - g _ ⟨-, memory, evaluatorMemory, rfl⟩
    rfl
  lastStage_eq := by
    rintro - g _ ⟨-, memory, evaluatorMemory, rfl⟩
    rfl
  expand := by
    rintro rfl g _ ⟨hg, memory, evaluatorMemory, rfl⟩ i n hn
    obtain ⟨memory', hcandidates⟩ :=
      Expander.candidates_remembering hg.generators memory n i classification
    refine .of_operation (.expand hn) hg ⟨memory', evaluatorMemory, ?_⟩
    rw [expand_eq hn, expand_eq (g := g.remembering memory evaluatorMemory) hn, counted_remembering,
      show (g.remembering memory evaluatorMemory).search.expander =
        g.search.expander.remembering memory from rfl, hcandidates]
    rcases g.search.expander.candidates n i classification with ⟨_ | candidates, x⟩
    · rfl
    · simp only [Expander.limit_remembering]
      rfl
  backup := by
    rintro rfl g _ ⟨hg, memory, evaluatorMemory, rfl⟩ i cost
    refine .of_operation (.backup g i cost : Operation classification _ g _) hg
      ⟨memory, evaluatorMemory, ?_⟩
    unfold Growth.backup
    rw [show (g.remembering memory evaluatorMemory).tree = g.tree from rfl]
    cases g.tree.backup i cost <;> rfl
  sweepRound := by
    rintro rfl g _ ⟨hg, memory, evaluatorMemory, rfl⟩ round i s
    refine .of_operation (.sweepRound g round i s) hg ?_
    cases hn : g.tree.node? i with
    | none =>
      rw [sweepRound_of_none hn, sweepRound_of_none (g := g.remembering memory evaluatorMemory) hn]
      exact ⟨memory, evaluatorMemory, rfl⟩
    | some n =>
      obtain ⟨memory', hcandidates⟩ :=
        Expander.candidates_remembering hg.generators memory n i classification
      rw [sweepRound_eq hn, sweepRound_eq (g := g.remembering memory evaluatorMemory) hn,
        counted_remembering, show (g.remembering memory evaluatorMemory).search.expander =
          g.search.expander.remembering memory from rfl, hcandidates]
      rcases g.search.expander.candidates n i classification with ⟨_ | candidates, x⟩
      · exact ⟨memory', evaluatorMemory, rfl⟩
      · obtain ⟨evaluatorMemory', hmeasure⟩ := Meter.measureAll_remembering hg.evaluator evaluatorMemory
          (Candidate.toNodes candidates n i)
        refine ⟨memory', evaluatorMemory', ?_⟩
        simp only [sweepKids, show (g.remembering memory evaluatorMemory).search.meter =
          g.search.meter.remembering evaluatorMemory from rfl, hmeasure]
        rfl

end Growth

/-! ## Growing -/

namespace Search

variable {s s' : Search P T O σ ε}

theorem kin_grow (s : Search P T O σ ε) (t : Tree P T) (classification : Classification O)
    (rounds : Nat) : s.Kin (s.grow t classification rounds).2.2 := by
  have hrestart : s.Kin s.restart := ⟨rfl, rfl, rfl, rfl⟩
  have hkin := hrestart.trans (s.grown_run classification t rounds).kin
  rw [grow_eq]
  generalize s.grown t classification rounds = out at hkin ⊢
  obtain ⟨(_ | _) | _, g⟩ := out
  · exact ⟨hkin.config_eq, hkin.pipeline_eq, hkin.cap_eq, hkin.evaluator_eq⟩
  · exact hkin
  · exact ⟨hkin.config_eq, hkin.pipeline_eq, hkin.cap_eq, hkin.evaluator_eq⟩

theorem kin_run (s : Search P T O σ ε) (root : Node P T) (classification : Classification O)
    (rounds : Nat) : s.Kin (s.run root classification rounds).2 := by
  have hkin := s.kin_grow (.ofRoot root) classification rounds
  unfold run
  generalize s.grow (.ofRoot root) classification rounds = out at hkin ⊢
  obtain ⟨_ | best, t, u⟩ := out
  · exact hkin
  · simp only
    cases t.detach best <;> exact hkin

/-- Searches of the same make grow a tree alike, and differ in their memories afterwards as before. -/
theorem grow_of_kin (h : s.Kin s') (hs : s.Stateless) (t : Tree P T)
    (classification : Classification O) (rounds : Nat) :
    ∃ memory evaluatorMemory, s'.grow t classification rounds =
      ((s.grow t classification rounds).1, (s.grow t classification rounds).2.1,
        (s.grow t classification rounds).2.2.remembering memory evaluatorMemory) := by
  have hrestart : s.restart.Stateless := ⟨hs.generators, hs.evaluator⟩
  obtain ⟨hresult, -, memory, evaluatorMemory, hgrowth⟩ :=
    (Growth.resembles_simulation classification s.config.strategy).correspondence.grown
      (congrArg Config.strategy h.config_eq) (t := t)
      ⟨hrestart, _, _, congrArg (Growth.mk · t) h.restart_eq⟩ rounds
  have hgrown : s'.grown t classification rounds = ((s.grown t classification rounds).1,
      (s.grown t classification rounds).2.remembering memory evaluatorMemory) :=
    Prod.ext hresult hgrowth
  refine ⟨memory, evaluatorMemory, ?_⟩
  rw [grow_eq, hgrown, grow_eq]
  rcases s.grown t classification rounds with ⟨(_ | _) | _, g⟩ <;> rfl

theorem run_of_kin (h : s.Kin s') (hs : s.Stateless) (root : Node P T)
    (classification : Classification O) (rounds : Nat) :
    ∃ memory evaluatorMemory, s'.run root classification rounds =
      ((s.run root classification rounds).1,
        (s.run root classification rounds).2.remembering memory evaluatorMemory) := by
  obtain ⟨memory, evaluatorMemory, hgrow⟩ := grow_of_kin h hs (.ofRoot root) classification rounds
  refine ⟨memory, evaluatorMemory, ?_⟩
  unfold run
  rw [hgrow]
  rcases s.grow (.ofRoot root) classification rounds with ⟨_ | best, t, u⟩
  · rfl
  · simp only
    cases t.detach best <;> rfl

/-! ## Earlier uses -/

/-- What becomes of a search by growths of any trees and by runs, whether they fail or not. -/
inductive Used (s : Search P T O σ ε) : Search P T O σ ε → Prop
  | new : Used s s
  | grow {s' : Search P T O σ ε} (h : Used s s') (t : Tree P T) (classification : Classification O)
      (rounds : Nat) : Used s (s'.grow t classification rounds).2.2
  | run {s' : Search P T O σ ε} (h : Used s s') (root : Node P T) (classification : Classification O)
      (rounds : Nat) : Used s (s'.run root classification rounds).2

theorem Used.kin (h : s.Used s') : s.Kin s' := by
  induction h with
  | new => exact .refl s
  | grow _ t classification rounds ih => exact ih.trans (kin_grow _ t classification rounds)
  | run _ root classification rounds ih => exact ih.trans (kin_run _ root classification rounds)

/-- What the parties remember is no matter when a search is made. -/
theorem create_remembering (config : Config) (p : Pipeline P T O σ) (memory memory' : σ)
    (evaluator : Evaluator P T ε) (evaluatorMemory evaluatorMemory' : ε) :
    create config p memory' evaluator evaluatorMemory' =
      (create config p memory evaluator evaluatorMemory).map
        (·.remembering memory' evaluatorMemory') := by
  unfold create
  cases config.validate with
  | error e => rfl
  | ok _ =>
    unfold Expander.create
    simp only
    split_ifs <;> rfl

theorem cap_ne_zero_of_validate {config : Config} (h : config.validate = .ok ()) : config.cap ≠ 0 := by
  unfold Config.validate at h
  split_ifs at h with _ hcap
  exact hcap

/-- A valid configuration and a pipeline make a search. -/
theorem create_eq {config : Config} (hconfig : config.validate = .ok ()) {p : Pipeline P T O σ}
    (hp : p ≠ []) (memory : σ) (evaluator : Evaluator P T ε) (evaluatorMemory : ε) :
    create config p memory evaluator evaluatorMemory =
      .ok ⟨config, ⟨p, config.cap, .ofSeed config.seed, memory⟩, .create evaluator evaluatorMemory,
        .zero⟩ := by
  have hempty : ¬ p.isEmpty = true := fun h => hp (List.isEmpty_iff.mp h)
  unfold create
  rw [hconfig]
  unfold Expander.create
  rw [if_neg hempty, if_neg (cap_ne_zero_of_validate hconfig)]

theorem eq_of_create {config : Config} {p : Pipeline P T O σ} {memory : σ} {evaluator : Evaluator P T ε}
    {evaluatorMemory : ε} (h : create config p memory evaluator evaluatorMemory = .ok s) :
    s = ⟨config, ⟨p, config.cap, .ofSeed config.seed, memory⟩, .create evaluator evaluatorMemory,
      .zero⟩ := by
  unfold create at h
  split at h
  · cases h
  · unfold Expander.create at h
    split_ifs at h
    cases h
    rfl

theorem parties_of_create {config : Config} {p : Pipeline P T O σ} {memory : σ}
    {evaluator : Evaluator P T ε} {evaluatorMemory : ε}
    (h : create config p memory evaluator evaluatorMemory = .ok s) :
    s.expander.pipeline = p ∧ s.meter.evaluator = evaluator := by
  rw [eq_of_create h]
  exact ⟨rfl, rfl⟩

/-- Whatever a search was used for, if its parties answer without memory then its next run does the same
as that of a search made anew: it returns the same node or error, and counts the same. -/
theorem run_eq_of_used {config : Config} {p : Pipeline P T O σ} (hp : p.Stateless)
    {evaluator : Evaluator P T ε} (hevaluator : evaluator.Stateless) {memory : σ} {evaluatorMemory : ε}
    (hcreate : create config p memory evaluator evaluatorMemory = .ok s) (hused : s.Used s')
    (memory' : σ) (evaluatorMemory' : ε) :
    ∃ new, create config p memory' evaluator evaluatorMemory' = .ok new ∧
      ∀ root classification rounds,
        (s'.run root classification rounds).1 = (new.run root classification rounds).1 ∧
        (s'.run root classification rounds).2.statistics =
          (new.run root classification rounds).2.statistics := by
  have hnew := create_remembering config p memory memory' evaluator evaluatorMemory evaluatorMemory'
  rw [hcreate] at hnew
  obtain ⟨rfl, rfl⟩ := parties_of_create hcreate
  refine ⟨_, hnew, fun root classification rounds => ?_⟩
  -- the new search is of the same make as the old one was at first, and uses do not change that
  have hkin := (Kin.remembering s memory' evaluatorMemory').symm.trans hused.kin
  obtain ⟨_, _, hrun⟩ := run_of_kin hkin ⟨hp, hevaluator⟩ root classification rounds
  rw [hrun]
  exact ⟨rfl, rfl⟩

/-- Before its next run, the search fails on a tree in whose root the generator finds a fault, and runs
from another root. Its parties remember how often they were asked. -/
theorem run_eq_of_used_busy :
    let generator : Generator Nat Nat Unit Nat := fun n _ _ calls =>
      (if n.program = 1 then .error (.ofCause (.reported "busy")) else .ok [.extending n 1 0], calls + 1)
    let evaluator : Evaluator Nat Nat Nat := fun _ calls => (.ok 4, calls + 1)
    let p : Pipeline Nat Nat Unit Nat := [⟨.tiling, generator⟩]
    let s : Search Nat Nat Unit Nat Nat :=
      ⟨.standard, ⟨p, defaultCap, .ofSeed 0, 0⟩, .create evaluator 0, .zero⟩
    let failed := s.grow (.ofRoot (.root 1 0)) .empty 1
    let used := (failed.2.2.run (.root 0 0) .empty 1).2
    p.Stateless ∧ evaluator.Stateless ∧ create .standard p 0 evaluator 0 = .ok s ∧ s.Used used ∧
      failed.1.isOk = false ∧
      ∃ new, create .standard p 0 evaluator 0 = .ok new ∧
        ∀ root classification rounds,
          (used.run root classification rounds).1 = (new.run root classification rounds).1 ∧
          (used.run root classification rounds).2.statistics =
            (new.run root classification rounds).2.statistics := by
  intro generator evaluator p s failed used
  have hp : p.Stateless := by
    intro phase hphase n stage classification memory memory'
    rw [List.mem_singleton.mp hphase]
  have hevaluator : evaluator.Stateless := fun _ _ _ => rfl
  have hcreate : create .standard p 0 evaluator 0 = .ok s := by
    have hvalid : Config.standard.validate = .ok () := rfl
    unfold create
    rw [hvalid]
    rfl
  have hused : s.Used used := .run (.grow .new (.ofRoot (.root 1 0)) .empty 1) (.root 0 0) .empty 1
  have hfailed : failed.1.isOk = false := by decide
  exact ⟨hp, hevaluator, hcreate, hused, hfailed,
    run_eq_of_used hp hevaluator hcreate hused 0 0⟩

end Search

end LoopTuner
