import LoopTuner.Proofs.Growth.Rounds
import LoopTuner.Proofs.Sweep.Mixing

/-!
# Refusals

A growth reports an error only if a generator refuses: at that time the tree has a node for which the
generator of its stage answers with an error (`Search.exists_refused`). A growth of a fresh root has a
result otherwise, with either strategy (`Search.grow_root_cases`).
-/

namespace LoopTuner

variable {P T O σ ε : Type}

/-- The generator for some node of the tree would answer with an error. -/
def Growth.Refused (classification : Classification O) (g : Growth P T O σ ε) : Prop :=
  ∃ i n e, g.tree.node? i = some n ∧
    (g.search.expander.pipeline.generate classification n g.search.expander.memory).1 = .error e

theorem Expander.generate_of_error {x : Expander P T O σ} {n : Node P T} {i : Nat}
    {classification : Classification O} {e : Error}
    (h : (x.candidates n i classification).1 = .error e) :
    ∃ e, (x.pipeline.generate classification n x.memory).1 = .error e := by
  obtain ⟨phase, e', -, hphase, -, hpropose⟩ := exists_of_candidates_error (Prod.ext h rfl)
  unfold Pipeline.generate
  rw [hphase]
  exact ⟨e', congrArg Prod.fst hpropose⟩

namespace Growth

variable {classification : Classification O} {g : Growth P T O σ ε}

/-! ## Rounds -/

theorem refused_of_expandSelected {i : Nat} {e : Error}
    (h : (g.expandSelected classification i).1 = .error (.error e)) : g.Refused classification := by
  unfold expandSelected at h
  cases hn : g.tree.node? i with
  | none =>
    rw [hn] at h
    cases h
  | some n =>
    simp only [hn] at h
    split_ifs at h
    · rw [expand_eq hn] at h
      rcases hc : g.search.expander.candidates n i classification with ⟨e | candidates, x⟩
      · obtain ⟨e', hrefused⟩ := Expander.generate_of_error (congrArg Prod.fst hc)
        exact ⟨i, n, e', hn, hrefused⟩
      · rw [hc] at h
        cases h

theorem refused_of_searchRound {round : Nat} {e : Error}
    (h : (g.searchRound classification round).1 = .error (.error e)) : g.Refused classification := by
  unfold searchRound at h
  split at h
  · cases h
  · rename_i i _
    rcases hx : g.expandSelected classification i with ⟨f | _, g₁⟩
    · rw [hx] at h
      cases f with
      | error e => exact refused_of_expandSelected (congrArg Prod.fst hx)
      | violation v => cases h
    · -- neither measuring nor backing up reports an error
      rw [hx] at h
      simp only at h
      cases hn : g₁.tree.node? i with
      | none =>
        rw [measure_of_none hn] at h
        cases h
      | some n =>
        rw [measure_eq hn] at h
        simp only at h
        unfold backup Tree.backup at h
        split_ifs at h
        cases h

theorem refused_of_sweepOnce {round : Nat} {s : Sweep} {e : Error}
    (h : (g.sweepOnce classification round s).1 = .error (.error e)) : g.Refused classification := by
  unfold sweepOnce at h
  split at h
  · cases h
  · rename_i entry queue _
    cases hn : g.tree.node? entry.index with
    | none =>
      rw [sweepRound_of_none hn] at h
      cases h
    | some n =>
      rw [sweepRound_eq hn] at h
      rcases hc : g.search.expander.candidates n entry.index classification with ⟨e | candidates, x⟩
      · obtain ⟨e', hrefused⟩ := Expander.generate_of_error (congrArg Prod.fst hc)
        exact ⟨_, n, e', hn, hrefused⟩
      · rw [hc] at h
        cases h

/-- Rounds that end with an error have come to a refusal. -/
theorem exists_refused_of_repeated {α : Type} {strategy : Strategy}
    {step : Nat → α → Growth P T O σ ε → Except Failure α × Growth P T O σ ε}
    (hrun : ∀ round a g, Run classification strategy g (step round a g).2)
    (hstep : ∀ {round a g e}, (step round a g).1 = .error (.error e) → g.Refused classification)
    {a : α} {count : Nat} {e : Error} (h : (repeated step a g count).1 = .error (.error e)) :
    ∃ g', Run classification strategy g g' ∧ g'.Refused classification := by
  induction count with
  | zero => cases h
  | succ count ih =>
    have hbefore := repeated_run hrun a g 0 count
    rw [Nat.zero_add] at hbefore
    rw [repeated] at h
    rcases hx : repeated step a g count with ⟨f | a', g'⟩
    · rw [hx] at h
      exact ih (hx ▸ h)
    · rw [hx] at h hbefore
      exact ⟨g', hbefore, hstep h⟩

end Growth

/-! ## Growing -/

namespace Search

variable {s : Search P T O σ ε} {t : Tree P T} {classification : Classification O} {rounds : Nat}

theorem exists_refused_of_advance {e : Error}
    (h : (s.advance t classification rounds).1 = .error (.error e)) :
    ∃ g, Growth.Run classification s.config.strategy ⟨s.restart, t⟩ g ∧
      g.Refused classification := by
  cases hs : s.config.strategy with
  | treeSearch =>
    rw [advance_of_treeSearch hs] at h
    exact Growth.exists_refused_of_repeated
      (fun round _ g => Growth.searchRound_run classification round g)
      Growth.refused_of_searchRound h
  | bestFirst =>
    have hmeasured := Growth.measure_run classification .bestFirst ⟨s.restart, t⟩ Tree.rootIndex
    rcases hm : Growth.measure ⟨s.restart, t⟩ Tree.rootIndex with ⟨f | cost, g⟩
    · rw [advance_of_unmeasured hs hm] at h
      cases hn : t.node? Tree.rootIndex with
      | none =>
        rw [Growth.measure_of_none hn] at hm
        cases hm
        cases h
      | some n =>
        rw [Growth.measure_eq hn] at hm
        cases hm
    · rw [advance_of_measured hs hm, Growth.discard_fst] at h
      rw [hm] at hmeasured
      rcases hx : (Growth.repeated (fun round s g => g.sweepOnce classification round s)
        (.start cost) g rounds).1 with f | sweep
      · rw [hx] at h
        cases h
        obtain ⟨g', hrun, hrefused⟩ := Growth.exists_refused_of_repeated
          (Growth.sweepOnce_run classification) Growth.refused_of_sweepOnce hx
        exact ⟨g', hmeasured.trans hrun, hrefused⟩
      · rw [hx] at h
        cases h

/-- An error of a growth comes from a generator that refused a node of the tree. -/
theorem exists_refused (ht : t.WellFormed) {e : Error}
    (h : (s.grow t classification rounds).1 = .error (.error e)) :
    ∃ g, Growth.Run classification s.config.strategy ⟨s.restart, t⟩ g ∧
      g.Refused classification := by
  rw [result_grow] at h
  rcases hadvance : s.advance t classification rounds with ⟨f | _, g⟩
  · rw [grown_of_error hadvance] at h
    obtain rfl : f = .error e := Except.error.inj h
    exact exists_refused_of_advance (congrArg Prod.fst hadvance)
  · -- taking the result reports no error
    cases hs : s.config.strategy with
    | treeSearch =>
      rw [grown_of_searched hs hadvance] at h
      have hrounds := (Growth.searchRounds_reaches classification rounds 0 ⟨s.restart, t⟩).moves
      rw [Growth.searchRounds_eq, ← advance_of_treeSearch hs, hadvance] at hrounds
      obtain ⟨best, hbest⟩ := Growth.extractBest_ok (hrounds.preserve Tree.WellFormed.move ht)
      rw [hbest] at h
      cases h
    | bestFirst =>
      obtain ⟨best, hgrown⟩ := grown_of_swept hs hadvance
      rw [hgrown] at h
      cases h

/-- A growth of a fresh root takes no step that it may not take. -/
theorem grow_root_unviolated (s : Search P T O σ ε) (program : P) (stage : Stage)
    (classification : Classification O) (rounds : Nat) :
    Unviolated (s.grow (.ofRoot (.root program stage)) classification rounds).1 := by
  cases hs : s.config.strategy with
  | treeSearch =>
    obtain ⟨result, t, s', hgrow, -, -, hends⟩ := grow_balanced hs
      (Tree.balanced_ofRoot s.expander.lastStage program stage) classification rounds
    rw [hgrow]
    rcases hends with ⟨⟨best, rfl⟩, -⟩ | ⟨⟨e, rfl⟩, -⟩
    · exact .ok best
    · exact .error e
  | bestFirst =>
    rw [result_grow]
    unfold grown
    rw [hs]
    exact Growth.bestFirst_unviolated (g := ⟨s.restart, .ofRoot (.root program stage)⟩)
      Nat.zero_lt_one rounds

/-- A growth of a fresh root has a result, unless a generator refuses one of its nodes. -/
theorem grow_root_cases (s : Search P T O σ ε) (program : P) (stage : Stage)
    (classification : Classification O) (rounds : Nat) :
    (∃ best, (s.grow (.ofRoot (.root program stage)) classification rounds).1 = .ok best) ∨
      ∃ g, Growth.Run classification s.config.strategy
        ⟨s.restart, .ofRoot (.root program stage)⟩ g ∧ g.Refused classification := by
  have hunviolated := s.grow_root_unviolated program stage classification rounds
  rcases hresult : (s.grow (.ofRoot (.root program stage)) classification rounds).1 with
    (e | v) | best
  · exact Or.inr (exists_refused (Tree.wellFormed_ofRoot rfl rfl) hresult)
  · exact absurd hresult (hunviolated v)
  · exact Or.inl ⟨best, rfl⟩

end Search

end LoopTuner
