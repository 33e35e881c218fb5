import LoopTuner.Proofs.Growth.Simulation

/-!
# Growths round by round

Both strategies repeat their rounds until one fails (`Growth.repeated`), and take the result at the end.
What a growth has come to after its first rounds (`Search.advance`) does not depend on how many more there
will be: later rounds go on from there (`Search.advance_run`), a failed round is the last one
(`Search.grown_of_error`), and after the last round the result is all that is left
(`Search.grown_of_searched`, `Search.grown_of_swept`).
-/

namespace LoopTuner

variable {P T O σ ε : Type}

namespace Growth

/-- The growth that a part of a search leaves, with or without a failure. -/
def discard {α : Type} (out : Except Failure α × Growth P T O σ ε) :
    Except Failure Unit × Growth P T O σ ε :=
  match out with
  | (.error f, g) => (.error f, g)
  | (.ok _, g) => (.ok (), g)

theorem discard_fst {α : Type} (out : Except Failure α × Growth P T O σ ε) :
    (discard out).1 = out.1.map fun _ => () := by
  obtain ⟨_ | _, g⟩ := out <;> rfl

theorem discard_snd {α : Type} (out : Except Failure α × Growth P T O σ ε) :
    (discard out).2 = out.2 := by
  obtain ⟨_ | _, g⟩ := out <;> rfl

theorem eq_error_of_discard {α : Type} {out : Except Failure α × Growth P T O σ ε} {f : Failure}
    {g : Growth P T O σ ε} (h : discard out = (.error f, g)) : out = (.error f, g) := by
  obtain ⟨_ | _, g'⟩ := out <;> cases h
  rfl

theorem exists_of_discard {α : Type} {out : Except Failure α × Growth P T O σ ε}
    {g : Growth P T O σ ε} (h : discard out = (.ok (), g)) : ∃ a, out = (.ok a, g) := by
  obtain ⟨_ | a, g'⟩ := out <;> cases h
  exact ⟨a, rfl⟩

/-! ## Loops -/

section Repeated

variable {α : Type}

/-- Rounds one after another, until one fails. What a round leaves for the next one besides the growth is
of type `α`. -/
def repeated (step : Nat → α → Growth P T O σ ε → Except Failure α × Growth P T O σ ε) (a : α)
    (g : Growth P T O σ ε) : Nat → Except Failure α × Growth P T O σ ε
  | 0 => (.ok a, g)
  | count + 1 =>
    match repeated step a g count with
    | (.error f, g) => (.error f, g)
    | (.ok a, g) => step count a g

variable {step : Nat → α → Growth P T O σ ε → Except Failure α × Growth P T O σ ε} {a : α}
  {g g' : Growth P T O σ ε}

/-- A failed round is the last one. -/
theorem repeated_of_error {count : Nat} {f : Failure} (h : repeated step a g count = (.error f, g'))
    (more : Nat) : repeated step a g (count + more) = (.error f, g') := by
  induction more with
  | zero => exact h
  | succ more ih =>
    show repeated step a g (count + more + 1) = (.error f, g')
    rw [repeated, ih]

/-- Later rounds go on from what the first rounds leave. -/
theorem repeated_run {classification : Classification O} {strategy : Strategy}
    (hstep : ∀ round a g, Run classification strategy g (step round a g).2) (a : α)
    (g : Growth P T O σ ε) (count more : Nat) :
    Run classification strategy (repeated step a g count).2 (repeated step a g (count + more)).2 := by
  induction more with
  | zero => exact .refl
  | succ more ih =>
    show Run classification strategy _ (repeated step a g (count + more + 1)).2
    rw [repeated]
    rcases hx : repeated step a g (count + more) with ⟨_ | a', g'⟩
    · rw [hx] at ih
      exact ih
    · rw [hx] at ih
      exact ih.trans (hstep _ a' g')

end Repeated

/-- The last of several rounds comes after the others. -/
theorem searchRounds_succ (classification : Classification O) (count round : Nat)
    (g : Growth P T O σ ε) :
    searchRounds classification (count + 1) round g =
      match searchRounds classification count round g with
      | (.error f, g) => (.error f, g)
      | (.ok (), g) => g.searchRound classification (round + count) := by
  induction count generalizing round g with
  | zero =>
    unfold searchRounds
    rcases h : g.searchRound classification round with ⟨_ | _, g'⟩
    · simp only [Nat.add_zero, h]
    · simp only [searchRounds, Nat.add_zero, h]
  | succ count ih =>
    rw [searchRounds]
    conv_rhs => rw [searchRounds]
    rcases g.searchRound classification round with ⟨_ | _, g'⟩
    · rfl
    · simp only
      rw [ih (round + 1) g', Nat.add_right_comm round 1 count]
      rfl

/-- One more round of a sweep, unless the queue is empty. -/
def sweepOnce (classification : Classification O) (round : Nat) (s : Sweep) (g : Growth P T O σ ε) :
    Except Failure Sweep × Growth P T O σ ε :=
  match Queued.pop? s.queue with
  | none => (.ok s, g)
  | some (entry, queue) => g.sweepRound classification round entry.index { s with queue := queue }

theorem sweepRounds_succ (classification : Classification O) (count round : Nat) (s : Sweep)
    (g : Growth P T O σ ε) :
    sweepRounds classification (count + 1) round s g =
      match sweepRounds classification count round s g with
      | (.error f, g) => (.error f, g)
      | (.ok s, g) => g.sweepOnce classification (round + count) s := by
  induction count generalizing round s g with
  | zero =>
    unfold sweepRounds sweepOnce
    cases hpop : Queued.pop? s.queue with
    | none => simp only [hpop]
    | some popped =>
      simp only [sweepRounds, hpop, Nat.add_zero]
      rcases g.sweepRound classification round popped.1.index { s with queue := popped.2 } with
        ⟨_ | _, g'⟩ <;> rfl
  | succ count ih =>
    rw [sweepRounds]
    conv_rhs => rw [sweepRounds]
    cases hpop : Queued.pop? s.queue with
    | none =>
      unfold sweepOnce
      simp only [hpop]
    | some popped =>
      simp only
      rcases g.sweepRound classification round popped.1.index { s with queue := popped.2 } with
        ⟨_ | s', g'⟩
      · rfl
      · simp only
        rw [ih (round + 1) s' g', Nat.add_right_comm round 1 count]
        rfl

theorem searchRounds_eq (classification : Classification O) (count : Nat) (g : Growth P T O σ ε) :
    searchRounds classification count 0 g =
      repeated (fun round _ g => g.searchRound classification round) () g count := by
  induction count with
  | zero => rfl
  | succ count ih =>
    rw [searchRounds_succ, repeated, ih, Nat.zero_add]
    rcases repeated (fun round _ g => g.searchRound classification round) () g count with ⟨_ | _, _⟩ <;>
      rfl

theorem sweepRounds_eq (classification : Classification O) (count : Nat) (s : Sweep)
    (g : Growth P T O σ ε) :
    sweepRounds classification count 0 s g =
      repeated (fun round s g => g.sweepOnce classification round s) s g count := by
  induction count with
  | zero => rfl
  | succ count ih =>
    rw [sweepRounds_succ, repeated, ih, Nat.zero_add]
    rcases repeated (fun round s g => g.sweepOnce classification round s) s g count with ⟨_ | _, _⟩ <;>
      rfl

theorem sweepOnce_run (classification : Classification O) (round : Nat) (s : Sweep)
    (g : Growth P T O σ ε) : Run classification .bestFirst g (g.sweepOnce classification round s).2 := by
  unfold sweepOnce
  cases Queued.pop? s.queue with
  | none => exact .refl
  | some popped => exact .single (.sweepRound g round popped.1.index { s with queue := popped.2 })

/-! ## Counting -/

theorem rounds_expandSelected (g : Growth P T O σ ε) (classification : Classification O) (i : Nat) :
    (g.expandSelected classification i).2.search.statistics.rounds = g.search.statistics.rounds := by
  rcases g.expandSelected_cases classification i with hsame | ⟨n, hn, -, hexpand⟩
  · rw [hsame]
  · rw [hexpand, expand_eq hn]
    rcases g.search.expander.candidates n i classification with ⟨_ | _, _⟩ <;>
      exact counted_rounds g n

/-- A round of tree search that does not fail is counted. -/
theorem rounds_of_searchRound {g g' : Growth P T O σ ε} {classification : Classification O}
    {round : Nat} (h : g.searchRound classification round = (.ok (), g')) :
    g'.search.statistics.rounds = g.search.statistics.rounds + 1 := by
  unfold searchRound at h
  split at h
  · cases h
  · rename_i i _
    have hexpand := rounds_expandSelected g classification i
    split at h
    · cases h
    · rename_i g₁ hx
      rw [hx] at hexpand
      have hmeasure := statistics_measure g₁ i
      split at h
      · cases h
      · rename_i cost g₂ hm
        rw [hm] at hmeasure
        unfold backup at h
        split at h
        · cases h
        · cases h
          show g₂.search.statistics.rounds + 1 = _
          rw [hmeasure, hexpand]

/-- A round of a sweep that does not fail is counted, or the queue is empty for good. -/
theorem rounds_of_sweepOnce {g g' : Growth P T O σ ε} {classification : Classification O}
    {round : Nat} {s s' : Sweep} (h : g.sweepOnce classification round s = (.ok s', g')) :
    g'.search.statistics.rounds = g.search.statistics.rounds + 1 ∨
      ∀ later, g'.sweepOnce classification later s' = (.ok s', g') := by
  unfold sweepOnce at h
  cases hpop : Queued.pop? s.queue with
  | none =>
    rw [hpop] at h
    cases h
    refine Or.inr fun later => ?_
    unfold sweepOnce
    rw [hpop]
  | some popped =>
    rw [hpop] at h
    exact Or.inl (rounds_of_sweepRound h)

/-- Either all rounds were completed, or there is nothing left to do. -/
theorem rounds_repeated {α : Type}
    {step : Nat → α → Growth P T O σ ε → Except Failure α × Growth P T O σ ε} {a a' : α}
    {g g' : Growth P T O σ ε}
    (hstep : ∀ {round a g a' g'}, step round a g = (.ok a', g') →
      g'.search.statistics.rounds = g.search.statistics.rounds + 1 ∨
        ∀ later, step later a' g' = (.ok a', g'))
    {count : Nat} (h : repeated step a g count = (.ok a', g')) :
    g'.search.statistics.rounds = g.search.statistics.rounds + count ∨
      ∀ more, repeated step a g (count + more) = (.ok a', g') := by
  induction count generalizing a' g' with
  | zero =>
    cases h
    exact Or.inl rfl
  | succ count ih =>
    have hidle : (∀ later, step later a' g' = (.ok a', g')) →
        ∀ more, repeated step a g (count + 1 + more) = (.ok a', g') := by
      intro hsame more
      induction more with
      | zero => exact h
      | succ more ih =>
        show repeated step a g (count + 1 + more + 1) = (.ok a', g')
        rw [repeated, ih]
        exact hsame _
    rw [repeated] at h
    rcases hx : repeated step a g count with ⟨_ | a₁, g₁⟩
    · rw [hx] at h
      cases h
    · rw [hx] at h
      rcases ih hx with hrounds | hsame
      · refine (hstep h).imp (fun hround => ?_) hidle
        rw [hround, hrounds, Nat.add_assoc]
      · have hlast : repeated step a g (count + 1) = (.ok a', g') := by
          rw [repeated, hx]
          exact h
        rw [hsame 1] at hlast
        cases hlast
        refine Or.inr fun more => ?_
        rw [Nat.add_assoc]
        exact hsame (1 + more)

end Growth

/-! ## Growing -/

namespace Search

variable {s : Search P T O σ ε} {t : Tree P T} {classification : Classification O}

/-- A growth after its first rounds, before the result is taken. -/
def advance (s : Search P T O σ ε) (tree : Tree P T) (classification : Classification O)
    (rounds : Nat) : Except Failure Unit × Growth P T O σ ε :=
  match s.config.strategy with
  | .treeSearch => Growth.searchRounds classification rounds 0 ⟨s.restart, tree⟩
  | .bestFirst =>
    match Growth.measure ⟨s.restart, tree⟩ Tree.rootIndex with
    | (.error f, g) => (.error f, g)
    | (.ok cost, g) => Growth.discard (Growth.sweepRounds classification rounds 0 (.start cost) g)

theorem advance_of_treeSearch (hs : s.config.strategy = .treeSearch) (t : Tree P T)
    (classification : Classification O) (rounds : Nat) :
    s.advance t classification rounds =
      Growth.repeated (fun round _ g => g.searchRound classification round) () ⟨s.restart, t⟩ rounds := by
  unfold advance
  rw [hs]
  exact Growth.searchRounds_eq classification rounds _

/-- A best-first search that cannot measure the root ends before its rounds. -/
theorem advance_of_unmeasured (hs : s.config.strategy = .bestFirst) {f : Failure}
    {g : Growth P T O σ ε} (hm : Growth.measure ⟨s.restart, t⟩ Tree.rootIndex = (.error f, g))
    (rounds : Nat) : s.advance t classification rounds = (.error f, g) := by
  unfold advance
  simp only [hs, hm]

theorem advance_of_measured (hs : s.config.strategy = .bestFirst) {cost : Float}
    {g : Growth P T O σ ε} (hm : Growth.measure ⟨s.restart, t⟩ Tree.rootIndex = (.ok cost, g))
    (rounds : Nat) :
    s.advance t classification rounds = Growth.discard
      (Growth.repeated (fun round s g => g.sweepOnce classification round s) (.start cost) g rounds) := by
  unfold advance
  simp only [hs, hm, Growth.sweepRounds_eq]

/-- Later rounds go on from what the first rounds leave. -/
theorem advance_run (s : Search P T O σ ε) (t : Tree P T) (classification : Classification O)
    (rounds more : Nat) :
    Growth.Run classification s.config.strategy (s.advance t classification rounds).2
      (s.advance t classification (rounds + more)).2 := by
  cases hs : s.config.strategy with
  | treeSearch =>
    rw [advance_of_treeSearch hs, advance_of_treeSearch hs]
    exact Growth.repeated_run (fun round _ g => Growth.searchRound_run classification round g) _ _ _ _
  | bestFirst =>
    rcases hm : Growth.measure ⟨s.restart, t⟩ Tree.rootIndex with ⟨f | cost, g⟩
    · rw [advance_of_unmeasured hs hm, advance_of_unmeasured hs hm]
    · rw [advance_of_measured hs hm, advance_of_measured hs hm, Growth.discard_snd, Growth.discard_snd]
      exact Growth.repeated_run (Growth.sweepOnce_run classification) _ _ _ _

/-- A failed round is the last one. -/
theorem advance_of_error {rounds : Nat} {f : Failure} {g : Growth P T O σ ε}
    (h : s.advance t classification rounds = (.error f, g)) (more : Nat) :
    s.advance t classification (rounds + more) = (.error f, g) := by
  cases hs : s.config.strategy with
  | treeSearch =>
    rw [advance_of_treeSearch hs] at h ⊢
    exact Growth.repeated_of_error h more
  | bestFirst =>
    rcases hm : Growth.measure ⟨s.restart, t⟩ Tree.rootIndex with ⟨f | cost, g⟩
    · rw [advance_of_unmeasured hs hm] at h ⊢
      exact h
    · rw [advance_of_measured hs hm] at h ⊢
      rw [Growth.repeated_of_error (Growth.eq_error_of_discard h) more]
      rfl

/-- Either all rounds were completed, or there is nothing left to do. -/
theorem rounds_advance {rounds : Nat} {g : Growth P T O σ ε}
    (h : s.advance t classification rounds = (.ok (), g)) :
    g.search.statistics.rounds = rounds ∨
      ∀ more, s.advance t classification (rounds + more) = (.ok (), g) := by
  cases hs : s.config.strategy with
  | treeSearch =>
    simp only [advance_of_treeSearch hs] at h ⊢
    refine (Growth.rounds_repeated (fun hround => ?_) h).imp (fun hrounds => ?_) id
    · exact Or.inl (Growth.rounds_of_searchRound hround)
    · exact hrounds.trans (Nat.zero_add rounds)
  | bestFirst =>
    have hstart := congrArg Statistics.rounds
      (Growth.statistics_measure ⟨s.restart, t⟩ Tree.rootIndex)
    rcases hm : Growth.measure ⟨s.restart, t⟩ Tree.rootIndex with ⟨f | cost, g₁⟩
    · rw [advance_of_unmeasured hs hm] at h
      cases h
    · simp only [advance_of_measured hs hm] at h ⊢
      rw [hm] at hstart
      obtain ⟨sweep, hx⟩ := Growth.exists_of_discard h
      refine (Growth.rounds_repeated Growth.rounds_of_sweepOnce hx).imp (fun hrounds => ?_)
        fun hsame more => ?_
      · rw [hrounds, hstart]
        exact Nat.zero_add rounds
      · rw [hsame more]
        rfl

/-- A growth that fails in one of its rounds ends there. -/
theorem grown_of_error {rounds : Nat} {f : Failure} {g : Growth P T O σ ε}
    (h : s.advance t classification rounds = (.error f, g)) :
    s.grown t classification rounds = (.error f, g) := by
  unfold advance at h
  unfold grown
  cases hs : s.config.strategy with
  | treeSearch =>
    simp only [hs, Growth.treeSearch] at h ⊢
    rw [h]
  | bestFirst =>
    simp only [hs, Growth.bestFirst] at h ⊢
    rcases hm : Growth.measure ⟨s.restart, t⟩ Tree.rootIndex with ⟨_ | cost, g₁⟩
    · rw [hm] at h
      cases h
      rfl
    · rw [hm] at h
      simp only [Growth.eq_error_of_discard h]

/-- After its rounds, a tree search extracts its result. -/
theorem grown_of_searched (hs : s.config.strategy = .treeSearch) {rounds : Nat}
    {g : Growth P T O σ ε} (h : s.advance t classification rounds = (.ok (), g)) :
    s.grown t classification rounds = g.extractBest := by
  unfold advance at h
  unfold grown
  simp only [hs, Growth.treeSearch] at h ⊢
  rw [h]

/-- After its rounds, a best-first search is done. -/
theorem grown_of_swept (hs : s.config.strategy = .bestFirst) {rounds : Nat}
    {g : Growth P T O σ ε} (h : s.advance t classification rounds = (.ok (), g)) :
    ∃ best, s.grown t classification rounds = (.ok best, g) := by
  unfold advance at h
  unfold grown
  simp only [hs, Growth.bestFirst] at h ⊢
  rcases hm : Growth.measure ⟨s.restart, t⟩ Tree.rootIndex with ⟨_ | cost, g₁⟩
  · rw [hm] at h
    cases h
  · rw [hm] at h
    obtain ⟨sweep, hx⟩ := Growth.exists_of_discard h
    simp only [hx]
    exact ⟨sweep.best, rfl⟩

/-- A growth that returns a node goes through its rounds first. -/
theorem exists_advance_of_grow {rounds best : Nat} {t' : Tree P T} {u : Search P T O σ ε}
    (h : s.grow t classification rounds = (.ok best, t', u)) :
    ∃ g g', s.advance t classification rounds = (.ok (), g) ∧
      s.grown t classification rounds = (.ok best, g') ∧ t' = g'.tree ∧
      u = g'.search.close g'.tree.size := by
  rw [grow_eq] at h
  rcases hgrown : s.grown t classification rounds with ⟨(_ | _) | best', g'⟩
  · rw [hgrown] at h
    cases h
  · rw [hgrown] at h
    cases h
  · rw [hgrown] at h
    cases h
    rcases hadvance : s.advance t classification rounds with ⟨f | _, g⟩
    · rw [grown_of_error hadvance] at hgrown
      cases hgrown
    · exact ⟨g, g', rfl, rfl, rfl, rfl⟩

/-- Whatever the result, it is taken after the rounds. -/
theorem advance_run_grown (s : Search P T O σ ε) (t : Tree P T) (classification : Classification O)
    (rounds : Nat) :
    Growth.Run classification s.config.strategy (s.advance t classification rounds).2
      (s.grown t classification rounds).2 := by
  rcases h : s.advance t classification rounds with ⟨_ | _, g⟩
  · rw [grown_of_error h]
  · cases hs : s.config.strategy with
    | treeSearch =>
      rw [grown_of_searched hs h]
      exact Growth.extractBest_run classification .treeSearch g
    | bestFirst =>
      obtain ⟨best, hgrown⟩ := grown_of_swept hs h
      rw [hgrown]

end Search

/-! ## Searches that go alike -/

namespace Growth

variable {σ' ε' : Type} {classification : Classification O}
  {R : Growth P T O σ ε → Growth P T O σ' ε' → Prop}

theorem Alike.discard {α : Type} {out : Except Failure α × Growth P T O σ ε}
    {out' : Except Failure α × Growth P T O σ' ε'} (h : Alike R out out') :
    Alike R (Growth.discard out) (Growth.discard out') := by
  rcases h.cases with ⟨f, g, g', rfl, rfl, hR⟩ | ⟨a, g, g', rfl, rfl, hR⟩
  · exact ⟨rfl, hR⟩
  · exact ⟨rfl, hR⟩

/-- Searches that start alike go through their rounds alike. -/
theorem Correspondence.advance {s : Search P T O σ ε} {s' : Search P T O σ' ε'}
    (h : Correspondence classification s.config.strategy R)
    (hstrategy : s'.config.strategy = s.config.strategy) {t : Tree P T}
    (hstart : R ⟨s.restart, t⟩ ⟨s'.restart, t⟩) (rounds : Nat) :
    Alike R (s.advance t classification rounds) (s'.advance t classification rounds) := by
  unfold Search.advance
  rw [hstrategy]
  cases hs : s.config.strategy with
  | treeSearch =>
    rw [hs] at h
    exact h.searchRounds hstart rounds 0
  | bestFirst =>
    rw [hs] at h
    rcases (h.measure hstart Tree.rootIndex).cases with
      ⟨f, g₁, g₁', hm, hm', hR₁⟩ | ⟨cost, g₁, g₁', hm, hm', hR₁⟩
    · simp only [hm, hm']
      exact ⟨rfl, hR₁⟩
    · simp only [hm, hm']
      exact (h.sweepRounds hR₁ rounds 0 (.start cost)).discard

end Growth

end LoopTuner
