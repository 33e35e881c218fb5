import LoopTuner.Proofs.Growth.Independence
import LoopTuner.Proofs.Growth.Refusals
import LoopTuner.Proofs.Sweep.CandidateTree

/-!
# Split budgets

At its end a tree search measures nodes that none of its rounds has measured, and their costs stay in the
tree. If generators and evaluator answer by rules, that makes no difference to later rounds: a cost that is
found on a node is the one that measuring the node would yield (`Node.Ahead`), and neither the way down nor
the candidates depend on stored costs. So two growths of a tree do the same as one growth with all of their
rounds (`Search.grow_add`).
-/

namespace LoopTuner

variable {P T O σ ε : Type}

/-- The second tree is the first one, with at least its costs. -/
structure Tree.MoreMeasured (t t' : Tree P T) : Prop where
  size_eq : t'.size = t.size
  node : ∀ i n, t.node? i = some n → ∃ evaluation,
    t'.node? i = some { n with evaluation := evaluation } ∧
      ∀ cost, n.evaluation = some cost → evaluation = some cost

/-! ## Parties that follow rules -/

/-- Generators and evaluator answer by rules, and no rule has more candidates than a tree search keeps. -/
structure Search.Ruled (s : Search P T O σ ε) (rules : List (Rule P T O))
    (answer : P → Except Error Float) : Prop where
  generators : s.expander.pipeline.Follows rules
  length_le : ∀ rule ∈ rules, ∀ program history stage classification,
    (rule program history stage classification).length ≤ s.expander.cap
  evaluator : s.meter.evaluator.Follows answer

section Rules

variable {rules : List (Rule P T O)} {answer : P → Except Error Float}

theorem Search.Kin.ruled {s s' : Search P T O σ ε} (h : s.Kin s') (hs : s.Ruled rules answer) :
    s'.Ruled rules answer where
  generators := h.pipeline_eq ▸ hs.generators
  length_le := h.cap_eq ▸ hs.length_le
  evaluator := h.evaluator_eq ▸ hs.evaluator

/-- The candidates of a node by the rules; an expanded node has no more. -/
def Node.candidatesBy (rules : List (Rule P T O)) (classification : Classification O)
    (n : Node P T) : List (Candidate P T) :=
  if n.expanded then [] else Finding.offers classification rules n.stage n.finding

theorem Expander.candidates_of_follows {x : Expander P T O σ} (hp : x.pipeline.Follows rules)
    (n : Node P T) (i : Nat) (classification : Classification O) :
    ∃ memory, x.candidates n i classification =
      (.ok (n.candidatesBy rules classification), { x with memory := memory }) := by
  unfold Node.candidatesBy
  cases hexpanded : n.expanded with
  | false =>
    obtain ⟨memory, hgenerate⟩ := hp.generate classification n x.memory
    exact ⟨memory, candidates_eq hexpanded hgenerate i⟩
  | true => exact ⟨x.memory, candidates_of_idle (Or.inl hexpanded) i classification⟩

/-- A tree search keeps all candidates by the rules. -/
theorem Search.Ruled.limit_eq {s : Search P T O σ ε} (hs : s.Ruled rules answer) (n : Node P T)
    (classification : Classification O) {x : Expander P T O σ} (hx : x.cap = s.expander.cap) :
    x.limit (n.candidatesBy rules classification) = (n.candidatesBy rules classification, x) := by
  have hlength : (n.candidatesBy rules classification).length ≤ s.expander.cap := by
    unfold Node.candidatesBy Finding.offers
    split_ifs
    · exact Nat.zero_le _
    · cases hrule : rules[n.stage]? with
      | none => exact Nat.zero_le _
      | some rule => exact hs.length_le rule (List.mem_of_getElem? hrule) _ _ _ _
  exact Expander.limit_of_length_le (hx ▸ hlength)

/-- Generators that follow rules refuse no node. -/
theorem Growth.not_refused_of_follows {g : Growth P T O σ ε}
    (hp : g.search.expander.pipeline.Follows rules) (classification : Classification O) :
    ¬ g.Refused classification := by
  rintro ⟨i, n, e, -, herror⟩
  obtain ⟨memory, hgenerate⟩ := hp.generate classification n g.search.expander.memory
  rw [hgenerate] at herror
  cases herror

end Rules

/-! ## Nodes and trees that are ahead -/

section Ahead

variable (answer : P → Except Error Float)

/-- The cost that measuring the node yields. -/
def Node.cost (n : Node P T) : Float := n.evaluation.getD (Meter.costOf (answer n.program))

/-- The node once it is measured. -/
def Node.settled (n : Node P T) : Node P T := { n with evaluation := some (n.cost answer) }

/-- The second node is the first one, or that one once it is measured. -/
def Node.Ahead (n n' : Node P T) : Prop := n' = n ∨ n' = n.settled answer

/-- Some nodes of the second tree are measured which those of the first are not. -/
structure Tree.Ahead (t t' : Tree P T) : Prop where
  size_eq : t'.size = t.size
  node : ∀ i n, t.node? i = some n → ∃ n', t'.node? i = some n' ∧ n.Ahead answer n'

end Ahead

variable {answer : P → Except Error Float}

namespace Node

theorem settled_settled (n : Node P T) : (n.settled answer).settled answer = n.settled answer := rfl

namespace Ahead

variable {n n' : Node P T}

theorem settled_eq (h : n.Ahead answer n') : n'.settled answer = n.settled answer := by
  rcases h with rfl | rfl
  · rfl
  · exact n.settled_settled

theorem cost_eq (h : n.Ahead answer n') : n'.cost answer = n.cost answer :=
  Option.some.inj (congrArg Node.evaluation h.settled_eq)

/-- What does not depend on the stored cost is the same. -/
theorem view_eq (h : n.Ahead answer n') {α : Type} (view : Node P T → α)
    (hview : ∀ n, view (n.settled answer) = view n) : view n' = view n := by
  rcases h with rfl | rfl
  · rfl
  · exact hview n

theorem map (h : n.Ahead answer n') (f : Node P T → Node P T)
    (hf : ∀ n, f (n.settled answer) = (f n).settled answer) : (f n).Ahead answer (f n') := by
  rcases h with rfl | rfl
  · exact Or.inl rfl
  · exact Or.inr (hf n)

end Ahead

end Node

namespace Tree.Ahead

variable {t t' : Tree P T}

theorem refl (t : Tree P T) : t.Ahead answer t := ⟨rfl, fun _ n hn => ⟨n, hn, Or.inl rfl⟩⟩

theorem cases (h : t.Ahead answer t') (i : Nat) :
    (t.node? i = none ∧ t'.node? i = none) ∨
      ∃ n n', t.node? i = some n ∧ t'.node? i = some n' ∧ n.Ahead answer n' := by
  rcases Nat.lt_or_ge i t.size with hlt | hge
  · obtain ⟨n, hn⟩ := exists_node? hlt
    obtain ⟨n', hn', hahead⟩ := h.node i n hn
    exact Or.inr ⟨n, n', hn, hn', hahead⟩
  · exact Or.inl ⟨node?_eq_none hge, node?_eq_none (h.size_eq.symm ▸ hge)⟩

theorem agree (h : t.Ahead answer t') {α : Type} (view : Node P T → α)
    (hview : ∀ n, view (n.settled answer) = view n) : Agree view t t' := by
  intro i
  rcases h.cases i with ⟨hn, hn'⟩ | ⟨n, n', hn, hn', hahead⟩
  · rw [hn, hn']
  · rw [hn, hn']
    exact congrArg some (hahead.view_eq view hview)

theorem modify (h : t.Ahead answer t') (i : Nat) {f f' : Node P T → Node P T}
    (hf : ∀ n n', t.node? i = some n → t'.node? i = some n' → n.Ahead answer n' →
      (f n).Ahead answer (f' n')) : (t.modify i f).Ahead answer (t'.modify i f') where
  size_eq := by rw [size_modify, size_modify, h.size_eq]
  node j m hm := by
    rw [node?_modify] at hm ⊢
    split_ifs at hm ⊢ with hij
    · subst hij
      obtain ⟨n, hn, rfl⟩ := Option.map_eq_some_iff.mp hm
      obtain ⟨n', hn', hahead⟩ := h.node i n hn
      rw [hn', Option.map_some]
      exact ⟨f' n', rfl, hf n n' hn hn' hahead⟩
    · exact h.node j m hm

theorem withChildren (h : t.Ahead answer t') (i : Nat) (kids : List (Node P T)) :
    (t.withChildren i kids).Ahead answer (t'.withChildren i kids) where
  size_eq := by rw [size_withChildren, size_withChildren, h.size_eq]
  node j m hm := by
    rcases Nat.lt_or_ge j t.size with hlt | hge
    · obtain ⟨n, hn, rfl⟩ := node?_withChildren_old hlt hm
      obtain ⟨n', hn', hahead⟩ := h.node j n hn
      rw [node?_withChildren_of_lt i kids (h.size_eq.symm ▸ hlt), hn', h.size_eq]
      split_ifs
      · exact ⟨_, rfl, hahead.map (·.adoptAll _) fun _ => rfl⟩
      · exact ⟨n', rfl, hahead⟩
    · rw [node?_withChildren_of_ge i kids hge] at hm
      rw [node?_withChildren_of_ge i kids (h.size_eq.symm ▸ hge), h.size_eq]
      exact ⟨m, hm, Or.inl rfl⟩

theorem expandedBy (h : t.Ahead answer t') (i : Nat) (kids : List (Node P T)) :
    (t.expandedBy i kids).Ahead answer (t'.expandedBy i kids) :=
  (h.modify i fun _ _ _ _ hahead => hahead.map Node.markExpanded fun _ => rfl).withChildren i kids

theorem recordAll (h : t.Ahead answer t') (cost : Float) (path : List Nat) :
    (t.recordAll cost path).Ahead answer (t'.recordAll cost path) := by
  unfold Tree.recordAll
  induction path generalizing t t' with
  | nil => exact h
  | cons i path ih =>
    exact ih (h.modify i fun _ _ _ _ hahead => hahead.map (·.record cost) fun _ => rfl)

/-- Measuring does not undo or change what is stored. -/
theorem moreMeasured (h : t.Ahead answer t') : t.MoreMeasured t' where
  size_eq := h.size_eq
  node i n hn := by
    obtain ⟨n', hn', rfl | rfl⟩ := h.node i n hn
    · exact ⟨n'.evaluation, hn', fun _ hcost => hcost⟩
    · refine ⟨some (n.cost answer), hn', fun cost hcost => ?_⟩
      unfold Node.cost
      rw [hcost]
      rfl

end Tree.Ahead

/-! ## Growths that are ahead -/

namespace Growth

variable {rules : List (Rule P T O)} {classification : Classification O} {strategy : Strategy}

/-- Searches of the same make that follow the rules, the second on a tree that is ahead. -/
structure Ahead (rules : List (Rule P T O)) (answer : P → Except Error Float)
    (g g' : Growth P T O σ ε) : Prop where
  ruled : g.search.Ruled rules answer
  kin : g.search.Kin g'.search
  tree : g.tree.Ahead answer g'.tree

/-- An evaluator that follows the rule settles the cost of a node. -/
theorem measure_of_follows {g : Growth P T O σ ε} (hg : g.search.meter.evaluator.Follows answer)
    {i : Nat} {n : Node P T} (hn : g.tree.node? i = some n) :
    ∃ meter, g.measure i = (.ok (n.cost answer),
      ⟨{ g.search with meter := meter }, g.tree.modify i fun _ => n.settled answer⟩) := by
  refine ⟨(g.search.meter.measure n).2.2, ?_⟩
  rw [measure_eq hn, Meter.measure_of_follows hg]
  rfl

/-- Generators that follow the rules give a selected node its candidates, all of which are kept. -/
theorem expandSelected_of_ruled {g : Growth P T O σ ε} (hg : g.search.Ruled rules answer) {i : Nat}
    {n : Node P T} (hn : g.tree.node? i = some n) (classification : Classification O) :
    ∃ search, g.expandSelected classification i =
      if n.stage ≤ g.search.expander.lastStage then
        (.ok (List.range' g.tree.size (n.candidatesBy rules classification).length),
          ⟨search, g.tree.expandedBy i
            (Candidate.toNodes (n.candidatesBy rules classification) n i)⟩)
      else (.ok [], g) := by
  obtain ⟨memory, hcandidates⟩ :=
    Expander.candidates_of_follows hg.generators n i classification
  have hlimit := hg.limit_eq n classification
    (x := { g.search.expander with memory := memory }) rfl
  refine ⟨{ g.counted n with expander := { g.search.expander with memory := memory } }, ?_⟩
  unfold expandSelected
  rw [hn]
  simp only [expand_eq hn, hcandidates, hlimit]

namespace Ahead

variable {g g' : Growth P T O σ ε} (h : Ahead rules answer g g')

include h

/-- What a search is made of stays, so only the results and the trees are to be compared. -/
theorem alike {α : Type} {out out' : Except Failure α × Growth P T O σ ε}
    (hrun : Run classification strategy g out.2) (hrun' : Run classification strategy g' out'.2)
    (hresult : out'.1 = out.1) (htree : out.2.tree.Ahead answer out'.2.tree) :
    Alike (Ahead rules answer) out out' :=
  ⟨hresult, hrun.kin.ruled h.ruled, hrun.kin.symm.trans (h.kin.trans hrun'.kin), htree⟩

theorem measure (i : Nat) : Alike (Ahead rules answer) (g.measure i) (g'.measure i) := by
  have hrun := measure_run .empty .treeSearch g i
  have hrun' := measure_run .empty .treeSearch g' i
  rcases h.tree.cases i with ⟨hn, hn'⟩ | ⟨n, n', hn, hn', hahead⟩
  · rw [measure_of_none hn, measure_of_none hn']
    exact ⟨rfl, h⟩
  · obtain ⟨meter, hmeasure⟩ := measure_of_follows h.ruled.evaluator hn
    obtain ⟨meter', hmeasure'⟩ := measure_of_follows (h.kin.ruled h.ruled).evaluator hn'
    rw [hahead.cost_eq, hahead.settled_eq] at hmeasure'
    rw [hmeasure] at hrun ⊢
    rw [hmeasure'] at hrun' ⊢
    exact h.alike hrun hrun' rfl (h.tree.modify i fun _ _ _ _ _ => Or.inl rfl)

/-- The second growth may measure more than the first. -/
theorem measure_right (i : Nat) : Ahead rules answer g (g'.measure i).2 := by
  refine ⟨h.ruled, h.kin.trans (measure_run .empty .treeSearch g' i).kin, ?_⟩
  rcases h.tree.cases i with ⟨-, hn'⟩ | ⟨n, n', hn, hn', hahead⟩
  · rw [measure_of_none hn']
    exact h.tree
  · obtain ⟨meter', hmeasure'⟩ := measure_of_follows (h.kin.ruled h.ruled).evaluator hn'
    rw [hmeasure', hahead.settled_eq]
    refine ⟨(Tree.size_modify _ _ _).trans h.tree.size_eq, fun j m hm => ?_⟩
    rw [Tree.node?_modify]
    obtain ⟨m', hm', hahead'⟩ := h.tree.node j m hm
    split_ifs with hij
    · subst hij
      obtain rfl : n = m := Option.some.inj (hn.symm.trans hm)
      exact ⟨n.settled answer, by rw [hm', Option.map_some], Or.inr rfl⟩
    · exact ⟨m', hm', hahead'⟩

theorem expandSelected (classification : Classification O) (i : Nat) :
    Alike (Ahead rules answer) (g.expandSelected classification i)
      (g'.expandSelected classification i) := by
  have hrun := expandSelected_run classification g i
  have hrun' := expandSelected_run classification g' i
  rcases h.tree.cases i with ⟨hn, hn'⟩ | ⟨n, n', hn, hn', hahead⟩
  · unfold Growth.expandSelected
    rw [hn, hn']
    exact ⟨rfl, h⟩
  · -- the candidates, the children and the guard are read off fields that measuring leaves alone
    have hcandidates : n'.candidatesBy rules classification = n.candidatesBy rules classification :=
      hahead.view_eq (·.candidatesBy rules classification) fun _ => rfl
    have hkids : Candidate.toNodes (n.candidatesBy rules classification) n' i =
        Candidate.toNodes (n.candidatesBy rules classification) n i :=
      hahead.view_eq (fun m => Candidate.toNodes _ m i) fun _ => rfl
    have hstage : n'.stage = n.stage := hahead.view_eq Node.stage fun _ => rfl
    have hlast : g'.search.expander.lastStage = g.search.expander.lastStage := by
      unfold Expander.lastStage
      rw [h.kin.pipeline_eq]
    obtain ⟨search, hexpand⟩ := expandSelected_of_ruled h.ruled hn classification
    obtain ⟨search', hexpand'⟩ := expandSelected_of_ruled (h.kin.ruled h.ruled) hn' classification
    rw [hcandidates, hkids, hstage, hlast, h.tree.size_eq] at hexpand'
    rw [hexpand] at hrun ⊢
    rw [hexpand'] at hrun' ⊢
    split_ifs at hrun hrun' ⊢
    · exact h.alike hrun hrun' rfl (h.tree.expandedBy i _)
    · exact ⟨rfl, h⟩

theorem backup (i : Nat) (cost : Float) :
    Alike (Ahead rules answer) (g.backup i cost) (g'.backup i cost) := by
  have hpath : g'.tree.pathToRoot i = g.tree.pathToRoot i :=
    (h.tree.agree Node.place fun _ => rfl).pathToRoot_eq i
  unfold Growth.backup Tree.backup
  rw [h.tree.size_eq, hpath]
  split_ifs
  · exact ⟨rfl, ⟨h.ruled.generators, h.ruled.length_le, h.ruled.evaluator⟩,
      ⟨h.kin.config_eq, h.kin.pipeline_eq, h.kin.cap_eq, h.kin.evaluator_eq⟩,
      h.tree.recordAll cost _⟩
  · exact ⟨rfl, h⟩

end Ahead

/-- What stored costs cannot change, a tree search does not look at. -/
theorem ahead_correspondence (rules : List (Rule P T O)) (answer : P → Except Error Float)
    (classification : Classification O) :
    Correspondence classification .treeSearch
      (Ahead rules answer : Growth P T O σ ε → Growth P T O σ ε → Prop) where
  measure h := h.measure
  select_eq _ _ _ h := by
    rw [h.kin.config_eq]
    exact Descent.select_eq_of_agree (h.tree.agree Node.prospect fun _ => rfl) _ _
  expandSelected _ _ _ h := h.expandSelected classification
  backup _ _ _ h := h.backup
  size_eq _ _ _ h := h.tree.size_eq
  bestChild_eq _ _ _ h := (h.tree.agree Node.standing fun _ => rfl).bestChild_eq
  sweepRound hs := by cases hs

/-! ## Rounds by number -/

/-- The number of a round shows in its errors only. -/
theorem searchRound_of_ok {g g' : Growth P T O σ ε} {round : Nat}
    (h : g.searchRound classification round = (.ok (), g')) (round' : Nat) :
    g.searchRound classification round' = (.ok (), g') := by
  unfold searchRound at h ⊢
  rcases hselect : g.search.config.descent.select g.tree Tree.rootIndex with v | i
  · rw [hselect] at h
    cases h
  · rcases hexpand : g.expandSelected classification i with ⟨f | _, g₁⟩
    · simp only [hselect, hexpand] at h
      cases h
    · simp only [hselect, hexpand] at h ⊢
      exact h

theorem searchRounds_of_ok {g g' : Growth P T O σ ε} {count round : Nat}
    (h : searchRounds classification count round g = (.ok (), g')) (round' : Nat) :
    searchRounds classification count round' g = (.ok (), g') := by
  induction count generalizing g round round' with
  | zero => exact h
  | succ count ih =>
    unfold searchRounds at h ⊢
    split at h
    · cases h
    · rename_i hround
      rw [searchRound_of_ok hround round']
      exact ih h (round' + 1)

/-- The first of several rounds come before the others. -/
theorem exists_searchRounds_of_add {g g' : Growth P T O σ ε} {count more round : Nat}
    (h : searchRounds classification (count + more) round g = (.ok (), g')) :
    ∃ g₁, searchRounds classification count round g = (.ok (), g₁) ∧
      searchRounds classification more (round + count) g₁ = (.ok (), g') := by
  induction count generalizing g round with
  | zero =>
    rw [Nat.zero_add] at h
    exact ⟨g, rfl, h⟩
  | succ count ih =>
    rw [Nat.add_right_comm] at h
    unfold searchRounds at h
    split at h
    · cases h
    · rename_i hround
      obtain ⟨g₁, hfirst, hrest⟩ := ih h
      refine ⟨g₁, ?_, Nat.add_right_comm round count 1 ▸ hrest⟩
      unfold searchRounds
      rw [hround]
      exact hfirst

namespace Ahead

variable {g g' k k' : Growth P T O σ ε} (h : Ahead rules answer g g')

include h

/-- Rounds that are completed on both sides keep the second growth ahead, whatever their numbers are. -/
theorem searchRounds {count round round' : Nat}
    (hk : Growth.searchRounds classification count round g = (.ok (), k))
    (hk' : Growth.searchRounds classification count round' g' = (.ok (), k')) :
    Ahead rules answer k k' := by
  have hrelated :=
    ((ahead_correspondence rules answer classification).searchRounds h count round').related
  rwa [searchRounds_of_ok hk round', hk'] at hrelated

theorem extractBest {best best' : Nat} (hk : g.extractBest = (.ok best, k))
    (hk' : g'.extractBest = (.ok best', k')) : best' = best ∧ Ahead rules answer k k' := by
  obtain ⟨hresult, hrelated⟩ :=
    (ahead_correspondence rules answer (.empty : Classification O)).extractBest h
  rw [hk, hk'] at hresult hrelated
  exact ⟨Except.ok.inj hresult, hrelated⟩

/-- Extraction brings a growth ahead. -/
theorem extractBest_right {best : Nat} (hk' : g'.extractBest = (.ok best, k')) :
    Ahead rules answer g k' := by
  have hmeasured := extractBest_preserve (I := Ahead rules answer g) (fun hg i => hg.measure_right i) h
  rwa [hk'] at hmeasured

/-- A growth that goes on with the tree of an earlier one is as far ahead. -/
theorem restart (nodes : Nat) :
    Ahead rules answer g ⟨(g'.search.close nodes).restart, g'.tree⟩ :=
  ⟨h.ruled, ⟨h.kin.config_eq, h.kin.pipeline_eq, h.kin.cap_eq, h.kin.evaluator_eq⟩, h.tree⟩

end Ahead

end Growth

/-! ## Growing -/

namespace Search

variable {rules : List (Rule P T O)}

/-- A tree search that returns a node finds it when its rounds are over. -/
theorem exists_extracted_of_grow {s : Search P T O σ ε} (hs : s.config.strategy = .treeSearch)
    {t t' : Tree P T} {classification : Classification O} {rounds best : Nat} {u : Search P T O σ ε}
    (h : s.grow t classification rounds = (.ok best, t', u)) :
    ∃ g g', Growth.searchRounds classification rounds 0 ⟨s.restart, t⟩ = (.ok (), g) ∧
      g.extractBest = (.ok best, g') ∧ t' = g'.tree ∧ u = g'.search.close g'.tree.size := by
  obtain ⟨g, g', hadvance, hgrown, htree, hsearch⟩ := exists_advance_of_grow h
  rw [grown_of_searched hs hadvance] at hgrown
  rw [advance_of_treeSearch hs, ← Growth.searchRounds_eq] at hadvance
  exact ⟨g, g', hadvance, hgrown, htree, hsearch⟩

/-- If the generators follow rules, a tree search returns a node. -/
theorem exists_grow_of_follows {s : Search P T O σ ε} (hs : s.config.strategy = .treeSearch)
    (hp : s.expander.pipeline.Follows rules) {t : Tree P T} {total : Nat}
    (h : t.Balanced s.expander.lastStage none total) (classification : Classification O)
    (rounds : Nat) :
    ∃ best t' u, s.grow t classification rounds = (.ok best, t', u) ∧
      t'.Balanced u.expander.lastStage none (total + rounds) := by
  obtain ⟨result, t', u, hgrow, hbalanced, -, hends⟩ := grow_balanced hs h classification rounds
  rcases hends with ⟨⟨best, rfl⟩, hdone⟩ | ⟨⟨e, rfl⟩, -⟩
  · exact ⟨best, t', u, hgrow, hdone ▸ hbalanced⟩
  · obtain ⟨g, hrun, hrefused⟩ := exists_refused h.wellFormed (congrArg Prod.fst hgrow)
    have hpipeline : g.search.expander.pipeline = s.expander.pipeline := hrun.kin.pipeline_eq
    exact absurd hrefused (Growth.not_refused_of_follows (hpipeline.symm ▸ hp) classification)

/-- If all parties follow rules, then it makes no difference whether a tree is grown at once or in two
growths, other than that the end of the first one measures nodes too. -/
theorem grow_add {s s' : Search P T O σ ε} (hkin : s.Kin s') (hs : s.config.strategy = .treeSearch)
    (hruled : s.Ruled rules answer) {root : Node P T} (hroot : root.Untouched)
    (classification : Classification O) {rounds rounds' : Nat} (hlt : rounds + rounds' < 2 ^ 32) :
    ∃ best t u first t₁ u₁ t₂ u₂,
      s.grow (.ofRoot root) classification (rounds + rounds') = (.ok best, t, u) ∧
      s'.grow (.ofRoot root) classification rounds = (.ok first, t₁, u₁) ∧
      u₁.grow t₁ classification rounds' = (.ok best, t₂, u₂) ∧ t.MoreMeasured t₂ ∧
      ∀ i n, t.node? i = some n → n.visits < 2 ^ 32 := by
  have hs' : s'.config.strategy = .treeSearch := hkin.config_eq ▸ hs
  have hruled' := hkin.ruled hruled
  obtain ⟨best, t, u, hgrow, hbalanced⟩ := exists_grow_of_follows hs hruled.generators
    (Tree.balanced_of_untouched hroot _) classification (rounds + rounds')
  obtain ⟨first, t₁, u₁, hgrow₁, hbalanced₁⟩ := exists_grow_of_follows hs' hruled'.generators
    (Tree.balanced_of_untouched hroot _) classification rounds
  have hkin₁ : s'.Kin u₁ := by
    have h := s'.kin_grow (.ofRoot root) classification rounds
    rwa [hgrow₁] at h
  have hs₁ : u₁.config.strategy = .treeSearch := hkin₁.config_eq ▸ hs'
  obtain ⟨best', t₂, u₂, hgrow₂, -⟩ :=
    exists_grow_of_follows hs₁ (hkin₁.ruled hruled').generators hbalanced₁ classification rounds'
  obtain ⟨g, h, hrounds, hbest, rfl, rfl⟩ := exists_extracted_of_grow hs hgrow
  obtain ⟨g₁, h₁, hrounds₁, hbest₁, rfl, rfl⟩ := exists_extracted_of_grow hs' hgrow₁
  obtain ⟨g₂, h₂, hrounds₂, hbest₂, rfl, rfl⟩ := exists_extracted_of_grow hs₁ hgrow₂
  have hstart : Growth.Ahead rules answer ⟨s.restart, .ofRoot root⟩ ⟨s'.restart, .ofRoot root⟩ :=
    ⟨⟨hruled.generators, hruled.length_le, hruled.evaluator⟩,
      ⟨hkin.config_eq, hkin.pipeline_eq, hkin.cap_eq, hkin.evaluator_eq⟩, .refl _⟩
  -- the single growth stands at `k` when the first of the two growths extracts its node
  obtain ⟨k, hearly, hlate⟩ := Growth.exists_searchRounds_of_add hrounds
  have hearlier := (hstart.searchRounds hearly hrounds₁).extractBest_right hbest₁
  obtain ⟨rfl, hahead⟩ :=
    ((hearlier.restart h₁.tree.size).searchRounds hlate hrounds₂).extractBest hbest hbest₂
  refine ⟨_, _, _, first, _, _, _, _, hgrow, hgrow₁, hgrow₂, hahead.tree.moreMeasured,
    fun i n hn => ?_⟩
  have hle := hbalanced.visitsOf_le (Tree.lt_size_of_node? hn)
  rw [Tree.visitsOf_of_node? hn, Nat.zero_add] at hle
  exact Nat.lt_of_le_of_lt hle hlt

/-- One round and then two more below a root of known cost. The search that takes them was used before. -/
theorem grow_add_twoLeaves :
    let rule : Rule Nat Nat Unit := fun _ history _ _ =>
      [⟨1, 0, history ++ [0]⟩, ⟨2, 1, history ++ [1]⟩]
    let answer : Nat → Except Error Float := fun program =>
      .ok (match program with | 0 => 10 | 1 => 5 | _ => 9)
    let used := (twoLeaves.grow (.ofRoot (.root 0 0)) .empty 2).2.2
    twoLeaves.Kin used ∧ twoLeaves.config.strategy = .treeSearch ∧ twoLeaves.Ruled [rule] answer ∧
      measuredRoot.Untouched ∧ 1 + 2 < 2 ^ 32 ∧
      ∃ best t u first t₁ u₁ t₂ u₂,
        twoLeaves.grow (.ofRoot measuredRoot) .empty (1 + 2) = (.ok best, t, u) ∧
        used.grow (.ofRoot measuredRoot) .empty 1 = (.ok first, t₁, u₁) ∧
        u₁.grow t₁ .empty 2 = (.ok best, t₂, u₂) ∧ t.MoreMeasured t₂ ∧
        ∀ i n, t.node? i = some n → n.visits < 2 ^ 32 := by
  intro rule answer used
  have hkin : twoLeaves.Kin used := twoLeaves.kin_grow (.ofRoot (.root 0 0)) .empty 2
  have hruled : twoLeaves.Ruled [rule] answer := by
    refine ⟨.cons (fun _ _ _ _ => rfl) .nil, fun r hr program history stage classification => ?_,
      fun _ _ => rfl⟩
    rw [List.mem_singleton.mp hr]
    exact (by decide : 2 ≤ 25)
  have hroot : measuredRoot.Untouched := ⟨rfl, rfl, rfl, rfl⟩
  have hlt : 1 + 2 < 2 ^ 32 := by decide
  exact ⟨hkin, rfl, hruled, hroot, hlt, grow_add hkin rfl hruled hroot .empty hlt⟩

end Search

end LoopTuner
