import LoopTuner.Proofs.Calls.Accounts
import LoopTuner.Proofs.Growth.Conservation
import LoopTuner.Proofs.Growth.Edits
import LoopTuner.Proofs.Sweep.Regrowth

/-!
# Both strategies on one tree

Tree search never walks below an unvisited node in a tree that tree searches have grown, because it visits
every node that it expands. A best-first search expands nodes without visiting them. So a tree search of at
least one round stops with a violation if a best-first search has added the first nodes, and otherwise no
growth does, in whatever order the two strategies take their turns (`Tree.GrownOver.violation_iff_swept`).
-/

namespace LoopTuner

variable {P T O σ ε : Type}

/-- A part of a search ends without a violation. -/
def Unviolated {α : Type} (result : Except Failure α) : Prop := ∀ v, result ≠ .error (.violation v)

namespace Unviolated

variable {α β : Type}

theorem ok (a : α) : Unviolated (.ok a) := by
  intro v hv
  cases hv

theorem error (e : Error) : Unviolated (.error (.error e) : Except Failure α) := by
  intro v hv
  cases hv

/-- What stops a part of a search stops the whole. -/
theorem of_error {f : Failure} (h : Unviolated (.error f : Except Failure α)) :
    Unviolated (.error f : Except Failure β) := by
  intro v hv
  cases hv
  exact h v rfl

end Unviolated

/-! ## Best-first search -/

theorem Sweep.mem_queue_pushAll {s : Sweep} {entries : List (Float × Nat)} {e : Queued}
    (h : e ∈ (s.pushAll entries).queue) : e ∈ s.queue ∨ e.index ∈ entries.map (·.2) := by
  induction entries generalizing s with
  | nil => exact Or.inl h
  | cons entry entries ih =>
    rw [List.map_cons]
    rcases ih h with hpushed | hrest
    · rcases List.mem_cons.mp hpushed with rfl | hold
      · exact Or.inr List.mem_cons_self
      · exact Or.inl hold
    · exact Or.inr (List.mem_cons_of_mem _ hrest)

namespace Growth

variable {classification : Classification O} {g g' : Growth P T O σ ε}

/-- A sweep goes on among the nodes of the tree. -/
theorem sweepRounds_unviolated {count round : Nat} {s : Sweep}
    (h : ∀ e ∈ s.queue, e.index < g.tree.size) :
    Unviolated (sweepRounds classification count round s g).1 := by
  induction count generalizing round s g with
  | zero => exact .ok s
  | succ count ih =>
    unfold sweepRounds
    cases hpop : Queued.pop? s.queue with
    | none => exact .ok s
    | some popped =>
      obtain ⟨entry, queue⟩ := popped
      have hperm := Queued.perm_of_pop? hpop
      obtain ⟨n, hn⟩ := Tree.exists_node? (h entry (hperm.subset List.mem_cons_self))
      simp only [sweepRound_eq hn]
      rcases hc : g.search.expander.candidates n entry.index classification with ⟨_ | candidates, x⟩
      · exact .error _
      · refine ih fun e he => ?_
        rw [Tree.size_expandedBy, List.length_map]
        rcases Sweep.mem_queue_pushAll he with hold | hnew
        · exact Nat.lt_add_right _ (h e (hperm.subset (List.mem_cons_of_mem _ hold)))
        · obtain ⟨x, hx, hindex⟩ := List.mem_map.mp hnew
          rw [← hindex]
          exact (List.mem_range'_1.mp (List.of_mem_zip hx).2).2

theorem bestFirst_unviolated (h : Tree.rootIndex < g.tree.size) (rounds : Nat) :
    Unviolated (g.bestFirst classification rounds).1 := by
  obtain ⟨n, hn⟩ := Tree.exists_node? h
  unfold bestFirst
  simp only [measure_eq hn]
  have hrounds : Unviolated (sweepRounds classification rounds 0
      (.start (g.search.meter.measure n).1)
      ⟨{ g.search with meter := (g.search.meter.measure n).2.2 }, g.tree.modify Tree.rootIndex fun _ =>
        { n with evaluation := some (g.search.meter.measure n).1 }⟩).1 := by
    refine sweepRounds_unviolated fun e he => ?_
    rw [List.mem_singleton.mp he, Tree.size_modify]
    exact h
  split
  · rename_i f _ hx
    rw [hx] at hrounds
    exact hrounds.of_error
  · exact .ok _

theorem visitsOf_measure (g : Growth P T O σ ε) (i : Nat) :
    (g.measure i).2.tree.visitsOf = g.tree.visitsOf := by
  cases hn : g.tree.node? i with
  | none => rw [measure_of_none hn]
  | some n =>
    rw [measure_eq hn]
    exact Tree.Balanced.visitsOf_modify_evaluation hn _

theorem visitsOf_sweepRound (round i : Nat) (s : Sweep) (g : Growth P T O σ ε) :
    (g.sweepRound classification round i s).2.tree.visitsOf = g.tree.visitsOf := by
  cases hn : g.tree.node? i with
  | none => rw [sweepRound_of_none hn]
  | some n =>
    rw [sweepRound_eq hn]
    rcases g.search.expander.candidates n i classification with ⟨_ | candidates, x⟩
    · rfl
    · refine funext (Tree.Balanced.visitsOf_expandedBy (n := n) fun kid hkid => ?_)
      obtain ⟨e, he, rfl⟩ := List.mem_map.mp hkid
      obtain ⟨-, c, -, hbecomes⟩ := exists_of_mem_sweepKids he
      exact ⟨c, hbecomes⟩

/-- A best-first search visits no node. -/
theorem visitsOf_of_run (h : Run classification .bestFirst g g') :
    g'.tree.visitsOf = g.tree.visitsOf := by
  refine h.preserve (I := fun g' => g'.tree.visitsOf = g.tree.visitsOf) (fun hoperation heq => ?_) rfl
  refine Eq.trans ?_ heq
  cases hoperation with
  | measure => exact visitsOf_measure _ _
  | sweepRound => exact visitsOf_sweepRound _ _ _ _

/-! ## Tree search -/

theorem measurePath_ok {path : List Nat} (h : ∀ i ∈ path, i < g.tree.size) (best : Nat)
    (bestCost : Float) : ∃ result, (measurePath best bestCost path g).1 = .ok result := by
  induction path generalizing g best bestCost with
  | nil => exact ⟨best, rfl⟩
  | cons i path ih =>
    obtain ⟨hi, hrest⟩ := List.forall_mem_cons.mp h
    obtain ⟨cost, g', hmeasure, -⟩ := exists_measure_eq hi
    have hsize := (g.measure_agree i).size
    rw [hmeasure] at hsize
    rw [← hsize] at hrest
    rw [measurePath_cons hmeasure]
    exact ih hrest _ _

/-- Extraction always finds a node. -/
theorem extractBest_ok (ht : g.tree.WellFormed) : ∃ result, g.extractBest.1 = .ok result := by
  obtain ⟨path, htrace⟩ :=
    ht.exists_trace ht.downward_bestChild (show Tree.rootIndex < g.tree.size from ht.size_pos)
  obtain ⟨cost, g', hmeasure, -⟩ := exists_measure_eq (i := Tree.rootIndex) ht.size_pos
  have hsize := (g.measure_agree Tree.rootIndex).size
  rw [hmeasure] at hsize
  rw [extractBest_of_trace ht htrace]
  unfold measureAlong
  simp only [hmeasure]
  refine measurePath_ok ?_ _ _
  rw [hsize]
  exact htrace.forall_mem fun i j hj => Tree.lt_size_of_parent? (ht.downward_bestChild i j hj)

/-- A round goes on from a node of the tree to its end, unless a generator fails. -/
theorem searchRound_unviolated {i : Nat}
    (hselect : g.search.config.descent.select g.tree Tree.rootIndex = .ok i) (hi : i < g.tree.size)
    (round : Nat) : Unviolated (g.searchRound classification round).1 := by
  -- once the node is expanded or needs no expansion, it is measured and its cost backed up
  have hvisit : ∀ g₁ : Growth P T O σ ε, i < g₁.tree.size → ∃ cost g₂,
      g₁.measure i = (.ok cost, g₂) ∧ Unviolated (g₂.backup i cost).1 := by
    intro g₁ hlt
    obtain ⟨cost, g₂, hmeasure, hcost, -⟩ := exists_measure_eq hlt
    refine ⟨cost, g₂, hmeasure, ?_⟩
    unfold backup Tree.backup
    rw [if_pos (Tree.lt_size_of_evaluationOf hcost)]
    exact .ok ()
  obtain ⟨n, hn⟩ := Tree.exists_node? hi
  unfold searchRound expandSelected
  simp only [hselect, hn]
  split_ifs
  · rw [expand_eq hn]
    rcases g.search.expander.candidates n i classification with ⟨e | candidates, x⟩
    · exact .error _
    · have hlt : i < (g.tree.expandedBy i (Candidate.toNodes (x.limit candidates).1 n i)).size := by
        rw [Tree.size_expandedBy]
        exact Nat.lt_add_right _ hi
      obtain ⟨cost, g₂, hmeasure, hbackup⟩ := hvisit
        ⟨{ g.counted n with expander := (x.limit candidates).2 },
          g.tree.expandedBy i (Candidate.toNodes (x.limit candidates).1 n i)⟩ hlt
      simp only [hmeasure]
      exact hbackup
  · obtain ⟨cost, g₂, hmeasure, hbackup⟩ := hvisit g hi
    simp only [hmeasure]
    exact hbackup

end Growth

/-! ## Roots -/

namespace Tree

/-- The root is expanded and has no children. -/
def Barren (t : Tree P T) : Prop :=
  ∃ n, t.node? rootIndex = some n ∧ n.expanded = true ∧ n.children = #[]

/-- The root is expanded and has children, but was never visited. -/
def Swept (t : Tree P T) : Prop :=
  ∃ n, t.node? rootIndex = some n ∧ n.expanded = true ∧ n.children ≠ #[] ∧ n.visits = 0

variable {t t' : Tree P T}

theorem Barren.not_swept (h : t.Barren) : ¬ t.Swept := by
  obtain ⟨n, hn, -, hchildren⟩ := h
  rintro ⟨m, hm, -, hne, -⟩
  rw [hn] at hm
  cases hm
  exact hne hchildren

theorem Balanced.not_swept {last : Stage} {total : Nat} (h : t.Balanced last none total) :
    ¬ t.Swept := by
  rintro ⟨n, hn, -, hne, hvisits⟩
  have hsum := (h.inner _ n hn hne).2
  rw [hvisits, visitsDue_none] at hsum
  omega

theorem Keeps.barren (h : t.Keeps t') (ht : t.Barren) : t'.Barren := by
  obtain ⟨n, hn, hexpanded, hchildren⟩ := ht
  obtain ⟨n', hn', hkept⟩ := h _ n hn
  obtain ⟨hexpanded', hchildren'⟩ := hkept.children hexpanded
  exact ⟨n', hn', hexpanded', hchildren'.trans hchildren⟩

theorem Keeps.swept (h : t.Keeps t') (hvisits : t'.visitsOf = t.visitsOf) (ht : t.Swept) :
    t'.Swept := by
  obtain ⟨n, hn, hexpanded, hne, hzero⟩ := ht
  obtain ⟨n', hn', hkept⟩ := h _ n hn
  obtain ⟨hexpanded', hchildren⟩ := hkept.children hexpanded
  refine ⟨n', hn', hexpanded', hchildren ▸ hne, ?_⟩
  rw [← visitsOf_of_node? hn', hvisits, visitsOf_of_node? hn, hzero]

/-- The way down from a barren root ends there. -/
theorem Barren.select_eq (h : t.Barren) (d : Descent) : d.select t rootIndex = .ok rootIndex := by
  obtain ⟨n, hn, hexpanded, hchildren⟩ := h
  unfold Descent.select Descent.walk
  simp only [hn, hexpanded, hchildren, if_true]

/-- There is no way down from a swept root. -/
theorem Swept.select_eq (h : t.Swept) (d : Descent) :
    d.select t rootIndex = .error (.unvisited rootIndex) := by
  obtain ⟨n, hn, hexpanded, hne, hvisits⟩ := h
  unfold Descent.select Descent.walk
  simp only [hn, hexpanded, if_true]
  cases hlist : n.children.toList with
  | nil => exact absurd (Array.toList_eq_nil_iff.mp hlist) hne
  | cons first others =>
    have hvisited : n.isVisited = false := by
      unfold Node.isVisited
      rw [hvisits]
      rfl
    simp only [hvisited]
    rfl

end Tree

namespace Growth

variable {classification : Classification O} {g : Growth P T O σ ε}

theorem searchRounds_unviolated (ht : g.tree.WellFormed) (h : g.tree.Barren) (count round : Nat) :
    Unviolated (searchRounds classification count round g).1 := by
  induction count generalizing round g with
  | zero => exact .ok ()
  | succ count ih =>
    have hround : Unviolated (g.searchRound classification round).1 :=
      searchRound_unviolated (h.select_eq _) ht.size_pos round
    have hwf := (searchRound_reaches classification round g).moves.preserve Tree.WellFormed.move ht
    have hkeeps := (searchRound_run classification round g).keeps
    unfold searchRounds
    rcases hx : g.searchRound classification round with ⟨f | _, g₁⟩
    · rw [hx] at hround
      exact hround
    · rw [hx] at hwf hkeeps
      exact ih hwf (hkeeps.barren h) (round + 1)

/-- A tree search can go on from a barren root. -/
theorem treeSearch_unviolated (ht : g.tree.WellFormed) (h : g.tree.Barren) (rounds : Nat) :
    Unviolated (g.treeSearch classification rounds).1 := by
  have hrounds : Unviolated (searchRounds classification rounds 0 g).1 :=
    searchRounds_unviolated ht h rounds 0
  have hwf := (searchRounds_reaches classification rounds 0 g).moves.preserve Tree.WellFormed.move ht
  unfold treeSearch
  rcases hx : searchRounds classification rounds 0 g with ⟨f | _, g₁⟩
  · rw [hx] at hrounds
    exact hrounds.of_error
  · rw [hx] at hwf
    obtain ⟨best, hbest⟩ := extractBest_ok hwf
    simp only
    rw [hbest]
    exact .ok best

/-- A tree search cannot go on from a swept root. -/
theorem treeSearch_of_swept (h : g.tree.Swept) {rounds : Nat} (hrounds : 0 < rounds) :
    g.treeSearch classification rounds = (.error (.violation (.unvisited Tree.rootIndex)), g) := by
  obtain ⟨count, rfl⟩ := Nat.exists_eq_add_one.mpr hrounds
  unfold treeSearch searchRounds searchRound
  rw [h.select_eq]

end Growth

/-! ## Turns -/

/-- The trees that come from a root by any number of growths over one pipeline. Each growth may be that of
another search, of either strategy. -/
inductive Tree.GrownOver (p : Pipeline P T O σ) (root : Node P T) : Tree P T → Prop
  | root : GrownOver p root (.ofRoot root)
  | grow {t : Tree P T} (h : GrownOver p root t) {ε : Type} (s : Search P T O σ ε)
      (hs : s.expander.pipeline = p) (classification : Classification O) (rounds : Nat) :
      GrownOver p root (s.grow t classification rounds).2.1

namespace Tree.GrownOver

variable {p : Pipeline P T O σ} {root : Node P T} {t : Tree P T}

theorem grown (h : GrownOver p root t) : Grown (fun _ => True) root t := by
  induction h with
  | root => exact .root
  | grow _ s _ classification rounds ih => exact .grow ih s trivial classification rounds

theorem built (h : GrownOver p root t) (hparent : root.parent = none)
    (hchildren : root.children = #[]) : t.Built (some p.length) root.stage := by
  induction h with
  | root => exact built_ofRoot hparent hchildren _
  | grow _ s hs classification rounds ih =>
    refine ih.edit (.grow s _ classification rounds fun m hm => ?_)
    obtain rfl : p.length = m := Option.some.inj hm
    exact Nat.le_of_eq (congrArg List.length hs)

end Tree.GrownOver

/-- What a tree is between two growths over a pipeline with this last stage. -/
inductive Tree.Mixed (last : Stage) (t : Tree P T) : Prop
  | balanced (total : Nat) (h : t.Balanced last none total)
  | barren (h : t.Barren)
  | swept (h : t.Swept)

/-- What happens when a search takes its turn on a tree that searches of both strategies grow. -/
structure Search.Turn (s : Search P T O σ ε) (t : Tree P T) (classification : Classification O)
    (rounds : Nat) : Prop where
  violation_iff : (∃ v, (s.grow t classification rounds).1 = .error (.violation v)) ↔
    s.config.strategy = .treeSearch ∧ 0 < rounds ∧ t.Swept
  unvisited : ∀ v, (s.grow t classification rounds).1 = .error (.violation v) →
    v = .unvisited Tree.rootIndex ∧ (s.grow t classification rounds).2.1 = t
  swept_iff : (s.grow t classification rounds).2.1.Swept ↔
    t.Swept ∨ s.config.strategy = .bestFirst ∧ t.size < (s.grow t classification rounds).2.1.size

namespace Tree

/-- The balance of a root alone does not depend on its cost. -/
theorem Balanced.of_kept {last : Stage} {total : Nat} {n m : Node P T}
    (h : (ofRoot n).Balanced last none total) (hkept : n.Kept m) (hvisits : m.visits = n.visits)
    (hwf : (ofRoot m).WellFormed) (hchildren : m.children = #[]) (hn : n.expanded = false)
    (hm : m.expanded = false) : (ofRoot m).Balanced last none total where
  wellFormed := hwf
  root_visits := hvisits.trans h.root_visits
  inner i k hk hne := by
    obtain ⟨-, rfl⟩ := node?_ofRoot hk
    exact absurd hchildren hne
  measured i k hk hpos := by
    obtain ⟨-, rfl⟩ := node?_ofRoot hk
    obtain ⟨cost, hcost⟩ := Option.isSome_iff_exists.mp (h.measured 0 n rfl (hvisits ▸ hpos))
    rw [hkept.evaluation cost hcost]
    rfl
  unvisited i k hk _ := by
    obtain ⟨-, rfl⟩ := node?_ofRoot hk
    exact ⟨hchildren, hm⟩
  expanded_of_stage_le i k hk hpos hstage := by
    obtain ⟨-, rfl⟩ := node?_ofRoot hk
    have heq : k.stage = n.stage := congrArg (·.2.1) hkept.origin
    rw [hvisits] at hpos
    rw [h.expanded_of_stage_le 0 n rfl hpos (heq ▸ hstage)] at hn
    cases hn

theorem WellFormed.exists_child {t : Tree P T} (ht : t.WellFormed) {i : Nat} {n : Node P T}
    (hn : t.node? i = some n) (hne : n.children ≠ #[]) :
    ∃ c cn, i < c ∧ t.node? c = some cn ∧ cn.stage = n.stage + 1 := by
  obtain ⟨c, hc⟩ := List.exists_mem_of_ne_nil n.children.toList fun hnil =>
    hne (Array.toList_eq_nil_iff.mp hnil)
  obtain ⟨hlt, cn, hcn, -, hstage⟩ := ht.child hn (Array.mem_toList_iff.mp hc)
  exact ⟨c, cn, hlt, hcn, hstage⟩

/-- A root with children is at a stage that has a phase. -/
theorem Built.stage_le_lastStage {x : Expander P T O σ} {start : Stage} {t : Tree P T}
    (h : t.Built (some x.pipeline.length) start) {n : Node P T} (hn : t.node? rootIndex = some n)
    (hne : n.children ≠ #[]) : n.stage ≤ x.lastStage := by
  obtain ⟨root, hroot, rfl⟩ := h.root
  rw [hn] at hroot
  cases hroot
  obtain ⟨c, cn, -, hcn, hstage⟩ := h.wellFormed.exists_child hn hne
  have hle : n.stage + 1 ≤ max n.stage x.pipeline.length := hstage ▸ h.stage_le _ rfl c cn hcn
  have hlt : n.stage < x.pipeline.length :=
    (lt_max_iff.mp hle).resolve_left (Nat.lt_irrefl n.stage)
  unfold Expander.lastStage Pipeline.lastStage?
  split_ifs with hempty
  · rw [List.isEmpty_iff.mp hempty] at hlt
    exact absurd hlt (Nat.not_lt_zero n.stage)
  · exact Nat.le_sub_one_of_lt hlt

/-- A tree whose root has children has more than one node. -/
theorem WellFormed.one_lt_size {t : Tree P T} (ht : t.WellFormed) {n : Node P T}
    (hn : t.node? rootIndex = some n) (hne : n.children ≠ #[]) : 1 < t.size := by
  obtain ⟨c, cn, hpos, hcn, -⟩ := ht.exists_child hn hne
  exact Nat.lt_of_le_of_lt hpos (lt_size_of_node? hcn)

end Tree

namespace Search

variable {s : Search P T O σ ε} {t : Tree P T} {classification : Classification O} {rounds : Nat}

theorem grow_keeps (s : Search P T O σ ε) (t : Tree P T) (classification : Classification O)
    (rounds : Nat) : t.Keeps (s.grow t classification rounds).2.1 := by
  rw [tree_grow]
  exact (s.grown_run classification t rounds).keeps

/-! ### Tree search -/

theorem grown_of_treeSearch (hs : s.config.strategy = .treeSearch) :
    s.grown t classification rounds = Growth.treeSearch classification rounds ⟨s.restart, t⟩ := by
  unfold grown
  rw [hs]

/-- A turn of a tree search that ends well. -/
theorem Turn.of_treeSearch (hs : s.config.strategy = .treeSearch)
    (hresult : Unviolated (s.grown t classification rounds).1) (hpossible : 0 < rounds → ¬ t.Swept)
    (hswept : (s.grow t classification rounds).2.1.Swept ↔ t.Swept) :
    s.Turn t classification rounds := by
  rw [← result_grow] at hresult
  refine ⟨iff_of_false (not_exists.mpr hresult) fun h => hpossible h.2.1 h.2.2,
    fun v hv => absurd hv (hresult v), hswept.trans ⟨Or.inl, ?_⟩⟩
  rintro (hold | ⟨hbestFirst, -⟩)
  · exact hold
  · rw [hs] at hbestFirst
    cases hbestFirst

theorem treeSearch_of_balanced (hs : s.config.strategy = .treeSearch) {total : Nat}
    (h : t.Balanced s.expander.lastStage none total) :
    s.Turn t classification rounds ∧
      (s.grow t classification rounds).2.1.Mixed s.expander.lastStage := by
  obtain ⟨done, hran⟩ := Growth.treeSearch_ran (g := ⟨s.restart, t⟩) h classification rounds
  rw [← grown_of_treeSearch hs] at hran
  have hbalanced : (s.grow t classification rounds).2.1.Balanced s.expander.lastStage none
      (total + done) := by
    rw [tree_grow]
    exact hran.balanced
  refine ⟨.of_treeSearch hs (fun v hv => ?_) (fun _ => h.not_swept)
    (iff_of_false hbalanced.not_swept h.not_swept), .balanced _ hbalanced⟩
  rcases hran.result with ⟨⟨_, hok⟩, -⟩ | ⟨⟨_, herror⟩, -⟩
  · rw [hv] at hok
    cases hok
  · rw [hv] at herror
    cases herror

theorem treeSearch_of_barren (hs : s.config.strategy = .treeSearch) (ht : t.WellFormed)
    (h : t.Barren) :
    s.Turn t classification rounds ∧
      (s.grow t classification rounds).2.1.Mixed s.expander.lastStage := by
  have hbarren := (s.grow_keeps t classification rounds).barren h
  refine ⟨.of_treeSearch hs ?_ (fun _ => h.not_swept) (iff_of_false hbarren.not_swept h.not_swept),
    .barren hbarren⟩
  rw [grown_of_treeSearch hs]
  exact Growth.treeSearch_unviolated ht h rounds

theorem treeSearch_of_swept (hs : s.config.strategy = .treeSearch) (ht : t.WellFormed)
    (h : t.Swept) :
    s.Turn t classification rounds ∧
      (s.grow t classification rounds).2.1.Mixed s.expander.lastStage := by
  have hgrown : s.grown t classification rounds =
      Growth.treeSearch classification rounds ⟨s.restart, t⟩ := grown_of_treeSearch hs
  rcases Nat.eq_zero_or_pos rounds with rfl | hpos
  · -- without rounds the search only measures, as a best-first search could
    have hextract : s.grown t classification 0 = Growth.extractBest ⟨s.restart, t⟩ := hgrown
    have hswept : (s.grow t classification 0).2.1.Swept := by
      refine (s.grow_keeps t classification 0).swept ?_ h
      rw [tree_grow, hextract]
      exact Growth.visitsOf_of_run (Growth.extractBest_run classification .bestFirst ⟨s.restart, t⟩)
    refine ⟨.of_treeSearch hs ?_ (fun hpos => absurd hpos (Nat.lt_irrefl 0)) (iff_of_true hswept h),
      .swept hswept⟩
    obtain ⟨best, hbest⟩ := Growth.extractBest_ok (g := ⟨s.restart, t⟩) ht
    rw [hextract, hbest]
    exact .ok best
  · rw [Growth.treeSearch_of_swept h hpos] at hgrown
    have hgrow : s.grow t classification rounds =
        (.error (.violation (.unvisited Tree.rootIndex)), t, s.restart) := by
      rw [grow_eq, hgrown]
    refine ⟨⟨iff_of_true ⟨_, congrArg Prod.fst hgrow⟩ ⟨hs, hpos, h⟩, fun v hv => ?_, ?_⟩, ?_⟩
    · rw [hgrow] at hv ⊢
      cases hv
      exact ⟨rfl, rfl⟩
    · rw [hgrow]
      exact iff_of_true h (Or.inl h)
    · rw [hgrow]
      exact .swept h

/-! ### Best-first search -/

/-- A turn of a best-first search always ends well. -/
theorem Turn.of_bestFirst (hs : s.config.strategy = .bestFirst) (hpos : Tree.rootIndex < t.size)
    (hswept : (s.grow t classification rounds).2.1.Swept ↔
      t.Swept ∨ t.size < (s.grow t classification rounds).2.1.size) :
    s.Turn t classification rounds := by
  have hresult : Unviolated (s.grow t classification rounds).1 := by
    rw [result_grow]
    unfold grown
    rw [hs]
    exact Growth.bestFirst_unviolated (g := ⟨s.restart, t⟩) hpos rounds
  refine ⟨iff_of_false (not_exists.mpr hresult) fun hsearch => ?_,
    fun v hv => absurd hv (hresult v), hswept.trans (or_congr_right (and_iff_right hs).symm)⟩
  rw [hs] at hsearch
  cases hsearch.1

theorem visitsOf_grow (hs : s.config.strategy = .bestFirst) :
    (s.grow t classification rounds).2.1.visitsOf = t.visitsOf := by
  have hrun := s.grown_run classification t rounds
  rw [hs] at hrun
  rw [tree_grow]
  exact Growth.visitsOf_of_run hrun

/-- On an expanded root a best-first search measures the root at most. -/
theorem bestFirst_of_expanded (hs : s.config.strategy = .bestFirst) {n : Node P T}
    (hn : t.node? Tree.rootIndex = some n) (hexpanded : n.expanded = true)
    (h : t.Mixed s.expander.lastStage) :
    s.Turn t classification rounds ∧
      (s.grow t classification rounds).2.1.Mixed s.expander.lastStage := by
  obtain ⟨cost, s', hgrow, -⟩ := grow_of_expanded hs hn hexpanded classification rounds
  have hkeeps := s.grow_keeps t classification rounds
  have hpos := Tree.lt_size_of_node? hn
  have hsize : ¬ t.size < (s.grow t classification rounds).2.1.size := by
    rw [hgrow, Tree.size_modify]
    exact Nat.lt_irrefl t.size
  cases h with
  | balanced total h =>
    have hbalanced : (s.grow t classification rounds).2.1.Balanced s.expander.lastStage none total := by
      rw [hgrow]
      exact h.measure hn cost
    exact ⟨.of_bestFirst hs hpos (iff_of_false hbalanced.not_swept (not_or_intro h.not_swept hsize)),
      .balanced total hbalanced⟩
  | barren h =>
    have hbarren := hkeeps.barren h
    exact ⟨.of_bestFirst hs hpos (iff_of_false hbarren.not_swept (not_or_intro h.not_swept hsize)),
      .barren hbarren⟩
  | swept h =>
    have hswept := hkeeps.swept (visitsOf_grow hs) h
    exact ⟨.of_bestFirst hs hpos (iff_of_true hswept (Or.inl h)), .swept hswept⟩

end Search

namespace Tree.GrownOver

variable {p : Pipeline P T O σ} {root : Node P T} {t : Tree P T} {s : Search P T O σ ε}
  {classification : Classification O} {rounds : Nat}

/-- On a root that is not expanded, a best-first search adds nodes only if it sweeps the root. -/
theorem bestFirst_of_unexpanded (h : GrownOver p root t) (hparent : root.parent = none)
    (hchildren : root.children = #[]) (hp : s.expander.pipeline = p)
    (hs : s.config.strategy = .bestFirst) {n : Node P T} (hn : t.node? rootIndex = some n)
    (hexpanded : n.expanded = false) {total : Nat}
    (hbalanced : t.Balanced s.expander.lastStage none total) :
    s.Turn t classification rounds ∧
      (s.grow t classification rounds).2.1.Mixed s.expander.lastStage := by
  have h' : GrownOver p root (s.grow t classification rounds).2.1 := h.grow s hp classification rounds
  have hwf' := h'.grown.wellFormed hparent hchildren
  obtain rfl := (h.grown.wellFormed hparent hchildren).eq_ofRoot hn
    ((h.grown.aligned hchildren).children_eq _ n hn hexpanded)
  have hpos : rootIndex < (ofRoot n).size := lt_size_of_node? hn
  obtain ⟨m, hm, hkept⟩ := s.grow_keeps (.ofRoot n) classification rounds _ n hn
  have hvisits : m.visits = n.visits := by
    rw [← visitsOf_of_node? hm, ← visitsOf_of_node? hn, Search.visitsOf_grow hs]
  by_cases hempty : m.children = #[]
  · have heq := hwf'.eq_ofRoot hm hempty
    have hmixed : (ofRoot m).Mixed s.expander.lastStage ∧ ¬ (ofRoot m).Swept := by
      cases hmark : m.expanded with
      | false =>
        have hbalanced' := hbalanced.of_kept hkept hvisits (heq ▸ hwf') hempty hexpanded hmark
        exact ⟨.balanced total hbalanced', hbalanced'.not_swept⟩
      | true =>
        have hbarren : (ofRoot m).Barren := ⟨m, rfl, hmark, hempty⟩
        exact ⟨.barren hbarren, hbarren.not_swept⟩
    rw [← heq] at hmixed
    refine ⟨.of_bestFirst hs hpos (iff_of_false hmixed.2 (not_or_intro hbalanced.not_swept ?_)),
      hmixed.1⟩
    rw [heq]
    exact Nat.lt_irrefl 1
  · have hmark : m.expanded = true := by
      by_contra hnot
      exact hempty ((h'.grown.aligned hchildren).children_eq _ m hm (Bool.eq_false_of_not_eq_true hnot))
    have hstage : m.stage ≤ s.expander.lastStage :=
      (hp ▸ h'.built hparent hchildren).stage_le_lastStage hm hempty
    have heq : m.stage = n.stage := congrArg (·.2.1) hkept.origin
    have hzero : n.visits = 0 := hbalanced.visits_eq_zero hn hexpanded (heq ▸ hstage)
    have hswept : (s.grow (.ofRoot n) classification rounds).2.1.Swept :=
      ⟨m, hm, hmark, hempty, hvisits.trans hzero⟩
    exact ⟨.of_bestFirst hs hpos (iff_of_true hswept (Or.inr (hwf'.one_lt_size hm hempty))),
      .swept hswept⟩

/-- Every turn on a grown tree leaves a tree on which the next turn can be taken. -/
theorem turn_mixed (h : GrownOver p root t) (hparent : root.parent = none)
    (hchildren : root.children = #[]) (hp : s.expander.pipeline = p)
    (hmixed : t.Mixed s.expander.lastStage) :
    s.Turn t classification rounds ∧
      (s.grow t classification rounds).2.1.Mixed s.expander.lastStage := by
  have hwf := h.grown.wellFormed hparent hchildren
  cases hs : s.config.strategy with
  | treeSearch =>
    cases hmixed with
    | balanced total hbalanced => exact Search.treeSearch_of_balanced hs hbalanced
    | barren hbarren => exact Search.treeSearch_of_barren hs hwf hbarren
    | swept hswept => exact Search.treeSearch_of_swept hs hwf hswept
  | bestFirst =>
    obtain ⟨n, hn⟩ := exists_node? (show rootIndex < t.size from hwf.size_pos)
    cases hexpanded : n.expanded with
    | true => exact Search.bestFirst_of_expanded hs hn hexpanded hmixed
    | false =>
      have hnot : ∀ m, t.node? rootIndex = some m → ¬ m.expanded = true := by
        intro m hm
        rw [hn] at hm
        cases hm
        exact Bool.eq_false_iff.mp hexpanded
      cases hmixed with
      | balanced total hbalanced =>
        exact h.bestFirst_of_unexpanded hparent hchildren hp hs hn hexpanded hbalanced
      | barren hbarren =>
        obtain ⟨m, hm, hmark, -⟩ := hbarren
        exact absurd hmark (hnot m hm)
      | swept hswept =>
        obtain ⟨m, hm, hmark, -⟩ := hswept
        exact absurd hmark (hnot m hm)

theorem mixed {program : P} {stage : Stage} (h : GrownOver p (.root program stage) t) :
    t.Mixed (p.lastStage?.getD 0) := by
  induction h with
  | root => exact .balanced 0 (balanced_ofRoot _ program stage)
  | grow h s hp classification rounds ih =>
    subst hp
    exact (h.turn_mixed rfl rfl rfl ih).2

/-- On a tree that searches of both strategies have grown, a tree search of one round or more stops with
a violation if a best-first search has swept the root; all other turns end without one. The root is swept
when a best-first search adds the first nodes, and stays so. In the course of a turn all links of the tree
fit together, and no cost is stored twice. -/
theorem violation_iff_swept {program : P} {stage : Stage} (h : GrownOver p (.root program stage) t)
    (s : Search P T O σ ε) (hp : s.expander.pipeline = p) (classification : Classification O)
    (rounds : Nat) :
    ¬ (ofRoot (.root program stage : Node P T)).Swept ∧ s.Turn t classification rounds ∧
      (∀ g, Growth.Run classification s.config.strategy ⟨s.restart, t⟩ g → g.tree.WellFormed) ∧
      ∀ (m : Meter P T ε) (n : Node P T), n.evaluation = some (m.measure n).1 ∧ (m.measure n).2.1 = n ∨
        n.setEvaluation (m.measure n).1 = .ok (m.measure n).2.1 := by
  subst hp
  refine ⟨(balanced_ofRoot 0 program stage).not_swept, (h.turn_mixed rfl rfl rfl h.mixed).1,
    fun g hrun => ?_, Meter.measure_eq_setEvaluation⟩
  exact hrun.reaches.moves.preserve WellFormed.move (h.grown.wellFormed rfl rfl)

/-- After a best-first search of one round, a tree search stops in its first round. -/
theorem violation_iff_swept_unsorted :
    GrownOver Search.twoLeaves.expander.pipeline (.root 0 0) Search.unsortedTree ∧
      Search.unsortedTree.Swept ∧ Search.twoLeaves.Turn Search.unsortedTree .empty 1 ∧
      ∃ v, (Search.twoLeaves.grow Search.unsortedTree .empty 1).1 = .error (.violation v) := by
  obtain ⟨s, hgrow, -⟩ := Search.grow_unsortedLeaves
  have h : GrownOver Search.twoLeaves.expander.pipeline (.root 0 0) Search.unsortedTree := by
    have h : GrownOver Search.twoLeaves.expander.pipeline (.root 0 0)
        (Search.unsortedLeaves.grow (.ofRoot (.root 0 0)) .empty 1).2.1 :=
      .grow .root Search.unsortedLeaves rfl .empty 1
    rwa [hgrow] at h
  have hswept : Search.unsortedTree.Swept := ⟨_, rfl, rfl, by decide, rfl⟩
  obtain ⟨-, hturn, -⟩ := h.violation_iff_swept Search.twoLeaves rfl .empty 1
  exact ⟨h, hswept, hturn, hturn.violation_iff.mpr ⟨rfl, Nat.one_pos, hswept⟩⟩

end Tree.GrownOver

/-- Two searches over a pipeline that never fails, the second of which stops below the unvisited root. -/
theorem Search.exists_violation_swept :
    ∃ t s, unsortedLeaves.grow (.ofRoot (.root 0 0)) .empty 1 = (.ok 1, t, s) ∧
      unsortedLeaves.config.validate = .ok () ∧ twoLeaves.config.validate = .ok () ∧
      twoLeaves.expander.pipeline = unsortedLeaves.expander.pipeline ∧
      twoLeaves.expander.pipeline ≠ [] ∧ twoLeaves.expander.pipeline.NeverFails ∧
      twoLeaves.config.strategy = .treeSearch ∧
      (twoLeaves.grow t .empty 1).1 = .error (.violation (.unvisited Tree.rootIndex)) := by
  obtain ⟨s, hgrow, -⟩ := grow_unsortedLeaves
  refine ⟨unsortedTree, s, hgrow, by decide, by decide, rfl, List.cons_ne_nil _ _, ?_, rfl, ?_⟩
  · intro phase hphase n stage classification memory
    obtain rfl := List.mem_singleton.mp hphase
    exact ⟨_, rfl⟩
  · have hswept : unsortedTree.Swept := ⟨_, rfl, rfl, by decide, rfl⟩
    rw [result_grow, grown, show twoLeaves.config.strategy = .treeSearch from rfl]
    simp only
    rw [Growth.treeSearch_of_swept hswept Nat.one_pos]

end LoopTuner
