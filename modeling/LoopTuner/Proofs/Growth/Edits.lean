import LoopTuner.Proofs.Growth.Extraction

/-!
# Trees that are built in any way

A caller can add nodes to a tree one by one, and expand, mark, measure, back up and grow it in any order
(`Tree.Edit`). Every tree that is built in this way from a root is well-formed, all walks on it end, and
if its nodes come from pipelines of a limited length then so are its stages and its walks
(`Tree.shaped_of_edits`).
-/

namespace LoopTuner

variable {P T O σ ε : Type}

namespace Tree

/-- One change of a tree by a caller. Under a limit, nodes are only added by expansions, whose pipelines
are no longer than the limit. -/
inductive Edit (limit : Option Nat) : Tree P T → Tree P T → Prop
  /-- A node outside of any tree has no children. -/
  | add {t t' : Tree P T} {p i : Nat} {child : Node P T} (hlimit : limit = none)
      (hchild : child.children = #[]) (h : t.addChild p child = .ok (i, t')) : Edit limit t t'
  | expand {O σ : Type} (x : Expander P T O σ) (t : Tree P T) (i : Nat)
      (classification : Classification O) (hlimit : ∀ m ∈ limit, x.pipeline.length ≤ m) :
      Edit limit t (x.expand t i classification).2.1
  | backup {t t' : Tree P T} {i : Nat} {cost : Float} (h : t.backup i cost = .ok t') :
      Edit limit t t'
  | measure {ε : Type} (m : Meter P T ε) (t : Tree P T) (i : Nat) :
      Edit limit t (t.modify i fun n => (m.measure n).2.1)
  | mark (t : Tree P T) (i : Nat) : Edit limit t (t.modify i Node.markExpanded)
  | grow {O σ ε : Type} (s : Search P T O σ ε) (t : Tree P T) (classification : Classification O)
      (rounds : Nat) (hlimit : ∀ m ∈ limit, s.expander.pipeline.length ≤ m) :
      Edit limit t (s.grow t classification rounds).2.1

/-- A chain of changes. -/
abbrev Edits (limit : Option Nat) : Tree P T → Tree P T → Prop :=
  Relation.ReflTransGen (Edit limit)

/-- The nodes that a pipeline within the limit has candidates for. -/
def BelowLimit (limit : Option Nat) (n : Node P T) (_ : Candidate P T) : Prop :=
  ∀ m ∈ limit, n.stage < m

/-! ## Changes as moves -/

theorem Move.mono {proposes proposes' : Node P T → Candidate P T → Prop}
    (h : ∀ n c, proposes n c → proposes' n c) {t t' : Tree P T} (hmove : Move proposes t t') :
    Move proposes' t t' := by
  cases hmove with
  | measure hn hfirst => exact .measure hn hfirst
  | expand hn hkids =>
    refine .expand hn fun kid hkid => ?_
    obtain ⟨hexpanded, c, hproposes, hbecomes⟩ := hkids kid hkid
    exact ⟨hexpanded, c, h _ c hproposes, hbecomes⟩
  | backup i cost => exact .backup t i cost

theorem Moves.mono {proposes proposes' : Node P T → Candidate P T → Prop}
    (h : ∀ n c, proposes n c → proposes' n c) {t t' : Tree P T} (hmoves : Moves proposes t t') :
    Moves proposes' t t' :=
  Relation.ReflTransGen.mono (fun _ _ => Move.mono h) _ _ hmoves

theorem belowLimit_of_proposes {limit : Option Nat} {p : Pipeline P T O σ}
    (hlimit : ∀ m ∈ limit, p.length ≤ m) {classification : Classification O} (n : Node P T)
    (c : Candidate P T) (h : p.Proposes classification n c) : BelowLimit limit n c := by
  intro m hm
  obtain ⟨phase, -, -, hphase, -⟩ := h
  exact Nat.lt_of_lt_of_le (List.getElem?_eq_some_iff.mp hphase).1 (hlimit m hm)

/-- Apart from adding a single node, changes are chains of moves. -/
theorem Edit.cases {limit : Option Nat} {t t' : Tree P T} (h : Edit limit t t') :
    (limit = none ∧ ∃ p pn child, t.node? p = some pn ∧ child.parent = some p ∧
      child.stage = pn.stage + 1 ∧ child.children = #[] ∧ t' = t.withChildren p [child]) ∨
    Moves (BelowLimit limit) t t' := by
  cases h with
  | @add _ _ p i child hlimit hchild h =>
    refine Or.inl ⟨hlimit, p, ?_⟩
    have hadd := h
    unfold addChild at h
    split_ifs at h with hparent
    cases hpn : t.node? p with
    | none =>
      rw [hpn] at h
      cases h
    | some pn =>
      rw [hpn] at h
      simp only at h
      split_ifs at h with hstage
      rw [addChild_eq hpn hparent hstage] at hadd
      cases hadd
      exact ⟨pn, child, rfl, hparent, hstage, hchild, rfl⟩
  | expand x _ i classification hlimit =>
    exact Or.inr (Moves.mono (belowLimit_of_proposes hlimit) (x.expand_moves t i classification).1)
  | @backup _ _ i cost h =>
    refine Or.inr ?_
    unfold Tree.backup at h
    split_ifs at h with hi
    cases h
    exact .single (.backup t i cost)
  | measure m _ i =>
    refine Or.inr ?_
    cases hn : t.node? i with
    | none =>
      -- without such a node nothing changes, here and when marking
      rw [modify_of_none hn]
    | some n =>
      rw [modify_congr (g := fun _ => { n with evaluation := some (m.measure n).1 }) hn
        (m.measure_node n)]
      refine .single (.measure hn fun c hc => ?_)
      rw [Meter.measure_of_evaluation hc]
  | mark _ i =>
    refine Or.inr ?_
    cases hn : t.node? i with
    | none =>
      rw [modify_of_none hn]
    | some n =>
      rw [show t.modify i Node.markExpanded = t.expandedBy i [] from (withChildren_nil _ i).symm]
      exact .single (.expand hn (List.forall_mem_nil _))
  | grow s _ classification rounds hlimit =>
    exact Or.inr (Moves.mono (belowLimit_of_proposes hlimit) (s.grow_moves classification t rounds))

/-! ## What changes keep -/

/-- A tree that was built from a root at a stage. -/
structure Built (limit : Option Nat) (start : Stage) (t : Tree P T) : Prop where
  wellFormed : t.WellFormed
  root : ∃ root, t.node? rootIndex = some root ∧ root.stage = start
  stage_le : ∀ m ∈ limit, ∀ i n, t.node? i = some n → n.stage ≤ max start m

theorem built_ofRoot {root : Node P T} (hparent : root.parent = none)
    (hchildren : root.children = #[]) (limit : Option Nat) : (ofRoot root).Built limit root.stage where
  wellFormed := wellFormed_ofRoot hparent hchildren
  root := ⟨root, rfl, rfl⟩
  stage_le m _ i n hn := by
    obtain ⟨-, rfl⟩ := node?_ofRoot hn
    exact Nat.le_max_left n.stage m

theorem Built.move {limit : Option Nat} {start : Stage} {t t' : Tree P T}
    (hmove : Move (BelowLimit limit) t t') (h : t.Built limit start) : t'.Built limit start where
  wellFormed := h.wellFormed.move hmove
  root := by
    obtain ⟨root, hroot, hstage⟩ := h.root
    obtain ⟨root', hroot', horigin⟩ := hmove.exists_node? hroot
    have heq : root'.stage = root.stage := congrArg (·.2.1) horigin
    exact ⟨root', hroot', heq.trans hstage⟩
  stage_le m hm i n' hn' := by
    rcases hmove.node? hn' with ⟨n, hn, horigin⟩ | ⟨p, pn, c, hpn, hbelow, offset, evaluation, rfl⟩
    · have heq : n.stage = n'.stage := congrArg (·.2.1) horigin
      rw [← heq]
      exact h.stage_le m hm i n hn
    · exact Nat.le_trans (hbelow m hm) (Nat.le_max_right start m)

/-- A single node is only added if there is no limit. -/
theorem Built.add {start : Stage} {t : Tree P T} (h : t.Built none start) {p : Nat}
    {pn child : Node P T} (hp : t.node? p = some pn) (hparent : child.parent = some p)
    (hstage : child.stage = pn.stage + 1) (hchildren : child.children = #[]) :
    (t.withChildren p [child]).Built none start where
  wellFormed := by
    refine h.wellFormed.withChildren hp fun kid hkid => ?_
    obtain rfl := List.mem_singleton.mp hkid
    exact ⟨hparent, hstage, hchildren⟩
  root := by
    obtain ⟨root, hroot, hstage⟩ := h.root
    have hlt : rootIndex < t.size := lt_size_of_node? hroot
    rw [node?_withChildren_of_lt p [child] hlt, hroot]
    split_ifs
    · exact ⟨_, rfl, hstage⟩
    · exact ⟨root, rfl, hstage⟩
  stage_le m hm := by cases hm

theorem Built.edit {limit : Option Nat} {start : Stage} {t t' : Tree P T} (hedit : Edit limit t t')
    (h : t.Built limit start) : t'.Built limit start := by
  rcases hedit.cases with ⟨rfl, p, pn, child, hp, hparent, hstage, hchildren, rfl⟩ | hmoves
  · exact h.add hp hparent hstage hchildren
  · exact hmoves.preserve Built.move h

/-! ## The shape -/

/-- All nodes but the first have a parent, which comes before them, and are its children once. -/
structure Shaped (t : Tree P T) : Prop where
  root : ∃ root, t.node? rootIndex = some root ∧ root.parent = none
  inner : ∀ i n, t.node? i = some n → i ≠ rootIndex →
    ∃ p pn, n.parent = some p ∧ p < i ∧ t.node? p = some pn ∧ n.stage = pn.stage + 1 ∧
      ∀ q qn, t.node? q = some qn → qn.children.toList.count i = if q = p then 1 else 0
  ascending : ∀ i n, t.node? i = some n → n.children.toList.Pairwise (· < ·)

theorem WellFormed.shaped {t : Tree P T} (ht : t.WellFormed) : t.Shaped where
  root := by
    obtain ⟨root, hroot⟩ := exists_node? ht.size_pos
    exact ⟨root, hroot, (parent?_of_node? hroot).symm.trans ht.parent_root⟩
  inner i n hn hi := by
    obtain ⟨p, hp, hlt⟩ := ht.parent_lt i (Nat.pos_of_ne_zero hi) (lt_size_of_node? hn)
    have hparent : n.parent = some p := (parent?_of_node? hn).symm.trans hp
    obtain ⟨pn, hpn⟩ := exists_node? (Nat.lt_trans hlt (lt_size_of_node? hn))
    refine ⟨p, pn, hparent, hlt, hpn, ht.stage_eq i n p pn hn hparent hpn, fun q qn hqn => ?_⟩
    have hmem : i ∈ qn.children.toList ↔ q = p := by
      rw [Array.mem_toList_iff, ht.mem_children_iff q qn i hqn, hp, Option.some.injEq, eq_comm]
    split_ifs with hqp
    · exact List.count_eq_one_of_mem (ht.nodup_children hqn) (hmem.mpr hqp)
    · exact List.count_eq_zero.mpr fun hin => hqp (hmem.mp hin)
  ascending := ht.ascending

/-! ## The walks -/

/-- The loops over a tree end: each is a walk that goes on until it cannot, and does what its steps say
on every node that it passes. -/
structure WalksEnd (t : Tree P T) : Prop where
  up : ∀ i, i < t.size → ∃ path, Trace t.parent? i path ∧ t.pathToRoot i = i :: path
  backup : ∀ i, i < t.size → ∃ path, Trace t.parent? i path ∧
    ∀ cost, t.backup i cost = .ok (t.recordAll cost (i :: path))
  select : ∀ (d : Descent) i, i < t.size → ∃ path, Trace (d.next? t) i path ∧
    d.select t i = Descent.settle t i path
  extract : ∃ path, Trace t.bestChild? rootIndex path ∧
    ∀ {O σ ε : Type} (s : Search P T O σ ε),
      Growth.extractBest ⟨s, t⟩ = Growth.measureAlong rootIndex path ⟨s, t⟩

theorem WellFormed.walksEnd {t : Tree P T} (ht : t.WellFormed) : t.WalksEnd where
  up i hi := ht.exists_trace_up hi
  backup i hi := by
    obtain ⟨path, htrace, hpath⟩ := ht.exists_trace_up hi
    refine ⟨path, htrace, fun cost => ?_⟩
    unfold Tree.backup
    rw [if_pos hi, hpath]
  select d i hi := by
    obtain ⟨path, htrace⟩ := ht.exists_trace (d.downward_next ht) hi
    exact ⟨path, htrace, Descent.select_of_trace ht htrace hi⟩
  extract := by
    obtain ⟨path, htrace⟩ :=
      ht.exists_trace ht.downward_bestChild (show rootIndex < t.size from ht.size_pos)
    exact ⟨path, htrace, fun s => Growth.extractBest_of_trace (g := ⟨s, t⟩) ht htrace⟩

/-- No stage is further than both `start` and the limit, and no walk passes more nodes than there are stages
between these. -/
structure Limited (start m : Stage) (t : Tree P T) : Prop where
  stage_le : ∀ i n, t.node? i = some n → n.stage ≤ max start m
  up_le : ∀ i, i < t.size → (t.pathToRoot i).length ≤ (m - start) + 1
  select_le : ∀ (d : Descent) i path, Trace (d.next? t) i path → (i :: path).length ≤ (m - start) + 1
  extract_le : ∀ path, Trace t.bestChild? rootIndex path →
    (rootIndex :: path).length ≤ (m - start) + 1

theorem WellFormed.root_stage_le {t : Tree P T} (ht : t.WellFormed) {root : Node P T}
    (hroot : t.node? rootIndex = some root) {i : Nat} {n : Node P T} (hn : t.node? i = some n) :
    root.stage ≤ n.stage := by
  obtain ⟨path, -, hpath⟩ := ht.exists_trace_up (lt_size_of_node? hn)
  have hlength := ht.length_pathToRoot hroot hn
  rw [hpath, List.length_cons, Nat.add_right_comm] at hlength
  rw [← Nat.add_right_cancel hlength]
  exact Nat.le_add_left _ _

theorem Built.limited {limit : Option Nat} {start m : Stage} {t : Tree P T}
    (h : t.Built limit start) (hm : m ∈ limit) : t.Limited start m := by
  obtain ⟨root, hroot, hstart⟩ := h.root
  have hstages := h.stage_le m hm
  have hmax : (max start m : Nat) - start = m - start := by omega
  have hdown : ∀ {next}, t.Downward next → ∀ {i path}, Trace next i path →
      (i :: path).length ≤ (m - start) + 1 := by
    intro next hnext i path htrace
    rw [List.length_cons, ← hmax]
    cases htrace with
    | stop _ => exact Nat.le_add_left 1 _
    | step hj rest =>
      -- a place that leads on has a node
      have hparent := hnext i _ hj
      have hi := Nat.lt_trans (h.wellFormed.rooted.parent?_lt hparent) (lt_size_of_parent? hparent)
      obtain ⟨n, hn⟩ := exists_node? hi
      have hlength := h.wellFormed.length_le_of_trace hnext hstages hn (.step hj rest)
      have hstage := h.wellFormed.root_stage_le hroot hn
      rw [hstart] at hstage
      exact Nat.succ_le_succ (Nat.le_sub_of_add_le (Nat.le_trans (Nat.add_le_add_left hstage _) hlength))
  exact {
    stage_le := hstages
    up_le := by
      intro i hi
      obtain ⟨n, hn⟩ := exists_node? hi
      have hlength := h.wellFormed.length_pathToRoot hroot hn
      rw [hstart] at hlength
      have hle : (t.pathToRoot i).length + start ≤ max start m + 1 :=
        hlength.trans_le (Nat.succ_le_succ (hstages i n hn))
      calc (t.pathToRoot i).length ≤ max start m + 1 - start := Nat.le_sub_of_add_le hle
        _ = (max start m - start) + 1 := Nat.sub_add_comm (Nat.le_max_left start m)
        _ = (m - start) + 1 := congrArg (· + 1) hmax
    select_le := fun d i path => hdown (d.downward_next h.wellFormed)
    extract_le := fun path => hdown h.wellFormed.downward_bestChild }

/-- A tree that was built from a root in any way has a sound shape, and all walks on it end. If its nodes
come from pipelines of a limited length, then its stages and its walks are limited too. -/
theorem shaped_of_edits {root : Node P T} (hparent : root.parent = none)
    (hchildren : root.children = #[]) {limit : Option Nat} {t : Tree P T}
    (h : Edits limit (.ofRoot root) t) :
    t.Shaped ∧ t.WalksEnd ∧ ∀ m ∈ limit, t.Limited root.stage m := by
  have hbuilt : t.Built limit root.stage := by
    induction h with
    | refl => exact built_ofRoot hparent hchildren limit
    | tail _ hedit ih => exact ih.edit hedit
  exact ⟨hbuilt.wellFormed.shaped, hbuilt.wellFormed.walksEnd, fun m hm => hbuilt.limited hm⟩

/-- A tree that was grown, and a node that is then added below the second of its leaves. -/
theorem shaped_of_edits_twoLeaves :
    let t := (Search.twoLeaves.grow (.ofRoot (.root 0 0)) .empty 1).2.1
    t.size = 3 ∧ t.Shaped ∧ t.WalksEnd ∧ t.Limited 0 1 ∧
      ∃ t', t.addChild 2 (.fresh (some 2) 2 0 5) = .ok (3, t') ∧ t'.Shaped ∧ t'.WalksEnd := by
  intro t
  have hgrow : Edits (some 1) (.ofRoot (.root 0 0)) t := by
    refine .single (.grow Search.twoLeaves _ .empty 1 fun m hm => ?_)
    obtain rfl : 1 = m := Option.some.inj hm
    exact Nat.le_refl 1
  obtain ⟨hshaped, hends, hlimited⟩ := shaped_of_edits rfl rfl hgrow
  obtain ⟨t', hadd⟩ : ∃ t', t.addChild 2 (.fresh (some 2) 2 0 5) = .ok (3, t') := ⟨_, rfl⟩
  have hedits : Edits none (.ofRoot (.root 0 0)) t' := by
    refine .tail (.single (.grow Search.twoLeaves _ .empty 1 fun m hm => ?_)) (.add rfl rfl hadd)
    cases hm
  obtain ⟨hshaped', hends', -⟩ := shaped_of_edits rfl rfl hedits
  exact ⟨rfl, hshaped, hends, hlimited 1 rfl, t', hadd, hshaped', hends'⟩

end Tree

end LoopTuner
