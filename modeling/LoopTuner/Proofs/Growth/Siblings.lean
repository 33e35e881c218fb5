import LoopTuner.Proofs.Growth.Changes

/-!
# Sibling indices

The sibling index of a node is fixed when its candidate is proposed. Below a node that a tree search
expanded, the indices are the positions among the children. A sweep lists the children by cost, and keeps
the order of their indices only among equal costs (`Tree.SiblingsBy`, `Tree.siblings_of_grown`), so there
the index of a child need not be its position (`Search.exists_misplaced_sibling`).
-/

namespace LoopTuner

variable {P T O σ ε : Type}

namespace Tree

/-- The sibling index of node `i`. -/
def siblingOf (t : Tree P T) (i : Nat) : Option Nat := (t.node? i).bind fun n => some n.siblingIndex

/-- Node `i` is measured at this cost and has this sibling index. -/
def Labelled (t : Tree P T) (i : Nat) (label : Float × Nat) : Prop :=
  t.evaluationOf i = some label.1 ∧ t.siblingOf i = some label.2

/-- The sibling indices of the children that an expansion by this strategy adds. Those of a sweep are the
numbers up to the count of the children, in the order of the costs and then of the numbers. -/
def SiblingsBy (t : Tree P T) (children : List Nat) : Strategy → Prop
  | .treeSearch => ∀ j i, children[j]? = some i → t.siblingOf i = some j
  | .bestFirst => ∃ labels, List.Forall₂ t.Labelled children labels ∧
      (labels.map Prod.snd).Perm (List.range children.length) ∧
      labels.Pairwise fun a b =>
        Cost.rank a.1 < Cost.rank b.1 ∨ Cost.rank a.1 = Cost.rank b.1 ∧ a.2 < b.2

/-- Every family of siblings was added at once, to a node that had no children before. -/
structure Aligned (allowed : Strategy → Prop) (t : Tree P T) : Prop where
  children_eq : ∀ i n, t.node? i = some n → n.expanded = false → n.children = #[]
  siblings : ∀ i n, t.node? i = some n →
    n.children = #[] ∨ ∃ strategy, allowed strategy ∧ t.SiblingsBy n.children.toList strategy

end Tree

/-! ## Sorting -/

theorem Cost.le_eq_true_iff {x y : Float} : Cost.le x y = true ↔ Cost.rank x ≤ Cost.rank y := by
  unfold Cost.le Cost.cmp
  exact Std.isLE_compare

/-- The order in which measured nodes are sorted is that of their costs, and then that of their places. -/
theorem Growth.exists_sortMeasured (measured : List (Float × Node P T)) :
    ∃ sorted : List ((Float × Node P T) × Nat), sorted.map Prod.fst = sortMeasured measured ∧
      sorted.Perm measured.zipIdx ∧
      sorted.Pairwise fun a b => Cost.rank a.1.1 < Cost.rank b.1.1 ∨
        Cost.rank a.1.1 = Cost.rank b.1.1 ∧ a.2 < b.2 := by
  let le := fun a b : Float × Node P T => Cost.le a.1 b.1
  have htrans : ∀ a b c, le a b = true → le b c = true → le a c = true := by
    intro a b c hab hbc
    rw [Cost.le_eq_true_iff] at hab hbc ⊢
    exact UInt64.le_trans hab hbc
  have htotal : ∀ a b, (le a b || le b a) = true := by
    intro a b
    rw [Bool.or_eq_true, Cost.le_eq_true_iff, Cost.le_eq_true_iff]
    exact UInt64.le_total _ _
  let sorted := measured.zipIdx.mergeSort (List.zipIdxLE le)
  have hperm : sorted.Perm measured.zipIdx := List.mergeSort_perm _ _
  have hsorted := List.pairwise_mergeSort (List.zipIdxLE_trans htrans) (List.zipIdxLE_total htotal)
    measured.zipIdx
  have hnodup : (sorted.map Prod.snd).Nodup := by
    rw [(hperm.map Prod.snd).nodup_iff, List.zipIdx_map_snd]
    exact List.nodup_range'
  refine ⟨sorted, List.mergeSort_zipIdx, hperm, ?_⟩
  refine (hsorted.and (List.pairwise_map.mp hnodup)).imp ?_
  rintro a b ⟨hle, hne⟩
  unfold List.zipIdxLE at hle
  split_ifs at hle with hab hba
  · rw [Cost.le_eq_true_iff] at hab hba
    exact Or.inr ⟨UInt64.le_antisymm hab hba, Nat.lt_of_le_of_ne (of_decide_eq_true hle) hne⟩
  · rw [Cost.le_eq_true_iff] at hab hba
    exact Or.inl (UInt64.not_le.mp hba)

/-! ## New siblings -/

theorem Candidate.siblingIndex_toNodes {candidates : List (Candidate P T)} {n : Node P T} {i : Nat}
    (hchildren : n.children = #[]) {k : Nat} {kid : Node P T}
    (h : (Candidate.toNodes candidates n i)[k]? = some kid) : kid.siblingIndex = k := by
  unfold Candidate.toNodes at h
  rw [List.getElem?_mapIdx] at h
  obtain ⟨c, -, rfl⟩ := Option.map_eq_some_iff.mp h
  show n.children.size + k = k
  rw [hchildren]
  exact Nat.zero_add k

/-- The sibling indices of the new nodes of a sweep. -/
theorem Growth.exists_labels_sweepKids (m : Meter P T ε) (candidates : List (Candidate P T))
    {n : Node P T} (i : Nat) (hchildren : n.children = #[]) :
    ((sweepKids m candidates n i).map fun e => e.2.siblingIndex).Perm
        (List.range (sweepKids m candidates n i).length) ∧
      (sweepKids m candidates n i).Pairwise fun a b => Cost.rank a.1 < Cost.rank b.1 ∨
        Cost.rank a.1 = Cost.rank b.1 ∧ a.2.siblingIndex < b.2.siblingIndex := by
  let measured := (m.measureAll (Candidate.toNodes candidates n i)).1
  have hindex : ∀ e ∈ measured.zipIdx, e.1.2.siblingIndex = e.2 := by
    rintro ⟨e, k⟩ he
    obtain ⟨kid, hkid, hmeasured⟩ := Meter.getElem?_measureAll (List.mem_zipIdx_iff_getElem?.mp he)
    have hk := Candidate.siblingIndex_toNodes hchildren hkid
    rwa [hmeasured]
  obtain ⟨sorted, hsorted, hperm, hpairwise⟩ := exists_sortMeasured measured
  have hindices : (sorted.map fun e => e.1.2.siblingIndex) = sorted.map Prod.snd :=
    List.map_congr_left fun e he => hindex e (hperm.mem_iff.mp he)
  have hkids : sweepKids m candidates n i = sorted.map Prod.fst := hsorted.symm
  rw [hkids, List.map_map, List.length_map, List.pairwise_map]
  constructor
  · show (sorted.map fun e => e.1.2.siblingIndex).Perm _
    rw [hindices, hperm.length_eq, List.length_zipIdx, List.range_eq_range', ← List.zipIdx_map_snd]
    exact hperm.map Prod.snd
  · refine hpairwise.imp_of_mem fun {a b} ha hb hab => ?_
    rw [hindex a (hperm.mem_iff.mp ha), hindex b (hperm.mem_iff.mp hb)]
    exact hab

namespace Tree

theorem siblingOf_of_node? {t : Tree P T} {i : Nat} {n : Node P T} (h : t.node? i = some n) :
    t.siblingOf i = some n.siblingIndex := by
  unfold siblingOf
  rw [h]
  rfl

/-- The children of a node after its expansion. -/
theorem siblingsBy_expandedBy {strategy : Strategy} {n : Node P T} {i : Nat}
    {kids : List (Node P T)} (hkids : n.Family i strategy kids) (hchildren : n.children = #[])
    (t : Tree P T) : (t.expandedBy i kids).SiblingsBy (List.range' t.size kids.length) strategy := by
  have hnew {k : Nat} {kid : Node P T} (hk : kids[k]? = some kid) :
      (t.expandedBy i kids).node? (t.size + k) = some kid := by
    rw [node?_expandedBy_new, hk]
  cases hkids with
  | kept candidates =>
    intro j c hc
    obtain ⟨hlt, rfl⟩ := List.getElem?_eq_some_iff.mp hc
    rw [List.length_range'] at hlt
    obtain ⟨kid, hkid⟩ : ∃ kid, (Candidate.toNodes candidates n i)[j]? = some kid :=
      ⟨_, List.getElem?_eq_getElem hlt⟩
    rw [List.getElem_range', Nat.one_mul, siblingOf_of_node? (hnew hkid),
      Candidate.siblingIndex_toNodes hchildren hkid]
  | swept m candidates =>
    obtain ⟨hperm, hpairwise⟩ := Growth.exists_labels_sweepKids m candidates i hchildren
    refine ⟨(Growth.sweepKids m candidates n i).map fun e => (e.1, e.2.siblingIndex), ?_, ?_, ?_⟩
    · rw [List.length_map, List.forall₂_map_right_iff, List.forall₂_iff_get]
      refine ⟨List.length_range', fun k hk hk' => ?_⟩
      have he : (Growth.sweepKids m candidates n i)[k] ∈ Growth.sweepKids m candidates n i :=
        List.getElem_mem hk'
      have hnode := hnew (k := k) (by rw [List.getElem?_map, List.getElem?_eq_getElem hk']; rfl)
      rw [List.get_eq_getElem, List.getElem_range', Nat.one_mul]
      exact ⟨(evaluationOf_of_node? hnode).trans (Growth.new_of_mem_sweepKids he).1,
        siblingOf_of_node? hnode⟩
    · rw [List.map_map, List.length_range', List.length_map]
      exact hperm
    · exact List.pairwise_map.mpr hpairwise

/-! ## Changes -/

variable {strategy : Strategy} {allowed : Strategy → Prop} {t t' : Tree P T}

/-- A sibling index is final. -/
theorem Change.siblingOf_eq (h : Change strategy t t') {i : Nat} (hi : i < t.size) :
    t'.siblingOf i = t.siblingOf i := by
  have hagree {t' : Tree P T} (h : Agree Node.siblingIndex t t') : t'.siblingOf i = t.siblingOf i :=
    h.bind_eq (fun _ _ hindex => congrArg some hindex) i
  cases h with
  | none => rfl
  | @measure j n _ hn _ _ =>
    refine hagree (Agree.modify t j fun m hm => ?_)
    rw [hn] at hm
    cases hm
    rfl
  | backup path cost => exact hagree (Agree.recordAll (fun _ _ => rfl) t cost path)
  | expand _ _ _ => exact bind_node?_expandedBy (fun _ _ => rfl) _ _ hi

theorem lt_size_of_siblingOf {i k : Nat} (h : t.siblingOf i = some k) : i < t.size := by
  obtain ⟨n, hn, -⟩ := Option.bind_eq_some_iff.mp h
  exact lt_size_of_node? hn

/-- Siblings keep their costs and indices. -/
theorem SiblingsBy.change {children : List Nat} {strategy' : Strategy}
    (h : t.SiblingsBy children strategy') (hchange : Change strategy t t') :
    t'.SiblingsBy children strategy' := by
  have hsibling {i k : Nat} (hi : t.siblingOf i = some k) : t'.siblingOf i = some k := by
    rw [hchange.siblingOf_eq (lt_size_of_siblingOf hi), hi]
  cases strategy' with
  | treeSearch => exact fun j i hi => hsibling (h j i hi)
  | bestFirst =>
    obtain ⟨labels, hlabels, hperm, hpairwise⟩ := h
    exact ⟨labels, hlabels.imp fun _ _ hl => ⟨hchange.stored hl.1, hsibling hl.2⟩, hperm, hpairwise⟩

/-- Changes other than an expansion leave children and marks alone. -/
theorem Aligned.of_agree (h : t.Aligned allowed) (hchange : Change strategy t t')
    (hagree : Agree (fun n => (n.children, n.expanded)) t t') : t'.Aligned allowed where
  children_eq i n' hn' hexpanded := by
    obtain ⟨n, hn, hview⟩ := hagree.node? hn'
    obtain ⟨hchildren, hmark⟩ := Prod.mk.injEq _ _ _ _ ▸ hview
    rw [← hchildren]
    exact h.children_eq i n hn (hmark.trans hexpanded)
  siblings i n' hn' := by
    obtain ⟨n, hn, hview⟩ := hagree.node? hn'
    obtain ⟨hchildren, -⟩ := Prod.mk.injEq _ _ _ _ ▸ hview
    rw [← hchildren]
    exact (h.siblings i n hn).imp_right fun ⟨s, hs, hsiblings⟩ => ⟨s, hs, hsiblings.change hchange⟩

theorem Aligned.change (hallowed : allowed strategy) (hchange : Change strategy t t')
    (h : t.Aligned allowed) : t'.Aligned allowed := by
  have hchange' := hchange
  cases hchange with
  | none => exact h
  | @measure i n cost hn _ _ =>
    refine h.of_agree hchange' (Agree.modify t i fun m hm => ?_)
    rw [hn] at hm
    cases hm
    rfl
  | backup path cost => exact h.of_agree hchange' (Agree.recordAll (fun _ _ => rfl) t cost path)
  | @expand i n kids hn hkids hexpanded =>
    refine ⟨fun j m' hm' hmark => ?_, fun j m' hm' => ?_⟩
    · rcases Nat.lt_or_ge j t.size with hlt | hge
      · obtain ⟨m, hm, rfl⟩ := node?_expandedBy_old hlt hm'
        split_ifs at hmark ⊢
        · cases hmark
        · exact h.children_eq j m hm hmark
      · obtain ⟨k, rfl⟩ := Nat.exists_eq_add_of_le hge
        rw [node?_expandedBy_new] at hm'
        exact hkids.children_eq (List.mem_of_getElem? hm')
    · rcases Nat.lt_or_ge j t.size with hlt | hge
      · obtain ⟨m, hm, rfl⟩ := node?_expandedBy_old hlt hm'
        have hold := (h.siblings j m hm).imp_right fun ⟨s, hs, hsiblings⟩ =>
          (⟨s, hs, hsiblings.change hchange'⟩ : ∃ s, allowed s ∧ _)
        split_ifs with hij
        · subst hij
          rw [hn] at hm
          cases hm
          -- an expanded node gets no new children, another one had none
          cases hmark : n.expanded with
          | true =>
            rw [hexpanded hmark] at hold ⊢
            rw [List.length_nil, List.range'_zero, Node.adoptAll_nil]
            exact hold
          | false =>
            have hchildren := h.children_eq j n hn hmark
            refine Or.inr ⟨strategy, hallowed, ?_⟩
            rw [Node.toList_children_adoptAll (n := n.markExpanded) hchildren]
            exact siblingsBy_expandedBy hkids hchildren t
        · exact hold
      · obtain ⟨k, rfl⟩ := Nat.exists_eq_add_of_le hge
        rw [node?_expandedBy_new] at hm'
        exact Or.inl (hkids.children_eq (List.mem_of_getElem? hm'))

theorem aligned_ofRoot {root : Node P T} (hchildren : root.children = #[]) :
    (ofRoot root).Aligned allowed where
  children_eq i n hn _ := by
    obtain ⟨-, rfl⟩ := node?_ofRoot hn
    exact hchildren
  siblings i n hn := by
    obtain ⟨-, rfl⟩ := node?_ofRoot hn
    exact Or.inl hchildren

theorem Grown.aligned {root : Node P T} (h : Grown allowed root t) (hchildren : root.children = #[]) :
    t.Aligned allowed :=
  h.preserve (aligned_ofRoot hchildren) Aligned.change

end Tree

/-! ## Leaves out of order -/

theorem Growth.sortMeasured_pair {a b : Float × Node P T} (h : Cost.le a.1 b.1 = false) :
    sortMeasured [a, b] = [b, a] := by
  unfold sortMeasured
  rw [List.mergeSort]
  simp [List.MergeSort.Internal.splitInTwo, h]

namespace Search

/-- A best-first search below a root of cost ten with a leaf of cost nine and then one of cost five. -/
def unsortedLeaves : Search Nat Nat Unit Unit Unit where
  config := ⟨0, 25, 0, .bestFirst⟩
  expander :=
    ⟨[⟨.tiling, .pure fun n _ _ => .ok [.extending n 1 0, .extending n 2 1]⟩], 25, .ofSeed 0, ()⟩
  meter := .create (.pure fun n => .ok (match n.program with | 0 => 10 | 1 => 9 | _ => 5)) ()
  statistics := .zero

/-- The root and its leaves as they are measured. -/
def unsortedRoot : Node Nat Nat := { Node.root 0 0 with evaluation := some 10 }

/-- The leaf of this program, with its cost and sibling index. -/
def unsortedLeaf (program siblingIndex : Nat) (cost : Float) : Float × Node Nat Nat :=
  (cost, { (Candidate.extending unsortedRoot program siblingIndex).toNode unsortedRoot 0 siblingIndex with
    evaluation := some cost })

/-- The tree of the search after one round. -/
def unsortedTree : Tree Nat Nat :=
  (Tree.ofRoot unsortedRoot).expandedBy 0 [(unsortedLeaf 2 1 5).2, (unsortedLeaf 1 0 9).2]

/-- The growth of the tree once the root is measured. -/
def unsortedStart : Growth Nat Nat Unit Unit Unit :=
  (Growth.measure ⟨unsortedLeaves.restart, .ofRoot (.root 0 0)⟩ Tree.rootIndex).2

theorem grow_unsortedLeaves :
    ∃ s', unsortedLeaves.grow (.ofRoot (.root 0 0)) .empty 1 = (.ok 1, unsortedTree, s') ∧
      s'.config = unsortedLeaves.config := by
  let candidates : List (Candidate Nat Nat) :=
    [.extending unsortedRoot 1 0, .extending unsortedRoot 2 1]
  have hcandidates : unsortedStart.search.expander.candidates unsortedRoot 0 .empty =
      (.ok candidates, unsortedStart.search.expander) := rfl
  have hkids : Growth.sweepKids unsortedStart.search.meter candidates unsortedRoot 0 =
      [unsortedLeaf 2 1 5, unsortedLeaf 1 0 9] :=
    Growth.sortMeasured_pair (a := unsortedLeaf 1 0 9) (b := unsortedLeaf 2 1 5) (by decide)
  obtain ⟨s, g, hround, hbest, htree, hconfig⟩ : ∃ s g,
      unsortedStart.sweepRound .empty 0 0 { Sweep.start 10 with queue := [] } = (.ok s, g) ∧
        s.best = 1 ∧ g.tree = unsortedTree ∧ g.search.config = unsortedLeaves.config := by
    rw [Growth.sweepRound_eq (n := unsortedRoot) rfl, hcandidates]
    simp only [hkids]
    exact ⟨_, _, rfl, by decide, rfl, rfl⟩
  have hmeasure : Growth.measure ⟨unsortedLeaves.restart, .ofRoot (.root 0 0)⟩ Tree.rootIndex =
      (.ok 10, unsortedStart) := rfl
  have hpop : Queued.pop? (Sweep.start 10).queue = some (⟨10, 0, 0⟩, []) := rfl
  refine ⟨g.search.close g.tree.size, ?_, hconfig⟩
  refine (grow_eq_ok_iff .empty rfl hmeasure).mpr ⟨s, g, ?_, hbest, htree, rfl⟩
  unfold Growth.sweepRounds
  simp only [hpop, hround, Growth.sweepRounds]

end Search

/-! ## Grown trees -/

namespace Tree

/-- In a tree that was grown from a root, the sibling indices of the children of a node are their
positions if a tree search expanded the node. If a sweep did, they are the places of the children before
they were put into the order of their costs. -/
theorem siblings_of_grown {root : Node P T} (hchildren : root.children = #[])
    (h : Grown allowed root t) {p : Nat} {pn : Node P T} (hp : t.node? p = some pn) :
    pn.children = #[] ∨ ∃ strategy, allowed strategy ∧ t.SiblingsBy pn.children.toList strategy :=
  (h.aligned hchildren).siblings p pn hp

/-- The second leaf is cheaper, and so it is the first child. -/
theorem siblings_of_grown_unsorted :
    ∃ s' root, Search.unsortedLeaves.grow (.ofRoot (.root 0 0)) .empty 1 =
        (.ok 1, Search.unsortedTree, s') ∧
      Search.unsortedTree.node? rootIndex = some root ∧ root.children = #[1, 2] ∧
      Search.unsortedTree.SiblingsBy [1, 2] .bestFirst := by
  obtain ⟨s', hgrow, -⟩ := Search.grow_unsortedLeaves
  have hgrown : Grown (· = .bestFirst) (.root 0 0) Search.unsortedTree := by
    have h : Grown (· = .bestFirst) (.root 0 0)
        (Search.unsortedLeaves.grow (.ofRoot (.root 0 0)) .empty 1).2.1 :=
      .grow .root Search.unsortedLeaves (by rfl) .empty 1
    rwa [hgrow] at h
  refine ⟨s', _, hgrow, rfl, rfl, ?_⟩
  rcases siblings_of_grown rfl hgrown (p := rootIndex) rfl with hnone | ⟨strategy, rfl, hsiblings⟩
  · cases hnone
  · exact hsiblings

end Tree

/-- The first child of the root has the sibling index one. -/
theorem Search.exists_misplaced_sibling :
    ∃ t s' root, unsortedLeaves.grow (.ofRoot (.root 0 0)) .empty 1 = (.ok 1, t, s') ∧
      unsortedLeaves.config.validate = .ok () ∧ t.node? Tree.rootIndex = some root ∧
      root.children[0]? = some 1 ∧ t.siblingOf 1 = some 1 := by
  obtain ⟨s', hgrow, -⟩ := grow_unsortedLeaves
  exact ⟨unsortedTree, s', _, hgrow, by decide, rfl, rfl, rfl⟩

end LoopTuner
