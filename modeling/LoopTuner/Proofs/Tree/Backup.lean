import LoopTuner.Proofs.Tree.Shape
import Mathlib.Logic.Relation

/-!
# Backed-up costs

A cost that is backed up from a node reaches the nodes of whose subtree it is, which are those on its way up
(`Tree.Rooted.mem_pathToRoot_iff`). So whatever is backed up, in the end every node has recorded the costs from its
subtree, in the order in which they came, and nothing else (`Tree.Rooted.node?_backupAll`).
-/

namespace LoopTuner

variable {P T : Type}

/-! ## Recording several costs -/

theorem Node.foldl_record (n : Node P T) (costs : List Float) :
    costs.foldl record n =
      { n with visits := n.visits + costs.length, accumulated := costs.foldl Tally.add n.accumulated } := by
  induction costs generalizing n with
  | nil => rfl
  | cons cost costs ih =>
    rw [List.foldl_cons, ih]
    simp only [record, List.length_cons, List.foldl_cons, Nat.add_assoc, Nat.add_comm 1]

theorem Tally.sum_foldl_add (tally : Tally) (costs : List Float) :
    (costs.foldl add tally).sum = costs.foldl (· + ·) tally.sum := by
  induction costs generalizing tally with
  | nil => rfl
  | cons cost costs ih =>
    rw [List.foldl_cons, List.foldl_cons, ih, sum_add]

namespace Tree

/-! ## Subtrees -/

/-- Node `i` is `j` or one of the nodes below it. -/
def InSubtree (t : Tree P T) (j i : Nat) : Prop :=
  Relation.ReflTransGen (fun p c => t.parent? c = some p) j i

/-- The nodes on the way up are those whose subtree the first of them is in. -/
theorem Rooted.mem_pathToRoot_iff {t : Tree P T} (ht : t.Rooted) {i j : Nat} (hi : i < t.size) :
    j ∈ t.pathToRoot i ↔ t.InSubtree j i := by
  unfold InSubtree
  induction i, hi using ht.induction_up with
  | root =>
    rw [pathToRoot_of_root ht.parent_root, List.mem_singleton, Relation.ReflTransGen.cases_tail_iff]
    constructor
    · exact fun h => Or.inl h.symm
    · rintro (h | ⟨p, -, hp⟩)
      · exact h.symm
      · rw [ht.parent_root] at hp
        cases hp
  | step i p h hp ih =>
    rw [ht.pathToRoot_of_parent h, List.mem_cons, ih, Relation.ReflTransGen.cases_tail_iff _ j i]
    refine or_congr eq_comm ⟨fun hj => ⟨p, hj, h⟩, ?_⟩
    rintro ⟨q, hj, hq⟩
    cases hq.symm.trans h
    exact hj

theorem head?_pathToRoot (t : Tree P T) (i : Nat) : (t.pathToRoot i).head? = some i := by
  unfold pathToRoot ascend
  rfl

theorem Rooted.getLast?_pathToRoot {t : Tree P T} (ht : t.Rooted) {i : Nat} (hi : i < t.size) :
    (t.pathToRoot i).getLast? = some rootIndex := by
  induction i, hi using ht.induction_up with
  | root =>
    rw [pathToRoot_of_root ht.parent_root]
    rfl
  | step i p h hp ih => rw [ht.pathToRoot_of_parent h, List.getLast?_cons, ih, Option.getD_some]

/-- A path goes up from a node: each number is smaller than the one before it, the last one is the root, and the
nodes passed are those that the first one is below. -/
structure UpFrom (t : Tree P T) (i : Nat) (path : List Nat) : Prop where
  head : path.head? = some i
  descending : path.Pairwise (· > ·)
  last : path.getLast? = some rootIndex
  mem_iff : ∀ j, j ∈ path ↔ t.InSubtree j i

theorem Rooted.upFrom_pathToRoot {t : Tree P T} (ht : t.Rooted) {i : Nat} (hi : i < t.size) :
    t.UpFrom i (t.pathToRoot i) where
  head := t.head?_pathToRoot i
  descending := ht.pairwise_pathToRoot hi
  last := ht.getLast?_pathToRoot hi
  mem_iff _ := ht.mem_pathToRoot_iff hi

/-! ## Backing up -/

/-- Backs up the given costs, each from its node, one after the other. -/
def backupAll (t : Tree P T) (calls : List (Nat × Float)) : Except Violation (Tree P T) :=
  calls.foldlM (fun t call => t.backup call.1 call.2) t

/-- The costs that were backed up through a node, in the order of the calls. -/
def costsThrough (t : Tree P T) (calls : List (Nat × Float)) (i : Nat) : List Float :=
  (calls.filter fun call => i ∈ t.pathToRoot call.1).map Prod.snd

theorem length_costsThrough (t : Tree P T) (calls : List (Nat × Float)) (i : Nat) :
    (t.costsThrough calls i).length = calls.countP fun call => i ∈ t.pathToRoot call.1 := by
  unfold costsThrough
  rw [List.length_map, List.countP_eq_length_filter]

theorem costsThrough_append (t : Tree P T) (calls later : List (Nat × Float)) (i : Nat) :
    t.costsThrough (calls ++ later) i = t.costsThrough calls i ++ t.costsThrough later i := by
  unfold costsThrough
  rw [List.filter_append, List.map_append]

theorem costsThrough_singleton (t : Tree P T) (j : Nat) (cost : Float) (i : Nat) :
    t.costsThrough [(j, cost)] i = if i ∈ t.pathToRoot j then [cost] else [] := by
  unfold costsThrough
  rw [List.filter_singleton]
  by_cases h : i ∈ t.pathToRoot j
  · simp [h]
  · simp [h]

theorem costsThrough_congr {t t' : Tree P T} {calls : List (Nat × Float)}
    (h : ∀ call ∈ calls, t'.pathToRoot call.1 = t.pathToRoot call.1) (i : Nat) :
    t'.costsThrough calls i = t.costsThrough calls i := by
  unfold costsThrough
  rw [List.filter_congr fun call hcall => by rw [h call hcall]]

theorem mem_costsThrough {t : Tree P T} {calls : List (Nat × Float)} {i : Nat} {cost : Float}
    (h : cost ∈ t.costsThrough calls i) : ∃ call ∈ calls, call.2 = cost := by
  obtain ⟨call, hcall, rfl⟩ := List.mem_map.mp h
  exact ⟨call, List.mem_of_mem_filter hcall, rfl⟩

theorem costsThrough_eq_nil {t : Tree P T} {calls : List (Nat × Float)} {i : Nat}
    (h : ∀ call ∈ calls, i ∉ t.pathToRoot call.1) : t.costsThrough calls i = [] := by
  unfold costsThrough
  rw [List.filter_eq_nil_iff.mpr fun call hcall => by simpa using h call hcall]
  rfl

/-- A cost that is backed up is recorded along the way up and nowhere else. -/
theorem Rooted.exists_backup {t : Tree P T} (ht : t.Rooted) {i : Nat} (hi : i < t.size) (cost : Float) :
    ∃ t', t.backup i cost = .ok t' ∧ Agree Node.place t t' ∧
      ∀ j, t'.node? j = (t.node? j).map fun n => (t.costsThrough [(i, cost)] j).foldl Node.record n := by
  unfold backup
  rw [if_pos hi]
  refine ⟨_, rfl, Agree.recordAll (fun _ _ => rfl) t cost _, fun j => ?_⟩
  rw [node?_recordAll t cost (ht.nodup_pathToRoot hi), costsThrough_singleton]
  split_ifs
  · rfl
  · exact Option.map_id'.symm

/-- After any number of costs every node has recorded those that came from its subtree. -/
theorem Rooted.node?_backupAll {t : Tree P T} (ht : t.Rooted) {calls : List (Nat × Float)}
    (hcalls : ∀ call ∈ calls, call.1 < t.size) :
    ∃ t', t.backupAll calls = .ok t' ∧
      ∀ i, t'.node? i = (t.node? i).map fun n => (t.costsThrough calls i).foldl Node.record n := by
  unfold backupAll
  induction calls generalizing t with
  | nil => exact ⟨t, rfl, fun i => Option.map_id'.symm⟩
  | cons call calls ih =>
    obtain ⟨hcall, hcalls⟩ := List.forall_mem_cons.mp hcalls
    obtain ⟨t₁, hbackup, hplace, hnodes⟩ := ht.exists_backup hcall call.2
    obtain ⟨t', hrest, hlater⟩ := ih (ht.of_agree hplace) fun c hc => by
      rw [hplace.size]
      exact hcalls c hc
    refine ⟨t', ?_, fun i => ?_⟩
    · rw [List.foldlM_cons, hbackup]
      exact hrest
    · -- the ways up are those of the first tree, so the costs add up node by node
      rw [hlater, hnodes, Option.map_map, costsThrough_congr fun c _ => hplace.pathToRoot_eq c.1]
      show _ = (t.node? i).map fun n => (t.costsThrough ([call] ++ calls) i).foldl Node.record n
      simp only [costsThrough_append, List.foldl_append]
      rfl

/-- After costs were backed up through an unvisited tree, each node has counted and added up, in the order of the
calls, exactly those from its subtree, and nothing else about it has changed. -/
theorem Rooted.statistics_backupAll {t : Tree P T} (ht : t.Rooted)
    (hunvisited : ∀ i n, t.node? i = some n → n.visits = 0 ∧ n.accumulated.sum = 0)
    {calls : List (Nat × Float)} (hcalls : ∀ call ∈ calls, call.1 < t.size) :
    (∃ t', t.backupAll calls = .ok t' ∧ t'.size = t.size ∧
      ∀ i n, t.node? i = some n → ∃ n', t'.node? i = some n' ∧
        n'.visits = calls.countP (fun call => i ∈ t.pathToRoot call.1) ∧
        n'.accumulated.sum = (t.costsThrough calls i).foldl (· + ·) 0 ∧
        { n' with visits := n.visits, accumulated := n.accumulated } = n) ∧
      ∀ i, i < t.size → t.UpFrom i (t.pathToRoot i) := by
  refine ⟨?_, fun i hi => ht.upFrom_pathToRoot hi⟩
  obtain ⟨t', hbackup, hnodes⟩ := ht.node?_backupAll hcalls
  have hplace : Agree Node.place t t' := Agree.of_map hnodes fun i n => by
    rw [Node.foldl_record]
    rfl
  refine ⟨t', hbackup, hplace.size, fun i n hn => ?_⟩
  obtain ⟨hvisits, hsum⟩ := hunvisited i n hn
  refine ⟨(t.costsThrough calls i).foldl Node.record n, by rw [hnodes, hn]; rfl, ?_, ?_, ?_⟩
  · rw [Node.foldl_record, ← length_costsThrough]
    show n.visits + _ = _
    omega
  · rw [Node.foldl_record, ← hsum]
    exact Tally.sum_foldl_add n.accumulated _
  · rw [Node.foldl_record]

/-- A root with two children, the first of which has a child of its own, before any visit. -/
def unvisitedFork : Tree Nat Nat :=
  ((ofRoot (.root 0 0)).withChildren 0 [.fresh (some 0) 1 0 1, .fresh (some 0) 1 1 2]).withChildren 1
    [.fresh (some 1) 2 0 3]

theorem rooted_unvisitedFork : unvisitedFork.Rooted := by
  have hroot : (ofRoot (Node.root 0 0 : Node Nat Nat)).WellFormed := wellFormed_ofRoot rfl rfl
  exact ((hroot.withChildren (p := 0) rfl (by decide)).withChildren (p := 1) rfl (by decide)).rooted

/-- Of three costs from three nodes two pass the first child, and all pass the root. -/
theorem statistics_backupAll_unvisitedFork :
    ∃ t' root first, unvisitedFork.backupAll [(3, 5), (2, 4), (1, -2)] = .ok t' ∧
      t'.node? 0 = some root ∧ root.visits = 3 ∧ root.accumulated.sum = 0 + 5 + 4 + -2 ∧
      t'.node? 1 = some first ∧ first.visits = 2 ∧ first.accumulated.sum = 0 + 5 + -2 := by
  have hnodes : ∀ n ∈ unvisitedFork.nodes, n.visits = 0 ∧ n.accumulated.sum = 0 := by decide
  have hcalls : ∀ call ∈ [(3, 5), (2, 4), (1, (-2 : Float))], call.1 < unvisitedFork.size := by decide
  obtain ⟨⟨t', hbackup, -, hafter⟩, -⟩ := rooted_unvisitedFork.statistics_backupAll
    (fun i n hn => hnodes n (Array.mem_of_getElem? hn)) hcalls
  obtain ⟨root, hroot, hvisits, hsum, -⟩ := hafter 0 _ rfl
  obtain ⟨first, hfirst, hvisits', hsum', -⟩ := hafter 1 _ rfl
  exact ⟨t', root, first, hbackup, hroot, hvisits, hsum, hfirst, hvisits', hsum'⟩

end Tree

end LoopTuner
