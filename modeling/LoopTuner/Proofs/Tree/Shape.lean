import LoopTuner.Proofs.Tree.Nodes
import Mathlib.Data.List.Nodup

/-!
# The shape of a tree

In a well-formed tree the parent links and the lists of children say the same, parents have smaller
numbers than their children, and children are one stage further than their parent. So the way up
from a node passes smaller and smaller numbers and ends at the root (`pathToRoot_of_parent`).
-/

namespace LoopTuner

variable {P T : Type}

/-- The part of a node that places it in its tree. -/
def Node.place (n : Node P T) : Option Nat × Stage × Array Nat := (n.parent, n.stage, n.children)

namespace Tree

/-- Every node but the root has a parent that was there before it. -/
structure Rooted (t : Tree P T) : Prop where
  size_pos : 0 < t.size
  parent_root : t.parent? 0 = none
  parent_lt : ∀ i, 0 < i → i < t.size → ∃ p, t.parent? i = some p ∧ p < i

/-- The links of a tree fit together. -/
structure WellFormed (t : Tree P T) : Prop where
  size_pos : 0 < t.size
  parent_root : t.parent? 0 = none
  parent_lt : ∀ i, 0 < i → i < t.size → ∃ p, t.parent? i = some p ∧ p < i
  mem_children_iff : ∀ p pn i, t.node? p = some pn → (i ∈ pn.children ↔ t.parent? i = some p)
  stage_eq : ∀ i n p pn, t.node? i = some n → n.parent = some p → t.node? p = some pn →
    n.stage = pn.stage + 1
  ascending : ∀ p pn, t.node? p = some pn → pn.children.toList.Pairwise (· < ·)

theorem WellFormed.rooted {t : Tree P T} (ht : t.WellFormed) : t.Rooted :=
  ⟨ht.size_pos, ht.parent_root, ht.parent_lt⟩

/-! ## Parents -/

theorem parent?_of_node? {t : Tree P T} {i : Nat} {n : Node P T} (h : t.node? i = some n) :
    t.parent? i = n.parent := by
  unfold parent?
  rw [h]
  rfl

theorem node?_of_parent? {t : Tree P T} {i p : Nat} (h : t.parent? i = some p) :
    ∃ n, t.node? i = some n ∧ n.parent = some p :=
  Option.bind_eq_some_iff.mp h

theorem lt_size_of_parent? {t : Tree P T} {i p : Nat} (h : t.parent? i = some p) : i < t.size := by
  obtain ⟨n, hn, -⟩ := node?_of_parent? h
  exact lt_size_of_node? hn

/-- Parents have smaller numbers. -/
theorem Rooted.parent?_lt {t : Tree P T} (ht : t.Rooted) {i p : Nat}
    (h : t.parent? i = some p) : p < i := by
  have hpos : 0 < i := by
    rcases Nat.eq_zero_or_pos i with rfl | hi
    · rw [ht.parent_root] at h
      cases h
    · exact hi
  obtain ⟨q, hq, hlt⟩ := ht.parent_lt i hpos (lt_size_of_parent? h)
  rw [h] at hq
  cases hq
  exact hlt

theorem WellFormed.child {t : Tree P T} (ht : t.WellFormed) {p c : Nat} {pn : Node P T}
    (hp : t.node? p = some pn) (hc : c ∈ pn.children) :
    p < c ∧ ∃ cn, t.node? c = some cn ∧ cn.parent = some p ∧ cn.stage = pn.stage + 1 := by
  have hparent := (ht.mem_children_iff p pn c hp).mp hc
  obtain ⟨cn, hcn, hcp⟩ := node?_of_parent? hparent
  exact ⟨ht.rooted.parent?_lt hparent, cn, hcn, hcp, ht.stage_eq c cn p pn hcn hcp hp⟩

theorem WellFormed.nodup_children {t : Tree P T} (ht : t.WellFormed) {p : Nat} {pn : Node P T}
    (hp : t.node? p = some pn) : pn.children.toList.Nodup :=
  (ht.ascending p pn hp).imp Nat.ne_of_lt

/-! ## The way up -/

/-- Numbers that only grow smaller need no more fuel than the first of them. -/
theorem ascend_congr_fuel {t : Tree P T} (h : ∀ i p, t.parent? i = some p → p < i)
    {fuel fuel' i : Nat} (hi : i < fuel) (hi' : i < fuel') : t.ascend fuel i = t.ascend fuel' i := by
  induction fuel generalizing fuel' i with
  | zero => exact absurd hi (Nat.not_lt_zero i)
  | succ fuel ih =>
    cases fuel' with
    | zero => exact absurd hi' (Nat.not_lt_zero i)
    | succ fuel' =>
      unfold ascend
      cases hp : t.parent? i with
      | none => rfl
      | some p =>
        have hlt := h i p hp
        simp only
        rw [ih (show p < fuel by omega) (show p < fuel' by omega)]

theorem pathToRoot_of_root {t : Tree P T} {i : Nat} (h : t.parent? i = none) :
    t.pathToRoot i = [i] := by
  unfold pathToRoot ascend
  rw [h]

/-- The way up goes on at the parent. -/
theorem Rooted.pathToRoot_of_parent {t : Tree P T} (ht : t.Rooted) {i p : Nat}
    (h : t.parent? i = some p) : t.pathToRoot i = i :: t.pathToRoot p := by
  have hlt := ht.parent?_lt h
  unfold pathToRoot
  rw [ascend, h]
  simp only
  rw [ascend_congr_fuel (fun _ _ => ht.parent?_lt) hlt (Nat.lt_succ_self p)]

/-- Induction along the way up. -/
theorem Rooted.induction_up {t : Tree P T} (ht : t.Rooted)
    {motive : (i : Nat) → i < t.size → Prop} (root : motive 0 ht.size_pos)
    (step : ∀ (i p : Nat) (h : t.parent? i = some p) (hp : p < t.size),
      motive p hp → motive i (lt_size_of_parent? h)) (i : Nat) (hi : i < t.size) : motive i hi := by
  induction i using Nat.strongRecOn with
  | ind i ih =>
    rcases Nat.eq_zero_or_pos i with rfl | hpos
    · exact root
    · obtain ⟨p, hp, hlt⟩ := ht.parent_lt i hpos hi
      exact step i p hp (by omega) (ih p hlt (by omega))

theorem Rooted.le_of_mem_pathToRoot {t : Tree P T} (ht : t.Rooted) {i j : Nat}
    (hi : i < t.size) (hj : j ∈ t.pathToRoot i) : j ≤ i := by
  induction i, hi using ht.induction_up with
  | root =>
    rw [pathToRoot_of_root ht.parent_root, List.mem_singleton] at hj
    omega
  | step i p h hp ih =>
    have hlt := ht.parent?_lt h
    rw [ht.pathToRoot_of_parent h, List.mem_cons] at hj
    rcases hj with rfl | hj
    · exact Nat.le_refl _
    · have := ih hj
      omega

theorem Rooted.pairwise_pathToRoot {t : Tree P T} (ht : t.Rooted) {i : Nat}
    (hi : i < t.size) : (t.pathToRoot i).Pairwise (· > ·) := by
  induction i, hi using ht.induction_up with
  | root =>
    rw [pathToRoot_of_root ht.parent_root]
    exact List.pairwise_singleton _ _
  | step i p h hp ih =>
    rw [ht.pathToRoot_of_parent h, List.pairwise_cons]
    refine ⟨fun j hj => ?_, ih⟩
    have hle := ht.le_of_mem_pathToRoot hp hj
    have hlt := ht.parent?_lt h
    omega

theorem Rooted.nodup_pathToRoot {t : Tree P T} (ht : t.Rooted) {i : Nat}
    (hi : i < t.size) : (t.pathToRoot i).Nodup :=
  (ht.pairwise_pathToRoot hi).imp Nat.ne_of_gt

theorem Rooted.root_mem_pathToRoot {t : Tree P T} (ht : t.Rooted) {i : Nat}
    (hi : i < t.size) : rootIndex ∈ t.pathToRoot i := by
  induction i, hi using ht.induction_up with
  | root =>
    rw [pathToRoot_of_root ht.parent_root]
    exact List.mem_singleton.mpr rfl
  | step i p h hp ih =>
    rw [ht.pathToRoot_of_parent h]
    exact List.mem_cons_of_mem _ ih

/-- Trees that grow keep the ways up that they have. -/
theorem Rooted.pathToRoot_eq {t t' : Tree P T} (ht : t.Rooted) (ht' : t'.Rooted)
    (h : ∀ i, i < t.size → t'.parent? i = t.parent? i) {i : Nat} (hi : i < t.size) :
    t'.pathToRoot i = t.pathToRoot i := by
  induction i, hi using ht.induction_up with
  | root => rw [pathToRoot_of_root ht.parent_root, pathToRoot_of_root ht'.parent_root]
  | step i p hparent hp ih =>
    have hsame := h i (lt_size_of_parent? hparent)
    rw [ht.pathToRoot_of_parent hparent, ht'.pathToRoot_of_parent (hsame.trans hparent), ih]

theorem mem_pathToRoot_self (t : Tree P T) (i : Nat) : i ∈ t.pathToRoot i := by
  unfold pathToRoot ascend
  exact List.mem_cons_self

theorem countP_mem_cons {i : Nat} {path : List Nat} (h : i ∉ path) (xs : List Nat) :
    xs.countP (· ∈ i :: path) = xs.count i + xs.countP (· ∈ path) := by
  induction xs with
  | nil => rfl
  | cons x xs ih =>
    rw [List.countP_cons, List.countP_cons, List.count_cons, ih]
    by_cases hx : x = i
    · subst hx
      simp [h]
      omega
    · simp [hx]
      omega

/-- Of the children of a node on the way up from `i` exactly one is on it, save below `i` itself. -/
theorem WellFormed.countP_children {t : Tree P T} (ht : t.WellFormed) {i j : Nat} {n : Node P T}
    (hi : i < t.size) (hj : t.node? j = some n) :
    n.children.toList.countP (· ∈ t.pathToRoot i) =
      if j ∈ t.pathToRoot i ∧ j ≠ i then 1 else 0 := by
  have hmem : ∀ c, c ∈ n.children.toList ↔ t.parent? c = some j := fun c => by
    rw [Array.mem_toList_iff]
    exact ht.mem_children_iff j n c hj
  induction i, hi using ht.rooted.induction_up with
  | root =>
    rw [pathToRoot_of_root ht.parent_root, if_neg (by rw [List.mem_singleton]; exact fun h => h.2 h.1),
      List.countP_eq_zero]
    intro c hc h0
    rw [decide_eq_true_iff, List.mem_singleton] at h0
    rw [hmem, h0, ht.parent_root] at hc
    cases hc
  | step i p h hp ih =>
    have hlt := ht.rooted.parent?_lt h
    have hnot : i ∉ t.pathToRoot p := fun hi => by
      have := ht.rooted.le_of_mem_pathToRoot hp hi
      omega
    rw [ht.rooted.pathToRoot_of_parent h, countP_mem_cons hnot, ih]
    by_cases hjp : j = p
    · subst hjp
      have hself := mem_pathToRoot_self t j
      rw [List.count_eq_one_of_mem (ht.nodup_children hj) ((hmem i).mpr h), if_neg (fun h => h.2 rfl),
        if_pos ⟨List.mem_cons_of_mem _ hself, by omega⟩]
    · have hcount : n.children.toList.count i = 0 := by
        rw [List.count_eq_zero, hmem, h]
        exact fun h => hjp (Option.some.inj h).symm
      rw [hcount, Nat.zero_add]
      by_cases hji : j = i
      · subst hji
        rw [if_neg (fun h => hnot h.1), if_neg (fun h => h.2 rfl)]
      · simp [hjp, hji]

/-! ## Recording along the way up -/

theorem node?_recordAll (t : Tree P T) (cost : Float) {path : List Nat} (hpath : path.Nodup)
    (j : Nat) :
    (t.recordAll cost path).node? j =
      if j ∈ path then (t.node? j).map (·.record cost) else t.node? j := by
  unfold recordAll
  induction path generalizing t with
  | nil => rw [if_neg List.not_mem_nil, List.foldl_nil]
  | cons i path ih =>
    obtain ⟨hi, hpath⟩ := List.nodup_cons.mp hpath
    rw [List.foldl_cons, ih _ hpath, node?_modify]
    by_cases hij : i = j
    · subst hij
      rw [if_neg hi, if_pos rfl, if_pos List.mem_cons_self]
    · rw [if_neg hij]
      simp [Ne.symm hij]

/-! ## Changes that keep the shape -/

theorem Agree.parent? {t t' : Tree P T} (h : Agree Node.place t t') (i : Nat) :
    t'.parent? i = t.parent? i :=
  h.bind_eq (fun _ _ hplace => congrArg Prod.fst hplace) i

theorem Agree.pathToRoot_eq {t t' : Tree P T} (h : Agree Node.place t t') (i : Nat) :
    t'.pathToRoot i = t.pathToRoot i := by
  have hascend : ∀ fuel i, t'.ascend fuel i = t.ascend fuel i := by
    intro fuel
    induction fuel with
    | zero => exact fun _ => rfl
    | succ fuel ih =>
      intro i
      unfold ascend
      rw [h.parent? i]
      cases t.parent? i with
      | none => rfl
      | some p => exact congrArg (i :: ·) (ih p)
  exact hascend (i + 1) i

theorem Rooted.of_agree {t t' : Tree P T} (ht : t.Rooted) (h : Agree Node.place t t') : t'.Rooted where
  size_pos := h.size ▸ ht.size_pos
  parent_root := (h.parent? 0).trans ht.parent_root
  parent_lt i hpos hi := by
    rw [h.parent?]
    exact ht.parent_lt i hpos (h.size ▸ hi)

theorem WellFormed.of_agree {t t' : Tree P T} (ht : t.WellFormed) (h : Agree Node.place t t') :
    t'.WellFormed where
  size_pos := (ht.rooted.of_agree h).size_pos
  parent_root := (ht.rooted.of_agree h).parent_root
  parent_lt := (ht.rooted.of_agree h).parent_lt
  mem_children_iff p pn i hp := by
    obtain ⟨n, hn, hplace⟩ := h.node? hp
    rw [h.parent?, ← ht.mem_children_iff p n i hn]
    rw [show n.children = pn.children from congrArg (·.2.2) hplace]
  stage_eq i n p pn hi hparent hp := by
    obtain ⟨m, hm, hplace⟩ := h.node? hi
    obtain ⟨pm, hpm, hplace'⟩ := h.node? hp
    rw [← show m.stage = n.stage from congrArg (·.2.1) hplace,
      ← show pm.stage = pn.stage from congrArg (·.2.1) hplace']
    exact ht.stage_eq i m p pm hm ((congrArg Prod.fst hplace).trans hparent) hpm
  ascending p pn hp := by
    obtain ⟨n, hn, hplace⟩ := h.node? hp
    rw [← show n.children = pn.children from congrArg (·.2.2) hplace]
    exact ht.ascending p n hn

/-! ## Growing -/

theorem parent?_withChildren_of_lt {t : Tree P T} {i : Nat} (p : Nat) (kids : List (Node P T))
    (h : i < t.size) : (t.withChildren p kids).parent? i = t.parent? i := by
  unfold parent?
  rw [node?_withChildren_of_lt p kids h]
  split_ifs
  · cases t.node? i <;> rfl
  · rfl

/-- A tree without children yet. -/
theorem wellFormed_ofRoot {root : Node P T} (hparent : root.parent = none)
    (hchildren : root.children = #[]) : (ofRoot root).WellFormed where
  size_pos := Nat.one_pos
  parent_root := hparent
  parent_lt i hpos hi := by
    rw [size_ofRoot] at hi
    omega
  mem_children_iff p pn i hp := by
    obtain ⟨-, rfl⟩ := node?_ofRoot hp
    rw [hchildren]
    constructor
    · intro h
      cases h with | mk h => cases h
    · intro h
      obtain ⟨n, hn, hnp⟩ := node?_of_parent? h
      rw [(node?_ofRoot hn).2, hparent] at hnp
      cases hnp
  stage_eq i n p pn hi hnp hp := by
    rw [(node?_ofRoot hi).2, hparent] at hnp
    cases hnp
  ascending p pn hp := by
    rw [(node?_ofRoot hp).2, hchildren]
    exact List.Pairwise.nil

theorem mem_children_adoptAll {n : Node P T} {indices : List Nat} {i : Nat} :
    i ∈ (n.adoptAll indices).children ↔ i ∈ n.children ∨ i ∈ indices := by
  show i ∈ n.children ++ indices.toArray ↔ _
  simp only [Array.mem_append, List.mem_toArray]

theorem parent?_withChildren_new {t : Tree P T} {p i : Nat} {kids : List (Node P T)}
    (hkids : ∀ kid ∈ kids, kid.parent = some p) (hi : t.size ≤ i)
    (hlt : i < t.size + kids.length) : (t.withChildren p kids).parent? i = some p := by
  obtain ⟨kid, hkid⟩ := exists_node? (t := t.withChildren p kids) (i := i) (by
    rw [size_withChildren]
    exact hlt)
  rw [parent?_of_node? hkid]
  exact hkids kid (node?_withChildren_new hi hkid)

/-- Every new node has the parent that it was given to. -/
theorem eq_of_parent?_withChildren {t : Tree P T} {p q i : Nat} {kids : List (Node P T)}
    (hkids : ∀ kid ∈ kids, kid.parent = some p) (hi : t.size ≤ i)
    (h : (t.withChildren p kids).parent? i = some q) : q = p := by
  obtain ⟨n, hn, hparent⟩ := node?_of_parent? h
  rw [hkids n (node?_withChildren_new hi hn)] at hparent
  exact (Option.some.inj hparent).symm

section WithChildren

variable {t : Tree P T} {p : Nat} {pn : Node P T} {kids : List (Node P T)}

theorem WellFormed.mem_children_withChildren_iff (ht : t.WellFormed) (hp : t.node? p = some pn)
    (hkids : ∀ kid ∈ kids, kid.parent = some p ∧ kid.children = #[]) {q : Nat} {qn : Node P T}
    (i : Nat) (hq : (t.withChildren p kids).node? q = some qn) :
    i ∈ qn.children ↔ (t.withChildren p kids).parent? i = some q := by
  have hparents := fun kid hk => (hkids kid hk).1
  rcases Nat.lt_or_ge q t.size with hqlt | hqge
  · obtain ⟨n, hn, rfl⟩ := node?_withChildren_old hqlt hq
    have hmem := ht.mem_children_iff q n i hn
    rcases Nat.lt_or_ge i t.size with hlt | hge
    · -- the links between the nodes that were there are as before
      rw [parent?_withChildren_of_lt p kids hlt, ← hmem]
      split_ifs
      · rw [mem_children_adoptAll, List.mem_range'_1]
        exact or_iff_left (by omega)
      · exact Iff.rfl
    · have hnot : i ∉ n.children := by
        intro h
        have := lt_size_of_parent? (hmem.mp h)
        omega
      by_cases hpq : p = q
      · subst hpq
        rw [if_pos rfl, mem_children_adoptAll, List.mem_range'_1]
        constructor
        · rintro (h | h)
          · exact absurd h hnot
          · exact parent?_withChildren_new hparents hge h.2
        · intro h
          have hlt := lt_size_of_parent? h
          rw [size_withChildren] at hlt
          exact Or.inr ⟨hge, hlt⟩
      · rw [if_neg hpq]
        exact iff_of_false hnot fun h => hpq (eq_of_parent?_withChildren hparents hge h).symm
  · rw [(hkids qn (node?_withChildren_new hqge hq)).2]
    refine iff_of_false (Array.not_mem_empty i) fun h => ?_
    rcases Nat.lt_or_ge i t.size with hlt | hge
    · rw [parent?_withChildren_of_lt p kids hlt] at h
      have := ht.rooted.parent?_lt h
      omega
    · have := eq_of_parent?_withChildren hparents hge h
      have hplt := lt_size_of_node? hp
      omega

theorem WellFormed.stage_eq_withChildren (ht : t.WellFormed) (hp : t.node? p = some pn)
    (hkids : ∀ kid ∈ kids, kid.parent = some p ∧ kid.stage = pn.stage + 1) {i q : Nat}
    {n qn : Node P T} (hi : (t.withChildren p kids).node? i = some n) (hparent : n.parent = some q)
    (hq : (t.withChildren p kids).node? q = some qn) : n.stage = qn.stage + 1 := by
  have hpar : (t.withChildren p kids).parent? i = some q := by rw [parent?_of_node? hi, hparent]
  rcases Nat.lt_or_ge i t.size with hlt | hge
  · rw [parent?_withChildren_of_lt p kids hlt] at hpar
    have hqi := ht.rooted.parent?_lt hpar
    obtain ⟨m, hm, rfl⟩ := node?_withChildren_old hlt hi
    obtain ⟨qm, hqm, rfl⟩ := node?_withChildren_old (show q < t.size by omega) hq
    have hstage := ht.stage_eq i m q qm hm (parent?_of_node? hm ▸ hpar) hqm
    split_ifs
    all_goals exact hstage
  · obtain rfl := eq_of_parent?_withChildren (fun kid hk => (hkids kid hk).1) hge hpar
    obtain ⟨qm, hqm, rfl⟩ := node?_withChildren_old (lt_size_of_node? hp) hq
    rw [hp] at hqm
    cases hqm
    rw [(hkids n (node?_withChildren_new hge hi)).2, if_pos rfl]
    rfl

theorem WellFormed.ascending_withChildren (ht : t.WellFormed)
    (hkids : ∀ kid ∈ kids, kid.children = #[]) {q : Nat} {qn : Node P T}
    (hq : (t.withChildren p kids).node? q = some qn) : qn.children.toList.Pairwise (· < ·) := by
  rcases Nat.lt_or_ge q t.size with hlt | hge
  · obtain ⟨n, hn, rfl⟩ := node?_withChildren_old hlt hq
    have hasc := ht.ascending q n hn
    split_ifs with hpq
    · unfold Node.adoptAll
      rw [Array.toList_append, List.pairwise_append]
      refine ⟨hasc, List.pairwise_lt_range', fun a ha b hb => ?_⟩
      rw [Array.mem_toList_iff, ht.mem_children_iff q n a hn] at ha
      have halt := lt_size_of_parent? ha
      rw [List.mem_range'_1] at hb
      omega
    · exact hasc
  · rw [hkids qn (node?_withChildren_new hge hq)]
    exact List.Pairwise.nil

/-- A node gets children that have none of their own. -/
theorem WellFormed.withChildren (ht : t.WellFormed) (hp : t.node? p = some pn)
    (hkids : ∀ kid ∈ kids, kid.parent = some p ∧ kid.stage = pn.stage + 1 ∧ kid.children = #[]) :
    (t.withChildren p kids).WellFormed where
  size_pos := by
    have := ht.size_pos
    rw [size_withChildren]
    omega
  parent_root := (parent?_withChildren_of_lt p kids ht.size_pos).trans ht.parent_root
  parent_lt i hpos hi := by
    rw [size_withChildren] at hi
    have hplt := lt_size_of_node? hp
    rcases Nat.lt_or_ge i t.size with hlt | hge
    · rw [parent?_withChildren_of_lt p kids hlt]
      exact ht.parent_lt i hpos hlt
    · exact ⟨p, parent?_withChildren_new (fun kid hk => (hkids kid hk).1) hge hi, by omega⟩
  mem_children_iff _ _ i hq := ht.mem_children_withChildren_iff hp
    (fun kid hk => ⟨(hkids kid hk).1, (hkids kid hk).2.2⟩) i hq
  stage_eq _ _ _ _ hi hparent hq := ht.stage_eq_withChildren hp
    (fun kid hk => ⟨(hkids kid hk).1, (hkids kid hk).2.1⟩) hi hparent hq
  ascending _ _ hq := ht.ascending_withChildren (fun kid hk => (hkids kid hk).2.2) hq

end WithChildren

end Tree

end LoopTuner
