import LoopTuner.Search.Expander
import Mathlib.Tactic.ByContra
import Mathlib.Tactic.SplitIfs

/-!
# The nodes of a tree

What each operation on a tree does to the node of a given number. Adding several children amounts to
one change: the parent learns their numbers, and the children follow the nodes that were there
(`addChildren_eq`).
-/

namespace LoopTuner

variable {P T : Type}

/-- The node with further children. -/
def Node.adoptAll (n : Node P T) (indices : List Nat) : Node P T :=
  { n with children := n.children ++ indices.toArray }

theorem Node.adoptAll_nil (n : Node P T) : n.adoptAll [] = n := by
  unfold Node.adoptAll
  simp

theorem Node.toList_children_adoptAll {n : Node P T} (h : n.children = #[]) (indices : List Nat) :
    (n.adoptAll indices).children.toList = indices := by
  show (n.children ++ indices.toArray).toList = indices
  rw [h, Array.empty_append]

theorem Node.adoptAll_cons (n : Node P T) (i : Nat) (indices : List Nat) :
    n.adoptAll (i :: indices) = (n.adopt i).adoptAll indices := by
  unfold Node.adoptAll Node.adopt
  simp

namespace Tree

/-! ## Nodes by number -/

theorem lt_size_of_node? {t : Tree P T} {i : Nat} {n : Node P T} (h : t.node? i = some n) :
    i < t.size :=
  (Array.getElem?_eq_some_iff.mp h).1

theorem node?_eq_none {t : Tree P T} {i : Nat} (h : t.size ≤ i) : t.node? i = none :=
  Array.getElem?_eq_none h

theorem exists_node? {t : Tree P T} {i : Nat} (h : i < t.size) : ∃ n, t.node? i = some n :=
  ⟨t.nodes[i], Array.getElem?_eq_getElem h⟩

theorem ext_node? {t t' : Tree P T} (h : ∀ i, t.node? i = t'.node? i) : t = t' := by
  cases t
  cases t'
  congr 1
  exact Array.ext_getElem? h

@[simp] theorem size_ofRoot (root : Node P T) : (ofRoot root).size = 1 := rfl

theorem node?_ofRoot {root n : Node P T} {i : Nat} (h : (ofRoot root).node? i = some n) :
    i = 0 ∧ n = root := by
  have hi : i = 0 := by
    have := lt_size_of_node? h
    rw [size_ofRoot] at this
    omega
  subst hi
  exact ⟨rfl, (Option.some.inj h).symm⟩

/-! ## Changing one node -/

@[simp] theorem size_modify (t : Tree P T) (i : Nat) (f : Node P T → Node P T) :
    (t.modify i f).size = t.size :=
  Array.size_modify

theorem node?_modify (t : Tree P T) (i : Nat) (f : Node P T → Node P T) (j : Nat) :
    (t.modify i f).node? j = if i = j then (t.node? j).map f else t.node? j :=
  Array.getElem?_modify

theorem node?_modify_self {t : Tree P T} {i : Nat} {n : Node P T} (f : Node P T → Node P T)
    (h : t.node? i = some n) : (t.modify i f).node? i = some (f n) := by
  rw [node?_modify, if_pos rfl, h]
  rfl

theorem modify_congr {t : Tree P T} {i : Nat} {n : Node P T} {f g : Node P T → Node P T}
    (hn : t.node? i = some n) (h : f n = g n) : t.modify i f = t.modify i g := by
  apply ext_node?
  intro j
  rw [node?_modify, node?_modify]
  split_ifs with hij
  · subst hij
    rw [hn, Option.map_some, Option.map_some, h]
  · rfl

theorem modify_eq_self {t : Tree P T} {i : Nat} {f : Node P T → Node P T}
    (h : ∀ n, t.node? i = some n → f n = n) : t.modify i f = t := by
  apply ext_node?
  intro j
  rw [node?_modify]
  split_ifs with hij
  · subst hij
    rw [Option.map_congr h, Option.map_id']
  · rfl

theorem modify_of_none {t : Tree P T} {i : Nat} (h : t.node? i = none) (f : Node P T → Node P T) :
    t.modify i f = t := by
  refine modify_eq_self fun n hn => ?_
  rw [h] at hn
  cases hn

/-- Marking an expanded node changes nothing. -/
theorem modify_markExpanded {t : Tree P T} {i : Nat} {n : Node P T} (hn : t.node? i = some n)
    (hexpanded : n.expanded = true) : t.modify i Node.markExpanded = t := by
  refine modify_eq_self fun m hm => ?_
  cases hn.symm.trans hm
  unfold Node.markExpanded
  rw [← hexpanded]

/-! ## Views of nodes -/

/-- Trees whose nodes have the same view, number by number. -/
def Agree {α : Type} (view : Node P T → α) (t t' : Tree P T) : Prop :=
  ∀ i, (t'.node? i).map view = (t.node? i).map view

section Agree

variable {α : Type} {view : Node P T → α} {t t' : Tree P T}

theorem Agree.symm (h : Agree view t t') : Agree view t' t := fun i => (h i).symm

theorem Agree.modify (t : Tree P T) (i : Nat) {f : Node P T → Node P T}
    (hf : ∀ n, t.node? i = some n → view (f n) = view n) : Agree view t (t.modify i f) := by
  intro j
  rw [node?_modify]
  split_ifs with h
  · subst h
    cases hn : t.node? i with
    | none => rfl
    | some n => exact congrArg some (hf n hn)
  · rfl

theorem Agree.recordAll (hrecord : ∀ (n : Node P T) cost, view (n.record cost) = view n)
    (t : Tree P T) (cost : Float) (path : List Nat) : Agree view t (t.recordAll cost path) := by
  unfold Tree.recordAll
  induction path generalizing t with
  | nil => exact fun _ => rfl
  | cons i path ih =>
    intro j
    rw [List.foldl_cons, ih]
    exact Agree.modify t i (fun n _ => hrecord n cost) j

theorem Agree.of_map {f : Nat → Node P T → Node P T} (h : ∀ i, t'.node? i = (t.node? i).map (f i))
    (hf : ∀ i n, view (f i n) = view n) : Agree view t t' := by
  intro i
  rw [h, Option.map_map]
  exact Option.map_congr fun n _ => hf i n

theorem Agree.node? (h : Agree view t t') {i : Nat} {n' : Node P T} (hn : t'.node? i = some n') :
    ∃ n, t.node? i = some n ∧ view n = view n' := by
  have hi := h i
  rw [hn] at hi
  exact Option.map_eq_some_iff.mp hi.symm

theorem Agree.cases (h : Agree view t t') (i : Nat) :
    (t.node? i = none ∧ t'.node? i = none) ∨
      ∃ n n', t.node? i = some n ∧ t'.node? i = some n' ∧ view n' = view n := by
  have hi := h i
  cases hn : t.node? i with
  | none =>
    rw [hn, Option.map_none, Option.map_eq_none_iff] at hi
    exact Or.inl ⟨rfl, hi⟩
  | some n =>
    rw [hn] at hi
    obtain ⟨n', hn', hview⟩ := Option.map_eq_some_iff.mp hi
    exact Or.inr ⟨n, n', rfl, hn', hview⟩

/-- What can be read off the view is the same for both trees. -/
theorem Agree.bind_eq {β : Type} {f : Node P T → Option β} (h : Agree view t t')
    (hf : ∀ n n', view n = view n' → f n = f n') (i : Nat) :
    (t'.node? i).bind f = (t.node? i).bind f := by
  rcases h.cases i with ⟨hn, hn'⟩ | ⟨n, n', hn, hn', hview⟩
  · rw [hn, hn']
  · rw [hn, hn']
    exact hf n' n hview

theorem Agree.size (h : Agree view t t') : t'.size = t.size := by
  have hle : ∀ {t t' : Tree P T}, Agree view t t' → t'.size ≤ t.size := by
    intro t t' h
    by_contra hlt
    obtain ⟨n', hn'⟩ := exists_node? (t := t') (i := t.size) (by omega)
    obtain ⟨n, hn, -⟩ := h.node? hn'
    have := lt_size_of_node? hn
    omega
  exact Nat.le_antisymm (hle h) (hle h.symm)

end Agree

/-! ## Adding children -/

/-- The tree with new nodes, which are the last children of `p`. -/
def withChildren (t : Tree P T) (p : Nat) (kids : List (Node P T)) : Tree P T :=
  ⟨(t.modify p (·.adoptAll (List.range' t.size kids.length))).nodes ++ kids.toArray⟩

@[simp] theorem size_withChildren (t : Tree P T) (p : Nat) (kids : List (Node P T)) :
    (t.withChildren p kids).size = t.size + kids.length := by
  show ((t.modify p _).nodes ++ kids.toArray).size = t.size + kids.length
  rw [Array.size_append, List.size_toArray]
  exact congrArg (· + kids.length) (size_modify t p _)

theorem node?_withChildren_of_lt {t : Tree P T} {i : Nat} (p : Nat) (kids : List (Node P T))
    (h : i < t.size) :
    (t.withChildren p kids).node? i =
      if p = i then (t.node? i).map (·.adoptAll (List.range' t.size kids.length))
      else t.node? i := by
  unfold withChildren
  rw [← node?_modify]
  exact Array.getElem?_append_left (by rwa [← size, size_modify])

theorem node?_withChildren_of_ge {t : Tree P T} {i : Nat} (p : Nat) (kids : List (Node P T))
    (h : t.size ≤ i) : (t.withChildren p kids).node? i = kids[i - t.size]? := by
  have hsize : (t.modify p (·.adoptAll (List.range' t.size kids.length))).nodes.size = t.size :=
    size_modify _ _ _
  unfold withChildren node?
  rw [Array.getElem?_append_right (by rwa [hsize]), hsize]
  exact List.getElem?_toArray

/-- The nodes that were there before, with their new children if they have some. -/
theorem node?_withChildren_old {t : Tree P T} {p i : Nat} {kids : List (Node P T)} {n' : Node P T}
    (hi : i < t.size) (h : (t.withChildren p kids).node? i = some n') :
    ∃ n, t.node? i = some n ∧
      n' = if p = i then n.adoptAll (List.range' t.size kids.length) else n := by
  obtain ⟨n, hn⟩ := exists_node? hi
  rw [node?_withChildren_of_lt p kids hi, hn] at h
  refine ⟨n, hn, ?_⟩
  split_ifs at h ⊢
  · exact (Option.some.inj h).symm
  · exact (Option.some.inj h).symm

theorem node?_withChildren_new {t : Tree P T} {p i : Nat} {kids : List (Node P T)} {n' : Node P T}
    (hi : t.size ≤ i) (h : (t.withChildren p kids).node? i = some n') : n' ∈ kids := by
  rw [node?_withChildren_of_ge p kids hi] at h
  exact List.mem_of_getElem? h

theorem withChildren_nil (t : Tree P T) (p : Nat) : t.withChildren p [] = t := by
  apply ext_node?
  intro i
  rcases Nat.lt_or_ge i t.size with h | h
  · rw [node?_withChildren_of_lt p [] h]
    split_ifs
    · rw [List.length_nil, List.range'_zero]
      simp [Node.adoptAll_nil]
    · rfl
  · rw [node?_withChildren_of_ge p [] h, node?_eq_none h]
    rfl

/-- Adding a child names the next number. -/
theorem addChild_eq {t : Tree P T} {p : Nat} {pn kid : Node P T} (hp : t.node? p = some pn)
    (hparent : kid.parent = some p) (hstage : kid.stage = pn.stage + 1) :
    t.addChild p kid = .ok (t.size, t.withChildren p [kid]) := by
  unfold addChild
  rw [if_pos hparent, hp]
  simp only [if_pos hstage, Except.ok.injEq, Prod.mk.injEq, true_and]
  have hlt := lt_size_of_node? hp
  apply ext_node?
  intro i
  rw [show (⟨(t.nodes.push kid).modify p (·.adopt t.size)⟩ : Tree P T).node? i =
    ((t.nodes.push kid).modify p (·.adopt t.size))[i]? from rfl, Array.getElem?_modify,
    Array.getElem?_push, show t.nodes.size = t.size from rfl]
  rcases Nat.lt_trichotomy i t.size with h | rfl | h
  · rw [node?_withChildren_of_lt p [kid] h, if_neg (Nat.ne_of_lt h)]
    split_ifs
    · congr 1
    · rfl
  · rw [node?_withChildren_of_ge p [kid] (Nat.le_refl _), if_neg (Nat.ne_of_lt hlt), if_pos rfl,
      Nat.sub_self]
    rfl
  · rw [node?_withChildren_of_ge p [kid] (Nat.le_of_lt h), if_neg (by omega),
      if_neg (Nat.ne_of_gt h)]
    show t.node? i = _
    rw [node?_eq_none (Nat.le_of_lt h), List.getElem?_eq_none (by simp only [List.length_singleton]; omega)]

theorem withChildren_cons {t : Tree P T} {p : Nat} (hp : p < t.size) (kid : Node P T)
    (kids : List (Node P T)) :
    (t.withChildren p [kid]).withChildren p kids = t.withChildren p (kid :: kids) := by
  apply ext_node?
  intro i
  have hsize : (t.withChildren p [kid]).size = t.size + 1 := size_withChildren t p [kid]
  rcases Nat.lt_or_ge i t.size with h | h
  · rw [node?_withChildren_of_lt p kids (by omega), node?_withChildren_of_lt p [kid] h,
      node?_withChildren_of_lt p (kid :: kids) h, hsize]
    split_ifs
    · rw [Option.map_map]
      congr 1
      funext n
      simp only [Function.comp_apply, List.length_cons, List.length_nil, List.range'_succ,
        List.range'_zero, Node.adoptAll_cons, Node.adoptAll_nil]
    · rfl
  · rw [node?_withChildren_of_ge p (kid :: kids) h]
    rcases Nat.eq_or_lt_of_le h with rfl | h
    · rw [node?_withChildren_of_lt p kids (by omega), if_neg (by omega),
        node?_withChildren_of_ge p [kid] h, Nat.sub_self]
      rfl
    · rw [node?_withChildren_of_ge p kids (by omega), hsize,
        show i - t.size = (i - (t.size + 1)) + 1 by omega]
      rfl

/-- Adding children succeeds if they name their parent and are one stage further. -/
theorem addChildren_eq {t : Tree P T} {p : Nat} {pn : Node P T} (hp : t.node? p = some pn)
    {kids : List (Node P T)}
    (hkids : ∀ kid ∈ kids, kid.parent = some p ∧ kid.stage = pn.stage + 1) :
    t.addChildren p kids = (.ok (List.range' t.size kids.length), t.withChildren p kids) := by
  induction kids generalizing t pn with
  | nil =>
    unfold addChildren
    rw [withChildren_nil]
    rfl
  | cons kid kids ih =>
    obtain ⟨hparent, hstage⟩ := hkids kid List.mem_cons_self
    have hlt := lt_size_of_node? hp
    have hp' : (t.withChildren p [kid]).node? p = some (pn.adoptAll [t.size]) := by
      rw [node?_withChildren_of_lt p [kid] hlt, if_pos rfl, hp]
      rfl
    have hrest := ih hp' fun k hk => hkids k (List.mem_cons_of_mem _ hk)
    unfold addChildren
    rw [addChild_eq hp hparent hstage]
    simp only [hrest, size_withChildren, withChildren_cons hlt, List.length_nil,
      List.length_cons, Nat.zero_add, List.range'_succ]

end Tree

end LoopTuner
