import LoopTuner.Proofs.Cost.Least
import LoopTuner.Proofs.Tree.Shape
import LoopTuner.Search.Descent

/-!
# The walks on a tree

The way up from a node, the selection of a node to work on and the search for the best node go from
node to node until they cannot go on. In a well-formed tree a walk down passes greater and greater
numbers, so it ends (`Tree.WellFormed.exists_trace`), and it passes further and further stages, so it is
no longer than these allow (`Tree.WellFormed.length_le_of_trace`).
-/

namespace LoopTuner

variable {P T : Type}

/-- The places that a walk passes after the first one, until it cannot go on. -/
inductive Trace {α : Type} (next : α → Option α) : α → List α → Prop
  | stop {a : α} (h : next a = none) : Trace next a []
  | step {a b : α} {path : List α} (h : next a = some b) (rest : Trace next b path) :
      Trace next a (b :: path)

theorem Trace.forall_mem {α : Type} {next : α → Option α} {p : α → Prop}
    (hp : ∀ a b, next a = some b → p b) {a : α} {path : List α} (h : Trace next a path) :
    ∀ b ∈ path, p b := by
  induction h with
  | stop _ => exact List.forall_mem_nil p
  | step hnext _ ih => exact List.forall_mem_cons.mpr ⟨hp _ _ hnext, ih⟩

/-! ## Choices -/

/-- A fold that keeps its choice or takes the next element chooses one of them. -/
theorem mem_foldl_of_choice {α β : Type} {f : β → α → β} (choice : β → α)
    (hf : ∀ b x, choice (f b x) = choice b ∨ choice (f b x) = x) (b : β) (xs : List α) :
    choice (xs.foldl f b) ∈ choice b :: xs := by
  induction xs generalizing b with
  | nil => exact List.mem_singleton.mpr rfl
  | cons x xs ih =>
    rw [List.foldl_cons]
    rcases List.mem_cons.mp (ih (f b x)) with h | h
    · rcases hf b x with h' | h'
      · rw [h, h']
        exact List.mem_cons_self
      · rw [h, h']
        exact List.mem_cons_of_mem _ List.mem_cons_self
    · exact List.mem_cons_of_mem _ (List.mem_cons_of_mem _ h)

theorem Descent.bestScored_mem (d : Descent) (t : Tree P T) (parent : Node P T) (first : Nat)
    (others : List Nat) : d.bestScored t parent first others ∈ first :: others := by
  refine mem_foldl_of_choice Prod.fst (fun best i => ?_) (first, _) others
  unfold better
  simp only
  split_ifs
  · exact Or.inr rfl
  · exact Or.inl rfl

/-! ## Walks up -/

namespace Tree

/-- The way up from a node is the whole walk along the parents. -/
theorem WellFormed.exists_trace_up {t : Tree P T} (ht : t.WellFormed) {i : Nat} (hi : i < t.size) :
    ∃ path, Trace t.parent? i path ∧ t.pathToRoot i = i :: path := by
  induction i, hi using ht.rooted.induction_up with
  | root => exact ⟨[], .stop ht.parent_root, pathToRoot_of_root ht.parent_root⟩
  | step i p h hp ih =>
    obtain ⟨path, htrace, hpath⟩ := ih
    refine ⟨p :: path, .step h htrace, ?_⟩
    rw [ht.rooted.pathToRoot_of_parent h, hpath]

/-- The way up passes one stage after another. -/
theorem WellFormed.length_pathToRoot {t : Tree P T} (ht : t.WellFormed) {root : Node P T}
    (hroot : t.node? rootIndex = some root) {i : Nat} {n : Node P T} (hn : t.node? i = some n) :
    (t.pathToRoot i).length + root.stage = n.stage + 1 := by
  have hi := lt_size_of_node? hn
  induction i, hi using ht.rooted.induction_up generalizing n with
  | root =>
    obtain rfl : root = n := Option.some.inj (hroot.symm.trans hn)
    rw [pathToRoot_of_root ht.parent_root, List.length_singleton, Nat.add_comm]
  | step i p h hp ih =>
    obtain ⟨pn, hpn⟩ := exists_node? hp
    have hstage := ht.stage_eq i n p pn hn (parent?_of_node? hn ▸ h) hpn
    rw [ht.rooted.pathToRoot_of_parent h, List.length_cons, Nat.add_right_comm, ih hpn, hstage]

/-! ## Walks down -/

/-- A way to go on that leads from nodes to their children. -/
def Downward (t : Tree P T) (next : Nat → Option Nat) : Prop :=
  ∀ i j, next i = some j → t.parent? j = some i

/-- The child of least average, if there is a node with children. -/
def bestChild? (t : Tree P T) (i : Nat) : Option Nat :=
  (t.node? i).bind fun n => Cost.leastBy t.rankOf n.children.toList

theorem bestChild_eq {t : Tree P T} {i : Nat} (hi : i < t.size) :
    t.bestChild i = .ok (t.bestChild? i) := by
  obtain ⟨n, hn⟩ := exists_node? hi
  unfold bestChild bestChild?
  rw [hn]
  rfl

section Downward

variable {t : Tree P T} {next : Nat → Option Nat} (ht : t.WellFormed) (hdown : t.Downward next)

include ht hdown

/-- A walk down ends, for it passes greater and greater numbers. -/
theorem WellFormed.exists_trace {i : Nat} (hi : i < t.size) : ∃ path, Trace next i path := by
  induction hk : t.size - i using Nat.strongRecOn generalizing i with
  | ind k ih =>
    cases hj : next i with
    | none => exact ⟨[], .stop hj⟩
    | some j =>
      have hparent := hdown i j hj
      have hlt := ht.rooted.parent?_lt hparent
      obtain ⟨path, hpath⟩ := ih (t.size - j) (by omega) (lt_size_of_parent? hparent) rfl
      exact ⟨j :: path, .step hj hpath⟩

/-- A walk down passes greater and greater numbers. -/
theorem WellFormed.pairwise_trace {i : Nat} {path : List Nat} (h : Trace next i path) :
    (i :: path).Pairwise (· < ·) := by
  induction h with
  | stop _ => exact List.pairwise_singleton _ _
  | @step i j path hj _ ih =>
    have hlt := ht.rooted.parent?_lt (hdown i j hj)
    refine List.pairwise_cons.mpr ⟨List.forall_mem_cons.mpr ⟨hlt, fun k hk => ?_⟩, ih⟩
    exact Nat.lt_trans hlt ((List.pairwise_cons.mp ih).1 k hk)

theorem WellFormed.length_lt_of_trace {i : Nat} (hi : i < t.size) {path : List Nat}
    (h : Trace next i path) : path.length < t.size := by
  have hlength : path.length + i < t.size := by
    induction h with
    | stop _ => rwa [List.length_nil, Nat.zero_add]
    | @step i j path hj _ ih =>
      have hparent := hdown i j hj
      have hlt := ht.rooted.parent?_lt hparent
      have hrest := ih (lt_size_of_parent? hparent)
      rw [List.length_cons]
      omega
  exact Nat.lt_of_le_of_lt (Nat.le_add_right _ i) hlength

/-- A walk down passes further and further stages. -/
theorem WellFormed.length_le_of_trace {bound : Nat}
    (hbound : ∀ i n, t.node? i = some n → n.stage ≤ bound) {i : Nat} {n : Node P T}
    (hn : t.node? i = some n) {path : List Nat} (h : Trace next i path) :
    path.length + n.stage ≤ bound := by
  induction h generalizing n with
  | @stop i _ =>
    rw [List.length_nil, Nat.zero_add]
    exact hbound i n hn
  | @step i j path hj _ ih =>
    obtain ⟨jn, hjn, hparent⟩ := node?_of_parent? (hdown i j hj)
    have hstage := ht.stage_eq j jn i n hjn hparent hn
    rw [List.length_cons, Nat.add_right_comm, Nat.add_assoc, ← hstage]
    exact ih hjn

end Downward

theorem WellFormed.downward_bestChild {t : Tree P T} (ht : t.WellFormed) :
    t.Downward t.bestChild? := by
  intro i j h
  obtain ⟨n, hn, hbest⟩ := Option.bind_eq_some_iff.mp h
  exact (ht.mem_children_iff i n j hn).mp (Array.mem_toList_iff.mp (Cost.leastBy_mem hbest))

end Tree

/-! ## Selection -/

/-- What a selection looks at. -/
def Node.prospect (n : Node P T) : Bool × Array Nat × Nat × Tally :=
  (n.expanded, n.children, n.visits, n.accumulated)

namespace Descent

section Agree

variable {t t' : Tree P T} {n n' : Node P T}

theorem scoreOf_eq_of_agree (h : Tree.Agree Node.prospect t t') (hn : n'.prospect = n.prospect)
    (d : Descent) (i : Nat) : d.scoreOf t' n' i = d.scoreOf t n i := by
  have hscore : ∀ {m m' : Node P T}, m'.prospect = m.prospect → d.score n' m' = d.score n m := by
    intro m m' hm
    simp only [Node.prospect, Prod.mk.injEq] at hn hm
    unfold score Node.average
    rw [hn.2.2.1, hm.2.2.1, hm.2.2.2]
  unfold scoreOf
  rcases h.cases i with ⟨hm, hm'⟩ | ⟨m, m', hm, hm', hprospect⟩
  · rw [hm, hm']
  · rw [hm, hm']
    exact hscore hprospect

theorem bestScored_eq_of_agree (h : Tree.Agree Node.prospect t t') (hn : n'.prospect = n.prospect)
    (d : Descent) (first : Nat) (others : List Nat) :
    d.bestScored t' n' first others = d.bestScored t n first others := by
  have hbetter : d.better t' n' = d.better t n := by
    funext best i
    unfold better
    rw [scoreOf_eq_of_agree h hn]
  unfold bestScored
  rw [hbetter, scoreOf_eq_of_agree h hn]

/-- A walk goes the same way in trees that look alike to it. -/
theorem walk_eq_of_agree (h : Tree.Agree Node.prospect t t') (d : Descent) (fuel i : Nat) :
    d.walk t' fuel i = d.walk t fuel i := by
  induction fuel generalizing i with
  | zero => rfl
  | succ fuel ih =>
    unfold walk
    rcases h.cases i with ⟨hn, hn'⟩ | ⟨n, n', hn, hn', hprospect⟩
    · rw [hn, hn']
    · have hsame := hprospect
      simp only [Node.prospect, Prod.mk.injEq] at hsame
      obtain ⟨hexpanded, hchildren, hvisits, -⟩ := hsame
      have hvisited : n'.isVisited = n.isVisited := by
        unfold Node.isVisited
        rw [hvisits]
      simp only [hn, hn', hexpanded, hvisited]
      rw [hchildren]
      cases n.children.toList with
      | nil => rfl
      | cons first others => simp only [bestScored_eq_of_agree h hprospect, ih]

theorem select_eq_of_agree (h : Tree.Agree Node.prospect t t') (d : Descent) (i : Nat) :
    d.select t' i = d.select t i := by
  unfold select
  rw [h.size]
  exact walk_eq_of_agree h d (t.size + 1) i

end Agree

/-- The child to go on at: there is none below a node that can still be expanded. -/
def next? (d : Descent) (t : Tree P T) (i : Nat) : Option Nat :=
  (t.node? i).bind fun n =>
    if n.expanded then
      match n.children.toList with
      | [] => none
      | first :: others => some (d.bestScored t n first others)
    else none

/-- The end of a walk from `i` along the given nodes: the last of them, unless the walk left a node
that was never visited. -/
def settle (t : Tree P T) : Nat → List Nat → Except Violation Nat
  | i, [] => .ok i
  | i, j :: path => if (t.node? i).any Node.isVisited then settle t j path else .error (.unvisited i)

theorem exists_of_next? {d : Descent} {t : Tree P T} {i j : Nat} (h : d.next? t i = some j) :
    ∃ n first others, t.node? i = some n ∧ n.expanded = true ∧
      n.children.toList = first :: others ∧ j = d.bestScored t n first others := by
  obtain ⟨n, hn, hnext⟩ := Option.bind_eq_some_iff.mp h
  split_ifs at hnext with hexpanded
  cases hlist : n.children.toList with
  | nil =>
    rw [hlist] at hnext
    cases hnext
  | cons first others =>
    rw [hlist] at hnext
    exact ⟨n, first, others, hn, hexpanded, hlist, (Option.some.inj hnext).symm⟩

theorem downward_next {t : Tree P T} (ht : t.WellFormed) (d : Descent) :
    t.Downward (d.next? t) := by
  intro i j h
  obtain ⟨n, first, others, hn, -, hlist, rfl⟩ := exists_of_next? h
  rw [← ht.mem_children_iff i n _ hn, ← Array.mem_toList_iff, hlist]
  exact d.bestScored_mem t n first others

/-- A walk with enough fuel goes on until it cannot. -/
theorem walk_of_trace {d : Descent} {t : Tree P T} (ht : t.WellFormed) {i : Nat} {path : List Nat}
    (h : Trace (d.next? t) i path) (hi : i < t.size) {fuel : Nat} (hfuel : path.length < fuel) :
    d.walk t fuel i = settle t i path := by
  induction h generalizing fuel with
  | @stop i hnone =>
    obtain ⟨n, hn⟩ := Tree.exists_node? hi
    obtain ⟨fuel, rfl⟩ := Nat.exists_eq_succ_of_ne_zero (Nat.ne_zero_of_lt hfuel)
    unfold next? at hnone
    unfold walk settle
    rw [hn] at hnone ⊢
    simp only [Option.bind_some] at hnone ⊢
    cases hexpanded : n.expanded with
    | false => rfl
    | true =>
      rw [hexpanded, if_pos rfl] at hnone
      rw [if_pos rfl]
      cases hlist : n.children.toList with
      | nil => rfl
      | cons first others =>
        rw [hlist] at hnone
        cases hnone
  | @step i j path hsome _ ih =>
    obtain ⟨n, first, others, hn, hexpanded, hlist, hj⟩ := exists_of_next? hsome
    obtain ⟨fuel, rfl⟩ := Nat.exists_eq_succ_of_ne_zero (Nat.ne_zero_of_lt hfuel)
    rw [List.length_cons, Nat.succ_lt_succ_iff] at hfuel
    have hrest := ih (Tree.lt_size_of_parent? (downward_next ht d i j hsome)) hfuel
    unfold walk settle
    simp only [hn, hexpanded, hlist, if_true, Option.any_some]
    rw [← hj, hrest]

theorem select_of_trace {d : Descent} {t : Tree P T} (ht : t.WellFormed) {i : Nat} {path : List Nat}
    (h : Trace (d.next? t) i path) (hi : i < t.size) : d.select t i = settle t i path := by
  have hlength := ht.length_lt_of_trace (downward_next ht d) hi h
  exact walk_of_trace ht h hi (Nat.lt_succ_of_lt hlength)

end Descent

end LoopTuner
