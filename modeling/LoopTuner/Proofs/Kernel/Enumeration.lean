import LoopTuner.Proofs.Kernel.Agreement
import LoopTuner.Proofs.Kernel.Applicable
import Mathlib.Data.List.Permutation

/-!
# Enumerations

The generators go through the ways to take one element from each of some lists, or through the
arrangements of some positions. Both are listed in lexicographic order and without repetition
(`Proposals.ascending_selections`, `Proposals.ascending_arrangements`), and there are as many of them as
one expects. The candidates of a node are what is listed for its operations, one operation after the other
(`Proposals.exists_candidates_listed`).
-/

namespace LoopTuner

/-- The list goes through everything that has the property, once each and in the given order. -/
structure Enumerates {α : Type} (lt : α → α → Prop) (p : α → Prop) (xs : List α) : Prop where
  mem_iff : ∀ x, x ∈ xs ↔ p x
  nodup : xs.Nodup
  ascending : xs.Pairwise lt

/-- Lists whose keys are in lexicographic order. -/
def LexBefore {α : Type} (key : α → Nat) (xs ys : List α) : Prop := xs.map key < ys.map key

namespace LexBefore

variable {α β : Type} {key : α → Nat}

instance : Std.Irrefl (LexBefore key) := ⟨fun _ => List.lt_irrefl _⟩

theorem append_left {xs ys : List α} (front : List α) (h : LexBefore key xs ys) :
    LexBefore key (front ++ xs) (front ++ ys) := by
  unfold LexBefore
  rw [List.map_append, List.map_append]
  exact List.append_left_lt h

/-- Lists are in order if their heads are and the lists with the same head are. -/
theorem pairwise_flatMap_cons {heads : List β} {head : β → α} {tails : β → List (List α)}
    (hheads : heads.Pairwise fun b b' => key (head b) < key (head b'))
    (htails : ∀ b ∈ heads, (tails b).Pairwise (LexBefore key)) :
    (heads.flatMap fun b => (tails b).map (head b :: ·)).Pairwise (LexBefore key) := by
  refine List.pairwise_flatMap.mpr ⟨fun b hb => ?_, hheads.imp ?_⟩
  · rw [List.pairwise_map]
    exact (htails b hb).imp fun h => h.append_left [head b]
  · intro b b' hlt xs hxs ys hys
    obtain ⟨xs, -, rfl⟩ := List.mem_map.mp hxs
    obtain ⟨ys, -, rfl⟩ := List.mem_map.mp hys
    exact List.cons_lt_cons_iff.mpr (Or.inl hlt)

end LexBefore

/-- All elements but one. -/
theorem length_filter_add_one {α : Type} [DecidableEq α] {xs : List α} (hnodup : xs.Nodup) {x : α}
    (hx : x ∈ xs) {p : α → Bool} (hp : ∀ y ∈ xs, p y = true ↔ y ≠ x) :
    (xs.filter p).length + 1 = xs.length := by
  have hfilter : xs.filter p = xs.erase x := by
    rw [hnodup.erase_eq_filter]
    exact List.filter_congr fun y hy => Bool.eq_iff_iff.mpr ((hp y hy).trans bne_iff_ne.symm)
  rw [hfilter, List.length_erase_add_one hx]

namespace Proposals

variable {α : Type} {key : α → Nat}

/-! ## Selections -/

theorem ascending_selections {options : List (List α)}
    (h : ∀ xs ∈ options, xs.Pairwise fun x y => key x < key y) :
    (selections options).Pairwise (LexBefore key) := by
  induction options with
  | nil => exact List.pairwise_singleton _ _
  | cons xs rest ih =>
    obtain ⟨hxs, hrest⟩ := List.forall_mem_cons.mp h
    exact LexBefore.pairwise_flatMap_cons hxs fun _ _ => ih hrest

theorem length_selections (options : List (List α)) :
    (selections options).length = (options.map List.length).prod := by
  induction options with
  | nil => rfl
  | cons xs rest ih => simp [selections, List.length_flatMap, ih]

/-! ## Arrangements -/

theorem map_fst_picks (xs : List α) : (picks xs).map Prod.fst = xs := by
  induction xs with
  | nil => rfl
  | cons x xs ih =>
    rw [picks, List.map_cons, List.map_map]
    exact congrArg (x :: ·) ih

theorem sublist_of_mem_picks {xs : List α} {pick : α × List α} (h : pick ∈ picks xs) :
    pick.2.Sublist xs := by
  induction xs generalizing pick with
  | nil => cases h
  | cons x xs ih =>
    rcases List.mem_cons.mp h with rfl | h
    · exact List.sublist_cons_self x xs
    · obtain ⟨pick', hpick, rfl⟩ := List.mem_map.mp h
      exact (ih hpick).cons_cons x

theorem ascending_arrangements {count : Nat} {xs : List α}
    (h : xs.Pairwise fun x y => key x < key y) :
    (arrangements count xs).Pairwise (LexBefore key) := by
  induction count generalizing xs with
  | zero => exact List.pairwise_singleton _ _
  | succ count ih =>
    refine LexBefore.pairwise_flatMap_cons ?_ fun pick hpick => ih (h.sublist (sublist_of_mem_picks hpick))
    rw [← List.pairwise_map (f := Prod.fst) (R := fun x y => key x < key y), map_fst_picks]
    exact h

/-- There are as many arrangements of all elements as permutations. -/
theorem arrangements_perm {xs : List α} (h : xs.Pairwise fun x y => key x < key y) :
    (arrangements xs.length xs).Perm xs.permutations := by
  have hxs : xs.Nodup := by
    refine h.imp ?_
    rintro x _ hlt rfl
    exact Nat.lt_irrefl _ hlt
  have hnodup := List.nodup_permutations xs hxs
  refine (List.perm_ext_iff_of_nodup (ascending_arrangements h).nodup hnodup).mpr ?_
  exact fun order => mem_arrangements.trans List.mem_permutations.symm

/-! ## Candidates -/

/-- The candidates of a node for the steps in order, each with the program that its step leads to. -/
def Extends (node : KernelNode) (steps : List Step) (cs : List (Candidate Kernel Step)) : Prop :=
  List.Forall₂ (fun step c => ∃ program, step.apply node.program = .ok program ∧
    c = .extending node program step) steps cs

theorem extends_of_applied {node : KernelNode} {steps : List Step} {cs : List (Candidate Kernel Step)}
    (h : applied node steps = .ok cs) : Extends node steps cs := by
  induction steps generalizing cs with
  | nil =>
    cases h
    exact .nil
  | cons step steps ih =>
    unfold applied at h
    split at h
    · cases h
    · rename_i program happly
      split at h
      · cases h
      · rename_i rest hrest
        cases h
        exact .cons ⟨program, happly, rfl⟩ (ih hrest)

/-- For a classification that resolves, the candidates of a node are the steps that are proposed for its
operations. -/
theorem exists_candidates_of_resolve (kind : Kind) (sizes : Option (List Nat)) {node : KernelNode}
    {c : Classification Nat} {operations : List (Nat × OpClass)}
    (hresolve : node.program.resolve c = .ok operations) :
    ∃ cs, candidates (ofKind kind sizes) node c = .ok cs ∧
      Extends node (stepsFor (ofKind kind sizes) node.program operations) cs := by
  have happly : ∀ s ∈ stepsFor (ofKind kind sizes) node.program operations,
      ∃ program, s.apply node.program = .ok program := fun _ => exists_apply_of_mem_stepsFor
  obtain ⟨cs, happlied⟩ := exists_applied happly
  refine ⟨cs, ?_, extends_of_applied happlied⟩
  unfold candidates
  simp only [hresolve, happlied]

/-- What is chosen for the nest of an operation. -/
def chosenFor (choices : OpClass → Nest → List α) (k : Kernel) (op : Nat × OpClass) : List α :=
  (k.nests[op.1]?).elim [] (choices op.2)

/-- If a generator turns what is chosen for a nest into steps, then the candidates are these steps,
operation after operation. -/
theorem exists_candidates_listed (kind : Kind) (sizes : Option (List Nat)) {step : Nat → α → Step}
    (choices : OpClass → Nest → List α)
    (hchoices : ∀ op opClass n, ofKind kind sizes op opClass n = (choices opClass n).map (step op))
    {node : KernelNode} {c : Classification Nat} {operations : List (Nat × OpClass)}
    (hresolve : node.program.resolve c = .ok operations) :
    ∃ (listed : Nat × OpClass → List α) (cs : List (Candidate Kernel Step)),
      candidates (ofKind kind sizes) node c = .ok cs ∧
      Extends node (operations.flatMap fun op => (listed op).map (step op.1)) cs ∧
      ∀ op ∈ operations, ∃ n, node.program.nests[op.1]? = some n ∧ listed op = choices op.2 n := by
  have hsteps : stepsFor (ofKind kind sizes) node.program operations =
      operations.flatMap fun op => (chosenFor choices node.program op).map (step op.1) := by
    refine List.flatMap_congr fun op _ => ?_
    simp only [chosenFor]
    cases node.program.nests[op.1]? with
    | none => rfl
    | some n => exact hchoices op.1 op.2 n
  obtain ⟨cs, hcs, hextends⟩ := exists_candidates_of_resolve kind sizes hresolve
  refine ⟨chosenFor choices node.program, cs, hcs, hsteps ▸ hextends, fun op hop => ?_⟩
  obtain ⟨-, hentries⟩ := Kernel.resolve_eq_ok_iff.mp hresolve
  obtain ⟨e, -, he⟩ := exists_of_forall₂_of_mem hentries hop
  obtain ⟨⟨n, hn, -⟩, hentry⟩ := Kernel.resolveEntry_eq_ok_iff.mp he
  rw [hentry] at hn
  exact ⟨n, hn, by rw [chosenFor, hn, Option.elim_some]⟩

end Proposals

end LoopTuner
