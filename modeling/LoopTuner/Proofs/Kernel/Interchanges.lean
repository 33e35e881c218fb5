import LoopTuner.Proofs.Kernel.Enumeration
import LoopTuner.Proofs.Kernel.Reduction

/-!
# All interchanges

An interchange is proposed for each order of the loops of a nest but the present one, as long as the leading
parallel loops stay in their places and an operation of class `reduction` ends with a reduction. The orders
are listed lexicographically (`Proposals.candidates_extend_interchanges`). In a generated kernel the reduction
of such an operation is the last loop, so its loops before that are the ones that can change places.
-/

namespace LoopTuner

namespace Nest

/-- The number of parallel loops before the first other one. -/
def leading (loops : List Loop) : Nat := (loops.takeWhile (·.parallel)).length

/-- An order of the loops other than the present one. It keeps the leading parallel loops, and for an
operation of class `reduction` some reduction loop comes last. -/
structure Reorders (opClass : OpClass) (loops : List Loop) (order : List Nat) : Prop where
  perm : order.Perm (List.range loops.length)
  fixes : ∀ i < leading loops, order[i]? = some i
  ne_range : order ≠ List.range loops.length
  ends : opClass = .reduction →
    ∃ i l, order.getLast? = some i ∧ loops[i]? = some l ∧ l.reduction = true

variable {opClass : OpClass} {loops : List Loop} {order : List Nat}

/-! ## The orders of a nest -/

/-- The positions of the loops after the leading parallel ones. -/
def movable (loops : List Loop) : List Nat := List.range' (leading loops) (loops.length - leading loops)

theorem leading_le (loops : List Loop) : leading loops ≤ loops.length :=
  (List.takeWhile_sublist _).length_le

theorem range_append_movable (loops : List Loop) :
    List.range (leading loops) ++ movable loops = List.range loops.length :=
  Proposals.range_append_range' (leading_le loops)

theorem ascending_movable (loops : List Loop) : (movable loops).Pairwise (· < ·) :=
  List.pairwise_lt_range'

/-- The orders of the loops after the leading parallel ones that are proposed for a nest. -/
def movedOrders (opClass : OpClass) (loops : List Loop) : List (List Nat) :=
  (Proposals.arrangements (movable loops).length (movable loops)).filter fun order =>
    order != movable loops && (opClass != .reduction || Proposals.endsInReduction loops order)

/-- The orders of the interchanges that are proposed for a nest. -/
def interchangeOrders (opClass : OpClass) (loops : List Loop) : List (List Nat) :=
  (movedOrders opClass loops).map (List.range (leading loops) ++ ·)

theorem interchanges_eq (op : Nat) (opClass : OpClass) (n : Nest) :
    Proposals.interchanges op opClass n = (interchangeOrders opClass n.loops).map (.interchange op ·) := by
  unfold interchangeOrders
  rw [List.map_map]
  rfl

theorem endsInReduction_iff : Proposals.endsInReduction loops order = true ↔
    ∃ i l, order.getLast? = some i ∧ loops[i]? = some l ∧ l.reduction = true := by
  unfold Proposals.endsInReduction
  cases order.getLast? with
  | none => simp
  | some i => cases hl : loops[i]? <;> simp [hl]

theorem mem_movedOrders : order ∈ movedOrders opClass loops ↔
    order.Perm (movable loops) ∧ order ≠ movable loops ∧ (opClass = .reduction →
      ∃ i l, order.getLast? = some i ∧ loops[i]? = some l ∧ l.reduction = true) := by
  rw [movedOrders, List.mem_filter, Proposals.mem_arrangements, ← endsInReduction_iff]
  simp [imp_iff_not_or]

/-- An order that fixes the leading loops is one of the other loops. -/
theorem exists_eq_range_append (hperm : order.Perm (List.range loops.length))
    (hfixes : ∀ i < leading loops, order[i]? = some i) :
    ∃ moved, order = List.range (leading loops) ++ moved ∧ moved.Perm (movable loops) := by
  have htake : order.take (leading loops) = List.range (leading loops) := by
    refine List.ext_getElem? fun i => ?_
    rw [List.getElem?_take]
    split_ifs with hi
    · rw [hfixes i hi, List.getElem?_range hi]
    · rw [List.getElem?_eq_none (by simpa using hi)]
  have horder : order = List.range (leading loops) ++ order.drop (leading loops) := by
    rw [← htake, List.take_append_drop]
  refine ⟨_, horder, ?_⟩
  rw [horder, ← range_append_movable] at hperm
  exact (List.perm_append_left_iff _).mp hperm

theorem mem_interchangeOrders :
    order ∈ interchangeOrders opClass loops ↔ Reorders opClass loops order := by
  rw [interchangeOrders, List.mem_map]
  constructor
  · rintro ⟨moved, hmoved, rfl⟩
    obtain ⟨hperm, hne, hends⟩ := mem_movedOrders.mp hmoved
    refine ⟨Proposals.perm_range (leading_le loops) hperm, fun i hi => ?_, fun heq => ?_,
      fun hclass => ?_⟩
    · rw [List.getElem?_append_left (by rwa [List.length_range]), List.getElem?_range hi]
    · rw [← range_append_movable] at heq
      exact hne (List.append_cancel_left heq)
    · obtain ⟨i, l, hi, hl, hreduction⟩ := hends hclass
      exact ⟨i, l, by rw [List.getLast?_append, hi, Option.some_or], hl, hreduction⟩
  · rintro ⟨hperm, hfixes, hne, hends⟩
    obtain ⟨moved, rfl, hmoved⟩ := exists_eq_range_append hperm hfixes
    have hne' : moved ≠ movable loops := by
      rintro rfl
      exact hne (range_append_movable loops)
    -- without other loops there is only one order
    have hnil : moved ≠ [] := by
      rintro rfl
      exact hne' (List.nil_perm.mp hmoved).symm
    refine ⟨moved, mem_movedOrders.mpr ⟨hmoved, hne', fun hclass => ?_⟩, rfl⟩
    obtain ⟨i, l, hi, hl, hreduction⟩ := hends hclass
    rw [List.getLast?_append_of_ne_nil _ hnil] at hi
    exact ⟨i, l, hi, hl, hreduction⟩

theorem enumerates_interchangeOrders (opClass : OpClass) (loops : List Loop) :
    Enumerates (LexBefore fun i => i) (Reorders opClass loops) (interchangeOrders opClass loops) := by
  have hascending : (interchangeOrders opClass loops).Pairwise (LexBefore fun i => i) := by
    refine List.pairwise_map.mpr (List.Pairwise.imp (LexBefore.append_left _) ?_)
    exact (Proposals.ascending_arrangements (ascending_movable loops)).filter _
  exact ⟨fun _ => mem_interchangeOrders, hascending.nodup, hascending⟩

/-! ## How many there are -/

theorem nodup_arrangements_movable (loops : List Loop) :
    (Proposals.arrangements (movable loops).length (movable loops)).Nodup :=
  (Proposals.ascending_arrangements (ascending_movable loops)).nodup

theorem length_interchangeOrders (hclass : opClass ≠ .reduction) (loops : List Loop) :
    (interchangeOrders opClass loops).length + 1 = (loops.length - leading loops).factorial := by
  have hmem : movable loops ∈ Proposals.arrangements (movable loops).length (movable loops) :=
    Proposals.mem_arrangements.mpr (List.Perm.refl _)
  rw [interchangeOrders, List.length_map, movedOrders,
    length_filter_add_one (nodup_arrangements_movable loops) hmem fun order _ => by simp [hclass],
    (Proposals.arrangements_perm (ascending_movable loops)).length_eq, List.length_permutations, movable,
    List.length_range']

/-- The only reduction among the loops is the last one, which does not belong to the leading ones. -/
structure ReductionLast (loops : List Loop) : Prop where
  leading_lt : leading loops < loops.length
  reduction_iff : ∀ (i : Nat) l, loops[i]? = some l → (l.reduction = true ↔ i + 1 = loops.length)

/-- The movable positions before the last one. -/
def movableFront (loops : List Loop) : List Nat :=
  List.range' (leading loops) (loops.length - leading loops - 1)

theorem ReductionLast.movable_eq (h : ReductionLast loops) :
    movable loops = movableFront loops ++ [loops.length - 1] := by
  have hlt := h.leading_lt
  have hconcat := List.range'_1_concat (s := leading loops) (n := loops.length - leading loops - 1)
  rw [show loops.length - leading loops - 1 + 1 = loops.length - leading loops by omega,
    show leading loops + (loops.length - leading loops - 1) = loops.length - 1 by omega] at hconcat
  exact hconcat

theorem ReductionLast.exists_iff (h : ReductionLast loops) :
    (∃ i l, order.getLast? = some i ∧ loops[i]? = some l ∧ l.reduction = true) ↔
      ∃ front, order = front ++ [loops.length - 1] := by
  rw [← List.getLast?_eq_some_iff]
  constructor
  · rintro ⟨i, l, hi, hl, hreduction⟩
    rw [hi, ← (h.reduction_iff i l hl).mp hreduction, Nat.add_sub_cancel]
  · intro hlast
    have hlt : loops.length - 1 < loops.length := Nat.sub_one_lt_of_lt h.leading_lt
    refine ⟨_, _, hlast, List.getElem?_eq_getElem hlt, ?_⟩
    exact (h.reduction_iff _ _ (List.getElem?_eq_getElem hlt)).mpr (by omega)

/-- The arrangements that end with the reduction are those of the loops before it. -/
theorem ReductionLast.perm_filter (h : ReductionLast loops) :
    ((Proposals.arrangements (movable loops).length (movable loops)).filter
      (Proposals.endsInReduction loops)).Perm
        ((movableFront loops).permutations.map (· ++ [loops.length - 1])) := by
  have hfront : (movableFront loops).Nodup := List.nodup_range'
  have hmap : ((movableFront loops).permutations.map (· ++ [loops.length - 1])).Nodup :=
    (List.nodup_permutations _ hfront).map (List.append_left_injective _)
  refine (List.perm_ext_iff_of_nodup ((nodup_arrangements_movable loops).filter _) hmap).mpr fun order => ?_
  rw [List.mem_filter, Proposals.mem_arrangements, endsInReduction_iff, h.exists_iff, h.movable_eq,
    List.mem_map]
  constructor
  · rintro ⟨hperm, front, rfl⟩
    exact ⟨front, List.mem_permutations.mpr ((List.perm_append_right_iff _).mp hperm), rfl⟩
  · rintro ⟨front, hfront, rfl⟩
    exact ⟨(List.mem_permutations.mp hfront).append_right _, front, rfl⟩

theorem ReductionLast.length_interchangeOrders (h : ReductionLast loops) :
    (interchangeOrders .reduction loops).length + 1 = (loops.length - leading loops - 1).factorial := by
  have hmem : movable loops ∈ (Proposals.arrangements (movable loops).length (movable loops)).filter
      (Proposals.endsInReduction loops) := by
    rw [h.perm_filter.mem_iff, h.movable_eq]
    exact List.mem_map.mpr ⟨_, List.mem_permutations.mpr (List.Perm.refl _), rfl⟩
  have hnodup := (nodup_arrangements_movable loops).filter (Proposals.endsInReduction loops)
  have hcount := length_filter_add_one hnodup hmem (p := (· != movable loops)) fun _ _ => bne_iff_ne
  rw [List.filter_filter, h.perm_filter.length_eq, List.length_map, List.length_permutations, movableFront,
    List.length_range'] at hcount
  rw [interchangeOrders, List.length_map]
  exact hcount

/-- A generated nest of class `reduction` ends in its reduction. -/
theorem Legal.reductionLast {declared n : Nest} (h : declared.Legal n) (hclass : n.opClass = .reduction) :
    ReductionLast n.loops := by
  obtain ⟨last, hlast, hreduction⟩ := h.sound.reduction_last hclass
  have hmem := List.mem_of_getLast? hlast
  refine ⟨lt_of_le_of_ne (leading_le n.loops) fun heq => ?_, fun i l hl => ?_⟩
  · have hall : n.loops.takeWhile (·.parallel) = n.loops := (List.takeWhile_sublist _).eq_of_length heq
    rw [← hall] at hmem
    have hparallel := List.mem_takeWhile_imp hmem
    rw [(h.sound.each last (List.mem_of_getLast? hlast)).not_parallel hreduction] at hparallel
    cases hparallel
  · rw [List.getLast?_eq_getElem?] at hlast
    obtain ⟨hi, -⟩ := List.getElem?_eq_some_iff.mp hl
    constructor
    · intro hr
      have heq := h.oneReduction l (List.mem_of_getElem? hl) last hmem hr hreduction
      have hposition : i = n.loops.length - 1 :=
        (List.getElem?_inj hi h.nodup_names.of_map).mp (by rw [hl, hlast, heq])
      omega
    · intro hposition
      rw [show i = n.loops.length - 1 by omega, hlast] at hl
      cases hl
      exact hreduction

theorem Legal.length_interchangeOrders {declared n : Nest} (h : declared.Legal n) :
    (interchangeOrders n.opClass n.loops).length + 1 =
      if n.opClass = .reduction then (n.loops.length - leading n.loops - 1).factorial
      else (n.loops.length - leading n.loops).factorial := by
  split_ifs with hclass
  · rw [hclass]
    exact (h.reductionLast hclass).length_interchangeOrders
  · exact Nest.length_interchangeOrders hclass n.loops

end Nest

/-- Whatever candidates were taken from a kernel text, and for every classification that it is given, the
candidates for an interchange are all reorderings of the first operation in byte order of the ids, then all
of the second one, and so on. With the classification of the kernel itself, all loops after the leading
parallel ones can change places, except for the reduction of an operation of class `reduction`. -/
theorem Proposals.candidates_extend_interchanges {text : String} {k : Kernel}
    (hread : Kernel.read text = .ok k) {node : KernelNode}
    (hderived : Kernel.Derived k.classify k node.program) {c : Classification Nat}
    {operations : List (Nat × OpClass)} (hresolve : node.program.resolve c = .ok operations)
    (sizes : Option (List Nat)) :
    node.program.Lists c operations ∧
      ∃ (orders : Nat × OpClass → List (List Nat)) (cs : List (Candidate Kernel Step)),
        candidates (ofKind .interchange sizes) node c = .ok cs ∧
        Extends node (operations.flatMap fun op => (orders op).map (.interchange op.1 ·)) cs ∧
        ∀ op ∈ operations, ∃ n, node.program.nests[op.1]? = some n ∧
          Enumerates (LexBefore fun i => i) (Nest.Reorders op.2 n.loops) (orders op) ∧
          (c = k.classify → (orders op).length + 1 =
            if n.opClass = .reduction then (n.loops.length - Nest.leading n.loops - 1).factorial
            else (n.loops.length - Nest.leading n.loops).factorial) := by
  have hnodup : (node.program.nests.map Nest.id).Nodup := by
    rw [Nest.map_id_of_reshaped hderived.reshaped]
    exact Kernel.nodup_ids_of_applyAll hread (show Step.applyAll [] k = .ok k from rfl)
  refine ⟨Kernel.lists_of_resolve hnodup hresolve, ?_⟩
  obtain ⟨orders, cs, hcs, hextends, horders⟩ := exists_candidates_listed .interchange sizes
    (fun opClass n => Nest.interchangeOrders opClass n.loops) Nest.interchanges_eq hresolve
  refine ⟨orders, cs, hcs, hextends, fun op hop => ?_⟩
  obtain ⟨n, hn, hlisted⟩ := horders op hop
  refine ⟨n, hn, hlisted ▸ Nest.enumerates_interchangeOrders op.2 n.loops, fun hc => ?_⟩
  -- the operation has the class that its nest was declared with
  subst hc
  obtain ⟨d, hd, hclass⟩ := Kernel.exists_of_mem_resolve hresolve hop
  have hsame := (forall₂_getElem? hderived.reshaped hd hn).opClass_eq
  obtain ⟨_, hlegal⟩ := hderived.exists_legal (Kernel.declared_of_read hread) (List.mem_of_getElem? hn)
  rw [hlisted, ← hclass, ← hsame]
  exact hlegal.length_interchangeOrders

/-- A sum whose outermost loop runs in parallel. Two loops lie between that one and the reduction. -/
theorem Proposals.candidates_extend_interchanges_sum :
    let k : Kernel := ⟨[⟨"sum", .reduction,
      [.declare "h" 2 false, .declare "i" 4 false, .declare "j" 6 false, .declare "k" 8 true]⟩]⟩
    let n : Nest := ⟨"sum", .reduction,
      [⟨"h", 2, false, none, true, none⟩, .declare "i" 4 false, .declare "j" 6 false, .declare "k" 8 true]⟩
    let node : KernelNode := .root ⟨[n]⟩ 1
    let operations : List (Nat × OpClass) := [(0, .reduction)]
    Kernel.read "sum reduction h=2 i=4 j=6 k=8" = .ok k ∧ Kernel.Derived k.classify k node.program ∧
      node.program.resolve k.classify = .ok operations ∧
      ∃ (orders : Nat × OpClass → List (List Nat)) (cs : List (Candidate Kernel Step)),
        candidates (ofKind .interchange none) node k.classify = .ok cs ∧
        cs.map (·.transformation) = [.interchange 0 [0, 2, 1, 3]] ∧
        Extends node (operations.flatMap fun op => (orders op).map (.interchange op.1 ·)) cs ∧
        Enumerates (LexBefore fun i => i) (Nest.Reorders .reduction n.loops) (orders (0, .reduction)) ∧
        (orders (0, .reduction)).length + 1 = Nat.factorial (4 - 1 - 1) := by
  intro k n node operations
  have hread : Kernel.read "sum reduction h=2 i=4 j=6 k=8" = .ok k := by rfl
  have hderived : Kernel.Derived k.classify k node.program := by
    have hcs : (candidates (ofKind .parallelization none) (.root k 0) k.classify).toOption.bind
        (·.head?) = some ⟨⟨[n]⟩, .parallelize 0 1, [.parallelize 0 1]⟩ := by rfl
    cases hcandidates : candidates (ofKind .parallelization none) (.root k 0) k.classify with
    | error e =>
      rw [hcandidates] at hcs
      cases hcs
    | ok cs =>
      rw [hcandidates] at hcs
      exact .candidate .refl hcandidates (List.mem_of_head? hcs)
  have hresolve : node.program.resolve k.classify = .ok operations := by rfl
  obtain ⟨-, orders, cs, hcs, hextends, horders⟩ :=
    candidates_extend_interchanges hread hderived hresolve none
  obtain ⟨m, hm, henumerates, hcount⟩ := horders (0, .reduction) List.mem_cons_self
  cases hm
  have hsteps : (candidates (ofKind .interchange none) node k.classify).toOption.map
      (List.map (·.transformation)) = some [.interchange 0 [0, 2, 1, 3]] := by rfl
  rw [hcs] at hsteps
  exact ⟨hread, hderived, hresolve, orders, cs, hcs, Option.some.inj hsteps, hextends, henumerates,
    hcount rfl⟩

end LoopTuner
