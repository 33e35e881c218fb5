import LoopTuner.Proofs.Kernel.Enumeration

/-!
# All tilings

A tiling is proposed for each way to give some loops of a nest a size out of the list, such that the size
divides the loop properly and the loop is neither tiled nor parallel yet. Tilings are listed with the sizes
in the order in which they are given, and the last loop varying fastest
(`Proposals.candidates_extend_tilings`).
-/

namespace LoopTuner

/-- Whether the loop can still be cut into tiles of this size. -/
def Loop.Tileable (l : Loop) (size : Nat) : Prop :=
  l.tile = none ∧ l.parallel = false ∧ 0 < size ∧ size < l.extent ∧ size ∣ l.extent

instance (l : Loop) (size : Nat) : Decidable (l.Tileable size) := by
  unfold Loop.Tileable
  infer_instance

namespace Nest

/-- One entry for each loop, none or a size out of the list by which the loop can be tiled, and not none
for all of them. -/
structure Tiles (sizes : List Nat) (loops : List Loop) (choice : List (Option Nat)) : Prop where
  each : List.Forall₂ (fun l entry => ∀ size, entry = some size → size ∈ sizes ∧ l.Tileable size)
    loops choice
  some_size : ∃ size, some size ∈ choice

/-- The place of an entry among the options for a loop: no tiling, then the sizes in their order. -/
def optionRank (sizes : List Nat) : Option Nat → Nat
  | none => 0
  | some size => sizes.idxOf size + 1

/-- The choices are all tilings of a nest in order. There are none once the nest is vectorized, and else
one for each way to choose among the options for the loops, except for the one that tiles nothing. -/
structure ListsTilings (sizes : List Nat) (n : Nest) (choices : List (List (Option Nat))) : Prop where
  of_vectorized : n.isVectorized = true → choices = []
  enumerates : n.isVectorized = false →
    Enumerates (LexBefore (optionRank sizes)) (Tiles sizes n.loops) choices
  length_add_one : n.isVectorized = false →
    choices.length + 1 = (n.loops.map fun l => 1 + sizes.countP (l.Tileable ·)).prod

/-! ## The options for a loop -/

variable {sizes : List Nat} {loops : List Loop} {choice : List (Option Nat)}

theorem tileSizes_eq (sizes : List Nat) (l : Loop) :
    Proposals.tileSizes sizes l = sizes.filter (l.Tileable ·) := by
  unfold Proposals.tileSizes
  by_cases hfree : l.tile = none ∧ l.parallel = false
  · rw [if_neg (by simp [Loop.isTiled, hfree])]
    refine List.filter_congr fun size _ => Bool.eq_iff_iff.mpr ?_
    simp [Loop.Tileable, hfree, Nat.dvd_iff_mod_eq_zero, and_assoc]
  · have hskip : (l.isTiled || l.parallel) = true := by
      rw [not_and_or, Bool.not_eq_false] at hfree
      simpa [Loop.isTiled, Option.isSome_iff_ne_none] using hfree
    rw [if_pos hskip]
    refine (List.filter_eq_nil_iff.mpr fun size _ htileable => ?_).symm
    obtain ⟨htile, hparallel, -⟩ := of_decide_eq_true htileable
    exact hfree ⟨htile, hparallel⟩

/-- The sizes that are tried for a loop, after the option to leave it as it is. -/
def tileOptions (sizes : List Nat) (l : Loop) : List (Option Nat) :=
  none :: (sizes.filter (l.Tileable ·)).map some

theorem mem_tileOptions {l : Loop} {entry : Option Nat} : entry ∈ tileOptions sizes l ↔
    ∀ size, entry = some size → size ∈ sizes ∧ l.Tileable size := by
  cases entry <;> simp [tileOptions]

theorem length_tileOptions (sizes : List Nat) (l : Loop) :
    (tileOptions sizes l).length = 1 + sizes.countP (l.Tileable ·) := by
  rw [tileOptions, List.length_cons, List.length_map, List.countP_eq_length_filter, Nat.add_comm]

theorem ascending_tileOptions (hsizes : sizes.Nodup) (l : Loop) :
    (tileOptions sizes l).Pairwise fun x y => optionRank sizes x < optionRank sizes y := by
  have hascending : sizes.Pairwise fun s t => sizes.idxOf s < sizes.idxOf t := by
    refine List.pairwise_iff_getElem.mpr fun i j hi hj hij => ?_
    rw [hsizes.idxOf_getElem, hsizes.idxOf_getElem]
    exact hij
  refine List.pairwise_cons.mpr ⟨fun entry hentry => ?_, List.pairwise_map.mpr ?_⟩
  · obtain ⟨size, -, rfl⟩ := List.mem_map.mp hentry
    exact Nat.succ_pos _
  · exact (hascending.sublist List.filter_sublist).imp Nat.succ_lt_succ

/-! ## The choices for a nest -/

/-- The sizes of the tilings that are proposed for a nest. -/
def tilingChoices (sizes : List Nat) (n : Nest) : List (List (Option Nat)) :=
  if n.isVectorized then []
  else (Proposals.selections (n.loops.map (tileOptions sizes))).filter (·.any Option.isSome)

theorem tilings_eq (sizes : List Nat) (op : Nat) (opClass : OpClass) (n : Nest) :
    Proposals.tilings sizes op opClass n = (tilingChoices sizes n).map (.tile op ·) := by
  unfold Proposals.tilings tilingChoices
  split_ifs
  · rfl
  · simp only [tileSizes_eq]
    rfl

theorem mem_selections_tileOptions :
    choice ∈ Proposals.selections (loops.map (tileOptions sizes)) ↔
      List.Forall₂ (fun l entry => ∀ size, entry = some size → size ∈ sizes ∧ l.Tileable size) loops
        choice := by
  simp only [Proposals.mem_selections, List.forall₂_map_left_iff, mem_tileOptions]

theorem replicate_none_mem (sizes : List Nat) (loops : List Loop) :
    List.replicate loops.length none ∈ Proposals.selections (loops.map (tileOptions sizes)) := by
  rw [mem_selections_tileOptions]
  induction loops with
  | nil => exact .nil
  | cons l loops ih => exact .cons (fun _ hnone => by cases hnone) ih

/-- Every selection is a tiling but the one that leaves all loops as they are. -/
theorem any_isSome_iff (h : choice ∈ Proposals.selections (loops.map (tileOptions sizes))) :
    choice.any Option.isSome = true ↔ choice ≠ List.replicate loops.length none := by
  rw [Ne, List.eq_replicate_iff, (mem_selections_tileOptions.mp h).length_eq]
  simp [Option.ne_none_iff_isSome]

theorem ascending_selections_tileOptions (hsizes : sizes.Nodup) (loops : List Loop) :
    (Proposals.selections (loops.map (tileOptions sizes))).Pairwise (LexBefore (optionRank sizes)) := by
  refine Proposals.ascending_selections fun options hoptions => ?_
  obtain ⟨l, -, rfl⟩ := List.mem_map.mp hoptions
  exact ascending_tileOptions hsizes l

theorem mem_tilingChoices {n : Nest} :
    choice ∈ tilingChoices sizes n ↔ n.isVectorized = false ∧ Tiles sizes n.loops choice := by
  unfold tilingChoices
  split_ifs with hvectorized
  · rw [hvectorized]
    exact iff_of_false List.not_mem_nil fun h => Bool.noConfusion h.1
  · rw [List.mem_filter, mem_selections_tileOptions, List.any_eq_true]
    constructor
    · rintro ⟨heach, entry, hentry, hsome⟩
      obtain ⟨size, rfl⟩ := Option.isSome_iff_exists.mp hsome
      exact ⟨Bool.eq_false_iff.mpr hvectorized, heach, size, hentry⟩
    · rintro ⟨-, heach, size, hsize⟩
      exact ⟨heach, some size, hsize, rfl⟩

theorem ascending_tilingChoices (hsizes : sizes.Nodup) (n : Nest) :
    (tilingChoices sizes n).Pairwise (LexBefore (optionRank sizes)) := by
  unfold tilingChoices
  split_ifs
  · exact .nil
  · exact (ascending_selections_tileOptions hsizes n.loops).filter _

theorem listsTilings (hsizes : sizes.Nodup) (n : Nest) :
    n.ListsTilings sizes (tilingChoices sizes n) := by
  have hascending := ascending_tilingChoices hsizes n
  refine ⟨fun h => if_pos h, fun h => ?_, fun h => ?_⟩
  · exact ⟨fun choice => mem_tilingChoices.trans (and_iff_right h), hascending.nodup, hascending⟩
  · have hnodup := (ascending_selections_tileOptions hsizes n.loops).nodup
    rw [tilingChoices, if_neg (Bool.eq_false_iff.mp h),
      length_filter_add_one hnodup (replicate_none_mem sizes n.loops) fun _ => any_isSome_iff,
      Proposals.length_selections, List.map_map]
    exact congrArg List.prod (List.map_congr_left fun l _ => length_tileOptions sizes l)

end Nest

/-- Whatever steps were applied to a kernel text, the candidates for a tiling are all tilings of the first
operation in byte order of the ids, then all of the second one, and so on. -/
theorem Proposals.candidates_extend_tilings {text : String} {k : Kernel} {steps : List Step}
    (hread : Kernel.read text = .ok k) {node : KernelNode}
    (hsteps : Step.applyAll steps k = .ok node.program) {c : Classification Nat}
    {operations : List (Nat × OpClass)} (hresolve : node.program.resolve c = .ok operations)
    {sizes : List Nat} (hsizes : sizes.Nodup) :
    node.program.Lists c operations ∧
      ∃ (choices : Nat × OpClass → List (List (Option Nat))) (cs : List (Candidate Kernel Step)),
        candidates (ofKind .tiling (some sizes)) node c = .ok cs ∧
        Extends node (operations.flatMap fun op => (choices op).map (.tile op.1 ·)) cs ∧
        ∀ op ∈ operations, ∃ n, node.program.nests[op.1]? = some n ∧
          n.ListsTilings sizes (choices op) := by
  refine ⟨Kernel.lists_of_resolve (Kernel.nodup_ids_of_applyAll hread hsteps) hresolve, ?_⟩
  obtain ⟨choices, cs, hcs, hextends, hchoices⟩ := exists_candidates_listed .tiling (some sizes)
    (fun _ => Nest.tilingChoices sizes) (Nest.tilings_eq sizes) hresolve
  refine ⟨choices, cs, hcs, hextends, fun op hop => ?_⟩
  obtain ⟨n, hn, hlisted⟩ := hchoices op hop
  exact ⟨n, hn, hlisted ▸ Nest.listsTilings hsizes n⟩

/-- The first one of two operations is vectorized. The other one has three options for its outer loop and
two for its inner loop. -/
theorem Proposals.candidates_extend_tilings_gemm :
    let k : Kernel := ⟨[⟨"sum", .elementwise, [.declare "i" 4 false]⟩,
      ⟨"gemm", .contraction, [.declare "i" 6 false, .declare "k" 4 true]⟩]⟩
    let k' : Kernel := ⟨[⟨"sum", .elementwise, [⟨"i", 4, false, none, false, some 2⟩]⟩,
      ⟨"gemm", .contraction, [.declare "i" 6 false, .declare "k" 4 true]⟩]⟩
    let node : KernelNode := .root k' 0
    let operations : List (Nat × OpClass) := [(1, .contraction), (0, .elementwise)]
    let sizes : List Nat := [3, 2]
    Kernel.read "sum elementwise i=4\ngemm contraction i=6 k=4" = .ok k ∧
      Step.applyAll [.vectorize 0 2] k = .ok node.program ∧
      node.program.resolve k.classify = .ok operations ∧ sizes.Nodup ∧
      ∃ (choices : Nat × OpClass → List (List (Option Nat))) (cs : List (Candidate Kernel Step)),
        candidates (ofKind .tiling (some sizes)) node k.classify = .ok cs ∧
        cs.map (·.transformation) = [.tile 1 [none, some 2], .tile 1 [some 3, none],
          .tile 1 [some 3, some 2], .tile 1 [some 2, none], .tile 1 [some 2, some 2]] ∧
        Extends node (operations.flatMap fun op => (choices op).map (.tile op.1 ·)) cs ∧
        ∀ op ∈ operations, ∃ n, node.program.nests[op.1]? = some n ∧
          n.ListsTilings sizes (choices op) := by
  intro k k' node operations sizes
  have hread : Kernel.read "sum elementwise i=4\ngemm contraction i=6 k=4" = .ok k := by rfl
  have hsteps : Step.applyAll [.vectorize 0 2] k = .ok node.program := by rfl
  have hresolve : node.program.resolve k.classify = .ok operations := by rfl
  have hsizes : sizes.Nodup := by decide
  obtain ⟨-, choices, cs, hcs, hextends, hchoices⟩ :=
    candidates_extend_tilings hread hsteps hresolve hsizes
  have htiles : (candidates (ofKind .tiling (some sizes)) node k.classify).toOption.map
      (List.map (·.transformation)) = some [.tile 1 [none, some 2], .tile 1 [some 3, none],
        .tile 1 [some 3, some 2], .tile 1 [some 2, none], .tile 1 [some 2, some 2]] := by rfl
  rw [hcs] at htiles
  exact ⟨hread, hsteps, hresolve, hsizes, choices, cs, hcs, Option.some.inj htiles, hextends, hchoices⟩

end LoopTuner
