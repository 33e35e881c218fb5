import LoopTuner.Proofs.Kernel.Candidates
import LoopTuner.Proofs.Kernel.Declared
import LoopTuner.Proofs.Kernel.Resolution
import Mathlib.Data.List.TakeWhile

/-!
# Generated kernels are legal

Every kernel that is reached from a kernel text by taking candidates, of any kinds in any order, has
legal nests (`Kernel.legal_of_derived`): the parallel loops stand outside, tiles divide their extents,
at most one loop is vectorized, and reductions are neither parallel nor vectorized. Each kind of step
checks a part of the invariant `Nest.Sound` and relies on the other kinds for the rest.
-/

namespace LoopTuner

/-- A loop whose marks go together. -/
structure Loop.Legal (l : Loop) : Prop where
  not_parallel : l.reduction = true → l.parallel = false
  tile_divides : ∀ size, l.tile = some size → 0 < size ∧ size < l.extent ∧ size ∣ l.extent
  width_pos : ∀ width, l.vectorWidth = some width → 0 < width ∧ l.reduction = false

/-- The invariant of the loops of a nest. -/
structure Nest.Sound (opClass : OpClass) (loops : List Loop) : Prop where
  each : ∀ l ∈ loops, l.Legal
  parallel_outside : loops.Pairwise fun outer inner => inner.parallel = true → outer.parallel = true
  one_vector : loops.countP (·.vectorWidth.isSome) ≤ 1
  reduction_last : opClass = .reduction → ∃ l, loops.getLast? = some l ∧ l.reduction = true

namespace Nest

variable {opClass : OpClass} {loops : List Loop}

/-! ## Declared nests -/

theorem sound_of_declared {n : Nest} (h : n.Declared) : Sound n.opClass n.loops := by
  have hfresh := h.fresh
  obtain ⟨front, last, -, hloops⟩ := h
  refine ⟨fun l hl => ?_, ?_, ?_, fun hclass => ?_⟩
  · obtain ⟨htile, hparallel, hwidth⟩ := hfresh l hl
    refine ⟨fun _ => hparallel, fun size hsize => ?_, fun width hw => ?_⟩
    · rw [htile] at hsize
      cases hsize
    · rw [hwidth] at hw
      cases hw
  · refine List.pairwise_of_forall_mem_list fun outer _ inner hinner htrue => ?_
    rw [(hfresh inner hinner).2.1] at htrue
    cases htrue
  · rw [List.countP_eq_zero.mpr fun l hl => ?_]
    · exact Nat.zero_le 1
    · rw [(hfresh l hl).2.2]
      exact Bool.false_ne_true
  · refine ⟨.declare last.1 last.2 n.opClass.hasReduction, ?_, ?_⟩
    · rw [hloops, List.getLast?_concat]
    · rw [hclass]
      rfl

/-! ## Changes in place -/

theorem Sound.last_of_map_eq {loops' : List Loop} (h : Sound opClass loops)
    (hreduction : loops'.map Loop.reduction = loops.map Loop.reduction)
    (hclass : opClass = .reduction) : ∃ l, loops'.getLast? = some l ∧ l.reduction = true := by
  obtain ⟨l, hlast, hl⟩ := h.reduction_last hclass
  have hmap := congrArg List.getLast? hreduction
  rw [List.getLast?_map, List.getLast?_map, hlast] at hmap
  obtain ⟨l', hlast', hl'⟩ := Option.map_eq_some_iff.mp hmap
  exact ⟨l', hlast', hl'.trans hl⟩

theorem Sound.outside_of_map_eq {loops' : List Loop} (h : Sound opClass loops)
    (hparallel : loops'.map Loop.parallel = loops.map Loop.parallel) :
    loops'.Pairwise fun outer inner => inner.parallel = true → outer.parallel = true := by
  have hpairwise := h.parallel_outside
  rw [← List.pairwise_map (f := Loop.parallel) (R := fun a b => b = true → a = true)] at hpairwise ⊢
  rw [hparallel]
  exact hpairwise

theorem Sound.one_vector_of_map_eq {loops' : List Loop} (h : Sound opClass loops)
    (hwidths : loops'.map Loop.vectorWidth = loops.map Loop.vectorWidth) :
    loops'.countP (·.vectorWidth.isSome) ≤ 1 := by
  have hcount := h.one_vector
  rw [← Function.comp_def Option.isSome, ← List.countP_map] at hcount ⊢
  rw [hwidths]
  exact hcount

/-! ## Tiling -/

/-- A tile of a proposed size divides its extent properly. -/
theorem legal_tiled {l : Loop} (hl : l.Legal) {sizes : List Nat} {size : Option Nat}
    (hsize : ∀ s, size = some s → s ∈ Proposals.tileSizes sizes l) : (l.tiled size).Legal := by
  cases size with
  | none => exact hl
  | some s =>
    have hdivides := Proposals.divides_of_mem_tileSizes (hsize s rfl)
    refine ⟨hl.not_parallel, fun s' hs' => ?_, hl.width_pos⟩
    cases hs'
    exact hdivides

theorem Sound.tile (h : Sound opClass loops) {sizes : List Nat} {choice : List (Option Nat)}
    (hchoice : List.Forall₂ (fun l size => ∀ s, size = some s → s ∈ Proposals.tileSizes sizes l) loops
      choice) : Sound opClass (List.zipWith Loop.tiled loops choice) where
  each := by
    have heach := h.each
    clear h
    induction hchoice with
    | nil => exact fun l hl => absurd hl List.not_mem_nil
    | cons hsize _ ih =>
      intro l hl
      rw [List.zipWith_cons_cons] at hl
      rcases List.mem_cons.mp hl with rfl | hl
      · exact legal_tiled (heach _ List.mem_cons_self) hsize
      · exact ih (fun l' hl' => heach l' (List.mem_cons_of_mem _ hl')) l hl
  parallel_outside :=
    h.outside_of_map_eq (map_zipWith_tiled Loop.parallel_tiled hchoice.length_eq.symm)
  one_vector :=
    h.one_vector_of_map_eq (map_zipWith_tiled Loop.vectorWidth_tiled hchoice.length_eq.symm)
  reduction_last :=
    h.last_of_map_eq (map_zipWith_tiled Loop.reduction_tiled hchoice.length_eq.symm)

/-! ## Running in parallel -/

/-- The first elements, no more than those of a leading run, belong to that run. -/
theorem of_mem_take_of_le {α : Type} {p : α → Bool} {xs : List α} {count : Nat}
    (hcount : count ≤ (xs.takeWhile p).length) {x : α} (hx : x ∈ xs.take count) : p x = true := by
  rw [← List.takeWhile_append_dropWhile (p := p) (l := xs),
    List.take_append_of_le_length hcount] at hx
  exact List.mem_takeWhile_imp (List.mem_of_mem_take hx)

theorem Sound.parallelize (h : Sound opClass loops) (hnone : ∀ l ∈ loops, l.parallel = false)
    {count : Nat} (hcount : count ≤ (loops.takeWhile fun l => !l.reduction).length) :
    Sound opClass (parallelizeLoops count loops) where
  each l hl := by
    rw [parallelizeLoops_eq, List.mem_append, List.mem_map] at hl
    rcases hl with ⟨l', hl', rfl⟩ | hl
    · have hlegal := h.each l' (List.mem_of_mem_take hl')
      have hreduction := of_mem_take_of_le hcount hl'
      refine ⟨fun htrue => ?_, hlegal.tile_divides, hlegal.width_pos⟩
      rw [show l'.reduction = true from htrue] at hreduction
      cases hreduction
    · exact h.each l (List.mem_of_mem_drop hl)
  parallel_outside := by
    rw [parallelizeLoops_eq, List.pairwise_append]
    have hinner : ∀ l ∈ loops.drop count, ¬ l.parallel = true := fun l hl => by
      rw [hnone l (List.mem_of_mem_drop hl)]
      exact Bool.false_ne_true
    refine ⟨?_, ?_, fun _ _ inner hinner' htrue => absurd htrue (hinner inner hinner')⟩
    · refine List.pairwise_of_forall_mem_list fun outer houter _ _ _ => ?_
      obtain ⟨_, -, rfl⟩ := List.mem_map.mp houter
      rfl
    · exact List.pairwise_of_forall_mem_list fun _ _ inner hinner' htrue =>
        absurd htrue (hinner inner hinner')
  one_vector := h.one_vector_of_map_eq (map_parallelizeLoops (fun _ => rfl) count loops)
  reduction_last := h.last_of_map_eq (map_parallelizeLoops (fun _ => rfl) count loops)

/-! ## Interchanging -/

/-- Behind the leading parallel loops there are no more of them. -/
theorem Sound.not_parallel_of_mem_dropWhile (h : Sound opClass loops) {l : Loop}
    (hl : l ∈ loops.dropWhile (·.parallel)) : l.parallel = false := by
  have houtside := h.parallel_outside
  clear h
  induction loops with
  | nil => cases hl
  | cons first rest ih =>
    obtain ⟨hfirst, hrest⟩ := List.pairwise_cons.mp houtside
    rw [List.dropWhile_cons] at hl
    split_ifs at hl with hparallel
    · exact ih hl hrest
    · rcases List.mem_cons.mp hl with rfl | hl
      · exact Bool.eq_false_iff.mpr hparallel
      · exact Bool.eq_false_iff.mpr fun htrue => hparallel (hfirst l hl htrue)

/-- An interchange permutes the loops behind the leading parallel ones. -/
theorem exists_reorderLoops {fixed : Nat} {order : List Nat}
    (hfixed : fixed = (loops.takeWhile (·.parallel)).length)
    (hperm : order.Perm (List.range' fixed (loops.length - fixed))) :
    ∃ rest, reorderLoops (List.range fixed ++ order) loops =
        loops.takeWhile (·.parallel) ++ rest ∧
      rest = order.filterMap (loops[·]?) ∧ rest.Perm (loops.dropWhile (·.parallel)) := by
  have hsplit := List.takeWhile_append_dropWhile (p := fun l : Loop => l.parallel) (l := loops)
  have htake : loops.take fixed = loops.takeWhile (·.parallel) := by
    conv_lhs => rw [← hsplit, hfixed]
    exact List.take_left
  have hdrop : loops.drop fixed = loops.dropWhile (·.parallel) := by
    conv_lhs => rw [← hsplit, hfixed]
    exact List.drop_left
  refine ⟨_, ?_, rfl, ?_⟩
  · unfold reorderLoops
    rw [List.filterMap_append, List.range_eq_range', filterMap_getElem?_range', List.drop_zero, htake]
  · have hrest := hperm.filterMap (loops[·]?)
    rw [filterMap_getElem?_range', ← List.length_drop, List.take_length, hdrop] at hrest
    exact hrest

theorem Sound.interchange (h : Sound opClass loops) {fixed : Nat} {order : List Nat}
    (hfixed : fixed = (loops.takeWhile (·.parallel)).length)
    (hperm : order.Perm (List.range' fixed (loops.length - fixed)))
    (hends : opClass = .reduction → Proposals.endsInReduction loops order = true) :
    Sound opClass (reorderLoops (List.range fixed ++ order) loops) := by
  obtain ⟨rest, hloops, hrest, hpermRest⟩ := exists_reorderLoops hfixed hperm
  have hall : (loops.takeWhile (·.parallel) ++ rest).Perm loops := by
    have happend := hpermRest.append_left (loops.takeWhile (·.parallel))
    rwa [List.takeWhile_append_dropWhile] at happend
  rw [hloops]
  refine ⟨fun l hl => h.each l (hall.mem_iff.mp hl), ?_, ?_, fun hclass => ?_⟩
  · have hinner : ∀ l ∈ rest, ¬ l.parallel = true := fun l hl => by
      rw [h.not_parallel_of_mem_dropWhile (hpermRest.mem_iff.mp hl)]
      exact Bool.false_ne_true
    refine List.pairwise_append.mpr ⟨?_, ?_, fun _ _ inner hl htrue => absurd htrue (hinner inner hl)⟩
    · exact List.pairwise_of_forall_mem_list fun outer houter _ _ _ => List.mem_takeWhile_imp houter
    · exact List.pairwise_of_forall_mem_list fun _ _ inner hl htrue => absurd htrue (hinner inner hl)
  · rw [hall.countP_eq]
    exact h.one_vector
  · -- The last loop of the order is a reduction, and it comes last.
    have hlast := hends hclass
    unfold Proposals.endsInReduction at hlast
    split at hlast
    · cases hlast
    · rename_i i hi
      obtain ⟨front, rfl⟩ := List.getLast?_eq_some_iff.mp hi
      cases hl : loops[i]? with
      | none =>
        rw [hl] at hlast
        cases hlast
      | some l =>
        rw [hl] at hlast
        refine ⟨l, ?_, hlast⟩
        rw [hrest, List.filterMap_append, ← List.append_assoc, List.getLast?_append]
        simp [hl]

/-! ## Vectorizing -/

theorem Sound.vectorize {n : Nest} (h : Sound opClass n.loops) (hnone : n.isVectorized = false)
    {inner : ScheduledLoop} (hinner : n.innermost? = some inner)
    (hreduction : inner.source.reduction = false) {width : Nat} (hwidth : 0 < width) :
    Sound opClass (vectorizeLoops width n.loops) := by
  obtain ⟨outer, rest, hloops, hvector⟩ := exists_vectorizeLoops hinner width
  have hwidths : ∀ l ∈ n.loops, ¬ l.vectorWidth.isSome = true :=
    List.any_eq_false.mp hnone
  rw [hloops] at hwidths
  refine ⟨fun l hl => ?_, h.outside_of_map_eq (map_vectorizeLoops (fun _ => rfl) n.loops), ?_,
    h.last_of_map_eq (map_vectorizeLoops (fun _ => rfl) n.loops)⟩
  · have heach := h.each
    rw [hloops] at heach
    rw [hvector] at hl
    rcases List.mem_append.mp hl with hl | hl
    · exact heach l (List.mem_append_left _ hl)
    · rcases List.mem_cons.mp hl with rfl | hl
      · have hlegal := heach inner.source (List.mem_append_right _ List.mem_cons_self)
        refine ⟨hlegal.not_parallel, hlegal.tile_divides, fun w hw => ?_⟩
        cases hw
        exact ⟨hwidth, hreduction⟩
      · exact heach l (List.mem_append_right _ (List.mem_cons_of_mem _ hl))
  · have houter : outer.countP (·.vectorWidth.isSome) = 0 :=
      List.countP_eq_zero.mpr fun l hl => hwidths l (List.mem_append_left _ hl)
    have hrest : rest.countP (·.vectorWidth.isSome) = 0 :=
      List.countP_eq_zero.mpr fun l hl =>
        hwidths l (List.mem_append_right _ (List.mem_cons_of_mem _ hl))
    rw [hvector, List.countP_append, List.countP_cons, houter, hrest]
    exact Nat.le_refl 1

/-! ## Every kind of step -/

/-- A proposed step keeps the invariant of its nest. -/
theorem Sound.step {n : Nest} (h : Sound n.opClass n.loops) {kind : Kind}
    {sizes : Option (List Nat)} {op : Nat} {step : Step} {loops' : List Loop}
    (hstep : step ∈ Proposals.ofKind kind sizes op n.opClass n)
    (hloops : stepLoops step n.loops = .ok loops') : Sound n.opClass loops' := by
  cases kind with
  | tiling =>
    obtain ⟨-, choice, rfl, hchoice⟩ := Proposals.exists_of_mem_tilings hstep
    have hlength := hchoice.length_eq.symm
    simp only [stepLoops, if_pos hlength] at hloops
    rw [((retileLoops_eq_ok_iff hlength).mp hloops).2]
    exact h.tile hchoice
  | parallelization =>
    obtain ⟨hnone, count, rfl, -, hcount⟩ := Proposals.exists_of_mem_parallelizations hstep
    simp only [stepLoops] at hloops
    split_ifs at hloops
    cases hloops
    exact h.parallelize hnone hcount
  | interchange =>
    obtain ⟨fixed, order, hfixed, rfl, hperm, hends⟩ := Proposals.exists_of_mem_interchanges hstep
    simp only [stepLoops] at hloops
    split_ifs at hloops
    cases hloops
    exact h.interchange hfixed hperm hends
  | vectorization =>
    obtain ⟨hnone, inner, width, hinner, hreduction, rfl, hwidth, -⟩ :=
      Proposals.exists_of_mem_vectorizations hstep
    simp only [stepLoops, if_pos hwidth] at hloops
    cases hloops
    exact h.vectorize hnone hinner hreduction hwidth

end Nest

/-! ## Chains of candidates -/

/-- The kernels that are reached by taking candidates, of any kinds and with any sizes. -/
inductive Kernel.Derived (classification : Classification Nat) (k : Kernel) : Kernel → Prop
  | refl : Derived classification k k
  | candidate {node : KernelNode} {kind : Kind} {sizes : Option (List Nat)}
      {cs : List (Candidate Kernel Step)} {c : Candidate Kernel Step}
      (h : Derived classification k node.program)
      (hcs : Proposals.candidates (Proposals.ofKind kind sizes) node classification = .ok cs)
      (hc : c ∈ cs) : Derived classification k c.program

/-- A nest on its way from the declared one. -/
structure Nest.Evolved (declared n : Nest) : Prop where
  opClass_eq : n.opClass = declared.opClass
  perm : (n.loops.map Loop.declaration).Perm (declared.loops.map Loop.declaration)
  sound : Sound n.opClass n.loops

theorem forall₂_set {α β : Type} {R : α → β → Prop} {xs : List α} {ys : List β}
    (h : List.Forall₂ R xs ys) {i : Nat} {y y' : β} (hy : ys[i]? = some y)
    (hR : ∀ x, xs[i]? = some x → R x y → R x y') : List.Forall₂ R xs (ys.set i y') := by
  induction h generalizing i with
  | nil => cases hy
  | cons hfirst hrest ih =>
    cases i with
    | zero =>
      cases hy
      exact .cons (hR _ rfl hfirst) hrest
    | succ i => exact .cons hfirst (ih hy hR)

/-- A candidate comes from a step that is proposed for a nest, for the class that it was declared with. -/
theorem Kernel.exists_of_candidate {k : Kernel} {node : KernelNode} {kind : Kind}
    {sizes : Option (List Nat)} {cs : List (Candidate Kernel Step)} {c : Candidate Kernel Step}
    (hcs : Proposals.candidates (Proposals.ofKind kind sizes) node k.classify = .ok cs) (hc : c ∈ cs) :
    ∃ op declared nest loops, k.nests[op]? = some declared ∧ node.program.nests[op]? = some nest ∧
      c.transformation ∈ Proposals.ofKind kind sizes op declared.opClass nest ∧
      Nest.stepLoops c.transformation nest.loops = .ok loops ∧
      c.program = ⟨node.program.nests.set op { nest with loops := loops }⟩ := by
  obtain ⟨step, program, ⟨operations, op, opClass, nest, hresolve, hmem, hnest, hstep⟩, happly, rfl⟩ :=
    Proposals.exists_of_mem_candidates hcs hc
  obtain ⟨nest', loops, hnest', hloops, rfl⟩ := Step.exists_of_apply happly
  rw [(Proposals.kind_of_mem_ofKind hstep).2] at hnest'
  rw [hnest] at hnest'
  cases hnest'
  obtain ⟨declared, hdeclared, rfl⟩ := exists_of_mem_resolve hresolve hmem
  refine ⟨op, declared, nest, loops, hdeclared, hnest, hstep, hloops, ?_⟩
  show (⟨_⟩ : Kernel) = _
  rw [(Proposals.kind_of_mem_ofKind hstep).2]

/-- Taking candidates keeps the invariant of every nest. -/
theorem Kernel.Derived.evolved {k k' : Kernel} (h : Derived k.classify k k')
    (hk : ∀ n ∈ k.nests, n.Declared) : List.Forall₂ Nest.Evolved k.nests k'.nests := by
  induction h with
  | refl =>
    refine List.forall₂_same.mpr fun n hn => ?_
    exact ⟨rfl, List.Perm.refl _, Nest.sound_of_declared (hk n hn)⟩
  | candidate _ hcs hc ih =>
    obtain ⟨op, declared, nest, loops, hdeclared, hnest, hstep, hloops, hprogram⟩ :=
      exists_of_candidate hcs hc
    rw [hprogram]
    refine forall₂_set ih hnest fun d hd hevolved => ?_
    rw [hdeclared] at hd
    cases hd
    rw [← hevolved.opClass_eq] at hstep
    exact ⟨hevolved.opClass_eq, (Nest.perm_declaration hloops).trans hevolved.perm,
      hevolved.sound.step hstep hloops⟩

/-! ## Legality -/

/-- What the source promises of a nest that was declared as another one: its loops are the declared
ones, of which only the last one can be a reduction. -/
structure Nest.Legal (declared n : Nest) : Prop where
  opClass_eq : n.opClass = declared.opClass
  perm : (n.loops.map Loop.declaration).Perm (declared.loops.map Loop.declaration)
  nodup_names : (n.loops.map Loop.name).Nodup
  sound : Sound n.opClass n.loops
  reduction_iff : ∀ l ∈ n.loops, l.reduction = true ↔
    n.opClass.hasReduction = true ∧ declared.loops.getLast?.map Loop.name = some l.name

theorem Nest.Declared.nodup_names {n : Nest} (h : n.Declared) : (n.loops.map Loop.name).Nodup := by
  obtain ⟨front, last, hnodup, hloops⟩ := h
  have hnames : n.loops.map Loop.name = (front ++ [last]).map Prod.fst := by
    rw [hloops, List.map_append, List.map_append, List.map_map]
    rfl
  rw [hnames]
  exact hnodup

/-- Exactly the loop that is declared last is a reduction, if there is one. -/
theorem Nest.Declared.reduction_iff {n : Nest} (h : n.Declared) {l : Loop} (hl : l ∈ n.loops) :
    l.reduction = true ↔
      n.opClass.hasReduction = true ∧ n.loops.getLast?.map Loop.name = some l.name := by
  have hnodup := h.nodup_names
  obtain ⟨front, last, -, hloops⟩ := h
  rw [hloops, List.map_append, List.nodup_append] at hnodup
  rw [hloops, List.getLast?_concat, Option.map_some, Option.some.injEq]
  rw [hloops] at hl
  rcases List.mem_append.mp hl with hfront | hlast
  · have hne := hnodup.2.2 l.name (List.mem_map_of_mem hfront) last.1 List.mem_cons_self
    obtain ⟨d, -, rfl⟩ := List.mem_map.mp hfront
    exact iff_of_false Bool.false_ne_true fun hmem => hne hmem.2.symm
  · rw [List.mem_singleton.mp hlast]
    exact (and_iff_left rfl).symm

theorem Nest.Evolved.legal {declared n : Nest} (h : declared.Evolved n) (hd : declared.Declared) :
    declared.Legal n where
  opClass_eq := h.opClass_eq
  perm := h.perm
  nodup_names := by
    have hnames := h.perm.map Prod.fst
    rw [List.map_map, List.map_map] at hnames
    exact hnames.nodup_iff.mpr hd.nodup_names
  sound := h.sound
  reduction_iff l hl := by
    obtain ⟨d, hmem, heq⟩ := List.mem_map.mp (h.perm.mem_iff.mp (List.mem_map_of_mem hl))
    simp only [Loop.declaration, Prod.mk.injEq] at heq
    rw [← heq.2.2, ← heq.1, h.opClass_eq]
    exact hd.reduction_iff hmem

/-- Whatever candidates are taken from a kernel text, of any kinds in any order, the nests are legal. -/
theorem Kernel.legal_of_derived {text : String} {k k' : Kernel} (hread : Kernel.read text = .ok k)
    (h : Derived k.classify k k') : List.Forall₂ Nest.Legal k.nests k'.nests := by
  have hdeclared := declared_of_read hread
  have hevolved := (List.forall₂_and_left k.nests k'.nests).mpr ⟨hdeclared, h.evolved hdeclared⟩
  exact hevolved.imp fun d n hdn => hdn.2.legal hdn.1

/-- A reduction whose outer loop is tiled and then runs in parallel. -/
theorem Kernel.legal_of_derived_tiled :
    let k : Kernel := ⟨[⟨"sum", .reduction, [.declare "i" 16 false, .declare "k" 4 true]⟩]⟩
    let tiled : Kernel := ⟨[⟨"sum", .reduction,
      [⟨"i", 16, false, some 8, false, none⟩, .declare "k" 4 true]⟩]⟩
    let k' : Kernel := ⟨[⟨"sum", .reduction,
      [⟨"i", 16, false, some 8, true, none⟩, .declare "k" 4 true]⟩]⟩
    Kernel.read "sum reduction i=16 k=4" = .ok k ∧ Derived k.classify k tiled ∧
      Derived k.classify k k' ∧ List.Forall₂ Nest.Legal k.nests k'.nests := by
  intro k tiled k'
  have hread : Kernel.read "sum reduction i=16 k=4" = .ok k := by rfl
  have htiled : Derived k.classify k tiled := by
    have hcs : Proposals.candidates (Proposals.ofKind .tiling none) (.root k 0) k.classify =
        .ok [⟨tiled, .tile 0 [some 8, none], [.tile 0 [some 8, none]]⟩] := by rfl
    refine .candidate ?_ hcs List.mem_cons_self
    exact .refl
  have hderived : Derived k.classify k k' := by
    have hcs : Proposals.candidates (Proposals.ofKind .parallelization none) (.root tiled 1)
        k.classify = .ok [⟨k', .parallelize 0 1, [.parallelize 0 1]⟩] := by rfl
    refine .candidate ?_ hcs List.mem_cons_self
    exact htiled
  exact ⟨hread, htiled, hderived, legal_of_derived hread hderived⟩

end LoopTuner
