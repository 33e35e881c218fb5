import LoopTuner.Proofs.Kernel.Agreement
import LoopTuner.Proofs.Kernel.Applicable
import LoopTuner.Search.Expander
import Mathlib.Data.List.Nodup

/-!
# Kernels in another order

The candidates of a kernel are found in the order of the classification, which is the order of the ids.
So it does not matter in which order the nests stand: the candidates of a kernel and of its rearrangement
are the same ones in the same order, except for the positions of the operations, and they stay so along
every chain of candidates (`Proposals.candidates_of_rearranges`).
-/

namespace LoopTuner

/-- The step on the operation that has another position. -/
def Step.moved (s : Nat → Nat) : Step → Step
  | tile op sizes => .tile (s op) sizes
  | parallelize op count => .parallelize (s op) count
  | interchange op order => .interchange (s op) order
  | vectorize op width => .vectorize (s op) width

@[simp] theorem Step.op_moved (s : Nat → Nat) (step : Step) : (step.moved s).op = s step.op := by
  cases step <;> rfl

/-- The entry of the operation that has another position. -/
def Classification.movedEntry (s : Nat → Nat) (e : String × Classified Nat) : String × Classified Nat :=
  (e.1, ⟨s e.2.operation, e.2.label⟩)

/-- Only the faults of a step mention its operation. -/
theorem Nest.stepLoops_moved {s : Nat → Nat} {step : Step} {loops loops' : List Loop}
    (h : stepLoops step loops = .ok loops') : stepLoops (step.moved s) loops = .ok loops' := by
  cases step <;> simp only [stepLoops, Step.moved] at h ⊢ <;> split_ifs at h ⊢ <;> exact h

namespace Kernel

/-- The second kernel has the nests of the first one in another order: at position `j` it has the nest
that the first one has at `s j`. -/
structure Rearranges (s : Nat → Nat) (k k' : Kernel) : Prop where
  positions : ((List.range k'.nests.length).map s).Perm (List.range k.nests.length)
  nests : ∀ j < k'.nests.length, k'.nests[j]? = k.nests[s j]?

namespace Rearranges

variable {s : Nat → Nat} {k k' : Kernel}

theorem perm (h : Rearranges s k k') : k'.nests.Perm k.nests := by
  have hperm := perm_filterMap_getElem? h.positions
  rw [List.filterMap_map] at hperm
  have hnests : (List.range k'.nests.length).filterMap ((k.nests[·]?) ∘ s) =
      (List.range k'.nests.length).filterMap (k'.nests[·]?) :=
    List.filterMap_congr fun j hj => (h.nests j (List.mem_range.mp hj)).symm
  rw [hnests] at hperm
  exact (perm_filterMap_getElem? (List.Perm.refl _)).symm.trans hperm

/-- No two positions are moved to the same one. -/
theorem inj (h : Rearranges s k k') {i j : Nat} (hi : i < k'.nests.length) (hj : j < k'.nests.length)
    (heq : s i = s j) : i = j := by
  have hnodup := h.positions.nodup_iff.mpr List.nodup_range
  exact List.inj_on_of_nodup_map hnodup (List.mem_range.mpr hi) (List.mem_range.mpr hj) heq

theorem exists_position (h : Rearranges s k k') {i : Nat} (hi : i < k.nests.length) :
    ∃ j < k'.nests.length, s j = i := by
  have hmem := h.positions.mem_iff.mpr (List.mem_range.mpr hi)
  obtain ⟨j, hj, rfl⟩ := List.mem_map.mp hmem
  exact ⟨j, List.mem_range.mp hj, rfl⟩

theorem getElem?_eq (h : Rearranges s k k') {j : Nat} {n : Nest} (hn : k'.nests[j]? = some n) :
    k.nests[s j]? = some n := by
  rw [← h.nests j (List.getElem?_eq_some_iff.mp hn).1, hn]

/-- A step on the one kernel is a step on the other one. -/
theorem exists_apply (h : Rearranges s k k') {step : Step} {p' : Kernel}
    (happly : step.apply k' = .ok p') :
    ∃ p, (step.moved s).apply k = .ok p ∧ Rearranges s p p' := by
  obtain ⟨n, loops, hn, hloops, rfl⟩ := Step.exists_of_apply happly
  have hlt := (List.getElem?_eq_some_iff.mp hn).1
  refine ⟨⟨k.nests.set (s step.op) { n with loops := loops }⟩, ?_, ?_, fun j hj => ?_⟩
  · unfold Step.apply
    simp only [Step.op_moved, h.getElem?_eq hn, Nest.stepLoops_moved hloops]
  · simpa only [List.length_set] using h.positions
  · rw [List.length_set] at hj
    by_cases heq : step.op = j
    · subst heq
      rw [List.getElem?_set_self hj,
        List.getElem?_set_self (List.getElem?_eq_some_iff.mp (h.getElem?_eq hn)).1]
    · rw [List.getElem?_set_ne heq, List.getElem?_set_ne (mt (h.inj hlt hj) heq), h.nests j hj]

/-! ## Operations -/

/-- The classifications have the same entries, except for the positions. -/
theorem entries_classify (h : Rearranges s k k') (hnodup : (k.nests.map Nest.id).Nodup) :
    k.classify.entries = k'.classify.entries.map (Classification.movedEntry s) := by
  have hnodup' := (h.perm.map Nest.id).nodup_iff.mpr hnodup
  refine k.classify.ascending.eq_of_mem_iff (List.pairwise_map.mpr k'.classify.ascending) fun e => ?_
  simp only [List.mem_map, mem_classify_iff hnodup, mem_classify_iff hnodup']
  constructor
  · rintro ⟨i, n, hn, rfl⟩
    obtain ⟨j, hj, rfl⟩ := h.exists_position (List.getElem?_eq_some_iff.mp hn).1
    exact ⟨_, ⟨j, n, (h.nests j hj).trans hn, rfl⟩, rfl⟩
  · rintro ⟨_, ⟨j, n, hn, rfl⟩, rfl⟩
    exact ⟨s j, n, h.getElem?_eq hn, rfl⟩

/-- The operations of later kernels, whose nests have the ids that the classified ones have. -/
theorem resolve_eq {p p' : Kernel} {operations : List (Nat × OpClass)} (h : Rearranges s k k')
    (hp : Rearranges s p p') (hnodup : (k.nests.map Nest.id).Nodup)
    (hresolve : p'.resolve k'.classify = .ok operations) :
    p.resolve k.classify = .ok (operations.map fun op => (s op.1, op.2)) := by
  obtain ⟨hnamed, hentries⟩ := resolve_eq_ok_iff.mp hresolve
  refine resolve_eq_ok_iff.mpr ⟨fun n hn => ?_, ?_⟩
  · have hname := hnamed n (hp.perm.mem_iff.mpr hn)
    rw [mem_names_classify] at hname ⊢
    exact (h.perm.map Nest.id).mem_iff.mp hname
  · rw [h.entries_classify hnodup, List.forall₂_map_left_iff, List.forall₂_map_right_iff]
    refine hentries.imp ?_
    rintro ⟨id, entry⟩ op hop
    obtain ⟨⟨n, hn, hid⟩, rfl⟩ := resolveEntry_eq_ok_iff.mp hop
    exact resolveEntry_eq_ok_iff.mpr ⟨⟨n, hp.getElem?_eq hn, hid⟩, rfl⟩

end Rearranges

end Kernel

namespace Proposals

open Kernel

/-- The first candidate is the second one with the operations at other positions. -/
structure Moved (s : Nat → Nat) (c c' : Candidate Kernel Step) : Prop where
  program : Rearranges s c.program c'.program
  transformation : c.transformation = c'.transformation.moved s
  history : c.history = c'.history.map (Step.moved s)

/-- Two nodes that are reached from the roots of two kernels by taking the candidates at the same
places. -/
inductive SameChain (k k' : Kernel) : KernelNode → KernelNode → Prop
  | roots (stage stage' : Stage) : SameChain k k' (.root k stage) (.root k' stage')
  | candidates {node node' : KernelNode} {kind : Kind} {sizes : Option (List Nat)}
      {cs cs' : List (Candidate Kernel Step)} {i : Nat} {c c' : Candidate Kernel Step}
      {index offset index' offset' : Nat} (h : SameChain k k' node node')
      (hcs : candidates (ofKind kind sizes) node k.classify = .ok cs)
      (hcs' : candidates (ofKind kind sizes) node' k'.classify = .ok cs')
      (hc : cs[i]? = some c) (hc' : cs'[i]? = some c') :
      SameChain k k' (c.toNode node index offset) (c'.toNode node' index' offset')

variable {s : Nat → Nat} {k k' : Kernel} {kind : Kind} {sizes : Option (List Nat)}

/-! ## Steps -/

/-- A generator looks at the nest and its class, and not at the position. -/
theorem ofKind_moved (op : Nat) (opClass : OpClass) (nest : Nest) :
    ofKind kind sizes (s op) opClass nest = (ofKind kind sizes op opClass nest).map (Step.moved s) := by
  cases kind with
  | tiling =>
    simp only [ofKind, tilings]
    split_ifs
    · rfl
    · rw [List.map_map]
      rfl
  | parallelization =>
    simp only [ofKind, parallelizations]
    split_ifs
    · rfl
    · rw [List.map_map]
      rfl
  | interchange =>
    simp only [ofKind, interchanges, List.map_map]
    rfl
  | vectorization =>
    simp only [ofKind, vectorizations]
    split
    · rfl
    · split_ifs
      · rfl
      · rw [List.map_map]
        rfl

theorem stepsFor_moved (h : Rearranges s k k') {operations : List (Nat × OpClass)}
    (hoperations : ∀ op ∈ operations, op.1 < k'.nests.length) :
    stepsFor (ofKind kind sizes) k (operations.map fun op => (s op.1, op.2)) =
      (stepsFor (ofKind kind sizes) k' operations).map (Step.moved s) := by
  unfold stepsFor
  rw [List.flatMap_map, List.map_flatMap]
  refine List.flatMap_congr fun op hop => ?_
  obtain ⟨op, opClass⟩ := op
  have hn := List.getElem?_eq_getElem (hoperations _ hop)
  simp only [hn, h.getElem?_eq hn, ofKind_moved]

/-! ## Candidates -/

theorem exists_applied_moved {node node' : KernelNode} (h : Rearranges s node.program node'.program)
    (hhistory : node.history = node'.history.map (Step.moved s)) {steps : List Step}
    {cs' : List (Candidate Kernel Step)} (happlied : applied node' steps = .ok cs') :
    ∃ cs, applied node (steps.map (Step.moved s)) = .ok cs ∧ List.Forall₂ (Moved s) cs cs' := by
  induction steps generalizing cs' with
  | nil =>
    cases happlied
    exact ⟨[], rfl, .nil⟩
  | cons step steps ih =>
    unfold applied at happlied
    split at happlied
    · cases happlied
    · rename_i p' happly
      split at happlied
      · cases happlied
      · rename_i rest' hrest'
        cases happlied
        obtain ⟨p, happly, hp⟩ := h.exists_apply happly
        obtain ⟨rest, hrest, hmoved⟩ := ih hrest'
        refine ⟨.extending node p (step.moved s) :: rest, ?_, .cons ⟨hp, rfl, ?_⟩ hmoved⟩
        · rw [List.map_cons]
          unfold applied
          simp only [happly, hrest]
        · simp [Candidate.extending, hhistory]

/-- The candidates of two nodes whose programs are rearranged. -/
theorem exists_candidates_moved (h : Rearranges s k k') (hnodup : (k.nests.map Nest.id).Nodup)
    {node node' : KernelNode} (hids : node'.program.nests.map Nest.id = k'.nests.map Nest.id)
    (hprogram : Rearranges s node.program node'.program)
    (hhistory : node.history = node'.history.map (Step.moved s)) (kind : Kind)
    (sizes : Option (List Nat)) :
    ∃ cs cs', candidates (ofKind kind sizes) node k.classify = .ok cs ∧
      candidates (ofKind kind sizes) node' k'.classify = .ok cs' ∧ List.Forall₂ (Moved s) cs cs' := by
  obtain ⟨cs', hcs'⟩ := exists_candidates hids kind sizes
  obtain ⟨operations, hresolve⟩ := exists_resolve_iff.mpr (classifiedBy_classify hids)
  have hinside : ∀ op ∈ operations, op.1 < node'.program.nests.length := by
    intro op hop
    obtain ⟨-, hentries⟩ := resolve_eq_ok_iff.mp hresolve
    obtain ⟨e, -, he⟩ := exists_of_forall₂_of_mem hentries hop
    obtain ⟨⟨n, hn, -⟩, hentry⟩ := resolveEntry_eq_ok_iff.mp he
    rw [hentry] at hn
    exact (List.getElem?_eq_some_iff.mp hn).1
  have happlied := hcs'
  unfold candidates at happlied
  simp only [hresolve] at happlied
  obtain ⟨cs, hcs, hmoved⟩ := exists_applied_moved hprogram hhistory happlied
  refine ⟨cs, cs', ?_, hcs', hmoved⟩
  unfold candidates
  simp only [h.resolve_eq hprogram hnodup hresolve, stepsFor_moved hprogram hinside, hcs]

/-! ## Chains -/

namespace SameChain

variable {node node' : KernelNode}

theorem derived (h : SameChain k k' node node') : Derived k.classify k node.program := by
  induction h with
  | roots => exact .refl
  | candidates _ hcs _ hc _ ih => exact .candidate ih hcs (List.mem_of_getElem? hc)

theorem derived' (h : SameChain k k' node node') : Derived k'.classify k' node'.program := by
  induction h with
  | roots => exact .refl
  | candidates _ _ hcs' _ hc' ih => exact .candidate ih hcs' (List.mem_of_getElem? hc')

/-- Along a chain the programs stay rearranged, and the chains have the same steps. -/
theorem rearranges (h : SameChain k k' node node') (hs : Rearranges s k k')
    (hnodup : (k.nests.map Nest.id).Nodup) :
    Rearranges s node.program node'.program ∧ node.history = node'.history.map (Step.moved s) := by
  induction h with
  | roots => exact ⟨hs, rfl⟩
  | @candidates node node' kind sizes _ _ _ c c' _ _ _ _ h hcs hcs' hc hc' ih =>
    obtain ⟨hprogram, hhistory⟩ := ih
    have hids := Nest.map_id_of_reshaped h.derived'.reshaped
    obtain ⟨_, _, hok, hok', hmoved⟩ :=
      exists_candidates_moved hs hnodup hids hprogram hhistory kind sizes
    cases hok.symm.trans hcs
    cases hok'.symm.trans hcs'
    have hc := forall₂_getElem? hmoved hc hc'
    exact ⟨hc.program, hc.history⟩

end SameChain

/-- A generator proposes the same candidates for a parsed kernel and for a rearrangement of it, in the
same order, also after the same chain of candidates. -/
theorem candidates_of_rearranges {text : String} (hread : Kernel.read text = .ok k)
    (hs : Rearranges s k k') {node node' : KernelNode} (h : SameChain k k' node node') (kind : Kind)
    (sizes : Option (List Nat)) :
    ∃ cs cs', candidates (ofKind kind sizes) node k.classify = .ok cs ∧
      candidates (ofKind kind sizes) node' k'.classify = .ok cs' ∧ List.Forall₂ (Moved s) cs cs' := by
  have hnodup : (k.nests.map Nest.id).Nodup :=
    nodup_ids_of_applyAll hread (show Step.applyAll [] k = .ok k from rfl)
  obtain ⟨hprogram, hhistory⟩ := h.rearranges hs hnodup
  have hids := Nest.map_id_of_reshaped h.derived'.reshaped
  exact exists_candidates_moved hs hnodup hids hprogram hhistory kind sizes

/-- Two operations that change places. The first candidates run the operation `a` in parallel, which has
the lesser id, and then both operations can be vectorized. -/
theorem candidates_of_rearranges_swapped :
    let k : Kernel :=
      ⟨[⟨"b", .elementwise, [.declare "i" 4 false]⟩, ⟨"a", .elementwise, [.declare "j" 8 false]⟩]⟩
    let k' : Kernel :=
      ⟨[⟨"a", .elementwise, [.declare "j" 8 false]⟩, ⟨"b", .elementwise, [.declare "i" 4 false]⟩]⟩
    let s : Nat → Nat := fun j => 1 - j
    let c : Candidate Kernel Step := ⟨⟨[⟨"b", .elementwise, [.declare "i" 4 false]⟩,
      ⟨"a", .elementwise, [⟨"j", 8, false, none, true, none⟩]⟩]⟩, .parallelize 1 1, [.parallelize 1 1]⟩
    let c' : Candidate Kernel Step := ⟨⟨[⟨"a", .elementwise, [⟨"j", 8, false, none, true, none⟩]⟩,
      ⟨"b", .elementwise, [.declare "i" 4 false]⟩]⟩, .parallelize 0 1, [.parallelize 0 1]⟩
    let node : KernelNode := c.toNode (.root k 0) 0 0
    let node' : KernelNode := c'.toNode (.root k' 0) 0 0
    Kernel.read "b elementwise i=4\na elementwise j=8" = .ok k ∧ Rearranges s k k' ∧
      SameChain k k' node node' ∧
      ∃ cs cs', candidates (ofKind .vectorization none) node k.classify = .ok cs ∧
        candidates (ofKind .vectorization none) node' k'.classify = .ok cs' ∧
        cs.map (·.transformation) = [.vectorize 1 4, .vectorize 1 8, .vectorize 0 4] ∧
        List.Forall₂ (Moved s) cs cs' := by
  intro k k' s c c' node node'
  have hread : Kernel.read "b elementwise i=4\na elementwise j=8" = .ok k := by rfl
  have hs : Rearranges s k k' := ⟨by decide, by decide⟩
  have hcs : candidates (ofKind .parallelization none) (.root k 0) k.classify =
      .ok [c, ⟨⟨[⟨"b", .elementwise, [⟨"i", 4, false, none, true, none⟩]⟩,
        ⟨"a", .elementwise, [.declare "j" 8 false]⟩]⟩, .parallelize 0 1, [.parallelize 0 1]⟩] := by rfl
  have hcs' : candidates (ofKind .parallelization none) (.root k' 0) k'.classify =
      .ok [c', ⟨⟨[⟨"a", .elementwise, [.declare "j" 8 false]⟩,
        ⟨"b", .elementwise, [⟨"i", 4, false, none, true, none⟩]⟩]⟩, .parallelize 1 1,
        [.parallelize 1 1]⟩] := by rfl
  have hchain : SameChain k k' node node' := .candidates (i := 0) (.roots 0 0) hcs hcs' rfl rfl
  obtain ⟨cs, cs', hok, hok', hmoved⟩ :=
    candidates_of_rearranges hread hs hchain .vectorization none
  have hsteps : (candidates (ofKind .vectorization none) node k.classify).toOption.map
      (List.map (·.transformation)) = some [.vectorize 1 4, .vectorize 1 8, .vectorize 0 4] := by rfl
  rw [hok] at hsteps
  exact ⟨hread, hs, hchain, cs, cs', hok, hok', Option.some.inj hsteps, hmoved⟩

end Proposals

end LoopTuner
