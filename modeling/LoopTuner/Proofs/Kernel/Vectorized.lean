import LoopTuner.Proofs.Kernel.Effects
import LoopTuner.Proofs.Kernel.Rendering
import LoopTuner.Proofs.Kernel.Vector

/-!
# The loop that a vector width is given to

A step looks for the loop to vectorize among the loops, the schedule ends with it, and the printer marks the
last line. All three mean the same loop, whichever loops are tiled and in whatever order they stand, and the
printer shows the width that was given last, whatever widths were set before
(`Kernel.vectorizes_innermost`).
-/

namespace LoopTuner

open Text

/-- Whether the word is the mark of a vector width. -/
def isVectorMark (w : String) : Bool := "vector<".toList.isPrefixOf w.toList

/-- The vector marks before the first `for`, for each line of a rendered nest that has a `for`. The head of
the nest is left out, and names that look like marks stand behind the `for`. -/
def printedVectors (text : String) : List (List String) :=
  (((lineWords text).drop 1).filter (·.contains "for")).map fun ws =>
    (ws.takeWhile (· != "for")).filter isVectorMark

/-! ## Lines -/

namespace ScheduledLoop

theorem isVectorMark_of_mem_vectorWords {s : ScheduledLoop} {isLast : Bool} :
    ∀ w ∈ s.vectorWords isLast, isVectorMark w = true := by
  unfold vectorWords
  split
  · refine List.forall_mem_singleton.mpr (List.isPrefixOf_iff_prefix.mpr ?_)
    rw [String.append_assoc, String.toList_append]
    exact List.prefix_append _ _
  · exact fun _ hw => absurd hw List.not_mem_nil

/-- The vector marks of a line. -/
theorem filter_takeWhile_words (s : ScheduledLoop) (isLast : Bool) :
    ((s.words isLast).takeWhile (· != "for")).filter isVectorMark = s.vectorWords isLast := by
  have hparallel : s.parallelWords.filter isVectorMark = [] := by
    unfold parallelWords
    split_ifs <;> rfl
  rw [takeWhile_words, List.filter_append, hparallel, List.nil_append,
    List.filter_eq_self.mpr isVectorMark_of_mem_vectorWords]

end ScheduledLoop

theorem contains_for_of_mem_scheduleWords {schedule : List ScheduledLoop} :
    ∀ ws ∈ scheduleWords schedule, ws.contains "for" = true := by
  induction schedule with
  | nil => exact fun _ hws => absurd hws List.not_mem_nil
  | cons s schedule ih =>
    refine List.forall_mem_cons.mpr ⟨?_, ih⟩
    simp [ScheduledLoop.words, ScheduledLoop.headWords]

/-- Only the last line shows a vector width. -/
theorem map_scheduleWords_concat (outer : List ScheduledLoop) (inner : ScheduledLoop) :
    (scheduleWords (outer ++ [inner])).map (fun ws => (ws.takeWhile (· != "for")).filter isVectorMark) =
      List.replicate outer.length [] ++ [inner.vectorWords true] := by
  induction outer with
  | nil => exact congrArg (· :: []) (inner.filter_takeWhile_words true)
  | cons s outer ih =>
    have hmore : (outer ++ [inner]).isEmpty = false := by simp
    have hnone : s.vectorWords false = [] := by
      unfold ScheduledLoop.vectorWords
      cases s.source.vectorWidth <;> rfl
    rw [List.cons_append, scheduleWords, List.map_cons, ih, hmore, s.filter_takeWhile_words, hnone,
      List.length_cons, List.replicate_succ, List.cons_append]

/-! ## Nests -/

namespace Nest

/-- The second nest is the first one after its innermost loop got a vector width. The source of that loop
stands at position `i` and nowhere else, and the other loops are as they were. The width is the only one that
the lines of the loops show, and the last line shows it. -/
structure VectorizedAt (i width : Nat) (n n' : Nest) (inner : ScheduledLoop) : Prop where
  innermost_before : n.innermost?.map (·.source) = n.loops[i]?
  innermost : n'.innermost? = some inner
  source : n.loops[i]?.map (fun l => { l with vectorWidth := some width }) = some inner.source
  position_iff : ∀ j : Nat, n'.loops[j]? = some inner.source ↔ j = i
  others : ∀ j : Nat, j ≠ i → n'.loops[j]? = n.loops[j]?
  printed : printedVectors n'.render =
    List.replicate (n'.schedule.length - 1) [] ++ [["vector<" ++ toString width ++ ">"]]

variable {n : Nest} {inner : ScheduledLoop}

theorem printedVectors_render (hspelled : n.Spelled) (hinner : n.innermost? = some inner) :
    printedVectors n.render =
      List.replicate (n.schedule.length - 1) [] ++ [inner.vectorWords true] := by
  have hlines := lineWords_render hspelled ""
  rw [String.append_empty] at hlines
  obtain ⟨outer, hschedule⟩ := List.getLast?_eq_some_iff.mp hinner
  unfold printedVectors
  rw [hlines, openWords, List.cons_append, List.drop_succ_cons, List.drop_zero, List.filter_append,
    List.filter_eq_self.mpr contains_for_of_mem_scheduleWords, hschedule, List.map_append,
    map_scheduleWords_concat, List.length_append, List.length_singleton, Nat.add_sub_cancel]
  exact List.append_nil _

theorem vectorizedAt {n n' : Nest} {width : Nat} (hloops : n'.loops = vectorizeLoops width n.loops)
    (hne : n.loops ≠ []) (hspelled : n'.Spelled) (hnames : (n'.loops.map Loop.name).Nodup) :
    ∃ inner, n.VectorizedAt (innerPosition n.loops) width n' inner := by
  have hget (j : Nat) : n'.loops[j]? = n.loops[j]?.map fun l =>
      if j = innerPosition n.loops then { l with vectorWidth := some width } else l := by
    rw [hloops, getElem?_vectorizeLoops]
  have hlt := innerPosition_lt hne
  -- the loop is found at the same position in both nests
  have hsource : n'.innermost?.map (·.source) =
      n.loops[innerPosition n.loops]?.map fun l => { l with vectorWidth := some width } := by
    rw [← getElem?_innerPosition, hloops, innerPosition_vectorizeLoops, getElem?_vectorizeLoops]
    simp only [if_true]
  rw [List.getElem?_eq_getElem hlt, Option.map_some] at hsource
  obtain ⟨inner, hinner, heq⟩ := Option.map_eq_some_iff.mp hsource
  have hposition : n'.loops[innerPosition n.loops]? = some inner.source := by
    rw [hget, List.getElem?_eq_getElem hlt, heq]
    simp
  have hlt' := (List.getElem?_eq_some_iff.mp hposition).1
  have hwords : inner.vectorWords true = ["vector<" ++ toString width ++ ">"] := by
    unfold ScheduledLoop.vectorWords
    rw [heq]
  refine ⟨inner, n.getElem?_innerPosition.symm, hinner, ?_, fun j => ⟨fun hj => ?_, ?_⟩, fun j hj => ?_,
    hwords ▸ printedVectors_render hspelled hinner⟩
  · rw [List.getElem?_eq_getElem hlt, Option.map_some, heq]
  · exact ((List.getElem?_inj hlt' hnames.of_map).mp (hposition.trans hj.symm)).symm
  · rintro rfl
    exact hposition
  · rw [hget]
    simp only [if_neg hj, Option.map_id']

end Nest

namespace Kernel

/-- Whatever steps were applied to a kernel text, a vector width goes to the loop of its operation that runs
innermost, and the lines of the operation show it alone. -/
theorem vectorizes_innermost {text : String} {k k' k'' : Kernel} {steps : List Step}
    (hread : Kernel.read text = .ok k) (hsteps : Step.applyAll steps k = .ok k') {op width : Nat}
    (happly : (Step.vectorize op width).apply k' = .ok k'') :
    ∃ n n' inner i, k'.nests[op]? = some n ∧ k''.nests[op]? = some n' ∧
      inner.source.vectorWidth = some width ∧ n.VectorizedAt i width n' inner := by
  obtain ⟨n, loops, hn, hloops, hn', -⟩ := Step.exists_getElem?_of_apply happly
  simp only [Nest.stepLoops] at hloops
  split_ifs at hloops
  cases hloops
  have hne := loops_ne_nil_of_applyAll hread hsteps n (List.mem_of_getElem? hn)
  obtain ⟨hspelled, hnames⟩ := spelled_of_applyAll hread (Step.applyAll_concat hsteps happly) _
    (List.mem_of_getElem? hn')
  obtain ⟨inner, hvectorized⟩ := Nest.vectorizedAt rfl hne hspelled hnames
  obtain ⟨l, -, hl⟩ := Option.map_eq_some_iff.mp hvectorized.source
  exact ⟨n, _, inner, _, hn, hn', congrArg Loop.vectorWidth hl.symm, hvectorized⟩

/-- A matrix product whose inner loop has a width already when the other one is tiled. The points of the latter
run innermost then and get the width. -/
theorem vectorizes_innermost_gemm :
    let k : Kernel := ⟨[⟨"gemm", .contraction, [.declare "i" 8 false, .declare "k" 6 true]⟩]⟩
    let steps : List Step := [.vectorize 0 2, .tile 0 [some 4, none]]
    let reduction : Loop := ⟨"k", 6, true, none, false, some 2⟩
    let n : Nest := ⟨"gemm", .contraction, [⟨"i", 8, false, some 4, false, none⟩, reduction]⟩
    let n' : Nest := ⟨"gemm", .contraction, [⟨"i", 8, false, some 4, false, some 4⟩, reduction]⟩
    let inner : ScheduledLoop := ⟨⟨"i", 8, false, some 4, false, some 4⟩, true⟩
    Kernel.read "gemm contraction i=8 k=6" = .ok k ∧ Step.applyAll steps k = .ok ⟨[n]⟩ ∧
      (Step.vectorize 0 4).apply ⟨[n]⟩ = .ok ⟨[n']⟩ ∧ n.VectorizedAt 0 4 n' inner ∧
      printedVectors n'.render = [[], [], ["vector<4>"]] := by
  intro k steps reduction n n' inner
  have hread : Kernel.read "gemm contraction i=8 k=6" = .ok k := by rfl
  have hsteps : Step.applyAll steps k = .ok ⟨[n]⟩ := by rfl
  have happly : (Step.vectorize 0 4).apply ⟨[n]⟩ = .ok ⟨[n']⟩ := by rfl
  obtain ⟨m, m', inner', i, hm, hm', -, h⟩ := vectorizes_innermost hread hsteps happly
  cases hm
  cases hm'
  cases h.innermost
  cases (h.position_iff 0).mp rfl
  exact ⟨hread, hsteps, happly, h, h.printed⟩

end Kernel

end LoopTuner
