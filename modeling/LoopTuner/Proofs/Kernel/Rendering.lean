import LoopTuner.Kernel.Printer
import LoopTuner.Proofs.Kernel.Frame
import LoopTuner.Proofs.Kernel.Iterations
import LoopTuner.Proofs.Text.Words

/-!
# The words of a rendered kernel

Ids and names of loops are words, so the text of a kernel is cut into words as it was put together from
them: a head with the id and the class of a nest, one line for each loop of the schedule, and a closing
brace (`Kernel.lineWords_render`).
-/

namespace LoopTuner

open Text

namespace ScheduledLoop

/-- The variable that the line of a loop shows. -/
def counter (s : ScheduledLoop) : String :=
  match s.source.tile, s.point with
  | some _, true => s.source.name ++ ".p"
  | _, _ => s.source.name

/-- The end of the range that the line of a loop shows. -/
def bound (s : ScheduledLoop) : Nat :=
  match s.source.tile, s.point with
  | some tile, true => tile
  | _, _ => s.source.extent

def strideWords (s : ScheduledLoop) : List String :=
  match s.source.tile, s.point with
  | some tile, false => ["step", toString tile]
  | _, _ => []

def reduceWords (s : ScheduledLoop) : List String := if s.source.reduction then ["reduce"] else []

/-- The words of a line behind the marks. -/
def headWords (s : ScheduledLoop) : List String :=
  "for" :: s.counter :: "in" :: ("0.." ++ toString s.bound) :: (s.strideWords ++ s.reduceWords)

def parallelWords (s : ScheduledLoop) : List String :=
  if s.source.parallel && !s.point then ["parallel"] else []

def vectorWords (s : ScheduledLoop) (isLast : Bool) : List String :=
  match s.source.vectorWidth, isLast with
  | some width, true => ["vector<" ++ toString width ++ ">"]
  | _, _ => []

/-- The words of a line. -/
def words (s : ScheduledLoop) (isLast : Bool) : List String :=
  s.parallelWords ++ s.vectorWords isLast ++ s.headWords

/-! ### Lines -/

theorem header_eq (s : ScheduledLoop) :
    s.header ++ (if s.source.reduction then " reduce" else "") = " ".intercalate s.headWords := by
  obtain ⟨⟨name, extent, reduction, tile, parallel, vectorWidth⟩, point⟩ := s
  apply String.toList_injective
  cases tile <;> cases point <;> cases reduction <;>
    simp [header, headWords, counter, bound, strideWords, reduceWords]

theorem marks_append (s : ScheduledLoop) (isLast : Bool) :
    s.marks isLast ++ " ".intercalate s.headWords = " ".intercalate (s.words isLast) := by
  have hparallel : s.parallelWords = if s.source.parallel && !s.point then ["parallel"] else [] := rfl
  have hne : s.headWords ≠ [] := List.cons_ne_nil _ _
  unfold marks words vectorWords
  rw [hparallel]
  apply String.toList_injective
  cases s.source.parallel && !s.point <;> cases s.source.vectorWidth <;> cases isLast <;>
    simp [String.intercalate_cons_of_ne_nil, hne]

/-- The line of a loop holds its words. -/
theorem line_eq (s : ScheduledLoop) (depth : Nat) (isLast : Bool) :
    s.line depth isLast = String.ofList (List.replicate (2 * (depth + 1)) ' ') ++
      " ".intercalate (s.words isLast) ++ "\n" := by
  rw [← marks_append, ← header_eq]
  unfold line
  simp only [String.append_assoc]

/-! ### Words -/

theorem isWord_counter {s : ScheduledLoop} (h : IsWord s.source.name) : IsWord s.counter := by
  unfold counter
  split
  · exact h.append (by decide)
  · exact h

theorem isWord_headWords {s : ScheduledLoop} (h : IsWord s.source.name) :
    ∀ w ∈ s.headWords, IsWord w := by
  have hnumeral (front : String) (hfront : IsWord front) (n : Nat) : IsWord (front ++ toString n) :=
    hfront.append (isWord_toString n)
  have hstride : ∀ w ∈ s.strideWords, IsWord w := by
    unfold strideWords
    split
    · exact List.forall_mem_cons.mpr ⟨by decide, List.forall_mem_singleton.mpr (isWord_toString _)⟩
    · exact fun _ hw => absurd hw List.not_mem_nil
  have hreduce : ∀ w ∈ s.reduceWords, IsWord w := by
    unfold reduceWords
    split_ifs
    · exact List.forall_mem_singleton.mpr (by decide)
    · exact fun _ hw => absurd hw List.not_mem_nil
  unfold headWords
  simp only [List.forall_mem_cons, List.forall_mem_append]
  exact ⟨by decide, isWord_counter h, by decide, hnumeral _ (by decide) _, hstride, hreduce⟩

theorem isWord_words {s : ScheduledLoop} (h : IsWord s.source.name) (isLast : Bool) :
    ∀ w ∈ s.words isLast, IsWord w := by
  have hparallel : ∀ w ∈ s.parallelWords, IsWord w := by
    unfold parallelWords
    split_ifs
    · exact List.forall_mem_singleton.mpr (by decide)
    · exact fun _ hw => absurd hw List.not_mem_nil
  have hvector : ∀ w ∈ s.vectorWords isLast, IsWord w := by
    have hmark : IsWord "vector<" ∧ IsWord ">" := by decide
    unfold vectorWords
    split
    · exact List.forall_mem_singleton.mpr ((hmark.1.append (isWord_toString _)).append hmark.2)
    · exact fun _ hw => absurd hw List.not_mem_nil
  exact List.forall_mem_append.mpr ⟨List.forall_mem_append.mpr ⟨hparallel, hvector⟩, isWord_headWords h⟩

/-- The first `for` of a line stands behind the marks, whatever the variable is called. -/
theorem not_for_of_mem_marks {s : ScheduledLoop} {isLast : Bool} :
    ∀ w ∈ s.parallelWords ++ s.vectorWords isLast, (w != "for") = true := by
  refine List.forall_mem_append.mpr ⟨?_, ?_⟩
  · unfold parallelWords
    split_ifs
    · exact List.forall_mem_singleton.mpr (by decide)
    · exact fun _ hw => absurd hw List.not_mem_nil
  · unfold vectorWords
    split
    · refine List.forall_mem_singleton.mpr (bne_iff_ne.mpr fun heq => ?_)
      simpa using congrArg (fun w => w.toList.head?) heq
    · exact fun _ hw => absurd hw List.not_mem_nil

theorem takeWhile_words (s : ScheduledLoop) (isLast : Bool) :
    (s.words isLast).takeWhile (· != "for") = s.parallelWords ++ s.vectorWords isLast := by
  unfold words
  rw [List.takeWhile_append_of_pos not_for_of_mem_marks, headWords,
    List.takeWhile_cons_of_neg (by decide), List.append_nil]

theorem dropWhile_words (s : ScheduledLoop) (isLast : Bool) :
    (s.words isLast).dropWhile (· != "for") = s.headWords := by
  unfold words
  rw [List.dropWhile_append_of_pos not_for_of_mem_marks, headWords,
    List.dropWhile_cons_of_neg (by decide)]

end ScheduledLoop

/-- The words of the lines of loops, of which the last one is innermost. -/
def scheduleWords : List ScheduledLoop → List (List String)
  | [] => []
  | s :: rest => s.words rest.isEmpty :: scheduleWords rest

theorem lineWords_scheduleText {schedule : List ScheduledLoop}
    (h : ∀ s ∈ schedule, IsWord s.source.name) (depth : Nat) (rest : String) :
    lineWords (scheduleText depth schedule ++ rest) = scheduleWords schedule ++ lineWords rest := by
  induction schedule generalizing depth with
  | nil => rw [scheduleText, scheduleWords, String.empty_append, List.nil_append]
  | cons s schedule ih =>
    obtain ⟨hs, hschedule⟩ := List.forall_mem_cons.mp h
    rw [scheduleText, ScheduledLoop.line_eq, String.append_assoc,
      lineWords_line (ScheduledLoop.isWord_words hs _), ih hschedule]
    rfl

/-! ## Nests -/

namespace Nest

/-- The id and the names of the loops are words. -/
structure Spelled (n : Nest) : Prop where
  id : IsWord n.id
  names : ∀ l ∈ n.loops, IsWord l.name

/-- The words of the lines of a nest before the closing brace. -/
def openWords (n : Nest) : List (List String) :=
  [n.id, n.opClass.name, "\x7b"] :: scheduleWords n.schedule

theorem lineWords_render {n : Nest} (h : n.Spelled) (rest : String) :
    lineWords (n.render ++ rest) = n.openWords ++ ["\x7d"] :: lineWords rest := by
  have hclass : IsWord n.opClass.name := by cases n.opClass <;> decide
  have hhead : ∀ w ∈ [n.id, n.opClass.name, "\x7b"], IsWord w := by
    simp only [List.forall_mem_cons]
    exact ⟨h.id, hclass, by decide, fun _ hw => absurd hw List.not_mem_nil⟩
  have hbrace : ∀ w ∈ ["\x7d"], IsWord w := List.forall_mem_singleton.mpr (by decide)
  have hschedule : ∀ s ∈ n.schedule, IsWord s.source.name := fun s hs =>
    h.names _ (mem_schedule.mp hs).1
  have htext : n.render ++ rest = String.ofList (List.replicate 0 ' ') ++
      " ".intercalate [n.id, n.opClass.name, "\x7b"] ++ "\n" ++ (scheduleText 0 n.schedule ++
        (String.ofList (List.replicate 0 ' ') ++ " ".intercalate ["\x7d"] ++ "\n" ++ rest)) := by
    unfold render
    apply String.toList_injective
    simp
  rw [htext, lineWords_line hhead, lineWords_scheduleText hschedule, lineWords_line hbrace]
  rfl

end Nest

/-! ## Kernels -/

namespace Kernel

theorem lineWords_render {k : Kernel} (h : ∀ n ∈ k.nests, n.Spelled) :
    lineWords k.render = k.nests.flatMap fun n => n.openWords ++ [["\x7d"]] := by
  obtain ⟨nests⟩ := k
  unfold render
  induction nests with
  | nil => rfl
  | cons n nests ih =>
    obtain ⟨hn, hnests⟩ := List.forall_mem_cons.mp h
    rw [List.map_cons, String.join_cons, Nest.lineWords_render hn, ih hnests, List.flatMap_cons,
      List.append_assoc]
    rfl

theorem spelled_of_declaresNest {s : List Char} {n : Nest} (h : DeclaresNest (Text.words s) n) :
    n.Spelled := by
  obtain ⟨id, label, loops, declared, hwords, hid, -, hdeclares, -, -, hloops⟩ := h
  have hword : ∀ w ∈ id :: label :: loops, IsWord (String.ofList w) := fun w hw =>
    isWord_of_mem_words (hwords ▸ hw)
  refine ⟨hid ▸ hword id List.mem_cons_self, fun l hl => ?_⟩
  rw [hloops] at hl
  obtain ⟨i, hi, rfl⟩ := List.mem_mapIdx.mp hl
  obtain ⟨w, hw, hloop⟩ := exists_of_forall₂_of_mem hdeclares (List.getElem_mem hi)
  obtain ⟨name, numeral, rfl, -, hne, hname, -⟩ := hloop
  have hletters := (hword _ (List.mem_cons_of_mem _ (List.mem_cons_of_mem _ hw))).2
  rw [String.toList_ofList] at hletters
  show IsWord declared[i].1
  rw [hname]
  exact isWord_ofList hne fun c hc => hletters c (List.mem_append_left _ hc)

theorem spelled_of_read {text : String} {k : Kernel} (h : read text = .ok k) :
    ∀ n ∈ k.nests, n.Spelled := by
  obtain ⟨hlines, -⟩ := readChars_eq_ok_iff.mp h
  obtain ⟨hnests, -⟩ := readLines_eq_ok_iff.mp hlines
  intro n hn
  obtain ⟨ws, hws, hdeclares⟩ := exists_of_forall₂_of_mem hnests hn
  obtain ⟨line, -, rfl⟩ := List.mem_map.mp (List.mem_filter.mp hws).1
  exact spelled_of_declaresNest hdeclares

end Kernel

/-- Steps leave ids and names. -/
theorem Nest.Reshaped.spelled {declared n : Nest} (h : declared.Reshaped n) (hd : declared.Spelled) :
    n.Spelled where
  id := h.id_eq ▸ hd.id
  names l hl := by
    obtain ⟨l', hl', heq⟩ := List.mem_map.mp (h.names.subset (List.mem_map_of_mem hl))
    exact heq ▸ hd.names l' hl'

/-- What steps lead to from a kernel text is spelled with words, and its loops have different names. -/
theorem Kernel.spelled_of_applyAll {text : String} {k k' : Kernel} {steps : List Step}
    (hread : read text = .ok k) (h : Step.applyAll steps k = .ok k') :
    ∀ n ∈ k'.nests, n.Spelled ∧ (n.loops.map Loop.name).Nodup := by
  intro n hn
  have hreshaped := reshaped_of_applyAll h (Nest.reshaped_refl k.nests)
  obtain ⟨d, hd, hreshaped⟩ := exists_of_forall₂_of_mem hreshaped hn
  exact ⟨hreshaped.spelled (spelled_of_read hread d hd), nodup_names_of_applyAll hread h n hn⟩

end LoopTuner
