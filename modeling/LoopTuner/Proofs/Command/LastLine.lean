import LoopTuner.Command.Report
import LoopTuner.Proofs.Text.Cuts

/-!
# The last line of an output

A text that is not blank has a last line that is not blank: only blanks come after the end of that line
(`IsLastLine`). The cost that a command reports is read from this line, without the blanks around it, whatever
the lines before it say (`readCost_last_line`).
-/

namespace LoopTuner.Command

open Text

/-- The line is the last one of the text that is not blank. Before it another line ends, or nothing stands
there; after it the text ends, or a line feed and only blanks follow. -/
inductive IsLastLine : List Char → List Char → Prop
  | intro {front line back : List Char} (hfront : ∀ c ∈ front.getLast?, c = '\n') (hfeed : '\n' ∉ line)
      (hline : ∃ c ∈ line, isBlank c = false)
      (hback : back = [] ∨ ∃ gap, back = '\n' :: gap ∧ ∀ c ∈ gap, isBlank c = true) :
      IsLastLine (front ++ line ++ back) line

/-! ## The line that is found -/

theorem trim_eq_nil_iff_blank {s : List Char} : trim s = [] ↔ ∀ c ∈ s, isBlank c = true :=
  trim_eq_nil_iff.trans words_eq_nil_iff

theorem trim_ne_nil_iff {s : List Char} : trim s ≠ [] ↔ ∃ c ∈ s, isBlank c = false := by
  rw [Ne, trim_eq_nil_iff_blank]
  simp

theorem lastLine_of_blank {s : List Char} (h : ∀ c ∈ s, isBlank c = true) : lastLine s = [] := by
  have hlines : ∀ line ∈ (lines s).map trim, line = [] := by
    intro line hline
    obtain ⟨line, hmem, rfl⟩ := List.mem_map.mp hline
    exact trim_eq_nil_iff_blank.mpr fun c hc => h c (mem_of_mem_lines hmem hc)
  unfold lastLine
  rw [List.find?_eq_none.mpr (by simpa using hlines)]
  rfl

/-- The search from the end passes over blank lines. -/
theorem lastLine_of_lines {s line : List Char} {before after : List (List Char)}
    (hs : lines s = before ++ line :: after) (hline : trim line ≠ []) (hafter : ∀ l ∈ after, trim l = []) :
    lastLine s = trim line := by
  have hskip : (after.map trim).reverse.find? (!·.isEmpty) = none := by
    rw [List.find?_eq_none]
    simpa using hafter
  unfold lastLine
  rw [hs, List.map_append, List.map_cons, List.reverse_append, List.reverse_cons, List.find?_append,
    List.find?_append, hskip]
  simp [hline]

theorem IsLastLine.lastLine_eq {s line : List Char} (h : IsLastLine s line) : lastLine s = trim line := by
  obtain @⟨front, line, back, hfront, hfeed, hline, hback⟩ := h
  rw [List.append_assoc]
  rcases hback with rfl | ⟨gap, rfl, hgap⟩
  · have hne : line ≠ [] := by
      rintro rfl
      simp at hline
    have hlines : lines (front ++ (line ++ [])) = lines front ++ [line] := by
      rw [lines_append hfront, List.append_nil, lines_of_not_mem hfeed hne]
    exact lastLine_of_lines hlines (trim_ne_nil_iff.mpr hline) (by simp)
  · have hlines : lines (front ++ (line ++ '\n' :: gap)) = lines front ++ dropReturn line :: lines gap := by
      rw [lines_append hfront, lines_append_feed hfeed]
    have hgaps : ∀ l ∈ lines gap, trim l = [] := fun l hl =>
      trim_eq_nil_iff_blank.mpr fun c hc => hgap c (mem_of_mem_lines hl hc)
    rw [← trim_dropReturn]
    refine lastLine_of_lines hlines ?_ hgaps
    rw [trim_dropReturn]
    exact trim_ne_nil_iff.mpr hline

/-! ## Every text has such a line or is blank -/

/-- A line that is not blank is the last one of itself. -/
theorem isLastLine_self {line : List Char} (hfeed : '\n' ∉ line) (hline : ∃ c ∈ line, isBlank c = false) :
    IsLastLine line line := by
  have hfront : ∀ c ∈ ([] : List Char).getLast?, c = '\n' := by simp
  have hlast := IsLastLine.intro hfront hfeed hline (Or.inl rfl)
  rwa [List.nil_append, List.append_nil] at hlast

theorem IsLastLine.self {s line : List Char} (h : IsLastLine s line) : IsLastLine line line := by
  cases h with
  | intro _ hfeed hline _ => exact isLastLine_self hfeed hline

theorem exists_isLastLine_feed {line rest : List Char} (hfeed : '\n' ∉ line)
    (hrest : (∃ c ∈ rest, isBlank c = false) → ∃ l, IsLastLine rest l)
    (h : ∃ c ∈ line ++ '\n' :: rest, isBlank c = false) : ∃ l, IsLastLine (line ++ '\n' :: rest) l := by
  by_cases hblank : ∀ c ∈ rest, isBlank c = true
  · have hline : ∃ c ∈ line, isBlank c = false := by
      obtain ⟨c, hc, hcblank⟩ := h
      rcases List.mem_append.mp hc with hc | hc
      · exact ⟨c, hc, hcblank⟩
      · rcases List.mem_cons.mp hc with rfl | hc
        · cases hcblank
        · simp [hblank c hc] at hcblank
    have hfront : ∀ c ∈ ([] : List Char).getLast?, c = '\n' := by simp
    exact ⟨line, .intro hfront hfeed hline (Or.inr ⟨rest, rfl, hblank⟩)⟩
  · obtain ⟨l, hl⟩ := hrest (by simpa using hblank)
    obtain @⟨front, l, back, hfront, hl, hline, hback⟩ := hl
    refine ⟨l, ?_⟩
    have htext : line ++ '\n' :: (front ++ l ++ back) = (line ++ '\n' :: front) ++ l ++ back := by simp
    rw [htext]
    refine .intro (fun c hc => ?_) hl hline hback
    rw [List.getLast?_append, List.getLast?_cons] at hc
    cases hlast : front.getLast? with
    | none => simpa [hlast, eq_comm] using hc
    | some d =>
      obtain rfl : d = c := by simpa [hlast] using hc
      exact hfront d hlast

theorem exists_isLastLine {s : List Char} (h : ∃ c ∈ s, isBlank c = false) : ∃ line, IsLastLine s line := by
  have hlines := isLines_lines s
  generalize lines s = ls at hlines
  induction hlines with
  | nil => simp at h
  | last hfeed _ => exact ⟨_, isLastLine_self hfeed h⟩
  | feed hfeed _ _ ih => exact exists_isLastLine_feed hfeed ih h
  | @returnFeed line rest _ hfeed _ ih =>
    rw [List.append_cons] at h ⊢
    exact exists_isLastLine_feed (by simp [hfeed]) ih h

/-! ## The cost -/

theorem readCost_eq_ok_iff {output : String} {x : Float} :
    readCost output = .ok x ↔ Decimal.read? (lastLine output.toList) = some x := by
  simp only [readCost]
  cases Decimal.read? (lastLine output.toList) <;> simp

theorem readCost_eq_error_iff {output : String} {e : Error} :
    readCost output = .error e ↔ Decimal.read? (lastLine output.toList) = none ∧
      e = .ofCause (.notACost (String.ofList (lastLine output.toList))) := by
  simp only [readCost]
  cases Decimal.read? (lastLine output.toList) <;> simp [eq_comm]

/-- The cost depends on the last line that is not blank and on nothing else: it is the float that the line
without the blanks around it stands for, and if there is none, then the error shows this very text. An output
without such a line has no cost, because the empty text is no float. -/
theorem readCost_last_line :
    (∀ output line : String, IsLastLine output.toList line.toList →
      readCost output = readCost line ∧
        (∀ x, readCost line = .ok x ↔ Decimal.read? (trim line.toList) = some x) ∧
        ∀ e, readCost line = .error e ↔ Decimal.read? (trim line.toList) = none ∧
          e = .ofCause (.notACost (String.ofList (trim line.toList)))) ∧
      ∀ output : String, (∀ c ∈ output.toList, isBlank c = true) →
        readCost output = .error (.ofCause (.notACost "")) := by
  refine ⟨fun output line h => ?_, fun output hblank => ?_⟩
  · have hself : lastLine line.toList = trim line.toList := h.self.lastLine_eq
    refine ⟨?_, fun x => ?_, fun e => ?_⟩
    · unfold readCost
      rw [h.lastLine_eq, hself]
    · rw [readCost_eq_ok_iff, hself]
    · rw [readCost_eq_error_iff, hself]
  · rw [readCost_eq_error_iff, lastLine_of_blank hblank]
    exact ⟨Decimal.read?_nil, rfl⟩

/-- A line of a log that ends in a carriage return, a separator of lines that is none here, a cost between
blanks, and blank lines after it. -/
theorem readCost_last_line_logged :
    let line := "\t2.5\u00a0\r"
    let output := "1.0\u2028run\r\n" ++ line ++ "\n \u0085\n\r\n"
    IsLastLine output.toList line.toList ∧ (∀ c ∈ "\u0085\r\n".toList, isBlank c = true) ∧
      trim line.toList = ['2', '.', '5'] ∧ readCost output = readCost line ∧
      (∃ x, Decimal.read? (trim line.toList) = some x ∧ readCost line = .ok x) ∧
      readCost "\u0085\r\n" = .error (.ofCause (.notACost "")) := by
  intro line output
  have htext : "1.0\u2028run\r\n".toList ++ line.toList ++ "\n \u0085\n\r\n".toList = output.toList := by decide
  have htrim : trim line.toList = ['2', '.', '5'] := by decide
  have hlast : IsLastLine output.toList line.toList := by
    rw [← htext]
    exact .intro (by simp) (by decide) ⟨'2', by decide, by decide⟩
      (Or.inr ⟨" \u0085\n\r\n".toList, by decide, List.all_eq_true.mp (by decide)⟩)
  have hblank : ∀ c ∈ "\u0085\r\n".toList, isBlank c = true := List.all_eq_true.mp (by decide)
  obtain ⟨heq, hok, -⟩ := readCost_last_line.1 output line hlast
  obtain ⟨x, hx⟩ := Option.isSome_iff_exists.mp (by rfl : (Decimal.read? ['2', '.', '5']).isSome = true)
  rw [← htrim] at hx
  exact ⟨hlast, hblank, htrim, heq, ⟨x, hx, (hok x).mpr hx⟩, readCost_last_line.2 _ hblank⟩

end LoopTuner.Command
