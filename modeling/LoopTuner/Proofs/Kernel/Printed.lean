import LoopTuner.Cli.Report
import LoopTuner.Proofs.Lists
import LoopTuner.Proofs.Text.Words

/-!
# Printed steps

A printed step is made of tokens with punctuation between them: its name, the operation, and its arguments
(`Step.tokens_render`). The tokens spell the step, so that a printed step is read back (`Step.read?_render`)
and a kernel can be transformed by the printed steps alone (`Step.replay?_map_render`). The report of a search
shows one step on each line, and so it tells all the steps (`Step.render_unambiguous`).
-/

namespace LoopTuner

open Text

namespace Step

/-! ## Tokens -/

/-- The characters that stand between the tokens of printed steps. -/
def isPunctuation (c : Char) : Bool := ['(', ')', '[', ']', ',', ' ', '\n'].contains c

/-- The maximal runs of characters that are no punctuation. -/
def tokens (s : List Char) : List String :=
  ((pieces isPunctuation s).filter (!·.isEmpty)).map String.ofList

/-- A text that is one token. -/
def IsToken (w : String) : Prop := w.toList ≠ [] ∧ ∀ c ∈ w.toList, isPunctuation c = false

instance (w : String) : Decidable (IsToken w) :=
  @instDecidableAnd _ _ inferInstance (List.decidableBAll _ _)

theorem IsToken.feed_not_mem {w : String} (h : IsToken w) : '\n' ∉ w.toList :=
  fun hmem => absurd (h.2 _ hmem) (by decide)

theorem tokens_punctuation {c : Char} (h : isPunctuation c = true) (s : List Char) :
    tokens (c :: s) = tokens s := by
  unfold tokens
  rw [pieces_separator h]
  rfl

theorem tokens_append {w : String} (hw : IsToken w) {c : Char} (hc : isPunctuation c = true) (s : List Char) :
    tokens (w.toList ++ c :: s) = w :: tokens s := by
  unfold tokens
  rw [pieces_append_separator hw.2 hc, List.filter_cons_of_pos (by simpa using hw.1), List.map_cons,
    String.ofList_toList]

theorem tokens_intercalate {items : List String} (h : ∀ w ∈ items, IsToken w) {c : Char}
    (hc : isPunctuation c = true) (s : List Char) :
    tokens ((", ".intercalate items).toList ++ c :: s) = items ++ tokens s := by
  induction items with
  | nil => exact tokens_punctuation hc s
  | cons w items ih =>
    obtain ⟨hw, hitems⟩ := List.forall_mem_cons.mp h
    cases items with
    | nil =>
      rw [String.intercalate_singleton, tokens_append hw hc]
      rfl
    | cons v items =>
      have htext : (", ".intercalate (w :: v :: items)).toList ++ c :: s =
          w.toList ++ ',' :: ' ' :: ((", ".intercalate (v :: items)).toList ++ c :: s) := by
        simp [String.intercalate_cons_cons, String.toList_append]
      rw [htext, tokens_append hw (by decide), tokens_punctuation (by decide), ih hitems]
      rfl

theorem tokens_listText {items : List String} (h : ∀ w ∈ items, IsToken w) (s : List Char) :
    tokens ((listText items).toList ++ s) = items ++ tokens s := by
  have htext : (listText items).toList ++ s = '[' :: ((", ".intercalate items).toList ++ ']' :: s) := by
    simp [listText, String.toList_append]
  rw [htext, tokens_punctuation (by decide), tokens_intercalate h (by decide)]

theorem isToken_toString (n : Nat) : IsToken (toString n) := by
  have hdigit : ∀ c : Char, c.isDigit = true → isPunctuation c = false := by
    intro c hc
    rw [isPunctuation, List.contains_eq_mem, decide_eq_false_iff_not]
    simp only [List.mem_cons, List.not_mem_nil, or_false]
    rintro (rfl | rfl | rfl | rfl | rfl | rfl | rfl) <;> exact absurd hc (by decide)
  rw [IsToken, Nat.toString_eq_ofList_toDigits, String.toList_ofList]
  exact ⟨Nat.toDigits_ne_nil, fun c hc => hdigit c (Nat.isDigit_of_mem_toDigits (by omega) (by omega) hc)⟩

theorem isToken_sizeText (size : Option Nat) : IsToken (sizeText size) := by
  cases size with
  | none => decide
  | some size => exact isToken_toString size

theorem isToken_op (n : Nat) : IsToken ("op" ++ toString n) := by
  obtain ⟨hne, hnumber⟩ := isToken_toString n
  rw [IsToken, String.toList_append]
  have hop : IsToken "op" := by decide
  exact ⟨List.append_ne_nil_of_right_ne_nil _ hne, List.forall_mem_append.mpr ⟨hop.2, hnumber⟩⟩

/-! ## The tokens of a step -/

/-- The name that a step is printed with. -/
def label : Step → String
  | tile _ _ => "tile"
  | parallelize _ _ => "parallelize"
  | interchange _ _ => "interchange"
  | vectorize _ _ => "vectorize"

/-- The arguments that a step is printed with, apart from its operation. -/
def arguments : Step → List String
  | tile _ sizes => sizes.map sizeText
  | parallelize _ loops => [toString loops]
  | interchange _ order => order.map toString
  | vectorize _ width => [toString width]

/-- The arguments as they are printed. A list stands in brackets. -/
def argumentText : Step → String
  | tile _ sizes => listText (sizes.map sizeText)
  | parallelize _ loops => toString loops
  | interchange _ order => listText (order.map toString)
  | vectorize _ width => toString width

theorem render_eq (step : Step) :
    step.render = step.label ++ "(op" ++ toString step.op ++ ", " ++ step.argumentText ++ ")" := by
  cases step <;> rfl

theorem isToken_label (step : Step) : IsToken step.label := by
  cases step with
  | tile => exact (by decide : IsToken "tile")
  | parallelize => exact (by decide : IsToken "parallelize")
  | interchange => exact (by decide : IsToken "interchange")
  | vectorize => exact (by decide : IsToken "vectorize")

theorem isToken_of_mem_arguments (step : Step) : ∀ w ∈ step.arguments, IsToken w := by
  cases step with
  | tile op sizes => exact List.forall_mem_map.mpr fun size _ => isToken_sizeText size
  | parallelize op loops => exact List.forall_mem_singleton.mpr (isToken_toString loops)
  | interchange op order => exact List.forall_mem_map.mpr fun i _ => isToken_toString i
  | vectorize op width => exact List.forall_mem_singleton.mpr (isToken_toString width)

theorem tokens_argumentText (step : Step) {c : Char} (hc : isPunctuation c = true) (s : List Char) :
    tokens (step.argumentText.toList ++ c :: s) = step.arguments ++ tokens s := by
  have harguments := step.isToken_of_mem_arguments
  cases step with
  | tile op sizes => exact (tokens_listText harguments _).trans (by rw [tokens_punctuation hc])
  | parallelize op loops => exact tokens_append (isToken_toString loops) hc s
  | interchange op order => exact (tokens_listText harguments _).trans (by rw [tokens_punctuation hc])
  | vectorize op width => exact tokens_append (isToken_toString width) hc s

theorem tokens_render (step : Step) :
    tokens step.render.toList = step.label :: ("op" ++ toString step.op) :: step.arguments := by
  have htext : step.render.toList = step.label.toList ++ '(' :: (("op" ++ toString step.op).toList ++
      ',' :: ' ' :: (step.argumentText.toList ++ [')'])) := by
    rw [render_eq]
    simp
  rw [htext, tokens_append step.isToken_label (by decide), tokens_append (isToken_op _) (by decide),
    tokens_punctuation (by decide), step.tokens_argumentText (by decide)]
  exact congrArg _ (congrArg _ (List.append_nil _))

/-! ## Reading a step -/

/-- The number that digits form. -/
def readNumber? (digits : List Char) : Option Nat :=
  if !digits.isEmpty && digits.all Char.isDigit then some (Nat.ofDigitChars 10 digits 0) else none

def readOp? (token : String) : Option Nat :=
  match token.toList with
  | 'o' :: 'p' :: digits => readNumber? digits
  | _ => none

def readCount? (token : String) : Option Nat := readNumber? token.toList

def readSingle? : List String → Option Nat
  | [token] => readCount? token
  | _ => none

def readSize? (token : String) : Option (Option Nat) :=
  if token = "-" then some none else (readCount? token).map some

/-- The step with this name, this operation and these arguments. -/
def ofArguments? (label : String) (op : Nat) (arguments : List String) : Option Step :=
  if label = "tile" then (arguments.mapM readSize?).map (tile op)
  else if label = "parallelize" then (readSingle? arguments).map (parallelize op)
  else if label = "interchange" then (arguments.mapM readCount?).map (interchange op)
  else if label = "vectorize" then (readSingle? arguments).map (vectorize op)
  else none

/-- Reads a printed step. -/
def read? (text : String) : Option Step :=
  match tokens text.toList with
  | label :: op :: arguments => (readOp? op).bind fun op => ofArguments? label op arguments
  | _ => none

theorem readNumber?_toString (n : Nat) : readNumber? (toString n).toList = some n := by
  have hall : (Nat.toDigits 10 n).all Char.isDigit = true :=
    List.all_eq_true.mpr fun c hc => Nat.isDigit_of_mem_toDigits (by omega) (by omega) hc
  have hne : (Nat.toDigits 10 n).isEmpty = false := List.isEmpty_eq_false_iff.mpr Nat.toDigits_ne_nil
  unfold readNumber?
  rw [Nat.toString_eq_ofList_toDigits, String.toList_ofList, hall, hne,
    Nat.ofDigitChars_toDigits (by omega) (by omega)]
  rfl

theorem readOp?_op (n : Nat) : readOp? ("op" ++ toString n) = some n := by
  have htext : ("op" ++ toString n).toList = 'o' :: 'p' :: (toString n).toList := by
    rw [String.toList_append]
    rfl
  unfold readOp?
  rw [htext]
  exact readNumber?_toString n

theorem readSize?_sizeText (size : Option Nat) : readSize? (sizeText size) = some size := by
  cases size with
  | none => rfl
  | some size =>
    have hread : readCount? (toString size) = some size := readNumber?_toString size
    have hdash : toString size ≠ "-" := by
      intro h
      have hnone : readCount? "-" = none := by decide
      rw [h, hnone] at hread
      cases hread
    unfold readSize? sizeText
    rw [if_neg hdash, hread]
    rfl

/-- A printed step is read back. -/
theorem read?_render (step : Step) : read? step.render = some step := by
  have hread : read? step.render = ofArguments? step.label step.op step.arguments := by
    unfold read?
    rw [tokens_render]
    show (readOp? _).bind _ = _
    rw [readOp?_op]
    rfl
  have hcount (n : Nat) : readCount? (toString n) = some n := readNumber?_toString n
  rw [hread]
  cases step with
  | tile op sizes => simp [ofArguments?, label, arguments, mapM_map_of_leftInverse readSize?_sizeText, Step.op]
  | parallelize op loops => simpa [ofArguments?, label, arguments, readSingle?, Step.op] using hcount loops
  | interchange op order => simp [ofArguments?, label, arguments, mapM_map_of_leftInverse hcount, Step.op]
  | vectorize op width => simpa [ofArguments?, label, arguments, readSingle?, Step.op] using hcount width

example : read? "tile(op0, [8, -, 4])" = some (.tile 0 [some 8, none, some 4]) := by decide

/-! ## Printed histories -/

/-- What becomes of a kernel under the steps that the texts spell. -/
def replay? (texts : List String) (k : Kernel) : Option (Except Fault Kernel) :=
  (texts.mapM read?).map fun steps => applyAll steps k

theorem replay?_map_render (history : List Step) (k : Kernel) :
    replay? (history.map render) k = some (applyAll history k) := by
  unfold replay?
  rw [mapM_map_of_leftInverse read?_render]
  rfl

theorem render_injective : Function.Injective render := by
  intro s t h
  have hread := congrArg read? h
  rwa [read?_render, read?_render, Option.some.injEq] at hread

/-! ## Lines of steps -/

theorem feed_not_mem_listText {items : List String} (h : ∀ w ∈ items, IsToken w) :
    '\n' ∉ (listText items).toList := by
  intro hmem
  simp only [listText, String.toList_append, List.mem_append] at hmem
  rcases hmem with (hmem | hmem) | hmem
  · exact absurd hmem (by decide)
  · rcases mem_intercalate hmem with hcomma | ⟨w, hw, hfeed⟩
    · exact absurd hcomma (by decide)
    · exact (h w hw).feed_not_mem hfeed
  · exact absurd hmem (by decide)

theorem feed_not_mem_argumentText (step : Step) : '\n' ∉ step.argumentText.toList := by
  have harguments := step.isToken_of_mem_arguments
  cases step with
  | tile op sizes => exact feed_not_mem_listText harguments
  | parallelize op loops => exact (isToken_toString loops).feed_not_mem
  | interchange op order => exact feed_not_mem_listText harguments
  | vectorize op width => exact (isToken_toString width).feed_not_mem

theorem feed_not_mem_render (step : Step) : '\n' ∉ step.render.toList := by
  have hlabel := step.isToken_label.feed_not_mem
  have hop := (isToken_toString step.op).feed_not_mem
  have hargument := step.feed_not_mem_argumentText
  rw [render_eq]
  simp only [String.toList_append, List.mem_append, not_or]
  exact ⟨⟨⟨⟨⟨hlabel, by decide⟩, hop⟩, by decide⟩, hargument⟩, by decide⟩

theorem getLast?_render (step : Step) : step.render.toList.getLast? = some ')' := by
  rw [render_eq, String.toList_append]
  exact List.getLast?_concat

end Step

/-! ## The report -/

namespace Cli

/-- A step with its number before it. -/
def numbered (i : Nat) (step : Step) : String := toString (i + 1) ++ ". " ++ step.render

theorem numbered_injective (i : Nat) : Function.Injective (numbered i) := by
  intro s t h
  exact Step.render_injective ((String.append_right_inj _).mp h)

theorem feed_not_mem_numbered (i : Nat) (step : Step) : '\n' ∉ (numbered i step).toList := by
  have hnumber := (Step.isToken_toString (i + 1)).feed_not_mem
  simp only [numbered, String.toList_append, List.mem_append, not_or]
  exact ⟨⟨hnumber, by decide⟩, step.feed_not_mem_render⟩

theorem getLast?_numbered (i : Nat) (step : Step) : (numbered i step).toList.getLast? = some ')' := by
  rw [numbered, String.toList_append, List.getLast?_append, Step.getLast?_render]
  rfl

theorem lines_join {texts : List String} (hfeed : ∀ t ∈ texts, '\n' ∉ t.toList)
    (hreturn : ∀ t ∈ texts, t.toList.getLast? ≠ some '\r') :
    lines (String.join (texts.map (· ++ "\n"))).toList = texts.map String.toList := by
  induction texts with
  | nil => rfl
  | cons t texts ih =>
    obtain ⟨ht, htexts⟩ := List.forall_mem_cons.mp hfeed
    obtain ⟨hr, hreturns⟩ := List.forall_mem_cons.mp hreturn
    have htext : (String.join ((t :: texts).map (· ++ "\n"))).toList =
        t.toList ++ '\n' :: (String.join (texts.map (· ++ "\n"))).toList := by
      simp [String.join_cons]
    rw [htext, lines_append_feed ht, dropReturn_of_getLast? hr, ih htexts hreturns, List.map_cons]

/-- The report of a history shows one step on each line. -/
theorem lines_stepLines {steps : List Step} (h : steps ≠ []) :
    lines (stepLines steps).toList = (steps.mapIdx numbered).map String.toList := by
  have htexts : stepLines steps = String.join ((steps.mapIdx numbered).map (· ++ "\n")) := by
    unfold stepLines
    rw [if_neg (by simpa using h), List.mapIdx_eq_zipIdx_map, List.mapIdx_eq_zipIdx_map, List.map_map]
    rfl
  have hmem : ∀ t ∈ steps.mapIdx numbered, ∃ i step, t = numbered i step := by
    intro t ht
    obtain ⟨i, _, rfl⟩ := List.mem_mapIdx.mp ht
    exact ⟨i, _, rfl⟩
  rw [htexts]
  refine lines_join (fun t ht => ?_) fun t ht => ?_
  · obtain ⟨i, step, rfl⟩ := hmem t ht
    exact feed_not_mem_numbered i step
  · obtain ⟨i, step, rfl⟩ := hmem t ht
    simp [getLast?_numbered]

/-- A report of steps begins with a number, and the report of none does not. -/
theorem head?_stepLines (steps : List Step) :
    (stepLines steps).toList.head? = some (if steps = [] then 'n' else '1') := by
  cases steps with
  | nil => rfl
  | cons step steps =>
    have hone : Nat.toDigits 10 1 = ['1'] := rfl
    simp [stepLines, List.mapIdx_cons, String.join_cons, hone]

theorem stepLines_injective : Function.Injective stepLines := by
  intro steps steps' h
  have hhead : some (if steps = [] then 'n' else '1') = some (if steps' = [] then 'n' else '1') := by
    rw [← head?_stepLines, ← head?_stepLines, h]
  by_cases hsteps : steps = []
  · by_cases hsteps' : steps' = []
    · rw [hsteps, hsteps']
    · simp [hsteps, hsteps'] at hhead
  · by_cases hsteps' : steps' = []
    · simp [hsteps, hsteps'] at hhead
    · have hlines : (steps.mapIdx numbered).map String.toList = (steps'.mapIdx numbered).map String.toList := by
        rw [← lines_stepLines hsteps, ← lines_stepLines hsteps', h]
      have hnumbered : steps.mapIdx numbered = steps'.mapIdx numbered :=
        List.map_injective_iff.mpr (fun _ _ => String.toList_injective) hlines
      refine List.ext_getElem? fun i => Option.map_injective (numbered_injective i) ?_
      rw [← List.getElem?_mapIdx, ← List.getElem?_mapIdx, hnumbered]

end Cli

/-- The text of a step tells the step, whatever its operation, numbers and sizes are. So the texts of a history
tell the history, the lines of a report do so too, and what a history makes of a kernel can be found from the
texts alone. -/
theorem Step.render_unambiguous :
    Function.Injective Step.render ∧ Function.Injective (List.map Step.render) ∧
      Function.Injective Cli.stepLines ∧
      ∀ (history : List Step) (k : Kernel),
        Step.replay? (history.map Step.render) k = some (Step.applyAll history k) :=
  ⟨Step.render_injective, List.map_injective_iff.mpr Step.render_injective, Cli.stepLines_injective,
    Step.replay?_map_render⟩

end LoopTuner
