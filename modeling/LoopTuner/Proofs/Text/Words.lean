import LoopTuner.Proofs.Text.Cuts

/-!
# Lines of words

A line of words with one space between them, indented or not, is cut into those words again
(`lineWords_line`). A word is any nonempty text without blanks (`IsWord`); numerals are words, and words
written one behind the other are.
-/

namespace LoopTuner.Text

/-- A text that is one word. -/
def IsWord (w : String) : Prop := w.toList ≠ [] ∧ ∀ c ∈ w.toList, isBlank c = false

instance (w : String) : Decidable (IsWord w) :=
  @instDecidableAnd _ _ inferInstance (List.decidableBAll _ _)

/-- The words of each line of a text. -/
def lineWords (text : String) : List (List String) :=
  (lines text.toList).map fun line => (words line).map String.ofList

/-! ## Words -/

theorem IsWord.append {v w : String} (hv : IsWord v) (hw : IsWord w) : IsWord (v ++ w) := by
  unfold IsWord
  rw [String.toList_append]
  exact ⟨List.append_ne_nil_of_left_ne_nil hv.1 _, List.forall_mem_append.mpr ⟨hv.2, hw.2⟩⟩

theorem isWord_ofList {w : List Char} (hne : w ≠ []) (hw : ∀ c ∈ w, isBlank c = false) :
    IsWord (String.ofList w) := by
  unfold IsWord
  rw [String.toList_ofList]
  exact ⟨hne, hw⟩

theorem not_isBlank_of_isDigit {c : Char} (h : c.isDigit = true) : isBlank c = false := by
  have hrange : 48 ≤ c.toNat ∧ c.toNat ≤ 57 := by
    simpa [Char.isDigit, UInt32.le_iff_toNat_le] using h
  simp only [isBlank, Bool.or_eq_false_iff, Bool.and_eq_false_iff, decide_eq_false_iff_not,
    beq_eq_false_iff_ne]
  omega

theorem isWord_toString (n : Nat) : IsWord (toString n) := by
  rw [Nat.toString_eq_ofList_toDigits]
  refine isWord_ofList Nat.toDigits_ne_nil fun c hc => not_isBlank_of_isDigit ?_
  exact Nat.isDigit_of_mem_toDigits (by omega) (by omega) hc

theorem isWord_of_mem_words {s w : List Char} (h : w ∈ words s) : IsWord (String.ofList w) := by
  generalize hwords : words s = ws at h
  have hs := words_eq_iff.mp hwords
  clear hwords
  induction hs with
  | nil => cases h
  | cons _ hne hword _ _ ih =>
    rcases List.mem_cons.mp h with rfl | h
    · exact isWord_ofList hne hword
    · exact ih h

/-! ## Lines -/

/-- The carriage return of a line break is blank. -/
theorem words_dropReturn (line : List Char) : words (dropReturn line) = words line := by
  rw [← words_trim, trim_dropReturn, words_trim]

theorem toList_intercalate_cons_cons (v w : String) (ws : List String) :
    (" ".intercalate (v :: w :: ws)).toList = v.toList ++ ' ' :: (" ".intercalate (w :: ws)).toList := by
  rw [String.intercalate_cons_cons, String.toList_append, String.toList_append, List.append_assoc]
  rfl

theorem words_intercalate {ws : List String} (h : ∀ w ∈ ws, IsWord w) :
    words (" ".intercalate ws).toList = ws.map String.toList := by
  induction ws with
  | nil => rfl
  | cons w ws ih =>
    obtain ⟨⟨hne, hword⟩, hws⟩ := List.forall_mem_cons.mp h
    cases ws with
    | nil =>
      have hall : words (w.toList ++ []) = w.toList :: words [] := words_append hne hword (by simp)
      rw [List.append_nil] at hall
      rw [String.intercalate_singleton, hall]
      rfl
    | cons w' ws =>
      have hspace : ∀ c ∈ [' '], isBlank c = true := List.forall_mem_singleton.mpr (by decide)
      have hrest := words_of_blank hspace (" ".intercalate (w' :: ws)).toList
      rw [List.singleton_append] at hrest
      rw [toList_intercalate_cons_cons, words_append hne hword (by simp [isBlank]), hrest, ih hws]
      rfl

/-- A joined text is made of its parts and the separators. -/
theorem mem_intercalate {separator : String} {ws : List String} {c : Char}
    (h : c ∈ (separator.intercalate ws).toList) : c ∈ separator.toList ∨ ∃ w ∈ ws, c ∈ w.toList := by
  induction ws with
  | nil => simp at h
  | cons w ws ih =>
    cases ws with
    | nil =>
      rw [String.intercalate_singleton] at h
      exact Or.inr ⟨w, List.mem_cons_self, h⟩
    | cons v ws =>
      rw [String.intercalate_cons_cons, String.toList_append, String.toList_append, List.mem_append,
        List.mem_append] at h
      rcases h with (h | h) | h
      · exact Or.inr ⟨w, List.mem_cons_self, h⟩
      · exact Or.inl h
      · rcases ih h with h | ⟨u, hu, h⟩
        · exact Or.inl h
        · exact Or.inr ⟨u, List.mem_cons_of_mem _ hu, h⟩

theorem not_mem_intercalate {ws : List String} (h : ∀ w ∈ ws, IsWord w) :
    '\n' ∉ (" ".intercalate ws).toList := by
  intro hmem
  rcases mem_intercalate hmem with hspace | ⟨w, hw, hfeed⟩
  · exact absurd hspace (by decide)
  · cases (h w hw).2 _ hfeed

/-- A line of words, indented by some spaces. -/
theorem lineWords_line {ws : List String} (h : ∀ w ∈ ws, IsWord w) (indent : Nat) (rest : String) :
    lineWords (String.ofList (List.replicate indent ' ') ++ " ".intercalate ws ++ "\n" ++ rest) =
      ws :: lineWords rest := by
  have hgap : ∀ c ∈ List.replicate indent ' ', isBlank c = true := by
    intro c hc
    rw [List.eq_of_mem_replicate hc]
    decide
  have hfeed : '\n' ∉ List.replicate indent ' ' ++ (" ".intercalate ws).toList := by
    rw [List.mem_append, not_or]
    refine ⟨fun hmem => ?_, not_mem_intercalate h⟩
    cases List.eq_of_mem_replicate hmem
  have htext : (String.ofList (List.replicate indent ' ') ++ " ".intercalate ws ++ "\n" ++ rest).toList =
      (List.replicate indent ' ' ++ (" ".intercalate ws).toList) ++ '\n' :: rest.toList := by
    simp [String.toList_append]
  unfold lineWords
  rw [htext, lines_append_feed hfeed, List.map_cons, words_dropReturn, words_of_blank hgap,
    words_intercalate h, List.map_map]
  congr 1
  exact List.map_id'' (fun w => String.ofList_toList) ws

end LoopTuner.Text
