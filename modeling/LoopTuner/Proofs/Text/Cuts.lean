import LoopTuner.Text.Blank
import Mathlib.Data.List.Basic
import Mathlib.Data.List.TakeWhile
import Mathlib.Tactic.SplitIfs

/-!
# Lines and words

What the cuts of a text are, said without the functions that make them: a text is made of its lines
(`IsLines`), a line of its words and the blanks between them (`IsWords`), and the part before a separator
ends where the separator first occurs (`IsBefore`). Each function finds the one way to cut a text
(`lines_eq_iff`, `words_eq_iff`, `before_eq_iff`, `cutOnce_eq_some_iff`).
-/

namespace LoopTuner.Text

/-- A text is made of these lines. Each ends with a line feed or with a carriage return and a line feed;
the last one may go without. -/
inductive IsLines : List Char → List (List Char) → Prop
  | nil : IsLines [] []
  | last {line : List Char} (h : '\n' ∉ line) (hne : line ≠ []) : IsLines line [line]
  | feed {line rest : List Char} {ls : List (List Char)} (h : '\n' ∉ line)
      (hreturn : line.getLast? ≠ some '\r') (hrest : IsLines rest ls) :
      IsLines (line ++ '\n' :: rest) (line :: ls)
  | returnFeed {line rest : List Char} {ls : List (List Char)} (h : '\n' ∉ line)
      (hrest : IsLines rest ls) : IsLines (line ++ '\r' :: '\n' :: rest) (line :: ls)

/-- A text holds these words, each without blanks, with blanks between them and perhaps around them. -/
inductive IsWords : List Char → List (List Char) → Prop
  | nil {gap : List Char} (hgap : ∀ c ∈ gap, isBlank c = true) : IsWords gap []
  | cons {gap word rest : List Char} {ws : List (List Char)} (hgap : ∀ c ∈ gap, isBlank c = true)
      (hne : word ≠ []) (hword : ∀ c ∈ word, isBlank c = false)
      (hhead : ∀ c ∈ rest.head?, isBlank c = true) (hrest : IsWords rest ws) :
      IsWords (gap ++ word ++ rest) (word :: ws)

/-- A text begins with this part, which ends at the first separator or with the text. -/
def IsBefore (separator : Char) (s part : List Char) : Prop :=
  separator ∉ part ∧ (s = part ∨ ∃ rest, s = part ++ separator :: rest)

/-! ## Pieces -/

theorem pieces_ne_nil (p : Char → Bool) (s : List Char) : pieces p s ≠ [] := by
  cases s with
  | nil => exact List.cons_ne_nil [] []
  | cons c s =>
    show (if p c then [] :: pieces p s else _) ≠ []
    split_ifs
    · exact List.cons_ne_nil _ _
    · split
      · exact List.cons_ne_nil _ _
      · exact List.cons_ne_nil _ _

theorem pieces_separator {p : Char → Bool} {c : Char} (h : p c = true) (s : List Char) :
    pieces p (c :: s) = [] :: pieces p s :=
  if_pos h

/-- Characters that do not separate belong to the first piece. -/
theorem pieces_append {p : Char → Bool} {part s first : List Char} {others : List (List Char)}
    (h : ∀ c ∈ part, p c = false) (hs : pieces p s = first :: others) :
    pieces p (part ++ s) = (part ++ first) :: others := by
  induction part with
  | nil => exact hs
  | cons c part ih =>
    obtain ⟨hc, hpart⟩ := List.forall_mem_cons.mp h
    have hpieces := ih hpart
    unfold pieces at hpieces ⊢
    rw [List.cons_append, List.foldr_cons, hpieces, hc]
    rfl

theorem pieces_of_forall {p : Char → Bool} {part : List Char} (h : ∀ c ∈ part, p c = false) :
    pieces p part = [part] := by
  have hpieces : pieces p (part ++ []) = [part ++ []] := pieces_append h rfl
  rwa [List.append_nil] at hpieces

theorem pieces_append_separator {p : Char → Bool} {part : List Char} (h : ∀ c ∈ part, p c = false)
    {c : Char} (hc : p c = true) (rest : List Char) :
    pieces p (part ++ c :: rest) = part :: pieces p rest := by
  rw [pieces_append h (pieces_separator hc rest), List.append_nil]

/-! ## Lines -/

theorem forall_not_feed {line : List Char} (h : '\n' ∉ line) : ∀ c ∈ line, (c == '\n') = false := by
  intro c hc
  rw [beq_eq_false_iff_ne]
  rintro rfl
  exact h hc

theorem lines_of_not_mem {line : List Char} (h : '\n' ∉ line) (hne : line ≠ []) :
    lines line = [line] := by
  unfold lines
  rw [pieces_of_forall (forall_not_feed h)]
  simp [hne]

/-- The first line feed ends the first line. -/
theorem lines_append_feed {line : List Char} (h : '\n' ∉ line) (rest : List Char) :
    lines (line ++ '\n' :: rest) = dropReturn line :: lines rest := by
  unfold lines
  rw [pieces_append_separator (forall_not_feed h) (beq_self_eq_true _)]
  obtain ⟨first, others, hrest⟩ := List.exists_cons_of_ne_nil (pieces_ne_nil (· == '\n') rest)
  simp [hrest]

theorem dropReturn_concat (line : List Char) : dropReturn (line ++ ['\r']) = line := by
  unfold dropReturn
  simp

theorem dropReturn_of_getLast? {line : List Char} (h : line.getLast? ≠ some '\r') :
    dropReturn line = line := by
  unfold dropReturn
  split
  · rename_i front hfront
    rw [List.getLast?_eq_head?_reverse, hfront] at h
    exact absurd rfl h
  · rfl

/-- A line loses at most a carriage return. -/
theorem dropReturn_eq_or (line : List Char) :
    dropReturn line = line ∨ dropReturn line ++ ['\r'] = line := by
  by_cases hreturn : line.getLast? = some '\r'
  · obtain ⟨front, rfl⟩ := List.getLast?_eq_some_iff.mp hreturn
    rw [dropReturn_concat]
    exact Or.inr rfl
  · exact Or.inl (dropReturn_of_getLast? hreturn)

theorem isLines_lines (s : List Char) : IsLines s (lines s) := by
  induction hn : s.length using Nat.strongRecOn generalizing s with
  | ind n ih =>
    by_cases hfeed : '\n' ∈ s
    · obtain ⟨line, rest, rfl, hline⟩ := List.eq_append_cons_of_mem hfeed
      have hrest : IsLines rest (lines rest) := by
        refine ih rest.length ?_ rest rfl
        rw [← hn, List.length_append, List.length_cons]
        omega
      rw [lines_append_feed hline]
      by_cases hreturn : line.getLast? = some '\r'
      · obtain ⟨front, rfl⟩ := List.getLast?_eq_some_iff.mp hreturn
        rw [dropReturn_concat, List.append_assoc]
        exact .returnFeed (fun hmem => hline (List.mem_append_left _ hmem)) hrest
      · rw [dropReturn_of_getLast? hreturn]
        exact .feed hline hreturn hrest
    · by_cases hnil : s = []
      · subst hnil
        exact .nil
      · rw [lines_of_not_mem hfeed hnil]
        exact .last hfeed hnil

theorem lines_eq_iff {s : List Char} {ls : List (List Char)} : lines s = ls ↔ IsLines s ls := by
  constructor
  · rintro rfl
    exact isLines_lines s
  · intro h
    induction h with
    | nil => rfl
    | last h hne => exact lines_of_not_mem h hne
    | feed h hreturn _ ih => rw [lines_append_feed h, dropReturn_of_getLast? hreturn, ih]
    | @returnFeed line rest ls h _ ih =>
      have hline : '\n' ∉ line ++ ['\r'] := by
        simp [h]
      rw [show line ++ '\r' :: '\n' :: rest = (line ++ ['\r']) ++ '\n' :: rest from
        List.append_cons line '\r' ('\n' :: rest), lines_append_feed hline, dropReturn_concat, ih]

theorem IsLines.mem_of_mem {s : List Char} {ls : List (List Char)} (h : IsLines s ls) {line : List Char}
    (hline : line ∈ ls) {c : Char} (hc : c ∈ line) : c ∈ s := by
  induction h with
  | nil => cases hline
  | last =>
    obtain rfl := List.mem_singleton.mp hline
    exact hc
  | feed _ _ _ ih =>
    rcases List.mem_cons.mp hline with rfl | hline
    · exact List.mem_append_left _ hc
    · exact List.mem_append_right _ (List.mem_cons_of_mem _ (ih hline))
  | returnFeed _ _ ih =>
    rcases List.mem_cons.mp hline with rfl | hline
    · exact List.mem_append_left _ hc
    · exact List.mem_append_right _ (List.mem_cons_of_mem _ (List.mem_cons_of_mem _ (ih hline)))

/-- The lines hold no other characters than their text. -/
theorem mem_of_mem_lines {s line : List Char} (h : line ∈ lines s) {c : Char} (hc : c ∈ line) : c ∈ s :=
  (isLines_lines s).mem_of_mem h hc

/-- What ends with a line feed is cut on its own. -/
theorem lines_append {front : List Char} (h : ∀ c ∈ front.getLast?, c = '\n') (rest : List Char) :
    lines (front ++ rest) = lines front ++ lines rest := by
  have hlines := isLines_lines front
  generalize lines front = ls at hlines
  induction hlines with
  | nil => rfl
  | @last line hfeed hne =>
    obtain ⟨c, hc⟩ := Option.isSome_iff_exists.mp (List.getLast?_isSome.mpr hne)
    obtain rfl := h c hc
    exact absurd (List.mem_of_getLast? hc) hfeed
  | @feed line tail ls hfeed hreturn _ ih =>
    have htail : ∀ c ∈ tail.getLast?, c = '\n' := fun c hc => h c (by simp_all [List.getLast?_cons])
    rw [List.append_assoc, List.cons_append, lines_append_feed hfeed, dropReturn_of_getLast? hreturn, ih htail,
      List.cons_append]
  | @returnFeed line tail ls hfeed _ ih =>
    have htail : ∀ c ∈ tail.getLast?, c = '\n' := fun c hc => h c (by simp_all [List.getLast?_cons])
    have hline : '\n' ∉ line ++ ['\r'] := by simp [hfeed]
    rw [List.append_cons line, List.append_assoc, List.cons_append, lines_append_feed hline, dropReturn_concat,
      ih htail, List.cons_append]

theorem IsLines.exists_take {s : List Char} {ls : List (List Char)} (h : IsLines s ls) (count : Nat) :
    ∃ front back, s = front ++ back ∧ IsLines front (ls.take count) := by
  induction h generalizing count with
  | nil =>
    rw [List.take_nil]
    exact ⟨[], [], rfl, .nil⟩
  | @last line hfeed hne =>
    cases count with
    | zero => exact ⟨[], line, rfl, .nil⟩
    | succ count => exact ⟨line, [], by simp, by simpa using .last hfeed hne⟩
  | @feed line rest ls hfeed hreturn _ ih =>
    cases count with
    | zero => exact ⟨[], _, rfl, .nil⟩
    | succ count =>
      obtain ⟨front, back, rfl, hfront⟩ := ih count
      exact ⟨line ++ '\n' :: front, back, by simp, .feed hfeed hreturn hfront⟩
  | @returnFeed line rest ls hfeed _ ih =>
    cases count with
    | zero => exact ⟨[], _, rfl, .nil⟩
    | succ count =>
      obtain ⟨front, back, rfl, hfront⟩ := ih count
      exact ⟨line ++ '\r' :: '\n' :: front, back, by simp, .returnFeed hfeed hfront⟩

/-- Any number of lines is cut off by a beginning of the text. -/
theorem exists_lines_take (s : List Char) (count : Nat) :
    ∃ front back, s = front ++ back ∧ lines front = (lines s).take count := by
  obtain ⟨front, back, hs, hfront⟩ := (isLines_lines s).exists_take count
  exact ⟨front, back, hs, lines_eq_iff.mpr hfront⟩

/-! ## Words -/

theorem words_of_blank {gap : List Char} (h : ∀ c ∈ gap, isBlank c = true) (s : List Char) :
    words (gap ++ s) = words s := by
  induction gap with
  | nil => rfl
  | cons c gap ih =>
    obtain ⟨hc, hgap⟩ := List.forall_mem_cons.mp h
    rw [← ih hgap]
    unfold words
    rw [List.cons_append, pieces_separator hc]
    rfl

/-- A run without blanks is a word if a blank or nothing follows. -/
theorem words_append {word rest : List Char} (hne : word ≠ []) (hword : ∀ c ∈ word, isBlank c = false)
    (hhead : ∀ c ∈ rest.head?, isBlank c = true) : words (word ++ rest) = word :: words rest := by
  unfold words
  cases rest with
  | nil =>
    rw [List.append_nil, pieces_of_forall hword]
    simp [pieces, hne]
  | cons c rest =>
    have hc : isBlank c = true := hhead c rfl
    rw [pieces_append_separator hword hc, pieces_separator hc]
    simp [hne]

theorem isWords_words (s : List Char) : IsWords s (words s) := by
  induction hn : s.length using Nat.strongRecOn generalizing s with
  | ind n ih =>
    have hgap : ∀ c ∈ s.takeWhile isBlank, isBlank c = true := fun _ => List.mem_takeWhile_imp
    have hs := List.takeWhile_append_dropWhile (p := isBlank) (l := s)
    cases hbody : s.dropWhile isBlank with
    | nil =>
      rw [hbody, List.append_nil] at hs
      rw [hs] at hgap
      have hwords := words_of_blank hgap []
      rw [List.append_nil] at hwords
      rw [hwords]
      exact .nil hgap
    | cons c body =>
      -- the first word goes up to the next blank, the rest is shorter than the text
      have hc : isBlank c = false := by
        have := List.head?_dropWhile_not isBlank s
        rwa [hbody] at this
      let word := (c :: body).takeWhile (!isBlank ·)
      let rest := (c :: body).dropWhile (!isBlank ·)
      have hbodyEq : word ++ rest = c :: body := List.takeWhile_append_dropWhile
      have hne : word ≠ [] := by
        simp [word, hc]
      have hword : ∀ d ∈ word, isBlank d = false := by
        intro d hd
        simpa using List.mem_takeWhile_imp hd
      have hhead : ∀ d ∈ rest.head?, isBlank d = true := by
        intro d hd
        have := List.head?_dropWhile_not (!isBlank ·) (c :: body)
        rw [show ((c :: body).dropWhile (!isBlank ·)).head? = some d from hd] at this
        simpa using this
      have hrest : IsWords rest (words rest) := by
        refine ih rest.length ?_ rest rfl
        have hlength := congrArg List.length hbodyEq
        have hpos := List.length_pos_iff.mpr hne
        rw [← hn, ← hs, hbody, List.length_append]
        rw [List.length_append] at hlength
        omega
      rw [← hs, hbody, ← hbodyEq, words_of_blank hgap, words_append hne hword hhead, ← List.append_assoc]
      exact .cons hgap hne hword hhead hrest

theorem words_eq_iff {s : List Char} {ws : List (List Char)} : words s = ws ↔ IsWords s ws := by
  constructor
  · rintro rfl
    exact isWords_words s
  · intro h
    induction h with
    | @nil gap hgap =>
      have hwords := words_of_blank hgap []
      rwa [List.append_nil] at hwords
    | cons hgap hne hword hhead _ ih =>
      rw [List.append_assoc, words_of_blank hgap, words_append hne hword hhead, ih]

/-! ## Trimming -/

/-- Blanks behind a text hold no words. -/
theorem IsWords.append_blank {s gap : List Char} {ws : List (List Char)} (h : IsWords s ws)
    (hgap : ∀ c ∈ gap, isBlank c = true) : IsWords (s ++ gap) ws := by
  induction h with
  | nil hs => exact .nil (List.forall_mem_append.mpr ⟨hs, hgap⟩)
  | @cons front word rest ws hfront hne hword hhead _ ih =>
    rw [List.append_assoc]
    refine .cons hfront hne hword (fun c hc => ?_) ih
    cases rest with
    | nil => exact hgap c (List.mem_of_mem_head? hc)
    | cons d rest => exact hhead c hc

theorem words_trim (s : List Char) : words (trim s) = words s := by
  have hstart : words (trimStart s) = words s := by
    conv_rhs => rw [← List.takeWhile_append_dropWhile (p := isBlank) (l := s)]
    rw [words_of_blank (fun _ => List.mem_takeWhile_imp)]
    rfl
  have hend : trimEnd (trimStart s) ++ ((trimStart s).reverse.takeWhile isBlank).reverse =
      trimStart s := by
    unfold trimEnd
    rw [← List.reverse_append, List.takeWhile_append_dropWhile, List.reverse_reverse]
  have hblank : ∀ c ∈ ((trimStart s).reverse.takeWhile isBlank).reverse, isBlank c = true := by
    intro c hc
    exact List.mem_takeWhile_imp (List.mem_reverse.mp hc)
  rw [← hstart, ← hend]
  exact (words_eq_iff.mpr ((isWords_words _).append_blank hblank)).symm

theorem words_eq_nil_iff {s : List Char} : words s = [] ↔ ∀ c ∈ s, isBlank c = true := by
  rw [words_eq_iff]
  constructor
  · intro h
    cases h with
    | nil hblank => exact hblank
  · exact .nil

/-- Trimming leaves nothing of a text without words. -/
theorem trim_eq_nil_iff {s : List Char} : trim s = [] ↔ words s = [] := by
  rw [← words_trim]
  constructor
  · intro h
    rw [h]
    rfl
  · intro h
    rw [words_trim, words_eq_nil_iff] at h
    unfold trim trimStart
    rw [List.dropWhile_eq_nil_iff.mpr h]
    rfl

/-- Blanks behind a text are trimmed away. -/
theorem trim_append_blank {gap : List Char} (h : ∀ c ∈ gap, isBlank c = true) (s : List Char) :
    trim (s ++ gap) = trim s := by
  have hend : ∀ r : List Char, trimEnd (r ++ gap) = trimEnd r := by
    intro r
    unfold trimEnd
    rw [List.reverse_append, List.dropWhile_append_of_pos]
    simpa using h
  unfold trim trimStart
  rw [List.dropWhile_append]
  split_ifs with hs
  · rw [List.dropWhile_eq_nil_iff.mpr h, List.isEmpty_iff.mp hs]
  · exact hend _

/-- The carriage return of a line break is trimmed away. -/
theorem trim_dropReturn (line : List Char) : trim (dropReturn line) = trim line := by
  rcases dropReturn_eq_or line with hline | hline
  · rw [hline]
  · have hblank : ∀ c ∈ ['\r'], isBlank c = true := List.forall_mem_singleton.mpr (by decide)
    rw [← trim_append_blank hblank (dropReturn line), hline]

/-! ## The first separator -/

theorem takeWhile_append_separator {α : Type} [BEq α] [LawfulBEq α] {separator : α} {part : List α}
    (h : separator ∉ part) (rest : List α) :
    (part ++ separator :: rest).takeWhile (· != separator) = part ∧
      (part ++ separator :: rest).dropWhile (· != separator) = separator :: rest := by
  have hpart : ∀ c ∈ part, (c != separator) = true := by
    intro c hc
    rw [bne_iff_ne]
    rintro rfl
    exact h hc
  rw [List.takeWhile_append_of_pos hpart, List.dropWhile_append_of_pos hpart]
  simp

theorem before_eq_iff {separator : Char} {s part : List Char} :
    before separator s = part ↔ IsBefore separator s part := by
  have hnot : separator ∉ before separator s := by
    intro hmem
    have := List.mem_takeWhile_imp hmem
    simp at this
  constructor
  · rintro rfl
    refine ⟨hnot, ?_⟩
    have hs := List.takeWhile_append_dropWhile (p := (· != separator)) (l := s)
    cases hrest : s.dropWhile (· != separator) with
    | nil =>
      rw [hrest, List.append_nil] at hs
      exact Or.inl hs.symm
    | cons c rest =>
      have hc := List.head?_dropWhile_not (· != separator) s
      rw [hrest] at hc hs
      obtain rfl : c = separator := by simpa using hc
      exact Or.inr ⟨rest, hs.symm⟩
  · rintro ⟨hpart, rfl | ⟨rest, rfl⟩⟩
    · refine List.takeWhile_eq_self_iff.mpr fun c hc => ?_
      rw [bne_iff_ne]
      rintro rfl
      exact hpart hc
    · exact (takeWhile_append_separator hpart rest).1

theorem cutOnce_eq_some_iff {separator : Char} {s front back : List Char} :
    cutOnce separator s = some (front, back) ↔
      separator ∉ front ∧ s = front ++ separator :: back := by
  constructor
  · intro h
    unfold cutOnce at h
    split at h
    · cases h
    · rename_i c rest hrest
      cases h
      obtain ⟨hnot, -⟩ := before_eq_iff.mp (rfl : before separator s = before separator s)
      have hs := List.takeWhile_append_dropWhile (p := (· != separator)) (l := s)
      have hc := List.head?_dropWhile_not (· != separator) s
      rw [hrest] at hc hs
      obtain rfl : c = separator := by simpa using hc
      exact ⟨hnot, hs.symm⟩
  · rintro ⟨hfront, rfl⟩
    obtain ⟨htake, hdrop⟩ := takeWhile_append_separator hfront back
    unfold cutOnce before
    rw [htake, hdrop]

end LoopTuner.Text
