import LoopTuner.Proofs.Kernel.Grammar

/-!
# The first line at fault

What a line contributes to a kernel depends on its code and on the operations before it (`readLine`). So an error
is that of the first line at fault, and what follows it does not matter (`exists_of_readLines_eq_error`); and lines
without code, blanks at the end of a line and comments change at most the number that an error names
(`Relaid.readLines`).
-/

namespace LoopTuner

/-- A wider context stands before the message. -/
theorem Error.message_within (context : Context) (e : Error) :
    (e.within context).message = context.message ++ ": " ++ e.message := by
  have hchain : e.chain ≠ [] := by simp [chain]
  exact String.intercalate_cons_of_ne_nil hchain

theorem Cause.message_reported (text : String) : (reported text).message = text := rfl

theorem Error.message_ofCause (cause : Cause) : (ofCause cause).message = cause.message :=
  String.intercalate_singleton

namespace Kernel

open Text

/-! ## Errors and the lines they name -/

namespace ReadError

/-- The line that an error names. -/
def number? : ReadError → Option Nat
  | .line number _ => some number
  | .repeatedOperation number _ => some number
  | .noOperations => none

/-- The error, had it arisen in another line. -/
def renumber (number : Nat) : ReadError → ReadError
  | .line _ fault => .line number fault
  | .repeatedOperation _ id => .repeatedOperation number id
  | .noOperations => .noOperations

/-- The message without the number of the line. -/
def reason : ReadError → String
  | .line _ fault => fault.toError.message
  | .repeatedOperation _ id => "operation `" ++ id ++ "` is declared twice"
  | .noOperations => "kernel has no operations"

@[simp] theorem reason_renumber (e : ReadError) (number : Nat) : (e.renumber number).reason = e.reason := by
  cases e <;> rfl

theorem eq_noOperations {e : ReadError} (h : e.number? = none) : e = .noOperations := by
  cases e with
  | noOperations => rfl
  | line number fault => cases h
  | repeatedOperation number id => cases h

/-- The message of an error that names a line begins with its number. -/
theorem message_of_number {e : ReadError} {n : Nat} (h : e.number? = some n) :
    e.toError.message = "line " ++ toString n ++ ": " ++ e.reason := by
  cases e with
  | noOperations => cases h
  | line number fault =>
    cases h
    rw [toError, Error.message_within]
    rfl
  | repeatedOperation number id =>
    cases h
    have hsplit : ": operation `" = ": " ++ "operation `" := by decide
    rw [toError, Error.message_ofCause, Cause.message_reported, reason, hsplit]
    simp only [String.append_assoc, -String.reduceAppend]

end ReadError

/-! ## Code -/

/-- A line without code: blanks, and perhaps a comment behind them. -/
def Idle (line : List Char) : Prop := ∃ gap, IsBefore '#' line gap ∧ ∀ c ∈ gap, isBlank c = true

theorem idle_iff {line : List Char} : Idle line ↔ code line = [] := by
  unfold code
  rw [trim_eq_nil_iff, words_eq_nil_iff]
  constructor
  · rintro ⟨gap, hgap, hblank⟩
    rw [before_eq_iff.mpr hgap]
    exact hblank
  · exact fun h => ⟨_, before_eq_iff.mp rfl, h⟩

/-- Blanks and a comment behind a line leave its code as it is. -/
theorem code_append_idle {extra : List Char} (h : Idle extra) (line : List Char) :
    code (line ++ extra) = code line := by
  unfold code
  by_cases hcomment : '#' ∈ line
  · obtain ⟨front, back, rfl, hfront⟩ := List.eq_append_cons_of_mem hcomment
    rw [List.append_assoc, List.cons_append, before_eq_iff.mpr ⟨hfront, Or.inr ⟨_, rfl⟩⟩,
      before_eq_iff.mpr ⟨hfront, Or.inr ⟨_, rfl⟩⟩]
  · obtain ⟨gap, ⟨hgap, hextra⟩, hblank⟩ := h
    have hnot : '#' ∉ line ++ gap := by simp [hcomment, hgap]
    have hbefore : before '#' (line ++ extra) = line ++ gap := by
      refine before_eq_iff.mpr ⟨hnot, ?_⟩
      rcases hextra with rfl | ⟨rest, rfl⟩
      · exact Or.inl rfl
      · exact Or.inr ⟨rest, by rw [List.append_assoc]⟩
    rw [hbefore, before_eq_iff.mpr ⟨hcomment, Or.inl rfl⟩, trim_append_blank hblank]

/-! ## One line -/

/-- What a line after the operations named in `earlier` contributes to a kernel. -/
def readLine (number : Nat) (earlier : List String) (line : List Char) : Except ReadError (Option Nest) :=
  if code line = [] then .ok none
  else match readNest (code line) with
    | .error fault => .error (.line number fault)
    | .ok nest => if nest.id ∈ earlier then .error (.repeatedOperation number nest.id) else .ok (some nest)

/-- The reading goes on behind a line that is not at fault. -/
theorem readLines_cons (number : Nat) (earlier : List String) (line : List Char) (rest : List (List Char)) :
    readLines number earlier (line :: rest) =
      match readLine number earlier line with
      | .error e => .error e
      | .ok found =>
        (readLines (number + 1) ((found.map Nest.id).toList ++ earlier) rest).map (found.toList ++ ·) := by
  unfold readLine
  rw [readLines]
  split_ifs with hcode
  · show _ = (readLines (number + 1) earlier rest).map (·)
    cases readLines (number + 1) earlier rest <;> rfl
  · cases readNest (code line) with
    | error fault => rfl
    | ok nest =>
      simp only
      split_ifs
      · rfl
      · show _ = (readLines (number + 1) (nest.id :: earlier) rest).map (nest :: ·)
        cases readLines (number + 1) (nest.id :: earlier) rest <;> rfl

theorem readLines_cons_idle {line : List Char} (h : Idle line) (number : Nat) (earlier : List String)
    (rest : List (List Char)) :
    readLines number earlier (line :: rest) = readLines (number + 1) earlier rest := by
  rw [readLines, if_pos (idle_iff.mp h)]

theorem number?_of_readLine {number : Nat} {earlier : List String} {line : List Char} {e : ReadError}
    (h : readLine number earlier line = .error e) : e.number? = some number := by
  unfold readLine at h
  split_ifs at h
  split at h
  · cases h
    rfl
  · split_ifs at h
    cases h
    rfl

/-- A line is read by its code, and its number matters only to the error. -/
theorem readLine_renumber {line line' : List Char} (h : code line' = code line) (m n : Nat)
    (earlier : List String) :
    readLine n earlier line' = (readLine m earlier line).mapError (·.renumber n) := by
  unfold readLine
  rw [h]
  split_ifs
  · rfl
  · cases readNest (code line) with
    | error fault => rfl
    | ok nest =>
      simp only
      split_ifs <;> rfl

/-! ## The first line at fault -/

/-- What begins like a list of lines begins with its first line. -/
theorem exists_of_take_eq {line : List Char} {ls ls' : List (List Char)} {i : Nat}
    (h : ls'.take (i + 1) = (line :: ls).take (i + 1)) :
    ∃ rest, ls' = line :: rest ∧ rest.take i = ls.take i := by
  cases ls' with
  | nil => cases h
  | cons line' rest =>
    rw [List.take_succ_cons, List.take_succ_cons, List.cons.injEq] at h
    exact ⟨rest, by rw [h.1], h.2⟩

theorem eq_error_of_map {α β : Type} {r : Except ReadError α} {f : α → β} {e : ReadError}
    (h : r.map f = .error e) : r = .error e := by
  cases r with
  | ok a => cases h
  | error e' =>
    cases h
    rfl

/-- An error is that of some line: the lines before it can be read, and whatever follows, it is the error. -/
theorem exists_of_readLines_eq_error {number : Nat} {earlier : List String} {ls : List (List Char)}
    {e : ReadError} (h : readLines number earlier ls = .error e) :
    ∃ i, i < ls.length ∧ e.number? = some (number + i) ∧
      (∃ nests, readLines number earlier (ls.take i) = .ok nests) ∧
      ∀ ls', ls'.take (i + 1) = ls.take (i + 1) → readLines number earlier ls' = .error e := by
  induction ls generalizing number earlier with
  | nil => cases h
  | cons line ls ih =>
    rw [readLines_cons] at h
    cases hline : readLine number earlier line with
    | error e' =>
      rw [hline] at h
      cases h
      refine ⟨0, Nat.zero_lt_succ _, number?_of_readLine hline, ⟨[], rfl⟩, fun ls' htake => ?_⟩
      obtain ⟨rest, rfl, -⟩ := exists_of_take_eq htake
      rw [readLines_cons, hline]
    | ok found =>
      rw [hline] at h
      -- the fault is further down, where the lines are read after one more operation or none
      obtain ⟨i, hi, hnumber, ⟨nests, hnests⟩, hlater⟩ := ih (eq_error_of_map h)
      refine ⟨i + 1, Nat.succ_lt_succ hi, ?_, ⟨found.toList ++ nests, ?_⟩, fun ls' htake => ?_⟩
      · rw [hnumber]
        congr 1
        omega
      · rw [List.take_succ_cons, readLines_cons, hline]
        simp only [hnests]
        rfl
      · obtain ⟨rest, rfl, hrest⟩ := exists_of_take_eq htake
        rw [readLines_cons, hline]
        simp only [hlater rest hrest]
        rfl

/-! ## Another layout -/

/-- The same lines in another layout: between them there may be more or fewer lines without code, and blanks and
comments may have been added to their ends. -/
inductive Relaid : List (List Char) → List (List Char) → Prop
  | nil : Relaid [] []
  | keep {line extra : List Char} {ls ls' : List (List Char)} (h : Idle extra) (rest : Relaid ls ls') :
      Relaid (line :: ls) ((line ++ extra) :: ls')
  | insert {line : List Char} {ls ls' : List (List Char)} (h : Idle line) (rest : Relaid ls ls') :
      Relaid ls (line :: ls')
  | delete {line : List Char} {ls ls' : List (List Char)} (h : Idle line) (rest : Relaid ls ls') :
      Relaid (line :: ls) ls'

theorem Relaid.readLines {ls ls' : List (List Char)} (h : Relaid ls ls') (m n : Nat) (earlier : List String) :
    ∃ number, Kernel.readLines n earlier ls' =
      (Kernel.readLines m earlier ls).mapError (·.renumber number) := by
  induction h generalizing m n earlier with
  | nil => exact ⟨0, rfl⟩
  | @keep line extra ls ls' hextra _ ih =>
    rw [readLines_cons, readLines_cons, readLine_renumber (code_append_idle hextra line) m n]
    cases readLine m earlier line with
    | error e => exact ⟨n, rfl⟩
    | ok found =>
      obtain ⟨number, hrest⟩ := ih (m + 1) (n + 1) ((found.map Nest.id).toList ++ earlier)
      refine ⟨number, ?_⟩
      simp only [Except.mapError, hrest]
      cases Kernel.readLines (m + 1) ((found.map Nest.id).toList ++ earlier) ls <;> rfl
  | insert hline _ ih =>
    rw [readLines_cons_idle hline]
    exact ih m (n + 1) earlier
  | delete hline _ ih =>
    rw [readLines_cons_idle hline]
    exact ih (m + 1) n earlier

/-! ## Texts -/

theorem readChars_of_error {text : List Char} {e : ReadError} (h : readLines 1 [] (lines text) = .error e) :
    readChars text = .error e := by
  unfold readChars
  rw [h]

/-- What follows once the lines are read is a kernel or, without operations, an error that names no line. -/
theorem readChars_of_ok {text : List Char} {nests : List Nest} (h : readLines 1 [] (lines text) = .ok nests) :
    readChars text = if nests = [] then .error .noOperations else .ok ⟨nests⟩ := by
  unfold readChars
  rw [h]
  cases nests <;> rfl

/-- A text without operations has no lines but idle ones. -/
theorem idle_of_readLines_eq_nil {number : Nat} {earlier : List String} {ls : List (List Char)}
    (h : readLines number earlier ls = .ok []) : ∀ line ∈ ls, Idle line := by
  obtain ⟨hnests, -⟩ := readLines_eq_ok_iff.mp h
  intro line hline
  by_contra hidle
  rw [idle_iff, ← words_code_eq_nil_iff] at hidle
  have hmem : words (code line) ∈ (ls.map fun line => words (code line)).filter (· ≠ []) := by
    simp only [List.mem_filter, List.mem_map]
    exact ⟨⟨line, hline, rfl⟩, by simpa using hidle⟩
  rw [List.forall₂_nil_right_iff.mp hnests] at hmem
  cases hmem

/-- The error of a text is that of its line `n`, the first one at fault. The lines before it make a kernel, or they
have no operations yet; and every text that begins with the same `n` lines has the same error. -/
structure FaultAt (text : String) (e : ReadError) (n : Nat) : Prop where
  message : e.toError.message = "line " ++ toString n ++ ": " ++ e.reason
  inside : 0 < n ∧ n ≤ (lines text.toList).length
  earlier : ∀ front : String, lines front.toList = (lines text.toList).take (n - 1) →
    (∃ k, read front = .ok k) ∨ read front = .error .noOperations
  settled : ∀ other : String, (lines other.toList).take n = (lines text.toList).take n →
    read other = .error e

theorem faultAt_of_read {text : String} {e : ReadError} {n : Nat} (h : read text = .error e)
    (hn : e.number? = some n) : FaultAt text e n := by
  unfold read at h
  have hlines : readLines 1 [] (lines text.toList) = .error e := by
    cases hls : readLines 1 [] (lines text.toList) with
    | error e' =>
      rw [readChars_of_error hls] at h
      cases h
      rfl
    | ok nests =>
      rw [readChars_of_ok hls] at h
      split_ifs at h
      cases h
      cases hn
  obtain ⟨i, hi, hnumber, ⟨nests, hnests⟩, hlater⟩ := exists_of_readLines_eq_error hlines
  obtain rfl : n = 1 + i := Option.some.inj (hn.symm.trans hnumber)
  refine ⟨ReadError.message_of_number hn, ⟨by omega, by omega⟩, fun front hfront => ?_, fun other hother => ?_⟩
  · rw [Nat.add_sub_cancel_left] at hfront
    rw [← hfront] at hnests
    unfold read
    rw [readChars_of_ok hnests]
    split_ifs
    · exact Or.inr rfl
    · exact Or.inl ⟨_, rfl⟩
  · rw [Nat.add_comm] at hother
    exact readChars_of_error (hlater _ hother)

theorem read_relaid {text other : String} (h : Relaid (lines text.toList) (lines other.toList)) :
    ∃ number, read other = (read text).mapError (·.renumber number) := by
  obtain ⟨number, hlines⟩ := h.readLines 1 1 []
  refine ⟨number, ?_⟩
  unfold read
  cases hls : readLines 1 [] (lines text.toList) with
  | error e =>
    rw [hls] at hlines
    rw [readChars_of_error hls, readChars_of_error hlines]
    rfl
  | ok nests =>
    rw [hls] at hlines
    rw [readChars_of_ok hls, readChars_of_ok hlines]
    split_ifs <;> rfl

/-- An error names the first line at fault, and nothing after that line plays a part in it. If it names none, the
text has only blank lines and comments. More or fewer of these, and more blanks and comments at the ends of lines,
change neither the kernel nor anything of an error but the number of the line. -/
theorem read_first_fault (text : String) :
    (∀ count, ∃ front back : String, text = front ++ back ∧
      lines front.toList = (lines text.toList).take count) ∧
    (∀ e n, read text = .error e → e.number? = some n → FaultAt text e n) ∧
    (∀ e, read text = .error e → e.number? = none →
      e.toError.message = "kernel has no operations" ∧ ∀ line ∈ lines text.toList, Idle line) ∧
    ∀ other : String, Relaid (lines text.toList) (lines other.toList) →
      (∀ k, read text = .ok k → read other = .ok k) ∧
      ∀ e, read text = .error e → ∃ number, read other = .error (e.renumber number) ∧
        (e.renumber number).reason = e.reason := by
  refine ⟨fun count => ?_, fun e n h hn => faultAt_of_read h hn, fun e h hn => ?_, fun other h => ?_⟩
  · obtain ⟨front, back, htext, hfront⟩ := exists_lines_take text.toList count
    refine ⟨String.ofList front, String.ofList back, ?_, by simpa using hfront⟩
    rw [← String.ofList_append, ← htext, String.ofList_toList]
  · obtain rfl := ReadError.eq_noOperations hn
    refine ⟨Error.message_ofCause _, ?_⟩
    unfold read at h
    cases hls : readLines 1 [] (lines text.toList) with
    | error e' =>
      -- an error of a line names it
      rw [readChars_of_error hls] at h
      cases h
      obtain ⟨i, -, hnumber, -⟩ := exists_of_readLines_eq_error hls
      rw [hn] at hnumber
      cases hnumber
    | ok nests =>
      rw [readChars_of_ok hls] at h
      split_ifs at h with hnests
      exact idle_of_readLines_eq_nil (hnests ▸ hls)
  · obtain ⟨number, hread⟩ := read_relaid h
    refine ⟨fun k hk => ?_, fun e he => ⟨number, ?_, e.reason_renumber number⟩⟩
    · rw [hread, hk]
      rfl
    · rw [hread, he]
      rfl

/-- The second operation repeats the first one, in line three, whatever follows. With a comment before it, and
another one behind the first operation, its line has another number. -/
theorem read_first_fault_repeated :
    FaultAt "a elementwise i=4\n\na reduction i=4\nb" (.repeatedOperation 3 "a") 3 ∧
      ∃ number, read "# first\na elementwise i=4 # again\na reduction i=4\nb" =
        .error (.repeatedOperation number "a") := by
  have hread : read "a elementwise i=4\n\na reduction i=4\nb" = .error (.repeatedOperation 3 "a") := by rfl
  obtain ⟨-, hfault, -, hrelaid⟩ := read_first_fault "a elementwise i=4\n\na reduction i=4\nb"
  refine ⟨hfault _ 3 hread rfl, ?_⟩
  have hnone : Idle [] := idle_iff.mpr (by decide)
  have hagain : Idle " # again".toList := idle_iff.mpr (by decide)
  have hfirst : Idle "# first".toList := idle_iff.mpr (by decide)
  have h : Relaid ["a elementwise i=4".toList, [], "a reduction i=4".toList, "b".toList]
      ["# first".toList, "a elementwise i=4".toList ++ " # again".toList, "a reduction i=4".toList ++ [],
        "b".toList ++ []] :=
    .insert hfirst (.keep hagain (.delete hnone (.keep hnone (.keep hnone .nil))))
  obtain ⟨-, herror⟩ := hrelaid "# first\na elementwise i=4 # again\na reduction i=4\nb" h
  obtain ⟨number, hother, -⟩ := herror _ hread
  exact ⟨number, hother⟩

end Kernel

end LoopTuner
