import LoopTuner.Proofs.Command.LastLine

/-!
# The cost of a finished command

What a command reports when it has ended, by the three things that it leaves: how it ended, its output and its
diagnostics (`cost_of_finished`). Both streams are read as text before anything else is looked at, so bytes
that are no text are an error of reading, whatever the command measured and however it ended. Among commands
that write text the one that succeeds has the cost in its last line, and one that fails has none.
-/

namespace LoopTuner.Command

open Text

/-- The bytes are a text in UTF-8. -/
def IsText (bytes : ByteArray) : Prop := ∃ text : String, bytes = text.toUTF8

/-! ## Reading a stream -/

theorem readText_eq_ok_iff {bytes : ByteArray} {text : String} :
    readText bytes = .ok text ↔ bytes = text.toUTF8 := by
  unfold readText String.fromUTF8?
  by_cases hvalid : bytes.IsValidUTF8
  · rw [dif_pos hvalid]
    constructor
    · intro h
      cases h
      rfl
    · rintro rfl
      rfl
  · rw [dif_neg hvalid]
    constructor
    · intro h
      cases h
    · rintro rfl
      exact absurd text.isValidUTF8 hvalid

theorem readText_of_not_isText {bytes : ByteArray} (h : ¬IsText bytes) :
    readText bytes = .error (unreadable .notUtf8) := by
  cases hread : readText bytes with
  | ok text => exact absurd ⟨text, readText_eq_ok_iff.mp hread⟩ h
  | error e =>
    unfold readText at hread
    split at hread
    · cases hread
    · rw [Except.error.inj hread]

/-- Bytes are the encoding of at most one text. -/
theorem text_unique {bytes : ByteArray} {s t : String} (hs : bytes = s.toUTF8) (ht : bytes = t.toUTF8) : s = t :=
  Except.ok.inj ((readText_eq_ok_iff.mpr hs).symm.trans (readText_eq_ok_iff.mpr ht))

/-! ## What a command leaves -/

namespace Finished

variable {f : Finished}

/-- A stream that is no text decides the error alone. -/
theorem cost_of_not_isText (h : ¬(IsText f.output ∧ IsText f.diagnostics)) :
    f.cost = .error (unreadable .notUtf8) := by
  unfold cost
  by_cases houtput : IsText f.output
  · obtain ⟨output, hout⟩ := houtput
    have hdiagnostics : ¬IsText f.diagnostics := fun hdiag => h ⟨⟨output, hout⟩, hdiag⟩
    rw [readText_eq_ok_iff.mpr hout, readText_of_not_isText hdiagnostics]
  · rw [readText_of_not_isText houtput]

/-- If both streams are texts, then the status tells which of the two counts. -/
theorem cost_of_texts {output diagnostics : String} (hout : f.output = output.toUTF8)
    (hdiag : f.diagnostics = diagnostics.toUTF8) :
    f.cost = if f.status.isSuccess then readCost output
      else .error (.ofCause (.commandFailed f.status (String.ofList (trim diagnostics.toList)))) := by
  unfold cost
  rw [readText_eq_ok_iff.mpr hout, readText_eq_ok_iff.mpr hdiag]

theorem cost_eq_ok_iff {x : Float} :
    f.cost = .ok x ↔ f.status.isSuccess = true ∧ IsText f.diagnostics ∧
      ∃ output : String, f.output = output.toUTF8 ∧ readCost output = .ok x := by
  by_cases htexts : IsText f.output ∧ IsText f.diagnostics
  · obtain ⟨⟨output, hout⟩, diagnostics, hdiag⟩ := htexts
    rw [cost_of_texts hout hdiag]
    by_cases hsuccess : f.status.isSuccess = true
    · rw [if_pos hsuccess]
      constructor
      · exact fun hcost => ⟨hsuccess, ⟨diagnostics, hdiag⟩, output, hout, hcost⟩
      · rintro ⟨-, -, output', hout', hcost⟩
        rwa [text_unique hout hout']
    · rw [if_neg hsuccess]
      simp [hsuccess]
  · rw [cost_of_not_isText htexts]
    constructor
    · intro h
      cases h
    · rintro ⟨-, hdiag, output, hout, -⟩
      exact absurd ⟨⟨output, hout⟩, hdiag⟩ htexts

theorem cost_eq_failed_iff {status : Status} {message : String} :
    f.cost = .error (.ofCause (.commandFailed status message)) ↔
      f.status.isSuccess = false ∧ status = f.status ∧ IsText f.output ∧
        ∃ diagnostics : String, f.diagnostics = diagnostics.toUTF8 ∧
          message = String.ofList (trim diagnostics.toList) := by
  by_cases htexts : IsText f.output ∧ IsText f.diagnostics
  · obtain ⟨⟨output, hout⟩, diagnostics, hdiag⟩ := htexts
    rw [cost_of_texts hout hdiag]
    by_cases hsuccess : f.status.isSuccess = true
    · -- the last line of an output never says that the command failed
      have hread : readCost output ≠ .error (.ofCause (.commandFailed status message)) := by
        intro h
        cases (readCost_eq_error_iff.mp h).2
      simp [hsuccess, hread]
    · rw [if_neg hsuccess]
      constructor
      · intro h
        cases h
        exact ⟨Bool.eq_false_iff.mpr hsuccess, rfl, ⟨output, hout⟩, diagnostics, hdiag, rfl⟩
      · rintro ⟨-, rfl, -, diagnostics', hdiag', rfl⟩
        rw [text_unique hdiag hdiag']
  · rw [cost_of_not_isText htexts]
    constructor
    · intro h
      cases h
    · rintro ⟨-, -, hout, diagnostics, hdiag, -⟩
      exact absurd ⟨hout, diagnostics, hdiag⟩ htexts

theorem cost_eq_unreadable_iff :
    f.cost = .error (unreadable .notUtf8) ↔ ¬(IsText f.output ∧ IsText f.diagnostics) := by
  constructor
  · rintro h ⟨⟨output, hout⟩, diagnostics, hdiag⟩
    rw [cost_of_texts hout hdiag] at h
    by_cases hsuccess : f.status.isSuccess = true
    · rw [if_pos hsuccess] at h
      cases (readCost_eq_error_iff.mp h).2
    · rw [if_neg hsuccess] at h
      cases h
  · exact cost_of_not_isText

end Finished

/-- An output has a cost if it has a last line that is not blank and that is a float. -/
theorem readCost_eq_ok_iff_exists {output : String} {x : Float} :
    readCost output = .ok x ↔
      ∃ line : String, IsLastLine output.toList line.toList ∧ Decimal.read? (trim line.toList) = some x := by
  rw [readCost_eq_ok_iff]
  constructor
  · intro hread
    have hline : ∃ c ∈ output.toList, isBlank c = false := by
      by_contra hnone
      have hblank : ∀ c ∈ output.toList, isBlank c = true := by simpa using hnone
      rw [lastLine_of_blank hblank, Decimal.read?_nil] at hread
      cases hread
    obtain ⟨line, hlast⟩ := exists_isLastLine hline
    refine ⟨String.ofList line, ?_, ?_⟩
    · rwa [String.toList_ofList]
    · rwa [String.toList_ofList, ← hlast.lastLine_eq]
  · rintro ⟨line, hlast, hread⟩
    rwa [hlast.lastLine_eq]

/-- The outcome of a command that ended in time. There is a cost if and only if it succeeded, the last line of
its output that is not blank is a float and its diagnostics are text. The command is reported as failed if and
only if it did not succeed and both streams are text. A stream that is no text is always an error of reading. -/
theorem cost_of_finished (f : Finished) (limit : Nat) :
    (∀ x, (Outcome.finished f).cost limit = .ok x ↔
      f.status.isSuccess = true ∧ IsText f.diagnostics ∧
        ∃ output line : String, f.output = output.toUTF8 ∧ IsLastLine output.toList line.toList ∧
          Decimal.read? (trim line.toList) = some x) ∧
      (∀ status message, (Outcome.finished f).cost limit = .error (.ofCause (.commandFailed status message)) ↔
        f.status.isSuccess = false ∧ status = f.status ∧ IsText f.output ∧
          ∃ diagnostics : String, f.diagnostics = diagnostics.toUTF8 ∧
            message = String.ofList (trim diagnostics.toList)) ∧
      ((Outcome.finished f).cost limit = .error (unreadable .notUtf8) ↔
        ¬(IsText f.output ∧ IsText f.diagnostics)) := by
  refine ⟨fun x => ?_, fun status message => Finished.cost_eq_failed_iff, Finished.cost_eq_unreadable_iff⟩
  show f.cost = .ok x ↔ _
  rw [Finished.cost_eq_ok_iff]
  simp only [readCost_eq_ok_iff_exists, exists_and_left]

/-- A byte that is no text among the diagnostics spoils a cost that was measured, and it hides that a command
failed. -/
theorem exists_spoiled_cost :
    let measured : Finished := ⟨.code 0, "2.5\n".toUTF8, ⟨#[0xFF]⟩⟩
    let failed : Finished := ⟨.code 3, "".toUTF8, ⟨#[0xFF]⟩⟩
    measured.status.isSuccess = true ∧ IsLastLine "2.5\n".toList "2.5".toList ∧
      (∃ x, Decimal.read? (trim "2.5".toList) = some x) ∧ failed.status.isSuccess = false ∧
      ∀ limit, (Outcome.finished measured).cost limit = .error (unreadable .notUtf8) ∧
        (Outcome.finished failed).cost limit = .error (unreadable .notUtf8) := by
  intro measured failed
  have hlast : IsLastLine ([] ++ "2.5".toList ++ "\n".toList) "2.5".toList :=
    .intro (by simp) (by decide) ⟨'2', by decide, by decide⟩ (Or.inr ⟨[], by decide, by simp⟩)
  have hread : (Decimal.read? (trim "2.5".toList)).isSome = true := by rfl
  have hbyte : ¬IsText ⟨#[0xFF]⟩ := by
    rintro ⟨text, htext⟩
    have hreads := readText_eq_ok_iff.mpr htext
    have hfault : readText ⟨#[0xFF]⟩ = .error (unreadable .notUtf8) := by rfl
    rw [hfault] at hreads
    cases hreads
  have hspoiled (status : Status) (output : ByteArray) :
      Finished.cost ⟨status, output, ⟨#[0xFF]⟩⟩ = .error (unreadable .notUtf8) :=
    Finished.cost_of_not_isText fun h => hbyte h.2
  exact ⟨rfl, hlast, Option.isSome_iff_exists.mp hread, rfl, fun _ =>
    ⟨hspoiled (.code 0) "2.5\n".toUTF8, hspoiled (.code 3) "".toUTF8⟩⟩

end LoopTuner.Command
