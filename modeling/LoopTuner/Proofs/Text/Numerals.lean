import LoopTuner.Text.Numeral
import Mathlib.Data.Nat.Digits.Defs
import Mathlib.Tactic.Ring

/-!
# Numerals

A numeral is one or more decimal digits, perhaps behind one plus sign, and stands for their positional
value (`Numeral.IsNumeral`). The reader takes the numerals up to its limit and nothing else
(`Numeral.read_eq_ok_iff`).
-/

namespace LoopTuner.Text.Numeral

/-- The character is the decimal digit of this value. -/
def IsDigit (c : Char) (d : Nat) : Prop :=
  d < 10 ∧ c.toNat = '0'.toNat + d

/-- Digits, the leading ones zero or not, with their value in base ten. -/
def IsNumeral (s : List Char) (n : Nat) : Prop :=
  ∃ digits values, (s = digits ∨ s = '+' :: digits) ∧ digits ≠ [] ∧
    List.Forall₂ IsDigit digits values ∧ n = Nat.ofDigits 10 values.reverse

theorem digit?_eq_some_iff {c : Char} {d : Nat} : digit? c = some d ↔ IsDigit c d := by
  have hzero : '0'.toNat = 48 := rfl
  have hle : '0' ≤ c ∧ c ≤ '9' ↔ 48 ≤ c.toNat ∧ c.toNat ≤ 57 := Iff.rfl
  unfold digit? IsDigit
  rw [hzero]
  split
  · rename_i hc
    rw [hle] at hc
    rw [Option.some.injEq]
    omega
  · rename_i hc
    rw [hle] at hc
    simp only [reduceCtorEq, false_iff]
    omega

/-- The digits read after `v` stand to the right of it. -/
theorem readDigits_eq_ok_iff {limit v n : Nat} {s : List Char} (hv : v ≤ limit) :
    readDigits limit v s = .ok n ↔ ∃ values, List.Forall₂ IsDigit s values ∧
      n = v * 10 ^ values.length + Nat.ofDigits 10 values.reverse ∧ n ≤ limit := by
  induction s generalizing v with
  | nil =>
    constructor
    · intro h
      cases h
      exact ⟨[], .nil, by simp, hv⟩
    · rintro ⟨values, hvalues, rfl, -⟩
      cases hvalues
      simp [readDigits]
  | cons c s ih =>
    have hvalue (d : Nat) (values : List Nat) :
        v * 10 ^ (d :: values).length + Nat.ofDigits 10 (d :: values).reverse =
          (v * 10 + d) * 10 ^ values.length + Nat.ofDigits 10 values.reverse := by
      rw [List.reverse_cons, Nat.ofDigits_append, Nat.ofDigits_singleton, List.length_reverse,
        List.length_cons]
      ring
    constructor
    · intro h
      unfold readDigits at h
      split at h
      · cases h
      · rename_i d hd
        split at h
        · rename_i hle
          obtain ⟨values, hvalues, rfl, hlimit⟩ := (ih hle).mp h
          exact ⟨d :: values, .cons (digit?_eq_some_iff.mp hd) hvalues, (hvalue d values).symm, hlimit⟩
        · cases h
    · rintro ⟨values, hvalues, hn, hlimit⟩
      cases hvalues with
      | @cons _ d _ values hd hvalues =>
        rw [hvalue] at hn
        -- what is read so far never exceeds the number, so the limit holds on the way
        have hle : v * 10 + d ≤ limit := by
          have hpow : 0 < 10 ^ values.length := Nat.pow_pos (by omega)
          have := Nat.le_mul_of_pos_right (v * 10 + d) hpow
          omega
        unfold readDigits
        rw [digit?_eq_some_iff.mpr hd]
        show (if v * 10 + d ≤ limit then _ else _) = _
        rw [if_pos hle]
        exact (ih hle).mpr ⟨values, hvalues, hn, hlimit⟩

theorem read_eq_ok_iff {limit n : Nat} {s : List Char} :
    read limit s = .ok n ↔ IsNumeral s n ∧ n ≤ limit := by
  have hdigits (digits : List Char) : readDigits limit 0 digits = .ok n ↔
      ∃ values, List.Forall₂ IsDigit digits values ∧ n = Nat.ofDigits 10 values.reverse ∧ n ≤ limit := by
    simpa using readDigits_eq_ok_iff (s := digits) (Nat.zero_le limit)
  have hplus (digits : List Char) (values : List Nat) : ¬List.Forall₂ IsDigit ('+' :: digits) values := by
    intro h
    cases h with
    | cons h _ =>
      obtain ⟨-, h⟩ := h
      have : '+'.toNat = 43 := rfl
      have : '0'.toNat = 48 := rfl
      omega
  unfold read IsNumeral
  split
  · simp
  · simp [hplus]
  · rename_i rest hne
    rw [hdigits]
    simp only [List.cons.injEq, true_and]
    constructor
    · rintro ⟨values, hvalues, hn, hlimit⟩
      exact ⟨⟨rest, values, Or.inr rfl, fun h => hne (by rw [h]), hvalues, hn⟩, hlimit⟩
    · rintro ⟨⟨digits, values, rfl | rfl, -, hvalues, hn⟩, hlimit⟩
      · exact absurd hvalues (hplus rest values)
      · exact ⟨values, hvalues, hn, hlimit⟩
  · rename_i hnil _ hfirst
    rw [hdigits]
    constructor
    · rintro ⟨values, hvalues, hn, hlimit⟩
      exact ⟨⟨s, values, Or.inl rfl, hnil, hvalues, hn⟩, hlimit⟩
    · rintro ⟨⟨digits, values, rfl | rfl, -, hvalues, hn⟩, hlimit⟩
      · exact ⟨values, hvalues, hn, hlimit⟩
      · exact absurd rfl (hfirst digits)

end LoopTuner.Text.Numeral
