import LoopTuner.Cost
import Mathlib

/-!
# The order of costs

A float that is a number compares by its bits: exponent and mantissa together are its magnitude, and
the highest bit is its sign (`lt_iff_signed`). So the strict comparison of costs is a weak order on
numbers, with the two zeros as its only tie. The total order refines it: it parts the two zeros and puts
NaN last (`rank_lt_iff_precedes`).
-/

namespace LoopTuner.Cost

open Float.Model (Format UnpackedFloat)
open Float.Model.UnpackedFloat

/-! ## Unpacked floats -/

/-- The unpacked floats that 64 bits stand for: only the least exponent allows a short mantissa. -/
def Canonical : UnpackedFloat → Prop
  | .finite _ m e _ => m < 2 ^ 53 ∧ (e = -1074 ∨ (-1074 < e ∧ e ≤ 971 ∧ 2 ^ 52 ≤ m))
  | _ => True

/-- Exponent and mantissa as one number. -/
def size : UnpackedFloat → Nat
  | .notANumber => 0
  | .zero _ => 0
  | .finite _ m e _ => 2 ^ 52 * (e + 1074).toNat + m
  | .infinity _ => 2047 * 2 ^ 52

/-- The size with the sign of the float. -/
def signedSize (u : UnpackedFloat) : Int :=
  match u with
  | .notANumber => 0
  | .zero _ => 0
  | .finite s _ _ _ => s.apply (size u)
  | .infinity s => s.apply (size u)

theorem size_finite (s : Sign) (m : Nat) (e : Int) (h : 0 < m) :
    size (.finite s m e h) = 2 ^ 52 * (e + 1074).toNat + m := rfl

theorem size_infinity_pos (s : Sign) : 0 < size (.infinity s) := by
  show 0 < 2047 * 2 ^ 52
  decide

theorem size_lt_infinity {s : Sign} {m : Nat} {e : Int} {h : 0 < m}
    (hc : Canonical (.finite s m e h)) (t : Sign) :
    size (.finite s m e h) < size (.infinity t) := by
  obtain ⟨hm, he⟩ := hc
  show 2 ^ 52 * (e + 1074).toNat + m < 2047 * 2 ^ 52
  omega

theorem size_pos (s : Sign) (m : Nat) (e : Int) (h : 0 < m) : 0 < size (.finite s m e h) := by
  rw [size_finite]
  omega

theorem signedSize_finite (s : Sign) (m : Nat) (e : Int) (h : 0 < m) :
    signedSize (.finite s m e h) = s.apply (size (.finite s m e h)) := rfl

theorem signedSize_infinity (s : Sign) :
    signedSize (.infinity s) = s.apply (size (.infinity .positive)) := rfl

theorem signedSize_zero (s : Sign) : signedSize (.zero s) = 0 := rfl

/-- Comparing canonical floats by exponent first is comparing them by size. -/
theorem compare_size {s t : Sign} {m₁ m₂ : Nat} {e₁ e₂ : Int} {h₁ : 0 < m₁} {h₂ : 0 < m₂}
    (hc₁ : Canonical (.finite s m₁ e₁ h₁)) (hc₂ : Canonical (.finite t m₂ e₂ h₂)) :
    (compare e₁ e₂).then (compare m₁ m₂) =
      compare (size (.finite s m₁ e₁ h₁)) (size (.finite t m₂ e₂ h₂)) := by
  obtain ⟨hm₁, he₁⟩ := hc₁
  obtain ⟨hm₂, he₂⟩ := hc₂
  rw [size_finite, size_finite]
  rcases Int.lt_trichotomy e₁ e₂ with he | rfl | he
  · rw [Int.compare_eq_lt.mpr he]
    exact (Nat.compare_eq_lt.mpr (by omega)).symm
  · rw [Int.compare_eq_eq.mpr rfl, Ordering.then]
    rcases Nat.lt_trichotomy m₁ m₂ with hm | rfl | hm
    · rw [Nat.compare_eq_lt.mpr hm, Nat.compare_eq_lt.mpr (by omega)]
    · rw [Nat.compare_eq_eq.mpr rfl, Nat.compare_eq_eq.mpr rfl]
    · rw [Nat.compare_eq_gt.mpr hm, Nat.compare_eq_gt.mpr (by omega)]
  · rw [Int.compare_eq_gt.mpr he]
    exact (Nat.compare_eq_gt.mpr (by omega)).symm

theorem lt_eq_compare (u v : UnpackedFloat) : u.lt v = (u.compare v == some .lt) := rfl

/-- Numbers compare by their signed sizes. -/
theorem lt_iff_signedSize {u v : UnpackedFloat} (hu : Canonical u) (hv : Canonical v)
    (hun : u.isNaN = false) (hvn : v.isNaN = false) :
    u.lt v = true ↔ signedSize u < signedSize v := by
  have hinf := size_infinity_pos .positive
  rw [lt_eq_compare]
  cases u with
  | notANumber => cases hun
  | zero s =>
    cases v with
    | notANumber => cases hvn
    | zero t => simp [UnpackedFloat.compare, signedSize_zero]
    | infinity t =>
      rw [signedSize_zero, signedSize_infinity]
      cases t <;> simp [UnpackedFloat.compare, Sign.apply, hinf]
    | finite t m e h =>
      have hpos := size_pos t m e h
      rw [signedSize_zero, signedSize_finite]
      cases t <;> simp [UnpackedFloat.compare, Sign.apply, hpos]
  | infinity s =>
    cases v with
    | notANumber => cases hvn
    | zero t =>
      rw [signedSize_zero, signedSize_infinity]
      cases s <;> simp [UnpackedFloat.compare, Sign.apply, hinf]
    | infinity t =>
      rw [signedSize_infinity, signedSize_infinity]
      cases s <;> cases t <;> simp [UnpackedFloat.compare, Sign.apply, compare]
      omega
    | finite t m e h =>
      have htop := size_lt_infinity hv .positive
      rw [signedSize_infinity, signedSize_finite]
      cases s <;> cases t <;> simp [UnpackedFloat.compare, Sign.apply] <;> omega
  | finite s m e h =>
    have hpos := size_pos s m e h
    cases v with
    | notANumber => cases hvn
    | zero t =>
      rw [signedSize_zero, signedSize_finite]
      cases s <;> simp [UnpackedFloat.compare, Sign.apply, hpos]
    | infinity t =>
      have htop := size_lt_infinity hu .positive
      rw [signedSize_infinity, signedSize_finite]
      cases s <;> cases t <;> simp [UnpackedFloat.compare, Sign.apply] <;> omega
    | finite t m' e' h' =>
      have hpos' := size_pos t m' e' h'
      have hc := compare_size hu hv
      rw [signedSize_finite, signedSize_finite]
      cases s <;> cases t <;> simp only [UnpackedFloat.compare, Sign.apply, hc]
      · rw [Nat.compare_swap]
        simp [Nat.compare_eq_lt]
      · simp
        omega
      · simp
      · simp [Nat.compare_eq_lt]

/-! ## Floats and their bits -/

/-- Exponent and mantissa of a float. -/
def magnitude (x : Float) : Nat := x.toBits.toNat % 2 ^ 63

/-- The magnitude with the sign of the float; both zeros are at zero. -/
def signed (x : Float) : Int := if x.toBits.toNat < 2 ^ 63 then magnitude x else -magnitude x

theorem toNat_unpackExponent (b : BitVec Format.binary64.numBits) :
    (unpackExponent b).toNat = b.toNat / 2 ^ 52 % 2 ^ 11 := by
  change (b.toNat >>> 52) % 2 ^ 11 = _
  rw [Nat.shiftRight_eq_div_pow]

theorem toNat_unpackMantissa (b : BitVec Format.binary64.numBits) :
    (unpackMantissa b).toNat = b.toNat % 2 ^ 52 := by
  change (b.toNat >>> 0) % 2 ^ 52 = _
  rw [Nat.shiftRight_zero]

theorem toNat_unpackSign (b : BitVec Format.binary64.numBits) :
    (unpackSign b).toNat = b.toNat / 2 ^ 63 := by
  change (b.toNat >>> 63) % 2 ^ 1 = _
  have : b.toNat < 2 ^ 64 := b.isLt
  rw [Nat.shiftRight_eq_div_pow]
  omega

/-- The low 63 bits are exponent and mantissa. -/
theorem mod_eq_fields (n : Nat) : n % 2 ^ 63 = 2 ^ 52 * (n / 2 ^ 52 % 2 ^ 11) + n % 2 ^ 52 := by
  omega

theorem toNat_implicitBit (m : BitVec 52) : (1#1 ++ m).toNat = 2 ^ 52 + m.toNat := by
  rw [BitVec.toNat_append, show (1#1).toNat = 1 from rfl, Nat.shiftLeft_eq, Nat.one_mul, Nat.or_comm,
    Nat.or_two_pow_eq_add_of_lt m.isLt, Nat.add_comm]

theorem apply_ofBitVec (b : BitVec Format.binary64.numBits) (n : Nat) :
    (Sign.ofBitVec (unpackSign b)).apply n = if b.toNat < 2 ^ 63 then (n : Int) else -n := by
  have hs := toNat_unpackSign b
  unfold Sign.ofBitVec
  by_cases h : b.toNat < 2 ^ 63
  · have h0 : unpackSign b = 0#1 := by
      apply BitVec.eq_of_toNat_eq
      rw [hs]
      simp only [BitVec.toNat_ofNat]
      omega
    rw [if_pos h0, if_pos h]
    rfl
  · have h0 : unpackSign b ≠ 0#1 := by
      intro h0
      rw [h0] at hs
      simp only [BitVec.toNat_ofNat] at hs
      omega
    rw [if_neg h0, if_neg h]
    rfl

theorem eq_ofNat_iff_toNat {w : Nat} (x : BitVec w) (n : Nat) (hn : n < 2 ^ w) :
    x = BitVec.ofNat w n ↔ x.toNat = n := by
  rw [← BitVec.toNat_inj, BitVec.toNat_ofNat, Nat.mod_eq_of_lt hn]

/-- A float is unpacked by its exponent and its mantissa. -/
theorem unpack_eq (b : BitVec Format.binary64.numBits) :
    unpack Format.binary64 b =
      (if b.toNat / 2 ^ 52 % 2 ^ 11 = 2047 then
        if b.toNat % 2 ^ 52 = 0 then .infinity (Sign.ofBitVec (unpackSign b)) else .notANumber
      else if b.toNat / 2 ^ 52 % 2 ^ 11 = 0 then
        if h : b.toNat % 2 ^ 52 = 0 then .zero (Sign.ofBitVec (unpackSign b))
        else .finite (Sign.ofBitVec (unpackSign b)) (b.toNat % 2 ^ 52) (-1074) (by omega)
      else .finite (Sign.ofBitVec (unpackSign b)) (2 ^ 52 + b.toNat % 2 ^ 52)
        ((b.toNat / 2 ^ 52 % 2 ^ 11 : Nat) - 1075) (by omega)) := by
  have h1 : unpackExponent b = -1#_ ↔ b.toNat / 2 ^ 52 % 2 ^ 11 = 2047 := by
    rw [← toNat_unpackExponent]
    exact eq_ofNat_iff_toNat (unpackExponent b) 2047 (by decide)
  have h2 : unpackMantissa b = 0#_ ↔ b.toNat % 2 ^ 52 = 0 := by
    rw [← toNat_unpackMantissa]
    exact eq_ofNat_iff_toNat (unpackMantissa b) 0 (by decide)
  have h3 : unpackExponent b = 0#_ ↔ b.toNat / 2 ^ 52 % 2 ^ 11 = 0 := by
    rw [← toNat_unpackExponent]
    exact eq_ofNat_iff_toNat (unpackExponent b) 0 (by decide)
  unfold unpack
  by_cases he : b.toNat / 2 ^ 52 % 2 ^ 11 = 2047
  · rw [if_pos (h1.mpr he), if_pos he]
    by_cases hm : b.toNat % 2 ^ 52 = 0
    · rw [if_pos (h2.mpr hm), if_pos hm]
    · rw [if_neg (mt h2.mp hm), if_neg hm]
  · rw [if_neg (mt h1.mp he), if_neg he]
    by_cases h0 : b.toNat / 2 ^ 52 % 2 ^ 11 = 0
    · rw [if_pos (h3.mpr h0), if_pos h0]
      by_cases hm : b.toNat % 2 ^ 52 = 0
      · rw [dif_pos (h2.mpr hm), dif_pos hm]
      · rw [dif_neg (mt h2.mp hm), dif_neg hm, UnpackedFloat.finite.injEq]
        refine ⟨rfl, toNat_unpackMantissa b, ?_⟩
        rw [h3.mpr h0]
        rfl
    · rw [if_neg (mt h3.mp h0), if_neg h0, UnpackedFloat.finite.injEq]
      refine ⟨rfl, ?_, ?_⟩
      · rw [toNat_implicitBit, toNat_unpackMantissa]
      · rw [toNat_unpackExponent]
        rfl

/-- A number is unpacked into a canonical float, and its bits below the sign are its size. -/
theorem canonical_unpack (b : BitVec Format.binary64.numBits) :
    Canonical (unpack Format.binary64 b) := by
  have he : b.toNat / 2 ^ 52 % 2 ^ 11 < 2 ^ 11 := Nat.mod_lt _ (by decide)
  have hm : b.toNat % 2 ^ 52 < 2 ^ 52 := Nat.mod_lt _ (by decide)
  rw [unpack_eq]
  split_ifs
  · trivial
  · trivial
  · trivial
  · exact ⟨by omega, Or.inl rfl⟩
  · exact ⟨by omega, by omega⟩

theorem signedSize_unpack (b : BitVec Format.binary64.numBits)
    (hn : (unpack Format.binary64 b).isNaN = false) :
    signedSize (unpack Format.binary64 b) =
      (Sign.ofBitVec (unpackSign b)).apply (b.toNat % 2 ^ 63 : Nat) := by
  rw [unpack_eq] at hn ⊢
  rw [mod_eq_fields b.toNat]
  generalize Sign.ofBitVec (unpackSign b) = s at *
  split_ifs at hn ⊢ with h1 h2 h3 h4
  · rw [h1, h2]
    rfl
  · cases hn
  · rw [h3, h4, signedSize_zero]
    cases s <;> rfl
  · rw [h3, signedSize_finite, size_finite]
    rfl
  · rw [signedSize_finite, size_finite]
    congr 2
    omega

/-! ## The strict comparison -/

theorem lt_iff_unpacked (x y : Float) : x < y ↔ x.toModel.unpack.lt y.toModel.unpack = true := by
  show decide (x.toModel < y.toModel) = true ↔ _
  rw [decide_eq_true_iff]
  rfl

/-- Numbers compare by their bits. -/
theorem lt_iff_signed {x y : Float} (hx : x.isNaN = false) (hy : y.isNaN = false) :
    x < y ↔ signed x < signed y := by
  have hsize : ∀ {z : Float}, z.isNaN = false → signedSize z.toModel.unpack = signed z := by
    intro z hz
    exact (signedSize_unpack _ hz).trans (apply_ofBitVec _ _)
  rw [lt_iff_unpacked, ← hsize hx, ← hsize hy]
  exact lt_iff_signedSize (canonical_unpack _) (canonical_unpack _) hx hy

theorem lt_irrefl {x : Float} (hx : x.isNaN = false) : ¬ x < x := by
  rw [lt_iff_signed hx hx]
  exact Int.lt_irrefl _

/-- NaN undercuts nothing. -/
theorem not_lt_of_isNaN {x : Float} (hx : x.isNaN = true) (y : Float) : ¬ x < y := by
  have hnan : x.toModel.unpack.isNaN = true := hx
  rw [lt_iff_unpacked, lt_eq_compare]
  cases hu : x.toModel.unpack with
  | notANumber => exact Bool.false_ne_true
  | infinity s =>
    rw [hu] at hnan
    cases hnan
  | zero s =>
    rw [hu] at hnan
    cases hnan
  | finite s m e hm =>
    rw [hu] at hnan
    cases hnan

/-- No float undercuts itself. -/
theorem not_lt_self (x : Float) : ¬ x < x := by
  cases hx : x.isNaN with
  | false => exact lt_irrefl hx
  | true => exact not_lt_of_isNaN hx x

theorem lt_asymm {x y : Float} (hx : x.isNaN = false) (hy : y.isNaN = false) (h : x < y) :
    ¬ y < x := by
  rw [lt_iff_signed hx hy] at h
  rw [lt_iff_signed hy hx]
  omega

/-- What undercuts a number also undercuts whatever does not undercut that number. -/
theorem lt_of_lt_of_not_lt {x y z : Float} (hx : x.isNaN = false) (hy : y.isNaN = false)
    (hz : z.isNaN = false) (hxy : x < y) (hzy : ¬ z < y) : x < z := by
  rw [lt_iff_signed hx hy] at hxy
  rw [lt_iff_signed hz hy] at hzy
  rw [lt_iff_signed hx hz]
  omega

/-! ## The total order -/

/-- A number precedes the greater ones, negative zero precedes positive zero, and every number precedes NaN. -/
def Precedes (x y : Float) : Prop :=
  x < y ∨ (x = -0 ∧ y = 0) ∨ (x.isNaN = false ∧ y.isNaN = true)

/-- The place of a float in the total order, as a number. -/
theorem toNat_rank (x : Float) :
    (rank x).toNat =
      if x.toBits.toNat < 2 ^ 63 then 2 ^ 63 + magnitude x else 2 ^ 63 - 1 - magnitude x := by
  have hlt : x.toBits.toNat < 2 ^ 64 := x.toBits.toNat_lt
  have hsign : (x.toBits >>> 63 == 0) = decide (x.toBits.toNat < 2 ^ 63) := by
    rw [Bool.eq_iff_iff, beq_iff_eq, decide_eq_true_iff, ← UInt64.toNat_inj, UInt64.toNat_shiftRight]
    show x.toBits.toNat >>> 63 = 0 ↔ _
    rw [Nat.shiftRight_eq_div_pow]
    omega
  unfold rank magnitude
  simp only [hsign, decide_eq_true_iff]
  split_ifs with h
  · rw [UInt64.toNat_or, Nat.mod_eq_of_lt h, Nat.add_comm]
    exact Nat.or_two_pow_eq_add_of_lt h
  · rw [UInt64.toNat_not]
    show 2 ^ 64 - 1 - x.toBits.toNat = _
    omega

/-- The total order refines the strict comparison of numbers. -/
theorem rank_lt_of_lt {x y : Float} (hx : x.isNaN = false) (hy : y.isNaN = false) (h : x < y) :
    rank x < rank y := by
  rw [lt_iff_signed hx hy] at h
  have hmx : magnitude x < 2 ^ 63 := Nat.mod_lt _ (by decide)
  have hmy : magnitude y < 2 ^ 63 := Nat.mod_lt _ (by decide)
  rw [UInt64.lt_iff_toNat_lt, toNat_rank, toNat_rank]
  unfold signed at h
  split_ifs at h ⊢ <;> omega

theorem eq_of_toBits {x y : Float} (h : x.toBits = y.toBits) : x = y := by
  obtain ⟨⟨_, _⟩⟩ := x
  obtain ⟨⟨_, _⟩⟩ := y
  cases h
  rfl

/-- There is one NaN. -/
theorem toBits_of_isNaN {x : Float} (hx : x.isNaN = true) : x.toBits = 0x7FF8000000000000 := by
  have hnan : (unpack Format.binary64 x.toBits.toBitVec).isNaN = true := hx
  have hvalid : x.toBits.toBitVec = packedNaN Format.binary64 := by
    unfold unpack at hnan
    simp only at hnan
    split_ifs at hnan with hexponent hmantissa
    · cases hnan
    · exact x.toModel.valid.eq_packedNaN hexponent hmantissa
    · cases hnan
    · cases hnan
    · cases hnan
  exact UInt64.toBitVec_inj.mp hvalid

/-- The magnitude of a number is at most that of infinity. -/
theorem magnitude_le_of_number {x : Float} (hx : x.isNaN = false) : magnitude x ≤ 2047 * 2 ^ 52 := by
  have hnumber : (unpack Format.binary64 x.toBits.toBitVec).isNaN = false := hx
  rw [unpack_eq] at hnumber
  have hexponent : x.toBits.toNat / 2 ^ 52 % 2 ^ 11 < 2 ^ 11 := Nat.mod_lt _ (by decide)
  have hmantissa : x.toBits.toNat % 2 ^ 52 < 2 ^ 52 := Nat.mod_lt _ (by decide)
  unfold magnitude
  rw [mod_eq_fields]
  split_ifs at hnumber with htop hzero
  · rw [show x.toBits.toNat % 2 ^ 52 = 0 from hzero]
    omega
  · cases hnumber
  all_goals
    have hlow : x.toBits.toNat / 2 ^ 52 % 2 ^ 11 ≠ 2047 := htop
    omega

/-- NaN has the greatest place. -/
theorem toNat_rank_of_isNaN {x : Float} (hx : x.isNaN = true) : (rank x).toNat = 2 ^ 63 + 4095 * 2 ^ 51 := by
  rw [toNat_rank, magnitude, toBits_of_isNaN hx]
  rfl

theorem toNat_rank_le_of_number {x : Float} (hx : x.isNaN = false) : (rank x).toNat ≤ 2 ^ 63 + 2047 * 2 ^ 52 := by
  have hmagnitude := magnitude_le_of_number hx
  rw [toNat_rank]
  split_ifs <;> omega

/-- No float has the least place. -/
theorem rank_pos (x : Float) : 0 < rank x := by
  rw [UInt64.lt_iff_toNat_lt]
  show 0 < (rank x).toNat
  cases hx : x.isNaN with
  | true =>
    rw [toNat_rank_of_isNaN hx]
    decide
  | false =>
    have hmagnitude := magnitude_le_of_number hx
    rw [toNat_rank]
    split_ifs <;> omega

/-- Numbers that do not differ by comparison differ in their places as the two zeros do. -/
theorem rank_lt_iff_zeros {x y : Float} (hx : x.isNaN = false) (hy : y.isNaN = false) (h : ¬ x < y) :
    rank x < rank y ↔ x = -0 ∧ y = 0 := by
  have hnegative : (-0 : Float).toBits.toNat = 2 ^ 63 := by decide
  have hpositive : (0 : Float).toBits.toNat = 0 := by decide
  constructor
  · intro hrank
    rw [lt_iff_signed hx hy] at h
    rw [UInt64.lt_iff_toNat_lt, toNat_rank, toNat_rank] at hrank
    have hbits : x.toBits.toNat = 2 ^ 63 ∧ y.toBits.toNat = 0 := by
      have hlt : x.toBits.toNat < 2 ^ 64 := x.toBits.toNat_lt
      unfold signed magnitude at h
      unfold magnitude at hrank
      split_ifs at h hrank <;> omega
    exact ⟨eq_of_toBits (UInt64.toNat_inj.mp (hbits.1.trans hnegative.symm)),
      eq_of_toBits (UInt64.toNat_inj.mp (hbits.2.trans hpositive.symm))⟩
  · rintro ⟨rfl, rfl⟩
    decide

/-- The places tell the total order. -/
theorem rank_lt_iff_precedes (x y : Float) : rank x < rank y ↔ Precedes x y := by
  cases hx : x.isNaN with
  | true =>
    have hrank : ¬ rank x < rank y := by
      rw [UInt64.lt_iff_toNat_lt, toNat_rank_of_isNaN hx]
      cases hy : y.isNaN with
      | true =>
        rw [toNat_rank_of_isNaN hy]
        exact Nat.lt_irrefl _
      | false =>
        have hle := toNat_rank_le_of_number hy
        omega
    refine iff_of_false hrank ?_
    rintro (h | ⟨rfl, -⟩ | ⟨h, -⟩)
    · exact not_lt_of_isNaN hx y h
    · exact absurd hx (by decide)
    · rw [hx] at h
      cases h
  | false =>
    cases hy : y.isNaN with
    | true =>
      refine iff_of_true ?_ (Or.inr (Or.inr ⟨hx, hy⟩))
      have hle := toNat_rank_le_of_number hx
      rw [UInt64.lt_iff_toNat_lt, toNat_rank_of_isNaN hy]
      omega
    | false =>
      unfold Precedes
      simp only [hy, Bool.false_eq_true, and_false, or_false]
      by_cases hlt : x < y
      · exact iff_of_true (rank_lt_of_lt hx hy hlt) (Or.inl hlt)
      · rw [rank_lt_iff_zeros hx hy hlt, or_iff_right hlt]

/-! ## Usable costs -/

theorem isUsable_infinity : isUsable infinity = true := by decide

theorem isNaN_of_isUsable {x : Float} (h : isUsable x = true) : x.isNaN = false := by
  show x.toModel.unpack.isNaN = false
  have h' : (x.toModel.unpack.isFinite || (x.toModel.unpack.isInf && decide (0 < x))) = true := h
  cases hu : x.toModel.unpack with
  | notANumber =>
    rw [hu] at h'
    cases h'
  | infinity s => rfl
  | zero s => rfl
  | finite s m e hm => rfl

/-- The costs that are not usable are NaN and negative infinity. -/
theorem isUsable_eq_false_iff (x : Float) :
    isUsable x = false ↔ x.isNaN = true ∨ (x.isInf = true ∧ x < 0) := by
  have hzero : (0 : Float).toModel.unpack = .zero .positive := rfl
  have husable : isUsable x =
      (x.toModel.unpack.isFinite || (x.toModel.unpack.isInf && decide (0 < x))) := rfl
  rw [husable, show x.isNaN = x.toModel.unpack.isNaN from rfl,
    show x.isInf = x.toModel.unpack.isInf from rfl, lt_iff_unpacked x 0,
    Bool.decide_congr (lt_iff_unpacked 0 x), hzero]
  cases x.toModel.unpack with
  | notANumber => decide
  | infinity s => cases s <;> decide
  | zero s => cases s <;> decide
  | finite s m e hm => cases s <;> simp [isFinite, isNaN, isInf]

end LoopTuner.Cost
