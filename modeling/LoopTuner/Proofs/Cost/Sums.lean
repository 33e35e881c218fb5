import LoopTuner.Proofs.Cost.Order

/-!
# Sums of costs

Of two numbers only opposite infinities add up to NaN (`isNaN_add_iff`). Usable costs are neither NaN nor negative
infinity, but finite ones can add up to negative infinity: a running sum of usable costs is NaN exactly if an
infinite cost comes after it has got there (`isNaN_total_iff`). Costs that are not negative never lead to that
(`not_clash_of_not_lt_zero`).
-/

namespace LoopTuner.Cost

open Float.Model (Format UnpackedFloat)
open Float.Model.UnpackedFloat

/-! ## Sums of unpacked floats -/

/-- Only the greatest exponent stands for infinities and NaN. -/
theorem isNaN_unpack_packComponents (s : Sign) {e : BitVec 11} (m : BitVec 52) (he : e ≠ -1#11) :
    (unpack Format.binary64 (packComponents Format.binary64 s e m)).isNaN = false := by
  unfold unpack
  simp only [unpackExponent_packComponents, unpackMantissa_packComponents]
  rw [if_neg he]
  split_ifs <;> rfl

/-- Packing makes no number a NaN. -/
theorem isNaN_unpack_pack (u : UnpackedFloat) :
    (unpack Format.binary64 (pack Format.binary64 u)).isNaN = u.isNaN := by
  cases u with
  | notANumber => decide
  | infinity s => cases s <;> decide
  | zero s => cases s <;> decide
  | finite s m e hm =>
    unfold pack
    simp only
    split_ifs with hbig hnormal
    · show (unpack Format.binary64 (packedInfinity Format.binary64 s)).isNaN = false
      cases s <;> decide
    · -- an exponent that fits stays below that of the infinities
      refine isNaN_unpack_packComponents s _ fun heq => ?_
      have htoNat := congrArg BitVec.toNat heq
      have hlt : (e + (Format.binary64.exponentBias : Int) + (52 : Int)).toNat + 1 < 2 ^ 11 :=
        Nat.not_le.mp hbig
      rw [BitVec.toNat_ofNat, Nat.mod_eq_of_lt (by omega)] at htoNat
      have hmax : (-1#11).toNat = 2047 := by decide
      omega
    · exact isNaN_unpack_packComponents s _ (by decide)

theorem isNaN_normalize (mantissa exponent : Int) (s : Sign) :
    (UnpackedFloat.normalize Format.binary64 mantissa exponent s).isNaN = false := by
  have hround : ∀ (sign : Sign) (m : Nat), (UnpackedFloat.round Format.binary64 sign m exponent).isNaN = false := by
    intro sign m
    unfold UnpackedFloat.round roundWithAccuracy
    simp only
    split_ifs <;> rfl
  unfold UnpackedFloat.normalize
  split
  · exact hround _ _
  · rfl
  · exact hround _ _

/-- A sum is NaN if a summand is, or if opposite infinities meet. -/
theorem isNaN_unpacked_add_iff (u v : UnpackedFloat) :
    (u.add Format.binary64 v).isNaN = true ↔
      u.isNaN = true ∨ v.isNaN = true ∨ ∃ s t, u = .infinity s ∧ v = .infinity t ∧ s ≠ t := by
  cases u with
  | notANumber => simp [UnpackedFloat.add, isNaN]
  | infinity s =>
    cases v with
    | notANumber => simp [UnpackedFloat.add, isNaN]
    | infinity t => cases s <;> cases t <;> simp [UnpackedFloat.add, isNaN]
    | zero t => simp [UnpackedFloat.add, isNaN]
    | finite t m e hm => simp [UnpackedFloat.add, isNaN]
  | zero s =>
    cases v with
    | notANumber => simp [UnpackedFloat.add, isNaN]
    | infinity t => simp [UnpackedFloat.add, isNaN]
    | zero t => cases s <;> cases t <;> simp [UnpackedFloat.add, isNaN]
    | finite t m e hm => simp [UnpackedFloat.add, isNaN]
  | finite s m e hm =>
    cases v with
    | notANumber => simp [UnpackedFloat.add, isNaN]
    | infinity t => simp [UnpackedFloat.add, isNaN]
    | zero t => simp [UnpackedFloat.add, isNaN]
    | finite t m' e' hm' =>
      have hsum : (UnpackedFloat.add Format.binary64 (.finite s m e hm) (.finite t m' e' hm')).isNaN = false :=
        isNaN_normalize _ _ _
      rw [hsum]
      simp [isNaN]

/-! ## Sums of floats -/

theorem isNegInf_iff (x : Float) :
    (x.isInf = true ∧ x < 0) ↔ x.toModel.unpack = .infinity .negative := by
  have hzero : (0 : Float).toModel.unpack = .zero .positive := rfl
  rw [show x.isInf = x.toModel.unpack.isInf from rfl, lt_iff_unpacked, hzero, lt_eq_compare]
  cases x.toModel.unpack with
  | notANumber => simp [isInf]
  | infinity s => cases s <;> simp [isInf, UnpackedFloat.compare]
  | zero s => simp [isInf]
  | finite s m e hm => simp [isInf]

/-- Adding a usable cost leads to NaN only from NaN, or from negative infinity if the cost is infinite. -/
theorem isNaN_add_iff (x : Float) {y : Float} (hy : isUsable y = true) :
    (x + y).isNaN = true ↔ x.isNaN = true ∨ (x.isInf = true ∧ x < 0) ∧ y.isInf = true := by
  have hnumber : y.toModel.unpack.isNaN = false := isNaN_of_isUsable hy
  have hnot : y.toModel.unpack ≠ .infinity .negative := by
    intro h
    have hunusable := (isUsable_eq_false_iff y).mpr (Or.inr ((isNegInf_iff y).mpr h))
    rw [hy] at hunusable
    cases hunusable
  have hsum : (x + y).isNaN = (x.toModel.unpack.add Format.binary64 y.toModel.unpack).isNaN :=
    isNaN_unpack_pack _
  rw [hsum, isNaN_unpacked_add_iff, hnumber, isNegInf_iff, show x.isNaN = x.toModel.unpack.isNaN from rfl,
    show y.isInf = y.toModel.unpack.isInf from rfl]
  refine or_congr Iff.rfl ?_
  constructor
  · rintro (h | ⟨s, t, hs, ht, hne⟩)
    · cases h
    · cases t with
      | negative => exact absurd ht hnot
      | positive =>
        cases s with
        | positive => exact absurd rfl hne
        | negative => exact ⟨hs, by rw [ht]; rfl⟩
  · rintro ⟨hx, hinf⟩
    right
    cases hv : y.toModel.unpack with
    | infinity t =>
      cases t with
      | positive => exact ⟨.negative, .positive, hx, rfl, nofun⟩
      | negative => exact absurd hv hnot
    | notANumber =>
      rw [hv] at hinf
      cases hinf
    | zero t =>
      rw [hv] at hinf
      cases hinf
    | finite t m e hm =>
      rw [hv] at hinf
      cases hinf

/-! ## Signs -/

/-- No negative number; zeros and NaN count as not negative. -/
def NonNegative : UnpackedFloat → Prop
  | .infinity s => s = .positive
  | .finite s _ _ _ => s = .positive
  | _ => True

theorem not_lt_zero_iff (x : Float) : ¬ x < 0 ↔ NonNegative x.toModel.unpack := by
  have hzero : (0 : Float).toModel.unpack = .zero .positive := rfl
  rw [lt_iff_unpacked, hzero, lt_eq_compare]
  cases x.toModel.unpack with
  | notANumber => simp [NonNegative, UnpackedFloat.compare]
  | infinity s => cases s <;> simp [NonNegative, UnpackedFloat.compare]
  | zero s => simp [NonNegative, UnpackedFloat.compare]
  | finite s m e hm => cases s <;> simp [NonNegative, UnpackedFloat.compare]

theorem unpackSign_packComponents (s : Sign) (e : BitVec 11) (m : BitVec 52) :
    Sign.ofBitVec (unpackSign (packComponents Format.binary64 s e m)) = s := by
  unfold unpackSign packComponents BitVec.extractLsb
  rw [BitVec.extractLsb'_append_eq_of_le (by decide), BitVec.extractLsb'_append_eq_of_le (by decide)]
  cases s <;> rfl

theorem nonNegative_unpack_packComponents (e : BitVec 11) (m : BitVec 52) :
    NonNegative (unpack Format.binary64 (packComponents Format.binary64 .positive e m)) := by
  unfold unpack
  simp only [unpackSign_packComponents]
  split_ifs <;> trivial

/-- Packing makes no number negative. -/
theorem nonNegative_unpack_pack {u : UnpackedFloat} (hu : NonNegative u) :
    NonNegative (unpack Format.binary64 (pack Format.binary64 u)) := by
  cases u with
  | notANumber => exact nonNegative_unpack_packComponents _ _
  | infinity s =>
    obtain rfl : s = .positive := hu
    exact nonNegative_unpack_packComponents _ _
  | zero s => cases s <;> trivial
  | finite s m e hm =>
    obtain rfl : s = .positive := hu
    unfold pack
    simp only
    split_ifs
    · exact nonNegative_unpack_packComponents _ _
    · exact nonNegative_unpack_packComponents _ _
    · exact nonNegative_unpack_packComponents _ _

theorem nonNegative_normalize {mantissa : Int} (h : 0 ≤ mantissa) (exponent : Int) (s : Sign) :
    NonNegative (UnpackedFloat.normalize Format.binary64 mantissa exponent s) := by
  unfold UnpackedFloat.normalize
  split
  · rename_i hlt
    rw [Int.compare_eq_lt] at hlt
    omega
  · trivial
  · unfold UnpackedFloat.round roundWithAccuracy
    simp only
    split_ifs <;> trivial

theorem nonNegative_add {u v : UnpackedFloat} (hu : NonNegative u) (hv : NonNegative v) :
    NonNegative (u.add Format.binary64 v) := by
  cases u with
  | notANumber => trivial
  | infinity s =>
    obtain rfl : s = .positive := hu
    cases v with
    | infinity t =>
      obtain rfl : t = .positive := hv
      trivial
    | _ => trivial
  | zero s =>
    cases v with
    | zero t => cases s <;> cases t <;> trivial
    | _ => exact hv
  | finite s m e hm =>
    obtain rfl : s = .positive := hu
    cases v with
    | finite t m' e' hm' =>
      obtain rfl : t = .positive := hv
      refine nonNegative_normalize ?_ _ _
      exact Int.add_nonneg (Int.natCast_nonneg _) (Int.natCast_nonneg _)
    | zero t => exact rfl
    | infinity t => exact hv
    | notANumber => trivial

theorem not_lt_zero_add {x y : Float} (hx : ¬ x < 0) (hy : ¬ y < 0) : ¬ x + y < 0 := by
  rw [not_lt_zero_iff] at hx hy ⊢
  exact nonNegative_unpack_pack (nonNegative_add hx hy)

/-! ## Running sums -/

/-- The costs added up from zero, one after the other. -/
def total (costs : List Float) : Float := costs.foldl (· + ·) 0

theorem total_concat (costs : List Float) (cost : Float) : total (costs ++ [cost]) = total costs + cost := by
  unfold total
  rw [List.foldl_append, List.foldl_cons, List.foldl_nil]

/-- An infinite cost comes after costs whose sum is negative infinity. -/
def Clash (costs : List Float) : Prop :=
  ∃ front cost back, costs = front ++ cost :: back ∧ cost.isInf = true ∧
    (total front).isInf = true ∧ total front < 0

theorem clash_concat_iff (costs : List Float) (cost : Float) :
    Clash (costs ++ [cost]) ↔
      Clash costs ∨ ((total costs).isInf = true ∧ total costs < 0) ∧ cost.isInf = true := by
  constructor
  · rintro ⟨front, c, back, hsplit, hc, hinf, hneg⟩
    rcases List.eq_nil_or_concat' back with rfl | ⟨back, last, rfl⟩
    · obtain ⟨rfl, hlast⟩ := List.append_inj' hsplit rfl
      cases hlast
      exact Or.inr ⟨⟨hinf, hneg⟩, hc⟩
    · rw [← List.cons_append, ← List.append_assoc] at hsplit
      obtain ⟨rfl, -⟩ := List.append_inj' hsplit rfl
      exact Or.inl ⟨front, c, back, rfl, hc, hinf, hneg⟩
  · rintro (⟨front, c, back, rfl, hc, hinf, hneg⟩ | ⟨⟨hinf, hneg⟩, hc⟩)
    · exact ⟨front, c, back ++ [cost], by simp, hc, hinf, hneg⟩
    · exact ⟨costs, cost, [], rfl, hc, hinf, hneg⟩

/-- The sum of usable costs is NaN exactly if one of them clashes with the sum of those before it. -/
theorem isNaN_total_iff {costs : List Float} (hcosts : ∀ cost ∈ costs, isUsable cost = true) :
    (total costs).isNaN = true ↔ Clash costs := by
  induction costs using List.reverseRecOn with
  | nil =>
    refine iff_of_false (by decide) ?_
    rintro ⟨front, cost, back, hsplit, -⟩
    cases front <;> cases hsplit
  | append_singleton costs cost ih =>
    obtain ⟨hcosts, hcost⟩ := List.forall_mem_append.mp hcosts
    rw [total_concat, isNaN_add_iff _ (hcost cost List.mem_cons_self), ih hcosts, clash_concat_iff]

/-- Costs that are not negative do not clash. -/
theorem not_clash_of_not_lt_zero {costs : List Float} (h : ∀ cost ∈ costs, ¬ cost < 0) : ¬ Clash costs := by
  have htotal : ∀ {costs : List Float}, (∀ cost ∈ costs, ¬ cost < 0) → ¬ total costs < 0 := by
    intro costs hcosts
    induction costs using List.reverseRecOn with
    | nil => decide
    | append_singleton costs cost ih =>
      obtain ⟨hcosts, hcost⟩ := List.forall_mem_append.mp hcosts
      rw [total_concat]
      exact not_lt_zero_add (ih hcosts) (hcost cost List.mem_cons_self)
  rintro ⟨front, cost, back, rfl, -, -, hneg⟩
  exact htotal (fun c hc => h c (List.mem_append_left _ hc)) hneg

end LoopTuner.Cost
