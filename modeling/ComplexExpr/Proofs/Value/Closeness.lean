import ComplexExpr.Proofs.Binary.Sum
import ComplexExpr.Value.Basic

/-!
# How close values are

Two values are close if both parts differ by less than a bound. The distance of
two doubles is the same in either order (`Binary.abs_sub_comm`), since rounding
treats a number and its negation alike; that of a double to itself is below a
positive bound iff the double is finite (`Binary.abs_sub_self_lt_iff`), and no
distance is below zero (`Binary.not_abs_lt_zero`). Main statements:

* `Value.approxEq_comm`: closeness does not depend on the order of the values;
* `Value.approxEq_self_iff`: a value is close to itself iff its parts are finite.
-/

namespace ComplexExpr

namespace Binary

open Float.Model (UnpackedFloat)
open Float.Model.UnpackedFloat (packComponents)

variable {x ε : Float}

/-! ## Magnitudes -/

theorem abs_dite {c : Prop} [Decidable c] (s : UnpackedFloat.Sign) {m : ℕ} {e : ℤ}
    (h : ¬c → 0 < m) :
    (if hc : c then UnpackedFloat.zero s else .finite s m e (h hc)).abs =
      (if hc : c then UnpackedFloat.zero .positive else .finite .positive m e (h hc)).abs := by
  by_cases hc : c
  · rw [dif_pos hc, dif_pos hc]
    rfl
  · rw [dif_neg hc, dif_neg hc]
    rfl

theorem abs_ofFields (s : UnpackedFloat.Sign) (k f : ℕ) :
    (ofFields s k f).abs = (ofFields .positive k f).abs := by
  unfold ofFields
  by_cases hk : k = 2047
  · rw [if_pos hk, if_pos hk]
    by_cases hf : f = 0
    · rw [if_pos hf, if_pos hf]
      rfl
    · rw [if_neg hf, if_neg hf]
  · rw [if_neg hk, if_neg hk]
    by_cases hsmall : k = 0
    · rw [if_pos hsmall, if_pos hsmall]
      exact abs_dite s Nat.pos_of_ne_zero
    · rw [if_neg hsmall, if_neg hsmall]
      rfl

theorem abs_unpack_packComponents (s : UnpackedFloat.Sign) {k : ℕ} (hk : k < 2 ^ 11) (m : ℕ) :
    (UnpackedFloat.unpack .binary64
      (packComponents .binary64 s (.ofNat 11 k) (.ofNat 52 m))).abs =
      (ofFields .positive k (m % 2 ^ 52)).abs := by
  rw [unpack_packComponents_mod s hk, abs_ofFields]

/-- What is packed has the magnitude that its own magnitude is packed into. -/
theorem abs_unpack_pack (u : UnpackedFloat) :
    (Float.Model.pack u).unpack.abs = (Float.Model.pack u.abs).unpack.abs := by
  cases u with
  | notANumber => rfl
  | infinity s => cases s <;> rfl
  | zero s => cases s <;> rfl
  | finite s m e hm =>
    show (UnpackedFloat.unpack .binary64 (UnpackedFloat.pack .binary64 (.finite s m e hm))).abs =
      (UnpackedFloat.unpack .binary64 (UnpackedFloat.pack .binary64 (.finite .positive m e hm))).abs
    rw [pack_finite, pack_finite]
    split
    · cases s <;> rfl
    next hlt =>
      split
      · rw [abs_unpack_packComponents s (by omega), abs_unpack_packComponents .positive (by omega)]
      · rw [abs_unpack_packComponents s (by decide), abs_unpack_packComponents .positive (by decide)]

/-! ## Distances -/

theorem abs_round (s : UnpackedFloat.Sign) (m : ℕ) (e : ℤ) :
    (UnpackedFloat.round .binary64 s m e).abs =
      (UnpackedFloat.round .binary64 .positive m e).abs :=
  abs_dite s _

/-- A number and its negation are rounded to one magnitude. -/
theorem abs_normalize_neg (m e : ℤ) :
    (UnpackedFloat.normalize .binary64 (-m) e .positive).abs =
      (UnpackedFloat.normalize .binary64 m e .positive).abs := by
  unfold UnpackedFloat.normalize
  rcases Int.lt_trichotomy m 0 with h | rfl | h
  · have hneg : compare (-m) 0 = .gt := Int.compare_eq_gt.2 (by omega)
    rw [hneg, Int.compare_eq_lt.2 h]
    exact (abs_round .negative _ e).symm
  · rfl
  · have hneg : compare (-m) 0 = .lt := Int.compare_eq_lt.2 (by omega)
    rw [hneg, Int.compare_eq_gt.2 h]
    dsimp only
    rw [neg_neg]
    exact abs_round .negative _ e

theorem abs_sub_comm_unpacked (u v : UnpackedFloat) :
    (UnpackedFloat.sub .binary64 u v).abs = (UnpackedFloat.sub .binary64 v u).abs := by
  cases u with
  | notANumber => cases v <;> rfl
  | infinity s =>
    cases v with
    | infinity t => cases s <;> cases t <;> rfl
    | _ => rfl
  | zero s =>
    cases v with
    | zero t => cases s <;> cases t <;> rfl
    | _ => rfl
  | finite s m e hm =>
    cases v with
    | finite t n k hn =>
      unfold UnpackedFloat.sub
      dsimp only
      rw [min_comm k e, ← abs_normalize_neg, Int.neg_sub]
    | _ => rfl

/-- The distance of two doubles does not depend on their order. -/
theorem abs_sub_comm (x y : Float) : (x - y).abs = (y - x).abs := by
  show Float.ofModel (.pack (Float.Model.pack
      (.sub .binary64 x.toModel.unpack y.toModel.unpack)).unpack.abs) =
    .ofModel (.pack (Float.Model.pack
      (.sub .binary64 y.toModel.unpack x.toModel.unpack)).unpack.abs)
  rw [abs_unpack_pack, abs_sub_comm_unpacked, ← abs_unpack_pack]

theorem sub_self_of_isFinite (h : x.isFinite) : x - x = 0.0 := by
  change x.toModel.unpack.isFinite at h
  have hsub : UnpackedFloat.sub .binary64 x.toModel.unpack x.toModel.unpack = .zero .positive := by
    cases hx : x.toModel.unpack with
    | notANumber => rw [hx] at h; cases h
    | infinity s => rw [hx] at h; cases h
    | zero s => cases s <;> rfl
    | finite s m e hm =>
      unfold UnpackedFloat.sub
      dsimp only
      rw [Int.sub_self]
      rfl
  show Float.ofModel (.pack (.sub .binary64 x.toModel.unpack x.toModel.unpack)) = _
  rw [hsub]
  rfl

/-- The difference of an infinity, or of no number, with itself is no number. -/
theorem sub_self_of_not_isFinite (h : ¬x.isFinite) : x - x = .ofModel (.pack .notANumber) := by
  change ¬x.toModel.unpack.isFinite at h
  have hsub : UnpackedFloat.sub .binary64 x.toModel.unpack x.toModel.unpack = .notANumber := by
    cases hx : x.toModel.unpack with
    | notANumber => rfl
    | infinity s => cases s <;> rfl
    | zero s => rw [hx] at h; exact absurd rfl h
    | finite s m e hm => rw [hx] at h; exact absurd rfl h
  show Float.ofModel (.pack (.sub .binary64 x.toModel.unpack x.toModel.unpack)) = _
  rw [hsub]

/-! ## Bounds on distances -/

/-- What is no number is not below any bound. -/
theorem not_lt_of_notANumber (hx : x.toModel.unpack = .notANumber) : ¬x < ε := by
  rw [lt_iff, hx]
  exact nofun

/-- The distance of a double to itself is below a positive bound iff the double is finite. -/
theorem abs_sub_self_lt_iff (h : 0.0 < ε) : (x - x).abs < ε ↔ x.isFinite := by
  constructor
  · intro hlt
    by_contra hfinite
    rw [sub_self_of_not_isFinite hfinite] at hlt
    exact not_lt_of_notANumber rfl hlt
  · intro hfinite
    have hzero : (0.0 : Float).abs = 0.0 := rfl
    rw [sub_self_of_isFinite hfinite, hzero]
    exact h

theorem HasSign.compare_zero {u : UnpackedFloat} (h : HasSign .positive u) :
    u.compare (.zero .positive) ≠ some .lt := by
  cases u with
  | notANumber => exact h.elim
  | zero s => exact nofun
  | infinity s | finite s m e hm =>
    obtain rfl : s = .positive := h
    exact nofun

/-- No magnitude is below zero. -/
theorem not_abs_lt_zero (x : Float) : ¬x.abs < 0.0 := by
  have hzero : (0.0 : Float).toModel.unpack = .zero .positive := rfl
  have habs : x.abs = .ofModel (.pack x.toModel.unpack.abs) := rfl
  rw [lt_iff, hzero, habs]
  cases x.toModel.unpack with
  | notANumber => exact nofun
  | infinity s | zero s | finite s m e hm =>
    exact HasSign.compare_zero (HasSign.unpack_pack rfl)

end Binary

namespace Value

variable {z : Value} {ε : Float}

/-- Both parts are finite. -/
def IsFinite (z : Value) : Prop := z.re.isFinite ∧ z.im.isFinite

instance : Decidable z.IsFinite := inferInstanceAs (Decidable (_ ∧ _))

/-- Closeness does not depend on the order of the values. -/
theorem approxEq_comm (z w : Value) (ε : Float) : z.approxEq w ε = w.approxEq z ε := by
  unfold approxEq
  rw [Binary.abs_sub_comm z.re, Binary.abs_sub_comm z.im]

/-- A value is close to itself iff its parts are finite. -/
theorem approxEq_self_iff (h : 0.0 < ε) :
    z.approxEq z ε = true ↔ z.IsFinite := by
  rw [IsFinite, approxEq, Bool.and_eq_true, decide_eq_true_iff, decide_eq_true_iff,
    Binary.abs_sub_self_lt_iff h, Binary.abs_sub_self_lt_iff h]

/-- No values are closer than zero. -/
theorem approxEq_zero (z w : Value) : z.approxEq w 0.0 = false := by
  rw [approxEq, decide_eq_false (Binary.not_abs_lt_zero _), Bool.false_and]

end Value

end ComplexExpr
