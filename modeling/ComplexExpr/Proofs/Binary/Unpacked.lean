import ComplexExpr.Decimal.Binary
import ComplexExpr.Proofs.Binary.Rounding

/-!
# The parts of doubles

Arithmetic takes doubles apart, computes and rounds, and packs the result.
What it takes apart are canonical mantissas and exponents
(`canonical_of_unpack`), the same that `Binary.ofFloat` gives (`ofFloat_eq`),
and what is packed from such is taken apart into them again (`unpack_pack`). A
double is determined by what it is taken apart into, and there is one that is
not a number (`eq_of_unpack`).
-/

namespace ComplexExpr.Binary

open Float.Model (Format UnpackedFloat)
open Float.Model.UnpackedFloat (unpackMantissa unpackExponent unpackSign packComponents
  unpackMantissa_packComponents unpackExponent_packComponents)

/-! ## Fields of bits -/

theorem toNat_unpackMantissa (b : BitVec 64) :
    (@unpackMantissa .binary64 b).toNat = b.toNat % 2 ^ 52 := by
  simp [unpackMantissa]

theorem toNat_unpackExponent (b : BitVec 64) :
    (@unpackExponent .binary64 b).toNat = b.toNat / 2 ^ 52 % 2 ^ 11 := by
  simp [unpackExponent, Nat.shiftRight_eq_div_pow]

theorem unpackMantissa_eq_iff (b : BitVec 64) (f : BitVec 52) :
    @unpackMantissa .binary64 b = f ↔ b.toNat % 2 ^ 52 = f.toNat := by
  rw [← toNat_unpackMantissa]
  exact BitVec.toNat_inj.symm

theorem unpackExponent_eq_iff (b : BitVec 64) (k : BitVec 11) :
    @unpackExponent .binary64 b = k ↔ b.toNat / 2 ^ 52 % 2 ^ 11 = k.toNat := by
  rw [← toNat_unpackExponent]
  exact BitVec.toNat_inj.symm

/-- The bit above the mantissa is not stored. -/
theorem toNat_hidden_bit (b : BitVec 64) :
    (1#1 ++ @unpackMantissa .binary64 b).toNat = 2 ^ 52 + b.toNat % 2 ^ 52 := by
  have hlt := (@unpackMantissa .binary64 b).isLt
  rw [BitVec.toNat_append, ← Nat.shiftLeft_add_eq_or_of_lt hlt, toNat_unpackMantissa]
  rfl

theorem toNat_unpackSign (b : BitVec 64) :
    (@unpackSign .binary64 b).toNat = b.toNat / 2 ^ 63 := by
  have hb := b.isLt
  show b.toNat >>> 63 % 2 ^ 1 = _
  rw [Nat.shiftRight_eq_div_pow]
  omega

theorem toNat_packComponents (s : UnpackedFloat.Sign) (e : BitVec 11) (m : BitVec 52) :
    (packComponents .binary64 s e m).toNat =
      s.toBitVec.toNat * 2 ^ 63 + e.toNat * 2 ^ 52 + m.toNat := by
  have he := e.isLt
  have hm := m.isLt
  show ((s.toBitVec ++ e) ++ m).toNat = _
  rw [BitVec.toNat_append, BitVec.toNat_append, ← Nat.shiftLeft_add_eq_or_of_lt hm,
    ← Nat.shiftLeft_add_eq_or_of_lt he, Nat.shiftLeft_eq, Nat.shiftLeft_eq]
  omega

theorem unpackSign_packComponents (s : UnpackedFloat.Sign) (e : BitVec 11) (m : BitVec 52) :
    @unpackSign .binary64 (packComponents .binary64 s e m) = s.toBitVec := by
  have he := e.isLt
  have hm := m.isLt
  refine BitVec.eq_of_toNat_eq ((toNat_unpackSign _).trans ?_)
  rw [toNat_packComponents]
  omega

theorem sign_ofBitVec_toBitVec (s : UnpackedFloat.Sign) :
    UnpackedFloat.Sign.ofBitVec s.toBitVec = s := by
  cases s <;> rfl

/-! ## Taking apart -/

/-- The sign as `Binary` has it. -/
def isNegative : UnpackedFloat.Sign → Bool
  | .negative => true
  | .positive => false

/-- What arithmetic takes a double apart into, as `Binary` has it. -/
def ofUnpacked : UnpackedFloat → Binary
  | .notANumber => .nan
  | .infinity s => .infinite (isNegative s)
  | .zero s => .finite (isNegative s) 0 (-1074)
  | .finite s m e _ => .finite (isNegative s) m e

theorem isNegative_unpackSign (b : BitVec 64) :
    isNegative (.ofBitVec (@unpackSign .binary64 b)) = decide (2 ^ 63 ≤ b.toNat) := by
  have hsign := toNat_unpackSign b
  have hb := b.isLt
  by_cases h : 2 ^ 63 ≤ b.toNat
  · have hone : @unpackSign .binary64 b = 1#1 := BitVec.eq_of_toNat_eq (by rw [hsign]; simp; omega)
    rw [hone, decide_eq_true h]
    rfl
  · have hzero : @unpackSign .binary64 b = 0#1 := BitVec.eq_of_toNat_eq (by rw [hsign]; simp; omega)
    rw [hzero, decide_eq_false h]
    rfl

/-- The fields of a double's bits taken apart. -/
def ofFields (s : UnpackedFloat.Sign) (k f : ℕ) : UnpackedFloat :=
  if k = 2047 then if f = 0 then .infinity s else .notANumber
  else if k = 0 then if h : f = 0 then .zero s else .finite s f (-1074) (Nat.pos_of_ne_zero h)
  else .finite s (2 ^ 52 + f) (k - 1075) (Nat.add_pos_left (by decide) f)

theorem finite_congr {s : UnpackedFloat.Sign} {m m' : ℕ} {e e' : ℤ} {h : 0 < m} {h' : 0 < m'}
    (hm : m = m') (he : e = e') : UnpackedFloat.finite s m e h = .finite s m' e' h' := by
  subst hm he
  rfl

theorem unpack_eq (b : BitVec 64) :
    UnpackedFloat.unpack .binary64 b =
      ofFields (.ofBitVec (@unpackSign .binary64 b)) (b.toNat / 2 ^ 52 % 2 ^ 11)
        (b.toNat % 2 ^ 52) := by
  have hf := unpackMantissa_eq_iff b 0#52
  have hk := unpackExponent_eq_iff b
  unfold UnpackedFloat.unpack ofFields
  dsimp only
  by_cases hones : b.toNat / 2 ^ 52 % 2 ^ 11 = 2047
  · rw [if_pos hones, if_pos ((hk (-1#11)).2 hones)]
    by_cases h0 : b.toNat % 2 ^ 52 = 0
    · rw [if_pos h0, if_pos (hf.2 h0)]
    · rw [if_neg h0, if_neg (mt hf.1 h0)]
  · rw [if_neg hones, if_neg (mt (hk (-1#11)).1 hones)]
    by_cases hzeros : b.toNat / 2 ^ 52 % 2 ^ 11 = 0
    · rw [if_pos hzeros, if_pos ((hk 0#11).2 hzeros)]
      by_cases h0 : b.toNat % 2 ^ 52 = 0
      · rw [dif_pos h0, dif_pos (hf.2 h0)]
      · rw [dif_neg h0, dif_neg (mt hf.1 h0)]
        refine finite_congr (toNat_unpackMantissa b) ?_
        rw [toNat_unpackExponent, hzeros]
        rfl
    · rw [if_neg hzeros, if_neg (mt (hk 0#11).1 hzeros)]
      refine finite_congr (toNat_hidden_bit b) ?_
      rw [toNat_unpackExponent]
      rfl

theorem ofUnpacked_ofFields (s : UnpackedFloat.Sign) (k f : ℕ) :
    ofUnpacked (ofFields s k f) =
      if k = 2047 then if f = 0 then .infinite (isNegative s) else .nan
      else if k = 0 then .finite (isNegative s) f (-1074)
      else .finite (isNegative s) (2 ^ 52 + f) (k - 1075) := by
  unfold ofFields
  by_cases hk : k = 2047
  · rw [if_pos hk, if_pos hk]
    by_cases hf : f = 0
    · rw [if_pos hf, if_pos hf]
      rfl
    · rw [if_neg hf, if_neg hf]
      rfl
  · rw [if_neg hk, if_neg hk]
    by_cases hzero : k = 0
    · rw [if_pos hzero, if_pos hzero]
      by_cases hf : f = 0
      · rw [dif_pos hf, hf]
        rfl
      · rw [dif_neg hf]
        rfl
    · rw [if_neg hzero, if_neg hzero]
      rfl

/-- `Binary` and arithmetic take a double apart in the same way. -/
theorem ofFloat_eq (x : Float) : ofFloat x = ofUnpacked x.toModel.unpack := by
  show ofBits x.toModel.toBits.toBitVec.toNat =
    ofUnpacked (.unpack .binary64 x.toModel.toBits.toBitVec)
  rw [unpack_eq, ofUnpacked_ofFields, isNegative_unpackSign]
  rfl

/-- The finite doubles other than zero are taken apart into canonical parts. -/
theorem canonical_of_unpack {x : Float.Model} {s : UnpackedFloat.Sign} {m : ℕ} {e : ℤ} {hm : 0 < m}
    (h : x.unpack = .finite s m e hm) : Canonical m e := by
  have hparts : ofUnpacked (.unpack .binary64 x.toBits.toBitVec) = .finite (isNegative s) m e :=
    congrArg ofUnpacked h
  rw [unpack_eq, ofUnpacked_ofFields] at hparts
  split at hparts
  · split at hparts <;> cases hparts
  · split at hparts
    · injection hparts with _ hf he
      exact ⟨hm, by omega, by omega, by omega, .inl he.symm⟩
    · injection hparts with _ hf he
      exact ⟨hm, by omega, by omega, by omega, .inr (by omega)⟩

/-! ## Packing -/

theorem unpack_pack_zero (s : UnpackedFloat.Sign) :
    (Float.Model.pack (.zero s)).unpack = .zero s := by
  cases s <;> rfl

/-- The fields that were packed are taken out again. -/
theorem unpack_packComponents (s : UnpackedFloat.Sign) {k f : ℕ} (hk : k < 2 ^ 11)
    (hf : f < 2 ^ 52) :
    UnpackedFloat.unpack .binary64 (packComponents .binary64 s (.ofNat 11 k) (.ofNat 52 f)) =
      ofFields s k f := by
  have htoNat := toNat_packComponents s (.ofNat 11 k) (.ofNat 52 f)
  rw [BitVec.toNat_ofNat, BitVec.toNat_ofNat, Nat.mod_eq_of_lt hk, Nat.mod_eq_of_lt hf] at htoNat
  rw [unpack_eq, unpackSign_packComponents, sign_ofBitVec_toBitVec, htoNat]
  congr 1 <;> omega

/-- Of a mantissa with too many bits the lower ones are packed. -/
theorem unpack_packComponents_mod (s : UnpackedFloat.Sign) {k : ℕ} (hk : k < 2 ^ 11) (m : ℕ) :
    UnpackedFloat.unpack .binary64 (packComponents .binary64 s (.ofNat 11 k) (.ofNat 52 m)) =
      ofFields s k (m % 2 ^ 52) := by
  have hm : BitVec.ofNat 52 m = BitVec.ofNat 52 (m % 2 ^ 52) := by
    refine BitVec.eq_of_toNat_eq ?_
    rw [BitVec.toNat_ofNat, BitVec.toNat_ofNat, Nat.mod_mod]
  rw [hm, unpack_packComponents s hk (Nat.mod_lt _ (by decide))]

theorem pack_finite (s : UnpackedFloat.Sign) (m : ℕ) (e : ℤ) (h : 0 < m) :
    UnpackedFloat.pack .binary64 (.finite s m e h) =
      if 2 ^ 11 ≤ (e + 1023 + 52).toNat + 1 then UnpackedFloat.packedInfinity .binary64 s
      else if m.log2 + 1 = 53 then
        packComponents .binary64 s (.ofNat 11 (e + 1023 + 52).toNat) (.ofNat 52 m)
      else packComponents .binary64 s (.ofNat 11 0) (.ofNat 52 m) := rfl

/-- A double is packed from its parts without loss. -/
theorem unpack_pack {m : ℕ} {e : ℤ} (hc : Canonical m e) (s : UnpackedFloat.Sign) :
    (Float.Model.pack (.finite s m e hc.pos)).unpack = .finite s m e hc.pos := by
  have hleast := hc.least
  have hmost := hc.most
  have hlt := hc.lt
  show UnpackedFloat.unpack .binary64 (UnpackedFloat.pack .binary64 (.finite s m e hc.pos)) = _
  rw [pack_finite, if_neg (by omega)]
  by_cases hn : 2 ^ 52 ≤ m
  · have hlog : m.log2 + 1 = 53 := by
      have h52 := (Nat.le_log2 hc.pos.ne').2 hn
      have h53 := (Nat.log2_lt hc.pos.ne').2 hlt
      omega
    have hbits : BitVec.ofNat 52 m = BitVec.ofNat 52 (m - 2 ^ 52) := by
      refine BitVec.eq_of_toNat_eq ?_
      rw [BitVec.toNat_ofNat, BitVec.toNat_ofNat]
      omega
    rw [if_pos hlog, hbits, unpack_packComponents s (by omega) (by omega), ofFields, if_neg (by omega),
      if_neg (by omega)]
    exact finite_congr (by omega) (by omega)
  · have hlog : ¬m.log2 + 1 = 53 := by
      have h52 := (Nat.log2_lt hc.pos.ne').2 (Nat.lt_of_not_le hn)
      omega
    have he : e = -1074 := hc.normal.resolve_right hn
    subst he
    rw [if_neg hlog, unpack_packComponents s (by decide) (Nat.lt_of_not_le hn), ofFields, if_neg (by decide),
      if_pos rfl, dif_neg hc.pos.ne']

/-! ## Telling doubles apart -/

/-- The fields that a number is packed into, unless it is none. -/
def fields? : UnpackedFloat → Option (UnpackedFloat.Sign × ℕ × ℕ)
  | .notANumber => none
  | .infinity s => some (s, 2047, 0)
  | .zero s => some (s, 0, 0)
  | .finite s m e _ =>
    if m < 2 ^ 52 then some (s, 0, m) else some (s, (e + 1075).toNat, m - 2 ^ 52)

theorem fields?_finite {s : UnpackedFloat.Sign} {m : ℕ} {e : ℤ} {h : 0 < m} :
    fields? (.finite s m e h) =
      if m < 2 ^ 52 then some (s, 0, m) else some (s, (e + 1075).toNat, m - 2 ^ 52) := rfl

theorem fields?_ofFields (s : UnpackedFloat.Sign) (k : ℕ) {f : ℕ} (hf : f < 2 ^ 52) :
    fields? (ofFields s k f) = if k = 2047 ∧ f ≠ 0 then none else some (s, k, f) := by
  unfold ofFields
  by_cases hk : k = 2047
  · rw [if_pos hk]
    by_cases h0 : f = 0
    · rw [if_pos h0, if_neg (fun h => h.2 h0), hk, h0]
      rfl
    · rw [if_neg h0, if_pos ⟨hk, h0⟩]
      rfl
  · have hnumber : ¬(k = 2047 ∧ f ≠ 0) := fun h => hk h.1
    rw [if_neg hnumber, if_neg hk]
    by_cases hzero : k = 0
    · rw [if_pos hzero]
      by_cases h0 : f = 0
      · rw [dif_pos h0, hzero, h0]
        rfl
      · rw [dif_neg h0, fields?_finite, if_pos hf, hzero]
    · have hexp : ((k : ℤ) - 1075 + 1075).toNat = k := by omega
      rw [if_neg hzero, fields?_finite, if_neg (Nat.not_lt.2 (Nat.le_add_right _ f)), hexp,
        Nat.add_sub_cancel_left]

/-- There is one double that is not a number. -/
theorem eq_packedNaN {b : BitVec 64} (hb : Format.binary64.Valid b)
    (h : b.toNat / 2 ^ 52 % 2 ^ 11 = 2047 ∧ b.toNat % 2 ^ 52 ≠ 0) :
    b = UnpackedFloat.packedNaN .binary64 := by
  exact hb.eq_packedNaN ((unpackExponent_eq_iff b _).2 h.1) fun hzero =>
    h.2 ((unpackMantissa_eq_iff b _).1 hzero)

/-- A double is determined by what it is taken apart into. -/
theorem eq_of_unpack {x y : Float} (h : x.toModel.unpack = y.toModel.unpack) : x = y := by
  obtain ⟨⟨⟨b⟩, hb⟩⟩ := x
  obtain ⟨⟨⟨c⟩, hc⟩⟩ := y
  replace h : UnpackedFloat.unpack .binary64 b = UnpackedFloat.unpack .binary64 c := h
  suffices b = c by subst this; rfl
  have hfields := congrArg fields? h
  rw [unpack_eq, unpack_eq, fields?_ofFields _ _ (Nat.mod_lt _ (by decide)),
    fields?_ofFields _ _ (Nat.mod_lt _ (by decide))] at hfields
  split at hfields
  next hnan =>
    split at hfields
    next hnan' => exact (eq_packedNaN hb hnan).trans (eq_packedNaN hc hnan').symm
    next => cases hfields
  next =>
    split at hfields
    next => cases hfields
    next =>
      simp only [Option.some.injEq, Prod.mk.injEq] at hfields
      obtain ⟨hsign, hexp, hfrac⟩ := hfields
      have hneg := congrArg isNegative hsign
      rw [isNegative_unpackSign, isNegative_unpackSign, decide_eq_decide] at hneg
      have hb := b.isLt
      have hc := c.isLt
      refine BitVec.eq_of_toNat_eq ?_
      change b.toNat < 2 ^ 64 at hb
      change c.toNat < 2 ^ 64 at hc
      omega

end ComplexExpr.Binary
