import ComplexExpr.Proofs.Decimal.Numeral
import ComplexExpr.Value.Literal
import Mathlib.Data.List.Chain

/-!
# Where a literal is split

A literal is split before its last sign that neither opens it nor belongs to a
power of ten. Said of neighbours: a text has no such sign iff every sign in it
that has a neighbour on its left has the marker of a power of ten there
(`splitParts_eq_none_iff`), and a numeral has none (`splitParts_toChars`). A
split text breaks into a part that ends in no marker and a part that opens with
a sign and has no place to be split (`breaks_of_splitParts`). Two such parts are
split where they meet (`splitParts_append`), as two numerals are of which the
second has a sign.
-/

namespace ComplexExpr

/-- Two neighbours between which no part of a literal begins. -/
def Bound (c d : Char) : Prop := (Sign.ofChar? d).isSome → PowerOfTen.isMarker c

instance (c d : Char) : Decidable (Bound c d) := inferInstanceAs (Decidable (_ → _))

theorem bound_of_not_sign {c d : Char} (h : Sign.ofChar? d = none) : Bound c d := by
  intro hd
  rw [h] at hd
  cases hd

theorem bound_of_isMarker {c d : Char} (h : PowerOfTen.isMarker c) : Bound c d := fun _ => h

theorem isChain_bound {cs : List Char} (h : ∀ c ∈ cs, Sign.ofChar? c = none) : cs.IsChain Bound := by
  induction cs with
  | nil => exact .nil
  | cons c cs ih =>
    refine (ih fun d hd => h d (List.mem_cons_of_mem _ hd)).cons fun d hd => ?_
    exact bound_of_not_sign (h d (List.mem_cons_of_mem _ (List.mem_of_mem_head? hd)))

namespace Value

theorem splitParts_eq_none_iff {cs : List Char} : splitParts cs = none ↔ cs.IsChain Bound := by
  induction cs with
  | nil => exact ⟨fun _ => .nil, fun _ => rfl⟩
  | cons c cs ih =>
    rw [splitParts.eq_def, List.isChain_cons]
    dsimp only
    cases hs : splitParts cs with
    | some p =>
      rw [hs] at ih
      exact ⟨fun h => by simp at h, fun h => absurd (ih.2 h.2) (by simp)⟩
    | none =>
      rw [hs] at ih
      have hc := ih.1 rfl
      cases cs with
      | nil => exact ⟨fun _ => ⟨fun _ h => (nomatch h), hc⟩, fun _ => rfl⟩
      | cons d cs =>
        dsimp only
        split
        next hd =>
          rw [Bool.and_eq_true, Bool.not_eq_true'] at hd
          refine ⟨fun h => (nomatch h), fun h => ?_⟩
          have hm : PowerOfTen.isMarker c = true := h.1 d rfl hd.1
          rw [hd.2] at hm
          cases hm
        next hd =>
          refine ⟨fun _ => ⟨fun e he => ?_, hc⟩, fun _ => rfl⟩
          cases he
          intro hsign
          rw [hsign, Bool.true_and, Bool.not_eq_true', Bool.not_eq_false] at hd
          exact hd

/-- A part begins between the two texts. -/
def Breaks (a b : List Char) : Prop := ∃ c ∈ a.getLast?, ∃ d ∈ b.head?, ¬Bound c d

theorem not_bound_iff {c d : Char} :
    ¬Bound c d ↔ (Sign.ofChar? d).isSome = true ∧ PowerOfTen.isMarker c = false := by
  rw [Bound, Classical.not_imp, Bool.not_eq_true]

theorem splitParts_append {a b : List Char} (h : Breaks a b) (hb : splitParts b = none) :
    splitParts (a ++ b) = some (a, b) := by
  induction a with
  | nil =>
    obtain ⟨c, hc, -⟩ := h
    cases hc
  | cons c a ih =>
    rw [List.cons_append, splitParts.eq_def]
    dsimp only
    cases a with
    | nil =>
      obtain ⟨c', hc, d, hd, hbreak⟩ := h
      obtain rfl : c = c' := Option.some.inj hc
      cases b with
      | nil => cases hd
      | cons e b =>
        obtain rfl : e = d := Option.some.inj hd
        obtain ⟨hsign, hmark⟩ := not_bound_iff.1 hbreak
        rw [List.nil_append, hb]
        simp only [hsign, hmark, Bool.not_false, Bool.and_self, if_true]
    | cons c' a =>
      have hrest : Breaks (c' :: a) b := by
        obtain ⟨e, he, hbreak⟩ := h
        exact ⟨e, by rwa [List.getLast?_cons_cons] at he, hbreak⟩
      rw [ih hrest]

theorem breaks_of_splitParts {cs a b : List Char} (h : splitParts cs = some (a, b)) :
    a ++ b = cs ∧ Breaks a b ∧ splitParts b = none := by
  induction cs generalizing a b with
  | nil => cases h
  | cons c cs ih =>
    rw [splitParts.eq_def] at h
    dsimp only at h
    cases hs : splitParts cs with
    | some p =>
      obtain ⟨a₀, b₀⟩ := p
      obtain ⟨rfl, ⟨e, he, hbreak⟩, hnone⟩ := ih hs
      rw [hs] at h
      cases h
      refine ⟨rfl, ⟨e, ?_, hbreak⟩, hnone⟩
      cases a₀ with
      | nil => cases he
      | cons c' a₀ => rwa [List.getLast?_cons_cons]
    | none =>
      rw [hs] at h
      cases cs with
      | nil => cases h
      | cons d cs =>
        dsimp only at h
        split at h
        next hd =>
          cases h
          rw [Bool.and_eq_true, Bool.not_eq_true'] at hd
          exact ⟨rfl, ⟨c, rfl, d, rfl, not_bound_iff.2 hd⟩, hs⟩
        next => cases h

/-! ## Numerals -/

theorem not_sign_of_isDigit {c : Char} (h : c.isDigit) : Sign.ofChar? c = none :=
  Sign.ofChar?_eq_none.2 ⟨(Text.ne_of_isDigit h).1, (Text.ne_of_isDigit h).2.1⟩

theorem isChain_powerText {p : Option PowerOfTen} (h : ∀ q ∈ p, q.WellFormed) :
    (PowerOfTen.text p).IsChain Bound := by
  cases p with
  | none => exact .nil
  | some p =>
    have hdigits : ∀ c ∈ p.digits, Sign.ofChar? c = none := fun c hc =>
      not_sign_of_isDigit ((h p rfl).digits c hc)
    have hmark : PowerOfTen.isMarker (if p.capital then 'E' else 'e') := by
      cases p.capital <;> rfl
    rw [PowerOfTen.text, PowerOfTen.toChars_eq]
    refine List.IsChain.cons ?_ fun d _ => bound_of_isMarker hmark
    cases p.sign with
    | none => exact isChain_bound hdigits
    | some s =>
      refine (isChain_bound hdigits).cons fun d hd => ?_
      exact bound_of_not_sign (hdigits d (List.mem_of_mem_head? hd))

/-- The digits of a numeral, its point among them, hold no sign. -/
theorem not_sign_of_mem_digits {n : Numeral} (h : n.WellFormed) {c : Char}
    (hc : c ∈ n.whole ++ Numeral.fractionText n.fraction) : Sign.ofChar? c = none := by
  rcases List.mem_append.1 hc with hc | hc
  · exact not_sign_of_isDigit (h.whole c hc)
  · cases hf : n.fraction with
    | none => rw [hf] at hc; cases hc
    | some ds =>
      rw [hf] at hc
      rcases List.mem_cons.1 hc with rfl | hc
      · rfl
      · exact not_sign_of_isDigit (h.fraction ds hf c hc)

/-- A numeral has no place to be split. -/
theorem splitParts_toChars {n : Numeral} (h : n.WellFormed) : splitParts n.toChars = none := by
  have hbody : (n.whole ++ Numeral.fractionText n.fraction ++ PowerOfTen.text n.power).IsChain
      Bound := by
    refine (isChain_bound fun c hc => not_sign_of_mem_digits h hc).append
      (isChain_powerText h.power) fun c _ d hd => bound_of_not_sign ?_
    cases hp : n.power with
    | none => rw [hp] at hd; cases hd
    | some p =>
      rw [hp, PowerOfTen.text, PowerOfTen.toChars_eq] at hd
      cases hd
      cases p.capital <;> rfl
  rw [splitParts_eq_none_iff, Numeral.toChars_eq, ← List.append_assoc n.whole]
  cases hs : n.sign with
  | none => exact hbody
  | some s =>
    refine hbody.cons fun d hd => bound_of_not_sign ?_
    have hstop := Numeral.stops_digitsText h (PowerOfTen.text n.power)
    rw [← List.append_assoc] at hstop
    exact Option.isSome_eq_false_iff.1 (hstop d hd) |> Option.isNone_iff_eq_none.1

end Value

end ComplexExpr
