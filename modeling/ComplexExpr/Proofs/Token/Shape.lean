import ComplexExpr.Proofs.Decimal.Numeral
import ComplexExpr.Token.Basic

/-!
# The shapes of tokens

`Token.HasShape` says, without reading anything, which texts have which shape:
the marks, the texts of plain numerals, and the names other than `i`. Every
token that has a shape in an expression is one of these, and has that shape
alone (`Token.shape_eq_iff`).
-/

namespace ComplexExpr.Token

/-- The shape of a token that may stand in an expression. -/
inductive HasShape : Token → Shape → Prop
  | opening : HasShape "(" .opening
  | closing : HasShape ")" .closing
  | comma : HasShape "," .comma
  | plus : HasShape "+" (.sign .plus)
  | minus : HasShape "-" (.sign .minus)
  | times : HasShape "*" .times
  | over : HasShape "/" .over
  | stars : HasShape "**" .power
  | caret : HasShape "^" .power
  | unit : HasShape "i" .unit
  | number {n : Numeral} : n.WellFormed → n.IsPlain → HasShape (String.ofList n.toChars) (.number n)
  | name {t : Token} : isName t.toList → t ≠ "i" → HasShape t .name

theorem mark?_of_numeric {c : Char} {cs : List Char} (h : c.isDigit ∨ c = '.') :
    mark? (c :: cs) = none := by
  unfold mark?
  split
  all_goals first
    | rfl
    | (rename_i heq; cases heq; revert h; decide)

theorem mark?_of_isName {cs : List Char} (h : isName cs) (hi : cs ≠ ['i']) : mark? cs = none := by
  unfold mark?
  split
  all_goals first
    | rfl
    | exact absurd rfl hi
    | (revert h; decide)

theorem not_numeric_of_isNameStart {c : Char} (h : Text.isNameStart c) :
    ¬(c.isDigit ∨ c = '.') := by
  rintro (hd | rfl)
  · rw [Text.not_isDigit_of_isNameStart h] at hd
    cases hd
  · exact absurd h (by decide)

theorem readPlain?_of_isName {cs : List Char} (h : isName cs) : Numeral.readPlain? cs = none := by
  rw [Option.eq_none_iff_forall_ne_some]
  intro n hn
  obtain ⟨⟨hw, hp⟩, rfl⟩ := Numeral.readPlain?_eq_some_iff.1 hn
  obtain ⟨c, cs, hc, hnum⟩ := hw.head_of_unsigned hp.1
  rw [hc, isName, Bool.and_eq_true] at h
  exact not_numeric_of_isNameStart h.1 hnum

theorem mark?_sound {t : Token} {s : Shape} (h : mark? t.toList = some s) : HasShape t s := by
  have ht : t = String.ofList t.toList := (String.ofList_toList).symm
  rw [ht]
  unfold mark? at h
  split at h
  all_goals first
    | (cases h; rename_i heq; rw [heq]; constructor)
    | cases h

theorem HasShape.shape {t : Token} {s : Shape} (h : HasShape t s) : shape t = s := by
  cases h with
  | @number n hw hp =>
    obtain ⟨c, cs, hc, hnum⟩ := hw.head_of_unsigned hp.1
    have hr := Numeral.readPlain?_eq_some_iff.2 ⟨⟨hw, hp⟩, rfl⟩
    simp only [Token.shape, shapeOf, String.toList_ofList, hr]
    rw [hc, mark?_of_numeric hnum]
  | name hn hi =>
    have hne : t.toList ≠ ['i'] := fun h => hi (by rw [← String.ofList_toList (s := t), h])
    simp only [Token.shape, shapeOf, mark?_of_isName hn hne, readPlain?_of_isName hn, hn, if_true]
  | _ => simp [Token.shape, shapeOf, mark?]

/-- A token has a shape other than `other` iff it is a text of that shape. -/
theorem shape_eq_iff {t : Token} {s : Shape} (hs : s ≠ .other) : shape t = s ↔ HasShape t s := by
  refine ⟨?_, HasShape.shape⟩
  rintro rfl
  unfold shape shapeOf at hs ⊢
  split
  next s hm => exact mark?_sound hm
  next hm =>
    split
    next n hn =>
      obtain ⟨⟨hw, hp⟩, ht⟩ := Numeral.readPlain?_eq_some_iff.1 hn
      have := HasShape.number hw hp
      rwa [ht, String.ofList_toList] at this
    next hn =>
      simp only [hm, hn] at hs
      split
      next hname =>
        refine .name hname fun h => ?_
        subst h
        simp [mark?] at hm
      next hname => simp [hname] at hs

end ComplexExpr.Token
