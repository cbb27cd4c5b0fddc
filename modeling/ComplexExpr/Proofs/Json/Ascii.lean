import ComplexExpr.Proofs.Json.Number

/-!
# Settings files are ASCII

Whatever a value holds, its text in a settings file has ASCII characters alone
(`ascii_toChars`, by induction over the value): digits and words are ASCII by
themselves, and other characters in a text are written by hexadecimal digits.
-/

namespace ComplexExpr

namespace Text

/-- All characters are ASCII. -/
def Ascii (cs : List Char) : Prop := ∀ c ∈ cs, c.toNat < 0x80

-- not by the instance for all characters, which tries each of them
instance (cs : List Char) : Decidable (Ascii cs) := List.decidableBAll _ cs

@[simp] theorem ascii_nil : Ascii [] := List.forall_mem_nil _

@[simp] theorem ascii_cons {c : Char} {cs : List Char} :
    Ascii (c :: cs) ↔ c.toNat < 0x80 ∧ Ascii cs := List.forall_mem_cons

@[simp] theorem ascii_append {a b : List Char} : Ascii (a ++ b) ↔ Ascii a ∧ Ascii b :=
  List.forall_mem_append

end Text

namespace Json

open Text (Ascii ascii_cons ascii_append ascii_nil)

/-! ## Texts -/

theorem toNat_hexDigit : ∀ n < 16, (hexDigit n).toNat < 0x80 := by decide

theorem ascii_unitEscape (n : ℕ) : Ascii (unitEscape n) := by
  have hdigit (k : ℕ) : (hexDigit (k % 16)).toNat < 0x80 :=
    toNat_hexDigit _ (Nat.mod_lt k (by decide))
  simp [unitEscape, hdigit]

theorem ascii_unicodeText (c : Char) : Ascii (unicodeText c) := by
  unfold unicodeText
  dsimp only
  split
  · exact ascii_unitEscape _
  · exact ascii_append.2 ⟨ascii_unitEscape _, ascii_unitEscape _⟩

theorem ascii_charText (c : Char) : Ascii (charText c) := by
  fun_cases charText c with
  | case8 _ _ _ _ _ _ _ hplain =>
    exact ascii_cons.2 ⟨Nat.lt_succ_of_le (Nat.le_succ_of_le hplain.2), ascii_nil⟩
  | case9 => exact ascii_unicodeText c
  | _ => decide

theorem ascii_pointText (p : CodePoint) : Ascii (pointText p) := by
  cases p with
  | char c => exact ascii_charText c
  | surrogate k => exact ascii_unitEscape _

theorem ascii_quoted (s : WideText) : Ascii (quoted s) := by
  have hpoints : Ascii (s.flatMap pointText) := by
    intro c hc
    obtain ⟨p, -, hp⟩ := List.mem_flatMap.1 hc
    exact ascii_pointText p c hp
  simp [quoted, hpoints]

/-! ## Numbers -/

theorem ascii_numeral {n : Numeral} (h : n.WellFormed) : Ascii n.toChars := by
  refine h.forall_mem (fun c hc => ?_) (fun s => ?_) (by decide) (by decide)
  · unfold Char.isDigit at hc
    rw [Bool.and_eq_true, decide_eq_true_eq, decide_eq_true_eq] at hc
    exact Nat.lt_of_le_of_lt (UInt32.le_iff_toNat_le.1 hc.2) (by decide)
  · cases s <;> decide

theorem ascii_int (k : ℤ) : Ascii (toString k).toList := by
  rw [← toChars_wholeNumeral]
  exact ascii_numeral (wholeNumeral_strict k).wellFormed

theorem ascii_real (x : Float) : Ascii (Layout.data.write (Binary.ofFloat x)).toList := by
  by_cases hx : x.isFinite
  · obtain ⟨s, m, e, hparts⟩ := Binary.exists_hasParts hx
    obtain ⟨n, hn, htext, -⟩ := exists_strict_write .data hparts
    rw [← htext]
    exact ascii_numeral hn.wellFormed
  · change ¬x.toModel.unpack.isFinite at hx
    rw [Binary.ofFloat_eq]
    cases hu : x.toModel.unpack with
    | notANumber => decide
    | infinity s => cases s <;> decide
    | zero s => rw [hu] at hx; exact absurd rfl hx
    | finite s m e hm => rw [hu] at hx; exact absurd rfl hx

/-! ## Values -/

theorem ascii_newLine (depth : ℕ) : Ascii (newLine depth) := by
  refine ascii_cons.2 ⟨by decide, fun c hc => ?_⟩
  rw [List.eq_of_mem_replicate hc]
  decide

mutual

/-- The text of a value is ASCII, however many containers it is in. -/
theorem ascii_toChars (depth : ℕ) (v : Json) : Ascii (toChars depth v) := by
  cases v with
  | null => rw [toChars]; decide
  | bool b => rw [toChars]; cases b <;> decide
  | int n => rw [toChars]; exact ascii_int n
  | real x => rw [toChars]; exact ascii_real x
  | text s => rw [toChars]; exact ascii_quoted s
  | list vs =>
    cases vs with
    | nil => rw [toChars]; decide
    | cons v vs =>
      have hv := ascii_toChars (depth + 1) v
      have hvs := ascii_moreItems (depth + 1) vs
      simp [toChars, ascii_newLine, hv, hvs]
  | object ms =>
    cases ms with
    | nil => rw [toChars]; decide
    | cons m ms =>
      obtain ⟨k, v⟩ := m
      have hv := ascii_toChars (depth + 1) v
      have hms := ascii_moreMembers (depth + 1) ms
      simp [toChars, ascii_newLine, ascii_quoted, hv, hms]

theorem ascii_moreItems (depth : ℕ) (vs : List Json) : Ascii (moreItems depth vs) := by
  cases vs with
  | nil => rw [moreItems]; exact ascii_nil
  | cons v vs =>
    have hv := ascii_toChars depth v
    have hvs := ascii_moreItems depth vs
    simp [moreItems, ascii_newLine, hv, hvs]

theorem ascii_moreMembers (depth : ℕ) (ms : List (WideText × Json)) :
    Ascii (moreMembers depth ms) := by
  cases ms with
  | nil => rw [moreMembers]; exact ascii_nil
  | cons m ms =>
    obtain ⟨k, v⟩ := m
    have hv := ascii_toChars depth v
    have hms := ascii_moreMembers depth ms
    simp [moreMembers, ascii_newLine, ascii_quoted, hv, hms]

end

theorem ascii_write (v : Json) : Ascii v.write.toList := by
  rw [write, String.toList_ofList]
  exact ascii_toChars 0 v

end Json

end ComplexExpr
