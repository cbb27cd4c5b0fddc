import ComplexExpr.Proofs.Token.Scan
import ComplexExpr.Proofs.Token.Shape

/-!
# Lexemes with blanks around them

`spread gaps ts` writes lexemes one after another with runs of blanks around
them. A lexeme is read back if the character that follows it does not go on
with it (`Lexeme.longest`); a blank goes on with none, so that blanks are only
needed between lexemes that would merge:

* `scan_spread`: lexemes are scanned from a text in which no two of them merge;
* `tokenize_spread`: the same for strings.
-/

namespace ComplexExpr.Token

open Text (isBlank isNameStart isNameChar Stops stops_cons takeWhile_run dropWhile_run)

/-- A run of blanks, which may be empty. -/
structure Blanks where
  chars : List Char
  blank : ∀ c ∈ chars, isBlank c

/-- Lexemes one after another. Before each stands the run of blanks with its number, and the next
run stands at the end. -/
def spread (gaps : ℕ → Blanks) : List (List Char) → List Char
  | [] => (gaps 0).chars
  | t :: ts => (gaps 0).chars ++ (t ++ spread (fun i => gaps (i + 1)) ts)

/-- No blanks. -/
def Blanks.none : Blanks := ⟨[], List.forall_mem_nil _⟩

theorem spread_none (ts : List (List Char)) : spread (fun _ => .none) ts = ts.flatten := by
  induction ts with
  | nil => rfl
  | cons t ts ih => rw [spread, ih, List.flatten_cons]; rfl

/-- The character goes on with the lexeme before it. A point does so after an integer: a digit
comes after it then, or it opens no lexeme. -/
inductive Adheres : List Char → Char → Prop
  | name {c cs d} (hc : isNameStart c) (hcs : ∀ d ∈ cs, isNameChar d) (hd : isNameChar d) :
    Adheres (c :: cs) d
  | integer {ds d} (hds : Digits ds) (hne : ds ≠ []) (hd : d.isDigit ∨ d = '.') : Adheres ds d
  | decimal {ds fs d} (hds : Digits ds) (hne : ds ≠ []) (hf : Digits fs) (hfne : fs ≠ [])
    (hd : d.isDigit) : Adheres (ds ++ '.' :: fs) d
  | fraction {fs d} (hf : Digits fs) (hfne : fs ≠ []) (hd : d.isDigit) : Adheres ('.' :: fs) d
  | star : Adheres ['*'] '*'

/-- With nothing between them, the two lexemes are not read as they are. -/
def Merges (a b : List Char) : Prop := ∃ c ∈ b.head?, Adheres a c

/-- A token that may stand in an expression is a lexeme. -/
theorem HasShape.lexeme {t : Token} {s : Shape} (h : HasShape t s) : Lexeme t.toList := by
  cases h with
  | @number n hw hp =>
    obtain ⟨sign, whole, fraction, power⟩ := n
    obtain ⟨rfl, hfraction, rfl⟩ : sign = none ∧ fraction ≠ some [] ∧ power = none := hp
    rw [String.toList_ofList]
    cases fraction with
    | none =>
      have hne : whole ≠ [] := hw.hasDigit.resolve_right fun h => h rfl
      simpa [Numeral.toChars] using Lexeme.integer hw.whole hne
    | some ds =>
      have hds : Digits ds := hw.fraction ds rfl
      have hne : ds ≠ [] := fun h => hfraction (congrArg some h)
      by_cases hwhole : whole = []
      · simpa [Numeral.toChars, hwhole] using Lexeme.fraction hds hne
      · simpa [Numeral.toChars] using Lexeme.decimal hw.whole hwhole hds hne
  | @name t hn hi =>
    cases hc : t.toList with
    | nil => rw [hc] at hn; cases hn
    | cons c cs =>
      rw [hc, isName, Bool.and_eq_true, List.all_eq_true] at hn
      exact .name hn.1 hn.2
  | unit => exact .name (by decide) (by simp)
  | stars => exact .stars
  | _ => exact .mark (by decide)

variable {a rest : List Char}

theorem Adheres.not_blank {c : Char} (h : Adheres a c) : isBlank c = false := by
  cases h with
  | name _ _ hd => exact not_isBlank_of_legal (.inl hd)
  | integer _ _ hd =>
    rcases hd with hd | rfl
    · exact not_isBlank_of_legal (.inl (Text.isNameChar_of_isDigit hd))
    · decide
  | decimal _ _ _ _ hd => exact not_isBlank_of_legal (.inl (Text.isNameChar_of_isDigit hd))
  | fraction _ _ hd => exact not_isBlank_of_legal (.inl (Text.isNameChar_of_isDigit hd))
  | star => decide

/-- What goes on with a lexeme goes on with a name, with digits or a point, or with a star. -/
theorem Adheres.head {c : Char} (h : Adheres a c) : ∃ d ∈ a.head?,
    isNameStart d ∨ ((d.isDigit ∨ d = '.') ∧ (c.isDigit ∨ c = '.')) ∨ d = '*' := by
  cases h with
  | name hc _ _ => exact ⟨_, rfl, .inl hc⟩
  | integer hds hne hd =>
    obtain ⟨d, ds, rfl⟩ := List.exists_cons_of_ne_nil hne
    exact ⟨d, rfl, .inr (.inl ⟨.inl (hds d List.mem_cons_self), hd⟩)⟩
  | decimal hds hne _ _ hd =>
    obtain ⟨d, ds, rfl⟩ := List.exists_cons_of_ne_nil hne
    exact ⟨d, rfl, .inr (.inl ⟨.inl (hds d List.mem_cons_self), .inl hd⟩)⟩
  | fraction _ _ hd => exact ⟨'.', rfl, .inr (.inl ⟨.inr rfl, .inl hd⟩)⟩
  | star => exact ⟨'*', rfl, .inr (.inr rfl)⟩

/-! ## One lexeme -/

/-- Digits alone are taken as a number if neither a digit nor a point follows. -/
theorem spanNumber_integer {ds : List Char} (hd : Digits ds) (hr : Stops Char.isDigit rest)
    (hpoint : ∀ fs, rest ≠ '.' :: fs) : spanNumber (ds ++ rest) = (ds, rest) := by
  unfold spanNumber
  -- `hpoint` decides the match on a point
  simp only [takeWhile_run hd hr, dropWhile_run hd hr]

/-- No character of a class follows if none that follows adheres. -/
theorem stops_of_not_adheres {p : Char → Bool} (hr : ∀ c ∈ rest.head?, ¬Adheres a c)
    (h : ∀ c, p c → Adheres a c) : Stops p rest :=
  fun c hc => Bool.eq_false_iff.2 fun hp => hr c hc (h c hp)

theorem Lexeme.lexeme? (h : Lexeme a) (hr : ∀ c ∈ rest.head?, ¬Adheres a c) :
    lexeme? (a ++ rest) = some (a, rest) := by
  cases h with
  | @name c cs hc hcs =>
    have hstop := stops_of_not_adheres hr fun d => Adheres.name hc hcs
    rw [List.cons_append, lexeme?_name hc, takeWhile_run hcs hstop, dropWhile_run hcs hstop]
  | integer hd hne =>
    have hstop := stops_of_not_adheres hr fun d h => Adheres.integer hd hne (.inl h)
    have hpoint (fs : List Char) : rest ≠ '.' :: fs := fun h =>
      hr '.' (by rw [h]; rfl) (.integer hd hne (.inr rfl))
    have hspan := spanNumber_integer hd hstop hpoint
    obtain ⟨c, ds, rfl⟩ := List.exists_cons_of_ne_nil hne
    rw [List.cons_append] at hspan ⊢
    rw [lexeme?_digit (hd c List.mem_cons_self), hspan]
  | decimal hd hne hf hfne =>
    have hstop := stops_of_not_adheres hr fun d => Adheres.decimal hd hne hf hfne
    have hspan := spanNumber_decimal hd hf hfne hstop
    obtain ⟨c, ds, rfl⟩ := List.exists_cons_of_ne_nil hne
    rw [List.append_assoc, List.cons_append, List.cons_append]
    rw [List.cons_append] at hspan
    rw [lexeme?_digit (hd c List.mem_cons_self), hspan]
  | fraction hf hfne =>
    exact lexeme?_point hf hfne (stops_of_not_adheres hr fun d => Adheres.fraction hf hfne)
  | stars => rfl
  | @mark c hc =>
    refine lexeme?_mark hc fun h rest' he => ?_
    subst h he
    exact hr '*' rfl .star

/-- A lexeme that nothing adheres to is the longest at its place. -/
theorem Lexeme.longest (h : Lexeme a) (hr : ∀ c ∈ rest.head?, ¬Adheres a c) :
    Longest a (a ++ rest) :=
  (lexeme?_eq_some_iff.1 (h.lexeme? hr)).2

/-! ## Rows of lexemes -/

/-- A text opens with a blank of its first run or, if that is empty, with its first lexeme. -/
theorem head?_spread {gaps : ℕ → Blanks} {ts : List (List Char)} (ht : ∀ t ∈ ts, Lexeme t)
    {c : Char} (hc : c ∈ (spread gaps ts).head?) :
    isBlank c ∨ ((gaps 0).chars = [] ∧ ∃ t ∈ ts.head?, c ∈ t.head?) := by
  cases hg : (gaps 0).chars with
  | cons b bs =>
    refine .inl ((gaps 0).blank c ?_)
    have hb : c = b := by
      cases ts <;> simp only [spread, hg, List.cons_append, List.head?_cons, Option.mem_def,
        Option.some.injEq] at hc <;> exact hc.symm
    rw [hg, hb]
    exact List.mem_cons_self
  | nil =>
    refine .inr ⟨rfl, ?_⟩
    cases ts with
    | nil => rw [spread, hg] at hc; cases hc
    | cons t ts =>
      obtain ⟨d, ds, hd⟩ := List.exists_cons_of_ne_nil (ht t List.mem_cons_self).ne_nil
      rw [spread, hg, hd] at hc
      exact ⟨t, rfl, by rw [hd]; exact hc⟩

/-- Lexemes with blanks around them are cut apart if none of them merges with the next. -/
theorem cut_spread {gaps : ℕ → Blanks} {ts : List (List Char)} (ht : ∀ t ∈ ts, Lexeme t)
    (hg : ∀ i (h : i + 1 < ts.length), (gaps (i + 1)).chars = [] → ¬Merges ts[i] ts[i + 1]) :
    Cut (spread gaps ts) ts := by
  induction ts generalizing gaps with
  | nil => exact .blanks (gaps 0).blank
  | cons t ts ih =>
    have hts : ∀ u ∈ ts, Lexeme u := fun u hu => ht u (List.mem_cons_of_mem t hu)
    refine .token (gaps 0).blank ((ht t List.mem_cons_self).longest fun c hc had => ?_)
      (ih hts fun i h => hg (i + 1) (Nat.succ_lt_succ h))
    obtain hb | ⟨hnil, u, hu, hcu⟩ := head?_spread hts hc
    · rw [had.not_blank] at hb
      cases hb
    · cases ts with
      | nil => cases hu
      | cons v ts =>
        cases hu
        exact hg 0 (by simp) hnil ⟨c, hcu, had⟩

theorem scan_spread {gaps : ℕ → Blanks} {ts : List (List Char)} (ht : ∀ t ∈ ts, Lexeme t)
    (hg : ∀ i (h : i + 1 < ts.length), (gaps (i + 1)).chars = [] → ¬Merges ts[i] ts[i + 1]) :
    scan (spread gaps ts) = .ok ts :=
  (cut_spread ht hg).scan

theorem tokenize_spread {gaps : ℕ → Blanks} {ts : List Token}
    (ht : ∀ t ∈ ts, Lexeme t.toList)
    (hg : ∀ i (h : i + 1 < ts.length), (gaps (i + 1)).chars = [] →
      ¬Merges ts[i].toList ts[i + 1].toList) :
    tokenize (String.ofList (spread gaps (ts.map String.toList))) = .ok ts := by
  have hscan : scan (spread gaps (ts.map String.toList)) = .ok (ts.map String.toList) := by
    refine scan_spread (by simpa using ht) fun i h => ?_
    simpa using hg i (by simpa using h)
  have hid : String.ofList ∘ String.toList = id := funext fun _ => String.ofList_toList
  rw [tokenize, String.toList_ofList, hscan]
  simp only [List.map_map, hid, List.map_id]

end ComplexExpr.Token
