import ComplexExpr.Proofs.Token.Spacing
import Mathlib.Tactic.IntervalCases

/-!
# Lexemes that merge

`tokenize_spread` reads lexemes back from a text in which no two that touch
each other merge. Lexemes that do merge are never read back, whatever follows
them, since their text opens with a longer lexeme:

* `Merges.longer`: that longer lexeme;
* `merges_iff`: two lexemes merge iff the first is not what is taken off the
  front of the two;
* `cut_spread_iff`: a spread text is cut into its lexemes iff no two merge;
* `tokenize_spread_iff`: the same for strings, and with it that a text is read
  again from its tokens joined by single spaces.
-/

namespace ComplexExpr.Token

open Text (isBlank Stops stops_cons run_append_inj)

variable {a b rest : List Char}

/-- A lexeme that opens with a point is a point and digits. -/
theorem Lexeme.digits_of_point {cs : List Char} (h : Lexeme ('.' :: cs)) :
    Digits cs ∧ cs ≠ [] := by
  generalize ht : '.' :: cs = t at h
  have hdigit (h : '.'.isDigit) : Digits cs ∧ cs ≠ [] := absurd h (by decide)
  cases h with
  | name hc _ =>
    cases ht
    exact absurd hc (by decide)
  | integer hd _ =>
    subst ht
    exact hdigit (hd '.' List.mem_cons_self)
  | @decimal ds fs hd hne _ _ =>
    obtain ⟨d, ds, rfl⟩ := List.exists_cons_of_ne_nil hne
    cases ht
    exact hdigit (hd '.' List.mem_cons_self)
  | fraction hf hfne =>
    cases ht
    exact ⟨hf, hfne⟩
  | stars => cases ht
  | mark hc =>
    cases ht
    exact absurd hc (by decide)

theorem digits_snoc {ds : List Char} {d : Char} (hds : Digits ds) (hd : d.isDigit) :
    Digits (ds ++ [d]) := by
  intro c hc
  rcases List.mem_append.1 hc with hc | hc
  · exact hds c hc
  · exact List.mem_singleton.1 hc ▸ hd

/-- Two lexemes that merge open with a lexeme that is longer than the first. -/
theorem Merges.longer (h : Merges a b) (hb : Lexeme b) (rest : List Char) :
    ∃ u, Lexeme u ∧ u <+: a ++ (b ++ rest) ∧ a.length < u.length := by
  obtain ⟨d, hd, had⟩ := h
  obtain ⟨bs, rfl⟩ := List.head?_eq_some_iff.1 hd
  -- all but a fraction after an integer are longer by one character
  have hsnoc (hu : Lexeme (a ++ [d])) :
      ∃ u, Lexeme u ∧ u <+: a ++ (d :: bs ++ rest) ∧ a.length < u.length :=
    ⟨a ++ [d], hu, ⟨bs ++ rest, by simp⟩, by simp⟩
  cases had with
  | @name c cs _ hc hcs hd =>
    refine hsnoc (.name hc fun e he => ?_)
    rcases List.mem_append.1 he with he | he
    · exact hcs e he
    · exact List.mem_singleton.1 he ▸ hd
  | integer hds hne hd =>
    rcases hd with hd | rfl
    · exact hsnoc (.integer (digits_snoc hds hd) (by simp))
    · obtain ⟨hf, hfne⟩ := hb.digits_of_point
      exact ⟨a ++ '.' :: bs, .decimal hds hne hf hfne, ⟨rest, by simp⟩, by simp⟩
  | @decimal ds fs _ hds hne hf hfne hd =>
    apply hsnoc
    rw [List.append_assoc, List.cons_append]
    exact .decimal hds hne (digits_snoc hf hd) (by simp)
  | fraction hf hfne hd => exact hsnoc (.fraction (digits_snoc hf hd) (by simp))
  | star => exact hsnoc .stars

/-- Two lexemes merge iff more than the first, or less, is taken off the front of the two. -/
theorem merges_iff (ha : Lexeme a) (hb : Lexeme b) :
    Merges a b ↔ lexeme? (a ++ b) ≠ some (a, b) := by
  refine ⟨fun h htaken => ?_, fun h => Classical.not_not.1 fun hm => h ?_⟩
  · obtain ⟨u, hu, hfront, hlt⟩ := h.longer hb []
    rw [List.append_nil] at hfront
    have hle := (lexeme?_eq_some_iff.1 htaken).2.longest u hu hfront
    omega
  · exact ha.lexeme? fun c hc had => hm ⟨c, hc, had⟩

/-! ## Rows of lexemes -/

theorem Lexeme.stops_blank (h : Lexeme a) (rest : List Char) : Stops isBlank (a ++ rest) := by
  obtain ⟨c, cs, rfl⟩ := List.exists_cons_of_ne_nil h.ne_nil
  exact stops_cons.2 (h.not_blank List.mem_cons_self)

/-- Blanks, a lexeme and a text are cut as such only if the lexeme is the longest at its place. -/
theorem Cut.of_cons {bs : List Char} {ts : List (List Char)} (hbs : ∀ c ∈ bs, isBlank c)
    (h : Cut (bs ++ (a ++ rest)) (a :: ts)) : Longest a (a ++ rest) ∧ Cut rest ts := by
  generalize hcs : bs ++ (a ++ rest) = cs at h
  cases h with
  | @token bs' _ rest' _ hbs' hlong hrest =>
    have hstop := hlong.lexeme.stops_blank
    obtain ⟨-, hcut⟩ := run_append_inj hbs hbs' (hstop rest) (hstop rest') hcs
    rw [List.append_cancel_left hcut]
    exact ⟨hlong, hrest⟩

/-- Lexemes with blanks around them are cut apart iff none of them merges with the next. -/
theorem cut_spread_iff {gaps : ℕ → Blanks} {ts : List (List Char)} (ht : ∀ t ∈ ts, Lexeme t) :
    Cut (spread gaps ts) ts ↔ ∀ i a b, ts[i]? = some a → ts[i + 1]? = some b →
      (gaps (i + 1)).chars = [] → ¬Merges a b := by
  refine ⟨fun hcut => ?_, fun hg => cut_spread ht fun i h =>
    hg i _ _ (List.getElem?_eq_getElem (Nat.lt_of_succ_lt h)) (List.getElem?_eq_getElem h)⟩
  induction ts generalizing gaps with
  | nil => exact fun i a b ha => absurd ha (by simp)
  | cons t ts ih =>
    obtain ⟨hlong, hrest⟩ := hcut.of_cons (gaps 0).blank
    intro i a b ha hb hgap hm
    cases i with
    | zero =>
      obtain rfl : t = a := Option.some.inj ha
      cases ts with
      | nil => cases hb
      | cons u ts =>
        obtain rfl : u = b := Option.some.inj hb
        -- nothing stands between `t` and `u`, so that the longer lexeme stands where `t` does
        obtain ⟨v, hv, hfront, hlt⟩ :=
          hm.longer (ht u (by simp)) (spread (fun i => gaps (i + 2)) ts)
        have htext : spread (fun i => gaps (i + 1)) (u :: ts) =
            u ++ spread (fun i => gaps (i + 2)) ts := by
          show (gaps 1).chars ++ _ = _
          rw [hgap, List.nil_append]
        rw [htext] at hlong
        have hle := hlong.longest v hv hfront
        omega
    | succ i =>
      exact ih (fun u hu => ht u (List.mem_cons_of_mem t hu)) hrest i a b ha hb hgap hm

/-! ## Tokens of joined texts -/

theorem tokenize_eq_ok_iff {text : String} {ts : List Token} :
    tokenize text = .ok ts ↔ Cut text.toList (ts.map String.toList) := by
  have hid : String.ofList ∘ String.toList = id := funext fun _ => String.ofList_toList
  rw [← scan_eq_ok_iff, tokenize]
  cases scan text.toList with
  | error rest => simp
  | ok us =>
    simp only [Except.ok.injEq]
    refine ⟨?_, ?_⟩ <;> rintro rfl
    · simp [List.map_map, Function.comp_def]
    · rw [List.map_map, hid, List.map_id]

/-- A run of spaces. -/
def Blanks.spaces (n : ℕ) : Blanks :=
  ⟨.replicate n ' ', fun c hc => by rw [List.eq_of_mem_replicate hc]; decide⟩

/-- Single spaces between `n` lexemes, and no blanks around them. -/
def singleSpaces (n i : ℕ) : Blanks := .spaces (if 0 < i ∧ i < n then 1 else 0)

theorem intercalate_eq_spread (ts : List (List Char)) :
    [' '].intercalate ts = spread (singleSpaces ts.length) ts := by
  induction ts with
  | nil => rfl
  | cons t ts ih =>
    cases ts with
    | nil => simp [spread, singleSpaces, Blanks.spaces]
    | cons u ts =>
      have hgap (i : ℕ) : singleSpaces (t :: u :: ts).length (i + 1 + 1) =
          singleSpaces (u :: ts).length (i + 1) := by
        simp [singleSpaces]
      rw [List.intercalate_cons_cons, ih]
      simp only [spread, hgap]
      simp [singleSpaces, Blanks.spaces]

/-- A text of lexemes, with any blanks around them, is read as these lexemes iff no two that touch
each other merge. The tokens of a text, joined by single spaces, are read again. -/
theorem tokenize_spread_iff :
    (∀ (gaps : ℕ → Blanks) (ts : List Token), (∀ t ∈ ts, Lexeme t.toList) →
      (tokenize (String.ofList (spread gaps (ts.map String.toList))) = .ok ts ↔
        ∀ i a b, ts[i]? = some a → ts[i + 1]? = some b → (gaps (i + 1)).chars = [] →
          ¬Merges a.toList b.toList)) ∧
    ∀ (text : String) (ts : List Token), tokenize text = .ok ts →
      tokenize (" ".intercalate ts) = .ok ts := by
  refine ⟨fun gaps ts ht => ?_, fun text ts h => ?_⟩
  · have hlex : ∀ t ∈ ts.map String.toList, Lexeme t := List.forall_mem_map.2 ht
    rw [tokenize_eq_ok_iff, String.toList_ofList, cut_spread_iff hlex]
    simp only [List.getElem?_map, Option.map_eq_some_iff]
    constructor
    · exact fun hapart i a b ha hb => hapart i _ _ ⟨a, ha, rfl⟩ ⟨b, hb, rfl⟩
    · rintro hapart i _ _ ⟨a, ha, rfl⟩ ⟨b, hb, rfl⟩
      exact hapart i a b ha hb
  · have hlex : ∀ t ∈ ts.map String.toList, Lexeme t := fun t => (tokenize_eq_ok_iff.1 h).lexeme
    rw [tokenize_eq_ok_iff, String.toList_intercalate]
    show Cut ([' '].intercalate _) _
    rw [intercalate_eq_spread, cut_spread_iff hlex]
    intro i a b _ hb hgap
    have hi : i + 1 < (ts.map String.toList).length := (List.getElem?_eq_some_iff.1 hb).1
    rw [singleSpaces, if_pos ⟨Nat.succ_pos i, hi⟩] at hgap
    cases hgap

theorem lexeme_of_taken (h : lexeme? a = some (a, [])) : Lexeme a := lexeme_of_lexeme? h

/-- In `x 1.5.5***2 3` blanks stand where lexemes would merge, and only there. -/
theorem tokenize_spread_iff_touching :
    let ts : List Token := ["x", "1.5", ".5", "**", "*", "2", "3"]
    (∀ t ∈ ts, Lexeme t.toList) ∧ tokenize "x 1.5.5***2 3" = .ok ts ∧
      tokenize "x1.5.5***2 3" ≠ .ok ts ∧ tokenize "x 1.5.5***23" ≠ .ok ts ∧
      tokenize "x 1.5 .5 ** * 2 3" = .ok ts := by
  intro ts
  have hlex : ∀ t ∈ ts, Lexeme t.toList := fun t ht => lexeme_of_taken (by revert t; decide)
  have hmerge {i : ℕ} {a b : Token} (ha : ts[i]? = some a) (hb : ts[i + 1]? = some b) :=
    merges_iff (hlex a (List.mem_of_getElem? ha)) (hlex b (List.mem_of_getElem? hb))
  let spaces (places : List ℕ) (i : ℕ) : Blanks := .spaces (if i ∈ places then 1 else 0)
  have hok : tokenize "x 1.5.5***2 3" = .ok ts := by
    refine (tokenize_spread_iff.1 (spaces [1, 6]) ts hlex).2 fun i a b ha hb hgap => ?_
    rw [hmerge ha hb]
    have hlt : i < 6 := Nat.lt_of_succ_lt_succ (List.getElem?_eq_some_iff.1 hb).1
    interval_cases i <;> cases ha <;> cases hb <;> revert hgap <;> decide
  refine ⟨hlex, hok, fun h => ?_, fun h => ?_, tokenize_spread_iff.2 _ ts hok⟩
  · have hapart := (tokenize_spread_iff.1 (spaces [6]) ts hlex).1 h 0 _ _ rfl rfl rfl
    exact hapart ((hmerge (i := 0) rfl rfl).2 (by decide))
  · have hapart := (tokenize_spread_iff.1 (spaces [1]) ts hlex).1 h 5 _ _ rfl rfl rfl
    exact hapart ((hmerge (i := 5) rfl rfl).2 (by decide))

end ComplexExpr.Token
