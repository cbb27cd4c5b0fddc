import ComplexExpr.Proofs.Token.Lexeme

/-!
# Tokens of whole texts

`Cut cs ts` says that a text is a row of lexemes with blanks between them, each
the longest at its place. The scanner finds that row, or stops at the first
illegal position:

* `scan_eq_ok_iff`: the scanner gives `ts` iff the text is cut into `ts`;
* `scan_spec`: it does so if no position is illegal, and else leaves the text
  from the first illegal position on;
* `tokenize_spec`: the same for strings and by positions.
-/

namespace ComplexExpr.Token

open Text (isBlank isNameChar Stops stops_cons stops_dropWhile)

/-- The text `cs` is the lexemes `ts` with blanks around them, each of which is the longest lexeme
at its place. -/
inductive Cut : List Char → List (List Char) → Prop
  | blanks {bs} (hb : ∀ c ∈ bs, isBlank c) : Cut bs []
  | token {bs t rest ts} (hb : ∀ c ∈ bs, isBlank c) (ht : Longest t (t ++ rest))
    (hr : Cut rest ts) : Cut (bs ++ (t ++ rest)) (t :: ts)

/-! ## Lexemes and blanks -/

theorem not_isBlank_of_legal {c : Char} (h : isNameChar c ∨ isMark c ∨ c = '.') :
    isBlank c = false := by
  rcases h with h | h | rfl
  · exact Text.not_isBlank_of_isNameChar h
  · exact (not_isBlank_of_isMark h).1
  · decide

/-- A blank stands in no lexeme. -/
theorem Lexeme.not_blank {t : List Char} (h : Lexeme t) {c : Char} (hc : c ∈ t) :
    isBlank c = false := by
  have hrun {ds : List Char} (hd : Digits ds) (hc : c ∈ ds) : isBlank c = false :=
    not_isBlank_of_legal (.inl (Text.isNameChar_of_isDigit (hd c hc)))
  have hpoint {fs : List Char} (hf : Digits fs) (hc : c ∈ '.' :: fs) : isBlank c = false :=
    (List.mem_cons.1 hc).elim (fun he => not_isBlank_of_legal (.inr (.inr he))) (hrun hf)
  cases h with
  | name hs hcs =>
    refine not_isBlank_of_legal (.inl ?_)
    rcases List.mem_cons.1 hc with rfl | hc
    · exact Text.isNameChar_of_isNameStart hs
    · exact hcs c hc
  | integer hd hne => exact hrun hd hc
  | decimal hd hne hf hfne => exact (List.mem_append.1 hc).elim (hrun hd) (hpoint hf)
  | fraction hf hfne => exact hpoint hf hc
  | stars =>
    refine not_isBlank_of_legal (.inr (.inl ?_))
    rw [List.eq_of_mem_replicate (a := '*') (n := 2) hc]
    decide
  | mark hm => exact not_isBlank_of_legal (.inr (.inl (List.mem_singleton.1 hc ▸ hm)))

theorem Lexeme.ne_nil {t : List Char} (h : Lexeme t) : t ≠ [] := by
  cases h <;> simp_all

/-- Nothing is lost but blanks. -/
theorem Cut.flatten {cs : List Char} {ts : List (List Char)} (h : Cut cs ts) :
    ts.flatten = Text.removeBlanks cs := by
  induction h with
  | blanks hb => rw [Text.removeBlanks_eq_nil hb, List.flatten_nil]
  | token hb ht hr ih =>
    rw [Text.removeBlanks_append, Text.removeBlanks_append, Text.removeBlanks_eq_nil hb,
      Text.removeBlanks_eq_self fun c => ht.lexeme.not_blank, List.nil_append, List.flatten_cons, ih]

theorem Cut.lexeme {cs : List Char} {ts : List (List Char)} (h : Cut cs ts) {t : List Char}
    (ht : t ∈ ts) : Lexeme t := by
  induction h with
  | blanks hb => cases ht
  | token hb hlong hr ih =>
    rcases List.mem_cons.1 ht with rfl | ht
    · exact hlong.lexeme
    · exact ih ht

/-! ## One step of the scanner -/

variable {cs t rest : List Char}

theorem scan_of_end (h : cs.dropWhile isBlank = []) : scan cs = .ok [] := by
  rw [scan]
  split
  next => rfl
  next hd => rw [h] at hd; cases hd

theorem scan_of_none {c : Char} (h : cs.dropWhile isBlank = c :: rest)
    (hl : lexeme? (c :: rest) = none) : scan cs = .error (c :: rest) := by
  rw [scan]
  split
  next hd => rw [h] at hd; cases hd
  next hd =>
    rw [h] at hd
    cases hd
    split
    next => rfl
    next ht => rw [hl] at ht; cases ht

theorem scan_of_some (h : lexeme? (cs.dropWhile isBlank) = some (t, rest)) :
    scan cs = (scan rest).map (t :: ·) := by
  rw [scan]
  split
  next hd => rw [hd] at h; cases h
  next hd =>
    rw [hd] at h
    split
    next hn => rw [h] at hn; cases hn
    next ht =>
      rw [h] at ht
      cases ht
      cases scan rest <;> rfl

/-- Where nothing is taken and no blank stands, the position is illegal. -/
theorem illegal_of_lexeme? {c : Char} (hc : isBlank c = false) (h : lexeme? (c :: rest) = none) :
    Illegal (c :: rest) := by
  refine Classical.not_not.1 fun hlegal => ?_
  obtain ⟨u, hu, r, hr⟩ := exists_lexeme_front hc hlegal
  obtain ⟨t, r', ht, -⟩ := hu.taken r
  rw [hr, h] at ht
  cases ht

/-- What the scanner does after some blanks: it is at the end, it stops at an illegal position, or it
goes on after the longest lexeme. -/
theorem scan_cases (cs : List Char) :
    ∃ bs, (∀ c ∈ bs, isBlank c) ∧
      ((cs = bs ∧ scan cs = .ok []) ∨
        (∃ e, cs = bs ++ e ∧ Illegal e ∧ scan cs = .error e) ∨
        ∃ t rest, cs = bs ++ (t ++ rest) ∧ Longest t (t ++ rest) ∧
          scan cs = (scan rest).map (t :: ·)) := by
  have hsplit : cs.takeWhile isBlank ++ cs.dropWhile isBlank = cs :=
    List.takeWhile_append_dropWhile
  refine ⟨cs.takeWhile isBlank, fun c hc => List.mem_takeWhile_imp hc, ?_⟩
  cases hd : cs.dropWhile isBlank with
  | nil =>
    rw [hd, List.append_nil] at hsplit
    exact .inl ⟨hsplit.symm, scan_of_end hd⟩
  | cons c rest =>
    rw [hd] at hsplit
    cases hl : lexeme? (c :: rest) with
    | none =>
      have hstop := stops_dropWhile isBlank cs
      rw [hd] at hstop
      exact .inr (.inl ⟨c :: rest, hsplit.symm, illegal_of_lexeme? (stops_cons.1 hstop) hl,
        scan_of_none hd hl⟩)
    | some p =>
      obtain ⟨t, tail⟩ := p
      obtain ⟨htext, hlong⟩ := lexeme?_eq_some_iff.1 hl
      exact .inr (.inr ⟨t, tail, by rw [htext, hsplit], htext ▸ hlong,
        scan_of_some (by rw [hd, hl])⟩)

/-! ## Whole texts -/

/-- A text that is cut is scanned into its lexemes. -/
theorem Cut.scan {ts : List (List Char)} (h : Cut cs ts) : Token.scan cs = .ok ts := by
  induction h with
  | blanks hb => exact scan_of_end (List.dropWhile_eq_nil_iff.2 hb)
  | @token bs t rest ts hb ht hr ih =>
    have hstop : Stops isBlank (t ++ rest) := by
      obtain ⟨c, cs, rfl⟩ := List.exists_cons_of_ne_nil ht.lexeme.ne_nil
      exact stops_cons.2 (ht.lexeme.not_blank List.mem_cons_self)
    have hl : lexeme? ((bs ++ (t ++ rest)).dropWhile isBlank) = some (t, rest) := by
      rw [Text.dropWhile_run hb hstop]
      exact lexeme?_eq_some_iff.2 ⟨rfl, ht⟩
    rw [scan_of_some hl, ih]
    rfl

/-- The scanner cuts a text that has no illegal position, and stops at the first one otherwise. -/
theorem scan_spec (cs : List Char) :
    match scan cs with
    | .ok ts => Cut cs ts ∧ Clear cs []
    | .error e => ∃ a, cs = a ++ e ∧ Clear a e ∧ Illegal e := by
  induction hn : cs.length using Nat.strong_induction_on generalizing cs with
  | _ n ih =>
  obtain ⟨bs, hb, hstep⟩ := scan_cases cs
  have hblanks (e : List Char) : Clear bs e := .run (fun c hc => .inl (hb c hc)) e
  obtain ⟨rfl, hs⟩ | ⟨e, rfl, he, hs⟩ | ⟨t, rest, rfl, ht, hs⟩ := hstep
  · rw [hs]
    exact ⟨.blanks hb, hblanks []⟩
  · rw [hs]
    exact ⟨bs, rfl, hblanks e, he⟩
  · have hlt : rest.length < n := by
      have hpos := List.length_pos_iff.2 ht.lexeme.ne_nil
      simp only [List.length_append] at hn
      omega
    have hrest := ih rest.length hlt rest rfl
    rw [hs]
    cases hr : scan rest with
    | ok ts =>
      rw [hr] at hrest
      obtain ⟨hcut, hclear⟩ := hrest
      exact ⟨.token hb ht hcut, .append (hblanks _) (.append (ht.lexeme.clear _) hclear)⟩
    | error e =>
      rw [hr] at hrest
      obtain ⟨a, rfl, hclear, he⟩ := hrest
      exact ⟨bs ++ (t ++ a), by simp, .append (hblanks _) (.append (ht.lexeme.clear _) hclear), he⟩

theorem scan_eq_ok_iff {ts : List (List Char)} : scan cs = .ok ts ↔ Cut cs ts := by
  refine ⟨fun h => ?_, Cut.scan⟩
  have hspec := scan_spec cs
  rw [h] at hspec
  exact hspec.1

/-- A text is refused iff a position of it is illegal, and then at the first of these, whose next
characters are given. Otherwise its tokens are lexemes, each the longest at its place, which make
up the text without its blanks. -/
theorem tokenize_spec (text : String) :
    let cs := text.toList
    ((∃ cause, tokenize text = .error cause) ↔ ∃ k, Illegal (cs.drop k)) ∧
    (∀ k, Illegal (cs.drop k) → (∀ j < k, ¬Illegal (cs.drop j)) →
      tokenize text = .error (.invalidToken (String.ofList ((cs.drop k).take 20)))) ∧
    ((∀ k, ¬Illegal (cs.drop k)) → ∃ ts, tokenize text = .ok (ts.map String.ofList) ∧
      Cut cs ts ∧ (∀ t ∈ ts, Lexeme t) ∧ ts.flatten = Text.removeBlanks cs) := by
  intro cs
  have hspec := scan_spec cs
  cases hs : scan cs with
  | ok ts =>
    rw [hs] at hspec
    obtain ⟨hcut, hclear⟩ := hspec
    have hok : tokenize text = .ok (ts.map String.ofList) := by rw [tokenize, hs]
    have hlegal (k : Nat) : ¬Illegal (cs.drop k) := by
      by_cases hk : k < cs.length
      · have h := hclear k hk
        rwa [List.append_nil] at h
      · rw [List.drop_eq_nil_of_le (by omega)]
        exact id
    refine ⟨⟨fun ⟨_, h⟩ => ?_, fun ⟨k, h⟩ => absurd h (hlegal k)⟩,
      fun k h => absurd h (hlegal k),
      fun _ => ⟨ts, hok, hcut, fun t ht => hcut.lexeme ht, hcut.flatten⟩⟩
    rw [hok] at h
    cases h
  | error e =>
    rw [hs] at hspec
    obtain ⟨a, ha, hclear, he⟩ := hspec
    have herr : tokenize text = .error (.invalidToken (String.ofList (e.take 20))) := by
      rw [tokenize, hs]
    have hdrop : cs.drop a.length = e := by rw [ha, List.drop_left]
    refine ⟨⟨fun _ => ⟨a.length, by rwa [hdrop]⟩, fun _ => ⟨_, herr⟩⟩, fun k hk hfirst => ?_,
      fun h => absurd (by rwa [hdrop]) (h a.length)⟩
    have hle : a.length ≤ k := Nat.le_of_not_lt fun hlt => hclear k hlt (ha ▸ hk)
    have hge : k ≤ a.length := Nat.le_of_not_lt fun hlt => hfirst _ hlt (by rwa [hdrop])
    rw [herr, ← hdrop, Nat.le_antisymm hle hge]

end ComplexExpr.Token
