import ComplexExpr.Command.Basic
import ComplexExpr.Proofs.Results
import ComplexExpr.Proofs.Table
import Mathlib.Data.List.Chain
import Mathlib.Data.List.TakeWhile

/-!
# Options without a value

Two minus signs stand for a value that is missing. As an argument of their own
they end the options, so they are never taken as the value of one: a value can
only be missing in an argument that holds it after an equals sign
(`BlankValue`). Each step of reading keeps to that (`Supported`). Main
statement:

* `exists_blankValue`: if the command that is read misses a value, some
  argument ends in it.
-/

namespace ComplexExpr.Command

/-- Two minus signs are all that the argument holds after its first equals sign. -/
def BlankValue (arg : String) : Prop := ∃ name, '=' ∉ name ∧ arg.toList = name ++ "=--".toList

/-- Options other than those for help begin with two minus signs. -/
def Form.Long (form : Form) : Prop :=
  ∀ o ∈ form.options, o.2 ≠ .help → o.1.toList.take 2 = ['-', '-']

/-- The option is one of the form. Two minus signs that are attached to it stand after an equals
sign, unless the option asks for help. -/
def Found.FoundIn (form : Form) (arg : String) (found : Found) : Prop :=
  (found.spelling, found.role) ∈ form.options ∧
    (found.attached = some "--" → found.role = .help ∨ BlankValue arg)

/-- The option has the value that its role calls for: none if it is a flag, and a whole number if
it is to be one. A value that is missing is missing in one of the arguments. -/
def Supported (form : Form) (args : List String) (o : String × Option String) : Prop :=
  ∃ role, (o.1, role) ∈ form.options ∧
    (o.2 = none → role = .flag ∨ ∃ arg ∈ args, BlankValue arg) ∧
    ∀ text, o.2 = some text → role = .integer → (Typed.readInt? text).isSome

/-- The arguments are marked with what is found in them, and no option stands before two minus
signs that are an operand. -/
structure WellMarked (form : Form) (ts : List Marked) : Prop where
  found : ∀ t ∈ ts, ∀ found, t.1 = .option (some found) → found.FoundIn form t.2
  chain : ts.IsChain fun t u => t.isOption → u.1 = .operand → u.2 ≠ "--"

variable {form : Form} {arg : String} {args : List String} {found : Found} {r r' : Reading}
  {ts rest : List Marked}

/-! ## One argument -/

theorem toList_of_splitEquals {s name value : String} (h : splitEquals s = some (name, value)) :
    s.toList = name.toList ++ '=' :: value.toList ∧ '=' ∉ name.toList := by
  unfold splitEquals at h
  dsimp only at h
  split at h
  next => cases h
  next c after hdrop =>
    cases h
    rw [String.toList_ofList, String.toList_ofList]
    have hc := List.head?_dropWhile_not (· != '=') s.toList
    rw [hdrop] at hc
    obtain rfl : c = '=' := bne_eq_false_iff_eq.1 hc
    refine ⟨?_, fun hmem => ?_⟩
    · rw [← hdrop, List.takeWhile_append_dropWhile]
    · exact absurd (List.mem_takeWhile_imp hmem) (by decide)

theorem blankValue_of_splitEquals {name : String} (h : splitEquals arg = some (name, "--")) :
    BlankValue arg :=
  ⟨name.toList, (toList_of_splitEquals h).2, (toList_of_splitEquals h).1⟩

theorem of_spelled {spelling : String} {attached : Option String}
    (h : form.spelled? spelling attached = some found) :
    (found.spelling, found.role) ∈ form.options ∧ found.attached = attached := by
  obtain ⟨role, hrole, rfl⟩ := Option.map_eq_some_iff.1 h
  exact ⟨Table.mem_of_lookup hrole, rfl⟩

theorem foundIn_of_mem_candidates (hform : form.Long) (h : found ∈ form.candidates arg) :
    found.FoundIn form arg := by
  unfold Form.candidates at h
  split at h
  next =>
    obtain ⟨o, ho, rfl⟩ := List.mem_map.1 h
    refine ⟨(List.mem_filter.1 ho).1, fun hattached => .inr ?_⟩
    split at hattached
    next name value heq =>
      cases hattached
      exact blankValue_of_splitEquals heq
    next => cases hattached
  next hshort =>
    obtain ⟨o, ho, rfl⟩ := List.mem_map.1 h
    obtain ⟨hmem, hspelled⟩ := List.mem_filter.1 ho
    refine ⟨hmem, fun _ => .inl (not_not.1 fun hrole => ?_)⟩
    have hlong := hform o hmem hrole
    rw [decide_eq_true_iff.1 hspelled, List.take_take] at hlong
    -- an argument that begins as a long option does is not split after its first letter
    have harg : arg.toList = '-' :: '-' :: arg.toList.drop 2 := by
      conv_lhs => rw [← List.take_append_drop 2 arg.toList, show arg.toList.take 2 = _ from hlong]
      rfl
    exact hshort _ harg

theorem foundIn_of_mark (hform : form.Long) (h : form.mark arg = .ok (.option (some found))) :
    found.FoundIn form arg := by
  unfold Form.mark at h
  split at h
  next =>
    dsimp only at h
    split at h
    next heq =>
      cases h
      rcases Option.or_eq_some_iff.1 heq with hwhole | ⟨-, hvalued⟩
      · obtain ⟨hmem, hattached⟩ := of_spelled hwhole
        exact ⟨hmem, fun h => by rw [hattached] at h; cases h⟩
      · obtain ⟨⟨name, value⟩, hsplit, hspelled⟩ := Option.bind_eq_some_iff.1 hvalued
        obtain ⟨hmem, hattached⟩ := of_spelled hspelled
        refine ⟨hmem, fun h => .inr ?_⟩
        rw [hattached] at h
        cases h
        exact blankValue_of_splitEquals hsplit
    next =>
      split at h
      next heq =>
        cases h
        exact foundIn_of_mem_candidates hform (heq ▸ List.mem_singleton_self found)
      next => split at h <;> cases h
      next => cases h
  next => cases h

/-! ## All arguments -/

/-- What is left of the arguments `args` while they are read. -/
structure LeftOf (form : Form) (args : List String) (ts : List Marked) : Prop extends
    WellMarked form ts where
  mem : ∀ t ∈ ts, t.2 ∈ args

theorem LeftOf.suffix (h : LeftOf form args ts) (hrest : rest <:+ ts) : LeftOf form args rest where
  found t ht := h.found t (hrest.subset ht)
  chain := h.chain.suffix hrest
  mem t ht := h.mem t (hrest.subset ht)

theorem LeftOf.tail {t : Marked} (h : LeftOf form args (t :: ts)) : LeftOf form args ts :=
  h.suffix (List.suffix_cons t ts)

/-- Where no option stands, nothing is found and no two minus signs are out of place. -/
theorem wellMarked_of_no_option (h : ∀ t ∈ ts, t.isOption = false) : WellMarked form ts where
  found t ht found heq := by
    obtain ⟨mark, arg⟩ := t
    cases heq
    cases h _ ht
  chain := by
    induction ts with
    | nil => exact .nil
    | cons t ts ih =>
      obtain ⟨ht, hts⟩ := List.forall_mem_cons.1 h
      refine (ih hts).cons fun u _ hoption => ?_
      rw [ht] at hoption
      cases hoption

/-- All arguments are marked in their order, and at the front two minus signs are no operand. -/
theorem wellMarked_of_markAll (hform : form.Long) (h : form.markAll args = .ok ts) :
    WellMarked form ts ∧ ts.map Prod.snd = args ∧ ∀ t ∈ ts.head?, t.1 = .operand → t.2 ≠ "--" := by
  induction args using Form.markAll.induct generalizing ts with
  | case1 =>
    cases h
    exact ⟨⟨nofun, .nil⟩, rfl, nofun⟩
  | case2 args =>
    cases h
    refine ⟨wellMarked_of_no_option ?_, ?_, ?_⟩
    · exact List.forall_mem_cons.2 ⟨rfl, List.forall_mem_map.2 fun _ _ => rfl⟩
    · rw [List.map_cons, List.map_map]
      exact congrArg _ (List.map_id args)
    · rintro t ⟨⟩ h
      cases h
  | case3 arg args hne ih =>
    rw [Form.markAll] at h
    · obtain ⟨mark, hmark, h⟩ := ok_of_bind h
      obtain ⟨ts, hts, h⟩ := ok_of_bind h
      cases h
      obtain ⟨⟨hfound, hchain⟩, hargs, hhead⟩ := ih hts
      refine ⟨⟨fun t ht found heq => ?_, hchain.cons fun t ht _ => hhead t ht⟩, ?_, ?_⟩
      · rcases List.mem_cons.1 ht with rfl | ht
        · obtain rfl : mark = .option (some found) := heq
          exact foundIn_of_mark hform hmark
        · exact hfound t ht found heq
      · rw [List.map_cons, hargs]
      · rintro t ⟨⟩ -
        exact hne
    · exact hne

/-! ## Options and their values -/

theorem optionValue_cases {role : Role} {text : String} {v : Option String}
    (h : Reading.optionValue role text = .ok v) :
    v = none ∧ text = "--" ∨ v = some text ∧ (role = .integer → (Typed.readInt? text).isSome) := by
  unfold Reading.optionValue at h
  split at h
  next heq =>
    cases h
    exact .inl ⟨rfl, heq⟩
  next =>
    split at h
    next => cases h
    next hbad =>
      cases h
      refine .inr ⟨rfl, fun hrole => ?_⟩
      rw [← Option.not_isNone, Bool.not_eq_true']
      exact Bool.eq_false_iff.2 fun hnone => hbad ⟨hrole, hnone⟩

theorem supported_of_optionValue {role : Role} {text : String} {v : Option String} {spelling : String}
    (hmem : (spelling, role) ∈ form.options)
    (hblank : text = "--" → ∃ arg ∈ args, BlankValue arg)
    (h : Reading.optionValue role text = .ok v) : Supported form args (spelling, v) := by
  refine ⟨role, hmem, ?_, ?_⟩
  · rintro rfl
    obtain ⟨-, heq⟩ | ⟨⟨⟩, -⟩ := optionValue_cases h
    exact .inr (hblank heq)
  · rintro text' rfl
    obtain ⟨⟨⟩, -⟩ | ⟨⟨⟩, hinteger⟩ := optionValue_cases h
    exact hinteger

/-- An option that is taken is supported, if no operand that is two minus signs comes next. -/
theorem takeOption_cases {next : Option Marked} {used : Bool} (hfound : found.FoundIn form arg)
    (harg : arg ∈ args) (hnext : ∀ t ∈ next, t.1 = .operand → t.2 ≠ "--")
    (h : r.takeOption found next = .ok (r', used)) :
    ∃ v, r' = r.addOption found.spelling v ∧ Supported form args (found.spelling, v) := by
  obtain ⟨hmem, hattached⟩ := hfound
  unfold Reading.takeOption at h
  split at h
  next => cases h
  next hrole _ =>
    cases h
    exact ⟨none, rfl, .flag, hrole ▸ hmem, fun _ => .inl rfl, nofun⟩
  next => cases h
  next text hattach hhelp _ =>
    obtain ⟨v, hv, h⟩ := ok_of_bind h
    cases h
    refine ⟨v, rfl, supported_of_optionValue hmem (fun heq => ?_) hv⟩
    exact ⟨arg, harg, (hattached (heq ▸ hattach)).resolve_left hhelp⟩
  next text _ _ _ =>
    obtain ⟨v, hv, h⟩ := ok_of_bind h
    cases h
    exact ⟨v, rfl, supported_of_optionValue hmem (fun heq => absurd heq (hnext _ rfl rfl)) hv⟩
  next => cases h

/-! ## Reading -/

theorem suffix_of_takeSlot {slot : Slot} {taken : List String}
    (h : Reading.takeSlot slot ts = some (taken, rest)) : rest <:+ ts := by
  have hdrop := List.dropWhile_suffix Marked.isDashes (l := ts)
  unfold Reading.takeSlot at h
  dsimp only at h
  split at h
  next heq =>
    cases h
    rw [heq] at hdrop
    exact (List.dropWhile_suffix _).trans ((List.suffix_cons ..).trans hdrop)
  next => cases h; exact hdrop
  next => cases h

theorem fillSlots_kept (r : Reading) (slots : List Slot) (ts : List Marked) :
    (r.fillSlots slots ts).1.options = r.options ∧ (r.fillSlots slots ts).2 <:+ ts := by
  induction slots generalizing r ts with
  | nil => exact ⟨rfl, List.suffix_rfl⟩
  | cons slot slots ih =>
    rw [Reading.fillSlots]
    split
    next => exact ⟨rfl, List.suffix_rfl⟩
    next taken rest htake =>
      obtain ⟨hoptions, hsuffix⟩ :=
        ih { r with operands := r.operands ++ [Reading.operandOf taken] } rest
      exact ⟨hoptions, hsuffix.trans (suffix_of_takeSlot htake)⟩

theorem fill_kept (h : r.fill ts = (r', rest)) : r'.options = r.options ∧ rest <:+ ts := by
  have hkept := fillSlots_kept r r.slots ts
  rw [show r.fillSlots r.slots ts = (r', rest) from h] at hkept
  exact hkept

/-- Reading on keeps all options supported. -/
theorem supported_of_readAll (h : r.readAll ts = .ok r') (hts : LeftOf form args ts)
    (hr : ∀ o ∈ r.options, Supported form args o) : ∀ o ∈ r'.options, Supported form args o := by
  induction r, ts using Reading.readAll.induct generalizing r' with
  | case1 r =>
    rw [Reading.readAll] at h
    cases h
    exact hr
  | case2 r arg ts ih =>
    rw [Reading.readAll] at h
    exact ih h hts.tail hr
  | case3 r found arg ts ih =>
    rw [Reading.readAll] at h
    obtain ⟨⟨r₁, used⟩, htake, h⟩ := ok_of_bind h
    obtain ⟨hnext, -⟩ := List.isChain_cons.1 hts.chain
    obtain ⟨v, rfl, hv⟩ := takeOption_cases (hts.found _ List.mem_cons_self found rfl)
      (hts.mem _ List.mem_cons_self) (fun t ht => hnext t ht rfl) htake
    have hr₁ : ∀ o ∈ (r.addOption found.spelling v).options, Supported form args o :=
      List.forall_mem_append.2 ⟨hr, List.forall_mem_singleton.2 hv⟩
    specialize ih (r.addOption found.spelling v) used
    cases used with
    | false => exact ih h hts.tail hr₁
    | true =>
      cases ts with
      | nil => exact ih h hts.tail hr₁
      | cons t ts => exact ih h hts.tail.tail hr₁
  | case4 r t ts hunknown hoption r₁ rest hfill hlength ih =>
    obtain ⟨hoptions, hsuffix⟩ := fill_kept hfill
    rw [Reading.readAll, hfill] at h
    · dsimp only at h
      rw [if_pos hlength] at h
      exact ih h (hts.suffix hsuffix) (by rwa [hoptions])
    · exact hunknown
    · exact hoption
  | case5 r t ts hunknown hoption r₁ rest hfill hlength hdrop ih =>
    obtain ⟨hoptions, -⟩ := fill_kept hfill
    have hsuffix := (List.dropWhile_suffix fun t => !t.isOption).trans (List.suffix_cons t ts)
    rw [Reading.readAll, hfill] at h
    · dsimp only at h
      rw [if_neg hlength] at h
      exact ih h (hts.suffix hsuffix) (by rwa [hoptions])
    · exact hunknown
    · exact hoption

/-- All options of arguments that are read are supported. -/
theorem supported_of_read (hform : form.Long) (h : form.read args = .ok r) :
    ∀ o ∈ r.options, Supported form args o := by
  unfold Form.read at h
  obtain ⟨ts, hmarked, h⟩ := ok_of_bind h
  obtain ⟨r₁, hread, h⟩ := ok_of_bind h
  obtain ⟨hts, hargs, -⟩ := wellMarked_of_markAll hform hmarked
  rcases hfill : r₁.fill [] with ⟨r₂, rest⟩
  rw [hfill] at h
  dsimp only at h
  split at h
  next =>
    cases h
    rw [(fill_kept hfill).1]
    have hleft : LeftOf form args ts :=
      { hts with mem := fun t ht => hargs ▸ List.mem_map_of_mem ht }
    exact supported_of_readAll hread hleft nofun
  next => cases h

/-! ## Commands -/

/-- Some value that belongs to the command is missing. -/
def Blank : Command → Prop
  | .run _ vars _ => none ∈ vars
  | .compare _ _ trials seed => trials = .blank ∨ seed = .blank
  | .parse _ | .settings .. => False

theorem long_of_form {name : String} (h : form? name = some form) : form.Long := by
  unfold form? at h
  split at h
  all_goals cases h
  all_goals
    unfold Form.Long
    decide

theorem mem_of_values {spelling : String} {v : Option String} (h : v ∈ r.values spelling) :
    (spelling, v) ∈ r.options := by
  obtain ⟨o, ho, rfl⟩ := List.mem_map.1 h
  obtain ⟨hmem, hspelling⟩ := List.mem_filter.1 ho
  rwa [← decide_eq_true_iff.1 hspelling]

/-- If the value of an option is missing that is no flag, some argument shows it. -/
theorem Supported.exists_blankValue {spelling : String} (h : Supported form args (spelling, none))
    (hrole : (spelling, .flag) ∉ form.options) : ∃ arg ∈ args, BlankValue arg := by
  obtain ⟨role, hmem, hnone, -⟩ := h
  refine (hnone rfl).resolve_left ?_
  rintro rfl
  exact hrole hmem

theorem exists_blankValue_of_lastInt {spelling : String}
    (hr : ∀ o ∈ r.options, Supported form args o)
    (hrole : ∀ o ∈ form.options, o.1 = spelling → o.2 = .integer)
    (h : lastInt r spelling = .blank) : ∃ arg ∈ args, BlankValue arg := by
  unfold lastInt at h
  split at h
  next => cases h
  next v hlast =>
    have hv := hr _ (mem_of_values (List.mem_of_getLast? hlast))
    split at h
    next hread =>
      cases v with
      | none => exact hv.exists_blankValue fun hflag => by cases hrole _ hflag rfl
      | some text =>
        obtain ⟨role, hmem, -, hinteger⟩ := hv
        have hsome := hinteger text rfl (hrole _ hmem rfl)
        rw [show Typed.readInt? text = none from hread] at hsome
        cases hsome
    next => cases h

theorem exists_blankValue_of_ofReading {name : String} {c : Command}
    (hform : form? name = some form) (hr : ∀ o ∈ r.options, Supported form args o)
    (h : ofReading? name r = some c) (hc : c.Blank) : ∃ arg ∈ args, BlankValue arg := by
  unfold ofReading? at h
  split at h
  next => cases h; exact hc.elim
  next =>
    cases h
    cases hform
    exact (hr _ (mem_of_values hc)).exists_blankValue (by decide)
  next =>
    cases h
    cases hform
    obtain htrials | hseed := hc
    · exact exists_blankValue_of_lastInt hr (by decide) htrials
    · exact exists_blankValue_of_lastInt hr (by decide) hseed
  next => cases h; exact hc.elim
  next => cases h

theorem of_ofCommand {global : Reading} {name : String} {i : Invocation}
    (h : Invocation.ofCommand global name args = .ok i) :
    ∃ form r, form? name = some form ∧ form.read args = .ok r ∧
      ofReading? name r = some i.command := by
  unfold Invocation.ofCommand at h
  split at h
  next => cases h
  next form hform =>
    obtain ⟨r, hread, h⟩ := ok_of_bind h
    split at h
    next heq =>
      cases h
      exact ⟨form, r, hform, hread, heq⟩
    next => cases h

/-- The options of all commands are followed by the name of one and what belongs to it. -/
theorem of_readFrom {global : Reading} {i : Invocation} (h : Invocation.readFrom global ts = .ok i) :
    ∃ name rest, rest <:+ ts.map Prod.snd ∧ ∃ form r, form? name = some form ∧
      form.read rest = .ok r ∧ ofReading? name r = some i.command := by
  induction ts generalizing global with
  | nil => cases h
  | cons t ts ih =>
    obtain ⟨mark, arg⟩ := t
    have hskip (hrest : ∃ global, Invocation.readFrom global ts = .ok i) :
        ∃ name rest, rest <:+ arg :: ts.map Prod.snd ∧ ∃ form r, form? name = some form ∧
          form.read rest = .ok r ∧ ofReading? name r = some i.command := by
      obtain ⟨global, hrest⟩ := hrest
      obtain ⟨name, rest, hsuffix, hread⟩ := ih hrest
      exact ⟨name, rest, hsuffix.trans (List.suffix_cons ..), hread⟩
    unfold Invocation.readFrom at h
    split at h
    next heq => cases heq; exact hskip ⟨_, h⟩
    next heq =>
      cases heq
      obtain ⟨⟨global, used⟩, -, h⟩ := ok_of_bind h
      exact hskip ⟨global, h⟩
    next heq =>
      cases heq
      exact ⟨arg, ts.map Prod.snd, List.suffix_cons .., of_ofCommand h⟩
    next => cases h

/-- If the command that the arguments call for misses a value, one of them holds two minus signs in
its place. -/
theorem exists_blankValue {i : Invocation} (h : Invocation.read args = .ok i)
    (hblank : i.command.Blank) : ∃ arg ∈ args, BlankValue arg := by
  unfold Invocation.read at h
  obtain ⟨ts, hmarked, h⟩ := ok_of_bind h
  obtain ⟨-, hargs, -⟩ := wellMarked_of_markAll (by unfold Form.Long; decide) hmarked
  obtain ⟨name, rest, hsuffix, form, r, hform, hread, hcommand⟩ := of_readFrom h
  rw [hargs] at hsuffix
  have hsupported := supported_of_read (long_of_form hform) hread
  obtain ⟨arg, harg, hvalue⟩ := exists_blankValue_of_ofReading hform hsupported hcommand hblank
  exact ⟨arg, hsuffix.subset harg, hvalue⟩

end ComplexExpr.Command
