import ComplexExpr.Proofs.Json.Ascii
import ComplexExpr.Proofs.Json.Readable
import ComplexExpr.Settings.Place

/-!
# Saved settings are loaded again

Settings that a file without containers gives (`Flat`), or that are made of
them by setting one to a value that can be written, are sound (`Sound`): each
key and value can be written and read back, and no setting is missing. Main
statements:

* `save_load`: settings with texts for keys and no containers are saved in
  ASCII, and loaded as the defaults with these values put over them;
* `sound_of_flat`: a flat file is loaded as sound settings;
* `Sound.load_save`: sound settings that are saved, which gives a flat file
  again, and loaded have the same value for every key.
-/

namespace ComplexExpr

/-- The code points of a string are characters, so none is half of a pair. -/
theorem WideText.separate_ofString (s : String) : (WideText.ofString s).Separate := by
  refine List.Pairwise.isChain (List.pairwise_map.2 ?_)
  exact List.pairwise_of_forall fun _ _ h => h.1

namespace Settings

open Json (Storable IsScalar)

/-- A settings file that is missing, is malformed, or holds an object without containers in it. -/
inductive Flat : Option String → Prop
  | missing : Flat none
  | malformed {text : String} (h : Json.read text = .error .malformed) : Flat (some text)
  | object {text : String} {ms : List (WideText × Json)} (h : Json.read text = .ok (.object ms))
      (hs : ∀ m ∈ ms, m.2.IsScalar) : Flat (some text)

/-- The key is a text that can be written. -/
def Writable : Key → Prop
  | .text s => s.Separate
  | _ => False

/-- Settings that can be written, none of those with a default missing. -/
structure Sound (s : Settings) : Prop where
  entries : ∀ e ∈ s.entries, Writable e.1 ∧ Storable e.2
  known : ∀ k, s.get? k = none → defaults.get? k = none

variable {s : Settings} {text : Option String} {v : Json}

/-! ## Entries -/

/-- The entries of settings for the members of an object. -/
def entriesOfMembers (ms : List (WideText × Json)) : List (Key × Json) :=
  ms.map fun m => (.text m.1, m.2)

theorem beq_text (a b : WideText) : (Key.text a == Key.text b) = (a == b) := by
  rw [Bool.eq_iff_iff, Key.beq_iff, beq_iff_eq]
  exact ⟨Key.Identity.text.inj, congrArg Key.Identity.text⟩

theorem distinct_entriesOfMembers {ms : List (WideText × Json)} :
    Table.Distinct (entriesOfMembers ms) ↔ Table.Distinct ms := by
  unfold Table.Distinct entriesOfMembers
  rw [List.map_map, List.pairwise_map, List.pairwise_map]
  simp only [Function.comp_apply, beq_text]

/-- The members that writable entries are saved as. -/
def membersOf (es : List (Key × Json)) : List (WideText × Json) :=
  es.map fun (k, v) => (k.fileText, v)

theorem get?_update_entries {es : List (Key × Json)} (h : Table.Distinct es)
    (hknown : ∀ k, es.lookup k = none → defaults.get? k = none) (k : Key) :
    (defaults.update es).get? k = es.lookup k := by
  rw [Table.get?_update h]
  cases hk : es.lookup k with
  | none => exact hknown k hk
  | some v => rfl

/-! ## Sound settings -/

theorem sound_defaults : Sound defaults := by
  have hwritable (name : String) : Writable (.ofString name) := WideText.separate_ofString name
  have hstandard : ∀ e ∈ standard.map fun e => (Key.ofString e.1, e.2),
      Writable e.1 ∧ Storable e.2 := by
    simp only [standard, List.map_cons, List.map_nil, List.forall_mem_cons]
    refine ⟨⟨hwritable _, .int ?_⟩, ⟨hwritable _, .real _⟩, ⟨hwritable _, .real _⟩,
      ⟨hwritable _, .real _⟩, ⟨hwritable _, .bool _⟩, List.forall_mem_nil _⟩
    have hpow : 10 ^ 2 ≤ 10 ^ Json.digitLimit := Nat.pow_le_pow_right (by decide) (by decide)
    exact Nat.lt_of_lt_of_le (by decide) hpow
  exact ⟨Table.forall_mem_update (List.forall_mem_nil _) hstandard, fun _ => id⟩

theorem Sound.update {es : List (Key × Json)} (hes : ∀ e ∈ es, Writable e.1 ∧ Storable e.2)
    (hd : Table.Distinct es) : Sound (defaults.update es) := by
  refine ⟨Table.forall_mem_update sound_defaults.entries hes, fun k hk => ?_⟩
  rw [Table.get?_update hd, Option.or_eq_none_iff] at hk
  exact hk.2

theorem Sound.set (h : Sound s) (key : String) (hv : Storable v) :
    Sound (s.set (.ofString key) v) := by
  refine ⟨Table.forall_mem_set h.entries (WideText.separate_ofString key) hv, fun k hk => ?_⟩
  rw [Table.get?_set] at hk
  split at hk
  · cases hk
  · exact h.known k hk

theorem ofFile_malformed {text : String} (h : Json.read text = .error .malformed) :
    ofFile (some text) = .ok defaults := by
  have hentries : readEntries text = .ok [] := by rw [readEntries, h]
  rw [ofFile, hentries]
  exact congrArg Except.ok (Table.update_nil defaults)

theorem ofFile_object {text : String} {ms : List (WideText × Json)}
    (h : Json.read text = .ok (.object ms)) :
    ofFile (some text) = .ok (defaults.update (entriesOfMembers ms)) := by
  have hentries : readEntries text = .ok (entriesOfMembers ms) := by
    rw [readEntries, h]
    rfl
  rw [ofFile, hentries]
  rfl

/-- A flat file is loaded, as sound settings. -/
theorem sound_of_flat (h : Flat text) : ∃ s, ofFile text = .ok s ∧ Sound s := by
  cases h with
  | missing => exact ⟨defaults, rfl, sound_defaults⟩
  | malformed h => exact ⟨defaults, ofFile_malformed h, sound_defaults⟩
  | @object text ms h hs =>
    obtain ⟨hdistinct, hmembers⟩ := Json.storable_of_read h
    refine ⟨defaults.update (entriesOfMembers ms), ofFile_object h, Sound.update ?_ ?_⟩
    · refine List.forall_mem_map.2 fun m hm => ?_
      exact ⟨(hmembers m hm).1, (hmembers m hm).2 (hs m hm)⟩
    · exact distinct_entriesOfMembers.2 hdistinct

theorem storable_membersOf (h : ∀ e ∈ s.entries, Writable e.1 ∧ Storable e.2) :
    ∀ m ∈ membersOf s.entries, m.1.Separate ∧ Storable m.2 := by
  refine List.forall_mem_map.2 fun e he => ?_
  obtain ⟨k, v⟩ := e
  obtain ⟨hk, hv⟩ := h _ he
  cases k with
  | text s => exact ⟨hk, hv⟩
  | _ => exact hk.elim

theorem entriesOfMembers_membersOf (h : ∀ e ∈ s.entries, Writable e.1 ∧ Storable e.2) :
    entriesOfMembers (membersOf s.entries) = s.entries := by
  unfold entriesOfMembers membersOf
  rw [List.map_map]
  refine (List.map_congr_left fun e he => ?_).trans (List.map_id s.entries)
  obtain ⟨k, v⟩ := e
  have hk := (h _ he).1
  cases k with
  | text s => rfl
  | _ => exact hk.elim

/-- Settings that can be written are read back from their file as its members. -/
theorem read_toFile (h : ∀ e ∈ s.entries, Writable e.1 ∧ Storable e.2) :
    Json.read s.toFile = .ok (.object (membersOf s.entries)) := by
  have hdistinct : Table.Distinct (membersOf s.entries) := by
    rw [← distinct_entriesOfMembers, entriesOfMembers_membersOf h]
    exact s.distinct
  exact Json.read_write (storable_membersOf h) hdistinct

/-- Settings that can be written, once saved, are loaded over the defaults. -/
theorem ofFile_toFile (h : ∀ e ∈ s.entries, Writable e.1 ∧ Storable e.2) :
    ofFile (some s.toFile) = .ok (defaults.update s.entries) := by
  rw [ofFile_object (read_toFile h), entriesOfMembers_membersOf h]

/-- Sound settings are saved in a flat file. -/
theorem Sound.flat_toFile (h : Sound s) : Flat (some s.toFile) :=
  .object (read_toFile h.entries) fun m hm => (storable_membersOf h.entries m hm).2.isScalar

/-- Sound settings, once saved, are loaded with the same value for every key. -/
theorem Sound.load_save (h : Sound s) :
    ∃ s', ofFile (some s.toFile) = .ok s' ∧ ∀ k, s'.get? k = s.get? k :=
  ⟨defaults.update s.entries, ofFile_toFile h.entries, get?_update_entries s.distinct h.known⟩

/-! ## The whole file -/

/-- Settings with texts for keys and no containers among their values are saved in ASCII. What is
loaded then are the defaults in their order, each with its saved value if it has one, and after
them the other settings in the order in which they were saved, each value as what it was. -/
theorem save_load (old : Option String) {s : Settings}
    (h : ∀ e ∈ s.entries, Writable e.1 ∧ Storable e.2) :
    ∃ text s', (Place.file old).save s = .ok (.file (some text)) ∧ Text.Ascii text.toList ∧
      (Place.file (some text)).load = .ok s' ∧
      s'.entries = defaults.entries.map (fun e => (e.1, (s.get? e.1).getD e.2)) ++
        s.entries.filter fun e => !defaults.contains e.1 :=
  ⟨s.toFile, defaults.update s.entries, rfl, Json.ascii_write _, ofFile_toFile h,
    Table.entries_update_eq s.distinct⟩

/-- A note, a setting with a default, and two that have none. -/
def sampleSettings : Settings :=
  Table.ofList [(.ofString "naïve 😀", .text (.ofString "a \"b\"\n")),
    (.ofString "debug", .bool true), (.ofString "count", .int 3), (.ofString "scale", .real 3.0)]

/-- The known setting is loaded in its place, the others follow, and `3` and `3.0` stay apart. -/
theorem save_load_sampleSettings :
    (∀ e ∈ sampleSettings.entries, Writable e.1 ∧ Storable e.2) ∧
    ∃ text s', (Place.file none).save sampleSettings = .ok (.file (some text)) ∧
      Text.Ascii text.toList ∧ (Place.file (some text)).load = .ok s' ∧
      s'.entries = [(.ofString "equivalence_trials", .int 12),
        (.ofString "equivalence_epsilon", .real 1e-6), (.ofString "sample_range", .real 5.0),
        (.ofString "approx_epsilon", .real 1e-8), (.ofString "debug", .bool true),
        (.ofString "naïve 😀", .text (.ofString "a \"b\"\n")), (.ofString "count", .int 3),
        (.ofString "scale", .real 3.0)] := by
  have hentries : ∀ e ∈ sampleSettings.entries, Writable e.1 ∧ Storable e.2 := by
    have hkey (name : String) : Writable (.ofString name) := WideText.separate_ofString name
    have hthree : Storable (.int 3) :=
      .int (Nat.lt_of_lt_of_le (by decide) (Nat.pow_le_pow_right (by decide) (by decide) :
        10 ^ 1 ≤ 10 ^ Json.digitLimit))
    refine Table.forall_mem_update (t := .empty) (List.forall_mem_nil _) ?_
    simp only [List.forall_mem_cons]
    exact ⟨⟨hkey _, .text (WideText.separate_ofString _)⟩, ⟨hkey _, .bool true⟩, ⟨hkey _, hthree⟩,
      ⟨hkey _, .real 3.0⟩, List.forall_mem_nil _⟩
  obtain ⟨text, s', hsave, hascii, hload, hs'⟩ := save_load none hentries
  exact ⟨hentries, text, s', hsave, hascii, hload, hs'.trans rfl⟩

end Settings

end ComplexExpr
