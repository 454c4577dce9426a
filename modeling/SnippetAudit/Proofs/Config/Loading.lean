import SnippetAudit.Proofs.Config.Entries
import SnippetAudit.Proofs.Yaml.BlankText
import SnippetAudit.Proofs.Yaml.MappingText

/-!
# Loading a configuration

A text whose document is a mapping from scalars to scalars is read as the entries of that mapping, in
the order in which they stand, each with the text of its value as it is written. So whether the text
is a configuration, which one, and which fault it has is all said by its entries.

Any list of entries, repeated and blank ones among them, has such a text.

Specification: `IsScalar`, `Lists` and `IsMapping`.

Results:
* `isScalar_iff`, `lists_iff`: which text a part has, and which entries a list of parts.
* `IsMapping.not_blank`: no text of blanks is a mapping.
* `ofText_eq_ofEntries`: a text that is a mapping stands for what its entries stand for.
* `exists_isMapping`: any list of names and values is a mapping for some text.
* `ofText_of_isMapping`: when a mapping is accepted and as what, and what is wrong with it otherwise.
-/

namespace SnippetAudit.Config

open Text

/-! ## Specification -/

/-- A part of a document is a scalar, or an alias of one: the text, and where the scalar stands. -/
inductive IsScalar (parts : List Yaml.Part) : Yaml.Part → String → Yaml.Mark → Prop
  | own (tag : Option (List UInt8)) (text : List Char) (plain : Bool) (mark : Yaml.Mark) :
      IsScalar parts ⟨.scalar tag text plain, mark⟩ (String.ofList text) mark
  | linked {place : ℕ} {tag : Option (List UInt8)} {text : List Char} {plain : Bool}
      {mark : Yaml.Mark} (here : Yaml.Mark) :
      parts[place]? = some ⟨.scalar tag text plain, mark⟩ →
      IsScalar parts ⟨.link place, here⟩ (String.ofList text) mark

/-- The parts behind the start of a mapping are its entries, a key and a value each, and its end. -/
inductive Lists (parts : List Yaml.Part) : List Yaml.Part → List Entry → Prop
  | done (mark : Yaml.Mark) : Lists parts [⟨.mappingEnd, mark⟩] []
  | entry {key value : Yaml.Part} {name text : String} {mark here : Yaml.Mark} {rest : List Yaml.Part}
      {es : List Entry} : IsScalar parts key name mark → IsScalar parts value text here →
      Lists parts rest es → Lists parts (key :: value :: rest) (⟨name, mark, some text⟩ :: es)

/-- A document is a mapping from scalars to scalars, which starts at a mark and has these entries. -/
structure IsMapping (d : Yaml.Document) (start : Yaml.Mark) (es : List Entry) : Prop where
  complete : d.fault = none
  root : ∃ tag, d.parts.head? = some ⟨.mappingStart tag, start⟩
  listed : Lists d.parts d.parts.tail es

variable {parts rest : List Yaml.Part} {part : Yaml.Part} {d : Yaml.Document} {start mark : Yaml.Mark}
  {es : List Entry} {text : List Char} {name : String}

/-! ## Reading a mapping -/

theorem isScalar_iff : IsScalar parts part name mark ↔ scalar? parts part = some (name, mark) := by
  constructor
  · intro h
    cases h with
    | own tag text plain => rfl
    | linked here hPlace =>
      rw [scalar?]
      simp only
      rw [hPlace]
  · intro h
    obtain ⟨kind, here⟩ := part
    unfold scalar? at h
    split at h
    · rename_i tag text plain hKind
      cases hKind
      cases h
      exact .own ..
    · rename_i place hKind
      cases hKind
      split at h
      · rename_i hPlace
        cases h
        exact .linked here hPlace
      · cases h
    · cases h

/-- The entries of a mapping are read one by one, up to the end of the document. -/
theorem lists_iff :
    Lists parts rest es ↔ entries parts rest = (es, true) ∧ rest.length = 2 * es.length + 1 := by
  constructor
  · intro h
    induction h with
    | done mark => exact ⟨rfl, rfl⟩
    | entry hKey hValue _ ih =>
      obtain ⟨hEntries, hLength⟩ := ih
      refine ⟨?_, ?_⟩
      · rw [entries, isScalar_iff.mp hKey]
        simp only
        rw [isScalar_iff.mp hValue]
        simp only
        rw [hEntries]
      · rw [List.length_cons, List.length_cons, List.length_cons, hLength]
        omega
  · rintro ⟨hEntries, hLength⟩
    fun_induction entries parts rest generalizing es with
    | case1 => cases hEntries
    | case2 key name mark hKey => cases hEntries
    | case3 key hKey =>
      obtain ⟨rfl, hEnd⟩ := Prod.mk.inj hEntries
      obtain ⟨kind, mark⟩ := key
      obtain rfl : kind = .mappingEnd := eq_of_beq hEnd
      exact .done mark
    | case4 key value rest name mark hKey text here hValue more complete hMore ih =>
      obtain ⟨rfl, rfl⟩ := Prod.mk.inj hEntries
      refine .entry (isScalar_iff.mpr hKey) (isScalar_iff.mpr hValue) (ih hMore ?_)
      rw [List.length_cons, List.length_cons, List.length_cons] at hLength
      omega
    | case5 => cases hEntries
    | case6 key value rest hKey =>
      obtain ⟨rfl, _⟩ := Prod.mk.inj hEntries
      simp at hLength

instance : Decidable (Lists parts rest es) := decidable_of_iff' _ lists_iff

instance (part : Option Yaml.Part) (start : Yaml.Mark) :
    Decidable (∃ tag, part = some ⟨.mappingStart tag, start⟩) :=
  match part with
  | some ⟨.mappingStart tag, mark⟩ =>
    decidable_of_iff (mark = start) ⟨fun h => ⟨tag, h ▸ rfl⟩, fun ⟨_, h⟩ => by cases h; rfl⟩
  | none | some ⟨.link _, _⟩ | some ⟨.scalar _ _ _, _⟩ | some ⟨.sequenceStart _, _⟩
  | some ⟨.sequenceEnd, _⟩ | some ⟨.mappingEnd, _⟩ => .isFalse fun ⟨_, h⟩ => nomatch h

instance (d : Yaml.Document) (start : Yaml.Mark) (es : List Entry) : Decidable (IsMapping d start es) :=
  decidable_of_iff
    (d.fault = none ∧ (∃ tag, d.parts.head? = some ⟨.mappingStart tag, start⟩) ∧
      Lists d.parts d.parts.tail es)
    ⟨fun ⟨hComplete, hRoot, hListed⟩ => ⟨hComplete, hRoot, hListed⟩,
      fun h => ⟨h.complete, h.root, h.listed⟩⟩

theorem Lists.haveTexts (h : Lists parts rest es) : HaveTexts es := by
  induction h with
  | done mark => exact fun _ he => nomatch he
  | entry _ _ _ ih => exact List.forall_mem_cons.mpr ⟨⟨_, rfl⟩, ih⟩

theorem ofDocument_eq_ofEntries (file : List Char) (h : IsMapping d start es) :
    ofDocument file d = ofEntries file start es none := by
  obtain ⟨parts, fault⟩ := d
  obtain ⟨hComplete, ⟨tag, hHead⟩, hListed⟩ := h
  obtain ⟨rest, rfl⟩ := List.head?_eq_some_iff.mp hHead
  rw [ofDocument]
  simp only
  rw [show entries (_ :: rest) rest = (es, true) from (lists_iff.mp hListed).1]
  simp only [if_true]
  rw [show fault = none from hComplete]

/-- No text of blanks is a mapping. -/
theorem IsMapping.not_blank (h : IsMapping (.ofText text) start es) : isAllBlank text = false := by
  rw [← Bool.not_eq_true]
  intro hBlank
  obtain ⟨tag, hHead⟩ := h.root
  obtain ⟨_, _, _, hKind⟩ :=
    Yaml.Document.exists_scalar_of_mem_parts hBlank _ (List.mem_of_mem_head? hHead)
  cases hKind

/-- A text that is a mapping stands for what its entries stand for. -/
theorem ofText_eq_ofEntries (h : IsMapping (.ofText text) start es) :
    ofText text = ofEntries text start es none := by
  rw [ofText, h.not_blank]
  exact ofDocument_eq_ofEntries text h

/-! ## Any entries -/

theorem exists_lists (parts : List Yaml.Part) {settings : List (List Char × List Char)}
    (h : rest.map Yaml.Part.kind = settings.flatMap Yaml.entryParts ++ [.mappingEnd]) :
    ∃ es, Lists parts rest es ∧
      es.map Entry.setting = settings.map fun s => (String.ofList s.1, some (String.ofList s.2)) := by
  induction settings generalizing rest with
  | nil =>
    obtain ⟨⟨_, mark⟩, rfl, rfl⟩ := List.map_eq_singleton_iff.mp h
    exact ⟨[], .done mark, rfl⟩
  | cons s settings ih =>
    obtain ⟨⟨_, mark⟩, behind, rfl, rfl, hBehind⟩ := List.map_eq_cons_iff.mp h
    obtain ⟨⟨_, here⟩, rest, rfl, rfl, hRest⟩ := List.map_eq_cons_iff.mp hBehind
    obtain ⟨es, hLists, hSettings⟩ := ih hRest
    refine ⟨⟨String.ofList s.1, mark, some (String.ofList s.2)⟩ :: es,
      .entry (.own ..) (.own _ _ _ here) hLists, ?_⟩
    rw [List.map_cons, List.map_cons, hSettings]
    rfl

/-- Any list of names and values is a mapping for some text. -/
theorem exists_isMapping (settings : List (String × String)) :
    ∃ text start es, IsMapping (.ofText text) start es ∧
      es.map Entry.setting = settings.map fun s => (s.1, some s.2) := by
  obtain ⟨parts, hKinds, hDocument⟩ :=
    Yaml.Document.ofText_mappingText (settings.map fun s => (s.1.toList, s.2.toList))
  obtain ⟨⟨_, start⟩, rest, rfl, rfl, hRest⟩ := List.map_eq_cons_iff.mp hKinds
  obtain ⟨es, hLists, hSettings⟩ := exists_lists (⟨.mappingStart none, start⟩ :: rest) hRest
  refine ⟨_, start, es, ⟨by rw [hDocument], ⟨none, by rw [hDocument]; rfl⟩, by rwa [hDocument]⟩, ?_⟩
  rw [hSettings, List.map_map]
  refine List.map_congr_left fun s _ => ?_
  simp

/-! ## Configurations -/

/-- Any list of names and values is a mapping for some text. A mapping is a configuration iff each
    entry is for a setting, no two are for the same, and what they settle has no blank setting.
    Otherwise it is at fault for the first entry that is for no setting or for one that has been
    there, whatever the values are; only if there is none, it is at fault for its first blank
    setting. In which order the entries stand makes no difference to the configuration. -/
theorem ofText_of_isMapping :
    (∀ settings : List (String × String), ∃ text start es, IsMapping (.ofText text) start es ∧
      es.map Entry.setting = settings.map fun s => (s.1, some s.2)) ∧
    ∀ {text start es}, IsMapping (.ofText text) start es →
      (∀ c, ofText text = .ok c ↔ AreProper es ∧ Settles es c ∧ ∀ field, ¬ c.BlankAt field) ∧
      (∀ fault, ofText text = .error fault ↔
        (∃ before e after, es = before ++ e :: after ∧ AreProper before ∧
          e.Breaks start before fault) ∨
        ∃ c field, AreProper es ∧ Settles es c ∧ c.IsFirstBlank field ∧ fault = .blank field) ∧
      ∀ text' start' es', IsMapping (.ofText text') start' es' →
        (es.map Entry.setting).Perm (es'.map Entry.setting) →
        ∀ c, ofText text = .ok c ↔ ofText text' = .ok c := by
  have hOk {text start es} (h : IsMapping (.ofText text) start es) (c : Config) :
      ofText text = .ok c ↔ AreProper es ∧ Settles es c ∧ ∀ field, ¬ c.BlankAt field := by
    rw [ofText_eq_ofEntries h, ofEntries_eq_ok_iff h.listed.haveTexts]
  refine ⟨exists_isMapping, fun h => ⟨hOk h, fun fault => ?_, fun text' start' es' h' hPerm c => ?_⟩⟩
  · rw [ofText_eq_ofEntries h, ofEntries_eq_error_iff h.listed.haveTexts]
  · rw [hOk h, hOk h']
    constructor
    · rintro ⟨hProper, hSettles, hBlank⟩
      exact ⟨hProper.of_perm hPerm, hSettles.of_perm hPerm, hBlank⟩
    · rintro ⟨hProper, hSettles, hBlank⟩
      exact ⟨hProper.of_perm hPerm.symm, hSettles.of_perm hPerm.symm, hBlank⟩

/-- A blank marker, a misspelt name, and a second marker behind it. -/
def misspelt : List Char := "source_suffix: .policy\nmarker: ''\nsufix: .rego\nmarker: M\n".toList

/-- Two settings, on a line each. -/
def byLines : List Char := "marker: M\nsource_suffix: .policy\n".toList

/-- The same two settings in braces, the other way round. -/
def inBraces : List Char := "\x7bsource_suffix: '.policy', marker: M\x7d".toList

/-- The misspelt name is reported, not the blank marker before it or the second one behind it. -/
theorem ofText_of_isMapping_misspelt :
    (IsMapping (.ofText misspelt) ⟨0, 0, 0⟩
        [⟨"source_suffix", ⟨0, 0, 0⟩, some ".policy"⟩, ⟨"marker", ⟨23, 1, 0⟩, some ""⟩,
          ⟨"sufix", ⟨34, 2, 0⟩, some ".rego"⟩, ⟨"marker", ⟨47, 3, 0⟩, some "M"⟩] ∧
      ofText misspelt = .error (.unknownField "sufix" ⟨34, 2, 0⟩)) ∧
    ofText byLines = .ok ⟨"#", "M", ".policy"⟩ ∧ ofText inBraces = .ok ⟨"#", "M", ".policy"⟩ := by
  have hMisspelt : IsMapping (.ofText misspelt) ⟨0, 0, 0⟩
      [⟨"source_suffix", ⟨0, 0, 0⟩, some ".policy"⟩, ⟨"marker", ⟨23, 1, 0⟩, some ""⟩,
        ⟨"sufix", ⟨34, 2, 0⟩, some ".rego"⟩, ⟨"marker", ⟨47, 3, 0⟩, some "M"⟩] := by decide +kernel
  have hByLines : IsMapping (.ofText byLines) ⟨0, 0, 0⟩
      [⟨"marker", ⟨0, 0, 0⟩, some "M"⟩, ⟨"source_suffix", ⟨10, 1, 0⟩, some ".policy"⟩] := by
    decide +kernel
  have hInBraces : IsMapping (.ofText inBraces) ⟨0, 0, 0⟩
      [⟨"source_suffix", ⟨1, 0, 1⟩, some ".policy"⟩, ⟨"marker", ⟨27, 0, 27⟩, some "M"⟩] := by
    decide +kernel
  have hBefore : AreProper
      [⟨"source_suffix", ⟨0, 0, 0⟩, some ".policy"⟩, ⟨"marker", ⟨23, 1, 0⟩, some ""⟩] := by
    decide +kernel
  have hLines := ((ofText_of_isMapping.2 hByLines).1 ⟨"#", "M", ".policy"⟩).mpr
    ⟨by decide +kernel, by decide +kernel, by decide +kernel⟩
  refine ⟨⟨hMisspelt, ?_⟩, hLines, ?_⟩
  · refine ((ofText_of_isMapping.2 hMisspelt).2.1 _).mpr (.inl ⟨_, _, _, rfl, hBefore, .unknown ?_⟩)
    decide +kernel
  · exact ((ofText_of_isMapping.2 hByLines).2.2 inBraces _ _ hInBraces (by decide +kernel) _).mp hLines

end SnippetAudit.Config
