import Mathlib.Data.List.Induction
import SnippetAudit.Path
import SnippetAudit.Proofs.Text.Decoding

/-!
# Joining names to a path

A name as a directory entry has it adds one component to a path, whatever way the path is
written. So the entries below a path are told apart by their names.

Results:
* `components_join_of_relative`: the components of a path with a relative path joined to it.
* `components_join`: joining a name adds the component of the name.
* `fileName?_join`, `isName_of_fileName?`: what is joined last is the file name, and a file name is
  always such a name.
* `joinAll_inj`: different names lead to different places.
* `IsTextName.isName`, `IsName.isTextName`: a text without separators that is no dots is a name.
-/

namespace SnippetAudit.Path

open Text

/-! ## Names -/

/-- What a directory entry can be called. -/
structure IsName (name : List UInt8) : Prop where
  ne_nil : name ≠ []
  ne_here : name ≠ [0x2E]
  ne_up : name ≠ [0x2E, 0x2E]
  separator_not_mem : separator ∉ name

theorem isName_iff {name : List UInt8} :
    IsName name ↔ name ≠ [] ∧ name ≠ [0x2E] ∧ name ≠ [0x2E, 0x2E] ∧ separator ∉ name :=
  ⟨fun ⟨h₁, h₂, h₃, h₄⟩ => ⟨h₁, h₂, h₃, h₄⟩, fun ⟨h₁, h₂, h₃, h₄⟩ => ⟨h₁, h₂, h₃, h₄⟩⟩

instance (name : List UInt8) : Decidable (IsName name) := decidable_of_iff _ isName_iff.symm

/-- The names joined to a path one after another. -/
def joinAll (p : Path) (names : List (List UInt8)) : Path :=
  names.foldl (fun q name => q.join ⟨name⟩) p

theorem partComponent?_of_isName {name : List UInt8} (h : IsName name) :
    partComponent? name = some (.name name) := by
  rw [partComponent?, if_neg (not_or.mpr ⟨h.ne_nil, h.ne_here⟩), if_neg h.ne_up]

theorem isAbsolute_of_isName {name : List UInt8} (h : IsName name) :
    (Path.mk name).isAbsolute = false := by
  unfold isAbsolute
  cases name with
  | nil => rfl
  | cons b name =>
    have hb : b ≠ separator := fun hb => h.separator_not_mem (hb ▸ List.mem_cons_self)
    simpa using hb

/-! ## Parts -/

theorem splitParts_cons_of_ne {b : UInt8} (hb : b ≠ separator) (bytes : List UInt8) :
    splitParts (b :: bytes) = (splitParts bytes).modifyHead (b :: ·) := by
  rw [splitParts, if_neg hb]
  cases hParts : splitParts bytes with
  | nil => exact absurd hParts (splitParts_ne_nil bytes)
  | cons part parts => rfl

/-- Bytes without a separator are one part. -/
theorem splitParts_eq_singleton {bytes : List UInt8} (h : separator ∉ bytes) :
    splitParts bytes = [bytes] := by
  induction bytes with
  | nil => rfl
  | cons b bytes ih =>
    rw [List.mem_cons, not_or] at h
    rw [splitParts_cons_of_ne (Ne.symm h.1), ih h.2, List.modifyHead_cons]

theorem separator_not_mem_of_mem_splitParts {bytes part : List UInt8} (h : part ∈ splitParts bytes) :
    separator ∉ part := by
  induction bytes generalizing part with
  | nil =>
    rw [List.mem_singleton.mp h]
    exact List.not_mem_nil
  | cons b bytes ih =>
    by_cases hb : b = separator
    · rw [splitParts, if_pos hb] at h
      rcases List.mem_cons.mp h with rfl | h
      · exact List.not_mem_nil
      · exact ih h
    · rw [splitParts_cons_of_ne hb] at h
      cases hParts : splitParts bytes with
      | nil => exact absurd hParts (splitParts_ne_nil bytes)
      | cons first parts =>
        rw [hParts] at h ih
        rcases List.mem_cons.mp h with rfl | h
        · rw [List.mem_cons, not_or]
          exact ⟨Ne.symm hb, ih List.mem_cons_self⟩
        · exact ih (List.mem_cons_of_mem _ h)

/-- A separator ends a part. -/
theorem splitParts_append_separator (a b : List UInt8) :
    splitParts (a ++ separator :: b) = splitParts a ++ splitParts b := by
  induction a with
  | nil => rfl
  | cons c a ih =>
    by_cases hc : c = separator
    · rw [List.cons_append, splitParts, if_pos hc, ih, splitParts, if_pos hc]
      rfl
    · rw [List.cons_append, splitParts_cons_of_ne hc, ih, splitParts_cons_of_ne hc]
      cases hParts : splitParts a with
      | nil => exact absurd hParts (splitParts_ne_nil a)
      | cons part parts => rfl

/-- Bytes behind which a part starts: there are none, or the last is a separator. -/
def IsOpen (bytes : List UInt8) : Prop := bytes.getLast?.all (· == separator) = true

instance (bytes : List UInt8) : Decidable (IsOpen bytes) := inferInstanceAs (Decidable (_ = true))

theorem isOpen_iff {bytes : List UInt8} :
    IsOpen bytes ↔ bytes = [] ∨ ∃ front, bytes = front ++ [separator] := by
  unfold IsOpen
  cases bytes using List.reverseRecOn with
  | nil => simp
  | append_singleton front b => simp [List.getLast?_append]

theorem join_of_isOpen {p : Path} {name : List UInt8} (h : IsName name) (hOpen : IsOpen p.bytes) :
    p.join ⟨name⟩ = ⟨p.bytes ++ name⟩ := by
  unfold IsOpen at hOpen
  rw [join, isAbsolute_of_isName h, if_neg Bool.false_ne_true, if_pos hOpen]

theorem join_of_not_isOpen {p : Path} {name : List UInt8} (h : IsName name)
    (hOpen : ¬ IsOpen p.bytes) : p.join ⟨name⟩ = ⟨p.bytes ++ separator :: name⟩ := by
  unfold IsOpen at hOpen
  rw [join, isAbsolute_of_isName h, if_neg Bool.false_ne_true, if_neg hOpen]

/-- What stands behind open bytes is cut on its own, and the part that it takes up was empty. -/
theorem filterMap_splitParts_append_of_isOpen {α : Type} {f : List UInt8 → Option α} (hf : f [] = none)
    {bytes : List UInt8} (hOpen : IsOpen bytes) (tail : List UInt8) :
    (splitParts (bytes ++ tail)).filterMap f = (splitParts bytes ++ splitParts tail).filterMap f := by
  have hNil : splitParts [] = [[]] := rfl
  rcases isOpen_iff.mp hOpen with rfl | ⟨front, rfl⟩
  · rw [List.nil_append, hNil, List.filterMap_append, List.filterMap_cons_none hf, List.filterMap_nil,
      List.nil_append]
  · rw [List.append_assoc, List.singleton_append, splitParts_append_separator,
      splitParts_append_separator, hNil]
    simp only [List.filterMap_append, List.filterMap_cons_none hf, List.filterMap_nil,
      List.append_nil]

/-! ## Components -/

/-- Bytes behind a path leave its lead alone, unless they turn `.` into a longer name. -/
theorem cut_append {p : Path} {tail : List UInt8} (h : p.bytes ≠ [])
    (hHere : p.bytes = [0x2E] → ∃ rest, tail = separator :: rest) :
    cut ⟨p.bytes ++ tail⟩ = (p.cut.1, p.cut.2 ++ tail) := by
  fun_cases cut p with
  | case1 rest hBytes => rw [hBytes]; rfl
  | case2 hBytes =>
    obtain ⟨rest, rfl⟩ := hHere hBytes
    rw [hBytes]
    rfl
  | case3 rest hBytes => rw [hBytes]; rfl
  | case4 hRoot hDot hHereRest =>
    -- the first bytes decide on the lead, and they are bytes of the path
    obtain ⟨b, bytes, hBytes⟩ := List.exists_cons_of_ne_nil h
    rw [hBytes] at hRoot hDot hHereRest ⊢
    unfold cut
    split
    · rename_i rest hEq
      injection hEq with hb _
      exact absurd (by rw [hb]) (hRoot bytes)
    · rename_i hEq
      injection hEq with hb hNil
      exact absurd (by rw [hb, (List.append_eq_nil_iff.mp hNil).1]) hDot
    · rename_i rest hEq
      injection hEq with hb hRest
      cases bytes with
      | nil => exact absurd (by rw [hb]) hDot
      | cons c bytes =>
        injection hRest with hc _
        exact absurd (by rw [hb, hc]) (hHereRest bytes)
    · rfl

theorem cut_of_isName {name : List UInt8} (h : IsName name) : cut ⟨name⟩ = (.none, name) := by
  have hSeparator := h.separator_not_mem
  unfold cut
  split
  · rename_i rest hName
    rw [show name = separator :: rest from hName] at hSeparator
    exact absurd List.mem_cons_self hSeparator
  · rename_i hName
    exact absurd hName h.ne_here
  · rename_i rest hName
    rw [show name = 0x2E :: separator :: rest from hName] at hSeparator
    exact absurd (List.mem_cons_of_mem _ List.mem_cons_self) hSeparator
  · rfl

theorem isOpen_of_append {a b : List UInt8} (h : IsOpen (a ++ b)) : IsOpen b := by
  cases b using List.reverseRecOn with
  | nil => rfl
  | append_singleton b c =>
    unfold IsOpen at h ⊢
    rw [← List.append_assoc, List.getLast?_concat] at h
    rw [List.getLast?_concat]
    exact h

theorem isOpen_cut {p : Path} (h : IsOpen p.bytes) : IsOpen p.cut.2 := by
  rw [← cut_bytes p] at h
  exact isOpen_of_append h

theorem partComponent?_ne_here (part : List UInt8) : partComponent? part ≠ some .here := by
  unfold partComponent?
  split
  · simp
  · split <;> simp

/-- No part stands for `.`, so only the lead can. -/
theorem filter_ne_here_filterMap (parts : List (List UInt8)) :
    (parts.filterMap partComponent?).filter (· ≠ .here) = parts.filterMap partComponent? := by
  rw [List.filter_eq_self]
  intro c hc
  obtain ⟨part, _, hPart⟩ := List.mem_filterMap.mp hc
  have hNe : c ≠ .here := fun hHere => partComponent?_ne_here part (hHere ▸ hPart)
  simpa using hNe

/-- The parts of a relative path stand for its components, but for a leading `.`. -/
theorem filterMap_splitParts_of_relative {p : Path} (h : p.isAbsolute = false) :
    (splitParts p.bytes).filterMap partComponent? = p.components.filter (· ≠ .here) := by
  unfold components body
  rw [List.filter_append, filter_ne_here_filterMap]
  fun_cases cut p with
  | case1 rest hBytes =>
    rw [isAbsolute, hBytes] at h
    cases h
  | case2 hBytes =>
    rw [hBytes]
    rfl
  | case3 rest hBytes =>
    have hRest : splitParts (0x2F :: rest) = [] :: splitParts rest := rfl
    have hBoth : splitParts (0x2E :: 0x2F :: rest) = [0x2E] :: splitParts rest :=
      splitParts_append_separator [0x2E] rest
    rw [hBytes, hRest, hBoth]
    rfl
  | case4 => rfl

/-- Joining a relative path adds its components, but for a leading `.`, unless it is joined to a path that
    is written with nothing. -/
theorem components_join_of_relative (p : Path) {name : Path} (h : name.isAbsolute = false) :
    (p.join name).components =
      if p.bytes = [] then name.components
      else p.components ++ name.components.filter (· ≠ .here) := by
  have hIdle : partComponent? [] = none := rfl
  rw [join, h, if_neg Bool.false_ne_true, ← filterMap_splitParts_of_relative h]
  split
  · rename_i hOpen
    split
    · rename_i hNil
      rw [hNil, List.nil_append]
    · rename_i hNil
      have hCut : cut ⟨p.bytes ++ name.bytes⟩ = (p.cut.1, p.cut.2 ++ name.bytes) := by
        apply cut_append hNil
        intro hHere
        rw [hHere] at hOpen
        exact absurd hOpen (by decide)
      rw [components, body, hCut, filterMap_splitParts_append_of_isOpen hIdle (isOpen_cut hOpen),
        List.filterMap_append, ← List.append_assoc]
      rfl
  · rename_i hOpen
    have hNil : p.bytes ≠ [] := fun hNil => hOpen (hNil ▸ rfl)
    rw [if_neg hNil, components, body, cut_append hNil fun _ => ⟨name.bytes, rfl⟩,
      splitParts_append_separator, List.filterMap_append, ← List.append_assoc]
    rfl

theorem components_of_isName {name : List UInt8} (h : IsName name) :
    (Path.mk name).components = [.name name] := by
  rw [components, body, cut_of_isName h, splitParts_eq_singleton h.separator_not_mem,
    List.filterMap_cons_some (partComponent?_of_isName h)]
  rfl

/-- Joining a name adds the component of the name. -/
theorem components_join (p : Path) {name : List UInt8} (h : IsName name) :
    (p.join ⟨name⟩).components = p.components ++ [.name name] := by
  rw [components_join_of_relative p (isAbsolute_of_isName h), components_of_isName h]
  split
  · rename_i hNil
    obtain rfl : p = ⟨[]⟩ := by rw [← hNil]
    rfl
  · rfl

/-- What is joined last is the file name. -/
theorem fileName?_join (p : Path) {name : List UInt8} (h : IsName name) :
    (p.join ⟨name⟩).fileName? = some name := by
  rw [fileName?, components_join p h, List.getLast?_concat]

/-- A file name is the name of an entry. -/
theorem isName_of_fileName? {p : Path} {name : List UInt8} (h : p.fileName? = some name) :
    IsName name := by
  unfold fileName? at h
  split at h
  · rename_i bytes hLast
    cases h
    have hNotLead : .name name ∉ p.cut.1.components := by
      cases p.cut.1 <;> simp [Lead.components]
    have hBody := (List.mem_append.mp (List.mem_of_getLast? hLast)).resolve_left hNotLead
    obtain ⟨part, hPart, hComponent⟩ := List.mem_filterMap.mp hBody
    have hSeparator := separator_not_mem_of_mem_splitParts hPart
    unfold partComponent? at hComponent
    split at hComponent
    · cases hComponent
    · rename_i hIdle
      split at hComponent
      · cases hComponent
      · rename_i hUp
        cases hComponent
        obtain ⟨hNil, hHere⟩ := not_or.mp hIdle
        exact ⟨hNil, hHere, hUp, hSeparator⟩
  · cases h

/-! ## Several names -/

theorem joinAll_concat (p : Path) (names : List (List UInt8)) (name : List UInt8) :
    p.joinAll (names ++ [name]) = (p.joinAll names).join ⟨name⟩ := by
  rw [joinAll, List.foldl_append]
  rfl

theorem components_joinAll (p : Path) {names : List (List UInt8)} (h : ∀ n ∈ names, IsName n) :
    (p.joinAll names).components = p.components ++ names.map .name := by
  induction names generalizing p with
  | nil => rw [List.map_nil, List.append_nil]; rfl
  | cons name names ih =>
    have hTail := ih (p.join ⟨name⟩) fun n hn => h n (List.mem_cons_of_mem _ hn)
    rw [components_join p (h name List.mem_cons_self), List.append_assoc] at hTail
    exact hTail

/-- Different names lead to different places. -/
theorem joinAll_inj (p : Path) {names names' : List (List UInt8)} (h : ∀ n ∈ names, IsName n)
    (h' : ∀ n ∈ names', IsName n)
    (hSame : (p.joinAll names).components = (p.joinAll names').components) : names = names' := by
  rw [components_joinAll p h, components_joinAll p h'] at hSame
  have hNames := List.append_cancel_left hSame
  exact List.map_inj_right (fun a b hab => Component.name.inj hab) |>.mp hNames

/-! ## Names that are text -/

theorem separator_mem_encode {text : List Char} (h : separator ∈ Utf8.encode text) : '/' ∈ text := by
  obtain ⟨c, hc, hMem⟩ := List.mem_flatMap.mp h
  have hNat := Utf8.toNat_of_mem_utf8EncodeChar hMem (by decide)
  have hChar : c = '/' := Char.toNat_inj.mp hNat
  exact hChar ▸ hc

/-- A text that can be the name of a directory entry. -/
structure IsTextName (name : List Char) : Prop where
  ne_nil : name ≠ []
  ne_here : name ≠ ['.']
  ne_up : name ≠ ['.', '.']
  separator_not_mem : '/' ∉ name

theorem isTextName_iff {name : List Char} :
    IsTextName name ↔ name ≠ [] ∧ name ≠ ['.'] ∧ name ≠ ['.', '.'] ∧ '/' ∉ name :=
  ⟨fun ⟨h₁, h₂, h₃, h₄⟩ => ⟨h₁, h₂, h₃, h₄⟩, fun ⟨h₁, h₂, h₃, h₄⟩ => ⟨h₁, h₂, h₃, h₄⟩⟩

instance (name : List Char) : Decidable (IsTextName name) := decidable_of_iff _ isTextName_iff.symm

theorem IsTextName.isName {name : List Char} (h : IsTextName name) : IsName (Utf8.encode name) where
  ne_nil := fun hNil => h.ne_nil (Utf8.encode_injective hNil)
  ne_here := fun hHere => h.ne_here (Utf8.encode_injective hHere)
  ne_up := fun hUp => h.ne_up (Utf8.encode_injective hUp)
  separator_not_mem := fun hMem => h.separator_not_mem (separator_mem_encode hMem)

theorem isName_of_mem_map {texts : List (List Char)} (h : ∀ text ∈ texts, IsTextName text) :
    ∀ name ∈ texts.map Utf8.encode, IsName name := by
  intro name hName
  obtain ⟨text, hText, rfl⟩ := List.mem_map.mp hName
  exact (h text hText).isName

/-- What a name is read as is a name again. -/
theorem IsName.isTextName {name : List UInt8} (h : IsName name) :
    IsTextName (Utf8.decodeLossy name) where
  ne_nil := Utf8.decodeLossy_ne_nil h.ne_nil
  ne_here := fun hHere => h.ne_here (Utf8.eq_encode_of_decodeLossy hHere (by decide))
  ne_up := fun hUp => h.ne_up (Utf8.eq_encode_of_decodeLossy hUp (by decide))
  separator_not_mem := fun hMem =>
    h.separator_not_mem (Utf8.mem_of_mem_decodeLossy hMem (by decide) (by decide))

end SnippetAudit.Path
