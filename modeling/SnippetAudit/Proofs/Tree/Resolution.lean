import SnippetAudit.Proofs.Path.Join
import SnippetAudit.Tree.Disk

/-!
# Where a path leads

Resolving a path as a relation, without a limit on the links that are followed or on the
length of anything, and what lies below a path entry by entry.

Results:
* `leads_of_resolve`: a path is resolved to where it leads.
* `Leads.unique`: a path leads to one place.
* `Leads.split`: a path that goes on leads through a directory.
* `Leads.join`: a name joined to the path of a directory leads where the name leads in it.
-/

namespace SnippetAudit.Disk

variable {d : Disk}

/-! ## Specification -/

/-- A part that names an entry. -/
structure IsStep (part : List UInt8) : Prop where
  not_idle : ¬ (part = [] ∨ part = [0x2E])
  ne_up : part ≠ [0x2E, 0x2E]

/-- Parts lead from a directory to an entry, under the names where it is found. -/
inductive Leads (d : Disk) :
    List (List UInt8) → List (List UInt8) → List (List UInt8) × Entry → Prop
  | here {directory} : Leads d directory [] (directory, .directory)
  | idle {directory part parts r} (hPart : part = [] ∨ part = [0x2E])
    (hRest : Leads d directory parts r) : Leads d directory (part :: parts) r
  | up {directory parts r} (hRest : Leads d directory.dropLast parts r) :
    Leads d directory ([0x2E, 0x2E] :: parts) r
  | enter {directory part parts r} (hPart : IsStep part)
    (h : d.lookup? (directory ++ [part]) = some .directory)
    (hRest : Leads d (directory ++ [part]) parts r) : Leads d directory (part :: parts) r
  | follow {directory part parts target r} (hPart : IsStep part)
    (h : d.lookup? (directory ++ [part]) = some (.link target))
    (hRest : Leads d (startOf directory target) (Path.splitParts target.bytes ++ parts) r) :
    Leads d directory (part :: parts) r
  | stop {directory part entry} (hPart : IsStep part)
    (h : d.lookup? (directory ++ [part]) = some entry) (hDirectory : entry ≠ .directory)
    (hLink : ∀ target, entry ≠ .link target) :
    Leads d directory [part] (directory ++ [part], entry)

/-- Where a path leads. -/
def PathLeads (d : Disk) (path : Path) (r : List (List UInt8) × Entry) : Prop :=
  d.Leads (startOf d.workingDirectory path) (Path.splitParts path.bytes) r

/-- What is reached from a root, entry by entry and through links, with the names on the way. -/
inductive Reaches (d : Disk) (root : Path) :
    List (List UInt8) → List (List UInt8) × Entry → Prop
  | root {r} (h : d.PathLeads root r) : Reaches d root [] r
  | entry {way directory name r} (h : Reaches d root way (directory, .directory))
    (hName : name ∈ d.namesIn directory) (hEntry : d.Leads directory [name] r) :
    Reaches d root (way ++ [name]) r

/-- Every name on the disk can be the name of an entry. -/
def HasNames (d : Disk) : Prop := ∀ e ∈ d.entries, ∀ name ∈ e.1, Path.IsName name

instance : Decidable d.HasNames :=
  inferInstanceAs (Decidable (∀ e ∈ d.entries, ∀ name ∈ e.1, Path.IsName name))

/-! ## Resolving -/

theorem leads_of_resolveParts {follow : List (List UInt8) → List (List UInt8) → Resolved}
    (hFollow : ∀ directory parts r, follow directory parts = .ok r → d.Leads directory parts r)
    {directory parts : List (List UInt8)} {r : List (List UInt8) × Entry}
    (h : resolveParts d follow directory parts = .ok r) : d.Leads directory parts r := by
  induction parts generalizing directory with
  | nil =>
    rw [resolveParts] at h
    cases h
    exact .here
  | cons part parts ih =>
    rw [resolveParts] at h
    split at h
    · rename_i hPart
      exact .idle hPart (ih h)
    · rename_i hIdle
      split at h
      · rename_i hUp
        rw [hUp]
        exact .up (ih h)
      · rename_i hUp
        split at h
        · cases h
        · simp only at h
          split at h
          · cases h
          · rename_i hLookup
            exact .enter ⟨hIdle, hUp⟩ hLookup (ih h)
          · rename_i target hLookup
            exact .follow ⟨hIdle, hUp⟩ hLookup (hFollow _ _ _ h)
          · rename_i entry hDirectory hLink hLookup
            split at h
            · rename_i hNil
              cases h
              rw [List.isEmpty_iff.mp hNil]
              exact .stop ⟨hIdle, hUp⟩ hLookup (fun hEq => hDirectory hEq)
                fun target hEq => hLink target hEq
            · cases h

theorem leads_of_resolveFrom {links : ℕ} {directory parts : List (List UInt8)}
    {r : List (List UInt8) × Entry} (h : d.resolveFrom links directory parts = .ok r) :
    d.Leads directory parts r := by
  induction links generalizing directory parts r with
  | zero => cases h
  | succ links ih => exact leads_of_resolveParts (fun _ _ _ => ih) h

/-- A path is resolved to where it leads, and the empty path to nothing. -/
theorem leads_of_resolve {path : Path} {r : List (List UInt8) × Entry} (h : d.resolve path = .ok r) :
    path.bytes ≠ [] ∧ d.PathLeads path r := by
  unfold resolve at h
  split at h
  · cases h
  split at h
  · cases h
  split at h
  · cases h
  · rename_i hNil _
    exact ⟨fun hEq => hNil (List.isEmpty_iff.mpr hEq), leads_of_resolveFrom h⟩

/-! ## Parts -/

/-- Parts lead to one place. -/
theorem Leads.unique {directory parts : List (List UInt8)} {r r' : List (List UInt8) × Entry}
    (h : d.Leads directory parts r) (h' : d.Leads directory parts r') : r = r' := by
  induction h generalizing r' with
  | here =>
    cases h'
    rfl
  | idle hPart _ ih =>
    cases h' with
    | idle _ hRest => exact ih hRest
    | up _ => simp at hPart
    | enter hStep _ _ => exact absurd hPart hStep.not_idle
    | follow hStep _ _ => exact absurd hPart hStep.not_idle
    | stop hStep _ _ _ => exact absurd hPart hStep.not_idle
  | up _ ih =>
    cases h' with
    | idle hPart _ => simp at hPart
    | up hRest => exact ih hRest
    | enter hStep _ _ => exact absurd rfl hStep.ne_up
    | follow hStep _ _ => exact absurd rfl hStep.ne_up
    | stop hStep _ _ _ => exact absurd rfl hStep.ne_up
  | enter hStep hLookup _ ih =>
    cases h' with
    | idle hPart _ => exact absurd hPart hStep.not_idle
    | up _ => exact absurd rfl hStep.ne_up
    | enter _ _ hRest => exact ih hRest
    | follow _ hLookup' _ => cases hLookup.symm.trans hLookup'
    | stop _ hLookup' hDirectory _ =>
      exact absurd (Option.some.inj (hLookup'.symm.trans hLookup)) hDirectory
  | follow hStep hLookup _ ih =>
    cases h' with
    | idle hPart _ => exact absurd hPart hStep.not_idle
    | up _ => exact absurd rfl hStep.ne_up
    | enter _ hLookup' _ => cases hLookup.symm.trans hLookup'
    | follow _ hLookup' hRest =>
      cases hLookup.symm.trans hLookup'
      exact ih hRest
    | stop _ hLookup' _ hLink =>
      exact absurd (Option.some.inj (hLookup'.symm.trans hLookup)) (hLink _)
  | stop hStep hLookup hDirectory hLink =>
    cases h' with
    | idle hPart _ => exact absurd hPart hStep.not_idle
    | up _ => exact absurd rfl hStep.ne_up
    | enter _ hLookup' _ => exact absurd (Option.some.inj (hLookup.symm.trans hLookup')) hDirectory
    | follow _ hLookup' _ => exact absurd (Option.some.inj (hLookup.symm.trans hLookup')) (hLink _)
    | stop _ hLookup' _ _ => rw [Option.some.inj (hLookup.symm.trans hLookup')]

/-- Parts that go on lead through a directory. -/
theorem Leads.split {directory parts rest : List (List UInt8)} {r : List (List UInt8) × Entry}
    (h : d.Leads directory (parts ++ rest) r) (hRest : rest ≠ []) :
    ∃ names, d.Leads directory parts (names, .directory) ∧ d.Leads names rest r := by
  generalize hAll : parts ++ rest = all at h
  induction h generalizing parts with
  | here => exact absurd (List.append_eq_nil_iff.mp hAll).2 hRest
  | idle hPart h ih =>
    cases parts with
    | nil =>
      obtain rfl : rest = _ := hAll
      exact ⟨_, .here, .idle hPart h⟩
    | cons part parts =>
      obtain ⟨rfl, hParts⟩ := List.cons.inj hAll
      obtain ⟨names, hFirst, hThen⟩ := ih hParts
      exact ⟨names, .idle hPart hFirst, hThen⟩
  | up h ih =>
    cases parts with
    | nil =>
      obtain rfl : rest = _ := hAll
      exact ⟨_, .here, .up h⟩
    | cons part parts =>
      obtain ⟨rfl, hParts⟩ := List.cons.inj hAll
      obtain ⟨names, hFirst, hThen⟩ := ih hParts
      exact ⟨names, .up hFirst, hThen⟩
  | enter hStep hLookup h ih =>
    cases parts with
    | nil =>
      obtain rfl : rest = _ := hAll
      exact ⟨_, .here, .enter hStep hLookup h⟩
    | cons part parts =>
      obtain ⟨rfl, hParts⟩ := List.cons.inj hAll
      obtain ⟨names, hFirst, hThen⟩ := ih hParts
      exact ⟨names, .enter hStep hLookup hFirst, hThen⟩
  | follow hStep hLookup h ih =>
    cases parts with
    | nil =>
      obtain rfl : rest = _ := hAll
      exact ⟨_, .here, .follow hStep hLookup h⟩
    | cons part parts =>
      obtain ⟨rfl, rfl⟩ := List.cons.inj hAll
      -- the parts of the target come before those that go on
      obtain ⟨names, hFirst, hThen⟩ := ih (List.append_assoc ..)
      exact ⟨names, .follow hStep hLookup hFirst, hThen⟩
  | stop hStep hLookup hDirectory hLink =>
    cases parts with
    | nil =>
      obtain rfl : rest = _ := hAll
      exact ⟨_, .here, .stop hStep hLookup hDirectory hLink⟩
    | cons part parts =>
      obtain ⟨_, hNil⟩ := List.cons.inj hAll
      exact absurd (List.append_eq_nil_iff.mp hNil).2 hRest

/-- An idle part leads nowhere else. -/
theorem Leads.of_idle {directory : List (List UInt8)} {part : List UInt8}
    {r : List (List UInt8) × Entry} (hPart : part = [] ∨ part = [0x2E])
    (h : d.Leads directory [part] r) : r = (directory, .directory) :=
  h.unique (.idle hPart .here)

/-! ## Joining -/

theorem startOf_join {directory : List (List UInt8)} {path : Path} {name : List UInt8}
    (hName : Path.IsName name) (hNil : path.bytes ≠ []) :
    startOf directory (path.join ⟨name⟩) = startOf directory path := by
  have hHead {tail : List UInt8} :
      (Path.mk (path.bytes ++ tail)).isAbsolute = path.isAbsolute := by
    obtain ⟨b, bytes, hBytes⟩ := List.exists_cons_of_ne_nil hNil
    rw [Path.isAbsolute, Path.isAbsolute, hBytes, List.cons_append, List.head?_cons, List.head?_cons]
  unfold startOf
  by_cases hOpen : Path.IsOpen path.bytes
  · rw [Path.join_of_isOpen hName hOpen, hHead]
  · rw [Path.join_of_not_isOpen hName hOpen, hHead]

/-- A name joined to the path of a directory leads where the name leads in it. -/
theorem PathLeads.join {path : Path} {names : List (List UInt8)} {name : List UInt8}
    {r : List (List UInt8) × Entry} (h : d.PathLeads path (names, .directory))
    (hName : Path.IsName name) (hNil : path.bytes ≠ []) (hJoin : d.PathLeads (path.join ⟨name⟩) r) :
    d.Leads names [name] r := by
  unfold PathLeads at h hJoin
  rw [startOf_join hName hNil] at hJoin
  by_cases hOpen : Path.IsOpen path.bytes
  · -- the last part of the path is empty, and the name takes its place
    rcases Path.isOpen_iff.mp hOpen with hEmpty | ⟨front, hFront⟩
    · exact absurd hEmpty hNil
    · rw [Path.join_of_isOpen hName hOpen, hFront, List.append_assoc, List.singleton_append,
        Path.splitParts_append_separator, Path.splitParts_eq_singleton hName.separator_not_mem] at hJoin
      rw [hFront, Path.splitParts_append_separator, show Path.splitParts [] = [[]] from rfl] at h
      obtain ⟨names₁, hFirst, hLast⟩ := h.split (by simp)
      obtain ⟨names₂, hFirst', hThen⟩ := hJoin.split (by simp)
      cases hFirst.unique hFirst'
      cases hLast.of_idle (.inl rfl)
      exact hThen
  · rw [Path.join_of_not_isOpen hName hOpen, Path.splitParts_append_separator,
      Path.splitParts_eq_singleton hName.separator_not_mem] at hJoin
    obtain ⟨names', hFirst, hThen⟩ := hJoin.split (by simp)
    cases hFirst.unique h
    exact hThen

/-! ## Entries -/

/-- A name leads somewhere only if it is the name of an entry. -/
theorem mem_namesIn_of_leads {directory : List (List UInt8)} {name : List UInt8}
    {r : List (List UInt8) × Entry} (hName : Path.IsName name) (h : d.Leads directory [name] r) :
    name ∈ d.namesIn directory := by
  have hLookup : ∃ entry, d.lookup? (directory ++ [name]) = some entry := by
    cases h with
    | idle hPart _ => exact (hPart.elim hName.ne_nil hName.ne_here).elim
    | up _ => exact absurd rfl hName.ne_up
    | enter _ hLookup _ => exact ⟨_, hLookup⟩
    | follow _ hLookup _ => exact ⟨_, hLookup⟩
    | stop _ hLookup _ _ => exact ⟨_, hLookup⟩
  obtain ⟨entry, hEntry⟩ := hLookup
  unfold lookup? at hEntry
  rw [if_neg (by simp)] at hEntry
  obtain ⟨front, back, hEntries, _⟩ := List.lookup_eq_some_iff.mp hEntry
  unfold namesIn
  rw [hEntries, List.mem_filterMap]
  refine ⟨(directory ++ [name], entry), by simp, ?_⟩
  simp only
  rw [List.dropLast_concat, if_pos rfl, List.getLast?_concat]

theorem isName_of_mem_namesIn (hDisk : d.HasNames) {directory : List (List UInt8)}
    {name : List UInt8} (h : name ∈ d.namesIn directory) : Path.IsName name := by
  obtain ⟨⟨names, entry⟩, hEntry, hLast⟩ := List.mem_filterMap.mp h
  simp only at hLast
  split at hLast
  · exact hDisk (names, entry) hEntry name (List.mem_of_getLast? hLast)
  · cases hLast

/-- What is reached through a name is reached through the directory of the name. -/
theorem Reaches.split {root : Path} {front back : List (List UInt8)} {name : List UInt8}
    {r : List (List UInt8) × Entry} (h : d.Reaches root (front ++ name :: back) r) :
    ∃ directory, d.Reaches root front (directory, .directory) ∧ name ∈ d.namesIn directory := by
  generalize hWay : front ++ name :: back = way at h
  induction h generalizing back with
  | root _ => simp at hWay
  | entry hReaches hName _ ih =>
    cases back using List.reverseRecOn with
    | nil =>
      obtain ⟨rfl, hSame⟩ := List.append_inj' hWay rfl
      obtain ⟨rfl, _⟩ := List.cons.inj hSame
      exact ⟨_, hReaches, hName⟩
    | append_singleton back last =>
      rw [← List.cons_append, ← List.append_assoc] at hWay
      exact ih (List.append_inj' hWay rfl).1

theorem isName_of_mem_way (hDisk : d.HasNames) {root : Path} {way : List (List UInt8)}
    {r : List (List UInt8) × Entry} (h : d.Reaches root way r) : ∀ name ∈ way, Path.IsName name := by
  induction h with
  | root _ => simp
  | entry _ hName _ ih =>
    intro name hMem
    rcases List.mem_append.mp hMem with hMem | hMem
    · exact ih name hMem
    · rw [List.mem_singleton.mp hMem]
      exact isName_of_mem_namesIn hDisk hName

end SnippetAudit.Disk
