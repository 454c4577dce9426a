import SnippetAudit.Yaml.Document

/-!
# Reading the parts of a document

What the reader of a document gives for a scalar and for a mapping that come next, with any parts
behind them.

Results:
* `run_node_scalar`: a scalar is read as its value.
* `run_node_mapping`: a mapping is read as its entries.
* `run_entries_nil`, `run_entries_cons`: its entries are read one by one, and a key must be new.
* `value_of_run_node`: a document that is one node is read as its value.
-/

namespace SnippetAudit.Yaml.Read

variable {parts rest : List Part} {size depth follows fuel : Nat} {mark : Mark} {member : Read Value}
  {seen : List Value}

/-- What is read after something else starts where that has ended. -/
theorem run_bind_of_ok {α β : Type} {x : Read α} {f : α → Read β} {r r' : Reader} {a : α}
    (h : x.run r = .ok (a, r')) : (x >>= f).run r = (f a).run r' := by
  rw [StateT.run_bind, h]
  rfl

theorem run_next (part : Part) :
    next.run ⟨part :: rest, follows⟩ = .ok (part, ⟨rest, follows⟩) := rfl

theorem run_node_scalar {text : List Char} {plain : Bool} {v : Value}
    (h : Value.ofScalar none text plain = .ok v) :
    (node parts size (content parts size depth)).run ⟨⟨.scalar none text plain, mark⟩ :: rest, follows⟩ =
      .ok (v, ⟨rest, follows⟩) := by
  show (content parts size depth).run _ = _
  unfold content
  rw [run_bind_of_ok (run_next _)]
  show (liftM (Value.ofScalar none text plain) >>= fun w => pure (tagWith none w) : Read Value).run _ = _
  rw [h]
  rfl

theorem run_node_mapping {es : Entries} {r : Reader}
    (h : (entries (node parts size (content parts size depth)) (size + 1) []).run ⟨rest, follows⟩ =
      .ok (es, r)) :
    (node parts size (content parts size (depth + 1))).run
      ⟨⟨.mappingStart none, mark⟩ :: rest, follows⟩ = .ok (.mapping es, r) := by
  show (content parts size (depth + 1)).run _ = _
  unfold content
  rw [run_bind_of_ok (run_next _)]
  show (entries (node parts size (content parts size depth)) (size + 1) [] >>=
    fun es => pure (tagWith none (.mapping es)) : Read Value).run _ = _
  rw [run_bind_of_ok h]
  rfl

theorem run_entries_nil :
    (entries member (fuel + 1) seen).run ⟨⟨.mappingEnd, mark⟩ :: rest, follows⟩ =
      .ok ([], ⟨rest, follows⟩) := rfl

theorem run_entries_cons {part : Part} {r₁ r₂ r₃ : Reader} {k v : Value} {es : Entries}
    (hPart : part.kind ≠ .mappingEnd) (hKey : member.run ⟨part :: rest, follows⟩ = .ok (k, r₁))
    (hNew : seen.any (·.same k) = false) (hValue : member.run r₁ = .ok (v, r₂))
    (hRest : (entries member fuel (k :: seen)).run r₂ = .ok (es, r₃)) :
    (entries member (fuel + 1) seen).run ⟨part :: rest, follows⟩ = .ok ((k, v) :: es, r₃) := by
  have hMore : (nextIs (· == .mappingEnd)).run ⟨part :: rest, follows⟩ =
      .ok (false, ⟨part :: rest, follows⟩) := by
    show Except.ok (part.kind == .mappingEnd, _) = _
    rw [beq_eq_false_iff_ne.mpr hPart]
  rw [entries, run_bind_of_ok hMore]
  simp only [Bool.false_eq_true, if_false]
  rw [run_bind_of_ok hKey, hNew]
  simp only [Bool.false_eq_true, if_false]
  rw [run_bind_of_ok hValue, run_bind_of_ok hRest]
  rfl

/-- A document that is one node is read as its value. -/
theorem value_of_run_node {part : Part} {v : Value} {r : Reader}
    (h : (node (part :: rest) (rest.length + 1)
      (content (part :: rest) (rest.length + 1) Document.maxDepth)).run ⟨part :: rest, 0⟩ = .ok (v, r)) :
    (Document.mk (part :: rest) none).value = .ok v := by
  unfold Document.value
  simp only [List.isEmpty_cons, Bool.false_and, Bool.false_eq_true, if_false, List.length_cons]
  rw [h]
  rfl

end SnippetAudit.Yaml.Read
