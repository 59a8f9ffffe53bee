import SignalEvolution.Proofs.Json.Range
import SignalEvolution.Proofs.Record.Gene
import SignalEvolution.Record.Migration

/-! # Numbers of records

Records that are read from JSON hold finite numbers only. Records are written with numbers
in range, and migration keeps them there.
-/
namespace SignalEvolution

variable {mode : Mode} {fields out : List (String × Json)} {v w : Json} {name : String}

namespace NodeRecord

theorem readerWith_yields (fuel : Nat) : (readerWith fuel).Yields Finite := by
  induction fuel with
  | zero => exact fun _ _ _ _ hread => nomatch hread
  | succ fuel ih =>
    refine Reader.record_yields fun f r hf hread => ?_
    obtain ⟨type, -, hread⟩ := Option.bind_eq_some_iff.mp hread
    obtain ⟨operator, -, hread⟩ := Option.bind_eq_some_iff.mp hread
    obtain ⟨name, -, hread⟩ := Option.bind_eq_some_iff.mp hread
    obtain ⟨params, hparams, hread⟩ := Option.bind_eq_some_iff.mp hread
    obtain ⟨value, hvalue, hread⟩ := Option.bind_eq_some_iff.mp hread
    obtain ⟨children, hchildren, hread⟩ := Option.bind_eq_some_iff.mp hread
    obtain rfl := Option.some.inj hread
    rw [finite_iff]
    exact ⟨Reader.number_yields.table.optional.withDefault hf (by simp) hparams,
      Reader.number_yields.optional.withDefault hf (by simp) hvalue,
      ih.list.withDefault hf (List.forall_mem_nil _) hchildren⟩

theorem reader_yields : reader.Yields Finite := fun room d r => readerWith_yields d.depth room d r

theorem inRange_toJson (r : NodeRecord) : r.toJson.InRange := by
  induction r using induction with
  | node r ih =>
    rw [toJson_eq, Json.inRange_object]
    intro e he
    simp only [jsonFields, List.mem_append, List.mem_singleton] at he
    rcases he with ((((rfl | he) | he) | he) | he) | he
    · trivial
    · obtain ⟨s, -, rfl⟩ := Json.mem_optionalField he
      trivial
    · obtain ⟨s, -, rfl⟩ := Json.mem_optionalField he
      trivial
    · obtain ⟨p, -, rfl⟩ := Json.mem_optionalField he
      exact Json.inRange_ofTable fun x => Json.inRange_number x
    · obtain ⟨x, -, rfl⟩ := Json.mem_optionalField he
      exact Json.inRange_number x
    · obtain ⟨rs, hrs, rfl⟩ := Json.mem_optionalField he
      split at hrs
      · cases hrs
      · obtain rfl := Option.some.inj hrs
        exact Json.inRange_list.mpr (List.forall_mem_map.mpr ih)

end NodeRecord

theorem Validation.reader_yields : (JsonForm.reader : Reader Validation).Yields fun v =>
    ∀ e ∈ v.metrics.entries, e.2.isFinite = true := by
  refine Reader.record_yields fun f v hf hread => ?_
  obtain ⟨status, -, hread⟩ := Option.bind_eq_some_iff.mp hread
  obtain ⟨metrics, hmetrics, hread⟩ := Option.bind_eq_some_iff.mp hread
  obtain rfl := Option.some.inj hread
  exact Reader.number_yields.table.withDefault hf (List.forall_mem_nil _) hmetrics

theorem GeneRecord.reader_yields (now : Instant) : (reader now).Yields Finite := by
  refine Reader.record_yields fun f r hf hread => ?_
  obtain ⟨version, -, hread⟩ := Option.bind_eq_some_iff.mp hread
  obtain ⟨id, -, hread⟩ := Option.bind_eq_some_iff.mp hread
  obtain ⟨node, hnode, hread⟩ := Option.bind_eq_some_iff.mp hread
  obtain ⟨formula, -, hread⟩ := Option.bind_eq_some_iff.mp hread
  obtain ⟨ancestry, -, hread⟩ := Option.bind_eq_some_iff.mp hread
  obtain ⟨validation, hvalidation, hread⟩ := Option.bind_eq_some_iff.mp hread
  obtain ⟨provenance, -, hread⟩ := Option.bind_eq_some_iff.mp hread
  obtain rfl := Option.some.inj hread
  exact ⟨NodeRecord.reader_yields.required hf hnode,
    Validation.reader_yields.withDefault hf (List.forall_mem_nil _) hvalidation⟩

namespace Migration

theorem inRange_insertNew (hv : v.InRange) (h : ∀ e ∈ fields, e.2.InRange) :
    ∀ e ∈ insertNew name v fields, e.2.InRange := by
  unfold insertNew
  split
  · exact h
  · exact Json.inRange_insert hv h name

theorem inRange_fieldsOf (h : ∀ e ∈ fields, e.2.InRange) (name : String) :
    ∀ e ∈ fieldsOf (Entries.find? name fields), e.2.InRange := by
  unfold fieldsOf
  cases hfind : Entries.find? name fields with
  | none => exact List.forall_mem_nil _
  | some v =>
    have hv := h _ (Entries.mem_of_find? hfind)
    cases v with
    | object inner => exact Json.inRange_object.mp hv
    | _ => exact List.forall_mem_nil _

theorem inRange_withGeneId (h : ∀ e ∈ fields, e.2.InRange) (hmade : withGeneId mode fields = .ok out) :
    ∀ e ∈ out, e.2.InRange := by
  unfold withGeneId at hmade
  dsimp only at hmade
  split at hmade
  · obtain rfl := Except.ok.inj hmade
    exact h
  · cases mode with
    | strict => cases hmade
    | lenient =>
      obtain rfl := Except.ok.inj hmade
      have hid : (Json.text (contentId fields)).InRange := trivial
      exact Json.inRange_insert hid h _

/-- The generation of a record is kept as the number that it was. -/
theorem inRange_generation (h : ∀ e ∈ fields, e.2.InRange) :
    (Json.integer (((Entries.find? "generation" fields).bind Json.natural?).getD 0 : Nat)).InRange := by
  have hzero : (Json.integer (0 : Nat)).InRange := ⟨by decide, by decide⟩
  cases hfind : Entries.find? "generation" fields with
  | none => exact hzero
  | some v =>
    have hv := h _ (Entries.mem_of_find? hfind)
    cases v with
    | integer n =>
      by_cases hn : 0 ≤ n
      · have hvalue : Json.natural? (.integer n) = some n.toNat := if_pos hn
        rw [Option.bind_some, hvalue, Option.getD_some, Int.toNat_of_nonneg hn]
        exact hv
      · have hvalue : Json.natural? (.integer n) = none := if_neg hn
        rw [Option.bind_some, hvalue]
        exact hzero
    | _ => exact hzero

theorem inRange_withLineage (h : ∀ e ∈ fields, e.2.InRange) : ∀ e ∈ withLineage fields, e.2.InRange := by
  refine Json.inRange_insert (Json.inRange_object.mpr ?_) h _
  refine inRange_insertNew (inRange_generation h) ?_
  refine inRange_insertNew trivial ?_
  exact inRange_insertNew trivial (inRange_fieldsOf h _)

theorem inRange_withTag (h : ∀ e ∈ fields, e.2.InRange) : ∀ e ∈ withTag fields, e.2.InRange := by
  have hprovenance := inRange_fieldsOf h "meta"
  refine Json.inRange_insert (Json.inRange_object.mpr ?_) h _
  refine Json.inRange_insert (Json.inRange_list.mpr ?_) hprovenance _
  rw [List.forall_mem_append]
  refine ⟨?_, fun v hv => ?_⟩
  · cases hfind : Entries.find? "tags" (fieldsOf (Entries.find? "meta" fields)) with
    | none => exact List.forall_mem_nil _
    | some v =>
      have hv := hprovenance _ (Entries.mem_of_find? hfind)
      cases v with
      | list items => exact Json.inRange_list.mp hv
      | _ => exact List.forall_mem_nil _
  · obtain rfl := List.mem_singleton.mp hv
    trivial

theorem inRange_withNode (t : Tree) (h : ∀ e ∈ fields, e.2.InRange) : ∀ e ∈ withNode t fields, e.2.InRange :=
  Json.inRange_insert (Json.inRange_arranged _ t.toRecord.inRange_toJson) h _

theorem inRange_withTree (h : ∀ e ∈ fields, e.2.InRange) (hmade : withTree mode fields = .ok out) :
    ∀ e ∈ out, e.2.InRange := by
  unfold withTree at hmade
  split at hmade
  · obtain rfl := Except.ok.inj hmade
    exact h
  · split at hmade
    · cases hmade
    · obtain ⟨t, -, rfl⟩ := map_eq_ok hmade
      exact inRange_withNode t h
    · obtain rfl := Except.ok.inj hmade
      exact inRange_withNode placeholder (inRange_withTag h)

theorem inRange_migrate (hv : v.InRange) (h : migrate mode v = .ok w) : w.InRange := by
  cases v with
  | object fields =>
    have hfields := Json.inRange_object.mp hv
    unfold migrate at h
    dsimp only at h
    split at h
    · obtain rfl := Except.ok.inj h
      exact hv
    · split at h
      · cases h
      · obtain ⟨identified, hid, h⟩ := bind_eq_ok h
        obtain ⟨complete, htree, h⟩ := bind_eq_ok h
        obtain rfl := Except.ok.inj h
        have hcomplete := inRange_withTree (inRange_withLineage (inRange_withGeneId hfields hid)) htree
        have hversion : (Json.text GeneRecord.currentVersion).InRange := trivial
        exact Json.inRange_object.mpr (Json.inRange_insert hversion hcomplete _)
  | _ => cases h

end Migration
end SignalEvolution
