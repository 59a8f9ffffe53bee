import SignalEvolution.Proofs.Json.Reading

/-! # Values with their fields in order

The fields of an object stand in the order of their names, each name once. All values that
are read from texts are of this kind.
-/
namespace SignalEvolution

variable {v : Json} {fields : List (String × Json)} {items : List Json}

namespace Json

mutual
/-- The fields of all objects are in order. -/
def Ordered : Json → Prop
  | list items => ItemsOrdered items
  | object fields => Entries.Ascending fields ∧ FieldsOrdered fields
  | _ => True
def ItemsOrdered : List Json → Prop
  | [] => True
  | v :: rest => v.Ordered ∧ ItemsOrdered rest
def FieldsOrdered : List (String × Json) → Prop
  | [] => True
  | (_, v) :: rest => v.Ordered ∧ FieldsOrdered rest
end

theorem ordered_list : (list items).Ordered ↔ ∀ v ∈ items, v.Ordered := by
  rw [Ordered]
  induction items with
  | nil => simp [ItemsOrdered]
  | cons v items ih => simp [ItemsOrdered, ih]

theorem ordered_object :
    (object fields).Ordered ↔ Entries.Ascending fields ∧ ∀ e ∈ fields, e.2.Ordered := by
  have hfields : FieldsOrdered fields ↔ ∀ e ∈ fields, e.2.Ordered := by
    induction fields with
    | nil => simp [FieldsOrdered]
    | cons e fields ih => simp only [FieldsOrdered, ih, List.forall_mem_cons]
  rw [Ordered, hfields]

theorem ordered_ofFields (h : ∀ e ∈ fields, e.2.Ordered) : (ofFields fields).Ordered := by
  rw [ofFields, ← Table.entries_ofList, ordered_object]
  exact ⟨(Table.ofList fields).ascending, fun e he => h e (Table.mem_ofList he)⟩

end Json

namespace Document

mutual
theorem ordered_of_toJson? : ∀ (d : Document) (room : Room) (v : Json), d.toJson? room = some v → v.Ordered
  | .null, _, _, h | .bool _, _, _, h => by
    rw [toJson?] at h
    obtain rfl := Option.some.inj h
    trivial
  | .number n, room, v, h => by
    cases n <;> rw [toJson?] at h <;> cases h <;> trivial
  | .text s, room, v, h => by
    rw [toJson?] at h
    obtain ⟨s, -, rfl⟩ := Option.map_eq_some_iff.mp h
    trivial
  | .list ds, room, v, h => by
    rw [toJson?] at h
    obtain ⟨inner, -, h⟩ := Option.bind_eq_some_iff.mp h
    obtain ⟨vs, hvs, rfl⟩ := Option.map_eq_some_iff.mp h
    exact Json.ordered_list.mpr (ordered_of_itemsToJson? ds inner vs hvs)
  | .object fs, room, v, h => by
    rw [toJson?] at h
    obtain ⟨inner, -, h⟩ := Option.bind_eq_some_iff.mp h
    obtain ⟨es, hes, rfl⟩ := Option.map_eq_some_iff.mp h
    exact Json.ordered_ofFields (ordered_of_fieldsToJson? fs inner es hes)
theorem ordered_of_itemsToJson? : ∀ (ds : List Document) (room : Room) (vs : List Json),
    itemsToJson? room ds = some vs → ∀ v ∈ vs, v.Ordered
  | [], _, _, h => by
    obtain rfl := Option.some.inj h
    exact List.forall_mem_nil _
  | d :: ds, room, _, h => by
    obtain ⟨v, hv, h⟩ := Option.bind_eq_some_iff.mp h
    obtain ⟨vs, hvs, h⟩ := Option.bind_eq_some_iff.mp h
    obtain rfl := Option.some.inj h
    exact List.forall_mem_cons.mpr ⟨ordered_of_toJson? d room v hv, ordered_of_itemsToJson? ds room vs hvs⟩
theorem ordered_of_fieldsToJson? : ∀ (fs : List (Option String × Document)) (room : Room)
    (es : List (String × Json)), fieldsToJson? room fs = some es → ∀ e ∈ es, e.2.Ordered
  | [], _, _, h => by
    obtain rfl := Option.some.inj h
    exact List.forall_mem_nil _
  | (name, d) :: fs, room, _, h => by
    obtain ⟨name, -, h⟩ := Option.bind_eq_some_iff.mp h
    obtain ⟨v, hv, h⟩ := Option.bind_eq_some_iff.mp h
    obtain ⟨es, hes, h⟩ := Option.bind_eq_some_iff.mp h
    obtain rfl := Option.some.inj h
    exact List.forall_mem_cons.mpr ⟨ordered_of_toJson? d room v hv, ordered_of_fieldsToJson? fs room es hes⟩
end

end Document

theorem Json.ordered_ofText {s : String} (h : ofText s = some v) : v.Ordered := by
  obtain ⟨d, -, hd⟩ := Option.bind_eq_some_iff.mp h
  exact Document.ordered_of_toJson? d _ v hd

end SignalEvolution
