import SignalEvolution.Json.Form
import SignalEvolution.Proofs.Problem
import SignalEvolution.Proofs.Table

/-! # Reading written values

What a writer makes of a value is read back as that value, also with the fields of all
objects in order. Records are read field by field, so a record reads back where each of its
fields does.
-/
namespace SignalEvolution

variable {α β : Type} {a : α} {v : Json} {fields : List (String × Json)} {name key : String}
variable {names : List String} {read : Reader α} {write : α → Json} {o : Option α}

namespace Document

theorem itemsOfJson_eq (items : List Json) : itemsOfJson items = items.map ofJson := by
  induction items with
  | nil => rfl
  | cons v items ih => rw [itemsOfJson, ih, List.map_cons]

theorem fieldsOfJson_eq (fields : List (String × Json)) :
    fieldsOfJson fields = fields.map fun e => (some e.1, ofJson e.2) := by
  induction fields with
  | nil => rfl
  | cons e fields ih => rw [fieldsOfJson, ih, List.map_cons]

/-- What stands in a list or an object is less deep. -/
theorem depth_lt_list {d : Document} {items : List Document} (h : d ∈ items) :
    d.depth < (list items).depth := by
  have hle : d.depth ≤ itemsDepth items := by
    induction items with
    | nil => cases h
    | cons e items ih =>
      rcases List.mem_cons.mp h with rfl | h
      · exact Nat.le_max_left _ _
      · exact Nat.le_trans (ih h) (Nat.le_max_right _ _)
  rw [depth]
  omega

theorem depth_lt_object {d : Document} {fields : List (Option String × Document)} {name : Option String}
    (h : (name, d) ∈ fields) : d.depth < (object fields).depth := by
  have hle : d.depth ≤ fieldsDepth fields := by
    induction fields with
    | nil => cases h
    | cons e fields ih =>
      rcases List.mem_cons.mp h with rfl | h
      · exact Nat.le_max_left _ _
      · exact Nat.le_trans (ih h) (Nat.le_max_right _ _)
  rw [depth]
  omega

end Document

namespace Json

theorem arrangedItems_eq (items : List Json) : arrangedItems items = items.map arranged := by
  induction items with
  | nil => rfl
  | cons v items ih => rw [arrangedItems, ih, List.map_cons]

theorem arrangedFields_eq (fields : List (String × Json)) :
    arrangedFields fields = fields.map fun e => (e.1, e.2.arranged) := by
  induction fields with
  | nil => rfl
  | cons e fields ih => rw [arrangedFields, ih, List.map_cons]

/-- The arranged values of an object under their names. -/
def arrangedTable (fields : List (String × Json)) : Table Json :=
  Table.ofList (fields.map fun e => (e.1, e.2.arranged))

theorem arranged_object (fields : List (String × Json)) :
    (object fields).arranged = object (arrangedTable fields).entries := by
  rw [arranged, arrangedFields_eq, ofFields, arrangedTable, Table.entries_ofList]

theorem find?_arrangedTable (hn : (fields.map Prod.fst).Nodup) (name : String) :
    Entries.find? name (arrangedTable fields).entries = (Entries.find? name fields).map arranged := by
  have hkeys : ((fields.map fun e => (e.1, e.2.arranged)).map Prod.fst).Nodup := by
    rw [List.map_map]
    exact hn
  exact (Table.find?_ofList hkeys name).trans (Entries.find?_map arranged fields name)

@[simp] theorem find?_optionalField (name : String) (write : α → Json) (o : Option α) (key : String) :
    Entries.find? key (optionalField name write o) = if name = key then o.map write else none := by
  cases o with
  | none => simp [optionalField, Entries.find?]
  | some a => simp [optionalField, Entries.find?]

theorem keys_optionalField (name : String) (write : α → Json) (o : Option α) :
    ((optionalField name write o).map Prod.fst).Sublist [name] := by
  cases o with
  | none => exact List.nil_sublist _
  | some a => exact List.Sublist.refl _

theorem mem_optionalField {write : α → Json} {o : Option α} {e : String × Json}
    (h : e ∈ optionalField name write o) : ∃ a ∈ o, e = (name, write a) := by
  cases o with
  | none => cases h
  | some a => exact ⟨a, rfl, List.mem_singleton.mp h⟩

end Json

namespace RecordFields

theorem known_ofJson (hn : (fields.map Prod.fst).Nodup) :
    known names (Document.fieldsOfJson fields) =
      some ((fields.filter fun e => names.contains e.1).map fun e => (e.1, Document.ofJson e.2)) := by
  induction fields with
  | nil => rfl
  | cons e fields ih =>
    obtain ⟨hnot, hn⟩ := List.nodup_cons.mp hn
    have honce : ((fields.filter fun e => names.contains e.1).map fun e =>
        (e.1, Document.ofJson e.2)).any (fun d => d.1 == e.1) = false := by
      rw [List.any_eq_false]
      intro d hd heq
      obtain ⟨f, hf, rfl⟩ := List.mem_map.mp hd
      exact hnot (List.mem_map.mpr ⟨f, (List.mem_filter.mp hf).1, beq_iff_eq.mp heq⟩)
    rw [Document.fieldsOfJson]
    refine bind_of_some rfl (bind_of_some (ih hn) ?_)
    rw [honce, List.filter_cons]
    cases names.contains e.1 <;> rfl

theorem find?_known (hname : name ∈ names) :
    Entries.find? name ((fields.filter fun e => names.contains e.1).map fun e =>
      (e.1, Document.ofJson e.2)) = (Entries.find? name fields).map Document.ofJson := by
  rw [Entries.find?_map]
  congr 1
  induction fields with
  | nil => rfl
  | cons e fields ih =>
    rw [List.filter_cons, Entries.find?]
    split
    · rw [Entries.find?, ih]
    · next hnot =>
      rw [ih, if_neg]
      rintro rfl
      exact hnot (List.contains_iff_mem.mpr hname)

/-- The fields of a record hold the values of an object. -/
structure Mirrors (r : RecordFields) (names : List String) (fields : List (String × Json)) : Prop where
  room : r.room = none
  find : ∀ name ∈ names, Entries.find? name r.fields = (Entries.find? name fields).map Document.ofJson

/-- The fields of a record hold the arranged values of an object. -/
structure Holds (r : RecordFields) (names : List String) (fields : List (String × Json)) : Prop where
  room : r.room = none
  find : ∀ name ∈ names,
    Entries.find? name r.fields = (Entries.find? name fields).map fun v => Document.ofJson v.arranged

variable {r : RecordFields}

theorem Holds.required (h : r.Holds names fields) (hname : name ∈ names)
    (hfind : Entries.find? name fields = some v) (hread : read.ofJson? v.arranged = some a) :
    r.required name read = some a := by
  rw [RecordFields.required, h.find name hname, hfind, h.room]
  exact hread

theorem Holds.withDefault (h : r.Holds names fields) (hname : name ∈ names)
    (hfind : Entries.find? name fields = some v) (hread : read.ofJson? v.arranged = some a) (default : α) :
    r.withDefault name default read = some a := by
  rw [RecordFields.withDefault, h.find name hname, hfind, h.room]
  exact hread

theorem Holds.absent (h : r.Holds names fields) (hname : name ∈ names)
    (hfind : Entries.find? name fields = none) (read : Reader α) (default : α) :
    r.withDefault name default read = some default := by
  rw [RecordFields.withDefault, h.find name hname, hfind]
  rfl

/-- A field that is left out where there is no value. -/
theorem Holds.optional {write : α → Json} {o : Option α} (h : r.Holds names fields) (hname : name ∈ names)
    (hfind : Entries.find? name fields = o.map write)
    (hread : ∀ a ∈ o, (Reader.optional read).ofJson? (write a).arranged = some (some a)) :
    r.withDefault name none (Reader.optional read) = some o := by
  cases o with
  | none => exact h.absent hname hfind _ _
  | some a => exact h.withDefault hname hfind (hread a rfl) none

end RecordFields

namespace Reader

/-- What is read under a name of an object. -/
def field (read : Reader α) (name : String) (fields : List (String × Json)) : Option α :=
  (Entries.find? name fields).bind read.ofJson?

/-- What is read under a name of an object, a default where nothing stands there. -/
def fieldOr (read : Reader α) (name : String) (default : α) (fields : List (String × Json)) : Option α :=
  (Entries.find? name fields).elim (some default) read.ofJson?

theorem exists_mirror (hn : (fields.map Prod.fst).Nodup) (names : List String) :
    ∃ r : RecordFields, r.Mirrors names fields ∧ ∀ {α : Type} (build : RecordFields → Option α),
      (record names build).ofJson? (Json.object fields) = build r := by
  let known := (fields.filter fun e => names.contains e.1).map fun e => (e.1, Document.ofJson e.2)
  refine ⟨⟨none, known⟩, ⟨rfl, fun name hname => RecordFields.find?_known hname⟩, fun build => ?_⟩
  change ((RecordFields.known names (Document.fieldsOfJson fields)).map _).bind build = _
  rw [RecordFields.known_ofJson hn]
  rfl

theorem exists_holds (fields : List (String × Json)) (hn : (fields.map Prod.fst).Nodup) (names : List String) :
    ∃ r : RecordFields, r.Holds names fields ∧ ∀ {α : Type} (build : RecordFields → Option α),
      (record names build).ofJson? (Json.object fields).arranged = build r := by
  have hkeys := (Json.arrangedTable fields).ascending.nodup
  obtain ⟨r, hr, hread⟩ := exists_mirror hkeys names
  refine ⟨r, ⟨hr.room, fun name hname => ?_⟩, fun build => ?_⟩
  · rw [hr.find name hname, Json.find?_arrangedTable hn, Option.map_map]
    rfl
  · rw [Json.arranged_object]
    exact hread build

end Reader

namespace RecordFields

variable {r : RecordFields}

theorem Mirrors.required (h : r.Mirrors names fields) (hname : name ∈ names) (read : Reader α) :
    r.required name read = read.field name fields := by
  rw [RecordFields.required, h.find name hname, h.room, Reader.field, Option.bind_map]
  rfl

theorem Mirrors.withDefault (h : r.Mirrors names fields) (hname : name ∈ names) (default : α)
    (read : Reader α) : r.withDefault name default read = read.fieldOr name default fields := by
  rw [RecordFields.withDefault, h.find name hname, h.room, Reader.fieldOr]
  cases Entries.find? name fields <;> rfl

end RecordFields

namespace Reader

theorem number_ofJson? {x : Float} (h : x.isFinite = true) :
    number.ofJson? (Json.number x).arranged = some x := by
  rw [Json.number, if_pos h]
  rfl

theorem natural_ofJson? (n : Nat) : natural.ofJson? (Json.integer n).arranged = some n := by
  change (if (0 : Int) ≤ n then some (n : Int).toNat else none) = some n
  rw [if_pos (Int.natCast_nonneg n), Int.toNat_natCast]

theorem optional_some (h : read.ofJson? v = some a) (hnull : v ≠ .null) :
    (optional read).ofJson? v = some (some a) := by
  unfold ofJson? optional
  cases v with
  | null => exact absurd rfl hnull
  | _ => exact congrArg (Option.map some) h

theorem items_ofJson (xs : List α) (h : ∀ x ∈ xs, read none (.ofJson (write x).arranged) = some x) :
    items read none ((xs.map write).map fun v => Document.ofJson v.arranged) = some xs := by
  induction xs with
  | nil => rfl
  | cons x xs ih =>
    obtain ⟨hx, hxs⟩ := List.forall_mem_cons.mp h
    exact bind_of_some hx (bind_of_some (ih hxs) rfl)

theorem list_ofJson? (xs : List α) (h : ∀ x ∈ xs, read.ofJson? (write x).arranged = some x) :
    (list read).ofJson? (Json.list (xs.map write)).arranged = some xs := by
  have hitems := items_ofJson xs h
  unfold ofJson?
  rw [Json.arranged, Json.arrangedItems_eq, Document.ofJson, Document.itemsOfJson_eq, List.map_map]
  exact hitems

theorem items_text_eq_some_iff {vs : List Json} {xs : List String} :
    items text none (Document.itemsOfJson vs) = some xs ↔ vs = xs.map .text := by
  induction vs generalizing xs with
  | nil => simp [Document.itemsOfJson, items, eq_comm]
  | cons v vs ih =>
    rw [Document.itemsOfJson, items]
    constructor
    · intro h
      obtain ⟨x, hx, h⟩ := Option.bind_eq_some_iff.mp h
      obtain ⟨ys, hys, h⟩ := Option.bind_eq_some_iff.mp h
      obtain rfl := Option.some.inj h
      cases v with
      | text s =>
        obtain rfl := Option.some.inj hx
        rw [ih.mp hys, List.map_cons]
      | _ => cases hx
    · intro h
      cases xs with
      | nil => cases h
      | cons x xs =>
        obtain ⟨rfl, hvs⟩ := List.cons.inj h
        exact bind_of_some rfl (bind_of_some (ih.mpr hvs) rfl)

/-- Only a list of texts is read as one. -/
theorem texts_eq_some_iff {xs : List String} : (list text).ofJson? v = some xs ↔ v = Json.texts xs := by
  cases v with
  | list vs =>
    change items text none (Document.itemsOfJson vs) = some xs ↔ _
    rw [items_text_eq_some_iff, Json.texts, Json.list.injEq]
  | _ => exact ⟨nofun, nofun⟩

theorem texts_ofJson? (xs : List String) : (list text).ofJson? (Json.texts xs).arranged = some xs :=
  list_ofJson? xs fun _ _ => rfl

theorem entries_ofJson (es : List (String × α))
    (h : ∀ e ∈ es, read.ofJson? (write e.2).arranged = some e.2) :
    entries read none (Document.fieldsOfJson (es.map fun e => (e.1, (write e.2).arranged))) = some es := by
  induction es with
  | nil => rfl
  | cons e es ih =>
    obtain ⟨he, hes⟩ := List.forall_mem_cons.mp h
    exact bind_of_some rfl (bind_of_some he (bind_of_some (ih hes) rfl))

theorem table_ofJson? (t : Table α) (h : ∀ e ∈ t.entries, read.ofJson? (write e.2).arranged = some e.2) :
    (table read).ofJson? (Json.ofTable write t).arranged = some t := by
  have harranged : (Json.ofTable write t).arranged =
      .object (t.map fun a => (write a).arranged).entries := by
    have hentries := Table.ofList_entries (t.map fun a => (write a).arranged)
    rw [Json.ofTable, Json.arranged_object, Json.arrangedTable, List.map_map]
    exact congrArg (fun u : Table Json => Json.object u.entries) hentries
  have hread := entries_ofJson t.entries h
  rw [harranged]
  change (entries read none (Document.fieldsOfJson (t.map fun a => (write a).arranged).entries)).map
    Table.ofList = some t
  rw [Table.map, hread, Option.map_some, Table.ofList_entries]

theorem optional_number {x : Float} (h : x.isFinite = true) :
    (optional number).ofJson? (Json.number x).arranged = some (some x) := by
  refine optional_some (number_ofJson? h) ?_
  rw [Json.number, if_pos h]
  exact nofun

theorem optional_table (t : Table α) (h : ∀ e ∈ t.entries, read.ofJson? (write e.2).arranged = some e.2) :
    (optional (table read)).ofJson? (Json.ofTable write t).arranged = some (some t) := by
  refine optional_some (table_ofJson? t h) ?_
  rw [Json.ofTable, Json.arranged_object]
  exact nofun

end Reader
end SignalEvolution
