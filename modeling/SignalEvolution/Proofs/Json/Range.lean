import SignalEvolution.Proofs.Arithmetic.Whole
import SignalEvolution.Proofs.Json.Reading

/-! # Numbers of JSON values

Whole numbers of a JSON value have 64 bits and its other numbers are finite, so all numbers
that are read from it are finite.
-/
namespace SignalEvolution

variable {α : Type} {P : α → Prop} {a : α} {fields : List (String × Json)} {name : String}

namespace Json

mutual
/-- Whole numbers have 64 bits, with a sign or without one, and other numbers are finite. -/
def InRange : Json → Prop
  | integer n => Int64.minValue.toInt ≤ n ∧ n < UInt64.size
  | double x => x.isFinite = true
  | list items => ItemsInRange items
  | object fields => FieldsInRange fields
  | _ => True
def ItemsInRange : List Json → Prop
  | [] => True
  | v :: rest => v.InRange ∧ ItemsInRange rest
def FieldsInRange : List (String × Json) → Prop
  | [] => True
  | (_, v) :: rest => v.InRange ∧ FieldsInRange rest
end

theorem inRange_list {items : List Json} : (list items).InRange ↔ ∀ v ∈ items, v.InRange := by
  rw [InRange]
  induction items with
  | nil => simp [ItemsInRange]
  | cons v items ih => simp [ItemsInRange, ih]

theorem inRange_object : (object fields).InRange ↔ ∀ e ∈ fields, e.2.InRange := by
  rw [InRange]
  induction fields with
  | nil => simp [FieldsInRange]
  | cons e fields ih => simp only [FieldsInRange, ih, List.forall_mem_cons]

theorem inRange_number (x : Float) : (number x).InRange := by
  unfold number
  split
  · next h => exact h
  · trivial

theorem inRange_ofTable {write : α → Json} {t : Table α} (h : ∀ a, (write a).InRange) :
    (ofTable write t).InRange := by
  rw [ofTable, inRange_object, List.forall_mem_map]
  exact fun e _ => h e.2

theorem inRange_insert {v : Json} (hv : v.InRange) (h : ∀ e ∈ fields, e.2.InRange) (name : String) :
    ∀ e ∈ Entries.insert name v fields, e.2.InRange := by
  intro e he
  rcases Entries.mem_insert he with rfl | he
  · exact hv
  · exact h e he

mutual
theorem inRange_arranged : ∀ v : Json, v.InRange → v.arranged.InRange
  | null, _ | bool _, _ | integer _, h | double _, h | text _, _ => by assumption
  | list items, h => by
    rw [arranged, inRange_list, arrangedItems_eq, List.forall_mem_map]
    exact inRange_arrangedItems items (inRange_list.mp h)
  | object fields, h => by
    rw [arranged_object, inRange_object]
    intro e he
    obtain ⟨f, hf, rfl⟩ := List.mem_map.mp (Table.mem_ofList he)
    exact inRange_arrangedFields fields (inRange_object.mp h) f hf
theorem inRange_arrangedItems : ∀ items : List Json, (∀ v ∈ items, v.InRange) →
    ∀ v ∈ items, v.arranged.InRange
  | [], _ => List.forall_mem_nil _
  | v :: rest, h => by
    obtain ⟨hv, hrest⟩ := List.forall_mem_cons.mp h
    exact List.forall_mem_cons.mpr ⟨inRange_arranged v hv, inRange_arrangedItems rest hrest⟩
theorem inRange_arrangedFields : ∀ fields : List (String × Json), (∀ e ∈ fields, e.2.InRange) →
    ∀ e ∈ fields, e.2.arranged.InRange
  | [], _ => List.forall_mem_nil _
  | (_, v) :: rest, h => by
    obtain ⟨hv, hrest⟩ := List.forall_mem_cons.mp h
    exact List.forall_mem_cons.mpr ⟨inRange_arranged v hv, inRange_arrangedFields rest hrest⟩
end

end Json

namespace Document

/-- A document that was made from a value whose numbers are in range. -/
def InRange (d : Document) : Prop := ∃ v : Json, v.InRange ∧ d = .ofJson v

theorem InRange.of_list {ds : List Document} (h : (list ds).InRange) : ∀ d ∈ ds, d.InRange := by
  obtain ⟨v, hv, heq⟩ := h
  cases v <;> cases heq
  rename_i items
  rw [itemsOfJson_eq, List.forall_mem_map]
  exact fun v hmem => ⟨v, Json.inRange_list.mp hv v hmem, rfl⟩

theorem InRange.of_object {fs : List (Option String × Document)} (h : (object fs).InRange) :
    ∀ e ∈ fs, e.2.InRange := by
  obtain ⟨v, hv, heq⟩ := h
  cases v <;> cases heq
  rename_i fields
  rw [fieldsOfJson_eq, List.forall_mem_map]
  exact fun e hmem => ⟨e.2, Json.inRange_object.mp hv e hmem, rfl⟩

end Document

namespace RecordFields

variable {r : RecordFields} {read : Reader α}

def InRange (r : RecordFields) : Prop := ∀ e ∈ r.fields, e.2.InRange

theorem mem_of_known {names : List String} {fs : List (Option String × Document)}
    {known : List (String × Document)} (h : RecordFields.known names fs = some known) :
    ∀ e ∈ known, (some e.1, e.2) ∈ fs := by
  induction fs generalizing known with
  | nil =>
    obtain rfl := Option.some.inj h
    exact List.forall_mem_nil _
  | cons f fs ih =>
    obtain ⟨name, d⟩ := f
    obtain ⟨name, rfl, h⟩ := Option.bind_eq_some_iff.mp h
    obtain ⟨others, hothers, h⟩ := Option.bind_eq_some_iff.mp h
    have hrest : ∀ e ∈ others, (some e.1, e.2) ∈ (some name, d) :: fs :=
      fun e he => List.mem_cons_of_mem _ (ih hothers e he)
    split at h
    · obtain rfl := Option.some.inj h
      exact hrest
    · split at h
      · cases h
      · obtain rfl := Option.some.inj h
        exact List.forall_mem_cons.mpr ⟨List.mem_cons_self, hrest⟩

theorem inRange_ofDocument {names : List String} {room : Document.Room} {d : Document} (hd : d.InRange)
    (h : ofDocument names room d = some r) : r.InRange := by
  cases d with
  | object fs =>
    obtain ⟨inner, -, h⟩ := Option.bind_eq_some_iff.mp h
    obtain ⟨known, hknown, rfl⟩ := Option.map_eq_some_iff.mp h
    exact fun e he => hd.of_object _ (mem_of_known hknown e he)
  | list ds =>
    obtain ⟨inner, -, h⟩ := Option.bind_eq_some_iff.mp h
    split at h
    · cases h
    · obtain rfl := Option.some.inj h
      exact fun e he => hd.of_list _ (List.of_mem_zip he).2
  | _ => cases h

end RecordFields

namespace Reader

variable {read : Reader α}

/-- What is read from documents in range has a property. -/
def Yields (read : Reader α) (P : α → Prop) : Prop := ∀ room d a, d.InRange → read room d = some a → P a

theorem number_yields : number.Yields fun x => x.isFinite = true := by
  rintro room d x ⟨v, hv, rfl⟩ h
  cases v with
  | integer n =>
    obtain rfl := Option.some.inj h
    obtain ⟨hlow, hhigh⟩ := hv
    have hleast : Int64.minValue.toInt = -2 ^ 63 := by decide
    have hsize : (UInt64.size : Int) = 2 ^ 64 := by decide
    exact Binary.isFinite_ofInt (by omega)
  | double y =>
    obtain rfl := Option.some.inj h
    exact hv
  | _ => cases h

theorem Yields.optional (h : read.Yields P) : (optional read).Yields fun o => ∀ a ∈ o, P a := by
  intro room d o hd hread
  unfold Reader.optional at hread
  split at hread
  · obtain rfl := Option.some.inj hread
    exact nofun
  · obtain ⟨a, ha, rfl⟩ := Option.map_eq_some_iff.mp hread
    intro b hb
    obtain rfl := Option.some.inj hb
    exact h _ _ _ hd ha

theorem Yields.items (h : read.Yields P) {room : Document.Room} {ds : List Document} {xs : List α}
    (hds : ∀ d ∈ ds, d.InRange) (hread : Reader.items read room ds = some xs) : ∀ x ∈ xs, P x := by
  induction ds generalizing xs with
  | nil =>
    obtain rfl := Option.some.inj hread
    exact List.forall_mem_nil _
  | cons d ds ih =>
    obtain ⟨hd, hds⟩ := List.forall_mem_cons.mp hds
    obtain ⟨x, hx, hread⟩ := Option.bind_eq_some_iff.mp hread
    obtain ⟨ys, hys, hread⟩ := Option.bind_eq_some_iff.mp hread
    obtain rfl := Option.some.inj hread
    exact List.forall_mem_cons.mpr ⟨h _ _ _ hd hx, ih hds hys⟩

theorem Yields.list (h : read.Yields P) : (list read).Yields fun xs => ∀ x ∈ xs, P x := by
  intro room d xs hd hread
  unfold Reader.list at hread
  split at hread
  · obtain ⟨inner, -, hread⟩ := Option.bind_eq_some_iff.mp hread
    exact h.items hd.of_list hread
  · cases hread

theorem Yields.entries (h : read.Yields P) {room : Document.Room} {fs : List (Option String × Document)}
    {es : List (String × α)} (hfs : ∀ e ∈ fs, e.2.InRange) (hread : Reader.entries read room fs = some es) :
    ∀ e ∈ es, P e.2 := by
  induction fs generalizing es with
  | nil =>
    obtain rfl := Option.some.inj hread
    exact List.forall_mem_nil _
  | cons f fs ih =>
    obtain ⟨name, d⟩ := f
    obtain ⟨hd, hbelow⟩ := List.forall_mem_cons.mp hfs
    obtain ⟨name, rfl, hread⟩ := Option.bind_eq_some_iff.mp hread
    obtain ⟨x, hx, hread⟩ := Option.bind_eq_some_iff.mp hread
    obtain ⟨rest, hrest, hread⟩ := Option.bind_eq_some_iff.mp hread
    obtain rfl := Option.some.inj hread
    exact List.forall_mem_cons.mpr ⟨h _ _ _ hd hx, ih hbelow hrest⟩

theorem Yields.table (h : read.Yields P) : (table read).Yields fun t => ∀ e ∈ t.entries, P e.2 := by
  intro room d t hd hread
  unfold Reader.table at hread
  split at hread
  · obtain ⟨inner, -, hread⟩ := Option.bind_eq_some_iff.mp hread
    obtain ⟨es, hes, rfl⟩ := Option.map_eq_some_iff.mp hread
    exact fun e he => h.entries hd.of_object hes e (Table.mem_ofList he)
  · cases hread

theorem Yields.required {r : RecordFields} (h : read.Yields P) (hr : r.InRange)
    (hread : r.required name read = some a) : P a := by
  obtain ⟨d, hd, hread⟩ := Option.bind_eq_some_iff.mp hread
  exact h _ _ _ (hr _ (Entries.mem_of_find? hd)) hread

theorem Yields.withDefault {r : RecordFields} {default : α} (h : read.Yields P) (hr : r.InRange)
    (hdefault : P default) (hread : r.withDefault name default read = some a) : P a := by
  unfold RecordFields.withDefault at hread
  split at hread
  · obtain rfl := Option.some.inj hread
    exact hdefault
  · next d hd => exact h _ _ _ (hr _ (Entries.mem_of_find? hd)) hread

theorem record_yields {names : List String} {build : RecordFields → Option α}
    (h : ∀ r a, r.InRange → build r = some a → P a) : (record names build).Yields P := by
  intro room d a hd hread
  obtain ⟨r, hr, hread⟩ := Option.bind_eq_some_iff.mp hread
  exact h r a (RecordFields.inRange_ofDocument hd hr) hread

end Reader
end SignalEvolution
