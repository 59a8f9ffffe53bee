/-! # Tables: values under texts, in the order of the keys

Inserting keeps the keys strictly ascending, so that equal tables are equal
lists and a table is listed in one order only.
-/
namespace SignalEvolution

variable {α β : Type}

namespace Entries

def find? (key : String) : List (String × α) → Option α
  | [] => none
  | (k, v) :: rest => if k = key then some v else find? key rest

/-- Puts a value under a key, over the one that is there. -/
def insert (key : String) (value : α) : List (String × α) → List (String × α)
  | [] => [(key, value)]
  | (k, v) :: rest =>
    if k = key then (key, value) :: rest
    else if key < k then (key, value) :: (k, v) :: rest
    else (k, v) :: insert key value rest

def Ascending (entries : List (String × α)) : Prop := entries.Pairwise (fun a b => a.1 < b.1)

theorem key_mem_insert {key : String} {value : α} {entries : List (String × α)} {e : String × α}
    (h : e ∈ insert key value entries) : e.1 = key ∨ e ∈ entries := by
  induction entries with
  | nil => simp [insert] at h; simp [h]
  | cons first rest ih =>
    obtain ⟨k, v⟩ := first
    simp only [insert] at h
    split at h
    · rcases List.mem_cons.mp h with h | h
      · exact Or.inl (by rw [h])
      · exact Or.inr (List.mem_cons_of_mem _ h)
    · split at h
      · rcases List.mem_cons.mp h with h | h
        · exact Or.inl (by rw [h])
        · exact Or.inr h
      · rcases List.mem_cons.mp h with h | h
        · exact Or.inr (h ▸ List.mem_cons_self)
        · exact (ih h).imp id (List.mem_cons_of_mem _)

theorem insert_ascending {key : String} {value : α} {entries : List (String × α)}
    (h : Ascending entries) : Ascending (insert key value entries) := by
  induction entries with
  | nil => simp [insert, Ascending]
  | cons first rest ih =>
    obtain ⟨k, v⟩ := first
    have hcons := List.pairwise_cons.mp h
    simp only [insert]
    split
    · next hk =>
      subst hk
      exact List.pairwise_cons.mpr ⟨hcons.1, hcons.2⟩
    · next hne =>
      split
      · next hlt =>
        refine List.pairwise_cons.mpr ⟨?_, h⟩
        intro e he
        rcases List.mem_cons.mp he with he | he
        · exact he ▸ hlt
        · exact String.lt_trans hlt (hcons.1 e he)
      · next hnlt =>
        have hkey : k < key := by
          refine Decidable.byContradiction fun hge => hne ?_
          exact String.le_antisymm (String.not_lt.mp hnlt) (String.not_lt.mp hge)
        refine List.pairwise_cons.mpr ⟨?_, ih hcons.2⟩
        intro e he
        rcases key_mem_insert he with he | he
        · exact he ▸ hkey
        · exact hcons.1 e he

end Entries

structure Table (α : Type) where
  entries : List (String × α)
  ascending : Entries.Ascending entries

namespace Table

def empty : Table α := ⟨[], List.Pairwise.nil⟩

instance : Inhabited (Table α) := ⟨empty⟩

def find? (t : Table α) (key : String) : Option α := Entries.find? key t.entries

def contains (t : Table α) (key : String) : Bool := (t.find? key).isSome

def insert (t : Table α) (key : String) (value : α) : Table α :=
  ⟨Entries.insert key value t.entries, Entries.insert_ascending t.ascending⟩

/-- Puts a value under a key that has none yet. -/
def insertNew (t : Table α) (key : String) (value : α) : Table α :=
  if t.contains key then t else t.insert key value

def ofList (entries : List (String × α)) : Table α :=
  entries.foldl (fun t e => t.insert e.1 e.2) empty

def map (f : α → β) (t : Table α) : Table β :=
  ⟨t.entries.map fun e => (e.1, f e.2), by
    simpa [Entries.Ascending, List.pairwise_map] using t.ascending⟩

def keys (t : Table α) : List String := t.entries.map (·.1)

/-- The same keys with the same values. -/
def same [BEq α] (s t : Table α) : Bool := s.entries == t.entries

instance [BEq α] : BEq (Table α) := ⟨same⟩

end Table
end SignalEvolution
