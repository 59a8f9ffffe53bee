import Mathlib.Data.List.Forall2
import SignalEvolution.Table

/-! # Looking up tables

A table is what its keys give: inserting changes one key, and tables with equal values
under all keys are equal. A list with one value for each key is found again in its table.
-/
namespace SignalEvolution

variable {α : Type} {k : String} {v x y : α} {es fs : List (String × α)} {t s : Table α}

namespace Entries

theorem find?_insert (k : String) (v : α) (es : List (String × α)) (j : String) :
    find? j (insert k v es) = if j = k then some v else find? j es := by
  induction es with
  | nil => simp [insert, find?, eq_comm]
  | cons e es ih =>
    obtain ⟨i, w⟩ := e
    unfold insert
    split
    · next hk =>
      subst hk
      by_cases hj : j = i
      · simp [find?, hj]
      · simp [find?, hj, Ne.symm hj]
    · next hk =>
      split
      · simp [find?, eq_comm]
      · rw [find?, ih, find?]
        by_cases hj : i = j
        · subst hj
          simp [hk]
        · simp [hj]

theorem find?_insert_self (k : String) (v : α) (es : List (String × α)) :
    find? k (insert k v es) = some v := (find?_insert k v es k).trans (if_pos rfl)

theorem find?_insert_ne {j k : String} (h : j ≠ k) (v : α) (es : List (String × α)) :
    find? j (insert k v es) = find? j es := (find?_insert k v es j).trans (if_neg h)

theorem mem_insert {e : String × α} (h : e ∈ insert k v es) : e = (k, v) ∨ e ∈ es := by
  induction es with
  | nil => exact .inl (List.mem_singleton.mp h)
  | cons d es ih =>
    obtain ⟨i, w⟩ := d
    unfold insert at h
    split at h
    · exact (List.mem_cons.mp h).imp id (List.mem_cons_of_mem _)
    · split at h
      · exact List.mem_cons.mp h
      · rcases List.mem_cons.mp h with rfl | h
        · exact .inr List.mem_cons_self
        · exact (ih h).imp id (List.mem_cons_of_mem _)

theorem find?_map {β : Type} (f : α → β) (es : List (String × α)) (k : String) :
    find? k (es.map fun e => (e.1, f e.2)) = (find? k es).map f := by
  induction es with
  | nil => rfl
  | cons e es ih =>
    rw [List.map_cons, find?, find?, ih]
    split <;> rfl

@[simp] theorem find?_append (es fs : List (String × α)) (k : String) :
    find? k (es ++ fs) = (find? k es).or (find? k fs) := by
  induction es with
  | nil => rfl
  | cons e es ih =>
    rw [List.cons_append, find?, find?, ih]
    split <;> rfl

theorem mem_of_find? (h : find? k es = some v) : (k, v) ∈ es := by
  induction es with
  | nil => cases h
  | cons e es ih =>
    unfold find? at h
    split at h
    · next hk =>
      obtain rfl := Option.some.inj h
      rw [← hk]
      exact List.mem_cons_self
    · exact List.mem_cons_of_mem _ (ih h)

/-- Where no key occurs twice, every entry is found under its key. -/
theorem find?_of_mem (hn : (es.map Prod.fst).Nodup) (h : (k, v) ∈ es) : find? k es = some v := by
  induction es with
  | nil => cases h
  | cons e es ih =>
    obtain ⟨hnot, hn⟩ := List.nodup_cons.mp hn
    unfold find?
    rcases List.mem_cons.mp h with rfl | h
    · exact if_pos rfl
    · rw [if_neg, ih hn h]
      intro he
      apply hnot
      rw [he]
      exact List.mem_map_of_mem (f := Prod.fst) h

theorem find?_eq_none_iff : find? k es = none ↔ k ∉ es.map Prod.fst := by
  induction es with
  | nil => simp [find?]
  | cons e es ih =>
    unfold find?
    split
    · next hk => simp [hk]
    · next hk => simp [ih, Ne.symm hk]

theorem Ascending.nodup (h : Ascending es) : (es.map Prod.fst).Nodup :=
  List.pairwise_map.mpr (h.imp fun hlt => String.ne_of_lt hlt)

theorem find?_eq_none_of_lt (h : ∀ e ∈ es, k < e.1) : find? k es = none := by
  rw [find?_eq_none_iff]
  intro hk
  obtain ⟨e, he, rfl⟩ := List.mem_map.mp hk
  exact String.lt_irrefl _ (h e he)

/-- The first key is the least one that is found. -/
theorem Ascending.first_le {e : String × α} (h : Ascending (e :: es)) (hk : find? k (e :: es) ≠ none) :
    e.1 ≤ k := by
  rw [← String.not_lt]
  intro hlt
  apply hk
  apply find?_eq_none_of_lt
  intro d hd
  rcases List.mem_cons.mp hd with rfl | hd
  · exact hlt
  · exact String.lt_trans hlt ((List.pairwise_cons.mp h).1 d hd)

/-- Ascending entries with equal values under all keys are equal. -/
theorem beq_of_find? [BEq α] (hes : Ascending es) (hfs : Ascending fs)
    (h : ∀ k, (find? k es == find? k fs) = true) : (es == fs) = true := by
  induction es generalizing fs with
  | nil =>
    cases fs with
    | nil => rfl
    | cons f fs =>
      have hf := h f.1
      simp [find?] at hf
  | cons e es ih =>
    cases fs with
    | nil =>
      have hhead := h e.1
      simp [find?] at hhead
    | cons f fs =>
      have hkey : e.1 = f.1 := by
        apply String.le_antisymm
        · apply hes.first_le
          intro hnone
          have hfirst := h f.1
          rw [hnone, find?, if_pos rfl] at hfirst
          cases hfirst
        · apply hfs.first_le
          intro hnone
          have hfirst := h e.1
          rw [hnone, find?, if_pos rfl] at hfirst
          cases hfirst
      obtain ⟨he, hes⟩ := List.pairwise_cons.mp hes
      obtain ⟨hf, hfs⟩ := List.pairwise_cons.mp hfs
      have hvalue : (e.2 == f.2) = true := by
        have hfirst := h e.1
        simpa [find?, hkey] using hfirst
      have hrest : (es == fs) = true := by
        apply ih hes hfs
        intro k
        by_cases hk : k = e.1
        · rw [hk, find?_eq_none_of_lt he, hkey, find?_eq_none_of_lt hf]
          rfl
        · have hlater := h k
          rw [find?, find?, if_neg (Ne.symm hk), if_neg (hkey ▸ Ne.symm hk)] at hlater
          exact hlater
      have hpair : (e == f) = true := by
        obtain ⟨i, v⟩ := e
        obtain ⟨j, w⟩ := f
        simp only at hkey hvalue
        subst hkey
        change ((i == i) && (v == w)) = true
        rw [beq_self_eq_true, hvalue]
        rfl
      rw [List.cons_beq_cons, hpair, hrest]
      rfl

/-- Equal entries have equal values under all keys. -/
theorem find?_beq [BEq α] (h : (es == fs) = true) (k : String) : (find? k es == find? k fs) = true := by
  induction es generalizing fs with
  | nil =>
    cases fs with
    | nil => rfl
    | cons f fs => cases h
  | cons e es ih =>
    cases fs with
    | nil => cases h
    | cons f fs =>
      rw [List.cons_beq_cons, Bool.and_eq_true] at h
      obtain ⟨hpair, hrest⟩ := h
      obtain ⟨i, v⟩ := e
      obtain ⟨j, w⟩ := f
      change ((i == j) && (v == w)) = true at hpair
      obtain ⟨hkey, hvalue⟩ := Bool.and_eq_true_iff.mp hpair
      obtain rfl := beq_iff_eq.mp hkey
      rw [find?, find?]
      split
      · exact hvalue
      · exact ih hrest

end Entries

namespace Table

theorem find?_insert (t : Table α) (k : String) (v : α) (j : String) :
    (t.insert k v).find? j = if j = k then some v else t.find? j := Entries.find?_insert k v t.entries j

theorem find?_eq_some_iff : t.find? k = some v ↔ (k, v) ∈ t.entries :=
  ⟨Entries.mem_of_find?, Entries.find?_of_mem t.ascending.nodup⟩

theorem insertNew_of_contains (h : t.contains k = true) (v : α) : t.insertNew k v = t := if_pos h

theorem find?_insertNew (t : Table α) (k : String) (v : α) (j : String) :
    (t.insertNew k v).find? j = (t.find? j).or (if j = k then some v else none) := by
  rw [insertNew]
  split
  · next h =>
    obtain ⟨x, hx⟩ := Option.isSome_iff_exists.mp h
    by_cases hj : j = k
    · rw [hj, hx, Option.some_or]
    · rw [if_neg hj, Option.or_none]
  · next h =>
    rw [find?_insert]
    split
    · next hj => rw [hj, Option.not_isSome_iff_eq_none.mp h, Option.none_or]
    · rw [Option.or_none]

theorem contains_insert (t : Table α) (k : String) (v : α) (j : String) :
    (t.insert k v).contains j = (decide (j = k) || t.contains j) := by
  rw [contains, find?_insert]
  split
  · next h => simp [h]
  · next h => simp [h, contains]

theorem contains_insertNew (t : Table α) (k : String) (v : α) (j : String) :
    (t.insertNew k v).contains j = (decide (j = k) || t.contains j) := by
  unfold insertNew
  split
  · next h =>
    by_cases hj : j = k
    · simp [hj, h]
    · simp [hj]
  · exact contains_insert t k v j

theorem beq_of_find? [BEq α] (h : ∀ k, (s.find? k == t.find? k) = true) : (s == t) = true :=
  Entries.beq_of_find? s.ascending t.ascending h

theorem find?_beq [BEq α] (h : (s == t) = true) (k : String) : (s.find? k == t.find? k) = true :=
  Entries.find?_beq h k

/-- The later of two values under one key stays. -/
theorem find?_foldl_insert (es : List (String × α)) (t : Table α) (k : String)
    (hn : (es.map Prod.fst).Nodup) :
    (es.foldl (fun t e => t.insert e.1 e.2) t).find? k = (Entries.find? k es).or (t.find? k) := by
  induction es generalizing t with
  | nil => rfl
  | cons e es ih =>
    obtain ⟨hnot, hn⟩ := List.nodup_cons.mp hn
    rw [List.foldl_cons, ih _ hn, find?_insert, Entries.find?]
    by_cases hk : e.1 = k
    · rw [← hk, Entries.find?_eq_none_iff.mpr hnot]
      simp
    · simp [hk, Ne.symm hk]

theorem find?_ofList (hn : (es.map Prod.fst).Nodup) (k : String) :
    (ofList es).find? k = Entries.find? k es := by
  rw [ofList, find?_foldl_insert es empty k hn]
  cases Entries.find? k es <;> rfl

theorem ext_find? (h : ∀ k, s.find? k = t.find? k) : s = t := by
  classical
  have hentries : (s.entries == t.entries) = true := by
    apply Entries.beq_of_find? s.ascending t.ascending
    intro k
    rw [beq_iff_eq]
    exact h k
  rw [beq_iff_eq] at hentries
  cases s
  cases t
  cases hentries
  rfl

/-- Entries of a table make the table again in any order. -/
theorem ofList_perm (h : es.Perm t.entries) : ofList es = t := by
  have hnodup : (es.map Prod.fst).Nodup := (h.map Prod.fst).nodup_iff.mpr t.ascending.nodup
  apply ext_find?
  intro k
  rw [find?_ofList hnodup]
  apply Option.ext
  intro v
  rw [find?_eq_some_iff, ← h.mem_iff]
  exact ⟨Entries.mem_of_find?, Entries.find?_of_mem hnodup⟩

theorem ofList_entries (t : Table α) : ofList t.entries = t := ofList_perm (List.Perm.refl _)

theorem entries_ofList (es : List (String × α)) :
    (ofList es).entries = es.foldl (fun entries e => Entries.insert e.1 e.2 entries) [] := by
  unfold ofList
  change _ = es.foldl _ (empty : Table α).entries
  generalize (empty : Table α) = t
  induction es generalizing t with
  | nil => rfl
  | cons e es ih => exact ih (t.insert e.1 e.2)

theorem mem_ofList {e : String × α} (h : e ∈ (ofList es).entries) : e ∈ es := by
  have hfold : ∀ (es : List (String × α)) (t : Table α),
      e ∈ (es.foldl (fun t e => t.insert e.1 e.2) t).entries → e ∈ es ∨ e ∈ t.entries := by
    intro es
    induction es with
    | nil => exact fun t h => .inr h
    | cons d es ih =>
      intro t h
      rcases ih (t.insert d.1 d.2) h with h | h
      · exact .inl (List.mem_cons_of_mem _ h)
      · rcases Entries.mem_insert h with rfl | h
        · exact .inl List.mem_cons_self
        · exact .inr h
  exact (hfold es empty h).resolve_right List.not_mem_nil

/-- A table is equal to the table of a list that gives the same keys equal values. -/
theorem ofList_beq [BEq α] (hes : List.Forall₂ (fun e f => e.1 = f.1 ∧ (e.2 == f.2) = true) es fs)
    (hn : (fs.map Prod.fst).Nodup) (ht : ∀ k v, t.find? k = some v ↔ (k, v) ∈ fs) :
    (ofList es == t) = true := by
  have hkeys : es.map Prod.fst = fs.map Prod.fst := by
    clear hn ht
    induction hes with
    | nil => rfl
    | cons h _ ih => rw [List.map_cons, List.map_cons, ih, h.1]
  apply beq_of_find?
  intro k
  have hfs : t.find? k = Entries.find? k fs := by
    apply Option.ext
    intro v
    exact (ht k v).trans ⟨Entries.find?_of_mem hn, Entries.mem_of_find?⟩
  rw [find?_ofList (hkeys ▸ hn), hfs]
  clear hn ht hfs hkeys
  induction hes with
  | nil => rfl
  | @cons e f es fs h _ ih =>
    rw [Entries.find?, Entries.find?, ← h.1]
    split
    · exact h.2
    · exact ih

end Table
end SignalEvolution
