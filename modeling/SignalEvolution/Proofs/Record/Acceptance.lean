import SignalEvolution.Proofs.Record.Node

/-! # Records that become trees

A record becomes a tree where each of its nodes is coherent, whatever stands in the fields
that its types do not need. Of all records that become one tree, the tree is written as the
one without such fields.
-/
namespace SignalEvolution
namespace NodeRecord

variable {r : NodeRecord} {rs : List NodeRecord} {t : Tree} {ts : List Tree}

mutual
/-- The record without the fields that the types of its nodes do not need. -/
def essential : NodeRecord → NodeRecord
  | ⟨nodeType, operator, name, params, value, children⟩ =>
    match NodeType.ofName? nodeType with
    | some .operator | some .comparator => { nodeType, operator, children := essentialAll children }
    | some .indicator => { nodeType, name, params, children := essentialAll children }
    | some .constant => { nodeType, value, children := essentialAll children }
    | some .series => { nodeType, name, children := essentialAll children }
    | none => { nodeType, children := essentialAll children }
def essentialAll : List NodeRecord → List NodeRecord
  | [] => []
  | r :: rs => r.essential :: essentialAll rs
end

theorem toTrees_essentialAll (h : ∀ r ∈ rs, r.essential.toTree = r.toTree) :
    toTrees (essentialAll rs) = toTrees rs := by
  induction rs with
  | nil => rfl
  | cons r rs ih =>
    obtain ⟨hr, hrs⟩ := List.forall_mem_cons.mp h
    rw [essentialAll, toTrees, toTrees, hr, ih hrs]

/-- Fields that a type does not need are ignored, also by the problems that are reported. -/
theorem toTree_essential (r : NodeRecord) : r.essential.toTree = r.toTree := by
  induction r using induction with
  | node r ih =>
    obtain ⟨nodeType, operator, name, params, value, children⟩ := r
    have hchildren : toTrees (essentialAll children) = toTrees children := toTrees_essentialAll ih
    cases htype : NodeType.ofName? nodeType with
    | none => simp only [essential, toTree, typeOf, htype, bind, Except.bind]
    | some type =>
      -- The kind is read off the fields that are left.
      cases type <;> simp only [essential, toTree, typeOf, htype, hchildren] <;> rfl

theorem essential_ofKind (k : Kind) : (ofKind rs k).essential = ofKind (essentialAll rs) k := by
  cases k <;> rfl

theorem essentialAll_of_forall (h : ∀ r ∈ rs, r.essential = r) : essentialAll rs = rs := by
  induction rs with
  | nil => rfl
  | cons r rs ih =>
    obtain ⟨hr, hrs⟩ := List.forall_mem_cons.mp h
    rw [essentialAll, hr, ih hrs]

theorem essential_ofTree (t : Tree) : (ofTree t).essential = ofTree t := by
  induction t using Tree.induction with
  | node k cs ih =>
    have hchildren : essentialAll (cs.map ofTree) = cs.map ofTree :=
      essentialAll_of_forall (List.forall_mem_map.mpr ih)
    rw [ofTree, ofTrees_eq, essential_ofKind, hchildren]

theorem names_of_toTrees (h : toTrees rs = .ok ts) (hbelow : ∀ r ∈ rs, ∀ t, r.toTree = .ok t →
      List.Forall₂ (fun n u => n.Names u.kind) r.nodes t.preorder) :
    List.Forall₂ (fun n u => n.Names u.kind) (nodesAll rs) (Tree.preorderAll ts) := by
  induction toTrees_eq_ok_iff.mp h with
  | nil => exact .nil
  | @cons r t rs ts ht hts ih =>
    obtain ⟨hr, hrs⟩ := List.forall_mem_cons.mp hbelow
    exact List.rel_append (hr t ht) (ih (toTrees_eq_ok_iff.mpr hts) hrs)

theorem names_of_toTree (h : r.toTree = .ok t) :
    List.Forall₂ (fun n u => n.Names u.kind) r.nodes t.preorder := by
  induction r using induction generalizing t with
  | node r ih =>
    obtain ⟨k, ts, hk, hts, -, rfl⟩ := toTree_eq_ok_iff.mp h
    rw [nodes_eq, Tree.preorder]
    exact .cons hk (names_of_toTrees hts fun c hc t ht => ih c hc ht)

/-- A record becomes a tree where at every node the type is known, the field that it needs names
a kind and the children are as many as that kind takes; other fields are ignored. Each node names
the kind of its node in the tree. A tree with all children whose indicators go by their names is
written as a record that becomes this tree again, and what a record stands for is written in one form,
which is read and written as it is. -/
theorem record_acceptance :
    (∀ r : NodeRecord, (∃ t, r.toTree = .ok t) ↔
      ∀ n ∈ r.nodes, ∃ k, n.Names k ∧ n.children.length = k.arity) ∧
    (∀ r : NodeRecord, r.essential.toTree = r.toTree) ∧
    (∀ t : Tree, t.Complete → t.toRecord.toTree = .ok t) ∧
    ∀ (r : NodeRecord) (t : Tree), r.toTree = .ok t →
      List.Forall₂ (fun n u => n.Names u.kind) r.nodes t.preorder ∧
      t.toRecord.essential = t.toRecord ∧ t.toRecord.toTree = .ok t ∧
      ∀ u, t.toRecord.toTree = .ok u → u.toRecord = t.toRecord := by
  refine ⟨fun r => exists_toTree_iff, toTree_essential, fun t ht => toTree_ofTree ht, fun r t h => ?_⟩
  have hagain : t.toRecord.toTree = .ok t := toTree_ofTree (complete_of_toTree h)
  refine ⟨names_of_toTree h, essential_ofTree t, hagain, fun u hu => ?_⟩
  rw [hagain] at hu
  rw [Except.ok.inj hu]

/-- Names in other spellings, fields that are not needed and numbers that are not finite. -/
theorem record_acceptance_unusual :
    let infinite : Float := 1 / 0
    let r : NodeRecord :=
      { nodeType := "comparator", operator := some " ≥ ", name := some "close", children := [
          { nodeType := "indicator", name := some "rsi", params := some (Table.empty.insert "period" infinite) },
          { nodeType := "constant", operator := some "AND", value := some (infinite - infinite) }] }
    let t := Tree.compare .greaterEqual
      (Tree.indicator .relativeStrength (Table.empty.insert "period" infinite))
      (Tree.constant (infinite - infinite))
    (t.Complete ∧ t.toRecord.toTree = .ok t) ∧ r.toTree = .ok t ∧
      List.Forall₂ (fun n u => n.Names u.kind) r.nodes t.preorder ∧
      t.toRecord.essential = t.toRecord ∧ t.toRecord.toTree = .ok t ∧
      ∀ u, t.toRecord.toTree = .ok u → u.toRecord = t.toRecord := by
  intro infinite r t
  have ht : t.Complete := Tree.complete_pair rfl trivial
    (Tree.complete_leaf rfl ⟨.relativeStrength, rfl⟩) (Tree.complete_leaf rfl trivial)
  have hr : r.toTree = .ok t := rfl
  exact ⟨⟨ht, record_acceptance.2.2.1 t ht⟩, hr, record_acceptance.2.2.2 r t hr⟩

end NodeRecord
end SignalEvolution
