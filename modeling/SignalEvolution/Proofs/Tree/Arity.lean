import Mathlib.Data.List.Basic
import SignalEvolution.Proofs.Indicator.Names
import SignalEvolution.Proofs.Tree.Structure
import SignalEvolution.Tree.Evaluation
import SignalEvolution.Tree.Formula
import SignalEvolution.Tree.Path

/-! # Trees with all their children

Where every node has as many children as its kind takes, so has every subtree, and so has
the tree after an edit that puts such a tree in a place of it. If the indicators go by their names
too, evaluation and formulas find each operand and each indicator that they ask for.
-/
namespace SignalEvolution

variable {k : Kind} {cs : List Tree} {t u old new : Tree} {p : Tree.Path}

namespace Tree

theorem full_iff_preorder : t.Full ↔ ∀ u ∈ t.preorder, u.children.length = u.kind.arity := by
  induction t using induction with
  | node k cs ih =>
    simp only [full_iff, preorder, List.forall_mem_cons, mem_preorderAll_iff]
    constructor
    · rintro ⟨hlength, hcs⟩
      refine ⟨hlength, ?_⟩
      rintro u ⟨c, hc, hu⟩
      exact (ih c hc).mp (hcs c hc) u hu
    · rintro ⟨hlength, hbelow⟩
      refine ⟨hlength, ?_⟩
      intro c hc
      exact (ih c hc).mpr fun u hu => hbelow u ⟨c, hc, hu⟩

theorem Full.length_children (h : t.Full) : t.children.length = t.kind.arity := by
  cases t with
  | node k cs => exact (full_iff.mp h).1

/-- What passes from a node to its children holds of all subtrees. -/
theorem of_get? {P : Tree → Prop} (hchild : ∀ k cs, P (node k cs) → ∀ c ∈ cs, P c) (h : P t)
    (hget : t.get? p = some u) : P u := by
  induction p generalizing t with
  | nil =>
    obtain rfl : t = u := by simpa [Tree.get?] using hget
    exact h
  | cons i p ih =>
    cases t with
    | node k cs =>
      rw [Tree.get?] at hget
      obtain ⟨c, hc, hu⟩ := Option.bind_eq_some_iff.mp hget
      exact ih (hchild k cs h c (List.mem_of_getElem? hc)) hu

theorem Full.get? (h : t.Full) (hget : t.get? p = some u) : u.Full :=
  of_get? (fun _ _ h => (full_iff.mp h).2) h hget

theorem full_leaf (h : k.arity = 0) : (node k []).Full := full_iff.mpr ⟨h.symm, by simp⟩

theorem full_pair (hk : k.arity = 2) (ht : t.Full) (hu : u.Full) : (node k [t, u]).Full := by
  refine full_iff.mpr ⟨hk.symm, ?_⟩
  simp [ht, hu]

theorem full_single (hk : k.arity = 1) (ht : t.Full) : (node k [t]).Full := by
  refine full_iff.mpr ⟨hk.symm, ?_⟩
  simp [ht]

theorem make_eq_ok_iff : make k cs = .ok t ↔
    ∃ l, k.registered = .ok l ∧ cs.length = l.arity ∧ node l cs = t := by
  unfold make
  cases k.registered with
  | error problem => simp [bind, Except.bind]
  | ok l =>
    simp only [bind, Except.bind, Except.ok.injEq, exists_eq_left']
    split <;> simp_all

/-- Every node has its children and every indicator goes by its name. -/
structure Complete (t : Tree) : Prop where
  full : t.Full
  named : t.Every Kind.Named

theorem complete_iff : (node k cs).Complete ↔ cs.length = k.arity ∧ k.Named ∧ ∀ c ∈ cs, c.Complete := by
  constructor
  · rintro ⟨hfull, hnamed⟩
    obtain ⟨hlength, hfulls⟩ := full_iff.mp hfull
    obtain ⟨hk, hnameds⟩ := every_iff.mp hnamed
    exact ⟨hlength, hk, fun c hc => ⟨hfulls c hc, hnameds c hc⟩⟩
  · rintro ⟨hlength, hk, hcs⟩
    exact ⟨full_iff.mpr ⟨hlength, fun c hc => (hcs c hc).full⟩,
      every_iff.mpr ⟨hk, fun c hc => (hcs c hc).named⟩⟩

theorem complete_leaf (hk : k.arity = 0) (hnamed : k.Named) : (node k []).Complete :=
  complete_iff.mpr ⟨hk.symm, hnamed, by simp⟩

theorem complete_pair (hk : k.arity = 2) (hnamed : k.Named) (ht : t.Complete) (hu : u.Complete) :
    (node k [t, u]).Complete :=
  complete_iff.mpr ⟨hk.symm, hnamed, by simp [ht, hu]⟩

theorem complete_of_make (hcs : ∀ c ∈ cs, c.Complete) (h : make k cs = .ok t) : t.Complete := by
  obtain ⟨l, hregistered, hlength, rfl⟩ := make_eq_ok_iff.mp h
  exact complete_iff.mpr ⟨hlength, Kind.named_of_registered hregistered, hcs⟩

namespace Complete

theorem children (h : t.Complete) : ∀ c ∈ t.children, c.Complete := by
  cases t with
  | node k cs => exact (complete_iff.mp h).2.2

theorem get? (h : t.Complete) (hget : t.get? p = some u) : u.Complete :=
  of_get? (fun _ _ h => (complete_iff.mp h).2.2) h hget

/-- An exchange of subtrees leaves a complete tree and takes a complete one out. -/
theorem replaceAt? (h : t.Complete) (hnew : new.Complete) (hreplace : t.replaceAt? p new = some (u, old)) :
    u.Complete ∧ old.Complete := by
  induction p generalizing t u with
  | nil =>
    obtain ⟨rfl, rfl⟩ : new = u ∧ t = old := by simpa [Tree.replaceAt?] using hreplace
    exact ⟨hnew, h⟩
  | cons i p ih =>
    cases t with
    | node k cs =>
      obtain ⟨hlength, hk, hcs⟩ := complete_iff.mp h
      rw [Tree.replaceAt?] at hreplace
      obtain ⟨c, hc, hbelow⟩ := Option.bind_eq_some_iff.mp hreplace
      obtain ⟨⟨c', old'⟩, hchild, heq⟩ := Option.map_eq_some_iff.mp hbelow
      obtain ⟨rfl, rfl⟩ := Prod.mk.inj heq
      obtain ⟨hc', hold⟩ := ih (hcs c (List.mem_of_getElem? hc)) hchild
      refine ⟨complete_iff.mpr ⟨?_, hk, ?_⟩, hold⟩
      · rw [List.length_set, hlength]
      · intro d hd
        rcases List.mem_or_eq_of_mem_set hd with hd | rfl
        · exact hcs d hd
        · exact hc'

theorem withKind (h : t.Complete) (hk : k.arity = t.kind.arity) (hnamed : k.Named) :
    (node k t.children).Complete :=
  complete_iff.mpr ⟨h.full.length_children.trans hk.symm, hnamed, h.children⟩

theorem reversed (h : t.Complete) : t.reversed.Complete := by
  cases t with
  | node k cs =>
    obtain ⟨hlength, hk, hcs⟩ := complete_iff.mp h
    refine complete_iff.mpr ⟨?_, hk, fun c hc => hcs c (List.mem_reverse.mp hc)⟩
    change cs.reverse.length = k.arity
    rw [List.length_reverse, hlength]

end Complete
end Tree

/-- The value of an operator that asks for its operands by their index; AND and OR ask for the
second one only where the first one leaves the answer open. -/
def Operator.value? (operand : Nat → Option Value) : Operator → Option Value
  | .and => do
    let a ← operand 0
    if a.isTrue then return .truth (← operand 1).isTrue else return .truth false
  | .or => do
    let a ← operand 0
    if a.isTrue then return .truth true else return .truth (← operand 1).isTrue
  | .not => do return .truth !(← operand 0).isTrue
  | .add => do return .number ((← operand 0).toNumber + (← operand 1).toNumber)
  | .sub => do return .number ((← operand 0).toNumber - (← operand 1).toNumber)
  | .mul => do return .number ((← operand 0).toNumber * (← operand 1).toNumber)
  | .div => do return .number (protectedQuotient (← operand 0).toNumber (← operand 1).toNumber)

/-- The value of a node that asks for its operands by their index and for its indicator by name. -/
def Kind.value? (c : Context) (operand : Nat → Option Value) : Kind → Option Value
  | .operator op => op.value? operand
  | .comparator cmp => do
    return .truth (cmp.holds (← operand 0).toNumber (← operand 1).toNumber)
  | .indicator name params => do
    let _ ← Indicator.find? name.toList
    return .number (Indicator.readingNamed name params c)
  | .constant x => some (.number x)
  | .series s => some (.number (s.value c.current))

/-- A formula that asks for the texts of its operands by their index and for its indicator by name. -/
def Kind.text? (operand : Nat → Option (List Char)) : Kind → Option (List Char)
  | .operator .not => do return "NOT ".toList ++ (← operand 0)
  | .operator op => do return (← operand 0) ++ (' ' :: op.symbol.toList ++ [' ']) ++ (← operand 1)
  | .comparator cmp => do return (← operand 0) ++ (' ' :: cmp.symbol.toList ++ [' ']) ++ (← operand 1)
  | .indicator name params => do
    let found ← Indicator.find? name.toList
    return (Indicator.callText name found.specs params fun s => s.stored params).toList
  | .constant x => some (numberText x).toList
  | .series s => some s.name.toList

namespace Tree

mutual
/-- The value of a tree; none where a node asks for a child or an indicator that is not there. -/
def value? (c : Context) : Tree → Option Value
  | node k cs => k.value? c fun i => (values? c cs)[i]?.join
def values? (c : Context) : List Tree → List (Option Value)
  | [] => []
  | t :: ts => t.value? c :: values? c ts
end

mutual
/-- The formula of a tree; none where a node asks for a child or an indicator that is not there. -/
def text? : Tree → Option (List Char)
  | node k cs => k.text? fun i => (childTexts? k cs)[i]?.join
def childTexts? (parent : Kind) : List Tree → List (Option (List Char))
  | [] => []
  | t :: ts => t.text?.map (enclose parent t.kind) :: childTexts? parent ts
end

theorem values?_eq {c : Context} (h : ∀ t ∈ cs, t.value? c = some (t.value c)) :
    values? c cs = (values c cs).map some := by
  induction cs with
  | nil => rfl
  | cons t ts ih =>
    obtain ⟨ht, hts⟩ := List.forall_mem_cons.mp h
    rw [values?, values, ht, ih hts, List.map_cons]

theorem childTexts?_eq (parent : Kind) (h : ∀ t ∈ cs, t.text? = some t.text) :
    childTexts? parent cs = (childTexts parent cs).map some := by
  induction cs with
  | nil => rfl
  | cons t ts ih =>
    obtain ⟨ht, hts⟩ := List.forall_mem_cons.mp h
    rw [childTexts?, childTexts, ht, ih hts, List.map_cons, Option.map_some]

theorem length_values (c : Context) (cs : List Tree) : (values c cs).length = cs.length := by
  induction cs with
  | nil => rfl
  | cons t ts ih => simp [values, ih]

theorem length_childTexts (parent : Kind) (cs : List Tree) :
    (childTexts parent cs).length = cs.length := by
  induction cs with
  | nil => rfl
  | cons t ts ih => simp [childTexts, ih]

end Tree

theorem Operator.ofSymbol?_symbol (op : Operator) : ofSymbol? op.symbol = some op := by
  cases op <;> decide

theorem Comparator.ofSymbol?_symbol (cmp : Comparator) : ofSymbol? cmp.symbol = some cmp := by
  cases cmp <;> decide

theorem Series.ofName_name (s : Series) : ofName s.name = .ok s := by
  have hfind : find? s.name.toList = some s := by cases s <;> decide
  rw [ofName, hfind]

/-- A node with enough operands and a known name finds all that it asks for. -/
theorem Kind.Named.value?_eq (hk : k.Named) (c : Context) (args : List Value) (h : args.length = k.arity) :
    k.value? c (fun i => (args.map some)[i]?.join) = some (k.value c args) := by
  cases k with
  | operator op =>
    cases op with
    | not =>
      obtain ⟨a, rfl⟩ := List.length_eq_one_iff.mp h
      rfl
    | and | or =>
      obtain ⟨a, b, rfl⟩ := List.length_eq_two.mp h
      cases ha : a.isTrue <;> simp [Kind.value?, Operator.value?, Kind.value, Operator.value, ha]
    | add | sub | mul | div =>
      obtain ⟨a, b, rfl⟩ := List.length_eq_two.mp h
      rfl
  | comparator cmp =>
    obtain ⟨a, b, rfl⟩ := List.length_eq_two.mp h
    rfl
  | indicator name params =>
    obtain ⟨i, rfl⟩ := hk
    simp [Kind.value?, Kind.value, Indicator.find?_mnemonic]
  | constant x => rfl
  | series s => rfl

theorem Kind.Named.text?_eq (hk : k.Named) (texts : List (List Char)) (h : texts.length = k.arity) :
    k.text? (fun i => (texts.map some)[i]?.join) = some (Tree.assemble k texts) := by
  cases k with
  | operator op =>
    cases op with
    | not =>
      obtain ⟨a, rfl⟩ := List.length_eq_one_iff.mp h
      simp [Kind.text?, Tree.assemble]
    | and | or | add | sub | mul | div =>
      obtain ⟨a, b, rfl⟩ := List.length_eq_two.mp h
      simp [Kind.text?, Tree.assemble, List.intercalate_cons_cons]
  | comparator cmp =>
    obtain ⟨a, b, rfl⟩ := List.length_eq_two.mp h
    simp [Kind.text?, Tree.assemble, List.intercalate_cons_cons]
  | indicator name params =>
    obtain ⟨i, rfl⟩ := hk
    simp [Kind.text?, Tree.assemble, Indicator.find?_mnemonic, Indicator.formulaCall_mnemonic]
  | constant x => rfl
  | series s => rfl

namespace Tree.Complete

theorem value?_eq (h : t.Complete) (c : Context) : t.value? c = some (t.value c) := by
  induction t using Tree.induction with
  | node k cs ih =>
    obtain ⟨hlength, hk, hcs⟩ := complete_iff.mp h
    rw [Tree.value?, values?_eq fun t ht => ih t ht (hcs t ht), value_node]
    exact hk.value?_eq c _ (by rw [length_values, hlength])

theorem text?_eq (h : t.Complete) : t.text? = some t.text := by
  induction t using Tree.induction with
  | node k cs ih =>
    obtain ⟨hlength, hk, hcs⟩ := complete_iff.mp h
    rw [Tree.text?, childTexts?_eq k fun t ht => ih t ht (hcs t ht), text]
    exact hk.text?_eq _ (by rw [length_childTexts, hlength])

end Tree.Complete
end SignalEvolution
