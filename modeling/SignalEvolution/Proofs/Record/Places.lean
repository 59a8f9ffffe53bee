import SignalEvolution.Proofs.Record.Examination

/-! # In which order faults are listed

Missing fields come first, then wrong fields, then the nodes from the root on, each before its
children. The faults of one value stand at different places in this order, so each is listed once.
-/
namespace SignalEvolution.RecordFault

variable {v : Json} {path : Tree.Path} {items : List Json} {f : RecordFault}

/-- Where a fault stands: missing fields in their order, wrong fields, then nodes, each before those
below it. What is no list of children stands where the first of them would. -/
def place : RecordFault → List Nat
  | notObject => []
  | missing field => [0, requiredFields.idxOf field]
  | unsupportedVersion _ => [1]
  | versionNotText => [1]
  | invalidGeneId _ => [2]
  | lineageNotObject => [3]
  | node path .childrenNotList => 4 :: (path ++ [0])
  | node path _ => 4 :: path

/-- Faults in the order of their places. -/
def Before (a b : RecordFault) : Prop := List.Lex (· < ·) a.place b.place

theorem place_node (path : Tree.Path) (fault : NodeFault) :
    ∃ rest, (node path fault).place = 4 :: (path ++ rest) := by
  cases fault with
  | childrenNotList => exact ⟨[0], rfl⟩
  | _ => exact ⟨[], by simp [place]⟩

theorem place_of_mem_ofNode (h : f ∈ ofNode path v) : ∃ rest, f.place = 4 :: (path ++ rest) := by
  obtain ⟨below, u, fault, -, -, rfl⟩ := mem_ofNode_iff.mp h
  obtain ⟨rest, hrest⟩ := place_node (path ++ below) fault
  exact ⟨below ++ rest, by rw [hrest, List.append_assoc]⟩

theorem pairwise_ofItems {start : Nat} (h : ∀ c ∈ items, ∀ path, (ofNode path c).Pairwise Before) :
    (ofItems path start items).Pairwise Before := by
  induction items generalizing start with
  | nil => exact List.Pairwise.nil
  | cons c rest ih =>
    obtain ⟨hc, hrest⟩ := List.forall_mem_cons.mp h
    rw [ofItems, List.pairwise_append]
    refine ⟨hc _, ih hrest, ?_⟩
    intro a ha b hb
    obtain ⟨tailA, hA⟩ := place_of_mem_ofNode ha
    obtain ⟨i, d, -, hd⟩ := mem_ofItems_iff.mp hb
    obtain ⟨tailB, hB⟩ := place_of_mem_ofNode hd
    rw [Before, hA, hB, List.append_assoc, List.append_assoc]
    apply List.Lex.cons
    apply List.Lex.append_left
    exact .rel (by omega)

theorem place_node_of_ne {fault : NodeFault} (h : fault ≠ .childrenNotList) :
    (node path fault).place = 4 :: path := by
  cases fault with
  | childrenNotList => exact absurd rfl h
  | _ => rfl

/-- A place at a node is before all that extend it. -/
theorem lex_extended (path : Tree.Path) (i : Nat) (rest : Tree.Path) :
    List.Lex (· < ·) (4 :: path) (4 :: (path ++ i :: rest)) := by
  have h : List.Lex (· < ·) (path ++ []) (path ++ i :: rest) := List.Lex.append_left _ .nil path
  rw [List.append_nil] at h
  exact .cons h

/-- A node is wrong in its type, and after that in its children. -/
theorem pairwise_ofValue (path : Tree.Path) (v : Json) :
    ((NodeFault.ofValue v).map (node path)).Pairwise Before := by
  cases v with
  | object fields =>
    have hsingle : ∀ o : Option NodeFault,
        o.toList.Pairwise fun a b => Before (node path a) (node path b) := by
      intro o
      cases o <;> simp
    rw [List.pairwise_map, NodeFault.ofValue, List.pairwise_append]
    refine ⟨hsingle _, hsingle _, ?_⟩
    intro a ha b hb
    rw [Option.mem_toList, NodeFault.ofType?_eq_some_iff] at ha
    rw [Option.mem_toList, NodeFault.ofChildren?_eq_some_iff] at hb
    obtain ⟨rfl, -⟩ := hb
    rcases ha with ⟨rfl, -⟩ | ⟨name, rfl, -⟩
    · exact lex_extended path 0 []
    · exact lex_extended path 0 []
  | _ => exact List.pairwise_singleton _ _

theorem pairwise_ofNode (path : Tree.Path) (v : Json) : (ofNode path v).Pairwise Before := by
  induction v using Json.childItems_induction generalizing path with
  | step v ih =>
    rw [ofNode_eq, List.pairwise_append]
    refine ⟨pairwise_ofValue path v, pairwise_ofItems fun c hc path => ih c hc path, ?_⟩
    intro a ha b hb
    obtain ⟨fault, hfault, rfl⟩ := List.mem_map.mp ha
    obtain ⟨i, c, hc, hb⟩ := mem_ofItems_iff.mp hb
    obtain ⟨rest, hrest⟩ := place_of_mem_ofNode hb
    have hlisted : fault ≠ .childrenNotList := by
      rintro rfl
      rw [NodeFault.childItems_of_applies (NodeFault.mem_ofValue_iff.mp hfault)] at hc
      cases hc
    rw [Before, place_node_of_ne hlisted, hrest, List.append_assoc]
    exact lex_extended path _ rest

/-- Faults in order that all stand below one number. -/
def Part (n : Nat) (faults : List RecordFault) : Prop :=
  faults.Pairwise Before ∧ ∀ f ∈ faults, ∃ rest, f.place = n :: rest

theorem Part.of_map {n : Nat} {check : Json → List RecordFault} (h : ∀ w, Part n (check w))
    (o : Option Json) : Part n ((o.map check).getD []) := by
  cases o with
  | none => exact ⟨List.Pairwise.nil, nofun⟩
  | some w => exact h w

theorem Part.singleton {n : Nat} (h : ∃ rest, f.place = n :: rest) : Part n [f] :=
  ⟨List.pairwise_singleton _ _, by simpa using h⟩

theorem Part.nil {n : Nat} : Part n [] := ⟨List.Pairwise.nil, nofun⟩

theorem part_ofVersion (v : Json) : Part 1 (ofVersion v) := by
  cases v with
  | text version =>
    rw [ofVersion]
    split
    · exact .nil
    · exact .singleton ⟨[], rfl⟩
  | _ => exact .singleton ⟨[], rfl⟩

theorem part_ofGeneId (v : Json) : Part 2 (ofGeneId v) := by
  unfold ofGeneId
  split
  · exact .nil
  · exact .singleton ⟨[], rfl⟩

theorem part_ofLineage (v : Json) : Part 3 (ofLineage v) := by
  unfold ofLineage
  split
  · exact .nil
  · exact .singleton ⟨[], rfl⟩

theorem part_ofNode (v : Json) : Part 4 (ofNode [] v) :=
  ⟨pairwise_ofNode [] v, fun _ hf => place_of_mem_ofNode hf⟩

theorem part_missing (p : String → Bool) : Part 0 ((requiredFields.filter p).map missing) := by
  have horder : requiredFields.Pairwise fun a b => requiredFields.idxOf a < requiredFields.idxOf b := by
    decide
  constructor
  · rw [List.pairwise_map]
    exact (horder.filter p).imp fun h => .cons (.rel h)
  · intro f hf
    obtain ⟨name, -, rfl⟩ := List.mem_map.mp hf
    exact ⟨_, rfl⟩

/-- Parts at growing numbers are in order together. -/
theorem pairwise_flatten_of_part {parts : List (List RecordFault)}
    (h : ∀ i (hi : i < parts.length), Part i parts[i]) : parts.flatten.Pairwise Before := by
  rw [List.pairwise_flatten, List.pairwise_iff_getElem]
  constructor
  · intro part hpart
    obtain ⟨i, hi, rfl⟩ := List.getElem_of_mem hpart
    exact (h i hi).1
  · intro i j hi hj hij a ha b hb
    obtain ⟨restA, hA⟩ := (h i hi).2 a ha
    obtain ⟨restB, hB⟩ := (h j hj).2 b hb
    rw [Before, hA, hB]
    exact .rel hij

theorem pairwise_all (v : Json) : (all v).Pairwise Before := by
  cases v with
  | object fields =>
    rw [all_eq_parts]
    apply pairwise_flatten_of_part
    rintro (_ | _ | _ | _ | _ | i) hi
    · exact part_missing _
    · exact .of_map part_ofVersion _
    · exact .of_map part_ofGeneId _
    · exact .of_map part_ofLineage _
    · exact .of_map part_ofNode _
    · exact absurd hi (by simp)
  | _ => exact List.pairwise_singleton _ _

theorem pathText_eq (path : Tree.Path) :
    pathText path = "ast" ++ String.join (path.map fun i => ".children[" ++ toString i ++ "]") := by
  have h : ∀ text : String, path.foldl (fun text i => text ++ ".children[" ++ toString i ++ "]") text =
      text ++ String.join (path.map fun i => ".children[" ++ toString i ++ "]") := by
    induction path with
    | nil => simp
    | cons i rest ih =>
      intro text
      rw [List.foldl_cons, ih, List.map_cons, String.join_cons]
      simp only [String.append_assoc]
  exact h "ast"

/-- The examination of a value lists nothing just where the value is a record. It lists all faults
that the value has, each once: the missing fields, then the wrong ones, then for each value below the
tree, from the root on, the rules of nodes that it breaks. The message of such a fault begins with the
indices that lead to the value. -/
theorem faults_located (v : Json) :
    (all v = [] ↔ v.IsRecord) ∧ (∀ f, f ∈ all v ↔ f.Applies v) ∧ (all v).Pairwise Before ∧
      ∀ path fault, (node path fault).message =
        "ast" ++ String.join (path.map fun i => ".children[" ++ toString i ++ "]") ++ ": " ++ fault.message := by
  refine ⟨?_, fun f => mem_all_iff, pairwise_all v, fun path fault => ?_⟩
  · rw [isRecord_iff, List.eq_nil_iff_forall_not_mem]
    simp only [mem_all_iff]
  · rw [← pathText_eq]
    rfl

end SignalEvolution.RecordFault
