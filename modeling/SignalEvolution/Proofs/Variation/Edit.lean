import SignalEvolution.Proofs.Tree.Replacement
import SignalEvolution.Proofs.Tree.Traversal
import SignalEvolution.Proofs.Variation.Results

/-! # Edits of one subtree

An edit puts a new subtree at one path. Below the path the tree is the new subtree, and every node
that is not below it is of the kind that it was before. These two facts leave no other tree than
the one with the replacement.
-/
namespace SignalEvolution.Tree

variable {k l : Kind} {cs ds : List Tree} {t u old new : Tree} {p q : Path}

/-- The kind of the node at a path. -/
def kindAt? (t : Tree) (p : Path) : Option Kind := (t.get? p).map kind

theorem kindAt?_nil (t : Tree) : t.kindAt? [] = some t.kind := by rw [kindAt?, get?_nil, Option.map_some]

theorem kindAt?_cons (k : Kind) (cs : List Tree) (i : Nat) (p : Path) :
    (node k cs).kindAt? (i :: p) = cs[i]?.bind fun c => c.kindAt? p := by
  rw [kindAt?, get?_cons, Option.map_bind]
  rfl

/-- Trees with the same kinds at all paths are the same tree. -/
theorem eq_of_kindAt? (h : ∀ p, t.kindAt? p = u.kindAt? p) : t = u := by
  induction t using Tree.induction generalizing u with
  | node k cs ih =>
    cases u with
    | node l ds =>
      have hkind := h []
      rw [kindAt?_nil, kindAt?_nil] at hkind
      have hchildren : cs = ds := by
        apply List.ext_getElem?
        intro i
        have hbelow : ∀ p, (cs[i]?.bind fun c => c.kindAt? p) = ds[i]?.bind fun d => d.kindAt? p := by
          intro p
          rw [← kindAt?_cons k, ← kindAt?_cons l, h]
        have hhere := hbelow []
        cases hc : cs[i]? with
        | none =>
          cases hd : ds[i]? with
          | none => rfl
          | some d => simp [hc, hd, kindAt?_nil] at hhere
        | some c =>
          cases hd : ds[i]? with
          | none => simp [hc, hd, kindAt?_nil] at hhere
          | some d =>
            simp only [hc, hd, Option.bind_some] at hbelow
            rw [ih c (List.mem_of_getElem? hc) hbelow]
      rw [hchildren]
      exact congrArg (node · ds) (Option.some.inj hkind)

theorem innerPaths_eq_nil_iff : t.innerPaths = [] ↔ t.nodeCount = 1 := by
  cases t with
  | node k cs =>
    rw [nodeCount_eq_one_iff, innerPaths, paths, List.tail_cons, childPaths_eq_nil_iff]
    rfl

theorem ne_nil_of_mem_innerPaths (h : p ∈ t.innerPaths) : p ≠ [] := by
  cases t with
  | node k cs =>
    rw [innerPaths, paths, List.tail_cons] at h
    obtain ⟨_, _, _, -, rfl, -⟩ := mem_childPaths h
    exact List.cons_ne_nil _ _

/-- The tree `u` is `t` with `new` in place of the subtree `old` at one path. -/
structure Edit (t u : Tree) (q : Path) (old new : Tree) : Prop where
  there : t.get? q = some old
  inside : ∀ p, u.get? (q ++ p) = new.get? p
  elsewhere : ∀ p, ¬ q <+: p → u.kindAt? p = t.kindAt? p

theorem edit_graft (h : t.get? q = some old) (new : Tree) : Edit t (t.graft q new) q old new := by
  refine ⟨h, ?_, ?_⟩
  · intro p
    induction q generalizing t with
    | nil => rw [graft_nil, List.nil_append]
    | cons i q ih =>
      cases t with
      | node k cs =>
        rw [get?_cons] at h
        obtain ⟨c, hc, hbelow⟩ := Option.bind_eq_some_iff.mp h
        obtain ⟨hi, -⟩ := List.getElem?_eq_some_iff.mp hc
        rw [graft_cons hc hbelow, List.cons_append, get?_set_self hi, ih hbelow]
  · intro p hp
    induction q generalizing t p with
    | nil => exact absurd List.nil_prefix hp
    | cons i q ih =>
      cases t with
      | node k cs =>
        rw [get?_cons] at h
        obtain ⟨c, hc, hbelow⟩ := Option.bind_eq_some_iff.mp h
        obtain ⟨hi, -⟩ := List.getElem?_eq_some_iff.mp hc
        rw [graft_cons hc hbelow]
        cases p with
        | nil => rw [kindAt?_nil, kindAt?_nil]; rfl
        | cons j p =>
          by_cases hij : i = j
          · subst hij
            have hnext : ¬ q <+: p := fun hqp => hp (List.cons_prefix_cons.mpr ⟨rfl, hqp⟩)
            rw [kindAt?, get?_set_self hi, ← kindAt?, ih hbelow p hnext, kindAt?_cons, hc, Option.bind_some]
          · rw [kindAt?, get?_set_ne hij, ← kindAt?]

/-- No other tree is left by the edit. -/
theorem Edit.eq_graft (h : Edit t u q old new) : u = t.graft q new := by
  obtain ⟨hthere, hinside, helsewhere⟩ := edit_graft h.there new
  apply eq_of_kindAt?
  intro p
  by_cases hp : q <+: p
  · obtain ⟨r, rfl⟩ := hp
    rw [kindAt?, kindAt?, h.inside, hinside]
  · rw [h.elsewhere p hp, helsewhere p hp]

/-- An edit is a replacement that gives the old subtree out. -/
theorem edit_iff : Edit t u q old new ↔ t.replaceAt? q new = some (u, old) := by
  constructor
  · intro h
    obtain ⟨out, hreplace, -⟩ := replaceAt?_of_get? h.there new
    rw [h.eq_graft, graft, hreplace]
  · intro h
    have hgraft : u = t.graft q new := by rw [graft, h]
    rw [hgraft]
    exact edit_graft (get?_of_replaceAt? h) new

theorem childPaths_set {i j : Nat} {c : Tree} (hc : cs[j]? = some c) (hpaths : new.paths = c.paths) :
    childPaths i (cs.set j new) = childPaths i cs := by
  induction cs generalizing i j with
  | nil => rfl
  | cons d cs ih =>
    cases j with
    | zero =>
      obtain rfl : d = c := by simpa using hc
      rw [List.set_cons_zero, childPaths, childPaths, hpaths]
    | succ j => rw [List.set_cons_succ, childPaths, childPaths, ih (by simpa using hc)]

theorem paths_graft (h : t.get? q = some old) (hpaths : new.paths = old.paths) :
    (t.graft q new).paths = t.paths := by
  induction q generalizing t with
  | nil =>
    rw [get?_nil] at h
    rw [graft_nil, hpaths, Option.some.inj h]
  | cons i q ih =>
    cases t with
    | node k cs =>
      rw [get?_cons] at h
      obtain ⟨c, hc, hbelow⟩ := Option.bind_eq_some_iff.mp h
      rw [graft_cons hc hbelow, paths, paths, childPaths_set hc (ih hbelow)]

theorem paths_withKind (t : Tree) (k : Kind) : (node k t.children).paths = t.paths := by
  cases t with
  | node l cs => rw [children, paths, paths]

theorem kindAt?_withKind (t : Tree) (k : Kind) (hp : p ≠ []) :
    (node k t.children).kindAt? p = t.kindAt? p := by
  cases t with
  | node l cs =>
    obtain ⟨i, p, rfl⟩ := List.exists_cons_of_ne_nil hp
    rw [children, kindAt?_cons, kindAt?_cons]

/-- Where only the kind of a node changes, every other path keeps its kind. -/
theorem Edit.kindAt?_eq (h : Edit t u q old (node k old.children)) (hp : p ≠ q) :
    u.kindAt? p = t.kindAt? p := by
  by_cases hqp : q <+: p
  · obtain ⟨r, rfl⟩ := hqp
    have hr : r ≠ [] := by
      rintro rfl
      exact hp (List.append_nil q)
    have hsub : t.get? (q ++ r) = old.get? r := by rw [get?_append, h.there, Option.bind_some]
    rw [kindAt?, h.inside, ← kindAt?, kindAt?_withKind old k hr, kindAt?, kindAt?, hsub]
  · exact h.elsewhere p hqp

theorem Edit.kindAt?_self (h : Edit t u q old new) :
    t.kindAt? q = some old.kind ∧ u.kindAt? q = some new.kind := by
  have hnew := h.inside []
  rw [List.append_nil, get?_nil] at hnew
  rw [kindAt?, kindAt?, h.there, hnew]
  exact ⟨rfl, rfl⟩

end SignalEvolution.Tree
