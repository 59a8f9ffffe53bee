import Mathlib.Data.List.Flatten
import Mathlib.Data.List.Nodup
import Mathlib.Data.List.Zip
import SignalEvolution.Proofs.Tree.Equality
import SignalEvolution.Proofs.Tree.Size

/-! # Traversal of trees

A tree is walked with a stack, the next item at its end: that item is taken off, and those below
it are put on in reverse, so that the first of them comes next. The walk over nodes gives the
preorder, and the walk over places gives with every node the path at which the tree has it.
-/
namespace SignalEvolution.Tree

variable {α : Type} {k : Kind} {cs ds : List Tree} {t : Tree} {p : Path} {i : Nat}

/-- Items that stand for trees. Those below an item stand for the children, in their order. -/
structure Items (α : Type) where
  tree : α → Tree
  below : α → List α
  tree_below : ∀ x, (below x).map tree = (tree x).children

/-- What was visited, the latest last, and what is still to be visited, the next one last. -/
structure Walk (α : Type) where
  visited : List α
  stack : List α

namespace Walk

variable {items : Items α} {w next : Walk α}

def step? (items : Items α) (w : Walk α) : Option (Walk α) :=
  w.stack.getLast?.map fun x =>
    { visited := w.visited ++ [x], stack := w.stack.dropLast ++ (items.below x).reverse }

theorem step?_eq_some (h : w.step? items = some next) : ∃ rest x, w.stack = rest ++ [x] ∧
    next = { visited := w.visited ++ [x], stack := rest ++ (items.below x).reverse } := by
  obtain ⟨x, hx, rfl⟩ := Option.map_eq_some_iff.mp h
  exact ⟨w.stack.dropLast, x, (List.dropLast_append_getLast? x hx).symm, rfl⟩

/-- The nodes of all trees on the stack. -/
def pending (items : Items α) (w : Walk α) : Nat := totalCount (w.stack.map items.tree)

/-- Every step leaves one node less to be visited. -/
theorem pending_step? (h : w.step? items = some next) : next.pending items + 1 = w.pending items := by
  obtain ⟨rest, x, hstack, rfl⟩ := step?_eq_some h
  have hx : (items.tree x).nodeCount = 1 + totalCount (items.tree x).children := by
    cases items.tree x with
    | node k cs => exact nodeCount_node
  simp only [pending, hstack, List.map_append, List.map_reverse, items.tree_below, totalCount_append,
    totalCount_reverse, List.map_singleton, totalCount_cons, totalCount_nil, hx]
  omega

/-- All items, in the order in which they are visited. -/
def run (items : Items α) (w : Walk α) : List α :=
  match _h : w.step? items with
  | none => w.visited
  | some next => next.run items
termination_by w.pending items
decreasing_by
  have := pending_step? _h
  omega

/-- An order that lists an item and then, one after another, what it lists for those below it. -/
def Descends (items : Items α) (order : α → List α) : Prop :=
  ∀ x, order x = x :: (items.below x).flatMap order

variable {order : α → List α}

/-- A step changes nothing of what was visited together with what the order lists for the stack. -/
theorem Descends.step? (ho : Descends items order) (h : w.step? items = some next) :
    next.visited ++ next.stack.reverse.flatMap order = w.visited ++ w.stack.reverse.flatMap order := by
  obtain ⟨rest, x, hstack, rfl⟩ := step?_eq_some h
  rw [hstack, List.reverse_append, List.reverse_append, List.reverse_reverse, List.flatMap_append,
    List.flatMap_append, List.reverse_singleton, List.flatMap_singleton, ho x]
  simp

theorem Descends.run (ho : Descends items order) (w : Walk α) :
    w.run items = w.visited ++ w.stack.reverse.flatMap order := by
  fun_induction Walk.run items w with
  | case1 w h =>
    have hempty : w.stack = [] := List.getLast?_eq_none_iff.mp (Option.map_eq_none_iff.mp h)
    rw [hempty, List.reverse_nil, List.flatMap_nil, List.append_nil]
  | case2 w next h ih => rw [ih, ho.step? h]

end Walk

def nodeItems : Items Tree where
  tree := id
  below := children
  tree_below _ := List.map_id _

/-- Nodes with their paths. -/
def placeItems : Items (Path × Tree) where
  tree := Prod.snd
  below x := x.2.children.zipIdx.map fun (c, i) => (x.1 ++ [i], c)
  tree_below x := by
    rw [List.map_map]
    exact List.zipIdx_map_fst 0 x.2.children

def walkNodes (t : Tree) : List Tree := Walk.run nodeItems ⟨[], [t]⟩

def walkPlaces (t : Tree) : List (Path × Tree) := Walk.run placeItems ⟨[], [([], t)]⟩

theorem length_preorder (t : Tree) : t.preorder.length = t.nodeCount := by
  induction t using Tree.induction with
  | node k cs ih =>
    have hall : (preorderAll cs).length = totalCount cs := by
      induction cs with
      | nil => rfl
      | cons c cs ihcs =>
        obtain ⟨hc, hcs⟩ := List.forall_mem_cons.mp ih
        rw [preorderAll, List.length_append, hc, ihcs hcs, totalCount_cons]
    rw [preorder, List.length_cons, hall, nodeCount_node, Nat.add_comm]

theorem length_paths (t : Tree) : t.paths.length = t.nodeCount := by
  induction t using Tree.induction with
  | node k cs ih =>
    have hall : ∀ i, (childPaths i cs).length = totalCount cs := by
      induction cs with
      | nil => exact fun i => rfl
      | cons c cs ihcs =>
        intro i
        obtain ⟨hc, hcs⟩ := List.forall_mem_cons.mp ih
        rw [childPaths, List.length_append, List.length_map, hc, ihcs hcs, totalCount_cons]
    rw [paths, List.length_cons, hall, nodeCount_node, Nat.add_comm]

theorem preorderAll_eq (cs : List Tree) : preorderAll cs = cs.flatMap preorder := by
  induction cs with
  | nil => rfl
  | cons c cs ih => rw [preorderAll, ih, List.flatMap_cons]

theorem descends_preorder : Walk.Descends nodeItems preorder := by
  intro t
  cases t with
  | node k cs =>
    rw [preorder, preorderAll_eq]
    rfl

/-- The nodes below a place with their paths from the root. -/
def placesFrom (x : Path × Tree) : List (Path × Tree) := (x.2.paths.map (x.1 ++ ·)).zip x.2.preorder

theorem childPaths_zip (p : Path) (i : Nat) (cs : List Tree) :
    ((childPaths i cs).map (p ++ ·)).zip (preorderAll cs) =
      (cs.zipIdx i).flatMap fun (c, j) => placesFrom (p ++ [j], c) := by
  induction cs generalizing i with
  | nil => rfl
  | cons c cs ih =>
    have hfirst : ((c.paths.map (i :: ·)).map (p ++ ·)) = c.paths.map (p ++ [i] ++ ·) := by
      simp
    have hlength : (c.paths.map (p ++ [i] ++ ·)).length = c.preorder.length := by
      rw [List.length_map, length_paths, length_preorder]
    rw [childPaths, preorderAll, List.map_append, hfirst, List.zip_append hlength, ih, List.zipIdx_cons,
      List.flatMap_cons]
    rfl

theorem descends_placesFrom : Walk.Descends placeItems placesFrom := by
  rintro ⟨p, t⟩
  cases t with
  | node k cs =>
    rw [placesFrom, paths, preorder, List.map_cons, List.append_nil, List.zip_cons_cons, childPaths_zip,
      ← List.flatMap_map]
    rfl

theorem walkNodes_eq (t : Tree) : walkNodes t = t.preorder := by
  rw [walkNodes, descends_preorder.run]
  simp

theorem walkPlaces_eq (t : Tree) : walkPlaces t = t.paths.zip t.preorder := by
  rw [walkPlaces, descends_placesFrom.run]
  simp [placesFrom]

theorem get?_nil (t : Tree) : t.get? [] = some t := by
  cases t with
  | node k cs => rfl

theorem get?_cons (k : Kind) (cs : List Tree) (i : Nat) (p : Path) :
    (node k cs).get? (i :: p) = cs[i]?.bind fun c => c.get? p := by rw [get?]

/-- Under the index of a child that was exchanged lies the new one. -/
theorem get?_set_self (hi : i < cs.length) (k : Kind) (t : Tree) (p : Path) :
    (node k (cs.set i t)).get? (i :: p) = t.get? p := by
  rw [get?_cons, List.getElem?_set_self hi, Option.bind_some]

theorem get?_set_ne {j : Nat} (h : i ≠ j) (k : Kind) (cs : List Tree) (t : Tree) (p : Path) :
    (node k (cs.set i t)).get? (j :: p) = (node k cs).get? (j :: p) := by
  rw [get?_cons, get?_cons, List.getElem?_set_ne h]

theorem get?_append (t : Tree) (p q : Path) : t.get? (p ++ q) = (t.get? p).bind fun u => u.get? q := by
  induction p generalizing t with
  | nil => rw [get?_nil]; rfl
  | cons i p ih =>
    cases t with
    | node k cs =>
      rw [List.cons_append, get?_cons, get?_cons]
      cases cs[i]? with
      | none => rfl
      | some c => exact ih c

theorem mem_childPaths_of_mem {i j : Nat} {c : Tree} (hc : cs[j]? = some c) (hp : p ∈ c.paths) :
    (i + j) :: p ∈ childPaths i cs := by
  induction cs generalizing i j with
  | nil => simp at hc
  | cons d cs ih =>
    rw [childPaths, List.mem_append]
    cases j with
    | zero =>
      obtain rfl : d = c := by simpa using hc
      exact .inl (List.mem_map_of_mem hp)
    | succ j =>
      have hrest := ih (i := i + 1) (j := j) (by simpa using hc)
      rw [Nat.add_right_comm, Nat.add_assoc] at hrest
      exact .inr hrest

/-- The paths of a tree are those at which it has a subtree. -/
theorem mem_paths_iff : p ∈ t.paths ↔ ∃ u, t.get? p = some u := by
  refine ⟨exists_get?, ?_⟩
  rintro ⟨u, h⟩
  induction p generalizing t with
  | nil =>
    cases t with
    | node k cs => rw [paths]; exact List.mem_cons_self
  | cons i p ih =>
    cases t with
    | node k cs =>
      rw [get?_cons] at h
      obtain ⟨c, hc, hbelow⟩ := Option.bind_eq_some_iff.mp h
      have hmem := mem_childPaths_of_mem (i := 0) hc (ih hbelow)
      rw [Nat.zero_add] at hmem
      rw [paths]
      exact List.mem_cons_of_mem _ hmem

theorem nodup_paths (t : Tree) : t.paths.Nodup := by
  induction t using Tree.induction with
  | node k cs ih =>
    have hall : ∀ i, (childPaths i cs).Nodup := by
      induction cs with
      | nil => exact fun i => List.nodup_nil
      | cons c cs ihcs =>
        intro i
        obtain ⟨hc, hcs⟩ := List.forall_mem_cons.mp ih
        rw [childPaths]
        refine List.nodup_append.mpr ⟨List.Nodup.map List.cons_injective hc, ihcs hcs (i + 1), ?_⟩
        rintro p hp _ hq rfl
        -- Paths into the first child begin with its index, the others with a greater one.
        obtain ⟨rest, -, rfl⟩ := List.mem_map.mp hp
        obtain ⟨j, -, _, -, heq, -⟩ := mem_childPaths hq
        have hindex := (List.cons.inj heq).1
        omega
    have hroot : [] ∉ childPaths 0 cs := by
      intro h
      obtain ⟨_, _, _, -, heq, -⟩ := mem_childPaths h
      cases heq
    rw [paths]
    exact List.nodup_cons.mpr ⟨hroot, hall 0⟩

/-- Each path leads to the node that comes at its place in the preorder. -/
theorem map_get?_paths (t : Tree) : t.paths.map t.get? = t.preorder.map some := by
  induction t using Tree.induction with
  | node k cs ih =>
    have hall : ∀ before ds, before ++ ds = cs →
        (childPaths before.length ds).map (node k cs).get? = (preorderAll ds).map some := by
      intro before ds
      induction ds generalizing before with
      | nil => exact fun _ => rfl
      | cons d ds ihds =>
        intro hcs
        have hd : cs[before.length]? = some d := by rw [← hcs]; simp
        have hbelow : (node k cs).get? ∘ (before.length :: ·) = d.get? := by
          funext p
          rw [Function.comp_apply, get?_cons, hd, Option.bind_some]
        have hrest := ihds (before ++ [d]) (by rw [← hcs]; simp)
        rw [List.length_append, List.length_singleton] at hrest
        rw [childPaths, preorderAll, List.map_append, List.map_append, List.map_map, hbelow, hrest,
          ih d (List.mem_of_getElem? hd)]
    rw [paths, preorder, List.map_cons, List.map_cons, get?_nil, ← hall [] cs rfl]
    rfl

theorem length_lt_depth (h : p ∈ t.paths) : p.length < t.depth := by
  obtain ⟨u, hu⟩ := exists_get? h
  have hbelow := depth_get? hu
  have hu := one_le_depth u
  omega

theorem exists_deepest (cs : List Tree) : cs = [] ∨ ∃ c ∈ cs, c.depth = deepest cs := by
  induction cs with
  | nil => exact .inl rfl
  | cons c cs ih =>
    right
    rw [deepest_cons]
    rcases ih with rfl | ⟨d, hd, hdepth⟩
    · exact ⟨c, List.mem_cons_self, by simp⟩
    · rcases Nat.le_total c.depth (deepest cs) with hle | hle
      · exact ⟨d, List.mem_cons_of_mem c hd, by rw [hdepth, Nat.max_eq_right hle]⟩
      · exact ⟨c, List.mem_cons_self, (Nat.max_eq_left hle).symm⟩

/-- A longest path goes down through a deepest child at every node. -/
theorem exists_longest_path (t : Tree) : ∃ p ∈ t.paths, t.depth = p.length + 1 := by
  induction t using Tree.induction with
  | node k cs ih =>
    rcases exists_deepest cs with rfl | ⟨c, hc, hdepth⟩
    · exact ⟨[], by rw [paths]; exact List.mem_cons_self, rfl⟩
    · obtain ⟨p, hp, hlength⟩ := ih c hc
      obtain ⟨j, hj⟩ := List.getElem?_of_mem hc
      have hmem := mem_childPaths_of_mem (i := 0) hj hp
      rw [Nat.zero_add] at hmem
      refine ⟨j :: p, by rw [paths]; exact List.mem_cons_of_mem _ hmem, ?_⟩
      rw [depth_node, List.length_cons, ← hdepth, hlength]
      omega

theorem get?_of_getElem?_paths {n : Nat} (hp : t.paths[n]? = some p) : t.get? p = t.preorder[n]? := by
  have hstep : (t.paths.map t.get?)[n]? = (t.preorder.map some)[n]? := by rw [map_get?_paths]
  rw [List.getElem?_map, List.getElem?_map, hp, Option.map_some] at hstep
  cases hu : t.preorder[n]? with
  | none => simp [hu] at hstep
  | some u => simpa [hu] using hstep

/-- The walks give the preorder of the nodes and, in step with it, the paths at which the tree has
a node, each of them once and the root's first. The longest of them is one shorter than the tree
is deep. -/
theorem walks_list_places (t : Tree) :
    walkNodes t = t.preorder ∧ (walkPlaces t).map Prod.fst = t.paths ∧
    (∀ p, (t.get? p).isSome = true ↔ p ∈ t.paths) ∧ t.paths.Nodup ∧ t.paths.head? = some [] ∧
    t.paths.length = t.nodeCount ∧ t.preorder.length = t.nodeCount ∧
    (∀ (n : Nat) (p : Path), t.paths[n]? = some p → t.get? p = t.preorder[n]?) ∧
    ∃ p ∈ t.paths, t.depth = p.length + 1 ∧ ∀ q ∈ t.paths, q.length ≤ p.length := by
  have hlength : t.paths.length ≤ t.preorder.length := by rw [length_paths, length_preorder]
  have hplaces : (walkPlaces t).map Prod.fst = t.paths := by
    rw [walkPlaces_eq, List.map_fst_zip hlength]
  have hmem : ∀ p, (t.get? p).isSome = true ↔ p ∈ t.paths := by
    intro p
    rw [Option.isSome_iff_exists, mem_paths_iff]
  have hroot : t.paths.head? = some [] := by
    cases t with
    | node k cs => rw [paths, List.head?_cons]
  obtain ⟨longest, hlongest, hdepth⟩ := exists_longest_path t
  refine ⟨walkNodes_eq t, hplaces, hmem, nodup_paths t, hroot, length_paths t, length_preorder t,
    fun _ _ => get?_of_getElem?_paths, longest, hlongest, hdepth, ?_⟩
  intro q hq
  have hbelow := length_lt_depth hq
  omega

end SignalEvolution.Tree
