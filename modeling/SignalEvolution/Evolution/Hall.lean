import SignalEvolution.Evolution.Population

/-! # Hall of fame

The best distinct formulas of a run, best first and at most as many as the hall
holds. A formula that was dropped may be offered again.
-/
namespace SignalEvolution

structure Elite where
  scored : Scored
  /-- The formula under which duplicates are recognised. -/
  canonical : String
  generation : Nat

namespace Elite

def ofScored (s : Scored) (generation : Nat) : Elite := ⟨s, s.gene.formula, generation⟩

def score (e : Elite) : Float := e.scored.score

def standing (e : Elite) : Int := e.scored.standing

end Elite

structure Hall where
  capacity : Nat
  entries : List Elite := []
  signatures : List String := []

namespace Hall

def defaultCapacity : Nat := 20

def ranked (entries : List Elite) : List Elite :=
  entries.mergeSort fun a b => b.standing ≤ a.standing

/-- Keeps what fits and forgets the formulas of the rest. -/
def trim (h : Hall) : Hall :=
  let dropped := (h.entries.drop h.capacity).map Elite.canonical
  { h with
    entries := h.entries.take h.capacity
    signatures := h.signatures.filter fun s => !dropped.contains s }

/-- Offers an entry; refused when its formula is held already. -/
def offer (h : Hall) (e : Elite) : Hall × Bool :=
  if h.capacity = 0 ∨ h.signatures.contains e.canonical then (h, false)
  else
    (trim { h with
      entries := ranked (h.entries ++ [e])
      signatures := e.canonical :: h.signatures }, true)

def offerAll (h : Hall) (generation : Nat) : List Scored → Hall × Nat
  | [] => (h, 0)
  | s :: rest =>
    let (h, added) := h.offer (Elite.ofScored s generation)
    let (h, count) := offerAll h generation rest
    (h, if added then count + 1 else count)

def best? (h : Hall) : Option Elite := h.entries.head?

def atLeast (h : Hall) (score : Float) : List Elite := h.entries.filter fun e => score ≤ e.score

end Hall
end SignalEvolution
