import SignalEvolution.Configuration.Layers
import SignalEvolution.Configuration.Table

/-! # Configuration store

The store holds one configuration. A change is kept only if its result passes
the check; otherwise the store stays as it was.
-/
namespace SignalEvolution

/-- The outcome of looking into a file: what it says, or why it cannot be read. -/
abbrev FileContent := Except String String

structure ConfigurationStore where
  current : Configuration := {}

namespace ConfigurationStore

def replace (store : ConfigurationStore) (candidate : Except Problem Configuration) :
    Except Problem Unit × ConfigurationStore :=
  match candidate with
  | .error p => (.error p, store)
  | .ok c =>
    match c.check with
    | .error p => (.error p, store)
    | .ok () => (.ok (), ⟨c⟩)

def update (store : ConfigurationStore) (change : Configuration → Configuration) :
    Except Problem Unit × ConfigurationStore :=
  store.replace (.ok (change store.current))

def unreadable (reason : String) : Problem := .configuration ("Failed to read config: " ++ reason)

def unwritable (reason : String) : Problem := .configuration ("Failed to write config: " ++ reason)

def load (store : ConfigurationStore) (content : FileContent) : Except Problem Unit × ConfigurationStore :=
  store.replace (match content with
    | .error reason => .error (unreadable reason)
    | .ok s => Configuration.ofTable s)

/-- Takes the configuration of all layers; a file that is named has to be there. -/
def loadLayers (store : ConfigurationStore) (file : Option (Option Layers.File))
    (environment : List (String × String)) : Except Problem Unit × ConfigurationStore :=
  store.replace (match file with
    | none => Configuration.ofLayers none environment
    | some none => .error .layers
    | some (some f) => Configuration.ofLayers (some f) environment)

/-- The text of a file with the configuration, given what becomes of writing it. -/
def save (store : ConfigurationStore) (written : Except String Unit) : Except Problem String := do
  let s ← store.current.toTable
  match written with
  | .error reason => throw (unwritable reason)
  | .ok () => return s

end ConfigurationStore
end SignalEvolution
