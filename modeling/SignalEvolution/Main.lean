import SignalEvolution.Search
import SignalEvolution.Time.Clock
import Std.Time.DateTime.Timestamp

/-! # Command line

Runs one search. The first argument names a configuration file; variables of the
environment are laid over it. The report goes to standard output. -/
namespace SignalEvolution

/-- The configuration file among the arguments, with its content where it can be read. -/
def configurationFile : List String → IO (Option (Option Layers.File))
  | [] => return none
  | path :: _ => do
    match ← (IO.FS.readFile path).toBaseIO with
    | .ok content => return some (some (Layers.File.ofPath path content))
    | .error _ => return some none

/-- The variables of the environment: all where the system lists them, else those named like a setting. -/
def environment : IO (List (String × String)) := do
  match ← (IO.FS.readFile "/proc/self/environ").toBaseIO with
  | .ok listing => return Layers.listed listing
  | .error _ =>
    Layers.variableNames.filterMapM fun name => do
      return (← IO.getEnv name).map (name, ·)

/-- The time; the first instant of 1970 where the clock runs outside the calendar. -/
def currentInstant : IO Instant := do
  let reading := (← Std.Time.Timestamp.now).toNanosecondsSinceUnixEpoch.val
  return (Instant.ofClock? reading).getD
    ⟨⟨1970, 1, 1, by decide, by decide, by decide⟩, ⟨0, 0, 0, 0, by decide⟩⟩

/-- Words of a seed from the system. -/
def systemWords : IO ChaChaWords := do
  let bytes ← IO.getRandomBytes 8
  return ChaChaWords.ofSeed (bytes.toList.foldl (fun w b => w <<< 8 ||| b.toUInt64) 0)

def brokenOff : UInt32 := 101

def command (args : List String) : IO UInt32 := do
  let file ← configurationFile args
  match (Search.reportOf file (← environment) (← currentInstant) (← systemWords)).run with
  | none => return brokenOff
  | some (.ok lines) =>
    lines.forM IO.println
    return 0
  | some (.error p) =>
    IO.eprintln ("Error: " ++ p.message?.getD "the configuration or the record cannot be read")
    return 1

end SignalEvolution

def main (args : List String) : IO UInt32 := SignalEvolution.command args
