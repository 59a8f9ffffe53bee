import SignalEvolution.Configuration.Section
import SignalEvolution.Json.Form
import SignalEvolution.Time.Instant

/-! # Provenance of genes

Who made a gene, when and with what, and tags. What a record leaves out is
filled in with the moment of reading and the default settings.
-/
namespace SignalEvolution

structure Provenance where
  author : String
  createdAt : Instant
  source : String
  tags : List String := []
  deriving DecidableEq

namespace Provenance

def ofSettings (s : ExchangeSettings) (now : Instant) : Provenance :=
  { author := s.author, createdAt := now, source := s.source }

def default (now : Instant) : Provenance := ofSettings {} now

def tagged (p : Provenance) (tag : String) : Provenance := { p with tags := p.tags ++ [tag] }

/-- Marks a gene whose tree only stands in for a formula. -/
def placeholderTag : String := "placeholder_ast"

def isPlaceholder (p : Provenance) : Bool := p.tags.contains placeholderTag

def toJson (p : Provenance) : Json :=
  .object [("author", .text p.author), ("created_at", .text p.createdAt.text),
    ("source", .text p.source), ("tags", .texts p.tags)]

def instantReader : Reader Instant := fun room d => (Reader.text room d).bind Instant.ofText?

def reader (now : Instant) : Reader Provenance :=
  Reader.record ["author", "created_at", "source", "tags"] fun r => do
    let author ← r.withDefault "author" (default now).author Reader.text
    let createdAt ← r.withDefault "created_at" now instantReader
    let source ← r.withDefault "source" (default now).source Reader.text
    let tags ← r.withDefault "tags" [] (Reader.list Reader.text)
    return { author, createdAt, source, tags }

end Provenance
end SignalEvolution
