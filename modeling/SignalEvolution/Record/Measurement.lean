import SignalEvolution.Evolution.Population
import SignalEvolution.Record.Vocabulary

/-! # Exchanged measurements

Bars, trades, fitness and the summaries of generations. A number that is not
finite is written as null and does not come back.
-/
namespace SignalEvolution

instance : JsonForm (Bar Float) where
  toJson b := .object [("open", .number b.opening), ("high", .number b.high), ("low", .number b.low),
    ("close", .number b.close), ("volume", .number b.volume)]
  reader := Reader.record ["open", "high", "low", "close", "volume"] fun r => do
    let opening ← r.required "open" Reader.number
    let high ← r.required "high" Reader.number
    let low ← r.required "low" Reader.number
    let close ← r.required "close" Reader.number
    let volume ← r.required "volume" Reader.number
    return { opening, high, low, close, volume }

instance : JsonForm (Trade Float) where
  toJson t := .object [("entry_bar", .integer t.entryBar), ("exit_bar", .integer t.exitBar),
    ("entry_price", .number t.entryPrice), ("exit_price", .number t.exitPrice),
    ("size", .number t.size), ("profit", .number t.profit),
    ("exit_reason", JsonForm.toJson t.exitReason)]
  reader := Reader.record ["entry_bar", "exit_bar", "entry_price", "exit_price", "size", "profit",
      "exit_reason"] fun r => do
    let entryBar ← r.required "entry_bar" Reader.natural
    let exitBar ← r.required "exit_bar" Reader.natural
    let entryPrice ← r.required "entry_price" Reader.number
    let exitPrice ← r.required "exit_price" Reader.number
    let size ← r.required "size" Reader.number
    let profit ← r.required "profit" Reader.number
    let exitReason ← r.required "exit_reason" JsonForm.reader
    return { entryBar, exitBar, entryPrice, exitPrice, size, profit, exitReason }

instance : JsonForm Fitness where
  toJson f := .object [("fitness", .number f.score), ("metadata", .ofTable id f.metadata)]
  reader := Reader.record ["fitness", "metadata"] fun r => do
    let score ← r.required "fitness" Reader.number
    let metadata ← r.withDefault "metadata" Table.empty (Reader.table Reader.json)
    return { score, metadata }

instance : JsonForm GenerationStats where
  toJson s := .object [("generation", .integer s.generation), ("best_fitness", .number s.best),
    ("avg_fitness", .number s.average), ("worst_fitness", .number s.worst),
    ("diversity", .number s.diversity), ("best_gene_id", .text s.bestId),
    ("best_formula", .text s.bestFormula)]
  reader := Reader.record ["generation", "best_fitness", "avg_fitness", "worst_fitness", "diversity",
      "best_gene_id", "best_formula"] fun r => do
    let generation ← r.required "generation" Reader.natural
    let best ← r.required "best_fitness" Reader.number
    let average ← r.required "avg_fitness" Reader.number
    let worst ← r.required "worst_fitness" Reader.number
    let diversity ← r.required "diversity" Reader.number
    let bestId ← r.required "best_gene_id" Reader.text
    let bestFormula ← r.required "best_formula" Reader.text
    return { generation, best, average, worst, diversity, bestId, bestFormula }

end SignalEvolution
