/-
  From declarations to a parse table, with everything that was worked out on the way.

  A `Construction` keeps the result of every stage, so what a stage found can be looked up, reported
  (`Lalr.Notice`) and compared with the table at the end.

  The work on the automaton may never end, and rows may need slots that have no number
  (`Construction.succeeds`).  Then nothing is built.  Both take sizes that no real grammar has: a
  rule with 65536 symbols on its right side, or a table with `2 ^ 31` slots.
-/
import Lalr.Encoding
import Lalr.Machine
import Lalr.Resolution

namespace Lalr

/-- What may be chosen when a table is built. -/
structure Settings where
  /-- report the stages in detail -/
  debug : Bool := false
  /-- the text that runs for rules that declare none -/
  defaultText : String := "$$ = $1;"
  deriving DecidableEq, Repr

/-- The stages of building a parse table. -/
structure Construction where
  analysis : Analysis
  automaton : Automaton
  decisions : Decisions
  encoded : Encoded

/-- What is worked out about a grammar before its automaton is built. -/
def Analysis.ofGrammar (grammar : Grammar) : Analysis where
  grammar
  leading := LeadingEmpty.ofGrammar grammar
  firsts := Firsts.ofGrammar grammar

namespace Construction

/-- All stages for a grammar. -/
def ofGrammar (settings : Settings) (grammar : Grammar) : Construction :=
  let analysis := Analysis.ofGrammar grammar
  let automaton := Automaton.ofAnalysis analysis
  let decisions := Decisions.ofAutomaton grammar automaton
  { analysis
    automaton
    decisions
    encoded := Encoded.ofRows grammar settings.defaultText decisions.rows }

/-- The grammar. -/
def grammar (c : Construction) : Grammar :=
  c.analysis.grammar

/-- The parse table. -/
def table (c : Construction) : ParseTable :=
  c.encoded.table

/-- The conflicts that were settled by default. -/
def conflicts (c : Construction) : Array Conflict :=
  c.decisions.conflicts

/-- Did every stage come to its end? -/
def succeeds (c : Construction) : Bool :=
  c.automaton.finished && c.encoded.isNarrow

end Construction

/-- Builds a parse table from declarations.  Where a stage does not come to its end there is nothing
    to return; `noRules` only fills that place. -/
def Declarations.build (d : Declarations) (settings : Settings := {}) :
    Except Defect Construction := do
  let c := Construction.ofGrammar settings (← d.resolve)
  if c.succeeds then return c else throw .noRules

end Lalr
