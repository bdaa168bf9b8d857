/-
  Notices: what building a table has to tell.

  The notices of a construction come in the order of its stages.  Details are told only if the
  settings ask for them; a summary of the conflicts, and where each row was placed, are told always.
  Each notice has a level, by which a reader chooses.

  What is long is told line by line.  A line ends at a line feed; a carriage return right before it
  belongs to the break, anywhere else it is an ordinary character.  A text that ends in a line feed
  has no empty line after it.
-/
import Lalr.Construction

namespace Lalr

/-- How much a notice matters: a warning most, a trace least. -/
inductive Importance where
  | warn
  | debug
  | trace
  deriving DecidableEq, Repr

/-- The levels from `error`, 1, to `trace`, 5. -/
def Importance.rank : Importance → Nat
  | warn => 2
  | debug => 4
  | trace => 5

/-- The name of a level. -/
def Importance.name : Importance → String
  | warn => "warn"
  | debug => "debug"
  | trace => "trace"

/-- A text and how much it matters. -/
structure Notice where
  importance : Importance
  text : String
  deriving DecidableEq, Repr

/-! ## Texts -/

namespace Text

/-- A line without the carriage return that belongs to its break. -/
def dropReturn (line : List Char) : List Char :=
  if line.getLast? = some '\r' then line.dropLast else line

/-- The lines of a text. -/
def lines (text : String) : List String :=
  let pieces := text.splitOn "\n"
  let ended := pieces.dropLast.map fun piece => String.ofList (dropReturn piece.toList)
  match pieces.getLast? with
  | none => ended
  | some last => if last.isEmpty then ended else ended ++ [last]

end Text

namespace Alphabet

/-- The names of the terminals of a set, each with a blank behind it. -/
def setText (α : Alphabet) (s : SymbolSet) : String :=
  s.toList.foldl (fun text t => text ++ α.terminalName t ++ " ") ""

end Alphabet

/-- A core as text: its rule with a dot. -/
def Core.text (g : Grammar) (core : Core) : String :=
  let rule := g.rule core.rule
  let head := g.alphabet.nonterminalName rule.lhs ++ " :"
  let dotted := rule.rhs.zipIdx.foldl
    (fun text (x, i) =>
      (if i == core.dot then text ++ " ." else text) ++ " " ++ g.alphabet.name x) head
  if core.isComplete g then dotted ++ " ." else dotted

/-- What every nonterminal can begin with; a sign marks those that can vanish. -/
def Firsts.text (g : Grammar) (f : Firsts) : String :=
  (List.range g.nonterminalCount).foldl
    (fun text a =>
      text ++ "  " ++ g.alphabet.nonterminalName a ++ "\t[ " ++ g.alphabet.setText (f.firstOf a)
        ++ (if f.isNullable a then "@ " else "") ++ "]\n")
    "First:\n"

namespace State

/-- An item of a state as text. -/
def itemText (g : Grammar) (s : State) (item : Item) : String :=
  let origin :=
    match item.origin with
    | none => ""
    | some a => "  < " ++ g.alphabet.nonterminalName a
  "  " ++ item.core.text g ++ "  [ " ++ g.alphabet.setText (s.lookahead item) ++ "]" ++ origin
    ++ "\n"

/-- State number `i` as text: how it is entered, its items and its moves. -/
def text (g : Grammar) (s : State) (i : Nat) : String :=
  let via :=
    match s.entry with
    | none => ""
    | some x => " via " ++ g.alphabet.name x
  let items := s.items.foldl (fun text item => text ++ s.itemText g item) s!"state {i}{via}\n"
  s.moves.foldl
    (fun text (x, t) =>
      let name := g.alphabet.name x
      text ++ s!"  {name} -> {t}\n")
    items

end State

/-- All states as text. -/
def Automaton.text (g : Grammar) (automaton : Automaton) : String :=
  automaton.states.zipIdx.foldl (fun text (s, i) => text ++ s.text g i) ""

/-- The name of a kind of conflict. -/
def Conflict.Kind.name : Conflict.Kind → String
  | shiftReduce => "ShiftReduce"
  | reduceReduce => "ReduceReduce"

/-! ## The notices of each stage -/

namespace Construction

/-- How large the grammar is. -/
def sizeNotices (c : Construction) : List Notice :=
  let g := c.grammar
  let terminals := g.terminalCount
  let nonterminals := g.nonterminalCount
  let rules := g.rules.size
  [⟨.debug, s!"{terminals} terminals, {nonterminals} nonterminals, {rules} rules"⟩]

/-- The nonterminals from which an empty rule is reached, and what each can begin with. -/
def firstNotices (c : Construction) : List Notice :=
  let g := c.grammar
  let marked := (List.range g.nonterminalCount).filter c.analysis.leading.isMarked
  ⟨.debug, "EMPTY nonterminals:"⟩
    :: marked.map (fun a => ⟨.debug, "  " ++ g.alphabet.nonterminalName a⟩)
    ++ (Text.lines (c.analysis.firsts.text g)).map (⟨.debug, ·⟩)

/-- The automaton. -/
def automatonNotices (c : Construction) : List Notice :=
  let states := c.automaton.states.size
  let empties := c.automaton.emptyItems
  ⟨.debug, s!"{states} states, {empties} empty items"⟩
    :: (Text.lines (c.automaton.text c.grammar)).map (⟨.debug, ·⟩)

/-- A conflict. -/
def conflictNotice (c : Construction) (conflict : Conflict) : Notice :=
  let state := conflict.state
  let symbol := c.grammar.alphabet.terminalName conflict.terminal
  let kind := conflict.kind.name
  let rule := conflict.rule
  ⟨.debug, s!"  state {state} on {symbol}: {kind}, rule {rule} dropped"⟩

/-- How many conflicts of each kind there are, if there are any. -/
def conflictSummary (c : Construction) : List Notice :=
  if c.conflicts.isEmpty then []
  else
    let shiftReduce := (c.conflicts.filter (·.kind = .shiftReduce)).size
    let reduceReduce := c.conflicts.size - shiftReduce
    [⟨.warn, s!"{shiftReduce} shift/reduce, {reduceReduce} reduce/reduce conflicts"⟩]

/-- Where each row was placed. -/
def placingNotices (what : String) (p : PackedRows) : List Notice :=
  p.order.map fun r =>
    let entries := (p.rows.getD r []).length
    let base := p.table.base.getD r 0
    ⟨.trace, s!"{what} row {r}: {entries} entries at base {base}"⟩

/-- How large the tables are. -/
def tableNotices (c : Construction) : List Notice :=
  let t := c.table
  let states := t.stateCount
  let nonLeaves := t.nonLeafCount
  let split := t.splitCount
  let actions := c.encoded.actions.entryCount
  let actionSlots := t.actions.values.size
  let gotos := c.encoded.gotos.entryCount
  let gotoSlots := t.gotos.values.size
  [⟨.debug, s!"{states} states, {nonLeaves} non-leaf, {split} with two action rows"⟩,
   ⟨.debug, s!"action table: {actions} entries in {actionSlots} slots"⟩,
   ⟨.debug, s!"goto table: {gotos} entries in {gotoSlots} slots"⟩]

/-- All notices, in order; details only if they are asked for. -/
def notices (c : Construction) (details : Bool) : List Notice :=
  let detailed (notices : List Notice) := if details then notices else []
  detailed (c.sizeNotices ++ c.firstNotices ++ c.automatonNotices)
    ++ c.conflictSummary
    ++ detailed (c.conflicts.toList.map c.conflictNotice)
    ++ placingNotices "action" c.encoded.actions
    ++ placingNotices "goto" c.encoded.gotos
    ++ detailed c.tableNotices

/-- The notices that matter at least as much as `rank`. -/
def noticesUpTo (c : Construction) (details : Bool) (rank : Nat) : List Notice :=
  (c.notices details).filter (·.importance.rank ≤ rank)

end Construction

end Lalr
