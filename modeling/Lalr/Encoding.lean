/-
  From decisions to a parse table.

  The codes of actions are those of `Lalr.ParseTable`.  Entering a leaf is folded into the leaf's
  reduction, so leaves need no rows.  In a split state the shifts make the first action row, all
  else the second.  A goto row leaves out the nonterminal's most frequent target, which is
  its default.

  The text of a rule is kept without the blanks around it.  A character is blank if it has the
  property `White_Space` of the Unicode standard: twenty-five characters, six of them in ASCII.
-/
import Lalr.Numbering
import Lalr.Packing
import Lalr.ParseTable

namespace Lalr

/-- The rule number that stands for no valid action. -/
def unexpectedRule : Int := 32767

/-- The action code that stands for no entry. -/
def useDefault : Int := -32766

/-- A numbering of the states with the rows it is for. -/
structure Coding where
  rows : Array ActionRow
  numbering : Numbering

namespace Coding

/-- Numbers the states of the given rows. -/
def ofRows (rows : Array ActionRow) : Coding :=
  ⟨rows, Numbering.ofRows rows⟩

/-- The row of automaton state `s`. -/
def row (c : Coding) (s : Nat) : ActionRow :=
  c.rows.getD s default

/-- The rule that a fallback reduces by. -/
def fallbackRule : Action → Int
  | .reduce r => r
  | .accept => 0
  | .shift _ | .error => unexpectedRule

/-- The code for entering state `s`. -/
def stateCode (c : Coding) (s : Nat) : Int :=
  let new := c.numbering.number s
  -- a leaf is not entered: past the other states a code gives the rule to reduce by
  if new < c.numbering.nonLeafCount then new
  else c.numbering.nonLeafCount + fallbackRule (c.row s).fallback

/-- The code of an action. -/
def actionCode (c : Coding) : Action → Int
  | .shift s => c.stateCode s
  | .reduce r => -(r : Int)
  | .accept => 0
  | .error => -unexpectedRule

/-- The automaton states that have action rows, in the new order. -/
def nonLeaves (c : Coding) : List Nat :=
  c.numbering.order.take c.numbering.nonLeafCount

/-- The coded actions of state `s` that satisfy a test. -/
def entries (c : Coding) (s : Nat) (test : Action → Bool) : SparseRow :=
  ((c.row s).actions.filter (test ·.2)).map fun (t, action) => (t, c.actionCode action)

/-- The first action row of state `s`: the shifts if it is split, else everything. -/
def firstRow (c : Coding) (s : Nat) : SparseRow :=
  if (c.row s).isSplit then c.entries s Action.isShift else c.entries s fun _ => true

/-- The second action row of state `s`: all but the shifts if it is split, else nothing. -/
def secondRow (c : Coding) (s : Nat) : SparseRow :=
  if (c.row s).isSplit then c.entries s (!·.isShift) else []

/-- All action rows: the first ones of the non-leaf states, then the second ones of the states that
    have one. -/
def actionRows (c : Coding) : Array SparseRow :=
  (c.nonLeaves.map c.firstRow ++
    (c.nonLeaves.take c.numbering.splitCount).map c.secondRow).toArray

/-- By state: the rule to reduce by where no entry says otherwise. -/
def actionDefault (c : Coding) : Array Int :=
  (c.numbering.order.map fun s => fallbackRule (c.row s).fallback).toArray

/-- The codes entered after reductions to nonterminal `a`, by non-leaf state. -/
def gotoTargets (c : Coding) (a : Nat) : SparseRow :=
  c.nonLeaves.zipIdx.filterMap fun (s, new) =>
    ((c.row s).gotos.lookup a).map fun target => (new, c.stateCode target)

/-- The default of a goto row: its most frequent code, 0 if it is empty. -/
def gotoFallback (targets : SparseRow) : Int :=
  (commonest? (targets.map (·.2))).getD 0

/-- A goto row without the entries equal to its default. -/
def gotoRow (targets : SparseRow) : SparseRow :=
  let fallback := gotoFallback targets
  targets.filter (·.2 != fallback)

end Coding

/-! ## Texts without the blanks around them -/

namespace Text

/-- The code points of the blank characters, as closed ranges. -/
def blankRanges : List (Nat × Nat) :=
  [(0x9, 0xD), (0x20, 0x20), (0x85, 0x85), (0xA0, 0xA0), (0x1680, 0x1680), (0x2000, 0x200A),
   (0x2028, 0x2029), (0x202F, 0x202F), (0x205F, 0x205F), (0x3000, 0x3000)]

/-- Does the character have the property `White_Space`? -/
def isBlank (c : Char) : Bool :=
  blankRanges.any fun (low, high) => low ≤ c.toNat && c.toNat ≤ high

/-- The text without the blanks at its two ends. -/
def trim (text : String) : String :=
  String.ofList (((text.toList.dropWhile isBlank).reverse.dropWhile isBlank).reverse)

end Text

/-! ## Names and codes of symbols -/

namespace Grammar

/-- By raw code: the terminal that has it, else `invalid`.  Every byte has an entry. -/
def tokenToSymbol (g : Grammar) : Array Int :=
  let highest := g.alphabet.terminals.foldl (fun high t => max high t.code) 255
  g.alphabet.terminals.zipIdx.foldl
    (fun table (terminal, t) => table.setIfInBounds terminal.code (t : Int))
    (Array.replicate (highest + 1) (g.terminalCount : Int))

/-- The terminal for error recovery, 0 if there is none. -/
def errorSymbol (g : Grammar) : Nat :=
  (g.alphabet.terminal? errorName).getD 0

/-- The text to run when rule `r` is reduced: that of the rule without the blanks around it, or the
    default if nothing is left. -/
def reduceText (g : Grammar) (default : String) (r : Nat) : String :=
  match (g.rule r).action with
  | none => default
  | some text =>
    let text := Text.trim text
    if text.isEmpty then default else text

end Grammar

/-! ## The table -/

/-- Decisions written into tables, with the rows that were packed on the way. -/
structure Encoded where
  actions : PackedRows
  gotos : PackedRows
  table : ParseTable

/-- Encodes the decisions for a grammar.  `defaultText` is what runs for rules without a text. -/
def Encoded.ofRows (g : Grammar) (defaultText : String) (rows : Array ActionRow) : Encoded :=
  let c := Coding.ofRows rows
  let actions := PackedRows.pack .byColumn c.actionRows
  let targets := (Array.range g.nonterminalCount).map c.gotoTargets
  let gotos := PackedRows.pack .byRow (targets.map Coding.gotoRow)
  let numbers := Array.range g.rules.size
  { actions
    gotos
    table :=
      { invalidSymbol := g.terminalCount
        errorSymbol := g.errorSymbol
        unexpectedRule
        useDefault
        stateCount := rows.size
        nonLeafCount := c.numbering.nonLeafCount
        splitCount := c.numbering.splitCount
        actions := actions.table
        actionDefault := c.actionDefault
        gotos := gotos.table
        gotoDefault := targets.map Coding.gotoFallback
        ruleToNonterminal := g.rules.map fun r => (r.lhs : Int)
        ruleToLength := g.rules.map fun r => (r.rhs.length : Int)
        tokenToSymbol := g.tokenToSymbol
        symbolNames := g.alphabet.terminals.map (·.name)
        ruleTexts := numbers.map g.ruleText
        reduceTexts := numbers.map (g.reduceText defaultText) } }

/-- Could the rows be packed with 32-bit slot numbers? -/
def Encoded.isNarrow (e : Encoded) : Bool :=
  e.actions.isNarrow && e.gotos.isNarrow

end Lalr
