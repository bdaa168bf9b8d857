/-
  The parse table: what a table-driven parser needs to know, and the look-ups it makes.

  Action codes, with `n` the number of non-leaf states:

    * `0 < v < n`   shift and enter state `v`;
    * `n ≤ v`       shift and at once reduce by rule `v - n` (the state entered is a leaf);
    * `v ≤ 0`       reduce by rule `-v`; rule 0 accepts.

  A reduction by `unexpectedRule` is a syntax error.  The code `useDefault` stands for no entry.
  A state below `splitCount` owns two action rows: its own number, and its number plus `n`.

  Every row has a fallback.  `action` and `goto` read it in any case, so they refuse a row without
  one; `explicitAction` does not look at it.
-/
import Lalr.SparseTable

namespace Lalr

/-- The tables of a grammar together with what names their rows and columns. -/
structure ParseTable where
  /-- the symbol of every raw code that belongs to no terminal -/
  invalidSymbol : Int
  /-- the terminal `error`, 0 if the grammar does not mention it -/
  errorSymbol : Int
  unexpectedRule : Int
  useDefault : Int
  stateCount : Nat
  nonLeafCount : Nat
  splitCount : Nat
  actions : SparseTable
  /-- by state: the rule to reduce by where no entry says otherwise -/
  actionDefault : Array Int
  /-- one row for each nonterminal, one column for each non-leaf state -/
  gotos : SparseTable
  gotoDefault : Array Int
  ruleToNonterminal : Array Int
  ruleToLength : Array Int
  tokenToSymbol : Array Int
  symbolNames : Array String
  /-- each rule as text -/
  ruleTexts : Array String
  /-- by rule: the text to run when it is reduced -/
  reduceTexts : Array String
  deriving DecidableEq, Repr

namespace ParseTable

/-- The symbol of a raw token code. -/
def symbolOf (t : ParseTable) (raw : Nat) : Int :=
  t.tokenToSymbol.getD raw t.invalidSymbol

/-- The name of a symbol, as error texts give it. -/
def nameOf (t : ParseTable) (symbol : Int) : String :=
  if symbol < 0 then "invalid token" else t.symbolNames.getD symbol.toNat "invalid token"

/-- The raw entry for `symbol` in the rows of `state`: the first row is asked first, and the
    second one, if the state has one, only if the first has no entry. -/
def actionEntry (t : ParseTable) (state : Nat) (symbol : Int) : Except Overrun (Option Int) :=
  if t.nonLeafCount ≤ state then .ok none
  else
    match t.actions.read state symbol symbol with
    | .error e => .error e
    | .ok (some v) => .ok (some v)
    | .ok none =>
      if state < t.splitCount then t.actions.read (state + t.nonLeafCount) symbol symbol
      else .ok none

/-- The explicit action of `state` on `symbol`, if it has one. -/
def explicitAction (t : ParseTable) (state : Nat) (symbol : Int) :
    Except Overrun (Option Int) :=
  (t.actionEntry state symbol).map fun entry => entry.filter (· != t.useDefault)

/-- The rule that `state` reduces by when it has no explicit action. -/
def defaultRule (t : ParseTable) (state : Nat) : Except Overrun Int :=
  match t.actionDefault[state]? with
  | some rule => .ok rule
  | none => .error .fallback

/-- The code entered after a reduction to `nonterminal` when the state has no entry of its own. -/
def defaultGoto (t : ParseTable) (nonterminal : Nat) : Except Overrun Int :=
  match t.gotoDefault[nonterminal]? with
  | some code => .ok code
  | none => .error .fallback

/-- An entry, or else the fallback.  Every row has a fallback, so a row without one is refused even
    where an entry would take its place. -/
def orFallback (entry : Except Overrun (Option Int)) (fallback : Except Overrun Int) :
    Except Overrun Int :=
  match entry, fallback with
  | .error e, _ => .error e
  | .ok _, .error e => .error e
  | .ok found, .ok code => .ok (found.getD code)

/-- The action of `state` on `symbol`, its default being folded in as a reduction. -/
def action (t : ParseTable) (state : Nat) (symbol : Int) : Except Overrun Int :=
  orFallback (t.explicitAction state symbol) ((t.defaultRule state).map (- ·))

/-- The code entered after a reduction to `nonterminal` that uncovers the state of a column. -/
def gotoAt (t : ParseTable) (nonterminal : Nat) (column : Int) : Except Overrun Int :=
  orFallback (t.gotos.read nonterminal column nonterminal) (t.defaultGoto nonterminal)

/-- The code entered after a reduction to `nonterminal` that uncovers `state`.  States are
    32-bit columns: of a larger number the low 32 bits count, read as a signed number. -/
def goto (t : ParseTable) (nonterminal state : Nat) : Except Overrun Int :=
  t.gotoAt nonterminal (Int.bmod state 0x100000000)

end ParseTable

end Lalr
