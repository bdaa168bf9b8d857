/-
  What can stand first, and what can vanish.

  For every nonterminal `a`, two facts about what it derives:

    * `nullable a`   it derives the empty string;
    * `first a`      the terminals that a string derived from it can begin with.

  `Firsts.pass` reads every rule once.  The symbols of its right side are taken from the left: each
  adds what it can begin with to the left side, and the reading goes on only past a symbol that can
  vanish.  Passes are repeated until one adds nothing.  There are `n` symbols, so at most `n * n`
  members and `n` marks can be added.
-/
import Lalr.Grammar
import Lalr.SymbolSet

namespace Lalr

/-- What each nonterminal can begin with, and whether it can vanish. -/
structure Firsts where
  nullable : Array Bool
  first : Array SymbolSet
  deriving DecidableEq, Repr

namespace Firsts

/-- Nothing begins with anything, and nothing vanishes. -/
def empty (nonterminals : Nat) : Firsts where
  nullable := Array.replicate nonterminals false
  first := Array.replicate nonterminals ∅

/-- Can nonterminal `a` vanish? -/
def isNullable (f : Firsts) (a : Nat) : Bool :=
  f.nullable.getD a false

/-- What nonterminal `a` can begin with. -/
def firstOf (f : Firsts) (a : Nat) : SymbolSet :=
  f.first.getD a ∅

/-- Adds to nonterminal `a` what a string of symbols can begin with.  Also says whether that added
    anything to `grew`, and whether all the symbols can vanish. -/
def absorb (a : Nat) : List Symbol → Firsts → Bool → Firsts × Bool × Bool
  | [], f, grew => (f, grew, true)
  | .terminal t :: _, f, grew =>
    let (first, added) := SymbolSet.insertAt f.first a t
    ({ f with first }, grew || added, false)
  | .nonterminal b :: rest, f, grew =>
    let (first, added) := SymbolSet.absorbAt f.first a b
    let f := { f with first }
    if f.isNullable b then absorb a rest f (grew || added) else (f, grew || added, false)

/-- Reads one rule. -/
def readRule (acc : Firsts × Bool) (r : Rule) : Firsts × Bool :=
  match absorb r.lhs r.rhs acc.1 acc.2 with
  | (f, grew, false) => (f, grew)
  | (f, grew, true) =>
    if f.isNullable r.lhs then (f, grew)
    else ({ f with nullable := f.nullable.setIfInBounds r.lhs true }, true)

/-- Reads every rule once; also says whether any of them added something. -/
def pass (g : Grammar) (f : Firsts) : Firsts × Bool :=
  g.rules.foldl readRule (f, false)

/-- What the nonterminals of a grammar can begin with. -/
def ofGrammar (g : Grammar) : Firsts :=
  let n := g.alphabet.size
  untilStable (pass g) (n * n + n + 1) (empty g.nonterminalCount)

/-- Adds to a set what a string of symbols can begin with; also says whether all of them can
    vanish. -/
def ofSymbols (f : Firsts) : List Symbol → SymbolSet → SymbolSet × Bool
  | [], acc => (acc, true)
  | .terminal t :: _, acc => ((acc.insert t).1, false)
  | .nonterminal a :: rest, acc =>
    let acc := (acc.union (f.firstOf a)).1
    if f.isNullable a then ofSymbols f rest acc else (acc, false)

end Firsts

end Lalr
