/-
  Marks on nonterminals from which an empty rule is reached through leading symbols.

  A nonterminal is marked if one of its rules is empty or begins with a marked nonterminal.  That is
  weaker than being able to vanish: only the FIRST symbol of a rule counts.  The closure of an item
  set asks for this mark where it looks for empty rules.
-/
import Lalr.SymbolSet
import Lalr.Grammar

namespace Lalr

/-- The marks, by nonterminal. -/
structure LeadingEmpty where
  marks : Array Bool
  deriving DecidableEq, Repr

namespace LeadingEmpty

/-- Is nonterminal `a` marked? -/
def isMarked (e : LeadingEmpty) (a : Nat) : Bool :=
  e.marks.getD a false

/-- Is the right side empty, or does it begin with a marked nonterminal? -/
def leads (e : LeadingEmpty) : List Symbol → Bool
  | [] => true
  | .terminal _ :: _ => false
  | .nonterminal a :: _ => e.isMarked a

/-- Marks the left side of a rule if its right side calls for it. -/
def readRule (acc : LeadingEmpty × Bool) (r : Rule) : LeadingEmpty × Bool :=
  if acc.1.leads r.rhs && !acc.1.isMarked r.lhs then
    (⟨acc.1.marks.setIfInBounds r.lhs true⟩, true)
  else acc

/-- Reads every rule once; also says whether that marked anything. -/
def pass (g : Grammar) (e : LeadingEmpty) : LeadingEmpty × Bool :=
  g.rules.foldl readRule (e, false)

/-- The marks of a grammar.  Every pass but the last marks a nonterminal. -/
def ofGrammar (g : Grammar) : LeadingEmpty :=
  untilStable (pass g) (g.nonterminalCount + 1) ⟨Array.replicate g.nonterminalCount false⟩

end LeadingEmpty

end Lalr
