/-
  Items: rules with a dot.

  A core is a rule and the number of its symbols before the dot.  An item of a state has, besides
  its core,

    * `origin`  the nonterminal whose rules the closure brought in, `none` for a kernel item;
    * `slot`    its place in the state's table of lookaheads.

  Cores are ordered by rule, then by dot; a sorted list of cores is a key that tells kernels apart.

  The place of the dot is kept in 16 bits.  In a rule with fewer than 65536 symbols on its right
  side, a short one, it gets to every place; in a longer one it starts over behind symbol number
  65536.
-/
import Lalr.Grammar

namespace Lalr

/-- A rule with a dot after its first `dot` symbols. -/
structure Core where
  rule : Nat
  dot : Nat
  deriving DecidableEq, Repr, Inhabited

namespace Core

/-- The order of cores: by rule, then by dot. -/
def le (c d : Core) : Bool :=
  c.rule < d.rule || (c.rule == d.rule && c.dot ≤ d.dot)

/-- The symbols after the dot. -/
def afterDot (g : Grammar) (c : Core) : List Symbol :=
  (g.tails.getD c.rule #[]).getD c.dot []

theorem afterDot_eq (g : Grammar) (c : Core) :
    c.afterDot g = (g.rule c.rule).rhs.drop c.dot :=
  g.getD_tails c.rule c.dot

/-- The symbol after the dot. -/
def next? (g : Grammar) (c : Core) : Option Symbol :=
  (c.afterDot g).head?

/-- Does the dot stand at the end? -/
def isComplete (g : Grammar) (c : Core) : Bool :=
  (c.afterDot g).isEmpty

/-- The dot moved over one symbol, in 16 bits. -/
def advance (c : Core) : Core :=
  { c with dot := (c.dot + 1) % 65536 }

/-- Is the rule of the core short?  A right side has one tail more than it has symbols. -/
def isShort (g : Grammar) (c : Core) : Bool :=
  (g.tails.getD c.rule #[]).size ≤ 65536

end Core

/-- An item of a state. -/
structure Item where
  core : Core
  origin : Option Nat
  slot : Nat
  deriving DecidableEq, Repr, Inhabited

end Lalr
