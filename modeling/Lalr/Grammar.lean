/-
  A grammar whose symbols are numbers.

    1. Terminals and nonterminals are counted apart, each from 0.  Terminal 0 is `$end`;
       nonterminal 0 is `$start`, the start symbol that the augmentation adds.
    2. Rule 0 is `$start : start $end`; the declared rules follow from 1 on.
    3. Where symbols share one range of codes (the tables do that), terminals come first:
       see `Alphabet.code`.

  `Grammar.alternatives` lists the rules of each nonterminal in order, and `Grammar.tails` what
  follows each place of a rule.  They are kept beside the rules because the closure of an item set
  asks for them again and again; `alternatives_eq` and `tails_eq` tie them to the rules.
-/
import Lalr.Declarations

namespace Lalr

/-- A symbol of a grammar, by its number among its kind. -/
inductive Symbol where
  | terminal (t : Nat)
  | nonterminal (a : Nat)
  deriving DecidableEq, Repr, Inhabited

/-- A place in the order of precedence: the higher level binds tighter, and operators of one
    level group as `assoc` says. -/
structure Binding where
  level : Nat
  assoc : Associativity
  deriving DecidableEq, Repr

/-- A terminal: its name, the raw code by which a lexer reports it, and how it binds. -/
structure Terminal where
  name : String
  code : Nat
  binding : Option Binding := none
  deriving DecidableEq, Repr

/-! ## Names and numbers -/

/-- The symbols of a grammar. -/
structure Alphabet where
  terminals : Array Terminal
  nonterminals : Array String
  deriving DecidableEq, Repr

namespace Alphabet

/-- The symbol of that name.  A name of both kinds is a nonterminal's. -/
def symbol? (α : Alphabet) (name : String) : Option Symbol :=
  match α.nonterminals.findIdx? (· == name) with
  | some a => some (.nonterminal a)
  | none => (α.terminals.findIdx? (·.name == name)).map .terminal

/-- The terminal of that name, if the name is a terminal's. -/
def terminal? (α : Alphabet) (name : String) : Option Nat :=
  match α.symbol? name with
  | some (.terminal t) => some t
  | _ => none

/-- The name of terminal `t`. -/
def terminalName (α : Alphabet) (t : Nat) : String :=
  (α.terminals[t]?.map (·.name)).getD ""

/-- The name of nonterminal `a`. -/
def nonterminalName (α : Alphabet) (a : Nat) : String :=
  α.nonterminals.getD a ""

/-- The name of a symbol. -/
def name (α : Alphabet) : Symbol → String
  | .terminal t => α.terminalName t
  | .nonterminal a => α.nonterminalName a

/-- How terminal `t` binds. -/
def binding (α : Alphabet) (t : Nat) : Option Binding :=
  α.terminals[t]?.bind (·.binding)

/-- The code of a symbol where both kinds share one range. -/
def code (α : Alphabet) : Symbol → Nat
  | .terminal t => t
  | .nonterminal a => α.terminals.size + a

/-- How many symbols there are. -/
def size (α : Alphabet) : Nat :=
  α.terminals.size + α.nonterminals.size

end Alphabet

/-! ## Rules -/

/-- A rule: nonterminal `lhs` may be replaced by `rhs`.  `level` is its precedence. -/
structure Rule where
  lhs : Nat
  rhs : List Symbol
  level : Option Nat := none
  action : Option String := none
  deriving DecidableEq, Repr, Inhabited

/-- The numbers of the rules of each nonterminal below `n`, in order. -/
def Rule.groupByLhs (n : Nat) (rules : Array Rule) : Array (List Nat) :=
  (Array.range n).map fun a =>
    (List.range rules.size).filter fun r => (rules[r]?.map (·.lhs)) == some a

/-- The tails of a list, from the list itself to the empty one. -/
def tailsOf {α : Type} : List α → List (List α)
  | [] => [[]]
  | x :: xs => (x :: xs) :: tailsOf xs

/-- By rule and place: the symbols of the right side from there on. -/
def Rule.allTails (rules : Array Rule) : Array (Array (List Symbol)) :=
  rules.map fun r => (tailsOf r.rhs).toArray

/-- An augmented grammar. -/
structure Grammar where
  alphabet : Alphabet
  rules : Array Rule
  alternatives : Array (List Nat) := Rule.groupByLhs alphabet.nonterminals.size rules
  tails : Array (Array (List Symbol)) := Rule.allTails rules
  alternatives_eq : alternatives = Rule.groupByLhs alphabet.nonterminals.size rules := by rfl
  tails_eq : tails = Rule.allTails rules := by rfl

namespace Grammar

/-- Rule `r`; a number past the end gives a rule of `$start` without symbols. -/
def rule (g : Grammar) (r : Nat) : Rule :=
  g.rules.getD r default

theorem getD_tailsOf {α : Type} (l : List α) (i : Nat) :
    (tailsOf l).toArray.getD i [] = l.drop i := by
  rw [Array.getD_eq_getD_getElem?, List.getElem?_toArray]
  induction l generalizing i with
  | nil => cases i <;> simp [tailsOf]
  | cons x xs ih =>
    cases i with
    | zero => rfl
    | succ i => exact ih i

theorem length_tailsOf {α : Type} (l : List α) : (tailsOf l).length = l.length + 1 := by
  induction l with
  | nil => rfl
  | cons x xs ih => exact congrArg (· + 1) ih

/-- What is kept for a place of a rule is what follows there. -/
theorem getD_tails (g : Grammar) (r i : Nat) :
    (g.tails.getD r #[]).getD i [] = (g.rule r).rhs.drop i := by
  have hrule : g.rule r = g.rules[r]?.getD default := Array.getD_eq_getD_getElem? ..
  have htails : g.tails.getD r #[] =
    (g.rules[r]?.map fun r => (tailsOf r.rhs).toArray).getD #[] := by
    rw [g.tails_eq, Rule.allTails, Array.getD_eq_getD_getElem?, Array.getElem?_map]
  rw [hrule, htails]
  cases g.rules[r]? with
  | none => exact List.drop_nil.symm
  | some rule => exact getD_tailsOf rule.rhs i

/-- How many terminals there are; the number is also the symbol of an unknown token. -/
def terminalCount (g : Grammar) : Nat :=
  g.alphabet.terminals.size

/-- How many nonterminals there are, `$start` included. -/
def nonterminalCount (g : Grammar) : Nat :=
  g.alphabet.nonterminals.size

/-- The rules of nonterminal `a`, in order. -/
def rulesOf (g : Grammar) (a : Nat) : List Nat :=
  g.alternatives.getD a []

/-- A rule as text: its left side, a colon, and its symbols or a note that there are none. -/
def ruleText (g : Grammar) (r : Nat) : String :=
  let rule := g.rule r
  let head := g.alphabet.nonterminalName rule.lhs ++ " :"
  if rule.rhs.isEmpty then head ++ " /* empty */"
  else rule.rhs.foldl (fun text x => text ++ " " ++ g.alphabet.name x) head

end Grammar

end Lalr
