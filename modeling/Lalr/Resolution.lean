/-
  From declarations to a grammar, or to the first defect.

  The checks run in this order:

    1. there are rules;
    2. no two terminals have one raw code;
    3. rule by rule, the left side is neither reserved, nor a terminal, nor a character literal;
    4. the start symbol is a left side;
    5. rule by rule, each symbol of the right side is not reserved and is defined, and what lends
       the rule its precedence is a terminal.

  A defect names the rule (counted from 1) and the symbol at fault; `Defect.message` is its text.
  Names stand in the text as they were declared.

  Levels of precedence are counted from 1, in 16 bits: the count starts over after 65535 levels.  A
  terminal of a level that is counted as 0 does not bind.
-/
import Lalr.Grammar
import Lalr.Vocabulary

namespace Lalr

/-! ## What can be wrong -/

/-- The reason why declarations are no grammar. -/
inductive Defect where
  | noRules
  | undefinedStart (name : String)
  | undefinedSymbol (rule : Nat) (name : String)
  | terminalOnLeft (rule : Nat) (name : String)
  | reservedSymbol (rule : Nat) (name : String)
  | undefinedPrecedence (rule : Nat) (name : String)
  | duplicateCode (first second : String) (code : Nat)
  deriving DecidableEq, Repr

/-- The text that tells a user what is wrong. -/
def Defect.message : Defect → String
  | noRules => "grammar has no rules"
  | undefinedStart name => s!"start symbol `{name}` has no rules"
  | undefinedSymbol rule name => s!"rule {rule}: undefined symbol `{name}`"
  | terminalOnLeft rule name => s!"rule {rule}: token `{name}` used as left-hand side"
  | reservedSymbol rule name => s!"rule {rule}: `{name}` is reserved"
  | undefinedPrecedence rule name => s!"rule {rule}: %prec `{name}` is not a token"
  | duplicateCode first second code => s!"tokens `{first}` and `{second}` share the code {code}"

/-! ## Symbols -/

/-- The binding that the level at index `i` gives. -/
def LevelDecl.binding (l : LevelDecl) (i : Nat) : Option Binding :=
  let level := (i + 1) % 65536
  if level = 0 then none else some ⟨level, l.assoc⟩

namespace Declarations

/-- How a terminal binds: the last level that lists its name counts. -/
def bindingOf (d : Declarations) (name : String) : Option Binding :=
  d.levels.zipIdx.foldl
    (fun found (l, i) => if l.names.contains name then l.binding i else found) none

/-- The terminal of a name and code.  A terminal that shares its name with the added start symbol
    cannot be named, and so does not bind. -/
def terminal (d : Declarations) (name : String) (code : Nat) : Terminal :=
  { name, code, binding := if name == startName then none else d.bindingOf name }

/-- The symbols, given what the terminals are called and coded. -/
def alphabet (d : Declarations) (terminals : List (String × Nat)) : Alphabet where
  terminals := (terminals.map fun (name, code) => d.terminal name code).toArray
  nonterminals := (startName :: d.leftSides).toArray

/-- The name of the start symbol: the chosen one, else the first left side. -/
def startSymbol (d : Declarations) : String :=
  d.start.getD ((d.rules[0]?.map (·.lhs)).getD "")

/-- What is wrong with the left side of a rule, if anything. -/
def leftDefect? (terminals : List Candidate) (number : Nat) (r : RuleDecl) : Option Defect :=
  if isReservedName r.lhs then some (.reservedSymbol number r.lhs)
  else if Vocabulary.has terminals r.lhs || (literalChar? r.lhs).isSome then
    some (.terminalOnLeft number r.lhs)
  else none

end Declarations

/-! ## Rules -/

namespace Alphabet

/-- The symbol that a name on a right side means. -/
def resolveName (α : Alphabet) (number : Nat) (name : String) : Except Defect Symbol :=
  if isReservedName name then .error (.reservedSymbol number name)
  else
    match α.symbol? name with
    | some x => .ok x
    | none => .error (.undefinedSymbol number name)

/-- The level of the last terminal that has one. -/
def lastLevel? (α : Alphabet) (rhs : List Symbol) : Option Nat :=
  rhs.reverse.findSome? fun
    | .terminal t => (α.binding t).map (·.level)
    | .nonterminal _ => none

/-- The level of a rule: that of the token named for it, else that of its last terminal
    with one. -/
def ruleLevel (α : Alphabet) (number : Nat) (levelOf : Option String) (rhs : List Symbol) :
    Except Defect (Option Nat) :=
  match levelOf with
  | none => .ok (α.lastLevel? rhs)
  | some name =>
    match α.terminal? name with
    | some t => .ok ((α.binding t).map (·.level))
    | none => .error (.undefinedPrecedence number name)

/-- The number of a left side; `$start` stands in for a name that is none. -/
def lhs (α : Alphabet) (name : String) : Nat :=
  match α.symbol? name with
  | some (.nonterminal a) => a
  | _ => 0

/-- Replaces the names in a rule by symbols. -/
def resolveRule (α : Alphabet) (number : Nat) (r : RuleDecl) : Except Defect Rule := do
  let rhs ← r.rhs.mapM (α.resolveName number)
  let level ← α.ruleLevel number r.levelOf rhs
  return { lhs := α.lhs r.lhs, rhs, level, action := r.action }

/-- The rule `$start : start $end`. -/
def startRule (α : Alphabet) (start : String) : Rule :=
  { lhs := 0, rhs := [.nonterminal (α.lhs start), .terminal 0] }

end Alphabet

/-! ## The grammar -/

/-- The grammar that the declarations describe. -/
def Declarations.resolve (d : Declarations) : Except Defect Grammar := do
  if d.rules.isEmpty then throw .noRules
  let terminals := d.candidates.map Vocabulary.withLiteralCode
  if let some (first, second, code) := Vocabulary.clash? [] terminals then
    throw (.duplicateCode first second code)
  let taken := terminals.filterMap (·.code)
  let numbered := d.rules.zipIdx 1
  -- every left side is checked before any right side is read
  if let some defect := numbered.findSome? fun (r, number) =>
      Declarations.leftDefect? terminals number r then
    throw defect
  unless d.leftSides.contains d.startSymbol do throw (.undefinedStart d.startSymbol)
  let alphabet := d.alphabet (Vocabulary.assign taken firstFreeCode terminals)
  let rules ← numbered.mapM fun (r, number) => alphabet.resolveRule number r
  return { alphabet, rules := #[alphabet.startRule d.startSymbol] ++ rules }

end Lalr
