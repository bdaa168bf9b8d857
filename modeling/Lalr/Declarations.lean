/-
  A grammar as it is declared: tokens, precedence levels, a start symbol and rules, all by name.

  Nothing is checked here.  Declarations are collected in order, and a later module
  (`Lalr.Resolution`) says what they mean or what is wrong with them.
-/

namespace Lalr

/-! ## Names with a fixed meaning -/

/-- The name of the end of input. -/
def endName : String := "$end"

/-- The name of the start symbol that the augmentation adds. -/
def startName : String := "$start"

/-- The name of the terminal for error recovery. -/
def errorName : String := "error"

/-- Names that no rule may use. -/
def isReservedName (name : String) : Bool :=
  name == endName || name == startName

/-! ## Declarations -/

/-- How operators of one precedence level group. -/
inductive Associativity where
  | left
  | right
  | nonassoc
  deriving DecidableEq, Repr

/-- A token, with the raw code its lexer reports if the declaration fixes one. -/
structure TokenDecl where
  name : String
  code : Option Nat
  deriving DecidableEq, Repr

/-- One precedence level; it binds tighter than all levels before it. -/
structure LevelDecl where
  assoc : Associativity
  names : List String
  deriving DecidableEq, Repr

/-- A rule by name, with the text to run when it is reduced and the token that lends it its
    precedence. -/
structure RuleDecl where
  lhs : String
  rhs : List String
  action : Option String := none
  levelOf : Option String := none
  deriving DecidableEq, Repr

/-- Everything that has been declared, each kind in order. -/
structure Declarations where
  tokens : Array TokenDecl := #[]
  levels : Array LevelDecl := #[]
  start : Option String := none
  rules : Array RuleDecl := #[]
  deriving DecidableEq, Repr

namespace Declarations

/-- Declares a token whose code is left open. -/
def token (d : Declarations) (name : String) : Declarations :=
  { d with tokens := d.tokens.push ⟨name, none⟩ }

/-- Declares a token with its raw code. -/
def tokenWithCode (d : Declarations) (name : String) (code : Nat) : Declarations :=
  { d with tokens := d.tokens.push ⟨name, some code⟩ }

/-- Declares the next precedence level. -/
def level (d : Declarations) (assoc : Associativity) (names : List String) : Declarations :=
  { d with levels := d.levels.push ⟨assoc, names⟩ }

/-- Chooses the start symbol; the last choice counts. -/
def startAt (d : Declarations) (name : String) : Declarations :=
  { d with start := some name }

/-- Declares a rule. -/
def rule (d : Declarations) (r : RuleDecl) : Declarations :=
  { d with rules := d.rules.push r }

/-- Declares the same rule `n` times. -/
def ruleTimes (d : Declarations) (n : Nat) (r : RuleDecl) : Declarations :=
  { d with rules := d.rules ++ Array.replicate n r }

end Declarations

end Lalr
