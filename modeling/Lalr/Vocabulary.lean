/-
  The terminals of declared grammars, and their raw codes.

    1. `$end` comes first and has code 0; then `error`, with code 256, if the grammar mentions it.
    2. Declared tokens follow in order.  Of several codes for one token the last counts, and
       a declaration may give `$end` another code; `error` keeps its own.
    3. Then the names in precedence levels that are no left side, then the character literals in
       the rules (right side, then the token that lends the precedence).
    4. A literal without a code has its character's code point.  Two terminals with one code are
       a clash.
    5. What has no code yet gets the least code from 257 on that is neither known nor given before.
-/
import Lalr.Declarations
import Lalr.CharLiteral

namespace Lalr

/-- The raw code of the terminal for error recovery. -/
def errorCode : Nat := 256

/-- The least raw code that is given to a terminal without one. -/
def firstFreeCode : Nat := 257

/-- A terminal on its way to a raw code. -/
structure Candidate where
  name : String
  code : Option Nat
  deriving DecidableEq, Repr

/-! ## Collecting the terminals -/

namespace Vocabulary

/-- Is the name among the candidates? -/
def has (v : List Candidate) (name : String) : Bool :=
  v.any (·.name == name)

/-- Adds a name without a code, unless it is there. -/
def mention (v : List Candidate) (name : String) : List Candidate :=
  if has v name then v else v ++ [⟨name, none⟩]

/-- Adds a declared token, or gives a candidate that is there the declared code. -/
def declare (v : List Candidate) (decl : TokenDecl) : List Candidate :=
  if decl.name == errorName then v
  else if has v decl.name then
    v.map fun c => if c.name == decl.name then { c with code := decl.code.or c.code } else c
  else v ++ [⟨decl.name, decl.code⟩]

/-- Adds a name that a precedence level lists, unless it is a left side. -/
def rank (lefts : List String) (v : List Candidate) (name : String) : List Candidate :=
  if lefts.contains name then v else mention v name

/-- Adds a symbol of a rule if it is a character literal. -/
def quote (v : List Candidate) (name : String) : List Candidate :=
  if (literalChar? name).isSome then mention v name else v

end Vocabulary

/-- The names in a rule that may be terminals: its right side, then what lends it a precedence. -/
def RuleDecl.mentions (r : RuleDecl) : List String :=
  r.rhs ++ r.levelOf.toList

namespace Declarations

/-- Does any declaration mention the terminal for error recovery? -/
def mentionsError (d : Declarations) : Bool :=
  d.tokens.any (·.name == errorName)
    || d.levels.any (·.names.contains errorName)
    || d.rules.any (·.mentions.contains errorName)

/-- The left sides of the rules, each once, in the order in which they first appear. -/
def leftSides (d : Declarations) : List String :=
  d.rules.foldl (fun names r => if names.contains r.lhs then names else names ++ [r.lhs]) []

/-- The terminals that are there before any declaration. -/
def builtIn (d : Declarations) : List Candidate :=
  ⟨endName, some 0⟩ :: if d.mentionsError then [⟨errorName, some errorCode⟩] else []

/-- All terminals in order, with the codes that declarations fix. -/
def candidates (d : Declarations) : List Candidate :=
  let lefts := d.leftSides
  let declared := d.tokens.foldl Vocabulary.declare d.builtIn
  let ranked := d.levels.foldl (fun v l => l.names.foldl (Vocabulary.rank lefts) v) declared
  d.rules.foldl (fun v r => r.mentions.foldl Vocabulary.quote v) ranked

end Declarations

/-! ## Raw codes -/

namespace Vocabulary

/-- Gives a character literal without a code its code point. -/
def withLiteralCode (c : Candidate) : Candidate :=
  { c with code := c.code.or ((literalChar? c.name).map Char.toNat) }

/-- The first candidate whose code an earlier one has: the earlier name, its own, the code. -/
def clash? : List (Nat × String) → List Candidate → Option (String × String × Nat)
  | _, [] => none
  | seen, c :: rest =>
    match c.code with
    | none => clash? seen rest
    | some code =>
      match seen.lookup code with
      | some first => some (first, c.name, code)
      | none => clash? ((code, c.name) :: seen) rest

/-- The least number from `code` on that is not taken; as many steps as there are taken numbers
    are enough to find it. -/
def leastFree (taken : List Nat) : Nat → Nat → Nat
  | 0, code => code
  | steps + 1, code => if taken.contains code then leastFree taken steps (code + 1) else code

/-- Gives every candidate a code; those without one get the free codes from `next` on. -/
def assign (taken : List Nat) : Nat → List Candidate → List (String × Nat)
  | _, [] => []
  | next, c :: rest =>
    match c.code with
    | some code => (c.name, code) :: assign taken next rest
    | none =>
      let code := leastFree taken taken.length next
      (c.name, code) :: assign taken (code + 1) rest

end Vocabulary

end Lalr
