/-
  Character literals: symbol names such as `'+'` or `'\n'` that stand for one character.

  A literal is a quote, one character, a quote.  The character may be written with a backslash:
  `\n`, `\t`, `\r`, `\0`, `\\` and `\'`; a backslash starts nothing else.  Between its quotes a
  quote needs no backslash.
-/

namespace Lalr

/-- The character that a backslash and this letter stand for. -/
def escaped? : Char → Option Char
  | 'n' => some '\n'
  | 't' => some '\t'
  | 'r' => some '\r'
  | '0' => some '\x00'
  | '\\' => some '\\'
  | '\'' => some '\''
  | _ => none

/-- The one character that is written between the quotes. -/
def quotedChar? : List Char → Option Char
  | [c] => if c = '\\' then none else some c
  | ['\\', c] => escaped? c
  | _ => none

/-- What stands between an opening and a closing quote. -/
def unquoted? : List Char → Option (List Char)
  | '\'' :: rest => if rest.getLast? = some '\'' then some rest.dropLast else none
  | _ => none

/-- The character that a symbol name is a literal of, if it is one. -/
def literalChar? (name : String) : Option Char :=
  (unquoted? name.toList).bind quotedChar?

end Lalr
