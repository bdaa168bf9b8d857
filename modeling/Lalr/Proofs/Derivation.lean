/-
  What a grammar derives.

  `Derives` is the textbook relation: rewriting one nonterminal after the other by its rules.  Two
  questions about a string of symbols decide the lookaheads of the automaton:

    * can it derive the empty string?              `Vanishes`
    * which terminals can a string derived from it begin with?   `Begins`

  Both are given by rules of their own, which follow the string from the left;
  `vanishes_iff_derives` and `begins_iff_derives` say that they mean what they should.
-/
import Mathlib
import Lalr.Grammar

namespace Lalr

namespace Grammar

variable {g : Grammar}

/-! ## Rewriting

  Any nonterminal of a string may be rewritten, so derivations of parts can be put side by side
  in any order. -/

/-- One nonterminal of the string is replaced by the right side of one of its rules. -/
inductive Rewrites (g : Grammar) : List Symbol → List Symbol → Prop
  | rule (u v : List Symbol) {r : Nat} (hr : r < g.rules.size) :
      Rewrites g (u ++ .nonterminal (g.rule r).lhs :: v) (u ++ ((g.rule r).rhs ++ v))

/-- Rewriting any number of times. -/
def Derives (g : Grammar) : List Symbol → List Symbol → Prop :=
  Relation.ReflTransGen g.Rewrites

/-- A rule is applied inside a string. -/
theorem Rewrites.around {α β : List Symbol} (h : g.Rewrites α β) (u v : List Symbol) :
    g.Rewrites (u ++ (α ++ v)) (u ++ (β ++ v)) := by
  cases h with
  | rule u' v' hr =>
    have h := Rewrites.rule (g := g) (u ++ u') (v' ++ v) hr
    simpa only [List.append_assoc, List.cons_append] using h

/-- So are many rules, one after the other. -/
theorem Derives.around {α β : List Symbol} (h : g.Derives α β) (u v : List Symbol) :
    g.Derives (u ++ (α ++ v)) (u ++ (β ++ v)) := by
  induction h with
  | refl => exact .refl
  | tail _ hstep ih => exact ih.tail (hstep.around u v)

/-- What stands side by side derives side by side. -/
theorem Derives.append {α α' β β' : List Symbol} (hα : g.Derives α α') (hβ : g.Derives β β') :
    g.Derives (α ++ β) (α' ++ β') := by
  have h1 : g.Derives (α ++ β) (α' ++ β) := by simpa using hα.around [] β
  have h2 : g.Derives (α' ++ β) (α' ++ β') := by simpa using hβ.around α' []
  exact h1.trans h2

/-- A nonterminal derives what the right side of one of its rules derives. -/
theorem derives_of_rule {r : Nat} {β : List Symbol} (hr : r < g.rules.size)
    (h : g.Derives (g.rule r).rhs β) : g.Derives [.nonterminal (g.rule r).lhs] β := by
  have hstep := Rewrites.rule (g := g) [] [] hr
  simp only [List.nil_append, List.append_nil] at hstep
  exact h.head hstep

/-! ## Vanishing

  A string vanishes symbol by symbol.  Against the order of rewriting this is shown backwards:
  what is rewritten to a string that vanishes, vanishes. -/

/-- Every symbol of the string is a nonterminal with a rule whose right side vanishes. -/
inductive Vanishes (g : Grammar) : List Symbol → Prop
  | nil : Vanishes g []
  | cons {r : Nat} {rest : List Symbol} (hr : r < g.rules.size) (head : Vanishes g (g.rule r).rhs)
      (tail : Vanishes g rest) : Vanishes g (.nonterminal (g.rule r).lhs :: rest)

/-- Strings that vanish do so side by side. -/
theorem Vanishes.append {α β : List Symbol} (hα : g.Vanishes α) (hβ : g.Vanishes β) :
    g.Vanishes (α ++ β) := by
  induction hα with
  | nil => exact hβ
  | cons hr head _ _ ih => exact .cons hr head ih

/-- The parts of a string that vanishes vanish. -/
theorem Vanishes.of_append {α β : List Symbol} (h : g.Vanishes (α ++ β)) :
    g.Vanishes α ∧ g.Vanishes β := by
  induction α with
  | nil => exact ⟨.nil, h⟩
  | cons x α ih =>
    cases h with
    | cons hr head tail =>
      obtain ⟨hα, hβ⟩ := ih tail
      exact ⟨.cons hr head hα, hβ⟩

/-- Rewriting backwards keeps a string that vanishes. -/
theorem Rewrites.vanishes {α β : List Symbol} (h : g.Rewrites α β) (hβ : g.Vanishes β) :
    g.Vanishes α := by
  cases h with
  | rule u v hr =>
    obtain ⟨hu, hrest⟩ := hβ.of_append
    obtain ⟨hrhs, hv⟩ := hrest.of_append
    exact hu.append (.cons hr hrhs hv)

/-- A string vanishes exactly if it derives the empty one. -/
theorem vanishes_iff_derives {α : List Symbol} : g.Vanishes α ↔ g.Derives α [] := by
  constructor
  · intro h
    induction h with
    | nil => exact .refl
    | cons hr _ _ ihead itail => exact (derives_of_rule hr ihead).append itail
  · intro h
    induction h using Relation.ReflTransGen.head_induction_on with
    | refl => exact .nil
    | head hstep _ ih => exact hstep.vanishes ih

/-! ## Beginning with a terminal

  The first terminal is found by going down from the left, past symbols that vanish.  Again the
  relation is kept by rewriting backwards. -/

/-- A string derived from this one begins with terminal `t`. -/
inductive Begins (g : Grammar) (t : Nat) : List Symbol → Prop
  | terminal {rest : List Symbol} : Begins g t (.terminal t :: rest)
  | rule {r : Nat} {rest : List Symbol} (hr : r < g.rules.size) (head : Begins g t (g.rule r).rhs) :
      Begins g t (.nonterminal (g.rule r).lhs :: rest)
  | skip {a : Nat} {rest : List Symbol} (head : g.Vanishes [.nonterminal a])
      (tail : Begins g t rest) : Begins g t (.nonterminal a :: rest)

/-- What stands further on does not change the beginning. -/
theorem Begins.append_right {t : Nat} {α : List Symbol} (h : g.Begins t α) (β : List Symbol) :
    g.Begins t (α ++ β) := by
  induction h with
  | terminal => exact .terminal
  | rule hr head _ => exact .rule hr head
  | skip head _ ih => exact .skip head ih

/-- Behind a string that vanishes the beginning is that of the rest. -/
theorem Begins.append_left {t : Nat} {α β : List Symbol} (hα : g.Vanishes α)
    (h : g.Begins t β) : g.Begins t (α ++ β) := by
  induction hα with
  | nil => exact h
  | cons hr head _ _ ih => exact .skip (.cons hr head .nil) ih

/-- A string begins with `t` in its first part, or its first part vanishes. -/
theorem begins_append {t : Nat} {α β : List Symbol} :
    g.Begins t (α ++ β) ↔ g.Begins t α ∨ (g.Vanishes α ∧ g.Begins t β) := by
  constructor
  · intro h
    induction α with
    | nil => exact Or.inr ⟨.nil, h⟩
    | cons x α ih =>
      cases h with
      | terminal => exact Or.inl .terminal
      | rule hr head => exact Or.inl (.rule hr head)
      | skip head tail =>
        rcases ih tail with hα | ⟨hα, hβ⟩
        · exact Or.inl (.skip head hα)
        · exact Or.inr ⟨head.append hα, hβ⟩
  · rintro (hα | ⟨hα, hβ⟩)
    · exact hα.append_right β
    · exact hβ.append_left hα

/-- Rewriting towards a string that begins with `t` starts from one that does. -/
theorem Rewrites.begins {t : Nat} {α β : List Symbol} (h : g.Rewrites α β) (hβ : g.Begins t β) :
    g.Begins t α := by
  cases h with
  | rule u v hr =>
    rcases begins_append.mp hβ with hu | ⟨hu, hrest⟩
    · exact hu.append_right _
    · refine Begins.append_left hu ?_
      rcases begins_append.mp hrest with hrhs | ⟨hrhs, hv⟩
      · exact .rule hr hrhs
      · exact .skip (.cons hr hrhs .nil) hv

/-- The terminals that begin a string are those that a string derived from it begins with. -/
theorem begins_iff_derives {t : Nat} {α : List Symbol} :
    g.Begins t α ↔ ∃ rest, g.Derives α (.terminal t :: rest) := by
  constructor
  · intro h
    induction h with
    | @terminal rest => exact ⟨rest, .refl⟩
    | @rule r rest hr head ih =>
      obtain ⟨rest', hd⟩ := ih
      exact ⟨rest' ++ rest, (derives_of_rule hr hd).append .refl⟩
    | @skip a rest head _ ih =>
      obtain ⟨rest', hd⟩ := ih
      exact ⟨rest', (vanishes_iff_derives.mp head).append hd⟩
  · rintro ⟨rest, h⟩
    induction h using Relation.ReflTransGen.head_induction_on with
    | refl => exact .terminal
    | head hstep _ ih => exact hstep.begins ih

end Grammar

end Lalr
