/-
  The canonical items of a grammar.

  For a string `γ` of symbols, the start of some sentential form,

    * `ItemAt g γ c`           the core `c` is one of the LR(0) items at `γ`;
    * `LookaheadAt g γ c t`    it is one of the LR(1) items at `γ` with terminal `t`.

  Both say by rules what the items at a string are; no automaton is needed for that.  An automaton
  that has the right items is one whose states, along the strings that lead to them (`Leads`),
  hold the items at those strings.
-/
import Mathlib
import Lalr.Proofs.Derivation
import Lalr.Proofs.Closure

namespace Lalr

/-- The LR(0) items at a string of symbols. -/
inductive ItemAt (g : Grammar) : List Symbol → Core → Prop
  | start : ItemAt g [] ⟨0, 0⟩
  | closure {γ : List Symbol} {c : Core} {b r : Nat} (h : ItemAt g γ c)
      (hnext : c.next? g = some (.nonterminal b)) (hr : r < g.rules.size)
      (hlhs : (g.rule r).lhs = b) : ItemAt g γ ⟨r, 0⟩
  | advance {γ : List Symbol} {c : Core} {x : Symbol} (h : ItemAt g γ c)
      (hnext : c.next? g = some x) : ItemAt g (γ ++ [x]) c.succ

/-- The LR(1) items at a string of symbols: cores with a terminal that may follow the rule. -/
inductive LookaheadAt (g : Grammar) : List Symbol → Core → Nat → Prop
  | first {γ : List Symbol} {c : Core} {b r t : Nat} {beta : List Symbol} (h : ItemAt g γ c)
      (hafter : c.afterDot g = .nonterminal b :: beta) (hr : r < g.rules.size)
      (hlhs : (g.rule r).lhs = b) (ht : ∃ rest, g.Derives beta (.terminal t :: rest)) :
      LookaheadAt g γ ⟨r, 0⟩ t
  | inherit {γ : List Symbol} {c : Core} {b r t : Nat} {beta : List Symbol}
      (h : LookaheadAt g γ c t) (hafter : c.afterDot g = .nonterminal b :: beta)
      (hr : r < g.rules.size) (hlhs : (g.rule r).lhs = b) (hv : g.Derives beta []) :
      LookaheadAt g γ ⟨r, 0⟩ t
  | advance {γ : List Symbol} {c : Core} {x : Symbol} {t : Nat} (h : LookaheadAt g γ c t)
      (hnext : c.next? g = some x) : LookaheadAt g (γ ++ [x]) c.succ t

/-- A string of symbols leads along edges from state 0 to a state. -/
inductive Leads (edge : Nat → Symbol → Nat → Prop) : List Symbol → Nat → Prop
  | nil : Leads edge [] 0
  | snoc {γ : List Symbol} {p : Nat} {x : Symbol} {q : Nat} (h : Leads edge γ p)
      (hedge : edge p x q) : Leads edge (γ ++ [x]) q

theorem Leads.mono {edge edge' : Nat → Symbol → Nat → Prop}
    (himp : ∀ {p x q}, edge p x q → edge' p x q) {γ : List Symbol} {q : Nat}
    (h : Leads edge γ q) : Leads edge' γ q := by
  induction h with
  | nil => exact .nil
  | snoc _ hedge ih => exact .snoc ih (himp hedge)

/-- The closure of items at a string are items at it. -/
theorem InClosure.itemAt {g : Grammar} {K : Core → Prop} {γ : List Symbol}
    (hK : ∀ c, K c → ItemAt g γ c) {c : Core} (h : InClosure g K c) : ItemAt g γ c := by
  induction h with
  | kernel h => exact hK _ h
  | rule _ hnext hr hlhs ih => exact .closure ih hnext hr hlhs

end Lalr
