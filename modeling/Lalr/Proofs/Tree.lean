/-
  Derivation trees.

  A leaf is a terminal; a node names its rule and has one child for every symbol of the rule's right
  side.  `IsTree g x t` says that `t` is a tree of symbol `x`, and `IsForest g α ts` that `ts` are
  trees of the symbols of `α`, one each.  Of a tree one can read

    * its yield, the terminals at its leaves from left to right;
    * its postorder, the rules of its nodes, each after those of its children;
    * its visits, the leaves and the nodes together, in that order.

  A bottom-up parser meets the rules in postorder.  Read backwards, the postorder is a rightmost
  derivation of the yield (`IsTree.rightmost`), and it determines the tree
  (`IsTree.eq_of_postorder_eq`).
-/
import Mathlib
import Lalr.Proofs.Derivation

namespace Lalr

/-- A leaf or a node that is met on the way through a tree. -/
inductive Visit where
  | leaf (t : Nat)
  | node (r : Nat)
  deriving DecidableEq, Repr

namespace Visit

/-- The terminal of a leaf. -/
def leaf? : Visit → Option Nat
  | leaf t => some t
  | node _ => none

/-- The rule of a node. -/
def node? : Visit → Option Nat
  | leaf _ => none
  | node r => some r

end Visit

/-- A derivation tree: a terminal, or a rule with a tree for each symbol of its right side. -/
inductive ParseTree where
  | leaf (t : Nat)
  | node (r : Nat) (children : List ParseTree)

namespace ParseTree

mutual

/-- The terminals at the leaves of a tree, from left to right. -/
def yield : ParseTree → List Nat
  | leaf t => [t]
  | node _ children => yields children

/-- The terminals at the leaves of a forest. -/
def yields : List ParseTree → List Nat
  | [] => []
  | t :: ts => t.yield ++ yields ts

end

mutual

/-- The rules at the nodes of a tree, each after those of its children. -/
def postorder : ParseTree → List Nat
  | leaf _ => []
  | node r children => postorders children ++ [r]

/-- The rules at the nodes of a forest. -/
def postorders : List ParseTree → List Nat
  | [] => []
  | t :: ts => t.postorder ++ postorders ts

end

mutual

/-- The leaves and nodes of a tree, each node after its children. -/
def visits : ParseTree → List Visit
  | leaf t => [.leaf t]
  | node r children => visitsAll children ++ [.node r]

/-- The leaves and nodes of a forest. -/
def visitsAll : List ParseTree → List Visit
  | [] => []
  | t :: ts => t.visits ++ visitsAll ts

end

/-- The yield of a forest is put together from those of its parts. -/
theorem yields_append (ts us : List ParseTree) : yields (ts ++ us) = yields ts ++ yields us := by
  induction ts with
  | nil => rfl
  | cons t ts ih => rw [List.cons_append, yields, yields, ih, List.append_assoc]

/-- So are the rules that it reduces. -/
theorem postorders_append (ts us : List ParseTree) :
    postorders (ts ++ us) = postorders ts ++ postorders us := by
  induction ts with
  | nil => rfl
  | cons t ts ih => rw [List.cons_append, postorders, postorders, ih, List.append_assoc]

/-- And so are the visits to its leaves and nodes. -/
theorem visitsAll_append (ts us : List ParseTree) :
    visitsAll (ts ++ us) = visitsAll ts ++ visitsAll us := by
  induction ts with
  | nil => rfl
  | cons t ts ih => rw [List.cons_append, visitsAll, visitsAll, ih, List.append_assoc]

/-- A forest of one tree yields what the tree does. -/
@[simp] theorem yields_singleton (t : ParseTree) : yields [t] = t.yield :=
  List.append_nil _

/-- It reduces what the tree does. -/
@[simp] theorem postorders_singleton (t : ParseTree) : postorders [t] = t.postorder :=
  List.append_nil _

/-- Its visits are those of the tree. -/
@[simp] theorem visitsAll_singleton (t : ParseTree) : visitsAll [t] = t.visits :=
  List.append_nil _

mutual

/-- The leaves among the visits are the yield, and the nodes are the postorder. -/
theorem filterMap_visits : (t : ParseTree) →
    t.visits.filterMap Visit.leaf? = t.yield ∧ t.visits.filterMap Visit.node? = t.postorder
  | leaf _ => ⟨rfl, rfl⟩
  | node r children => by
    obtain ⟨hleaves, hnodes⟩ := filterMap_visitsAll children
    rw [visits, yield, postorder, List.filterMap_append, List.filterMap_append, hleaves, hnodes]
    exact ⟨List.append_nil _, rfl⟩

/-- Of the visits to a forest, those to leaves are its yield and those to nodes its rules. -/
theorem filterMap_visitsAll : (ts : List ParseTree) →
    (visitsAll ts).filterMap Visit.leaf? = yields ts ∧
      (visitsAll ts).filterMap Visit.node? = postorders ts
  | [] => ⟨rfl, rfl⟩
  | t :: ts => by
    obtain ⟨hleaves, hnodes⟩ := filterMap_visits t
    obtain ⟨hleaves', hnodes'⟩ := filterMap_visitsAll ts
    rw [visitsAll, yields, postorders, List.filterMap_append, List.filterMap_append, hleaves,
      hnodes, hleaves', hnodes']
    exact ⟨rfl, rfl⟩

end

end ParseTree

open ParseTree

/-! ## Trees of a grammar

  Trees and forests are defined together, and so are the proofs about them.  Forests are put
  together and split at will, since they go along the string symbol by symbol. -/

mutual

/-- The tree derives its yield from the symbol. -/
inductive IsTree (g : Grammar) : Symbol → ParseTree → Prop
  | leaf (t : Nat) : IsTree g (.terminal t) (.leaf t)
  | node {r : Nat} {children : List ParseTree} (hr : r < g.rules.size)
      (h : IsForest g (g.rule r).rhs children) :
      IsTree g (.nonterminal (g.rule r).lhs) (.node r children)

/-- The trees derive their yields from the symbols, one from each. -/
inductive IsForest (g : Grammar) : List Symbol → List ParseTree → Prop
  | nil : IsForest g [] []
  | cons {x : Symbol} {α : List Symbol} {t : ParseTree} {ts : List ParseTree} (head : IsTree g x t)
      (tail : IsForest g α ts) : IsForest g (x :: α) (t :: ts)

end

variable {g : Grammar}

/-- Forests side by side belong to the strings one behind the other. -/
theorem IsForest.append {α β : List Symbol} {ts us : List ParseTree} (ht : IsForest g α ts)
    (hu : IsForest g β us) : IsForest g (α ++ β) (ts ++ us) := by
  induction ts generalizing α with
  | nil =>
    cases ht
    exact hu
  | cons t ts ih =>
    cases ht with
    | cons head tail => exact .cons head (ih tail)

/-- A forest for one symbol is a tree of it. -/
theorem IsForest.singleton {x : Symbol} {t : ParseTree} : IsForest g [x] [t] ↔ IsTree g x t := by
  constructor
  · intro h
    cases h with
    | cons head _ => exact head
  · intro h
    exact .cons h .nil

/-- A forest of a symbol and a terminal is a tree and a leaf. -/
theorem IsForest.of_pair {x : Symbol} {a : Nat} {ts : List ParseTree}
    (h : IsForest g [x, .terminal a] ts) : ∃ t, IsTree g x t ∧ ts = [t, .leaf a] := by
  cases h with
  | @cons _ _ t _ head tail =>
    cases tail with
    | cons last rest =>
      cases last
      cases rest
      exact ⟨t, head, rfl⟩

/-- A forest has one tree for each symbol. -/
theorem IsForest.length_eq {α : List Symbol} {ts : List ParseTree} (h : IsForest g α ts) :
    ts.length = α.length := by
  induction ts generalizing α with
  | nil =>
    cases h
    rfl
  | cons t ts ih =>
    cases h with
    | cons _ tail => rw [List.length_cons, List.length_cons, ih tail]

/-- The trees of a string's last `n` symbols are the forest's last `n` trees. -/
theorem IsForest.split {α β : List Symbol} {ts : List ParseTree} (h : IsForest g (α ++ β) ts) :
    IsForest g α (ts.take α.length) ∧ IsForest g β (ts.drop α.length) := by
  induction α generalizing ts with
  | nil => exact ⟨.nil, h⟩
  | cons x α ih =>
    cases h with
    | cons head tail =>
      obtain ⟨hα, hβ⟩ := ih tail
      exact ⟨.cons head hα, hβ⟩

/-! ## What trees derive

  In one direction the nodes are rewritten, from the root on.  In the other a tree is grown
  backwards along the derivation, and what is read off it stays. -/

mutual

/-- The root of a tree derives its yield. -/
theorem IsTree.derives {x : Symbol} {t : ParseTree} :
    IsTree g x t → g.Derives [x] (t.yield.map .terminal)
  | .leaf a => .refl
  | .node hr h => by
    rw [yield]
    exact Grammar.derives_of_rule hr h.derives

/-- The roots of a forest derive its yield. -/
theorem IsForest.derives {α : List Symbol} {ts : List ParseTree} :
    IsForest g α ts → g.Derives α ((yields ts).map .terminal)
  | .nil => .refl
  | .cons head tail => by
    rw [yields, List.map_append]
    exact Grammar.Derives.append head.derives tail.derives

end

/-- Terminals have leaves for trees. -/
theorem IsForest.leaves (g : Grammar) (w : List Nat) :
    IsForest g (w.map .terminal) (w.map .leaf) ∧ yields (w.map .leaf) = w := by
  induction w with
  | nil => exact ⟨.nil, rfl⟩
  | cons a w ih =>
    obtain ⟨hforest, hyields⟩ := ih
    refine ⟨.cons (.leaf a) hforest, ?_⟩
    rw [List.map_cons, yields, yield, hyields]
    rfl

/-- Trees of a string grow into trees of any string that derives it. They keep their yields, and all
    that is visited in them is visited still, in the same order. -/
theorem IsForest.of_derives_forest {α β : List Symbol} (h : g.Derives α β) {ts : List ParseTree}
    (hts : IsForest g β ts) : ∃ ts', IsForest g α ts' ∧ yields ts' = yields ts ∧
      (visitsAll ts).Sublist (visitsAll ts') := by
  induction h using Relation.ReflTransGen.head_induction_on with
  | refl => exact ⟨ts, hts, rfl, List.Sublist.refl _⟩
  | head hstep _ ih =>
    obtain ⟨us, hus, hyields, hvisits⟩ := ih
    cases hstep with
    | @rule u v r hr =>
      -- the trees of the right side become the children of one node
      obtain ⟨hu, hrest⟩ := hus.split
      obtain ⟨hrhs, hv⟩ := hrest.split
      refine ⟨_, hu.append (.cons (.node hr hrhs) hv), ?_, hvisits.trans ?_⟩
      · rw [yields_append, yields, yield, ← yields_append, List.take_append_drop, ← yields_append,
          List.take_append_drop, hyields]
      · conv_lhs => rw [← List.take_append_drop u.length us,
          ← List.take_append_drop (g.rule r).rhs.length (us.drop u.length)]
        rw [visitsAll_append, visitsAll_append, visitsAll_append, visitsAll, visits,
          List.append_assoc]
        refine (List.Sublist.refl _).append ((List.Sublist.refl _).append ?_)
        exact List.sublist_append_right _ _

/-- A string that derives terminals has trees that yield them. -/
theorem IsForest.of_derives {α : List Symbol} {w : List Nat} (h : g.Derives α (w.map .terminal)) :
    ∃ ts, IsForest g α ts ∧ yields ts = w := by
  obtain ⟨hforest, hyields⟩ := IsForest.leaves g w
  obtain ⟨ts, hts, hsame, -⟩ := IsForest.of_derives_forest h hforest
  exact ⟨ts, hts, hsame.trans hyields⟩

/-- And every string of terminals that a symbol derives is the yield of a tree. -/
theorem IsTree.of_derives {x : Symbol} {w : List Nat} (h : g.Derives [x] (w.map .terminal)) :
    ∃ t, IsTree g x t ∧ t.yield = w := by
  obtain ⟨ts, hts, rfl⟩ := IsForest.of_derives h
  cases hts with
  | @cons _ _ t _ head tail =>
    cases tail
    exact ⟨t, head, (yields_singleton t).symm⟩

/-! ## Rightmost derivations

  The list of rules tells the derivation: the last nonterminal is rewritten each time, by the
  next rule of the list. -/

/-- Rewriting by the rules of the list, one after the other, the last nonterminal each time. -/
inductive Rightmost (g : Grammar) : List Nat → List Symbol → List Symbol → Prop
  | done (α : List Symbol) : Rightmost g [] α α
  | rule (u : List Symbol) (w : List Nat) {r : Nat} {rs : List Nat} {β : List Symbol}
      (hr : r < g.rules.size)
      (rest : Rightmost g rs (u ++ ((g.rule r).rhs ++ w.map .terminal)) β) :
      Rightmost g (r :: rs) (u ++ .nonterminal (g.rule r).lhs :: w.map .terminal) β

/-- Rightmost derivations one after the other. -/
theorem Rightmost.trans {rs ss : List Nat} {α β γ : List Symbol} (h : Rightmost g rs α β)
    (k : Rightmost g ss β γ) : Rightmost g (rs ++ ss) α γ := by
  induction h with
  | done α => exact k
  | rule u w hr _ ih => exact .rule u w hr (ih k)

mutual

/-- Read backwards, the rules of a tree are a rightmost derivation of its yield, whatever stands
    before the root, with terminals behind it. -/
theorem IsTree.rightmost_around {x : Symbol} {t : ParseTree} (u : List Symbol) (w : List Nat) :
    IsTree g x t → Rightmost g t.postorder.reverse (u ++ x :: w.map .terminal)
      (u ++ (t.yield ++ w).map .terminal)
  | .leaf a => by
    show Rightmost g [] _ _
    exact .done _
  | .node hr h => by
    rw [postorder, List.reverse_append, yield]
    exact .rule u w hr (h.rightmost_around u w)

/-- The last tree of a forest is derived first. -/
theorem IsForest.rightmost_around {α : List Symbol} {ts : List ParseTree} (u : List Symbol)
    (w : List Nat) : IsForest g α ts → Rightmost g (postorders ts).reverse
      (u ++ (α ++ w.map .terminal)) (u ++ (yields ts ++ w).map .terminal)
  | .nil => .done _
  | @IsForest.cons _ x α t ts head tail => by
    have h1 := tail.rightmost_around (u ++ [x]) w
    have h2 := head.rightmost_around u (yields ts ++ w)
    rw [postorders, List.reverse_append, yields]
    simp only [List.append_assoc, List.cons_append] at h1 h2 ⊢
    exact h1.trans h2

end

/-- Read backwards, the postorder of a tree is a rightmost derivation of its yield. -/
theorem IsTree.rightmost {x : Symbol} {t : ParseTree} (h : IsTree g x t) :
    Rightmost g t.postorder.reverse [x] (t.yield.map .terminal) := by
  have h := h.rightmost_around [] []
  simpa using h

/-! ## The postorder determines the tree

  Read backwards, a postorder begins with the rule at the root and goes on with the last child.
  The induction leaves open what stands behind it, so that children can be read one after the
  other. -/

mutual

/-- The rules of a tree, read backwards, tell the tree, also with more rules behind them.  The
    induction is on the first tree; the second one is taken apart as the first rule says. -/
theorem IsTree.eq_of_reverse_postorder {x : Symbol} {t t' : ParseTree} {l l' : List Nat}
    (h' : IsTree g x t') (he : t.postorder.reverse ++ l = t'.postorder.reverse ++ l') :
    IsTree g x t → t = t' ∧ l = l'
  | .leaf a => by
    cases h' with
    | leaf => exact ⟨rfl, he⟩
  | @IsTree.node _ r ts hr h => by
    generalize hx : Symbol.nonterminal (g.rule r).lhs = x at h'
    cases h' with
    | leaf => exact absurd hx (by simp)
    | @node r' ts' hr' k =>
      rw [postorder, postorder, List.reverse_append, List.reverse_append, List.append_assoc,
        List.append_assoc] at he
      obtain ⟨rfl, he'⟩ := List.cons.inj he
      obtain ⟨rfl, hl⟩ := IsForest.eq_of_reverse_postorders k he' h
      exact ⟨rfl, hl⟩

/-- And those of a forest tell the forest. -/
theorem IsForest.eq_of_reverse_postorders {α : List Symbol} {ts ts' : List ParseTree}
    {l l' : List Nat} (h' : IsForest g α ts')
    (he : (postorders ts).reverse ++ l = (postorders ts').reverse ++ l') :
    IsForest g α ts → ts = ts' ∧ l = l'
  | .nil => by
    cases h'
    exact ⟨rfl, he⟩
  | .cons head tail => by
    cases h' with
    | cons head' tail' =>
      rw [postorders, postorders, List.reverse_append, List.reverse_append, List.append_assoc,
        List.append_assoc] at he
      obtain ⟨rfl, he'⟩ := IsForest.eq_of_reverse_postorders tail' he tail
      obtain ⟨rfl, hl⟩ := IsTree.eq_of_reverse_postorder head' he' head
      exact ⟨rfl, hl⟩

end

/-- Trees with the same root that reduce the same rules are the same. -/
theorem IsTree.eq_of_postorder_eq {x : Symbol} {t t' : ParseTree} (h : IsTree g x t)
    (h' : IsTree g x t') (he : t.postorder = t'.postorder) : t = t' := by
  have hrev : t.postorder.reverse ++ [] = t'.postorder.reverse ++ [] := by rw [he]
  exact (IsTree.eq_of_reverse_postorder h' hrev h).1

end Lalr
