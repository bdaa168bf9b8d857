/-
  The loops that close a state come to an end.

  The definitions bound each loop by a number of steps that is large enough.  Here the loops stand
  without bounds, as relations between what they begin with and what they end with; a derivation
  is a run that has ended:

    * `Searches`    the search for empty rules, which descends into what the rules begin with;
    * `Walks`       the walk over the items, those added on the way included;
    * `Stabilizes`  the passes over the edges between slots.

  Each of them has one such run, and it leads to what the bounded loop computes (`closing_iff`):

    1. a search marks a nonterminal before it descends, so it is nowhere deeper than the number of
       nonterminals without a mark (`unsearched`), however the rules lead back to each other;
    2. a walk adds every rule at most once (`Partial.size_le`);
    3. a pass that changes anything adds a symbol to a slot (`spread_stabilizes`).
-/
import Mathlib
import Lalr.Proofs.Crossing

namespace Lalr

variable {g : Grammar} {e : LeadingEmpty}

namespace Closure

/-! ## The search for empty rules

  The search is mutual: a nonterminal leads to its rules, and a rule to the nonterminal that it
  begins with.  `Quest` puts both into one relation. -/

/-- What a search is about: a nonterminal, or some rules of one. -/
inductive Quest where
  | nonterminal (a : Nat)
  | rules (a : Nat) (rs : List Nat)

/-- The search for empty rules. -/
inductive Searches (g : Grammar) (e : LeadingEmpty) : Closure → Quest → Closure → Prop
  | skip {c : Closure} {a : Nat} (h : (c.searched.getD a false || !e.isMarked a) = true) :
      Searches g e c (.nonterminal a) c
  | search {c c' : Closure} {a : Nat} (h : (c.searched.getD a false || !e.isMarked a) = false)
      (rules : Searches g e { c with searched := c.searched.setIfInBounds a true }
        (.rules a (g.rulesOf a)) c') : Searches g e c (.nonterminal a) c'
  | done {a : Nat} {c : Closure} : Searches g e c (.rules a []) c
  | empty {a r : Nat} {c c' : Closure} {rs : List Nat} (hrhs : (g.rule r).rhs = [])
      (rest : Searches g e (c.addEmptyRule a r) (.rules a rs) c') :
      Searches g e c (.rules a (r :: rs)) c'
  | descend {a b r : Nat} {c c₁ c' : Closure} {rs : List Nat} {beta : List Symbol}
      (hrhs : (g.rule r).rhs = .nonterminal b :: beta) (first : Searches g e c (.nonterminal b) c₁)
      (rest : Searches g e c₁ (.rules a rs) c') : Searches g e c (.rules a (r :: rs)) c'
  | pass {a r t : Nat} {c c' : Closure} {rs : List Nat} {beta : List Symbol}
      (hrhs : (g.rule r).rhs = .terminal t :: beta) (rest : Searches g e c (.rules a rs) c') :
      Searches g e c (.rules a (r :: rs)) c'

/-- A search ends in one way only. -/
theorem Searches.unique {c c₁ c₂ : Closure} {q : Quest} (h : Searches g e c q c₁)
    (h' : Searches g e c q c₂) : c₁ = c₂ := by
  -- on the first run; the mark or the right side fixes what the second one did
  induction h generalizing c₂ with
  | skip hskip =>
    cases h' with
    | skip => rfl
    | search hsearch => exact absurd (hskip.symm.trans hsearch) (by decide)
  | search hsearch _ ih =>
    cases h' with
    | skip hskip => exact absurd (hskip.symm.trans hsearch) (by decide)
    | search _ rules => exact ih rules
  | done =>
    cases h'
    rfl
  | empty hrhs _ ih =>
    cases h' with
    | empty _ rest => exact ih rest
    | descend hrhs' => exact absurd (hrhs.symm.trans hrhs') (by simp)
    | pass hrhs' => exact absurd (hrhs.symm.trans hrhs') (by simp)
  | descend hrhs _ _ ihfirst ih =>
    cases h' with
    | empty hrhs' => exact absurd (hrhs.symm.trans hrhs') (by simp)
    | descend hrhs' first rest =>
      obtain ⟨hb, -⟩ := List.cons.inj (hrhs.symm.trans hrhs')
      obtain rfl := Symbol.nonterminal.inj hb
      obtain rfl := ihfirst first
      exact ih rest
    | pass hrhs' => exact absurd (hrhs.symm.trans hrhs') (by simp)
  | pass hrhs _ ih =>
    cases h' with
    | empty hrhs' => exact absurd (hrhs.symm.trans hrhs') (by simp)
    | descend hrhs' => exact absurd (hrhs.symm.trans hrhs') (by simp)
    | pass _ rest => exact ih rest

/-- The marks of nonterminals that were searched stay. -/
structure Marks (c c' : Closure) : Prop where
  size : c'.searched.size = c.searched.size
  keep : ∀ {a : Nat}, c.isSearched a → c'.isSearched a

/-- Where nothing is noted as searched, nothing is taken back. -/
theorem Marks.of_eq {c c' : Closure} (h : c'.searched = c.searched) : Marks c c' :=
  ⟨congrArg Array.size h, fun ha => by rwa [isSearched, h]⟩

theorem Marks.trans {c c' c'' : Closure} (h : Marks c c') (h' : Marks c' c'') : Marks c c'' :=
  ⟨h'.size.trans h.size, fun ha => h'.keep (h.keep ha)⟩

/-- Adding an empty rule does not search. -/
theorem searched_addEmptyRule (c : Closure) (a r : Nat) :
    (c.addEmptyRule a r).searched = c.searched := by
  show (c.reserve a).1.searched = c.searched
  unfold reserve
  split <;> rfl

/-- Noting a nonterminal takes no note back. -/
theorem marks_set (c : Closure) (a : Nat) :
    Marks c { c with searched := c.searched.setIfInBounds a true } := by
  refine ⟨Array.size_setIfInBounds, fun {b} hb => ?_⟩
  rw [isSearched, getD_setIfInBounds]
  split
  · rfl
  · exact hb

/-- Induction on the depth; the rules come one after the other. -/
theorem marks_addEmpty (depth : Nat) (c : Closure) (a : Nat) :
    Marks c (addEmpty g e depth c a) := by
  induction depth generalizing c a with
  | zero => exact .of_eq rfl
  | succ depth ih =>
    rw [addEmpty_succ]
    split
    · exact .of_eq rfl
    · refine (marks_set c a).trans ?_
      refine List.foldlRecOn
        (motive := Marks { c with searched := c.searched.setIfInBounds a true })
        _ _ (.of_eq rfl) fun c' hc' r _ => hc'.trans ?_
      unfold searchRule
      split
      · exact .of_eq (searched_addEmptyRule c' a r)
      · exact ih c' _
      · exact .of_eq rfl

/-- How many nonterminals have no mark. -/
def unsearched (g : Grammar) (c : Closure) : Nat :=
  ((Finset.range g.nonterminalCount).filter fun a => c.searched.getD a false = false).card

/-- At most all nonterminals are left to search. -/
theorem unsearched_le (g : Grammar) (c : Closure) : unsearched g c ≤ g.nonterminalCount :=
  (Finset.card_filter_le _ _).trans (Finset.card_range _).le

/-- Searching leaves no more than there were. -/
theorem Marks.unsearched_le {c c' : Closure} (h : Marks c c') :
    unsearched g c' ≤ unsearched g c := by
  refine Finset.card_le_card (Finset.monotone_filter_right _ fun a _ ha => ?_)
  by_contra hmark
  rw [h.keep (Bool.eq_true_of_not_eq_false hmark)] at ha
  exact absurd ha (by decide)

/-- One mark more. -/
theorem unsearched_set {c : Closure} (hsize : c.searched.size = g.nonterminalCount) {a : Nat}
    (ha : a < g.nonterminalCount) (hnot : c.searched.getD a false = false) :
    unsearched g { c with searched := c.searched.setIfInBounds a true } < unsearched g c := by
  refine Finset.card_lt_card ⟨?_, fun hsub => ?_⟩
  · refine Finset.monotone_filter_right _ fun b _ hb => ?_
    by_contra hmark
    rw [(marks_set c a).keep (Bool.eq_true_of_not_eq_false hmark)] at hb
    exact absurd hb (by decide)
  · have hin := hsub (Finset.mem_filter.mpr ⟨Finset.mem_range.mpr ha, hnot⟩)
    have hmem := (Finset.mem_filter.mp hin).2
    rw [getD_setIfInBounds, if_pos ⟨rfl, hsize ▸ ha⟩] at hmem
    exact absurd hmem (by decide)

/-- Searching the rules of a nonterminal ends if searching the nonterminals that they begin with
    does. -/
theorem searches_foldl (wf : g.WellFormed) {depth : Nat}
    (ih : ∀ (c : Closure) (b : Nat), c.searched.size = g.nonterminalCount → b < g.nonterminalCount →
      unsearched g c < depth → Searches g e c (.nonterminal b) (addEmpty g e depth c b))
    (a : Nat) (rs : List Nat) (hrs : ∀ r ∈ rs, r < g.rules.size) (c : Closure)
    (hsize : c.searched.size = g.nonterminalCount) (hlt : unsearched g c < depth) :
    Searches g e c (.rules a rs) (rs.foldl (searchRule g e depth a) c) := by
  induction rs generalizing c with
  | nil => exact .done
  | cons r rs ihrs =>
    have hrs' : ∀ r ∈ rs, r < g.rules.size := fun q hq => hrs q (List.mem_cons_of_mem _ hq)
    rw [List.foldl_cons]
    cases hrhs : (g.rule r).rhs with
    | nil =>
      have hmarks : Marks c (c.addEmptyRule a r) := .of_eq (searched_addEmptyRule c a r)
      rw [searchRule_empty c hrhs]
      exact .empty hrhs (ihrs hrs' _ (hmarks.size.trans hsize)
        (Nat.lt_of_le_of_lt hmarks.unsearched_le hlt))
    | cons x beta =>
      cases x with
      | terminal t =>
        rw [searchRule_terminal c hrhs]
        exact .pass hrhs (ihrs hrs' c hsize hlt)
      | nonterminal b =>
        have hb : b < g.nonterminalCount := by
          have hmem : (.nonterminal b : Symbol) ∈ (g.rule r).rhs := by
            rw [hrhs]
            exact List.mem_cons_self
          exact wf.rhs_has (hrs r List.mem_cons_self) _ hmem
        -- what the first part has marked stays marked, so the depth suffices for the rest
        have hmarks : Marks c (addEmpty g e depth c b) := marks_addEmpty depth c b
        rw [searchRule_nonterminal c hrhs]
        exact .descend hrhs (ih c b hsize hb hlt) (ihrs hrs' _ (hmarks.size.trans hsize)
          (Nat.lt_of_le_of_lt hmarks.unsearched_le hlt))

/-- A search ends: what it descends into is marked before. -/
theorem searches_addEmpty (wf : g.WellFormed) (depth : Nat) (c : Closure) (a : Nat)
    (hsize : c.searched.size = g.nonterminalCount) (ha : a < g.nonterminalCount)
    (hlt : unsearched g c < depth) :
    Searches g e c (.nonterminal a) (addEmpty g e depth c a) := by
  induction depth generalizing c a with
  | zero => exact absurd hlt (Nat.not_lt_zero _)
  | succ depth ih =>
    rw [addEmpty_succ]
    split
    · rename_i hskip
      exact .skip hskip
    · rename_i hsearch
      have hsearch := Bool.eq_false_of_not_eq_true hsearch
      have hnot := (Bool.or_eq_false_iff.mp hsearch).1
      -- the mark pays for the descent
      have hmark := unsearched_set hsize ha hnot
      exact .search hsearch (searches_foldl wf ih a _
        (fun r hr => ((Grammar.mem_rulesOf ha).mp hr).1) _ ((marks_set c a).size.trans hsize)
        (by omega))

/-! ## The walk

  The items grow while they are walked over.  The walk has ended when it has come to a place
  where no item stands. -/

/-- What one item calls for. -/
inductive Visits (g : Grammar) (e : LeadingEmpty) (c : Closure) (item : Item) : Closure → Prop
  | opens {a : Nat} {c' : Closure} (hnext : item.core.next? g = some (.nonterminal a))
      (search : Searches g e ((c.reserve a).1.addRules g a (c.reserve a).2) (.nonterminal a) c') :
      Visits g e c item c'
  | passes (hnext : ∀ a, item.core.next? g ≠ some (.nonterminal a)) : Visits g e c item c

/-- The walk from item `i` on, until there are no more items. -/
inductive Walks (g : Grammar) (e : LeadingEmpty) : Nat → Closure → Closure → Prop
  | done {i : Nat} {c : Closure} (h : c.items[i]? = none) : Walks g e i c c
  | visit {i : Nat} {c c' c'' : Closure} {item : Item} (h : c.items[i]? = some item)
      (hvisit : Visits g e c item c') (rest : Walks g e (i + 1) c' c'') : Walks g e i c c''

/-- A visit ends in one way only. -/
theorem Visits.unique {c c₁ c₂ : Closure} {item : Item} (h : Visits g e c item c₁)
    (h' : Visits g e c item c₂) : c₁ = c₂ := by
  cases h with
  | opens hnext search =>
    cases h' with
    | opens hnext' search' =>
      obtain rfl := Symbol.nonterminal.inj (Option.some.inj (hnext.symm.trans hnext'))
      exact search.unique search'
    | passes hother => exact absurd hnext (hother _)
  | passes hother =>
    cases h' with
    | opens hnext' => exact absurd hnext' (hother _)
    | passes => rfl

/-- A walk ends in one way only. -/
theorem Walks.unique {i : Nat} {c c₁ c₂ : Closure} (h : Walks g e i c c₁) (h' : Walks g e i c c₂) :
    c₁ = c₂ := by
  induction h generalizing c₂ with
  | done hnone =>
    cases h' with
    | done => rfl
    | visit hitem => exact absurd (hnone.symm.trans hitem) (by simp)
  | visit hitem hvisit _ ih =>
    cases h' with
    | done hnone => exact absurd (hnone.symm.trans hitem) (by simp)
    | visit hitem' hvisit' rest =>
      obtain rfl := Option.some.inj (hitem.symm.trans hitem')
      obtain rfl := hvisit.unique hvisit'
      exact ih rest

variable {kernel : Array Item} {c : Closure}

/-- What is computed for a visit is what it ends in. -/
theorem Partial.visits (wf : g.WellFormed) (hk : IsNumbered kernel) (h : Partial g kernel c)
    (hf : Filled g c) {item : Item} (hmem : item ∈ c.items) :
    Visits g e c item (c.visit g e item) := by
  unfold Closure.visit
  split
  · rename_i a hnext
    have hexp : Expected g kernel a := ⟨item.core, h.sound ⟨item, hmem, rfl⟩, hnext⟩
    have ha := (hexp.bounds wf).2
    obtain ⟨hp, -, hslot, hitems, hop, hse⟩ := h.reserve ha
    -- a slot more changes no mark and no item
    have hp' := (hp.addRules wf hk (hf.congr hitems hop hse) hslot hexp).1
    exact .opens hnext (searches_addEmpty wf _ _ a hp'.size_searched ha
      (Nat.lt_succ_of_le (unsearched_le g _)))
  · rename_i hnext
    exact .passes hnext

/-- A walk ends: there are no more items than kernel items and rules. -/
theorem Partial.walks (wf : g.WellFormed) (hk : IsNumbered kernel) (steps i : Nat) (c : Closure)
    (h : Partial g kernel c) (hf : Filled g c) (hi : i ≤ c.items.size)
    (hsteps : kernel.size + g.rules.size < steps + i) :
    Walks g e i c (Closure.walk g e steps i c) := by
  induction steps generalizing i c with
  | zero =>
    have := h.size_le
    omega
  | succ steps ih =>
    rw [Closure.walk]
    split
    · rename_i hnone
      exact .done hnone
    · rename_i item hitem
      obtain ⟨hlt, -⟩ := Array.getElem?_eq_some_iff.mp hitem
      have hmem : item ∈ c.items := Array.mem_of_getElem? hitem
      obtain ⟨hp, hext, hf', -⟩ := h.visit wf hk hf (e := e) hmem
      have hsize : c.items.size ≤ (c.visit g e item).items.size := by
        obtain ⟨new, hnew⟩ := hext.items
        simp [hnew]
      -- one step less, and one item less to come
      exact .visit hitem (h.visits wf hk hf hmem) (ih (i + 1) _ hp hf' (by omega) (by omega))

/-- The walk over a growing list of items ends in the closure. -/
theorem walks_ofKernel (wf : g.WellFormed) (hk : IsNumbered kernel) :
    Walks g e 0 (start g kernel) (ofKernel g e kernel) :=
  (Partial.start g kernel).walks wf hk (kernel.size + g.rules.size + 1) 0 _ (Filled.start g kernel)
    (Nat.zero_le _) (by omega)

end Closure

/-! ## Closing a state

  The two loops come one after the other, and the passes begin with what the walk has made. -/

namespace State

open SymbolSet

/-- A state is closed: the walk has ended, and then the passes over the edges.  The number is that
    of the empty rules that were added. -/
inductive Closing (a : Analysis) (s : State) : State × Nat → Prop
  | closed {c : Closure} {sets : Array SymbolSet}
      (walk : Closure.Walks a.grammar a.leading 0 (Closure.start a.grammar s.kernel) c)
      (passes : Stabilizes (followEdges (seeds a c (s.lookaheads.take s.kernelSize)).2)
        (seeds a c (s.lookaheads.take s.kernelSize)).1 sets) :
      Closing a s ({ s with items := c.items, lookaheads := sets }, c.empties)

/-- Closing a state has one result. -/
theorem Closing.unique {a : Analysis} {s : State} {r r' : State × Nat} (h : Closing a s r)
    (h' : Closing a s r') : r = r' := by
  cases h with
  | closed walk passes =>
    cases h' with
    | closed walk' passes' =>
      obtain rfl := walk.unique walk'
      rw [passes.unique passes']

/-- The loops end, in what the bounded ones compute. -/
theorem closing_iff (wf : g.WellFormed) {s : State} (h : Proper g s) {r : State × Nat} :
    Closing (Analysis.ofGrammar g) s r ↔ r = s.rebuild (Analysis.ofGrammar g) := by
  have hclosing : Closing (Analysis.ofGrammar g) s (s.rebuild (Analysis.ofGrammar g)) :=
    .closed (Closure.walks_ofKernel wf h.kernel.numbered)
      (spread_stabilizes wf (h.isClosure wf) (size_take_looks h))
  exact ⟨fun h' => h'.unique hclosing, fun heq => heq ▸ hclosing⟩

end State

end Lalr
