/-
  What a look-up finds, whatever number it is asked for.

  A slot is told by its mark alone, and unused slots have a mark as well.  So the look-up is exact
  for all numbers but the mark of unused slots:

    1. A state has an explicit action on a terminal of its row, with the action's code, and on no
       other number: not on the symbol of an unknown token, nor on the code of a nonterminal, nor on
       anything larger or less than -1 (`Construction.explicitAction_exact`).
    2. On -1 it has one exactly if the slot before one of its rows is unused
       (`ParseTable.GapBefore`).  The value there is 0, the code that accepts
       (`Construction.letters_phantom`).
-/
import Mathlib
import Lalr.Proofs.CodeSpace
import Lalr.Proofs.FirstFit

namespace Lalr

/-! ## Negative columns

  No row has entries in negative columns.  What is read there can only be an unused slot, whose
  mark is negative as well. -/

/-- The slot before the base of a row is unused. -/
def SparseTable.GapBefore (t : SparseTable) (r : Nat) : Prop :=
  ∃ base, t.base[r]? = some base ∧ 0 < base ∧ t.check[(base - 1).toNat]? = some freeMark

/-- The slot before one of the action rows of a state is unused. -/
def ParseTable.GapBefore (t : ParseTable) (state : Nat) : Prop :=
  state < t.nonLeafCount ∧ (t.actions.GapBefore state ∨
    state < t.splitCount ∧ t.actions.GapBefore (state + t.nonLeafCount))

namespace PackedRows

variable {rows : Array SparseRow} {t : SparseTable} {r : Nat}

/-- A slot with a negative mark is unused. -/
theorem IsPacked.of_negative_mark (h : IsPacked .byColumn rows t) {i : Nat} {mark : Int}
    (hneg : mark < 0) (hmark : t.check[i]? = some mark) :
    mark = freeMark ∧ t.values[i]? = some 0 := by
  have hi : i < t.check.size := (Array.getElem?_eq_some_iff.mp hmark).1
  have hnone : ∀ s < rows.size, ∀ e ∈ rows.getD s [], (i : Int) ≠ t.base.getD s 0 + e.1 := by
    intro s hs e he heq
    obtain ⟨-, hentry, -⟩ := h.used s hs e he
    rw [← heq, Int.toNat_natCast, hmark, Option.some_inj] at hentry
    have hcolumn : mark = (e.1 : Int) := hentry
    omega
  obtain ⟨hfree, hvalue⟩ := h.unused i hi hnone
  exact ⟨Option.some_inj.mp (hmark.symm.trans hfree), hvalue⟩

/-- In a negative column nothing is read but an unused slot before the row's base. -/
theorem IsPacked.read_negative (h : IsPacked .byColumn rows t) (hr : r < rows.size) {column : Int}
    (hneg : column < 0) : ∃ found, t.read r column column = .ok found ∧
      ∀ v, found = some v ↔ column = freeMark ∧ v = 0 ∧ t.GapBefore r := by
  obtain ⟨base, hbase⟩ : ∃ base, t.base[r]? = some base :=
    ⟨_, Array.getElem?_eq_getElem (by rw [h.size_base]; exact hr)⟩
  have hgap : t.GapBefore r ↔ 0 < base ∧ t.check[(base - 1).toNat]? = some freeMark := by
    rw [SparseTable.GapBefore, hbase]
    simp
  rw [SparseTable.read, hbase]
  show ∃ found, t.entryAt (base + column) column = .ok found ∧ _
  unfold SparseTable.entryAt
  -- a slot in front of the table is never read; else the mark decides
  split
  · rename_i hbefore
    refine ⟨none, rfl, fun v => ⟨fun hv => absurd hv (by simp), ?_⟩⟩
    rintro ⟨rfl, -, hslot⟩
    have hpos := (hgap.mp hslot).1
    rw [freeMark] at hbefore
    omega
  · rename_i hbefore
    split
    · rename_i hmark
      obtain ⟨rfl, hvalue⟩ := h.of_negative_mark hneg hmark
      rw [hvalue]
      refine ⟨some 0, rfl,
        fun v => ⟨fun hv => ⟨rfl, (Option.some.inj hv).symm, hgap.mpr ⟨?_, hmark⟩⟩,
        fun hv => by rw [hv.2.1]⟩⟩
      rw [freeMark] at hbefore
      omega
    · rename_i hmark
      refine ⟨none, rfl, fun v => ⟨fun hv => absurd hv (by simp), ?_⟩⟩
      rintro ⟨rfl, -, hslot⟩
      exact absurd (hgap.mp hslot).2 hmark

end PackedRows

/-- For a negative number the look-up finds nothing but an unused slot before one of the rows. -/
theorem ParseTable.explicitAction_negative {t : ParseTable} {rows : Array SparseRow} {state : Nat}
    (h : PackedRows.IsPacked .byColumn rows t.actions)
    (hfirst : state < t.nonLeafCount → state < rows.size)
    (hsecond : state < t.splitCount → state + t.nonLeafCount < rows.size)
    (hdefault : t.useDefault ≠ 0) {symbol : Int} (hneg : symbol < 0) :
    ∃ found, t.explicitAction state symbol = .ok found ∧
      ∀ v, found = some v ↔ symbol = freeMark ∧ v = 0 ∧ t.GapBefore state := by
  -- what such a slot gives is 0, and that is not the code of no entry
  have hkeep : ∀ {entry : Option Int}, (∀ v, entry = some v → v = 0) →
      entry.filter (· != t.useDefault) = entry := by
    intro entry hzero
    cases entry with
    | none => rfl
    | some v =>
      rw [hzero v rfl, Option.filter_some, if_pos (bne_iff_ne.mpr hdefault.symm)]
  rw [explicitAction]
  -- leaves have no rows; of the others the first row is asked, then the second one
  by_cases hleaf : t.nonLeafCount ≤ state
  · rw [actionEntry, if_pos hleaf]
    refine ⟨none, rfl, fun v => ⟨fun hv => absurd hv (by simp), fun hv => ?_⟩⟩
    exact absurd hv.2.2.1 (Nat.not_lt.mpr hleaf)
  · have hlt : state < t.nonLeafCount := Nat.lt_of_not_le hleaf
    rw [actionEntry, if_neg hleaf]
    obtain ⟨first, hread, hiff⟩ := h.read_negative (hfirst hlt) hneg
    rw [hread]
    cases first with
    | some v =>
      have hv := (hiff v).mp rfl
      refine ⟨some v, congrArg Except.ok (hkeep fun w hw => ((hiff w).mp hw).2.1), fun w => ?_⟩
      rw [hiff w]
      exact ⟨fun hw => ⟨hw.1, hw.2.1, hlt, Or.inl hw.2.2⟩, fun hw => ⟨hw.1, hw.2.1, hv.2.2⟩⟩
    | none =>
      -- the first row has no gap before it, so what is found is found in the second one
      have hnot : symbol = freeMark → ¬ t.actions.GapBefore state := fun hsymbol hgap =>
        absurd ((hiff 0).mpr ⟨hsymbol, rfl, hgap⟩) (by simp)
      show ∃ found, Except.map _ (if state < t.splitCount then _ else _) = _ ∧ _
      split
      · rename_i hsplit
        obtain ⟨second, hread', hiff'⟩ := h.read_negative (hsecond hsplit) hneg
        rw [hread']
        refine ⟨second, congrArg Except.ok (hkeep fun w hw => ((hiff' w).mp hw).2.1), fun w => ?_⟩
        rw [hiff' w]
        exact ⟨fun hw => ⟨hw.1, hw.2.1, hlt, Or.inr ⟨hsplit, hw.2.2⟩⟩,
          fun hw => ⟨hw.1, hw.2.1, (hw.2.2.2.resolve_left (hnot hw.1)).2⟩⟩
      · rename_i hsplit
        refine ⟨none, rfl, fun w => ⟨fun hw => absurd hw (by simp), fun hw => ?_⟩⟩
        exact (hw.2.2.2.elim (hnot hw.1) fun hgap => hsplit hgap.1).elim

/-! ## The numbers of all states

  Every number below the count of states is that of one state, so the statement covers them all. -/

/-- Every number below the count of states is that of a state. -/
theorem Numbering.exists_number {rows : Array ActionRow} {new : Nat} (h : new < rows.size) :
    ∃ s < rows.size, (ofRows rows).number s = new := by
  have hpos : 0 < rows.size := Nat.zero_lt_of_lt h
  have hlt : new < (ofRows rows).order.length := by
    rw [length_order]
    exact h.trans_le (le_max_left _ _)
  refine ⟨_, (mem_order hpos).mp (List.getElem_mem hlt), ?_⟩
  rw [number_eq_idxOf]
  exact nodup_order.idxOf_getElem new hlt

namespace Construction

variable {d : Declarations} {settings : Settings} {c : Construction} {p : Nat}

/-- A leaf has no entries. -/
theorem actions_of_leaf (hleaf : c.isLeaf p = true) : (c.coding.row p).actions = [] := by
  have hrow : (c.coding.row p).isLeaf = true := (Bool.and_eq_true_iff.mp hleaf).2
  rw [ActionRow.isLeaf, Bool.and_eq_true, Bool.and_eq_true, List.isEmpty_iff] at hrow
  exact hrow.1.1

section

variable (h : d.build settings = .ok c)
include h

/-- The action rows of the states lie in the table. -/
theorem isPacked_actions : PackedRows.IsPacked .byColumn c.coding.actionRows c.table.actions := by
  rw [table_eq h]
  exact PackedRows.isPacked_pack .byColumn (Coding.sortedByKey_actionRows (sortedByKey_row h))

/-- Only terminals have entries. -/
theorem lt_of_mem_actions (hp : p < c.automaton.states.size) {t : Nat} {action : Action}
    (hmem : (t, action) ∈ (c.coding.row p).actions) : t < c.grammar.terminalCount := by
  have hlookup := (sortedByKey_row h p).lookup_eq_some_iff.mpr hmem
  rw [row_eq h hp, State.lookup_actions] at hlookup
  by_contra hge
  rw [(c.automaton.state p).decided_eq_none c.grammar p (Nat.le_of_not_lt hge)] at hlookup
  exact absurd hlookup (by simp)

/-- For a negative number only an unused slot before one of the rows of the state is found. -/
theorem explicitAction_number_negative {symbol : Int}
    (hneg : symbol < 0) : ∃ found, c.table.explicitAction (c.number p) symbol = .ok found ∧
      ∀ v, found = some v ↔ symbol = freeMark ∧ v = 0 ∧ c.table.GapBefore (c.number p) := by
  have hpacked := isPacked_actions h
  have hsize : c.coding.actionRows.size = c.table.nonLeafCount + c.table.splitCount := by
    rw [← hpacked.size_base, table_eq h]
    exact (Encoded.size_actions c.grammar settings.defaultText (sortedByKey_row h)).1
  have hdefault : c.table.useDefault = useDefault := by
    rw [table_eq h]
    rfl
  refine ParseTable.explicitAction_negative hpacked (fun hlt => by omega) (fun hlt => by omega)
    ?_ hneg
  rw [hdefault]
  decide

/-- For a number that is not negative exactly the entries of the state's row are found. -/
theorem explicitAction_number_iff (hsize : c.grammar.rules.size ≤ 32766)
    (hp : p < c.automaton.states.size) (t : Nat) :
    ∃ found, c.table.explicitAction (c.number p) t = .ok found ∧
      ∀ v, found = some v ↔
        ∃ action, (t, action) ∈ (c.coding.row p).actions ∧ v = c.coding.actionCode action := by
  -- a leaf has neither row nor entries
  cases hleaf : c.isLeaf p with
  | true =>
    have hge : c.table.nonLeafCount ≤ c.number p := by
      refine Nat.le_of_not_lt fun hlt => ?_
      rw [number_lt_nonLeafCount_iff h hp, hleaf] at hlt
      exact absurd hlt (by decide)
    refine ⟨none, ?_, fun v => ?_⟩
    · rw [ParseTable.explicitAction, ParseTable.actionEntry, if_pos hge]
      rfl
    · rw [actions_of_leaf hleaf]
      simp
  | false =>
    refine ⟨_, explicitAction_number_eq h hsize hp hleaf t, fun v => ?_⟩
    rw [Option.map_eq_some_iff]
    exact exists_congr fun action =>
      and_congr (sortedByKey_row h p).lookup_eq_some_iff eq_comm

/-- The action of a state is its explicit one, or else its fallback. -/
theorem action_number_of_explicit (hp : p < c.automaton.states.size) {symbol : Int}
    {found : Option Int} (hfound : c.table.explicitAction (c.number p) symbol = .ok found) :
    c.table.action (c.number p) symbol =
      .ok (found.getD (c.coding.actionCode (c.coding.row p).fallback)) := by
  rw [ParseTable.action, hfound, defaultRule_number_eq h hp,
    ← c.coding.neg_fallbackRule (fallback_ne_shift h hp)]
  rfl

end

/-- What a state has explicit actions on: the terminals in its row, with the codes of their actions,
    and besides these -1 at most, where the slot before one of its rows is unused.  On all else the
    action is the fallback. -/
theorem explicitAction_exact (h : d.build settings = .ok c) (hrules : d.rules.size ≤ 32765)
    {state : Nat} (hstate : state < c.table.stateCount) :
    ∃ s row, c.decisions.rows[s]? = some row ∧ c.number s = state ∧
      ∀ symbol : Int, ∃ found, c.table.explicitAction state symbol = .ok found ∧
        (∀ v, found = some v ↔
          (∃ (t : Nat) (action : Action), symbol = t ∧ t < c.grammar.terminalCount ∧
            (t, action) ∈ row.actions ∧ v = c.coding.actionCode action) ∨
          (symbol = -1 ∧ v = 0 ∧ c.table.GapBefore state)) ∧
        c.table.action state symbol = .ok (found.getD (c.coding.actionCode row.fallback)) := by
  have hsize : c.grammar.rules.size ≤ 32766 := by
    rw [(Declarations.build_spec h).1.size_rules]
    omega
  have hcount : c.table.stateCount = c.decisions.rows.size := by
    rw [table_eq h]
    rfl
  obtain ⟨s, hs, rfl⟩ := Numbering.exists_number (hcount ▸ hstate)
  have hp : s < c.automaton.states.size := by rwa [size_rows h] at hs
  refine ⟨s, c.coding.row s, getElem?_rows h hp, rfl, fun symbol => ?_⟩
  -- terminals are read in the row, and negative numbers in front of it
  obtain ⟨t, rfl⟩ | hneg : (∃ t : Nat, symbol = t) ∨ symbol < 0 :=
    (le_or_gt 0 symbol).imp_left Int.eq_ofNat_of_zero_le
  · obtain ⟨found, hfound, hiff⟩ := explicitAction_number_iff h hsize hp t
    refine ⟨found, hfound, fun v => ?_, action_number_of_explicit h hp hfound⟩
    rw [hiff v]
    constructor
    · rintro ⟨action, hmem, hv⟩
      exact Or.inl ⟨t, action, rfl, lt_of_mem_actions h hp hmem, hmem, hv⟩
    · rintro (⟨t', action, heq, -, hmem, hv⟩ | ⟨hminus, -⟩)
      · obtain rfl := Int.ofNat_inj.mp heq
        exact ⟨action, hmem, hv⟩
      · omega
  · obtain ⟨found, hfound, hiff⟩ := explicitAction_number_negative h hneg
    refine ⟨found, hfound, fun v => ?_, action_number_of_explicit h hp hfound⟩
    rw [hiff v]
    constructor
    · exact Or.inr
    · rintro (⟨t, -, rfl, -⟩ | hgap)
      · omega
      · exact hgap

end Construction

/-- `S : 'a' 'b' 'c'`. -/
def letters : Declarations where
  rules := #[⟨"S", ["'a'", "'b'", "'c'"], none, none⟩]

/-- The grammar that they declare. -/
def lettersGrammar : Grammar where
  alphabet :=
    { terminals := #[⟨"$end", 0, none⟩, ⟨"'a'", 97, none⟩, ⟨"'b'", 98, none⟩, ⟨"'c'", 99, none⟩]
      nonterminals := #["$start", "S"] }
  rules := #[⟨0, [.nonterminal 1, .terminal 0], none, none⟩,
    ⟨1, [.terminal 1, .terminal 2, .terminal 3], none, none⟩]

set_option maxRecDepth 100000 in
/-- What comes of them.  The rows of states 0 to 3 stand in one array, where slot 2 is unused and
    the base of state 3 is behind it. -/
theorem letters_run : (Construction.ofGrammar {} lettersGrammar).succeeds = true ∧
    (Construction.ofGrammar {} lettersGrammar).table.actions =
      ⟨#[2, 4, 0, 0, 3, 0, 5], #[1, 0, -1, -1, 2, -1, 3], #[-1, 1, 2, 3]⟩ ∧
    (Construction.ofGrammar {} lettersGrammar).table.stateCount = 6 ∧
    (Construction.ofGrammar {} lettersGrammar).table.nonLeafCount = 4 ∧
    (Construction.ofGrammar {} lettersGrammar).table.explicitAction 3 (-1) = .ok (some 0) ∧
    (Construction.ofGrammar {} lettersGrammar).table.action 3 (-1) = .ok 0 ∧
    (Construction.ofGrammar {} lettersGrammar).table.defaultRule 3 = .ok unexpectedRule := by
  cbv
  exact ⟨rfl, trivial⟩

theorem letters_build : letters.build = .ok (Construction.ofGrammar {} lettersGrammar) :=
  Declarations.build_of_succeeds (by cbv) letters_run.1

theorem letters_state : 3 < (Construction.ofGrammar {} lettersGrammar).table.stateCount := by
  obtain ⟨-, -, hcount, -⟩ := letters_run
  rw [hcount]
  decide

/-- The slot before the base of state 3 is unused. -/
theorem letters_gap : (Construction.ofGrammar {} lettersGrammar).table.GapBefore 3 := by
  obtain ⟨-, hactions, -, hleaves, -⟩ := letters_run
  refine ⟨by rw [hleaves]; decide, Or.inl ?_⟩
  rw [hactions]
  exact ⟨3, rfl, by decide, rfl⟩

namespace Construction

/-- The theorem for state 3 of the letters: nothing is found at 97, which is the code of a character
    and no symbol, but something at -1. -/
theorem explicitAction_exact_letters : ∃ c, letters.build = .ok c ∧ 3 < c.table.stateCount ∧
    c.table.explicitAction 3 97 = .ok none ∧ c.table.explicitAction 3 (-1) = .ok (some 0) := by
  obtain ⟨s, row, -, -, hexact⟩ := explicitAction_exact letters_build (by decide) letters_state
  refine ⟨_, letters_build, letters_state, ?_, ?_⟩
  · obtain ⟨found, hfound, hiff, -⟩ := hexact 97
    suffices hnone : found = none by rw [hfound, hnone]
    refine Option.eq_none_iff_forall_ne_some.mpr fun v hv => ?_
    rcases (hiff v).mp hv with ⟨t, -, ht, hlt, -⟩ | ⟨hminus, -⟩
    · obtain rfl : t = 97 := (Int.ofNat_inj.mp ht).symm
      exact absurd hlt (by decide)
    · exact absurd hminus (by decide)
  · obtain ⟨found, hfound, hiff, -⟩ := hexact (-1)
    rw [hfound, (hiff 0).mpr (Or.inr ⟨rfl, rfl, letters_gap⟩)]

/-- -1 is no terminal, but the table has state 3 accept on it, where its default is an error. -/
theorem letters_phantom : ∃ c, letters.build = .ok c ∧ letters.rules.size ≤ 32765 ∧
    3 < c.table.stateCount ∧ c.table.explicitAction 3 (-1) = .ok (some 0) ∧
    c.table.action 3 (-1) = .ok 0 ∧ c.table.defaultRule 3 = .ok unexpectedRule := by
  obtain ⟨-, -, -, -, hexplicit, haction, hdefault⟩ := letters_run
  exact ⟨_, letters_build, by decide, letters_state, hexplicit, haction, hdefault⟩

end Construction

end Lalr
