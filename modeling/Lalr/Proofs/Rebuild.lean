/-
  Rebuilding a state makes the closure of the kernel that it starts with, whatever the kernel.

  Nothing is asked of the kernel here: its dots may stand in front of rules that the closure adds as
  well, and its lookaheads may be any sets.  Behind the kernel the state may have anything.

    1. The kernel stays in front, and keeps its lookaheads (`StartsWith`).
    2. Behind it stand, once each, the rules of the nonterminals that are `Called`: those after a
       dot of the kernel, and from them on those that a rule of a called nonterminal begins with.
       This is the textbook closure, read by nonterminals instead of cores (`expected_iff`).
    3. A family of lookaheads is `Obeyed` if the kernel's sets are in it, and if every item hands to
       the closure items of the nonterminal after its dot what can begin the rest behind it, and its
       own lookahead where that rest can vanish.  The computed lookaheads are the least such family:
       by induction on `Flow`, which says how a terminal got into a slot.

  Places tell items apart here, since a core of the kernel can be among the added ones once more.
-/
import Mathlib
import Lalr.Proofs.Spread

namespace Lalr

open SymbolSet

/-! ## What is called for

  The closure of a kernel is told by nonterminals: each of those that are called has all of its
  rules there. -/

/-- The nonterminals whose rules the closure of a kernel has to add. -/
inductive Called (g : Grammar) (kernel : Kernel) : Nat → Prop
  | dot {e : Core × SymbolSet} {b : Nat} (hmem : e ∈ kernel)
      (hnext : e.1.next? g = some (.nonterminal b)) : Called g kernel b
  | leading {r b : Nat} {rest : List Symbol} (h : Called g kernel (g.rule r).lhs)
      (hr : r < g.rules.size) (hrhs : (g.rule r).rhs = .nonterminal b :: rest) : Called g kernel b

/-- The items that a kernel puts in front of a state. -/
def Kernel.items (kernel : Kernel) : Array Item :=
  kernel.mapIdx fun i e => ⟨e.1, none, i⟩

/-- The sets that a kernel brings. -/
def Kernel.looks (kernel : Kernel) : Array SymbolSet :=
  kernel.map (·.2)

/-- The closure of a kernel. -/
def Kernel.closure (g : Grammar) (kernel : Kernel) : Closure :=
  Closure.ofKernel g (LeadingEmpty.ofGrammar g) kernel.items

namespace Kernel

variable {g : Grammar} {kernel : Kernel}

theorem getElem?_items {i : Nat} {item : Item} :
    kernel.items[i]? = some item ↔ ∃ e, kernel[i]? = some e ∧ item = ⟨e.1, none, i⟩ := by
  rw [items, Array.getElem?_mapIdx, Option.map_eq_some_iff]
  simp only [eq_comm]

theorem size_items : kernel.items.size = kernel.size :=
  Array.size_mapIdx

theorem size_looks (kernel : Kernel) : kernel.looks.size = kernel.items.size := by
  rw [looks, Array.size_map, size_items]

theorem isNumbered_items (kernel : Kernel) : IsNumbered kernel.items := by
  intro i item hi
  obtain ⟨e, -, rfl⟩ := getElem?_items.mp hi
  exact ⟨rfl, rfl⟩

theorem hasCore_items {c : Core} : HasCore kernel.items c ↔ ∃ e ∈ kernel, e.1 = c := by
  constructor
  · rintro ⟨item, hmem, rfl⟩
    obtain ⟨i, hi⟩ := Array.mem_iff_getElem?.mp hmem
    obtain ⟨e, he, rfl⟩ := getElem?_items.mp hi
    exact ⟨e, Array.mem_of_getElem? he, rfl⟩
  · rintro ⟨e, hmem, rfl⟩
    obtain ⟨i, hi⟩ := Array.mem_iff_getElem?.mp hmem
    exact ⟨⟨e.1, none, i⟩, Array.mem_of_getElem? (getElem?_items.mpr ⟨e, hi, rfl⟩), rfl⟩

theorem inTable_looks {i t : Nat} :
    InTable kernel.looks i t ↔ ∃ e, kernel[i]? = some e ∧ t ∈ e.2 := by
  rw [InTable, looks, Array.getD_eq_getD_getElem?, Array.getElem?_map]
  cases kernel[i]? with
  | none => simp
  | some e => simp

/-- Following the cores of the closure and following the nonterminals comes to the same. -/
theorem expected_iff {a : Nat} : Closure.Expected g kernel.items a ↔ Called g kernel a := by
  constructor
  · rintro ⟨c, hc, hnext⟩
    induction hc generalizing a with
    | kernel h =>
      obtain ⟨e, hmem, rfl⟩ := hasCore_items.mp h
      exact .dot hmem hnext
    | @rule c b r _ hb hr hlhs ih =>
      have hcalled : Called g kernel (g.rule r).lhs := hlhs ▸ ih hb
      obtain ⟨rest, hrest⟩ := Core.next?_eq_some.mp hnext
      exact .leading hcalled hr ((Core.afterDot_eq g ⟨r, 0⟩).symm.trans hrest)
  · intro h
    induction h with
    | dot hmem hnext => exact ⟨_, .kernel (hasCore_items.mpr ⟨_, hmem, rfl⟩), hnext⟩
    | @leading r b rest _ hr hrhs ih =>
      refine ⟨⟨r, 0⟩, ih.inClosure hr rfl, Core.next?_eq_some.mpr ⟨rest, ?_⟩⟩
      exact (Core.afterDot_eq g ⟨r, 0⟩).trans hrhs

/-- The closure of a kernel, whatever its cores are. -/
theorem isClosure (kernel : Kernel) (wf : g.WellFormed) :
    IsClosure g kernel.items (kernel.closure g) :=
  (Closure.ofKernel_spec wf kernel.isNumbered_items).1

/-! ## The items of the closure, by place

  Behind the kernel every core is there once, but some of them may be in the kernel as well.  A
  place says which of the two is meant. -/

/-- The kernel's items stand in front, in their order. -/
theorem getElem?_closure (wf : g.WellFormed) {i : Nat} (hlt : i < kernel.size) :
    (kernel.closure g).items[i]? = kernel.items[i]? := by
  obtain ⟨added, hitems, -⟩ := (kernel.isClosure wf).isPartial.items_eq
  rw [hitems, Array.getElem?_append_left (by rwa [size_items])]

/-- The slot of a kernel item is its place. -/
theorem slot_of_lt (wf : g.WellFormed) {i : Nat} {item : Item}
    (hi : (kernel.closure g).items[i]? = some item) (hlt : i < kernel.size) : item.slot = i := by
  rw [← kernel.size_items] at hlt
  exact ((kernel.isClosure wf).isPartial.slot_of_lt kernel.isNumbered_items hi hlt).1

/-- Behind the kernel stand items that were added, in slots past those of the kernel. -/
theorem added_of_le (wf : g.WellFormed) {i : Nat} {item : Item}
    (hi : (kernel.closure g).items[i]? = some item) (hle : kernel.size ≤ i) :
    kernel.size ≤ item.slot ∧ ∃ r, Closure.Added g kernel.items (kernel.closure g) item r := by
  rw [← kernel.size_items] at hle ⊢
  exact (kernel.isClosure wf).isPartial.added_of_le hi hle

/-- Place and slot of an item are both among the kernel's, or both past them. -/
theorem slot_lt_iff (wf : g.WellFormed) {i : Nat} {item : Item}
    (hi : (kernel.closure g).items[i]? = some item) :
    item.slot < kernel.size ↔ i < kernel.size := by
  constructor
  · intro hslot
    by_contra hle
    have hpast := (added_of_le wf hi (Nat.le_of_not_lt hle)).1
    omega
  · intro hlt
    rw [slot_of_lt wf hi hlt]
    exact hlt

end Kernel

/-! ## A rebuilt state

  All that is said of such a state, in terms of its kernel and of places. -/

namespace State

variable {g : Grammar} {kernel : Kernel} {s : State}

/-- The state's kernel items, and their lookaheads, are those of the kernel. -/
structure StartsWith (s : State) (kernel : Kernel) : Prop where
  size : s.kernelSize = kernel.size
  items : s.kernel = kernel.items
  looks : s.lookaheads.take s.kernelSize = kernel.looks

/-- The items behind the kernel. -/
def added (s : State) : List Item :=
  s.items.toList.drop s.kernelSize

/-- Terminal `t` is in the lookahead of the item at place `i`. -/
def LookAt (s : State) (i t : Nat) : Prop :=
  ∃ item, s.items[i]? = some item ∧ t ∈ s.lookahead item

/-- At place `j`, behind the kernel, stands a rule of the nonterminal after the dot of the item at
    place `i`, and behind that nonterminal stands `beta`. -/
def Calls (g : Grammar) (s : State) (i j : Nat) (beta : List Symbol) : Prop :=
  ∃ item target, s.items[i]? = some item ∧ s.items[j]? = some target ∧ s.kernelSize ≤ j ∧
    item.core.afterDot g = .nonterminal (g.rule target.core.rule).lhs :: beta

/-- `L i t` says that terminal `t` is in the lookahead of the item at place `i`.  Such a family has
    the kernel's lookaheads, and hands on to closure items what it has to. -/
structure Obeyed (g : Grammar) (kernel : Kernel) (s : State) (L : Nat → Nat → Prop) : Prop where
  given : ∀ {i t : Nat} {e : Core × SymbolSet}, kernel[i]? = some e → t ∈ e.2 → L i t
  first : ∀ {i j t : Nat} {beta rest : List Symbol}, Calls g s i j beta →
    g.Derives beta (.terminal t :: rest) → L j t
  inherit : ∀ {i j t : Nat} {beta : List Symbol}, Calls g s i j beta → g.Derives beta [] →
    L i t → L j t

/-- The state is the closure of the kernel. -/
structure IsClosureOf (g : Grammar) (kernel : Kernel) (s : State) : Prop where
  /-- the kernel comes first, with the lookaheads that it brought -/
  starts : s.StartsWith kernel
  /-- every item has its lookahead in the table -/
  slot_lt : ∀ item ∈ s.items, item.slot < s.lookaheads.size
  /-- no core was added twice -/
  nodup : (s.added.map (·.core)).Nodup
  /-- exactly the rules of called nonterminals were added, empty ones included -/
  mem_added : ∀ c, c ∈ s.added.map (·.core) ↔
    ∃ r < g.rules.size, Called g kernel (g.rule r).lhs ∧ c = ⟨r, 0⟩
  /-- the lookaheads are the least ones -/
  least : IsLeast {L : Nat → Nat → Prop | Obeyed g kernel s L} s.LookAt

/-- The items are the closure of the kernel, and its sets were spread over them. -/
structure Spreads (g : Grammar) (kernel : Kernel) (s : State) : Prop where
  size : s.kernelSize = kernel.size
  items : s.items = (kernel.closure g).items
  looks : s.lookaheads = spread (Analysis.ofGrammar g) (kernel.closure g) kernel.looks

/-- Rebuilding looks at nothing but the kernel and its sets. -/
theorem StartsWith.rebuild (hs : s.StartsWith kernel) :
    Spreads g kernel (s.rebuild (Analysis.ofGrammar g)).1 where
  size := hs.size
  items := by
    show (Closure.ofKernel g (LeadingEmpty.ofGrammar g) s.kernel).items = _
    rw [hs.items, Kernel.closure]
  looks := by
    show spread _ (Closure.ofKernel g (LeadingEmpty.ofGrammar g) s.kernel) _ = _
    rw [hs.items, hs.looks, Kernel.closure]

namespace Spreads

variable (h : Spreads g kernel s) (wf : g.WellFormed)
include h wf

/-- The kernel and its sets stay in front. -/
theorem startsWith : s.StartsWith kernel where
  size := h.size
  items := by
    rw [State.kernel, h.items, h.size, ← Kernel.size_items]
    exact (kernel.isClosure wf).isPartial.take_items
  looks := by
    rw [h.looks, h.size, ← Kernel.size_items]
    exact take_spread wf (kernel.isClosure wf) kernel.size_looks

/-- Every item has a slot in the table. -/
theorem slot_lt {item : Item} (hmem : item ∈ s.items) : item.slot < s.lookaheads.size := by
  have hpartial := (kernel.isClosure wf).isPartial
  rw [h.looks, (mem_spread_iff wf (kernel.isClosure wf) kernel.size_looks).1]
  rw [h.items] at hmem
  rcases hpartial.mem_items hmem with hmem | ⟨r, hr⟩
  · obtain ⟨i, hi⟩ := Array.mem_iff_getElem?.mp hmem
    rw [(kernel.isNumbered_items hi).1]
    exact Nat.lt_of_lt_of_le (Array.getElem?_eq_some_iff.mp hi).1 hpartial.slots_le
  · exact (hpartial.slot_range hr.slot).2

/-- The cores behind the kernel differ, and they are the rules called for. -/
theorem added_spec : (s.added.map (·.core)).Nodup ∧
    ∀ c, c ∈ s.added.map (·.core) ↔
      ∃ r < g.rules.size, Called g kernel (g.rule r).lhs ∧ c = ⟨r, 0⟩ := by
  obtain ⟨hc, hrules⟩ := Closure.ofKernel_spec wf kernel.isNumbered_items
  obtain ⟨added, hitems, hnodup, hadded⟩ := hc.isPartial.items_eq
  have heq : s.added = added := by
    have hlen : kernel.size = kernel.items.toList.length := Kernel.size_items.symm
    rw [State.added, h.items, h.size, Kernel.closure, hitems, Array.toList_append, hlen,
      List.drop_left]
  rw [heq]
  refine ⟨hnodup, fun c => ⟨fun hmem => ?_, ?_⟩⟩
  · obtain ⟨item, hitem, rfl⟩ := List.mem_map.mp hmem
    obtain ⟨r, hr⟩ := hadded item hitem
    exact ⟨r, hr.rule_lt, Kernel.expected_iff.mp hr.expected, hr.core⟩
  · rintro ⟨r, hr, hcalled, rfl⟩
    obtain ⟨item, hmem, hcore, horigin⟩ := hrules r hr (Kernel.expected_iff.mpr hcalled)
    -- the kernel's items were not brought in by a nonterminal, so this one stands behind them
    rw [hitems, Array.mem_append] at hmem
    rcases hmem with hmem | hmem
    · rw [IsNumbered.origin_eq kernel.isNumbered_items hmem] at horigin
      exact absurd horigin (by simp)
    · exact List.mem_map.mpr ⟨item, List.mem_toArray.mp hmem, hcore⟩

/-! ## Lookaheads, by place

  Slots are replaced by the places of items here.  Items that share a slot have the same
  lookahead. -/

/-- An item calls the items in the slot that it sends to. -/
theorem calls_iff_sends {item target : Item} {i j : Nat} {beta : List Symbol}
    (hi : s.items[i]? = some item) (hj : s.items[j]? = some target) :
    Calls g s i j beta ↔ Sends g (kernel.closure g) item target.slot beta := by
  have hpartial := (kernel.isClosure wf).isPartial
  rw [h.items] at hj
  constructor
  · rintro ⟨item', target', hi', hj', hle, hafter⟩
    rw [hi] at hi'
    rw [h.items, hj] at hj'
    cases hi'
    cases hj'
    obtain ⟨-, r, hr⟩ := Kernel.added_of_le wf hj (h.size ▸ hle)
    rw [hr.core] at hafter
    exact ⟨(g.rule r).lhs, hafter, hr.slot⟩
  · rintro ⟨b, hafter, hslot⟩
    have hpast := (hpartial.slot_range hslot).1
    rw [Kernel.size_items] at hpast
    -- the slots of nonterminals lie behind those of the kernel
    have hle : kernel.size ≤ j := by
      have hiff := Kernel.slot_lt_iff wf hj
      omega
    obtain ⟨-, r, hr⟩ := Kernel.added_of_le wf hj hle
    refine ⟨item, target, hi, h.items ▸ hj, h.size ▸ hle, ?_⟩
    rw [hafter, hr.core, hpartial.slot_inj hslot hr.slot]

/-- The lookahead of an item is what flows into its slot. -/
theorem lookAt_iff_flow {i t : Nat} : s.LookAt i t ↔
    ∃ item, s.items[i]? = some item ∧ Flow g (kernel.closure g) kernel.looks item.slot t := by
  obtain ⟨-, hflow⟩ := mem_spread_iff wf (kernel.isClosure wf) kernel.size_looks
  have hslot : ∀ item : Item, t ∈ s.lookahead item ↔
      Flow g (kernel.closure g) kernel.looks item.slot t := by
    intro item
    rw [← hflow, InTable, lookahead, h.looks]
  simp only [LookAt, hslot]

/-- The computed lookaheads hand on what they have to. -/
theorem obeyed : Obeyed g kernel s s.LookAt where
  given := by
    intro i t e he ht
    have hitem : kernel.items[i]? = some ⟨e.1, none, i⟩ := Kernel.getElem?_items.mpr ⟨e, he, rfl⟩
    have hlt : i < kernel.size := (Array.getElem?_eq_some_iff.mp he).1
    apply (h.lookAt_iff_flow wf).mpr
    refine ⟨⟨e.1, none, i⟩, ?_, .given (Kernel.inTable_looks.mpr ⟨e, he, ht⟩)⟩
    rw [h.items, Kernel.getElem?_closure wf hlt, hitem]
  first := by
    intro i j t beta rest hcalls hderives
    obtain ⟨item, target, hi, hj, -⟩ := id hcalls
    have hsend := (h.calls_iff_sends wf hi hj).mp hcalls
    have hbegins : g.Begins t beta := Grammar.begins_iff_derives.mpr ⟨rest, hderives⟩
    apply (h.lookAt_iff_flow wf).mpr
    exact ⟨target, hj, .first (h.items ▸ Array.mem_of_getElem? hi) hsend hbegins⟩
  inherit := by
    intro i j t beta hcalls hderives hlook
    obtain ⟨item, hi, hflow⟩ := (h.lookAt_iff_flow wf).mp hlook
    obtain ⟨-, target, -, hj, -⟩ := id hcalls
    have hsend := (h.calls_iff_sends wf hi hj).mp hcalls
    have hvanishes : g.Vanishes beta := Grammar.vanishes_iff_derives.mpr hderives
    apply (h.lookAt_iff_flow wf).mpr
    exact ⟨target, hj, .inherit (h.items ▸ Array.mem_of_getElem? hi) hsend hvanishes hflow⟩

/-- What flows into the slot of an item, every family that is obeyed has at its place. -/
theorem of_flow {L : Nat → Nat → Prop} (hL : Obeyed g kernel s L) {slot t : Nat}
    (hflow : Flow g (kernel.closure g) kernel.looks slot t) :
    ∀ i item, s.items[i]? = some item → item.slot = slot → L i t := by
  -- the induction is on how the terminal got into the slot
  induction hflow with
  | @given slot t hin =>
    rintro i item hi rfl
    obtain ⟨e, he, ht⟩ := Kernel.inTable_looks.mp hin
    have hslot : item.slot < kernel.size := (Array.getElem?_eq_some_iff.mp he).1
    have hplace : i < kernel.size := (Kernel.slot_lt_iff wf (h.items ▸ hi)).mp hslot
    rw [Kernel.slot_of_lt wf (h.items ▸ hi) hplace] at he
    exact hL.given he ht
  | @first source slot t beta hmem hsend hbegins =>
    rintro j target hj rfl
    obtain ⟨i, hi⟩ := Array.mem_iff_getElem?.mp hmem
    rw [← h.items] at hi
    obtain ⟨rest, hderives⟩ := Grammar.begins_iff_derives.mp hbegins
    exact hL.first ((h.calls_iff_sends wf hi hj).mpr hsend) hderives
  | @inherit source slot t beta hmem hsend hvanishes _ ih =>
    rintro j target hj rfl
    obtain ⟨i, hi⟩ := Array.mem_iff_getElem?.mp hmem
    rw [← h.items] at hi
    have hlook : L i t := ih i source hi rfl
    exact hL.inherit ((h.calls_iff_sends wf hi hj).mpr hsend)
      (Grammar.vanishes_iff_derives.mp hvanishes) hlook

/-- The lookaheads of a state are the least ones. -/
theorem isLeast_lookAt : IsLeast {L : Nat → Nat → Prop | Obeyed g kernel s L} s.LookAt := by
  constructor
  · exact h.obeyed wf
  · intro L hL i t hlook
    obtain ⟨item, hi, hflow⟩ := (h.lookAt_iff_flow wf).mp hlook
    exact h.of_flow wf hL hflow i item hi rfl

end Spreads

/-- For every grammar that declarations resolve to, and every state whatever its kernel and the sets
    that it brings, rebuilding the state makes the closure of the kernel. -/
theorem rebuild_isClosureOf {d : Declarations} (hres : d.resolve = .ok g)
    (hs : s.StartsWith kernel) :
    IsClosureOf g kernel (s.rebuild (Analysis.ofGrammar g)).1 := by
  have wf : g.WellFormed := (Declarations.resolved hres).wellFormed
  have h : Spreads g kernel (s.rebuild (Analysis.ofGrammar g)).1 := hs.rebuild
  obtain ⟨hnodup, hadded⟩ := h.added_spec wf
  exact ⟨h.startsWith wf, fun item => h.slot_lt wf, hnodup, hadded, h.isLeast_lookAt wf⟩

/-- `B` begins with `A`, which can vanish, but `B` itself cannot. -/
def hidden : Declarations where
  rules := #[⟨"S", ["B", "S", "'z'"], none, none⟩, ⟨"S", [], none, none⟩,
    ⟨"B", ["A", "'y'"], none, none⟩, ⟨"A", [], none, none⟩, ⟨"A", ["'x'", "A"], none, none⟩]

/-- The grammar that they declare. -/
def hiddenGrammar : Grammar where
  alphabet :=
    { terminals := #[⟨"$end", 0, none⟩, ⟨"'z'", 122, none⟩, ⟨"'y'", 121, none⟩, ⟨"'x'", 120, none⟩]
      nonterminals := #["$start", "S", "B", "A"] }
  rules := #[⟨0, [.nonterminal 1, .terminal 0], none, none⟩,
    ⟨1, [.nonterminal 2, .nonterminal 1, .terminal 1], none, none⟩, ⟨1, [], none, none⟩,
    ⟨2, [.nonterminal 3, .terminal 2], none, none⟩, ⟨3, [], none, none⟩,
    ⟨3, [.terminal 3, .nonterminal 3], none, none⟩]

/-- `S : . B S z`, `A : . x A` and `A : x . A`.  The second core will be added once more, and 7 is
    no terminal. -/
def overlap : Kernel := #[(⟨1, 0⟩, ∅), (⟨5, 0⟩, ⟨8⟩), (⟨5, 1⟩, ⟨129⟩)]

/-- A state with that kernel, and with an item and a set that do not belong behind it. -/
def stale : State where
  items := overlap.items.push ⟨⟨2, 0⟩, some 1, 3⟩
  kernelSize := 3
  lookaheads := overlap.looks.push ⟨6⟩
  entry := none
  signature := []

/-- The empty rule of `A` is there, though the first item that calls for it is one of `B`; those of
    `S` are not.  What the kernel brings for `A : x . A`, the rule gains, and `y` as well. -/
theorem rebuild_isClosureOf_overlap :
    hidden.resolve = .ok hiddenGrammar
      ∧ stale.StartsWith overlap
      ∧ ⟨4, 0⟩ ∈ (stale.rebuild (Analysis.ofGrammar hiddenGrammar)).1.added.map (·.core)
      ∧ ¬ Called hiddenGrammar overlap 1
      ∧ (stale.rebuild (Analysis.ofGrammar hiddenGrammar)).1.LookAt 4 7
      ∧ ∀ L, Obeyed hiddenGrammar overlap
          (stale.rebuild (Analysis.ofGrammar hiddenGrammar)).1 L → L 4 2 := by
  have hres : hidden.resolve = .ok hiddenGrammar := by cbv
  have hs : stale.StartsWith overlap := ⟨rfl, rfl, by cbv⟩
  obtain ⟨-, -, -, hadded, hleast⟩ := rebuild_isClosureOf hres hs
  have hitems : (stale.rebuild (Analysis.ofGrammar hiddenGrammar)).1.items =
      #[⟨⟨1, 0⟩, none, 0⟩, ⟨⟨5, 0⟩, none, 1⟩, ⟨⟨5, 1⟩, none, 2⟩, ⟨⟨3, 0⟩, some 2, 3⟩,
        ⟨⟨4, 0⟩, some 3, 4⟩, ⟨⟨5, 0⟩, some 3, 4⟩] := by cbv
  have hcores : (stale.rebuild (Analysis.ofGrammar hiddenGrammar)).1.added.map (·.core) =
      [⟨3, 0⟩, ⟨4, 0⟩, ⟨5, 0⟩] := by
    rw [State.added, hitems]
    rfl
  have hlast : overlap[2]? = some (⟨5, 1⟩, ⟨129⟩) := rfl
  have hA : Called hiddenGrammar overlap 3 :=
    .dot (Array.mem_of_getElem? hlast) ((Core.next?_eq_getElem? _ _).trans rfl)
  have hcalls : ∀ i beta item,
      (stale.rebuild (Analysis.ofGrammar hiddenGrammar)).1.items[i]? = some item →
      item.core.afterDot hiddenGrammar = .nonterminal 3 :: beta →
      Calls hiddenGrammar (stale.rebuild (Analysis.ofGrammar hiddenGrammar)).1 i 4 beta := by
    intro i beta item hi hafter
    exact ⟨item, ⟨⟨4, 0⟩, some 3, 4⟩, hi, by rw [hitems]; rfl, by decide, hafter⟩
  refine ⟨hres, hs, (hadded _).mpr ⟨4, by decide, hA, rfl⟩, fun hS => ?_, ?_, fun L hL => ?_⟩
  · have hmem := (hadded ⟨2, 0⟩).mpr ⟨2, by decide, hS, rfl⟩
    rw [hcores] at hmem
    exact absurd hmem (by decide)
  · have hgiven := hleast.1.given (t := 7) hlast (by decide)
    exact hleast.1.inherit (hcalls 2 [] ⟨⟨5, 1⟩, none, 2⟩ (by rw [hitems]; rfl)
      (Core.afterDot_eq ..)) .refl hgiven
  · exact hL.first (hcalls 3 [.terminal 2] ⟨⟨3, 0⟩, some 2, 3⟩ (by rw [hitems]; rfl)
      (Core.afterDot_eq ..)) .refl

end State

end Lalr
