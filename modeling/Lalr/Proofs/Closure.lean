/-
  The closure of a kernel is exactly the closure.

  `InClosure` is the textbook relation: from a kernel core on, the rules of every nonterminal that
  stands after a dot, with the dot in front.  The computed closure

    1. adds nothing else, and nothing twice (`Partial`, kept by every step);
    2. misses nothing: when the walk ends, every item was visited, so all rules of the nonterminal
       after its dot are there (`Filled`, `Visited`);
    3. gives every nonterminal after a dot a slot of its own, past those of the kernel.

  Of the kernel only its numbering counts (`IsNumbered`).  A rule that stands in the kernel with its
  dot in front is added all the same, so what was added is told by its origin (`HasRule`), not by
  its core.

  The walk has enough steps because the added cores are different rules (`Partial.size_le`).
  `ofKernel_spec` collects the result as `IsClosure`.
-/
import Mathlib
import Lalr.Closure
import Lalr.Proofs.Core
import Lalr.Proofs.LeadingEmpty

namespace Lalr

/-! ## What a closure is -/

/-- The cores of a closure: those of the kernel, and the rules, with the dot in front, of the
    nonterminals after dots. -/
inductive InClosure (g : Grammar) (K : Core → Prop) : Core → Prop
  | kernel {c : Core} (h : K c) : InClosure g K c
  | rule {c : Core} {b r : Nat} (h : InClosure g K c) (hnext : c.next? g = some (.nonterminal b))
      (hr : r < g.rules.size) (hlhs : (g.rule r).lhs = b) : InClosure g K ⟨r, 0⟩

/-- One of the items has the core. -/
def HasCore (items : Array Item) (c : Core) : Prop :=
  ∃ item ∈ items, item.core = c

/-- Kernel items as a state has them: numbered in order, with cores of the grammar's rules.  In
    short rules the cores are different, and the dot is past the first symbol except in the start
    rule. -/
structure IsKernel (g : Grammar) (kernel : Array Item) : Prop where
  slot : ∀ {i : Nat} {item : Item}, kernel[i]? = some item → item.slot = i ∧ item.origin = none
  distinct : Core.Distinct g (kernel.toList.map (·.core))
  fits : ∀ item ∈ kernel, item.core.Fits g
  moved : ∀ item ∈ kernel, item.core.isShort g = true → 0 < item.core.dot ∨ item.core = ⟨0, 0⟩

/-- A kernel has one item of each core of a short rule. -/
theorem IsKernel.item_eq {g : Grammar} {kernel : Array Item} (h : IsKernel g kernel)
    {item item' : Item} (hshort : item.core.isShort g = true) (hmem : item ∈ kernel)
    (hmem' : item' ∈ kernel) (hcore : item.core = item'.core) : item = item' := by
  have hdistinct := h.distinct
  rw [Core.Distinct, List.filter_map] at hdistinct
  have hshort' : item'.core.isShort g = true := hcore ▸ hshort
  exact List.inj_on_of_nodup_map hdistinct
    (List.mem_filter.mpr ⟨Array.mem_toList_iff.mpr hmem, hshort⟩)
    (List.mem_filter.mpr ⟨Array.mem_toList_iff.mpr hmem', hshort'⟩) hcore

/-- All that a closure needs of the items it starts from: they are numbered in order, and none of
    them was brought in by a nonterminal. -/
def IsNumbered (kernel : Array Item) : Prop :=
  ∀ {i : Nat} {item : Item}, kernel[i]? = some item → item.slot = i ∧ item.origin = none

theorem IsKernel.numbered {g : Grammar} {kernel : Array Item} (h : IsKernel g kernel) :
    IsNumbered kernel :=
  h.slot

/-- No nonterminal has brought in a kernel item. -/
theorem IsNumbered.origin_eq {kernel : Array Item} (h : IsNumbered kernel) {item : Item}
    (hmem : item ∈ kernel) : item.origin = none := by
  obtain ⟨i, hi⟩ := Array.mem_iff_getElem?.mp hmem
  exact (h hi).2

/-- Rule `r` stands among the items with its dot in front, brought in by its left side. -/
def HasRule (g : Grammar) (items : Array Item) (r : Nat) : Prop :=
  ∃ item ∈ items, item.core = ⟨r, 0⟩ ∧ item.origin = some (g.rule r).lhs

theorem HasRule.hasCore {g : Grammar} {items : Array Item} {r : Nat} (h : HasRule g items r) :
    HasCore items ⟨r, 0⟩ := by
  obtain ⟨item, hmem, hcore, -⟩ := h
  exact ⟨item, hmem, hcore⟩

theorem HasCore.append {items : Array Item} {new : List Item} {c : Core} :
    HasCore (items ++ new.toArray) c ↔ HasCore items c ∨ ∃ item ∈ new, item.core = c := by
  simp only [HasCore, Array.mem_append, List.mem_toArray]
  constructor
  · rintro ⟨item, hmem | hmem, rfl⟩
    · exact Or.inl ⟨item, hmem, rfl⟩
    · exact Or.inr ⟨item, hmem, rfl⟩
  · rintro (⟨item, hmem, rfl⟩ | ⟨item, hmem, rfl⟩)
    · exact ⟨item, Or.inl hmem, rfl⟩
    · exact ⟨item, Or.inr hmem, rfl⟩

namespace Closure

variable {g : Grammar} {e : LeadingEmpty} {kernel : Array Item}

/-- The nonterminal stands after a dot of the closure. -/
def Expected (g : Grammar) (kernel : Array Item) (a : Nat) : Prop :=
  ∃ c, InClosure g (HasCore kernel) c ∧ c.next? g = some (.nonterminal a)

/-- The rules of an expected nonterminal belong to the closure. -/
theorem Expected.inClosure {a r : Nat} (h : Expected g kernel a) (hr : r < g.rules.size)
    (hlhs : (g.rule r).lhs = a) : InClosure g (HasCore kernel) ⟨r, 0⟩ := by
  obtain ⟨c, hc, hnext⟩ := h
  exact .rule hc hnext hr hlhs

/-- The added start symbol is never expected: it stands in no right side. -/
theorem Expected.bounds (wf : g.WellFormed) {a : Nat} (h : Expected g kernel a) :
    0 < a ∧ a < g.nonterminalCount := by
  obtain ⟨c, -, hnext⟩ := h
  exact Core.nonterminal_of_next? wf hnext

/-- The slot of a nonterminal, if it has one. -/
def slot? (c : Closure) (a : Nat) : Option Nat :=
  c.slotOf.getD a none

/-- Were the non-empty rules of the nonterminal added? -/
def isOpened (c : Closure) (a : Nat) : Prop :=
  c.opened.getD a false = true

/-- Were the empty rules of the nonterminal looked for? -/
def isSearched (c : Closure) (a : Nat) : Prop :=
  c.searched.getD a false = true

/-! ## Invariant: nothing wrong is added

  The kernel is a prefix of the items, so an item is of the kernel or was added, by its place.
  Slots past those of the kernel are handed out in order, each to one nonterminal. -/

/-- The item is a rule that the closure calls for, in the slot of its left side. -/
structure Added (g : Grammar) (kernel : Array Item) (c : Closure) (item : Item) (r : Nat) :
    Prop where
  core : item.core = ⟨r, 0⟩
  rule_lt : r < g.rules.size
  origin : item.origin = some (g.rule r).lhs
  slot : c.slot? (g.rule r).lhs = some item.slot
  expected : Expected g kernel (g.rule r).lhs
  opened : (g.rule r).rhs ≠ [] → c.isOpened (g.rule r).lhs
  searched : (g.rule r).rhs = [] → c.isSearched (g.rule r).lhs

/-- A closure on its way: the kernel, then different rules that it calls for, and a slot of its own
    for each nonterminal that has one. -/
structure Partial (g : Grammar) (kernel : Array Item) (c : Closure) : Prop where
  size_slotOf : c.slotOf.size = g.nonterminalCount
  size_opened : c.opened.size = g.nonterminalCount
  size_searched : c.searched.size = g.nonterminalCount
  slots_le : kernel.size ≤ c.slots
  slot_range : ∀ {a s : Nat}, c.slot? a = some s → kernel.size ≤ s ∧ s < c.slots
  slot_inj : ∀ {a b s : Nat}, c.slot? a = some s → c.slot? b = some s → a = b
  items_eq : ∃ added : List Item, c.items = kernel ++ added.toArray ∧
    (added.map (·.core)).Nodup ∧ ∀ item ∈ added, ∃ r, Added g kernel c item r

/-- Before the first item is visited, there is the kernel alone. -/
theorem Partial.start (g : Grammar) (kernel : Array Item) :
    Partial g kernel (Closure.start g kernel) where
  size_slotOf := Array.size_replicate
  size_opened := Array.size_replicate
  size_searched := Array.size_replicate
  slots_le := Nat.le_refl _
  slot_range h := by
    rw [slot?, Closure.start, getD_replicate] at h
    exact absurd h (by simp)
  slot_inj h _ := by
    rw [slot?, Closure.start, getD_replicate] at h
    exact absurd h (by simp)
  items_eq := ⟨[], by simp [Closure.start], List.nodup_nil, fun item h => absurd h List.not_mem_nil⟩

variable {c : Closure}

/-- A core that was added is a rule with its dot in front; one of the kernel is not. -/
theorem Partial.mem_items (h : Partial g kernel c) {item : Item} (hmem : item ∈ c.items) :
    item ∈ kernel ∨ ∃ r, Added g kernel c item r := by
  obtain ⟨added, hitems, -, hadded⟩ := h.items_eq
  rw [hitems, Array.mem_append] at hmem
  exact hmem.imp id fun h => hadded item (List.mem_toArray.mp h)

/-- The kernel stays in front. -/
theorem Partial.take_items (h : Partial g kernel c) : c.items.take kernel.size = kernel := by
  obtain ⟨added, hitems, -⟩ := h.items_eq
  rw [hitems, Array.take_eq_extract, Array.extract_append]
  simp

/-- The kernel items stay. -/
theorem Partial.le_size (h : Partial g kernel c) : kernel.size ≤ c.items.size := by
  obtain ⟨added, hitems, -⟩ := h.items_eq
  rw [hitems, Array.size_append]
  omega

/-- The items by place: those of the kernel have their places for slots. -/
theorem Partial.slot_of_lt (h : Partial g kernel c) (hk : IsNumbered kernel) {i : Nat} {item : Item}
    (hi : c.items[i]? = some item) (hlt : i < kernel.size) :
    item.slot = i ∧ item.origin = none := by
  obtain ⟨added, hitems, -⟩ := h.items_eq
  rw [hitems, Array.getElem?_append_left hlt] at hi
  exact hk hi

/-- Those behind the kernel were added, in slots past those of the kernel. -/
theorem Partial.added_of_le (h : Partial g kernel c) {i : Nat} {item : Item}
    (hi : c.items[i]? = some item) (hle : kernel.size ≤ i) :
    kernel.size ≤ item.slot ∧ ∃ r, Added g kernel c item r := by
  obtain ⟨added, hitems, -, hadded⟩ := h.items_eq
  rw [hitems, Array.getElem?_append_right hle] at hi
  obtain ⟨r, hr⟩ := hadded item (List.mem_toArray.mp (Array.mem_of_getElem? hi))
  exact ⟨(h.slot_range hr.slot).1, r, hr⟩

/-- Every item belongs to the closure. -/
theorem Partial.sound (h : Partial g kernel c) {d : Core} (hd : HasCore c.items d) :
    InClosure g (HasCore kernel) d := by
  obtain ⟨item, hmem, rfl⟩ := hd
  rcases h.mem_items hmem with hmem | ⟨r, hr⟩
  · exact .kernel ⟨item, hmem, rfl⟩
  · rw [hr.core]
    exact hr.expected.inClosure hr.rule_lt rfl

/-- There are at most as many items as kernel items and rules. -/
theorem Partial.size_le (h : Partial g kernel c) : c.items.size ≤ kernel.size + g.rules.size := by
  obtain ⟨added, hitems, hnodup, hadded⟩ := h.items_eq
  -- a rule is added once, so its number is found once among the added items
  have hinj : (added.map (·.core.rule)).Nodup := by
    rw [show (added.map (·.core.rule)) = (added.map (·.core)).map (·.rule) by simp]
    refine hnodup.map_on fun c hc d hd heq => ?_
    obtain ⟨item, hitem, rfl⟩ := List.mem_map.mp hc
    obtain ⟨item', hitem', rfl⟩ := List.mem_map.mp hd
    obtain ⟨r, hr⟩ := hadded item hitem
    obtain ⟨r', hr'⟩ := hadded item' hitem'
    rw [hr.core, hr'.core] at heq ⊢
    exact congrArg (Core.mk · 0) heq
  have hsub : added.map (·.core.rule) ⊆ List.range g.rules.size := by
    intro r hr
    obtain ⟨item, hitem, rfl⟩ := List.mem_map.mp hr
    obtain ⟨r, hr⟩ := hadded item hitem
    rw [hr.core]
    exact List.mem_range.mpr hr.rule_lt
  have hlen := (hinj.subperm hsub).length_le
  rw [List.length_map, List.length_range] at hlen
  have hsize : c.items.size = kernel.size + added.length := by simp [hitems]
  omega

/-! ## What a step keeps

  Later steps need earlier ones only in what they added: `Extends` is all that is carried over
  the rest of a search or of a walk.  A step is then shown to keep `Partial`, and to extend. -/

/-- Nothing is taken back: items, slots and marks stay. -/
structure Extends (c c' : Closure) : Prop where
  slot : ∀ {a s : Nat}, c.slot? a = some s → c'.slot? a = some s
  opened : ∀ {a : Nat}, c.isOpened a → c'.isOpened a
  searched : ∀ {a : Nat}, c.isSearched a → c'.isSearched a
  items : ∃ new : List Item, c'.items = c.items ++ new.toArray

theorem Extends.refl (c : Closure) : Extends c c :=
  ⟨id, id, id, [], by simp⟩

theorem Extends.trans {c c' c'' : Closure} (h : Extends c c') (h' : Extends c' c'') :
    Extends c c'' := by
  refine ⟨fun hs => h'.slot (h.slot hs), fun ho => h'.opened (h.opened ho),
    fun hs => h'.searched (h.searched hs), ?_⟩
  obtain ⟨new, hnew⟩ := h.items
  obtain ⟨new', hnew'⟩ := h'.items
  exact ⟨new ++ new', by rw [hnew', hnew]; simp⟩

theorem Extends.hasCore {c c' : Closure} (h : Extends c c') {d : Core} (hd : HasCore c.items d) :
    HasCore c'.items d := by
  obtain ⟨new, hnew⟩ := h.items
  rw [hnew]
  exact HasCore.append.mpr (Or.inl hd)

/-- The rules that are there stay there. -/
theorem Extends.hasRule {c c' : Closure} (h : Extends c c') {r : Nat} (hr : HasRule g c.items r) :
    HasRule g c'.items r := by
  obtain ⟨item, hmem, hitem⟩ := hr
  obtain ⟨new, hnew⟩ := h.items
  exact ⟨item, hnew ▸ Array.mem_append_left _ hmem, hitem⟩

/-- Every item keeps its place. -/
theorem Extends.getElem? {c c' : Closure} (h : Extends c c') {i : Nat} {item : Item}
    (hi : c.items[i]? = some item) : c'.items[i]? = some item := by
  obtain ⟨new, hnew⟩ := h.items
  rw [hnew, Array.getElem?_append_left (Array.getElem?_eq_some_iff.mp hi).1]
  exact hi

/-- An added item stays what it is. -/
theorem Added.mono {c c' : Closure} {item : Item} {r : Nat} (h : Added g kernel c item r)
    (hext : Extends c c') : Added g kernel c' item r where
  core := h.core
  rule_lt := h.rule_lt
  origin := h.origin
  slot := hext.slot h.slot
  expected := h.expected
  opened hr := hext.opened (h.opened hr)
  searched hr := hext.searched (h.searched hr)

/-- What was added stays right while slots and marks are added. -/
theorem Partial.added_mono (h : Partial g kernel c) {c' : Closure} (hext : Extends c c')
    (hitems : c'.items = c.items) : ∃ added : List Item, c'.items = kernel ++ added.toArray ∧
      (added.map (·.core)).Nodup ∧ ∀ item ∈ added, ∃ r, Added g kernel c' item r := by
  obtain ⟨added, heq, hnodup, hadded⟩ := h.items_eq
  refine ⟨added, hitems.trans heq, hnodup, fun item hmem => ?_⟩
  obtain ⟨r, hr⟩ := hadded item hmem
  exact ⟨r, hr.mono hext⟩

/-- A nonterminal is marked as opened. -/
theorem Partial.setOpened (h : Partial g kernel c) {a : Nat} (ha : a < g.nonterminalCount)
    {c' : Closure} (hc' : { c with opened := c.opened.setIfInBounds a true } = c') :
    Partial g kernel c' ∧ Extends c c' ∧ ∀ b, c'.isOpened b ↔ b = a ∨ c.isOpened b := by
  subst hc'
  have hopen := getD_setIfInBounds_true (h.size_opened ▸ ha)
  have hext : Extends c { c with opened := c.opened.setIfInBounds a true } :=
    ⟨id, fun {b} hb => (hopen b).mpr (Or.inr hb), id, [], by simp⟩
  exact ⟨⟨h.size_slotOf, Array.size_setIfInBounds.trans h.size_opened, h.size_searched, h.slots_le,
    h.slot_range, h.slot_inj, h.added_mono hext rfl⟩, hext, hopen⟩

/-- A nonterminal is marked as searched. -/
theorem Partial.setSearched (h : Partial g kernel c) {a : Nat} (ha : a < g.nonterminalCount)
    {c' : Closure} (hc' : { c with searched := c.searched.setIfInBounds a true } = c') :
    Partial g kernel c' ∧ Extends c c' ∧ ∀ b, c'.isSearched b ↔ b = a ∨ c.isSearched b := by
  subst hc'
  have hsearch := getD_setIfInBounds_true (h.size_searched ▸ ha)
  have hext : Extends c { c with searched := c.searched.setIfInBounds a true } :=
    ⟨id, id, fun {b} hb => (hsearch b).mpr (Or.inr hb), [], by simp⟩
  exact ⟨⟨h.size_slotOf, h.size_opened, Array.size_setIfInBounds.trans h.size_searched, h.slots_le,
    h.slot_range, h.slot_inj, h.added_mono hext rfl⟩, hext, hsearch⟩

/-- A rule is not brought in before its left side was opened or, if it is empty, searched. -/
theorem Partial.fresh (hk : IsNumbered kernel) (h : Partial g kernel c) {r : Nat}
    (hnot : ¬ ((g.rule r).rhs ≠ [] → c.isOpened (g.rule r).lhs) ∨
      ¬ ((g.rule r).rhs = [] → c.isSearched (g.rule r).lhs)) : ¬ HasRule g c.items r := by
  rintro ⟨item, hmem, hcore, horigin⟩
  rcases h.mem_items hmem with hmem | ⟨r', hr'⟩
  · rw [hk.origin_eq hmem] at horigin
    exact absurd horigin (by simp)
  · rw [hr'.core] at hcore
    injection hcore with hr
    subst hr
    exact hnot.elim (fun h => h hr'.opened) (fun h => h hr'.searched)

/-- One more rule may be added if it is not there yet. -/
theorem Partial.addItem (h : Partial g kernel c) {r s : Nat} (hr : r < g.rules.size)
    (hs : c.slot? (g.rule r).lhs = some s) (hexp : Expected g kernel (g.rule r).lhs)
    (ho : (g.rule r).rhs ≠ [] → c.isOpened (g.rule r).lhs)
    (hse : (g.rule r).rhs = [] → c.isSearched (g.rule r).lhs)
    (hfresh : ¬ HasRule g c.items r) : Partial g kernel (c.addItem (g.rule r).lhs s r) where
  size_slotOf := h.size_slotOf
  size_opened := h.size_opened
  size_searched := h.size_searched
  slots_le := h.slots_le
  slot_range := h.slot_range
  slot_inj := h.slot_inj
  items_eq := by
    obtain ⟨added, hitems, hnodup, hadded⟩ := h.items_eq
    refine ⟨added ++ [⟨⟨r, 0⟩, some (g.rule r).lhs, s⟩], ?_, ?_, fun item hmem => ?_⟩
    · simp [Closure.addItem, hitems]
    · rw [List.map_append, List.nodup_append]
      -- an item with the same core would be of the same rule, and that is not there
      refine ⟨hnodup, List.nodup_singleton _, fun d hd d' hd' heq => hfresh ?_⟩
      obtain ⟨item, hitem, rfl⟩ := List.mem_map.mp hd
      obtain ⟨r', hr'⟩ := hadded item hitem
      have hcore : item.core = ⟨r, 0⟩ := heq.trans (List.mem_singleton.mp hd')
      have hsame : r' = r := by
        have heq := hr'.core.symm.trans hcore
        injection heq
      exact ⟨item, by rw [hitems]; simp [hitem], hcore, hsame ▸ hr'.origin⟩
    · rcases List.mem_append.mp hmem with hmem | hmem
      · obtain ⟨r', hr'⟩ := hadded item hmem
        exact ⟨r', hr'.core, hr'.rule_lt, hr'.origin, hr'.slot, hr'.expected, hr'.opened,
          hr'.searched⟩
      · rw [List.mem_singleton.mp hmem]
        exact ⟨r, rfl, hr, rfl, hs, hexp, ho, hse⟩

/-- Adding an item takes nothing away. -/
theorem extends_addItem (c : Closure) (a s r : Nat) : Extends c (c.addItem a s r) :=
  ⟨id, id, id, [⟨⟨r, 0⟩, some a, s⟩], by simp [addItem]⟩

/-- It adds one rule. -/
theorem hasRule_addItem {c : Closure} {a s r q : Nat} (hlhs : (g.rule r).lhs = a) :
    HasRule g (c.addItem a s r).items q ↔ HasRule g c.items q ∨ q = r := by
  rw [addItem]
  constructor
  · rintro ⟨item, hmem, hcore, horigin⟩
    rcases Array.mem_push.mp hmem with hmem | rfl
    · exact Or.inl ⟨item, hmem, hcore, horigin⟩
    · injection hcore with hr
      exact Or.inr hr.symm
  · rintro (⟨item, hmem, hitem⟩ | rfl)
    · exact ⟨item, Array.mem_push.mpr (Or.inl hmem), hitem⟩
    · exact ⟨_, Array.mem_push.mpr (Or.inr rfl), rfl, congrArg some hlhs.symm⟩

/-- The next slot, which no nonterminal has, goes to a nonterminal that has none. -/
theorem Partial.newSlot (h : Partial g kernel c) {a : Nat} (ha : a < g.nonterminalCount)
    (hnone : c.slot? a = none) {c' : Closure} (hc' : { c with
      slots := c.slots + 1, slotOf := c.slotOf.setIfInBounds a (some c.slots) } = c') :
    Partial g kernel c' ∧ Extends c c' ∧ c'.slot? a = some c.slots := by
  have hitems : c'.items = c.items := by rw [← hc']
  have hslots : c'.slots = c.slots + 1 := by rw [← hc']
  have hget : ∀ b, c'.slot? b = if a = b then some c.slots else c.slot? b := by
    intro b
    rw [← hc', slot?, getD_setIfInBounds, h.size_slotOf]
    simp [ha, slot?]
  -- the slots in use all lie below
  have hnew : ∀ b, c.slot? b ≠ some c.slots := fun b hb => Nat.lt_irrefl _ (h.slot_range hb).2
  have hext : Extends c c' := by
    refine ⟨fun {b s} hs => ?_, fun hb => by rwa [← hc'], fun hb => by rwa [← hc'], [], by
      simp [hitems]⟩
    rw [hget, if_neg (fun hab => ?_), hs]
    rw [← hab, hnone] at hs
    exact absurd hs (by simp)
  have hle := h.slots_le
  refine ⟨⟨?_, by rw [← hc']; exact h.size_opened, by rw [← hc']; exact h.size_searched, by omega,
    fun {b s} hs => ?_, fun {b d s} hb hd => ?_, h.added_mono hext hitems⟩, hext, ?_⟩
  · rw [← hc']
    exact Array.size_setIfInBounds.trans h.size_slotOf
  · rw [hget] at hs
    split at hs
    · injection hs with hs
      omega
    · have := h.slot_range hs
      omega
  · rw [hget] at hb hd
    split at hb <;> split at hd
    · omega
    · exact absurd (hd.trans hb.symm) (hnew d)
    · exact absurd (hb.trans hd.symm) (hnew b)
    · exact h.slot_inj hb hd
  · rw [hget, if_pos rfl]

/-- A reservation gives the nonterminal a slot and changes nothing else. -/
theorem Partial.reserve (h : Partial g kernel c) {a : Nat} (ha : a < g.nonterminalCount) :
    Partial g kernel (c.reserve a).1 ∧ Extends c (c.reserve a).1 ∧
      (c.reserve a).1.slot? a = some (c.reserve a).2 ∧ (c.reserve a).1.items = c.items ∧
      (c.reserve a).1.opened = c.opened ∧ (c.reserve a).1.searched = c.searched := by
  unfold Closure.reserve
  split
  · rename_i slot hslot
    exact ⟨h, .refl c, hslot, rfl, rfl, rfl⟩
  · rename_i hnone
    obtain ⟨hp, hext, hslot⟩ := h.newSlot ha hnone rfl
    exact ⟨hp, hext, hslot, rfl, rfl, rfl⟩

/-! ## The non-empty rules of a nonterminal

  A nonterminal is opened once, and then all of its rules that are not empty get in.  Empty ones
  are left for the search, which may come upon them in front of a nonterminal that was not
  opened. -/

/-- Of every opened nonterminal the non-empty rules are there, of every searched one the empty
    rules. -/
structure Filled (g : Grammar) (c : Closure) : Prop where
  nonempty : ∀ {r : Nat}, r < g.rules.size → (g.rule r).rhs ≠ [] → c.isOpened (g.rule r).lhs →
    HasRule g c.items r
  empty : ∀ {r : Nat}, r < g.rules.size → (g.rule r).rhs = [] → c.isSearched (g.rule r).lhs →
    HasRule g c.items r

/-- Only the items and the marks count. -/
theorem Filled.congr {c c' : Closure} (h : Filled g c) (hitems : c'.items = c.items)
    (hopened : c'.opened = c.opened) (hsearched : c'.searched = c.searched) : Filled g c' := by
  refine ⟨fun {r} hr hne ho => ?_, fun {r} hr he hs => ?_⟩
  · rw [isOpened, hopened] at ho
    exact hitems ▸ h.nonempty hr hne ho
  · rw [isSearched, hsearched] at hs
    exact hitems ▸ h.empty hr he hs

/-- Before the first nonterminal is opened, there is nothing to fill in. -/
theorem Filled.start (g : Grammar) (kernel : Array Item) : Filled g (Closure.start g kernel) := by
  have hnone : ∀ a, ¬ (Closure.start g kernel).isOpened a ∧
      ¬ (Closure.start g kernel).isSearched a := by
    intro a
    rw [isOpened, isSearched, Closure.start, getD_replicate]
    exact ⟨Bool.false_ne_true, Bool.false_ne_true⟩
  exact ⟨fun _ _ ho => absurd ho (hnone _).1, fun _ _ hs => absurd hs (hnone _).2⟩

/-- Adding rules of one nonterminal: all that are not empty get in, behind what is there. -/
theorem Partial.foldl_addItem {a s : Nat} (rs : List Nat)
    (hrs : ∀ r ∈ rs, r < g.rules.size ∧ (g.rule r).lhs = a) (hnodup : rs.Nodup) {c : Closure}
    (h : Partial g kernel c) (hs : c.slot? a = some s) (hexp : Expected g kernel a)
    (ho : c.isOpened a) (hfresh : ∀ r ∈ rs, (g.rule r).rhs ≠ [] → ¬ HasRule g c.items r) :
    ∃ c', rs.foldl (fun c r => if (g.rule r).rhs.isEmpty then c else c.addItem a s r) c = c' ∧
      Partial g kernel c' ∧ Extends c c' ∧ c'.opened = c.opened ∧ c'.searched = c.searched ∧
      ∀ r ∈ rs, (g.rule r).rhs ≠ [] → HasRule g c'.items r := by
  induction rs generalizing c with
  | nil => exact ⟨c, rfl, h, .refl c, rfl, rfl, fun r hr => absurd hr List.not_mem_nil⟩
  | cons r rs ih =>
    have hrs' : ∀ q ∈ rs, q < g.rules.size ∧ (g.rule q).lhs = a :=
      fun q hq => hrs q (List.mem_cons_of_mem _ hq)
    obtain ⟨hnot, hnodup'⟩ := List.nodup_cons.mp hnodup
    rw [List.foldl_cons]
    by_cases hempty : (g.rule r).rhs = []
    · rw [if_pos (by rw [hempty]; rfl)]
      obtain ⟨c', hc', hp, hext, hop, hse, hall⟩ := ih hrs' hnodup' h hs ho
        fun q hq => hfresh q (List.mem_cons_of_mem _ hq)
      refine ⟨c', hc', hp, hext, hop, hse, fun q hq hne => ?_⟩
      rcases List.mem_cons.mp hq with rfl | hq
      · exact absurd hempty hne
      · exact hall q hq hne
    · rw [if_neg (by rw [List.isEmpty_iff]; exact hempty)]
      obtain ⟨hr, hlhs⟩ := hrs r (List.mem_cons_self ..)
      have hone : Partial g kernel (c.addItem a s r) := by
        rw [← hlhs]
        exact h.addItem hr (hlhs ▸ hs) (hlhs ▸ hexp) (fun _ => hlhs ▸ ho)
          (fun he => absurd he hempty) (hfresh r (List.mem_cons_self ..) hempty)
      -- a rule is listed once, so the one just added is not met again
      have hfresh' : ∀ q ∈ rs, (g.rule q).rhs ≠ [] → ¬ HasRule g (c.addItem a s r).items q := by
        intro q hq hne hrule
        rcases (hasRule_addItem hlhs).mp hrule with hrule | rfl
        · exact hfresh q (List.mem_cons_of_mem _ hq) hne hrule
        · exact hnot hq
      obtain ⟨c', hc', hp, hext, hop, hse, hall⟩ := ih hrs' hnodup' hone hs ho hfresh'
      refine ⟨c', hc', hp, (extends_addItem c a s r).trans hext, hop, hse, fun q hq hne => ?_⟩
      rcases List.mem_cons.mp hq with rfl | hq
      · exact hext.hasRule ((hasRule_addItem hlhs).mpr (Or.inr rfl))
      · exact hall q hq hne

/-- Opening a nonterminal adds its rules that are not empty, unless it has been opened. -/
theorem Partial.addRules (wf : g.WellFormed) (hk : IsNumbered kernel) (h : Partial g kernel c)
    (hf : Filled g c) {a s : Nat} (hs : c.slot? a = some s) (hexp : Expected g kernel a) :
    Partial g kernel (c.addRules g a s) ∧ Extends c (c.addRules g a s) ∧
      Filled g (c.addRules g a s) ∧ (c.addRules g a s).isOpened a := by
  have ha := (hexp.bounds wf).2
  unfold Closure.addRules
  split
  · rename_i ho
    exact ⟨h, .refl c, hf, ho⟩
  · rename_i hnot
    obtain ⟨hmarked, hext, hopen⟩ := h.setOpened ha rfl
    have hrules : ∀ r ∈ g.rulesOf a, r < g.rules.size ∧ (g.rule r).lhs = a :=
      fun r hr => (Grammar.mem_rulesOf ha).mp hr
    obtain ⟨c', hc', hp, hext', hop, hse, hall⟩ := hmarked.foldl_addItem (g.rulesOf a) hrules
      (g.nodup_rulesOf a) hs hexp ((hopen a).mpr (Or.inl rfl)) fun r hr hne => by
        -- `a` was not opened before, so no rule of `a` is there yet
        obtain ⟨-, hlhs⟩ := hrules r hr
        exact h.fresh hk (Or.inl fun ho => hnot (hlhs ▸ ho hne))
    rw [hc']
    refine ⟨hp, hext.trans hext', ⟨fun {r} hr hne ho => ?_, fun {r} hr he hsr => ?_⟩, ?_⟩
    · rw [isOpened, hop] at ho
      rcases (hopen _).mp ho with hlhs | ho
      · exact hall r ((Grammar.mem_rulesOf ha).mpr ⟨hr, hlhs⟩) hne
      · exact (hext.trans hext').hasRule (hf.nonempty hr hne ho)
    · rw [isSearched, hse] at hsr
      exact (hext.trans hext').hasRule (hf.empty hr he hsr)
    · rw [isOpened, hop]
      exact (hopen a).mpr (Or.inl rfl)

/-! ## Empty rules

  A search goes down from a nonterminal to those that its rules begin with.  The induction is on
  the depth.  A nonterminal counts as searched from the moment its search begins, so `Fills` has
  to allow for those whose searches are still under way. -/

/-- What a search for empty rules does: it adds empty rules of nonterminals that were not searched
    before, or are of those allowed, and of each nonterminal that it searches it adds all. -/
structure Fills (g : Grammar) (allowed : Nat → Prop) (c c' : Closure) : Prop where
  extends' : Extends c c'
  opened : c'.opened = c.opened
  new : ∀ {r : Nat}, HasRule g c'.items r → HasRule g c.items r ∨
    ((g.rule r).rhs = [] ∧ (allowed (g.rule r).lhs ∨ ¬ c.isSearched (g.rule r).lhs))
  filled : ∀ {a : Nat}, c'.isSearched a → c.isSearched a ∨
    ∀ r, r < g.rules.size → (g.rule r).lhs = a → (g.rule r).rhs = [] → HasRule g c'.items r

theorem Fills.refl (g : Grammar) (allowed : Nat → Prop) (c : Closure) : Fills g allowed c c :=
  ⟨.refl c, rfl, Or.inl, Or.inl⟩

theorem Fills.trans {allowed : Nat → Prop} {c c' c'' : Closure} (h : Fills g allowed c c')
    (h' : Fills g allowed c' c'') : Fills g allowed c c'' := by
  refine ⟨h.extends'.trans h'.extends', h'.opened.trans h.opened, fun {r} hr => ?_,
    fun {a} ha => ?_⟩
  · rcases h'.new hr with hr | ⟨he, hl⟩
    · exact h.new hr
    · exact Or.inr ⟨he, hl.imp id fun hns hs => hns (h.extends'.searched hs)⟩
  · rcases h'.filled ha with ha | hall
    · rcases h.filled ha with ha | hall
      · exact Or.inl ha
      · exact Or.inr fun r hr hl he => h'.extends'.hasRule (hall r hr hl he)
    · exact Or.inr hall

/-- It does no harm to allow more. -/
theorem Fills.weaken {allowed allowed' : Nat → Prop} {c c' : Closure} (h : Fills g allowed c c')
    (himp : ∀ a, allowed a → allowed' a) : Fills g allowed' c c' :=
  ⟨h.extends', h.opened, fun hr => (h.new hr).imp id fun hn => ⟨hn.1, hn.2.imp (himp _) id⟩,
    h.filled⟩

/-- One empty rule of a nonterminal that is being searched. -/
theorem Partial.addEmptyRule (wf : g.WellFormed) (h : Partial g kernel c) {r : Nat}
    (hr : r < g.rules.size) (he : (g.rule r).rhs = []) (hexp : Expected g kernel (g.rule r).lhs)
    (hs : c.isSearched (g.rule r).lhs) (hfresh : ¬ HasRule g c.items r) :
    ∃ c', c.addEmptyRule (g.rule r).lhs r = c' ∧ Partial g kernel c' ∧
      Fills g (· = (g.rule r).lhs) c c' ∧
      ∀ q, HasRule g c'.items q ↔ HasRule g c.items q ∨ q = r := by
  obtain ⟨hp, hext, hslot, hitems, hop, hse⟩ := h.reserve (wf.lhs_lt hr)
  have hsearched : (c.reserve (g.rule r).lhs).1.isSearched (g.rule r).lhs := by
    rw [isSearched, hse]
    exact hs
  have hadd := hp.addItem hr hslot hexp (fun hne => absurd he hne) (fun _ => hsearched)
    (by rw [hitems]; exact hfresh)
  have hrule : ∀ q, HasRule g ((c.reserve (g.rule r).lhs).1.addItem (g.rule r).lhs
      (c.reserve (g.rule r).lhs).2 r).items q ↔ HasRule g c.items q ∨ q = r := by
    intro q
    rw [hasRule_addItem rfl, hitems]
  -- that the empty rules are counted changes nothing here
  have hcount : Extends ((c.reserve (g.rule r).lhs).1.addItem (g.rule r).lhs
      (c.reserve (g.rule r).lhs).2 r) (c.addEmptyRule (g.rule r).lhs r) :=
    ⟨id, id, id, [], (Array.append_empty ..).symm⟩
  refine ⟨_, rfl, ⟨hadd.size_slotOf, hadd.size_opened, hadd.size_searched, hadd.slots_le,
    hadd.slot_range, hadd.slot_inj, hadd.added_mono hcount rfl⟩,
    ⟨(hext.trans (extends_addItem ..)).trans hcount, hop, fun {q} hq => ?_, fun {a} ha => ?_⟩,
      hrule⟩
  · rcases (hrule _).mp hq with hq | rfl
    · exact Or.inl hq
    · exact Or.inr ⟨he, Or.inl rfl⟩
  · have ha : (c.reserve (g.rule r).lhs).1.searched.getD a false = true := ha
    rw [hse] at ha
    exact Or.inl ha

/-- What a search does with rule `r` of nonterminal `a`. -/
def searchRule (g : Grammar) (e : LeadingEmpty) (depth a : Nat) (c : Closure) (r : Nat) : Closure :=
  match (g.rule r).rhs with
  | [] => c.addEmptyRule a r
  | .nonterminal b :: _ => addEmpty g e depth c b
  | .terminal _ :: _ => c

/-- The search for empty rules, one level at a time. -/
theorem addEmpty_succ (depth : Nat) (c : Closure) (a : Nat) :
    addEmpty g e (depth + 1) c a =
      if c.searched.getD a false || !e.isMarked a then c
      else (g.rulesOf a).foldl (searchRule g e depth a)
        { c with searched := c.searched.setIfInBounds a true } := rfl

/-- An empty rule is added. -/
theorem searchRule_empty {depth a r : Nat} (c : Closure) (h : (g.rule r).rhs = []) :
    searchRule g e depth a c r = c.addEmptyRule a r := by
  rw [searchRule, h]

/-- A rule that begins with a nonterminal leads on to that one. -/
theorem searchRule_nonterminal {depth a r b : Nat} {rest : List Symbol} (c : Closure)
    (h : (g.rule r).rhs = .nonterminal b :: rest) :
    searchRule g e depth a c r = addEmpty g e depth c b := by
  rw [searchRule, h]

/-- A rule that begins with a terminal leads nowhere. -/
theorem searchRule_terminal {depth a r t : Nat} {rest : List Symbol} (c : Closure)
    (h : (g.rule r).rhs = .terminal t :: rest) : searchRule g e depth a c r = c := by
  rw [searchRule, h]

/-- What one rule of a nonterminal that is being searched does, if searches of less depth do as they
    should: it is there afterwards if it is empty, and no other empty rule of the nonterminal is
    brought in. -/
theorem Partial.searchRule (wf : g.WellFormed) {depth : Nat}
    (ih : ∀ (c : Closure) (b : Nat), Partial g kernel c → Expected g kernel b →
      Partial g kernel (addEmpty g e depth c b) ∧
        Fills g (fun _ => False) c (addEmpty g e depth c b))
    {r : Nat} (hr : r < g.rules.size) (hexp : Expected g kernel (g.rule r).lhs) {c : Closure}
    (h : Partial g kernel c) (hs : c.isSearched (g.rule r).lhs)
    (hfresh : (g.rule r).rhs = [] → ¬ HasRule g c.items r) :
    ∃ c', searchRule g e depth (g.rule r).lhs c r = c' ∧ Partial g kernel c' ∧
      Fills g (· = (g.rule r).lhs) c c' ∧ ((g.rule r).rhs = [] → HasRule g c'.items r) ∧
      ∀ q, q ≠ r → (g.rule q).lhs = (g.rule r).lhs → HasRule g c'.items q →
        HasRule g c.items q := by
  cases hrhs : (g.rule r).rhs with
  | nil =>
    rw [searchRule_empty c hrhs]
    obtain ⟨c', hc', hp, hfill, hrule⟩ := h.addEmptyRule wf hr hrhs hexp hs (hfresh hrhs)
    exact ⟨c', hc', hp, hfill, fun _ => (hrule r).mpr (Or.inr rfl),
      fun q hq _ hin => ((hrule q).mp hin).resolve_right hq⟩
  | cons x rest =>
    cases x with
    | terminal t =>
      rw [searchRule_terminal c hrhs]
      exact ⟨c, rfl, h, .refl g _ c, fun he => absurd he (by simp), fun q _ _ hin => hin⟩
    | nonterminal b =>
      rw [searchRule_nonterminal c hrhs]
      have hb : Expected g kernel b := by
        refine ⟨⟨r, 0⟩, hexp.inClosure hr rfl, Core.next?_eq_some.mpr ⟨rest, ?_⟩⟩
        rw [Core.afterDot_eq, List.drop_zero, hrhs]
      obtain ⟨hp, hfill⟩ := ih c b h hb
      refine ⟨_, rfl, hp, hfill.weaken fun _ hf => hf.elim, fun he => absurd he (by simp),
        fun q _ hlhs hin => ?_⟩
      -- the nonterminal has its mark, so a search of less depth leaves its rules alone
      rcases hfill.new hin with hin | ⟨-, hf | hns⟩
      · exact hin
      · exact hf.elim
      · exact absurd (hlhs ▸ hs) hns

/-- The rules of a nonterminal that is being searched, one after the other. -/
theorem Partial.foldl_searchRule (wf : g.WellFormed) {depth : Nat}
    (ih : ∀ (c : Closure) (b : Nat), Partial g kernel c → Expected g kernel b →
      Partial g kernel (addEmpty g e depth c b) ∧
        Fills g (fun _ => False) c (addEmpty g e depth c b))
    {a : Nat} (hexp : Expected g kernel a) (rs : List Nat)
    (hrs : ∀ r ∈ rs, r < g.rules.size ∧ (g.rule r).lhs = a) (hnodup : rs.Nodup) {c : Closure}
    (h : Partial g kernel c) (hs : c.isSearched a)
    (hfresh : ∀ r ∈ rs, (g.rule r).rhs = [] → ¬ HasRule g c.items r) :
    ∃ c', rs.foldl (Closure.searchRule g e depth a) c = c' ∧ Partial g kernel c' ∧
      Fills g (· = a) c c' ∧ ∀ r ∈ rs, (g.rule r).rhs = [] → HasRule g c'.items r := by
  induction rs generalizing c with
  | nil => exact ⟨c, rfl, h, .refl g _ c, fun r hr => absurd hr List.not_mem_nil⟩
  | cons r rs ihrs =>
    obtain ⟨hr, rfl⟩ := hrs r (List.mem_cons_self ..)
    have hrs' : ∀ q ∈ rs, q < g.rules.size ∧ (g.rule q).lhs = (g.rule r).lhs :=
      fun q hq => hrs q (List.mem_cons_of_mem _ hq)
    obtain ⟨hnot, hnodup'⟩ := List.nodup_cons.mp hnodup
    obtain ⟨c₁, hc₁, hp, hfill, hhere, hothers⟩ :=
      h.searchRule wf ih hr hexp hs (hfresh r (List.mem_cons_self ..))
    -- the rules that are left are still missing
    have hfresh' : ∀ q ∈ rs, (g.rule q).rhs = [] → ¬ HasRule g c₁.items q := fun q hq he hin =>
      hfresh q (List.mem_cons_of_mem _ hq) he
        (hothers q (fun heq => hnot (heq ▸ hq)) (hrs' q hq).2 hin)
    obtain ⟨c', hc', hp', hfill', hall⟩ := ihrs hrs' hnodup' hp (hfill.extends'.searched hs) hfresh'
    rw [List.foldl_cons, hc₁]
    refine ⟨c', hc', hp', hfill.trans hfill', fun q hq hqe => ?_⟩
    rcases List.mem_cons.mp hq with rfl | hq
    · exact hfill'.extends'.hasRule (hhere hqe)
    · exact hall q hq hqe

/-- A search keeps the invariant, and finds all empty rules of what it searches; it does search a
    nonterminal with a mark. -/
theorem Partial.addEmpty (wf : g.WellFormed) (hk : IsNumbered kernel) (depth : Nat) (c : Closure)
    (a : Nat) (h : Partial g kernel c) (hexp : Expected g kernel a) :
    Partial g kernel (addEmpty g e depth c a) ∧
      Fills g (fun _ => False) c (addEmpty g e depth c a) ∧
      (0 < depth → e.isMarked a = true → (addEmpty g e depth c a).isSearched a) := by
  induction depth generalizing c a with
  | zero => exact ⟨h, .refl g _ c, fun h0 => absurd h0 (Nat.lt_irrefl 0)⟩
  | succ depth ih =>
    have ha := (hexp.bounds wf).2
    rw [addEmpty_succ]
    split
    · rename_i hcond
      refine ⟨h, .refl g _ c, fun _ hm => ?_⟩
      rw [hm, Bool.not_true, Bool.or_false] at hcond
      exact hcond
    · rename_i hcond
      have hnot : ¬ c.isSearched a := fun hs => hcond (by
        rw [isSearched] at hs
        rw [hs, Bool.true_or])
      -- the mark comes first, so that a deeper search passes this nonterminal by
      obtain ⟨hmarked, hext, hsearch⟩ := h.setSearched ha rfl
      have hrules : ∀ r ∈ g.rulesOf a, r < g.rules.size ∧ (g.rule r).lhs = a :=
        fun r hr => (Grammar.mem_rulesOf ha).mp hr
      -- no rule of it can be there: an empty one would need the mark
      obtain ⟨c', hc', hp, hfill, hall⟩ := hmarked.foldl_searchRule wf
        (fun c b hc hb => ⟨(ih c b hc hb).1, (ih c b hc hb).2.1⟩) hexp (g.rulesOf a) hrules
        (g.nodup_rulesOf a) ((hsearch a).mpr (Or.inl rfl)) fun r hr he => by
          obtain ⟨-, hlhs⟩ := hrules r hr
          exact h.fresh hk (Or.inr fun hs => hnot (hlhs ▸ hs he))
      rw [hc']
      refine ⟨hp, ⟨hext.trans hfill.extends', hfill.opened, fun {r} hr => ?_, fun {b} hb => ?_⟩,
        fun _ _ => hfill.extends'.searched ((hsearch a).mpr (Or.inl rfl))⟩
      · rcases hfill.new hr with hr | ⟨he, hl | hns⟩
        · exact Or.inl hr
        · exact Or.inr ⟨he, Or.inr (hl ▸ hnot)⟩
        · exact Or.inr ⟨he, Or.inr fun hs => hns (hext.searched hs)⟩
      · rcases hfill.filled hb with hb | hb
        · rcases (hsearch b).mp hb with rfl | hb
          · exact Or.inr fun r hr hl he => hall r ((Grammar.mem_rulesOf ha).mpr ⟨hr, hl⟩) he
          · exact Or.inl hb
        · exact Or.inr hb

/-! ## The walk

  The walk visits the items in order, those included that it adds on its way.  The items in front
  of the place it has come to are visited, and visiting another one leaves them so. -/

/-- Everything that the symbol after the dot of the item calls for was looked for. -/
def Visited (g : Grammar) (e : LeadingEmpty) (c : Closure) (item : Item) : Prop :=
  ∀ a, item.core.next? g = some (.nonterminal a) →
    (∃ s, c.slot? a = some s) ∧ c.isOpened a ∧ (e.isMarked a = true → c.isSearched a)

/-- An item that was visited stays so. -/
theorem Visited.mono {c c' : Closure} {item : Item} (h : Visited g e c item)
    (hext : Extends c c') : Visited g e c' item := by
  intro a ha
  obtain ⟨⟨s, hs⟩, ho, hm⟩ := h a ha
  exact ⟨⟨s, hext.slot hs⟩, hext.opened ho, fun hmark => hext.searched (hm hmark)⟩

/-- Visiting an item opens the nonterminal after its dot, and searches it for empty rules. -/
theorem Partial.visit (wf : g.WellFormed) (hk : IsNumbered kernel) (h : Partial g kernel c)
    (hf : Filled g c) {item : Item} (hmem : item ∈ c.items) :
    Partial g kernel (c.visit g e item) ∧ Extends c (c.visit g e item) ∧
      Filled g (c.visit g e item) ∧ Visited g e (c.visit g e item) item := by
  unfold Closure.visit
  split
  · rename_i a hnext
    have hexp : Expected g kernel a := ⟨item.core, h.sound ⟨item, hmem, rfl⟩, hnext⟩
    -- three writes: the slot of the nonterminal, its rules, the empty rules behind it
    obtain ⟨hp, hext, hslot, hitems, hop, hse⟩ := h.reserve (hexp.bounds wf).2
    obtain ⟨hp₂, hext₂, hf₂, ho₂⟩ := hp.addRules wf hk (hf.congr hitems hop hse) hslot hexp
    obtain ⟨hp₃, hfill, hsearched⟩ := hp₂.addEmpty wf hk (e := e) (g.nonterminalCount + 1) _ a hexp
    have hext₃ := hfill.extends'
    refine ⟨hp₃, (hext.trans hext₂).trans hext₃, ⟨fun {r} hr hne ho => ?_, fun {r} hr he hs => ?_⟩,
      fun b hb => ?_⟩
    · have ho' : ((c.reserve a).1.addRules g a (c.reserve a).2).isOpened (g.rule r).lhs := by
        rw [isOpened, ← hfill.opened]
        exact ho
      exact hext₃.hasRule (hf₂.nonempty hr hne ho')
    · rcases hfill.filled hs with hs | hall
      · exact hext₃.hasRule (hf₂.empty hr he hs)
      · exact hall r hr rfl he
    · rw [hnext] at hb
      injection hb with hb
      injection hb with hb
      subst hb
      exact ⟨⟨_, hext₃.slot (hext₂.slot hslot)⟩, hext₃.opened ho₂, hsearched (Nat.succ_pos _)⟩
  · rename_i hnext
    exact ⟨h, .refl c, hf, fun a ha => absurd ha (hnext a)⟩

/-- The walk ends when every item was visited. -/
theorem Partial.walk (wf : g.WellFormed) (hk : IsNumbered kernel) (steps i : Nat) (c : Closure)
    (h : Partial g kernel c) (hf : Filled g c) (hi : i ≤ c.items.size)
    (hsteps : kernel.size + g.rules.size < steps + i)
    (hvisited : ∀ j item, j < i → c.items[j]? = some item → Visited g e c item) :
    Partial g kernel (walk g e steps i c) ∧ Extends c (walk g e steps i c) ∧
      Filled g (walk g e steps i c) ∧
      ∀ item ∈ (walk g e steps i c).items, Visited g e (walk g e steps i c) item := by
  induction steps generalizing i c with
  | zero =>
    have := h.size_le
    omega
  | succ steps ih =>
    rw [Closure.walk]
    split
    · rename_i hnone
      refine ⟨h, .refl c, hf, fun item hmem => ?_⟩
      obtain ⟨j, hj⟩ := Array.mem_iff_getElem?.mp hmem
      have hlt : j < c.items.size := (Array.getElem?_eq_some_iff.mp hj).1
      have hend : c.items.size ≤ i := Array.getElem?_eq_none_iff.mp hnone
      exact hvisited j item (by omega) hj
    · rename_i item hitem
      obtain ⟨hlt, hget⟩ := Array.getElem?_eq_some_iff.mp hitem
      have hmem : item ∈ c.items := Array.mem_of_getElem? hitem
      obtain ⟨hp, hext, hf', hvis⟩ := h.visit wf hk hf (e := e) hmem
      have hsize : c.items.size ≤ (c.visit g e item).items.size := by
        obtain ⟨new, hnew⟩ := hext.items
        simp [hnew]
      -- items are added behind the others, so those that were visited keep their places
      obtain ⟨hp', hext', hf'', hall⟩ := ih (i + 1) (c.visit g e item) hp hf' (by omega) (by omega)
        fun j item' hj hj' => by
          rcases Nat.lt_succ_iff_lt_or_eq.mp hj with hji | rfl
          · have hold : c.items[j]? = some item' := by
              have hjlt : j < c.items.size := by omega
              have := hext.getElem? (Array.getElem?_eq_getElem hjlt)
              rw [hj'] at this
              rw [Array.getElem?_eq_getElem hjlt, this]
            exact (hvisited j item' hji hold).mono hext
          · rw [hext.getElem? hitem] at hj'
            injection hj' with hj'
            exact hj' ▸ hvis
      exact ⟨hp', hext.trans hext', hf'', hall⟩

end Closure

/-! ## The computed closure

  At the end every item was visited, and the items are those of `InClosure`: induction on the
  relation in one direction, and `Partial.sound` in the other. -/

/-- What is known of the closure of a kernel. -/
structure IsClosure (g : Grammar) (kernel : Array Item) (c : Closure) : Prop where
  /-- it is right so far -/
  isPartial : Closure.Partial g kernel c
  /-- it has exactly the cores of a closure -/
  hasCore_iff : ∀ d, HasCore c.items d ↔ InClosure g (HasCore kernel) d
  /-- every nonterminal after a dot has a slot -/
  slotted : ∀ {item : Item} {a : Nat}, item ∈ c.items →
    item.core.next? g = some (.nonterminal a) → ∃ s, c.slot? a = some s

/-- Besides, each rule that is called for was brought in by its left side. -/
theorem Closure.ofKernel_spec {g : Grammar} (wf : g.WellFormed) {kernel : Array Item}
    (hk : IsNumbered kernel) :
    IsClosure g kernel (Closure.ofKernel g (LeadingEmpty.ofGrammar g) kernel) ∧
      ∀ r, r < g.rules.size → Closure.Expected g kernel (g.rule r).lhs →
        HasRule g (Closure.ofKernel g (LeadingEmpty.ofGrammar g) kernel).items r := by
  obtain ⟨hp, hext, hf, hvis⟩ := (Partial.start g kernel).walk wf hk
    (e := LeadingEmpty.ofGrammar g) (kernel.size + g.rules.size + 1) 0 (Closure.start g kernel)
    (.start g kernel) (Nat.zero_le _) (by omega) fun j item hj => absurd hj (Nat.not_lt_zero j)
  change Partial g kernel (Closure.ofKernel _ _ _) at hp
  -- the rules of the nonterminal after the dot of an item are brought in when the item is visited
  have hrules : ∀ {d : Core} {r : Nat},
      HasCore (Closure.ofKernel g (LeadingEmpty.ofGrammar g) kernel).items d →
      d.next? g = some (.nonterminal (g.rule r).lhs) → r < g.rules.size →
      HasRule g (Closure.ofKernel g (LeadingEmpty.ofGrammar g) kernel).items r := by
    rintro d r ⟨item, hmem, rfl⟩ hnext hr
    obtain ⟨-, ho, hm⟩ := hvis item hmem _ hnext
    by_cases he : (g.rule r).rhs = []
    · exact hf.empty hr he (hm (LeadingEmpty.isMarked_of_empty wf hr he))
    · exact hf.nonempty hr he ho
  have hcores : ∀ {d : Core}, InClosure g (HasCore kernel) d →
      HasCore (Closure.ofKernel g (LeadingEmpty.ofGrammar g) kernel).items d := by
    intro d hd
    induction hd with
    | kernel h => exact hext.hasCore h
    | rule _ hnext hr hlhs ih =>
      subst hlhs
      exact (hrules ih hnext hr).hasCore
  refine ⟨⟨hp, fun d => ⟨hp.sound, hcores⟩, fun {item a} hmem hnext => (hvis item hmem a hnext).1⟩,
    ?_⟩
  rintro r hr ⟨d, hd, hnext⟩
  exact hrules (hcores hd) hnext hr

/-- No core of a short rule is there twice. -/
theorem IsClosure.distinct {g : Grammar} (wf : g.WellFormed) {kernel : Array Item} {c : Closure}
    (hk : IsKernel g kernel) (h : IsClosure g kernel c) :
    Core.Distinct g (c.items.toList.map (·.core)) := by
  obtain ⟨added, hitems, hnodup, hadded⟩ := h.isPartial.items_eq
  rw [hitems, Array.toList_append, List.map_append, Core.Distinct, List.filter_append,
    List.nodup_append]
  refine ⟨hk.distinct, hnodup.filter _, fun d hd d' hd' heq => ?_⟩
  obtain ⟨hd, hshort⟩ := List.mem_filter.mp hd
  obtain ⟨item, hmem, rfl⟩ := List.mem_map.mp hd
  obtain ⟨item', hmem', rfl⟩ := List.mem_map.mp (List.mem_filter.mp hd').1
  obtain ⟨r, hr⟩ := hadded item' hmem'
  have hpos := (hr.expected.bounds wf).1
  rcases hk.moved item (Array.mem_toList_iff.mp hmem) hshort with hdot | hzero
  · rw [heq, hr.core] at hdot
    exact absurd hdot (Nat.lt_irrefl 0)
  · rw [heq, hr.core] at hzero
    injection hzero with hzero
    rw [hzero, wf.lhs_zero] at hpos
    exact absurd hpos (Nat.lt_irrefl 0)

end Lalr
