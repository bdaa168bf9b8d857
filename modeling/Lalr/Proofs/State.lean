/-
  Closed states, core by core.

  A state stores items, slots and a table of sets.  From here on only four facts about it are used:

    * `Has` and `KernelHas`     which cores its items, or its kernel items, have;
    * `Look` and `KernelLook`   which terminals are in the lookahead of a core.

  `Closed` says that a state is what `rebuild` makes of it (`rebuild_spec`).  Of a closed state the
  cores are the closure of the kernel's cores (`Closed.has_iff`), and the lookaheads are the least
  ones that `Gains` allows (`Closed.look_iff`).
-/
import Mathlib
import Lalr.Proofs.Spread

namespace Lalr

open SymbolSet

/-- Terminal `t` belongs into the lookahead of a core, if the kernel cores `K` have the
    lookaheads `L`. -/
inductive Gains (g : Grammar) (K : Core → Prop) (L : Core → Nat → Prop) : Core → Nat → Prop
  | kernel {c : Core} {t : Nat} (h : L c t) : Gains g K L c t
  | first {c : Core} {b r t : Nat} {beta : List Symbol} (hc : InClosure g K c)
      (hafter : c.afterDot g = .nonterminal b :: beta) (hr : r < g.rules.size)
      (hlhs : (g.rule r).lhs = b) (h : g.Begins t beta) : Gains g K L ⟨r, 0⟩ t
  | inherit {c : Core} {b r t : Nat} {beta : List Symbol} (hc : Gains g K L c t)
      (hafter : c.afterDot g = .nonterminal b :: beta) (hr : r < g.rules.size)
      (hlhs : (g.rule r).lhs = b) (hv : g.Vanishes beta) : Gains g K L ⟨r, 0⟩ t

namespace State

variable {g : Grammar} {s : State}

/-! ## What is said about a state

  Lookaheads are said of cores, not of items or slots.  Where a core is there twice, its
  lookahead is what the items with that core have together. -/

/-- An item of the state has the core. -/
def Has (s : State) (c : Core) : Prop :=
  HasCore s.items c

/-- A kernel item of the state has the core. -/
def KernelHas (s : State) (c : Core) : Prop :=
  HasCore s.kernel c

/-- Terminal `t` is in the lookahead of the core. -/
def Look (s : State) (c : Core) (t : Nat) : Prop :=
  ∃ item ∈ s.items, item.core = c ∧ t ∈ s.lookahead item

/-- Terminal `t` is in the lookahead of the core, which is one of the kernel. -/
def KernelLook (s : State) (c : Core) (t : Nat) : Prop :=
  ∃ item ∈ s.kernel, item.core = c ∧ t ∈ s.lookahead item

/-- The closure of the state's kernel. -/
def closure (g : Grammar) (s : State) : Closure :=
  Closure.ofKernel g (LeadingEmpty.ofGrammar g) s.kernel

/-- The kernel is one, and has lookaheads. -/
structure Proper (g : Grammar) (s : State) : Prop where
  kernel : IsKernel g s.kernel
  items_le : s.kernelSize ≤ s.items.size
  looks_le : s.kernelSize ≤ s.lookaheads.size
  looks_lt : ∀ {i t : Nat}, i < s.kernelSize → InTable s.lookaheads i t → t < g.terminalCount

/-- The items are the closure of the kernel, and the lookaheads are those that belong there. -/
structure Closed (g : Grammar) (s : State) : Prop where
  proper : Proper g s
  items_eq : s.items = (s.closure g).items
  size_eq : s.lookaheads.size = (s.closure g).slots
  flow_iff : ∀ i t, InTable s.lookaheads i t ↔
    Flow g (s.closure g) (s.lookaheads.take s.kernelSize) i t

theorem Proper.kernel_size (h : Proper g s) : s.kernel.size = s.kernelSize := by
  rw [State.kernel, Array.take_eq_extract, Array.size_extract]
  have := h.items_le
  omega

/-- A state that can be closed has its kernel's closure. -/
theorem Proper.isClosure (wf : g.WellFormed) (h : Proper g s) :
    IsClosure g s.kernel (s.closure g) :=
  (Closure.ofKernel_spec wf h.kernel.numbered).1

theorem mem_items_of_mem_kernel {item : Item} (h : item ∈ s.kernel) : item ∈ s.items := by
  rw [State.kernel, Array.take_eq_extract, Array.mem_iff_getElem?] at h
  obtain ⟨i, hi⟩ := h
  rw [Array.getElem?_extract] at hi
  split at hi
  · exact Array.mem_iff_getElem?.mpr ⟨_, hi⟩
  · exact absurd hi (by simp)

theorem KernelHas.has {c : Core} (h : s.KernelHas c) : s.Has c := by
  obtain ⟨item, hmem, rfl⟩ := h
  exact ⟨item, mem_items_of_mem_kernel hmem, rfl⟩

theorem KernelLook.look {c : Core} {t : Nat} (h : s.KernelLook c t) : s.Look c t := by
  obtain ⟨item, hmem, rfl, ht⟩ := h
  exact ⟨item, mem_items_of_mem_kernel hmem, rfl, ht⟩

theorem Look.has {c : Core} {t : Nat} (h : s.Look c t) : s.Has c := by
  obtain ⟨item, hmem, rfl, -⟩ := h
  exact ⟨item, hmem, rfl⟩

/-- The slots of kernel items are the first ones. -/
theorem Proper.slot_lt (h : Proper g s) {item : Item} (hmem : item ∈ s.kernel) :
    item.slot < s.kernelSize := by
  obtain ⟨i, hi⟩ := Array.mem_iff_getElem?.mp hmem
  rw [(h.kernel.slot hi).1, ← h.kernel_size]
  exact (Array.getElem?_eq_some_iff.mp hi).1

/-! ## Closing a state

  Only the kernel and its lookaheads go into a closed state. -/

/-- The closure of a state depends on its kernel alone. -/
theorem closure_congr {s' : State} (h : s'.kernel = s.kernel) : s'.closure g = s.closure g := by
  rw [closure, closure, h]

theorem size_take_looks (h : Proper g s) :
    (s.lookaheads.take s.kernelSize).size = s.kernel.size := by
  rw [h.kernel_size, Array.take_eq_extract, Array.size_extract]
  have := h.looks_le
  omega

/-- Rebuilding closes a state.  It changes neither the kernel nor its lookaheads. -/
theorem rebuild_spec (wf : g.WellFormed) (h : Proper g s) {s' : State}
    (hs' : (s.rebuild (Analysis.ofGrammar g)).1 = s') :
    Closed g s' ∧ s'.kernel = s.kernel ∧ s'.kernelSize = s.kernelSize ∧ s'.entry = s.entry ∧
      s'.signature = s.signature ∧ s'.moves = s.moves ∧
      s'.lookaheads.take s.kernelSize = s.lookaheads.take s.kernelSize := by
  have hitems : s'.items = (s.closure g).items := by subst hs'; rfl
  have hsize : s'.kernelSize = s.kernelSize := by subst hs'; rfl
  have hlooks : s'.lookaheads = spread (Analysis.ofGrammar g) (s.closure g)
      (s.lookaheads.take s.kernelSize) := by subst hs'; rfl
  have hrest : s'.entry = s.entry ∧ s'.signature = s.signature ∧ s'.moves = s.moves := by
    subst hs'
    exact ⟨rfl, rfl, rfl⟩
  have hc := h.isClosure wf
  -- the closure begins with the kernel, and the spread leaves the first slots as they are
  have hkernel : s'.kernel = s.kernel := by
    rw [State.kernel, hitems, hsize, ← h.kernel_size, hc.isPartial.take_items]
  have htake : s'.lookaheads.take s.kernelSize = s.lookaheads.take s.kernelSize := by
    have hspread := take_spread wf hc (size_take_looks h)
    rw [h.kernel_size] at hspread
    rw [hlooks, hspread]
  obtain ⟨hspread, hflow⟩ := mem_spread_iff wf hc (size_take_looks h)
  rw [← hlooks] at hspread hflow
  have hle := hc.isPartial.slots_le
  rw [h.kernel_size] at hle
  have hproper : Proper g s' := by
    refine ⟨hkernel ▸ h.kernel, ?_, ?_, fun {i t} hi ht => ?_⟩
    · rw [hsize, hitems, ← h.kernel_size]
      exact hc.isPartial.le_size
    · rw [hsize, hspread]
      exact hle
    · rw [hsize] at hi
      have hin := inTable_take.mpr ⟨hi, ht⟩
      rw [htake] at hin
      exact h.looks_lt hi (inTable_take.mp hin).2
  refine ⟨⟨hproper, ?_, ?_, fun i t => ?_⟩, hkernel, hsize, hrest.1, hrest.2.1, hrest.2.2, htake⟩
  · rw [hitems, closure_congr hkernel]
  · rw [hspread, closure_congr hkernel]
  · rw [closure_congr hkernel, hsize, htake]
    exact hflow i t

/-! ## Cores and lookaheads of a closed state

  The slots disappear here: what flows into the slot of a nonterminal, its rules gain. -/

namespace Closed

/-- A closed state has the closure of its kernel. -/
theorem isClosure (wf : g.WellFormed) (h : Closed g s) : IsClosure g s.kernel (s.closure g) :=
  h.proper.isClosure wf

/-- The cores of a closed state are those of the closure. -/
theorem has_iff (wf : g.WellFormed) (h : Closed g s) {c : Core} :
    s.Has c ↔ InClosure g s.KernelHas c := by
  rw [State.Has, h.items_eq]
  exact (h.isClosure wf).hasCore_iff c

/-- Cores of short rules are there once. -/
theorem distinct (wf : g.WellFormed) (h : Closed g s) :
    Core.Distinct g (s.items.toList.map (·.core)) := by
  rw [h.items_eq]
  exact (h.isClosure wf).distinct wf h.proper.kernel

/-- Where all rules are short, a state has one item of each core. -/
theorem item_eq (wf : g.WellFormed) (hg : g.IsShort) (h : Closed g s) {item item' : Item}
    (hmem : item ∈ s.items) (hmem' : item' ∈ s.items) (hcore : item.core = item'.core) :
    item = item' :=
  List.inj_on_of_nodup_map ((h.distinct wf).nodup hg) (Array.mem_toList_iff.mpr hmem)
    (Array.mem_toList_iff.mpr hmem') hcore

/-- An item is one of the kernel or a rule that the closure added. -/
theorem mem_items (wf : g.WellFormed) (h : Closed g s) {item : Item} (hmem : item ∈ s.items) :
    item ∈ s.kernel ∨ ∃ r, Closure.Added g s.kernel (s.closure g) item r := by
  rw [h.items_eq] at hmem
  exact (h.isClosure wf).isPartial.mem_items hmem

/-- The dot of an item stands in front, or the item is one of the kernel. -/
theorem kernelHas_of_dot (wf : g.WellFormed) (h : Closed g s) {c : Core} (hc : s.Has c)
    (hdot : 0 < c.dot ∨ c.rule = 0) : s.KernelHas c := by
  obtain ⟨item, hmem, rfl⟩ := hc
  rcases h.mem_items wf hmem with hmem | ⟨r, hr⟩
  · exact ⟨item, hmem, rfl⟩
  · rw [hr.core] at hdot
    have hpos := (hr.expected.bounds wf).1
    rcases hdot with hdot | rfl
    · exact absurd hdot (Nat.lt_irrefl 0)
    · rw [wf.lhs_zero] at hpos
      exact absurd hpos (Nat.lt_irrefl 0)

/-- What the closure calls for in the slot of a nonterminal, its rules gain. -/
theorem gains_of_flow (wf : g.WellFormed) (h : Closed g s) {i t : Nat}
    (hflow : Flow g (s.closure g) (s.lookaheads.take s.kernelSize) i t) :
    ∀ r, r < g.rules.size → (s.closure g).slot? (g.rule r).lhs = some i →
      Gains g s.KernelHas s.KernelLook ⟨r, 0⟩ t := by
  have hc := h.isClosure wf
  -- how a lookahead came into a slot: given, begun by what follows, or handed on
  induction hflow with
  | @given i t hin =>
    intro r _ hslot
    -- only the kernel is given anything, and its slots belong to no nonterminal
    have h1 := (inTable_take.mp hin).1
    have h2 := (hc.isPartial.slot_range hslot).1
    rw [h.proper.kernel_size] at h2
    omega
  | @first item i t beta hmem hsend hb =>
    intro r hr hslot
    obtain ⟨b, hafter, hb'⟩ := hsend
    exact .first (hc.hasCore_iff _ |>.mp ⟨item, hmem, rfl⟩) hafter hr
      (hc.isPartial.slot_inj hslot hb') hb
  | @inherit item i t beta hmem hsend hv hflow ih =>
    intro r hr hslot
    obtain ⟨b, hafter, hb'⟩ := hsend
    refine .inherit ?_ hafter hr (hc.isPartial.slot_inj hslot hb') hv
    rcases hc.isPartial.mem_items hmem with hmem | ⟨r', hr'⟩
    · have hlt := h.proper.slot_lt hmem
      rw [← h.proper.kernel_size] at hlt
      exact .kernel ⟨item, hmem, rfl, (inTable_take.mp (hflow.of_kernel hc hlt)).2⟩
    · rw [hr'.core]
      exact ih r' hr'.rule_lt hr'.slot

/-- The rules of a nonterminal after a dot stand in its slot. -/
theorem look_of_flow (wf : g.WellFormed) (h : Closed g s) {item : Item} {b r t : Nat}
    {beta : List Symbol} (hmem : item ∈ s.items)
    (hafter : item.core.afterDot g = .nonterminal b :: beta)
    (hr : r < g.rules.size) (hlhs : (g.rule r).lhs = b)
    (hflow : ∀ dst, Sends g (s.closure g) item dst beta →
      Flow g (s.closure g) (s.lookaheads.take s.kernelSize) dst t) : s.Look ⟨r, 0⟩ t := by
  have hc := h.isClosure wf
  rw [h.items_eq] at hmem
  have hnext := Core.next?_of_afterDot hafter
  obtain ⟨dst, hdst⟩ := hc.slotted hmem hnext
  -- a kernel item may have the same core; the item that counts is the one that the closure added
  obtain ⟨item', hmem', hcore', horigin⟩ := (Closure.ofKernel_spec wf h.proper.kernel.numbered).2
    r hr ⟨item.core, (hc.hasCore_iff _).mp ⟨item, hmem, rfl⟩, hlhs ▸ hnext⟩
  refine ⟨item', h.items_eq ▸ hmem', hcore', ?_⟩
  rcases hc.isPartial.mem_items hmem' with hkernel | ⟨r', hr'⟩
  · rw [IsNumbered.origin_eq h.proper.kernel.numbered hkernel] at horigin
    exact absurd horigin (by simp)
  · have heq : r' = r := by
      have := hr'.core.symm.trans hcore'
      injection this
    subst heq
    have hslot : dst = item'.slot := by
      have := hdst.symm.trans (hlhs ▸ hr'.slot)
      injection this
    exact (h.flow_iff _ _).mpr (hslot ▸ hflow dst ⟨b, hafter, hdst⟩)

/-- The lookaheads of a closed state are the least ones. -/
theorem look_iff (wf : g.WellFormed) (h : Closed g s) {c : Core} {t : Nat} :
    s.Look c t ↔ Gains g s.KernelHas s.KernelLook c t := by
  constructor
  · rintro ⟨item, hmem, rfl, ht⟩
    rcases h.mem_items wf hmem with hmem | ⟨r, hr⟩
    · exact .kernel ⟨item, hmem, rfl, ht⟩
    · rw [hr.core]
      exact h.gains_of_flow wf ((h.flow_iff _ _).mp ht) r hr.rule_lt hr.slot
  · intro hg
    induction hg with
    | kernel h => exact h.look
    | first hc hafter hr hlhs hb =>
      obtain ⟨item, hmem, rfl⟩ := (h.has_iff wf).mpr hc
      exact h.look_of_flow wf hmem hafter hr hlhs fun dst hsend =>
        .first (h.items_eq ▸ hmem) hsend hb
    | inherit _ hafter hr hlhs hv ih =>
      obtain ⟨item, hmem, rfl, ht⟩ := ih
      exact h.look_of_flow wf hmem hafter hr hlhs fun dst hsend =>
        .inherit (h.items_eq ▸ hmem) hsend hv ((h.flow_iff _ _).mp ht)

/-- Only terminals are in lookaheads. -/
theorem member_lt (wf : g.WellFormed) (h : Closed g s) {i t : Nat} (ht : InTable s.lookaheads i t) :
    t < g.terminalCount :=
  ((h.flow_iff i t).mp ht).lt_terminalCount wf fun _ _ hin =>
    h.proper.looks_lt (inTable_take.mp hin).1 (inTable_take.mp hin).2

/-- Its lookaheads are terminals. -/
theorem look_lt (wf : g.WellFormed) (h : Closed g s) {c : Core} {t : Nat} (ht : s.Look c t) :
    t < g.terminalCount := by
  obtain ⟨item, -, -, ht⟩ := ht
  exact h.member_lt wf ht

/-- Its cores are of rules, with the dot inside. -/
theorem fits (wf : g.WellFormed) (h : Closed g s) {c : Core} (hc : s.Has c) : c.Fits g := by
  obtain ⟨item, hmem, rfl⟩ := hc
  rcases h.mem_items wf hmem with hmem | ⟨r, hr⟩
  · exact h.proper.kernel.fits item hmem
  · rw [hr.core]
    exact .front hr.rule_lt

theorem rule_lt (wf : g.WellFormed) (h : Closed g s) {c : Core} (hc : s.Has c) :
    c.rule < g.rules.size :=
  (h.fits wf hc).rule_lt

end Closed

end State

end Lalr
