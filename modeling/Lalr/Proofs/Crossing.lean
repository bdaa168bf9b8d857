/-
  Leaving a state, and entering one.

    1. `crossings` groups the items by the symbol after the dot: one kernel for each symbol, with
       the items moved over it, in the order of the items (`crossings_spec`).
    2. A kernel makes a closed state, whose kernel is as much of it as the size counts
       (`ofKernel_spec`).
    3. A kernel adds its lookaheads to a state that has its cores.  If the report says that nothing
       grew, the state is unchanged and had them all; else it is closed again, and the number of
       members of its kernel's sets has risen (`absorb_stayed`, `absorb_grew`).
-/
import Mathlib
import Lalr.Proofs.State

namespace Lalr

open SymbolSet

variable {g : Grammar}

/-- Kernel items that a state may be made from: cores of rules, in short rules different ones with
    the dot past the first symbol except in the start rule, and terminals in their lookaheads. -/
structure Kernel.Sound (g : Grammar) (k : Kernel) : Prop where
  distinct : Core.Distinct g (k.toList.map (·.1))
  fits : ∀ e ∈ k, e.1.Fits g
  moved : ∀ e ∈ k, e.1.isShort g = true → 0 < e.1.dot ∨ e.1 = ⟨0, 0⟩
  look_lt : ∀ e ∈ k, ∀ t ∈ e.2, t < g.terminalCount

namespace State

variable {s : State}

/-! ## Leaving a state

  Items are taken in order, and each is put at the end of the kernel of the symbol after its dot.
  A symbol that has no kernel yet gets one at the end, so kernels come in the order of first
  occurrences. -/

/-- The items of the list with `x` after the dot, moved over it. -/
def crossed (g : Grammar) (look : Item → SymbolSet) (l : List Item) (x : Symbol) :
    List (Core × SymbolSet) :=
  (l.filter (·.core.next? g == some x)).map fun item => (item.core.advance, look item)

/-- The kernels are those that the items of the list lead to, one for each symbol. -/
structure Grouped (g : Grammar) (look : Item → SymbolSet) (l : List Item)
    (out : Array (Symbol × Kernel)) : Prop where
  nodup : (out.toList.map (·.1)).Nodup
  kernel_eq : ∀ {x : Symbol} {k : Kernel}, (x, k) ∈ out → k.toList = crossed g look l x
  mem_iff : ∀ {x : Symbol}, (∃ k, (x, k) ∈ out) ↔ ∃ item ∈ l, item.core.next? g = some x

/-- One more item leads over the symbol after its dot, and over no other. -/
theorem crossed_append (look : Item → SymbolSet) (l : List Item) (item : Item) (x : Symbol) :
    crossed g look (l ++ [item]) x = crossed g look l x ++
      if item.core.next? g = some x then [(item.core.advance, look item)] else [] := by
  unfold crossed
  rw [List.filter_append, List.map_append]
  congr 1
  by_cases h : item.core.next? g = some x
  · simp [h]
  · simp [h]

/-- An item without a symbol after the dot leads nowhere. -/
theorem Grouped.skip {look : Item → SymbolSet} {l : List Item} {out : Array (Symbol × Kernel)}
    (h : Grouped g look l out) {item : Item} (hnext : item.core.next? g = none) :
    Grouped g look (l ++ [item]) out where
  nodup := h.nodup
  kernel_eq hmem := by
    rw [h.kernel_eq hmem, crossed_append, hnext, if_neg (by simp), List.append_nil]
  mem_iff := by
    intro x
    rw [h.mem_iff]
    simp [hnext]

/-- Changing a kernel leaves the symbols in their order. -/
theorem map_fst_modify {α β : Type} (out : Array (α × β)) (i : Nat) {f : α × β → α × β}
    (hf : ∀ e, (f e).1 = e.1) : (out.modify i f).toList.map (·.1) = out.toList.map (·.1) := by
  refine List.ext_getElem? fun j => ?_
  rw [List.getElem?_map, List.getElem?_map, Array.getElem?_toList, Array.getElem?_toList,
    Array.getElem?_modify]
  split
  · rw [Option.map_map]
    exact congrArg (Option.map · _) (funext hf)
  · rfl

section Grouped

variable {look : Item → SymbolSet} {l : List Item} {out : Array (Symbol × Kernel)} {item : Item}
  {x : Symbol} (h : Grouped g look l out) (hnext : item.core.next? g = some x)

include hnext in
/-- The same for an item whose next symbol is known. -/
theorem crossed_concat (look : Item → SymbolSet) (l : List Item) (y : Symbol) :
    crossed g look (l ++ [item]) y = crossed g look l y ++
      if x = y then [(item.core.advance, look item)] else [] := by
  rw [crossed_append, hnext]
  simp

include h

/-- A symbol that has no kernel yet is not after a dot yet. -/
theorem Grouped.crossed_eq_nil (hfresh : ∀ k, (x, k) ∉ out) : crossed g look l x = [] := by
  rw [crossed, List.map_eq_nil_iff, List.filter_eq_nil_iff]
  intro i hi hix
  obtain ⟨k, hk⟩ := h.mem_iff.mpr ⟨i, hi, by simpa using hix⟩
  exact hfresh k hk

include hnext

/-- The new item adds its symbol to those that are crossed. -/
theorem Grouped.mem_concat_iff (y : Symbol) :
    (∃ i ∈ l ++ [item], i.core.next? g = some y) ↔ (∃ k, (y, k) ∈ out) ∨ y = x := by
  rw [h.mem_iff]
  simp [hnext, or_and_right, exists_or, eq_comm]

/-- The item joins the kernel of its symbol. -/
theorem Grouped.join {i : Nat} {kernel : Kernel} (hget : out[i]? = some (x, kernel)) :
    Grouped g look (l ++ [item])
      (out.modify i fun e => (e.1, e.2.push (item.core.advance, look item))) := by
  have hfst :
      (out.modify i fun e => (e.1, e.2.push (item.core.advance, look item))).toList.map (·.1) =
        out.toList.map (·.1) :=
    map_fst_modify out i fun _ => rfl
  have hmem : ∀ o : Array (Symbol × Kernel), ∀ y, (∃ k, (y, k) ∈ o) ↔ y ∈ o.toList.map (·.1) := by
    intro o y
    simp
  refine ⟨hfst ▸ h.nodup, fun {y k} hk => ?_, fun {y} => ?_⟩
  · obtain ⟨j, hj⟩ := Array.mem_iff_getElem?.mp hk
    rw [Array.getElem?_modify] at hj
    by_cases hij : i = j
    · rw [if_pos hij, ← hij, hget] at hj
      obtain ⟨rfl, rfl⟩ := Prod.mk.inj (Option.some.inj hj)
      rw [crossed_concat hnext, if_pos rfl, Array.toList_push,
        h.kernel_eq (Array.mem_iff_getElem?.mpr ⟨i, hget⟩)]
    · rw [if_neg hij] at hj
      -- the keys differ, so another place has another symbol
      have hy : x ≠ y := by
        intro hxy
        have hi : i < (out.toList.map (·.1)).length := by
          rw [List.length_map, Array.length_toList]
          exact (Array.getElem?_eq_some_iff.mp hget).1
        refine hij ((List.getElem?_inj hi h.nodup).mp ?_)
        rw [List.getElem?_map, List.getElem?_map, Array.getElem?_toList, Array.getElem?_toList,
          hget, hj]
        exact congrArg some hxy
      rw [crossed_concat hnext, if_neg hy, List.append_nil,
        h.kernel_eq (Array.mem_iff_getElem?.mpr ⟨j, hj⟩)]
  · rw [h.mem_concat_iff hnext, hmem, hmem, hfst, ← hmem]
    exact ⟨Or.inl, fun hy => hy.elim id fun hyx =>
      ⟨kernel, hyx ▸ Array.mem_iff_getElem?.mpr ⟨i, hget⟩⟩⟩

/-- The item is the first one of its symbol. -/
theorem Grouped.first (hfresh : ∀ k, (x, k) ∉ out) :
    Grouped g look (l ++ [item]) (out.push (x, #[(item.core.advance, look item)])) := by
  refine ⟨?_, fun {y k} hmem => ?_, fun {y} => ?_⟩
  · rw [Array.toList_push, List.map_append, List.nodup_append]
    refine ⟨h.nodup, List.nodup_singleton _, fun y hy z hz heq => ?_⟩
    obtain ⟨⟨y', k⟩, hmem, rfl⟩ := List.mem_map.mp hy
    have hyx : y' = x := heq.trans (List.mem_singleton.mp hz)
    exact hfresh k (hyx ▸ Array.mem_toList_iff.mp hmem)
  · rcases Array.mem_push.mp hmem with hmem | hmem
    · rw [crossed_concat hnext, if_neg (fun hxy : x = y => hfresh k (hxy ▸ hmem)), List.append_nil,
        h.kernel_eq hmem]
    · obtain ⟨rfl, rfl⟩ := Prod.mk.inj hmem
      rw [crossed_concat hnext, if_pos rfl, h.crossed_eq_nil hfresh]
      rfl
  · rw [h.mem_concat_iff hnext]
    simp only [Array.mem_push, Prod.mk.injEq, exists_or]
    exact or_congr Iff.rfl ⟨fun hk => hk.elim fun _ hy => hy.1, fun hy => ⟨_, hy, rfl⟩⟩

/-- Adding an item keeps the grouping: it joins the kernel of its symbol, or makes one. -/
theorem Grouped.add :
    Grouped g look (l ++ [item]) (addCrossing out x item.core.advance (look item)) := by
  unfold addCrossing
  split
  · rename_i i hfound
    obtain ⟨hi, hx, -⟩ := Array.findIdx?_eq_some_iff_getElem.mp hfound
    have hx : (out[i]).1 = x := by simpa using hx
    have hget : out[i]? = some (x, (out[i]).2) := by
      rw [Array.getElem?_eq_getElem hi, ← hx]
    exact h.join hnext hget
  · rename_i hnone
    refine h.first hnext fun k hmem => ?_
    have hkey := Array.findIdx?_eq_none_iff.mp hnone _ hmem
    simp at hkey

end Grouped

/-- The crossings are made one item after the other, and only items with a symbol after the dot add
    to them. -/
theorem crossings_induction {P : List Item → Array (Symbol × Kernel) → Prop} (g : Grammar)
    (s : State)
    (start : P [] #[])
    (skip : ∀ {done out item}, P done out → item.core.next? g = none → P (done ++ [item]) out)
    (add : ∀ {done out item x}, P done out → item.core.next? g = some x →
      P (done ++ [item]) (addCrossing out x item.core.advance (s.lookahead item))) :
    P s.items.toList (s.crossings g) := by
  -- over a list of items, from any kernels that were collected before
  have hfold : ∀ (l done : List Item) (out : Array (Symbol × Kernel)), P done out →
      P (done ++ l) (l.foldl (fun out item => (item.core.next? g).elim out fun x =>
        addCrossing out x item.core.advance (s.lookahead item)) out) := by
    intro l
    induction l with
    | nil => exact fun done out h => (List.append_nil done).symm ▸ h
    | cons item l ih =>
      intro done out h
      rw [List.foldl_cons, List.append_cons]
      apply ih
      cases hnext : item.core.next? g with
      | some x => exact add h hnext
      | none => exact skip h hnext
  -- the fold that `crossings` is, with its `match` as `Option.elim`
  have hcrossings : s.crossings g = s.items.foldl (fun out item => (item.core.next? g).elim out
      fun x => addCrossing out x item.core.advance (s.lookahead item)) #[] := by
    unfold crossings
    congr 1
    funext out item
    cases item.core.next? g with
    | some x => rfl
    | none => rfl
  have h := hfold s.items.toList [] #[] start
  rw [List.nil_append, Array.foldl_toList] at h
  rw [hcrossings]
  exact h

/-- The kernels that can be reached from a state. -/
theorem crossings_spec (g : Grammar) (s : State) :
    Grouped g s.lookahead s.items.toList (s.crossings g) := by
  refine s.crossings_induction (P := Grouped g s.lookahead) g ?_ (fun h hnext => h.skip hnext)
    fun h hnext => h.add hnext
  exact ⟨List.nodup_nil, fun h => absurd h (by simp), by simp⟩

/-! ## Kernel lookaheads

  The lookaheads of a kernel are what is handed on.  Their number is what is bounded in the end,
  and it is computed from the kernel alone, whatever the closure adds. -/

/-- The lookaheads of kernel items stand in the first slots. -/
theorem Proper.kernelLook_iff (h : Proper g s) {c : Core} {t : Nat} :
    s.KernelLook c t ↔ ∃ item ∈ s.kernel, item.core = c ∧
      InTable (s.lookaheads.take s.kernelSize) item.slot t := by
  constructor
  · rintro ⟨item, hmem, hcore, ht⟩
    exact ⟨item, hmem, hcore, inTable_take.mpr ⟨h.slot_lt hmem, ht⟩⟩
  · rintro ⟨item, hmem, hcore, ht⟩
    exact ⟨item, hmem, hcore, (inTable_take.mp ht).2⟩

/-- So they are known from the kernel and these slots. -/
theorem kernelLook_congr {s' : State} (h : Proper g s) (h' : Proper g s')
    (hkernel : s'.kernel = s.kernel) (hsize : s'.kernelSize = s.kernelSize)
    (htake : s'.lookaheads.take s.kernelSize = s.lookaheads.take s.kernelSize) {c : Core}
    {t : Nat} :
    s'.KernelLook c t ↔ s.KernelLook c t := by
  rw [h'.kernelLook_iff, h.kernelLook_iff, hkernel, hsize, htake]

/-- How many members the sets of the kernel items have. -/
def weight (g : Grammar) (s : State) : Nat :=
  tally g.terminalCount s.kernelSize s.lookaheads

/-- The number is known from the slots of the kernel, too. -/
theorem weight_congr {s' : State} (hsize : s'.kernelSize = s.kernelSize)
    (htake : s'.lookaheads.take s.kernelSize = s.lookaheads.take s.kernelSize) :
    weight g s' = weight g s := by
  rw [weight, weight, hsize, tally, tally]
  refine Finset.sum_congr rfl fun i hi => congrArg (countBelow _) (SymbolSet.ext fun t => ?_)
  have hi := Finset.mem_range.mp hi
  have hiff : ∀ sets : Array SymbolSet, t ∈ sets.getD i ∅ ↔
      InTable (sets.take s.kernelSize) i t := by
    intro sets
    rw [inTable_take]
    exact ⟨fun h => ⟨hi, h⟩, fun h => h.2⟩
  rw [hiff, hiff, htake]

/-! ## Making a state

  A state is made from a kernel in two steps: the kernel is written down, as far as 16 bits count
  its entries, and then it is closed. -/

/-- The state of a kernel before it is closed. -/
def unclosed (entry : Option Symbol) (k : Kernel) : State where
  items := k.mapIdx fun i e => ⟨e.1, none, i⟩
  kernelSize := kernelLimit k.size
  lookaheads := k.map (·.2)
  entry
  signature := k.signature

section

variable {k : Kernel} {entry : Option Symbol}

theorem kernelLimit_le (n : Nat) : kernelLimit n ≤ n :=
  Nat.mod_le _ _

/-- Before it is closed, a state has the entries of its kernel for items, as many as it keeps. -/
theorem getElem?_kernel_unclosed {i : Nat} {item : Item} :
    (unclosed entry k).kernel[i]? = some item ↔
      i < kernelLimit k.size ∧ ∃ e, k[i]? = some e ∧ item = ⟨e.1, none, i⟩ := by
  have hle := kernelLimit_le k.size
  show (((k.mapIdx fun i e => (⟨e.1, none, i⟩ : Item)).take (kernelLimit k.size))[i]?
    = some item) ↔ _
  rw [Array.take_eq_extract, Array.getElem?_extract, Array.size_mapIdx, Nat.zero_add,
    Array.getElem?_mapIdx]
  by_cases hi : i < kernelLimit k.size
  · rw [if_pos (by omega)]
    simp only [Option.map_eq_some_iff, hi, true_and]
    exact exists_congr fun e => and_congr_right fun _ => eq_comm
  · rw [if_neg (by omega)]
    simp [hi]

/-- Its cores are the kernel's, in the kernel's order. -/
theorem cores_unclosed : (unclosed entry k).kernel.toList.map (·.core) =
    (k.toList.map (·.1)).take (kernelLimit k.size) := by
  have hle := kernelLimit_le k.size
  apply List.ext_getElem?
  intro i
  rw [List.getElem?_map, Array.getElem?_toList, List.getElem?_take, List.getElem?_map,
    Array.getElem?_toList]
  by_cases hi : i < kernelLimit k.size
  · obtain ⟨e, he⟩ : ∃ e, k[i]? = some e := ⟨_, Array.getElem?_eq_getElem (by omega)⟩
    rw [getElem?_kernel_unclosed.mpr ⟨hi, e, he, rfl⟩, he, if_pos hi]
    rfl
  · rw [if_neg hi]
    cases hn : (unclosed entry k).kernel[i]? with
    | none => rfl
    | some item => exact absurd (getElem?_kernel_unclosed.mp hn).1 hi

/-- Its slots hold the lookaheads of the kernel. -/
theorem inTable_unclosed {i t : Nat} :
    InTable (unclosed entry k).lookaheads i t ↔ ∃ e, k[i]? = some e ∧ t ∈ e.2 := by
  show t ∈ (k.map (·.2)).getD i ∅ ↔ _
  rw [Array.getD_eq_getD_getElem?, Array.getElem?_map]
  cases k[i]? with
  | none => simp
  | some e => simp

/-- It can be closed. -/
theorem proper_unclosed (hk : k.Sound g) : Proper g (unclosed entry k) := by
  -- every item comes from an entry of the kernel
  have hmem : ∀ item ∈ (unclosed entry k).kernel, ∃ e ∈ k, item.core = e.1 := by
    intro item hitem
    obtain ⟨i, hi⟩ := Array.mem_iff_getElem?.mp hitem
    obtain ⟨-, e, he, rfl⟩ := getElem?_kernel_unclosed.mp hi
    exact ⟨e, Array.mem_iff_getElem?.mpr ⟨i, he⟩, rfl⟩
  refine ⟨⟨fun {i item} hi => ?_, ?_, fun item hitem => ?_, fun item hitem => ?_⟩, ?_, ?_,
    fun {i t} _ ht => ?_⟩
  · obtain ⟨-, e, -, rfl⟩ := getElem?_kernel_unclosed.mp hi
    exact ⟨rfl, rfl⟩
  · rw [cores_unclosed]
    exact hk.distinct.sublist (List.take_sublist _ _)
  · obtain ⟨e, he, hcore⟩ := hmem item hitem
    exact hcore ▸ hk.fits e he
  · obtain ⟨e, he, hcore⟩ := hmem item hitem
    exact hcore ▸ hk.moved e he
  · show kernelLimit k.size ≤ (k.mapIdx _).size
    rw [Array.size_mapIdx]
    exact kernelLimit_le _
  · show kernelLimit k.size ≤ (k.map (·.2)).size
    rw [Array.size_map]
    exact kernelLimit_le _
  · obtain ⟨e, he, ht⟩ := inTable_unclosed.mp ht
    exact hk.look_lt e (Array.mem_iff_getElem?.mpr ⟨i, he⟩) t ht

end

/-- What a kernel makes is a closed state.  Its kernel items are the first of the kernel, as many as
    16 bits count, with their lookaheads. -/
theorem ofKernel_spec (wf : g.WellFormed) {k : Kernel} (hk : k.Sound g) (entry : Option Symbol)
    {s : State} (hs : (ofKernel (Analysis.ofGrammar g) entry k).1 = s) :
    Closed g s ∧ s.entry = entry ∧ s.signature = k.signature ∧ s.moves = #[] ∧
      s.kernelSize = kernelLimit k.size ∧
      s.kernel.toList.map (·.core) = (k.toList.map (·.1)).take (kernelLimit k.size) ∧
      ∀ c t, s.KernelLook c t ↔
        ∃ i < kernelLimit k.size, ∃ e, k[i]? = some e ∧ e.1 = c ∧ t ∈ e.2 := by
  have hproper : Proper g (unclosed entry k) := proper_unclosed hk
  obtain ⟨hclosed, hkernel, hsize, hentry, hsig, hmoves, htake⟩ := rebuild_spec wf hproper hs
  refine ⟨hclosed, hentry, hsig, hmoves, hsize, hkernel ▸ cores_unclosed, fun c t => ?_⟩
  -- closing leaves the kernel's slots as they were
  rw [kernelLook_congr hproper hclosed.proper hkernel hsize htake]
  constructor
  · rintro ⟨item, hitem, rfl, ht⟩
    obtain ⟨i, hi⟩ := Array.mem_iff_getElem?.mp hitem
    obtain ⟨hlt, e, he, rfl⟩ := getElem?_kernel_unclosed.mp hi
    obtain ⟨e', he', ht⟩ := inTable_unclosed.mp ht
    rw [he] at he'
    injection he' with he'
    exact ⟨i, hlt, e, he, rfl, he' ▸ ht⟩
  · rintro ⟨i, hi, e, he, rfl, ht⟩
    have hitem : (unclosed entry k).kernel[i]? = some ⟨e.1, none, i⟩ :=
      getElem?_kernel_unclosed.mpr ⟨hi, e, he, rfl⟩
    exact ⟨_, Array.mem_iff_getElem?.mpr ⟨i, hitem⟩, rfl, inTable_unclosed.mpr ⟨e, he, ht⟩⟩

/-! ## Adding lookaheads

  The entries of the kernel are taken in turn.  Each looks for an item that has its core, and
  adds its lookahead to the slot of that item.  Only an entry without such an item gets lost. -/

/-- The item that is found is one of the items, and it has the core. -/
theorem itemOf?_eq_some {items : Array Item} {place : Nat} {core : Core} {item : Item}
    (h : itemOf? g items place core = some item) : item ∈ items ∧ item.core = core := by
  have hfind : items.find? (·.core == core) = some item → item ∈ items ∧ item.core = core :=
    fun h => ⟨Array.mem_of_find?_eq_some h, by simpa using Array.find?_some h⟩
  unfold itemOf? at h
  split at h
  · rename_i item' hitem'
    split at h
    · rename_i hcore
      injection h with h
      exact h ▸ ⟨Array.mem_of_getElem? hitem', hcore.1⟩
    · exact hfind h
  · exact hfind h

/-- If none is found, there is none. -/
theorem itemOf?_eq_none {items : Array Item} {place : Nat} {core : Core}
    (h : itemOf? g items place core = none) : ¬ HasCore items core := by
  have hfind : items.find? (·.core == core) = none → ¬ HasCore items core := by
    rintro h ⟨item, hmem, hcore⟩
    exact Array.find?_eq_none.mp h item hmem (by simp [hcore])
  unfold itemOf? at h
  split at h
  · split at h
    · exact absurd h (by simp)
    · exact hfind h
  · exact hfind h

/-- Trying one place first makes no difference: an item with a core of a short rule is the only one.
    -/
theorem itemOf?_eq_find? {items : Array Item} (h : IsKernel g items) (place : Nat) (core : Core) :
    itemOf? g items place core = items.find? (·.core == core) := by
  unfold itemOf?
  split
  · rename_i item hitem
    split
    · rename_i hcore
      obtain ⟨hcore, hshort⟩ := hcore
      cases hfind : items.find? (·.core == core) with
      | none =>
        exact absurd hcore
          (by simpa using Array.find?_eq_none.mp hfind item (Array.mem_of_getElem? hitem))
      | some item' =>
        have hcore' : item'.core = core := by simpa using Array.find?_some hfind
        rw [h.item_eq (hcore'.symm ▸ hshort) (Array.mem_of_find?_eq_some hfind)
          (Array.mem_of_getElem? hitem) (hcore'.trans hcore.symm)]
    · rfl
  · rfl

/-- One entry of a kernel, with its place, adds its lookahead. -/
def absorbEntry (g : Grammar) (items : Array Item) (acc : Array SymbolSet × Bool)
    (e : (Core × SymbolSet) × Nat) : Array SymbolSet × Bool :=
  absorbLookahead acc (itemOf? g items e.2 e.1.1) e.1.2

/-- Terminal `t` is what the entry adds to slot `i`, that of the item found for its core. -/
def Brings (g : Grammar) (items : Array Item) (e : (Core × SymbolSet) × Nat) (i t : Nat) : Prop :=
  ∃ item, itemOf? g items e.2 e.1.1 = some item ∧ item.slot = i ∧ t ∈ e.1.2

/-- What one entry does.  It reports an addition exactly if there is something new in a slot, and
    where nothing is new the table stays as it is. -/
theorem absorbEntry_spec {items : Array Item} (acc : Array SymbolSet × Bool)
    (hslots : ∀ item ∈ items, item.slot < acc.1.size) (e : (Core × SymbolSet) × Nat) :
    (absorbEntry g items acc e).1.size = acc.1.size ∧
      (∀ i t, InTable (absorbEntry g items acc e).1 i t ↔
        InTable acc.1 i t ∨ Brings g items e i t) ∧
      ((absorbEntry g items acc e).2 = true → acc.2 = true ∨
        ∃ i t, Brings g items e i t ∧ ¬ InTable acc.1 i t) ∧
      ((absorbEntry g items acc e).2 = false → acc.2 = false ∧
        (absorbEntry g items acc e).1 = acc.1) := by
  unfold absorbEntry absorbLookahead Brings
  cases hfound : itemOf? g items e.2 e.1.1 with
  | none =>
    exact ⟨rfl, fun i t => ⟨Or.inl, fun h => h.elim id fun ⟨_, hitem, _⟩ => by simp at hitem⟩,
      Or.inl, fun h => ⟨h, rfl⟩⟩
  | some item =>
    have hmem := (itemOf?_eq_some hfound).1
    refine ⟨by simp, fun i t => ?_, fun h => ?_, fun h => ?_⟩
    · show t ∈ (acc.1.setIfInBounds item.slot _).getD i ∅ ↔ _
      rw [getD_setIfInBounds]
      -- the slot of the item gets the lookahead, all others are left alone
      by_cases hi : item.slot = i
      · subst hi
        rw [if_pos ⟨rfl, hslots item hmem⟩, mem_union]
        simp [InTable]
      · rw [if_neg fun h => hi h.1]
        refine ⟨Or.inl, fun h => h.elim id ?_⟩
        rintro ⟨item', hitem', hslot, -⟩
        injection hitem' with hitem'
        exact absurd (hitem' ▸ hslot) hi
    · rcases Bool.or_eq_true_iff.mp h with h | h
      · exact Or.inl h
      · obtain ⟨t, ht, hnot⟩ := union_grew.mp h
        exact Or.inr ⟨item.slot, t, ⟨item, rfl, rfl, ht⟩, hnot⟩
    · rw [Bool.or_eq_false_iff] at h
      refine ⟨h.1, ?_⟩
      show acc.1.setIfInBounds item.slot _ = acc.1
      rw [union_eq_of_stayed h.2, setIfInBounds_getD]

/-- What a list of entries does, one after the other: the same as one, taken together. -/
theorem foldl_absorbEntry_spec {items : Array Item} (l : List ((Core × SymbolSet) × Nat))
    (acc : Array SymbolSet × Bool) (hslots : ∀ item ∈ items, item.slot < acc.1.size) :
    (l.foldl (absorbEntry g items) acc).1.size = acc.1.size ∧
      (∀ i t, InTable (l.foldl (absorbEntry g items) acc).1 i t ↔
        InTable acc.1 i t ∨ ∃ e ∈ l, Brings g items e i t) ∧
      ((l.foldl (absorbEntry g items) acc).2 = true → acc.2 = true ∨
        ∃ i t, (∃ e ∈ l, Brings g items e i t) ∧ ¬ InTable acc.1 i t) ∧
      ((l.foldl (absorbEntry g items) acc).2 = false → acc.2 = false ∧
        (l.foldl (absorbEntry g items) acc).1 = acc.1) := by
  induction l generalizing acc with
  | nil => exact ⟨rfl, by simp, Or.inl, fun h => ⟨h, rfl⟩⟩
  | cons e l ih =>
    obtain ⟨h1, h2, h3, h4⟩ := absorbEntry_spec acc hslots e
    obtain ⟨k1, k2, k3, k4⟩ := ih (absorbEntry g items acc e) fun item hmem => h1 ▸ hslots item hmem
    rw [List.foldl_cons]
    refine ⟨k1.trans h1, fun i t => ?_, fun h => ?_, fun h => ?_⟩
    · rw [k2, h2, or_assoc]
      simp
    -- an addition further on is also one to the table before
    · rcases k3 h with h | ⟨i, t, ⟨e', hmem, hb⟩, hnot⟩
      · refine (h3 h).imp id fun ⟨i, t, hb, hnot⟩ => ⟨i, t, ⟨e, List.mem_cons_self .., hb⟩, hnot⟩
      · exact Or.inr ⟨i, t, ⟨e', List.mem_cons_of_mem _ hmem, hb⟩,
          fun h => hnot ((h2 i t).mpr (Or.inl h))⟩
    · obtain ⟨hb, heq⟩ := k4 h
      obtain ⟨hb', heq'⟩ := h4 hb
      exact ⟨hb', heq.trans heq'⟩

/-- Two states that differ in their lookaheads at most. -/
structure SameShape (s s' : State) : Prop where
  items : s'.items = s.items
  kernelSize : s'.kernelSize = s.kernelSize
  entry : s'.entry = s.entry
  signature : s'.signature = s.signature
  moves : s'.moves = s.moves

theorem SameShape.refl (s : State) : SameShape s s :=
  ⟨rfl, rfl, rfl, rfl, rfl⟩

theorem SameShape.kernel {s' : State} (h : SameShape s s') : s'.kernel = s.kernel := by
  rw [State.kernel, State.kernel, h.items, h.kernelSize]

theorem SameShape.has {s' : State} (h : SameShape s s') {c : Core} : s'.Has c ↔ s.Has c := by
  rw [State.Has, State.Has, h.items]

theorem SameShape.kernelHas {s' : State} (h : SameShape s s') {c : Core} :
    s'.KernelHas c ↔ s.KernelHas c := by
  rw [State.KernelHas, State.KernelHas, h.kernel]

/-- Absorbing a kernel changes nothing of a state but its lookaheads. -/
theorem absorb_eq (g : Grammar) (s : State) (k : Kernel) :
    s.absorb g k = ({ s with lookaheads :=
        (k.zipIdx.toList.foldl (absorbEntry g s.kernel) (s.lookaheads, false)).1 },
      (k.zipIdx.toList.foldl (absorbEntry g s.kernel) (s.lookaheads, false)).2) := by
  rw [Array.foldl_toList]
  rfl

/-- What a kernel adds comes from one of its entries, and goes to an item with the entry's core. -/
theorem exists_of_brings {items : Array Item} {k : Kernel} {i t : Nat}
    (h : ∃ e ∈ k.zipIdx.toList, Brings g items e i t) :
    ∃ e ∈ k, t ∈ e.2 ∧ ∃ item ∈ items, item.core = e.1 ∧ item.slot = i := by
  obtain ⟨e, hmem, item, hitem, hslot, ht⟩ := h
  obtain ⟨hin, hcore⟩ := itemOf?_eq_some hitem
  exact ⟨e.1, Array.fst_mem_of_mem_zipIdx (Array.mem_toList_iff.mp hmem), ht, item, hin, hcore,
    hslot⟩

/-- An entry of a kernel adds its lookahead to some item with its core, if there is one. -/
theorem exists_brings {items : Array Item} {k : Kernel} {e : Core × SymbolSet} (he : e ∈ k)
    (hc : HasCore items e.1) {t : Nat} (ht : t ∈ e.2) :
    ∃ item ∈ items, item.core = e.1 ∧ ∃ e' ∈ k.zipIdx.toList, Brings g items e' item.slot t := by
  obtain ⟨i, hi⟩ := Array.mem_iff_getElem?.mp he
  have hin : (e, i) ∈ k.zipIdx.toList :=
    Array.mem_toList_iff.mpr (Array.mk_mem_zipIdx_iff_getElem?.mpr hi)
  cases hfound : itemOf? g items i e.1 with
  | none => exact absurd hc (itemOf?_eq_none hfound)
  | some item =>
    obtain ⟨hmem, hcore⟩ := itemOf?_eq_some hfound
    exact ⟨item, hmem, hcore, (e, i), hin, item, hfound, rfl, ht⟩

/-- Kernel items have slots in the table. -/
theorem Proper.slot_lt_size (h : Proper g s) {item : Item} (hmem : item ∈ s.kernel) :
    item.slot < s.lookaheads.size :=
  Nat.lt_of_lt_of_le (h.slot_lt hmem) h.looks_le

/-- What absorbing a kernel does to the table of lookaheads. -/
theorem absorb_spec (h : Closed g s) (k : Kernel) :
    (s.absorb g k).1 = { s with lookaheads := (s.absorb g k).1.lookaheads } ∧
      (s.absorb g k).1.lookaheads.size = s.lookaheads.size ∧
      (∀ i t, InTable (s.absorb g k).1.lookaheads i t ↔
        InTable s.lookaheads i t ∨ ∃ e ∈ k.zipIdx.toList, Brings g s.kernel e i t) ∧
      ((s.absorb g k).2 = true → ∃ i t, (∃ e ∈ k.zipIdx.toList, Brings g s.kernel e i t) ∧
        ¬ InTable s.lookaheads i t) ∧
      ((s.absorb g k).2 = false → s.absorb g k = (s, false)) := by
  obtain ⟨h1, h2, h3, h4⟩ := foldl_absorbEntry_spec k.zipIdx.toList
    (s.lookaheads, false) fun item hmem => h.proper.slot_lt_size hmem
  rw [absorb_eq]
  refine ⟨rfl, h1, h2, fun hgrew => ?_, fun hstay => ?_⟩
  · exact (h3 hgrew).resolve_left Bool.false_ne_true
  · have hfalse :
        (k.zipIdx.toList.foldl (absorbEntry g s.kernel) (s.lookaheads, false)).2 = false := hstay
    rw [(h4 hstay).2, hfalse]

/-- If nothing grew, the state had all lookaheads of the kernel. -/
theorem absorb_stayed (h : Closed g s) {k : Kernel} (hstay : (s.absorb g k).2 = false)
    {e : Core × SymbolSet} (he : e ∈ k) (hc : s.KernelHas e.1) {t : Nat} (ht : t ∈ e.2) :
    s.KernelLook e.1 t := by
  obtain ⟨-, -, hin, -, hsame⟩ := absorb_spec h k
  obtain ⟨item, hmem, hcore, hbrings⟩ := exists_brings he hc ht
  refine ⟨item, hmem, hcore, ?_⟩
  have hnew := (hin item.slot t).mpr (Or.inr hbrings)
  rw [hsame hstay] at hnew
  exact hnew

/-- If the state has all lookaheads of the kernel, nothing grows.  This takes that no core of the
    state is there twice: the lookahead might be that of another item. -/
theorem absorb_of_kernelLook (hg : g.IsShort) (h : Closed g s) {k : Kernel}
    (hall : ∀ e ∈ k, s.KernelHas e.1 → ∀ t ∈ e.2, s.KernelLook e.1 t) :
    s.absorb g k = (s, false) := by
  obtain ⟨-, -, -, hnew, hsame⟩ := absorb_spec h k
  refine hsame (Bool.eq_false_iff.mpr fun hgrew => ?_)
  obtain ⟨i, t, hbrings, hnot⟩ := hnew hgrew
  obtain ⟨e, he, ht, item, hmem, hcore, rfl⟩ := exists_of_brings hbrings
  obtain ⟨item', hmem', hcore', ht'⟩ := hall e he ⟨item, hmem, hcore⟩ t ht
  have heq := h.proper.kernel.item_eq (hg.core _) hmem' hmem (hcore'.trans hcore.symm)
  exact hnot (heq ▸ ht')

/-- The state that has absorbed a kernel can be closed. -/
theorem proper_absorb (h : Closed g s) {k : Kernel}
    (hk : ∀ e ∈ k, ∀ t ∈ e.2, t < g.terminalCount) : Proper g (s.absorb g k).1 := by
  obtain ⟨heq, hsize, hin, -⟩ := absorb_spec h k
  rw [heq]
  refine ⟨h.proper.kernel, h.proper.items_le, ?_, fun {i t} hi ht => ?_⟩
  · show s.kernelSize ≤ (s.absorb g k).1.lookaheads.size
    rw [hsize]
    exact h.proper.looks_le
  · rcases (hin i t).mp ht with ht | hbrings
    · exact h.proper.looks_lt hi ht
    · obtain ⟨e, he, ht, -⟩ := exists_of_brings hbrings
      exact hk e he t ht

/-- If something grew, the state that is closed again has the lookaheads of both. -/
theorem absorb_grew (wf : g.WellFormed) (h : Closed g s) {k : Kernel}
    (hk : ∀ e ∈ k, ∀ t ∈ e.2, t < g.terminalCount) (hgrew : (s.absorb g k).2 = true) {s' : State}
    (hs' : ((s.absorb g k).1.rebuild (Analysis.ofGrammar g)).1 = s') :
    Closed g s' ∧ SameShape s s' ∧
      (∀ c t, s'.KernelLook c t ↔
        s.KernelLook c t ∨ (s.KernelHas c ∧ ∃ e ∈ k, e.1 = c ∧ t ∈ e.2)) ∧
      weight g s < weight g s' := by
  have hproper := proper_absorb h hk
  obtain ⟨heq, -, hin, hnew, -⟩ := absorb_spec h k
  generalize (s.absorb g k).1.lookaheads = out at heq hin
  rw [heq] at hproper hs'
  obtain ⟨hclosed, hkernel, hks, hentry, hsig, hmoves, htake⟩ := rebuild_spec wf hproper hs'
  refine ⟨hclosed, ⟨?_, hks, hentry, hsig, hmoves⟩, fun c t => ?_, ?_⟩
  · rw [hclosed.items_eq, h.items_eq, closure_congr hkernel]
    rfl
  · rw [kernelLook_congr hproper hclosed.proper hkernel hks htake]
    show (∃ item ∈ s.kernel, item.core = c ∧ InTable out item.slot t) ↔ _
    constructor
    · rintro ⟨item, hmem, hcore, ht⟩
      rcases (hin _ t).mp ht with ht | hbrings
      · exact Or.inl ⟨item, hmem, hcore, ht⟩
      · obtain ⟨e, he, ht, item', hmem', hcore', hslot⟩ := exists_of_brings hbrings
        -- in a kernel an item is known by its slot
        obtain ⟨i, hi⟩ := Array.mem_iff_getElem?.mp hmem
        obtain ⟨j, hj⟩ := Array.mem_iff_getElem?.mp hmem'
        rw [(h.proper.kernel.slot hi).1, (h.proper.kernel.slot hj).1] at hslot
        rw [hslot, hi] at hj
        injection hj with hj
        exact Or.inr ⟨⟨item, hmem, hcore⟩, e, he, by rw [← hcore', ← hj, hcore], ht⟩
    · rintro (⟨item, hmem, hcore, ht⟩ | ⟨hhas, e, he, rfl, ht⟩)
      · exact ⟨item, hmem, hcore, (hin _ t).mpr (Or.inl ht)⟩
      · obtain ⟨item, hmem, hcore, hbrings⟩ := exists_brings he hhas ht
        exact ⟨item, hmem, hcore, (hin _ t).mpr (Or.inr hbrings)⟩
  · rw [weight_congr (g := g) hks htake]
    -- the terminal that is new counts in the weight
    obtain ⟨i, t, hbrings, hnot⟩ := hnew hgrew
    obtain ⟨e, he, ht, item, hmem, -, hslot⟩ := exists_of_brings hbrings
    exact tally_lt (fun i t ht => (hin i t).mpr (Or.inl ht)) (hslot ▸ h.proper.slot_lt hmem)
      (hk e he t ht) ((hin i t).mpr (Or.inr hbrings)) hnot

end State

end Lalr
