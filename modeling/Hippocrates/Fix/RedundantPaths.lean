import Mathlib.Tactic
import Hippocrates.Lib.Traversal

/-!
`redundantPaths` of the `FlowAnalyzer`: the nodes of a context graph from which on a flush is taken
for redundant.

* `ContextGraph`: the graph between two events, and the information on its nodes.
* `redundantNodes`: the three passes. Whether a node is redundant in its parents, and in its
  children, is evaluated once for each node, in the order of a breadth-first traversal.
* `Sees`: what a pass finds out: a spoiled node is seen along nodes that are evaluated one after the
  other. The node itself is not looked at.
* `sound_iff`: there is no spoiled node on the paths through the returned nodes exactly when on
  every path with a spoiled node, all nodes but the roots see one.
-/

namespace Hippocrates

/-- The information on a node, before the passes. -/
structure Info where
  updated : Bool
  isNotRedundant : Bool
deriving DecidableEq

/-- A context graph. The nodes begin with the instruction `first`. The roots and the leaves have
been interpreted, and are not spoiled. -/
structure ContextGraph (V I : Type*) where
  nodes : List V
  mem_nodes : ∀ v, v ∈ nodes
  parents : V → List V
  children : V → List V
  mem_parents : ∀ u v, u ∈ parents v ↔ v ∈ children u
  roots : List V
  leaves : List V
  first : V → I
  metadata : V → Info
  roots_info : ∀ v ∈ roots, (metadata v).updated = true ∧ (metadata v).isNotRedundant = false
  leaves_info : ∀ v ∈ leaves, (metadata v).updated = true ∧ (metadata v).isNotRedundant = false

/-- A node is evaluated: it is redundant if its neighbors are not spoiled and redundant. -/
def propagate {V : Type*} [DecidableEq V] (spoiled : V → Bool) (neighbors : V → List V)
    (isRedt : V → Bool) (node : V) : V → Bool :=
  (neighbors node).foldl (fun isRedt neighbor =>
    Function.update isRedt node (isRedt node && (!spoiled neighbor && isRedt neighbor))) isRedt

namespace ContextGraph

variable {V I : Type*} [DecidableEq V] (G : ContextGraph V I)

def spoiled (v : V) : Bool := (G.metadata v).isNotRedundant

/-- `DOWN PROP`, for `isRedtInParents`. -/
def downProp : (V → Bool) → V → V → Bool := propagate G.spoiled G.parents

/-- `UP PROP`, for `isRedtInChildren`. -/
def upProp : (V → Bool) → V → V → Bool := propagate G.spoiled G.children

/-- The first pass, from the roots. `none` is an assertion that fails. -/
def inParents : Option (V → Bool) :=
  if G.roots.all fun v => (G.metadata v).updated && !(G.children v).isEmpty then
    Traversal.run G.downProp G.children G.nodes (G.roots.flatMap G.children) G.roots fun _ => true
  else none

/-- The second pass, from the leaves. -/
def inChildren : Option (V → Bool) :=
  if G.leaves.all fun v => (G.metadata v).updated && !(G.parents v).isEmpty && !G.spoiled v then
    Traversal.run G.upProp G.parents G.nodes (G.leaves.flatMap G.parents) G.leaves fun _ => true
  else none

/-- The third pass: from the roots down to the first nodes that are redundant in both. -/
def selectNodes (isRedtInParents isRedtInChildren : V → Bool) : Option (List V) :=
  Traversal.run
    (fun points node =>
      if isRedtInChildren node && isRedtInParents node then points ++ [node] else points)
    (fun node => if isRedtInChildren node && isRedtInParents node then [] else G.children node)
    G.nodes (G.roots.flatMap G.children) G.roots []

/-- The nodes whose first instructions are returned. -/
def redundantNodes : Option (List V) :=
  G.inParents.bind fun isRedtInParents => G.inChildren.bind fun isRedtInChildren =>
    G.selectNodes isRedtInParents isRedtInChildren

/-- `redundantPaths`. -/
def redundantPaths : Option (List I) := G.redundantNodes.map fun nodes => nodes.map G.first

/-! ### Paths -/

/-- A path from a root to a leaf. -/
structure Path (l : List V) : Prop where
  chain : l.IsChain fun u v => v ∈ G.children u
  root : ∃ v ∈ G.roots, l.head? = some v
  leaf : ∃ v ∈ G.leaves, l.getLast? = some v

/-- No spoiled node is on a path through a node whose first instruction is returned. -/
def Sound : Prop :=
  ∀ nodes, G.redundantNodes = some nodes → ∀ n ∈ nodes, ∀ l, G.Path l → n ∈ l →
    ∀ v ∈ l, G.spoiled v = false

/-- The roots have children, and the leaves parents. -/
def Asserted : Prop := (∀ v ∈ G.roots, G.children v ≠ []) ∧ ∀ v ∈ G.leaves, G.parents v ≠ []

end ContextGraph

/-! ### One pass -/

section Pass

variable {V : Type*}

/-- `u` is evaluated before `v`. -/
def Before (order : List V) (u v : V) : Prop := ∃ l₁ l₂, order = l₁ ++ v :: l₂ ∧ u ∈ l₁

/-- A spoiled node is a neighbor, or is seen by a neighbor that is evaluated before. -/
inductive Sees (spoiled : V → Bool) (neighbors : V → List V) (order : List V) : V → Prop
  | here {u v : V} (hv : v ∈ order) (hu : u ∈ neighbors v) (h : spoiled u = true) :
      Sees spoiled neighbors order v
  | there {u v : V} (hu : u ∈ neighbors v) (huv : Before order u v)
      (h : Sees spoiled neighbors order u) : Sees spoiled neighbors order v

variable {spoiled : V → Bool} {neighbors : V → List V} {order : List V} {isRedt : V → Bool}
  {a u v : V}

lemma Before.mem (h : Before order u v) : v ∈ order := by
  obtain ⟨l₁, l₂, rfl, -⟩ := h
  simp

lemma Sees.mem (h : Sees spoiled neighbors order v) : v ∈ order := by
  cases h with
  | here hv hu h => exact hv
  | there hu huv h => exact huv.mem

lemma before_concat_iff (ha : a ∉ order) :
    Before (order ++ [a]) u v ↔ Before order u v ∨ v = a ∧ u ∈ order := by
  constructor
  · rintro ⟨l₁, l₂, h, hu⟩
    rcases List.eq_nil_or_concat l₂ with rfl | ⟨l₂, b, rfl⟩
    · obtain ⟨rfl, hav⟩ := List.append_inj' h rfl
      exact .inr ⟨(List.singleton_inj.mp hav).symm, hu⟩
    · have happ : order ++ [a] = (l₁ ++ v :: l₂) ++ [b] := by simpa using h
      obtain ⟨rfl, -⟩ := List.append_inj' happ rfl
      exact .inl ⟨l₁, l₂, rfl, hu⟩
  · rintro (⟨l₁, l₂, rfl, hu⟩ | ⟨rfl, hu⟩)
    · exact ⟨l₁, l₂ ++ [a], by simp, hu⟩
    · exact ⟨order, [], rfl, hu⟩

/-- What is evaluated later is not seen. -/
lemma sees_concat_iff (ha : a ∉ order) (hv : v ≠ a) :
    Sees spoiled neighbors (order ++ [a]) v ↔ Sees spoiled neighbors order v := by
  constructor
  · intro h
    induction h with
    | @here u v hmem hu h =>
        have hmem : v ∈ order := by simpa [hv] using hmem
        exact .here hmem hu h
    | @there u v hu huv h ih =>
        have hbefore := ((before_concat_iff ha).mp huv).resolve_right fun h => hv h.1
        obtain ⟨l₁, l₂, rfl, hmem⟩ := hbefore
        have hne : u ≠ a := by
          rintro rfl
          exact ha (List.mem_append_left _ hmem)
        exact .there hu ⟨l₁, l₂, rfl, hmem⟩ (ih hne)
  · intro h
    induction h with
    | here hmem hu h => exact .here (List.mem_append_left _ hmem) hu h
    | @there u v hu huv h ih =>
        have hne : u ≠ a := by
          rintro rfl
          exact ha h.mem
        exact .there hu ((before_concat_iff ha).mpr (.inl huv)) (ih hne)

variable [DecidableEq V]

lemma propagate_of_ne (h : v ≠ a) : propagate spoiled neighbors isRedt a v = isRedt v := by
  rw [propagate]
  induction neighbors a generalizing isRedt with
  | nil => rfl
  | cons u l ih => rw [List.foldl_cons, ih, Function.update_of_ne h]

/-- The flag of a node that is evaluated. Its own flag does not count among those of its
neighbors. -/
lemma propagate_self_iff : propagate spoiled neighbors isRedt a a = true ↔ isRedt a = true ∧
    ∀ u ∈ neighbors a, spoiled u = false ∧ (u ≠ a → isRedt u = true) := by
  rw [propagate]
  induction neighbors a generalizing isRedt with
  | nil => simp
  | cons u l ih =>
      have hrest : ∀ b : Bool, (∀ w ∈ l, spoiled w = false ∧
          (w ≠ a → Function.update isRedt a b w = true)) ↔
            ∀ w ∈ l, spoiled w = false ∧ (w ≠ a → isRedt w = true) := by
        intro b
        refine forall₂_congr fun w _ => and_congr_right fun _ => forall_congr' fun hw => ?_
        rw [Function.update_of_ne hw]
      rw [List.foldl_cons, ih, Function.update_self, hrest, List.forall_mem_cons, ← and_assoc]
      refine and_congr_left fun _ => ?_
      by_cases hu : u = a
      · subst hu
        simp
        tauto
      · simp [hu]

/-- A pass finds the nodes that see no spoiled node. -/
lemma foldl_propagate_iff (hnodup : order.Nodup) :
    order.foldl (propagate spoiled neighbors) (fun _ => true) v = true ↔
      ¬ Sees spoiled neighbors order v := by
  induction order using List.reverseRecOn generalizing v with
  | nil =>
      refine iff_of_true rfl fun h => ?_
      cases h.mem
  | append_singleton order a ih =>
      obtain ⟨hord, -, hdisjoint⟩ := List.nodup_append.mp hnodup
      have ha : a ∉ order := fun h => hdisjoint a h a List.mem_cons_self rfl
      rw [List.foldl_append, List.foldl_cons, List.foldl_nil]
      by_cases hv : v = a
      · subst hv
        -- the node that the pass adds sees what its neighbors saw before it
        rw [propagate_self_iff, and_iff_right ((ih hord).mpr (mt Sees.mem ha))]
        simp only [ih hord]
        constructor
        · intro h hsees
          cases hsees with
          | here hmem hu hspoiled =>
              rw [(h _ hu).1] at hspoiled
              cases hspoiled
          | @there u _ hu huv hsees =>
              have hmem : u ∈ order := by
                rcases (before_concat_iff ha).mp huv with hbefore | ⟨-, hmem⟩
                · exact absurd hbefore.mem ha
                · exact hmem
              have hne : u ≠ v := by
                rintro rfl
                exact ha hmem
              exact (h u hu).2 hne ((sees_concat_iff ha hne).mp hsees)
        · intro h u hu
          refine ⟨?_, fun hne hsees => h (.there hu ?_ ((sees_concat_iff ha hne).mpr hsees))⟩
          · by_contra hspoiled
            exact h (.here (by simp) hu (by simpa using hspoiled))
          · exact (before_concat_iff ha).mpr (.inr ⟨rfl, hsees.mem⟩)
      · rw [propagate_of_ne hv, ih hord, sees_concat_iff ha hv]

end Pass

/-! ### The three passes -/

namespace ContextGraph

variable {V I : Type*} [DecidableEq V] (G : ContextGraph V I) {n : V} {l : List V}

/-- The nodes in the order in which the first pass evaluates them. -/
def downOrder : List V :=
  Traversal.visited G.children G.nodes (G.roots.flatMap G.children) G.roots

/-- The nodes in the order in which the second pass evaluates them. -/
def upOrder : List V :=
  Traversal.visited G.parents G.nodes (G.leaves.flatMap G.parents) G.leaves

/-- The node sees a spoiled node among its parents, their parents, and so on. -/
def SeesAbove : V → Prop := Sees G.spoiled G.parents G.downOrder

/-- The node sees a spoiled node among its children, their children, and so on. -/
def SeesBelow : V → Prop := Sees G.spoiled G.children G.upOrder

/-- A node that the third pass descends from. -/
def Spoils (n : V) : Prop := G.SeesAbove n ∨ G.SeesBelow n

lemma inParents_eq : G.inParents =
    if ∀ v ∈ G.roots, G.children v ≠ [] then
      some (G.downOrder.foldl G.downProp fun _ => true) else none := by
  rw [inParents, Traversal.run_eq_foldl G.mem_nodes]
  congr 1
  simp only [List.all_eq_true, Bool.and_eq_true, eq_iff_iff]
  refine forall₂_congr fun v hv => ?_
  simp [(G.roots_info v hv).1]

lemma inChildren_eq : G.inChildren =
    if ∀ v ∈ G.leaves, G.parents v ≠ [] then
      some (G.upOrder.foldl G.upProp fun _ => true) else none := by
  rw [inChildren, Traversal.run_eq_foldl G.mem_nodes]
  congr 1
  simp only [List.all_eq_true, Bool.and_eq_true, eq_iff_iff]
  refine forall₂_congr fun v hv => ?_
  simp [(G.leaves_info v hv).1, spoiled, (G.leaves_info v hv).2]

/-- The nodes after a node in the third pass. -/
def selectNext (selected : V → Bool) (node : V) : List V :=
  if selected node then [] else G.children node

/-- The nodes that the third pass comes to. -/
def Reached (selected : V → Bool) : V → Prop :=
  Traversal.Reached (G.selectNext selected) (G.roots.flatMap G.children) G.roots

omit [DecidableEq V] in
/-- The nodes of a list that are selected are collected. -/
lemma foldl_select (selected : V → Bool) (points : List V) :
    l.foldl (fun points node => if selected node then points ++ [node] else points) points =
      points ++ l.filter selected := by
  induction l generalizing points with
  | nil => simp
  | cons a l ih =>
      rw [List.foldl_cons, ih, List.filter_cons]
      split <;> simp

/-- The nodes that are returned are those that the third pass comes to and that see no spoiled
node. -/
lemma exists_redundantNodes (h : G.Asserted) :
    ∃ selected nodes, (∀ n, selected n = true ↔ ¬ G.Spoils n) ∧ G.redundantNodes = some nodes ∧
      ∀ n, n ∈ nodes ↔ G.Reached selected n ∧ ¬ G.Spoils n := by
  set down := G.downOrder.foldl G.downProp fun _ => true with hdown
  set up := G.upOrder.foldl G.upProp fun _ => true with hup
  have hsees : ∀ n, (up n && down n) = true ↔ ¬ G.Spoils n := by
    intro n
    have hdown' : down n = true ↔ ¬ G.SeesAbove n :=
      foldl_propagate_iff (Traversal.nodup_visited G.mem_nodes)
    have hup' : up n = true ↔ ¬ G.SeesBelow n :=
      foldl_propagate_iff (Traversal.nodup_visited G.mem_nodes)
    rw [Bool.and_eq_true, hup', hdown', Spoils, not_or, and_comm]
  set selected : V → Bool := fun n => up n && down n
  refine ⟨selected, (Traversal.visited (G.selectNext selected) G.nodes
    (G.roots.flatMap G.children) G.roots).filter selected, hsees, ?_, fun n => ?_⟩
  · rw [redundantNodes, inParents_eq, if_pos h.1, inChildren_eq, if_pos h.2]
    simp only [Option.bind_some]
    rw [selectNodes, Traversal.run_eq_foldl G.mem_nodes]
    exact congrArg some (foldl_select selected [])
  · rw [List.mem_filter, Traversal.mem_visited_iff G.mem_nodes, hsees]
    rfl

/-- Otherwise an assertion fails. -/
lemma redundantNodes_eq_none (h : ¬ G.Asserted) : G.redundantNodes = none := by
  rw [redundantNodes, inParents_eq, inChildren_eq]
  rcases not_and_or.mp h with hroots | hleaves
  · rw [if_neg hroots, Option.bind_none]
  · rw [if_neg hleaves]
    exact Option.bind_fun_none _

/-- On a path with a node that sees no spoiled node, the third pass comes to such a node. -/
lemma exists_reached {selected : V → Bool} (hselected : ∀ n, selected n = true ↔ ¬ G.Spoils n)
    (hchain : l.IsChain fun u v => v ∈ G.children u)
    (hhead : ∀ u ∈ l.head?, u ∈ G.roots ∨ G.Reached selected u) (hn : n ∈ l) (hroot : n ∉ G.roots)
    (hsees : ¬ G.Spoils n) : ∃ m ∈ l, G.Reached selected m ∧ ¬ G.Spoils m := by
  induction l with
  | nil => cases hn
  | cons u l ih =>
      by_cases hu : u ∉ G.roots ∧ ¬ G.Spoils u
      · exact ⟨u, List.mem_cons_self, (hhead u rfl).resolve_left hu.1, hu.2⟩
      · -- the traversal descends from this node
        have hne : n ≠ u := by
          rintro rfl
          exact hu ⟨hroot, hsees⟩
        have hnl : n ∈ l := (List.mem_cons.mp hn).resolve_left hne
        have hnext : ∀ v ∈ l.head?, v ∈ G.roots ∨ G.Reached selected v := by
          intro v hv
          have hedge : v ∈ G.children u := hchain.rel_head? hv
          by_cases hvroot : v ∈ G.roots
          · exact .inl hvroot
          · refine .inr ?_
            rcases hhead u rfl with huroot | hreached
            · exact .frontier (List.mem_flatMap.mpr ⟨u, huroot, hedge⟩) hvroot
            · have hspoils : G.Spoils u :=
                not_not.mp fun hno => hu ⟨Traversal.Reached.not_mem hreached, hno⟩
              have hselect : selected u ≠ true := fun h => (hselected u).mp h hspoils
              exact .next hreached (by rwa [selectNext, if_neg hselect]) hvroot
        obtain ⟨m, hm, hreached⟩ := ih hchain.tail hnext hnl
        exact ⟨m, List.mem_cons_of_mem u hm, hreached⟩

/-- **No spoiled node is on the paths through the returned nodes** exactly when on every path with a
spoiled node, all nodes but the roots see one. -/
theorem sound_iff : G.Sound ↔ (G.Asserted → ∀ l, G.Path l → (∃ v ∈ l, G.spoiled v = true) →
    ∀ n ∈ l, n ∉ G.roots → G.SeesAbove n ∨ G.SeesBelow n) := by
  by_cases hasserted : G.Asserted
  · obtain ⟨selected, nodes, hselected, hnodes, hmem⟩ := G.exists_redundantNodes hasserted
    constructor
    -- a node that sees none is reached by the traversal, or one before it on the path is
    · rintro h - l hpath ⟨v, hv, hspoiled⟩ n hn hroot
      by_contra hsees
      obtain ⟨r, hr, hhead⟩ := hpath.root
      have hstart : ∀ u ∈ l.head?, u ∈ G.roots ∨ G.Reached selected u := by
        intro u hu
        obtain rfl : r = u := by simpa [hhead] using hu
        exact .inl hr
      obtain ⟨m, hm, hreached⟩ := G.exists_reached hselected hpath.chain hstart hn hroot hsees
      have hsound := h nodes hnodes m ((hmem m).mpr hreached) l hpath hm v hv
      rw [hspoiled] at hsound
      cases hsound
    · intro h nodes' hnodes' n hn l hpath hnl v hv
      obtain rfl : nodes = nodes' := Option.some.inj (hnodes.symm.trans hnodes')
      obtain ⟨hreached, hsees⟩ := (hmem n).mp hn
      by_contra hspoiled
      have hspoiled : G.spoiled v = true := by simpa using hspoiled
      -- a returned node has been reached, so it is no root
      exact hsees (h hasserted l hpath ⟨v, hv, hspoiled⟩ n hnl (Traversal.Reached.not_mem hreached))
  · refine iff_of_true (fun nodes hnodes => ?_) fun h => absurd h hasserted
    rw [G.redundantNodes_eq_none hasserted] at hnodes
    cases hnodes

/-! ### Spoiled nodes that are not seen -/

/-- A graph of three nodes in a row, of which the second is spoiled. -/
def rowGraph : ContextGraph (Fin 3) (Fin 3) where
  nodes := [0, 1, 2]
  mem_nodes := by decide
  parents := ![[], [0], [1]]
  children := ![[1], [2], []]
  mem_parents := by decide
  roots := [0]
  leaves := [2]
  first := id
  metadata := ![⟨true, false⟩, ⟨true, true⟩, ⟨true, false⟩]
  roots_info := by decide
  leaves_info := by decide

/-- A graph with two ways from `0` to `3`, the longer of which is spoiled. -/
def sideGraph : ContextGraph (Fin 5) (Fin 5) where
  nodes := [0, 1, 2, 3, 4]
  mem_nodes := by decide
  parents := ![[], [0], [1], [0, 2], [3]]
  children := ![[1, 3], [2], [3], [4], []]
  mem_parents := by decide
  roots := [0]
  leaves := [4]
  first := id
  metadata := ![⟨true, false⟩, ⟨true, true⟩, ⟨true, false⟩, ⟨true, false⟩, ⟨true, false⟩]
  roots_info := by decide
  leaves_info := by decide

/-- The spoiled node is returned itself, and so is a node that is evaluated before the spoiled way
to it. -/
theorem rowGraph_not_sound :
    rowGraph.redundantPaths = some [1] ∧ ¬ rowGraph.Sound ∧
      sideGraph.redundantPaths = some [1, 3] ∧ sideGraph.Path [0, 1, 2, 3, 4] := by
  refine ⟨by decide, fun h => ?_, by decide, by decide, by decide, by decide⟩
  have hpath : rowGraph.Path [0, 1, 2] := ⟨by decide, by decide, by decide⟩
  have hspoiled := h [1] (by decide) 1 (by decide) [0, 1, 2] hpath (by decide) 1 (by decide)
  revert hspoiled
  decide

end ContextGraph

end Hippocrates
