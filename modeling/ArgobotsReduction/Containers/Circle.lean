import Mathlib.Data.List.Cycle
import ArgobotsReduction.Containers.LinkedChain

/-!
# Circles of nodes linked in both directions

In a circle every node has a link to the next node and one back, and the last node
is followed by the first one.  A circle has no place where it begins
(`Circular.rotate`), so that a node put in between the last and the first one may be
taken for either (`Circular.insert`), and every node may be taken for the first one
to be removed (`Circular.remove`).  What a walk along the links visits is the list
of the nodes (`Circular.follow`).

`End` is an end of a list, with the operations of a double-ended queue.
-/

set_option autoImplicit false

namespace Containers

universe u

variable {Node : Type u}

/-- The ends of a list. -/
inductive End where
  | head
  | tail
  deriving DecidableEq

namespace End

/-- Put an element at an end. -/
def push : End → Node → List Node → List Node
  | .head, node, nodes => node :: nodes
  | .tail, node, nodes => nodes ++ [node]

/-- The element at an end. -/
def peek : End → List Node → Option Node
  | .head, nodes => nodes.head?
  | .tail, nodes => nodes.getLast?

/-- Take the element away from an end. -/
def drop : End → List Node → List Node
  | .head, nodes => nodes.tail
  | .tail, nodes => nodes.dropLast

/-- Put elements at an end, one after the other. -/
def pushAll (side : End) (more nodes : List Node) : List Node :=
  more.foldl (fun nodes node => side.push node nodes) nodes

/-- Take elements from an end, one after the other, until there is none any more. -/
def popAll (side : End) : ℕ → List Node → List Node × List Node
  | 0, nodes => ([], nodes)
  | count + 1, nodes =>
      match side.peek nodes with
      | none => ([], nodes)
      | some node => ((popAll side count (side.drop nodes)).1.cons node,
          (popAll side count (side.drop nodes)).2)

theorem peek_eq_none {side : End} {nodes : List Node} : side.peek nodes = none ↔ nodes = [] := by
  cases side <;> simp [peek]

theorem drop_nil (side : End) : side.drop ([] : List Node) = [] := by
  cases side <;> rfl

theorem mem_push {side : End} {node other : Node} {nodes : List Node} :
    other ∈ side.push node nodes ↔ other = node ∨ other ∈ nodes := by
  cases side <;> simp [push, or_comm]

theorem push_perm (side : End) (node : Node) (nodes : List Node) :
    (side.push node nodes).Perm (node :: nodes) := by
  cases side with
  | head => exact .refl _
  | tail => exact List.perm_append_comm

theorem drop_sublist (side : End) (nodes : List Node) : (side.drop nodes).Sublist nodes := by
  cases side with
  | head => exact List.tail_sublist nodes
  | tail => exact List.dropLast_sublist nodes

theorem length_push (side : End) (node : Node) (nodes : List Node) :
    (side.push node nodes).length = nodes.length + 1 := by
  cases side <;> simp [push]

theorem peek_push (side : End) (node : Node) (nodes : List Node) :
    side.peek (side.push node nodes) = some node := by
  cases side with
  | head => rfl
  | tail => exact List.getLast?_concat

theorem push_ne_nil (side : End) (node : Node) (nodes : List Node) : side.push node nodes ≠ [] := by
  cases side <;> simp [push]

theorem nodup_push {side : End} {node : Node} {nodes : List Node} (absent : node ∉ nodes)
    (nodup : nodes.Nodup) : (side.push node nodes).Nodup := by
  cases side with
  | head => exact nodup.cons absent
  | tail => exact nodup.append (List.nodup_singleton _) (List.disjoint_singleton.mpr absent)

/-- **A list is put together from the element at an end and the others.** -/
theorem push_drop {side : End} {node : Node} {nodes : List Node}
    (peek : side.peek nodes = some node) : side.push node (side.drop nodes) = nodes := by
  cases side with
  | head => exact List.cons_head?_tail peek
  | tail => exact List.dropLast_append_getLast? node peek

end End

/-- A node and the next one are linked in both directions. -/
def Joined (next prev : Node → Option Node) (node other : Node) : Prop :=
  next node = some other ∧ prev other = some node

/-- The nodes are linked in both directions, in this order and round. -/
def Circular (next prev : Node → Option Node) (nodes : List Node) : Prop :=
  Cycle.Chain (Joined next prev) (nodes : Cycle Node)

/-- A chain keeps all relations that do not lead from its last or to its first element. -/
theorem isChain_imp_inner {nodes : List Node} {R S : Node → Node → Prop} (nodup : nodes.Nodup)
    (chain : nodes.IsChain R)
    (inner : ∀ a ∈ nodes, ∀ b ∈ nodes, nodes.getLast? ≠ some a → nodes.head? ≠ some b → R a b →
      S a b) : nodes.IsChain S := by
  refine List.isChain_iff_forall_rel_of_append_cons_cons.mpr fun a b front back split => ?_
  subst split
  obtain ⟨-, rest, apart⟩ := List.nodup_append.mp nodup
  refine inner a (by simp) b (by simp) (fun last => ?_) (fun first => ?_)
    (List.isChain_append_cons_cons.mp chain).2.1
  · rw [List.getLast?_append_of_ne_nil _ (List.cons_ne_nil _ _), List.getLast?_cons_cons] at last
    exact (List.nodup_cons.mp rest).1 (List.mem_of_getLast? last)
  · cases front with
    | nil =>
        obtain rfl := Option.some.inj first
        exact (List.nodup_cons.mp rest).1 List.mem_cons_self
    | cons first' front =>
        obtain rfl := Option.some.inj first
        exact apart _ List.mem_cons_self _ (List.mem_cons_of_mem _ List.mem_cons_self) rfl

namespace Circular

variable {next prev next' prev' : Node → Option Node} {nodes : List Node} {node first last : Node}

theorem nil (next prev : Node → Option Node) : Circular next prev [] := Cycle.Chain.nil _

theorem singleton (onward : next node = some node) (back : prev node = some node) :
    Circular next prev [node] :=
  (Cycle.chain_singleton _ _).mpr ⟨onward, back⟩

/-- **A circle has no place where it begins.** -/
theorem rotate {front back : List Node} :
    Circular next prev (front ++ back) ↔ Circular next prev (back ++ front) := by
  rw [Circular, Cycle.coe_eq_coe.mpr List.isRotated_append]
  rfl

/-- A circle is a chain that is closed. -/
theorem iff_closed (head : nodes.head? = some first) (tail : nodes.getLast? = some last) :
    Circular next prev nodes ↔ nodes.IsChain (Joined next prev) ∧ Joined next prev last first := by
  cases nodes with
  | nil => cases head
  | cons node rest =>
      obtain rfl := Option.some.inj head
      rw [Circular, Cycle.chain_coe_cons, ← List.cons_append, List.isChain_append, tail]
      simp

/-- A circle depends on the links of its own nodes. -/
theorem congr (circular : Circular next prev nodes)
    (same : ∀ node ∈ nodes, next' node = next node ∧ prev' node = prev node) :
    Circular next' prev' nodes := by
  cases nodes with
  | nil => exact .nil ..
  | cons node rest =>
      have member : ∀ other ∈ node :: (rest ++ [node]), other ∈ node :: rest := by simp [or_comm]
      refine List.IsChain.imp_of_mem_imp (fun a b inA inB joined => ?_) circular
      rw [Joined, (same a (member a inA)).1, (same b (member b inB)).2]
      exact joined

variable [DecidableEq Node]

/-- **A node is put in between the last and the first one.** -/
theorem insert (circular : Circular next prev nodes) (nodup : nodes.Nodup) (absent : node ∉ nodes)
    (head : nodes.head? = some first) (tail : nodes.getLast? = some last) (side : End) :
    Circular (Function.update (Function.update next last (some node)) node (some first))
      (Function.update (Function.update prev first (some node)) node (some last))
      (side.push node nodes) := by
  have notFirst : first ≠ node := ne_of_mem_of_not_mem (List.mem_of_mem_head? head) absent
  have notLast : last ≠ node := ne_of_mem_of_not_mem (List.mem_of_getLast? tail) absent
  suffices atHead : Circular
      (Function.update (Function.update next last (some node)) node (some first))
      (Function.update (Function.update prev first (some node)) node (some last))
      ([node] ++ nodes) by
    cases side with
    | head => exact atHead
    | tail => exact rotate.mp atHead
  obtain ⟨chain, -⟩ := (iff_closed head tail).mp circular
  have tail' : ([node] ++ nodes).getLast? = some last := by
    rw [List.getLast?_append, tail]
    rfl
  refine (iff_closed rfl tail').mpr ⟨?_, by simp [notLast], by simp⟩
  refine List.isChain_cons.mpr ⟨fun other isHead => ?_, ?_⟩
  · obtain rfl := Option.some.inj (head.symm.trans isHead)
    exact ⟨by simp, by simp [notFirst]⟩
  · refine isChain_imp_inner nodup chain fun a inA b inB notLast notFirst joined => ?_
    have aNode : a ≠ node := ne_of_mem_of_not_mem inA absent
    have bNode : b ≠ node := ne_of_mem_of_not_mem inB absent
    have aLast : a ≠ last := fun same => notLast (same ▸ tail)
    have bFirst : b ≠ first := fun same => notFirst (same ▸ head)
    simpa [Joined, aNode, bNode, aLast, bFirst] using joined

omit [DecidableEq Node] in
/-- The links of the first node of a circle. -/
theorem links (circular : Circular next prev (node :: nodes)) (head : nodes.head? = some first)
    (tail : nodes.getLast? = some last) : next node = some first ∧ prev node = some last := by
  have tail' : (node :: nodes).getLast? = some last := by
    rw [List.getLast?_cons, tail]
    rfl
  obtain ⟨chain, closed⟩ := (iff_closed rfl tail').mp circular
  exact ⟨((List.isChain_cons.mp chain).1 first head).1, closed.2⟩

omit [DecidableEq Node] in
/-- A node at an end may be taken for the first one. -/
theorem of_push {side : End} (circular : Circular next prev (side.push node nodes)) :
    Circular next prev (node :: nodes) := by
  cases side with
  | head => exact circular
  | tail => exact rotate.mp circular

/-- **The first node is removed.** -/
theorem remove (circular : Circular next prev (node :: nodes)) (nodup : (node :: nodes).Nodup)
    (head : nodes.head? = some first) (tail : nodes.getLast? = some last) :
    Circular (Function.update next last (some first)) (Function.update prev first (some last))
      nodes := by
  have tail' : (node :: nodes).getLast? = some last := by
    rw [List.getLast?_cons, tail]
    rfl
  obtain ⟨chain, -⟩ := (iff_closed rfl tail').mp circular
  refine (iff_closed head tail).mpr ⟨?_, by simp, by simp⟩
  refine isChain_imp_inner (List.nodup_cons.mp nodup).2 (List.isChain_cons.mp chain).2
    fun a _ b _ notLast notFirst joined => ?_
  have aLast : a ≠ last := fun same => notLast (same ▸ tail)
  have bFirst : b ≠ first := fun same => notFirst (same ▸ head)
  simpa [Joined, aLast, bFirst] using joined

omit [DecidableEq Node] in
/-- **A walk along the links visits the nodes in their order.** -/
theorem follow (circular : Circular next prev nodes) :
    Containers.follow next nodes.length nodes.head? = nodes := by
  cases nodes with
  | nil => rfl
  | cons node rest =>
      have chain := (List.isChain_append.mp circular).1
      suffices walks : ∀ node, (node :: rest).IsChain (Joined next prev) →
          Containers.follow next (rest.length + 1) (some node) = node :: rest from walks node chain
      clear circular chain
      induction rest with
      | nil =>
          intro node _
          rfl
      | cons other rest ih =>
          intro node chain
          obtain ⟨joined, chain⟩ := List.isChain_cons_cons.mp chain
          rw [Containers.follow, joined.1, List.length_cons, ih other chain]

end Circular

end Containers
