import Mathlib.Data.List.Nodup
import Mathlib.Logic.Function.Basic

/-!
# Chains of nodes linked by a field

Every node of a heap has a link to another node or to none.  `Linked next
pointer nodes` says that the chain from `pointer` visits `nodes`, in this order,
and then ends.  A chain depends on the links of its own nodes only
(`Linked.congr`); it can be cut and spliced by writing one link
(`Linked.splice`), at a node found by walking along it (`Linked.walk`).
-/

set_option autoImplicit false

namespace Containers

universe u

variable {Node : Type u}

/-- The chain from a pointer consists of these nodes. -/
def Linked (next : Node → Option Node) : Option Node → List Node → Prop
  | pointer, [] => pointer = none
  | pointer, node :: nodes => pointer = some node ∧ Linked next (next node) nodes

/-- The pointer after following the links a number of times. -/
def walk (next : Node → Option Node) : ℕ → Option Node → Option Node
  | 0, pointer => pointer
  | steps + 1, pointer => walk next steps (pointer.bind next)

/-- The first nodes of a chain. -/
def follow (next : Node → Option Node) : ℕ → Option Node → List Node
  | 0, _ => []
  | _ + 1, none => []
  | count + 1, some node => node :: follow next count (next node)

/-- Link the nodes of a list one after the other. -/
def arrange [DecidableEq Node] (next : Node → Option Node) : List Node → Node → Option Node
  | [] => next
  | node :: nodes => Function.update (arrange next nodes) node nodes.head?

namespace Linked

variable {next next' : Node → Option Node} {pointer : Option Node} {nodes : List Node}

@[simp]
theorem nil_iff : Linked next pointer [] ↔ pointer = none :=
  Iff.rfl

@[simp]
theorem cons_iff {node : Node} :
    Linked next pointer (node :: nodes) ↔ pointer = some node ∧ Linked next (next node) nodes :=
  Iff.rfl

theorem head (linked : Linked next pointer nodes) : pointer = nodes.head? := by
  cases nodes with
  | nil => exact linked
  | cons node rest => exact linked.1

theorem mem_of_some {node : Node} (linked : Linked next (some node) nodes) : node ∈ nodes :=
  List.mem_of_mem_head? linked.head.symm

/-- A pointer has one chain. -/
theorem unique {others : List Node} (linked : Linked next pointer nodes)
    (again : Linked next pointer others) : nodes = others := by
  induction nodes generalizing pointer others with
  | nil =>
      cases others with
      | nil => rfl
      | cons node rest => exact absurd (linked.symm.trans again.1) (by simp)
  | cons node rest ih =>
      cases others with
      | nil => exact absurd (again.symm.trans linked.1) (by simp)
      | cons other more =>
          obtain ⟨rfl, tail⟩ := linked
          obtain ⟨same, otherTail⟩ := again
          obtain rfl := Option.some.inj same
          rw [ih tail otherTail]

/-- **A chain depends on the links of its own nodes.** -/
theorem congr (linked : Linked next pointer nodes)
    (same : ∀ node ∈ nodes, next' node = next node) : Linked next' pointer nodes := by
  induction nodes generalizing pointer with
  | nil => exact linked
  | cons node rest ih =>
      refine ⟨linked.1, ?_⟩
      rw [same node List.mem_cons_self]
      exact ih linked.2 fun other member => same other (List.mem_cons_of_mem _ member)

/-- Walking past the front of a chain leaves the rest of it. -/
theorem walk {front rest : List Node} (linked : Linked next pointer (front ++ rest)) :
    Linked next (Containers.walk next front.length pointer) rest := by
  induction front generalizing pointer with
  | nil => exact linked
  | cons node front ih =>
      obtain ⟨rfl, tail⟩ := linked
      exact ih tail

theorem walk_eq {front rest : List Node} {node : Node}
    (linked : Linked next pointer (front ++ node :: rest)) :
    Containers.walk next front.length pointer = some node :=
  linked.walk.1

/-- **Writing the link of one node replaces what follows it.** -/
theorem splice [DecidableEq Node] {front rest back : List Node} {node : Node} {target : Option Node}
    (linked : Linked next pointer (front ++ node :: rest)) (other : Linked next target back)
    (notFront : node ∉ front) (notBack : node ∉ back) :
    Linked (Function.update next node target) pointer (front ++ node :: back) := by
  induction front generalizing pointer with
  | nil =>
      refine ⟨linked.1, ?_⟩
      rw [Function.update_self]
      exact other.congr fun n member =>
        Function.update_of_ne (ne_of_mem_of_not_mem member notBack) _ _
  | cons first front ih =>
      refine ⟨linked.1, ?_⟩
      rw [Function.update_of_ne (ne_of_mem_of_not_mem List.mem_cons_self notFront)]
      exact ih linked.2 fun member => notFront (List.mem_cons_of_mem _ member)

theorem follow (linked : Linked next pointer nodes) :
    Containers.follow next nodes.length pointer = nodes := by
  induction nodes generalizing pointer with
  | nil => rfl
  | cons node rest ih =>
      obtain ⟨rfl, tail⟩ := linked
      exact congrArg (node :: ·) (ih tail)

end Linked

section Arrange

variable [DecidableEq Node] {next : Node → Option Node} {nodes : List Node}

theorem arrange_of_notMem {node : Node} (absent : node ∉ nodes) :
    arrange next nodes node = next node := by
  induction nodes with
  | nil => rfl
  | cons first rest ih =>
      rw [List.mem_cons, not_or] at absent
      rw [arrange, Function.update_of_ne absent.1, ih absent.2]

/-- **The links written for a list make it a chain.** -/
theorem arrange_linked (nodup : nodes.Nodup) :
    Linked (arrange next nodes) nodes.head? nodes := by
  induction nodes with
  | nil => rfl
  | cons first rest ih =>
      obtain ⟨absent, nodupRest⟩ := List.nodup_cons.mp nodup
      refine ⟨rfl, ?_⟩
      rw [arrange, Function.update_self]
      exact (ih nodupRest).congr fun node member =>
        Function.update_of_ne (ne_of_mem_of_not_mem member absent) _ _

end Arrange

/-- Among lists without common elements, an element is in one list only. -/
theorem index_unique {lists : List (List Node)} (nodup : lists.flatten.Nodup) {first second : ℕ}
    {front back : List Node} {node : Node} (atFirst : lists[first]? = some front)
    (atSecond : lists[second]? = some back) (inFront : node ∈ front) (inBack : node ∈ back) :
    first = second := by
  have apart := List.pairwise_iff_getElem.mp (List.nodup_flatten.mp nodup).2
  obtain ⟨ltFirst, rfl⟩ := List.getElem?_eq_some_iff.mp atFirst
  obtain ⟨ltSecond, rfl⟩ := List.getElem?_eq_some_iff.mp atSecond
  rcases Nat.lt_trichotomy first second with below | same | above
  · exact absurd inBack (apart first second ltFirst ltSecond below inFront)
  · exact same
  · exact absurd inFront (apart second first ltSecond ltFirst above inBack)

end Containers
