import Mathlib.Data.List.Induction
import ArgobotsReduction.Containers.LinkedChain

/-!
# Lists of nodes linked in both directions

Every node has a link to the next node and one back, and at the ends of the list the
links are null.  So the list is a chain along the links, and the reversed list is one
along the links back.  A node is put in (`TwoWay.insert`) and taken out
(`TwoWay.remove`) anywhere by writing the links of its neighbours, if it has them
(`relink`).
-/

set_option autoImplicit false

namespace Containers

universe u

variable {Node : Type u}

/-- The nodes are linked in both directions, in this order. -/
structure TwoWay (next prev : Node → Option Node) (nodes : List Node) : Prop where
  forward : Linked next nodes.head? nodes
  backward : Linked prev nodes.getLast? nodes.reverse

/-- Write the link of a node, if there is one. -/
def relink [DecidableEq Node] (link : Node → Option Node) (pointer target : Option Node) :
    Node → Option Node :=
  match pointer with
  | none => link
  | some node => Function.update link node target

section Relink

variable [DecidableEq Node] {link : Node → Option Node} {pointer target : Option Node} {node : Node}

theorem relink_self : relink link (some node) target node = target := Function.update_self ..

theorem relink_of_ne (other : pointer ≠ some node) :
    relink link pointer target node = link node := by
  cases pointer with
  | none => rfl
  | some n => exact Function.update_of_ne (fun same => other (congrArg some same.symm)) _ _

end Relink

/-! ## One direction -/

namespace Linked

variable {next : Node → Option Node} {pointer : Option Node} {front back : List Node} {node : Node}

/-- What follows a node of a chain is a chain. -/
theorem suffix (linked : Linked next pointer (front ++ node :: back)) :
    Linked next (next node) back := by
  induction front generalizing pointer with
  | nil => exact linked.2
  | cons first front ih => exact ih linked.2

theorem next_eq (linked : Linked next pointer (front ++ node :: back)) : next node = back.head? :=
  linked.suffix.head

variable [DecidableEq Node]

theorem insert (linked : Linked next pointer (front ++ back))
    (nodup : (front ++ node :: back).Nodup) :
    Linked (relink (Function.update next node back.head?) front.getLast? (some node))
      (front ++ node :: back).head? (front ++ node :: back) := by
  have absent : node ∉ front ++ back := (List.nodup_middle.mp nodup).notMem
  have frame : Linked (Function.update next node back.head?) pointer (front ++ back) :=
    linked.congr fun n member => Function.update_of_ne (ne_of_mem_of_not_mem member absent) _ _
  have tail : Linked (Function.update next node back.head?) (some node) (node :: back) := by
    refine ⟨rfl, ?_⟩
    rw [Function.update_self]
    cases back with
    | nil => rfl
    | cons other rest =>
        refine ⟨rfl, ?_⟩
        exact frame.suffix
  cases front using List.reverseRecOn with
  | nil => exact tail
  | append_singleton front last _ =>
      rw [List.append_assoc, List.singleton_append] at frame nodup ⊢
      obtain ⟨-, distinct, apart⟩ := List.nodup_append.mp nodup
      have whole := frame.splice tail (fun member => apart last member last List.mem_cons_self rfl)
        (List.nodup_cons.mp distinct).1
      rw [List.getLast?_concat]
      exact whole.head ▸ whole

theorem remove (linked : Linked next pointer (front ++ node :: back))
    (nodup : (front ++ node :: back).Nodup) :
    Linked (relink next front.getLast? back.head?) (front ++ back).head? (front ++ back) := by
  have tail : Linked next back.head? back := linked.next_eq ▸ linked.suffix
  cases front using List.reverseRecOn with
  | nil => exact tail
  | append_singleton front last _ =>
      rw [List.append_assoc, List.singleton_append] at linked nodup ⊢
      obtain ⟨-, distinct, apart⟩ := List.nodup_append.mp nodup
      have absent : last ∉ back := fun member =>
        (List.nodup_cons.mp distinct).1 (List.mem_cons_of_mem _ member)
      have whole := linked.splice tail (fun member => apart last member last List.mem_cons_self rfl)
        absent
      rw [List.getLast?_concat]
      exact whole.head ▸ whole

end Linked

/-! ## Both directions -/

namespace TwoWay

variable {next prev next' prev' : Node → Option Node} {nodes front back : List Node} {node : Node}

theorem nil : TwoWay next prev [] := ⟨rfl, rfl⟩

theorem congr (linked : TwoWay next prev nodes) (sameNext : ∀ n ∈ nodes, next' n = next n)
    (samePrev : ∀ n ∈ nodes, prev' n = prev n) : TwoWay next' prev' nodes :=
  ⟨linked.forward.congr sameNext,
    linked.backward.congr fun n member => samePrev n (List.mem_reverse.mp member)⟩

theorem next_eq (linked : TwoWay next prev (front ++ node :: back)) : next node = back.head? :=
  linked.forward.next_eq

theorem reverse_middle :
    (front ++ node :: back).reverse = back.reverse ++ node :: front.reverse := by
  simp

theorem prev_eq (linked : TwoWay next prev (front ++ node :: back)) :
    prev node = front.getLast? := by
  have backward := linked.backward
  rw [reverse_middle] at backward
  rw [backward.next_eq, List.head?_reverse]

variable [DecidableEq Node]

/-- **A node is put in between two others**, or at an end. -/
theorem insert (linked : TwoWay next prev (front ++ back)) (nodup : (front ++ node :: back).Nodup) :
    TwoWay (relink (Function.update next node back.head?) front.getLast? (some node))
      (relink (Function.update prev node front.getLast?) back.head? (some node))
      (front ++ node :: back) where
  forward := linked.forward.insert nodup
  backward := by
    have reversed := List.nodup_reverse.mpr nodup
    have backward := linked.backward
    rw [reverse_middle] at reversed
    rw [List.reverse_append] at backward
    have whole := backward.insert reversed
    rw [← reverse_middle, List.head?_reverse, List.head?_reverse, List.getLast?_reverse] at whole
    exact whole

/-- **A node is taken out.** -/
theorem remove (linked : TwoWay next prev (front ++ node :: back))
    (nodup : (front ++ node :: back).Nodup) :
    TwoWay (relink next front.getLast? back.head?) (relink prev back.head? front.getLast?)
      (front ++ back) where
  forward := linked.forward.remove nodup
  backward := by
    have reversed := List.nodup_reverse.mpr nodup
    have backward := linked.backward
    rw [reverse_middle] at reversed backward
    have whole := backward.remove reversed
    rw [← List.reverse_append, List.head?_reverse, List.head?_reverse, List.getLast?_reverse]
      at whole
    exact whole

end TwoWay

end Containers
