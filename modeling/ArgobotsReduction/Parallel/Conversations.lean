import Mathlib.Data.List.Basic

/-!
# Conversations with an environment

A program that only asks and gets answers is a tree of questions (`Conversation`).  Who answers is
not said: the environment may be any other programs that run at the same time, and the answers
may be any.  So what holds of every exchange of questions and answers holds however the
program is interleaved with others.

A loop repeats a conversation, its pass, until the pass leaves it.  `Loop.keeps` is the
invariant rule for the state between the passes and what has been exchanged so far.  A run in
progress has exchanged a beginning of whole passes, and a property of beginnings follows pass by
pass (`InProgress.holds`).
-/

set_option autoImplicit false

namespace Parallel

universe u v w

/-- A program that asks questions `q` and gets answers from `A q` -/
inductive Conversation {Q : Type u} (A : Q → Type v) (α : Type w) where
  | done (result : α)
  | ask (question : Q) (next : A question → Conversation A α)

namespace Conversation

/-- A question and its answer -/
abbrev Exchange {Q : Type u} (A : Q → Type v) := (q : Q) × A q

variable {Q : Type u} {A : Q → Type v} {α β : Type w}

def bind : Conversation A α → (α → Conversation A β) → Conversation A β
  | done a, f => f a
  | ask q next, f => ask q fun answer => (next answer).bind f

instance : Monad (Conversation A) where
  pure := done
  bind := bind

/-- What may be exchanged until a result -/
inductive Talk : Conversation A α → List (Exchange A) → α → Prop where
  | done (result : α) : Talk (.done result) [] result
  | ask {q : Q} {next : A q → Conversation A α} {said : List (Exchange A)} {result : α}
      (answer : A q) (rest : Talk (next answer) said result) :
      Talk (.ask q next) (⟨q, answer⟩ :: said) result

variable {said : List (Exchange A)}

theorem talk_pure {a b : α} : Talk (pure a : Conversation A α) said b ↔ said = [] ∧ b = a := by
  constructor
  · intro talk
    cases talk
    exact ⟨rfl, rfl⟩
  · rintro ⟨rfl, rfl⟩
    exact .done b

theorem talk_bind {c : Conversation A α} {f : α → Conversation A β} {b : β} :
    Talk (c >>= f) said b ↔
      ∃ first a later, Talk c first a ∧ Talk (f a) later b ∧ said = first ++ later := by
  induction c generalizing said with
  | done a =>
      constructor
      · intro talk
        exact ⟨[], a, said, .done a, talk, rfl⟩
      · rintro ⟨first, a', later, begins, talk, rfl⟩
        cases begins
        exact talk
  | ask q next ih =>
      constructor
      · intro talk
        cases talk with
        | @ask _ _ said _ answer rest =>
            obtain ⟨first, a, later, begins, ends, rfl⟩ := (ih answer).mp rest
            exact ⟨_, a, later, .ask answer begins, ends, rfl⟩
      · rintro ⟨first, a, later, begins, ends, rfl⟩
        cases begins with
        | @ask _ _ said _ answer rest =>
            exact .ask answer ((ih answer).mpr ⟨_, a, later, rest, ends, rfl⟩)

/-- One question -/
def question (q : Q) : Conversation A (A q) := ask q done

theorem talk_question {q : Q} {answer : A q} :
    Talk (question q) said answer ↔ said = [⟨q, answer⟩] := by
  constructor
  · intro talk
    cases talk with
    | ask answer rest =>
        cases rest
        rfl
  · rintro rfl
    exact .ask answer (.done answer)

/-! ## Loops -/

variable {σ : Type w} {pass : σ → Conversation A (Option σ)}

/-- What whole passes of a loop exchange, and the state after them, if the loop has not been
left -/
inductive Loop (pass : σ → Conversation A (Option σ)) (s : σ) :
    List (Exchange A) → Option σ → Prop where
  | start : Loop pass s [] (some s)
  | next {t : σ} {said more : List (Exchange A)} {result : Option σ}
      (before : Loop pass s said (some t)) (talk : Talk (pass t) more result) :
      Loop pass s (said ++ more) result

/-- What a loop that may be in the middle of a pass has exchanged -/
def InProgress (pass : σ → Conversation A (Option σ)) (s : σ) (said : List (Exchange A)) : Prop :=
  ∃ whole result, Loop pass s whole result ∧ said <+: whole

/-- **The invariant rule** -/
theorem Loop.keeps {s : σ} {said : List (Exchange A)} {result : Option σ}
    (loop : Loop pass s said result) (good : σ → List (Exchange A) → Prop) (initial : good s [])
    (keeps : ∀ t said more u, good t said → Talk (pass t) more (some u) → good u (said ++ more))
    {t : σ} (going : result = some t) : good t said := by
  induction loop generalizing t with
  | start =>
      obtain rfl := Option.some.inj going
      exact initial
  | next _ talk ih =>
      subst going
      exact keeps _ _ _ t (ih rfl) talk

/-- **A property of every beginning of a pass holds of a run in progress.** -/
theorem InProgress.holds {s : σ} {said : List (Exchange A)} (running : InProgress pass s said)
    (good : σ → List (Exchange A) → Prop) (property : List (Exchange A) → Prop)
    (initial : good s [])
    (keeps : ∀ t said more u, good t said → Talk (pass t) more (some u) → good u (said ++ more))
    (empty : property [])
    (within : ∀ t said more result part, good t said → Talk (pass t) more result → part <+: more →
      property (said ++ part)) : property said := by
  obtain ⟨whole, result, loop, begins⟩ := running
  induction loop generalizing said with
  | start =>
      obtain rfl := List.prefix_nil.mp begins
      exact empty
  | @next t earlier more result before talk ih =>
      rcases List.prefix_or_prefix_of_prefix begins (List.prefix_append earlier more) with old | new
      · exact ih old
      · obtain ⟨part, rfl⟩ := new
        have inside : part <+: more := (List.prefix_append_right_inj earlier).mp begins
        exact within t earlier more result part (before.keeps good initial keeps rfl) talk inside

end Conversation

end Parallel
