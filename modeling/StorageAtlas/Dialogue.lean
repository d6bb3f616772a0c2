/-!
# Computations that ask

A computation that asks questions of its surroundings, goes on with the answers, and pauses between
them. It says nothing of how questions are answered: `Dialogue.run` holds it with an answerer whose
state every question and pause may change, so that the same computation can be read from a node,
from a snapshot, or from an answerer that fails on purpose. `Dialogue.through` answers the
questions of one computation by others.
-/

namespace StorageAtlas

/-- A computation of an `α` that asks questions `q : Q`, each answered by an `A q`. -/
inductive Dialogue (Q : Type) (A : Q → Type) (α : Type) : Type where
  | done (value : α)
  | ask (question : Q) (next : A question → Dialogue Q A α)
  /-- Waits for so many milliseconds. -/
  | pause (ms : Nat) (next : Dialogue Q A α)

/-- What answers questions, with a state of type `σ`. -/
structure Answerer (Q : Type) (A : Q → Type) (σ : Type) where
  answer : σ → (q : Q) → A q × σ
  /-- Lets time pass. -/
  pause : σ → Nat → σ

namespace Dialogue

variable {Q Q' : Type} {A : Q → Type} {A' : Q' → Type} {α β σ : Type}

/-- Goes on with what a computation gives. -/
def bind (d : Dialogue Q A α) (f : α → Dialogue Q A β) : Dialogue Q A β :=
  match d with
  | done a => f a
  | ask q next => ask q fun a => (next a).bind f
  | pause ms next => pause ms (next.bind f)

def map (f : α → β) (d : Dialogue Q A α) : Dialogue Q A β := d.bind fun a => done (f a)

/-- Asks one question. -/
def question (q : Q) : Dialogue Q A (A q) := ask q done

/-- Answers every question by a computation that asks others. -/
def through (answer : (q : Q) → Dialogue Q' A' (A q)) : Dialogue Q A α → Dialogue Q' A' α
  | done a => done a
  | ask q next => (answer q).bind fun a => (next a).through answer
  | pause ms next => pause ms (next.through answer)

/-- Computations one after the other. -/
def inOrder : List (Dialogue Q A α) → Dialogue Q A (List α)
  | [] => done []
  | d :: rest => d.bind fun a => (inOrder rest).map (a :: ·)

/-- Holds a computation with an answerer. -/
def run (w : Answerer Q A σ) : Dialogue Q A α → σ → α × σ
  | done a, s => (a, s)
  | ask q next, s => (next (w.answer s q).1).run w (w.answer s q).2
  | pause ms next, s => next.run w (w.pause s ms)

/-- Holds a computation whose questions are answered by effects. -/
def perform {m : Type → Type} [Monad m] (answer : (q : Q) → m (A q)) (wait : Nat → m Unit) :
    Dialogue Q A α → m α
  | done a => pure a
  | ask q next => do (next (← answer q)).perform answer wait
  | pause ms next => do
    wait ms
    next.perform answer wait

@[simp] theorem done_bind (a : α) (f : α → Dialogue Q A β) : (done a).bind f = f a := rfl

@[simp] theorem ask_bind (q : Q) (next : A q → Dialogue Q A α) (f : α → Dialogue Q A β) :
    (ask q next).bind f = ask q fun a => (next a).bind f := rfl

@[simp] theorem pause_bind (ms : Nat) (next : Dialogue Q A α) (f : α → Dialogue Q A β) :
    (pause ms next).bind f = pause ms (next.bind f) := rfl

theorem bind_done (d : Dialogue Q A α) : d.bind done = d := by
  induction d with
  | done a => rfl
  | ask q next ih => simp only [ask_bind, ih]
  | pause ms next ih => simp only [pause_bind, ih]

theorem bind_assoc {γ : Type} (d : Dialogue Q A α) (f : α → Dialogue Q A β)
    (g : β → Dialogue Q A γ) : (d.bind f).bind g = d.bind fun a => (f a).bind g := by
  induction d with
  | done a => rfl
  | ask q next ih => simp only [ask_bind, ih]
  | pause ms next ih => simp only [pause_bind, ih]

/-- To go on is to hold the second computation in the state that the first one leaves. -/
theorem run_bind (w : Answerer Q A σ) (d : Dialogue Q A α) (f : α → Dialogue Q A β) (s : σ) :
    (d.bind f).run w s = (f (d.run w s).1).run w (d.run w s).2 := by
  induction d generalizing s with
  | done a => rfl
  | ask q next ih => exact ih _ _
  | pause ms next ih => exact ih _

theorem run_map (w : Answerer Q A σ) (f : α → β) (d : Dialogue Q A α) (s : σ) :
    (d.map f).run w s = (f (d.run w s).1, (d.run w s).2) := by
  simp only [map, run_bind, run]

end Dialogue

end StorageAtlas
