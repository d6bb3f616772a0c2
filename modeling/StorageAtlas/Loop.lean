/-!
# Loops over stacks

A loop takes turns from a state on, until the state has no turn left or a turn fails; nothing says
beforehand that it comes to an end. What is still to be done lies on a stack, whose top is the head
of a list. Items that are to come off in order are put on the last one first.
-/

namespace StorageAtlas

variable {σ ε α : Type}

/-- What a loop that takes turns from a state on comes to. -/
inductive Ends (turn : σ → Option (Except ε σ)) : σ → Except ε σ → Prop
  | finished {s : σ} (h : turn s = none) : Ends turn s (.ok s)
  | failed {s : σ} {e : ε} (h : turn s = some (.error e)) : Ends turn s (.error e)
  | again {s next : σ} {result : Except ε σ} (h : turn s = some (.ok next))
    (ends : Ends turn next result) : Ends turn s result

section Turns

variable {turn : σ → Option (Except ε σ)} {s next : σ} {result : Except ε σ}

theorem ends_finished (h : turn s = none) : Ends turn s result ↔ result = .ok s := by
  refine ⟨fun hends => ?_, fun heq => heq ▸ .finished h⟩
  cases hends with
  | finished => rfl
  | failed h' => cases h.symm.trans h'
  | again h' => cases h.symm.trans h'

theorem ends_failed {e : ε} (h : turn s = some (.error e)) :
    Ends turn s result ↔ result = .error e := by
  refine ⟨fun hends => ?_, fun heq => heq ▸ .failed h⟩
  cases hends with
  | finished h' => cases h.symm.trans h'
  | failed h' =>
    cases h.symm.trans h'
    rfl
  | again h' => cases h.symm.trans h'

theorem ends_again (h : turn s = some (.ok next)) : Ends turn s result ↔ Ends turn next result := by
  refine ⟨fun hends => ?_, .again h⟩
  cases hends with
  | finished h' => cases h.symm.trans h'
  | failed h' => cases h.symm.trans h'
  | again h' ends =>
    cases h.symm.trans h'
    exact ends

end Turns

/-- Puts items on a stack, the last one first. -/
def pushAll (items stack : List α) : List α :=
  items.reverse.foldl (fun stack item => item :: stack) stack

/-- The first item comes off first. -/
@[simp] theorem pushAll_eq_append (items stack : List α) :
    pushAll items stack = items ++ stack := by
  rw [pushAll, List.foldl_reverse, List.foldr_cons_eq_append, List.map_id']

end StorageAtlas
