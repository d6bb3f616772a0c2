import StorageAtlas.Proofs.Composition
import StorageAtlas.Proofs.Numerals
import StorageAtlas.Proofs.PathReading

/-!
# Numbers as steps

An index can be written as a number or as the literal of its decimal digits. An array reads the
number back from the digits (`readUint_text`), a mapping encodes the digits of a number as the
literal they are, and what neither of the two can be applied to says so in the same words. So steps
and their literals end alike, step by step and along a whole path (`applyStep_asLiteral`,
`walk_asLiteral`). They need not be the same steps: a mapping keeps the step as it was given, so
that only the texts of the steps taken agree.
-/

namespace StorageAtlas

open Text

/-! ## Numbers read from their digits -/

namespace Text

variable {cs : List Char}

theorem foldl_digitValues (h : ∀ c ∈ cs, c.isDigit) (value : Nat) :
    (digitValues 10 cs).foldl (fun v d => v * 10 + d) value = Nat.ofDigitChars 10 cs value := by
  induction cs generalizing value with
  | nil => exact Nat.ofDigitChars_nil.symm
  | cons c cs ih =>
    obtain ⟨hc, hcs⟩ := List.forall_mem_cons.1 h
    rw [digitValues, List.filterMap_cons, digitOf?_of_isDigit hc, List.foldl_cons,
      Nat.ofDigitChars_cons, Nat.mul_comm 10]
    exact ih hcs _

theorem splitMark_of_isDigit (h : ∀ c ∈ cs, c.isDigit) : splitMark cs = (10, cs) := by
  unfold splitMark
  split
  · exact absurd (h 'x' (by simp)) (by decide)
  · exact absurd (h 'X' (by simp)) (by decide)
  · rfl

/-- The digits of a number denote it. -/
theorem natural?_digits (n : Nat) : natural? (digits 10 n) = some n := by
  have hdigit : ∀ c ∈ digits 10 n, c.isDigit := fun c hc => isDigit_of_mem_digits hc
  have hnumeral : IsNumeralText 10 (digits 10 n) := by
    intro c hc
    rw [IsNumeralChar, digitOf?_of_isDigit (hdigit c hc)]
    exact .inr rfl
  have hvalue : Nat.ofDigitChars 10 (digits 10 n) 0 = n := Nat.ofDigitChars_ten_toDigits
  simp only [natural?, splitMark_of_isDigit hdigit]
  rw [if_pos hnumeral, positional_eq_foldl, foldl_digitValues hdigit, hvalue]

end Text

theorem readUint_text (i : Word) : readUint (Word.text i).toList = .ok i.toNat := by
  rw [readUint_eq_ok_iff, Word.text, decimal, String.toList_ofList]
  exact ⟨natural?_digits i.toNat, i.isLt⟩

/-! ## Results that say the same -/

/-- Both fail in the same words, or both succeed, with values that are the same to the reader. -/
inductive Alike {α : Type} (same : α → α → Prop) : Except Error α → Except Error α → Prop
  | failed {e e' : Error} (h : e.message = e'.message) : Alike same (.error e) (.error e')
  | succeeded {a a' : α} (h : same a a') : Alike same (.ok a) (.ok a')

theorem Alike.refl {α : Type} {same : α → α → Prop} (hsame : ∀ a, same a a) (x : Except Error α) :
    Alike same x x := by
  cases x with
  | error e => exact .failed rfl
  | ok a => exact .succeeded (hsame a)

/-- The same place and type, and steps that are written the same. -/
structure Derived.Matches (d d' : Derived) : Prop where
  location : d.location = d'.location
  type : d.type = d'.type
  steps : d.steps.map (·.text) = d'.steps.map (·.text)

/-- What the texts of the steps say goes into the text of the path. -/
theorem VariablePath.text_congr {steps steps' : List AccessStep}
    (h : steps.map (·.text) = steps'.map (·.text)) (name : String) :
    (VariablePath.mk name steps).text = (VariablePath.mk name steps').text := by
  have htexts : steps.map (·.text.toList) = steps'.map (·.text.toList) := by
    have hlists := congrArg (List.map String.toList) h
    rwa [List.map_map, List.map_map] at hlists
  refine String.toList_inj.1 ?_
  rw [VariablePath.toList_text, VariablePath.toList_text, htexts]

/-! ## Steps -/

/-- What one step leads to, whichever way it is written. -/
def StepMatches (r r' : Location × Ty × AccessStep) : Prop :=
  r.1 = r'.1 ∧ r.2.1 = r'.2.1 ∧ r.2.2.text = r'.2.2.text

/-- **A number and its digits are the same step** into every container. -/
theorem applyStep_asLiteral (here : Location) (t : Ty) (step : AccessStep) :
    Alike StepMatches (applyStep here t step) (applyStep here t step.asLiteral) := by
  have hrefl (x : Except Error (Location × Ty × AccessStep)) : Alike StepMatches x x :=
    .refl (fun _ => ⟨rfl, rfl, rfl⟩) x
  cases step with
  | key literal => exact hrefl _
  | field name => exact hrefl _
  | index i =>
    by_cases ht : t.IsArray
    · -- an array reads the number back
      have hread : applyStep here t (.key (Word.text i)) = applyStep here t (.index i) := by
        rw [applyStep_key_of_isArray ht here, readUint_text]
        simp only [BitVec.ofNat_toNat, BitVec.setWidth_eq]
      rw [AccessStep.asLiteral, hread]
      exact hrefl _
    · unfold Ty.IsArray at ht
      unfold AccessStep.asLiteral applyStep
      cases hstored : t.stored with
      | dynamicArray element => simp [hstored] at ht
      | fixedArray element length => simp [hstored] at ht
      | mapping k v =>
        simp only
        cases encodeKey k (Word.text i) with
        | error fault => exact .failed rfl
        | ok bs => exact .succeeded ⟨rfl, rfl, rfl⟩
      | _ => exact .failed rfl

/-- **Steps and their literals end alike.** -/
theorem walk_asLiteral {structs : StructTable} {steps : List AccessStep} :
    ∀ (here : Location) (t : Ty), Alike Derived.Matches (walk structs here t steps)
      (walk structs here t (steps.map (·.asLiteral))) := by
  induction steps with
  | nil => intro here t; exact .succeeded ⟨rfl, rfl, rfl⟩
  | cons step steps ih =>
    intro here t
    have hstep := applyStep_asLiteral here t step
    rw [List.map_cons]
    unfold walk
    generalize applyStep here t step = r at hstep
    generalize applyStep here t step.asLiteral = r' at hstep
    cases hstep with
    | failed h => exact .failed h
    | @succeeded r r' h =>
      obtain ⟨next, u, taken⟩ := r
      obtain ⟨next', u', taken'⟩ := r'
      obtain ⟨rfl, rfl, htaken⟩ : next = next' ∧ u = u' ∧ taken.text = taken'.text := h
      simp only
      cases materialize structs u with
      | error e => exact .failed rfl
      | ok v =>
        simp only
        have hrest := ih next v
        generalize walk structs next v steps = d at hrest
        generalize walk structs next v (steps.map (·.asLiteral)) = d' at hrest
        cases hrest with
        | failed h => exact .failed h
        | succeeded h =>
          refine .succeeded ⟨h.location, h.type, ?_⟩
          rw [List.map_cons, List.map_cons, htaken, h.steps]

theorem derive_asLiteral (base : Location) (t : Ty) (steps : List AccessStep) (limit : Nat)
    (structs : StructTable) : Alike Derived.Matches (derive base t steps limit structs)
      (derive base t (steps.map (·.asLiteral)) limit structs) := by
  unfold derive
  rw [← List.map_take]
  cases materialize structs t with
  | error e => exact .failed rfl
  | ok u => exact walk_asLiteral base u

/-- **Numbers and their texts mean the same.** Steps lead where they lead with all indices written
out as literals: either both fail in the same words, or they come to the same place and type, after
as many steps, which are written the same; and a limit cuts both or none of them. -/
theorem derive_numbers (base : Location) (t : Ty) (steps : List AccessStep) (limit : Nat)
    (structs : StructTable) :
    (∀ e, derive base t steps limit structs = .error e →
      ∃ e', derive base t (steps.map (·.asLiteral)) limit structs = .error e' ∧
        e'.message = e.message) ∧
    (∀ d, derive base t steps limit structs = .ok d →
      ∃ d', derive base t (steps.map (·.asLiteral)) limit structs = .ok d' ∧
        d'.location = d.location ∧ d'.type = d.type ∧
        d.steps.length = min limit steps.length ∧ d'.steps.length = d.steps.length ∧
        ∀ name, (VariablePath.mk name d'.steps).text = (VariablePath.mk name d.steps).text) ∧
    isTruncated (steps.map (·.asLiteral)) limit = isTruncated steps limit := by
  have halike := derive_asLiteral base t steps limit structs
  refine ⟨fun e he => ?_, fun d hd => ?_, ?_⟩
  · rw [he] at halike
    cases hother : derive base t (steps.map (·.asLiteral)) limit structs with
    | ok d' => rw [hother] at halike; exact nomatch halike
    | error e' =>
      rw [hother] at halike
      cases halike with
      | failed h => exact ⟨e', rfl, h.symm⟩
  · have hlength := length_steps_of_derive hd
    rw [hd] at halike
    cases hother : derive base t (steps.map (·.asLiteral)) limit structs with
    | error e' => rw [hother] at halike; exact nomatch halike
    | ok d' =>
      rw [hother] at halike
      cases halike with
      | succeeded h =>
        refine ⟨d', rfl, h.location.symm, h.type.symm, hlength, ?_,
          VariablePath.text_congr h.steps.symm⟩
        simpa using (congrArg List.length h.steps).symm
  · simp only [isTruncated, List.length_map]

end StorageAtlas
