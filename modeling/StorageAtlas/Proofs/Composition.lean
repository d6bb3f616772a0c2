import Mathlib.Data.List.TakeDrop
import StorageAtlas.Proofs.Steps

/-!
# Paths in two parts

A path can be followed in two parts, the second from the place and with the type that the first has
led to (`derive_composes`). Each part makes the type that it begins with ready for its place, so
that the type in the middle is made ready twice. This changes nothing, as a path that begins at a
variable leads to settled types only (`derive_reads`), however structs are named in one another.
-/

namespace StorageAtlas

section Walks

variable {structs : StructTable}

theorem length_steps_of_walk {steps : List AccessStep} : ∀ {here : Location} {t : Ty} {r : Derived},
    walk structs here t steps = .ok r → r.steps.length = steps.length := by
  induction steps with
  | nil => intro here t r h; obtain rfl := Except.ok.inj h; rfl
  | cons step steps ih =>
    intro here t r h
    obtain ⟨next, u, taken, v, r', -, -, hr', rfl⟩ := walk_cons h
    exact congrArg Nat.succ (ih hr')

/-! ## From a variable on -/

variable {base : Location} {t : Ty} {steps rest : List AccessStep} {limit limit' : Nat}

/-- Steps behind the limit are not looked at. -/
theorem derive_take (h : limit ≤ limit') :
    derive base t (steps.take limit) limit' structs = derive base t steps limit structs := by
  rw [derive, derive, List.take_take, Nat.min_eq_right h]

/-- A limit that no step reaches is as good as any other. -/
theorem derive_of_length_le (h : steps.length ≤ limit) (h' : steps.length ≤ limit') :
    derive base t steps limit structs = derive base t steps limit' structs := by
  rw [derive, derive, List.take_of_length_le h, List.take_of_length_le h']

theorem length_steps_of_derive {r : Derived} (h : derive base t steps limit structs = .ok r) :
    r.steps.length = min limit steps.length := by
  unfold derive at h
  split at h
  · exact nomatch h
  · rw [length_steps_of_walk h, List.length_take]

/-- **The second part begins with a settled type**, so that making it ready again changes nothing;
the steps of the first count for the limit. -/
theorem derive_append {d : Declarations} (hs : d.Defines structs) {e : TypeExpr}
    (ht : t.Reads d e) : derive base t (steps ++ rest) limit structs =
      (derive base t steps limit structs).bind fun p =>
        (derive p.location p.type rest (limit - steps.length) structs).map p.andThen := by
  obtain ⟨u, hu, hread, hset⟩ := materialize_reads hs ht
  simp only [derive, hu]
  rw [List.take_append, walk_append_eq]
  cases hp : walk structs base u (steps.take limit) with
  | error e => rfl
  | ok p =>
    obtain ⟨f, -, hpset⟩ := walk_reads hs hread hset hp
    simp only [Except.bind, materialize_of_settled structs hpset]

end Walks

/-- **Paths compose.** In a model that was parsed, a path from a variable that no limit cuts leads
where its second part leads from the place and type that its first part has led to, with the steps
of both, and fails as the first of them that fails. A path with more steps than the limit leads
where its first steps lead; that it was cut is all that tells them apart. -/
theorem derive_composes {text : String} {m : Model} (hm : Model.parse text = .ok m) {c : Contract}
    (hc : c ∈ m.contracts) {v : StateVariable} (hv : v ∈ c.declared) (base : Location) :
    (∀ first second limit, first.length + second.length ≤ limit →
      derive base v.type (first ++ second) limit m.structs =
        (derive base v.type first limit m.structs).bind fun p =>
          (derive p.location p.type second limit m.structs).map p.andThen) ∧
    ∀ steps limit,
      derive base v.type steps limit m.structs =
        derive base v.type (steps.take limit) limit m.structs ∧
      (∀ p, derive base v.type steps limit m.structs = .ok p →
        p.steps.length = (steps.take limit).length) ∧
      (isTruncated steps limit ↔ steps.take limit ≠ steps) ∧
      ¬isTruncated (steps.take limit) limit := by
  obtain ⟨d, hd⟩ := Model.parse_describes hm
  obtain ⟨e, he⟩ := hd.reads hc hv
  refine ⟨fun first second limit hlimit => ?_, fun steps limit => ⟨?_, ?_, ?_, ?_⟩⟩
  · rw [derive_append hd.structs he]
    congr 1
    funext p
    rw [derive_of_length_le (by omega) (Nat.le_trans (Nat.le_add_left _ _) hlimit)]
  · exact (derive_take (Nat.le_refl limit)).symm
  · intro p hp
    rw [length_steps_of_derive hp, List.length_take]
  · rw [isTruncated, decide_eq_true_iff, ne_eq, List.take_eq_self_iff, Nat.not_le]
  · rw [isTruncated, decide_eq_true_iff, List.length_take, Nat.not_lt]
    exact Nat.min_le_left _ _

/-- Through the array of an element to the array of one of its own elements: the type in the middle
is an array of structs that were only named. -/
theorem derive_composes_kids : Model.parse Sample.text = .ok Sample.model ∧
    ∃ p q,
      derive ⟨0, 0⟩ Sample.array.type [.index 1, .field "kids"] 4 Sample.model.structs = .ok p ∧
      p.type = .dynamicArray (.struct "S" Sample.members) ∧
      derive p.location p.type [.key "7", .field "kids"] 4 Sample.model.structs = .ok q ∧
      derive ⟨0, 0⟩ Sample.array.type [.index 1, .field "kids", .key "7", .field "kids"] 4
        Sample.model.structs = .ok (p.andThen q) ∧
      derive ⟨0, 0⟩ Sample.array.type [.index 1, .field "kids", .key "7", .field "kids"] 2
        Sample.model.structs = .ok p ∧
      isTruncated [.index 1, .field "kids", .key "7", .field "kids"] 2 := by
  have hc : Sample.contract ∈ Sample.model.contracts := List.mem_cons_self
  have hv : Sample.array ∈ Sample.contract.declared := List.mem_cons_self
  obtain ⟨happend, hcut⟩ := derive_composes Sample.parse_text hc hv ⟨0, 0⟩
  obtain ⟨p, hp, htype⟩ : ∃ p, derive ⟨0, 0⟩ Sample.array.type [.index 1, .field "kids"] 4
      Sample.model.structs = .ok p ∧ p.type = .dynamicArray (.struct "S" Sample.members) :=
    ⟨_, rfl, rfl⟩
  obtain ⟨q, hq⟩ : ∃ q, derive p.location p.type [.key "7", .field "kids"] 4
      Sample.model.structs = .ok q := by
    rw [htype]
    exact ⟨_, rfl⟩
  refine ⟨Sample.parse_text, p, q, hp, htype, hq, ?_, ?_, rfl⟩
  · have h := happend [.index 1, .field "kids"] [.key "7", .field "kids"] 4 (Nat.le_refl 4)
    simp only [hp, Except.bind, hq, Except.map] at h
    exact h
  · obtain ⟨hfirst, -⟩ := hcut [.index 1, .field "kids", .key "7", .field "kids"] 2
    rw [hfirst, ← hp]
    exact derive_of_length_le (by decide) (by decide)

end StorageAtlas
