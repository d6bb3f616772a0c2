import StorageAtlas.Path.Parser
import StorageAtlas.Proofs.Cutting
import StorageAtlas.Proofs.PathText

/-!
# Paths read back

The text of a path is cut at the marks of its steps: a name ends at the next dot or opening bracket,
what a bracket opens ends at the first closing one. Where names are identifiers and no literal has a
closing bracket in it, the steps are found again where they were written
(`VariablePath.parse_text_eq`), whatever else stands in the literals. Each literal is then read on
its own, without white space around it and without quotes that enclose it (`AccessStep.reread`).

Nothing that was read has a closing bracket or a name that is none (`VariablePath.parse_isCut`), so
paths with either are never read back. `parse_text_iff` puts the two together.
-/

namespace StorageAtlas

open Text

/-! ## Identifiers -/

/-- No character of an identifier is white space. -/
theorem isBlank_of_identifierChar {c : Char}
    (h : (c.isAlpha || c == '_' || c == '$') || c.isDigit) : isBlank c = false := by
  unfold Char.isAlpha Char.isUpper Char.isLower Char.isDigit at h
  simp only [Bool.or_eq_true, Bool.and_eq_true, decide_eq_true_eq, beq_iff_eq,
    UInt32.le_iff_toNat_le, ge_iff_le] at h
  change ((((65 ≤ c.toNat ∧ c.toNat ≤ 90) ∨ (97 ≤ c.toNat ∧ c.toNat ≤ 122)) ∨ c = '_') ∨ c = '$') ∨
    (48 ≤ c.toNat ∧ c.toNat ≤ 57) at h
  rcases h with (((h | h) | rfl) | rfl) | h
  · simp [isBlank]; omega
  · simp [isBlank]; omega
  · decide
  · decide
  · simp [isBlank]; omega

theorem isBlank_of_isIdentifier {cs : List Char} (h : isIdentifier cs) :
    ∀ c ∈ cs, isBlank c = false :=
  fun c hc => isBlank_of_identifierChar (forall_of_isIdentifier h c hc)

theorem isTight_of_isIdentifier {cs : List Char} (h : isIdentifier cs) : IsTight cs := by
  refine .of_forall ?_ (isBlank_of_isIdentifier h)
  rintro rfl
  exact nomatch h

/-! ## Literals between brackets -/

/-- A pair of double quotes encloses the text. -/
def IsQuoted (cs : List Char) : Prop := ∃ inside, cs = '"' :: (inside ++ ['"'])

theorem isTight_enclosed {a b : Char} (ha : isBlank a = false) (hb : isBlank b = false)
    (cs : List Char) : IsTight (a :: (cs ++ [b])) where
  head := ⟨a, rfl, ha⟩
  last := ⟨b, by rw [← List.cons_append, List.getLast?_concat], hb⟩

theorem unquoted_quoted (cs : List Char) : unquoted ('"' :: (cs ++ ['"'])) = cs := by
  simp only [unquoted]
  rw [if_pos List.getLast?_concat, List.dropLast_concat]

theorem unquoted_of_not_isQuoted {cs : List Char} (h : ¬IsQuoted cs) : unquoted cs = cs := by
  unfold unquoted
  split
  · next rest =>
    refine if_neg fun hlast => h ?_
    obtain ⟨inside, rfl⟩ := List.getLast?_eq_some_iff.1 hlast
    exact ⟨inside, rfl⟩
  · rfl

theorem unquoted_sublist (cs : List Char) : (unquoted cs).Sublist cs := by
  by_cases h : IsQuoted cs
  · obtain ⟨inside, rfl⟩ := h
    rw [unquoted_quoted]
    exact (List.sublist_append_left inside _).cons _
  · rw [unquoted_of_not_isQuoted h]

/-- A pair of quotes is dropped, so that a text that it encloses never stays as it is. -/
theorem unquoted_eq_self_iff {cs : List Char} : unquoted cs = cs ↔ ¬IsQuoted cs := by
  refine ⟨?_, unquoted_of_not_isQuoted⟩
  rintro h ⟨inside, rfl⟩
  rw [unquoted_quoted] at h
  have hlength := congrArg List.length h
  simp only [List.length_cons, List.length_append] at hlength
  omega

theorem trim_sublist (cs : List Char) : (trim cs).Sublist cs := by
  obtain ⟨bs, -, hstart⟩ := exists_trim cs
  have hfront : (trim cs).Sublist (trimStart cs) := hstart ▸ List.sublist_append_left _ bs
  exact hfront.trans (List.dropWhile_sublist _)

namespace AccessStep

/-- Between brackets stands a literal that is not blank; it loses white space and quotes. -/
theorem ofBracket_eq_ok_iff {inside : List Char} {step : AccessStep} :
    ofBracket inside = .ok step ↔
      trim inside ≠ [] ∧ step = key (String.ofList (unquoted (trim inside))) := by
  unfold ofBracket
  split
  · next hblank => simp [hblank]
  · next literal hliteral =>
    rw [Except.ok.injEq, eq_comm]
    exact (and_iff_right hliteral).symm

/-- **A literal is read as it stands** exactly if it is not empty, has no white space at its ends
and no quotes around it. -/
theorem ofBracket_eq_self_iff {cs : List Char} :
    ofBracket cs = .ok (key (String.ofList cs)) ↔ IsTight cs ∧ ¬IsQuoted cs := by
  rw [ofBracket_eq_ok_iff]
  constructor
  · rintro ⟨hne, hkey⟩
    have hread : unquoted (trim cs) = cs := String.ofList_inj.1 (key.inj hkey.symm)
    have htrim : trim cs = cs := by
      refine (trim_sublist cs).antisymm ?_
      have h := unquoted_sublist (trim cs)
      rwa [hread] at h
    rw [htrim] at hne hread
    exact ⟨htrim ▸ isTight_trim (htrim.symm ▸ hne), unquoted_eq_self_iff.1 hread⟩
  · rintro ⟨htight, hquoted⟩
    rw [htight.trim_eq, unquoted_of_not_isQuoted hquoted]
    exact ⟨htight.ne_nil, rfl⟩

theorem ofBracket_quoted (cs : List Char) :
    ofBracket ('"' :: (cs ++ ['"'])) = .ok (.key (String.ofList cs)) := by
  have htight : IsTight ('"' :: (cs ++ ['"'])) := isTight_enclosed (by decide) (by decide) cs
  rw [ofBracket_eq_ok_iff, htight.trim_eq, unquoted_quoted]
  exact ⟨List.cons_ne_nil _ _, rfl⟩

/-! ## Steps -/

/-- The step as a query has it, an index as the literal of its digits. -/
def asLiteral : AccessStep → AccessStep
  | index i => key (Word.text i)
  | step => step

/-- What the text of the step is read as. -/
def reread : AccessStep → Except PathFault AccessStep
  | index i => ofBracket (Word.text i).toList
  | key literal => ofBracket literal.toList
  | field name => .ok (field name)

/-- The text of the step can be cut out of a query: the name of a member is an identifier, and a
literal does not close its bracket. -/
def IsCut : AccessStep → Prop
  | index _ => True
  | key literal => ']' ∉ literal.toList
  | field name => isIdentifier name.toList

theorem IsCut.of_asLiteral {s : AccessStep} (h : s.asLiteral.IsCut) : s.IsCut := by
  cases s with
  | index i => trivial
  | key literal => exact h
  | field name => exact h

theorem toList_text_key (literal : String) :
    (key literal).text.toList = '[' :: (literal.toList ++ [']']) := by
  simp [text]

/-- The text of a step begins with a mark. -/
theorem exists_text_eq_cons (s : AccessStep) :
    ∃ c body, s.text.toList = c :: body ∧ isMark c := by
  cases s with
  | index i => exact ⟨_, _, toList_text_index i, rfl⟩
  | key literal => exact ⟨_, _, toList_text_key literal, rfl⟩
  | field name => exact ⟨_, _, toList_text_field name, rfl⟩

theorem mark_head_texts (steps : List AccessStep) :
    ∀ c ∈ (steps.map (·.text.toList)).flatten.head?, isMark c := by
  intro c hc
  cases steps with
  | nil => exact nomatch hc
  | cons s steps =>
    obtain ⟨c', body, htext, hmark⟩ := s.exists_text_eq_cons
    rw [List.map_cons, List.flatten_cons, htext] at hc
    obtain rfl : c' = c := Option.some.inj hc
    exact hmark

theorem isTight_text {s : AccessStep} (h : s.IsCut) : IsTight s.text.toList := by
  cases s with
  | index i =>
    rw [toList_text_index]
    exact isTight_enclosed (by decide) (by decide) _
  | key literal =>
    rw [toList_text_key]
    exact isTight_enclosed (by decide) (by decide) _
  | field name =>
    rw [toList_text_field]
    have hname : IsTight name.toList := isTight_of_isIdentifier h
    have hdot : IsTight ['.'] :=
      .of_forall (List.cons_ne_nil _ _) (List.forall_mem_singleton.2 (by decide))
    exact hdot.append hname []

theorem digits_not_mem {i : Word} {c : Char} (hc : c.isDigit = false) :
    c ∉ (Word.text i).toList := by
  intro hmem
  rw [Word.text, decimal, String.toList_ofList] at hmem
  exact Bool.false_ne_true (hc.symm.trans (isDigit_of_mem_digits hmem))

/-- The digits of a number are read as they stand. -/
theorem ofBracket_text (i : Word) :
    ofBracket (Word.text i).toList = .ok (key (Word.text i)) := by
  have hself : ofBracket (Word.text i).toList = .ok (key (String.ofList (Word.text i).toList)) := by
    refine ofBracket_eq_self_iff.2 ⟨.of_forall ?_ fun c hc => ?_, ?_⟩
    · rw [Word.text, decimal, String.toList_ofList]
      exact digits_ne_nil i.toNat
    · rw [Word.text, decimal, String.toList_ofList] at hc
      refine isBlank_of_identifierChar ?_
      rw [isDigit_of_mem_digits hc, Bool.or_true]
    · rintro ⟨inside, hinside⟩
      exact digits_not_mem (c := '"') (by decide) (hinside ▸ List.mem_cons_self)
  rwa [String.ofList_toList] at hself

end AccessStep

/-- What a check of all elements gives, element by element. -/
theorem mapM_eq_ok_map_iff {ε α β : Type} {f : α → Except ε β} {g : α → β} {l : List α} :
    l.mapM f = .ok (l.map g) ↔ ∀ a ∈ l, f a = .ok (g a) := by
  induction l with
  | nil => exact ⟨fun _ => nofun, fun _ => rfl⟩
  | cons a l ih =>
    rw [List.mapM_cons, List.map_cons, List.forall_mem_cons, ← ih]
    cases f a with
    | error e => exact ⟨nofun, fun h => nomatch h.1⟩
    | ok b =>
      cases l.mapM f with
      | error e => exact ⟨nofun, fun h => nomatch h.2⟩
      | ok bs =>
        show Except.ok (b :: bs) = _ ↔ _
        simp only [Except.ok.injEq, List.cons.injEq]

namespace VariablePath

/-! ## Steps cut out of a text -/

theorem startsStep_eq : startsStep = AccessStep.isMark :=
  funext fun c => Bool.or_comm (c == '[') (c == '.')

/-- **Behind the name of a variable stand the steps.** -/
theorem parse_eq_steps {base text : String} {rest : List Char} (hbase : isIdentifier base.toList)
    (htext : text.toList = base.toList ++ rest) (htight : IsTight (base.toList ++ rest))
    (hrest : ∀ c ∈ rest.head?, AccessStep.isMark c) :
    parse text = (parseSteps text rest).map (⟨base, ·⟩) := by
  have hmarks := AccessStep.isMark_of_isIdentifier hbase
  have hquery : String.ofList (base.toList ++ rest) = text := by rw [← htext, String.ofList_toList]
  unfold parse
  simp only [htext, htight.trim_eq, hquery]
  rw [startsStep_eq, takeWhile_unmarked hmarks hrest, dropWhile_unmarked hmarks hrest,
    (isTight_of_isIdentifier hbase).trim_eq, if_pos hbase, String.ofList_toList]
  cases parseSteps text rest <;> rfl

/-- What stands in front of the first closing bracket makes one step. -/
theorem parseSteps_bracket (query : String) {inside rest : List Char} (hinside : ']' ∉ inside) :
    parseSteps query ('[' :: (inside ++ ']' :: rest)) = (AccessStep.ofBracket inside).bind
      fun step => (parseSteps query rest).map (step :: ·) := by
  have hopen : ∀ c ∈ inside, (c == ']') = false := by
    intro c hc
    refine beq_eq_false_iff_ne.2 ?_
    rintro rfl
    exact hinside hc
  have hclose : ∀ c ∈ (']' :: rest).head?, (c == ']') = true := by
    intro c hc
    obtain rfl := Option.some.inj hc
    rfl
  have hafter : (inside ++ ']' :: rest).dropWhile (· != ']') = ']' :: rest :=
    dropWhile_unmarked hopen hclose
  have hbefore : (inside ++ ']' :: rest).takeWhile (· != ']') = inside :=
    takeWhile_unmarked hopen hclose
  rw [parseSteps]
  split
  · next hnone =>
    rw [hafter] at hnone
    cases hnone
  · next behind hbehind =>
    rw [hafter] at hbehind
    obtain ⟨-, rfl⟩ := List.cons.inj hbehind
    rw [hbefore]
    cases AccessStep.ofBracket inside with
    | error fault => rfl
    | ok step => cases parseSteps query rest <;> rfl

/-- A name behind a dot ends where the next step begins. -/
theorem parseSteps_field (query : String) {name : String} {rest : List Char}
    (hname : isIdentifier name.toList) (hrest : ∀ c ∈ rest.head?, AccessStep.isMark c) :
    parseSteps query ('.' :: (name.toList ++ rest)) =
      (parseSteps query rest).map (.field name :: ·) := by
  have hmarks := AccessStep.isMark_of_isIdentifier hname
  rw [parseSteps, startsStep_eq, takeWhile_unmarked hmarks hrest, dropWhile_unmarked hmarks hrest,
    (isTight_of_isIdentifier hname).trim_eq, if_pos hname, String.ofList_toList]
  cases parseSteps query rest <;> rfl

/-- The texts of steps are read one after the other, each on its own. -/
theorem parseSteps_texts (query : String) {steps : List AccessStep}
    (h : ∀ s ∈ steps, s.IsCut) :
    parseSteps query (steps.map (·.text.toList)).flatten = steps.mapM AccessStep.reread := by
  induction steps with
  | nil =>
    rw [List.map_nil, List.flatten_nil, parseSteps]
    rfl
  | cons s steps ih =>
    obtain ⟨hs, hsteps⟩ := List.forall_mem_cons.1 h
    have hbracket {inside : List Char} (hinside : ']' ∉ inside)
        (htext : s.text.toList = '[' :: (inside ++ [']'])) :
        parseSteps query (s.text.toList ++ (steps.map (·.text.toList)).flatten) =
          (AccessStep.ofBracket inside).bind fun step =>
            (steps.mapM AccessStep.reread).map (step :: ·) := by
      rw [htext, ← ih hsteps, ← parseSteps_bracket query hinside]
      simp
    rw [List.map_cons, List.flatten_cons, List.mapM_cons]
    cases s with
    | index i =>
      rw [hbracket (AccessStep.digits_not_mem (i := i) (by decide)) (by simp [AccessStep.text])]
      rfl
    | key literal =>
      rw [hbracket hs (AccessStep.toList_text_key literal)]
      rfl
    | field name =>
      rw [AccessStep.toList_text_field, List.cons_append,
        parseSteps_field query hs (AccessStep.mark_head_texts steps), ih hsteps]
      rfl

/-! ## Paths -/

/-- The path as a query has it. -/
def asLiterals (p : VariablePath) : VariablePath := { p with steps := p.steps.map (·.asLiteral) }

variable {p : VariablePath} (hbase : isIdentifier p.base.toList) (hsteps : ∀ s ∈ p.steps, s.IsCut)

include hbase hsteps

theorem isTight_text : IsTight p.text.toList := by
  have htight := isTight_of_isIdentifier hbase
  rw [toList_text]
  rcases List.eq_nil_or_concat p.steps with hnil | ⟨steps, last, hlast⟩
  · rw [hnil]
    simpa using htight
  · rw [hlast, List.concat_eq_append] at hsteps
    have hend := AccessStep.isTight_text (hsteps last (by simp))
    rw [hlast, List.concat_eq_append, List.map_append, List.flatten_append, ← List.append_assoc]
    simpa using htight.append hend (steps.map (·.text.toList)).flatten

/-- **The steps of a path are found where they were written.** -/
theorem parse_text_eq :
    parse p.text = (p.steps.mapM AccessStep.reread).map (⟨p.base, ·⟩) := by
  have htight := isTight_text hbase hsteps
  rw [toList_text] at htight
  rw [parse_eq_steps hbase (toList_text p) htight (AccessStep.mark_head_texts p.steps),
    parseSteps_texts p.text hsteps]

end VariablePath

/-! ## What was read -/

theorem exists_of_bind_eq_ok {ε α β : Type} {x : Except ε α} {f : α → Except ε β} {b : β}
    (h : x >>= f = .ok b) : ∃ a, x = .ok a ∧ f a = .ok b := by
  cases x with
  | error e => exact nomatch h
  | ok a => exact ⟨a, rfl, h⟩

theorem AccessStep.ofBracket_isCut {inside : List Char} {step : AccessStep}
    (hinside : ']' ∉ inside) (h : ofBracket inside = .ok step) : step.IsCut := by
  obtain ⟨-, rfl⟩ := ofBracket_eq_ok_iff.1 h
  have hsub := (unquoted_sublist (trim inside)).trans (trim_sublist inside)
  show ']' ∉ (String.ofList (unquoted (trim inside))).toList
  rw [String.toList_ofList]
  exact fun hmem => hinside (hsub.subset hmem)

namespace VariablePath

theorem parseSteps_isCut {query : String} {cs : List Char} {steps : List AccessStep}
    (h : parseSteps query cs = .ok steps) : ∀ s ∈ steps, s.IsCut := by
  fun_induction parseSteps query cs generalizing steps with
  | case1 =>
    obtain rfl := Except.ok.inj h
    exact nofun
  | case2 => exact nomatch h
  | case3 after _ rest _ ih =>
    obtain ⟨step, hstep, h⟩ := exists_of_bind_eq_ok h
    obtain ⟨more, hmore, h⟩ := exists_of_bind_eq_ok h
    obtain rfl := Except.ok.inj h
    have hinside : ']' ∉ after.takeWhile (· != ']') := by
      intro hmem
      simpa using List.mem_takeWhile_imp hmem
    exact List.forall_mem_cons.2 ⟨AccessStep.ofBracket_isCut hinside hstep, ih hmore⟩
  | case4 after name hname =>
    rename_i ih
    obtain ⟨more, hmore, h⟩ := exists_of_bind_eq_ok h
    obtain rfl := Except.ok.inj h
    refine List.forall_mem_cons.2 ⟨?_, ih hmore⟩
    show isIdentifier (String.ofList name).toList
    rwa [String.toList_ofList]
  | case5 => exact nomatch h
  | case6 => exact nomatch h

/-- **What is read has proper names**, and literals that do not close their brackets. -/
theorem parse_isCut {text : String} {p : VariablePath} (h : parse text = .ok p) :
    isIdentifier p.base.toList ∧ ∀ s ∈ p.steps, s.IsCut := by
  unfold parse at h
  simp only at h
  split at h
  · next hbase =>
    obtain ⟨steps, hsteps, h⟩ := exists_of_bind_eq_ok h
    obtain rfl := Except.ok.inj h
    refine ⟨?_, parseSteps_isCut hsteps⟩
    rwa [String.toList_ofList]
  · exact nomatch h

end VariablePath

/-- **Which paths are read back from their texts.** A path is what its text is read as, with its
indices as literals, exactly if the name of its variable and the names of its members are
identifiers, and each of its literals is not empty, does not close its bracket, and has neither
white space at its ends nor a pair of double quotes around it. -/
theorem parse_text_iff (p : VariablePath) :
    VariablePath.parse p.text = .ok p.asLiterals ↔
      isIdentifier p.base.toList ∧
      (∀ name, .field name ∈ p.steps → isIdentifier name.toList) ∧
      ∀ literal, .key literal ∈ p.steps →
        ']' ∉ literal.toList ∧ IsTight literal.toList ∧ ¬IsQuoted literal.toList := by
  -- given that the steps are found where they were written, each is read back on its own
  have hreread (hbase : isIdentifier p.base.toList) (hcut : ∀ s ∈ p.steps, s.IsCut) :
      VariablePath.parse p.text = .ok p.asLiterals ↔
        ∀ s ∈ p.steps, s.reread = .ok s.asLiteral := by
    rw [VariablePath.parse_text_eq hbase hcut, ← mapM_eq_ok_map_iff]
    cases p.steps.mapM AccessStep.reread with
    | error fault => exact ⟨nofun, nofun⟩
    | ok steps =>
      show Except.ok (VariablePath.mk p.base steps) = .ok ⟨p.base, _⟩ ↔ _
      simp only [Except.ok.injEq, VariablePath.mk.injEq, true_and]
  constructor
  · intro h
    obtain ⟨hbase, hliterals⟩ := VariablePath.parse_isCut h
    have hcut : ∀ s ∈ p.steps, s.IsCut :=
      fun s hs => .of_asLiteral (hliterals _ (List.mem_map_of_mem hs))
    refine ⟨hbase, fun name hname => hcut _ hname, fun literal hliteral => ⟨hcut _ hliteral, ?_⟩⟩
    have hself := (hreread hbase hcut).1 h _ hliteral
    rw [AccessStep.reread, ← String.ofList_toList (s := literal), String.toList_ofList] at hself
    exact AccessStep.ofBracket_eq_self_iff.1 hself
  · rintro ⟨hbase, hfields, hkeys⟩
    refine (hreread hbase fun s hs => ?_).2 fun s hs => ?_
    · cases s with
      | index i => trivial
      | key literal => exact (hkeys literal hs).1
      | field name => exact hfields name hs
    · cases s with
      | index i => exact AccessStep.ofBracket_text i
      | key literal =>
        have hself := AccessStep.ofBracket_eq_self_iff.2 (hkeys literal hs).2
        rwa [String.ofList_toList] at hself
      | field name => rfl

end StorageAtlas
