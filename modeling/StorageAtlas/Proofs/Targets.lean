import StorageAtlas.Layout
import StorageAtlas.Proofs.PathReading

/-!
# Targets and their queries

A value can be asked for by a query, which is one text, or by a target, which has the variable, the
keys and the member as texts of their own. What a target makes of its keys is what is read of them
between brackets (`Target.path_eq_reread`), so that a target and the query that is put together from
its parts ask for the same: `query_eq_target`. The keys may hold dots, opening brackets, quotes and
white space; only a closing bracket would cut one of them short in the query.
-/

namespace StorageAtlas

namespace Target

/-- A key in brackets, if there is one. -/
def bracketed (key : Option String) : String := key.elim "" fun k => "[" ++ k ++ "]"

/-- The query for a target: the name of the variable with the keys in brackets behind it, and the
member behind a dot. -/
def text (t : Target) : String :=
  t.base ++ bracketed t.key ++ bracketed t.deepKey ++ t.field.elim "" fun f => "." ++ f

/-- The steps of a target, its keys as they are given. -/
def steps (t : Target) : List AccessStep :=
  t.key.toList.map .key ++ t.deepKey.toList.map .key ++ t.field.toList.map .field

theorem text_eq (t : Target) : t.text = (VariablePath.mk t.base t.steps).text := by
  obtain ⟨base, key, deepKey, field⟩ := t
  refine String.toList_inj.1 ?_
  rw [VariablePath.toList_text]
  cases key <;> cases deepKey <;> cases field <;>
    simp [text, steps, bracketed, AccessStep.text]

theorem keySteps_eq (key : Option String) :
    keySteps key = (key.toList.map AccessStep.key).mapM AccessStep.reread := by
  cases key with
  | none => rfl
  | some k =>
    rw [keySteps, Option.toList_some, List.map_singleton, List.mapM_cons, AccessStep.reread]
    cases AccessStep.ofBracket k.toList <;> rfl

/-- **The keys of a target are read like literals between brackets**, the first of them first. -/
theorem path_eq_reread {t : Target} (h : t.key = none → t.deepKey = none) :
    t.path = (t.steps.mapM AccessStep.reread).map (⟨t.base, ·⟩) := by
  have hgiven : ¬(t.key.isNone ∧ t.deepKey.isSome) := by
    rintro ⟨hnone, hsome⟩
    rw [h (Option.isNone_iff_eq_none.1 hnone)] at hsome
    exact nomatch hsome
  have hfield : (t.field.toList.map AccessStep.field).mapM AccessStep.reread =
      .ok (t.field.map AccessStep.field).toList := by
    cases t.field <;> rfl
  rw [path, if_neg hgiven, steps, List.mapM_append, List.mapM_append, ← keySteps_eq,
    ← keySteps_eq, hfield]
  cases keySteps t.key with
  | error fault => rfl
  | ok first => cases keySteps t.deepKey <;> rfl

end Target

/-- **A target and its query find the same**, or fail alike. The name of the variable and that of
the member are identifiers, and no key closes its bracket; a second key stands behind a first. -/
theorem query_eq_target (r : Resolver) (contract : String) {t : Target}
    (hbase : isIdentifier t.base.toList) (hkey : ∀ k ∈ t.key, ']' ∉ k.toList)
    (hdeepKey : ∀ k ∈ t.deepKey, ']' ∉ k.toList) (hdeep : t.key = none → t.deepKey = none)
    (hfield : ∀ f ∈ t.field, isIdentifier f.toList) :
    r.query contract t.text = r.target contract t := by
  have hcut : ∀ s ∈ t.steps, s.IsCut := by
    refine List.forall_mem_append.2 ⟨List.forall_mem_append.2 ⟨?_, ?_⟩, ?_⟩
    · exact List.forall_mem_map.2 fun k hk => hkey k (Option.mem_toList.1 hk)
    · exact List.forall_mem_map.2 fun k hk => hdeepKey k (Option.mem_toList.1 hk)
    · exact List.forall_mem_map.2 fun f hf => hfield f (Option.mem_toList.1 hf)
  have hpath : VariablePath.parse t.text = t.path := by
    rw [t.text_eq, VariablePath.parse_text_eq hbase hcut, Target.path_eq_reread hdeep]
  rw [Resolver.query, Resolver.target, hpath]

namespace Sample

/-- A contract with a mapping from strings to mappings from numbers to structs. -/
def nestedKeys : Resolver where
  model := ⟨[⟨"A", [⟨"m", "A", 0, .mapping .string (.mapping (.uint 256) (.structRef "P")), false,
    false⟩], []⟩], [("P", [("x", .uint 8), ("y", .uint 8)])]⟩

/-- A key with a dot, an opening bracket, a quote and white space in it. -/
def oddKeys : Target where
  base := "m"
  key := some "\" a.[b\" \""
  deepKey := some "0x_7 "
  field := some "y"

/-- Two keys of which the second has nothing but white space. -/
def blankKey : Target := { base := "m", key := some "a", deepKey := some " " }

end Sample

/-- A value that is found, and a key that is refused. -/
theorem query_eq_target_oddKeys :
    Sample.oddKeys.text = "m[\" a.[b\" \"][0x_7 ].y" ∧
    (∃ found, Sample.nestedKeys.query "A" Sample.oddKeys.text = .ok found ∧
      Sample.nestedKeys.target "A" Sample.oddKeys = .ok found ∧
      found.records.map (·.path.text) = ["m[ a.[b\" ][0x_7].y"]) ∧
    Sample.nestedKeys.query "A" Sample.blankKey.text = .error (.invalidPath .emptyBrackets) ∧
    Sample.nestedKeys.target "A" Sample.blankKey = .error (.invalidPath .emptyBrackets) := by
  have hodd := query_eq_target Sample.nestedKeys "A" (t := Sample.oddKeys) (by decide) (by decide)
    (by decide) (by decide) (by decide)
  have hblank := query_eq_target Sample.nestedKeys "A" (t := Sample.blankKey) (by decide)
    (by decide) (by decide) (by decide) (by decide)
  have hrefused : Sample.nestedKeys.target "A" Sample.blankKey =
      .error (.invalidPath .emptyBrackets) := rfl
  obtain ⟨found, hfound, hpaths⟩ : ∃ found,
      Sample.nestedKeys.target "A" Sample.oddKeys = .ok found ∧
        found.records.map (·.path.text) = ["m[ a.[b\" ][0x_7].y"] := ⟨_, rfl, rfl⟩
  exact ⟨by decide, ⟨found, hodd.trans hfound, hfound, hpaths⟩, hblank.trans hrefused, hrefused⟩

end StorageAtlas
