import StorageAtlas.Proofs.Agreement
import StorageAtlas.Proofs.ReportedNames

/-!
# String keys

Between double quotes a key is read character by character: white space, dots, brackets and quotes
inside are kept, in a query (`VariablePath.parse_quoted`) as in a target (`Target.path_quoted`), and
the path of the record has the key as it was given. But before the key is hashed, white space at its
ends is dropped (`encodeKey_of_string`), as it is for the keys of all other types. So a string key
is hashed as written exactly if it has none at its ends, and keys that differ in nothing else lead
to one slot (`stringKey_slot`).
-/

namespace StorageAtlas

open Text

/-! ## Reading a quoted key -/

theorem toList_quoted (key : String) :
    ("\"" ++ key ++ "\"").toList = '"' :: (key.toList ++ ['"']) := by
  simp

theorem AccessStep.reread_quoted (key : String) :
    reread (.key ("\"" ++ key ++ "\"")) = .ok (.key key) := by
  rw [reread, toList_quoted, ofBracket_quoted, String.ofList_toList]

namespace VariablePath

/-- **A key is read as it stands between the quotes.** -/
theorem parse_quoted {base key : String} (hbase : isIdentifier base.toList)
    (hkey : ']' ∉ key.toList) :
    parse (base ++ "[\"" ++ key ++ "\"]") = .ok ⟨base, [.key key]⟩ := by
  have htext : base ++ "[\"" ++ key ++ "\"]" =
      (VariablePath.mk base [.key ("\"" ++ key ++ "\"")]).text := by
    refine String.toList_inj.1 ?_
    simp [text, AccessStep.text]
  have hcut : AccessStep.IsCut (.key ("\"" ++ key ++ "\"")) := by
    show ']' ∉ ("\"" ++ key ++ "\"").toList
    rw [toList_quoted]
    simp [hkey]
  rw [htext, parse_text_eq hbase (List.forall_mem_singleton.2 hcut)]
  simp only [List.mapM_cons, List.mapM_nil, AccessStep.reread_quoted]
  rfl

end VariablePath

namespace Target

/-- What lies under a key that is written between quotes. -/
def quoted (base key : String) : Target := { base, key := some ("\"" ++ key ++ "\"") }

theorem path_quoted (base key : String) : (quoted base key).path = .ok ⟨base, [.key key]⟩ := by
  have hstep : keySteps (some ("\"" ++ key ++ "\"")) = .ok [.key key] := by
    simp only [keySteps, toList_quoted, AccessStep.ofBracket_quoted, String.ofList_toList]
  have hdeep : keySteps none = .ok [] := rfl
  simp only [path, quoted, hstep, hdeep]
  rfl

end Target

/-! ## The slot under a key -/

theorem encodeKey_of_string {t : Ty} (ht : t.stored = .string) (key : String) :
    encodeKey t key = .ok (utf8 (trimmed key).toList) := by
  simp only [encodeKey, ht, trimmed, String.toList_ofList]

namespace Resolver

variable {r : Resolver} {contract : String} {ps : List Placement} {p : Placement} {k v : Ty}
  (hps : r.model.placements contract = .ok ps) (hp : ps.find? (·.name == p.name) = some p)
  (htype : p.type = .mapping k v)

include hps hp htype

/-- Under a key of a mapping lies what the mapping leads to, made ready for its place. -/
theorem path_key (hdepth : 0 < r.config.maxDepth) {literal : String} {bs : Bytes}
    (hkey : encodeKey k literal = .ok bs) {u : Ty} (hu : materialize r.model.structs v = .ok u) :
    r.path contract ⟨p.name, [.key literal]⟩ = LayoutStore.insertListing {}
      (r.listing contract p.declarer
        ⟨⟨p.name, [.key literal]⟩, ⟨mappingSlot bs p.location.slot, 0⟩, u⟩) := by
  have hstep : applyStep p.location p.type (.key literal) =
      .ok (⟨mappingSlot bs p.location.slot, 0⟩, v, .key literal) := by
    simp only [applyStep, htype, Ty.stored, hkey]
  have hready : materialize r.model.structs p.type = .ok p.type := by
    rw [htype]
    rfl
  have hderived : derive p.location p.type [.key literal] r.config.maxDepth r.model.structs =
      .ok ⟨⟨mappingSlot bs p.location.slot, 0⟩, u, [.key literal]⟩ := by
    unfold derive
    rw [hready, List.take_of_length_le hdepth]
    simp only [walk, hstep, hu]
  have hcut : isTruncated [.key literal] r.config.maxDepth = false :=
    decide_eq_false (Nat.not_lt.2 hdepth)
  unfold path
  simp only [hps, hp, hderived, hcut]
  rfl

/-- Where no step may be taken, the path is cut at the mapping. -/
theorem path_key_of_no_depth (hdepth : r.config.maxDepth = 0) (literal : String) :
    r.path contract ⟨p.name, [.key literal]⟩ =
      .ok ⟨[r.cutRecord contract p ⟨p.name, [.key literal]⟩ ⟨p.location, p.type, []⟩]⟩ := by
  have hready : materialize r.model.structs p.type = .ok p.type := by
    rw [htype]
    rfl
  have hderived : derive p.location p.type [.key literal] r.config.maxDepth r.model.structs =
      .ok ⟨p.location, p.type, []⟩ := by
    unfold derive
    rw [hready, hdepth, List.take_zero]
    rfl
  have hcut : isTruncated [.key literal] r.config.maxDepth = true := by
    rw [hdepth]
    rfl
  unfold path
  simp only [hps, hp, hderived, hcut]
  rfl

end Resolver

/-- What is hashed for a string key of the mapping at `slot`. -/
def stringKeyPreimage (key : String) (slot : Word) : Bytes :=
  utf8 (trimmed key).toList ++ Word.toBytes slot

theorem stringKeyPreimage_inj {key key' : String} {slot : Word} :
    stringKeyPreimage key slot = stringKeyPreimage key' slot ↔ trimmed key = trimmed key' := by
  rw [stringKeyPreimage, stringKeyPreimage, List.append_cancel_right_eq, utf8_inj]

/-- Only white space at the ends is not hashed. -/
theorem stringKeyPreimage_eq_iff {key : String} {slot : Word} :
    stringKeyPreimage key slot = utf8 key.toList ++ Word.toBytes slot ↔ trimmed key = key := by
  rw [stringKeyPreimage, List.append_cancel_right_eq, utf8_inj]

/-- **A string key is hashed without the white space at its ends.** A quoted key has one meaning in
a query and in a target: the value at the hash of the key's text, without white space at its ends,
and the slot of the mapping. So the key is hashed as written exactly if it has no white space at its
ends, and two keys are hashed alike exactly if they differ in nothing else. -/
theorem stringKey_slot {text : String} {m : Model} (hm : Model.parse text = .ok m)
    (config : ResolverConfig) {contract : String} {ps : List Placement}
    (hps : m.placements contract = .ok ps) {p : Placement}
    (hp : ps.find? (·.name == p.name) = some p) {v : Ty} (htype : p.type = .mapping .string v)
    (key : String) :
    (isIdentifier p.name.toList → ']' ∉ key.toList →
      (Resolver.mk m config).query contract (p.name ++ "[\"" ++ key ++ "\"]") =
        (Resolver.mk m config).target contract (.quoted p.name key)) ∧
    (0 < config.maxDepth →
      (m.structs.WellNamed →
        ∃ found, (Resolver.mk m config).target contract (.quoted p.name key) = .ok found) ∧
      ∀ found, (Resolver.mk m config).target contract (.quoted p.name key) = .ok found →
        ∃ first, found.records.head? = some first ∧ first.path = ⟨p.name, [.key key]⟩ ∧
          first.location = ⟨Hash.keccakWord (stringKeyPreimage key p.location.slot), 0⟩) ∧
    (config.maxDepth = 0 → (Resolver.mk m config).target contract (.quoted p.name key) =
      .ok ⟨[(Resolver.mk m config).cutRecord contract p ⟨p.name, [.key key]⟩
        ⟨p.location, p.type, []⟩]⟩) ∧
    (stringKeyPreimage key p.location.slot = utf8 key.toList ++ Word.toBytes p.location.slot ↔
      trimmed key = key) ∧
    ∀ key', stringKeyPreimage key p.location.slot = stringKeyPreimage key' p.location.slot ↔
      trimmed key = trimmed key' := by
  have htarget : (Resolver.mk m config).target contract (.quoted p.name key) =
      (Resolver.mk m config).path contract ⟨p.name, [.key key]⟩ := by
    rw [Resolver.target, Target.path_quoted]
  rw [htarget]
  refine ⟨fun hname hkey => ?_, fun hdepth => ?_, fun hdepth => ?_, stringKeyPreimage_eq_iff,
    fun key' => stringKeyPreimage_inj⟩
  · rw [Resolver.query, VariablePath.parse_quoted hname hkey]
  · obtain ⟨d, hd⟩ := Model.parse_describes hm
    obtain ⟨e, he, -⟩ := Model.placements_read hd hps p (List.mem_of_find?_eq_some hp)
    rw [htype] at he
    obtain ⟨-, f, -, -, hv⟩ := he
    obtain ⟨u, hu, hur, huset⟩ := materialize_reads hd.structs hv
    -- the path keeps the key as it was given, the slot does not
    let node : Node := ⟨⟨p.name, [.key key]⟩,
      ⟨mappingSlot (utf8 (trimmed key).toList) p.location.slot, 0⟩, u⟩
    have hpath : (Resolver.mk m config).path contract ⟨p.name, [.key key]⟩ =
        LayoutStore.insertListing {} ((Resolver.mk m config).listing contract p.declarer node) :=
      Resolver.path_key (r := ⟨m, config⟩) hps hp htype hdepth (encodeKey_of_string rfl key) hu
    rw [hpath]
    refine ⟨fun hwell => ?_, fun found hfound => ?_⟩
    · obtain ⟨found, -, hfound, -⟩ :=
        @insertListing_listing d ⟨m, config⟩ hd contract p.declarer node f hur huset hwell
      exact ⟨found, hfound⟩
    · obtain ⟨status, hhead⟩ := head?_insertListing_listing (n := node) huset hfound
      exact ⟨_, hhead, rfl, rfl⟩
  · exact Resolver.path_key_of_no_depth (r := ⟨m, config⟩) hps hp htype hdepth key

namespace Sample

/-- A document with a mapping from strings. -/
def namesText : String :=
  r#"{"contracts":[{"name":"A","variables":[{"name":"m","type":"mapping(string => uint256)"}]}]}"#

def namesModel : Model :=
  ⟨[⟨"A", [⟨"m", "A", 0, .mapping .string (.uint 256), false, false⟩], []⟩], []⟩

theorem parse_namesText : Model.parse namesText = .ok namesModel :=
  eq_ok_of_any_beq (by decide +kernel)

def names : Placement := ⟨"m", "A", .mapping .string (.uint 256), ⟨0, 0⟩⟩

theorem placements_names : namesModel.placements "A" = .ok [names] := rfl

end Sample

/-- A key with a dot, a quote, a bracket and white space in it. -/
theorem stringKey_slot_dotted : Model.parse Sample.namesText = .ok Sample.namesModel ∧
    Sample.namesModel.placements "A" = .ok [Sample.names] ∧ ∃ found first,
      (Resolver.mk Sample.namesModel {}).query "A" "m[\"a. \"[b\"]" = .ok found ∧
      found.records.head? = some first ∧
      first.location = ⟨Hash.keccakWord
        (utf8 "a. \"[b".toList ++ Word.toBytes Sample.names.location.slot), 0⟩ := by
  have hwell : Sample.namesModel.structs.WellNamed := by
    unfold StructTable.WellNamed
    decide
  obtain ⟨hquery, hslot, -, hwritten, -⟩ := stringKey_slot Sample.parse_namesText {}
    Sample.placements_names (p := Sample.names) rfl rfl "a. \"[b"
  obtain ⟨hfound, hfirst⟩ := hslot (by decide)
  obtain ⟨found, hfound⟩ := hfound hwell
  obtain ⟨first, hhead, -, hlocation⟩ := hfirst found hfound
  refine ⟨Sample.parse_namesText, Sample.placements_names, found, first,
    (hquery (by decide) (by decide)).trans hfound, hhead, ?_⟩
  rw [hlocation, hwritten.2 (by decide)]

/-- Two keys, one of them with white space in front, are hashed alike and lead to one slot. -/
theorem stringKey_blank :
    stringKeyPreimage " a" Sample.names.location.slot =
      stringKeyPreimage "a" Sample.names.location.slot ∧
    encodeKey .string " a" = encodeKey .string "a" ∧ ∃ first first',
      (Resolver.mk Sample.namesModel {}).query "A" "m[\" a\"]" = .ok ⟨[first]⟩ ∧
      (Resolver.mk Sample.namesModel {}).query "A" "m[\"a\"]" = .ok ⟨[first']⟩ ∧
      first.path = ⟨"m", [.key " a"]⟩ ∧ first'.path = ⟨"m", [.key "a"]⟩ ∧
      first.location = first'.location := by
  have hfound (key : String) (hkey : ']' ∉ key.toList) :
      (Resolver.mk Sample.namesModel {}).query "A" ("m" ++ "[\"" ++ key ++ "\"]") =
        .ok ⟨[Node.record ⟨⟨"m", [.key key]⟩,
          ⟨mappingSlot (utf8 (trimmed key).toList) 0, 0⟩, .uint 256⟩ "A" "A" .resolved]⟩ := by
    rw [Resolver.query, VariablePath.parse_quoted (by decide) hkey]
    exact Resolver.path_key (r := ⟨Sample.namesModel, {}⟩) Sample.placements_names
      (p := Sample.names) rfl rfl (by decide) (encodeKey_of_string rfl key) (u := .uint 256) rfl
  have hsame : trimmed " a" = trimmed "a" := by decide
  refine ⟨stringKeyPreimage_inj.2 hsame, ?_, _, _, hfound " a" (by decide), hfound "a" (by decide),
    rfl, rfl, ?_⟩
  · rw [encodeKey_of_string rfl, encodeKey_of_string rfl, hsame]
  · show Location.mk (mappingSlot (utf8 (trimmed " a").toList) 0) 0 = _
    rw [hsame]
    rfl

end StorageAtlas
