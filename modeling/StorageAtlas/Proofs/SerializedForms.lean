import StorageAtlas.Chain
import StorageAtlas.Record
import StorageAtlas.Ty.Json
import StorageAtlas.Proofs.FieldOrder
import StorageAtlas.Proofs.NumberTexts

/-!
# What is written as JSON is read back

Types, paths, statuses, blocks and values are told apart by tags, of which one may stand among the
fields of another: an elementary type adds its kind to the object that says its shape. As no key
stands twice in such an object, each reader finds its own (`Ty.takeTag?_toJson`,
`Elementary.ofJson?_kindFields`), in whatever order the entries have come to stand. What holds other
types or values is read by induction, with room for one level less inside (`Ty.depth_lt_of_field`,
`Value.depth_content_lt`). `serialized_recovers` says so of all forms at once.
-/

namespace StorageAtlas

open Json

/-! ## Types -/

namespace Elementary

variable {e : Elementary} {others : List (String × Json)}

/-- The kind and the width are found in either order. -/
theorem exists_adjacent {kind : String} {n : Nat}
    (hp : others.Perm [("kind", .string kind), ("width", .nat n)]) :
    ∃ o, adjacent? .setAside "kind" "width" kindNames (.object others) =
      some ⟨kind, some (.nat n), o⟩ :=
  adjacent?_perm (by decide) rfl hp

/-- The fields that are left when the shape is known say which elementary type it is. -/
theorem ofJson?_kindFields (hp : others.Perm e.kindFields) : ofJson? (.object others) = some e := by
  cases e with
  | uint bits =>
    obtain ⟨o, hread⟩ := exists_adjacent hp
    simp only [ofJson?, hread, asNat?_nat bits.toNat_lt, Option.map_some, UInt16.ofNat_toNat]
  | int bits =>
    obtain ⟨o, hread⟩ := exists_adjacent hp
    simp only [ofJson?, hread, asNat?_nat bits.toNat_lt, Option.map_some, UInt16.ofNat_toNat]
  | fixedBytes width =>
    obtain ⟨o, hread⟩ := exists_adjacent hp
    simp only [ofJson?, hread, asNat?_nat width.toNat_lt, Option.map_some, UInt8.ofNat_toNat]
  | address =>
    obtain rfl := List.perm_singleton.1 hp
    rw [ofJson?, adjacent?_of_tag (by decide)]
    rfl
  | bool =>
    obtain rfl := List.perm_singleton.1 hp
    rw [ofJson?, adjacent?_of_tag (by decide)]
    rfl

end Elementary

theorem UserKind.ofJson?_name (kind : UserKind) :
    UserKind.ofJson? (.string kind.name) = some kind := by
  cases kind <;> rfl

namespace Ty

/-- The name of the shape of a type. -/
def shape : Ty → String
  | elementary _ => "elementary"
  | fixedArray _ _ => "fixed_array"
  | dynamicArray _ => "dynamic_array"
  | mapping _ _ => "mapping"
  | struct _ _ => "struct"
  | bytes => "bytes"
  | string => "string"
  | userDefined _ _ _ => "user_defined"
  | function _ => "function"
  | structRef _ => "struct_ref"

/-- What is written of a type besides its shape. -/
def shapeFields : Ty → List (String × Json)
  | elementary e => e.kindFields
  | fixedArray element length => [("element", element.toJson), ("length", .nat length.toNat)]
  | dynamicArray element => [("element", element.toJson)]
  | mapping key value => [("key", key.toJson), ("value", value.toJson)]
  | struct name members => [("name", .string name), ("fields", .array (membersToJson members))]
  | bytes | string => []
  | userDefined name kind underlying =>
    [("name", .string name), ("kind", .string kind.name), ("underlying", underlying.toJson)]
  | function external => [("external", .bool external)]
  | structRef name => [("name", .string name)]

theorem toJson_eq (t : Ty) : t.toJson = .object (("shape", .string t.shape) :: t.shapeFields) := by
  cases t <;> rfl

/-- No field takes the name of another one, or that of the shape. -/
theorem keys_nodup (t : Ty) :
    ((("shape", Json.string t.shape) :: t.shapeFields).map Prod.fst).Nodup := by
  cases t with
  | elementary e => cases e <;> simp [shapeFields, Elementary.kindFields]
  | _ => simp [shapeFields]

/-! ### Parts -/

variable (σ : Arrangement)

theorem isSound_of_fields {t : Ty} (h : ∀ e ∈ t.shapeFields, (e.2.arrange σ).isSound) :
    (t.toJson.arrange σ).isSound := by
  rw [toJson_eq]
  exact isSound_arrange_object σ t.keys_nodup (List.forall_mem_cons.2 ⟨rfl, h⟩)

mutual
theorem isSound_shapeFields : ∀ t : Ty, ∀ e ∈ t.shapeFields, (e.2.arrange σ).isSound
  | .elementary e => by cases e <;> simp [shapeFields, Elementary.kindFields, arrange, isSound]
  | .fixedArray element _ | .dynamicArray element => by
    have helement := isSound_of_fields σ (isSound_shapeFields element)
    simp [shapeFields, arrange, isSound, helement]
  | .mapping key value => by
    have hkey := isSound_of_fields σ (isSound_shapeFields key)
    have hvalue := isSound_of_fields σ (isSound_shapeFields value)
    simp [shapeFields, hkey, hvalue]
  | .struct _ members => by
    have hmembers := isSound_array_iff.2 (isSound_membersToJson members)
    simp [shapeFields, arrange, isSound, hmembers]
  | .bytes | .string => nofun
  | .userDefined _ _ underlying => by
    have hunderlying := isSound_of_fields σ (isSound_shapeFields underlying)
    simp [shapeFields, arrange, isSound, hunderlying]
  | .function _ | .structRef _ => by simp [shapeFields, arrange, isSound]

theorem isSound_membersToJson :
    ∀ (ms : List Member) (j : Json), j ∈ arrangeItems σ (membersToJson ms) → j.isSound
  | [], _, h => absurd h List.not_mem_nil
  | (_, t) :: rest, j, h => by
    have ht := isSound_of_fields σ (isSound_shapeFields t)
    rcases List.mem_cons.1 h with rfl | h
    · exact isSound_arrange_object σ (by simp) (by simp [arrange, isSound, ht])
    · exact isSound_membersToJson rest j h
end

/-- A part of a type is nested less deep than the type. -/
theorem depth_lt_of_field {room : Nat} {j : Json} (t : Ty) (key : String)
    (hmem : (key, j) ∈ t.shapeFields) (hroom : (t.toJson.arrange σ).depth < room + 1) :
    (j.arrange σ).depth < room := by
  rw [toJson_eq t] at hroom
  have hlt := depth_lt_arrange_object σ t.keys_nodup (List.mem_cons_of_mem _ hmem)
  exact Nat.lt_of_lt_of_le hlt (Nat.le_of_lt_succ hroom)

/-! ### Reading -/

/-- The shape is found first, and the other fields in some order. -/
theorem takeTag?_toJson (o : Origin) (t : Ty) : ∃ others : List (String × Json),
    others.Perm (arrangeEntries σ t.shapeFields) ∧
      takeTag? o "shape" (t.toJson.arrange σ) = some (.string t.shape, .object others) := by
  obtain ⟨arranged, harranged, hp⟩ := exists_arrange_object σ t.keys_nodup
  have hkeys := t.keys_nodup
  rw [← keys_arrangeEntries σ] at hkeys
  rw [toJson_eq, harranged]
  refine takeTag?_perm hkeys hp fun e he => ?_
  obtain ⟨e, he', rfl⟩ := mem_arrangeEntries.1 he
  exact isSound_shapeFields σ t e he'

theorem fields?_shapeFields (t : Ty) {others : List (String × Json)}
    (hp : others.Perm (arrangeEntries σ t.shapeFields)) :
    fields? (t.shapeFields.map Prod.fst) (.object others) =
      some ((arrangeEntries σ t.shapeFields).map fun e => some e.2) :=
  fields?_arrange (List.nodup_cons.1 t.keys_nodup).2 hp

mutual
/-- **A type is read back**, if there is room for its depth. -/
theorem ofJsonWithin?_toJson : ∀ (t : Ty) (o : Origin) {room : Nat},
    (t.toJson.arrange σ).depth < room → ofJsonWithin? o room (t.toJson.arrange σ) = some t
  | .elementary e, o, room + 1, _ => by
    obtain ⟨others, hp, htag⟩ := takeTag?_toJson σ o (elementary e)
    have hfields : arrangeEntries σ (elementary e).shapeFields = e.kindFields := by
      cases e <;> rfl
    have hread := Elementary.ofJson?_kindFields (hfields ▸ hp)
    simp [ofJsonWithin?, htag, tagName?, shape, hread]
  | .fixedArray element length, o, room + 1, h => by
    obtain ⟨others, hp, htag⟩ := takeTag?_toJson σ o (fixedArray element length)
    have hfields : fields? ["element", "length"] (.object others) =
        some [some (element.toJson.arrange σ), some (.nat length.toNat)] :=
      fields?_shapeFields σ (fixedArray element length) hp
    have helement := ofJsonWithin?_toJson element .setAside
      (depth_lt_of_field σ (fixedArray element length) "element" (by simp [shapeFields]) h)
    simp [ofJsonWithin?, htag, tagName?, shape, hfields, helement, asNat?_nat length.toNat_lt]
  | .dynamicArray element, o, room + 1, h => by
    obtain ⟨others, hp, htag⟩ := takeTag?_toJson σ o (dynamicArray element)
    have hfields : fields? ["element"] (.object others) = some [some (element.toJson.arrange σ)] :=
      fields?_shapeFields σ (dynamicArray element) hp
    have helement := ofJsonWithin?_toJson element .setAside
      (depth_lt_of_field σ (dynamicArray element) "element" (by simp [shapeFields]) h)
    simp [ofJsonWithin?, htag, tagName?, shape, hfields, helement]
  | .mapping key value, o, room + 1, h => by
    obtain ⟨others, hp, htag⟩ := takeTag?_toJson σ o (mapping key value)
    have hfields : fields? ["key", "value"] (.object others) =
        some [some (key.toJson.arrange σ), some (value.toJson.arrange σ)] :=
      fields?_shapeFields σ (mapping key value) hp
    have hkey := ofJsonWithin?_toJson key .setAside
      (depth_lt_of_field σ (mapping key value) "key" (by simp [shapeFields]) h)
    have hvalue := ofJsonWithin?_toJson value .setAside
      (depth_lt_of_field σ (mapping key value) "value" (by simp [shapeFields]) h)
    simp [ofJsonWithin?, htag, tagName?, shape, hfields, hkey, hvalue]
  | .struct name members, o, room + 1, h => by
    obtain ⟨others, hp, htag⟩ := takeTag?_toJson σ o (struct name members)
    have hfields : fields? ["name", "fields"] (.object others) =
        some [some (.string name), some (.array (arrangeItems σ (membersToJson members)))] :=
      fields?_shapeFields σ (struct name members) hp
    have hdepth : ((Json.array (membersToJson members)).arrange σ).depth < room :=
      depth_lt_of_field σ (struct name members) "fields" (by simp [shapeFields]) h
    have hmembers := memberOfJson?_membersToJson members fun j hj =>
      Nat.le_of_lt ((depth_lt_array hj).trans hdepth)
    simp [ofJsonWithin?, htag, tagName?, shape, hfields, asString?, asList?, hmembers]
  | .bytes, o, room + 1, _ => by
    obtain ⟨others, hp, htag⟩ := takeTag?_toJson σ o bytes
    simp [ofJsonWithin?, htag, tagName?, shape]
  | .string, o, room + 1, _ => by
    obtain ⟨others, hp, htag⟩ := takeTag?_toJson σ o string
    simp [ofJsonWithin?, htag, tagName?, shape]
  | .userDefined name kind underlying, o, room + 1, h => by
    obtain ⟨others, hp, htag⟩ := takeTag?_toJson σ o (userDefined name kind underlying)
    have hfields : fields? ["name", "kind", "underlying"] (.object others) =
        some [some (.string name), some (.string kind.name),
          some (underlying.toJson.arrange σ)] :=
      fields?_shapeFields σ (userDefined name kind underlying) hp
    have hunderlying := ofJsonWithin?_toJson underlying .setAside
      (depth_lt_of_field σ (userDefined name kind underlying) "underlying"
        (by simp [shapeFields]) h)
    simp [ofJsonWithin?, htag, tagName?, shape, hfields, asString?, UserKind.ofJson?_name,
      hunderlying]
  | .function external, o, room + 1, _ => by
    obtain ⟨others, hp, htag⟩ := takeTag?_toJson σ o (function external)
    have hfields : fields? ["external"] (.object others) = some [some (.bool external)] :=
      fields?_shapeFields σ (function external) hp
    simp [ofJsonWithin?, htag, tagName?, shape, hfields, asBool?]
  | .structRef name, o, room + 1, _ => by
    obtain ⟨others, hp, htag⟩ := takeTag?_toJson σ o (structRef name)
    have hfields : fields? ["name"] (.object others) = some [some (.string name)] :=
      fields?_shapeFields σ (structRef name) hp
    simp [ofJsonWithin?, htag, tagName?, shape, hfields, asString?]

theorem memberOfJson?_membersToJson : ∀ (ms : List Member) {room : Nat},
    (∀ j ∈ arrangeItems σ (membersToJson ms), j.depth ≤ room) →
      (arrangeItems σ (membersToJson ms)).mapM (ofJsonWithin?.memberOfJson? room) = some ms
  | [], _, _ => rfl
  | (name, t) :: rest, room, h => by
    obtain ⟨hfirst, hrest⟩ := List.forall_mem_cons.1 h
    have hkeys : ([("name", .string name), ("type", t.toJson)].map Prod.fst).Nodup := by simp
    obtain ⟨arranged, harranged, hp⟩ := exists_arrange_object σ hkeys
    have hfields : fields? ["name", "type"] (.object arranged) =
        some [some (.string name), some (t.toJson.arrange σ)] :=
      fields?_arrange hkeys hp
    have hdepth : (t.toJson.arrange σ).depth < room :=
      Nat.lt_of_lt_of_le (depth_lt_arrange_object σ hkeys (.tail _ (.head _))) hfirst
    have ht := ofJsonWithin?_toJson t .setAside hdepth
    have hmembers := memberOfJson?_membersToJson rest hrest
    simp only [membersToJson, arrangeItems, List.mapM_cons, harranged]
    simp [ofJsonWithin?.memberOfJson?, hfields, asString?, ht, hmembers]
end

theorem ofJson?_toJson (o : Origin) (t : Ty) : ofJson? o (t.toJson.arrange σ) = some t :=
  ofJsonWithin?_toJson σ t o (Nat.lt_succ_self _)

end Ty

/-! ## Paths, statuses and blocks -/

section Records

variable (σ : Arrangement) (o : Origin)

theorem AccessStep.exists_adjacent (name : String) {c : Json} (hsound : (c.arrange σ).isSound) :
    ∃ o', adjacent? o "step" "value" ["index", "key", "field"]
      ((object [("step", .string name), ("value", c)]).arrange σ) =
        some ⟨name, some (c.arrange σ), o'⟩ :=
  adjacent?_arrange σ (by decide) hsound

theorem AccessStep.ofJson?_toJson (step : AccessStep) :
    AccessStep.ofJson? o (step.toJson.arrange σ) = some step := by
  cases step with
  | index i =>
    obtain ⟨o', hread⟩ := exists_adjacent σ o "index" (c := ofWord i) rfl
    simp only [ofJson?, toJson, hread]
    exact congrArg (Option.map index) (asWord?_ofWord i)
  | key literal =>
    obtain ⟨o', hread⟩ := exists_adjacent σ o "key" (c := .string literal) rfl
    simp only [ofJson?, toJson, hread]
    rfl
  | field name =>
    obtain ⟨o', hread⟩ := exists_adjacent σ o "field" (c := .string name) rfl
    simp only [ofJson?, toJson, hread]
    rfl

theorem VariablePath.ofJson?_toJson (p : VariablePath) :
    VariablePath.ofJson? o (p.toJson.arrange σ) = some p := by
  have hkeys : ([("base", Json.string p.base),
    ("steps", .array (p.steps.map (·.toJson)))].map Prod.fst).Nodup := by simp
  obtain ⟨arranged, harranged, hp⟩ := exists_arrange_object σ hkeys
  have hfields : fields? ["base", "steps"] (.object arranged) =
      some [some (.string p.base),
        some (.array (arrangeItems σ (p.steps.map (·.toJson))))] :=
    fields?_arrange hkeys hp
  have hsteps : (p.steps.map fun step => step.toJson.arrange σ).mapM (AccessStep.ofJson? o) =
      some p.steps :=
    mapM_map_eq_self fun step _ => step.ofJson?_toJson σ o
  rw [arrangeItems_eq_map, List.map_map] at hfields
  rw [toJson, harranged, ofJson?, hfields]
  simp only [Option.bind_eq_bind, Option.bind_some, asString?, asList?]
  exact congrArg (fun steps => steps.bind fun steps => some (mk p.base steps)) hsteps

theorem Status.exists_adjacent (name reason : String) :
    ∃ o', adjacent? o "status" "reason" ["resolved", "partial", "unresolved", "read_failed"]
      ((object [("status", .string name), ("reason", .string reason)]).arrange σ) =
        some ⟨name, some (.string reason), o'⟩ :=
  adjacent?_arrange (c := .string reason) σ (by decide) rfl

theorem Status.ofJson?_toJson (status : Status) :
    Status.ofJson? o (status.toJson.arrange σ) = some status := by
  cases status with
  | resolved =>
    rw [ofJson?, toJson, adjacent?_arrange_tag σ (by decide)]
    rfl
  | incomplete reason =>
    obtain ⟨o', hread⟩ := exists_adjacent σ o "partial" reason
    simp only [ofJson?, toJson, hread]
    rfl
  | unresolved reason =>
    obtain ⟨o', hread⟩ := exists_adjacent σ o "unresolved" reason
    simp only [ofJson?, toJson, hread]
    rfl
  | readFailed reason =>
    obtain ⟨o', hread⟩ := exists_adjacent σ o "read_failed" reason
    simp only [ofJson?, toJson, hread]
    rfl

theorem BlockTag.ofJson?_toJson (tag : BlockTag) :
    BlockTag.ofJson? o (tag.toJson.arrange σ) = some tag := by
  cases tag with
  | latest => rfl
  | number n =>
    have hkeys : ([("number", Json.nat n.toNat)].map Prod.fst).Nodup := by simp
    obtain ⟨arranged, harranged, hp⟩ := exists_arrange_object σ hkeys
    have hwidth : asNat64? (.nat n.toNat) = some n.toNat := asNat?_nat n.toNat_lt
    rw [toJson, harranged, List.perm_singleton.1 hp]
    simp only [ofJson?, arrange, hwidth, Option.map_some, UInt64.ofNat_toNat]

end Records

/-! ## Values -/

namespace Value

/-- The name of the kind of a value. -/
def kind : Value → String
  | uint _ => "uint"
  | int _ => "int"
  | address _ => "address"
  | bool _ => "bool"
  | fixedBytes _ => "fixed_bytes"
  | bytes _ => "bytes"
  | string _ => "string"
  | length _ => "length"
  | composite _ => "composite"

/-- What is written of a value besides its kind. -/
def content : Value → Json
  | uint n | length n => ofWord n
  | int n => .string (Word.signedText n)
  | address a => .string (Address.hexText a)
  | bool b => .bool b
  | fixedBytes bs | bytes bs => bytesToJson bs
  | string s => .string s
  | composite members => .array (membersToJson members)

theorem toJson_eq (v : Value) :
    v.toJson = .object [("kind", .string v.kind), ("value", v.content)] := by
  cases v <;> rfl

variable (σ : Arrangement)

theorem arrange_bytesToJson (bs : Bytes) : (bytesToJson bs).arrange σ = bytesToJson bs := by
  rw [bytesToJson, arrange, arrangeItems_eq_map, List.map_map]
  rfl

theorem asList?_bytesToJson (bs : Bytes) : asList? asByte? (bytesToJson bs) = some bs := by
  refine mapM_map_eq_self fun b _ => ?_
  rw [asByte?, asNat?_nat b.toNat_lt, Option.map_some, UInt8.ofNat_toNat]

theorem isSound_bytesToJson (bs : Bytes) : (bytesToJson bs).isSound := by
  refine isSound_array_iff.2 fun j hj => ?_
  obtain ⟨b, -, rfl⟩ := List.mem_map.1 hj
  rfl

theorem isSound_of_content {v : Value} (h : (v.content.arrange σ).isSound) :
    (v.toJson.arrange σ).isSound := by
  rw [toJson_eq]
  refine isSound_arrange_object σ (by simp) ?_
  exact List.forall_mem_cons.2 ⟨rfl, List.forall_mem_singleton.2 h⟩

mutual
theorem isSound_content : ∀ v : Value, (v.content.arrange σ).isSound
  | .uint _ | .length _ | .int _ | .address _ | .bool _ | .string _ => rfl
  | .fixedBytes bs | .bytes bs => by
    rw [content, arrange_bytesToJson]
    exact isSound_bytesToJson bs
  | .composite members => isSound_array_iff.2 (isSound_membersToJson members)

theorem isSound_membersToJson : ∀ members : List (String × Option Value),
    ∀ j ∈ arrangeItems σ (membersToJson members), j.isSound
  | [] => nofun
  | (_, none) :: rest => List.forall_mem_cons.2 ⟨rfl, isSound_membersToJson rest⟩
  | (_, some v) :: rest => by
    have hv := isSound_of_content σ (isSound_content v)
    refine List.forall_mem_cons.2 ⟨?_, isSound_membersToJson rest⟩
    exact isSound_array_iff.2 (List.forall_mem_cons.2 ⟨rfl, List.forall_mem_singleton.2 hv⟩)
end

theorem depth_content_lt {room : Nat} (v : Value)
    (hroom : (v.toJson.arrange σ).depth < room + 1) : (v.content.arrange σ).depth < room := by
  rw [toJson_eq] at hroom
  have hkeys : ([("kind", Json.string v.kind), ("value", v.content)].map Prod.fst).Nodup := by simp
  have hlt := depth_lt_arrange_object σ hkeys (.tail _ (.head _))
  exact Nat.lt_of_lt_of_le hlt (Nat.le_of_lt_succ hroom)

/-- The kind and the content are found, although contents before the kind are set aside. -/
theorem exists_adjacent (o : Origin) (v : Value) :
    ∃ o', adjacent? o "kind" "value" kindNames (v.toJson.arrange σ) =
      some ⟨v.kind, some (v.content.arrange σ), o'⟩ := by
  rw [toJson_eq]
  exact adjacent?_arrange σ (by decide) (isSound_content σ v)

mutual
/-- **A value is read back**, if there is room for its depth. -/
theorem ofJsonWithin?_toJson : ∀ (v : Value) (o : Origin) {room : Nat},
    (v.toJson.arrange σ).depth < room → ofJsonWithin? room o (v.toJson.arrange σ) = some v
  | .uint n, o, room + 1, _ => by
    obtain ⟨o', hread⟩ := exists_adjacent σ o (uint n)
    simp only [ofJsonWithin?, hread, kind]
    exact congrArg (Option.map uint) (asWord?_ofWord n)
  | .int n, o, room + 1, _ => by
    obtain ⟨o', hread⟩ := exists_adjacent σ o (int n)
    simp only [ofJsonWithin?, hread, kind]
    exact congrArg (Option.map int) (asSigned?_signedText n)
  | .address a, o, room + 1, _ => by
    obtain ⟨o', hread⟩ := exists_adjacent σ o (address a)
    simp only [ofJsonWithin?, hread, kind]
    exact congrArg (Option.map address) (asAddress?_hexText o' a)
  | .bool b, o, room + 1, _ => by
    obtain ⟨o', hread⟩ := exists_adjacent σ o (bool b)
    simp only [ofJsonWithin?, hread, kind]
    rfl
  | .fixedBytes bs, o, room + 1, _ => by
    obtain ⟨o', hread⟩ := exists_adjacent σ o (fixedBytes bs)
    simp only [ofJsonWithin?, hread, kind, content, arrange_bytesToJson, asList?_bytesToJson]
    rfl
  | .bytes bs, o, room + 1, _ => by
    obtain ⟨o', hread⟩ := exists_adjacent σ o (bytes bs)
    simp only [ofJsonWithin?, hread, kind, content, arrange_bytesToJson, asList?_bytesToJson]
    rfl
  | .string s, o, room + 1, _ => by
    obtain ⟨o', hread⟩ := exists_adjacent σ o (string s)
    simp only [ofJsonWithin?, hread, kind]
    rfl
  | .length n, o, room + 1, _ => by
    obtain ⟨o', hread⟩ := exists_adjacent σ o (length n)
    simp only [ofJsonWithin?, hread, kind]
    exact congrArg (Option.map length) (asWord?_ofWord n)
  | .composite members, o, room + 1, h => by
    obtain ⟨o', hread⟩ := exists_adjacent σ o (composite members)
    have hdepth : ((composite members).content.arrange σ).depth < room :=
      depth_content_lt σ (composite members) h
    have hmembers := memberOfJson?_membersToJson members o' fun j hj =>
      Nat.le_of_lt ((depth_lt_array hj).trans hdepth)
    simp only [ofJsonWithin?, hread, kind]
    exact congrArg (Option.map composite) hmembers

theorem memberOfJson?_membersToJson : ∀ (members : List (String × Option Value)) (o : Origin)
    {room : Nat}, (∀ j ∈ arrangeItems σ (membersToJson members), j.depth ≤ room) →
      (arrangeItems σ (membersToJson members)).mapM (ofJsonWithin?.memberOfJson? room o) =
        some members
  | [], _, _, _ => rfl
  | (name, none) :: rest, o, room, h => by
    have hrest := memberOfJson?_membersToJson rest o (List.forall_mem_cons.1 h).2
    simp only [membersToJson, arrangeItems, arrange, List.mapM_cons, hrest,
      ofJsonWithin?.memberOfJson?]
    rfl
  | (name, some v) :: rest, o, room, h => by
    obtain ⟨hfirst, hbehind⟩ := List.forall_mem_cons.1 h
    have hrest := memberOfJson?_membersToJson rest o hbehind
    have hdepth : (v.toJson.arrange σ).depth < room :=
      Nat.lt_of_lt_of_le (depth_lt_array (.tail _ (.head _))) hfirst
    have hv := ofJsonWithin?_toJson v o hdepth
    -- a member without a value is `null`, which no value is written as
    obtain ⟨entries, hobject⟩ : ∃ entries, v.toJson.arrange σ = .object entries := by
      rw [toJson_eq]
      exact ⟨_, rfl⟩
    rw [hobject] at hv
    simp only [membersToJson, arrangeItems, arrange, hobject, List.mapM_cons, hrest,
      ofJsonWithin?.memberOfJson?, hv]
    rfl
end

theorem ofJson?_toJson (o : Origin) (v : Value) : ofJson? o (v.toJson.arrange σ) = some v :=
  ofJsonWithin?_toJson σ v o (Nat.lt_succ_self _)

end Value

/-! ## All of them -/

/-- What is written is read back, wherever it is read from: as it is written, with the entries of
its objects sorted, and in any other order of them. -/
structure Recovers {α : Type} (write : α → Json) (read : Origin → Json → Option α) : Prop where
  written : ∀ o a, read o (write a) = some a
  sorted : ∀ o a, read o (write a).sorted = some a
  arranged : ∀ σ o a, read o ((write a).arrange σ) = some a

theorem Recovers.of_arranged {α : Type} {write : α → Json} {read : Origin → Json → Option α}
    (h : ∀ σ o a, read o ((write a).arrange σ) = some a) : Recovers write read where
  written o a := arrange_asWritten (write a) ▸ h .asWritten o a
  sorted o a := arrange_byKey (write a) ▸ h .byKey o a
  arranged := h

/-- **What is kept as JSON loses nothing**: types and values of any nesting, steps and paths,
statuses and blocks. -/
theorem serialized_recovers :
    Recovers Ty.toJson Ty.ofJson? ∧
    Recovers AccessStep.toJson AccessStep.ofJson? ∧
    Recovers VariablePath.toJson VariablePath.ofJson? ∧
    Recovers Status.toJson Status.ofJson? ∧
    Recovers BlockTag.toJson BlockTag.ofJson? ∧
    Recovers Value.toJson Value.ofJson? :=
  ⟨.of_arranged Ty.ofJson?_toJson, .of_arranged AccessStep.ofJson?_toJson,
    .of_arranged VariablePath.ofJson?_toJson, .of_arranged Status.ofJson?_toJson,
    .of_arranged BlockTag.ofJson?_toJson, .of_arranged Value.ofJson?_toJson⟩

end StorageAtlas
