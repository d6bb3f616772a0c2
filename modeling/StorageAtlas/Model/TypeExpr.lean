import StorageAtlas.Error
import StorageAtlas.Text.Character

/-!
# The text of a type

Cuts the text of a type into its parts without looking at what names stand for. Array brackets
bind last, so `uint8[2][]` is an array of `uint8[2]`. Where a part is no type, the fault stands in
its place, to be reported when it is come to.
-/

namespace StorageAtlas

open Text

/-- A type as written: names are not looked up yet. -/
inductive TypeExpr
  | bad (fault : TypeFault)
  /-- A built-in type without parts. -/
  | builtin (type : Ty)
  | fixedArray (element : TypeExpr) (length : UInt64)
  | dynamicArray (element : TypeExpr)
  | mapping (key value : TypeExpr)
  /-- A name behind the word `struct`. -/
  | structName (name : String)
  /-- A name behind the word `enum`. -/
  | enumName (name : String)
  /-- A name behind the word `contract` or `interface`. -/
  | contractName (name : String)
  /-- A name alone. -/
  | name (text : String)

namespace TypeExpr

/-- Cuts a reversed text at the bracket that opens the innermost `depth` open ones; gives the text
before it and the text after it. -/
def cutAtBracket : Nat → List Char → List Char → Option (List Char × List Char)
  | _, _, [] => none
  | depth, inside, c :: rest =>
    if c = ']' then cutAtBracket (depth + 1) (c :: inside) rest
    else if c = '[' then
      match depth with
      | 0 => none
      | 1 => some (rest.reverse, inside)
      | depth + 1 => cutAtBracket depth (c :: inside) rest
    else cutAtBracket depth (c :: inside) rest

/-- The text in front of the last bracket pair of a text that ends in one, and the text in it. -/
def lastBrackets? (cs : List Char) : Option (List Char × List Char) :=
  match cs.reverse with
  | ']' :: rest => cutAtBracket 1 [] rest
  | _ => none

/-- Cuts a text at the first `=>` outside of parentheses. -/
def cutAtArrow (depth : Int) (before : List Char) : List Char → Option (List Char × List Char)
  | [] => none
  | '(' :: rest => cutAtArrow (depth + 1) ('(' :: before) rest
  | ')' :: rest => cutAtArrow (depth - 1) (')' :: before) rest
  | '=' :: '>' :: rest =>
    if depth = 0 then some (before.reverse, rest) else cutAtArrow depth ('>' :: '=' :: before) rest
  | c :: rest => cutAtArrow depth (c :: before) rest

/-- The text up to the last occurrence of `c`, and the text behind it. -/
def cutAtLast? (c : Char) (cs : List Char) : Option (List Char × List Char) :=
  match cs.reverse.dropWhile (· != c) with
  | [] => none
  | _ :: before => some (before.reverse, (cs.reverse.takeWhile (· != c)).reverse)

/-- Words that belong to the name behind them. -/
def kindWords : List (List Char) := ["struct", "enum", "contract", "interface"].map String.toList

/-- A part of a mapping without the name of the parameter. -/
def dropParameterName (part : List Char) : List Char :=
  let part := trim part
  if ("mapping".toList).isPrefixOf part then
    match cutAtLast? ')' part with
    | some (before, _) => before ++ [')']
    | none => part
  else if part.getLast? = some ']' then part
  else match cutAtLast? ' ' part with
    | some (head, tail) =>
      if head ∉ kindWords ∧ tail ≠ "payable".toList then trim head else part
    | none => part

/-- The text between the parentheses of a mapping, given what follows the word. -/
def insideParentheses? (cs : List Char) : Option (List Char) :=
  match trim cs with
  | '(' :: rest => if rest.getLast? = some ')' then some rest.dropLast else none
  | _ => none

/-- Widths an integer type may have. -/
def isIntegerWidth (bits : Nat) : Bool := 8 ≤ bits && bits ≤ 256 && bits % 8 == 0

/-- A built-in type that is a single word with an optional width. -/
def builtin? (cs : List Char) : Option Ty :=
  let text := String.ofList cs
  if text = "address" ∨ text = "address payable" then some .address
  else if text = "bool" then some .bool
  else if text = "string" then some .string
  else if text = "bytes" then some .bytes
  else if text = "byte" then some (.fixedBytes 1)
  else if text = "uint" then some (.uint 256)
  else if text = "int" then some (.int 256)
  else
    let width (word : String) (limit : Nat) : Option Nat :=
      (word.toList.isPrefixOf? cs).bind fun rest => (readInteger 10 limit rest).toOption
    match width "uint" UInt16.size, width "int" UInt16.size, width "bytes" UInt8.size with
    | some bits, _, _ => if isIntegerWidth bits then some (.uint (UInt16.ofNat bits)) else none
    | none, some bits, _ => if isIntegerWidth bits then some (.int (UInt16.ofNat bits)) else none
    | none, none, some n => if 1 ≤ n ∧ n ≤ 32 then some (.fixedBytes (UInt8.ofNat n)) else none
    | none, none, none => none

/-- A text that is neither an array nor a mapping. -/
def ofWord (cs : List Char) : TypeExpr :=
  let behind (word : String) : Option String :=
    (word.toList.isPrefixOf? cs).map fun rest => String.ofList (trim rest)
  if ("function".toList).isPrefixOf cs then
    .builtin (.function ((words cs).contains "external".toList))
  else match builtin? cs with
    | some t => .builtin t
    | none =>
      match behind "struct ", behind "enum ", behind "contract ", behind "interface " with
      | some n, _, _, _ => .structName n
      | none, some n, _, _ => .enumName n
      | none, none, some n, _ => .contractName n
      | none, none, none, some n => .contractName n
      | none, none, none, none => .name (String.ofList cs)

/-! ## Every part is shorter than the whole -/

theorem length_trim_le (cs : List Char) : (trim cs).length ≤ cs.length := by
  have h₁ : (trimStart cs).length ≤ cs.length :=
    (List.dropWhile_sublist (l := cs) isBlank).length_le
  have h₂ : (trimEnd (trimStart cs)).length ≤ (trimStart cs).length := by
    have := (List.dropWhile_sublist (l := (trimStart cs).reverse) isBlank).length_le
    simpa [trimEnd] using this
  exact Nat.le_trans h₂ h₁

theorem cutAtBracket_length {depth : Nat} {inside cs before between : List Char}
    (h : cutAtBracket depth inside cs = some (before, between)) : before.length < cs.length := by
  induction cs generalizing depth inside with
  | nil => simp [cutAtBracket] at h
  | cons c rest ih =>
    unfold cutAtBracket at h
    split at h
    · have := ih h
      simp only [List.length_cons]
      omega
    · split at h
      · split at h
        · simp at h
        · simp only [Option.some.injEq, Prod.mk.injEq] at h
          rw [← h.1]
          simp
        · have := ih h
          simp only [List.length_cons]
          omega
      · have := ih h
        simp only [List.length_cons]
        omega

theorem lastBrackets?_length {cs before between : List Char}
    (h : lastBrackets? cs = some (before, between)) : before.length < cs.length := by
  unfold lastBrackets? at h
  split at h
  · rename_i rest hr
    have hlt := cutAtBracket_length h
    have hlen : cs.length = rest.length + 1 := by
      rw [← List.length_reverse, hr, List.length_cons]
    omega
  · simp at h

theorem cutAtArrow_length {depth : Int} {acc cs before after : List Char}
    (h : cutAtArrow depth acc cs = some (before, after)) :
    before.length < acc.length + cs.length ∧ after.length < cs.length := by
  fun_induction cutAtArrow depth acc cs with
  | case1 => simp at h
  | case2 _ _ _ ih | case3 _ _ _ ih =>
    have := ih h
    simp only [List.length_cons] at *
    omega
  | case4 acc rest =>
    simp only [Option.some.injEq, Prod.mk.injEq] at h
    rw [← h.1, ← h.2]
    simp only [List.length_reverse, List.length_cons]
    omega
  | case5 _ _ _ _ ih =>
    have := ih h
    simp only [List.length_cons] at *
    omega
  | case6 _ _ _ _ _ _ _ ih =>
    have := ih h
    simp only [List.length_cons] at *
    omega

theorem length_cutAtLast? {c : Char} {cs before after : List Char}
    (h : cutAtLast? c cs = some (before, after)) : before.length < cs.length := by
  unfold cutAtLast? at h
  split at h
  · simp at h
  · rename_i head tail hr
    simp only [Option.some.injEq, Prod.mk.injEq] at h
    have hs := (List.dropWhile_sublist (l := cs.reverse) (· != c)).length_le
    rw [hr] at hs
    rw [← h.1]
    simp only [List.length_cons, List.length_reverse] at *
    omega

theorem length_dropParameterName_le (part : List Char) :
    (dropParameterName part).length ≤ part.length := by
  have ht := length_trim_le part
  unfold dropParameterName
  simp only
  split
  · split
    · rename_i before after h
      have := length_cutAtLast? h
      simp only [List.length_append, List.length_cons, List.length_nil]
      omega
    · exact ht
  · split
    · exact ht
    · split
      · rename_i head tail h
        have := length_cutAtLast? h
        split
        · have := length_trim_le head
          omega
        · exact ht
      · exact ht

theorem length_insideParentheses? {cs inner : List Char} (h : insideParentheses? cs = some inner) :
    inner.length < cs.length := by
  have ht := length_trim_le cs
  unfold insideParentheses? at h
  split at h
  · rename_i rest hr
    split at h
    · simp only [Option.some.injEq] at h
      rw [hr] at ht
      rw [← h]
      simp only [List.length_cons, List.length_dropLast] at *
      omega
    · simp at h
  · simp at h

/-! ## Cutting -/

/-- Reads the length of an array, `none` for a dynamic one. -/
def readLength (inside : List Char) : Except TypeFault (Option UInt64) :=
  match trim inside with
  | [] => .ok none
  | cs =>
    match readInteger 10 UInt64.size cs with
    | .ok n => .ok (some (UInt64.ofNat n))
    | .error _ => .error (.invalidLength (String.ofList cs))

/-- What a text ends or begins with, which decides how it is cut. -/
inductive Cut
  | empty
  | array (before between : List Char)
  | unbalanced
  | mapping (behind : List Char)
  | word

/-- Decides how a text without white space around it is cut. -/
def cutOf (cs : List Char) : Cut :=
  if cs.isEmpty then .empty
  else if cs.getLast? = some ']' then
    match lastBrackets? cs with
    | some (before, between) => .array before between
    | none => .unbalanced
  else match ("mapping".toList).isPrefixOf? cs with
    | some behind => .mapping behind
    | none => .word

theorem cutOf_array_length {cs before between : List Char} (h : cutOf cs = .array before between) :
    before.length < cs.length := by
  unfold cutOf at h
  split at h
  · simp at h
  · split at h
    · split at h
      · rename_i hb
        simp only [Cut.array.injEq] at h
        rw [← h.1]
        exact lastBrackets?_length hb
      · simp at h
    · split at h <;> simp at h

theorem length_isPrefixOf? {pre cs rest : List Char} (h : pre.isPrefixOf? cs = some rest) :
    rest.length ≤ cs.length := by
  induction pre generalizing cs with
  | nil =>
    obtain rfl : cs = rest := Option.some.inj h
    exact Nat.le_refl _
  | cons p pre ih =>
    cases cs with
    | nil => exact nomatch h
    | cons c cs =>
      change (if p == c then pre.isPrefixOf? cs else none) = some rest at h
      split at h
      · exact Nat.le_succ_of_le (ih h)
      · simp at h

theorem cutOf_mapping_length {cs behind : List Char} (h : cutOf cs = .mapping behind) :
    behind.length ≤ cs.length := by
  unfold cutOf at h
  split at h
  · simp at h
  · split at h
    · split at h <;> simp at h
    · split at h
      · rename_i hp
        simp only [Cut.mapping.injEq] at h
        rw [← h]
        exact length_isPrefixOf? hp
      · simp at h

/-- Cuts the text of a type into its parts. -/
def ofText (cs : List Char) : TypeExpr :=
  match _hc : cutOf (trim cs) with
  | .empty => .bad .empty
  | .unbalanced => .bad (.unbalancedBrackets (String.ofList (trim cs)))
  | .word => ofWord (trim cs)
  | .array before between =>
    match readLength between with
    | .error fault => .bad fault
    | .ok none => .dynamicArray (ofText before)
    | .ok (some length) => .fixedArray (ofText before) length
  | .mapping behind =>
    match _hp : insideParentheses? behind with
    | none => .bad (.malformedMapping (String.ofList (trim cs)))
    | some inner =>
      match _ha : cutAtArrow 0 [] inner with
      | none => .bad (.mappingWithoutArrow (String.ofList (trim cs)))
      | some (key, value) =>
        .mapping (ofText (dropParameterName key)) (ofText (dropParameterName value))
termination_by cs.length
decreasing_by
  all_goals have htrim := length_trim_le cs
  · have := cutOf_array_length _hc
    omega
  · have := cutOf_array_length _hc
    omega
  · have h₁ := cutOf_mapping_length _hc
    have h₂ := length_insideParentheses? _hp
    have h₃ := (cutAtArrow_length _ha).1
    have h₄ := length_dropParameterName_le key
    simp only [List.length_nil] at h₃
    omega
  · have h₁ := cutOf_mapping_length _hc
    have h₂ := length_insideParentheses? _hp
    have h₃ := (cutAtArrow_length _ha).2
    have h₄ := length_dropParameterName_le value
    omega

end TypeExpr

end StorageAtlas
