import Mathlib.Data.List.Induction
import StorageAtlas.Path
import StorageAtlas.Proofs.Decimal

/-!
# A path and its text

Steps into structs and static arrays are written so that a dot or an opening bracket begins each
step and stands nowhere else. Paths that go on from one path by such steps are told apart by their
texts (`VariablePath.rest_eq_of_text`).
-/

namespace StorageAtlas

/-! ## Texts cut at their marks -/

/-- The text begins with a mark and has no other. -/
def IsBlock (mark : Char → Bool) : List Char → Prop
  | [] => False
  | c :: body => mark c ∧ ∀ x ∈ body, mark x = false

theorem takeWhile_unmarked {mark : Char → Bool} {body rest : List Char}
    (hbody : ∀ x ∈ body, mark x = false) (hrest : ∀ c ∈ rest.head?, mark c) :
    (body ++ rest).takeWhile (!mark ·) = body := by
  rw [List.takeWhile_append_of_pos fun x hx => by rw [hbody x hx]; rfl]
  cases rest with
  | nil => rw [List.takeWhile_nil, List.append_nil]
  | cons c rest =>
    have hc : mark c := hrest c rfl
    simp [hc]

theorem dropWhile_unmarked {mark : Char → Bool} {body rest : List Char}
    (hbody : ∀ x ∈ body, mark x = false) (hrest : ∀ c ∈ rest.head?, mark c) :
    (body ++ rest).dropWhile (!mark ·) = rest := by
  have hwhole := List.takeWhile_append_dropWhile (p := (!mark ·)) (l := body ++ rest)
  rw [takeWhile_unmarked hbody hrest] at hwhole
  exact List.append_cancel_left hwhole

theorem mark_head_flatten {mark : Char → Bool} {blocks : List (List Char)}
    (h : ∀ b ∈ blocks, IsBlock mark b) : ∀ c ∈ blocks.flatten.head?, mark c := by
  intro c hc
  cases blocks with
  | nil => exact nomatch hc
  | cons b blocks =>
    have hb := h b List.mem_cons_self
    cases b with
    | nil => exact hb.elim
    | cons c' body =>
      obtain rfl : c' = c := Option.some.inj hc
      exact hb.1

/-- Blocks are found again in what they are joined to. -/
theorem blocks_eq_of_flatten {mark : Char → Bool} {bs : List (List Char)} :
    ∀ {cs : List (List Char)}, (∀ b ∈ bs, IsBlock mark b) → (∀ c ∈ cs, IsBlock mark c) →
      bs.flatten = cs.flatten → bs = cs := by
  induction bs with
  | nil =>
    intro cs _ hcs h
    cases cs with
    | nil => rfl
    | cons c cs =>
      have hc := hcs c List.mem_cons_self
      cases c with
      | nil => exact hc.elim
      | cons x body => exact nomatch h
  | cons b bs ih =>
    intro cs hbs hcs h
    have hb := hbs b List.mem_cons_self
    have hbs' : ∀ b ∈ bs, IsBlock mark b := fun b hb => hbs b (List.mem_cons_of_mem _ hb)
    cases b with
    | nil => exact hb.elim
    | cons x body =>
      cases cs with
      | nil => exact nomatch h
      | cons c cs =>
        have hc := hcs c List.mem_cons_self
        have hcs' : ∀ c ∈ cs, IsBlock mark c := fun c hc => hcs c (List.mem_cons_of_mem _ hc)
        cases c with
        | nil => exact hc.elim
        | cons y body' =>
          rw [List.flatten_cons, List.flatten_cons, List.cons_append, List.cons_append] at h
          obtain ⟨rfl, hrest⟩ := List.cons.inj h
          have hbody : body = body' := by
            rw [← takeWhile_unmarked hb.2 (mark_head_flatten hbs'),
              ← takeWhile_unmarked hc.2 (mark_head_flatten hcs'), hrest]
          subst hbody
          rw [ih hbs' hcs' (List.append_cancel_left hrest)]

/-- The last block of a text is where the last mark is. -/
theorem block_append_inj {mark : Char → Bool} {front front' b b' : List Char}
    (hb : IsBlock mark b) (hb' : IsBlock mark b') (h : front ++ b = front' ++ b') :
    front = front' ∧ b = b' := by
  cases b with
  | nil => exact hb.elim
  | cons c body =>
    cases b' with
    | nil => exact hb'.elim
    | cons c' body' =>
      have hlast {c : Char} {front body : List Char} (hb : IsBlock mark (c :: body)) :
          (front ++ c :: body).reverse.takeWhile (!mark ·) = body.reverse := by
        rw [List.reverse_append, List.reverse_cons, List.append_assoc]
        refine takeWhile_unmarked (fun x hx => hb.2 x (List.mem_reverse.1 hx)) ?_
        rintro _ ⟨⟩
        exact hb.1
      have hbody : body = body' :=
        List.reverse_inj.1 (by rw [← hlast hb, h, hlast hb'])
      subst hbody
      have hcut : front ++ [c] = front' ++ [c'] := by
        have hsame : (front ++ [c]) ++ body = (front' ++ [c']) ++ body := by simpa using h
        exact List.append_cancel_right hsame
      obtain ⟨rfl, hc⟩ := List.append_inj' hcut rfl
      rw [(List.cons.inj hc).1]
      exact ⟨rfl, rfl⟩

/-- Of two texts followed by blocks, the one with more blocks ends in those of the other. -/
theorem exists_blocks_of_flatten {mark : Char → Bool} {front front' : List Char}
    {cs : List (List Char)} (hcs : ∀ c ∈ cs, IsBlock mark c) : ∀ {bs : List (List Char)},
      (∀ b ∈ bs, IsBlock mark b) → cs.length ≤ bs.length →
      front ++ bs.flatten = front' ++ cs.flatten →
      front ++ (bs.take (bs.length - cs.length)).flatten = front' := by
  induction cs using List.reverseRecOn with
  | nil =>
    intro bs _ _ h
    simpa using h
  | append_singleton cs c ih =>
    intro bs hbs hlength h
    rcases List.eq_nil_or_concat bs with rfl | ⟨bs, b, rfl⟩
    · simp at hlength
    · simp only [List.concat_eq_append] at hbs hlength h ⊢
      rw [List.forall_mem_append] at hbs hcs
      simp only [List.flatten_append, List.flatten_singleton, ← List.append_assoc] at h
      obtain ⟨hfront, -⟩ := block_append_inj (hbs.2 b List.mem_cons_self)
        (hcs.2 c List.mem_cons_self) h
      simp only [List.length_append, List.length_singleton, Nat.add_le_add_iff_right] at hlength
      have hrest := ih hcs.1 hbs.1 hlength hfront
      rw [List.length_append, List.length_append, List.length_singleton, List.length_singleton,
        Nat.add_sub_add_right, List.take_append_of_le_length (Nat.sub_le _ _)]
      exact hrest

/-! ## Steps -/

theorem forall_of_isIdentifier {cs : List Char} (h : isIdentifier cs) :
    ∀ c ∈ cs, (c.isAlpha || c == '_' || c == '$') || c.isDigit := by
  intro c hc
  cases cs with
  | nil => exact nomatch hc
  | cons d rest =>
    simp only [isIdentifier, Bool.and_eq_true, List.all_eq_true] at h
    rcases List.mem_cons.1 hc with rfl | hc
    · rw [h.1]
      rfl
    · exact h.2 c hc

namespace AccessStep

/-- A step into a struct or a static array: a member with a proper name, or a number. -/
def IsPlain : AccessStep → Prop
  | index _ => True
  | field name => isIdentifier name.toList
  | key _ => False

/-- The characters that begin a step. -/
def isMark (c : Char) : Bool := c == '.' || c == '['

theorem isMark_eq_false {c : Char} (hdot : c ≠ '.') (hbracket : c ≠ '[') : isMark c = false := by
  simp [isMark, hdot, hbracket]

theorem isMark_of_isIdentifier {cs : List Char} (h : isIdentifier cs) :
    ∀ c ∈ cs, isMark c = false := by
  intro c hc
  have hchar := forall_of_isIdentifier h c hc
  refine isMark_eq_false ?_ ?_
  · rintro rfl; exact absurd hchar (by decide)
  · rintro rfl; exact absurd hchar (by decide)

theorem toList_text_index (i : Word) :
    (index i).text.toList = '[' :: (Text.digits 10 i.toNat ++ [']']) := by
  simp [text, Word.text, Text.decimal]

theorem toList_text_field (name : String) : (field name).text.toList = '.' :: name.toList := by
  simp [text]

theorem isBlock_text {s : AccessStep} (h : s.IsPlain) : IsBlock isMark s.text.toList := by
  cases s with
  | index i =>
    rw [toList_text_index]
    refine ⟨rfl, fun x hx => ?_⟩
    rcases List.mem_append.1 hx with hx | hx
    · have hd := Text.isDigit_of_mem_digits hx
      refine isMark_eq_false ?_ ?_
      · rintro rfl; exact absurd hd (by decide)
      · rintro rfl; exact absurd hd (by decide)
    · obtain rfl := List.mem_singleton.1 hx
      rfl
  | field name =>
    rw [toList_text_field]
    exact ⟨rfl, isMark_of_isIdentifier h⟩
  | key literal => exact h.elim

theorem text_inj {s t : AccessStep} (hs : s.IsPlain) (ht : t.IsPlain)
    (h : s.text.toList = t.text.toList) : s = t := by
  cases s with
  | key literal => exact hs.elim
  | index i =>
    cases t with
    | key literal => exact ht.elim
    | field name =>
      rw [toList_text_index, toList_text_field] at h
      exact absurd (List.cons.inj h).1 (by decide)
    | index j =>
      rw [toList_text_index, toList_text_index] at h
      have hd := List.append_cancel_right (List.cons.inj h).2
      rw [Word.text_inj (congrArg String.ofList hd)]
  | field name =>
    cases t with
    | key literal => exact ht.elim
    | index j =>
      rw [toList_text_index, toList_text_field] at h
      exact absurd (List.cons.inj h).1 (by decide)
    | field name' =>
      rw [toList_text_field, toList_text_field] at h
      rw [String.toList_inj.1 (List.cons.inj h).2]

theorem texts_inj {ss : List AccessStep} : ∀ {ts : List AccessStep}, (∀ s ∈ ss, s.IsPlain) →
    (∀ t ∈ ts, t.IsPlain) → ss.map (·.text.toList) = ts.map (·.text.toList) → ss = ts := by
  induction ss with
  | nil => intro ts _ _ h; exact (List.map_eq_nil_iff.1 h.symm).symm
  | cons s ss ih =>
    intro ts hss hts h
    cases ts with
    | nil => exact nomatch h
    | cons t ts =>
      obtain ⟨hst, hrest⟩ := List.cons.inj h
      obtain ⟨hs, hss⟩ := List.forall_mem_cons.1 hss
      obtain ⟨ht, hts⟩ := List.forall_mem_cons.1 hts
      rw [text_inj hs ht hst, ih hss hts hrest]

end AccessStep

/-! ## Paths -/

namespace VariablePath

theorem toList_text (p : VariablePath) :
    p.text.toList = p.base.toList ++ (p.steps.map (·.text.toList)).flatten := by
  have hfold : ∀ (steps : List AccessStep) (start : String),
      (steps.foldl (fun acc s => acc ++ s.text) start).toList =
        start.toList ++ (steps.map (·.text.toList)).flatten := by
    intro steps
    induction steps with
    | nil => intro start; simp
    | cons s steps ih => intro start; simp [ih]
  exact hfold p.steps p.base

/-- **Paths that go on from one path are told apart by their texts**, if they go on through structs
and static arrays only. -/
theorem rest_eq_of_text {base : String} {steps rest rest' : List AccessStep}
    (hrest : ∀ s ∈ rest, s.IsPlain) (hrest' : ∀ s ∈ rest', s.IsPlain)
    (h : text ⟨base, steps ++ rest⟩ = text ⟨base, steps ++ rest'⟩) : rest = rest' := by
  have hl := congrArg String.toList h
  simp only [toList_text, List.map_append, List.flatten_append] at hl
  have hblocks := blocks_eq_of_flatten
    (List.forall_mem_map.2 fun s hs => AccessStep.isBlock_text (hrest s hs))
    (List.forall_mem_map.2 fun s hs => AccessStep.isBlock_text (hrest' s hs))
    (List.append_cancel_left (List.append_cancel_left hl))
  exact AccessStep.texts_inj hrest hrest' hblocks

/-- Of two paths with one text the longer one goes through the base of the other. -/
theorem text_truncated_eq_base {p q : VariablePath} (hp : ∀ s ∈ p.steps, s.IsPlain)
    (hq : ∀ s ∈ q.steps, s.IsPlain) (hle : q.depth ≤ p.depth) (h : p.text = q.text) :
    (p.truncated (p.depth - q.depth)).text = q.base := by
  have hl := congrArg String.toList h
  rw [toList_text, toList_text] at hl
  have hblocks := exists_blocks_of_flatten
    (List.forall_mem_map.2 fun s hs => AccessStep.isBlock_text (hq s hs))
    (List.forall_mem_map.2 fun s hs => AccessStep.isBlock_text (hp s hs))
    (by simpa [depth] using hle) hl
  rw [List.length_map, List.length_map, ← List.map_take] at hblocks
  refine String.toList_inj.1 ?_
  rw [toList_text]
  exact hblocks

end VariablePath

end StorageAtlas
