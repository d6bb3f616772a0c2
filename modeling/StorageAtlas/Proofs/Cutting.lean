import Mathlib.Data.List.Infix
import Mathlib.Data.List.TakeWhile
import StorageAtlas.Model.TypeExpr

/-!
# Cutting texts that were joined

Each function that cuts the text of a type is undone here by joining what it gives: brackets behind
a text (`lastBrackets?_suffix`), an arrow between two (`cutAtArrow_between`), a character that is
the last of its kind (`cutAtLast?_between`), white space around a text that has none at its ends
(`IsTight.trim_eq`).

A text may stand beside an arrow if its own arrows and parentheses lie in pairs of parentheses
(`Passes`). This is a statement about what may follow and come before, not about the text alone, so
that texts that pass can be joined.
-/

namespace StorageAtlas

namespace Text

/-- The text is not empty, and has no white space at its ends. -/
structure IsTight (cs : List Char) : Prop where
  head : ∃ c, cs.head? = some c ∧ isBlank c = false
  last : ∃ c, cs.getLast? = some c ∧ isBlank c = false

theorem dropWhile_of_head {p : Char → Bool} {cs : List Char} {c : Char} (h : cs.head? = some c)
    (hc : p c = false) : cs.dropWhile p = cs := by
  cases cs with
  | nil => exact nomatch h
  | cons d cs =>
    obtain rfl := Option.some.inj h
    exact List.dropWhile_cons_of_neg (by rw [hc]; exact Bool.false_ne_true)

theorem trimEnd_of_last {cs : List Char} {c : Char} (h : cs.getLast? = some c)
    (hc : isBlank c = false) : trimEnd cs = cs := by
  have hhead : cs.reverse.head? = some c := by rw [List.head?_reverse, h]
  rw [trimEnd, dropWhile_of_head hhead hc, List.reverse_reverse]

/-- White space, or nothing. -/
def IsBlankText (cs : List Char) : Prop := ∀ c ∈ cs, isBlank c

instance (cs : List Char) : Decidable (IsBlankText cs) :=
  decidable_of_iff (cs.all isBlank) List.all_eq_true

theorem isBlankText_nil : IsBlankText [] := fun _ hc => absurd hc List.not_mem_nil

section White

variable {bs cs ds : List Char}

theorem trimStart_append_left (hb : IsBlankText bs) : trimStart (bs ++ cs) = trimStart cs :=
  List.dropWhile_append_of_pos hb

theorem trimEnd_append_right (hb : IsBlankText bs) : trimEnd (cs ++ bs) = trimEnd cs := by
  have hb' : ∀ c ∈ bs.reverse, isBlank c := fun c hc => hb c (List.mem_reverse.1 hc)
  rw [trimEnd, List.reverse_append, List.dropWhile_append_of_pos hb', trimEnd]

theorem trimStart_eq_nil (hb : IsBlankText bs) : trimStart bs = [] := List.dropWhile_eq_nil_iff.2 hb

theorem trimStart_append_of_ne_nil (h : trimStart cs ≠ []) :
    trimStart (cs ++ ds) = trimStart cs ++ ds := by
  have hne : (List.dropWhile isBlank cs).isEmpty = false := by simpa [trimStart] using h
  rw [trimStart, List.dropWhile_append, hne, trimStart]
  simp

/-- White space around a text does not matter. -/
theorem trim_append_left (hb : IsBlankText bs) : trim (bs ++ cs) = trim cs := by
  rw [trim, trimStart_append_left hb, trim]

theorem trim_append_right (hb : IsBlankText bs) : trim (cs ++ bs) = trim cs := by
  by_cases h : trimStart cs = []
  · have hcs : IsBlankText cs := List.dropWhile_eq_nil_iff.1 h
    rw [trim, trimStart_append_left hcs, trimStart_eq_nil hb, trim, h]
  · rw [trim, trimStart_append_of_ne_nil h, trimEnd_append_right hb, trim]

theorem exists_trimStart (cs : List Char) : ∃ bs, IsBlankText bs ∧ cs = bs ++ trimStart cs :=
  ⟨cs.takeWhile isBlank, fun _ hc => List.mem_takeWhile_imp hc,
    List.takeWhile_append_dropWhile.symm⟩

theorem trim_trimStart (cs : List Char) : trim (trimStart cs) = trim cs := by
  obtain ⟨bs, hb, hcs⟩ := exists_trimStart cs
  calc trim (trimStart cs) = trim (bs ++ trimStart cs) := (trim_append_left hb).symm
    _ = trim cs := by rw [← hcs]

theorem head?_trimStart (h : trimStart cs ≠ []) :
    ∃ c, (trimStart cs).head? = some c ∧ isBlank c = false :=
  ⟨_, List.head?_eq_some_head h, List.head_dropWhile_not isBlank h⟩

theorem exists_trimEnd (cs : List Char) : ∃ bs, IsBlankText bs ∧ cs = trimEnd cs ++ bs := by
  obtain ⟨bs, hb, hcs⟩ := exists_trimStart cs.reverse
  refine ⟨bs.reverse, fun c hc => hb c (List.mem_reverse.1 hc), ?_⟩
  rw [trimEnd, ← List.reverse_append]
  change cs = (bs ++ trimStart cs.reverse).reverse
  rw [← hcs, List.reverse_reverse]

theorem exists_trim (cs : List Char) : ∃ bs, IsBlankText bs ∧ trimStart cs = trim cs ++ bs :=
  exists_trimEnd (trimStart cs)

/-- A text that does not end in white space is trimmed in front only. -/
theorem trim_append_of_last {c : Char} (h : trimStart cs ≠ []) (hl : ds.getLast? = some c)
    (hc : isBlank c = false) : trim (cs ++ ds) = trimStart cs ++ ds := by
  have hlast : (trimStart cs ++ ds).getLast? = some c := by
    rw [List.getLast?_append, hl, Option.some_or]
  rw [trim, trimStart_append_of_ne_nil h, trimEnd_of_last hlast hc]

theorem isTight_trim (h : trim cs ≠ []) : IsTight (trim cs) := by
  constructor
  · obtain ⟨bs, -, hcs⟩ := exists_trim cs
    obtain ⟨c, rest, htrim⟩ := List.exists_cons_of_ne_nil h
    have hstart : trimStart cs = c :: (rest ++ bs) := by
      rw [hcs, htrim, List.cons_append]
    obtain ⟨c', hc', hblank⟩ := head?_trimStart (hstart ▸ List.cons_ne_nil _ _)
    rw [hstart] at hc'
    obtain rfl := Option.some.inj hc'
    exact ⟨c, by rw [htrim]; rfl, hblank⟩
  · have hne : trimStart (trimStart cs).reverse ≠ [] := fun hnil => h (by
      rw [trim, trimEnd]
      change (trimStart (trimStart cs).reverse).reverse = []
      rw [hnil, List.reverse_nil])
    obtain ⟨c, hc, hblank⟩ := head?_trimStart hne
    exact ⟨c, by rw [trim, trimEnd, List.getLast?_reverse]; exact hc, hblank⟩

end White

namespace IsTight

variable {cs : List Char}

theorem ne_nil (h : IsTight cs) : cs ≠ [] := by
  rintro rfl
  obtain ⟨c, hc, -⟩ := h.head
  exact nomatch hc

theorem trimStart_eq (h : IsTight cs) : trimStart cs = cs := by
  obtain ⟨c, hc, hcb⟩ := h.head
  exact dropWhile_of_head hc hcb

theorem trim_eq (h : IsTight cs) : trim cs = cs := by
  obtain ⟨d, hd, hdb⟩ := h.last
  rw [trim, h.trimStart_eq, trimEnd_of_last hd hdb]

/-- A text without white space that is not empty. -/
theorem of_forall (hne : cs ≠ []) (h : ∀ c ∈ cs, isBlank c = false) : IsTight cs where
  head := ⟨cs.head hne, List.head?_eq_some_head hne, h _ (List.head_mem hne)⟩
  last := ⟨cs.getLast hne, List.getLast?_eq_some_getLast hne, h _ (List.getLast_mem hne)⟩

/-- What begins like one text and ends like another is tight if both are. -/
theorem append {ds : List Char} (h : IsTight cs) (h' : IsTight ds) (between : List Char) :
    IsTight (cs ++ between ++ ds) where
  head := by
    obtain ⟨c, hc, hcb⟩ := h.head
    exact ⟨c, by rw [List.append_assoc, List.head?_append, hc]; rfl, hcb⟩
  last := by
    obtain ⟨d, hd, hdb⟩ := h'.last
    exact ⟨d, by rw [List.getLast?_append, hd]; rfl, hdb⟩

end IsTight

theorem trim_trim (cs : List Char) : trim (trim cs) = trim cs := by
  by_cases h : trim cs = []
  · rw [h]
    rfl
  · exact (isTight_trim h).trim_eq

end Text

namespace TypeExpr

open Text

/-! ## Texts without marks -/

/-- No brackets, parentheses or arrows. -/
def IsUnmarked (cs : List Char) : Prop :=
  ∀ c ∈ cs, c ≠ '(' ∧ c ≠ ')' ∧ c ≠ '[' ∧ c ≠ ']' ∧ c ≠ '='

theorem isUnmarked_nil : IsUnmarked [] := fun _ hc => absurd hc List.not_mem_nil

theorem IsUnmarked.append {cs ds : List Char} (h : IsUnmarked cs) (h' : IsUnmarked ds) :
    IsUnmarked (cs ++ ds) :=
  List.forall_mem_append.2 ⟨h, h'⟩

theorem isUnmarked_of_blank {bs : List Char} (hb : IsBlankText bs) : IsUnmarked bs := by
  intro c hc
  refine ⟨?_, ?_, ?_, ?_, ?_⟩ <;> rintro rfl <;> exact absurd (hb _ hc) (by decide)

/-- Brackets hide no parenthesis. -/
theorem IsUnmarked.suffix_not_close {inside : List Char} (h : IsUnmarked inside) :
    ')' ∉ '[' :: (inside ++ [']']) := by
  intro hmem
  rcases List.mem_cons.1 hmem with hc | hmem
  · exact absurd hc (by decide)
  · rcases List.mem_append.1 hmem with hc | hc
    · exact (h _ hc).2.1 rfl
    · exact absurd (List.mem_singleton.1 hc) (by decide)

/-! ## Brackets -/

theorem cutAtBracket_inside {inside : List Char} : ∀ {acc rest : List Char},
    IsUnmarked inside →
      cutAtBracket 1 acc (inside ++ '[' :: rest) = some (rest.reverse, inside.reverse ++ acc) := by
  induction inside with
  | nil => intro acc rest _; rfl
  | cons c inside ih =>
    intro acc rest h
    obtain ⟨-, -, hopen, hclose, -⟩ := h c List.mem_cons_self
    rw [List.cons_append, cutAtBracket, if_neg hclose, if_neg hopen,
      ih fun d hd => h d (List.mem_cons_of_mem _ hd), List.reverse_cons, List.append_assoc,
      List.singleton_append]

/-- The last brackets are those that were put behind. -/
theorem lastBrackets?_suffix {before inside : List Char} (h : IsUnmarked inside) :
    lastBrackets? (before ++ '[' :: (inside ++ [']'])) = some (before, inside) := by
  have hrev : (before ++ '[' :: (inside ++ [']'])).reverse =
      ']' :: (inside.reverse ++ '[' :: before.reverse) := by
    simp
  rw [lastBrackets?, hrev]
  simp only
  rw [cutAtBracket_inside fun c hc => h c (List.mem_reverse.1 hc), List.reverse_reverse,
    List.reverse_reverse, List.append_nil]

/-! ## Arrows -/

/-- A search for an arrow goes through the text and comes out as deep as it went in. -/
def Passes (cs : List Char) : Prop :=
  ∀ (depth : Int) (before rest : List Char), 0 ≤ depth →
    cutAtArrow depth before (cs ++ rest) = cutAtArrow depth (cs.reverse ++ before) rest

theorem Passes.append {cs ds : List Char} (h : Passes cs) (h' : Passes ds) : Passes (cs ++ ds) := by
  intro depth before rest hdepth
  rw [List.append_assoc, h depth _ _ hdepth, h' depth _ _ hdepth, List.reverse_append,
    List.append_assoc]

/-- Parentheses and arrows apart, a search goes on behind every character. -/
theorem cutAtArrow_cons {c : Char} {depth : Int} (hopen : c ≠ '(') (hclose : c ≠ ')')
    (heq : c = '=' → depth ≠ 0) (before rest : List Char) :
    cutAtArrow depth before (c :: rest) = cutAtArrow depth (c :: before) rest := by
  conv => lhs; unfold cutAtArrow
  split
  · next h => exact nomatch h
  · next h => exact absurd (List.cons.inj h).1 hopen
  · next h => exact absurd (List.cons.inj h).1 hclose
  · next more h =>
    -- the two characters of an arrow are passed at once
    obtain ⟨rfl, rfl⟩ := List.cons.inj h
    rw [if_neg (heq rfl)]
    conv => rhs; unfold cutAtArrow
    rfl
  · next h =>
    obtain ⟨rfl, rfl⟩ := List.cons.inj h
    rfl

theorem Passes.singleton {c : Char} (hopen : c ≠ '(') (hclose : c ≠ ')') (heq : c ≠ '=') :
    Passes [c] :=
  fun _ before rest _ => cutAtArrow_cons hopen hclose (fun h => absurd h heq) before rest

theorem Passes.of_unmarked {cs : List Char} (h : IsUnmarked cs) : Passes cs := by
  induction cs with
  | nil => exact fun _ _ _ _ => rfl
  | cons c cs ih =>
    obtain ⟨hopen, hclose, -, -, heq⟩ := h c List.mem_cons_self
    exact (Passes.singleton hopen hclose heq).append
      (ih fun d hd => h d (List.mem_cons_of_mem _ hd))

theorem Passes.of_blank {bs : List Char} (hb : IsBlankText bs) : Passes bs :=
  .of_unmarked (isUnmarked_of_blank hb)

theorem Passes.suffix {cs inside : List Char} (h : Passes cs) (hinside : IsUnmarked inside) :
    Passes (cs ++ '[' :: (inside ++ [']'])) := by
  have hopen : Passes ['['] := .singleton (by decide) (by decide) (by decide)
  have hclose : Passes [']'] := .singleton (by decide) (by decide) (by decide)
  exact h.append (hopen.append ((Passes.of_unmarked hinside).append hclose))

theorem cutAtArrow_open {depth : Int} {before rest : List Char} :
    cutAtArrow depth before ('(' :: rest) = cutAtArrow (depth + 1) ('(' :: before) rest := by
  rw [cutAtArrow]

theorem cutAtArrow_close {depth : Int} {before rest : List Char} :
    cutAtArrow (depth + 1) before (')' :: rest) = cutAtArrow depth (')' :: before) rest := by
  rw [cutAtArrow, Int.add_sub_cancel]

/-- An arrow in parentheses is passed over. -/
theorem Passes.arrow_in_parentheses {key value : List Char} (hk : Passes key) (hv : Passes value) :
    Passes ('(' :: (key ++ '=' :: '>' :: (value ++ [')']))) := by
  intro depth before rest hdepth
  have hdeep : (0 : Int) ≤ depth + 1 := by omega
  have hne : ¬depth + 1 = 0 := by omega
  have hjoin : '(' :: (key ++ '=' :: '>' :: (value ++ [')'])) ++ rest =
      '(' :: (key ++ '=' :: '>' :: (value ++ ')' :: rest)) := by
    simp
  rw [hjoin, cutAtArrow_open, hk _ _ _ hdeep, cutAtArrow, if_neg hne, hv _ _ _ hdeep,
    cutAtArrow_close]
  simp

/-- A text is cut at the arrow behind one that is passed through. -/
theorem cutAtArrow_between {key value : List Char} (hk : Passes key) :
    cutAtArrow 0 [] (key ++ '=' :: '>' :: value) = some (key, value) := by
  rw [hk 0 _ _ (Int.le_refl 0), cutAtArrow, if_pos rfl, List.append_nil, List.reverse_reverse]

/-! ## Last characters -/

theorem exists_last_of_mem {c : Char} {cs : List Char} (h : c ∈ cs) :
    ∃ before after, cs = before ++ c :: after ∧ c ∉ after := by
  obtain ⟨l, r, hr, hl⟩ := List.eq_append_cons_of_mem (List.mem_reverse.2 h)
  refine ⟨r.reverse, l.reverse, ?_, fun hmem => hl (List.mem_reverse.1 hmem)⟩
  rw [← List.reverse_reverse cs, hr]
  simp

theorem cutAtLast?_between {c : Char} {before after : List Char} (h : c ∉ after) :
    cutAtLast? c (before ++ c :: after) = some (before, after) := by
  have hrev : (before ++ c :: after).reverse = after.reverse ++ c :: before.reverse := by simp
  have hpass : ∀ d ∈ after.reverse, (d != c) = true := by
    intro d hd
    exact bne_iff_ne.2 fun heq => h (heq ▸ List.mem_reverse.1 hd)
  rw [cutAtLast?, hrev, List.dropWhile_append_of_pos hpass, List.takeWhile_append_of_pos hpass]
  simp

theorem cutAtLast?_eq_none {c : Char} {cs : List Char} (h : c ∉ cs) : cutAtLast? c cs = none := by
  have hall : cs.reverse.dropWhile (· != c) = [] := by
    rw [List.dropWhile_eq_nil_iff]
    intro d hd
    exact bne_iff_ne.2 fun heq => h (heq ▸ List.mem_reverse.1 hd)
  rw [cutAtLast?, hall]

theorem eq_of_cutAtLast? {c : Char} {cs before after : List Char}
    (h : cutAtLast? c cs = some (before, after)) : cs = before ++ c :: after := by
  by_cases hmem : c ∈ cs
  · obtain ⟨before', after', rfl, hafter⟩ := exists_last_of_mem hmem
    rw [cutAtLast?_between hafter] at h
    obtain ⟨rfl, rfl⟩ := Prod.mk.inj (Option.some.inj h)
    rfl
  · rw [cutAtLast?_eq_none hmem] at h
    exact nomatch h

/-! ## First words -/

/-- A first word that does not hold the next character ends in front of it. -/
theorem prefix_of_append_cons {w cs rest : List Char} {c : Char} (h : w <+: cs ++ c :: rest)
    (hc : c ∉ w) : w <+: cs := by
  rcases Nat.lt_or_ge cs.length w.length with hlt | hge
  · have hlong : cs ++ [c] <+: w := by
      refine List.prefix_of_prefix_length_le ⟨rest, by simp⟩ h ?_
      simp only [List.length_append, List.length_singleton]
      omega
    exact absurd (hlong.subset (by simp)) hc
  · exact List.prefix_of_prefix_length_le h (List.prefix_append _ _) hge

theorem prefix_of_append_blank {w cs bs : List Char} (h : w <+: cs ++ bs) (hb : IsBlankText bs)
    (hw : w.any isBlank = false) : w <+: cs := by
  cases bs with
  | nil => rwa [List.append_nil] at h
  | cons b bs =>
    refine prefix_of_append_cons h fun hmem => ?_
    exact List.any_eq_false.1 hw b hmem (hb b List.mem_cons_self)

theorem isPrefixOf?_eq_none {word cs : List Char} (h : ¬word <+: cs) :
    word.isPrefixOf? cs = none := by
  refine Option.eq_none_iff_forall_ne_some.2 fun rest hrest => h ⟨rest, ?_⟩
  exact List.isPrefixOf?_eq_some_iff_append_eq.1 hrest

end TypeExpr

end StorageAtlas
