import SerialCompletion.Text.Basic

/-!
# Pieces of a text

A text is cut into fields at the characters that satisfy a test, and where runs
of such characters cut as one of them does, the empty fields are left out.
Texts that are joined by a mark are cut at the mark into the pieces of each of
them, so they come back as they were exactly when none of them holds the mark.
A written number is a piece of decimal digits, which read as the number.
-/

namespace SerialCompletion.Text

/-! ## Fields that are not empty -/

variable {isBreak : Char → Bool} {c : Char}

def filledFields (isBreak : Char → Bool) (text : Text) : List Text :=
  (text.splitOnP isBreak).filter fun field => !field.isEmpty

theorem filledFields_append_break (breaks : isBreak c = true) (front behind : Text) :
    filledFields isBreak (front ++ c :: behind) =
      filledFields isBreak front ++ filledFields isBreak behind := by
  rw [filledFields, List.splitOnP_append_cons _ _ breaks, List.filter_append]
  rfl

theorem filledFields_gap_append {gap : Text} (breaks : ∀ c ∈ gap, isBreak c = true) (text : Text) :
    filledFields isBreak (gap ++ text) = filledFields isBreak text := by
  induction gap with
  | nil => rfl
  | cons c gap ih =>
      obtain ⟨first, others⟩ := List.forall_mem_cons.mp breaks
      have cut := filledFields_append_break first [] (gap ++ text)
      rw [List.nil_append] at cut
      rw [List.cons_append, cut, ih others]
      rfl

theorem filledFields_of_free {text : Text} (some : text ≠ []) (free : ∀ c ∈ text, isBreak c = false) :
    filledFields isBreak text = [text] := by
  rw [filledFields, List.splitOnP_eq_singleton free]
  simp [some]

/-- A field stands in front of the break that ends it. -/
theorem filledFields_append_of_free {field : Text} (some : field ≠ [])
    (free : ∀ c ∈ field, isBreak c = false) (breaks : isBreak c = true) (behind : Text) :
    filledFields isBreak (field ++ c :: behind) = field :: filledFields isBreak (c :: behind) := by
  have gap := filledFields_append_break breaks [] behind
  rw [List.nil_append] at gap
  rw [filledFields_append_break breaks, gap, filledFields_of_free some free]
  rfl

/-! ## Texts between marks -/

variable {mark : Char} {texts : List Text}

theorem length_splitOn (mark : Char) (text : Text) :
    (text.splitOn mark).length = text.count mark + 1 := by
  induction text with
  | nil => rfl
  | cons c rest ih =>
      rw [List.splitOn_cons_eq_if_modifyHead, List.count_cons]
      split
      · rw [List.length_cons, ih]
      · rw [List.length_modifyHead, ih, Nat.add_zero]

theorem intercalate_mark_cons (text : Text) (some : texts ≠ []) :
    List.intercalate [mark] (text :: texts) = text ++ mark :: List.intercalate [mark] texts := by
  rw [List.intercalate_cons_of_ne_nil some, List.append_assoc, List.singleton_append]

/-- Texts that are joined with marks are cut into the pieces of each of them. -/
theorem splitOn_intercalate_mark (mark : Char) (some : texts ≠ []) :
    (List.intercalate [mark] texts).splitOn mark = texts.flatMap fun text => text.splitOn mark := by
  induction texts with
  | nil => exact absurd rfl some
  | cons text rest ih =>
      by_cases last : rest = []
      · subst last
        rw [List.intercalate_singleton, List.flatMap_singleton]
      · rw [intercalate_mark_cons text last, List.splitOn_append_cons_self, ih last]
        rfl

theorem length_flatMap_splitOn (mark : Char) (texts : List Text) :
    (texts.flatMap fun text => text.splitOn mark).length =
      texts.length + texts.flatten.count mark := by
  induction texts with
  | nil => rfl
  | cons text rest ih =>
      rw [List.flatMap_cons, List.length_append, length_splitOn, ih, List.flatten_cons,
        List.count_append, List.length_cons]
      omega

theorem flatMap_splitOn_of_free (free : ∀ text ∈ texts, mark ∉ text) :
    (texts.flatMap fun text => text.splitOn mark) = texts := by
  induction texts with
  | nil => rfl
  | cons text rest ih =>
      obtain ⟨first, others⟩ := List.forall_mem_cons.mp free
      rw [List.flatMap_cons, List.splitOn_eq_singleton first, ih others]
      rfl

theorem free_of_length_flatMap_splitOn
    (same : (texts.flatMap fun text => text.splitOn mark).length = texts.length) :
    ∀ text ∈ texts, mark ∉ text := by
  rw [length_flatMap_splitOn] at same
  have none : mark ∉ texts.flatten := List.count_eq_zero.mp (by omega)
  intro text member holds
  exact none (List.mem_flatten_of_mem member holds)

theorem not_mem_intercalate (other : c ≠ mark) (free : ∀ text ∈ texts, c ∉ text) :
    c ∉ List.intercalate [mark] texts := by
  induction texts with
  | nil => exact List.not_mem_nil
  | cons text rest ih =>
      obtain ⟨first, others⟩ := List.forall_mem_cons.mp free
      by_cases last : rest = []
      · rwa [last, List.intercalate_singleton]
      · rw [intercalate_mark_cons text last]
        simp [first, other, ih others]

/-! ## The last mark -/

/-- A text is made of its part up to its last mark and of the rest. -/
theorem cutAfterLast_append (mark : Char) (text : Text) :
    (cutAfterLast mark text).1 ++ (cutAfterLast mark text).2 = text := by
  induction text with
  | nil => rfl
  | cons c rest ih =>
      rcases cut : cutAfterLast mark rest with ⟨_ | ⟨d, head⟩, tail⟩
      · rw [cut] at ih
        simp only [cutAfterLast, cut]
        split <;> exact congrArg (c :: ·) ih
      · rw [cut] at ih
        simp only [cutAfterLast, cut]
        exact congrArg (c :: ·) ih

/-- Whether a text is empty or ends in a mark. -/
def EndsAt (mark : Char) (text : Text) : Prop :=
  text = [] ∨ ∃ front, text = front ++ [mark]

/-- The part up to the last mark ends in the mark, if there is one. -/
theorem cutAfterLast_fst (mark : Char) (text : Text) : EndsAt mark (cutAfterLast mark text).1 := by
  induction text with
  | nil => exact .inl rfl
  | cons c rest ih =>
      rcases cut : cutAfterLast mark rest with ⟨_ | ⟨d, head⟩, tail⟩
      · simp only [cutAfterLast, cut]
        split
        case isTrue same => exact .inr ⟨[], by rw [same]; rfl⟩
        case isFalse => exact .inl rfl
      · rw [cut] at ih
        obtain ⟨front, last⟩ := ih.resolve_left (List.cons_ne_nil d head)
        simp only [cutAfterLast, cut]
        exact .inr ⟨c :: front, congrArg (c :: ·) last⟩

theorem not_mem_cutAfterLast_snd (mark : Char) (text : Text) : mark ∉ (cutAfterLast mark text).2 := by
  induction text with
  | nil => exact List.not_mem_nil
  | cons c rest ih =>
      rcases cut : cutAfterLast mark rest with ⟨_ | ⟨d, head⟩, tail⟩
      · rw [cut] at ih
        simp only [cutAfterLast, cut]
        split
        case isTrue => exact ih
        case isFalse other =>
          rw [List.mem_cons, not_or]
          exact ⟨Ne.symm other, ih⟩
      · rw [cut] at ih
        simp only [cutAfterLast, cut]
        exact ih

theorem cutAfterLast_concat (mark : Char) (front : Text) :
    cutAfterLast mark (front ++ [mark]) = (front ++ [mark], []) := by
  induction front with
  | nil => simp [cutAfterLast]
  | cons c front ih =>
      obtain ⟨d, rest, some⟩ := List.exists_cons_of_ne_nil (List.concat_ne_nil mark front)
      rw [List.cons_append, cutAfterLast, ih, some]

/-- Another character goes on with the part behind the last mark. -/
theorem cutAfterLast_concat_of_ne {c : Char} (other : c ≠ mark) (text : Text) :
    cutAfterLast mark (text ++ [c]) =
      ((cutAfterLast mark text).1, (cutAfterLast mark text).2 ++ [c]) := by
  induction text with
  | nil => simp [cutAfterLast, other]
  | cons d rest ih =>
      rw [List.cons_append]
      rcases cut : cutAfterLast mark rest with ⟨_ | ⟨e, head⟩, tail⟩
      · simp only [cutAfterLast, ih, cut]
        split <;> rfl
      · simp only [cutAfterLast, ih, cut]

/-! ## Numbers -/

theorem isDigit_of_mem_ofNat {number : Nat} {c : Char} (member : c ∈ ofNat number) :
    c.isDigit = true :=
  Nat.isDigit_of_mem_toDigits (by decide) (by decide) member

theorem not_mem_ofNat {c : Char} {number : Nat} (other : c.isDigit = false) : c ∉ ofNat number := by
  intro member
  rw [isDigit_of_mem_ofNat member] at other
  cases other

theorem ofNat_ne_of_mem {name : Text} (c : Char) (member : c ∈ name) (other : c.isDigit = false)
    (number : Nat) : ofNat number ≠ name := by
  rintro rfl
  exact not_mem_ofNat other member

theorem ofNat_ne_nil (number : Nat) : ofNat number ≠ [] :=
  Nat.toDigits_ne_nil

theorem decimalDigit?_of_isDigit {c : Char} (digit : c.isDigit = true) :
    decimalDigit? c = some (c.toNat - '0'.toNat) := by
  have range : '0' ≤ c ∧ c ≤ '9' := Char.isDigit_iff_toNat.mp digit
  rw [decimalDigit?, if_pos range]

theorem mapM_of_forall {α β : Type} {f : α → Option β} {g : α → β} {items : List α}
    (each : ∀ item ∈ items, f item = some (g item)) : items.mapM f = some (items.map g) := by
  induction items with
  | nil => rfl
  | cons item items ih =>
      obtain ⟨first, others⟩ := List.forall_mem_cons.mp each
      rw [List.mapM_cons, first, ih others]
      rfl

theorem digitsFrom_map (value : Nat) (text : Text) :
    digitsFrom 10 value (text.map fun c => c.toNat - '0'.toNat) = Nat.ofDigitChars 10 text value := by
  induction text generalizing value with
  | nil => rfl
  | cons c rest ih => exact ih _

/-- The values of the digits of a written number make up the number. -/
theorem digitsFrom_ofNat (number : Nat) :
    digitsFrom 10 0 ((ofNat number).map fun c => c.toNat - '0'.toNat) = number := by
  rw [digitsFrom_map, ofNat, Nat.ofDigitChars_toDigits (by decide) (by decide)]

@[simp] theorem toNat?_ofNat (number : Nat) : toNat? (ofNat number) = some number := by
  have filled : (ofNat number).isEmpty = false :=
    List.isEmpty_eq_false_iff.mpr (ofNat_ne_nil number)
  have digits : (ofNat number).mapM decimalDigit? = some _ :=
    mapM_of_forall fun c member => decimalDigit?_of_isDigit (isDigit_of_mem_ofNat member)
  rw [toNat?, filled, digits, Option.map_some, digitsFrom_ofNat]
  rfl

/-- A written number begins with a zero only if it is zero. -/
theorem head?_ofNat_ne {number : Nat} (positive : 0 < number) : (ofNat number).head? ≠ some '0' := by
  induction number using Nat.strongRecOn with
  | ind number ih =>
      rcases Nat.lt_or_ge number 10 with small | large
      · have digits : ∀ digit < 10, 0 < digit → (ofNat digit).head? ≠ some '0' := by decide
        exact digits number small positive
      · have front := ih (number / 10) (by omega) (by omega)
        obtain ⟨d, digits, split⟩ := List.exists_cons_of_ne_nil (@Nat.toDigits_ne_nil (number / 10) 10)
        rw [ofNat, split] at front
        rw [ofNat, Nat.toDigits_of_base_le (by decide) large, split]
        exact front

end SerialCompletion.Text
