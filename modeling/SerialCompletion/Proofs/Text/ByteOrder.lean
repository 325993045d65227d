import Mathlib.Data.List.Lex
import SerialCompletion.Text.Basic

/-!
# Texts in byte order

The bytes of a character are its code in base 64, behind a leading byte that
grows with their number.  So the first characters that differ put two texts
in the order in which the first bytes that differ put their UTF-8 forms, and
sorted texts are ascending in the order of their bytes.
-/

namespace SerialCompletion.Text

/-! ## The bytes of a character -/

def leading : Nat → Nat → Nat
  | 0, code => code
  | count + 1, code => leading count (code / 64)

/-- A code as a leading byte with a marker and some bytes with six bits each. -/
def codeBytes (marker : Nat) : Nat → Nat → List UInt8
  | 0, code => [UInt8.ofNat (code + marker)]
  | count + 1, code => codeBytes marker count (code / 64) ++ [UInt8.ofNat (code % 64 + 128)]

/-- The marker of the leading byte and the number of bytes behind it, for each range of codes. -/
inductive CodeForm (code : Nat) : Nat → Nat → Prop where
  | one (most : code ≤ 127) : CodeForm code 0 0
  | two (least : 127 < code) (most : code ≤ 2047) : CodeForm code 192 1
  | three (least : 2047 < code) (most : code ≤ 65535) : CodeForm code 224 2
  | four (least : 65535 < code) (most : code ≤ 1114111) : CodeForm code 240 3

section Codes

variable {marker count code other : Nat}

theorem ofNat_lt_ofNat (below : code < other) (fits : other < 256) :
    UInt8.ofNat code < UInt8.ofNat other := by
  rw [UInt8.lt_iff_toNat_lt, UInt8.toNat_ofNat', UInt8.toNat_ofNat']
  omega

theorem exists_codeBytes_eq (marker count code : Nat) :
    ∃ rest, codeBytes marker count code = UInt8.ofNat (leading count code + marker) :: rest := by
  induction count generalizing code with
  | zero => exact ⟨[], rfl⟩
  | succ count ih =>
      obtain ⟨rest, leads⟩ := ih (code / 64)
      refine ⟨rest ++ [UInt8.ofNat (code % 64 + 128)], ?_⟩
      rw [codeBytes, leads, leading, List.cons_append]

/-- Of two codes with as many bytes, the lower has the lower bytes. -/
theorem codeBytes_append_lt (below : code < other) (fits : leading count other + marker < 256)
    (first second : List UInt8) :
    codeBytes marker count code ++ first < codeBytes marker count other ++ second := by
  induction count generalizing code other first second with
  | zero => exact List.cons_lt_cons_iff.mpr (.inl (ofNat_lt_ofNat (by omega) fits))
  | succ count ih =>
      simp only [codeBytes, List.append_assoc]
      rcases Nat.lt_or_eq_of_le (Nat.div_le_div_right (c := 64) below.le) with less | same
      · exact ih less fits _ _
      · rw [same]
        refine List.append_left_lt (List.cons_lt_cons_iff.mpr (.inl (ofNat_lt_ofNat ?_ ?_))) <;> omega

theorem codeBytes_append_lt_of_lead {marker' count' : Nat}
    (below : leading count code + marker < leading count' other + marker')
    (fits : leading count' other + marker' < 256) (first second : List UInt8) :
    codeBytes marker count code ++ first < codeBytes marker' count' other ++ second := by
  obtain ⟨rest, leads⟩ := exists_codeBytes_eq marker count code
  obtain ⟨rest', leads'⟩ := exists_codeBytes_eq marker' count' other
  rw [leads, leads']
  exact List.cons_lt_cons_iff.mpr (.inl (ofNat_lt_ofNat below fits))

namespace CodeForm

variable {marker' count' : Nat}

theorem fits (form : CodeForm code marker count) : leading count code + marker < 256 := by
  cases form <;> simp only [leading] <;> omega

theorem same_or_lead_lt (form : CodeForm code marker count) (form' : CodeForm other marker' count')
    (below : code < other) :
    marker = marker' ∧ count = count' ∨ leading count code + marker < leading count' other + marker' := by
  cases form <;> cases form' <;> simp [leading] <;> omega

end CodeForm

end Codes

theorem exists_codeForm (c : Char) :
    ∃ marker count, CodeForm c.toNat marker count ∧
      String.utf8EncodeChar c = codeBytes marker count c.toNat := by
  have highest : c.toNat ≤ 1114111 := by
    rcases c.valid with low | high
    · exact Nat.le_trans (Nat.le_of_lt low) (by decide)
    · exact Nat.le_of_lt_succ high.2
  unfold String.utf8EncodeChar
  change c.val.toNat ≤ _ at highest
  change ∃ marker count, CodeForm c.val.toNat marker count ∧ _ = codeBytes marker count c.val.toNat
  generalize c.val.toNat = code at highest
  dsimp only
  split
  case isTrue most => exact ⟨0, 0, .one most, rfl⟩
  case isFalse least =>
    split
    case isTrue most =>
      have lead : code / 64 % 32 = code / 64 := by omega
      exact ⟨192, 1, .two (by omega) most, by rw [lead]; rfl⟩
    case isFalse least =>
      split
      case isTrue most =>
        have lead : code / 4096 % 16 = code / 64 / 64 := by omega
        exact ⟨224, 2, .three (by omega) most, by rw [lead]; rfl⟩
      case isFalse least =>
        have lead : code / 262144 % 8 = code / 64 / 64 / 64 := by omega
        have second : code / 4096 = code / 64 / 64 := by omega
        exact ⟨240, 3, .four (by omega) highest, by rw [lead, second]; rfl⟩

/-- Of two characters, the one with the lower code has the lower bytes. -/
theorem utf8EncodeChar_append_lt {c d : Char} (below : c.toNat < d.toNat) (first second : List UInt8) :
    String.utf8EncodeChar c ++ first < String.utf8EncodeChar d ++ second := by
  obtain ⟨marker, count, form, encoded⟩ := exists_codeForm c
  obtain ⟨marker', count', form', encoded'⟩ := exists_codeForm d
  rw [encoded, encoded']
  rcases form.same_or_lead_lt form' below with ⟨rfl, rfl⟩ | less
  · exact codeBytes_append_lt below form'.fits first second
  · exact codeBytes_append_lt_of_lead less form'.fits first second

/-! ## The bytes of a text -/

def bytes (text : Text) : List UInt8 :=
  (String.ofList text).toUTF8.data.toList

@[simp] theorem bytes_nil : bytes [] = [] :=
  rfl

@[simp] theorem bytes_cons (c : Char) (rest : Text) :
    bytes (c :: rest) = String.utf8EncodeChar c ++ bytes rest := by
  simp only [bytes, String.toUTF8, String.toByteArray_ofList, List.utf8Encode,
    List.toList_data_toByteArray, List.flatMap_cons]

theorem bytes_cons_ne_nil (c : Char) (rest : Text) : bytes (c :: rest) ≠ [] := by
  obtain ⟨marker, count, _, encoded⟩ := exists_codeForm c
  obtain ⟨others, leads⟩ := exists_codeBytes_eq marker count c.toNat
  rw [bytes_cons, encoded, leads]
  exact List.cons_ne_nil _ _

/-! ## The order of texts -/

section Order

variable {c d : Char} {first second third : Text}

theorem notAfter_cons_iff :
    notAfter (c :: first) (d :: second) = true ↔
      c.toNat < d.toNat ∨ c = d ∧ notAfter first second = true := by
  rw [notAfter]
  split
  case isTrue same => simp [same]
  case isFalse differs => simp [differs]

theorem notAfter_trans (before : notAfter first second = true) (behind : notAfter second third = true) :
    notAfter first third = true := by
  induction first generalizing second third with
  | nil => rfl
  | cons c first ih =>
      cases second with
      | nil => cases before
      | cons d second =>
          cases third with
          | nil => cases behind
          | cons e third =>
              rw [notAfter_cons_iff] at before behind ⊢
              rcases before with less | ⟨rfl, before⟩
              · rcases behind with more | ⟨rfl, _⟩
                · exact .inl (Nat.lt_trans less more)
                · exact .inl less
              · exact behind.imp id fun same => ⟨same.1, ih before same.2⟩

theorem notAfter_total (first second : Text) :
    (notAfter first second || notAfter second first) = true := by
  induction first generalizing second with
  | nil => rfl
  | cons c first ih =>
      cases second with
      | nil => rfl
      | cons d second =>
          rw [Bool.or_eq_true, notAfter_cons_iff, notAfter_cons_iff]
          rcases Nat.lt_trichotomy c.toNat d.toNat with less | same | more
          · exact .inl (.inl less)
          · have equal : c = d := Char.toNat_inj.mp same
            have either := ih second
            rw [Bool.or_eq_true] at either
            exact either.imp (fun behind => .inr ⟨equal, behind⟩) fun behind => .inr ⟨equal.symm, behind⟩
          · exact .inr (.inl more)

theorem notAfter_antisymm (before : notAfter first second = true)
    (behind : notAfter second first = true) : first = second := by
  induction first generalizing second with
  | nil =>
      cases second with
      | nil => rfl
      | cons d second => cases behind
  | cons c first ih =>
      cases second with
      | nil => cases before
      | cons d second =>
          rw [notAfter_cons_iff] at before behind
          rcases before with less | ⟨rfl, before⟩
          · rcases behind with more | ⟨rfl, _⟩
            · exact absurd more (Nat.lt_asymm less)
            · exact absurd less (Nat.lt_irrefl _)
          · rcases behind with more | ⟨_, behind⟩
            · exact absurd more (Nat.lt_irrefl _)
            · rw [ih before behind]

/-- Of two texts, the one in front has the lower bytes. -/
theorem bytes_lt_of_notAfter (before : notAfter first second = true) (differs : first ≠ second) :
    bytes first < bytes second := by
  induction first generalizing second with
  | nil =>
      cases second with
      | nil => exact absurd rfl differs
      | cons d second =>
          obtain ⟨byte, rest, some⟩ := List.exists_cons_of_ne_nil (bytes_cons_ne_nil d second)
          rw [bytes_nil, some]
          exact List.nil_lt_cons byte rest
  | cons c first ih =>
      cases second with
      | nil => cases before
      | cons d second =>
          rw [bytes_cons, bytes_cons]
          rcases notAfter_cons_iff.mp before with less | ⟨rfl, behind⟩
          · exact utf8EncodeChar_append_lt less _ _
          · refine List.append_left_lt (ih behind fun same => differs ?_)
            rw [same]

theorem pairwise_sorted (texts : List Text) :
    (sorted texts).Pairwise fun first second => notAfter first second = true := by
  apply List.pairwise_mergeSort
  · intro first second third
    exact notAfter_trans
  · exact notAfter_total

/-- Sorted texts do not depend on the order in which they came. -/
theorem sorted_eq_of_perm {texts others : List Text} (reordered : texts.Perm others) :
    sorted texts = sorted others := by
  refine List.Perm.eq_of_pairwise (fun _ _ _ _ => notAfter_antisymm) (pairwise_sorted texts)
    (pairwise_sorted others) ?_
  exact ((List.mergeSort_perm texts notAfter).trans reordered).trans
    (List.mergeSort_perm others notAfter).symm

/-- Distinct texts that are sorted ascend in the order of their bytes. -/
theorem pairwise_bytes_sorted {texts : List Text} (distinct : texts.Nodup) :
    (sorted texts).Pairwise fun first second => bytes first < bytes second := by
  have differ : (sorted texts).Nodup := (List.mergeSort_perm texts notAfter).nodup_iff.mpr distinct
  exact (pairwise_sorted texts).imp₂ (fun _ _ before differs => bytes_lt_of_notAfter before differs) differ

theorem nodup_of_ascending {texts : List Text}
    (ascending : texts.Pairwise fun first second => bytes first < bytes second) : texts.Nodup := by
  refine ascending.imp ?_
  rintro first second before rfl
  exact List.lt_irrefl _ before

end Order

end SerialCompletion.Text
