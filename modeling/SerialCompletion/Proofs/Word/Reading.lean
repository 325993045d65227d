import SerialCompletion.Word.Literal

/-!
# Reading a word in parts

The literal value of a word is made by a pass from left to right, so the value
of a text in front depends on nothing behind it.
-/

namespace SerialCompletion.Word

namespace Reading

/-- The text that characters with more behind them give. -/
def gives (reading : Reading) : Text → Text
  | [] => []
  | c :: rest => reading.output c ++ gives (reading.next c) rest

theorem gives_append (reading : Reading) (first rest : Text) :
    reading.gives (first ++ rest) = reading.gives first ++ (reading.run first).gives rest := by
  induction first generalizing reading with
  | nil => rfl
  | cons c first ih => simp only [List.cons_append, gives, run, ih, List.append_assoc]

theorem run_append (reading : Reading) (first rest : Text) :
    reading.run (first ++ rest) = (reading.run first).run rest := by
  induction first generalizing reading with
  | nil => rfl
  | cons c first ih => exact ih (reading.next c)

end Reading

theorem literalFrom_append (reading : Reading) (first rest : Text) :
    literalFrom reading (first ++ rest) =
      reading.gives first ++ literalFrom (reading.run first) rest := by
  induction first generalizing reading with
  | nil => rfl
  | cons c first ih =>
      rw [List.cons_append, literalFrom, ih, Reading.gives, Reading.run, List.append_assoc]

/-- Whether a text gives a value and leaves the reading as it was. -/
structure Returns (reading : Reading) (written value : Text) : Prop where
  gives : reading.gives written = value
  run : reading.run written = reading

namespace Returns

variable {reading : Reading} {first second part more : Text}

theorem nil (reading : Reading) : Returns reading [] [] :=
  ⟨rfl, rfl⟩

theorem append (front : Returns reading first part) (behind : Returns reading second more) :
    Returns reading (first ++ second) (part ++ more) := by
  constructor
  · rw [Reading.gives_append, front.run, front.gives, behind.gives]
  · rw [Reading.run_append, front.run, behind.run]

/-- Characters that one after the other give values and leave the reading as it was. -/
theorem flatMap {write : Char → Text} (each : ∀ c ∈ part, Returns reading (write c) [c]) :
    Returns reading (part.flatMap write) part := by
  induction part with
  | nil => exact nil reading
  | cons c part ih =>
      obtain ⟨front, behind⟩ := List.forall_mem_cons.mp each
      exact front.append (ih behind)

theorem wrap {inner : Reading} {opener closer : Char} (opens : reading.output opener = [])
    (enters : reading.next opener = inner) (body : Returns inner first part)
    (closes : inner.output closer = []) (leaves : inner.next closer = reading) :
    Returns reading ([opener] ++ first ++ [closer]) part := by
  constructor
  · simp [Reading.gives_append, Reading.gives, opens, enters, body.gives, body.run, closes]
  · simp [Reading.run_append, Reading.run, enters, body.run, leaves]

theorem literal {written : Text} (returned : Returns Reading.start written part) :
    literal written = part := by
  have read := literalFrom_append Reading.start written []
  rw [List.append_nil, returned.gives, returned.run] at read
  rw [Word.literal, read]
  exact List.append_nil part

end Returns

/-- A text that the reading returns from has its value in front of whatever follows. -/
theorem literal_append_of_returns {first value : Text} (returned : Returns Reading.start first value)
    (rest : Text) : literal (first ++ rest) = value ++ literal rest := by
  rw [literal, literalFrom_append, returned.gives, returned.run, literal]

/-- A text behind which a word may begin has its literal value as a part. -/
theorem returns_of_run {word : Text} (ended : Reading.start.run word = Reading.start) :
    Returns Reading.start word (literal word) :=
  ⟨(Returns.mk rfl ended).literal.symm, ended⟩

/-! ## Length -/

/-- How much longer a value may be than its word: an open escape may still be kept. -/
def Reading.owed (reading : Reading) : Nat :=
  if reading.escaped then 1 else 0

theorem Reading.length_output_le (reading : Reading) (c : Char) :
    (reading.output c).length + (reading.next c).owed ≤ 1 + reading.owed := by
  obtain ⟨quotation, escaped⟩ := reading
  cases escaped with
  | true => exact Nat.le_succ 1
  | false =>
      cases quotation with
      | single => by_cases quote : c = '\'' <;> simp [output, next, owed, quote]
      | double =>
          by_cases escape : c = '\\'
          · simp [output, next, owed, escape]
          · by_cases quote : c = '"' <;> simp [output, next, owed, escape, quote]
      | outside =>
          by_cases escape : c = '\\'
          · simp [output, next, owed, escape]
          · by_cases single : c = '\''
            · simp [output, next, owed, single]
            · by_cases double : c = '"' <;> simp [output, next, owed, escape, single, double]

theorem length_literalFrom_le (reading : Reading) (word : Text) :
    (literalFrom reading word).length ≤ word.length + reading.owed := by
  induction word generalizing reading with
  | nil =>
      unfold literalFrom Reading.finish Reading.owed
      split <;> decide
  | cons c rest ih =>
      have step := reading.length_output_le c
      have behind := ih (reading.next c)
      rw [literalFrom, List.length_append, List.length_cons]
      omega

/-- A value is never longer than its word. -/
theorem length_literal_le (word : Text) : (literal word).length ≤ word.length :=
  length_literalFrom_le Reading.start word

end SerialCompletion.Word
