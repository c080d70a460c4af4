import DevWorkflow.Json.Parser

/-!
# Tokens of values

The tokens that a value consists of, and the parser's way back from them. The parser is a machine with a stack, so the statement
that carries the induction is about any stack and any tokens that follow: after the tokens of a value it stands where it stood
before them, with the value complete (`run_tokens`).
-/

namespace DevWorkflow

namespace Json

mutual

/-- The tokens of a value. -/
def Value.tokens : Value → List Token
  | .null => [.null]
  | .bool b => [.bool b]
  | .number literal => [.number literal]
  | .string units => [.string units]
  | .array [] => [.openBracket, .closeBracket]
  | .array (v :: rest) => .openBracket :: (v.tokens ++ (itemTokens rest ++ [.closeBracket]))
  | .object [] => [.openBrace, .closeBrace]
  | .object ((key, v) :: rest) =>
    .openBrace :: .string key :: .colon :: (v.tokens ++ (memberTokens rest ++ [.closeBrace]))

/-- The tokens of the items of an array after the first. -/
def itemTokens : List Value → List Token
  | [] => []
  | v :: rest => .comma :: (v.tokens ++ itemTokens rest)

/-- The tokens of the members of an object after the first. -/
def memberTokens : List (List StringUnit × Value) → List Token
  | [] => []
  | (key, v) :: rest => .comma :: .string key :: .colon :: (v.tokens ++ memberTokens rest)

end

/-- The first token of a value does not end an array. -/
theorem Value.tokens_eq_cons (v : Value) : ∃ k ks, v.tokens = k :: ks ∧ k ≠ .closeBracket := by
  cases v with
  | null | bool _ | number _ | string _ => exact ⟨_, _, by rw [Value.tokens], by simp⟩
  | array items => cases items <;> exact ⟨_, _, by rw [Value.tokens], by simp⟩
  | object members => rcases members with _ | ⟨⟨key, v⟩, rest⟩ <;> exact ⟨_, _, by rw [Value.tokens], by simp⟩

namespace ParseState

/-- Where the first item of an array may come, a value is read as the first item. -/
theorem run_firstItem (stack : List Frame) (v : Value) (ts : List Token) :
    run ⟨stack, .firstItem⟩ (v.tokens ++ ts) = run ⟨.items [] :: stack, .value⟩ (v.tokens ++ ts) := by
  obtain ⟨k, ks, hv, hk⟩ := v.tokens_eq_cons
  rw [hv, List.cons_append, run, run]
  simp [step, hk]

mutual

/-- The tokens of a value complete it. -/
theorem run_tokens : ∀ (v : Value) (stack : List Frame) (ts : List Token),
    run ⟨stack, .value⟩ (v.tokens ++ ts) = run ⟨stack, .after v⟩ ts
  | .null, stack, ts => by rw [Value.tokens]; rfl
  | .bool b, stack, ts => by rw [Value.tokens]; rfl
  | .number literal, stack, ts => by rw [Value.tokens]; rfl
  | .string units, stack, ts => by rw [Value.tokens]; rfl
  | .array [], stack, ts => by rw [Value.tokens]; rfl
  | .array (v :: rest), stack, ts => by
    have hopen : ∀ us, run ⟨stack, .value⟩ (.openBracket :: us) = run ⟨stack, .firstItem⟩ us := fun _ => rfl
    rw [Value.tokens, List.cons_append, hopen, List.append_assoc, run_firstItem, run_tokens v, List.append_assoc,
      List.singleton_append, run_itemTokens rest]
    rfl
  | .object [], stack, ts => by rw [Value.tokens]; rfl
  | .object ((key, v) :: rest), stack, ts => by
    have hopen : ∀ us, run ⟨stack, .value⟩ (.openBrace :: .string key :: .colon :: us) =
        run ⟨.members [] key :: stack, .value⟩ us := fun _ => rfl
    rw [Value.tokens, List.cons_append, List.cons_append, List.cons_append, hopen, List.append_assoc, run_tokens v,
      List.append_assoc, List.singleton_append, run_memberTokens rest]
    rfl

/-- The tokens of the items after a complete one complete the array. -/
theorem run_itemTokens : ∀ (items : List Value) (v : Value) (done : List Value) (stack : List Frame) (ts : List Token),
    run ⟨.items done :: stack, .after v⟩ (itemTokens items ++ .closeBracket :: ts) =
      run ⟨stack, .after (.array (done.reverse ++ v :: items))⟩ ts
  | [], v, done, stack, ts => by simp [itemTokens, run, step, goOn]
  | w :: rest, v, done, stack, ts => by
    have hcomma : ∀ us, run ⟨.items done :: stack, .after v⟩ (.comma :: us) =
        run ⟨.items (v :: done) :: stack, .value⟩ us := fun _ => rfl
    rw [itemTokens, List.cons_append, hcomma, List.append_assoc, run_tokens w, run_itemTokens rest]
    simp

/-- The tokens of the members after a complete one complete the object. -/
theorem run_memberTokens : ∀ (members : List (List StringUnit × Value)) (key : List StringUnit) (v : Value)
    (done : List (List StringUnit × Value)) (stack : List Frame) (ts : List Token),
    run ⟨.members done key :: stack, .after v⟩ (memberTokens members ++ .closeBrace :: ts) =
      run ⟨stack, .after (.object (done.reverse ++ (key, v) :: members))⟩ ts
  | [], key, v, done, stack, ts => by simp [memberTokens, run, step, goOn]
  | (key', w) :: rest, key, v, done, stack, ts => by
    have hcomma : ∀ us, run ⟨.members done key :: stack, .after v⟩ (.comma :: .string key' :: .colon :: us) =
        run ⟨.members ((key, v) :: done) key' :: stack, .value⟩ us := fun _ => rfl
    rw [memberTokens, List.cons_append, List.cons_append, List.cons_append, hcomma, List.append_assoc, run_tokens w,
      run_memberTokens rest]
    simp

end

end ParseState

/-- The parser gets a value back from its tokens. -/
theorem parseTokens_tokens (v : Value) : parseTokens v.tokens = some v := by
  have h := ParseState.run_tokens v [] []
  rw [List.append_nil] at h
  rw [parseTokens, h]
  rfl

end Json

end DevWorkflow
