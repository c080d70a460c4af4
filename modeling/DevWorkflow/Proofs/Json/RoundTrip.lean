import DevWorkflow.Json.Printer
import DevWorkflow.Proofs.Json.Layout
import DevWorkflow.Proofs.Json.Nesting

/-!
# Reading what was written

The printer escapes control characters that have no short escape as code units, and they are read as code units. So a value
comes back with these units in place of such characters (`Value.reread`), and its strings stand for the same texts. The main
statement is `parse_render`.
-/

namespace DevWorkflow

namespace Json

/-- Whether a text is written as JSON for a value. -/
def Shows (t : Text) (v : Value) : Prop := Layout v.tokens t

theorem parse_of_shows {t : Text} {v : Value} (h : Shows t v) : parse t = some v := by
  rw [parse, lex_of_layout h, Option.bind_some, parseTokens_tokens]

/-! ## Units -/

/-- Whether a character is written as a code unit. -/
def writtenAsCode (c : Char) : Bool :=
  c.toNat < 0x20 && c ≠ '\x08' && c ≠ '\x0c' && c ≠ '\n' && c ≠ '\r' && c ≠ '\t'

/-- A unit as it is read after it was written. -/
def StringUnit.reread : StringUnit → StringUnit
  | .char c => if writtenAsCode c then .code c.toNat else .char c
  | .code n => .code (n % 0x10000)

/-- A hexadecimal digit is read as it was written. -/
theorem hexValue?_hexDigit {n : Nat} (h : n < 16) : hexValue? (hexDigit n) = some n := by
  have hall : ∀ n < 16, hexValue? (hexDigit n) = some n := by decide
  exact hall n h

/-- Four hexadecimal digits show a code unit. -/
theorem unitSpelling_codeEscape (n : Nat) : UnitSpelling (.code (n % 0x10000)) (codeEscape n) := by
  have hdigit : ∀ m, hexValue? (hexDigit (m % 16)) = some (m % 16) := fun m => hexValue?_hexDigit (Nat.mod_lt m (by omega))
  have hsum : n % 0x10000 = ((n / 0x1000 % 16 * 16 + n / 0x100 % 16) * 16 + n / 0x10 % 16) * 16 + n % 16 := by omega
  rw [hsum]
  exact .code (hdigit _) (hdigit _) (hdigit _) (hdigit _)

/-- A character is written so that it can be read. -/
theorem unitSpelling_escapeChar (c : Char) : UnitSpelling (StringUnit.reread (.char c)) (escapeChar c) := by
  by_cases hcode : writtenAsCode c = true
  · have hlt : c.toNat % 0x10000 = c.toNat := by
      simp only [writtenAsCode, Bool.and_eq_true, decide_eq_true_eq] at hcode
      omega
    have hesc : escapeChar c = codeEscape c.toNat := by
      simp only [writtenAsCode, Bool.and_eq_true, decide_eq_true_eq] at hcode
      obtain ⟨⟨⟨⟨⟨hlt, hb⟩, hf⟩, hn⟩, hr⟩, ht⟩ := hcode
      have hquote : c ≠ '"' := by rintro rfl; exact absurd hlt (by decide)
      have hslash : c ≠ '\\' := by rintro rfl; exact absurd hlt (by decide)
      simp [escapeChar, hquote, hslash, hb, hf, hn, hr, ht, hlt]
    have hspell := unitSpelling_codeEscape c.toNat
    rw [hlt] at hspell
    rw [hesc, StringUnit.reread, if_pos hcode]
    exact hspell
  · rw [StringUnit.reread, if_neg hcode]
    unfold escapeChar
    -- The seven short escapes come first.
    iterate 7
      split
      · next h => subst h; exact .short rfl
    split
    · next hquote hslash hb hf hn hr ht hlt => exact absurd (by simp [writtenAsCode, hb, hf, hn, hr, ht, hlt]) hcode
    · next hquote hslash hb hf hn hr ht hlt => exact .plain hquote hslash hlt

/-- A string is written so that it can be read. -/
theorem spelling_renderString (us : List StringUnit) :
    Spelling (.string (us.map StringUnit.reread)) (renderString us) := by
  have hunits : UnitsSpelling (us.map StringUnit.reread) (us.flatMap StringUnit.render) := by
    induction us with
    | nil => exact .nil
    | cons u us ih =>
      rw [List.map_cons, List.flatMap_cons]
      cases u with
      | char c => exact .cons (unitSpelling_escapeChar c) ih
      | code n => exact .cons (unitSpelling_codeEscape n) ih
  exact .string hunits

/-- A code unit that is no half of a pair stands for a character. -/
theorem textOfUnits?_code {n : Nat} (hhigh : isHighSurrogate n = false) (hlow : isLowSurrogate n = false)
    (rest : List StringUnit) : textOfUnits? (.code n :: rest) = (textOfUnits? rest).map (Char.ofNat n :: ·) := by
  rw [textOfUnits?.eq_def]
  simp [hhigh, hlow]

/-- The text that a string stands for is still the same after it was written and read. -/
theorem textOfUnits?_reread (t : Text) : textOfUnits? ((unitsOfText t).map StringUnit.reread) = some t := by
  induction t with
  | nil => rfl
  | cons c rest ih =>
    rw [unitsOfText, List.map_cons, List.map_cons, ← unitsOfText]
    by_cases hcode : writtenAsCode c = true
    · have hlt : c.toNat < 0x20 := by
        simp only [writtenAsCode, Bool.and_eq_true, decide_eq_true_eq] at hcode
        omega
      have hhigh : isHighSurrogate c.toNat = false := by simp [isHighSurrogate]; omega
      have hlow : isLowSurrogate c.toNat = false := by simp [isLowSurrogate]; omega
      simp [StringUnit.reread, hcode, textOfUnits?_code hhigh hlow, ih]
    · simp [StringUnit.reread, hcode, textOfUnits?, ih]

/-! ## Values -/

mutual

/-- A value as it is read after it was written. -/
def Value.reread : Value → Value
  | .null => .null
  | .bool b => .bool b
  | .number literal => .number literal
  | .string units => .string (units.map StringUnit.reread)
  | .array items => .array (rereadItems items)
  | .object members => .object (rereadMembers members)

/-- Items as they are read after they were written. -/
def rereadItems : List Value → List Value
  | [] => []
  | v :: rest => v.reread :: rereadItems rest

/-- Members as they are read after they were written. -/
def rereadMembers : List (List StringUnit × Value) → List (List StringUnit × Value)
  | [] => []
  | (key, v) :: rest => (key.map StringUnit.reread, v.reread) :: rereadMembers rest

end

mutual

/-- Whether the numbers in a value are kept as they may be written. -/
def Value.HasLiterals : Value → Prop
  | .null | .bool _ | .string _ => True
  | .number literal => NumberLiteral literal
  | .array items => ItemsHaveLiterals items
  | .object members => MembersHaveLiterals members

/-- Whether the numbers in some items are kept as they may be written. -/
def ItemsHaveLiterals : List Value → Prop
  | [] => True
  | v :: rest => v.HasLiterals ∧ ItemsHaveLiterals rest

/-- Whether the numbers in some members are kept as they may be written. -/
def MembersHaveLiterals : List (List StringUnit × Value) → Prop
  | [] => True
  | (_, v) :: rest => v.HasLiterals ∧ MembersHaveLiterals rest

end

/-- A new line is white space. -/
theorem layout_newLine (depth : Nat) {ks : List Token} {t : Text} (h : Layout ks t) : Layout ks (newLine depth ++ t) := by
  have hspaces : ∀ n, Layout ks (List.replicate n ' ' ++ t) := by
    intro n
    induction n with
    | zero => exact h
    | succ n ih => exact .space rfl ih
  exact .space rfl (hspaces _)

/-- A character that goes on with no number. -/
theorem endsNumber_cons {c : Char} (h : c.isDigit = false ∧ c ≠ '.' ∧ c ≠ 'e' ∧ c ≠ 'E') (t : Text) : EndsNumber (c :: t) := by
  intro d hd
  obtain rfl : c = d := Option.some.inj hd
  exact h

/-- What is written after an item ends a number. -/
theorem endsNumber_renderItems (depth above : Nat) (items : List Value) (t : Text) :
    EndsNumber (renderItems depth items ++ (newLine above ++ t)) := by
  cases items with
  | nil => exact endsNumber_cons (by decide) _
  | cons v rest => exact endsNumber_cons (c := ',') (by decide) _

/-- What is written after a member ends a number. -/
theorem endsNumber_renderMembers (depth above : Nat) (members : List (List StringUnit × Value)) (t : Text) :
    EndsNumber (renderMembers depth members ++ (newLine above ++ t)) := by
  cases members with
  | nil => exact endsNumber_cons (by decide) _
  | cons m rest => exact endsNumber_cons (c := ',') (by decide) _

mutual

/-- What is written for a value shows its tokens. -/
theorem layout_renderAt : ∀ (v : Value) (depth : Nat) (ks : List Token) (t : Text), v.HasLiterals → EndsNumber t →
    Layout ks t → Layout (v.reread.tokens ++ ks) (v.renderAt depth ++ t)
  | .null, depth, ks, t, _, _, ht => by
    rw [Value.reread, Value.tokens, Value.renderAt]
    exact .token .null trivial ht
  | .bool b, depth, ks, t, _, _, ht => by
    rw [Value.reread, Value.tokens, Value.renderAt]
    exact .token (.bool b) trivial ht
  | .number literal, depth, ks, t, hv, he, ht => by
    rw [Value.HasLiterals] at hv
    rw [Value.reread, Value.tokens, Value.renderAt]
    exact .token (.number hv) he ht
  | .string units, depth, ks, t, _, _, ht => by
    rw [Value.reread, Value.tokens, Value.renderAt]
    exact .token (spelling_renderString units) trivial ht
  | .array [], depth, ks, t, _, _, ht => by
    rw [Value.reread, rereadItems, Value.tokens, Value.renderAt]
    exact .token (t := ['[']) .openBracket trivial (.token (t := [']']) .closeBracket trivial ht)
  | .array (v :: rest), depth, ks, t, hv, _, ht => by
    rw [Value.HasLiterals, ItemsHaveLiterals] at hv
    rw [Value.reread, rereadItems, Value.tokens, Value.renderAt]
    simp only [List.cons_append, List.append_assoc]
    refine .token .openBracket trivial (layout_newLine _ ?_)
    refine layout_renderAt v _ _ _ hv.1 (endsNumber_renderItems _ _ rest _) ?_
    refine layout_renderItems rest _ _ _ _ hv.2 ?_
    exact layout_newLine _ (.token .closeBracket trivial ht)
  | .object [], depth, ks, t, _, _, ht => by
    rw [Value.reread, rereadMembers, Value.tokens, Value.renderAt]
    exact .token (t := ['\x7b']) .openBrace trivial (.token (t := ['\x7d']) .closeBrace trivial ht)
  | .object ((key, v) :: rest), depth, ks, t, hv, _, ht => by
    rw [Value.HasLiterals, MembersHaveLiterals] at hv
    rw [Value.reread, rereadMembers, Value.tokens, Value.renderAt]
    simp only [List.cons_append, List.append_assoc]
    refine .token .openBrace trivial (layout_newLine _ (.token (spelling_renderString key) trivial ?_))
    refine .token (t := [':']) .colon trivial (.space (c := ' ') rfl ?_)
    refine layout_renderAt v _ _ _ hv.1 (endsNumber_renderMembers _ _ rest _) ?_
    refine layout_renderMembers rest _ _ _ _ hv.2 ?_
    exact layout_newLine _ (.token .closeBrace trivial ht)

/-- What is written for the items after the first shows their tokens. -/
theorem layout_renderItems : ∀ (items : List Value) (depth above : Nat) (ks : List Token) (t : Text),
    ItemsHaveLiterals items → Layout ks (newLine above ++ t) →
      Layout (itemTokens (rereadItems items) ++ ks) (renderItems depth items ++ (newLine above ++ t))
  | [], depth, above, ks, t, _, ht => by
    rw [rereadItems, itemTokens, renderItems]
    exact ht
  | v :: rest, depth, above, ks, t, hv, ht => by
    rw [ItemsHaveLiterals] at hv
    rw [rereadItems, itemTokens, renderItems]
    simp only [List.cons_append, List.append_assoc]
    refine .token .comma trivial (layout_newLine _ ?_)
    refine layout_renderAt v _ _ _ hv.1 (endsNumber_renderItems _ _ rest _) ?_
    exact layout_renderItems rest _ _ _ _ hv.2 ht

/-- What is written for the members after the first shows their tokens. -/
theorem layout_renderMembers : ∀ (members : List (List StringUnit × Value)) (depth above : Nat) (ks : List Token) (t : Text),
    MembersHaveLiterals members → Layout ks (newLine above ++ t) →
      Layout (memberTokens (rereadMembers members) ++ ks) (renderMembers depth members ++ (newLine above ++ t))
  | [], depth, above, ks, t, _, ht => by
    rw [rereadMembers, memberTokens, renderMembers]
    exact ht
  | (key, v) :: rest, depth, above, ks, t, hv, ht => by
    rw [MembersHaveLiterals] at hv
    rw [rereadMembers, memberTokens, renderMembers]
    simp only [List.cons_append, List.append_assoc]
    refine .token .comma trivial (layout_newLine _ (.token (spelling_renderString key) trivial ?_))
    refine .token (t := [':']) .colon trivial (.space (c := ' ') rfl ?_)
    refine layout_renderAt v _ _ _ hv.1 (endsNumber_renderMembers _ _ rest _) ?_
    exact layout_renderMembers rest _ _ _ _ hv.2 ht

end

/-- What is written for a value shows it, up to the way in which control characters are kept. -/
theorem shows_render (v : Value) (h : v.HasLiterals) : Shows v.render v.reread := by
  have hlayout := layout_renderAt v 0 [] [] h (by simp [EndsNumber]) .nil
  rwa [List.append_nil, List.append_nil] at hlayout

/-- A value is read as it was written, up to the way in which control characters are kept. -/
theorem parse_render (v : Value) (h : v.HasLiterals) : parse v.render = some v.reread := parse_of_shows (shows_render v h)

end Json

end DevWorkflow
