import DevWorkflow.Json.Lexer

/-!
# How tokens may be written

`Layout ts t` says that the text `t` shows the tokens `ts`, one after another, with any white space around them. A token may be
written in several ways: a character of a string stands for itself or is escaped, and some have more than one escape. The main
statement is `lex_of_layout`: the lexer gets the tokens back from every text that shows them.
-/

namespace DevWorkflow

namespace Json

/-! ## Numbers -/

/-- Digits only. -/
def AllDigits (t : Text) : Prop := ∀ c ∈ t, c.isDigit = true

/-- The whole part of a number: a zero alone, or digits of which the first is not zero. -/
inductive WholePart : Text → Prop where
  | zero : WholePart ['0']
  | digits {d : Char} {ds : Text} : d.isDigit = true → d ≠ '0' → AllDigits ds → WholePart (d :: ds)

/-- What follows the whole part of a number up to its exponent: a point and digits, or nothing. -/
inductive FractionPart : Text → Prop where
  | none : FractionPart []
  | digits {d : Char} {ds : Text} : d.isDigit = true → AllDigits ds → FractionPart ('.' :: d :: ds)

/-- The exponent of a number with its letter, or nothing. -/
inductive ExponentPart : Text → Prop where
  | none : ExponentPart []
  | digits {e d : Char} {sign ds : Text} : (e = 'e' ∨ e = 'E') → (sign = [] ∨ sign = ['+'] ∨ sign = ['-']) →
      d.isDigit = true → AllDigits ds → ExponentPart (e :: (sign ++ d :: ds))

/-- A number as it may be written. -/
inductive NumberLiteral : Text → Prop where
  | mk {sign whole fraction exponent : Text} : (sign = [] ∨ sign = ['-']) → WholePart whole → FractionPart fraction →
      ExponentPart exponent → NumberLiteral (sign ++ (whole ++ (fraction ++ exponent)))

namespace NumberPlace

/-- The place after some characters of a number, if it can go on with them. -/
def after? (place : NumberPlace) : Text → Option NumberPlace
  | [] => some place
  | c :: rest => (place.next? c).bind fun place' => place'.after? rest

theorem after?_append (place : NumberPlace) (t u : Text) :
    place.after? (t ++ u) = (place.after? t).bind fun place' => place'.after? u := by
  induction t generalizing place with
  | nil => rfl
  | cons c rest ih =>
    cases h : place.next? c with
    | none => simp [after?, h]
    | some place' => simp [after?, h, ih]

/-- Digits after digits leave the lexer where it is. -/
theorem after?_digits {place : NumberPlace} (h : place = whole ∨ place = fraction ∨ place = exponentDigits) {ds : Text}
    (hd : AllDigits ds) : place.after? ds = some place := by
  induction ds with
  | nil => rfl
  | cons d ds ih =>
    have hd' : d.isDigit = true := hd d (by simp)
    have hn : place.next? d = some place := by rcases h with rfl | rfl | rfl <;> simp [next?, hd']
    simp [after?, hn, ih fun x hx => hd x (by simp [hx])]

/-- The whole part of a number leads to a place where a point or an exponent may follow. -/
theorem after?_whole {t : Text} (h : WholePart t) : ∃ place, (place = zero ∨ place = whole) ∧ sign.after? t = some place := by
  cases h with
  | zero => exact ⟨zero, Or.inl rfl, rfl⟩
  | digits hd h0 hds =>
    refine ⟨whole, Or.inr rfl, ?_⟩
    simp only [after?, next?, h0, hd, if_false, if_true, Option.bind_some]
    exact after?_digits (Or.inl rfl) hds

/-- The part after the point leads to a place where an exponent may follow. -/
theorem after?_fraction {start : NumberPlace} (hs : start = zero ∨ start = whole) {t : Text} (h : FractionPart t) :
    ∃ place, (place = zero ∨ place = whole ∨ place = fraction) ∧ start.after? t = some place := by
  cases h with
  | none => exact ⟨start, hs.elim Or.inl fun h => Or.inr (Or.inl h), rfl⟩
  | @digits d ds hd hds =>
    refine ⟨fraction, Or.inr (Or.inr rfl), ?_⟩
    have h1 : start.next? '.' = some point := by rcases hs with rfl | rfl <;> rfl
    have h2 : point.next? d = some fraction := by simp [next?, hd]
    simp only [after?, h1, h2, Option.bind_some]
    exact after?_digits (Or.inr (Or.inl rfl)) hds

/-- The exponent leads to a place where the number may end. -/
theorem after?_exponent {start : NumberPlace} (hs : start = zero ∨ start = whole ∨ start = fraction) {t : Text}
    (h : ExponentPart t) : ∃ place, place.mayEnd = true ∧ start.after? t = some place := by
  cases h with
  | none => exact ⟨start, by rcases hs with rfl | rfl | rfl <;> rfl, rfl⟩
  | @digits e d sign ds he hsign hd hds =>
    refine ⟨exponentDigits, rfl, ?_⟩
    have h1 : start.next? e = some exponent := by
      rcases he with rfl | rfl <;> rcases hs with rfl | rfl | rfl <;> rfl
    have h2 : exponent.after? (sign ++ d :: ds) = exponentDigits.after? ds := by
      rcases hsign with rfl | rfl | rfl <;> simp [after?, next?, hd]
    simp only [after?, h1, h2, Option.bind_some]
    exact after?_digits (Or.inr (Or.inr rfl)) hds

/-- A number without its sign leads from behind the sign to a place where the number may end. -/
theorem after?_unsigned {whole fraction exponent : Text} (hw : WholePart whole) (hf : FractionPart fraction)
    (he : ExponentPart exponent) :
    ∃ place, place.mayEnd = true ∧ sign.after? (whole ++ (fraction ++ exponent)) = some place := by
  obtain ⟨p, hp, h1⟩ := after?_whole hw
  obtain ⟨q, hq, h2⟩ := after?_fraction hp hf
  obtain ⟨r, hr, h3⟩ := after?_exponent hq he
  exact ⟨r, hr, by simp [after?_append, h1, h2, h3]⟩

end NumberPlace

/-- Whether a number cannot go on with the text. -/
def EndsNumber (t : Text) : Prop := ∀ c ∈ t.head?, c.isDigit = false ∧ c ≠ '.' ∧ c ≠ 'e' ∧ c ≠ 'E'

/-- A number that may end does not go on with what ends it. -/
theorem NumberPlace.next?_eq_none {place : NumberPlace} (h : place.mayEnd = true) {c : Char} {rest : Text}
    (hc : EndsNumber (c :: rest)) : place.next? c = none := by
  obtain ⟨hd, hp, he, hE⟩ := hc c rfl
  cases place <;> simp [mayEnd] at h <;> simp [next?, next?.afterWhole, next?.toExponent, hd, hp, he, hE]

/-! ## Reading token by token -/

/-- A character that completes nothing. -/
theorem lexFrom_cons_of_step {s s' : LexState} {c : Char} (h : s.step c = some ([], s')) (rest : Text) :
    lexFrom s (c :: rest) = lexFrom s' rest := by
  simp [lexFrom, h]

/-- The characters of a number are kept until it ends. -/
theorem lexFrom_number_append {place place' : NumberPlace} {t : Text} (h : place.after? t = some place') (soFar rest : Text) :
    lexFrom (.number place soFar) (t ++ rest) = lexFrom (.number place' (t.reverse ++ soFar)) rest := by
  induction t generalizing place soFar with
  | nil =>
    obtain rfl : place = place' := by simpa [NumberPlace.after?] using h
    rfl
  | cons c t ih =>
    obtain ⟨q, hq, ht⟩ := Option.bind_eq_some_iff.1 h
    have hs : (LexState.number place soFar).step c = some ([], .number q (c :: soFar)) := by simp [LexState.step, hq]
    rw [List.cons_append, lexFrom_cons_of_step hs, ih ht]
    simp

/-- A number that may end is complete where it cannot go on. -/
theorem lexFrom_number_end {place : NumberPlace} (h : place.mayEnd = true) (soFar : Text) {rest : Text}
    (hr : EndsNumber rest) :
    lexFrom (.number place soFar) rest = (lexFrom .between rest).map (.number soFar.reverse :: ·) := by
  cases rest with
  | nil => simp [lexFrom, LexState.finish, h]
  | cons c rest =>
    have hn := NumberPlace.next?_eq_none h hr
    cases hs : LexState.start c with
    | none => simp [lexFrom, LexState.step, hn, h, hs]
    | some next => simp [lexFrom, LexState.step, hn, h, hs, Function.comp_def]

/-- The first character of a number without a sign. -/
theorem step_between_of_next?_sign {c : Char} {place : NumberPlace} (h : NumberPlace.sign.next? c = some place) :
    LexState.between.step c = some ([], .number place [c]) := by
  by_cases h0 : c = '0'
  · subst h0
    obtain rfl : NumberPlace.zero = place := by simpa [NumberPlace.next?] using h
    rfl
  · by_cases hd : c.isDigit = true
    · obtain rfl : NumberPlace.whole = place := by simpa [NumberPlace.next?, h0, hd] using h
      have hne : ∀ x : Char, x.isDigit = false → c ≠ x := by
        rintro x hx rfl
        simp [hd] at hx
      simp [LexState.step, LexState.start, isSpace, h0, hd, hne]
    · simp [NumberPlace.next?, h0, hd] at h

/-- A number is read as one token where it cannot go on. -/
theorem lexFrom_numberLiteral {t : Text} (h : NumberLiteral t) {rest : Text} (hr : EndsNumber rest) :
    lexFrom .between (t ++ rest) = (lexFrom .between rest).map (.number t :: ·) := by
  obtain ⟨hsign, hw, hf, he⟩ := h
  rename_i sign whole fraction exponent
  obtain ⟨place, hend, hafter⟩ := NumberPlace.after?_unsigned hw hf he
  generalize whole ++ (fraction ++ exponent) = u at hafter
  rcases hsign with rfl | rfl
  · cases u with
    | nil =>
      obtain rfl : NumberPlace.sign = place := by simpa [NumberPlace.after?] using hafter
      simp [NumberPlace.mayEnd] at hend
    | cons c u =>
      obtain ⟨q, hq, hu⟩ := Option.bind_eq_some_iff.1 hafter
      rw [List.nil_append, List.cons_append, lexFrom_cons_of_step (step_between_of_next?_sign hq),
        lexFrom_number_append hu, lexFrom_number_end hend _ hr]
      simp
  · have hs : LexState.between.step '-' = some ([], .number .sign ['-']) := rfl
    rw [List.append_assoc, List.singleton_append, lexFrom_cons_of_step hs, lexFrom_number_append hafter,
      lexFrom_number_end hend _ hr]
    simp

/-- The rest of a word completes its token. -/
theorem lexFrom_word (k : Token) {t : Text} (h : t ≠ []) (rest : Text) :
    lexFrom (.word t k) (t ++ rest) = (lexFrom .between rest).map (k :: ·) := by
  induction t with
  | nil => exact absurd rfl h
  | cons c t ih =>
    cases t with
    | nil => simp [lexFrom, LexState.step]
    | cons d t =>
      have hs : (LexState.word (c :: d :: t) k).step c = some ([], .word (d :: t) k) := by simp [LexState.step]
      rw [List.cons_append, lexFrom_cons_of_step hs, ih (by simp)]

/-- A word is read as one token. -/
theorem lexFrom_keyword {k : Token} {c : Char} {t : Text} (h : LexState.between.step c = some ([], .word t k)) (ht : t ≠ [])
    (rest : Text) : lexFrom .between (c :: t ++ rest) = (lexFrom .between rest).map (k :: ·) := by
  rw [List.cons_append, lexFrom_cons_of_step h, lexFrom_word k ht]

/-! ## Strings -/

/-- A unit of a string as it may be written between quotes. -/
inductive UnitSpelling : StringUnit → Text → Prop where
  /-- A character stands for itself. -/
  | plain {c : Char} : c ≠ '"' → c ≠ '\\' → ¬c.toNat < 0x20 → UnitSpelling (.char c) [c]
  /-- A character is written as a short escape. -/
  | short {e c : Char} : shortEscape? e = some c → UnitSpelling (.char c) ['\\', e]
  /-- A code unit is written as four hexadecimal digits. -/
  | code {a b c d : Char} {w x y z : Nat} : hexValue? a = some w → hexValue? b = some x → hexValue? c = some y →
      hexValue? d = some z → UnitSpelling (.code (((w * 16 + x) * 16 + y) * 16 + z)) ['\\', 'u', a, b, c, d]

/-- The units of a string as they may be written between quotes. -/
inductive UnitsSpelling : List StringUnit → Text → Prop where
  | nil : UnitsSpelling [] []
  | cons {u : StringUnit} {us : List StringUnit} {t ts : Text} : UnitSpelling u t → UnitsSpelling us ts →
      UnitsSpelling (u :: us) (t ++ ts)

/-- A unit of a string is read as it is written. -/
theorem lexFrom_unit {u : StringUnit} {t : Text} (h : UnitSpelling u t) (soFar : List StringUnit) (rest : Text) :
    lexFrom (.string soFar) (t ++ rest) = lexFrom (.string (u :: soFar)) rest := by
  cases h with
  | plain hq hb hc => exact lexFrom_cons_of_step (by simp [LexState.step, hq, hb, hc]) rest
  | @short e c he =>
    have hu : e ≠ 'u' := by
      rintro rfl
      simp [shortEscape?] at he
    have hs : (LexState.string soFar).step '\\' = some ([], .escape soFar) := rfl
    rw [List.cons_append, List.singleton_append, lexFrom_cons_of_step hs]
    exact lexFrom_cons_of_step (by simp [LexState.step, hu, he]) rest
  | code ha hb hc hd => simp [lexFrom, LexState.step, ha, hb, hc, hd]

/-- The units of a string are read up to the quote that ends it. -/
theorem lexFrom_units {us : List StringUnit} {t : Text} (h : UnitsSpelling us t) (soFar : List StringUnit) (rest : Text) :
    lexFrom (.string soFar) (t ++ '"' :: rest) = (lexFrom .between rest).map (.string (soFar.reverse ++ us) :: ·) := by
  induction h generalizing soFar with
  | nil => simp [lexFrom, LexState.step]
  | cons hu _ ih =>
    rw [List.append_assoc, lexFrom_unit hu, ih]
    simp

/-! ## Tokens -/

/-- A token as it may be written. -/
inductive Spelling : Token → Text → Prop where
  | openBrace : Spelling .openBrace ['\x7b']
  | closeBrace : Spelling .closeBrace ['\x7d']
  | openBracket : Spelling .openBracket ['[']
  | closeBracket : Spelling .closeBracket [']']
  | colon : Spelling .colon [':']
  | comma : Spelling .comma [',']
  | null : Spelling .null "null".toList
  | bool (b : Bool) : Spelling (.bool b) (if b then "true" else "false").toList
  | number {literal : Text} : NumberLiteral literal → Spelling (.number literal) literal
  | string {us : List StringUnit} {t : Text} : UnitsSpelling us t → Spelling (.string us) ('"' :: (t ++ ['"']))

/-- Whether a token may be followed by the text without white space between them. -/
def Token.MayTouch : Token → Text → Prop
  | .number _, rest => EndsNumber rest
  | _, _ => True

/-- A token is read as it is written. -/
theorem lexFrom_spelling {k : Token} {t : Text} (h : Spelling k t) {rest : Text} (hr : k.MayTouch rest) :
    lexFrom .between (t ++ rest) = (lexFrom .between rest).map (k :: ·) := by
  cases h with
  | openBrace | closeBrace | openBracket | closeBracket | colon | comma => rfl
  | null => exact lexFrom_keyword (t := "ull".toList) rfl (by decide) rest
  | bool b =>
    cases b with
    | true => exact lexFrom_keyword (t := "rue".toList) rfl (by decide) rest
    | false => exact lexFrom_keyword (t := "alse".toList) rfl (by decide) rest
  | number hn => exact lexFrom_numberLiteral hn hr
  | string hu =>
    have hs : LexState.between.step '"' = some ([], .string []) := rfl
    rw [List.cons_append, lexFrom_cons_of_step hs, List.append_assoc, List.singleton_append, lexFrom_units hu]
    rfl

/-- A text that shows some tokens, with any white space around them. -/
inductive Layout : List Token → Text → Prop where
  | nil : Layout [] []
  | space {c : Char} {ks : List Token} {t : Text} : isSpace c = true → Layout ks t → Layout ks (c :: t)
  | token {k : Token} {ks : List Token} {t rest : Text} : Spelling k t → k.MayTouch rest → Layout ks rest →
      Layout (k :: ks) (t ++ rest)

/-- The lexer gets the tokens back from every text that shows them. -/
theorem lex_of_layout {ks : List Token} {t : Text} (h : Layout ks t) : lex t = some ks := by
  unfold lex
  induction h with
  | nil => rfl
  | @space c ks t hc _ ih =>
    have hs : LexState.between.step c = some ([], .between) := by simp [LexState.step, LexState.start, hc]
    rw [lexFrom_cons_of_step hs, ih]
  | token hk hr _ ih => rw [lexFrom_spelling hk hr, ih, Option.map_some]

end Json

end DevWorkflow
