import DevWorkflow.Proofs.Json.RoundTrip
import Mathlib.Data.List.Chain
import Mathlib.Tactic.SplitIfs

/-!
# The texts that are read

A text is read as a value just if it is written as JSON for this value (`parse_eq_some_iff`). One direction is `parse_of_shows`. For
the other one, each state of the lexer says what the text goes on with, so that the text is a layout of its tokens
(`layout_of_lexFrom`), and each state of the parser stands for the tokens before it (`ParseState.tokens_of_run`).
-/

namespace DevWorkflow

namespace Json

/-! ## Numbers -/

theorem allDigits_nil : AllDigits [] := List.forall_mem_nil _

theorem allDigits_cons {d : Char} {ds : Text} (hd : d.isDigit = true) (hds : AllDigits ds) : AllDigits (d :: ds) :=
  List.forall_mem_cons.2 ⟨hd, hds⟩

namespace NumberPlace

/-- Whether a number may go on with a text to its end. -/
def Completes : NumberPlace → Text → Prop
  | sign, t => ∃ w f e, WholePart w ∧ FractionPart f ∧ ExponentPart e ∧ t = w ++ (f ++ e)
  | zero, t => ∃ f e, FractionPart f ∧ ExponentPart e ∧ t = f ++ e
  | whole, t => ∃ ds f e, AllDigits ds ∧ FractionPart f ∧ ExponentPart e ∧ t = ds ++ (f ++ e)
  | point, t => ∃ d ds e, d.isDigit = true ∧ AllDigits ds ∧ ExponentPart e ∧ t = d :: (ds ++ e)
  | fraction, t => ∃ ds e, AllDigits ds ∧ ExponentPart e ∧ t = ds ++ e
  | exponent, t => ∃ s d ds, (s = [] ∨ s = ['+'] ∨ s = ['-']) ∧ d.isDigit = true ∧ AllDigits ds ∧ t = s ++ d :: ds
  | exponentSign, t => ∃ d ds, d.isDigit = true ∧ AllDigits ds ∧ t = d :: ds
  | exponentDigits, t => AllDigits t

/-- A number that may end goes on with nothing. -/
theorem completes_nil {place : NumberPlace} (h : place.mayEnd = true) : place.Completes [] := by
  cases place with
  | zero => exact ⟨[], [], .none, .none, rfl⟩
  | whole => exact ⟨[], [], [], allDigits_nil, .none, .none, rfl⟩
  | fraction => exact ⟨[], [], allDigits_nil, .none, rfl⟩
  | exponentDigits => exact allDigits_nil
  | sign | point | exponent | exponentSign => nomatch h

theorem exponentPart_of_toExponent {c : Char} {place : NumberPlace} (h : next?.toExponent c = some place) {t : Text}
    (ht : place.Completes t) : ExponentPart (c :: t) := by
  simp only [next?.toExponent, Bool.or_eq_true, decide_eq_true_eq, Option.ite_none_right_eq_some, Option.some.injEq] at h
  obtain ⟨hc, rfl⟩ := h
  obtain ⟨s, d, ds, hs, hd, hds, rfl⟩ := ht
  exact .digits hc hs hd hds

/-- What a number goes on with behind its whole part. -/
theorem completes_zero_of_afterWhole {c : Char} {place : NumberPlace} (h : next?.afterWhole c = some place) {t : Text}
    (ht : place.Completes t) : zero.Completes (c :: t) := by
  unfold next?.afterWhole at h
  split at h
  · next hc =>
    obtain rfl := Option.some.inj h
    obtain ⟨d, ds, e, hd, hds, he, rfl⟩ := ht
    exact ⟨'.' :: d :: ds, e, .digits hd hds, he, by rw [hc]; rfl⟩
  · exact ⟨[], c :: t, .none, exponentPart_of_toExponent h ht, rfl⟩

/-- What a number goes on with after another character of it. -/
theorem completes_cons {c : Char} {place place' : NumberPlace} (h : place.next? c = some place') {t : Text}
    (ht : place'.Completes t) : place.Completes (c :: t) := by
  cases place with
  | sign =>
    simp only [next?] at h
    split at h
    · next hc =>
      obtain rfl := Option.some.inj h
      obtain ⟨f, e, hf, he, rfl⟩ := ht
      exact ⟨['0'], f, e, .zero, hf, he, by rw [hc]; rfl⟩
    · next hc =>
      obtain ⟨hd, hplace⟩ := Option.ite_none_right_eq_some.1 h
      obtain rfl := Option.some.inj hplace
      obtain ⟨ds, f, e, hds, hf, he, rfl⟩ := ht
      exact ⟨c :: ds, f, e, .digits hd hc hds, hf, he, rfl⟩
  | zero => exact completes_zero_of_afterWhole h ht
  | whole =>
    simp only [next?] at h
    split at h
    · next hd =>
      obtain rfl := Option.some.inj h
      obtain ⟨ds, f, e, hds, hf, he, rfl⟩ := ht
      exact ⟨c :: ds, f, e, allDigits_cons hd hds, hf, he, rfl⟩
    · obtain ⟨f, e, hf, he, hct⟩ := completes_zero_of_afterWhole h ht
      exact ⟨[], f, e, allDigits_nil, hf, he, hct⟩
  | point =>
    obtain ⟨hd, hplace⟩ := Option.ite_none_right_eq_some.1 h
    obtain rfl := Option.some.inj hplace
    obtain ⟨ds, e, hds, he, rfl⟩ := ht
    exact ⟨c, ds, e, hd, hds, he, rfl⟩
  | fraction =>
    simp only [next?] at h
    split at h
    · next hd =>
      obtain rfl := Option.some.inj h
      obtain ⟨ds, e, hds, he, rfl⟩ := ht
      exact ⟨c :: ds, e, allDigits_cons hd hds, he, rfl⟩
    · exact ⟨[], c :: t, allDigits_nil, exponentPart_of_toExponent h ht, rfl⟩
  | exponent =>
    simp only [next?] at h
    split at h
    · next hd =>
      obtain rfl := Option.some.inj h
      exact ⟨[], c, t, .inl rfl, hd, ht, rfl⟩
    · obtain ⟨hc, hplace⟩ := Option.ite_none_right_eq_some.1 h
      obtain rfl := Option.some.inj hplace
      obtain ⟨d, ds, hd, hds, rfl⟩ := ht
      have hsign : [c] = [] ∨ [c] = ['+'] ∨ [c] = ['-'] := by simpa using hc
      exact ⟨[c], d, ds, hsign, hd, hds, rfl⟩
  | exponentSign =>
    obtain ⟨hd, hplace⟩ := Option.ite_none_right_eq_some.1 h
    obtain rfl := Option.some.inj hplace
    exact ⟨c, t, hd, ht, rfl⟩
  | exponentDigits =>
    obtain ⟨hd, hplace⟩ := Option.ite_none_right_eq_some.1 h
    obtain rfl := Option.some.inj hplace
    exact allDigits_cons hd ht

end NumberPlace

/-! ## The states of the lexer -/

/-- What the first character of a token leads to. -/
inductive Starts (c : Char) : List Token → LexState → Prop where
  | space : isSpace c = true → Starts c [] .between
  | mark {k : Token} : Spelling k [c] → (∀ rest, k.MayTouch rest) → Starts c [k] .between
  | string : c = '"' → Starts c [] (.string [])
  | word {k : Token} {toCome : Text} : Spelling k (c :: toCome) → (∀ rest, k.MayTouch rest) → Starts c [] (.word toCome k)
  | number {place : NumberPlace} : (∀ t, place.Completes t → NumberLiteral (c :: t)) → Starts c [] (.number place [c])

/-- A character that a number begins with. -/
theorem starts_of_next?_sign {c : Char} {place : NumberPlace} (h : NumberPlace.sign.next? c = some place) :
    Starts c [] (.number place [c]) := by
  refine .number fun t ht => ?_
  obtain ⟨w, f, e, hw, hf, he, htext⟩ := NumberPlace.completes_cons h ht
  exact htext ▸ .mk (.inl rfl) hw hf he

/-- One after another of the cases for the first character. -/
theorem starts_of_ite {c : Char} {p : Prop} [Decidable p] {next : List Token × LexState} {other : Option (List Token × LexState)}
    {done : List Token} {s : LexState} (h : (if p then some next else other) = some (done, s)) (hyes : p → Starts c next.1 next.2)
    (hno : ¬p → other = some (done, s) → Starts c done s) : Starts c done s := by
  split at h
  · next hp =>
    obtain rfl := Option.some.inj h
    exact hyes hp
  · next hp => exact hno hp h

theorem starts_of_start {c : Char} {done : List Token} {s : LexState} (h : LexState.start c = some (done, s)) : Starts c done s := by
  refine starts_of_ite h .space fun _ h => ?_
  refine starts_of_ite h (fun hc => hc ▸ .mark .openBrace fun _ => trivial) fun _ h => ?_
  refine starts_of_ite h (fun hc => hc ▸ .mark .closeBrace fun _ => trivial) fun _ h => ?_
  refine starts_of_ite h (fun hc => hc ▸ .mark .openBracket fun _ => trivial) fun _ h => ?_
  refine starts_of_ite h (fun hc => hc ▸ .mark .closeBracket fun _ => trivial) fun _ h => ?_
  refine starts_of_ite h (fun hc => hc ▸ .mark .colon fun _ => trivial) fun _ h => ?_
  refine starts_of_ite h (fun hc => hc ▸ .mark .comma fun _ => trivial) fun _ h => ?_
  refine starts_of_ite h .string fun _ h => ?_
  refine starts_of_ite h (fun hc => hc ▸ .word (.bool true) fun _ => trivial) fun _ h => ?_
  refine starts_of_ite h (fun hc => hc ▸ .word (.bool false) fun _ => trivial) fun _ h => ?_
  refine starts_of_ite h (fun hc => hc ▸ .word .null fun _ => trivial) fun _ h => ?_
  refine starts_of_ite h (fun hc => ?_) fun _ h => ?_
  · refine .number fun t ht => ?_
    obtain ⟨w, f, e, hw, hf, he, rfl⟩ := ht
    exact hc ▸ .mk (.inr rfl) hw hf he
  refine starts_of_ite h (fun hzero => starts_of_next?_sign (if_pos hzero)) fun hzero h => ?_
  exact starts_of_ite h (fun hdigit => starts_of_next?_sign (by simp [NumberPlace.next?, hzero, hdigit])) fun _ h => nomatch h

/-- A character and what comes after it. -/
theorem lexFrom_cons_eq_some {s : LexState} {c : Char} {rest : Text} {ks : List Token} (h : lexFrom s (c :: rest) = some ks) :
    ∃ done s' ks', s.step c = some (done, s') ∧ lexFrom s' rest = some ks' ∧ ks = done ++ ks' := by
  unfold lexFrom at h
  split at h
  · nomatch h
  · next done s' hstep =>
    obtain ⟨ks', hrest, rfl⟩ := Option.map_eq_some_iff.1 h
    exact ⟨done, s', ks', hstep, hrest, rfl⟩

/-- A word is followed by other tokens. -/
theorem lexFrom_word_eq_some {k : Token} {toCome t : Text} {ks : List Token} (h : lexFrom (.word toCome k) t = some ks) :
    ∃ rest ks', t = toCome ++ rest ∧ ks = k :: ks' ∧ lexFrom .between rest = some ks' := by
  induction toCome generalizing t ks with
  | nil =>
    cases t with
    | nil => nomatch h
    | cons c t =>
      obtain ⟨_, _, _, hstep, -⟩ := lexFrom_cons_eq_some h
      nomatch hstep
  | cons d toCome ih =>
    cases t with
    | nil => nomatch h
    | cons c t =>
      obtain ⟨done, s', ks', hstep, hrest, rfl⟩ := lexFrom_cons_eq_some h
      simp only [LexState.step] at hstep
      split_ifs at hstep with hc hlast
      · obtain ⟨rfl, rfl⟩ := Prod.mk.inj (Option.some.inj hstep)
        rw [List.isEmpty_iff] at hlast
        exact ⟨t, ks', by rw [Decidable.not_not.1 hc, hlast]; rfl, rfl, hrest⟩
      · obtain ⟨rfl, rfl⟩ := Prod.mk.inj (Option.some.inj hstep)
        obtain ⟨rest, ks'', rfl, rfl, hks⟩ := ih hrest
        exact ⟨rest, ks'', by rw [Decidable.not_not.1 hc]; rfl, rfl, hks⟩

/-- A number goes on up to other tokens. -/
theorem lexFrom_number_eq_some {place : NumberPlace} {soFar t : Text} {ks : List Token}
    (h : lexFrom (.number place soFar) t = some ks) :
    ∃ u rest ks', t = u ++ rest ∧ place.Completes u ∧ ks = .number (soFar.reverse ++ u) :: ks' ∧
      lexFrom .between rest = some ks' := by
  induction t generalizing place soFar ks with
  | nil =>
    obtain ⟨hend, hks⟩ := Option.ite_none_right_eq_some.1 h
    exact ⟨[], [], [], rfl, NumberPlace.completes_nil hend, by simpa using hks.symm, rfl⟩
  | cons c t ih =>
    obtain ⟨done, s', ks', hstep, hrest, rfl⟩ := lexFrom_cons_eq_some h
    simp only [LexState.step] at hstep
    split at hstep
    · next place' hplace =>
      obtain ⟨rfl, rfl⟩ := Prod.mk.inj (Option.some.inj hstep)
      obtain ⟨u, rest, ks'', rfl, hu, rfl, hks⟩ := ih hrest
      exact ⟨c :: u, rest, ks'', rfl, NumberPlace.completes_cons hplace hu, by simp, hks⟩
    · obtain ⟨hend, hstart⟩ := Option.ite_none_right_eq_some.1 hstep
      obtain ⟨⟨done', s''⟩, hnext, heq⟩ := Option.map_eq_some_iff.1 hstart
      obtain ⟨rfl, rfl⟩ := Prod.mk.inj heq
      have hbetween : lexFrom .between (c :: t) = some (done' ++ ks') := by simp [lexFrom, LexState.step, hnext, hrest]
      exact ⟨[], c :: t, _, rfl, NumberPlace.completes_nil hend, by simp, hbetween⟩

/-! ## Strings -/

/-- A digit of a code unit and what comes after it. -/
theorem lexFrom_code_eq_some {soFar : List StringUnit} {n value : Nat} {t : Text} {ks : List Token}
    (h : lexFrom (.code soFar (n + 1) value) t = some ks) :
    ∃ c digit rest, t = c :: rest ∧ hexValue? c = some digit ∧
      lexFrom (if n = 0 then .string (.code (value * 16 + digit) :: soFar) else .code soFar n (value * 16 + digit)) rest = some ks := by
  cases t with
  | nil => nomatch h
  | cons c rest =>
    obtain ⟨done, s', ks', hstep, hrest, rfl⟩ := lexFrom_cons_eq_some h
    obtain ⟨digit, hdigit, hnext⟩ := Option.map_eq_some_iff.1 hstep
    obtain ⟨rfl, rfl⟩ := Prod.mk.inj hnext
    exact ⟨c, digit, rest, rfl, hdigit, hrest⟩

/-- What follows a backslash is the rest of an escape. -/
theorem lexFrom_escape_eq_some {soFar : List StringUnit} {t : Text} {ks : List Token} (h : lexFrom (.escape soFar) t = some ks) :
    ∃ unit u rest, t = u ++ rest ∧ UnitSpelling unit ('\\' :: u) ∧ lexFrom (.string (unit :: soFar)) rest = some ks := by
  cases t with
  | nil => nomatch h
  | cons c t =>
    obtain ⟨done, s', ks', hstep, hrest, rfl⟩ := lexFrom_cons_eq_some h
    simp only [LexState.step] at hstep
    split at hstep
    · next hc =>
      obtain ⟨rfl, rfl⟩ := Prod.mk.inj (Option.some.inj hstep)
      obtain ⟨a, w, t, rfl, ha, hrest⟩ := lexFrom_code_eq_some hrest
      obtain ⟨b, x, t, rfl, hb, hrest⟩ := lexFrom_code_eq_some hrest
      obtain ⟨d, y, t, rfl, hd, hrest⟩ := lexFrom_code_eq_some hrest
      obtain ⟨e, z, t, rfl, he, hrest⟩ := lexFrom_code_eq_some hrest
      have hunit := UnitSpelling.code ha hb hd he
      rw [← hc] at hunit
      refine ⟨_, [c, a, b, d, e], t, rfl, hunit, ?_⟩
      simpa using hrest
    · obtain ⟨d, hd, hnext⟩ := Option.map_eq_some_iff.1 hstep
      obtain ⟨rfl, rfl⟩ := Prod.mk.inj hnext
      exact ⟨_, [c], t, rfl, .short hd, hrest⟩

/-- A string goes on up to the quote that ends it, and then to other tokens. -/
theorem lexFrom_string_eq_some (soFar : List StringUnit) (t : Text) (ks : List Token) (h : lexFrom (.string soFar) t = some ks) :
    ∃ us u rest ks', t = u ++ '"' :: rest ∧ UnitsSpelling us u ∧ ks = .string (soFar.reverse ++ us) :: ks' ∧
      lexFrom .between rest = some ks' := by
  cases t with
  | nil => nomatch h
  | cons c t =>
    obtain ⟨done, s', ks', hstep, hrest, rfl⟩ := lexFrom_cons_eq_some h
    simp only [LexState.step] at hstep
    split_ifs at hstep with hquote hescape hcontrol
    · obtain ⟨rfl, rfl⟩ := Prod.mk.inj (Option.some.inj hstep)
      exact ⟨[], [], t, ks', by rw [hquote]; rfl, .nil, by simp, hrest⟩
    · obtain ⟨rfl, rfl⟩ := Prod.mk.inj (Option.some.inj hstep)
      obtain ⟨unit, u, t, rfl, hunit, hrest⟩ := lexFrom_escape_eq_some hrest
      obtain ⟨us, v, rest, ks'', rfl, hus, rfl, hks⟩ := lexFrom_string_eq_some _ t _ hrest
      exact ⟨unit :: us, '\\' :: u ++ v, rest, ks'', by simp [hescape], .cons hunit hus, by simp, hks⟩
    · obtain ⟨rfl, rfl⟩ := Prod.mk.inj (Option.some.inj hstep)
      obtain ⟨us, v, rest, ks'', rfl, hus, rfl, hks⟩ := lexFrom_string_eq_some _ t _ hrest
      exact ⟨.char c :: us, c :: v, rest, ks'', rfl, .cons (.plain hquote hescape hcontrol) hus, by simp, hks⟩
termination_by t.length
decreasing_by
  all_goals
    subst_vars
    simp only [List.length_cons, List.length_append]
    omega

/-! ## Tokens -/

/-- Whether no number comes right after another one. -/
def NumbersApart (ks : List Token) : Prop := ks.IsChain fun k k' => ∀ u v, ¬(k = .number u ∧ k' = .number v)

/-- A digit begins a number. -/
theorem exists_number_of_isDigit {c : Char} (hc : c.isDigit = true) {rest : Text} {ks : List Token}
    (h : lexFrom .between (c :: rest) = some ks) : ∃ literal ks', ks = .number literal :: ks' := by
  have hsign : ∃ place, NumberPlace.sign.next? c = some place := by
    by_cases h0 : c = '0' <;> simp [NumberPlace.next?, h0, hc]
  obtain ⟨place, hplace⟩ := hsign
  rw [lexFrom_cons_of_step (step_between_of_next?_sign hplace)] at h
  obtain ⟨u, _, ks', -, -, hks, -⟩ := lexFrom_number_eq_some h
  exact ⟨_, ks', hks⟩

/-- A number does not go on with tokens of which the first is no number. -/
theorem endsNumber_of_lexFrom {rest : Text} {ks : List Token} (h : lexFrom .between rest = some ks) {u : Text}
    (hks : NumbersApart (.number u :: ks)) : EndsNumber rest := by
  cases rest with
  | nil => exact fun c hc => nomatch hc
  | cons c rest =>
    refine endsNumber_cons ⟨?_, ?_, ?_, ?_⟩ rest
    · rw [← Bool.not_eq_true]
      intro hc
      obtain ⟨literal, ks', rfl⟩ := exists_number_of_isDigit hc h
      exact (List.isChain_cons_cons.1 hks).1 _ _ ⟨rfl, rfl⟩
    all_goals
      rintro rfl
      obtain ⟨_, _, _, hstep, -⟩ := lexFrom_cons_eq_some h
      nomatch hstep

/-- A text is a layout of its tokens, if no number comes right after another one. -/
theorem layout_of_lexFrom (t : Text) (ks : List Token) (h : lexFrom .between t = some ks) (hks : NumbersApart ks) : Layout ks t := by
  cases t with
  | nil =>
    obtain rfl := Option.some.inj h
    exact .nil
  | cons c t =>
    obtain ⟨done, s', ks', hstep, hrest, rfl⟩ := lexFrom_cons_eq_some h
    cases starts_of_start hstep with
    | space hc => exact .space hc (layout_of_lexFrom t ks' hrest hks)
    | mark hk htouch => exact .token hk (htouch t) (layout_of_lexFrom t ks' hrest hks.tail)
    | string hc =>
      obtain ⟨us, u, rest, ks', rfl, hus, rfl, hks'⟩ := lexFrom_string_eq_some _ t _ hrest
      have hlayout := Layout.token (.string hus) trivial (layout_of_lexFrom rest ks' hks' hks.tail)
      simpa [hc] using hlayout
    | word hk htouch =>
      obtain ⟨rest, ks', rfl, rfl, hks'⟩ := lexFrom_word_eq_some hrest
      exact .token hk (htouch rest) (layout_of_lexFrom rest ks' hks' hks.tail)
    | number hnumber =>
      obtain ⟨u, rest, ks', rfl, hu, rfl, hks'⟩ := lexFrom_number_eq_some hrest
      exact .token (.number (hnumber u hu)) (endsNumber_of_lexFrom hks' hks) (layout_of_lexFrom rest ks' hks' hks.tail)
termination_by t.length
decreasing_by
  all_goals
    subst_vars
    simp only [List.length_cons, List.length_append]
    omega

/-! ## The states of the parser -/

/-- The tokens of an array, with a comma after each item but the last. -/
theorem tokens_array_concat (items : List Value) (v : Value) :
    (Value.array (items ++ [v])).tokens =
      .openBracket :: ((items.flatMap fun w => w.tokens ++ [.comma]) ++ (v.tokens ++ [.closeBracket])) := by
  have hitems : ∀ (rest : List Value) (w : Value),
      w.tokens ++ itemTokens (rest ++ [v]) = ((w :: rest).flatMap fun w => w.tokens ++ [.comma]) ++ v.tokens := by
    intro rest
    induction rest with
    | nil => simp [itemTokens]
    | cons u rest ih =>
      intro w
      have hu := ih u
      simp only [List.cons_append, itemTokens, List.flatMap_cons] at hu ⊢
      simp [hu]
  cases items with
  | nil => simp [Value.tokens, itemTokens]
  | cons w rest =>
    have hw := hitems rest w
    rw [List.cons_append, Value.tokens, ← List.append_assoc, hw]
    simp

/-- The tokens of a member up to its value. -/
def keyTokens (key : List StringUnit) : List Token := [.string key, .colon]

/-- The tokens of an object, with a comma after each member but the last. -/
theorem tokens_object_concat (members : List (List StringUnit × Value)) (key : List StringUnit) (v : Value) :
    (Value.object (members ++ [(key, v)])).tokens =
      .openBrace :: ((members.flatMap fun m => keyTokens m.1 ++ (m.2.tokens ++ [.comma])) ++
        (keyTokens key ++ (v.tokens ++ [.closeBrace]))) := by
  have hmembers : ∀ (rest : List (List StringUnit × Value)) (m : List StringUnit × Value),
      keyTokens m.1 ++ (m.2.tokens ++ memberTokens (rest ++ [(key, v)])) =
        ((m :: rest).flatMap fun m => keyTokens m.1 ++ (m.2.tokens ++ [.comma])) ++ (keyTokens key ++ v.tokens) := by
    intro rest
    induction rest with
    | nil => simp [memberTokens, keyTokens]
    | cons n rest ih =>
      intro m
      have hn := ih n
      simp only [keyTokens, List.cons_append, List.nil_append, memberTokens, List.flatMap_cons] at hn ⊢
      simp [hn]
  cases members with
  | nil => simp [Value.tokens, memberTokens, keyTokens]
  | cons m rest =>
    obtain ⟨key', w⟩ := m
    have hm := hmembers rest (key', w)
    simp only [keyTokens, List.cons_append, List.nil_append] at hm ⊢
    rw [Value.tokens, ← List.append_assoc, ← List.cons_append, ← List.cons_append, hm]
    simp

/-- The tokens before the place where the parser stands in an array or object. -/
def Frame.tokens : Frame → List Token
  | .items done => .openBracket :: done.reverse.flatMap fun v => v.tokens ++ [.comma]
  | .members done key =>
    .openBrace :: ((done.reverse.flatMap fun m => keyTokens m.1 ++ (m.2.tokens ++ [.comma])) ++ keyTokens key)

/-- The tokens of what has begun at the innermost place. -/
def Stage.tokens : Stage → List Token
  | .value => []
  | .firstItem => [.openBracket]
  | .firstMember => [.openBrace]
  | .member done => .openBrace :: done.reverse.flatMap fun m => keyTokens m.1 ++ (m.2.tokens ++ [.comma])
  | .colon done key =>
    .openBrace :: ((done.reverse.flatMap fun m => keyTokens m.1 ++ (m.2.tokens ++ [.comma])) ++ [.string key])
  | .after v => v.tokens

namespace ParseState

/-- The tokens that lead to where the parser stands. -/
def tokens (s : ParseState) : List Token := s.stack.reverse.flatMap Frame.tokens ++ s.stage.tokens

theorem tokens_startValue {stack : List Frame} {k : Token} {s : ParseState} (h : startValue stack k = some s) :
    s.tokens = stack.reverse.flatMap Frame.tokens ++ [k] := by
  cases k <;> cases h <;> simp [tokens, Stage.tokens, Value.tokens]

theorem tokens_goOn {v : Value} {stack : List Frame} {k : Token} {s : ParseState} (h : goOn v stack k = some s) :
    s.tokens = stack.reverse.flatMap Frame.tokens ++ v.tokens ++ [k] := by
  unfold goOn at h
  split at h
  · obtain rfl := Option.some.inj h
    simp [tokens, Stage.tokens, Frame.tokens]
  · obtain rfl := Option.some.inj h
    simp [tokens, Stage.tokens, Frame.tokens, tokens_array_concat]
  · obtain rfl := Option.some.inj h
    simp [tokens, Stage.tokens, Frame.tokens]
  · obtain rfl := Option.some.inj h
    simp [tokens, Stage.tokens, Frame.tokens, tokens_object_concat]
  · cases h

/-- Each token leads on from the tokens before it. -/
theorem tokens_step {s s' : ParseState} {k : Token} (h : s.step k = some s') : s'.tokens = s.tokens ++ [k] := by
  obtain ⟨stack, stage⟩ := s
  cases stage with
  | value => simpa [tokens, Stage.tokens] using tokens_startValue h
  | firstItem =>
    simp only [step] at h
    split at h
    · next hk =>
      obtain rfl := Option.some.inj h
      simp [tokens, Stage.tokens, Value.tokens, hk]
    · simpa [tokens, Stage.tokens, Frame.tokens] using tokens_startValue h
  | firstMember =>
    simp only [step] at h
    split at h
    · obtain rfl := Option.some.inj h
      simp [tokens, Stage.tokens, Value.tokens]
    · obtain rfl := Option.some.inj h
      simp [tokens, Stage.tokens]
    · cases h
  | member done =>
    simp only [step] at h
    split at h
    · obtain rfl := Option.some.inj h
      simp [tokens, Stage.tokens]
    · cases h
  | colon done key =>
    obtain ⟨hk, hs⟩ := Option.ite_none_right_eq_some.1 h
    obtain rfl := Option.some.inj hs
    simp [tokens, Stage.tokens, Frame.tokens, keyTokens, hk]
  | after v => simpa [tokens, Stage.tokens] using tokens_goOn h

/-- The tokens that the parser has read are those that lead to where it stands. -/
theorem tokens_of_run {s s' : ParseState} {ks : List Token} (h : s.run ks = some s') : s'.tokens = s.tokens ++ ks := by
  induction ks generalizing s with
  | nil =>
    obtain rfl := Option.some.inj h
    simp
  | cons k ks ih =>
    obtain ⟨s₁, hstep, hrun⟩ := Option.bind_eq_some_iff.1 h
    rw [ih hrun, tokens_step hstep]
    simp

/-- After a number the parser stands behind a complete value. -/
theorem exists_after_of_step_number {s s' : ParseState} {u : Text} (h : s.step (.number u) = some s') :
    ∃ v, s'.stage = .after v := by
  obtain ⟨stack, stage⟩ := s
  cases stage with
  | value | firstItem => cases h; exact ⟨_, rfl⟩
  | firstMember | member _ | colon _ _ => cases h
  | after v => rcases stack with _ | ⟨_ | _, _⟩ <;> cases h

/-- No number comes behind a complete value. -/
theorem step_number_of_after {s : ParseState} {v : Value} (h : s.stage = .after v) (u : Text) : s.step (.number u) = none := by
  obtain ⟨stack, stage⟩ := s
  subst h
  rcases stack with _ | ⟨_ | _, _⟩ <;> rfl

/-- The parser reads no two numbers in a row. -/
theorem numbersApart_of_run {s s' : ParseState} {ks : List Token} (h : s.run ks = some s') : NumbersApart ks := by
  induction ks generalizing s with
  | nil => exact .nil
  | cons k ks ih =>
    obtain ⟨s₁, hstep, hrun⟩ := Option.bind_eq_some_iff.1 h
    cases ks with
    | nil => exact .singleton k
    | cons k' ks =>
      refine List.isChain_cons_cons.2 ⟨?_, ih hrun⟩
      rintro u v ⟨rfl, rfl⟩
      obtain ⟨w, hw⟩ := exists_after_of_step_number hstep
      obtain ⟨s₂, hstep', -⟩ := Option.bind_eq_some_iff.1 hrun
      rw [step_number_of_after hw] at hstep'
      nomatch hstep'

end ParseState

/-! ## Texts -/

/-- Only the tokens of a value are read as the value. -/
theorem parseTokens_eq_some_iff {ks : List Token} {v : Value} : parseTokens ks = some v ↔ ks = v.tokens := by
  constructor
  · intro h
    obtain ⟨s, hrun, hfinish⟩ := Option.bind_eq_some_iff.1 h
    have htokens := ParseState.tokens_of_run hrun
    unfold ParseState.finish? at hfinish
    split at hfinish
    · obtain rfl := Option.some.inj hfinish
      simpa [ParseState.tokens, Stage.tokens] using htokens.symm
    · cases hfinish
  · rintro rfl
    exact parseTokens_tokens v

/-- A text is read as a value just if it is written as JSON for the value. -/
theorem parse_eq_some_iff {t : Text} {v : Value} : parse t = some v ↔ Shows t v := by
  refine ⟨fun h => ?_, parse_of_shows⟩
  obtain ⟨ks, hlex, hparse⟩ := Option.bind_eq_some_iff.1 h
  obtain ⟨s, hrun, -⟩ := Option.bind_eq_some_iff.1 hparse
  have hlayout := layout_of_lexFrom t ks hlex (ParseState.numbersApart_of_run hrun)
  rwa [parseTokens_eq_some_iff.1 hparse] at hlayout

/-- A text is written as JSON for a value just if its tokens are those of the value. -/
theorem shows_iff_lex {t : Text} {v : Value} : Shows t v ↔ lex t = some v.tokens := by
  refine ⟨lex_of_layout, fun h => parse_eq_some_iff.1 ?_⟩
  rw [parse, h, Option.bind_some, parseTokens_tokens]

instance (t : Text) (v : Value) : Decidable (Shows t v) := decidable_of_iff _ shows_iff_lex.symm

example : Shows " [1.50E+2 ,\t\"\\u00e9\"]\r\n".toList (.array [.number "1.50E+2".toList, .string [.code 0xE9]]) := by decide +kernel

end Json

end DevWorkflow
