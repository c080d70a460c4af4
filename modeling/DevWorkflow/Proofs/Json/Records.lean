import DevWorkflow.Proofs.Json.RoundTrip
import Mathlib.Data.List.Forall2
import Mathlib.Tactic.SplitIfs

/-!
# Records in JSON texts

`Denotes us t` says that the units `us` of a string denote the text `t`: each character stands for itself or is written as the code
units that UTF-16 has for it. `Value.HasFields` says that a value is a record with the given fields, in any order and with other
members besides, and `IsIncomplete` says that an object is none, since a field is missing or stands there twice. The main statements
are that the fields of a record are read (`Value.fields?_of_hasFields`), that they are read from nothing else
(`Value.hasFields_of_fields?`), and that none are read from an object that is not one (`Value.fields?_of_isIncomplete`).
-/

namespace DevWorkflow

namespace Json

/-! ## Texts -/

/-- Whether the units of a string denote a text. -/
inductive Denotes : List StringUnit → Text → Prop where
  | nil : Denotes [] []
  /-- A character stands for itself. -/
  | char {us : List StringUnit} {t : Text} (c : Char) : Denotes us t → Denotes (.char c :: us) (c :: t)
  /-- A character is written as its code unit. -/
  | code {us : List StringUnit} {t : Text} {c : Char} : c.toNat < 0x10000 → Denotes us t → Denotes (.code c.toNat :: us) (c :: t)
  /-- A character is written as its two code units. -/
  | pair {us : List StringUnit} {t : Text} {c : Char} : 0x10000 ≤ c.toNat → Denotes us t →
      Denotes (.code (0xD800 + (c.toNat - 0x10000) / 0x400) :: .code (0xDC00 + (c.toNat - 0x10000) % 0x400) :: us) (c :: t)

/-- A text is denoted by its characters. -/
theorem denotes_unitsOfText (t : Text) : Denotes (unitsOfText t) t := by
  induction t with
  | nil => exact .nil
  | cons c rest ih => exact .char c ih

theorem Denotes.append {us us' : List StringUnit} {t t' : Text} (h : Denotes us t) (h' : Denotes us' t') :
    Denotes (us ++ us') (t ++ t') := by
  induction h with
  | nil => exact h'
  | char c _ ih => exact .char c ih
  | code hc _ ih => exact .code hc ih
  | pair hc _ ih => exact .pair hc ih

/-- The number of a character is below the surrogates or above them. -/
theorem toNat_cases (c : Char) : c.toNat < 0xD800 ∨ 0xDFFF < c.toNat ∧ c.toNat < 0x110000 := c.valid

/-- What the units of a string denote is read. -/
theorem textOfUnits?_of_denotes {us : List StringUnit} {t : Text} (h : Denotes us t) : textOfUnits? us = some t := by
  induction h with
  | nil => rfl
  | char c _ ih => rw [textOfUnits?, ih, Option.map_some]
  | @code us t c hc _ ih =>
    have hrange := toNat_cases c
    have hhigh : isHighSurrogate c.toNat = false := by
      simp [isHighSurrogate]
      omega
    have hlow : isLowSurrogate c.toNat = false := by
      simp [isLowSurrogate]
      omega
    rw [textOfUnits?_code hhigh hlow, ih, Option.map_some, Char.ofNat_toNat]
  | @pair us t c hc _ ih =>
    have hrange := toNat_cases c
    have hhigh : isHighSurrogate (0xD800 + (c.toNat - 0x10000) / 0x400) = true := by
      simp [isHighSurrogate]
      omega
    have hlow : isLowSurrogate (0xDC00 + (c.toNat - 0x10000) % 0x400) = true := by
      simp [isLowSurrogate]
      omega
    have hchar : ofSurrogates (0xD800 + (c.toNat - 0x10000) / 0x400) (0xDC00 + (c.toNat - 0x10000) % 0x400) = c := by
      have hsum : 0x10000 + (0xD800 + (c.toNat - 0x10000) / 0x400 - 0xD800) * 0x400 +
          (0xDC00 + (c.toNat - 0x10000) % 0x400 - 0xDC00) = c.toNat := by omega
      rw [ofSurrogates, hsum, Char.ofNat_toNat]
    rw [textOfUnits?.eq_def]
    simp only [hhigh, hlow, if_true, ih, Option.map_some, hchar]

/-- The character with a number that is no surrogate has this number. -/
theorem toNat_ofNat {n : Nat} (h : n < 0xD800 ∨ 0xDFFF < n ∧ n < 0x110000) : (Char.ofNat n).toNat = n := by
  have hn : n.isValidChar := h
  rw [Char.ofNat, dif_pos hn]
  rfl

/-! ## Code units -/

/-- Whether the numbers that are written in a string are code units. -/
def AreCodeUnits (us : List StringUnit) : Prop := ∀ n, .code n ∈ us → n < 0x10000

/-- What is read from the units of a string is what they denote. -/
theorem denotes_of_textOfUnits? {us : List StringUnit} {t : Text} (h : textOfUnits? us = some t) (hus : AreCodeUnits us) :
    Denotes us t := by
  fun_induction textOfUnits? us generalizing t with
  | case1 =>
    obtain rfl := Option.some.inj h
    exact .nil
  | case2 c rest ih =>
    obtain ⟨u, hu, rfl⟩ := Option.map_eq_some_iff.1 h
    exact .char c (ih hu fun n hn => hus n (.tail _ hn))
  | case3 n hn m rest hm ih =>
    obtain ⟨u, hu, rfl⟩ := Option.map_eq_some_iff.1 h
    have hrest := ih hu fun k hk => hus k (.tail _ (.tail _ hk))
    simp only [isHighSurrogate, isLowSurrogate, Bool.and_eq_true, decide_eq_true_eq] at hn hm
    have hnumber : (ofSurrogates n m).toNat = 0x10000 + (n - 0xD800) * 0x400 + (m - 0xDC00) := toNat_ofNat (by omega)
    have hhigh : 0xD800 + ((ofSurrogates n m).toNat - 0x10000) / 0x400 = n := by omega
    have hlow : 0xDC00 + ((ofSurrogates n m).toNat - 0x10000) % 0x400 = m := by omega
    have hpair := Denotes.pair (c := ofSurrogates n m) (by omega) hrest
    rwa [hhigh, hlow] at hpair
  | case4 | case5 | case6 => cases h
  | case7 n rest hhigh hlow ih =>
    obtain ⟨u, hu, rfl⟩ := Option.map_eq_some_iff.1 h
    have hn := hus n List.mem_cons_self
    simp only [isHighSurrogate, isLowSurrogate, Bool.and_eq_true, decide_eq_true_eq] at hhigh hlow
    have hnumber : (Char.ofNat n).toNat = n := toNat_ofNat (by omega)
    have hcode := Denotes.code (c := Char.ofNat n) (by omega) (ih hu fun k hk => hus k (.tail _ hk))
    rwa [hnumber] at hcode

/-- Whether the numbers that are written in a token, if it is a string, are code units. -/
def Token.HasCodeUnits : Token → Prop
  | .string us => AreCodeUnits us
  | _ => True

/-- Whether the numbers that are written in the strings of a value are code units. -/
def Value.HasCodeUnits (v : Value) : Prop := ∀ k ∈ v.tokens, k.HasCodeUnits

/-- A hexadecimal digit is below sixteen. -/
theorem lt_of_hexValue? {c : Char} {n : Nat} (h : hexValue? c = some n) : n < 16 := by
  unfold hexValue? at h
  split_ifs at h with hdigit hlower hupper
  all_goals
    obtain rfl := Option.some.inj h
    simp only [Bool.and_eq_true, decide_eq_true_eq, Char.le_def, UInt32.le_iff_toNat_le, Char.toNat_val, Char.reduceToNat] at *
    omega

/-- Four hexadecimal digits write a code unit. -/
theorem lt_of_unitSpelling {n : Nat} {t : Text} (h : UnitSpelling (.code n) t) : n < 0x10000 := by
  cases h with
  | code ha hb hc hd =>
    have := lt_of_hexValue? ha
    have := lt_of_hexValue? hb
    have := lt_of_hexValue? hc
    have := lt_of_hexValue? hd
    omega

theorem areCodeUnits_of_unitsSpelling {us : List StringUnit} {t : Text} (h : UnitsSpelling us t) : AreCodeUnits us := by
  induction h with
  | nil => exact fun n hn => nomatch hn
  | cons hu _ ih =>
    intro n hn
    rcases List.mem_cons.1 hn with rfl | hn
    · exact lt_of_unitSpelling hu
    · exact ih n hn

theorem hasCodeUnits_of_layout {ks : List Token} {t : Text} (h : Layout ks t) : ∀ k ∈ ks, k.HasCodeUnits := by
  induction h with
  | nil => exact List.forall_mem_nil _
  | space _ _ ih => exact ih
  | token hk _ _ ih =>
    refine List.forall_mem_cons.2 ⟨?_, ih⟩
    cases hk with
    | string hus => exact areCodeUnits_of_unitsSpelling hus
    | _ => trivial

/-- The strings of a value that is shown have code units only. -/
theorem hasCodeUnits_of_shows {t : Text} {v : Value} (h : Shows t v) : v.HasCodeUnits := hasCodeUnits_of_layout h

theorem subset_itemTokens {items : List Value} : ∀ v ∈ items, v.tokens ⊆ itemTokens items := by
  induction items with
  | nil => exact List.forall_mem_nil _
  | cons w rest ih =>
    rw [itemTokens]
    refine List.forall_mem_cons.2 ⟨fun k hk => by simp [hk], fun v hv k hk => ?_⟩
    simp [ih v hv hk]

theorem subset_memberTokens {members : List (List StringUnit × Value)} :
    ∀ m ∈ members, (.string m.1 :: m.2.tokens) ⊆ memberTokens members := by
  induction members with
  | nil => exact List.forall_mem_nil _
  | cons n rest ih =>
    rw [memberTokens]
    refine List.forall_mem_cons.2 ⟨fun k hk => ?_, fun m hm k hk => ?_⟩
    · rcases List.mem_cons.1 hk with rfl | hk
      · simp
      · simp [hk]
    · simp [ih m hm hk]

theorem Value.HasCodeUnits.item {items : List Value} (h : (array items).HasCodeUnits) : ∀ v ∈ items, v.HasCodeUnits := by
  cases items with
  | nil => exact List.forall_mem_nil _
  | cons w rest =>
    rw [HasCodeUnits, tokens] at h
    refine List.forall_mem_cons.2 ⟨fun k hk => h k (by simp [hk]), fun v hv k hk => h k ?_⟩
    simp [subset_itemTokens v hv hk]

theorem Value.HasCodeUnits.member {members : List (List StringUnit × Value)} (h : (object members).HasCodeUnits) :
    ∀ m ∈ members, AreCodeUnits m.1 ∧ m.2.HasCodeUnits := by
  cases members with
  | nil => exact List.forall_mem_nil _
  | cons n rest =>
    obtain ⟨key, w⟩ := n
    rw [HasCodeUnits, tokens] at h
    refine List.forall_mem_cons.2 ⟨⟨h (.string key) (by simp), fun k hk => h k (by simp [hk])⟩, fun m hm => ?_⟩
    have hrest : ∀ k ∈ Token.string m.1 :: m.2.tokens, k.HasCodeUnits := fun k hk => h k (by simp [subset_memberTokens m hm hk])
    exact ⟨hrest (.string m.1) List.mem_cons_self, fun k hk => hrest k (List.mem_cons_of_mem _ hk)⟩

/-! ## Records -/

/-- Whether a value is a string that denotes a text. -/
def Value.IsText (v : Value) (t : Text) : Prop := ∃ us, v = .string us ∧ Denotes us t

/-- Whether a value is a record with the given fields: an object that has them in any order, and other members besides whose names
are none of theirs, or an array of their values. -/
inductive Value.HasFields (fields : List (Text × Value)) : Value → Prop where
  | object {members : List (List StringUnit × Value)} {named others : List (Text × Value)} :
      List.Forall₂ (fun m n => Denotes m.1 n.1 ∧ m.2 = n.2) members named → named.Perm (fields ++ others) →
      (∀ n ∈ others, n.1 ∉ fields.map (·.1)) → HasFields fields (.object members)
  | array : HasFields fields (.array (fields.map (·.2)))

/-- Whether an object lacks one of some fields or has one of them twice. -/
def IsIncomplete (names : List Text) (members : List (List StringUnit × Value)) : Prop :=
  ∃ name ∈ names, (∀ m ∈ members, ¬Denotes m.1 name) ∨
    ∃ m m', [m, m'].Sublist members ∧ Denotes m.1 name ∧ Denotes m'.1 name

/-- The members of an object with their names read; none if one of the names denotes no text. -/
def readNames? (members : List (List StringUnit × Value)) : Option (List (Text × Value)) :=
  members.mapM fun m => (textOfUnits? m.1).map fun name => (name, m.2)

/-- Elements are read one by one. -/
theorem mapM_eq_some_iff {α β : Type} {f : α → Option β} {xs : List α} {ys : List β} :
    xs.mapM f = some ys ↔ List.Forall₂ (fun x y => f x = some y) xs ys := by
  induction xs generalizing ys with
  | nil => cases ys <;> simp
  | cons x xs ih =>
    rw [List.mapM_cons]
    constructor
    · intro h
      obtain ⟨y, hy, h⟩ := Option.bind_eq_some_iff.1 h
      obtain ⟨rest, hrest, h⟩ := Option.bind_eq_some_iff.1 h
      obtain rfl := Option.some.inj h
      exact .cons hy (ih.1 hrest)
    · rintro (_ | ⟨hy, hrest⟩)
      rw [hy, ih.2 hrest]
      rfl

/-- Reading each element gives what each one stands for. -/
theorem mapM_eq_some_of_forall {α β : Type} {f : α → Option β} {g : α → β} {xs : List α} (h : ∀ x ∈ xs, f x = some (g x)) :
    xs.mapM f = some (xs.map g) :=
  mapM_eq_some_iff.2 (List.forall₂_map_right_iff.2 (List.forall₂_same.2 h))

theorem readNames?_of_denotes {members : List (List StringUnit × Value)} {named : List (Text × Value)}
    (h : List.Forall₂ (fun m n => Denotes m.1 n.1 ∧ m.2 = n.2) members named) : readNames? members = some named :=
  mapM_eq_some_iff.2 (h.imp fun m n hmn => by rw [textOfUnits?_of_denotes hmn.1, hmn.2, Option.map_some])

/-- The only member of a name. -/
theorem Value.onlyMember?_eq_some_iff {name : Text} {members : List (Text × Value)} {v : Value} :
    onlyMember? name members = some v ↔ (members.filter fun m => m.1 = name) = [(name, v)] := by
  rw [onlyMember?]
  constructor
  · intro h
    split at h
    · next m hm =>
      have hmem : m ∈ members.filter fun m => m.1 = name := by simp [hm]
      obtain rfl : m.1 = name := of_decide_eq_true (List.mem_filter.1 hmem).2
      obtain rfl := Option.some.inj h
      exact hm
    · nomatch h
  · intro h
    rw [h]

/-- There are no members of a name that none of them has. -/
theorem filter_name_eq_nil {members : List (Text × Value)} {name : Text} (h : name ∉ members.map (·.1)) :
    (members.filter fun n => n.1 = name) = [] := by
  rw [List.filter_eq_nil_iff]
  intro n hn
  have hne : n.1 ≠ name := fun he => h (he ▸ List.mem_map_of_mem hn)
  simp [hne]

/-- Among members of different names there is one of the name of each. -/
theorem filter_name_eq {fields : List (Text × Value)} (h : (fields.map (·.1)).Nodup) {f : Text × Value} (hf : f ∈ fields) :
    (fields.filter fun n => n.1 = f.1) = [f] := by
  induction fields with
  | nil => nomatch hf
  | cons n rest ih =>
    rw [List.map_cons, List.nodup_cons] at h
    rcases List.mem_cons.1 hf with rfl | hf
    · simp [filter_name_eq_nil h.1]
    · have hne : n.1 ≠ f.1 := fun he => h.1 (he ▸ List.mem_map_of_mem hf)
      rw [List.filter_cons_of_neg (by simp [hne]), ih h.2 hf]

/-- The fields of an object that has each of them once are read. -/
theorem Value.fields?_object {members : List (List StringUnit × Value)} {named fields others : List (Text × Value)}
    (hread : readNames? members = some named) (hperm : named.Perm (fields ++ others))
    (hothers : ∀ n ∈ others, n.1 ∉ fields.map (·.1)) (hnodup : (fields.map (·.1)).Nodup) :
    (object members).fields? (fields.map (·.1)) = some (fields.map (·.2)) := by
  have honly : ∀ f ∈ fields, onlyMember? f.1 named = some f.2 := by
    intro f hf
    have hnone : f.1 ∉ others.map (·.1) := by
      intro hmem
      obtain ⟨n, hn, he⟩ := List.mem_map.1 hmem
      exact hothers n hn (he ▸ List.mem_map_of_mem hf)
    have hfilter := hperm.filter fun n => n.1 = f.1
    rw [List.filter_append, filter_name_eq hnodup hf, filter_name_eq_nil hnone, List.append_nil] at hfilter
    exact onlyMember?_eq_some_iff.2 hfilter.eq_singleton
  rw [readNames?] at hread
  rw [fields?]
  simp only [hread, Option.bind_eq_bind, Option.bind_some]
  rw [List.mapM_map]
  exact mapM_eq_some_of_forall honly

/-- The fields of a record are read. -/
theorem Value.fields?_of_hasFields (names : List Text) {fields : List (Text × Value)} (hnames : fields.map (·.1) = names)
    (hnodup : names.Nodup) {v : Value} (h : v.HasFields fields) : v.fields? names = some (fields.map (·.2)) := by
  subst hnames
  cases h with
  | array => simp [fields?]
  | object hmembers hperm hothers => exact fields?_object (readNames?_of_denotes hmembers) hperm hothers hnodup

/-- What is written for a record is the record. -/
theorem Value.hasFields_ofFields (fields : List (Text × Value)) : (ofFields fields).HasFields fields := by
  have hmembers : List.Forall₂ (fun (m : List StringUnit × Value) (n : Text × Value) => Denotes m.1 n.1 ∧ m.2 = n.2)
      (fields.map fun f => (unitsOfText f.1, f.2)) fields :=
    List.forall₂_map_left_iff.2 (List.forall₂_same.2 fun f _ => ⟨denotes_unitsOfText f.1, rfl⟩)
  have hperm : fields.Perm (fields ++ []) := by simp
  exact .object hmembers hperm (List.forall_mem_nil _)

/-! ## Objects that are no records -/

/-- The members with a name are read as the members with the name. -/
theorem filter_readNames? {members : List (List StringUnit × Value)} {named : List (Text × Value)}
    (h : readNames? members = some named) (name : Text) :
    ((members.filter fun m => textOfUnits? m.1 = some name).map fun m => (name, m.2)) = named.filter fun n => n.1 = name := by
  induction members generalizing named with
  | nil =>
    obtain rfl := Option.some.inj h
    rfl
  | cons m rest ih =>
    rw [readNames?, List.mapM_cons] at h
    obtain ⟨n, hn, h⟩ := Option.bind_eq_some_iff.1 h
    obtain ⟨others, hothers, h⟩ := Option.bind_eq_some_iff.1 h
    obtain rfl := Option.some.inj h
    obtain ⟨u, hu, rfl⟩ := Option.map_eq_some_iff.1 hn
    by_cases hname : u = name
    · subst hname
      simp [hu, ih hothers]
    · simp [hu, hname, ih hothers]

/-- The values that are read of an object are those of the only members that have the fields' names. -/
theorem Value.forall₂_of_fields? {members : List (List StringUnit × Value)} {names : List Text} {values : List Value}
    (h : (object members).fields? names = some values) : List.Forall₂
      (fun name v => ∃ key, (members.filter fun m => textOfUnits? m.1 = some name) = [(key, v)]) names values := by
  obtain ⟨named, hread, h⟩ := Option.bind_eq_some_iff.1 h
  refine (mapM_eq_some_iff.1 h).imp fun name v hv => ?_
  have hfilter := filter_readNames? hread name
  rw [onlyMember?_eq_some_iff.1 hv] at hfilter
  obtain ⟨m, hm, heq⟩ := List.map_eq_singleton_iff.1 hfilter
  obtain rfl := (Prod.mk.inj heq).2
  exact ⟨m.1, hm⟩

/-- A member that has the name of the only one has its value. -/
theorem eq_of_filter_name_eq {members : List (List StringUnit × Value)} {name : Text} {key : List StringUnit} {v : Value}
    (h : (members.filter fun m => textOfUnits? m.1 = some name) = [(key, v)]) {m : List StringUnit × Value} (hm : m ∈ members)
    (hname : Denotes m.1 name) : m.2 = v := by
  have hmem : m ∈ members.filter fun m => textOfUnits? m.1 = some name := by simp [hm, textOfUnits?_of_denotes hname]
  rw [h, List.mem_singleton] at hmem
  rw [hmem]

/-- What is read for an element. -/
theorem exists_of_mem_left {α β : Type} {R : α → β → Prop} {as : List α} {bs : List β} (h : List.Forall₂ R as bs) :
    ∀ a ∈ as, ∃ b, R a b := by
  induction h with
  | nil => exact List.forall_mem_nil _
  | cons hab _ ih => exact List.forall_mem_cons.2 ⟨⟨_, hab⟩, ih⟩

/-- No values are read of an object that lacks a field or has it twice. -/
theorem Value.fields?_of_isIncomplete {members : List (List StringUnit × Value)} {names : List Text}
    (hunits : (object members).HasCodeUnits) (h : IsIncomplete names members) : (object members).fields? names = none := by
  obtain ⟨name, hname, h⟩ := h
  rw [Option.eq_none_iff_forall_ne_some]
  intro values hvalues
  obtain ⟨v, key, hkey⟩ := exists_of_mem_left (forall₂_of_fields? hvalues) name hname
  rcases h with hmissing | ⟨m, m', hsub, hm, hm'⟩
  · have hmem : (key, v) ∈ members.filter fun m => textOfUnits? m.1 = some name := by simp [hkey]
    rw [List.mem_filter, decide_eq_true_eq] at hmem
    exact hmissing _ hmem.1 (denotes_of_textOfUnits? hmem.2 (hunits.member _ hmem.1).1)
  · have htwice := (hsub.filter fun m => textOfUnits? m.1 = some name).length_le
    simp [hkey, textOfUnits?_of_denotes hm, textOfUnits?_of_denotes hm'] at htwice

/-! ## What is read -/

/-- If one member each has the given names, then the members with these names are they. -/
theorem filter_mem_perm {names : List Text} {values : List Value} {named : List (Text × Value)} (hnodup : names.Nodup)
    (h : List.Forall₂ (fun name v => (named.filter fun n => n.1 = name) = [(name, v)]) names values) :
    (named.filter fun n => n.1 ∈ names).Perm (names.zip values) := by
  induction h with
  | nil => simp
  | @cons name v names values hname _ ih =>
    obtain ⟨hfirst, hnodup⟩ := List.nodup_cons.1 hnodup
    have hsplit := List.filter_append_perm (fun n => n.1 = name) (named.filter fun n => n.1 ∈ name :: names)
    have hone : ((named.filter fun n => n.1 ∈ name :: names).filter fun n => n.1 = name) = [(name, v)] := by
      rw [List.filter_filter, ← hname]
      refine List.filter_congr fun n _ => ?_
      by_cases hn : n.1 = name <;> simp [hn]
    have hothers : ((named.filter fun n => n.1 ∈ name :: names).filter fun n => !decide (n.1 = name)) =
        named.filter fun n => n.1 ∈ names := by
      rw [List.filter_filter]
      refine List.filter_congr fun n _ => ?_
      by_cases hn : n.1 = name
      · simp [hn, hfirst]
      · simp [hn]
    rw [hone, hothers] at hsplit
    exact hsplit.symm.trans ((ih hnodup).cons (name, v))

/-- What values are read from is a record of them. -/
theorem Value.hasFields_of_fields? {v : Value} {names : List Text} {values : List Value} (hunits : v.HasCodeUnits)
    (hnodup : names.Nodup) (h : v.fields? names = some values) : v.HasFields (names.zip values) := by
  cases v with
  | array items =>
    obtain ⟨hlength, hitems⟩ := Option.ite_none_right_eq_some.1 h
    obtain rfl := Option.some.inj hitems
    have harray : HasFields (names.zip items) (array ((names.zip items).map (·.2))) := .array
    rwa [List.map_snd_zip (Nat.le_of_eq hlength)] at harray
  | object members =>
    obtain ⟨named, hread, h⟩ := Option.bind_eq_some_iff.1 h
    have hvalues := mapM_eq_some_iff.1 h
    have hmembers := (List.forall₂_and_left _ _).2 ⟨fun m hm => (hunits.member m hm).1, mapM_eq_some_iff.1 hread⟩
    have hperm := filter_mem_perm hnodup (hvalues.imp fun name v hv => onlyMember?_eq_some_iff.1 hv)
    refine .object (hmembers.imp fun m n hm => ?_)
      ((List.filter_append_perm (fun n => n.1 ∈ names) named).symm.trans (hperm.append_right _)) fun n hn => ?_
    · obtain ⟨u, hu, rfl⟩ := Option.map_eq_some_iff.1 hm.2
      exact ⟨denotes_of_textOfUnits? hu hm.1, rfl⟩
    · rw [List.map_fst_zip (Nat.le_of_eq hvalues.length_eq)]
      simpa using (List.mem_filter.1 hn).2
  | null | bool _ | number _ | string _ => nomatch h

/-- The values that are read from a record have code units only if the record has. -/
theorem Value.hasCodeUnits_of_fields? {v : Value} {names : List Text} {values : List Value} (hunits : v.HasCodeUnits)
    (h : v.fields? names = some values) : ∀ w ∈ values, w.HasCodeUnits := by
  cases v with
  | array items =>
    obtain ⟨-, hitems⟩ := Option.ite_none_right_eq_some.1 h
    obtain rfl := Option.some.inj hitems
    exact hunits.item
  | object members =>
    intro w hw
    obtain ⟨name, key, hkey⟩ := exists_of_mem_left (forall₂_of_fields? h).flip w hw
    have hmem : (key, w) ∈ members.filter fun m => textOfUnits? m.1 = some name := by simp [hkey]
    exact (hunits.member _ (List.mem_filter.1 hmem).1).2
  | null | bool _ | number _ | string _ => nomatch h

end Json

end DevWorkflow
