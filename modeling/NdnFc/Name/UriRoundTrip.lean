import NdnFc.Name.Uri

/-!
# Reading a name back from its URI

The text of a component determines the component, except that the alternate format writes a number
without its length. Components that the checking constructor refuses are refused by the reader of
texts too.
-/

namespace NdnFc

open PercentEncoding List BigEndian

/-! ### Numbers in texts -/

theorem takeWhile_isDigit_decimal (n : ℕ) : (decimal n).takeWhile Char.isDigit = decimal n :=
  takeWhile_eq_self_iff.mpr fun _ hc => Nat.isDigit_of_mem_toDigits (by decide) (by decide) hc

theorem scanNumber_decimal (n : ℕ) : scanNumber (decimal n) = some (false, n) := by
  obtain ⟨c, text, htext⟩ : ∃ c text, decimal n = c :: text :=
    exists_cons_of_ne_nil Nat.toDigits_ne_nil
  have hdigit : c.isDigit = true := by
    refine Nat.isDigit_of_mem_toDigits (b := 10) (n := n) (by decide) (by decide) ?_
    rw [← decimal, htext]
    exact mem_cons_self
  have hne : ∀ d : Char, d.isDigit = false → c ≠ d := by
    rintro d hd rfl
    rw [hdigit] at hd
    cases hd
  have hspace : isSpace c = false := by
    have hrange : '0'.toNat ≤ c.toNat := by
      simp only [Char.isDigit, Bool.and_eq_true, decide_eq_true_eq] at hdigit
      exact hdigit.1
    have hzero : '0'.toNat = 48 := rfl
    simp only [isSpace, Bool.or_eq_false_iff, beq_eq_false_iff_ne, Bool.and_eq_false_iff,
      decide_eq_false_iff_not]
    exact ⟨hne ' ' (by decide), .inr (by omega)⟩
  have hsign : readSign (decimal n) = (false, decimal n) := by
    have hminus := hne '-' (by decide)
    have hplus := hne '+' (by decide)
    rw [htext]
    unfold readSign
    split
    next h => exact absurd (cons.inj h).1 hminus
    next h => exact absurd (cons.inj h).1 hplus
    next => rfl
  have hdrop : (decimal n).dropWhile isSpace = decimal n := by
    rw [htext, dropWhile_cons_of_neg (by simp [hspace])]
  have hne_nil : decimal n ≠ [] := Nat.toDigits_ne_nil
  have hvalue : Nat.ofDigitChars 10 (decimal n) 0 = n := Nat.ofDigitChars_ten_toDigits
  simp only [scanNumber, hdrop, hsign, takeWhile_isDigit_decimal, if_neg hne_nil, hvalue]

theorem strtoul_decimal {n : ℕ} (h : n < 2 ^ 64) : strtoul (decimal n) = n := by
  simp only [strtoul, scanNumber_decimal]
  rw [if_neg (by omega)]
  rfl

namespace Component

/-- The value is the shortest encoding of the number it stands for. -/
def HasShortestNumber (c : Component) : Prop :=
  Tlv.writeNonNegativeInteger (toNat c.value) = c.value

instance (c : Component) : Decidable c.HasShortestNumber :=
  inferInstanceAs (Decidable (_ = _))

/-- The alternate format writes the component as a decimal number. -/
def isWrittenAsNumber (c : Component) : Bool :=
  match typeRules c.type with
  | .decimal _ _ => c.isNumber
  | _ => false

/-- What a component that is written as a number is read back as: the same number in its shortest
encoding. -/
def readBack (c : Component) : Component :=
  if c.isWrittenAsNumber then
    { c with value := Tlv.writeNonNegativeInteger (toNat c.value) }
  else c

variable {c : Component}

theorem readBack_eq_self_iff :
    c.readBack = c ↔ (c.isWrittenAsNumber = true → c.HasShortestNumber) := by
  unfold readBack
  split_ifs with h
  · rw [HasShortestNumber]
    exact ⟨fun hc _ => congrArg value hc, fun hc => ext rfl (hc h)⟩
  · simp [h]

/-! ### The canonical format -/

theorem fromEscapedString_equals {typePrefix text : List Char} (h : '=' ∉ typePrefix) :
    fromEscapedString (typePrefix ++ '=' :: text) = fromTypedString typePrefix text := by
  have hall : ∀ c ∈ typePrefix, (c != '=') = true := by
    intro c hc
    rw [bne_iff_ne]
    rintro rfl
    exact h hc
  have hdrop : (typePrefix ++ '=' :: text).dropWhile (· != '=') = '=' :: text := by
    rw [dropWhile_append_of_pos hall]
    rfl
  have htake : (typePrefix ++ '=' :: text).takeWhile (· != '=') = typePrefix := by
    rw [takeWhile_append_of_pos hall]
    simp
  rw [fromEscapedString, hdrop, htake]

variable {d : Component}

theorem create_self_eq_ok_iff : create c.type c.value = .ok d ↔ c.Accepted ∧ d = c := by
  rw [create_eq_ok_iff, accepted_iff]
  constructor
  · rintro ⟨htype, hvalue, h⟩
    exact ⟨h, ext htype hvalue⟩
  · rintro ⟨h, rfl⟩
    exact ⟨rfl, rfl, h⟩

theorem findByUriPrefix_decimal (n : ℕ) : findByUriPrefix (decimal n) = none := by
  obtain ⟨c, text, htext⟩ : ∃ c text, decimal n = c :: text :=
    exists_cons_of_ne_nil Nat.toDigits_ne_nil
  have hmem : c ∈ decimal n := by
    rw [htext]
    exact mem_cons_self
  have hne : ∀ d : Char, d.isDigit = false → c ≠ d := by
    rintro d hd rfl
    exact notMem_decimal hd n hmem
  have hs := hne 's' (by decide)
  have hp := hne 'p' (by decide)
  have ho := hne 'o' (by decide)
  have hv := hne 'v' (by decide)
  have ht := hne 't' (by decide)
  rw [htext]
  simp [findByUriPrefix, typeRules, hs.symm, hp.symm, ho.symm, hv.symm, ht.symm]

theorem fromEscapedString_writeUriPlain_iff :
    fromEscapedString c.writeUriPlain = .ok d ↔ c.Accepted ∧ d = c := by
  have hlt : c.type < 2 ^ 64 := lt_trans c.type_lt (by decide)
  rw [writeUriPlain, fromEscapedString_equals (notMem_decimal (by decide) c.type), fromTypedString,
    strtoul_decimal hlt]
  by_cases htype : c.type ≤ Tlv.nameComponentMax
  · rw [if_pos ⟨c.type_pos, htype, rfl⟩, parseUriEscapedValue_write, create_self_eq_ok_iff]
  · rw [if_neg fun h => htype h.2.1, findByUriPrefix_decimal, accepted_iff]
    refine iff_of_false ?_ fun h => htype h.1.1
    intro h
    cases h

/-! ### The alternate format -/

variable {typeName uriPrefix : String}

theorem uriPrefix_of_typeRules {type : ℕ}
    (h : typeRules type = .sha256 typeName uriPrefix ∨ typeRules type = .decimal typeName uriPrefix) :
    '=' ∉ uriPrefix.toList ∧ strtoul uriPrefix.toList = 0 ∧
      findByUriPrefix uriPrefix.toList = some type := by
  unfold typeRules at h
  split at h <;> simp at h
  all_goals
    obtain ⟨-, rfl⟩ := h
    decide

theorem fromEscapedString_uriPrefix {type : ℕ}
    (h : typeRules type = .sha256 typeName uriPrefix ∨ typeRules type = .decimal typeName uriPrefix)
    (text : List Char) :
    fromEscapedString (uriPrefix.toList ++ '=' :: text) = parseAltUriValue type text := by
  obtain ⟨hequals, hzero, hfind⟩ := uriPrefix_of_typeRules h
  rw [fromEscapedString_equals hequals, fromTypedString, hzero, if_neg fun h => absurd h.1 (by decide),
    hfind]

theorem parseDecimal_decimal {type n : ℕ} (h : n < 2 ^ 64) (typeName : String) :
    parseDecimal type typeName (decimal n) = create type (Tlv.writeNonNegativeInteger n) := by
  have hsign : applySign false n = n := rfl
  simp only [parseDecimal, scanNumber_decimal, hsign]
  rw [if_neg (by omega), if_neg (by simp)]

theorem toNat_lt_of_isNumber (h : c.isNumber = true) : toNat c.value < 2 ^ 64 := by
  have hlength : c.value.length ≤ 8 := by
    simp only [isNumber, Bool.or_eq_true, beq_iff_eq] at h
    omega
  calc toNat c.value < 256 ^ c.value.length := toNat_lt c.value
    _ ≤ 256 ^ 8 := Nat.pow_le_pow_right (by decide) hlength
    _ = 2 ^ 64 := by decide

theorem fromEscapedString_writeUri_iff :
    fromEscapedString (c.writeUri (typeRules c.type)) = .ok d ↔ c.Accepted ∧ d = c.readBack := by
  cases hrules : typeRules c.type with
  | base =>
    rw [writeUri, fromEscapedString_writeUriPlain_iff]
    simp [readBack, isWrittenAsNumber, hrules]
  | generic =>
    have htype : c.type = Tlv.genericNameComponent := by
      unfold typeRules at hrules
      split at hrules <;> simp_all
    have hc : c = generic c.value := ext htype rfl
    have hstable : fromEscapedString (writeUriEscapedValue c.value) = .ok (generic c.value) :=
      @uriStable_generic none .alternate rfl c.value
    have haccepted : c.Accepted := by
      rw [accepted_iff, hrules, htype]
      exact ⟨by decide, rfl⟩
    rw [writeUri, hstable, ← hc]
    simp [readBack, isWrittenAsNumber, hrules, haccepted, eq_comm]
  | sha256 typeName uriPrefix =>
    rw [writeUri, fromEscapedString_uriPrefix (.inl hrules), parseAltUriValue, hrules]
    simp only [fromHex_toHex]
    rw [create_self_eq_ok_iff]
    simp [readBack, isWrittenAsNumber, hrules]
  | decimal typeName uriPrefix =>
    rw [writeUri]
    cases hnumber : c.isNumber with
    | true =>
      rw [if_pos rfl, fromEscapedString_uriPrefix (.inr hrules), parseAltUriValue, hrules]
      dsimp only
      have hback : c.readBack =
          { c with value := Tlv.writeNonNegativeInteger (toNat c.value) } := by
        simp [readBack, isWrittenAsNumber, hrules, hnumber]
      -- the check of a number does not depend on the value
      have haccepted : c.Accepted ↔ c.readBack.Accepted := by
        rw [accepted_iff, accepted_iff, hback]
        dsimp only
        rw [hrules]
        rfl
      rw [parseDecimal_decimal (toNat_lt_of_isNumber hnumber), haccepted, ← create_self_eq_ok_iff,
        hback]
    | false =>
      rw [if_neg (by decide), fromEscapedString_writeUriPlain_iff]
      simp [readBack, isWrittenAsNumber, hrules, hnumber]

theorem uriStable_iff {env : Option Bool} {format : UriFormat} :
    c.UriStable env format ↔ c.Accepted ∧
      (wantAltUri env format = true → c.isWrittenAsNumber = true → c.HasShortestNumber) := by
  rw [UriStable, toUri]
  cases wantAltUri env format with
  | true =>
    rw [if_pos rfl, fromEscapedString_writeUri_iff, eq_comm (a := c), readBack_eq_self_iff]
    simp
  | false =>
    rw [if_neg (by decide), fromEscapedString_writeUriPlain_iff]
    simp

theorem exists_fromEscapedString_toUri_iff {env : Option Bool} {format : UriFormat} :
    (∃ d, fromEscapedString (c.toUri env format) = .ok d) ↔ c.Accepted := by
  rw [toUri]
  cases wantAltUri env format with
  | true => simp [fromEscapedString_writeUri_iff]
  | false => simp [fromEscapedString_writeUriPlain_iff]

end Component

namespace Name

theorem exists_mapM_toUri_iff {env : Option Bool} {format : UriFormat} {name : Name} :
    (∃ read, name.mapM (fun c => Component.fromEscapedString (c.toUri env format)) = .ok read) ↔
      ∀ c ∈ name, c.Accepted := by
  rw [Fallible.exists_mapM_iff]
  exact forall₂_congr fun c _ => Component.exists_fromEscapedString_toUri_iff

/-- A name is read back from its text exactly when all its components are accepted and, in the
alternate format, have their numbers in the shortest encoding. -/
theorem ofUri_toUri_eq_self_iff (env : Option Bool) (format : UriFormat) (name : Name) :
    ofUri (name.toUri env format) = .ok name ↔
      ∀ c ∈ name, c.Accepted ∧
        (wantAltUri env format = true → c.isWrittenAsNumber = true → c.HasShortestNumber) := by
  rw [ofUri_toUri, Fallible.mapM_eq_ok_iff, forall₂_same]
  exact forall₂_congr fun c _ => Component.uriStable_iff

/-- A segment component that holds the number 1 in two bytes is read back with one byte. -/
theorem ofUri_toUri_ne_self : ∃ c d : Component, c.Accepted ∧ d ≠ c ∧
    ofUri (toUri none .alternate [c]) = .ok [d] :=
  ⟨⟨Tlv.segmentNameComponent, [0, 1], by decide, by decide⟩,
    ⟨Tlv.segmentNameComponent, [1], by decide, by decide⟩, by decide, by decide, by decide⟩

end Name

end NdnFc
