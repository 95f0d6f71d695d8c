import Mathlib.Data.List.TakeWhile
import NdnFc.Lib.PercentEncoding
import NdnFc.Name.Basic
import NdnFc.Tlv.Number

/-!
# Names as URIs

The text of a name (`ndn-cxx/name.cpp`, `name-component.cpp`, `impl/name-component-types.hpp`) and
how a text is read as a name. The alternate format writes digests in hexadecimal and numbers of
typed components in decimal; the canonical format writes type and escaped value. Texts are lists of
characters below 256.
-/

namespace NdnFc

open List PercentEncoding

/-- `UriFormat`. The library's default is `envOrAlternate`. -/
inductive UriFormat where
  | canonical
  | alternate
  | envOrCanonical
  | envOrAlternate
deriving DecidableEq

/-- `wantAltUri`. The argument is what the environment variable `NDN_NAME_ALT_URI` asks for. -/
def wantAltUri (env : Option Bool) : UriFormat → Bool
  | .canonical => false
  | .alternate => true
  | .envOrCanonical => env.getD false
  | .envOrAlternate => env.getD true

/-! ### Numbers in texts -/

/-- `to_string` -/
def decimal (n : ℕ) : List Char :=
  Nat.toDigits 10 n

def isSpace (c : Char) : Bool :=
  c == ' ' || (9 ≤ c.toNat && c.toNat ≤ 13)

/-- A sign and the digits after it. -/
def readSign : List Char → Bool × List Char
  | '-' :: text => (true, text)
  | '+' :: text => (false, text)
  | text => (false, text)

/-- The number at the front of a text: spaces, a sign and digits. -/
def scanNumber (text : List Char) : Option (Bool × ℕ) :=
  let (negative, text) := readSign (text.dropWhile isSpace)
  let digits := text.takeWhile Char.isDigit
  if digits = [] then none else some (negative, Nat.ofDigitChars 10 digits 0)

/-- A 64-bit number with a sign. -/
def applySign (negative : Bool) (n : ℕ) : ℕ :=
  if negative then (2 ^ 64 - n) % 2 ^ 64 else n

/-- `strtoul`, with 64 bits. -/
def strtoul (text : List Char) : ℕ :=
  match scanNumber text with
  | none => 0
  | some (negative, n) => if 2 ^ 64 ≤ n then 2 ^ 64 - 1 else applySign negative n

namespace Component

variable (c : Component)

def isNumber : Bool :=
  c.value.length == 1 || c.value.length == 2 || c.value.length == 4 || c.value.length == 8

def toNumber : Except String ℕ :=
  if !c.isNumber then throw "Name component does not have nonNegativeInteger value"
  else Tlv.readNonNegativeInteger c.value

/-! ### Writing -/

def isAllPeriods (value : Bytes) : Bool :=
  value.all fun b => b == byteOf '.'

def writeUriEscapedValue (value : Bytes) : List Char :=
  (if isAllPeriods value then ['.', '.', '.'] else []) ++ escape value

/-- `ComponentType::writeUri` -/
def writeUriPlain : List Char :=
  decimal c.type ++ '=' :: writeUriEscapedValue c.value

/-- `writeUri` of the rules for the type. -/
def writeUri : TypeRules → List Char
  | .base => c.writeUriPlain
  | .generic => writeUriEscapedValue c.value
  | .sha256 _ uriPrefix => uriPrefix.toList ++ '=' :: toHex false c.value
  | .decimal _ uriPrefix =>
    if c.isNumber then uriPrefix.toList ++ '=' :: decimal (BigEndian.toNat c.value)
    else c.writeUriPlain

def toUri (env : Option Bool) (format : UriFormat) (c : Component) : List Char :=
  if wantAltUri env format then c.writeUri (typeRules c.type) else c.writeUriPlain

/-! ### Reading -/

variable (type : ℕ) (input : List Char)

def parseUriEscapedValue : Except String Component :=
  let value := unescape input
  if isAllPeriods value then
    if value.length < 3 then throw "Illegal URI (name component cannot be . or ..)"
    else create type (value.take (value.length - 3))
  else create type value

/-- `ComponentTypeTable::findByUriPrefix`: the type with this prefix. -/
def findByUriPrefix (uriPrefix : List Char) : Option ℕ :=
  [1, 2, 33, 34, 35, 36, 37].find? fun type =>
    match typeRules type with
    | .sha256 _ p => p.toList == uriPrefix
    | .decimal _ p => p.toList == uriPrefix
    | _ => false

/-- The value of a decimal component, `DecimalComponentType::parseAltUriValue`. -/
def parseDecimal (typeName : String) (input : List Char) : Except String Component :=
  match scanNumber input with
  | none => throw ("Cannot convert to " ++ typeName ++ " (invalid format)")
  | some (negative, n) =>
    if 2 ^ 64 ≤ n then throw ("Cannot convert to " ++ typeName ++ " (out of range)")
    else if decimal (applySign negative n) ≠ input then
      throw ("Cannot convert to " ++ typeName ++ " (invalid format)")
    else create type (Tlv.writeNonNegativeInteger (applySign negative n))

/-- `parseAltUriValue`. Only the digest and the number types have an alternate format. -/
def parseAltUriValue : Except String Component :=
  match typeRules type with
  | .sha256 typeName _ =>
    match fromHex input with
    | none => throw ("Cannot convert to " ++ typeName ++ " (invalid hex encoding)")
    | some value => create type value
  | .decimal typeName _ => parseDecimal type typeName input
  | _ => throw ""

/-- A component with a type in front of an equals sign. -/
def fromTypedString (typePrefix text : List Char) : Except String Component :=
  let type := strtoul typePrefix
  if Tlv.nameComponentMin ≤ type ∧ type ≤ Tlv.nameComponentMax ∧ decimal type = typePrefix then
    parseUriEscapedValue type text
  else
    match findByUriPrefix typePrefix with
    | none =>
      throw ("Unknown TLV-TYPE '" ++ String.ofList typePrefix ++ "' in NameComponent URI")
    | some type => parseAltUriValue type text

def fromEscapedString : Except String Component :=
  match input.dropWhile (· != '=') with
  | [] => parseUriEscapedValue Tlv.genericNameComponent input
  | _ :: text => fromTypedString (input.takeWhile (· != '=')) text

/-- The component is read back from its text. -/
def UriStable (env : Option Bool) (format : UriFormat) (c : Component) : Prop :=
  fromEscapedString (c.toUri env format) = .ok c

instance (env : Option Bool) (format : UriFormat) (c : Component) :
    Decidable (c.UriStable env format) :=
  inferInstanceAs (Decidable (fromEscapedString (c.toUri env format) = .ok c))

/-! ### The characters of a text -/

theorem notMem_decimal {c : Char} (h : c.isDigit = false) (n : ℕ) : c ∉ decimal n := by
  intro hc
  rw [Nat.isDigit_of_mem_toDigits (by decide) (by decide) hc] at h
  cases h

theorem notMem_writeUriEscapedValue {c : Char} (h : isUnreserved c = false) (hc : c ≠ '%')
    (value : Bytes) : c ∉ writeUriEscapedValue value := by
  have hperiod : c ≠ '.' := by
    rintro rfl
    exact absurd h (by decide)
  have hescape : c ∉ escape value := by
    intro hmem
    rcases isUnreserved_or_eq_of_mem_escape hmem with hu | rfl
    · rw [h] at hu
      cases hu
    · exact hc rfl
  unfold writeUriEscapedValue
  split <;> simp [hperiod, hescape]

/-- The characters that separate components and a scheme. -/
def IsSeparator (ch : Char) : Prop :=
  ch = '/' ∨ ch = ':'

variable {ch : Char}

theorem IsSeparator.isUnreserved (h : IsSeparator ch) : isUnreserved ch = false := by
  rcases h with rfl | rfl <;> decide

theorem IsSeparator.notMem_decimal (h : IsSeparator ch) (n : ℕ) : ch ∉ decimal n := by
  rcases h with rfl | rfl <;> exact notMem_decimal (by decide) n

theorem IsSeparator.notMem_writeUriEscapedValue (h : IsSeparator ch) (value : Bytes) :
    ch ∉ writeUriEscapedValue value := by
  refine Component.notMem_writeUriEscapedValue h.isUnreserved ?_ value
  rcases h with rfl | rfl <;> decide

theorem IsSeparator.notMem_writeUriPlain (h : IsSeparator ch) (c : Component) :
    ch ∉ c.writeUriPlain := by
  have hequals : ch ≠ '=' := by rcases h with rfl | rfl <;> decide
  simp [writeUriPlain, hequals, h.notMem_decimal, h.notMem_writeUriEscapedValue]

theorem IsSeparator.notMem_of_typeRules (hch : IsSeparator ch) {type : ℕ}
    {typeName uriPrefix : String}
    (h : typeRules type = .sha256 typeName uriPrefix ∨ typeRules type = .decimal typeName uriPrefix) :
    ch ∉ uriPrefix.toList := by
  unfold typeRules at h
  split at h <;> simp at h
  all_goals
    obtain ⟨-, rfl⟩ := h
    rcases hch with rfl | rfl <;> decide

theorem IsSeparator.notMem_toUri (h : IsSeparator ch) (env : Option Bool) (format : UriFormat)
    (c : Component) : ch ∉ c.toUri env format := by
  have hequals : ch ≠ '=' := by rcases h with rfl | rfl <;> decide
  unfold toUri
  split
  next =>
    cases hrules : typeRules c.type with
    | base => exact h.notMem_writeUriPlain c
    | generic => exact h.notMem_writeUriEscapedValue c.value
    | sha256 typeName uriPrefix =>
      have hprefix := h.notMem_of_typeRules (.inl hrules)
      have hhex : ch ∉ toHex false c.value := by
        intro hmem
        have hunreserved := isUnreserved_of_mem_toHex hmem
        rw [h.isUnreserved] at hunreserved
        cases hunreserved
      simp [writeUri, hequals, hprefix, hhex]
    | decimal typeName uriPrefix =>
      rw [writeUri]
      split
      next =>
        have hprefix := h.notMem_of_typeRules (.inr hrules)
        simp [hequals, hprefix, h.notMem_decimal]
      next => exact h.notMem_writeUriPlain c
  next => exact h.notMem_writeUriPlain c

theorem slash_notMem_toUri (env : Option Bool) (format : UriFormat) (c : Component) :
    '/' ∉ c.toUri env format :=
  IsSeparator.notMem_toUri (.inl rfl) env format c

theorem writeUriEscapedValue_ne_nil (value : Bytes) : writeUriEscapedValue value ≠ [] := by
  cases value with
  | nil => decide
  | cons b value =>
    have hbyte : escapeByte b ≠ [] := by
      unfold escapeByte
      split <;> simp
    simp [writeUriEscapedValue, escape, hbyte]

theorem toUri_ne_nil (env : Option Bool) (format : UriFormat) (c : Component) :
    c.toUri env format ≠ [] := by
  have hplain : c.writeUriPlain ≠ [] := by simp [writeUriPlain]
  unfold toUri
  split
  next =>
    cases typeRules c.type with
    | base => exact hplain
    | generic => exact writeUriEscapedValue_ne_nil c.value
    | sha256 typeName uriPrefix => simp [writeUri]
    | decimal typeName uriPrefix =>
      rw [writeUri]
      split
      · simp
      · exact hplain
  next => exact hplain

/-! ### Reading generic components -/

theorem parseUriEscapedValue_write (type : ℕ) (value : Bytes) :
    parseUriEscapedValue type (writeUriEscapedValue value) = create type value := by
  unfold parseUriEscapedValue writeUriEscapedValue
  split
  next hall =>
    have hunescape : unescape (['.', '.', '.'] ++ escape value) =
        byteOf '.' :: byteOf '.' :: byteOf '.' :: value := by
      rw [cons_append, unescape_cons_of_ne (by decide), cons_append,
        unescape_cons_of_ne (by decide), cons_append, unescape_cons_of_ne (by decide),
        nil_append, unescape_escape]
    have hperiods : isAllPeriods (byteOf '.' :: byteOf '.' :: byteOf '.' :: value) = true := by
      simpa [isAllPeriods] using hall
    have hvalue : value = List.replicate value.length (byteOf '.') :=
      eq_replicate_of_mem fun b hb => by simpa using all_eq_true.mp hall b hb
    rw [hunescape, if_pos hperiods, if_neg (by simp)]
    congr 1
    rw [hvalue, ← replicate_succ, ← replicate_succ, ← replicate_succ]
    simp
    omega
  next hall =>
    rw [nil_append, unescape_escape, if_neg hall]

theorem uriStable_generic {env : Option Bool} {format : UriFormat}
    (halt : wantAltUri env format = true) (value : Bytes) :
    (generic value).UriStable env format := by
  have htext : (generic value).toUri env format = writeUriEscapedValue value := by
    rw [toUri, if_pos halt]
    rfl
  have hequals : ∀ c ∈ writeUriEscapedValue value, (c != '=') = true := by
    intro c hc
    rw [bne_iff_ne]
    rintro rfl
    exact notMem_writeUriEscapedValue (by decide) (by decide) value hc
  rw [UriStable, htext, fromEscapedString, dropWhile_eq_nil_iff.mpr hequals,
    parseUriEscapedValue_write]
  exact create_eq_ok_iff.mpr ⟨rfl, rfl, by decide, rfl⟩

end Component

namespace Name

variable (env : Option Bool) (format : UriFormat)

def toUri (name : Name) : List Char :=
  if name = [] then ['/'] else name.flatMap fun c => '/' :: c.toUri env format

/-- A scheme in front of the first slash is left out. -/
def stripScheme (uri : List Char) : List Char :=
  if ':' ∈ uri ∧ '/' ∉ uri.takeWhile (· != ':') then (uri.dropWhile (· != ':')).drop 1 else uri

/-- A leading slash is left out, and an authority after two slashes. -/
def stripAuthority : List Char → List Char
  | '/' :: '/' :: text => (text.dropWhile (· != '/')).drop 1
  | '/' :: text => text
  | text => text

/-- The parts of a text between slashes. There is none after a slash at the end. -/
def pieces (text : List Char) : List (List Char) :=
  let parts := text.splitOn '/'
  if parts.getLast? = some [] then parts.dropLast else parts

/-- `Name(uri)` -/
def ofUri (uri : List Char) : Except String Name :=
  (pieces (stripAuthority (stripScheme uri))).mapM Component.fromEscapedString

theorem toUri_eq (name : Name) :
    name.toUri env format = '/' :: ['/'].intercalate (name.map (Component.toUri env format)) := by
  have hflat : ∀ (c : Component) (name : Name),
      ((c :: name).flatMap fun c => '/' :: c.toUri env format) =
      '/' :: ['/'].intercalate ((c :: name).map (Component.toUri env format)) := by
    intro c name
    induction name generalizing c with
    | nil => simp
    | cons d name ih =>
      rw [flatMap_cons, ih d]
      simp [intercalate_cons_cons]
  cases name with
  | nil => rfl
  | cons c name =>
    rw [toUri, if_neg (cons_ne_nil c name)]
    exact hflat c name

theorem stripScheme_cons_slash (text : List Char) : stripScheme ('/' :: text) = '/' :: text := by
  simp [stripScheme]

theorem pieces_intercalate {parts : List (List Char)}
    (h : ∀ part ∈ parts, part ≠ [] ∧ '/' ∉ part) : pieces (['/'].intercalate parts) = parts := by
  cases parts with
  | nil => rfl
  | cons part parts =>
    have hsplit := splitOn_intercalate '/' (fun part hpart => (h part hpart).2)
      (cons_ne_nil part parts)
    have hlast : (part :: parts).getLast? ≠ some [] := by
      intro hlast
      exact (h [] (mem_of_getLast? hlast)).1 rfl
    rw [pieces, hsplit]
    exact if_neg hlast

theorem ofUri_cons_intercalate {parts : List (List Char)}
    (h : ∀ part ∈ parts, part ≠ [] ∧ '/' ∉ part) :
    ofUri ('/' :: ['/'].intercalate parts) = parts.mapM Component.fromEscapedString := by
  have hauthority : stripAuthority ('/' :: ['/'].intercalate parts) = ['/'].intercalate parts := by
    cases parts with
    | nil => rfl
    | cons part parts =>
      obtain ⟨hne, hslash⟩ := h part mem_cons_self
      cases part with
      | nil => exact absurd rfl hne
      | cons c part =>
        have hc : c ≠ '/' := by
          rintro rfl
          exact hslash mem_cons_self
        have hhead : ∃ text, ['/'].intercalate ((c :: part) :: parts) = c :: text := by
          cases parts with
          | nil => exact ⟨part, by simp⟩
          | cons _ _ => exact ⟨_, by rw [intercalate_cons_cons, cons_append]; rfl⟩
        obtain ⟨text, htext⟩ := hhead
        rw [htext, stripAuthority]
        simpa using hc
  rw [ofUri, stripScheme_cons_slash, hauthority, pieces_intercalate h]

theorem toUri_parts {env : Option Bool} {format : UriFormat} {name : Name} {part : List Char}
    (h : part ∈ name.map (Component.toUri env format)) : part ≠ [] ∧ '/' ∉ part := by
  obtain ⟨c, -, rfl⟩ := mem_map.mp h
  exact ⟨c.toUri_ne_nil env format, c.slash_notMem_toUri env format⟩

theorem ofUri_toUri (name : Name) :
    ofUri (name.toUri env format) =
      name.mapM fun c => Component.fromEscapedString (c.toUri env format) := by
  rw [toUri_eq, ofUri_cons_intercalate fun part hpart => toUri_parts hpart, mapM_map]
  rfl

theorem ofUri_component (c : Component) :
    ofUri (c.toUri env format) =
      [c].mapM fun c => Component.fromEscapedString (c.toUri env format) := by
  have hslash := c.slash_notMem_toUri env format
  have hcolon : ':' ∉ c.toUri env format :=
    Component.IsSeparator.notMem_toUri (.inr rfl) env format c
  have hscheme : stripScheme (c.toUri env format) = c.toUri env format := by
    simp [stripScheme, hcolon]
  have hauthority : stripAuthority (c.toUri env format) = c.toUri env format := by
    unfold stripAuthority
    split <;> simp_all
  have hpieces : pieces (['/'].intercalate [c.toUri env format]) = [c.toUri env format] :=
    pieces_intercalate fun part hpart => by simp_all [c.toUri_ne_nil env format]
  rw [intercalate_singleton] at hpieces
  rw [ofUri, hscheme, hauthority, hpieces]
  rfl

end Name

end NdnFc
