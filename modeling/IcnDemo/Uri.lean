import IcnDemo.Lib.Hex
import IcnDemo.NameOrder
import Mathlib.Data.List.TakeWhile

/-!
# The URI of a name

`Name::toUri` writes the components one after the other, each behind a slash.  Bytes other than
letters, digits and four signs are escaped, three periods are put before a component that has
nothing but periods in it, and a digest is written in hexadecimal behind a prefix.
`Name::construct` undoes this.  It also accepts a scheme and an authority in front, and blanks
around the components, which `toUri` never writes: it writes only `plain` characters, that is,
none with a meaning of its own.

Strings are lists of bytes.
-/

namespace IcnDemo

open List

namespace Uri

/-- Characters with a meaning. -/
def percent : UInt8 := 0x25

/-- The character `.`. -/
def period : UInt8 := 0x2E

/-- The character `/`. -/
def slash : UInt8 := 0x2F

/-- The character `:`. -/
def colon : UInt8 := 0x3A

/-- `sha256digest=`. -/
def sha256DigestUriPrefix : List UInt8 :=
  [0x73, 0x68, 0x61, 0x32, 0x35, 0x36, 0x64, 0x69, 0x67, 0x65, 0x73, 0x74, 0x3D]

/-- `isspace` in the classic locale. -/
def isSpace (b : UInt8) : Bool :=
  b == 32 || (9 ≤ b.toNat && b.toNat ≤ 13)

/-- `trim`. -/
def trim (s : List UInt8) : List UInt8 :=
  ((s.dropWhile isSpace).reverse.dropWhile isSpace).reverse

/-- `unescape`.  A percent sign with no two hexadecimal digits after it stands for itself. -/
def unescape : List UInt8 → List UInt8
  | [] => []
  | [a] => [a]
  | [a, b] => [a, b]
  | a :: b :: c :: rest =>
    if a = percent then
      match Hex.ofDigit b, Hex.ofDigit c with
      | some hi, some lo => UInt8.ofNat (16 * hi + lo) :: unescape rest
      | _, _ => a :: b :: c :: unescape rest
    else a :: unescape (b :: c :: rest)

/-- `fromHex`, `none` when it throws.  The decoder skips what is not a digit, which the check of the
size finds out. -/
def fromHex (s : List UInt8) : Option (List UInt8) :=
  if s.length % 2 ≠ 0 then none
  else
    let bytes := Hex.pairs (s.filterMap Hex.ofDigit)
    if bytes.length * 2 ≠ s.length then none else some bytes

end Uri

namespace Component

open Uri

/-- `Component::fromEscapedString`, `none` when it throws. -/
def fromEscapedString (escaped : List UInt8) : Option Component :=
  let trimmed := trim escaped
  if sha256DigestUriPrefix <+: trimmed then
    if trimmed.length ≠ sha256DigestUriPrefix.length + 64 then none
    else (fromHex (trimmed.drop sha256DigestUriPrefix.length)).map implicitDigest
  else
    let value := unescape trimmed
    if value.all (· == period) then
      if value.length ≤ 2 then none else some (generic (value.drop 3))
    else some (generic value)

/-- The bytes that `toUri` writes as they are: letters, digits, plus, minus, period, underscore. -/
def isUnescaped (x : UInt8) : Bool :=
  (0x30 ≤ x.toNat && x.toNat ≤ 0x39) || (0x41 ≤ x.toNat && x.toNat ≤ 0x5A) ||
    (0x61 ≤ x.toNat && x.toNat ≤ 0x7A) || x == 0x2B || x == 0x2D || x == 0x2E || x == 0x5F

/-- One byte in `toUri`. -/
def escapeByte (x : UInt8) : List UInt8 :=
  if isUnescaped x then [x] else percent :: Hex.ofByte true x

/-- `Component::toUri`. -/
def toUri (c : Component) : List UInt8 :=
  if c.type = Tlv.implicitSha256DigestComponent then
    sha256DigestUriPrefix ++ c.value.flatMap (Hex.ofByte false)
  else if c.value.all (· == period) then replicate (3 + c.value.length) period
  else c.value.flatMap escapeByte

end Component

namespace Name

open Uri

/-- `Name::toUri`. -/
def toUri (n : Name) : List UInt8 :=
  if n.isEmpty then [slash] else n.flatMap fun c => slash :: c.toUri

/-- A colon before the first slash ends the scheme. -/
def stripScheme (uri : List UInt8) : List UInt8 :=
  let head := uri.takeWhile (· != slash)
  if colon ∈ head then trim ((uri.dropWhile (· != colon)).drop 1) else uri

/-- The leading slash, and the authority behind two of them; `none` when there is nothing else. -/
def stripAuthority : List UInt8 → Option (List UInt8)
  | a :: b :: rest =>
    if a = slash then
      if b = slash then
        match rest.dropWhile (· != slash) with
        | [] => none
        | _ :: path => some (trim path)
      else some (trim (b :: rest))
    else some (a :: b :: rest)
  | [a] => if a = slash then some [] else some [a]
  | [] => some []

/-- The parts between slashes.  Nothing follows a slash at the end. -/
def splitComponents (part : List UInt8) : List UInt8 → List (List UInt8)
  | [] => if part.isEmpty then [] else [part]
  | b :: rest =>
    if b = slash then part :: splitComponents [] rest else splitComponents (part ++ [b]) rest

/-- The constructor of a name from a URI, `none` when it throws.  The string ends at a NUL. -/
def construct (uriOrig : List UInt8) : Option Name :=
  let uri := trim (uriOrig.takeWhile (· != 0))
  if uri.isEmpty then some []
  else
    match stripAuthority (stripScheme uri) with
    | none => some []
    | some path => (splitComponents [] path).mapM Component.fromEscapedString

end Name

/-! ### Characters -/

namespace Uri

/-- A character that means itself everywhere in a URI. -/
def plain (b : UInt8) : Bool :=
  b != 0 && !isSpace b && b != colon && b != slash

/-- There is nothing to trim without spaces. -/
theorem trim_eq_self {s : List UInt8} (h : ∀ b ∈ s, isSpace b = false) : trim s = s := by
  have hdrop : ∀ l : List UInt8, (∀ b ∈ l, isSpace b = false) → l.dropWhile isSpace = l := by
    simp_all
  grind [trim]

/-- A plain character is no space. -/
theorem isSpace_of_plain {b : UInt8} (h : plain b = true) : isSpace b = false := by
  simp [plain] at h
  exact h.1.1.2

/-- A plain character is no slash. -/
theorem ne_slash_of_plain {b : UInt8} (h : plain b = true) : b ≠ slash := by
  simp [plain] at h
  exact h.2

/-- A property of octets is checked for all of them. -/
theorem forall_byte {p : UInt8 → Bool} (h : ∀ k : Fin 256, p (UInt8.ofNat k.val) = true)
    (b : UInt8) : p b = true := by
  have hb := h ⟨b.toNat, b.toNat_lt⟩
  rwa [UInt8.ofNat_toNat] at hb

end Uri

namespace Component

open Uri

/-- Escaped octets are plain. -/
theorem plain_escapeByte (b : UInt8) : (escapeByte b).all plain = true :=
  forall_byte (p := fun b => (escapeByte b).all plain) (by decide +kernel) b

/-- Hexadecimal digits are plain. -/
theorem plain_ofByte (b : UInt8) : (Hex.ofByte false b).all plain = true :=
  forall_byte (p := fun b => (Hex.ofByte false b).all plain) (by decide +kernel) b

/-- The URI of a component is plain. -/
theorem plain_toUri (c : Component) : ∀ b ∈ c.toUri, plain b = true := by
  intro b hb
  unfold toUri at hb
  split at hb
  · rcases mem_append.mp hb with hb | hb
    · have hprefix : sha256DigestUriPrefix.all plain = true := by decide
      exact all_eq_true.mp hprefix b hb
    · grind [plain_ofByte]
  split at hb
  · rw [eq_of_mem_replicate hb]
    decide
  · grind [plain_escapeByte]

/-- The URI of a component is not empty. -/
theorem toUri_ne_nil (c : Component) : c.toUri ≠ [] := by
  unfold toUri
  split
  · simp [sha256DigestUriPrefix]
  split
  · simp
  rename_i hdots
  cases hv : c.value with
  | nil => simp [hv] at hdots
  | cons x xs =>
    rw [flatMap_cons]
    unfold escapeByte
    split <;> simp

/-! ### One component -/

/-- Other characters stand for themselves. -/
theorem unescape_cons {a : UInt8} (h : a ≠ percent) (rest : List UInt8) :
    unescape (a :: rest) = a :: unescape rest := by
  rcases rest with _ | ⟨b, _ | ⟨c, rest⟩⟩
  · rfl
  · rfl
  · simp [unescape, h]

/-- An octet is read back. -/
theorem unescape_escapeByte (x : UInt8) (rest : List UInt8) :
    unescape (escapeByte x ++ rest) = x :: unescape rest := by
  unfold escapeByte
  by_cases hx : isUnescaped x = true
  · have hne : x ≠ percent := by
      rintro rfl
      revert hx
      decide
    rw [if_pos hx]
    exact unescape_cons hne rest
  · rw [if_neg hx]
    have hbyte := Hex.ofNat_digits x
    simp [Hex.ofByte, unescape, Hex.ofDigit_digit true (Hex.div_lt x),
      Hex.ofDigit_digit true (Hex.mod_lt x), hbyte]

/-- Octets are read back. -/
theorem unescape_flatMap_escapeByte (v : List UInt8) : unescape (v.flatMap escapeByte) = v := by
  induction v with
  | nil => rfl
  | cons x v ih => rw [flatMap_cons, unescape_escapeByte, ih]

/-- An escaped component does not begin like a digest, because the equals sign is escaped. -/
theorem not_digest_of_plain_value (v : List UInt8) :
    ¬ sha256DigestUriPrefix <+: v.flatMap escapeByte := by
  intro h
  have hmem : (0x3D : UInt8) ∈ v.flatMap escapeByte := h.subset (by decide)
  obtain ⟨x, -, hx⟩ := mem_flatMap.mp hmem
  have hall := forall_byte (p := fun x => !(escapeByte x).contains 0x3D) (by decide +kernel) x
  simp at hall
  exact hall hx

/-- A digest is read back. -/
theorem fromHex_flatMap_ofByte (v : List UInt8) :
    fromHex (v.flatMap (Hex.ofByte false)) = some v := by
  unfold fromHex
  grind [Hex.length_flatMap_ofByte, Hex.pairs_ofByte]

/-- Periods are read back. -/
theorem unescape_replicate_period (k : ℕ) :
    unescape (replicate k period) = replicate k period := by
  induction k with
  | zero => rfl
  | succ k ih => rw [replicate_succ, unescape_cons (by decide), ih]

/-- A component is read back. -/
theorem fromEscapedString_toUri {c : Component} (hc : c.WellFormed) :
    fromEscapedString c.toUri = some c := by
  have htrim : trim c.toUri = c.toUri :=
    trim_eq_self fun b hb => isSpace_of_plain (c.plain_toUri b hb)
  unfold fromEscapedString
  simp only [htrim]
  rcases hc with hgeneric | hdigest
  · have htype : c.type = Tlv.nameComponent := by simpa [isGeneric] using hgeneric
    have hne : c.type ≠ Tlv.implicitSha256DigestComponent := by
      rw [htype]
      decide
    have hc : c = generic c.value := by
      cases c
      simp only at htype
      rw [htype]
      rfl
    by_cases hdots : c.value.all (· == period) = true
    · have huri : c.toUri = replicate (3 + c.value.length) period := by
        unfold toUri
        rw [if_neg hne, if_pos hdots]
      have hnot : ¬ sha256DigestUriPrefix <+: replicate (3 + c.value.length) period := by
        intro h
        have hmem : (0x3D : UInt8) ∈ replicate (3 + c.value.length) period :=
          h.subset (by decide)
        exact absurd (eq_of_mem_replicate hmem) (by decide)
      have hvalue : c.value = replicate c.value.length period :=
        eq_replicate_iff.mpr ⟨rfl, fun b hb => by
          simpa using all_eq_true.mp hdots b hb⟩
      rw [huri, if_neg hnot, unescape_replicate_period]
      have hall : (replicate (3 + c.value.length) period).all (· == period) = true := by
        simp
      grind
    · grind [toUri, not_digest_of_plain_value, unescape_flatMap_escapeByte]
  · have hboth : c.type = Tlv.implicitSha256DigestComponent ∧ c.value.length = 32 := by
      simpa [isImplicitSha256Digest] using hdigest
    have huri : c.toUri = sha256DigestUriPrefix ++ c.value.flatMap (Hex.ofByte false) := by
      unfold toUri
      rw [if_pos hboth.1]
    have hlen := Hex.length_flatMap_ofByte false c.value
    rw [huri, if_pos (prefix_append _ _), if_neg (by
      rw [length_append, hlen, hboth.2]
      simp), drop_left, fromHex_flatMap_ofByte]
    cases c
    simp only at hboth
    simp [implicitDigest, hboth.1]

end Component

/-! ### Names -/

namespace Name

open Uri

/-- A slash ends a part. -/
theorem splitComponents_append {part s rest : List UInt8} (hs : ∀ b ∈ s, b ≠ slash) :
    splitComponents part (s ++ slash :: rest) = (part ++ s) :: splitComponents [] rest := by
  induction s generalizing part with
  | nil => simp [splitComponents]
  | cons b s ih => grind [splitComponents]

/-- The last part needs no slash. -/
theorem splitComponents_last {part s : List UInt8} (hs : ∀ b ∈ s, b ≠ slash)
    (hne : part ++ s ≠ []) : splitComponents part s = [part ++ s] := by
  induction s generalizing part with
  | nil =>
    rw [append_nil] at hne ⊢
    simp [splitComponents, hne]
  | cons b s ih => grind [splitComponents]

/-- The URI of a name is split into the URIs of its components. -/
theorem splitComponents_toUri (c : Component) (n : Name) :
    splitComponents [] (c.toUri ++ n.flatMap fun c => slash :: c.toUri) =
      c.toUri :: n.map Component.toUri := by
  have hslash : ∀ c : Component, ∀ b ∈ c.toUri, b ≠ slash := fun c b hb =>
    ne_slash_of_plain (c.plain_toUri b hb)
  induction n generalizing c with
  | nil => grind [splitComponents_last, c.toUri_ne_nil]
  | cons d n ih =>
    rw [flatMap_cons, cons_append, splitComponents_append (hslash c), ih]
    rfl

/-- All components are read back. -/
theorem mapM_fromEscapedString {n : Name} (h : n.WellFormed) :
    (n.map Component.toUri).mapM Component.fromEscapedString = some n := by
  induction n with
  | nil => rfl
  | cons c n ih =>
    have hc := Component.fromEscapedString_toUri (h c mem_cons_self)
    have hn := ih fun x hx => h x (mem_cons_of_mem c hx)
    simp [hc, hn]

/-- The URI of a name is plain but for slashes. -/
theorem plain_or_slash (n : Name) : ∀ b ∈ n.toUri, plain b = true ∨ b = slash := by
  intro b hb
  unfold toUri at hb
  split at hb
  · exact .inr (mem_singleton.mp hb)
  · obtain ⟨c, -, hc⟩ := mem_flatMap.mp hb
    grind [c.plain_toUri]

/-- The URI of a name has no zero, space or colon. -/
theorem toUri_chars (n : Name) :
    ∀ b ∈ n.toUri, (b != 0) = true ∧ isSpace b = false ∧ b ≠ colon := by
  intro b hb
  rcases n.plain_or_slash b hb with h | rfl
  · grind [plain]
  · decide

/-- A name is read back from its URI. -/
theorem construct_toUri {n : Name} (h : n.WellFormed) : construct n.toUri = some n := by
  have hchars := n.toUri_chars
  have hnul : n.toUri.takeWhile (· != 0) = n.toUri :=
    takeWhile_eq_self_iff.mpr fun b hb => (hchars b hb).1
  have htrim : trim n.toUri = n.toUri := trim_eq_self fun b hb => (hchars b hb).2.1
  have hscheme : stripScheme n.toUri = n.toUri := by grind [takeWhile_sublist, stripScheme]
  unfold construct
  simp only [hnul, htrim, hscheme]
  rcases n with _ | ⟨c, n⟩
  · rfl
  have huri : toUri (c :: n) = slash :: (c.toUri ++ n.flatMap fun c => slash :: c.toUri) := rfl
  -- the first character behind the slash is plain, so there is no authority
  obtain ⟨b, s, hbs⟩ := exists_cons_of_ne_nil c.toUri_ne_nil
  have hb : b ≠ slash := ne_slash_of_plain (c.plain_toUri b (by simp [hbs]))
  have hrest : ∀ x ∈ c.toUri ++ n.flatMap (fun c => slash :: c.toUri), isSpace x = false :=
    fun x hx => (hchars x (by rw [huri]; exact mem_cons_of_mem _ hx)).2.1
  have hauthority : stripAuthority (toUri (c :: n)) =
      some (c.toUri ++ n.flatMap fun c => slash :: c.toUri) := by
    grind [stripAuthority, trim_eq_self]
  rw [hauthority, huri]
  simp only [isEmpty_cons, Bool.false_eq_true, if_false, splitComponents_toUri]
  exact mapM_fromEscapedString h

/-- The URI of a name that the library can construct is read back as the same name; so different
names have different URIs. -/
theorem construct_toUri_and_injective (n : Name) (hn : n.WellFormed) :
    construct n.toUri = some n ∧ ∀ m : Name, m.WellFormed → m.toUri = n.toUri → m = n := by
  refine ⟨construct_toUri hn, fun m hm heq => ?_⟩
  grind [construct_toUri]

/-- Names that are hard to write: an empty component, two periods, a text like that of a digest, and
a digest. -/
theorem construct_toUri_and_injective_hard : construct (toUri [.generic [], .generic [0x2E, 0x2E],
      .generic (sha256DigestUriPrefix ++ [0x61]), .implicitDigest (replicate 32 0xFF)]) =
      some [.generic [], .generic [0x2E, 0x2E], .generic (sha256DigestUriPrefix ++ [0x61]),
        .implicitDigest (replicate 32 0xFF)] :=
  (construct_toUri_and_injective _ (by decide +kernel)).1

end Name

end IcnDemo
