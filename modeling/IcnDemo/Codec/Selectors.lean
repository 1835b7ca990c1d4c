import IcnDemo.Codec.Exclude
import IcnDemo.FullNameMatch

/-!
# Selectors

A selector that is not set is not written, and decoding begins with no selectors, so that a negative
number is read back as −1.  The key locator and the filter are written by their own functions.
-/

namespace IcnDemo.Codec

open Option Block Prepend

/-- `Selectors`. -/
structure Selectors where
  minSuffixComponents : Int32 := -1
  maxSuffixComponents : Int32 := -1
  publisherPublicKeyLocator : KeyLocator := .none
  exclude : Exclude := Exclude.none
  childSelector : Int32 := -1
  mustBeFresh : Bool := false
deriving DecidableEq

namespace Selectors

/-- `Selectors::empty`. -/
def isEmpty (s : Selectors) : Bool :=
  decide (s.minSuffixComponents < 0) && decide (s.maxSuffixComponents < 0) &&
    decide (s.publisherPublicKeyLocator = .none) && s.exclude.isEmpty &&
    decide (s.childSelector < 0) && !s.mustBeFresh

/-- A number is written if it is not negative. -/
def writeNumber (type : ℕ) (n : Int32) : Prepend :=
  onlyIf (0 ≤ n) (nonNegativeIntegerBlock type n.toInt64.toUInt64)

/-- The filter is written if it is not empty. -/
def writeExclude (s : Selectors) : Option Prepend :=
  if s.exclude.isEmpty then some nothing else s.exclude.wireEncode

/-- The key locator is written if it is not empty. -/
def writeKeyLocator (s : Selectors) : Option Prepend :=
  if s.publisherPublicKeyLocator = .none then some nothing
  else s.publisherPublicKeyLocator.wireEncode

/-- `Selectors::wireEncode`, `none` when it throws. -/
def wireEncode (s : Selectors) : Option Prepend :=
  match s.writeExclude, s.writeKeyLocator with
  | some exclude, some keyLocator =>
    some (element Tlv.selectors
      ((((((onlyIf (s.mustBeFresh = true) (emptyBlock Tlv.mustBeFresh)).andThen
        (writeNumber Tlv.childSelector s.childSelector)).andThen exclude).andThen
        keyLocator).andThen (writeNumber Tlv.maxSuffixComponents s.maxSuffixComponents)).andThen
        (writeNumber Tlv.minSuffixComponents s.minSuffixComponents)))
  | _, _ => none

/-- A number is −1 if there is no element. -/
def readNumber : Option Block → Option Int32
  | none => some (-1)
  | some b => b.readNonNegativeInteger.map fun n => n.toInt64.toInt32

/-- No key locator if there is no element. -/
def readKeyLocator : Option Block → Option KeyLocator
  | none => some .none
  | some b => KeyLocator.wireDecode b

/-- The empty filter if there is no element. -/
def readExclude : Option Block → Option Exclude
  | none => some Exclude.none
  | some b => Exclude.wireDecode b

/-- `Selectors::wireDecode`, `none` when it throws. -/
def wireDecode (b : Block) : Option Selectors :=
  if b.type ≠ Tlv.selectors then none
  else do
    let elements ← Block.parse b.value
    let minSuffixComponents ← readNumber (Block.find elements Tlv.minSuffixComponents)
    let maxSuffixComponents ← readNumber (Block.find elements Tlv.maxSuffixComponents)
    let publisherPublicKeyLocator ← readKeyLocator (Block.find elements Tlv.keyLocator)
    let exclude ← readExclude (Block.find elements Tlv.exclude)
    let childSelector ← readNumber (Block.find elements Tlv.childSelector)
    let mustBeFresh := (Block.find elements Tlv.mustBeFresh).isSome
    some { minSuffixComponents, maxSuffixComponents, publisherPublicKeyLocator, exclude,
           childSelector, mustBeFresh }

/-! ### The elements -/

/-- The element of a number that is not negative. -/
def numberElement (type : ℕ) (n : Int32) : Option Block :=
  if 0 ≤ n then some (Block.make type (Tlv.nonNegativeInteger n.toInt64.toUInt64)) else none

/-- The element of the key locator, if there is one. -/
def keyLocatorElement (s : Selectors) : Option Block :=
  if s.publisherPublicKeyLocator = .none then none else some s.publisherPublicKeyLocator.block

/-- The element of the filter, if it is not empty. -/
def excludeElement (s : Selectors) : Option Block :=
  if s.exclude.isEmpty then none else some s.exclude.block

/-- The empty element, if fresh Data is wanted. -/
def mustBeFreshElement (s : Selectors) : Option Block :=
  if s.mustBeFresh = true then some (Block.make Tlv.mustBeFresh []) else none

/-- The elements of the value, in their order. -/
def fields (s : Selectors) : List (ℕ × Option Block) :=
  [(Tlv.minSuffixComponents, numberElement Tlv.minSuffixComponents s.minSuffixComponents),
   (Tlv.maxSuffixComponents, numberElement Tlv.maxSuffixComponents s.maxSuffixComponents),
   (Tlv.keyLocator, s.keyLocatorElement),
   (Tlv.exclude, s.excludeElement),
   (Tlv.childSelector, numberElement Tlv.childSelector s.childSelector),
   (Tlv.mustBeFresh, s.mustBeFreshElement)]

/-- The element that is written. -/
def block (s : Selectors) : Block :=
  Block.make Tlv.selectors ((Block.present s.fields).flatMap Block.wire)

/-- What setters make. -/
structure WellFormed (s : Selectors) : Prop where
  keyLocator : s.publisherPublicKeyLocator.WellFormed
  exclude : s.exclude.WellFormed

variable {s : Selectors} {type : ℕ} {n : Int32}

/-- The element of a number has its type and is valid. -/
theorem numberElement_spec (htype : type < 2 ^ 32) {b : Block} (hb : b ∈ numberElement type n) :
    b.type = type ∧ b.Valid := by
  have hlength := Tlv.length_nonNegativeInteger_le n.toInt64.toUInt64
  obtain ⟨-, hb⟩ := ite_none_right_eq_some.mp hb
  rw [← some.inj hb]
  exact ⟨rfl, valid_make htype (by omega)⟩

section

variable (hfits : s.block.Fits)

include hfits

/-- Each element has the type of its field and is valid. -/
theorem field_spec : ∀ field ∈ s.fields, ∀ b ∈ field.2, b.type = field.1 ∧ b.Valid := by
  intro field hfield b hb
  have hb' : b.Fits := hfits.element (mem_present.mpr ⟨field, hfield, hb⟩)
  simp only [fields, List.mem_cons, List.not_mem_nil, or_false] at hfield
  rcases hfield with rfl | rfl | rfl | rfl | rfl | rfl
  · exact numberElement_spec (by dsimp only; decide) hb
  · exact numberElement_spec (by dsimp only; decide) hb
  · obtain ⟨-, hb⟩ := ite_none_left_eq_some.mp hb
    rw [← some.inj hb] at hb' ⊢
    exact ⟨rfl, KeyLocator.valid_block hb'⟩
  · obtain ⟨-, hb⟩ := ite_none_left_eq_some.mp hb
    rw [← some.inj hb] at hb' ⊢
    exact ⟨rfl, Exclude.valid_block hb'⟩
  · exact numberElement_spec (by dsimp only; decide) hb
  · obtain ⟨-, hb⟩ := ite_none_right_eq_some.mp hb
    rw [← some.inj hb]
    exact ⟨rfl, valid_make (by decide) (by simp)⟩

/-- The fields have distinct types. -/
theorem labelled_fields : Block.Labelled s.fields where
  nodup := by
    rw [show s.fields.map Prod.fst = [13, 14, 28, 16, 17, 18] from rfl]
    decide
  type := fun field hfield b hb => (field_spec hfits field hfield b hb).1

/-- The elements are valid. -/
theorem valid_present : ∀ b ∈ present s.fields, b.Valid := by
  intro b hb
  obtain ⟨field, hfield, hb⟩ := mem_present.mp hb
  exact (field_spec hfits field hfield b hb).2

end

/-! ### Encoding -/

/-- A number is written. -/
theorem writesAll_writeNumber (htype : type < 2 ^ 32) (n : Int32) :
    (writeNumber type n).WritesAll (numberElement type n).toList :=
  Writes.onlyIf fun _ => writes_nonNegativeIntegerBlock htype n.toInt64.toUInt64

/-- The filter is written. -/
theorem exists_writeExclude (hs : s.WellFormed) (hfits : s.block.Fits) :
    ∃ f, s.writeExclude = some f ∧ f.WritesAll s.excludeElement.toList := by
  unfold writeExclude excludeElement
  rcases hempty : s.exclude.isEmpty with _ | _
  · have hblock : s.exclude.block.Fits := hfits.element (mem_present.mpr
      ⟨(Tlv.exclude, s.excludeElement), by simp [fields], by simp [excludeElement, hempty]⟩)
    obtain ⟨f, hf, hwrites⟩ := Exclude.exists_wireEncode hs.exclude hempty hblock
    exact ⟨f, by simp [hf], hwrites.all⟩
  · exact ⟨nothing, by simp, writes_nothing⟩

/-- The key locator of selectors that fit does fit. -/
theorem fits_keyLocator (hfits : s.block.Fits) (hset : s.publisherPublicKeyLocator ≠ .none) :
    s.publisherPublicKeyLocator.block.Fits :=
  hfits.element (mem_present.mpr
    ⟨(Tlv.keyLocator, s.keyLocatorElement), by simp [fields], by simp [keyLocatorElement, hset]⟩)

section

variable (hs : s.WellFormed) (hknown : s.publisherPublicKeyLocator ≠ .unknown)
  (hfits : s.block.Fits)

include hs hknown hfits

/-- The key locator is written. -/
theorem exists_writeKeyLocator :
    ∃ f, s.writeKeyLocator = some f ∧ f.WritesAll s.keyLocatorElement.toList := by
  unfold writeKeyLocator keyLocatorElement
  by_cases hset : s.publisherPublicKeyLocator = .none
  · exact ⟨nothing, by rw [if_pos hset], by rw [if_pos hset]; exact writes_nothing⟩
  · obtain ⟨f, hf, hwrites⟩ := KeyLocator.exists_wireEncode hs.keyLocator hknown
      (fits_keyLocator hfits hset)
    exact ⟨f, by rw [if_neg hset, hf], by rw [if_neg hset]; exact hwrites.all⟩

/-- The selectors are written. -/
theorem exists_wireEncode : ∃ f, s.wireEncode = some f ∧ f.Writes s.block.wire := by
  obtain ⟨exclude, hexclude, hwrites⟩ := exists_writeExclude hs hfits
  obtain ⟨keyLocator, hkeyLocator, hwrites'⟩ := exists_writeKeyLocator hs hknown hfits
  refine ⟨_, by rw [wireEncode, hexclude, hkeyLocator], ?_⟩
  have hfresh : (onlyIf (s.mustBeFresh = true) (emptyBlock Tlv.mustBeFresh)).WritesAll
      s.mustBeFreshElement.toList := Writes.onlyIf fun _ => writes_emptyBlock (by decide)
  have hmin := writesAll_writeNumber (show Tlv.minSuffixComponents < 2 ^ 32 by decide)
    s.minSuffixComponents
  have hmax := writesAll_writeNumber (show Tlv.maxSuffixComponents < 2 ^ 32 by decide)
    s.maxSuffixComponents
  have hchild := writesAll_writeNumber (show Tlv.childSelector < 2 ^ 32 by decide) s.childSelector
  have hvalue := ((((hfresh.andThen hchild).andThen hwrites).andThen hwrites').andThen hmax).andThen
    hmin
  have hpresent : present s.fields
      = (numberElement Tlv.minSuffixComponents s.minSuffixComponents).toList ++
        ((numberElement Tlv.maxSuffixComponents s.maxSuffixComponents).toList ++
        (s.keyLocatorElement.toList ++ (s.excludeElement.toList ++
        ((numberElement Tlv.childSelector s.childSelector).toList ++
        s.mustBeFreshElement.toList)))) := by
    simp [present, fields]
  rw [block, hpresent] at hfits ⊢
  exact hvalue.element (by decide) hfits

end

/-- An unknown key locator cannot be written. -/
theorem wireEncode_eq_none (h : s.publisherPublicKeyLocator = .unknown) : s.wireEncode = none := by
  have hlocator : s.writeKeyLocator = none := by
    rw [writeKeyLocator, h]
    rfl
  grind [wireEncode]

/-! ### Decoding -/

/-- A number as it is read back. -/
def rereadNumber (n : Int32) : Int32 :=
  if 0 ≤ n then n else -1

/-- Selectors as they are read back, with the filter that was read. -/
def reread (s : Selectors) (exclude : Exclude) : Selectors where
  minSuffixComponents := rereadNumber s.minSuffixComponents
  maxSuffixComponents := rereadNumber s.maxSuffixComponents
  publisherPublicKeyLocator := s.publisherPublicKeyLocator
  exclude := exclude
  childSelector := rereadNumber s.childSelector
  mustBeFresh := s.mustBeFresh

/-- A number is read back, a negative one as −1. -/
theorem readNumber_numberElement (type : ℕ) (n : Int32) :
    readNumber (numberElement type n) = some (rereadNumber n) := by
  unfold numberElement rereadNumber
  by_cases hn : 0 ≤ n
  · simp [hn, readNumber, readNonNegativeInteger, make]
  · simp [hn, readNumber]

/-- The key locator is read back. -/
theorem readKeyLocator_keyLocatorElement (hs : s.WellFormed)
    (hknown : s.publisherPublicKeyLocator ≠ .unknown) (hfits : s.block.Fits) :
    readKeyLocator s.keyLocatorElement = some s.publisherPublicKeyLocator := by
  unfold keyLocatorElement
  by_cases hset : s.publisherPublicKeyLocator = .none
  · rw [if_pos hset, hset]
    rfl
  · rw [if_neg hset]
    exact KeyLocator.wireDecode_block hs.keyLocator hknown (fits_keyLocator hfits hset)

/-- The filter is read back. -/
theorem readExclude_excludeElement : readExclude s.excludeElement = s.exclude.reread := by
  unfold excludeElement Exclude.reread
  rcases s.exclude.isEmpty with _ | _
  · rfl
  · rfl

/-- The empty element stands for the flag. -/
theorem isSome_mustBeFreshElement : s.mustBeFreshElement.isSome = s.mustBeFresh := by
  unfold mustBeFreshElement
  rcases s.mustBeFresh with _ | _
  · rfl
  · rfl

/-- The element is decoded field by field. -/
theorem wireDecode_block (hs : s.WellFormed) (hknown : s.publisherPublicKeyLocator ≠ .unknown)
    (hfits : s.block.Fits) : wireDecode s.block = s.exclude.reread.map s.reread := by
  have hparse : parse s.block.value = some (present s.fields) :=
    parse_flatMap (valid_present hfits)
  have hfind := (labelled_fields hfits).find_present
  generalize present s.fields = elements at hparse hfind
  simp only [fields, List.forall_mem_cons] at hfind
  obtain ⟨hmin, hmax, hlocator, hexclude, hchild, hfresh, -⟩ := hfind
  unfold wireDecode
  rw [if_neg (by simp [block, make]), hparse]
  simp only [bind_eq_bind, bind_some, hmin, hmax, hlocator, hexclude, hchild, hfresh,
    readNumber_numberElement, readKeyLocator_keyLocatorElement hs hknown hfits,
    readExclude_excludeElement, isSome_mustBeFreshElement]
  rcases s.exclude.reread with _ | x
  · rfl
  · rfl

/-! ### What is read back -/

/-- The number is one that is read back. -/
def KeepsNumber (n : Int32) : Prop :=
  0 ≤ n ∨ n = -1

instance (n : Int32) : Decidable (KeepsNumber n) :=
  inferInstanceAs (Decidable (_ ∨ _))

/-- The selectors are such as decoding gives back. -/
structure Stable (s : Selectors) : Prop where
  minSuffixComponents : KeepsNumber s.minSuffixComponents
  maxSuffixComponents : KeepsNumber s.maxSuffixComponents
  childSelector : KeepsNumber s.childSelector
  keyLocator : s.publisherPublicKeyLocator ≠ .unknown
  exclude : s.exclude.Canonical

instance (s : Selectors) : Decidable s.Stable :=
  decidable_of_iff (KeepsNumber s.minSuffixComponents ∧ KeepsNumber s.maxSuffixComponents ∧
    KeepsNumber s.childSelector ∧ s.publisherPublicKeyLocator ≠ .unknown ∧ s.exclude.Canonical)
    ⟨fun ⟨h, h', h'', hk, hx⟩ => ⟨h, h', h'', hk, hx⟩,
      fun ⟨h, h', h'', hk, hx⟩ => ⟨h, h', h'', hk, hx⟩⟩

/-- When a number is kept. -/
theorem rereadNumber_eq_iff (n : Int32) : rereadNumber n = n ↔ KeepsNumber n := by
  unfold rereadNumber KeepsNumber
  by_cases hn : 0 ≤ n
  · simp [hn]
  · simp [hn, eq_comm]

/-- A number that was read is kept from then on. -/
theorem keepsNumber_rereadNumber (n : Int32) : KeepsNumber (rereadNumber n) := by
  unfold rereadNumber KeepsNumber
  by_cases hn : 0 ≤ n
  · simp [hn]
  · simp [hn]

/-- A number that was read is written as before. -/
theorem numberElement_rereadNumber (type : ℕ) (n : Int32) :
    numberElement type (rereadNumber n) = numberElement type n := by
  unfold numberElement rereadNumber
  grind

/-- The filter of selectors that fit does fit. -/
theorem fits_exclude (hfits : s.block.Fits) : s.exclude.block.Fits := by
  rcases hempty : s.exclude.isEmpty with _ | _
  · simp_all [hfits.element, mem_present, fields, excludeElement]
  have hnil : s.exclude.terms = [] := by simpa [Exclude.isEmpty] using hempty
  have hblock : s.exclude.block = make Tlv.exclude [] := by
    simp [Exclude.block, Exclude.elements, hnil]
  rw [hblock]
  decide

/-- What was read is stable and is written as before. -/
theorem reread_spec (hs : s.WellFormed) (hknown : s.publisherPublicKeyLocator ≠ .unknown)
    (hfits : s.block.Fits) {x : Exclude} (hx : s.exclude.reread = some x) :
    (s.reread x).WellFormed ∧ (s.reread x).Stable ∧ (s.reread x).block = s.block ∧
      (s.reread x).isEmpty = s.isEmpty ∧ (s.reread x = s ↔ s.Stable) := by
  obtain ⟨hwell, hcanonical, hblock, hempty, heq⟩ :=
    Exclude.reread_eq_some hs.exclude (fits_exclude hfits) hx
  have hnegative : ∀ n : Int32, decide (rereadNumber n < 0) = decide (n < 0) := by
    grind [rereadNumber]
  refine ⟨⟨hs.keyLocator, hwell⟩, ⟨keepsNumber_rereadNumber _, keepsNumber_rereadNumber _,
    keepsNumber_rereadNumber _, hknown, hcanonical⟩, ?_, ?_, ?_⟩
  · have hexclude : (s.reread x).excludeElement = s.excludeElement := by
      unfold excludeElement reread
      rw [hempty, hblock]
    have hfields : (s.reread x).fields = s.fields := by
      rw [fields, hexclude]
      simp only [reread, numberElement_rereadNumber]
      rfl
    rw [block, hfields, block]
  · change (decide (rereadNumber s.minSuffixComponents < 0) &&
      decide (rereadNumber s.maxSuffixComponents < 0) &&
      decide (s.publisherPublicKeyLocator = .none) && x.isEmpty &&
      decide (rereadNumber s.childSelector < 0) && !s.mustBeFresh) = s.isEmpty
    rw [hnegative, hnegative, hnegative, hempty, isEmpty]
  · constructor
    · intro hsame
      exact ⟨(rereadNumber_eq_iff _).mp (congrArg minSuffixComponents hsame),
        (rereadNumber_eq_iff _).mp (congrArg maxSuffixComponents hsame),
        (rereadNumber_eq_iff _).mp (congrArg childSelector hsame), hknown,
        heq.mp (congrArg Selectors.exclude hsame)⟩
    · rintro ⟨hmin, hmax, hchild, -, hcanonical⟩
      rw [reread, (rereadNumber_eq_iff _).mpr hmin, (rereadNumber_eq_iff _).mpr hmax,
        (rereadNumber_eq_iff _).mpr hchild, heq.mpr hcanonical]

/-- Empty selectors are written as an empty element. -/
theorem block_of_isEmpty (h : s.isEmpty = true) : s.block = make Tlv.selectors [] := by
  simp only [isEmpty, Bool.and_eq_true, decide_eq_true_eq, Bool.not_eq_true'] at h
  obtain ⟨⟨⟨⟨⟨hmin, hmax⟩, hlocator⟩, hexclude⟩, hchild⟩, hfresh⟩ := h
  have hnumber : ∀ (type : ℕ) (n : Int32), n < 0 → numberElement type n = none :=
    fun type n hn => if_neg (Int32.not_le.mpr hn)
  have hpresent : present s.fields = [] := by
    simp [present, fields, hnumber _ _ hmin, hnumber _ _ hmax, hnumber _ _ hchild,
      keyLocatorElement, hlocator, excludeElement, hexclude, mustBeFreshElement, hfresh]
  rw [block, hpresent]
  rfl

/-- Empty selectors are read as new ones. -/
theorem reread_of_isEmpty (h : s.isEmpty = true) : s.exclude.reread.map s.reread = some {} := by
  simp only [isEmpty, Bool.and_eq_true, decide_eq_true_eq, Bool.not_eq_true'] at h
  grind [rereadNumber, Exclude.reread, reread]

/-! ### Numbers on the wire

A number of the wire has up to 64 bits, and the field is an `int`. -/

/-- The integer of the first element of a type. -/
def wireNumber (elements : List Block) (type : ℕ) : Option ℕ :=
  (Block.find elements type).bind fun b => b.readNonNegativeInteger.map UInt64.toNat

/-- The selectors of an Interest, as `Interest::matchesName` reads them, are these. -/
structure AreOf (s : Selectors) (i : IcnDemo.Interest) : Prop where
  minSuffixComponents : i.selectors.minSuffixComponents = s.minSuffixComponents.toInt
  maxSuffixComponents : i.selectors.maxSuffixComponents = s.maxSuffixComponents.toInt
  exclude : i.selectors.exclude = s.exclude

/-- The fields are the integers on the wire, and a name matches if it has as many components as
these allow. -/
structure KeepsBounds (elements : List Block) (s : Selectors) : Prop where
  minSuffixComponents : ∀ k ∈ wireNumber elements Tlv.minSuffixComponents,
    s.minSuffixComponents.toInt = k
  maxSuffixComponents : ∀ k ∈ wireNumber elements Tlv.maxSuffixComponents,
    s.maxSuffixComponents.toInt = k
  childSelector : ∀ k ∈ wireNumber elements Tlv.childSelector, s.childSelector.toInt = k
  matchesName : ∀ i, s.AreOf i → ∀ m : Name, i.matchesName m = true ↔
    i.name.isPrefixOf m = true ∧
    (∀ k ∈ wireNumber elements Tlv.minSuffixComponents, k ≤ m.length - i.name.length) ∧
    (∀ k ∈ wireNumber elements Tlv.maxSuffixComponents, m.length - i.name.length ≤ k) ∧
    ∀ c ∈ m[i.name.length]?, s.exclude.isExcluded c = false

/-- The conversion to an `int` keeps the numbers below 2^31. -/
theorem toInt_toInt32_eq_iff (n : UInt64) :
    n.toInt64.toInt32.toInt = n.toNat ↔ n.toNat < 2 ^ 31 := by
  have hbmod : n.toInt64.toInt32.toInt = Int.bmod n.toNat (2 ^ 32) := by
    have hsigned : n.toInt64.toInt = Int.bmod n.toNat (2 ^ 64) := BitVec.toInt_eq_toNat_bmod _
    rw [Int64.toInt_toInt32, hsigned, Int.bmod_bmod_of_dvd (by decide)]
  rw [hbmod]
  constructor
  · intro h
    have := @Int.bmod_lt n.toNat (2 ^ 32) (by decide)
    omega
  · intro h
    exact Int.bmod_eq_of_le (by omega) (by omega)

/-- A field is −1, or the number of the wire cut to 32 bits. -/
theorem readNumber_cases {elements : List Block}
    (h : readNumber (find elements type) = some n) :
    (wireNumber elements type = none ∧ n = -1) ∨
      ∃ k : UInt64, wireNumber elements type = some k.toNat ∧ n = k.toInt64.toInt32 := by
  unfold wireNumber
  rcases hfind : find elements type with _ | b
  · rw [hfind] at h
    exact .inl ⟨rfl, (some.inj h).symm⟩
  · rw [hfind] at h
    obtain ⟨k, hk, rfl⟩ := map_eq_some_iff.mp h
    exact .inr ⟨k, by simp [hk], rfl⟩

/-- The empty filter excludes nothing. -/
theorem isExcluded_of_isEmpty {x : Exclude} (h : x.isEmpty = true) (c : Component) :
    x.isExcluded c = false := by
  have hterms : x.terms = [] := by simpa [Exclude.isEmpty] using h
  simp [Exclude.isExcluded, hterms]

/-- A bound of a field that is not negative is the bound of the wire. -/
theorem bound_iff {elements : List Block} (h : readNumber (find elements type) = some n)
    (hkept : ∀ k ∈ wireNumber elements type, n.toInt = k) (P : ℕ → Prop) :
    (0 ≤ n.toInt → P n.toInt.toNat) ↔ ∀ k ∈ wireNumber elements type, P k := by
  rcases readNumber_cases h with ⟨hnone, rfl⟩ | ⟨k, hk, -⟩
  · simp [hnone]
  · simp [hk, hkept _ hk]

/-- Decoded selectors are those of the wire exactly if every number of the wire fits in an `int`. -/
theorem keepsBounds_iff {b : Block} {s : Selectors} {elements : List Block}
    (hparse : Block.parse b.value = some elements) (h : wireDecode b = some s) :
    KeepsBounds elements s ↔
      ∀ type ∈ [Tlv.minSuffixComponents, Tlv.maxSuffixComponents, Tlv.childSelector],
        ∀ k ∈ wireNumber elements type, k < 2 ^ 31 := by
  obtain ⟨hmin, hmax, hchild⟩ :
      readNumber (Block.find elements Tlv.minSuffixComponents) = some s.minSuffixComponents ∧
      readNumber (Block.find elements Tlv.maxSuffixComponents) = some s.maxSuffixComponents ∧
      readNumber (Block.find elements Tlv.childSelector) = some s.childSelector := by
    unfold wireDecode at h
    split at h
    · cases h
    simp only [hparse, bind_eq_bind, bind_some, bind_eq_some_iff] at h
    obtain ⟨m, hm, m', hm', k, -, x, -, c, hc, hs⟩ := h
    obtain rfl := some.inj hs
    exact ⟨hm, hm', hc⟩
  have hfits : ∀ {type n}, readNumber (Block.find elements type) = some n →
      ((∀ k ∈ wireNumber elements type, n.toInt = k) ↔
        ∀ k ∈ wireNumber elements type, k < 2 ^ 31) := by
    intro type n hn
    rcases readNumber_cases hn with ⟨hnone, -⟩ | ⟨k, hk, rfl⟩
    · simp [hnone]
    · simp only [hk, mem_some_iff, forall_eq']
      exact toInt_toInt32_eq_iff k
  rw [List.forall_mem_cons, List.forall_mem_cons, List.forall_mem_singleton, ← hfits hmin,
    ← hfits hmax, ← hfits hchild]
  constructor
  · exact fun hs => ⟨hs.minSuffixComponents, hs.maxSuffixComponents, hs.childSelector⟩
  rintro ⟨hmin', hmax', hchild'⟩
  refine ⟨hmin', hmax', hchild', fun i hi m => ?_⟩
  rw [Interest.matchesName_iff, and_congr_right_iff]
  intro hprefixed
  have hlength := Name.length_le_of_isPrefixOf hprefixed
  rw [← bound_iff hmin hmin' (· ≤ m.length - i.name.length),
    ← bound_iff hmax hmax' (m.length - i.name.length ≤ ·), Interest.Admits, Interest.Passes,
    hi.minSuffixComponents, hi.maxSuffixComponents, hi.exclude, and_assoc]
  refine and_congr (by omega) (and_congr (by omega) ⟨fun hpasses c hc => ?_, fun h _ => h⟩)
  rcases hempty : s.exclude.isEmpty with _ | _
  · exact hpasses hempty c hc
  · exact isExcluded_of_isEmpty hempty c

/-- Selectors with at least two suffix components. -/
theorem keepsBounds_two : KeepsBounds [Block.make Tlv.minSuffixComponents [2]]
    { minSuffixComponents := 2 } :=
  (keepsBounds_iff (b := Block.make Tlv.selectors [13, 1, 2]) (by decide) (by decide)).mpr
    (by decide)

/-- At least 2^32 suffix components, which are read as none at least. -/
theorem wireDecode_wraps : Block.parse [13, 8, 0, 0, 0, 1, 0, 0, 0, 0] =
      some [Block.make Tlv.minSuffixComponents [0, 0, 0, 1, 0, 0, 0, 0]] ∧
    wireNumber [Block.make Tlv.minSuffixComponents [0, 0, 0, 1, 0, 0, 0, 0]]
      Tlv.minSuffixComponents = some (2 ^ 32) ∧
    wireDecode (Block.make Tlv.selectors [13, 8, 0, 0, 0, 1, 0, 0, 0, 0]) =
      some { minSuffixComponents := 0 } := by
  decide

end Selectors

end IcnDemo.Codec
