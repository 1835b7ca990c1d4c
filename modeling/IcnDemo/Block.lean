import IcnDemo.Encoding.Numbers
import IcnDemo.Lib.Framing

/-!
# Blocks

A `Block` is an element on the wire: its type, its octets and those of its value.  Numbers need not
be written in their shortest form, so the octets are not determined by type and value.
-/

namespace IcnDemo

open List

/-- `Block`, when it has a wire encoding. -/
structure Block where
  type : ℕ
  wire : List UInt8
  value : List UInt8
deriving DecidableEq, Repr

namespace Block

/-- `Block::fromBuffer`, `none` when it reports failure. -/
def fromBuffer (buffer : List UInt8) : Option Block :=
  match Tlv.readType buffer with
  | none => none
  | some (type, rest) =>
    match Tlv.readVarNumber rest with
    | none => none
    | some (length, rest) =>
      if rest.length < length then none
      else some ⟨type, buffer.take (buffer.length - rest.length + length), rest.take length⟩

/-- A block is a header and the value; it is read from these octets, whatever follows them. -/
theorem fromBuffer_eq_some {buffer : List UInt8} {b : Block} (h : fromBuffer buffer = some b) :
    ∃ header, header ≠ [] ∧ b.wire = header ++ b.value ∧ b.wire <+: buffer ∧
      ∀ more, fromBuffer (b.wire ++ more) = some b := by
  unfold fromBuffer at h
  split at h
  · cases h
  rename_i type rest htype
  split at h
  · cases h
  rename_i length rest' hlength
  split at h
  · cases h
  rename_i hle
  obtain ⟨octets, hne, rfl, hmore⟩ := Tlv.readType_eq_some htype
  obtain ⟨octets', hne', rfl, hmore'⟩ := Tlv.readVarNumber_eq_some hlength
  have hvalue : (rest'.take length).length = length := by
    rw [length_take]
    omega
  have hwire : (octets ++ (octets' ++ rest')).take
      ((octets ++ (octets' ++ rest')).length - rest'.length + length)
        = octets ++ octets' ++ rest'.take length := by
    have htotal : (octets ++ octets' ++ rest').length
        = (octets ++ octets').length + rest'.length := length_append
    rw [← append_assoc, htotal, Nat.add_sub_cancel, take_length_add_append]
  cases h
  simp only [hwire]
  refine ⟨octets ++ octets', by simp [hne], rfl, ?_, ?_⟩
  · grind
  intro more
  simp only [fromBuffer, append_assoc, hmore, hmore']
  rw [if_neg (by rw [length_append]; omega), take_left' hvalue]
  congr 2
  simp only [← append_assoc]
  refine take_left' ?_
  simp only [length_append]
  omega

/-- Blocks are the frames of a stream of octets. -/
def framing : Framing UInt8 Block where
  parse := fromBuffer
  wire := wire
  wire_ne_nil := by
    intro s b h
    obtain ⟨header, hne, hwire, -⟩ := fromBuffer_eq_some h
    rw [hwire]
    exact append_ne_nil_of_left_ne_nil hne _
  wire_isPrefix := fun h => by
    obtain ⟨-, -, -, hprefixed, -⟩ := fromBuffer_eq_some h
    exact hprefixed
  parse_wire_append := fun h => by
    obtain ⟨-, -, -, -, hmore⟩ := fromBuffer_eq_some h
    exact hmore

/-! ### Elements -/

variable (type : ℕ) (b : Block)

/-- An element with numbers in their shortest form, as encoders write it. -/
def make (value : List UInt8) : Block :=
  ⟨type, Tlv.encodeElement type value, value⟩

/-- The constructor from a buffer, which also is what `blockFromValue` does with a value: the one
element that the octets consist of, `none` when it throws. -/
def ofBuffer (buffer : List UInt8) : Option Block :=
  match fromBuffer buffer with
  | none => none
  | some b => if b.wire.length = buffer.length then some b else none

/-- The loop of `Block::parse`: the sub-elements in the block when it ends, and whether it ends
without an exception.  They are cleared when an element is longer than the value, but not when the
header of an element is cut off. -/
def parseLoop : ℕ → List UInt8 → List Block → List Block × Bool
  | 0, _, subBlocks => (subBlocks, true)
  | fuel + 1, rest, subBlocks =>
    if rest = [] then (subBlocks, true)
    else
      match Tlv.readType rest with
      | none => (subBlocks, false)
      | some (type, afterType) =>
        match Tlv.readVarNumber afterType with
        | none => (subBlocks, false)
        | some (length, value) =>
          if value.length < length then ([], false)
          else parseLoop fuel (value.drop length) (subBlocks ++ [⟨type,
            rest.take (rest.length - value.length + length), value.take length⟩])

/-- `Block::parse` of a block with this value and these sub-elements, which does nothing if there
are some; each element has an octet. -/
def parseInPlace (value : List UInt8) (subBlocks : List Block) : List Block × Bool :=
  if subBlocks ≠ [] ∨ value = [] then (subBlocks, true) else parseLoop value.length value []

/-- The elements of a value that has not been parsed yet, `none` when `Block::parse` throws. -/
def parse (value : List UInt8) : Option (List Block) :=
  let r := parseInPlace value []
  if r.2 then some r.1 else none

/-- `Block::find`: the first element of a type. -/
def find (elements : List Block) (type : ℕ) : Option Block :=
  elements.find? fun b => b.type == type

/-- `readNonNegativeInteger` of a block, `none` when it throws. -/
def readNonNegativeInteger : Option UInt64 :=
  Tlv.readNonNegativeInteger b.value

/-- The block is what is read from its octets. -/
def Valid : Prop :=
  fromBuffer b.wire = some b

instance : Decidable b.Valid :=
  inferInstanceAs (Decidable (fromBuffer b.wire = some b))

/-- A block that is made of a type and a value is read back, if both fit. -/
theorem valid_make {type : ℕ} {value : List UInt8} (htype : type < 2 ^ 32)
    (hvalue : value.length < 2 ^ 64) : (make type value).Valid := by
  have hread := Tlv.readVarNumber_encodeVarNumber (show type < 2 ^ 64 by omega)
    (Tlv.encodeVarNumber value.length ++ value)
  have hread' := Tlv.readVarNumber_encodeVarNumber hvalue value
  have hle : type ≤ 4294967295 := by omega
  unfold Valid fromBuffer make Tlv.encodeElement
  simp only [Tlv.readType, append_assoc, hread, hle, if_true, hread', lt_irrefl, if_false,
    take_length, Option.some.injEq, mk.injEq, true_and, and_true]
  refine take_of_length_le ?_
  simp only [length_append]
  omega

/-- The type of a valid block has 32 bits. -/
theorem Valid.type_lt {b : Block} (h : b.Valid) : b.type < 2 ^ 32 := by
  unfold Valid fromBuffer Tlv.readType at h
  grind

/-- A valid block is read from exactly its wire. -/
theorem Valid.ofBuffer_eq {b : Block} (h : b.Valid) : ofBuffer b.wire = some b := by
  unfold ofBuffer
  rw [show fromBuffer b.wire = some b from h]
  simp

/-- The octets can be counted in the `uint32_t` that `size()` returns. -/
def Fits : Prop :=
  b.wire.length < 2 ^ 32

instance : Decidable b.Fits :=
  inferInstanceAs (Decidable (_ < _))

variable {b}

/-- The octets can be counted in 64 bits, too. -/
theorem Fits.lt (h : b.Fits) : b.wire.length < 2 ^ 64 :=
  Nat.lt_trans h (by decide)

/-- With an element its value can be counted. -/
theorem Fits.value {type : ℕ} {value : List UInt8} (h : (make type value).Fits) :
    value.length < 2 ^ 64 := by
  refine lt_of_le_of_lt ?_ h.lt
  simp only [make, Tlv.encodeElement, length_append]
  omega

variable {elements : List Block}

/-- With an element the elements in it can be counted. -/
theorem Fits.element {type : ℕ} {b : Block}
    (h : (make type (elements.flatMap wire)).Fits) (hb : b ∈ elements) : b.Fits := by
  unfold Fits make Tlv.encodeElement at h
  obtain ⟨before, behind, rfl⟩ := append_of_mem hb
  grind [Fits]

/-- With an element the only element in it can be counted. -/
theorem Fits.inner {type : ℕ} (h : (make type b.wire).Fits) : b.Fits :=
  Fits.element (by rwa [flatMap_singleton]) (mem_singleton_self b)

/-- Type and length of an element can be read. -/
def readsHeader (octets : List UInt8) : Bool :=
  ((Tlv.readType octets).bind fun r => Tlv.readVarNumber r.2).isSome

/-- One turn of the loop takes one element, or ends it. -/
theorem parseLoop_succ (fuel : ℕ) {rest : List UInt8} (hrest : rest ≠ []) (bs : List Block) :
    parseLoop (fuel + 1) rest bs = match fromBuffer rest with
      | some b => parseLoop fuel (rest.drop b.wire.length) (bs ++ [b])
      | none => (if readsHeader rest then [] else bs, false) := by
  rw [parseLoop, if_neg hrest]
  unfold fromBuffer readsHeader
  rcases htype : Tlv.readType rest with _ | ⟨type, afterType⟩
  · rfl
  rcases hlength : Tlv.readVarNumber afterType with _ | ⟨length, value⟩
  · simp [hlength]
  simp only [hlength, Option.bind_some, Option.isSome_some, if_true]
  by_cases hle : value.length < length
  · simp only [if_pos hle]
  simp only [if_neg hle]
  obtain ⟨octets, -, rfl, -⟩ := Tlv.readType_eq_some htype
  obtain ⟨octets', -, rfl, -⟩ := Tlv.readVarNumber_eq_some hlength
  -- the octets of the element are its header and its value
  have hdrop : (octets ++ (octets' ++ value)).drop ((octets ++ (octets' ++ value)).take
      ((octets ++ (octets' ++ value)).length - value.length + length)).length =
        value.drop length := by
    rw [← append_assoc, length_take, length_append,
      Nat.add_sub_cancel, min_eq_left (by omega), drop_length_add_append]
  rw [hdrop]

/-- The loop reads the elements at the start of the value, up to the end or to something else. -/
theorem parseLoop_cases (fuel : ℕ) {rest : List UInt8} (hfuel : rest.length ≤ fuel)
    (bs : List Block) :
    ∃ cs tail, (∀ b ∈ cs, b.Valid) ∧ rest = cs.flatMap wire ++ tail ∧
      (tail = [] ∧ parseLoop fuel rest bs = (bs ++ cs, true) ∨ tail ≠ [] ∧ fromBuffer tail = none ∧
          parseLoop fuel rest bs = (if readsHeader tail then [] else bs ++ cs, false)) := by
  induction fuel generalizing rest bs with
  | zero =>
    obtain rfl := eq_nil_of_length_eq_zero (Nat.le_zero.mp hfuel)
    exact ⟨[], [], by simp, rfl, .inl ⟨rfl, by simp [parseLoop]⟩⟩
  | succ fuel ih =>
    by_cases hrest : rest = []
    · subst hrest
      exact ⟨[], [], by simp, rfl, .inl ⟨rfl, by simp [parseLoop]⟩⟩
    rw [parseLoop_succ fuel hrest]
    rcases hb : fromBuffer rest with _ | b
    · exact ⟨[], rest, by simp, rfl, .inr ⟨hrest, hb, by simp⟩⟩
    obtain ⟨more, hmore⟩ := framing.wire_isPrefix hb
    have hpos : 0 < b.wire.length := length_pos_iff.mpr (framing.wire_ne_nil hb)
    have hdrop : rest.drop b.wire.length = more := by
      rw [← hmore]
      exact drop_left
    have hlen : more.length ≤ fuel := by
      have := congrArg length hmore
      rw [length_append] at this
      change b.wire.length + _ = _ at this
      omega
    obtain ⟨cs, tail, hvalid, hsplit, hends⟩ := ih hlen (bs ++ [b])
    refine ⟨b :: cs, tail, forall_mem_cons.mpr ⟨framing.parse_wire hb, hvalid⟩, ?_, ?_⟩
    · rw [← hmore, hsplit, flatMap_cons, append_assoc]
      rfl
    · simpa only [hdrop, append_assoc, singleton_append] using hends

/-- The loop reads the elements that the value consists of. -/
theorem parseLoop_flatMap (h : ∀ b ∈ elements, b.Valid) {fuel : ℕ}
    (hfuel : (elements.flatMap wire).length ≤ fuel) (bs : List Block) :
    parseLoop fuel (elements.flatMap wire) bs = (bs ++ elements, true) := by
  induction elements generalizing fuel bs with
  | nil => cases fuel <;> simp [parseLoop]
  | cons b elements ih =>
    obtain ⟨hb, hrest⟩ := forall_mem_cons.mp h
    have hne : b.wire ≠ [] := framing.wire_ne_nil hb
    have hpos : 0 < b.wire.length := length_pos_iff.mpr hne
    rw [flatMap_cons, length_append] at hfuel
    obtain ⟨fuel, rfl⟩ : ∃ k, fuel = k + 1 := ⟨fuel - 1, by omega⟩
    rw [flatMap_cons, parseLoop_succ fuel (append_ne_nil_of_left_ne_nil hne _),
      show fromBuffer (b.wire ++ elements.flatMap wire) = some b from
        framing.parse_wire_append hb _]
    simp only [drop_left]
    rw [ih hrest (by omega), append_assoc, singleton_append]

/-- Without subelements there is nothing to keep. -/
theorem parseInPlace_nil (value : List UInt8) :
    parseInPlace value [] = parseLoop value.length value [] := by
  unfold parseInPlace
  by_cases hvalue : value = []
  · simp [hvalue, parseLoop]
  · simp [hvalue]

/-- Elements that can be read are found again in their octets. -/
theorem parse_flatMap (h : ∀ b ∈ elements, b.Valid) :
    parse (elements.flatMap wire) = some elements := by
  rw [parse, parseInPlace_nil, parseLoop_flatMap h le_rfl]
  rfl

/-- Lists of valid blocks with the same wire are the same. -/
theorem flatMap_wire_inj {elements elements' : List Block} (h : ∀ b ∈ elements, b.Valid)
    (h' : ∀ b ∈ elements', b.Valid) (hwire : elements.flatMap wire = elements'.flatMap wire) :
    elements = elements' := by
  have hparse := parse_flatMap h
  rw [hwire, parse_flatMap h'] at hparse
  exact (Option.some.inj hparse).symm

/-- The elements that are found make up the value, and can be read from their octets. -/
theorem valid_of_parse {value : List UInt8} (h : parse value = some elements) :
    value = elements.flatMap wire ∧ ∀ b ∈ elements, b.Valid := by
  obtain ⟨cs, tail, hvalid, hsplit, hends⟩ := parseLoop_cases value.length le_rfl ([] : List Block)
  rw [parse, parseInPlace_nil] at h
  rcases hends with ⟨rfl, hok⟩ | ⟨-, -, hthrows⟩
  · rw [hok] at h
    obtain rfl : cs = elements := by simpa using h
    exact ⟨hsplit.trans (append_nil _), hvalid⟩
  · rw [hthrows] at h
    cases h

/-- Each element takes at least one octet. -/
theorem length_le_of_parse {value : List UInt8}
    (h : parse value = some elements) : elements.length ≤ value.length := by
  obtain ⟨rfl, hvalid⟩ := valid_of_parse h
  clear h
  induction elements with
  | nil => exact Nat.zero_le _
  | cons b bs ih =>
    have hne : b.wire ≠ [] := framing.wire_ne_nil (hvalid b mem_cons_self)
    grind [length_pos_iff]

/-- The value is a part of the wire. -/
theorem Valid.length_value_le {b : Block} (h : b.Valid) : b.value.length ≤ b.wire.length := by
  obtain ⟨header, -, hwire, -⟩ := fromBuffer_eq_some h
  simp_all

/-- An element is a part of what is parsed. -/
theorem length_wire_le_of_parse {value : List UInt8} {b : Block}
    (h : parse value = some elements) (hb : b ∈ elements) : b.wire.length ≤ value.length := by
  obtain ⟨rfl, -⟩ := valid_of_parse h
  obtain ⟨before, behind, rfl⟩ := append_of_mem hb
  grind

/-! ### Optional elements -/

/-- Elements that are there or not, each one with its type. -/
def present (fields : List (ℕ × Option Block)) : List Block :=
  fields.flatMap fun field => field.2.toList

/-- The elements have the types that they are listed with, and no type is listed twice. -/
structure Labelled (fields : List (ℕ × Option Block)) : Prop where
  nodup : (fields.map Prod.fst).Nodup
  type : ∀ field ∈ fields, ∀ b ∈ field.2, b.type = field.1

/-- The elements that are present are those of the fields. -/
theorem mem_present {fields : List (ℕ × Option Block)} {b : Block} :
    b ∈ present fields ↔ ∃ field ∈ fields, b ∈ field.2 := by
  simp [present]

/-- `find` returns what each labelled field holds. -/
theorem Labelled.find_present {fields : List (ℕ × Option Block)} (h : Labelled fields) :
    ∀ field ∈ fields, find (present fields) field.1 = field.2 := by
  rintro ⟨type, o⟩ hfield
  -- an element of this type comes from this field
  have hfrom : ∀ b ∈ present fields, b.type = type → b ∈ o := by
    intro b hb htype
    obtain ⟨⟨type', o'⟩, hfield', hb'⟩ := mem_present.mp hb
    have hsame : type' = type := (h.type _ hfield' b hb').symm.trans htype
    grind [inj_on_of_nodup_map, h.nodup]
  rcases hfind : find (present fields) type with _ | b
  · rcases o with _ | b
    · rfl
    · have hmem : b ∈ present fields := mem_present.mpr ⟨_, hfield, rfl⟩
      have hnot := find?_eq_none.mp hfind b hmem
      exact absurd (beq_iff_eq.mpr (h.type _ hfield b rfl)) hnot
  · have htype : b.type = type := by simpa using find?_some hfind
    exact (hfrom b (mem_of_find?_eq_some hfind) htype).symm

/-! ### Parsing in place -/

/-- If `parse` throws, it leaves no sub-elements and throws again whenever it is called; and if it
does not, the sub-elements make up the value. -/
structure AllOrNothing (value : List UInt8) : Prop where
  thrown : (parseInPlace value []).2 = false → (parseInPlace value []).1 = [] ∧
    ∀ k, (parseInPlace value ((fun bs => (parseInPlace value bs).1)^[k] [])).2 = false
  parsed : (parseInPlace value []).2 = true → (parseInPlace value []).1.flatMap wire = value

/-- This is so exactly if no header is cut off behind an element. -/
theorem allOrNothing_iff (value : List UInt8) :
    AllOrNothing value ↔ ∀ (bs : List Block) (rest : List UInt8), bs ≠ [] →
      (∀ b ∈ bs, b.Valid) → value = bs.flatMap wire ++ rest → rest ≠ [] →
        readsHeader rest = true := by
  by_cases hvalue : value = []
  · subst hvalue
    refine iff_of_true ⟨nofun, fun _ => rfl⟩ ?_
    intro bs rest _ _ hsplit hrest
    exact absurd (append_eq_nil_iff.mp hsplit.symm).2 hrest
  have hparse := parseInPlace_nil value
  obtain ⟨cs, tail, hvalid, hsplit, hends⟩ := parseLoop_cases value.length le_rfl ([] : List Block)
  rw [← hparse, nil_append] at hends
  constructor
  · intro h bs rest hne hbs hsplit' hrest
    by_contra hheader
    have hnone : fromBuffer rest = none := by
      simp only [readsHeader, Option.not_isSome_iff_eq_none, Option.bind_eq_none_iff] at hheader
      unfold fromBuffer
      rcases htype : Tlv.readType rest with _ | ⟨type, afterType⟩
      · rfl
      · simp [hheader _ htype]
    -- there is only one way to read elements as far as possible
    have hmax : ∀ {ds more}, (∀ b ∈ ds, b.Valid) → value = ds.flatMap wire ++ more →
        fromBuffer more = none → framing.IsMaximal value.length value ds := by
      intro ds more hds hmore hstop
      refine ⟨fun b hb => ⟨hds b hb, ?_⟩, more, hmore, fun b hb => ?_⟩
      · obtain ⟨before, behind, rfl⟩ := append_of_mem hb
        rw [hmore]
        simp only [flatMap_append, flatMap_cons, length_append]
        change b.wire.length ≤ _
        omega
      · cases hstop.symm.trans hb
    rcases hends with ⟨rfl, hok⟩ | ⟨htail, hstop, hthrows⟩
    · have hsame := (hmax hvalid hsplit framing.parse_nil).unique (hmax hbs hsplit' hnone)
      rw [hsame] at hsplit
      exact hrest (append_cancel_left (hsplit'.symm.trans hsplit))
    · have hsame := (hmax hvalid hsplit hstop).unique (hmax hbs hsplit' hnone)
      subst hsame
      obtain rfl := append_cancel_left (hsplit.symm.trans hsplit')
      rw [if_neg hheader] at hthrows
      exact hne (by simpa [hthrows] using (h.thrown (by rw [hthrows])).1)
  · intro h
    rcases hends with ⟨rfl, hok⟩ | ⟨htail, -, hthrows⟩
    · rw [append_nil] at hsplit
      exact ⟨fun hthrown => (by simp [hok] at hthrown), fun _ => (by rw [hok, ← hsplit])⟩
    have hnothing : parseInPlace value [] = ([], false) := by
      rw [hthrows]
      by_cases hcs : cs = []
      · simp [hcs]
      · rw [if_pos (h cs tail hcs hvalid hsplit htail)]
    refine ⟨fun _ => ⟨by rw [hnothing], fun k => ?_⟩, fun hok => (by simp [hnothing] at hok)⟩
    rw [Function.iterate_fixed (show (parseInPlace value []).1 = [] by rw [hnothing]), hnothing]

/-- An element, and the type of another one.  The first call throws and leaves the element, and the
second call does not throw. -/
theorem parseInPlace_leaves_element : parseInPlace [8, 0, 8] [] = ([⟨8, [8, 0], []⟩], false) ∧
      parseInPlace [8, 0, 8] [⟨8, [8, 0], []⟩] = ([⟨8, [8, 0], []⟩], true) := by
  decide

end Block

end IcnDemo
