import IcnDemo.Codec.Name

/-!
# MetaInfo

The elements of a MetaInfo stand in a fixed order: content type, freshness period, FinalBlockId, and
elements of applications.  Decoding sets the first three fields, also when their elements are
absent, and appends the rest to the list that the object has already.  It does not give every field
back: a negative period becomes the least one, and a FinalBlockId that is a digest is dropped.
-/

namespace IcnDemo.Codec

open List Option Block Prepend

/-- `MetaInfo`; an empty component stands for no FinalBlockId. -/
structure MetaInfo where
  type : UInt32 := 0
  freshnessPeriod : Int64 := -1
  finalBlockId : Component := .generic []
  appMetaInfo : List Block := []
deriving DecidableEq, Repr

namespace MetaInfo

/-! ### Setters -/

/-- `MetaInfo::setType`. -/
def setType (type : UInt32) (m : MetaInfo) : MetaInfo :=
  { m with type }

/-- `MetaInfo::setFreshnessPeriod`. -/
def setFreshnessPeriod (freshnessPeriod : Int64) (m : MetaInfo) : MetaInfo :=
  { m with freshnessPeriod }

/-- `MetaInfo::setFinalBlockId`. -/
def setFinalBlockId (finalBlockId : Component) (m : MetaInfo) : MetaInfo :=
  { m with finalBlockId }

/-- The types of elements of applications. -/
def IsAppType (type : ℕ) : Prop :=
  128 ≤ type ∧ type ≤ 252

instance (type : ℕ) : Decidable (IsAppType type) :=
  inferInstanceAs (Decidable (_ ∧ _))

/-- `setAppMetaInfo`, `none` when it throws. -/
def setAppMetaInfo (info : List Block) (m : MetaInfo) : Option MetaInfo :=
  if ∀ b ∈ info, IsAppType b.type then some { m with appMetaInfo := info } else none

/-- `addAppMetaInfo`, `none` when it throws. -/
def addAppMetaInfo (b : Block) (m : MetaInfo) : Option MetaInfo :=
  if IsAppType b.type then some { m with appMetaInfo := m.appMetaInfo ++ [b] } else none

/-- `removeAppMetaInfo`. -/
def removeAppMetaInfo (tlvType : ℕ) (m : MetaInfo) : MetaInfo :=
  { m with appMetaInfo := m.appMetaInfo.eraseP fun b => b.type == tlvType }

/-! ### Encoding and decoding -/

/-- `MetaInfo::wireEncode`. -/
def wireEncode (m : MetaInfo) : Prepend :=
  element Tlv.metaInfo ((((backwards Prepend.block m.appMetaInfo).andThen
      (onlyIf (m.finalBlockId.empty = false)
        (element Tlv.finalBlockId m.finalBlockId.wireEncode))).andThen
      (onlyIf (0 ≤ m.freshnessPeriod)
        (nonNegativeIntegerBlock Tlv.freshnessPeriod m.freshnessPeriod.toUInt64))).andThen
      (onlyIf (m.type ≠ 0) (nonNegativeIntegerBlock Tlv.contentType m.type.toUInt64)))

/-- The next element if it has a type, and the elements behind it. -/
def next (type : ℕ) : List Block → Option Block × List Block
  | [] => (none, [])
  | b :: bs => if b.type = type then (some b, bs) else (none, b :: bs)

/-- The type is 0 if there is no element. -/
def decodeType : Option Block → Option UInt32
  | none => some 0
  | some b => b.readNonNegativeInteger.map UInt64.toUInt32

/-- The freshness period is −1 if there is no element. -/
def decodeFreshnessPeriod : Option Block → Option Int64
  | none => some Int64.minValue
  | some b => b.readNonNegativeInteger.map UInt64.toInt64

/-- The element inside must be a component, and it is dropped when it is not a generic one. -/
def decodeFinalBlockId : Option Block → Option Component
  | none => some .reset
  | some b =>
    ((Block.ofBuffer b.value).bind Component.ofBlock).map fun c =>
      if c.type ≠ Tlv.nameComponent then .reset else c

/-- `MetaInfo::wireDecode` into an object, `none` when it throws. -/
def wireDecode (wire : Block) (m : MetaInfo) : Option MetaInfo :=
  match Block.parse wire.value with
  | none => none
  | some elements =>
    let val := next Tlv.contentType elements
    let val' := next Tlv.freshnessPeriod val.2
    let val'' := next Tlv.finalBlockId val'.2
    match decodeType val.1, decodeFreshnessPeriod val'.1, decodeFinalBlockId val''.1 with
    | some type, some freshnessPeriod, some finalBlockId =>
      some { type, freshnessPeriod, finalBlockId, appMetaInfo := m.appMetaInfo ++ val''.2 }
    | _, _, _ => none

/-- Decoding appends to the application elements that are there. -/
theorem wireDecode_of_new {wire : Block} {f : MetaInfo}
    (h : ({} : MetaInfo).wireDecode wire = some f) (m : MetaInfo) :
    m.wireDecode wire = some { f with appMetaInfo := m.appMetaInfo ++ f.appMetaInfo } := by
  unfold wireDecode at h ⊢
  rcases hparse : parse wire.value with _ | elements <;> grind

/-! ### Objects that setters build -/

/-- What the setters make. -/
structure WellFormed (m : MetaInfo) : Prop where
  finalBlockId : m.finalBlockId.empty = true ∨ m.finalBlockId.WellFormed
  appMetaInfo : ∀ b ∈ m.appMetaInfo, b.Valid ∧ IsAppType b.type

variable {m : MetaInfo}

/-- A new MetaInfo is well formed. -/
theorem wellFormed_new : WellFormed {} :=
  ⟨.inl rfl, fun _ hb => absurd hb not_mem_nil⟩

/-- `setType` keeps it well formed. -/
theorem WellFormed.setType (hm : m.WellFormed) (type : UInt32) : (m.setType type).WellFormed :=
  ⟨hm.finalBlockId, hm.appMetaInfo⟩

/-- `setFreshnessPeriod` keeps it well formed. -/
theorem WellFormed.setFreshnessPeriod (hm : m.WellFormed) (period : Int64) :
    (m.setFreshnessPeriod period).WellFormed :=
  ⟨hm.finalBlockId, hm.appMetaInfo⟩

/-- `setFinalBlockId` keeps it well formed. -/
theorem WellFormed.setFinalBlockId (hm : m.WellFormed) {c : Component}
    (hc : c.empty = true ∨ c.WellFormed) : (m.setFinalBlockId c).WellFormed :=
  ⟨hc, hm.appMetaInfo⟩

/-- `setAppMetaInfo` with valid blocks keeps it well formed. -/
theorem WellFormed.setAppMetaInfo {m' : MetaInfo} {info : List Block} (hm : m.WellFormed)
    (hinfo : ∀ b ∈ info, b.Valid) (h : m.setAppMetaInfo info = some m') : m'.WellFormed := by
  obtain ⟨hrange, h⟩ := ite_none_right_eq_some.mp h
  obtain rfl := some.inj h
  exact ⟨hm.finalBlockId, fun b hb => ⟨hinfo b hb, hrange b hb⟩⟩

variable {b : Block}

/-- `addAppMetaInfo` with a valid block keeps it well formed. -/
theorem WellFormed.addAppMetaInfo {m' : MetaInfo} (hm : m.WellFormed) (hb : b.Valid)
    (h : m.addAppMetaInfo b = some m') : m'.WellFormed := by
  obtain ⟨hrange, h⟩ := ite_none_right_eq_some.mp h
  obtain rfl := some.inj h
  refine ⟨hm.finalBlockId, fun b' hb' => ?_⟩
  grind [hm.appMetaInfo]

/-- `removeAppMetaInfo` keeps it well formed. -/
theorem WellFormed.removeAppMetaInfo (hm : m.WellFormed) (tlvType : ℕ) :
    (m.removeAppMetaInfo tlvType).WellFormed :=
  ⟨hm.finalBlockId, fun b hb => hm.appMetaInfo b (mem_of_mem_eraseP hb)⟩

/-! ### The elements -/

/-- The element of the type, if it is not 0. -/
def contentTypeElement (m : MetaInfo) : Option Block :=
  if m.type ≠ 0 then
    some (Block.make Tlv.contentType (Tlv.nonNegativeInteger m.type.toUInt64)) else none

/-- The element of the freshness period, if it is not negative. -/
def freshnessPeriodElement (m : MetaInfo) : Option Block :=
  if 0 ≤ m.freshnessPeriod then
    some (Block.make Tlv.freshnessPeriod (Tlv.nonNegativeInteger m.freshnessPeriod.toUInt64))
  else none

/-- The element of the final block, if there is one. -/
def finalBlockIdElement (m : MetaInfo) : Option Block :=
  if m.finalBlockId.empty = false then
    some (Block.make Tlv.finalBlockId m.finalBlockId.wire) else none

/-- The elements of the value, in their order. -/
def elements (m : MetaInfo) : List Block :=
  m.contentTypeElement.toList ++ (m.freshnessPeriodElement.toList ++
    (m.finalBlockIdElement.toList ++ m.appMetaInfo))

/-- The element that is written. -/
def block (m : MetaInfo) : Block :=
  Block.make Tlv.metaInfo (m.elements.flatMap Block.wire)

/-- What is read from the element of `m` into another object. -/
def reread (m old : MetaInfo) : MetaInfo where
  type := m.type
  freshnessPeriod := if 0 ≤ m.freshnessPeriod then m.freshnessPeriod else Int64.minValue
  finalBlockId :=
    if m.finalBlockId.empty = false ∧ m.finalBlockId.type = Tlv.nameComponent then m.finalBlockId
    else .reset
  appMetaInfo := old.appMetaInfo ++ m.appMetaInfo

/-- A final block that is set is well formed. -/
theorem WellFormed.wellFormed_finalBlockId (hm : m.WellFormed)
    (hset : m.finalBlockId.empty = false) : m.finalBlockId.WellFormed :=
  hm.finalBlockId.resolve_left (by simp [hset])

/-- The final block of a MetaInfo that fits does fit. -/
theorem fits_finalBlockId (hfits : m.block.Fits) (hset : m.finalBlockId.empty = false) :
    (make Tlv.finalBlockId m.finalBlockId.wire).Fits ∧ m.finalBlockId.block.Fits := by
  have helement : (make Tlv.finalBlockId m.finalBlockId.wire).Fits :=
    hfits.element (by simp [elements, finalBlockIdElement, hset])
  exact ⟨helement, Fits.inner (b := m.finalBlockId.block) helement⟩

/-- The encoder writes the element. -/
theorem writes_wireEncode (hm : m.WellFormed) (hfits : m.block.Fits) :
    m.wireEncode.Writes m.block.wire := by
  have hfinal : m.finalBlockId.empty = false →
      (element Tlv.finalBlockId m.finalBlockId.wireEncode).Writes
        (make Tlv.finalBlockId m.finalBlockId.wire).wire := by
    intro hset
    obtain ⟨helement, hcomponent⟩ := fits_finalBlockId hfits hset
    have hwrites := Component.writes_wireEncode (hm.wellFormed_finalBlockId hset).typed hcomponent
    exact hwrites.element (by decide) helement.value
  have hfreshness := writes_nonNegativeIntegerBlock (show Tlv.freshnessPeriod < 2 ^ 32 by decide)
    m.freshnessPeriod.toUInt64
  have htype := writes_nonNegativeIntegerBlock (show Tlv.contentType < 2 ^ 32 by decide)
    m.type.toUInt64
  have happ : ∀ b ∈ m.appMetaInfo, b.Fits := fun b hb => hfits.element (by simp [elements, hb])
  have hvalue := (((writesAll_blocks happ).andThen (Writes.onlyIf hfinal)).andThen
    (Writes.onlyIf (c := 0 ≤ m.freshnessPeriod) fun _ => hfreshness)).andThen
    (Writes.onlyIf (c := m.type ≠ 0) fun _ => htype)
  exact hvalue.element (by decide) hfits

/-- The element of the type is valid. -/
theorem mem_contentTypeElement (hb : b ∈ m.contentTypeElement) :
    b.type = Tlv.contentType ∧ b.Valid := by
  have hlength := Tlv.length_nonNegativeInteger_le m.type.toUInt64
  obtain ⟨-, hb⟩ := ite_none_right_eq_some.mp hb
  rw [← some.inj hb]
  exact ⟨rfl, valid_make (by decide) (by omega)⟩

/-- The element of the freshness period is valid. -/
theorem mem_freshnessPeriodElement (hb : b ∈ m.freshnessPeriodElement) :
    b.type = Tlv.freshnessPeriod ∧ b.Valid := by
  have hlength := Tlv.length_nonNegativeInteger_le m.freshnessPeriod.toUInt64
  obtain ⟨-, hb⟩ := ite_none_right_eq_some.mp hb
  rw [← some.inj hb]
  exact ⟨rfl, valid_make (by decide) (by omega)⟩

/-- The element of the final block is valid. -/
theorem mem_finalBlockIdElement (hfits : m.block.Fits) (hb : b ∈ m.finalBlockIdElement) :
    b.type = Tlv.finalBlockId ∧ b.Valid := by
  obtain ⟨hset, hb⟩ := ite_none_right_eq_some.mp hb
  rw [← some.inj hb]
  exact ⟨rfl, valid_make (by decide) (fits_finalBlockId hfits hset).1.value⟩

/-- The elements are valid. -/
theorem valid_elements (hm : m.WellFormed) (hfits : m.block.Fits) : ∀ b ∈ m.elements, b.Valid := by
  intro b hb
  simp only [elements, mem_append, mem_toList] at hb
  grind [mem_contentTypeElement, mem_freshnessPeriodElement, mem_finalBlockIdElement,
    hm.appMetaInfo]

/-- An optional element is taken if it is there, and left out otherwise. -/
theorem next_append {type : ℕ} {o : Option Block} {bs : List Block} (ho : ∀ b ∈ o, b.type = type)
    (hbs : ∀ b ∈ bs, b.type ≠ type) : next type (o.toList ++ bs) = (o, bs) := by
  rcases o with _ | b
  · rcases bs with _ | ⟨b, bs⟩
    all_goals grind [next]
  · rw [toList_some, singleton_append, next, if_pos (ho b rfl)]

/-- The type is read back. -/
theorem decodeType_contentTypeElement : decodeType m.contentTypeElement = some m.type := by
  unfold contentTypeElement
  split
  · simp [decodeType, readNonNegativeInteger, make]
  · rename_i hzero
    rw [not_not.mp hzero]
    rfl

/-- The freshness period is read back. -/
theorem decodeFreshnessPeriod_freshnessPeriodElement :
    decodeFreshnessPeriod m.freshnessPeriodElement = some (m.reread m).freshnessPeriod := by
  unfold freshnessPeriodElement reread
  split
  · simp [decodeFreshnessPeriod, readNonNegativeInteger, make]
  · rfl

/-- The final block is read back. -/
theorem decodeFinalBlockId_finalBlockIdElement (hm : m.WellFormed) (hfits : m.block.Fits) :
    decodeFinalBlockId m.finalBlockIdElement = some (m.reread m).finalBlockId := by
  by_cases hset : m.finalBlockId.empty = false
  · have hcomponent := hm.wellFormed_finalBlockId hset
    have hvalid := Component.valid_block hcomponent.typed (fits_finalBlockId hfits hset).2
    have hread : ofBuffer (make Tlv.finalBlockId m.finalBlockId.wire).value
        = some m.finalBlockId.block := hvalid.ofBuffer_eq
    grind [finalBlockIdElement, decodeFinalBlockId, Component.ofBlock_block, reread]
  · simp [finalBlockIdElement, decodeFinalBlockId, reread, hset]

/-- The element is decoded field by field. -/
theorem wireDecode_block (hm : m.WellFormed) (hfits : m.block.Fits) (old : MetaInfo) :
    old.wireDecode m.block = some (m.reread old) := by
  have hparse : parse m.block.value = some m.elements :=
    parse_flatMap (valid_elements hm hfits)
  have happ : ∀ type < 128, ∀ b ∈ m.appMetaInfo, b.type ≠ type := by
    intro type htype b hb heq
    have hrange := (hm.appMetaInfo b hb).2.1
    omega
  -- the elements come in the order of their types
  have hthird : next Tlv.finalBlockId (m.finalBlockIdElement.toList ++ m.appMetaInfo) =
      (m.finalBlockIdElement, m.appMetaInfo) :=
    next_append (fun b hb => (mem_finalBlockIdElement hfits hb).1) (happ _ (by decide))
  have hsecond : next Tlv.freshnessPeriod (m.freshnessPeriodElement.toList ++
      (m.finalBlockIdElement.toList ++ m.appMetaInfo))
        = (m.freshnessPeriodElement, m.finalBlockIdElement.toList ++ m.appMetaInfo) := by
    refine next_append (fun b hb => (mem_freshnessPeriodElement hb).1) fun b hb => ?_
    simp only [mem_append, mem_toList] at hb
    rcases hb with hb | hb
    · rw [(mem_finalBlockIdElement hfits hb).1]
      decide
    · exact happ _ (by decide) b hb
  have hfirst : next Tlv.contentType m.elements = (m.contentTypeElement,
      m.freshnessPeriodElement.toList ++ (m.finalBlockIdElement.toList ++ m.appMetaInfo)) := by
    refine next_append (fun b hb => (mem_contentTypeElement hb).1) fun b hb => ?_
    simp only [mem_append, mem_toList] at hb
    rcases hb with hb | hb | hb
    · rw [(mem_freshnessPeriodElement hb).1]
      decide
    · rw [(mem_finalBlockIdElement hfits hb).1]
      decide
    · exact happ _ (by decide) b hb
  unfold wireDecode
  rw [hparse]
  simp only [hfirst, hsecond, hthird, decodeType_contentTypeElement,
    decodeFreshnessPeriod_freshnessPeriodElement, decodeFinalBlockId_finalBlockIdElement hm hfits]
  rfl

/-! ### What is read back -/

/-- `getFinalBlockId`, with `none` for an empty component. -/
def getFinalBlockId (m : MetaInfo) : Option Component :=
  if m.finalBlockId.empty then none else some m.finalBlockId

/-- The FinalBlockId is one that decoding keeps. -/
def KeepsFinalBlockId (m : MetaInfo) : Prop :=
  m.finalBlockId.empty = true ∨ m.finalBlockId.type = Tlv.nameComponent

instance (m : MetaInfo) : Decidable m.KeepsFinalBlockId :=
  inferInstanceAs (Decidable (_ ∨ _))

/-- The period is one that decoding keeps. -/
def KeepsFreshnessPeriod (m : MetaInfo) : Prop :=
  0 ≤ m.freshnessPeriod ∨ m.freshnessPeriod = Int64.minValue

instance (m : MetaInfo) : Decidable m.KeepsFreshnessPeriod :=
  inferInstanceAs (Decidable (_ ∨ _))

variable (old : MetaInfo)

/-- When the freshness period is kept. -/
theorem reread_freshnessPeriod_eq_iff :
    (m.reread old).freshnessPeriod = m.freshnessPeriod ↔ m.KeepsFreshnessPeriod := by
  unfold reread KeepsFreshnessPeriod
  grind

/-- When the final block is kept. -/
theorem reread_getFinalBlockId_eq_iff :
    (m.reread old).getFinalBlockId = m.getFinalBlockId ↔ m.KeepsFinalBlockId := by
  unfold getFinalBlockId reread KeepsFinalBlockId
  by_cases hempty : m.finalBlockId.empty = true
  · simp [hempty]
  · by_cases htype : m.finalBlockId.type = Tlv.nameComponent
    · simp [hempty, htype]
    · simp [hempty, htype]

/-- What was read is well formed. -/
theorem WellFormed.reread (hm : m.WellFormed) : (m.reread m).WellFormed := by
  constructor
  · change Component.empty (if _ then _ else _) = true ∨ Component.WellFormed (if _ then _ else _)
    split
    · exact hm.finalBlockId
    · exact .inl rfl
  · intro b hb
    rcases mem_append.mp hb with hb | hb
    · exact hm.appMetaInfo b hb
    · exact hm.appMetaInfo b hb

/-- Only a final block of a generic component is written again. -/
theorem finalBlockIdElement_reread : (m.reread old).finalBlockIdElement
      = if m.finalBlockId.type = Tlv.nameComponent then m.finalBlockIdElement else none := by
  unfold finalBlockIdElement reread
  by_cases hempty : m.finalBlockId.empty = false
  · by_cases htype : m.finalBlockId.type = Tlv.nameComponent
    · simp [hempty, htype]
    · simp [htype]
  · simp [hempty]

/-- The elements of a MetaInfo that was read. -/
theorem elements_reread : (m.reread old).elements
    = m.contentTypeElement.toList ++ (m.freshnessPeriodElement.toList ++
      ((m.reread old).finalBlockIdElement.toList ++ (old.appMetaInfo ++ m.appMetaInfo))) := by
  have hfreshness : (m.reread old).freshnessPeriodElement = m.freshnessPeriodElement := by
    grind [freshnessPeriodElement, reread]
  rw [elements, hfreshness]
  rfl

/-- The elements that are written after decoding are the same exactly if nothing was appended and
nothing was dropped. -/
theorem elements_reread_eq_iff (hm : m.WellFormed) :
    (m.reread m).elements = m.elements ↔ m.appMetaInfo = [] ∧ m.KeepsFinalBlockId := by
  rw [elements_reread, elements, append_cancel_left_eq, append_cancel_left_eq,
    finalBlockIdElement_reread]
  by_cases hkeeps : m.KeepsFinalBlockId
  · have hsame : (if m.finalBlockId.type = Tlv.nameComponent then m.finalBlockIdElement else none)
        = m.finalBlockIdElement := by
      rcases hkeeps with hempty | htype
      · simp [finalBlockIdElement, hempty]
      · rw [if_pos htype]
    rw [hsame, append_cancel_left_eq]
    simp [hkeeps]
  obtain ⟨hempty, htype⟩ := not_or.mp hkeeps
  have hset : m.finalBlockIdElement = some (make Tlv.finalBlockId m.finalBlockId.wire) := by
    rw [finalBlockIdElement, if_pos (by simpa using hempty)]
  rw [if_neg htype, hset]
  refine iff_of_false (fun heq => ?_) fun h => hkeeps h.2
  -- the element of the digest would be the first one of an application
  rcases happ : m.appMetaInfo with _ | ⟨b, bs⟩
  · simp [happ] at heq
  rw [happ] at heq
  have hhead : b = make Tlv.finalBlockId m.finalBlockId.wire := (cons.inj heq).1
  have hrange := (hm.appMetaInfo b (by rw [happ]; exact mem_cons_self)).2.1
  have hlow : ¬ 128 ≤ Tlv.finalBlockId := by decide
  rw [hhead] at hrange
  exact hlow hrange

end MetaInfo

end IcnDemo.Codec
