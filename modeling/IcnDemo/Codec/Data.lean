import IcnDemo.Codec.MetaInfo
import IcnDemo.Codec.Signature

/-!
# Data packets

`wireEncode` is a const method that decodes what it has encoded into the object itself, and
`wireDecode` does not begin with a new object: the elements of applications are appended to those
that are there, and a signature value stays when the packet has none.  So the object can change when
it is encoded, and the next encoding can be another one.
-/

namespace IcnDemo.Codec

open List Option Block Prepend

/-- `Signature`; the value of an object without one is encoded as an empty element of the greatest
type. -/
structure Signature where
  info : SignatureInfo := {}
  value : Block := Block.make 4294967295 []
deriving DecidableEq, Repr

/-- `Signature::setValue`, `none` when it throws. -/
def Signature.setValue (value : Block) (s : Signature) : Option Signature :=
  if value.type ≠ Tlv.signatureValue then none else some { s with value }

/-- `Data`, with its wire encoding if there is one. -/
structure Data where
  name : Name := []
  metaInfo : MetaInfo := {}
  content : Block := Block.make Tlv.content []
  signature : Signature := {}
  wire : Option Block := none
deriving DecidableEq, Repr

namespace Data

/-! ### Setters -/

/-- The setters with their arguments; `setContent` takes a block or octets. -/
inductive Setter where
  | name (n : Name)
  | metaInfo (m : MetaInfo)
  | contentType (type : UInt32)
  | freshnessPeriod (period : Int64)
  | finalBlockId (c : Component)
  | content (b : Block)
  | contentValue (value : List UInt8)
  | signature (s : Signature)
  | signatureValue (b : Block)
deriving DecidableEq, Repr

/-- `setContent` wraps a block that is not a Content. -/
def contentOf (b : Block) : Block :=
  if b.type = Tlv.content then b else Block.make Tlv.content b.wire

/-- A setter, `none` when it throws.  All of them reset the wire encoding (`onChanged`). -/
def set (d : Data) : Setter → Option Data
  | .name name => some { d with name, wire := none }
  | .metaInfo metaInfo => some { d with metaInfo, wire := none }
  | .contentType type => some { d with metaInfo := d.metaInfo.setType type, wire := none }
  | .freshnessPeriod period =>
    some { d with metaInfo := d.metaInfo.setFreshnessPeriod period, wire := none }
  | .finalBlockId c => some { d with metaInfo := d.metaInfo.setFinalBlockId c, wire := none }
  | .content b => some { d with content := contentOf b, wire := none }
  | .contentValue value => some { d with content := Block.make Tlv.content value, wire := none }
  | .signature signature => some { d with signature, wire := none }
  | .signatureValue b =>
    (d.signature.setValue b).map fun signature => { d with signature, wire := none }

/-- The same setter with what its getter returns. -/
def former (d : Data) : Setter → Setter
  | .name _ => .name d.name
  | .metaInfo _ => .metaInfo d.metaInfo
  | .contentType _ => .contentType d.metaInfo.type
  | .freshnessPeriod _ => .freshnessPeriod d.metaInfo.freshnessPeriod
  | .finalBlockId _ => .finalBlockId d.metaInfo.finalBlockId
  | .content _ | .contentValue _ => .content d.content
  | .signature _ => .signature d.signature
  | .signatureValue _ => .signatureValue d.signature.value

/-! ### Encoding and decoding -/

/-- `wireEncode` with an encoder, once the SignatureInfo is encoded. -/
def encode (d : Data) (info : Block) : Prepend :=
  element Tlv.data (((((block d.signature.value).andThen (block info)).andThen
      (block d.content)).andThen d.metaInfo.wireEncode).andThen d.name.wireEncode)

/-- `Data::wireDecode` into an object, `none` when it throws.  The type of the element is not looked
at. -/
def wireDecode (wire : Block) (d : Data) : Option Data := do
  let elements ← Block.parse wire.value
  let name ← (Block.find elements Tlv.name).bind Name.wireDecode
  let metaInfo ← (Block.find elements Tlv.metaInfo).bind d.metaInfo.wireDecode
  let content ← Block.find elements Tlv.content
  let info ← (Block.find elements Tlv.signatureInfo).bind SignatureInfo.wireDecode
  let value := (Block.find elements Tlv.signatureValue).getD d.signature.value
  some { name, metaInfo, content, signature := { info, value }, wire := some wire }

/-- `Data::wireEncode`: the wire encoding and the object after the call, `none` when it throws. -/
def wireEncode (d : Data) : Option (Block × Data) :=
  match d.wire with
  | some w => some (w, d)
  | none =>
    if d.signature.info.type = -1 then none
    else do
      let info ← d.signature.info.wireEncode
      let w ← Block.ofBuffer (d.encode info.1).octets
      let d' ← d.wireDecode w
      some (w, d')

/-! ### Getters -/

/-- What the getters return. -/
@[ext] structure Getters where
  name : Name
  contentType : UInt32
  freshnessPeriod : Int64
  finalBlockId : Option Component
  appMetaInfo : List Block
  content : Block
  signatureInfo : Option Block
  signatureType : Int32
  keyLocator : Option KeyLocator
  signatureValue : Block
deriving DecidableEq, Repr

/-- All that the getters return. -/
def getters (d : Data) : Getters where
  name := d.name
  contentType := d.metaInfo.type
  freshnessPeriod := d.metaInfo.freshnessPeriod
  finalBlockId := d.metaInfo.getFinalBlockId
  appMetaInfo := d.metaInfo.appMetaInfo
  content := d.content
  signatureInfo := d.signature.info.wireEncode.map Prod.fst
  signatureType := d.signature.info.type
  keyLocator := d.signature.info.keyLocator
  signatureValue := d.signature.value

/-! ### Decoding into an object -/

/-- The packet has a SignatureValue. -/
def HasSignatureValue (wire : Block) : Prop :=
  ((Block.parse wire.value).bind (Block.find · Tlv.signatureValue)).isSome = true

instance (wire : Block) : Decidable (HasSignatureValue wire) :=
  inferInstanceAs (Decidable (_ = true))

variable {wire : Block} {s : Setter}

/-- Decoding into an object differs from decoding into a new one in the application elements. -/
theorem wireDecode_of_new {f : Data} (h : ({} : Data).wireDecode wire = some f) (d : Data) :
    d.wireDecode wire = some { f with
      metaInfo :=
        { f.metaInfo with appMetaInfo := d.metaInfo.appMetaInfo ++ f.metaInfo.appMetaInfo }
      signature := { f.signature with
        value := if HasSignatureValue wire then f.signature.value else d.signature.value } } := by
  simp only [wireDecode, bind_eq_bind, bind_eq_some_iff] at h
  obtain ⟨elements, hparse, name, ⟨nameElement, hname, hname'⟩, metaInfo,
    ⟨metaElement, hmeta, hmeta'⟩, content, hcontent, info, ⟨infoElement, hinfo, hinfo'⟩, h⟩ := h
  obtain rfl := some.inj h
  have hmetaInfo : d.metaInfo.wireDecode metaElement
      = some { metaInfo with appMetaInfo := d.metaInfo.appMetaInfo ++ metaInfo.appMetaInfo } :=
    MetaInfo.wireDecode_of_new hmeta' d.metaInfo
  have hvalue :
      HasSignatureValue wire ↔ (find elements Tlv.signatureValue).isSome = true := by
    rw [HasSignatureValue, hparse, bind_some]
  simp only [wireDecode, hparse, hname, hname', hmeta, hmetaInfo, hcontent, hinfo, hinfo', hvalue,
    bind_eq_bind, bind_some, some.injEq, mk.injEq, Signature.mk.injEq,
    true_and, and_true]
  rcases find elements Tlv.signatureValue with _ | value
  · simp
  · simp

/-- The content is an element of the wire. -/
theorem content_of_wireDecode {d d' : Data} (h : d.wireDecode wire = some d') :
    ∃ elements, parse wire.value = some elements ∧
      find elements Tlv.content = some d'.content := by
  simp only [wireDecode, bind_eq_bind, bind_eq_some_iff] at h
  grind

/-- An object gets what a new one gets exactly if it has no elements of applications, and no
signature value that the packet does not replace. -/
theorem getters_wireDecode_iff {f : Data} (h : ({} : Data).wireDecode wire = some f) (d : Data) :
    (∃ d', d.wireDecode wire = some d' ∧ d'.getters = f.getters) ↔ d.metaInfo.appMetaInfo = [] ∧
        (HasSignatureValue wire ∨ d.signature.value = ({} : Signature).value) := by
  have hnew : ¬ HasSignatureValue wire → f.signature.value = ({} : Signature).value := by
    intro hnone
    have hself := (wireDecode_of_new h {}).symm.trans h
    grind
  simp only [wireDecode_of_new h, some.injEq, exists_eq_left', getters, Getters.mk.injEq,
    MetaInfo.getFinalBlockId, true_and, append_left_eq_self]
  grind

/-! ### Objects that setters build -/

/-- Arguments that a caller can have. -/
def Setter.WellFormed : Setter → Prop
  | .name n => n.Typed
  | .metaInfo m => m.WellFormed
  | .contentType _ => True
  | .freshnessPeriod _ => True
  | .finalBlockId c => c.empty = true ∨ c.WellFormed
  | .content b => b.Valid
  | .contentValue _ => True
  | .signature s => s.info.WellFormed ∧ s.value.Valid
  | .signatureValue b => b.Valid

/-- The objects that are made with a name and changed by setters. -/
inductive Built : Data → Prop where
  | new {n : Name} (hn : n.Typed) : Built { name := n }
  | set {d d' : Data} {s : Setter} (hd : Built d) (hs : s.WellFormed) (h : d.set s = some d') :
      Built d'

/-- The parts are of the right types, and can be read where they fit. -/
structure WellFormed (d : Data) : Prop where
  name : d.name.Typed
  metaInfo : d.metaInfo.WellFormed
  type_content : d.content.type = Tlv.content
  content : d.content.Fits → d.content.Valid
  signatureInfo : d.signature.info.WellFormed
  signatureValue : d.signature.value.Valid

variable {d d' : Data}

/-- A setter keeps a Data well formed. -/
theorem WellFormed.set (hd : d.WellFormed) (hs : s.WellFormed) (h : d.set s = some d') :
    d'.WellFormed := by
  rcases s with n | m | type | period | c | b | value | s | b
  case signatureValue =>
    obtain ⟨signature, hset, rfl⟩ := map_eq_some_iff.mp h
    obtain ⟨-, hset⟩ := ite_none_left_eq_some.mp hset
    obtain rfl := some.inj hset
    exact { hd with signatureValue := hs }
  all_goals obtain rfl := some.inj h
  case name => exact { hd with name := hs }
  case metaInfo => exact { hd with metaInfo := hs }
  case contentType => exact { hd with metaInfo := hd.metaInfo.setType type }
  case freshnessPeriod => exact { hd with metaInfo := hd.metaInfo.setFreshnessPeriod period }
  case finalBlockId => exact { hd with metaInfo := hd.metaInfo.setFinalBlockId hs }
  case content =>
    by_cases htype : b.type = Tlv.content
    · have hcontent : contentOf b = b := if_pos htype
      exact { hd with
        type_content := by rw [hcontent, htype]
        content := fun _ => by rwa [hcontent] }
    · have hcontent : contentOf b = make Tlv.content b.wire := if_neg htype
      refine { hd with type_content := by rw [hcontent]; rfl, content := fun hfits => ?_ }
      rw [hcontent] at hfits ⊢
      exact valid_make (by decide) hfits.value
  case contentValue =>
    exact { hd with
      type_content := rfl
      content := fun hfits => valid_make (by decide) hfits.value }
  case signature => exact { hd with signatureInfo := hs.1, signatureValue := hs.2 }

/-- A setter drops the wire. -/
theorem wire_set (h : d.set s = some d') : d'.wire = none := by
  rcases s with n | m | type | period | c | b | value | s | b
  case signatureValue =>
    obtain ⟨signature, -, rfl⟩ := map_eq_some_iff.mp h
    rfl
  all_goals
    obtain rfl := some.inj h
    rfl

/-- A Data that is built with setters is well formed and has no wire. -/
theorem Built.wellFormed (h : Built d) : d.WellFormed ∧ d.wire = none := by
  induction h with
  | new hn =>
    refine ⟨⟨hn, MetaInfo.wellFormed_new, rfl, fun _ => ?_, SignatureInfo.wellFormed_new (-1), ?_⟩,
      rfl⟩
    · exact valid_make (by decide) (by simp)
    · exact valid_make (by decide) (by simp)
  | set _ hs h ih => exact ⟨ih.1.set hs h, wire_set h⟩

/-- A setter with the former value undoes a setter, up to the wire. -/
theorem set_former {d₂ d₃ : Data} (hcontent : d.content.type = Tlv.content) (h : d.set s = some d₂)
    (h' : d₂.set (d.former s) = some d₃) : d₃ = { d with wire := none } := by
  rcases s with n | m | type | period | c | b | value | s | b
  case signatureValue =>
    obtain ⟨signature, hset, rfl⟩ := map_eq_some_iff.mp h
    obtain ⟨signature', hset', rfl⟩ := map_eq_some_iff.mp h'
    obtain ⟨-, hset⟩ := ite_none_left_eq_some.mp hset
    obtain ⟨-, hset'⟩ := ite_none_left_eq_some.mp hset'
    obtain rfl := some.inj hset
    obtain rfl := some.inj hset'
    rfl
  all_goals
    obtain rfl := some.inj h
    obtain rfl := some.inj h'
  case content => rw [show contentOf d.content = d.content from if_pos hcontent]
  case contentValue => rw [show contentOf d.content = d.content from if_pos hcontent]
  all_goals rfl

/-! ### Encoding an object -/

/-- The elements of the value, in their order. -/
def elements (d : Data) : List Block :=
  [d.name.block, d.metaInfo.block, d.content, d.signature.info.block, d.signature.value]

/-- The element that is written. -/
def block (d : Data) : Block :=
  Block.make Tlv.data (d.elements.flatMap Block.wire)

/-- The object after its encoding was decoded into it. -/
def reread (d : Data) (info : SignatureInfo) : Data where
  name := d.name
  metaInfo := d.metaInfo.reread d.metaInfo
  content := d.content
  signature := { info, value := d.signature.value }
  wire := some d.block

section Encoding

variable (hd : d.WellFormed) (hfits : d.block.Fits)

include hd hfits

/-- The elements of a Data are valid. -/
theorem valid_elements : ∀ b ∈ d.elements, b.Valid := by
  intro b hb
  have hb' : b.Fits := hfits.element hb
  simp only [elements, mem_cons, not_mem_nil, or_false] at hb
  rcases hb with rfl | rfl | rfl | rfl | rfl
  · exact Name.valid_block hb'
  · exact valid_make (by decide) hb'.value
  · exact hd.content hb'
  · exact SignatureInfo.valid_block hd.signatureInfo hb'
  · exact hd.signatureValue

/-- The encoder writes the element. -/
theorem writes_encode : (d.encode d.signature.info.block).Writes d.block.wire := by
  have hname := Name.writes_wireEncode hd.name (hfits.element (by simp [elements]))
  have hmeta := MetaInfo.writes_wireEncode hd.metaInfo (hfits.element (by simp [elements]))
  have hblock : ∀ b ∈ d.elements, (Prepend.block b).WritesAll [b] := fun b hb =>
    writesAll_block (hfits.element hb)
  have hvalue := ((((hblock d.signature.value (by simp [elements])).andThen
    (hblock d.signature.info.block (by simp [elements]))).andThen
      (hblock d.content (by simp [elements]))).andThen hmeta.all).andThen hname.all
  exact hvalue.element (by decide) hfits

/-- The element is decoded field by field. -/
theorem wireDecode_block :
    d.wireDecode d.block = (SignatureInfo.wireDecode d.signature.info.block).map d.reread := by
  have hparse : parse d.block.value = some d.elements :=
    parse_flatMap (valid_elements hd hfits)
  have htypes : d.name.block.type = Tlv.name ∧ d.metaInfo.block.type = Tlv.metaInfo :=
    ⟨rfl, rfl⟩
  have hname : find d.elements Tlv.name = some d.name.block := by
    simp [find, elements, htypes]
  have hmeta : find d.elements Tlv.metaInfo = some d.metaInfo.block := by
    simp [find, elements, htypes, Tlv.name, Tlv.metaInfo]
  have hcontent : find d.elements Tlv.content = some d.content := by
    simp [find, elements, htypes, hd.type_content, Tlv.name, Tlv.metaInfo, Tlv.content]
  have hinfo : find d.elements Tlv.signatureInfo = some d.signature.info.block := by
    simp [find, elements, htypes, hd.type_content, SignatureInfo.type_block hd.signatureInfo,
      Tlv.name, Tlv.metaInfo, Tlv.content, Tlv.signatureInfo]
  -- no other element has the type of the value
  have hvalue : (find d.elements Tlv.signatureValue).getD d.signature.value
      = d.signature.value := by
    rcases hfind : find d.elements Tlv.signatureValue with _ | b
    · rfl
    have htype : b.type = Tlv.signatureValue := by simpa using find?_some hfind
    have hmem := mem_of_find?_eq_some hfind
    simp only [elements, mem_cons, not_mem_nil, or_false] at hmem
    rcases hmem with rfl | rfl | rfl | rfl | rfl
    · exact absurd htype (by rw [htypes.1]; decide)
    · exact absurd htype (by rw [htypes.2]; decide)
    · exact absurd htype (by rw [hd.type_content]; decide)
    · exact absurd htype (by rw [SignatureInfo.type_block hd.signatureInfo]; decide)
    · rfl
  have hname' := Name.wireDecode_block hd.name (hfits.element (by simp [elements]))
  have hmeta' := MetaInfo.wireDecode_block hd.metaInfo (hfits.element (by simp [elements]))
    d.metaInfo
  simp only [wireDecode, hparse, hname, hname', hmeta, hmeta', hcontent, hinfo, hvalue,
    bind_eq_bind, bind_some]
  rcases SignatureInfo.wireDecode d.signature.info.block with _ | info
  · rfl
  · rfl

/-- Encoding writes the element and decodes it. -/
theorem wireEncode_eq (hwire : d.wire = none) (hsigned : d.signature.info.type ≠ -1)
    (hknown : d.signature.info.Known) :
    d.wireEncode = (SignatureInfo.wireDecode d.signature.info.block).map fun info =>
      (d.block, d.reread info) := by
  have hinfo := SignatureInfo.wireEncode_eq hd.signatureInfo hknown
    (hfits.element (by simp [elements]))
  have hvalid : d.block.Valid := valid_make (by decide) hfits.value
  simp only [wireEncode, hwire, hsigned, if_false, hinfo, (writes_encode hd hfits).octets_eq,
    hvalid.ofBuffer_eq, wireDecode_block hd hfits, bind_eq_bind, bind_some]
  rcases SignatureInfo.wireDecode d.signature.info.block with _ | info
  · rfl
  · rfl

/-- What is encoded has a known signature that can be read. -/
theorem exists_reread_of_wireEncode {w : Block} (hwire : d.wire = none)
    (hsigned : d.signature.info.type ≠ -1) (h : d.wireEncode = some (w, d')) :
    d.signature.info.Known ∧ ∃ info, SignatureInfo.wireDecode d.signature.info.block = some info ∧
      w = d.block ∧ d' = d.reread info := by
  by_cases hknown : d.signature.info.Known
  · simpa [wireEncode_eq hd hfits hwire hsigned hknown, hknown, eq_comm] using h
  · simp [wireEncode, hwire, hsigned, SignatureInfo.wireEncode_eq_none hknown] at h

end Encoding

/-! ### What encoding changes -/

/-- The object with the MetaInfo that is read back, in which the elements of applications are there
twice. -/
def doubled (d : Data) : Data :=
  { d with metaInfo := d.metaInfo.reread d.metaInfo }

/-- The packet can be counted in 32 bits, also with its elements of applications twice. -/
structure Fits (d : Data) : Prop where
  block : d.block.Fits
  doubled : d.doubled.block.Fits

instance (d : Data) : Decidable d.Fits :=
  decidable_of_iff (d.block.Fits ∧ d.doubled.block.Fits)
    ⟨fun h => ⟨h.1, h.2⟩, fun h => ⟨h.block, h.doubled⟩⟩

/-- The fields are such as decoding gives back. -/
def Stable (d : Data) : Prop :=
  d.metaInfo.appMetaInfo = [] ∧ d.metaInfo.KeepsFreshnessPeriod ∧ d.metaInfo.KeepsFinalBlockId ∧
    d.signature.info.Shown

instance (d : Data) : Decidable d.Stable :=
  inferInstanceAs (Decidable (_ ∧ _))

/-- When the getters return the same after a Data was written and read. -/
theorem getters_reread_eq_iff {info : SignatureInfo} (hd : d.WellFormed) (hfits : d.block.Fits)
    (hknown : d.signature.info.Known)
    (hinfo : SignatureInfo.wireDecode d.signature.info.block = some info) :
    (d.reread info).getters = d.getters ↔
      d.metaInfo.appMetaInfo = [] ∧ d.metaInfo.KeepsFreshnessPeriod ∧ d.metaInfo.KeepsFinalBlockId ∧
        info.type = d.signature.info.type ∧ info.keyLocator = d.signature.info.keyLocator := by
  have hblock : d.signature.info.block.Fits := hfits.element (by simp [elements])
  have hbefore := SignatureInfo.wireEncode_eq hd.signatureInfo hknown hblock
  have hafter : info.wireEncode = some (d.signature.info.block, info) := by
    obtain ⟨-, hwire, -⟩ := SignatureInfo.wireDecode_eq_some hinfo
    rw [SignatureInfo.wireEncode, hwire]
  have happ : (d.metaInfo.reread d.metaInfo).appMetaInfo = d.metaInfo.appMetaInfo ↔
      d.metaInfo.appMetaInfo = [] := append_left_eq_self
  constructor
  · intro h
    exact ⟨happ.mp (congrArg Getters.appMetaInfo h),
      (MetaInfo.reread_freshnessPeriod_eq_iff d.metaInfo).mp (congrArg Getters.freshnessPeriod h),
      (MetaInfo.reread_getFinalBlockId_eq_iff d.metaInfo).mp (congrArg Getters.finalBlockId h),
      congrArg Getters.signatureType h, congrArg Getters.keyLocator h⟩
  rintro ⟨hnil, hperiod, hfinal, htype, hlocator⟩
  have hsignature : info.wireEncode.map Prod.fst = d.signature.info.wireEncode.map Prod.fst := by
    rw [hbefore, hafter]
    rfl
  exact Getters.ext rfl rfl ((MetaInfo.reread_freshnessPeriod_eq_iff d.metaInfo).mpr hperiod)
    ((MetaInfo.reread_getFinalBlockId_eq_iff d.metaInfo).mpr hfinal) (happ.mpr hnil) rfl
      hsignature htype
    hlocator rfl

/-- A Data is encoded and keeps its values exactly if it is stable. -/
theorem getters_wireEncode_iff (hd : d.WellFormed) (hwire : d.wire = none)
    (hsigned : d.signature.info.type ≠ -1) (hfits : d.Fits) :
    (∃ w d', d.wireEncode = some (w, d') ∧ d'.getters = d.getters) ↔ d.Stable := by
  have hblock : d.signature.info.block.Fits := hfits.block.element (by simp [elements])
  have hshown := SignatureInfo.shown_iff hd.signatureInfo hblock
  constructor
  · rintro ⟨w, d', hencode, hsame⟩
    obtain ⟨hknown, info, hinfo, rfl, rfl⟩ :=
      exists_reread_of_wireEncode hd hfits.block hwire hsigned hencode
    obtain ⟨happ, hperiod, hfinal, htype, hlocator⟩ :=
      (getters_reread_eq_iff hd hfits.block hknown hinfo).mp hsame
    exact ⟨happ, hperiod, hfinal, hshown.mpr ⟨hknown, info, hinfo, htype, hlocator⟩⟩
  · rintro ⟨happ, hperiod, hfinal, hinfo⟩
    obtain ⟨hknown, info, hinfo, htype, hlocator⟩ := hshown.mp hinfo
    simp_all [wireEncode_eq, hfits.block, getters_reread_eq_iff]

/-! ### Encoding an object again -/

/-- The object that is encoded again. -/
def unwired (d : Data) : Data :=
  { d with wire := none }

section Again

variable {info : SignatureInfo} (hd : d.WellFormed) (hfits : d.Fits)
  (hinfo : SignatureInfo.wireDecode d.signature.info.block = some info)

include hd hfits hinfo

/-- A Data that was read is well formed without its wire. -/
theorem wellFormed_unwired : (d.reread info).unwired.WellFormed where
  name := hd.name
  metaInfo := hd.metaInfo.reread
  type_content := hd.type_content
  content := hd.content
  signatureInfo := SignatureInfo.wellFormed_of_wireDecode
    (SignatureInfo.valid_block hd.signatureInfo (hfits.block.element (by simp [elements]))) hinfo
  signatureValue := hd.signatureValue

omit hd hfits in
/-- The elements of a Data that was read, written anew. -/
theorem elements_unwired : (d.reread info).unwired.elements = [d.name.block,
    (d.metaInfo.reread d.metaInfo).block, d.content, d.signature.info.block,
      d.signature.value] := by
  obtain ⟨-, hwire, -⟩ := SignatureInfo.wireDecode_eq_some hinfo
  grind [SignatureInfo.block_of_wire, elements, unwired, reread]

omit hd in
/-- What was read is not larger. -/
theorem fits_unwired : (d.reread info).unwired.block.Fits := by
  rw [block, elements_unwired hinfo]
  exact hfits.doubled

/-- When a Data that was read is written as before. -/
theorem block_unwired_eq_iff : (d.reread info).unwired.block = d.block ↔
      d.metaInfo.appMetaInfo = [] ∧ d.metaInfo.KeepsFinalBlockId := by
  have hfits' := fits_unwired hfits hinfo
  have hvalid := valid_elements hd hfits.block
  have hvalid' := valid_elements (wellFormed_unwired hd hfits hinfo) hfits'
  have hmeta : (d.metaInfo.reread d.metaInfo).block.Fits :=
    hfits'.element (by rw [elements_unwired hinfo]; simp)
  rw [← MetaInfo.elements_reread_eq_iff hd.metaInfo]
  constructor
  · intro heq
    have hvalues : (d.reread info).unwired.elements = d.elements :=
      Block.flatMap_wire_inj hvalid' hvalid (congrArg Block.value heq)
    have hblock : (d.metaInfo.reread d.metaInfo).block = d.metaInfo.block := by
      simp only [elements, cons.injEq] at hvalues
      exact hvalues.2.1
    exact Block.flatMap_wire_inj (MetaInfo.valid_elements hd.metaInfo.reread hmeta)
      (MetaInfo.valid_elements hd.metaInfo (hfits.block.element (by simp [elements])))
      (congrArg Block.value hblock)
  · intro helements
    have hblock : (d.metaInfo.reread d.metaInfo).block = d.metaInfo.block := by
      rw [MetaInfo.block, helements, MetaInfo.block]
    rw [block, elements_unwired hinfo, hblock]
    rfl

/-- A Data that was read can be written anew. -/
theorem wireEncode_unwired (hsigned : d.signature.info.type ≠ -1)
    (hknown : d.signature.info.Known) :
    ∃ d', (d.reread info).unwired.wireEncode = some ((d.reread info).unwired.block, d') := by
  have hblock : d.signature.info.block.Fits := hfits.block.element (by simp [elements])
  have htype : info.type = d.signature.info.type :=
    (SignatureInfo.carries hd.signatureInfo hknown hblock).type_eq hinfo
  obtain ⟨-, hwire, -⟩ := SignatureInfo.wireDecode_eq_some hinfo
  have hsame : info.block = d.signature.info.block := SignatureInfo.block_of_wire hwire
  have hknown' : info.Known := fun hnone => by rw [hwire] at hnone; cases hnone
  have hencode := wireEncode_eq (wellFormed_unwired hd hfits hinfo) (fits_unwired hfits hinfo) rfl
    (by rw [unwired, reread, htype]; exact hsigned) hknown'
  grind [unwired, reread]

end Again

/-- Changing a field and changing it back gives the same encoding again. -/
def Reencodes (w : Block) (d : Data) : Prop :=
  ∀ (s : Setter) (d₂ d₃ : Data), s.WellFormed → d.set s = some d₂ → d₂.set (d.former s) = some d₃ →
    ∃ d₄, d₃.wireEncode = some (w, d₄)

/-- When decoding and encoding again gives the same octets. -/
theorem reencodes_iff {w : Block} (hd : d.WellFormed) (hwire : d.wire = none)
    (hsigned : d.signature.info.type ≠ -1) (hfits : d.Fits) (h : d.wireEncode = some (w, d')) :
    Reencodes w d' ↔ d.metaInfo.appMetaInfo = [] ∧ d.metaInfo.KeepsFinalBlockId := by
  obtain ⟨hknown, info, hinfo, rfl, rfl⟩ :=
    exists_reread_of_wireEncode hd hfits.block hwire hsigned h
  rw [← block_unwired_eq_iff hd hfits hinfo]
  obtain ⟨d₄, hagain⟩ := wireEncode_unwired hd hfits hinfo hsigned hknown
  constructor
  · intro hall
    -- the name is set to another one, and back
    obtain ⟨d₄', hsame⟩ := hall (.name []) _ _ (fun _ hc => absurd hc not_mem_nil) rfl rfl
    have hboth := hagain.symm.trans hsame
    exact congrArg Prod.fst (some.inj hboth)
  · intro hblock s d₂ d₃ _ hset hback
    rw [set_former (d := d.reread info) hd.type_content hset hback]
    rw [hblock] at hagain
    exact ⟨d₄, hagain⟩

/-! ### The three properties -/

/-- A signed packet with a period and without elements of applications. -/
def plain : Data where
  name := [.generic [65]]
  metaInfo := { freshnessPeriod := 1000 }
  signature := { info := { type := 0 }, value := Block.make Tlv.signatureValue [1] }

/-- The same packet with an element of an application. -/
def withAppMetaInfo : Data where
  name := [.generic [65]]
  metaInfo := { freshnessPeriod := 1000, appMetaInfo := [Block.make 128 [7]] }
  signature := { info := { type := 0 }, value := Block.make Tlv.signatureValue [1] }

/-- Decoding gives what a new object would get, exactly if the object has no elements of
applications and no signature value that is not replaced; encoding a signed object leaves its
getters as they are exactly if its fields are stable; and a field that is changed and changed back
gives the same encoding exactly if there are no elements of applications and the FinalBlockId is not
a digest. -/
theorem wireDecode_wireEncode_iff (old : Data) {f : Data} {wire : Block}
    (hdecode : ({} : Data).wireDecode wire = some f) (hbuilt : Built d)
    (hsigned : d.signature.info.type ≠ -1) (hfits : d.Fits) :
    ((∃ d', old.wireDecode wire = some d' ∧ d'.getters = f.getters) ↔
      old.metaInfo.appMetaInfo = [] ∧
        (HasSignatureValue wire ∨ old.signature.value = ({} : Signature).value)) ∧
    ((∃ w d', d.wireEncode = some (w, d') ∧ d'.getters = d.getters) ↔ d.Stable) ∧
    ∀ w d', d.wireEncode = some (w, d') →
      (Reencodes w d' ↔ d.metaInfo.appMetaInfo = [] ∧ d.metaInfo.KeepsFinalBlockId) := by
  obtain ⟨hd, hwire⟩ := hbuilt.wellFormed
  exact ⟨getters_wireDecode_iff hdecode old, getters_wireEncode_iff hd hwire hsigned hfits,
    fun w d' h => reencodes_iff hd hwire hsigned hfits h⟩

/-- Any well-formed MetaInfo can be set. -/
theorem built_withMetaInfo {m : MetaInfo} (h : m.WellFormed) :
    Built { plain with metaInfo := m } := by
  have hsignature : (Setter.signature plain.signature).WellFormed :=
    ⟨SignatureInfo.wellFormed_new 0, valid_make (by decide) (by decide)⟩
  exact .set (s := .signature plain.signature)
    (.set (s := .metaInfo m) (.new (n := [.generic [65]]) (by decide)) h rfl) hsignature rfl

/-- The plain Data is built with setters. -/
theorem built_plain : Built plain :=
  built_withMetaInfo (MetaInfo.wellFormed_new.setFreshnessPeriod 1000)

/-- The plain packet is decoded into a new object. -/
def plainDecoded : Data :=
  { plain with
    metaInfo := { plain.metaInfo with finalBlockId := .reset }
    signature := { plain.signature with
      info := { plain.signature.info with wire := some plain.signature.info.block } }
    wire := some plain.block }

/-- The plain Data is read back; read into an object with application elements, it keeps them. -/
theorem wireDecode_wireEncode_plain : ({} : Data).wireDecode plain.block = some plainDecoded ∧
    (∃ d', withAppMetaInfo.wireDecode plain.block = some d' ∧ d'.getters ≠ plainDecoded.getters) ∧
    (∃ w d', plain.wireEncode = some (w, d') ∧ d'.getters = plain.getters ∧ Reencodes w d') := by
  have hdecode : ({} : Data).wireDecode plain.block = some plainDecoded := by decide +kernel
  have h := wireDecode_wireEncode_iff withAppMetaInfo hdecode built_plain (by decide)
    (by decide +kernel)
  obtain ⟨w, d', hencode, hsame⟩ := h.2.1.mpr (by decide +kernel)
  refine ⟨hdecode, ?_, w, d', hencode, hsame, (h.2.2 w d' hencode).mpr (by decide +kernel)⟩
  have hnot : ¬ ∃ d', withAppMetaInfo.wireDecode plain.block = some d' ∧
      d'.getters = plainDecoded.getters := by
    decide +kernel
  rcases hd : withAppMetaInfo.wireDecode plain.block with _ | d'
  · exact absurd hd (by decide +kernel)
  · exact ⟨d', rfl, fun hsame => hnot ⟨d', hd, hsame⟩⟩

/-- The Data with application elements is built with setters. -/
theorem built_withAppMetaInfo : Built withAppMetaInfo :=
  built_withMetaInfo ((MetaInfo.wellFormed_new.setFreshnessPeriod 1000).addAppMetaInfo
    (b := make 128 [7]) (valid_make (by decide) (by decide)) rfl)

/-- Encoding appends the element to the list, so that it is there twice, and after a change of the
name and back the packet is another one; an unset period becomes the least one; and a FinalBlockId
that is a digest is gone. -/
theorem wireEncode_withAppMetaInfo : Built withAppMetaInfo ∧
    (withAppMetaInfo.wireEncode.map fun r => r.2.metaInfo.appMetaInfo)
      = some [Block.make 128 [7], Block.make 128 [7]] ∧
    (withAppMetaInfo.wireEncode.bind fun r => (r.2.set (.name [])).bind fun d =>
      (d.set (.name r.2.name)).bind fun d => d.wireEncode.map fun r' => decide (r'.1 = r.1))
        = some false ∧
    ((plain.set (.metaInfo {})).bind fun d => d.wireEncode.map fun r =>
      (d.metaInfo.freshnessPeriod, r.2.metaInfo.freshnessPeriod)) = some (-1, Int64.minValue) ∧
    ((plain.set (.finalBlockId (.implicitDigest (replicate 32 1)))).bind fun d =>
      d.wireEncode.map fun r => r.2.metaInfo.getFinalBlockId) = some none :=
  ⟨built_withAppMetaInfo, by decide +kernel⟩

end Data

end IcnDemo.Codec
