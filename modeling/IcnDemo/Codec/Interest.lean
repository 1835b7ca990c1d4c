import IcnDemo.Codec.Link
import IcnDemo.Codec.Selectors

/-!
# Interest packets

An Interest gets a random nonce when it is encoded without one, and it keeps its wire encoding until
a setter resets it; `setNonce` rewrites the nonce inside the encoding instead.  `wireEncode` decodes
what it has encoded into the object, so that the object is what a receiver would get.  This need not
be what was set: a lifetime that is not set becomes the default one, and a filter in which an empty
component has the flag above a digest is read as another one or not at all.
-/

namespace IcnDemo.Codec

open List Option Block Prepend

/-- `Interest`, with its wire encoding if there is one.  The least lifetime stands for none. -/
structure Interest where
  name : Name := []
  selectors : Selectors := {}
  nonce : Option Block := none
  interestLifetime : Int64 := Int64.minValue
  link : Option Block := none
  selectedDelegation : Option ℕ := none
  wire : Option Block := none
deriving DecidableEq

namespace Interest

/-- `DEFAULT_INTEREST_LIFETIME`. -/
def defaultInterestLifetime : Int64 := 4000

/-! ### The nonce -/

/-- The octets of a nonce in memory. -/
def nonceOctets (nonce : UInt32) : List UInt8 :=
  [nonce.toUInt8, (nonce >>> 8).toUInt8, (nonce >>> 16).toUInt8, (nonce >>> 24).toUInt8]

/-- Write octets over the value of a block. -/
def overwriteValue (octets : List UInt8) (b : Block) : Block :=
  { b with value := octets, wire := b.wire.take (b.wire.length - b.value.length) ++ octets }

/-- Write octets over the value of the nonce among some elements. -/
def overwriteNonce (octets : List UInt8) : List Block → List Block
  | [] => []
  | b :: bs =>
    if b.type = Tlv.nonce then overwriteValue octets b :: bs else b :: overwriteNonce octets bs

/-- A wire encoding after its nonce was overwritten: the nonce lies in the same buffer. -/
def overwriteWire (octets : List UInt8) (w : Block) : Block :=
  overwriteValue ((overwriteNonce octets ((Block.parse w.value).getD [])).flatMap Block.wire) w

/-- `Interest::setNonce`: in place if there is a wire encoding and the nonce has four octets. -/
def setNonce (nonce : UInt32) (i : Interest) : Interest :=
  match i.wire, i.nonce with
  | some w, some b =>
    if b.value.length = 4 then
      { i with
        nonce := some (overwriteValue (nonceOctets nonce) b)
        wire := some (overwriteWire (nonceOctets nonce) w) }
    else { i with nonce := some (Block.make Tlv.nonce (nonceOctets nonce)), wire := none }
  | _, _ => { i with nonce := some (Block.make Tlv.nonce (nonceOctets nonce)), wire := none }

/-- The object after `Interest::getNonce`, with what the generator returns. -/
def getNonce (random : UInt32) (i : Interest) : Interest :=
  if i.nonce.isSome then i else i.setNonce random

/-! ### Setters -/

/-- The setters with their arguments. -/
inductive Setter where
  | name (n : Name)
  | selectors (s : Selectors)
  | minSuffixComponents (n : Int32)
  | maxSuffixComponents (n : Int32)
  | publisherPublicKeyLocator (k : KeyLocator)
  | exclude (x : Exclude)
  | childSelector (n : Int32)
  | mustBeFresh (b : Bool)
  | interestLifetime (lifetime : Int64)
  | nonce (nonce : UInt32)
  | link (b : Block)
  | unsetLink
  | selectedDelegationName (n : Name)
  | selectedDelegationIndex (index : ℕ)
  | unsetSelectedDelegation

/-- `setSelectedDelegation` with a name, `none` when it throws. -/
def findDelegation (i : Interest) (n : Name) : Option ℕ :=
  (i.link.bind fun link => Link.findDelegationFromWire link n).join

/-- `setSelectedDelegation` with an index, `none` when it throws. -/
def checkDelegation (i : Interest) (index : ℕ) : Option ℕ :=
  match i.link.bind fun link => ({} : Link).wireDecode link with
  | none => none
  | some link => if link.delegations.length ≤ index then none else some index

/-- A setter, `none` when it throws. -/
def set (i : Interest) : Setter → Option Interest
  | .name name => some { i with name, wire := none }
  | .selectors selectors => some { i with selectors, wire := none }
  | .minSuffixComponents n =>
    some { i with selectors := { i.selectors with minSuffixComponents := n }, wire := none }
  | .maxSuffixComponents n =>
    some { i with selectors := { i.selectors with maxSuffixComponents := n }, wire := none }
  | .publisherPublicKeyLocator k =>
    some { i with selectors := { i.selectors with publisherPublicKeyLocator := k }, wire := none }
  | .exclude exclude => some { i with selectors := { i.selectors with exclude }, wire := none }
  | .childSelector n =>
    some { i with selectors := { i.selectors with childSelector := n }, wire := none }
  | .mustBeFresh b =>
    some { i with selectors := { i.selectors with mustBeFresh := b }, wire := none }
  | .interestLifetime lifetime => some { i with interestLifetime := lifetime, wire := none }
  | .nonce nonce => some (i.setNonce nonce)
  | .link b => some { i with link := some b, selectedDelegation := none, wire := none }
  | .unsetLink => some { i with link := none, selectedDelegation := none, wire := none }
  | .selectedDelegationName n =>
    (i.findDelegation n).map fun index => { i with selectedDelegation := some index, wire := none }
  | .selectedDelegationIndex index =>
    (i.checkDelegation index).map fun index =>
      { i with selectedDelegation := some index, wire := none }
  | .unsetSelectedDelegation => some { i with selectedDelegation := none, wire := none }

/-! ### Encoding and decoding -/

/-- The Link and the selected delegation are written if there is a Link. -/
def writeLink (i : Interest) : Prepend :=
  match i.link with
  | none => nothing
  | some link =>
    (match i.selectedDelegation with
      | none => nothing
      | some index => nonNegativeIntegerBlock Tlv.selectedDelegation (UInt64.ofNat index)).andThen
      (block link)

/-- The lifetime is written if it is set and not the default one. -/
def HasLifetime (i : Interest) : Prop :=
  0 ≤ i.interestLifetime ∧ i.interestLifetime ≠ defaultInterestLifetime

instance (i : Interest) : Decidable i.HasLifetime :=
  inferInstanceAs (Decidable (_ ∧ _))

/-- Selectors are written if one is set. -/
def writeSelectors (i : Interest) : Option Prepend :=
  if i.selectors.isEmpty then some nothing else i.selectors.wireEncode

/-- `wireEncode` with an encoder, once there is a nonce; `none` when it throws. -/
def encode (i : Interest) (nonce : Block) : Option Prepend :=
  i.writeSelectors.map fun selectors =>
    element Tlv.interest ((((i.writeLink.andThen (onlyIf i.HasLifetime
          (nonNegativeIntegerBlock Tlv.interestLifetime i.interestLifetime.toUInt64))).andThen
        (block nonce)).andThen selectors).andThen i.name.wireEncode)

/-- No selectors if there is no element. -/
def readSelectors : Option Block → Option Selectors
  | none => some {}
  | some b => Selectors.wireDecode b

/-- The lifetime is −1 if there is no element. -/
def readLifetime : Option Block → Option Int64
  | none => some defaultInterestLifetime
  | some b => b.readNonNegativeInteger.map UInt64.toInt64

/-- The index must be below the number of delegations in the Link. -/
def readDelegation (link : Option Block) : Option Block → Option (Option ℕ)
  | none => some none
  | some b =>
    match link, b.readNonNegativeInteger with
    | some link, some n =>
      match Link.countDelegationsFromWire link with
      | none => none
      | some count => if n.toNat < count then some (some n.toNat) else none
    | _, _ => none

/-- `Interest::wireDecode`, `none` when it throws; nothing of the object is kept. -/
def wireDecode (wire : Block) : Option Interest := do
  let elements ← Block.parse wire.value
  if wire.type ≠ Tlv.interest then none
  else do
    let name ← (Block.find elements Tlv.name).bind Name.wireDecode
    let selectors ← readSelectors (Block.find elements Tlv.selectors)
    let nonce ← Block.find elements Tlv.nonce
    let interestLifetime ← readLifetime (Block.find elements Tlv.interestLifetime)
    let link := Block.find elements Tlv.data
    let selectedDelegation ← readDelegation link (Block.find elements Tlv.selectedDelegation)
    some { name, selectors, nonce := some nonce, interestLifetime, link, selectedDelegation,
           wire := some wire }

/-- `Interest::wireEncode`: the wire encoding and the object after the call, `none` when it throws.
-/
def wireEncode (random : UInt32) (i : Interest) : Option (Block × Interest) :=
  match i.wire with
  | some w => some (w, i)
  | none => do
    let nonce ← (i.getNonce random).nonce
    let f ← (i.getNonce random).encode nonce
    let w ← Block.ofBuffer f.octets
    let i' ← wireDecode w
    some (w, i')

/-! ### The elements -/

/-- The element of the selectors, if there are any. -/
def selectorsElement (i : Interest) : Option Block :=
  if i.selectors.isEmpty then none else some i.selectors.block

/-- The element of the lifetime, if it is not negative. -/
def lifetimeElement (i : Interest) : Option Block :=
  if i.HasLifetime then
    some (Block.make Tlv.interestLifetime (Tlv.nonNegativeInteger i.interestLifetime.toUInt64))
  else none

/-- The element of the selected delegation, if there is one. -/
def delegationElement (i : Interest) : Option Block :=
  i.selectedDelegation.map fun index =>
    Block.make Tlv.selectedDelegation (Tlv.nonNegativeInteger (UInt64.ofNat index))

/-- The elements of the value, in their order. -/
def fields (i : Interest) : List (ℕ × Option Block) :=
  [(Tlv.name, some i.name.block), (Tlv.selectors, i.selectorsElement), (Tlv.nonce, i.nonce),
   (Tlv.interestLifetime, i.lifetimeElement),
   (Tlv.data, i.link),
   (Tlv.selectedDelegation, i.delegationElement)]

/-- The element that is written. -/
def block (i : Interest) : Block :=
  Block.make Tlv.interest ((Block.present i.fields).flatMap Block.wire)

/-- A nonce of four octets. -/
def IsNonce (b : Block) : Prop :=
  ∃ octets : List UInt8, octets.length = 4 ∧ b = Block.make Tlv.nonce octets

/-- The fields that decoding gives back: the lifetime is set, and the selectors are stable. -/
structure Stable (i : Interest) : Prop where
  lifetime : 0 ≤ i.interestLifetime
  selectors : i.selectors.Stable

instance (i : Interest) : Decidable i.Stable :=
  decidable_of_iff (0 ≤ i.interestLifetime ∧ i.selectors.Stable)
    ⟨fun h => ⟨h.1, h.2⟩, fun h => ⟨h.1, h.2⟩⟩

/-- What setters and encoding make.  An encoding that is kept is that of the fields. -/
structure WellFormed (i : Interest) : Prop where
  name : i.name.Typed
  selectors : i.selectors.WellFormed
  nonce : ∀ b ∈ i.nonce, IsNonce b
  link : ∀ b ∈ i.link, b.Valid ∧ b.type = Tlv.data
  selectedDelegation : ∀ index ∈ i.selectedDelegation, ∃ link count, i.link = some link ∧
    Link.countDelegationsFromWire link = some count ∧ index < count
  wire : ∀ w ∈ i.wire, w = i.block ∧ i.nonce.isSome = true ∧ i.block.Fits ∧ i.Stable

variable {i : Interest} {octets octets' : List UInt8} {nonce : Block} {random : UInt32}

/-- The elements in the order in which they are written. -/
theorem present_fields (hnonce : i.nonce = some nonce) :
    present i.fields = (i.name.block :: i.selectorsElement.toList) ++
      nonce :: (i.lifetimeElement.toList ++ (i.link.toList ++ i.delegationElement.toList)) := by
  simp [present, fields, hnonce]

/-- The elements of an Interest that fits do fit. -/
theorem fits_of_mem {field : ℕ × Option Block} {b : Block} (hfits : i.block.Fits)
    (hfield : field ∈ i.fields) (hb : b ∈ field.2) : b.Fits :=
  hfits.element (mem_present.mpr ⟨field, hfield, hb⟩)

/-- The name of an Interest that fits does fit. -/
theorem fits_name (hfits : i.block.Fits) : i.name.block.Fits := by
  have hfield : (Tlv.name, some i.name.block) ∈ i.fields := by simp [fields]
  exact fits_of_mem hfits hfield rfl

/-- The selectors of an Interest that fits do fit. -/
theorem fits_selectors (hfits : i.block.Fits) : i.selectors.block.Fits := by
  rcases hempty : i.selectors.isEmpty with _ | _
  · have hfield : (Tlv.selectors, i.selectorsElement) ∈ i.fields := by simp [fields]
    exact fits_of_mem hfits hfield (by simp [selectorsElement, hempty])
  · rw [Selectors.block_of_isEmpty hempty]
    decide

section

variable (hi : i.WellFormed) (hfits : i.block.Fits)

include hi hfits

/-- Each element has the type of its field and is valid. -/
theorem field_spec : ∀ field ∈ i.fields, ∀ b ∈ field.2, b.type = field.1 ∧ b.Valid := by
  intro field hfield b hb
  have hb' : b.Fits := fits_of_mem hfits hfield hb
  simp only [fields, mem_cons, not_mem_nil, or_false] at hfield
  rcases hfield with rfl | rfl | rfl | rfl | rfl | rfl
  · rw [← some.inj hb] at hb' ⊢
    exact ⟨rfl, Name.valid_block hb'⟩
  · obtain ⟨-, hb⟩ := ite_none_left_eq_some.mp hb
    rw [← some.inj hb] at hb' ⊢
    exact ⟨rfl, valid_make (by decide) hb'.value⟩
  · obtain ⟨octets, -, rfl⟩ := hi.nonce b hb
    exact ⟨rfl, valid_make (by decide) hb'.value⟩
  · obtain ⟨-, hb⟩ := ite_none_right_eq_some.mp hb
    rw [← some.inj hb] at hb' ⊢
    exact ⟨rfl, valid_make (by decide) hb'.value⟩
  · exact (hi.link b hb).symm
  · obtain ⟨index, -, rfl⟩ := map_eq_some_iff.mp hb
    exact ⟨rfl, valid_make (by decide) hb'.value⟩

/-- The fields have distinct types. -/
theorem labelled_fields : Block.Labelled i.fields where
  nodup := by
    rw [show i.fields.map Prod.fst = [7, 9, 10, 12, 6, 32] from rfl]
    decide
  type := fun field hfield b hb => (field_spec hi hfits field hfield b hb).1

/-- The elements are valid. -/
theorem valid_present : ∀ b ∈ present i.fields, b.Valid := by
  intro b hb
  obtain ⟨field, hfield, hb⟩ := mem_present.mp hb
  exact (field_spec hi hfits field hfield b hb).2

end

/-! ### Encoding -/

/-- The Link and the selected delegation are written. -/
theorem writesAll_writeLink (hi : i.WellFormed) (hfits : i.block.Fits) :
    i.writeLink.WritesAll (i.link.toList ++ i.delegationElement.toList) := by
  unfold writeLink delegationElement
  rcases hlink : i.link with _ | link
  · have hnone : i.selectedDelegation = none := by
      rcases hindex : i.selectedDelegation with _ | index
      · rfl
      · obtain ⟨link, -, hlink', -⟩ := hi.selectedDelegation index hindex
        rw [hlink] at hlink'
        cases hlink'
    rw [hnone]
    exact writes_nothing
  · have hwrites := writesAll_block (fits_of_mem hfits
      (show (Tlv.data, i.link) ∈ i.fields by simp [fields]) hlink)
    rcases i.selectedDelegation with _ | index
    · exact WritesAll.andThen writes_nothing hwrites
    · exact WritesAll.andThen (Writes.all (writes_nonNegativeIntegerBlock (by decide) _)) hwrites

section

variable (hi : i.WellFormed) (hknown : i.selectors.publisherPublicKeyLocator ≠ .unknown)

include hi hknown

/-- The selectors are written. -/
theorem exists_writeSelectors (hfits : i.block.Fits) :
    ∃ f, i.writeSelectors = some f ∧ f.WritesAll i.selectorsElement.toList := by
  unfold writeSelectors selectorsElement
  rcases i.selectors.isEmpty with _ | _
  · obtain ⟨f, hf, hwrites⟩ :=
      Selectors.exists_wireEncode hi.selectors hknown (fits_selectors hfits)
    exact ⟨f, hf, hwrites.all⟩
  · exact ⟨nothing, rfl, writes_nothing⟩

/-- An Interest with a nonce is written. -/
theorem exists_encode (hnonce : i.nonce = some nonce) (hfits : i.block.Fits) :
    ∃ f, i.encode nonce = some f ∧ f.Writes i.block.wire := by
  obtain ⟨selectors, hselectors, hwrites⟩ := exists_writeSelectors hi hknown hfits
  refine ⟨_, by rw [encode, hselectors, map_some], ?_⟩
  have hlifetime : (onlyIf i.HasLifetime
      (nonNegativeIntegerBlock Tlv.interestLifetime i.interestLifetime.toUInt64)).WritesAll
        i.lifetimeElement.toList :=
    Writes.onlyIf fun _ => writes_nonNegativeIntegerBlock (by decide) _
  have hname := Name.writes_wireEncode hi.name (fits_name hfits)
  have hnonceFits : nonce.Fits :=
    fits_of_mem hfits (show (Tlv.nonce, i.nonce) ∈ i.fields by simp [fields]) hnonce
  have hvalue := ((((writesAll_writeLink hi hfits).andThen hlifetime).andThen
    (writesAll_block hnonceFits)).andThen hwrites).andThen hname.all
  have hpresent : present i.fields = [i.name.block] ++ (i.selectorsElement.toList ++
      ([nonce] ++
        (i.lifetimeElement.toList ++ (i.link.toList ++ i.delegationElement.toList)))) := by
    simp [present, fields, hnonce]
  rw [block, hpresent] at hfits ⊢
  exact hvalue.element (by decide) hfits

end

/-- An unknown key locator cannot be written. -/
theorem encode_eq_none (h : i.selectors.publisherPublicKeyLocator = .unknown) (nonce : Block) :
    i.encode nonce = none := by
  have hempty : i.selectors.isEmpty = false := by
    simp [Selectors.isEmpty, h]
  rw [encode, writeSelectors, hempty, Selectors.wireEncode_eq_none h]
  rfl

/-! ### Decoding -/

/-- A lifetime as it is read back. -/
def rereadLifetime (lifetime : Int64) : Int64 :=
  if 0 ≤ lifetime then lifetime else defaultInterestLifetime

/-- The object as it is read back, with the selectors that were read. -/
def reread (i : Interest) (selectors : Selectors) : Interest :=
  { i with selectors, interestLifetime := rereadLifetime i.interestLifetime, wire := some i.block }

/-- The selectors as they are read back, `none` when reading them throws. -/
def rereadSelectors (i : Interest) : Option Selectors :=
  i.selectors.exclude.reread.map i.selectors.reread

/-- The selectors are read back. -/
theorem readSelectors_selectorsElement (hi : i.WellFormed)
    (hknown : i.selectors.publisherPublicKeyLocator ≠ .unknown) (hfits : i.block.Fits) :
    readSelectors i.selectorsElement = i.rereadSelectors := by
  unfold selectorsElement rereadSelectors
  rcases hempty : i.selectors.isEmpty with _ | _
  · exact Selectors.wireDecode_block hi.selectors hknown (fits_selectors hfits)
  · rw [Selectors.reread_of_isEmpty hempty]
    rfl

/-- The lifetime is read back, if it is not negative. -/
theorem readLifetime_lifetimeElement (i : Interest) :
    readLifetime i.lifetimeElement = some (rereadLifetime i.interestLifetime) := by
  unfold lifetimeElement rereadLifetime
  by_cases hlifetime : i.HasLifetime
  · simp [hlifetime, hlifetime.1, readLifetime, readNonNegativeInteger, make]
  rw [if_neg hlifetime]
  by_cases hset : 0 ≤ i.interestLifetime
  · have hdefault : i.interestLifetime = defaultInterestLifetime := by
      by_contra hne
      exact hlifetime ⟨hset, hne⟩
    rw [if_pos hset, hdefault]
    rfl
  · rw [if_neg hset]
    rfl

/-- The index of a delegation has 64 bits. -/
theorem selectedDelegation_lt (hi : i.WellFormed) (hfits : i.block.Fits) {index : ℕ}
    (hindex : i.selectedDelegation = some index) : index < 2 ^ 64 := by
  obtain ⟨link, count, hlink, hcount, hlt⟩ := hi.selectedDelegation index hindex
  have hfield : (Tlv.data, i.link) ∈ i.fields := by simp [fields]
  have hlinkFits := (fits_of_mem hfits hfield hlink).lt
  have hle := Link.countDelegationsFromWire_le (hi.link link hlink).1 hcount
  omega

/-- The selected delegation is read back. -/
theorem readDelegation_delegationElement (hi : i.WellFormed) (hfits : i.block.Fits) :
    readDelegation i.link i.delegationElement = some i.selectedDelegation := by
  unfold delegationElement
  rcases hindex : i.selectedDelegation with _ | index
  · rfl
  · obtain ⟨link, count, hlink, hcount, hlt⟩ := hi.selectedDelegation index hindex
    have hback : index % 18446744073709551616 = index :=
      Nat.mod_eq_of_lt (selectedDelegation_lt hi hfits hindex)
    simp [readDelegation, hlink, hcount, readNonNegativeInteger, make, hback, hlt]

/-- The element is decoded field by field. -/
theorem wireDecode_block (hi : i.WellFormed)
    (hknown : i.selectors.publisherPublicKeyLocator ≠ .unknown) (hnonce : i.nonce = some nonce)
    (hfits : i.block.Fits) : wireDecode i.block = i.rereadSelectors.map i.reread := by
  have hparse : parse i.block.value = some (present i.fields) :=
    parse_flatMap (valid_present hi hfits)
  have hfind := (labelled_fields hi hfits).find_present
  generalize present i.fields = elements at hparse hfind
  simp only [fields, forall_mem_cons, hnonce] at hfind
  obtain ⟨hname, hselectors, hnonce', hlifetime, hlink, hdelegation, -⟩ := hfind
  have htype : ¬ i.block.type ≠ Tlv.interest := by simp [block, make]
  simp only [wireDecode, hparse, htype, if_false, hname, hselectors, hnonce', hlifetime, hlink,
    hdelegation, bind_eq_bind, bind_some, Name.wireDecode_block hi.name (fits_name hfits),
    readSelectors_selectorsElement hi hknown hfits, readLifetime_lifetimeElement,
    readDelegation_delegationElement hi hfits]
  rcases i.rereadSelectors with _ | s
  · rfl
  · simp [reread, hnonce]

/-! ### What is read back -/

/-- The lifetime that was read is written as before. -/
theorem lifetimeElement_rereadLifetime (i : Interest) (selectors : Selectors) :
    (i.reread selectors).lifetimeElement = i.lifetimeElement := by
  unfold lifetimeElement HasLifetime reread rereadLifetime
  grind

/-- The lifetime is kept if it is not negative. -/
theorem rereadLifetime_eq_iff (lifetime : Int64) :
    rereadLifetime lifetime = lifetime ↔ 0 ≤ lifetime := by
  have hdefault : (0 : Int64) ≤ defaultInterestLifetime := by decide
  grind [rereadLifetime]

/-- An object that was read back is stable, its element is the same one, and it is the object that
was written exactly if that one was stable. -/
theorem reread_spec {s : Selectors} (hi : i.WellFormed)
    (hknown : i.selectors.publisherPublicKeyLocator ≠ .unknown) (hnonce : i.nonce.isSome = true)
    (hfits : i.block.Fits) (hs : i.rereadSelectors = some s) :
    (i.reread s).WellFormed ∧ (i.reread s).block = i.block ∧
      (i.reread s = { i with wire := some i.block } ↔ i.Stable) := by
  obtain ⟨x, hx, rfl⟩ := map_eq_some_iff.mp hs
  obtain ⟨hwell, hstable, hblock, hempty, heq⟩ :=
    Selectors.reread_spec hi.selectors hknown (fits_selectors hfits) hx
  have hsame : (i.reread (i.selectors.reread x)).block = i.block := by
    have hselectors : (i.reread (i.selectors.reread x)).selectorsElement = i.selectorsElement := by
      unfold selectorsElement
      change (if (i.selectors.reread x).isEmpty then none
        else some (i.selectors.reread x).block) = _
      rw [hempty, hblock]
    rw [block, fields, hselectors, lifetimeElement_rereadLifetime]
    rfl
  have hlifetime : 0 ≤ rereadLifetime i.interestLifetime := by
    unfold rereadLifetime
    by_cases hset : 0 ≤ i.interestLifetime
    · rwa [if_pos hset]
    · rw [if_neg hset]
      decide
  refine ⟨⟨hi.name, hwell, hi.nonce, hi.link, hi.selectedDelegation, ?_⟩, hsame, ?_, ?_⟩
  · intro w hw
    obtain rfl := some.inj hw
    exact ⟨hsame.symm, hnonce, by rwa [hsame], hlifetime, hstable⟩
  · intro h
    exact ⟨(rereadLifetime_eq_iff _).mp (congrArg interestLifetime h),
      heq.mp (congrArg selectors h)⟩
  · rintro ⟨hset, hselectors⟩
    rw [reread, (rereadLifetime_eq_iff _).mpr hset, heq.mpr hselectors]

/-! ### The nonce in the encoding -/

/-- The value is overwritten by one of the same length. -/
theorem overwriteValue_make {type : ℕ} {value octets : List UInt8}
    (h : octets.length = value.length) :
    overwriteValue octets (make type value) = make type octets := by
  have hhead : (Tlv.encodeVarNumber type ++ Tlv.encodeVarNumber value.length ++ value).length
      - value.length = (Tlv.encodeVarNumber type ++ Tlv.encodeVarNumber value.length).length := by
    rw [length_append, Nat.add_sub_cancel]
  unfold overwriteValue make Tlv.encodeElement
  simp only [hhead, take_left, h]

/-- The first nonce is overwritten. -/
theorem overwriteNonce_append {octets : List UInt8} {before behind : List Block}
    (hbefore : ∀ b ∈ before, b.type ≠ Tlv.nonce) (hnonce : nonce.type = Tlv.nonce) :
    overwriteNonce octets (before ++ nonce :: behind)
      = before ++ overwriteValue octets nonce :: behind := by
  induction before with
  | nil => simp [overwriteNonce, hnonce]
  | cons b bs ih => grind [overwriteNonce]

/-- Another nonce of the same length does not change the length. -/
theorem length_present_nonce (hnonce : i.nonce = some (Block.make Tlv.nonce octets))
    (hlength : octets'.length = octets.length) :
    ((Block.present { i with nonce := some (Block.make Tlv.nonce octets') }.fields).flatMap
      Block.wire).length = ((Block.present i.fields).flatMap Block.wire).length := by
  rw [present_fields hnonce, present_fields rfl]
  simp only [Block.make, Tlv.encodeElement, flatMap_append, flatMap_cons, length_append, hlength]
  rfl

/-- The wire with the nonce overwritten is the one of the Interest with the other nonce. -/
theorem overwriteWire_block (hi : i.WellFormed) (hfits : i.block.Fits)
    (hnonce : i.nonce = some (Block.make Tlv.nonce octets))
    (hlength : octets'.length = octets.length) :
    overwriteWire octets' i.block
      = { i with nonce := some (Block.make Tlv.nonce octets') }.block := by
  have hparse : Block.parse i.block.value = some (Block.present i.fields) :=
    Block.parse_flatMap (valid_present hi hfits)
  have hbefore : ∀ b ∈ i.name.block :: i.selectorsElement.toList, b.type ≠ Tlv.nonce := by
    intro b hb
    rcases mem_cons.mp hb with rfl | hb
    · exact show Tlv.name ≠ Tlv.nonce by decide
    · obtain ⟨-, hb⟩ := ite_none_left_eq_some.mp (mem_toList.mp hb)
      rw [← some.inj hb]
      exact show Tlv.selectors ≠ Tlv.nonce by decide
  have hwritten : overwriteNonce octets' (Block.present i.fields)
      = Block.present { i with nonce := some (Block.make Tlv.nonce octets') }.fields := by
    rw [present_fields hnonce, overwriteNonce_append hbefore rfl, overwriteValue_make hlength,
      present_fields rfl]
    rfl
  unfold overwriteWire
  rw [hparse, getD_some, hwritten]
  exact overwriteValue_make (length_present_nonce hnonce hlength)

/-- A nonce of 32 bits is one. -/
theorem isNonce_make (nonce : UInt32) : IsNonce (make Tlv.nonce (nonceOctets nonce)) :=
  ⟨nonceOctets nonce, rfl, rfl⟩

/-- The wire is as long with another nonce. -/
theorem length_block_nonce (hnonce : i.nonce = some (Block.make Tlv.nonce octets))
    (hlength : octets'.length = octets.length) :
    { i with nonce := some (Block.make Tlv.nonce octets') }.block.wire.length
      = i.block.wire.length := by
  have hvalue := length_present_nonce hnonce hlength
  unfold block
  simp only [Block.make, Tlv.encodeElement, length_append] at hvalue ⊢
  rw [hvalue]

/-- `setNonce` keeps an Interest well formed. -/
theorem WellFormed.setNonce (hi : i.WellFormed) (nonce : UInt32) :
    (i.setNonce nonce).WellFormed := by
  have hfresh : { i with
      nonce := some (make Tlv.nonce (nonceOctets nonce)), wire := none }.WellFormed :=
    { hi with
      nonce := fun b hb => some.inj hb ▸ isNonce_make nonce
      wire := fun w hw => absurd hw (not_mem_none w) }
  unfold Interest.setNonce
  rcases hwire : i.wire with _ | w
  · exact hfresh
  rcases hnonce : i.nonce with _ | b
  · exact hfresh
  by_cases hlength : b.value.length = 4
  · simp only [hlength, if_true]
    obtain ⟨octets, hoctets, rfl⟩ := hi.nonce b hnonce
    obtain ⟨rfl, -, hfits, hstable⟩ := hi.wire w hwire
    have hsame : (nonceOctets nonce).length = octets.length := by rw [hoctets]; rfl
    rw [overwriteValue_make hsame, overwriteWire_block hi hfits hnonce hsame]
    have hfits' : { i with
        nonce := some (make Tlv.nonce (nonceOctets nonce)) }.block.Fits := by
      rwa [Block.Fits, length_block_nonce hnonce hsame]
    exact { hi with
      nonce := fun b hb => some.inj hb ▸ isNonce_make nonce
      wire :=
        fun w hw => some.inj hw ▸ ⟨rfl, rfl, hfits', hstable.lifetime, hstable.selectors⟩ }
  · simp only [hlength, if_false]
    exact hfresh

/-- `getNonce` keeps an Interest well formed. -/
theorem WellFormed.getNonce (hi : i.WellFormed) (random : UInt32) :
    (i.getNonce random).WellFormed := by
  unfold Interest.getNonce
  grind [hi.setNonce]

/-- `getNonce` sets a nonce if there is none, and nothing else. -/
theorem getNonce_spec (hi : i.WellFormed) (random : UInt32) :
    (i.getNonce random).nonce.isSome = true ∧
      i.getNonce random = { i with nonce := (i.getNonce random).nonce } := by
  unfold getNonce
  rcases hnonce : i.nonce with _ | b
  · have hwire : i.wire = none := by
      rcases hwire : i.wire with _ | w
      · rfl
      · obtain ⟨-, hsome, -⟩ := hi.wire w hwire
        rw [hnonce] at hsome
        cases hsome
    simp [setNonce, hnonce, hwire]
  · simp only [isSome_some, if_true, hnonce, true_and]
    rw [← hnonce]

/-- A nonce does not matter for stability. -/
theorem stable_getNonce_iff (hi : i.WellFormed) (random : UInt32) :
    (i.getNonce random).Stable ↔ i.Stable := by
  rw [(getNonce_spec hi random).2]
  exact ⟨fun h => ⟨h.lifetime, h.selectors⟩, fun h => ⟨h.lifetime, h.selectors⟩⟩

/-! ### Objects that setters build -/

/-- Arguments that a caller can have; a Link is given as the encoding of a Data. -/
def Setter.WellFormed : Setter → Prop
  | .name n => n.Typed
  | .selectors s => s.WellFormed
  | .publisherPublicKeyLocator k => k.WellFormed
  | .exclude x => x.WellFormed
  | .link b => b.Valid ∧ b.type = Tlv.data
  | _ => True

/-- The objects that are made with a name and a lifetime, changed by setters, and encoded at any
time in between. -/
inductive Built : Interest → Prop where
  | new {n : Name} (hn : n.Typed) (lifetime : Int64) :
      Built { name := n, interestLifetime := lifetime }
  | set {i i' : Interest} {s : Setter} (hi : Built i) (hs : s.WellFormed) (h : i.set s = some i') :
      Built i'
  | getNonce {i : Interest} (hi : Built i) (random : UInt32) : Built (i.getNonce random)
  | wireEncode {i i' : Interest} {random : UInt32} {w : Block} (hi : Built i)
      (hfits : (i.getNonce random).block.Fits) (h : i.wireEncode random = some (w, i')) : Built i'

/-- A setter keeps an Interest well formed. -/
theorem WellFormed.set {s : Setter} {i' : Interest} (hi : i.WellFormed) (hs : s.WellFormed)
    (h : i.set s = some i') : i'.WellFormed := by
  have hwire : ∀ w ∈ (none : Option Block), w = i'.block ∧ i'.nonce.isSome = true ∧
      i'.block.Fits ∧ i'.Stable := fun w hw => absurd hw (not_mem_none w)
  rcases s with n | s | n | n | k | x | n | b | lifetime | nonce | b | _ | n | index | _
  case selectedDelegationName =>
    obtain ⟨index, hfind, rfl⟩ := map_eq_some_iff.mp h
    obtain ⟨link, hlink', hfind'⟩ := bind_eq_some_iff.mp (join_eq_some_iff.mp hfind)
    obtain ⟨count, hcount, hlt⟩ := Link.lt_count_of_find hfind'
    refine { hi with selectedDelegation := fun m hm => ?_, wire := hwire }
    rw [← some.inj hm]
    exact ⟨link, count, hlink', hcount, hlt⟩
  case selectedDelegationIndex =>
    obtain ⟨index, hcheck, rfl⟩ := map_eq_some_iff.mp h
    unfold checkDelegation at hcheck
    split at hcheck
    · cases hcheck
    rename_i link hdecode
    obtain ⟨hlt, hcheck⟩ := ite_none_left_eq_some.mp hcheck
    obtain rfl := some.inj hcheck
    obtain ⟨wire, hlink, hdecode⟩ := bind_eq_some_iff.mp hdecode
    obtain ⟨count, hcount, hle⟩ := Link.length_delegations_le hdecode
    refine { hi with selectedDelegation := fun m hm => ?_, wire := hwire }
    rw [← some.inj hm]
    exact ⟨wire, count, hlink, hcount, by omega⟩
  all_goals obtain rfl := some.inj h
  case name => exact { hi with name := hs, wire := hwire }
  case selectors => exact { hi with selectors := hs, wire := hwire }
  case minSuffixComponents | maxSuffixComponents | childSelector | mustBeFresh =>
    exact { hi with selectors := ⟨hi.selectors.keyLocator, hi.selectors.exclude⟩, wire := hwire }
  case publisherPublicKeyLocator =>
    exact { hi with selectors := ⟨hs, hi.selectors.exclude⟩, wire := hwire }
  case exclude => exact { hi with selectors := ⟨hi.selectors.keyLocator, hs⟩, wire := hwire }
  case interestLifetime => exact { hi with wire := hwire }
  case nonce => exact hi.setNonce nonce
  case link =>
    exact { hi with
      link := fun b hb => some.inj hb ▸ hs
      selectedDelegation := fun m hm => absurd hm (not_mem_none m)
      wire := hwire }
  case unsetLink =>
    exact { hi with
      link := fun b hb => absurd hb (not_mem_none b)
      selectedDelegation := fun m hm => absurd hm (not_mem_none m)
      wire := hwire }
  case unsetSelectedDelegation =>
    exact { hi with
      selectedDelegation := fun m hm => absurd hm (not_mem_none m)
      wire := hwire }

/-! ### The round trip -/

/-- Encoding writes the element and decodes it. -/
theorem wireEncode_eq (hi : i.WellFormed) (hfits : (i.getNonce random).block.Fits)
    (hknown : i.selectors.publisherPublicKeyLocator ≠ .unknown) (hwire : i.wire = none) :
    i.wireEncode random = (i.getNonce random).rereadSelectors.map fun s =>
      ((i.getNonce random).block, (i.getNonce random).reread s) := by
  obtain ⟨hsome, heq⟩ := getNonce_spec hi random
  obtain ⟨nonce, hnonce⟩ := isSome_iff_exists.mp hsome
  have hknown' : (i.getNonce random).selectors.publisherPublicKeyLocator ≠ .unknown := by
    rw [heq]
    exact hknown
  have hi' := hi.getNonce random
  obtain ⟨f, hf, hwrites⟩ := exists_encode hi' hknown' hnonce hfits
  have hvalid : (i.getNonce random).block.Valid := valid_make (by decide) hfits.value
  simp only [wireEncode, hwire, hnonce, hf, hwrites.octets_eq, hvalid.ofBuffer_eq,
    wireDecode_block hi' hknown' hnonce hfits, bind_eq_bind, bind_some]
  rcases (i.getNonce random).rereadSelectors with _ | s
  · rfl
  · rfl

/-- What is encoded is the wire of the Interest, and is read back. -/
theorem wireEncode_eq_some {w : Block} {i' : Interest} (hi : i.WellFormed)
    (hfits : (i.getNonce random).block.Fits) (h : i.wireEncode random = some (w, i')) :
    i'.WellFormed ∧ i'.wire = some w ∧ wireDecode w = some i' ∧
      w = (i.getNonce random).block ∧ (i' = { i.getNonce random with wire := some w } ↔
        i.Stable) := by
  obtain ⟨hsome, heq⟩ := getNonce_spec hi random
  have hi' := hi.getNonce random
  rcases hwire : i.wire with _ | w'
  · have hknown : i.selectors.publisherPublicKeyLocator ≠ .unknown := by
      grind [isSome_iff_exists, wireEncode, encode_eq_none]
    have hknown' : (i.getNonce random).selectors.publisherPublicKeyLocator ≠ .unknown := by
      rw [heq]
      exact hknown
    obtain ⟨nonce, hnonce⟩ := isSome_iff_exists.mp hsome
    rw [wireEncode_eq hi hfits hknown hwire] at h
    obtain ⟨s, hs, hpair⟩ := map_eq_some_iff.mp h
    obtain ⟨rfl, rfl⟩ := Prod.mk.inj hpair
    obtain ⟨hwell, -, hiff⟩ := reread_spec hi' hknown' hsome hfits hs
    have hdecode := wireDecode_block hi' hknown' hnonce hfits
    rw [hs] at hdecode
    exact ⟨hwell, rfl, hdecode, rfl, hiff.trans (stable_getNonce_iff hi random)⟩
  -- the encoding that is kept is that of a stable object
  obtain ⟨rfl, hset, -, hstable⟩ := hi.wire w' hwire
  simp only [wireEncode, hwire, some.injEq, Prod.mk.injEq] at h
  have hself : i.getNonce random = i := by
    rw [getNonce, if_pos hset]
  rw [hself] at hfits ⊢
  obtain ⟨nonce, hnonce⟩ := isSome_iff_exists.mp hset
  have hdecode := wireDecode_block hi hstable.selectors.keyLocator hnonce hfits
  obtain ⟨x, hx⟩ : ∃ x, i.selectors.exclude.reread = some x :=
    ⟨_, Exclude.reread_of_canonical hi.selectors.exclude hstable.selectors.exclude
      (Selectors.fits_exclude (fits_selectors hfits))⟩
  grind [rereadSelectors, reread_spec, hstable.selectors.keyLocator]

/-- An Interest that is built with setters is well formed. -/
theorem Built.wellFormed (h : Built i) : i.WellFormed := by
  induction h with
  | new hn lifetime =>
    refine ⟨hn, ⟨trivial, fun p hp => absurd hp not_mem_nil⟩, ?_, ?_, ?_, ?_⟩ <;> simp
  | set _ hs h ih => exact ih.set hs h
  | getNonce _ random ih => exact ih.getNonce random
  | wireEncode _ hfits h ih => exact (wireEncode_eq_some ih hfits h).1

/-- Encoding throws only if decoding what was written does, or if the key locator is unknown. -/
theorem exists_wireEncode_of_stable (hi : i.WellFormed) (hfits : (i.getNonce random).block.Fits)
    (hstable : i.Stable) : ∃ w i', i.wireEncode random = some (w, i') := by
  rcases hwire : i.wire with _ | w
  · have hi' := hi.getNonce random
    have hstable' := (stable_getNonce_iff hi random).mpr hstable
    have hexclude := Exclude.reread_of_canonical hi'.selectors.exclude hstable'.selectors.exclude
      (Selectors.fits_exclude (fits_selectors hfits))
    rw [wireEncode_eq hi hfits hstable.selectors.keyLocator hwire, rereadSelectors, hexclude]
    exact ⟨_, _, rfl⟩
  · exact ⟨w, i, by rw [wireEncode, hwire]⟩

/-- An Interest without its wire is encoded as before. -/
theorem wireEncode_unwired {w : Block} (hi : i.WellFormed) (hwire : i.wire = some w)
    (random : UInt32) : ∃ i', { i with wire := none }.wireEncode random = some (w, i') := by
  obtain ⟨hw, hnonce, hfits, hstable⟩ := hi.wire w hwire
  have hi' : { i with wire := none }.WellFormed :=
    { hi with wire := fun w hw => absurd hw (not_mem_none w) }
  have hself : { i with wire := none }.getNonce random = { i with wire := none } := by
    rw [getNonce, if_pos hnonce]
  have hfits' : ({ i with wire := none }.getNonce random).block.Fits := by
    rw [hself]
    exact hfits
  obtain ⟨w', i', h⟩ := exists_wireEncode_of_stable hi' hfits' ⟨hstable.lifetime, hstable.selectors⟩
  obtain ⟨-, -, -, hw', -⟩ := wireEncode_eq_some hi' hfits' h
  have hsame : w' = w := by
    rw [hw', hself, hw]
    rfl
  exact ⟨i', by rw [h, hsame]⟩

/-- An Interest with a nonce, a filter and a lifetime. -/
def plain : Interest where
  name := [.generic [65]]
  selectors := { exclude := Exclude.none.excludeOne (.generic [66]), childSelector := 1 }
  nonce := some (Block.make Tlv.nonce [7, 0, 0, 0])
  interestLifetime := 1000

/-- The same Interest without a lifetime. -/
def unlimited : Interest :=
  { plain with interestLifetime := Int64.minValue }

/-- The same Interest with a filter that excludes a digest and everything from the empty component.
-/
def digestBelowAny : Interest :=
  { plain with selectors := { exclude :=
      (Exclude.none.excludeOne (.implicitDigest (replicate 32 1))).excludeAfter (.generic []) }
        }

/-- A new object gets from the encoding the fields that were set, with the nonce that encoding fills
in, exactly if the lifetime is set and the selectors are stable; and what was read is encoded to the
same octets again, also when it is not what was set. -/
theorem wireDecode_wireEncode_eq_iff (hbuilt : Built i) (random : UInt32)
    (hfits : (i.getNonce random).block.Fits) :
    ((∃ w i', i.wireEncode random = some (w, i') ∧
        wireDecode w = some { i.getNonce random with wire := some w }) ↔ i.Stable) ∧
    ∀ w i', i.wireEncode random = some (w, i') → ∃ f, wireDecode w = some f ∧
        ∀ random', ∃ f', { f with wire := none }.wireEncode random' = some (w, f') := by
  have hi := hbuilt.wellFormed
  refine ⟨⟨?_, ?_⟩, ?_⟩
  · rintro ⟨w, i', h, hdecode⟩
    obtain ⟨-, -, hdecode', -, hiff⟩ := wireEncode_eq_some hi hfits h
    exact hiff.mp (some.inj (hdecode'.symm.trans hdecode))
  · intro hstable
    obtain ⟨w, i', h⟩ := exists_wireEncode_of_stable hi hfits hstable
    obtain ⟨-, -, hdecode, -, hiff⟩ := wireEncode_eq_some hi hfits h
    exact ⟨w, i', h, by rw [hdecode, hiff.mpr hstable]⟩
  · intro w i' h
    obtain ⟨hi', hwire, hdecode, -, -⟩ := wireEncode_eq_some hi hfits h
    exact ⟨i', hdecode, wireEncode_unwired hi' hwire⟩

/-- Any well-formed selectors and any lifetime can be set. -/
theorem built_with {lifetime : Int64} {selectors : Selectors} (hs : selectors.WellFormed) :
    Built { plain with selectors, interestLifetime := lifetime } :=
  .set (s := .nonce 7) (.set (s := .selectors selectors)
    (.new (n := [.generic [65]]) (by decide) lifetime) hs rfl) trivial rfl

/-- The plain Interest is read back. -/
theorem wireDecode_wireEncode_eq_plain : ∃ w i', plain.wireEncode 0 = some (w, i') ∧ wireDecode w =
      some { plain with wire := some w } := by
  have hs : plain.selectors.WellFormed := ⟨trivial, by decide +kernel⟩
  have hbuilt : Built plain := built_with hs
  have h := wireDecode_wireEncode_eq_iff hbuilt 0 (by decide +kernel)
  exact h.1.mpr (by decide +kernel)

/-- An Interest without a lifetime is read back with one of four seconds; and the filter that
excludes a digest and everything from the empty component is read back as one that excludes
everything from the digest. -/
theorem wireDecode_wireEncode_unlimited : Built unlimited ∧ Built digestBelowAny ∧
    ((unlimited.wireEncode 0).bind fun r => (wireDecode r.1).map fun i =>
      (unlimited.interestLifetime, i.interestLifetime)) = some (Int64.minValue, 4000) ∧
    ((digestBelowAny.wireEncode 0).bind fun r => (wireDecode r.1).map fun i =>
      (digestBelowAny.selectors.exclude.terms, i.selectors.exclude.terms))
        = some ([(.generic [], true), (.implicitDigest (replicate 32 1), false)],
            [(.implicitDigest (replicate 32 1), true)]) := by
  refine ⟨built_with ⟨trivial, by decide +kernel⟩, built_with ⟨trivial, by decide +kernel⟩, ?_, ?_⟩
  · decide +kernel
  · decide +kernel

end Interest

end IcnDemo.Codec
