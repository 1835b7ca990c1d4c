import IcnDemo.Codec.Name

/-!
# SignatureInfo

A SignatureInfo consists of the signature type, a key locator and other elements.  The element of
the key locator is told from the others by its place and its type alone, so that another element of
this type is taken for the key locator when there is none.  The wire encoding is kept, also when an
element is added later.
-/

namespace IcnDemo.Codec

open List Option Prepend

/-- `SignatureInfo`; the type −1 stands for none. -/
structure SignatureInfo where
  type : Int32 := -1
  keyLocator : Option KeyLocator := none
  otherTlvs : List Block := []
  wire : Option Block := none
deriving DecidableEq, Repr

namespace SignatureInfo

/-! ### Setters -/

/-- `SignatureInfo::setSignatureType`. -/
def setSignatureType (type : Int32) (info : SignatureInfo) : SignatureInfo :=
  { info with type, wire := none }

/-- `SignatureInfo::setKeyLocator`. -/
def setKeyLocator (keyLocator : KeyLocator) (info : SignatureInfo) : SignatureInfo :=
  { info with keyLocator := some keyLocator, wire := none }

/-- `SignatureInfo::unsetKeyLocator`. -/
def unsetKeyLocator (info : SignatureInfo) : SignatureInfo :=
  { info with keyLocator := none, wire := none }

/-- The type number of a ValidityPeriod. -/
def validityPeriod : ℕ := 253

/-- `SignatureInfo::unsetValidityPeriod`. -/
def unsetValidityPeriod (info : SignatureInfo) : SignatureInfo :=
  { info with
    otherTlvs :=
      match info.otherTlvs with
      | [] => []
      | b :: bs => if b.type = validityPeriod then bs else b :: bs
    wire := none }

/-- `setValidityPeriod`, with the element of the period. -/
def setValidityPeriod (period : Block) (info : SignatureInfo) : SignatureInfo :=
  { info.unsetValidityPeriod with otherTlvs := period :: info.unsetValidityPeriod.otherTlvs }

/-- `appendTypeSpecificTlv`; the wire encoding is not reset. -/
def appendTypeSpecificTlv (b : Block) (info : SignatureInfo) : SignatureInfo :=
  { info with otherTlvs := info.otherTlvs ++ [b] }

/-! ### Encoding and decoding -/

/-- `wireEncode` with an encoder, `none` when it throws.  The other elements are appended, the last
one first. -/
def encode (info : SignatureInfo) : Option Prepend :=
  let locator : Option Prepend :=
    match info.keyLocator with
    | none => some nothing
    | some k => k.wireEncode
  locator.map fun f =>
    element Tlv.signatureInfo (((appendBlocks info.otherTlvs.reverse).andThen f).andThen
        (nonNegativeIntegerBlock Tlv.signatureType info.type.toInt64.toUInt64))

/-- `wireEncode`, which keeps what it encodes. -/
def wireEncode (info : SignatureInfo) : Option (Block × SignatureInfo) :=
  match info.wire with
  | some w => some (w, info)
  | none =>
    match info.encode with
    | none => none
    | some f => (Block.ofBuffer f.octets).map fun w => (w, { info with wire := some w })

/-- `SignatureInfo(const Block&)`, `none` when it throws. -/
def wireDecode (wire : Block) : Option SignatureInfo :=
  match Block.parse wire.value with
  | some (t :: rest) =>
    if wire.type = Tlv.signatureInfo ∧ t.type = Tlv.signatureType then
      match t.readNonNegativeInteger with
      | none => none
      | some n =>
        let type := n.toInt64.toInt32
        match rest with
        | [] => some { type, wire := some wire }
        | e :: rest' =>
          if e.type = Tlv.keyLocator then
            (KeyLocator.wireDecode e).map fun k =>
              { type, keyLocator := some k, otherTlvs := rest', wire := some wire }
          else some { type, otherTlvs := e :: rest', wire := some wire }
    else none
  | _ => none

/-! ### What an element says -/

/-- The element behind the signature type. -/
def second (wire : Block) : Option Block :=
  match Block.parse wire.value with
  | some (_ :: e :: _) => some e
  | _ => none

/-- The element has the signature type, and the key locator if there is one. -/
def Carries (wire : Block) (type : Int32) (keyLocator : Option KeyLocator) : Prop :=
  wire.type = Tlv.signatureInfo ∧
    ∃ t rest, Block.parse wire.value = some (t :: rest) ∧ t.type = Tlv.signatureType ∧
      (t.readNonNegativeInteger.map fun n => n.toInt64.toInt32) = some type ∧
      ∀ k ∈ keyLocator, ∃ e rest', rest = e :: rest' ∧ e.type = Tlv.keyLocator ∧
        KeyLocator.wireDecode e = some k

variable {wire : Block} {type : Int32} {keyLocator : Option KeyLocator}

/-- What is decoded has the same type, and the same key locator unless there was none and the
element behind the type looks like one. -/
theorem Carries.wireDecode_iff (h : Carries wire type keyLocator) :
    (∃ info, wireDecode wire = some info ∧ info.type = type ∧ info.keyLocator = keyLocator) ↔
      (keyLocator = none → ∀ e ∈ second wire, e.type ≠ Tlv.keyLocator) := by
  obtain ⟨hwire, t, rest, hparse, ht, hnumber, hlocator⟩ := h
  obtain ⟨n, hn, rfl⟩ := map_eq_some_iff.mp hnumber
  unfold wireDecode second
  rw [hparse]
  simp only [hwire, ht, hn, and_self, if_true]
  rcases rest with _ | ⟨e, rest⟩
  · rcases keyLocator with _ | k
    all_goals simp_all
  rcases keyLocator with _ | k
  · by_cases he : e.type = Tlv.keyLocator
    · simp_all
    · simp [he]
  · simp_all

/-- What is decoded is in the wire, the locator in the second element or nowhere. -/
theorem wireDecode_eq_some {info : SignatureInfo} (h : wireDecode wire = some info) :
    Carries wire info.type info.keyLocator ∧ info.wire = some wire ∧
      ∃ t rest, Block.parse wire.value = some (t :: rest) ∧
        (info.keyLocator = none ∧ info.otherTlvs = rest ∨
          ∃ e rest' k, rest = e :: rest' ∧ KeyLocator.wireDecode e = some k ∧
            info.keyLocator = some k ∧ info.otherTlvs = rest') := by
  unfold wireDecode at h
  rcases hparse : Block.parse wire.value with _ | _ | ⟨t, rest⟩
  · simp [hparse] at h
  · simp [hparse] at h
  simp only [hparse] at h
  obtain ⟨⟨hwire, ht⟩, h⟩ := ite_none_right_eq_some.mp h
  rcases hn : t.readNonNegativeInteger with _ | n
  · simp [hn] at h
  simp only [hn] at h
  have hnumber : (t.readNonNegativeInteger.map fun n => n.toInt64.toInt32)
      = some n.toInt64.toInt32 := by rw [hn]; rfl
  rcases rest with _ | ⟨e, rest⟩
  · obtain rfl := some.inj h
    exact ⟨⟨hwire, t, [], hparse, ht, hnumber, fun k hk => absurd hk (not_mem_none k)⟩, rfl,
      t, [], rfl,
      .inl ⟨rfl, rfl⟩⟩
  by_cases he : e.type = Tlv.keyLocator
  · simp only [he, if_true] at h
    obtain ⟨k, hk, rfl⟩ := map_eq_some_iff.mp h
    refine ⟨⟨hwire, t, e :: rest, hparse, ht, hnumber, fun k' hk' => ?_⟩, rfl, t, e :: rest, rfl,
      .inr ⟨e, rest, k, rfl, hk, rfl, rfl⟩⟩
    simp_all
  · simp only [he, if_false] at h
    obtain rfl := some.inj h
    exact ⟨⟨hwire, t, e :: rest, hparse, ht, hnumber,
      fun k hk => absurd hk (not_mem_none k)⟩, rfl, t,
      e :: rest, rfl, .inl ⟨rfl, rfl⟩⟩

/-- The decoded type is the one that the wire carries. -/
theorem Carries.type_eq {info : SignatureInfo} (h : Carries wire type keyLocator)
    (hdecode : wireDecode wire = some info) : info.type = type := by
  obtain ⟨-, t, rest, hparse, -, hnumber, -⟩ := h
  obtain ⟨⟨-, t', rest', hparse', -, hnumber', -⟩, -⟩ := wireDecode_eq_some hdecode
  grind

/-! ### Objects that can be built -/

/-- What setters, decoding and encoding make. -/
structure WellFormed (info : SignatureInfo) : Prop where
  keyLocator : ∀ k ∈ info.keyLocator, k.WellFormed
  otherTlvs : ∀ b ∈ info.otherTlvs, b.Valid
  wire : ∀ w ∈ info.wire, w.Valid ∧ Carries w info.type info.keyLocator

/-- The elements of the value, in their order. -/
def elements (info : SignatureInfo) : List Block :=
  Block.make Tlv.signatureType (Tlv.nonNegativeInteger info.type.toInt64.toUInt64) ::
    ((info.keyLocator.map KeyLocator.block).toList ++ info.otherTlvs.reverse)

/-- The element: the one that is kept, or else the one that is written. -/
def block (info : SignatureInfo) : Block :=
  info.wire.getD (Block.make Tlv.signatureInfo (info.elements.flatMap Block.wire))

/-- The key locator is not one that cannot be written. -/
def Known (info : SignatureInfo) : Prop :=
  info.wire = none → info.keyLocator ≠ some .unknown

variable {info : SignatureInfo}

/-- The wire is kept where there is one. -/
theorem block_of_wire {w : Block} (h : info.wire = some w) : info.block = w := by
  rw [block, h, getD_some]

/-- Without a wire the elements are written. -/
theorem block_of_none (h : info.wire = none) :
    info.block = Block.make Tlv.signatureInfo (info.elements.flatMap Block.wire) := by
  rw [block, h, getD_none]

section Written

variable (hinfo : info.WellFormed) (hwire : info.wire = none)
  (hknown : info.keyLocator ≠ some .unknown) (hfits : info.block.Fits)

include hwire hfits

/-- The locator of an element that fits does fit. -/
theorem fits_locator {k : KeyLocator} (hk : info.keyLocator = some k) : k.block.Fits := by
  rw [block_of_none hwire] at hfits
  exact hfits.element (by simp [elements, hk])

include hinfo

/-- The element holds its elements. -/
theorem parse_block : Block.parse info.block.value = some info.elements := by
  have hlength := Tlv.length_nonNegativeInteger_le info.type.toInt64.toUInt64
  rw [block_of_none hwire]
  refine Block.parse_flatMap fun b hb => ?_
  simp only [elements, mem_cons, mem_append, mem_toList, mem_reverse] at hb
  rcases hb with rfl | hb | hb
  · exact Block.valid_make (by decide) (by omega)
  · grind [map_eq_some_iff, KeyLocator.valid_block, fits_locator]
  · exact hinfo.otherTlvs b hb

include hknown

/-- The element carries the type and the locator. -/
theorem carries_block : Carries info.block info.type info.keyLocator := by
  have hparse := parse_block hinfo hwire hfits
  refine ⟨by rw [block_of_none hwire]; rfl, _, _, hparse, rfl, ?_, fun k hk => ?_⟩
  · simp [Block.readNonNegativeInteger, Block.make]
  have hk : info.keyLocator = some k := hk
  have hne : k ≠ .unknown := by
    rintro rfl
    exact hknown hk
  exact ⟨k.block, info.otherTlvs.reverse, by simp [hk], rfl, KeyLocator.wireDecode_block
    (hinfo.keyLocator k hk) hne (fits_locator hwire hfits hk)⟩

/-- The encoder writes the octets of the element. -/
theorem exists_encode : ∃ f, info.encode = some f ∧ f.octets = info.block.wire := by
  obtain ⟨f, hf, hwrites⟩ : ∃ f, (match info.keyLocator with
      | none => some nothing
      | some k => k.wireEncode) = some f ∧
        f.WritesAll (info.keyLocator.map KeyLocator.block).toList := by
    rcases hk : info.keyLocator with _ | k
    · exact ⟨nothing, rfl, writes_nothing⟩
    have hne : k ≠ .unknown := by
      rintro rfl
      exact hknown hk
    obtain ⟨f, hf, hwrites⟩ := KeyLocator.exists_wireEncode (hinfo.keyLocator k hk) hne
      (fits_locator hwire hfits hk)
    exact ⟨f, hf, hwrites.all⟩
  refine ⟨_, by rw [encode, hf]; rfl, octets_eq_of_empty fun e he => ?_⟩
  have htype := writes_nonNegativeIntegerBlock (show Tlv.signatureType < 2 ^ 32 by decide)
    info.type.toInt64.toUInt64
  rw [block_of_none hwire] at hfits ⊢
  have hothers : ∀ b ∈ info.otherTlvs.reverse, b.Fits := fun b hb =>
    hfits.element (mem_cons_of_mem _ (mem_append_right _ hb))
  have hvalue := ((writesAt_appendBlocks hothers he).andThen hwrites).andThen htype
  have helements : info.elements.flatMap Block.wire
      = (Block.make Tlv.signatureType (Tlv.nonNegativeInteger info.type.toInt64.toUInt64)).wire ++
        ((info.keyLocator.map KeyLocator.block).toList.flatMap Block.wire ++
          info.otherTlvs.reverse.flatMap Block.wire) := by
    rw [elements, flatMap_cons, flatMap_append]
  rw [helements] at hfits ⊢
  exact hvalue.element (by decide) hfits.value

end Written

section

variable (hinfo : info.WellFormed)

include hinfo

/-- The element is a SignatureInfo. -/
theorem type_block : info.block.type = Tlv.signatureInfo := by
  rcases hwire : info.wire with _ | w
  · rw [block_of_none hwire]
    rfl
  · rw [block_of_wire hwire]
    exact (hinfo.wire w hwire).2.1

/-- What is written carries the type and the locator. -/
theorem carries (hknown : info.Known) (hfits : info.block.Fits) :
    Carries info.block info.type info.keyLocator := by
  rcases hwire : info.wire with _ | w
  · exact carries_block hinfo hwire (hknown hwire) hfits
  · rw [block_of_wire hwire]
    exact (hinfo.wire w hwire).2

/-- The element is valid. -/
theorem valid_block (hfits : info.block.Fits) : info.block.Valid := by
  rcases hwire : info.wire with _ | w
  · rw [block_of_none hwire] at hfits ⊢
    exact Block.valid_make (by decide) hfits.value
  · rw [block_of_wire hwire]
    exact (hinfo.wire w hwire).1

/-- Encoding keeps the wire. -/
theorem wireEncode_eq (hknown : info.Known) (hfits : info.block.Fits) :
    info.wireEncode = some (info.block, { info with wire := some info.block }) := by
  unfold wireEncode
  rcases hwire : info.wire with _ | w
  · obtain ⟨f, hf, hoctets⟩ := exists_encode hinfo hwire (hknown hwire) hfits
    simp [hf, hoctets, (valid_block hinfo hfits).ofBuffer_eq]
  · rw [block_of_wire hwire]
    simp only [← hwire]

end

/-- An unknown key locator cannot be written. -/
theorem wireEncode_eq_none (hunknown : ¬ info.Known) : info.wireEncode = none := by
  obtain ⟨hwire, hlocator⟩ := Classical.not_imp.mp hunknown
  rw [not_not] at hlocator
  simp [wireEncode, hwire, encode, hlocator, KeyLocator.wireEncode]

/-! ### The operations -/

/-- A new SignatureInfo is well formed. -/
theorem wellFormed_new (type : Int32) : WellFormed { type } :=
  ⟨fun k hk => absurd hk (not_mem_none k), fun _ hb => absurd hb not_mem_nil,
    fun w hw => absurd hw (not_mem_none w)⟩

section

variable (h : info.WellFormed)

include h

/-- `setSignatureType` keeps it well formed. -/
theorem WellFormed.setSignatureType (type : Int32) : (info.setSignatureType type).WellFormed :=
  ⟨h.keyLocator, h.otherTlvs, fun w hw => absurd hw (not_mem_none w)⟩

/-- `setKeyLocator` keeps it well formed. -/
theorem WellFormed.setKeyLocator {k : KeyLocator} (hk : k.WellFormed) :
    (info.setKeyLocator k).WellFormed :=
  ⟨fun _ hk' => some.inj hk' ▸ hk, h.otherTlvs, fun w hw => absurd hw (not_mem_none w)⟩

/-- `unsetKeyLocator` keeps it well formed. -/
theorem WellFormed.unsetKeyLocator : info.unsetKeyLocator.WellFormed :=
  ⟨fun k hk => absurd hk (not_mem_none k), h.otherTlvs, fun w hw => absurd hw (not_mem_none w)⟩

/-- `unsetValidityPeriod` keeps it well formed. -/
theorem WellFormed.unsetValidityPeriod : info.unsetValidityPeriod.WellFormed := by
  refine ⟨h.keyLocator, fun b hb => h.otherTlvs b ?_, fun w hw => absurd hw (not_mem_none w)⟩
  grind [SignatureInfo.unsetValidityPeriod]

/-- `setValidityPeriod` keeps it well formed. -/
theorem WellFormed.setValidityPeriod {period : Block} (hp : period.Valid) :
    (info.setValidityPeriod period).WellFormed := by
  refine ⟨h.keyLocator, fun b hb => ?_, fun w hw => absurd hw (not_mem_none w)⟩
  rcases mem_cons.mp hb with rfl | hb
  · exact hp
  · exact h.unsetValidityPeriod.otherTlvs b hb

/-- `appendTypeSpecificTlv` keeps it well formed. -/
theorem WellFormed.appendTypeSpecificTlv {b : Block} (hb : b.Valid) :
    (info.appendTypeSpecificTlv b).WellFormed := by
  refine ⟨h.keyLocator, fun b' hb' => ?_, h.wire⟩
  rcases mem_append.mp hb' with hold | hnew
  · exact h.otherTlvs b' hold
  · rw [mem_singleton.mp hnew]
    exact hb

end

/-- What is decoded from a valid block is well formed. -/
theorem wellFormed_of_wireDecode (hwire : wire.Valid) (h : wireDecode wire = some info) :
    info.WellFormed := by
  obtain ⟨hcarries, hkept, t, rest, hparse, hrest⟩ := wireDecode_eq_some h
  have hvalid := (Block.valid_of_parse hparse).2
  refine ⟨fun k hk => ?_, fun b hb => ?_, fun w hw => ?_⟩
  · grind [KeyLocator.wellFormed_of_wireDecode]
  · grind
  · rw [hkept] at hw
    obtain rfl := some.inj hw
    exact ⟨hwire, hcarries⟩

/-! ### What a decoded element shows -/

/-- The element behind the type: in the element that is kept, or else the first one that is written.
-/
def behindType (info : SignatureInfo) : Option Block :=
  match info.wire with
  | some w => second w
  | none => info.otherTlvs.getLast?

/-- The key locator can be written, and no other element is taken for one. -/
def Shown (info : SignatureInfo) : Prop :=
  info.Known ∧ (info.keyLocator = none → ∀ e ∈ info.behindType, e.type ≠ Tlv.keyLocator)

instance (info : SignatureInfo) : Decidable info.Shown :=
  inferInstanceAs (Decidable ((_ → _) ∧ (_ → _)))

/-- When type and locator are the same after writing and reading. -/
theorem shown_iff (hinfo : info.WellFormed) (hfits : info.block.Fits) :
    info.Shown ↔ info.Known ∧ ∃ info', wireDecode info.block = some info' ∧
      info'.type = info.type ∧ info'.keyLocator = info.keyLocator := by
  refine and_congr_right fun hknown => ?_
  rw [(carries hinfo hknown hfits).wireDecode_iff]
  refine imp_congr_right fun hnone => ?_
  rcases hwire : info.wire with _ | w
  · have hsecond : second info.block = info.otherTlvs.getLast? := by
      rw [second, parse_block hinfo hwire hfits, elements, hnone, ← head?_reverse]
      rcases info.otherTlvs.reverse with _ | ⟨b, bs⟩
      · rfl
      · rfl
    rw [behindType, hwire, hsecond]
  · rw [behindType, hwire, block_of_wire hwire]

/-- What is read back has the other elements in the opposite order. -/
theorem wireDecode_reverse (hinfo : info.WellFormed) (hwire : info.wire = none)
    (hfits : info.block.Fits) (hshown : info.Shown) :
    (info.wireEncode.bind fun r => wireDecode r.1) =
      some { info with otherTlvs := info.otherTlvs.reverse, wire := some info.block } := by
  obtain ⟨hknown, info', hdecode, htype, hlocator⟩ := (shown_iff hinfo hfits).mp hshown
  obtain ⟨-, hkept, t, rest, hparse, hrest⟩ := wireDecode_eq_some hdecode
  -- the elements, as they are on the wire
  rw [parse_block hinfo hwire hfits, elements] at hparse
  rw [wireEncode_eq hinfo hknown hfits]
  rcases info' with ⟨type, keyLocator, otherTlvs, wire⟩
  grind

/-- Two elements behind the type are read in the order of the wire. -/
theorem wireDecode_reverse_two :
    let info := setValidityPeriod (.make 253 []) (appendTypeSpecificTlv (.make 90 []) { type := 1 })
    (info.wireEncode.bind fun r => wireDecode r.1) =
      some { info with otherTlvs := info.otherTlvs.reverse, wire := some info.block } :=
  wireDecode_reverse (((wellFormed_new 1).appendTypeSpecificTlv
    (Block.valid_make (by decide) (by decide))).setValidityPeriod
      (Block.valid_make (by decide) (by decide))) rfl (by decide) (by decide)

end SignatureInfo

end IcnDemo.Codec
