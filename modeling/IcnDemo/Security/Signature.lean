import IcnDemo.Name
import IcnDemo.Tlv

/-!
# Signatures and the names of keys

The signature of a Data is a pair of fields.  That of an Interest stands in the last two components
of its name, each of which holds one element; decoding them throws a `tlv::Error` when the bytes
are not what they should be.  A certificate is called by a name that contains the components `KEY`
and `ID-CERT`, from which the name of the key is made.
-/

namespace IcnDemo

namespace Tlv

/-- One element at the beginning of a buffer, and the bytes behind it. -/
def readElement (bs : List UInt8) : Option (Element × List UInt8) :=
  match readType bs with
  | none => none
  | some (t, rest) =>
    match readVarNumber rest with
    | none => none
    | some (len, value) =>
      if value.length < len then none else some (⟨t, value.take len⟩, value.drop len)

/-- The loop of `Block::parse`; every element takes at least one byte. -/
def parseLoop : ℕ → List UInt8 → Option (List Element)
  | _, [] => some []
  | 0, _ :: _ => none
  | fuel + 1, b :: bs =>
    match readElement (b :: bs) with
    | none => none
    | some (e, rest) => (parseLoop fuel rest).map (e :: ·)

/-- `Block::parse`: the elements inside a value, `none` when it throws. -/
def parse (value : List UInt8) : Option (List Element) :=
  parseLoop value.length value

/-- `Block::blockFromValue`: the one element that a value consists of. -/
def blockFromValue (value : List UInt8) : Option Element :=
  match readElement value with
  | some (e, []) => some e
  | _ => none

end Tlv

namespace Security

/-- `KeyLocator`, decoded. -/
inductive Locator where
  | none
  | name (n : Name)
  | keyDigest (digest : List UInt8)
  | unknown
deriving DecidableEq, Repr

/-- `KeyLocator::wireDecode`.  The types of the components of a name are not looked at. -/
def Locator.wireDecode (value : List UInt8) : Option Locator :=
  match Tlv.parse value with
  | Option.none => Option.none
  | some [] => some .none
  | some (e :: _) =>
    if e.type = Tlv.name then
      (Tlv.parse e.value).map fun components => .name (components.map fun c => ⟨c.type, c.value⟩)
    else if e.type = Tlv.keyDigest then some (.keyDigest e.value)
    else some .unknown

/-- `Signature`: the fields of the SignatureInfo and the element of the SignatureValue. -/
structure Signature where
  type : ℕ
  keyLocator : Option Locator
  value : Tlv.Element
deriving DecidableEq, Repr

/-- The signature types of the library. -/
def digestSha256 : ℕ := 0

/-- `SignatureSha256WithRsa`. -/
def signatureSha256WithRsa : ℕ := 1

/-- `SignatureSha256WithEcdsa`. -/
def signatureSha256WithEcdsa : ℕ := 3

/-- `SignatureInfo::wireDecode`; the type number is narrowed to 32 bits. -/
def decodeInfo (info : Tlv.Element) : Option (ℕ × Option Locator) :=
  match Tlv.parse info.value with
  | none => none
  | some elements =>
    if info.type ≠ Tlv.signatureInfo then none
    else
      match elements with
      | [] => none
      | t :: rest =>
        if t.type ≠ Tlv.signatureType then none
        else
          match Tlv.readNonNegativeInteger t.value with
          | none => none
          | some number =>
            let type := number.toNat % 2 ^ 32
            match rest with
            | [] => some (type, none)
            | k :: _ =>
              if k.type = Tlv.keyLocator then
                (Locator.wireDecode k.value).map fun locator => (type, some locator)
              else some (type, none)

/-- The constructor of `Signature` on the blocks in two components, `none` when a `tlv::Error` is
thrown.  The type of the value is not looked at. -/
def Signature.ofComponents (info value : Component) : Option Signature :=
  match Tlv.blockFromValue info.value, Tlv.blockFromValue value.value with
  | some i, some v => (decodeInfo i).map fun f => ⟨f.1, f.2, v⟩
  | _, _ => none

/-! ### Signed Interests -/

/-- The number of components that a signed Interest has at least: timestamp, random value, and the
two parts of the signature. -/
def minLength : ℕ := 4

variable (n : Name)

/-- The signature in the last two components of a name, `none` when decoding throws. -/
def signatureOf : Option Signature :=
  match n.reverse with
  | value :: info :: _ => Signature.ofComponents info value
  | _ => none

/-- The bytes that the signature of an Interest covers. -/
def signedPortion : List UInt8 :=
  n.dropLast.flatMap Component.wire

/-- The name of an Interest without the components that sign it. -/
def unsignedName : Name :=
  n.take (n.length - minLength)

/-- The timestamp of a signed Interest in nanoseconds, `none` when `toNumber` throws.  The number of
milliseconds is unsigned, the time is a signed number of 64 bits. -/
def interestTime : Option ℤ :=
  match n.reverse[3]? with
  | none => none
  | some c => (Tlv.readNonNegativeInteger c.value).map fun ms =>
      (((ms.toNat * 10 ^ 6 : ℕ) : ℤ)).bmod (2 ^ 64)

/-- `KeyLocator::getName`, `none` when it throws. -/
def Locator.getName : Locator → Option Name
  | .name n => some n
  | _ => Option.none

/-! ### Names of keys -/

/-- The bytes of `ID-CERT`. -/
def idString : List UInt8 :=
  [0x49, 0x44, 0x2D, 0x43, 0x45, 0x52, 0x54]

/-- The bytes of `KEY`. -/
def keyString : List UInt8 :=
  [0x4B, 0x45, 0x59]

/-- `toUri` yields a string of letters and hyphens.  A component that is not a digest is written
as its bytes, if these need no escape. -/
def uriIs (bytes : List UInt8) (c : Component) : Bool :=
  c.type != Tlv.implicitSha256DigestComponent && c.value == bytes

/-- `IdentityCertificate::certificateNameToPublicKeyName`, `none` when it throws: what stands before
the last `ID-CERT`, without its first `KEY`. -/
def certificateNameToPublicKeyName (certificateName : Name) : Option Name :=
  match certificateName.reverse.findIdx? (uriIs idString) with
  | none => none
  | some i =>
    let tmpName := certificateName.take (certificateName.length - 1 - i)
    match tmpName.findIdx? (uriIs keyString) with
    | none => none
    | some k => some (tmpName.take k ++ tmpName.drop (k + 1))

/-- `IdentityCertificate::isCorrectName`. -/
def isCorrectName : Bool :=
  n.any (uriIs idString) && n.any (uriIs keyString)

end Security

end IcnDemo
