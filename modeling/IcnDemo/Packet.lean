import IcnDemo.Block

/-!
# Interests and Data

The fields of the two packets that forwarding reads, and `Interest.matchesData`, the test that
decides whether a Data satisfies an Interest.  A packet keeps the wire form of its selectors and
of its key locator, because the library compares these by their bytes.

The full name of a Data is its name with the implicit digest appended; the digest is the
SHA-256 value of the packet and is a field here, 32 bytes long.

A name that was decoded keeps the octets of its components, and the tables that are looked up by
hash see them (`KeptName`).
-/

namespace IcnDemo

/-- Reduction to the range of a signed 64-bit integer. -/
def wrap64 (x : ℤ) : ℤ :=
  Int.bmod x (2 ^ 64)

/-! ### Order of components -/

namespace Component

/-- `Component::compare`: by type, then by size, then by bytes. -/
def compare (c d : Component) : Ordering :=
  (Ord.compare c.type d.type).then <|
    (Ord.compare c.value.length d.value.length).then <|
      List.compareLex Ord.compare c.value d.value

/-- Add one to a byte string read as a big-endian number of fixed width; the flag reports an
overflow. -/
def incrementBytes : List UInt8 → List UInt8 × Bool
  | [] => ([], true)
  | b :: bs =>
      let r := incrementBytes bs
      if r.2 then ((b + 1) :: r.1, b + 1 == 0) else (b :: r.1, false)

/-- `Component::getSuccessor`; an overflow adds a byte.  The constructor that finishes the
function throws for a digest that is not 32 bytes long, which is `none` here. -/
def getSuccessor (c : Component) : Option Component :=
  let r := incrementBytes c.value
  let s : Component := ⟨c.type, if r.2 then r.1 ++ [0] else r.1⟩
  if s.isGeneric || s.isImplicitSha256Digest then some s else none

end Component

/-- `Name::getSuccessor`; `none` when the component constructor throws. -/
def Name.getSuccessor (n : Name) : Option Name :=
  match n.getLast? with
  | none => some [.generic [0]]
  | some c => c.getSuccessor.map fun s => n.dropLast ++ [s]

/-- `Name::compare`. -/
def Name.compare (n m : Name) : Ordering :=
  List.compareLex Component.compare n m

/-! ### Selectors -/

/-- The exclude filter: the terms in the order of its map, which is descending; the flag of a
term says that everything up to the next term is excluded too. -/
structure Exclude where
  terms : List (Component × Bool)
  descending : terms.Pairwise fun p q => q.1.compare p.1 = .lt
deriving DecidableEq

namespace Exclude

/-- The filter that excludes nothing. -/
def none : Exclude := ⟨[], List.Pairwise.nil⟩

/-- `Exclude::empty`. -/
def isEmpty (x : Exclude) : Bool :=
  x.terms.isEmpty

/-- `Exclude::isExcluded`: the lower bound in descending order is the greatest term that is not
greater than the component. -/
def isExcluded (x : Exclude) (comp : Component) : Bool :=
  match x.terms.find? fun p => p.1.compare comp != .gt with
  | .none => false
  | some (c, any) => if any then true else c.equals comp

end Exclude

/-- `KeyLocator::Type`. -/
inductive KeyLocatorType where
  | none
  | name
  | keyDigest
  | unknown
deriving DecidableEq, Repr

/-- A key locator with its wire form. -/
structure KeyLocator where
  type : KeyLocatorType
  wire : List UInt8
deriving DecidableEq, Repr

/-- `KeyLocator::empty`. -/
def KeyLocator.isEmpty (k : KeyLocator) : Bool :=
  k.type == .none

/-- The selectors of an Interest.  A negative number stands for an absent field. -/
structure Selectors where
  minSuffixComponents : ℤ
  maxSuffixComponents : ℤ
  publisherPublicKeyLocator : KeyLocator
  exclude : Exclude
  childSelector : ℤ
  mustBeFresh : Bool
  wire : List UInt8
deriving DecidableEq

namespace Selectors

/-- No selector at all; the wire form is an empty element of type 9. -/
def none : Selectors :=
  ⟨-1, -1, ⟨.none, []⟩, Exclude.none, -1, false, [9, 0]⟩

/-- `Selectors::operator==` compares the wire forms. -/
def equals (s s' : Selectors) : Bool :=
  s.wire == s'.wire

end Selectors

/-! ### Names with their octets -/

/-- The octets of a component.  A component that the library encodes is in the shortest form; a
decoded one keeps the octets it was read from, whose type and length may be in a longer form. -/
inductive Component.HasOctets (c : Component) : List UInt8 → Prop
  | encoded : c.HasOctets c.wire
  | decoded {octets : List UInt8} (h : Block.fromBuffer octets = some ⟨c.type, octets, c.value⟩) :
      c.HasOctets octets

/-- A name with the octets that its components have on the wire. -/
@[ext] structure KeptName where
  name : Name
  octets : List (List UInt8)
  hasOctets : List.Forall₂ Component.HasOctets name octets
deriving DecidableEq, Repr

/-- The first components of a name with their octets. -/
def KeptName.take (q : KeptName) (i : ℕ) : KeptName :=
  ⟨q.name.take i, q.octets.take i, List.forall₂_take i q.hasOctets⟩

/-- A name that the library encodes. -/
def Name.encoded (n : Name) : KeptName :=
  ⟨n, n.map Component.wire,
    List.forall₂_map_right_iff.mpr (List.forall₂_same.mpr fun _ _ => .encoded)⟩

instance : Coe Name KeptName :=
  ⟨Name.encoded⟩

@[simp] theorem Name.name_encoded (n : Name) : n.encoded.name = n :=
  rfl

/-! ### Packets -/

/-- An Interest.  The nonce is kept as the bytes of its element, since decoding accepts any
number of them. -/
structure Interest where
  name : Name
  selectors : Selectors
  nonce : List UInt8
  lifetime : ℤ
deriving DecidableEq

/-- A Data. -/
structure Data where
  keptName : KeptName
  digest : List UInt8
  digest_length : digest.length = 32
  freshnessPeriod : ℤ
  keyLocator : Option (List UInt8)
  noCache : Bool
deriving DecidableEq

/-- `Data::getName`, without the octets. -/
def Data.name (d : Data) : Name :=
  d.keptName.name

/-- `Data::getFullName`. -/
def Data.fullName (d : Data) : Name :=
  d.name ++ [.implicitDigest d.digest]

namespace Interest

/-- The number a byte string denotes, most significant byte first. -/
def readBigEndian (bs : List UInt8) : ℕ :=
  bs.foldl (fun v b => 256 * v + b.toNat) 0

variable (i : Interest) (d : Data)

/-- `Interest::getNonce` for an Interest that carries one.  Four bytes are read in memory order;
other sizes are read as a non-negative integer, which throws unless there are 1, 2 or 8. -/
def getNonce : Option UInt32 :=
  match i.nonce with
  | [a, b, c, d] => some (UInt32.ofNat (readBigEndian [d, c, b, a]))
  | bs => if bs.length ∈ [1, 2, 8] then some (UInt32.ofNat (readBigEndian bs)) else none

/-- `Interest::setNonce`: the bytes of the number in memory order. -/
def setNonce (nonce : UInt32) : Interest :=
  { i with nonce :=
    [nonce.toUInt8, (nonce >>> 8).toUInt8, (nonce >>> 16).toUInt8, (nonce >>> 24).toUInt8] }

/-- The part of `matchesData` that compares names. -/
def matchesPrefix : Bool :=
  if i.name.length = d.name.length + 1 then
    match i.name.getLast? with
    | none => false
    | some c => c.isImplicitSha256Digest && Name.equals i.name d.fullName
  else Name.isPrefixOf i.name d.name

/-- The part of `matchesData` that consults the exclude filter. -/
def isExcludedBy : Bool :=
  if !i.selectors.exclude.isEmpty && decide (i.name.length < d.name.length + 1) then
    -- the component to exclude is the digest when the names are the same
    match (if i.name.length = d.name.length then d.fullName else d.name)[i.name.length]? with
    | none => false
    | some c => i.selectors.exclude.isExcluded c
  else false

/-- The part of `matchesData` that compares key locators. -/
def matchesKeyLocator : Bool :=
  if i.selectors.publisherPublicKeyLocator.isEmpty then true
  else
    match d.keyLocator with
    | none => false
    | some wire => i.selectors.publisherPublicKeyLocator.wire == wire

/-- `Interest::matchesData`. -/
def matchesData : Bool :=
  let fullNameLength := d.name.length + 1
  let minSuffixComponents := i.selectors.minSuffixComponents.toNat
  if ¬ i.name.length + minSuffixComponents ≤ fullNameLength then false
  else if 0 ≤ i.selectors.maxSuffixComponents ∧
      ¬ fullNameLength ≤ i.name.length + i.selectors.maxSuffixComponents.toNat then false
  else if !i.matchesPrefix d then false
  else if i.isExcludedBy d then false
  else i.matchesKeyLocator d

end Interest

end IcnDemo
