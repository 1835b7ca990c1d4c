import IcnDemo.Encoding.Writer
import IcnDemo.NameOrder

/-!
# The wire format of names and key locators

A name is an element around the elements of its components.  Encoding writes the numbers anew and
decoding keeps the type and the value of each component, whatever the type is.  A key locator
contains a name or the digest of a key.
-/

namespace IcnDemo

open Prepend Block

namespace Component

/-- `Component(const Block&)`, `none` when it throws. -/
def ofBlock (b : Block) : Option Component :=
  let c : Component := ⟨b.type, b.value⟩
  if c.isGeneric || c.isImplicitSha256Digest then some c else none

/-- A component after `Block::reset`: it is empty, and its type is the greatest number. -/
def reset : Component :=
  ⟨4294967295, []⟩

@[simp] theorem empty_reset : reset.empty = true := rfl

/-- `Component::wireEncode`. -/
def wireEncode (c : Component) : Prepend :=
  element c.type (onlyIf (0 < c.value.length) (byteArray c.value))

/-- The element of a component. -/
def block (c : Component) : Block :=
  Block.make c.type c.value

/-- The type is a 32-bit number, as that of every `Block` is. -/
def Typed (c : Component) : Prop :=
  c.type < 2 ^ 32

instance (c : Component) : Decidable c.Typed :=
  inferInstanceAs (Decidable (_ < _))

variable {c : Component}

/-- A component that can be constructed has a type of a component. -/
theorem WellFormed.typed (h : c.WellFormed) : c.Typed := by
  unfold Typed
  rcases h with h | h
  all_goals grind [Tlv.nameComponent, isGeneric, Tlv.implicitSha256DigestComponent,
    isImplicitSha256Digest]

/-- The encoder of a component writes its octets. -/
theorem writes_wireEncode (hc : c.Typed) (hfits : c.block.Fits) : c.wireEncode.Writes c.wire := by
  have hvalue : (onlyIf (0 < c.value.length) (byteArray c.value)).Writes c.value := by
    grind [onlyIf, writes_byteArray, List.length_eq_zero_iff, writes_nothing]
  exact hvalue.element hc hfits.value

/-- The element of a component is valid. -/
theorem valid_block (hc : c.Typed) (hfits : c.block.Fits) : c.block.Valid :=
  valid_make hc hfits.value

/-- A component is read back from its element. -/
theorem ofBlock_block (hc : c.WellFormed) : ofBlock c.block = some c := by
  exact if_pos (Bool.or_eq_true_iff.mpr hc)

/-- The element of a component is not ANY. -/
theorem type_block_ne_any (hc : c.WellFormed) : c.block.type ≠ Tlv.any := by
  change c.type ≠ Tlv.any
  rcases hc with h | h
  · have htype : c.type = Tlv.nameComponent := by simpa [isGeneric] using h
    rw [htype]
    decide
  have htype : c.type = Tlv.implicitSha256DigestComponent := by
    simp only [isImplicitSha256Digest, Bool.and_eq_true, beq_iff_eq] at h
    exact h.1
  rw [htype]
  decide

end Component

namespace Name

/-- `Name::wireEncode`. -/
def wireEncode (n : Name) : Prepend :=
  element Tlv.name (backwards Component.wireEncode n)

/-- `Name::wireDecode`, `none` when it throws. -/
def wireDecode (b : Block) : Option Name :=
  if b.type ≠ Tlv.name then none
  else (Block.parse b.value).map fun elements => elements.map fun e => ⟨e.type, e.value⟩

/-- The element of a name. -/
def block (n : Name) : Block :=
  Block.make Tlv.name ((n.map Component.block).flatMap Block.wire)

/-- The types are 32-bit numbers; they need not be those of components, since a name that was
decoded can have any. -/
def Typed (n : Name) : Prop :=
  ∀ c ∈ n, c.Typed

instance (n : Name) : Decidable n.Typed :=
  inferInstanceAs (Decidable (∀ c ∈ n, c.Typed))

variable {n : Name}

/-- The encoder of a name writes its element. -/
theorem writes_wireEncode (hn : n.Typed) (hfits : n.block.Fits) :
    n.wireEncode.Writes n.block.wire := by
  have hwires : n.flatMap Component.wire = (n.map Component.block).flatMap Block.wire := by
    rw [List.flatMap_map]
    rfl
  have hcomponents : (backwards Component.wireEncode n).Writes (n.flatMap Component.wire) := by
    refine writes_backwards fun c hc => Component.writes_wireEncode (hn c hc) ?_
    exact hfits.element (List.mem_map_of_mem hc)
  rw [hwires] at hcomponents
  exact hcomponents.element (by decide) hfits.value

/-- The element of a name is valid. -/
theorem valid_block (hfits : n.block.Fits) : n.block.Valid :=
  valid_make (by decide) hfits.value

/-- A name is read back. -/
theorem wireDecode_block (hn : n.Typed) (hfits : n.block.Fits) : wireDecode n.block = some n := by
  have hparse : parse n.block.value = some (n.map Component.block) := by
    refine parse_flatMap fun b hb => ?_
    obtain ⟨c, hc, rfl⟩ := List.mem_map.mp hb
    exact Component.valid_block (hn c hc) (hfits.element hb)
  unfold wireDecode
  rw [if_neg (by simp [block, make]), hparse]
  simp [Component.block, make, Function.comp_def]

/-- The components of a decoded name have types of components. -/
theorem typed_of_wireDecode {b : Block} (h : wireDecode b = some n) : n.Typed := by
  unfold wireDecode at h
  obtain ⟨-, h⟩ := Option.ite_none_left_eq_some.mp h
  obtain ⟨elements, hparse, rfl⟩ := Option.map_eq_some_iff.mp h
  intro c hc
  obtain ⟨e, he, rfl⟩ := List.mem_map.mp hc
  exact ((valid_of_parse hparse).2 e he).type_lt

end Name

namespace Codec

/-- `KeyLocator`, by its type. -/
inductive KeyLocator where
  | none
  | name (n : Name)
  | keyDigest (digest : Block)
  | unknown
deriving DecidableEq, Repr

namespace KeyLocator

/-- `KeyLocator::wireEncode`, `none` when it throws. -/
def wireEncode : KeyLocator → Option Prepend
  | none => some (element Tlv.keyLocator nothing)
  | name n => some (element Tlv.keyLocator n.wireEncode)
  | keyDigest digest => some (element Tlv.keyLocator (Prepend.block digest))
  | unknown => Option.none

/-- `KeyLocator::wireDecode`, `none` when it throws. -/
def wireDecode (b : Block) : Option KeyLocator :=
  if b.type ≠ Tlv.keyLocator then Option.none
  else
    match Block.parse b.value with
    | Option.none => Option.none
    | some [] => some none
    | some (e :: _) =>
      if e.type = Tlv.name then (Name.wireDecode e).map name
      else if e.type = Tlv.keyDigest then some (keyDigest e)
      else some unknown

/-- What can be set or decoded. -/
def WellFormed : KeyLocator → Prop
  | none => True
  | name n => n.Typed
  | keyDigest digest => digest.type = Tlv.keyDigest ∧ digest.Valid
  | unknown => True

/-- The element inside. -/
def inner : KeyLocator → List Block
  | none => []
  | name n => [n.block]
  | keyDigest digest => [digest]
  | unknown => []

/-- The element of a key locator. -/
def block (k : KeyLocator) : Block :=
  Block.make Tlv.keyLocator (k.inner.flatMap Block.wire)

variable {k : KeyLocator}

/-- A key locator of a known type is written. -/
theorem exists_wireEncode (hk : k.WellFormed) (hknown : k ≠ unknown) (hfits : k.block.Fits) :
    ∃ f, k.wireEncode = some f ∧ f.Writes k.block.wire := by
  rcases k with _ | n | digest | _
  · exact ⟨_, rfl, writes_nothing.element (by decide) (by simp)⟩
  · have hname : n.block.Fits := hfits.element (by simp [inner])
    have hwrites := Name.writes_wireEncode hk hname
    refine ⟨_, rfl, ?_⟩
    have hinner : ([n.block]).flatMap wire = n.block.wire := by simp
    rw [block, inner, hinner]
    exact hwrites.element (by decide) hname.lt
  · have hdigest : digest.Fits := hfits.element (by simp [inner])
    refine ⟨_, rfl, ?_⟩
    have hinner : ([digest]).flatMap wire = digest.wire := by simp
    rw [block, inner, hinner]
    exact (writes_block hdigest).element (by decide) hdigest.lt
  · exact absurd rfl hknown

/-- The element of a key locator is valid. -/
theorem valid_block (hfits : k.block.Fits) : k.block.Valid :=
  valid_make (by decide) hfits.value

/-- A key locator of a known type is read back. -/
theorem wireDecode_block (hk : k.WellFormed) (hknown : k ≠ unknown) (hfits : k.block.Fits) :
    wireDecode k.block = some k := by
  have hparse : parse k.block.value = some k.inner := by
    refine parse_flatMap fun b hb => ?_
    rcases k with _ | n | digest | _
    · cases hb
    · rw [List.mem_singleton.mp hb]
      exact Name.valid_block (hfits.element (by simp [inner]))
    · rw [List.mem_singleton.mp hb]
      exact hk.2
    · cases hb
  unfold wireDecode
  rw [if_neg (by simp [block, make]), hparse]
  rcases k with _ | n | digest | _
  · rfl
  · have hname : n.block.Fits := hfits.element (by simp [inner])
    simp only [inner]
    rw [if_pos (show n.block.type = Tlv.name from rfl), Name.wireDecode_block hk hname]
    rfl
  · have htype : digest.type = 29 := hk.1
    simp only [inner]
    rw [if_neg (by rw [htype]; decide), if_pos hk.1]
  · exact absurd rfl hknown

/-- A decoded key locator is well formed. -/
theorem wellFormed_of_wireDecode {b : Block} (h : wireDecode b = some k) : k.WellFormed := by
  unfold wireDecode at h
  obtain ⟨-, h⟩ := Option.ite_none_left_eq_some.mp h
  rcases hparse : parse b.value with _ | _ | ⟨e, rest⟩
  · simp [hparse] at h
  · simp only [hparse, Option.some.injEq] at h
    rw [← h]
    trivial
  · have hvalid := (valid_of_parse hparse).2 e List.mem_cons_self
    simp only [hparse] at h
    by_cases hname : e.type = Tlv.name
    · rw [if_pos hname] at h
      obtain ⟨n, hn, rfl⟩ := Option.map_eq_some_iff.mp h
      exact Name.typed_of_wireDecode hn
    rw [if_neg hname] at h
    by_cases hdigest : e.type = Tlv.keyDigest
    · rw [if_pos hdigest] at h
      rw [← Option.some.inj h]
      exact ⟨hdigest, hvalid⟩
    · rw [if_neg hdigest] at h
      rw [← Option.some.inj h]
      trivial

end KeyLocator

end Codec

end IcnDemo
