import IcnDemo.Codec.Data

/-!
# Links

A Link is a Data whose content is a list of delegations.  An Interest holds its wire encoding, and
selects a delegation by its place in the content.  A `Link` object holds the delegations in a set,
so that it can have fewer.
-/

namespace IcnDemo.Codec

open Option

namespace Link

/-- The content type of a Link. -/
def contentTypeLink : UInt32 := 1

/-- The elements of the content, `none` when parsing throws. -/
def contentElements (link : Block) : Option (List Block) := do
  let elements ← Block.parse link.value
  let content ← Block.find elements Tlv.content
  Block.parse content.value

/-- `Link::countDelegationsFromWire`, `none` when it throws. -/
def countDelegationsFromWire (link : Block) : Option ℕ :=
  (contentElements link).map List.length

/-- `Name(const Block&)`; the type is not looked at. -/
def nameOf (b : Block) : Option Name :=
  (Block.parse b.value).map fun elements => elements.map fun e => ⟨e.type, e.value⟩

/-- The loop of `Link::findDelegationFromWire`: the index, if there is one; `none` when it throws.
-/
def findLoop (name : Name) : ℕ → List Block → Option (Option ℕ)
  | _, [] => some none
  | counter, delegation :: rest =>
    match Block.parse delegation.value with
    | none => none
    | some elements =>
      if delegation.type ≠ Tlv.linkDelegation then none
      else
        match (Block.find elements Tlv.name).bind nameOf with
        | none => none
        | some n => if n.equals name then some (some counter) else findLoop name (counter + 1) rest

/-- `Link::findDelegationFromWire`. -/
def findDelegationFromWire (link : Block) (name : Name) : Option (Option ℕ) :=
  (contentElements link).bind (findLoop name 0)

/-- One round of the loop of `decodeContent`; the types of the two elements are not looked at. -/
def decodeDelegation (delegation : Block) : Option (UInt32 × Name) :=
  match Block.parse delegation.value with
  | some (preference :: name :: _) =>
    match preference.readNonNegativeInteger, nameOf name with
    | some n, some name => some (n.toUInt32, name)
    | _, _ => none
  | _ => none

/-- The order of the set: by preference, then by name. -/
def before (d e : UInt32 × Name) : Bool :=
  decide (d.1 < e.1) || (d.1 == e.1 && Name.compare d.2 e.2 == .lt)

/-- Insert into the set, which is a list in ascending order. -/
def insertDelegation (d : UInt32 × Name) : List (UInt32 × Name) → List (UInt32 × Name)
  | [] => [d]
  | e :: es =>
    if before d e then d :: e :: es
    else if before e d then e :: insertDelegation d es
    else e :: es

/-- The loop of `decodeContent`, `none` when it throws. -/
def decodeDelegations : List (UInt32 × Name) → List Block → Option (List (UInt32 × Name))
  | delegations, [] => some delegations
  | delegations, b :: bs =>
    match decodeDelegation b with
    | none => none
    | some d => decodeDelegations (insertDelegation d delegations) bs

end Link

/-- `Link`: a Data and the set of its delegations. -/
structure Link where
  data : Data := {}
  delegations : List (UInt32 × Name) := []
deriving DecidableEq, Repr

namespace Link

/-- `Link::wireDecode` into an object, `none` when it throws.  The set is not cleared. -/
def wireDecode (wire : Block) (link : Link) : Option Link := do
  let data ← link.data.wireDecode wire
  if data.metaInfo.type ≠ contentTypeLink then none
  else do
    let elements ← Block.parse data.content.value
    let delegations ← decodeDelegations link.delegations elements
    some { data, delegations }

/-! ### The set of delegations -/

/-- The order of delegations is total. -/
theorem eq_of_not_before {d e : UInt32 × Name} (h : before d e = false) (h' : before e d = false) :
    d = e := by
  obtain ⟨p, n⟩ := d
  obtain ⟨q, m⟩ := e
  simp only [before, Bool.or_eq_false_iff, decide_eq_false_iff_not, Bool.and_eq_false_iff,
    beq_eq_false_iff_ne] at h h'
  obtain rfl : p = q := UInt32.le_antisymm (UInt32.not_lt.mp h'.1) (UInt32.not_lt.mp h.1)
  have hlt : Name.compare n m ≠ .lt := h.2.resolve_left (by simp)
  have hgt : Name.compare m n ≠ .lt := h'.2.resolve_left (by simp)
  have hswap : Name.compare m n = (Name.compare n m).swap := Std.OrientedCmp.eq_swap
  have heq : Name.compare n m = .eq := by
    rcases hcompare : Name.compare n m with _ | _ | _ <;> simp_all
  rw [Std.LawfulEqCmp.compare_eq_iff_eq.mp heq]

/-- A delegation is added to those that are there. -/
theorem mem_insertDelegation {d x : UInt32 × Name} {l : List (UInt32 × Name)} :
    x ∈ insertDelegation d l ↔ x = d ∨ x ∈ l := by
  induction l with
  | nil => simp [insertDelegation]
  | cons e es ih => grind [insertDelegation, eq_of_not_before]

/-- At most one delegation is added. -/
theorem length_insertDelegation_le (d : UInt32 × Name) (l : List (UInt32 × Name)) :
    (insertDelegation d l).length ≤ l.length + 1 := by
  induction l with
  | nil => simp [insertDelegation]
  | cons e es ih => grind [insertDelegation]

/-- The delegations of the elements are added to those that are there. -/
theorem decodeDelegations_eq_some {delegations result : List (UInt32 × Name)} {bs : List Block}
    (h : decodeDelegations delegations bs = some result) :
    ∃ added, bs.mapM decodeDelegation = some added ∧
      (∀ x, x ∈ result ↔ x ∈ delegations ∨ x ∈ added) ∧
      result.length ≤ delegations.length + bs.length := by
  induction bs generalizing delegations with
  | nil =>
    obtain rfl := some.inj h
    exact ⟨[], rfl, by simp, by simp⟩
  | cons b bs ih =>
    rw [decodeDelegations] at h
    rcases hd : decodeDelegation b with _ | d
    · simp [hd] at h
    simp only [hd] at h
    obtain ⟨added, hadded, hmem, hlength⟩ := ih h
    refine ⟨d :: added, by simp [hd, hadded], fun x => ?_, ?_⟩
    · rw [hmem, mem_insertDelegation, List.mem_cons]
      tauto
    · have hle := length_insertDelegation_le d delegations
      rw [List.length_cons]
      omega

/-! ### Places of delegations -/

/-- The index that is found is one of an element. -/
theorem findLoop_lt {name : Name} {counter n : ℕ} {elements : List Block}
    (h : findLoop name counter elements = some (some n)) : n < counter + elements.length := by
  induction elements generalizing counter with
  | nil => simp [findLoop] at h
  | cons delegation rest ih => grind [findLoop]

/-- The index that is found is smaller than the count. -/
theorem lt_count_of_find {link : Block} {name : Name} {n : ℕ}
    (h : findDelegationFromWire link name = some (some n)) :
    ∃ count, countDelegationsFromWire link = some count ∧ n < count := by
  obtain ⟨elements, helements, hfind⟩ := bind_eq_some_iff.mp h
  refine ⟨elements.length, by rw [countDelegationsFromWire, helements, map_some], ?_⟩
  simpa using findLoop_lt hfind

/-- There are no more delegations than octets. -/
theorem countDelegationsFromWire_le {link : Block} {count : ℕ} (hlink : link.Valid)
    (h : countDelegationsFromWire link = some count) : count ≤ link.wire.length := by
  obtain ⟨elements, helements, rfl⟩ := map_eq_some_iff.mp h
  obtain ⟨parts, hparts, h⟩ := bind_eq_some_iff.mp helements
  obtain ⟨content, hcontent, hparse⟩ := bind_eq_some_iff.mp h
  have hmem : content ∈ parts := List.mem_of_find?_eq_some hcontent
  have hvalid : content.Valid := (Block.valid_of_parse hparts).2 content hmem
  calc elements.length ≤ content.value.length := Block.length_le_of_parse hparse
    _ ≤ content.wire.length := hvalid.length_value_le
    _ ≤ link.value.length := Block.length_wire_le_of_parse hparts hmem
    _ ≤ link.wire.length := hlink.length_value_le

/-- A Link that is accepted has its delegations from the content. -/
theorem wireDecode_eq_some {wire : Block} {link link' : Link}
    (h : link.wireDecode wire = some link') :
    ∃ elements, contentElements wire = some elements ∧
      decodeDelegations link.delegations elements = some link'.delegations := by
  obtain ⟨data, hdata, h⟩ := bind_eq_some_iff.mp h
  obtain ⟨-, h⟩ := ite_none_left_eq_some.mp h
  obtain ⟨elements, helements, h⟩ := bind_eq_some_iff.mp h
  obtain ⟨delegations, hdelegations, h⟩ := bind_eq_some_iff.mp h
  obtain rfl := some.inj h
  obtain ⟨parts, hparts, hcontent⟩ := Data.content_of_wireDecode hdata
  exact ⟨elements, by simp [contentElements, hparts, hcontent, helements], hdelegations⟩

/-- A new Link has no more delegations than its wire. -/
theorem length_delegations_le {wire : Block} {link : Link}
    (h : ({} : Link).wireDecode wire = some link) :
    ∃ count, countDelegationsFromWire wire = some count ∧ link.delegations.length ≤ count := by
  obtain ⟨elements, helements, hdelegations⟩ := wireDecode_eq_some h
  obtain ⟨-, -, -, hlength⟩ := decodeDelegations_eq_some hdelegations
  simp_all [countDelegationsFromWire]

end Link

end IcnDemo.Codec
