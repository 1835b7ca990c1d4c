import IcnDemo.Packet

/-!
# Matching a Data by its full name

`Interest::matchesData` decides without the digest where it can.  Apart from the key locator it
gives the same answer as `Interest::matchesName` on the full name, except that it looks at the type
of the last component of an Interest that is as long as the full name: names are compared by the
values of their components, so `matchesName` takes a component of another type with the same octets
for the digest.
-/

namespace IcnDemo.Interest

/-- `Interest::matchesName`. -/
def matchesName (i : Interest) (name : Name) : Bool :=
  if name.length < i.name.length then false
  else if !Name.isPrefixOf i.name name then false
  else if 0 ≤ i.selectors.minSuffixComponents ∧
      ¬ i.selectors.minSuffixComponents.toNat ≤ name.length - i.name.length then false
  else if 0 ≤ i.selectors.maxSuffixComponents ∧
      ¬ name.length - i.name.length ≤ i.selectors.maxSuffixComponents.toNat then false
  else
    match name[i.name.length]? with
    | none => true
    | some c => i.selectors.exclude.isEmpty || !i.selectors.exclude.isExcluded c

/-- The key locator of the Data is the one that the Interest asks for, if it asks for one. -/
def HasLocator (i : Interest) (d : Data) : Prop :=
  i.selectors.publisherPublicKeyLocator.isEmpty = false →
    d.keyLocator = some i.selectors.publisherPublicKeyLocator.wire

instance (i : Interest) (d : Data) : Decidable (HasLocator i d) :=
  inferInstanceAs (Decidable (_ → _))

/-- The Interest names the full name of the Data by value, with a last component that is not a
digest. -/
def NamesUntypedDigest (i : Interest) (d : Data) : Prop :=
  Name.SameValues i.name d.fullName ∧ ∀ c ∈ i.name.getLast?, c.isImplicitSha256Digest = false

instance (i : Interest) (d : Data) : Decidable (NamesUntypedDigest i d) :=
  inferInstanceAs (Decidable (_ ∧ _))

/-- The numbers of components admit a name of this length. -/
def Admits (i : Interest) (length : ℕ) : Prop :=
  i.name.length + i.selectors.minSuffixComponents.toNat ≤ length ∧
    (0 ≤ i.selectors.maxSuffixComponents →
      length ≤ i.name.length + i.selectors.maxSuffixComponents.toNat)

/-- The component behind the name of the Interest is not excluded. -/
def Passes (i : Interest) (name : Name) : Prop :=
  i.selectors.exclude.isEmpty = false →
    ∀ c, name[i.name.length]? = some c → i.selectors.exclude.isExcluded c = false

variable {i : Interest} {d : Data}

/-- The test of the key locator. -/
theorem matchesKeyLocator_iff : i.matchesKeyLocator d = true ↔ i.HasLocator d := by
  unfold matchesKeyLocator HasLocator
  grind

/-- `matchesName` tests prefix, length and filter. -/
theorem matchesName_iff {name : Name} : i.matchesName name = true ↔
      Name.isPrefixOf i.name name = true ∧ i.Admits name.length ∧ i.Passes name := by
  unfold matchesName
  by_cases hlength : name.length < i.name.length
  · grind [Name.isPrefixOf]
  by_cases hinitial : Name.isPrefixOf i.name name = true
  · rw [if_neg hlength, if_neg (by simp [hinitial])]
    have hpasses : (match name[i.name.length]? with
        | none => true
        | some c => i.selectors.exclude.isEmpty || !i.selectors.exclude.isExcluded c) = true ↔
          i.Passes name := by grind [Passes]
    by_cases hadmits : i.Admits name.length
    · obtain ⟨hmin, hmax⟩ := id hadmits
      grind
    have hno : (0 ≤ i.selectors.minSuffixComponents ∧
          ¬ i.selectors.minSuffixComponents.toNat ≤ name.length - i.name.length) ∨
        (0 ≤ i.selectors.maxSuffixComponents ∧
          ¬ name.length - i.name.length ≤ i.selectors.maxSuffixComponents.toNat) := by
      unfold Admits at hadmits
      omega
    grind
  · simp [hlength, hinitial]

/-- `matchesData` tests the component of the full name. -/
theorem isExcludedBy_iff (hlength : i.name.length ≤ d.name.length + 1) :
    i.isExcludedBy d = false ↔ i.Passes d.fullName := by
  unfold isExcludedBy Passes
  by_cases hempty : i.selectors.exclude.isEmpty = true
  · simp [hempty]
  rcases hlength.lt_or_eq with hlt | heq
  · -- the component is that of the full name in both cases
    have hnext : (if i.name.length = d.name.length then d.fullName else d.name)[i.name.length]?
        = d.fullName[i.name.length]? := by grind [Data.fullName]
    grind
  · grind [Data.fullName]

/-- `matchesData` tests prefix, length, filter and key locator. -/
theorem matchesData_iff :
    i.matchesData d = true ↔ i.matchesPrefix d = true ∧ i.Admits (d.name.length + 1) ∧
      i.Passes d.fullName ∧ i.HasLocator d := by
  unfold matchesData
  simp only
  by_cases hadmits : i.Admits (d.name.length + 1)
  · obtain ⟨hmin, hmax⟩ := id hadmits
    grind [isExcludedBy_iff, matchesKeyLocator_iff]
  · grind [Admits]

/-- Only an Interest that is as long as the full name is told apart by the type of its last
component. -/
theorem matchesPrefix_iff (hlength : i.name.length ≤ d.name.length + 1) : i.matchesPrefix d = true ↔
      Name.isPrefixOf i.name d.fullName = true ∧ ¬ i.NamesUntypedDigest d := by
  unfold matchesPrefix NamesUntypedDigest Name.SameValues
  rw [Name.isPrefixOf_iff]
  by_cases heq : i.name.length = d.name.length + 1
  · have hvalues : Name.values i.name <+: Name.values d.fullName ↔
        Name.values i.name = Name.values d.fullName := by
      constructor
      · intro h
        exact h.eq_of_length (by simp [Data.fullName, heq])
      · intro h
        rw [h]
    grind [Name.equals_iff]
  · have hne : Name.values i.name ≠ Name.values d.fullName := by
      intro h
      have := congrArg List.length h
      simp [Data.fullName] at this
      exact heq this
    grind [Name.values, Data.fullName, Name.isPrefixOf_iff, List.prefix_of_prefix_length_le]

/-- `matchesData` and `matchesName` on the full name agree, up to the key locator, on all Interests
but those that name the Data with an untyped digest. -/
theorem matchesData_iff_matchesName_iff (i : Interest) (d : Data) :
    (i.matchesData d = true ↔ i.matchesName d.fullName = true ∧ i.HasLocator d) ↔
      ¬ (i.NamesUntypedDigest d ∧ i.selectors.minSuffixComponents ≤ 0 ∧ i.HasLocator d) := by
  have hlengthFull : d.fullName.length = d.name.length + 1 := by simp [Data.fullName]
  rw [matchesData_iff, matchesName_iff, hlengthFull]
  by_cases hlength : i.name.length ≤ d.name.length + 1
  · rw [matchesPrefix_iff hlength]
    by_cases huntyped : i.NamesUntypedDigest d
    · -- then the name is a prefix, nothing follows it, and only the minimum may exclude it
      have hinitial : Name.isPrefixOf i.name d.fullName = true := by
        rw [Name.isPrefixOf_iff, huntyped.1]
      have heq : i.name.length = d.name.length + 1 := by
        simpa [Data.fullName] using congrArg List.length huntyped.1
      have hpasses : i.Passes d.fullName := by
        intro _ c hc
        simp [heq, ← hlengthFull] at hc
      grind [Admits]
    · simp only [huntyped]
      tauto
  · -- the Interest is longer than the full name
    have hadmits : ¬ i.Admits (d.name.length + 1) := by
      unfold Admits
      omega
    have huntyped : ¬ i.NamesUntypedDigest d := by
      intro h
      have heq : i.name.length = d.name.length + 1 := by
        simpa [Data.fullName] using congrArg List.length h.1
      omega
    simp [hadmits, huntyped]

/-- A generic component with the octets of the digest. -/
theorem matchesName_of_untypedDigest :
    ∃ (i : Interest) (d : Data), (d.name.all fun c => !c.isImplicitSha256Digest) = true ∧
      i.selectors.publisherPublicKeyLocator.isEmpty = true ∧
      i.matchesName d.fullName = true ∧ i.matchesData d = false := by
  refine ⟨⟨[.generic [65], .generic (List.replicate 32 7)], .none, [1, 2, 3, 4], -1⟩,
    ⟨Name.encoded [.generic [65]], List.replicate 32 7, rfl, -1, none, false⟩, ?_⟩
  decide +kernel

end IcnDemo.Interest
