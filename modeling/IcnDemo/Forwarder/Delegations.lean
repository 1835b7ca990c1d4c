import IcnDemo.Codec.Interest

/-!
# Delegations of Links

An Interest may carry a Link, and `onContentStoreMiss` then asks the FIB for a delegation of the
Link instead of the name.  The delegations are a set that `Link::decodeContent` fills from the
content: it does not clear the set, takes an empty content, and cuts preferences to 32 bits.  The
FIB is asked for the first delegation of the set whether there is one or not.

A selected delegation is read from the wire by the types of its elements, while the set is filled by
their places.
-/

namespace IcnDemo.Codec

open List Option

/-! ### What is in the wire -/

namespace Link

/-- The preference and the name of a delegation as they are in the wire. -/
def readPair (delegation : Block) : Option (UInt64 × Name) :=
  match Block.parse delegation.value with
  | some (preference :: name :: _) =>
    match preference.readNonNegativeInteger, nameOf name with
    | some n, some name => some (n, name)
    | _, _ => none
  | _ => none

/-- The pairs in the wire of a Link. -/
def pairs (wire : Block) : Option (List (UInt64 × Name)) :=
  (contentElements wire).bind fun elements => elements.mapM readPair

/-- `Link::getDelegationFromWire`, `none` when it throws. -/
def getDelegationFromWire (link : Block) (index : ℕ) : Option (UInt32 × Name) := do
  let delegations ← contentElements link
  let delegation ← delegations[index]?
  let elements ← Block.parse delegation.value
  if delegation.type ≠ Tlv.linkDelegation then none
  else do
    let preference ← (Block.find elements Tlv.linkPreference).bind Block.readNonNegativeInteger
    let name ← (Block.find elements Tlv.name).bind nameOf
    some (preference.toUInt32, name)

/-- A delegation with its preference as it is kept. -/
def cut (d : UInt64 × Name) : UInt32 × Name :=
  (d.1.toUInt32, d.2)

/-- A delegation is decoded to its pair, with the preference cut. -/
theorem decodeDelegation_eq (b : Block) : decodeDelegation b = (readPair b).map cut := by
  unfold decodeDelegation readPair
  rcases Block.parse b.value with _ | _ | ⟨preference, _ | ⟨name, rest⟩⟩
  · rfl
  · rfl
  · rfl
  · dsimp only
    rcases preference.readNonNegativeInteger with _ | n
    · rfl
    · rcases nameOf name with _ | name
      · rfl
      · rfl

/-- There are as many pairs as elements. -/
theorem length_of_mapM_readPair {bs : List Block} {ps : List (UInt64 × Name)}
    (h : bs.mapM readPair = some ps) : ps.length = bs.length := by
  induction bs generalizing ps with
  | nil =>
    obtain rfl := some.inj h
    rfl
  | cons b bs ih => grind [bind_eq_some_iff]

/-- The elements are decoded to their pairs, with the preferences cut. -/
theorem mapM_decodeDelegation (bs : List Block) :
    bs.mapM decodeDelegation = (bs.mapM readPair).map (map cut) := by
  induction bs with
  | nil => rfl
  | cons b bs ih =>
    rw [mapM_cons, mapM_cons, decodeDelegation_eq, ih]
    rcases readPair b with _ | d <;> grind

/-- The set has what was there and what is in the wire. -/
theorem mem_delegations_wireDecode {wire : Block} {link link' : Link}
    (h : link.wireDecode wire = some link') :
    ∃ ps, pairs wire = some ps ∧
      ∀ x, x ∈ link'.delegations ↔ x ∈ link.delegations ∨ x ∈ ps.map cut := by
  obtain ⟨elements, helements, hdelegations⟩ := wireDecode_eq_some h
  obtain ⟨added, hadded, hmem, -⟩ := decodeDelegations_eq_some hdelegations
  rw [mapM_decodeDelegation] at hadded
  obtain ⟨ps, hps, rfl⟩ := map_eq_some_iff.mp hadded
  exact ⟨ps, by simp [pairs, helements, hps], hmem⟩

/-! ### Exactly the pairs in the wire -/

/-- The set has a delegation with a preference and a name. -/
def Has (link : Link) (preference : ℕ) (name : Name) : Prop :=
  ∃ d ∈ link.delegations, d.1.toNat = preference ∧ d.2 = name

/-- The wire has a delegation with a preference and a name. -/
def InWire (ps : List (UInt64 × Name)) (preference : ℕ) (name : Name) : Prop :=
  ∃ d ∈ ps, d.1.toNat = preference ∧ d.2 = name

/-- The set is not empty, and has exactly the pairs in the wire. -/
def Exactly (link : Link) (ps : List (UInt64 × Name)) : Prop :=
  link.delegations ≠ [] ∧ ∀ preference name, link.Has preference name ↔ InWire ps preference name

/-- A preference of 32 bits is not cut. -/
theorem toNat_cut {d : UInt64 × Name} (h : d.1.toNat < 2 ^ 32) : (cut d).1.toNat = d.1.toNat := by
  rw [cut, UInt64.toNat_toUInt32, Nat.mod_eq_of_lt h]

/-- When the set has exactly the pairs in the wire. -/
theorem exactly_iff {link link' : Link} {ps : List (UInt64 × Name)}
    (hmem : ∀ x, x ∈ link'.delegations ↔ x ∈ link.delegations ∨ x ∈ ps.map cut) :
    link'.Exactly ps ↔ ps ≠ [] ∧ (∀ d ∈ ps, d.1.toNat < 2 ^ 32) ∧
        ∀ d ∈ link.delegations, InWire ps d.1.toNat d.2 := by
  constructor
  · rintro ⟨hne, hiff⟩
    refine ⟨?_, fun d hd => ?_, fun d hd => ?_⟩
    · rintro rfl
      obtain ⟨x, hx⟩ := exists_mem_of_ne_nil _ hne
      obtain ⟨d, hd, -⟩ := (hiff x.1.toNat x.2).mp ⟨x, hx, rfl, rfl⟩
      cases hd
    · obtain ⟨x, -, hx, -⟩ := (hiff d.1.toNat d.2).mpr ⟨d, hd, rfl, rfl⟩
      rw [← hx]
      exact x.1.toNat_lt
    · exact (hiff d.1.toNat d.2).mp ⟨d, (hmem d).mpr (.inl hd), rfl, rfl⟩
  rintro ⟨hne, hlt, hold⟩
  refine ⟨?_, fun preference name => ⟨?_, ?_⟩⟩
  · intro hnil
    obtain ⟨d, hd⟩ := List.exists_mem_of_ne_nil _ hne
    grind [List.mem_map_of_mem]
  · rintro ⟨x, hx, rfl, rfl⟩
    rcases (hmem x).mp hx with hx | hx
    · exact hold x hx
    · obtain ⟨d, hd, rfl⟩ := mem_map.mp hx
      exact ⟨d, hd, (toNat_cut (hlt d hd)).symm, rfl⟩
  · rintro ⟨d, hd, rfl, rfl⟩
    exact ⟨cut d, (hmem (cut d)).mpr (.inr (mem_map_of_mem hd)), toNat_cut (hlt d hd), rfl⟩

end Link

end IcnDemo.Codec

namespace IcnDemo.Forwarder

open Codec

/-! ### Questions to the FIB -/

/-- How the FIB is asked: for the PIT entry or for a delegation. -/
inductive FibQuery where
  | pitEntry
  | delegation (n : Name)
deriving DecidableEq, Repr

/-- What is read from the FIB entry: how long its prefix is, and whether it has next hops. -/
structure FibAnswer where
  prefixLength : ℕ
  hasNextHops : Bool

/-- How the questions end: the strategy is called, perhaps with a delegation selected in the
Interest; an exception; or the first delegation of an empty set is read. -/
inductive FibEnd where
  | dispatched (selected : Option ℕ)
  | exception
  | readEmptySet
deriving DecidableEq, Repr

/-- The questions in order, and how they end. -/
structure FibLookups where
  queries : List FibQuery
  ending : FibEnd
deriving DecidableEq, Repr

/-- `NetworkRegionTable::isInProducerRegion`. -/
def isInProducerRegion (regions : List Name) (link : Link) : Bool :=
  regions.any fun regionName => link.delegations.any fun d => Name.isPrefixOf d.2 regionName

variable (fib : Name → FibAnswer) (regions : List Name)

/-- The loop that chooses a delegation; `setSelectedDelegation` looks for it in the wire. -/
def selectDelegation (link : Block) : List (UInt32 × Name) → FibLookups
  | [] => ⟨[], .dispatched none⟩
  | d :: ds =>
    if (fib d.2).hasNextHops then
      match Link.findDelegationFromWire link d.2 with
      | some (some index) => ⟨[.delegation d.2], .dispatched (some index)⟩
      | _ => ⟨[.delegation d.2], .exception⟩
    else
      let rest := selectDelegation link ds
      ⟨.delegation d.2 :: rest.queries, rest.ending⟩

/-- The questions of `onContentStoreMiss` to the FIB, for an Interest with a Link. -/
def lookupLink (i : Codec.Interest) (wire : Block) (link : Link) : FibLookups :=
  if isInProducerRegion regions link then ⟨[.pitEntry], .dispatched i.selectedDelegation⟩
  else
    match i.selectedDelegation with
    | some index =>
      match Link.getDelegationFromWire wire index with
      | none => ⟨[], .exception⟩
      | some d => ⟨[.delegation d.2], .dispatched (some index)⟩
    | none =>
      match link.delegations with
      | [] => ⟨[], .readEmptySet⟩
      | d :: ds =>
        -- in the consumer region the default route is used
        if (fib d.2).prefixLength = 0 ∧ (fib d.2).hasNextHops = true then
          ⟨[.delegation d.2], .dispatched none⟩
        else
          let rest := selectDelegation fib wire (d :: ds)
          ⟨.delegation d.2 :: rest.queries, rest.ending⟩

/-- The questions of `onContentStoreMiss` to the FIB.  `getLink` decodes the Link into a new object.
-/
def lookupFib (i : Codec.Interest) : FibLookups :=
  match i.link with
  | none => ⟨[.pitEntry], .dispatched none⟩
  | some wire =>
    match ({} : Link).wireDecode wire with
    | none => ⟨[], .exception⟩
    | some link => lookupLink fib regions i wire link

/-- No empty set is read, and all delegations that the FIB is asked for are in the wire of the Link.
-/
def FibLookups.Safe (r : FibLookups) (ps : List (UInt64 × Name)) : Prop :=
  r.ending ≠ .readEmptySet ∧ ∀ n, .delegation n ∈ r.queries → n ∈ ps.map Prod.snd

variable {fib regions}

/-- The loop asks for delegations of the set. -/
theorem mem_queries_selectDelegation {link : Block} {ds : List (UInt32 × Name)} {q : FibQuery}
    (h : q ∈ (selectDelegation fib link ds).queries) : ∃ d ∈ ds, q = .delegation d.2 := by
  induction ds with
  | nil => cases h
  | cons d ds ih => grind [selectDelegation]

/-- The loop does not read an empty set. -/
theorem ending_selectDelegation (link : Block) (ds : List (UInt32 × Name)) :
    (selectDelegation fib link ds).ending ≠ .readEmptySet := by
  induction ds with
  | nil => exact fun h => by cases h
  | cons d ds ih => grind [selectDelegation]

section Link

variable {i : Codec.Interest} {wire : Block} {link : Link} {ps : List (UInt64 × Name)}
  (hmem : ∀ x, x ∈ link.delegations ↔ x ∈ ps.map Link.cut)

include hmem

/-- The names of the set are in the wire. -/
theorem snd_mem_of_mem {d : UInt32 × Name} (hd : d ∈ link.delegations) : d.2 ∈ ps.map Prod.snd := by
  obtain ⟨e, he, rfl⟩ := List.mem_map.mp ((hmem d).mp hd)
  exact List.mem_map_of_mem he

/-- A set with a delegation comes from a wire with one. -/
theorem ne_nil_of_mem {d : UInt32 × Name} (hd : d ∈ link.delegations) : ps ≠ [] := by
  rintro rfl
  cases (hmem d).mp hd

/-- What the FIB is asked is safe exactly if the Link has a delegation, and the selected one is read
from the wire as it is in the set. -/
theorem lookupLink_safe_iff (hselected : ∀ index ∈ i.selectedDelegation, index < ps.length) :
    (lookupLink fib regions i wire link).Safe ps ↔
      ps ≠ [] ∧ ∀ index d, i.selectedDelegation = some index →
        isInProducerRegion regions link = false →
        Link.getDelegationFromWire wire index = some d → d.2 ∈ ps.map Prod.snd := by
  unfold lookupLink
  by_cases hregion : isInProducerRegion regions link = true
  · rw [if_pos hregion]
    obtain ⟨regionName, -, hany⟩ := List.any_eq_true.mp hregion
    obtain ⟨d, hd, -⟩ := List.any_eq_true.mp hany
    refine iff_of_true ⟨nofun, fun n hn => ?_⟩ ⟨ne_nil_of_mem hmem hd, ?_⟩
    · cases List.mem_singleton.mp hn
    · intro index d _ hfalse
      rw [hregion] at hfalse
      cases hfalse
  rw [if_neg hregion]
  rcases hindex : i.selectedDelegation with _ | index
  · -- the first delegation of the set
    rcases hset : link.delegations with _ | ⟨d, ds⟩
    · refine iff_of_false (fun h => h.1 rfl) fun h => ?_
      obtain ⟨e, he⟩ := List.exists_mem_of_ne_nil _ h.1
      grind [List.mem_map_of_mem]
    have hsnd : ∀ e ∈ d :: ds, e.2 ∈ ps.map Prod.snd := fun e he =>
      snd_mem_of_mem hmem (hset ▸ he)
    refine iff_of_true ?_ ⟨ne_nil_of_mem hmem (hset ▸ List.mem_cons_self), nofun⟩
    dsimp only
    split
    · refine ⟨nofun, fun n hn => ?_⟩
      grind
    · refine ⟨ending_selectDelegation wire _, fun n hn => ?_⟩
      grind [mem_queries_selectDelegation]
  -- the selected delegation
  have hne : ps ≠ [] := by
    rintro rfl
    exact absurd (hselected index hindex) (Nat.not_lt_zero _)
  dsimp only
  rcases hget : Link.getDelegationFromWire wire index with _ | d
  · refine iff_of_true ⟨nofun, fun n hn => by cases hn⟩ ⟨hne, fun index' d h _ hd => ?_⟩
    obtain rfl := Option.some.inj h
    rw [hget] at hd
    cases hd
  constructor
  · rintro ⟨-, hqueries⟩
    grind
  · rintro ⟨-, hread⟩
    refine ⟨nofun, fun n hn => ?_⟩
    grind

end Link

open Link

/-- An accepted Interest selects one of the delegations. -/
theorem lt_count_of_wireDecode {interestWire wire : Block} {i : Codec.Interest}
    (h : Codec.Interest.wireDecode interestWire = some i) (hwire : i.link = some wire) :
    ∀ index ∈ i.selectedDelegation, ∃ count,
      countDelegationsFromWire wire = some count ∧ index < count := by
  obtain ⟨elements, -, h⟩ := Option.bind_eq_some_iff.mp h
  obtain ⟨-, h⟩ := Option.ite_none_left_eq_some.mp h
  obtain ⟨name, -, h⟩ := Option.bind_eq_some_iff.mp h
  obtain ⟨selectors, -, h⟩ := Option.bind_eq_some_iff.mp h
  obtain ⟨nonce, -, h⟩ := Option.bind_eq_some_iff.mp h
  obtain ⟨lifetime, -, h⟩ := Option.bind_eq_some_iff.mp h
  obtain ⟨selected, hselected, h⟩ := Option.bind_eq_some_iff.mp h
  obtain rfl := Option.some.inj h
  dsimp only at hwire ⊢
  rw [hwire] at hselected
  intro index hindex
  rw [Option.mem_def] at hindex
  subst hindex
  unfold Codec.Interest.readDelegation at hselected
  split at hselected
  · cases hselected
  grind

/-- A decoded Link has exactly the delegations in its wire if and only if there are some, their
preferences have 32 bits, and the object had no others before. -/
theorem delegations_exactly_iff {wire : Block} {link link' : Link}
    (h : link.wireDecode wire = some link') :
    ∃ ps, pairs wire = some ps ∧ (link'.Exactly ps ↔
      ps ≠ [] ∧ (∀ d ∈ ps, d.1.toNat < 2 ^ 32) ∧
        ∀ d ∈ link.delegations, Link.InWire ps d.1.toNat d.2) := by
  obtain ⟨ps, hps, hmem⟩ := mem_delegations_wireDecode h
  exact ⟨ps, hps, exactly_iff hmem⟩

/-- For an Interest with a Link that is accepted, what the FIB is asked is safe if and only if the
Link has delegations, and the name of the selected one is where the set takes it from. -/
theorem lookupFib_safe_iff {interestWire linkWire : Block} {i : Codec.Interest}
    (hi : Codec.Interest.wireDecode interestWire = some i) (hlink : i.link = some linkWire)
    (fib : Name → FibAnswer) (regions : List Name) :
    ({} : Link).wireDecode linkWire = none ∧ lookupFib fib regions i = ⟨[], .exception⟩ ∨
      ∃ l ps, ({} : Link).wireDecode linkWire = some l ∧ pairs linkWire = some ps ∧
        ((lookupFib fib regions i).Safe ps ↔
          ps ≠ [] ∧ ∀ index d, i.selectedDelegation = some index →
            isInProducerRegion regions l = false →
            getDelegationFromWire linkWire index = some d → d.2 ∈ ps.map Prod.snd) := by
  rcases haccepted : ({} : Link).wireDecode linkWire with _ | l
  · exact .inl ⟨rfl, by simp only [lookupFib, hlink, haccepted]⟩
  obtain ⟨ps, hps, hmem⟩ := mem_delegations_wireDecode haccepted
  have hlookup : lookupFib fib regions i = lookupLink fib regions i linkWire l := by
    simp only [lookupFib, hlink, haccepted]
  rw [hlookup]
  refine .inr ⟨l, ps, rfl, hps, lookupLink_safe_iff (fun x => ?_) fun index hindex => ?_⟩
  · rw [hmem]
    exact or_iff_right List.not_mem_nil
  obtain ⟨count, hcount, hlt⟩ := lt_count_of_wireDecode hi hlink index hindex
  obtain ⟨elements, helements, hmap⟩ := Option.bind_eq_some_iff.mp hps
  grind [countDelegationsFromWire, length_of_mapM_readPair]

/-- When a decoded Link has exactly the delegations in its wire, and when it is safe to ask the FIB
for an Interest with a Link. -/
theorem delegations_exact_and_safe_iff {wire : Block} {link link' : Link}
    (hdecode : link.wireDecode wire = some link') {interestWire linkWire : Block}
    {i : Codec.Interest} (hi : Codec.Interest.wireDecode interestWire = some i)
    (hlink : i.link = some linkWire) (fib : Name → FibAnswer) (regions : List Name) :
    (∃ ps, pairs wire = some ps ∧ (link'.Exactly ps ↔
          ps ≠ [] ∧ (∀ d ∈ ps, d.1.toNat < 2 ^ 32) ∧
            ∀ d ∈ link.delegations, Link.InWire ps d.1.toNat d.2)) ∧
      (({} : Link).wireDecode linkWire = none ∧ lookupFib fib regions i = ⟨[], .exception⟩ ∨
        ∃ l ps, ({} : Link).wireDecode linkWire = some l ∧ pairs linkWire = some ps ∧
          ((lookupFib fib regions i).Safe ps ↔
            ps ≠ [] ∧ ∀ index d, i.selectedDelegation = some index →
              isInProducerRegion regions l = false →
              getDelegationFromWire linkWire index = some d → d.2 ∈ ps.map Prod.snd)) :=
  ⟨delegations_exactly_iff hdecode, lookupFib_safe_iff hi hlink fib regions⟩

/-- A Link with the name `/L` and some content. -/
def linkTo (content : List UInt8) : Block :=
  Block.make Tlv.data ([7, 3, 8, 1, 0x4c] ++ [20, 3, 24, 1, 1] ++
    (Block.make Tlv.content content).wire ++ [22, 3, 27, 1, 0] ++ [23, 0])

/-- An Interest for `/A` with a Link. -/
def interestWith (link : Block) : Block :=
  Block.make Tlv.interest ([7, 3, 8, 1, 0x41] ++ [10, 4, 1, 0, 0, 0] ++ link.wire)

/-- A delegation to `/B` with preference 10. -/
def toB : List UInt8 :=
  [31, 8, 30, 1, 10, 7, 3, 8, 1, 0x42]

/-- A Link with one delegation, in an Interest. -/
theorem delegations_exact_and_safe_iff_toB :
    ∃ l i ps, ({} : Link).wireDecode (linkTo toB) = some l ∧
      Codec.Interest.wireDecode (interestWith (linkTo toB)) = some i ∧
      pairs (linkTo toB) = some ps ∧ l.Exactly ps ∧
      (lookupFib (fun _ => ⟨0, false⟩) [] i).Safe ps := by
  have hdecoded : ∃ l ∈ ({} : Link).wireDecode (linkTo toB),
      ∃ i ∈ Codec.Interest.wireDecode (interestWith (linkTo toB)),
        i.link = some (linkTo toB) ∧ i.selectedDelegation = none ∧
        pairs (linkTo toB) = some [(10, [.generic [0x42]])] := by decide +kernel
  obtain ⟨l, hl, i, hi, hlink, hselected, hpairs⟩ := hdecoded
  obtain ⟨⟨ps, hps, hexact⟩, hsafe⟩ := delegations_exact_and_safe_iff hl hi hlink
    (fun _ => ⟨0, false⟩) []
  obtain rfl := Option.some.inj (hpairs.symm.trans hps)
  refine ⟨l, i, _, hl, hi, hps, hexact.mpr ⟨by simp, by decide, nofun⟩, ?_⟩
  simp_all

/-- A Link without delegations is accepted, an object keeps what it had, and the forwarder reads the
first delegation of the empty set. -/
theorem first_of_empty_delegations :
    (({} : Link).wireDecode (linkTo [])).map delegations = some [] ∧
    (({ delegations := [(1, [])] } : Link).wireDecode (linkTo toB)).map delegations
      = some [(1, []), (10, [.generic [0x42]])] ∧
    (Codec.Interest.wireDecode (interestWith (linkTo []))).map (lookupFib (fun _ => ⟨0, false⟩) [])
      = some ⟨[], .readEmptySet⟩ := by
  decide +kernel

end IcnDemo.Forwarder
