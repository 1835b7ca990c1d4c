import IcnDemo.Codec.Name
import IcnDemo.Exclude

/-!
# The wire format of exclude filters

The terms are written in ascending order, each one followed by an `Any` if it has the flag.  The
empty component with the flag is written as the `Any` alone.  This is read back if it is the first
one; but a digest can come before it, and then the `Any` belongs to the digest.
-/

namespace IcnDemo.Exclude

open Component Block List Option DescendingMap Prepend

/-- `appendExclude`: the flag of a component is set, also if the component is there already. -/
def appendExclude (c : Component) (any : Bool) (x : Exclude) : Exclude :=
  ⟨assign c any (insert c any x.terms), (Descending.insert x.descending c any).assign c any⟩

/-- The body of the loop of `Exclude::wireEncode`. -/
def writeTerm (p : Component × Bool) : Prepend :=
  (onlyIf (p.2 = true) (emptyBlock Tlv.any)).andThen
    (onlyIf (p.1.empty = false ∨ p.2 = false) p.1.wireEncode)

/-- `Exclude::wireEncode`, `none` when it throws. -/
def wireEncode (x : Exclude) : Option Prepend :=
  if x.isEmpty then .none else some (element Tlv.exclude (inOrder writeTerm x.terms))

/-- The loop of `Exclude::wireDecode`. -/
def decodeTerms : Exclude → List Block → Option Exclude
  | x, [] => some x
  | x, [e] => (ofBlock e).map fun c => x.appendExclude c false
  | x, e :: a :: rest =>
    match ofBlock e with
    | .none => .none
    | some c =>
      if a.type = Tlv.any then decodeTerms (x.appendExclude c true) rest
      else decodeTerms (x.appendExclude c false) (a :: rest)

/-- `Exclude::wireDecode`, `none` when it throws. -/
def wireDecode (b : Block) : Option Exclude :=
  if b.type ≠ Tlv.exclude then .none
  else
    match Block.parse b.value with
    | .none => .none
    | some [] => .none
    | some (e :: rest) =>
      if e.type = Tlv.any then decodeTerms (none.appendExclude (.generic []) true) rest
      else decodeTerms none (e :: rest)

/-! ### What is written -/

/-- The elements of a term. -/
def termElements (p : Component × Bool) : List Block :=
  (if p.1.empty = false ∨ p.2 = false then some p.1.block else .none).toList ++
    (if p.2 = true then some (Block.make Tlv.any []) else .none).toList

/-- The elements of the value, in their order. -/
def elements (x : Exclude) : List Block :=
  x.terms.reverse.flatMap termElements

/-- The element that is written. -/
def block (x : Exclude) : Block :=
  Block.make Tlv.exclude (x.elements.flatMap Block.wire)

/-- The terms are components. -/
def WellFormed (x : Exclude) : Prop :=
  ∀ p ∈ x.terms, p.1.WellFormed

instance (x : Exclude) : Decidable x.WellFormed :=
  inferInstanceAs (Decidable (∀ p ∈ x.terms, p.1.WellFormed))

/-- An `Any` alone stands for the term. -/
def IsAny (p : Component × Bool) : Prop :=
  p.1.empty = true ∧ p.2 = true

instance (p : Component × Bool) : Decidable (IsAny p) :=
  inferInstanceAs (Decidable (_ ∧ _))

/-- Only the least term can be written as an `Any` alone. -/
def Canonical (x : Exclude) : Prop :=
  ∀ p ∈ x.terms.dropLast, ¬ IsAny p

instance (x : Exclude) : Decidable x.Canonical :=
  inferInstanceAs (Decidable (∀ p ∈ x.terms.dropLast, ¬ IsAny p))

variable {x y : Exclude}

/-- A filter is its terms. -/
theorem eq_of_terms (h : x.terms = y.terms) : x = y := by
  cases x
  cases y
  cases h
  rfl

variable {p : Component × Bool}

/-- A term that is not ANY alone begins with its component. -/
theorem termElements_of_not_isAny (h : ¬ IsAny p) : termElements p = p.1.block ::
      (if p.2 = true then some (make Tlv.any []) else .none).toList := by
  have hwritten : p.1.empty = false ∨ p.2 = false := by
    by_contra hnot
    obtain ⟨hempty, hflag⟩ := not_or.mp hnot
    exact h ⟨by simpa using hempty, by simpa using hflag⟩
  rw [termElements, if_pos hwritten]
  rfl

/-- The empty component with the flag is written as ANY alone. -/
theorem termElements_of_isAny (h : IsAny p) : termElements p = [make Tlv.any []] := by
  simp [termElements, h.1, h.2]

/-- Only the empty generic component with the flag is written as ANY alone. -/
theorem isAny_iff (hp : p.1.WellFormed) : IsAny p ↔ p = (.generic [], true) := by
  obtain ⟨c, any⟩ := p
  constructor
  · rintro ⟨hempty, rfl⟩
    have hvalue : c.value = [] := by simpa [Component.empty] using hempty
    rcases hp with hgeneric | hdigest
    · have htype : c.type = Tlv.nameComponent := by simpa [isGeneric] using hgeneric
      rw [generic, ← htype, ← hvalue]
    · simp [isImplicitSha256Digest, hvalue] at hdigest
  · intro h
    obtain ⟨rfl, rfl⟩ := Prod.mk.inj h
    exact ⟨rfl, rfl⟩

/-- Other components are written. -/
theorem not_isAny_of_ne (hp : p.1.WellFormed) (hne : p.1 ≠ .generic []) : ¬ IsAny p :=
  fun hany => hne (congrArg Prod.fst ((isAny_iff hp).mp hany))

/-- The elements of a term are valid. -/
theorem valid_of_mem_termElements (hp : p.1.WellFormed) {b : Block}
    (hb : b ∈ termElements p) (hfits : b.Fits) : b.Valid := by
  simp only [termElements, mem_append, mem_toList, ite_none_right_eq_some,
    some.injEq] at hb
  rcases hb with ⟨-, rfl⟩ | ⟨-, rfl⟩
  · exact valid_block hp.typed hfits
  · exact valid_make (by decide) hfits.value

/-- An element of a filter is one of a term. -/
theorem mem_elements {b : Block} (hb : b ∈ x.elements) : ∃ p ∈ x.terms, b ∈ termElements p := by
  obtain ⟨p, hp, hb⟩ := mem_flatMap.mp hb
  exact ⟨p, mem_reverse.mp hp, hb⟩

/-- A filter that is not empty can be written. -/
theorem exists_wireEncode (hx : x.WellFormed) (hne : x.isEmpty = false) (hfits : x.block.Fits) :
    ∃ f, x.wireEncode = some f ∧ f.Writes x.block.wire := by
  refine ⟨_, by rw [wireEncode, if_neg (by simp [hne])], ?_⟩
  have hterms : (inOrder writeTerm x.terms).WritesAll (x.terms.reverse.flatMap termElements) := by
    refine writesAll_inOrder fun p hp => ?_
    refine (Writes.onlyIf fun _ => writes_emptyBlock (by decide)).andThen
      (Writes.onlyIf fun hw => ?_)
    refine writes_wireEncode (hx p hp).typed (hfits.element ?_)
    refine mem_flatMap.mpr ⟨p, mem_reverse.mpr hp, ?_⟩
    simp [termElements, hw]
  exact hterms.element (by decide) hfits

/-- The element of a filter is valid. -/
theorem valid_block (hfits : x.block.Fits) : x.block.Valid :=
  valid_make (by decide) hfits.value

/-- The element of a filter holds the elements of its terms. -/
theorem parse_block (hx : x.WellFormed) (hfits : x.block.Fits) :
    parse x.block.value = some x.elements := by
  refine parse_flatMap fun b hb => ?_
  obtain ⟨p, hp, hb'⟩ := mem_elements hb
  exact valid_of_mem_termElements (hx p hp) hb' (hfits.element hb)

/-! ### What is read -/

/-- One term is read back. -/
theorem decodeTerms_term {es : List Block} (x : Exclude)
    (hp : p.1.WellFormed) (hany : ¬ IsAny p) (hes : ∀ e ∈ es.head?, e.type ≠ Tlv.any) :
    decodeTerms x (termElements p ++ es) = decodeTerms (x.appendExclude p.1 p.2) es := by
  obtain ⟨c, any⟩ := p
  rw [termElements_of_not_isAny hany]
  rcases any with _ | _
  · rcases es with _ | ⟨e, es⟩
    all_goals grind [decodeTerms, ofBlock_block]
  · simp [decodeTerms, ofBlock_block hp, make]

/-- Terms in ascending order are read back one after the other. -/
theorem decodeTerms_flatMap (ts : List (Component × Bool)) (es : List Block)
    (hts : ∀ p ∈ ts, p.1.WellFormed ∧ ¬ IsAny p) (hes : ∀ e ∈ es.head?, e.type ≠ Tlv.any)
    (x : Exclude) (hdesc : Descending (ts.reverse ++ x.terms)) :
    ∃ y : Exclude, y.terms = ts.reverse ++ x.terms ∧
      decodeTerms x (ts.flatMap termElements ++ es) = decodeTerms y es := by
  induction ts generalizing x with
  | nil => exact ⟨x, rfl, rfl⟩
  | cons p ts ih =>
    obtain ⟨hp, hany⟩ := hts p mem_cons_self
    rw [reverse_cons, append_assoc, singleton_append] at hdesc
    -- the component is above all that are there
    have habove : (x.appendExclude p.1 p.2).terms = p :: x.terms :=
      assign_insert_of_forall_lt (pairwise_cons.mp (pairwise_append.mp hdesc).2.1).1
    obtain ⟨y, hy, hdecode⟩ := ih (fun q hq => hts q (mem_cons_of_mem _ hq))
      (x.appendExclude p.1 p.2) (by rw [habove]; exact hdesc)
    refine ⟨y, by rw [hy, habove, reverse_cons, append_assoc]; rfl, ?_⟩
    have hnext : ∀ e ∈ (ts.flatMap termElements ++ es).head?, e.type ≠ Tlv.any := by
      rcases ts with _ | ⟨q, ts⟩
      · exact hes
      grind [termElements_of_not_isAny, type_block_ne_any]
    rw [flatMap_cons, append_assoc, decodeTerms_term x hp hany hnext, hdecode]

/-- ANY behind the first place, and not behind a component, throws. -/
theorem decodeTerms_any (x : Exclude) (es : List Block) :
    decodeTerms x (make Tlv.any [] :: es) = .none := by
  have hany : ofBlock (make Tlv.any []) = .none := by decide
  rcases es with _ | ⟨e, es⟩
  · simp [decodeTerms, hany]
  · simp [decodeTerms, hany]

/-- A canonical filter is read back as it is. -/
theorem wireDecode_of_canonical (hx : x.WellFormed) (hcanonical : x.Canonical)
    (hne : x.isEmpty = false) (hfits : x.block.Fits) : wireDecode x.block = some x := by
  have hnonempty : x.terms ≠ [] := by simpa [isEmpty] using hne
  obtain ⟨init, last, hterms⟩ := (eq_nil_or_concat' x.terms).resolve_left hnonempty
  have hinit : ∀ p ∈ init.reverse, p.1.WellFormed ∧ ¬ IsAny p := by
    intro p hp
    have hp' := mem_reverse.mp hp
    refine ⟨hx p (by rw [hterms]; exact mem_append_left _ hp'), hcanonical p ?_⟩
    rwa [hterms, dropLast_concat]
  have hlast : last.1.WellFormed := hx last (by rw [hterms]; simp)
  have hdesc : Descending (init ++ [last]) := hterms ▸ x.descending
  have helements : x.elements = termElements last ++ init.reverse.flatMap termElements := by
    grind [elements]
  unfold wireDecode
  rw [if_neg (by simp [block, make]), parse_block hx hfits, helements]
  by_cases hany : IsAny last
  · -- the leading `Any` stands for the empty component
    obtain rfl := (isAny_iff hlast).mp hany
    obtain ⟨y, hy, hdecode⟩ := decodeTerms_flatMap _ [] hinit (by simp)
      (none.appendExclude (.generic []) true) (by rw [reverse_reverse]; exact hdesc)
    rw [termElements_of_isAny hany, singleton_append]
    simp only [make, if_true]
    rw [append_nil] at hdecode
    rw [hdecode, decodeTerms]
    refine congrArg some (eq_of_terms ?_)
    rw [hy, hterms, reverse_reverse]
    rfl
  obtain ⟨y, hy, hdecode⟩ := decodeTerms_flatMap (last :: init.reverse) [] (by
      intro p hp
      rcases mem_cons.mp hp with rfl | hp
      · exact ⟨hlast, hany⟩
      · exact hinit p hp)
    (by simp) none (by simpa [none] using hdesc)
  rw [append_nil, flatMap_cons, termElements_of_not_isAny hany, cons_append] at hdecode
  rw [termElements_of_not_isAny hany, cons_append]
  simp only [type_block_ne_any hlast, if_false]
  rw [hdecode, decodeTerms]
  refine congrArg some (eq_of_terms ?_)
  rw [hy, hterms]
  simp [none]

/-- A filter that is not canonical has a term below the empty component. -/
theorem exists_of_not_canonical (hx : x.WellFormed) (h : ¬ x.Canonical) :
    ∃ above c any below, x.terms = above ++ (.generic [], true) :: (c, any) :: below := by
  simp only [Canonical, not_forall, not_not] at h
  obtain ⟨p, hp, hany⟩ := h
  have hp' : p ∈ x.terms := dropLast_subset _ hp
  obtain rfl := (isAny_iff (hx p hp')).mp hany
  obtain ⟨above, between, hsplit⟩ := append_of_mem hp
  have hne : x.terms ≠ [] := ne_nil_of_mem hp'
  have hterms := dropLast_append_getLast hne
  rw [hsplit, append_assoc, cons_append] at hterms
  rcases between with _ | ⟨q, between⟩
  · exact ⟨above, _, _, [], hterms.symm⟩
  · exact ⟨above, q.1, q.2, _, hterms.symm⟩

section NotCanonical

variable {above below : List (Component × Bool)} {c : Component} {any : Bool} (hx : x.WellFormed)
  (hterms : x.terms = above ++ (.generic [], true) :: (c, any) :: below)

include hx hterms

/-- The other terms are on the right sides of the empty component. -/
theorem others : (∀ p ∈ above, p.1.WellFormed ∧ .generic [] < p.1) ∧
    (c.WellFormed ∧ c < .generic []) ∧ ∀ p ∈ below, p.1.WellFormed ∧ p.1 < .generic [] := by
  have hdesc : Descending (above ++ (.generic [], true) :: (c, any) :: below) :=
    hterms ▸ x.descending
  obtain ⟨-, htail, habove⟩ := pairwise_append.mp hdesc
  obtain ⟨hbelow, -⟩ := pairwise_cons.mp htail
  have hmem : ∀ p ∈ above ++ (.generic [], true) :: (c, any) :: below, p.1.WellFormed :=
    hterms ▸ hx
  refine ⟨fun p hp => ⟨hmem p (by simp [hp]), habove p hp _ mem_cons_self⟩,
    ⟨hmem (c, any) (by simp), hbelow (c, any) mem_cons_self⟩, fun p hp => ?_⟩
  exact ⟨hmem p (by simp [hp]), hbelow p (mem_cons_of_mem _ hp)⟩

/-- A filter that is written in the same way, with one term less. -/
theorem exists_merged (hany : any = false) :
    ∃ y : Exclude, y.terms = above ++ (c, true) :: below ∧ y.WellFormed ∧ y.Canonical ∧
      y.elements = x.elements := by
  subst hany
  obtain ⟨habove, ⟨hc, hclt⟩, hbelow⟩ := others hx hterms
  have hdesc : Descending (above ++ (.generic [], true) :: (c, false) :: below) :=
    hterms ▸ x.descending
  have hsub : (above ++ (c, false) :: below).Sublist
      (above ++ (.generic [], true) :: (c, false) :: below) :=
    (Sublist.refl above).append (sublist_cons_self _ _)
  have hdesc' : Descending (above ++ (c, true) :: below) := by
    have hkeys := descending_iff_map.mp (Pairwise.sublist hsub hdesc)
    rw [descending_iff_map]
    simpa using hkeys
  refine ⟨⟨_, hdesc'⟩, rfl, ?_, ?_, ?_⟩
  · intro p hp
    grind
  · intro p hp
    rcases mem_append.mp (dropLast_subset _ hp) with hp | hp
    · exact not_isAny_of_ne (habove p hp).1 (habove p hp).2.ne'
    · rcases mem_cons.mp hp with rfl | hp
      all_goals grind [not_isAny_of_ne]
  · have hflagged : ¬ IsAny (c, true) := not_isAny_of_ne hc hclt.ne
    have hunflagged : ¬ IsAny (c, false) := not_isAny_of_ne hc hclt.ne
    have halone : IsAny (.generic [], true) := ⟨rfl, rfl⟩
    simp only [elements, hterms, reverse_append, reverse_cons, flatMap_append,
      flatMap_singleton, append_assoc, termElements_of_not_isAny hflagged,
      termElements_of_not_isAny hunflagged, termElements_of_isAny halone]
    simp

/-- Two flags in a row are written as two ANY, which cannot be read. -/
theorem wireDecode_eq_none (hany : any = true) (hfits : x.block.Fits) :
    wireDecode x.block = .none := by
  subst hany
  obtain ⟨-, ⟨hc, hclt⟩, hbelow⟩ := others hx hterms
  have hdesc : Descending (above ++ (.generic [], true) :: (c, true) :: below) :=
    hterms ▸ x.descending
  have helements : x.elements = below.reverse.flatMap termElements ++ (c.block ::
      make Tlv.any [] :: make Tlv.any [] :: above.reverse.flatMap termElements) := by
    have hflagged : ¬ IsAny (c, true) := not_isAny_of_ne hc hclt.ne
    have halone : IsAny (.generic [], true) := ⟨rfl, rfl⟩
    simp_all [elements, termElements_of_not_isAny, termElements_of_isAny]
  have hfirst : ∀ e ∈ x.elements.head?, e.type ≠ Tlv.any := by
    rw [helements]
    rcases hrev : below.reverse with _ | ⟨p, ps⟩
    · intro e he
      obtain rfl := some.inj he
      exact type_block_ne_any hc
    obtain ⟨hp, hlt⟩ := hbelow p (mem_reverse.mp (by rw [hrev]; exact mem_cons_self))
    intro e he
    rw [flatMap_cons, termElements_of_not_isAny (not_isAny_of_ne hp hlt.ne)] at he
    obtain rfl := some.inj he
    exact type_block_ne_any hp
  have hlow : Descending (below.reverse.reverse ++ none.terms) := by
    rw [reverse_reverse]
    simp only [none, append_nil]
    exact (pairwise_cons.mp (pairwise_cons.mp (pairwise_append.mp hdesc).2.1).2).2
  obtain ⟨y, -, hdecode⟩ := decodeTerms_flatMap below.reverse
    (c.block :: make Tlv.any [] :: make Tlv.any [] ::
      above.reverse.flatMap termElements)
    (fun p hp => by
      obtain ⟨hp', hlt⟩ := hbelow p (mem_reverse.mp hp)
      exact ⟨hp', not_isAny_of_ne hp' hlt.ne⟩)
    (fun e he => some.inj he ▸ type_block_ne_any hc) none hlow
  have hfail : decodeTerms none x.elements = .none := by
    grind [decodeTerms, make, ofBlock_block, decodeTerms_any]
  unfold wireDecode
  rw [if_neg (by simp [block, make]), parse_block hx hfits]
  rcases hlist : x.elements with _ | ⟨e, es⟩ <;> grind

end NotCanonical

/-- What decoding makes of an encoded filter; no element stands for an empty one. -/
def reread (x : Exclude) : Option Exclude :=
  if x.isEmpty then some none else wireDecode x.block

/-- A canonical filter is the same after it was written and read. -/
theorem reread_of_canonical (hx : x.WellFormed) (hcanonical : x.Canonical) (hfits : x.block.Fits) :
    x.reread = some x := by
  unfold reread
  rcases hempty : x.isEmpty with _ | _
  · rw [if_neg (by simp)]
    exact wireDecode_of_canonical hx hcanonical hempty hfits
  rw [if_pos rfl]
  refine congrArg some (eq_of_terms ?_)
  have hnil : x.terms = [] := by simpa [isEmpty] using hempty
  rw [hnil]
  rfl

/-- What is read is canonical and is written as before. -/
theorem reread_eq_some (hx : x.WellFormed) (hfits : x.block.Fits) (h : x.reread = some y) :
    y.WellFormed ∧ y.Canonical ∧ y.block = x.block ∧ y.isEmpty = x.isEmpty ∧
      (y = x ↔ x.Canonical) := by
  by_cases hcanonical : x.Canonical
  · grind [reread_of_canonical]
  obtain ⟨above, c, any, below, hterms⟩ := exists_of_not_canonical hx hcanonical
  have hne : x.isEmpty = false := by simp [isEmpty, hterms]
  have hread : wireDecode x.block = some y := by rwa [reread, hne, if_neg (by simp)] at h
  rcases any with _ | _
  · obtain ⟨z, hz, hwell, hcanonical', helements⟩ := exists_merged hx hterms rfl
    have hblock : z.block = x.block := by rw [block, helements, block]
    have hznonempty : z.isEmpty = false := by simp [isEmpty, hz]
    grind [wireDecode_of_canonical]
  · rw [wireDecode_eq_none hx hterms rfl hfits] at hread
    cases hread

end IcnDemo.Exclude
