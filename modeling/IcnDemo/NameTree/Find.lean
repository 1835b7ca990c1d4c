import IcnDemo.NameTree.Run

/-!
# Longest prefix match

`IsLongestPrefixMatch` is what the two overloads of `findLongestPrefixMatch` are for.  The
parent-walking overload always meets it (`isLongestPrefixMatch_climb`).  The overload on a name
returns the candidate it meets first, where a candidate is any stored prefix, by value, whose
hash is the hash of some prefix of the name.  Because the hash of a name is an exclusive or,
the hash of `/B/A/A` is the hash of `/B`; the shorter entry can then stand before the longer one
in their common chain.  And because the hash is taken over the octets that the name came in, a
stored prefix need not be a candidate.  `findLongestPrefixMatch_correct_iff` gives the exact
condition.
-/

namespace IcnDemo.NameTree

open List

variable {t : NameTree} {ch : ℕ → List NodeId} {q : KeptName}

/-! ### What is looked for -/

/-- A stored prefix of `n` that satisfies the selector. -/
structure Satisfying (t : NameTree) (n : Name) (s : EntrySelector) (e : EntryId) (E : Entry) :
    Prop where
  live : t.Live e E
  isPrefix : E.namePrefix <+: n
  selected : s E = true

/-- A stored prefix of `n` that satisfies the selector, no longer one does. -/
structure Longest (t : NameTree) (n : Name) (s : EntrySelector) (e : EntryId) (E : Entry) : Prop
    extends Satisfying t n s e E where
  longest : ∀ e' E', Satisfying t n s e' E' → E'.namePrefix.length ≤ E.namePrefix.length

/-- The meaning of a longest prefix match. -/
def IsLongestPrefixMatch (t : NameTree) (n : Name) (s : EntrySelector) : Option EntryId → Prop
  | none => ∀ e E, ¬ Satisfying t n s e E
  | some e => ∃ E, Longest t n s e E

variable {n : Name} {s : EntrySelector} {e e' : EntryId} {E E' : Entry}

/-- There is one entry for each length of the name. -/
theorem TreeInv.eq_of_satisfying (h : TreeInv t)
    (hE : Satisfying t n s e E) (hE' : Satisfying t n s e' E')
    (hlen : E.namePrefix.length = E'.namePrefix.length) : e = e' := by
  refine h.unique e E e' E' hE.live hE'.live ?_
  rw [prefix_iff_eq_take.mp hE.isPrefix, prefix_iff_eq_take.mp hE'.isPrefix, hlen]

variable {r : Option EntryId}

/-- There is one longest match. -/
theorem TreeInv.eq_of_isLongestPrefixMatch (h : TreeInv t) {r' : Option EntryId}
    (hr : IsLongestPrefixMatch t n s r) (hr' : IsLongestPrefixMatch t n s r') : r = r' := by
  match r, r' with
  | none, none => rfl
  | none, some e' =>
    obtain ⟨E', hE'⟩ := hr'
    exact absurd hE'.toSatisfying (hr e' E')
  | some e, none =>
    obtain ⟨E, hE⟩ := hr
    exact absurd hE.toSatisfying (hr' e E)
  | some e, some e' =>
    obtain ⟨E, hE⟩ := hr
    obtain ⟨E', hE'⟩ := hr'
    have hlen := le_antisymm (hE'.longest e E hE.toSatisfying) (hE.longest e' E' hE'.toSatisfying)
    rw [h.eq_of_satisfying hE.toSatisfying hE'.toSatisfying hlen]

/-! ### The parent-walking overload -/

/-- The satisfying prefixes of a live name are the name itself, if it satisfies the selector,
and those of the name without its last component. -/
theorem TreeInv.satisfying_iff (h : TreeInv t) (hE : t.Live e E) :
    Satisfying t E.namePrefix s e' E' ↔ (e' = e ∧ E' = E ∧ s E = true) ∨
      (E.namePrefix ≠ [] ∧ Satisfying t E.namePrefix.dropLast s e' E') := by
  constructor
  · intro h'
    by_cases hlen : E'.namePrefix.length = E.namePrefix.length
    · have hee := h.unique e' E' e E h'.live hE (h'.isPrefix.eq_of_length hlen)
      grind [h'.live.contents_eq, h'.selected]
    · have hle := h'.isPrefix.length_le
      refine Or.inr ⟨fun hnil => hlen (by simpa [hnil] using hle), h'.live, ?_, h'.selected⟩
      grind [prefix_of_prefix_length_le, h'.isPrefix]
  · rintro (⟨rfl, rfl, hs⟩ | ⟨-, h'⟩)
    · exact ⟨hE, prefix_rfl, hs⟩
    · exact ⟨h'.live, h'.isPrefix.trans (List.dropLast_prefix _), h'.selected⟩

variable {fuel : ℕ}

/-- Climbing to the parents ends at the longest match. -/
theorem isLongestPrefixMatch_climb (h : TreeInv t) :
    ∀ {e : EntryId} {E : Entry}, t.Live e E → E.namePrefix.length < fuel →
      IsLongestPrefixMatch t E.namePrefix s (t.climb s fuel (some e)) := by
  induction fuel with
  | zero =>
    intro e E _ hlen
    omega
  | succ fuel ih =>
    intro e E hE hlen
    simp only [climb, hE.entry]
    by_cases hs : s E = true
    · simp only [hs, if_true]
      exact ⟨E, ⟨hE, prefix_rfl, hs⟩, fun _ _ h' => h'.isPrefix.length_le⟩
    have hs' : s E = false := by simpa using hs
    simp only [hs', Bool.false_eq_true, if_false]
    have hiff : ∀ e' E', Satisfying t E.namePrefix s e' E' ↔
        E.namePrefix ≠ [] ∧ Satisfying t E.namePrefix.dropLast s e' E' := by
      intro e' E'
      rw [h.satisfying_iff hE, hs']
      simp
    by_cases hnil : E.namePrefix = []
    · rw [h.root e E hE hnil]
      have hnone : t.climb s fuel none = none := by cases fuel <;> rfl
      rw [hnone]
      intro e' E' h'
      exact ((hiff e' E').mp h').1 hnil
    obtain ⟨p, P, hpar, hP, hname⟩ := h.parent e E hE hnil
    have hplen : P.namePrefix.length < fuel := by grind [length_pos_iff]
    have hrec := ih hP hplen
    rw [hname] at hrec
    rw [hpar]
    -- the two names have the same satisfying prefixes, so the answer carries over
    cases hclimb : t.climb s fuel (some p) with
    | none =>
      rw [hclimb] at hrec
      intro e' E' h'
      exact hrec e' E' ((hiff e' E').mp h').2
    | some q =>
      rw [hclimb] at hrec
      obtain ⟨Q, hQ⟩ := hrec
      refine ⟨Q, (hiff q Q).mpr ⟨hnil, hQ.toSatisfying⟩, fun e' E' h' => ?_⟩
      exact hQ.longest e' E' ((hiff e' E').mp h').2

/-- The match from an entry is the longest one for its name. -/
theorem isLongestPrefixMatch_from (h : TreeInv t) (hE : t.Live e E) (s : EntrySelector) :
    IsLongestPrefixMatch t E.namePrefix s (t.findLongestPrefixMatchFrom (some e) s) := by
  simp only [findLongestPrefixMatchFrom, hE.entry]
  exact isLongestPrefixMatch_climb h hE (Nat.lt_succ_self _)

/-! ### The order in which the overload on a name looks at the entries -/

/-- The length of the longest prefix of `q` with the given hash; this is the first pass of the loop
that looks at entries with this hash. -/
def lastDepth (q : KeptName) (hashValue : UInt64) : ℕ :=
  Nat.findGreatest (fun i => computeHash (q.take i) = hashValue) q.name.length

/-- An entry the loop may return: a prefix by value, with the hash of some prefix. -/
structure Candidate (t : NameTree) (q : KeptName) (s : EntrySelector) (e : EntryId) (E : Entry) :
    Prop where
  live : t.Live e E
  isPrefix : Name.isPrefixOf E.namePrefix q.name = true
  selected : s E = true
  hash_mem : ∃ i ≤ q.name.length, computeHash (q.take i) = E.hash

/-- `E` stands before `E'` in the chain of its bucket. -/
def Precedes (t : NameTree) (E E' : Entry) : Prop :=
  (t.chain (t.location E.hash)).idxOf E.node < (t.chain (t.location E.hash)).idxOf E'.node

/-- The loop meets `E` before `E'`: at a longer prefix, or earlier in the same chain. -/
def ScannedBefore (t : NameTree) (q : KeptName) (E E' : Entry) : Prop :=
  lastDepth q E'.hash < lastDepth q E.hash ∨ (E.hash = E'.hash ∧ Precedes t E E')

/-- The candidate the loop meets first. -/
structure FirstCandidate (t : NameTree) (q : KeptName) (s : EntrySelector) (e : EntryId)
    (E : Entry) : Prop extends Candidate t q s e E where
  first : ∀ e' E', Candidate t q s e' E' → e' ≠ e → ScannedBefore t q E E'

/-- The order of the scan is strict. -/
theorem ScannedBefore.asymm (h : ScannedBefore t q E E') : ¬ ScannedBefore t q E' E := by
  rcases h with h | ⟨heq, h⟩
  · rintro (h' | ⟨heq', -⟩)
    all_goals grind
  · rintro (h' | ⟨-, h'⟩)
    all_goals grind [Precedes]

/-- The first result from the back is that of the greatest index. -/
theorem findSome?_reverse_range_eq_some {α : Type*} {f : ℕ → Option α} {k : ℕ} {a : α} :
    (List.range k).reverse.findSome? f = some a ↔
      ∃ i < k, f i = some a ∧ ∀ j < k, i < j → f j = none := by
  induction k with
  | zero => simp
  | succ k ih =>
    rw [range_succ, reverse_append, reverse_singleton, singleton_append, findSome?_cons]
    grind

/-- The result depends on the function in the list. -/
theorem findSome?_congr_mem {α β : Type*} {l : List α} {f g : α → Option β}
    (h : ∀ a ∈ l, f a = g a) : l.findSome? f = l.findSome? g := by
  induction l with
  | nil => rfl
  | cons a l ih => grind

/-- One pass of the loop of `findLongestPrefixMatch`, at the prefix with `i` components. -/
def pass (t : NameTree) (q : KeptName) (s : EntrySelector) (i : ℕ) : Option EntryId :=
  t.scan (t.location (computeHash (q.take i))) fun E =>
    computeHash (q.take i) == E.hash && Name.isPrefixOf E.namePrefix q.name && s E

/-- The loop makes a pass for each length, the longest first. -/
theorem findLongestPrefixMatch_eq (t : NameTree) (q : KeptName) (s : EntrySelector) :
    t.findLongestPrefixMatch q s =
      (List.range (q.name.length + 1)).reverse.findSome? (t.pass q s) := by
  unfold findLongestPrefixMatch
  refine findSome?_congr_mem fun i hi => ?_
  have hi' : i ≤ q.name.length := by
    rw [mem_reverse, mem_range] at hi
    omega
  have hhash : (computeHashSet q).getD i 0 = computeHash (q.take i) := by
    rw [getD_eq_getElem?_getD, computeHashSet_getElem? hi', Option.getD_some]
  simp only [hhash]
  rfl

variable {i : ℕ}

/-- The test of a pass. -/
theorem test_iff :
    (computeHash (q.take i) == E.hash && Name.isPrefixOf E.namePrefix q.name && s E) = true ↔
      computeHash (q.take i) = E.hash ∧ Name.isPrefixOf E.namePrefix q.name = true ∧
        s E = true := by
  rw [Bool.and_eq_true, Bool.and_eq_true, beq_iff_eq, and_assoc]

/-- A pass finds nothing if no candidate has its hash. -/
theorem TableInv.pass_eq_none (hT : TableInv t ch) (hi : i ≤ q.name.length) :
    t.pass q s i = none ↔ ∀ e E, Candidate t q s e E → computeHash (q.take i) ≠ E.hash := by
  unfold pass
  rw [hT.scan_eq_none (hT.location_lt _)]
  constructor
  · intro h e E hE heq
    grind [hE.live, hE.isPrefix, hE.selected]
  · intro h e E hE _
    by_contra hne
    rw [Bool.not_eq_false, test_iff] at hne
    exact h e E ⟨hE, hne.2.1, hne.2.2, i, hi, hne.1⟩ hne.1

variable {hashValue : UInt64}

/-- A scan finds the first entry of its bucket. -/
theorem TableInv.scan_first (hT : TableInv t ch) {test : Entry → Bool}
    (htest : ∀ E, test E = true → E.hash = hashValue)
    (h : t.scan (t.location hashValue) test = some e) :
    ∃ E, t.Live e E ∧ test E = true ∧
      ∀ e' E', t.Live e' E' → test E' = true → e' ≠ e → Precedes t E E' := by
  have hb := hT.location_lt hashValue
  obtain ⟨E, l₁, l₂, hE, hpass, -, hch, hbefore⟩ := hT.scan_eq_some hb h
  refine ⟨E, hE, hpass, fun e' E' hE' hpass' hne => ?_⟩
  have hnodup := hT.nodup _ hb
  rw [hch] at hnodup
  have hEnot : E.node ∉ l₁ := fun hin =>
    (nodup_append.mp hnodup).2.2 E.node hin E.node mem_cons_self rfl
  have hnotBefore : E'.node ∉ l₁ := by grind
  have hnode : E'.node ≠ E.node := by
    intro heq
    have hlive' : t.nodeEntry E'.node = some (e', E') := hE'
    rw [heq, show t.nodeEntry E.node = some (e, E) from hE] at hlive'
    cases hlive'
    exact hne rfl
  unfold Precedes
  grind [hT.chain_eq]

/-- A pass finds the first candidate with its hash. -/
theorem TableInv.pass_eq_some (hT : TableInv t ch) (hi : i ≤ q.name.length)
    (h : t.pass q s i = some e) :
    ∃ E, Candidate t q s e E ∧ computeHash (q.take i) = E.hash ∧
      ∀ e' E', Candidate t q s e' E' → E'.hash = E.hash → e' ≠ e → Precedes t E E' := by
  obtain ⟨E, hE, htest, hfirst⟩ := hT.scan_first (fun E htest => (test_iff.mp htest).1.symm) h
  obtain ⟨hhash, hpre, hsel⟩ := test_iff.mp htest
  refine ⟨E, ⟨hE, hpre, hsel, i, hi, hhash⟩, hhash, ?_⟩
  intro e' E' hE' hhash' hne
  grind [hE'.live, hE'.isPrefix, hE'.selected]

/-- The last depth with a hash has it. -/
theorem computeHash_lastDepth (hi : i ≤ q.name.length) (h : computeHash (q.take i) = hashValue) :
    computeHash (q.take (lastDepth q hashValue)) = hashValue :=
  Nat.findGreatest_spec (P := fun i => computeHash (q.take i) = hashValue) hi h

/-- The last depth is in the name. -/
theorem lastDepth_le (q : KeptName) (hashValue : UInt64) : lastDepth q hashValue ≤ q.name.length :=
  Nat.findGreatest_le _

/-- No later depth has the hash. -/
theorem le_lastDepth (hi : i ≤ q.name.length)
    (h : computeHash (q.take i) = hashValue) : i ≤ lastDepth q hashValue :=
  Nat.le_findGreatest hi h

/-- Nothing is found if there is no candidate. -/
theorem TableInv.findLongestPrefixMatch_eq_none (hT : TableInv t ch) :
    t.findLongestPrefixMatch q s = none ↔ ∀ e E, ¬ Candidate t q s e E := by
  rw [findLongestPrefixMatch_eq, findSome?_eq_none_iff]
  constructor
  · intro h e E hE
    obtain ⟨i, hi, heq⟩ := hE.hash_mem
    have hpass := h i (by rw [mem_reverse, mem_range]; omega)
    exact (hT.pass_eq_none hi).mp hpass e E hE heq
  · grind [hT.pass_eq_none]

/-- What is found is the first candidate. -/
theorem TableInv.firstCandidate_of_eq_some (hT : TableInv t ch)
    (h : t.findLongestPrefixMatch q s = some e) : ∃ E, FirstCandidate t q s e E := by
  rw [findLongestPrefixMatch_eq, findSome?_reverse_range_eq_some] at h
  obtain ⟨i, hi, hpass, hafter⟩ := h
  obtain ⟨E, hE, hhash, hfirst⟩ := hT.pass_eq_some (by omega) hpass
  refine ⟨E, ⟨hE, fun e' E' hE' hne => ?_⟩⟩
  obtain ⟨j, hj, hhash'⟩ := hE'.hash_mem
  -- no pass after `i` meets a candidate, so `i` bounds the depth of every candidate
  have hdepth : lastDepth q E'.hash ≤ i := by
    grind [lastDepth_le, hT.pass_eq_none, computeHash_lastDepth]
  have hdepthE : i ≤ lastDepth q E.hash := le_lastDepth (by omega) hhash
  by_cases heq : E'.hash = E.hash
  · exact Or.inr ⟨heq.symm, hfirst e' E' hE' heq hne⟩
  · refine Or.inl (lt_of_lt_of_le (lt_of_le_of_ne hdepth ?_) hdepthE)
    intro hi'
    apply heq
    rw [← computeHash_lastDepth hj hhash', hi', hhash]

/-- There is one first candidate. -/
theorem FirstCandidate.unique
    (hE : FirstCandidate t q s e E) (hE' : FirstCandidate t q s e' E') : e = e' := by
  by_contra hne
  exact (hE.first e' E' hE'.toCandidate (Ne.symm hne)).asymm (hE'.first e E hE.toCandidate hne)

/-- The first candidate is found. -/
theorem TableInv.findLongestPrefixMatch_eq_some (hT : TableInv t ch) :
    t.findLongestPrefixMatch q s = some e ↔ ∃ E, FirstCandidate t q s e E := by
  refine ⟨hT.firstCandidate_of_eq_some, ?_⟩
  rintro ⟨E, hE⟩
  cases hfind : t.findLongestPrefixMatch q s with
  | none => exact absurd hE.toCandidate (hT.findLongestPrefixMatch_eq_none.mp hfind e E)
  | some e' =>
    obtain ⟨E', hE'⟩ := hT.firstCandidate_of_eq_some hfind
    rw [hE'.unique hE]

/-! ### When the two overloads are right -/

/-- The longest satisfying prefix is a candidate, and every candidate is this prefix or is scanned
after it. -/
def LongestScannedFirst (t : NameTree) (q : KeptName) (s : EntrySelector) : Prop :=
  (∀ e E, Longest t q.name s e E → Candidate t q s e E) ∧
    ∀ e' E', Candidate t q s e' E' →
      ∃ e E, Longest t q.name s e E ∧ (e' = e ∨ ScannedBefore t q E E')

/-- A satisfying prefix is a candidate if the octets of the name have its hash. -/
theorem TreeInv.candidate_of_satisfying (h : TreeInv t) (hE : Satisfying t q.name s e E)
    (hhash : (q.take E.namePrefix.length).SameHash) : Candidate t q s e E := by
  refine ⟨hE.live, Name.isPrefixOf_of_initial hE.isPrefix, hE.selected,
    E.namePrefix.length, hE.isPrefix.length_le, ?_⟩
  have hname : (q.take E.namePrefix.length).name = E.namePrefix :=
    (prefix_iff_eq_take.mp hE.isPrefix).symm
  rw [hhash, hname, h.hash_eq e E hE.live]

/-- Where some prefix satisfies the selector, there is a longest one. -/
theorem Satisfying.exists_longest (h : Satisfying t n s e E) : ∃ e E, Longest t n s e E := by
  induction hk : n.length - E.namePrefix.length using Nat.strongRecOn generalizing e E with
  | ind k ih =>
    by_cases hlongest : ∀ e' E', Satisfying t n s e' E' →
        E'.namePrefix.length ≤ E.namePrefix.length
    · exact ⟨e, E, h, hlongest⟩
    push Not at hlongest
    obtain ⟨e', E', h', hlt⟩ := hlongest
    have hle := h'.isPrefix.length_le
    exact ih (n.length - E'.namePrefix.length) (by omega) h' rfl

/-- The overload on a name is right exactly when the longest satisfying prefix is scanned
first. -/
theorem Inv.isLongestPrefixMatch_iff (h : Inv t) (q : KeptName) (s : EntrySelector) :
    IsLongestPrefixMatch t q.name s (t.findLongestPrefixMatch q s) ↔
      LongestScannedFirst t q s := by
  obtain ⟨⟨ch, hT⟩, htree⟩ := h
  rcases hfind : t.findLongestPrefixMatch q s with _ | e
  · have hnone := hT.findLongestPrefixMatch_eq_none.mp hfind
    constructor
    · intro hr
      exact ⟨fun e E hE => absurd hE.toSatisfying (hr e E), fun e' E' hE' =>
        absurd hE' (hnone e' E')⟩
    · rintro ⟨hcand, -⟩ e E hE
      obtain ⟨l, L, hL⟩ := hE.exists_longest
      exact hnone l L (hcand l L hL)
  obtain ⟨E, hE⟩ := hT.findLongestPrefixMatch_eq_some.mp hfind
  constructor
  · intro hr
    obtain ⟨L, hL⟩ := id hr
    have hEL := hE.live.contents_eq hL.live
    refine ⟨fun e' E' hE' => ?_, fun e' E' hE' => ⟨e, L, hL, ?_⟩⟩
    · have hr' : IsLongestPrefixMatch t q.name s (some e') := ⟨E', hE'⟩
      have heq := htree.eq_of_isLongestPrefixMatch hr hr'
      cases heq
      rw [hE'.live.contents_eq hE.live]
      exact hE.toCandidate
    · by_cases hne : e' = e
      · exact .inl hne
      · rw [← hEL]
        exact .inr (hE.first e' E' hE' hne)
  rintro ⟨hcand, hok⟩
  obtain ⟨d, D, hD, hde⟩ := hok e E hE.toCandidate
  by_cases heq : d = e
  · subst heq
    exact ⟨D, hD⟩
  · -- otherwise the longest match and the result would each be scanned before the other
    have hbefore := hde.resolve_left (Ne.symm heq)
    exact absurd (hE.first d D (hcand d D hD) heq) hbefore.asymm

/-- The entry that exact matching on `q` arrives at: equal by value and hash, and the first such
in its chain. -/
structure FirstEqual (t : NameTree) (q : KeptName) (e : EntryId) (E : Entry) : Prop where
  live : t.Live e E
  hash_eq : E.hash = computeHash q
  sameValues : Name.SameValues q.name E.namePrefix
  first : ∀ e' E', t.Live e' E' → E'.hash = computeHash q →
    Name.SameValues q.name E'.namePrefix → e' ≠ e → Precedes t E E'

/-- When the name is live, the entry exact matching arrives at has the same longest prefix match
as the name; where it arrives at none, nothing satisfies the selector. -/
def ClimbAgrees (t : NameTree) (q : KeptName) (s : EntrySelector) : Prop :=
  t.LiveName q.name →
    (∀ e E, FirstEqual t q e E →
      ∀ r, IsLongestPrefixMatch t E.namePrefix s r ↔ IsLongestPrefixMatch t q.name s r) ∧
    ((∀ e E, ¬ FirstEqual t q e E) → ∀ e E, ¬ Satisfying t q.name s e E)

/-- The test of exact matching. -/
theorem exactTest_iff :
    (computeHash q == E.hash && Name.equals q.name E.namePrefix) = true ↔
      E.hash = computeHash q ∧ Name.SameValues q.name E.namePrefix := by
  rw [Bool.and_eq_true, beq_iff_eq, Name.equals_iff, eq_comm]
  rfl

/-- An exact match is the first equal entry. -/
theorem Inv.firstEqual_of_findExactMatch (h : Inv t)
    (hfind : t.findExactMatch q = some e) : ∃ E, FirstEqual t q e E := by
  obtain ⟨⟨ch, hT⟩, -⟩ := h
  obtain ⟨E, hE, hpass, hfirst⟩ := hT.scan_first (fun E hp => (exactTest_iff.mp hp).1) hfind
  refine ⟨E, hE, (exactTest_iff.mp hpass).1, (exactTest_iff.mp hpass).2, ?_⟩
  intro e' E' hE' hhash hvalues hne
  exact hfirst e' E' hE' (exactTest_iff.mpr ⟨hhash, hvalues⟩) hne

/-- Without an exact match there is no equal entry. -/
theorem Inv.not_firstEqual_of_findExactMatch (h : Inv t) (hfind : t.findExactMatch q = none)
    (e : EntryId) (E : Entry) : ¬ FirstEqual t q e E := by
  obtain ⟨⟨ch, hT⟩, -⟩ := h
  intro hE
  have hmiss := (hT.scan_eq_none (hT.location_lt (computeHash q))).mp hfind e E hE.live
    (by rw [hE.hash_eq])
  rw [exactTest_iff.mpr ⟨hE.hash_eq, hE.sameValues⟩] at hmiss
  cases hmiss

/-- There is one first equal entry. -/
theorem FirstEqual.unique (hE : FirstEqual t q e E) (hE' : FirstEqual t q e' E') : e = e' := by
  by_contra hne
  have h₁ := hE.first e' E' hE'.live hE'.hash_eq hE'.sameValues (Ne.symm hne)
  have h₂ := hE'.first e E hE.live hE.hash_eq hE.sameValues hne
  grind [Precedes, hE.hash_eq, hE'.hash_eq]

/-- Two names with a common longest match. -/
theorem TreeInv.isLongestPrefixMatch_congr (h : TreeInv t) {m : Name}
    (hn : IsLongestPrefixMatch t n s r) (hm : IsLongestPrefixMatch t m s r)
    (r' : Option EntryId) : IsLongestPrefixMatch t m s r' ↔ IsLongestPrefixMatch t n s r' := by
  constructor <;> grind [h.eq_of_isLongestPrefixMatch]

/-- The parent-walking overload, started at the exact match, gives the same result exactly when
the climb agrees. -/
theorem Inv.eq_findLongestPrefixMatchFrom_iff (h : Inv t)
    (hr : IsLongestPrefixMatch t q.name s r) :
    (t.LiveName q.name → r = t.findLongestPrefixMatchFrom (t.findExactMatch q) s) ↔
      ClimbAgrees t q s := by
  obtain ⟨-, htree⟩ := id h
  refine forall_congr' fun _ => ?_
  rcases hfind : t.findExactMatch q with _ | e
  · have hnone := h.not_firstEqual_of_findExactMatch hfind
    constructor
    · rintro rfl
      exact ⟨fun e E hE => absurd hE (hnone e E), fun _ => hr⟩
    · rintro ⟨-, hno⟩
      have hr' : IsLongestPrefixMatch t q.name s none := hno hnone
      exact htree.eq_of_isLongestPrefixMatch hr hr'
  obtain ⟨E, hE⟩ := h.firstEqual_of_findExactMatch hfind
  have hclimb := isLongestPrefixMatch_from htree hE.live s
  constructor
  · rintro rfl
    refine ⟨fun e' E' hE' => ?_, fun hno => absurd hE (hno e E)⟩
    have hee := hE'.unique hE
    subst hee
    rw [hE'.live.contents_eq hE.live]
    exact htree.isLongestPrefixMatch_congr hr hclimb
  · rintro ⟨hagree, -⟩
    exact htree.eq_of_isLongestPrefixMatch hr ((hagree e E hE _).mp hclimb)

/-- What a longest prefix match on a name should be: the longest satisfying prefix, and the same
entry as the parent-walking overload finds when the name is live. -/
def MatchesLongest (t : NameTree) (q : KeptName) (s : EntrySelector) : Prop :=
  IsLongestPrefixMatch t q.name s (t.findLongestPrefixMatch q s) ∧ (t.LiveName q.name →
      t.findLongestPrefixMatch q s = t.findLongestPrefixMatchFrom (t.findExactMatch q) s)

/-- In every state of a safe run, the longest prefix match is right exactly when the longest
satisfying prefix is a candidate and scanned before every other one, and exact matching does not
lead away from the prefixes of the name. -/
theorem findLongestPrefixMatch_correct_iff {nBuckets : ℕ} (hpos : 1 ≤ nBuckets) {ops : List Op}
    (hok : RunOk (create nBuckets) ops) (q : KeptName) (s : EntrySelector) :
    MatchesLongest ((create nBuckets).run ops) q s ↔
      LongestScannedFirst ((create nBuckets).run ops) q s ∧
        ClimbAgrees ((create nBuckets).run ops) q s := by
  have hinv := inv_run (inv_create hpos) hok
  unfold MatchesLongest
  rw [← hinv.isLongestPrefixMatch_iff q s]
  exact and_congr_right fun hr => hinv.eq_findLongestPrefixMatchFrom_iff hr

/-- The name `/B/A/A`, whose hash is that of `/B`. -/
def nameBAA : Name :=
  [.generic [0x42], .generic [0x41], .generic [0x41]]

/-- The exact condition, at the table that holds `/B/A/A` and its prefixes. -/
theorem findLongestPrefixMatch_correct_iff_BAA :
    MatchesLongest ((create 16).run [.lookup nameBAA]) nameBAA (fun E => E.children.isEmpty) ↔
      LongestScannedFirst ((create 16).run [.lookup nameBAA]) nameBAA
        (fun E => E.children.isEmpty) ∧
        ClimbAgrees ((create 16).run [.lookup nameBAA]) nameBAA (fun E => E.children.isEmpty) :=
  findLongestPrefixMatch_correct_iff (by decide) (by decide +kernel) _ _

/-- A match that is shorter than a satisfying prefix is not right. -/
theorem not_matchesLongest (hfind : t.findLongestPrefixMatch q s = some e)
    (hentry : ∃ E ∈ t.entries e, E.namePrefix.length < E'.namePrefix.length)
    (hE' : Satisfying t q.name s e' E') : ¬ MatchesLongest t q s := by
  rintro ⟨hmatch, -⟩
  rw [hfind] at hmatch
  obtain ⟨L, hL⟩ := hmatch
  obtain ⟨E, hentry, hlt⟩ := hentry
  rw [hL.live.entry] at hentry
  cases hentry
  have hle := hL.longest e' E' hE'
  omega

/-- With no selector, the longest prefix match of the live name `/B/A/A` is `/B`, and that of the
live name `/A` is the root when its octets have the length in three of them. -/
theorem findLongestPrefixMatch_stops_at_B :
    ¬ MatchesLongest ((create 16).run [.lookup nameBAA]) nameBAA (fun _ => true) ∧
      ¬ MatchesLongest ((create 16).run [.lookup nameA]) keptA (fun _ => true) := by
  constructor
  · have hlive : ∃ E ∈ ((create 16).run [.lookup nameBAA]).entries 3,
        ((create 16).run [.lookup nameBAA]).nodeEntry E.node = some (3, E) ∧
          E.namePrefix = nameBAA := by decide +kernel
    obtain ⟨E, -, hE, hname⟩ := hlive
    refine not_matchesLongest (e := 1) (by decide +kernel) ?_ ⟨hE, by rw [hname]; rfl, rfl⟩
    rw [hname]
    decide +kernel
  · have hlive : ∃ E ∈ ((create 16).run [.lookup nameA]).entries 1,
        ((create 16).run [.lookup nameA]).nodeEntry E.node = some (1, E) ∧
          E.namePrefix = nameA := by decide +kernel
    obtain ⟨E, -, hE, hname⟩ := hlive
    refine not_matchesLongest (e := 0) (by decide +kernel) ?_ ⟨hE, by rw [hname]; rfl, rfl⟩
    rw [hname]
    decide +kernel

/-! ### All matches -/

/-- Advancing visits the entries above that satisfy the selector. -/
theorem TreeInv.mem_advanceAll (h : TreeInv t) :
    ∀ {e : EntryId} {E : Entry}, t.Live e E → E.namePrefix.length < fuel → ∀ {a : EntryId},
      a ∈ t.advanceAll s fuel e ↔
        E.namePrefix ≠ [] ∧ ∃ A, Satisfying t E.namePrefix.dropLast s a A := by
  induction fuel with
  | zero =>
    intro e E _ hlen
    omega
  | succ fuel ih =>
    intro e E hE hlen a
    simp only [advanceAll, hE.entry]
    by_cases hnil : E.namePrefix = []
    · simp [h.root e E hE hnil, hnil]
    obtain ⟨p, P, hpar, hP, hname⟩ := h.parent e E hE hnil
    have hplen : P.namePrefix.length < fuel := by grind [length_pos_iff]
    have hrec := ih hP hplen (a := a)
    simp only [hpar, hP.entry]
    have hsplit : (∃ A, Satisfying t E.namePrefix.dropLast s a A) ↔
        (a = p ∧ s P = true) ∨ a ∈ t.advanceAll s fuel p := by
      rw [hrec, ← hname]
      constructor
      · grind [h.satisfying_iff]
      · rintro (⟨rfl, hs⟩ | ⟨hne, A, hA⟩)
        · exact ⟨P, (h.satisfying_iff hP).mpr (Or.inl ⟨rfl, rfl, hs⟩)⟩
        · exact ⟨A, (h.satisfying_iff hP).mpr (Or.inr ⟨hne, hA⟩)⟩
    grind

/-- Advancing visits no entry twice. -/
theorem TreeInv.nodup_advanceAll (h : TreeInv t) :
    ∀ {e : EntryId} {E : Entry}, t.Live e E → E.namePrefix.length < fuel →
      (e :: t.advanceAll s fuel e).Nodup := by
  induction fuel with
  | zero =>
    intro e E _ hlen
    omega
  | succ fuel ih =>
    intro e E hE hlen
    have hnot : e ∉ t.advanceAll s (fuel + 1) e := by
      intro hmem
      obtain ⟨hne, A, hA⟩ := (h.mem_advanceAll hE hlen).mp hmem
      grind [hA.isPrefix.length_le, hA.live.contents_eq, length_pos_iff]
    refine nodup_cons.mpr ⟨hnot, ?_⟩
    simp only [advanceAll, hE.entry]
    by_cases hnil : E.namePrefix = []
    · simp [h.root e E hE hnil]
    obtain ⟨p, P, hpar, hP, hname⟩ := h.parent e E hE hnil
    grind [length_pos_iff]

/-- All matches are above the first candidate. -/
theorem Inv.mem_findAllMatches (h : Inv t) :
    e ∈ t.findAllMatches q s ↔
      ∃ l L, FirstCandidate t q s l L ∧ ∃ E, Satisfying t L.namePrefix s e E := by
  obtain ⟨⟨ch, hT⟩, htree⟩ := h
  unfold findAllMatches
  rcases hfind : t.findLongestPrefixMatch q s with _ | l
  · have hnone := hT.findLongestPrefixMatch_eq_none.mp hfind
    constructor
    · intro hmem
      cases hmem
    · rintro ⟨l, L, hL, -⟩
      exact absurd hL.toCandidate (hnone l L)
  obtain ⟨L, hL⟩ := hT.findLongestPrefixMatch_eq_some.mp hfind
  simp only [hL.live.entry, mem_cons, htree.mem_advanceAll hL.live (Nat.lt_succ_self _)]
  constructor
  · rintro (rfl | ⟨hne, E, hE⟩)
    · exact ⟨e, L, hL, L, hL.live, prefix_rfl, hL.selected⟩
    · exact ⟨l, L, hL, E, (htree.satisfying_iff hL.live).mpr (Or.inr ⟨hne, hE⟩)⟩
  · rintro ⟨l', L', hL', E, hE⟩
    grind [hL'.unique, hL'.live.contents_eq, hL.live, htree.satisfying_iff]

/-- No match is returned twice. -/
theorem Inv.nodup_findAllMatches (h : Inv t) (q : KeptName) (s : EntrySelector) :
    (t.findAllMatches q s).Nodup := by
  obtain ⟨⟨ch, hT⟩, htree⟩ := h
  unfold findAllMatches
  cases hfind : t.findLongestPrefixMatch q s with
  | none => exact nodup_nil
  | some l =>
    obtain ⟨L, hL⟩ := hT.findLongestPrefixMatch_eq_some.mp hfind
    simp only [hL.live.entry]
    exact htree.nodup_advanceAll hL.live (Nat.lt_succ_self _)

end IcnDemo.NameTree
