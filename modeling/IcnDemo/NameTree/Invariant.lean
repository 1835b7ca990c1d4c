import IcnDemo.NameTree.Defs

/-!
# The representation invariant of the name tree

`Live t e E` says that entry `e` is stored in the table with contents `E`.  The invariant comes
in two halves.  `TableInv t ch` is about the hash table: `ch b` is the chain of bucket `b`, the
links agree with it, and a node is in the chain of its full hash.  `TreeInv t` is about the
entries only: hashes, uniqueness of names and the parent and child links.  The second half does
not mention buckets, so it survives a resize without any work.

`scan_eq_some` and `scan_eq_none` describe a loop over a chain under the invariant.
-/

namespace IcnDemo.NameTree

open LinkedChain

/-- Entry `e` is stored in the table with contents `E`. -/
def Live (t : NameTree) (e : EntryId) (E : Entry) : Prop :=
  t.nodeEntry E.node = some (e, E)

/-- A name is live when an entry for exactly this name is stored. -/
def LiveName (t : NameTree) (n : Name) : Prop :=
  ∃ e E, t.Live e E ∧ E.namePrefix = n

/-- Every stored entry has the property.  The nodes are enumerated, so that the conditions on
runs can be evaluated. -/
def ForallLive (t : NameTree) (P : Entry → Prop) : Prop :=
  ∀ m < t.nextNode, ∀ q ∈ t.nodeEntry m, P q.2

instance (t : NameTree) (P : Entry → Prop) [DecidablePred P] : Decidable (t.ForallLive P) :=
  inferInstanceAs (Decidable (∀ m < t.nextNode, ∀ q ∈ t.nodeEntry m, P q.2))

/-- The hash table half of the invariant, with the chains made explicit. -/
structure TableInv (t : NameTree) (ch : ℕ → List NodeId) : Prop where
  pos : 0 < t.nBuckets
  buckets_length : t.buckets.length = t.nBuckets
  isChain : ∀ b < t.nBuckets, IsChain t.nodes (t.bucket b) (ch b)
  nodup : ∀ b < t.nBuckets, (ch b).Nodup
  mem_chain : ∀ b < t.nBuckets, ∀ n, n ∈ ch b ↔
    ∃ e E, t.nodeEntry n = some (e, E) ∧ t.location E.hash = b
  node_fresh : ∀ n, t.nextNode ≤ n → t.nodes n = none
  entry_fresh : ∀ e, t.nextEntry ≤ e → t.entries e = none
  entry_node : ∀ n c, t.nodes n = some c → ∃ E, t.entries c.payload = some E ∧ E.node = n
  nItems_eq : t.nItems = ((Finset.range t.nextNode).filter fun n => (t.nodes n).isSome).card

/-- The tree half of the invariant. -/
structure TreeInv (t : NameTree) : Prop where
  hash_eq : ∀ e E, t.Live e E → E.hash = computeHash E.namePrefix
  unique : ∀ e E e' E', t.Live e E → t.Live e' E' → E.namePrefix = E'.namePrefix → e = e'
  root : ∀ e E, t.Live e E → E.namePrefix = [] → E.parent = none
  parent : ∀ e E, t.Live e E → E.namePrefix ≠ [] →
    ∃ p P, E.parent = some p ∧ t.Live p P ∧ P.namePrefix = E.namePrefix.dropLast
  child : ∀ p P, t.Live p P → ∀ c ∈ P.children, ∃ C, t.Live c C ∧ C.parent = some p
  mem_children : ∀ e E p P, t.Live e E → t.Live p P → E.parent = some p → e ∈ P.children
  children_nodup : ∀ p P, t.Live p P → P.children.Nodup

/-- The invariant of the name tree. -/
def Inv (t : NameTree) : Prop :=
  (∃ ch, TableInv t ch) ∧ TreeInv t

/-! ### Reading the heaps -/

variable {e : EntryId} {t : NameTree} {E : Entry}

/-- The entry at a node. -/
theorem nodeEntry_eq_some {n : NodeId} : t.nodeEntry n = some (e, E) ↔
      ∃ c, t.nodes n = some c ∧ c.payload = e ∧ t.entries e = some E := by
  grind [nodeEntry, Option.map_eq_some_iff]

/-- A live entry is an object. -/
theorem Live.entry (h : t.Live e E) : t.entries e = some E := by
  obtain ⟨c, -, -, hE⟩ := nodeEntry_eq_some.mp h
  exact hE

/-- An address has one live entry. -/
theorem Live.contents_eq {E' : Entry} (h : t.Live e E) (h' : t.Live e E') : E = E' := by
  have := h.entry.symm.trans h'.entry
  simpa using this

/-- The entry at a node depends on its payload. -/
theorem nodeEntry_congr {t' : NameTree} (hentries : t'.entries = t.entries) {n : NodeId}
    (hnodes : (t'.nodes n).map Cell.payload = (t.nodes n).map Cell.payload) :
    t'.nodeEntry n = t.nodeEntry n := by
  unfold nodeEntry
  grind

namespace TableInv

variable {t : NameTree} {ch : ℕ → List NodeId} {e : EntryId} {n : NodeId} {E : Entry} {b : ℕ}

variable (hT : TableInv t ch)

include hT

/-- An entry points back to its node. -/
theorem nodeEntry_node (h : t.nodeEntry n = some (e, E)) : E.node = n := by
  obtain ⟨c, hc, rfl, hE⟩ := nodeEntry_eq_some.mp h
  grind [hT.entry_node]

/-- The entry at a node is live. -/
theorem live_of_nodeEntry (h : t.nodeEntry n = some (e, E)) : t.Live e E := by
  unfold Live
  rw [hT.nodeEntry_node h]
  exact h

/-- Every node has an entry. -/
theorem exists_nodeEntry {c : Node} (hc : t.nodes n = some c) :
    ∃ E, t.nodeEntry n = some (c.payload, E) ∧ t.Live c.payload E ∧ E.node = n := by
  obtain ⟨E, hE, hnode⟩ := hT.entry_node n c hc
  grind [nodeEntry_eq_some, hT.live_of_nodeEntry]

/-- A hash has a bucket. -/
theorem location_lt (hashValue : UInt64) : t.location hashValue < t.nBuckets :=
  Nat.mod_lt _ hT.pos

/-- A live entry is in the chain of its hash. -/
theorem mem_chain_of_live (h : t.Live e E) : E.node ∈ ch (t.location E.hash) :=
  (hT.mem_chain _ (hT.location_lt E.hash) E.node).mpr ⟨e, E, h, rfl⟩

/-- New nodes are new. -/
theorem lt_nextNode {c : Node} (hc : t.nodes n = some c) : n < t.nextNode := by
  by_contra hge
  rw [hT.node_fresh n (not_lt.mp hge)] at hc
  cases hc

/-- A property of all live entries. -/
theorem forallLive_iff {P : Entry → Prop} : t.ForallLive P ↔ ∀ e E, t.Live e E → P E := by
  constructor
  · intro h e E hE
    obtain ⟨c, hc, -, -⟩ := nodeEntry_eq_some.mp hE
    exact h E.node (hT.lt_nextNode hc) (e, E) hE
  · rintro h m - ⟨e, E⟩ hE
    exact h e E (hT.live_of_nodeEntry hE)

/-- New entries are new. -/
theorem lt_nextEntry (h : t.entries e = some E) : e < t.nextEntry := by
  by_contra hge
  rw [hT.entry_fresh e (not_lt.mp hge)] at h
  cases h

variable (hb : b < t.nBuckets)

include hb

/-- A chain is not longer than the number of nodes. -/
theorem length_chain_le : (ch b).length ≤ t.nextNode := by
  have hsub : (ch b).toFinset ⊆ Finset.range t.nextNode := by
    intro n hn
    have hn' : n ∈ ch b := List.mem_toFinset.mp hn
    obtain ⟨c, hc⟩ := (hT.isChain b hb).exists_cell hn'
    exact Finset.mem_range.mpr (hT.lt_nextNode hc)
  have hcard := Finset.card_le_card hsub
  rwa [List.toFinset_card_of_nodup (hT.nodup b hb), Finset.card_range] at hcard

/-- The chain is what the walk visits. -/
theorem chain_eq : t.chain b = ch b :=
  walk_eq_of_isSegment (hT.isChain b hb) (hT.length_chain_le hb)

/-- A node is in one chain. -/
theorem chain_disjoint {b' : ℕ}
    (hb' : b' < t.nBuckets) (h : n ∈ ch b) (h' : n ∈ ch b') : b = b' := by
  obtain ⟨e, E, hE, hloc⟩ := (hT.mem_chain b hb n).mp h
  grind [hT.mem_chain]

/-- A successful scan returns a live entry of that chain which passes the test, and nothing
before it in the chain passes. -/
theorem scan_eq_some {test : Entry → Bool} (h : t.scan b test = some e) :
    ∃ E l₁ l₂, t.Live e E ∧ test E = true ∧ t.location E.hash = b ∧ ch b = l₁ ++ E.node :: l₂ ∧
      ∀ e' E', t.Live e' E' → E'.node ∈ l₁ → test E' = false := by
  unfold scan at h
  rw [hT.chain_eq hb, List.findSome?_eq_some_iff] at h
  obtain ⟨l₁, n, l₂, hch, hn, hbefore⟩ := h
  have hmem : n ∈ ch b := by simp [hch]
  obtain ⟨e₀, E, hE, hloc⟩ := (hT.mem_chain b hb n).mp hmem
  have hnode := hT.nodeEntry_node hE
  subst hnode
  simp only [hE] at hn
  have htest : test E = true := by
    by_contra hne
    simp [hne] at hn
  simp only [htest, if_true, Option.some.injEq] at hn
  subst hn
  refine ⟨E, l₁, l₂, hE, htest, hloc, hch, ?_⟩
  intro e' E' hlive hmem'
  have := hbefore E'.node hmem'
  rw [show t.nodeEntry E'.node = some (e', E') from hlive] at this
  simpa using this

/-- A scan finds nothing if no entry of the bucket passes the test. -/
theorem scan_eq_none {test : Entry → Bool} :
    t.scan b test = none ↔ ∀ e E, t.Live e E → t.location E.hash = b → test E = false := by
  unfold scan
  rw [hT.chain_eq hb, List.findSome?_eq_none_iff]
  constructor
  · intro h e E hlive hloc
    have hmem : E.node ∈ ch b := hloc ▸ hT.mem_chain_of_live hlive
    have := h E.node hmem
    rw [show t.nodeEntry E.node = some (e, E) from hlive] at this
    simpa using this
  · intro h n hn
    obtain ⟨e, E, hE, hloc⟩ := (hT.mem_chain b hb n).mp hn
    have := h e E (hT.live_of_nodeEntry hE) hloc
    simp [hE, this]

end TableInv

/-- Two entries that agree in everything the tree half of the invariant reads. -/
structure SameTree (E E' : Entry) : Prop where
  hash : E'.hash = E.hash
  namePrefix : E'.namePrefix = E.namePrefix
  parent : E'.parent = E.parent
  children : E'.children = E.children

/-- An entry has its own place in the tree. -/
theorem SameTree.refl (E : Entry) : SameTree E E :=
  ⟨rfl, rfl, rfl, rfl⟩

/-- The tree half survives every change that keeps the live entries and their tree fields. -/
theorem TreeInv.congr {t' : NameTree} (h : TreeInv t)
    (hold : ∀ e E', t'.Live e E' → ∃ E, t.Live e E ∧ SameTree E E')
    (hnew : ∀ e E, t.Live e E → ∃ E', t'.Live e E' ∧ SameTree E E') : TreeInv t' := by
  constructor
  · intro e E' hE'
    obtain ⟨E, hE, hs⟩ := hold e E' hE'
    rw [hs.hash, hs.namePrefix]
    exact h.hash_eq e E hE
  · intro e₁ E₁' e₂ E₂' h₁ h₂ heq
    obtain ⟨E₁, hE₁, hs₁⟩ := hold e₁ E₁' h₁
    obtain ⟨E₂, hE₂, hs₂⟩ := hold e₂ E₂' h₂
    rw [hs₁.namePrefix, hs₂.namePrefix] at heq
    exact h.unique e₁ E₁ e₂ E₂ hE₁ hE₂ heq
  · intro e E' hE' hroot
    obtain ⟨E, hE, hs⟩ := hold e E' hE'
    rw [hs.namePrefix] at hroot
    rw [hs.parent]
    exact h.root e E hE hroot
  · intro e E' hE' hne
    obtain ⟨E, hE, hs⟩ := hold e E' hE'
    rw [hs.namePrefix] at hne
    obtain ⟨p, P, hpar, hP, hname⟩ := h.parent e E hE hne
    obtain ⟨P', hP', hsP⟩ := hnew p P hP
    exact ⟨p, P', by rw [hs.parent, hpar], hP', by rw [hsP.namePrefix, hs.namePrefix, hname]⟩
  · intro p P' hP' c hc
    obtain ⟨P, hP, hs⟩ := hold p P' hP'
    rw [hs.children] at hc
    obtain ⟨C, hC, hpar⟩ := h.child p P hP c hc
    obtain ⟨C', hC', hsC⟩ := hnew c C hC
    exact ⟨C', hC', by rw [hsC.parent, hpar]⟩
  · intro e E' p P' hE' hP' hpar
    obtain ⟨E, hE, hs⟩ := hold e E' hE'
    obtain ⟨P, hP, hsP⟩ := hold p P' hP'
    rw [hs.parent] at hpar
    rw [hsP.children]
    exact h.mem_children e E p P hE hP hpar
  · intro p P' hP'
    obtain ⟨P, hP, hs⟩ := hold p P' hP'
    rw [hs.children]
    exact h.children_nodup p P hP

/-- The invariant holds of an empty name tree. -/
theorem inv_create {nBuckets : ℕ} (hpos : 0 < nBuckets) : Inv (create nBuckets) := by
  have hno : ∀ n, (create nBuckets).nodeEntry n = none := fun n => rfl
  have hdead : ∀ e E, ¬ (create nBuckets).Live e E := by
    intro e E h
    unfold Live at h
    rw [hno] at h
    cases h
  refine ⟨⟨fun _ => [], ?_⟩, ?_⟩
  · constructor
    · exact hpos
    · simp [create]
    · grind [LinkedChain.IsChain, IsSegment, bucket, create]
    · intro b hb
      exact List.nodup_nil
    · intro b hb n
      simp [hno]
    · intro n hn
      rfl
    · intro e he
      rfl
    · intro n c hc
      cases hc
    · simp [create]
  · constructor <;> intro e E <;> intros <;> exact absurd ‹_› (hdead _ _)

end IcnDemo.NameTree
