import IcnDemo.NameTree.Resize

/-!
# Insertion into the name tree

`insertChild` is one pass of the loop of `lookup`: it finds the entry of a prefix or creates it
under its parent.  Because `insert` compares names without component types, it can take an
entry of another name in the same bucket for the one it looks for; `InsertOk` excludes exactly
that.  `live_insertUnder` lists everything that is stored after a new entry has been
created, and both halves of the invariant are read off from it.
-/

namespace IcnDemo.NameTree

open LinkedChain

/-- No entry in the bucket of `n` differs from `n` in the types of its components only. -/
def InsertOk (t : NameTree) (n : Name) : Prop :=
  t.ForallLive fun E => t.location E.hash = t.location (computeHash n) →
    Name.SameValues n E.namePrefix → E.namePrefix = n

instance (t : NameTree) (n : Name) : Decidable (InsertOk t n) :=
  inferInstanceAs (Decidable (t.ForallLive _))

variable {t : NameTree} {ch : ℕ → List NodeId}

/-! ### Changing an entry in place -/

/-- The entry at a node after a change in place. -/
theorem nodeEntry_modifyEntry (t : NameTree) (p : EntryId) (f : Entry → Entry) (n : NodeId) :
    (t.modifyEntry p f).nodeEntry n =
      (t.nodeEntry n).map fun q => (q.1, if q.1 = p then f q.2 else q.2) := by
  unfold nodeEntry modifyEntry
  rcases hn : t.nodes n with _ | c
  · simp
  simp only
  by_cases hcp : c.payload = p
  · subst hcp
    cases t.entries c.payload <;> simp
  · rw [Function.update_of_ne hcp]
    cases t.entries c.payload <;> simp [hcp]

variable {e : EntryId} {parent : Option EntryId} {E' : Entry} {n : Name}

/-- The live entries after a change in place. -/
theorem live_modifyEntry {p : EntryId} {f : Entry → Entry} (hnode : ∀ E, (f E).node = E.node) :
    (t.modifyEntry p f).Live e E' ↔ ∃ E, t.Live e E ∧ E' = if e = p then f E else E := by
  unfold Live
  rw [nodeEntry_modifyEntry]
  constructor
  · intro h
    grind [Option.map_eq_some_iff]
  · grind

/-- The hash table is about hashes and nodes. -/
theorem tableInv_modifyEntry (hT : TableInv t ch) {p : EntryId} {f : Entry → Entry}
    (hnode : ∀ E, (f E).node = E.node) (hhash : ∀ E, (f E).hash = E.hash) :
    TableInv (t.modifyEntry p f) ch := by
  constructor
  · exact hT.pos
  · exact hT.buckets_length
  · exact hT.isChain
  · exact hT.nodup
  · intro b hb n
    rw [hT.mem_chain b hb n, nodeEntry_modifyEntry]
    constructor
    · rintro ⟨e, E, hE, hloc⟩
      refine ⟨e, if e = p then f E else E, by simp [hE], ?_⟩
      have : (if e = p then f E else E).hash = E.hash := by split_ifs <;> simp [hhash]
      rw [this]
      exact hloc
    rintro ⟨e, E', hE', hloc⟩
    obtain ⟨⟨e₀, E⟩, hE, heq⟩ := Option.map_eq_some_iff.mp hE'
    simp only [Prod.mk.injEq] at heq
    obtain ⟨rfl, rfl⟩ := heq
    have : (if e₀ = p then f E else E).hash = E.hash := by split_ifs <;> simp [hhash]
    rw [this] at hloc
    exact ⟨e₀, E, hE, hloc⟩
  · exact hT.node_fresh
  · intro e he
    have h := hT.entry_fresh e he
    by_cases hep : e = p <;> simp_all [modifyEntry]
  · intro n c hc
    obtain ⟨E, hE, hn⟩ := hT.entry_node n c hc
    by_cases hcp : c.payload = p <;> simp_all [modifyEntry]
  · exact hT.nItems_eq

/-- The live entries after a change of attachments. -/
theorem live_modifyAttached {g : Attachments → Attachments} {e' : EntryId} :
    (t.modifyAttached e g).Live e' E' ↔
      ∃ E, t.Live e' E ∧ E' = if e' = e then { E with attached := g E.attached } else E :=
  live_modifyEntry (f := fun E => { E with attached := g E.attached }) fun _ => rfl

/-- Attachments do not matter for the invariant. -/
theorem inv_modifyAttached (h : Inv t) (e : EntryId) (g : Attachments → Attachments) :
    Inv (t.modifyAttached e g) := by
  obtain ⟨⟨ch, hT⟩, htree⟩ := h
  have hsame : ∀ (e' : EntryId) (E : Entry),
      SameTree E (if e' = e then { E with attached := g E.attached } else E) := by
    intro e' E
    split_ifs
    · exact ⟨rfl, rfl, rfl, rfl⟩
    · exact SameTree.refl E
  refine ⟨⟨ch, tableInv_modifyEntry hT (fun _ => rfl) (fun _ => rfl)⟩, htree.congr ?_ ?_⟩
  · intro e' E' hE'
    obtain ⟨E, hE, rfl⟩ := live_modifyAttached.mp hE'
    exact ⟨E, hE, hsame e' E⟩
  · intro e' E hE
    exact ⟨_, live_modifyAttached.mpr ⟨E, hE, rfl⟩, hsame e' E⟩

/-! ### A new node and its entry -/

/-- The entry `insert` creates. -/
def freshEntry (t : NameTree) (n : Name) (parent : Option EntryId) : Entry :=
  ⟨computeHash n, n, parent, [], Attachments.empty, t.nextNode⟩

/-- The new entry counted, before it is hung under its parent. -/
def insertCounted (t : NameTree) (n : Name) : NameTree :=
  { t.insertNew n with nItems := t.nItems + 1 }

/-- The chains after an insertion. -/
def insertedChain (t : NameTree) (ch : ℕ → List NodeId) (n : Name) : ℕ → List NodeId :=
  let loc := t.location (computeHash n)
  Function.update ch loc (ch loc ++ [t.nextNode])

/-- The new node is at the end of its chain. -/
theorem insertCounted_nodes (hT : TableInv t ch) (n : Name) : (t.insertCounted n).nodes =
      pushBack t.nodes (lastOf none (ch (t.location (computeHash n)))) t.nextNode t.nextEntry := by
  simp only [insertCounted, insertNew]
  rw [hT.chain_eq (hT.location_lt _)]

/-- The other nodes keep their entries. -/
theorem insertCounted_payload (t : NameTree) (n : Name) {m : NodeId} (hm : m ≠ t.nextNode) :
    ((t.insertCounted n).nodes m).map Cell.payload = (t.nodes m).map Cell.payload := by
  simp only [insertCounted, insertNew]
  exact payload_pushBack_of_ne _ _ _ hm

/-- The new node has the new entry. -/
theorem insertCounted_payload_self (t : NameTree) (n : Name) :
    ((t.insertCounted n).nodes t.nextNode).map Cell.payload = some t.nextEntry := by
  simp only [insertCounted, insertNew]
  exact payload_pushBack_self _ _ _ _

/-- The other entries stay. -/
theorem insertCounted_entries_of_ne (t : NameTree) (n : Name)
    (he : e ≠ t.nextEntry) : (t.insertCounted n).entries e = t.entries e := by
  simp [insertCounted, insertNew, he]

/-- The new entry. -/
theorem insertCounted_entries_self (t : NameTree) (n : Name) :
    (t.insertCounted n).entries t.nextEntry = some (t.freshEntry n none) := by
  simp [insertCounted, insertNew, freshEntry]

section

variable (hT : TableInv t ch)

include hT

/-- The entries at the nodes with a new one. -/
theorem nodeEntry_insertCounted (n : Name) (m : NodeId) :
    (t.insertCounted n).nodeEntry m =
      if m = t.nextNode then some (t.nextEntry, t.freshEntry n none) else t.nodeEntry m := by
  split_ifs with hm
  · grind [Option.map_eq_some_iff, insertCounted_payload_self, nodeEntry_eq_some,
      insertCounted_entries_self]
  have hpay := insertCounted_payload t n hm
  unfold nodeEntry
  rcases hc : t.nodes m with _ | c
  · simp_all
  rw [hc] at hpay
  obtain ⟨c', hc', hpay'⟩ := Option.map_eq_some_iff.mp hpay
  obtain ⟨E, hE, -⟩ := hT.entry_node m c hc
  have hne : c.payload ≠ t.nextEntry := (hT.lt_nextEntry hE).ne
  simp [hc', hpay', insertCounted_entries_of_ne t n hne]

/-- The live entries with a new one. -/
theorem live_insertCounted (n : Name) {E : Entry} :
    (t.insertCounted n).Live e E ↔ (e = t.nextEntry ∧ E = t.freshEntry n none) ∨ t.Live e E := by
  unfold Live
  rw [nodeEntry_insertCounted hT]
  constructor
  · grind
  rintro (⟨rfl, rfl⟩ | h)
  · simp [freshEntry]
  · obtain ⟨c, hc, -⟩ := nodeEntry_eq_some.mp h
    have hne : E.node ≠ t.nextNode := (hT.lt_nextNode hc).ne
    rw [if_neg hne]
    exact h

/-- A new node is in no chain. -/
theorem nextNode_not_mem {b : ℕ} (hb : b < t.nBuckets) : t.nextNode ∉ ch b := by
  intro h
  obtain ⟨c, hc⟩ := (hT.isChain b hb).exists_cell h
  exact (hT.lt_nextNode hc).ne rfl

/-- The chains with the new node. -/
theorem isChain_insertCounted (n : Name) {b : ℕ} (hb : b < t.nBuckets) :
    IsChain (t.insertCounted n).nodes ((t.insertCounted n).bucket b) (t.insertedChain ch n b) := by
  rw [insertCounted_nodes hT]
  have hl := hT.location_lt (computeHash n)
  by_cases hbl : b = t.location (computeHash n)
  · subst hbl
    have hbucket : (t.insertCounted n).bucket (t.location (computeHash n)) =
        pushBackHead (t.bucket (t.location (computeHash n)))
          (lastOf none (ch (t.location (computeHash n)))) t.nextNode := by
      simp [insertCounted, insertNew, bucket, hT.buckets_length, hl, hT.chain_eq hl]
    rw [hbucket]
    simp only [insertedChain, Function.update_self]
    exact isChain_pushBack _ (hT.isChain _ hl) (hT.nodup _ hl) (nextNode_not_mem hT hl)
  · have hbucket : (t.insertCounted n).bucket b = t.bucket b := by
      simp [insertCounted, insertNew, bucket, Ne.symm hbl]
    rw [hbucket]
    simp only [insertedChain, Function.update_of_ne hbl]
    refine (hT.isChain b hb).congr fun m hm => ?_
    refine pushBack_of_ne _ _ (fun h => nextNode_not_mem hT hb (h ▸ hm)) fun h => ?_
    obtain ⟨l', hl'⟩ := exists_of_lastOf_none h
    grind [hT.chain_disjoint]

/-- The hash table stays in order with a new entry. -/
theorem tableInv_insertCounted (n : Name) :
    TableInv (t.insertCounted n) (t.insertedChain ch n) := by
  have hl := hT.location_lt (computeHash n)
  constructor
  · exact hT.pos
  · simpa [insertCounted, insertNew] using hT.buckets_length
  · intro b hb
    exact isChain_insertCounted hT n hb
  · intro b hb
    by_cases hbl : b = t.location (computeHash n)
    · subst hbl
      simp only [insertedChain, Function.update_self]
      refine List.nodup_append.mpr ⟨hT.nodup _ hl, by simp, ?_⟩
      grind [nextNode_not_mem]
    · simpa [insertedChain, Function.update_of_ne hbl] using hT.nodup b hb
  · intro b hb m
    have hb' : b < t.nBuckets := hb
    have hloc : ∀ h, (t.insertCounted n).location h = t.location h := fun h => rfl
    rw [nodeEntry_insertCounted hT]
    by_cases hm : m = t.nextNode
    · subst hm
      by_cases hbl : b = t.location (computeHash n)
      · subst hbl
        simp [insertedChain, hloc, freshEntry]
      · have := nextNode_not_mem hT hb'
        simp [insertedChain, Function.update_of_ne hbl, this, hloc, freshEntry, Ne.symm hbl]
    · have hmem : m ∈ t.insertedChain ch n b ↔ m ∈ ch b := by
        by_cases hbl : b = t.location (computeHash n) <;> simp_all [insertedChain]
      rw [hmem, if_neg hm, hT.mem_chain b hb' m]
      simp only [hloc]
  · intro m hm
    have hm' : t.nextNode + 1 ≤ m := hm
    have hpay := insertCounted_payload t n (Nat.lt_of_succ_le hm').ne'
    rw [hT.node_fresh m (Nat.le_of_succ_le hm')] at hpay
    simpa using hpay
  · intro e he
    have he' : t.nextEntry + 1 ≤ e := he
    grind [insertCounted_entries_of_ne, hT.entry_fresh]
  · intro m c hc
    have hentry := nodeEntry_insertCounted hT n m
    by_cases hm : m = t.nextNode
    · subst hm
      rw [if_pos rfl] at hentry
      obtain ⟨c', hc', hpay, hE⟩ := nodeEntry_eq_some.mp hentry
      rw [hc] at hc'
      cases hc'
      exact ⟨_, hpay ▸ hE, rfl⟩
    have hpay := insertCounted_payload t n hm
    rw [hc] at hpay
    obtain ⟨c₀, hc₀, hpay₀⟩ := Option.map_eq_some_iff.mp hpay.symm
    obtain ⟨E, hE, hnode⟩ := hT.entry_node m c₀ hc₀
    refine ⟨E, ?_, hnode⟩
    rw [← hpay₀, insertCounted_entries_of_ne t n (hT.lt_nextEntry hE).ne]
    exact hE
  · -- exactly one more node is allocated
    have hfilter : ((Finset.range (t.nextNode + 1)).filter fun m =>
        ((t.insertCounted n).nodes m).isSome) =
        Insert.insert t.nextNode
          ((Finset.range t.nextNode).filter fun m => (t.nodes m).isSome) := by
      grind [insertCounted_payload_self, insertCounted_payload, Option.isSome_map]
    have hcard : (Insert.insert t.nextNode
        ((Finset.range t.nextNode).filter fun m => (t.nodes m).isSome)).card = t.nItems + 1 := by
      rw [Finset.card_insert_of_notMem (by simp), hT.nItems_eq]
    calc (t.insertCounted n).nItems = t.nItems + 1 := rfl
      _ = _ := hcard.symm
      _ = _ := by rw [← hfilter]; rfl

end

/-! ### Hanging the new entry under its parent -/

/-- How an existing entry looks after `e` has become a child of `parent`. -/
def withChild (parent : Option EntryId) (e p : EntryId) (P : Entry) : Entry :=
  if parent = some p then { P with children := P.children ++ [e] } else P

/-- Only the children change. -/
@[simp] theorem withChild_fields (parent : Option EntryId) (e p : EntryId) (P : Entry) :
    let P' := withChild parent e p P
    P'.node = P.node ∧ P'.hash = P.hash ∧ P'.namePrefix = P.namePrefix ∧ P'.parent = P.parent ∧
      P'.attached = P.attached := by
  unfold withChild
  split_ifs <;> simp

/-- The table after the new entry of `n` has been created under `parent`. -/
def insertUnder (t : NameTree) (n : Name) (parent : Option EntryId) : NameTree :=
  (t.insertNew n).attachNew t.nextEntry parent

/-- A new entry is put into the table, and under its parent. -/
theorem insertUnder_eq (t : NameTree) (n : Name) (parent : Option EntryId) :
    t.insertUnder n parent = match parent with
      | none => (t.insertCounted n).modifyEntry t.nextEntry fun E => { E with parent := parent }
      | some p =>
          ((t.insertCounted n).modifyEntry t.nextEntry fun E =>
            { E with parent := parent }).modifyEntry p
            fun P => { P with children := P.children ++ [t.nextEntry] } := by
  cases parent <;> rfl

/-- The hash table stays in order with a new entry under its parent. -/
theorem tableInv_insertUnder (hT : TableInv t ch) (n : Name) (parent : Option EntryId) :
    TableInv (t.insertUnder n parent) (t.insertedChain ch n) := by
  rw [insertUnder_eq]
  have h₁ := tableInv_modifyEntry (p := t.nextEntry) (f := fun E => { E with parent := parent })
    (tableInv_insertCounted hT n) (fun _ => rfl) (fun _ => rfl)
  cases parent with
  | none => exact h₁
  | some p => exact tableInv_modifyEntry h₁ (fun _ => rfl) (fun _ => rfl)

/-- The live entries with a new one under its parent. -/
theorem live_insertUnder (hT : TableInv t ch) (n : Name)
    (hparent : ∀ p, parent = some p → p ≠ t.nextEntry) :
    (t.insertUnder n parent).Live e E' ↔ (e = t.nextEntry ∧ E' = t.freshEntry n parent) ∨
        ∃ E, t.Live e E ∧ E' = withChild parent t.nextEntry e E := by
  have hfirst : ∀ (e : EntryId) (E' : Entry),
      ((t.insertCounted n).modifyEntry t.nextEntry fun E => { E with parent := parent }).Live e E' ↔
        (e = t.nextEntry ∧ E' = t.freshEntry n parent) ∨ t.Live e E' := by
    intro e E'
    rw [live_modifyEntry (f := fun E => { E with parent := parent }) fun _ => rfl]
    constructor
    · rintro ⟨E, hE, rfl⟩
      rcases (live_insertCounted hT n).mp hE with ⟨rfl, rfl⟩ | hlive
      · exact Or.inl ⟨rfl, by simp [freshEntry]⟩
      · have hne : e ≠ t.nextEntry := (hT.lt_nextEntry hlive.entry).ne
        exact Or.inr (by simpa [hne] using hlive)
    rintro (⟨rfl, rfl⟩ | hlive)
    · refine ⟨t.freshEntry n none, ?_, by simp [freshEntry]⟩
      exact (live_insertCounted hT n).mpr (Or.inl ⟨rfl, rfl⟩)
    · have hne : e ≠ t.nextEntry := (hT.lt_nextEntry hlive.entry).ne
      exact ⟨E', (live_insertCounted hT n).mpr (Or.inr hlive), by simp [hne]⟩
  rw [insertUnder_eq]
  rcases parent with _ | p
  · rw [hfirst e E']
    simp [withChild]
  have hp : p ≠ t.nextEntry := hparent p rfl
  rw [live_modifyEntry (f := fun P => { P with children := P.children ++ [t.nextEntry] })
    fun _ => rfl]
  constructor
  · grind [withChild]
  · rintro (⟨rfl, rfl⟩ | ⟨E, hlive, rfl⟩)
    · exact ⟨_, (hfirst _ _).mpr (Or.inl ⟨rfl, rfl⟩), by simp [Ne.symm hp]⟩
    · grind [withChild]

/-- The parent a new entry is hung under: none for the root, otherwise the entry of the name
without its last component. -/
def ParentOf (t : NameTree) (parent : Option EntryId) (n : Name) : Prop :=
  (n = [] ∧ parent = none) ∨
    (n ≠ [] ∧ ∃ p P, parent = some p ∧ t.Live p P ∧ P.namePrefix = n.dropLast)

/-- The tree stays in order with a new entry under its parent. -/
theorem treeInv_insertUnder (hT : TableInv t ch) (htree : TreeInv t) (hpar : ParentOf t parent n)
    (hnew : ¬ t.LiveName n) : TreeInv (t.insertUnder n parent) := by
  have hparent : ∀ p, parent = some p → p ≠ t.nextEntry := by
    rintro p rfl
    rcases hpar with ⟨-, h⟩ | ⟨-, q, Q, hq, hlive, -⟩
    · cases h
    · cases hq
      exact (hT.lt_nextEntry hlive.entry).ne
  have hcases : ∀ e E', (t.insertUnder n parent).Live e E' ↔
      (e = t.nextEntry ∧ E' = t.freshEntry n parent) ∨
        ∃ E, t.Live e E ∧ E' = withChild parent t.nextEntry e E :=
    fun e E' => live_insertUnder hT n hparent
  have hold : ∀ {e E}, t.Live e E →
      (t.insertUnder n parent).Live e (withChild parent t.nextEntry e E) :=
    fun hlive => (hcases _ _).mpr (Or.inr ⟨_, hlive, rfl⟩)
  have hfresh : (t.insertUnder n parent).Live t.nextEntry (t.freshEntry n parent) :=
    (hcases _ _).mpr (Or.inl ⟨rfl, rfl⟩)
  constructor
  · intro e E' h
    rcases (hcases _ _).mp h with ⟨rfl, rfl⟩ | ⟨E, hlive, rfl⟩
    · rfl
    · simpa using htree.hash_eq e E hlive
  · intro e E₁ e' E₂ h₁ h₂ hname
    rcases (hcases _ _).mp h₁ with ⟨rfl, rfl⟩ | ⟨E, hlive, rfl⟩ <;>
      rcases (hcases _ _).mp h₂ with ⟨rfl, rfl⟩ | ⟨E', hlive', rfl⟩
    · rfl
    · exact absurd ⟨e', E', hlive', by simpa [freshEntry] using hname.symm⟩ hnew
    · exact absurd ⟨e, E, hlive, by simpa [freshEntry] using hname⟩ hnew
    · exact htree.unique e E e' E' hlive hlive' (by simpa using hname)
  · intro e E' h hroot
    rcases (hcases _ _).mp h with ⟨rfl, rfl⟩ | ⟨E, hlive, rfl⟩
    · rcases hpar with ⟨-, hp⟩ | ⟨hne, -⟩
      · exact hp
      · exact absurd hroot hne
    · simpa using htree.root e E hlive (by simpa using hroot)
  · intro e E' h hne
    rcases (hcases _ _).mp h with ⟨rfl, rfl⟩ | ⟨E, hlive, rfl⟩
    · rcases hpar with ⟨hroot, -⟩ | ⟨-, p, P, hp, hlive, hname⟩
      · exact absurd hroot hne
      · exact ⟨p, _, hp, hold hlive, by simpa [freshEntry] using hname⟩
    · obtain ⟨p, P, hp, hlive', hname⟩ := htree.parent e E hlive (by simpa using hne)
      exact ⟨p, _, by simpa using hp, hold hlive', by simpa using hname⟩
  · intro p P' h c hc
    rcases (hcases _ _).mp h with ⟨rfl, rfl⟩ | ⟨P, hlive, rfl⟩
    · simp [freshEntry] at hc
    by_cases hp : parent = some p
    · have hc' : c ∈ P.children ∨ c = t.nextEntry := by
        simpa [withChild, hp] using hc
      rcases hc' with hc' | rfl
      · obtain ⟨C, hliveC, hparC⟩ := htree.child p P hlive c hc'
        exact ⟨_, hold hliveC, by simpa using hparC⟩
      · exact ⟨_, hfresh, hp⟩
    · grind [withChild, htree.child]
  · intro e E' p P' h hp hep
    rcases (hcases _ _).mp hp with ⟨rfl, rfl⟩ | ⟨P, hliveP, rfl⟩
    · -- nothing has the new entry as its parent
      rcases (hcases _ _).mp h with ⟨rfl, rfl⟩ | ⟨E, hlive, rfl⟩
      · exact absurd rfl (hparent _ hep)
      have hep' : E.parent = some t.nextEntry := by simpa using hep
      have hne : E.namePrefix ≠ [] := fun hroot => by
        rw [htree.root e E hlive hroot] at hep'
        cases hep'
      obtain ⟨q, Q, hq, hliveQ, -⟩ := htree.parent e E hlive hne
      rw [hep'] at hq
      cases hq
      exact absurd rfl (hT.lt_nextEntry hliveQ.entry).ne
    · rcases (hcases _ _).mp h with ⟨rfl, rfl⟩ | ⟨E, hlive, rfl⟩
      · have hpp : parent = some p := hep
        simp [withChild, hpp]
      grind [htree.mem_children, withChild]
  · intro p P' h
    rcases (hcases _ _).mp h with ⟨rfl, rfl⟩ | ⟨P, hlive, rfl⟩
    · simp [freshEntry]
    have hnd := htree.children_nodup p P hlive
    unfold withChild
    split_ifs
    · refine List.nodup_append.mpr ⟨hnd, by simp, ?_⟩
      intro c hc c' hc' heq
      obtain ⟨C, hliveC, -⟩ := htree.child p P hlive c hc
      have : c' = t.nextEntry := by simpa using hc'
      exact (hT.lt_nextEntry hliveC.entry).ne (heq.trans this)
    · exact hnd

/-! ### One pass of the loop of `lookup` -/

/-- What a name tree operation may do to the stored entries: they stay, under their names and
with their attachments, and whatever is new has nothing attached. -/
structure Extends (t t' : NameTree) : Prop where
  keep : ∀ e E, t.Live e E → ∃ E', t'.Live e E' ∧ E'.namePrefix = E.namePrefix ∧
    E'.attached = E.attached
  new : ∀ e E', t'.Live e E' → (∃ E, t.Live e E ∧ E'.namePrefix = E.namePrefix ∧
    E'.attached = E.attached) ∨ E'.attached = Attachments.empty

/-- Nothing is added. -/
theorem Extends.refl (t : NameTree) : Extends t t :=
  ⟨fun _ E h => ⟨E, h, rfl, rfl⟩, fun _ E' h => Or.inl ⟨E', h, rfl, rfl⟩⟩

/-- More is added. -/
theorem Extends.trans {t₁ t₂ t₃ : NameTree} (h₁ : Extends t₁ t₂) (h₂ : Extends t₂ t₃) :
    Extends t₁ t₃ := by
  constructor <;> grind [h₁.keep, h₂.keep, h₂.new, h₁.new]

/-- Another number of buckets adds nothing. -/
theorem extends_resize (hT : TableInv t ch) {newNBuckets : ℕ} (hpos : 0 < newNBuckets) :
    Extends t (t.resize newNBuckets) :=
  ⟨fun e E h => ⟨E, (live_resize hT hpos e E).mpr h, rfl, rfl⟩,
    fun e E h => Or.inl ⟨E, (live_resize hT hpos e E).mp h, rfl, rfl⟩⟩

/-- The entry of a name is found, or made. -/
theorem insertChild_cases (hT : TableInv t ch) (htree : TreeInv t)
    (parent : Option EntryId) (hok : InsertOk t n) :
    (∃ e E, t.Live e E ∧ E.namePrefix = n ∧ t.insertChild parent n = (t, e)) ∨
      (¬ t.LiveName n ∧ t.insertChild parent n = (t.insertUnder n parent, t.nextEntry)) := by
  unfold insertChild NameTree.insert
  cases hscan : t.scan (t.location (computeHash n)) fun E => Name.equals n E.namePrefix with
  | some e =>
    obtain ⟨E, -, -, hlive, htest, hloc, -, -⟩ := hT.scan_eq_some (hT.location_lt _) hscan
    have hname := hT.forallLive_iff.mp hok e E hlive hloc (Name.equals_iff.mp htest)
    exact Or.inl ⟨e, E, hlive, hname, rfl⟩
  | none =>
    refine Or.inr ⟨?_, rfl⟩
    rintro ⟨e, E, hlive, rfl⟩
    have := (hT.scan_eq_none (hT.location_lt _)).mp hscan e E hlive
      (by rw [htree.hash_eq e E hlive])
    simp at this

/-- One pass of the loop, without the resize: the invariant holds, the entry of the prefix is
live and nothing stored is lost. -/
theorem insertChild_spec (h : Inv t) (hpar : ParentOf t parent n) (hok : InsertOk t n) :
    Inv (t.insertChild parent n).1 ∧ Extends t (t.insertChild parent n).1 ∧
      ∃ E, (t.insertChild parent n).1.Live (t.insertChild parent n).2 E ∧ E.namePrefix = n := by
  obtain ⟨⟨ch, hT⟩, htree⟩ := h
  rcases insertChild_cases hT htree parent hok with ⟨e, E, hlive, hname, heq⟩ | ⟨hnew, heq⟩
  · rw [heq]
    exact ⟨⟨⟨ch, hT⟩, htree⟩, Extends.refl t, E, hlive, hname⟩
  rw [heq]
  have hparent : ∀ p, parent = some p → p ≠ t.nextEntry := by
    rintro p rfl
    rcases hpar with ⟨-, h⟩ | ⟨-, q, Q, hq, hlive, -⟩
    · cases h
    · cases hq
      exact (hT.lt_nextEntry hlive.entry).ne
  refine ⟨⟨⟨_, tableInv_insertUnder hT n parent⟩, treeInv_insertUnder hT htree hpar hnew⟩,
    ⟨?_, ?_⟩, t.freshEntry n parent, ?_, rfl⟩
  · intro e E hlive
    exact ⟨_, (live_insertUnder hT n hparent).mpr (Or.inr ⟨E, hlive, rfl⟩), by simp, by simp⟩
  · intro e E' hlive'
    rcases (live_insertUnder hT n hparent).mp hlive' with ⟨rfl, rfl⟩ | ⟨E, hlive, rfl⟩
    · exact Or.inr rfl
    · exact Or.inl ⟨E, hlive, by simp, by simp⟩
  · exact (live_insertUnder hT n hparent).mpr (Or.inl ⟨rfl, rfl⟩)

end IcnDemo.NameTree
