import IcnDemo.NameTree.Find

/-!
# The order of the entries with one hash

A new entry goes to the end of its chain, and a resize moves the nodes of every chain in their
order.  Two entries with the same hash are therefore scanned in the same order after a lookup as
before it, so that a search on a name arrives at the same entry.
-/

namespace IcnDemo.NameTree

variable {t t' t'' : NameTree} {ch : ℕ → List NodeId}

/-- An earlier index comes first. -/
theorem pair_sublist_of_idxOf_lt {l : List NodeId} {a b : NodeId} (hb : b ∈ l)
    (hlt : l.idxOf a < l.idxOf b) : [a, b].Sublist l := by
  induction l with
  | nil => cases hb
  | cons x l ih =>
    by_cases hxa : x = a
    · grind
    have hxb : x ≠ b := by
      rintro rfl
      rw [List.idxOf_cons_self] at hlt
      cases hlt
    grind

/-- What comes first has an earlier index. -/
theorem idxOf_lt_of_pair_sublist {l : List NodeId} (hnodup : l.Nodup) {a b : NodeId}
    (hsub : [a, b].Sublist l) : l.idxOf a < l.idxOf b := by
  obtain ⟨l₁, l₂, rfl, ha, hb⟩ := List.cons_sublist_iff.mp hsub
  grind

/-- The stored entries keep their nodes and hashes, and those with one hash their order. -/
structure KeepsOrder (t t' : NameTree) : Prop where
  node : ∀ e E, t.Live e E → ∃ E', t'.Live e E' ∧ E'.node = E.node ∧ E'.hash = E.hash
  order : ∀ e E f F, t.Live e E → t.Live f F → E.hash = F.hash →
    [E.node, F.node].Sublist (t.chain (t.location E.hash)) →
      [E.node, F.node].Sublist (t'.chain (t'.location E.hash))

/-- The order is kept if nothing changes. -/
theorem KeepsOrder.refl (t : NameTree) : KeepsOrder t t :=
  ⟨fun _ E hE => ⟨E, hE, rfl, rfl⟩, fun _ _ _ _ _ _ _ h => h⟩

/-- The order is kept further. -/
theorem KeepsOrder.trans (h : KeepsOrder t t') (h' : KeepsOrder t' t'') : KeepsOrder t t'' := by
  constructor
  · grind [h.node, h'.node]
  intro e E f F hE hF heq hsub
  grind [h.node, h.order, h'.order]

/-- A new entry keeps the order of the others. -/
theorem keepsOrder_insertUnder (hT : TableInv t ch) (n : Name) {parent : Option EntryId}
    (hparent : ∀ p, parent = some p → p ≠ t.nextEntry) : KeepsOrder t (t.insertUnder n parent) := by
  have hT' := tableInv_insertUnder hT n parent
  constructor
  · intro e E hE
    refine ⟨_, (live_insertUnder hT n hparent).mpr (.inr ⟨E, hE, rfl⟩), ?_, ?_⟩ <;> simp
  intro e E f F hE hF heq hsub
  have hloc : (t.insertUnder n parent).location E.hash = t.location E.hash := by
    rw [insertUnder_eq]
    cases parent <;> rfl
  have hlt := hT'.location_lt E.hash
  rw [hT'.chain_eq hlt, hloc]
  rw [hT.chain_eq (hT.location_lt E.hash)] at hsub
  unfold insertedChain
  by_cases hsame : t.location E.hash = t.location (computeHash n) <;> simp_all

/-- A safe resize keeps the order in the buckets. -/
theorem keepsOrder_resize (hT : TableInv t ch) {newNBuckets : ℕ} (hok : ResizeOk t newNBuckets) :
    KeepsOrder t (t.resize newNBuckets) := by
  have hT' := tableInv_resize hT hok
  have hagree := hT.forallLive_iff.mp hok.2
  constructor
  · intro e E hE
    exact ⟨E, (live_resize hT hok.1 e E).mpr hE, rfl, rfl⟩
  intro e E f F hE hF heq hsub
  have hb := hT.location_lt E.hash
  rw [hT'.chain_eq (hT'.location_lt E.hash)]
  rw [hT.chain_eq hb] at hsub
  have hold : (ch (t.location E.hash)).Sublist (oldOrder ch t.nBuckets) := by
    grind [oldOrder, List.sublist_flatten_of_mem]
  have hnew : ∀ x X, t.Live x X → X.hash = E.hash →
      (t.newLocation newNBuckets X.node == (t.resize newNBuckets).location E.hash) = true := by
    intro x X hX hhash
    rw [newLocation_eq newNBuckets hX, hagree x X hX, hhash, beq_iff_eq]
    rfl
  have hfilter := (hsub.trans hold).filter fun m =>
    t.newLocation newNBuckets m == (t.resize newNBuckets).location E.hash
  simp only [List.filter_cons, hnew e E hE rfl, hnew f F hF heq.symm, List.filter_nil,
    if_true] at hfilter
  exact hfilter

/-- A safe enlargement keeps the order in the buckets. -/
theorem keepsOrder_enlargeIfNeeded (hT : TableInv t ch) (hok : EnlargeOk t) :
    KeepsOrder t t.enlargeIfNeeded := by
  unfold enlargeIfNeeded
  split_ifs with hexceeds
  · exact keepsOrder_resize hT (hok hexceeds)
  · exact .refl t

/-- A lookup keeps the order of the entries. -/
theorem keepsOrder_lookupUpTo (h : Inv t) {n : Name} (hok : LookupOk t n) {i : ℕ}
    (hi : i ≤ n.length + 1) : KeepsOrder t (t.lookupUpTo n i).1 := by
  induction i with
  | zero => exact .refl t
  | succ i ih =>
    obtain ⟨hinv, -, hvar⟩ := lookupUpTo_spec h hok (Nat.le_of_succ_le hi)
    obtain ⟨hins, henl⟩ := hok i (by omega)
    obtain ⟨⟨ch, hT⟩, htree⟩ := hinv
    have hparent : ∀ p, (t.lookupUpTo n i).2 = some p → p ≠ (t.lookupUpTo n i).1.nextEntry :=
      fun p hp => LoopVar.ne_nextEntry hT hvar hp
    have hchild : ∃ ch', TableInv
          ((t.lookupUpTo n i).1.insertChild (t.lookupUpTo n i).2 (n.getPrefix i)).1 ch' ∧
        KeepsOrder (t.lookupUpTo n i).1
          ((t.lookupUpTo n i).1.insertChild (t.lookupUpTo n i).2 (n.getPrefix i)).1 := by
      rcases insertChild_cases hT htree (t.lookupUpTo n i).2 hins with
        ⟨e, E, -, -, heq⟩ | ⟨-, heq⟩
      · rw [heq]
        exact ⟨ch, hT, .refl _⟩
      · rw [heq]
        exact ⟨_, tableInv_insertUnder hT _ _, keepsOrder_insertUnder hT _ hparent⟩
    obtain ⟨ch', hT', hchild⟩ := hchild
    rw [lookupUpTo_succ]
    exact (ih (Nat.le_of_succ_le hi)).trans (hchild.trans (keepsOrder_enlargeIfNeeded hT' henl))

/-- What is scanned first stays so. -/
theorem KeepsOrder.scannedBefore (h : KeepsOrder t t') (hT : TableInv t ch) (hinv : Inv t')
    {e f : EntryId} {E F E' F' : Entry} (hE : t.Live e E) (hF : t.Live f F) (hE' : t'.Live e E')
    (hF' : t'.Live f F') {q : KeptName} (hbefore : ScannedBefore t q E F) :
    ScannedBefore t' q E' F' := by
  obtain ⟨⟨ch', hT'⟩, -⟩ := hinv
  obtain ⟨E₁, hE₁, hnodeE, hhashE⟩ := h.node e E hE
  obtain ⟨F₁, hF₁, hnodeF, hhashF⟩ := h.node f F hF
  rw [hE'.contents_eq hE₁, hF'.contents_eq hF₁]
  rcases hbefore with hdeep | ⟨heq, hprec⟩
  · left
    rwa [hhashE, hhashF]
  refine .inr ⟨by rw [hhashE, hhashF, heq], ?_⟩
  have hmem : F.node ∈ t.chain (t.location E.hash) := by
    rw [heq, hT.chain_eq (hT.location_lt F.hash)]
    exact hT.mem_chain_of_live hF
  have hsub := h.order e E f F hE hF heq (pair_sublist_of_idxOf_lt hmem hprec)
  have hnodup : (t'.chain (t'.location E.hash)).Nodup := by
    rw [hT'.chain_eq (hT'.location_lt E.hash)]
    exact hT'.nodup _ (hT'.location_lt E.hash)
  unfold Precedes
  rw [hnodeE, hnodeF, hhashE]
  exact idxOf_lt_of_pair_sublist hnodup hsub

/-- A selector that looks at the attachments only and does not select an entry without any. -/
structure ByAttachment (s : EntrySelector) : Prop where
  congr : ∀ E E', E.attached = E'.attached → s E = s E'
  empty : ∀ E, E.attached = Attachments.empty → s E = false

/-- The first candidate stays so after a lookup. -/
theorem firstCandidate_lookup (h : Inv t) {n : Name} (hok : LookupOk t n) {s : EntrySelector}
    (hs : ByAttachment s) {q : KeptName} {e : EntryId} {E : Entry} (hE : FirstCandidate t q s e E) :
    ∃ E', FirstCandidate (t.lookup n).1 q s e E' := by
  obtain ⟨hinv, hext, -⟩ := lookup_spec h hok
  obtain ⟨⟨ch, hT⟩, htree⟩ := h
  have horder : KeepsOrder t (t.lookup n).1 := keepsOrder_lookupUpTo ⟨⟨ch, hT⟩, htree⟩ hok le_rfl
  have hhash : ∀ x X X', t.Live x X → (t.lookup n).1.Live x X' →
      X'.namePrefix = X.namePrefix → X'.hash = X.hash := by
    intro x X X' hX hX' hname
    rw [hinv.2.hash_eq x X' hX', htree.hash_eq x X hX, hname]
  obtain ⟨E', hE', hname, hatt⟩ := hext.keep e E hE.live
  refine ⟨E', ⟨hE', by rw [hname]; exact hE.isPrefix, (hs.congr E' E hatt).trans hE.selected, ?_⟩,
    ?_⟩
  · rw [hhash e E E' hE.live hE' hname]
    exact hE.hash_mem
  intro f F' hF' hne
  rcases hext.new f F' hF'.live with ⟨F, hF, hnameF, hattF⟩ | hempty
  · refine horder.scannedBefore hT hinv hE.live hF hE' hF'.live (hE.first f F ⟨hF, ?_, ?_, ?_⟩ hne)
    · rw [← hnameF]
      exact hF'.isPrefix
    · exact (hs.congr F' F hattF).symm.trans hF'.selected
    · rw [← hhash f F F' hF hF'.live hnameF]
      exact hF'.hash_mem
  · have hfalse := hF'.selected
    rw [hs.empty F' hempty] at hfalse
    cases hfalse

end IcnDemo.NameTree
