import IcnDemo.NameTree.Erase

/-!
# Runs of the name tree

A run is a sequence of lookups and erasures, interleaved with changes to what the other tables
have attached.  `RunOk` collects the conditions under which no step of a run meets one of the
two defects of the table: a resize that moves an entry to the bucket of its narrowed hash, and
a lookup that takes a name with the same bytes but other component types for its own.
`wellFormed_of_runOk` is the result: in every state of such a run the table is what it is meant
to be.  `lookup_lost_by_resize` shows a run of one lookup, in a table with three buckets, after
which the entry just created cannot be found.
-/

namespace IcnDemo.NameTree

open LinkedChain

variable {t : NameTree} {ch : ℕ → List NodeId}

/-! ### Lookup -/

/-- The state of `lookup` before it processes the prefix with `i` components. -/
def lookupUpTo (t : NameTree) (n : Name) (i : ℕ) : NameTree × Option EntryId :=
  (List.range i).foldl (lookupStep n) (t, none)

theorem lookup_eq (t : NameTree) (n : Name) : t.lookup n = t.lookupUpTo n (n.length + 1) := rfl

/-- One turn of the loop. -/
theorem lookupUpTo_succ (t : NameTree) (n : Name) (i : ℕ) :
    t.lookupUpTo n (i + 1) = lookupStep n (t.lookupUpTo n i) i := by
  simp [lookupUpTo, List.range_succ]

/-- The enlargement that may follow an insertion is safe. -/
def EnlargeOk (t : NameTree) : Prop :=
  t.enlargeThreshold < t.nItems → ResizeOk t (2 * t.nBuckets % 2 ^ 64)

instance (t : NameTree) : Decidable (EnlargeOk t) :=
  inferInstanceAs (Decidable (_ → _))

/-- Every insertion and every resize that `lookup` performs is safe. -/
def LookupOk (t : NameTree) (n : Name) : Prop :=
  ∀ i ≤ n.length, InsertOk (t.lookupUpTo n i).1 (n.getPrefix i) ∧
      EnlargeOk ((t.lookupUpTo n i).1.insertChild (t.lookupUpTo n i).2 (n.getPrefix i)).1

instance (t : NameTree) (n : Name) : Decidable (LookupOk t n) :=
  inferInstanceAs (Decidable (∀ i ≤ n.length, _ ∧ _))

/-- A safe enlargement keeps the invariant and the entries. -/
theorem enlargeIfNeeded_spec (h : Inv t) (hok : EnlargeOk t) :
    Inv t.enlargeIfNeeded ∧ Extends t t.enlargeIfNeeded ∧
      ∀ e E, t.enlargeIfNeeded.Live e E ↔ t.Live e E := by
  unfold enlargeIfNeeded
  split_ifs with hcond
  · have hr := hok hcond
    obtain ⟨⟨ch, hT⟩, -⟩ := id h
    exact ⟨inv_resize h hr, extends_resize hT hr.1, live_resize hT hr.1⟩
  · exact ⟨h, Extends.refl t, fun _ _ => Iff.rfl⟩

/-- The variable `parent` of the loop of `lookup`: the entry of the prefix processed last. -/
def LoopVar (t : NameTree) (n : Name) (i : ℕ) (parent : Option EntryId) : Prop :=
  i = 0 ∧ parent = none ∨
    ∃ p P, parent = some p ∧ t.Live p P ∧ P.namePrefix = n.take (i - 1) ∧ 0 < i

variable {n : Name} {i : ℕ}

/-- The loop variable is the parent of the next prefix. -/
theorem LoopVar.parentOf {parent : Option EntryId}
    (h : LoopVar t n i parent) (hi : i ≤ n.length) : ParentOf t parent (n.getPrefix i) := by
  rcases h with ⟨rfl, hnone⟩ | ⟨p, P, hp, hP, hname, hpos⟩
  · exact Or.inl ⟨rfl, hnone⟩
  · refine Or.inr ⟨?_, p, P, hp, hP, ?_⟩
    all_goals grind [Name.getPrefix, List.length_nil, Name.dropLast_take]

/-- The loop variable is an old entry. -/
theorem LoopVar.ne_nextEntry (hT : TableInv t ch) {parent : Option EntryId}
    (h : LoopVar t n i parent) {p : EntryId} (hp : parent = some p) : p ≠ t.nextEntry := by
  rcases h with ⟨-, hnone⟩ | ⟨q, Q, hq, hQ, -⟩
  · rw [hnone] at hp
    cases hp
  · rw [hp] at hq
    cases hq
    exact (hT.lt_nextEntry hQ.entry).ne

/-- The loop keeps the invariant and adds prefixes. -/
theorem lookupUpTo_spec (h : Inv t) (hok : LookupOk t n) (hi : i ≤ n.length + 1) :
    Inv (t.lookupUpTo n i).1 ∧ Extends t (t.lookupUpTo n i).1 ∧
      LoopVar (t.lookupUpTo n i).1 n i (t.lookupUpTo n i).2 := by
  induction i with
  | zero => exact ⟨h, Extends.refl t, Or.inl ⟨rfl, rfl⟩⟩
  | succ i ih =>
    obtain ⟨hinv, hext, hvar⟩ := ih (by omega)
    obtain ⟨hins, henl⟩ := hok i (by omega)
    obtain ⟨hinv', hext', E, hE, hname⟩ :=
      insertChild_spec hinv (hvar.parentOf (by omega)) hins
    obtain ⟨hinv'', hext'', hlive⟩ := enlargeIfNeeded_spec hinv' henl
    rw [lookupUpTo_succ]
    refine ⟨hinv'', hext.trans (hext'.trans hext''), Or.inr ⟨_, E, rfl, ?_, ?_, by omega⟩⟩
    · exact (hlive _ _).mpr hE
    · simpa [Name.getPrefix] using hname

/-- A lookup keeps the invariant and returns the entry of the name. -/
theorem lookup_spec (h : Inv t) (hok : LookupOk t n) :
    Inv (t.lookup n).1 ∧ Extends t (t.lookup n).1 ∧
      ∃ e E, (t.lookup n).2 = some e ∧ (t.lookup n).1.Live e E ∧ E.namePrefix = n := by
  obtain ⟨hinv, hext, hvar⟩ := lookupUpTo_spec h hok le_rfl
  rw [lookup_eq]
  refine ⟨hinv, hext, ?_⟩
  rcases hvar with ⟨h0, -⟩ | ⟨e, E, he, hE, hname, -⟩
  · omega
  · exact ⟨e, E, he, hE, by simpa using hname⟩

/-! ### Runs -/

/-- The operations of a run. -/
inductive Op where
  | lookup (n : Name)
  | eraseEntryIfEmpty (e : EntryId)
  | attach (e : EntryId) (a : Attachments)

/-- The effect of an operation. -/
def apply (t : NameTree) : Op → NameTree
  | .lookup n => (t.lookup n).1
  | .eraseEntryIfEmpty e => (t.eraseEntryIfEmpty e).1
  | .attach e a => t.modifyAttached e fun _ => a

/-- The state after a run. -/
def run (t : NameTree) (ops : List Op) : NameTree :=
  ops.foldl apply t

/-- The condition on one operation.  An entry is erased by a pointer to a stored entry, as all
callers do. -/
def OpOk (t : NameTree) : Op → Prop
  | .lookup n => LookupOk t n
  | .eraseEntryIfEmpty e => ∃ E ∈ t.entries e, t.Live e E ∧ EraseOk (E.namePrefix.length + 1) t e
  | .attach _ _ => True

instance (t : NameTree) : ∀ op, Decidable (OpOk t op)
  | .lookup n => inferInstanceAs (Decidable (LookupOk t n))
  | .eraseEntryIfEmpty e => inferInstanceAs (Decidable (∃ E ∈ t.entries e,
      t.nodeEntry E.node = some (e, E) ∧ EraseOk (E.namePrefix.length + 1) t e))
  | .attach _ _ => isTrue trivial

/-- The condition on a run: every operation meets the condition in the state before it. -/
def RunOk : NameTree → List Op → Prop
  | _, [] => True
  | t, op :: ops => OpOk t op ∧ RunOk (t.apply op) ops

instance decidableRunOk : ∀ t ops, Decidable (RunOk t ops)
  | _, [] => isTrue trivial
  | t, op :: ops =>
      have := decidableRunOk (t.apply op) ops
      inferInstanceAs (Decidable (OpOk t op ∧ RunOk (t.apply op) ops))

/-- `eraseEntryIfEmpty` keeps the invariant and prunes the tree. -/
theorem eraseEntryIfEmpty_spec (h : Inv t) {e : EntryId} {E : Entry} (hE : t.Live e E)
    (hok : EraseOk (E.namePrefix.length + 1) t e) :
    Inv (t.eraseEntryIfEmpty e).1 ∧ Prunes t (t.eraseEntryIfEmpty e).1 := by
  unfold eraseEntryIfEmpty
  simp only [hE.entry]
  exact eraseUp_spec h hE (Nat.lt_succ_self _) hok

/-- A safe operation keeps the invariant. -/
theorem inv_apply (h : Inv t) {op : Op} (hok : OpOk t op) : Inv (t.apply op) := by
  cases op with
  | lookup n => exact (lookup_spec h hok).1
  | eraseEntryIfEmpty e =>
    obtain ⟨E, -, hE, hok⟩ := hok
    exact (eraseEntryIfEmpty_spec h hE hok).1
  | attach e a => exact inv_modifyAttached h e fun _ => a

/-- A safe run keeps the invariant. -/
theorem inv_run {ops : List Op} : ∀ {t : NameTree}, Inv t → RunOk t ops → Inv (t.run ops) := by
  induction ops with
  | nil =>
    intro t h _
    exact h
  | cons op ops ih =>
    intro t h hok
    exact ih (inv_apply h hok.1) hok.2

/-! ### What the invariant says -/

/-- No live entry has the hash and the bytes of `q` but other component types. -/
def NoTwin (t : NameTree) (q : KeptName) : Prop :=
  t.ForallLive fun E =>
    E.hash = computeHash q → Name.SameValues q.name E.namePrefix → E.namePrefix = q.name

instance (t : NameTree) (q : KeptName) : Decidable (NoTwin t q) :=
  inferInstanceAs (Decidable (t.ForallLive _))

/-- After a lookup its name is in the tree. -/
theorem noTwin_lookup (h : Inv t) (hok : LookupOk t n) : NoTwin (t.lookup n).1 n := by
  obtain ⟨⟨⟨ch', hT'⟩, -⟩, -, -⟩ := lookup_spec h hok
  obtain ⟨hinv, -, hvar⟩ := lookupUpTo_spec h hok (Nat.le_succ n.length)
  obtain ⟨hins, henl⟩ := hok n.length le_rfl
  obtain ⟨hinv', -, -⟩ := insertChild_spec hinv (hvar.parentOf le_rfl) hins
  obtain ⟨-, -, hlive⟩ := enlargeIfNeeded_spec hinv' henl
  have hself : n.getPrefix n.length = n := List.take_length
  have hcases := insertChild_cases hinv.1.choose_spec hinv.2 (t.lookupUpTo n n.length).2 hins
  rw [hself] at hins hlive hcases
  have hold : ∀ e E, (t.lookupUpTo n n.length).1.Live e E → E.hash = computeHash n →
      Name.SameValues n E.namePrefix → E.namePrefix = n := by
    intro e E hE hhash hval
    exact hinv.1.choose_spec.forallLive_iff.mp hins e E hE (by rw [hhash]) hval
  refine hT'.forallLive_iff.mpr ?_
  intro e E' hE' hhash hval
  rw [lookup_eq, lookupUpTo_succ, lookupStep, hself] at hE'
  have hE' := (hlive e E').mp hE'
  rcases hcases with ⟨_, _, -, -, heq⟩ | ⟨-, heq⟩
  · rw [heq] at hE'
    exact hold e E' hE' hhash hval
  rw [heq] at hE'
  have hparent : ∀ p, (t.lookupUpTo n n.length).2 = some p →
      p ≠ (t.lookupUpTo n n.length).1.nextEntry := by
    intro p hp
    exact LoopVar.ne_nextEntry hinv.1.choose_spec hvar hp
  rcases (live_insertUnder hinv.1.choose_spec n hparent).mp hE' with ⟨-, rfl⟩ | ⟨E, hE, rfl⟩
  · rfl
  · simp only [withChild_fields] at hhash hval ⊢
    exact hold e E hE hhash hval

/-- A name tree that is what it is meant to be. -/
structure WellFormed (t : NameTree) : Prop where
  /-- Each live entry is the entry of exactly one node. -/
  one_node : ∀ e E, t.Live e E → ∀ n, (∃ c, t.nodes n = some c ∧ c.payload = e) ↔ n = E.node
  /-- That node occurs exactly once, in the chain of the full hash. -/
  placed : ∀ e E, t.Live e E → ∀ b < t.nBuckets,
    (t.chain b).count E.node = if b = E.hash.toNat % t.nBuckets then 1 else 0
  /-- Neighbouring nodes point at each other, and only the head of a bucket has no
  predecessor. -/
  links : ∀ e E, t.Live e E → ∃ c, t.nodes E.node = some c ∧
    (∀ m, c.next = some m → ∃ d, t.nodes m = some d ∧ d.prev = some E.node) ∧
      (∀ m, c.prev = some m → ∃ d, t.nodes m = some d ∧ d.next = some E.node) ∧
        (c.prev = none ↔ t.bucket (E.hash.toNat % t.nBuckets) = some E.node)
  /-- Exact matching finds the live names and nothing else, whatever octets it is given, if they
  have the hash of the shortest form. -/
  exactMatch : ∀ q : KeptName, q.SameHash → NoTwin t q → ∀ e,
    t.findExactMatch q = some e ↔ ∃ E, t.Live e E ∧ E.namePrefix = q.name
  /-- The counter counts the live entries. -/
  count : ∃ S : Finset EntryId, (∀ e, e ∈ S ↔ ∃ E, t.Live e E) ∧ t.nItems = S.card
  /-- The live names are closed under prefixes. -/
  closed : ∀ n, t.LiveName n → ∀ m, m <+: n → t.LiveName m
  /-- The root has no parent; every other entry is listed once by the entry of its name without
  the last component. -/
  parent : ∀ e E, t.Live e E → (E.namePrefix = [] ∧ E.parent = none) ∨
      (E.namePrefix ≠ [] ∧ ∃ p P, E.parent = some p ∧ t.Live p P ∧
        P.namePrefix = E.namePrefix.dropLast ∧ P.children.count e = 1)

/-- An entry is once among the children of its parent. -/
theorem TreeInv.count_children (h : TreeInv t) {e p : EntryId} {E P : Entry} (hE : t.Live e E)
    (hP : t.Live p P) (hpar : E.parent = some p) : P.children.count e = 1 :=
  List.count_eq_one_of_mem (h.children_nodup p P hP) (h.mem_children e E p P hE hP hpar)

/-- The prefixes of a name are in the tree. -/
theorem TreeInv.liveName_take (h : TreeInv t) (hn : t.LiveName n) (i : ℕ) :
    t.LiveName (n.take i) := by
  induction hk : n.length - i generalizing i with
  | zero =>
    rw [List.take_of_length_le (by omega)]
    exact hn
  | succ k ih =>
    obtain ⟨e, E, hE, hname⟩ := ih (i + 1) (by omega)
    have hne : E.namePrefix ≠ [] := by
      rw [hname]
      grind [List.length_nil]
    obtain ⟨p, P, -, hP, hPname⟩ := h.parent e E hE hne
    refine ⟨p, P, hP, ?_⟩
    rw [hPname, hname, Name.dropLast_take (by omega), Nat.add_sub_cancel]

variable {q : KeptName} {e : EntryId}

/-- An exact match is the entry of the name, as far as the types of the components are told
apart. -/
theorem Inv.exists_live_of_findExactMatch (h : Inv t) (hno : NoTwin t q)
    (hfind : t.findExactMatch q = some e) : ∃ E, t.Live e E ∧ E.namePrefix = q.name := by
  obtain ⟨⟨ch, hT⟩, -⟩ := h
  obtain ⟨E, -, -, hE, hpass, -⟩ := hT.scan_eq_some (hT.location_lt (computeHash q)) hfind
  rw [Bool.and_eq_true, beq_iff_eq, Name.equals_iff] at hpass
  exact ⟨E, hE, hT.forallLive_iff.mp hno e E hE hpass.1.symm hpass.2⟩

/-- Exact matching on octets with the right hash finds the entry of the name. -/
theorem Inv.findExactMatch_iff (h : Inv t) (hsame : q.SameHash) (hno : NoTwin t q) :
    t.findExactMatch q = some e ↔ ∃ E, t.Live e E ∧ E.namePrefix = q.name := by
  refine ⟨h.exists_live_of_findExactMatch hno, ?_⟩
  rintro ⟨E, hE, hname⟩
  obtain ⟨⟨ch, hT⟩, htree⟩ := id h
  have hhash : E.hash = computeHash q := by rw [htree.hash_eq e E hE, hname, hsame]
  cases hfind : t.findExactMatch q with
  | none =>
    have hmiss := (hT.scan_eq_none (hT.location_lt (computeHash q))).mp hfind e E hE (by rw [hhash])
    simp [hhash, hname] at hmiss
  | some e' =>
    obtain ⟨E', hE', hname'⟩ := h.exists_live_of_findExactMatch hno hfind
    rw [htree.unique e' E' e E hE' hE (hname'.trans hname.symm)]

/-- The size is the number of entries. -/
theorem TableInv.nItems_eq_card (hT : TableInv t ch) :
    ∃ S : Finset EntryId, (∀ e, e ∈ S ↔ ∃ E, t.Live e E) ∧ t.nItems = S.card := by
  classical
  let used := (Finset.range t.nextNode).filter fun n => (t.nodes n).isSome
  let owner : NodeId → EntryId := fun n => ((t.nodes n).map Cell.payload).getD 0
  refine ⟨used.image owner, ?_, ?_⟩
  · intro e
    rw [Finset.mem_image]
    constructor
    · grind [Option.isSome_iff_exists, hT.exists_nodeEntry]
    · rintro ⟨E, hE⟩
      obtain ⟨c, hc, rfl, -⟩ := nodeEntry_eq_some.mp hE
      grind [hT.lt_nextNode]
  · rw [hT.nItems_eq, Finset.card_image_of_injOn]
    intro n hn m hm heq
    obtain ⟨c, hc⟩ := Option.isSome_iff_exists.mp (Finset.mem_filter.mp hn).2
    obtain ⟨d, hd⟩ := Option.isSome_iff_exists.mp (Finset.mem_filter.mp hm).2
    obtain ⟨E, -, hE, hnode⟩ := hT.exists_nodeEntry hc
    grind [hT.exists_nodeEntry, hE.contents_eq]

/-- The invariant gives what should hold. -/
theorem Inv.wellFormed (h : Inv t) : WellFormed t := by
  obtain ⟨⟨ch, hT⟩, htree⟩ := id h
  constructor
  · intro e E hE n
    obtain ⟨c, hc, hpay, -⟩ := nodeEntry_eq_some.mp hE
    grind [hT.exists_nodeEntry, hE.contents_eq]
  · intro e E hE b hb
    rw [hT.chain_eq hb]
    have hmem : E.node ∈ ch b ↔ b = E.hash.toNat % t.nBuckets := by
      constructor
      · intro hin
        exact hT.chain_disjoint hb (hT.location_lt E.hash) hin (hT.mem_chain_of_live hE)
      · rintro rfl
        exact hT.mem_chain_of_live hE
    grind [List.count_eq_one_of_mem, hT.nodup]
  · intro e E hE
    exact (hT.isChain _ (hT.location_lt E.hash)).links (hT.mem_chain_of_live hE)
  · intro q hsame hno e
    exact h.findExactMatch_iff hsame hno
  · exact hT.nItems_eq_card
  · intro n hn m hm
    rw [List.prefix_iff_eq_take.mp hm]
    exact htree.liveName_take hn m.length
  · grind [htree.root, htree.parent, htree.count_children]

/-! ### What an operation does to the attachments of one table -/

section Keeps

variable {β : Type*} {π : Attachments → β} {t t' t'' : NameTree}

/-- One kind of attachment stays where it is. -/
structure Keeps (π : Attachments → β) (t t' : NameTree) : Prop where
  keep : ∀ e E, t.Live e E → π E.attached ≠ π Attachments.empty →
    ∃ E', t'.Live e E' ∧ E'.namePrefix = E.namePrefix ∧ π E'.attached = π E.attached
  old : ∀ e E', t'.Live e E' → π E'.attached ≠ π Attachments.empty →
    ∃ E, t.Live e E ∧ E'.namePrefix = E.namePrefix ∧ π E'.attached = π E.attached

/-- What is added has no attachments. -/
theorem Keeps.of_extends (h : Extends t t') : Keeps π t t' := by
  constructor <;> grind [h.keep, h.new]

/-- What is pruned has no attachments. -/
theorem Keeps.of_prunes (h : Prunes t t') : Keeps π t t' := by
  constructor
  · intro e E hE hne
    obtain ⟨E', hE', hname, hatt⟩ := h.keep e E hE fun hempty => hne (by rw [hempty])
    exact ⟨E', hE', hname, by rw [hatt]⟩
  · grind [h.old]

/-- A change of other attachments. -/
theorem Keeps.of_modifyAttached (t : NameTree) (e : EntryId) {g : Attachments → Attachments}
    (hg : ∀ a, π (g a) = π a) : Keeps π t (t.modifyAttached e g) := by
  constructor
  · intro x X hX _
    refine ⟨_, live_modifyAttached.mpr ⟨X, hX, rfl⟩, ?_, ?_⟩ <;> grind
  · grind [live_modifyAttached]

/-- The attachments are kept further. -/
theorem Keeps.trans (h : Keeps π t t') (h' : Keeps π t' t'') : Keeps π t t'' := by
  constructor
  · grind [h.keep, h'.keep]
  · grind [h'.old, h.old]

end Keeps

/-! ### Well-formedness along runs -/

/-- In every state of a run that meets the conditions, the table is well formed. -/
theorem wellFormed_of_runOk {nBuckets : ℕ} (hpos : 1 ≤ nBuckets) {ops : List Op}
    (hok : RunOk (create nBuckets) ops) : WellFormed ((create nBuckets).run ops) :=
  (inv_run (inv_create hpos) hok).wellFormed

/-- A run with four buckets that creates five entries, resizes and erases two of them. -/
theorem wellFormed_four_buckets : WellFormed ((create 4).run
      [.lookup [.generic [0x41], .generic [0x42]],
        .lookup [.generic [0x43], .generic [0x41]], .eraseEntryIfEmpty 2]) :=
  wellFormed_of_runOk (by decide) (by decide +kernel)

/-- The name `/A`. -/
def nameA : Name :=
  [.generic [0x41]]

/-- The name `/A` as it is decoded from octets with the length in three of them. -/
def keptA : KeptName :=
  ⟨nameA, [[8, 253, 0, 1, 0x41]], .cons (.decoded (by decide)) .nil⟩

/-- The name of a generic component and an implicit digest with the same octets. -/
def nameTwins : Name :=
  [.generic (List.replicate 32 0), .implicitDigest (List.replicate 32 0)]

/-- The smallest failures.  In a table with three buckets the second entry of this lookup
triggers a resize to six; the hash of `/A` is 5 modulo 6, its low 32 bits are 1 modulo 6, and
the entry is lost.  With sixteen buckets no resize is made, and the entry is not found by the name
with the length in three octets. -/
theorem lookup_lost_by_resize :
    ¬ WellFormed ((create 3).run [.lookup nameA]) ∧
      ((create 16).run [.lookup nameA]).LiveName keptA.name ∧
        ((create 16).run [.lookup nameA]).findExactMatch keptA = none := by
  refine ⟨fun h => ?_, ?_, by decide +kernel⟩
  · have hno : NoTwin ((create 3).run [.lookup nameA]) nameA := by decide +kernel
    have hlive : ∃ E ∈ ((create 3).run [.lookup nameA]).entries 1,
        ((create 3).run [.lookup nameA]).nodeEntry E.node = some (1, E) ∧
          E.namePrefix = nameA := by decide +kernel
    have hmiss : ((create 3).run [.lookup nameA]).findExactMatch nameA = none := by decide +kernel
    obtain ⟨E, -, hE, hname⟩ := hlive
    have hfind := (h.exactMatch nameA nameA.sameHash_encoded hno 1).mpr ⟨E, hE, hname⟩
    rw [hmiss] at hfind
    cases hfind
  · have hlive : ∃ E ∈ ((create 16).run [.lookup nameA]).entries 1,
        ((create 16).run [.lookup nameA]).nodeEntry E.node = some (1, E) ∧
          E.namePrefix = nameA := by decide +kernel
    obtain ⟨E, -, hE, hname⟩ := hlive
    exact ⟨1, E, hE, hname⟩

end IcnDemo.NameTree
