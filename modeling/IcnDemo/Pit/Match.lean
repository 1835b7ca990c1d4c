import IcnDemo.Pit.Defs

/-!
# Matching Data against the PIT

`Pit.Inv` ties the PIT entries to the name tree: an entry is attached to the name tree entry of
its Interest name and points back to it.  Safe insertions and erasures keep it.

`findAllDataMatches` looks at the entries attached to the first candidate of the name tree
lookup and at those above it.  It never returns an entry twice and never a wrong one.  It returns
every matching entry exactly when all of them are on that path
(`findAllDataMatches_correct_iff`); an Interest that ends with the digest of the Data is not, and
none is if the octets of the Data name lead nowhere.
-/

namespace IcnDemo.Pit

open NameTree

variable {pit : Pit}

/-- The PIT and its name tree agree. -/
structure Inv (pit : Pit) : Prop where
  tree : NameTree.Inv pit.nameTree
  attached : ∀ e E, pit.nameTree.Live e E → ∀ p ∈ E.attached.pitEntries,
    ∃ P, pit.entries p = some P ∧ P.nameTreeEntry = some e ∧ P.interest.name = E.namePrefix
  stored : ∀ p P e, pit.entries p = some P → P.nameTreeEntry = some e →
    ∃ E, pit.nameTree.Live e E ∧ p ∈ E.attached.pitEntries
  nodup : ∀ e E, pit.nameTree.Live e E → E.attached.pitEntries.Nodup
  fresh : ∀ p, pit.nextEntry ≤ p → pit.entries p = none

/-- PIT entry `p` is in the table, with contents `P`. -/
def Stored (pit : Pit) (p : EntryId) (P : Entry) : Prop :=
  pit.entries p = some P ∧ P.nameTreeEntry.isSome = true

/-- The invariant holds of an empty PIT. -/
theorem inv_create {nBuckets : ℕ} (hpos : 0 < nBuckets) : Inv (create nBuckets) := by
  have hdead : ∀ e E, ¬ (NameTree.create nBuckets).Live e E := by
    intro e E h
    cases h
  refine ⟨NameTree.inv_create hpos, ?_, ?_, ?_, ?_⟩
  · intro e E hE
    exact absurd hE (hdead e E)
  · intro p P e hP
    cases hP
  · intro e E hE
    exact absurd hE (hdead e E)
  · intro p _
    rfl

/-! ### Changes of the name tree -/

/-- A name tree operation that leaves the attached PIT entries where they are. -/
structure KeepsPitEntries (t t' : NameTree) : Prop where
  keep : ∀ e E, t.Live e E → E.attached.pitEntries ≠ [] → ∃ E', t'.Live e E' ∧
    E'.namePrefix = E.namePrefix ∧ E'.attached = E.attached
  old : ∀ e E', t'.Live e E' → E'.attached.pitEntries ≠ [] → ∃ E, t.Live e E ∧
    E'.namePrefix = E.namePrefix ∧ E'.attached = E.attached

/-- Entries that are added have no PIT entries. -/
theorem keepsPitEntries_of_extends {t t' : NameTree} (h : NameTree.Extends t t') :
    KeepsPitEntries t t' := by
  refine ⟨fun e E hE _ => h.keep e E hE, fun e E' hE' hne => ?_⟩
  rcases h.new e E' hE' with hold | hempty
  · exact hold
  · rw [hempty] at hne
    exact absurd rfl hne

/-- Entries that are pruned have no PIT entries. -/
theorem keepsPitEntries_of_prunes {t t' : NameTree} (h : NameTree.Prunes t t') :
    KeepsPitEntries t t' := by
  refine ⟨fun e E hE hne => h.keep e E hE fun hempty => ?_, fun e E' hE' _ => h.old e E' hE'⟩
  rw [hempty] at hne
  exact hne rfl

/-- Another name tree with the same PIT entries. -/
theorem Inv.of_keepsPitEntries (h : Inv pit) {t' : NameTree} (hinv : NameTree.Inv t')
    (hk : KeepsPitEntries pit.nameTree t') (n : ℕ) :
    Inv { pit with nameTree := t', nItems := n } := by
  refine ⟨hinv, ?_, ?_, ?_, h.fresh⟩
  · grind [hk.old, List.ne_nil_of_mem, h.attached]
  · grind [h.stored, hk.keep, List.ne_nil_of_mem]
  · intro e E' hE'
    by_cases hne : E'.attached.pitEntries = [] <;> grind [hk.old, h.nodup]

/-! ### Insertion -/

variable {e : NameTree.EntryId} {p : EntryId} {i : Interest} {E : NameTree.Entry} {P : Entry}

/-- New entries are new. -/
theorem nextEntry_not_mem (h : Inv pit)
    (hE : pit.nameTree.Live e E) : pit.nextEntry ∉ E.attached.pitEntries := by
  intro hmem
  grind [h.attached, h.fresh]

/-- The name tree with a new PIT entry. -/
theorem live_insertAt {e e' : NameTree.EntryId} {E' : NameTree.Entry} :
    (pit.insertAt i e).nameTree.Live e' E' ↔ ∃ E, pit.nameTree.Live e' E ∧
      E' = if e' = e then { E with attached :=
        { E.attached with pitEntries := E.attached.pitEntries ++ [pit.nextEntry] } } else E :=
  live_modifyAttached (g := fun a =>
    { a with pitEntries := a.pitEntries ++ [pit.nextEntry] })

/-- The new entry. -/
theorem entries_insertAt_self (pit : Pit) (i : Interest) (e : NameTree.EntryId) :
    (pit.insertAt i e).entries pit.nextEntry = some (newEntry i e) :=
  Function.update_self ..

/-- A new entry keeps the invariant. -/
theorem inv_insertAt (h : Inv pit)
    (hE : pit.nameTree.Live e E) (hname : E.namePrefix = i.name) : Inv (pit.insertAt i e) := by
  have hnew := entries_insertAt_self pit i e
  have hother : ∀ {p}, p ≠ pit.nextEntry → (pit.insertAt i e).entries p = pit.entries p :=
    fun hp => Function.update_of_ne hp ..
  have htree : NameTree.Inv (pit.insertAt i e).nameTree :=
    inv_modifyAttached h.tree e fun a =>
      { a with pitEntries := a.pitEntries ++ [pit.nextEntry] }
  refine ⟨htree, ?_, ?_, ?_, ?_⟩
  · intro e' E' hE' p hp
    obtain ⟨F, hF, rfl⟩ := live_insertAt.mp hE'
    by_cases hee : e' = e
    · grind [hF.contents_eq, h.attached, newEntry]
    · grind [nextEntry_not_mem, h.attached]
  · intro p P e' hP he'
    by_cases hpn : p = pit.nextEntry
    · subst hpn
      rw [hnew] at hP
      cases hP
      cases he'
      refine ⟨_, live_insertAt.mpr ⟨E, hE, rfl⟩, ?_⟩
      simp
    · rw [hother hpn] at hP
      obtain ⟨F, hF, hp⟩ := h.stored p P e' hP he'
      refine ⟨_, live_insertAt.mpr ⟨F, hF, rfl⟩, ?_⟩
      grind
  · intro e' E' hE'
    obtain ⟨F, hF, rfl⟩ := live_insertAt.mp hE'
    grind [h.nodup, nextEntry_not_mem]
  · intro p hp
    have hp' : pit.nextEntry + 1 ≤ p := hp
    grind [h.fresh]

/-- What `findOrInsert` can do: the lookup arrives at the entry of the name, and either an entry
for the same Interest is attached there or none is. -/
theorem findOrInsert_cases (h : Inv pit)
    (hok : NameTree.LookupOk pit.nameTree i.name) (allowInsert : Bool) :
    ∃ e E, (pit.nameTree.lookup i.name).1.Live e E ∧ E.namePrefix = i.name ∧
      ((∃ p ∈ E.attached.pitEntries, pit.sameInterest i p = true ∧ pit.findOrInsert i allowInsert =
            ({ pit with nameTree := (pit.nameTree.lookup i.name).1 }, some p, false)) ∨
        ((∀ p ∈ E.attached.pitEntries, pit.sameInterest i p = false) ∧
          pit.findOrInsert i allowInsert = if allowInsert then
              (insertAt { pit with nameTree := (pit.nameTree.lookup i.name).1 } i e,
                some pit.nextEntry, true)
            else ({ pit with nameTree := (pit.nameTree.lookup i.name).1 }, none, true))) := by
  obtain ⟨-, -, e, E, hres, hE, hname⟩ := lookup_spec h.tree hok
  refine ⟨e, E, hE, hname, ?_⟩
  unfold findOrInsert
  simp only [hres, Option.bind_some, hE.entry, Option.map_some]
  grind [sameInterest]

/-- A safe lookup keeps the invariant. -/
theorem inv_lookup (h : Inv pit) {n : Name} (hok : NameTree.LookupOk pit.nameTree n) :
    Inv { pit with nameTree := (pit.nameTree.lookup n).1 } := by
  obtain ⟨hinv, hext, -⟩ := lookup_spec h.tree hok
  exact h.of_keepsPitEntries hinv (keepsPitEntries_of_extends hext) pit.nItems

/-- `findOrInsert` keeps the invariant. -/
theorem inv_findOrInsert (h : Inv pit) (hok : NameTree.LookupOk pit.nameTree i.name)
    (allowInsert : Bool) : Inv (pit.findOrInsert i allowInsert).1 := by
  have hlook := inv_lookup h hok
  obtain ⟨e, E, hE, hname, ⟨p, -, -, heq⟩ | ⟨-, heq⟩⟩ := findOrInsert_cases h hok allowInsert
  · rw [heq]
    exact hlook
  · rw [heq]
    split_ifs
    · exact inv_insertAt hlook hE hname
    · exact hlook

/-! ### Erasure -/

/-- The name tree without a PIT entry. -/
theorem live_detach {e e' : NameTree.EntryId} {E' : NameTree.Entry} :
    (pit.detach p e).nameTree.Live e' E' ↔ ∃ E, pit.nameTree.Live e' E ∧
      E' = if e' = e then { E with attached :=
        { E.attached with pitEntries := swapPop E.attached.pitEntries p } } else E :=
  live_modifyAttached (g := fun a =>
    { a with pitEntries := swapPop a.pitEntries p })

/-- A detached entry keeps the invariant. -/
theorem inv_detach (h : Inv pit)
    (hP : pit.entries p = some P) (he : P.nameTreeEntry = some e) : Inv (pit.detach p e) := by
  have hself : (pit.detach p e).entries p = some { P with nameTreeEntry := none } := by
    unfold detach
    simp [hP]
  have hother : ∀ {q}, q ≠ p → (pit.detach p e).entries q = pit.entries q :=
    fun hq => Function.update_of_ne hq ..
  -- an entry is attached in one place only
  have honly : ∀ e' E', pit.nameTree.Live e' E' → p ∈ E'.attached.pitEntries → e' = e := by
    grind [h.attached]
  have htree : NameTree.Inv (pit.detach p e).nameTree :=
    inv_modifyAttached h.tree e fun a =>
      { a with pitEntries := swapPop a.pitEntries p }
  refine ⟨htree, ?_, ?_, ?_, ?_⟩
  · grind [live_detach, mem_swapPop, h.nodup, h.attached]
  · intro q Q e' hQ he'
    by_cases hqp : q = p
    · subst hqp
      rw [hself] at hQ
      cases hQ
      cases he'
    · rw [hother hqp] at hQ
      obtain ⟨F, hF, hq⟩ := h.stored q Q e' hQ he'
      refine ⟨_, live_detach.mpr ⟨F, hF, rfl⟩, ?_⟩
      grind [mem_swapPop, h.nodup]
  · grind [live_detach, nodup_swapPop, h.nodup]
  · intro q hq
    have hqp : q ≠ p := by
      rintro rfl
      rw [h.fresh q hq] at hP
      cases hP
    rw [hother hqp]
    exact h.fresh q hq

/-- The erasure of a stored entry meets no unsafe resize. -/
def EraseOk (pit : Pit) (p : EntryId) : Prop :=
  ∃ e ∈ (pit.entries p).bind Entry.nameTreeEntry, ∃ E ∈ (pit.detach p e).nameTree.entries e,
    NameTree.EraseOk (E.namePrefix.length + 1) (pit.detach p e).nameTree e

instance (pit : Pit) (p : EntryId) : Decidable (EraseOk pit p) :=
  inferInstanceAs (Decidable (∃ e ∈ (pit.entries p).bind Entry.nameTreeEntry,
    ∃ E ∈ (pit.detach p e).nameTree.entries e, _))

/-- A stored entry is detached, and its name tree entry erased if empty. -/
theorem erase_eq_some (hP : pit.entries p = some P) (he : P.nameTreeEntry = some e) :
    pit.erase p = some { pit.detach p e with
      nameTree := ((pit.detach p e).nameTree.eraseEntryIfEmpty e).1
      nItems := (pit.detach p e).nItems - 1 } := by
  unfold erase
  simp [hP, he]

/-- A safe erasure keeps the invariant. -/
theorem inv_erase (h : Inv pit) (hok : EraseOk pit p) :
    ∃ pit', pit.erase p = some pit' ∧ Inv pit' := by
  obtain ⟨e, he, E, hE, hok⟩ := hok
  obtain ⟨P, hP, he⟩ := Option.bind_eq_some_iff.mp he
  refine ⟨_, erase_eq_some hP he, ?_⟩
  have hdet := inv_detach h hP he
  obtain ⟨F, hF, -⟩ := h.stored p P e hP he
  have hlive := live_detach (p := p) (e := e).mpr ⟨F, hF, rfl⟩
  have hEF : (pit.detach p e).nameTree.Live e E := by grind [hlive.entry]
  obtain ⟨hinv, hprune⟩ := eraseEntryIfEmpty_spec hdet.tree hEF hok
  exact hdet.of_keepsPitEntries hinv (keepsPitEntries_of_prunes hprune) _

/-! ### Runs -/

/-- The operations of a run. -/
inductive Op where
  | insert (i : Interest)
  | erase (p : EntryId)

/-- The effect of an operation. -/
def apply (pit : Pit) : Op → Pit
  | .insert i => (pit.insert i).1
  | .erase p => (pit.erase p).getD pit

/-- The condition on one operation: what it does to the name tree is safe, and only a stored
entry is erased. -/
def OpOk (pit : Pit) : Op → Prop
  | .insert i => NameTree.LookupOk pit.nameTree i.name
  | .erase p => EraseOk pit p

instance (pit : Pit) : ∀ op, Decidable (OpOk pit op)
  | .insert i => inferInstanceAs (Decidable (NameTree.LookupOk pit.nameTree i.name))
  | .erase p => inferInstanceAs (Decidable (EraseOk pit p))

/-- The state after a run. -/
def run (pit : Pit) (ops : List Op) : Pit :=
  ops.foldl apply pit

/-- The condition on a run. -/
def RunOk : Pit → List Op → Prop
  | _, [] => True
  | pit, op :: ops => OpOk pit op ∧ RunOk (pit.apply op) ops

instance decidableRunOk : ∀ pit ops, Decidable (RunOk pit ops)
  | _, [] => isTrue trivial
  | pit, op :: ops =>
      have := decidableRunOk (pit.apply op) ops
      inferInstanceAs (Decidable (OpOk pit op ∧ RunOk (pit.apply op) ops))

/-- A safe operation keeps the invariant. -/
theorem inv_apply (h : Inv pit) {op : Op} (hok : OpOk pit op) : Inv (pit.apply op) := by
  cases op with
  | insert i => exact inv_findOrInsert h hok true
  | erase p =>
    obtain ⟨pit', heq, hinv⟩ := inv_erase h hok
    unfold apply
    simp only [heq, Option.getD_some]
    exact hinv

/-- A safe run keeps the invariant. -/
theorem inv_run {ops : List Op} : ∀ {pit : Pit}, Inv pit → RunOk pit ops → Inv (pit.run ops) := by
  induction ops with
  | nil =>
    intro pit h _
    exact h
  | cons op ops ih =>
    intro pit h hok
    exact ih (inv_apply h hok.1) hok.2

/-! ### What `findAllDataMatches` returns -/

/-- A stored entry whose Interest the Data satisfies. -/
def Matching (pit : Pit) (d : Data) (p : EntryId) : Prop :=
  ∃ P, Stored pit p P ∧ P.interest.matchesData d = true

instance (pit : Pit) (d : Data) (p : EntryId) : Decidable (Matching pit d p) :=
  decidable_of_iff (∃ P ∈ pit.entries p, P.nameTreeEntry.isSome = true ∧
      P.interest.matchesData d = true)
    ⟨fun ⟨P, hP, hsome, hdata⟩ => ⟨P, ⟨hP, hsome⟩, hdata⟩,
      fun ⟨P, ⟨hP, hsome⟩, hdata⟩ => ⟨P, hP, hsome, hdata⟩⟩

/-- The matches at a name tree entry. -/
theorem mem_entriesAt_iff {d : Data} (hE : pit.nameTree.Live e E) :
    (p ∈ match pit.nameTree.entries e with
      | none => []
      | some E => E.attached.pitEntries.filter (pit.entryMatches d)) ↔
      p ∈ E.attached.pitEntries ∧ pit.entryMatches d p = true := by
  rw [hE.entry]
  exact List.mem_filter

/-- A stored entry is attached to the entry of its name. -/
theorem Inv.exists_live (h : Inv pit) (hP : Stored pit p P) :
    ∃ e E, pit.nameTree.Live e E ∧ p ∈ E.attached.pitEntries ∧ P.interest.name = E.namePrefix ∧
      E.hasPitEntries = true := by
  obtain ⟨e, hback⟩ := Option.isSome_iff_exists.mp hP.2
  obtain ⟨E, hE, hmem⟩ := h.stored p P e hP.1 hback
  obtain ⟨P', hP', -, hname⟩ := h.attached e E hE p hmem
  rw [hP.1] at hP'
  grind [NameTree.Entry.hasPitEntries]

/-- The matches are those above the first candidate. -/
theorem Inv.mem_findAllDataMatches (h : Inv pit) {d : Data} :
    p ∈ pit.findAllDataMatches d ↔ ∃ P, Stored pit p P ∧ P.interest.matchesData d = true ∧
      ∃ l L, NameTree.FirstCandidate pit.nameTree d.keptName NameTree.Entry.hasPitEntries l L ∧
        P.interest.name <+: L.namePrefix := by
  unfold findAllDataMatches
  rw [List.mem_flatMap]
  constructor
  · rintro ⟨e, he, hp⟩
    obtain ⟨l, L, hL, E, hE⟩ := h.tree.mem_findAllMatches.mp he
    obtain ⟨hmem, hmatch⟩ := (mem_entriesAt_iff hE.live).mp hp
    obtain ⟨P, hP, hback, hname⟩ := h.attached e E hE.live p hmem
    have hdata : P.interest.matchesData d = true := by simpa [entryMatches, hP] using hmatch
    exact ⟨P, ⟨hP, by simp [hback]⟩, hdata, l, L, hL, hname ▸ hE.isPrefix⟩
  · rintro ⟨P, hP, hdata, l, L, hL, hpath⟩
    obtain ⟨e, E, hE, hmem, hname, hhas⟩ := h.exists_live hP
    refine ⟨e, h.tree.mem_findAllMatches.mpr ⟨l, L, hL, E, hE, hname ▸ hpath, hhas⟩, ?_⟩
    exact (mem_entriesAt_iff hE).mpr ⟨hmem, by simp [entryMatches, hP.1, hdata]⟩

/-- No match is returned twice. -/
theorem Inv.nodup_findAllDataMatches (h : Inv pit) (d : Data) :
    (pit.findAllDataMatches d).Nodup := by
  have hlive : ∀ e ∈ pit.nameTree.findAllMatches d.keptName NameTree.Entry.hasPitEntries,
      ∃ E, pit.nameTree.Live e E := by
    intro e he
    obtain ⟨l, L, hL, E, hE⟩ := h.tree.mem_findAllMatches.mp he
    exact ⟨E, hE.live⟩
  unfold findAllDataMatches
  rw [List.nodup_flatMap]
  constructor
  · intro e he
    obtain ⟨E, hE⟩ := hlive e he
    simp only [hE.entry]
    exact (h.nodup e E hE).filter _
  refine (h.tree.nodup_findAllMatches _ _).imp_of_mem ?_
  intro e e' he he' hne p hp hp'
  obtain ⟨E, hE⟩ := hlive e he
  obtain ⟨E', hE'⟩ := hlive e' he'
  obtain ⟨P, hP, hback, -⟩ := h.attached e E hE p ((mem_entriesAt_iff hE).mp hp).1
  obtain ⟨P', hP', hback', -⟩ := h.attached e' E' hE' p ((mem_entriesAt_iff hE').mp hp').1
  simp_all

/-- `findAllDataMatches` does what it should: each matching entry once, and nothing else. -/
def ReturnsMatches (pit : Pit) (d : Data) : Prop :=
  ∀ p, (Matching pit d p → (pit.findAllDataMatches d).count p = 1) ∧
    (¬ Matching pit d p → (pit.findAllDataMatches d).count p = 0)

/-- Every matching entry has the name of a prefix of the first candidate of the Data name, among
the names with PIT entries. -/
def MatchesOnPath (pit : Pit) (d : Data) : Prop :=
  ∀ p P, Stored pit p P → P.interest.matchesData d = true →
    ∃ l L, NameTree.FirstCandidate pit.nameTree d.keptName NameTree.Entry.hasPitEntries l L ∧
      P.interest.name <+: L.namePrefix

/-- All matches are returned exactly if they are on one path. -/
theorem Inv.returnsMatches_iff (h : Inv pit) (d : Data) :
    ReturnsMatches pit d ↔ MatchesOnPath pit d := by
  constructor
  · intro hret p P hP hdata
    have hcount := (hret p).1 ⟨P, hP, hdata⟩
    have hmem : p ∈ pit.findAllDataMatches d := List.count_pos_iff.mp (by omega)
    obtain ⟨P', hP', -, hpath⟩ := h.mem_findAllDataMatches.mp hmem
    have hPP : P' = P := by simpa [hP.1] using hP'.1.symm
    rwa [hPP] at hpath
  intro hpath p
  constructor
  · rintro ⟨P, hP, hdata⟩
    have hmem := h.mem_findAllDataMatches.mpr ⟨P, hP, hdata, hpath p P hP hdata⟩
    exact List.count_eq_one_of_mem (h.nodup_findAllDataMatches d) hmem
  · intro hno
    refine List.count_eq_zero_of_not_mem fun hmem => hno ?_
    obtain ⟨P, hP, hdata, -⟩ := h.mem_findAllDataMatches.mp hmem
    exact ⟨P, hP, hdata⟩

/-- In every state of a safe run, `findAllDataMatches` is right exactly when every matching
entry is on the path above the first candidate. -/
theorem findAllDataMatches_correct_iff {nBuckets : ℕ} (hpos : 1 ≤ nBuckets) {ops : List Op}
    (hok : RunOk (create nBuckets) ops) (d : Data) :
    ReturnsMatches ((create nBuckets).run ops) d ↔ MatchesOnPath ((create nBuckets).run ops) d :=
  (inv_run (inv_create hpos) hok).returnsMatches_iff d

/-- An Interest with the given name and no selectors. -/
def plainInterest (n : Name) : Interest :=
  ⟨n, Selectors.none, [0, 0, 0, 1], 4000⟩

/-- A Data with the given name and an all-zero digest. -/
def plainData (q : KeptName) : Data :=
  ⟨q, List.replicate 32 0, by decide, -1, none, false⟩

/-- The exact condition, after two Interests have been inserted and one erased again. -/
theorem findAllDataMatches_correct_iff_two_interests :
    ReturnsMatches ((create 16).run [.insert (plainInterest nameA),
      .insert (plainInterest nameBAA), .erase 0]) (plainData nameBAA) ↔
    MatchesOnPath ((create 16).run [.insert (plainInterest nameA),
      .insert (plainInterest nameBAA), .erase 0]) (plainData nameBAA) :=
  findAllDataMatches_correct_iff (by decide) (by decide +kernel) _

/-- Three matching entries that are not returned: an Interest for the full name of the Data, one for
`/B/A/A` while `/B` is pending as well, and one for `/A` when the Data name is `/A` in octets with
the length in three of them. -/
theorem findAllDataMatches_misses : ¬ ReturnsMatches ((create 16).run [.insert (plainInterest
        [.generic [0x41], .implicitDigest (List.replicate 32 0)])]) (plainData nameA) ∧
    ¬ ReturnsMatches ((create 16).run [.insert (plainInterest [.generic [0x42]]),
        .insert (plainInterest nameBAA)]) (plainData nameBAA) ∧
    ¬ ReturnsMatches ((create 16).run [.insert (plainInterest nameA)]) (plainData keptA) := by
  refine ⟨fun h => ?_, fun h => ?_, fun h => ?_⟩
  · have hcount := (h 0).1 (by decide +kernel)
    revert hcount
    decide +kernel
  · have hcount := (h 1).1 (by decide +kernel)
    revert hcount
    decide +kernel
  · have hcount := (h 0).1 (by decide +kernel)
    revert hcount
    decide +kernel

end IcnDemo.Pit
