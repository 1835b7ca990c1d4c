import IcnDemo.NameTree.Tidy
import IcnDemo.Fib.Refine
import IcnDemo.StrategyChoice.Invariant

/-!
# Four tables over one name tree

The FIB, the PIT, the Measurements table and the Strategy Choice table hang their entries off the
entries of one name tree.  Each creates the name tree entries it needs and erases those that it has
emptied, so that every name tree entry is there for something (`NameTree.Tidy`).

An operation that changes a table does one of two things to the name tree: it looks up a name and
attaches something there, or it takes something off and calls `eraseEntryIfEmpty`.  Both keep the
name tree tidy.  Two functions that only answer a question, `Pit::find` and
`Measurements::findExactMatch`, also look up their name, and attach nothing.
-/

namespace IcnDemo

open Option Function

namespace NameTree

/-! ### What an operation of one table does to the name tree -/

namespace Attachments

variable (a : Attachments)

/-- What the tables other than the FIB have attached. -/
def withoutFib : Attachments :=
  { a with fibEntry := none }

/-- What the tables other than the PIT have attached. -/
def withoutPit : Attachments :=
  { a with pitEntries := [] }

/-- What the tables other than the Measurements table have attached. -/
def withoutMeasurements : Attachments :=
  { a with measurementsEntry := none }

/-- What the tables other than the Strategy Choice table have attached. -/
def withoutStrategyChoice : Attachments :=
  { a with strategyChoiceEntry := none }

end Attachments

section Replaces

variable {α β : Type} {σ : Attachments → α} {t t₁ t' : NameTree} {n : Name} {e : EntryId}
  {E : Entry} {g : Attachments → Attachments}

/-- A part of the attachments is kept. -/
theorem Keeps.map (h : Keeps σ t t') (ρ : α → β) : Keeps (fun a => ρ (σ a)) t t' := by
  constructor
  · intro x X hX hne
    obtain ⟨X', hX', hname, heq⟩ := h.keep x X hX fun hempty => hne (congrArg ρ hempty)
    exact ⟨X', hX', hname, congrArg ρ heq⟩
  · intro x X' hX' hne
    obtain ⟨X, hX, hname, heq⟩ := h.old x X' hX' fun hempty => hne (congrArg ρ hempty)
    exact ⟨X, hX, hname, congrArg ρ heq⟩

/-- The operation of one table: what `σ` sees of the attachments stays, and the name tree is tidy
again. -/
structure Replaces (σ : Attachments → α) (t t' : NameTree) : Prop where
  inv : Inv t'
  keeps : Keeps σ t t'
  tidy : Tidy t'

/-- Nothing is replaced. -/
theorem Replaces.refl (h : Inv t) (htidy : Tidy t) : Replaces σ t t :=
  ⟨h, .of_extends (Extends.refl t), htidy⟩

/-- More is replaced. -/
theorem Replaces.trans (h : Replaces σ t t₁) (h' : Replaces σ t₁ t') : Replaces σ t t' :=
  ⟨h'.inv, h.keeps.trans h'.keeps, h'.tidy⟩

/-- A lookup returns the entry of the name. -/
theorem lookup_result (h : Inv t) (hok : LookupOk t n) (hE : (t.lookup n).1.Live e E)
    (hname : E.namePrefix = n) : (t.lookup n).2 = some e := by
  obtain ⟨hinv, -, e', E', he', hE', hname'⟩ := lookup_spec h hok
  rw [he', hinv.2.unique e' E' e E hE' hE (hname'.trans hname.symm)]

/-- A lookup of an entry with attachments. -/
theorem Replaces.lookup (h : Inv t) (htidy : Tidy t) (hok : LookupOk t n)
    (hE : (t.lookup n).1.Live e E) (hname : E.namePrefix = n)
    (hne : E.attached ≠ Attachments.empty) : Replaces σ t (t.lookup n).1 := by
  obtain ⟨hinv, hext, -⟩ := lookup_spec h hok
  exact ⟨hinv, .of_extends hext, (htidy.lookup h hok (lookup_result h hok hE hname)).tidy hE
    (Entry.isEmpty_eq_false_iff.mpr (.inr hne))⟩

/-- A lookup, and something attached to its entry. -/
theorem Replaces.lookup_attach (h : Inv t) (htidy : Tidy t) (hok : LookupOk t n)
    (hE : (t.lookup n).1.Live e E) (hname : E.namePrefix = n) (hg : ∀ a, σ (g a) = σ a)
    (hne : g E.attached ≠ Attachments.empty) :
    Replaces σ t ((t.lookup n).1.modifyAttached e g) := by
  obtain ⟨hinv, hext, -⟩ := lookup_spec h hok
  exact ⟨inv_modifyAttached hinv e g, .trans (.of_extends hext) (.of_modifyAttached _ e hg),
    (htidy.lookup h hok (lookup_result h hok hE hname)).attach hE hne⟩

/-- Something is attached. -/
theorem Replaces.attach (h : Inv t) (htidy : Tidy t) (hE : t.Live e E) (hg : ∀ a, σ (g a) = σ a)
    (hne : g E.attached ≠ Attachments.empty) : Replaces σ t (t.modifyAttached e g) :=
  ⟨inv_modifyAttached h e g, .of_modifyAttached t e hg, (htidy.but e).attach hE hne⟩

/-- An entry that may be empty is erased if it is. -/
theorem Replaces.eraseEntryIfEmpty (hk : Keeps σ t t₁) (h : Inv t₁) (hbut : TidyBut t₁ e)
    (hE : t₁.Live e E) (hok : EraseOk (E.namePrefix.length + 1) t₁ e) :
    Replaces σ t (t₁.eraseEntryIfEmpty e).1 := by
  obtain ⟨hinv, hprune⟩ := eraseEntryIfEmpty_spec h hE hok
  exact ⟨hinv, hk.trans (.of_prunes hprune), hbut.eraseEntryIfEmpty h hE hok⟩

/-- Something is detached, and the entry erased if empty. -/
theorem Replaces.detach (h : Inv t) (htidy : Tidy t) (hE : t.Live e E) (hg : ∀ a, σ (g a) = σ a)
    (hok : EraseOk (E.namePrefix.length + 1) (t.modifyAttached e g) e) :
    Replaces σ t ((t.modifyAttached e g).eraseEntryIfEmpty e).1 :=
  .eraseEntryIfEmpty (E := { E with attached := g E.attached }) (.of_modifyAttached t e hg)
    (inv_modifyAttached h e g) ((htidy.but e).modifyAttached g)
    (live_modifyAttached.mpr ⟨E, hE, (if_pos rfl).symm⟩) hok

end Replaces

/-- A name that is there, and no enlargement of the table is due: `lookup` then has nothing to
do. -/
def QueryOk (t : NameTree) (n : Name) : Prop :=
  LookupOk t n ∧ ¬ t.ForallLive (fun E => E.namePrefix ≠ n) ∧ t.nItems ≤ t.enlargeThreshold

instance (t : NameTree) (n : Name) : Decidable (QueryOk t n) :=
  inferInstanceAs (Decidable (_ ∧ _ ∧ _))

/-- A name is in the tree unless all entries have other names. -/
theorem Inv.liveName_iff {t : NameTree} (h : Inv t) {n : Name} :
    t.LiveName n ↔ ¬ t.ForallLive fun E => E.namePrefix ≠ n := by
  obtain ⟨⟨ch, hT⟩, -⟩ := h
  rw [hT.forallLive_iff]
  push Not
  rfl

/-- A safe query changes nothing. -/
theorem QueryOk.lookup_eq_self {t : NameTree} {n : Name} (hq : QueryOk t n) (h : Inv t) :
    (t.lookup n).1 = t :=
  NameTree.lookup_eq_self h hq.1 (h.liveName_iff.mpr hq.2.1) hq.2.2

end NameTree

open NameTree Attachments

/-! ### The Measurements table -/

namespace Tables

variable (s : Tables)

/-- `Measurements::get` on a name. -/
def getMeasurementsOfName (n : Name) : Tables :=
  let r := s.nameTree.lookup n
  match r.2 with
  | none => s.withTree r.1
  | some e => (s.withTree r.1).getMeasurements e

/-- `Measurements::get` on a PIT entry; an entry that is not in the table violates the assertion. -/
def getMeasurementsOfPitEntry (p : Pit.EntryId) : Option Tables :=
  ((s.pit.entries p).bind Pit.Entry.nameTreeEntry).map s.getMeasurements

/-- `Measurements::getParent`; the root has none. -/
def getParent (m : ℕ) : Option Tables :=
  ((s.measurements m).bind s.nameTree.entries).map fun C =>
    if C.namePrefix.length = 0 then s else C.parent.elim s s.getMeasurements

/-- `Measurements::findExactMatch`. -/
def findMeasurementsExactMatch (n : Name) : Tables × Option ℕ :=
  let r := s.nameTree.lookup n
  (s.withTree r.1, r.2.bind fun e => (r.1.entries e).bind fun E => E.attached.measurementsEntry)

/-- `Measurements::cleanup`. -/
def cleanup (m : ℕ) : Tables :=
  match s.measurements m with
  | none => s
  | some e =>
    let s := s.clearMeasurements e
    s.withTree (s.nameTree.eraseEntryIfEmpty e).1

end Tables

/-! ### All tables -/

/-- The tables of the forwarder. -/
structure TableSet where
  tables : Tables
  fibEntries : Fib.EntryId → Option Fib.Entry
  nextFibEntry : Fib.EntryId

namespace TableSet

/-- The name tree of the tables. -/
def nameTree (s : TableSet) : NameTree :=
  s.tables.nameTree

/-- The FIB in the shared name tree. -/
def fib (s : TableSet) : Fib :=
  ⟨s.nameTree, s.fibEntries, s.nextFibEntry⟩

/-- Put another FIB, and its name tree, in the place of the old one. -/
def withFib (s : TableSet) (F : Fib) : TableSet :=
  ⟨s.tables.withTree F.nameTree, F.entries, F.nextEntry⟩

/-- Put another PIT, and its name tree, in the place of the old one. -/
def withPit (s : TableSet) (pit : Pit) : TableSet :=
  { s with tables := { s.tables with pit := pit } }

/-- The tables as the forwarder creates them, with a default strategy. -/
def create (nBuckets : ℕ) (name : Name) (strategy : StrategyChoice.StrategyId) : TableSet where
  tables := Tables.create nBuckets name strategy
  fibEntries := fun _ => none
  nextFibEntry := 0

/-- `Measurements::get` on a FIB entry.  An entry that is not attached should be the empty entry,
whose prefix is empty; its prefix is looked up in any case. -/
def getMeasurementsOfFibEntry (s : TableSet) (f : Fib.EntryId) : Option Tables :=
  (s.fibEntries f).map fun F =>
    match F.nameTreeEntry with
    | none => s.tables.getMeasurementsOfName F.namePrefix
    | some e => s.tables.getMeasurements e

/-- The operations.  The lookups that are not listed (`Fib::findExactMatch`,
`findLongestPrefixMatch` of the FIB and of the Measurements table, `Pit::findAllDataMatches`,
`StrategyChoice::get` and `findEffectiveStrategy`) are functions of the state that return no state.
-/
inductive Op where
  | fibInsert (n : Name)
  | fibErase (q : KeptName)
  | fibEraseEntry (f : Fib.EntryId)
  | addNextHop (f : Fib.EntryId) (face : FaceRef) (cost : ℕ)
  | removeNextHop (f : Fib.EntryId) (face : FaceRef)
  | removeNextHopFromAllEntries (face : FaceRef)
  | pitInsert (i : Interest)
  | pitFind (i : Interest)
  | pitErase (p : Pit.EntryId)
  | getMeasurements (n : Name)
  | getMeasurementsOfFibEntry (f : Fib.EntryId)
  | getMeasurementsOfPitEntry (p : Pit.EntryId)
  | getParent (m : ℕ)
  | findMeasurementsExactMatch (n : Name)
  | cleanup (m : ℕ)
  | install (name : Name) (strategy : StrategyChoice.StrategyId)
  | choice (c : Tables.Change)

variable (S : Fib.CostSort)

/-- The effect of an operation. -/
def apply (s : TableSet) : Op → TableSet
  | .fibInsert n => s.withFib (s.fib.insert n).1
  | .fibErase q => s.withFib (s.fib.erase q)
  | .fibEraseEntry f => s.withFib (s.fib.eraseEntry f)
  | .addNextHop f face cost => s.withFib (s.fib.addNextHop S f face cost)
  | .removeNextHop f face => s.withFib (s.fib.removeNextHop f face)
  | .removeNextHopFromAllEntries face => s.withFib (s.fib.removeNextHopFromAllEntries face)
  | .pitInsert i => s.withPit (s.tables.pit.insert i).1
  | .pitFind i => s.withPit (s.tables.pit.find i).1
  | .pitErase p => s.withPit ((s.tables.pit.erase p).getD s.tables.pit)
  | .getMeasurements n => { s with tables := s.tables.getMeasurementsOfName n }
  | .getMeasurementsOfFibEntry f =>
    { s with tables := (s.getMeasurementsOfFibEntry f).getD s.tables }
  | .getMeasurementsOfPitEntry p =>
    { s with tables := (s.tables.getMeasurementsOfPitEntry p).getD s.tables }
  | .getParent m => { s with tables := (s.tables.getParent m).getD s.tables }
  | .findMeasurementsExactMatch n =>
    { s with tables := (s.tables.findMeasurementsExactMatch n).1 }
  | .cleanup m => { s with tables := s.tables.cleanup m }
  | .install name strategy => { s with tables := s.tables.install name strategy }
  | .choice c => { s with tables := (s.tables.change c).getD s.tables }

/-- The state after a run. -/
def run (s : TableSet) (ops : List Op) : TableSet :=
  ops.foldl (apply S) s

/-- The cleanup of `Measurements::cleanup` is safe. -/
def CleanupOk (s : Tables) (m : ℕ) : Prop :=
  ∀ e ∈ s.measurements m, ∀ E ∈ s.nameTree.entries e,
    EraseOk (E.namePrefix.length + 1) (s.clearMeasurements e).nameTree e

instance (s : Tables) (m : ℕ) : Decidable (CleanupOk s m) :=
  inferInstanceAs (Decidable (∀ e ∈ s.measurements m, ∀ E ∈ s.nameTree.entries e, _))

/-- The lookup of `Measurements::get` on a FIB entry is safe. -/
def FibEntryOk (s : TableSet) (f : Fib.EntryId) : Prop :=
  ∀ F ∈ s.fibEntries f, F.nameTreeEntry = none → LookupOk s.nameTree F.namePrefix

instance (s : TableSet) (f : Fib.EntryId) : Decidable (FibEntryOk s f) :=
  inferInstanceAs (Decidable (∀ F ∈ s.fibEntries f, _ → _))

/-- The condition on one operation, in the state before it: the two queries are about names that are
there, and what the other operations do to the name tree is safe. -/
def OpOk (s : TableSet) : Op → Prop
  | .pitFind i => QueryOk s.nameTree i.name
  | .findMeasurementsExactMatch n => QueryOk s.nameTree n
  | .fibInsert n => LookupOk s.nameTree n
  | .fibErase q => ∀ e ∈ s.nameTree.findExactMatch q, Fib.EraseAtOk s.fib e
  | .fibEraseEntry f => Fib.EraseEntryOk s.fib f
  | .removeNextHopFromAllEntries face =>
    Fib.EraseEntriesOk (s.fib.removeNextHops face).1 (s.fib.removeNextHops face).2
  | .pitInsert i => LookupOk s.nameTree i.name
  | .pitErase p => Pit.EraseOk s.tables.pit p
  | .getMeasurements n => LookupOk s.nameTree n
  | .getMeasurementsOfFibEntry f => FibEntryOk s f
  | .cleanup m => CleanupOk s.tables m
  | .choice c => Tables.ChangeOk s.tables c
  | _ => True

instance (s : TableSet) : ∀ op, Decidable (OpOk s op)
  | .pitFind i => inferInstanceAs (Decidable (QueryOk s.nameTree i.name))
  | .findMeasurementsExactMatch n => inferInstanceAs (Decidable (QueryOk s.nameTree n))
  | .fibInsert n => inferInstanceAs (Decidable (LookupOk s.nameTree n))
  | .fibErase q =>
    inferInstanceAs (Decidable (∀ e ∈ s.nameTree.findExactMatch q, Fib.EraseAtOk s.fib e))
  | .fibEraseEntry f => inferInstanceAs (Decidable (Fib.EraseEntryOk s.fib f))
  | .removeNextHopFromAllEntries face => inferInstanceAs (Decidable
      (Fib.EraseEntriesOk (s.fib.removeNextHops face).1 (s.fib.removeNextHops face).2))
  | .pitInsert i => inferInstanceAs (Decidable (LookupOk s.nameTree i.name))
  | .pitErase p => inferInstanceAs (Decidable (Pit.EraseOk s.tables.pit p))
  | .getMeasurements n => inferInstanceAs (Decidable (LookupOk s.nameTree n))
  | .getMeasurementsOfFibEntry f => inferInstanceAs (Decidable (FibEntryOk s f))
  | .cleanup m => inferInstanceAs (Decidable (CleanupOk s.tables m))
  | .choice c => inferInstanceAs (Decidable (Tables.ChangeOk s.tables c))
  | .addNextHop _ _ _ | .removeNextHop _ _ | .getMeasurementsOfPitEntry _ | .getParent _
  | .install _ _ => isTrue trivial

/-- The condition on a run: every operation meets the condition in the state before it. -/
def RunOk (S : Fib.CostSort) : TableSet → List Op → Prop
  | _, [] => True
  | s, op :: ops => OpOk s op ∧ RunOk S (s.apply S op) ops

instance decidableRunOk (S : Fib.CostSort) : ∀ s ops, Decidable (RunOk S s ops)
  | _, [] => isTrue trivial
  | s, op :: ops =>
      have := decidableRunOk S (s.apply S op) ops
      inferInstanceAs (Decidable (OpOk s op ∧ RunOk S (s.apply S op) ops))

/-! ### The invariant -/

/-- The back pointers of the measurements entries are right. -/
def MeasurementsStored (t : NameTree) (measurements : ℕ → Option EntryId) : Prop :=
  ∀ m e, measurements m = some e → ∃ E, t.Live e E ∧ E.attached.measurementsEntry = some m

/-- All tables agree with the name tree, and the name tree is tidy. -/
structure Inv (s : TableSet) : Prop where
  tables : s.tables.Inv
  fib : Fib.Inv s.fib
  stored : MeasurementsStored s.nameTree s.tables.measurements
  tidy : Tidy s.nameTree

variable {s : TableSet} {n : Name}

/-- The name tree is in order. -/
theorem Inv.tree (h : Inv s) : NameTree.Inv s.nameTree :=
  h.tables.tree

/-- Another name tree with the same measurements. -/
theorem MeasurementsStored.of_keeps {t t' : NameTree} {measurements : ℕ → Option EntryId}
    (h : MeasurementsStored t measurements) (hk : Keeps measurementsEntry t t') :
    MeasurementsStored t' measurements := by
  intro m e hm
  obtain ⟨E, hE, hatt⟩ := h m e hm
  obtain ⟨E', hE', -, hatt'⟩ := hk.keep e E hE (by rw [hatt]; exact some_ne_none m)
  exact ⟨E', hE', hatt'.trans hatt⟩

/-- Another FIB keeps the invariant. -/
theorem Inv.of_fib (h : Inv s) {F : Fib} (hF : Fib.Inv F)
    (hr : Replaces withoutFib s.nameTree F.nameTree) : Inv (s.withFib F) where
  tables := ⟨h.tables.pit.of_keeps hr.inv (hr.keeps.map pitEntries) s.tables.pit.nItems,
    h.tables.choices.of_keeps (hr.keeps.map strategyChoiceEntry),
    h.tables.measurements.of_keeps (hr.keeps.map measurementsEntry)⟩
  fib := hF
  stored := h.stored.of_keeps (hr.keeps.map measurementsEntry)
  tidy := hr.tidy

/-- Another PIT keeps the invariant. -/
theorem Inv.of_pit (h : Inv s) {pit : Pit} (hpit : Pit.Inv pit)
    (hr : Replaces withoutPit s.nameTree pit.nameTree) : Inv (s.withPit pit) where
  tables := ⟨hpit, h.tables.choices.of_keeps (hr.keeps.map strategyChoiceEntry),
    h.tables.measurements.of_keeps (hr.keeps.map measurementsEntry)⟩
  fib := h.fib.of_keeps hr.inv (hr.keeps.map fibEntry)
  stored := h.stored.of_keeps (hr.keeps.map measurementsEntry)
  tidy := hr.tidy

/-- Other measurements keep the invariant. -/
theorem Inv.of_measurements (h : Inv s) {T : Tables} (hT : T.Inv)
    (hr : Replaces withoutMeasurements s.nameTree T.nameTree)
    (hstored : MeasurementsStored T.nameTree T.measurements) : Inv { s with tables := T } where
  tables := hT
  fib := h.fib.of_keeps hr.inv (hr.keeps.map fibEntry)
  stored := hstored
  tidy := hr.tidy

/-- Other choices keep the invariant. -/
theorem Inv.of_choice (h : Inv s) {T : Tables} (hT : T.Inv)
    (hr : Replaces withoutStrategyChoice s.nameTree T.nameTree)
    (heq : T.measurements = s.tables.measurements) : Inv { s with tables := T } where
  tables := hT
  fib := h.fib.of_keeps hr.inv (hr.keeps.map fibEntry)
  stored := heq ▸ h.stored.of_keeps (hr.keeps.map measurementsEntry)
  tidy := hr.tidy

/-! ### The FIB -/

section Fib

variable {F : Fib} {e : NameTree.EntryId} {E : NameTree.Entry} {f : Fib.EntryId}

section

variable (h : Fib.Inv F) (htidy : Tidy F.nameTree)

include h htidy

/-- `Fib::insert` leaves the other attachments, and no empty entry. -/
theorem replaces_fibInsert (hok : LookupOk F.nameTree n) :
    Replaces withoutFib F.nameTree (F.insert n).1.nameTree := by
  obtain ⟨e, E, hE, hname, ⟨f, hf, heq⟩ | ⟨-, heq⟩⟩ := Fib.insert_cases h hok
  · rw [heq]
    refine .lookup h.tree htidy hok hE hname ?_
    intro hempty
    rw [hempty] at hf
    cases hf
  rw [heq]
  refine .lookup_attach (g := fun a => { a with fibEntry := some F.nextEntry }) h.tree htidy hok
    hE hname (fun _ => rfl) ?_
  intro hempty
  cases congrArg fibEntry hempty

/-- Erasing at a name tree entry leaves no empty entry. -/
theorem replaces_eraseAt (hE : F.nameTree.Live e E) (hok : Fib.EraseAtOk F e) :
    Replaces withoutFib F.nameTree (F.eraseAt e).nameTree := by
  change Replaces _ _ ((F.detach e).nameTree.eraseEntryIfEmpty e).1
  rcases hf : E.attached.fibEntry with _ | f
  · have hself := Fib.detach_eq_self hE hf
    have hok' := hok E (by rw [hself]; exact hE.entry)
    rw [hself] at hok' ⊢
    exact .eraseEntryIfEmpty (.of_extends (.refl _)) h.tree (htidy.but e) hE hok'
  have hlive := (Fib.live_detach hE).mpr ⟨E, hE, rfl⟩
  rw [if_pos rfl] at hlive
  have hok' := hok _ hlive.entry
  rw [Fib.detach_eq hE hf] at hok' ⊢
  exact .detach (g := fun a => { a with fibEntry := none }) h.tree htidy hE (fun _ => rfl) hok'

/-- Erasing a FIB entry leaves no empty entry. -/
theorem replaces_eraseEntry (hok : Fib.EraseEntryOk F f) :
    Replaces withoutFib F.nameTree (F.eraseEntry f).nameTree := by
  rcases Fib.eraseEntry_cases h f with ⟨-, heq⟩ | ⟨e, E, hE, -, he, heq⟩
  · rw [heq]
    exact .refl h.tree htidy
  · rw [heq]
    exact replaces_eraseAt h htidy hE (hok e he)

end

/-- Erasing several FIB entries leaves no empty entry. -/
theorem foldl_eraseEntry {fs : List Fib.EntryId} : ∀ {F : Fib}, Fib.Inv F → Tidy F.nameTree →
    Fib.EraseEntriesOk F fs → Fib.Inv (fs.foldl Fib.eraseEntry F) ∧
      Replaces withoutFib F.nameTree (fs.foldl Fib.eraseEntry F).nameTree := by
  induction fs with
  | nil =>
    intro F h htidy _
    exact ⟨h, .refl h.tree htidy⟩
  | cons f fs ih =>
    intro F h htidy hok
    have hr := replaces_eraseEntry h htidy hok.1
    obtain ⟨h', hr'⟩ := ih (h.eraseEntry hok.1) hr.tidy hok.2
    exact ⟨h', hr.trans hr'⟩

end Fib

/-- `Fib::erase` keeps the invariant. -/
theorem Inv.fibErase (h : Inv s) {q : KeptName}
    (hok : ∀ e ∈ s.nameTree.findExactMatch q, Fib.EraseAtOk s.fib e) :
    Inv (s.withFib (s.fib.erase q)) := by
  unfold Fib.erase
  rcases hfind : s.fib.nameTree.findExactMatch q with _ | e
  · exact h.of_fib h.fib (.refl h.tree h.tidy)
  · obtain ⟨⟨ch, hT⟩, -⟩ := h.tree
    obtain ⟨E, -, -, hE, -⟩ := hT.scan_eq_some (hT.location_lt _) hfind
    have hsafe := hok e hfind
    exact h.of_fib (h.fib.eraseAt hE hsafe) (replaces_eraseAt h.fib h.tidy hE hsafe)

/-- Removing a next hop everywhere keeps the invariant. -/
theorem Inv.removeNextHopFromAllEntries (h : Inv s) {face : FaceRef}
    (hok : Fib.EraseEntriesOk (s.fib.removeNextHops face).1 (s.fib.removeNextHops face).2) :
    Inv (s.withFib (s.fib.removeNextHopFromAllEntries face)) := by
  have htree : (s.fib.removeNextHops face).1.nameTree = s.nameTree :=
    (Fib.removed_foldl h.fib face _).nameTree
  obtain ⟨hF, hr⟩ := foldl_eraseEntry (h.fib.removeNextHops face) (htree ▸ h.tidy) hok
  rw [htree] at hr
  exact h.of_fib hF hr

/-! ### The PIT -/

section Pit

variable {pit : Pit} {p : Pit.EntryId} {i : Interest}

/-- `Pit::insert` leaves the other attachments, and no empty entry. -/
theorem replaces_pitInsert (h : Pit.Inv pit) (htidy : Tidy pit.nameTree)
    (hok : LookupOk pit.nameTree i.name) :
    Replaces withoutPit pit.nameTree (pit.insert i).1.nameTree := by
  unfold Pit.insert
  obtain ⟨e, E, hE, hname, ⟨p, hp, -, heq⟩ | ⟨-, heq⟩⟩ := Pit.findOrInsert_cases h hok true
  · rw [heq]
    refine .lookup h.tree htidy hok hE hname ?_
    intro hempty
    rw [hempty] at hp
    cases hp
  rw [heq, if_pos rfl]
  refine .lookup_attach (g := fun a => { a with pitEntries := a.pitEntries ++ [pit.nextEntry] })
    h.tree htidy hok hE hname (fun _ => rfl) ?_
  intro hempty
  exact List.append_ne_nil_of_right_ne_nil _ (List.cons_ne_nil _ _)
    (congrArg pitEntries hempty)

/-- `Pit::erase` leaves no empty entry. -/
theorem replaces_pitErase (h : Pit.Inv pit) (htidy : Tidy pit.nameTree) (hok : Pit.EraseOk pit p) :
    Replaces withoutPit pit.nameTree ((pit.erase p).getD pit).nameTree := by
  obtain ⟨e, he, E', hE', hok⟩ := hok
  obtain ⟨P, hP, he⟩ := bind_eq_some_iff.mp he
  obtain ⟨E, hE, -⟩ := h.stored p P e hP he
  have hlive := (Pit.live_detach (p := p) (e := e)).mpr ⟨E, hE, rfl⟩
  rw [if_pos rfl] at hlive
  obtain rfl := some.inj ((mem_def.mp hE').symm.trans hlive.entry)
  rw [Pit.erase_eq_some hP he]
  exact .detach (g := fun a => { a with pitEntries := swapPop a.pitEntries p }) h.tree htidy hE
    (fun _ => rfl) hok

/-- `Pit::find` makes a lookup. -/
theorem pitFind_eq (pit : Pit) (i : Interest) :
    (pit.find i).1 = { pit with nameTree := (pit.nameTree.lookup i.name).1 } := by
  unfold Pit.find Pit.findOrInsert
  dsimp only
  split
  · rfl
  · split <;> rfl

end Pit

/-! ### The Measurements table -/

section Measurements

variable {T : Tables} {e : NameTree.EntryId} {E : NameTree.Entry} {m : ℕ}

/-- `get` finds measurements or attaches new ones. -/
theorem getMeasurements_cases (hE : T.nameTree.Live e E) :
    (E.attached ≠ empty ∧ T.getMeasurements e = T) ∨
      (E.attached.measurementsEntry = none ∧
        (T.getMeasurements e).nameTree = T.nameTree.modifyAttached e (fun a =>
          { a with measurementsEntry := some T.nextMeasurements }) ∧
        (T.getMeasurements e).measurements =
          update T.measurements T.nextMeasurements (some e)) := by
  unfold Tables.getMeasurements
  rw [hE.entry, bind_some]
  rcases hm : E.attached.measurementsEntry with _ | m
  · exact .inr ⟨rfl, rfl, rfl⟩
  · refine .inl ⟨?_, rfl⟩
    intro hempty
    rw [hempty] at hm
    cases hm

/-- `get` keeps the measurements stored. -/
theorem MeasurementsStored.getMeasurements
    (hstored : MeasurementsStored T.nameTree T.measurements) (hE : T.nameTree.Live e E) :
    MeasurementsStored (T.getMeasurements e).nameTree (T.getMeasurements e).measurements := by
  rcases getMeasurements_cases hE with ⟨-, heq⟩ | ⟨hnone, htree, hmeasurements⟩
  · rw [heq]
    exact hstored
  rw [htree, hmeasurements]
  intro m x hm
  by_cases hnew : m = T.nextMeasurements
  · rw [hnew, update_self] at hm
    obtain rfl := some.inj hm
    exact ⟨_, live_modifyAttached.mpr ⟨E, hE, rfl⟩, by rw [if_pos rfl, hnew]⟩
  rw [update_of_ne hnew] at hm
  obtain ⟨X, hX, hatt⟩ := hstored m x hm
  grind [live_modifyAttached, hX.contents_eq]

/-- `get` keeps the invariant. -/
theorem Inv.getMeasurements (h : Inv s) (hE : s.nameTree.Live e E) :
    Inv { s with tables := s.tables.getMeasurements e } := by
  refine h.of_measurements (h.tables.getMeasurements e) ?_
    (MeasurementsStored.getMeasurements h.stored hE)
  rcases getMeasurements_cases (T := s.tables) hE with ⟨-, heq⟩ | ⟨-, htree, -⟩
  · rw [heq]
    exact .refl h.tree h.tidy
  · rw [htree]
    refine .attach h.tree h.tidy hE (fun _ => rfl) ?_
    intro hempty
    cases congrArg measurementsEntry hempty

/-- `get` of a name keeps the invariant. -/
theorem Inv.getMeasurementsOfName (h : Inv s) (hok : LookupOk s.nameTree n) :
    Inv { s with tables := s.tables.getMeasurementsOfName n } := by
  obtain ⟨hinv, hext, e, E, he, hE, hname⟩ := lookup_spec h.tree hok
  let T := s.tables.withTree (s.nameTree.lookup n).1
  have heq : s.tables.getMeasurementsOfName n = T.getMeasurements e := by
    have he' : (s.tables.nameTree.lookup n).2 = some e := he
    unfold Tables.getMeasurementsOfName
    simp only [he']
    rfl
  have hT : T.Inv := h.tables.lookup hok
  have hstored : MeasurementsStored T.nameTree T.measurements :=
    h.stored.of_keeps (.of_extends hext)
  rw [heq]
  refine h.of_measurements (hT.getMeasurements e) ?_ (hstored.getMeasurements hE)
  rcases getMeasurements_cases (T := T) hE with ⟨hne, heq⟩ | ⟨-, htree, -⟩
  · rw [heq]
    exact .lookup h.tree h.tidy hok hE hname hne
  · rw [htree]
    refine .lookup_attach h.tree h.tidy hok hE hname (fun _ => rfl) ?_
    intro hempty
    cases congrArg measurementsEntry hempty

/-- `get` of a FIB entry keeps the invariant. -/
theorem Inv.getMeasurementsOfFibEntry (h : Inv s) {f : Fib.EntryId} (hok : FibEntryOk s f) :
    Inv { s with tables := (s.getMeasurementsOfFibEntry f).getD s.tables } := by
  unfold TableSet.getMeasurementsOfFibEntry
  rcases hF : s.fibEntries f with _ | F
  · exact h
  rcases he : F.nameTreeEntry with _ | e
  · simp only [map_some, getD_some, he]
    exact h.getMeasurementsOfName (hok F hF he)
  · simp only [map_some, getD_some, he]
    obtain ⟨E, hE, -⟩ := h.fib.stored f F e hF he
    exact h.getMeasurements hE

/-- `get` of a PIT entry keeps the invariant. -/
theorem Inv.getMeasurementsOfPitEntry (h : Inv s) (p : Pit.EntryId) :
    Inv { s with tables := (s.tables.getMeasurementsOfPitEntry p).getD s.tables } := by
  unfold Tables.getMeasurementsOfPitEntry
  rcases he : (s.tables.pit.entries p).bind Pit.Entry.nameTreeEntry with _ | e
  · exact h
  · obtain ⟨P, hP, hback⟩ := bind_eq_some_iff.mp he
    obtain ⟨E, hE, -⟩ := h.tables.pit.stored p P e hP hback
    exact h.getMeasurements hE

/-- `getParent` keeps the invariant. -/
theorem Inv.getParent (h : Inv s) (m : ℕ) :
    Inv { s with tables := (s.tables.getParent m).getD s.tables } := by
  unfold Tables.getParent
  rcases hm : s.tables.measurements m with _ | c
  · exact h
  obtain ⟨C, hC, -⟩ := h.stored m c hm
  have hentry : s.tables.nameTree.entries c = some C := hC.entry
  simp only [bind_some, hentry, map_some, getD_some]
  by_cases hroot : C.namePrefix.length = 0
  · rw [if_pos hroot]
    exact h
  · obtain ⟨p, P, hp, hP, -⟩ :=
      h.tree.2.parent c C hC fun hnil => hroot (List.length_eq_zero_iff.mpr hnil)
    rw [if_neg hroot, hp]
    exact h.getMeasurements hP

/-- The measurements of an entry are detached. -/
theorem clearMeasurements_eq (hE : T.nameTree.Live e E)
    (hm : E.attached.measurementsEntry = some m) :
    (T.clearMeasurements e).nameTree = T.nameTree.modifyAttached e (fun a =>
        { a with measurementsEntry := none }) ∧
      (T.clearMeasurements e).measurements = update T.measurements m none := by
  unfold Tables.clearMeasurements
  rw [hE.entry, bind_some, hm]
  exact ⟨rfl, rfl⟩

/-- The other measurements stay stored. -/
theorem MeasurementsStored.clearMeasurements
    (hstored : MeasurementsStored T.nameTree T.measurements) (hE : T.nameTree.Live e E)
    (hm : E.attached.measurementsEntry = some m) :
    MeasurementsStored (T.clearMeasurements e).nameTree (T.clearMeasurements e).measurements := by
  obtain ⟨htree, hmeasurements⟩ := clearMeasurements_eq hE hm
  rw [htree, hmeasurements]
  intro m' x hm'
  have hne : m' ≠ m := by
    rintro rfl
    rw [update_self] at hm'
    cases hm'
  rw [update_of_ne hne] at hm'
  obtain ⟨X, hX, hatt⟩ := hstored m' x hm'
  grind [live_modifyAttached, hX.contents_eq]

/-- `cleanup` keeps the invariant. -/
theorem Inv.cleanup (h : Inv s) (hok : CleanupOk s.tables m) :
    Inv { s with tables := s.tables.cleanup m } := by
  unfold Tables.cleanup
  rcases he : s.tables.measurements m with _ | e
  · exact h
  obtain ⟨E, hE, hm⟩ := h.stored m e he
  have hsafe := hok e he E hE.entry
  have hT := h.tables.clearMeasurements hE
  have hstored := h.stored.clearMeasurements hE hm
  obtain ⟨htree, -⟩ := clearMeasurements_eq (T := s.tables) hE hm
  have hlive : (s.tables.clearMeasurements e).nameTree.Live e
      { E with attached := { E.attached with measurementsEntry := none } } := by
    rw [htree]
    exact live_modifyAttached.mpr ⟨E, hE, (if_pos rfl).symm⟩
  obtain ⟨-, hprune⟩ := eraseEntryIfEmpty_spec hT.tree hlive hsafe
  refine h.of_measurements (hT.eraseEntryIfEmpty hlive hsafe) ?_
    (hstored.of_keeps (.of_prunes hprune))
  change Replaces _ _ ((s.tables.clearMeasurements e).nameTree.eraseEntryIfEmpty e).1
  rw [htree] at hsafe ⊢
  exact .detach h.tree h.tidy hE (fun _ => rfl) hsafe

end Measurements

/-! ### The Strategy Choice table -/

/-- A safe change of a choice keeps the invariant. -/
theorem Inv.choice (h : Inv s) {c : Tables.Change} (hok : Tables.ChangeOk s.tables c) :
    Inv { s with tables := (s.tables.change c).getD s.tables } := by
  obtain ⟨T, hchange, hT⟩ := h.tables.change hok
  rw [hchange, getD_some]
  cases c with
  | insert q strategyName =>
    rcases hσ : s.tables.getStrategy strategyName with _ | σ
    · have hsame : some s.tables = some T := by
        rw [← hchange, Tables.change, Tables.insertChoice, hσ]
      rw [← some.inj hsame]
      exact h
    have hlookup : LookupOk s.tables.nameTree q.name := hok (by rw [hσ]; rfl)
    obtain ⟨e, E, hE, hname, ⟨c, -, old, hc, -, -, heq⟩ | ⟨-, old, -, heq⟩⟩ :=
      h.tables.insertChoice_cases hlookup hσ
    · have hT' := some.inj (hchange.symm.trans heq)
      have hne : E.attached ≠ empty := by
        intro hempty
        rw [hempty] at hc
        cases hc
      have hr : Replaces withoutStrategyChoice s.nameTree (s.nameTree.lookup q.name).1 :=
        .lookup h.tree h.tidy hlookup hE hname hne
      obtain ⟨info, hinfo⟩ := Tables.changeStrategy_eq
        (s.tables.withTree (s.tables.nameTree.lookup q.name).1) c old σ
      rw [hinfo] at hT'
      refine h.of_choice hT ?_ ?_
      · rw [hT']
        split_ifs <;> exact hr
      · rw [hT']
        split_ifs <;> rfl
    · have hT' := some.inj (hchange.symm.trans heq)
      obtain ⟨info, hinfo⟩ := Tables.changeStrategy_eq
        ((s.tables.withTree (s.tables.nameTree.lookup q.name).1).attachChoice e q)
        (s.tables.withTree (s.tables.nameTree.lookup q.name).1).nextChoice old σ
      rw [hinfo] at hT'
      refine h.of_choice hT ?_ ?_
      · rw [hT']
        refine .lookup_attach
          (g := fun a => { a with strategyChoiceEntry := some s.tables.nextChoice })
          h.tree h.tidy hlookup hE hname (fun _ => rfl) ?_
        intro hempty
        cases congrArg strategyChoiceEntry hempty
      · rw [hT']
        rfl
  | erase q =>
    obtain ⟨hne, hno, herase⟩ := hok
    rcases h.tables.eraseChoice_cases hno with
      ⟨-, heq⟩ | ⟨e, E, c, -, old, parent, hfind, hE, hname, hc, -, -, -, heq⟩
    · rw [← some.inj (heq.symm.trans hchange)]
      exact h
    have hT' := some.inj (hchange.symm.trans heq)
    have hsafe := herase e hfind (by
      rw [hE.entry]
      exact Tables.hasChoice_iff.mpr (hc ▸ some_ne_none c))
    rw [← hname] at hsafe
    refine h.of_choice hT ?_ ?_
    · rw [hT', Tables.nameTree_changeStrategy_detachChoice]
      exact .detach h.tree h.tidy hE (fun _ => rfl) hsafe
    · obtain ⟨info, hinfo⟩ := Tables.changeStrategy_eq s.tables c old parent
      rw [hT', hinfo]
      rfl

/-! ### Runs -/

/-- The root with the default strategy. -/
theorem replaces_create {nBuckets : ℕ} (hpos : 1 ≤ nBuckets) (name : Name)
    (strategy : StrategyChoice.StrategyId) :
    Replaces withoutStrategyChoice (NameTree.create nBuckets)
      (create nBuckets name strategy).nameTree := by
  have hok := lookupOk_create_nil hpos
  have hinv := NameTree.inv_create hpos
  obtain ⟨-, -, e, E, he, hE, hname⟩ := lookup_spec hinv hok
  have htidy : Tidy (NameTree.create nBuckets) := by
    intro x X hX
    cases hX
  have htree : (create nBuckets name strategy).nameTree =
      ((NameTree.create nBuckets).lookup []).1.modifyAttached e fun a =>
        { a with strategyChoiceEntry := some 0 } := by
    have he' : ((Pit.create nBuckets).nameTree.lookup []).2 = some e := he
    unfold create nameTree Tables.create
    simp only [Tables.nameTree, he']
    rfl
  rw [htree]
  refine .lookup_attach hinv htidy hok hE hname (fun _ => rfl) ?_
  intro hempty
  cases congrArg strategyChoiceEntry hempty

/-- The invariant holds at the beginning. -/
theorem inv_create {nBuckets : ℕ} (hpos : 1 ≤ nBuckets) (name : Name)
    (strategy : StrategyChoice.StrategyId) : Inv (create nBuckets name strategy) := by
  have hr := replaces_create hpos name strategy
  refine ⟨Tables.inv_create hpos name strategy, ?_, ?_, hr.tidy⟩
  · exact (Fib.inv_create hpos).of_keeps hr.inv (hr.keeps.map fibEntry)
  have hnone : (create nBuckets name strategy).tables.measurements = fun _ => none := by
    unfold create Tables.create
    dsimp only
    split <;> rfl
  intro m e hm
  cases hm

/-- A safe operation keeps the invariant. -/
theorem inv_apply (h : Inv s) {op : Op} (hok : OpOk s op) : Inv (s.apply S op) := by
  cases op with
  | fibInsert n => exact h.of_fib (h.fib.insert hok) (replaces_fibInsert h.fib h.tidy hok)
  | fibErase q => exact h.fibErase hok
  | fibEraseEntry f =>
    exact h.of_fib (h.fib.eraseEntry hok) (replaces_eraseEntry h.fib h.tidy hok)
  | addNextHop f face cost =>
    exact h.of_fib (h.fib.modifyHops f fun _ hsorted => hsorted.addNextHop S face cost)
      (.refl h.tree h.tidy)
  | removeNextHop f face =>
    exact h.of_fib (h.fib.modifyHops f fun _ hsorted => hsorted.removeNextHop face)
      (.refl h.tree h.tidy)
  | removeNextHopFromAllEntries face => exact h.removeNextHopFromAllEntries hok
  | pitInsert i =>
    have hpit : Pit.Inv (s.tables.pit.apply (.insert i)) := Pit.inv_apply h.tables.pit hok
    exact h.of_pit hpit (replaces_pitInsert h.tables.pit h.tidy hok)
  | pitFind i =>
    have heq : s.apply S (.pitFind i) = s := by
      change s.withPit (s.tables.pit.find i).1 = s
      have hsame : (s.tables.pit.nameTree.lookup i.name).1 = s.tables.pit.nameTree :=
        hok.lookup_eq_self h.tree
      rw [pitFind_eq, hsame]
      rfl
    rw [heq]
    exact h
  | pitErase p =>
    have hpit : Pit.Inv (s.tables.pit.apply (.erase p)) := Pit.inv_apply h.tables.pit hok
    exact h.of_pit hpit (replaces_pitErase h.tables.pit h.tidy hok)
  | getMeasurements n => exact h.getMeasurementsOfName hok
  | getMeasurementsOfFibEntry f => exact h.getMeasurementsOfFibEntry hok
  | getMeasurementsOfPitEntry p => exact h.getMeasurementsOfPitEntry p
  | getParent m => exact h.getParent m
  | findMeasurementsExactMatch n =>
    have heq : s.apply S (.findMeasurementsExactMatch n) = s := by
      change { s with tables := s.tables.withTree (s.nameTree.lookup n).1 } = s
      rw [hok.lookup_eq_self h.tree]
      rfl
    rw [heq]
    exact h
  | cleanup m => exact h.cleanup hok
  | install name strategy =>
    have hT : Tables.Inv (s.tables.apply (.install name strategy)) :=
      Tables.inv_apply h.tables trivial
    refine h.of_choice hT ?_ ?_
    · unfold Tables.install
      split_ifs <;> exact .refl h.tree h.tidy
    · unfold Tables.install
      split_ifs <;> rfl
  | choice c => exact h.choice hok

/-- A safe run keeps the invariant. -/
theorem inv_run {ops : List Op} : ∀ {s : TableSet}, Inv s → RunOk S s ops →
    Inv (s.run S ops) := by
  induction ops with
  | nil =>
    intro s h _
    exact h
  | cons op ops ih =>
    intro s h hok
    exact ih (inv_apply S h hok.1) hok.2

/-- The name tree holds nothing that no table needs, and the queries that leave it as it is, and
tidy, are those about names that are there. -/
structure NothingLeft (S : Fib.CostSort) (s : TableSet) : Prop where
  needed : ∀ x X, s.nameTree.Live x X → X.children = [] → X.attached ≠ empty
  find_unchanged : ∀ i, LookupOk s.nameTree i.name →
    s.nameTree.nItems ≤ s.nameTree.enlargeThreshold →
      ((s.apply S (.pitFind i)).nameTree = s.nameTree ↔ s.nameTree.LiveName i.name)
  find_tidy : ∀ i, LookupOk s.nameTree i.name →
    (Tidy (s.apply S (.pitFind i)).nameTree ↔ s.nameTree.LiveName i.name)
  findExactMatch_unchanged : ∀ n, LookupOk s.nameTree n →
    s.nameTree.nItems ≤ s.nameTree.enlargeThreshold →
      ((s.apply S (.findMeasurementsExactMatch n)).nameTree = s.nameTree ↔ s.nameTree.LiveName n)
  findExactMatch_tidy : ∀ n, LookupOk s.nameTree n →
    (Tidy (s.apply S (.findMeasurementsExactMatch n)).nameTree ↔ s.nameTree.LiveName n)

/-- The name tree after `Pit::find`. -/
theorem nameTree_apply_pitFind (s : TableSet) (i : Interest) :
    (s.apply S (.pitFind i)).nameTree = (s.nameTree.lookup i.name).1 := by
  change (s.tables.pit.find i).1.nameTree = _
  rw [pitFind_eq]
  rfl

/-- The name tree after a search for measurements. -/
theorem nameTree_apply_findMeasurementsExactMatch (s : TableSet) (n : Name) :
    (s.apply S (.findMeasurementsExactMatch n)).nameTree = (s.nameTree.lookup n).1 :=
  rfl

/-- The invariant gives what should hold. -/
theorem Inv.nothingLeft (h : Inv s) : NothingLeft S s where
  needed := by
    intro x X hX hnil
    have hneeded := Entry.isEmpty_eq_false_iff.mp (h.tidy x X hX)
    exact hneeded.resolve_left fun hne => hne hnil
  find_unchanged := by
    intro i hok hsize
    rw [nameTree_apply_pitFind]
    exact lookup_eq_self_iff h.tree hok hsize
  find_tidy := by
    intro i hok
    rw [nameTree_apply_pitFind]
    exact h.tidy.tidy_lookup_iff h.tree hok
  findExactMatch_unchanged := by
    intro n hok hsize
    exact lookup_eq_self_iff h.tree hok hsize
  findExactMatch_tidy := by
    intro n hok
    exact h.tidy.tidy_lookup_iff h.tree hok

/-- In every state of a run in which the two queries are about names that are there, nothing is left
behind. -/
theorem nothingLeft_of_runOk (S : Fib.CostSort) {nBuckets : ℕ} (hpos : 1 ≤ nBuckets) (name : Name)
    (strategy : StrategyChoice.StrategyId) {ops : List Op}
    (hok : RunOk S (create nBuckets name strategy) ops) :
    NothingLeft S ((create nBuckets name strategy).run S ops) :=
  (inv_run S (inv_create hpos name strategy) hok).nothingLeft S

/-- All tables use `/A` and the names below it, are asked about them, and give some of them up. -/
def sharedNames : List Op :=
  [.fibInsert [.generic [0x41]],
    .pitInsert (Pit.plainInterest [.generic [0x41], .generic [0x42]]),
    .pitFind (Pit.plainInterest [.generic [0x41]]),
    .getMeasurementsOfPitEntry 0, .getParent 0, .fibErase nameA, .pitErase 0,
    .findMeasurementsExactMatch [.generic [0x41], .generic [0x42]], .cleanup 0,
    .choice (.insert (Name.encoded [.generic [0x43]]) [.generic [0x31]]),
    .choice (.erase (Name.encoded [.generic [0x43]]))]

/-- A run in which the tables share names. -/
theorem nothingLeft_sharedNames : NothingLeft Fib.byInsertion
      ((create 16 [.generic [0x31]] 1).run Fib.byInsertion sharedNames) :=
  nothingLeft_of_runOk Fib.byInsertion (by decide) _ _ (by decide +kernel)

/-- The tables with the default number of buckets and the strategy `/1`. -/
def fresh : TableSet :=
  create 1024 [.generic [0x31]] 1

/-- One query about a name that is not there.  `Pit::find` and `Measurements::findExactMatch` leave
the entry of `/A` behind, with nothing attached to it. -/
theorem query_leaves_empty_entry : (¬ NothingLeft Fib.byInsertion (fresh.run Fib.byInsertion
        [.pitFind (Pit.plainInterest [.generic [0x41]])]) ∧
      (fresh.apply Fib.byInsertion
        (.pitFind (Pit.plainInterest [.generic [0x41]]))).nameTree ≠ fresh.nameTree) ∧
    ¬ NothingLeft Fib.byInsertion (fresh.run Fib.byInsertion
        [.findMeasurementsExactMatch [.generic [0x41]]]) ∧
      (fresh.apply Fib.byInsertion
        (.findMeasurementsExactMatch [.generic [0x41]])).nameTree ≠ fresh.nameTree := by
  have hentry : ∃ E ∈ (fresh.nameTree.lookup [.generic [0x41]]).1.entries 1,
      (fresh.nameTree.lookup [.generic [0x41]]).1.nodeEntry E.node = some (1, E) ∧
        E.children = [] ∧ E.attached = empty := by decide +kernel
  have hcount : (fresh.nameTree.lookup [.generic [0x41]]).1.nItems ≠
      fresh.nameTree.nItems := by decide +kernel
  obtain ⟨E, -, hE, hnil, hempty⟩ := hentry
  have hleft : ∀ op, (fresh.apply Fib.byInsertion op).nameTree =
      (fresh.nameTree.lookup [.generic [0x41]]).1 →
      ¬ NothingLeft Fib.byInsertion (fresh.run Fib.byInsertion [op]) ∧
        (fresh.apply Fib.byInsertion op).nameTree ≠ fresh.nameTree := by
    intro op htree
    refine ⟨fun h => h.needed 1 E ?_ hnil hempty, ?_⟩
    · rw [run, List.foldl_cons, List.foldl_nil, htree]
      exact hE
    · grind
  exact ⟨hleft _ (nameTree_apply_pitFind ..),
    hleft _ (nameTree_apply_findMeasurementsExactMatch ..)⟩

end TableSet

end IcnDemo
