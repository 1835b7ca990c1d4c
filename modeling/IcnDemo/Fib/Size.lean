import IcnDemo.Fib.Refine
import Mathlib.Data.Set.Card

/-!
# The size of the FIB

`Fib::size` returns the counter `m_nItems`.  An erasure by prefix decrements it also at a name tree
entry that only other tables use, and from then on it is not the number of FIB entries.
-/

namespace IcnDemo.Fib

open NameTree

/-- The FIB with `m_nItems`. -/
structure Counted where
  fib : Fib
  nItems : UInt64

namespace Counted

/-- The FIB over a fresh name tree. -/
def create (nBuckets : ℕ) : Counted :=
  ⟨Fib.create nBuckets, 0⟩

variable (S : CostSort) (c : Counted)

/-- `Fib::insert`. -/
def insert (n : Name) : Counted :=
  let r := c.fib.insert n
  ⟨r.1, if r.2.any Prod.snd then c.nItems + 1 else c.nItems⟩

/-- `Fib::erase` on a name tree entry, if one was found. -/
def eraseAt : Option NameTree.EntryId → Counted
  | none => c
  | some e => ⟨c.fib.eraseAt e, c.nItems - 1⟩

/-- `Fib::erase` on a FIB entry. -/
def eraseEntry (f : EntryId) : Counted :=
  c.eraseAt ((c.fib.entries f).bind Entry.nameTreeEntry)

/-- The effect of an operation. -/
def apply : Op → Counted
  | .insert n => c.insert n
  | .erase q => c.eraseAt (c.fib.nameTree.findExactMatch q)
  | .eraseEntry f => c.eraseEntry f
  | .removeNextHopFromAllEntries face =>
    (c.fib.removeNextHops face).2.foldl eraseEntry ⟨(c.fib.removeNextHops face).1, c.nItems⟩
  | op => ⟨c.fib.apply S op, c.nItems⟩

/-- The state after a run. -/
def run (ops : List Op) : Counted :=
  ops.foldl (apply S) c

/-- The counter does not matter for an erasure. -/
theorem fib_eraseEntry (f : EntryId) : (c.eraseEntry f).fib = c.fib.eraseEntry f := by
  unfold eraseEntry Fib.eraseEntry
  cases (c.fib.entries f).bind Entry.nameTreeEntry <;> rfl

/-- The counter does not matter for the FIB. -/
theorem fib_apply (op : Op) : (c.apply S op).fib = c.fib.apply S op := by
  cases op with
  | erase q =>
    change (c.eraseAt _).fib = c.fib.erase q
    unfold erase
    cases c.fib.nameTree.findExactMatch q <;> rfl
  | eraseEntry f => exact c.fib_eraseEntry f
  | removeNextHopFromAllEntries face =>
    exact (List.foldl_hom fib fun c f => (c.fib_eraseEntry f).symm).symm
  | _ => rfl

end Counted

/-- The name tree entries that hold a FIB entry. -/
def holders (t : NameTree) : Set NameTree.EntryId :=
  {e | ∃ E, t.Live e E ∧ hasFibEntry E}

/-- Whether an erasure by prefix finds a name tree entry without a FIB entry. -/
def missed (s : Fib) : Op → ℕ
  | .erase q =>
    if (s.nameTree.findExactMatch q).any fun e => (s.getFibEntry e).isNone then 1 else 0
  | _ => 0

/-- How often that happens in a run. -/
def misses (S : CostSort) : Fib → List Op → ℕ
  | _, [] => 0
  | s, op :: ops => missed s op + misses S (s.apply S op) ops

/-- The counter is `k` behind the number of FIB entries. -/
def Behind (c : Counted) (k : ℕ) : Prop :=
  c.nItems + UInt64.ofNat k = UInt64.ofNat (holders c.fib.nameTree).ncard

variable {s : Fib} {t t' : NameTree} {e : NameTree.EntryId} {E : NameTree.Entry}

/-- The FIB entries stay when only other attachments change. -/
theorem holders_of_keeps (hk : Keeps Attachments.fibEntry t t') : holders t' = holders t := by
  ext e
  constructor
  · rintro ⟨E', hE', hf⟩
    obtain ⟨E, hE, -, hatt⟩ := hk.old e E' hE' (Option.isSome_iff_ne_none.mp hf)
    exact ⟨E, hE, by rwa [hasFibEntry, ← hatt]⟩
  · rintro ⟨E, hE, hf⟩
    obtain ⟨E', hE', -, hatt⟩ := hk.keep e E hE (Option.isSome_iff_ne_none.mp hf)
    exact ⟨E', hE', by rwa [hasFibEntry, hatt]⟩

/-- There are finitely many FIB entries. -/
theorem finite_holders (h : NameTree.Inv t) : (holders t).Finite := by
  obtain ⟨⟨ch, hT⟩, -⟩ := h
  refine (Set.finite_lt_nat t.nextEntry).subset ?_
  rintro e ⟨E, hE, -⟩
  exact hT.lt_nextEntry hE.entry

/-- Whether a live name tree entry holds a FIB entry. -/
theorem mem_holders (hE : t.Live e E) : e ∈ holders t ↔ hasFibEntry E := by
  refine ⟨?_, fun hf => ⟨E, hE, hf⟩⟩
  rintro ⟨X, hX, hf⟩
  rwa [hE.contents_eq hX]

/-- A new FIB entry. -/
theorem holders_attach (hE : s.nameTree.Live e E) (n : Name) :
    holders (s.attach e n).nameTree = Insert.insert e (holders s.nameTree) := by
  ext x
  simp only [holders, live_attach, Set.mem_ofPred_eq, Set.mem_insert_iff]
  grind [hasFibEntry]

/-- A FIB entry that is taken off. -/
theorem holders_detach (hE : s.nameTree.Live e E) :
    holders (s.detach e).nameTree = holders s.nameTree \ {e} := by
  ext x
  simp only [holders, live_detach hE, Set.mem_ofPred_eq, Set.mem_sdiff, Set.mem_singleton_iff]
  grind [hasFibEntry]

namespace Behind

variable {c : Counted} {k : ℕ} (hc : Behind c k)

include hc

/-- The other tables do not matter. -/
theorem of_keeps (hk : Keeps Attachments.fibEntry c.fib.nameTree t) :
    Behind ⟨{ c.fib with nameTree := t }, c.nItems⟩ k := by
  rw [Behind, holders_of_keeps hk]
  exact hc

variable (h : Inv c.fib)

include h

/-- An insertion counts the entry it makes. -/
theorem insert {n : Name} (hok : LookupOk c.fib.nameTree n) : Behind (c.insert n) k := by
  obtain ⟨htree, hext, -⟩ := lookup_spec h.tree hok
  have hlookup := hc.of_keeps (.of_extends hext)
  obtain ⟨e, E, hE, -, ⟨f, -, heq⟩ | ⟨hf, heq⟩⟩ := insert_cases h hok
  · rw [Counted.insert, heq]
    exact hlookup
  · have hnot : e ∉ holders (c.fib.nameTree.lookup n).1 := by
      rw [mem_holders hE, hasFibEntry, hf]
      exact Bool.false_ne_true
    rw [Behind] at hlookup
    rw [Counted.insert, heq, Behind, holders_attach (s := { c.fib with nameTree := _ }) hE,
      Set.ncard_insert_of_notMem hnot (finite_holders htree), UInt64.ofNat_add, ← hlookup]
    grind

/-- An erasure at a name tree entry without a FIB entry puts the counter behind. -/
theorem eraseAt (hE : c.fib.nameTree.Live e E) (hok : EraseAtOk c.fib e) :
    Behind (c.eraseAt (some e)) (k + if hasFibEntry E then 0 else 1) := by
  have hlive := (live_detach hE).mpr ⟨E, hE, rfl⟩
  obtain ⟨-, hprune⟩ := eraseEntryIfEmpty_spec (h.detach hE).tree hlive (hok _ hlive.entry)
  have hholders : holders (c.fib.eraseAt e).nameTree = holders c.fib.nameTree \ {e} :=
    (holders_of_keeps (.of_prunes hprune)).trans (holders_detach hE)
  rw [Behind] at hc
  rw [Counted.eraseAt, Behind, hholders, UInt64.ofNat_add]
  split_ifs with hf
  · have hcard :=
      Set.ncard_sdiff_singleton_add_one ((mem_holders hE).mpr hf) (finite_holders h.tree)
    rw [← hcard, UInt64.ofNat_add] at hc
    grind
  · rw [Set.sdiff_singleton_eq_self fun hmem => hf ((mem_holders hE).mp hmem)]
    grind

/-- A FIB entry that is attached is there to be erased. -/
theorem eraseEntry {f : EntryId} (hok : EraseEntryOk c.fib f) : Behind (c.eraseEntry f) k := by
  unfold Counted.eraseEntry
  rcases he : (c.fib.entries f).bind Entry.nameTreeEntry with _ | e
  · exact hc
  · obtain ⟨F, hF, hback⟩ := Option.bind_eq_some_iff.mp he
    obtain ⟨E, hE, hf⟩ := h.stored f F e hF hback
    have herase := hc.eraseAt h hE (hok e he)
    rwa [if_pos (by rw [hasFibEntry, hf]; rfl)] at herase

/-- Several FIB entries are erased. -/
theorem foldl_eraseEntry {fs : List EntryId} (hok : EraseEntriesOk c.fib fs) :
    Behind (fs.foldl Counted.eraseEntry c) k := by
  induction fs generalizing c with
  | nil => exact hc
  | cons f fs ih =>
    have h' := h.eraseEntry hok.1
    have hok' := hok.2
    rw [← c.fib_eraseEntry] at h' hok'
    exact ih (hc.eraseEntry h hok.1) h' hok'

/-- One operation: only an erasure by prefix puts the counter behind. -/
theorem apply (S : CostSort) {op : Op} (hok : OpOk c.fib op) :
    Behind (c.apply S op) (k + missed c.fib op) := by
  cases op with
  | insert n => exact hc.insert h hok
  | erase q =>
    rw [Counted.apply, missed]
    rcases hfind : c.fib.nameTree.findExactMatch q with _ | e
    · exact hc
    · obtain ⟨E, hE, -⟩ := h.tree.exists_live_of_findExactMatch hok.2.1 hfind
      have herase := hc.eraseAt h hE (hok.2.2 e hfind)
      rw [Option.any_some, Live.getFibEntry_eq hE]
      rw [hasFibEntry] at herase
      cases hf : E.attached.fibEntry <;> simpa [hf] using herase
  | eraseEntry f => exact hc.eraseEntry h hok
  | removeNextHopFromAllEntries face =>
    have hr := removed_foldl h face (c.fib.nameTree.fullEnumerate hasFibEntry)
    refine foldl_eraseEntry ?_ (h.removeNextHops face) hok.2
    rw [Behind, show (c.fib.removeNextHops face).1.nameTree = _ from hr.nameTree]
    exact hc
  | lookup n =>
    obtain ⟨-, hext, -⟩ := lookup_spec h.tree hok
    exact hc.of_keeps (.of_extends hext)
  | eraseEntryIfEmpty e =>
    obtain ⟨E, -, hE, hok⟩ := hok
    obtain ⟨-, hprune⟩ := eraseEntryIfEmpty_spec h.tree hE hok
    exact hc.of_keeps (.of_prunes hprune)
  | attachOther e pitEntries measurementsEntry strategyChoiceEntry =>
    exact hc.of_keeps (.of_modifyAttached c.fib.nameTree e fun _ => rfl)
  | _ => exact hc

/-- In a run the counter falls behind by the number of misses. -/
theorem run (S : CostSort) {M : FibMap} (hM : Represents c.fib M) {ops : List Op}
    (hok : RunOk S c.fib ops) : Behind (c.run S ops) (k + misses S c.fib ops) := by
  induction ops generalizing c k M with
  | nil => exact hc
  | cons op ops ih =>
    obtain ⟨h', hM'⟩ := apply_spec S h hM hok.1
    have hok' := hok.2
    rw [← c.fib_apply] at h' hM' hok'
    rw [misses, ← Nat.add_assoc, ← c.fib_apply]
    exact ih (hc.apply h S hok.1) h' hM' hok'

end Behind

/-- A run from the empty FIB. -/
theorem behind_run (S : CostSort) {nBuckets : ℕ} (hpos : 1 ≤ nBuckets) {ops : List Op}
    (hok : RunOk S (create nBuckets) ops) :
    Behind ((Counted.create nBuckets).run S ops) (misses S (create nBuckets) ops) := by
  have hempty : holders (Counted.create nBuckets).fib.nameTree = ∅ := by
    rw [Set.eq_empty_iff_forall_notMem]
    rintro e ⟨E, hE, -⟩
    obtain ⟨c, hc, -⟩ := nodeEntry_eq_some.mp hE
    cases hc
  have hstart : Behind (Counted.create nBuckets) 0 := by
    rw [Behind, hempty, Set.ncard_empty]
    rfl
  have := hstart.run (inv_create hpos) S (represents_create nBuckets) hok
  rwa [Nat.zero_add] at this

/-- After every run that meets the conditions, `Fib::size` is the number of name tree entries with
a FIB entry exactly if no erasure by prefix found an entry without one, up to the width of the
counter. -/
theorem nItems_eq_iff (S : CostSort) {nBuckets : ℕ} (hpos : 1 ≤ nBuckets) {ops : List Op}
    (hok : RunOk S (create nBuckets) ops) :
    ((Counted.create nBuckets).run S ops).nItems = UInt64.ofNat
        (holders ((Counted.create nBuckets).run S ops).fib.nameTree).ncard ↔
      2 ^ 64 ∣ misses S (create nBuckets) ops := by
  have h := behind_run S hpos hok
  rw [Behind] at h
  have hzero : UInt64.ofNat (misses S (create nBuckets) ops) = 0 ↔
      2 ^ 64 ∣ misses S (create nBuckets) ops := by
    rw [← UInt64.toNat_inj, UInt64.toNat_ofNat', UInt64.toNat_zero, Nat.dvd_iff_mod_eq_zero]
  rw [← h, ← hzero]
  grind

/-- Two prefixes are inserted, and one of them is erased twice. -/
def insertedAndErased : List Op :=
  [.insert nameA, .insert nameBAA, .erase nameA, .erase nameA]

/-- The second erasure finds no name tree entry, and the counter is right. -/
theorem nItems_eq_iff_insertedAndErased : 2 ^ 64 ∣ misses byInsertion (create 4) insertedAndErased ∧
    ((Counted.create 4).run byInsertion insertedAndErased).nItems = UInt64.ofNat
      (holders ((Counted.create 4).run byInsertion insertedAndErased).fib.nameTree).ncard := by
  have hmiss : 2 ^ 64 ∣ misses byInsertion (create 4) insertedAndErased := by decide +kernel
  exact ⟨hmiss, (nItems_eq_iff byInsertion (by decide) (by decide +kernel)).mpr hmiss⟩

/-- A PIT entry is inserted, and the FIB is asked to erase its name. -/
def erasedOther : List Op :=
  [.lookup nameA, .attachOther 1 [0] none none, .erase nameA]

/-- The counter wraps around, and is not the number of FIB entries. -/
theorem nItems_of_erasedOther :
    ((Counted.create 4).run byInsertion erasedOther).nItems.toNat = 2 ^ 64 - 1 ∧
      ((Counted.create 4).run byInsertion erasedOther).nItems ≠ UInt64.ofNat
        (holders ((Counted.create 4).run byInsertion erasedOther).fib.nameTree).ncard := by
  refine ⟨by decide +kernel, ?_⟩
  have hok : RunOk byInsertion (create 4) erasedOther := by decide +kernel
  have hmiss : misses byInsertion (create 4) erasedOther = 1 := by decide +kernel
  have hbehind := behind_run byInsertion (by decide : 1 ≤ 4) hok
  rw [hmiss, Behind] at hbehind
  rw [← hbehind]
  grind

end IcnDemo.Fib
