import IcnDemo.Pit.Match

/-!
# Pointers between PIT entries and name tree entries

Whatever happens to the buckets of the name tree, its entries keep what is attached to them:
`AttachedFrom` says so for every operation, without any condition on names or sizes.  Hence the
pointers between PIT entries and name tree entries agree in every state (`PointerInv`), also
where the name tree itself has lost an entry.
-/

namespace IcnDemo

namespace NameTree

/-- Every entry of `t'` has the attachments it had in `t`, or is new and has none. -/
def AttachedFrom (t t' : NameTree) : Prop :=
  ∀ e E', t'.entries e = some E' →
    (∃ E, t.entries e = some E ∧ E'.attached = E.attached) ∨ E'.attached = Attachments.empty

/-- The same entries have the same attachments. -/
theorem AttachedFrom.of_entries_eq {t t' : NameTree} (h : t'.entries = t.entries) :
    AttachedFrom t t' := by
  intro e E' hE'
  rw [h] at hE'
  exact Or.inl ⟨E', hE', rfl⟩

/-- No attachment is new if nothing changes. -/
theorem AttachedFrom.refl (t : NameTree) : AttachedFrom t t :=
  AttachedFrom.of_entries_eq rfl

/-- No attachment is new after two changes. -/
theorem AttachedFrom.trans {t₁ t₂ t₃ : NameTree} (h₁ : AttachedFrom t₁ t₂)
    (h₂ : AttachedFrom t₂ t₃) : AttachedFrom t₁ t₃ := by
  intro e E₃ hE₃
  rcases h₂ e E₃ hE₃ with ⟨E₂, hE₂, heq⟩ | hempty
  · rw [heq]
    exact h₁ e E₂ hE₂
  · exact Or.inr hempty

/-- A change in place that is not about attachments. -/
theorem attachedFrom_modifyEntry (t : NameTree) (p : EntryId) {f : Entry → Entry}
    (hf : ∀ E, (f E).attached = E.attached) : AttachedFrom t (t.modifyEntry p f) := by
  intro e E' hE'
  grind [entries_modifyEntry_self, Option.map_eq_some_iff, entries_modifyEntry_of_ne]

/-- The attachments after a change of them. -/
theorem exists_of_entries_modifyAttached {t : NameTree} {e e' : EntryId}
    {g : Attachments → Attachments} {E' : Entry} (h : (t.modifyAttached e g).entries e' = some E') :
    ∃ E, t.entries e' = some E ∧ E'.attached = if e' = e then g E.attached else E.attached := by
  grind [modifyAttached, entries_modifyEntry_self, Option.map_eq_some_iff,
    entries_modifyEntry_of_ne]

section

variable (t : NameTree)

/-- A new entry has no attachments. -/
theorem attachedFrom_insertNew (n : Name) : AttachedFrom t (t.insertNew n) := by
  intro e E' hE'
  unfold insertNew at hE'
  grind

/-- Parent and child are not attachments. -/
theorem attachedFrom_attachNew (e : EntryId) (parent : Option EntryId) :
    AttachedFrom t (t.attachNew e parent) := by
  have hcount : AttachedFrom t { t with nItems := t.nItems + 1 } := AttachedFrom.of_entries_eq rfl
  have hparent := hcount.trans (attachedFrom_modifyEntry _ e
    (f := fun E => { E with parent := parent }) fun _ => rfl)
  cases parent with
  | none => exact hparent
  | some p =>
    exact hparent.trans (attachedFrom_modifyEntry _ p
      (f := fun P => { P with children := P.children ++ [e] }) fun _ => rfl)

/-- `insertChild` attaches nothing. -/
theorem attachedFrom_insertChild (parent : Option EntryId) (n : Name) :
    AttachedFrom t (t.insertChild parent n).1 := by
  unfold insertChild NameTree.insert
  cases t.scan (t.location (computeHash n)) fun E => Name.equals n E.namePrefix with
  | some e => exact AttachedFrom.refl t
  | none => exact (attachedFrom_insertNew t n).trans (attachedFrom_attachNew _ _ _)

/-- An enlargement attaches nothing. -/
theorem attachedFrom_enlargeIfNeeded : AttachedFrom t t.enlargeIfNeeded := by
  unfold enlargeIfNeeded
  split_ifs
  · exact AttachedFrom.of_entries_eq rfl
  · exact AttachedFrom.refl t

/-- A shrink attaches nothing. -/
theorem attachedFrom_shrinkIfNeeded : AttachedFrom t t.shrinkIfNeeded := by
  unfold shrinkIfNeeded
  simp only
  split_ifs
  · exact AttachedFrom.of_entries_eq rfl
  · exact AttachedFrom.refl t

/-- A lookup attaches nothing. -/
theorem attachedFrom_lookup (n : Name) : AttachedFrom t (t.lookup n).1 := by
  rw [lookup_eq]
  generalize n.length + 1 = k
  induction k with
  | zero => exact AttachedFrom.refl t
  | succ k ih =>
    rw [lookupUpTo_succ]
    exact ih.trans ((attachedFrom_insertChild _ _ _).trans (attachedFrom_enlargeIfNeeded _))

/-- Detaching attaches nothing. -/
theorem attachedFrom_detach (e : EntryId) (E : Entry) : AttachedFrom t (t.detach e E) := by
  unfold detach
  cases E.parent with
  | none => exact AttachedFrom.of_entries_eq rfl
  | some p =>
    exact (attachedFrom_modifyEntry t p (f := fun P => { P with children := swapPop P.children e })
      fun _ => rfl).trans (AttachedFrom.of_entries_eq rfl)

end

/-- Erasing upwards attaches nothing. -/
theorem attachedFrom_eraseUp {fuel : ℕ} : ∀ (t : NameTree) (e : EntryId),
    AttachedFrom t (eraseUp fuel t e).1 := by
  induction fuel with
  | zero =>
    intro t e
    exact AttachedFrom.refl t
  | succ fuel ih => grind [eraseUp, AttachedFrom, attachedFrom_shrinkIfNeeded, attachedFrom_detach]

/-- `eraseEntryIfEmpty` attaches nothing. -/
theorem attachedFrom_eraseEntryIfEmpty (t : NameTree) (e : EntryId) :
    AttachedFrom t (t.eraseEntryIfEmpty e).1 := by
  unfold eraseEntryIfEmpty
  cases t.entries e with
  | none => exact AttachedFrom.refl t
  | some E => exact attachedFrom_eraseUp t e

end NameTree

open NameTree

namespace Pit

variable {pit : Pit}

/-- The pointers between the two kinds of entries agree. -/
structure PointerInv (pit : Pit) : Prop where
  back : ∀ e E, pit.nameTree.entries e = some E → ∀ p ∈ E.attached.pitEntries,
    ∃ P, pit.entries p = some P ∧ P.nameTreeEntry = some e
  nodup : ∀ e E, pit.nameTree.entries e = some E → E.attached.pitEntries.Nodup
  fresh : ∀ p, pit.nextEntry ≤ p → pit.entries p = none

/-- The invariant holds of an empty PIT. -/
theorem pointerInv_create (nBuckets : ℕ) : PointerInv (create nBuckets) := by
  refine ⟨?_, ?_, ?_⟩
  · intro e E hE
    cases hE
  · intro e E hE
    cases hE
  · intro p _
    rfl

section

variable (h : PointerInv pit)

include h

/-- Another name tree without new attachments. -/
theorem PointerInv.of_attachedFrom {t : NameTree} (ht : NameTree.AttachedFrom pit.nameTree t)
    (n : ℕ) : PointerInv { pit with nameTree := t, nItems := n } := by
  refine ⟨?_, ?_, h.fresh⟩
  · intro e E' hE' p hp
    rcases ht e E' hE' with ⟨E, hE, heq⟩ | hempty
    · rw [heq] at hp
      exact h.back e E hE p hp
    · rw [hempty] at hp
      cases hp
  intro e E' hE'
  rcases ht e E' hE' with ⟨E, hE, heq⟩ | hempty
  · rw [heq]
    exact h.nodup e E hE
  · rw [hempty]
    exact List.nodup_nil

/-- A change of other attachments. -/
theorem PointerInv.modifyAttached (e : NameTree.EntryId)
    {g : NameTree.Attachments → NameTree.Attachments} (hg : ∀ a, (g a).pitEntries = a.pitEntries) :
    PointerInv { pit with nameTree := pit.nameTree.modifyAttached e g } := by
  have hcases : ∀ e' E', (pit.nameTree.modifyAttached e g).entries e' = some E' →
      ∃ E, pit.nameTree.entries e' = some E ∧ E'.attached.pitEntries = E.attached.pitEntries := by
    grind [exists_of_entries_modifyAttached]
  refine ⟨?_, ?_, h.fresh⟩ <;> grind [h.back, h.nodup]

/-- A change in place that is not about the name tree. -/
theorem PointerInv.modify (p : EntryId) {f : Entry → Entry}
    (hf : ∀ P, (f P).nameTreeEntry = P.nameTreeEntry) : PointerInv (pit.modify p f) := by
  refine ⟨?_, h.nodup, ?_⟩
  · intro e E hE q hq
    obtain ⟨P, hP, hback⟩ := h.back e E hE q hq
    grind [entries_modify_self, entries_modify_of_ne]
  · intro q hq
    have hnone := h.fresh q hq
    grind [entries_modify_self, entries_modify_of_ne]

/-- A new entry keeps the invariant. -/
theorem PointerInv.insertAt (i : Interest) (e : NameTree.EntryId) :
    PointerInv (pit.insertAt i e) := by
  have hnew := entries_insertAt_self pit i e
  have hother : ∀ {p}, p ≠ pit.nextEntry → (pit.insertAt i e).entries p = pit.entries p :=
    fun hp => Function.update_of_ne hp ..
  have hnot : ∀ e' E, pit.nameTree.entries e' = some E → pit.nextEntry ∉ E.attached.pitEntries := by
    grind [h.back, h.fresh]
  -- the name tree entries before and after
  have hcases : ∀ e' E', (pit.insertAt i e).nameTree.entries e' = some E' →
      ∃ E, pit.nameTree.entries e' = some E ∧ E'.attached.pitEntries =
        if e' = e then E.attached.pitEntries ++ [pit.nextEntry] else E.attached.pitEntries := by
    intro e' E' hE'
    obtain ⟨E, hE, hatt⟩ := exists_of_entries_modifyAttached (g := fun a =>
      { a with pitEntries := a.pitEntries ++ [pit.nextEntry] }) hE'
    refine ⟨E, hE, ?_⟩
    rw [hatt]
    split_ifs <;> rfl
  refine ⟨?_, ?_, ?_⟩
  · grind [newEntry, h.back]
  · grind [h.nodup]
  · intro p hp
    have hp' : pit.nextEntry + 1 ≤ p := hp
    grind [h.fresh]

end

variable {p : EntryId}

/-- A detached entry keeps the invariant. -/
theorem PointerInv.detach (h : PointerInv pit) {P : Entry} {e : NameTree.EntryId}
    (hP : pit.entries p = some P) (he : P.nameTreeEntry = some e) :
    PointerInv (pit.detach p e) := by
  have hother : ∀ {q}, q ≠ p → (pit.detach p e).entries q = pit.entries q :=
    fun hq => Function.update_of_ne hq ..
  have hcases : ∀ e' E', (pit.detach p e).nameTree.entries e' = some E' →
      ∃ E, pit.nameTree.entries e' = some E ∧ E'.attached.pitEntries =
        if e' = e then swapPop E.attached.pitEntries p else E.attached.pitEntries := by
    intro e' E' hE'
    obtain ⟨E, hE, hatt⟩ := exists_of_entries_modifyAttached (g := fun a =>
      { a with pitEntries := swapPop a.pitEntries p }) hE'
    refine ⟨E, hE, ?_⟩
    rw [hatt]
    split_ifs <;> rfl
  refine ⟨?_, ?_, ?_⟩
  · grind [mem_swapPop, h.nodup, h.back]
  · grind [nodup_swapPop, h.nodup]
  · intro q hq
    have hqp : q ≠ p := by
      rintro rfl
      rw [h.fresh q hq] at hP
      cases hP
    rw [hother hqp]
    exact h.fresh q hq

/-! ### What the operations do to the PIT entries -/

/-- The PIT with another name tree below it. -/
def withNameTree (pit : Pit) (t : NameTree) : Pit :=
  { pit with nameTree := t }

/-- An entry together with its address. -/
theorem eq_some_of_bind_map {α β : Type*} {o : Option α} {f : α → Option β} {a : α} {b : β}
    (h : (o.bind fun a => (f a).map fun b => (a, b)) = some (a, b)) :
    o = some a ∧ f a = some b := by
  simpa [Option.bind_eq_some_iff, Option.map_eq_some_iff] using h

/-- `findOrInsert` finds an attached entry of the same Interest, or inserts a fresh one, or does
neither. -/
theorem findOrInsert_outcome (pit : Pit) (i : Interest) (allowInsert : Bool) :
    (∃ e E p, (pit.nameTree.lookup i.name).1.entries e = some E ∧ p ∈ E.attached.pitEntries ∧
        pit.sameInterest i p = true ∧ pit.findOrInsert i allowInsert =
          (pit.withNameTree (pit.nameTree.lookup i.name).1, some p, false)) ∨
      (allowInsert = true ∧ ∃ e, pit.findOrInsert i allowInsert =
        ((pit.withNameTree (pit.nameTree.lookup i.name).1).insertAt i e, some pit.nextEntry,
          true)) ∨
      pit.findOrInsert i allowInsert =
        (pit.withNameTree (pit.nameTree.lookup i.name).1, none, true) := by
  unfold findOrInsert
  simp only
  cases hbind : (pit.nameTree.lookup i.name).2.bind fun e =>
      ((pit.nameTree.lookup i.name).1.entries e).map fun E => (e, E) with
  | none => exact Or.inr (Or.inr rfl)
  | some q =>
    obtain ⟨e, E⟩ := q
    obtain ⟨-, hE₀⟩ := eq_some_of_bind_map hbind
    simp only
    cases hfind : E.attached.pitEntries.find?
        (sameInterest { pit with nameTree := (pit.nameTree.lookup i.name).1 } i) with
    | some p =>
      exact Or.inl ⟨e, E, p, hE₀, List.mem_of_find?_eq_some hfind, List.find?_some hfind, rfl⟩
    | none =>
      cases allowInsert with
      | true => exact Or.inr (Or.inl ⟨rfl, e, rfl⟩)
      | false => exact Or.inr (Or.inr rfl)

/-- At most one entry is new. -/
theorem entries_findOrInsert (pit : Pit) (i : Interest) (allowInsert : Bool) :
    (pit.findOrInsert i allowInsert).1.entries = pit.entries ∨
      ∃ e, (pit.findOrInsert i allowInsert).1.entries =
        Function.update pit.entries pit.nextEntry (some (newEntry i e)) := by
  rcases findOrInsert_outcome pit i allowInsert with ⟨e, E, p, -, -, -, h⟩ | ⟨-, e, h⟩ | h
  · exact .inl (by rw [h]; rfl)
  · exact .inr ⟨e, by rw [h]; rfl⟩
  · exact .inl (by rw [h]; rfl)

/-- An erased entry has no name tree entry. -/
theorem entries_erase {pit pit' : Pit} (h : pit.erase p = some pit') :
    pit'.entries = (pit.modify p fun P => { P with nameTreeEntry := none }).entries := by
  unfold erase at h
  cases hbind : (pit.entries p).bind Entry.nameTreeEntry with
  | none => simp [hbind] at h
  | some e =>
    rw [hbind] at h
    cases h
    rfl

/-- Inserting what is found makes no entry. -/
theorem insert_eq_of_find {pit : Pit} {i : Interest} (h : (pit.find i).2 = some p) :
    pit.insert i = (pit.withNameTree (pit.nameTree.lookup i.name).1, some p, false) := by
  unfold find findOrInsert at h
  unfold insert findOrInsert
  simp only at h ⊢
  cases hbind : (pit.nameTree.lookup i.name).2.bind fun e =>
      ((pit.nameTree.lookup i.name).1.entries e).map fun E => (e, E) with
  | none =>
    rw [hbind] at h
    cases h
  | some q =>
    rw [hbind] at h
    simp only at h ⊢
    cases hfind : q.2.attached.pitEntries.find?
        (sameInterest { pit with nameTree := (pit.nameTree.lookup i.name).1 } i) with
    | none =>
      rw [hfind] at h
      cases h
    | some p' =>
      rw [hfind] at h
      cases h
      rfl

/-- A lookup keeps the invariant. -/
theorem PointerInv.withLookup (h : PointerInv pit) (n : Name) :
    PointerInv (pit.withNameTree (pit.nameTree.lookup n).1) :=
  h.of_attachedFrom (attachedFrom_lookup pit.nameTree n) pit.nItems

/-- The matches are stored. -/
theorem PointerInv.stored_of_mem_findAllDataMatches (h : PointerInv pit) {d : Data}
    (hp : p ∈ pit.findAllDataMatches d) : ∃ P, Stored pit p P := by
  unfold findAllDataMatches at hp
  obtain ⟨e, -, hmem⟩ := List.mem_flatMap.mp hp
  cases hE : pit.nameTree.entries e with
  | none =>
    rw [hE] at hmem
    cases hmem
  | some E =>
    rw [hE] at hmem
    obtain ⟨P, hP, hback⟩ := h.back e E hE p (List.mem_of_mem_filter hmem)
    exact ⟨P, hP, by rw [hback]; rfl⟩

/-- An erasure keeps the invariant. -/
theorem PointerInv.erase (h : PointerInv pit) {pit' : Pit}
    (heq : pit.erase p = some pit') : PointerInv pit' := by
  unfold Pit.erase at heq
  cases hbind : (pit.entries p).bind Entry.nameTreeEntry with
  | none =>
    rw [hbind] at heq
    cases heq
  | some e =>
    obtain ⟨P, hP, he⟩ := Option.bind_eq_some_iff.mp hbind
    rw [hbind] at heq
    cases heq
    exact (h.detach hP he).of_attachedFrom (attachedFrom_eraseEntryIfEmpty _ e) _

end Pit

end IcnDemo
