import IcnDemo.Fib.Defs

/-!
# The FIB is a map

`Inv` says that the FIB entries and the name tree point at each other, and `Represents` that the
entries in the FIB are those of a map.  The operations of the other tables matter to the FIB only by
what they do to its attachments, and they do nothing to them (`NameTree.Keeps`).
-/

namespace IcnDemo.Fib

open Option Function

open NameTree NextHopList

/-- The FIB entries and the name tree agree. -/
structure Inv (s : Fib) : Prop where
  tree : NameTree.Inv s.nameTree
  attached : ∀ e E f, s.nameTree.Live e E → E.attached.fibEntry = some f →
    ∃ F, s.entries f = some F ∧ F.nameTreeEntry = some e ∧ F.namePrefix = E.namePrefix
  stored : ∀ f F e, s.entries f = some F → F.nameTreeEntry = some e →
    ∃ E, s.nameTree.Live e E ∧ E.attached.fibEntry = some f
  fresh : ∀ f, s.nextEntry ≤ f → s.entries f = none
  sorted : ∀ f F, s.entries f = some F → Sorted F.nextHops

/-- The entries in the FIB are those of the map. -/
def Represents (s : Fib) (M : FibMap) : Prop :=
  ∀ n hops, M n = some hops ↔
    ∃ f F, s.prefixOf f = some n ∧ s.entries f = some F ∧ costs F.nextHops = hops

variable {s : Fib} {M : FibMap} {f : EntryId} {n : Name} {e : NameTree.EntryId}
  {E : NameTree.Entry}

/-- The prefix of an entry is known while it is attached. -/
theorem prefixOf_eq_some_iff : s.prefixOf f = some n ↔
      ∃ F e, s.entries f = some F ∧ F.nameTreeEntry = some e ∧ F.namePrefix = n := by
  grind [prefixOf, bind_eq_some_iff, map_eq_some_iff]

/-- The invariant holds of an empty FIB. -/
theorem inv_create {nBuckets : ℕ} (hpos : 1 ≤ nBuckets) : Inv (create nBuckets) := by
  refine ⟨NameTree.inv_create hpos, ?_, ?_, fun _ _ => rfl, ?_⟩
  · intro e E f hE
    obtain ⟨c, hc, -⟩ := nodeEntry_eq_some.mp hE
    cases hc
  · intro f F e hF
    cases hF
  · intro f F hF
    cases hF

/-- An empty FIB is the empty map. -/
theorem represents_create (nBuckets : ℕ) : Represents (create nBuckets) FibMap.empty := by
  intro n hops
  constructor
  · intro h
    cases h
  · rintro ⟨f, F, -, hF, -⟩
    cases hF

/-- A name tree entry points to the FIB entry of its name. -/
theorem Inv.prefixOf_iff (h : Inv s) (hE : s.nameTree.Live e E) :
    s.prefixOf f = some E.namePrefix ↔ E.attached.fibEntry = some f := by
  rw [prefixOf_eq_some_iff]
  constructor
  · rintro ⟨F, e', hF, he', hname⟩
    obtain ⟨E', hE', hf⟩ := h.stored f F e' hF he'
    obtain ⟨F', hF', -, hname'⟩ := h.attached e' E' f hE' hf
    rw [hF] at hF'
    cases hF'
    obtain rfl := h.tree.2.unique e' E' e E hE' hE (hname'.symm.trans hname)
    rw [hE.contents_eq hE']
    exact hf
  · grind [h.attached]

/-- The FIB entry of a prefix is attached to a name tree entry. -/
theorem Inv.exists_live (h : Inv s) (hf : s.prefixOf f = some n) :
    ∃ e E, s.nameTree.Live e E ∧ E.attached.fibEntry = some f ∧ E.namePrefix = n := by
  obtain ⟨F, e, hF, he, rfl⟩ := prefixOf_eq_some_iff.mp hf
  grind [h.stored, h.attached]

variable {f' : EntryId}

/-- A prefix has one entry. -/
theorem Inv.prefix_unique (h : Inv s) (hf : s.prefixOf f = some n)
    (hf' : s.prefixOf f' = some n) : f = f' := by
  obtain ⟨e, E, hE, hattached, rfl⟩ := h.exists_live hf
  rw [h.prefixOf_iff hE, hattached] at hf'
  exact some.inj hf'

/-- The map has no value where there is no entry. -/
theorem Represents.eq_none_iff (hM : Represents s M) : M n = none ↔ ∀ f, s.prefixOf f ≠ some n := by
  constructor
  · intro hnone f hf
    obtain ⟨F, e, hF, -⟩ := prefixOf_eq_some_iff.mp hf
    have hsome := (hM n _).mpr ⟨f, F, hf, hF, rfl⟩
    rw [hnone] at hsome
    cases hsome
  intro hno
  rcases hMn : M n with _ | hops
  · rfl
  · obtain ⟨f, F, hf, -⟩ := (hM n hops).mp hMn
    exact absurd hf (hno f)

/-- The map has the costs of the entry. -/
theorem Represents.eq_costs (hM : Represents s M) (hf : s.prefixOf f = some n) {F : Entry}
    (hF : s.entries f = some F) : M n = some (costs F.nextHops) :=
  (hM n _).mpr ⟨f, F, hf, hF, rfl⟩

/-! ### Operations of the name tree -/

/-- A change of the name tree that keeps the attachments keeps the invariant. -/
theorem Inv.of_keeps (h : Inv s) {t' : NameTree} (htree : NameTree.Inv t')
    (hk : Keeps Attachments.fibEntry s.nameTree t') : Inv { s with nameTree := t' } := by
  refine ⟨htree, ?_, ?_, h.fresh, h.sorted⟩
  · intro e E' f hE' hf
    obtain ⟨E, hE, hname, hatt⟩ := hk.old e E' hE' (by rw [hf]; exact some_ne_none f)
    rw [hname]
    exact h.attached e E f hE (hatt ▸ hf)
  · intro f F e hF he
    obtain ⟨E, hE, hf⟩ := h.stored f F e hF he
    obtain ⟨E', hE', -, hatt⟩ := hk.keep e E hE (by rw [hf]; exact some_ne_none f)
    exact ⟨E', hE', hatt.trans hf⟩

/-- A lookup in the name tree keeps the invariant. -/
theorem Inv.lookup (h : Inv s) (hok : LookupOk s.nameTree n) :
    Inv { s with nameTree := (s.nameTree.lookup n).1 } := by
  obtain ⟨htree, hext, -⟩ := lookup_spec h.tree hok
  exact h.of_keeps htree (.of_extends hext)

/-- Erasing empty name tree entries keeps the invariant. -/
theorem Inv.eraseEntryIfEmpty (h : Inv s) (hE : s.nameTree.Live e E)
    (hok : EraseOk (E.namePrefix.length + 1) s.nameTree e) :
    Inv { s with nameTree := (s.nameTree.eraseEntryIfEmpty e).1 } := by
  obtain ⟨htree, hprune⟩ := eraseEntryIfEmpty_spec h.tree hE hok
  exact h.of_keeps htree (.of_prunes hprune)

/-! ### Insertion -/

/-- The other entries stay when one is attached. -/
theorem entries_attach_of_ne {f : EntryId} (hne : f ≠ s.nextEntry) :
    (s.attach e n).entries f = s.entries f :=
  update_of_ne hne ..

/-- The new entry has no next hops. -/
theorem entries_attach_self : (s.attach e n).entries s.nextEntry = some ⟨n, [], some e⟩ :=
  update_self ..

/-- The name tree with a new FIB entry. -/
theorem live_attach {e' : NameTree.EntryId} {E' : NameTree.Entry} :
    (s.attach e n).nameTree.Live e' E' ↔ ∃ X, s.nameTree.Live e' X ∧
      E' = if e' = e then { X with attached := { X.attached with fibEntry := some s.nextEntry } }
        else X :=
  live_modifyAttached (g := fun a => { a with fibEntry := some s.nextEntry })

/-- A new entry keeps the invariant. -/
theorem Inv.attach (h : Inv s) (hE : s.nameTree.Live e E) (hnone : E.attached.fibEntry = none) :
    Inv (s.attach e E.namePrefix) := by
  have htree := inv_modifyAttached h.tree e fun a => { a with fibEntry := some s.nextEntry }
  refine ⟨htree, ?_, ?_, ?_, ?_⟩
  · intro e' E' f hE' hf
    obtain ⟨X, hX, rfl⟩ := live_attach.mp hE'
    by_cases he : e' = e
    · grind [hE.contents_eq, entries_attach_self]
    · grind [h.attached, entries_attach_of_ne, h.fresh]
  · intro f F e' hF he'
    by_cases hf : f = s.nextEntry
    · subst hf
      rw [entries_attach_self] at hF
      cases hF
      cases he'
      exact ⟨_, live_attach.mpr ⟨E, hE, rfl⟩, by rw [if_pos rfl]⟩
    · grind [entries_attach_of_ne, h.stored, live_attach, hE.contents_eq]
  · intro f hf
    rw [entries_attach_of_ne (Nat.ne_of_gt hf)]
    exact h.fresh f (Nat.le_of_succ_le hf)
  · grind [entries_attach_self, Sorted.nil, entries_attach_of_ne, h.sorted]

/-- A new entry is a new prefix in the map. -/
theorem Represents.attach (hM : Represents s M) (h : Inv s) (hnone : M n = none) :
    Represents (s.attach e n) (update M n (some fun _ => none)) := by
  have hnew : (s.attach e n).prefixOf s.nextEntry = some n :=
    prefixOf_eq_some_iff.mpr ⟨_, e, entries_attach_self, rfl, rfl⟩
  have hold : ∀ f, f ≠ s.nextEntry → (s.attach e n).prefixOf f = s.prefixOf f := by
    intro f hf
    unfold prefixOf
    rw [entries_attach_of_ne hf]
  intro m hops
  by_cases hm : m = n
  · subst hm
    rw [update_self]
    constructor
    · intro hhops
      obtain rfl := some.inj hhops
      exact ⟨_, _, hnew, entries_attach_self, rfl⟩
    rintro ⟨f, F, hf, hF, rfl⟩
    by_cases hfn : f = s.nextEntry
    · subst hfn
      rw [entries_attach_self] at hF
      cases hF
      rfl
    · rw [hold f hfn] at hf
      exact absurd hf (hM.eq_none_iff.mp hnone f)
  rw [update_of_ne hm, hM]
  grind [h.fresh, entries_attach_of_ne]

/-- The FIB entry of a name tree entry. -/
theorem Live.getFibEntry_eq (hE : s.nameTree.Live e E) : s.getFibEntry e = E.attached.fibEntry := by
  unfold getFibEntry
  rw [hE.entry]
  rfl

/-- What `Fib::insert` can do: the lookup arrives at the entry of the prefix, and a FIB entry is
attached there already or is created. -/
theorem insert_cases (h : Inv s) (hok : LookupOk s.nameTree n) :
    ∃ e E, (s.nameTree.lookup n).1.Live e E ∧ E.namePrefix = n ∧
      ((∃ f, E.attached.fibEntry = some f ∧
          s.insert n = ({ s with nameTree := (s.nameTree.lookup n).1 }, some (f, false))) ∨
        (E.attached.fibEntry = none ∧
          s.insert n = (attach { s with nameTree := (s.nameTree.lookup n).1 } e n,
            some (s.nextEntry, true)))) := by
  grind [lookup_spec, h.tree, Live.getFibEntry_eq, insert]

/-- `insert` keeps the invariant. -/
theorem Inv.insert (h : Inv s) (hok : LookupOk s.nameTree n) : Inv (s.insert n).1 := by
  obtain ⟨e, E, hE, rfl, ⟨f, -, heq⟩ | ⟨hf, heq⟩⟩ := insert_cases h hok
  · rw [heq]
    exact h.lookup hok
  · rw [heq]
    exact (h.lookup hok).attach hE hf

/-- `insert` on the map. -/
theorem insert_spec (h : Inv s) (hM : Represents s M) (hok : LookupOk s.nameTree n) :
    Inv (s.insert n).1 ∧ Represents (s.insert n).1 (M.insert n) := by
  refine ⟨h.insert hok, ?_⟩
  have h' := h.lookup hok
  have hM' : Represents { s with nameTree := (s.nameTree.lookup n).1 } M := hM
  unfold FibMap.insert
  obtain ⟨e, E, hE, rfl, ⟨f, hf, heq⟩ | ⟨hf, heq⟩⟩ := insert_cases h hok
  · have hpre := (h'.prefixOf_iff hE).mpr hf
    obtain ⟨F, -, hF, -⟩ := prefixOf_eq_some_iff.mp hpre
    rw [heq, hM'.eq_costs hpre hF]
    exact hM'
  · grind [hM'.eq_none_iff, h'.prefixOf_iff, hM'.attach]

/-! ### Erasure -/

/-- A change in place. -/
theorem entries_modify_self (g : Entry → Entry) : (s.modify f g).entries f = (s.entries f).map g :=
  update_self ..

/-- The other entries stay. -/
theorem entries_modify_of_ne (g : Entry → Entry) (hne : f' ≠ f) :
    (s.modify f g).entries f' = s.entries f' :=
  update_of_ne hne ..

section

variable (hE : s.nameTree.Live e E)

include hE

/-- There is nothing to detach. -/
theorem detach_eq_self (hf : E.attached.fibEntry = none) : s.detach e = s := by
  unfold detach
  rw [Live.getFibEntry_eq hE, hf]

/-- What is detached. -/
theorem detach_eq (hf : E.attached.fibEntry = some f) : s.detach e =
      { s.modify f fun F => { F with nameTreeEntry := none } with
        nameTree := s.nameTree.modifyAttached e fun a => { a with fibEntry := none } } := by
  unfold detach
  rw [Live.getFibEntry_eq hE, hf]

/-- The name tree without a FIB entry. -/
theorem live_detach {e' : NameTree.EntryId} {E' : NameTree.Entry} :
    (s.detach e).nameTree.Live e' E' ↔ ∃ X, s.nameTree.Live e' X ∧
      E' = if e' = e then { X with attached := { X.attached with fibEntry := none } } else X := by
  rcases hf : E.attached.fibEntry with _ | f
  · rw [detach_eq_self hE hf]
    constructor
    · intro hE'
      refine ⟨E', hE', ?_⟩
      split_ifs with he
      · subst he
        rw [← hE.contents_eq hE', ← hf]
      · rfl
    rintro ⟨X, hX, rfl⟩
    split_ifs with he
    · subst he
      rw [← hE.contents_eq hX, ← hf]
      exact hE
    · exact hX
  · rw [detach_eq hE hf]
    exact live_modifyAttached (g := fun a => { a with fibEntry := none })

/-- A detached entry has no name tree entry. -/
theorem entries_detach (f : EntryId) :
    (s.detach e).entries f = if E.attached.fibEntry = some f then
      (s.entries f).map fun F => { F with nameTreeEntry := none } else s.entries f := by
  rcases hf : E.attached.fibEntry with _ | f₀
  · rw [detach_eq_self hE hf, if_neg (by simp)]
  rw [detach_eq hE hf]
  grind [entries_modify_self, entries_modify_of_ne]

end

/-- No new entry is made. -/
theorem nextEntry_detach (s : Fib) (e : NameTree.EntryId) :
    (s.detach e).nextEntry = s.nextEntry := by
  unfold detach
  split <;> rfl

/-- The name tree stays in order. -/
theorem tree_detach (h : Inv s) (e : NameTree.EntryId) : NameTree.Inv (s.detach e).nameTree := by
  unfold detach
  grind [h.tree, inv_modifyAttached]

/-- One prefix is gone. -/
theorem prefixOf_detach (h : Inv s) (hE : s.nameTree.Live e E) (f : EntryId) (n : Name) :
    (s.detach e).prefixOf f = some n ↔ s.prefixOf f = some n ∧ n ≠ E.namePrefix := by
  by_cases hf : E.attached.fibEntry = some f
  · have hpre := (h.prefixOf_iff hE).mpr hf
    constructor
    · intro hn
      obtain ⟨F, e', hF, he', -⟩ := prefixOf_eq_some_iff.mp hn
      grind [entries_detach, map_eq_some_iff]
    · simp_all
  · grind [prefixOf, entries_detach, h.prefixOf_iff]

/-- A detached entry keeps the invariant. -/
theorem Inv.detach (h : Inv s) (hE : s.nameTree.Live e E) : Inv (s.detach e) := by
  refine ⟨tree_detach h e, ?_, ?_, ?_, ?_⟩
  · intro e' E' f hE' hf
    obtain ⟨X, hX, rfl⟩ := (live_detach hE).mp hE'
    by_cases he : e' = e <;> grind [h.attached, entries_detach]
  · intro f F e' hF he'
    rw [entries_detach hE] at hF
    grind [map_eq_some_iff, h.stored, hE.contents_eq, live_detach]
  · intro f hf
    rw [nextEntry_detach] at hf
    rw [entries_detach hE, h.fresh f hf]
    split_ifs <;> rfl
  · intro f F hF
    rw [entries_detach hE] at hF
    grind [map_eq_some_iff, h.sorted]

/-- A detached entry is gone from the map. -/
theorem Represents.detach (hM : Represents s M) (h : Inv s) (hE : s.nameTree.Live e E) :
    Represents (s.detach e) (M.erase E.namePrefix) := by
  intro m hops
  unfold FibMap.erase
  by_cases hm : m = E.namePrefix
  · grind [prefixOf_detach]
  rw [update_of_ne hm, hM]
  have hentries : ∀ f, s.prefixOf f = some m → (s.detach e).entries f = s.entries f := by
    intro f hf
    rw [entries_detach hE, if_neg]
    intro hattached
    rw [(h.prefixOf_iff hE).mpr hattached] at hf
    exact hm (some.inj hf).symm
  grind [prefixOf_detach]

/-- The cleanup after the FIB entry of a name tree entry was taken off is safe. -/
def EraseAtOk (s : Fib) (e : NameTree.EntryId) : Prop :=
  ∀ E ∈ (s.detach e).nameTree.entries e, EraseOk (E.namePrefix.length + 1) (s.detach e).nameTree e

instance (s : Fib) (e : NameTree.EntryId) : Decidable (EraseAtOk s e) :=
  inferInstanceAs (Decidable (∀ E ∈ (s.detach e).nameTree.entries e, _))

/-- Detaching and erasing keep the invariant. -/
theorem Inv.eraseAt (h : Inv s) (hE : s.nameTree.Live e E) (hok : EraseAtOk s e) :
    Inv (s.eraseAt e) := by
  have hlive := (live_detach hE).mpr ⟨E, hE, rfl⟩
  exact (h.detach hE).eraseEntryIfEmpty hlive (hok _ hlive.entry)

/-- Detaching and erasing on the map. -/
theorem eraseAt_spec (h : Inv s) (hM : Represents s M) (hE : s.nameTree.Live e E)
    (hok : EraseAtOk s e) : Inv (s.eraseAt e) ∧ Represents (s.eraseAt e) (M.erase E.namePrefix) :=
  ⟨h.eraseAt hE hok, hM.detach h hE⟩

/-- The erasure of a prefix whose octets have the right hash is that of the map. -/
theorem erase_spec (h : Inv s) (hM : Represents s M) {q : KeptName} (hsame : q.SameHash)
    (hno : NoTwin s.nameTree q) (hok : ∀ e ∈ s.nameTree.findExactMatch q, EraseAtOk s e) :
    Inv (s.erase q) ∧ Represents (s.erase q) (M.erase q.name) := by
  unfold erase
  rcases hfind : s.nameTree.findExactMatch q with _ | e
  · have hnone : M q.name = none := by
      refine hM.eq_none_iff.mpr ?_
      intro f hf
      obtain ⟨e, E, hE, -, hname⟩ := h.exists_live hf
      have := (h.tree.findExactMatch_iff hsame hno).mpr ⟨E, hE, hname⟩
      rw [hfind] at this
      cases this
    refine ⟨h, ?_⟩
    unfold FibMap.erase
    rw [← hnone, update_eq_self]
    exact hM
  · obtain ⟨E, hE, hname⟩ := h.tree.exists_live_of_findExactMatch hno hfind
    rw [← hname]
    exact eraseAt_spec h hM hE (hok e hfind)

/-- The cleanup of `Fib::erase` on a FIB entry is safe. -/
def EraseEntryOk (s : Fib) (f : EntryId) : Prop :=
  ∀ e ∈ (s.entries f).bind Entry.nameTreeEntry, EraseAtOk s e

instance (s : Fib) (f : EntryId) : Decidable (EraseEntryOk s f) :=
  inferInstanceAs (Decidable (∀ e ∈ (s.entries f).bind Entry.nameTreeEntry, _))

/-- `erase` of an entry does nothing if it is not attached. -/
theorem eraseEntry_cases (h : Inv s) (f : EntryId) : (s.prefixOf f = none ∧ s.eraseEntry f = s) ∨
      ∃ e E, s.nameTree.Live e E ∧ s.prefixOf f = some E.namePrefix ∧
        (s.entries f).bind Entry.nameTreeEntry = some e ∧ s.eraseEntry f = s.eraseAt e := by
  unfold eraseEntry
  rcases he : (s.entries f).bind Entry.nameTreeEntry with _ | e
  · refine .inl ⟨?_, rfl⟩
    rw [eq_none_iff_forall_ne_some]
    grind [prefixOf_eq_some_iff]
  · grind [bind_eq_some_iff, h.stored, h.prefixOf_iff]

/-- `erase` of an entry keeps the invariant. -/
theorem Inv.eraseEntry (h : Inv s) (hok : EraseEntryOk s f) : Inv (s.eraseEntry f) := by
  rcases eraseEntry_cases h f with ⟨-, heq⟩ | ⟨e, E, hE, -, he, heq⟩
  · rw [heq]
    exact h
  · rw [heq]
    exact h.eraseAt hE (hok e he)

/-- `erase` of an entry on the map. -/
theorem eraseEntry_spec (h : Inv s) (hM : Represents s M) (hok : EraseEntryOk s f) :
    Inv (s.eraseEntry f) ∧ Represents (s.eraseEntry f) ((s.prefixOf f).elim M M.erase) := by
  rcases eraseEntry_cases h f with ⟨hnone, heq⟩ | ⟨e, E, hE, hpre, he, heq⟩
  · rw [heq, hnone]
    exact ⟨h, hM⟩
  · rw [heq, hpre]
    exact eraseAt_spec h hM hE (hok e he)

/-- The prefixes after an erasure. -/
theorem prefixOf_eraseEntry (h : Inv s) (f f' : EntryId) (n : Name) :
    (s.eraseEntry f).prefixOf f' = some n ↔ s.prefixOf f' = some n ∧ s.prefixOf f ≠ some n := by
  rcases eraseEntry_cases h f with ⟨hnone, heq⟩ | ⟨e, E, hE, hpre, -, heq⟩
  · rw [heq, hnone]
    simp
  · rw [heq, hpre]
    have hdetach : (s.eraseAt e).prefixOf f' = some n ↔ _ := prefixOf_detach h hE f' n
    rw [hdetach, ne_comm]
    simp

/-! ### Next hops -/

/-- Change the next hops of an entry. -/
def modifyHops (s : Fib) (f : EntryId) (g : List NextHop → List NextHop) : Fib :=
  s.modify f fun F => { F with nextHops := g F.nextHops }

variable {g : List NextHop → List NextHop}

/-- Entries after a change of next hops. -/
theorem entries_modifyHops {F' : Entry} : (s.modifyHops f g).entries f' = some F' ↔
      ∃ F, s.entries f' = some F ∧
        F' = if f' = f then { F with nextHops := g F.nextHops } else F := by
  grind [modifyHops, entries_modify_self, map_eq_some_iff, entries_modify_of_ne]

/-- A change of next hops keeps the prefixes. -/
theorem prefixOf_modifyHops (f' : EntryId) : (s.modifyHops f g).prefixOf f' = s.prefixOf f' := by
  unfold modifyHops prefixOf
  grind [entries_modify_self, entries_modify_of_ne]

/-- A change of next hops keeps the invariant. -/
theorem Inv.modifyHops (h : Inv s) (f : EntryId) (hg : ∀ hops, Sorted hops → Sorted (g hops)) :
    Inv (s.modifyHops f g) := by
  refine ⟨h.tree, ?_, ?_, ?_, ?_⟩
  · intro e E f' hE hf'
    obtain ⟨F, hF, hback, hname⟩ := h.attached e E f' hE hf'
    refine ⟨_, entries_modifyHops.mpr ⟨F, hF, rfl⟩, ?_, ?_⟩
    · split_ifs <;> exact hback
    · split_ifs <;> exact hname
  · intro f' F' e hF' he
    obtain ⟨F, hF, rfl⟩ := entries_modifyHops.mp hF'
    refine h.stored f' F e hF ?_
    split_ifs at he <;> exact he
  · intro f' hf'
    rw [eq_none_iff_forall_ne_some]
    intro F' hF'
    obtain ⟨F, hF, -⟩ := entries_modifyHops.mp hF'
    rw [h.fresh f' hf'] at hF
    cases hF
  · grind [entries_modifyHops, h.sorted]

/-- A change of next hops on the map. -/
theorem Represents.modifyHops (hM : Represents s M) (h : Inv s) (f : EntryId)
    {u : NextHopMap → NextHopMap} (hg : ∀ hops, Sorted hops → costs (g hops) = u (costs hops)) :
    Represents (s.modifyHops f g)
      ((s.prefixOf f).elim M fun n => update M n ((M n).map u)) := by
  intro m hops
  by_cases hm : s.prefixOf f = some m
  · obtain ⟨F, -, hF, -⟩ := prefixOf_eq_some_iff.mp hm
    rw [hm, elim_some, update_self, hM.eq_costs hm hF, map_some, ← hg _ (h.sorted f F hF)]
    constructor
    · intro hhops
      refine ⟨f, _, (prefixOf_modifyHops f).trans hm, entries_modifyHops.mpr ⟨F, hF, rfl⟩, ?_⟩
      rw [if_pos rfl]
      exact some.inj hhops
    grind [prefixOf_modifyHops, h.prefix_unique, entries_modifyHops]
  have hMm : ((s.prefixOf f).elim M fun n => update M n ((M n).map u)) m = M m := by
    rcases hf : s.prefixOf f with _ | n
    · rfl
    · refine update_of_ne ?_ ..
      rintro rfl
      exact hm hf
  have hother : ∀ f', s.prefixOf f' = some m → f' ≠ f := by
    rintro f' hf' rfl
    exact hm hf'
  rw [hMm, hM]
  constructor
  · rintro ⟨f', F, hf', hF, rfl⟩
    refine ⟨f', F, (prefixOf_modifyHops f').trans hf', ?_, rfl⟩
    exact entries_modifyHops.mpr ⟨F, hF, by rw [if_neg (hother f' hf')]⟩
  · grind [prefixOf_modifyHops, entries_modifyHops]

/-- `addNextHop` on the map. -/
theorem addNextHop_spec (S : CostSort) (h : Inv s) (hM : Represents s M) (f : EntryId)
    (face : FaceRef) (cost : ℕ) :
    Inv (s.addNextHop S f face cost) ∧ Represents (s.addNextHop S f face cost)
      ((s.prefixOf f).elim M fun n => M.addNextHop n face cost) :=
  ⟨h.modifyHops f fun _ hsorted => hsorted.addNextHop S face cost,
    hM.modifyHops (u := fun hops => update hops face (some cost)) h f
      fun _ hsorted => costs_addNextHop S hsorted cost⟩

/-- `removeNextHop` on the map. -/
theorem removeNextHop_spec (h : Inv s) (hM : Represents s M) (f : EntryId) (face : FaceRef) :
    Inv (s.removeNextHop f face) ∧ Represents (s.removeNextHop f face)
      ((s.prefixOf f).elim M fun n => M.removeNextHop n face) :=
  ⟨h.modifyHops f fun _ hsorted => hsorted.removeNextHop face,
    hM.modifyHops (u := fun hops => update hops face none) h f
      fun _ hsorted => costs_removeNextHop hsorted⟩

/-! ### Removal of a face from all entries -/

/-- An entry without the next hop to a face. -/
def Entry.without (face : FaceRef) (F : Entry) : Entry :=
  { F with nextHops := NextHopList.removeNextHop F.nextHops face }

/-- A face is removed once. -/
theorem Entry.without_without {F : Entry} (hF : Sorted F.nextHops) (face : FaceRef) :
    (F.without face).without face = F.without face := by
  unfold Entry.without
  congr 1
  refine List.eraseP_of_forall_not ?_
  intro hop hmem
  simpa using ((mem_removeNextHop hF.nodup).mp hmem).2

/-- The entries at some name tree entries. -/
def At (s : Fib) (es : List NameTree.EntryId) (f : EntryId) : Prop :=
  ∃ e ∈ es, s.getFibEntry e = some f

/-- The state of the first loop of `removeNextHopFromAllEntries` after some name tree entries. -/
structure Removed (s : Fib) (face : FaceRef) (es : List NameTree.EntryId) (r : Fib × List EntryId) :
    Prop where
  nameTree : r.1.nameTree = s.nameTree
  nextEntry : r.1.nextEntry = s.nextEntry
  met : ∀ f, s.At es f → r.1.entries f = (s.entries f).map (Entry.without face)
  other : ∀ f, ¬ s.At es f → r.1.entries f = s.entries f
  toErase : ∀ f, f ∈ r.2 ↔
    s.At es f ∧ ((s.entries f).map (Entry.without face)).any Entry.hasNextHops = false

variable {face : FaceRef} {es : List NameTree.EntryId} {r : Fib × List EntryId}

/-- What is left of an entry in the end does not change. -/
theorem Removed.map_without (hr : Removed s face es r) (h : Inv s) (f : EntryId) :
    (r.1.entries f).map (Entry.without face) = (s.entries f).map (Entry.without face) := by
  by_cases hf : s.At es f
  · rw [hr.met f hf]
    rcases hF : s.entries f with _ | F
    · rfl
    · simp [Entry.without_without (h.sorted f F hF)]
  · rw [hr.other f hf]

/-- One more entry has lost the face. -/
theorem Removed.step (hr : Removed s face es r) (h : Inv s) (e : NameTree.EntryId) :
    Removed s face (es ++ [e]) (removeNextHopAt face r e) := by
  have hget : r.1.getFibEntry e = s.getFibEntry e := by
    unfold getFibEntry
    rw [hr.nameTree]
  unfold removeNextHopAt
  rw [hget]
  rcases hf₀ : s.getFibEntry e with _ | f₀
  · have hat : ∀ f, s.At (es ++ [e]) f ↔ s.At es f := by
      intro f
      simp [At, or_and_right, exists_or, hf₀]
    refine ⟨hr.nameTree, hr.nextEntry, ?_, ?_, ?_⟩ <;> grind [hr.met, hr.other, hr.toErase]
  have hat : ∀ f, s.At (es ++ [e]) f ↔ s.At es f ∨ f = f₀ := by
    intro f
    simp [At, or_and_right, exists_or, hf₀, eq_comm]
  have hself : (r.1.removeNextHop f₀ face).entries f₀ =
      (s.entries f₀).map (Entry.without face) := by
    rw [← hr.map_without h f₀]
    exact entries_modify_self _
  have hne : ∀ f, f ≠ f₀ → (r.1.removeNextHop f₀ face).entries f = r.1.entries f :=
    fun f hf => entries_modify_of_ne _ hf
  have hmet : ∀ f, s.At (es ++ [e]) f →
      (r.1.removeNextHop f₀ face).entries f = (s.entries f).map (Entry.without face) := by
    grind [hr.met]
  have hother : ∀ f, ¬ s.At (es ++ [e]) f →
      (r.1.removeNextHop f₀ face).entries f = s.entries f := by grind [hr.other]
  dsimp only
  split_ifs with hany
  all_goals
    refine ⟨hr.nameTree, hr.nextEntry, hmet, hother, ?_⟩
    grind [hr.toErase]

/-- All entries of the list have lost the face. -/
theorem removed_foldl (h : Inv s) (face : FaceRef) (es : List NameTree.EntryId) :
    Removed s face es (es.foldl (removeNextHopAt face) (s, [])) := by
  induction es using List.reverseRecOn with
  | nil => exact ⟨rfl, rfl, by simp [At], fun _ _ => rfl, by simp [At]⟩
  | append_singleton es e ih => grind [ih.step]

/-- The enumeration visits all entries. -/
theorem at_fullEnumerate (h : Inv s) (hsize : s.nameTree.nBuckets < 2 ^ 31) :
    s.At (s.nameTree.fullEnumerate hasFibEntry) f ↔ ∃ n, s.prefixOf f = some n := by
  constructor
  · rintro ⟨e, he, hf⟩
    obtain ⟨E, hE, -⟩ := (mem_fullEnumerate h.tree hsize).mp he
    rw [Live.getFibEntry_eq hE] at hf
    exact ⟨_, (h.prefixOf_iff hE).mpr hf⟩
  rintro ⟨n, hn⟩
  obtain ⟨e, E, hE, hattached, -⟩ := h.exists_live hn
  refine ⟨e, (mem_fullEnumerate h.tree hsize).mpr ⟨E, hE, ?_⟩, ?_⟩
  · unfold hasFibEntry
    rw [hattached]
    rfl
  · rw [Live.getFibEntry_eq hE, hattached]

/-- `removeNextHopFromAllEntries` reaches each entry. -/
theorem entries_removeNextHops (h : Inv s) (hsize : s.nameTree.nBuckets < 2 ^ 31)
    (hf : s.prefixOf f = some n) :
    (s.removeNextHops face).1.entries f = (s.entries f).map (Entry.without face) :=
  (removed_foldl h face _).met f ((at_fullEnumerate h hsize).mpr ⟨n, hf⟩)

/-- An entry stays or loses the face. -/
theorem entries_removeNextHops_cases (h : Inv s) (face : FaceRef) (f : EntryId) :
    (s.removeNextHops face).1.entries f = s.entries f ∨
      (s.removeNextHops face).1.entries f = (s.entries f).map (Entry.without face) := by
  have hr := removed_foldl h face (s.nameTree.fullEnumerate hasFibEntry)
  by_cases hat : s.At (s.nameTree.fullEnumerate hasFibEntry) f
  · exact .inr (hr.met f hat)
  · exact .inl (hr.other f hat)

/-- The prefixes stay. -/
theorem prefixOf_removeNextHops (h : Inv s) (face : FaceRef) (f : EntryId) :
    (s.removeNextHops face).1.prefixOf f = s.prefixOf f := by
  unfold prefixOf
  rcases entries_removeNextHops_cases h face f with heq | heq
  · rw [heq]
  · rw [heq]
    rcases s.entries f with _ | F
    · rfl
    · rfl

/-- The loop over all entries keeps the invariant. -/
theorem Inv.removeNextHops (h : Inv s) (face : FaceRef) : Inv (s.removeNextHops face).1 := by
  have hr := removed_foldl h face (s.nameTree.fullEnumerate hasFibEntry)
  have htree : (s.removeNextHops face).1.nameTree = s.nameTree := hr.nameTree
  have hnext : (s.removeNextHops face).1.nextEntry = s.nextEntry := hr.nextEntry
  have hchange : ∀ f F', (s.removeNextHops face).1.entries f = some F' →
      ∃ F, s.entries f = some F ∧ (F' = F ∨ F' = F.without face) := by
    grind [entries_removeNextHops_cases, map_eq_some_iff]
  refine ⟨htree ▸ h.tree, ?_, ?_, ?_, ?_⟩
  · intro e E f hE hf
    rw [htree] at hE
    obtain ⟨F, hF, hback, hname⟩ := h.attached e E f hE hf
    rcases entries_removeNextHops_cases h face f with heq | heq
    · exact ⟨F, heq.trans hF, hback, hname⟩
    · exact ⟨F.without face, by rw [heq, hF, map_some], hback, hname⟩
  · intro f F' e hF' he
    rw [htree]
    obtain ⟨F, hF, rfl | rfl⟩ := hchange f F' hF'
    · exact h.stored f F' e hF he
    · exact h.stored f F e hF he
  · grind [entries_removeNextHops_cases, h.fresh]
  · intro f F' hF'
    obtain ⟨F, hF, rfl | rfl⟩ := hchange f F' hF'
    · exact h.sorted f F' hF
    · exact (h.sorted f F hF).removeNextHop face

/-- The loop over all entries on the map. -/
theorem Represents.removeNextHops (hM : Represents s M) (h : Inv s)
    (hsize : s.nameTree.nBuckets < 2 ^ 31) (face : FaceRef) :
    Represents (s.removeNextHops face).1 fun n =>
      (M n).map fun hops => update hops face none := by
  intro n hops
  rw [map_eq_some_iff]
  constructor
  · rintro ⟨old, hold, rfl⟩
    obtain ⟨f, F, hf, hF, rfl⟩ := (hM n old).mp hold
    refine ⟨f, F.without face, (prefixOf_removeNextHops h face f).trans hf, ?_, ?_⟩
    · rw [entries_removeNextHops h hsize hf, hF, map_some]
    · exact costs_removeNextHop (h.sorted f F hF)
  rintro ⟨f, F', hf, hF', rfl⟩
  rw [prefixOf_removeNextHops h] at hf
  rw [entries_removeNextHops h hsize hf] at hF'
  obtain ⟨F, hF, rfl⟩ := map_eq_some_iff.mp hF'
  exact ⟨_, hM.eq_costs hf hF, (costs_removeNextHop (h.sorted f F hF)).symm⟩

/-- The second loop of `removeNextHopFromAllEntries` is safe. -/
def EraseEntriesOk : Fib → List EntryId → Prop
  | _, [] => True
  | s, f :: fs => EraseEntryOk s f ∧ EraseEntriesOk (s.eraseEntry f) fs

instance decidableEraseEntriesOk : ∀ s fs, Decidable (EraseEntriesOk s fs)
  | _, [] => isTrue trivial
  | s, f :: fs =>
      have := decidableEraseEntriesOk (s.eraseEntry f) fs
      inferInstanceAs (Decidable (EraseEntryOk s f ∧ EraseEntriesOk (s.eraseEntry f) fs))

/-- Erasing a list of entries on the map. -/
theorem foldl_eraseEntry_spec {fs : List EntryId} : ∀ {s : Fib} {M M' : FibMap}, Inv s →
    Represents s M → EraseEntriesOk s fs →
    (∀ n, (∃ f ∈ fs, s.prefixOf f = some n) → M' n = none) →
    (∀ n, (∀ f ∈ fs, s.prefixOf f ≠ some n) → M' n = M n) →
    Inv (fs.foldl eraseEntry s) ∧ Represents (fs.foldl eraseEntry s) M' := by
  induction fs with
  | nil =>
    intro s M M' h hM _ _ hkept
    obtain rfl : M' = M := funext fun n => hkept n fun f hf => by cases hf
    exact ⟨h, hM⟩
  | cons f fs ih =>
    intro s M M' h hM hok hgone hkept
    obtain ⟨h', hM'⟩ := eraseEntry_spec h hM hok.1
    refine ih h' hM' hok.2 ?_ ?_
    · grind [prefixOf_eraseEntry]
    intro n hn
    by_cases hf : s.prefixOf f = some n
    · rw [hf, hgone n ⟨f, List.mem_cons_self .., hf⟩]
      change none = update M n none n
      rw [update_self]
    rw [hkept n ?_]
    · rcases hpre : s.prefixOf f with _ | m
      · rfl
      · refine (update_of_ne ?_ ..).symm
        rintro rfl
        exact hf hpre
    · grind [prefixOf_eraseEntry]

/-- An entry without next hops. -/
theorem Entry.any_hasNextHops_eq_false (F : Entry) :
    (some F).any Entry.hasNextHops = false ↔ F.nextHops = [] := by
  simp [Entry.hasNextHops]

/-- `Fib::removeNextHopFromAllEntries` removes the face and the prefixes left without next hops. -/
theorem removeNextHopFromAllEntries_spec (h : Inv s) (hM : Represents s M)
    (hsize : s.nameTree.nBuckets < 2 ^ 31)
    (hok : EraseEntriesOk (s.removeNextHops face).1 (s.removeNextHops face).2) :
    Inv (s.removeNextHopFromAllEntries face) ∧
      Represents (s.removeNextHopFromAllEntries face) (M.removeNextHopFromAllEntries face) := by
  have hr := removed_foldl h face (s.nameTree.fullEnumerate hasFibEntry)
  -- an entry is erased if its prefix has no next hop to another face
  have herased : ∀ f F n, s.prefixOf f = some n → s.entries f = some F →
      (f ∈ (s.removeNextHops face).2 ↔ ∀ other, other ≠ face → costs F.nextHops other = none) := by
    intro f F n hf hF
    have hmem : f ∈ (s.removeNextHops face).2 ↔ _ := hr.toErase f
    rw [hmem, and_iff_right ((at_fullEnumerate h hsize).mpr ⟨n, hf⟩), hF, map_some,
      Entry.any_hasNextHops_eq_false, ← costs_eq_none_iff]
    change (∀ other, costs (NextHopList.removeNextHop F.nextHops face) other = none) ↔ _
    rw [costs_removeNextHop (h.sorted f F hF)]
    constructor
    · intro hnone other hother
      have hcost := hnone other
      rwa [update_of_ne hother] at hcost
    · grind
  refine foldl_eraseEntry_spec (h.removeNextHops face) (hM.removeNextHops h hsize face) hok ?_ ?_
  · rintro n ⟨f, hmem, hf⟩
    rw [prefixOf_removeNextHops h] at hf
    obtain ⟨F, -, hF, -⟩ := prefixOf_eq_some_iff.mp hf
    unfold FibMap.removeNextHopFromAllEntries
    rw [hM.eq_costs hf hF, bind_some, if_pos ((herased f F n hf hF).mp hmem)]
  intro n hn
  unfold FibMap.removeNextHopFromAllEntries
  rcases hMn : M n with _ | hops
  · rfl
  · obtain ⟨f, F, hf, hF, rfl⟩ := (hM n hops).mp hMn
    grind [prefixOf_removeNextHops]

/-! ### Runs -/

/-- The condition on one operation, in the state before it: names are told apart and have the hash
of their shortest form, and no resize loses an entry. -/
def OpOk (s : Fib) : Op → Prop
  | .insert n => LookupOk s.nameTree n
  | .erase q => q.SameHash ∧ NoTwin s.nameTree q ∧
      ∀ e ∈ s.nameTree.findExactMatch q, EraseAtOk s e
  | .eraseEntry f => EraseEntryOk s f
  | .addNextHop _ _ _ => True
  | .removeNextHop _ _ => True
  | .removeNextHopFromAllEntries face => s.nameTree.nBuckets < 2 ^ 31 ∧
      EraseEntriesOk (s.removeNextHops face).1 (s.removeNextHops face).2
  | .lookup n => LookupOk s.nameTree n
  | .eraseEntryIfEmpty e => NameTree.OpOk s.nameTree (.eraseEntryIfEmpty e)
  | .attachOther _ _ _ _ => True

instance (s : Fib) : ∀ op, Decidable (OpOk s op)
  | .insert n => inferInstanceAs (Decidable (LookupOk s.nameTree n))
  | .erase q => inferInstanceAs (Decidable (q.SameHash ∧ NoTwin s.nameTree q ∧
      ∀ e ∈ s.nameTree.findExactMatch q, EraseAtOk s e))
  | .eraseEntry f => inferInstanceAs (Decidable (EraseEntryOk s f))
  | .addNextHop _ _ _ | .removeNextHop _ _ => isTrue trivial
  | .removeNextHopFromAllEntries face => inferInstanceAs (Decidable (s.nameTree.nBuckets < 2 ^ 31 ∧
      EraseEntriesOk (s.removeNextHops face).1 (s.removeNextHops face).2))
  | .lookup n => inferInstanceAs (Decidable (LookupOk s.nameTree n))
  | .eraseEntryIfEmpty e => inferInstanceAs (Decidable
      (NameTree.OpOk s.nameTree (.eraseEntryIfEmpty e)))
  | .attachOther _ _ _ _ => isTrue trivial

/-- The condition on a run: every operation meets the condition in the state before it. -/
def RunOk (S : CostSort) : Fib → List Op → Prop
  | _, [] => True
  | s, op :: ops => OpOk s op ∧ RunOk S (s.apply S op) ops

instance decidableRunOk (S : CostSort) : ∀ s ops, Decidable (RunOk S s ops)
  | _, [] => isTrue trivial
  | s, op :: ops =>
      have := decidableRunOk S (s.apply S op) ops
      inferInstanceAs (Decidable (OpOk s op ∧ RunOk S (s.apply S op) ops))

/-- Every operation does to the FIB what it does to the map. -/
theorem apply_spec (S : CostSort) (h : Inv s) (hM : Represents s M) {op : Op} (hok : OpOk s op) :
    Inv (s.apply S op) ∧ Represents (s.apply S op) (s.applyMap M op) := by
  cases op with
  | insert n => exact insert_spec h hM hok
  | erase q => exact erase_spec h hM hok.1 hok.2.1 hok.2.2
  | eraseEntry f => exact eraseEntry_spec h hM hok
  | addNextHop f face cost => exact addNextHop_spec S h hM f face cost
  | removeNextHop f face => exact removeNextHop_spec h hM f face
  | removeNextHopFromAllEntries face =>
    exact removeNextHopFromAllEntries_spec h hM hok.1 hok.2
  | lookup n => exact ⟨h.lookup hok, hM⟩
  | eraseEntryIfEmpty e =>
    obtain ⟨E, -, hE, hok⟩ := hok
    exact ⟨h.eraseEntryIfEmpty hE hok, hM⟩
  | attachOther e pitEntries measurementsEntry strategyChoiceEntry =>
    refine ⟨h.of_keeps (inv_modifyAttached h.tree e _) (.of_modifyAttached s.nameTree e ?_), hM⟩
    intro a
    rfl

/-- Every run does to the FIB what it does to the map. -/
theorem run_spec (S : CostSort) {ops : List Op} : ∀ {s : Fib} {M : FibMap}, Inv s →
    Represents s M → RunOk S s ops →
    Inv (s.run S ops) ∧ Represents (s.run S ops) (runMap S s M ops) := by
  induction ops with
  | nil =>
    intro s M h hM _
    exact ⟨h, hM⟩
  | cons op ops ih =>
    intro s M h hM hok
    obtain ⟨h', hM'⟩ := apply_spec S h hM hok.1
    exact ih h' hM' hok.2

/-- The FIB and a map agree on a prefix. -/
structure Agrees (s : Fib) (M : FibMap) (q : KeptName) : Prop where
  /-- Exact matching fails only if the prefix is not mapped. -/
  missing : s.findExactMatch q = none → M q.name = none
  /-- The entry it finds is the one of the prefix and has one next hop for each face, with the cost
  of the map, in the order of the costs. -/
  found : ∀ f, s.findExactMatch q = some f → ∃ F, s.entries f = some F ∧ F.namePrefix = q.name ∧
    M q.name = some (costs F.nextHops) ∧ Sorted F.nextHops

/-- A FIB that represents a map agrees with it. -/
theorem agrees_of_represents (h : Inv s) (hM : Represents s M) {q : KeptName}
    (hsame : q.SameHash) (hno : NoTwin s.nameTree q) : Agrees s M q := by
  have hfound : ∀ f, s.findExactMatch q = some f ↔ s.prefixOf f = some q.name := by
    intro f
    unfold findExactMatch
    rw [bind_eq_some_iff]
    constructor
    · grind [h.tree.findExactMatch_iff, Live.getFibEntry_eq, h.prefixOf_iff]
    · intro hf
      obtain ⟨e, E, hE, hattached, hname⟩ := h.exists_live hf
      exact ⟨e, (h.tree.findExactMatch_iff hsame hno).mpr ⟨E, hE, hname⟩,
        (Live.getFibEntry_eq hE).trans hattached⟩
  constructor <;> grind [hM.eq_none_iff, prefixOf_eq_some_iff, hM.eq_costs, h.sorted]

/-- After every run that meets the conditions, the FIB is the map that the abstract operations of
the run produce. -/
theorem agrees_of_runOk (S : CostSort) {nBuckets : ℕ} (hpos : 1 ≤ nBuckets) {ops : List Op}
    (hok : RunOk S (create nBuckets) ops) {q : KeptName} (hsame : q.SameHash)
    (hno : NoTwin ((create nBuckets).run S ops).nameTree q) :
    Agrees ((create nBuckets).run S ops) (runMap S (create nBuckets) FibMap.empty ops) q := by
  obtain ⟨h, hM⟩ := run_spec S (inv_create hpos) (represents_create nBuckets) hok
  exact agrees_of_represents h hM hsame hno

/-- Costs are set and changed, another table looks up a name, the removal of a face erases one of
two entries, and a prefix without an entry is erased. -/
def twoEntries : List Op :=
  [.insert nameA, .addNextHop 0 1 10, .addNextHop 0 2 5, .addNextHop 0 1 3,
    .lookup [.generic [0x43]], .insert [.generic [0x42]], .addNextHop 1 2 7,
    .removeNextHopFromAllEntries 2, .erase nameTwins]

/-- The result at this run. -/
theorem agrees_of_runOk_twoEntries : Agrees ((create 4).run byInsertion twoEntries)
      (runMap byInsertion (create 4) FibMap.empty twoEntries) nameA :=
  agrees_of_runOk byInsertion (by decide) (by decide +kernel) (by decide +kernel)
    (by decide +kernel)

/-- The hash of a name does not depend on the order of its components, and names are compared
without the types of their components: exact matching takes one of these names for the other.  A
prefix in octets with the length in three of them is neither found nor erased. -/
theorem exact_match_of_other_name :
    ¬ Agrees ((create 1024).run byInsertion [.insert nameTwins])
        (runMap byInsertion (create 1024) FibMap.empty [.insert nameTwins])
        (Name.encoded nameTwins.reverse) ∧
      ¬ Agrees ((create 16).run byInsertion [.insert nameA])
        (runMap byInsertion (create 16) FibMap.empty [.insert nameA]) keptA ∧
      ¬ Agrees ((create 16).run byInsertion [.insert nameA, .erase keptA])
        (runMap byInsertion (create 16) FibMap.empty [.insert nameA, .erase keptA]) nameA := by
  refine ⟨fun h => ?_, fun h => ?_, fun h => ?_⟩
  · have hfind : ((create 1024).run byInsertion [.insert nameTwins]).findExactMatch
        (Name.encoded nameTwins.reverse) = some 0 := by decide +kernel
    have hentry : ((create 1024).run byInsertion [.insert nameTwins]).entries 0 =
        some ⟨nameTwins, [], some 2⟩ := by decide +kernel
    obtain ⟨F, hF, hname, -⟩ := h.found 0 hfind
    rw [hentry, some.injEq] at hF
    rw [← hF] at hname
    exact absurd hname (by decide)
  · have hmap : runMap byInsertion (create 16) FibMap.empty [.insert nameA] nameA = none :=
      h.missing (by decide +kernel)
    simp [runMap, applyMap, FibMap.insert, FibMap.empty] at hmap
  · have hfind : ((create 16).run byInsertion [.insert nameA, .erase keptA]).findExactMatch
        nameA = some 0 := by decide +kernel
    obtain ⟨F, -, -, hmap, -⟩ := h.found 0 hfind
    have hname : keptA.name = nameA := rfl
    simp [runMap, applyMap, FibMap.erase, hname] at hmap

end IcnDemo.Fib
