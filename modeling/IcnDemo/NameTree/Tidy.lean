import IcnDemo.NameTree.Run

/-!
# Entries that nothing needs

An entry is there for what is attached to it or for the entries below it.  `Tidy` says that every
entry has one or the other.  A lookup gives this up at the entry of its name, and the caller that
attaches something there restores it.  `eraseEntryIfEmpty` restores it at the entry that a caller
has just taken something off, and at the ancestors that were there for this entry only.
-/

namespace IcnDemo.NameTree

/-- Every entry has children or something attached. -/
def Tidy (t : NameTree) : Prop :=
  ∀ x X, t.Live x X → X.isEmpty = false

/-- Every entry but `e` has children or something attached. -/
def TidyBut (t : NameTree) (e : EntryId) : Prop :=
  ∀ x X, t.Live x X → x ≠ e → X.isEmpty = false

variable {t t' : NameTree} {e x : EntryId} {E X : Entry} {n : Name}

/-- A tidy tree is tidy with an exception. -/
theorem Tidy.but (h : Tidy t) (e : EntryId) : TidyBut t e :=
  fun x X hX _ => h x X hX

/-- The exception is not needed for an entry that is not empty. -/
theorem TidyBut.tidy (h : TidyBut t e) (hE : t.Live e E) (hne : E.isEmpty = false) : Tidy t := by
  intro x X hX
  by_cases hxe : x = e
  · subst hxe
    rw [hX.contents_eq hE]
    exact hne
  · exact h x X hX hxe

/-- An entry with children or attachments is not empty. -/
theorem Entry.isEmpty_eq_false_iff :
    E.isEmpty = false ↔ E.children ≠ [] ∨ E.attached ≠ Attachments.empty := by
  rw [← Bool.not_eq_true, Entry.isEmpty_iff, not_and_or]

/-- An entry has children if there is a name below it. -/
theorem TreeInv.children_ne_nil_iff (h : TreeInv t) (hX : t.Live x X) :
    X.children ≠ [] ↔ ∃ m, t.LiveName m ∧ m ≠ [] ∧ m.dropLast = X.namePrefix := by
  constructor
  · intro hne
    obtain ⟨c, hc⟩ := List.exists_mem_of_ne_nil _ hne
    obtain ⟨C, hC, hparent⟩ := h.child x X hX c hc
    have hroot : C.namePrefix ≠ [] := by
      intro hnil
      rw [h.root c C hC hnil] at hparent
      cases hparent
    obtain ⟨p, P, hp, hP, hname⟩ := h.parent c C hC hroot
    rw [hparent] at hp
    cases hp
    rw [hP.contents_eq hX] at hname
    exact ⟨C.namePrefix, ⟨c, C, hC, rfl⟩, hroot, hname.symm⟩
  · rintro ⟨m, ⟨c, C, hC, rfl⟩, hroot, hname⟩
    obtain ⟨p, P, hp, hP, hname'⟩ := h.parent c C hC hroot
    obtain rfl := h.unique p P x X hP hX (hname'.trans hname)
    exact List.ne_nil_of_mem (h.mem_children c C p X hC hX hp)

/-! ### Attachments -/

/-- The attachments of the exception do not matter. -/
theorem TidyBut.modifyAttached (h : TidyBut t e) (g : Attachments → Attachments) :
    TidyBut (t.modifyAttached e g) e := by
  intro x X' hX' hxe
  obtain ⟨X, hX, rfl⟩ := live_modifyAttached.mp hX'
  rw [if_neg hxe]
  exact h x X hX hxe

/-- Something attached ends the exception. -/
theorem TidyBut.attach (h : TidyBut t e) (hE : t.Live e E) {g : Attachments → Attachments}
    (hg : g E.attached ≠ Attachments.empty) : Tidy (t.modifyAttached e g) := by
  refine (h.modifyAttached g).tidy (live_modifyAttached.mpr ⟨E, hE, (if_pos rfl).symm⟩) ?_
  exact Entry.isEmpty_eq_false_iff.mpr (.inr hg)

/-! ### Lookup -/

/-- No name is lost. -/
theorem Extends.liveName (h : Extends t t') (hn : t.LiveName n) : t'.LiveName n := by
  obtain ⟨x, X, hX, rfl⟩ := hn
  obtain ⟨X', hX', hname, -⟩ := h.keep x X hX
  exact ⟨x, X', hX', hname⟩

/-- What is not empty stays so when entries are added. -/
theorem Extends.isEmpty_eq_false (h : Extends t t') (htree : TreeInv t) (htree' : TreeInv t')
    (hX : t.Live x X) (hne : X.isEmpty = false) {X' : Entry} (hX' : t'.Live x X') :
    X'.isEmpty = false := by
  obtain ⟨Y, hY, hname, hattached⟩ := h.keep x X hX
  obtain rfl := hY.contents_eq hX'
  grind [Entry.isEmpty_eq_false_iff, htree.children_ne_nil_iff, htree'.children_ne_nil_iff,
    h.liveName]

/-- The loop adds prefixes of the name only. -/
theorem lookupUpTo_new (h : Inv t) (hok : LookupOk t n) {i : ℕ} (hi : i ≤ n.length + 1)
    {m : Name} (hm : (t.lookupUpTo n i).1.LiveName m) : t.LiveName m ∨ m <+: n := by
  induction i with
  | zero => exact .inl hm
  | succ i ih =>
    obtain ⟨hinv, -, hvar⟩ := lookupUpTo_spec h hok (Nat.le_of_succ_le hi)
    obtain ⟨hins, henl⟩ := hok i (Nat.le_of_succ_le_succ hi)
    obtain ⟨hinv', -, -⟩ := insertChild_spec hinv (hvar.parentOf (Nat.le_of_succ_le_succ hi)) hins
    obtain ⟨-, -, hlive⟩ := enlargeIfNeeded_spec hinv' henl
    obtain ⟨x, X, hX, rfl⟩ := hm
    rw [lookupUpTo_succ, lookupStep] at hX
    replace hX := (hlive x X).mp hX
    obtain ⟨⟨ch, hT⟩, htree⟩ := hinv
    rcases insertChild_cases hT htree (t.lookupUpTo n i).2 hins with
      ⟨_, _, -, -, heq⟩ | ⟨-, heq⟩
    · rw [heq] at hX
      exact ih (Nat.le_of_succ_le hi) ⟨x, X, hX, rfl⟩
    rw [heq] at hX
    rcases (live_insertUnder hT _ fun p hp => hvar.ne_nextEntry hT hp).mp hX with
      ⟨-, rfl⟩ | ⟨Y, hY, rfl⟩
    · exact .inr (List.take_prefix i n)
    · exact ih (Nat.le_of_succ_le hi) ⟨x, Y, hY, by simp⟩

/-- A lookup adds prefixes of the name only. -/
theorem lookup_new (h : Inv t) (hok : LookupOk t n) {m : Name}
    (hm : (t.lookup n).1.LiveName m) : t.LiveName m ∨ m <+: n :=
  lookupUpTo_new h hok le_rfl hm

/-- After a lookup only its entry may be empty. -/
theorem Tidy.lookup (htidy : Tidy t) (h : Inv t) (hok : LookupOk t n)
    (he : (t.lookup n).2 = some e) : TidyBut (t.lookup n).1 e := by
  obtain ⟨hinv', hext, e', E, he', hE, hname⟩ := lookup_spec h hok
  obtain rfl := Option.some.inj (he.symm.trans he')
  intro x X hX hxe
  rcases lookup_new h hok ⟨x, X, hX, rfl⟩ with ⟨y, Y, hY, hYname⟩ | ⟨rest, hrest⟩
  · obtain ⟨Y', hY', hname', -⟩ := hext.keep y Y hY
    obtain rfl := hinv'.2.unique y Y' x X hY' hX (hname'.trans hYname)
    exact hext.isEmpty_eq_false h.2 hinv'.2 hY (htidy y Y hY) hX
  -- a proper prefix of the name, and the next longer prefix is there too
  refine Entry.isEmpty_eq_false_iff.mpr (.inl ((hinv'.2.children_ne_nil_iff hX).mpr ?_))
  rcases rest with _ | ⟨c, rest⟩
  · rw [List.append_nil] at hrest
    exact absurd (hinv'.2.unique x X e E hX hE (hrest.trans hname.symm)) hxe
  refine ⟨X.namePrefix ++ [c], ?_, by simp, List.dropLast_concat⟩
  have htake := hinv'.2.liveName_take ⟨e, E, hE, hname⟩ (X.namePrefix.length + 1)
  grind

/-- A lookup leaves the tree tidy exactly if the name was there. -/
theorem Tidy.tidy_lookup_iff (htidy : Tidy t) (h : Inv t) (hok : LookupOk t n) :
    Tidy (t.lookup n).1 ↔ t.LiveName n := by
  obtain ⟨hinv', hext, e, E, he, hE, rfl⟩ := lookup_spec h hok
  constructor
  · intro htidy'
    by_contra hnew
    have hattached : E.attached = Attachments.empty := by
      rcases hext.new e E hE with ⟨X, hX, hname, -⟩ | hempty
      · exact absurd ⟨e, X, hX, hname.symm⟩ hnew
      · exact hempty
    have hchildren : ¬ E.children ≠ [] := by
      rw [hinv'.2.children_ne_nil_iff hE]
      rintro ⟨m, hm, hne, hdrop⟩
      have hlen := congrArg List.length hdrop
      rw [List.length_dropLast] at hlen
      have hpos := List.length_pos_iff.mpr hne
      rcases lookup_new h hok hm with hold | hshort
      · refine hnew ?_
        rw [← hdrop, List.dropLast_eq_take]
        exact h.2.liveName_take hold _
      · have hle := hshort.length_le
        omega
    have hneeded := htidy' e E hE
    grind [Entry.isEmpty_eq_false_iff]
  · rintro ⟨y, Y, hY, hname⟩
    obtain ⟨Y', hY', hname', -⟩ := hext.keep y Y hY
    obtain rfl := hinv'.2.unique y Y' e E hY' hE (hname'.trans hname)
    exact (htidy.lookup h hok he).tidy hE (hext.isEmpty_eq_false h.2 hinv'.2 hY (htidy y Y hY) hE)

/-- A lookup of a name that is there changes nothing. -/
theorem lookup_eq_self (h : Inv t) (hok : LookupOk t n) (hn : t.LiveName n)
    (hsize : t.nItems ≤ t.enlargeThreshold) : (t.lookup n).1 = t := by
  have hloop : ∀ i ≤ n.length + 1, (t.lookupUpTo n i).1 = t := by
    intro i hi
    induction i with
    | zero => rfl
    | succ i ih =>
      have heq := ih (Nat.le_of_succ_le hi)
      obtain ⟨hins, -⟩ := hok i (Nat.le_of_succ_le_succ hi)
      obtain ⟨⟨ch, hT⟩, htree⟩ := h
      rw [heq] at hins
      rw [lookupUpTo_succ, lookupStep, heq]
      rcases insertChild_cases hT htree (t.lookupUpTo n i).2 hins with
        ⟨_, _, -, -, hfound⟩ | ⟨hnew, -⟩
      · rw [hfound]
        exact if_neg (Nat.not_lt.mpr hsize)
      · exact absurd (htree.liveName_take hn i) hnew
  exact hloop _ le_rfl

/-- A lookup changes nothing exactly if the name is there. -/
theorem lookup_eq_self_iff (h : Inv t) (hok : LookupOk t n)
    (hsize : t.nItems ≤ t.enlargeThreshold) : (t.lookup n).1 = t ↔ t.LiveName n := by
  constructor
  · intro heq
    obtain ⟨-, -, e, E, -, hE, hname⟩ := lookup_spec h hok
    rw [heq] at hE
    exact ⟨e, E, hE, hname⟩
  · intro hn
    exact lookup_eq_self h hok hn hsize

/-! ### Erasure -/

/-- When an entry is detached, its parent may be empty. -/
theorem TidyBut.detach_of_parent (hbut : TidyBut t e) (h : Inv t) (hE : t.Live e E) {p : EntryId}
    (hp : E.parent = some p) : TidyBut (t.detach e E) p := by
  intro x X' hX' hxp
  obtain ⟨X, hX, hxe, rfl⟩ := (live_detach h.2 hE).mp hX'
  have hparent : E.parent ≠ some x := by
    rw [hp]
    exact fun heq => hxp (Option.some.inj heq).symm
  rw [withoutChild, if_neg hparent]
  exact hbut x X hX hxe

/-- When the root is detached, the tree is tidy. -/
theorem TidyBut.detach_root (hbut : TidyBut t e) (h : Inv t) (hE : t.Live e E)
    (hroot : E.parent = none) : Tidy (t.detach e E) := by
  intro x X' hX'
  obtain ⟨X, hX, hxe, rfl⟩ := (live_detach h.2 hE).mp hX'
  rw [withoutChild, hroot, if_neg (Option.some_ne_none x).symm]
  exact hbut x X hX hxe

/-- A safe shrink keeps the tree tidy. -/
theorem Tidy.shrinkIfNeeded (htidy : Tidy t) (h : Inv t) (hok : ShrinkOk t) :
    Tidy t.shrinkIfNeeded := by
  unfold NameTree.shrinkIfNeeded
  simp only
  split_ifs with hcond
  · obtain ⟨⟨ch, hT⟩, -⟩ := h
    intro x X hX
    exact htidy x X ((live_resize hT (hok hcond).1 x X).mp hX)
  · exact htidy

/-- Erasing upwards tidies the tree. -/
theorem TidyBut.eraseUp {fuel : ℕ} : ∀ {t : NameTree} {e : EntryId} {E : Entry}, TidyBut t e →
    Inv t → t.Live e E → E.namePrefix.length < fuel → EraseOk fuel t e →
    Tidy (NameTree.eraseUp fuel t e).1 := by
  induction fuel with
  | zero =>
    intro t e E _ _ _ hlen
    exact absurd hlen (Nat.not_lt_zero _)
  | succ fuel ih =>
    intro t e E hbut h hE hlen hok
    by_cases hempty : E.isEmpty = true
    · obtain ⟨hup, hshrink⟩ := hok E hE.entry hempty
      have hdet := inv_detach h hE hempty
      rcases hparent : E.parent with _ | p
      · have hafter : afterParent fuel t e E = t.detach e E := by rw [afterParent, hparent]
        have hstep : (NameTree.eraseUp (fuel + 1) t e).1 = (t.detach e E).shrinkIfNeeded := by
          simp [NameTree.eraseUp, hE.entry, hempty, hparent]
        rw [hafter] at hshrink
        rw [hstep]
        exact (hbut.detach_root h hE hparent).shrinkIfNeeded hdet hshrink
      have hafter : afterParent fuel t e E = (NameTree.eraseUp fuel (t.detach e E) p).1 := by
        rw [afterParent, hparent]
      have hstep : (NameTree.eraseUp (fuel + 1) t e).1 =
          (NameTree.eraseUp fuel (t.detach e E) p).1.shrinkIfNeeded := by
        simp [NameTree.eraseUp, hE.entry, hempty, hparent]
      obtain ⟨P, hP, hPlen⟩ := live_parent_detach h hE hparent
      have hlen' : P.namePrefix.length < fuel := by omega
      obtain ⟨hinv, -⟩ := eraseUp_spec hdet hP hlen' (hup p hparent)
      rw [hafter] at hshrink
      rw [hstep]
      exact (ih (hbut.detach_of_parent h hE hparent) hdet hP hlen'
        (hup p hparent)).shrinkIfNeeded hinv hshrink
    · grind [NameTree.eraseUp, hE.entry, hbut.tidy]

/-- `eraseEntryIfEmpty` tidies the tree. -/
theorem TidyBut.eraseEntryIfEmpty (hbut : TidyBut t e) (h : Inv t) (hE : t.Live e E)
    (hok : EraseOk (E.namePrefix.length + 1) t e) : Tidy (t.eraseEntryIfEmpty e).1 := by
  unfold NameTree.eraseEntryIfEmpty
  simp only [hE.entry]
  exact hbut.eraseUp h hE (Nat.lt_succ_self _) hok

end IcnDemo.NameTree
