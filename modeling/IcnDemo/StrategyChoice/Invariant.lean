import IcnDemo.StrategyChoice.Defs

/-!
# The tables agree with the name tree

The pointers between the name tree and the other tables agree, the root has a Strategy Choice
entry, and no host belongs to two name tree entries.  A name tree operation matters to a table only
by what it does to the attachments of that table; `Keeps` says that it does nothing to them.
-/

namespace IcnDemo

open Option Function

namespace NameTree

/-- Rounding keeps what is at least two. -/
theorem two_le_roundMantissa {x : ℕ} (h : 2 ≤ x) : 2 ≤ roundMantissa x := by
  unfold roundMantissa
  split_ifs with hlt
  · exact h
  have hlog : 53 ≤ Nat.log2 x := (Nat.le_log2 (by omega)).mpr (by omega)
  have hself : 2 ^ Nat.log2 x ≤ x := Nat.log2_self_le (by omega)
  have hq : 2 ^ 52 ≤ x / 2 ^ (Nat.log2 x - 52) := by
    rw [Nat.le_div_iff_mul_le (Nat.two_pow_pos _), ← pow_add]
    refine le_trans (le_of_eq ?_) hself
    congr 1
    omega
  have hscale : 1 ≤ 2 ^ (Nat.log2 x - 52) := Nat.one_le_two_pow
  have hle : 2 ≤ x / 2 ^ (Nat.log2 x - 52) * 2 ^ (Nat.log2 x - 52) := by
    refine le_trans ?_ (Nat.mul_le_mul hq hscale)
    decide
  grind

/-- The root can be looked up in an empty name tree. -/
theorem lookupOk_create_nil {nBuckets : ℕ} (hpos : 1 ≤ nBuckets) :
    LookupOk (create nBuckets) [] := by
  intro i hi
  obtain rfl : i = 0 := Nat.le_zero.mp hi
  refine ⟨fun m hm => absurd hm (Nat.not_lt_zero m), ?_⟩
  change EnlargeOk ((create nBuckets).insertChild none []).1
  have hsize : ((create nBuckets).insertChild none []).1.nItems ≤ 1 ∧
      ((create nBuckets).insertChild none []).1.enlargeThreshold = halfOf nBuckets ∧
        ((create nBuckets).insertChild none []).1.nBuckets = nBuckets := by
    unfold insertChild insert
    cases (create nBuckets).scan ((create nBuckets).location (computeHash (Name.encoded [])))
        fun E => Name.equals [] E.namePrefix with
    | some e => exact ⟨Nat.zero_le 1, rfl, rfl⟩
    | none => exact ⟨le_rfl, rfl, rfl⟩
  obtain ⟨hitems, hthreshold, hbuckets⟩ := hsize
  intro hexceeds
  rw [hbuckets]
  obtain rfl | htwo := Nat.eq_or_lt_of_le hpos
  all_goals grind [resizeOk_of_dvd, two_le_roundMantissa, halfOf]

end NameTree

/-- Another name tree with the same PIT entries. -/
theorem Pit.Inv.of_keeps {pit : Pit} (h : Pit.Inv pit) {t' : NameTree} (hinv : NameTree.Inv t')
    (hk : NameTree.Keeps NameTree.Attachments.pitEntries pit.nameTree t') (n : ℕ) :
    Pit.Inv { pit with nameTree := t', nItems := n } := by
  refine ⟨hinv, ?_, ?_, ?_, h.fresh⟩
  · intro e E' hE' p hp
    obtain ⟨E, hE, hname, hatt⟩ := hk.old e E' hE' (List.ne_nil_of_mem hp)
    rw [hatt] at hp
    rw [hname]
    exact h.attached e E hE p hp
  · intro p P e hP he
    obtain ⟨E, hE, hp⟩ := h.stored p P e hP he
    obtain ⟨E', hE', -, hatt⟩ := hk.keep e E hE (List.ne_nil_of_mem hp)
    exact ⟨E', hE', by rwa [hatt]⟩
  · intro e E' hE'
    by_cases hne : E'.attached.pitEntries = []
    · rw [hne]
      exact List.nodup_nil
    · obtain ⟨E, hE, -, hatt⟩ := hk.old e E' hE' hne
      rw [hatt]
      exact h.nodup e E hE

open StrategyChoice NameTree

namespace Tables

/-- The Strategy Choice entries and the name tree agree. -/
structure ChoiceInv (t : NameTree) (choices : ChoiceId → Option StrategyChoice.Entry)
    (next : ChoiceId) : Prop where
  attached : ∀ e E c, t.Live e E → E.attached.strategyChoiceEntry = some c →
    ∃ q strategy, q.name = E.namePrefix ∧ choices c = some ⟨q, some strategy, some e⟩
  fresh : ∀ c, next ≤ c → choices c = none
  root : ∃ e E, t.Live e E ∧ E.namePrefix = [] ∧ hasChoice E = true

/-- The measurements entries and the name tree agree. -/
structure MeasurementsInv (t : NameTree) (measurements : ℕ → Option EntryId) (next : ℕ) :
    Prop where
  attached : ∀ e E m, t.Live e E → E.attached.measurementsEntry = some m → measurements m = some e
  fresh : ∀ m, next ≤ m → measurements m = none

/-- The tables and the name tree agree. -/
structure Inv (s : Tables) : Prop where
  pit : Pit.Inv s.pit
  choices : ChoiceInv s.nameTree s.choices s.nextChoice
  measurements : MeasurementsInv s.nameTree s.measurements s.nextMeasurements

variable {s : Tables} {t t' : NameTree}

/-- The name tree is in order. -/
theorem Inv.tree (h : Inv s) : NameTree.Inv s.nameTree :=
  h.pit.tree

/-- An entry with a choice has an attachment. -/
theorem hasChoice_iff {E : NameTree.Entry} : hasChoice E = true ↔
      E.attached.strategyChoiceEntry ≠ Attachments.empty.strategyChoiceEntry := by
  unfold hasChoice
  rw [isSome_iff_ne_none]
  rfl

/-! ### Operations of the name tree -/

/-- Another name tree with the same choices. -/
theorem ChoiceInv.of_keeps {choices : ChoiceId → Option StrategyChoice.Entry} {next : ChoiceId}
    (h : ChoiceInv t choices next) (hk : Keeps Attachments.strategyChoiceEntry t t') :
    ChoiceInv t' choices next := by
  refine ⟨?_, h.fresh, ?_⟩
  · intro e E' c hE' hc
    obtain ⟨E, hE, hname, hatt⟩ := hk.old e E' hE' (by rw [hc]; exact some_ne_none c)
    rw [hname]
    exact h.attached e E c hE (hatt ▸ hc)
  · grind [h.root, hk.keep, hasChoice_iff]

/-- Another name tree with the same measurements. -/
theorem MeasurementsInv.of_keeps {measurements : ℕ → Option EntryId} {next : ℕ}
    (h : MeasurementsInv t measurements next) (hk : Keeps Attachments.measurementsEntry t t') :
    MeasurementsInv t' measurements next := by
  refine ⟨?_, h.fresh⟩
  intro e E' m hE' hm
  obtain ⟨E, hE, -, hatt⟩ := hk.old e E' hE' (by rw [hm]; exact some_ne_none m)
  exact h.attached e E m hE (hatt ▸ hm)

/-- Another name tree with the same attachments. -/
theorem Inv.withTree (h : Inv s) (hinv : NameTree.Inv t')
    (hk : ∀ {β : Type} (π : Attachments → β), Keeps π s.nameTree t') : Inv (s.withTree t') :=
  ⟨h.pit.of_keeps hinv (hk _) s.pit.nItems, h.choices.of_keeps (hk _),
    h.measurements.of_keeps (hk _)⟩

variable {n : Name}

/-- A safe lookup keeps the invariant. -/
theorem Inv.lookup (h : Inv s) (hok : LookupOk s.nameTree n) :
    Inv (s.withTree (s.nameTree.lookup n).1) := by
  obtain ⟨hinv, hext, -⟩ := lookup_spec h.tree hok
  exact h.withTree hinv fun _ => .of_extends hext

/-- A safe erasure keeps the invariant. -/
theorem Inv.eraseEntryIfEmpty (h : Inv s) {e : NameTree.EntryId} {E : NameTree.Entry}
    (hE : s.nameTree.Live e E) (hok : NameTree.EraseOk (E.namePrefix.length + 1) s.nameTree e) :
    Inv (s.withTree (s.nameTree.eraseEntryIfEmpty e).1) := by
  obtain ⟨hinv, hprune⟩ := eraseEntryIfEmpty_spec h.tree hE hok
  exact h.withTree hinv fun _ => .of_prunes hprune

/-! ### Operations of the PIT -/

/-- Operations of the PIT keep the other attachments. -/
theorem keeps_pit_apply {β : Type*} {π : Attachments → β}
    (hπ : ∀ a l, π { a with pitEntries := l } = π a) {pit : Pit} (h : Pit.Inv pit) {op : Pit.Op}
    (hok : Pit.OpOk pit op) : Keeps π pit.nameTree (pit.apply op).nameTree := by
  cases op with
  | insert i =>
    obtain ⟨-, hext, -⟩ := lookup_spec h.tree hok
    obtain ⟨e, E, -, -, ⟨p, -, -, heq⟩ | ⟨-, heq⟩⟩ := Pit.findOrInsert_cases h hok true
    · change Keeps π pit.nameTree (pit.findOrInsert i true).1.nameTree
      rw [heq]
      exact .of_extends hext
    · change Keeps π pit.nameTree (pit.findOrInsert i true).1.nameTree
      rw [heq, if_pos rfl]
      exact .trans (.of_extends hext) (.of_modifyAttached (pit.nameTree.lookup i.name).1 e
        fun a => hπ a (a.pitEntries ++ [pit.nextEntry]))
  | erase p =>
    obtain ⟨e, he, E, hE, hok⟩ := hok
    obtain ⟨P, hP, he⟩ := bind_eq_some_iff.mp he
    obtain ⟨F, hF, -⟩ := h.stored p P e hP he
    have hlive := (Pit.live_detach (p := p) (e := e)).mpr ⟨F, hF, rfl⟩
    have hentry := hlive.entry
    rw [mem_def.mp hE] at hentry
    cases hentry
    obtain ⟨-, hprune⟩ := eraseEntryIfEmpty_spec (Pit.inv_detach h hP he).tree hlive hok
    unfold Pit.apply
    simp only [Pit.erase_eq_some hP he, getD_some]
    exact .trans (.of_modifyAttached pit.nameTree e fun a => hπ a (swapPop a.pitEntries p))
      (.of_prunes hprune)

/-- A safe operation of the PIT keeps the invariant. -/
theorem Inv.pitOp (h : Inv s) {op : Pit.Op} (hok : Pit.OpOk s.pit op) :
    Inv { s with pit := s.pit.apply op } :=
  ⟨Pit.inv_apply h.pit hok, h.choices.of_keeps (keeps_pit_apply (fun _ _ => rfl) h.pit hok),
    h.measurements.of_keeps (keeps_pit_apply (fun _ _ => rfl) h.pit hok)⟩

/-- Replace the records of a PIT entry. -/
def setRecords (s : Tables) (p : Pit.EntryId) (ins : List Pit.InRecord)
    (outs : List Pit.OutRecord) : Tables :=
  { s with pit := s.pit.modify p fun P => { P with inRecords := ins, outRecords := outs } }

/-- Other records keep the invariant. -/
theorem Inv.setRecords (h : Inv s) (p : Pit.EntryId) (ins : List Pit.InRecord)
    (outs : List Pit.OutRecord) : Inv (s.setRecords p ins outs) := by
  refine ⟨⟨h.pit.tree, ?_, ?_, h.pit.nodup, ?_⟩, h.choices, h.measurements⟩
  · intro e E hE q hq
    obtain ⟨Q, hQ, he, hname⟩ := h.pit.attached e E hE q hq
    grind [Tables.setRecords, Pit.entries_modify_self, Pit.entries_modify_of_ne]
  · intro q Q' e hQ' he
    by_cases hqp : q = p
    · subst hqp
      rw [Tables.setRecords, Pit.entries_modify_self] at hQ'
      obtain ⟨Q, hQ, rfl⟩ := map_eq_some_iff.mp hQ'
      exact h.pit.stored q Q e hQ he
    · rw [Tables.setRecords, Pit.entries_modify_of_ne _ _ hqp] at hQ'
      exact h.pit.stored q Q' e hQ' he
  · intro q hq
    by_cases hqp : q = p
    · subst hqp
      rw [Tables.setRecords, Pit.entries_modify_self, h.pit.fresh q hq]
      rfl
    · rw [Tables.setRecords, Pit.entries_modify_of_ne _ _ hqp]
      exact h.pit.fresh q hq

/-! ### Measurements entries and FIB entries -/

/-- `name_tree::Entry::setFibEntry`. -/
def setFibEntry (s : Tables) (e : EntryId) (fibEntry : Option ℕ) : Tables :=
  s.withTree (s.nameTree.modifyAttached e fun a => { a with fibEntry := fibEntry })

/-- `Measurements::get` on a name tree entry. -/
def getMeasurements (s : Tables) (e : EntryId) : Tables :=
  if ((s.nameTree.entries e).bind fun E => E.attached.measurementsEntry).isSome then s
  else
    { s.withTree (s.nameTree.modifyAttached e fun a =>
        { a with measurementsEntry := some s.nextMeasurements }) with
      measurements := update s.measurements s.nextMeasurements (some e)
      nextMeasurements := s.nextMeasurements + 1 }

/-- `name_tree::Entry::setMeasurementsEntry` with a null pointer, as `Measurements::cleanup` calls
it before `eraseEntryIfEmpty`. -/
def clearMeasurements (s : Tables) (e : EntryId) : Tables :=
  match (s.nameTree.entries e).bind fun E => E.attached.measurementsEntry with
  | none => s
  | some m =>
    { s.withTree (s.nameTree.modifyAttached e fun a => { a with measurementsEntry := none }) with
      measurements := update s.measurements m none }

/-- Another FIB entry keeps the invariant. -/
theorem Inv.setFibEntry (h : Inv s) (e : NameTree.EntryId) (fibEntry : Option ℕ) :
    Inv (s.setFibEntry e fibEntry) := by
  let g : Attachments → Attachments := fun a => { a with fibEntry := fibEntry }
  have hpit : Keeps Attachments.pitEntries s.nameTree (s.nameTree.modifyAttached e g) :=
    .of_modifyAttached _ e fun _ => rfl
  refine ⟨h.pit.of_keeps (inv_modifyAttached h.tree e g) hpit s.pit.nItems, ?_, ?_⟩
  · exact h.choices.of_keeps (.of_modifyAttached s.nameTree e (g := g) fun _ => rfl)
  · exact h.measurements.of_keeps (.of_modifyAttached s.nameTree e (g := g) fun _ => rfl)

/-- Other measurements keep the invariant. -/
theorem Inv.withMeasurements (h : Inv s) {e : NameTree.EntryId} {g : Attachments → Attachments}
    {measurements : ℕ → Option NameTree.EntryId} {next : ℕ}
    (hmeasurements : MeasurementsInv (s.nameTree.modifyAttached e g) measurements next)
    (hpit : ∀ a, (g a).pitEntries = a.pitEntries)
    (hchoices : ∀ a, (g a).strategyChoiceEntry = a.strategyChoiceEntry) :
    Inv { s.withTree (s.nameTree.modifyAttached e g) with
      measurements := measurements, nextMeasurements := next } :=
  ⟨h.pit.of_keeps (inv_modifyAttached h.tree e g) (.of_modifyAttached _ e hpit) s.pit.nItems,
    h.choices.of_keeps (.of_modifyAttached _ e hchoices), hmeasurements⟩

/-- `get` of the measurements keeps the invariant. -/
theorem Inv.getMeasurements (h : Inv s) (e : NameTree.EntryId) : Inv (s.getMeasurements e) := by
  unfold Tables.getMeasurements
  split_ifs
  · exact h
  refine h.withMeasurements ⟨?_, ?_⟩ (fun _ => rfl) fun _ => rfl
  · intro x X' m hX' hm
    grind [live_modifyAttached, h.measurements.attached, update_of_ne, h.measurements.fresh]
  · grind [h.measurements.fresh]

/-- Erased measurements keep the invariant. -/
theorem Inv.clearMeasurements (h : Inv s) {e : NameTree.EntryId} {E : NameTree.Entry}
    (hE : s.nameTree.Live e E) : Inv (s.clearMeasurements e) := by
  unfold Tables.clearMeasurements
  rw [hE.entry, bind_some]
  rcases hm : E.attached.measurementsEntry with _ | m
  · exact h
  refine h.withMeasurements ⟨?_, ?_⟩ (fun _ => rfl) fun _ => rfl
  · intro x X' m' hX' hm'
    obtain ⟨X, hX, rfl⟩ := live_modifyAttached.mp hX'
    by_cases hxe : x = e
    · rw [if_pos hxe] at hm'
      cases hm'
    rw [if_neg hxe] at hm'
    have hold := h.measurements.attached x X m' hX hm'
    rw [update_of_ne, hold]
    rintro rfl
    rw [h.measurements.attached e E m' hE hm] at hold
    cases hold
    exact hxe rfl
  · intro m' hm'
    by_cases hmm : m' = m
    · rw [hmm, update_self]
    · rw [update_of_ne hmm]
      exact h.measurements.fresh m' hm'

/-! ### Strategy Choice entries -/

variable {choices : ChoiceId → Option StrategyChoice.Entry} {next c : ChoiceId}
  {e : NameTree.EntryId} {E : NameTree.Entry} {q : KeptName}

section

variable (h : ChoiceInv t choices next)

include h

/-- A new choice. -/
theorem ChoiceInv.attach (hE : t.Live e E) (hname : q.name = E.namePrefix) (σ : StrategyId) :
    ChoiceInv (t.modifyAttached e fun a => { a with strategyChoiceEntry := some next })
      (update choices next (some ⟨q, some σ, some e⟩)) (next + 1) := by
  refine ⟨?_, ?_, ?_⟩
  · intro x X' d hX' hd
    obtain ⟨X, hX, rfl⟩ := live_modifyAttached.mp hX'
    by_cases hxe : x = e <;> grind [hX.contents_eq, h.attached, h.fresh]
  · grind [h.fresh]
  · obtain ⟨r, R, hR, hnil, hchoice⟩ := h.root
    refine ⟨r, _, live_modifyAttached.mpr ⟨R, hR, rfl⟩, ?_, ?_⟩
    · split_ifs <;> exact hnil
    · split_ifs
      · rfl
      · exact hchoice

/-- Another strategy. -/
theorem ChoiceInv.setStrategy (c : ChoiceId) (σ : StrategyId) :
    ChoiceInv t (update choices c
      ((choices c).map fun C => { C with strategy := some σ })) next := by
  refine ⟨?_, ?_, h.root⟩
  · grind [h.attached]
  · grind [h.fresh]

/-- A choice that is erased. -/
theorem ChoiceInv.detach (hE : t.Live e E)
    (hc : E.attached.strategyChoiceEntry = some c) (hne : E.namePrefix ≠ []) :
    ChoiceInv (t.modifyAttached e fun a => { a with strategyChoiceEntry := none })
      (update choices c ((choices c).map fun C => { C with nameTreeEntry := none }))
      next := by
  obtain ⟨q, σ, -, hσ⟩ := h.attached e E c hE hc
  refine ⟨?_, ?_, ?_⟩
  · intro x X' d hX' hd
    obtain ⟨X, hX, rfl⟩ := live_modifyAttached.mp hX'
    by_cases hxe : x = e
    · rw [if_pos hxe] at hd
      cases hd
    rw [if_neg hxe] at hd ⊢
    obtain ⟨q', τ, hname, hτ⟩ := h.attached x X d hX hd
    grind
  · grind [h.fresh]
  · obtain ⟨r, R, hR, hname, hchoice⟩ := h.root
    have hre : r ≠ e := by
      rintro rfl
      rw [hE.contents_eq hR] at hne
      exact hne hname
    refine ⟨r, R, live_modifyAttached.mpr ⟨R, hR, ?_⟩, hname, hchoice⟩
    rw [if_neg hre]

end

/-- Other choices keep the invariant. -/
theorem Inv.withChoices (h : Inv s) {g : Attachments → Attachments}
    (hchoices : ChoiceInv (s.nameTree.modifyAttached e g) choices next)
    (hpit : ∀ a, (g a).pitEntries = a.pitEntries)
    (hmeasurements : ∀ a, (g a).measurementsEntry = a.measurementsEntry) :
    Inv { s.withTree (s.nameTree.modifyAttached e g) with
      choices := choices, nextChoice := next } :=
  ⟨h.pit.of_keeps (inv_modifyAttached h.tree e g) (.of_modifyAttached _ e hpit) s.pit.nItems,
    hchoices, h.measurements.of_keeps (.of_modifyAttached _ e hmeasurements)⟩

/-- Only infos are cleared. -/
theorem clearStrategyInfo_eq (s : Tables) (e : EntryId) :
    ∃ info, s.clearStrategyInfo e = { s with info := info } := by
  unfold clearStrategyInfo
  split
  · exact ⟨s.info, rfl⟩
  · exact ⟨_, rfl⟩

/-- Only infos are cleared in a loop. -/
theorem foldl_clearStrategyInfo_eq (l : List EntryId) :
    ∀ s : Tables, ∃ info, l.foldl clearStrategyInfo s = { s with info := info } := by
  induction l with
  | nil => exact fun s => ⟨s.info, rfl⟩
  | cons e l ih =>
    intro s
    obtain ⟨info, hinfo⟩ := clearStrategyInfo_eq s e
    simp_all

/-- `changeStrategy` clears only infos. -/
theorem changeStrategy_eq (s : Tables) (c : ChoiceId) (old new : StrategyId) :
    ∃ info, s.changeStrategy c old new = { s with info := info } := by
  unfold changeStrategy
  split_ifs
  · exact ⟨s.info, rfl⟩
  · split
    · exact ⟨s.info, rfl⟩
    · exact foldl_clearStrategyInfo_eq _ s

/-- Infos do not matter for the invariant. -/
theorem Inv.withInfo (h : Inv s) (info : Host → List ℕ) : Inv { s with info := info } :=
  ⟨h.pit, h.choices, h.measurements⟩

/-- Another strategy keeps the invariant. -/
theorem Inv.changeStrategy_setStrategy (h : Inv s) (c : ChoiceId) (old new : StrategyId) :
    Inv ((s.changeStrategy c old new).setStrategy c new) := by
  obtain ⟨info, hinfo⟩ := changeStrategy_eq s c old new
  rw [hinfo]
  exact ⟨h.pit, h.choices.setStrategy c new, h.measurements⟩

/-- The name tree with a new choice. -/
theorem nameTree_attachChoice (s : Tables) (e : EntryId) (q : KeptName) :
    (s.attachChoice e q).nameTree =
      s.nameTree.modifyAttached e fun a => { a with strategyChoiceEntry := some s.nextChoice } :=
  rfl

/-- The live entries with a new choice. -/
theorem live_attachChoice {x : NameTree.EntryId} {X' : NameTree.Entry} :
    (s.attachChoice e q).nameTree.Live x X' ↔ ∃ X, s.nameTree.Live x X ∧ X' = if x = e then
          { X with attached := { X.attached with strategyChoiceEntry := some s.nextChoice } }
        else X := by
  rw [nameTree_attachChoice]
  exact live_modifyAttached

/-- The choices with a new one. -/
theorem choices_attachChoice_setStrategy (s : Tables) (e : EntryId) (q : KeptName)
    (new : StrategyId) :
    ((s.attachChoice e q).setStrategy s.nextChoice new).choices =
      update s.choices s.nextChoice (some ⟨q, some new, some e⟩) := by
  simp [attachChoice, setStrategy]

/-- A new choice keeps the invariant. -/
theorem Inv.attachChoice_changeStrategy (h : Inv s) (hE : s.nameTree.Live e E)
    (hname : q.name = E.namePrefix) (old new : StrategyId) :
    Inv (((s.attachChoice e q).changeStrategy s.nextChoice old new).setStrategy
      s.nextChoice new) := by
  obtain ⟨info, hinfo⟩ := changeStrategy_eq (s.attachChoice e q) s.nextChoice old new
  rw [hinfo]
  have hset := choices_attachChoice_setStrategy s e q new
  have hinv :=
    (h.withChoices (h.choices.attach hE hname new) (fun _ => rfl) fun _ => rfl).withInfo info
  rw [← hset] at hinv
  exact hinv

/-- The name tree without a choice. -/
theorem nameTree_changeStrategy_detachChoice (s : Tables) (e : EntryId) (c : ChoiceId)
    (old new : StrategyId) :
    ((s.changeStrategy c old new).detachChoice e c).nameTree =
      s.nameTree.modifyAttached e fun a => { a with strategyChoiceEntry := none } := by
  obtain ⟨info, hinfo⟩ := changeStrategy_eq s c old new
  rw [hinfo]
  rfl

/-- A choice that is erased keeps the invariant. -/
theorem Inv.changeStrategy_detachChoice (h : Inv s) (hE : s.nameTree.Live e E)
    (hc : E.attached.strategyChoiceEntry = some c) (hne : E.namePrefix ≠ [])
    (old new : StrategyId) : Inv ((s.changeStrategy c old new).detachChoice e c) := by
  obtain ⟨info, hinfo⟩ := changeStrategy_eq s c old new
  rw [hinfo]
  exact (h.withChoices (h.choices.detach hE hc hne) (fun _ => rfl) fun _ => rfl).withInfo info

/-! ### The search on a name -/

/-- A Strategy Choice entry is attached at a name. -/
def ChoiceAt (t : NameTree) (m : Name) : Prop :=
  ∃ e E, t.Live e E ∧ E.namePrefix = m ∧ hasChoice E = true

/-- The strategy of the entry that the search for the prefixes of a name meets first. -/
def Found (s : Tables) (q : KeptName) (σ : StrategyId) : Prop :=
  ∃ e E, FirstCandidate s.nameTree q hasChoice e E ∧ s.strategyAt e = some σ

/-- The strategy at a live entry. -/
theorem strategyAt_of_live (hE : s.nameTree.Live e E) : s.strategyAt e =
      E.attached.strategyChoiceEntry.bind fun c => (s.choices c).bind Entry.strategy := by
  rw [strategyAt, hE.entry, bind_some]

/-- An entry with a choice has a strategy. -/
theorem Inv.exists_strategyAt (h : Inv s) (hE : s.nameTree.Live e E)
    (hchoice : hasChoice E = true) :
    ∃ c q σ, E.attached.strategyChoiceEntry = some c ∧ q.name = E.namePrefix ∧
      s.choices c = some ⟨q, some σ, some e⟩ ∧ s.strategyAt e = some σ := by
  obtain ⟨c, hc⟩ := isSome_iff_exists.mp hchoice
  grind [h.choices.attached, strategyAt_of_live]

/-- The search returns what is found. -/
theorem Inv.findEffectiveStrategy_iff (h : Inv s) {σ : StrategyId} :
    s.findEffectiveStrategy q = some σ ↔ Found s q σ := by
  obtain ⟨⟨ch, hT⟩, -⟩ := h.tree
  rw [findEffectiveStrategy, bind_eq_some_iff]
  constructor
  · rintro ⟨e, hfind, hσ⟩
    obtain ⟨E, hE⟩ := hT.findLongestPrefixMatch_eq_some.mp hfind
    exact ⟨e, E, hE, hσ⟩
  · rintro ⟨e, E, hE, hσ⟩
    exact ⟨e, hT.findLongestPrefixMatch_eq_some.mpr ⟨E, hE⟩, hσ⟩

/-- The search always finds a strategy, that of the root at the latest. -/
theorem Inv.exists_findEffectiveStrategy (h : Inv s) (q : KeptName) :
    ∃ σ, s.findEffectiveStrategy q = some σ := by
  obtain ⟨⟨ch, hT⟩, htree⟩ := h.tree
  obtain ⟨r, R, hR, hname, hchoice⟩ := h.choices.root
  have hsat : Satisfying s.nameTree q.name hasChoice r R := ⟨hR, hname ▸ List.nil_prefix, hchoice⟩
  have hcand := htree.candidate_of_satisfying hsat (by rw [hname]; rfl)
  obtain ⟨e, hfind⟩ : ∃ e, s.nameTree.findLongestPrefixMatch q hasChoice = some e := by
    rw [← ne_none_iff_exists']
    intro hnone
    exact hT.findLongestPrefixMatch_eq_none.mp hnone r R hcand
  obtain ⟨E, hE⟩ := hT.findLongestPrefixMatch_eq_some.mp hfind
  grind [h.exists_strategyAt, hE.live, hE.selected, findEffectiveStrategy]

/-! ### What the two operations do -/

/-- An insertion changes the strategy of the entry of the name, or makes an entry. -/
theorem Inv.insertChoice_cases (h : Inv s) {strategyName : Name} {σ : StrategyId}
    (hok : LookupOk s.nameTree q.name) (hσ : s.getStrategy strategyName = some σ) :
    let s₁ := s.withTree (s.nameTree.lookup q.name).1
    ∃ e E, s₁.nameTree.Live e E ∧ E.namePrefix = q.name ∧
      ((∃ c q' old, E.attached.strategyChoiceEntry = some c ∧ q'.name = E.namePrefix ∧
          s₁.choices c = some ⟨q', some old, some e⟩ ∧
          s.insertChoice q strategyName =
            some (if Name.equals (s₁.nameOf old) (s₁.nameOf σ) = true then s₁
              else (s₁.changeStrategy c old σ).setStrategy c σ)) ∨
        (hasChoice E = false ∧ ∃ old, s₁.findEffectiveStrategy q = some old ∧
          s.insertChoice q strategyName =
            some (((s₁.attachChoice e q).changeStrategy s₁.nextChoice old σ).setStrategy
              s₁.nextChoice σ))) := by
  intro s₁
  have h₁ : Inv s₁ := h.lookup hok
  obtain ⟨-, -, e, E, hres, hE, hname⟩ := lookup_spec h.tree hok
  refine ⟨e, E, hE, hname, ?_⟩
  have heq : s.insertChoice q strategyName = s₁.insertAt e E q σ := by
    simp only [insertChoice, hσ, hres, bind_some, hE.entry, map_some]
    rfl
  rw [heq]
  cases hchoice : hasChoice E with
  | true =>
    obtain ⟨c, q', old, hc, hname', hC, -⟩ := h₁.exists_strategyAt hE hchoice
    grind [insertAt]
  | false =>
    have hnone : E.attached.strategyChoiceEntry = none := by
      simpa [hasChoice] using hchoice
    obtain ⟨old, hold⟩ := h₁.exists_findEffectiveStrategy q
    refine .inr ⟨rfl, old, hold, ?_⟩
    simp only [insertAt, hnone, hold]

/-- An erasure finds no entry at its octets, or takes the entry of the name away. -/
theorem Inv.eraseChoice_cases (h : Inv s) (hno : NoTwin s.nameTree q) :
    ((∀ e ∈ s.nameTree.findExactMatch q, (s.nameTree.entries e).any hasChoice = false) ∧
        s.eraseChoice q = some s) ∨
      ∃ e E c q' old parent, s.nameTree.findExactMatch q = some e ∧ s.nameTree.Live e E ∧
        E.namePrefix = q.name ∧ E.attached.strategyChoiceEntry = some c ∧
        q'.name = E.namePrefix ∧ s.choices c = some ⟨q', some old, some e⟩ ∧
        s.findEffectiveStrategy q.name.dropLast = some parent ∧
        s.eraseChoice q = some (((s.changeStrategy c old parent).detachChoice e c).withTree
            (((s.changeStrategy c old parent).detachChoice e c).nameTree.eraseEntryIfEmpty
              e).1) := by
  unfold eraseChoice
  rcases hfind : s.nameTree.findExactMatch q with _ | e
  · exact .inl ⟨fun e he => (not_mem_none e he).elim, rfl⟩
  obtain ⟨E, hE, hname⟩ := h.tree.exists_live_of_findExactMatch hno hfind
  cases hchoice : hasChoice E with
  | true =>
    obtain ⟨c, q', old, hc, hname', hC, -⟩ := h.exists_strategyAt hE hchoice
    obtain ⟨parent, hparent⟩ := h.exists_findEffectiveStrategy q.name.dropLast
    refine .inr ⟨e, E, c, q', old, parent, rfl, hE, hname, hc, hname', hC, hparent, ?_⟩
    simp [hE.entry, hc, hC, hparent]
  | false =>
    have hnone : E.attached.strategyChoiceEntry = none := by
      simpa [hasChoice] using hchoice
    refine .inl ⟨?_, by simp [hE.entry, hnone]⟩
    rintro x ⟨⟩
    rw [hE.entry]
    exact hchoice

/-! ### Runs -/

/-- A change of the Strategy Choice table. -/
inductive Change where
  | insert (q : KeptName) (strategyName : Name)
  | erase (q : KeptName)

/-- The effect of a change. -/
def change (s : Tables) : Change → Option Tables
  | .insert q strategyName => s.insertChoice q strategyName
  | .erase q => s.eraseChoice q

/-- What a change does to the name tree is safe.  The root entry is never erased. -/
def ChangeOk (s : Tables) : Change → Prop
  | .insert q strategyName =>
      (s.getStrategy strategyName).isSome = true → LookupOk s.nameTree q.name
  | .erase q => q.name ≠ [] ∧ NoTwin s.nameTree q ∧
      ∀ e ∈ s.nameTree.findExactMatch q, (s.nameTree.entries e).any hasChoice = true →
        EraseOk (q.name.length + 1)
          (s.nameTree.modifyAttached e fun a => { a with strategyChoiceEntry := none }) e

instance (s : Tables) : ∀ c, Decidable (ChangeOk s c)
  | .insert _ _ => inferInstanceAs (Decidable (_ → _))
  | .erase q => inferInstanceAs (Decidable (q.name ≠ [] ∧ NoTwin s.nameTree q ∧
      ∀ e ∈ s.nameTree.findExactMatch q, _ → _))

/-- The operations of a run.  The forwarder and the strategies change the records of PIT entries
and the information of the hosts as they like. -/
inductive Op where
  | pit (op : Pit.Op)
  | setRecords (p : Pit.EntryId) (ins : List Pit.InRecord) (outs : List Pit.OutRecord)
  | lookup (n : Name)
  | eraseEntryIfEmpty (e : EntryId)
  | setFibEntry (e : EntryId) (fibEntry : Option ℕ)
  | getMeasurements (e : EntryId)
  | clearMeasurements (e : EntryId)
  | setInfo (host : Host) (info : List ℕ)
  | install (name : Name) (strategy : StrategyId)
  | change (c : Change)

/-- The effect of an operation. -/
def apply (s : Tables) : Op → Tables
  | .pit op => { s with pit := s.pit.apply op }
  | .setRecords p ins outs => s.setRecords p ins outs
  | .lookup n => s.withTree (s.nameTree.lookup n).1
  | .eraseEntryIfEmpty e => s.withTree (s.nameTree.eraseEntryIfEmpty e).1
  | .setFibEntry e fibEntry => s.setFibEntry e fibEntry
  | .getMeasurements e => s.getMeasurements e
  | .clearMeasurements e => s.clearMeasurements e
  | .setInfo host info => { s with info := update s.info host info }
  | .install name strategy => s.install name strategy
  | .change c => (s.change c).getD s

/-- The condition on one operation: what it does to the name tree is safe. -/
def OpOk (s : Tables) : Op → Prop
  | .pit op => Pit.OpOk s.pit op
  | .lookup n => LookupOk s.nameTree n
  | .eraseEntryIfEmpty e => NameTree.OpOk s.nameTree (.eraseEntryIfEmpty e)
  | .clearMeasurements e => ∃ E ∈ s.nameTree.entries e, s.nameTree.Live e E
  | .change c => ChangeOk s c
  | _ => True

instance (s : Tables) : ∀ op, Decidable (OpOk s op)
  | .pit op => inferInstanceAs (Decidable (Pit.OpOk s.pit op))
  | .lookup n => inferInstanceAs (Decidable (LookupOk s.nameTree n))
  | .eraseEntryIfEmpty e =>
      inferInstanceAs (Decidable (NameTree.OpOk s.nameTree (.eraseEntryIfEmpty e)))
  | .clearMeasurements e => inferInstanceAs (Decidable (∃ E ∈ s.nameTree.entries e,
      s.nameTree.nodeEntry E.node = some (e, E)))
  | .change c => inferInstanceAs (Decidable (ChangeOk s c))
  | .setRecords _ _ _ | .setFibEntry _ _ | .getMeasurements _ | .setInfo _ _ | .install _ _ =>
    isTrue trivial

/-- The state after a run. -/
def run (s : Tables) (ops : List Op) : Tables :=
  ops.foldl apply s

/-- The condition on a run. -/
def RunOk : Tables → List Op → Prop
  | _, [] => True
  | s, op :: ops => OpOk s op ∧ RunOk (s.apply op) ops

instance decidableRunOk : ∀ s ops, Decidable (RunOk s ops)
  | _, [] => isTrue trivial
  | s, op :: ops =>
      have := decidableRunOk (s.apply op) ops
      inferInstanceAs (Decidable (OpOk s op ∧ RunOk (s.apply op) ops))

/-- A safe change succeeds and keeps the invariant. -/
theorem Inv.change (h : Inv s) {c : Change} (hok : ChangeOk s c) :
    ∃ s', s.change c = some s' ∧ Inv s' := by
  cases c with
  | insert q strategyName =>
    rcases hσ : s.getStrategy strategyName with _ | σ
    · exact ⟨s, by simp [Tables.change, insertChoice, hσ], h⟩
    have hlookup : LookupOk s.nameTree q.name := hok (by rw [hσ]; rfl)
    have h₁ := h.lookup hlookup
    obtain ⟨e, E, hE, hname, ⟨c, q', old, -, -, -, heq⟩ | ⟨-, old, -, heq⟩⟩ :=
      h.insertChoice_cases hlookup hσ
    · refine ⟨_, heq, ?_⟩
      split_ifs
      · exact h₁
      · exact h₁.changeStrategy_setStrategy c old σ
    · exact ⟨_, heq, h₁.attachChoice_changeStrategy hE hname.symm old σ⟩
  | erase q =>
    obtain ⟨hne, hno, herase⟩ := hok
    rcases h.eraseChoice_cases hno with
      ⟨-, heq⟩ | ⟨e, E, c, q', old, parent, hfind, hE, hname, hc, -, -, -, heq⟩
    · exact ⟨s, heq, h⟩
    refine ⟨_, heq, ?_⟩
    rw [← hname] at hne herase
    have hdetach := h.changeStrategy_detachChoice hE hc hne old parent
    have hlive : ((s.changeStrategy c old parent).detachChoice e c).nameTree.Live e
        { E with attached := { E.attached with strategyChoiceEntry := none } } := by
      rw [nameTree_changeStrategy_detachChoice]
      exact live_modifyAttached.mpr ⟨E, hE, (if_pos rfl).symm⟩
    refine hdetach.eraseEntryIfEmpty hlive ?_
    rw [nameTree_changeStrategy_detachChoice]
    refine herase e hfind ?_
    rw [hE.entry]
    exact hasChoice_iff.mpr (hc ▸ some_ne_none c)

/-- A safe operation keeps the invariant. -/
theorem inv_apply (h : Inv s) {op : Op} (hok : OpOk s op) : Inv (s.apply op) := by
  cases op with
  | pit op => exact h.pitOp hok
  | setRecords p ins outs => exact h.setRecords p ins outs
  | lookup n => exact h.lookup hok
  | eraseEntryIfEmpty e =>
    obtain ⟨E, -, hE, hok⟩ := hok
    exact h.eraseEntryIfEmpty hE hok
  | setFibEntry e fibEntry => exact h.setFibEntry e fibEntry
  | getMeasurements e => exact h.getMeasurements e
  | clearMeasurements e =>
    obtain ⟨E, -, hE⟩ := hok
    exact h.clearMeasurements hE
  | setInfo host info => exact h.withInfo _
  | install name strategy =>
    unfold apply install
    dsimp only
    split_ifs
    · exact h
    · exact ⟨h.pit, h.choices, h.measurements⟩
  | change c =>
    obtain ⟨s', heq, hinv⟩ := h.change hok
    unfold apply
    simp only [heq, getD_some]
    exact hinv

/-- The invariant holds at the beginning. -/
theorem inv_create {nBuckets : ℕ} (hpos : 1 ≤ nBuckets) (name : Name) (strategy : StrategyId) :
    Inv (create nBuckets name strategy) := by
  have hok : LookupOk (NameTree.create nBuckets) [] := lookupOk_create_nil hpos
  obtain ⟨hinv, hext, e, E, hres, hE, hname⟩ := lookup_spec (NameTree.inv_create hpos) hok
  have hdead : ∀ x X, ¬ (NameTree.create nBuckets).Live x X := by
    intro x X hX
    cases hX
  have hempty : ∀ x X, (NameTree.create nBuckets |>.lookup []).1.Live x X →
      X.attached = Attachments.empty := by grind [hext.new]
  let s : Tables := ⟨{ Pit.create nBuckets with
      nameTree := ((NameTree.create nBuckets).lookup []).1 },
    fun _ => none, 0, fun _ => none, 0, [(name, strategy)], fun _ => []⟩
  have hcreate : create nBuckets name strategy =
      (s.attachChoice e (Name.encoded [])).setStrategy 0 strategy := by
    unfold create
    have hres' : ((Pit.create nBuckets).nameTree.lookup []).2 = some e := hres
    simp only [nameTree, hres']
    rfl
  have hpit : Pit.Inv s.pit :=
    (Pit.inv_create hpos).of_keeps hinv (.of_extends hext) (Pit.create nBuckets).nItems
  have hat : ∀ x X', (s.attachChoice e (Name.encoded [])).nameTree.Live x X' →
      ∃ X, s.nameTree.Live x X ∧ X.attached = Attachments.empty ∧
        X' = if x = e then { X with attached := { X.attached with strategyChoiceEntry := some 0 } }
          else X := by
    intro x X' hX'
    obtain ⟨X, hX, rfl⟩ := live_attachChoice.mp hX'
    exact ⟨X, hX, hempty x X hX, rfl⟩
  rw [hcreate]
  refine ⟨?_, ⟨?_, ?_, ?_⟩, ⟨?_, fun _ _ => rfl⟩⟩
  · exact hpit.of_keeps (inv_modifyAttached hinv e _)
      (.of_modifyAttached _ e (g := fun a => { a with strategyChoiceEntry := some 0 })
        fun _ => rfl) s.pit.nItems
  · intro x X' c hX' hc
    obtain ⟨X, hX, hX0, rfl⟩ := hat x X' hX'
    rw [choices_attachChoice_setStrategy s e (Name.encoded []) strategy]
    by_cases hxe : x = e
    · subst hxe
      rw [if_pos rfl] at hc ⊢
      cases hc
      rw [update_self, hX.contents_eq hE, hname]
      exact ⟨_, strategy, rfl, rfl⟩
    · rw [if_neg hxe, hX0] at hc
      cases hc
  · intro c hc
    rw [choices_attachChoice_setStrategy s e (Name.encoded []) strategy]
    exact update_of_ne (Nat.lt_of_succ_le hc).ne' ..
  · exact ⟨e, _, (live_attachChoice (q := Name.encoded [])).mpr ⟨E, hE, (if_pos rfl).symm⟩,
      hname, rfl⟩
  · intro x X' m hX' hm
    obtain ⟨X, -, hX0, rfl⟩ := hat x X' hX'
    have hnone : X.attached.measurementsEntry = some m := by
      split_ifs at hm <;> exact hm
    rw [hX0] at hnone
    cases hnone

/-- A safe run keeps the invariant. -/
theorem inv_run {ops : List Op} : ∀ {s : Tables}, Inv s → RunOk s ops → Inv (s.run ops) := by
  induction ops with
  | nil =>
    intro s h _
    exact h
  | cons op ops ih =>
    intro s h hok
    exact ih (inv_apply h hok.1) hok.2

end Tables

end IcnDemo
