import IcnDemo.NameTree.Order
import IcnDemo.StrategyChoice.Decision

/-!
# What a change of strategy clears

`changeStrategy` clears the information of every host in the part of the name tree where the entry
decides.  That is the part where the strategy in force changes, so that a change clears exactly
what it should if `insert` and `erase` know rightly whether the strategy changes at all.  Where an
entry is created or erased they search for the strategy of a shorter prefix by name, and this search
may stop at the wrong entry.  The enumeration itself begins at an exact match on the octets that the
prefix of the entry was given in, and finds nothing if these have another hash.
-/

namespace IcnDemo

open List Option Function StrategyChoice NameTree PrefixInherit

namespace NameTree

/-- No entry between a name and a longer one, the longer one included, has a Strategy Choice
entry. -/
def Beneath (t : NameTree) (n y : Name) : Prop :=
  n <+: y ∧ ∀ i, n.length < i → i ≤ y.length → ¬ Tables.ChoiceAt t (y.take i)

variable {t : NameTree} {q : KeptName} {e x : EntryId} {E X : Entry}

/-- With octets of the right hash, the enumeration goes through what is beneath the entry. -/
theorem Inv.mem_partialEnumerate_covered (h : Inv t) (hsame : q.SameHash) (hno : NoTwin t q)
    (hE : t.Live e E) (hname : q.name = E.namePrefix) :
    x ∈ t.partialEnumerate q (Tables.covered (some e)) ↔
      ∃ X, t.Live x X ∧ Beneath t E.namePrefix X.namePrefix := by
  rw [h.mem_partialEnumerate_iff hsame hno, hname]
  refine exists_congr fun X => and_congr_right fun hX => and_congr_right fun hpre => ?_
  constructor
  · rintro ⟨hsel, hall⟩ i hi hi' ⟨y, Y, hY, hname, hchoice⟩
    have hlen : Y.namePrefix.length = i := by
      rw [hname, length_take, min_eq_left hi']
    have hYe : y ≠ e := by
      rintro rfl
      rw [hY.contents_eq hE] at hlen
      omega
    have hYX : Y.namePrefix <+: X.namePrefix := hname ▸ take_prefix i _
    by_cases heq : Y.namePrefix = X.namePrefix
    · obtain rfl := h.2.unique y Y x X hY hX heq
      grind [Tables.covered, hY.contents_eq]
    · have hdown := hall y Y hY (prefix_of_prefix_length_le hpre hYX (by omega)) hYX heq
      grind [Tables.covered]
  · intro hnone
    -- an entry between the two names has no Strategy Choice entry
    have hplain : ∀ a A, t.Live a A → E.namePrefix <+: A.namePrefix →
        A.namePrefix <+: X.namePrefix → Tables.covered (some e) a A = (true, true) := by
      intro a A hA htop hbottom
      by_cases hae : a = e
      · simp [Tables.covered, hae]
      have hlt : E.namePrefix.length < A.namePrefix.length :=
        Nat.lt_of_le_of_ne htop.length_le fun hlen =>
          hae (h.2.unique a A e E hA hE (htop.eq_of_length hlen).symm)
      have hchoice : ¬ hasChoice A = true := fun hchoice =>
        hnone A.namePrefix.length hlt hbottom.length_le
          ⟨a, A, hA, prefix_iff_eq_take.mp hbottom, hchoice⟩
      simp [Tables.covered, hae, hchoice]
    exact ⟨by rw [hplain x X hX hpre prefix_rfl], fun a A hA htop hbottom _ => by
      rw [hplain a A hA htop hbottom]⟩

/-- Octets with the right hash have the twins of the shortest form. -/
theorem noTwin_of_sameHash {q' : KeptName} (hsame : q.SameHash) (hsame' : q'.SameHash)
    (hname : q'.name = q.name) (hno : NoTwin t q) : NoTwin t q' := by
  have hhash : computeHash q' = computeHash q := by rw [hsame', hname, hsame]
  unfold NoTwin
  rwa [hhash, hname]

/-- Attachments do not change the names. -/
theorem Inv.noTwin_modifyAttached (h : Inv t) (hno : NoTwin t q) (e : EntryId)
    (g : Attachments → Attachments) : NoTwin (t.modifyAttached e g) q := by
  obtain ⟨⟨ch, hT⟩, -⟩ := id h
  obtain ⟨⟨ch', hT'⟩, -⟩ := inv_modifyAttached h e g
  refine hT'.forallLive_iff.mpr ?_
  intro x X' hX'
  obtain ⟨X, hX, rfl⟩ := live_modifyAttached.mp hX'
  have hx := hT.forallLive_iff.mp hno x X hX
  split_ifs <;> exact hx

end NameTree

namespace Tables

variable {s s' : Tables} {n : Name} {q : KeptName} {e x : NameTree.EntryId} {E X : NameTree.Entry}
  {host : Host}

/-! ### The hosts under a name -/

/-- The host belongs to an entry where an entry at the name decides. -/
def Covered (s : Tables) (n : Name) (host : Host) : Prop :=
  ∃ x X, s.nameTree.Live x X ∧ Beneath s.nameTree n X.namePrefix ∧ host ∈ s.hosts X

/-- The names beneath are those that the choice covers. -/
theorem Inv.beneath_iff (h : Inv s) {y : Name} :
    Beneath s.nameTree n y ↔ Covers (decision s) n y := by
  unfold Beneath Covers
  simp only [h.decision_eq_pass]

/-- The hosts of an entry. -/
theorem mem_hosts_iff : host ∈ s.hosts E ↔ (∃ p ∈ E.attached.pitEntries, host ∈ s.pitHosts p) ∨
      ∃ m, E.attached.measurementsEntry = some m ∧ host = .measurements m := by grind [hosts]

/-- The PIT entry of a host, if it belongs to one. -/
def pitEntryOf : Host → Option Pit.EntryId
  | .pit p | .inRecord p _ | .outRecord p _ => some p
  | .measurements _ => none

/-- A host of a PIT entry knows it. -/
theorem pitEntryOf_of_mem {p : Pit.EntryId} (h : host ∈ s.pitHosts p) :
    pitEntryOf host = some p := by
  unfold pitHosts at h
  rcases mem_cons.mp h with rfl | h
  · rfl
  cases hP : s.pit.entries p with
  | none =>
    rw [hP] at h
    cases h
  | some P =>
    rw [hP, List.mem_append, List.mem_map, List.mem_map] at h
    rcases h with ⟨r, -, rfl⟩ | ⟨r, -, rfl⟩ <;> rfl

/-- A host is of one entry. -/
theorem Inv.hosts_unique (h : Inv s) (hE : s.nameTree.Live e E) (hX : s.nameTree.Live x X)
    (hhost : host ∈ s.hosts E) (hhost' : host ∈ s.hosts X) : x = e := by
  rcases mem_hosts_iff.mp hhost with ⟨p, hp, hmem⟩ | ⟨m, hm, rfl⟩
  · have hof := pitEntryOf_of_mem hmem
    rcases mem_hosts_iff.mp hhost' with ⟨q, hq, hmem'⟩ | ⟨m, -, rfl⟩
    · rw [pitEntryOf_of_mem hmem'] at hof
      cases hof
      obtain ⟨P, hP, he, -⟩ := h.pit.attached e E hE p hp
      obtain ⟨P', hP', hx, -⟩ := h.pit.attached x X hX p hq
      simp_all
    · cases hof
  · rcases mem_hosts_iff.mp hhost' with ⟨q, -, hmem'⟩ | ⟨m', hm', heq⟩
    · cases pitEntryOf_of_mem hmem'
    · cases heq
      have he := h.measurements.attached e E m hE hm
      rw [h.measurements.attached x X m hX hm'] at he
      exact some.inj he

/-- The hosts under a name stay the same as long as the attachments stay, those at the name
itself apart. -/
theorem covered_congr (hpit : Keeps Attachments.pitEntries s.nameTree s'.nameTree)
    (hmeasurements : Keeps Attachments.measurementsEntry s.nameTree s'.nameTree)
    (hentries : s'.pit.entries = s.pit.entries)
    (hchoice : ∀ m, m ≠ n → (ChoiceAt s'.nameTree m ↔ ChoiceAt s.nameTree m)) :
    Covered s' n host ↔ Covered s n host := by
  have hhosts : s'.pitHosts = s.pitHosts := by
    unfold pitHosts
    rw [hentries]
  have hbeneath : ∀ y, Beneath s'.nameTree n y ↔ Beneath s.nameTree n y := by
    intro y
    refine and_congr_right fun _ => forall_congr' fun i => forall_congr' fun hi =>
      forall_congr' fun hi' => not_congr (hchoice _ ?_)
    intro heq
    rw [← heq, length_take] at hi
    omega
  constructor
  · rintro ⟨x, X', hX', hb, hmem⟩
    rcases mem_hosts_iff.mp hmem with ⟨p, hp, hmem⟩ | ⟨m, hm, rfl⟩
    · obtain ⟨X, hX, hname, hatt⟩ := hpit.old x X' hX' (ne_nil_of_mem hp)
      refine ⟨x, X, hX, (hbeneath _).mp (hname ▸ hb), mem_hosts_iff.mpr (.inl ⟨p, ?_, ?_⟩)⟩
      · exact hatt ▸ hp
      · exact hhosts ▸ hmem
    · obtain ⟨X, hX, hname, hatt⟩ :=
        hmeasurements.old x X' hX' (by rw [hm]; exact some_ne_none m)
      exact ⟨x, X, hX, (hbeneath _).mp (hname ▸ hb), mem_hosts_iff.mpr (.inr ⟨m, hatt ▸ hm, rfl⟩)⟩
  rintro ⟨x, X, hX, hb, hmem⟩
  rcases mem_hosts_iff.mp hmem with ⟨p, hp, hmem⟩ | ⟨m, hm, rfl⟩
  · obtain ⟨X', hX', hname, hatt⟩ := hpit.keep x X hX (ne_nil_of_mem hp)
    refine ⟨x, X', hX', (hbeneath _).mpr (hname.symm ▸ hb), mem_hosts_iff.mpr (.inl ⟨p, ?_, ?_⟩)⟩
    · exact hatt.symm ▸ hp
    · exact hhosts.symm ▸ hmem
  · obtain ⟨X', hX', hname, hatt⟩ :=
      hmeasurements.keep x X hX (by rw [hm]; exact some_ne_none m)
    exact ⟨x, X', hX', (hbeneath _).mpr (hname.symm ▸ hb),
      mem_hosts_iff.mpr (.inr ⟨m, hatt.symm ▸ hm, rfl⟩)⟩

/-! ### What `changeStrategy` clears -/

/-- The infos after those of an entry were cleared. -/
theorem info_clearStrategyInfo (s : Tables) (y : EntryId) :
    (s.clearStrategyInfo y).info host =
      if ∃ Y ∈ s.nameTree.entries y, host ∈ s.hosts Y then [] else s.info host := by
  unfold clearStrategyInfo
  cases s.nameTree.entries y with
  | none => simp
  | some Y => simp

/-- The infos after those of a list were cleared. -/
theorem info_foldl_clearStrategyInfo (l : List EntryId) : ∀ s : Tables,
    (l.foldl clearStrategyInfo s).info host =
      if ∃ y ∈ l, ∃ Y ∈ s.nameTree.entries y, host ∈ s.hosts Y then [] else s.info host := by
  induction l with
  | nil =>
    intro s
    simp
  | cons y l ih =>
    intro s
    obtain ⟨info, hinfo⟩ := clearStrategyInfo_eq s y
    rw [foldl_cons, ih, info_clearStrategyInfo, hinfo]
    change (if ∃ z ∈ l, ∃ Z ∈ s.nameTree.entries z, host ∈ s.hosts Z then []
      else if ∃ Y ∈ s.nameTree.entries y, host ∈ s.hosts Y then [] else s.info host) = _
    simp only [exists_mem_cons_iff]
    by_cases hrest : ∃ z ∈ l, ∃ Z ∈ s.nameTree.entries z, host ∈ s.hosts Z <;> grind

/-- `changeStrategy` clears the hosts under the name of the entry, if the strategies differ. -/
theorem info_changeStrategy (h : NameTree.Inv s.nameTree) (hsame : q.SameHash)
    (hno : NoTwin s.nameTree q) (hE : s.nameTree.Live e E) (hname : q.name = E.namePrefix)
    {c : ChoiceId} {o : Option StrategyId} (hc : s.choices c = some ⟨q, o, some e⟩)
    (old new : StrategyId) :
    (old ≠ new → Covered s E.namePrefix host → (s.changeStrategy c old new).info host = []) ∧
      (¬ (old ≠ new ∧ Covered s E.namePrefix host) →
        (s.changeStrategy c old new).info host = s.info host) := by
  have hcovered : Covered s E.namePrefix host ↔
      ∃ y ∈ s.nameTree.partialEnumerate q (covered (some e)),
        ∃ Y ∈ s.nameTree.entries y, host ∈ s.hosts Y := by
    simp only [h.mem_partialEnumerate_covered hsame hno hE hname]
    constructor
    · rintro ⟨x, X, hX, hb, hmem⟩
      exact ⟨x, ⟨X, hX, hb⟩, X, hX.entry, hmem⟩
    · rintro ⟨x, ⟨X, hX, hb⟩, Y, hY, hmem⟩
      rw [hX.entry] at hY
      cases hY
      exact ⟨x, X, hX, hb, hmem⟩
  grind [changeStrategy, info_foldl_clearStrategyInfo]

/-! ### Changes and what they clear -/

/-- The change is one of the decision at a name, and clears the hosts under the name or
nothing. -/
structure Changed (s s' : Tables) (n : Name) (l : Local StrategyId) (clears : Prop) : Prop where
  inv : Inv s'
  decision_eq : decision s' = update (decision s) n l
  cleared : clears → ∀ host, Covered s n host → s'.info host = []
  kept : ∀ host, ¬ (clears ∧ Covered s n host) → s'.info host = s.info host

/-- A host keeps its information if the strategy in force at its entry is the same after the
change, and loses it otherwise. -/
def ClearsExactly (s s' : Tables) : Prop :=
  ∀ x X σ σ', s.nameTree.Live x X → Effective s X.namePrefix σ → Effective s' X.namePrefix σ' →
    ∀ host ∈ s.hosts X, s'.info host = if σ = σ' then s.info host else []

/-- No host under the name has any information. -/
def Blank (s : Tables) (n : Name) : Prop :=
  ∀ host, Covered s n host → s.info host = []

/-- A change clears what it should if it clears exactly when the strategy in force at the name
changes, or if there is nothing to clear. -/
theorem Changed.clearsExactly_iff {l : Local StrategyId} {clears : Prop}
    (hch : Changed s s' n l clears) (h : Inv s) :
    ClearsExactly s s' ↔ (clears ↔ source (decision s) n ≠ source (decision s') n) ∨ Blank s n := by
  have hother : ∀ z, z ≠ n → decision s' z = decision s z := by
    intro z hz
    rw [hch.decision_eq, update_of_ne hz]
  have hcovers : ∀ y, Covers (decision s) n y → Covers (decision s') n y := by
    rintro y ⟨hpre, hpass⟩
    refine ⟨hpre, fun i hi hi' => ?_⟩
    grind
  constructor
  · intro hexact
    by_contra hnot
    rw [not_or] at hnot
    refine hnot.2 ?_
    rintro host ⟨x, X, hX, hb, hmem⟩
    have hcov : Covered s n host := ⟨x, X, hX, hb, hmem⟩
    have hb := h.beneath_iff.mp hb
    obtain ⟨σ, hσ⟩ := h.exists_effective X.namePrefix
    obtain ⟨σ', hσ'⟩ := hch.inv.exists_effective X.namePrefix
    have hinfo := hexact x X σ σ' hX hσ hσ' host hmem
    rw [h.effective_iff, source_of_covers hb] at hσ
    grind [hch.inv.effective_iff, source_of_covers, hch.cleared, hch.kept]
  intro hor x X σ σ' hX hσ hσ' host hmem
  rw [h.effective_iff] at hσ
  rw [hch.inv.effective_iff] at hσ'
  by_cases hb : Covers (decision s) n X.namePrefix
  · have hcov : Covered s n host := ⟨x, X, hX, h.beneath_iff.mpr hb, hmem⟩
    rw [source_of_covers hb] at hσ
    rw [source_of_covers (hcovers _ hb)] at hσ'
    rw [hσ, hσ', Ne, some.injEq] at hor
    rcases hor with hiff | hblank
    · grind [hch.kept, hch.cleared]
    have hnil : s'.info host = [] := by
      by_cases hclears : clears
      · exact hch.cleared hclears host hcov
      · rw [hch.kept host fun hc => hclears hc.1, hblank host hcov]
    rw [hnil, hblank host hcov, ite_self]
  · have hsame := source_congr_of_not_covers hother hb
    rw [hσ, hσ', some.injEq] at hsame
    rw [if_pos hsame.symm]
    refine hch.kept host ?_
    rintro ⟨-, y, Y, hY, hbY, hmemY⟩
    grind [h.hosts_unique, hY.contents_eq, h.beneath_iff]

/-! ### What insertion and erasure change -/

variable {l : Local StrategyId} {clears : Prop} {c : ChoiceId} {old new : StrategyId}

/-- A lookup before the change does not matter. -/
theorem Changed.after_lookup (h : Inv s) {m : Name} (hok : LookupOk s.nameTree m)
    (hch : Changed (s.withTree (s.nameTree.lookup m).1) s' n l clears) :
    Changed s s' n l clears := by
  obtain ⟨-, hext, -⟩ := lookup_spec h.tree hok
  have hdecision : decision (s.withTree (s.nameTree.lookup m).1) = decision s :=
    decision_of_keeps (.of_extends hext) rfl
  have hcovered : ∀ host, Covered (s.withTree (s.nameTree.lookup m).1) n host ↔
      Covered s n host := by
    intro host
    refine covered_congr (.of_extends hext) (.of_extends hext) rfl fun m' _ => ?_
    rw [← not_iff_not, ← h.decision_eq_pass, ← (h.lookup hok).decision_eq_pass, hdecision]
  refine ⟨hch.inv, ?_, ?_, ?_⟩
  · rw [hch.decision_eq, hdecision]
  · grind [hch.cleared]
  · intro host hnot
    refine hch.kept host fun hboth => hnot ⟨hboth.1, (hcovered host).mp hboth.2⟩

/-- Another strategy at an entry with a choice. -/
theorem Inv.changed_setStrategy (h : Inv s) (hsame : q.SameHash) (hno : NoTwin s.nameTree q)
    (hE : s.nameTree.Live e E) (hname : q.name = E.namePrefix)
    (hchoice : E.attached.strategyChoiceEntry = some c)
    (hc : s.choices c = some ⟨q, some old, some e⟩) (new : StrategyId) :
    Changed s ((s.changeStrategy c old new).setStrategy c new) E.namePrefix (.give new)
      (old ≠ new) := by
  set s₁ := (s.changeStrategy c old new).setStrategy c new with hs₁
  have hinv := h.changeStrategy_setStrategy c old new
  obtain ⟨info, hinfo⟩ := changeStrategy_eq s c old new
  have hE' : s₁.nameTree.Live e E := by
    rw [hs₁, hinfo]
    exact hE
  have hchoices : s₁.choices = update s.choices c (some ⟨q, some new, some e⟩) := by
    rw [hs₁, hinfo]
    simp [setStrategy, hc]
  have hat : ChangesAt s s₁ e c := by
    refine ⟨?_, ?_, ?_⟩
    · intro x X _
      rw [hs₁, hinfo]
      exact Iff.rfl
    · intro d hd
      rw [hchoices, update_of_ne hd]
    · intro C hC
      rw [hc] at hC
      cases hC
      rfl
  refine ⟨hinv, ?_, ?_, ?_⟩
  · refine eq_update_iff.mpr ⟨?_, fun m hm => hat.decision_of_ne h hE hE' rfl hm⟩
    rw [hinv.decision_eq_give]
    refine ⟨e, E, hE', rfl, ?_⟩
    rw [strategyAt_of_live hE', hchoice, bind_some, hchoices, update_self]
    rfl
  · intro hclears host hcov
    exact (info_changeStrategy h.tree hsame hno hE hname hc old new).1 hclears hcov
  · intro host hnot
    exact (info_changeStrategy h.tree hsame hno hE hname hc old new).2 hnot

/-- A new choice covers what its name covers. -/
theorem covered_attachChoice (hE : s.nameTree.Live e E) :
    Covered (s.attachChoice e q) E.namePrefix host ↔ Covered s E.namePrefix host := by
  have hpit : Keeps Attachments.pitEntries s.nameTree (s.attachChoice e q).nameTree := by
    rw [nameTree_attachChoice]
    exact .of_modifyAttached _ e fun _ => rfl
  have hmeasurements : Keeps Attachments.measurementsEntry s.nameTree
      (s.attachChoice e q).nameTree := by
    rw [nameTree_attachChoice]
    exact .of_modifyAttached _ e fun _ => rfl
  refine covered_congr hpit hmeasurements rfl fun m hm => ⟨?_, ?_⟩
  · rintro ⟨x, X', hX', rfl, hchoice⟩
    obtain ⟨X, hX, rfl⟩ := live_attachChoice.mp hX'
    have hx : x ≠ e := by
      rintro rfl
      rw [if_pos rfl, hX.contents_eq hE] at hm
      exact hm rfl
    rw [if_neg hx] at hchoice ⊢
    exact ⟨x, X, hX, rfl, hchoice⟩
  · rintro ⟨x, X, hX, rfl, hchoice⟩
    have hx : x ≠ e := by
      rintro rfl
      rw [hX.contents_eq hE] at hm
      exact hm rfl
    exact ⟨x, X, live_attachChoice.mpr ⟨X, hX, (if_neg hx).symm⟩, rfl, hchoice⟩

section

variable (h : Inv s) (hsame : q.SameHash) (hno : NoTwin s.nameTree q) (hE : s.nameTree.Live e E)
  (hname : q.name = E.namePrefix)

include h hsame hno hE hname

/-- A new choice. -/
theorem Inv.changed_attachChoice (old new : StrategyId) :
    Changed s (((s.attachChoice e q).changeStrategy s.nextChoice old new).setStrategy
      s.nextChoice new) E.namePrefix (.give new) (old ≠ new) := by
  have hinv := h.attachChoice_changeStrategy hE hname old new
  let E₂ : NameTree.Entry :=
    { E with attached := { E.attached with strategyChoiceEntry := some s.nextChoice } }
  set s₁ := s.attachChoice e q with hs₁
  have hE₂ : s₁.nameTree.Live e E₂ :=
    live_attachChoice.mpr ⟨E, hE, (if_pos rfl).symm⟩
  have htree : NameTree.Inv s₁.nameTree := by
    rw [hs₁, nameTree_attachChoice]
    exact inv_modifyAttached h.tree e _
  have hno₂ : NoTwin s₁.nameTree q := by
    rw [hs₁, nameTree_attachChoice]
    exact h.tree.noTwin_modifyAttached hno e _
  have hc₂ : s₁.choices s.nextChoice = some ⟨q, none, some e⟩ := by
    simp [s₁, attachChoice]
  refine ⟨hinv, ?_, ?_, ?_⟩
  · obtain ⟨info, hinfo⟩ := changeStrategy_eq s₁ s.nextChoice old new
    have hchoices := choices_attachChoice_setStrategy s e q new
    rw [hinfo] at hinv ⊢
    have hat : ChangesAt s (setStrategy { s₁ with info := info } s.nextChoice new) e
        s.nextChoice := by
      refine ⟨?_, ?_, ?_⟩
      · intro x X hx
        refine (live_attachChoice (q := q)).trans
          ⟨?_, fun hX => ⟨X, hX, (if_neg hx).symm⟩⟩
        rintro ⟨Y, hY, rfl⟩
        rwa [if_neg hx]
      · intro d hd
        exact (congrFun hchoices d).trans (update_of_ne hd ..)
      · intro C hC
        rw [h.choices.fresh _ le_rfl] at hC
        cases hC
    refine eq_update_iff.mpr ⟨?_, fun m hm => hat.decision_of_ne h hE hE₂ rfl hm⟩
    rw [hinv.decision_eq_give]
    refine ⟨e, _, hE₂, rfl, ?_⟩
    rw [strategyAt_of_live (s := setStrategy { s₁ with info := info } s.nextChoice new) hE₂,
      bind_some]
    exact congrArg (bind · Entry.strategy)
      ((congrFun hchoices s.nextChoice).trans (update_self ..))
  · intro hclears host hcov
    exact (info_changeStrategy (E := E₂) htree hsame hno₂ hE₂ hname hc₂ old new).1 hclears
      ((covered_attachChoice hE).mpr hcov)
  · intro host hnot
    refine (info_changeStrategy (E := E₂) htree hsame hno₂ hE₂ hname hc₂ old new).2 fun hboth => ?_
    exact hnot ⟨hboth.1, (covered_attachChoice hE).mp hboth.2⟩

/-- A choice that is erased. -/
theorem Inv.changed_detachChoice
    (hchoice : E.attached.strategyChoiceEntry = some c)
    (hc : s.choices c = some ⟨q, some old, some e⟩) (hne : E.namePrefix ≠ [])
    (hok : NameTree.EraseOk (E.namePrefix.length + 1)
      (s.nameTree.modifyAttached e fun a => { a with strategyChoiceEntry := none }) e)
    (new : StrategyId) :
    Changed s (((s.changeStrategy c old new).detachChoice e c).withTree
      (((s.changeStrategy c old new).detachChoice e c).nameTree.eraseEntryIfEmpty e).1)
      E.namePrefix .pass (old ≠ new) := by
  set s₁ := (s.changeStrategy c old new).detachChoice e c with hs₁
  have hdetach := h.changeStrategy_detachChoice hE hchoice hne old new
  have htree := nameTree_changeStrategy_detachChoice s e c old new
  let E₂ : NameTree.Entry :=
    { E with attached := { E.attached with strategyChoiceEntry := none } }
  have hE₂ : s₁.nameTree.Live e E₂ := by
    rw [htree]
    exact live_modifyAttached.mpr ⟨E, hE, (if_pos rfl).symm⟩
  rw [← htree] at hok
  obtain ⟨-, hprune⟩ := eraseEntryIfEmpty_spec hdetach.tree hE₂ hok
  have hat : ChangesAt s s₁ e c := by
    refine ⟨?_, ?_, ?_⟩
    · grind [live_modifyAttached]
    · intro d hd
      obtain ⟨info, hinfo⟩ := changeStrategy_eq s c old new
      rw [hs₁, hinfo]
      exact update_of_ne hd ..
    · intro C hC
      rw [hc] at hC
      cases hC
      rfl
  refine ⟨hdetach.eraseEntryIfEmpty hE₂ hok, ?_, ?_, ?_⟩
  · have hkeep : decision (s₁.withTree (s₁.nameTree.eraseEntryIfEmpty e).1) = decision s₁ :=
      decision_of_keeps (.of_prunes hprune) rfl
    rw [hkeep]
    refine eq_update_iff.mpr ⟨?_, fun m hm => hat.decision_of_ne h hE hE₂ rfl hm⟩
    rw [hdetach.decision_eq_pass]
    rintro ⟨x, X, hX, hname, hsome⟩
    have hx := hdetach.tree.2.unique x X e E₂ hX hE₂ hname
    subst hx
    rw [hX.contents_eq hE₂] at hsome
    cases hsome
  · intro hclears host hcov
    exact (info_changeStrategy h.tree hsame hno hE hname hc old new).1 hclears hcov
  · intro host hnot
    exact (info_changeStrategy h.tree hsame hno hE hname hc old new).2 hnot

end

/-! ### When a change clears what it should -/

/-- Where an entry is created or erased, the search by name makes no difference: it yields the
strategy that is compared exactly when this strategy is in force, or there is nothing to clear. -/
def SearchHarmless (s : Tables) : Change → Prop
  | .insert q strategyName => ∀ σ, s.getStrategy strategyName = some σ →
      ¬ ChoiceAt s.nameTree q.name → (Found s q σ ↔ Effective s q.name σ) ∨ Blank s q.name
  | .erase q => ∀ σ, HasStrategy s q.name σ →
      (Found s q.name.dropLast σ ↔ Effective s q.name.dropLast σ) ∨ Blank s q.name

/-- The prefix of a change. -/
def Change.namePrefix : Change → KeptName
  | .insert q _ | .erase q => q

/-- The octets of the prefix, and those that the entry at the prefix was made with, have the hash of
the shortest form. -/
def OctetsOk (s : Tables) (ch : Change) : Prop :=
  ch.namePrefix.SameHash ∧ s.nameTree.ForallLive fun E => E.namePrefix = ch.namePrefix.name →
    ∀ c ∈ E.attached.strategyChoiceEntry, ∀ C ∈ s.choices c, C.namePrefix.SameHash

instance (s : Tables) (ch : Change) : Decidable (OctetsOk s ch) :=
  inferInstanceAs (Decidable (_ ∧ s.nameTree.ForallLive fun _ => _ → _))

/-- The kept name of the choice has the hash of its entry. -/
theorem OctetsOk.sameHash {ch : Change} (hoct : OctetsOk s ch) (h : NameTree.Inv s.nameTree)
    (hE : s.nameTree.Live e E) (hname : E.namePrefix = ch.namePrefix.name)
    (hchoice : E.attached.strategyChoiceEntry = some c) {C : StrategyChoice.Entry}
    (hc : s.choices c = some C) : C.namePrefix.SameHash := by
  obtain ⟨⟨ch, hT⟩, -⟩ := h
  exact hT.forallLive_iff.mp hoct.2 e E hE hname c hchoice C hc

/-- Whether there is a choice is about attachments. -/
theorem byAttachment_hasChoice : ByAttachment hasChoice := by
  constructor
  · intro E E' hatt
    rw [hasChoice, hatt, hasChoice]
  · intro E hempty
    rw [hasChoice, hempty]
    rfl

/-- A lookup does not change the effective strategies. -/
theorem Inv.findEffectiveStrategy_lookup (h : Inv s) (hok : LookupOk s.nameTree n)
    (q : KeptName) :
    (s.withTree (s.nameTree.lookup n).1).findEffectiveStrategy q = s.findEffectiveStrategy q := by
  obtain ⟨φ, hφ⟩ := h.exists_findEffectiveStrategy q
  obtain ⟨e, E, hE, hσ⟩ := h.findEffectiveStrategy_iff.mp hφ
  obtain ⟨E', hE'⟩ := firstCandidate_lookup h.tree hok byAttachment_hasChoice hE
  rw [hφ, (h.lookup hok).findEffectiveStrategy_iff]
  refine ⟨e, E', hE', ?_⟩
  obtain ⟨-, hext, -⟩ := lookup_spec h.tree hok
  obtain ⟨E₁, hE₁, -, hatt⟩ := hext.keep e E hE.live
  have hlive : (s.withTree (s.nameTree.lookup n).1).nameTree.Live e E₁ := hE₁
  rw [strategyAt_of_live hlive, hatt, ← hσ, strategyAt_of_live hE.live]
  rfl

variable {σ : StrategyId}

/-- One strategy is found. -/
theorem Inv.found_iff (h : Inv s) {φ : StrategyId} (hφ : s.findEffectiveStrategy q = some φ) :
    Found s q σ ↔ φ = σ := by
  rw [← h.findEffectiveStrategy_iff, hφ, some.injEq]

/-- One strategy is effective. -/
theorem Inv.effective_iff_eq (h : Inv s) {τ : StrategyId}
    (hτ : source (decision s) n = some τ) : Effective s n σ ↔ τ = σ := by
  rw [h.effective_iff, hτ, some.injEq]

theorem Inv.clearsExactly_of_same (h : Inv s) (h' : Inv s') (hdecision : decision s' = decision s)
    (hinfo : s'.info = s.info) : ClearsExactly s s' := by
  intro x X σ σ' _ hσ hσ' host _
  grind [h.effective_iff, h'.effective_iff]

/-- Whether an insertion clears what it should. -/
theorem Inv.clearsExactly_insert (h : Inv s) {strategyName : Name}
    (hok : LookupOk s.nameTree q.name) (hoct : OctetsOk s (.insert q strategyName))
    (hσ : s.getStrategy strategyName = some σ) :
    ∃ s', s.insertChoice q strategyName = some s' ∧ (ClearsExactly s s' ↔
      (¬ ChoiceAt s.nameTree q.name → (Found s q σ ↔ Effective s q.name σ) ∨ Blank s q.name)) := by
  have h₁ := h.lookup hok
  have hno := noTwin_lookup h.tree hok
  obtain ⟨-, hext, -⟩ := lookup_spec h.tree hok
  have hdecision : decision (s.withTree (s.nameTree.lookup q.name).1) = decision s :=
    decision_of_keeps (.of_extends hext) rfl
  have hat : ChoiceAt (s.withTree (s.nameTree.lookup q.name).1).nameTree q.name ↔
      ChoiceAt s.nameTree q.name := by
    rw [← not_iff_not, ← h.decision_eq_pass, ← h₁.decision_eq_pass, hdecision]
  obtain ⟨e, E, hE, hname, ⟨c, q', old, hchoice, hname', hc, heq⟩ | ⟨hnone, φ, hφ, heq⟩⟩ :=
    h.insertChoice_cases hok hσ
  · -- an entry was there, and its own strategy is compared
    have hsome : hasChoice E = true := hasChoice_iff.mpr (hchoice ▸ some_ne_none c)
    have hcov : ChoiceAt s.nameTree q.name := hat.mp ⟨e, E, hE, hname, hsome⟩
    refine ⟨_, heq, iff_of_true ?_ fun hnot => absurd hcov hnot⟩
    split_ifs
    · exact h.clearsExactly_of_same h₁ hdecision rfl
    have hsame : q'.SameHash := by
      rcases hext.new e E hE with ⟨E₀, hE₀, hname₀, hatt⟩ | hempty
      · rw [hatt] at hchoice
        exact hoct.sameHash h.tree hE₀ (hname₀ ▸ hname) hchoice hc
      · rw [hempty] at hchoice
        cases hchoice
    have hno' := noTwin_of_sameHash (Name.sameHash_encoded q.name) hsame (hname'.trans hname) hno
    have hch := (h₁.changed_setStrategy hsame hno' hE hname' hchoice hc σ).after_lookup h hok
    rw [hch.clearsExactly_iff h]
    left
    have hold : decision s E.namePrefix = .give old := by
      rw [← hdecision, h₁.decision_eq_give]
      refine ⟨e, E, hE, rfl, ?_⟩
      rw [strategyAt_of_live hE, hchoice, bind_some, hc]
      rfl
    simp_all [hch.decision_eq, source, Local.resolve]
  have hsame : q.SameHash := hoct.1
  have hno' := noTwin_of_sameHash (Name.sameHash_encoded q.name) hsame rfl hno
  have hch := (h₁.changed_attachChoice hsame hno' hE hname.symm φ σ).after_lookup h hok
  refine ⟨_, heq, ?_⟩
  have hnot : ¬ ChoiceAt s.nameTree q.name := by
    rw [← hat]
    rintro ⟨x, X, hX, hnameX, hsome⟩
    have hxe := h₁.tree.2.unique x X e E hX hE (hnameX.trans hname.symm)
    subst hxe
    rw [hX.contents_eq hE, hnone] at hsome
    cases hsome
  rw [h.findEffectiveStrategy_lookup hok] at hφ
  obtain ⟨τ, hτ⟩ := h.exists_effective q.name
  have hτ := h.source_of_effective hτ
  rw [hch.clearsExactly_iff h, hch.decision_eq, hname, hτ, source, update_self, Local.resolve,
    imp_iff_right hnot, h.found_iff hφ, h.effective_iff_eq hτ, Ne, Ne, some.injEq,
    not_iff_not]

/-- Whether an erasure clears what it should. -/
theorem Inv.clearsExactly_erase (h : Inv s) (hok : ChangeOk s (.erase q))
    (hoct : OctetsOk s (.erase q)) :
    ∃ s', s.eraseChoice q = some s' ∧ (ClearsExactly s s' ↔ ∀ σ, HasStrategy s q.name σ →
        (Found s q.name.dropLast σ ↔ Effective s q.name.dropLast σ) ∨ Blank s q.name) := by
  obtain ⟨hne, hno, herase⟩ := hok
  rcases h.eraseChoice_cases hno with
    ⟨hnone, heq⟩ | ⟨e, E, c, q', old, φ, hfind, hE, hname, hchoice, hname', hc, hφ, heq⟩
  · refine ⟨s, heq, iff_of_true (h.clearsExactly_of_same h rfl rfl) ?_⟩
    rintro σ ⟨e, E, hE, hname, hσ⟩
    have hfind := (h.tree.findExactMatch_iff hoct.1 hno).mpr ⟨E, hE, hname⟩
    have hno := hnone e hfind
    rw [hE.entry] at hno
    exact absurd (hasChoice_of_strategyAt hE hσ) (by simpa using hno)
  have hsome : hasChoice E = true := hasChoice_iff.mpr (hchoice ▸ some_ne_none c)
  have hsame : q'.SameHash := hoct.sameHash h.tree hE hname hchoice hc
  have hno' := noTwin_of_sameHash hoct.1 hsame (hname'.trans hname) hno
  have hsafe := herase e hfind (by rw [hE.entry]; exact hsome)
  rw [← hname] at hne hφ hsafe ⊢
  have hch := h.changed_detachChoice hsame hno' hE hname' hchoice hc hne hsafe φ
  refine ⟨_, heq, ?_⟩
  have hold : HasStrategy s E.namePrefix old := by
    refine ⟨e, E, hE, rfl, ?_⟩
    rw [strategyAt_of_live hE, hchoice, bind_some, hc]
    rfl
  have honly : ∀ σ, HasStrategy s E.namePrefix σ ↔ σ = old := by grind [h.hasStrategy_unique]
  obtain ⟨τ, hτ⟩ := h.exists_effective E.namePrefix.dropLast
  have hτ := h.source_of_effective hτ
  have hsource : source (update (decision s) E.namePrefix .pass) E.namePrefix = some τ := by
    rw [source, update_self, Local.resolve, ← hτ, ← inherit_eq_source_dropLast _ hne]
    exact inherit_congr_self fun z hz => update_of_ne hz ..
  rw [hch.clearsExactly_iff h, hch.decision_eq, hsource, source, h.decision_eq_give.mpr hold,
    Local.resolve]
  grind [h.found_iff, h.effective_iff_eq]

/-- A change clears exactly what it should if the searches are harmless. -/
theorem Inv.exists_clearsExactly_iff (h : Inv s) {ch : Change} (hok : ChangeOk s ch)
    (hoct : OctetsOk s ch) :
    (∃ s', s.change ch = some s' ∧ ClearsExactly s s') ↔ SearchHarmless s ch := by
  have hsame : ∀ s', s.change ch = some s' →
      ((∃ s', s.change ch = some s' ∧ ClearsExactly s s') ↔ ClearsExactly s s') := by simp_all
  cases ch with
  | insert q strategyName =>
    cases hσ : s.getStrategy strategyName with
    | none =>
      have heq : s.change (.insert q strategyName) = some s := by
        simp [Tables.change, insertChoice, hσ]
      rw [hsame s heq]
      refine iff_of_true (h.clearsExactly_of_same h rfl rfl) ?_
      intro σ hσ'
      rw [hσ] at hσ'
      cases hσ'
    | some σ =>
      obtain ⟨s', heq, hiff⟩ := h.clearsExactly_insert (hok (by rw [hσ]; rfl)) hoct hσ
      rw [hsame s' heq, hiff]
      simp [SearchHarmless, hσ]
  | erase q =>
    obtain ⟨s', heq, hiff⟩ := h.clearsExactly_erase hok hoct
    rw [hsame s' heq, hiff]
    rfl

/-- In every state of a safe run, a change of the Strategy Choice table that is safe for the name
tree, with octets of the right hash, returns and clears exactly the information of the hosts whose
strategy it changes if and only if the search by name makes no difference. -/
theorem change_clears_exactly_iff {nBuckets : ℕ} (hpos : 1 ≤ nBuckets) {name : Name}
    {strategy : StrategyId} {ops : List Op} (hrun : RunOk (create nBuckets name strategy) ops)
    {ch : Change} (hok : ChangeOk ((create nBuckets name strategy).run ops) ch)
    (hoct : OctetsOk ((create nBuckets name strategy).run ops) ch) :
    (∃ s', ((create nBuckets name strategy).run ops).change ch = some s' ∧
      ClearsExactly ((create nBuckets name strategy).run ops) s') ↔
        SearchHarmless ((create nBuckets name strategy).run ops) ch :=
  (inv_run (inv_create hpos name strategy) hrun).exists_clearsExactly_iff hok hoct

/-! ### Changes that clear nothing -/

/-- The strategies `/1`, the default, and `/2`. -/
def nameOne : Name :=
  [.generic [0x31]]

/-- The strategy that is installed beside the default. -/
def nameTwo : Name :=
  [.generic [0x32]]

/-- The name `/A/A`, whose hash is that of the empty name. -/
def nameAA : Name :=
  [.generic [0x41], .generic [0x41]]

/-- The strategy `/2` is chosen for `/A`, and leaves information at a PIT entry of `/A/A`. -/
def infoUnderA : List Op :=
  [.install nameTwo 2, .change (.insert nameA nameTwo),
    .pit (.insert (Pit.plainInterest nameAA)), .setInfo (.pit 0) [7]]

/-- The strategy `/1` leaves information at a PIT entry of `/A`. -/
def infoAtA : List Op :=
  [.install nameTwo 2, .pit (.insert (Pit.plainInterest nameA)), .setInfo (.pit 0) [7]]

/-- The result at the choice of `/1` for `/A/A`. -/
theorem change_clears_exactly_iff_AA :
    (∃ s', ((create 16 nameOne 1).run infoUnderA).change (.insert nameAA nameOne) = some s' ∧
      ClearsExactly ((create 16 nameOne 1).run infoUnderA) s') ↔
        SearchHarmless ((create 16 nameOne 1).run infoUnderA) (.insert nameAA nameOne) :=
  change_clears_exactly_iff (by decide) (by decide +kernel) (by decide +kernel) (by decide +kernel)

/-- The strategy in force at the entry of a host, as it is found by climbing. -/
def InForce (s : Tables) (x : EntryId) (n : Name) (host : Host) (σ : StrategyId) : Prop :=
  ∃ X ∈ s.nameTree.entries x, s.nameTree.nodeEntry X.node = some (x, X) ∧ X.namePrefix = n ∧
    host ∈ s.hosts X ∧ ∃ r ∈ s.nameTree.findLongestPrefixMatchFrom (some x) hasChoice,
      s.strategyAt r = some σ

instance (s : Tables) (x : EntryId) (n : Name) (host : Host) (σ : StrategyId) :
    Decidable (InForce s x n host σ) :=
  inferInstanceAs (Decidable (∃ X ∈ s.nameTree.entries x, _ ∧ _ ∧ _ ∧ _))

/-- The strategy that climbing finds is the effective one. -/
theorem InForce.effective (hf : InForce s x n host σ) (h : Inv s) :
    ∃ X, s.nameTree.Live x X ∧ X.namePrefix = n ∧ host ∈ s.hosts X ∧ Effective s n σ := by
  obtain ⟨X, -, hX, rfl, hmem, r, hfind, hσ⟩ := hf
  have hlongest := isLongestPrefixMatch_from h.tree.2 hX hasChoice
  rw [mem_def.mp hfind] at hlongest
  obtain ⟨R, hR⟩ := hlongest
  exact ⟨X, hX, rfl, hmem, r, R, hR, hσ⟩

/-- A change that puts another strategy in force at a host and leaves its information. -/
theorem exists_not_clearsExactly {ops : List Op} {ch : Change} {σ' : StrategyId}
    (hrun : RunOk (create 16 nameOne 1) ops)
    (hok : ChangeOk ((create 16 nameOne 1).run ops) ch) (hne : σ ≠ σ')
    (hbefore : InForce ((create 16 nameOne 1).run ops) x n host σ)
    (hafter : ∀ s' ∈ ((create 16 nameOne 1).run ops).change ch,
      InForce s' x n host σ' ∧ s'.info host ≠ []) :
    ∃ s', ((create 16 nameOne 1).run ops).change ch = some s' ∧
      ¬ ClearsExactly ((create 16 nameOne 1).run ops) s' := by
  have hinv := inv_run (inv_create (by decide : 1 ≤ 16) nameOne 1) hrun
  obtain ⟨s', heq, hinv'⟩ := hinv.change hok
  obtain ⟨hforce, hinfo⟩ := hafter s' heq
  obtain ⟨X, hX, rfl, hmem, heff⟩ := hbefore.effective hinv
  obtain ⟨-, -, -, -, heff'⟩ := hforce.effective hinv'
  refine ⟨s', heq, fun hexact => hinfo ?_⟩
  rw [hexact x X σ σ' hX heff heff' host hmem, if_neg hne]

/-- Two changes that leave the information of a strategy that is no longer in force.  The search for
`/A/A` stops at the root, whose strategy is `/1`, so that nothing is cleared when `/1` is chosen for
`/A/A`; and nothing is found to be cleared when `/2` is chosen for `/A`, in octets with the length
in three of them. -/
theorem change_keeps_foreign_info :
    (RunOk (create 16 nameOne 1) infoUnderA ∧
      ChangeOk ((create 16 nameOne 1).run infoUnderA) (.insert nameAA nameOne) ∧
        ∃ s', ((create 16 nameOne 1).run infoUnderA).change (.insert nameAA nameOne) = some s' ∧
          ¬ ClearsExactly ((create 16 nameOne 1).run infoUnderA) s') ∧
    RunOk (create 16 nameOne 1) infoAtA ∧
      ChangeOk ((create 16 nameOne 1).run infoAtA) (.insert keptA nameTwo) ∧
        ∃ s', ((create 16 nameOne 1).run infoAtA).change (.insert keptA nameTwo) = some s' ∧
          ¬ ClearsExactly ((create 16 nameOne 1).run infoAtA) s' := by
  have hunder : RunOk (create 16 nameOne 1) infoUnderA := by decide +kernel
  have hunder' : ChangeOk ((create 16 nameOne 1).run infoUnderA) (.insert nameAA nameOne) := by
    decide +kernel
  have hat : RunOk (create 16 nameOne 1) infoAtA := by decide +kernel
  have hat' : ChangeOk ((create 16 nameOne 1).run infoAtA) (.insert keptA nameTwo) := by
    decide +kernel
  have hbefore : InForce ((create 16 nameOne 1).run infoUnderA) 2 nameAA (.pit 0) 2 := by
    decide +kernel
  have hbefore' : InForce ((create 16 nameOne 1).run infoAtA) 1 nameA (.pit 0) 1 := by
    decide +kernel
  have hone : (2 : StrategyId) ≠ 1 := by decide
  refine ⟨⟨hunder, hunder', ?_⟩, hat, hat', ?_⟩
  · exact exists_not_clearsExactly hunder hunder' hone hbefore (by decide +kernel)
  · exact exists_not_clearsExactly hat hat' hone.symm hbefore' (by decide +kernel)

end Tables

end IcnDemo
