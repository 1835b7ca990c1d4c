import IcnDemo.StrategyChoice.Invariant
import IcnDemo.Lib.PrefixInherit

/-!
# What the Strategy Choice table decides

The table is a partial function from names to strategies, `decision`, and the strategy in force
under a name is inherited from its longest prefix where the function is defined.  Operations of the
name tree do not change the function; the two operations of the table change it at one name.
-/

namespace IcnDemo.Tables

open StrategyChoice NameTree PrefixInherit

variable {s s' : Tables} {n m : Name} {σ τ : StrategyId}

/-- The strategy of the entry at a name. -/
def HasStrategy (s : Tables) (m : Name) (σ : StrategyId) : Prop :=
  ∃ e E, s.nameTree.Live e E ∧ E.namePrefix = m ∧ s.strategyAt e = some σ

/-- What the table says at a name. -/
noncomputable def decision (s : Tables) (m : Name) : Local StrategyId :=
  open Classical in if h : ∃ σ, HasStrategy s m σ then .give h.choose else .pass

/-- The strategy in force under a name: that of its longest prefix with an entry. -/
def Effective (s : Tables) (n : Name) (σ : StrategyId) : Prop :=
  ∃ e E, Longest s.nameTree n hasChoice e E ∧ s.strategyAt e = some σ

/-- An entry with a strategy has a choice. -/
theorem hasChoice_of_strategyAt {e : NameTree.EntryId} {E : NameTree.Entry}
    (hE : s.nameTree.Live e E) (hσ : s.strategyAt e = some σ) : hasChoice E = true := by
  rw [strategyAt_of_live hE] at hσ
  obtain ⟨c, hc, -⟩ := Option.bind_eq_some_iff.mp hσ
  rw [hasChoice, hc]
  rfl

/-- A name has one strategy. -/
theorem Inv.hasStrategy_unique (h : Inv s) (hσ : HasStrategy s m σ) (hτ : HasStrategy s m τ) :
    σ = τ := by
  obtain ⟨e, E, hE, rfl, hσ⟩ := hσ
  obtain ⟨f, F, hF, hname, hτ⟩ := hτ
  rw [h.tree.2.unique e E f F hE hF hname.symm, hτ] at hσ
  exact (Option.some.inj hσ).symm

/-- A name with a strategy gives it. -/
theorem Inv.decision_eq_give (h : Inv s) : decision s m = .give σ ↔ HasStrategy s m σ := by
  unfold decision
  split_ifs with hex <;> grind [h.hasStrategy_unique]

/-- A name without a choice passes. -/
theorem Inv.decision_eq_pass (h : Inv s) : decision s m = .pass ↔ ¬ ChoiceAt s.nameTree m := by
  have hex : (∃ σ, HasStrategy s m σ) ↔ ChoiceAt s.nameTree m := by
    constructor
    · rintro ⟨σ, e, E, hE, hname, hσ⟩
      exact ⟨e, E, hE, hname, hasChoice_of_strategyAt hE hσ⟩
    · rintro ⟨e, E, hE, hname, hchoice⟩
      obtain ⟨-, -, σ, -, -, -, hσ⟩ := h.exists_strategyAt hE hchoice
      exact ⟨σ, e, E, hE, hname, hσ⟩
  grind [decision]

/-- The decision is about the strategies of the name. -/
theorem decision_congr (hsame : ∀ σ, HasStrategy s' m σ ↔ HasStrategy s m σ) :
    decision s' m = decision s m := by
  have heq : HasStrategy s' m = HasStrategy s m := funext fun σ => propext (hsame σ)
  unfold decision
  rw [heq]

/-! ### The strategy in force -/

/-- The effective strategy is the source. -/
theorem Inv.source_of_effective (h : Inv s) (hσ : Effective s n σ) :
    source (decision s) n = some σ := by
  obtain ⟨e, E, hE, hσ⟩ := hσ
  refine source_eq_of_longest hE.isPrefix (h.decision_eq_give.mpr ⟨e, E, hE.live, rfl, hσ⟩) ?_
  intro i hi hin
  rw [h.decision_eq_pass]
  rintro ⟨f, F, hF, hname, hchoice⟩
  have hle := hE.longest f F ⟨hF, hname ▸ List.take_prefix i n, hchoice⟩
  rw [hname, List.length_take] at hle
  omega

/-- There is an effective strategy for every name. -/
theorem Inv.exists_effective (h : Inv s) (n : Name) : ∃ σ, Effective s n σ := by
  obtain ⟨r, R, hR, hroot, hchoice⟩ := h.choices.root
  rcases exists_last (decision s) n (n.length + 1) with hall | ⟨i, hi, hgive, hpass⟩
  · have hnil := hall 0 (Nat.succ_pos _)
    rw [h.decision_eq_pass, List.take_zero] at hnil
    exact absurd ⟨r, R, hR, hroot, hchoice⟩ hnil
  rw [Ne, h.decision_eq_pass, not_not] at hgive
  obtain ⟨e, E, hE, hname, hchoice⟩ := hgive
  obtain ⟨-, -, σ, -, -, -, hσ⟩ := h.exists_strategyAt hE hchoice
  refine ⟨σ, e, E, ⟨⟨hE, hname ▸ List.take_prefix i n, hchoice⟩, ?_⟩, hσ⟩
  intro f F hF
  by_contra hlt
  have hlen : E.namePrefix.length = i := by
    rw [hname, List.length_take, min_eq_left (Nat.le_of_lt_succ hi)]
  have hle := hF.isPrefix.length_le
  have hF' := hpass F.namePrefix.length (by omega) (by omega)
  rw [h.decision_eq_pass, ← List.prefix_iff_eq_take.mp hF.isPrefix] at hF'
  exact hF' ⟨f, F, hF.live, rfl, hF.selected⟩

/-- The effective strategy is exactly the source. -/
theorem Inv.effective_iff (h : Inv s) : Effective s n σ ↔ source (decision s) n = some σ := by
  refine ⟨h.source_of_effective, fun hsource => ?_⟩
  obtain ⟨τ, hτ⟩ := h.exists_effective n
  have heq := h.source_of_effective hτ
  rw [hsource] at heq
  rwa [Option.some.inj heq]

/-! ### Operations -/

/-- Changes that keep the choices keep the decisions. -/
theorem decision_of_keeps (hk : Keeps Attachments.strategyChoiceEntry s.nameTree s'.nameTree)
    (hchoices : s'.choices = s.choices) : decision s' = decision s := by
  funext m
  refine decision_congr fun σ => ⟨?_, ?_⟩
  · rintro ⟨e, E', hE', rfl, hσ⟩
    have hne := hasChoice_iff.mp (hasChoice_of_strategyAt hE' hσ)
    obtain ⟨E, hE, hname, hatt⟩ := hk.old e E' hE' hne
    refine ⟨e, E, hE, hname.symm, ?_⟩
    grind [strategyAt_of_live]
  rintro ⟨e, E, hE, rfl, hσ⟩
  have hne := hasChoice_iff.mp (hasChoice_of_strategyAt hE hσ)
  obtain ⟨E', hE', hname, hatt⟩ := hk.keep e E hE hne
  refine ⟨e, E', hE', hname, ?_⟩
  rw [strategyAt_of_live hE', hatt, hchoices, ← strategyAt_of_live hE, hσ]

/-- A change at one name tree entry, and of a Strategy Choice entry that no other one has. -/
structure ChangesAt (s s' : Tables) (e : EntryId) (c : ChoiceId) : Prop where
  live : ∀ x X, x ≠ e → (s'.nameTree.Live x X ↔ s.nameTree.Live x X)
  choices : ∀ d, d ≠ c → s'.choices d = s.choices d
  owned : ∀ C, s.choices c = some C → C.nameTreeEntry = some e

/-- A change at one entry leaves the strategies of the others. -/
theorem ChangesAt.strategyAt_of_ne {e x : NameTree.EntryId} {c : ChoiceId} {X : NameTree.Entry}
    (hch : ChangesAt s s' e c) (h : Inv s) (hX : s.nameTree.Live x X) (hne : x ≠ e) :
    s'.strategyAt x = s.strategyAt x := by
  rw [strategyAt_of_live hX, strategyAt_of_live ((hch.live x X hne).mpr hX)]
  rcases hd : X.attached.strategyChoiceEntry with _ | d
  · rfl
  obtain ⟨q, σ, -, hσ⟩ := h.choices.attached x X d hX hd
  have hdc : d ≠ c := by
    rintro rfl
    exact hne (Option.some.inj (hch.owned _ hσ))
  rw [Option.bind_some, Option.bind_some, hch.choices d hdc]

/-- A change at one name leaves the decisions of the others. -/
theorem ChangesAt.decision_of_ne {e : NameTree.EntryId} {c : ChoiceId} {E E' : NameTree.Entry}
    (hch : ChangesAt s s' e c) (h : Inv s) (hE : s.nameTree.Live e E) (hE' : s'.nameTree.Live e E')
    (hname : E'.namePrefix = E.namePrefix) (hm : m ≠ E.namePrefix) :
    decision s' m = decision s m := by
  refine decision_congr fun σ => ⟨?_, ?_⟩
  · rintro ⟨x, X, hX, rfl, hσ⟩
    have hne : x ≠ e := by
      rintro rfl
      exact hm (by rw [hX.contents_eq hE', hname])
    have hX' := (hch.live x X hne).mp hX
    exact ⟨x, X, hX', rfl, by rw [← hch.strategyAt_of_ne h hX' hne, hσ]⟩
  · rintro ⟨x, X, hX, rfl, hσ⟩
    have hne : x ≠ e := by
      rintro rfl
      exact hm (by rw [hX.contents_eq hE])
    exact ⟨x, X, (hch.live x X hne).mpr hX, rfl, by rw [hch.strategyAt_of_ne h hX hne, hσ]⟩

end IcnDemo.Tables
