import IcnDemo.Validator.CommandInterest

/-!
# Whose key opens a scope

A rule pairs a pattern of Interest names with a key.  The validator does not keep the pairs: an
Interest is let in by any scope for its key name, and is then verified with the last key that was
added under that name.  So a rule can be used with the key of a later rule for the same name.
-/

namespace IcnDemo.CommandInterest

open List Security

variable {κ ρ : Type}

/-- The arguments of a call of `addInterestRule`. -/
structure Added (κ : Type) where
  regex : Conf.Text
  keyName : Name
  key : κ

variable (R : Regexes ρ) (verify : Verify κ) (graceInterval : ℤ) (adds : List (Added κ))
  (interestName : Name)

/-- The calls of `addInterestRule` after one more event. -/
def addedStep : Event κ → List (Added κ)
  | .addInterestRule regex keyName key => adds ++ [⟨regex, keyName, key⟩]
  | .reset => []
  | _ => adds

/-- The calls of `addInterestRule` since the last `reset`. -/
def addedSince (events : List (Event κ)) : List (Added κ) :=
  events.foldl addedStep []

/-- A rule was added, that is, its pattern compiles, and the pattern matches. -/
def Added.Matches (a : Added κ) (interestName : Name) : Prop :=
  ∃ r, R.compile a.regex = some r ∧ R.matchName r interestName = true

/-- The key added last under a name. -/
def lastKey (keyName : Name) : Option κ :=
  (adds.reverse.find? fun a => a.keyName == keyName).map Added.key

/-- One rule matches the Interest, names its key, and has the key that it is signed with. -/
def Authorized : Prop :=
  ∃ a ∈ adds, a.Matches R interestName ∧ ∃ sig, locateKey interestName = .ok (sig, a.keyName) ∧
    verify (signedPortion interestName) sig a.key = true

/-- If a rule lets the signer of a command in, some rule does so for the last key of that name. -/
def OwnKey : Prop :=
  ∀ sig keyName key, minLength ≤ interestName.length →
    locateKey interestName = .ok (sig, keyName) → (interestTime interestName).isSome →
    lastKey adds keyName = some key →
    (∃ a ∈ adds, a.Matches R interestName ∧ signerMatches a.keyName keyName = true) →
    ∃ a ∈ adds, a.Matches R interestName ∧ a.keyName = keyName ∧ a.key = key

/-! ### The state after the calls -/

/-- The map after an assignment. -/
theorem find_assign (m : Anchors κ) (keyName : Name) (key : κ) (keyName' : Name) :
    (m.assign keyName key).find keyName' =
      if keyName' = keyName then some (some key) else m.find keyName' := by
  unfold Anchors.assign Anchors.find
  rw [lookup_cons]
  by_cases heq : keyName' = keyName
  · simp [heq]
  have hbeq : (keyName' == keyName) = false := beq_eq_false_iff_ne.mpr heq
  simp only [hbeq, if_neg heq]
  -- the filter drops no entry of another name
  induction m with
  | nil => rfl
  | cons e m ih => grind

/-- The last key with one rule more. -/
theorem lastKey_append (a : Added κ) (keyName : Name) :
    lastKey (adds ++ [a]) keyName =
      if keyName = a.keyName then some a.key else lastKey adds keyName := by grind [lastKey]

/-- The state agrees with the calls of `addInterestRule`. -/
structure Tracks (R : Regexes ρ) (adds : List (Added κ)) (st : State κ ρ) : Prop where
  anchors : ∀ keyName key,
    st.trustAnchors.find keyName = some (some key) ↔ lastKey adds keyName = some key
  scopes : ∀ scope, scope ∈ st.trustScopes ↔
    ∃ a ∈ adds, R.compile a.regex = some scope.interestRegex ∧ scope.signer = some a.keyName

namespace Tracks

variable {R : Regexes ρ} {adds : List (Added κ)} {st : State κ ρ}

/-- Rules exempt no one. -/
theorem noneExempted (h : Tracks R adds st) : NoneExempted st := by
  intro scope hscope
  grind [h.scopes]

/-- One rule more. -/
theorem addInterestRule (h : Tracks R adds st) (regex : Conf.Text) (keyName : Name) (key : κ) :
    Tracks R (adds ++ [⟨regex, keyName, key⟩])
      (CommandInterest.addInterestRule R regex keyName key st) := by
  have hanchors : ∀ k v, (st.trustAnchors.assign keyName key).find k = some (some v) ↔
      lastKey (adds ++ [⟨regex, keyName, key⟩]) k = some v := by
    grind [find_assign, lastKey_append, h.anchors]
  unfold CommandInterest.addInterestRule
  rcases hcompile : R.compile regex with _ | r
  · refine ⟨hanchors, fun scope => (h.scopes scope).trans ?_⟩
    simp [hcompile]
  refine ⟨hanchors, fun scope => ?_⟩
  simp only [mem_append, mem_singleton, h.scopes scope]
  constructor
  · rintro (⟨a, ha, hr, hsigner⟩ | rfl)
    · exact ⟨a, .inl ha, hr, hsigner⟩
    · exact ⟨_, .inr rfl, hcompile, rfl⟩
  rintro ⟨a, ha | rfl, hr, hsigner⟩
  · exact .inl ⟨a, ha, hr, hsigner⟩
  · rw [hcompile] at hr
    obtain ⟨regex', signer⟩ := scope
    simp_all

/-- A check leaves the rules. -/
theorem of_checked (h : Tracks R adds st) {verify : Verify κ} {graceInterval now : ℤ} {n : Name}
    {st' : State κ ρ} {calls : List Call}
    (hc : Checked R verify graceInterval now n st st' calls) : Tracks R adds st' :=
  ⟨fun keyName key => (hc.keys keyName key).trans (h.anchors keyName key),
    fun scope => by rw [hc.scopes, h.scopes]⟩

end Tracks

/-- No rules at the beginning. -/
theorem tracks_nil (m : Validator.LastTimestampMap) : Tracks R ([] : List (Added κ)) ⟨[], [], m⟩ :=
  ⟨fun _ _ => by simp [Anchors.find, lastKey], fun _ => by simp⟩

/-- In every run the rules are those that were added. -/
theorem tracks_run {events : List (Event κ)} (hevents : ∀ e ∈ events, e.NoBypass) :
    Tracks R (addedSince events) (run R verify graceInterval .init events).state := by
  induction events using reverseRecOn with
  | nil => exact tracks_nil R []
  | append_singleton es e ih =>
    have hes := ih fun x hx => hevents x (mem_append_left _ hx)
    have hadds : addedSince (es ++ [e]) = addedStep (addedSince es) e := by
      simp [addedSince]
    rw [run_append, hadds]
    cases e with
    | addInterestRule regex keyName key => exact hes.addInterestRule regex keyName key
    | addInterestBypassRule regex =>
      exact (hevents _ (mem_append_right _ mem_cons_self)).elim
    | reset => exact tracks_nil R _
    | checkPolicy now n =>
      exact hes.of_checked (checkPolicy_checked R verify graceInterval now n hes.noneExempted)

/-! ### Who is accepted -/

/-- When an Interest is accepted, in terms of the rules that were added. -/
theorem accepts_iff {R : Regexes ρ} {adds : List (Added κ)} {st : State κ ρ} (h : Tracks R adds st)
    (verify : Verify κ) (graceInterval now : ℤ) (n keyName : Name) (time : ℤ) :
    Accepts R verify graceInterval now n st keyName time ↔
      minLength ≤ n.length ∧ ∃ sig, locateKey n = .ok (sig, keyName) ∧
        (∃ a ∈ adds, a.Matches R n ∧ signerMatches a.keyName keyName = true) ∧
        (∃ key, lastKey adds keyName = some key ∧ verify (signedPortion n) sig key = true) ∧
        interestTime n = some time ∧ Fresh graceInterval now st.lastTimestamp keyName time := by
  have hscope : (∃ scope ∈ st.trustScopes, scope.satisfy R n keyName = true) ↔
      ∃ a ∈ adds, a.Matches R n ∧ signerMatches a.keyName keyName = true := by
    constructor
    · rintro ⟨scope, hmem, hsat⟩
      obtain ⟨a, ha, hcompile, hsigner⟩ := (h.scopes scope).mp hmem
      simp only [Scope.satisfy, hsigner, Bool.and_eq_true] at hsat
      exact ⟨a, ha, ⟨scope.interestRegex, hcompile, hsat.1⟩, hsat.2⟩
    · rintro ⟨a, ha, ⟨r, hcompile, hmatch⟩, hsigner⟩
      refine ⟨⟨r, some a.keyName⟩, (h.scopes _).mpr ⟨a, ha, hcompile, rfl⟩, ?_⟩
      simp [Scope.satisfy, hmatch, hsigner]
  simp only [Accepts, hscope, h.anchors]

/-- The check calls `onValidated`. -/
def Validates (now : ℤ) (interestName : Name) (st : State κ ρ) : Prop :=
  (checkPolicy R verify graceInterval now interestName st).2 = [.validated interestName]

/-- An Interest is validated exactly if it is accepted. -/
theorem validates_iff {R : Regexes ρ} {st : State κ ρ} (h : NoneExempted st) (verify : Verify κ)
    (graceInterval now : ℤ) (n : Name) :
    Validates R verify graceInterval now n st ↔
      ∃ keyName time, Accepts R verify graceInterval now n st keyName time := by
  unfold Validates
  rcases (checkPolicy_checked R verify graceInterval now n h).decision with
    ⟨keyName, time, haccepts, hcalls, -⟩ | ⟨hnot, ⟨info, hcalls⟩, -⟩
  all_goals grind

/-- The grace interval in force is not negative. -/
theorem grace_nonneg : 0 ≤ grace graceInterval := by
  unfold grace
  split <;> omega

/-- The rules of a run that adds rules. -/
theorem addedSince_map :
    addedSince (adds.map fun a => Event.addInterestRule a.regex a.keyName a.key) = adds := by
  induction adds using reverseRecOn with
  | nil => rfl
  | append_singleton adds a ih =>
    unfold addedSince at ih ⊢
    rw [map_append, foldl_append, ih]
    rfl

/-- A run that adds rules keeps no timestamps. -/
theorem lastTimestamp_map :
    (run R verify graceInterval .init
      (adds.map fun a => Event.addInterestRule a.regex a.keyName a.key)).state.lastTimestamp =
        [] := by
  induction adds using reverseRecOn with
  | nil => rfl
  | append_singleton adds a ih =>
    rw [map_append, map_singleton, run_append]
    exact (lastTimestamp_addInterestRule R a.regex a.keyName a.key _).trans ih

/-- The rules that were added authorize an Interest whenever it is accepted, however signatures are
verified, if and only if the last key of its key name belongs to a rule that matches it. -/
theorem authorized_iff_ownKey (R : Regexes ρ) (graceInterval : ℤ) (adds : List (Added κ))
    (n : Name) :
    (∀ (verify : Verify κ) (events : List (Event κ)) (now : ℤ), (∀ e ∈ events, e.NoBypass) →
      addedSince events = adds →
      Validates R verify graceInterval now n (run R verify graceInterval .init events).state →
      Authorized R verify adds n) ↔ OwnKey R adds n := by
  constructor
  · intro h sig keyName key hlength hkey htime hlast hscope
    obtain ⟨time, htime⟩ := Option.isSome_iff_exists.mp htime
    classical
    -- signatures verify with the last key only, and the clock agrees with the Interest
    let verify : Verify κ := fun _ _ k => decide (k = key)
    let events := adds.map fun a => Event.addInterestRule a.regex a.keyName a.key
    have hevents : ∀ e ∈ events, e.NoBypass := by
      intro e he
      obtain ⟨a, -, rfl⟩ := mem_map.mp he
      trivial
    have htracks := tracks_run R verify graceInterval hevents
    rw [addedSince_map] at htracks
    have hgrace := grace_nonneg graceInterval
    have hfresh : Fresh graceInterval time
        (run R verify graceInterval .init events).state.lastTimestamp keyName time := by
      simp only [events, lastTimestamp_map, Fresh, Validator.LastTimestampMap.find_nil]
      omega
    have haccepts := (accepts_iff htracks verify graceInterval time n keyName time).mpr
      ⟨hlength, sig, hkey, hscope, ⟨key, hlast, by simp [verify]⟩, htime, hfresh⟩
    obtain ⟨a, ha, hmatches, sig', hkey', hverify⟩ := h verify events time hevents
      (addedSince_map adds) ((validates_iff htracks.noneExempted _ _ _ _).mpr ⟨_, _, haccepts⟩)
    grind
  · intro h verify events now hevents hadds hvalidates
    subst hadds
    have htracks := tracks_run R verify graceInterval hevents
    obtain ⟨keyName, time, haccepts⟩ := (validates_iff htracks.noneExempted _ _ _ _).mp hvalidates
    obtain ⟨hlength, sig, hkey, hscope, ⟨key, hlast, hverify⟩, htime, -⟩ :=
      (accepts_iff htracks verify graceInterval now n keyName time).mp haccepts
    obtain ⟨a, ha, hmatches, rfl, rfl⟩ :=
      h sig keyName key hlength hkey (by simp [htime]) hlast hscope
    exact ⟨a, ha, hmatches, sig, hkey, hverify⟩

/-- A pattern is the number of components that a name has. -/
def byLength : Regexes ℕ :=
  ⟨fun t => some t.length, fun k n => n.length == k⟩

/-- Two rules for one key name: the first one for names of four components with the key 1, the
second one for names of five components with the key 2. -/
def twoKeys : List (Event ℕ) :=
  [.addInterestRule ['-', '-', '-', '-'] [.generic [97]] 1,
    .addInterestRule ['-', '-', '-', '-', '-'] [.generic [97]] 2]

/-- A command of four components that is signed with the key 2 is accepted. -/
theorem accepted_with_other_key : (∀ e ∈ twoKeys, e.NoBypass) ∧
      Validates byLength (fun _ _ key => key == 2) 0 10000000 (Validator.command 97 10)
        (run byLength (fun _ _ key => key == 2) 0 .init twoKeys).state ∧
      ¬ Authorized byLength (fun _ _ key => key == 2) (addedSince twoKeys)
        (Validator.command 97 10) := by
  refine ⟨by simp [twoKeys, Event.NoBypass], by unfold Validates; decide +kernel, ?_⟩
  rintro ⟨a, ha, ⟨r, hcompile, hmatch⟩, sig, -, hverify⟩
  have hadds : addedSince twoKeys = [⟨['-', '-', '-', '-'], [.generic [97]], 1⟩,
      ⟨['-', '-', '-', '-', '-'], [.generic [97]], 2⟩] := rfl
  rw [hadds] at ha
  rcases mem_cons.mp ha with rfl | ha
  · simp at hverify
  · obtain rfl := mem_singleton.mp ha
    obtain rfl := Option.some.inj hcompile
    exact absurd hmatch (by decide)

end IcnDemo.CommandInterest
