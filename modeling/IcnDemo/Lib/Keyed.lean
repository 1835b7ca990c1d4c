import Mathlib.Tactic

/-!
# Lists with keys

A list of records with one record for each key: it is searched for a key, the record found is
changed in place or removed, and the others stay.
-/

namespace Keyed

variable {α κ : Type*} {n : ℕ} {test : α → Bool}

/-- The element that a search finds, after it was changed in a way that the search does not see. -/
theorem find?_modify_findIdx? {as : List α} {g : α → α}
    (hg : ∀ a, test a = true → test (g a) = true) (hn : as.findIdx? test = some n) :
    (as.modify n g).find? test = (as.find? test).map g := by
  induction as generalizing n with
  | nil => cases hn
  | cons a as ih => grind [Option.map_eq_some_iff]

/-- What has an index is found. -/
theorem exists_find?_of_findIdx? {as : List α}
    (hn : as.findIdx? test = some n) : ∃ a, as.find? test = some a := by
  obtain ⟨hlt, htest, -⟩ := List.findIdx?_eq_some_iff_getElem.mp hn
  rw [← Option.isSome_iff_exists, List.find?_isSome]
  exact ⟨_, List.getElem_mem hlt, htest⟩

/-- The index depends on the test in the list. -/
theorem findIdx?_congr {test' : α → Bool} {as : List α} (h : ∀ a ∈ as, test a = test' a) :
    as.findIdx? test = as.findIdx? test' := by
  induction as with
  | nil => rfl
  | cons a as ih => grind

/-- The erasure depends on the test in the list. -/
theorem eraseP_congr {test' : α → Bool} {as : List α} (h : ∀ a ∈ as, test a = test' a) :
    as.eraseP test = as.eraseP test' := by
  induction as with
  | nil => rfl
  | cons a as ih => grind

/-- A change that keeps the key keeps all keys. -/
theorem map_modify {key : α → κ} {g : α → α} (hg : ∀ a, key (g a) = key a) (as : List α) (n : ℕ) :
    (as.modify n g).map key = as.map key := by
  induction as generalizing n with
  | nil => rw [List.modify_nil]
  | cons a as ih => grind

variable [DecidableEq κ] (key : α → κ) {as : List α} {k : κ}

/-- An element is found by its key. -/
theorem find?_eq_some_iff {a : α} (hnodup : (as.map key).Nodup) :
    as.find? (fun a => key a == k) = some a ↔ a ∈ as ∧ key a = k := by
  constructor
  · grind
  rintro ⟨hmem, rfl⟩
  obtain ⟨b, hb⟩ : ∃ b, as.find? (fun b => key b == key a) = some b := by
    rw [← Option.isSome_iff_exists, List.find?_isSome]
    exact ⟨a, hmem, by simp⟩
  grind [List.inj_on_of_nodup_map]

/-- A value is found by its key. -/
theorem find?_fst_eq_some_iff {β : Type*} {l : List (κ × β)} {b : β}
    (hnodup : (l.map Prod.fst).Nodup) :
    (l.find? fun p => p.1 == k).map Prod.snd = some b ↔ (k, b) ∈ l := by
  rw [Option.map_eq_some_iff]
  constructor
  · grind
  · intro hmem
    exact ⟨(k, b), (find?_eq_some_iff Prod.fst hnodup).mpr ⟨hmem, rfl⟩, rfl⟩

/-- The element with the key is changed. -/
theorem mem_modify_findIdx? {a a' : α} (g : α → α) (hnodup : (as.map key).Nodup)
    (ha : as.find? (fun a => key a == k) = some a)
    (hn : as.findIdx? (fun a => key a == k) = some n) :
    a' ∈ as.modify n g ↔ a' = g a ∨ a' ∈ as ∧ key a' ≠ k := by
  induction as generalizing n with
  | nil => cases ha
  | cons b as ih =>
    rw [List.map_cons, List.nodup_cons] at hnodup
    rw [List.find?_cons] at ha
    rw [List.findIdx?_cons] at hn
    by_cases hkey : key b = k
    · grind
    · have hbeq : (key b == k) = false := by simpa using hkey
      simp only [hbeq, Bool.false_eq_true, if_false, Option.map_eq_some_iff] at ha hn
      obtain ⟨n, hn, rfl⟩ := hn
      grind

/-- The element with the key is erased. -/
theorem mem_eraseP {a' : α} (hnodup : (as.map key).Nodup) :
    a' ∈ as.eraseP (fun a => key a == k) ↔ a' ∈ as ∧ key a' ≠ k := by
  induction as with
  | nil => simp
  | cons b as ih => grind

end Keyed
