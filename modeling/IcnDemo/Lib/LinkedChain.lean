import Mathlib.Tactic

/-!
# Doubly linked chains in a heap

A heap maps addresses to cells with a payload and two links.  `IsSegment h p cur l q`
says that following `next` from `cur` visits the cells `l` in order and arrives at `q`,
and that the `prev` links lead back along the same cells to `p`.  A whole chain is a
segment from no predecessor to no successor.

The operations are those of hand-written tables: `pushBack` links a cell behind the last
one and `unlink` takes a cell out and frees it.  Their two specifications,
`isChain_pushBack` and `isChain_unlink`, together with the frame rule
`IsSegment.congr`, are what a client needs.
-/

namespace IcnDemo.LinkedChain

open List Function

variable {ι α : Type*}

/-- A cell: what it holds and the two links. -/
structure Cell (ι α : Type*) where
  payload : α
  prev : Option ι
  next : Option ι
deriving DecidableEq

/-- A heap of cells. -/
abbrev Heap (ι α : Type*) := ι → Option (Cell ι α)

/-- The segment from `cur` through the cells `l` to `q`, entered from `p`. -/
def IsSegment (h : Heap ι α) : Option ι → Option ι → List ι → Option ι → Prop
  | _, cur, [], q => cur = q
  | p, cur, i :: l, q =>
      cur = some i ∧ ∃ c, h i = some c ∧ c.prev = p ∧ IsSegment h (some i) c.next l q

/-- A complete chain with the given head. -/
def IsChain (h : Heap ι α) (head : Option ι) (l : List ι) : Prop :=
  IsSegment h none head l none

/-- The last cell of `l`, or the cell before it when `l` is empty. -/
def lastOf : Option ι → List ι → Option ι
  | p, [] => p
  | _, i :: l => lastOf (some i) l

@[simp] theorem lastOf_nil (p : Option ι) : lastOf p [] = p := rfl

@[simp] theorem lastOf_cons (p : Option ι) (i : ι) (l : List ι) :
    lastOf p (i :: l) = lastOf (some i) l := rfl

/-- The last element of a list with one behind. -/
@[simp] theorem lastOf_append_singleton (p : Option ι) (l : List ι) (i : ι) :
    lastOf p (l ++ [i]) = some i := by
  induction l generalizing p with
  | nil => rfl
  | cons j l ih => exact ih (some j)

variable {h : Heap ι α} {p cur q : Option ι} {l : List ι} {i : ι} {l₁ l₂ : List ι} {head : Option ι}

/-- A list without a last element is empty. -/
theorem lastOf_none_eq_none (h : lastOf none l = none) : l = [] := by
  rcases eq_nil_or_concat l with rfl | ⟨l', i, rfl⟩
  · rfl
  · simp at h

/-- A last element is at the end. -/
theorem exists_of_lastOf_none (h : lastOf none l = some i) : ∃ l', l = l' ++ [i] := by
  rcases eq_nil_or_concat l with rfl | ⟨l', j, rfl⟩
  · simp at h
  · simp at h
    exact ⟨l', by simp [h]⟩

/-! ### Segments -/

/-- A segment depends on its own cells. -/
theorem IsSegment.congr {h h' : Heap ι α}
    (hs : IsSegment h p cur l q) (heq : ∀ i ∈ l, h' i = h i) : IsSegment h' p cur l q := by
  induction l generalizing p cur with
  | nil => exact hs
  | cons i l ih =>
    obtain ⟨hcur, c, hc, hprev, hrest⟩ := hs
    refine ⟨hcur, c, ?_, hprev, ih hrest fun j hj => heq j (mem_cons_of_mem i hj)⟩
    rw [heq i mem_cons_self, hc]

/-- Segments behind segments. -/
theorem isSegment_append : IsSegment h p cur (l₁ ++ l₂) q ↔
      ∃ m, IsSegment h p cur l₁ m ∧ IsSegment h (lastOf p l₁) m l₂ q := by
  induction l₁ generalizing p cur with
  | nil =>
    constructor
    · intro hs
      exact ⟨cur, rfl, hs⟩
    · rintro ⟨m, hm, hs⟩
      cases hm
      exact hs
  | cons i l₁ ih =>
    constructor
    · rintro ⟨hcur, c, hc, hprev, hrest⟩
      obtain ⟨m, h₁, h₂⟩ := ih.mp hrest
      exact ⟨m, ⟨hcur, c, hc, hprev, h₁⟩, h₂⟩
    · rintro ⟨m, ⟨hcur, c, hc, hprev, h₁⟩, h₂⟩
      exact ⟨hcur, c, hc, hprev, ih.mpr ⟨m, h₁, h₂⟩⟩

/-- The elements of a segment have cells. -/
theorem IsSegment.exists_cell (hs : IsSegment h p cur l q) (hi : i ∈ l) : ∃ c, h i = some c := by
  induction l generalizing p cur with
  | nil => cases hi
  | cons j l ih =>
    obtain ⟨-, c, hc, -, hrest⟩ := hs
    grind

/-- A cell in a segment points to its neighbours. -/
theorem IsSegment.cell_of_append (hs : IsSegment h p cur (l₁ ++ i :: l₂) q) :
    ∃ c, h i = some c ∧ c.prev = lastOf p l₁ ∧ IsSegment h p cur l₁ (some i) ∧
      IsSegment h (some i) c.next l₂ q := by
  obtain ⟨m, h₁, hm, c, hc, hprev, h₂⟩ := isSegment_append.mp hs
  subst hm
  exact ⟨c, hc, hprev, h₁, h₂⟩

/-- The first pointer of a segment. -/
theorem IsSegment.head_eq (hs : IsSegment h p cur l q) : cur = l.head?.or q := by
  cases l with
  | nil => exact hs
  | cons i l => simpa using hs.1

/-- The links of a chain agree: neighbours point at each other, and only the head has no
predecessor. -/
theorem IsChain.links (hc : IsChain h head l) (hi : i ∈ l) :
    ∃ c, h i = some c ∧ (∀ j, c.next = some j → ∃ d, h j = some d ∧ d.prev = some i) ∧
      (∀ j, c.prev = some j → ∃ d, h j = some d ∧ d.next = some i) ∧
      (c.prev = none ↔ head = some i) := by
  obtain ⟨l₁, l₂, rfl⟩ := append_of_mem hi
  obtain ⟨c, hci, hprev, hs₁, hs₂⟩ := IsSegment.cell_of_append hc
  refine ⟨c, hci, ?_, ?_, ?_⟩
  · intro j hj
    cases l₂ with
    | nil =>
      have hnone : c.next = none := hs₂
      rw [hnone] at hj
      cases hj
    | cons k l₂ =>
      obtain ⟨hk, d, hd, hback, -⟩ := hs₂
      rw [hk] at hj
      cases hj
      exact ⟨d, hd, hback⟩
  · intro j hj
    rw [hprev] at hj
    obtain ⟨l₁', rfl⟩ := exists_of_lastOf_none hj
    obtain ⟨m, -, hm⟩ := isSegment_append.mp hs₁
    obtain ⟨-, d, hd, -, hnext⟩ := hm
    exact ⟨d, hd, hnext⟩
  · rw [hprev]
    constructor
    · intro hnone
      have hnil := lastOf_none_eq_none hnone
      subst hnil
      exact hs₁
    intro hhead
    cases l₁ with
    | nil => rfl
    | cons k l₁ =>
      -- the head is entered from nothing, and it is the cell `i` itself
      obtain ⟨hk, c', hc', hback, -⟩ := hs₁
      simp_all

/-! ### Walking -/

/-- The cells met by following `next`, at most `fuel` of them. -/
def walk (h : Heap ι α) : ℕ → Option ι → List ι
  | 0, _ => []
  | _ + 1, none => []
  | fuel + 1, some i =>
      match h i with
      | none => []
      | some c => i :: walk h fuel c.next

/-- Walking along a segment visits its elements. -/
theorem walk_eq_of_isSegment {p cur : Option ι} (hs : IsSegment h p cur l none) {fuel : ℕ}
    (hf : l.length ≤ fuel) : walk h fuel cur = l := by
  induction l generalizing p cur fuel with
  | nil =>
    have hcur : cur = none := hs
    cases fuel <;> simp [walk, hcur]
  | cons i l ih =>
    obtain ⟨hcur, c, hc, -, hrest⟩ := hs
    cases fuel with
    | zero => simp at hf
    | succ fuel => grind [walk]

/-! ### Changing links -/

variable [DecidableEq ι]

/-- Set the `next` link of a cell, if there is one. -/
def setNext (h : Heap ι α) (at? : Option ι) (q : Option ι) : Heap ι α :=
  match at? with
  | none => h
  | some i => update h i ((h i).map fun c => { c with next := q })

/-- Set the `prev` link of a cell, if there is one. -/
def setPrev (h : Heap ι α) (at? : Option ι) (p : Option ι) : Heap ι α :=
  match at? with
  | none => h
  | some i => update h i ((h i).map fun c => { c with prev := p })

/-- Another cell keeps its next pointer. -/
theorem setNext_of_ne (h : Heap ι α) {at? : Option ι} (q : Option ι)
    (hi : at? ≠ some i) : setNext h at? q i = h i := by
  cases at? with
  | none => rfl
  | some j =>
    have hij : i ≠ j := fun e => hi (by rw [e])
    simp [setNext, hij]

/-- Another cell keeps its previous pointer. -/
theorem setPrev_of_ne (h : Heap ι α) {at? : Option ι} (p : Option ι)
    (hi : at? ≠ some i) : setPrev h at? p i = h i := by
  cases at? with
  | none => rfl
  | some j =>
    have hij : i ≠ j := fun e => hi (by rw [e])
    simp [setPrev, hij]

/-- A next pointer is not payload. -/
theorem payload_setNext (h : Heap ι α) (at? q : Option ι) (i : ι) :
    (setNext h at? q i).map Cell.payload = (h i).map Cell.payload := by
  cases at? with
  | none => rfl
  | some j =>
    by_cases hij : i = j
    · subst hij
      cases hi : h i <;> simp [setNext, hi]
    · simp [setNext, hij]

/-- A previous pointer is not payload. -/
theorem payload_setPrev (h : Heap ι α) (at? p : Option ι) (i : ι) :
    (setPrev h at? p i).map Cell.payload = (h i).map Cell.payload := by
  cases at? with
  | none => rfl
  | some j =>
    by_cases hij : i = j
    · subst hij
      cases hi : h i <;> simp [setPrev, hi]
    · simp [setPrev, hij]

/-- The last cell may point to another one. -/
theorem IsSegment.setNext_last (hs : IsSegment h p cur (l ++ [i]) q) (hi : i ∉ l) (q' : Option ι) :
    IsSegment (setNext h (some i) q') p cur (l ++ [i]) q' := by
  obtain ⟨c, hc, hprev, hl, -⟩ := hs.cell_of_append
  refine isSegment_append.mpr ⟨some i, ?_, rfl, { c with next := q' }, ?_, hprev, rfl⟩
  · refine hl.congr fun j hj => setNext_of_ne h q' ?_
    rintro ⟨⟩
    exact hi hj
  · simp [setNext, hc]

/-- The first cell may point back to another one. -/
theorem IsSegment.setPrev_head (hs : IsSegment h p cur (i :: l) q) (hi : i ∉ l) (p' : Option ι) :
    IsSegment (setPrev h (some i) p') p' cur (i :: l) q := by
  obtain ⟨hcur, c, hc, -, hrest⟩ := hs
  refine ⟨hcur, { c with prev := p' }, ?_, rfl, ?_⟩
  · simp [setPrev, hc]
  · refine hrest.congr fun j hj => setPrev_of_ne h p' ?_
    rintro ⟨⟩
    exact hi hj

/-! ### Linking a cell behind the last one -/

/-- Write cell `i` with the given payload behind `last` and redirect `last` to it. -/
def pushBack (h : Heap ι α) (last : Option ι) (i : ι) (a : α) : Heap ι α :=
  setNext (update h i (some ⟨a, last, none⟩)) last (some i)

/-- The head of the chain after `pushBack`. -/
def pushBackHead (head last : Option ι) (i : ι) : Option ι :=
  match last with
  | none => some i
  | some _ => head

/-- Appending leaves all cells but the last. -/
theorem pushBack_of_ne (h : Heap ι α) {last : Option ι} {i j : ι} (a : α) (hji : j ≠ i)
    (hlast : last ≠ some j) : pushBack h last i a j = h j := by
  unfold pushBack
  rw [setNext_of_ne _ _ hlast, update_of_ne hji]

/-- Appending leaves the other payloads. -/
theorem payload_pushBack_of_ne (h : Heap ι α) (last : Option ι) {i j : ι} (a : α) (hji : j ≠ i) :
    (pushBack h last i a j).map Cell.payload = (h j).map Cell.payload := by
  unfold pushBack
  rw [payload_setNext, update_of_ne hji]

/-- The new cell has its payload. -/
theorem payload_pushBack_self (h : Heap ι α) (last : Option ι) (i : ι) (a : α) :
    (pushBack h last i a i).map Cell.payload = some a := by
  unfold pushBack
  rw [payload_setNext, update_self]
  rfl

/-- A chain with one cell more. -/
theorem isChain_pushBack (a : α) (hc : IsChain h head l) (hl : l.Nodup) (hi : i ∉ l) :
    IsChain (pushBack h (lastOf none l) i a) (pushBackHead head (lastOf none l) i) (l ++ [i]) := by
  unfold IsChain at hc ⊢
  have hframe : IsSegment (update h i (some ⟨a, lastOf none l, none⟩)) none head l none :=
    hc.congr fun j hj => update_of_ne (fun e : j = i => hi (e ▸ hj)) _ _
  rcases eq_nil_or_concat l with rfl | ⟨l', b, rfl⟩
  · exact ⟨rfl, ⟨a, none, none⟩, by simp [pushBack, setNext], rfl, rfl⟩
  -- the former last cell `b` now points to `i`, whose own `next` is empty
  simp only [concat_eq_append, lastOf_append_singleton] at hframe hl hi ⊢
  have hb : b ∉ l' := by grind
  have hib : i ≠ b := by
    intro e
    exact hi (by simp [e])
  refine isSegment_append.mpr ⟨some i, hframe.setNext_last hb (some i), ?_⟩
  refine ⟨rfl, ⟨a, some b, none⟩, ?_, by simp, rfl⟩
  unfold pushBack
  rw [setNext_of_ne _ _ (by simpa using hib.symm), update_self]

/-! ### Unlinking a cell -/

/-- Take cell `i` out of its chain: its neighbours are linked to each other and it is freed. -/
def unlink (h : Heap ι α) (i : ι) : Heap ι α :=
  match h i with
  | none => h
  | some c => update (setPrev (setNext h c.prev c.next) c.next c.prev) i none

/-- The head of the chain after `unlink`. -/
def unlinkHead (h : Heap ι α) (head : Option ι) (i : ι) : Option ι :=
  match h i with
  | none => head
  | some c =>
      match c.prev with
      | none => c.next
      | some _ => head

/-- Unlinking leaves all cells but the neighbours. -/
theorem unlink_of_ne {i j : ι} {c : Cell ι α} (hc : h i = some c) (hji : j ≠ i)
    (hp : c.prev ≠ some j) (hn : c.next ≠ some j) : unlink h i j = h j := by
  simp only [unlink, hc]
  rw [update_of_ne hji, setPrev_of_ne _ _ hn, setNext_of_ne _ _ hp]

/-- The cell is gone. -/
@[simp] theorem unlink_self {c : Cell ι α} (hc : h i = some c) : unlink h i i = none := by
  simp [unlink, hc]

/-- Unlinking leaves the other payloads. -/
theorem payload_unlink_of_ne {i j : ι} (hji : j ≠ i) :
    (unlink h i j).map Cell.payload = (h j).map Cell.payload := by
  unfold unlink
  cases hc : h i with
  | none => rfl
  | some c => simp only [update_of_ne hji, payload_setPrev, payload_setNext]

/-- A chain with one cell less. -/
theorem isChain_unlink (hc : IsChain h head (l₁ ++ i :: l₂)) (hl : (l₁ ++ i :: l₂).Nodup) :
    IsChain (unlink h i) (unlinkHead h head i) (l₁ ++ l₂) := by
  unfold IsChain at hc ⊢
  obtain ⟨c, hci, hprev, hs₁, hs₂⟩ := hc.cell_of_append
  obtain ⟨hn₁, hn₂, hdisj⟩ := nodup_append.mp hl
  obtain ⟨hi₂, hn₂⟩ := nodup_cons.mp hn₂
  have hi₁ : i ∉ l₁ := fun hi => hdisj i hi i mem_cons_self rfl
  have h₁₂ : ∀ j ∈ l₁, j ∉ l₂ := fun j hj hj' =>
    hdisj j hj j (mem_cons_of_mem i hj') rfl
  have hnext : c.next = l₂.head?.or none := hs₂.head_eq
  -- the part before `i` now ends at the successor of `i`
  have hfst : IsSegment (unlink h i) none (unlinkHead h head i) l₁ c.next := by
    rcases eq_nil_or_concat l₁ with rfl | ⟨l₁', b, rfl⟩
    · have : c.prev = none := hprev
      simp [IsSegment, unlinkHead, hci, this]
    simp only [concat_eq_append, lastOf_append_singleton] at hprev hs₁ hn₁ hi₁ h₁₂
    have hb : b ∉ l₁' := by
      intro hb
      exact (nodup_append.mp hn₁).2.2 b hb b (by simp) rfl
    have hhead : unlinkHead h head i = head := by simp [unlinkHead, hci, hprev]
    rw [hhead]
    simp only [concat_eq_append]
    refine (hs₁.setNext_last hb c.next).congr fun j hj => ?_
    have hji : j ≠ i := fun e => hi₁ (e ▸ hj)
    have hjn : c.next ≠ some j := by
      intro e
      rw [hnext] at e
      refine h₁₂ j hj (mem_of_mem_head? ?_)
      simpa using e
    simp only [unlink, hci]
    rw [update_of_ne hji, setPrev_of_ne _ _ hjn, hprev]
  -- the part after `i` now starts from the predecessor of `i`
  have hsnd : IsSegment (unlink h i) (lastOf none l₁) c.next l₂ none := by
    have hprev₂ : ∀ j ∈ l₂, c.prev ≠ some j := by
      intro j hj e
      rw [hprev] at e
      obtain ⟨l', rfl⟩ := exists_of_lastOf_none e
      exact h₁₂ j (by simp) hj
    rcases l₂ with _ | ⟨d, l₂⟩
    · exact hs₂
    have hcn : c.next = some d := hs₂.1
    have hd : d ∉ l₂ := (nodup_cons.mp hn₂).1
    have hs₂' : IsSegment (setNext h c.prev c.next) (some i) c.next (d :: l₂) none :=
      hs₂.congr fun j hj => setNext_of_ne _ _ (hprev₂ j hj)
    rw [← hprev]
    refine (hs₂'.setPrev_head hd c.prev).congr fun j hj => ?_
    have hji : j ≠ i := fun e => hi₂ (e ▸ hj)
    simp only [unlink, hci]
    rw [update_of_ne hji, hcn]
  exact isSegment_append.mpr ⟨c.next, hfst, hsnd⟩

end IcnDemo.LinkedChain
