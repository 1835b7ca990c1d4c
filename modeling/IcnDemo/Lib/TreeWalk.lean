import Mathlib.Tactic

/-!
# Walking a tree with a single position

A tree is given by lists of children and by parent links.  An iterator that stores nothing but its
current node, and whether it should go down from there, visits the nodes below a root in
pre-order: to the first child, else to the next sibling, else up.  A selector decides for each node
whether the iterator stops at it and whether it goes below it.

`ends_enter` is the result: the moves come to an end, and what they produce is the recursive
pre-order traversal.  They are at most two for each node visited (`cost_le`).
-/

namespace TreeWalk

open List

variable {α : Type*}

/-- Children and parent links. -/
structure Links (α : Type*) where
  children : α → List α
  parent : α → Option α

/-- The state of an iterator: a node, and whether its children come next. -/
structure Pos (α : Type*) where
  node : α
  down : Bool

variable (T : Links α) (sel : α → Bool × Bool) (root : α)

/-- The position after a node is entered. -/
def enter (c : α) : Pos α :=
  ⟨c, (sel c).2 && !(T.children c).isEmpty⟩

/-- What is produced when a node is entered. -/
def out (c : α) : List α :=
  if (sel c).1 then [c] else []

/-- One move; `none` at the end. -/
def move [DecidableEq α] (p : Pos α) : Option (Pos α × List α) :=
  if p.down then
    match T.children p.node with
    | [] => none
    | c :: _ => some (enter T sel c, out sel c)
  else if p.node = root then none
  else
    match T.parent p.node with
    | none => none
    | some q =>
      match (T.children q)[(T.children q).idxOf p.node + 1]? with
      | some c => some (enter T sel c, out sel c)
      | none => some (⟨q, false⟩, [])

/-- What the moves from a position produce. -/
def walk [DecidableEq α] : ℕ → Pos α → List α
  | 0, _ => []
  | k + 1, p =>
    match move T sel root p with
    | none => []
    | some (q, produced) => produced ++ walk k q

/-- The selected nodes below a node, in pre-order, to a depth. -/
def below : ℕ → α → List α
  | 0, _ => []
  | h + 1, e => (T.children e).flatMap fun c => out sel c ++ if (sel c).2 then below h c else []

/-- All nodes that are entered below a node, to a depth. -/
def visited : ℕ → α → List α
  | 0, _ => []
  | h + 1, e => (T.children e).flatMap fun c => c :: if (sel c).2 then visited h c else []

/-- The number of moves it takes to come back to a node. -/
def cost : ℕ → α → ℕ
  | 0, _ => 0
  | h + 1, e =>
    if (T.children e).isEmpty then 0
    else ((T.children e).map fun c => 1 + if (sel c).2 then cost h c else 0).sum + 1

/-- The links form a tree on the nodes that are alive, of depth at most `H`. -/
structure IsTree (alive : α → Prop) (rank : α → ℕ) (H : ℕ) : Prop where
  alive_child : ∀ {e c}, alive e → c ∈ T.children e → alive c
  parent_child : ∀ {e c}, alive e → c ∈ T.children e → T.parent c = some e
  nodup : ∀ {e}, alive e → (T.children e).Nodup
  rank_child : ∀ {e c}, alive e → c ∈ T.children e → rank c = rank e + 1
  rank_le : ∀ {e}, alive e → rank e ≤ H

variable {T sel root} {alive : α → Prop} {rank : α → ℕ} {H : ℕ}

/-! ### The walk is the traversal -/

section Walk

variable [DecidableEq α]

variable (T sel root) in
/-- So many moves lead from one position to another, and produce a list. -/
inductive Moves : ℕ → Pos α → List α → Pos α → Prop
  | refl (p : Pos α) : Moves 0 p [] p
  | step {k : ℕ} {p q r : Pos α} {produced l : List α}
      (hmove : move T sel root p = some (q, produced)) (hrest : Moves k q l r) :
      Moves (k + 1) p (produced ++ l) r

variable (T sel root) in
/-- The moves from a position produce a list and come to an end. -/
def Ends (p : Pos α) (l : List α) : Prop :=
  ∃ k q, Moves T sel root k p l q ∧ move T sel root q = none

variable {j k h : ℕ} {p q r : Pos α} {l l' : List α}

/-- Moves can be put one after the other. -/
theorem Moves.trans (h₁ : Moves T sel root j p l q) (h₂ : Moves T sel root k q l' r) :
    Moves T sel root (k + j) p (l ++ l') r := by
  induction h₁ with
  | refl p => exact h₂
  | step hmove _ ih =>
    rw [append_assoc]
    exact .step hmove (ih h₂)

/-- The walk follows the moves as long as it has fuel. -/
theorem Moves.walk_eq (h : Moves T sel root j p l q) (k : ℕ) :
    walk T sel root (j + k) p = l ++ walk T sel root k q := by
  induction h with
  | refl p => rw [Nat.zero_add, nil_append]
  | step hmove _ ih => rw [Nat.add_right_comm, walk, hmove, append_assoc, ← ih]

/-- From a node with children the iterator goes to the first of them. -/
theorem move_down {e c : α} {cs : List α} (h : T.children e = c :: cs) :
    move T sel root ⟨e, true⟩ = some (enter T sel c, out sel c) := by
  simp [move, h]

/-- From a node that is done the iterator goes to the next child of its parent, or to the parent. -/
theorem move_next (sel : α → Bool × Bool) (hT : IsTree T alive rank H) {e c : α}
    {before after : List α} (he : alive e) (hsplit : T.children e = before ++ c :: after)
    (hroot : c ≠ root) : move T sel root ⟨c, false⟩ =
      some ((after.head?.map fun d => (enter T sel d, out sel d)).getD (⟨e, false⟩, [])) := by
  have hmem : c ∈ T.children e := by simp [hsplit]
  have hnodup := hT.nodup he
  rw [hsplit] at hnodup
  have hnot : c ∉ before := fun hin =>
    (nodup_append.mp hnodup).2.2 c hin c mem_cons_self rfl
  have hidx : (T.children e).idxOf c = before.length := by
    rw [hsplit, idxOf_append_of_notMem hnot, idxOf_cons_self, Nat.add_zero]
  have hget : (T.children e)[(T.children e).idxOf c + 1]? = after.head? := by
    rw [hidx, hsplit, getElem?_append_right (by omega)]
    simp [head?_eq_getElem?]
  simp only [move, Bool.false_eq_true, if_false, hroot, hT.parent_child he hmem, hget]
  rcases after with - | ⟨d, ds⟩
  · rfl
  · rfl

/-- Once a node is entered, the iterator goes through what is below it, if the selector says so. -/
theorem moves_enter {c : α} (hbelow : Moves T sel root (cost T sel h c)
      ⟨c, !(T.children c).isEmpty⟩ (below T sel h c) ⟨c, false⟩) :
    Moves T sel root (if (sel c).2 then cost T sel h c else 0) (enter T sel c)
      (if (sel c).2 then below T sel h c else []) ⟨c, false⟩ := by
  unfold enter
  cases (sel c).2 with
  | false => exact .refl _
  | true => exact hbelow

/-- The moves through the children of a node behind `c`, and back to the node. -/
theorem moves_children (hT : IsTree T alive rank H) {e : α} (he : alive e)
    (hbelow : ∀ c ∈ T.children e, Moves T sel root (cost T sel h c)
      ⟨c, !(T.children c).isEmpty⟩ (below T sel h c) ⟨c, false⟩)
    (hroot : ∀ c ∈ T.children e, c ≠ root) {before after : List α} {c : α}
    (hsplit : T.children e = before ++ c :: after) :
    Moves T sel root ((after.map fun c => 1 + if (sel c).2 then cost T sel h c else 0).sum + 1)
      ⟨c, false⟩ (after.flatMap fun c => out sel c ++ if (sel c).2 then below T sel h c else [])
      ⟨e, false⟩ := by
  have hmove := move_next sel hT he hsplit (hroot c (by simp [hsplit]))
  induction after generalizing before c with
  | nil => exact .step hmove (.refl _)
  | cons d ds ih =>
    have hsplit' : T.children e = (before ++ [c]) ++ d :: ds := by simp [hsplit]
    have hmem : d ∈ T.children e := by simp [hsplit]
    have hrest := ih hsplit' (move_next sel hT he hsplit' (hroot d hmem))
    have hall := Moves.step hmove ((moves_enter (hbelow d hmem)).trans hrest)
    rw [flatMap_cons, append_assoc]
    convert hall using 1
    rw [map_cons, sum_cons]
    omega

/-- From a node with its children still to come, the moves produce the traversal of what is below
the node and come back to it. -/
theorem moves_below (hT : IsTree T alive rank H) {e : α} (he : alive e)
    (hh : H ≤ rank e + h) (hroot : rank root ≤ rank e) :
    Moves T sel root (cost T sel h e) ⟨e, !(T.children e).isEmpty⟩ (below T sel h e)
      ⟨e, false⟩ := by
  induction h generalizing e with
  | zero =>
    -- a node at the greatest depth has no children
    have hnone : T.children e = [] := by
      rw [eq_nil_iff_forall_not_mem]
      intro c hc
      have hrank := hT.rank_child he hc
      have hle := hT.rank_le (hT.alive_child he hc)
      omega
    rw [hnone]
    exact .refl _
  | succ h ih =>
    rcases hchildren : T.children e with - | ⟨c, cs⟩
    · rw [cost, below, hchildren]
      exact .refl _
    have hrank : ∀ d ∈ T.children e, rank d = rank e + 1 := fun d hd => hT.rank_child he hd
    have hbelow : ∀ d ∈ T.children e, Moves T sel root (cost T sel h d)
        ⟨d, !(T.children d).isEmpty⟩ (below T sel h d) ⟨d, false⟩ := by
      intro d hd
      have hd' := hrank d hd
      exact ih (hT.alive_child he hd) (by omega) (by omega)
    have hne : ∀ d ∈ T.children e, d ≠ root := by
      rintro d hd rfl
      have hd' := hrank d hd
      omega
    have hmem : c ∈ T.children e := by simp [hchildren]
    have hsplit : T.children e = [] ++ c :: cs := hchildren
    have hrest := moves_children hT he hbelow hne hsplit
    have hall := Moves.step (move_down hchildren) ((moves_enter (hbelow c hmem)).trans hrest)
    rw [below, hchildren, flatMap_cons, append_assoc, isEmpty_cons, Bool.not_false]
    convert hall using 1
    rw [cost, hchildren, isEmpty_cons, map_cons, sum_cons]
    simp only [Bool.false_eq_true, if_false]
    omega

/-- At the root the moves are over. -/
theorem move_root : move T sel root ⟨root, false⟩ = none := by
  simp [move]

/-- The iterator comes to an end, and what it produces below the root is the traversal. -/
theorem ends_enter (hT : IsTree T alive rank H) (he : alive root) (hh : H ≤ rank root + h) :
    Ends T sel root (enter T sel root) (if (sel root).2 then below T sel h root else []) :=
  ⟨_, _, moves_enter (moves_below hT he hh le_rfl), move_root⟩

/-- With enough fuel, the walk from the root is the traversal of what is below it. -/
theorem walk_enter (hT : IsTree T alive rank H) (he : alive root) (hh : H ≤ rank root + h)
    {fuel : ℕ} (hfuel : cost T sel h root ≤ fuel) :
    walk T sel root fuel (enter T sel root) =
      if (sel root).2 then below T sel h root else [] := by
  have hbelow : Moves T sel root (cost T sel h root) ⟨root, !(T.children root).isEmpty⟩
      (below T sel h root) ⟨root, false⟩ := moves_below hT he hh le_rfl
  have hmoves := moves_enter hbelow
  have hle : (if (sel root).2 then cost T sel h root else 0) ≤ fuel := by
    split_ifs
    · exact hfuel
    · exact Nat.zero_le _
  obtain ⟨k, rfl⟩ := Nat.exists_eq_add_of_le hle
  have hend : walk T sel root k ⟨root, false⟩ = [] := by
    rcases k with - | k
    · rfl
    · rw [walk, move_root]
  rw [hmoves.walk_eq, hend, append_nil]

end Walk

/-! ### The number of moves -/

/-- The walk takes at most two moves for each node. -/
theorem cost_le (h : ℕ) (e : α) : cost T sel h e ≤ 2 * (visited T sel h e).length := by
  induction h generalizing e with
  | zero => exact Nat.zero_le _
  | succ h ih =>
    have hsum : ∀ cs : List α,
        (cs.map fun c => 1 + if (sel c).2 then cost T sel h c else 0).sum + cs.length ≤
          2 * (cs.flatMap fun c => c :: if (sel c).2 then visited T sel h c else []).length := by
      intro cs
      induction cs with
      | nil => simp
      | cons c cs ihcs => grind
    rw [cost, visited]
    rcases hchildren : T.children e with - | ⟨c, cs⟩ <;> grind

/-- `n` steps up. -/
def up (T : Links α) : ℕ → α → Option α
  | 0, x => some x
  | n + 1, x => (up T n x).bind T.parent

variable {h : ℕ}

/-- A visited node is below the node, through one of its children. -/
theorem up_of_mem_visited (hT : IsTree T alive rank H) {e x : α} (he : alive e)
    (hx : x ∈ visited T sel h e) : alive x ∧ ∃ n, rank x = rank e + (n + 1) ∧
      ∃ c ∈ T.children e, up T n x = some c ∧ up T (n + 1) x = some e := by
  induction h generalizing e with
  | zero => simp [visited] at hx
  | succ h ih =>
    obtain ⟨c, hc, hx⟩ := mem_flatMap.mp hx
    have hcalive := hT.alive_child he hc
    have hrank := hT.rank_child he hc
    rcases mem_cons.mp hx with rfl | hx
    · refine ⟨hcalive, 0, hrank, x, hc, rfl, ?_⟩
      simpa [up] using hT.parent_child he hc
    · cases hsel : (sel c).2 with
      | false => simp [hsel] at hx
      | true => grind [up, hT.parent_child]

/-- No node is visited twice. -/
theorem nodup_visited (hT : IsTree T alive rank H) {e : α} (he : alive e) :
    (visited T sel h e).Nodup := by
  induction h generalizing e with
  | zero => exact nodup_nil
  | succ h ih =>
    have hsub : ∀ c ∈ T.children e, ∀ x ∈ c :: (if (sel c).2 then visited T sel h c else []),
        ∃ n, rank x = rank e + (n + 1) ∧ up T n x = some c := by
      intro c hc x hx
      have hrank := hT.rank_child he hc
      rcases mem_cons.mp hx with rfl | hx
      · exact ⟨0, hrank, rfl⟩
      · grind [up_of_mem_visited, hT.alive_child]
    rw [visited, nodup_flatMap]
    constructor
    · grind [hT.alive_child, up_of_mem_visited]
    · refine (hT.nodup he).imp_of_mem fun {c d} hc hd hne x hxc hxd => hne ?_
      grind

/-- The selected nodes are visited. -/
theorem below_sublist_visited (h : ℕ) (e : α) : (below T sel h e).Sublist (visited T sel h e) := by
  induction h generalizing e with
  | zero => exact .refl _
  | succ h ih =>
    unfold below visited
    induction T.children e with
    | nil => exact .refl _
    | cons c cs ihcs =>
      have hout : (out sel c).Sublist [c] := by
        unfold out
        split <;> simp
      have hrest : (if (sel c).2 then below T sel h c else []).Sublist
          (if (sel c).2 then visited T sel h c else []) := by
        split
        · exact ih c
        · exact .refl _
      exact (hout.append hrest).append ihcs

/-! ### Which nodes are produced -/

/-- A way down from a node through nodes that the selector goes below. -/
inductive Path (T : Links α) (sel : α → Bool × Bool) : α → α → Prop
  | child {e c : α} (hc : c ∈ T.children e) : Path T sel e c
  | down {e c x : α} (hc : c ∈ T.children e) (hsel : (sel c).2 = true) (h : Path T sel c x) :
      Path T sel e x

/-- The selected nodes are those with a path to them. -/
theorem mem_below_iff (hT : IsTree T alive rank H) {e x : α} (he : alive e) (hh : H ≤ rank e + h) :
    x ∈ below T sel h e ↔ (sel x).1 = true ∧ Path T sel e x := by
  induction h generalizing e with
  | zero =>
    have hnone : ∀ c, c ∉ T.children e := by
      intro c hc
      have hrank := hT.rank_child he hc
      have hle := hT.rank_le (hT.alive_child he hc)
      omega
    constructor
    · intro hx
      simp [below] at hx
    · rintro ⟨-, hc | ⟨hc, -, -⟩⟩
      · exact absurd hc (hnone _)
      · exact absurd hc (hnone _)
  | succ h ih =>
    have hsub : ∀ c ∈ T.children e, (x ∈ below T sel h c ↔ (sel x).1 = true ∧ Path T sel c x) := by
      grind [hT.rank_child, hT.alive_child]
    rw [below, mem_flatMap]
    constructor
    · rintro ⟨c, hc, hx⟩
      rcases mem_append.mp hx with hx | hx
      · unfold out at hx
        split_ifs at hx with hsel
        · rw [mem_singleton] at hx
          subst hx
          exact ⟨hsel, .child hc⟩
        · simp at hx
      · split_ifs at hx with hsel
        · obtain ⟨hselx, hpath⟩ := (hsub c hc).mp hx
          exact ⟨hselx, .down hc hsel hpath⟩
        · simp at hx
    · rintro ⟨hselx, hc | ⟨hc, hsel, hpath⟩⟩
      all_goals grind [out]

/-! ### Walking a list with a single position -/

/-- What an iterator that knows only its current element meets. -/
def collect (next : α → Option α) : ℕ → Option α → List α
  | 0, _ => []
  | _ + 1, none => []
  | k + 1, some a => a :: collect next k (next a)

/-- The iterator meets the elements of a list and then is at its end. -/
inductive Collects (next : α → Option α) : Option α → List α → Prop
  | done : Collects next none []
  | meet {a : α} {l : List α} (hrest : Collects next (next a) l) : Collects next (some a) (a :: l)

/-- With fuel for all elements, the iterator collects them. -/
theorem Collects.collect_eq {next : α → Option α} {start : Option α} {l : List α}
    (h : Collects next start l) {k : ℕ} (hk : l.length ≤ k) : collect next k start = l := by
  induction h generalizing k with
  | done => cases k <;> rfl
  | meet _ ih =>
    rcases k with - | k
    · cases hk
    · rw [collect, ih (Nat.le_of_succ_le_succ hk)]

/-- An iterator that moves to the next selected element of a list meets the selected elements. -/
theorem collects_find? {p : α → Bool} {next : α → Option α} {l : List α}
    (hnext : ∀ before a after, l = before ++ a :: after → next a = after.find? p) :
    Collects next (l.find? p) (l.filter p) := by
  -- the induction is on the part of the list that is still ahead
  suffices h : ∀ before after, l = before ++ after →
      Collects next (after.find? p) (after.filter p) from h [] l rfl
  intro before after
  induction after generalizing before with
  | nil =>
    intro _
    exact .done
  | cons a after ih =>
    intro hl
    have hrest := ih (before ++ [a]) (by rw [hl, append_assoc]; rfl)
    by_cases ha : p a = true
    · rw [filter_cons_of_pos ha, find?_cons_of_pos ha]
      refine .meet ?_
      rwa [hnext before a after hl]
    · rwa [filter_cons_of_neg ha, find?_cons_of_neg ha]

end TreeWalk
