import IcnDemo.NameTree.Insert

/-!
# Erasure from the name tree

`detach` removes one empty entry: it leaves the vector of children of its parent, its node is
unlinked and freed.  `live_detach` says what is stored afterwards, and the invariant follows.
`eraseUp` repeats this towards the root and may shrink the table at every level on the way
back, so the condition `EraseOk` follows the same recursion.
-/

namespace IcnDemo.NameTree

open List LinkedChain

variable {t : NameTree} {ch : ℕ → List NodeId}

/-! ### Removing a child from a vector -/

/-- Swapping with the last and popping erases one child. -/
theorem swapPop_perm (l : List EntryId) (e : EntryId) : (swapPop l e).Perm (l.erase e) := by
  unfold swapPop
  rcases hidx : l.findIdx? (· == e) with _ | i
  · grind [erase_of_not_mem]
  obtain ⟨hi, hie, hbefore⟩ := findIdx?_eq_some_iff_getElem.mp hidx
  have hget : l[i] = e := by simpa using hie
  have hsplit : l = l.take i ++ e :: l.drop (i + 1) := by
    rw [← hget]
    simp
  have hnot : e ∉ l.take i := by
    intro he
    obtain ⟨j, hj, hje⟩ := getElem_of_mem he
    grind
  generalize hl₁ : l.take i = l₁ at hsplit hnot
  generalize l.drop (i + 1) = l₂ at hsplit
  have hlen : l₁.length = i := by
    rw [← hl₁, length_take]
    omega
  subst hsplit
  simp only [erase_append_right _ hnot, erase_cons_head]
  -- the last element is `e` itself or the last one behind it
  rcases eq_nil_or_concat l₂ with rfl | ⟨l₃, z, rfl⟩
  · simp [← hlen]
  have hset : (l₁ ++ e :: (l₃ ++ [z])).set i z = l₁ ++ z :: (l₃ ++ [z]) := by
    simp [← hlen]
  have hlast : (l₁ ++ e :: (l₃ ++ [z])).getLastD e = z := by
    rw [getLastD_eq_getLast?]
    simp [getLast?_cons]
  simp only [concat_eq_append, hlast, hset]
  have hdrop : (l₁ ++ z :: (l₃ ++ [z])).dropLast = l₁ ++ z :: l₃ := by
    rw [show l₁ ++ z :: (l₃ ++ [z]) = (l₁ ++ z :: l₃) ++ [z] by simp, dropLast_concat]
  rw [hdrop]
  refine List.Perm.append_left l₁ ?_
  exact (perm_append_singleton z l₃).symm

/-- The children stay distinct. -/
theorem nodup_swapPop {l : List EntryId} (h : l.Nodup) (e : EntryId) : (swapPop l e).Nodup :=
  (swapPop_perm l e).nodup_iff.mpr (h.erase e)

variable {e : EntryId}

/-- The other children stay. -/
theorem mem_swapPop {l : List EntryId} (h : l.Nodup) {c : EntryId} :
    c ∈ swapPop l e ↔ c ≠ e ∧ c ∈ l := by
  rw [(swapPop_perm l e).mem_iff, h.mem_erase_iff]

/-! ### Removing one entry -/

variable (parent : Option EntryId)

/-- How an entry looks after `e` has been removed from the children of `parent`. -/
def withoutChild (e p : EntryId) (P : Entry) : Entry :=
  if parent = some p then { P with children := swapPop P.children e } else P

/-- Only the children change. -/
@[simp] theorem withoutChild_fields (e p : EntryId) (P : Entry) :
    let P' := withoutChild parent e p P
    P'.node = P.node ∧ P'.hash = P.hash ∧ P'.namePrefix = P.namePrefix ∧ P'.parent = P.parent ∧
      P'.attached = P.attached := by
  unfold withoutChild
  split_ifs <;> simp

/-- The first half of `detach`: the parent forgets the child. -/
def forgetChild (t : NameTree) (e : EntryId) (parent : Option EntryId) : NameTree :=
  match parent with
  | none => t
  | some p => t.modifyEntry p fun P => { P with children := swapPop P.children e }

variable {e' : EntryId} {E' : Entry}

/-- The entries without one child. -/
theorem live_forgetChild {parent : Option EntryId} :
    (t.forgetChild e parent).Live e' E' ↔ ∃ E, t.Live e' E ∧ E' = withoutChild parent e e' E := by
  cases parent with
  | none => simp [forgetChild, withoutChild]
  | some p =>
    unfold forgetChild
    rw [live_modifyEntry (f := fun P => { P with children := swapPop P.children e }) fun _ => rfl]
    grind [withoutChild]

/-- The hash table does not depend on children. -/
theorem tableInv_forgetChild (hT : TableInv t ch) (e : EntryId) (parent : Option EntryId) :
    TableInv (t.forgetChild e parent) ch := by
  cases parent with
  | none => exact hT
  | some p => exact tableInv_modifyEntry hT (fun _ => rfl) (fun _ => rfl)

/-- The second half of `detach`: the node leaves its chain and is freed. -/
def freeNode (t : NameTree) (E : Entry) : NameTree :=
  let loc := t.location E.hash
  { t with
    buckets := t.buckets.set loc (unlinkHead t.nodes (t.bucket loc) E.node)
    nodes := unlink t.nodes E.node
    nItems := t.nItems - 1 }

/-- An entry is taken from its parent and from the table. -/
theorem detach_eq (t : NameTree) (e : EntryId) (E : Entry) :
    t.detach e E = (t.forgetChild e E.parent).freeNode E := by
  unfold detach forgetChild freeNode
  cases E.parent <;> rfl

/-- The chains after an erasure. -/
def erasedChain (t : NameTree) (ch : ℕ → List NodeId) (E : Entry) : ℕ → List NodeId :=
  let loc := t.location E.hash
  Function.update ch loc ((ch loc).erase E.node)

variable {E : Entry}

/-- One node is gone. -/
theorem nodeEntry_freeNode (hE : t.Live e E) (m : NodeId) :
    (t.freeNode E).nodeEntry m = if m = E.node then none else t.nodeEntry m := by
  obtain ⟨c, hc, -⟩ := nodeEntry_eq_some.mp hE
  split_ifs with hm
  · subst hm
    simp [nodeEntry, freeNode, unlink_self hc]
  · have hentries : (t.freeNode E).entries = t.entries := rfl
    exact nodeEntry_congr hentries (payload_unlink_of_ne hm)

/-- One entry is gone. -/
theorem live_freeNode (hE : t.Live e E) : (t.freeNode E).Live e' E' ↔ t.Live e' E' ∧ e' ≠ e := by
  unfold Live
  rw [nodeEntry_freeNode hE]
  constructor
  · intro h
    split_ifs at h with hm
    refine ⟨h, ?_⟩
    rintro rfl
    exact hm (congrArg Entry.node (Live.contents_eq h hE))
  rintro ⟨h, hne⟩
  rw [if_neg]
  · exact h
  · intro hm
    rw [hm, show t.nodeEntry E.node = some (e, E) from hE] at h
    simp_all

/-- The chains without the node. -/
theorem isChain_freeNode (hT : TableInv t ch) (hE : t.Live e E) {b : ℕ} (hb : b < t.nBuckets) :
    IsChain (t.freeNode E).nodes ((t.freeNode E).bucket b) (t.erasedChain ch E b) := by
  have hl := hT.location_lt E.hash
  have hmem := hT.mem_chain_of_live hE
  obtain ⟨l₁, l₂, hsplit⟩ := append_of_mem hmem
  have hnd := hT.nodup _ hl
  have hchain := hT.isChain _ hl
  rw [hsplit] at hnd hchain
  have hnot : E.node ∉ l₁ := by grind
  by_cases hbl : b = t.location E.hash
  · subst hbl
    have hbucket : (t.freeNode E).bucket (t.location E.hash) =
        unlinkHead t.nodes (t.bucket (t.location E.hash)) E.node := by
      simp [freeNode, bucket, hT.buckets_length, hl]
    have herase : (ch (t.location E.hash)).erase E.node = l₁ ++ l₂ := by
      rw [hsplit, erase_append_right _ hnot, erase_cons_head]
    rw [hbucket]
    simp only [erasedChain, Function.update_self, herase]
    exact isChain_unlink hchain hnd
  have hbucket : (t.freeNode E).bucket b = t.bucket b := by
    simp [freeNode, bucket, Ne.symm hbl]
  rw [hbucket]
  simp only [erasedChain, Function.update_of_ne hbl]
  -- the neighbours of the freed node are in its own chain
  obtain ⟨c, hc, hprev, -, hs₂⟩ := hchain.cell_of_append
  refine (hT.isChain b hb).congr fun m hm => ?_
  have hapart : m ∉ ch (t.location E.hash) := fun h => hbl (hT.chain_disjoint hb hl hm h)
  rw [hsplit] at hapart
  refine unlink_of_ne hc ?_ ?_ ?_
  · rintro rfl
    exact hapart (by simp)
  · intro h
    rw [hprev] at h
    obtain ⟨l', rfl⟩ := exists_of_lastOf_none h
    exact hapart (by simp)
  · intro h
    rw [hs₂.head_eq, Option.or_none] at h
    exact hapart (by simp [mem_of_mem_head? h])

/-- The hash table stays in order without the node. -/
theorem tableInv_freeNode (hT : TableInv t ch) (hE : t.Live e E) :
    TableInv (t.freeNode E) (t.erasedChain ch E) := by
  have hl := hT.location_lt E.hash
  obtain ⟨c, hc, hce, -⟩ := nodeEntry_eq_some.mp hE
  have hpay : ∀ m, m ≠ E.node →
      ((t.freeNode E).nodes m).map Cell.payload = (t.nodes m).map Cell.payload :=
    fun m hm => payload_unlink_of_ne hm
  have hself : (t.freeNode E).nodes E.node = none := unlink_self hc
  constructor
  · exact hT.pos
  · simpa [freeNode] using hT.buckets_length
  · intro b hb
    exact isChain_freeNode hT hE hb
  · intro b hb
    by_cases hbl : b = t.location E.hash
    · subst hbl
      simpa [erasedChain] using (hT.nodup _ hl).erase _
    · simpa [erasedChain, Function.update_of_ne hbl] using hT.nodup b hb
  · intro b hb m
    have hb' : b < t.nBuckets := hb
    have hloc : ∀ h, (t.freeNode E).location h = t.location h := fun h => rfl
    rw [nodeEntry_freeNode hE]
    by_cases hm : m = E.node
    · subst hm
      by_cases hbl : b = t.location E.hash
      · subst hbl
        simp [erasedChain, (hT.nodup _ hl).mem_erase_iff]
      · have hno : E.node ∉ ch b := fun h =>
          hbl (hT.chain_disjoint hb' hl h (hT.mem_chain_of_live hE))
        simp [erasedChain, Function.update_of_ne hbl, hno]
    · have hmem : m ∈ t.erasedChain ch E b ↔ m ∈ ch b := by
        by_cases hbl : b = t.location E.hash <;> simp_all [erasedChain]
      rw [hmem, if_neg hm, hT.mem_chain b hb' m]
      simp only [hloc]
  · intro m hm
    by_cases hme : m = E.node
    · rw [hme]
      exact hself
    · have := hpay m hme
      rw [hT.node_fresh m hm] at this
      simpa using this
  · exact hT.entry_fresh
  · intro m c' hc'
    have hme : m ≠ E.node := by
      rintro rfl
      rw [hself] at hc'
      cases hc'
    have := hpay m hme
    rw [hc'] at this
    obtain ⟨c₀, hc₀, hpay₀⟩ := Option.map_eq_some_iff.mp this.symm
    rw [← hpay₀]
    exact hT.entry_node m c₀ hc₀
  · -- exactly one allocated node less
    have hfilter : ((Finset.range t.nextNode).filter fun m =>
        ((t.freeNode E).nodes m).isSome) =
        ((Finset.range t.nextNode).filter fun m => (t.nodes m).isSome).erase E.node := by
      grind [Option.isSome_map]
    have hin : E.node ∈ (Finset.range t.nextNode).filter fun m => (t.nodes m).isSome := by
      simp [hc, hT.lt_nextNode hc]
    calc (t.freeNode E).nItems = t.nItems - 1 := rfl
      _ = _ := by rw [hT.nItems_eq, ← Finset.card_erase_of_mem hin, ← hfilter]; rfl

/-- The entries after one was detached. -/
theorem live_detach (htree : TreeInv t) (hE : t.Live e E) :
    (t.detach e E).Live e' E' ↔
      ∃ E₀, t.Live e' E₀ ∧ e' ≠ e ∧ E' = withoutChild E.parent e e' E₀ := by
  have hself : withoutChild E.parent e e E = E := by
    unfold withoutChild
    rw [if_neg]
    intro h
    -- an entry is not its own parent, since the parent has a shorter name
    have hne : E.namePrefix ≠ [] := fun hroot => by
      rw [htree.root e E hE hroot] at h
      cases h
    grind [htree.parent, hE.contents_eq, length_dropLast, length_pos_iff]
  have hE' : (t.forgetChild e E.parent).Live e E :=
    live_forgetChild.mpr ⟨E, hE, hself.symm⟩
  grind [detach_eq, live_freeNode, live_forgetChild]

/-- The hash table stays in order after one was detached. -/
theorem tableInv_detach (hT : TableInv t ch) (hE : t.Live e E) :
    ∃ ch', TableInv (t.detach e E) ch' := by
  have hkeep : (t.forgetChild e E.parent).Live e (withoutChild E.parent e e E) :=
    live_forgetChild.mpr ⟨E, hE, rfl⟩
  have hfree : (t.forgetChild e E.parent).freeNode E =
      (t.forgetChild e E.parent).freeNode (withoutChild E.parent e e E) := by
    simp [freeNode]
  rw [detach_eq, hfree]
  exact ⟨_, tableInv_freeNode (tableInv_forgetChild hT e E.parent) hkeep⟩

/-- The tree stays in order after a leaf was detached. -/
theorem treeInv_detach (htree : TreeInv t)
    (hE : t.Live e E) (hchildren : E.children = []) : TreeInv (t.detach e E) := by
  have hcases : ∀ e' E', (t.detach e E).Live e' E' ↔
      ∃ E₀, t.Live e' E₀ ∧ e' ≠ e ∧ E' = withoutChild E.parent e e' E₀ :=
    fun e' E' => live_detach htree hE
  have hnochild : ∀ c C, t.Live c C → C.parent ≠ some e := by
    intro c C hC hpar
    have := htree.mem_children c C e E hC hE hpar
    simp [hchildren] at this
  constructor
  · intro e₁ E₁ h
    obtain ⟨E₀, h₀, -, rfl⟩ := (hcases _ _).mp h
    simpa using htree.hash_eq e₁ E₀ h₀
  · intro e₁ E₁ e₂ E₂ h₁ h₂ hname
    obtain ⟨F₁, hF₁, -, rfl⟩ := (hcases _ _).mp h₁
    obtain ⟨F₂, hF₂, -, rfl⟩ := (hcases _ _).mp h₂
    exact htree.unique e₁ F₁ e₂ F₂ hF₁ hF₂ (by simpa using hname)
  · intro e₁ E₁ h hroot
    obtain ⟨F, hF, -, rfl⟩ := (hcases _ _).mp h
    simpa using htree.root e₁ F hF (by simpa using hroot)
  · intro e₁ E₁ h hne
    obtain ⟨F, hF, -, rfl⟩ := (hcases _ _).mp h
    obtain ⟨p, P, hp, hP, hname⟩ := htree.parent e₁ F hF (by simpa using hne)
    have hpe : p ≠ e := fun hpe => hnochild e₁ F hF (hpe ▸ hp)
    exact ⟨p, _, by simpa using hp, (hcases _ _).mpr ⟨P, hP, hpe, rfl⟩, by simpa using hname⟩
  · intro p P' h c hc
    obtain ⟨P, hP, hpe, rfl⟩ := (hcases _ _).mp h
    have hmem : c ∈ P.children ∧ c ≠ e := by
      by_cases hp : E.parent = some p
      · grind [withoutChild, mem_swapPop, htree.children_nodup]
      · grind [withoutChild, htree.child, hE.contents_eq]
    obtain ⟨C, hC, hpar⟩ := htree.child p P hP c hmem.1
    exact ⟨_, (hcases _ _).mpr ⟨C, hC, hmem.2, rfl⟩, by simpa using hpar⟩
  · grind [htree.mem_children, withoutChild, mem_swapPop, htree.children_nodup]
  · grind [htree.children_nodup, withoutChild, nodup_swapPop]

/-- An entry is empty without children and attachments. -/
theorem Entry.isEmpty_iff :
    E.isEmpty = true ↔ E.children = [] ∧ E.attached = Attachments.empty := by
  obtain ⟨h, n, p, cs, ⟨f, l, m, s⟩, nd⟩ := E
  simp [Entry.isEmpty, Attachments.empty, and_assoc]

/-- Detaching an empty entry keeps the invariant. -/
theorem inv_detach (h : Inv t) (hE : t.Live e E)
    (hempty : E.isEmpty = true) : Inv (t.detach e E) := by
  obtain ⟨⟨ch, hT⟩, htree⟩ := h
  exact ⟨tableInv_detach hT hE, treeInv_detach htree hE (Entry.isEmpty_iff.mp hempty).1⟩

/-! ### The recursion towards the root -/

/-- What an erasure may do to the stored entries: what remains is unchanged up to its children,
and nothing with an attachment disappears. -/
structure Prunes (t t' : NameTree) : Prop where
  old : ∀ e E', t'.Live e E' → ∃ E, t.Live e E ∧ E'.namePrefix = E.namePrefix ∧
    E'.attached = E.attached
  keep : ∀ e E, t.Live e E → E.attached ≠ Attachments.empty → ∃ E', t'.Live e E' ∧
    E'.namePrefix = E.namePrefix ∧ E'.attached = E.attached

/-- Nothing is pruned. -/
theorem Prunes.refl (t : NameTree) : Prunes t t :=
  ⟨fun _ E h => ⟨E, h, rfl, rfl⟩, fun _ E h _ => ⟨E, h, rfl, rfl⟩⟩

/-- More is pruned. -/
theorem Prunes.trans {t₁ t₂ t₃ : NameTree} (h₁ : Prunes t₁ t₂) (h₂ : Prunes t₂ t₃) :
    Prunes t₁ t₃ := by
  constructor <;> grind [h₂.old, h₁.old, h₁.keep, h₂.keep]

/-- Another number of buckets prunes nothing. -/
theorem prunes_resize (hT : TableInv t ch) {newNBuckets : ℕ} (hpos : 0 < newNBuckets) :
    Prunes t (t.resize newNBuckets) :=
  ⟨fun e E h => ⟨E, (live_resize hT hpos e E).mp h, rfl, rfl⟩,
    fun e E h _ => ⟨E, (live_resize hT hpos e E).mpr h, rfl, rfl⟩⟩

/-- An empty entry is pruned. -/
theorem prunes_detach (h : Inv t) (hE : t.Live e E)
    (hempty : E.isEmpty = true) : Prunes t (t.detach e E) := by
  obtain ⟨-, htree⟩ := h
  constructor
  · intro e' E' hE'
    obtain ⟨E₀, h₀, -, rfl⟩ := (live_detach htree hE).mp hE'
    exact ⟨E₀, h₀, by simp, by simp⟩
  intro e' E₀ h₀ hne
  have hee : e' ≠ e := by
    rintro rfl
    rw [← hE.contents_eq h₀] at hne
    exact hne (Entry.isEmpty_iff.mp hempty).2
  exact ⟨_, (live_detach htree hE).mpr ⟨E₀, h₀, hee, rfl⟩, by simp, by simp⟩

/-- The table when one level of `eraseUp` comes back from its parent. -/
def afterParent (fuel : ℕ) (t : NameTree) (e : EntryId) (E : Entry) : NameTree :=
  match E.parent with
  | none => t.detach e E
  | some p => (eraseUp fuel (t.detach e E) p).1

/-- The shrink that may follow is safe. -/
def ShrinkOk (t : NameTree) : Prop :=
  t.minNBuckets ≤ halfOf t.nBuckets ∧ t.nItems < t.shrinkThreshold → ResizeOk t (halfOf t.nBuckets)

instance (t : NameTree) : Decidable (ShrinkOk t) :=
  inferInstanceAs (Decidable (_ → _))

/-- Every resize that `eraseUp` performs is safe. -/
def EraseOk : ℕ → NameTree → EntryId → Prop
  | 0, _, _ => True
  | fuel + 1, t, e => ∀ E ∈ t.entries e, E.isEmpty = true →
      (∀ p ∈ E.parent, EraseOk fuel (t.detach e E) p) ∧ ShrinkOk (afterParent fuel t e E)

instance decidableEraseOk : ∀ fuel t e, Decidable (EraseOk fuel t e)
  | 0, _, _ => isTrue trivial
  | fuel + 1, t, e =>
      have := decidableEraseOk fuel
      inferInstanceAs (Decidable (∀ E ∈ t.entries e, E.isEmpty = true →
        (∀ p ∈ E.parent, EraseOk fuel (t.detach e E) p) ∧ ShrinkOk (afterParent fuel t e E)))

/-- A safe shrink keeps the invariant. -/
theorem shrinkIfNeeded_spec (h : Inv t) (hok : ShrinkOk t) :
    Inv t.shrinkIfNeeded ∧ Prunes t t.shrinkIfNeeded := by
  unfold shrinkIfNeeded
  simp only
  split_ifs with hcond
  · have hr := hok hcond
    obtain ⟨⟨ch, hT⟩, -⟩ := id h
    exact ⟨inv_resize h hr, prunes_resize hT hr.1⟩
  · exact ⟨h, Prunes.refl t⟩

/-- The parent of a detached entry is there, with a shorter name. -/
theorem live_parent_detach (h : Inv t) {p : EntryId} (hE : t.Live e E) (hpar : E.parent = some p) :
    ∃ P, (t.detach e E).Live p P ∧ P.namePrefix.length < E.namePrefix.length := by
  obtain ⟨-, htree⟩ := h
  have hne : E.namePrefix ≠ [] := fun hroot => by
    rw [htree.root e E hE hroot] at hpar
    cases hpar
  obtain ⟨q, P, hq, hP, hname⟩ := htree.parent e E hE hne
  rw [hpar] at hq
  grind [length_pos_iff, hE.contents_eq, live_detach, withoutChild_fields]

/-- Erasing upwards keeps the invariant. -/
theorem eraseUp_spec {fuel : ℕ} : ∀ {t : NameTree} {e : EntryId} {E : Entry}, Inv t →
    t.Live e E → E.namePrefix.length < fuel → EraseOk fuel t e →
    Inv (eraseUp fuel t e).1 ∧ Prunes t (eraseUp fuel t e).1 := by
  induction fuel with
  | zero =>
    intro t e E _ _ hlen _
    omega
  | succ fuel ih =>
    intro t e E h hE hlen hok
    by_cases hempty : E.isEmpty = true
    · obtain ⟨hup, hshrink⟩ := hok E hE.entry hempty
      have hstep : (eraseUp (fuel + 1) t e).1 = (afterParent fuel t e E).shrinkIfNeeded := by
        cases hparent : E.parent <;>
          simp [eraseUp, hE.entry, hempty, afterParent, hparent]
      have hdet := inv_detach h hE hempty
      have hprune := prunes_detach h hE hempty
      have hafter : Inv (afterParent fuel t e E) ∧ Prunes t (afterParent fuel t e E) := by
        unfold afterParent
        cases hpar : E.parent with
        | none => exact ⟨hdet, hprune⟩
        | some p =>
          obtain ⟨P, hP, hPlen⟩ := live_parent_detach h hE hpar
          obtain ⟨h₁, h₂⟩ := ih hdet hP (by omega) (hup p hpar)
          exact ⟨h₁, hprune.trans h₂⟩
      obtain ⟨h₁, h₂⟩ := shrinkIfNeeded_spec hafter.1 hshrink
      rw [hstep]
      exact ⟨h₁, hafter.2.trans h₂⟩
    · grind [eraseUp, hE.entry, Prunes.refl]

end IcnDemo.NameTree
