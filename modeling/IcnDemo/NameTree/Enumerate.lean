import IcnDemo.NameTree.FullEnumerate

/-!
# Enumeration of a part of the name tree

`partialEnumerate` visits the entries under a prefix with an iterator that knows only its current
entry.  Under the invariant the entries form a tree, so that the iterator makes a pre-order
traversal: it produces the entries that the selector accepts and that no ancestor below the prefix
cuts off.
-/

namespace IcnDemo.NameTree

open List

open TreeWalk

/-- A selector says whether an entry is accepted and whether its children are visited.  It may
compare the address of the entry. -/
abbrev EntrySubTreeSelector := EntryId → Entry → Bool × Bool

/-- The children and the parent of an entry. -/
def links (t : NameTree) : Links EntryId where
  children := fun e => ((t.entries e).map Entry.children).getD []
  parent := fun e => (t.entries e).bind Entry.parent

/-- The selector on an address. -/
def select (t : NameTree) (s : EntrySubTreeSelector) (e : EntryId) : Bool × Bool :=
  match t.entries e with
  | none => (false, false)
  | some E => s e E

/-- The entries that a loop over `NameTree::partialEnumerate` meets.  Every entry is entered and
left at most once. -/
def partialEnumerate (t : NameTree) (q : KeptName) (s : EntrySubTreeSelector) : List EntryId :=
  match t.findExactMatch q with
  | none => []
  | some e =>
    out (t.select s) e ++ walk t.links (t.select s) e (2 * t.nItems) (enter t.links (t.select s) e)

variable {t : NameTree}

/-! ### The entries form a tree -/

/-- The entry is stored. -/
def Alive (t : NameTree) (e : EntryId) : Prop :=
  ∃ E, t.Live e E

/-- The number of components of an entry's name. -/
def depth (t : NameTree) (e : EntryId) : ℕ :=
  ((t.entries e).map fun E => E.namePrefix.length).getD 0

variable {e : EntryId} {E : Entry}

/-- The children of a live entry. -/
theorem Live.children_eq (h : t.Live e E) : t.links.children e = E.children := by
  simp [links, h.entry]

/-- The parent of a live entry. -/
theorem Live.parent_eq (h : t.Live e E) : t.links.parent e = E.parent := by
  simp [links, h.entry]

/-- The depth of a live entry. -/
theorem Live.depth_eq (h : t.Live e E) : t.depth e = E.namePrefix.length := by
  simp [depth, h.entry]

/-- The selector at a live entry. -/
theorem Live.select_eq (h : t.Live e E) (s : EntrySubTreeSelector) : t.select s e = s e E := by
  simp [select, h.entry]

/-- A child has one component more. -/
theorem TreeInv.dropLast_child (h : TreeInv t) {e c : EntryId} {E C : Entry} (hE : t.Live e E)
    (hC : t.Live c C) (hc : c ∈ E.children) :
    C.namePrefix ≠ [] ∧ C.namePrefix.dropLast = E.namePrefix := by
  obtain ⟨C', hC', hparent⟩ := h.child e E hE c hc
  grind [hC.contents_eq, h.root, h.parent, hE.contents_eq]

/-- The live entries are a tree. -/
theorem Inv.isTree (h : Inv t) : ∃ H, IsTree t.links t.Alive t.depth H := by
  obtain ⟨⟨ch, hT⟩, htree⟩ := h
  obtain ⟨S, hS, -⟩ := hT.nItems_eq_card
  refine ⟨S.sup t.depth, ?_, ?_, ?_, ?_, ?_⟩
  · rintro e c ⟨E, hE⟩ hc
    rw [hE.children_eq] at hc
    obtain ⟨C, hC, -⟩ := htree.child e E hE c hc
    exact ⟨C, hC⟩
  · rintro e c ⟨E, hE⟩ hc
    rw [hE.children_eq] at hc
    obtain ⟨C, hC, hparent⟩ := htree.child e E hE c hc
    rw [hC.parent_eq, hparent]
  · rintro e ⟨E, hE⟩
    rw [hE.children_eq]
    exact htree.children_nodup e E hE
  · rintro e c ⟨E, hE⟩ hc
    rw [hE.children_eq] at hc
    obtain ⟨C, hC, -⟩ := htree.child e E hE c hc
    grind [htree.dropLast_child, length_pos_of_ne_nil, hE.depth_eq, hC.depth_eq]
  · intro e he
    exact Finset.le_sup ((hS e).mpr he)

variable {q : KeptName}

/-- The enumeration comes to an end, and is the pre-order traversal of what is below the entry. -/
theorem Inv.partialEnumerate_eq (h : Inv t) (hfind : t.findExactMatch q = some e)
    (halive : t.Alive e) (s : EntrySubTreeSelector) : ∃ H, IsTree t.links t.Alive t.depth H ∧
      Ends t.links (t.select s) e (enter t.links (t.select s) e)
        (if (t.select s e).2 then below t.links (t.select s) H e else []) ∧
      t.partialEnumerate q s = out (t.select s) e ++
        if (t.select s e).2 then below t.links (t.select s) H e else [] := by
  obtain ⟨H, htree⟩ := h.isTree
  obtain ⟨S, hS, hcard⟩ := h.1.choose_spec.nItems_eq_card
  have hcost : cost t.links (t.select s) H e ≤ 2 * t.nItems := by
    have hlength : (visited t.links (t.select s) H e).length ≤ S.card := by
      rw [← toFinset_card_of_nodup (nodup_visited htree halive)]
      apply Finset.card_le_card
      intro y hy
      exact (hS y).mpr (up_of_mem_visited htree halive (mem_toFinset.mp hy)).1
    have hle : cost t.links (t.select s) H e ≤ _ := cost_le H e
    omega
  refine ⟨H, htree, ends_enter htree halive (Nat.le_add_left H _), ?_⟩
  rw [partialEnumerate, hfind]
  exact congrArg _ (walk_enter htree halive (Nat.le_add_left H _) hcost)

/-- What the enumeration produces: the entry of the prefix, and the selected entries at the end of
a way down from it. -/
theorem Inv.mem_partialEnumerate (h : Inv t) (hfind : t.findExactMatch q = some e)
    (halive : t.Alive e) (s : EntrySubTreeSelector) {x : EntryId} :
    x ∈ t.partialEnumerate q s ↔ (t.select s x).1 = true ∧
      (x = e ∨ (t.select s e).2 = true ∧ Path t.links (t.select s) e x) := by
  obtain ⟨H, htree, -, heq⟩ := h.partialEnumerate_eq hfind halive s
  rw [heq]
  have hbelow : x ∈ below t.links (t.select s) H e ↔ _ :=
    mem_below_iff htree halive (Nat.le_add_left H _)
  grind [out]

/-! ### Ways down and names -/

/-- Every entry between two names lets the enumeration pass. -/
def Passes (t : NameTree) (s : EntrySubTreeSelector) (top bottom : Name) : Prop :=
  ∀ y Y, t.Live y Y → top <+: Y.namePrefix → Y.namePrefix <+: bottom → Y.namePrefix ≠ top →
    Y.namePrefix ≠ bottom → (s y Y).2 = true

/-- A path with one step more. -/
theorem path_concat {T : Links EntryId} {sel : EntryId → Bool × Bool} {e p x : EntryId}
    (h : Path T sel e p) (hsel : (sel p).2 = true) (hx : x ∈ T.children p) : Path T sel e x := by
  induction h with
  | child hc => exact .down hc hsel (.child hx)
  | down hc hc' _ ih => exact .down hc hc' (ih hsel hx)

/-- A path leads to longer names. -/
theorem TreeInv.path_names (h : TreeInv t) {s : EntrySubTreeSelector} {e x : EntryId} {E X : Entry}
    (hE : t.Live e E) (hX : t.Live x X) (hpath : Path t.links (t.select s) e x) :
    E.namePrefix <+: X.namePrefix ∧ E.namePrefix ≠ X.namePrefix ∧
      Passes t s E.namePrefix X.namePrefix := by
  induction hpath generalizing E with
  | @child e c hc =>
    rw [hE.children_eq] at hc
    obtain ⟨hne, hname⟩ := h.dropLast_child hE hX hc
    have hlen : X.namePrefix.length = E.namePrefix.length + 1 := by
      have hpos := length_pos_of_ne_nil hne
      rw [← hname, length_dropLast]
      omega
    refine ⟨hname ▸ dropLast_prefix _, fun heq => by rw [heq] at hlen; omega, ?_⟩
    -- there is no room between a name and the same name without its last component
    intro y Y hY htop hbottom hnetop hnebottom
    grind [htop.eq_of_length, hbottom.eq_of_length]
  | @down e c x hc hsel hpath ih =>
    rw [hE.children_eq] at hc
    obtain ⟨C, hC, -⟩ := h.child e E hE c hc
    obtain ⟨hne, hname⟩ := h.dropLast_child hE hC hc
    obtain ⟨hpre, hneq, hpass⟩ := ih hC hX
    have hlen : C.namePrefix.length = E.namePrefix.length + 1 := by
      have hpos := length_pos_of_ne_nil hne
      rw [← hname, length_dropLast]
      omega
    have hEC : E.namePrefix <+: C.namePrefix := hname ▸ dropLast_prefix _
    have hlenX := hpre.length_le
    refine ⟨hEC.trans hpre, fun heq => by rw [heq] at hlen; omega, ?_⟩
    intro y Y hY htop hbottom hnetop hnebottom
    have hlt : E.namePrefix.length < Y.namePrefix.length :=
      Nat.lt_of_le_of_ne htop.length_le fun hlen => hnetop (htop.eq_of_length hlen).symm
    have hCY : C.namePrefix <+: Y.namePrefix :=
      prefix_of_prefix_length_le hpre hbottom (by omega)
    by_cases hYC : Y.namePrefix = C.namePrefix
    · grind [h.unique, hY.contents_eq, hC.select_eq]
    · exact hpass y Y hY hCY hbottom hYC hnebottom

/-- A path leads to all names between which the selector goes on. -/
theorem TreeInv.path_of_names (h : TreeInv t) {s : EntrySubTreeSelector}
    (hE : t.Live e E) {x : EntryId} {X : Entry} (hX : t.Live x X)
    (hpre : E.namePrefix <+: X.namePrefix) (hne : E.namePrefix ≠ X.namePrefix)
    (hpass : Passes t s E.namePrefix X.namePrefix) : Path t.links (t.select s) e x := by
  induction hk : X.namePrefix.length generalizing x X with
  | zero => simp_all
  | succ k ih =>
    have hXne : X.namePrefix ≠ [] := by
      rintro hnil
      rw [hnil] at hk
      cases hk
    obtain ⟨p, P, hp, hP, hname⟩ := h.parent x X hX hXne
    have hmem : x ∈ t.links.children p := by
      rw [hP.children_eq]
      exact h.mem_children x X p P hX hP hp
    have hPX : P.namePrefix <+: X.namePrefix := hname ▸ dropLast_prefix _
    have hlenP : P.namePrefix.length = k := by
      rw [hname, length_dropLast, hk]
      rfl
    have hlt : E.namePrefix.length < X.namePrefix.length :=
      Nat.lt_of_le_of_ne hpre.length_le fun hlen => hne (hpre.eq_of_length hlen)
    have hEP : E.namePrefix <+: P.namePrefix :=
      prefix_of_prefix_length_le hpre hPX (by omega)
    by_cases heq : E.namePrefix = P.namePrefix
    · rw [h.unique e E p P hE hP heq]
      exact .child hmem
    have hPneX : P.namePrefix ≠ X.namePrefix := by
      intro hPX'
      rw [hPX', hk] at hlenP
      omega
    have hsel : (t.select s p).2 = true := by
      rw [hP.select_eq]
      exact hpass p P hP hEP hPX (Ne.symm heq) hPneX
    refine path_concat (ih hP hEP heq ?_ hlenP) hsel hmem
    intro y Y hY htop hbottom hnetop hneP
    refine hpass y Y hY htop (hbottom.trans hPX) hnetop ?_
    grind

/-- A path leads to live entries. -/
theorem TreeInv.alive_of_path (h : TreeInv t) {s : EntrySubTreeSelector} {x : EntryId}
    (he : t.Alive e) (hpath : Path t.links (t.select s) e x) : t.Alive x := by
  induction hpath with
  | child hc =>
    obtain ⟨E, hE⟩ := he
    rw [hE.children_eq] at hc
    obtain ⟨C, hC, -⟩ := h.child _ E hE _ hc
    exact ⟨C, hC⟩
  | down hc _ _ ih =>
    obtain ⟨E, hE⟩ := he
    rw [hE.children_eq] at hc
    obtain ⟨C, hC, -⟩ := h.child _ E hE _ hc
    exact ih ⟨C, hC⟩

/-! ### Both enumerations -/

/-- An accepted entry at or under the prefix, which no entry above it cuts off. -/
def Selected (t : NameTree) (n : Name) (s : EntrySubTreeSelector) (x : EntryId) : Prop :=
  ∃ X, t.Live x X ∧ n <+: X.namePrefix ∧ (s x X).1 = true ∧ ∀ a A, t.Live a A →
    n <+: A.namePrefix → A.namePrefix <+: X.namePrefix → A.namePrefix ≠ X.namePrefix →
      (s a A).2 = true

/-- What the enumerations of a name tree and of the part of it under a prefix are meant to be. -/
structure Enumerated (t : NameTree) (q : KeptName) : Prop where
  /-- The iterator meets the entries one by one and then is at its end; each accepted entry is met
  once. -/
  full : ∀ s, Collects (t.fullNext s) (t.fullBegin s) (t.fullEnumerate s) ∧
    (t.fullEnumerate s).Nodup ∧ ∀ e, e ∈ t.fullEnumerate s ↔ ∃ E, t.Live e E ∧ s E = true
  /-- Each selected entry under the prefix once. -/
  under : ∀ s, (t.partialEnumerate q s).Nodup ∧
    ∀ x, x ∈ t.partialEnumerate q s ↔ t.Selected q.name s x
  /-- The moves of the iterator come to an end, and produce the entries in pre-order. -/
  preOrder : ∀ s e, t.findExactMatch q = some e → ∃ H,
    Ends t.links (t.select s) e (enter t.links (t.select s) e)
      (if (t.select s e).2 then below t.links (t.select s) H e else []) ∧
    t.partialEnumerate q s = out (t.select s) e ++
      if (t.select s e).2 then below t.links (t.select s) H e else []

/-- No entry is produced twice. -/
theorem Inv.nodup_partialEnumerate (h : Inv t) (hfind : t.findExactMatch q = some e)
    (halive : t.Alive e) (s : EntrySubTreeSelector) : (t.partialEnumerate q s).Nodup := by
  obtain ⟨H, htree, -, heq⟩ := h.partialEnumerate_eq hfind halive s
  have hsub : (below t.links (t.select s) H e).Sublist _ := below_sublist_visited H e
  have hnot : e ∉ visited t.links (t.select s) H e := fun hin => by
    obtain ⟨-, k, hrank, -⟩ := up_of_mem_visited htree halive hin
    omega
  have hnodup := (nodup_cons.mpr ⟨hnot, nodup_visited htree halive⟩).sublist (hsub.cons_cons e)
  rw [heq]
  grind [out]

/-- The enumeration under a prefix produces the selected entries. -/
theorem Inv.mem_partialEnumerate_iff (h : Inv t) (hsame : q.SameHash) (hno : NoTwin t q)
    (s : EntrySubTreeSelector) {x : EntryId} :
    x ∈ t.partialEnumerate q s ↔ t.Selected q.name s x := by
  cases hfind : t.findExactMatch q with
  | none =>
    simp only [partialEnumerate, hfind, not_mem_nil, false_iff]
    rintro ⟨X, hX, hpre, -⟩
    obtain ⟨e, E, hE, hname⟩ := h.2.liveName_take ⟨x, X, hX, rfl⟩ q.name.length
    rw [← prefix_iff_eq_take.mp hpre] at hname
    rw [(h.findExactMatch_iff hsame hno).mpr ⟨E, hE, hname⟩] at hfind
    cases hfind
  | some e =>
    obtain ⟨E, hE, hname⟩ := h.exists_live_of_findExactMatch hno hfind
    rw [h.mem_partialEnumerate hfind ⟨E, hE⟩, ← hname]
    constructor
    · rintro ⟨hsel, rfl | ⟨hdown, hpath⟩⟩
      · rw [hE.select_eq] at hsel
        exact ⟨E, hE, prefix_rfl, hsel, fun a A _ htop hbottom hne =>
          absurd (htop.eq_of_length_le hbottom.length_le) hne.symm⟩
      · obtain ⟨X, hX⟩ := h.2.alive_of_path ⟨E, hE⟩ hpath
        obtain ⟨hpre, hne, hpass⟩ := h.2.path_names hE hX hpath
        rw [hX.select_eq] at hsel
        refine ⟨X, hX, hpre, hsel, fun a A hA htop hbottom hneX => ?_⟩
        by_cases htopA : A.namePrefix = E.namePrefix
        · grind [h.2.unique, hA.select_eq]
        · exact hpass a A hA htop hbottom htopA hneX
    · rintro ⟨X, hX, hpre, hsel, hall⟩
      rw [hX.select_eq, hE.select_eq]
      refine ⟨hsel, ?_⟩
      by_cases heq : E.namePrefix = X.namePrefix
      · exact .inl (h.2.unique x X e E hX hE heq.symm)
      · exact .inr ⟨hall e E hE prefix_rfl hpre heq, h.2.path_of_names hE hX hpre heq
          fun y Y hY htop hbottom _ hne => hall y Y hY htop hbottom hne⟩

/-- In every state of a run that meets the conditions, both enumerations are what they are meant to
be, when the number of buckets fits in an `int`, the octets of the prefix have the hash of its
shortest form and no entry has the bytes of the prefix with other component types. -/
theorem enumerated_of_runOk {nBuckets : ℕ} (hpos : 1 ≤ nBuckets) {ops : List Op}
    (hok : RunOk (create nBuckets) ops) (hsize : ((create nBuckets).run ops).nBuckets < 2 ^ 31)
    {q : KeptName} (hsame : q.SameHash) (hno : NoTwin ((create nBuckets).run ops) q) :
    Enumerated ((create nBuckets).run ops) q := by
  have h := inv_run (inv_create hpos) hok
  obtain ⟨⟨ch, hT⟩, -⟩ := id h
  refine ⟨fun s => ⟨?_, ?_, fun e => mem_fullEnumerate h hsize⟩, fun s => ⟨?_, fun x =>
    h.mem_partialEnumerate_iff hsame hno s⟩, fun s e hfind => ?_⟩
  · rw [hT.fullEnumerate_eq hsize]
    exact hT.collects_fullNext hsize s
  · rw [hT.fullEnumerate_eq hsize]
    exact hT.nodup_allEntries.filter _
  · cases hfind : ((create nBuckets).run ops).findExactMatch q with
    | none => simp [partialEnumerate, hfind]
    | some e =>
      obtain ⟨E, hE, -⟩ := h.exists_live_of_findExactMatch hno hfind
      exact h.nodup_partialEnumerate hfind ⟨E, hE⟩ s
  · obtain ⟨E, hE, -⟩ := h.exists_live_of_findExactMatch hno hfind
    obtain ⟨H, -, heq⟩ := h.partialEnumerate_eq hfind ⟨E, hE⟩ s
    exact ⟨H, heq⟩

/-- The enumerations of a table with `/A/B`, and under `/A`. -/
theorem enumerated_four_buckets : Enumerated ((create 4).run
    [.lookup [.generic [0x41], .generic [0x42]]]) nameA :=
  enumerated_of_runOk (by decide) (by decide +kernel) (by decide +kernel) (by decide +kernel)
    (by decide +kernel)

/-- The enumeration under a prefix that has no entry begins at the entry of another name, with the
same bytes and hash.  The enumeration under `/A`, in octets with the length in three of them, is
empty although `/A` has an entry. -/
theorem enumerated_other_name :
    ¬ Enumerated ((create 1024).run [.lookup nameTwins]) (Name.encoded nameTwins.reverse) ∧
      ¬ Enumerated ((create 16).run [.lookup nameA]) keptA := by
  constructor
  · intro h
    have hmem : 2 ∈ ((create 1024).run [.lookup nameTwins]).partialEnumerate
        (Name.encoded nameTwins.reverse) fun _ _ => (true, true) := by decide +kernel
    obtain ⟨X, hX, hpre, -⟩ := ((h.under _).2 2).mp hmem
    have hname : (((create 1024).run [.lookup nameTwins]).entries 2).map Entry.namePrefix =
        some nameTwins := by decide +kernel
    rw [hX.entry, Option.map_some, Option.some.injEq] at hname
    rw [hname] at hpre
    exact absurd hpre (by decide)
  · intro h
    have hlive : ∃ E ∈ ((create 16).run [.lookup nameA]).entries 1,
        ((create 16).run [.lookup nameA]).nodeEntry E.node = some (1, E) ∧
          E.namePrefix = nameA := by decide +kernel
    obtain ⟨E, -, hE, hname⟩ := hlive
    have hmem := ((h.under fun _ _ => (true, true)).2 1).mpr
      ⟨E, hE, by rw [hname]; rfl, rfl, fun _ _ _ _ _ _ => rfl⟩
    revert hmem
    decide +kernel

end IcnDemo.NameTree
