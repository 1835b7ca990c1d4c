import IcnDemo.NameTree.Invariant

/-!
# Resizing the name tree

`resize` moves every node behind the last node of a new bucket, walking the old chains while
it rewrites their links.  `RehashInv` is the invariant of that double loop: the nodes moved so
far form the new chains, the others are untouched.  The new chains are those of the *narrowed*
hash, so the table invariant survives when narrowing does not change any bucket (`inv_resize`).
A number of buckets that divides `2 ^ 32` is always safe.
-/

namespace IcnDemo.NameTree

open List LinkedChain

/-- Narrowing the hash to 32 bits does not change the bucket of any live entry. -/
def ResizeOk (t : NameTree) (newNBuckets : ℕ) : Prop :=
  0 < newNBuckets ∧
    t.ForallLive fun E => narrowLocation E.hash newNBuckets = E.hash.toNat % newNBuckets

instance (t : NameTree) (newNBuckets : ℕ) : Decidable (ResizeOk t newNBuckets) :=
  inferInstanceAs (Decidable (_ ∧ _))

/-- Cutting the hash to 32 bits keeps the location in a power of two. -/
theorem narrowLocation_of_dvd {newNBuckets : ℕ} (hdvd : newNBuckets ∣ 2 ^ 32) (hashValue : UInt64) :
    narrowLocation hashValue newNBuckets = hashValue.toNat % newNBuckets :=
  Nat.mod_mod_of_dvd _ hdvd

/-- A resize to a power of two is safe. -/
theorem resizeOk_of_dvd (t : NameTree) {newNBuckets : ℕ} (hdvd : newNBuckets ∣ 2 ^ 32) :
    ResizeOk t newNBuckets := by
  refine ⟨Nat.pos_of_dvd_of_pos hdvd (by decide), ?_⟩
  intro m _ q _
  exact narrowLocation_of_dvd hdvd q.2.hash

/-- The new bucket of a node. -/
def newLocation (t : NameTree) (newNBuckets : ℕ) (n : NodeId) : ℕ :=
  match t.nodeEntry n with
  | none => 0
  | some (_, E) => narrowLocation E.hash newNBuckets

variable {n : NodeId}

/-- The new bucket of a node. -/
theorem newLocation_eq {t : NameTree} {e : EntryId} {E : Entry} (newNBuckets : ℕ)
    (h : t.nodeEntry n = some (e, E)) :
    t.newLocation newNBuckets n = narrowLocation E.hash newNBuckets := by
  simp [newLocation, h]

/-- The new chain of bucket `b` after the nodes `moved` have been moved. -/
def newChain (t : NameTree) (newNBuckets : ℕ) (moved : List NodeId) (b : ℕ) : List NodeId :=
  moved.filter fun n => t.newLocation newNBuckets n == b

/-- The invariant of the loops of `resize`. -/
structure RehashInv (t : NameTree) (newNBuckets : ℕ) (moved : List NodeId) (r : Rehash) :
    Prop where
  length_eq : r.newBuckets.length = newNBuckets
  isChain : ∀ b < newNBuckets,
    IsChain r.nodes (r.newBuckets.getD b none) (t.newChain newNBuckets moved b)
  unmoved : ∀ n, n ∉ moved → r.nodes n = t.nodes n
  payload : ∀ n, (r.nodes n).map Cell.payload = (t.nodes n).map Cell.payload

variable {t : NameTree} {ch : ℕ → List NodeId} {newNBuckets : ℕ}

/-- Nothing has been moved. -/
theorem rehashInv_start (t : NameTree) (newNBuckets : ℕ) :
    RehashInv t newNBuckets [] ⟨t.nodes, List.replicate newNBuckets none⟩ := by
  constructor <;> grind [LinkedChain.IsChain, IsSegment, newChain]

/-- The new chains have distinct nodes. -/
theorem nodup_newChain {moved : List NodeId} (h : moved.Nodup) (b : ℕ) :
    (t.newChain newNBuckets moved b).Nodup :=
  h.filter _

/-- The new chains of two parts. -/
theorem newChain_append (moved l : List NodeId) (b : ℕ) : t.newChain newNBuckets (moved ++ l) b =
      t.newChain newNBuckets moved b ++ t.newChain newNBuckets l b := by
  simp [newChain]

/-- One node is moved. -/
theorem RehashInv.relink (hT : TableInv t ch) {moved : List NodeId} {r : Rehash} {p : NodeId}
    {e : EntryId} {E : Entry} (hr : RehashInv t newNBuckets moved r) (hpos : 0 < newNBuckets)
    (hmoved : ∀ n ∈ moved, (t.nodes n).isSome) (hnodup : moved.Nodup) (hp : p ∉ moved)
    (hE : t.nodeEntry p = some (e, E)) :
    RehashInv t newNBuckets (moved ++ [p]) (t.relink newNBuckets r p) := by
  set b := narrowLocation E.hash newNBuckets with hbdef
  have hb : b < newNBuckets := Nat.mod_lt _ hpos
  have hloc : t.newLocation newNBuckets p = b := newLocation_eq newNBuckets hE
  set c := t.newChain newNBuckets moved b with hc
  have hnd : c.Nodup := nodup_newChain hnodup b
  -- the walk over the new bucket sees the nodes moved there so far
  have hlen : c.length ≤ t.nextNode := by
    have hsub : c.toFinset ⊆ Finset.range t.nextNode := by
      intro n hn
      have hn' : n ∈ moved := mem_of_mem_filter (mem_toFinset.mp hn)
      grind [Option.isSome_iff_exists, hT.lt_nextNode]
    have hcard := Finset.card_le_card hsub
    rwa [toFinset_card_of_nodup hnd, Finset.card_range] at hcard
  have hwalk : walk r.nodes t.nextNode (r.newBuckets.getD b none) = c :=
    walk_eq_of_isSegment (hr.isChain b hb) hlen
  have hpb : p ∉ c := fun h => hp (mem_of_mem_filter h)
  have hlast : ∀ n, lastOf none c = some n → n ∈ c := by
    intro n hn
    obtain ⟨l', hl'⟩ := exists_of_lastOf_none hn
    simp [hl']
  have hrelink : t.relink newNBuckets r p =
      { nodes := pushBack r.nodes (lastOf none c) p e
        newBuckets := r.newBuckets.set b (pushBackHead (r.newBuckets.getD b none)
          (lastOf none c) p) } := by
    simp only [NameTree.relink, hE, ← hbdef, hwalk]
  rw [hrelink]
  constructor
  · simpa using hr.length_eq
  · intro b' hb'
    rw [newChain_append]
    by_cases hbb : b' = b
    · grind [newChain, hr.length_eq, isChain_pushBack, hr.isChain]
    have hsingle : t.newChain newNBuckets [p] b' = [] := by
      simp [newChain, hloc, Ne.symm hbb]
    have hget : (r.newBuckets.set b (pushBackHead (r.newBuckets.getD b none)
        (lastOf none c) p)).getD b' none = r.newBuckets.getD b' none := by
      simp [Ne.symm hbb]
    rw [hsingle, append_nil]
    simp only [hget]
    refine (hr.isChain b' hb').congr fun n hn => ?_
    have hn' := mem_filter.mp hn
    refine pushBack_of_ne r.nodes e (fun h => hp (h ▸ hn'.1)) fun h => ?_
    have hb₁ := (mem_filter.mp (hlast n h)).2
    simp_all
  · intro n hn
    have hne : n ≠ p := fun h => hn (by simp [h])
    have hnm : n ∉ moved := fun h => hn (by simp [h])
    rw [← hr.unmoved n hnm]
    refine pushBack_of_ne r.nodes e hne fun h => hnm ?_
    exact mem_of_mem_filter (hlast n h)
  · intro n
    grind [nodeEntry_eq_some, payload_pushBack_self, payload_pushBack_of_ne, hr.payload]

/-- One chain is moved. -/
theorem RehashInv.moveChain (hT : TableInv t ch) (hpos : 0 < newNBuckets) {l : List NodeId} :
    ∀ {moved : List NodeId} {r : Rehash} {q cur : Option NodeId} {fuel : ℕ},
      RehashInv t newNBuckets moved r → (∀ n ∈ moved, (t.nodes n).isSome) →
      (moved ++ l).Nodup → IsSegment t.nodes q cur l none → l.length ≤ fuel →
      RehashInv t newNBuckets (moved ++ l) (t.moveChain newNBuckets fuel r cur) := by
  induction l with
  | nil =>
    intro moved r q cur fuel hr _ _ hs _
    have hcur : cur = none := hs
    subst hcur
    cases fuel <;> simpa [NameTree.moveChain] using hr
  | cons p l ih =>
    intro moved r q cur fuel hr hmoved hnodup hs hf
    obtain ⟨hcur, c, hc, -, hrest⟩ := hs
    subst hcur
    rcases fuel with _ | fuel
    · simp at hf
    have hp : p ∉ moved := by grind
    obtain ⟨E, hE, -⟩ := hT.exists_nodeEntry hc
    -- the successor is read from a node that has not been moved yet
    have hread : (r.nodes p).bind Cell.next = c.next := by
      rw [hr.unmoved p hp, hc]
      rfl
    have hr' := hr.relink hT hpos hmoved (nodup_append.mp hnodup).1 hp hE
    have hmoved' : ∀ n ∈ moved ++ [p], (t.nodes n).isSome := by
      intro n hn
      grind
    have happ : moved ++ p :: l = (moved ++ [p]) ++ l := by simp
    rw [happ] at hnodup ⊢
    simp only [NameTree.moveChain, hread]
    exact ih hr' hmoved' hnodup hrest (by simpa using hf)

/-- All nodes of the first `k` buckets, in the order of the outer loop. -/
def oldOrder (ch : ℕ → List NodeId) (k : ℕ) : List NodeId :=
  (range k).flatMap ch

/-- One bucket more. -/
theorem oldOrder_succ (ch : ℕ → List NodeId) (k : ℕ) :
    oldOrder ch (k + 1) = oldOrder ch k ++ ch k := by
  simp [oldOrder, range_succ]

variable {k : ℕ}

/-- The nodes of the first buckets. -/
theorem mem_oldOrder : n ∈ oldOrder ch k ↔ ∃ b < k, n ∈ ch b := by
  simp [oldOrder]

/-- No node is moved twice. -/
theorem TableInv.nodup_oldOrder (hT : TableInv t ch) (hk : k ≤ t.nBuckets) :
    (oldOrder ch k).Nodup := by
  induction k with
  | zero => simp [oldOrder]
  | succ k ih =>
    rw [oldOrder_succ]
    refine nodup_append.mpr ⟨ih (by omega), hT.nodup k (by omega), ?_⟩
    intro n hn m hm hnm
    subst hnm
    obtain ⟨b, hb, hnb⟩ := mem_oldOrder.mp hn
    have := hT.chain_disjoint (by omega) (by omega) hnb hm
    omega

/-- The nodes that are moved are there. -/
theorem TableInv.isSome_of_mem_oldOrder (hT : TableInv t ch) (hk : k ≤ t.nBuckets)
    (hn : n ∈ oldOrder ch k) : (t.nodes n).isSome := by
  obtain ⟨b, hb, hnb⟩ := mem_oldOrder.mp hn
  obtain ⟨c, hc⟩ := (hT.isChain b (by omega)).exists_cell hnb
  simp [hc]

/-- The state of `resize` after the first `k` old buckets. -/
def rehashUpTo (t : NameTree) (newNBuckets k : ℕ) : Rehash :=
  (range k).foldl (fun r i => t.moveChain newNBuckets t.nextNode r (t.bucket i))
    ⟨t.nodes, replicate newNBuckets none⟩

/-- The first buckets are moved. -/
theorem rehashInv_upTo (hT : TableInv t ch) (hpos : 0 < newNBuckets) (hk : k ≤ t.nBuckets) :
    RehashInv t newNBuckets (oldOrder ch k) (t.rehashUpTo newNBuckets k) := by
  induction k with
  | zero => exact rehashInv_start t newNBuckets
  | succ k ih =>
    have hkb : k < t.nBuckets := by omega
    have hstep : t.rehashUpTo newNBuckets (k + 1) =
        t.moveChain newNBuckets t.nextNode (t.rehashUpTo newNBuckets k) (t.bucket k) := by
      simp [rehashUpTo, range_succ]
    rw [hstep, oldOrder_succ]
    refine (ih (by omega)).moveChain hT hpos (q := none) ?_ ?_ (hT.isChain k hkb)
      (hT.length_chain_le hkb)
    · intro n hn
      exact hT.isSome_of_mem_oldOrder (by omega) hn
    · rw [← oldOrder_succ]
      exact hT.nodup_oldOrder hk

/-- The chains after a resize. -/
def resizedChain (t : NameTree) (ch : ℕ → List NodeId) (newNBuckets : ℕ) : ℕ → List NodeId :=
  t.newChain newNBuckets (oldOrder ch t.nBuckets)

theorem resize_nodes (t : NameTree) (newNBuckets : ℕ) :
    (t.resize newNBuckets).nodes = (t.rehashUpTo newNBuckets t.nBuckets).nodes := rfl

theorem resize_bucket (t : NameTree) (newNBuckets b : ℕ) : (t.resize newNBuckets).bucket b =
      (t.rehashUpTo newNBuckets t.nBuckets).newBuckets.getD b none := rfl

section

variable (hT : TableInv t ch)

include hT

/-- The nodes keep their entries. -/
theorem nodeEntry_resize (hpos : 0 < newNBuckets) (n : NodeId) :
    (t.resize newNBuckets).nodeEntry n = t.nodeEntry n := by
  have hentries : (t.resize newNBuckets).entries = t.entries := rfl
  exact nodeEntry_congr hentries ((rehashInv_upTo hT hpos le_rfl).payload n)

/-- The live entries stay. -/
theorem live_resize (hpos : 0 < newNBuckets) (e : EntryId) (E : Entry) :
    (t.resize newNBuckets).Live e E ↔ t.Live e E := by
  unfold Live
  rw [nodeEntry_resize hT hpos]

/-- The new chains. -/
theorem isChain_resize {b : ℕ} (hb : b < newNBuckets) :
    IsChain (t.resize newNBuckets).nodes ((t.resize newNBuckets).bucket b)
      (resizedChain t ch newNBuckets b) := by
  rw [resize_nodes, resize_bucket]
  exact (rehashInv_upTo hT (by omega) le_rfl).isChain b hb

/-- The new chains have the nodes of the new locations. -/
theorem mem_resizedChain {b : ℕ} :
    n ∈ resizedChain t ch newNBuckets b ↔
      ∃ e E, t.nodeEntry n = some (e, E) ∧ narrowLocation E.hash newNBuckets = b := by
  unfold resizedChain newChain
  rw [mem_filter, mem_oldOrder]
  constructor
  · grind [hT.mem_chain, newLocation_eq]
  · rintro ⟨e, E, hE, hloc⟩
    refine ⟨⟨t.location E.hash, hT.location_lt E.hash, ?_⟩, ?_⟩
    all_goals grind [hT.mem_chain, hT.location_lt, newLocation_eq]

/-- The hash table stays in order after a safe resize. -/
theorem tableInv_resize (hok : ResizeOk t newNBuckets) :
    TableInv (t.resize newNBuckets) (resizedChain t ch newNBuckets) := by
  obtain ⟨hpos, hall⟩ := hok
  have hagree := hT.forallLive_iff.mp hall
  have hr := rehashInv_upTo hT hpos le_rfl
  have hsome : ∀ n, ((t.resize newNBuckets).nodes n).isSome = (t.nodes n).isSome := by
    intro n
    have := congrArg Option.isSome (hr.payload n)
    simpa [resize_nodes] using this
  constructor
  · exact hpos
  · exact hr.length_eq
  · intro b hb
    exact isChain_resize hT hb
  · intro b _
    exact nodup_newChain (hT.nodup_oldOrder le_rfl) b
  · intro b _ n
    rw [mem_resizedChain hT, nodeEntry_resize hT hpos]
    constructor
    · rintro ⟨e, E, hE, hloc⟩
      exact ⟨e, E, hE, by rw [← hloc, hagree e E (hT.live_of_nodeEntry hE)]; rfl⟩
    · rintro ⟨e, E, hE, hloc⟩
      exact ⟨e, E, hE, by rw [hagree e E (hT.live_of_nodeEntry hE)]; exact hloc⟩
  · intro n hn
    have := hsome n
    rw [hT.node_fresh n hn] at this
    simpa using this
  · exact hT.entry_fresh
  · intro n c hc
    obtain ⟨c₀, hc₀⟩ : ∃ c₀, t.nodes n = some c₀ := by
      rw [← Option.isSome_iff_exists, ← hsome n, hc]
      rfl
    have hpay : c.payload = c₀.payload := by
      have := hr.payload n
      rw [← resize_nodes, hc, hc₀] at this
      simpa using this
    rw [hpay]
    exact hT.entry_node n c₀ hc₀
  · have hfilter : ((Finset.range t.nextNode).filter fun n =>
        ((t.resize newNBuckets).nodes n).isSome) =
        (Finset.range t.nextNode).filter fun n => (t.nodes n).isSome := by
      refine Finset.filter_congr fun n _ => ?_
      rw [hsome n]
    calc (t.resize newNBuckets).nItems = t.nItems := rfl
      _ = _ := hT.nItems_eq
      _ = _ := by rw [← hfilter]; rfl

end

/-- A safe resize keeps the invariant. -/
theorem inv_resize (h : Inv t) (hok : ResizeOk t newNBuckets) : Inv (t.resize newNBuckets) := by
  obtain ⟨⟨ch, hT⟩, htree⟩ := h
  refine ⟨⟨_, tableInv_resize hT hok⟩, htree.congr ?_ ?_⟩
  · intro e E hE
    exact ⟨E, (live_resize hT hok.1 e E).mp hE, SameTree.refl E⟩
  · intro e E hE
    exact ⟨E, (live_resize hT hok.1 e E).mpr hE, SameTree.refl E⟩

end IcnDemo.NameTree
