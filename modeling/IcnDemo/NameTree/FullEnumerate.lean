import IcnDemo.NameTree.Run
import IcnDemo.Lib.TreeWalk

/-!
# Enumeration of the whole name tree

`fullEnumerate` goes through the buckets.  Its iterator knows only its current entry: it follows the
chain from there, and goes on with the bucket behind the one of the entry's hash.  The loop over the
later buckets counts in an `int`, so that it sees all of them only if their number fits.
-/

namespace IcnDemo.NameTree

open List LinkedChain

/-- A `size_t` as an `int`. -/
def toInt32 (n : ℕ) : ℤ :=
  Int.bmod n (2 ^ 32)

/-- The entries of the chain from a node on. -/
def entriesFrom (t : NameTree) (node : Option NodeId) : List EntryId :=
  (walk t.nodes t.nextNode node).filterMap fun n => (t.nodes n).map Cell.payload

/-- The selector on an address. -/
def accepts (t : NameTree) (entrySelector : EntrySelector) (e : EntryId) : Bool :=
  match t.entries e with
  | none => false
  | some E => entrySelector E

/-- The first entry that `fullEnumerate` finds. -/
def fullBegin (t : NameTree) (entrySelector : EntrySelector) : Option EntryId :=
  (range t.nBuckets).findSome? fun i =>
    (t.entriesFrom (t.bucket i)).find? (t.accepts entrySelector)

/-- The buckets behind a location, as the loop counts them. -/
def bucketsBehind (t : NameTree) (loc : ℕ) : List (Option NodeId) :=
  let first := toInt32 (loc + 1)
  (range (toInt32 t.nBuckets - first).toNat).map fun k : ℕ => t.bucket (first + k).toNat

/-- `const_iterator::operator++` of a full enumeration. -/
def fullNext (t : NameTree) (entrySelector : EntrySelector) (e : EntryId) : Option EntryId :=
  match t.entries e with
  | none => none
  | some E =>
    let rest := t.entriesFrom ((t.nodes E.node).bind Cell.next)
    match rest.find? (t.accepts entrySelector) with
    | some e' => some e'
    | none =>
      -- the iterator stands on the last entry of the chain
      match t.entries (rest.getLastD e) with
      | none => none
      | some L => (t.bucketsBehind (t.location L.hash)).findSome? fun node =>
          (t.entriesFrom node).find? (t.accepts entrySelector)

/-- The entries that a loop over `NameTree::fullEnumerate` meets; no entry is met twice. -/
def fullEnumerate (t : NameTree) (entrySelector : EntrySelector) : List EntryId :=
  TreeWalk.collect (t.fullNext entrySelector) t.nItems (t.fullBegin entrySelector)

variable {t : NameTree} {ch : ℕ → List NodeId}

/-- The entries of some nodes. -/
def payloads (t : NameTree) (ns : List NodeId) : List EntryId :=
  ns.filterMap fun n => (t.nodes n).map Cell.payload

/-- All entries, in the order of the buckets. -/
def allEntries (t : NameTree) (ch : ℕ → List NodeId) : List EntryId :=
  (range t.nBuckets).flatMap fun b => t.payloads (ch b)

namespace TableInv

/-- The entries of a bucket. -/
theorem entriesFrom_bucket (hT : TableInv t ch) {b : ℕ} (hb : b < t.nBuckets) :
    t.entriesFrom (t.bucket b) = t.payloads (ch b) := by
  unfold entriesFrom payloads
  rw [walk_eq_of_isSegment (hT.isChain b hb) (hT.length_chain_le hb)]

variable {e : EntryId}

section

variable (hT : TableInv t ch)

include hT

/-- A bucket has the entries of its hashes. -/
theorem mem_payloads {b : ℕ} (hb : b < t.nBuckets) :
    e ∈ t.payloads (ch b) ↔ ∃ E, t.Live e E ∧ t.location E.hash = b := by
  unfold payloads
  rw [mem_filterMap]
  constructor
  · grind [Option.map_eq_some_iff, hT.exists_nodeEntry, hT.mem_chain]
  · rintro ⟨E, hE, rfl⟩
    obtain ⟨c, hc, hpayload, -⟩ := nodeEntry_eq_some.mp hE
    exact ⟨E.node, hT.mem_chain_of_live hE, by rw [hc, Option.map_some, hpayload]⟩

/-- The buckets together have all live entries. -/
theorem mem_allEntries : e ∈ t.allEntries ch ↔ ∃ E, t.Live e E := by
  unfold allEntries
  rw [mem_flatMap]
  constructor
  · grind [hT.mem_payloads]
  · rintro ⟨E, hE⟩
    have hb := hT.location_lt E.hash
    exact ⟨_, mem_range.mpr hb, (hT.mem_payloads hb).mpr ⟨E, hE, rfl⟩⟩

/-- An entry has one node. -/
theorem payload_injective {n m : NodeId} (hn : (t.nodes n).map Cell.payload = some e)
    (hm : (t.nodes m).map Cell.payload = some e) : n = m := by
  obtain ⟨c, hc, hce⟩ := Option.map_eq_some_iff.mp hn
  obtain ⟨d, hd, hde⟩ := Option.map_eq_some_iff.mp hm
  obtain ⟨E, -, hE, hnode⟩ := hT.exists_nodeEntry hc
  grind [hT.exists_nodeEntry, hE.contents_eq]

/-- The entries of distinct nodes are distinct. -/
theorem nodup_payloads {ns : List NodeId} (hns : ns.Nodup) : (t.payloads ns).Nodup := by
  unfold payloads
  refine hns.filterMap ?_
  intro n m e hn hm
  exact hT.payload_injective hn hm

/-- No entry is in two buckets. -/
theorem nodup_allEntries : (t.allEntries ch).Nodup := by
  unfold allEntries
  rw [nodup_flatMap]
  constructor
  · intro b hb
    exact hT.nodup_payloads (hT.nodup b (mem_range.mp hb))
  refine nodup_range.imp_of_mem ?_
  intro b b' hb hb' hne e he he'
  obtain ⟨E, hE, hloc⟩ := (hT.mem_payloads (mem_range.mp hb)).mp he
  grind [hT.mem_payloads, hE.contents_eq]

/-- The size counts the entries. -/
theorem length_allEntries : (t.allEntries ch).length = t.nItems := by
  obtain ⟨S, hS, hcard⟩ := hT.nItems_eq_card
  rw [hcard, ← toFinset_card_of_nodup hT.nodup_allEntries]
  congr 1
  ext e
  rw [mem_toFinset, hT.mem_allEntries, hS]

/-! ### One move of the iterator -/

/-- The entries of several buckets. -/
theorem flatMap_entriesFrom {bs : List ℕ} (hbs : ∀ b ∈ bs, b < t.nBuckets) :
    (bs.flatMap fun b => t.entriesFrom (t.bucket b)) = bs.flatMap fun b => t.payloads (ch b) :=
  flatMap_congr fun b hb => hT.entriesFrom_bucket (hbs b hb)

/-- The enumeration begins at the first entry that is accepted. -/
theorem fullBegin_eq (entrySelector : EntrySelector) :
    t.fullBegin entrySelector = (t.allEntries ch).find? (t.accepts entrySelector) := by
  unfold fullBegin allEntries
  rw [← hT.flatMap_entriesFrom fun b hb => mem_range.mp hb, find?_flatMap]

end

/-- The buckets behind one, where an `int` can count them. -/
theorem bucketsBehind_eq (hsize : t.nBuckets < 2 ^ 31) {loc : ℕ} (hloc : loc < t.nBuckets) :
    t.bucketsBehind loc = ((range t.nBuckets).drop (loc + 1)).map t.bucket := by
  have hfirst : toInt32 (loc + 1) = (loc + 1 : ℕ) := by
    unfold toInt32
    rw [Int.bmod_eq_of_le] <;> omega
  have hlast : toInt32 t.nBuckets = (t.nBuckets : ℕ) := by
    unfold toInt32
    rw [Int.bmod_eq_of_le] <;> omega
  have hcount : ((t.nBuckets : ℤ) - (loc + 1 : ℕ)).toNat = t.nBuckets - (loc + 1) := by omega
  unfold bucketsBehind
  simp only [hfirst, hlast, hcount]
  refine ext_getElem ?_ ?_
  · rw [length_map, length_map, length_drop, length_range, length_range]
  · intro k hk hk'
    have hat : ((loc + 1 : ℕ) + (k : ℤ)).toNat = loc + 1 + k := by omega
    simp_all

/-- What is behind an entry in its bucket. -/
theorem exists_behind (hT : TableInv t ch) {before after : List EntryId}
    {E : Entry} (hE : t.Live e E) (hall : t.allEntries ch = before ++ e :: after) :
    ∃ rest, t.entriesFrom ((t.nodes E.node).bind Cell.next) = rest ∧
      (∀ x ∈ rest, ∃ X, t.Live x X ∧ t.location X.hash = t.location E.hash) ∧
      after = rest ++ ((range t.nBuckets).drop (t.location E.hash + 1)).flatMap fun b =>
        t.payloads (ch b) := by
  have hb := hT.location_lt E.hash
  obtain ⟨l₁, l₂, hch⟩ := append_of_mem (hT.mem_chain_of_live hE)
  obtain ⟨c, hc, hpayload, -⟩ := nodeEntry_eq_some.mp hE
  obtain ⟨c', hc', -, -, hrest⟩ := IsSegment.cell_of_append (hch ▸ hT.isChain _ hb)
  rw [hc] at hc'
  cases hc'
  have hlength := hT.length_chain_le hb
  rw [hch, length_append, length_cons] at hlength
  have hsplit : t.payloads (ch (t.location E.hash)) = t.payloads l₁ ++ e :: t.payloads l₂ := by
    grind [payloads]
  refine ⟨t.payloads l₂, ?_, ?_, ?_⟩
  · unfold entriesFrom payloads
    rw [hc, Option.bind_some, walk_eq_of_isSegment hrest (by omega)]
  · intro x hx
    refine (hT.mem_payloads hb).mp ?_
    simp_all
  · have hbuckets : range t.nBuckets = (range t.nBuckets).take (t.location E.hash) ++
        t.location E.hash :: (range t.nBuckets).drop (t.location E.hash + 1) := by
      grind [drop_eq_getElem_cons, take_append_drop]
    have hall' : t.allEntries ch = (((range t.nBuckets).take (t.location E.hash)).flatMap
        (fun b => t.payloads (ch b)) ++ t.payloads l₁) ++ e :: (t.payloads l₂ ++
          ((range t.nBuckets).drop (t.location E.hash + 1)).flatMap fun b =>
            t.payloads (ch b)) := by grind [allEntries]
    have hnodup := hT.nodup_allEntries
    rw [hall] at hall' hnodup
    -- the entry occurs once, so that both splittings are the same
    have hfront : e ∉ before := fun hmem =>
      (nodup_append.mp hnodup).2.2 e hmem e (mem_cons_self ..) rfl
    have hback : e ∉ after := (nodup_cons.mp (nodup_append.mp hnodup).2.1).1
    exact ((append_cons_inj_of_notMem hfront hback).mp hall').2.2

variable (hT : TableInv t ch) (hsize : t.nBuckets < 2 ^ 31) (entrySelector : EntrySelector)

include hT hsize

/-- The enumeration goes on to the next entry that is accepted. -/
theorem fullNext_eq {before after : List EntryId} (hall : t.allEntries ch = before ++ e :: after) :
    t.fullNext entrySelector e = after.find? (t.accepts entrySelector) := by
  have hmem : e ∈ t.allEntries ch := hall ▸ mem_append_right _ (mem_cons_self ..)
  obtain ⟨E, hE⟩ := hT.mem_allEntries.mp hmem
  obtain ⟨rest, hrest, hplace, hafter⟩ := hT.exists_behind hE hall
  have hlast : ∃ L, t.entries (rest.getLastD e) = some L ∧
      t.location L.hash = t.location E.hash := by
    rcases hnil : rest with _ | ⟨x, xs⟩
    · exact ⟨E, hE.entry, rfl⟩
    obtain ⟨L, hL, hloc⟩ := hplace (rest.getLastD e) (by
      rw [hnil, getLastD_cons]
      exact getLastD_mem_cons)
    rw [← hnil]
    exact ⟨L, hL.entry, hloc⟩
  obtain ⟨L, hL, hloc⟩ := hlast
  unfold fullNext
  simp only [hE.entry, hrest, hL, hloc]
  rw [hafter, find?_append, ← hT.flatMap_entriesFrom, find?_flatMap,
    bucketsBehind_eq hsize (hT.location_lt E.hash), findSome?_map]
  · rcases rest.find? (t.accepts entrySelector) with _ | x
    · rfl
    · rfl
  · intro b hb
    exact mem_range.mp (mem_of_mem_drop hb)

/-- The loop meets the accepted entries in the order of the buckets, and then the end. -/
theorem collects_fullNext :
    TreeWalk.Collects (t.fullNext entrySelector) (t.fullBegin entrySelector)
      ((t.allEntries ch).filter (t.accepts entrySelector)) := by
  rw [hT.fullBegin_eq]
  refine TreeWalk.collects_find? fun before a after hall => ?_
  exact hT.fullNext_eq hsize entrySelector hall

/-- The full enumeration is the list of the accepted entries in the order of the buckets. -/
theorem fullEnumerate_eq :
    t.fullEnumerate entrySelector = (t.allEntries ch).filter (t.accepts entrySelector) := by
  refine (hT.collects_fullNext hsize entrySelector).collect_eq ?_
  rw [← hT.length_allEntries]
  exact length_filter_le _ _

end TableInv

/-- A live entry is accepted by the selector. -/
theorem Live.accepts_iff {e : EntryId} {E : Entry} (hE : t.Live e E)
    (entrySelector : EntrySelector) :
    t.accepts entrySelector e = true ↔ entrySelector E = true := by
  unfold accepts
  simp only [hE.entry]

/-- The enumeration returns all entries that are accepted. -/
theorem mem_fullEnumerate (h : Inv t) (hsize : t.nBuckets < 2 ^ 31)
    {entrySelector : EntrySelector} {e : EntryId} :
    e ∈ t.fullEnumerate entrySelector ↔ ∃ E, t.Live e E ∧ entrySelector E = true := by
  obtain ⟨⟨ch, hT⟩, -⟩ := h
  rw [hT.fullEnumerate_eq hsize, mem_filter, hT.mem_allEntries]
  constructor
  · rintro ⟨⟨E, hE⟩, hsel⟩
    exact ⟨E, hE, (hE.accepts_iff entrySelector).mp hsel⟩
  · rintro ⟨E, hE, hsel⟩
    exact ⟨⟨E, hE⟩, (hE.accepts_iff entrySelector).mpr hsel⟩

end IcnDemo.NameTree
