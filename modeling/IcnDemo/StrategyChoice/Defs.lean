import IcnDemo.NameTree.Enumerate
import IcnDemo.Lib.SortedTable
import IcnDemo.Pit.Match

/-!
# The Strategy Choice table

A Strategy Choice entry hangs off a name tree entry and says which strategy is in force under its
prefix, as far as no longer prefix has an entry of its own.  PIT entries, their records and
measurements entries carry information that belongs to the strategy in force (`StrategyInfoHost`);
the table clears it where a change of an entry puts another strategy in force.

An operation that follows a null pointer is `none`.
-/

namespace IcnDemo

namespace StrategyChoice

/-- Address of a strategy. -/
abbrev StrategyId := ℕ

/-- Address of a Strategy Choice entry. -/
abbrev ChoiceId := ℕ

/-- `strategy_choice::Entry`.  Its prefix has the octets that it had when the entry was made. -/
structure Entry where
  namePrefix : KeptName
  strategy : Option StrategyId
  nameTreeEntry : Option NameTree.EntryId
deriving DecidableEq, Repr

/-- The objects that are `StrategyInfoHost`s. -/
inductive Host where
  | pit (p : Pit.EntryId)
  | inRecord (p : Pit.EntryId) (face : FaceRef)
  | outRecord (p : Pit.EntryId) (face : FaceRef)
  | measurements (m : ℕ)
deriving DecidableEq, Repr

/-- `name_tree::Entry::getStrategyChoiceEntry` is not null. -/
def hasChoice (E : NameTree.Entry) : Bool :=
  E.attached.strategyChoiceEntry.isSome

end StrategyChoice

open StrategyChoice

/-- The tables over one name tree.  The strategies are kept in ascending order of their names;
`info` is the information that each host carries. -/
structure Tables where
  pit : Pit
  choices : ChoiceId → Option StrategyChoice.Entry
  nextChoice : ChoiceId
  measurements : ℕ → Option NameTree.EntryId
  nextMeasurements : ℕ
  instances : List (Name × StrategyId)
  info : Host → List ℕ

namespace Tables

variable (s : Tables) (e : NameTree.EntryId) (q : KeptName)

/-- The name tree of the tables. -/
def nameTree : NameTree :=
  s.pit.nameTree

/-- Put another name tree in the place of the old one. -/
def withTree (t : NameTree) : Tables :=
  { s with pit := { s.pit with nameTree := t } }

/-! ### Strategies -/

/-- `Strategy::getName`. -/
def nameOf (strategy : StrategyId) : Name :=
  ((s.instances.find? fun i => i.2 == strategy).map Prod.fst).getD []

/-- The loop of `StrategyChoice::getStrategy` over the strategies from the lower bound on. -/
def getStrategyLoop (strategyName : Name) :
    Option StrategyId → List (Name × StrategyId) → Option StrategyId
  | candidate, [] => candidate
  | candidate, i :: rest =>
    if Name.isPrefixOf strategyName i.1 then
      if i.1.length = strategyName.length then some i.2
      else if i.1.length = strategyName.length + 1 then getStrategyLoop strategyName (some i.2) rest
      else getStrategyLoop strategyName candidate rest
    else candidate

variable (strategyName : Name) (c : ChoiceId)

/-- `StrategyChoice::getStrategy`. -/
def getStrategy : Option StrategyId :=
  getStrategyLoop strategyName none (s.instances.drop
    (SortedTable.lowerBound (fun i => i.1.compare strategyName == .lt) s.instances))

/-- `StrategyChoice::install`; a strategy with a name that is taken is not installed. -/
def install (name : Name) (strategy : StrategyId) : Tables :=
  if s.instances.any fun i => i.1.compare name == .eq then s
  else
    let pos := SortedTable.lowerBound (fun i => i.1.compare name == .lt) s.instances
    { s with
      instances := s.instances.take pos ++ (name, strategy) :: s.instances.drop pos }

/-- The strategy of the Strategy Choice entry at a name tree entry. -/
def strategyAt : Option StrategyId :=
  ((s.nameTree.entries e).bind fun E => E.attached.strategyChoiceEntry).bind fun c =>
    (s.choices c).bind Entry.strategy

/-- `StrategyChoice::findEffectiveStrategy` on a name. -/
def findEffectiveStrategy : Option StrategyId :=
  (s.nameTree.findLongestPrefixMatch q hasChoice).bind s.strategyAt

/-! ### Clearing -/

/-- The hosts at a PIT entry. -/
def pitHosts (p : Pit.EntryId) : List Host :=
  .pit p :: match s.pit.entries p with
    | none => []
    | some P => (P.inRecords.map fun r => .inRecord p r.face) ++
        P.outRecords.map fun r => .outRecord p r.face

/-- The hosts at a name tree entry. -/
def hosts (E : NameTree.Entry) : List Host :=
  E.attached.pitEntries.flatMap s.pitHosts ++
    E.attached.measurementsEntry.toList.map Host.measurements

/-- `clearStrategyInfo`. -/
def clearStrategyInfo : Tables :=
  match s.nameTree.entries e with
  | none => s
  | some E => { s with info := fun h => if h ∈ s.hosts E then [] else s.info h }

/-- The selector of `changeStrategy`: entries under `root` that no other Strategy Choice entry
covers. -/
def covered (root : Option NameTree.EntryId) : NameTree.EntrySubTreeSelector := fun e E =>
  if some e = root then (true, true) else if hasChoice E then (false, false) else (true, true)

/-- `StrategyChoice::changeStrategy`. -/
def changeStrategy (oldStrategy newStrategy : StrategyId) : Tables :=
  if oldStrategy = newStrategy then s
  else
    match s.choices c with
    | none => s
    | some C =>
      (s.nameTree.partialEnumerate C.namePrefix (covered C.nameTreeEntry)).foldl clearStrategyInfo s

/-! ### Insertion and erasure -/

/-- `strategy_choice::Entry::setStrategy`. -/
def setStrategy (strategy : StrategyId) : Tables :=
  { s with
    choices := Function.update s.choices c
      ((s.choices c).map fun C => { C with strategy := some strategy }) }

/-- Create a Strategy Choice entry and attach it to a name tree entry. -/
def attachChoice : Tables :=
  { s.withTree (s.nameTree.modifyAttached e fun a =>
      { a with strategyChoiceEntry := some s.nextChoice }) with
    choices := Function.update s.choices s.nextChoice (some ⟨q, none, some e⟩)
    nextChoice := s.nextChoice + 1 }

/-- Take a Strategy Choice entry off its name tree entry. -/
def detachChoice : Tables :=
  { s.withTree (s.nameTree.modifyAttached e fun a => { a with strategyChoiceEntry := none }) with
    choices := Function.update s.choices c
      ((s.choices c).map fun C => { C with nameTreeEntry := none }) }

/-- `StrategyChoice::insert` at a name tree entry, for a strategy that is installed. -/
def insertAt (E : NameTree.Entry) (q : KeptName) (strategy : StrategyId) : Option Tables :=
  match E.attached.strategyChoiceEntry with
  | some c =>
    match (s.choices c).bind Entry.strategy with
    | none => none
    | some old =>
      if Name.equals (s.nameOf old) (s.nameOf strategy) then some s
      else some ((s.changeStrategy c old strategy).setStrategy c strategy)
  | none =>
    match s.findEffectiveStrategy q with
    | none => none
    | some old =>
      some (((s.attachChoice e q).changeStrategy s.nextChoice old strategy).setStrategy
        s.nextChoice strategy)

/-- `StrategyChoice::insert`. -/
def insertChoice : Option Tables :=
  match s.getStrategy strategyName with
  | none => some s
  | some strategy =>
    let r := s.nameTree.lookup q.name
    match r.2.bind fun e => (r.1.entries e).map fun E => (e, E) with
    | none => none
    | some (e, E) => (s.withTree r.1).insertAt e E q strategy

/-- `StrategyChoice::erase`. -/
def eraseChoice : Option Tables :=
  match s.nameTree.findExactMatch q with
  | none => some s
  | some e =>
    match (s.nameTree.entries e).bind fun E => E.attached.strategyChoiceEntry with
    | none => some s
    | some c =>
      match (s.choices c).bind Entry.strategy, s.findEffectiveStrategy q.name.dropLast with
      | some old, some parent =>
        let s := (s.changeStrategy c old parent).detachChoice e c
        some (s.withTree (s.nameTree.eraseEntryIfEmpty e).1)
      | _, _ => none

/-- The constructor: `setDefaultStrategy` on fresh tables. -/
def create (nBuckets : ℕ) (name : Name) (strategy : StrategyId) : Tables :=
  let s : Tables := ⟨Pit.create nBuckets, fun _ => none, 0, fun _ => none, 0,
    [(name, strategy)], fun _ => []⟩
  let r := s.nameTree.lookup []
  let s := s.withTree r.1
  match r.2 with
  | none => s
  | some e => (s.attachChoice e (Name.encoded [])).setStrategy s.nextChoice strategy

end Tables

end IcnDemo
