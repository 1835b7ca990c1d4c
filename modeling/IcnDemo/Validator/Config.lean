import IcnDemo.Packet
import IcnDemo.Security.Signature

/-!
# The configuration of a validator

A configuration is a tree of sections.  Keys and some of the values are words of a small language
and are compared without regard to case.  The factories below read the filters, the checkers and the
rules out of it, property by property in the order in which they have to stand, and throw at the
first one that is not what they expect.

Regular expressions, certificate files and directories, and the primitives of cryptography are
those of an environment `Env`.  What a file contains may change with time.
-/

namespace IcnDemo.Conf

open Security

/-- A string of the configuration. -/
abbrev Text := List Char

/-- `boost::iequals` in the classic locale. -/
def iequals (a b : Text) : Bool :=
  a.map Char.toUpper == b.map Char.toUpper

/-- The words of the configuration language. -/
inductive Keyword where
  | rule | trustAnchor | id | ruleFor | data | interest | filter | checker
  | type | name | relation | regex | equal | isPrefixOf | isStrictPrefixOf
  | customized | hierarchical | fixedSigner | sigType | keyLocator | signer
  | hyperRelation | kRegex | kExpand | hRelation | pRegex | pExpand
  | rsaSha256 | ecdsaSha256 | sha256
  | file | fileName | base64 | base64String | dir | refresh | any
deriving DecidableEq, Repr

/-- How a word is written. -/
def Keyword.text : Keyword → Text
  | rule => ['r', 'u', 'l', 'e']
  | trustAnchor => ['t', 'r', 'u', 's', 't', '-', 'a', 'n', 'c', 'h', 'o', 'r']
  | id => ['i', 'd']
  | ruleFor => ['f', 'o', 'r']
  | data => ['d', 'a', 't', 'a']
  | interest => ['i', 'n', 't', 'e', 'r', 'e', 's', 't']
  | filter => ['f', 'i', 'l', 't', 'e', 'r']
  | checker => ['c', 'h', 'e', 'c', 'k', 'e', 'r']
  | type => ['t', 'y', 'p', 'e']
  | name => ['n', 'a', 'm', 'e']
  | relation => ['r', 'e', 'l', 'a', 't', 'i', 'o', 'n']
  | regex => ['r', 'e', 'g', 'e', 'x']
  | equal => ['e', 'q', 'u', 'a', 'l']
  | isPrefixOf => ['i', 's', '-', 'p', 'r', 'e', 'f', 'i', 'x', '-', 'o', 'f']
  | isStrictPrefixOf =>
    ['i', 's', '-', 's', 't', 'r', 'i', 'c', 't', '-', 'p', 'r', 'e', 'f', 'i', 'x', '-', 'o', 'f']
  | customized => ['c', 'u', 's', 't', 'o', 'm', 'i', 'z', 'e', 'd']
  | hierarchical => ['h', 'i', 'e', 'r', 'a', 'r', 'c', 'h', 'i', 'c', 'a', 'l']
  | fixedSigner => ['f', 'i', 'x', 'e', 'd', '-', 's', 'i', 'g', 'n', 'e', 'r']
  | sigType => ['s', 'i', 'g', '-', 't', 'y', 'p', 'e']
  | keyLocator => ['k', 'e', 'y', '-', 'l', 'o', 'c', 'a', 't', 'o', 'r']
  | signer => ['s', 'i', 'g', 'n', 'e', 'r']
  | hyperRelation => ['h', 'y', 'p', 'e', 'r', '-', 'r', 'e', 'l', 'a', 't', 'i', 'o', 'n']
  | kRegex => ['k', '-', 'r', 'e', 'g', 'e', 'x']
  | kExpand => ['k', '-', 'e', 'x', 'p', 'a', 'n', 'd']
  | hRelation => ['h', '-', 'r', 'e', 'l', 'a', 't', 'i', 'o', 'n']
  | pRegex => ['p', '-', 'r', 'e', 'g', 'e', 'x']
  | pExpand => ['p', '-', 'e', 'x', 'p', 'a', 'n', 'd']
  | rsaSha256 => ['r', 's', 'a', '-', 's', 'h', 'a', '2', '5', '6']
  | ecdsaSha256 => ['e', 'c', 'd', 's', 'a', '-', 's', 'h', 'a', '2', '5', '6']
  | sha256 => ['s', 'h', 'a', '2', '5', '6']
  | file => ['f', 'i', 'l', 'e']
  | fileName => ['f', 'i', 'l', 'e', '-', 'n', 'a', 'm', 'e']
  | base64 => ['b', 'a', 's', 'e', '6', '4']
  | base64String => ['b', 'a', 's', 'e', '6', '4', '-', 's', 't', 'r', 'i', 'n', 'g']
  | dir => ['d', 'i', 'r']
  | refresh => ['r', 'e', 'f', 'r', 'e', 's', 'h']
  | any => ['a', 'n', 'y']

/-- A text is a word of the language. -/
def Keyword.is (k : Keyword) (t : Text) : Bool :=
  iequals t k.text

/-- A section of the configuration: its own value, and the sections inside with their keys. -/
inductive ConfigSection where
  | mk (data : Text) (children : List (Text × ConfigSection))

namespace ConfigSection

/-- The text of a section. -/
def data : ConfigSection → Text
  | mk data _ => data

/-- The subsections of a section. -/
def children : ConfigSection → List (Text × ConfigSection)
  | mk _ children => children

/-- A section that holds a value only. -/
def leaf (data : Text) : ConfigSection :=
  .mk data []

end ConfigSection

/-- What is left of a section while it is read. -/
abbrev Properties := List (Text × ConfigSection)

/-- The errors of a configuration, with the path of the field that they name. -/
inductive Error where
  | expect (path : List Keyword)
  | expectMore (path : List Keyword)
  | expectEnd (path : List Keyword)
  | unsupported (path : List Keyword) (value : Text)
  | wrong (path : List Keyword) (value : Text)
  | wrongProperties (path : List Keyword)
  | cannotRead (path : List Keyword) (value : Text)
  | inRule (ruleId : Text) (error : Error)
  | noChecker (ruleId : Text)
  | strongSignatureOnly
  | badNumber (value : Text)
  | wrongTimeUnit (unit : Char)
  | noData (filename : Text)
  | unrecognizedSection (filename sectionName : Text)
  | directoryThrows (path : Text)
deriving DecidableEq, Repr

/-- A certificate that can sign: its name and its public key. -/
structure Cert (κ : Type) where
  name : Name
  key : κ
deriving DecidableEq, Repr

namespace Cert

variable {κ : Type}

/-- Certificates are looked up by their name without the version. -/
def index (c : Cert κ) : Name :=
  c.name.dropLast

/-- What a map from names has after the certificates were assigned one after the other. -/
def find (certs : List (Cert κ)) (n : Name) : Option (Cert κ) :=
  certs.reverse.find? fun c => c.index == n

end Cert

/-- The certificates that reading a directory yields, and whether an exception ended it. -/
structure Listing (κ : Type) where
  certs : List (Cert κ)
  throws : Bool
deriving DecidableEq, Repr

/-- What `IdentityCertificate` makes of the content of a Data. -/
inductive Decoded (κ : Type) where
  | ok (key : κ) (notBefore notAfter : ℤ)
  | tlvError
  | otherException
deriving DecidableEq, Repr

/-- What the validator is given by other parts of the library and by the system: names and regular
expressions, files, and the primitives of cryptography.  Files are read at a time, relative to the
name of the configuration file. -/
structure Env (κ ρ : Type) where
  parseName : Text → Option Name
  compile : Text → Text → Option ρ
  matchName : ρ → Name → Bool
  expand : ρ → Name → Option Name
  certFile : ℤ → Text → Text → Option (Cert κ)
  certText : Text → Option (Cert κ)
  directory : ℤ → Text → Listing κ
  absolute : Text → Text → Text
  lexicalCast : Text → Option UInt32
  sha256 : List UInt8 → List UInt8
  verify : List UInt8 → Signature → κ → Bool
  decodeCertificate : List UInt8 → Decoded κ

/-- The relations between names of `RelationNameFilter` and of `KeyLocatorChecker`. -/
inductive Relation where
  | equal
  | isPrefixOf
  | isStrictPrefixOf
deriving DecidableEq, Repr

/-- `Filter`. -/
inductive Filter (ρ : Type) where
  | relation (name : Name) (relation : Relation)
  | regex (regex : ρ)

/-- `KeyLocatorChecker`. -/
inductive KeyLocatorChecker (ρ : Type) where
  | relation (name : Name) (relation : Relation)
  | regex (regex : ρ)
  | hyper (hyperPRegex hyperKRegex : ρ) (hyperRelation : Relation)

/-- `Checker`; a `HierarchicalChecker` is a `CustomizedChecker`. -/
inductive Checker (κ ρ : Type) where
  | customized (sigType : ℕ) (keyLocatorChecker : KeyLocatorChecker ρ)
  | fixedSigner (sigType : ℕ) (signers : List (Cert κ))

/-- `Rule`. -/
structure Rule (κ ρ : Type) where
  id : Text
  filters : List (Filter ρ)
  checkers : List (Checker κ ρ)

variable {κ ρ : Type}

/-! ### Reading properties -/

/-- The next property has to be the one called `k`. -/
def expect (k : Keyword) (error : Error) : Properties → Except Error (ConfigSection × Properties)
  | [] => .error error
  | (key, value) :: rest => if k.is key then .ok (value, rest) else .error error

/-- No property may be left. -/
def expectEnd (path : List Keyword) : Properties → Except Error Unit
  | [] => .ok ()
  | _ :: _ => .error (.expectEnd path)

/-- A value, or an exception. -/
def orThrow {α : Type} (error : Error) : Option α → Except Error α
  | none => .error error
  | some a => .ok a

/-- A relation by its name. -/
def Relation.parse (path : List Keyword) (t : Text) : Except Error Relation :=
  if Keyword.equal.is t then .ok .equal
  else if Keyword.isPrefixOf.is t then .ok .isPrefixOf
  else if Keyword.isStrictPrefixOf.is t then .ok .isStrictPrefixOf
  else .error (.unsupported path t)

variable (env : Env κ ρ) (now : ℤ) (rest : Properties) (s : ConfigSection)

/-- `FilterFactory::createNameFilter`, on what follows the type. -/
def createNameFilter : Properties → Except Error (Filter ρ)
  | [] => .error (.expectMore [.filter])
  | (key, value) :: rest =>
    if Keyword.name.is key then do
      let name ← orThrow (.wrong [.filter, .name] value.data) (env.parseName value.data)
      let (relationString, rest) ← expect .relation (.expect [.filter, .relation]) rest
      let relation ← Relation.parse [.relation] relationString.data
      expectEnd [.filter] rest
      return .relation name relation
    else if Keyword.regex.is key then do
      expectEnd [.filter] rest
      let regex ← orThrow (.wrong [.filter, .regex] value.data) (env.compile value.data [])
      return .regex regex
    else .error (.wrongProperties [.filter])

/-- `FilterFactory::create`. -/
def createFilter : Except Error (Filter ρ) := do
  let (type, rest) ← expect .type (.expect [.filter, .type]) s.children
  if Keyword.name.is type.data then createNameFilter env rest
  else .error (.unsupported [.filter, .type] type.data)

/-- The part of `createKeyLocatorNameChecker` that reads a hyper-relation. -/
def createHyperChecker : Except Error (KeyLocatorChecker ρ) := do
  let path : List Keyword := [.checker, .keyLocator, .hyperRelation]
  let (kRegex, rest) ← expect .kRegex (.expect (path ++ [.kRegex])) s.children
  let (kExpand, rest) ← expect .kExpand (.expect (path ++ [.kExpand])) rest
  let (hRelation, rest) ← expect .hRelation (.expect (path ++ [.hRelation])) rest
  let (pRegex, rest) ← expect .pRegex (.expect (path ++ [.pRegex])) rest
  let (pExpand, rest) ← expect .pExpand (.expect (path ++ [.pExpand])) rest
  expectEnd path rest
  let relation ← Relation.parse (path ++ [.hRelation]) hRelation.data
  let p ← orThrow (.wrong path pRegex.data) (env.compile pRegex.data pExpand.data)
  let k ← orThrow (.wrong path kRegex.data) (env.compile kRegex.data kExpand.data)
  return .hyper p k relation

/-- `KeyLocatorCheckerFactory::createKeyLocatorNameChecker`.  What follows a hyper-relation is not
looked at. -/
def createKeyLocatorNameChecker : Properties → Except Error (KeyLocatorChecker ρ)
  | [] => .error (.expectMore [.checker, .keyLocator])
  | (key, value) :: rest =>
    let path : List Keyword := [.checker, .keyLocator]
    if Keyword.name.is key then do
      let name ← orThrow (.wrong (path ++ [.name]) value.data) (env.parseName value.data)
      let (relationString, rest) ← expect .relation (.expect (path ++ [.relation])) rest
      let relation ← Relation.parse [.relation] relationString.data
      expectEnd path rest
      return .relation name relation
    else if Keyword.regex.is key then do
      expectEnd path rest
      let regex ← orThrow (.wrong (path ++ [.regex]) value.data) (env.compile value.data [])
      return .regex regex
    else if Keyword.hyperRelation.is key then createHyperChecker env value
    else .error (.unsupported path key)

/-- `KeyLocatorCheckerFactory::create`. -/
def createKeyLocatorChecker : Except Error (KeyLocatorChecker ρ) := do
  let path : List Keyword := [.checker, .keyLocator, .type]
  let (type, rest) ← expect .type (.expect path) s.children
  if Keyword.name.is type.data then createKeyLocatorNameChecker env rest
  else .error (.unsupported path type.data)

/-- `CheckerFactory::getSigType`. -/
def getSigType (t : Text) : Except Error ℕ :=
  if Keyword.rsaSha256.is t then .ok signatureSha256WithRsa
  else if Keyword.ecdsaSha256.is t then .ok signatureSha256WithEcdsa
  else if Keyword.sha256.is t then .ok digestSha256
  else .error (.unsupported [.sigType] t)

/-- A certificate in a file or in a string, as `getSigner` and `onConfigTrustAnchor` read it. -/
def readCert (filename : Text) (path : List Keyword)
    (inFile : Bool) (rest : Properties) : Except Error (Cert κ) := do
  let key : Keyword := if inFile then .fileName else .base64String
  let (value, rest) ← expect key (.expect (path ++ [key])) rest
  expectEnd path rest
  orThrow (.cannotRead path value.data)
    (if inFile then env.certFile now filename value.data else env.certText value.data)

/-- `CheckerFactory::getSigner`. -/
def getSigner (filename : Text) (s : ConfigSection) : Except Error (Cert κ) := do
  let path : List Keyword := [.checker, .signer]
  let (type, rest) ← expect .type (.expect (path ++ [.type])) s.children
  if Keyword.file.is type.data then readCert env now filename path true rest
  else if Keyword.base64.is type.data then readCert env now filename path false rest
  else .error (.unsupported (path ++ [.type]) type.data)

/-- The signers of a `FixedSignerChecker`, one after the other. -/
def getSigners (env : Env κ ρ) (now : ℤ) (filename : Text) :
    Properties → Except Error (List (Cert κ))
  | [] => .ok []
  | (key, value) :: rest =>
    if Keyword.signer.is key then do
      let signer ← getSigner env now filename value
      let signers ← getSigners env now filename rest
      return signer :: signers
    else .error (.wrong [.checker, .signer] key)

/-- `CheckerFactory::createCustomizedChecker`. -/
def createCustomizedChecker : Except Error (Checker κ ρ) := do
  let (sigType, rest) ← expect .sigType (.expect [.checker, .sigType]) rest
  let (keyLocator, rest) ← expect .keyLocator (.expect [.checker, .keyLocator]) rest
  let keyLocatorChecker ← createKeyLocatorChecker env keyLocator
  expectEnd [.checker] rest
  let sigType ← getSigType sigType.data
  return .customized sigType keyLocatorChecker

/-- `CheckerFactory::createHierarchicalChecker`, with the regular expressions of
`HierarchicalChecker`. -/
def createHierarchicalChecker : Except Error (Checker κ ρ) := do
  let (sigType, rest) ← expect .sigType (.expect [.checker, .sigType]) rest
  expectEnd [.checker] rest
  let sigType ← getSigType sigType.data
  let p ← orThrow (.wrong [.checker] []) (env.compile "^(<>*)$".toList "\\1".toList)
  let k ← orThrow (.wrong [.checker] [])
    (env.compile "^([^<KEY>]*)<KEY>(<>*)<ksk-.*><ID-CERT>$".toList "\\1\\2".toList)
  return .customized sigType (.hyper p k .isPrefixOf)

/-- `CheckerFactory::createFixedSignerChecker`. -/
def createFixedSignerChecker (filename : Text) (rest : Properties) :
    Except Error (Checker κ ρ) := do
  let (sigType, rest) ← expect .sigType (.expect [.checker, .sigType]) rest
  let signers ← getSigners env now filename rest
  let sigType ← getSigType sigType.data
  if sigType ≠ signatureSha256WithRsa ∧ sigType ≠ signatureSha256WithEcdsa then
    throw .strongSignatureOnly
  return .fixedSigner sigType signers

/-- `CheckerFactory::create`. -/
def createChecker (filename : Text) (s : ConfigSection) : Except Error (Checker κ ρ) := do
  let (type, rest) ← expect .type (.expect [.checker, .type]) s.children
  if Keyword.customized.is type.data then createCustomizedChecker env rest
  else if Keyword.hierarchical.is type.data then createHierarchicalChecker env rest
  else if Keyword.fixedSigner.is type.data then createFixedSignerChecker env now filename rest
  else .error (.unsupported [.checker, .type] type.data)

/-- The filters of a rule end at the first checker. -/
def readFilters (env : Env κ ρ) (ruleId : Text) :
    Properties → Except Error (List (Filter ρ) × Properties)
  | [] => .ok ([], [])
  | (key, value) :: rest =>
    if Keyword.filter.is key then do
      let filter ← createFilter env value
      let (filters, rest) ← readFilters env ruleId rest
      return (filter :: filters, rest)
    else if Keyword.checker.is key then .ok ([], (key, value) :: rest)
    else .error (.inRule ruleId (.expect [.rule, .filter]))

/-- The checkers of a rule, to its end. -/
def readCheckers (env : Env κ ρ) (now : ℤ) (filename ruleId : Text) :
    Properties → Except Error (List (Checker κ ρ))
  | [] => .ok []
  | (key, value) :: rest =>
    if Keyword.checker.is key then do
      let checker ← createChecker env now filename value
      let checkers ← readCheckers env now filename ruleId rest
      return checker :: checkers
    else .error (.inRule ruleId (.expect [.rule, .checker]))

/-- `rule.for`: whether the rule is one for Data. -/
def readUsage (ruleId t : Text) : Except Error Bool :=
  if Keyword.data.is t then .ok true
  else if Keyword.interest.is t then .ok false
  else .error (.inRule ruleId (.unsupported [.rule, .ruleFor] t))

/-- The part of `ValidatorConfig::onConfigRule` that reads: whether the rule is for Data, and the
rule. -/
def readRule (filename : Text) (s : ConfigSection) : Except Error (Bool × Rule κ ρ) := do
  let (ruleId, rest) ← expect .id (.expect [.rule, .id]) s.children
  let ruleId := ruleId.data
  let (usage, rest) ← expect .ruleFor (.inRule ruleId (.expect [.rule, .ruleFor])) rest
  let isForData ← readUsage ruleId usage.data
  let (filters, rest) ← readFilters env ruleId rest
  let checkers ← readCheckers env now filename ruleId rest
  if checkers.isEmpty then throw (.noChecker ruleId)
  return (isForData, ⟨ruleId, filters, checkers⟩)

/-- `ValidatorConfig::getDefaultRefreshPeriod`, in nanoseconds. -/
def defaultRefreshPeriod : ℤ := 3600 * 10 ^ 9

/-- `ValidatorConfig::getRefreshPeriod`, in nanoseconds.  The unit of a period of zero is not looked
at.  Hours and minutes are counted in 32 bits, seconds and nanoseconds in 64 bits, all with sign. -/
def getRefreshPeriod (t : Text) : Except Error ℤ := do
  let number ← orThrow (.badNumber t.dropLast) (env.lexicalCast t.dropLast)
  if number = 0 then return defaultRefreshPeriod
  match t.getLast? with
  | some 'h' => return wrap64 (number.toInt32.toInt * (3600 * 10 ^ 9))
  | some 'm' => return wrap64 (number.toInt32.toInt * (60 * 10 ^ 9))
  | some 's' => return wrap64 (number.toNat * 10 ^ 9)
  | some unit => throw (.wrongTimeUnit unit)
  | none => throw (.badNumber t)

end IcnDemo.Conf
