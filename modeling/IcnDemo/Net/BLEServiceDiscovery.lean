import IcnDemo.Lib.Runs

/-!
# Discovery of devices over Bluetooth

`BLEServiceDiscovery` scans for devices, connects to one whose address has a smaller hash code than
its own when a scan ends, and starts again.  `scanActive` is the state of the scanner, and `posted`
counts the runnables of the handler, which `stop` removes.  Callbacks and runnables run one after
the other.

Only the runnable clears `mScanning`, although `stop`, a broadcast of the GATT server and a failure
end a scan as well.

`address` is what `BluetoothAdapter.getAddress` returns, which need not be the address under which
other devices see this one.  Two devices compare two pairs of texts.
-/

namespace IcnDemo

namespace Ble

/-! ### The model -/

/-- The text of a Bluetooth address. -/
abbrev Address := List Char

/-- `String.hashCode` of a text without surrogates. -/
def hashCode (s : Address) : Int32 :=
  s.foldl (fun h c => 31 * h + Int32.ofNat c.toNat) 0

/-- The values of `mConnectionState`. -/
inductive ConnectionState where
  | disconnected
  | connecting
  | connected
deriving DecidableEq

/-- `BLEServiceDiscovery`, with the state of the scanner, the number of runnables that are posted
and the devices to which connections were initiated. -/
structure BLEServiceDiscovery where
  address : Address
  started : Bool
  mScanning : Bool
  mConnectionState : ConnectionState
  results : List Address
  registered : Bool
  scanActive : Bool
  posted : ℕ
  connects : List Address
deriving DecidableEq

namespace BLEServiceDiscovery

/-- A new object, whose adapter has this address. -/
def create (address : Address) : BLEServiceDiscovery :=
  ⟨address, false, false, .disconnected, [], false, false, 0, []⟩

variable (d : BLEServiceDiscovery)

/-- `stop`. -/
def stop : BLEServiceDiscovery :=
  if d.started then
    { d with started := false, scanActive := false, posted := 0, registered := false }
  else d

/-- `scanLeDevice`. -/
def scanLeDevice : BLEServiceDiscovery :=
  if d.started then
    let d := { d with mConnectionState := .disconnected, posted := d.posted + 1 }
    if d.mConnectionState = .disconnected ∧ d.mScanning = false then
      { d with scanActive := true, mScanning := true }
    else d
  else d

/-- `start`, with Bluetooth enabled. -/
def start : BLEServiceDiscovery :=
  let d := if d.started then d.stop else d
  scanLeDevice
    { d with results := [], mConnectionState := .disconnected, registered := true, started := true }

/-- `connect`, to a device that the adapter knows. -/
def connect (address : Address) : BLEServiceDiscovery :=
  { d with mConnectionState := .connecting, connects := d.connects ++ [address] }

/-- `tryConnection`.  The devices are tried in the order in which they were found, while the order
of a `HashSet` is not specified. -/
def tryConnection : BLEServiceDiscovery :=
  match d.results.find? fun res => decide (hashCode res < hashCode d.address) with
  | none => d
  | some res => { d.connect res with results := d.results.erase res }

/-- The runnable that ends a scan. -/
def run : BLEServiceDiscovery :=
  let d := { d with mScanning := false, scanActive := false }
  let d := if d.started ∧ d.mConnectionState = .disconnected then d.tryConnection else d
  if d.started then d.start else d

/-- What happens to a discovery. -/
inductive Event where
  | start
  | stop
  | run
  | serverState (connected : Bool)
  | scanResult (address : Address)
  | scanFailed
  | connectionStateChange (connected : Bool)
deriving DecidableEq

/-- One event.  A runnable runs when it is posted, and broadcasts come while the receiver is
registered. -/
def step : Event → BLEServiceDiscovery
  | .start => d.start
  | .stop => d.stop
  | .run => if 0 < d.posted then { d with posted := d.posted - 1 }.run else d
  | .serverState connected =>
      if d.registered ∧ connected then { d with scanActive := false } else d
  | .scanResult address =>
      if address ∈ d.results then d else { d with results := d.results ++ [address] }
  | .scanFailed => { d with scanActive := false }.scanLeDevice
  | .connectionStateChange true => { d with mConnectionState := .connected }
  | .connectionStateChange false =>
      let d := { d with mConnectionState := .disconnected }
      if d.started then d.tryConnection else d

/-- The discovery after a sequence of events. -/
def after (address : Address) (events : List Event) : BLEServiceDiscovery :=
  events.foldl step (create address)

theorem after_append (address : Address) (events : List Event) (event : Event) :
    after address (events ++ [event]) = (after address events).step event :=
  List.foldl_append ..

/-- What every event preserves holds after all events. -/
theorem of_after {P : BLEServiceDiscovery → Prop} {address : Address} (hcreate : P (create address))
    (hstep : ∀ d event, P d → P (d.step event)) (events : List Event) :
    P (after address events) := by
  induction events using List.reverseRecOn with
  | nil => exact hcreate
  | append_singleton events event ih =>
    rw [after_append]
    exact hstep _ event ih

/-! ### The flag and the scanner -/

/-- An event other than the runnable leaves a scan that is active alone. -/
def LeavesScan (event : Event) : Prop :=
  d.scanActive = true → match event with
    | .start | .stop => d.started = false
    | .serverState connected => (d.registered && connected) = false
    | .scanFailed => False
    | _ => True

instance (event : Event) : Decidable (LeavesScan d event) := by
  unfold LeavesScan
  cases event <;> infer_instance

variable {d}

/-- `tryConnection` does not touch the scan. -/
theorem tryConnection_same : d.tryConnection.mScanning = d.mScanning ∧
    d.tryConnection.scanActive = d.scanActive ∧ d.tryConnection.started = d.started ∧
    d.tryConnection.posted = d.posted ∧ d.tryConnection.address = d.address := by
  unfold tryConnection
  split <;> simp [connect]

/-- A runnable of a started discovery ends with an active scan and another runnable. -/
theorem scan_run (h : d.started = true) : d.run.mScanning = true ∧ d.run.scanActive = true ∧
    0 < d.run.posted := by
  unfold run start scanLeDevice stop
  grind [tryConnection_same]

/-- The flag stays right exactly if the event leaves the scan as the flag says. -/
theorem scan_step_iff {event : Event} (h : d.mScanning = d.scanActive) :
    (d.step event).mScanning = (d.step event).scanActive ↔ LeavesScan d event := by
  unfold LeavesScan step
  cases event with
  | start =>
    unfold start scanLeDevice stop
    grind
  | stop =>
    unfold stop
    grind
  | run =>
    simp only [implies_true, iff_true]
    split
    · cases hs : d.started with
      | true => grind [scan_run]
      | false => simp [run]
    · exact h
  | serverState connected => grind
  | scanResult address => grind
  | scanFailed =>
    unfold scanLeDevice
    grind
  | connectionStateChange connected => cases connected <;> grind [tryConnection_same]

/-- A task is posted as long as the discovery is started. -/
theorem posted_step {event : Event} (h : d.started = true → 0 < d.posted) :
    (d.step event).started = true → 0 < (d.step event).posted := by
  cases event with
  | run =>
    simp only [step]
    split
    · intro hs
      exact (scan_run (by grind [run])).2.2
    · exact h
  | connectionStateChange connected => cases connected <;> grind [step, tryConnection_same]
  | _ => grind [step, start, scanLeDevice, stop]

/-- The flag follows the scanner through a whole history exactly when no event but the runnable ends
a scan.  In every history a discovery that is started has a runnable posted, which starts a scan. -/
theorem mScanning_eq_scanActive_iff (address : Address) (events : List Event) :
    ((∀ past, past <+: events → (after address past).mScanning = (after address past).scanActive) ↔
        Runs.Along step LeavesScan (create address) events) ∧
      (after address (events ++ [.start])).started = true ∧
      ((after address events).started = true → 0 < (after address events).posted ∧
        ((after address events).step .run).scanActive = true) := by
  have hposted : (after address events).started = true → 0 < (after address events).posted :=
    of_after (P := fun d => d.started = true → 0 < d.posted) (fun h => by cases h)
      (fun _ _ h => posted_step h) events
  refine ⟨Runs.along_iff_prefixes (I := fun d : BLEServiceDiscovery => d.mScanning = d.scanActive)
    rfl fun _ _ h => scan_step_iff h, ?_, fun h => ⟨hposted h, ?_⟩⟩
  · rw [after_append]
    grind [step, start, scanLeDevice]
  · simp only [step, if_pos (hposted h)]
    exact (scan_run (by exact h)).2.1

/-- After `start` and `stop` the flag says that a scan is active, so the next `start` does not begin
one. -/
theorem mScanning_after_stop :
    let address := "02:00:00:00:00:00".toList
    (after address [.start, .stop]).mScanning = true ∧
      (after address [.start, .stop]).scanActive = false ∧
      (after address [.start, .stop, .start]).scanActive = false :=
  ⟨rfl, rfl, rfl⟩

/-! ### Two devices -/

/-- The address stays, and connections are initiated to devices with smaller hash codes only. -/
def Below (address : Address) (d : BLEServiceDiscovery) : Prop :=
  d.address = address ∧ ∀ res ∈ d.connects, hashCode res < hashCode address

variable {address : Address}

/-- `start` makes no connection. -/
theorem start_same : d.start.address = d.address ∧ d.start.connects = d.connects := by
  unfold start scanLeDevice stop
  grind

/-- `start` connects to nobody else. -/
theorem Below.start (h : Below address d) : Below address d.start := by
  rwa [Below, start_same.1, start_same.2]

/-- `tryConnection` connects to addresses with smaller hash codes. -/
theorem Below.tryConnection (h : Below address d) : Below address d.tryConnection := by
  unfold BLEServiceDiscovery.tryConnection
  split
  · exact h
  · rename_i res hfound
    have hless : hashCode res < hashCode d.address := by simpa using List.find?_some hfound
    refine ⟨h.1, fun res' hres' => ?_⟩
    rcases List.mem_append.mp hres' with hold | hnew
    · exact h.2 res' hold
    · rwa [List.mem_singleton.mp hnew, ← h.1]

/-- The task connects to addresses with smaller hash codes. -/
theorem Below.run (h : Below address d) : Below address d.run := by
  have hagain : ∀ {d}, Below address d → Below address (if d.started then d.start else d) := by
    intro d h
    split
    · exact h.start
    · exact h
  refine hagain ?_
  split
  · exact Below.tryConnection h
  · exact h

/-- No event connects to other addresses. -/
theorem Below.step (h : Below address d) (event : Event) : Below address (d.step event) := by
  cases event with
  | start => exact h.start
  | run =>
    simp only [BLEServiceDiscovery.step]
    split
    · exact Below.run h
    · exact h
  | connectionStateChange connected =>
    cases connected with
    | true => exact h
    | false =>
      simp only [BLEServiceDiscovery.step]
      split
      · exact Below.tryConnection h
      · exact h
  | _ =>
    unfold Below at *
    grind [BLEServiceDiscovery.step, scanLeDevice, stop]

/-- A device connects only to addresses with smaller hash codes. -/
theorem below_after (address : Address) (events : List Event) :
    Below address (after address events) :=
  of_after ⟨rfl, fun res hres => by cases hres⟩ (fun _ event h => h.step event) events

/-- The scan of a started discovery that has found one device ends next. -/
structure Found (d : BLEServiceDiscovery) (other : Address) : Prop where
  results : d.results = [other]
  started : d.started = true
  posted : 0 < d.posted
  state : d.mConnectionState = .disconnected

/-- A device that was found is connected to, if its hash code is smaller. -/
theorem Found.mem_connects {other : Address} (h : Found d other)
    (hhash : hashCode other < hashCode d.address) : other ∈ (d.step .run).connects := by
  simp [step, h.posted, run, tryConnection, connect, h.results, h.started,
    h.state, hhash, start_same.2]

section

variable {own seen : Bool → Address} {events : Bool → List Event}
  (hfound : ∀ side, Found (after (own side) (events side)) (seen !side))

include hfound

/-- When its scan ends, a device has initiated a connection exactly if the hash code of the other
address is less than that of its own. -/
theorem mem_connects_iff (side : Bool) :
    (seen !side) ∈ (after (own side) (events side ++ [.run])).connects ↔
      hashCode (seen !side) < hashCode (own side) := by
  constructor
  · exact (below_after _ _).2 _
  · intro hless
    rw [after_append]
    refine (hfound side).mem_connects ?_
    rwa [(below_after _ _).1]

/-- Two devices share no state, so their histories may be interleaved in any way.  When the scans
that discover the other device end, exactly one has initiated a connection if and only if exactly
one of the two comparisons holds. -/
theorem exactly_one_initiates_iff :
    (∃! side, (seen !side) ∈ (after (own side) (events side ++ [.run])).connects) ↔
      ¬ (hashCode (seen false) < hashCode (own true) ↔
        hashCode (seen true) < hashCode (own false)) := by
  simp only [mem_connects_iff hfound]
  constructor
  · rintro ⟨side, hside, honly⟩ hiff
    have hother := honly !side
    cases side <;> simp_all
  · intro hnot
    by_cases htrue : hashCode (seen false) < hashCode (own true)
    · refine ⟨true, htrue, fun side hside => ?_⟩
      cases side with
      | true => rfl
      | false => exact absurd (iff_of_true htrue hside) hnot
    · have hfalse : hashCode (seen true) < hashCode (own false) := by
        by_contra h
        exact hnot (iff_of_false htrue h)
      refine ⟨false, hfalse, fun side hside => ?_⟩
      cases side with
      | true => exact absurd hside htrue
      | false => rfl

end

/-- Devices that are seen under their own addresses agree exactly if the hash codes differ. -/
theorem exactly_one_initiates_same_iff {address : Bool → Address} {events : Bool → List Event}
    (hfound : ∀ side, Found (after (address side) (events side)) (address !side)) :
    (∃! side, (address !side) ∈ (after (address side) (events side ++ [.run])).connects) ↔
      hashCode (address true) ≠ hashCode (address false) := by
  rw [exactly_one_initiates_iff hfound, ne_eq, ← Int32.toInt_inj, Int32.lt_iff_toInt_lt,
    Int32.lt_iff_toInt_lt]
  omega

/-- Two addresses. -/
def apart (side : Bool) : Address :=
  (bif side then "00:11:22:33:44:55" else "00:11:22:33:44:66").toList

/-- Two devices whose hash codes differ. -/
theorem exactly_one_initiates_apart :
    ∃! side, (apart !side) ∈ (after (apart side)
      ([.start, .scanResult (apart !side)] ++ [.run])).connects := by
  have hfound (side : Bool) :
      Found (after (apart side) [.start, .scanResult (apart !side)]) (apart !side) := by
    cases side <;> exact ⟨rfl, rfl, by decide, rfl⟩
  exact (exactly_one_initiates_iff hfound).mpr (by decide +kernel)

/-- Two addresses with the same hash code. -/
def collided (side : Bool) : Address :=
  (bif side then "AB:2C:F8:27:68:E0" else "64:4F:6F:07:72:73").toList

/-- What `getAddress` returns to an application that is not allowed to know the address. -/
def hidden : Address :=
  "02:00:00:00:00:00".toList

/-- If the adapters know their addresses, devices with the same hash code never initiate a
connection to each other.  If they do not, both devices may do so. -/
theorem none_or_two_initiators : collided true ≠ collided false ∧ apart true ≠ apart false ∧
    (∀ side events, (collided !side) ∉ (after (collided side) events).connects) ∧
    ∀ side, (apart !side) ∈
      (after hidden ([.start, .scanResult (apart !side)] ++ [.run])).connects := by
  refine ⟨by decide +kernel, by decide +kernel, fun side events hmem => ?_, by decide +kernel⟩
  have hless := (below_after _ events).2 _ hmem
  revert hless
  cases side <;> decide +kernel

end BLEServiceDiscovery

end Ble

end IcnDemo
