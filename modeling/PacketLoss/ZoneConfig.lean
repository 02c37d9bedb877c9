import PacketLoss.Cidr
import PacketLoss.GoMap
import Mathlib.Data.List.Sort
import Mathlib.Data.String.Basic

/-!
The configuration of internal/config as far as it decides the zones: what
`Validate` accepts, the ids it assigns, and the entries for the two tries. A
function that ranges over the map of zones takes the order as an argument.
-/
namespace PacketLoss.ZoneConfig

open Machine Cidr

/-- An error made by `fmt.Errorf`: its format and the operands, printed. -/
structure FmtError where
  format : String
  args : List String
deriving DecidableEq

/-- Durations are in nanoseconds. -/
structure Config where
  sourceZone : String
  listen : String
  pollInterval : ℤ
  instantWindow : ℤ
  zones : GoMap String (List String)
  emaHalfLife : ℤ
  zoneIDs : String → Option U8

structure ZoneEntry where
  zoneID : U8
  net : IPNet
deriving DecidableEq

structure ResolvedZone where
  dstZone : String
  zoneID : U8
  sourceZone : String
deriving DecidableEq

def second : ℤ := 1000000000

namespace Config

def applyDefaults (c : Config) : Config :=
  { c with
    listen := if c.listen = "" then ":9435" else c.listen
    pollInterval := if c.pollInterval ≤ 0 then second else c.pollInterval
    instantWindow := if c.instantWindow ≤ 0 then 10 * second else c.instantWindow
    emaHalfLife := if c.emaHalfLife ≤ 0 then 5 * 60 * second else c.emaHalfLife }

def checkSubnets (name : String) : List String → Except FmtError Unit
  | [] => .ok ()
  | s :: rest =>
    match parseCIDR s with
    | .error err => .error ⟨"zone %q: invalid subnet %q: %w", [name, s, err]⟩
    | .ok _ => checkSubnets name rest

/-- The loop of `Validate` over the zones, which counts the remote ones. -/
def checkZones (sourceZone : String) (remoteZones : ℕ) :
    List (String × List String) → Except FmtError ℕ
  | [] => .ok remoteZones
  | (name, subnets) :: rest =>
    if subnets.length = 0 then .error ⟨"zone %q: at least one subnet required", [name]⟩
    else
      match checkSubnets name subnets with
      | .error err => .error err
      | .ok () =>
        checkZones sourceZone (if name ≠ sourceZone then remoteZones + 1 else remoteZones) rest

/-- `sort.Strings` -/
def sortStrings (names : List String) : List String := names.insertionSort (· ≤ ·)

def assignZoneIDs (c : Config) (range : c.zones.Range) : Except FmtError Config :=
  let names := sortStrings (range.order.map Prod.fst)
  if 255 < names.length then .error ⟨"too many zones: %d (max 255)", [toString names.length]⟩
  else
    let zoneIDs := names.zipIdx.foldl
      (fun ids (name, i) => Function.update ids name (some (BitVec.ofNat 8 (i + 1))))
      (fun _ => none)
    .ok { c with zoneIDs := zoneIDs }

/-- `Validate`, which leaves the zone ids in the configuration. It ranges over
the zones twice. -/
def validate (c : Config) (range names : c.zones.Range) : Except FmtError Config :=
  if c.sourceZone = "" then .error ⟨"source_zone is required", []⟩
  else if c.zones.entries.length = 0 then .error ⟨"zones map is required", []⟩
  else if c.zones.get c.sourceZone = none then
    .error ⟨"source_zone %q must exist in zones", [c.sourceZone]⟩
  else
    match checkZones c.sourceZone 0 range.order with
    | .error err => .error err
    | .ok remoteZones =>
      if remoteZones = 0 then
        .error ⟨"at least one remote zone (other than source_zone) is required", []⟩
      else
        match assignZoneIDs c names with
        | .error err => .error err
        | .ok c =>
          if c.pollInterval ≤ 0 then .error ⟨"poll_interval must be positive", []⟩
          else if c.instantWindow < 0 then .error ⟨"instant_window must not be negative", []⟩
          else .ok c

def zoneID (c : Config) (name : String) : Option U8 := c.zoneIDs name

/-- The loop over the subnets of one zone, which both entry functions have. -/
def subnetEntries (name : String) (id : U8) : List String → Except FmtError (List ZoneEntry)
  | [] => .ok []
  | s :: rest =>
    match parseCIDR s with
    | .error err => .error ⟨"zone %q subnet %q: %w", [name, s, err]⟩
    | .ok n => (subnetEntries name id rest).map (⟨id, n⟩ :: ·)

def sourceZoneLPMEntries (c : Config) : Except FmtError (List ZoneEntry) :=
  match c.zones.get c.sourceZone with
  | none => .error ⟨"source_zone %q not found in zones", [c.sourceZone]⟩
  | some subnets =>
    match c.zoneID c.sourceZone with
    | none => .error ⟨"source_zone %q has no assigned id", [c.sourceZone]⟩
    | some id => subnetEntries c.sourceZone id subnets

/-- The loop of `ZoneLPMEntries` over the zones. -/
def remoteEntries (c : Config) :
    List (String × List String) → Except FmtError (List ZoneEntry)
  | [] => .ok []
  | (name, subnets) :: rest =>
    if name = c.sourceZone then remoteEntries c rest
    else
      match c.zoneID name with
      | none => .error ⟨"zone %q has no assigned id", [name]⟩
      | some id =>
        match subnetEntries name id subnets with
        | .error err => .error err
        | .ok entries => (remoteEntries c rest).map (entries ++ ·)

def zoneLPMEntries (c : Config) (range : c.zones.Range) : Except FmtError (List ZoneEntry) :=
  remoteEntries c range.order

def remoteZones (c : Config) (range : c.zones.Range) : List ResolvedZone :=
  let names := sortStrings ((range.order.map Prod.fst).filter (· ≠ c.sourceZone))
  names.map fun name => ⟨name, (c.zoneID name).getD 0#8, c.sourceZone⟩

end Config

end PacketLoss.ZoneConfig
