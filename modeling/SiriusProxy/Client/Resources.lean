import SiriusProxy.Lib.OrderedMap
import SiriusProxy.Region

namespace SiriusProxy.Resources

structure Release where
  version : String
  ios : Option String
  android : Option String
  minimum : Option String
  deriving DecidableEq, Repr

/-- The parsers of other packages that the client uses: `serde_json` on `x-asset-version`, `semver`
and the RFC 3339 check of `chrono`. -/
structure Formats (Value Version : Type) where
  fromStr : String → Option Value
  live : Value → Option Value
  releases : Value → Option (List Release)
  release : Value → Option Release
  version : String → Option Version
  rfc3339 : String → Bool

variable {Value Version : Type} [LinearOrder Version]

/-- The loop over `releases`; two releases with one minimum are an error. -/
def candidates (formats : Formats Value Version) :
    List Release → OrderedMap Version Release → Except AppError (OrderedMap Version Release)
  | [], found => .ok found
  | r :: rest, found =>
    match r.minimum.bind formats.version with
    | none => .error .protocol
    | some min => if (found.get? min).isSome then .error .protocol else candidates formats rest (found.insert min r)

/-- The release with the greatest minimum that the client reaches. -/
def liveRelease (formats : Formats Value Version) (live : Value) (client : Version) : Except AppError Release :=
  match formats.releases live with
  | none => .error .protocol
  | some releases => do
    let found ← candidates formats releases {}
    match found.entries.reverse.find? fun e => decide (e.1 ≤ client) with
    | none => .error .snapshotUnavailable
    | some chosen => .ok chosen.2

def chosenRelease (formats : Formats Value Version) (v : Value) (client : Version) : Except AppError Release :=
  match formats.live v with
  | some live => liveRelease formats live client
  | none => match formats.release v with
    | none => .error .protocol
    | some r => .ok r

def selectPlatform (formats : Formats Value Version) (raw client : String) (platform : Platform) :
    Except AppError (String × String) :=
  match formats.fromStr raw, formats.version client with
  | some v, some client => do
    let chosen ← chosenRelease formats v client
    let hash := match platform with
      | .ios => chosen.ios
      | .android => chosen.android
    match hash with
    | none => .error .snapshotUnavailable
    | some hash => if component chosen.version && component hash then .ok (chosen.version, hash) else .error .protocol
  | _, _ => .error .protocol

/-- The schema 2 snapshot of JP; its schema, platform and source are constants. -/
structure ResourceSnapshot where
  region : Region
  environment : String
  platform : Platform
  clientVersion : String
  protocolVersion : String
  masterVersion : Option String
  resourceVersion : String
  platformHash : String
  effectiveCdnRoot : String
  credentialRef : String
  observedAt : Instant
  deriving DecidableEq, Repr

end SiriusProxy.Resources
