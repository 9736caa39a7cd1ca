import SiriusProxy.Lib.Tar
import SiriusProxy.Master.Current
import SiriusProxy.Master.Hops
import SiriusProxy.Master.Pages

namespace SiriusProxy.Master
open Reads (eval)

variable {B : Type} (lib : Serde B)

def maxArchive : Nat := 528 * 1024 * 1024

/-- An archive with its members, and its length as `Writer` counts it. -/
structure Bundle (B : Type) where
  members : List (String × B) := []
  len : Nat := 0

/-- `longName` tells which names the tar writer puts in a record of their own. -/
def Bundle.append (longName : String → Bool) (bundle : Bundle B) (name : String) (bytes : B) : Except AppError (Bundle B) :=
  match Tar.putAll maxArchive bundle.len (Tar.member (longName name) name.utf8ByteSize (lib.length bytes)) with
  | none => .error .masterUnavailable
  | some len => .ok { members := bundle.members ++ [(name, bytes)], len }

def Bundle.finish (bundle : Bundle B) : Except AppError (Bundle B) :=
  match Tar.putAll maxArchive bundle.len Tar.trailer with
  | none => .error .masterUnavailable
  | some len => .ok { bundle with len }

/-- The loop of `build`. -/
def appendTables (longName : String → Bool) (load : File → Except AppError B) : List File → Bundle B → Except AppError (Bundle B)
  | [], bundle => .ok bundle
  | f :: rest, bundle =>
    match load f with
    | .error e => .error e
    | .ok bytes =>
      if lib.length bytes != f.size || digest lib bytes != f.sha256 || !lib.validJson bytes then .error .masterUnavailable
      else match bundle.append lib longName ("tables/" ++ f.name) bytes with
        | .error e => .error e
        | .ok bundle => appendTables longName load rest bundle

/-- `build` within its time. -/
def build (longName : String → Bool) (p : PublishedManifest) (load : File → Except AppError B) : Except AppError (Bundle B) :=
  match p.validate lib p.scope with
  | .error _ => .error .masterUnavailable
  | .ok () =>
    if 4 * 1024 * 1024 < lib.length (lib.ofPublished p) then .error .masterUnavailable
    else match Bundle.append lib longName {} "metadata/manifest.json" (lib.ofPublished p) with
      | .error e => .error e
      | .ok bundle => match appendTables lib longName load p.files bundle with
        | .error e => .error e
        | .ok bundle => bundle.finish

variable {lib} {longName : String → Bool} {load : File → Except AppError B} {root after : Root B} {scope : Scope}
  {receipt : ImportReceipt} {source : Manifest} {index : Inventory} {files : String → Option (Node B)} {draft : Draft B}

theorem stripSuffix_append (stem suffix : List Char) : stripSuffix (stem ++ suffix) suffix = some stem := by
  have ends : suffix.isSuffixOf (stem ++ suffix) = true := List.isSuffixOf_iff_suffix.mpr ⟨stem, rfl⟩
  rw [stripSuffix, if_pos ends, List.length_append, Nat.add_sub_cancel, List.take_left]

theorem Stem.short {f : File} {stem : String} (named : Stem source f stem) : f.name.utf8ByteSize ≤ 133 := by
  have safe := named.safe
  simp only [safeComponent, Bool.and_eq_true, decide_eq_true_eq] at safe
  have five : ".json".utf8ByteSize = 5 := rfl
  rw [named.file, String.utf8ByteSize_append]
  omega

/-- A served manifest has its length as well. -/
def Doc.served : Doc → Nat
  | .published p => JsonText.size p.text
  | bytes => bytes.size

def servedSerde : Serde Doc where
  __ := hexSerde
  length := Doc.served
  length_ofString _ := rfl
  length_ofManifest _ := rfl
  manifest_shortest b m read := by
    cases b <;> cases read
    exact Nat.le_refl _
  length_ofReceipt _ := rfl
  length_ofInventory _ := rfl
  length_ofPublication _ := rfl
  length_ofRetention _ := rfl

theorem servedSerde_digests (bytes : Doc) : hashValid (servedSerde.sha256 bytes) = true := hexSerde_digests bytes

end SiriusProxy.Master
