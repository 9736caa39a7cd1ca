import SiriusProxy.Lib.JsonText
import SiriusProxy.Region
import Mathlib.Data.List.Sort
import Mathlib.Data.String.Basic

namespace SiriusProxy.Master

/-- An `Io` error says whether its kind is `NotFound`. -/
inductive MasterError where
  | busy
  | notFound
  | io (missing : Bool)
  | format
  | limit
  | integrity
  | cipher
  | key
  deriving DecidableEq, Repr

def maxManifest : Nat := 1024 * 1024
def maxEncrypted : Nat := 32 * 1024 * 1024
def maxJson : Nat := 64 * 1024 * 1024
def maxTotal : Nat := 512 * 1024 * 1024
def maxIndex : Nat := 1024 * 1024

def isSafeChar (c : Char) : Bool := isAsciiAlphanumeric c || c == '-' || c == '_'

def safeComponent (value : String) : Bool :=
  value != "" && decide (value.utf8ByteSize ≤ 128) && value.toList.all isSafeChar

def isVersionChar (c : Char) : Bool := isAsciiAlphanumeric c || c == '.' || c == '_' || c == '-'

def isAsciiHexDigit (c : Char) : Bool := isAsciiDigit c || ('a' ≤ c && c ≤ 'f') || ('A' ≤ c && c ≤ 'F')

/-- The part after the slash of a version, if there is one. -/
def safeHash : List (List Char) → Bool
  | [] => true
  | [hash] => decide (hash.length = 32) && hash.all isAsciiHexDigit
  | _ => false

def safeVersion (value : String) : Bool :=
  match value.toList.splitOn '/' with
  | [] => false
  | version :: rest =>
    !version.isEmpty && decide (version.length ≤ 128) && decide (value.utf8ByteSize ≤ 256) && version != ['.'] &&
      version != ['.', '.'] && version.all isVersionChar && safeHash rest

structure Entry where
  name : String
  hash : String
  size : Nat
  deriving DecidableEq, Repr

structure Manifest where
  version : String
  files : List Entry
  deriving DecidableEq, Repr

def Entry.text (e : Entry) : List Char :=
  JsonText.obj [("name", JsonText.str e.name), ("hash", JsonText.str e.hash), ("size", JsonText.nat e.size)]

def Manifest.text (m : Manifest) : List Char :=
  JsonText.obj [("version", JsonText.str m.version), ("files", JsonText.arr (m.files.map Entry.text))]

/-- `str::strip_suffix`. -/
def stripSuffix (text suffix : List Char) : Option (List Char) :=
  if suffix.isSuffixOf text then some (text.take (text.length - suffix.length)) else none

/-- The checks of one entry in `Manifest::parse`, but for the duplicate name. -/
def Entry.wellFormed (e : Entry) : Bool :=
  match stripSuffix e.name.toList ['.', 'b', 'i', 'n'] with
  | none => false
  | some stem =>
    let stem := String.ofList stem
    stem != "MasterManifest" && startsWith stem "Master" && safeComponent stem &&
      decide (e.hash.utf8ByteSize = 64) && e.hash.toList.all isAsciiHexDigit &&
      decide (64 < e.size) && decide (e.size ≤ maxEncrypted) && decide (e.size % 32 = 0)

def checkEntries : List Entry → List String → Nat → Except MasterError Nat
  | [], _, total => .ok total
  | entry :: rest, names, total =>
    if entry.wellFormed && !names.contains entry.name then checkEntries rest (entry.name :: names) (total + entry.size)
    else .error .format

/-- The checks of `Manifest::parse` on the parsed value. -/
def Manifest.check (m : Manifest) : Except MasterError Unit :=
  if !safeVersion m.version || m.files.isEmpty || decide (4096 < m.files.length) then .error .format
  else match checkEntries m.files [] 0 with
    | .error e => .error e
    | .ok total => if maxTotal < total then .error .limit else .ok ()

structure Manifest.Valid (m : Manifest) : Prop where
  version : safeVersion m.version = true
  nonempty : m.files ≠ []
  count : m.files.length ≤ 4096
  entries : ∀ e ∈ m.files, e.wellFormed = true
  distinct : (m.files.map Entry.name).Nodup
  total : (m.files.map Entry.size).sum ≤ maxTotal

theorem checkEntries_ok {files : List Entry} {names : List String} {start total : Nat} :
    checkEntries files names start = .ok total ↔
      (∀ e ∈ files, e.wellFormed = true) ∧ (files.map Entry.name).Nodup ∧ (∀ e ∈ files, e.name ∉ names) ∧
        total = start + (files.map Entry.size).sum := by
  induction files generalizing names start with
  | nil =>
    constructor
    · intro passed
      cases passed
      exact ⟨by simp, List.nodup_nil, by simp, by simp⟩
    · intro ⟨_, _, _, sum⟩
      rw [sum]
      rfl
  | cons entry rest ih =>
    unfold checkEntries
    split
    · rename_i passed
      simp only [Bool.and_eq_true, Bool.not_eq_true', List.contains_eq_mem, decide_eq_false_iff_not] at passed
      rw [ih]
      simp only [List.mem_cons, forall_eq_or_imp, List.map_cons, List.nodup_cons, List.mem_map, not_exists, not_and,
        not_or, List.sum_cons, passed.1, passed.2, true_and]
      constructor
      · intro ⟨formed, distinct, fresh, sum⟩
        refine ⟨formed, ⟨fun e member same => (fresh e member).1 same, distinct⟩, ⟨not_false, fun e member => (fresh e member).2⟩, ?_⟩
        omega
      · intro ⟨formed, ⟨apart, distinct⟩, fresh, sum⟩
        refine ⟨formed, distinct, fun e member => ⟨apart e member, fresh.2 e member⟩, ?_⟩
        omega
    · rename_i refused
      constructor
      · intro impossible
        cases impossible
      · intro ⟨formed, _, fresh, _⟩
        have first := fresh entry List.mem_cons_self
        exact absurd (by simp [formed entry List.mem_cons_self, first]) refused

theorem Manifest.check_ok {m : Manifest} : m.check = .ok () ↔ m.Valid := by
  unfold Manifest.check
  constructor
  · intro passed
    split at passed
    · cases passed
    · rename_i shape
      simp only [Bool.or_eq_true, Bool.not_eq_true', not_or, Bool.not_eq_false, List.isEmpty_iff, decide_eq_true_eq,
        Nat.not_lt] at shape
      split at passed
      · cases passed
      · rename_i total checked
        obtain ⟨formed, distinct, -, sum⟩ := checkEntries_ok.mp checked
        split at passed
        · cases passed
        · exact ⟨shape.1.1, shape.1.2, shape.2, formed, distinct, by omega⟩
  · intro valid
    have checked : checkEntries m.files [] 0 = .ok (m.files.map Entry.size).sum :=
      checkEntries_ok.mpr ⟨valid.entries, valid.distinct, by simp, by omega⟩
    have total := valid.total
    rw [if_neg, checked]
    · exact if_neg (Nat.not_lt.mpr total)
    · simp [valid.version, valid.nonempty, valid.count]

/-- The order of the files does not matter to the checks. -/
theorem Manifest.Valid.perm {m : Manifest} {files : List Entry} (valid : m.Valid) (perm : files.Perm m.files) :
    Manifest.Valid { m with files := files } where
  version := valid.version
  nonempty := by
    intro empty
    subst empty
    exact valid.nonempty (List.nil_perm.mp perm)
  count := perm.length_eq ▸ valid.count
  entries := fun e member => valid.entries e (perm.mem_iff.mp member)
  distinct := (perm.map Entry.name).nodup_iff.mpr valid.distinct
  total := (perm.map Entry.size).sum_eq ▸ valid.total

/-- `sort_by` of the names. -/
def Manifest.sorted (m : Manifest) : Manifest :=
  { m with files := m.files.insertionSort fun a b => a.name ≤ b.name }

end SiriusProxy.Master
