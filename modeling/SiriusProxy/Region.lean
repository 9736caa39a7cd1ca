import SiriusProxy.Error

namespace SiriusProxy

inductive Region where
  | jp
  | hk
  | en
  | kr
  | cn
  deriving DecidableEq, Repr

inductive Platform where
  | ios
  | android
  deriving DecidableEq, Repr

def Platform.name : Platform → String
  | .ios => "iOS"
  | .android => "Android"

/-- The regions of the Global client share one protocol family. -/
def Region.isGlobal : Region → Bool
  | .jp => false
  | .cn => false
  | _ => true

/-- Protocol families; a bundle is of the family of the regions it serves. -/
inductive Family where
  | jp
  | cn
  | global
  deriving DecidableEq, Repr

def Region.family : Region → Family
  | .jp => .jp
  | .cn => .cn
  | _ => .global

def Region.name : Region → String
  | .jp => "jp"
  | .hk => "hk"
  | .en => "en"
  | .kr => "kr"
  | .cn => "cn"

/-- The name in a record of an earlier build; `tw` is the old spelling of `hk`. -/
def Region.fromRecordedName (name : String) : Option Region :=
  if name = "tw" then some .hk
  else [Region.jp, .hk, .en, .kr, .cn].find? fun region => decide (region.name = name)

theorem Region.fromRecordedName_name (region : Region) : Region.fromRecordedName region.name = some region := by
  cases region <;> rfl

def Region.masterSupported (region : Region) : Bool := region != .cn

/-- The characters of `component` in the dispatch identity and in job answers. -/
def isComponentChar (c : Char) : Bool :=
  isAsciiAlphanumeric c || c == '-' || c == '_' || c == '.'

def component (v : String) : Bool :=
  v != "" && decide (v.utf8ByteSize ≤ 256) && v != "." && v != ".." && v.toList.all isComponentChar

def isLowerHex (c : Char) : Bool := isAsciiDigit c || ('a' ≤ c && c ≤ 'f')

/-- A lowercase hexadecimal SHA-256. -/
def digest (v : String) : Bool := decide (v.utf8ByteSize = 64) && v.toList.all isLowerHex

end SiriusProxy
