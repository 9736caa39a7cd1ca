import SiriusProxy.Lib.Lines
import SiriusProxy.Text

namespace SiriusProxy

inductive IpAddr where
  | v4 (bits : BitVec 32)
  | v6 (bits : BitVec 128)
  deriving DecidableEq, Repr

namespace IpAddr

/-- `char::to_digit`. -/
def toDigit (radix : Nat) (c : Char) : Option Nat :=
  let value :=
    if '0' ≤ c ∧ c ≤ '9' then some (c.toNat - '0'.toNat)
    else if 'a' ≤ c ∧ c ≤ 'z' then some (c.toNat - 'a'.toNat + 10)
    else if 'A' ≤ c ∧ c ≤ 'Z' then some (c.toNat - 'A'.toNat + 10)
    else none
  value.filter fun n => decide (n < radix)

/-- A number of at most `digits` digits and at most `bound`; `zeros` allows leading zeros. -/
def readNumber (radix digits bound : Nat) (zeros : Bool) (text : List Char) : Option (Nat × List Char) :=
  let run := text.takeWhile fun c => (toDigit radix c).isSome
  let value := run.foldl (fun n c => n * radix + (toDigit radix c).getD 0) 0
  if run.isEmpty || decide (digits < run.length) || decide (bound < value) ||
      (!zeros && run.head? == some '0' && decide (1 < run.length)) then none
  else some (value, text.drop run.length)

/-- All groups but the first follow a separator. -/
def readSeparator {α : Type} (sep : Char) (index : Nat) (inner : List Char → Option (α × List Char))
    (text : List Char) : Option (α × List Char) :=
  if index = 0 then inner text
  else match text with
    | c :: rest => if c = sep then inner rest else none
    | [] => none

def readIpv4 (text : List Char) : Option (BitVec 32 × List Char) := do
  let octet := readNumber 10 3 255 false
  let (first, text) ← readSeparator '.' 0 octet text
  let (second, text) ← readSeparator '.' 1 octet text
  let (third, text) ← readSeparator '.' 2 octet text
  let (fourth, text) ← readSeparator '.' 3 octet text
  some (BitVec.ofNat 32 (((first * 256 + second) * 256 + third) * 256 + fourth), text)

/-- The groups from `index` on, with whether an IPv4 address was the last of them. -/
def readGroups (index : Nat) : Nat → List Char → List Nat × Bool × List Char
  | 0, text => ([], false, text)
  | remaining + 1, text =>
    -- An embedded IPv4 address needs two groups.
    match if 0 < remaining then readSeparator ':' index readIpv4 text else none with
    | some (bits, rest) => ([bits.toNat / 65536, bits.toNat % 65536], true, rest)
    | none => match readSeparator ':' index (readNumber 16 4 65535 true) text with
      | some (group, rest) =>
        let (groups, embedded, rest) := readGroups (index + 1) remaining rest
        (group :: groups, embedded, rest)
      | none => ([], false, text)

def ofGroups (groups : List Nat) : BitVec 128 := BitVec.ofNat 128 (groups.foldl (fun n g => n * 65536 + g) 0)

def readIpv6 (text : List Char) : Option (BitVec 128 × List Char) :=
  let (head, embedded, rest) := readGroups 0 8 text
  if head.length = 8 then some (ofGroups head, rest)
  else if embedded then none
  else match rest with
    | ':' :: ':' :: rest =>
      let (tail, _, rest) := readGroups 0 (8 - (head.length + 1)) rest
      some (ofGroups (head ++ List.replicate (8 - head.length - tail.length) 0 ++ tail), rest)
    | _ => none

/-- `str::parse::<IpAddr>`. -/
def parse (text : List Char) : Option IpAddr :=
  match readIpv4 text with
  | some (bits, rest) => if rest.isEmpty then some (.v4 bits) else none
  | none => match readIpv6 text with
    | some (bits, rest) => if rest.isEmpty then some (.v6 bits) else none
    | none => none

/-- An IPv4-mapped IPv6 address is the IPv4 address. -/
def normalize : IpAddr → IpAddr
  | .v6 bits => if bits >>> 32 = 0xffff#128 then .v4 (bits.setWidth 32) else .v6 bits
  | .v4 bits => .v4 bits

end IpAddr

namespace AccessLog

/-- The header fields of a request; a name may occur more than once. -/
abbrev HeaderMap := List (String × List UInt8)

def getAll (headers : HeaderMap) (name : String) : List (List UInt8) :=
  (headers.filter fun field => field.1 == name).map Prod.snd

/-- The characters of a text in ASCII. -/
def chars (text : List UInt8) : List Char := text.map fun b => Char.ofNat b.toNat

/-- The trusted networks and the header that names the hops; `contains` is whether a network holds
an address. -/
structure Trust (Net : Type) where
  contains : Net → IpAddr → Bool
  proxies : List Net
  header : String

variable {Net : Type} (trust : Trust Net)

namespace Trust

def trusted (ip : IpAddr) : Bool := trust.proxies.any fun net => trust.contains net ip

/-- One entry of the header. -/
def entry (text : List Char) : Option IpAddr := (IpAddr.parse (trim text)).map IpAddr.normalize

/-- The loop over the addresses from the right: it stops at the first candidate that is not trusted. -/
def walk (candidate : IpAddr) : List IpAddr → IpAddr
  | [] => candidate
  | address :: rest => if !trust.trusted candidate then candidate else walk address rest

def resolve (peer : Option IpAddr) (headers : HeaderMap) : Option IpAddr := do
  let peer ← peer
  let original := IpAddr.normalize peer
  if !trust.trusted original then return original
  match getAll headers trust.header with
  | [] => return original
  | value :: more =>
    if !more.isEmpty || decide (4096 < value.length) then return original
    match toStr value with
    | none => return original
    | some text =>
      let entries := Lines.split ',' (chars text)
      if 32 < entries.length then return original
      match entries.mapM entry with
      | none => return original
      | some addresses => return if value.isEmpty then original else trust.walk original addresses.reverse

/-- The chain of addresses of a header that is there once, not too long and well formed. -/
def Chain (headers : HeaderMap) (chain : List IpAddr) : Prop :=
  ∃ value text, getAll headers trust.header = [value] ∧ value.length ≤ 4096 ∧ toStr value = some text ∧
    (Lines.split ',' (chars text)).length ≤ 32 ∧ (Lines.split ',' (chars text)).mapM entry = some chain

variable {trust} {peer : IpAddr} {headers : HeaderMap} {chain : List IpAddr}

theorem resolve_untrusted (outside : trust.trusted peer.normalize = false) :
    trust.resolve (some peer) headers = some peer.normalize := by
  simp only [resolve, Option.bind_eq_bind, Option.bind_some, outside, Bool.not_false, if_true]
  rfl

/-- A header without a chain is not looked at. -/
theorem resolve_malformed (malformed : ∀ chain, ¬ trust.Chain headers chain) :
    trust.resolve (some peer) headers = some peer.normalize := by
  cases covered : trust.trusted peer.normalize with
  | false => exact resolve_untrusted covered
  | true =>
    simp only [resolve, Option.bind_eq_bind, Option.bind_some, covered, Bool.not_true, Bool.false_eq_true, if_false]
    split
    · rfl
    · rename_i value more named
      split
      · rfl
      · rename_i refused
        simp only [Bool.or_eq_true, Bool.not_eq_true', List.isEmpty_eq_false_iff, decide_eq_true_eq, not_or,
          Decidable.not_not, Nat.not_lt] at refused
        obtain ⟨rfl, short⟩ := refused
        split
        · rfl
        · rename_i text shown
          split
          · rfl
          · rename_i many
            split
            · rfl
            · rename_i addresses parsed
              exact absurd ⟨value, text, named, short, shown, Nat.le_of_not_lt many, parsed⟩ (malformed addresses)

/-- An empty value has no chain: an empty entry is not an address. -/
theorem entry_nil : entry [] = none := by decide

/-- A header with a chain is walked from the peer on. -/
theorem resolve_chain (chained : trust.Chain headers chain) (covered : trust.trusted peer.normalize = true) :
    trust.resolve (some peer) headers = some (trust.walk peer.normalize chain.reverse) := by
  obtain ⟨value, text, named, short, shown, few, parsed⟩ := chained
  have single : ¬ (!([] : List (List UInt8)).isEmpty || decide (4096 < value.length)) = true := by
    simpa using short
  have filled : value.isEmpty = false := by
    cases value with
    | nil =>
      cases shown
      rw [chars, List.map_nil, Lines.split, Lines.pieces, List.nil_append, List.mapM_cons, entry_nil] at parsed
      cases parsed
    | cons b rest => rfl
  simp only [resolve, Option.bind_eq_bind, Option.bind_some, covered, Bool.not_true, Bool.false_eq_true, if_false,
    named, if_neg single, shown, if_neg (Nat.not_lt_of_le few), parsed, filled]
  rfl

/-- The walk goes over trusted addresses and stops at the first that is not. -/
theorem walk_found {candidate r : IpAddr} {rest front back : List IpAddr}
    (parts : candidate :: rest = front ++ r :: back) (all : ∀ a ∈ front, trust.trusted a = true)
    (stop : trust.trusted r = false) : trust.walk candidate rest = r := by
  induction rest generalizing candidate front with
  | nil =>
    cases front with
    | nil => exact (List.cons.inj parts).1
    | cons first front => exact absurd (List.cons.inj parts).2.symm (by simp)
  | cons address rest ih =>
    cases front with
    | nil =>
      obtain ⟨rfl, -⟩ := List.cons.inj parts
      rw [walk, stop]
      rfl
    | cons first front =>
      obtain ⟨rfl, later⟩ := List.cons.inj parts
      rw [walk, all candidate List.mem_cons_self]
      exact ih later fun a member => all a (List.mem_cons_of_mem _ member)

theorem walk_all {candidate last : IpAddr} {front : List IpAddr}
    (all : ∀ a ∈ candidate :: front, trust.trusted a = true) : trust.walk candidate (front ++ [last]) = last := by
  induction front generalizing candidate with
  | nil =>
    rw [List.nil_append, walk, all candidate List.mem_cons_self]
    rfl
  | cons address front ih =>
    rw [List.cons_append, walk, all candidate List.mem_cons_self]
    exact ih fun a member => all a (List.mem_cons_of_mem _ member)

/-- The rightmost address that is not trusted, the peer included. -/
theorem resolve_rightmost (chained : trust.Chain headers chain) {left right : List IpAddr} {r : IpAddr}
    (parts : chain ++ [peer.normalize] = left ++ r :: right) (stop : trust.trusted r = false)
    (all : ∀ a ∈ right, trust.trusted a = true) : trust.resolve (some peer) headers = some r := by
  have reversed := congrArg List.reverse parts
  simp only [List.reverse_append, List.singleton_append, List.reverse_cons, List.append_assoc] at reversed
  cases covered : trust.trusted peer.normalize with
  | true =>
    rw [resolve_chain chained covered]
    exact congrArg some (walk_found reversed (fun a member => all a (List.mem_reverse.mp member)) stop)
  | false =>
    rw [resolve_untrusted covered]
    rcases List.eq_nil_or_concat right with rfl | ⟨front, last, rfl⟩
    · exact congrArg some (List.cons.inj reversed).1
    · rw [List.concat_eq_append] at reversed all
      rw [List.reverse_append, List.reverse_singleton, List.singleton_append, List.cons_append] at reversed
      have trusted := all last List.mem_concat_self
      rw [← (List.cons.inj reversed).1, covered] at trusted
      cases trusted

theorem Chain.ne_nil (chained : trust.Chain headers chain) : chain ≠ [] := by
  obtain ⟨value, text, -, -, -, -, parsed⟩ := chained
  rintro rfl
  cases entries : Lines.split ',' (chars text) with
  | nil => exact List.append_ne_nil_of_right_ne_nil _ (List.cons_ne_nil _ _) entries
  | cons first rest =>
    rw [entries, List.mapM_cons] at parsed
    obtain ⟨address, -, parsed⟩ := Option.bind_eq_some_iff.mp parsed
    obtain ⟨others, -, parsed⟩ := Option.bind_eq_some_iff.mp parsed
    cases parsed

/-- When every address is trusted the leftmost one is taken. -/
theorem resolve_leftmost (chained : trust.Chain headers chain)
    (all : ∀ a ∈ chain ++ [peer.normalize], trust.trusted a = true) :
    trust.resolve (some peer) headers = chain.head? := by
  rw [resolve_chain chained (all _ List.mem_concat_self)]
  cases chain with
  | nil => exact absurd rfl chained.ne_nil
  | cons first rest =>
    rw [List.reverse_cons, List.head?_cons]
    refine congrArg some (walk_all fun a member => ?_)
    rcases List.mem_cons.mp member with rfl | inside
    · exact all _ List.mem_concat_self
    · exact all a (List.mem_append_left _ (List.mem_cons_of_mem _ (List.mem_reverse.mp inside)))

/-- Text before a chain only adds entries on its left. -/
theorem Chain.prefixed {forged : HeaderMap} {value x : List UInt8} {longer : List IpAddr}
    (chained : trust.Chain headers chain) (named : getAll headers trust.header = [value])
    (replaced : getAll forged trust.header = [x ++ 44 :: value]) (whole : trust.Chain forged longer) :
    ∃ more, longer = more ++ chain := by
  obtain ⟨own, text, owned, -, shown, -, parsed⟩ := chained
  obtain ⟨other, all, replacing, -, written, -, read⟩ := whole
  cases named.symm.trans owned
  cases replaced.symm.trans replacing
  obtain ⟨-, -, rfl⟩ := toStr_append written
  cases toStr_eq_some shown
  have comma : Char.ofNat (44 : UInt8).toNat = ',' := by decide
  rw [chars, List.map_append, List.map_cons, comma, Lines.split_join, List.mapM_append] at read
  obtain ⟨more, -, read⟩ := Option.bind_eq_some_iff.mp read
  obtain ⟨same, same_read, read⟩ := Option.bind_eq_some_iff.mp read
  cases parsed.symm.trans same_read
  exact ⟨more, (Option.some.inj read).symm⟩

/-- `resolve` takes the rightmost address outside the trust list, or the leftmost of a header whose
addresses are all inside, and the peer whenever there is no well-formed chain. Text that a client puts
before a chain ending in an untrusted address gives that address or the peer. -/
theorem resolve_not_spoofed (trust : Trust Net) (peer : IpAddr) (headers : HeaderMap) :
    trust.resolve none headers = none ∧
    (∀ chain, trust.Chain headers chain →
      (∀ left r right, chain ++ [peer.normalize] = left ++ r :: right → trust.trusted r = false →
        (∀ a ∈ right, trust.trusted a = true) → trust.resolve (some peer) headers = some r) ∧
      ((∀ a ∈ chain ++ [peer.normalize], trust.trusted a = true) →
        trust.resolve (some peer) headers = chain.head?)) ∧
    (trust.trusted peer.normalize = false ∨ (∀ chain, ¬ trust.Chain headers chain) →
      trust.resolve (some peer) headers = some peer.normalize) ∧
    ∀ value chain left r right, getAll headers trust.header = [value] → trust.Chain headers chain →
      chain = left ++ r :: right → trust.trusted r = false → (∀ a ∈ right, trust.trusted a = true) →
      trust.trusted peer.normalize = true →
      ∀ x forged, getAll forged trust.header = [x ++ 44 :: value] →
        trust.resolve (some peer) forged = some r ∨ trust.resolve (some peer) forged = some peer.normalize := by
  refine ⟨rfl, fun chain chained => ⟨?_, resolve_leftmost chained⟩, ?_, ?_⟩
  · exact fun left r right parts stop all => resolve_rightmost chained parts stop all
  · rintro (outside | malformed)
    · exact resolve_untrusted outside
    · exact resolve_malformed malformed
  · intro value chain left r right named chained parts stop all covered x forged replaced
    by_cases whole : ∃ longer, trust.Chain forged longer
    · obtain ⟨longer, whole⟩ := whole
      obtain ⟨more, longer_eq⟩ := chained.prefixed named replaced whole
      have placed : longer ++ [peer.normalize] = (more ++ left) ++ r :: (right ++ [peer.normalize]) := by
        rw [longer_eq, parts]
        simp only [List.append_assoc, List.cons_append]
      refine Or.inl (resolve_rightmost whole placed stop fun a member => ?_)
      rcases List.mem_append.mp member with inside | own
      · exact all a inside
      · rw [List.mem_singleton.mp own]
        exact covered
    · exact Or.inr (resolve_malformed (not_exists.mp whole))

/-- An IPv4 network by its address and its prefix. -/
def subnetContains (net : BitVec 32 × Nat) : IpAddr → Bool
  | .v4 bits => bits >>> (32 - net.2) == net.1 >>> (32 - net.2)
  | .v6 _ => false

/-- The hops of 10.0.0.0/8 are trusted. -/
def tens : Trust (BitVec 32 × Nat) :=
  { contains := subnetContains, proxies := [(0x0a000000#32, 8)], header := "x-forwarded-for" }

def forwarded : List UInt8 := ascii "203.0.113.7, ::ffff:10.0.0.2"

theorem chain_forwarded : tens.Chain [("x-forwarded-for", forwarded)] [.v4 0xcb007107#32, .v4 0x0a000002#32] :=
  ⟨forwarded, forwarded, by decide, by decide, by decide, by decide, by decide⟩

/-- Whatever a client of 203.0.113.7 puts before its own address. -/
theorem resolve_not_spoofed_client :
    tens.resolve (some (.v4 0x0a000001#32)) [("x-forwarded-for", forwarded)] = some (.v4 0xcb007107#32) ∧
      ∀ x, tens.resolve (some (.v4 0x0a000001#32)) [("x-forwarded-for", x ++ 44 :: forwarded)] =
          some (.v4 0xcb007107#32) ∨
        tens.resolve (some (.v4 0x0a000001#32)) [("x-forwarded-for", x ++ 44 :: forwarded)] =
          some (.v4 0x0a000001#32) := by
  obtain ⟨-, chains, -, spoofed⟩ :=
    resolve_not_spoofed tens (.v4 0x0a000001#32) [("x-forwarded-for", forwarded)]
  constructor
  · exact (chains _ chain_forwarded).1 [] _ [.v4 0x0a000002#32, .v4 0x0a000001#32] rfl (by decide) (by decide)
  · intro x
    exact spoofed forwarded _ [] _ [.v4 0x0a000002#32] rfl chain_forwarded rfl (by decide) (by decide) (by decide) x
      [("x-forwarded-for", x ++ 44 :: forwarded)] rfl

end Trust

end AccessLog

end SiriusProxy
