import Mathlib.Data.List.Chain

/-! JSON texts as bytes: the tokens, their grammar, and the blanks between them. -/
namespace JsonTokens

def isBlank (b : UInt8) : Bool := b == 32 || b == 9 || b == 10 || b == 13

/-- A byte of a number or of a literal name: no blank, no quotation mark, no bracket, comma or colon. -/
def isPlain (b : UInt8) : Bool :=
  !isBlank b && b != 34 && b != 123 && b != 125 && b != 91 && b != 93 && b != 44 && b != 58

def isDigit (b : UInt8) : Bool := decide (48 ≤ b) && decide (b ≤ 57)

def isHex (b : UInt8) : Bool :=
  isDigit b || (decide (97 ≤ b) && decide (b ≤ 102)) || (decide (65 ≤ b) && decide (b ≤ 70))

def isTail (b : UInt8) : Bool := decide (128 ≤ b) && decide (b ≤ 191)

/-- A UTF-8 character of more than one byte: shortest form, no surrogates, at most U+10FFFF. -/
inductive Multibyte : List UInt8 → Prop
  | two {a b : UInt8} : 194 ≤ a → a ≤ 223 → isTail b = true → Multibyte [a, b]
  | three {a b c : UInt8} : 224 ≤ a → a ≤ 239 → isTail b = true → isTail c = true → (a = 224 → 160 ≤ b) →
      (a = 237 → b ≤ 159) → Multibyte [a, b, c]
  | four {a b c d : UInt8} : 240 ≤ a → a ≤ 244 → isTail b = true → isTail c = true → isTail d = true →
      (a = 240 → 144 ≤ b) → (a = 244 → b ≤ 143) → Multibyte [a, b, c, d]

/-- What stands between the quotation marks of a string. -/
inductive StringBody : List UInt8 → Prop
  | nil : StringBody []
  | ascii {b : UInt8} {rest : List UInt8} (visible : 32 ≤ b) (single : b < 128) (quote : b ≠ 34) (backslash : b ≠ 92)
      (body : StringBody rest) : StringBody (b :: rest)
  | multibyte {char rest : List UInt8} (wide : Multibyte char) (body : StringBody rest) : StringBody (char ++ rest)
  | escape {b : UInt8} {rest : List UInt8} (known : b ∈ [34, 92, 47, 98, 102, 110, 114, 116]) (body : StringBody rest) :
      StringBody (92 :: b :: rest)
  | unicode {a b c d : UInt8} {rest : List UInt8} (hex : ∀ x ∈ [a, b, c, d], isHex x = true) (body : StringBody rest) :
      StringBody (92 :: 117 :: a :: b :: c :: d :: rest)

def Digits (bytes : List UInt8) : Prop := bytes ≠ [] ∧ ∀ b ∈ bytes, isDigit b = true

structure IsNumber (bytes minus int frac exp : List UInt8) : Prop where
  parts : bytes = minus ++ (int ++ (frac ++ exp))
  minus : minus = [] ∨ minus = [45]
  int : int = [48] ∨ Digits int ∧ int.head? ≠ some 48
  frac : frac = [] ∨ ∃ digits, frac = 46 :: digits ∧ Digits digits
  exp : exp = [] ∨ ∃ e sign digits, exp = e :: (sign ++ digits) ∧ (e = 101 ∨ e = 69) ∧
    (sign = [] ∨ sign = [43] ∨ sign = [45]) ∧ Digits digits

/-- `true`, `false`, `null` or a number. -/
def IsScalar (bytes : List UInt8) : Prop :=
  bytes = [116, 114, 117, 101] ∨ bytes = [102, 97, 108, 115, 101] ∨ bytes = [110, 117, 108, 108] ∨
    ∃ minus int frac exp, IsNumber bytes minus int frac exp

inductive Token where
  | openObj
  | closeObj
  | openArr
  | closeArr
  | comma
  | colon
  | string (body : List UInt8)
  | scalar (bytes : List UInt8)
  deriving DecidableEq, Repr

namespace Token

def text : Token → List UInt8
  | openObj => [123]
  | closeObj => [125]
  | openArr => [91]
  | closeArr => [93]
  | comma => [44]
  | colon => [58]
  | string body => 34 :: (body ++ [34])
  | scalar bytes => bytes

def Lexical : Token → Prop
  | string body => StringBody body
  | scalar bytes => IsScalar bytes
  | _ => True

def isScalar : Token → Bool
  | scalar _ => true
  | _ => false

end Token

/-- What a list of tokens is a derivation of. -/
inductive Part where
  | value
  | items
  | members

inductive Derives : Part → List Token → Prop
  | scalar {bytes : List UInt8} (lexical : IsScalar bytes) : Derives .value [.scalar bytes]
  | string {body : List UInt8} (lexical : StringBody body) : Derives .value [.string body]
  | emptyArr : Derives .value [.openArr, .closeArr]
  | arr {items : List Token} (inner : Derives .items items) : Derives .value (.openArr :: (items ++ [.closeArr]))
  | emptyObj : Derives .value [.openObj, .closeObj]
  | obj {members : List Token} (inner : Derives .members members) :
      Derives .value (.openObj :: (members ++ [.closeObj]))
  | item {value : List Token} (first : Derives .value value) : Derives .items value
  | items {value rest : List Token} (first : Derives .value value) (more : Derives .items rest) :
      Derives .items (value ++ .comma :: rest)
  | member {key : List UInt8} {value : List Token} (lexical : StringBody key) (first : Derives .value value) :
      Derives .members (.string key :: .colon :: value)
  | members {key : List UInt8} {value rest : List Token} (lexical : StringBody key) (first : Derives .value value)
      (more : Derives .members rest) : Derives .members (.string key :: .colon :: (value ++ .comma :: rest))

/-- The tokens in order, blanks before each of them. -/
inductive Writes : List Token → List UInt8 → Prop
  | nil : Writes [] []
  | cons {t : Token} {ts : List Token} {blanks rest : List UInt8} (blank : ∀ b ∈ blanks, isBlank b = true)
      (later : Writes ts rest) : Writes (t :: ts) (blanks ++ (t.text ++ rest))

/-- A text with these tokens; blanks may also end it. -/
def Spells (ts : List Token) (text : List UInt8) : Prop :=
  ∃ written blanks, text = written ++ blanks ∧ Writes ts written ∧ ∀ b ∈ blanks, isBlank b = true

/-- A valid JSON text and its tokens. -/
def Document (ts : List Token) (text : List UInt8) : Prop := Derives .value ts ∧ Spells ts text

variable {b : UInt8} {bytes body rest : List UInt8} {t : Token} {ts us : List Token}

theorem Writes.one {blanks : List UInt8} (t : Token) (blank : ∀ b ∈ blanks, isBlank b = true) :
    Writes [t] (blanks ++ t.text) := by
  have written := Writes.cons (t := t) blank .nil
  rwa [List.append_nil] at written

theorem Writes.append {first second : List UInt8} (left : Writes ts first) (right : Writes us second) :
    Writes (ts ++ us) (first ++ second) := by
  induction left with
  | nil => exact right
  | cons blank _ ih =>
    rw [List.append_assoc, List.append_assoc]
    exact .cons blank ih

theorem Writes.indented {written blanks : List UInt8} (writes : Writes (t :: ts) written)
    (blank : ∀ b ∈ blanks, isBlank b = true) : Writes (t :: ts) (blanks ++ written) := by
  cases writes with
  | cons own later =>
    rw [← List.append_assoc]
    refine .cons (fun b member => ?_) later
    rcases List.mem_append.mp member with left | right
    · exact blank b left
    · exact own b right

theorem isPlain_of_isDigit (digit : isDigit b = true) : isPlain b = true := by
  revert digit
  simp only [isDigit, isPlain, isBlank, Bool.and_eq_true, decide_eq_true_eq, UInt8.le_iff_toNat_le, Bool.not_eq_true',
    Bool.or_eq_false_iff, beq_eq_false_iff_ne, bne_iff_ne, ne_eq, ← UInt8.toNat_inj]
  simp
  omega

theorem isPlain_of_digits (digits : Digits bytes) : ∀ b ∈ bytes, isPlain b = true :=
  fun b member => isPlain_of_isDigit (digits.2 b member)

theorem isPlain_of_number {minus int frac exp : List UInt8} (number : IsNumber bytes minus int frac exp) :
    bytes ≠ [] ∧ ∀ b ∈ bytes, isPlain b = true := by
  have whole : int ≠ [] ∧ ∀ b ∈ int, isPlain b = true := by
    rcases number.int with rfl | ⟨digits, -⟩
    · exact ⟨List.cons_ne_nil _ _, List.all_eq_true.mp (by decide)⟩
    · exact ⟨digits.1, isPlain_of_digits digits⟩
  rw [number.parts]
  refine ⟨fun empty => whole.1 (List.append_eq_nil_iff.mp (List.append_eq_nil_iff.mp empty).2).1, fun b member => ?_⟩
  rcases List.mem_append.mp member with sign | member
  · rcases number.minus with rfl | rfl
    · exact absurd sign List.not_mem_nil
    · rw [List.mem_singleton.mp sign]
      decide
  rcases List.mem_append.mp member with digit | member
  · exact whole.2 b digit
  rcases List.mem_append.mp member with inside | inside
  · rcases number.frac with rfl | ⟨digits, rfl, digital⟩
    · exact absurd inside List.not_mem_nil
    · rcases List.mem_cons.mp inside with rfl | digit
      · decide
      · exact isPlain_of_digits digital b digit
  · rcases number.exp with rfl | ⟨e, sign, digits, rfl, letter, signed, digital⟩
    · exact absurd inside List.not_mem_nil
    · rcases List.mem_cons.mp inside with rfl | inside
      · rcases letter with rfl | rfl
        · decide
        · decide
      · rcases List.mem_append.mp inside with own | digit
        · rcases signed with rfl | rfl | rfl
          · exact absurd own List.not_mem_nil
          · rw [List.mem_singleton.mp own]
            decide
          · rw [List.mem_singleton.mp own]
            decide
        · exact isPlain_of_digits digital b digit

theorem isPlain_of_scalar (scalar : IsScalar bytes) : bytes ≠ [] ∧ ∀ b ∈ bytes, isPlain b = true := by
  rcases scalar with rfl | rfl | rfl | ⟨minus, int, frac, exp, number⟩
  · exact ⟨List.cons_ne_nil _ _, List.all_eq_true.mp (by decide)⟩
  · exact ⟨List.cons_ne_nil _ _, List.all_eq_true.mp (by decide)⟩
  · exact ⟨List.cons_ne_nil _ _, List.all_eq_true.mp (by decide)⟩
  · exact isPlain_of_number number

theorem isPlain_not_blank (blank : isBlank b = true) : isPlain b = false := by
  simp only [isPlain, blank, Bool.not_true, Bool.false_and]

theorem dropBlanks {blanks : List UInt8} (blank : ∀ b ∈ blanks, isBlank b = true) (dark : isBlank b = false) :
    (blanks ++ b :: rest).dropWhile isBlank = b :: rest := by
  rw [List.dropWhile_append_of_pos blank, List.dropWhile_cons_of_neg (by simp [dark])]

/-- Bytes in which every quotation mark is behind a backslash. -/
inductive Quoted : List UInt8 → Prop
  | nil : Quoted []
  | byte {b : UInt8} {rest : List UInt8} (quote : b ≠ 34) (backslash : b ≠ 92) (body : Quoted rest) : Quoted (b :: rest)
  | escape {b : UInt8} {rest : List UInt8} (body : Quoted rest) : Quoted (92 :: b :: rest)

theorem Quoted.plain (quote : ∀ b ∈ bytes, b ≠ 34 ∧ b ≠ 92) (quoted : Quoted rest) : Quoted (bytes ++ rest) := by
  induction bytes with
  | nil => exact quoted
  | cons b bytes ih =>
    have own := quote b List.mem_cons_self
    exact .byte own.1 own.2 (ih fun c member => quote c (List.mem_cons_of_mem b member))

theorem Multibyte.high (wide : Multibyte bytes) : ∀ b ∈ bytes, 128 ≤ b := by
  have tail (b : UInt8) (holds : isTail b = true) : 128 ≤ b := by
    simp only [isTail, Bool.and_eq_true, decide_eq_true_eq] at holds
    exact holds.1
  have lead (a c : UInt8) (above : 128 ≤ c) (holds : c ≤ a) : 128 ≤ a := UInt8.le_trans above holds
  intro b member
  cases wide with
  | two low _ second =>
    rcases List.mem_pair.mp member with rfl | rfl
    · exact lead b 194 (by decide) low
    · exact tail b second
  | three low _ second third =>
    simp only [List.mem_cons, List.not_mem_nil, or_false] at member
    rcases member with rfl | rfl | rfl
    · exact lead b 224 (by decide) low
    · exact tail b second
    · exact tail b third
  | four low _ second third fourth =>
    simp only [List.mem_cons, List.not_mem_nil, or_false] at member
    rcases member with rfl | rfl | rfl | rfl
    · exact lead b 240 (by decide) low
    · exact tail b second
    · exact tail b third
    · exact tail b fourth

theorem StringBody.quoted (lexical : StringBody body) : Quoted body := by
  induction lexical with
  | nil => exact .nil
  | ascii _ _ quote backslash _ ih => exact .byte quote backslash ih
  | multibyte wide _ ih =>
    refine .plain (fun b member => ?_) ih
    have high := wide.high b member
    exact ⟨by rintro rfl; exact absurd high (by decide), by rintro rfl; exact absurd high (by decide)⟩
  | escape _ _ ih => exact .escape ih
  | unicode hex _ ih =>
    have digit (b : UInt8) (holds : isHex b = true) : b ≠ 34 ∧ b ≠ 92 :=
      ⟨by rintro rfl; exact absurd holds (by decide), by rintro rfl; exact absurd holds (by decide)⟩
    exact .escape (.plain (fun b member => digit b (hex b member)) ih)

/-- The first free quotation mark ends a string. -/
theorem Quoted.unique {other first second : List UInt8} (quoted : Quoted body) (also : Quoted other)
    (same : body ++ 34 :: first = other ++ 34 :: second) : body = other ∧ first = second := by
  induction quoted generalizing other with
  | nil =>
    cases also with
    | nil => exact ⟨rfl, (List.cons.inj same).2⟩
    | byte quote => exact absurd (List.cons.inj same).1.symm quote
    | escape => exact absurd (List.cons.inj same).1 (by decide)
  | byte quote backslash _ ih =>
    cases also with
    | nil => exact absurd (List.cons.inj same).1 quote
    | byte _ _ inner =>
      obtain ⟨rfl, later⟩ := List.cons.inj same
      obtain ⟨rfl, rest⟩ := ih inner later
      exact ⟨rfl, rest⟩
    | escape => exact absurd (List.cons.inj same).1 backslash
  | escape _ ih =>
    cases also with
    | nil => exact absurd (List.cons.inj same).1 (by decide)
    | byte _ backslash => exact absurd (List.cons.inj same).1.symm backslash
    | escape inner =>
      obtain ⟨rfl, later⟩ := List.cons.inj (List.cons.inj same).2
      obtain ⟨rfl, rest⟩ := ih inner later
      exact ⟨rfl, rest⟩

/-- No two scalars stand side by side, so their bytes never run together. -/
def Apart (t u : Token) : Prop := t.isScalar = false ∨ u.isScalar = false

theorem Derives.lexical {part : Part} (derives : Derives part ts) : ∀ t ∈ ts, t.Lexical := by
  induction derives with
  | scalar lexical => simpa [Token.Lexical] using lexical
  | string lexical => simpa [Token.Lexical] using lexical
  | emptyArr => simp [Token.Lexical]
  | emptyObj => simp [Token.Lexical]
  | arr _ ih => simpa [Token.Lexical, or_imp, forall_and] using ih
  | obj _ ih => simpa [Token.Lexical, or_imp, forall_and] using ih
  | item _ ih => exact ih
  | items _ _ first more => simpa [Token.Lexical, or_imp, forall_and] using ⟨first, more⟩
  | member lexical _ ih => simpa [Token.Lexical, or_imp, forall_and] using ⟨lexical, ih⟩
  | members lexical _ _ first more => simpa [Token.Lexical, or_imp, forall_and] using ⟨lexical, first, more⟩

/-- What a value, a list of items or a list of members begins with. -/
theorem Derives.head {part : Part} (derives : Derives part ts) :
    ∃ t later, ts = t :: later ∧ t ≠ .closeObj ∧ t ≠ .closeArr := by
  induction derives with
  | scalar => exact ⟨_, _, rfl, nofun, nofun⟩
  | string => exact ⟨_, _, rfl, nofun, nofun⟩
  | emptyArr => exact ⟨_, _, rfl, nofun, nofun⟩
  | emptyObj => exact ⟨_, _, rfl, nofun, nofun⟩
  | arr => exact ⟨_, _, rfl, nofun, nofun⟩
  | obj => exact ⟨_, _, rfl, nofun, nofun⟩
  | item _ ih => exact ih
  | items _ _ first _ =>
    obtain ⟨t, later, rfl, open'⟩ := first
    exact ⟨t, _, rfl, open'⟩
  | member => exact ⟨_, _, rfl, nofun, nofun⟩
  | members => exact ⟨_, _, rfl, nofun, nofun⟩

theorem apart_of_punctuation (separate : ts.IsChain Apart) (mark : t.isScalar = false) : (t :: ts).IsChain Apart := by
  cases ts with
  | nil => exact .singleton t
  | cons u us => exact .cons_cons (.inl mark) separate

theorem apart_append (left : ts.IsChain Apart) (right : (t :: us).IsChain Apart) (mark : t.isScalar = false) :
    (ts ++ t :: us).IsChain Apart := by
  refine List.isChain_append.mpr ⟨left, right, fun x _ y member => ?_⟩
  rw [List.head?_cons, Option.mem_some_iff] at member
  exact .inr (member ▸ mark)

theorem Derives.apart {part : Part} (derives : Derives part ts) : ts.IsChain Apart := by
  induction derives with
  | scalar => exact .singleton _
  | string => exact .singleton _
  | emptyArr => exact apart_of_punctuation (.singleton _) rfl
  | emptyObj => exact apart_of_punctuation (.singleton _) rfl
  | arr _ ih => exact apart_of_punctuation (apart_append ih (.singleton _) rfl) rfl
  | obj _ ih => exact apart_of_punctuation (apart_append ih (.singleton _) rfl) rfl
  | item _ ih => exact ih
  | items _ _ first more => exact apart_append first (apart_of_punctuation more rfl) rfl
  | member _ _ ih => exact apart_of_punctuation (apart_of_punctuation ih rfl) rfl
  | members _ _ _ first more =>
    exact apart_of_punctuation
      (apart_of_punctuation (apart_append first (apart_of_punctuation more rfl) rfl) rfl) rfl

theorem Writes.bare (later : Writes ts rest) : Writes (t :: ts) (t.text ++ rest) := .cons (List.forall_mem_nil _) later

theorem Writes.spaced (blank : isBlank b = true) (later : Writes ts rest) : Writes (t :: ts) (b :: (t.text ++ rest)) :=
  .cons (List.forall_mem_singleton.mpr blank) later

theorem Writes.split {text : List UInt8} (ts : List Token) (writes : Writes (ts ++ us) text) :
    ∃ first second, text = first ++ second ∧ Writes ts first ∧ Writes us second := by
  induction ts generalizing text with
  | nil => exact ⟨[], text, rfl, .nil, writes⟩
  | cons t ts ih =>
    cases writes with
    | cons blank later =>
      obtain ⟨first, second, rfl, left, right⟩ := ih later
      exact ⟨_, second, by simp only [List.append_assoc], .cons blank left, right⟩

theorem Token.Lexical.head (lexical : t.Lexical) : ∃ b later, t.text = b :: later ∧ isBlank b = false := by
  cases t with
  | scalar bytes =>
    obtain ⟨filled, plain⟩ := isPlain_of_scalar lexical
    obtain ⟨b, later, rfl⟩ := List.exists_cons_of_ne_nil filled
    refine ⟨b, later, rfl, Bool.eq_false_iff.mpr fun blank => ?_⟩
    exact absurd (plain b List.mem_cons_self) (by simp [isPlain_not_blank blank])
  | string body => exact ⟨34, _, rfl, by decide⟩
  | _ => exact ⟨_, _, rfl, by decide⟩

/-- Only a scalar begins with a plain byte. -/
theorem Token.head_plain (plain : isPlain b = true) (own : t.text = b :: bytes) : t.isScalar = true := by
  cases t with
  | scalar => rfl
  | string body => exact absurd plain (by rw [← (List.cons.inj own).1]; decide)
  | _ => exact absurd plain (by rw [← (List.cons.inj own).1]; decide)

/-- What follows a token that is no scalar, or any other text without a plain byte at its head. -/
def Stops (text : List UInt8) : Prop := ∀ b ∈ text.head?, isPlain b = false

theorem Writes.stops {text blanks : List UInt8} (writes : Writes ts text) (lexical : ∀ t ∈ ts, t.Lexical)
    (mark : ∀ t ∈ ts.head?, t.isScalar = false) (blank : ∀ b ∈ blanks, isBlank b = true) : Stops (text ++ blanks) := by
  have ofBlank (bytes later : List UInt8) (all : ∀ b ∈ bytes, isBlank b = true) (own : Stops later) :
      Stops (bytes ++ later) := by
    cases bytes with
    | nil => exact own
    | cons b bytes =>
      intro c member
      rw [List.cons_append, List.head?_cons, Option.mem_some_iff] at member
      exact isPlain_not_blank (all c (member ▸ List.mem_cons_self))
  cases writes with
  | nil =>
    rw [List.nil_append, ← List.append_nil blanks]
    exact ofBlank blanks [] blank nofun
  | @cons t ts own rest first later =>
    rw [List.append_assoc]
    refine ofBlank own _ first fun b member => ?_
    obtain ⟨c, after, text, -⟩ := (lexical t List.mem_cons_self).head
    rw [text, List.append_assoc, List.cons_append, List.head?_cons, Option.mem_some_iff] at member
    by_contra plain
    have scalar := Token.head_plain (eq_true_of_ne_false plain) (member ▸ text)
    exact absurd scalar (by rw [mark t (by rw [List.head?_cons]; rfl)]; decide)

theorem plain_unique {other first second : List UInt8} (plain : ∀ b ∈ bytes, isPlain b = true)
    (also : ∀ b ∈ other, isPlain b = true) (stop : Stops first) (halt : Stops second)
    (same : bytes ++ first = other ++ second) : bytes = other ∧ first = second := by
  induction bytes generalizing other with
  | nil =>
    cases other with
    | nil => exact ⟨rfl, same⟩
    | cons b other =>
      have head := stop b (by rw [← List.nil_append first, same]; rfl)
      exact absurd (also b List.mem_cons_self) (by simp [head])
  | cons b bytes ih =>
    cases other with
    | nil =>
      have head := halt b (by rw [← List.nil_append second, ← same]; rfl)
      exact absurd (plain b List.mem_cons_self) (by simp [head])
    | cons c other =>
      obtain ⟨rfl, later⟩ := List.cons.inj same
      obtain ⟨rfl, rest⟩ := ih (fun x member => plain x (List.mem_cons_of_mem b member))
        (fun x member => also x (List.mem_cons_of_mem b member)) later
      exact ⟨rfl, rest⟩

theorem Token.text_unique {u : Token} {first second : List UInt8} (lexical : t.Lexical) (also : u.Lexical)
    (stop : t.isScalar = true → Stops first) (halt : u.isScalar = true → Stops second)
    (same : t.text ++ first = u.text ++ second) : t = u ∧ first = second := by
  have heads : t.isScalar = u.isScalar := by
    obtain ⟨b, left, ownLeft, -⟩ := lexical.head
    obtain ⟨c, right, ownRight, -⟩ := also.head
    have equal : b = c := by
      rw [ownLeft, ownRight] at same
      exact (List.cons.inj same).1
    subst equal
    have plain (t : Token) (own : ∃ later, t.text = b :: later) (lexical : t.Lexical) (scalar : t.isScalar = true) :
        isPlain b = true := by
      cases t with
      | scalar bytes =>
        obtain ⟨later, own⟩ := own
        exact (isPlain_of_scalar lexical).2 b (by rw [show bytes = b :: later from own]; exact List.mem_cons_self)
      | _ => exact Bool.noConfusion scalar
    refine Bool.eq_iff_iff.mpr ⟨fun scalar => ?_, fun scalar => ?_⟩
    · exact Token.head_plain (plain t ⟨left, ownLeft⟩ lexical scalar) ownRight
    · exact Token.head_plain (plain u ⟨right, ownRight⟩ also scalar) ownLeft
  cases t with
  | scalar bytes =>
    cases u with
    | scalar other =>
      obtain ⟨rfl, rest⟩ := plain_unique (isPlain_of_scalar lexical).2 (isPlain_of_scalar also).2 (stop rfl) (halt rfl) same
      exact ⟨rfl, rest⟩
    | _ => exact Bool.noConfusion heads
  | string body =>
    cases u with
    | string other =>
      have inner : body ++ 34 :: first = other ++ 34 :: second := by
        simpa only [Token.text, List.cons_append, List.append_assoc, List.nil_append, List.cons.injEq, true_and] using same
      obtain ⟨rfl, rest⟩ := lexical.quoted.unique also.quoted inner
      exact ⟨rfl, rest⟩
    | scalar => exact Bool.noConfusion heads
    | _ => exact absurd (List.cons.inj same).1 (by decide)
  | _ =>
    cases u with
    | scalar => exact Bool.noConfusion heads
    | string => exact absurd (List.cons.inj same).1 (by decide)
    | _ => first
      | exact ⟨rfl, (List.cons.inj same).2⟩
      | exact absurd (List.cons.inj same).1 (by decide)

theorem Writes.unique {text other blanks tail : List UInt8} (writes : Writes ts text) (also : Writes us other)
    (lexical : ∀ t ∈ ts, t.Lexical) (lexicalAlso : ∀ t ∈ us, t.Lexical) (apart : ts.IsChain Apart)
    (apartAlso : us.IsChain Apart) (blank : ∀ b ∈ blanks, isBlank b = true) (white : ∀ b ∈ tail, isBlank b = true)
    (same : text ++ blanks = other ++ tail) : ts = us := by
  have next {t : Token} {ts : List Token} (apart : (t :: ts).IsChain Apart) (scalar : t.isScalar = true) :
      ∀ u ∈ ts.head?, u.isScalar = false := by
    intro u member
    cases ts with
    | nil => exact absurd member (by simp)
    | cons v ts =>
      rw [List.head?_cons, Option.mem_some_iff] at member
      subst member
      rcases (List.isChain_cons_cons.mp apart).1 with mark | mark
      · exact absurd scalar (by simp [mark])
      · exact mark
  have dark {t : Token} {bytes rest : List UInt8} (lexical : t.Lexical) :
      ¬ ∀ b ∈ bytes ++ (t.text ++ rest), isBlank b = true := by
    intro all
    obtain ⟨b, later, own, visible⟩ := lexical.head
    have holds := all b (by rw [own]; simp)
    exact absurd holds (by simp [visible])
  induction writes generalizing us other with
  | nil =>
    cases also with
    | nil => rfl
    | @cons u us own rest _ _ =>
      rw [List.nil_append, List.append_assoc, List.append_assoc] at same
      exact absurd (same ▸ blank) (dark (lexicalAlso u List.mem_cons_self))
  | @cons t ts own rest first later ih =>
    cases also with
    | nil =>
      rw [List.nil_append, List.append_assoc, List.append_assoc] at same
      exact absurd (same ▸ white) (dark (lexical t List.mem_cons_self))
    | @cons u us mine after second behind =>
      have trimmed : t.text ++ (rest ++ blanks) = u.text ++ (after ++ tail) := by
        obtain ⟨b, left, ownLeft, visible⟩ := (lexical t List.mem_cons_self).head
        obtain ⟨c, right, ownRight, shown⟩ := (lexicalAlso u List.mem_cons_self).head
        have dropped := congrArg (List.dropWhile isBlank) same
        rw [List.append_assoc, List.append_assoc, List.append_assoc, List.append_assoc, ownLeft, ownRight,
          List.cons_append, List.cons_append, dropBlanks first visible, dropBlanks second shown] at dropped
        rw [ownLeft, ownRight]
        exact dropped
      have inner (x : Token) (member : x ∈ ts) := lexical x (List.mem_cons_of_mem t member)
      have innerAlso (x : Token) (member : x ∈ us) := lexicalAlso x (List.mem_cons_of_mem u member)
      obtain ⟨rfl, equal⟩ := Token.text_unique (lexical t List.mem_cons_self) (lexicalAlso u List.mem_cons_self)
        (fun scalar => later.stops inner (next apart scalar) blank)
        (fun scalar => behind.stops innerAlso (next apartAlso scalar) white) trimmed
      rw [ih behind inner innerAlso apart.tail apartAlso.tail equal]

/-- A text is a document in one way only. -/
theorem Document.unique {text : List UInt8} (document : Document ts text) (also : Document us text) : ts = us := by
  obtain ⟨derives, written, blanks, own, writes, blank⟩ := document
  obtain ⟨derivesAlso, other, tail, ownAlso, writesAlso, white⟩ := also
  exact writes.unique writesAlso derives.lexical derivesAlso.lexical derives.apart derivesAlso.apart blank white
    (own.symm.trans ownAlso)

end JsonTokens
