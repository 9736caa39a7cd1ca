import SiriusProxy.Master.Git

namespace SiriusProxy.Master.Git
open JsonTokens (isBlank)

section Positions

/-! `reindent` by positions. The outer `none` is a loop that has not ended or a slice out of range, the inner
`none` the result of the function. -/

variable (input : List UInt8)

/-- `&input[start..stop]`. -/
def slice (start stop : Nat) : Option (List UInt8) :=
  if start ≤ stop ∧ stop ≤ input.length then some ((input.drop start).take (stop - start)) else none

/-- The loop inside a string: the position of its closing quotation mark. -/
def stringEnd : Nat → Nat → Option (Option Nat)
  | 0, _ => none
  | fuel + 1, i =>
    match input[i]? with
    | none => some none
    | some b => if b = 92 then stringEnd fuel (i + 2) else if b = 34 then some (some i) else stringEnd fuel (i + 1)

def skipBlank : Nat → Nat → Option Nat
  | 0, _ => none
  | fuel + 1, next => if input[next]?.any isBlank then skipBlank fuel (next + 1) else some next

def loop : Nat → Nat → Nat → List UInt8 → Option (Option (List UInt8))
  | 0, _, _, _ => none
  | fuel + 1, i, depth, out =>
    match input[i]? with
    | none => some (if depth ≠ 0 ∨ out = [] then none else some (out ++ [10]))
    | some b =>
      if isBlank b then loop fuel (i + 1) depth out
      else if b = 34 then
        match stringEnd input fuel (i + 1) with
        | none => none
        | some none => some none
        | some (some stop) =>
          match slice input i (stop + 1) with
          | none => none
          | some text => loop fuel (stop + 1) depth (out ++ text)
      else if b = 123 ∨ b = 91 then
        let close := if b = 123 then 125 else 93
        match skipBlank input fuel (i + 1) with
        | none => none
        | some next =>
          if input[next]? = some close then loop fuel (next + 1) depth (out ++ [b, close])
          else loop fuel (i + 1) (depth + 1) (out ++ b :: newline (depth + 1))
      else if b = 125 ∨ b = 93 then
        if depth = 0 then some none else loop fuel (i + 1) (depth - 1) (out ++ newline (depth - 1) ++ [b])
      else if b = 44 then loop fuel (i + 1) depth (out ++ b :: newline depth)
      else if b = 58 then loop fuel (i + 1) depth (out ++ [b, 32])
      else loop fuel (i + 1) depth (out ++ [b])

variable {input} {fuel i depth : Nat} {b : UInt8} {out : List UInt8}

theorem drop_of_get (here : input[i]? = some b) : input.drop i = b :: input.drop (i + 1) := by
  obtain ⟨bound, rfl⟩ := List.getElem?_eq_some_iff.mp here
  exact List.drop_eq_getElem_cons bound

theorem drop_of_none (here : input[i]? = none) : input.drop i = [] :=
  List.drop_eq_nil_of_le (List.getElem?_eq_none_iff.mp here)

theorem take_of_get {stop : Nat} (here : input[i]? = some b) (after : i ≤ stop) :
    (input.drop i).take (stop + 1 - i) = b :: (input.drop (i + 1)).take (stop + 1 - (i + 1)) := by
  rw [drop_of_get here, show stop + 1 - i = stop + 1 - (i + 1) + 1 by omega, List.take_succ_cons]

/-- Where a string of the input ends, and what the scan copies of it. -/
inductive StringEnds (input : List UInt8) (i : Nat) : Option Nat → Prop
  | unclosed (scan : ∀ depth out, reindentFrom (input.drop i) .string depth out = none) : StringEnds input i none
  | closed {stop : Nat} (after : i ≤ stop) (bound : stop < input.length)
      (scan : ∀ depth out, reindentFrom (input.drop i) .string depth out =
        reindentFrom (input.drop (stop + 1)) .plain depth (out ++ (input.drop i).take (stop + 1 - i))) :
      StringEnds input i (some stop)

/-- With enough fuel the loop inside a string ends, and the scan that reads byte by byte comes to the same place
having copied the same bytes. The induction goes by one byte, or by two behind a backslash; a backslash at the very
end leaves the string open in both. -/
theorem stringEnd_spec (enough : input.length - i < fuel) :
    ∃ ending, stringEnd input fuel i = some ending ∧ StringEnds input i ending := by
  induction fuel generalizing i with
  | zero => omega
  | succ fuel ih =>
    cases here : input[i]? with
    | none =>
      refine ⟨none, by rw [stringEnd, here], .unclosed fun depth out => ?_⟩
      rw [drop_of_none here, reindentFrom]
      exact nofun
    | some b =>
      have bound := (List.getElem?_eq_some_iff.mp here).1
      by_cases backslash : b = 92
      · subst backslash
        obtain ⟨ending, eval, ends⟩ := ih (i := i + 2) (by omega)
        refine ⟨ending, by rw [stringEnd, here]; simpa only [if_pos] using eval, ?_⟩
        cases next : input[i + 1]? with
        | none =>
          have late := List.getElem?_eq_none_iff.mp next
          cases ends with
          | unclosed =>
            refine .unclosed fun depth out => ?_
            rw [drop_of_get here, reindentFrom, if_pos rfl, drop_of_none next, reindentFrom]
            exact nofun
          | closed after inside => omega
        | some c =>
          have step (depth : Nat) (out : List UInt8) : reindentFrom (input.drop i) .string depth out =
              reindentFrom (input.drop (i + 2)) .string depth (out ++ [92] ++ [c]) := by
            rw [drop_of_get here, reindentFrom, if_pos rfl, drop_of_get next, reindentFrom]
          cases ends with
          | unclosed scan => exact .unclosed fun depth out => by rw [step, scan]
          | closed after inside scan =>
            refine .closed (by omega) inside fun depth out => ?_
            rw [step, scan, take_of_get here (by omega), take_of_get next (by omega)]
            simp only [List.append_assoc, List.cons_append, List.nil_append]
      · by_cases quote : b = 34
        · subst quote
          refine ⟨some i, by rw [stringEnd, here]; rfl, .closed le_rfl bound fun depth out => ?_⟩
          rw [drop_of_get here, reindentFrom, if_neg backslash, if_pos rfl, show i + 1 - i = 1 by omega]
          rfl
        · obtain ⟨ending, eval, ends⟩ := ih (i := i + 1) (by omega)
          refine ⟨ending, by rw [stringEnd, here]; simpa only [if_neg backslash, if_neg quote] using eval, ?_⟩
          have step (depth : Nat) (out : List UInt8) : reindentFrom (input.drop i) .string depth out =
              reindentFrom (input.drop (i + 1)) .string depth (out ++ [b]) := by
            rw [drop_of_get here, reindentFrom, if_neg backslash, if_neg quote]
          cases ends with
          | unclosed scan => exact .unclosed fun depth out => by rw [step, scan]
          | closed after inside scan =>
            refine .closed (by omega) inside fun depth out => ?_
            rw [step, scan, take_of_get here (by omega), List.append_assoc, List.singleton_append]

/-- With enough fuel the loop over blanks ends at the first byte that is none, or at the end of the input. -/
theorem skipBlank_spec (enough : input.length - i < fuel) :
    ∃ next, skipBlank input fuel i = some next ∧ i ≤ next ∧ input.drop next = (input.drop i).dropWhile isBlank := by
  induction fuel generalizing i with
  | zero => omega
  | succ fuel ih =>
    cases here : input[i]? with
    | none =>
      refine ⟨i, by rw [skipBlank, here]; rfl, le_rfl, ?_⟩
      rw [drop_of_none here]
      rfl
    | some b =>
      have bound := (List.getElem?_eq_some_iff.mp here).1
      rw [drop_of_get here]
      by_cases blank : isBlank b = true
      · obtain ⟨next, eval, after, trimmed⟩ := ih (i := i + 1) (by omega)
        refine ⟨next, by rw [skipBlank, here, Option.any_some, if_pos blank, eval], by omega, ?_⟩
        rw [trimmed, List.dropWhile_cons_of_pos blank]
      · refine ⟨i, by rw [skipBlank, here, Option.any_some, if_neg blank], le_rfl, ?_⟩
        rw [drop_of_get here, List.dropWhile_cons_of_neg blank]

/-- Behind the bracket that closes an empty object or array. -/
theorem reindentFrom_closing (rest : List UInt8) (depth : Nat) (out : List UInt8)
    (ends : (rest.dropWhile isBlank).head? = some b) :
    reindentFrom rest .closing depth out = reindentFrom (rest.dropWhile isBlank).tail .plain depth out := by
  induction rest with
  | nil => exact absurd ends nofun
  | cons c rest ih =>
    by_cases blank : isBlank c = true
    · rw [List.dropWhile_cons_of_pos blank] at ends ⊢
      rw [reindentFrom, if_pos blank, ih ends]
    · rw [List.dropWhile_cons_of_neg blank, reindentFrom, if_neg blank, List.tail_cons]

/-- The positions never leave the input, every loop ends, and the result is that of the scan. -/
theorem loop_eq (enough : input.length - i < fuel) :
    loop input fuel i depth out = some (reindentFrom (input.drop i) .plain depth out) := by
  induction fuel generalizing i depth out with
  | zero => omega
  | succ fuel ih =>
    cases here : input[i]? with
    | none => rw [loop, here, drop_of_none here, reindentFrom]
    | some b =>
      have bound := (List.getElem?_eq_some_iff.mp here).1
      have next : input.length - (i + 1) < fuel := by omega
      obtain ⟨after, skips, later, trimmed⟩ := skipBlank_spec next
      have ahead : input[after]? = ((input.drop (i + 1)).dropWhile isBlank).head? := by rw [← trimmed, List.head?_drop]
      have empty (close : UInt8) (found : ((input.drop (i + 1)).dropWhile isBlank).head? = some close) (out : List UInt8) :
          loop input fuel (after + 1) depth out = some (reindentFrom (input.drop (i + 1)) .closing depth out) := by
        rw [ih (by omega), reindentFrom_closing _ _ _ found, ← trimmed, List.tail_drop]
      rw [loop, here, drop_of_get here, reindentFrom]
      simp only [skips, ahead]
      by_cases blank : isBlank b = true
      · rw [if_pos blank, if_pos blank]
        exact ih next
      rw [if_neg blank, if_neg blank]
      by_cases quote : b = 34
      · rw [if_pos quote, if_pos quote]
        obtain ⟨ending, eval, ends⟩ := stringEnd_spec next
        simp only [eval]
        cases ends with
        | unclosed scan => rw [scan]
        | @closed stop past inside scan =>
          have sliced : slice input i (stop + 1) = some ((input.drop i).take (stop + 1 - i)) :=
            if_pos ⟨by omega, by omega⟩
          simp only [sliced]
          rw [ih (by omega), scan, take_of_get here (by omega), List.append_assoc, List.singleton_append]
      rw [if_neg quote, if_neg quote]
      by_cases opening : b = 123 ∨ b = 91
      · rw [if_pos opening, if_pos opening]
        split_ifs with brace closed closed
        · exact empty 125 closed _
        · exact ih next
        · exact empty 93 closed _
        · exact ih next
      rw [if_neg opening, if_neg opening]
      split_ifs with closing outermost comma colon
      · rfl
      · exact ih next
      · exact ih next
      · exact ih next
      · exact ih next

end Positions

section Documents

open JsonTokens (Token Part Derives Writes Quoted)

variable {depth : Nat} {b close : UInt8} {out rest text blanks : List UInt8} {left right t : Token} {ts us : List Token}

/-- The layout that is put between tokens is blank. -/
theorem blank_newline (depth : Nat) : ∀ b ∈ newline depth, isBlank b = true := by
  intro b member
  rcases List.mem_cons.mp member with rfl | member
  · decide
  · rw [List.eq_of_mem_replicate member]
    decide

/-- Blanks between tokens leave no trace in the output. -/
theorem reindentFrom_blanks (blank : ∀ b ∈ blanks, isBlank b = true) :
    reindentFrom (blanks ++ rest) .plain depth out = reindentFrom rest .plain depth out := by
  induction blanks with
  | nil => rfl
  | cons b blanks ih =>
    rw [List.cons_append, reindentFrom, if_pos (blank b List.mem_cons_self)]
    exact ih fun c member => blank c (List.mem_cons_of_mem b member)

/-- A string is copied as it stands, escapes included. By induction on its grammar: an escape is two bytes, so a
quotation mark behind a backslash does not end the string. -/
theorem reindentFrom_quoted {body : List UInt8} (quoted : Quoted body) :
    reindentFrom (body ++ 34 :: rest) .string depth out = reindentFrom rest .plain depth (out ++ body ++ [34]) := by
  induction quoted generalizing out with
  | nil =>
    rw [List.nil_append, reindentFrom, if_neg (by decide), if_pos rfl, List.append_nil]
  | @byte b body quote backslash _ ih =>
    rw [List.cons_append, reindentFrom, if_neg backslash, if_neg quote, ih, List.append_assoc out, List.singleton_append]
  | @escape b body _ ih =>
    rw [List.cons_append, List.cons_append, reindentFrom, if_pos rfl, reindentFrom, ih]
    simp only [List.append_assoc, List.cons_append, List.nil_append]

/-- The bytes of a number or of a literal name are copied; none of them is one that the scan acts on. -/
theorem reindentFrom_plain {bytes : List UInt8} (plain : ∀ b ∈ bytes, JsonTokens.isPlain b = true) :
    reindentFrom (bytes ++ rest) .plain depth out = reindentFrom rest .plain depth (out ++ bytes) := by
  induction bytes generalizing out with
  | nil => rw [List.nil_append, List.append_nil]
  | cons b bytes ih =>
    have own := plain b List.mem_cons_self
    simp only [JsonTokens.isPlain, Bool.and_eq_true, Bool.not_eq_true', bne_iff_ne, ne_eq] at own
    obtain ⟨⟨⟨⟨⟨⟨⟨visible, quote⟩, openObj⟩, closeObj⟩, openArr⟩, closeArr⟩, comma⟩, colon⟩ := own
    have shown : ¬ isBlank b = true := by
      rw [show isBlank b = false from visible]
      decide
    rw [List.cons_append, reindentFrom, if_neg shown, if_neg quote, if_neg (not_or.mpr ⟨openObj, openArr⟩),
      if_neg (not_or.mpr ⟨closeObj, closeArr⟩), if_neg comma, if_neg colon,
      ih fun c member => plain c (List.mem_cons_of_mem b member), List.append_assoc, List.singleton_append]

/-- The brackets of an object or an array, as tokens and as bytes. -/
inductive Brackets : Token → Token → UInt8 → UInt8 → Prop
  | obj : Brackets .openObj .closeObj 123 125
  | arr : Brackets .openArr .closeArr 91 93

theorem Brackets.texts (pair : Brackets left right b close) : left.text = [b] ∧ right.text = [close] := by
  cases pair with
  | obj => exact ⟨rfl, rfl⟩
  | arr => exact ⟨rfl, rfl⟩

theorem Brackets.visible (pair : Brackets left right b close) : isBlank close = false := by
  cases pair with
  | obj => decide
  | arr => decide

/-- An opening bracket starts a line of its own unless the bracket that closes it is all that follows. -/
theorem Brackets.opens (pair : Brackets left right b close) :
    reindentFrom (b :: rest) .plain depth out =
      if (rest.dropWhile isBlank).head? = some close then reindentFrom rest .closing depth (out ++ [b, close])
      else reindentFrom rest .plain (depth + 1) (out ++ b :: newline (depth + 1)) := by
  cases pair with
  | obj => rw [reindentFrom, if_neg (by decide), if_neg (by decide), if_pos (by decide), if_pos rfl]
  | arr =>
    rw [reindentFrom, if_neg (by decide), if_neg (by decide), if_pos (by decide)]
    rfl

/-- A closing bracket stands on a line of its own, one level further out. -/
theorem Brackets.closes (pair : Brackets left right b close) :
    reindentFrom (close :: rest) .plain (depth + 1) out = reindentFrom rest .plain depth (out ++ newline depth ++ [close]) := by
  have outer : ¬ depth + 1 = 0 := Nat.succ_ne_zero depth
  cases pair with
  | obj =>
    rw [reindentFrom, if_neg (by decide), if_neg (by decide), if_neg (by decide), if_pos (by decide), if_neg outer,
      Nat.add_sub_cancel]
  | arr =>
    rw [reindentFrom, if_neg (by decide), if_neg (by decide), if_neg (by decide), if_pos (by decide), if_neg outer,
      Nat.add_sub_cancel]

theorem writes_one {written : List UInt8} (writes : Writes [t] written) :
    ∃ blanks, written = blanks ++ t.text ∧ ∀ b ∈ blanks, isBlank b = true := by
  cases writes with
  | @cons _ _ blanks _ blank later =>
    cases later with
    | nil => exact ⟨blanks, by rw [List.append_nil], blank⟩

/-- No value, item or member begins with the closing bracket. -/
theorem Brackets.ahead (pair : Brackets left right b close) (rest : List UInt8) {written : List UInt8} (lexical : t.Lexical)
    (obj : t ≠ .closeObj) (arr : t ≠ .closeArr) (writes : Writes (t :: ts) written) :
    ((written ++ rest).dropWhile isBlank).head? ≠ some close := by
  cases writes with
  | @cons _ _ blanks later blank _ =>
    obtain ⟨c, after, own, visible⟩ := lexical.head
    have trimmed : (blanks ++ c :: (after ++ (later ++ rest))).dropWhile isBlank =
        c :: (after ++ (later ++ rest)) :=
      JsonTokens.dropBlanks blank visible
    rw [own, List.append_assoc, List.cons_append, List.cons_append, List.append_assoc]
    intro head
    have same : c = close := by simpa only [trimmed, List.head?_cons, Option.some.injEq] using head
    subst same
    cases t with
    | scalar bytes =>
      have member : c ∈ bytes := by
        rw [show bytes = c :: after from own]
        exact List.mem_cons_self
      have plain := (JsonTokens.isPlain_of_scalar lexical).2 c member
      cases pair with
      | obj => exact absurd plain (by decide)
      | arr => exact absurd plain (by decide)
    | closeObj => exact obj rfl
    | closeArr => exact arr rfl
    | _ =>
      have first := (List.cons.inj own).1
      cases pair with
      | obj => exact absurd first (by decide)
      | arr => exact absurd first (by decide)

/-- What the scan makes of these tokens at this depth, wherever their text stands and however it is blanked. -/
structure Laid (ts : List Token) (depth : Nat) (text : List UInt8) : Prop where
  writes : Writes ts text
  last : ∃ body b, text = body ++ [b] ∧ b ≠ 10
  scan : ∀ written rest out, Writes ts written →
    reindentFrom (written ++ rest) .plain depth out = reindentFrom rest .plain depth (out ++ text)

/-- A number or a literal name is its own text at any depth. -/
theorem Laid.scalar {bytes : List UInt8} (lexical : JsonTokens.IsScalar bytes) : Laid [.scalar bytes] depth bytes where
  writes := Writes.one (.scalar bytes) (List.forall_mem_nil _)
  last := by
    obtain ⟨filled, plain⟩ := JsonTokens.isPlain_of_scalar lexical
    refine ⟨bytes.dropLast, bytes.getLast filled, (List.dropLast_append_getLast filled).symm, fun newline => ?_⟩
    have own := plain _ (List.getLast_mem filled)
    rw [newline] at own
    exact absurd own (by decide)
  scan := by
    intro written rest out writes
    obtain ⟨blanks, rfl, blank⟩ := writes_one writes
    rw [List.append_assoc, reindentFrom_blanks blank]
    exact reindentFrom_plain (JsonTokens.isPlain_of_scalar lexical).2

/-- A string keeps its quotation marks and its body. -/
theorem Laid.string {body : List UInt8} (lexical : JsonTokens.StringBody body) :
    Laid [.string body] depth (34 :: (body ++ [34])) where
  writes := Writes.one (.string body) (List.forall_mem_nil _)
  last := ⟨34 :: body, 34, rfl, by decide⟩
  scan := by
    intro written rest out writes
    obtain ⟨blanks, rfl, blank⟩ := writes_one writes
    rw [List.append_assoc, reindentFrom_blanks blank, Token.text, List.cons_append, List.append_assoc, List.singleton_append,
      reindentFrom, if_neg (by decide), if_pos rfl, reindentFrom_quoted lexical.quoted]
    simp only [List.append_assoc, List.cons_append, List.nil_append]

/-- Whatever blanks stand between the brackets of an empty object or array, they end up side by side. -/
theorem Laid.empty (pair : Brackets left right b close) : Laid [left, right] depth [b, close] where
  writes := by
    have texts := pair.texts
    have written := (Writes.one left (List.forall_mem_nil _)).append (Writes.one right (List.forall_mem_nil _))
    rwa [texts.1, texts.2] at written
  last := ⟨[b], close, rfl, by
    cases pair with
    | obj => decide
    | arr => decide⟩
  scan := by
    intro written rest out writes
    obtain ⟨first, second, rfl, opens, closes⟩ := Writes.split [left] writes
    obtain ⟨blanks, rfl, blank⟩ := writes_one opens
    obtain ⟨inner, rfl, white⟩ := writes_one closes
    have trimmed : ((inner ++ close :: rest).dropWhile isBlank) = close :: rest :=
      JsonTokens.dropBlanks white pair.visible
    rw [pair.texts.1, pair.texts.2, List.append_assoc, List.append_assoc, reindentFrom_blanks blank, List.singleton_append,
      pair.opens, List.append_assoc, List.singleton_append, if_pos (by rw [trimmed]; rfl),
      reindentFrom_closing _ _ _ (by rw [trimmed]; rfl), trimmed, List.tail_cons]

/-- Brackets around something that is laid out one level deeper. What is inside does not begin with the closing
bracket, so the scan takes the branch that starts a line; what it copies inside is the text of the deeper level,
and the closing bracket finds the depth it came from. -/
theorem Laid.nest (pair : Brackets left right b close) {part : Part} (derives : Derives part ts)
    (inner : Laid ts (depth + 1) text) :
    Laid (left :: (ts ++ [right])) depth (b :: (newline (depth + 1) ++ text) ++ newline depth ++ [close]) := by
  obtain ⟨t, later, rfl, obj, arr⟩ := derives.head
  have texts := pair.texts
  refine ⟨?_, ⟨_, close, rfl, ?_⟩, ?_⟩
  · have opens := Writes.one left (List.forall_mem_nil _)
    have closes := Writes.one right (blank_newline depth)
    have written := opens.append ((inner.writes.indented (blank_newline (depth + 1))).append closes)
    rw [texts.1, texts.2] at written
    simpa only [List.append_assoc, List.cons_append, List.nil_append] using written
  · cases pair with
    | obj => decide
    | arr => decide
  · intro written rest out writes
    obtain ⟨first, second, rfl, opens, more⟩ := Writes.split [left] writes
    obtain ⟨middle, ending, rfl, within, closes⟩ := Writes.split (t :: later) more
    obtain ⟨blanks, rfl, blank⟩ := writes_one opens
    obtain ⟨before, rfl, white⟩ := writes_one closes
    have ahead := pair.ahead (before ++ close :: rest) (derives.lexical t List.mem_cons_self) obj arr within
    rw [texts.1, texts.2, List.append_assoc, List.append_assoc, reindentFrom_blanks blank, List.singleton_append,
      List.append_assoc, List.append_assoc, List.singleton_append, pair.opens, if_neg ahead, inner.scan _ _ _ within,
      reindentFrom_blanks white, pair.closes]
    simp only [List.append_assoc, List.cons_append]

/-- A comma ends its line, and what follows it stands at the same depth. -/
theorem Laid.items {first : List UInt8} (value : Laid ts depth first) (some' : us ≠ []) (more : Laid us depth text) :
    Laid (ts ++ .comma :: us) depth (first ++ (44 :: (newline depth ++ text))) := by
  obtain ⟨u, later, rfl⟩ := List.exists_cons_of_ne_nil some'
  refine ⟨value.writes.append ?_, ?_, fun written rest out writes => ?_⟩
  · exact (Writes.one .comma (List.forall_mem_nil _)).append (more.writes.indented (blank_newline depth))
  · obtain ⟨body, b, own, visible⟩ := more.last
    exact ⟨first ++ 44 :: (newline depth ++ body), b, by rw [own]; simp only [List.append_assoc, List.cons_append], visible⟩
  · obtain ⟨start, ending, rfl, within, after⟩ := Writes.split ts writes
    obtain ⟨comma, others, rfl, separator, behind⟩ := Writes.split [.comma] after
    obtain ⟨blanks, rfl, blank⟩ := writes_one separator
    have pushed : reindentFrom (44 :: (others ++ rest)) .plain depth (out ++ first) =
        reindentFrom (others ++ rest) .plain depth (out ++ first ++ 44 :: newline depth) := by
      rw [reindentFrom, if_neg (by decide), if_neg (by decide), if_neg (by decide), if_neg (by decide), if_pos rfl]
    rw [List.append_assoc, List.append_assoc, value.scan _ _ _ within, List.append_assoc, reindentFrom_blanks blank,
      Token.text, List.singleton_append, pushed, more.scan _ _ _ behind]
    simp only [List.append_assoc, List.cons_append]

/-- A key, a colon with one space, and the value. -/
theorem Laid.member {key : List UInt8} (lexical : JsonTokens.StringBody key) (some' : ts ≠ []) (value : Laid ts depth text) :
    Laid (.string key :: .colon :: ts) depth (34 :: (key ++ [34]) ++ (58 :: (32 :: text))) := by
  obtain ⟨t, later, rfl⟩ := List.exists_cons_of_ne_nil some'
  have name : Laid [.string key] depth (34 :: (key ++ [34])) := .string lexical
  refine ⟨name.writes.append ?_, ?_, fun written rest out writes => ?_⟩
  · exact (Writes.one .colon (List.forall_mem_nil _)).append (value.writes.indented (List.forall_mem_singleton.mpr rfl))
  · obtain ⟨body, b, own, visible⟩ := value.last
    exact ⟨34 :: (key ++ [34]) ++ 58 :: 32 :: body, b, by rw [own]; simp only [List.append_assoc, List.cons_append], visible⟩
  · obtain ⟨start, ending, rfl, within, after⟩ := Writes.split [.string key] writes
    obtain ⟨colon, others, rfl, separator, behind⟩ := Writes.split [.colon] after
    obtain ⟨blanks, rfl, blank⟩ := writes_one separator
    have pushed (out : List UInt8) : reindentFrom (58 :: (others ++ rest)) .plain depth out =
        reindentFrom (others ++ rest) .plain depth (out ++ [58, 32]) := by
      rw [reindentFrom, if_neg (by decide), if_neg (by decide), if_neg (by decide), if_neg (by decide),
        if_neg (by decide), if_pos rfl]
    rw [List.append_assoc, List.append_assoc, name.scan _ _ _ within, List.append_assoc, reindentFrom_blanks blank,
      Token.text, List.singleton_append, pushed, value.scan _ _ _ behind]
    simp only [List.append_assoc, List.cons_append, List.nil_append]

/-- Every value, list of items and list of members has one text at each depth. -/
theorem laid_of_derives {part : Part} (derives : Derives part ts) (depth : Nat) : ∃ text, Laid ts depth text := by
  have filled {part : Part} {ts : List Token} (derives : Derives part ts) : ts ≠ [] := by
    obtain ⟨t, later, rfl, -⟩ := derives.head
    exact List.cons_ne_nil t later
  induction derives generalizing depth with
  | scalar lexical => exact ⟨_, .scalar lexical⟩
  | string lexical => exact ⟨_, .string lexical⟩
  | emptyArr => exact ⟨_, .empty .arr⟩
  | emptyObj => exact ⟨_, .empty .obj⟩
  | arr inner ih =>
    obtain ⟨text, laid⟩ := ih (depth + 1)
    exact ⟨_, .nest .arr inner laid⟩
  | obj inner ih =>
    obtain ⟨text, laid⟩ := ih (depth + 1)
    exact ⟨_, .nest .obj inner laid⟩
  | item _ ih => exact ih depth
  | items _ more first rest =>
    obtain ⟨value, laid⟩ := first depth
    obtain ⟨text, others⟩ := rest depth
    exact ⟨_, laid.items (filled more) others⟩
  | member lexical value ih =>
    obtain ⟨text, laid⟩ := ih depth
    exact ⟨_, laid.member lexical (filled value)⟩
  | members lexical value more first rest =>
    obtain ⟨text, laid⟩ := first depth
    obtain ⟨after, others⟩ := rest depth
    exact ⟨_, (laid.items (filled more) others).member lexical (by simp)⟩

/-- At the top the scan ends with depth 0 and something written, so it succeeds and adds the one newline. -/
theorem Laid.reindent (laid : Laid ts 0 text) (blank : ∀ b ∈ blanks, isBlank b = true) {written : List UInt8}
    (writes : Writes ts written) : reindent (written ++ blanks) = some (text ++ [10]) := by
  obtain ⟨body, b, own, -⟩ := laid.last
  have ending : reindentFrom blanks .plain 0 text = reindentFrom [] .plain 0 text := by
    rw [← List.append_nil blanks, reindentFrom_blanks blank]
  rw [Git.reindent, laid.scan _ _ _ writes, List.nil_append, ending, reindentFrom, if_neg]
  rw [own]
  simp

/-- The loop of `reindent` ends on every input, never leaves it and never underflows. On a JSON text it keeps the
tokens, ends with one newline, and gives one text for all texts of the same tokens, which it leaves as it is. -/
theorem reindent_canonical (input : List UInt8) :
    (∀ fuel, input.length < fuel → loop input fuel 0 0 [] = some (reindent input)) ∧
      ∀ ts, JsonTokens.Document ts input → ∃ body b out, out = body ++ [b, 10] ∧ b ≠ 10 ∧ reindent input = some out ∧
        JsonTokens.Document ts out ∧ (∀ us, JsonTokens.Document us out → us = ts) ∧
        (∀ other, JsonTokens.Document ts other → reindent other = some out) ∧ reindent out = some out := by
  refine ⟨fun fuel enough => loop_eq (by omega), fun ts document => ?_⟩
  obtain ⟨text, laid⟩ := laid_of_derives document.1 0
  obtain ⟨body, b, own, visible⟩ := laid.last
  have all (other : List UInt8) (spelled : JsonTokens.Document ts other) : reindent other = some (text ++ [10]) := by
    obtain ⟨-, written, blanks, rfl, writes, blank⟩ := spelled
    exact laid.reindent blank writes
  have out : JsonTokens.Document ts (text ++ [10]) :=
    ⟨document.1, text, [10], rfl, laid.writes, List.all_eq_true.mp (by decide)⟩
  exact ⟨body, b, text ++ [10], by rw [own, List.append_assoc]; rfl, visible, all input document, out,
    fun us also => also.unique out, all, all _ out⟩

theorem reindent_canonical_nested :
    ∃ out, reindent [123, 34, 97, 34, 32, 58, 91, 10, 93, 125] = some out ∧ reindent out = some out ∧
      reindent [123, 9, 34, 97, 34, 58, 91, 93, 13, 125] = some out := by
  have key : JsonTokens.StringBody [97] := .ascii (by decide) (by decide) (by decide) (by decide) .nil
  have derives : Derives .value [.openObj, .string [97], .colon, .openArr, .closeArr, .closeObj] :=
    .obj (.member key .emptyArr)
  have spaced : JsonTokens.Document [.openObj, .string [97], .colon, .openArr, .closeArr, .closeObj]
      [123, 34, 97, 34, 32, 58, 91, 10, 93, 125] :=
    ⟨derives, _, [], rfl, .bare (.bare (.spaced (by decide) (.bare (.spaced (by decide) (.bare .nil))))), nofun⟩
  have other : JsonTokens.Document [.openObj, .string [97], .colon, .openArr, .closeArr, .closeObj]
      [123, 9, 34, 97, 34, 58, 91, 93, 13, 125] :=
    ⟨derives, _, [], rfl, .bare (.spaced (by decide) (.bare (.bare (.bare (.spaced (by decide) .nil))))), nofun⟩
  obtain ⟨-, -, out, -, -, eval, -, -, all, again⟩ := (reindent_canonical _).2 _ spaced
  exact ⟨out, eval, again, all _ other⟩

end Documents

end SiriusProxy.Master.Git
