import Mathlib.Data.List.Basic

/-! Text that is cut at a separator. -/
namespace Lines
variable {α : Type} [DecidableEq α] {sep : α}

/-- What stands before and after the first separator. -/
def splitOnce (sep : α) : List α → Option (List α × List α)
  | [] => none
  | c :: rest => if c = sep then some ([], rest) else (splitOnce sep rest).map fun p => (c :: p.1, p.2)

/-- The pieces that a separator ends, and what follows the last one. -/
def pieces (sep : α) : List α → List (List α) × List α
  | [] => ([], [])
  | c :: rest =>
    if c = sep then ([] :: (pieces sep rest).1, (pieces sep rest).2)
    else match (pieces sep rest).1 with
      | [] => ([], c :: (pieces sep rest).2)
      | first :: more => ((c :: first) :: more, (pieces sep rest).2)

theorem splitOnce_append {left : List α} (absent : sep ∉ left) (rest : List α) :
    splitOnce sep (left ++ sep :: rest) = some (left, rest) := by
  induction left with
  | nil => simp [splitOnce]
  | cons c left ih =>
    rw [List.mem_cons, not_or] at absent
    obtain ⟨other, absent⟩ := absent
    rw [List.cons_append, splitOnce, if_neg (Ne.symm other), ih absent]
    rfl

/-- `str::split`. -/
def split (sep : α) (text : List α) : List (List α) := (pieces sep text).1 ++ [(pieces sep text).2]

/-- Text is cut at a separator wherever it stands. -/
theorem pieces_join (left rest : List α) : pieces sep (left ++ sep :: rest) =
    ((pieces sep left).1 ++ (pieces sep left).2 :: (pieces sep rest).1, (pieces sep rest).2) := by
  induction left with
  | nil => simp [pieces]
  | cons c left ih =>
    rw [List.cons_append, pieces, pieces, ih]
    split_ifs with own
    · rfl
    · cases (pieces sep left).1 with
      | nil => rfl
      | cons first more => rfl

theorem split_join (left rest : List α) : split sep (left ++ sep :: rest) = split sep left ++ split sep rest := by
  unfold split
  rw [pieces_join, List.append_assoc, List.append_assoc]
  rfl

theorem pieces_absent {text : List α} (absent : sep ∉ text) : pieces sep text = ([], text) := by
  induction text with
  | nil => rfl
  | cons c text ih =>
    rw [List.mem_cons, not_or] at absent
    rw [pieces, if_neg (Ne.symm absent.1), ih absent.2]

theorem pieces_append {left : List α} (absent : sep ∉ left) (rest : List α) :
    pieces sep (left ++ sep :: rest) = (left :: (pieces sep rest).1, (pieces sep rest).2) := by
  rw [pieces_join, pieces_absent absent, List.nil_append]

/-- Pieces that were ended by separators are found again. -/
theorem pieces_flatMap {items : List (List α)} (absent : ∀ item ∈ items, sep ∉ item) :
    pieces sep (items.flatMap fun item => item ++ [sep]) = (items, []) := by
  induction items with
  | nil => rfl
  | cons item items ih =>
    have rest := ih fun other member => absent other (List.mem_cons_of_mem _ member)
    rw [List.flatMap_cons, List.append_assoc, List.singleton_append, pieces_append (absent item List.mem_cons_self), rest]

/-- `str::lines`: a line ends with a line feed or with a carriage return and a line feed. -/
def chomp (line : List Char) : List Char := if line.getLast? = some '\r' then line.dropLast else line

def lines (text : List Char) : List (List Char) :=
  (pieces '\n' text).1.map chomp ++ if (pieces '\n' text).2 = [] then [] else [(pieces '\n' text).2]

theorem lines_flatMap {items : List (List Char)} (absent : ∀ item ∈ items, '\n' ∉ item) :
    lines (items.flatMap fun item => item ++ ['\n']) = items.map chomp := by
  rw [lines, pieces_flatMap absent]
  simp

theorem chomp_other {line : List Char} (other : ∀ c, line.getLast? = some c → c ≠ '\r') : chomp line = line :=
  if_neg fun last => other _ last rfl

theorem chomp_prefix (line : List Char) : chomp line <+: line := by
  unfold chomp
  split
  · exact List.dropLast_prefix line
  · exact List.prefix_rfl

theorem chomp_append (left : List Char) {c : Char} (other : c ≠ '\r') (rest : List Char) :
    chomp (left ++ c :: rest) = left ++ c :: chomp rest := by
  cases rest with
  | nil => simp [chomp, other]
  | cons d rest =>
    have last : (left ++ c :: d :: rest).getLast? = (d :: rest).getLast? := by
      have found : (d :: rest).getLast? = some ((d :: rest).getLast (by simp)) := List.getLast?_eq_some_getLast _
      simp [found]
    unfold chomp
    rw [last]
    split
    · rw [List.dropLast_append_of_ne_nil (by simp), List.dropLast_cons_of_ne_nil (by simp)]
    · rfl

end Lines
