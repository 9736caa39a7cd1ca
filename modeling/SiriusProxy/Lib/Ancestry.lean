import Mathlib.Logic.Relation

namespace Ancestry
open Relation
universe u
variable {Node : Type u}

/-- Versions by name, each with its parents; a name without a version is not there. -/
abbrev Parents (Node : Type u) := Node → Option (List Node)

/-- A version is never changed, and more of them appear. -/
def Extends (before after : Parents Node) : Prop := ∀ node found, before node = some found → after node = some found

def Child (parents : Parents Node) (older newer : Node) : Prop := ∃ found, parents newer = some found ∧ older ∈ found

/-- `older` is `newer` or one of its ancestors. -/
def Older (parents : Parents Node) : Node → Node → Prop := ReflTransGen (Child parents)

/-- A reference that is set or fast-forwarded, and never taken away. -/
def Forward (parents : Parents Node) (before after : Option Node) : Prop :=
  ∀ older, before = some older → ∃ newer, after = some newer ∧ Older parents older newer

variable {parents before middle after : Parents Node} {a b c : Node} {x y z : Option Node}

theorem Extends.refl : Extends parents parents := fun _ _ found => found

theorem Extends.trans (first : Extends before middle) (second : Extends middle after) : Extends before after :=
  fun node found there => second node found (first node found there)

theorem Extends.isSome (more : Extends before after) (there : (before a).isSome = true) : (after a).isSome = true := by
  obtain ⟨found, there⟩ := Option.isSome_iff_exists.mp there
  rw [more a found there]
  rfl

theorem Older.refl : Older parents a a := ReflTransGen.refl

theorem Older.trans (first : Older parents a b) (second : Older parents b c) : Older parents a c :=
  ReflTransGen.trans first second

theorem Older.parent {found : List Node} (there : parents b = some found) (member : a ∈ found) : Older parents a b :=
  ReflTransGen.single ⟨found, there, member⟩

theorem Older.mono (older : Older before a b) (more : Extends before after) : Older after a b :=
  ReflTransGen.mono (fun _ _ ⟨found, there, member⟩ => ⟨found, more _ found there, member⟩) _ _ older

theorem Forward.refl : Forward parents x x := fun older there => ⟨older, there, .refl⟩

theorem Forward.none : Forward parents none x := fun _ there => nomatch there

theorem Forward.of_older (older : Older parents a b) : Forward parents (some a) (some b) := by
  rintro c there
  cases there
  exact ⟨b, rfl, older⟩

theorem Forward.mono (forward : Forward before x y) (more : Extends before after) : Forward after x y := by
  intro older there
  obtain ⟨newer, set, path⟩ := forward older there
  exact ⟨newer, set, path.mono more⟩

theorem Forward.trans (first : Forward parents x y) (second : Forward parents y z) : Forward parents x z := by
  intro older there
  obtain ⟨middle, set, path⟩ := first older there
  obtain ⟨newer, set, more⟩ := second middle set
  exact ⟨newer, set, path.trans more⟩

end Ancestry
