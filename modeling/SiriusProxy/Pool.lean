import Mathlib.Data.List.Forall2
import Mathlib.Data.List.MinMax
import Mathlib.Data.List.Nodup
import Mathlib.Data.List.Perm.Basic
import Mathlib.Data.Nat.ModEq
import SiriusProxy.Health.Account
import SiriusProxy.Lib.Run

namespace SiriusProxy.Accounts

/-- What the pool keeps of one account; the account object is known by its index. -/
structure Account where
  name : String
  active : Nat := 0
  health : Health := {}
  deriving DecidableEq, Repr

structure Pool where
  entries : List Account
  next : Nat := 0
  generation : Nat := 0
  deriving DecidableEq, Repr

/-- `%`, which panics on zero. -/
def checkedRem (a b : Nat) : Option Nat := if b = 0 then none else some (a % b)

def Account.available (now : Instant) (account : Account) : Bool := account.health.available now

namespace Pool

/-- The accounts in rotation order with their indexes; none is a panic, here and below. -/
def order (pool : Pool) : Option (List (Nat × Account)) :=
  (List.range pool.entries.length).mapM fun offset => do
    let i ← checkedRem (pool.next + offset) pool.entries.length
    let account ← pool.entries[i]?
    some (i, account)

/-- The available account a public call would lease next: the first with fewest active calls. -/
def publicIndex (now : Instant) (pool : Pool) : Option (Option Nat) :=
  pool.order.map fun order =>
    ((order.filter fun entry => entry.2.available now).argmin fun entry => entry.2.active).map Prod.fst

def peekPublic (now : Instant) (pool : Pool) : Option (Option (Nat × Account)) := do
  match ← pool.publicIndex now with
  | none => some none
  | some i =>
    let account ← pool.entries[i]?
    some (some (i, account))

def rotation (pool : Pool) : Option (List Account) := pool.order.map fun order => order.map Prod.snd

/-- The index that a call asks for. -/
def wanted (now : Instant) (name : Option String) (isPrivate : Bool) (pool : Pool) : Option (Except AppError Nat) :=
  match name with
  | some name => match pool.entries.findIdx? fun account => account.name == name with
    | some i => some (.ok i)
    | none => some (.error .notFound)
  | none =>
    if isPrivate then some (.ok 0)
    else (pool.publicIndex now).map fun index => match index with
      | some i => .ok i
      | none => .error .accountUnavailable

/-- The index of the leased account, and the pool after it. -/
def select (now : Instant) (name : Option String) (isPrivate : Bool) (pool : Pool) :
    Option (Except AppError Nat × Pool) := do
  match ← pool.wanted now name isPrivate with
  | .error error => some (.error error, pool)
  | .ok index => match pool.entries[index]?.filter fun account => account.available now with
    | none => some (.error .accountUnavailable, pool)
    | some account =>
      let next ← checkedRem (index + 1) pool.entries.length
      some (.ok index,
        { pool with next := next, entries := pool.entries.set index { account with active := account.active + 1 } })

/-- The lease of an account is dropped. -/
def release (index : Nat) (pool : Pool) : Pool :=
  { pool with entries := pool.entries.modify index fun account => { account with active := account.active - 1 } }

def setHealth (index : Nat) (health : Health) (pool : Pool) : Pool :=
  { pool with entries := pool.entries.modify index fun account => { account with health := health } }

end Pool

/-- A pool with its outstanding leases, each the index of its account. -/
structure World where
  pool : Pool
  leases : List Nat := []
  now : Instant := 0

inductive Label where
  | select (name : Option String) (isPrivate : Bool)
  | peek
  | drop (lease : Nat)
  | health (index : Nat) (health : Health)
  | tick (duration : Nat)

def step (w : World) : Label → Option World
  | .select name isPrivate => (w.pool.select w.now name isPrivate).map fun result => match result with
    | (.ok index, pool) => { w with pool := pool, leases := w.leases ++ [index] }
    | (.error _, pool) => { w with pool := pool }
  | .peek => (w.pool.peekPublic w.now).map fun _ => w
  | .drop lease => w.leases[lease]?.map fun index =>
    { w with pool := w.pool.release index, leases := w.leases.eraseIdx lease }
  | .health index health => some { w with pool := w.pool.setHealth index health }
  | .tick duration => some { w with now := w.now + duration }

variable {pool after : Pool} {now : Instant} {name : Option String} {isPrivate : Bool} {i : Nat} {w x : World}

/-- A fallible map over a list that never fails. -/
theorem mapM_total {α β : Type} {f : α → Option β} {xs : List α} (total : ∀ a ∈ xs, ∃ b, f a = some b) :
    ∃ ys, xs.mapM f = some ys ∧ List.Forall₂ (fun a b => f a = some b) xs ys := by
  induction xs with
  | nil => exact ⟨[], rfl, .nil⟩
  | cons a xs ih =>
    obtain ⟨b, here⟩ := total a List.mem_cons_self
    obtain ⟨ys, rest, each⟩ := ih fun other member => total other (List.mem_cons_of_mem _ member)
    refine ⟨b :: ys, ?_, .cons here each⟩
    rw [List.mapM_cons, here, rest]
    rfl

/-- The first of the least: what comes before it is greater, what comes after it is not less. -/
theorem argmin_split {α : Type} {key : α → Nat} {xs : List α} {m : α} (least : xs.argmin key = some m) :
    ∃ before later, xs = before ++ m :: later ∧ (∀ a ∈ before, key m < key a) ∧ ∀ a ∈ later, key m ≤ key a := by
  induction xs with
  | nil => cases least
  | cons a xs ih =>
    cases rest : xs.argmin key with
    | none =>
      rw [List.argmin_cons, rest] at least
      cases least
      rw [List.argmin_eq_none.mp rest]
      exact ⟨[], [], rfl, fun b member => absurd member List.not_mem_nil,
        fun b member => absurd member List.not_mem_nil⟩
    | some c =>
      rw [List.argmin_cons, rest] at least
      dsimp only at least
      split_ifs at least with smaller
      · cases least
        obtain ⟨before, later, parts, above, rest_le⟩ := ih rest
        refine ⟨a :: before, later, congrArg (a :: ·) parts, fun b member => ?_, rest_le⟩
        rcases List.mem_cons.mp member with rfl | inside
        · exact smaller
        · exact above b inside
      · cases least
        refine ⟨[], xs, rfl, fun b member => absurd member List.not_mem_nil, fun b member => ?_⟩
        exact Nat.le_trans (Nat.le_of_not_lt smaller) (List.le_of_mem_argmin member rest)

namespace Pool

/-- The index that the rotation comes to after `offset` others. -/
def turn (pool : Pool) (offset : Nat) : Nat := (pool.next + offset) % pool.entries.length

theorem turn_lt {offset : Nat} (inside : offset < pool.entries.length) : pool.turn offset < pool.entries.length :=
  Nat.mod_lt _ (Nat.zero_lt_of_lt inside)

/-- The rotation comes to every account. -/
theorem covers (inside : i < pool.entries.length) :
    ∃ offset, offset < pool.entries.length ∧ pool.turn offset = i := by
  refine ⟨(i + (pool.entries.length - pool.next % pool.entries.length)) % pool.entries.length,
    Nat.mod_lt _ (Nat.zero_lt_of_lt inside), ?_⟩
  have start := Nat.mod_lt pool.next (Nat.zero_lt_of_lt inside)
  unfold turn
  rw [Nat.add_mod_mod, Nat.add_mod]
  rcases Nat.lt_or_ge (i + (pool.entries.length - pool.next % pool.entries.length)) pool.entries.length with low | high
  · rw [Nat.mod_eq_of_lt low]
    have whole : pool.next % pool.entries.length + (i + (pool.entries.length - pool.next % pool.entries.length)) =
        i + pool.entries.length := by omega
    rw [whole, Nat.add_mod_right, Nat.mod_eq_of_lt inside]
  · rw [Nat.add_mod_mod]
    have whole : pool.next % pool.entries.length + (i + (pool.entries.length - pool.next % pool.entries.length)) =
        i + pool.entries.length := by omega
    rw [whole, Nat.add_mod_right, Nat.mod_eq_of_lt inside]

/-- Different turns of one round are different accounts. -/
theorem turn_inj {first second : Nat} (left : first < pool.entries.length) (right : second < pool.entries.length)
    (same : pool.turn first = pool.turn second) : first = second := by
  have congruent : Nat.ModEq pool.entries.length first second := Nat.ModEq.add_left_cancel' pool.next same
  exact congruent.eq_of_lt_of_lt left right

/-- The order is there for every pool, the empty one included. -/
theorem order_total (pool : Pool) : ∃ order, pool.order = some order ∧ order.length = pool.entries.length ∧
    ∀ offset entry, order[offset]? = some entry →
      entry.1 = pool.turn offset ∧ pool.entries[pool.turn offset]? = some entry.2 := by
  have each : ∀ offset ∈ List.range pool.entries.length, ∃ entry,
      (do let i ← checkedRem (pool.next + offset) pool.entries.length
          let account ← pool.entries[i]?
          some (i, account)) = some entry := by
    intro offset member
    have inside := List.mem_range.mp member
    have place : pool.turn offset < pool.entries.length := turn_lt inside
    refine ⟨(pool.turn offset, pool.entries[pool.turn offset]), ?_⟩
    rw [checkedRem, if_neg (Nat.pos_iff_ne_zero.mp (Nat.zero_lt_of_lt inside)), Option.bind_eq_bind, Option.bind_some]
    change (pool.entries[pool.turn offset]?.bind fun account => some (pool.turn offset, account)) = _
    rw [List.getElem?_eq_getElem place, Option.bind_some]
  obtain ⟨order, whole, parts⟩ := mapM_total each
  obtain ⟨length, parts⟩ := List.forall₂_iff_get.mp parts
  rw [List.length_range] at length
  refine ⟨order, whole, length.symm, fun offset entry found => ?_⟩
  obtain ⟨inside, same⟩ := List.getElem?_eq_some_iff.mp found
  have part := parts offset (by rw [List.length_range, length]; exact inside) inside
  rw [List.get_eq_getElem, List.get_eq_getElem, List.getElem_range, same] at part
  obtain ⟨turned, divided, part⟩ := Option.bind_eq_some_iff.mp part
  obtain ⟨account, looked, part⟩ := Option.bind_eq_some_iff.mp part
  unfold checkedRem at divided
  split_ifs at divided
  cases divided
  cases part
  exact ⟨rfl, looked⟩

/-- The account that a public call leases: available, with fewest active calls, and before every other
such account in the rotation. -/
def Chosen (now : Instant) (pool : Pool) (i : Nat) : Prop :=
  ∃ offset account, offset < pool.entries.length ∧ i = pool.turn offset ∧ pool.entries[i]? = some account ∧
    account.available now = true ∧
    ∀ other b, other < pool.entries.length → pool.entries[pool.turn other]? = some b → b.available now = true →
      account.active ≤ b.active ∧ (other < offset → account.active < b.active)

theorem publicIndex_total (now : Instant) (pool : Pool) : ∃ answer, pool.publicIndex now = some answer := by
  obtain ⟨order, whole, -⟩ := order_total pool
  exact ⟨_, congrArg (Option.map _) whole⟩

theorem publicIndex_some (found : pool.publicIndex now = some (some i)) : Chosen now pool i := by
  obtain ⟨order, whole, length, each⟩ := order_total pool
  unfold publicIndex at found
  rw [whole] at found
  obtain ⟨⟨index, account⟩, least, rfl⟩ := Option.map_eq_some_iff.mp (Option.some.inj found)
  obtain ⟨before, later, parts, above, rest_le⟩ := argmin_split least
  obtain ⟨first, second, halves, left, right⟩ := List.filter_eq_append_iff.mp parts
  obtain ⟨skipped, tail, shape, unavailable, usable, ending⟩ := List.filter_eq_cons_iff.mp right
  subst halves
  subst shape
  have here : (first ++ (skipped ++ (index, account) :: tail))[first.length + skipped.length]? =
      some (index, account) := by
    rw [← List.append_assoc, ← List.length_append, List.getElem?_append_right (Nat.le_refl _), Nat.sub_self]
    rfl
  obtain ⟨place, looked⟩ := each _ _ here
  refine ⟨first.length + skipped.length, account, ?_, place, ?_, usable, ?_⟩
  · rw [← length]
    simp only [List.length_append, List.length_cons]
    omega
  · rw [place]
    exact looked
  · intro other b inside found available
    have placed : other < (first ++ (skipped ++ (index, account) :: tail)).length := length.symm ▸ inside
    obtain ⟨spot, own⟩ := each other _ (List.getElem?_eq_getElem placed)
    have same := Option.some.inj (own.symm.trans found)
    have member := List.getElem_mem placed
    constructor
    · rw [← same] at available ⊢
      rcases List.mem_append.mp member with one | two
      · have kept : _ ∈ before := left ▸ List.mem_filter.mpr ⟨one, available⟩
        exact Nat.le_of_lt (above _ kept)
      · rcases List.mem_append.mp two with passed | three
        · exact absurd available (unavailable _ passed)
        · rcases List.mem_cons.mp three with equal | four
          · rw [equal]
          · have kept : _ ∈ later := ending ▸ List.mem_filter.mpr ⟨four, available⟩
            exact rest_le _ kept
    · intro earlier
      rw [← same] at available ⊢
      have early : (first ++ (skipped ++ (index, account) :: tail))[other] ∈ first ++ skipped := by
        have shorter : other < (first ++ skipped).length := by
          rw [List.length_append]
          exact earlier
        simp only [← List.append_assoc]
        rw [List.getElem_append_left shorter]
        exact List.getElem_mem shorter
      rcases List.mem_append.mp early with one | passed
      · have kept : _ ∈ before := left ▸ List.mem_filter.mpr ⟨one, available⟩
        exact above _ kept
      · exact absurd available (unavailable _ passed)

theorem publicIndex_none (found : pool.publicIndex now = some none) :
    ∀ account ∈ pool.entries, account.available now = false := by
  obtain ⟨order, whole, length, each⟩ := order_total pool
  unfold publicIndex at found
  rw [whole] at found
  have empty := List.argmin_eq_none.mp (Option.map_eq_none_iff.mp (Option.some.inj found))
  intro account member
  obtain ⟨i, inside, same⟩ := List.getElem_of_mem member
  obtain ⟨offset, round, place⟩ := covers inside
  have there : offset < order.length := length.symm ▸ round
  obtain ⟨-, looked⟩ := each offset _ (List.getElem?_eq_getElem there)
  rw [place, List.getElem?_eq_getElem inside, same] at looked
  have unavailable := List.filter_eq_nil_iff.mp empty _ (List.getElem_mem there)
  rw [← Option.some.inj looked] at unavailable
  exact Bool.eq_false_iff.mpr unavailable

/-- The pool after one more lease of this account. -/
def leased (i : Nat) (account : Account) (pool : Pool) : Pool :=
  { pool with
    next := (i + 1) % pool.entries.length
    entries := pool.entries.set i { account with active := account.active + 1 } }

theorem wanted_total (now : Instant) (name : Option String) (isPrivate : Bool) (pool : Pool) :
    ∃ index, pool.wanted now name isPrivate = some index := by
  cases name with
  | some name =>
    simp only [wanted]
    split
    · exact ⟨_, rfl⟩
    · exact ⟨_, rfl⟩
  | none =>
    cases isPrivate with
    | true => exact ⟨.ok 0, rfl⟩
    | false =>
      obtain ⟨answer, found⟩ := publicIndex_total now pool
      exact ⟨_, congrArg (Option.map _) found⟩

/-- What the second half of `select` does with the index of an available account. -/
theorem select_of_wanted {account : Account} (wanted : pool.wanted now name isPrivate = some (.ok i))
    (found : pool.entries[i]? = some account) (available : account.available now = true) :
    pool.select now name isPrivate = some (.ok i, pool.leased i account) := by
  have inside : pool.entries.length ≠ 0 := by
    obtain ⟨inside, -⟩ := List.getElem?_eq_some_iff.mp found
    omega
  simp only [select, wanted, found, Option.bind_eq_bind, Option.bind_some, Option.filter_some, available, if_true,
    checkedRem, if_neg inside]
  rfl

/-- A select leases an available account, or changes nothing. -/
inductive Selects (now : Instant) (name : Option String) (isPrivate : Bool) (pool : Pool) :
    Except AppError Nat × Pool → Prop
  | refused {error : AppError} (wanted : pool.wanted now name isPrivate = some (.error error)) :
      Selects now name isPrivate pool (.error error, pool)
  | unavailable {i : Nat} (wanted : pool.wanted now name isPrivate = some (.ok i))
      (gone : ∀ account, pool.entries[i]? = some account → account.available now = false) :
      Selects now name isPrivate pool (.error .accountUnavailable, pool)
  | leases {i : Nat} {account : Account} (wanted : pool.wanted now name isPrivate = some (.ok i))
      (found : pool.entries[i]? = some account) (available : account.available now = true) :
      Selects now name isPrivate pool (.ok i, pool.leased i account)

theorem selects (now : Instant) (name : Option String) (isPrivate : Bool) (pool : Pool) :
    ∃ result, pool.select now name isPrivate = some result ∧ Selects now name isPrivate pool result := by
  obtain ⟨index, wanted⟩ := wanted_total now name isPrivate pool
  cases index with
  | error error =>
    refine ⟨(.error error, pool), ?_, .refused wanted⟩
    simp only [select, wanted, Option.bind_eq_bind, Option.bind_some]
  | ok i =>
    cases kept : pool.entries[i]?.filter fun account => account.available now with
    | none =>
      refine ⟨(.error .accountUnavailable, pool), ?_, .unavailable wanted fun account found => ?_⟩
      · simp only [select, wanted, kept, Option.bind_eq_bind, Option.bind_some]
      · rw [found, Option.filter_some] at kept
        split_ifs at kept with available
        exact Bool.eq_false_iff.mpr available
    | some account =>
      obtain ⟨found, available⟩ := Option.filter_eq_some_iff.mp kept
      exact ⟨_, select_of_wanted wanted found available, .leases wanted found available⟩

theorem selects_of_eq {result : Except AppError Nat × Pool} (selected : pool.select now name isPrivate = some result) :
    Selects now name isPrivate pool result := by
  obtain ⟨other, whole, parts⟩ := selects now name isPrivate pool
  cases selected.symm.trans whole
  exact parts

theorem wanted_public {index : Option Nat} (found : pool.publicIndex now = some index) :
    pool.wanted now none false = some (index.elim (.error .accountUnavailable) .ok) := by
  simp only [wanted, Bool.false_eq_true, if_false, found, Option.map_some]
  cases index with
  | none => rfl
  | some i => rfl

/-- `peek_public` names the account that a public select leases. -/
theorem peek_some {account : Account} (peeked : pool.peekPublic now = some (some (i, account))) :
    Chosen now pool i ∧ pool.entries[i]? = some account ∧
      pool.select now none false = some (.ok i, pool.leased i account) := by
  obtain ⟨answer, found⟩ := publicIndex_total now pool
  simp only [peekPublic, found, Option.bind_eq_bind, Option.bind_some] at peeked
  cases answer with
  | none => cases peeked
  | some j =>
    obtain ⟨own, looked, same⟩ := Option.bind_eq_some_iff.mp peeked
    cases same
    have chosen := publicIndex_some found
    obtain ⟨-, other, -, -, again, available, -⟩ := id chosen
    cases looked.symm.trans again
    exact ⟨chosen, looked, select_of_wanted (wanted_public found) looked available⟩

theorem peek_none (peeked : pool.peekPublic now = some none) :
    (∀ account ∈ pool.entries, account.available now = false) ∧
      pool.select now none false = some (.error .accountUnavailable, pool) := by
  obtain ⟨answer, found⟩ := publicIndex_total now pool
  cases answer with
  | none =>
    refine ⟨publicIndex_none found, ?_⟩
    simp only [select, wanted_public found, Option.elim_none, Option.bind_eq_bind, Option.bind_some]
  | some j =>
    simp only [peekPublic, found, Option.bind_eq_bind, Option.bind_some] at peeked
    obtain ⟨own, -, same⟩ := Option.bind_eq_some_iff.mp peeked
    cases same

theorem peek_total (now : Instant) (pool : Pool) : ∃ answer, pool.peekPublic now = some answer := by
  obtain ⟨answer, found⟩ := publicIndex_total now pool
  cases answer with
  | none => exact ⟨none, by simp only [peekPublic, found, Option.bind_eq_bind, Option.bind_some]⟩
  | some i =>
    obtain ⟨-, account, -, -, looked, -⟩ := publicIndex_some found
    exact ⟨some (i, account), by simp only [peekPublic, found, Option.bind_eq_bind, Option.bind_some, looked]⟩

end Pool

/-- Every account counts its outstanding leases, and every lease is of an account. -/
structure Counted (w : World) : Prop where
  active : ∀ i account, w.pool.entries[i]? = some account → account.active = w.leases.count i
  leased : ∀ i ∈ w.leases, i < w.pool.entries.length

theorem count_eraseIdx {leases : List Nat} {lease : Nat} (found : leases[lease]? = some i) (j : Nat) :
    leases.count j = (leases.eraseIdx lease).count j + if i = j then 1 else 0 := by
  obtain ⟨inside, same⟩ := List.getElem?_eq_some_iff.mp found
  have split := (List.getElem_cons_eraseIdx_perm inside).count_eq j
  rw [same, List.count_cons] at split
  simpa only [beq_iff_eq] using split.symm

theorem step_counted {l : Label} (counted : Counted w) (taken : step w l = some x) : Counted x := by
  cases l with
  | select name isPrivate =>
    obtain ⟨result, selected, same⟩ := Option.map_eq_some_iff.mp taken
    cases Pool.selects_of_eq selected with
    | refused wanted =>
      cases same
      exact counted
    | unavailable wanted gone =>
      cases same
      exact counted
    | @leases i account wanted found available =>
      cases same
      obtain ⟨inside, -⟩ := List.getElem?_eq_some_iff.mp found
      constructor
      · intro j other looked
        simp only [Pool.leased, List.getElem?_set] at looked
        rw [List.count_append, List.count_singleton]
        split_ifs at looked with own
        · cases looked
          rw [← own, beq_self_eq_true, if_pos rfl, ← counted.active i account found]
        · rw [counted.active j other looked, if_neg (by simpa using own)]
          rfl
      · intro j member
        rw [Pool.leased, List.length_set]
        rcases List.mem_append.mp member with old | new
        · exact counted.leased j old
        · rw [List.mem_singleton.mp new]
          exact inside
  | peek =>
    obtain ⟨_, -, same⟩ := Option.map_eq_some_iff.mp taken
    cases same
    exact counted
  | drop lease =>
    obtain ⟨index, found, same⟩ := Option.map_eq_some_iff.mp taken
    cases same
    constructor
    · intro j other looked
      rw [Pool.release, List.getElem?_modify] at looked
      obtain ⟨account, before, same⟩ := Option.map_eq_some_iff.mp looked
      have held := counted.active j account before
      have split := count_eraseIdx found j
      rw [← same]
      change _ = (w.leases.eraseIdx lease).count j
      split_ifs at split ⊢ with own
      · change account.active - 1 = _
        omega
      · omega
    · intro j member
      rw [Pool.release, List.length_modify]
      exact counted.leased j (List.mem_of_mem_eraseIdx member)
  | health index health =>
    cases taken
    constructor
    · intro j other looked
      rw [Pool.setHealth, List.getElem?_modify] at looked
      obtain ⟨account, before, same⟩ := Option.map_eq_some_iff.mp looked
      rw [← counted.active j account before, ← same]
      split_ifs
      · rfl
      · rfl
    · intro j member
      rw [Pool.setHealth, List.length_modify]
      exact counted.leased j member
  | tick duration =>
    cases taken
    exact ⟨counted.active, counted.leased⟩

/-- A round of public calls after `k` of them: the first `k` accounts of the rotation have one more
active call than the others, and the rotation goes on with the next. -/
structure Round (base : Pool) (count k : Nat) (w : World) : Prop where
  length : w.pool.entries.length = base.entries.length
  turn : ∀ offset, w.pool.turn offset = base.turn (k + offset)
  held : ∀ other, other < base.entries.length → ∃ account, w.pool.entries[base.turn other]? = some account ∧
    account.available w.now = true ∧ account.active = if other < k then count + 1 else count

theorem round_step {base : Pool} {count k : Nat} (round : Round base count k w) (left : k < base.entries.length) :
    ∃ x, step w (.select none false) = some x ∧ x.leases = w.leases ++ [base.turn k] ∧ Round base count (k + 1) x := by
  obtain ⟨next, here, ready, fresh⟩ := round.held k left
  rw [if_neg (Nat.lt_irrefl k)] at fresh
  obtain ⟨answer, peeked⟩ := Pool.peek_total w.now w.pool
  cases answer with
  | none =>
    have gone := (Pool.peek_none peeked).1 next (List.mem_of_getElem? here)
    rw [ready] at gone
    cases gone
  | some named =>
    obtain ⟨i, account⟩ := named
    obtain ⟨⟨offset, own, inside, place, looked, -, least⟩, again, selected⟩ := Pool.peek_some peeked
    cases looked.symm.trans again
    have first : w.pool.turn 0 = base.turn k := round.turn 0
    -- An account later in the rotation would have fewer active calls than the next one.
    have start : offset = 0 := by
      by_contra later
      have fewer := (least 0 next (Nat.zero_lt_of_lt inside) (first ▸ here) ready).2 (Nat.pos_of_ne_zero later)
      have among : i < base.entries.length := by
        rw [place, ← round.length]
        exact Pool.turn_lt inside
      obtain ⟨other, bound, reached⟩ := Pool.covers among
      obtain ⟨same, found, -, at_least⟩ := round.held other bound
      rw [reached] at found
      cases found.symm.trans looked
      split_ifs at at_least
      · omega
      · omega
    have index : i = base.turn k := by
      rw [place, start]
      exact first
    have same : account = next := by
      rw [index] at looked
      exact Option.some.inj (looked.symm.trans here)
    refine ⟨{ w with pool := w.pool.leased i account, leases := w.leases ++ [i] }, ?_, ?_, ?_, ?_, ?_⟩
    · simp only [step, selected, Option.map_some]
    · rw [index]
    · rw [Pool.leased, List.length_set]
      exact round.length
    · intro offset
      simp only [Pool.turn, Pool.leased, List.length_set, round.length, index, Nat.mod_add_mod]
      congr 1
      omega
    · intro other bound
      obtain ⟨held, found, usable, active⟩ := round.held other bound
      by_cases own : other = k
      · refine ⟨{ next with active := next.active + 1 }, ?_, ready, ?_⟩
        · rw [own, Pool.leased, index, same, List.getElem?_set_self (List.getElem?_eq_some_iff.mp here).1]
        · rw [own, if_pos (Nat.lt_succ_self k), fresh]
      · refine ⟨held, ?_, usable, ?_⟩
        · have apart : i ≠ base.turn other := by
            rw [index]
            exact fun equal => own (Pool.turn_inj left bound equal).symm
          rw [Pool.leased, List.getElem?_set_ne apart]
          exact found
        · rw [active]
          split_ifs
          · rfl
          · omega
          · omega
          · rfl

theorem round_run {base : Pool} {count k : Nat} (rest : Nat) (round : Round base count k w)
    (left : k + rest = base.entries.length) :
    ∃ x, Run.exec step w (List.replicate rest (.select none false)) = some x ∧
      x.leases = w.leases ++ (List.range rest).map fun j => base.turn (k + j) := by
  induction rest generalizing k w with
  | zero => exact ⟨w, rfl, by rw [List.range_zero, List.map_nil, List.append_nil]⟩
  | succ rest ih =>
    obtain ⟨y, taken, leased, next⟩ := round_step round (by omega)
    obtain ⟨x, run, leases⟩ := ih next (by omega)
    refine ⟨x, ?_, ?_⟩
    · rw [List.replicate_succ, Run.exec, taken]
      exact run
    · have later : (List.range rest).map (fun j => base.turn (k + 1 + j)) =
          (List.range rest).map ((fun j => base.turn (k + j)) ∘ Nat.succ) := by
        refine List.map_congr_left fun j _ => congrArg base.turn ?_
        omega
      rw [leases, leased, List.append_assoc, List.range_succ_eq_map, List.map_cons, List.map_map, later]
      rfl

/-- The turns of one whole round are all the accounts, each once. -/
theorem turns_perm (pool : Pool) :
    ((List.range pool.entries.length).map pool.turn).Perm (List.range pool.entries.length) := by
  have apart : ((List.range pool.entries.length).map pool.turn).Nodup := by
    refine List.Nodup.map_on (fun first left second right same => ?_) List.nodup_range
    exact Pool.turn_inj (List.mem_range.mp left) (List.mem_range.mp right) same
  refine (List.perm_ext_iff_of_nodup apart List.nodup_range).mpr fun i => ?_
  rw [List.mem_map, List.mem_range]
  constructor
  · rintro ⟨offset, inside, rfl⟩
    exact Pool.turn_lt (List.mem_range.mp inside)
  · intro inside
    obtain ⟨offset, bound, reached⟩ := Pool.covers inside
    exact ⟨offset, List.mem_range.mpr bound, reached⟩

theorem round_start {count : Nat} (equal : ∀ account ∈ w.pool.entries, account.available w.now = true ∧
    account.active = count) : Round w.pool count 0 w := by
  refine ⟨rfl, fun offset => by rw [Nat.zero_add], fun other bound => ?_⟩
  have here := List.getElem?_eq_getElem (Pool.turn_lt bound)
  obtain ⟨available, active⟩ := equal _ (List.mem_of_getElem? here)
  exact ⟨_, here, available, by rw [active, if_neg (Nat.not_lt_zero other)]⟩

/-- Selection from a pool in any state it can come to. Nothing panics; a public select leases the
account that `peek_public` names, which is `Chosen`, and fails only when none is available; a failure
changes nothing; active counts are the outstanding leases; and a round of public selects over equal
accounts leases each of them once. -/
theorem pool_selection {start : Instant} (idle : ∀ account ∈ pool.entries, account.active = 0)
    (reach : Run.Reach step (fun _ _ => True) { pool := pool, now := start } w) :
    ((∀ name isPrivate, (w.pool.select w.now name isPrivate).isSome = true) ∧
      (w.pool.peekPublic w.now).isSome = true ∧ w.pool.rotation.isSome = true) ∧
    (∀ i next, w.pool.select w.now none false = some (.ok i, next) → Pool.Chosen w.now w.pool i) ∧
    (∀ error next, w.pool.select w.now none false = some (.error error, next) →
      error = .accountUnavailable ∧ ∀ account ∈ w.pool.entries, account.available w.now = false) ∧
    ((∀ i account, w.pool.peekPublic w.now = some (some (i, account)) ↔
      w.pool.entries[i]? = some account ∧ ∃ next, w.pool.select w.now none false = some (.ok i, next)) ∧
      step w .peek = some w) ∧
    (∀ name isPrivate error next, w.pool.select w.now name isPrivate = some (.error error, next) →
      next = w.pool ∧ step w (.select name isPrivate) = some w) ∧
    ((∀ i account, w.pool.entries[i]? = some account → account.active = w.leases.count i) ∧
      ∀ lease i : Nat, w.leases[lease]? = some i →
        ∃ account : Account, w.pool.entries[i]? = some account ∧ 0 < account.active) ∧
    ∀ count, (∀ account ∈ w.pool.entries, account.available w.now = true ∧ account.active = count) →
      ∃ x leased, Run.exec step w (List.replicate w.pool.entries.length (.select none false)) = some x ∧
        x.leases = w.leases ++ leased ∧ leased.Perm (List.range w.pool.entries.length) := by
  have counted : Counted w := by
    refine reach.invariant ⟨fun i account found => ?_, fun i member => absurd member List.not_mem_nil⟩
      fun _ _ _ held _ taken => step_counted held taken
    rw [idle account (List.mem_of_getElem? found)]
    rfl
  obtain ⟨answer, peeked⟩ := Pool.peek_total w.now w.pool
  refine ⟨⟨fun name isPrivate => ?_, ?_, ?_⟩, ?_, ?_, ⟨?_, ?_⟩, ?_, ⟨counted.active, ?_⟩, ?_⟩
  · obtain ⟨result, selected, -⟩ := Pool.selects w.now name isPrivate w.pool
    rw [selected, Option.isSome_some]
  · rw [peeked, Option.isSome_some]
  · obtain ⟨order, whole, -⟩ := Pool.order_total w.pool
    rw [Pool.rotation, whole, Option.map_some, Option.isSome_some]
  · intro i next selected
    cases answer with
    | none =>
      cases selected.symm.trans (Pool.peek_none peeked).2
    | some named =>
      obtain ⟨chosen, -, again⟩ := Pool.peek_some peeked
      cases selected.symm.trans again
      exact chosen
  · intro error next selected
    cases answer with
    | none =>
      obtain ⟨gone, again⟩ := Pool.peek_none peeked
      cases selected.symm.trans again
      exact ⟨rfl, gone⟩
    | some named => cases selected.symm.trans (Pool.peek_some peeked).2.2
  · intro i account
    constructor
    · intro named
      obtain ⟨-, found, selected⟩ := Pool.peek_some named
      exact ⟨found, _, selected⟩
    · rintro ⟨found, next, selected⟩
      cases answer with
      | none => cases selected.symm.trans (Pool.peek_none peeked).2
      | some named =>
        obtain ⟨-, looked, again⟩ := Pool.peek_some peeked
        cases selected.symm.trans again
        cases found.symm.trans looked
        exact peeked
  · rw [step, peeked, Option.map_some]
  · intro name isPrivate error next selected
    have same : next = w.pool := by
      cases Pool.selects_of_eq selected with
      | refused wanted => rfl
      | unavailable wanted gone => rfl
    refine ⟨same, ?_⟩
    rw [step, selected, Option.map_some, same]
  · intro lease i found
    have inside := counted.leased i (List.mem_of_getElem? found)
    refine ⟨_, List.getElem?_eq_getElem inside, ?_⟩
    rw [counted.active i _ (List.getElem?_eq_getElem inside)]
    exact List.count_pos_iff.mpr (List.mem_of_getElem? found)
  · intro count equal
    obtain ⟨x, run, leases⟩ := round_run _ (round_start equal) (Nat.zero_add _)
    simp only [Nat.zero_add] at leases
    exact ⟨x, _, run, leases, turns_perm w.pool⟩

/-- Two accounts of a region. -/
def twoAccounts : Pool := { entries := [{ name := "main" }, { name := "spare" }], generation := 1 }

/-- After one call two more lease both accounts. -/
theorem pool_selection_twoAccounts : ∃ w, step { pool := twoAccounts } (.select none false) = some w ∧
    w.leases = [0] ∧ Pool.Chosen w.now w.pool 1 ∧
      ∀ lease i : Nat, w.leases[lease]? = some i →
        ∃ account : Account, w.pool.entries[i]? = some account ∧ 0 < account.active := by
  have taken : step { pool := twoAccounts } (.select none false) = some _ := rfl
  obtain ⟨-, chosen, -, -, -, ⟨-, counts⟩, -⟩ := pool_selection (by decide) (.next .start trivial taken)
  exact ⟨_, taken, rfl, chosen 1 _ rfl, counts⟩

end SiriusProxy.Accounts
