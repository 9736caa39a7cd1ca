import SiriusProxy.Error
import SiriusProxy.Lib.OrderedMap
import SiriusProxy.Lib.Run
import SiriusProxy.Text
import Mathlib.Data.List.Nodup
import Mathlib.Data.String.Basic
import Mathlib.Logic.Function.Basic

namespace SiriusProxy.ResponseCache

inductive Route where
  | announcements
  | announcement
  | eventRankings
  | songRankings
  | challengeRankings
  deriving DecidableEq, Repr

structure MemoryConfig where
  ttlMs : Nat
  staleWhileRevalidateMs : Nat := 0
  routeTtlMs : List (Route × Nat) := []
  maxEntries : Nat
  maxBytes : Nat
  maxEntryBytes : Nat

structure RedisConfig where
  urlEnv : String
  nameSpace : String
  ttlMs : Nat
  staleWhileRevalidateMs : Nat := 0
  routeTtlMs : List (Route × Nat) := []
  maxEntryBytes : Nat
  operationTimeoutMs : Nat

inductive Config where
  | disabled
  | memory (config : MemoryConfig)
  | redis (config : RedisConfig)

def MemoryConfig.valid (c : MemoryConfig) : Bool :=
  decide (1 ≤ c.ttlMs ∧ c.ttlMs ≤ 300000) && decide (c.staleWhileRevalidateMs ≤ 300000) &&
    c.routeTtlMs.all (fun route => decide (route.2 ≤ 300000)) &&
    decide (1 ≤ c.maxEntries ∧ c.maxEntries ≤ 100000) &&
    decide (1024 ≤ c.maxBytes ∧ c.maxBytes ≤ 1024 * 1024 * 1024) &&
    decide (256 ≤ c.maxEntryBytes ∧ c.maxEntryBytes ≤ 8 * 1024 * 1024) &&
    decide (c.maxEntryBytes ≤ c.maxBytes)

def RedisConfig.valid (c : RedisConfig) : Bool :=
  c.urlEnv != "" && c.nameSpace != "" && decide (c.nameSpace.utf8ByteSize ≤ 64) &&
    c.nameSpace.toList.all (fun b => isAsciiAlphanumeric b || b == '_' || b == '-') &&
    decide (c.staleWhileRevalidateMs ≤ 300000) && c.routeTtlMs.all (fun route => decide (route.2 ≤ 300000)) &&
    decide (1 ≤ c.ttlMs ∧ c.ttlMs ≤ 300000) && decide (256 ≤ c.maxEntryBytes ∧ c.maxEntryBytes ≤ 8 * 1024 * 1024) &&
    decide (1 ≤ c.operationTimeoutMs ∧ c.operationTimeoutMs ≤ 2000)

def Config.valid : Config → Bool
  | .disabled => true
  | .memory config => config.valid
  | .redis config => config.valid

def Config.validate (c : Config) : Except AppError Unit :=
  if c.valid then .ok () else .error (.config "invalid response cache configuration")

theorem Config.validate_memory {config : MemoryConfig} (accepted : (Config.memory config).validate = .ok ()) :
    1 ≤ config.maxEntries ∧ config.maxEntryBytes ≤ config.maxBytes := by
  unfold Config.validate at accepted
  split at accepted
  · rename_i valid
    simp only [Config.valid, MemoryConfig.valid, Bool.and_eq_true, decide_eq_true_eq] at valid
    exact ⟨valid.1.1.1.2.1, valid.2⟩
  · cases accepted

def u64Max : Nat := 18446744073709551615

/-- `u64::saturating_add`. -/
def saturatingAdd (a b : Nat) : Nat := min (a + b) u64Max

structure Entry (V : Type) where
  expiresMs : Nat
  retainMs : Nat
  value : V
  deriving DecidableEq, Repr

/-- `serde_json` on cache entries. What it reads from its own text is what was written. It may refuse to
read a text it wrote: writing has no limit of nesting, and reading stops at a depth of 128. The law is one
for values without floats, whose text `serde_json` may read as a neighbour; no message that is cached has a
float or double field. -/
structure Json (V : Type) where
  toVec : Entry V → Option (List UInt8)
  fromSlice : List UInt8 → Option (Entry V)
  faithful : ∀ entry bytes read, toVec entry = some bytes → fromSlice bytes = some read → read = entry

structure Cached (V : Type) where
  value : V
  stale : Bool
  deriving DecidableEq, Repr

def decode {V : Type} (json : Json V) (bytes : List UInt8) (limit : Option Nat) (now : Nat) : Option (Cached V) :=
  if limit.any (fun limit => decide (limit < bytes.length)) then none
  else (json.fromSlice bytes).bind fun entry =>
    if now < max entry.retainMs entry.expiresMs then
      some { stale := decide (entry.expiresMs ≤ now), value := entry.value }
    else none

/-- An `Arc<[u8]>`; `id` is its address. A reader that compares addresses holds the allocation, so
no two handles it can compare share one by reuse. -/
structure Slot where
  id : Nat
  bytes : List UInt8
  deriving DecidableEq, Repr

def Slot.len (slot : Slot) : Nat := slot.bytes.length

structure Memory where
  entries : OrderedMap String Slot := {}
  bytes : Nat := 0

def Memory.full (config : MemoryConfig) (len : Nat) (m : Memory) : Bool :=
  decide (config.maxEntries ≤ m.entries.size) || decide (config.maxBytes < m.bytes + len)

/-- At most `rounds` rounds of the eviction loop of `put_with_ttl`. -/
def Memory.evict (config : MemoryConfig) (len : Nat) : Nat → Memory → Option Memory
  | 0, m => some m
  | rounds + 1, m =>
    if m.full config len then
      match m.entries.popFirst with
      | none => some m
      | some (removed, rest) =>
        (checkedSub m.bytes removed.len).bind fun bytes => evict config len rounds { entries := rest, bytes := bytes }
    else some m

/-- `if let Some(old) = memory.entries.remove(&key)` with its subtraction. -/
def Memory.forget (key : String) (m : Memory) : Option Memory :=
  match m.entries.get? key with
  | none => some m
  | some old => (checkedSub m.bytes old.len).map fun bytes => { entries := m.entries.erase key, bytes := bytes }

def Memory.store (key : String) (slot : Slot) (m : Memory) : Memory :=
  { entries := m.entries.insert key slot, bytes := m.bytes + slot.len }

/-- The section of `put_with_ttl` under the lock; `none` is an underflow. A loop round removes an
entry or ends the loop, so there are at most as many rounds as entries. -/
def Memory.put (config : MemoryConfig) (key : String) (slot : Slot) (m : Memory) : Option Memory :=
  (m.forget key).bind fun m => (m.evict config slot.len m.entries.size).map (Memory.store key slot)

/-- The second locked section of `get_with_state`. -/
def Memory.expire (key : String) (slot : Slot) (m : Memory) : Option Memory :=
  match m.entries.get? key with
  | none => some m
  | some current =>
    if current.id = slot.id then
      (checkedSub m.bytes slot.len).map fun bytes => { entries := m.entries.erase key, bytes := bytes }
    else some m

/-- The entry that a put at `now` writes: fresh for `ttl`, and kept for `stale` behind that. -/
def Entry.lasting {V : Type} (stale now ttl : Nat) (value : V) : Entry V :=
  let expiresMs := saturatingAdd now ttl
  { expiresMs := expiresMs, retainMs := saturatingAdd expiresMs stale, value := value }

def Entry.fill {V : Type} (config : MemoryConfig) (now ttl : Nat) (value : V) : Entry V :=
  Entry.lasting config.staleWhileRevalidateMs now ttl value

/-- An accepted put: the `Arc` it stored and what it was given. -/
structure Put (V : Type) where
  key : String
  id : Nat
  now : Nat
  ttl : Nat
  value : V
  deriving DecidableEq, Repr

def Put.entry {V : Type} (config : MemoryConfig) (put : Put V) : Entry V :=
  Entry.fill config put.now put.ttl put.value

/-- The latest put of a key in a history listed newest first. -/
def latest {V : Type} (key : String) (puts : List (Put V)) : Option (Put V) :=
  puts.find? fun put => decide (put.key = key)

/-- What a read cloned, with the put that was then the latest for its key. -/
structure Clone (V : Type) where
  key : String
  slot : Slot
  atRead : Option (Put V)

/-- Where a `get_with_state` stands between its two locked sections. -/
inductive Phase (V : Type) where
  | idle
  | cloned (read : Clone V)
  | expired (read : Clone V) (now : Nat)

structure Answer (V : Type) where
  read : Clone V
  now : Nat
  cached : Cached V

structure World (V : Type) where
  memory : Memory := {}
  arcs : Nat := 0
  readers : Nat → Phase V := fun _ => .idle
  underflowed : Bool := false
  puts : List (Put V) := []
  answers : List (Answer V) := []

inductive Label (V : Type) where
  | put (key : String) (value : V) (overrideTtl : Option Nat) (now : Nat)
  | read (reader : Nat) (key : String)
  | decode (reader : Nat) (now : Nat)
  | expire (reader : Nat)

variable {V : Type}

/-- The state after a locked section; an underflow there is recorded. -/
def World.locked (w : World V) : Option Memory → World V
  | some memory => { w with memory := memory }
  | none => { w with underflowed := true }

def World.stored (config : MemoryConfig) (put : Put V) (bytes : List UInt8) (w : World V) : World V :=
  let slot : Slot := { id := put.id, bytes := bytes }
  { w.locked (w.memory.put config put.key slot) with arcs := w.arcs + 1, puts := put :: w.puts }

def World.putWithTtl (json : Json V) (config : MemoryConfig) (key : String) (value : V) (overrideTtl : Option Nat)
    (now : Nat) (w : World V) : World V :=
  let put : Put V := { key, id := w.arcs, now, ttl := overrideTtl.getD config.ttlMs, value }
  match json.toVec (put.entry config) with
  | none => w
  | some bytes => if config.maxEntryBytes < bytes.length then w else w.stored config put bytes

def World.answered (w : World V) (reader : Nat) (read : Clone V) (now : Nat) : Option (Cached V) → World V
  | some cached =>
    { w with
      readers := Function.update w.readers reader .idle
      answers := { read, now, cached } :: w.answers }
  | none => { w with readers := Function.update w.readers reader (.expired read now) }

def step (json : Json V) (config : MemoryConfig) (w : World V) : Label V → Option (World V)
  | .put key value overrideTtl now => some (w.putWithTtl json config key value overrideTtl now)
  | .read reader key =>
    match w.readers reader with
    | .idle =>
      some <| match w.memory.entries.get? key with
        | none => w
        | some slot =>
          let read : Clone V := { key, slot, atRead := latest key w.puts }
          { w with readers := Function.update w.readers reader (.cloned read) }
    | _ => none
  | .decode reader now =>
    match w.readers reader with
    | .cloned read => some (w.answered reader read now (ResponseCache.decode json read.slot.bytes none now))
    | _ => none
  | .expire reader =>
    match w.readers reader with
    | .expired read _ =>
      some { w.locked (w.memory.expire read.key read.slot) with readers := Function.update w.readers reader .idle }
    | _ => none

/-- The slot holds what the put wrote. -/
def Put.wrote (json : Json V) (config : MemoryConfig) (put : Put V) (slot : Slot) : Prop :=
  put.id = slot.id ∧ json.toVec (put.entry config) = some slot.bytes

/-- A clone is of the put that was the latest when it was read. -/
def Clone.Sound (json : Json V) (config : MemoryConfig) (puts : List (Put V)) (read : Clone V) : Prop :=
  ∃ put ∈ puts, read.atRead = some put ∧ put.key = read.key ∧ put.wrote json config read.slot

structure Memory.Bounded (config : MemoryConfig) (m : Memory) : Prop where
  total : m.bytes = m.entries.weight Slot.len
  size : m.entries.size ≤ config.maxEntries
  bytes : m.bytes ≤ config.maxBytes

/-- An answer is the put's value, within its retention time, and stale exactly after its TTL. -/
def Answer.Sound (config : MemoryConfig) (answer : Answer V) : Prop :=
  ∃ put, answer.read.atRead = some put ∧ put.key = answer.read.key ∧ answer.cached.value = put.value ∧
    answer.now < max (put.entry config).retainMs (put.entry config).expiresMs ∧
    (answer.cached.stale = true ↔ (put.entry config).expiresMs ≤ answer.now)

def Phase.Sound (json : Json V) (config : MemoryConfig) (puts : List (Put V)) : Phase V → Prop
  | .idle => True
  | .cloned read => read.Sound json config puts
  | .expired read now => read.Sound json config puts ∧ ResponseCache.decode json read.slot.bytes none now = none

structure Inv (json : Json V) (config : MemoryConfig) (w : World V) : Prop where
  bounded : w.memory.Bounded config
  safe : w.underflowed = false
  older : ∀ put ∈ w.puts, put.id < w.arcs
  apart : w.puts.Pairwise fun new old => old.id < new.id
  held : ∀ key slot, w.memory.entries.get? key = some slot →
    ∃ put, latest key w.puts = some put ∧ put.wrote json config slot
  readers : ∀ reader, (w.readers reader).Sound json config w.puts
  answers : ∀ answer ∈ w.answers, answer.Sound config

variable {config : MemoryConfig} {m : Memory} {key : String} {slot : Slot}

/-- Taking out what is stored keeps the byte count exact. -/
theorem Memory.Bounded.without (bounded : m.Bounded config) {current : Slot}
    (found : m.entries.get? key = some current) :
    ∃ bytes, checkedSub m.bytes current.len = some bytes ∧
      Memory.Bounded config { entries := m.entries.erase key, bytes := bytes } := by
  obtain ⟨total, count⟩ := OrderedMap.weight_erase Slot.len found
  have split : m.bytes = current.len + (m.entries.erase key).weight Slot.len := bounded.total.trans total
  refine ⟨_, split ▸ checkedSub_add _ _, rfl, ?_, ?_⟩
  · have size := bounded.size
    simp only
    omega
  · have bytes := bounded.bytes
    simp only
    omega

theorem Memory.Bounded.forget (bounded : m.Bounded config) (key : String) :
    ∃ after, m.forget key = some after ∧ after.Bounded config ∧ after.entries = m.entries.erase key := by
  unfold Memory.forget
  cases found : m.entries.get? key with
  | none => exact ⟨m, rfl, bounded, (OrderedMap.erase_absent found).symm⟩
  | some old =>
    obtain ⟨bytes, taken, kept⟩ := bounded.without found
    exact ⟨_, by simp only [taken, Option.map_some], kept, rfl⟩

/-- The loop has ended after as many rounds as there are entries: further rounds change nothing. -/
theorem Memory.evict_rounds (len : Nat) {rounds : Nat} (enough : m.entries.size ≤ rounds) :
    m.evict config len rounds = m.evict config len m.entries.size := by
  induction rounds generalizing m with
  | zero => rw [Nat.le_zero.mp enough]
  | succ rounds ih =>
    cases popped : m.entries.popFirst with
    | none =>
      have empty : m.entries.size = 0 := by rw [OrderedMap.size, OrderedMap.popFirst_none popped, List.length_nil]
      rw [empty]
      simp only [Memory.evict, popped, ite_self]
    | some first =>
      have shrinks := OrderedMap.popFirst_size popped
      rw [shrinks]
      simp only [Memory.evict, popped]
      split
      · cases checkedSub m.bytes first.1.len with
        | none => rfl
        | some bytes => exact ih (m := { entries := first.2, bytes := bytes }) (by simp only; omega)
      · rfl

/-- It ends with room for the new entry, and only takes entries out. -/
theorem Memory.evict_room {len : Nat} (entry : 1 ≤ config.maxEntries) (fits : len ≤ config.maxBytes)
    {rounds : Nat} (enough : m.entries.size ≤ rounds) (total : m.bytes = m.entries.weight Slot.len) :
    ∃ after, m.evict config len rounds = some after ∧ after.bytes = after.entries.weight Slot.len ∧
      after.full config len = false ∧
      ∀ key slot, after.entries.get? key = some slot → m.entries.get? key = some slot := by
  induction rounds generalizing m with
  | zero =>
    have empty : m.entries.entries = [] := List.length_eq_zero_iff.mp (Nat.le_zero.mp enough)
    have none : m.bytes = 0 := by rw [total, OrderedMap.weight, empty, List.map_nil, List.sum_nil]
    refine ⟨m, rfl, total, ?_, fun _ _ found => found⟩
    simp only [Memory.full, OrderedMap.size, empty, none, List.length_nil, Bool.or_eq_false_iff,
      decide_eq_false_iff_not]
    omega
  | succ rounds ih =>
    cases condition : m.full config len with
    | false => exact ⟨m, by simp [Memory.evict, condition], total, condition, fun _ _ found => found⟩
    | true =>
      cases popped : m.entries.popFirst with
      | none =>
        have empty := OrderedMap.popFirst_none popped
        have none : m.bytes = 0 := by rw [total, OrderedMap.weight, empty, List.map_nil, List.sum_nil]
        simp only [Memory.full, OrderedMap.size, empty, none, List.length_nil, Bool.or_eq_true,
          decide_eq_true_eq] at condition
        omega
      | some first =>
        have shrinks := OrderedMap.popFirst_size popped
        have split := total.trans (OrderedMap.weight_popFirst Slot.len popped)
        have taken : checkedSub m.bytes first.1.len = some (first.2.weight Slot.len) := split ▸ checkedSub_add _ _
        obtain ⟨after, run, exact_, room, kept⟩ :=
          ih (m := { entries := first.2, bytes := first.2.weight Slot.len }) (by simp only; omega) rfl
        refine ⟨after, ?_, exact_, room, fun key slot found => ?_⟩
        · simp only [Memory.evict, condition, popped, taken, if_true, Option.bind_some, run]
        · exact OrderedMap.get?_popFirst popped (kept key slot found)

theorem Memory.Bounded.put (bounded : m.Bounded config) (entry : 1 ≤ config.maxEntries)
    (key : String) (slot : Slot) (fits : slot.len ≤ config.maxBytes) :
    ∃ after, m.put config key slot = some after ∧ after.Bounded config ∧ after.entries.get? key = some slot ∧
      ∀ other found, after.entries.get? other = some found →
        other = key ∧ found = slot ∨ other ≠ key ∧ m.entries.get? other = some found := by
  obtain ⟨cleared, forgot, clear, erased⟩ := bounded.forget key
  obtain ⟨room, evicted, total, space, kept⟩ := Memory.evict_room entry fits (Nat.le_refl _) clear.total
  have absent : room.entries.get? key = none := by
    refine Option.eq_none_iff_forall_ne_some.mpr fun old found => ?_
    have before := kept key old found
    rw [erased] at before
    exact (OrderedMap.get?_erase.mp before).2 rfl
  obtain ⟨weight, size⟩ := OrderedMap.weight_insert Slot.len (v := slot) absent
  simp only [Memory.full, Bool.or_eq_false_iff, decide_eq_false_iff_not] at space
  refine ⟨room.store key slot, ?_, ⟨?_, ?_, ?_⟩, OrderedMap.get?_insert_self, fun other found stored => ?_⟩
  · simp only [Memory.put, forgot, Option.bind_some, evicted, Option.map_some]
  · simp only [Memory.store, weight, total]
  · simp only [Memory.store]
    omega
  · simp only [Memory.store]
    omega
  · rcases OrderedMap.get?_insert stored with new | ⟨differs, old⟩
    · exact Or.inl new
    · have before := kept other found old
      rw [erased] at before
      exact Or.inr ⟨differs, (OrderedMap.get?_erase.mp before).1⟩

/-- The second locked section of a read takes out nothing but the slot that was read. -/
theorem Memory.Bounded.expire (bounded : m.Bounded config) (slot : Slot)
    (same : ∀ current, m.entries.get? key = some current → current.id = slot.id → current = slot) :
    ∃ after, m.expire key slot = some after ∧ after.Bounded config ∧
      (∀ other found, after.entries.get? other = some found → m.entries.get? other = some found) ∧
      ∀ other found, m.entries.get? other = some found →
        after.entries.get? other = some found ∨ other = key ∧ found = slot := by
  unfold Memory.expire
  cases found : m.entries.get? key with
  | none => exact ⟨m, rfl, bounded, fun _ _ kept => kept, fun _ _ kept => Or.inl kept⟩
  | some current =>
    by_cases identical : current.id = slot.id
    · cases same current found identical
      obtain ⟨bytes, taken, kept⟩ := bounded.without found
      refine ⟨_, by simp only [if_true, taken, Option.map_some], kept, fun _ _ after => ?_, fun other there before => ?_⟩
      · exact (OrderedMap.get?_erase.mp after).1
      · by_cases here : other = key
        · cases here
          exact Or.inr ⟨rfl, Option.some.inj (before.symm.trans found)⟩
        · exact Or.inl (OrderedMap.get?_erase.mpr ⟨before, here⟩)
    · exact ⟨m, if_neg identical, bounded, fun _ _ kept => kept, fun _ _ kept => Or.inl kept⟩

/-- Put by put, the eviction loop ends after at most one round for each entry, because its condition fails. -/
theorem Memory.Bounded.loop_ends (bounded : m.Bounded config) (entry : 1 ≤ config.maxEntries) {len : Nat}
    (fits : len ≤ config.maxBytes) (key : String) :
    ∃ cleared room, m.forget key = some cleared ∧ room.full config len = false ∧
      ∀ rounds, cleared.entries.size ≤ rounds → cleared.evict config len rounds = some room := by
  obtain ⟨cleared, forgot, clear, -⟩ := bounded.forget key
  obtain ⟨room, evicted, -, space, -⟩ := Memory.evict_room entry fits (Nat.le_refl _) clear.total
  refine ⟨cleared, room, forgot, space, fun rounds enough => ?_⟩
  rw [Memory.evict_rounds len enough, evicted]

variable {json : Json V} {w : World V} {puts : List (Put V)} {put : Put V}

theorem latest_mem (newest : latest key puts = some put) : put ∈ puts ∧ put.key = key := by
  refine ⟨List.mem_of_find?_eq_some newest, ?_⟩
  simpa using List.find?_some newest

theorem latest_cons_self : latest put.key (put :: puts) = some put :=
  List.find?_cons_of_pos (by simp)

theorem latest_cons_other (differs : key ≠ put.key) : latest key (put :: puts) = latest key puts :=
  List.find?_cons_of_neg (by simpa using differs.symm)

theorem Clone.Sound.cons {read : Clone V} (sound : read.Sound json config puts) :
    read.Sound json config (put :: puts) := by
  obtain ⟨old, member, facts⟩ := sound
  exact ⟨old, List.mem_cons_of_mem _ member, facts⟩

theorem Phase.Sound.cons {phase : Phase V} (sound : phase.Sound json config puts) :
    phase.Sound json config (put :: puts) := by
  cases phase with
  | idle => trivial
  | cloned read => exact Clone.Sound.cons sound
  | expired read now => exact ⟨sound.1.cons, sound.2⟩

/-- Puts are told apart by the handle they stored. -/
theorem Inv.same_put (inv : Inv json config w) {old : Put V} (new : put ∈ w.puts) (there : old ∈ w.puts)
    (identical : old.id = put.id) : old = put := by
  have apart : w.puts.Pairwise fun a b => a.id ≠ b.id := inv.apart.imp fun less => (Nat.ne_of_lt less).symm
  have distinct : (w.puts.map Put.id).Nodup := List.pairwise_map.mpr apart
  exact List.inj_on_of_nodup_map distinct there new identical

/-- What a decoded slot says is what its put wrote. -/
theorem decode_sound {now : Nat} {cached : Cached V} (wrote : put.wrote json config slot)
    (decoded : decode json slot.bytes none now = some cached) :
    cached.value = put.value ∧ now < max (put.entry config).retainMs (put.entry config).expiresMs ∧
      (cached.stale = true ↔ (put.entry config).expiresMs ≤ now) := by
  simp only [decode, Option.any_none, Bool.false_eq_true, if_false] at decoded
  obtain ⟨entry, parsed, decoded⟩ := Option.bind_eq_some_iff.mp decoded
  cases json.faithful _ _ _ wrote.2 parsed
  split at decoded
  · rename_i retained
    cases decoded
    exact ⟨rfl, retained, decide_eq_true_iff⟩
  · cases decoded

/-- Of the key a read holds, a stored slot with the same handle is the slot it read, and its put is
still the latest. -/
theorem Inv.same_slot (inv : Inv json config w) {read : Clone V} (sound : read.Sound json config w.puts)
    {current : Slot} (found : w.memory.entries.get? read.key = some current) (identical : current.id = read.slot.id) :
    current = read.slot ∧ latest read.key w.puts = read.atRead := by
  obtain ⟨put, newest, wrote⟩ := inv.held _ _ found
  obtain ⟨seen, member, atRead, -, written⟩ := sound
  have same : put = seen := by
    apply inv.same_put member (latest_mem newest).1
    rw [wrote.1, identical, written.1]
  subst same
  have bytes : current.bytes = read.slot.bytes := Option.some.inj (wrote.2.symm.trans written.2)
  refine ⟨?_, newest.trans atRead.symm⟩
  cases current
  cases slot : read.slot
  simp_all

theorem Inv.initial : Inv json config ({} : World V) where
  bounded := ⟨rfl, Nat.zero_le _, Nat.zero_le _⟩
  safe := rfl
  older := by simp
  apart := List.Pairwise.nil
  held := by
    intro key slot found
    cases OrderedMap.get?_eq_some.mp found
  readers := fun _ => trivial
  answers := by simp

theorem Inv.reader (inv : Inv json config w) {reader : Nat} {phase : Phase V}
    (sound : phase.Sound json config w.puts) (other : Nat) :
    (Function.update w.readers reader phase other).Sound json config w.puts := by
  by_cases same : other = reader
  · rw [same, Function.update_self]
    exact sound
  · rw [Function.update_of_ne same]
    exact inv.readers other

/-- An accepted put stores its entry and keeps the invariant. -/
theorem Inv.stored (inv : Inv json config w) (entry : 1 ≤ config.maxEntries) (put : Put V) {bytes : List UInt8}
    (fits : bytes.length ≤ config.maxBytes) (fresh : put.id = w.arcs)
    (written : json.toVec (put.entry config) = some bytes) :
    Inv json config (w.stored config put bytes) ∧
      (w.stored config put bytes).memory.entries.get? put.key = some { id := put.id, bytes := bytes } := by
  obtain ⟨after, taken, bounded, present, kept⟩ :=
    inv.bounded.put entry put.key { id := put.id, bytes := bytes } fits
  have state : w.stored config put bytes =
      { w with memory := after, arcs := w.arcs + 1, puts := put :: w.puts } := by
    simp only [World.stored, taken, World.locked]
  rw [state]
  refine ⟨⟨bounded, inv.safe, ?_, ?_, ?_, fun reader => (inv.readers reader).cons, inv.answers⟩, present⟩
  · intro old member
    rcases List.mem_cons.mp member with same | before
    · rw [same, fresh]
      exact Nat.lt_succ_self _
    · exact Nat.lt_succ_of_lt (inv.older old before)
  · refine List.pairwise_cons.mpr ⟨fun old member => ?_, inv.apart⟩
    rw [fresh]
    exact inv.older old member
  · intro key slot found
    rcases kept key slot found with ⟨rfl, rfl⟩ | ⟨differs, before⟩
    · exact ⟨put, latest_cons_self, rfl, written⟩
    · obtain ⟨old, newest, wrote⟩ := inv.held key slot before
      exact ⟨old, (latest_cons_other differs).trans newest, wrote⟩

theorem Inv.putWithTtl (inv : Inv json config w) (entry : 1 ≤ config.maxEntries)
    (limit : config.maxEntryBytes ≤ config.maxBytes) (key : String) (value : V) (overrideTtl : Option Nat) (now : Nat) :
    Inv json config (w.putWithTtl json config key value overrideTtl now) := by
  unfold World.putWithTtl
  simp only
  split
  · exact inv
  · rename_i bytes written
    split
    · exact inv
    · rename_i accepted
      have fits : bytes.length ≤ config.maxBytes := by omega
      exact (inv.stored entry _ fits rfl written).1

theorem Inv.cloned (inv : Inv json config w) (reader : Nat) (found : w.memory.entries.get? key = some slot) :
    Inv json config { w with
      readers := Function.update w.readers reader (.cloned { key, slot, atRead := latest key w.puts }) } := by
  obtain ⟨put, newest, wrote⟩ := inv.held key slot found
  obtain ⟨member, named⟩ := latest_mem newest
  exact { inv with readers := inv.reader ⟨put, member, newest, named, wrote⟩ }

theorem Inv.answered (inv : Inv json config w) {reader now : Nat} {read : Clone V}
    (phase : w.readers reader = .cloned read) :
    Inv json config (w.answered reader read now (decode json read.slot.bytes none now)) := by
  have sound : read.Sound json config w.puts := by simpa only [phase, Phase.Sound] using inv.readers reader
  cases decoded : decode json read.slot.bytes none now with
  | none => exact { inv with readers := inv.reader ⟨sound, decoded⟩ }
  | some cached =>
    refine { inv with readers := inv.reader trivial, answers := fun answer member => ?_ }
    rcases List.mem_cons.mp member with rfl | before
    · obtain ⟨put, -, atRead, named, wrote⟩ := sound
      exact ⟨put, atRead, named, decode_sound wrote decoded⟩
    · exact inv.answers answer before

/-- A removal keeps the invariant and takes out nothing but the slot that was read, of the put that
is still the latest. -/
theorem Inv.expired (inv : Inv json config w) {reader now : Nat} {read : Clone V}
    (phase : w.readers reader = .expired read now) :
    ∃ after, step json config w (.expire reader) = some after ∧ Inv json config after ∧
      ∀ other found, w.memory.entries.get? other = some found → after.memory.entries.get? other = some found ∨
        other = read.key ∧ found = read.slot ∧ latest read.key w.puts = read.atRead ∧
          decode json read.slot.bytes none now = none := by
  obtain ⟨sound, past⟩ : read.Sound json config w.puts ∧ decode json read.slot.bytes none now = none := by
    simpa only [phase, Phase.Sound] using inv.readers reader
  obtain ⟨memory, taken, bounded, fewer, kept⟩ :=
    inv.bounded.expire read.slot fun current found identical => (inv.same_slot sound found identical).1
  have state : step json config w (.expire reader) =
      some { w with memory := memory, readers := Function.update w.readers reader .idle } := by
    simp only [step, phase, taken, World.locked]
  refine ⟨_, state, { inv with
    bounded := bounded, held := fun key slot found => inv.held key slot (fewer key slot found),
    readers := inv.reader trivial }, fun other found before => ?_⟩
  rcases kept other found before with still | ⟨rfl, rfl⟩
  · exact Or.inl still
  · exact Or.inr ⟨rfl, rfl, (inv.same_slot sound before rfl).2, past⟩

theorem Inv.step {after : World V} {label : Label V} (inv : Inv json config w)
    (accepted : (Config.memory config).validate = .ok ()) (taken : step json config w label = some after) :
    Inv json config after := by
  obtain ⟨entry, limit⟩ := Config.validate_memory accepted
  cases label with
  | put key value overrideTtl now =>
    cases taken
    exact inv.putWithTtl entry limit key value overrideTtl now
  | read reader key =>
    simp only [ResponseCache.step] at taken
    split at taken
    · cases taken
      split
      · exact inv
      · rename_i slot found
        exact inv.cloned reader found
    · cases taken
  | decode reader now =>
    simp only [ResponseCache.step] at taken
    split at taken
    · rename_i read phase
      cases taken
      exact inv.answered phase
    · cases taken
  | expire reader =>
    cases phase : w.readers reader with
    | expired read now =>
      obtain ⟨state, stepped, kept, -⟩ := inv.expired phase
      cases stepped.symm.trans taken
      exact kept
    | idle => simp [ResponseCache.step, phase] at taken
    | cloned read => simp [ResponseCache.step, phase] at taken

theorem Inv.reach (accepted : (Config.memory config).validate = .ok ())
    (reach : Run.Reach (ResponseCache.step json config) (fun _ _ => True) {} w) : Inv json config w :=
  reach.invariant Inv.initial fun _ _ _ inv _ taken => inv.step accepted taken

/-- The memory backend of a validated configuration under any interleaving of puts and of the parts
of reads. An answer refers to the put that was the latest accepted one for its key when it was read. -/
theorem memory_cache (accepted : (Config.memory config).validate = .ok ())
    (reach : Run.Reach (step json config) (fun _ _ => True) {} w) :
    (w.memory.bytes = w.memory.entries.weight Slot.len ∧ w.memory.bytes ≤ config.maxBytes ∧
      w.memory.entries.size ≤ config.maxEntries ∧ w.underflowed = false) ∧
    (∀ len key, len ≤ config.maxEntryBytes → ∃ cleared room, w.memory.forget key = some cleared ∧
      room.full config len = false ∧
      ∀ rounds, cleared.entries.size ≤ rounds → cleared.evict config len rounds = some room) ∧
    (∀ key value overrideTtl now bytes,
      json.toVec (Entry.fill config now (overrideTtl.getD config.ttlMs) value) = some bytes →
      bytes.length ≤ config.maxEntryBytes →
      ∃ after, step json config w (.put key value overrideTtl now) = some after ∧
        after.memory.entries.get? key = some { id := w.arcs, bytes := bytes }) ∧
    (∀ answer ∈ w.answers, answer.Sound config) ∧
    (∀ reader read now, w.readers reader = .expired read now →
      ∃ after, step json config w (.expire reader) = some after ∧
        ∀ other found, w.memory.entries.get? other = some found → after.memory.entries.get? other = some found ∨
          other = read.key ∧ found = read.slot ∧ latest read.key w.puts = read.atRead ∧
            decode json read.slot.bytes none now = none) := by
  have inv := Inv.reach accepted reach
  obtain ⟨entry, limit⟩ := Config.validate_memory accepted
  refine ⟨⟨inv.bounded.total, inv.bounded.bytes, inv.bounded.size, inv.safe⟩, ?_, ?_, inv.answers, ?_⟩
  · intro len key fits
    exact inv.bounded.loop_ends entry (Nat.le_trans fits limit) key
  · intro key value overrideTtl now bytes written fits
    have put := inv.stored entry { key, id := w.arcs, now, ttl := overrideTtl.getD config.ttlMs, value }
      (Nat.le_trans fits limit) rfl written
    refine ⟨_, rfl, ?_⟩
    have stored : w.putWithTtl json config key value overrideTtl now =
        w.stored config { key, id := w.arcs, now, ttl := overrideTtl.getD config.ttlMs, value } bytes := by
      simp only [World.putWithTtl, Put.entry, written, if_neg (Nat.not_lt.mpr fits)]
    rw [stored]
    exact put.2
  · intro reader read now phase
    obtain ⟨after, taken, -, kept⟩ := inv.expired phase
    exact ⟨after, taken, kept⟩

/-- Two entries and the text `serde_json` writes for them. -/
def sampleTexts : List (Entry Nat × String) :=
  [(⟨2000, 2000, 1⟩, "\x7b\"expires_ms\":2000,\"retain_ms\":2000,\"value\":1\x7d"),
    (⟨6000, 6000, 2⟩, "\x7b\"expires_ms\":6000,\"retain_ms\":6000,\"value\":2\x7d")]

def sampleToVec (entry : Entry Nat) : Option (List UInt8) :=
  (sampleTexts.find? fun sample => sample.1 == entry).map fun sample => ascii sample.2

def sampleFromSlice (bytes : List UInt8) : Option (Entry Nat) :=
  (sampleTexts.find? fun sample => ascii sample.2 == bytes).map (·.1)

theorem sample_faithful (entry : Entry Nat) (bytes : List UInt8) (read : Entry Nat)
    (written : sampleToVec entry = some bytes) (parsed : sampleFromSlice bytes = some read) : read = entry := by
  obtain ⟨sample, first, rfl⟩ := Option.map_eq_some_iff.mp written
  have named : sample.1 = entry := by simpa using List.find?_some first
  have member := List.mem_of_find?_eq_some first
  have each : ∀ sample ∈ sampleTexts, sampleFromSlice (ascii sample.2) = some sample.1 := by decide +kernel
  have back := (each sample member).symm.trans parsed
  rw [← named]
  exact (Option.some.inj back).symm

def sampleJson : Json Nat := ⟨sampleToVec, sampleFromSlice, sample_faithful⟩

def sampleConfig : MemoryConfig := { ttlMs := 1000, maxEntries := 1, maxBytes := 1024, maxEntryBytes := 256 }

/-- A read finds the entry expired; before it takes the lock again the key is filled anew. -/
def refill : List (Label Nat) :=
  [.put "announcement" 1 none 1000, .read 0 "announcement", .decode 0 5000, .put "announcement" 2 none 5000, .expire 0,
    .read 1 "announcement", .decode 1 5500]

theorem memory_cache_refill : ∃ w, Run.exec (step sampleJson sampleConfig) {} refill = some w ∧
    w.memory.bytes = 46 ∧ w.answers.map (·.cached) = [⟨2, false⟩] ∧
    w.memory.bytes = w.memory.entries.weight Slot.len ∧ w.memory.entries.size ≤ 1 ∧ w.underflowed = false ∧
    ∀ answer ∈ w.answers, answer.Sound sampleConfig := by
  have run : (Run.exec (step sampleJson sampleConfig) {} refill).map
      (fun w => (w.memory.bytes, w.answers.map (·.cached))) = some (46, [⟨2, false⟩]) := by decide +kernel
  obtain ⟨w, ran, shown⟩ := Option.map_eq_some_iff.mp run
  have accepted : (Config.memory sampleConfig).validate = .ok () := rfl
  obtain ⟨⟨total, -, size, safe⟩, -, -, answers, -⟩ := memory_cache accepted (Run.reach_of_exec ran)
  exact ⟨w, ran, (Prod.mk.inj shown).1, (Prod.mk.inj shown).2, total, size, safe, answers⟩

end SiriusProxy.ResponseCache
