import SiriusProxy.ResponseCache

namespace SiriusProxy.ResponseCache.Redis

/-- A string in Redis, with the time in milliseconds at which it expires. -/
structure Item where
  bytes : List UInt8
  expiresAt : Option Nat := none

/-- What Redis holds: keys of this and of any other writer. -/
abbrev Store := String → Option Item

def Store.get (store : Store) (now : Nat) (key : String) : Option (List UInt8) :=
  ((store key).filter fun item => item.expiresAt.all fun limit => decide (now < limit)).map Item.bytes

/-- `GETRANGE`: both offsets are included, and a missing key is an empty string. -/
def Store.getRange (store : Store) (now : Nat) (key : String) (first last : Nat) : List UInt8 :=
  (((store.get now key).getD []).drop first).take (last + 1 - first)

/-- `SET` with `PX`; a time of zero is an error that writes nothing. -/
def Store.setPx (store : Store) (now : Nat) (key : String) (bytes : List UInt8) (px : Nat) : Store :=
  if px = 0 then store else Function.update store key (some { bytes := bytes, expiresAt := some (now + px) })

/-- The time to live of a route that is cached. -/
def ttl (config : RedisConfig) (route : Option Route) : Option Nat :=
  (route.map fun route => (config.routeTtlMs.lookup route).getD config.ttlMs).filter fun ttl => decide (0 < ttl)

def redisKey (config : RedisConfig) (key : String) : String := config.nameSpace ++ ":" ++ key

/-- Keys per pipelined read. -/
def anyChunk : Nat := 4

variable {V : Type} (json : Json V) (config : RedisConfig)

def read (store : Store) (now : Nat) (key : String) : List UInt8 :=
  store.getRange now (redisKey config key) 0 config.maxEntryBytes

def getWithState (store : Store) (now : Nat) (key : String) : Option (Cached V) :=
  decode json (read config store now key) (some config.maxEntryBytes) now

def get (store : Store) (now : Nat) (key : String) : Option V :=
  ((getWithState json config store now key).filter fun entry => !entry.stale).map Cached.value

/-- One pipeline a chunk, until one has an entry. -/
def getAnyWithState (store : Store) (now : Nat) : List String → Option (Cached V)
  | [] => none
  | key :: keys =>
    let values := ((key :: keys).take anyChunk).map (read config store now)
    match values.findSome? fun bytes => decode json bytes (some config.maxEntryBytes) now with
    | some cached => some cached
    | none => getAnyWithState store now ((key :: keys).drop anyChunk)
  termination_by keys => keys.length
  decreasing_by simp only [anyChunk, List.length_drop, List.length_cons]; omega

def fill (now ttl : Nat) (value : V) : Entry V := Entry.lasting config.staleWhileRevalidateMs now ttl value

def putWithTtl (store : Store) (now : Nat) (key : String) (value : V) (overrideTtl : Option Nat) : Store :=
  let ttl := overrideTtl.getD config.ttlMs
  match json.toVec (fill config now ttl value) with
  | none => store
  | some bytes =>
    if config.maxEntryBytes < bytes.length then store
    else store.setPx now (redisKey config key) bytes (saturatingAdd ttl config.staleWhileRevalidateMs)

def put (store : Store) (now : Nat) (key : String) (value : V) : Store :=
  putWithTtl json config store now key value none

def putRoute (store : Store) (now : Nat) (route : Option Route) (key : String) (value : V) : Store :=
  match ttl config route with
  | none => store
  | some ttl => putWithTtl json config store now key value (some ttl)

variable {json config} {store : Store} {now later px : Nat} {key : String} {value : V} {bytes : List UInt8}

theorem getRange_eq : store.getRange now key 0 px = ((store.get now key).getD []).take (px + 1) := by
  rw [Store.getRange, List.drop_zero, Nat.sub_zero]

/-- The bounded read of a longer value is longer than the bound. -/
theorem getWithState_oversized {found : List UInt8} (held : store.get now (redisKey config key) = some found)
    (oversized : config.maxEntryBytes < found.length) : getWithState json config store now key = none := by
  have long : config.maxEntryBytes < (found.take (config.maxEntryBytes + 1)).length := by
    rw [List.length_take]
    omega
  rw [getWithState, read, getRange_eq, held, Option.getD_some, decode, Option.any_some, if_pos (decide_eq_true long)]

theorem getAny_eq (keys : List String) : getAnyWithState json config store now keys =
    keys.findSome? (getWithState json config store now) := by
  induction len : keys.length using Nat.strongRecOn generalizing keys with
  | ind length ih =>
    cases keys with
    | nil => rw [getAnyWithState, List.findSome?_nil]
    | cons key keys =>
      have shorter : ((key :: keys).drop anyChunk).length < length := by
        rw [← len, List.length_drop, List.length_cons]
        simp only [anyChunk]
        omega
      have rest := ih _ shorter ((key :: keys).drop anyChunk) rfl
      have whole : (key :: keys).findSome? (getWithState json config store now) =
          (((key :: keys).take anyChunk).findSome? (getWithState json config store now)).or
            (((key :: keys).drop anyChunk).findSome? (getWithState json config store now)) := by
        rw [← List.findSome?_append, List.take_append_drop]
      have chunk : ((((key :: keys).take anyChunk).map (read config store now)).findSome? fun bytes =>
          decode json bytes (some config.maxEntryBytes) now) =
          ((key :: keys).take anyChunk).findSome? (getWithState json config store now) := List.findSome?_map
      rw [getAnyWithState, chunk, whole, rest]
      cases ((key :: keys).take anyChunk).findSome? (getWithState json config store now) with
      | some cached => rfl
      | none => rfl

theorem get_setPx (positive : 0 < px) : (store.setPx now key bytes px).get later key =
    if later < now + px then some bytes else none := by
  rw [Store.setPx, if_neg (Nat.pos_iff_ne_zero.mp positive), Store.get, Function.update_self, Option.filter_some]
  simp only [Option.all_some, decide_eq_true_eq]
  split_ifs
  · rfl
  · rfl

/-- Redis keeps the string at least as long as the entry is retained. -/
theorem retain_le (ttl : Nat) (value : V) :
    (fill config now ttl value).retainMs ≤ now + saturatingAdd ttl config.staleWhileRevalidateMs := by
  simp only [fill, Entry.lasting, saturatingAdd]
  omega

theorem expires_le_retain (ttl : Nat) (value : V) :
    (fill config now ttl value).expiresMs ≤ (fill config now ttl value).retainMs := by
  have bound : saturatingAdd now ttl ≤ u64Max := Nat.min_le_right _ _
  simp only [fill, Entry.lasting]
  exact Nat.le_min.mpr ⟨Nat.le_add_right _ _, bound⟩

section Written
variable {overrideTtl : Option Nat} (positive : 0 < overrideTtl.getD config.ttlMs)
  (written : json.toVec (fill config now (overrideTtl.getD config.ttlMs) value) = some bytes)
  (fits : bytes.length ≤ config.maxEntryBytes)
include positive written fits

/-- What a bounded read of the written key gets: all of it, until Redis drops it. -/
theorem read_put : read config (putWithTtl json config store now key value overrideTtl) later key =
    if later < now + saturatingAdd (overrideTtl.getD config.ttlMs) config.staleWhileRevalidateMs then bytes
    else [] := by
  have kept : 0 < saturatingAdd (overrideTtl.getD config.ttlMs) config.staleWhileRevalidateMs :=
    Nat.lt_min.mpr ⟨Nat.add_pos_left positive _, by decide⟩
  rw [read, getRange_eq]
  simp only [putWithTtl, written, if_neg (Nat.not_lt_of_le fits)]
  rw [get_setPx kept]
  split_ifs
  · exact List.take_of_length_le (Nat.le_succ_of_le fits)
  · exact List.take_nil

theorem getWithState_put (reads : json.fromSlice bytes = some (fill config now (overrideTtl.getD config.ttlMs) value))
    (retained : later < (fill config now (overrideTtl.getD config.ttlMs) value).retainMs) :
    getWithState json config (putWithTtl json config store now key value overrideTtl) later key =
      some
        { value := value
          stale := decide ((fill config now (overrideTtl.getD config.ttlMs) value).expiresMs ≤ later) } := by
  have alive := Nat.lt_of_lt_of_le retained (retain_le (overrideTtl.getD config.ttlMs) value)
  have short : ¬ decide (config.maxEntryBytes < bytes.length) = true := by simpa using fits
  have inside := Nat.lt_of_lt_of_le retained (Nat.le_max_left _
    (fill config now (overrideTtl.getD config.ttlMs) value).expiresMs)
  rw [getWithState, read_put positive written fits, if_pos alive, decode, Option.any_some, if_neg short, reads,
    Option.bind_some, if_pos inside]
  rfl

/-- Past its retention the entry is gone, as `serde_json` reads nothing from an empty string. -/
theorem getWithState_past (reads : json.fromSlice bytes = some (fill config now (overrideTtl.getD config.ttlMs) value))
    (empty : json.fromSlice [] = none)
    (past : (fill config now (overrideTtl.getD config.ttlMs) value).retainMs ≤ later) :
    getWithState json config (putWithTtl json config store now key value overrideTtl) later key = none := by
  have short : ¬ decide (config.maxEntryBytes < bytes.length) = true := by simpa using fits
  have none_left : ¬ decide (config.maxEntryBytes < ([] : List UInt8).length) = true := by simp
  have ended := Nat.max_le.mpr ⟨past, Nat.le_trans (expires_le_retain (overrideTtl.getD config.ttlMs) value) past⟩
  rw [getWithState, read_put positive written fits]
  split_ifs
  · rw [decode, Option.any_some, if_neg short, reads, Option.bind_some, if_neg (Nat.not_lt_of_le ended)]
  · rw [decode, Option.any_some, if_neg none_left, empty, Option.bind_none]

end Written

/-- `put` and `put_route` write with a positive time to live. -/
theorem writers_positive (valid : config.valid = true) : 0 < (none : Option Nat).getD config.ttlMs ∧
    ∀ route limit, ttl config route = some limit → 0 < (some limit).getD config.ttlMs := by
  simp only [RedisConfig.valid, Bool.and_eq_true, decide_eq_true_eq] at valid
  refine ⟨valid.1.1.2.1, fun route limit cached => ?_⟩
  obtain ⟨-, positive⟩ := Option.filter_eq_some_iff.mp cached
  exact of_decide_eq_true positive

/-- The pipelined read agrees with the single reads; what a put wrote within the bound is read back
exactly until its retention ends and not after; and a longer string is never returned. The hypothesis
on `fromSlice` says that `serde_json` reads back the text it wrote for this entry. It does so for every
value nested less than 128 deep, its limit in reading, and without floats; the messages that are cached
are not recursive and have no float, so it holds of all of them. -/
theorem redis_reads_agree (json : Json V) (config : RedisConfig) :
    (∀ store now keys, getAnyWithState json config store now keys =
      keys.findSome? (getWithState json config store now)) ∧
    (∀ store now key value overrideTtl bytes, 0 < overrideTtl.getD config.ttlMs →
      json.toVec (fill config now (overrideTtl.getD config.ttlMs) value) = some bytes →
      bytes.length ≤ config.maxEntryBytes →
      json.fromSlice bytes = some (fill config now (overrideTtl.getD config.ttlMs) value) →
      (∀ later, later < (fill config now (overrideTtl.getD config.ttlMs) value).retainMs →
        getWithState json config (putWithTtl json config store now key value overrideTtl) later key =
          some
            { value := value
              stale := decide ((fill config now (overrideTtl.getD config.ttlMs) value).expiresMs ≤ later) }) ∧
      (json.fromSlice [] = none →
        ∀ later, (fill config now (overrideTtl.getD config.ttlMs) value).retainMs ≤ later →
          getWithState json config (putWithTtl json config store now key value overrideTtl) later key = none)) ∧
    ∀ (store : Store) now key found, store.get now (redisKey config key) = some found →
      config.maxEntryBytes < found.length → getWithState json config store now key = none := by
  refine ⟨fun store now keys => getAny_eq keys, ?_, ?_⟩
  · intro store now key value overrideTtl bytes positive written fits reads
    exact ⟨fun later retained => getWithState_put positive written fits reads retained,
      fun empty later past => getWithState_past positive written fits reads empty past⟩
  · intro store now key found held oversized
    exact getWithState_oversized held oversized

def sampleRedis : RedisConfig :=
  { urlEnv := "SIRIUS_REDIS", nameSpace := "sirius", ttlMs := 1000, maxEntryBytes := 46, operationTimeoutMs := 500 }

/-- An entry of exactly the bound, behind four keys that no one has written. -/
theorem redis_reads_agree_bound :
    getAnyWithState sampleJson sampleRedis (putWithTtl sampleJson sampleRedis (fun _ => none) 1000 "key" 1 none) 1999
      ["one", "two", "three", "four", "key"] = some { value := 1, stale := false } := by
  obtain ⟨any, written, -⟩ := redis_reads_agree sampleJson sampleRedis
  have put := (written (fun _ => none) 1000 "key" 1 none _ (by decide) rfl (by decide) (by decide)).1 1999 (by decide)
  rw [any]
  have others : ∀ key ∈ ["one", "two", "three", "four"],
      getWithState sampleJson sampleRedis (putWithTtl sampleJson sampleRedis (fun _ => none) 1000 "key" 1 none) 1999
        key = none := by decide +kernel
  rw [show ["one", "two", "three", "four", "key"] = ["one", "two", "three", "four"] ++ ["key"] from rfl,
    List.findSome?_append, List.findSome?_eq_none_iff.mpr others, List.findSome?_singleton]
  exact put

end SiriusProxy.ResponseCache.Redis
