import Mathlib.Data.List.Basic

namespace SiriusProxy.ClientAuth

/-- SHA-256, of which only the length of a digest is used. -/
structure Sha256 where
  digest : List UInt8 → List UInt8
  length_digest : ∀ message, (digest message).length = 32

/-- `URL_SAFE_NO_PAD` of `base64`. It has no padding and takes no text whose unused bits are set, so a text that it
reads is the one that it writes for these bytes; and a dot is not in its alphabet. -/
structure Codec where
  encode : List UInt8 → List UInt8
  decode : List UInt8 → Option (List UInt8)
  decode_encode : ∀ bytes, decode (encode bytes) = some bytes
  encode_decode : ∀ text bytes, decode text = some bytes → encode bytes = text
  no_dot : ∀ bytes, 46 ∉ encode bytes

structure Header where
  alg : String
  typ : Option String
  deriving DecidableEq, Repr

structure Payload where
  uid : String
  credential : String
  exp : Option Nat
  deriving DecidableEq, Repr

/-- `serde_json::from_slice` of the two parts of a token. -/
structure Json where
  header : List UInt8 → Option Header
  payload : List UInt8 → Option Payload

structure Claims where
  uid : String
  credential : String
  deriving DecidableEq, Repr

section Mac
variable (sha : Sha256)

def block (key : List UInt8) : List UInt8 :=
  if 64 < key.length then sha.digest key ++ List.replicate 32 0 else key ++ List.replicate (64 - key.length) 0

def pad (key : List UInt8) (byte : UInt8) : List UInt8 := (block sha key).map (· ^^^ byte)

def hmacSha256 (key message : List UInt8) : List UInt8 :=
  sha.digest (pad sha key 92 ++ sha.digest (pad sha key 54 ++ message))

end Mac

def constantTimeEq (a b : List UInt8) : Bool :=
  decide (a.length = b.length) && (a.zip b).foldl (fun acc pair => acc ||| (pair.1 ^^^ pair.2)) 0 == 0

def Header.accepted (h : Header) : Bool := h.alg == "HS256" && !h.typ.any (· != "JWT")

/-- The checks on a payload, where an `exp` must be in the future. -/
def Payload.accepted (p : Payload) (now : Nat) : Bool :=
  !(p.uid == "" || decide (256 < p.uid.utf8ByteSize) || p.credential == "" || decide (4096 < p.credential.utf8ByteSize) ||
    p.exp.any fun exp => decide (exp ≤ now))

def Payload.claims (p : Payload) : Claims where
  uid := p.uid
  credential := p.credential

def verify (codec : Codec) (sha : Sha256) (json : Json) (token key : List UInt8) (now : Nat) : Option Claims :=
  if 8192 < token.length then none
  else match token.splitOn 46 with
    | [header, payload, signature] =>
      match codec.decode signature with
      | none => none
      | some signed =>
        if !constantTimeEq signed (hmacSha256 sha key (header ++ 46 :: payload)) then none
        else match (codec.decode header).bind json.header with
          | none => none
          | some h =>
            if !h.accepted then none
            else match (codec.decode payload).bind json.payload with
              | none => none
              | some p => if !p.accepted now then none else some p.claims
    | _ => none

/-- The token of an issuer that holds the key. -/
def sign (codec : Codec) (sha : Sha256) (key header payload : List UInt8) : List UInt8 :=
  let message := codec.encode header ++ 46 :: codec.encode payload
  message ++ 46 :: codec.encode (hmacSha256 sha key message)

theorem foldl_or (pairs : List (UInt8 × UInt8)) (acc : UInt8) :
    pairs.foldl (fun acc pair => acc ||| (pair.1 ^^^ pair.2)) acc = 0 ↔ acc = 0 ∧ ∀ pair ∈ pairs, pair.1 = pair.2 := by
  induction pairs generalizing acc with
  | nil => simp
  | cons pair rest ih =>
    rw [List.foldl_cons, ih, UInt8.or_eq_zero_iff, UInt8.xor_eq_zero_iff, List.forall_mem_cons, and_assoc]

theorem zip_same {a b : List UInt8} (length : a.length = b.length) : (∀ pair ∈ a.zip b, pair.1 = pair.2) ↔ a = b := by
  induction a generalizing b with
  | nil =>
    cases b with
    | nil => simp
    | cons y b => cases length
  | cons x a ih =>
    cases b with
    | nil => cases length
    | cons y b => rw [List.zip_cons_cons, List.forall_mem_cons, ih (Nat.succ.inj length), List.cons.injEq]

theorem constantTimeEq_iff {a b : List UInt8} : constantTimeEq a b = true ↔ a = b := by
  rw [constantTimeEq, Bool.and_eq_true, decide_eq_true_iff, beq_iff_eq, foldl_or]
  constructor
  · rintro ⟨length, -, same⟩
    exact (zip_same length).mp same
  · rintro rfl
    exact ⟨rfl, rfl, (zip_same rfl).mpr rfl⟩

/-- A text of three parts, none of them with a dot in it. -/
theorem splitOn_three {a b c : List UInt8} (ha : 46 ∉ a) (hb : 46 ∉ b) (hc : 46 ∉ c) :
    (a ++ 46 :: (b ++ 46 :: c)).splitOn 46 = [a, b, c] := by
  rw [List.splitOn_append_cons_self_of_not_mem ha, List.splitOn_append_cons_self_of_not_mem hb]
  congr 2
  have whole : List.splitOn 46 (List.intercalate [46] [c]) = [c] :=
    List.splitOn_intercalate (46 : UInt8) (by simpa using hc) (by simp)
  simpa using whole

theorem eq_of_splitOn {token a b c : List UInt8} (parts : token.splitOn 46 = [a, b, c]) :
    token = a ++ 46 :: (b ++ 46 :: c) := by
  have whole : List.intercalate [46] (token.splitOn 46) = token := List.intercalate_splitOn (46 : UInt8)
  rw [parts] at whole
  simpa [List.intercalate, List.intersperse] using whole.symm

variable {codec : Codec} {sha : Sha256} {json : Json} {token key : List UInt8} {now : Nat} {claims : Claims}

theorem sign_parts (header payload : List UInt8) : sign codec sha key header payload =
    codec.encode header ++ 46 :: (codec.encode payload ++
      46 :: codec.encode (hmacSha256 sha key (codec.encode header ++ 46 :: codec.encode payload))) := by
  rw [sign, List.append_assoc, List.cons_append]

theorem splitOn_sign (header payload : List UInt8) : (sign codec sha key header payload).splitOn 46 =
    [codec.encode header, codec.encode payload,
      codec.encode (hmacSha256 sha key (codec.encode header ++ 46 :: codec.encode payload))] := by
  rw [sign_parts, splitOn_three (codec.no_dot _) (codec.no_dot _) (codec.no_dot _)]

/-- An issuer's tokens for different headers or payloads are different texts. -/
theorem sign_injective {header header' payload payload' : List UInt8}
    (same : sign codec sha key header payload = sign codec sha key header' payload') : header = header' ∧ payload = payload' := by
  have parts := congrArg (List.splitOn 46) same
  rw [splitOn_sign, splitOn_sign, List.cons.injEq, List.cons.injEq] at parts
  have first := congrArg codec.decode parts.1
  have second := congrArg codec.decode parts.2.1
  rw [codec.decode_encode, codec.decode_encode] at first second
  exact ⟨Option.some.inj first, Option.some.inj second⟩

/-- What is accepted is the token of an issuer with the key, and no other text stands for its header and payload. -/
theorem verify_iff : verify codec sha json token key now = some claims ↔
    token.length ≤ 8192 ∧ ∃ header payload h p, token = sign codec sha key header payload ∧
      (∀ header' payload', token = sign codec sha key header' payload' → header' = header ∧ payload' = payload) ∧
      json.header header = some h ∧ json.payload payload = some p ∧ h.accepted = true ∧ p.accepted now = true ∧
        claims = p.claims := by
  constructor
  · intro accepted
    rw [verify] at accepted
    split at accepted
    · cases accepted
    rename_i short
    split at accepted
    · rename_i first second third parts
      split at accepted
      · cases accepted
      rename_i signed read
      split at accepted
      · cases accepted
      rename_i mac
      split at accepted
      · cases accepted
      rename_i h headed
      split at accepted
      · cases accepted
      rename_i ah
      split at accepted
      · cases accepted
      rename_i p loaded
      split at accepted
      · cases accepted
      rename_i ap
      obtain ⟨header, readHeader, parsedHeader⟩ := Option.bind_eq_some_iff.mp headed
      obtain ⟨payload, readPayload, parsedPayload⟩ := Option.bind_eq_some_iff.mp loaded
      have same := constantTimeEq_iff.mp (by simpa using mac)
      have signed : token = sign codec sha key header payload := by
        rw [eq_of_splitOn parts, sign_parts, codec.encode_decode _ _ readHeader, codec.encode_decode _ _ readPayload, ← same,
          codec.encode_decode _ _ read]
      exact ⟨by omega, header, payload, h, p, signed, fun _ _ other => sign_injective (other.symm.trans signed),
        parsedHeader, parsedPayload, by simpa using ah, by simpa using ap, (Option.some.inj accepted).symm⟩
    · cases accepted
  · rintro ⟨short, header, payload, h, p, rfl, -, parsedHeader, parsedPayload, ah, ap, rfl⟩
    have mac : constantTimeEq (hmacSha256 sha key (codec.encode header ++ 46 :: codec.encode payload))
        (hmacSha256 sha key (codec.encode header ++ 46 :: codec.encode payload)) = true := constantTimeEq_iff.mpr rfl
    rw [verify, if_neg (by omega), splitOn_sign]
    simp only [codec.decode_encode, Option.bind_some, mac, parsedHeader, parsedPayload, ah, ap, Bool.not_true,
      Bool.false_eq_true, if_false]

end SiriusProxy.ClientAuth
