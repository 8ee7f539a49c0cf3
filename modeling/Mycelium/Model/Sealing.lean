import Mycelium.Model.Text

/-!
# Sealed master keys

The record that holds an account's master key twice, under a key derived from the password
and under the recovery key. Randomness is an argument. `Primitives` are the functions of
the cryptographic, hexadecimal and JSON crates the code calls; `Primitives.Ideal` is what
an ideal AEAD, KDF and password hash promise of them.

SOURCE: crates/mycelium-crypto/src/seal.rs, crates/mycelium-crypto/src/keys.rs,
crates/mycelium-auth/src/password.rs
-/

set_option autoImplicit false

namespace Mycelium.Model.Sealing

open Mycelium.Model.Text

abbrev Bytes := List UInt8

/-- Key material of 32 bytes: a password key, a master key, a recovery key. -/
structure Key where
  bytes : Bytes
  length_eq : bytes.length = 32

inductive KeyError where
  | argon2
  | invalidLength (expected got : ℕ)
  | invalidRecoveryKey
  deriving DecidableEq, Repr

inductive SealError where
  | unsealFailed
  | unsupportedVersion (version : ℕ)
  | hex
  deriving DecidableEq, Repr

inductive CryptoError where
  | key (e : KeyError)
  | seal (e : SealError)
  | decrypt
  deriving DecidableEq, Repr

/-- SOURCE: seal.rs:31-41 -/
structure SealedMasterKey where
  version : ℕ
  saltHex : String
  passwordSealedHex : String
  recoverySealedHex : String
  deriving DecidableEq, Repr

/-- The functions the code takes from its crates. Sealing gets its nonce, hashing its
salt. -/
structure Primitives where
  argon2 : String → Bytes → Option Key
  aeadSeal : Bytes → Bytes → String → Key → Bytes
  aeadOpen : Bytes → String → Key → Option Bytes
  hexEncode : Bytes → String
  hexDecode : String → Option Bytes
  toJson : SealedMasterKey → String
  fromJson : String → Option SealedMasterKey
  hashPassword : Bytes → String → Option String
  verifyPassword : String → String → Option Bool

/-- Opening undoes sealing and takes the key that sealed, the encodings read back what
they wrote, and a password verifies against a hash exactly when the hash is of that
password. -/
structure Primitives.Ideal (P : Primitives) : Prop where
  open_seal : ∀ nonce plain aad key, P.aeadOpen (P.aeadSeal nonce plain aad key) aad key = some plain
  open_only : ∀ nonce plain aad key key' plain',
    P.aeadOpen (P.aeadSeal nonce plain aad key) aad key' = some plain' → key' = key
  hex : ∀ bytes, P.hexDecode (P.hexEncode bytes) = some bytes
  json : ∀ sealed, P.fromJson (P.toJson sealed) = some sealed
  verify : ∀ salt password hash password', P.hashPassword salt password = some hash →
    P.verifyPassword password' hash = some (decide (password' = password))

def sealedVersion : ℕ := 1

def saltLen : ℕ := 16

def passwordSealAad : String := "mycelium2/seal/password/v1"

def recoverySealAad : String := "mycelium2/seal/recovery/v1"

def Key.fromBytes (bytes : Bytes) : Except CryptoError Key :=
  if h : bytes.length = 32 then .ok ⟨bytes, h⟩
  else .error (.key (.invalidLength 32 bytes.length))

/-- SOURCE: keys.rs:114-130 -/
def deriveKek (P : Primitives) (password : String) (salt : Bytes) : Except CryptoError Key :=
  if salt.length ≠ saltLen then .error (.key (.invalidLength saltLen salt.length))
  else
    match P.argon2 password salt with
    | some kek => .ok kek
    | none => .error (.key .argon2)

/-- SOURCE: keys.rs:186-191 -/
def generateRecoveryKey (P : Primitives) (random : Key) : String :=
  "myc2-recovery-" ++ P.hexEncode random.bytes

/-- SOURCE: keys.rs:194-206 -/
def parseRecoveryKey (P : Primitives) (key : String) : Except CryptoError Key :=
  match stripPrefix key "myc2-recovery-" with
  | none => .error (.key .invalidRecoveryKey)
  | some hexPart =>
    match P.hexDecode (String.ofList hexPart) with
    | none => .error (.key .invalidRecoveryKey)
    | some bytes =>
      if h : bytes.length = 32 then .ok ⟨bytes, h⟩ else .error (.key .invalidRecoveryKey)

/-- INTERNAL: a computation of two parts returns when the first does and the second does on
what it returned. -/
theorem bind_eq_ok {ε α β : Type} {x : Except ε α} {f : α → Except ε β} {b : β} :
    (x >>= f) = .ok b ↔ ∃ a, x = .ok a ∧ f a = .ok b := by
  cases x with
  | error e =>
    constructor
    · intro h
      cases h
    · rintro ⟨a, h, -⟩
      cases h
  | ok a =>
    constructor
    · intro h
      exact ⟨a, rfl, h⟩
    · rintro ⟨a', h, hf⟩
      cases h
      exact hf

def checkVersion (sealed : SealedMasterKey) : Except CryptoError Unit :=
  if sealed.version ≠ sealedVersion then .error (.seal (.unsupportedVersion sealed.version))
  else .ok ()

/-- The bytes of a field, opened and read as a master key. -/
def openField (P : Primitives) (field aad : String) (key : Key) : Except CryptoError Key :=
  match P.hexDecode field with
  | none => .error (.seal .hex)
  | some bytes =>
    match P.aeadOpen bytes aad key with
    | none => .error .decrypt
    | some master => Key.fromBytes master

/-- SOURCE: seal.rs:57-87 -/
def sealMasterKey (P : Primitives) (masterKey : Key) (password recoveryKey : String)
    (salt nonce nonce' : Bytes) : Except CryptoError SealedMasterKey := do
  let recovery ← parseRecoveryKey P recoveryKey
  let kek ← deriveKek P password salt
  return { version := sealedVersion
           saltHex := P.hexEncode salt
           passwordSealedHex := P.hexEncode (P.aeadSeal nonce masterKey.bytes passwordSealAad kek)
           recoverySealedHex :=
             P.hexEncode (P.aeadSeal nonce' masterKey.bytes recoverySealAad recovery) }

/-- SOURCE: seal.rs:89-110 -/
def unsealWithPassword (P : Primitives) (sealed : SealedMasterKey) (password : String) :
    Except CryptoError Key := do
  checkVersion sealed
  match P.hexDecode sealed.saltHex with
  | none => .error (.seal .hex)
  | some salt =>
    if salt.length ≠ saltLen then .error (.seal .unsealFailed)
    else
      let kek ← deriveKek P password salt
      openField P sealed.passwordSealedHex passwordSealAad kek

/-- SOURCE: seal.rs:112-126 -/
def unsealWithRecovery (P : Primitives) (sealed : SealedMasterKey) (recoveryKey : String) :
    Except CryptoError Key := do
  checkVersion sealed
  let recovery ← parseRecoveryKey P recoveryKey
  openField P sealed.recoverySealedHex recoverySealAad recovery

/-- The recovery seal is carried over. SOURCE: seal.rs:128-149 -/
def changePassword (P : Primitives) (sealed : SealedMasterKey) (oldPassword newPassword : String)
    (salt nonce : Bytes) : Except CryptoError SealedMasterKey := do
  let master ← unsealWithPassword P sealed oldPassword
  let kek ← deriveKek P newPassword salt
  return { version := sealedVersion
           saltHex := P.hexEncode salt
           passwordSealedHex := P.hexEncode (P.aeadSeal nonce master.bytes passwordSealAad kek)
           recoverySealedHex := sealed.recoverySealedHex }

/-- The password seal is carried over. SOURCE: seal.rs:151-171 -/
def rotateRecoveryKey (P : Primitives) (sealed : SealedMasterKey)
    (password newRecoveryKey : String) (nonce : Bytes) : Except CryptoError SealedMasterKey := do
  let recovery ← parseRecoveryKey P newRecoveryKey
  let master ← unsealWithPassword P sealed password
  return { version := sealedVersion
           saltHex := sealed.saltHex
           passwordSealedHex := sealed.passwordSealedHex
           recoverySealedHex :=
             P.hexEncode (P.aeadSeal nonce master.bytes recoverySealAad recovery) }

/-! ## A transparent instance

Keys, seals and hashes that show what they hold, to run the model with. -/

def hexDigit (n : ℕ) : Char := if n < 10 then Char.ofNat (48 + n) else Char.ofNat (87 + n)

def hexValue (c : Char) : ℕ := if c.toNat < 58 then c.toNat - 48 else c.toNat - 87

def hexPairs : List Char → Option Bytes
  | [] => some []
  | [_] => none
  | hi :: lo :: rest =>
    (hexPairs rest).map fun bytes => UInt8.ofNat (16 * hexValue hi + hexValue lo) :: bytes

def hexText (bytes : Bytes) : List Char :=
  bytes.flatMap fun b => [hexDigit (b.toNat / 16), hexDigit (b.toNat % 16)]

def textBytes (s : String) : Bytes := s.toList.map fun c => UInt8.ofNat c.toNat

def padKey (bytes : Bytes) : Key where
  bytes := (bytes ++ List.replicate 32 0).take 32
  length_eq := by simp

/-- A text behind its length. -/
def framed (s : String) : List Char := List.replicate s.toList.length '1' ++ '0' :: s.toList

def unframed (l : List Char) : String × List Char :=
  let n := (l.takeWhile (· = '1')).length
  let rest := l.drop (n + 1)
  (String.ofList (rest.take n), rest.drop n)

/-- The key and the associated data stand before the plain text, the password behind the
name of the hash. -/
def plainPrimitives : Primitives where
  argon2 password salt := some (padKey (textBytes password ++ salt))
  aeadSeal _ plain aad key := key.bytes ++ textBytes aad ++ plain
  aeadOpen bytes aad key :=
    if (key.bytes ++ textBytes aad).isPrefixOf bytes then
      some (bytes.drop (key.bytes ++ textBytes aad).length)
    else none
  hexEncode bytes := String.ofList (hexText bytes)
  hexDecode s := hexPairs s.toList
  toJson r := String.ofList (List.replicate r.version '1' ++ '0' ::
    (framed r.saltHex ++ framed r.passwordSealedHex ++ framed r.recoverySealedHex))
  fromJson s :=
    let version := (s.toList.takeWhile (· = '1')).length
    let salt := unframed (s.toList.drop (version + 1))
    let password := unframed salt.2
    let recovery := unframed password.2
    some ⟨version, salt.1, password.1, recovery.1⟩
  hashPassword _ password := some (String.ofList ("$argon2id$".toList ++ password.toList))
  verifyPassword password stored :=
    (stripPrefix stored "$argon2id$").map fun rest => decide (password.toList = rest)

theorem hexValue_hexDigit {n : ℕ} (h : n < 16) : hexValue (hexDigit n) = n := by
  have hall : ∀ m, m < 16 → hexValue (hexDigit m) = m := by decide
  exact hall n h

theorem hexPairs_hexText (bytes : Bytes) : hexPairs (hexText bytes) = some bytes := by
  induction bytes with
  | nil => rfl
  | cons b bytes ih =>
    have hb : b.toNat < 256 := b.toNat_lt
    have hi : hexValue (hexDigit (b.toNat / 16)) = b.toNat / 16 := hexValue_hexDigit (by omega)
    have lo : hexValue (hexDigit (b.toNat % 16)) = b.toNat % 16 := hexValue_hexDigit (by omega)
    have hsum : 16 * (b.toNat / 16) + b.toNat % 16 = b.toNat := Nat.div_add_mod b.toNat 16
    have hstep : hexText (b :: bytes) =
        hexDigit (b.toNat / 16) :: hexDigit (b.toNat % 16) :: hexText bytes := rfl
    rw [hstep, hexPairs, ih, hi, lo, hsum]
    simp

theorem takeWhile_ones (n : ℕ) (rest : List Char) :
    (List.replicate n '1' ++ '0' :: rest).takeWhile (· = '1') = List.replicate n '1' := by
  rw [List.takeWhile_append_of_pos (by simp)]
  simp

theorem unframed_framed (s : String) (rest : List Char) :
    unframed (framed s ++ rest) = (s, rest) := by
  have hassoc : framed s ++ rest =
      List.replicate s.toList.length '1' ++ '0' :: (s.toList ++ rest) := by
    simp [framed]
  rw [unframed, hassoc, takeWhile_ones]
  simp [List.drop_append]

theorem plainPrimitives_ideal : plainPrimitives.Ideal := by
  refine ⟨?_, ?_, ?_, ?_, ?_⟩
  · intro nonce plain aad key
    simp [plainPrimitives]
  · rintro nonce plain aad ⟨bytes, hlen⟩ ⟨bytes', hlen'⟩ plain' hopen
    simp only [plainPrimitives, Option.ite_none_right_eq_some, List.isPrefixOf_iff_prefix] at hopen
    have hpre : bytes' <+: bytes ++ (textBytes aad ++ plain) := by
      rw [← List.append_assoc]
      exact (List.prefix_append bytes' _).trans hopen.1
    have heq : bytes' = bytes := by
      have htake := List.prefix_iff_eq_take.mp hpre
      rw [hlen', ← hlen, List.take_left] at htake
      exact htake
    subst heq
    rfl
  · intro bytes
    simp only [plainPrimitives, String.toList_ofList]
    exact hexPairs_hexText bytes
  · rintro ⟨version, salt, password, recovery⟩
    have hlast := unframed_framed recovery []
    rw [List.append_nil] at hlast
    simp only [plainPrimitives, String.toList_ofList, takeWhile_ones, List.length_replicate]
    simp [List.drop_append, unframed_framed, hlast]
  · intro salt password hash password' hhash
    simp only [plainPrimitives, Option.some.injEq] at hhash
    subst hhash
    simp [plainPrimitives, stripPrefix, startsWith, String.toList_inj, ← String.length_toList]

end Mycelium.Model.Sealing
