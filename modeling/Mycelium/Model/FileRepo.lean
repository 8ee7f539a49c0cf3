import Mycelium.Lib.Dict
import Mycelium.Model.Sealing

/-!
# The encrypted file repository

A file is stored under an opaque name, the keyed hash of its path, as one envelope. Its plain
text is the length of an inner envelope, the inner envelope, which holds the path, and the
content. The key of the outer envelope is derived from the name, both envelopes are bound to
the name by their associated data, and the keys of a repository come from the key of the
scope it is used with: a user's master key, or the service key that the shelves share.

A repository is a directory, told apart by its path. A write is one step, since the temporary
file it renames is never read. `place` and `remove` are what someone else does to the stored
files. The functions of the crates are parameters; `Primitives.Ideal` is what an ideal AEAD
and a collision-free hash and key derivation promise of them.

SOURCE: crates/mycelium-store/src/file_repo.rs, crates/mycelium-crypto/src/store_keys.rs
-/

set_option autoImplicit false

namespace Mycelium.Model.FileRepo

open Mycelium.Model.Sealing (Bytes)
open Mycelium.Model.Text

variable {κ : Type}

/-! ## Keys -/

/-- The functions the code takes from its crates, over a type of keys. Sealing gets its
nonce. -/
structure Primitives (κ : Type) where
  hkdf : κ → String → κ
  hmacHex : κ → String → String
  aeadSeal : Bytes → Bytes → String → κ → Bytes
  aeadOpen : Bytes → String → κ → Option Bytes
  metaJson : String → Bytes
  metaPath : Bytes → Except String String

/-- An envelope opens to what was sealed, under the key and the associated data it was
sealed with and no others; distinct inputs have distinct hashes and derived keys; the path
metadata reads back. -/
structure Primitives.Ideal (P : Primitives κ) : Prop where
  open_seal : ∀ nonce plain aad key, P.aeadOpen (P.aeadSeal nonce plain aad key) aad key = some plain
  open_only : ∀ nonce plain aad key aad' key' plain',
    P.aeadOpen (P.aeadSeal nonce plain aad key) aad' key' = some plain' → aad' = aad ∧ key' = key
  hkdf : ∀ key info key' info', P.hkdf key info = P.hkdf key' info' → key = key' ∧ info = info'
  hmac : ∀ key text key' text', P.hmacHex key text = P.hmacHex key' text' → key = key' ∧ text = text'
  json : ∀ path, P.metaPath (P.metaJson path) = .ok path

/-- SOURCE: file_repo.rs:43-49 -/
inductive Scope (κ : Type) where
  | user (master : κ)
  | service (key : κ)
  deriving DecidableEq, Repr

/-- The key a scope is. -/
def Scope.material : Scope κ → κ
  | .user master => master
  | .service key => key

structure FileKeys (κ : Type) where
  filenameKey : κ
  metaDek : κ

def filenameInfo : String := "mycelium2/filename/v1"

def metaDekInfo : String := "mycelium2/meta-dek/v1"

/-- The derivation is the same for both kinds of scope. SOURCE: store_keys.rs:32-46 -/
def Scope.fileKeys (P : Primitives κ) (scope : Scope κ) : FileKeys κ where
  filenameKey := P.hkdf scope.material filenameInfo
  metaDek := P.hkdf scope.material metaDekInfo

/-- SOURCE: store_keys.rs:50-55 -/
def FileKeys.storedName (P : Primitives κ) (keys : FileKeys κ) (canonicalPath : String) : String :=
  P.hmacHex keys.filenameKey canonicalPath

/-- SOURCE: file_repo.rs:214-225 -/
def dekForName (P : Primitives κ) (keys : FileKeys κ) (name : String) : κ :=
  P.hkdf keys.metaDek ("mycelium2/file-dek/v1" ++ name)

/-- The stored name of a path under the keys of a scope. -/
def nameOf (P : Primitives κ) (scope : Scope κ) (path : String) : String :=
  (scope.fileKeys P).storedName P path

/-! ## The envelope -/

/-- `usize::to_le_bytes`, of a given number of bytes. -/
def toLeBytes : ℕ → ℕ → Bytes
  | 0, _ => []
  | k + 1, n => UInt8.ofNat n :: toLeBytes k (n / 256)

/-- `usize::from_le_bytes`. -/
def fromLeBytes : Bytes → ℕ
  | [] => 0
  | b :: bytes => b.toNat + 256 * fromLeBytes bytes

@[simp] theorem length_toLeBytes (k n : ℕ) : (toLeBytes k n).length = k := by
  induction k generalizing n with
  | zero => rfl
  | succ k ih => simp [toLeBytes, ih]

theorem fromLeBytes_toLeBytes (k n : ℕ) (h : n < 256 ^ k) : fromLeBytes (toLeBytes k n) = n := by
  induction k generalizing n with
  | zero =>
    simp only [pow_zero] at h
    simp only [toLeBytes, fromLeBytes]
    omega
  | succ k ih =>
    have hdiv : n / 256 < 256 ^ k := by
      rw [pow_succ] at h
      omega
    have hbyte : (UInt8.ofNat n).toNat = n % 256 := by simp
    simp only [toLeBytes, fromLeBytes, ih _ hdiv, hbyte]
    omega

/-- The bound of `usize`, and the most bytes a vector can have. -/
def usizeBound : ℕ := 2 ^ 64

def isizeMax : ℕ := 2 ^ 63 - 1

def innerEnvelope (P : Primitives κ) (scope : Scope κ) (path : String) (nonce : Bytes) : Bytes :=
  P.aeadSeal nonce (P.metaJson path) (nameOf P scope path) (scope.fileKeys P).metaDek

/-- What the outer envelope seals. -/
def outerPlaintext (P : Primitives κ) (scope : Scope κ) (path : String) (content nonce : Bytes) :
    Bytes :=
  let inner := innerEnvelope P scope path nonce
  toLeBytes 8 inner.length ++ inner ++ content

/-- The stored bytes of a file; each envelope has its nonce. SOURCE: file_repo.rs:103-120 -/
def sealFile (P : Primitives κ) (scope : Scope κ) (path : String) (content nonce nonce' : Bytes) :
    Bytes :=
  let name := nameOf P scope path
  P.aeadSeal nonce' (outerPlaintext P scope path content nonce) name
    (dekForName P (scope.fileKeys P) name)

/-! ## Operations -/

/-- SOURCE: file_repo.rs:28-40 -/
inductive FileRepoError where
  | io
  | crypto
  | pathMismatch (name : String)
  | corrupt (name reason : String)
  | invalidPath (path : String)
  deriving DecidableEq, Repr

/-- SOURCE: file_repo.rs:75-82 -/
def validate (canonicalPath : String) : Except FileRepoError Unit :=
  if canonicalPath = "" ∨ startsWith canonicalPath "/" = false then
    .error (.invalidPath canonicalPath)
  else .ok ()

/-- A write that went through, a ghost. -/
structure Write (κ : Type) where
  dir : String
  scope : Scope κ
  path : String
  content : Bytes
  nonce : Bytes
  nonce' : Bytes
  deriving DecidableEq, Repr

def Write.name (P : Primitives κ) (w : Write κ) : String := nameOf P w.scope w.path

def Write.stored (P : Primitives κ) (w : Write κ) : Bytes :=
  sealFile P w.scope w.path w.content w.nonce w.nonce'

/-- The stored files by directory and name, and the writes so far. -/
structure State (κ : Type) where
  files : Dict (String × String) Bytes
  writes : List (Write κ)

def State.empty : State κ where
  files := ∅
  writes := []

/-- `ok` says whether the random source and the disk go through. SOURCE: file_repo.rs:85-127 -/
def State.write (P : Primitives κ) (s : State κ) (w : Write κ) (ok : Bool) :
    Except FileRepoError (State κ) := do
  validate w.path
  if ok then
    return { files := s.files.insert (w.dir, w.name P) (w.stored P), writes := w :: s.writes }
  else throw .io

/-- SOURCE: file_repo.rs:130-182 -/
def State.read (P : Primitives κ) (s : State κ) (dir path : String) (scope : Scope κ) :
    Except FileRepoError Bytes := do
  validate path
  let keys := scope.fileKeys P
  let name := keys.storedName P path
  match s.files.get? (dir, name) with
  | none => throw .io
  | some outer =>
    match P.aeadOpen outer name (dekForName P keys name) with
    | none => throw .crypto
    | some plain =>
      if plain.length < 8 then throw (.corrupt name "missing inner-length prefix")
      else
        let innerLen := fromLeBytes (plain.take 8)
        if usizeBound ≤ innerLen + 8 then throw (.corrupt name "inner length overflow")
        else if plain.length < innerLen + 8 then
          throw (.corrupt name "truncated inner envelope")
        else
          let inner := (plain.drop 8).take innerLen
          let content := plain.drop (innerLen + 8)
          match P.aeadOpen inner name keys.metaDek with
          | none => throw .crypto
          | some metaJson =>
            match P.metaPath metaJson with
            | .error reason => throw (.corrupt name reason)
            | .ok metaPath => if metaPath ≠ path then throw (.pathMismatch name) else return content

/-- A missing file is no error. SOURCE: file_repo.rs:185-195 -/
def State.delete (P : Primitives κ) (s : State κ) (dir path : String) (scope : Scope κ) (ok : Bool) :
    Except FileRepoError (State κ) := do
  validate path
  if ok then return { s with files := s.files.erase (dir, nameOf P scope path) }
  else throw .io

/-! ## Runs -/

inductive Action (κ : Type) where
  | write (w : Write κ) (ok : Bool)
  | delete (dir path : String) (scope : Scope κ) (ok : Bool)
  | place (dir name : String) (bytes : Bytes)
  | remove (dir name : String)

/-- The state after an operation: an error leaves it as it was. -/
def after (s : State κ) : Except FileRepoError (State κ) → State κ
  | .ok s' => s'
  | .error _ => s

/-- A write is possible when its bytes fit a vector. -/
def step (P : Primitives κ) (s : State κ) : Action κ → Option (State κ)
  | .write w ok =>
    if (outerPlaintext P w.scope w.path w.content w.nonce).length ≤ isizeMax then
      some (after s (s.write P w ok))
    else none
  | .delete dir path scope ok => some (after s (s.delete P dir path scope ok))
  | .place dir name bytes => some { s with files := s.files.insert (dir, name) bytes }
  | .remove dir name => some { s with files := s.files.erase (dir, name) }

/-! ## A transparent instance

Keys are texts, and an envelope shows its key, its associated data and its plain text. -/

/-- A text in bytes, four for a character and one for the end. -/
def encText : List Char → Bytes
  | [] => [0]
  | c :: cs =>
    1 :: UInt8.ofNat (c.toNat / 65536) :: UInt8.ofNat (c.toNat / 256) :: UInt8.ofNat c.toNat ::
      encText cs

/-- The text at the front and the bytes after it. -/
def decText : Bytes → Option (List Char × Bytes)
  | 0 :: rest => some ([], rest)
  | 1 :: a :: b :: c :: rest =>
    (decText rest).map fun r =>
      (Char.ofNat (a.toNat * 65536 + b.toNat * 256 + c.toNat) :: r.1, r.2)
  | _ => none

theorem decText_encText (cs : List Char) (rest : Bytes) :
    decText (encText cs ++ rest) = some (cs, rest) := by
  induction cs with
  | nil => rfl
  | cons c cs ih =>
    have hlt : c.toNat < 1114112 := by
      have hvalid := c.valid
      have heq : c.toNat = c.val.toNat := rfl
      simp only [UInt32.isValidChar, Nat.isValidChar] at hvalid
      omega
    have hchar : Char.ofNat ((UInt8.ofNat (c.toNat / 65536)).toNat * 65536 +
        (UInt8.ofNat (c.toNat / 256)).toNat * 256 + (UInt8.ofNat c.toNat).toNat) = c := by
      have hsum : (UInt8.ofNat (c.toNat / 65536)).toNat * 65536 +
          (UInt8.ofNat (c.toNat / 256)).toNat * 256 + (UInt8.ofNat c.toNat).toNat = c.toNat := by
        simp only [UInt8.toNat_ofNat']
        omega
      rw [hsum]
      exact Char.ofNat_toNat c
    simp only [encText, List.cons_append, decText, ih, Option.map_some, hchar]

/-- The first argument behind its length, then the second. -/
def plainPair (a b : String) : String := String.ofList (Sealing.framed a ++ b.toList)

theorem plainPair_injective {a b a' b' : String} (h : plainPair a b = plainPair a' b') :
    a = a' ∧ b = b' := by
  have hlist : Sealing.framed a ++ b.toList = Sealing.framed a' ++ b'.toList := by
    simpa only [plainPair, String.toList_ofList] using congrArg String.toList h
  have hframes := congrArg Sealing.unframed hlist
  rw [Sealing.unframed_framed, Sealing.unframed_framed, Prod.mk.injEq] at hframes
  exact ⟨hframes.1, String.toList_inj.mp hframes.2⟩

def plainPrimitives : Primitives String where
  hkdf := plainPair
  hmacHex := plainPair
  aeadSeal _ plain aad key := encText key.toList ++ (encText aad.toList ++ plain)
  aeadOpen bytes aad key :=
    match decText bytes with
    | none => none
    | some (key', rest) =>
      match decText rest with
      | none => none
      | some (aad', plain) => if key' = key.toList ∧ aad' = aad.toList then some plain else none
  metaJson path := encText path.toList
  metaPath bytes :=
    match decText bytes with
    | some (path, []) => .ok (String.ofList path)
    | _ => .error "expected value"

theorem plainPrimitives_ideal : plainPrimitives.Ideal := by
  refine ⟨?_, ?_, ?_, ?_, ?_⟩
  · intro nonce plain aad key
    simp [plainPrimitives, decText_encText]
  · intro nonce plain aad key aad' key' plain' hopen
    simp only [plainPrimitives, decText_encText, Option.ite_none_right_eq_some,
      String.toList_inj] at hopen
    exact ⟨hopen.1.2.symm, hopen.1.1.symm⟩
  · intro key info key' info' h
    exact plainPair_injective h
  · intro key text key' text' h
    exact plainPair_injective h
  · intro path
    have hdec := decText_encText path.toList []
    rw [List.append_nil] at hdec
    simp [plainPrimitives, hdec]

end Mycelium.Model.FileRepo
