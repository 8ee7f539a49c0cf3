import Mycelium.Lib.Hex
import Mycelium.Lib.StepSystem
import Mycelium.Model.Text

/-!
# The service key file

Loading the server-wide key, with its creation on the first run. Any number of processes call
the loaders at once: a call is cut at its accesses to the file, and between two of them any
other call may go on, be killed, or fail at its storage. Once created the file is only appended
to, by the call that created it.

SOURCE: crates/mycelium-crypto/src/service.rs
-/

set_option autoImplicit false

namespace Mycelium.Model.ServiceKeyFile

open Mycelium.Model.Text

/-- 32 bytes. -/
structure ServiceKey where
  bytes : List UInt8
  length_bytes : bytes.length = 32
  deriving DecidableEq

inductive ServiceKeyError where
  | io
  | malformed
  | badEnv
  | absent
  deriving DecidableEq, Repr

/-- SOURCE: service.rs:151-154 -/
def parseKeyHex (text : List Char) : Option ServiceKey :=
  match Hex.decode text with
  | none => none
  | some bytes => if h : bytes.length = 32 then some ⟨bytes, h⟩ else none

/-- `config/service.key`: its text and its permission bits. -/
structure KeyFile where
  content : List Char
  mode : ℕ

/-- What a creator writes, in two `write_all` calls. SOURCE: service.rs:68-69 -/
def keyText (key : ServiceKey) : List Char := Hex.encode key.bytes ++ ['\n']

def creationMode : ℕ := 0o600

/-- No bit for the group or for others. SOURCE: service.rs:102-111 -/
def permitted (mode : ℕ) : Bool := mode &&& 0o077 = 0

/-- SOURCE: service.rs:88 -/
def readAttempts : ℕ := 50

/-- Where a call stands. -/
inductive Pc where
  | idle
  /-- Found no file and has made a key; `create_new` comes next. -/
  | creating (key : ServiceKey)
  /-- Has the file open; `left` is still to be written. -/
  | writing (key : ServiceKey) (left : List Char)
  /-- About to read the file, for the last time but `attempts`. -/
  | reading (attempts : ℕ)
  /-- Has read a key; the permissions come next. -/
  | checking (key : ServiceKey)
  /-- Took the key of the environment, without looking at the file. -/
  | overridden (result : Except ServiceKeyError ServiceKey)
  | returned (result : Except ServiceKeyError ServiceKey)
  | killed

/-- The call after a read that gave no key. SOURCE: service.rs:89-99 -/
def Pc.retry : ℕ → Pc
  | 0 => .returned (.error .malformed)
  | attempts + 1 => .reading attempts

/-- One access of a call, with what the environment decides in it. -/
inductive Access where
  /-- `load_or_create_service_key_with`; `minted` is the key a first run generates. -/
  | loadOrCreate (envHex : Option (List Char)) (minted : ServiceKey)
  /-- `load_service_key_with` -/
  | load (envHex : Option (List Char))
  | createNew
  /-- A `write` takes some of what is left. -/
  | write (taken : ℕ)
  | close
  | read
  /-- A read that fails, or finds bytes that are not UTF-8. -/
  | readError
  | stat
  /-- The storage fails: at creating the directory or the file, at a write or at the stat. -/
  | fail
  | kill

/-- One access by one call: the file and the call after it.
SOURCE: service.rs:39-83, 85-100, 128-143 -/
def accessStep (file : Option KeyFile) : Pc → Access → Option (Option KeyFile × Pc)
  | .idle, .loadOrCreate (some envHex) _ =>
    some (file, .overridden ((parseKeyHex envHex).elim (.error .badEnv) .ok))
  | .idle, .loadOrCreate none minted =>
    match file with
    | some _ => some (file, .retry readAttempts)
    | none => some (file, .creating minted)
  | .idle, .load (some envHex) =>
    some (file, .overridden ((parseKeyHex envHex).elim (.error .badEnv) .ok))
  | .idle, .load none =>
    match file with
    | some _ => some (file, .retry readAttempts)
    | none => some (file, .returned (.error .absent))
  | .creating key, .createNew =>
    match file with
    | some _ => some (file, .retry readAttempts)
    | none => some (some ⟨[], creationMode⟩, .writing key (keyText key))
  | .writing key (c :: left), .write taken =>
    match file with
    | some f => some (some { f with content := f.content ++ (c :: left).take (taken + 1) },
        .writing key ((c :: left).drop (taken + 1)))
    | none => none
  | .writing key [], .close => some (file, .returned (.ok key))
  | .reading attempts, .read =>
    match file.bind fun f => parseKeyHex (trim f.content) with
    | some key => some (file, .checking key)
    | none => some (file, .retry attempts)
  | .reading attempts, .readError => some (file, .retry attempts)
  | .checking key, .stat =>
    match file with
    | some f =>
      if permitted f.mode then some (file, .returned (.ok key))
      else some (file, .returned (.error .malformed))
    | none => none
  | .creating _, .fail => some (file, .returned (.error .io))
  | .writing _ _, .fail => some (file, .returned (.error .io))
  | .checking _, .fail => some (file, .returned (.error .io))
  | .creating _, .kill => some (file, .killed)
  | .writing _ _, .kill => some (file, .killed)
  | .reading _, .kill => some (file, .killed)
  | .checking _, .kill => some (file, .killed)
  | _, _ => none

/-- The file and all calls, by number. -/
structure State where
  file : Option KeyFile
  calls : ℕ → Pc

/-- The data directory as the first call finds it. -/
def init (file : Option KeyFile) : State where
  file
  calls := fun _ => .idle

/-- One access of call `id`. -/
def step (s : State) (action : ℕ × Access) : Option State :=
  (accessStep s.file (s.calls action.1) action.2).map fun after =>
    { file := after.1, calls := Function.update s.calls action.1 after.2 }

end Mycelium.Model.ServiceKeyFile
