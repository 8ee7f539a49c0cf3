import Mathlib.Logic.Function.Basic
import Mycelium.Model.Text

/-!
# The files of the TLS certificate

The generated pair with the record of its names, and the uploaded pair. A request, or the boot
of the server, is a task that takes one file operation at a time; the requests of several admins
interleave, an operation can fail half-way, and a crash cuts what is being written. The
listener's pair is swapped by a reload. The crates that mint and load a pair are parameters, and
a removal always goes through.

SOURCE: crates/mycelium-web/src/cert.rs, crates/mycelium-web/src/tls_admin.rs,
crates/mycelium-web/src/api.rs
-/

set_option autoImplicit false

namespace Mycelium.Model.TlsFiles

open Mycelium.Model.Text

abbrev Pem : Type := List Char

inductive CertError where
  | generate
  deriving DecidableEq, Repr

/-- What the server calls. `random` is the randomness of a key. -/
structure Crates where
  /-- The certificate of the names and its key; `none` for names it refuses. -/
  generateSimpleSelfSigned : List String → ℕ → Option (Pem × Pem)
  /-- `RustlsConfig::from_pem_file`. -/
  loads : Pem → Pem → Bool

inductive FileName where
  | cert
  | key
  | sans
  | uploadedCert
  | uploadedKey
  | uploadedMeta
  deriving DecidableEq, Repr

abbrev Files : Type := FileName → Option Pem

inductive FileOp where
  | remove (f : FileName)
  /-- `std::fs::write`. -/
  | write (f : FileName) (text : Pem)
  /-- `create_new` and `write_all`. -/
  | createNew (f : FileName) (text : Pem)
  | reload (c k : FileName)
  /-- Unless an uploaded pair is there. -/
  | reloadGenerated
  /-- The last steps of the boot. -/
  | load
  deriving DecidableEq, Repr

/-- The operations left, and those instead once one fails. -/
structure Task where
  ops : List FileOp := []
  onError : List FileOp := []
  deriving DecidableEq, Repr

/-- `served` is the pair of the listener, `none` while the server is down. -/
structure State where
  files : Files := fun _ => none
  served : Option (Pem × Pem) := none
  tasks : ℕ → Task := fun _ => {}

def State.setTask (s : State) (i : ℕ) (task : Task) : State :=
  { s with tasks := Function.update s.tasks i task }

section Server

variable (X : Crates)

/-! ## The generated pair -/

/-- SOURCE: cert.rs:156-165 -/
def parseSidecar (content : Pem) : Option (List String) :=
  let names := (((splitInclusive content).map stripLineEnd).map trim).filter (· ≠ [])
  if names = [] then none else some (names.map String.ofList)

/-- SOURCE: cert.rs:104-120, cert.rs:179-213 -/
def regenerateManagedPair (sans : List String) (random : ℕ) : Except CertError (List FileOp) :=
  if sans = [] then .error .generate
  else
    match X.generateSimpleSelfSigned sans random with
    | none => .error .generate
    | some (certPem, keyPem) =>
      .ok [.remove .cert, .remove .key, .write .cert certPem, .createNew .key keyPem,
        .write .sans (join "\n" sans ++ "\n").toList]

/-- SOURCE: cert.rs:135-151 -/
def ensureManagedPair (files : Files) (sans : List String) (random : ℕ) :
    Except CertError (List FileOp) :=
  match parseSidecar ((files .sans).getD []) with
  | some recorded =>
    if (files .cert).isSome ∧ (files .key).isSome then .ok []
    else regenerateManagedPair X recorded random
  | none => regenerateManagedPair X sans random

/-! ## Operations -/

def readPair (files : Files) (c k : FileName) : Option (Pem × Pem) :=
  match files c, files k with
  | some certPem, some keyPem => if X.loads certPem keyPem then some (certPem, keyPem) else none
  | _, _ => none

/-- `none` where the operation fails. -/
def FileOp.perform (s : State) : FileOp → Option State
  | .remove f => some { s with files := Function.update s.files f none }
  | .write f text => some { s with files := Function.update s.files f (some text) }
  | .createNew f text =>
    if (s.files f).isSome then none
    else some { s with files := Function.update s.files f (some text) }
  | .reload c k => (readPair X s.files c k).map fun pair => { s with served := some pair }
  | .reloadGenerated =>
    if (s.files .uploadedCert).isSome ∧ (s.files .uploadedKey).isSome then some s
    else (readPair X s.files .cert .key).map fun pair => { s with served := some pair }
  | .load =>
    (readPair X s.files .uploadedCert .uploadedKey <|> readPair X s.files .cert .key).map
      fun pair => { s with served := some pair }

def FileOp.isRemove : FileOp → Bool
  | .remove _ => true
  | _ => false

/-- What an operation leaves when it is cut after `n` characters. -/
def FileOp.cut (files : Files) (n : ℕ) : FileOp → Files
  | .write f text => Function.update files f (some (text.take n))
  | .createNew f text =>
    if (files f).isSome then files else Function.update files f (some (text.take n))
  | _ => files

/-! ## Requests -/

/-- The files of an upload, in write order. SOURCE: tls_admin.rs:142-164 -/
def uploadedPairPaths : List FileName := [.uploadedCert, .uploadedKey, .uploadedMeta]

def removeUploadedPair : List FileOp := uploadedPairPaths.map .remove

/-- From the first write on. SOURCE: api.rs:4739-4778, api.rs:4808-4818 -/
def tlsUpload (certPem keyPem info : Pem) : Task where
  ops := [.write .uploadedCert certPem, .remove .uploadedKey, .createNew .uploadedKey keyPem,
    .write .uploadedMeta info, .reload .uploadedCert .uploadedKey]
  onError := removeUploadedPair

/-- SOURCE: api.rs:5035-5062 -/
def tlsReset : Task where
  ops := removeUploadedPair ++ [.reload .cert .key]

inductive Action where
  /-- The server starts, with the names of its environment. -/
  | boot (sans : List String) (random : ℕ)
  | regenerate (i : ℕ) (sans : List String) (random : ℕ)
  | upload (i : ℕ) (certPem keyPem info : Pem)
  | reset (i : ℕ)
  | op (i : ℕ)
  /-- The next operation of a task writes so much and fails. -/
  | fail (i n : ℕ)
  /-- What tasks are writing is cut: a task and a length each. -/
  | crash (cuts : List (ℕ × ℕ))
  /-- An operator hands the names back to the environment. -/
  | removeSidecar
  deriving DecidableEq, Repr

def cutTask (tasks : ℕ → Task) (files : Files) (c : ℕ × ℕ) : Files :=
  match (tasks c.1).ops with
  | [] => files
  | op :: _ => op.cut files c.2

/-- A request needs a server that is up, and a task that is free. -/
def State.begin (s : State) (i : ℕ) (task : Task) : Option State :=
  if s.served.isSome ∧ (s.tasks i).ops = [] then some (s.setTask i task) else none

def step (s : State) : Action → Option State
  | .boot sans random =>
    if s.served.isNone ∧ (s.tasks 0).ops = [] then
      match ensureManagedPair X s.files sans random with
      | .error _ => some s
      | .ok ops => some (s.setTask 0 { ops := ops ++ [.load] })
    else none
  | .regenerate i sans random =>
    match regenerateManagedPair X sans random with
    | .error _ => some s
    | .ok ops => s.begin i { ops := ops ++ [.reloadGenerated] }
  | .upload i certPem keyPem info => s.begin i (tlsUpload certPem keyPem info)
  | .reset i => s.begin i tlsReset
  | .op i =>
    match (s.tasks i).ops with
    | [] => none
    | op :: ops =>
      match op.perform X s with
      | none => some (s.setTask i { ops := (s.tasks i).onError })
      | some t => some (t.setTask i { s.tasks i with ops })
  | .fail i n =>
    match (s.tasks i).ops with
    | [] => none
    | op :: _ =>
      if op.isRemove then none
      else some ({ s with files := op.cut s.files n }.setTask i { ops := (s.tasks i).onError })
  | .crash cuts =>
    if (cuts.map Prod.fst).Nodup then some { files := cuts.foldl (cutTask s.tasks) s.files }
    else none
  | .removeSidecar => some { s with files := Function.update s.files .sans none }

end Server

end Mycelium.Model.TlsFiles
