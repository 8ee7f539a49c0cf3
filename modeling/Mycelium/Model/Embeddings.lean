import Mathlib.Data.List.Basic

/-!
# The embeddings client

One batch of texts is posted to the backend, and the vectors of its answer are put in the
order of the texts by the index each of them carries. What the backend answers is a
parameter (`Reply`). An `f32` is its bits.

SOURCE: crates/mycelium-librarian/src/embeddings.rs
-/

set_option autoImplicit false

namespace Mycelium.Model.Embeddings

/-- The bits of an `f32`. -/
abbrev F32 : Type := BitVec 32

/-- Neither infinite nor a NaN: the exponent is not all ones. -/
def isFinite (x : F32) : Bool := x.extractLsb' 23 8 != 255#8

abbrev Vector : Type := List F32

/-- SOURCE: embeddings.rs:136-143 -/
inductive EmbeddingError where
  | request (error : String)
  | status (status : ℕ) (body : String)
  | malformed (message : String)
  deriving DecidableEq, Repr

/-- SOURCE: embeddings.rs:156-164 -/
def EmbeddingError.isBackendDown : EmbeddingError → Bool
  | .request _ => true
  | .status code _ => 500 ≤ code || code = 401 || code = 403
  | .malformed _ => false

/-- SOURCE: embeddings.rs:214-217 -/
structure EmbedData where
  index : ℕ
  embedding : Vector
  deriving DecidableEq, Repr

/-! ## The order of the vectors -/

/-- One entry of the answer goes into its slot. SOURCE: embeddings.rs:225-238 -/
def fillSlot (expected : ℕ) (slots : List (Option Vector)) (entry : EmbedData) :
    Except EmbeddingError (List (Option Vector)) :=
  if expected ≤ entry.index then
    .error (.malformed ("embedding index " ++ toString entry.index ++ " is out of range for " ++
      toString expected ++ " input(s)"))
  else if (slots.getD entry.index none).isSome then
    .error (.malformed ("duplicate embedding index " ++ toString entry.index ++
      " in the response"))
  else .ok (slots.set entry.index (some entry.embedding))

/-- The vector of a slot. SOURCE: embeddings.rs:239-260 -/
def takeSlot (slot : Option Vector × ℕ) : Except EmbeddingError Vector :=
  match slot.1 with
  | none => .error (.malformed ("the embeddings response is missing index " ++
      toString slot.2 ++ " (incomplete batch)"))
  | some vector =>
    if vector = [] then
      .error (.malformed ("the embeddings response carries an empty vector at index " ++
        toString slot.2))
    else if vector.any (!isFinite ·) then
      .error (.malformed ("the embeddings response carries a non-finite value at index " ++
        toString slot.2))
    else .ok vector

/-- SOURCE: embeddings.rs:223-261 -/
def orderedVectors (data : List EmbedData) (expected : ℕ) :
    Except EmbeddingError (List Vector) := do
  let slots ← data.foldlM (fillSlot expected) (List.replicate expected none)
  slots.zipIdx.mapM takeSlot

/-! ## A batch -/

def embedInputMaxChars : ℕ := 24000

def maxEmbeddingDims : ℕ := 4096

/-- The request failed, or there is an answer: its status, its text and the entries that
its JSON decodes to. -/
inductive Reply where
  | failed (error : String)
  | answered (status : ℕ) (text : String) (data : Except String (List EmbedData))

/-- What is posted. SOURCE: embeddings.rs:330-333 -/
def truncated (texts : List String) : List String :=
  texts.map fun t => String.ofList (t.toList.take embedInputMaxChars)

/-- One vector for each text. SOURCE: embeddings.rs:326-376 -/
def embedBatch (post : List String → Reply) (texts : List String) :
    Except EmbeddingError (List Vector) :=
  if texts = [] then .ok []
  else
    match post (truncated texts) with
    | .failed error => .error (.request error)
    | .answered status text data =>
      if status < 200 ∨ 300 ≤ status then
        .error (.status status (String.ofList (text.toList.take 500)))
      else
        match data with
        | .error e => .error (.malformed ("invalid embeddings JSON body: " ++ e))
        | .ok data => do
          let vectors ← orderedVectors data texts.length
          match vectors.zipIdx.find? fun v => maxEmbeddingDims < v.1.length with
          | some (vector, i) =>
            .error (.malformed ("model dims " ++ toString vector.length ++ " exceeds the " ++
              toString maxEmbeddingDims ++ " cap — config-level problem (vector at index " ++
              toString i ++ ")"))
          | none => .ok vectors

end Mycelium.Model.Embeddings
