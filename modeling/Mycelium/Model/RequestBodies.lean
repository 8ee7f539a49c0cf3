import Mycelium.Lib.FirstMatch
import Mycelium.Lib.Hex
import Mycelium.Lib.Utf8

/-!
# Fields of a buffered request body

How the request middleware reads one field out of the bytes of a form, urlencoded or multipart.
Texts are their UTF-8 bytes. Lower case is Unicode's, a parameter.

A slice whose bounds are in the wrong order is a panic, as is every other way a read ends the
task; what the readers return is in `Except`.

SOURCE: crates/mycelium-web/src/middleware.rs
-/

set_option autoImplicit false

namespace Mycelium.Model.RequestBodies

/-- The bytes of a text of ASCII. -/
def ascii (text : String) : List UInt8 := text.toList.map fun c => UInt8.ofNat c.toNat

/-! ## Urlencoded forms -/

/-- `u8::from_str_radix` of two bytes in base 16, which takes a sign in front of one digit. -/
def hexByte (high low : UInt8) : Option UInt8 :=
  match Hex.digitValue (Char.ofNat high.toNat), Hex.digitValue (Char.ofNat low.toNat) with
  | some h, some l => some (UInt8.ofNat (16 * h + l))
  | none, some l => if high = 43 then some (UInt8.ofNat l) else none
  | _, none => none

/-- `+` is a blank, `%` with two digits is a byte. SOURCE: middleware.rs:382-413 -/
@[simp] def percentDecodeBytes : List UInt8 → List UInt8
  | [] => []
  | b :: high :: low :: rest =>
    if b = 43 then 32 :: percentDecodeBytes (high :: low :: rest)
    else if b = 37 then
      match hexByte high low with
      | some byte => byte :: percentDecodeBytes rest
      | none => b :: percentDecodeBytes (high :: low :: rest)
    else b :: percentDecodeBytes (high :: low :: rest)
  | b :: rest => (if b = 43 then 32 else b) :: percentDecodeBytes rest

def percentDecode (text : List UInt8) : List UInt8 := Utf8.lossy (percentDecodeBytes text)

/-- `str::split_once('=')`. -/
def splitOnceEq (pair : List UInt8) : Option (List UInt8 × List UInt8) :=
  if 61 ∈ pair then some (pair.takeWhile (· ≠ 61), (pair.dropWhile (· ≠ 61)).tail) else none

/-- The loop over the pairs; a pair without `=` ends it. -/
def formPairs (field : List UInt8) : List (List UInt8) → Option (List UInt8)
  | [] => none
  | pair :: pairs =>
    match splitOnceEq pair with
    | none => none
    | some (k, v) => if percentDecode k = field then some (percentDecode v) else formPairs field pairs

/-- SOURCE: middleware.rs:370-379 -/
def formUrlencodedGet (body field : List UInt8) : Option (List UInt8) :=
  if Utf8.Valid body then formPairs field (body.splitOn 38) else none

/-! ## Multipart forms -/

/-- SOURCE: middleware.rs:346-351 -/
def findSubsequence (haystack needle : List UInt8) : Option ℕ :=
  if needle = [] then none else FirstMatch.first needle haystack

/-- What ends the task that serves the request. -/
inductive Panic where
  | sliceOrder
  deriving DecidableEq, Repr

/-- The boundary of a content type, in quotes or up to the next semicolon.
SOURCE: middleware.rs:313-321 -/
def boundaryOf (contentType : List UInt8) : Option (List UInt8) :=
  (FirstMatch.first (ascii "boundary=") contentType).bind fun idx =>
    let raw := contentType.drop (idx + 9)
    let boundary :=
      match raw with
      | 34 :: quoted =>
        if 34 ∈ quoted then quoted.takeWhile (· ≠ 34) else raw.takeWhile (· ≠ 59)
      | _ => raw.takeWhile (· ≠ 59)
    if boundary = [] then none else some boundary

def crlf : List UInt8 := [13, 10]

def blankLine : List UInt8 := [13, 10, 13, 10]

/-- Without the line end in front of the delimiter. -/
def trimCrlf (content : List UInt8) : List UInt8 :=
  if crlf.isSuffixOf content then content.take (content.length - 2) else content

/-- The headers of a part have the name of the field in them, in any case of letters.
SOURCE: middleware.rs:338-342 -/
def namesField (toLowercase : List UInt8 → List UInt8) (field headers : List UInt8) : Bool :=
  (FirstMatch.first (toLowercase (ascii "name=\"" ++ field ++ ascii "\""))
    (toLowercase (Utf8.lossy headers))).isSome

/-- INTERNAL: a part is shorter than the text it is read from. -/
theorem length_content_lt {after : List UInt8} {headerEnd : ℕ} (start : ℕ) {text : List UInt8}
    (hafter : after = text.drop start) (h : findSubsequence after blankLine = some headerEnd) :
    (after.drop (headerEnd + 4)).length < text.length := by
  unfold findSubsequence at h
  rw [if_neg (by decide)] at h
  have hlen := FirstMatch.length_le_of_first h
  have hblank : blankLine.length = 4 := rfl
  have htext : after.length ≤ text.length := by
    rw [hafter, List.length_drop]
    omega
  rw [List.length_drop]
  omega

/-- The parts from the next delimiter on. In front of an empty content stands the end of the
blank line, which the code takes for the line end of the content, and slices backwards.
SOURCE: middleware.rs:325-349 -/
def multipartLoop (toLowercase : List UInt8 → List UInt8) (delim field : List UInt8)
    (text : List UInt8) : Except Panic (Option (List UInt8)) :=
  match findSubsequence text delim with
  | none => .ok none
  | some start =>
    match _hheader : findSubsequence (text.drop (start + delim.length)) blankLine with
    | none => .ok none
    | some headerEnd =>
      let content := (text.drop (start + delim.length)).drop (headerEnd + 4)
      match findSubsequence content delim with
      | none => .ok none
      | some next =>
        if namesField toLowercase field ((text.drop (start + delim.length)).take headerEnd) then
          if next = 0 then .error .sliceOrder
          else .ok (some (Utf8.lossy (trimCrlf (content.take next))))
        else multipartLoop toLowercase delim field content
termination_by text.length
decreasing_by exact length_content_lt _ rfl _hheader

/-- SOURCE: middleware.rs:308-352 -/
def multipartField (toLowercase : List UInt8 → List UInt8)
    (body contentType field : List UInt8) : Except Panic (Option (List UInt8)) :=
  match boundaryOf contentType with
  | none => .ok none
  | some boundary => multipartLoop toLowercase (ascii "--" ++ boundary) field body

end Mycelium.Model.RequestBodies
