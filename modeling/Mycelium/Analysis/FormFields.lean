import Mathlib.Data.List.TakeWhile
import Mycelium.Model.RequestBodies

/-!
# Forms read back

A browser writes a form as pairs, urlencoded (`formBody`) or as the parts of a multipart body
(`multipartBody`). What the request middleware reads of them is the first field of a name, with
the value that was entered (`formUrlencodedGet_formBody`, `multipartField_multipartBody`).
-/

set_option autoImplicit false

namespace Mycelium.Analysis.FormFields

open Mycelium.Model.RequestBodies
open Utf8 (Text)

/-! ## Percent coding -/

/-- An upper-case digit. -/
def hexDigit (d : ℕ) : UInt8 := UInt8.ofNat (if d < 10 then 48 + d else 55 + d)

/-- The bytes a form serializer leaves as they are. -/
def isUnreserved (b : UInt8) : Bool :=
  (48 ≤ b && b ≤ 57) || (65 ≤ b && b ≤ 90) || (97 ≤ b && b ≤ 122) ||
    b == 42 || b == 45 || b == 46 || b == 95

def encodeByte (b : UInt8) : List UInt8 :=
  if isUnreserved b then [b]
  else if b = 32 then [43]
  else [37, hexDigit (b.toNat / 16), hexDigit (b.toNat % 16)]

/-- A key or a value as a form has it. -/
def percentEncode (bs : List UInt8) : List UInt8 := bs.flatMap encodeByte

theorem percentDecodeBytes_plus (rest : List UInt8) :
    percentDecodeBytes (43 :: rest) = 32 :: percentDecodeBytes rest := by
  cases rest with
  | nil => rfl
  | cons high rest =>
    cases rest with
    | nil => rfl
    | cons low rest => rw [percentDecodeBytes, if_pos rfl]

theorem percentDecodeBytes_cons {b : UInt8} (hplus : b ≠ 43) (hpercent : b ≠ 37)
    (rest : List UInt8) : percentDecodeBytes (b :: rest) = b :: percentDecodeBytes rest := by
  cases rest with
  | nil =>
    change (if b = 43 then 32 else b) :: percentDecodeBytes [] = _
    rw [if_neg hplus]
  | cons high rest =>
    cases rest with
    | nil =>
      change (if b = 43 then 32 else b) :: percentDecodeBytes [high] = _
      rw [if_neg hplus]
    | cons low rest => rw [percentDecodeBytes, if_neg hplus, if_neg hpercent]

theorem percentDecodeBytes_percent {high low byte : UInt8} (h : hexByte high low = some byte)
    (rest : List UInt8) :
    percentDecodeBytes (37 :: high :: low :: rest) = byte :: percentDecodeBytes rest := by
  rw [percentDecodeBytes, if_neg (by decide), if_pos rfl, h]

/-- INTERNAL: a digit is read with its value. -/
theorem digitValue_hexDigit {d : ℕ} (hd : d < 16) :
    Hex.digitValue (Char.ofNat (hexDigit d).toNat) = some d := by
  have hall : ∀ d < 16, Hex.digitValue (Char.ofNat (hexDigit d).toNat) = some d := by decide
  exact hall d hd

theorem hexByte_hexDigit (b : UInt8) :
    hexByte (hexDigit (b.toNat / 16)) (hexDigit (b.toNat % 16)) = some b := by
  have hb := b.toNat_lt
  have hbyte : 16 * (b.toNat / 16) + b.toNat % 16 = b.toNat := by omega
  unfold hexByte
  rw [digitValue_hexDigit (by omega), digitValue_hexDigit (by omega)]
  simp only [hbyte, UInt8.ofNat_toNat]

/-- INTERNAL: an unreserved byte is none of the marks of a form. -/
theorem ne_of_isUnreserved {b : UInt8} (h : isUnreserved b = true) :
    b ≠ 43 ∧ b ≠ 37 ∧ b ≠ 38 ∧ b ≠ 61 ∧ b < 0x80 := by
  refine ⟨?_, ?_, ?_, ?_, ?_⟩
  · rintro rfl; exact absurd h (by decide)
  · rintro rfl; exact absurd h (by decide)
  · rintro rfl; exact absurd h (by decide)
  · rintro rfl; exact absurd h (by decide)
  · by_contra hlarge
    have hb : 128 ≤ b.toNat := by
      have := UInt8.not_lt.mp hlarge
      exact UInt8.le_iff_toNat_le.mp this
    simp only [isUnreserved, Bool.or_eq_true, Bool.and_eq_true, decide_eq_true_eq, beq_iff_eq,
      UInt8.le_iff_toNat_le, ← UInt8.toNat_inj] at h
    have h57 : (57 : UInt8).toNat = 57 := rfl
    have h90 : (90 : UInt8).toNat = 90 := rfl
    have h122 : (122 : UInt8).toNat = 122 := rfl
    have h42 : (42 : UInt8).toNat = 42 := rfl
    have h45 : (45 : UInt8).toNat = 45 := rfl
    have h46 : (46 : UInt8).toNat = 46 := rfl
    have h95 : (95 : UInt8).toNat = 95 := rfl
    omega

/-- One byte is read back, whatever follows. -/
theorem percentDecodeBytes_encodeByte (b : UInt8) (rest : List UInt8) :
    percentDecodeBytes (encodeByte b ++ rest) = b :: percentDecodeBytes rest := by
  unfold encodeByte
  by_cases hplain : isUnreserved b = true
  · obtain ⟨hplus, hpercent, -⟩ := ne_of_isUnreserved hplain
    rw [if_pos hplain]
    exact percentDecodeBytes_cons hplus hpercent rest
  · rw [if_neg hplain]
    by_cases hblank : b = 32
    · rw [if_pos hblank, hblank]
      exact percentDecodeBytes_plus rest
    · rw [if_neg hblank]
      exact percentDecodeBytes_percent (hexByte_hexDigit b) rest

theorem percentDecodeBytes_percentEncode (bs : List UInt8) :
    percentDecodeBytes (percentEncode bs) = bs := by
  induction bs with
  | nil => rfl
  | cons b bs ih =>
    unfold percentEncode at ih ⊢
    rw [List.flatMap_cons, percentDecodeBytes_encodeByte, ih]

theorem percentDecode_percentEncode (text : Text) :
    percentDecode (percentEncode text.1) = text.1 := by
  unfold percentDecode
  rw [percentDecodeBytes_percentEncode]
  exact Utf8.lossy_eq_self text.2

/-- INTERNAL: a digit is none of the marks of a form. -/
theorem ne_hexDigit {d : ℕ} (hd : d < 16) :
    hexDigit d ≠ 38 ∧ hexDigit d ≠ 61 ∧ hexDigit d < 0x80 := by
  have hall : ∀ d < 16, hexDigit d ≠ 38 ∧ hexDigit d ≠ 61 ∧ hexDigit d < 0x80 := by decide
  exact hall d hd

/-- INTERNAL: what is written has no separator in it. -/
theorem of_mem_percentEncode {bs : List UInt8} {c : UInt8} (hc : c ∈ percentEncode bs) :
    c ≠ 38 ∧ c ≠ 61 ∧ c < 0x80 := by
  obtain ⟨b, -, hcb⟩ := List.mem_flatMap.mp hc
  have hb := b.toNat_lt
  unfold encodeByte at hcb
  split at hcb
  · rename_i hplain
    obtain ⟨-, -, hamp, heq, hascii⟩ := ne_of_isUnreserved hplain
    rw [List.mem_singleton.mp hcb]
    exact ⟨hamp, heq, hascii⟩
  · split at hcb
    · rw [List.mem_singleton.mp hcb]
      decide
    · simp only [List.mem_cons, List.not_mem_nil, or_false] at hcb
      rcases hcb with rfl | rfl | rfl
      · decide
      · exact ne_hexDigit (by omega)
      · exact ne_hexDigit (by omega)

/-! ## Urlencoded forms -/

def encodePair (pair : Text × Text) : List UInt8 :=
  percentEncode pair.1.1 ++ 61 :: percentEncode pair.2.1

/-- The body of an urlencoded form. -/
def formBody (pairs : List (Text × Text)) : List UInt8 := [38].intercalate (pairs.map encodePair)

theorem splitOnceEq_encodePair (pair : Text × Text) :
    splitOnceEq (encodePair pair) = some (percentEncode pair.1.1, percentEncode pair.2.1) := by
  have hkey : ∀ c ∈ percentEncode pair.1.1, decide (c ≠ 61) = true :=
    fun c hc => decide_eq_true (of_mem_percentEncode hc).2.1
  unfold splitOnceEq encodePair
  rw [if_pos (List.mem_append_right _ List.mem_cons_self), List.takeWhile_append_of_pos hkey,
    List.dropWhile_append_of_pos hkey, List.takeWhile_cons_of_neg (by decide),
    List.dropWhile_cons_of_neg (by decide), List.append_nil]
  rfl

theorem formPairs_encodePair (field : List UInt8) (pairs : List (Text × Text)) :
    formPairs field (pairs.map encodePair) =
      (pairs.find? fun pair => pair.1.1 = field).map fun pair => pair.2.1 := by
  induction pairs with
  | nil => rfl
  | cons pair pairs ih =>
    rw [List.map_cons, formPairs, splitOnceEq_encodePair]
    simp only [percentDecode_percentEncode]
    by_cases hfield : pair.1.1 = field
    · rw [if_pos hfield, List.find?_cons_of_pos (by simpa using hfield)]
      rfl
    · rw [if_neg hfield, List.find?_cons_of_neg (by simpa using hfield), ih]

/-- INTERNAL: the bytes of a form are ASCII. -/
theorem ascii_formBody (pairs : List (Text × Text)) : ∀ b ∈ formBody pairs, b < 0x80 := by
  have hpair : ∀ pair : Text × Text, ∀ b ∈ encodePair pair, b < 0x80 := by
    intro pair b hb
    rcases List.mem_append.mp hb with hb | hb
    · exact (of_mem_percentEncode hb).2.2
    · obtain rfl | hb := List.mem_cons.mp hb
      · decide
      · exact (of_mem_percentEncode hb).2.2
  unfold formBody
  induction pairs with
  | nil =>
    intro b hb
    cases hb
  | cons pair pairs ih =>
    intro b hb
    cases pairs with
    | nil =>
      rw [List.map_cons, List.map_nil, List.intercalate_singleton] at hb
      exact hpair pair b hb
    | cons next pairs =>
      rw [List.map_cons, List.map_cons, List.intercalate_cons_cons] at hb
      rcases List.mem_append.mp hb with hb | hb
      · rcases List.mem_append.mp hb with hb | hb
        · exact hpair pair b hb
        · rw [List.mem_singleton.mp hb]
          decide
      · exact ih b hb

/-- **An urlencoded form reads back**: the first field of the name, with the value that was
entered. -/
theorem formUrlencodedGet_formBody (pairs : List (Text × Text)) (field : List UInt8) :
    formUrlencodedGet (formBody pairs) field =
      (pairs.find? fun pair => pair.1.1 = field).map fun pair => pair.2.1 := by
  unfold formUrlencodedGet
  rw [if_pos (Utf8.valid_of_ascii (ascii_formBody pairs))]
  cases pairs with
  | nil => rfl
  | cons pair pairs =>
    have hsplit : (formBody (pair :: pairs)).splitOn 38 = (pair :: pairs).map encodePair := by
      apply List.splitOn_intercalate
      · intro l hl hmem
        obtain ⟨p, -, rfl⟩ := List.mem_map.mp hl
        rcases List.mem_append.mp hmem with hmem | hmem
        · exact (of_mem_percentEncode hmem).1 rfl
        · obtain h | hmem := List.mem_cons.mp hmem
          · exact absurd h (by decide)
          · exact (of_mem_percentEncode hmem).1 rfl
      · exact List.cons_ne_nil _ _
    rw [hsplit, formPairs_encodePair]

/-! ## Multipart forms -/

/-- A boundary that needs no quotes. -/
structure Boundary where
  bytes : List UInt8
  nonempty : bytes ≠ []
  plain : ∀ b ∈ bytes, b ≠ 34 ∧ b ≠ 59
  oneLine : ∀ b ∈ bytes, b ≠ 13 ∧ b ≠ 10

def Boundary.delim (boundary : Boundary) : List UInt8 := ascii "--" ++ boundary.bytes

def Boundary.contentType (boundary : Boundary) : List UInt8 :=
  ascii "multipart/form-data; boundary=" ++ boundary.bytes

/-- A part: its headers, from the line end behind the delimiter on, have no blank line in them,
and its content does not have the delimiter. -/
structure Part (boundary : Boundary) where
  headers : List UInt8
  content : Text
  clean : FirstMatch.Clean blankLine headers blankLine
  apart : ¬ boundary.delim <:+: content.1

/-- The body of a multipart form. -/
def multipartBody {boundary : Boundary} : List (Part boundary) → List UInt8
  | [] => boundary.delim ++ ascii "--\r\n"
  | part :: parts =>
    boundary.delim ++
      (part.headers ++ (blankLine ++ (part.content.1 ++ crlf ++ multipartBody parts)))

section Multipart

variable {boundary : Boundary}

theorem boundaryOf_contentType (boundary : Boundary) :
    boundaryOf boundary.contentType = some boundary.bytes := by
  have hsplit : boundary.contentType =
      ascii "multipart/form-data; " ++ (ascii "boundary=" ++ boundary.bytes) := by
    rw [← List.append_assoc]
    rfl
  have hclean : FirstMatch.Clean (ascii "boundary=") (ascii "multipart/form-data; ")
      (ascii "boundary=") := by decide
  have hfirst : FirstMatch.first (ascii "boundary=") boundary.contentType = some 21 := by
    rw [hsplit]
    exact FirstMatch.first_append (hclean.of_prefix (Nat.le_refl _) boundary.bytes)
      (List.prefix_append _ _)
  have hraw : boundary.contentType.drop (21 + 9) = boundary.bytes := by
    rw [hsplit, ← List.append_assoc]
    exact List.drop_left' rfl
  have hwhole : boundary.bytes.takeWhile (· ≠ 59) = boundary.bytes := by
    rw [List.takeWhile_eq_self_iff]
    intro b hb
    exact decide_eq_true (boundary.plain b hb).2
  unfold boundaryOf
  rw [hfirst, Option.bind_some]
  dsimp only
  rw [hraw]
  split
  · rename_i quoted hquoted
    exact absurd rfl (boundary.plain 34 (hquoted ▸ List.mem_cons_self)).1
  · rw [hwhole, if_neg boundary.nonempty]

theorem delim_ne_nil (boundary : Boundary) : boundary.delim ≠ [] :=
  List.append_ne_nil_of_left_ne_nil (by decide) _

/-- INTERNAL: a delimiter has no line end in it. -/
theorem not_mem_delim : ∀ b ∈ crlf, b ∉ boundary.delim := by
  intro b hb hmem
  rcases List.mem_append.mp hmem with hmem | hmem
  · have hall : ∀ b ∈ crlf, b ∉ ascii "--" := by decide +kernel
    exact hall b hb hmem
  · obtain ⟨hcr, hlf⟩ := boundary.oneLine b hmem
    simp only [crlf, List.mem_cons, List.not_mem_nil, or_false] at hb
    rcases hb with rfl | rfl
    · exact hcr rfl
    · exact hlf rfl

/-- The next delimiter stands behind a text it does not begin in. -/
theorem findSubsequence_delim {front rest : List UInt8}
    (hfront : FirstMatch.Clean boundary.delim front rest) (hrest : boundary.delim <+: rest) :
    findSubsequence (front ++ rest) boundary.delim = some front.length := by
  unfold findSubsequence
  rw [if_neg (delim_ne_nil boundary)]
  exact FirstMatch.first_append hfront hrest

/-- It does not begin in the content of a part, nor in nothing. -/
theorem clean_content (part : Part boundary) (rest : List UInt8) :
    FirstMatch.Clean boundary.delim (part.content.1 ++ crlf) rest :=
  FirstMatch.clean_of_closed (delim_ne_nil boundary) part.apart not_mem_delim (by decide) rest

theorem clean_nil (rest : List UInt8) : FirstMatch.Clean boundary.delim [] rest :=
  fun _ hk => absurd hk (Nat.not_lt_zero _)

/-- INTERNAL: what stands behind the delimiter. -/
theorem drop_delim (front rest : List UInt8) :
    (front ++ (boundary.delim ++ rest)).drop (front.length + boundary.delim.length) = rest := by
  rw [← List.drop_drop, List.drop_left, List.drop_left]

/-- The headers end where they were closed. -/
theorem findSubsequence_headers (part : Part boundary) (rest : List UInt8) :
    findSubsequence (part.headers ++ (blankLine ++ rest)) blankLine = some part.headers.length := by
  unfold findSubsequence
  rw [if_neg (by decide)]
  exact FirstMatch.first_append (part.clean.of_prefix (Nat.le_refl _) rest)
    (List.prefix_append _ _)

/-- INTERNAL: what stands behind the headers. -/
theorem drop_headers (headers rest : List UInt8) :
    (headers ++ (blankLine ++ rest)).drop (headers.length + 4) = rest := by
  rw [← List.drop_drop, List.drop_left]
  exact List.drop_left' rfl

theorem trimCrlf_append (content : List UInt8) : trimCrlf (content ++ crlf) = content := by
  unfold trimCrlf
  rw [if_pos (List.isSuffixOf_iff_suffix.mpr (List.suffix_append content crlf))]
  have hlen : (content ++ crlf).length - 2 = content.length := by
    rw [List.length_append]
    exact Nat.add_sub_cancel _ 2
  rw [hlen, List.take_left]

theorem delim_starts (parts : List (Part boundary)) : boundary.delim <+: multipartBody parts := by
  cases parts with
  | nil => exact List.prefix_append _ _
  | cons part parts => exact List.prefix_append _ _

variable (toLowercase : List UInt8 → List UInt8)

/-- INTERNAL: a part whose headers are closed is read as what its content is read as. -/
theorem multipartLoop_part {front : List UInt8} (field : List UInt8) (part : Part boundary)
    {rest : List UInt8} {next : ℕ}
    (hfront : ∀ rest, FirstMatch.Clean boundary.delim front rest)
    (hnext : findSubsequence rest boundary.delim = some next) :
    multipartLoop toLowercase boundary.delim field
        (front ++ (boundary.delim ++ (part.headers ++ (blankLine ++ rest)))) =
      if namesField toLowercase field part.headers then
        if next = 0 then .error .sliceOrder
        else .ok (some (Utf8.lossy (trimCrlf (rest.take next))))
      else multipartLoop toLowercase boundary.delim field rest := by
  rw [multipartLoop, findSubsequence_delim (hfront _) (List.prefix_append _ _)]
  dsimp only
  split
  · rename_i hheader
    rw [drop_delim, findSubsequence_headers] at hheader
    cases hheader
  · rename_i headerEnd hheader
    have hend : headerEnd = part.headers.length := by
      rw [drop_delim, findSubsequence_headers] at hheader
      exact (Option.some.inj hheader).symm
    subst hend
    rw [drop_delim, drop_headers, List.take_left, hnext]

theorem multipartLoop_multipartBody (field : List UInt8) (parts : List (Part boundary))
    {front : List UInt8} (hfront : ∀ rest, FirstMatch.Clean boundary.delim front rest) :
    multipartLoop toLowercase boundary.delim field (front ++ multipartBody parts) =
      .ok ((parts.find? fun part => namesField toLowercase field part.headers).map
        fun part => part.content.1) := by
  induction parts generalizing front with
  | nil =>
    have hnone : findSubsequence (ascii "--\r\n") blankLine = none := by decide
    rw [multipartLoop, multipartBody, findSubsequence_delim (hfront _) (List.prefix_append _ _)]
    dsimp only
    split
    · rfl
    · rename_i headerEnd hheader
      rw [drop_delim, hnone] at hheader
      cases hheader
  | cons part parts ih =>
    rw [multipartBody, multipartLoop_part toLowercase field part hfront
      (findSubsequence_delim (clean_content part _) (delim_starts parts))]
    by_cases hnames : namesField toLowercase field part.headers = true
    · have hlen : (part.content.1 ++ crlf).length ≠ 0 := by
        rw [List.length_append]
        exact Nat.succ_ne_zero _
      rw [if_pos hnames, if_neg hlen, List.take_left, trimCrlf_append,
        Utf8.lossy_eq_self part.content.2, List.find?_cons_of_pos (by simpa using hnames)]
      rfl
    · rw [if_neg hnames, List.find?_cons_of_neg (by simpa using hnames)]
      exact ih (clean_content part)

/-- **A multipart form reads back**: the first part whose headers name the field, with the
content that was entered. -/
theorem multipartField_multipartBody (field : List UInt8) (parts : List (Part boundary)) :
    multipartField toLowercase (multipartBody parts) boundary.contentType field =
      .ok ((parts.find? fun part => namesField toLowercase field part.headers).map
        fun part => part.content.1) := by
  unfold multipartField
  rw [boundaryOf_contentType]
  exact multipartLoop_multipartBody toLowercase field parts clean_nil

/-- Where nothing at all stands between the blank line and the delimiter, not even a line end,
the read of the field ends the task. -/
theorem multipartField_panics (field : List UInt8) (part : Part boundary) (rest : List UInt8)
    (hnames : namesField toLowercase field part.headers = true) :
    multipartField toLowercase (boundary.delim ++
      (part.headers ++ (blankLine ++ (boundary.delim ++ rest)))) boundary.contentType field =
      .error .sliceOrder := by
  unfold multipartField
  rw [boundaryOf_contentType]
  dsimp only
  have hnext : findSubsequence (boundary.delim ++ rest) boundary.delim = some 0 :=
    findSubsequence_delim (clean_nil _) (List.prefix_append _ rest)
  have hread := multipartLoop_part toLowercase field part clean_nil hnext
  rw [if_pos hnames, if_pos rfl] at hread
  exact hread

end Multipart

end Mycelium.Analysis.FormFields
