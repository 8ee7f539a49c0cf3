import Mathlib.Data.List.Basic

/-!
# Bytes that are meant as UTF-8

A decoder that keeps its sequences as bytes: `chunks` cuts a list of bytes into well-formed
sequences and, in between, the longest starts of such a sequence that do not go on, as `none`.
`Valid` bytes have none of these, and `lossy` puts the bytes of U+FFFD for each. Valid bytes
are left as they are (`lossy_eq_self`).
-/

set_option autoImplicit false

namespace Utf8

/-- What is to come of a sequence: the bounds of its next byte, and how many come after. -/
structure Rest where
  low : UInt8 := 0x80
  high : UInt8 := 0xBF
  after : ℕ
  deriving DecidableEq, Repr

/-- What a first byte announces, `none` for a sequence of its own. -/
def lead (b : UInt8) : Option (Option Rest) :=
  if b < 0x80 then some none
  else if b < 0xC2 then none
  else if b < 0xE0 then some (some { after := 0 })
  else if b = 0xE0 then some (some { low := 0xA0, after := 1 })
  else if b = 0xED then some (some { high := 0x9F, after := 1 })
  else if b < 0xF0 then some (some { after := 1 })
  else if b = 0xF0 then some (some { low := 0x90, after := 2 })
  else if b < 0xF4 then some (some { after := 2 })
  else if b = 0xF4 then some (some { high := 0x8F, after := 2 })
  else none

/-- The decoder, between sequences or within one. -/
def chunksFrom : Option (List UInt8 × Rest) → List UInt8 → List (Option (List UInt8))
  | none, [] => []
  | some _, [] => [none]
  | none, b :: bs =>
    match lead b with
    | none => none :: chunksFrom none bs
    | some none => some [b] :: chunksFrom none bs
    | some (some rest) => chunksFrom (some ([b], rest)) bs
  | some (seen, rest), b :: bs =>
    if rest.low ≤ b ∧ b ≤ rest.high then
      match rest.after with
      | 0 => some (seen ++ [b]) :: chunksFrom none bs
      | n + 1 => chunksFrom (some (seen ++ [b], { after := n })) bs
    else
      none ::
        match lead b with
        | none => none :: chunksFrom none bs
        | some none => some [b] :: chunksFrom none bs
        | some (some rest) => chunksFrom (some ([b], rest)) bs

def chunks (bs : List UInt8) : List (Option (List UInt8)) := chunksFrom none bs

/-- The bytes of U+FFFD. -/
def replacement : List UInt8 := [0xEF, 0xBF, 0xBD]

def lossy (bs : List UInt8) : List UInt8 := (chunks bs).flatMap fun chunk => chunk.getD replacement

def Valid (bs : List UInt8) : Prop := ∀ chunk ∈ chunks bs, chunk.isSome

instance (bs : List UInt8) : Decidable (Valid bs) :=
  inferInstanceAs (Decidable (∀ chunk ∈ chunks bs, chunk.isSome))

/-- A text, by its bytes. -/
abbrev Text : Type := { bs : List UInt8 // Valid bs }

/-- INTERNAL: what is cut off of a sequence that is not going on. -/
theorem not_forall_isSome_cons (l : List (Option (List UInt8))) :
    ¬ ∀ chunk ∈ none :: l, chunk.isSome := fun h => by
  have hnone := h none List.mem_cons_self
  cases hnone

/-- INTERNAL: valid bytes are the bytes of their sequences. -/
theorem flatMap_chunksFrom {bs : List UInt8} {seen : Option (List UInt8 × Rest)}
    (h : ∀ chunk ∈ chunksFrom seen bs, chunk.isSome) :
    (chunksFrom seen bs).flatMap (fun chunk => chunk.getD replacement) =
      (seen.elim [] Prod.fst) ++ bs := by
  induction bs generalizing seen with
  | nil =>
    cases seen with
    | none => rfl
    | some p => exact absurd h (not_forall_isSome_cons _)
  | cons b bs ih =>
    cases seen with
    | none =>
      simp only [chunksFrom] at h ⊢
      cases hlead : lead b with
      | none =>
        rw [hlead] at h
        exact absurd h (not_forall_isSome_cons _)
      | some rest =>
        cases rest with
        | none =>
          rw [hlead] at h
          rw [List.flatMap_cons, ih fun chunk hc => h chunk (List.mem_cons_of_mem _ hc)]
          rfl
        | some rest =>
          rw [hlead] at h
          exact ih h
    | some p =>
      obtain ⟨start, rest⟩ := p
      simp only [chunksFrom] at h ⊢
      by_cases hin : rest.low ≤ b ∧ b ≤ rest.high
      · rw [if_pos hin] at h ⊢
        cases hafter : rest.after with
        | zero =>
          rw [hafter] at h
          rw [List.flatMap_cons, ih fun chunk hc => h chunk (List.mem_cons_of_mem _ hc)]
          simp only [Option.getD_some, Option.elim_none, Option.elim_some, List.nil_append,
            List.append_assoc, List.singleton_append]
        | succ n =>
          rw [hafter] at h
          rw [ih h]
          simp only [Option.elim_some, List.append_assoc, List.singleton_append]
      · rw [if_neg hin] at h
        exact absurd h (not_forall_isSome_cons _)

theorem lossy_eq_self {bs : List UInt8} (h : Valid bs) : lossy bs = bs := flatMap_chunksFrom h

theorem valid_of_ascii {bs : List UInt8} (h : ∀ b ∈ bs, b < 0x80) : Valid bs := by
  induction bs with
  | nil =>
    intro chunk hc
    cases hc
  | cons b bs ih =>
    have hb := h b List.mem_cons_self
    intro chunk hc
    unfold chunks chunksFrom lead at hc
    rw [if_pos hb] at hc
    obtain rfl | hc := List.mem_cons.mp hc
    · rfl
    · exact ih (fun c hmem => h c (List.mem_cons_of_mem b hmem)) chunk hc

end Utf8
