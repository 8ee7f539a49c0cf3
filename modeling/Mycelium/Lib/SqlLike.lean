import Mathlib.Data.List.Infix

/-!
# SQL's LIKE with an escape character

A pattern is read as tokens: a literal character, `_` for any one character and `%` for any
text; an escape character makes the one after it literal, and a pattern that ends in one
matches nothing. Literals are compared up to a fold of the characters, the database's rule
for letter case.

`like_literals` is the rule for a pattern that is a text followed by `%`: it matches the
texts that begin with it, up to the fold.
-/

set_option autoImplicit false

namespace SqlLike

inductive Token where
  | lit (c : Char)
  | anyChar
  | anyText
  deriving DecidableEq, Repr

/-- The tokens of a pattern, none when it ends in the escape character. -/
def tokens (escape : Char) : List Char → Option (List Token)
  | [] => some []
  | c :: cs =>
    if c = escape then
      match cs with
      | [] => none
      | d :: ds => (tokens escape ds).map (.lit d :: ·)
    else if c = '%' then (tokens escape cs).map (.anyText :: ·)
    else if c = '_' then (tokens escape cs).map (.anyChar :: ·)
    else (tokens escape cs).map (.lit c :: ·)

def matchTokens (fold : Char → Char) : List Token → List Char → Bool
  | [], text => text.isEmpty
  | .lit c :: ts, text =>
    match text with
    | [] => false
    | d :: rest => fold c = fold d && matchTokens fold ts rest
  | .anyChar :: ts, text =>
    match text with
    | [] => false
    | _ :: rest => matchTokens fold ts rest
  | .anyText :: ts, text => text.tails.any (matchTokens fold ts)

def like (fold : Char → Char) (escape : Char) (pattern text : List Char) : Bool :=
  match tokens escape pattern with
  | none => false
  | some ts => matchTokens fold ts text

variable {fold : Char → Char} {escape : Char}

theorem tokens_escaped (d : Char) (ds : List Char) :
    tokens escape (escape :: d :: ds) = (tokens escape ds).map (.lit d :: ·) := by
  conv_lhs => unfold tokens
  rw [if_pos rfl]

theorem tokens_plain {c : Char} (hescape : c ≠ escape) (htext : c ≠ '%') (hchar : c ≠ '_')
    (cs : List Char) : tokens escape (c :: cs) = (tokens escape cs).map (.lit c :: ·) := by
  conv_lhs => unfold tokens
  rw [if_neg hescape, if_neg htext, if_neg hchar]

theorem matchTokens_anyText (text : List Char) : matchTokens fold [.anyText] text = true := by
  simp only [matchTokens, List.any_eq_true, List.mem_tails, List.isEmpty_iff]
  exact ⟨[], List.nil_suffix, rfl⟩

/-- Literal characters and then any text. -/
theorem matchTokens_literals (cs text : List Char) :
    matchTokens fold (cs.map .lit ++ [.anyText]) text = (cs.map fold).isPrefixOf (text.map fold) := by
  induction cs generalizing text with
  | nil => simp [matchTokens_anyText]
  | cons c cs ih =>
    cases text with
    | nil => rfl
    | cons d text =>
      simp only [List.map_cons, List.cons_append, matchTokens, List.isPrefixOf, ih text]
      rfl

/-- A pattern that reads as literal characters and a last `%`. -/
theorem like_literals {pattern cs : List Char}
    (h : tokens escape pattern = some (cs.map .lit ++ [.anyText])) (text : List Char) :
    like fold escape pattern text = (cs.map fold).isPrefixOf (text.map fold) := by
  unfold like
  rw [h]
  exact matchTokens_literals cs text

end SqlLike
