import Mathlib.Data.List.Lex
import Mathlib.Data.Nat.Basic
import Mathlib.Tactic.NormNum
import Mathlib.Tactic.Positivity

/-!
# Decimal numbers of a fixed width

`pad w n` writes a number with `w` digits. Numbers of one width are ordered as texts as
they are ordered (`pad_lt_pad`), and so are records of such numbers with separators between
them (`render_append_lt`), whatever follows. Digits after a decimal point are ordered as the
fractions, however many are written (`pad_lt_pad_of_fraction`). `value` and `unrender` read
numbers and records back.
-/

set_option autoImplicit false

namespace Decimal

/-! ## Texts that begin with texts of one length -/

section Lex

variable {α : Type} [LT α]

/-- A difference in the first parts decides, whatever follows them. -/
theorem append_lt_append {a b s t : List α} (hlen : a.length = b.length) (h : a < b) :
    a ++ s < b ++ t := by
  induction a generalizing b with
  | nil =>
    rw [List.eq_nil_of_length_eq_zero hlen.symm] at h
    exact absurd h (List.not_lt_nil [])
  | cons x a ih =>
    cases b with
    | nil => cases hlen
    | cons y b =>
      rw [List.cons_append, List.cons_append, List.cons_lt_cons_iff]
      rw [List.cons_lt_cons_iff] at h
      rcases h with hxy | ⟨rfl, hab⟩
      · exact .inl hxy
      · exact .inr ⟨rfl, ih (Nat.succ.inj hlen) hab⟩

end Lex

/-! ## Digits -/

def digit (d : ℕ) : Char := Char.ofNat (48 + d)

theorem toNat_digit {d : ℕ} (h : d < 10) : (digit d).toNat = 48 + d := by
  have hall : ∀ d < 10, (digit d).toNat = 48 + d := by decide
  exact hall d h

theorem digit_lt_digit {d e : ℕ} (h : d < e) (he : e < 10) : digit d < digit e := by
  have hd := toNat_digit (h.trans he)
  have he := toNat_digit he
  rw [Char.lt_def]
  show (digit d).toNat < (digit e).toNat
  omega

/-- The last `w` decimal digits of a number. -/
def pad : ℕ → ℕ → List Char
  | 0, _ => []
  | w + 1, n => pad w (n / 10) ++ [digit (n % 10)]

@[simp] theorem length_pad (w n : ℕ) : (pad w n).length = w := by
  induction w generalizing n with
  | zero => rfl
  | succ w ih => rw [pad, List.length_append, ih, List.length_singleton]

/-- Texts of one width are ordered as their numbers. -/
theorem pad_lt_pad {w n m : ℕ} (h : n < m) (hm : m < 10 ^ w) : pad w n < pad w m := by
  induction w generalizing n m with
  | zero => omega
  | succ w ih =>
    have hm' : m / 10 < 10 ^ w := by
      rw [pow_succ] at hm
      omega
    rw [pad, pad]
    rcases Nat.lt_or_ge (n / 10) (m / 10) with hdiv | hdiv
    · exact append_lt_append (by rw [length_pad, length_pad]) (ih hdiv hm')
    · -- the other digits agree, the last one decides
      have heq : n / 10 = m / 10 := by omega
      rw [heq]
      apply List.append_left_lt
      rw [List.cons_lt_cons_iff]
      exact .inl (digit_lt_digit (by omega) (by omega))

theorem pad_add (a b n : ℕ) : pad (a + b) n = pad a (n / 10 ^ b) ++ pad b n := by
  induction b generalizing n with
  | zero => rw [Nat.add_zero, pow_zero, Nat.div_one, pad, List.append_nil]
  | succ b ih =>
    rw [← Nat.add_assoc, pad, ih, pad, ← List.append_assoc, Nat.div_div_eq_div_mul, pow_succ,
      Nat.mul_comm 10]

theorem mem_pad {w n : ℕ} {c : Char} (h : c ∈ pad w n) : ∃ d < 10, c = digit d := by
  induction w generalizing n with
  | zero => cases h
  | succ w ih =>
    rw [pad, List.mem_append, List.mem_singleton] at h
    rcases h with h | rfl
    · exact ih h
    · exact ⟨n % 10, Nat.mod_lt n (by norm_num), rfl⟩

/-- A terminator below the digits comes before further digits. -/
theorem cons_lt_pad {c : Char} (hc : c.toNat < 48) {w : ℕ} (hw : 0 < w) (n : ℕ)
    (s t : List Char) : c :: s < pad w n ++ t := by
  cases hpad : pad w n with
  | nil =>
    have hlen := length_pad w n
    rw [hpad, List.length_nil] at hlen
    omega
  | cons x l =>
    obtain ⟨d, hd, rfl⟩ := mem_pad (hpad ▸ List.mem_cons_self : x ∈ pad w n)
    rw [List.cons_append, List.cons_lt_cons_iff]
    have hx := toNat_digit hd
    left
    rw [Char.lt_def]
    show c.toNat < (digit d).toNat
    omega

/-- The digits after a decimal point, with a terminator below the digits behind them, are
ordered as the fractions, however many digits are written. -/
theorem pad_lt_pad_of_fraction {w w' v v' : ℕ} (hv' : v' < 10 ^ w')
    (h : v * 10 ^ w' < v' * 10 ^ w) {c : Char} (hc : c.toNat < 48) (s t : List Char) :
    pad w v ++ c :: s < pad w' v' ++ t := by
  rcases Nat.le_total w w' with hw | hw
  · obtain ⟨b, rfl⟩ := Nat.exists_eq_add_of_le hw
    have hlt : v * 10 ^ b < v' := by
      rw [pow_add, Nat.mul_comm (10 ^ w), ← Nat.mul_assoc] at h
      exact Nat.lt_of_mul_lt_mul_right h
    have hle : v ≤ v' / 10 ^ b := (Nat.le_div_iff_mul_le (by positivity)).mpr hlt.le
    have hprefix : v' / 10 ^ b < 10 ^ w := by
      rw [Nat.div_lt_iff_lt_mul (by positivity), ← pow_add]
      exact hv'
    rw [pad_add, List.append_assoc]
    rcases hle.lt_or_eq with hvv | hvv
    · exact append_lt_append ((length_pad w v).trans (length_pad w _).symm)
        (pad_lt_pad hvv hprefix)
    · -- the shorter fraction is the beginning of the longer one
      rw [← hvv]
      apply List.append_left_lt
      refine cons_lt_pad hc (Nat.pos_of_ne_zero ?_) v' s t
      rintro rfl
      rw [pow_zero, Nat.div_one] at hvv
      rw [pow_zero, Nat.mul_one] at hlt
      omega
  · obtain ⟨b, rfl⟩ := Nat.exists_eq_add_of_le hw
    have hlt : v < v' * 10 ^ b := by
      rw [pow_add, Nat.mul_comm (10 ^ w'), ← Nat.mul_assoc] at h
      exact Nat.lt_of_mul_lt_mul_right h
    rw [pad_add, List.append_assoc]
    exact append_lt_append ((length_pad w' _).trans (length_pad w' v').symm)
      (pad_lt_pad ((Nat.div_lt_iff_lt_mul (by positivity)).mpr hlt) hv')

/-! ## Reading -/

/-- The number that digits stand for. -/
def value (l : List Char) : ℕ := l.foldl (fun n c => 10 * n + (c.toNat - 48)) 0

theorem value_append_digit (l : List Char) (c : Char) :
    value (l ++ [c]) = 10 * value l + (c.toNat - 48) := by
  rw [value, List.foldl_append]
  rfl

theorem value_pad (w n : ℕ) : value (pad w n) = n % 10 ^ w := by
  induction w generalizing n with
  | zero => rw [pow_zero, Nat.mod_one]; rfl
  | succ w ih =>
    rw [pad, value_append_digit, ih, toNat_digit (Nat.mod_lt n (by norm_num)), pow_succ,
      Nat.mul_comm (10 ^ w) 10, Nat.mod_mul]
    omega

theorem value_pad_of_lt {w n : ℕ} (h : n < 10 ^ w) : value (pad w n) = n := by
  rw [value_pad, Nat.mod_eq_of_lt h]

/-! ## Records -/

/-- Numbers of given widths, each followed by its separator. -/
def render : List (ℕ × List Char) → List ℕ → List Char
  | (w, sep) :: format, n :: ns => pad w n ++ sep ++ render format ns
  | _, _ => []

/-- The numbers have the widths of the format. -/
def Fits : List (ℕ × List Char) → List ℕ → Prop
  | (w, _) :: format, n :: ns => n < 10 ^ w ∧ Fits format ns
  | [], [] => True
  | _, _ => False

/-- Records of one format are ordered as their numbers, the first difference first,
whatever follows the records. -/
theorem render_append_lt {format : List (ℕ × List Char)} {ns ms : List ℕ} (hns : Fits format ns)
    (hms : Fits format ms) (h : ns < ms) (s t : List Char) :
    render format ns ++ s < render format ms ++ t := by
  induction format generalizing ns ms with
  | nil =>
    cases ns with
    | nil =>
      cases ms with
      | nil => exact absurd h (List.not_lt_nil [])
      | cons m ms => exact hms.elim
    | cons n ns => exact hns.elim
  | cons field format ih =>
    obtain ⟨w, sep⟩ := field
    cases ns with
    | nil => exact hns.elim
    | cons n ns =>
      cases ms with
      | nil => exact hms.elim
      | cons m ms =>
        rw [render, render, List.append_assoc, List.append_assoc, List.append_assoc,
          List.append_assoc]
        rw [List.cons_lt_cons_iff] at h
        rcases h with hnm | ⟨rfl, hrest⟩
        · exact append_lt_append (by rw [length_pad, length_pad]) (pad_lt_pad hnm hms.1)
        · apply List.append_left_lt
          apply List.append_left_lt
          exact ih hns.2 hms.2 hrest

/-- The numbers of a record, and what follows it. -/
def unrender : List (ℕ × List Char) → List Char → List ℕ × List Char
  | (w, sep) :: format, cs =>
    let rest := unrender format ((cs.drop w).drop sep.length)
    (value (cs.take w) :: rest.1, rest.2)
  | [], cs => ([], cs)

theorem unrender_render {format : List (ℕ × List Char)} {ns : List ℕ} (hns : Fits format ns)
    (s : List Char) : unrender format (render format ns ++ s) = (ns, s) := by
  induction format generalizing ns with
  | nil =>
    cases ns with
    | nil => rfl
    | cons n ns => exact hns.elim
  | cons field format ih =>
    obtain ⟨w, sep⟩ := field
    cases ns with
    | nil => exact hns.elim
    | cons n ns =>
      have htake : (pad w n ++ sep ++ render format ns ++ s).take w = pad w n := by
        rw [List.append_assoc, List.append_assoc, List.take_left' (length_pad w n)]
      have hdrop : ((pad w n ++ sep ++ render format ns ++ s).drop w).drop sep.length =
          render format ns ++ s := by
        rw [List.append_assoc, List.append_assoc, List.drop_left' (length_pad w n),
          List.drop_left]
      rw [render, unrender, htake, hdrop, ih hns.2, value_pad_of_lt hns.1]

end Decimal
