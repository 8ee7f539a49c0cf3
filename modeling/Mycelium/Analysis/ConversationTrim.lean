import Mathlib.Data.List.TakeWhile
import Mycelium.Model.Conversation

/-!
# What the trim of a conversation keeps

1. *Units.* Each unit is a pair, a call with its results, or one turn (`units_induct`). The
   places between units are exactly those that split no pair and no call from its results
   (`cut_iff`).
2. *The guards.* Which cuts keep the final user turn and the last unit (`le_droppableMax_iff`,
   `allowed_iff`).
3. *The loop.* It stops at the first cut that fits, or at the last that is allowed
   (`dropCount_spec`).
4. *The trim.* What it returns (`trim_keeps_shape`), and when that fits the budget
   (`trim_budget_iff`).
-/

set_option autoImplicit false

namespace Mycelium.Analysis.ConversationTrim

open Mycelium.Model.Conversation

/-! ## Units -/

/-- A unit, before the turns that follow it. -/
inductive IsUnit : List ConversationTurn → List ConversationTurn → Prop
  | pair (question answer : String) (rest : List ConversationTurn) :
      IsUnit [.user question, .assistant answer] rest
  | block (calls : List ToolCall) {results rest : List ConversationTurn}
      (hresults : ∀ t ∈ results, t.isToolResult = true)
      (hend : ∀ t ∈ rest.head?, t.isToolResult = false) :
      IsUnit (.assistantToolCalls calls :: results) rest
  | single {turn : ConversationTurn} {rest : List ConversationTurn}
      (hcalls : ∀ calls, turn ≠ .assistantToolCalls calls)
      (hpair : turn.isUser = true → ∀ answer, .assistant answer ∉ rest.head?) :
      IsUnit [turn] rest

theorem IsUnit.ne_nil {unit rest : List ConversationTurn} (h : IsUnit unit rest) : unit ≠ [] := by
  cases h with
  | pair => exact List.cons_ne_nil _ _
  | block => exact List.cons_ne_nil _ _
  | single => exact List.cons_ne_nil _ _

/-- INTERNAL: the first unit. -/
theorem isUnit_take (turn : ConversationTurn) (rest : List ConversationTurn) :
    IsUnit ((turn :: rest).take (unitLength (turn :: rest)))
      ((turn :: rest).drop (unitLength (turn :: rest))) := by
  generalize hturns : turn :: rest = turns
  unfold unitLength
  split
  · exact .pair _ _ _
  · rename_i calls rest
    rw [Nat.add_comm 1, List.take_succ_cons, List.drop_succ_cons]
    have hsplit := List.takeWhile_append_dropWhile (p := ConversationTurn.isToolResult) (l := rest)
    have hresults : ∀ t ∈ rest.takeWhile ConversationTurn.isToolResult, t.isToolResult = true :=
      fun t ht => List.mem_takeWhile_imp ht
    have hend : ∀ t ∈ (rest.dropWhile ConversationTurn.isToolResult).head?,
        t.isToolResult = false := by
      intro t ht
      have hne : rest.dropWhile ConversationTurn.isToolResult ≠ [] := by
        intro hnil
        rw [hnil] at ht
        cases ht
      rw [List.head?_eq_some_head hne] at ht
      obtain rfl := Option.some.inj ht
      exact List.head_dropWhile_not ConversationTurn.isToolResult hne
    generalize rest.takeWhile ConversationTurn.isToolResult = results at hsplit hresults ⊢
    generalize rest.dropWhile ConversationTurn.isToolResult = tail at hsplit hend
    subst hsplit
    rw [List.take_left, List.drop_left]
    exact .block calls hresults hend
  · rename_i hpair hblock
    subst hturns
    refine .single ?_ ?_
    · rintro calls rfl
      exact hblock calls rest rfl
    · intro huser answer hmem
      cases turn with
      | user question =>
        cases rest with
        | nil => cases hmem
        | cons next rest =>
          obtain rfl : next = .assistant answer := Option.some.inj hmem
          exact hpair question answer rest rfl
      | _ => cases huser

theorem unitLength_append {unit rest : List ConversationTurn} (h : IsUnit unit rest) :
    unitLength (unit ++ rest) = unit.length := by
  cases h with
  | pair => rfl
  | @block calls results _ hresults hend =>
    have htake : (results ++ rest).takeWhile ConversationTurn.isToolResult = results := by
      rw [List.takeWhile_append_of_pos hresults]
      cases rest with
      | nil => exact List.append_nil results
      | cons next rest =>
        rw [List.takeWhile_cons_of_neg (by simp [hend next rfl]), List.append_nil]
    show 1 + ((results ++ rest).takeWhile ConversationTurn.isToolResult).length = _
    rw [htake, List.length_cons, Nat.add_comm]
  | @single turn _ hcalls hpair =>
    cases turn with
    | user question =>
      cases rest with
      | nil => rfl
      | cons next rest =>
        cases next with
        | assistant answer => exact absurd rfl (hpair rfl answer)
        | _ => rfl
    | assistantToolCalls calls => exact absurd rfl (hcalls calls)
    | assistant => rfl
    | toolResult => rfl

theorem units_append {unit rest : List ConversationTurn} (h : IsUnit unit rest) :
    units (unit ++ rest) = unit :: units rest := by
  have hlength := unitLength_append h
  cases hturns : unit ++ rest with
  | nil => exact absurd (List.append_eq_nil_iff.mp hturns).1 h.ne_nil
  | cons turn tail =>
    rw [units, ← hturns, hlength, List.take_left, List.drop_left]

/-- Conversations, unit by unit. -/
theorem units_induct {motive : List ConversationTurn → Prop} (nil : motive [])
    (unit : ∀ unit rest, IsUnit unit rest → motive rest → motive (unit ++ rest))
    (turns : List ConversationTurn) : motive turns := by
  fun_induction units turns with
  | case1 => exact nil
  | case2 turn rest ih =>
    have hmotive := unit _ _ (isUnit_take turn rest) ih
    rw [List.take_append_drop] at hmotive
    exact hmotive

theorem flatten_units (turns : List ConversationTurn) : (units turns).flatten = turns := by
  induction turns using units_induct with
  | nil => simp [units]
  | unit unit rest hunit ih => rw [units_append hunit, List.flatten_cons, ih]

/-- Between the two parts a pair is split, or a call from one of its results. -/
inductive Splits : List ConversationTurn → List ConversationTurn → Prop
  | pair (before : List ConversationTurn) (question answer : String)
      (after : List ConversationTurn) :
      Splits (before ++ [.user question]) (.assistant answer :: after)
  | block (before : List ConversationTurn) (calls : List ToolCall)
      {results : List ConversationTurn} {result : ConversationTurn} (after : List ConversationTurn)
      (hresults : ∀ t ∈ results, t.isToolResult = true) (hresult : result.isToolResult = true) :
      Splits (before ++ .assistantToolCalls calls :: results) (result :: after)

theorem not_splits_nil (kept : List ConversationTurn) : ¬ Splits [] kept := by
  intro h
  generalize hnil : ([] : List ConversationTurn) = dropped at h
  cases h with
  | pair => exact absurd hnil.symm (List.append_ne_nil_of_right_ne_nil _ (List.cons_ne_nil _ _))
  | block => exact absurd hnil.symm (List.append_ne_nil_of_right_ne_nil _ (List.cons_ne_nil _ _))

theorem Splits.append {dropped kept : List ConversationTurn} (h : Splits dropped kept)
    (unit : List ConversationTurn) : Splits (unit ++ dropped) kept := by
  cases h with
  | pair before question answer after =>
    rw [← List.append_assoc]
    exact .pair (unit ++ before) question answer after
  | block before calls after hresults hresult =>
    rw [← List.append_assoc]
    exact .block (unit ++ before) calls after hresults hresult

/-- INTERNAL: what is split behind a unit is split behind that unit. -/
theorem Splits.of_append {unit dropped kept : List ConversationTurn}
    (hunit : IsUnit unit (dropped ++ kept)) (h : Splits (unit ++ dropped) kept) :
    Splits dropped kept := by
  generalize hall : unit ++ dropped = all at h
  cases h with
  | pair before question answer after =>
    obtain rfl | ⟨d, x, rfl⟩ := List.eq_nil_or_concat dropped
    · -- the question is the last turn of the unit
      have hlast := congrArg List.getLast? hall
      rw [List.append_nil, List.getLast?_concat] at hlast
      exfalso
      cases hunit with
      | pair => simp at hlast
      | @block calls results _ hresults =>
        obtain rfl | ⟨results, last, rfl⟩ := List.eq_nil_or_concat results
        · simp at hlast
        · have hresult := hresults last (by simp)
          rw [List.concat_eq_append, ← List.cons_append, List.getLast?_concat] at hlast
          rw [Option.some.inj hlast] at hresult
          cases hresult
      | @single turn _ hcalls hpair =>
        have hturn : turn = .user question := Option.some.inj hlast
        exact hpair (by rw [hturn]; rfl) answer rfl
    · rw [List.concat_eq_append, ← List.append_assoc] at hall
      obtain ⟨-, hx⟩ := List.append_inj' hall rfl
      rw [List.concat_eq_append, hx]
      exact .pair d question answer after
  | @block before calls results result after hresults hresult =>
    obtain ⟨m, rfl, hm⟩ | ⟨m, rfl, hm⟩ := List.append_eq_append_iff.mp hall
    · rw [hm]
      exact .block m calls after hresults hresult
    · cases m with
      | nil =>
        rw [List.nil_append] at hm
        rw [← hm]
        exact .block [] calls after hresults hresult
      | cons call m =>
        -- the call stands in the unit, so its results do as well
        obtain ⟨rfl, rfl⟩ := List.cons.inj hm
        exfalso
        have hnext : ∀ t ∈ (dropped ++ result :: after).head?, t.isToolResult = true := by
          cases dropped with
          | nil =>
            rintro t ht
            rw [← Option.some.inj ht]
            exact hresult
          | cons t d =>
            rintro t' ht
            rw [← Option.some.inj ht]
            exact hresults t (by simp)
        generalize hu : before ++ ConversationTurn.assistantToolCalls calls :: m = unit at hunit
        have hmem : ConversationTurn.assistantToolCalls calls ∈ unit := by
          rw [← hu]
          simp
        cases hunit with
        | pair => simp at hmem
        | block calls' hall' hend =>
          cases dropped with
          | nil => exact absurd (hnext result rfl) (by simp [hend result rfl])
          | cons t d => exact absurd (hnext t rfl) (by simp [hend t rfl])
        | single hcalls => exact hcalls calls (List.mem_singleton.mp hmem).symm

/-- INTERNAL: within a unit there is something to split. -/
theorem splits_of_isUnit {a b rest : List ConversationTurn} (hunit : IsUnit (a ++ b) rest)
    (ha : a ≠ []) (hb : b ≠ []) : Splits a (b ++ rest) := by
  obtain ⟨x, a, rfl⟩ := List.exists_cons_of_ne_nil ha
  obtain ⟨y, b, rfl⟩ := List.exists_cons_of_ne_nil hb
  generalize hall : x :: a ++ y :: b = unit at hunit
  cases hunit with
  | pair question answer =>
    obtain ⟨rfl, htail⟩ := List.cons.inj hall
    obtain ⟨rfl, hy⟩ := List.append_eq_singleton_iff.mp htail |>.resolve_right (by simp)
    obtain ⟨rfl, rfl⟩ := List.cons.inj hy
    exact .pair [] question answer rest
  | block calls hresults =>
    obtain ⟨rfl, rfl⟩ := List.cons.inj hall
    exact .block [] calls (b ++ rest) (fun t ht => hresults t (List.mem_append_left _ ht))
      (hresults y (by simp))
  | single =>
    have hlength := congrArg List.length hall
    simp at hlength

/-- The places that split nothing are those between units. -/
theorem cut_iff {turns dropped kept : List ConversationTurn} (hturns : turns = dropped ++ kept) :
    ¬ Splits dropped kept ↔ ∃ n, dropped = ((units turns).take n).flatten := by
  induction turns using units_induct generalizing dropped with
  | nil =>
    obtain ⟨rfl, rfl⟩ := List.append_eq_nil_iff.mp hturns.symm
    exact iff_of_true (not_splits_nil []) ⟨0, rfl⟩
  | unit unit rest hunit ih =>
    rw [units_append hunit]
    -- behind the first unit
    have hbehind {d : List ConversationTurn} (hrest : rest = d ++ kept) :
        ¬ Splits (unit ++ d) kept ↔ ∃ n, unit ++ d = ((unit :: units rest).take n).flatten := by
      have hsplits : Splits (unit ++ d) kept ↔ Splits d kept := by
        rw [hrest] at hunit
        exact ⟨.of_append hunit, fun h => h.append unit⟩
      rw [hsplits, ih hrest]
      constructor
      · rintro ⟨n, rfl⟩
        exact ⟨n + 1, rfl⟩
      · rintro ⟨n, hn⟩
        cases n with
        | zero => exact absurd (List.append_eq_nil_iff.mp hn).1 hunit.ne_nil
        | succ n => exact ⟨n, List.append_cancel_left hn⟩
    obtain ⟨d, rfl, hrest⟩ | ⟨m, rfl, rfl⟩ := List.append_eq_append_iff.mp hturns
    · exact hbehind hrest
    · by_cases hm : m = []
      · subst hm
        have h := hbehind (d := []) (List.nil_append rest).symm
        rw [List.append_nil] at h
        simpa using h
      · by_cases hdropped : dropped = []
        · subst hdropped
          exact iff_of_true (not_splits_nil _) ⟨0, rfl⟩
        · refine iff_of_false (not_not_intro (splits_of_isUnit hunit hdropped hm)) ?_
          rintro ⟨n, hn⟩
          cases n with
          | zero => exact hdropped hn
          | succ n =>
            have hlength := congrArg List.length hn
            have hpos := List.length_pos_iff.mpr hm
            simp only [List.take_succ_cons, List.flatten_cons, List.length_append] at hlength
            omega

/-! ## The guards -/

/-- The final user turn, and what follows it, is kept. -/
def KeepsFinalUser (turns kept : List ConversationTurn) : Prop :=
  ∀ before text after, turns = before ++ .user text :: after →
    (∀ t ∈ after, t.isUser = false) → .user text :: after <:+ kept

/-- The last unit is kept. -/
def KeepsLastUnit (turns kept : List ConversationTurn) : Prop :=
  ∀ unit ∈ (units turns).getLast?, unit <:+ kept

/-- What may be kept: the turns behind a place between units, with the final user turn and the
last unit among them. -/
structure Allowed (turns kept : List ConversationTurn) : Prop where
  cut : ∃ dropped, turns = dropped ++ kept ∧ ¬ Splits dropped kept
  user : KeepsFinalUser turns kept
  last : KeepsLastUnit turns kept

/-- INTERNAL: the last entry with a property. -/
theorem last_of_any {α : Type} {p : α → Bool} {l : List α} (h : ∃ a ∈ l, p a = true) :
    ∃ before a after, l = before ++ a :: after ∧ p a = true ∧ ∀ b ∈ after, p b = false := by
  induction l with
  | nil => simp at h
  | cons a l ih =>
    by_cases hl : ∃ b ∈ l, p b = true
    · obtain ⟨before, b, after, rfl, hb, hafter⟩ := ih hl
      exact ⟨a :: before, b, after, rfl, hb, hafter⟩
    · refine ⟨[], a, l, rfl, ?_, ?_⟩
      · obtain ⟨b, hb, hp⟩ := h
        obtain rfl | hb := List.mem_cons.mp hb
        · exact hp
        · exact absurd ⟨b, hb, hp⟩ hl
      · intro b hb
        exact eq_false_of_ne_true fun hp => hl ⟨b, hb, hp⟩

theorem isUser_iff {turn : ConversationTurn} : turn.isUser = true ↔ ∃ text, turn = .user text := by
  cases turn with
  | user text => exact iff_of_true rfl ⟨text, rfl⟩
  | _ => exact iff_of_false Bool.false_ne_true (by simp)

/-- INTERNAL: the final user turn is kept where there is a user turn to keep. -/
theorem keepsFinalUser_iff {turns dropped kept : List ConversationTurn}
    (hturns : turns = dropped ++ kept) : KeepsFinalUser turns kept ↔
      ((∃ t ∈ turns, t.isUser = true) → ∃ t ∈ kept, t.isUser = true) := by
  constructor
  · intro hkeeps huser
    obtain ⟨before, turn, after, hsplit, hturn, hafter⟩ := last_of_any huser
    obtain ⟨text, rfl⟩ := isUser_iff.mp hturn
    have hsuffix := hkeeps before text after hsplit hafter
    exact ⟨_, hsuffix.subset List.mem_cons_self, rfl⟩
  · rintro huser before text after hsplit hafter
    obtain ⟨t, ht, htuser⟩ := huser ⟨.user text, by rw [hsplit]; simp, rfl⟩
    rw [hturns] at hsplit
    obtain ⟨m, rfl, hm⟩ | ⟨m, rfl, hm⟩ := List.append_eq_append_iff.mp hsplit
    · rw [hm]
      exact List.suffix_append m _
    · cases m with
      | nil =>
        rw [List.nil_append] at hm
        exact hm ▸ List.suffix_refl _
      | cons _ m =>
        -- what is kept stands behind the final user turn
        obtain ⟨-, rfl⟩ := List.cons.inj hm
        rw [hafter t (List.mem_append_right m ht)] at htuser
        cases htuser

theorem rposition_cons {α : Type} (p : α → Bool) (a : α) (l : List α) :
    rposition p (a :: l) =
      (match rposition p l with
      | some i => some (i + 1)
      | none => if p a then some 0 else none) := by
  rw [rposition, rposition, List.reverse_cons, List.findIdx?_append]
  cases hfind : l.reverse.findIdx? p with
  | none =>
    cases hp : p a with
    | false => simp [hp]
    | true => simp [hp]
  | some i =>
    have hlt := (List.findIdx?_eq_some_iff_findIdx_eq.mp hfind).1
    rw [List.length_reverse] at hlt
    show some ((a :: l).length - 1 - i) = some (l.length - 1 - i + 1)
    rw [List.length_cons]
    congr 1
    omega

/-- INTERNAL: up to the last entry with a property there is one. -/
theorem le_rposition_iff {α : Type} (p : α → Bool) {l : List α} {n : ℕ} (hn : n ≤ l.length) :
    n ≤ (rposition p l).getD l.length ↔
      ((∃ a ∈ l, p a = true) → ∃ a ∈ l.drop n, p a = true) := by
  induction l generalizing n with
  | nil =>
    obtain rfl := Nat.le_zero.mp hn
    simp
  | cons a l ih =>
    rw [rposition_cons]
    cases n with
    | zero => simp
    | succ n =>
      have hrest := ih (Nat.le_of_succ_le_succ hn)
      rw [List.drop_succ_cons]
      cases hpos : rposition p l with
      | none =>
        have hnone : ∀ b ∈ l, p b = false := by
          rw [rposition, Option.map_eq_none_iff, List.findIdx?_eq_none_iff] at hpos
          intro b hb
          exact hpos b (List.mem_reverse.mpr hb)
        have hdrop : ¬ ∃ b ∈ l.drop n, p b = true := by
          rintro ⟨b, hb, hp⟩
          rw [hnone b (List.mem_of_mem_drop hb)] at hp
          cases hp
        cases hp : p a with
        | true =>
          refine iff_of_false ?_ fun h => hdrop (h ⟨a, List.mem_cons_self, hp⟩)
          simp
        | false =>
          refine iff_of_true ?_ ?_
          · simpa using hn
          · rintro ⟨b, hb, hpb⟩
            obtain rfl | hb := List.mem_cons.mp hb
            · rw [hp] at hpb
              cases hpb
            · rw [hnone b hb] at hpb
              cases hpb
      | some i =>
        rw [hpos] at hrest
        have hsome : ∃ b ∈ l, p b = true := by
          by_contra hnone
          have hnone' : l.reverse.findIdx? p = none := by
            rw [List.findIdx?_eq_none_iff]
            intro b hb
            exact eq_false_of_ne_true fun hp => hnone ⟨b, List.mem_reverse.mp hb, hp⟩
          rw [rposition, hnone'] at hpos
          cases hpos
        have hsome' : ∃ b ∈ a :: l, p b = true := by
          obtain ⟨b, hb, hp⟩ := hsome
          exact ⟨b, List.mem_cons_of_mem a hb, hp⟩
        simp only [hsome', hsome, true_implies, Option.getD_some] at hrest ⊢
        rw [← hrest]
        omega

theorem any_isUser_iff {us : List (List ConversationTurn)} :
    (∃ unit ∈ us, unit.any ConversationTurn.isUser = true) ↔ ∃ t ∈ us.flatten, t.isUser = true := by
  simp only [List.any_eq_true, List.mem_flatten]
  constructor
  · rintro ⟨unit, hunit, t, ht, huser⟩
    exact ⟨t, ⟨unit, hunit, ht⟩, huser⟩
  · rintro ⟨t, ⟨unit, hunit, ht⟩, huser⟩
    exact ⟨unit, hunit, t, ht, huser⟩

theorem ne_nil_of_mem_units {turns unit : List ConversationTurn} (h : unit ∈ units turns) :
    unit ≠ [] := by
  induction turns using units_induct with
  | nil => simp [units] at h
  | unit first rest hunit ih =>
    rw [units_append hunit] at h
    obtain rfl | h := List.mem_cons.mp h
    · exact hunit.ne_nil
    · exact ih h

/-- INTERNAL: the last unit is kept where a unit is kept. -/
theorem keepsLastUnit_iff {turns : List ConversationTurn} (n : ℕ) :
    KeepsLastUnit turns ((units turns).drop n).flatten ↔
      n < (units turns).length ∨ units turns = [] := by
  rw [KeepsLastUnit]
  obtain hnil | ⟨us, last, hus⟩ := List.eq_nil_or_concat (units turns)
  · rw [hnil]
    simp
  · rw [List.concat_eq_append] at hus
    have hne : last ≠ [] := @ne_nil_of_mem_units turns last (by rw [hus]; simp)
    rw [hus, List.getLast?_concat]
    simp only [Option.mem_def, Option.some.injEq, forall_eq', List.length_append,
      List.length_singleton, List.append_ne_nil_of_right_ne_nil _ (List.cons_ne_nil last []),
      or_false]
    constructor
    · intro hsuffix
      by_contra hle
      rw [List.drop_of_length_le (by simp; omega)] at hsuffix
      exact hne (List.suffix_nil.mp hsuffix)
    · intro hlt
      rw [List.drop_append_of_le_length (by omega), List.flatten_append, List.flatten_singleton]
      exact List.suffix_append _ _

/-- What may be kept, by how many units are dropped. -/
theorem allowed_iff {turns kept : List ConversationTurn} : Allowed turns kept ↔
    ∃ n ≤ droppableMax (units turns), kept = ((units turns).drop n).flatten := by
  have hcut (n : ℕ) : turns =
      ((units turns).take n).flatten ++ ((units turns).drop n).flatten := by
    rw [← List.flatten_append, List.take_append_drop, flatten_units]
  have hguards {n : ℕ} (hn : n ≤ (units turns).length) :
      n ≤ droppableMax (units turns) ↔
        KeepsFinalUser turns ((units turns).drop n).flatten ∧
          KeepsLastUnit turns ((units turns).drop n).flatten := by
    rw [keepsFinalUser_iff (hcut n), keepsLastUnit_iff, droppableMax, Nat.le_min, lastUserUnit,
      le_rposition_iff _ hn, any_isUser_iff, any_isUser_iff, flatten_units,
      ← List.length_eq_zero_iff]
    apply and_congr_right
    intro _
    omega
  constructor
  · rintro ⟨⟨dropped, hturns, hsplits⟩, huser, hlast⟩
    obtain ⟨n, hn⟩ := (cut_iff hturns).mp hsplits
    have htake : ((units turns).take n).flatten = ((units turns).take
        (min n (units turns).length)).flatten := by rw [List.take_eq_take_min]
    have hkept : kept = ((units turns).drop (min n (units turns).length)).flatten := by
      have hall := (hcut (min n (units turns).length)).symm.trans hturns
      rw [hn, htake] at hall
      exact (List.append_cancel_left hall).symm
    refine ⟨min n (units turns).length, ?_, hkept⟩
    rw [hguards (Nat.min_le_right ..), ← hkept]
    exact ⟨huser, hlast⟩
  · rintro ⟨n, hn, rfl⟩
    have hlength : n ≤ (units turns).length := by
      have hmax := hn
      rw [droppableMax] at hmax
      omega
    obtain ⟨huser, hlast⟩ := (hguards hlength).mp hn
    exact ⟨⟨_, hcut n, (cut_iff (hcut n)).mpr ⟨n, rfl⟩⟩, huser, hlast⟩

/-! ## The loop -/

/-- The estimate of the turns is within the budget. -/
def InBudget (turns : List ConversationTurn) : Prop :=
  estTokens (bytes turns) ≤ contextTokensBudget

instance (turns : List ConversationTurn) : Decidable (InBudget turns) :=
  inferInstanceAs (Decidable (_ ≤ _))

theorem bytes_append (x y : List ConversationTurn) : bytes (x ++ y) = bytes x + bytes y := by
  simp [bytes]

theorem bytes_flatten (us : List (List ConversationTurn)) :
    bytes us.flatten = (us.map bytes).sum := by
  induction us with
  | nil => rfl
  | cons unit us ih => rw [List.flatten_cons, bytes_append, ih, List.map_cons, List.sum_cons]

/-- INTERNAL: less is in the budget if more is. -/
theorem InBudget.of_suffix {x y : List ConversationTurn} (h : InBudget y) (hxy : x <:+ y) :
    InBudget x := by
  obtain ⟨z, rfl⟩ := hxy
  unfold InBudget estTokens at *
  rw [bytes_append] at h
  omega

/-- The loop stops at the first cut that fits the budget, or at the last it may make. -/
theorem dropCount_spec (us : List (List ConversationTurn)) (more : ℕ) (hmore : more ≤ us.length) :
    dropCount more (us.map bytes).sum (us.map bytes) ≤ more ∧
      (∀ n < dropCount more (us.map bytes).sum (us.map bytes), ¬ InBudget (us.drop n).flatten) ∧
      (dropCount more (us.map bytes).sum (us.map bytes) < more →
        InBudget (us.drop (dropCount more (us.map bytes).sum (us.map bytes))).flatten) := by
  induction us generalizing more with
  | nil =>
    obtain rfl := Nat.le_zero.mp hmore
    simp [dropCount]
  | cons unit us ih =>
    cases more with
    | zero => simp [dropCount]
    | succ more =>
      have hbudget : InBudget (unit :: us).flatten ↔
          ¬ contextTokensBudget < estTokens ((unit :: us).map bytes).sum := by
        rw [InBudget, bytes_flatten, Nat.not_lt]
      have hrest : ((unit :: us).map bytes).sum - bytes unit = (us.map bytes).sum := by
        rw [List.map_cons, List.sum_cons, Nat.add_sub_cancel_left]
      by_cases hfits : contextTokensBudget < estTokens ((unit :: us).map bytes).sum
      · obtain ⟨hle, hover, hstop⟩ := ih more (Nat.le_of_succ_le_succ hmore)
        have hcount : dropCount (more + 1) ((unit :: us).map bytes).sum ((unit :: us).map bytes) =
            dropCount more (us.map bytes).sum (us.map bytes) + 1 := by
          rw [← hrest]
          exact if_pos hfits
        rw [hcount]
        refine ⟨Nat.succ_le_succ hle, ?_, ?_⟩
        · intro n hn
          cases n with
          | zero => exact fun h => hbudget.mp h hfits
          | succ n => exact hover n (Nat.lt_of_succ_lt_succ hn)
        · intro hlt
          exact hstop (Nat.lt_of_succ_lt_succ hlt)
      · have hcount : dropCount (more + 1) ((unit :: us).map bytes).sum ((unit :: us).map bytes) =
            0 := if_neg hfits
        rw [hcount]
        refine ⟨Nat.zero_le _, ?_, fun _ => hbudget.mpr hfits⟩
        intro n hn
        exact absurd hn (Nat.not_lt_zero n)

/-! ## The trim -/

/-- INTERNAL: the more units are dropped, the shorter the end. -/
theorem flatten_drop_suffix {α : Type} (us : List (List α)) {m n : ℕ} (h : m ≤ n) :
    (us.drop n).flatten <:+ (us.drop m).flatten := by
  refine ⟨((us.drop m).take (n - m)).flatten, ?_⟩
  have hdrop : us.drop n = (us.drop m).drop (n - m) := by
    rw [List.drop_drop]
    congr 1
    omega
  rw [← List.flatten_append, hdrop, List.take_append_drop]

/-- INTERNAL: where the trim cuts. -/
theorem trim_cut (turns : List ConversationTurn) : ∃ d ≤ droppableMax (units turns),
    trimConversation turns = ((units turns).drop d).flatten ∧
      (∀ n < d, ¬ InBudget ((units turns).drop n).flatten) ∧
      (d < droppableMax (units turns) → InBudget ((units turns).drop d).flatten) := by
  have hmax : droppableMax (units turns) ≤ (units turns).length := by
    rw [droppableMax]
    omega
  obtain ⟨hle, hover, hstop⟩ := dropCount_spec (units turns) _ hmax
  exact ⟨_, hle, rfl, hover, hstop⟩

/-- What a trim is to return: of what may be kept the most that fits the budget, or else the
least. -/
structure Trimmed (turns kept : List ConversationTurn) : Prop where
  allowed : Allowed turns kept
  fewest : ∀ kept', Allowed turns kept' → kept <:+ kept' → kept' ≠ kept → ¬ InBudget kept'
  enough : ¬ InBudget kept → ∀ kept', Allowed turns kept' → kept <:+ kept'
  unchanged : InBudget turns → kept = turns
  results : ∀ before calls results result after,
    turns = before ++ .assistantToolCalls calls :: (results ++ result :: after) →
    (∀ t ∈ results, t.isToolResult = true) → result.isToolResult = true →
    result :: after <:+ kept → .assistantToolCalls calls :: (results ++ result :: after) <:+ kept

/-- INTERNAL: a result is kept with its call where no call is split from its results. -/
theorem call_kept {dropped kept before results after : List ConversationTurn}
    {calls : List ToolCall} {result : ConversationTurn} (hsplits : ¬ Splits dropped kept)
    (hturns : dropped ++ kept =
      before ++ .assistantToolCalls calls :: (results ++ result :: after))
    (hresults : ∀ t ∈ results, t.isToolResult = true) (hresult : result.isToolResult = true)
    (hkept : result :: after <:+ kept) :
    .assistantToolCalls calls :: (results ++ result :: after) <:+ kept := by
  obtain ⟨m, rfl, hm⟩ | ⟨m, rfl, hm⟩ := List.append_eq_append_iff.mp hturns
  · rw [hm]
    exact List.suffix_append m _
  · cases m with
    | nil =>
      rw [List.nil_append] at hm
      exact hm ▸ List.suffix_refl _
    | cons call m =>
      obtain ⟨rfl, htail⟩ := List.cons.inj hm
      exfalso
      apply hsplits
      obtain ⟨k, rfl⟩ := hkept
      -- what is dropped ends within the results
      have hsame : results = m ++ k := by
        have hall : results ++ result :: after = (m ++ k) ++ result :: after := by
          rw [List.append_assoc]
          exact htail
        exact List.append_cancel_right hall
      have hm' : ∀ t ∈ m, t.isToolResult = true := by
        intro t ht
        apply hresults
        rw [hsame]
        exact List.mem_append_left k ht
      cases k with
      | nil => exact .block before calls after hm' hresult
      | cons next k =>
        refine .block before calls (k ++ result :: after) hm' (hresults next ?_)
        rw [hsame]
        simp

/-- **The shape of a trim.** It keeps the final user turn and the last unit, splits nothing,
and drops the fewest units that the budget asks for. SOURCE: llm.rs:627-680 -/
theorem trim_keeps_shape (turns : List ConversationTurn) :
    Trimmed turns (trimConversation turns) := by
  obtain ⟨d, hd, hkept, hover, hstop⟩ := trim_cut turns
  have hallowed : Allowed turns (trimConversation turns) := allowed_iff.mpr ⟨d, hd, hkept⟩
  refine ⟨hallowed, ?_, ?_, ?_, ?_⟩
  · intro kept' hkept' hlonger hne
    obtain ⟨n, hn, rfl⟩ := allowed_iff.mp hkept'
    apply hover
    by_contra hle
    have hshorter := flatten_drop_suffix (units turns) (Nat.not_lt.mp hle)
    rw [← hkept] at hshorter
    exact hne (hshorter.eq_of_length_le hlonger.length_le)
  · intro hbudget kept' hkept'
    obtain ⟨n, hn, rfl⟩ := allowed_iff.mp hkept'
    rw [hkept] at hbudget ⊢
    have hall : d = droppableMax (units turns) := by
      by_contra hne
      exact hbudget (hstop (by omega))
    exact flatten_drop_suffix (units turns) (by omega)
  · intro hbudget
    cases d with
    | zero => rw [hkept, List.drop_zero, flatten_units]
    | succ d =>
      have h0 := hover 0 (Nat.succ_pos d)
      rw [List.drop_zero, flatten_units] at h0
      exact absurd hbudget h0
  · intro before calls results result after hturns hresults hresult hsub
    obtain ⟨dropped, hcut, hsplits⟩ := hallowed.cut
    exact call_kept hsplits (hcut.symm.trans hturns) hresults hresult hsub

/-! ## The budget -/

/-- The unit with the final user turn and the last unit, nothing else. -/
def guarded (turns : List ConversationTurn) : List ConversationTurn :=
  match lastUserUnit (units turns) with
  | some i =>
    if i + 1 < (units turns).length then
      ((units turns)[i]?.getD []) ++ ((units turns).getLast?.getD [])
    else (units turns).getLast?.getD []
  | none => (units turns).getLast?.getD []

/-- The turns from the unit of the final user turn on, or from the last unit on where there is
no user turn. -/
def fromFinalUser (turns : List ConversationTurn) : List ConversationTurn :=
  ((units turns).drop (droppableMax (units turns))).flatten

/-- The trim fits the budget, unless the guarded units alone do not. -/
def MeetsBudget (turns : List ConversationTurn) : Prop :=
  InBudget (trimConversation turns) ∨ ¬ InBudget (guarded turns)

/-- INTERNAL: what is kept at least. -/
theorem inBudget_trim_iff (turns : List ConversationTurn) :
    InBudget (trimConversation turns) ↔ InBudget (fromFinalUser turns) := by
  obtain ⟨d, hd, hkept, -, hstop⟩ := trim_cut turns
  rw [hkept]
  obtain rfl | hlt := Nat.eq_or_lt_of_le hd
  · exact Iff.rfl
  · exact iff_of_true (hstop hlt) ((hstop hlt).of_suffix (flatten_drop_suffix (units turns) hd))

/-- **The budget of a trim.** It is met where the turns from the final user turn on fit it, or
where the guarded units do not. SOURCE: llm.rs:627-642, 656-667 -/
theorem trim_budget_iff (turns : List ConversationTurn) :
    MeetsBudget turns ↔ InBudget (fromFinalUser turns) ∨ ¬ InBudget (guarded turns) :=
  or_congr_left (inBudget_trim_iff turns)

/-- INTERNAL: there are long texts. -/
theorem exists_utf8ByteSize (n : ℕ) : ∃ text : String, text.utf8ByteSize = 2 ^ n := by
  induction n with
  | zero => exact ⟨"x", rfl⟩
  | succ n ih =>
    obtain ⟨text, htext⟩ := ih
    refine ⟨text ++ text, ?_⟩
    rw [String.utf8ByteSize_append, htext, Nat.pow_succ]
    omega

/-- A tool call with its result. -/
def toolTurns (id result : String) : List ConversationTurn :=
  [.assistantToolCalls [⟨id, "function", "read_concept", "{}"⟩], .toolResult id result]

theorem isUnit_toolTurns (id result : String) {rest : List ConversationTurn}
    (hend : ∀ t ∈ rest.head?, t.isToolResult = false) : IsUnit (toolTurns id result) rest := by
  apply IsUnit.block
  · intro t ht
    rw [List.mem_singleton.mp ht]
    rfl
  · exact hend

/-- A question and two tool calls. -/
def toolLoop (result : String) : List ConversationTurn :=
  [.user "q"] ++ (toolTurns "a" result ++ (toolTurns "b" "" ++ []))

theorem units_toolLoop (result : String) :
    units (toolLoop result) = [[.user "q"], toolTurns "a" result, toolTurns "b" ""] := by
  have hquestion : IsUnit [.user "q"] (toolTurns "a" result ++ (toolTurns "b" "" ++ [])) := by
    apply IsUnit.single
    · intro calls h
      cases h
    · intro _ answer h
      cases h
  have hfirst : ∀ t ∈ (toolTurns "b" "" ++ []).head?, t.isToolResult = false := by
    intro t ht
    rw [← Option.some.inj ht]
    rfl
  rw [toolLoop, units_append hquestion, units_append (isUnit_toolTurns _ _ hfirst),
    units_append (isUnit_toolTurns _ _ (by simp)), units]

/-- A tool loop behind its question is kept whole, however long its results are. -/
theorem tool_loop_kept : ¬ ∀ turns, MeetsBudget turns := by
  intro hall
  obtain ⟨result, hsize⟩ := exists_utf8ByteSize 19
  obtain hfits | hguarded := (or_congr_left (inBudget_trim_iff _)).mp (hall (toolLoop result))
  · rw [fromFinalUser, units_toolLoop] at hfits
    have hbytes : estTokens (bytes (toolLoop result)) ≤ contextTokensBudget := hfits
    simp only [toolLoop, toolTurns, bytes, List.cons_append, List.nil_append, List.map_cons,
      List.map_nil, List.sum_cons, List.sum_nil, turnBytes, hsize, estTokens,
      contextTokensBudget] at hbytes
    omega
  · apply hguarded
    rw [guarded, units_toolLoop]
    show InBudget ([.user "q"] ++ toolTurns "b" "")
    decide

end Mycelium.Analysis.ConversationTrim
