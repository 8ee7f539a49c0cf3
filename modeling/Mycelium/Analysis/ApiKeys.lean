import Mycelium.Lib.Grouping
import Mycelium.Lib.StepSystem
import Mycelium.Model.ApiKeys

/-!
# Who an API key stands for

A *history* of the keys that were handed out, of the revocations and of the users that went
says which keys are live (`liveKeys`). The unrevoked rows of the table are these keys (`Holds`),
whatever the order of the clients' statements, and a request is resolved by them
(`resolveUser_iff`).
-/

set_option autoImplicit false

namespace Mycelium.Analysis.ApiKeys

open StepSystem Mycelium.Model.Text Mycelium.Model.Timestamps Mycelium.Model.ApiKeys
open Mycelium.Model.RequestGate (SessionUser)

/-! ## The history -/

/-- A key as it was handed out. -/
structure Key where
  token : String
  id : ℕ
  userId : ℕ
  label : String
  deriving DecidableEq

inductive Event where
  | minted (key : Key)
  | revoked (userId id : ℕ)
  | left (userId : ℕ)
  deriving DecidableEq

/-- The keys that were neither revoked by their user nor lost with it; newest first. -/
def liveKeys : List Event → List Key
  | [] => []
  | .minted key :: history => key :: liveKeys history
  | .revoked userId id :: history =>
    (liveKeys history).filter fun key => ¬ (key.userId = userId ∧ key.id = id)
  | .left userId :: history => (liveKeys history).filter fun key => key.userId ≠ userId

/-- The tokens that were ever handed out. -/
def tokens : List Event → List String
  | [] => []
  | .minted key :: history => key.token :: tokens history
  | _ :: history => tokens history

section Table

variable (hashToken : String → String)

def events (s : State) : Action → List Event
  | .mint userId label random id now =>
    if (mint hashToken s userId label random id now).isSome then
      [.minted ⟨tokenOf random, id, userId, label⟩] else []
  | .revoke userId id _ => [.revoked userId id]
  | .deleteUser userId => [.left userId]
  | _ => []

/-- What a row and a key have in common. -/
abbrev View : Type := ℕ × ℕ × String × String

def viewRow (row : ApiKeyRow) : View := (row.id, row.userId, row.keyHash, row.label)

def viewKey (key : Key) : View := (key.id, key.userId, hashToken key.token, key.label)

def unrevoked (keys : List ApiKeyRow) : List ApiKeyRow :=
  keys.filter fun row => row.revokedAt.isNone

/-- The unrevoked rows are the live keys. -/
structure Holds (s : State) (history : List Event) : Prop where
  live : (unrevoked s.keys).map viewRow = (liveKeys history).map (viewKey hashToken)
  ids : (s.keys.map ApiKeyRow.id).Nodup
  hashes : (s.keys.map ApiKeyRow.keyHash).Nodup
  owners : ∀ row ∈ s.keys, (s.getById row.userId).isSome
  shown : ∀ token ∈ tokens history, token ≠ ""

variable {hashToken}

/-- INTERNAL: rows and keys that are dropped by what they have in common. -/
theorem live_filter {s : State} {history : List Event} (h : Holds hashToken s history)
    (p : View → Bool) : ((unrevoked s.keys).filter fun row => p (viewRow row)).map viewRow =
      ((liveKeys history).filter fun key => p (viewKey hashToken key)).map (viewKey hashToken) := by
  have hrows := List.filter_map (f := viewRow) (p := p) (l := unrevoked s.keys)
  have hkeys := List.filter_map (f := viewKey hashToken) (p := p) (l := liveKeys history)
  calc ((unrevoked s.keys).filter fun row => p (viewRow row)).map viewRow
      = ((unrevoked s.keys).map viewRow).filter p := hrows.symm
    _ = ((liveKeys history).map (viewKey hashToken)).filter p := by rw [h.live]
    _ = ((liveKeys history).filter fun key => p (viewKey hashToken key)).map
          (viewKey hashToken) := hkeys

/-! ## Statements -/

theorem tokenOf_ne_empty (random : List UInt8) : tokenOf random ≠ "" := by
  intro hempty
  have hlength := congrArg String.length hempty
  unfold tokenOf at hlength
  rw [String.length_append] at hlength
  have hstart : String.length "myc2-" = 5 := rfl
  simp only [hstart, String.length_empty] at hlength
  omega

theorem holds_minted {s : State} {history : List Event} (h : Holds hashToken s history)
    {userId : ℕ} {label : String} {random : List UInt8} {id : ℕ} {now : Instant} {row : ApiKeyRow}
    (hrow : mint hashToken s userId label random id now = some row) :
    Holds hashToken { s with keys := row :: s.keys }
      (.minted ⟨tokenOf random, id, userId, label⟩ :: history) := by
  unfold mint at hrow
  dsimp only at hrow
  split at hrow
  · cases hrow
  · rename_i hfree
    cases hrow
    obtain ⟨hknown, hnew⟩ := not_or.mp (by simpa only [Bool.or_eq_true] using hfree)
    have hfresh : ∀ row ∈ s.keys, row.id ≠ id ∧ row.keyHash ≠ hashToken (tokenOf random) := by
      intro row hrow
      refine ⟨?_, ?_⟩
      · intro hid
        exact hnew (List.any_eq_true.mpr ⟨row, hrow, by simp [hid]⟩)
      · intro hhash
        exact hnew (List.any_eq_true.mpr ⟨row, hrow, by simp [hhash]⟩)
    refine ⟨?_, ?_, ?_, ?_, ?_⟩
    · change viewRow _ :: (unrevoked s.keys).map viewRow = _
      rw [h.live]
      rfl
    · rw [List.map_cons, List.nodup_cons]
      refine ⟨?_, h.ids⟩
      intro hmem
      obtain ⟨row, hrow, hid⟩ := List.mem_map.mp hmem
      exact (hfresh row hrow).1 hid
    · rw [List.map_cons, List.nodup_cons]
      refine ⟨?_, h.hashes⟩
      intro hmem
      obtain ⟨row, hrow, hhash⟩ := List.mem_map.mp hmem
      exact (hfresh row hrow).2 hhash
    · intro row hrow
      obtain rfl | hrow := List.mem_cons.mp hrow
      · change (s.getById userId).isSome
        cases huser : s.getById userId with
        | none => exact absurd (by rw [huser]; rfl) hknown
        | some user => rfl
      · exact h.owners row hrow
    · intro token htoken
      obtain rfl | htoken := List.mem_cons.mp htoken
      · exact tokenOf_ne_empty random
      · exact h.shown token htoken

theorem holds_left {s : State} {history : List Event} (h : Holds hashToken s history)
    (userId : ℕ) : Holds hashToken
      { users := s.users.filter fun user => user.userId ≠ userId
        keys := s.keys.filter fun row => row.userId ≠ userId } (.left userId :: history) := by
  have hsub : (s.keys.filter fun row => row.userId ≠ userId).Sublist s.keys := List.filter_sublist
  refine ⟨?_, h.ids.sublist (hsub.map _), h.hashes.sublist (hsub.map _), ?_, h.shown⟩
  · have hcomm : unrevoked (s.keys.filter fun row => row.userId ≠ userId) =
        (unrevoked s.keys).filter fun row => row.userId ≠ userId := List.filter_comm _ _ _
    change (unrevoked (s.keys.filter fun row => row.userId ≠ userId)).map viewRow = _
    rw [hcomm]
    exact live_filter h fun v => v.2.1 ≠ userId
  · intro row hrow
    obtain ⟨hmem, hother⟩ := List.mem_filter.mp hrow
    have howner := h.owners row hmem
    unfold State.getById at howner ⊢
    rw [List.find?_isSome] at howner ⊢
    obtain ⟨user, huser, hid⟩ := howner
    refine ⟨user, List.mem_filter.mpr ⟨huser, ?_⟩, hid⟩
    rw [of_decide_eq_true hid]
    exact hother

/-- INTERNAL: an update of rows that leaves what they are known by. -/
theorem holds_map {s : State} {history : List Event} (h : Holds hashToken s history)
    {f : ApiKeyRow → ApiKeyRow} (hview : ∀ row, viewRow (f row) = viewRow row)
    {history' : List Event} (hlive : (unrevoked (s.keys.map f)).map viewRow =
      (liveKeys history').map (viewKey hashToken)) (htokens : tokens history' = tokens history) :
    Holds hashToken { s with keys := s.keys.map f } history' := by
  have hids : ∀ row, (f row).id = row.id := fun row => congrArg Prod.fst (hview row)
  have hhashes : ∀ row, (f row).keyHash = row.keyHash :=
    fun row => congrArg (fun v : View => v.2.2.1) (hview row)
  refine ⟨hlive, ?_, ?_, ?_, htokens ▸ h.shown⟩
  · rw [List.map_map]
    exact (List.map_congr_left fun row _ => hids row) ▸ h.ids
  · rw [List.map_map]
    exact (List.map_congr_left fun row _ => hhashes row) ▸ h.hashes
  · intro row hrow
    obtain ⟨old, hold, rfl⟩ := List.mem_map.mp hrow
    have huser : (f old).userId = old.userId :=
      congrArg (fun v : View => v.2.1) (hview old)
    rw [huser]
    exact h.owners old hold

theorem holds_touch {s : State} {history : List Event} (h : Holds hashToken s history) (id : ℕ)
    (now : Instant) : Holds hashToken { s with
      keys := s.keys.map fun row =>
        if row.id = id then { row with lastUsedAt := some now } else row } history := by
  have hview : ∀ row : ApiKeyRow,
      viewRow (if row.id = id then { row with lastUsedAt := some now } else row) = viewRow row := by
    intro row
    split
    · rfl
    · rfl
  refine holds_map h hview ?_ rfl
  rw [← h.live]
  unfold unrevoked
  rw [List.filter_map, List.map_map]
  have hsame : ∀ row : ApiKeyRow,
      (if row.id = id then { row with lastUsedAt := some now } else row).revokedAt.isNone =
        row.revokedAt.isNone := by
    intro row
    split
    · rfl
    · rfl
  have hfilter : (s.keys.filter fun row =>
      (if row.id = id then { row with lastUsedAt := some now } else row).revokedAt.isNone) =
        s.keys.filter fun row => row.revokedAt.isNone := by
    congr 1
    funext row
    exact hsame row
  refine (congrArg _ hfilter).trans (List.map_congr_left fun row _ => hview row)

/-- INTERNAL: the unrevoked rows after a revocation, where the id is that of rows of the user. -/
theorem unrevoked_revoke {keys : List ApiKeyRow} {userId id : ℕ} (now : Instant)
    (howner : ∀ row ∈ keys, row.id = id → row.userId = userId) :
    unrevoked (keys.map fun row => if row.id = id then row.revoke now else row) =
      (unrevoked keys).filter fun row => ¬ (row.userId = userId ∧ row.id = id) := by
  induction keys with
  | nil => rfl
  | cons row keys ih =>
    have hrest := ih fun r hr => howner r (List.mem_cons_of_mem row hr)
    unfold unrevoked at hrest ⊢
    rw [List.map_cons]
    by_cases hid : row.id = id
    · have hrevoked : (row.revoke now).revokedAt.isNone = false := by
        unfold ApiKeyRow.revoke
        cases row.revokedAt with
        | none => rfl
        | some first => rfl
      rw [if_pos hid, List.filter_cons_of_neg (by rw [hrevoked]; exact Bool.false_ne_true), hrest]
      cases hrow : row.revokedAt.isNone with
      | false => rw [List.filter_cons_of_neg (by rw [hrow]; exact Bool.false_ne_true)]
      | true =>
        have huser := howner row List.mem_cons_self hid
        rw [List.filter_cons_of_pos (by simpa using hrow),
          List.filter_cons_of_neg (by simp [hid, huser])]
    · rw [if_neg hid]
      cases hrow : row.revokedAt.isNone with
      | false =>
        rw [List.filter_cons_of_neg (by rw [hrow]; exact Bool.false_ne_true),
          List.filter_cons_of_neg (by rw [hrow]; exact Bool.false_ne_true), hrest]
      | true =>
        rw [List.filter_cons_of_pos (by simpa using hrow),
          List.filter_cons_of_pos (by simpa using hrow),
          List.filter_cons_of_pos (by simp [hid]), hrest]

theorem mayRevoke_iff {s : State} {userId id : ℕ} :
    mayRevoke s userId id = true ↔ ∃ row ∈ s.keys, row.userId = userId ∧ row.id = id := by
  unfold mayRevoke listForUser
  rw [List.any_map, List.any_eq_true]
  constructor
  · rintro ⟨row, hrow, hid⟩
    obtain ⟨hmem, huser⟩ := List.mem_filter.mp ((List.mem_insertionSort _).mp hrow)
    exact ⟨row, hmem, of_decide_eq_true huser, of_decide_eq_true hid⟩
  · rintro ⟨row, hmem, huser, hid⟩
    exact ⟨row, (List.mem_insertionSort _).mpr (List.mem_filter.mpr ⟨hmem, decide_eq_true huser⟩),
      decide_eq_true hid⟩

theorem holds_revoked {s s' : State} {history : List Event} (h : Holds hashToken s history)
    {userId id : ℕ} {now : Instant} (hstep : step hashToken s (.revoke userId id now) = some s') :
    Holds hashToken s' (.revoked userId id :: history) := by
  have hdropped := live_filter h fun v => ¬ (v.2.1 = userId ∧ v.1 = id)
  simp only [step] at hstep
  split at hstep
  · rename_i hmay
    cases hstep
    obtain ⟨own, hown, huser, hid⟩ := mayRevoke_iff.mp hmay
    have hview : ∀ row : ApiKeyRow,
        viewRow (if row.id = id then row.revoke now else row) = viewRow row := by
      intro row
      split
      · rfl
      · rfl
    refine holds_map h hview ?_ rfl
    rw [unrevoked_revoke now, List.map_congr_left fun row _ => rfl]
    · exact hdropped
    · intro row hrow hrowid
      have hsame : row = own :=
        List.inj_on_of_nodup_map h.ids hrow hown (hrowid.trans hid.symm)
      rw [hsame, huser]
  · rename_i hmay
    cases hstep
    refine ⟨?_, h.ids, h.hashes, h.owners, h.shown⟩
    refine Eq.trans ?_ hdropped
    congr 1
    symm
    rw [List.filter_eq_self]
    intro row hrow
    apply decide_eq_true
    rintro ⟨huser, hid⟩
    exact hmay (mayRevoke_iff.mpr ⟨row, (List.mem_filter.mp hrow).1, huser, hid⟩)

/-- Every statement keeps the table in accord with its history. -/
theorem holds_step {s s' : State} {history : List Event} {a : Action}
    (h : Holds hashToken s history) (hstep : step hashToken s a = some s') :
    Holds hashToken s' (events hashToken s a ++ history) := by
  cases a with
  | createUser user =>
    simp only [step] at hstep
    split at hstep
    · cases hstep
      exact h
    · cases hstep
      refine ⟨h.live, h.ids, h.hashes, ?_, h.shown⟩
      intro row hrow
      have howner := h.owners row hrow
      unfold State.getById at howner ⊢
      rw [List.find?_isSome] at howner ⊢
      obtain ⟨u, hu, hid⟩ := howner
      exact ⟨u, List.mem_cons_of_mem user hu, hid⟩
  | deleteUser userId =>
    cases hstep
    exact holds_left h userId
  | mint userId label random id now =>
    cases hrow : mint hashToken s userId label random id now with
    | none =>
      simp only [step, hrow, Option.some.injEq] at hstep
      subst hstep
      simpa [events, hrow] using h
    | some row =>
      simp only [step, hrow, Option.some.injEq] at hstep
      subst hstep
      simpa [events, hrow] using holds_minted h hrow
  | touch id now =>
    cases hstep
    exact holds_touch h id now
  | revoke userId id now => exact holds_revoked h hstep

theorem holds_exec {s : State} {history : List Event} {as : List Action}
    (hrun : exec (recorded (step hashToken) (events hashToken)) ({}, []) as = some (s, history)) :
    Holds hashToken s history := by
  have hinit : Holds hashToken {} [] :=
    
    ⟨rfl, List.nodup_nil, List.nodup_nil, fun _ h => absurd h List.not_mem_nil,
      fun _ h => absurd h List.not_mem_nil⟩
  refine exec_invariant (fun t : State × List Event => Holds hashToken t.1 t.2) ?_ hinit hrun
  intro t a t' h hstep
  obtain ⟨hstep, hhistory⟩ := recorded_eq_some.mp hstep
  rw [hhistory]
  exact holds_step h hstep

/-! ## Requests -/

theorem verify_eq_ok {s : State} {history : List Event} (h : Holds hashToken s history)
    {token : String} {record : ApiKeyRecord} : verify hashToken s token = .ok record ↔
      ∃ row ∈ unrevoked s.keys, row.keyHash = hashToken token ∧ row.record = record := by
  unfold verify
  constructor
  · intro hok
    split at hok
    · cases hok
    · rename_i row hrow
      split at hok
      · cases hok
      · rename_i hrevoked
        cases hok
        have hnone : row.revokedAt.isNone = true := by
          cases hmark : row.revokedAt with
          | none => rfl
          | some now => exact absurd (by rw [hmark]; rfl) hrevoked
        exact ⟨row, List.mem_filter.mpr ⟨List.mem_of_find?_eq_some hrow, hnone⟩,
          of_decide_eq_true (List.find?_some hrow :), rfl⟩
  · rintro ⟨row, hrow, hhash, rfl⟩
    obtain ⟨hmem, hnone⟩ := List.mem_filter.mp hrow
    rw [Grouping.find?_eq_some ApiKeyRow.keyHash h.hashes hmem hhash]
    have hmark : row.revokedAt = none := by simpa using hnone
    exact if_neg (by rw [hmark]; exact Bool.false_ne_true)

theorem stripPrefix_eq_some {s p : String} {rest : List Char} :
    stripPrefix s p = some rest ↔ s = p ++ String.ofList rest := by
  unfold stripPrefix startsWith
  constructor
  · intro h
    split at h
    · rename_i hstart
      obtain ⟨tail, htail⟩ := List.isPrefixOf_iff_prefix.mp hstart
      rw [← htail, ← String.length_toList, List.drop_left, Option.some.injEq] at h
      rw [← String.toList_inj, String.toList_append, String.toList_ofList, ← h, htail]
    · cases h
  · rintro rfl
    have hstart : p.toList.isPrefixOf (p ++ String.ofList rest).toList = true := by
      rw [String.toList_append]
      exact List.isPrefixOf_iff_prefix.mpr (List.prefix_append _ _)
    rw [if_pos hstart, String.toList_append, ← String.length_toList, List.drop_left,
      String.toList_ofList]

/-- Whoever comes with a live key. -/
def userOf (user : SessionUser) (label : String) : McpUser where
  userId := user.userId
  username := user.username
  role := user.role
  source := apiKeySource label

/-- INTERNAL: who comes with a token. -/
theorem resolveUser_eq_some {s : State} {authorization : Option String} {u : McpUser} :
    resolveUser hashToken s authorization = some u ↔ ∃ token record user,
      authorization = some ("Bearer " ++ token) ∧ token ≠ "" ∧
      verify hashToken s token = .ok record ∧ s.getById record.userId = some user ∧
      userOf user record.label = u := by
  unfold resolveUser
  constructor
  · intro h
    obtain ⟨auth, hauth, h⟩ := Option.bind_eq_some_iff.mp h
    obtain ⟨token, htoken, h⟩ := Option.bind_eq_some_iff.mp h
    split at h
    · cases h
    · rename_i hne
      obtain ⟨record, hrecord, h⟩ := Option.bind_eq_some_iff.mp h
      obtain ⟨user, huser, h⟩ := Option.bind_eq_some_iff.mp h
      cases h
      refine ⟨String.ofList token, record, user, ?_, ?_, ?_, huser, rfl⟩
      · rw [hauth, stripPrefix_eq_some.mp htoken]
      · intro hempty
        exact hne (by rw [← String.toList_ofList (l := token), hempty]; rfl)
      · cases hv : verify hashToken s (String.ofList token) with
        | error e => rw [hv] at hrecord; cases hrecord
        | ok r =>
          rw [hv] at hrecord
          cases hrecord
          rfl
  · rintro ⟨token, record, user, rfl, hne, hv, huser, rfl⟩
    have hstrip : stripPrefix ("Bearer " ++ token) "Bearer " = some token.toList :=
      stripPrefix_eq_some.mpr (by rw [String.ofList_toList])
    have hlist : token.toList ≠ [] := fun hnil => hne (String.toList_inj.mp hnil)
    simp only [Option.bind_eq_bind, Option.bind_some, hstrip, if_neg hlist, String.ofList_toList, hv,
      Except.toOption, huser]
    rfl

theorem token_mem_of_live {history : List Event} {key : Key} (h : key ∈ liveKeys history) :
    key.token ∈ tokens history := by
  induction history with
  | nil => cases h
  | cons event history ih =>
    cases event with
    | minted k =>
      obtain rfl | h := List.mem_cons.mp h
      · exact List.mem_cons_self
      · exact List.mem_cons_of_mem _ (ih h)
    | revoked userId id => exact ih (List.mem_filter.mp h).1
    | left userId => exact ih (List.mem_filter.mp h).1

/-- **A key stands for its user while it is live**: after every run, in whatever order the
statements of the clients come, a request is resolved to the owner of the live key it comes with,
under the label of that key, and to nobody when it comes with none. -/
theorem resolveUser_iff {s : State} {history : List Event} {as : List Action}
    (hrun : exec (recorded (step hashToken) (events hashToken)) ({}, []) as = some (s, history))
    {authorization : Option String} {u : McpUser}
    (hcollide : ∀ token, authorization = some ("Bearer " ++ token) →
      ∀ t ∈ tokens history, hashToken t = hashToken token → t = token) :
    resolveUser hashToken s authorization = some u ↔ ∃ key ∈ liveKeys history,
      authorization = some ("Bearer " ++ key.token) ∧
        ∃ user, s.getById key.userId = some user ∧ userOf user key.label = u := by
  have h := holds_exec hrun
  rw [resolveUser_eq_some]
  constructor
  · rintro ⟨token, record, user, hauth, hne, hverify, huser, rfl⟩
    obtain ⟨row, hrow, hhash, rfl⟩ := (verify_eq_ok h).mp hverify
    have hview : viewRow row ∈ (liveKeys history).map (viewKey hashToken) :=
      h.live ▸ List.mem_map_of_mem hrow
    obtain ⟨key, hkey, hsame⟩ := List.mem_map.mp hview
    obtain ⟨hid, hsame⟩ := Prod.mk.inj hsame
    obtain ⟨howner, hsame⟩ := Prod.mk.inj hsame
    obtain ⟨hkeyHash, hlabel⟩ := Prod.mk.inj hsame
    have htoken : key.token = token :=
      hcollide token hauth key.token (token_mem_of_live hkey) (hkeyHash.trans hhash)
    refine ⟨key, hkey, htoken ▸ hauth, user, ?_, ?_⟩
    · rw [howner]
      exact huser
    · rw [hlabel]
      rfl
  · rintro ⟨key, hkey, hauth, user, huser, rfl⟩
    have hview : viewKey hashToken key ∈ (unrevoked s.keys).map viewRow :=
      h.live ▸ List.mem_map_of_mem hkey
    obtain ⟨row, hrow, hsame⟩ := List.mem_map.mp hview
    obtain ⟨hid, hsame⟩ := Prod.mk.inj hsame
    obtain ⟨howner, hsame⟩ := Prod.mk.inj hsame
    obtain ⟨hkeyHash, hlabel⟩ := Prod.mk.inj hsame
    refine ⟨key.token, row.record, user, hauth, h.shown _ (token_mem_of_live hkey),
      (verify_eq_ok h).mpr ⟨row, hrow, hkeyHash, rfl⟩, ?_, ?_⟩
    · change s.getById row.userId = some user
      rw [howner]
      exact huser
    · change userOf user row.label = _
      rw [hlabel]

end Table

/-- INTERNAL: two keys, the first of them revoked. -/
def twoKeys (now : Instant) : List Action :=
  [.createUser ⟨1, "ada", .user⟩, .mint 1 "phone" [.ofNat 11] 4 now,
    .mint 1 "desk" [.ofNat 12] 5 now, .touch 4 now, .revoke 1 4 now]

theorem resolveUser_iff_of_two :
    let now : Instant := ⟨100, 0, by decide, .inl (by decide)⟩
    ∃ s history, exec (recorded (step id) (events id)) ({}, []) (twoKeys now) = some (s, history) ∧
      (resolveUser id s (some "Bearer myc2-0c") = some ⟨1, "ada", .user, "mcp:desk"⟩ ↔
        ∃ key ∈ liveKeys history, some "Bearer myc2-0c" = some ("Bearer " ++ key.token) ∧
          ∃ user, s.getById key.userId = some user ∧
            userOf user key.label = ⟨1, "ada", .user, "mcp:desk"⟩) := by
  intro now
  obtain ⟨s, history, hrun⟩ : ∃ s history,
      exec (recorded (step id) (events id)) ({}, []) (twoKeys now) = some (s, history) :=
    ⟨_, _, rfl⟩
  exact ⟨s, history, hrun, resolveUser_iff hrun fun _ _ _ _ h => h⟩

end Mycelium.Analysis.ApiKeys
