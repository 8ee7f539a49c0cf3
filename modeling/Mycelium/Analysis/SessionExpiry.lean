import Mycelium.Analysis.TimestampOrder
import Mycelium.Lib.Grouping
import Mycelium.Lib.StepSystem
import Mycelium.Model.Sessions

/-!
# Expired sessions

The rows of a session table are those that `create_with_ttl` wrote (`Inv`): their ids are
hashes of session ids, each once, and their expiries texts of instants. A lookup then reads
the instant of its row (`get_eq`), and the maintenance deletes the rows that a lookup would
report as expired (`purged_iff`).
-/

set_option autoImplicit false

namespace Mycelium.Analysis.SessionExpiry

open Mycelium.Model.Timestamps Mycelium.Model.Sessions
open Mycelium.Analysis.TimestampOrder (toRfc3339_strictMono)

variable {X : Crates} {t : Table}

/-! ## The table -/

structure Inv (X : Crates) (t : Table) : Prop where
  nodup : (t.map SessionRow.id).Nodup
  hashed : ∀ r ∈ t, ∃ sessionId, r.id = X.hashSessionId sessionId
  expiry : ∀ r ∈ t, ∃ expires : Instant, r.expiresAt = expires.toRfc3339

theorem Inv.filter (h : Inv X t) (p : SessionRow → Bool) : Inv X (t.filter p) where
  nodup := h.nodup.sublist (List.filter_sublist.map SessionRow.id)
  hashed r hr := h.hashed r (List.mem_filter.mp hr).1
  expiry r hr := h.expiry r (List.mem_filter.mp hr).1

theorem lookup_eq_none_iff {sessionId : ℕ} :
    lookup X t sessionId = none ↔ ∀ r ∈ t, r.id ≠ X.hashSessionId sessionId := by
  simp only [lookup, List.find?_eq_none, decide_eq_true_eq, ne_eq]

theorem lookup_eq_some (h : Inv X t) {r : SessionRow} (hr : r ∈ t) {sessionId : ℕ}
    (hid : r.id = X.hashSessionId sessionId) : lookup X t sessionId = some r :=
  Grouping.find?_eq_some SessionRow.id h.nodup hr hid

theorem Inv.append (h : Inv X t) {sessionId : ℕ} (hnone : lookup X t sessionId = none)
    {r : SessionRow} (hid : r.id = X.hashSessionId sessionId) {expires : Instant}
    (hexpires : r.expiresAt = expires.toRfc3339) : Inv X (t ++ [r]) where
  nodup := by
    rw [List.map_append, List.map_singleton]
    refine List.nodup_append.mpr ⟨h.nodup, List.nodup_singleton _, ?_⟩
    intro id hmem id' hid'
    obtain ⟨r', hr', rfl⟩ := List.mem_map.mp hmem
    rw [List.mem_singleton.mp hid', hid]
    exact lookup_eq_none_iff.mp hnone r' hr'
  hashed r' hr' := by
    rcases List.mem_append.mp hr' with hold | hnew
    · exact h.hashed r' hold
    · rw [List.mem_singleton.mp hnew]
      exact ⟨sessionId, hid⟩
  expiry r' hr' := by
    rcases List.mem_append.mp hr' with hold | hnew
    · exact h.expiry r' hold
    · rw [List.mem_singleton.mp hnew]
      exact ⟨expires, hexpires⟩

/-! ## Calls -/

theorem Inv.createWithTtl (h : Inv X t) {userId : ℕ} {ttl : Duration} {id : ℕ} {csrf : String}
    {now : Instant} {out : Except SessionError SessionRecord × Table}
    (hout : createWithTtl X t userId ttl id csrf now = some out) : Inv X out.2 := by
  unfold Mycelium.Model.Sessions.createWithTtl at hout
  obtain ⟨expires, -, rfl⟩ := Option.map_eq_some_iff.mp hout
  dsimp only
  by_cases hold : (lookup X t id).isSome = true
  · rw [if_pos hold]
    exact h
  · rw [if_neg hold]
    exact h.append (Option.not_isSome_iff_eq_none.mp hold) rfl rfl

theorem Inv.get (h : Inv X t) (sessionId : ℕ) (now : Instant) (deletes : Bool) :
    Inv X (get X t sessionId now deletes).2 := by
  unfold Mycelium.Model.Sessions.get
  split
  · exact h
  · split
    · exact h
    · split
      · dsimp only
        split
        · exact h.filter _
        · exact h
      · exact h

theorem Inv.step (h : Inv X t) {call : Call} {t' : Table} (hstep : step X t call = some t') :
    Inv X t' := by
  cases call with
  | create userId ttl id csrf now =>
    obtain ⟨out, hout, rfl⟩ := Option.map_eq_some_iff.mp hstep
    exact h.createWithTtl hout
  | get sessionId now deletes =>
    cases hstep
    exact h.get sessionId now deletes
  | delete sessionId =>
    cases hstep
    exact h.filter _
  | deleteAllForUser userId =>
    cases hstep
    exact h.filter _
  | purgeExpired now =>
    cases hstep
    exact h.filter _

theorem inv_nil : Inv X [] where
  nodup := List.nodup_nil
  hashed _ hr := nomatch hr
  expiry _ hr := nomatch hr

theorem inv_of_exec {calls : List Call} (h : StepSystem.exec (step X) [] calls = some t) :
    Inv X t :=
  StepSystem.exec_invariant (Inv X) (fun _ _ _ hinv hstep => hinv.step hstep) inv_nil h

/-! ## Expiry -/

/-- What the maintenance leaves. -/
theorem mem_purged_iff {r : SessionRow} (hr : r ∈ t) {expires : Instant}
    (hexpires : r.expiresAt = expires.toRfc3339) (now : Instant) :
    r ∈ (purgeExpired t now).2 ↔ ¬ expires < now := by
  unfold purgeExpired
  rw [List.mem_filter, decide_eq_true_eq, hexpires, toRfc3339_strictMono.lt_iff_lt]
  exact and_iff_right hr

/-- A lookup compares the instants. -/
theorem get_eq (hparse : ∀ i : Instant, X.parseFromRfc3339 i.toRfc3339 = some i) (h : Inv X t)
    {r : SessionRow} (hr : r ∈ t) {sessionId : ℕ} (hid : r.id = X.hashSessionId sessionId)
    {expires : Instant} (hexpires : r.expiresAt = expires.toRfc3339) (now : Instant)
    (deletes : Bool) :
    (get X t sessionId now deletes).1 =
      if expires < now then .error .notFound
      else .ok { id := sessionId, userId := r.userId, csrfToken := r.csrfToken
                 expiresAt := expires } := by
  unfold Mycelium.Model.Sessions.get
  rw [lookup_eq_some h hr hid]
  simp only [hexpires, hparse]
  split
  · rfl
  · rfl

theorem purged_iff (hparse : ∀ i : Instant, X.parseFromRfc3339 i.toRfc3339 = some i) (h : Inv X t)
    {r : SessionRow} (hr : r ∈ t) {sessionId : ℕ} (hid : r.id = X.hashSessionId sessionId)
    (now : Instant) (deletes : Bool) :
    r ∉ (purgeExpired t now).2 ↔ (get X t sessionId now deletes).1 = .error .notFound := by
  obtain ⟨expires, hexpires⟩ := h.expiry r hr
  rw [mem_purged_iff hr hexpires, not_not, get_eq hparse h hr hid hexpires]
  split
  · rename_i hlt
    exact iff_of_true hlt rfl
  · rename_i hlt
    exact iff_of_false hlt nofun

theorem purged_add_left (t : Table) (now : Instant) :
    (purgeExpired t now).1 + (purgeExpired t now).2.length = t.length := by
  unfold purgeExpired
  have hsplit := List.length_eq_length_filter_add (l := t) fun r =>
    decide (r.expiresAt < now.toRfc3339)
  simp only [hsplit, decide_not]

end Mycelium.Analysis.SessionExpiry
