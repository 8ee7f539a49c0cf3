import Mycelium.Analysis.ChatEmissions

/-!
# No chat event is lost to a viewer

A viewer's stream subscribes before it takes its snapshot, and the runner persists before
it broadcasts. An event is therefore in the snapshot, or it is broadcast to a receiver that
is already there; one that is both is dropped by the page. The invariant of an attached
stream is about the row events on their way to it, delivered or not: those of the snapshot,
in order, followed by live ones, in order, each of which is in the snapshot or after all of
it (`Flow`). A delivery and a broadcast move events along and change nothing in this list;
a persisted row adds its event at the end.

A stream that finds no entry at its subscribe replays and closes. That is the right end for
a turn whose runner is gone, and by design also the end for one whose runner is still to be
spawned: then the viewer has to come back (`early_reattach_misses_rows`). Where every
stream subscribes after the spawn, none loses a row (`viewer_sees_every_row`).
-/

set_option autoImplicit false

namespace Mycelium.Analysis.ChatViewers

open Mycelium.Model.ChatStore Mycelium.Model.ChatStream StepSystem
open Mycelium.Model.ChatRunner hiding State Action step
open Mycelium.Analysis.ChatTables (seq_lt_nextSeq)
open Mycelium.Analysis.ChatTranscript (Transcript Replays messagesAfter_spec pairwise_seq)
open Mycelium.Analysis.ChatEmissions

/-! ## The property and the condition -/

/-- What the page has of the rows after the cursor. -/
def shown (cursor : ℤ) (st : Stream) : List ChatSseEvent :=
  (clientRows st.seen).filter fun ev => cursor < ev.seq

/-- No stream subscribes before the turn's entry exists. -/
def subscribesAfterSpawn (s : State) : Action → Bool
  | .stream i _ =>
    match (s.streams i).pc with
    | .looked _ _ => !(s.run.pc matches .spawn)
    | _ => true
  | _ => true

/-! ## Events on their way to a viewer -/

/-- The row events of a list. -/
def rows (evs : List ChatSseEvent) : List ChatSseEvent := evs.filter (·.isRow)

@[simp] theorem rows_append (as bs : List ChatSseEvent) : rows (as ++ bs) = rows as ++ rows bs :=
  List.filter_append as bs

theorem rows_singleton_of_row {ev : ChatSseEvent} (h : ev.isRow = true) : rows [ev] = [ev] := by
  simp [rows, h]

theorem rows_singleton_of_not {ev : ChatSseEvent} (h : ev.isRow = false) : rows [ev] = [] := by
  simp [rows, h]

/-- Every row event shows an agent row that is there. -/
def Genuine (env : Env) (s : State) (evs : List ChatSseEvent) : Prop :=
  ∀ ev ∈ rows evs, ∃ m, AgentRow s m ∧ Shows env ev m

/-- The row events come with increasing numbers. -/
def Sorted (evs : List ChatSseEvent) : Prop := (rows evs).Pairwise fun a b => a.seq < b.seq

/-- A terminal event is the last row event, and the runner is done with its rows. -/
def Ends (s : State) (evs : List ChatSseEvent) : Prop :=
  ∀ before ev after, evs = before ++ ev :: after → ev.terminal = true →
    rows after = [] ∧ Silent s.run.pc

/-- The events that are broadcast to a receiver, or about to be, and not yet delivered. -/
def flight (s : State) (st : Stream) : List ChatSseEvent := st.queue ++ s.outbox.toList

/-- What a receiver has in store for a stream that has not taken its snapshot. -/
structure Tail (env : Env) (s : State) (st : Stream) : Prop where
  sorted : Sorted (flight s st)
  genuine : Genuine env s (flight s st)
  ends : Ends s (flight s st)

/-- What a stream delivers, delivered or not, from its snapshot on: the rows of the
snapshot in order, then live ones in order, each in the snapshot or after all of it, and
all agent rows after the cursor among them. -/
structure Flow (env : Env) (s : State) (cursor : ℤ) (evs : List ChatSseEvent) : Prop where
  genuine : Genuine env s evs
  covered : ∀ m, AgentRow s m → cursor < m.seq → m.seq ∈ (rows evs).map ChatSseEvent.seq
  overlap : ∃ replay live, rows evs = replay ++ live ∧
    replay.Pairwise (fun a b => a.seq < b.seq) ∧ live.Pairwise (fun a b => a.seq < b.seq) ∧
    ∀ b ∈ live, cursor < b.seq → b.seq ∈ replay.map ChatSseEvent.seq ∨
      ∀ a ∈ replay, a.seq < b.seq

/-- What holds of a stream at each of its places. -/
def StreamOk (env : Env) (s : State) (st : Stream) : Prop :=
  match st.pc with
  | .idle | .refused => True
  | .looked _ turn? =>
    (turn? = some s.run.turn ∨ Complete s) ∧ st.queue = [] ∧ st.lagged = false ∧ rows st.seen = []
  | .subscribed _ true =>
    s.run.pc ≠ .spawn ∧ rows st.seen = [] ∧ (st.lagged = false → Tail env s st)
  | .subscribed _ false => Complete s ∧ rows st.seen = []
  | .replaying cursor todo true =>
    s.run.pc ≠ .spawn ∧ (st.lagged = false →
      Flow env s cursor (st.seen ++ todo ++ flight s st) ∧ Ends s (flight s st))
  | .replaying cursor todo false => Complete s ∧ Flow env s cursor (st.seen ++ todo)
  | .tailing cursor =>
    s.run.pc ≠ .spawn ∧ (st.lagged = false →
      Flow env s cursor (st.seen ++ flight s st) ∧ Ends s (flight s st))
  | .ended cursor why => why ≠ .lagged → Muted s ∧ Flow env s cursor st.seen

/-! ## Lists of events -/

/-- INTERNAL: before its last row a runner has sent no terminal event. -/
theorem not_terminal_of_ends {s : State} {evs : List ChatSseEvent} (h : Ends s evs)
    (hloud : ¬ Silent s.run.pc) {ev : ChatSseEvent} (hev : ev ∈ evs) : ev.terminal = false := by
  cases hterminal : ev.terminal with
  | false => rfl
  | true =>
    obtain ⟨before, after, hsplit⟩ := List.append_of_mem hev
    exact absurd (h before ev after hsplit hterminal).2 hloud

/-- INTERNAL: a place in an extended list is the new one or an old one. -/
theorem split_snoc {evs before after : List ChatSseEvent} {x ev : ChatSseEvent}
    (h : evs ++ [ev] = before ++ x :: after) :
    x = ev ∧ after = [] ∨ ∃ after', evs = before ++ x :: after' ∧ after = after' ++ [ev] := by
  rcases List.eq_nil_or_concat after with rfl | ⟨after', y, rfl⟩
  · have hlast := (List.append_inj' h rfl).2
    simp only [List.cons.injEq, and_true] at hlast
    exact Or.inl ⟨hlast.symm, rfl⟩
  · rw [List.concat_eq_append, ← List.cons_append, ← List.append_assoc] at h
    obtain ⟨hevs, hlast⟩ := List.append_inj' h rfl
    simp only [List.cons.injEq, and_true] at hlast
    refine Or.inr ⟨after', hevs, ?_⟩
    rw [List.concat_eq_append, hlast]

/-- INTERNAL: a new event at the end of a list without a terminal one. -/
theorem ends_snoc {s : State} {evs : List ChatSseEvent} {ev : ChatSseEvent}
    (hold : ∀ x ∈ evs, x.terminal = false) (hnew : ev.terminal = true → Silent s.run.pc) :
    Ends s (evs ++ [ev]) := by
  intro before x after hsplit hterminal
  rcases split_snoc hsplit with ⟨rfl, rfl⟩ | ⟨after', rfl, rfl⟩
  · exact ⟨rfl, hnew hterminal⟩
  · have hfalse := hold x (by simp)
    rw [hterminal] at hfalse
    cases hfalse

/-- INTERNAL: an event without a row changes nothing for the terminal one. -/
theorem ends_snoc_presentation {s : State} {evs : List ChatSseEvent} {ev : ChatSseEvent}
    (h : Ends s evs) (hrow : ev.isRow = false) (hev : ev.terminal = false) :
    Ends s (evs ++ [ev]) := by
  intro before x after hsplit hterminal
  rcases split_snoc hsplit with ⟨rfl, rfl⟩ | ⟨after', rfl, rfl⟩
  · rw [hev] at hterminal
    cases hterminal
  · obtain ⟨hrows, hsilent⟩ := h before x after' rfl hterminal
    rw [rows_append, hrows, rows_singleton_of_not hrow]
    exact ⟨rfl, hsilent⟩

/-- INTERNAL: what is left after a delivery ends as before. -/
theorem ends_tail {s : State} {ev : ChatSseEvent} {evs : List ChatSseEvent}
    (h : Ends s (ev :: evs)) : Ends s evs := by
  intro before x after hsplit hterminal
  exact h (ev :: before) x after (by rw [hsplit, List.cons_append]) hterminal

/-! ## Steps around a stream -/

/-- INTERNAL: what is on its way shows rows that stay. -/
theorem genuine_mono {env : Env} {s s' : State} {evs : List ChatSseEvent}
    (h : Genuine env s evs) (hrows : ∀ m, AgentRow s m → AgentRow s' m) : Genuine env s' evs := by
  intro ev hev
  obtain ⟨m, hm, hshows⟩ := h ev hev
  exact ⟨m, hrows m hm, hshows⟩

/-- INTERNAL: as long as the rows are the same, so is the flow. -/
theorem flow_congr {env : Env} {s s' : State} {cursor : ℤ} {evs : List ChatSseEvent}
    (h : Flow env s cursor evs) (hrows : ∀ m, AgentRow s' m ↔ AgentRow s m) :
    Flow env s' cursor evs where
  genuine := genuine_mono h.genuine fun m hm => (hrows m).mpr hm
  covered m hm := h.covered m ((hrows m).mp hm)
  overlap := h.overlap

/-- INTERNAL: and a runner that is done with its rows stays so. -/
theorem ends_mono {s s' : State} {evs : List ChatSseEvent} (h : Ends s evs)
    (hsilent : Silent s.run.pc → Silent s'.run.pc) : Ends s' evs := by
  intro before ev after hsplit hterminal
  obtain ⟨hrows, hs⟩ := h before ev after hsplit hterminal
  exact ⟨hrows, hsilent hs⟩

/-- What a step around a stream keeps: the place of the stream, how far the runner has come,
every flow once the runner has written its last row, and what is on its way to a receiver
that does not lag. -/
structure Keeps (env : Env) (s s' : State) (st st' : Stream) : Prop where
  pc : st'.pc = st.pc
  seen : st'.seen = st.seen
  turn : s'.run.turn = s.run.turn
  spawn : s.run.pc ≠ .spawn → s'.run.pc ≠ .spawn
  complete : Complete s → Complete s'
  muted : Muted s → Muted s'
  closed : Muted s → ∀ cursor evs, Flow env s cursor evs → Flow env s' cursor evs
  detached : st.attached = false → st' = st
  unlagged : st.attached = true → st'.lagged = false → st.lagged = false
  flow : st.attached = true → st'.lagged = false → ∀ cursor evs,
    Flow env s cursor (evs ++ flight s st) → Flow env s' cursor (evs ++ flight s' st')
  tail : st.attached = true → st'.lagged = false → Tail env s st → Tail env s' st'
  ends : st.attached = true → st'.lagged = false → Ends s (flight s st) → Ends s' (flight s' st')

/-- Such a step keeps what holds of the stream. -/
theorem streamOk_of_keeps {env : Env} {s s' : State} {st st' : Stream} (h : StreamOk env s st)
    (hk : Keeps env s s' st st') : StreamOk env s' st' := by
  unfold StreamOk at h ⊢
  rw [hk.pc, hk.seen]
  split at h
  · trivial
  · trivial
  · rename_i hpc
    rw [hk.detached (by unfold Stream.attached; rw [hpc]), hk.turn]
    exact ⟨h.1.imp_right hk.complete, h.2⟩
  · rename_i hpc
    have hattached : st.attached = true := by
      unfold Stream.attached
      rw [hpc]
    refine ⟨hk.spawn h.1, h.2.1, ?_⟩
    intro hlag
    exact hk.tail hattached hlag (h.2.2 (hk.unlagged hattached hlag))
  · exact ⟨hk.complete h.1, h.2⟩
  · rename_i hpc
    have hattached : st.attached = true := by
      unfold Stream.attached
      rw [hpc]
    refine ⟨hk.spawn h.1, ?_⟩
    intro hlag
    obtain ⟨hflow, hends⟩ := h.2 (hk.unlagged hattached hlag)
    exact ⟨hk.flow hattached hlag _ _ hflow, hk.ends hattached hlag hends⟩
  · exact ⟨hk.complete h.1, hk.closed (muted_of_complete h.1) _ _ h.2⟩
  · rename_i hpc
    have hattached : st.attached = true := by
      unfold Stream.attached
      rw [hpc]
    refine ⟨hk.spawn h.1, ?_⟩
    intro hlag
    obtain ⟨hflow, hends⟩ := h.2 (hk.unlagged hattached hlag)
    exact ⟨hk.flow hattached hlag _ _ hflow, hk.ends hattached hlag hends⟩
  · intro hwhy
    obtain ⟨hmuted, hflow⟩ := h hwhy
    exact ⟨hk.muted hmuted, hk.closed hmuted _ _ hflow⟩

/-- A step that writes no row, leaves the outbox and goes forward keeps what holds of a
stream. -/
theorem streamOk_frame {env : Env} {s s' : State} {st : Stream} (h : StreamOk env s st)
    (hrows : ∀ m, AgentRow s' m ↔ AgentRow s m) (hbox : s'.outbox = s.outbox)
    (hturn : s'.run.turn = s.run.turn) (hsilent : Silent s.run.pc → Silent s'.run.pc)
    (hspawn : s.run.pc ≠ .spawn → s'.run.pc ≠ .spawn) (hleave : s.run.pc = .leave → s'.run.pc = .leave) :
    StreamOk env s' st := by
  have hflight : flight s' st = flight s st := by
    unfold flight
    rw [hbox]
  apply streamOk_of_keeps h
  refine ⟨rfl, rfl, hturn, hspawn, ?_, ?_, ?_, fun _ => rfl, fun _ => id, ?_, ?_, ?_⟩
  · rintro ⟨hpc, hnone⟩
    exact ⟨hleave hpc, hbox.trans hnone⟩
  · rintro ⟨hs, hnone⟩
    exact ⟨hsilent hs, hbox.trans hnone⟩
  · intro _ cursor evs hflow
    exact flow_congr hflow hrows
  · intro _ _ cursor evs hflow
    rw [hflight]
    exact flow_congr hflow hrows
  · rintro _ _ ⟨hsorted, hgenuine, hends⟩
    rw [← hflight] at hsorted hgenuine hends
    exact ⟨hsorted, genuine_mono hgenuine fun m hm => (hrows m).mpr hm, ends_mono hends hsilent⟩
  · intro _ _ hends
    rw [hflight]
    exact ends_mono hends hsilent

/-- INTERNAL: a new row has a number above all that are on their way. -/
theorem seq_lt_of_genuine {env : Env} {s s' : State} {m : MessageRow} {ev : ChatSseEvent}
    {evs : List ChatSseEvent} (hwrites : Writes env s s' m ev) (h : Genuine env s evs)
    {x : ChatSseEvent} (hx : x ∈ rows evs) : x.seq < ev.seq := by
  obtain ⟨m', ⟨hm', hsession, _⟩, hshows⟩ := h x hx
  rw [hshows.1, hwrites.shows.1, hwrites.seq]
  exact seq_lt_nextSeq hm' (hsession.trans hwrites.session.symm)

/-- INTERNAL: what is on its way is followed by the event of a new row. -/
theorem genuine_snoc {env : Env} {s s' : State} {m : MessageRow} {ev : ChatSseEvent}
    {evs : List ChatSseEvent} (hkept : Kept s s') (hwrites : Writes env s s' m ev)
    (h : Genuine env s evs) : Genuine env s' (evs ++ [ev]) := by
  intro x hx
  rw [rows_append, rows_singleton_of_row hwrites.row, List.mem_append, List.mem_singleton] at hx
  rcases hx with hx | rfl
  · obtain ⟨m', hm', hshows⟩ := h x hx
    exact ⟨m', (agentRow_writes hkept hwrites m').mpr (Or.inl hm'), hshows⟩
  · exact ⟨m, (agentRow_writes hkept hwrites m).mpr (Or.inr rfl), hwrites.shows⟩

/-- INTERNAL: so is a sorted list of events. -/
theorem pairwise_snoc {l : List ChatSseEvent} {ev : ChatSseEvent}
    (h : l.Pairwise fun a b => a.seq < b.seq) (hlt : ∀ x ∈ l, x.seq < ev.seq) :
    (l ++ [ev]).Pairwise fun a b => a.seq < b.seq := by
  rw [List.pairwise_append]
  refine ⟨h, List.pairwise_singleton _ _, ?_⟩
  intro x hx y hy
  rw [List.mem_singleton] at hy
  subst hy
  exact hlt x hx

/-- The event of a new row joins the flow at its end. -/
theorem flow_snoc {env : Env} {s s' : State} {m : MessageRow} {ev : ChatSseEvent} {cursor : ℤ}
    {evs : List ChatSseEvent} (hkept : Kept s s') (hwrites : Writes env s s' m ev)
    (h : Flow env s cursor evs) : Flow env s' cursor (evs ++ [ev]) := by
  have hrows : rows (evs ++ [ev]) = rows evs ++ [ev] := by
    rw [rows_append, rows_singleton_of_row hwrites.row]
  refine ⟨genuine_snoc hkept hwrites h.genuine, ?_, ?_⟩
  · intro m' hm' hcursor
    rw [hrows, List.map_append, List.mem_append]
    rcases (agentRow_writes hkept hwrites m').mp hm' with hold | rfl
    · exact Or.inl (h.covered m' hold hcursor)
    · right
      rw [List.map_singleton, List.mem_singleton]
      exact hwrites.shows.1.symm
  · obtain ⟨replay, live, hsplit, hreplay, hlive, hover⟩ := h.overlap
    have hlt : ∀ x ∈ replay ++ live, x.seq < ev.seq := by
      intro x hx
      rw [← hsplit] at hx
      exact seq_lt_of_genuine hwrites h.genuine hx
    refine ⟨replay, live ++ [ev], ?_, hreplay, ?_, ?_⟩
    · rw [hrows, hsplit, List.append_assoc]
    · exact pairwise_snoc hlive fun x hx => hlt x (List.mem_append_right _ hx)
    · intro b hb hcursor
      rcases List.mem_append.mp hb with hb | hb
      · exact hover b hb hcursor
      · rw [List.mem_singleton] at hb
        subst hb
        exact Or.inr fun a ha => hlt a (List.mem_append_left _ ha)

/-- A write keeps what holds of a stream: an attached one gets the event on its way, and no
other one is past its lookup. -/
theorem streamOk_writes {env : Env} {s s' : State} {m : MessageRow} {ev : ChatSseEvent}
    {st : Stream} (hkept : Kept s s') (hspawn : s'.run.pc ≠ .spawn) (hbox : s.outbox = none)
    (hwrites : Writes env s s' m ev) (h : StreamOk env s st) : StreamOk env s' st := by
  have hflight : flight s' st = flight s st ++ [ev] := by
    unfold flight
    rw [hwrites.outbox, hbox]
    simp
  have hmuted : ¬ Muted s := fun hmuted => hwrites.loud hmuted.1
  have hcomplete : ¬ Complete s := fun hc => hmuted (muted_of_complete hc)
  have hends : Ends s (flight s st) → Ends s' (flight s' st) := by
    intro hends
    rw [hflight]
    apply ends_snoc _ hwrites.terminal
    intro x hx
    exact not_terminal_of_ends hends hwrites.loud hx
  apply streamOk_of_keeps h
  refine ⟨rfl, rfl, ?_, fun _ => hspawn, fun hc => absurd hc hcomplete, fun hm => absurd hm hmuted,
    fun hm => absurd hm hmuted, fun _ => rfl, fun _ => id, ?_, ?_, fun _ _ => hends⟩
  · rw [hkept.run]
  · intro _ _ cursor evs hflow
    rw [hflight, ← List.append_assoc]
    exact flow_snoc hkept hwrites hflow
  · rintro _ _ ⟨hsorted, hgenuine, he⟩
    refine ⟨?_, ?_, hends he⟩
    · rw [hflight]
      unfold Sorted
      rw [rows_append, rows_singleton_of_row hwrites.row]
      exact pairwise_snoc hsorted fun x hx => seq_lt_of_genuine hwrites hgenuine hx
    · rw [hflight]
      exact genuine_snoc hkept hwrites hgenuine

/-! ## Broadcasts -/

@[simp] theorem receive_pc (st : Stream) (ev : ChatSseEvent) : (st.receive ev).pc = st.pc := by
  unfold Stream.receive
  split
  · split <;> rfl
  · rfl

@[simp] theorem receive_seen (st : Stream) (ev : ChatSseEvent) :
    (st.receive ev).seen = st.seen := by
  unfold Stream.receive
  split
  · split <;> rfl
  · rfl

/-- INTERNAL: a broadcast passes by a stream without a receiver. -/
theorem receive_of_detached {st : Stream} (h : st.attached = false) (ev : ChatSseEvent) :
    st.receive ev = st := by
  unfold Stream.receive
  rw [h]
  rfl

/-- INTERNAL: a receiver that has not lagged has the event last. -/
theorem receive_of_attached {st : Stream} {ev : ChatSseEvent} (h : st.attached = true)
    (hlag : (st.receive ev).lagged = false) :
    st.lagged = false ∧ (st.receive ev).queue = st.queue ++ [ev] := by
  unfold Stream.receive at hlag ⊢
  rw [h, if_pos rfl] at hlag ⊢
  split at hlag
  · rename_i hroom
    rw [if_pos hroom]
    exact ⟨hlag, rfl⟩
  · cases hlag

/-- INTERNAL: what a flow says is about its row events. -/
theorem flow_rows {env : Env} {s : State} {cursor : ℤ} {evs evs' : List ChatSseEvent}
    (h : Flow env s cursor evs) (hrows : rows evs' = rows evs) : Flow env s cursor evs' := by
  refine ⟨?_, ?_, ?_⟩
  · unfold Genuine
    rw [hrows]
    exact h.genuine
  · rw [hrows]
    exact h.covered
  · rw [hrows]
    exact h.overlap

/-- A broadcast keeps what holds of a stream, when it adds no row event to those on their
way to a receiver. -/
theorem streamOk_sent {env : Env} {s s' : State} {st : Stream} {ev : ChatSseEvent}
    (h : StreamOk env s st) (hdb : s'.db = s.db) (hrun : s'.run = s.run)
    (hnone : s'.outbox = none)
    (hrows : ∀ queue, rows (queue ++ [ev]) = rows (queue ++ s.outbox.toList))
    (hends : ∀ queue, Ends s (queue ++ s.outbox.toList) → Ends s (queue ++ [ev])) :
    StreamOk env s' (st.receive ev) := by
  have hagent : ∀ m, AgentRow s' m ↔ AgentRow s m := agentRow_congr hdb (by rw [hrun])
  have hcomplete : Complete s → Complete s' := by
    rintro ⟨hpc, _⟩
    exact ⟨by rw [hrun, hpc], hnone⟩
  have hspawn : s.run.pc ≠ .spawn → s'.run.pc ≠ .spawn := by
    rw [hrun]
    exact id
  have hsilent : Silent s.run.pc → Silent s'.run.pc := by
    rw [hrun]
    exact id
  have hflight : st.attached = true → (st.receive ev).lagged = false →
      flight s' (st.receive ev) = st.queue ++ [ev] := by
    intro hattached hlag
    unfold flight
    rw [(receive_of_attached hattached hlag).2, hnone, Option.toList_none, List.append_nil]
  have hends' : st.attached = true → (st.receive ev).lagged = false →
      Ends s (flight s st) → Ends s' (flight s' (st.receive ev)) := by
    intro hattached hlag he
    rw [hflight hattached hlag]
    exact ends_mono (hends st.queue he) hsilent
  have hrows' : st.attached = true → (st.receive ev).lagged = false →
      rows (flight s' (st.receive ev)) = rows (flight s st) := by
    intro hattached hlag
    rw [hflight hattached hlag]
    exact hrows st.queue
  apply streamOk_of_keeps h
  refine ⟨receive_pc st ev, receive_seen st ev, by rw [hrun], hspawn, hcomplete, ?_, ?_, ?_, ?_, ?_,
    ?_, hends'⟩
  · rintro ⟨hs, _⟩
    exact ⟨hsilent hs, hnone⟩
  · intro _ cursor evs hflow
    exact flow_congr hflow hagent
  · intro hdetached
    exact receive_of_detached hdetached ev
  · intro hattached hlag
    exact (receive_of_attached hattached hlag).1
  · intro hattached hlag cursor evs hflow
    apply flow_congr _ hagent
    apply flow_rows hflow
    rw [rows_append, rows_append, hrows' hattached hlag]
  · rintro hattached hlag ⟨hsorted, hgenuine, he⟩
    refine ⟨?_, ?_, hends' hattached hlag he⟩
    · unfold Sorted
      rw [hrows' hattached hlag]
      exact hsorted
    · unfold Genuine
      rw [hrows' hattached hlag]
      exact genuine_mono hgenuine fun m hm => (hagent m).mpr hm

/-! ## Steps of a stream -/

/-- A reattach finds the turn of the runner, unless that is over. -/
theorem runningTurn_eq {env : Env} {s : State} (h : RunOk env s) :
    runningTurn s.db s.run.user s.run.session = some s.run.turn ∨ Complete s := by
  rcases h.running with ⟨row, hrow, hsession, hstatus⟩ | hcomplete
  · left
    have hentry : (⟨s.run.turn, row⟩ : Sigma fun _ : ℕ => TurnRow) ∈ s.db.turns.entries :=
      Dict.mem_entries.mpr hrow
    let isLive := fun e : Sigma fun _ : ℕ => TurnRow =>
      e.2.sessionId = s.run.session && e.2.status = .running
    have hfound : (s.db.turns.entries.find? isLive).isSome := by
      rw [List.find?_isSome]
      refine ⟨_, hentry, ?_⟩
      simp only [isLive, hsession, hstatus, decide_true, Bool.and_self]
    obtain ⟨⟨turn, row'⟩, hfind⟩ := Option.isSome_iff_exists.mp hfound
    have hlive := List.find?_some hfind
    simp only [isLive, Bool.and_eq_true, decide_eq_true_eq] at hlive
    have hget : s.db.turns.get? turn = some row' :=
      Dict.mem_entries.mp (List.mem_of_find?_eq_some hfind)
    have hturn : turn = s.run.turn := h.unique turn row' hget hlive.1 hlive.2
    unfold runningTurn
    rw [if_pos h.owned, hfind, hturn]
    rfl
  · exact Or.inr hcomplete

/-- INTERNAL: a new receiver has at most the event in store that waits for its broadcast. -/
theorem tail_of_new {env : Env} {s : State} {st : Stream} (hrun : RunOk env s)
    (hqueue : st.queue = []) : Tail env s st := by
  have hflight : flight s st = s.outbox.toList := by
    unfold flight
    rw [hqueue, List.nil_append]
  cases hbox : s.outbox with
  | none =>
    rw [hbox, Option.toList_none] at hflight
    refine ⟨?_, ?_, ?_⟩
    · rw [hflight]
      exact List.Pairwise.nil
    · rw [hflight]
      exact nofun
    · rw [hflight]
      intro before ev after hsplit
      cases before <;> cases hsplit
  | some ev =>
    obtain ⟨hrow, -, hterminal, -, m, hm, hshows⟩ := hrun.box ev hbox
    rw [hbox, Option.toList_some] at hflight
    have hrows : rows (flight s st) = [ev] := by
      rw [hflight, rows_singleton_of_row hrow]
    refine ⟨?_, ?_, ?_⟩
    · unfold Sorted
      rw [hrows]
      exact List.pairwise_singleton _ _
    · intro x hx
      rw [hrows, List.mem_singleton] at hx
      subst hx
      exact ⟨m, hm, hshows⟩
    · rw [hflight]
      show Ends s ([] ++ [ev])
      apply ends_snoc _ hterminal
      exact nofun

/-- INTERNAL: a subscribe finds the entry, or the runner is gone. -/
theorem streamOk_looked {env : Env} {s : State} {st : Stream} {cursor : ℤ} {turn? : Option ℕ}
    (hrun : RunOk env s) (hspawn : s.run.pc ≠ .spawn) (hpc : st.pc = .looked cursor turn?)
    (h : StreamOk env s st) :
    StreamOk env s { st with
      pc := .subscribed cursor (decide (turn? = some s.run.turn) && s.registered) } := by
  simp only [StreamOk, hpc] at h
  obtain ⟨hturn, hqueue, -, hseen⟩ := h
  cases hlive : decide (turn? = some s.run.turn) && s.registered with
  | false =>
    refine ⟨?_, hseen⟩
    rw [Bool.and_eq_false_iff, decide_eq_false_iff_not] at hlive
    rcases hlive with hne | hreg
    · exact hturn.resolve_left hne
    · exact complete_of_unregistered hrun hspawn hreg
  | true => exact ⟨hspawn, hseen, fun _ => tail_of_new hrun hqueue⟩

/-- INTERNAL: the replayed form of an agent row shows it. -/
theorem replayEvent_agent (env : Env) {m : MessageRow} (h : m.role ≠ .user) :
    ∃ ev, replayEvent env.parse ⟨m.seq, m.role, m.content⟩ = some ev ∧ ev.isRow = true ∧
      Shows env ev m := by
  cases hrole : m.role with
  | user => exact absurd hrole h
  | tool => exact ⟨_, rfl, rfl, rfl, Or.inl (by rw [hrole]; rfl)⟩
  | assistant => exact ⟨_, rfl, rfl, rfl, Or.inl (by rw [hrole]; rfl)⟩
  | error => exact ⟨_, rfl, rfl, rfl, Or.inl (by rw [hrole]; rfl)⟩

/-- The replay of a snapshot: the agent rows after the cursor, in order, each shown. -/
theorem snapshot_spec {env : Env} {s : State} (h : RunOk env s)
    (hopen : ∀ m, env.openRow m = some m.content) (cursor : ℤ) :
    ∃ found, s.db.messagesAfter env.openRow s.run.user s.run.session cursor = .ok found ∧
      (found.filterMap (replayEvent env.parse)).Pairwise (fun a b => a.seq < b.seq) ∧
      rows (found.filterMap (replayEvent env.parse)) = found.filterMap (replayEvent env.parse) ∧
      Genuine env s (found.filterMap (replayEvent env.parse)) ∧
      ∀ m, AgentRow s m → cursor < m.seq →
        m.seq ∈ (found.filterMap (replayEvent env.parse)).map ChatSseEvent.seq := by
  obtain ⟨found, hfound, hsorted, hmem⟩ :=
    messagesAfter_spec h.transcript env.openRow h.owned cursor
  have hseq : ∀ row ev, replayEvent env.parse row = some ev → ev.seq = row.seq ∧
      ev.isRow = true ∧ row.role ≠ .user := by
    intro row ev hev
    unfold replayEvent at hev
    split at hev
    · cases hev
    all_goals
      rename_i hrole
      cases hev
      refine ⟨rfl, rfl, ?_⟩
      rw [hrole]
      exact nofun
  have hshown : ∀ ev ∈ found.filterMap (replayEvent env.parse),
      ev.isRow = true ∧ ∃ m, AgentRow s m ∧ Shows env ev m := by
    intro ev hev
    obtain ⟨row, hrow, hreplay⟩ := List.mem_filterMap.mp hev
    obtain ⟨m, hm, hsession, -, hcontent, hrseq, hrole⟩ := (hmem row).mp hrow
    obtain ⟨heq, hisRow, huser⟩ := hseq row ev hreplay
    rw [hopen, Option.some.injEq] at hcontent
    refine ⟨hisRow, m, ⟨hm, hsession, ?_⟩, heq.trans hrseq, Or.inl ?_⟩
    · rw [← hrole]
      exact huser
    · rw [← hrseq, ← hrole, hcontent]
      exact hreplay
  have hrows : rows (found.filterMap (replayEvent env.parse)) =
      found.filterMap (replayEvent env.parse) := by
    unfold rows
    rw [List.filter_eq_self]
    intro ev hev
    exact (hshown ev hev).1
  refine ⟨found, hfound, ?_, hrows, ?_, ?_⟩
  · apply List.Pairwise.filterMap _ _ hsorted
    intro a b hlt ev hev ev' hev'
    rw [(hseq a ev hev).1, (hseq b ev' hev').1]
    exact hlt
  · unfold Genuine
    rw [hrows]
    intro ev hev
    exact (hshown ev hev).2
  · rintro m ⟨hm, hsession, hrole⟩ hlt
    obtain ⟨ev, hev, -, hshows⟩ := replayEvent_agent env hrole
    rw [List.mem_map]
    refine ⟨ev, List.mem_filterMap.mpr ⟨⟨m.seq, m.role, m.content⟩, ?_, hev⟩, hshows.1⟩
    exact (hmem _).mpr ⟨m, hm, hsession, hlt, hopen m, rfl, rfl⟩

/-- INTERNAL: with a snapshot the flow starts: every live event so far is in it. -/
theorem flow_snapshot {env : Env} {s : State} {cursor : ℤ} {seen todo tail : List ChatSseEvent}
    (hseen : rows seen = []) (htodo : rows todo = todo)
    (hsorted : todo.Pairwise fun a b => a.seq < b.seq) (hgenuine : Genuine env s todo)
    (hcovered : ∀ m, AgentRow s m → cursor < m.seq → m.seq ∈ todo.map ChatSseEvent.seq)
    (htail : Sorted tail) (htail' : Genuine env s tail) :
    Flow env s cursor (seen ++ todo ++ tail) := by
  have hrows : rows (seen ++ todo ++ tail) = todo ++ rows tail := by
    rw [rows_append, rows_append, hseen, htodo, List.nil_append]
  refine ⟨?_, ?_, ?_⟩
  · intro ev hev
    rw [hrows, List.mem_append] at hev
    rcases hev with hev | hev
    · rw [← htodo] at hev
      exact hgenuine ev hev
    · exact htail' ev hev
  · intro m hm hlt
    rw [hrows, List.map_append, List.mem_append]
    exact Or.inl (hcovered m hm hlt)
  · refine ⟨todo, rows tail, hrows, hsorted, htail, ?_⟩
    intro b hb hlt
    obtain ⟨m, hm, hshows⟩ := htail' b hb
    rw [hshows.1] at hlt ⊢
    exact Or.inl (hcovered m hm hlt)

/-- INTERNAL: the snapshot is taken with the receiver in place. -/
theorem streamOk_subscribed {env : Env} {s : State} {st st' : Stream} {cursor : ℤ} {live : Bool}
    {storeOk : Bool} (hopen : ∀ m, env.openRow m = some m.content) (hrun : RunOk env s)
    (hpc : st.pc = .subscribed cursor live) (h : StreamOk env s st)
    (hs : streamStep env s st storeOk = some st') : StreamOk env s st' := by
  obtain ⟨found, hfound, hsorted, hrows, hgenuine, hcovered⟩ := snapshot_spec hrun hopen cursor
  simp only [streamStep, hpc, hfound] at hs
  cases storeOk with
  | false =>
    cases hs
    trivial
  | true =>
    cases hs
    cases live with
    | false =>
      simp only [StreamOk, hpc] at h
      refine ⟨h.1, ?_⟩
      have hnil : Sorted [] := List.Pairwise.nil
      have hflow := flow_snapshot h.2 hrows hsorted hgenuine hcovered hnil nofun
      rw [List.append_nil] at hflow
      exact hflow
    | true =>
      simp only [StreamOk, hpc] at h
      refine ⟨h.1, ?_⟩
      intro hlag
      obtain ⟨htail, htail', hends⟩ := h.2.2 hlag
      exact ⟨flow_snapshot h.2.1 hrows hsorted hgenuine hcovered htail htail', hends⟩

/-- INTERNAL: the replay moves on. -/
theorem streamOk_replaying {env : Env} {s : State} {st st' : Stream} {cursor : ℤ}
    {todo : List ChatSseEvent} {live storeOk : Bool} (hpc : st.pc = .replaying cursor todo live)
    (h : StreamOk env s st) (hs : streamStep env s st storeOk = some st') : StreamOk env s st' := by
  cases todo with
  | nil =>
    simp only [streamStep, hpc] at hs
    cases live with
    | false =>
      cases hs
      simp only [StreamOk, hpc, List.append_nil] at h
      intro _
      exact ⟨muted_of_complete h.1, h.2⟩
    | true =>
      cases hs
      simp only [StreamOk, hpc, List.append_nil] at h
      exact h
  | cons ev todo =>
    simp only [streamStep, hpc] at hs
    cases hs
    have hmove : ∀ tail, st.seen ++ ev :: todo ++ tail = st.seen ++ [ev] ++ todo ++ tail := by
      intro tail
      rw [List.append_assoc st.seen [ev] todo, List.singleton_append]
    cases live with
    | false =>
      simp only [StreamOk, hpc] at h
      refine ⟨h.1, ?_⟩
      have hflow := h.2
      rw [← List.append_nil (st.seen ++ _), hmove, List.append_nil] at hflow
      exact hflow
    | true =>
      simp only [StreamOk, hpc, hmove] at h
      exact h

/-- INTERNAL: after a terminal event nothing comes. -/
theorem muted_of_terminal {env : Env} {s : State} {ev : ChatSseEvent} {evs : List ChatSseEvent}
    (hrun : RunOk env s) (hends : Ends s (ev :: evs ++ s.outbox.toList))
    (hterminal : ev.terminal = true) : Muted s ∧ rows evs = [] := by
  obtain ⟨hrows, hsilent⟩ := hends [] ev (evs ++ s.outbox.toList) rfl hterminal
  rw [rows_append, List.append_eq_nil_iff] at hrows
  refine ⟨⟨hsilent, ?_⟩, hrows.1⟩
  cases hbox : s.outbox with
  | none => rfl
  | some x =>
    have hlast := hrows.2
    rw [hbox, Option.toList_some, rows_singleton_of_row (hrun.box x hbox).1] at hlast
    cases hlast

/-- INTERNAL: the tail moves on. -/
theorem streamOk_tailing {env : Env} {s : State} {st st' : Stream} {cursor : ℤ} {storeOk : Bool}
    (hrun : RunOk env s) (hpc : st.pc = .tailing cursor) (h : StreamOk env s st)
    (hs : streamStep env s st storeOk = some st') : StreamOk env s st' := by
  simp only [StreamOk, hpc] at h
  obtain ⟨hspawn, h⟩ := h
  cases hlag : st.lagged with
  | true =>
    simp only [streamStep, hpc, hlag, if_true] at hs
    cases hs
    intro hwhy
    exact absurd rfl hwhy
  | false =>
    obtain ⟨hflow, hends⟩ := h hlag
    cases hqueue : st.queue with
    | nil =>
      simp only [streamStep, hpc, hlag, hqueue, Bool.false_eq_true, if_false] at hs
      split at hs
      · cases hs
      · rename_i hreg
        cases hs
        intro _
        have hcomplete : Complete s :=
          complete_of_unregistered hrun hspawn (Bool.eq_false_of_not_eq_true hreg)
        have hflight : flight s st = [] := by
          unfold flight
          rw [hqueue, hcomplete.2]
          rfl
        rw [hflight, List.append_nil] at hflow
        exact ⟨muted_of_complete hcomplete, hflow⟩
    | cons ev queue =>
      simp only [streamStep, hpc, hlag, hqueue, Bool.false_eq_true, if_false] at hs
      have hflight : flight s st = ev :: queue ++ s.outbox.toList := by
        unfold flight
        rw [hqueue]
      rw [hflight] at hflow hends
      cases hterminal : ev.terminal with
      | true =>
        rw [hterminal] at hs
        cases hs
        intro _
        obtain ⟨hmuted, hrest⟩ := muted_of_terminal hrun hends hterminal
        have hlast : rows (ev :: queue) = rows [ev] := by
          rw [← List.singleton_append, rows_append, hrest, List.append_nil]
        refine ⟨hmuted, flow_rows hflow ?_⟩
        rw [rows_append, rows_append, hmuted.2, Option.toList_none, List.append_nil, hlast]
      | false =>
        rw [hterminal] at hs
        cases hs
        refine ⟨hspawn, ?_⟩
        intro _
        refine ⟨?_, ends_tail hends⟩
        show Flow env s cursor (st.seen ++ [ev] ++ (queue ++ s.outbox.toList))
        rw [List.append_assoc, List.singleton_append]
        exact hflow

/-! ## Whole runs -/

/-- The invariant: of the runner, of every stream, and that the run stays that of `r`. -/
structure Inv (env : Env) (r : Run) (s : State) : Prop where
  run : RunOk env s
  streams : ∀ i, StreamOk env s (s.streams i)
  same : s.run = { r with pc := s.run.pc }

theorem inv_begin (env : Env) {db : ChatDb} {r : Run} (h : Started db r) :
    Inv env r (State.begin db r) where
  run := runOk_begin env h
  streams _ := trivial
  same := rfl

/-- INTERNAL: a step of one stream leaves the others as they are. -/
theorem inv_setStream {env : Env} {r : Run} {s : State} (h : Inv env r s) {st : Stream}
    (hst : StreamOk env s st) (i : ℕ) : Inv env r (s.setStream i st) := by
  refine ⟨runOk_congr h.run rfl rfl rfl rfl (Or.inl rfl), ?_, h.same⟩
  intro j
  have hj : StreamOk env s ((s.setStream i st).streams j) := by
    show StreamOk env s (Function.update s.streams i st j)
    by_cases hij : j = i
    · subst hij
      rw [Function.update_self]
      exact hst
    · rw [Function.update_of_ne hij]
      exact h.streams j
  exact streamOk_frame hj (fun m => Iff.rfl) rfl rfl id id id

/-- INTERNAL: what a broadcast leaves. -/
theorem sendBroadcast_eq {s : State} (h : s.registered = true) (ev : ChatSseEvent) :
    s.sendBroadcast ev = { s with streams := fun i => (s.streams i).receive ev } := by
  unfold State.sendBroadcast
  rw [if_pos h]

/-- INTERNAL: the event that waits goes out. -/
theorem inv_broadcast {env : Env} {r : Run} {s : State} (h : Inv env r s) {ev : ChatSseEvent}
    (hbox : s.outbox = some ev) : Inv env r { s.sendBroadcast ev with outbox := none } := by
  rw [sendBroadcast_eq (h.run.box ev hbox).2.1]
  refine ⟨runOk_congr h.run rfl rfl rfl rfl (Or.inr rfl), ?_, h.same⟩
  intro i
  refine streamOk_sent (h.streams i) rfl rfl rfl ?_ ?_
  · intro queue
    rw [hbox]
    rfl
  · intro queue hends
    rw [hbox] at hends
    exact hends

/-- INTERNAL: a queue position or an admission is no row, and no row waits meanwhile. -/
theorem inv_announce {env : Env} {r : Run} {s : State} (h : Inv env r s) {ev : ChatSseEvent}
    (hpc : s.run.pc = .admission) (hrow : ev.isRow = false) (hterminal : ev.terminal = false) :
    Inv env r (s.sendBroadcast ev) := by
  have hspawn : s.run.pc ≠ .spawn := by
    rw [hpc]
    exact nofun
  have hleft : s.left = false := by
    apply left_eq_false h.run
    rw [hpc]
    exact nofun
  have hbox : s.outbox = none := by
    cases hb : s.outbox with
    | none => rfl
    | some ev' => exact absurd hpc (h.run.box ev' hb).2.2.2.1
  rw [sendBroadcast_eq (h.run.entry.mpr ⟨hspawn, hleft⟩)]
  refine ⟨runOk_congr h.run rfl rfl rfl rfl (Or.inl rfl), ?_, h.same⟩
  intro i
  refine streamOk_sent (h.streams i) rfl rfl hbox ?_ ?_
  · intro queue
    rw [hbox, Option.toList_none, List.append_nil, rows_append, rows_singleton_of_not hrow,
      List.append_nil]
  · intro queue hends
    rw [hbox, Option.toList_none, List.append_nil] at hends
    exact ends_snoc_presentation hends hrow hterminal

/-- INTERNAL: a step of the runner. -/
theorem inv_runner {env : Env} {r : Run} {s s' : State} {ch : Choice} (h : Inv env r s)
    (hs : runnerStep env s ch = some s') : Inv env r s' := by
  rcases runnerStep_cases h.run.shape hs with ⟨ev, hbox, rfl⟩ | ⟨hbox, hpc, hleft, rfl⟩ |
    ⟨hbox, hspawn, hleave, hkept, hshape, hspawn', heffect⟩
  · exact inv_broadcast h hbox
  · refine ⟨runOk_leave h.run hpc hbox, ?_, h.same⟩
    intro i
    exact streamOk_frame (h.streams i) (fun m => Iff.rfl) rfl rfl id id id
  · have hsame : s'.run = { r with pc := s'.run.pc } := by
      rw [hkept.run, h.same]
    rcases heffect with hrests | ⟨m, ev, hwrites⟩
    · refine ⟨runOk_rests h.run hkept hshape hspawn hspawn' hleave hrests, ?_, hsame⟩
      intro i
      obtain ⟨-, hmessages, -⟩ := rests_tables hrests h.run.transcript
      rw [hkept.streams]
      apply streamOk_frame (h.streams i) _ (hrests.outbox.trans hbox.symm) _ hrests.silent
        (fun _ => hspawn') (fun hpc => absurd hpc hleave)
      · intro m
        unfold AgentRow
        rw [hmessages, hkept.run]
      · rw [hkept.run]
    · refine ⟨runOk_writes h.run hkept hshape hspawn hspawn' hleave hwrites, ?_, hsame⟩
      intro i
      rw [hkept.streams]
      exact streamOk_writes hkept hspawn' hbox hwrites (h.streams i)

/-- INTERNAL: a step of a stream that subscribes after the spawn. -/
theorem streamOk_stream {env : Env} {s : State} {st st' : Stream} {storeOk : Bool}
    (hopen : ∀ m, env.openRow m = some m.content) (hrun : RunOk env s)
    (hok : ∀ cursor turn?, st.pc = .looked cursor turn? → s.run.pc ≠ .spawn)
    (h : StreamOk env s st) (hs : streamStep env s st storeOk = some st') : StreamOk env s st' := by
  cases hpc : st.pc with
  | idle =>
    simp only [streamStep, hpc] at hs
    cases hs
  | refused =>
    simp only [streamStep, hpc] at hs
    cases hs
  | ended cursor why =>
    simp only [streamStep, hpc] at hs
    cases hs
  | looked cursor turn? =>
    simp only [streamStep, hpc] at hs
    cases hs
    exact streamOk_looked hrun (hok cursor turn? hpc) hpc h
  | subscribed cursor live => exact streamOk_subscribed hopen hrun hpc h hs
  | replaying cursor todo live => exact streamOk_replaying hpc h hs
  | tailing cursor => exact streamOk_tailing hrun hpc h hs

/-- One step keeps the invariant. -/
theorem inv_step {env : Env} {r : Run} {s s' : State} {a : Action}
    (hopen : ∀ m, env.openRow m = some m.content) (h : Inv env r s)
    (hok : subscribesAfterSpawn s a = true) (hs : step env s a = some s') : Inv env r s' := by
  cases a with
  | spawn =>
    simp only [step] at hs
    split at hs
    · rename_i hspawn
      have hpc : s.run.pc = .spawn := by
        cases hpc : s.run.pc with
        | spawn => rfl
        | _ =>
          rw [hpc] at hspawn
          cases hspawn
      cases hs
      refine ⟨runOk_spawn h.run hpc, ?_, ?_⟩
      · intro i
        refine streamOk_frame (h.streams i) (fun m => Iff.rfl) rfl rfl ?_ ?_ ?_
        · rw [hpc]
          exact False.elim
        · intro _
          exact nofun
        · rw [hpc]
          exact nofun
      · rw [h.same]
    · cases hs
  | run ch => exact inv_runner h hs
  | announce position =>
    simp only [step] at hs
    split at hs
    · rename_i hadmission
      have hpc : s.run.pc = .admission := by
        cases hpc : s.run.pc with
        | admission => rfl
        | _ =>
          rw [hpc] at hadmission
          cases hadmission
      cases hs
      cases position with
      | none => exact inv_announce h hpc rfl rfl
      | some position => exact inv_announce h hpc rfl rfl
    · cases hs
  | submitted i draft =>
    simp only [step, Option.ite_none_right_eq_some, Option.some.injEq] at hs
    obtain ⟨-, rfl⟩ := hs
    apply inv_setStream h
    refine ⟨Or.inl rfl, rfl, rfl, ?_⟩
    cases draft <;> rfl
  | reattach i after storeOk =>
    simp only [step] at hs
    split at hs
    · split at hs
      · cases hs
        apply inv_setStream h
        exact ⟨runningTurn_eq h.run, rfl, rfl, rfl⟩
      · cases hs
        apply inv_setStream h
        trivial
    · cases hs
  | stream i storeOk =>
    simp only [step, Option.map_eq_some_iff] at hs
    obtain ⟨st, hst, rfl⟩ := hs
    apply inv_setStream h
    apply streamOk_stream hopen h.run _ (h.streams i) hst
    intro cursor turn? hpc hspawn
    simp only [subscribesAfterSpawn, hpc, hspawn] at hok
    cases hok

/-- INTERNAL: a session's rows are told apart by their numbers. -/
theorem row_unique {db : ChatDb} (h : Transcript db) {m m' : MessageRow} (hm : m ∈ db.messages)
    (hm' : m' ∈ db.messages) (hsession : m'.sessionId = m.sessionId) (hseq : m'.seq = m.seq) :
    m' = m := by
  have hnodup : ((db.messages.filter fun x => x.sessionId = m.sessionId).map
      MessageRow.seq).Nodup := by
    apply List.Pairwise.map _ _ (pairwise_seq h m.sessionId)
    intro a b hlt
    exact hlt.ne
  apply List.inj_on_of_nodup_map hnodup _ _ hseq
  · rw [List.mem_filter, decide_eq_true_eq]
    exact ⟨hm', hsession⟩
  · rw [List.mem_filter, decide_eq_true_eq]
    exact ⟨hm, rfl⟩

/-- What the page has of a flow: the rows after the cursor, in order, all of them. -/
theorem shown_of_flow {env : Env} {s : State} {cursor : ℤ} {st : Stream}
    (htranscript : Transcript s.db) (h : Flow env s cursor st.seen) :
    ((shown cursor st).map ChatSseEvent.seq).Pairwise (· < ·) ∧
      ∀ m, AgentRow s m → cursor < m.seq → ∃ ev ∈ shown cursor st, Shows env ev m := by
  constructor
  · obtain ⟨replay, live, hsplit, hreplay, hlive, hover⟩ := h.overlap
    have hpairwise := Overlap.firstBy_pairwise ChatSseEvent.seq (fun ev => cursor < ev.seq)
      hreplay hlive hover
    rw [← hsplit] at hpairwise
    rw [List.pairwise_map, shown, List.pairwise_filter]
    apply hpairwise.imp
    intro a b hlt _ hb
    exact hlt (of_decide_eq_true hb)
  · intro m hm hlt
    obtain ⟨ev, hev, hseq⟩ := Overlap.exists_mem_firstBy ChatSseEvent.seq
      (h.covered m hm hlt) (List.not_mem_nil)
    have hrow : ev ∈ rows st.seen := (Overlap.firstBy_sublist ChatSseEvent.seq [] _).subset hev
    obtain ⟨m', hm', hshows⟩ := h.genuine ev hrow
    have hmm : m' = m := row_unique htranscript hm.1 hm'.1 (hm'.2.1.trans hm.2.1.symm)
      (hshows.1.symm.trans hseq)
    subst hmm
    refine ⟨ev, ?_, hshows⟩
    rw [shown, List.mem_filter, decide_eq_true_eq, hseq]
    exact ⟨hev, hlt⟩

/-- **No chat event is lost to a viewer.** In every run in which streams subscribe after
the spawn, a stream that ended without a lag has shown every agent row of the turn after
its cursor, in the order of the numbers, once the page has dropped the duplicates. -/
theorem viewer_sees_every_row (env : Env) (hopen : ∀ m, env.openRow m = some m.content)
    (db : ChatDb) (r : Run) (hstart : Started db r) (as : List Action) (s : State)
    (hrun : exec (step env) (State.begin db r) as = some s)
    (hafter : Meets (step env) (fun s a => subscribesAfterSpawn s a = true)
      (State.begin db r) as)
    (i : ℕ) (cursor : ℤ) (why : StreamEnd) (hend : (s.streams i).pc = .ended cursor why)
    (hlag : why ≠ .lagged) :
    ((shown cursor (s.streams i)).map ChatSseEvent.seq).Pairwise (· < ·) ∧
      ∀ m ∈ s.db.messages, m.sessionId = r.session → m.turn = r.turn → m.role ≠ .user →
        cursor < m.seq → ∃ ev ∈ shown cursor (s.streams i), Shows env ev m := by
  have hinv : Inv env r s :=
    exec_invariant_of_meets (Inv env r) (fun _ _ _ h hok hs => inv_step hopen h hok hs)
      (inv_begin env hstart) hrun hafter
  have hstream := hinv.streams i
  simp only [StreamOk, hend] at hstream
  obtain ⟨hpairwise, hall⟩ := shown_of_flow hinv.run.transcript (hstream hlag).2
  refine ⟨hpairwise, ?_⟩
  intro m hm hsession _ hrole hlt
  have hsession' : s.run.session = r.session := by
    rw [hinv.same]
  exact hall m ⟨hm, hsession.trans hsession'.symm, hrole⟩ hlt

/-! ## A turn with two viewers -/

/-- User 1 asks in session 7: turn 11. -/
def asked : List Model.ChatSessions.Action :=
  [.createSession 1 7 0, .createTurn 1 7 11 "hello" 1]

def askedDb : ChatDb :=
  match exec Model.ChatSessions.step .init asked with
  | some t => t.db
  | none => ⟨∅, ∅, []⟩

def askedRun : Run := ⟨1, 7, 11, false, .spawn⟩

theorem started_asked : Started askedDb askedRun where
  reached := ⟨asked, _, rfl, rfl⟩
  running := ⟨{ sessionId := 7, userSeq := 1, createdAt := 1, updatedAt := 1 }, by decide, rfl, rfl⟩
  owned := by decide
  pc := rfl

def plainEnv : Env where
  fmt := ⟨id, fun name _ => name⟩
  parse content := (content, "")
  openRow m := some m.content

/-- The agent looks something up and answers. -/
def answers : Choice where
  agent := ⟨[("look", "")], .ok "hi"⟩

/-- The row of the tool call is written between the subscribe and the snapshot. -/
def overlapped : List Action :=
  [.spawn, .submitted 0 false, .run answers, .stream 0 true, .announce (some 1), .run answers,
    .run answers, .stream 0 true, .run answers, .stream 0 true, .stream 0 true, .stream 0 true,
    .stream 0 true, .run answers, .run answers, .stream 0 true]

theorem viewer_sees_every_row_overlapped :
    ∃ s, exec (step plainEnv) (State.begin askedDb askedRun) overlapped = some s ∧
      (s.streams 0).seen.map ChatSseEvent.seq = [2, 0, 2, 3] ∧
      (shown 1 (s.streams 0)).map ChatSseEvent.seq = [2, 3] ∧
      ∀ m ∈ s.db.messages, m.sessionId = 7 → m.turn = 11 → m.role ≠ .user → (1 : ℤ) < m.seq →
        ∃ ev ∈ shown 1 (s.streams 0), Shows plainEnv ev m := by
  obtain ⟨s, hrun, hfacts⟩ := Option.map_eq_some_iff.mp
    (show (exec (step plainEnv) (State.begin askedDb askedRun) overlapped).map (fun s =>
      ((s.streams 0).pc, (s.streams 0).seen.map ChatSseEvent.seq,
        (shown 1 (s.streams 0)).map ChatSseEvent.seq)) =
      some (.ended 1 .terminal, [2, 0, 2, 3], [2, 3]) by decide)
  simp only [Prod.mk.injEq] at hfacts
  obtain ⟨hend, hseen, hshown⟩ := hfacts
  refine ⟨s, hrun, hseen, hshown, ?_⟩
  exact (viewer_sees_every_row plainEnv (fun _ => rfl) askedDb askedRun started_asked overlapped s
    hrun (by decide) 0 1 .terminal hend nofun).2

/-- The turn is running in the tables and its runner is still to be spawned: the reattach
replays nothing, closes, and misses the answer. -/
def earlyReattach : List Action :=
  [.reattach 0 (some 1) true, .stream 0 true, .stream 0 true, .stream 0 true, .spawn,
    .run answers, .run answers, .run answers]

theorem early_reattach_misses_rows :
    ∃ s, exec (step plainEnv) (State.begin askedDb askedRun) earlyReattach = some s ∧
      (s.streams 0).pc = .ended 1 .replayed ∧
      ∃ m ∈ s.db.messages, m.sessionId = 7 ∧ m.turn = 11 ∧ m.role ≠ .user ∧ (1 : ℤ) < m.seq ∧
        ¬ ∃ ev ∈ shown 1 (s.streams 0), Shows plainEnv ev m := by
  obtain ⟨s, hrun, hfacts⟩ := Option.map_eq_some_iff.mp
    (show (exec (step plainEnv) (State.begin askedDb askedRun) earlyReattach).map (fun s =>
      ((s.streams 0).pc, shown 1 (s.streams 0), s.db.messages)) =
      some (.ended 1 .replayed, [],
        [⟨7, 1, .user, "hello", 1, 11⟩, ⟨7, 2, .tool, "look", 0, 11⟩]) by decide)
  simp only [Prod.mk.injEq] at hfacts
  obtain ⟨hend, hshown, hmessages⟩ := hfacts
  refine ⟨s, hrun, hend, ⟨7, 2, .tool, "look", 0, 11⟩, ?_, rfl, rfl, nofun, by decide, ?_⟩
  · rw [hmessages]
    exact List.mem_cons_of_mem _ List.mem_cons_self
  · rw [hshown]
    rintro ⟨ev, hev, _⟩
    cases hev

end Mycelium.Analysis.ChatViewers
