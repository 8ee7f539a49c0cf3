import Mathlib.Data.List.GetD
import Mycelium.Lib.Fallible
import Mycelium.Model.Embeddings

/-!
# The order of the vectors of a batch

`ordered_vectors` answers with a vector for each position when the answer of the backend
is complete (`Complete`): its indices are the positions, each once, and every vector can be
served. The vector at a position is then the one tagged with it
(`orderedVectors_eq_ok_iff`), in whatever order the entries come.

Of an answer that is not complete the error names the first defect met, so that its text
depends on the order of the entries (`message_follows_order`).
-/

set_option autoImplicit false

namespace Mycelium.Analysis.EmbeddingOrder

open Mycelium.Model.Embeddings

/-! ## Answers -/

/-- A vector that is not empty and has finite values only. -/
def Served (v : Vector) : Prop := v ≠ [] ∧ ∀ x ∈ v, isFinite x = true

structure Complete (data : List EmbedData) (n : ℕ) : Prop where
  indices : (data.map EmbedData.index).Perm (List.range n)
  vectors : ∀ e ∈ data, Served e.embedding

section

variable {data : List EmbedData} {n : ℕ}

theorem Complete.lt (h : Complete data n) {e : EmbedData} (he : e ∈ data) : e.index < n :=
  List.mem_range.mp (h.indices.mem_iff.mp (List.mem_map_of_mem he))

theorem Complete.nodup (h : Complete data n) : (data.map EmbedData.index).Nodup :=
  h.indices.nodup_iff.mpr List.nodup_range

theorem Complete.exists_tagged (h : Complete data n) {i : ℕ} (hi : i < n) :
    ∃ e ∈ data, e.index = i :=
  List.mem_map.mp (h.indices.mem_iff.mpr (List.mem_range.mpr hi))

theorem complete_perm {data' : List EmbedData} (hperm : data.Perm data') :
    Complete data n ↔ Complete data' n := by
  constructor
  · intro h
    exact ⟨(hperm.map _).symm.trans h.indices, fun e he => h.vectors e (hperm.mem_iff.mpr he)⟩
  · intro h
    exact ⟨(hperm.map _).trans h.indices, fun e he => h.vectors e (hperm.mem_iff.mp he)⟩

/-! ## Filling the slots -/

def place (slots : List (Option Vector)) (e : EmbedData) : List (Option Vector) :=
  slots.set e.index (some e.embedding)

theorem fillSlot_eq_ok_iff {slots slots' : List (Option Vector)} {e : EmbedData} :
    fillSlot n slots e = .ok slots' ↔
      e.index < n ∧ slots.getD e.index none = none ∧ slots' = place slots e := by
  unfold fillSlot
  by_cases hrange : n ≤ e.index
  · rw [if_pos hrange]
    exact iff_of_false nofun fun h => absurd hrange (Nat.not_le.mpr h.1)
  · rw [if_neg hrange]
    cases hslot : slots.getD e.index none with
    | some v =>
      rw [Option.isSome_some, if_pos rfl]
      exact iff_of_false nofun fun h => nomatch h.2.1
    | none =>
      rw [Option.isSome_none, if_neg Bool.false_ne_true]
      constructor
      · intro h
        exact ⟨Nat.not_le.mp hrange, rfl, (Except.ok.inj h).symm⟩
      · rintro ⟨-, -, rfl⟩
        rfl

theorem getD_place {slots : List (Option Vector)} {e : EmbedData} {i : ℕ} (hi : i ≠ e.index) :
    (place slots e).getD i none = slots.getD i none := by
  rw [place, List.getD_eq_getElem?_getD, List.getD_eq_getElem?_getD, List.getElem?_set_ne hi.symm]

theorem length_place (slots : List (Option Vector)) (e : EmbedData) :
    (place slots e).length = slots.length := List.length_set

theorem getD_place_self {slots : List (Option Vector)} {e : EmbedData}
    (hlt : e.index < slots.length) : (place slots e).getD e.index none = some e.embedding := by
  rw [place, List.getD_eq_getElem?_getD, List.getElem?_set_self hlt]
  rfl

/-- INTERNAL: the entries fill the slots when their indices are distinct, in range and
free. -/
theorem foldlM_fillSlot_eq_ok_iff {slots out : List (Option Vector)}
    (hlen : slots.length = n) :
    data.foldlM (fillSlot n) slots = .ok out ↔
      (data.map EmbedData.index).Nodup ∧
        (∀ e ∈ data, e.index < n ∧ slots.getD e.index none = none) ∧
        out = data.foldl place slots := by
  induction data generalizing slots with
  | nil =>
    rw [List.foldlM_nil]
    constructor
    · intro h
      exact ⟨List.nodup_nil, fun _ he => absurd he List.not_mem_nil, (Except.ok.inj h).symm⟩
    · rintro ⟨-, -, rfl⟩
      rfl
  | cons e data ih =>
    have hlen' : (place slots e).length = n := (length_place slots e).trans hlen
    rw [List.foldlM_cons, List.map_cons, List.nodup_cons, List.foldl_cons]
    constructor
    · intro h
      cases hfill : fillSlot n slots e with
      | error err =>
        rw [hfill] at h
        cases h
      | ok slots' =>
        obtain ⟨hlt, hfree, rfl⟩ := fillSlot_eq_ok_iff.mp hfill
        rw [hfill] at h
        obtain ⟨hnodup, hrest, hout⟩ := (ih hlen').mp h
        have hfresh : e.index ∉ data.map EmbedData.index := by
          intro hmem
          obtain ⟨e', he', hindex⟩ := List.mem_map.mp hmem
          have htaken := (hrest e' he').2
          rw [hindex, getD_place_self (hlen.symm ▸ hlt)] at htaken
          cases htaken
        refine ⟨⟨hfresh, hnodup⟩, ?_, hout⟩
        intro e' he'
        rcases List.mem_cons.mp he' with rfl | he'
        · exact ⟨hlt, hfree⟩
        · have hne : e'.index ≠ e.index := fun heq => hfresh (heq ▸ List.mem_map_of_mem he')
          rw [← getD_place hne]
          exact hrest e' he'
    · rintro ⟨⟨hfresh, hnodup⟩, hall, rfl⟩
      obtain ⟨hlt, hfree⟩ := hall e List.mem_cons_self
      rw [fillSlot_eq_ok_iff.mpr ⟨hlt, hfree, rfl⟩]
      refine (ih hlen').mpr ⟨hnodup, ?_, rfl⟩
      intro e' he'
      have hne : e'.index ≠ e.index := fun heq => hfresh (heq ▸ List.mem_map_of_mem he')
      rw [getD_place hne]
      exact hall e' (List.mem_cons_of_mem e he')

theorem length_foldl_place (data : List EmbedData) (slots : List (Option Vector)) :
    (data.foldl place slots).length = slots.length := by
  induction data generalizing slots with
  | nil => rfl
  | cons e data ih => rw [List.foldl_cons, ih, length_place]

theorem getD_foldl_place_of_not_mem {slots : List (Option Vector)} {i : ℕ}
    (hi : i ∉ data.map EmbedData.index) :
    (data.foldl place slots).getD i none = slots.getD i none := by
  induction data generalizing slots with
  | nil => rfl
  | cons e data ih =>
    rw [List.map_cons, List.mem_cons, not_or] at hi
    rw [List.foldl_cons, ih hi.2, getD_place hi.1]

/-- INTERNAL: an entry stays in its slot. -/
theorem getD_foldl_place {slots : List (Option Vector)} {e : EmbedData} (he : e ∈ data)
    (hnodup : (data.map EmbedData.index).Nodup) (hlt : e.index < slots.length) :
    (data.foldl place slots).getD e.index none = some e.embedding := by
  induction data generalizing slots with
  | nil => cases he
  | cons e' data ih =>
    rw [List.map_cons, List.nodup_cons] at hnodup
    rw [List.foldl_cons]
    rcases List.mem_cons.mp he with rfl | he
    · rw [getD_foldl_place_of_not_mem hnodup.1, getD_place_self hlt]
    · exact ih he hnodup.2 (by rwa [length_place])

/-! ## Taking the vectors -/

theorem takeSlot_eq_ok_iff {slot : Option Vector × ℕ} {v : Vector} :
    takeSlot slot = .ok v ↔ slot.1 = some v ∧ Served v := by
  obtain ⟨slot, i⟩ := slot
  unfold takeSlot Served
  cases slot with
  | none => exact iff_of_false nofun fun h => nomatch h.1
  | some w =>
    by_cases hnil : w = []
    · subst hnil
      constructor
      · intro h
        cases h
      · rintro ⟨hw, hne, -⟩
        exact absurd (Option.some.inj hw).symm hne
    · by_cases hinf : w.any (!isFinite ·) = true
      · obtain ⟨x, hx, hbad⟩ := List.any_eq_true.mp hinf
        simp only [if_neg hnil, if_pos hinf]
        constructor
        · intro h
          cases h
        · rintro ⟨hw, -, hfinite⟩
          cases hw
          rw [hfinite x hx] at hbad
          cases hbad
      · simp only [if_neg hnil, if_neg hinf]
        constructor
        · intro h
          cases h
          refine ⟨rfl, hnil, fun x hx => ?_⟩
          by_contra hbad
          exact hinf (List.any_eq_true.mpr ⟨x, hx, by simpa using hbad⟩)
        · rintro ⟨hw, -, -⟩
          cases hw
          rfl

theorem mapM_takeSlot_eq_ok_iff {slots : List (Option Vector)} {out : List Vector} {k : ℕ} :
    (slots.zipIdx k).mapM takeSlot = .ok out ↔
      slots = out.map some ∧ ∀ v ∈ out, Served v := by
  rw [Fallible.mapM_ok_iff]
  induction slots generalizing out k with
  | nil =>
    rw [List.zipIdx_nil, List.forall₂_nil_left_iff]
    constructor
    · rintro rfl
      exact ⟨rfl, fun _ hv => absurd hv List.not_mem_nil⟩
    · rintro ⟨hout, -⟩
      exact List.map_eq_nil_iff.mp hout.symm
  | cons slot slots ih =>
    rw [List.zipIdx_cons, List.forall₂_cons_left_iff]
    constructor
    · rintro ⟨v, out, hv, hout, rfl⟩
      obtain ⟨hslot, hserved⟩ := takeSlot_eq_ok_iff.mp hv
      obtain ⟨hslots, hall⟩ := ih.mp hout
      have hslot : slot = some v := hslot
      refine ⟨?_, List.forall_mem_cons.mpr ⟨hserved, hall⟩⟩
      rw [List.map_cons, hslot, hslots]
    · rintro ⟨hslots, hall⟩
      cases out with
      | nil => cases hslots
      | cons v out =>
        rw [List.map_cons, List.cons.injEq] at hslots
        obtain ⟨hserved, hall⟩ := List.forall_mem_cons.mp hall
        exact ⟨v, out, takeSlot_eq_ok_iff.mpr ⟨hslots.1, hserved⟩,
          ih.mpr ⟨hslots.2, hall⟩, rfl⟩

/-! ## The whole answer -/

/-- INTERNAL: the two loops of `ordered_vectors`. -/
theorem orderedVectors_loops {out : List Vector} :
    orderedVectors data n = .ok out ↔
      data.foldlM (fillSlot n) (List.replicate n none) = .ok (out.map some) ∧
        ∀ v ∈ out, Served v := by
  unfold orderedVectors
  cases hfill : data.foldlM (fillSlot n) (List.replicate n none) with
  | error e => exact iff_of_false nofun fun h => nomatch h.1
  | ok slots =>
    rw [Except.ok.injEq]
    exact mapM_takeSlot_eq_ok_iff

/-- INTERNAL: the slots after the first loop of a complete answer. -/
theorem fill_of_complete (h : Complete data n) :
    data.foldlM (fillSlot n) (List.replicate n none) =
      .ok (data.foldl place (List.replicate n none)) := by
  refine (foldlM_fillSlot_eq_ok_iff List.length_replicate).mpr ⟨h.nodup, ?_, rfl⟩
  intro e he
  refine ⟨h.lt he, ?_⟩
  rw [List.getD_replicate _ (h.lt he)]

theorem length_placed (data : List EmbedData) (n : ℕ) :
    (data.foldl place (List.replicate n none)).length = n := by
  rw [length_foldl_place, List.length_replicate]

theorem getElem?_placed (h : Complete data n) {e : EmbedData} (he : e ∈ data) :
    (data.foldl place (List.replicate n none))[e.index]? = some (some e.embedding) := by
  have hlt : e.index < (data.foldl place (List.replicate n none)).length :=
    (length_placed data n).symm ▸ h.lt he
  have hfree : e.index < (List.replicate n (none : Option Vector)).length :=
    List.length_replicate.symm ▸ h.lt he
  have hget := getD_foldl_place he h.nodup hfree
  rw [List.getD_eq_getElem _ _ hlt] at hget
  rw [List.getElem?_eq_getElem hlt, hget]

/-- INTERNAL: the vectors `out` fill the slots when each entry has its own at its index. -/
theorem placed_eq_iff (h : Complete data n) {out : List Vector} :
    data.foldl place (List.replicate n none) = out.map some ↔
      out.length = n ∧ ∀ e ∈ data, out[e.index]? = some e.embedding := by
  have hlength := length_placed data n
  constructor
  · intro heq
    rw [heq, List.length_map] at hlength
    refine ⟨hlength, ?_⟩
    intro e he
    have hget := getElem?_placed h he
    rw [heq, List.getElem?_map, Option.map_eq_some_iff] at hget
    obtain ⟨v, hv, hsome⟩ := hget
    rw [hv, hsome]
  · rintro ⟨hout, htagged⟩
    refine List.ext_getElem? fun i => ?_
    rw [List.getElem?_map]
    by_cases hi : i < n
    · obtain ⟨e, he, rfl⟩ := h.exists_tagged hi
      rw [getElem?_placed h he, htagged e he]
      rfl
    · rw [List.getElem?_eq_none (by omega), List.getElem?_eq_none (by omega)]
      rfl

/-- INTERNAL: an answer that yields vectors is complete. -/
theorem complete_of_ok {out : List Vector} (h : orderedVectors data n = .ok out) :
    Complete data n := by
  obtain ⟨hfill, hserved⟩ := orderedVectors_loops.mp h
  obtain ⟨hnodup, hrange, hout⟩ := (foldlM_fillSlot_eq_ok_iff List.length_replicate).mp hfill
  have hlength : out.length = n := by
    rw [← length_placed data n, ← hout, List.length_map]
  have hslot : ∀ i < n, (data.foldl place (List.replicate n none)).getD i none ≠ none := by
    intro i hi
    have hi' : i < (out.map some).length := by rwa [List.length_map, hlength]
    rw [← hout, List.getD_eq_getElem _ _ hi', List.getElem_map]
    exact Option.some_ne_none _
  have hindices : (data.map EmbedData.index).Perm (List.range n) := by
    refine (List.perm_ext_iff_of_nodup hnodup List.nodup_range).mpr ?_
    intro i
    rw [List.mem_range]
    constructor
    · intro hi
      obtain ⟨e, he, rfl⟩ := List.mem_map.mp hi
      exact (hrange e he).1
    · intro hi
      by_contra hmissing
      apply hslot i hi
      rw [getD_foldl_place_of_not_mem hmissing, List.getD_replicate _ hi]
  refine ⟨hindices, ?_⟩
  intro e he
  have hlt : e.index < (List.replicate n (none : Option Vector)).length :=
    List.length_replicate.symm ▸ (hrange e he).1
  have hget := getD_foldl_place he hnodup hlt
  have hlt' : e.index < (out.map some).length := by
    rw [List.length_map, hlength]
    exact (hrange e he).1
  rw [← hout, List.getD_eq_getElem _ _ hlt', List.getElem_map, Option.some.injEq] at hget
  exact hget ▸ hserved _ (List.getElem_mem _)

/-- The vectors of an answer: it is complete, and each vector stands at its index. -/
theorem orderedVectors_eq_ok_iff {out : List Vector} :
    orderedVectors data n = .ok out ↔
      Complete data n ∧ out.length = n ∧ ∀ e ∈ data, out[e.index]? = some e.embedding := by
  constructor
  · intro h
    have hcomplete := complete_of_ok h
    have hfill := (orderedVectors_loops.mp h).1
    rw [fill_of_complete hcomplete, Except.ok.injEq] at hfill
    exact ⟨hcomplete, (placed_eq_iff hcomplete).mp hfill⟩
  · rintro ⟨hcomplete, hout, htagged⟩
    refine orderedVectors_loops.mpr ⟨?_, ?_⟩
    · rw [fill_of_complete hcomplete, (placed_eq_iff hcomplete).mpr ⟨hout, htagged⟩]
    · intro v hv
      obtain ⟨i, hi, rfl⟩ := List.mem_iff_getElem.mp hv
      obtain ⟨e, he, rfl⟩ := hcomplete.exists_tagged (hout ▸ hi)
      have hget := htagged e he
      rw [List.getElem?_eq_getElem hi, Option.some.injEq] at hget
      rw [hget]
      exact hcomplete.vectors e he

theorem exists_of_complete (h : Complete data n) : ∃ out, orderedVectors data n = .ok out := by
  let filled := data.foldl place (List.replicate n none)
  let vectors := filled.map fun slot => slot.getD []
  have hlength : vectors.length = n := (List.length_map _).trans (length_placed data n)
  refine ⟨vectors, orderedVectors_eq_ok_iff.mpr ⟨h, hlength, ?_⟩⟩
  intro e he
  rw [List.getElem?_map, getElem?_placed h he]
  rfl

/-- INTERNAL: every defect of an answer is a malformed answer. -/
theorem malformed_of_error {e : EmbeddingError} (h : orderedVectors data n = .error e) :
    ∃ message, e = .malformed message := by
  unfold orderedVectors at h
  cases hfill : data.foldlM (fillSlot n) (List.replicate n none) with
  | error e' =>
    rw [hfill] at h
    cases h
    obtain ⟨slots, entry, -, hentry⟩ := Fallible.of_foldlM_error hfill
    unfold fillSlot at hentry
    split_ifs at hentry
    · cases hentry
      exact ⟨_, rfl⟩
    · cases hentry
      exact ⟨_, rfl⟩
  | ok slots =>
    rw [hfill] at h
    obtain ⟨slot, -, hslot⟩ := Fallible.of_mapM_error h
    unfold takeSlot at hslot
    split at hslot
    · cases hslot
      exact ⟨_, rfl⟩
    · split_ifs at hslot
      · cases hslot
        exact ⟨_, rfl⟩
      · cases hslot
        exact ⟨_, rfl⟩

/-! ## A batch -/

variable {post : List String → Reply} {texts : List String}

/-- Of a batch that is embedded each text has the vector that the backend tagged with its
position, and no vector is over the cap. -/
theorem embedBatch_ok (htexts : texts ≠ []) {out : List Vector}
    (h : embedBatch post texts = .ok out) :
    ∃ status text data, post (truncated texts) = .answered status text (.ok data) ∧
      Complete data texts.length ∧ out.length = texts.length ∧
      (∀ e ∈ data, out[e.index]? = some e.embedding) ∧ ∀ v ∈ out, v.length ≤ maxEmbeddingDims := by
  unfold embedBatch at h
  rw [if_neg htexts] at h
  cases hpost : post (truncated texts) with
  | failed error =>
    rw [hpost] at h
    cases h
  | answered status text data =>
    simp only [hpost] at h
    split_ifs at h
    cases data with
    | error e => cases h
    | ok data =>
      dsimp only at h
      cases hvectors : orderedVectors data texts.length with
      | error e =>
        rw [hvectors] at h
        cases h
      | ok vectors =>
        rw [hvectors] at h
        obtain ⟨hcomplete, hlength, htagged⟩ := orderedVectors_eq_ok_iff.mp hvectors
        cases hcap : vectors.zipIdx.find? fun v => decide (maxEmbeddingDims < v.1.length) with
        | some entry =>
          simp only [bind, Except.bind, hcap] at h
          cases h
        | none =>
          simp only [bind, Except.bind, hcap] at h
          cases h
          refine ⟨status, text, data, rfl, hcomplete, hlength, htagged, ?_⟩
          intro v hv
          obtain ⟨i, hi, rfl⟩ := List.mem_iff_getElem.mp hv
          have hsmall := List.find?_eq_none.mp hcap (out[i], i)
            (List.mk_mem_zipIdx_iff_getElem?.mpr (List.getElem?_eq_getElem hi))
          simpa using hsmall

/-- The backend counts as down when the request fails or its status says so; an answer that
is malformed or over the cap is no evidence of that. -/
theorem backendDown_iff (htexts : texts ≠ []) {e : EmbeddingError}
    (h : embedBatch post texts = .error e) :
    e.isBackendDown = true ↔ (∃ error, post (truncated texts) = .failed error) ∨
      ∃ status text data, post (truncated texts) = .answered status text data ∧
        (500 ≤ status ∨ status = 401 ∨ status = 403) := by
  unfold embedBatch at h
  rw [if_neg htexts] at h
  cases hpost : post (truncated texts) with
  | failed error =>
    rw [hpost] at h
    cases h
    exact iff_of_true rfl (.inl ⟨error, rfl⟩)
  | answered status text data =>
    simp only [hpost] at h
    split_ifs at h with hstatus
    · cases h
      simp [EmbeddingError.isBackendDown, or_assoc]
    · -- a success status: whatever is wrong is in the answer
      have hmalformed : ∃ message, e = .malformed message := by
        cases data with
        | error e' =>
          cases h
          exact ⟨_, rfl⟩
        | ok data =>
          dsimp only at h
          cases hvectors : orderedVectors data texts.length with
          | error e' =>
            rw [hvectors] at h
            cases h
            exact malformed_of_error hvectors
          | ok vectors =>
            rw [hvectors] at h
            simp only [bind, Except.bind] at h
            split at h
            · cases h
              exact ⟨_, rfl⟩
            · cases h
      obtain ⟨message, rfl⟩ := hmalformed
      refine iff_of_false Bool.false_ne_true ?_
      rintro (⟨error, herror⟩ | ⟨status', text', data', hanswer, hdown⟩)
      · cases herror
      · cases hanswer
        omega

end

/-- `ordered_vectors` returns vectors for the complete answers and for no others, each
vector at the index it is tagged with; the order of the entries does not matter, but to
the message of the error. -/
theorem ordered_vectors_spec (data : List EmbedData) (n : ℕ) :
    ((∃ out, orderedVectors data n = .ok out) ↔
      (data.map EmbedData.index).Perm (List.range n) ∧
        ∀ e ∈ data, e.embedding ≠ [] ∧ ∀ x ∈ e.embedding, isFinite x = true) ∧
      (∀ out, orderedVectors data n = .ok out →
        out.length = n ∧ ∀ e ∈ data, out[e.index]? = some e.embedding) ∧
      ∀ data', data.Perm data' →
        (∀ out, orderedVectors data n = .ok out ↔ orderedVectors data' n = .ok out) ∧
          ((∃ message, orderedVectors data n = .error (.malformed message)) ↔
            ∃ message, orderedVectors data' n = .error (.malformed message)) := by
  have hcomplete : ∀ data : List EmbedData,
      (∃ out, orderedVectors data n = .ok out) ↔ Complete data n :=
    fun data => ⟨fun ⟨_, hout⟩ => complete_of_ok hout, exists_of_complete⟩
  have herror : ∀ data : List EmbedData,
      (∃ message, orderedVectors data n = .error (.malformed message)) ↔ ¬ Complete data n := by
    intro data
    rw [← hcomplete]
    cases hresult : orderedVectors data n with
    | ok out => simp
    | error e =>
      obtain ⟨message, rfl⟩ := malformed_of_error hresult
      simp
  refine ⟨?_, ?_, ?_⟩
  · rw [hcomplete]
    exact ⟨fun h => ⟨h.indices, h.vectors⟩, fun h => ⟨h.1, h.2⟩⟩
  · intro out hout
    exact (orderedVectors_eq_ok_iff.mp hout).2
  · intro data' hperm
    constructor
    · intro out
      rw [orderedVectors_eq_ok_iff, orderedVectors_eq_ok_iff, complete_perm hperm]
      simp only [hperm.mem_iff]
    · rw [herror, herror, complete_perm hperm]

/-- The same three entries in two orders. -/
theorem message_follows_order :
    [⟨1, [0#32]⟩, ⟨0, [0#32]⟩, ⟨0, [0#32]⟩].Perm
        ([⟨0, [0#32]⟩, ⟨0, [0#32]⟩, ⟨1, [0#32]⟩] : List EmbedData) ∧
      orderedVectors [⟨1, [0#32]⟩, ⟨0, [0#32]⟩, ⟨0, [0#32]⟩] 1 =
        .error (.malformed "embedding index 1 is out of range for 1 input(s)") ∧
      orderedVectors [⟨0, [0#32]⟩, ⟨0, [0#32]⟩, ⟨1, [0#32]⟩] 1 =
        .error (.malformed "duplicate embedding index 0 in the response") :=
  ⟨by decide, by rfl, by rfl⟩

end Mycelium.Analysis.EmbeddingOrder
