import Mycelium.Lib.StepSystem
import Mycelium.Model.QueryCache

/-!
# What cached answers rest on

1. *Fingerprints.* The text a listing is digested from joins paths and time stamps without
   marks between them. It tells two listings apart when no path has a time stamp before a slash
   in it (`fingerprint_injective`), and not otherwise (`fingerprint_ambiguous`).
2. *The condition* (`Careful`). The bundle of a query is not written while the query is under
   way; a global scope is not written as long as an answer rests on it; the stamps of a path do
   not repeat; hot memory answers while the cache has room.
3. *The invariant* (`Inv`). The text of a concept is the one noted for its stamp, so equal
   fingerprints give equal contents, and what an entry has seen of other scopes is there still.
4. *Every run* under the condition returns cached answers that rest on what is there, from a
   cache that keeps its bound (`cache_sound`).
5. *Without it* an answer outlives a write to the library (`library_write_unseen`), and hot
   answers fill the cache without a bound (`hot_answers_unbounded`).
-/

set_option autoImplicit false

namespace Mycelium.Analysis.CachedAnswers

open StepSystem
open Mycelium.Model.Text Mycelium.Model.Concepts Mycelium.Model.ConceptStore
open Mycelium.Model.QueryCache

/-! ## Fingerprints -/

/-- The form of a time stamp, as far as it matters: ten characters of a date, then the only `T`,
then a time, and no slash. -/
def Stamp (t : List Char) : Prop :=
  ∃ date time, t = date ++ 'T' :: time ∧ date.length = 10 ∧ 'T' ∉ time ∧ 'T' ∉ date ∧ '/' ∉ t

/-- A time stamp stands before a slash inside the path. -/
def Embeds (path : String) : Prop :=
  ∃ a t b, Stamp t ∧ path.toList = a ++ t ++ '/' :: b

/-- A row as the registry lists it: its path and its stamp. -/
structure RowOk (r : String × String) : Prop where
  absolute : ∃ rest, r.1.toList = '/' :: rest
  plain : ¬ Embeds r.1
  stamp : Stamp r.2.toList

def rowsOf (entries : List ConceptEntry) : List (String × String) :=
  entries.map fun e => (e.path, e.updatedAt)

def textOf (rows : List (String × String)) : List Char :=
  rows.flatMap fun r => r.1.toList ++ r.2.toList

theorem toList_bundleFingerprint (scope : ScopeId) (entries : List ConceptEntry) :
    (bundleFingerprint scope entries).toList = scope.id.toList ++ textOf (rowsOf entries) := by
  have hfold (text : String) :
      (entries.foldl (fun text e => text ++ e.path ++ e.updatedAt) text).toList =
        text.toList ++ textOf (rowsOf entries) := by
    induction entries generalizing text with
    | nil =>
      show text.toList = text.toList ++ []
      rw [List.append_nil]
    | cons e entries ih =>
      rw [List.foldl_cons, ih, String.toList_append, String.toList_append]
      show _ = text.toList ++ ((e.path.toList ++ e.updatedAt.toList) ++ textOf (rowsOf entries))
      simp only [List.append_assoc]
  exact hfold scope.id

/-- INTERNAL: of two splits at a character that does not come again the cuts are the same. -/
theorem split_eq {c : Char} {a a' b b' : List Char} (h : a ++ c :: b = a' ++ c :: b')
    (hb : c ∉ b) (hb' : c ∉ b') : a = a' := by
  rcases List.append_eq_append_iff.mp h with ⟨d, ha, hd⟩ | ⟨d, ha, hd⟩
  · cases d with
    | nil => simpa using ha.symm
    | cons x d =>
      obtain ⟨-, htail⟩ := List.cons.inj hd
      exact absurd (by rw [htail]; simp) hb
  · cases d with
    | nil => simpa using ha
    | cons x d =>
      obtain ⟨-, htail⟩ := List.cons.inj hd
      exact absurd (by rw [htail]; simp) hb'

/-- No time stamp ends in another one. -/
theorem stamp_suffix {x t : List Char} (ht : Stamp t) (hx : Stamp (x ++ t)) : x = [] := by
  obtain ⟨date, time, rfl, hlen, htime, -, -⟩ := ht
  obtain ⟨date', time', heq, hlen', htime', -, -⟩ := hx
  rw [← List.append_assoc] at heq
  have hdates : x ++ date = date' := split_eq heq htime htime'
  have hlens := congrArg List.length hdates
  rw [List.length_append] at hlens
  apply List.eq_nil_of_length_eq_zero
  omega

/-- INTERNAL: what follows a row is nothing or a path. -/
theorem textOf_head {rows : List (String × String)} (hrows : ∀ r ∈ rows, RowOk r) {c : Char}
    {rest : List Char} (h : textOf rows = c :: rest) : c = '/' := by
  cases rows with
  | nil => cases h
  | cons r rows =>
    obtain ⟨path, hpath⟩ := (hrows r List.mem_cons_self).absolute
    have hcons : textOf (r :: rows) = '/' :: (path ++ r.2.toList ++ textOf rows) := by
      show (r.1.toList ++ r.2.toList) ++ textOf rows = _
      rw [hpath]
      simp
    rw [hcons] at h
    exact (List.cons.inj h).1.symm

/-- INTERNAL: a row does not go on where another one ends. -/
theorem row_ends {r r' : String × String} (hr : RowOk r) (hr' : RowOk r') {a : List Char}
    (h : r'.1.toList ++ r'.2.toList = r.1.toList ++ r.2.toList ++ '/' :: a) : False := by
  obtain ⟨-, -, -, -, -, -, hslash⟩ := hr'.stamp
  rcases List.append_eq_append_iff.mp h with ⟨d, -, hd⟩ | ⟨d, hpath, hd⟩
  · -- the slash would be in the stamp
    apply hslash
    rw [hd]
    simp
  · cases d with
    | nil =>
      rw [List.nil_append] at hd
      apply hslash
      rw [← hd]
      exact List.mem_cons_self
    | cons c d =>
      -- the first row would end inside the path of the other one
      obtain ⟨rfl, -⟩ := List.cons.inj hd
      exact hr'.plain ⟨r.1.toList, r.2.toList, d, hr.stamp, hpath⟩

theorem row_eq {r r' : String × String} (hr : RowOk r) (hr' : RowOk r')
    (h : r.1.toList ++ r.2.toList = r'.1.toList ++ r'.2.toList) : r = r' := by
  have hpaths : r.1.toList = r'.1.toList := by
    rcases List.append_eq_append_iff.mp h with ⟨d, hpath, hd⟩ | ⟨d, hpath, hd⟩
    · have hstamp := hr.stamp
      rw [hd] at hstamp
      rw [hpath, stamp_suffix hr'.stamp hstamp, List.append_nil]
    · have hstamp := hr'.stamp
      rw [hd] at hstamp
      rw [hpath, stamp_suffix hr.stamp hstamp, List.append_nil]
  have hstamps : r.2.toList = r'.2.toList := by
    rw [hpaths] at h
    exact List.append_cancel_left h
  exact Prod.ext (String.toList_injective hpaths) (String.toList_injective hstamps)

theorem textOf_injective {rows rows' : List (String × String)} (hrows : ∀ r ∈ rows, RowOk r)
    (hrows' : ∀ r ∈ rows', RowOk r) (h : textOf rows = textOf rows') : rows = rows' := by
  induction rows generalizing rows' with
  | nil =>
    cases rows' with
    | nil => rfl
    | cons r' rows' =>
      obtain ⟨path, hpath⟩ := (hrows' r' List.mem_cons_self).absolute
      have hcons : textOf (r' :: rows') = (r'.1.toList ++ r'.2.toList) ++ textOf rows' := rfl
      rw [hcons, hpath] at h
      cases h
  | cons r rows ih =>
    have hrest : ∀ x ∈ rows, RowOk x := fun x hx => hrows x (List.mem_cons_of_mem r hx)
    cases rows' with
    | nil =>
      obtain ⟨path, hpath⟩ := (hrows r List.mem_cons_self).absolute
      have hcons : textOf (r :: rows) = (r.1.toList ++ r.2.toList) ++ textOf rows := rfl
      rw [hcons, hpath] at h
      cases h
    | cons r' rows' =>
      have hrest' : ∀ x ∈ rows', RowOk x := fun x hx => hrows' x (List.mem_cons_of_mem r' hx)
      have hr := hrows r List.mem_cons_self
      have hr' := hrows' r' List.mem_cons_self
      have hcut : (r.1.toList ++ r.2.toList) ++ textOf rows =
          (r'.1.toList ++ r'.2.toList) ++ textOf rows' := h
      have hends : r.1.toList ++ r.2.toList = r'.1.toList ++ r'.2.toList ∧
          textOf rows = textOf rows' := by
        rcases List.append_eq_append_iff.mp hcut with ⟨d, hrow, hd⟩ | ⟨d, hrow, hd⟩
        · cases d with
          | nil => exact ⟨by simpa using hrow.symm, hd⟩
          | cons c d =>
            obtain rfl := textOf_head hrest hd
            exact (row_ends hr hr' hrow).elim
        · cases d with
          | nil => exact ⟨by simpa using hrow, hd.symm⟩
          | cons c d =>
            obtain rfl := textOf_head hrest' hd
            exact (row_ends hr' hr hrow).elim
      rw [row_eq hr hr' hends.1, ih hrest hrest' hends.2]

/-- **Distinct listings have distinct fingerprints**, when no path has a time stamp before a
slash in it. -/
theorem fingerprint_injective {scope scope' : ScopeId} {entries entries' : List ConceptEntry}
    (hrows : ∀ r ∈ rowsOf entries, RowOk r) (hrows' : ∀ r ∈ rowsOf entries', RowOk r)
    (h : bundleFingerprint scope entries = bundleFingerprint scope' entries') :
    scope = scope' ∧ rowsOf entries = rowsOf entries' := by
  have htexts := congrArg String.toList h
  rw [toList_bundleFingerprint, toList_bundleFingerprint] at htexts
  have hsplit : scope.id.toList = scope'.id.toList ∧
      textOf (rowsOf entries) = textOf (rowsOf entries') := by
    rcases List.append_eq_append_iff.mp htexts with ⟨d, hid, hd⟩ | ⟨d, hid, hd⟩
    · cases d with
      | nil => exact ⟨by simpa using hid.symm, hd⟩
      | cons c d =>
        obtain rfl := textOf_head hrows hd
        exact absurd (by rw [hid]; simp) scope'.plain
    · cases d with
      | nil => exact ⟨by simpa using hid, hd.symm⟩
      | cons c d =>
        obtain rfl := textOf_head hrows' hd
        exact absurd (by rw [hid]; simp) scope.plain
  refine ⟨?_, textOf_injective hrows hrows' hsplit.2⟩
  cases scope
  cases scope'
  simpa using String.toList_injective hsplit.1

/-! ## The condition -/

/-- The bundle and the key of a query between its fingerprint and the end of its run. -/
def pending : Query → Option (ScopeId × Key)
  | .looking owner key _ | .hot owner key _ | .deep owner (some key) _ => some (owner, key)
  | _ => none

/-- No query of the scope has taken its fingerprint and is under way. -/
def Quiet (s : State) (scope : ScopeId) : Prop := ∀ i key, pending (s.queries i) ≠ some (scope, key)

/-- No put or delete of the path is under way. -/
def Settled (s : State) (scope : ScopeId) (path : String) : Prop :=
  ∀ i, (s.writes i).target ≠ some (scope, path)

/-- No live answer of another bundle, and none that is being made, rests on the scope. -/
def Unseen (s : State) (scope : ScopeId) : Prop :=
  (∀ key e, s.cache.get? key = some e → s.now < e.expiresAt → e.owner ≠ scope →
    ∀ x ∈ e.seen, x.1 ≠ scope) ∧
  ∀ i, (pending (s.queries i)).isSome = true → ∀ x ∈ (s.queries i).seen, x.1 ≠ scope

/-- The condition on a step. -/
def Careful (s : State) : Action → Prop
  | .fingerprint i _ =>
    match s.queries i with
    | .begun owner _ _ => ∀ path, Settled s owner path
    | _ => True
  | .answer i answer _ =>
    match s.queries i, answer with
    | .hot _ key _, some _ => s.cache.size < maxEntries ∨ (s.cache.get? key).isSome = true
    | _, _ => True
  | .put _ scope c _ =>
    Quiet s scope ∧ Settled s scope c.sourcePath ∧ Unseen s scope ∧ ¬ Embeds c.sourcePath
  | .register i now =>
    match s.writes i with
    | .registering scope c => Stamp now.toList ∧ s.texts scope c.sourcePath now = none
    | _ => True
  | .delete _ scope path => Quiet s scope ∧ Settled s scope path
  | .remove i =>
    match s.writes i with
    | .removing scope _ => Unseen s scope
    | _ => True
  | _ => True

/-! ## The invariant -/

/-- The content is that of the listing, each text the one noted for its stamp. -/
def Holds (texts : String → String → Option String) (entries : List ConceptEntry)
    (content : Content) : Prop :=
  ∀ path text, content path = some text ↔
    ∃ stamp, (path, stamp) ∈ rowsOf entries ∧ texts path stamp = some text

/-- The rows of a listing have stamps with texts. -/
def Listed (texts : String → String → Option String) (entries : List ConceptEntry) : Prop :=
  ∀ r ∈ rowsOf entries, RowOk r ∧ (texts r.1 r.2).isSome = true

/-- What an entry rests on: the listing of its bundle that its key was made from, and what is
still in the other scopes. -/
def EntryOk (s : State) (key : Key) (e : Entry) : Prop :=
  ∃ entries, key.fingerprint = bundleFingerprint e.owner entries ∧
    Listed (s.texts e.owner) entries ∧
    ∀ x ∈ e.seen, (x.1 = e.owner → Holds (s.texts e.owner) entries x.2) ∧
      (x.1 ≠ e.owner → (s.scopes x.1).files = x.2)

structure Inv (s : State) : Prop where
  listed : ∀ scope, Listed (s.texts scope) (s.scopes scope).registry
  held : ∀ scope path, Settled s scope path → ∀ text,
    (s.scopes scope).files path = some text ↔
      ∃ stamp, (path, stamp) ∈ rowsOf (s.scopes scope).registry ∧
        s.texts scope path stamp = some text
  alone : ∀ i j t, (s.writes i).target = some t → (s.writes j).target = some t → i = j
  putting : ∀ i scope c, s.writes i = .registering scope c →
    ((s.scopes scope).files c.sourcePath).isSome = true ∧ validPath c.sourcePath = true ∧
      ¬ Embeds c.sourcePath
  removing : ∀ i scope path, s.writes i = .removing scope path →
    ∀ e ∈ (s.scopes scope).registry, e.path ≠ path
  apart : ∀ i owner key, pending (s.queries i) = some (owner, key) → ∀ path, Settled s owner path
  keyed : ∀ i owner key, pending (s.queries i) = some (owner, key) →
    key.fingerprint = bundleFingerprint owner (s.scopes owner).list
  seen : ∀ i, (pending (s.queries i)).isSome = true → ∀ x ∈ (s.queries i).seen,
    (s.scopes x.1).files = x.2
  entries : ∀ key e, s.cache.get? key = some e → s.now < e.expiresAt → EntryOk s key e
  bounded : s.cache.size ≤ maxEntries

theorem inv_init : Inv State.init where
  listed _ e he := by cases he
  held _ _ _ _ := by
    constructor
    · intro h
      cases h
    · rintro ⟨stamp, hstamp, -⟩
      cases hstamp
  alone _ _ _ hi := by cases hi
  putting _ _ _ hi := by cases hi
  removing _ _ _ hi := by cases hi
  apart _ _ _ hi := by cases hi
  keyed _ _ _ hi := by cases hi
  seen _ hi := by cases hi
  entries _ _ he := by cases he
  bounded := Nat.zero_le _

theorem mem_rowsOf {entries : List ConceptEntry} {path stamp : String} :
    (path, stamp) ∈ rowsOf entries ↔ ∃ e ∈ entries, e.path = path ∧ e.updatedAt = stamp := by
  simp [rowsOf]

theorem mem_rowsOf_list {s : Store} {r : String × String} :
    r ∈ rowsOf s.list ↔ r ∈ rowsOf s.registry := by
  simp only [rowsOf, List.mem_map, mem_list]

theorem holds_unique {texts : String → String → Option String} {entries : List ConceptEntry}
    {content content' : Content} (h : Holds texts entries content)
    (h' : Holds texts entries content') : content = content' := by
  funext path
  apply Option.ext
  intro text
  show content path = some text ↔ content' path = some text
  rw [h path text, h' path text]

/-- INTERNAL: the content of a bundle that is not being written. -/
theorem holds_of_settled {s : State} (h : Inv s) {scope : ScopeId}
    (hsettled : ∀ path, Settled s scope path) :
    Holds (s.texts scope) (s.scopes scope).list (s.scopes scope).files := by
  intro path text
  rw [h.held scope path (hsettled path) text]
  simp only [mem_rowsOf_list]

theorem listed_list {s : State} (h : Inv s) (scope : ScopeId) :
    Listed (s.texts scope) (s.scopes scope).list :=
  fun r hr => h.listed scope r (mem_rowsOf_list.mp hr)

/-- **Equal fingerprints, equal contents**: what a live entry has seen is what is there when a
query looks it up. -/
theorem sound_of_inv {s : State} (h : Inv s) {i : ℕ} {owner : ScopeId} {key : Key} {e : Entry}
    (hpending : pending (s.queries i) = some (owner, key)) (he : s.cache.get? key = some e)
    (hlive : s.now < e.expiresAt) : ∀ x ∈ e.seen, (s.scopes x.1).files = x.2 := by
  obtain ⟨entries, hkey, hlisted, hseen⟩ := h.entries key e he hlive
  have hnow := h.keyed i owner key hpending
  rw [hkey] at hnow
  obtain ⟨howner, hsame⟩ := fingerprint_injective (fun r hr => (hlisted r hr).1)
    (fun r hr => (listed_list h owner r hr).1) hnow
  intro x hx
  by_cases hx' : x.1 = e.owner
  · -- the bundle of the entry is that of the query, and their listings are the same
    have hcontent := (hseen x hx).1 hx'
    have hhere := holds_of_settled h (h.apart i owner key hpending)
    unfold Holds at hcontent hhere
    rw [hsame, howner] at hcontent
    rw [hx', howner]
    exact holds_unique hhere hcontent
  · exact (hseen x hx).2 hx'

/-! ## One step -/

/-- INTERNAL: a query goes on. -/
theorem inv_setQuery {s : State} (h : Inv s) (i : ℕ) {q : Query}
    (hapart : ∀ owner key, pending q = some (owner, key) → ∀ path, Settled s owner path)
    (hkeyed : ∀ owner key, pending q = some (owner, key) →
      key.fingerprint = bundleFingerprint owner (s.scopes owner).list)
    (hseen : (pending q).isSome = true → ∀ x ∈ q.seen, (s.scopes x.1).files = x.2) :
    Inv (s.setQuery i q) where
  listed := h.listed
  held := h.held
  alone := h.alone
  putting := h.putting
  removing := h.removing
  apart j owner key hj := by
    by_cases hji : j = i
    · simp only [State.setQuery, hji, if_true] at hj
      exact hapart owner key hj
    · simp only [State.setQuery, hji, if_false] at hj
      exact h.apart j owner key hj
  keyed j owner key hj := by
    by_cases hji : j = i
    · simp only [State.setQuery, hji, if_true] at hj
      exact hkeyed owner key hj
    · simp only [State.setQuery, hji, if_false] at hj
      exact h.keyed j owner key hj
  seen j hj x hx := by
    by_cases hji : j = i
    · simp only [State.setQuery, hji, if_true] at hj hx
      exact hseen hj x hx
    · simp only [State.setQuery, hji, if_false] at hj hx
      exact h.seen j hj x hx
  entries := h.entries
  bounded := h.bounded

/-- INTERNAL: a query that rests on nothing. -/
theorem inv_setQuery_of_none {s : State} (h : Inv s) (i : ℕ) {q : Query} (hq : pending q = none) :
    Inv (s.setQuery i q) := by
  apply inv_setQuery h i
  · intro owner key hsome
    rw [hq] at hsome
    cases hsome
  · intro owner key hsome
    rw [hq] at hsome
    cases hsome
  · intro hsome
    rw [hq] at hsome
    cases hsome

/-- INTERNAL: the cache loses entries, or gains one that is good. -/
theorem inv_cache {s : State} (h : Inv s) {cache : Cache}
    (hentries : ∀ key e, cache.get? key = some e → s.cache.get? key = some e ∨ EntryOk s key e)
    (hbounded : cache.size ≤ maxEntries) : Inv { s with cache } where
  listed := h.listed
  held := h.held
  alone := h.alone
  putting := h.putting
  removing := h.removing
  apart := h.apart
  keyed := h.keyed
  seen := h.seen
  entries key e he hlive := by
    rcases hentries key e he with hold | hnew
    · exact h.entries key e hold hlive
    · exact hnew
  bounded := hbounded

/-- INTERNAL: what an eviction leaves was there. -/
theorem get?_dropOne {cache : Cache} {n : ℕ} {key : Key} {e : Entry}
    (h : (dropOne cache n).get? key = some e) : cache.get? key = some e := by
  unfold dropOne at h
  split at h
  · rw [Dict.get?_erase] at h
    split at h
    · cases h
    · exact h
  · exact h

theorem get?_trimCache {order : ℕ → ℕ} {fuel : ℕ} {cache : Cache} {key : Key} {e : Entry}
    (h : (trimCache order fuel cache).get? key = some e) : cache.get? key = some e := by
  induction fuel generalizing cache with
  | zero => exact h
  | succ fuel ih =>
    simp only [trimCache] at h
    split at h
    · exact get?_dropOne (ih h)
    · exact h

/-- INTERNAL: an eviction takes an entry when there is one. -/
theorem size_dropOne (cache : Cache) (n : ℕ) : (dropOne cache n).size = cache.size - 1 := by
  unfold dropOne
  cases hkey : cache.keys[n % cache.keys.length]? with
  | none =>
    -- only of an empty map there is no first entry
    have hlen := List.getElem?_eq_none_iff.mp hkey
    rw [Dict.length_keys] at hlen
    by_cases hsize : cache.size = 0
    · simp only [hsize]
    · have hlt := Nat.mod_lt n (Nat.pos_of_ne_zero hsize)
      omega
  | some k =>
    have hmem := Dict.mem_keys_iff.mp (List.mem_of_getElem? hkey)
    simp only [Dict.size_erase, hmem, if_true]

/-- **The eviction loop** leaves no more entries than the bound. -/
theorem size_trimCache (order : ℕ → ℕ) {fuel : ℕ} {cache : Cache}
    (hfuel : cache.size ≤ maxEntries + fuel) : (trimCache order fuel cache).size ≤ maxEntries := by
  induction fuel generalizing cache with
  | zero => exact hfuel
  | succ fuel ih =>
    simp only [trimCache]
    split
    · apply ih
      rw [size_dropOne]
      omega
    · omega

/-- INTERNAL: the entry of an answer is good. -/
theorem entryOk_entryOf {s : State} (h : Inv s) {i : ℕ} {owner : ScopeId} {key : Key}
    (hpending : pending (s.queries i) = some (owner, key)) (answer : String) :
    EntryOk s key (entryOf s owner answer (s.queries i).seen) := by
  refine ⟨(s.scopes owner).list, h.keyed i owner key hpending, listed_list h owner, ?_⟩
  intro x hx
  have hsees := h.seen i (by rw [hpending]; rfl) x hx
  refine ⟨?_, fun _ => hsees⟩
  intro howner
  rw [← hsees, howner]
  exact holds_of_settled h (h.apart i owner key hpending)

/-- INTERNAL: an answer is stored. -/
theorem inv_store {s : State} (h : Inv s) {i : ℕ} {owner : ScopeId} {key : Key}
    (hpending : pending (s.queries i) = some (owner, key)) (answer : String) {cache : Cache}
    (hcache : ∀ k e, cache.get? k = some e →
      (s.cache.insert key (entryOf s owner answer (s.queries i).seen)).get? k = some e)
    (hbounded : cache.size ≤ maxEntries) : Inv { s with cache } := by
  apply inv_cache h _ hbounded
  intro k e he
  have hin := hcache k e he
  rw [Dict.get?_insert] at hin
  split at hin
  · rename_i hk
    cases hin
    rw [hk]
    exact .inr (entryOk_entryOf h hpending answer)
  · exact .inl hin

/-- INTERNAL: hot memory and the agent answer. -/
theorem inv_answer {s s' : State} (h : Inv s) {i : ℕ} {answer : Option String} {order : ℕ → ℕ}
    {q : Query} (hok : Careful s (.answer i answer order))
    (hs : answerStep s answer order (s.queries i) = some (s', q)) : Inv (s'.setQuery i q) := by
  cases hq : s.queries i with
  | hot owner key seen =>
    have hpending : pending (s.queries i) = some (owner, key) := by rw [hq]; rfl
    have hseen : (s.queries i).seen = seen := by rw [hq]; rfl
    cases answer with
    | some text =>
      simp only [Careful, hq] at hok
      simp only [answerStep, hq] at hs
      cases hs
      have hroom : (s.cache.insert key (entryOf s owner text seen)).size ≤ maxEntries := by
        rw [Dict.size_insert]
        have hbound := h.bounded
        split
        · exact hbound
        · rename_i hnew
          have hlt := hok.resolve_right hnew
          omega
      apply inv_setQuery_of_none _ i rfl
      refine inv_store h hpending text ?_ hroom
      rw [hseen]
      exact fun _ _ he => he
    | none =>
      simp only [answerStep, hq] at hs
      cases hs
      apply inv_setQuery h i
      · intro owner' key' hsome
        cases hsome
        exact h.apart i owner key hpending
      · intro owner' key' hsome
        cases hsome
        exact h.keyed i owner key hpending
      · intro _ x hx
        cases hx
  | deep owner key seen =>
    cases key with
    | none =>
      simp only [answerStep, hq] at hs
      cases hs
      exact inv_setQuery_of_none h i rfl
    | some key =>
      have hpending : pending (s.queries i) = some (owner, key) := by rw [hq]; rfl
      have hseen : (s.queries i).seen = seen := by rw [hq]; rfl
      cases answer with
      | none =>
        simp only [answerStep, hq] at hs
        cases hs
        exact inv_setQuery_of_none h i rfl
      | some text =>
        simp only [answerStep, hq] at hs
        cases hs
        apply inv_setQuery_of_none _ i rfl
        refine inv_store h hpending text ?_ (size_trimCache order (Nat.le_add_left _ _))
        rw [hseen]
        exact fun _ _ he => get?_trimCache he
  | _ =>
    simp only [answerStep, hq] at hs
    cases hs

theorem inv_fingerprint (lower : String → String) {s s' : State} (h : Inv s) {i : ℕ} {fails : Bool}
    (hok : Careful s (.fingerprint i fails)) (hs : step lower s (.fingerprint i fails) = some s') :
    Inv s' := by
  simp only [step] at hs
  split at hs
  · rename_i owner question alone hq
    simp only [Careful, hq] at hok
    split at hs
    · cases hs
      apply inv_setQuery_of_none h
      cases alone <;> rfl
    · cases hs
      apply inv_setQuery h i
      · intro owner' key' hsome
        cases hsome
        exact hok
      · intro owner' key' hsome
        cases hsome
        rfl
      · intro _ x hx
        cases hx
  · cases hs

/-- INTERNAL: the look-up takes an expired entry out. -/
theorem inv_lookupExact {s : State} (h : Inv s) (key : Key) : Inv (lookupExact s key).1 := by
  unfold lookupExact
  split
  · exact h
  · split
    · exact h
    · apply inv_cache h
      · intro k e he
        rw [Dict.get?_erase] at he
        split at he
        · cases he
        · exact .inl he
      · have hbound := h.bounded
        rw [Dict.size_erase]
        split
        · omega
        · exact hbound

theorem queries_lookupExact (s : State) (key : Key) :
    (lookupExact s key).1.queries = s.queries ∧ (lookupExact s key).1.writes = s.writes ∧
      (lookupExact s key).1.scopes = s.scopes := by
  unfold lookupExact
  split
  · exact ⟨rfl, rfl, rfl⟩
  · split
    · exact ⟨rfl, rfl, rfl⟩
    · exact ⟨rfl, rfl, rfl⟩

theorem inv_lookup (lower : String → String) {s s' : State} (h : Inv s) {i : ℕ}
    (hs : step lower s (.lookup i) = some s') : Inv s' := by
  simp only [step] at hs
  split at hs
  · rename_i owner key alone hq
    have hpending : pending (s.queries i) = some (owner, key) := by rw [hq]; rfl
    have hmiss := inv_lookupExact h key
    obtain ⟨hqueries, hwrites, hscopes⟩ := queries_lookupExact s key
    split at hs
    · rename_i s₁ hit hlook
      rw [hlook] at hmiss
      cases hs
      exact inv_setQuery_of_none hmiss i rfl
    · rename_i s₁ hlook
      rw [hlook] at hmiss hqueries hwrites hscopes
      cases hs
      have hpending₁ : pending (s₁.queries i) = some (owner, key) := by rw [hqueries]; exact hpending
      cases alone with
      | true => exact inv_setQuery_of_none hmiss i rfl
      | false =>
        apply inv_setQuery hmiss i
        · intro owner' key' hsome
          cases hsome
          exact hmiss.apart i owner key hpending₁
        · intro owner' key' hsome
          cases hsome
          exact hmiss.keyed i owner key hpending₁
        · intro _ x hx
          cases hx
  · cases hs

theorem pending_see (scope : ScopeId) (content : Content) (q : Query) :
    pending (q.see scope content) = pending q := by
  cases q with
  | deep owner key seen => cases key <;> rfl
  | _ => rfl

/-- INTERNAL: a run that reads a scope has seen one more content at most. -/
theorem mem_seen_see {scope : ScopeId} {content : Content} {q : Query} {x : ScopeId × Content}
    (hx : x ∈ (q.see scope content).seen) : x = (scope, content) ∨ x ∈ q.seen := by
  cases q with
  | hot owner key seen => exact List.mem_cons.mp hx
  | deep owner key seen => exact List.mem_cons.mp hx
  | _ => cases hx

theorem inv_read (lower : String → String) {s s' : State} (h : Inv s) {i : ℕ} {scope : ScopeId}
    (hs : step lower s (.read i scope) = some s') : Inv s' := by
  simp only [step] at hs
  split at hs
  · cases hs
    apply inv_setQuery h i
    · intro owner key hsome
      rw [pending_see] at hsome
      exact h.apart i owner key hsome
    · intro owner key hsome
      rw [pending_see] at hsome
      exact h.keyed i owner key hsome
    · intro hsome x hx
      rw [pending_see] at hsome
      rcases mem_seen_see hx with rfl | hx
      · rfl
      · exact h.seen i hsome x hx
  · cases hs

/-! ### Writes -/

/-- What the step of a write does to the store of its scope, to the noted texts and to the
write itself. -/
def wrote (s : State) (i : ℕ) (scope : ScopeId) (store : Store)
    (texts : ScopeId → String → String → Option String) (w : Write) : State :=
  { s with
    scopes := fun k => if k = scope then store else s.scopes k
    texts := texts
    writes := fun j => if j = i then w else s.writes j }

/-- What the step of a write must see to. -/
structure Writes (s : State) (i : ℕ) (scope : ScopeId) (store : Store)
    (texts : ScopeId → String → String → Option String) (w : Write) : Prop where
  starts : ∀ t, w.target = some t →
    t.1 = scope ∧ Quiet s scope ∧ ∀ j, (s.writes j).target ≠ some t
  ends : ∀ t, (s.writes i).target = some t → t.1 = scope
  noted : ∀ k path stamp, (k = scope → (s.texts k path stamp).isSome = true) →
    texts k path stamp = s.texts k path stamp
  listed : Listed (texts scope) store.registry
  held : ∀ path, (∀ j, j ≠ i → (s.writes j).target ≠ some (scope, path)) →
    w.target ≠ some (scope, path) → ∀ text, store.files path = some text ↔
      ∃ stamp, (path, stamp) ∈ rowsOf store.registry ∧ texts scope path stamp = some text
  putting : ∀ c, (w = .registering scope c ∨ ∃ j, j ≠ i ∧ s.writes j = .registering scope c) →
    (store.files c.sourcePath).isSome = true
  valid : ∀ k c, w = .registering k c → validPath c.sourcePath = true ∧ ¬ Embeds c.sourcePath
  removing : ∀ path, (w = .removing scope path ∨ ∃ j, j ≠ i ∧ s.writes j = .removing scope path) →
    ∀ e ∈ store.registry, e.path ≠ path
  files : store.files = (s.scopes scope).files ∨ Unseen s scope
  list : store.list = (s.scopes scope).list ∨ Quiet s scope

/-- INTERNAL: an entry through a write. -/
theorem entryOk_wrote {s : State} {i : ℕ} {scope : ScopeId} {store : Store}
    {texts : ScopeId → String → String → Option String} {w : Write}
    (hwrites : Writes s i scope store texts w) {key : Key} {e : Entry}
    (he : s.cache.get? key = some e) (hlive : s.now < e.expiresAt) (h : EntryOk s key e) :
    EntryOk (wrote s i scope store texts w) key e := by
  obtain ⟨entries, hkey, hlisted, hseen⟩ := h
  have hsame {path stamp : String} (hr : (path, stamp) ∈ rowsOf entries) :
      texts e.owner path stamp = s.texts e.owner path stamp :=
    hwrites.noted e.owner path stamp fun _ => (hlisted _ hr).2
  refine ⟨entries, hkey, ?_, ?_⟩
  · intro r hr
    refine ⟨(hlisted r hr).1, ?_⟩
    show (texts e.owner r.1 r.2).isSome = true
    rw [hsame hr]
    exact (hlisted r hr).2
  · intro x hx
    constructor
    · intro howner path text
      rw [(hseen x hx).1 howner path text]
      apply exists_congr
      intro stamp
      apply and_congr_right
      intro hr
      show s.texts e.owner path stamp = some text ↔ texts e.owner path stamp = some text
      rw [hsame hr]
    · intro howner
      rw [← (hseen x hx).2 howner]
      show (if x.1 = scope then store else s.scopes x.1).files = _
      split
      · rename_i hscope
        rcases hwrites.files with hfiles | hunseen
        · rw [hfiles, hscope]
        · have hne : e.owner ≠ scope := fun heq => howner (hscope.trans heq.symm)
          exact absurd hscope (hunseen.1 key e he hlive hne x hx)
      · rfl

/-- INTERNAL: the step of a write. -/
theorem inv_wrote {s : State} (h : Inv s) {i : ℕ} {scope : ScopeId} {store : Store}
    {texts : ScopeId → String → String → Option String} {w : Write}
    (hwrites : Writes s i scope store texts w) : Inv (wrote s i scope store texts w) where
  listed k := by
    by_cases hk : k = scope
    · subst hk
      simpa [wrote] using hwrites.listed
    · intro r hr
      have hr' : r ∈ rowsOf (s.scopes k).registry := by simpa [wrote, hk] using hr
      refine ⟨(h.listed k r hr').1, ?_⟩
      show (texts k r.1 r.2).isSome = true
      rw [hwrites.noted k r.1 r.2 fun heq => absurd heq hk]
      exact (h.listed k r hr').2
  held k path hsettled text := by
    have hothers : ∀ j, j ≠ i → (s.writes j).target ≠ some (k, path) := by
      intro j hj
      simpa [wrote, hj] using hsettled j
    have hnew : w.target ≠ some (k, path) := by simpa [wrote] using hsettled i
    by_cases hk : k = scope
    · subst hk
      simpa [wrote] using hwrites.held path hothers hnew text
    · -- the write was not about this scope before either
      have hbefore : Settled s k path := by
        intro j
        by_cases hj : j = i
        · intro htarget
          rw [hj] at htarget
          exact hk (hwrites.ends _ htarget)
        · exact hothers j hj
      have htexts : texts k = s.texts k := by
        funext q u
        exact hwrites.noted k q u fun heq => absurd heq hk
      have hheld := h.held k path hbefore text
      rw [← htexts] at hheld
      simpa [wrote, hk] using hheld
  alone j j' t hj hj' := by
    simp only [wrote] at hj hj'
    split at hj
    · split at hj'
      · rename_i hji hji'
        rw [hji, hji']
      · exact absurd hj' ((hwrites.starts t hj).2.2 j')
    · split at hj'
      · exact absurd hj ((hwrites.starts t hj').2.2 j)
      · exact h.alone j j' t hj hj'
  putting j k c hj := by
    simp only [wrote] at hj ⊢
    by_cases hk : k = scope
    · subst hk
      simp only [if_true]
      split at hj
      · exact ⟨hwrites.putting c (.inl hj), hwrites.valid k c hj⟩
      · rename_i hji
        exact ⟨hwrites.putting c (.inr ⟨j, hji, hj⟩), (h.putting j k c hj).2⟩
    · simp only [hk, if_false]
      split at hj
      · have htarget : w.target = some (k, c.sourcePath) := by rw [hj]; rfl
        exact absurd (hwrites.starts _ htarget).1 hk
      · exact h.putting j k c hj
  removing j k path hj := by
    simp only [wrote] at hj ⊢
    by_cases hk : k = scope
    · subst hk
      simp only [if_true]
      split at hj
      · exact hwrites.removing path (.inl hj)
      · rename_i hji
        exact hwrites.removing path (.inr ⟨j, hji, hj⟩)
    · simp only [hk, if_false]
      split at hj
      · have htarget : w.target = some (k, path) := by rw [hj]; rfl
        exact absurd (hwrites.starts _ htarget).1 hk
      · exact h.removing j k path hj
  apart j owner key hj path j' := by
    simp only [wrote]
    split
    · intro htarget
      obtain ⟨hscope, hquiet, -⟩ := hwrites.starts _ htarget
      have howner : owner = scope := hscope
      exact hquiet j key (howner ▸ hj)
    · exact h.apart j owner key hj path j'
  keyed j owner key hj := by
    rw [h.keyed j owner key hj]
    show _ = bundleFingerprint owner (if owner = scope then store else s.scopes owner).list
    split
    · rename_i howner
      rcases hwrites.list with hlist | hquiet
      · rw [hlist, howner]
      · exact absurd hj (howner ▸ hquiet j key)
    · rfl
  seen j hj x hx := by
    rw [← h.seen j hj x hx]
    show (if x.1 = scope then store else s.scopes x.1).files = _
    split
    · rename_i hscope
      rcases hwrites.files with hfiles | hunseen
      · rw [hfiles, hscope]
      · exact absurd hscope (hunseen.2 j hj x hx)
    · rfl
  entries key e he hlive := entryOk_wrote hwrites he hlive (h.entries key e he hlive)
  bounded := h.bounded

/-- INTERNAL: the write of a put's file. -/
theorem inv_put (lower : String → String) {s s' : State} (h : Inv s) {i : ℕ} {scope : ScopeId}
    {c : Concept} {markdown : String} (hok : Careful s (.put i scope c markdown))
    (hs : step lower s (.put i scope c markdown) = some s') : Inv s' := by
  obtain ⟨hquiet, hsettled, hunseen, hplain⟩ := hok
  simp only [step] at hs
  split at hs
  · rename_i store hidle hwrite
    cases hs
    have hpath := validPath_of_write hwrite
    have hstore := write_eq_ok hwrite
    subst hstore
    apply @inv_wrote s h i scope _ s.texts
    refine ⟨?_, ?_, fun _ _ _ _ => rfl, h.listed scope, ?_, ?_, ?_, ?_, .inr hunseen, .inl rfl⟩
    · intro t ht
      cases ht
      exact ⟨rfl, hquiet, hsettled⟩
    · intro t ht
      rw [hidle] at ht
      cases ht
    · -- the files of the other paths are as they were
      intro path hothers hnew text
      have hne : path ≠ c.sourcePath := by
        rintro rfl
        exact hnew rfl
      have hbefore : Settled s scope path := by
        intro j
        by_cases hj : j = i
        · rw [hj, hidle]
          exact fun htarget => by cases htarget
        · exact hothers j hj
      simpa [hne] using h.held scope path hbefore text
    · rintro d (hd | ⟨j, -, hd⟩)
      · cases hd
        simp
      · have hfile := (h.putting j scope d hd).1
        dsimp only
        split
        · rfl
        · exact hfile
    · intro k d hd
      cases hd
      exact ⟨hpath, hplain⟩
    · rintro path (hd | ⟨j, -, hd⟩)
      · cases hd
      · exact h.removing j scope path hd
  · cases hs

/-- INTERNAL: the rows of the registry after an upsert. -/
theorem mem_rowsOf_register {store : Store} {c : Concept} {now path stamp : String} :
    (path, stamp) ∈ rowsOf (store.register c now).registry ↔
      if path = c.sourcePath then stamp = now else (path, stamp) ∈ rowsOf store.registry := by
  simp only [mem_rowsOf]
  unfold Store.register
  simp only
  split
  · rename_i hregistered
    obtain ⟨e₀, he₀, hpath₀⟩ := registered_iff.mp hregistered
    constructor
    · rintro ⟨e, he, rfl, rfl⟩
      obtain ⟨e', he', rfl⟩ := List.mem_map.mp he
      by_cases hpath : e'.path = c.sourcePath
      · simp [hpath]
      · simp only [hpath, if_false]
        exact ⟨e', he', rfl, rfl⟩
    · intro h
      split at h
      · rename_i hpath
        refine ⟨_, List.mem_map_of_mem he₀, ?_, ?_⟩
        · simp [hpath₀, hpath]
        · simp [hpath₀, h]
      · rename_i hpath
        obtain ⟨e, he, rfl, rfl⟩ := h
        refine ⟨e, List.mem_map.mpr ⟨e, he, ?_⟩, rfl, rfl⟩
        rw [if_neg hpath]
  · rename_i hnew
    have habsent : ∀ e ∈ store.registry, e.path ≠ c.sourcePath := by
      intro e he hpath
      exact hnew (registered_iff.mpr ⟨e, he, hpath⟩)
    simp only [List.mem_append, List.mem_singleton]
    constructor
    · rintro ⟨e, he | rfl, rfl, rfl⟩
      · rw [if_neg (habsent e he)]
        exact ⟨e, he, rfl, rfl⟩
      · simp
    · intro h
      split at h
      · rename_i hpath
        exact ⟨_, .inr rfl, hpath.symm, h.symm⟩
      · obtain ⟨e, he, hpath, hstamp⟩ := h
        exact ⟨e, .inl he, hpath, hstamp⟩

/-- INTERNAL: the write of a put's row. -/
theorem inv_register (lower : String → String) {s s' : State} (h : Inv s) {i : ℕ} {now : String}
    (hok : Careful s (.register i now)) (hs : step lower s (.register i now) = some s') :
    Inv s' := by
  simp only [step] at hs
  split at hs
  · rename_i scope c hputting
    cases hs
    simp only [Careful, hputting] at hok
    obtain ⟨hstamp, hfresh⟩ := hok
    obtain ⟨hfile, hvalid, hplain⟩ := h.putting i scope c hputting
    obtain ⟨-, -, hfiles, -⟩ := register_fields (s.scopes scope) c now
    have htarget : (s.writes i).target = some (scope, c.sourcePath) := by rw [hputting]; rfl
    have hnoted (path stamp : String) : (s.note scope c.sourcePath now).texts scope path stamp =
        if path = c.sourcePath ∧ stamp = now then (s.scopes scope).files path
        else s.texts scope path stamp := by
      by_cases hrow : path = c.sourcePath ∧ stamp = now
      · obtain ⟨rfl, rfl⟩ := hrow
        simp [State.note, hfresh]
      · simp [State.note, hrow]
    apply @inv_wrote s h i scope _ (s.note scope c.sourcePath now).texts .idle
    refine ⟨?_, ?_, ?_, ?_, ?_, ?_, ?_, ?_, .inl hfiles, .inr ?_⟩
    · intro t ht
      cases ht
    · intro t ht
      rw [htarget] at ht
      cases ht
      rfl
    · intro k path stamp hold
      by_cases hk : k = scope
      · subst hk
        rw [hnoted]
        split
        · rename_i hrow
          have hsome := hold rfl
          rw [hrow.1, hrow.2, hfresh] at hsome
          cases hsome
        · rfl
      · simp [State.note, hk]
    · rintro ⟨path, stamp⟩ hr
      rw [mem_rowsOf_register] at hr
      dsimp only
      rw [hnoted]
      split at hr
      · rename_i hpath
        subst hpath
        subst hr
        refine ⟨⟨validPath_iff.mp hvalid, hplain, hstamp⟩, ?_⟩
        simpa using hfile
      · rename_i hpath
        have hother : ¬ (path = c.sourcePath ∧ stamp = now) := fun hrow => hpath hrow.1
        rw [if_neg hother]
        exact h.listed scope (path, stamp) hr
    · intro path hothers _ text
      rw [hfiles]
      by_cases hpath : path = c.sourcePath
      · -- the one row of the path has the stamp whose text has been noted
        subst hpath
        simp only [mem_rowsOf_register, if_true, hnoted]
        constructor
        · intro htext
          exact ⟨now, rfl, by simpa using htext⟩
        · rintro ⟨stamp, rfl, htext⟩
          simpa using htext
      · have hbefore : Settled s scope path := by
          intro j
          by_cases hj : j = i
          · rw [hj, htarget]
            intro heq
            cases heq
            exact hpath rfl
          · exact hothers j hj
        simpa [mem_rowsOf_register, hnoted, hpath] using h.held scope path hbefore text
    · rintro d (hd | ⟨j, -, hd⟩)
      · cases hd
      · rw [hfiles]
        exact (h.putting j scope d hd).1
    · intro k d hd
      cases hd
    · rintro path (hd | ⟨j, hj, hd⟩) e he heq
      · cases hd
      · have hjtarget : (s.writes j).target = some (scope, path) := by rw [hd]; rfl
        rcases path_of_mem_register he with hnew | ⟨e', he', hold⟩
        · rw [← heq, hnew] at hjtarget
          exact hj (h.alone j i _ hjtarget htarget)
        · exact h.removing j scope path hd e' he' (hold.trans heq)
    · intro j key hpending
      exact h.apart j scope key hpending c.sourcePath i htarget
  · cases hs

/-- INTERNAL: a delete takes the row. -/
theorem inv_delete (lower : String → String) {s s' : State} (h : Inv s) {i : ℕ} {scope : ScopeId}
    {path : String} (hok : Careful s (.delete i scope path))
    (hs : step lower s (.delete i scope path) = some s') : Inv s' := by
  obtain ⟨hquiet, hsettled⟩ := hok
  have hrows {q stamp : String} : (q, stamp) ∈ rowsOf ((s.scopes scope).unregister path).registry ↔
      (q, stamp) ∈ rowsOf (s.scopes scope).registry ∧ q ≠ path := by
    simp only [mem_rowsOf, Store.unregister, List.mem_filter, decide_eq_true_eq]
    constructor
    · rintro ⟨e, ⟨he, hne⟩, rfl, rfl⟩
      exact ⟨⟨e, he, rfl, rfl⟩, hne⟩
    · rintro ⟨⟨e, he, rfl, rfl⟩, hne⟩
      exact ⟨e, ⟨he, hne⟩, rfl, rfl⟩
  simp only [step] at hs
  split at hs
  · rename_i content hidle hfile
    cases hs
    apply @inv_wrote s h i scope _ s.texts
    refine ⟨?_, ?_, fun _ _ _ _ => rfl, ?_, ?_, ?_, ?_, ?_, .inl rfl, .inr hquiet⟩
    · intro t ht
      cases ht
      exact ⟨rfl, hquiet, hsettled⟩
    · intro t ht
      rw [hidle] at ht
      cases ht
    · rintro ⟨q, stamp⟩ hr
      exact h.listed scope (q, stamp) (hrows.mp hr).1
    · intro q hothers hnew text
      have hne : q ≠ path := by
        rintro rfl
        exact hnew rfl
      have hbefore : Settled s scope q := by
        intro j
        by_cases hj : j = i
        · rw [hj, hidle]
          exact fun htarget => by cases htarget
        · exact hothers j hj
      simp only [hrows, hne, ne_eq, not_false_eq_true, and_true]
      exact h.held scope q hbefore text
    · rintro d (hd | ⟨j, -, hd⟩)
      · cases hd
      · exact (h.putting j scope d hd).1
    · intro k d hd
      cases hd
    · rintro q (hd | ⟨j, -, hd⟩) e he
      · cases hd
        have hkept := (List.mem_filter.mp he).2
        exact of_decide_eq_true hkept
      · exact h.removing j scope q hd e (List.mem_of_mem_filter he)
  · cases hs

/-- INTERNAL: a delete takes the file. -/
theorem inv_remove (lower : String → String) {s s' : State} (h : Inv s) {i : ℕ}
    (hok : Careful s (.remove i)) (hs : step lower s (.remove i) = some s') : Inv s' := by
  simp only [step] at hs
  split at hs
  · rename_i scope path hremoving
    cases hs
    simp only [Careful, hremoving] at hok
    have htarget : (s.writes i).target = some (scope, path) := by rw [hremoving]; rfl
    have hgone := h.removing i scope path hremoving
    apply @inv_wrote s h i scope _ s.texts .idle
    refine ⟨?_, ?_, fun _ _ _ _ => rfl, h.listed scope, ?_, ?_, ?_, ?_, .inr hok, .inl rfl⟩
    · intro t ht
      cases ht
    · intro t ht
      rw [htarget] at ht
      cases ht
      rfl
    · intro q hothers _ text
      by_cases hq : q = path
      · -- neither a file nor a row
        subst hq
        constructor
        · intro htext
          simp [Store.deleteFile] at htext
        · rintro ⟨stamp, hr, -⟩
          obtain ⟨e, he, hpath, -⟩ := mem_rowsOf.mp hr
          exact absurd hpath (hgone e he)
      · have hbefore : Settled s scope q := by
          intro j
          by_cases hj : j = i
          · rw [hj, htarget]
            intro heq
            cases heq
            exact hq rfl
          · exact hothers j hj
        simpa [Store.deleteFile, hq] using h.held scope q hbefore text
    · rintro d (hd | ⟨j, hj, hd⟩)
      · cases hd
      · have hne : d.sourcePath ≠ path := by
          intro heq
          have hjtarget : (s.writes j).target = some (scope, path) := by rw [hd, ← heq]; rfl
          exact hj (h.alone j i _ hjtarget htarget)
        simpa [Store.deleteFile, hne] using (h.putting j scope d hd).1
    · intro k d hd
      cases hd
    · rintro q (hd | ⟨j, -, hd⟩)
      · cases hd
      · exact h.removing j scope q hd
  · cases hs

theorem inv_step (lower : String → String) (s : State) (a : Action) (s' : State) (h : Inv s)
    (hok : Careful s a) (hs : step lower s a = some s') : Inv s' := by
  cases a with
  | tick d =>
    cases hs
    refine ⟨h.listed, h.held, h.alone, h.putting, h.removing, h.apart, h.keyed, h.seen, ?_,
      h.bounded⟩
    intro key e he hlive
    exact h.entries key e he (Nat.lt_of_le_of_lt (Nat.le_add_right _ d) hlive)
  | ask i owner question alone =>
    simp only [step] at hs
    split at hs
    · cases hs
      exact inv_setQuery_of_none h i rfl
    · cases hs
      exact inv_setQuery_of_none h i rfl
    · cases hs
  | fingerprint i fails => exact inv_fingerprint lower h hok hs
  | lookup i => exact inv_lookup lower h hs
  | read i scope => exact inv_read lower h hs
  | answer i answer order =>
    obtain ⟨⟨s₁, q⟩, hanswer, heq⟩ := Option.map_eq_some_iff.mp hs
    subst heq
    exact inv_answer h hok hanswer
  | abandon i =>
    cases hs
    exact inv_setQuery_of_none h i rfl
  | put i scope c markdown => exact inv_put lower h hok hs
  | register i now => exact inv_register lower h hok hs
  | delete i scope path => exact inv_delete lower h hok hs
  | remove i => exact inv_remove lower h hok hs

/-! ## Every run -/

/-- The query is at its look-up and finds a live entry. -/
def Hit (s : State) (i : ℕ) (e : Entry) : Prop :=
  ∃ owner key alone, s.queries i = .looking owner key alone ∧ s.cache.get? key = some e ∧
    s.now < e.expiresAt

/-- Every cached answer that is about to be returned rests on what is there, and the cache is
no larger than its bound. -/
def Sound (s : State) : Prop :=
  (∀ i e, Hit s i e → ∀ x ∈ e.seen, (s.scopes x.1).files = x.2) ∧ s.cache.size ≤ maxEntries

/-- **Cached answers rest on what is there**, in every state of every run that meets the
condition. SOURCE: query_cache.rs:49-184 -/
theorem cache_sound (lower : String → String) {as : List Action} {s : State}
    (hrun : exec (step lower) State.init as = some s)
    (hok : Meets (step lower) Careful State.init as) : Sound s := by
  have hinv := exec_invariant_of_meets Inv (inv_step lower) inv_init hrun hok
  refine ⟨?_, hinv.bounded⟩
  rintro i e ⟨owner, key, alone, hq, he, hlive⟩
  have hpending : pending (s.queries i) = some (owner, key) := by rw [hq]; rfl
  exact sound_of_inv hinv hpending he hlive

/-! ## Runs -/

def caller : ScopeId := ⟨"user:1", by decide⟩

def port : Concept where
  frontmatter := {}
  body := "8080"
  sourcePath := "/port.md"

/-- A question that hot memory answers, after a look at the bundle, and the question again. -/
def askTwice : List Action :=
  [.ask 1 caller "port?" false, .fingerprint 1 false, .lookup 1, .read 1 caller,
    .answer 1 (some "8080") id, .ask 1 caller "port?" false, .fingerprint 1 false]

theorem cache_sound_twice : ∃ s e, exec (step id) State.init askTwice = some s ∧ Hit s 1 e ∧
    e.seen.map Prod.fst = [caller] ∧ ∀ x ∈ e.seen, (s.scopes x.1).files = x.2 := by
  have hcareful : Meets (step id) Careful State.init askTwice := by
    have hidle (s : State) (hs : s.writes = fun _ => .idle) (path : String) :
        Settled s caller path := by
      intro i htarget
      rw [hs] at htarget
      cases htarget
    refine ⟨trivial, hidle _ rfl, trivial, trivial, .inl ?_, trivial, hidle _ rfl, trivial⟩
    show 0 < maxEntries
    decide
  obtain ⟨s, hrun, e, hhit, hseen⟩ : ∃ s, exec (step id) State.init askTwice = some s ∧
      ∃ e, Hit s 1 e ∧ e.seen.map Prod.fst = [caller] := by
    refine ⟨_, rfl, _, ⟨caller, _, false, rfl, rfl, ?_⟩, rfl⟩
    decide
  exact ⟨s, e, hrun, hhit, hseen, (cache_sound id hrun hcareful).1 1 e hhit⟩

/-- A book's text is there, the agent answers from it, the text changes, and the question is
asked again. -/
def askAroundWrite : List Action :=
  [.put 0 libraryScope port "8080", .register 0 "2026-01-01T00:00:00+00:00",
    .ask 1 caller "port?" false, .fingerprint 1 false, .lookup 1, .answer 1 none id,
    .read 1 libraryScope, .answer 1 (some "8080") id,
    .put 0 libraryScope port "9090", .register 0 "2026-01-02T00:00:00+00:00",
    .ask 1 caller "port?" false, .fingerprint 1 false]

theorem library_write_unseen :
    ¬ ∀ (lower : String → String) (as : List Action) (s : State),
      exec (step lower) State.init as = some s → Sound s := by
  intro hall
  obtain ⟨s, hrun, e, hhit, x, hx, hbefore, hnow⟩ :
      ∃ s, exec (step id) State.init askAroundWrite = some s ∧ ∃ e, Hit s 1 e ∧ ∃ x ∈ e.seen,
        x.2 "/port.md" = some "8080" ∧ (s.scopes x.1).files "/port.md" = some "9090" := by
    refine ⟨_, rfl, _, ⟨caller, _, false, rfl, rfl, ?_⟩, _, List.mem_cons_self, rfl, rfl⟩
    decide
  rw [(hall id _ s hrun).1 1 e hhit x hx, hbefore] at hnow
  exact absurd (Option.some.inj hnow) (by decide)

/-- A row with the path and the stamp. -/
def row (path stamp : String) : ConceptEntry where
  path := path
  title := path
  conceptType := "Note"
  updatedAt := stamp

/-- Two rows, and one row whose path has the first stamp in it. -/
theorem fingerprint_ambiguous : ∃ entries entries', rowsOf entries ≠ rowsOf entries' ∧
    bundleFingerprint caller entries = bundleFingerprint caller entries' := by
  refine ⟨[row "/a" "2026-01-01T00:00:00+00:00", row "/b" "2026-01-02T00:00:00+00:00"],
    [row "/a2026-01-01T00:00:00+00:00/b" "2026-01-02T00:00:00+00:00"], ?_, rfl⟩
  intro h
  have hlen := congrArg List.length h
  cases hlen

def user (n : ℕ) : ScopeId := ⟨String.ofList (List.replicate n 'u'), by simp⟩

/-- The key of a user whose bundle is empty. -/
def userKey (n : ℕ) : Key := cacheKey id (user n).id "port?"

theorem userKey_injective {m n : ℕ} (h : userKey m = userKey n) : m = n := by
  have hids : String.ofList (List.replicate m 'u') = String.ofList (List.replicate n 'u') :=
    congrArg Key.fingerprint h
  have hlens := congrArg (fun text : String => text.toList.length) hids
  simpa using hlens

/-- What `n` users who have asked one after the other leave behind. -/
structure Asked (n : ℕ) (s : State) : Prop where
  free : s.queries 0 = .idle ∨ ∃ result, s.queries 0 = .finished result
  empty : ∀ scope, (s.scopes scope).registry = []
  users : ∀ k, (s.cache.get? k).isSome = true → ∃ m < n, k = userKey m
  size : s.cache.size = n

/-- A user asks, and hot memory answers. -/
def asks (n : ℕ) : List Action :=
  [.ask 0 (user n) "port?" false, .fingerprint 0 false, .lookup 0, .answer 0 (some "8080") id]

/-- INTERNAL: the next user has asked. -/
theorem exec_asks {n : ℕ} {s : State} (h : Asked n s) :
    ∃ t, exec (step id) s (asks n) = some t ∧ Asked (n + 1) t := by
  have hkey : cacheKey id (bundleFingerprint (user n) (s.scopes (user n)).list) "port?" =
      userKey n := by
    unfold Store.list
    rw [h.empty]
    rfl
  have hnew : s.cache.get? (userKey n) = none := by
    rw [← Option.not_isSome_iff_eq_none]
    intro hsome
    obtain ⟨m, hm, heq⟩ := h.users _ hsome
    rw [userKey_injective heq] at hm
    omega
  let s₁ := s.setQuery 0 (.begun (user n) "port?" false)
  let s₂ := s₁.setQuery 0 (.looking (user n) (userKey n) false)
  let s₃ := s₂.setQuery 0 (.hot (user n) (userKey n) [])
  let e := entryOf s₃ (user n) "8080" []
  let s₄ := { s₃ with cache := s₃.cache.insert (userKey n) e }.setQuery 0
    (.finished (some { answer := "8080", source := .hot }))
  have hask : step id s (.ask 0 (user n) "port?" false) = some s₁ := by
    rcases h.free with hidle | ⟨result, hdone⟩
    · simp only [step, hidle, s₁]
    · simp only [step, hdone, s₁]
  have hfingerprint : step id s₁ (.fingerprint 0 false) = some s₂ := by
    show some (s₁.setQuery 0 (.looking (user n)
      (cacheKey id (bundleFingerprint (user n) (s.scopes (user n)).list) "port?") false)) = some s₂
    rw [hkey]
  have hlookup : step id s₂ (.lookup 0) = some s₃ := by
    have hmiss : lookupExact s₂ (userKey n) = (s₂, none) := by
      have hget : s₂.cache.get? (userKey n) = none := hnew
      simp only [lookupExact, hget]
    have hq : s₂.queries 0 = .looking (user n) (userKey n) false := rfl
    simp only [step, hq, hmiss]
    rfl
  have hanswer : step id s₃ (.answer 0 (some "8080") id) = some s₄ := rfl
  refine ⟨s₄, ?_, ?_⟩
  · simp only [asks, exec, hask, hfingerprint, hlookup, hanswer, Option.bind_some]
  · refine ⟨.inr ⟨_, rfl⟩, h.empty, ?_, ?_⟩
    · intro k hsome
      by_cases hk : k = userKey n
      · exact ⟨n, Nat.lt_succ_self n, hk⟩
      · have hold : (s.cache.get? k).isSome = true := by
          have hget := Dict.get?_insert s.cache (userKey n) k e
          rw [if_neg hk] at hget
          rw [← hget]
          exact hsome
        obtain ⟨m, hm, heq⟩ := h.users k hold
        exact ⟨m, Nat.lt_succ_of_lt hm, heq⟩
    · have hsize := Dict.size_insert s.cache (userKey n) e
      rw [hnew, h.size] at hsize
      exact hsize

/-- **Hot answers fill the cache without a bound.** -/
theorem hot_answers_unbounded (n : ℕ) : ∃ as s, exec (step id) State.init as = some s ∧
    s.cache.size = n := by
  have hasked : ∃ as s, exec (step id) State.init as = some s ∧ Asked n s := by
    induction n with
    | zero =>
      refine ⟨[], State.init, rfl, .inl rfl, fun _ => rfl, ?_, rfl⟩
      intro k hsome
      cases hsome
    | succ n ih =>
      obtain ⟨as, s, hrun, hs⟩ := ih
      obtain ⟨t, hrun', ht⟩ := exec_asks hs
      refine ⟨as ++ asks n, t, ?_, ht⟩
      rw [exec_append, hrun]
      exact hrun'
  obtain ⟨as, s, hrun, hs⟩ := hasked
  exact ⟨as, s, hrun, hs.size⟩

end Mycelium.Analysis.CachedAnswers
