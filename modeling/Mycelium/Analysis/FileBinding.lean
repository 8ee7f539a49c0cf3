import Mycelium.Lib.StepSystem
import Mycelium.Model.FileRepo

/-!
# What a stored file is bound to

The name of a file and the keys and associated data of its envelopes depend on the key of
the scope and on the path, and on nothing else. So an envelope that opens under a name was
sealed by a write of that path under that key (`opened_is_written`); of the directory it was
written to nothing is checked. The shelves use the same key, so a file that is copied from
one to the other under its own name is read there (`shelf_file_read_elsewhere`). Where no
file is put under its own name into a directory it was not written to, a read gives back
what was written there, and with nobody else at the files it gives back the last write
(`reads_bound_to_writes`).
-/

set_option autoImplicit false

namespace Mycelium.Analysis.FileBinding

open StepSystem
open Mycelium.Model.Sealing (Bytes)
open Mycelium.Model.FileRepo

variable {κ : Type} {P : Primitives κ}

/-! ## Names and envelopes -/

/-- INTERNAL: a name tells the key of the scope and the path. -/
theorem nameOf_injective (hP : P.Ideal) {scope scope' : Scope κ} {path path' : String}
    (h : nameOf P scope path = nameOf P scope' path') :
    scope.material = scope'.material ∧ path = path' := by
  obtain ⟨hkey, hpath⟩ := hP.hmac _ _ _ _ h
  exact ⟨(hP.hkdf _ _ _ _ hkey).1, hpath⟩

/-- INTERNAL: scopes with one key have the same keys. -/
theorem fileKeys_congr {scope scope' : Scope κ} (h : scope.material = scope'.material) :
    scope.fileKeys P = scope'.fileKeys P := by
  simp only [Scope.fileKeys, h]

/-- INTERNAL: so they seal the same files. -/
theorem sealFile_congr {scope scope' : Scope κ} (h : scope.material = scope'.material)
    (path : String) (content nonce nonce' : Bytes) :
    sealFile P scope path content nonce nonce' = sealFile P scope' path content nonce nonce' := by
  simp only [sealFile, outerPlaintext, innerEnvelope, nameOf, fileKeys_congr h]

/-- A sealed file reads back at its name. -/
theorem read_sealed (hP : P.Ideal) {s : State κ} {dir path : String} {scope : Scope κ}
    {content nonce nonce' : Bytes} (hvalid : validate path = .ok ())
    (hfits : (outerPlaintext P scope path content nonce).length ≤ isizeMax)
    (hfile : s.files.get? (dir, nameOf P scope path) =
      some (sealFile P scope path content nonce nonce')) :
    s.read P dir path scope = .ok content := by
  have hlen : (outerPlaintext P scope path content nonce).length =
      8 + (innerEnvelope P scope path nonce).length + content.length := by
    simp only [outerPlaintext, List.length_append, length_toLeBytes]
  rw [hlen, isizeMax] at hfits
  have hstarts : fromLeBytes ((outerPlaintext P scope path content nonce).take 8) =
      (innerEnvelope P scope path nonce).length := by
    have htake : (outerPlaintext P scope path content nonce).take 8 =
        toLeBytes 8 (innerEnvelope P scope path nonce).length := by
      rw [outerPlaintext, List.append_assoc]
      exact List.take_left' (length_toLeBytes 8 _)
    rw [htake]
    apply fromLeBytes_toLeBytes
    show _ < 18446744073709551616
    omega
  have hinner : ((outerPlaintext P scope path content nonce).drop 8).take
      (innerEnvelope P scope path nonce).length = innerEnvelope P scope path nonce := by
    rw [outerPlaintext, List.append_assoc, List.drop_left' (length_toLeBytes 8 _)]
    exact List.take_left
  have hcontent : (outerPlaintext P scope path content nonce).drop
      ((innerEnvelope P scope path nonce).length + 8) = content := by
    apply List.drop_left'
    simp only [List.length_append, length_toLeBytes]
    omega
  have houter : P.aeadOpen (sealFile P scope path content nonce nonce')
      ((scope.fileKeys P).storedName P path)
      (dekForName P (scope.fileKeys P) ((scope.fileKeys P).storedName P path)) =
        some (outerPlaintext P scope path content nonce) := hP.open_seal _ _ _ _
  have hopen : P.aeadOpen (innerEnvelope P scope path nonce)
      ((scope.fileKeys P).storedName P path) (scope.fileKeys P).metaDek =
        some (P.metaJson path) := hP.open_seal _ _ _ _
  have hnotshort : ¬ (outerPlaintext P scope path content nonce).length < 8 := by omega
  have hnotover : ¬ usizeBound ≤ (innerEnvelope P scope path nonce).length + 8 := by
    show ¬ 18446744073709551616 ≤ _
    omega
  have hnottrunc : ¬ (outerPlaintext P scope path content nonce).length <
      (innerEnvelope P scope path nonce).length + 8 := by omega
  rw [nameOf] at hfile
  simp only [State.read, hvalid, hfile, houter, hstarts, hnotshort, hnotover, hnottrunc, hinner,
    hcontent, hopen, hP.json, if_false, ne_eq, not_true, pure, bind, Except.bind, Except.pure]

/-- INTERNAL: a read that succeeds opens the envelope at the name of its path. -/
theorem opens_of_read {s : State κ} {dir path : String} {scope : Scope κ} {content : Bytes}
    (h : s.read P dir path scope = .ok content) :
    validate path = .ok () ∧ ∃ outer plain,
      s.files.get? (dir, nameOf P scope path) = some outer ∧
      P.aeadOpen outer (nameOf P scope path)
        (dekForName P (scope.fileKeys P) (nameOf P scope path)) = some plain := by
  simp only [State.read, bind, Except.bind] at h
  cases hvalid : validate path with
  | error e =>
    rw [hvalid] at h
    cases h
  | ok u =>
    rw [hvalid] at h
    refine ⟨rfl, ?_⟩
    dsimp only at h
    split at h
    · cases h
    · rename_i outer houter
      split at h
      · cases h
      · rename_i plain hplain
        exact ⟨outer, plain, houter, hplain⟩

/-! ## Files someone else puts there -/

/-- What an ideal AEAD leaves to someone without the keys: bytes that open under a name and
the keys of a scope are those of a write. -/
def Unforged (P : Primitives κ) (s : State κ) (bytes : Bytes) : Prop :=
  ∀ (scope : Scope κ) (name : String) (plain : Bytes),
    P.aeadOpen bytes name (dekForName P (scope.fileKeys P) name) = some plain →
    ∃ w ∈ s.writes, w.stored P = bytes

/-- The bytes were written to this directory, if they were written under this name at all. -/
def KeptApart (P : Primitives κ) (s : State κ) (dir name : String) (bytes : Bytes) : Prop :=
  ∀ w ∈ s.writes, w.stored P = bytes → w.name P = name →
    ∃ w' ∈ s.writes, w'.dir = dir ∧ w'.stored P = bytes ∧ w'.name P = name

/-- The AEAD is ideal, whatever is put where. -/
def IdealAead (P : Primitives κ) (s : State κ) : Action κ → Prop
  | .place _ _ bytes => Unforged P s bytes
  | _ => True

/-- And no file of another directory is put under its own name. -/
def Apart (P : Primitives κ) (s : State κ) : Action κ → Prop
  | .place dir name bytes => Unforged P s bytes ∧ KeptApart P s dir name bytes
  | _ => True

/-- Every stored file that opens under its name was written there. -/
def Inv (P : Primitives κ) (s : State κ) : Prop :=
  (∀ w ∈ s.writes, validate w.path = .ok () ∧
    (outerPlaintext P w.scope w.path w.content w.nonce).length ≤ isizeMax) ∧
  ∀ dir name bytes, s.files.get? (dir, name) = some bytes →
    ∀ (scope : Scope κ) (plain : Bytes),
      P.aeadOpen bytes name (dekForName P (scope.fileKeys P) name) = some plain →
      ∃ w ∈ s.writes, w.dir = dir ∧ w.stored P = bytes ∧ w.name P = name

/-- INTERNAL: an envelope of a write opens under the name of the write only. -/
theorem name_of_opens (hP : P.Ideal) {w : Write κ} {scope : Scope κ} {name : String}
    {plain : Bytes}
    (h : P.aeadOpen (w.stored P) name (dekForName P (scope.fileKeys P) name) = some plain) :
    w.name P = name :=
  (hP.open_only _ _ _ _ _ _ _ h).1.symm

/-- INTERNAL: a write that changes something was valid and went through. -/
theorem write_eq (s : State κ) (w : Write κ) (ok : Bool) :
    after s (s.write P w ok) =
      if validate w.path = .ok () ∧ ok = true then
        { files := s.files.insert (w.dir, w.name P) (w.stored P), writes := w :: s.writes }
      else s := by
  unfold State.write after
  cases hvalid : validate w.path with
  | error e =>
    have hnot : ¬ ((Except.error e : Except FileRepoError Unit) = .ok () ∧ ok = true) := by
      rintro ⟨h, -⟩
      cases h
    rw [if_neg hnot]
    rfl
  | ok u =>
    cases ok with
    | false => rfl
    | true => rfl

/-- INTERNAL: and so was a delete. -/
theorem delete_eq (s : State κ) (dir path : String) (scope : Scope κ) (ok : Bool) :
    after s (s.delete P dir path scope ok) =
      if validate path = .ok () ∧ ok = true then
        { s with files := s.files.erase (dir, nameOf P scope path) }
      else s := by
  unfold State.delete after
  cases hvalid : validate path with
  | error e =>
    have hnot : ¬ ((Except.error e : Except FileRepoError Unit) = .ok () ∧ ok = true) := by
      rintro ⟨h, -⟩
      cases h
    rw [if_neg hnot]
    rfl
  | ok u =>
    cases ok with
    | false => rfl
    | true => rfl

/-- INTERNAL: a valid write that fits goes through. -/
theorem step_write {w : Write κ} (hvalid : validate w.path = .ok ())
    (hfits : (outerPlaintext P w.scope w.path w.content w.nonce).length ≤ isizeMax) (s : State κ) :
    step P s (.write w true) =
      some { files := s.files.insert (w.dir, w.name P) (w.stored P), writes := w :: s.writes } := by
  simp only [step, hfits, if_true, write_eq, hvalid, and_self]

/-- INTERNAL: a file less changes nothing about the others. -/
theorem inv_erase {s : State κ} (h : Inv P s) (k : String × String) :
    Inv P { s with files := s.files.erase k } := by
  refine ⟨h.1, ?_⟩
  intro dir name bytes hget
  rw [Dict.get?_erase] at hget
  split at hget
  · cases hget
  · exact h.2 dir name bytes hget

theorem inv_step (hP : P.Ideal) (s : State κ) (a : Action κ) (s' : State κ) (h : Inv P s)
    (hok : Apart P s a) (hs : step P s a = some s') : Inv P s' := by
  cases a with
  | write w ok =>
    simp only [step] at hs
    split at hs
    · rename_i hfits
      cases hs
      rw [write_eq]
      split
      · rename_i hgood
        refine ⟨?_, ?_⟩
        · intro w' hw'
          rcases List.mem_cons.mp hw' with rfl | hin
          · exact ⟨hgood.1, hfits⟩
          · exact h.1 w' hin
        · intro dir name bytes hget scope plain hopen
          rw [Dict.get?_insert] at hget
          split at hget
          · rename_i hkey
            simp only [Prod.mk.injEq] at hkey
            cases hget
            exact ⟨w, List.mem_cons_self, hkey.1.symm, rfl, hkey.2.symm⟩
          · obtain ⟨w', hin, hw'⟩ := h.2 dir name bytes hget scope plain hopen
            exact ⟨w', List.mem_cons_of_mem _ hin, hw'⟩
      · exact h
    · cases hs
  | delete dir path scope ok =>
    cases hs
    rw [delete_eq]
    split
    · exact inv_erase h _
    · exact h
  | place dir name bytes =>
    cases hs
    refine ⟨h.1, ?_⟩
    intro dir' name' bytes' hget scope plain hopen
    rw [Dict.get?_insert] at hget
    split at hget
    · rename_i hkey
      simp only [Prod.mk.injEq] at hkey
      obtain ⟨rfl, rfl⟩ := hkey
      cases hget
      obtain ⟨w, hin, hstored⟩ := hok.1 scope name' plain hopen
      rw [← hstored] at hopen
      exact hok.2 w hin hstored (name_of_opens hP hopen)
    · exact h.2 dir' name' bytes' hget scope plain hopen
  | remove dir name =>
    cases hs
    exact inv_erase h _

/-- INTERNAL: what is read was written at that path, under that key, by the write whose
envelope opened. -/
theorem written_of_read (hP : P.Ideal) {s : State κ} (h : Inv P s) {dir path : String}
    {scope : Scope κ} {content : Bytes} (hread : s.read P dir path scope = .ok content) :
    ∃ w ∈ s.writes, w.dir = dir ∧ w.scope.material = scope.material ∧ w.path = path ∧
      w.content = content := by
  obtain ⟨hvalid, outer, plain, hfile, hopen⟩ := opens_of_read hread
  obtain ⟨w, hin, hdir, hstored, hname⟩ := h.2 dir _ outer hfile scope plain hopen
  obtain ⟨hmaterial, hpath⟩ := nameOf_injective hP hname
  refine ⟨w, hin, hdir, hmaterial, hpath, ?_⟩
  obtain ⟨-, hfits⟩ := h.1 w hin
  have hagain : s.read P dir path scope = .ok w.content := by
    rw [← hpath] at hfile ⊢
    have hsealed : s.files.get? (dir, nameOf P scope w.path) =
        some (sealFile P scope w.path w.content w.nonce w.nonce') := by
      rw [hfile, ← hstored]
      exact congrArg some (sealFile_congr hmaterial _ _ _ _)
    have hplain : outerPlaintext P w.scope w.path w.content w.nonce =
        outerPlaintext P scope w.path w.content w.nonce := by
      simp only [outerPlaintext, innerEnvelope, nameOf, fileKeys_congr hmaterial]
    rw [hplain] at hfits
    rw [← hpath] at hvalid
    exact read_sealed hP hvalid hfits hsealed
  rw [hread] at hagain
  cases hagain
  rfl

/-! ## The last write -/

/-- INTERNAL: two files have one name exactly when they have one key and path. -/
theorem key_eq_iff (hP : P.Ideal) {dir dir' path path' : String} {scope scope' : Scope κ} :
    (dir, nameOf P scope path) = (dir', nameOf P scope' path') ↔
      (dir, scope.material, path) = (dir', scope'.material, path') := by
  simp only [Prod.mk.injEq]
  constructor
  · rintro ⟨hdir, hname⟩
    obtain ⟨hmaterial, hpath⟩ := nameOf_injective hP hname
    exact ⟨hdir, hmaterial, hpath⟩
  · rintro ⟨hdir, hmaterial, hpath⟩
    refine ⟨hdir, ?_⟩
    rw [hpath, nameOf, nameOf, fileKeys_congr hmaterial]

section LastWrite

variable [DecidableEq κ]

/-- The contents by directory, key and path: what a repository is for. -/
abbrev Contents (κ : Type) := Dict (String × κ × String) Bytes

/-- What the operations that go through do to the contents. -/
def Contents.apply (c : Contents κ) : Action κ → Contents κ
  | .write w ok =>
    if validate w.path = .ok () ∧ ok = true then c.insert (w.dir, w.scope.material, w.path) w.content
    else c
  | .delete dir path scope ok =>
    if validate path = .ok () ∧ ok = true then c.erase (dir, scope.material, path) else c
  | .place _ _ _ | .remove _ _ => c

/-- The writes not followed by a delete or by another write of the same file. -/
def lastWritten (as : List (Action κ)) : Contents κ := as.foldl Contents.apply ∅

/-- The operations of the repository itself. -/
def IsOwn : Action κ → Prop
  | .write _ _ | .delete _ _ _ _ => True
  | .place _ _ _ | .remove _ _ => False

/-- The stored files are the contents, sealed. -/
def Holds (P : Primitives κ) (c : Contents κ) (s : State κ) : Prop :=
  ∀ (dir path : String) (scope : Scope κ),
    match c.get? (dir, scope.material, path) with
    | none => s.files.get? (dir, nameOf P scope path) = none
    | some content => ∃ nonce nonce',
        (outerPlaintext P scope path content nonce).length ≤ isizeMax ∧
        s.files.get? (dir, nameOf P scope path) =
          some (sealFile P scope path content nonce nonce')

theorem holds_step (hP : P.Ideal) {c : Contents κ} {s s' : State κ} {a : Action κ}
    (h : Holds P c s) (hown : IsOwn a) (hs : step P s a = some s') : Holds P (c.apply a) s' := by
  cases a with
  | write w ok =>
    simp only [step] at hs
    split at hs
    · rename_i hfits
      cases hs
      rw [write_eq]
      simp only [Contents.apply]
      split
      · intro dir path scope
        rw [Dict.get?_insert, Dict.get?_insert]
        by_cases hkey : (dir, scope.material, path) = (w.dir, w.scope.material, w.path)
        · have hname : (dir, nameOf P scope path) = (w.dir, w.name P) := (key_eq_iff hP).mpr hkey
          rw [if_pos hkey, if_pos hname]
          simp only [Prod.mk.injEq] at hkey
          obtain ⟨-, hmaterial, hpath⟩ := hkey
          refine ⟨w.nonce, w.nonce', ?_, ?_⟩
          · simpa only [outerPlaintext, innerEnvelope, nameOf, hpath,
              fileKeys_congr hmaterial] using hfits
          · rw [hpath, Write.stored, sealFile_congr hmaterial]
        · have hname : ¬ (dir, nameOf P scope path) = (w.dir, w.name P) :=
            fun heq => hkey ((key_eq_iff hP).mp heq)
          rw [if_neg hkey, if_neg hname]
          exact h dir path scope
      · exact h
    · cases hs
  | delete dir path scope ok =>
    cases hs
    rw [delete_eq]
    simp only [Contents.apply]
    split
    · intro dir' path' scope'
      rw [Dict.get?_erase, Dict.get?_erase]
      by_cases hkey : (dir', scope'.material, path') = (dir, scope.material, path)
      · rw [if_pos hkey]
        exact if_pos ((key_eq_iff hP).mpr hkey)
      · have hname : ¬ (dir', nameOf P scope' path') = (dir, nameOf P scope path) :=
          fun heq => hkey ((key_eq_iff hP).mp heq)
        rw [if_neg hkey, if_neg hname]
        exact h dir' path' scope'
    · exact h
  | place dir name bytes => cases hown
  | remove dir name => cases hown

theorem holds_exec (hP : P.Ideal) {as : List (Action κ)} {t : State κ}
    (hrun : exec (step P) State.empty as = some t) (hown : ∀ a ∈ as, IsOwn a) :
    Holds P (lastWritten as) t := by
  have hempty : Holds P (lastWritten []) (State.empty : State κ) := fun _ _ _ => rfl
  have hstep (as : List (Action κ)) (s : State κ) (a : Action κ) (s' : State κ)
      (ih : (∀ a ∈ as, IsOwn a) → Holds P (lastWritten as) s) (hs : step P s a = some s')
      (hall : ∀ b ∈ as ++ [a], IsOwn b) : Holds P (lastWritten (as ++ [a])) s' := by
    rw [lastWritten, List.foldl_append]
    apply holds_step hP _ (hall a (List.mem_append_right _ (List.mem_singleton_self a))) hs
    exact ih fun b hb => hall b (List.mem_append_left _ hb)
  exact exec_trace_invariant (fun as s => (∀ a ∈ as, IsOwn a) → Holds P (lastWritten as) s)
    (fun _ => hempty) (fun as s a s' _ ih hs => hstep as s a s' ih hs) hrun hown

/-- INTERNAL: a repository that holds the contents reads them. -/
theorem read_of_holds (hP : P.Ideal) {c : Contents κ} {s : State κ} (h : Holds P c s)
    {path : String} (hvalid : validate path = .ok ()) (dir : String) (scope : Scope κ) :
    s.read P dir path scope =
      match c.get? (dir, scope.material, path) with
      | some content => .ok content
      | none => .error .io := by
  have hfile := h dir path scope
  cases hget : c.get? (dir, scope.material, path) with
  | none =>
    rw [hget] at hfile
    rw [nameOf] at hfile
    simp only [State.read, hvalid, bind, Except.bind, hfile]
    rfl
  | some content =>
    rw [hget] at hfile
    obtain ⟨nonce, nonce', hfits, hstored⟩ := hfile
    exact read_sealed hP hvalid hfits hstored

end LastWrite

/-! ## Whole runs -/

/-- **A read gives back what was written to its file.** In every run in which no file of
another directory is put under its own name, a read is an error or the content of a write to
its directory, under its key, at its path; and in every run of writes and deletes alone it is
the content of the last write that no delete followed, and an error where there is none. -/
theorem reads_bound_to_writes [DecidableEq κ] (hP : P.Ideal) {as : List (Action κ)} {t : State κ}
    (hrun : exec (step P) State.empty as = some t) :
    (Meets (step P) (Apart P) State.empty as →
      ∀ dir path scope content, t.read P dir path scope = .ok content →
        ∃ w ∈ t.writes, w.dir = dir ∧ w.scope.material = scope.material ∧ w.path = path ∧
          w.content = content) ∧
    ((∀ a ∈ as, IsOwn a) →
      ∀ dir path scope, validate path = .ok () →
        t.read P dir path scope =
          match (lastWritten as).get? (dir, scope.material, path) with
          | some content => .ok content
          | none => .error .io) := by
  refine ⟨?_, ?_⟩
  · intro hmeets dir path scope content hread
    have hempty : Inv P (State.empty : State κ) := by
      refine ⟨fun w hw => absurd hw List.not_mem_nil, ?_⟩
      intro dir name bytes hget
      cases hget
    exact written_of_read hP (exec_invariant_of_meets (Inv P) (inv_step hP) hempty hrun hmeets) hread
  · intro hown dir path scope hvalid
    exact read_of_holds hP (holds_exec hP hrun hown) hvalid dir scope

/-- A write of the page `/ports.md` with the service key. -/
def shelfWrite (dir : String) (content : Bytes) : Write String where
  dir := dir
  scope := .service "key"
  path := "/ports.md"
  content := content
  nonce := []
  nonce' := []

def skill : Write String := shelfWrite "skills" [1]

def book : Write String := shelfWrite "library" [2]

/-- The two writes, and the state after them. -/
def shelving : List (Action String) := [.write skill true, .write book true]

def shelved : State String where
  files := (Dict.insert ∅ ("skills", skill.name plainPrimitives) (skill.stored plainPrimitives)).insert
    ("library", book.name plainPrimitives) (book.stored plainPrimitives)
  writes := [book, skill]

/-- The stored file of the library, put under its name into the directory of the skills. -/
def copy : Action String :=
  .place "skills" (book.name plainPrimitives) (book.stored plainPrimitives)

/-- INTERNAL: a page of a shelf can be written. -/
theorem shelfWrite_fits {content : Bytes} (h : content.length ≤ 1) :
    (outerPlaintext plainPrimitives (.service "key") "/ports.md" content []).length ≤ isizeMax := by
  have hempty : (outerPlaintext plainPrimitives (.service "key") "/ports.md" [] []).length < 2000 := by
    decide +kernel
  simp only [outerPlaintext, List.length_append, List.length_nil] at hempty
  simp only [outerPlaintext, List.length_append, isizeMax]
  omega

/-- INTERNAL: its path is one. -/
theorem shelfPath_valid : validate "/ports.md" = .ok () := by rfl

/-- INTERNAL: the two writes go through. -/
theorem exec_shelving : exec (step plainPrimitives) State.empty shelving = some shelved := by
  have hwrite (dir : String) (content : Bytes) (h : content.length ≤ 1) (s : State String) :=
    step_write (w := shelfWrite dir content) shelfPath_valid (shelfWrite_fits h) s
  simp only [shelving, skill, book, exec, hwrite _ [1] le_rfl, hwrite _ [2] le_rfl,
    Option.bind_some]
  rfl

/-- INTERNAL: a run of the two writes meets whatever allows writes. -/
theorem meets_shelving {ok : State String → Action String → Prop}
    (h : ∀ s w, ok s (.write w true)) : Meets (step plainPrimitives) ok State.empty shelving := by
  refine ⟨h _ _, ?_⟩
  split
  · trivial
  · refine ⟨h _ _, ?_⟩
    split <;> trivial

/-- **A shelf reads the other shelf's file.** The page of the library, copied under its own
name into the directory of the skills, opens there, since both shelves use the service key:
the read returns what was never written to the skills. -/
theorem shelf_file_read_elsewhere :
    plainPrimitives.Ideal ∧
      Meets (step plainPrimitives) (IdealAead plainPrimitives) State.empty (shelving ++ [copy]) ∧
      ∃ t, exec (step plainPrimitives) State.empty (shelving ++ [copy]) = some t ∧
        t.read plainPrimitives "skills" "/ports.md" (.service "key") = .ok [2] ∧
        ∀ w ∈ t.writes, w.dir = "skills" → w.content ≠ [2] := by
  have hplace : step plainPrimitives shelved copy =
      some { shelved with
        files := shelved.files.insert ("skills", book.name plainPrimitives)
          (book.stored plainPrimitives) } := rfl
  refine ⟨plainPrimitives_ideal, ?_, _, exec_snoc exec_shelving hplace, ?_, ?_⟩
  · apply meets_snoc exec_shelving (meets_shelving fun _ _ => trivial)
    intro scope name plain _
    exact ⟨book, List.mem_cons_self, rfl⟩
  · apply read_sealed plainPrimitives_ideal shelfPath_valid (shelfWrite_fits le_rfl)
    exact (Dict.get?_insert _ _ _ _).trans (if_pos rfl)
  · intro w hw hdir
    rcases List.mem_cons.mp hw with rfl | hw
    · exact absurd hdir (by decide)
    · rw [List.mem_singleton.mp hw]
      decide

/-- The shelves' pages, with the skills' own file put back under its name, and without. -/
theorem reads_bound_to_writes_shelving :
    (∃ t, exec (step plainPrimitives) State.empty
        (shelving ++ [.place "skills" (skill.name plainPrimitives)
          (skill.stored plainPrimitives)]) = some t ∧
      ∀ dir path scope content, t.read plainPrimitives dir path scope = .ok content →
        ∃ w ∈ t.writes, w.dir = dir ∧ w.scope.material = scope.material ∧ w.path = path ∧
          w.content = content) ∧
      shelved.read plainPrimitives "skills" "/ports.md" (.service "key") = .ok [1] := by
  have hput : step plainPrimitives shelved
      (.place "skills" (skill.name plainPrimitives) (skill.stored plainPrimitives)) =
        some { shelved with
          files := shelved.files.insert ("skills", skill.name plainPrimitives)
            (skill.stored plainPrimitives) } := rfl
  have hthere : skill ∈ shelved.writes := List.mem_cons_of_mem _ (List.mem_singleton_self _)
  refine ⟨⟨_, exec_snoc exec_shelving hput, ?_⟩, ?_⟩
  · apply (reads_bound_to_writes plainPrimitives_ideal (exec_snoc exec_shelving hput)).1
    apply meets_snoc exec_shelving (meets_shelving fun _ _ => trivial)
    refine ⟨fun _ _ _ _ => ⟨skill, hthere, rfl⟩, ?_⟩
    intro _ _ _ _
    exact ⟨skill, hthere, rfl, rfl, rfl⟩
  · have hown : ∀ a ∈ shelving, IsOwn a := by
      intro a ha
      rcases List.mem_cons.mp ha with rfl | ha
      · trivial
      · rw [List.mem_singleton.mp ha]
        trivial
    exact (reads_bound_to_writes plainPrimitives_ideal exec_shelving).2 hown "skills" "/ports.md"
      (.service "key") shelfPath_valid

end Mycelium.Analysis.FileBinding
