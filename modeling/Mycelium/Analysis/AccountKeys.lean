import Mycelium.Lib.StepSystem
import Mycelium.Model.AccountTasks

/-!
# The key record of an account

Whatever order the reads and writes of password changes and recovery-key rotations take,
the stored record opens with the password of the stored hash and both of its seals hold the
account's first master key (`keys_stay_usable`, first half). Such a record, with the key
its recovery seal takes, is `SoundRecord`; a task between its read and its write carries
the facts that make its write sound again (`CarriesSound`).

The recovery key of the last rotation opens the record too, as long as each password change
writes over the recovery seal it read (`keepsRecoverySeal`): a change copies that seal from
the record it read, and its update asks for the row by id only. A rotation is safe by its
compare-and-swap: what it writes back is built from the very record it replaces.

SOURCE: crates/mycelium-auth/src/users.rs:223-292, crates/mycelium-crypto/src/seal.rs:57-171,
crates/mycelium-web/src/api.rs:3061-3190
-/

set_option autoImplicit false

namespace Mycelium.Analysis.AccountKeys

open StepSystem Mycelium.Model.Text Mycelium.Model.Sealing Mycelium.Model.Accounts
open Mycelium.Model.AccountTasks

variable {P : Primitives} {T : TotpCrate}

/-! ## Seals that hold a master key -/

/-- A field that seals a master key under a key. -/
def Seals (P : Primitives) (field aad : String) (master key : Key) : Prop :=
  ∃ nonce, field = P.hexEncode (P.aeadSeal nonce master.bytes aad key)

/-- A record that seals a master key under a password and a recovery key. -/
structure Holds (P : Primitives) (sealed : SealedMasterKey) (master : Key) (password : String)
    (recovery : Key) : Prop where
  version : sealed.version = sealedVersion
  password : ∃ salt kek, sealed.saltHex = P.hexEncode salt ∧ salt.length = saltLen ∧
    deriveKek P password salt = .ok kek ∧
    Seals P sealed.passwordSealedHex passwordSealAad master kek
  recovery : Seals P sealed.recoverySealedHex recoverySealAad master recovery

theorem fromBytes_bytes (key : Key) : Key.fromBytes key.bytes = .ok key := by
  rw [Key.fromBytes, dif_pos key.length_eq]

theorem openField_seals (hP : P.Ideal) {field aad : String} {master key : Key}
    (h : Seals P field aad master key) : openField P field aad key = .ok master := by
  obtain ⟨nonce, rfl⟩ := h
  simp only [openField, hP.hex, hP.open_seal]
  exact fromBytes_bytes master

/-- INTERNAL: what opens a seal at all opens it to what it holds. -/
theorem openField_inv (hP : P.Ideal) {field aad : String} {master key key' opened : Key}
    (h : Seals P field aad master key) (hopen : openField P field aad key' = .ok opened) :
    key' = key ∧ opened = master := by
  have hkey : key' = key := by
    obtain ⟨nonce, rfl⟩ := h
    simp only [openField, hP.hex] at hopen
    split at hopen
    · cases hopen
    · rename_i plain hplain
      exact hP.open_only _ _ _ _ _ _ hplain
  subst hkey
  rw [openField_seals hP h, Except.ok.injEq] at hopen
  exact ⟨rfl, hopen.symm⟩

/-- INTERNAL: a record of the current version with a proper salt opens the password field
under the key derived from the password. -/
theorem unsealWithPassword_eq (hP : P.Ideal) {sealed : SealedMasterKey} {salt : Bytes}
    (hversion : sealed.version = sealedVersion) (hsalt : sealed.saltHex = P.hexEncode salt)
    (hlen : salt.length = saltLen) (password : String) :
    unsealWithPassword P sealed password =
      (deriveKek P password salt).bind fun kek =>
        openField P sealed.passwordSealedHex passwordSealAad kek := by
  simp only [unsealWithPassword, checkVersion, hversion, hsalt, hP.hex, hlen, ne_eq,
    not_true_eq_false, ↓reduceIte]
  rfl

theorem unsealWithPassword_of_holds (hP : P.Ideal) {sealed : SealedMasterKey}
    {master recovery : Key} {password : String} (h : Holds P sealed master password recovery) :
    unsealWithPassword P sealed password = .ok master := by
  obtain ⟨salt, kek, hsalt, hlen, hkek, hseals⟩ := h.password
  rw [unsealWithPassword_eq hP h.version hsalt hlen, hkek]
  exact openField_seals hP hseals

theorem unsealWithPassword_inv (hP : P.Ideal) {sealed : SealedMasterKey}
    {master recovery opened : Key} {password password' : String}
    (h : Holds P sealed master password recovery)
    (hopen : unsealWithPassword P sealed password' = .ok opened) : opened = master := by
  obtain ⟨salt, kek, hsalt, hlen, hkek, hseals⟩ := h.password
  rw [unsealWithPassword_eq hP h.version hsalt hlen] at hopen
  cases hkek' : deriveKek P password' salt with
  | error e =>
    rw [hkek'] at hopen
    cases hopen
  | ok kek' =>
    rw [hkek'] at hopen
    exact (openField_inv hP hseals hopen).2

/-- INTERNAL: with a well-formed key, a record of the current version opens its recovery
field. -/
theorem unsealWithRecovery_eq {sealed : SealedMasterKey} {text : String} {key : Key}
    (hversion : sealed.version = sealedVersion) (hkey : parseRecoveryKey P text = .ok key) :
    unsealWithRecovery P sealed text =
      openField P sealed.recoverySealedHex recoverySealAad key := by
  simp only [unsealWithRecovery, checkVersion, hversion, ne_eq, not_true_eq_false, ↓reduceIte,
    hkey]
  rfl

theorem unsealWithRecovery_of_holds (hP : P.Ideal) {sealed : SealedMasterKey}
    {master recovery : Key} {password text : String} (h : Holds P sealed master password recovery)
    (hkey : parseRecoveryKey P text = .ok recovery) :
    unsealWithRecovery P sealed text = .ok master := by
  rw [unsealWithRecovery_eq h.version hkey]
  exact openField_seals hP h.recovery

/-- Another recovery key does not open the record. -/
theorem unsealWithRecovery_other (hP : P.Ideal) {sealed : SealedMasterKey}
    {master recovery other : Key} {password text : String}
    (h : Holds P sealed master password recovery)
    (hkey : parseRecoveryKey P text = .ok other) (hne : other ≠ recovery) (opened : Key) :
    unsealWithRecovery P sealed text ≠ .ok opened := by
  intro hopen
  rw [unsealWithRecovery_eq h.version hkey] at hopen
  exact hne (openField_inv hP h.recovery hopen).1

theorem parseRecoveryKey_generateRecoveryKey (hP : P.Ideal) (random : Key) :
    parseRecoveryKey P (generateRecoveryKey P random) = .ok random := by
  have hstrip : stripPrefix (generateRecoveryKey P random) "myc2-recovery-" =
      some (P.hexEncode random.bytes).toList := by
    simp [stripPrefix, startsWith, generateRecoveryKey, ← String.length_toList]
  simp only [parseRecoveryKey, hstrip, String.ofList_toList, hP.hex, random.length_eq, ↓reduceDIte]

/-! ## The four operations on sealed records -/

theorem deriveKek_length {password : String} {salt : Bytes} {kek : Key}
    (h : deriveKek P password salt = .ok kek) : salt.length = saltLen := by
  by_contra hlen
  simp only [deriveKek, ne_eq, hlen, not_false_eq_true, ↓reduceIte] at h
  cases h

theorem sealMasterKey_holds {master : Key} {password text : String} {salt nonce nonce' : Bytes}
    {sealed : SealedMasterKey}
    (h : sealMasterKey P master password text salt nonce nonce' = .ok sealed) :
    ∃ recovery, parseRecoveryKey P text = .ok recovery ∧
      Holds P sealed master password recovery := by
  unfold sealMasterKey at h
  obtain ⟨recovery, hrec, h⟩ := bind_eq_ok.mp h
  obtain ⟨kek, hkek, h⟩ := bind_eq_ok.mp h
  cases h
  exact ⟨recovery, hrec, rfl, ⟨salt, kek, rfl, deriveKek_length hkek, hkek, nonce, rfl⟩,
    nonce', rfl⟩

/-- A password change moves the master key under the new password and copies the recovery
seal. -/
theorem changePassword_holds (hP : P.Ideal) {sealed resealed : SealedMasterKey}
    {master recovery : Key} {password old new : String} {salt nonce : Bytes}
    (hold : Holds P sealed master password recovery)
    (h : changePassword P sealed old new salt nonce = .ok resealed) :
    Holds P resealed master new recovery ∧
      resealed.recoverySealedHex = sealed.recoverySealedHex := by
  unfold changePassword at h
  obtain ⟨opened, hopen, h⟩ := bind_eq_ok.mp h
  obtain ⟨kek, hkek, h⟩ := bind_eq_ok.mp h
  cases h
  have hopened : opened = master := unsealWithPassword_inv hP hold hopen
  subst hopened
  exact ⟨⟨rfl, ⟨salt, kek, rfl, deriveKek_length hkek, hkek, nonce, rfl⟩, hold.recovery⟩, rfl⟩

/-- A rotation keeps the password side and seals the master key under the new key. -/
theorem rotateRecoveryKey_holds (hP : P.Ideal) {sealed rotated : SealedMasterKey}
    {master recovery : Key} {password password' text : String} {nonce : Bytes}
    (hold : Holds P sealed master password recovery)
    (h : rotateRecoveryKey P sealed password' text nonce = .ok rotated) :
    ∃ recovery', parseRecoveryKey P text = .ok recovery' ∧
      Holds P rotated master password recovery' := by
  unfold rotateRecoveryKey at h
  obtain ⟨recovery', hrec, h⟩ := bind_eq_ok.mp h
  obtain ⟨opened, hopen, h⟩ := bind_eq_ok.mp h
  cases h
  have hopened : opened = master := unsealWithPassword_inv hP hold hopen
  subst hopened
  exact ⟨recovery', hrec, rfl, hold.password, nonce, rfl⟩

/-! ## Stored records, and the tasks that are about to write one -/

/-- The seals hold the master key, one under the password of the hash, the other under the
recovery key. -/
def SoundRecord (P : Primitives) (record : UserRecord) (master recovery : Key) : Prop :=
  ∃ salt password hash sealed, P.hashPassword salt password = some hash ∧
    record.passwordHash = some hash ∧ record.sealedMasterKey = P.toJson sealed ∧
    Holds P sealed master password recovery

/-- What a task keeps of the record it read until it writes: a change a whole new hash and
seal, a rotation the text it compares with and how it came by its own. -/
def CarriesSound (P : Primitives) (masters : ℕ → Option Key) : Pc → Prop
  | .changeWrite c record newHash resealed =>
    ∃ master recovery salt sealed written, masters c.user = some master ∧
      P.hashPassword salt c.newPassword = some newHash ∧
      record.sealedMasterKey = P.toJson sealed ∧ resealed = P.toJson written ∧
      Holds P written master c.newPassword recovery ∧
      written.recoverySealedHex = sealed.recoverySealedHex
  | .rotateWrite r preRead rotated =>
    ∃ sealed, preRead = P.toJson sealed ∧
      rotateRecoveryKey P sealed r.password r.newKey r.nonce = .ok rotated
  | _ => True

structure Sound (P : Primitives) (s : State) : Prop where
  known : ∀ u master, s.masters u = some master → ∃ record, s.service.users.get? u = some record
  stored : ∀ u record, s.service.users.get? u = some record →
    ∃ master recovery, s.masters u = some master ∧ SoundRecord P record master recovery
  tasks : ∀ i, CarriesSound P s.masters (s.tasks i)

/-- The key of the last rotation is the one of the stored recovery seal. -/
def ShownKeyHolds (P : Primitives) (s : State) : Prop :=
  ∀ u text, s.rotated u = some text → ∃ record master recovery,
    s.service.users.get? u = some record ∧ s.masters u = some master ∧
      parseRecoveryKey P text = .ok recovery ∧ SoundRecord P record master recovery

theorem sound_init : Sound P State.init where
  known u master h := by cases h
  stored u record h := by cases h
  tasks i := trivial

theorem carriesSound_of_not_carries {masters : ℕ → Option Key} {pc : Pc}
    (h : pc.carries = false) : CarriesSound P masters pc := by
  cases pc with
  | changeWrite c record newHash resealed => cases h
  | rotateWrite r preRead rotated => cases h
  | _ => trivial

theorem carriesSound_setTask {s : State} (h : ∀ j, CarriesSound P s.masters (s.tasks j)) {i : ℕ}
    {pc : Pc} (hpc : CarriesSound P s.masters pc) (j : ℕ) :
    CarriesSound P s.masters ((s.setTask i pc).tasks j) := by
  rw [setTask_tasks]
  by_cases hj : j = i
  · rw [if_pos hj]
    exact hpc
  · rw [if_neg hj]
    exact h j

/-! ## One step -/

theorem sound_created {s : State} {u : NewUser} {users : Dict ℕ UserRecord} (h : Sound P s)
    (hcreate : createLocal P s.service.users u = .ok users) :
    Sound P { s with
      service := { s.service with users }
      masters := fun v => if v = u.id then some u.masterKey else s.masters v } := by
  obtain ⟨hash, sealed, hhash, hseal, hfree, rfl⟩ := createLocal_eq_ok hcreate
  -- a new account had no master key before, so no task has one of it
  have hnew : ∀ master, s.masters u.id ≠ some master := by
    intro master hmaster
    obtain ⟨record, hrecord⟩ := h.known u.id master hmaster
    rw [hfree] at hrecord
    cases hrecord
  have hkeeps : ∀ v master, s.masters v = some master →
      (if v = u.id then some u.masterKey else s.masters v) = some master := by
    intro v master hmaster
    have hne : v ≠ u.id := by
      rintro rfl
      exact hnew master hmaster
    rw [if_neg hne]
    exact hmaster
  refine ⟨?_, ?_, ?_⟩
  · intro v master hmaster
    simp only [Dict.get?_insert]
    by_cases hv : v = u.id
    · exact ⟨_, if_pos hv⟩
    · simp only [hv, ↓reduceIte] at hmaster ⊢
      exact h.known v master hmaster
  · intro v record hrecord
    simp only [Dict.get?_insert] at hrecord
    by_cases hv : v = u.id
    · simp only [hv, ↓reduceIte, Option.some.injEq] at hrecord ⊢
      subst hrecord
      obtain ⟨recovery, -, hholds⟩ := sealMasterKey_holds hseal
      exact ⟨u.masterKey, recovery, rfl, u.hashSalt, u.password, hash, sealed, hhash, rfl, rfl,
        hholds⟩
    · simp only [hv, ↓reduceIte] at hrecord ⊢
      exact h.stored v record hrecord
  · intro i
    have htask := h.tasks i
    cases hpc : s.tasks i with
    | changeWrite c record newHash resealed =>
      simp only [hpc, CarriesSound] at htask ⊢
      obtain ⟨master, recovery, salt, sealed, written, hmaster, hrest⟩ := htask
      exact ⟨master, recovery, salt, sealed, written, hkeeps c.user master hmaster, hrest⟩
    | rotateWrite r preRead rotated =>
      rw [hpc] at htask
      exact htask
    | _ => trivial

theorem carriesSound_changeRead (hP : P.Ideal) {s : State} (h : Sound P s) {c : Change}
    {record : UserRecord} {newHash resealed : String}
    (hread : s.service.users.get? c.user = some record)
    (hprep : prepareChange P record c = .ok (newHash, resealed)) :
    CarriesSound P s.masters (.changeWrite c record newHash resealed) := by
  obtain ⟨master, recovery, hmaster, hsound⟩ := h.stored c.user record hread
  obtain ⟨sealed, written, hjson, hchange, hhash, rfl⟩ := prepareChange_eq_ok hprep
  obtain ⟨salt, password, hash, sealed', -, -, htext, hholds⟩ := hsound
  rw [htext, hP.json, Option.some.injEq] at hjson
  subst hjson
  obtain ⟨hwritten, hcopied⟩ := changePassword_holds hP hholds hchange
  exact ⟨master, recovery, c.hashSalt, sealed', written, hmaster, hhash, htext, rfl, hwritten,
    hcopied⟩

theorem carriesSound_rotateRead (hP : P.Ideal) {s : State} (h : Sound P s) {r : Rotation}
    {record : UserRecord} {rotated : SealedMasterKey}
    (hread : s.service.users.get? r.user = some record)
    (hprep : prepareRotation P record r = .ok rotated) :
    CarriesSound P s.masters (.rotateWrite r record.sealedMasterKey rotated) := by
  obtain ⟨master, recovery, -, hsound⟩ := h.stored r.user record hread
  obtain ⟨salt, password, hash, sealed, -, -, htext, -⟩ := hsound
  obtain ⟨sealed', hjson, hrotate⟩ := prepareRotation_eq_ok hprep
  rw [htext, hP.json, Option.some.injEq] at hjson
  subst hjson
  exact ⟨sealed, htext, hrotate⟩

/-- What a rotation writes over the record it read is sound for its own key. -/
theorem soundRecord_rotated (hP : P.Ideal) {record : UserRecord} {master recovery : Key}
    {sealed rotated : SealedMasterKey} {password text : String} {nonce : Bytes}
    (h : SoundRecord P record master recovery) (hread : record.sealedMasterKey = P.toJson sealed)
    (hrotate : rotateRecoveryKey P sealed password text nonce = .ok rotated) :
    ∃ recovery', parseRecoveryKey P text = .ok recovery' ∧
      SoundRecord P { record with sealedMasterKey := P.toJson rotated } master recovery' := by
  obtain ⟨salt, password', hash, sealed', hhash, hstored, htext, hholds⟩ := h
  have hsame : sealed' = sealed := by
    have hjson := hP.json sealed
    rw [← hread, htext, hP.json, Option.some.injEq] at hjson
    exact hjson
  subst hsame
  obtain ⟨recovery', hparse, hrotated⟩ := rotateRecoveryKey_holds hP hholds hrotate
  exact ⟨recovery', hparse, salt, password', hash, rotated, hhash, hstored, rfl, hrotated⟩

/-- A step that writes one sound record and leaves the others and the master keys. -/
theorem sound_of_write {s t : State} (h : Sound P s) {u : ℕ} {record : UserRecord}
    {master recovery : Key} (hself : t.service.users.get? u = some record)
    (hother : ∀ v, v ≠ u → t.service.users.get? v = s.service.users.get? v)
    (hmasters : t.masters = s.masters) (hmaster : s.masters u = some master)
    (hsound : SoundRecord P record master recovery)
    (htasks : ∀ i, CarriesSound P s.masters (t.tasks i)) : Sound P t := by
  refine ⟨?_, ?_, ?_⟩
  · intro v master' hmaster'
    by_cases hv : v = u
    · rw [hv]
      exact ⟨record, hself⟩
    · rw [hother v hv]
      rw [hmasters] at hmaster'
      exact h.known v master' hmaster'
  · intro v record' hrecord'
    rw [hmasters]
    by_cases hv : v = u
    · subst hv
      rw [hself, Option.some.injEq] at hrecord'
      subst hrecord'
      exact ⟨master, recovery, hmaster, hsound⟩
    · rw [hother v hv] at hrecord'
      exact h.stored v record' hrecord'
  · rw [hmasters]
    exact htasks

theorem sound_changed {s : State} (h : Sound P s) {i : ℕ} {c : Change} {record : UserRecord}
    {newHash resealed : String} (ht : s.tasks i = .changeWrite c record newHash resealed) :
    Sound P ({ s with service := { s.service with
      users := writePassword s.service.users c.user newHash resealed } }.setTask i
      (.changeEvict c record.passwordVersion)) := by
  have hcarried := h.tasks i
  simp only [ht, CarriesSound] at hcarried
  obtain ⟨master, recovery, salt, sealed, written, hmaster, hhash, -, rfl, hwritten, -⟩ := hcarried
  obtain ⟨stored, hstored⟩ := h.known c.user master hmaster
  let record' : UserRecord :=
    { stored with
      passwordHash := some newHash, sealedMasterKey := P.toJson written, mustChangePassword := false
      passwordVersion := stored.passwordVersion + 1 }
  have hsound : SoundRecord P record' master recovery :=
    ⟨salt, c.newPassword, newHash, written, hhash, rfl, rfl, hwritten⟩
  refine sound_of_write h ?_ ?_ rfl hmaster hsound (carriesSound_setTask h.tasks trivial)
  · simp only [setTask_service, get?_writePassword, ↓reduceIte, hstored, Option.map_some, record']
  · intro v hv
    simp only [setTask_service, get?_writePassword, hv, ↓reduceIte]

theorem sound_rotated (hP : P.Ideal) {s : State} (h : Sound P s) {i : ℕ} {r : Rotation}
    {record : UserRecord} {rotated : SealedMasterKey}
    (ht : s.tasks i = .rotateWrite r record.sealedMasterKey rotated)
    (hread : s.service.users.get? r.user = some record) :
    Sound P ({ s with
      service := { s.service with
        users := s.service.users.insert r.user { record with sealedMasterKey := P.toJson rotated } }
      rotated := fun u => if u = r.user then some r.newKey else s.rotated u }.setTask i
      (.rotateDone (.rotated r.newKey))) := by
  have hcarried := h.tasks i
  simp only [ht, CarriesSound] at hcarried
  obtain ⟨sealed, htext, hrotate⟩ := hcarried
  obtain ⟨master, recovery, hmaster, hsound⟩ := h.stored r.user record hread
  obtain ⟨recovery', -, hsound'⟩ := soundRecord_rotated hP hsound htext hrotate
  refine sound_of_write h ?_ ?_ rfl hmaster hsound' (carriesSound_setTask h.tasks trivial)
  · simp only [setTask_service, Dict.get?_insert, ↓reduceIte]
  · intro v hv
    simp only [setTask_service, Dict.get?_insert, hv, ↓reduceIte]

theorem sound_step (hP : P.Ideal) {s s' : State} {a : Action} (h : Sound P s)
    (he : Effect P s a s') : Sound P s' := by
  cases he with
  | quiet hq =>
    refine ⟨?_, ?_, ?_⟩
    · rw [hq.masters, hq.users]
      exact h.known
    · rw [hq.masters, hq.users]
      exact h.stored
    · intro j
      rw [hq.masters]
      obtain heq | hpc := hq.tasks j
      · rw [heq]
        exact h.tasks j
      · exact carriesSound_of_not_carries hpc
  | created hcreate => exact sound_created h hcreate
  | loggedIn ht => exact ⟨h.known, h.stored, carriesSound_setTask h.tasks trivial⟩
  | changeRead ht hread hprep =>
    exact ⟨h.known, h.stored,
      carriesSound_setTask h.tasks (carriesSound_changeRead hP h hread hprep)⟩
  | changed ht => exact sound_changed h ht
  | evicted ht => exact ⟨h.known, h.stored, carriesSound_setTask h.tasks trivial⟩
  | rotateRead ht hread hprep =>
    exact ⟨h.known, h.stored,
      carriesSound_setTask h.tasks (carriesSound_rotateRead hP h hread hprep)⟩
  | rotated ht hread => exact sound_rotated hP h ht hread

theorem sound_run (hP : P.Ideal) {as : List Action} {s : State}
    (hrun : exec (step P T) State.init as = some s) : Sound P s :=
  exec_invariant (Sound P) (fun _ _ _ h hs => sound_step hP h (effect_of_step hs)) sound_init hrun

/-! ## The key of the last rotation -/

/-- The recovery seal of a record, when its text can be read. -/
def recoverySeal (P : Primitives) (record : UserRecord) : Option String :=
  (P.fromJson record.sealedMasterKey).map SealedMasterKey.recoverySealedHex

/-- The update of a password change finds the recovery seal its read found. -/
def keepsRecoverySeal (P : Primitives) (s : State) : Action → Bool
  | .step i =>
    match s.tasks i with
    | .changeWrite c record _ _ =>
      decide ((s.service.users.get? c.user).bind (recoverySeal P) = recoverySeal P record)
    | _ => true
  | _ => true

theorem keepsRecoverySeal_of_read {s : State} {i : ℕ} {c : Change} (record : UserRecord)
    {newHash resealed : String} (ht : s.tasks i = .changeWrite c record newHash resealed)
    (hread : s.service.users.get? c.user = some record) :
    keepsRecoverySeal P s (.step i) = true := by
  simp only [keepsRecoverySeal, ht, hread, Option.bind_some, decide_true]

/-- INTERNAL: a change that writes over the recovery seal it read leaves the recovery key
as it is. -/
theorem soundRecord_changed (hP : P.Ideal) {s : State} {c : Change}
    {record stored : UserRecord} {newHash resealed : String} {master recovery : Key}
    (hcarried : CarriesSound P s.masters (.changeWrite c record newHash resealed))
    (hmaster : s.masters c.user = some master) (hsound : SoundRecord P stored master recovery)
    (hkeeps : recoverySeal P stored = recoverySeal P record) (record' : UserRecord)
    (hhash' : record'.passwordHash = some newHash) (htext' : record'.sealedMasterKey = resealed) :
    SoundRecord P record' master recovery := by
  obtain ⟨master', recovery', salt, sealed, written, hmaster', hhash, htext, rfl, hwritten,
    hcopied⟩ := hcarried
  rw [hmaster, Option.some.injEq] at hmaster'
  subst hmaster'
  obtain ⟨-, password, -, current, -, -, hcurrent, hholds⟩ := hsound
  have hsame : current.recoverySealedHex = sealed.recoverySealedHex := by
    simpa [recoverySeal, hcurrent, htext, hP.json] using hkeeps
  refine ⟨salt, c.newPassword, newHash, written, hhash, hhash', htext', hwritten.version,
    hwritten.password, ?_⟩
  rw [hcopied, ← hsame]
  exact hholds.recovery

theorem shownKeyHolds_step (hP : P.Ideal) {s s' : State} {a : Action} (h : Sound P s)
    (hshown : ShownKeyHolds P s) (hkeeps : keepsRecoverySeal P s a = true)
    (he : Effect P s a s') : ShownKeyHolds P s' := by
  intro u text htext
  cases he with
  | quiet hq =>
    rw [hq.rotated] at htext
    rw [hq.users, hq.masters]
    exact hshown u text htext
  | created hcreate =>
    obtain ⟨record, master, recovery, hrecord, hmaster, hrest⟩ := hshown u text htext
    obtain ⟨hash, sealed, -, -, hfree, rfl⟩ := createLocal_eq_ok hcreate
    rename_i newUser
    have hne : u ≠ newUser.id := by
      rintro rfl
      rw [hfree] at hrecord
      cases hrecord
    refine ⟨record, master, recovery, ?_, ?_, hrest⟩
    · simp only [Dict.get?_insert, hne, ↓reduceIte]
      exact hrecord
    · simp only [hne, ↓reduceIte]
      exact hmaster
  | loggedIn ht => exact hshown u text htext
  | changeRead ht hread hprep => exact hshown u text htext
  | @changed i c record newHash resealed ht =>
    obtain ⟨stored, master, recovery, hstored, hmaster, hparse, hsound⟩ := hshown u text htext
    simp only [setTask_service, get?_writePassword]
    by_cases hu : u = c.user
    · subst hu
      simp only [keepsRecoverySeal, ht, hstored, Option.bind_some, decide_eq_true_eq] at hkeeps
      have hcarried := h.tasks i
      rw [ht] at hcarried
      rw [if_pos rfl, hstored]
      exact ⟨_, master, recovery, rfl, hmaster, hparse,
        soundRecord_changed hP hcarried hmaster hsound hkeeps _ rfl rfl⟩
    · rw [if_neg hu]
      exact ⟨stored, master, recovery, hstored, hmaster, hparse, hsound⟩
  | evicted ht => exact hshown u text htext
  | rotateRead ht hread hprep => exact hshown u text htext
  | @rotated i r record rotated ht hread =>
    simp only [setTask_service, Dict.get?_insert]
    by_cases hu : u = r.user
    · subst hu
      simp only [setTask_rotated, ↓reduceIte, Option.some.injEq] at htext
      subst htext
      have hcarried := h.tasks i
      simp only [ht, CarriesSound] at hcarried
      obtain ⟨sealed, hjson, hrotate⟩ := hcarried
      obtain ⟨master, recovery, hmaster, hsound⟩ := h.stored r.user record hread
      obtain ⟨recovery', hparse, hsound'⟩ := soundRecord_rotated hP hsound hjson hrotate
      exact ⟨_, master, recovery', if_pos rfl, hmaster, hparse, hsound'⟩
    · simp only [setTask_rotated, hu, ↓reduceIte] at htext ⊢
      exact hshown u text htext

/-- Along the runs whose changes all write over the seal they read, both invariants hold
together. -/
theorem shownKeyHolds_run (hP : P.Ideal) {as : List Action} {s : State}
    (hrun : exec (step P T) State.init as = some s)
    (hok : Meets (step P T) (fun s a => keepsRecoverySeal P s a = true) State.init as) :
    ShownKeyHolds P s := by
  have hstart : Sound P State.init ∧ ShownKeyHolds P State.init :=
    ⟨sound_init, fun u text h => by cases h⟩
  have hboth := exec_invariant_of_meets (fun s => Sound P s ∧ ShownKeyHolds P s)
    (fun _ _ _ h hk hs => ⟨sound_step hP h.1 (effect_of_step hs),
      shownKeyHolds_step hP h.1 h.2 hk (effect_of_step hs)⟩) hstart hrun hok
  exact hboth.2

/-! ## Whole runs -/

/-- The stored record opens with every password its hash verifies, and each of its seals
holds the master key. -/
structure Usable (P : Primitives) (record : UserRecord) (master : Key) (sealed : SealedMasterKey) :
    Prop where
  reads : P.fromJson record.sealedMasterKey = some sealed
  password : ∀ hash password, record.passwordHash = some hash →
    P.verifyPassword password hash = some true → unsealWithPassword P sealed password = .ok master
  passwordSeal : ∃ kek, Seals P sealed.passwordSealedHex passwordSealAad master kek
  recoverySeal : ∃ key, Seals P sealed.recoverySealedHex recoverySealAad master key

theorem usable_of_soundRecord (hP : P.Ideal) {record : UserRecord} {master recovery : Key}
    (h : SoundRecord P record master recovery) : ∃ password sealed,
      Usable P record master sealed ∧ Holds P sealed master password recovery := by
  obtain ⟨salt, password, hash, sealed, hhash, hstored, htext, hholds⟩ := h
  refine ⟨password, sealed, ⟨?_, ?_, ?_, ⟨recovery, hholds.recovery⟩⟩, hholds⟩
  · rw [htext, hP.json]
  · intro hash' password' hhash' hverify
    rw [hstored, Option.some.injEq] at hhash'
    subst hhash'
    rw [hP.verify salt password hash password' hhash, Option.some.injEq,
      decide_eq_true_eq] at hverify
    rw [hverify]
    exact unsealWithPassword_of_holds hP hholds
  · obtain ⟨-, kek, -, -, -, hseals⟩ := hholds.password
    exact ⟨kek, hseals⟩

/-- In every state that password changes and rotations reach, in whatever order they read
and write, each stored record is usable; and along the runs whose password changes write
over the recovery seal they read, the key of the last rotation opens it. -/
theorem keys_stay_usable (P : Primitives) (hP : P.Ideal) (T : TotpCrate) (as : List Action)
    (s : State) (hrun : exec (step P T) State.init as = some s) (u : ℕ) (record : UserRecord)
    (hrecord : s.service.users.get? u = some record) :
    ∃ master sealed, s.masters u = some master ∧ Usable P record master sealed ∧
      (Meets (step P T) (fun s a => keepsRecoverySeal P s a = true) State.init as →
        ∀ text, s.rotated u = some text → unsealWithRecovery P sealed text = .ok master) := by
  obtain ⟨master, recovery, hmaster, hsound⟩ := (sound_run hP hrun).stored u record hrecord
  obtain ⟨password, sealed, husable, hholds⟩ := usable_of_soundRecord hP hsound
  refine ⟨master, sealed, hmaster, husable, ?_⟩
  intro hok text htext
  obtain ⟨record', master', recovery', hrecord', hmaster', hparse, hsound'⟩ :=
    shownKeyHolds_run hP hrun hok u text htext
  rw [hrecord, Option.some.injEq] at hrecord'
  rw [hmaster, Option.some.injEq] at hmaster'
  subst hrecord' hmaster'
  -- both readings of the stored text are of one seal
  obtain ⟨password', sealed', husable', hholds'⟩ := usable_of_soundRecord hP hsound'
  have hsame : sealed' = sealed := by
    have hreads := husable'.reads
    rw [husable.reads, Option.some.injEq] at hreads
    exact hreads.symm
  rw [← hsame]
  exact unsealWithRecovery_of_holds hP hholds' hparse

/-! ## Two runs

One account with a password change and a rotation, with primitives that never fail. -/

section Runs

/-- Key derivation and password hashing always return. -/
structure Returns (P : Primitives) : Prop where
  kdf : ∀ password salt, (P.argon2 password salt).isSome = true
  hash : ∀ salt password, (P.hashPassword salt password).isSome = true

theorem plainPrimitives_returns : Returns plainPrimitives where
  kdf _ _ := rfl
  hash _ _ := rfl

def alice (P : Primitives) : NewUser where
  id := 1
  username := "alice"
  password := "correct horse battery"
  recoveryKey := generateRecoveryKey P (padKey [1])
  masterKey := padKey [9]
  hashSalt := []
  salt := List.replicate 16 0
  nonce := []
  nonce' := []

def aliceChange : Change where
  user := 1
  oldPassword := "correct horse battery"
  newPassword := "staple, no longer a horse"
  hashSalt := []
  salt := List.replicate 16 1
  nonce := []

def aliceRotation (P : Primitives) : Rotation where
  user := 1
  password := "correct horse battery"
  newKey := generateRecoveryKey P (padKey [2])
  nonce := []

theorem exists_deriveKek (hret : Returns P) (password : String) {salt : Bytes}
    (hlen : salt.length = saltLen) : ∃ kek, deriveKek P password salt = .ok kek := by
  obtain ⟨kek, hkek⟩ := Option.isSome_iff_exists.mp (hret.kdf password salt)
  refine ⟨kek, ?_⟩
  simp [deriveKek, hlen, hkek]

theorem createLocal_alice (hP : P.Ideal) (hret : Returns P) : ∃ hash sealed,
    P.hashPassword [] (alice P).password = some hash ∧
    Holds P sealed (padKey [9]) (alice P).password (padKey [1]) ∧
    createLocal P ∅ (alice P) = .ok (Dict.insert ∅ 1
      { id := 1, username := "alice", passwordHash := some hash
        sealedMasterKey := P.toJson sealed }) := by
  obtain ⟨hash, hhash⟩ := Option.isSome_iff_exists.mp (hret.hash [] (alice P).password)
  obtain ⟨kek, hkek⟩ := exists_deriveKek hret (alice P).password
    (rfl : (alice P).salt.length = saltLen)
  have hparse : parseRecoveryKey P (alice P).recoveryKey = .ok (padKey [1]) :=
    parseRecoveryKey_generateRecoveryKey hP (padKey [1])
  obtain ⟨sealed, hseal⟩ : ∃ sealed, sealMasterKey P (padKey [9]) (alice P).password
      (alice P).recoveryKey (alice P).salt [] [] = .ok sealed := by
    unfold sealMasterKey
    exact ⟨_, bind_eq_ok.mpr ⟨padKey [1], hparse, bind_eq_ok.mpr ⟨kek, hkek, rfl⟩⟩⟩
  have hpolicy : checkPasswordPolicyMin (alice P).password minPasswordLen = .ok () := by
    have hlong : ¬ (alice P).password.length < minPasswordLen := by
      simp only [alice]
      decide
    simp only [checkPasswordPolicyMin, hlong, ↓reduceIte]
  obtain ⟨recovery, hrecovery, hholds⟩ := sealMasterKey_holds hseal
  rw [hparse, Except.ok.injEq] at hrecovery
  subst hrecovery
  refine ⟨hash, sealed, hhash, hholds, ?_⟩
  unfold createLocal
  refine bind_eq_ok.mpr ⟨(), hpolicy, bind_eq_ok.mpr ⟨hash, ?_, ?_⟩⟩
  · have hsalt : (alice P).hashSalt = [] := rfl
    simp only [hashNew, hsalt, hhash]
  · have hseal' : sealMasterKey P (alice P).masterKey (alice P).password (alice P).recoveryKey
        (alice P).salt (alice P).nonce (alice P).nonce' = .ok sealed := hseal
    simp only [hseal']
    rfl

theorem verifyStored_of_hash (hP : P.Ideal) {record : UserRecord} {password hash : String}
    {salt : Bytes} (hhash : P.hashPassword salt password = some hash)
    (hstored : record.passwordHash = some hash) : verifyStored P record password = .ok () := by
  simp [verifyStored, hstored, hP.verify salt password hash password hhash]

/-- The password of a sound record logs in and yields the master key. -/
theorem authenticateLocal_of_holds (hP : P.Ideal) {users : Dict ℕ UserRecord}
    {record : UserRecord} {username password hash : String} {salt : Bytes}
    {sealed : SealedMasterKey} {master recovery : Key}
    (hname : getByUsername users username = .ok record)
    (hhash : P.hashPassword salt password = some hash)
    (hstored : record.passwordHash = some hash)
    (htext : record.sealedMasterKey = P.toJson sealed)
    (hholds : Holds P sealed master password recovery) :
    authenticateLocal P users username password = .ok { record, masterKey := master } := by
  have hverify : verifyStored P record password = .ok () := verifyStored_of_hash hP hhash hstored
  have hseal : storedSeal P record = .ok sealed := by
    simp [storedSeal, htext, hP.json]
  unfold authenticateLocal
  refine bind_eq_ok.mpr ⟨record, hname, bind_eq_ok.mpr ⟨(), hverify,
    bind_eq_ok.mpr ⟨sealed, hseal, ?_⟩⟩⟩
  rw [unsealWithPassword_of_holds hP hholds]
  rfl

theorem exists_prepareChange (hP : P.Ideal) (hret : Returns P) (record : UserRecord) (c : Change)
    {salt : Bytes} {hash : String} {sealed : SealedMasterKey} {master recovery : Key}
    (hlen : c.salt.length = saltLen) (hhash : P.hashPassword salt c.oldPassword = some hash)
    (hstored : record.passwordHash = some hash)
    (htext : record.sealedMasterKey = P.toJson sealed)
    (hholds : Holds P sealed master c.oldPassword recovery) :
    ∃ newHash written, prepareChange P record c = .ok (newHash, P.toJson written) ∧
      Holds P written master c.newPassword recovery ∧
      written.recoverySealedHex = sealed.recoverySealedHex := by
  obtain ⟨newHash, hnew⟩ := Option.isSome_iff_exists.mp (hret.hash c.hashSalt c.newPassword)
  obtain ⟨kek, hkek⟩ := exists_deriveKek hret c.newPassword hlen
  obtain ⟨written, hchange⟩ : ∃ written,
      changePassword P sealed c.oldPassword c.newPassword c.salt c.nonce = .ok written := by
    unfold changePassword
    exact ⟨_, bind_eq_ok.mpr ⟨master, unsealWithPassword_of_holds hP hholds,
      bind_eq_ok.mpr ⟨kek, hkek, rfl⟩⟩⟩
  have hverify : verifyStored P record c.oldPassword = .ok () :=
    verifyStored_of_hash hP hhash hstored
  have hseal : storedSeal P record = .ok sealed := by
    simp [storedSeal, htext, hP.json]
  refine ⟨newHash, written, ?_, changePassword_holds hP hholds hchange⟩
  unfold prepareChange
  refine bind_eq_ok.mpr ⟨(), hverify, bind_eq_ok.mpr ⟨sealed, hseal, ?_⟩⟩
  simp only [hchange]
  refine bind_eq_ok.mpr ⟨newHash, ?_, rfl⟩
  simp only [hashNew, hnew]

theorem exists_prepareRotation (hP : P.Ideal) (record : UserRecord) (r : Rotation)
    {sealed : SealedMasterKey} {master recovery recovery' : Key}
    (htext : record.sealedMasterKey = P.toJson sealed)
    (hholds : Holds P sealed master r.password recovery)
    (hparse : parseRecoveryKey P r.newKey = .ok recovery') :
    ∃ rotated, prepareRotation P record r = .ok rotated ∧
      Holds P rotated master r.password recovery' := by
  obtain ⟨rotated, hrotate⟩ : ∃ rotated,
      rotateRecoveryKey P sealed r.password r.newKey r.nonce = .ok rotated := by
    unfold rotateRecoveryKey
    exact ⟨_, bind_eq_ok.mpr ⟨recovery', hparse, bind_eq_ok.mpr
      ⟨master, unsealWithPassword_of_holds hP hholds, rfl⟩⟩⟩
  obtain ⟨key, hkey, hrotated⟩ := rotateRecoveryKey_holds hP hholds hrotate
  rw [hparse, Except.ok.injEq] at hkey
  subst hkey
  refine ⟨rotated, ?_, hrotated⟩
  simp only [prepareRotation, htext, hP.json, unsealWithPassword_of_holds hP hholds, hrotate]

/-- The rotation reads and writes between the read and the write of the change. -/
def overlapping (P : Primitives) : List Action :=
  [.create (alice P), .change 0 aliceChange, .rotate 1 (aliceRotation P), .step 0, .step 1, .step 1,
    .step 0]

/-- The rotation is over before the change reads. -/
def oneAfterTheOther (P : Primitives) : List Action :=
  [.create (alice P), .rotate 1 (aliceRotation P), .step 1, .step 1, .change 0 aliceChange, .step 0,
    .step 0]

theorem exec_overlapping (hP : P.Ideal) (hret : Returns P) : ∃ s record sealed,
    exec (step P T) State.init (overlapping P) = some s ∧ s.service.users.get? 1 = some record ∧
    P.fromJson record.sealedMasterKey = some sealed ∧
    s.rotated 1 = some (aliceRotation P).newKey ∧
    ∀ opened, unsealWithRecovery P sealed (aliceRotation P).newKey ≠ .ok opened := by
  obtain ⟨hash, sealed, hhash, hholds, hcreate⟩ := createLocal_alice hP hret
  have hparse : parseRecoveryKey P (aliceRotation P).newKey = .ok (padKey [2]) :=
    parseRecoveryKey_generateRecoveryKey hP (padKey [2])
  let record : UserRecord :=
    { id := 1, username := "alice", passwordHash := some hash, sealedMasterKey := P.toJson sealed }
  obtain ⟨newHash, written, hchange, hwritten, -⟩ :=
    exists_prepareChange hP hret record aliceChange rfl hhash rfl rfl hholds
  obtain ⟨rotated, hrotate, -⟩ :=
    exists_prepareRotation hP record (aliceRotation P) rfl hholds hparse
  have h1 := exec_snoc (exec_nil (step P T) State.init) (step_create hcreate)
  have h2 := exec_snoc h1 (step_change (i := 0) rfl (by decide : aliceChange.minLen ≤ _))
  have h3 := exec_snoc h2 (step_rotate (i := 1) (r := aliceRotation P) rfl)
  have h4 := exec_snoc h3 (step_changeRead record (i := 0) rfl rfl hchange)
  have h5 := exec_snoc h4 (step_rotateRead record (i := 1) rfl rfl hrotate)
  have h6 := exec_snoc h5 (step_rotateWrite record (i := 1) rfl rfl)
  have h7 := exec_snoc h6 (step_changeWrite (i := 0) rfl)
  refine ⟨_, { record with
    passwordHash := some newHash, sealedMasterKey := P.toJson written, passwordVersion := 1 },
    written, h7, rfl, hP.json written, rfl, ?_⟩
  intro opened
  refine unsealWithRecovery_other hP hwritten hparse ?_ opened
  intro hkeys
  have hbytes : (padKey [2]).bytes = (padKey [1]).bytes := by rw [hkeys]
  revert hbytes
  decide

theorem exec_oneAfterTheOther (hP : P.Ideal) (hret : Returns P) : ∃ s record,
    exec (step P T) State.init (oneAfterTheOther P) = some s ∧
    Meets (step P T) (fun s a => keepsRecoverySeal P s a = true) State.init (oneAfterTheOther P) ∧
    s.service.users.get? 1 = some record ∧ s.rotated 1 = some (aliceRotation P).newKey := by
  obtain ⟨hash, sealed, hhash, hholds, hcreate⟩ := createLocal_alice hP hret
  have hparse : parseRecoveryKey P (aliceRotation P).newKey = .ok (padKey [2]) :=
    parseRecoveryKey_generateRecoveryKey hP (padKey [2])
  let record : UserRecord :=
    { id := 1, username := "alice", passwordHash := some hash, sealedMasterKey := P.toJson sealed }
  obtain ⟨rotated, hrotate, hrotated⟩ :=
    exists_prepareRotation hP record (aliceRotation P) rfl hholds hparse
  let record' : UserRecord := { record with sealedMasterKey := P.toJson rotated }
  obtain ⟨newHash, written, hchange, hwritten, -⟩ :=
    exists_prepareChange hP hret record' aliceChange rfl hhash rfl rfl hrotated
  have h1 := exec_snoc (exec_nil (step P T) State.init) (step_create hcreate)
  have h2 := exec_snoc h1 (step_rotate (i := 1) (r := aliceRotation P) rfl)
  have h3 := exec_snoc h2 (step_rotateRead record (i := 1) rfl rfl hrotate)
  have h4 := exec_snoc h3 (step_rotateWrite record (i := 1) rfl rfl)
  have h5 := exec_snoc h4 (step_change (i := 0) rfl (by decide : aliceChange.minLen ≤ _))
  have h6 := exec_snoc h5 (step_changeRead record' (i := 0) rfl rfl hchange)
  have h7 := exec_snoc h6 (step_changeWrite (i := 0) rfl)
  have m0 : Meets (step P T) (fun s a => keepsRecoverySeal P s a = true) State.init [] := trivial
  have m1 := meets_snoc (exec_nil (step P T) State.init) m0 (a := .create (alice P)) rfl
  have m2 := meets_snoc h1 m1 (a := .rotate 1 (aliceRotation P)) rfl
  have m3 := meets_snoc h2 m2 (a := .step 1) rfl
  have m4 := meets_snoc h3 m3 (a := .step 1) rfl
  have m5 := meets_snoc h4 m4 (a := .change 0 aliceChange) rfl
  have m6 := meets_snoc h5 m5 (a := .step 0) rfl
  have m7 := meets_snoc h6 m6 (a := .step 0) (keepsRecoverySeal_of_read record' rfl rfl)
  exact ⟨_, { record with
    passwordHash := some newHash, sealedMasterKey := P.toJson written, passwordVersion := 1 },
    h7, m7, rfl, rfl⟩

end Runs

/-- A key shown by a rotation survives a change that reads after it. -/
theorem keys_stay_usable_rotated : ∃ s record master sealed,
    exec (step plainPrimitives plainTotp) State.init (oneAfterTheOther plainPrimitives) = some s ∧
    s.rotated 1 = some (aliceRotation plainPrimitives).newKey ∧
    Usable plainPrimitives record master sealed ∧
    unsealWithRecovery plainPrimitives sealed (aliceRotation plainPrimitives).newKey =
      .ok master := by
  obtain ⟨s, record, hrun, hmeets, hrecord, hrotated⟩ := exec_oneAfterTheOther (T := plainTotp)
    plainPrimitives_ideal plainPrimitives_returns
  obtain ⟨master, sealed, -, husable, hshown⟩ := keys_stay_usable plainPrimitives
    plainPrimitives_ideal plainTotp (oneAfterTheOther plainPrimitives) s hrun 1 record hrecord
  exact ⟨s, record, master, sealed, hrun, hrotated, husable, hshown hmeets _ hrotated⟩

/-- A change that read before a rotation and writes after it puts the old recovery seal
back: the key the rotation has shown opens nothing. -/
theorem stale_change_undoes_rotation : ∃ s record sealed,
    exec (step plainPrimitives plainTotp) State.init (overlapping plainPrimitives) = some s ∧
    s.service.users.get? 1 = some record ∧
    plainPrimitives.fromJson record.sealedMasterKey = some sealed ∧
    s.rotated 1 = some (aliceRotation plainPrimitives).newKey ∧
    ∀ master, unsealWithRecovery plainPrimitives sealed (aliceRotation plainPrimitives).newKey ≠
      .ok master :=
  exec_overlapping plainPrimitives_ideal plainPrimitives_returns

end Mycelium.Analysis.AccountKeys
