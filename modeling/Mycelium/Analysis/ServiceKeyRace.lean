import Mycelium.Model.ServiceKeyFile
import Mathlib.Data.List.Infix

/-!
# Concurrent first runs agree on one service key

A call that returns a key returns the one in the file. While the file is being written it holds
a part of the creator's text, and no part short of all the digits reads as a key
(`parseKeyHex_of_keyText`), so the digits a call reads a key from are there to stay.
-/

set_option autoImplicit false

namespace Mycelium.Analysis.ServiceKeyRace

open StepSystem Mycelium.Model.Text Mycelium.Model.ServiceKeyFile

/-! ## What a part of the text reads as -/

/-- INTERNAL: digits are no white space. -/
theorem isWhitespace_digit {d : ℕ} (h : d < 16) : isWhitespace (Hex.digit d) = false := by
  have hall : ∀ d < 16, isWhitespace (Hex.digit d) = false := by decide
  exact hall d h

/-- INTERNAL: nothing is trimmed off a part of the digits. -/
theorem trim_of_prefix_encode {content : List Char} {bytes : List UInt8}
    (h : content <+: Hex.encode bytes) : trim content = content := by
  have hdigits : ∀ c ∈ content, isWhitespace c = false := by
    intro c hc
    obtain ⟨d, hd, rfl⟩ := Hex.digit_of_mem_encode (h.subset hc)
    exact isWhitespace_digit hd
  have hfront : content.dropWhile isWhitespace = content := by
    rw [List.dropWhile_eq_self_iff]
    intro hlen
    rw [hdigits _ (List.getElem_mem hlen)]
    exact Bool.false_ne_true
  unfold trim
  rw [hfront]
  unfold trimEnd
  rw [List.rdropWhile_eq_self_iff]
  intro hne
  rw [hdigits _ (List.getLast_mem hne)]
  exact Bool.false_ne_true

/-- INTERNAL: the newline is. -/
theorem trim_keyText (key : ServiceKey) : trim (keyText key) = Hex.encode key.bytes := by
  have hkeep := trim_of_prefix_encode (List.prefix_refl (Hex.encode key.bytes))
  have hne : Hex.encode key.bytes ≠ [] := by
    intro hnil
    have hlen := congrArg List.length hnil
    rw [Hex.length_encode, key.length_bytes] at hlen
    cases hlen
  obtain ⟨c, rest, hcons⟩ := List.exists_cons_of_ne_nil hne
  have hc : isWhitespace c = false := by
    obtain ⟨d, hd, rfl⟩ := Hex.digit_of_mem_encode
      (by rw [hcons]; exact List.mem_cons_self : c ∈ Hex.encode key.bytes)
    exact isWhitespace_digit hd
  have hnewline : isWhitespace '\n' = true := by decide
  unfold trim keyText at *
  rw [hcons] at hkeep ⊢
  rw [List.cons_append, List.dropWhile_cons_of_neg (by rw [hc]; exact Bool.false_ne_true)]
  rw [List.dropWhile_cons_of_neg (by rw [hc]; exact Bool.false_ne_true)] at hkeep
  unfold trimEnd at *
  rw [← List.cons_append, List.rdropWhile_concat_pos _ _ _ hnewline]
  exact hkeep

theorem parseKeyHex_encode (key : ServiceKey) : parseKeyHex (Hex.encode key.bytes) = some key := by
  unfold parseKeyHex
  rw [Hex.decode_encode]
  exact dif_pos key.length_bytes

/-- INTERNAL: a text that reads as a key has 64 digits. -/
theorem length_of_parseKeyHex {text : List Char} {key : ServiceKey}
    (h : parseKeyHex text = some key) : text.length = 64 := by
  unfold parseKeyHex at h
  split at h
  · cases h
  · rename_i bytes hbytes
    have hlen := Hex.length_of_decode hbytes
    split at h
    · rename_i h32
      omega
    · cases h

/-- **A part of the creator's text that reads as a key has all the digits**, and reads as the
creator's key; so does every longer part. -/
theorem parseKeyHex_of_keyText {content left : List Char} {key read : ServiceKey}
    (htext : content ++ left = keyText key) (hread : parseKeyHex (trim content) = some read) :
    read = key ∧ (content = Hex.encode key.bytes ∨ content = keyText key) := by
  have hpre : content <+: Hex.encode key.bytes ++ ['\n'] := ⟨left, htext⟩
  rw [List.prefix_concat_iff] at hpre
  rcases hpre with hall | hpart
  · rw [hall] at hread
    change parseKeyHex (trim (keyText key)) = some read at hread
    rw [trim_keyText, parseKeyHex_encode, Option.some.injEq] at hread
    exact ⟨hread.symm, .inr hall⟩
  · rw [trim_of_prefix_encode hpart] at hread
    have hlen := length_of_parseKeyHex hread
    have hfull : content = Hex.encode key.bytes := by
      apply hpart.eq_of_length
      rw [Hex.length_encode, key.length_bytes, hlen]
    rw [hfull, parseKeyHex_encode, Option.some.injEq] at hread
    exact ⟨hread.symm, .inl hfull⟩

/-- INTERNAL: a key that was read stays readable while the creator writes on. -/
theorem parseKeyHex_write {content left : List Char} {key read : ServiceKey} (n : ℕ)
    (htext : content ++ left = keyText key) (hread : parseKeyHex (trim content) = some read) :
    parseKeyHex (trim (content ++ left.take n)) = some read := by
  obtain ⟨rfl, hcontent⟩ := parseKeyHex_of_keyText htext hread
  rcases hcontent with hdigits | hall
  · have hleft : left = ['\n'] := by
      rw [hdigits] at htext
      exact List.append_cancel_left htext
    cases n with
    | zero =>
      rw [List.take_zero, List.append_nil]
      exact hread
    | succ n =>
      rw [hleft, List.take_of_length_le (by simp), hdigits]
      change parseKeyHex (trim (keyText read)) = some read
      rw [trim_keyText, parseKeyHex_encode]
  · have hleft : left = [] := by
      rw [hall] at htext
      exact List.append_right_eq_self.mp htext
    rw [hleft, List.take_nil, List.append_nil]
    exact hread

/-! ## What one access can do -/

/-- An access that leaves the file alone: the call holds a key afterwards only if it had
written it, or if the file gives it. -/
structure Quiet (file : Option KeyFile) (pc after : Pc) : Prop where
  writing : ∀ key left, after ≠ .writing key left
  checking : ∀ key, after = .checking key →
    ∃ f, file = some f ∧ parseKeyHex (trim f.content) = some key
  returned : ∀ key, after = .returned (.ok key) → pc = .writing key [] ∨
    pc = .checking key ∧ ∃ f, file = some f ∧ permitted f.mode

/-- INTERNAL: a call that holds no key is quiet. -/
theorem quiet_of_no_key {file : Option KeyFile} {pc after : Pc}
    (hwriting : ∀ key left, after ≠ .writing key left) (hchecking : ∀ key, after ≠ .checking key)
    (hreturned : ∀ key, after ≠ .returned (.ok key)) : Quiet file pc after where
  writing := hwriting
  checking key h := absurd h (hchecking key)
  returned key h := absurd h (hreturned key)

/-- INTERNAL: so is one that tries again or gives up. -/
theorem quiet_retry (file : Option KeyFile) (pc : Pc) (attempts : ℕ) :
    Quiet file pc (.retry attempts) := by
  apply quiet_of_no_key
  all_goals
    intros
    cases attempts with
    | zero => simp only [Pc.retry, ne_eq, reduceCtorEq, Pc.returned.injEq, not_false_eq_true]
    | succ attempts => simp only [Pc.retry, ne_eq, reduceCtorEq, not_false_eq_true]

/-- **What an access does**: it creates the file, appends to it, or leaves it alone. -/
theorem accessStep_cases {file file' : Option KeyFile} {pc after : Pc} {a : Access}
    (h : accessStep file pc a = some (file', after)) :
    (∃ key, pc = .creating key ∧ file = none ∧ file' = some ⟨[], creationMode⟩ ∧
      after = .writing key (keyText key)) ∨
    (∃ f key left n, pc = .writing key left ∧ file = some f ∧
      file' = some { f with content := f.content ++ left.take n } ∧
      after = .writing key (left.drop n)) ∨
    (file' = file ∧ Quiet file pc after) := by
  have plain : ∀ {after₀ : Pc}, Quiet file pc after₀ → some (file, after₀) = some (file', after) →
      file' = file ∧ Quiet file pc after := by
    intro after₀ hquiet heq
    simp only [Option.some.injEq, Prod.mk.injEq] at heq
    exact ⟨heq.1.symm, heq.2 ▸ hquiet⟩
  have idle : ∀ {after₀ : Pc}, (∀ key left, after₀ ≠ .writing key left) →
      (∀ key, after₀ ≠ .checking key) → (∀ key, after₀ ≠ .returned (.ok key)) →
      some (file, after₀) = some (file', after) → file' = file ∧ Quiet file pc after :=
    fun hw hc hr heq => plain (quiet_of_no_key hw hc hr) heq
  unfold accessStep at h
  split at h
  case h_1 => exact .inr (.inr (idle (by simp) (by simp) (by simp) h))
  case h_2 =>
    split at h
    · exact .inr (.inr (plain (quiet_retry _ _ _) h))
    · exact .inr (.inr (idle (by simp) (by simp) (by simp) h))
  case h_3 => exact .inr (.inr (idle (by simp) (by simp) (by simp) h))
  case h_4 =>
    split at h
    · exact .inr (.inr (plain (quiet_retry _ _ _) h))
    · exact .inr (.inr (idle (by simp) (by simp) (by simp) h))
  case h_5 key =>
    split at h
    · exact .inr (.inr (plain (quiet_retry _ _ _) h))
    · simp only [Option.some.injEq, Prod.mk.injEq] at h
      exact .inl ⟨key, rfl, rfl, h.1.symm, h.2.symm⟩
  case h_6 key c left taken =>
    split at h
    · rename_i f
      simp only [Option.some.injEq, Prod.mk.injEq] at h
      exact .inr (.inl ⟨f, key, c :: left, taken + 1, rfl, rfl, h.1.symm, h.2.symm⟩)
    · cases h
  case h_7 key =>
    refine .inr (.inr (plain ⟨by simp, by simp, fun key' heq => .inl ?_⟩ h))
    simp only [Pc.returned.injEq, Except.ok.injEq] at heq
    rw [heq]
  case h_8 =>
    split at h
    · rename_i key hread
      rw [Option.bind_eq_some_iff] at hread
      refine .inr (.inr (plain ⟨by simp, fun key' heq => ?_, by simp⟩ h))
      simp only [Pc.checking.injEq] at heq
      exact heq ▸ hread
    · exact .inr (.inr (plain (quiet_retry _ _ _) h))
  case h_9 => exact .inr (.inr (plain (quiet_retry _ _ _) h))
  case h_10 key =>
    split at h
    · rename_i f
      split at h
      · rename_i hmode
        refine .inr (.inr (plain ⟨by simp, by simp, fun key' heq => .inr ?_⟩ h))
        simp only [Pc.returned.injEq, Except.ok.injEq] at heq
        exact ⟨by rw [heq], f, rfl, hmode⟩
      · exact .inr (.inr (idle (by simp) (by simp) (by simp) h))
    · cases h
  case h_18 => cases h
  -- Failures and kills.
  all_goals exact .inr (.inr (idle (by simp) (by simp) (by simp) h))

/-! ## The invariant -/

/-- The calls that hold a key hold the one of the file, and the call that writes is the only
one that does. -/
structure Holds (f : KeyFile) (calls : ℕ → Pc) : Prop where
  writing : ∀ i key left, calls i = .writing key left →
    f.content ++ left = keyText key ∧ permitted f.mode
  creator : ∀ i j key key' left left', calls i = .writing key left →
    calls j = .writing key' left' → i = j
  checking : ∀ i key, calls i = .checking key → parseKeyHex (trim f.content) = some key
  returned : ∀ i key, calls i = .returned (.ok key) →
    parseKeyHex (trim f.content) = some key ∧ permitted f.mode

/-- Without a file no call has a key of it. -/
structure Vacant (calls : ℕ → Pc) : Prop where
  writing : ∀ i key left, calls i ≠ .writing key left
  checking : ∀ i key, calls i ≠ .checking key
  returned : ∀ i key, calls i ≠ .returned (.ok key)

def Inv (s : State) : Prop :=
  match s.file with
  | none => Vacant s.calls
  | some f => Holds f s.calls

theorem inv_init (file : Option KeyFile) : Inv (init file) := by
  cases file with
  | none => exact ⟨fun _ _ _ => by simp [init], fun _ _ => by simp [init], fun _ _ => by simp [init]⟩
  | some f =>
    exact ⟨fun _ _ _ h => by simp [init] at h, fun _ _ _ _ _ _ h => by simp [init] at h,
      fun _ _ h => by simp [init] at h, fun _ _ h => by simp [init] at h⟩

/-- INTERNAL: a step is an access of one call. -/
theorem step_eq_some {s s' : State} {id : ℕ} {a : Access} (h : step s (id, a) = some s') :
    ∃ after, accessStep s.file (s.calls id) a = some (s'.file, after) ∧
      s'.calls = Function.update s.calls id after := by
  unfold step at h
  rw [Option.map_eq_some_iff] at h
  obtain ⟨⟨file', after⟩, haccess, rfl⟩ := h
  exact ⟨after, haccess, rfl⟩

/-- INTERNAL: after a step a call is the one that stepped, or where it was. -/
theorem of_update {calls : ℕ → Pc} {id i : ℕ} {after pc : Pc}
    (h : Function.update calls id after i = pc) : i = id ∧ after = pc ∨ i ≠ id ∧ calls i = pc := by
  by_cases hid : i = id
  · subst hid
    rw [Function.update_self] at h
    exact .inl ⟨rfl, h⟩
  · rw [Function.update_of_ne hid] at h
    exact .inr ⟨hid, h⟩

theorem holds_quiet {f : KeyFile} {calls : ℕ → Pc} {id : ℕ} {after : Pc} (h : Holds f calls)
    (hquiet : Quiet (some f) (calls id) after) : Holds f (Function.update calls id after) where
  writing := by
    intro i key left hi
    rcases of_update hi with ⟨-, hafter⟩ | ⟨-, hi⟩
    · exact absurd hafter (hquiet.writing key left)
    · exact h.writing i key left hi
  creator := by
    intro i j key key' left left' hi hj
    rcases of_update hi with ⟨-, hafter⟩ | ⟨-, hi⟩
    · exact absurd hafter (hquiet.writing key left)
    · rcases of_update hj with ⟨-, hafter⟩ | ⟨-, hj⟩
      · exact absurd hafter (hquiet.writing key' left')
      · exact h.creator i j key key' left left' hi hj
  checking := by
    intro i key hi
    rcases of_update hi with ⟨-, hafter⟩ | ⟨-, hi⟩
    · obtain ⟨f', hf, hread⟩ := hquiet.checking key hafter
      cases hf
      exact hread
    · exact h.checking i key hi
  returned := by
    intro i key hi
    rcases of_update hi with ⟨-, hafter⟩ | ⟨-, hi⟩
    · rcases hquiet.returned key hafter with hwrote | ⟨hchecked, f', hf, hmode⟩
      · obtain ⟨htext, hmode⟩ := h.writing id key [] hwrote
        rw [List.append_nil] at htext
        rw [htext, trim_keyText, parseKeyHex_encode]
        exact ⟨rfl, hmode⟩
      · cases hf
        exact ⟨h.checking id key hchecked, hmode⟩
    · exact h.returned i key hi

/-- INTERNAL: the creator appends: the keys that were read stay readable. -/
theorem holds_write {f : KeyFile} {calls : ℕ → Pc} {id : ℕ} {key : ServiceKey} {left : List Char}
    (n : ℕ) (h : Holds f calls) (hid : calls id = .writing key left) :
    Holds { f with content := f.content ++ left.take n }
      (Function.update calls id (.writing key (left.drop n))) := by
  obtain ⟨htext, hmode⟩ := h.writing id key left hid
  have hother : ∀ i, i ≠ id → ∀ key' left', calls i ≠ .writing key' left' :=
    fun i hne key' left' hi => hne (h.creator i id key' key left' left hi hid)
  constructor
  case writing =>
    intro i key' left' hi
    rcases of_update hi with ⟨-, hafter⟩ | ⟨hne, hi⟩
    · rw [Pc.writing.injEq] at hafter
      obtain ⟨rfl, rfl⟩ := hafter
      simp only [List.append_assoc, List.take_append_drop]
      exact ⟨htext, hmode⟩
    · exact absurd hi (hother i hne key' left')
  case creator =>
    intro i j key₁ key₂ left₁ left₂ hi hj
    rcases of_update hi with ⟨rfl, -⟩ | ⟨hne, hi⟩
    · rcases of_update hj with ⟨rfl, -⟩ | ⟨hne, hj⟩
      · rfl
      · exact absurd hj (hother j hne key₂ left₂)
    · exact absurd hi (hother i hne key₁ left₁)
  case checking =>
    intro i key' hi
    rcases of_update hi with ⟨-, hafter⟩ | ⟨-, hi⟩
    · cases hafter
    · exact parseKeyHex_write n htext (h.checking i key' hi)
  case returned =>
    intro i key' hi
    rcases of_update hi with ⟨-, hafter⟩ | ⟨-, hi⟩
    · cases hafter
    · obtain ⟨hread, hperm⟩ := h.returned i key' hi
      exact ⟨parseKeyHex_write n htext hread, hperm⟩

/-- INTERNAL: the file is created empty, and its creator is the one call that writes. -/
theorem holds_create {calls : ℕ → Pc} {id : ℕ} {key : ServiceKey} (h : Vacant calls) :
    Holds ⟨[], creationMode⟩ (Function.update calls id (.writing key (keyText key))) := by
  constructor
  case writing =>
    intro i key' left' hi
    rcases of_update hi with ⟨-, hafter⟩ | ⟨-, hi⟩
    · rw [Pc.writing.injEq] at hafter
      obtain ⟨rfl, rfl⟩ := hafter
      exact ⟨rfl, by decide⟩
    · exact absurd hi (h.writing i key' left')
  case creator =>
    intro i j key₁ key₂ left₁ left₂ hi hj
    rcases of_update hi with ⟨rfl, -⟩ | ⟨-, hi⟩
    · rcases of_update hj with ⟨rfl, -⟩ | ⟨-, hj⟩
      · rfl
      · exact absurd hj (h.writing j key₂ left₂)
    · exact absurd hi (h.writing i key₁ left₁)
  case checking =>
    intro i key' hi
    rcases of_update hi with ⟨-, hafter⟩ | ⟨-, hi⟩
    · cases hafter
    · exact absurd hi (h.checking i key')
  case returned =>
    intro i key' hi
    rcases of_update hi with ⟨-, hafter⟩ | ⟨-, hi⟩
    · cases hafter
    · exact absurd hi (h.returned i key')

/-- INTERNAL: a quiet access without a file gives no key. -/
theorem vacant_quiet {calls : ℕ → Pc} {id : ℕ} {after : Pc} (h : Vacant calls)
    (hquiet : Quiet none (calls id) after) : Vacant (Function.update calls id after) := by
  constructor
  case writing =>
    intro i key left hi
    rcases of_update hi with ⟨-, hafter⟩ | ⟨-, hi⟩
    · exact hquiet.writing key left hafter
    · exact h.writing i key left hi
  case checking =>
    intro i key hi
    rcases of_update hi with ⟨-, hafter⟩ | ⟨-, hi⟩
    · obtain ⟨f, hf, -⟩ := hquiet.checking key hafter
      cases hf
    · exact h.checking i key hi
  case returned =>
    intro i key hi
    rcases of_update hi with ⟨-, hafter⟩ | ⟨-, hi⟩
    · rcases hquiet.returned key hafter with hwrote | ⟨hchecked, -⟩
      · exact h.writing id key [] hwrote
      · exact h.checking id key hchecked
    · exact h.returned i key hi

theorem inv_step {s s' : State} {action : ℕ × Access} (hinv : Inv s)
    (hstep : step s action = some s') : Inv s' := by
  obtain ⟨id, a⟩ := action
  obtain ⟨after, haccess, hcalls⟩ := step_eq_some hstep
  unfold Inv at *
  rw [hcalls]
  rcases accessStep_cases haccess with ⟨key, hpc, hfile, hfile', rfl⟩ |
    ⟨f, key, left, n, hpc, hfile, hfile', rfl⟩ | ⟨hfile', hquiet⟩
  · rw [hfile] at hinv
    rw [hfile']
    exact holds_create hinv
  · rw [hfile] at hinv
    rw [hfile']
    exact holds_write n hinv hpc
  · rw [hfile']
    cases hfile : s.file with
    | none =>
      rw [hfile] at hinv hquiet
      exact vacant_quiet hinv hquiet
    | some f =>
      rw [hfile] at hinv hquiet
      exact holds_quiet hinv hquiet

/-! ## Once a call has returned a key -/

/-- The file gives the key. -/
def Gives (key : ServiceKey) (s : State) : Prop :=
  ∃ f, s.file = some f ∧ parseKeyHex (trim f.content) = some key ∧ permitted f.mode

theorem gives_step {s s' : State} {action : ℕ × Access} {key : ServiceKey} (hinv : Inv s)
    (hgives : Gives key s) (hstep : step s action = some s') : Gives key s' := by
  obtain ⟨id, a⟩ := action
  obtain ⟨after, haccess, -⟩ := step_eq_some hstep
  obtain ⟨f, hfile, hread, hmode⟩ := hgives
  unfold Inv at hinv
  rw [hfile] at hinv haccess
  rcases accessStep_cases haccess with ⟨_, -, hnone, -⟩ | ⟨f', key', left, n, hpc, hf, hfile', -⟩ |
    ⟨hfile', -⟩
  · cases hnone
  · cases hf
    obtain ⟨htext, -⟩ := hinv.writing id key' left hpc
    exact ⟨_, hfile', parseKeyHex_write n htext hread, hmode⟩
  · exact ⟨f, hfile', hread, hmode⟩

/-- INTERNAL: a key that was returned is the one of the file. -/
theorem gives_of_returned {s : State} {i : ℕ} {key : ServiceKey} (hinv : Inv s)
    (hi : s.calls i = .returned (.ok key)) : Gives key s := by
  unfold Inv at hinv
  cases hfile : s.file with
  | none =>
    rw [hfile] at hinv
    exact absurd hi (hinv.returned i key)
  | some f =>
    rw [hfile] at hinv
    exact ⟨f, hfile, hinv.returned i key hi⟩

/-- A call that began with the key in the file: it holds that key or none yet. -/
inductive Ready (key : ServiceKey) : Pc → Prop
  | idle : Ready key .idle
  | reading (attempts : ℕ) : Ready key (.reading attempts)
  | checking : Ready key (.checking key)
  | overridden (result : Except ServiceKeyError ServiceKey) : Ready key (.overridden result)
  | returned : Ready key (.returned (.ok key))
  | killed : Ready key .killed

/-- INTERNAL: an access of such a call that does not fail. -/
theorem ready_accessStep {f : KeyFile} {file' : Option KeyFile} {key : ServiceKey} {pc after : Pc}
    {a : Access} (hread : parseKeyHex (trim f.content) = some key) (hmode : permitted f.mode)
    (hpc : Ready key pc) (hfail : a ≠ .fail) (herror : a ≠ .readError)
    (h : accessStep (some f) pc a = some (file', after)) : Ready key after := by
  have done : ∀ {after₀ : Pc}, Ready key after₀ → some (some f, after₀) = some (file', after) →
      Ready key after := by
    intro after₀ hready heq
    simp only [Option.some.injEq, Prod.mk.injEq] at heq
    exact heq.2 ▸ hready
  cases hpc with
  | idle =>
    cases a with
    | loadOrCreate envHex minted =>
      cases envHex with
      | none => exact done (.reading _) h
      | some envHex => exact done (.overridden _) h
    | load envHex =>
      cases envHex with
      | none => exact done (.reading _) h
      | some envHex => exact done (.overridden _) h
    | _ => cases h
  | reading attempts =>
    cases a with
    | read =>
      simp only [accessStep, Option.bind_some, hread] at h
      exact done .checking h
    | readError => exact absurd rfl herror
    | kill => exact done .killed h
    | _ => cases h
  | checking =>
    cases a with
    | stat =>
      simp only [accessStep, hmode, ↓reduceIte] at h
      exact done .returned h
    | fail => exact absurd rfl hfail
    | kill => exact done .killed h
    | _ => cases h
  | overridden result => cases a <;> cases h
  | returned => cases a <;> cases h
  | killed => cases a <;> cases h

theorem ready_step {s s' : State} {action : ℕ × Access} {key : ServiceKey} {j : ℕ}
    (hgives : Gives key s) (hready : Ready key (s.calls j)) (hfail : action ≠ (j, .fail))
    (herror : action ≠ (j, .readError)) (hstep : step s action = some s') :
    Ready key (s'.calls j) := by
  obtain ⟨id, a⟩ := action
  obtain ⟨after, haccess, hcalls⟩ := step_eq_some hstep
  obtain ⟨f, hfile, hread, hmode⟩ := hgives
  rw [hfile] at haccess
  rw [hcalls]
  by_cases hid : j = id
  · subst hid
    rw [Function.update_self]
    have hf : a ≠ .fail := fun heq => hfail (by rw [heq])
    have he : a ≠ .readError := fun heq => herror (by rw [heq])
    exact ready_accessStep hread hmode hready hf he haccess
  · rw [Function.update_of_ne hid]
    exact hready

/-- A file that was there before the first call. -/
def Untouched (f : KeyFile) (s : State) : Prop :=
  s.file = some f ∧ ∀ i key left, s.calls i ≠ .writing key left

theorem untouched_step {s s' : State} {action : ℕ × Access} {f : KeyFile} (h : Untouched f s)
    (hstep : step s action = some s') : Untouched f s' := by
  obtain ⟨id, a⟩ := action
  obtain ⟨after, haccess, hcalls⟩ := step_eq_some hstep
  obtain ⟨hfile, hnone⟩ := h
  rw [hfile] at haccess
  rcases accessStep_cases haccess with ⟨_, -, hnofile, -⟩ | ⟨_, key, left, _, hpc, -⟩ |
    ⟨hfile', hquiet⟩
  · cases hnofile
  · exact absurd hpc (hnone id key left)
  · refine ⟨hfile', ?_⟩
    intro i key left hi
    rw [hcalls] at hi
    rcases of_update hi with ⟨-, hafter⟩ | ⟨-, hi⟩
    · exact hquiet.writing key left hafter
    · exact hnone i key left hi

/-- **A key file is written by one creation and never again**: one that is there when no call
writes stays as it is, whatever calls come. A creation that was cut off leaves a file that no
call can use and none replaces. -/
theorem untouched_run {s t : State} {bs : List (ℕ × Access)} {f : KeyFile} (h : Untouched f s)
    (hrun : exec step s bs = some t) : Untouched f t :=
  exec_invariant (Untouched f) (fun _ _ _ hu hstep => untouched_step hu hstep) h hrun

/-- **First runs agree, and what they agree on stays.** Whatever calls of the two loaders run
at once, in any interleaving and with kills and storage failures anywhere: once one call has
returned the key of the file, every call that returns a key of the file returns that one, and
a call that begins then returns it unless its own storage accesses fail. -/
theorem service_key_settled {file : Option KeyFile} {as bs : List (ℕ × Access)} {s t : State}
    (hs : exec step (init file) as = some s) (ht : exec step s bs = some t) {i : ℕ}
    {key : ServiceKey} (hi : s.calls i = .returned (.ok key)) :
    (∀ j key', t.calls j = .returned (.ok key') → key' = key) ∧
    ∀ j result, s.calls j = .idle → (j, Access.fail) ∉ bs → (j, Access.readError) ∉ bs →
      t.calls j = .returned result → result = .ok key := by
  have hstep : ∀ s a s', Inv s → step s a = some s' → Inv s' := fun _ _ _ h hs => inv_step h hs
  have hinv : Inv s := exec_invariant Inv hstep (inv_init file) hs
  have hgives : Gives key s := gives_of_returned hinv hi
  have hboth : ∀ s a s', Inv s ∧ Gives key s → step s a = some s' → Inv s' ∧ Gives key s' :=
    fun _ _ _ h hs => ⟨inv_step h.1 hs, gives_step h.1 h.2 hs⟩
  constructor
  · intro j key' hj
    obtain ⟨hinv', f, hfile, hread, -⟩ := exec_invariant _ hboth ⟨hinv, hgives⟩ ht
    obtain ⟨f', hfile', hread', -⟩ := gives_of_returned hinv' hj
    rw [hfile, Option.some.injEq] at hfile'
    rw [← hfile', hread, Option.some.injEq] at hread'
    exact hread'.symm
  · intro j result hidle hfail herror hj
    have hready : Ready key (s.calls j) := by
      rw [hidle]
      exact .idle
    have hmeets : Meets step (fun _ a => True ∧ a ≠ (j, .fail) ∧ a ≠ (j, .readError)) s bs := by
      apply meets_and_of_forall (meets_of_forall (fun _ _ => trivial) s bs)
      intro a ha
      exact ⟨fun heq => hfail (heq ▸ ha), fun heq => herror (heq ▸ ha)⟩
    have hend := exec_invariant_of_meets
      (fun s => (Inv s ∧ Gives key s) ∧ Ready key (s.calls j))
      (fun s a s' h hok hs => ⟨hboth s a s' h.1 hs,
        ready_step h.1.2 h.2 hok.2.1 hok.2.2 hs⟩) ⟨⟨hinv, hgives⟩, hready⟩ ht hmeets
    rw [hj] at hend
    cases hend.2
    rfl

/-- A key of 32 equal bytes. -/
def sameBytes (b : UInt8) : ServiceKey := ⟨List.replicate 32 b, List.length_replicate⟩

/-- Two first runs at once, the second of which finds the file half-written. -/
def firstRuns : List (ℕ × Access) :=
  [(0, .loadOrCreate none (sameBytes 1)), (1, .loadOrCreate none (sameBytes 2)), (0, .createNew),
    (0, .write 20), (1, .createNew), (1, .read), (0, .write 99), (0, .close)]

/-- The second reads again, and a third call comes. -/
def laterReads : List (ℕ × Access) :=
  [(1, .read), (2, .load none), (1, .stat), (2, .read), (2, .stat)]

theorem service_key_settled_of_two : ∃ s t, exec step (init none) firstRuns = some s ∧
    exec step s laterReads = some t ∧ s.calls 0 = .returned (.ok (sameBytes 1)) ∧
    t.calls 1 = .returned (.ok (sameBytes 1)) ∧ t.calls 2 = .returned (.ok (sameBytes 1)) ∧
    ∀ j key', t.calls j = .returned (.ok key') → key' = sameBytes 1 := by
  have h := @service_key_settled none firstRuns laterReads _ _ rfl rfl 0 (sameBytes 1) rfl
  exact ⟨_, _, rfl, rfl, rfl, rfl, rfl, h.1⟩

end Mycelium.Analysis.ServiceKeyRace
