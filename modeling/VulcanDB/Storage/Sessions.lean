import VulcanDB.Library.Steps

/-!
# Storage — Sessions

The `WiredTigerSession`s of one store.  A cursor operation is one step of the store: `search`, an
`insert` that overwrites, `remove`.  `insert_kv` makes two of them, so steps of other sessions may
come between its search and its insert.  A session makes one call at a time.

Errors of the engine other than a missing key end the process (`CheckOp`) and are left out.

* `run_inv`: what the store and a pending insert say of the past.
* `atomic_iff`: the runs in which an insert-if-absent is atomic.
-/

namespace VulcanDB.Storage

open Steps

/-- Where a session is: between calls, or in `insert_kv(key, value)` after a search that failed. -/
inductive Session (κ ν : Type*) where
  | idle
  | inserting (key : κ) (value : ν)

/-- The store, and where each session is. -/
structure Sys (σ κ ν : Type*) where
  store : κ → Option ν
  session : σ → Session κ ν

/-- A cursor operation of a session, with the call that makes it. -/
inductive Action (σ κ ν : Type*) where
  | get (s : σ) (key : κ)
  | upsertKv (s : σ) (key : κ) (value : ν)
  | insertKvSearch (s : σ) (key : κ) (value : ν)
  | insertKvInsert (s : σ)
  | deleteKv (s : σ) (key : κ)

/-- What a step has done; `rejected` and `inserted` are the returns of `insert_kv` with `false`
and `true`. -/
inductive Event (σ κ ν : Type*) where
  | got (s : σ) (key : κ) (value : Option ν)
  | upserted (s : σ) (key : κ) (value : ν)
  | searched (s : σ) (key : κ)
  | rejected (s : σ) (key : κ)
  | inserted (s : σ) (key : κ) (value : ν)
  | deleted (s : σ) (key : κ)
  deriving DecidableEq

/-- The session is in another call, or not in `insert_kv`. -/
structure Refused where
  deriving DecidableEq

section Machine

variable {σ κ ν : Type} [DecidableEq σ] [DecidableEq κ]

/-- The session that made the call. -/
def Event.session : Event σ κ ν → σ
  | .got s _ _ | .upserted s _ _ | .searched s _ | .rejected s _ | .inserted s _ _
  | .deleted s _ => s

/-- The store is written. -/
def Sys.write (t : Sys σ κ ν) (key : κ) (value : Option ν) : Sys σ κ ν :=
  { t with store := Function.update t.store key value }

/-- The session goes on. -/
def Sys.go (t : Sys σ κ ν) (s : σ) (c : Session κ ν) : Sys σ κ ν :=
  { t with session := Function.update t.session s c }

omit [DecidableEq κ] in
theorem Sys.go_of_ne (t : Sys σ κ ν) {s s' : σ} (h : s' ≠ s) (c : Session κ ν) :
    (t.go s c).session s' = t.session s' := Function.update_of_ne h _ _

omit [DecidableEq σ] in
theorem Sys.write_of_ne (t : Sys σ κ ν) {k key : κ} (h : k ≠ key) (value : Option ν) :
    (t.write key value).store k = t.store k := Function.update_of_ne h _ _

/-- A call by a session that is in none. -/
def call (t : Sys σ κ ν) (s : σ) (next : Sys σ κ ν × Event σ κ ν) :
    Except Refused (Sys σ κ ν × Event σ κ ν) :=
  match t.session s with
  | .idle => .ok next
  | .inserting _ _ => .error ⟨⟩

/-- `get`, `upsert_kv`, `insert_kv` and `delete_kv`, one cursor operation at a time.  A `remove`
of a missing key succeeds, the cursor being one that overwrites. -/
def effect (t : Sys σ κ ν) : Action σ κ ν → Except Refused (Sys σ κ ν × Event σ κ ν)
  | .get s key => call t s (t, .got s key (t.store key))
  | .upsertKv s key value => call t s (t.write key (some value), .upserted s key value)
  | .insertKvSearch s key value => call t s <|
    match t.store key with
    | some _ => (t, .rejected s key)
    | none => (t.go s (.inserting key value), .searched s key)
  | .insertKvInsert s =>
    match t.session s with
    | .idle => .error ⟨⟩
    | .inserting key value =>
      .ok ((t.write key (some value)).go s .idle, .inserted s key value)
  | .deleteKv s key => call t s (t.write key none, .deleted s key)

/-- The machine of all sessions. -/
def machine : Machine (Sys σ κ ν) (Action σ κ ν) Refused (Event σ κ ν) where
  step t a := (effect t a).map (·.1)
  label t a := match effect t a with
    | .error _ => []
    | .ok r => [r.2]

/-- All sessions are between calls. -/
def Sys.start (store : κ → Option ν) : Sys σ κ ν := ⟨store, fun _ => .idle⟩

/-! ### What is meant by atomic -/

/-- Two calls of `insert_kv` on a key return `true` only with a deletion of it between them, and
what one has inserted is replaced before another inserts. -/
structure Atomic (es : List (Event σ κ ν)) : Prop where
  once : ∀ a b c s s' key value value', es = a ++ .inserted s key value :: b ++
    .inserted s' key value' :: c → ∃ s'', .deleted s'' key ∈ b
  kept : ∀ a b c s s' key value value', es = a ++ .inserted s key value :: b ++
    .inserted s' key value' :: c →
      ∃ e ∈ b, ∃ s'', e = .deleted s'' key ∨ ∃ value'', e = .upserted s'' key value''

/-- Between the search of an `insert_kv` and its insert, no other call inserts the key for good:
the key is deleted again. -/
def NoRace (es : List (Event σ κ ν)) : Prop :=
  ∀ a b c s key value, es = a ++ .searched s key :: b ++ .inserted s key value :: c →
    (∀ e ∈ b, e.session ≠ s) → ∀ b₁ b₂ s' value', b = b₁ ++ .inserted s' key value' :: b₂ →
      ∃ s'', .deleted s'' key ∈ b₂

/-! ### One step -/

/-- What a step does to a pending insert and to a missing key, by its event. -/
structure Spec (t : Sys σ κ ν) (e : Event σ κ ν) (t' : Sys σ κ ν) : Prop where
  pending : ∀ s key value, e = .inserted s key value → t.session s = .inserting key value
  session : ∀ s key value, t'.session s = .inserting key value →
    (e.session ≠ s ∧ t.session s = .inserting key value) ∨
      (e = .searched s key ∧ t.store key = none)
  store : ∀ key, t'.store key = none →
    (t.store key = none ∧ ∀ s value, e ≠ .inserted s key value) ∨ ∃ s, e = .deleted s key

omit [DecidableEq σ] [DecidableEq κ] in
theorem call_eq_ok {t : Sys σ κ ν} {s : σ} {next r : Sys σ κ ν × Event σ κ ν} :
    call t s next = .ok r ↔ t.session s = .idle ∧ next = r := by
  unfold call
  cases t.session s <;> simp

omit [DecidableEq σ] [DecidableEq κ] in
/-- A session between calls, after one that leaves it there. -/
theorem session_idle {t t' : Sys σ κ ν} {e : Event σ κ ν} (hs : t'.session = t.session)
    (he : t.session e.session = .idle) : ∀ s key value, t'.session s = .inserting key value →
      e.session ≠ s ∧ t.session s = .inserting key value := by
  intro s key value h
  rw [hs] at h
  refine ⟨?_, h⟩
  rintro rfl
  rw [he] at h
  cases h

/-- **What a call does**. -/
theorem effect_spec {t : Sys σ κ ν} {a : Action σ κ ν} {r : Sys σ κ ν × Event σ κ ν}
    (h : effect t a = .ok r) : Spec t r.2 r.1 := by
  cases a with
  | get s key =>
      obtain ⟨hs, rfl⟩ := call_eq_ok.mp h
      exact ⟨by simp, fun s' k v h' => .inl (session_idle rfl hs s' k v h'),
        fun k hk => .inl ⟨hk, by simp⟩⟩
  | upsertKv s key value =>
      obtain ⟨hs, rfl⟩ := call_eq_ok.mp h
      refine ⟨by simp, fun s' k v h' => .inl (session_idle rfl hs s' k v h'), fun k hk => ?_⟩
      rcases eq_or_ne k key with rfl | hne
      · simp [Sys.write] at hk
      · exact .inl ⟨(t.write_of_ne hne _).symm.trans hk, by simp⟩
  | insertKvSearch s key value =>
      obtain ⟨hs, he⟩ := call_eq_ok.mp h
      cases hkey : t.store key with
      | some old =>
          simp only [hkey] at he
          obtain rfl := he
          exact ⟨by simp, fun s' k v h' => .inl (session_idle rfl hs s' k v h'),
            fun k hk => .inl ⟨hk, by simp⟩⟩
      | none =>
          simp only [hkey] at he
          obtain rfl := he
          refine ⟨by simp, fun s' k v h' => ?_, fun k hk => .inl ⟨hk, by simp⟩⟩
          rcases eq_or_ne s' s with rfl | hne
          · simp only [Sys.go, Function.update_self, Session.inserting.injEq] at h'
            obtain ⟨rfl, rfl⟩ := h'
            exact .inr ⟨rfl, hkey⟩
          · exact .inl ⟨hne.symm, (t.go_of_ne hne _).symm.trans h'⟩
  | insertKvInsert s =>
      cases hs : t.session s with
      | idle =>
          simp only [effect, hs] at h
          cases h
      | inserting key value =>
          simp only [effect, hs] at h
          cases h
          refine ⟨?_, fun s' k v h' => ?_, fun k hk => ?_⟩
          · rintro s' k v he
            obtain ⟨rfl, rfl, rfl⟩ := Event.inserted.inj he
            exact hs
          · rcases eq_or_ne s' s with rfl | hne
            · simp [Sys.go] at h'
            · exact .inl ⟨hne.symm, (Sys.go_of_ne _ hne _).symm.trans h'⟩
          · rcases eq_or_ne k key with rfl | hne
            · simp [Sys.go, Sys.write] at hk
            · refine .inl ⟨(t.write_of_ne hne _).symm.trans hk, fun s' v he => ?_⟩
              exact hne (Event.inserted.inj he).2.1.symm
  | deleteKv s key =>
      obtain ⟨hs, rfl⟩ := call_eq_ok.mp h
      refine ⟨by simp, fun s' k v h' => .inl (session_idle rfl hs s' k v h'), fun k hk => ?_⟩
      rcases eq_or_ne k key with rfl | hne
      · exact .inr ⟨s, rfl⟩
      · exact .inl ⟨(t.write_of_ne hne _).symm.trans hk, by simp⟩

/-- A step has one event. -/
theorem step_spec {t t' : Sys σ κ ν} {a : Action σ κ ν} (h : machine.step t a = .ok t') :
    ∃ e, machine.label t a = [e] ∧ Spec t e t' := by
  simp only [machine] at h ⊢
  cases he : effect t a with
  | error x =>
      rw [he] at h
      cases h
  | ok r =>
      rw [he] at h
      cases h
      exact ⟨r.2, rfl, effect_spec he⟩

/-! ### What the past says -/

/-- The key was inserted and has not been deleted since. -/
def Live (key : κ) (es : List (Event σ κ ν)) : Prop :=
  ∃ a b s value, es = a ++ .inserted s key value :: b ∧ ∀ s', .deleted s' key ∉ b

omit [DecidableEq σ] [DecidableEq κ] in
/-- An event before the last one, or the last one. -/
theorem snoc_eq {es a b : List (Event σ κ ν)} {e x : Event σ κ ν} (h : es ++ [e] = a ++ x :: b) :
    (b = [] ∧ a = es ∧ x = e) ∨ ∃ b', b = b' ++ [e] ∧ es = a ++ x :: b' := by
  rcases List.eq_nil_or_concat b with rfl | ⟨b', y, rfl⟩
  · obtain ⟨h₁, h₂⟩ := List.append_inj' h rfl
    obtain ⟨rfl, -⟩ := List.cons.inj h₂
    exact .inl ⟨rfl, h₁.symm, rfl⟩
  · rw [List.concat_eq_append, ← List.cons_append, ← List.append_assoc] at h
    obtain ⟨h₁, h₂⟩ := List.append_inj' h rfl
    obtain ⟨rfl, -⟩ := List.cons.inj h₂
    exact .inr ⟨b', by simp, h₁⟩

omit [DecidableEq σ] [DecidableEq κ] in
/-- A key is alive behind its insertion, until it is deleted. -/
theorem live_snoc {key : κ} {es : List (Event σ κ ν)} {e : Event σ κ ν} (h : Live key (es ++ [e])) :
    (∃ s value, e = .inserted s key value) ∨ (Live key es ∧ ∀ s, e ≠ .deleted s key) := by
  obtain ⟨a, b, s, value, heq, hb⟩ := h
  rcases snoc_eq heq with ⟨-, -, hx⟩ | ⟨b', rfl, hes⟩
  · exact .inl ⟨s, value, hx.symm⟩
  · refine .inr ⟨⟨a, b', s, value, hes, fun s' hs' => hb s' (by simp [hs'])⟩, ?_⟩
    rintro s' rfl
    exact hb s' (by simp)

/-- What is known after these events. -/
structure Inv (es : List (Event σ κ ν)) (t : Sys σ κ ν) : Prop where
  live : ∀ key, Live key es → t.store key ≠ none
  search : ∀ s key value, t.session s = .inserting key value →
    ∃ x y, es = x ++ .searched s key :: y ∧ (∀ e ∈ y, e.session ≠ s) ∧ ¬ Live key x

omit [DecidableEq σ] [DecidableEq κ] in
/-- **One call**. -/
theorem Inv.step {es : List (Event σ κ ν)} {t t' : Sys σ κ ν} {e : Event σ κ ν} (h : Inv es t)
    (hs : Spec t e t') : Inv (es ++ [e]) t' where
  live key hl hnone := by
    rcases hs.store key hnone with ⟨hold, hne⟩ | ⟨s, rfl⟩
    · rcases live_snoc hl with ⟨s, value, he⟩ | ⟨hl, -⟩
      · exact hne s value he
      · exact h.live key hl hold
    · rcases live_snoc hl with ⟨s', value, he⟩ | ⟨-, hne⟩
      · cases he
      · exact hne s rfl
  search s key value hp := by
    rcases hs.session s key value hp with ⟨hne, hp⟩ | ⟨rfl, hnone⟩
    · obtain ⟨x, y, rfl, hy, hl⟩ := h.search s key value hp
      refine ⟨x, y ++ [e], by simp, fun e' he' => ?_, hl⟩
      rcases List.mem_append.mp he' with he' | he'
      · exact hy e' he'
      · rwa [List.mem_singleton.mp he']
    · exact ⟨es, [], rfl, by simp, fun hl => h.live key hl hnone⟩

omit [DecidableEq σ] [DecidableEq κ] in
theorem inv_start (store : κ → Option ν) : Inv ([] : List (Event σ κ ν)) (.start store) where
  live key := by
    rintro ⟨a, b, s, value, heq, -⟩
    simp at heq
  search s key value hp := by
    cases hp

/-- **Every run**, by induction on it. -/
theorem run_inv {store : κ → Option ν} {es : List (Event σ κ ν)} {t : Sys σ κ ν}
    (h : Run machine (.start store) es t) : Inv es t := by
  refine h.invariant (inv_start store) ?_
  intro es t a t' ih hs
  obtain ⟨e, he, hspec⟩ := step_spec hs
  rw [he]
  exact ih.step hspec

/-! ### Atomic insert-if-absent -/

omit [DecidableEq σ] [DecidableEq κ] in
theorem noRace_of_append {es : List (Event σ κ ν)} {e : Event σ κ ν} (h : NoRace (es ++ [e])) :
    NoRace es := by
  intro a b c s key value heq
  exact h a b (c ++ [e]) s key value (by rw [heq]; simp)

omit [DecidableEq σ] [DecidableEq κ] in
/-- Without a race, the key was deleted since the insert before. -/
theorem Inv.deleted {es : List (Event σ κ ν)} {t : Sys σ κ ν} (h : Inv es t)
    {a b : List (Event σ κ ν)} {s s' : σ} {key : κ} {value value' : ν}
    (hrace : NoRace (es ++ [.inserted s' key value']))
    (hp : t.session s' = .inserting key value') (heq : es = a ++ .inserted s key value :: b) :
    ∃ s'', .deleted s'' key ∈ b := by
  obtain ⟨x, y, hes, hy, hlive⟩ := h.search s' key value' hp
  -- the insert before came before the search, or after it
  rw [heq] at hes
  rcases List.append_eq_append_iff.mp hes with ⟨d, rfl, hd⟩ | ⟨d, rfl, hd⟩
  · rcases List.cons_eq_append_iff.mp hd with ⟨rfl, hy'⟩ | ⟨d', rfl, hb⟩
    · cases (List.cons.inj hy').1
    · by_contra hno
      refine hlive ⟨a, d', s, value, rfl, fun s'' hs'' => hno ⟨s'', ?_⟩⟩
      rw [hb]
      exact List.mem_append_left _ hs''
  · rcases List.cons_eq_append_iff.mp hd with ⟨rfl, hy'⟩ | ⟨d', rfl, rfl⟩
    · cases (List.cons.inj hy').1
    · refine hrace x (d' ++ .inserted s key value :: b) [] s' key value' ?_ hy d' b s value rfl
      rw [heq]
      simp

/-- **Main result.**  In a run over any sessions, keys and values, insert-if-absent is atomic if
and only if no `insert_kv` of the same key returns `true` between the search and the insert of
another, or the key is deleted again before that insert. -/
theorem atomic_iff {store : κ → Option ν} {es : List (Event σ κ ν)} {t : Sys σ κ ν}
    (h : Run machine (.start store) es t) : Atomic es ↔ NoRace es := by
  constructor
  · rintro ⟨honce, -⟩ a b c s key value rfl - b₁ b₂ s' value' rfl
    exact honce (a ++ .searched s key :: b₁) b₂ c s' s key value' value (by simp)
  · intro hrace
    have honce : NoRace es → ∀ a b c s s' key value value', es = a ++ .inserted s key value :: b ++
        .inserted s' key value' :: c → ∃ s'', .deleted s'' key ∈ b := by
      clear hrace
      induction h with
      | start =>
          intro _ a b c s s' key value value' heq
          simp at heq
      | next hrun hs ih =>
          obtain ⟨e, he, hspec⟩ := step_spec hs
          rw [he]
          intro hrace a b c s s' key value value' heq
          rcases snoc_eq heq with ⟨-, hes, rfl⟩ | ⟨c', rfl, hes⟩
          · exact (run_inv hrun).deleted hrace (hspec.pending s' key value' rfl) hes.symm
          · exact ih (noRace_of_append hrace) a b c' s s' key value value' hes
    refine ⟨honce hrace, fun a b c s s' key value value' heq => ?_⟩
    obtain ⟨s'', hs''⟩ := honce hrace a b c s s' key value value' heq
    exact ⟨_, hs'', s'', .inl rfl⟩

end Machine

/-- Two sessions insert a key in turn, with a deletion between them. -/
def turns : List (Action Bool ℕ ℕ) :=
  [.insertKvSearch true 5 1, .insertKvInsert true, .insertKvSearch false 5 2, .deleteKv false 5,
    .insertKvSearch false 5 2, .insertKvInsert false]

/-- Two sessions that take turns. -/
def turnEvents : List (Event Bool ℕ ℕ) :=
  [.searched true 5, .inserted true 5 1, .rejected false 5, .deleted false 5, .searched false 5,
    .inserted false 5 2]

theorem atomic_iff_turns : Atomic turnEvents ↔ NoRace turnEvents := by
  have hrun : Run machine (.start fun _ : ℕ => (none : Option ℕ)) turnEvents _ :=
    Run.exec turns .start rfl
  exact atomic_iff hrun

/-- Both sessions search before either inserts: both calls return `true`. -/
theorem not_always_atomic : ∃ (es : List (Event Bool ℕ ℕ)) (t : Sys Bool ℕ ℕ),
    Run machine (.start fun _ => none) es t ∧ ¬ Atomic es := by
  refine ⟨[.searched true 5, .searched false 5, .inserted true 5 1, .inserted false 5 2], _,
    Run.exec [.insertKvSearch true 5 1, .insertKvSearch false 5 2, .insertKvInsert true,
      .insertKvInsert false] .start rfl, fun h => ?_⟩
  obtain ⟨s, hs⟩ := h.once [.searched true 5, .searched false 5] [] [] true false 5 1 2 rfl
  cases hs

end VulcanDB.Storage
