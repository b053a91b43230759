import FacetFS.WebdavLockTable

/-! # A LOCK of an unmapped path, step by step

The request looks at its path, creates a placeholder, asks for the lock and, if that fails, removes
the path again. Between its steps other clients run whole LOCK and PUT requests. The removal does not
look at what it removes, so it is harmless only as long as nobody has used the placeholder. -/
namespace WebdavLocking

open ByteText WebdavIf FileTree WebdavHandler WebdavCopyMove WebdavMethods WebdavProtection
  WebdavLockTable EventSystem

section System

/-- Where the request stands. -/
inductive Phase where
  | stat
  | createEmpty
  | acquire (created : Bool)
  | discard (status : Option ℕ)
  | answered (status : Option ℕ)
  deriving DecidableEq

def Phase.placed : Phase → Bool
  | .acquire created => created
  | .discard _ => true
  | _ => false

def Phase.refused : Phase → Bool
  | .discard _ => true
  | _ => false

/-- `foreign` says that another client has stored contents since the placeholder was created. -/
structure World where
  st : State
  phase : Phase
  foreign : Bool

inductive Event where
  | step (env : Surroundings)
  | put (env : Surroundings) (req : MethodRequest) (segs : Path)
  | lock (env : Surroundings) (req : MethodRequest) (segs : Path)

instance (status : Option ℕ) : Decidable (Succeeded status) :=
  inferInstanceAs (Decidable (_ ∨ _))

variable (srv : Server) (req : MethodRequest) (segs : Path)

def start (st : State) : World := ⟨st, .stat, false⟩

/-- A PUT by another client that stored something at the path. -/
def Stores (st : State) (env : Surroundings) (req' : MethodRequest) (segs' : Path) : Prop :=
  segs' = segs ∧ (Succeeded (put srv env req' st segs').1 ∨
    (put srv env req' st segs').2.tree.node segs ≠ st.tree.node segs)

instance (st : State) (env : Surroundings) (req' : MethodRequest) (segs' : Path) :
    Decidable (Stores srv segs st env req' segs') :=
  inferInstanceAs (Decidable (_ ∧ (_ ∨ _)))

def afterStat : LockStart → Phase
  | .answered status => .answered status
  | .mapped => .acquire false
  | .unmapped => .createEmpty

def afterAcquire (created : Bool) : Except FsError LockDetails → Phase
  | .ok _ => .answered (some (if created then statusCreated else statusOK))
  | .error e => if created then .discard (writeError e) else .answered (writeError e)

def step (env : Surroundings) (w : World) : Option World :=
  match w.phase with
  | .stat =>
    let r := lockStat srv env req w.st segs
    some { w with st := r.2, phase := afterStat r.1 }
  | .createEmpty =>
    match WebdavMethods.createEmpty env w.st.tree segs with
    | (.error e, t) => some ⟨{ w.st with tree := t }, .answered (writeError e), w.foreign⟩
    | (.ok (), t) => some ⟨{ w.st with tree := t }, .acquire true, false⟩
  | .acquire created =>
    let r := acquire env req segs w.st.locks
    some { w with st := { w.st with locks := r.2 }, phase := afterAcquire created r.1 }
  | .discard status =>
    some { w with st := { w.st with tree := discardEmpty env w.st.tree segs },
                  phase := .answered status }
  | .answered _ => none

def next (w : World) : Event → Option World
  | .step env => step srv req segs env w
  | .put env req' segs' =>
    some { w with
      st := (put srv env req' w.st segs').2
      foreign := w.foreign || decide (Stores srv segs w.st env req' segs') }
  | .lock env req' segs' => some { w with st := (lock srv env req' w.st segs').2 }

def placeholder : Node Perm Text := .file 0o644 []

def LiveAt (now : ℕ) (locks : MemLS) : Prop :=
  ∃ held, locks.lookup (fsPath segs) = some held ∧ now < held.expires

/-- What was mapped before a step is still there as it was, or it was the request's own placeholder,
which nobody has stored anything in or has a live lock on. -/
def Spares (now : ℕ) (w w' : World) : Prop :=
  ∀ q n, w.st.tree.node q = some n → w'.st.tree.node q = some n ∨
    q = segs ∧ n = placeholder ∧ w.foreign = false ∧ ¬ LiveAt segs now w.st.locks

/-- Nobody else uses the placeholder: no lock is on the path when the request asks for its own, none
is granted after that, and no contents are stored. -/
def Undisturbed (w : World) : Event → Prop
  | .step env => w.phase = .acquire true → ¬ LiveAt segs env.later w.st.locks
  | .put env req' segs' => w.phase.placed = true → ¬ Stores srv segs w.st env req' segs'
  | .lock env req' segs' => w.phase.refused = true →
      (lock srv env req' w.st segs').2.locks.lookup (fsPath segs) = none

end System

section Composition

variable (srv : Server) (req : MethodRequest) (segs : Path)

theorem steps_lockNew (env : Surroundings) (st : State) :
    ∃ n foreign, run (next srv req segs) (start st) (List.replicate n (.step env)) =
      some ⟨(lockNew srv env req st segs).2, .answered (lockNew srv env req st segs).1,
        foreign⟩ := by
  unfold lockNew
  rcases hs : lockStat srv env req st segs with ⟨r, st₁⟩
  cases r with
  | answered status =>
    refine ⟨1, false, ?_⟩
    simp only [List.replicate, run, next, step, start, hs, afterStat]
    rfl
  | mapped =>
    refine ⟨2, false, ?_⟩
    simp only [List.replicate, run, next, step, start, hs, afterStat, Option.bind_some, lockMapped]
    rcases ha : acquire env req segs st₁.locks with ⟨a, locks⟩
    cases a with
    | error e => rfl
    | ok held => rfl
  | unmapped =>
    rcases hc : WebdavMethods.createEmpty env st₁.tree segs with ⟨c, t⟩
    cases c with
    | error e =>
      refine ⟨2, false, ?_⟩
      simp only [List.replicate, run, next, step, start, hs, afterStat, Option.bind_some, hc]
    | ok u =>
      rcases ha : acquire env req segs st₁.locks with ⟨a, locks⟩
      cases a with
      | error e =>
        refine ⟨4, false, ?_⟩
        simp only [List.replicate, run, next, step, start, hs, afterStat, Option.bind_some, hc, ha,
          afterAcquire, if_true, lockCreated]
      | ok held =>
        refine ⟨3, false, ?_⟩
        simp only [List.replicate, run, next, step, start, hs, afterStat, Option.bind_some, hc, ha,
          afterAcquire, if_true, lockCreated]

end Composition

variable {n : Node Perm Text}

section Steps

variable {srv : Server} {env : Surroundings} {req : MethodRequest} {segs : Path} {w w' : World}

theorem lockStat_tree (st : State) : (lockStat srv env req st segs).2.tree = st.tree := by
  unfold lockStat
  split
  · rfl
  · rfl
  · split
    · rfl
    · split <;> rfl

theorem create_mapped {t} (h : t.node segs ≠ none) : (create t segs n).2 = t := by
  unfold create
  split
  · split
    · rfl
    · rfl
  · rfl

theorem createEmpty_kept (env : Surroundings) (segs : Path) {t q} (hn : t.node q = some n) :
    (WebdavMethods.createEmpty env t segs).2.node q = some n := by
  by_cases hq : q = segs
  · subst hq
    have hc : (create t q (.file 0o644 [])).2 = t := create_mapped (by simp [hn])
    unfold WebdavMethods.createEmpty
    split
    · exact hn
    split
    · rename_i he
      rw [he] at hc
      rw [← hc] at hn
      exact hn
    rename_i he
    rw [he] at hc
    rw [← hc] at hn
    split
    · exact hn
    · exact hn
  · rw [createEmpty_other env segs t hq]
    exact hn

theorem createEmpty_ok {t t'} (h : WebdavMethods.createEmpty env t segs = (.ok (), t')) :
    t'.node segs = some placeholder := by
  unfold WebdavMethods.createEmpty at h
  split at h
  · cases h
  split at h
  · cases h
  rename_i t₁ he
  split at h
  · cases h
  · cases h
    exact (create_ok he).2

theorem discardEmpty_kept {t a d} (hf : t.node segs = some (.file a d)) {q} (hn : t.node q = some n)
    (hq : q ≠ segs) : (discardEmpty env t segs).node q = some n := by
  have hpre : ¬ segs <+: q := by
    rintro ⟨rel, rfl⟩
    have hrel : rel ≠ [] := by
      rintro rfl
      exact hq (List.append_nil segs)
    rw [t.node_append_of_file hf hrel] at hn
    cases hn
  exact (removeAll_other env.toEnv t hpre).trans hn

theorem put_shrinks (st : State) (segs' : Path) :
    Shrinks env.now st.locks (put srv env req st segs').2.locks := by
  unfold put
  split
  · exact .refl _ _
  split
  · exact .refl _ _
  rename_i fi hfi
  split
  · exact .refl _ _
  have hc := checkIf_shrinks srv.toHandler env.toEnv req.toRequest env.now segs'
    (destinationTag fi) (putLocks fi segs') st.locks
  split
  · rename_i hpass
    rw [hpass] at hc
    exact hc
  rename_i hpass
  rw [hpass] at hc
  split
  · exact hc
  split
  · exact hc
  split
  · exact hc
  · exact hc

theorem acquire_error {locks locks' e} (hl : ¬ LiveAt segs env.later locks)
    (h : acquire env req segs locks = (.error e, locks')) : locks'.lookup (fsPath segs) = none := by
  obtain ⟨held, hheld, ht, -⟩ | ⟨_, -, hfree, ⟨_, he⟩ | ⟨-, _, -, he⟩⟩ :=
    createLock_cases env.later (fsPath segs) (parseTimeout req.timeout) env.random locks
  · exact absurd ⟨held, hheld, ht⟩ hl
  · cases he.symm.trans h
    exact hfree
  · cases he.symm.trans h

theorem lock_keeps_mapped {st segs' q}
    (hn : st.tree.node q = some n) : (lock srv env req st segs').2.tree.node q = some n := by
  rcases lock_changes srv env req st segs' with he | ⟨-, hnone, ho⟩
  · rw [he]
    exact hn
  rw [ho q]
  · exact hn
  · rintro ⟨rel, rfl⟩
    rw [st.tree.node_append_of_none hnone] at hn
    cases hn

end Steps

section Runs

variable {srv : Server} {req : MethodRequest} {segs : Path} {w w' : World}

/-- The placeholder is as it was created, and after a refusal there is no lock on it. -/
structure Own (segs : Path) (w : World) : Prop where
  placed : w.phase.placed = true → w.st.tree.node segs = some placeholder ∧ w.foreign = false
  free : w.phase.refused = true → w.st.locks.lookup (fsPath segs) = none

theorem step_own {env} (h : Own segs w) (hu : Undisturbed srv segs w (.step env))
    (hn : step srv req segs env w = some w') : Own segs w' := by
  unfold step at hn
  split at hn
  · rename_i hphase
    cases hn
    cases lockStat srv env req w.st segs with
    | mk r st =>
      cases r with
      | answered status => exact ⟨nofun, nofun⟩
      | mapped => exact ⟨nofun, nofun⟩
      | unmapped => exact ⟨nofun, nofun⟩
  · split at hn
    · cases hn
      exact ⟨nofun, nofun⟩
    · rename_i hc
      cases hn
      exact ⟨fun _ => ⟨createEmpty_ok hc, rfl⟩, nofun⟩
  · rename_i created hphase
    cases hn
    cases created with
    | false =>
      cases (acquire env req segs w.st.locks).1 with
      | ok held => exact ⟨nofun, nofun⟩
      | error e => exact ⟨nofun, nofun⟩
    | true =>
      rcases ha : acquire env req segs w.st.locks with ⟨r, locks⟩
      cases r with
      | ok held => exact ⟨nofun, nofun⟩
      | error e =>
        have hplaced := h.placed (by rw [hphase]; rfl)
        exact ⟨fun _ => hplaced, fun _ => acquire_error (hu hphase) ha⟩
  · cases hn
    exact ⟨nofun, nofun⟩
  · cases hn

theorem next_own {e} (h : Own segs w) (hu : Undisturbed srv segs w e)
    (hn : next srv req segs w e = some w') : Own segs w' := by
  cases e with
  | step env => exact step_own h hu hn
  | put env req' segs' =>
    cases hn
    constructor
    · intro hp
      obtain ⟨hnode, hforeign⟩ := h.placed hp
      have hstores := hu hp
      refine ⟨?_, ?_⟩
      · by_cases hsegs : segs' = segs
        · by_contra hne
          apply hstores
          refine ⟨hsegs, .inr ?_⟩
          rw [hnode]
          exact hne
        · rcases put_changes srv env req' w.st segs' with he | ⟨-, ho⟩
          · change (put srv env req' w.st segs').2.tree.node segs = some placeholder
            rw [he]
            exact hnode
          · exact (ho segs (Ne.symm hsegs)).trans hnode
      · change (w.foreign || decide (Stores srv segs w.st env req' segs')) = false
        rw [hforeign, decide_eq_false hstores]
        rfl
    · intro hr
      exact (put_shrinks w.st segs').free (h.free hr)
  | lock env req' segs' =>
    cases hn
    constructor
    · intro hp
      obtain ⟨hnode, hforeign⟩ := h.placed hp
      exact ⟨lock_keeps_mapped hnode, hforeign⟩
    · intro hr
      exact hu hr

theorem step_spares {env} (now : ℕ) (h : Own segs w)
    (hn : step srv req segs env w = some w') : Spares segs now w w' := by
  intro q n hq
  unfold step at hn
  split at hn
  · cases hn
    left
    change (lockStat srv env req w.st segs).2.tree.node q = some n
    rw [lockStat_tree]
    exact hq
  · have hkept := createEmpty_kept env segs hq
    left
    split at hn
    · rename_i hc
      cases hn
      rw [hc] at hkept
      exact hkept
    rename_i hc
    cases hn
    rw [hc] at hkept
    exact hkept
  · cases hn
    exact .inl hq
  · rename_i status hphase
    cases hn
    obtain ⟨hnode, hforeign⟩ := h.placed (by rw [hphase]; rfl)
    have hfree := h.free (by rw [hphase]; rfl)
    by_cases hqs : q = segs
    · subst hqs
      refine .inr ⟨rfl, Option.some.inj (hq.symm.trans hnode), hforeign, ?_⟩
      rintro ⟨held, hl, -⟩
      rw [hfree] at hl
      cases hl
    · exact .inl (discardEmpty_kept hnode hq hqs)
  · cases hn

theorem start_own (st : State) : Own segs (start st) := by
  constructor
  · intro hp
    cases hp
  · intro hr
    cases hr

theorem run_own {st es} (hm : Meets (next srv req segs) (Undisturbed srv segs) (start st) es)
    (h : run (next srv req segs) (start st) es = some w) : Own segs w :=
  run_invariant_of_meets (fun _ _ _ hi hu hn => next_own hi hu hn) (start_own st) hm h

section Disturbance

variable (srv : Server) (req : MethodRequest) {segs : Path} {w : World}

/-- The calls go through, there is no randomness left and the clock stands. -/
def still (now : ℕ) : Surroundings :=
  { plainSurroundings with toEnv := { pathsOnly with now := now, later := now } }

def Used (segs : Path) (now : ℕ) (w : World) (n : Node Perm Text) : Prop :=
  n ≠ placeholder ∨ w.foreign = true ∨ LiveAt segs now w.st.locks

theorem discard_takes (hsegs : segs ≠ []) {now status} (hphase : w.phase = .discard status)
    (hn : w.st.tree.node segs = some n) (hused : Used segs now w n) :
    ∃ w', step srv req segs (still now) w = some w' ∧ w'.phase = .answered status ∧
      ¬ Spares segs now w w' := by
  refine ⟨{ w with
    st := { w.st with tree := discardEmpty (still now) w.st.tree segs }
    phase := .answered status }, ?_, rfl, ?_⟩
  · unfold step
    rw [hphase]
  intro hspares
  have hgone : (discardEmpty (still now) w.st.tree segs).node segs = none := by
    have hremove : removeAll (still now).toEnv w.st.tree segs =
        (.ok (), w.st.tree.removeAll segs hsegs) := by
      simp [removeAll, still, pathsOnly, hsegs]
    rw [discardEmpty, hremove]
    exact if_pos (List.prefix_refl segs)
  rcases hspares segs n hn with hkept | ⟨-, hpl, hforeign, hlive⟩
  · cases hgone.symm.trans hkept
  rcases hused with hne | hf | hl
  · exact hne hpl
  · rw [hforeign] at hf
    cases hf
  · exact hlive hl

theorem acquire_still (segs : Path) (now : ℕ) (locks : MemLS) : ∃ e locks',
    acquire (still now) req segs locks = (.error e, locks') ∧
      (LiveAt segs now locks → LiveAt segs now locks') := by
  obtain ⟨held, hheld, ht, he⟩ | ⟨locks', hs, -, ⟨e, he⟩ | ⟨hrandom, -⟩⟩ :=
    createLock_cases now (fsPath segs) (parseTimeout req.timeout) none locks
  · exact ⟨_, _, he, id⟩
  · refine ⟨e, locks', he, ?_⟩
    rintro ⟨held, hl, ht⟩
    exact ⟨held, hs.keeps hl ht, ht⟩
  · exact absurd rfl hrandom

theorem acquire_takes (hsegs : segs ≠ []) {now} (hphase : w.phase = .acquire true)
    (hn : w.st.tree.node segs = some n) (hused : Used segs now w n) :
    ∃ w₁ w₂ status, step srv req segs (still now) w = some w₁ ∧
      step srv req segs (still now) w₁ = some w₂ ∧ w₂.phase = .answered status ∧
      ¬ Spares segs now w₁ w₂ := by
  obtain ⟨e, locks, ha, hlive⟩ := acquire_still req segs now w.st.locks
  let w₁ : World := { w with st := { w.st with locks := locks }, phase := .discard (writeError e) }
  have hstep : step srv req segs (still now) w = some w₁ := by
    unfold step
    rw [hphase]
    simp only [ha, afterAcquire, if_true]
    rfl
  have hused₁ : Used segs now w₁ n := by
    rcases hused with hne | hf | hl
    · exact .inl hne
    · exact .inr (.inl hf)
    · exact .inr (.inr (hlive hl))
  obtain ⟨w₂, hstep₂, hanswered, hspares⟩ :=
    discard_takes srv req hsegs (w := w₁) rfl hn hused₁
  exact ⟨w₁, w₂, _, hstep, hstep₂, hanswered, hspares⟩

end Disturbance

end Runs

/-- As long as nobody else uses its placeholder, every step of a LOCK spares what was there. As soon
as somebody does, an error answer can take away what others stored or have locked. -/
theorem lock_spares_iff_undisturbed (srv : Server) (req : MethodRequest) (segs : Path) :
    (∀ st es w, Meets (next srv req segs) (Undisturbed srv segs) (start st) es →
      run (next srv req segs) (start st) es = some w →
      ∀ env now w', step srv req segs env w = some w' → Spares segs now w w') ∧
    ∀ w now n, segs ≠ [] → w.st.tree.node segs = some n → Used segs now w n →
      (w.phase = .acquire true → ∃ w₁ w₂ status, step srv req segs (still now) w = some w₁ ∧
        step srv req segs (still now) w₁ = some w₂ ∧ w₂.phase = .answered status ∧
        ¬ Spares segs now w₁ w₂) ∧
      ∀ status, w.phase = .discard status → ∃ w', step srv req segs (still now) w = some w' ∧
        w'.phase = .answered status ∧ ¬ Spares segs now w w' := by
  constructor
  · intro st es w hm h env now w' hn
    exact step_spares now (run_own hm h) hn
  intro w now n hsegs hn hused
  constructor
  · intro hphase
    exact acquire_takes srv req hsegs hphase hn hused
  · intro status hphase
    exact discard_takes srv req hsegs hphase hn hused

/-- Surroundings in which every LOCK body asks for an exclusive write lock. -/
def granting : Surroundings :=
  ⟨pathsOnly, fun _ => some ⟨true, true⟩, fun _ => none, some (List.replicate 16 0)⟩

def token : Text := newLockToken (List.replicate 16 0)

def requestWith (body ifHeader : Text) : MethodRequest :=
  ⟨⟨⟨[], false, [], [], [], []⟩, [], ifHeader, [], [], []⟩, 0, body, none, [], [], [], []⟩

/-- The path `/a` is looked at and the placeholder created; another client locks it and stores two
bytes in it; then the lock is refused. -/
def overtaken : List Event :=
  [.step granting, .step granting, .lock granting (requestWith [120] []) [[97]],
    .put granting (requestWith [104, 105] (text ['(', '<'] ++ token ++ text ['>', ')'])) [[97]],
    .step granting]

def begun : World := start ⟨Tree.empty 0o755, ∅⟩

/-- The refused LOCK removes a file that another client filled and holds the lock of. -/
theorem refused_lock_removes_locked_file :
    ∃ w w', run (next plainServer (requestWith [120] []) [[97]]) begun overtaken = some w ∧
      step plainServer (requestWith [120] []) [[97]] granting w = some w' ∧
      w'.phase = .answered (some statusLocked) ∧
      w.st.tree.node [[97]] = some (.file 0o644 [104, 105]) ∧ LiveAt [[97]] 0 w.st.locks ∧
      w'.st.tree.node [[97]] = none ∧ LiveAt [[97]] 0 w'.st.locks := by
  have hbefore : ∀ w ∈ run (next plainServer (requestWith [120] []) [[97]]) begun overtaken,
      w.phase = .discard (some statusLocked) ∧
      w.st.tree.node [[97]] = some (.file 0o644 [104, 105]) ∧
      w.st.locks.lookup [47, 97] = some ⟨token, 300000000000⟩ ∧
      (discardEmpty granting w.st.tree [[97]]).node [[97]] = none := by
    decide +kernel
  have hsome : (run (next plainServer (requestWith [120] []) [[97]]) begun overtaken).isSome =
      true := by
    decide +kernel
  obtain ⟨w, hw⟩ := Option.isSome_iff_exists.1 hsome
  obtain ⟨hphase, hnode, hlock, hgone⟩ := hbefore w hw
  have hlive : LiveAt [[97]] 0 w.st.locks := ⟨_, hlock, by decide⟩
  refine ⟨w, { w with
    st := { w.st with tree := discardEmpty granting w.st.tree [[97]] }
    phase := .answered (some statusLocked) }, hw, ?_, rfl, hnode, hlive, hgone, hlive⟩
  unfold step
  rw [hphase]

end WebdavLocking
