import FacetFS.SmbAuthority
import FacetFS.SmbFrame
import FacetFS.SmbDisk

/-! # The gate of an SMB connection

Whatever a frame does to the file system, the trees, the handles, the byte locks and the directory
snapshots happens on behalf of one of its messages. That message names a session of its connection
which answered its own challenge, and it passed the signature checks of that session. -/
namespace SmbGate

open SmbState SmbPath SmbWire SmbResponse SmbServer SmbFrame SmbHandlers SmbAuthority SmbDisk
  EffectTriple EventSystem

variable {φ : Type} {srv : Server φ} {c : ConnRef} {m : Message} {w w' : World φ}

section Messages

/-- What lets a message touch anything. -/
structure Authorized (srv : Server φ) (c : ConnRef) (w : World φ) (m : Message) (s : SessionRef) :
    Prop where
  named : session w.tables m.hdr.sessionID c = some s
  authenticated : (w.tables.session s).authenticated = true
  issued : Issued w.log (w.tables.session s)
  proven : Proven srv w.log s (w.tables.session s)
  verified : signed m = true →
    verifyMessage srv.lib (w.tables.session s).signingKey (w.conn c).signAlg m.raw = true
  required : (w.tables.session s).sign = true → signed m = true

theorem Authorized.intro {s} (hg : Gated srv w.log none w.tables)
    (ha : Authenticated w c m s) (hf : ¬ SignatureFails srv.lib w c m)
    (hm : ¬ SignatureMissing w c m) : Authorized srv c w m s := by
  obtain ⟨hs, hauth⟩ := ha
  have hnamed : w.tables.session s ∈ SmbFrame.named w c m := by
    rw [SmbFrame.named, hs]
    rfl
  obtain ⟨hi, hp⟩ := hg.proven s hauth
  refine ⟨hs, hauth, hi, hp, fun hsig => ?_, fun hreq => ?_⟩
  · by_contra hv
    exact hf ⟨_, hnamed, hauth, hsig, by simpa using hv⟩
  · by_contra hsig
    exact hm ⟨_, hnamed, hauth, hreq, by simpa using hsig⟩

/-- What the command of a message leaves. -/
structure Performed (srv : Server φ) (c : ConnRef) (m : Message) (w : World φ) (reply : Reply)
    (w' : World φ) : Prop where
  gated : Gated srv w'.log none w'.tables
  touched : Untouched w w' ∨ ∃ s, Authenticated w c m s
  closes : ∀ s, reply.closeSession = some s → ∃ s', Authenticated w c m s'

theorem perform_performed (env : Env) (hg : Gated srv w.log none w.tables) :
    Performed srv c m w (perform srv c env m w).1 (perform srv c env m w).2 := by
  let d : Dispatched := ⟨c, m, env, session w.tables m.hdr.sessionID c⟩
  let logged : World φ := { w with log := d :: w.log }
  have hlogged : Gated srv logged.log none logged.tables := hg.log_cons d
  have h := concludes_dispatch (c := c) (m := m) hlogged env (List.mem_cons_self ..)
    logged (Start.refl logged)
  have huntouched : ∀ {v}, Untouched logged v → Untouched w v := fun h =>
    ⟨h.fs, h.calls, h.trees, h.handles, h.snapshots, h.handle, h.opens, h.locks⟩
  cases hr : dispatch srv c env m logged with
  | ok reply v =>
    have hp : perform srv c env m w = (reply, v) := by
      rw [perform, hr]
    rw [hr] at h
    obtain ⟨⟨hrun, ht⟩, hclose⟩ := h
    rw [hp]
    refine ⟨?_, ht.imp huntouched id, hclose⟩
    rw [hrun.1]
    exact hrun.2
  | error e v =>
    have hp : perform srv c env m w = (failure e, v) := by
      rw [perform, hr]
    rw [hr] at h
    obtain ⟨hrun, ht⟩ := h
    rw [hp]
    refine ⟨?_, ht.imp huntouched id, fun s h => by cases h⟩
    rw [hrun.1]
    exact hrun.2

end Messages

section Steps

/-- The worlds of the steps follow each other, and between them nothing is touched. -/
def Linked : World φ → List (Step φ) → World φ → Prop
  | u, [], v => Untouched u v
  | u, t :: ts, v => Untouched u t.before ∧ Linked t.after ts v

theorem Linked.append {ts ts' : List (Step φ)} {u v z : World φ} (h : Linked u ts v)
    (h' : Linked v ts' z) : Linked u (ts ++ ts') z := by
  induction ts generalizing u with
  | nil =>
    cases ts' with
    | nil => exact h.trans h'
    | cons t ts' => exact ⟨Untouched.trans h h'.1, h'.2⟩
  | cons t ts ih => exact ⟨h.1, ih h.2⟩

theorem Linked.untouched {ts : List (Step φ)} {u v z : World φ} (h : Linked u ts v)
    (h' : Untouched v z) : Linked u ts z := by
  rw [← List.append_nil ts]
  exact h.append h'

/-- A step that touched something is on behalf of a message that may. -/
def Allowed (srv : Server φ) (c : ConnRef) (t : Step φ) : Prop :=
  Untouched t.before t.after ∨ ∃ s, Authorized srv c t.seen t.msg s

def Poisons (srv : Server φ) (c : ConnRef) (a b : Step φ) : Prop :=
  SignatureFails srv.lib a.seen c a.msg → b.dispatched = false ∧ b.after = b.before

/-- What holds between two messages of a frame that started in `w₀`. -/
structure Safe (srv : Server φ) (c : ConnRef) (w₀ : World φ) (wk : Walk φ) (w : World φ) :
    Prop where
  gated : Gated srv w.log none w.tables
  linked : Linked w₀ wk.steps w
  steps : ∀ t ∈ wk.steps, Allowed srv c t
  cleanup : ∀ e ∈ wk.cleanup, ∃ s, Authorized srv c e.2.1 e.1 s
  poison : wk.steps.Pairwise (Poisons srv c)
  caught : ∀ t ∈ wk.steps, SignatureFails srv.lib t.seen c t.msg → wk.sigFailed = true

variable {w₀ : World φ} {wk wk' : Walk φ}

theorem Safe.quiet (h : Safe srv c w₀ wk w) (hs : wk'.steps = wk.steps)
    (hc : wk'.cleanup = wk.cleanup) (hf : wk'.sigFailed = wk.sigFailed) (hw : Start w w') :
    Safe srv c w₀ wk' w' := by
  refine ⟨?_, ?_, ?_, ?_, ?_, ?_⟩
  · rw [hw.log, hw.tables]
    exact h.gated
  · rw [hs]
    exact h.linked.untouched hw.untouched
  · rw [hs]
    exact h.steps
  · rw [hc]
    exact h.cleanup
  · rw [hs]
    exact h.poison
  · rw [hs, hf]
    exact h.caught

/-- The walk after the ruling on a message, and what the message touched. -/
structure Ruled (srv : Server φ) (c : ConnRef) (m : Message) (wk : Walk φ) (w : World φ)
    (reply : Reply) (wk' : Walk φ) (w' : World φ) : Prop where
  gated : Gated srv w'.log none w'.tables
  touched : Untouched w w' ∨ ∃ s, Authorized srv c w m s
  closes : ∀ s, reply.closeSession = some s → ∃ s', Authorized srv c w m s'
  steps : wk'.steps = wk.steps
  cleanup : wk'.cleanup = wk.cleanup
  sticky : wk.sigFailed = true → wk'.sigFailed = true
  poisoned : wk.sigFailed = true → (ruling srv.lib w c wk m).dispatches = false ∧ w' = w
  caught : SignatureFails srv.lib w c m → wk'.sigFailed = true

theorem rule_ruled (env : Env) (wk : Walk φ) (hg : Gated srv w.log none w.tables) :
    Ruled srv c m wk w (rule srv c env m wk w).1 (rule srv c env m wk w).2.1
      (rule srv c env m wk w).2.2 := by
  have hidle : ∀ status, ∀ s, (failure status).closeSession = some s →
      ∃ s', Authorized srv c w m s' := fun status s hs => absurd hs nofun
  by_cases hp : wk.sigFailed = true
  · have hr : ruling srv.lib w c wk m = .poisoned := by
      rw [ruling, if_pos hp]
    rw [rule, hr]
    exact ⟨hg, .inl (.refl w), hidle _, rfl, rfl, fun h => h, fun _ => ⟨by rw [hr]; rfl, rfl⟩,
      fun _ => hp⟩
  by_cases hf : SignatureFails srv.lib w c m
  · have hr : ruling srv.lib w c wk m = .badSignature := by
      rw [ruling, if_neg hp, if_pos hf]
    rw [rule, hr]
    exact ⟨hg, .inl (.refl w), hidle _, rfl, rfl, fun h => absurd h hp,
      fun h => absurd h hp, fun _ => rfl⟩
  by_cases hm : SignatureMissing w c m
  · have hr : ruling srv.lib w c wk m = .unsigned := by
      rw [ruling, if_neg hp, if_neg hf, if_pos hm]
    rw [rule, hr]
    exact ⟨hg, .inl (.refl w), hidle _, rfl, rfl, fun h => absurd h hp,
      fun h => absurd h hp, fun h => absurd h hf⟩
  cases hrel : wk.relatedFailed with
  | some status =>
    have hr : ruling srv.lib w c wk m = .inherited status := by
      rw [ruling, if_neg hp, if_neg hf, if_neg hm, hrel]
    rw [rule, hr]
    exact ⟨hg, .inl (.refl w), hidle _, rfl, rfl, fun h => absurd h hp,
      fun h => absurd h hp, fun h => absurd h hf⟩
  | none =>
    have hr : ruling srv.lib w c wk m = .dispatch := by
      rw [ruling, if_neg hp, if_neg hf, if_neg hm, hrel]
    have hperf := perform_performed (c := c) (m := m) env hg
    have hauth : ∀ s, Authenticated w c m s → Authorized srv c w m s :=
      fun s ha => Authorized.intro hg ha hf hm
    rw [rule, hr]
    refine ⟨hperf.gated, hperf.touched.imp id fun ⟨s, ha⟩ => ⟨s, hauth s ha⟩, fun s hs => ?_, ?_,
      ?_, fun h => absurd h hp,
      fun h => absurd h hp, fun h => absurd h hf⟩
    · obtain ⟨s', ha⟩ := hperf.closes s hs
      exact ⟨s', hauth s' ha⟩
    · simp only
      split <;> rfl
    · simp only
      split <;> rfl

theorem conclude_start (wk : Walk φ) (reply : Reply) (seen : World φ) :
    Start w (conclude c m reply seen wk w).2 := by
  simp only [conclude]
  split <;> exact ⟨rfl, rfl, rfl, rfl⟩

theorem conclude_walk (wk : Walk φ) (reply : Reply) (seen : World φ) :
    (conclude c m reply seen wk w).1.steps = wk.steps ∧
    (conclude c m reply seen wk w).1.sigFailed = wk.sigFailed ∧
    (conclude c m reply seen wk w).1.cleanup =
      wk.cleanup ++ (reply.closeSession.map fun s => (m, seen, s)).toList := by
  simp only [conclude]
  split <;> exact ⟨rfl, rfl, rfl⟩

theorem handleMessage_safe (env : Env) (m : Message) (h : Safe srv c w₀ wk w) :
    Safe srv c w₀ (handleMessage srv c env m wk w).1 (handleMessage srv c env m wk w).2 := by
  have hr := rule_ruled (c := c) (m := m) env wk h.gated
  rw [handleMessage]
  generalize rule srv c env m wk w = r at hr
  obtain ⟨reply, wk', w'⟩ := r
  simp only at hr ⊢
  have hstart := conclude_start (c := c) (m := m) (w := w') { wk' with
    steps := wk'.steps ++ [⟨m, (ruling srv.lib w c wk m).dispatches, w, w, w'⟩] } reply w
  obtain ⟨hsteps, hfailed, hclean⟩ := conclude_walk (c := c) (m := m) (w := w') { wk' with
    steps := wk'.steps ++ [⟨m, (ruling srv.lib w c wk m).dispatches, w, w, w'⟩] } reply w
  generalize conclude c m reply w _ w' = r at hstart hsteps hfailed hclean
  refine ⟨?_, ?_, ?_, ?_, ?_, ?_⟩
  · rw [hstart.log, hstart.tables]
    exact hr.gated
  · rw [hsteps, hr.steps]
    exact h.linked.append ⟨.refl w, hstart.untouched⟩
  · rw [hsteps, hr.steps]
    intro t ht
    rcases List.mem_append.1 ht with ht | ht
    · exact h.steps t ht
    · rw [List.mem_singleton.1 ht]
      exact hr.touched
  · rw [hclean, hr.cleanup]
    intro e he
    rcases List.mem_append.1 he with he | he
    · exact h.cleanup e he
    · obtain ⟨s, hs, rfl⟩ := Option.map_eq_some_iff.1 (Option.mem_toList.1 he)
      exact hr.closes s hs
  · rw [hsteps, hr.steps, List.pairwise_append]
    refine ⟨h.poison, List.pairwise_singleton _ _, fun a ha b hb hfa => ?_⟩
    rw [List.mem_singleton.1 hb]
    exact hr.poisoned (h.caught a ha hfa)
  rw [hsteps, hfailed, hr.steps]
  intro t ht hft
  rcases List.mem_append.1 ht with ht | ht
  · exact hr.sticky (h.caught t ht hft)
  · rw [List.mem_singleton.1 ht] at hft
    exact hr.caught hft

end Steps

section Frames

variable {w₀ : World φ} {wk : Walk φ}

theorem advance_untouched (m : Message) (wire : Bytes) (hg : Gated srv w.log none w.tables) :
    (advance srv c w m wire).log = w.log ∧ Untouched w (advance srv c w m wire) ∧
      Gated srv w.log none (advance srv c w m wire).tables := by
  unfold advance
  split
  · split
    · exact ⟨rfl, ⟨rfl, rfl, fun _ => rfl, fun _ => rfl, fun _ => rfl, rfl, rfl, rfl⟩, hg⟩
    · exact ⟨rfl, .refl w, hg⟩
  split
  · split
    · exact ⟨rfl, .refl w, hg⟩
    · rename_i s _
      refine ⟨rfl, setSession_untouched rfl rfl rfl, hg.calm ?_⟩
      exact calm_setSession _ s _ ⟨rfl, rfl, rfl, rfl⟩ (fun _ hb => ⟨hb.1, hb.2, hb.3⟩)
        fun _ _ hl => hl
  · exact ⟨rfl, .refl w, hg⟩

theorem advanceAll_untouched (reply : Bytes) (as : List Answered)
    (hg : Gated srv w.log none w.tables) :
    (advanceAll srv c reply as w).log = w.log ∧ Untouched w (advanceAll srv c reply as w) ∧
      Gated srv w.log none (advanceAll srv c reply as w).tables := by
  induction as generalizing w with
  | nil => exact ⟨rfl, .refl w, hg⟩
  | cons a as ih =>
    obtain ⟨hlog, hu, hg'⟩ := advance_untouched (c := c) a.msg
      ((reply.take (answerEnd reply as)).drop a.start) hg
    rw [← hlog] at hg'
    obtain ⟨hlog', hu', hg''⟩ := ih hg'
    rw [hlog] at hlog' hg''
    exact ⟨hlog', hu.trans hu', hg''⟩

theorem cleanUp_allowed (cleanup : List (Message × World φ × SessionRef))
    (hc : ∀ e ∈ cleanup, ∃ s, Authorized srv c e.2.1 e.1 s) (hg : Gated srv w.log none w.tables) :
    Gated srv (cleanUp srv cleanup w).1.log none (cleanUp srv cleanup w).1.tables ∧
      Linked w (cleanUp srv cleanup w).2 (cleanUp srv cleanup w).1 ∧
      ∀ t ∈ (cleanUp srv cleanup w).2, Allowed srv c t := by
  induction cleanup generalizing w with
  | nil => exact ⟨hg, .refl w, nofun⟩
  | cons e rest ih =>
    obtain ⟨m, seen, s⟩ := e
    obtain ⟨hlog, hg'⟩ := (running_closeSession srv w.log s).finalState ⟨rfl, hg⟩
    rw [← hlog] at hg'
    obtain ⟨hgr, hlink, hsteps⟩ := ih (fun e he => hc e (List.mem_cons_of_mem _ he)) hg'
    refine ⟨hgr, ⟨.refl w, hlink⟩, fun t ht => ?_⟩
    rcases List.mem_cons.1 ht with rfl | ht
    · exact .inr (hc _ (List.mem_cons_self ..))
    · exact hsteps t ht

/-- What a frame that started in `w₀` did. -/
structure Guarded (srv : Server φ) (c : ConnRef) (w₀ : World φ) (out : Outcome φ) : Prop where
  gated : Gated srv out.world.log none out.world.tables
  linked : Linked w₀ (out.steps ++ out.closings) out.world
  allowed : ∀ t ∈ out.steps ++ out.closings, Allowed srv c t
  poison : out.steps.Pairwise (Poisons srv c)

theorem Safe.guarded (h : Safe srv c w₀ wk w) (reply : Option Bytes) (answered closeAfter : Bool) :
    Guarded srv c w₀ ⟨reply, answered, closeAfter, w, wk.steps, []⟩ := by
  refine ⟨h.gated, ?_, ?_, h.poison⟩
  · rw [List.append_nil]
    exact h.linked
  · rw [List.append_nil]
    exact h.steps

theorem finish_guarded (h : Safe srv c w₀ wk w) : Guarded srv c w₀ (finish srv c wk w) := by
  unfold finish
  split
  · exact h.guarded _ _ _
  split
  · exact h.guarded _ _ _
  rename_i reply _
  obtain ⟨hlog, hu, hg⟩ := advanceAll_untouched (c := c) reply wk.answers h.gated
  rw [← hlog] at hg
  obtain ⟨hgr, hlink, hsteps⟩ := cleanUp_allowed wk.cleanup h.cleanup hg
  refine ⟨hgr, (h.linked.untouched hu).append hlink, fun t ht => ?_, h.poison⟩
  exact (List.mem_append.1 ht).elim (h.steps t) (hsteps t)

theorem walk_guarded (envs : ℕ → Env) (frame : Bytes) (fuel count : ℕ)
    (h : Safe srv c w₀ wk w) : Guarded srv c w₀ (walk srv c envs frame fuel count wk w) := by
  induction fuel generalizing count wk w with
  | zero => exact h.guarded _ _ _
  | succ fuel ih =>
    rw [walk]
    split
    · exact h.guarded _ _ _
    rename_i m _
    have hstart : Start w (SmbFrame.admitMessage w c m).2 := ⟨rfl, rfl, rfl, rfl⟩
    split
    · rename_i v hv
      rw [hv] at hstart
      exact (h.quiet rfl rfl rfl hstart).guarded _ _ _
    rename_i v hv
    rw [hv] at hstart
    split
    · exact (h.quiet rfl rfl rfl hstart).guarded _ _ _
    have hgroup : Safe srv c w₀ (regroup wk m) v := by
      unfold regroup
      split
      · exact h.quiet rfl rfl rfl hstart
      · exact h.quiet rfl rfl rfl hstart
    have hnext := handleMessage_safe (envs count) (inherit wk m) hgroup
    simp only
    split
    · exact finish_guarded hnext
    · exact ih _ (hnext.quiet rfl rfl rfl (.refl _))

theorem handleFrame_guarded (envs : ℕ → Env) (frame : Bytes) (hg : Gated srv w.log none w.tables) :
    Guarded srv c w (handleFrame srv c envs frame w) :=
  walk_guarded envs frame _ 0 ⟨hg, .refl w, nofun, nofun, .nil, nofun⟩

end Frames

section Runs

theorem next_gated {e} (hg : Gated srv w.log none w.tables)
    (h : next srv w e = some w') : Gated srv w'.log none w'.tables := by
  cases e with
  | connect =>
    cases h
    exact hg
  | frame c envs bytes =>
    rw [next] at h
    split at h
    · cases h
      unfold receive
      split
      · exact hg
      · exact (handleFrame_guarded (c := c) envs bytes hg).gated
    · cases h
  | disconnect c =>
    cases h
    obtain ⟨hlog, hg'⟩ := (Keeps.forM (sessionsOf w.tables c) fun s =>
      running_closeSession srv w.log s).finalState ⟨rfl, hg⟩
    change Gated srv (finalState ((sessionsOf w.tables c).forM (closeSession srv) w)).log _ _
    rw [hlog]
    exact hg'

theorem run_gated {fs es} (h : run (next srv) (newWorld fs) es = some w) :
    Gated srv w.log none w.tables :=
  run_invariant (I := fun w => Gated srv w.log none w.tables) (fun _ _ _ hg hn => next_gated hg hn)
    (gated_new srv []) h

/-- On every history, a frame touches only what its messages may, and a bad signature ends the
dispatching of the frame. -/
theorem frame_gate (fs : φ) (es : List Event) (h : run (next srv) (newWorld fs) es = some w)
    (c : ConnRef) (envs : ℕ → Env) (frame : Bytes) :
    Linked w ((handleFrame srv c envs frame w).steps ++ (handleFrame srv c envs frame w).closings)
      (handleFrame srv c envs frame w).world ∧
    (∀ t ∈ (handleFrame srv c envs frame w).steps ++ (handleFrame srv c envs frame w).closings,
      ¬ Untouched t.before t.after → ∃ s, Authorized srv c t.seen t.msg s) ∧
    (handleFrame srv c envs frame w).steps.Pairwise fun a b =>
      SignatureFails srv.lib a.seen c a.msg → b.dispatched = false ∧ b.after = b.before := by
  have hframe := handleFrame_guarded (c := c) envs frame (run_gated h)
  refine ⟨hframe.linked, fun t ht htouched => ?_, hframe.poison⟩
  exact (hframe.allowed t ht).resolve_left htouched

/-- On every history, a session that is not authenticated owns nothing, and the client of one that
is has answered the challenge it was given. -/
theorem sessions_authentic (fs : φ) (es : List Event)
    (h : run (next srv) (newWorld fs) es = some w) (s : SessionRef) :
    let r := w.tables.session s
    (r.authenticated = false → Bare r) ∧
      (r.authenticated = true → Issued w.log r ∧ Proven srv w.log s r) ∧
      ∀ id k, r.handles.lookup id = some k → (w.tables.handle k).session = s := by
  have hg := run_gated h
  exact ⟨hg.bare s, hg.proven s, fun id k hk => (hg.owner s id k hk).2⟩

def logOn : List Event :=
  [.connect, .frame 0 (fun _ => logOnEnv) (wire SmbCreditRun.cmdNegotiate 0 0 negotiateBody),
    .frame 0 (fun _ => logOnEnv) (wire cmdSessionSetup 1 0 (setupBody firstToken)),
    .frame 0 (fun _ => logOnEnv) (wire cmdSessionSetup 2 7 (setupBody (answerToken ['u'])))]

theorem sessions_authentic_logOn : ∃ w, run (next server) (newWorld Disk.empty) logOn = some w ∧
    Proven server w.log 0 (w.tables.session 0) :=
  exists_run (P := fun w => (w.tables.session 0).authenticated = true) (by decide +kernel)
    fun w hw h => ((sessions_authentic Disk.empty logOn hw 0).2.1 h).2

def connectShare : Bytes :=
  wire cmdTreeConnect 3 7
    (treeConnectBody ([backslash, backslash, 'h', backslash] ++ server.share))

theorem frame_gate_treeConnect : ∃ w, run (next server) (newWorld Disk.empty) logOn = some w ∧
      ∃ t ∈ (handleFrame server 0 (fun _ => logOnEnv) connectShare w).steps,
        ¬ Untouched t.before t.after ∧ ∃ s, Authorized server 0 t.seen t.msg s := by
  have hsome : (run (next server) (newWorld Disk.empty) logOn).isSome = true := by
    decide +kernel
  have hany : ∀ w ∈ run (next server) (newWorld Disk.empty) logOn,
      (handleFrame server 0 (fun _ => logOnEnv) connectShare w).steps.any (fun t =>
        (t.after.tables.session 0).trees ≠ (t.before.tables.session 0).trees) = true := by
    decide +kernel
  obtain ⟨w, hw⟩ := Option.isSome_iff_exists.1 hsome
  obtain ⟨t, ht, hne⟩ := List.any_eq_true.1 (hany w hw)
  have htouched : ¬ Untouched t.before t.after := fun hu => of_decide_eq_true hne (hu.trees 0)
  refine ⟨w, hw, t, ht, htouched, ?_⟩
  exact (frame_gate Disk.empty logOn hw 0 _ connectShare).2.1 t (List.mem_append_left _ ht) htouched

end Runs

end SmbGate
