import FacetFS.NfsDelegations
import FacetFS.NfsWorld

/-! # Share conflicts that appear during an OPEN

OPEN looks for share conflicts before its FileSystem calls and again after them, and the mutex of
the store is free in between. Here each critical section and each FileSystem call is a step of its
own, for any number of OPENs at the same time. What an OPEN has done to its target is recorded
beside it. -/
namespace NfsShareRace

open EventSystem NfsSeqid GroupIndex NfsStore NfsOps NfsDisk NfsWorld NfsStoreChange
open NfsExclusion (Request step)
open NfsDelegations (Weakens weakens_of_moves)
open NfsInterleaving (requestOwner openInstall_indexed openInstall_cases openRefused)
open NfsOutcomes (ownerIn_renews)
open Function (update update_of_ne update_self)

/-- An OPEN; setting attributes does not fail with a share conflict. -/
structure Call where
  call : OpenCall
  apply : call.apply ≠ nfs4ErrShareDenied

def view (d : Disk) (p : Path) : Option (ℕ × List UInt8) :=
  (d.fileAt p).map fun x => (x, d.data x)

/-- What OPEN learns from looking up its target. -/
structure Stat where
  env : OpenEnv
  mode : OpenMode
  existed : Bool

/-- The step that an OPEN made last. -/
inductive Phase where
  | looked
  | admitted
  | statted (t : Stat)
  | checked (plan : OpenPlan) (t : Stat)
  | recalled (plan : OpenPlan) (t : Stat)
  | opened (plan : OpenPlan) (t : Stat) (f : Option OpenFile)
  | unapplied (plan : OpenPlan) (t : Stat)
  | applied (plan : OpenPlan) (t : Stat) (f : Option OpenFile)
  | answered (status : NfsStat)

/-- An OPEN under way: whether its calls changed its target, and whether another OPEN was
installed since its first section. -/
structure Job where
  owner : OwnerRef
  fh : Option Path
  c : Call
  phase : Phase
  changed : Bool
  raced : Bool

structure State where
  world : World
  mutex : OwnerRef → Bool
  jobs : ℕ → Option Job

inductive Event where
  | tick (d : ℕ)
  | request (r : Request)
  | begin (slot : ℕ) (fh : Option Path) (c : Call)
  | resume (slot : ℕ)

/-- The status of an OPEN whose sequence id is not the next one. -/
def repeated (o : OwnerSeq) (seqid : UInt32) : NfsStat :=
  match o.lastReply with
  | none => nfs4ErrBadSeqID
  | some reply =>
    if seqid ≠ o.seqid ∨ o.lastOp ≠ opOpen then nfs4ErrBadSeqID else XdrCodec.headUint32 reply

def conflict (s : State) (plan : OpenPlan) : Bool :=
  s.world.store.toTables.shareConflict plan.target plan.owner plan.access plan.deny

namespace State

variable (s : State) (slot : ℕ) (job : Job)

def advance (job : Job) (w : World) : State :=
  { s with world := w, jobs := update s.jobs slot (some job) }

/-- The end of an OPEN: its owner's sequence is settled and the mutex is freed. -/
def finish (r : BodyResult) (w : World) : State where
  world := w.setStore (w.store.setOwner job.owner
    { w.store.owner job.owner with seq := settle (w.store.owner job.owner).seq opOpen r })
  mutex := update s.mutex job.owner false
  jobs := update s.jobs slot (some { job with phase := .answered r.status })

def acquire : Option State :=
  let o := s.world.store.owner job.owner
  if s.mutex job.owner then none
  else
    match accept o.seq job.c.call.args.seqid with
    | none => some (s.advance slot
        { job with phase := .answered (repeated o.seq job.c.call.args.seqid) } s.world)
    | some q => some { s.advance slot { job with phase := .admitted }
        (s.world.setStore (s.world.store.setOwner job.owner { o with seq := q })) with
          mutex := update s.mutex job.owner true }

def lookUp : State :=
  let c := job.c.call
  s.advance slot
    { job with phase := .statted ⟨s.world.openEnv job.fh c, s.world.openMode job.fh c,
        (s.world.disk.lstat (openPath job.fh c.args)).isSome⟩ } (s.world.consult job.fh c)

def check (t : Stat) : State :=
  match openTarget job.fh job.c.call.args t.env with
  | .error e => s.finish slot job (BodyResult.fail e) s.world
  | .ok target =>
    match openCheck s.world.store.toTables job.owner target job.c.call.args with
    | .error e => s.finish slot job (BodyResult.fail e) s.world
    | .ok plan => s.advance slot { job with phase := .checked plan t, raced := false } s.world

def recallDelegations (plan : OpenPlan) (t : Stat) : State :=
  let r := openRecall s.world.store s.world.clock plan job.c.call.args
  if r.1 ≠ nfs4OK then s.finish slot job (BodyResult.fail r.1) (s.world.setStore r.2)
  else s.advance slot { job with phase := .recalled plan t } (s.world.setStore r.2)

def called (job : Job) (phase : Phase) (p : Path) (d : Disk) : Job :=
  { job with phase := phase, changed := job.changed || view s.world.disk p != view d p }

def openFile (plan : OpenPlan) (t : Stat) : State :=
  if plan.needOpen then
    match openNow s.world.disk plan.target t.mode job.c.call.fault with
    | .error e => s.finish slot job (BodyResult.fail e) s.world
    | .ok d => s.advance slot
        (s.called job (.opened plan t (some ⟨s.world.disk.files, plan.flag⟩)) plan.target d)
        (s.world.setDisk d)
  else s.advance slot { job with phase := .opened plan t none } s.world

def applySetAttrs (plan : OpenPlan) (t : Stat) (f : Option OpenFile) : State :=
  let c := job.c.call
  let d := setSize s.world.disk plan.target c.size
  if c.args.openType = openCreate ∧ c.apply ≠ nfs4OK then
    let d := if c.sized then d else s.world.disk
    s.advance slot (s.called job (.unapplied plan t) plan.target d)
      { s.world with store := s.world.store.closeFile f, disk := d }
  else if c.args.openType = openCreate then
    s.advance slot (s.called job (.applied plan t f) plan.target d)
      ((s.world.setDisk d).remember plan.target c)
  else s.advance slot { job with phase := .applied plan t f } s.world

def undo (plan : OpenPlan) (t : Stat) : State :=
  s.finish slot job (BodyResult.fail job.c.call.apply)
    (s.world.undo plan.target t.existed job.c.call)

def overtake : State :=
  { s with jobs := fun i => if i = slot then s.jobs i
      else (s.jobs i).map fun job => { job with raced := true } }

def install (plan : OpenPlan) (t : Stat) (f : Option OpenFile) : State :=
  match openInstall s.world.store s.world.clock plan f with
  | (.error e, st) => s.finish slot job (BodyResult.fail e) (s.world.setStore st)
  | (.ok g, st) =>
    (s.finish slot job (openReply st plan t.env g) (s.world.setStore st)).overtake slot

def resume : Option State :=
  match job.phase with
  | .looked => s.acquire slot job
  | .admitted => some (s.lookUp slot job)
  | .statted t => some (s.check slot job t)
  | .checked plan t => some (s.recallDelegations slot job plan t)
  | .recalled plan t => some (s.openFile slot job plan t)
  | .opened plan t f => some (s.applySetAttrs slot job plan t f)
  | .unapplied plan t => some (s.undo slot job plan t)
  | .applied plan t f => some (s.install slot job plan t f)
  | .answered _ => none

end State

def next (s : State) : Event → Option State
  | .tick d => some { s with world := { s.world with clock := s.world.clock + d } }
  | .request r =>
    if Request.atomic r ∧ (requestOwner s.world.store r).all (fun o => !s.mutex o) = true then
      some { s with world := s.world.setStore (step s.world.store r) }
    else none
  | .begin slot fh c =>
    if (s.jobs slot).isSome then none
    else
      match s.world.store.ownerOf s.world.clock c.call.args.clientID c.call.args.owner with
      | (.error _, st) => some { s with world := s.world.setStore st }
      | (.ok o, st) => some (s.advance slot ⟨o, fh, c, .looked, false, false⟩ (s.world.setStore st))
  | .resume slot => (s.jobs slot).bind (s.resume slot)

def start (cfg : Config) (d : Disk) (ttl max : ℕ) : State :=
  ⟨NfsWorld.start cfg d ttl max, fun _ => false, fun _ => none⟩

/-- An OPEN that is answered with a share conflict has not changed the file. -/
def Harmless (s : State) : Prop :=
  ∀ slot job, s.jobs slot = some job → job.phase = .answered nfs4ErrShareDenied →
    job.changed = false

/-- An OPEN that has changed the file meets no conflict in its last section. -/
def Clear (s : State) : Event → Prop
  | .resume slot => ∀ job plan t f, s.jobs slot = some job → job.phase = .applied plan t f →
      job.changed = true → conflict s plan = false
  | _ => True

def Phase.early : Phase → Bool
  | .looked => true
  | .admitted => true
  | .statted _ => true
  | .checked _ _ => true
  | .recalled _ _ => true
  | _ => false

def Phase.plan : Phase → Option OpenPlan
  | .checked plan _ => some plan
  | .recalled plan _ => some plan
  | .opened plan _ _ => some plan
  | .unapplied plan _ => some plan
  | .applied plan _ _ => some plan
  | _ => none

structure Invariant (s : State) : Prop where
  indexed : Indexed s.world.store.toTables
  early : ∀ slot job, s.jobs slot = some job → job.phase.early = true → job.changed = false
  unraced : ∀ slot job plan, s.jobs slot = some job → job.phase.plan = some plan →
    job.raced = false → conflict s plan = false

section Steps

variable {s s' : State} {slot : ℕ} {job job' : Job}

/-- An OPEN goes on without touching the open states; its job becomes `job'`. -/
structure Goes (s s' : State) (slot : ℕ) (job job' : Job) : Prop where
  jobs : s'.jobs = update s.jobs slot (some job')
  tables : s'.world.store.toTables = s.world.store.toTables
  quiet : (job.phase.early = true → job.changed = false) →
    job'.phase = .answered nfs4ErrShareDenied ∨ job'.phase.early = true → job'.changed = false
  plan : ∀ plan, job'.phase.plan = some plan → job'.raced = false →
    conflict s plan = false ∨ job.phase.plan = some plan ∧ job.raced = false

theorem Goes.finish (r : BodyResult) (w : World) (ht : w.store.toTables = s.world.store.toTables)
    (hq : r.status = nfs4ErrShareDenied → job.phase.early = true) :
    Goes s (s.finish slot job r w) slot job { job with phase := .answered r.status } where
  jobs := rfl
  tables := ht
  quiet := by
    intro hearly h
    rcases h with h | h
    · exact hearly (hq (Phase.answered.inj h))
    · cases h
  plan := nofun

theorem acquire_goes (h : s.acquire slot job = some s') (hp : job.phase = .looked) :
    ∃ job', Goes s s' slot job job' := by
  have hearly : job.phase.early = true := by rw [hp]; rfl
  simp only [State.acquire] at h
  split at h
  · cases h
  split at h
  · cases h
    exact ⟨_, rfl, rfl, fun hq _ => hq hearly, nofun⟩
  · cases h
    exact ⟨_, rfl, rfl, fun hq _ => hq hearly, nofun⟩

theorem check_goes {t} (hp : job.phase = .statted t) :
    ∃ job', Goes s (s.check slot job t) slot job job' := by
  have hearly : job.phase.early = true := by rw [hp]; rfl
  unfold State.check
  split
  · exact ⟨_, .finish _ _ rfl fun _ => hearly⟩
  split
  · exact ⟨_, .finish _ _ rfl fun _ => hearly⟩
  rename_i target _ plan hc
  refine ⟨_, rfl, rfl, fun hq _ => hq hearly, fun plan' hplan _ => .inl ?_⟩
  cases hplan
  -- the first section found no conflict
  unfold openCheck at hc
  simp only at hc
  split at hc
  · cases hc
  rename_i hno
  cases hc
  simpa [conflict] using hno

theorem recallDelegations_goes {plan t} (hp : job.phase = .checked plan t) :
    ∃ job', Goes s (s.recallDelegations slot job plan t) slot job job' := by
  have hearly : job.phase.early = true := by rw [hp]; rfl
  have ht := openRecall_tables s.world.store s.world.clock plan job.c.call.args
  simp only [State.recallDelegations]
  split
  · exact ⟨_, .finish _ _ ht fun _ => hearly⟩
  refine ⟨_, rfl, ht, fun hq _ => hq hearly, fun plan' hplan hr => .inr ⟨?_, hr⟩⟩
  rw [hp]
  exact hplan

theorem openFile_goes {plan t} (hp : job.phase = .recalled plan t) :
    ∃ job', Goes s (s.openFile slot job plan t) slot job job' := by
  have hearly : job.phase.early = true := by rw [hp]; rfl
  have hplan : ∀ f plan', (Phase.opened plan t f).plan = some plan' →
      job.phase.plan = some plan' := by
    intro f plan' h
    rw [hp]
    exact h
  unfold State.openFile
  split
  · split
    · exact ⟨_, .finish _ _ rfl fun _ => hearly⟩
    · refine ⟨_, rfl, rfl, fun _ h => ?_, fun plan' h hr => .inr ⟨hplan _ plan' h, hr⟩⟩
      rcases h with h | h <;> cases h
  · refine ⟨_, rfl, rfl, fun _ h => ?_, fun plan' h hr => .inr ⟨hplan _ plan' h, hr⟩⟩
    rcases h with h | h <;> cases h

theorem applySetAttrs_goes {plan t f} (hp : job.phase = .opened plan t f) :
    ∃ job', Goes s (s.applySetAttrs slot job plan t f) slot job job' := by
  have hplan : ∀ plan', some plan = some plan' → job.phase.plan = some plan' := by
    intro plan' h
    rw [hp]
    exact h
  simp only [State.applySetAttrs]
  split
  · refine ⟨_, rfl, rfl, fun _ h => ?_, fun plan' h hr => .inr ⟨hplan plan' h, hr⟩⟩
    rcases h with h | h <;> cases h
  split
  · refine ⟨_, rfl, ?_, fun _ h => ?_, fun plan' h hr => .inr ⟨hplan plan' h, hr⟩⟩
    · simp only [State.advance, remember_store, World.setDisk]
    · rcases h with h | h <;> cases h
  · refine ⟨_, rfl, rfl, fun _ h => ?_, fun plan' h hr => .inr ⟨hplan plan' h, hr⟩⟩
    rcases h with h | h <;> cases h

theorem undo_goes (plan : OpenPlan) (t : Stat) :
    ∃ job', Goes s (s.undo slot job plan t) slot job job' := by
  refine ⟨_, .finish _ _ ?_ fun h => absurd h job.c.apply⟩
  rw [undo_store]

theorem resume_goes (h : s.resume slot job = some s')
    (hp : ∀ plan t f, job.phase ≠ .applied plan t f) : ∃ job', Goes s s' slot job job' := by
  unfold State.resume at h
  split at h
  · rename_i hphase
    exact acquire_goes h hphase
  · rename_i hphase
    cases h
    have hearly : job.phase.early = true := by rw [hphase]; rfl
    refine ⟨_, rfl, ?_, fun hq _ => hq hearly, nofun⟩
    simp only [State.lookUp, State.advance, consult_store]
  · rename_i t hphase
    cases h
    exact check_goes hphase
  · rename_i plan t hphase
    cases h
    exact recallDelegations_goes hphase
  · rename_i plan t hphase
    cases h
    exact openFile_goes hphase
  · rename_i plan t f hphase
    cases h
    exact applySetAttrs_goes hphase
  · rename_i plan t _
    cases h
    exact undo_goes plan t
  · rename_i plan t f hphase
    exact absurd hphase (hp plan t f)
  · cases h

theorem Goes.forall_jobs {P : Job → Prop} (h : Goes s s' slot job job')
    (hs : ∀ i j, s.jobs i = some j → P j) (hnew : P job') : ∀ i j, s'.jobs i = some j → P j := by
  rw [h.jobs]
  exact forall_some_update (fun i _ => hs i) (by rintro _ ⟨⟩; exact hnew)

theorem conflict_congr (ht : s'.world.store.toTables = s.world.store.toTables)
    (plan : OpenPlan) : conflict s' plan = conflict s plan := by
  rw [conflict, conflict, ht]

theorem Goes.invariant (h : Goes s s' slot job job') (hjob : s.jobs slot = some job)
    (hi : Invariant s) : Invariant s' := by
  have hquiet := h.quiet (hi.early slot job hjob)
  refine ⟨h.tables ▸ hi.indexed, ?_, ?_⟩
  · exact h.forall_jobs (P := fun j => j.phase.early = true → j.changed = false) hi.early
      fun he => hquiet (.inr he)
  intro i j plan hj hplan hr
  rw [conflict_congr h.tables]
  refine h.forall_jobs (P := fun j => ∀ plan, j.phase.plan = some plan → j.raced = false →
    conflict s plan = false) (fun i j hj plan => hi.unraced i j plan hj) ?_ i j hj plan hplan hr
  intro plan hplan hr
  rcases h.plan plan hplan hr with hno | ⟨hold, hr'⟩
  · exact hno
  · exact hi.unraced slot job plan hjob hold hr'

theorem Goes.harmless (h : Goes s s' slot job job') (hjob : s.jobs slot = some job)
    (hi : Invariant s) (hs : Harmless s) : Harmless s' :=
  h.forall_jobs (P := fun j => j.phase = .answered nfs4ErrShareDenied → j.changed = false) hs
    fun hp => h.quiet (hi.early slot job hjob) (.inl hp)

end Steps

section Installing

variable {s s' : State} {slot : ℕ} {job : Job} {plan : OpenPlan} {t : Stat} {f : Option OpenFile}

theorem install_cases (s : State) (slot : ℕ) (job : Job) (plan : OpenPlan) (t : Stat)
    (f : Option OpenFile) :
    (∃ e st, st.toTables = s.world.store.toTables ∧
      (e = nfs4ErrShareDenied ↔ conflict s plan = true) ∧
      s.install slot job plan t f =
        s.finish slot job (BodyResult.fail e) (s.world.setStore st)) ∨
    conflict s plan = false ∧ ∃ r st, r.status = nfs4OK ∧
      (Indexed s.world.store.toTables → Indexed st.toTables) ∧
      s.install slot job plan t f =
        (s.finish slot job r (s.world.setStore st)).overtake slot := by
  have hindexed : Indexed s.world.store.toTables →
      Indexed (openInstall s.world.store s.world.clock plan f).2.toTables :=
    fun h => openInstall_indexed h _ _
  unfold State.install
  cases hc : conflict s plan with
  | true =>
    have hi : openInstall s.world.store s.world.clock plan f =
        (.error nfs4ErrShareDenied, s.world.store.closeFile f) := by
      unfold openInstall
      exact if_pos hc
    rw [hi]
    exact .inl ⟨nfs4ErrShareDenied, s.world.store.closeFile f, rfl, iff_of_true rfl rfl, rfl⟩
  | false =>
    have hne : ¬ s.world.store.toTables.shareConflict plan.target plan.owner plan.access
        plan.deny = true := by
      rw [Bool.not_eq_true]
      exact hc
    rcases hi : openInstall s.world.store s.world.clock plan f with ⟨e | g, st⟩
    · simp only [openInstall, if_neg hne] at hi
      split at hi
      · split at hi
        · cases hi
          have hne : nfs4ErrResource ≠ nfs4ErrShareDenied := by decide
          exact .inl ⟨nfs4ErrResource, s.world.store.closeFile f, rfl,
            iff_of_false hne nofun, rfl⟩
        · cases hi
      · cases hi
    · rw [hi] at hindexed
      exact .inr ⟨rfl, openReply st plan t.env g, st, rfl, hindexed, rfl⟩

theorem install_invariant (hi : Invariant s) : Invariant (s.install slot job plan t f) := by
  rcases install_cases s slot job plan t f with ⟨e, st, ht, -, he⟩ | ⟨-, r, st, -, hind, he⟩
  · rw [he]
    refine ⟨ht ▸ hi.indexed, ?_, fun i j plan' hj hplan hr => ?_⟩
    · exact forall_some_update (fun i _ => hi.early i) (by rintro _ ⟨⟩; exact nofun)
    · refine (conflict_congr (s := s) ht plan').trans ?_
      exact forall_some_update (P := fun _ j => j.phase.plan = some plan' → j.raced = false →
        conflict s plan' = false) (fun i _ j => hi.unraced i j plan') (by rintro _ ⟨⟩; exact nofun)
        i j hj hplan hr
  rw [he]
  -- every other OPEN is overtaken, so there is nothing to say about its conflicts
  have hother : ∀ i j, ((s.finish slot job r (s.world.setStore st)).overtake slot).jobs i =
      some j → i = slot ∧ j.phase.plan = none ∧ j.phase.early = false ∨
      ∃ j₀, s.jobs i = some j₀ ∧ j = { j₀ with raced := true } := by
    intro i j hj
    by_cases hslot : i = slot
    · subst hslot
      simp only [State.overtake, if_true, State.finish, update_self] at hj
      cases hj
      exact .inl ⟨rfl, rfl, rfl⟩
    simp only [State.overtake, if_neg hslot, State.finish,
      update_of_ne hslot] at hj
    obtain ⟨j₀, hj₀, rfl⟩ := Option.map_eq_some_iff.1 hj
    exact .inr ⟨j₀, hj₀, rfl⟩
  refine ⟨hind hi.indexed, fun i j hj he => ?_, fun i j plan' hj hplan hr => ?_⟩
  · rcases hother i j hj with ⟨-, -, hlate⟩ | ⟨j₀, hj₀, rfl⟩
    · rw [hlate] at he
      cases he
    · exact hi.early i j₀ hj₀ he
  · rcases hother i j hj with ⟨-, hnone, -⟩ | ⟨j₀, -, rfl⟩
    · rw [hnone] at hplan
      cases hplan
    · cases hr

theorem install_harmless_iff (hs : Harmless s) (hjob : s.jobs slot = some job)
    (hp : job.phase = .applied plan t f) :
    Harmless (s.install slot job plan t f) ↔ Clear s (.resume slot) := by
  have hclear : Clear s (.resume slot) ↔ (job.changed = true → conflict s plan = false) := by
    constructor
    · exact fun h => h job plan t f hjob hp
    intro h job' plan' t' f' hjob' hp'
    rw [hjob] at hjob'
    cases hjob'
    rw [hp] at hp'
    cases hp'
    exact h
  rw [hclear]
  rcases install_cases s slot job plan t f with ⟨e, st, -, hiff, he⟩ | ⟨hno, r, st, hok, -, he⟩
  · rw [he]
    constructor
    · intro hh hch
      by_contra hne
      rw [Bool.not_eq_false] at hne
      obtain rfl := hiff.2 hne
      have hfalse := hh slot { job with phase := .answered nfs4ErrShareDenied }
        (update_self _ _ _) rfl
      rw [show job.changed = false from hfalse] at hch
      cases hch
    intro hc
    refine forall_some_update (fun i _ => hs i) ?_
    rintro _ ⟨⟩ hans
    have hconf := hiff.1 (Phase.answered.inj hans)
    by_contra hne
    rw [Bool.not_eq_false] at hne
    rw [hc hne] at hconf
    cases hconf
  rw [he]
  refine iff_of_true (fun i j hj hans => ?_) fun _ => hno
  by_cases hslot : i = slot
  · subst hslot
    simp only [State.overtake, if_true, State.finish, update_self] at hj
    cases hj
    have hst := Phase.answered.inj hans
    rw [hok] at hst
    exact absurd hst (by decide)
  simp only [State.overtake, if_neg hslot, State.finish, update_of_ne hslot] at hj
  obtain ⟨j₀, hj₀, rfl⟩ := Option.map_eq_some_iff.1 hj
  exact hs i j₀ hj₀ hans

end Installing

section Alone

variable {s s' : State} {slot : ℕ} {job : Job} {o : OwnerRef} {c : Call}

/-- The OPEN in a slot goes on with nothing in between until its body has returned `r`. -/
def Ends (s : State) (slot : ℕ) (o : OwnerRef) (r : BodyResult × World) : Prop :=
  ∃ n s', run next s (List.replicate n (.resume slot)) = some s' ∧
    (∃ job, s'.jobs slot = some job ∧ job.phase = .answered r.1.status) ∧
    s'.world = r.2.setStore (r.2.store.setOwner o
      { r.2.store.owner o with seq := settle (r.2.store.owner o).seq opOpen r.1 })

theorem Ends.resume {r} (hjob : s.jobs slot = some job)
    (h : s.resume slot job = some s') (he : Ends s' slot o r) : Ends s slot o r := by
  obtain ⟨n, u, hrun, hu⟩ := he
  refine ⟨n + 1, u, ?_, hu⟩
  rw [List.replicate_succ, run_cons]
  refine ⟨s', ?_, hrun⟩
  change (s.jobs slot).bind (s.resume slot) = some s'
  rw [hjob]
  exact h

theorem Ends.finish (job : Job) (r : BodyResult) (w : World) :
    Ends (s.finish slot job r w) slot job.owner (r, w) :=
  ⟨0, _, rfl, ⟨_, update_self _ _ _, rfl⟩, rfl⟩

theorem advance_jobs (job : Job) (w : World) : (s.advance slot job w).jobs slot = some job :=
  update_self _ _ _

/-- What OPEN makes of the results of its FileSystem calls. -/
def concluded (plan : OpenPlan) (env : OpenEnv) :
    Except NfsStat (Option OpenFile) × World → BodyResult × World
  | (.error e, w) => (BodyResult.fail e, w)
  | (.ok f, w) =>
    match openInstall w.store w.clock plan f with
    | (.error e, st) => (BodyResult.fail e, w.setStore st)
    | (.ok g, st) => (openReply st plan env g, w.setStore st)

theorem install_ends {plan t f} (hjob : s.jobs slot = some job) (hp : job.phase = .applied plan t f)
    (ho : job.owner = o) : Ends s slot o (concluded plan t.env (.ok f, s.world)) := by
  subst ho
  have hstep : s.resume slot job = some (s.install slot job plan t f) := by
    simp only [State.resume, hp]
  refine .resume hjob hstep ?_
  simp only [State.install, concluded]
  rcases openInstall s.world.store s.world.clock plan f with ⟨e | g, st⟩
  · exact .finish job _ _
  refine ⟨0, _, rfl, ⟨{ job with phase := .answered nfs4OK }, ?_, rfl⟩, rfl⟩
  simp only [State.overtake, if_true, State.finish, update_self]
  rfl

theorem applySetAttrs_ends {w : World} {plan : OpenPlan} {t : Stat} {opened : Option Disk}
    (hw : s.world = w.setDisk (opened.getD w.disk)) (hjob : s.jobs slot = some job)
    (hp : job.phase = .opened plan t (opened.map fun _ => ⟨w.disk.files, plan.flag⟩))
    (ho : job.owner = o) (hc : job.c = c) :
    Ends s slot o (concluded plan t.env (w.applyCalls plan c.call t.existed opened)) := by
  subst ho hc
  have hstep : s.resume slot job = some (s.applySetAttrs slot job plan t
      (opened.map fun _ => ⟨w.disk.files, plan.flag⟩)) := by
    simp only [State.resume, hp]
  refine .resume hjob hstep ?_
  simp only [State.applySetAttrs, World.applyCalls, hw]
  split
  · -- the attributes failed: the undoing comes next
    refine .resume (advance_jobs _ _) rfl ?_
    exact .finish _ _ _
  split
  · exact install_ends (advance_jobs _ _) rfl rfl
  · exact install_ends (advance_jobs _ _) rfl rfl

theorem openFile_ends {plan t} (hjob : s.jobs slot = some job)
    (hp : job.phase = .recalled plan t) (ho : job.owner = o) (hc : job.c = c) :
    Ends s slot o (concluded plan t.env (s.world.openCalls plan c.call t.mode t.existed)) := by
  subst ho hc
  have hstep : s.resume slot job = some (s.openFile slot job plan t) := by
    simp only [State.resume, hp]
  refine .resume hjob hstep ?_
  unfold State.openFile World.openCalls
  cases hn : plan.needOpen with
  | false =>
    simp only [Bool.false_eq_true, if_false]
    exact applySetAttrs_ends (w := s.world) rfl (advance_jobs _ _) rfl rfl rfl
  | true =>
    simp only [if_true]
    cases hd : openNow s.world.disk plan.target t.mode job.c.call.fault with
    | error e => exact .finish job _ _
    | ok d => exact applySetAttrs_ends (w := s.world) rfl (advance_jobs _ _) rfl rfl rfl

theorem recallDelegations_ends {w plan t} (hw : s.world = w) (hjob : s.jobs slot = some job)
    (hp : job.phase = .checked plan t) (ho : job.owner = o) (hc : job.c = c) :
    Ends s slot o
      (if (openRecall w.store w.clock plan c.call.args).1 ≠ nfs4OK then
        (BodyResult.fail (openRecall w.store w.clock plan c.call.args).1,
          w.setStore (openRecall w.store w.clock plan c.call.args).2)
      else concluded plan t.env
        ((w.setStore (openRecall w.store w.clock plan c.call.args).2).openCalls
          plan c.call t.mode t.existed)) := by
  subst ho hc hw
  have hstep : s.resume slot job = some (s.recallDelegations slot job plan t) := by
    simp only [State.resume, hp]
  refine .resume hjob hstep ?_
  simp only [State.recallDelegations]
  split
  · exact .finish job _ _
  · exact openFile_ends (advance_jobs _ _) rfl rfl rfl

theorem openWith_checked {w : World} {fh : Option Path} {a : OpenCall} {target : Path}
    {plan : OpenPlan} (ht : openTarget fh a.args (w.openEnv fh a) = .ok target)
    (hc : openCheck (w.consult fh a).store.toTables o target a.args = .ok plan) :
    w.openWith fh o a =
      if (openRecall (w.consult fh a).store (w.consult fh a).clock plan a.args).1 ≠ nfs4OK then
        (BodyResult.fail (openRecall (w.consult fh a).store (w.consult fh a).clock plan a.args).1,
          (w.consult fh a).setStore
            (openRecall (w.consult fh a).store (w.consult fh a).clock plan a.args).2)
      else concluded plan (w.openEnv fh a)
        (((w.consult fh a).setStore
          (openRecall (w.consult fh a).store (w.consult fh a).clock plan a.args).2).openCalls
            plan a (w.openMode fh a) (w.disk.lstat (openPath fh a.args)).isSome) := by
  simp only [World.openWith, ht, hc]
  split
  · rfl
  rcases World.openCalls _ plan a (w.openMode fh a) _ with ⟨e | f, w'⟩
  · rfl
  · rcases hi : openInstall w'.store w'.clock plan f with ⟨e | g, st⟩ <;> simp only [concluded, hi]

theorem openWith_ends (hjob : s.jobs slot = some job) (hp : job.phase = .admitted) :
    Ends s slot job.owner (s.world.openWith job.fh job.owner job.c.call) := by
  have hlook : s.resume slot job = some (s.lookUp slot job) := by
    simp only [State.resume, hp]
  refine .resume hjob hlook (.resume (advance_jobs _ _) rfl ?_)
  simp only [State.check]
  cases ht : openTarget job.fh job.c.call.args (s.world.openEnv job.fh job.c.call) with
  | error e =>
    simp only [World.openWith, ht]
    exact .finish _ _ _
  | ok target =>
    have hw : (s.lookUp slot job).world = s.world.consult job.fh job.c.call := rfl
    simp only [hw]
    cases hc : openCheck (s.world.consult job.fh job.c.call).store.toTables job.owner target
        job.c.call.args with
    | error e =>
      simp only [World.openWith, ht, hc]
      exact .finish _ _ _
    | ok plan =>
      rw [openWith_checked ht hc]
      exact recallDelegations_ends (c := job.c) (t := ⟨s.world.openEnv job.fh job.c.call,
        s.world.openMode job.fh job.c.call,
        (s.world.disk.lstat (openPath job.fh job.c.call.args)).isSome⟩)
        rfl (advance_jobs _ _) rfl rfl rfl

end Alone

section Runs

variable {s s' : State}

theorem shareConflict_weakens {st st'} (hw : Weakens st st') (hi : Indexed st.toTables)
    (hi' : Indexed st'.toTables) {p o access deny}
    (h : st.toTables.shareConflict p o access deny = false) :
    st'.toTables.shareConflict p o access deny = false := by
  simp only [Tables.shareConflict, List.any_eq_false] at h ⊢
  intro k hk
  obtain ⟨hlive, hpath⟩ := (hi'.index.mem p k).1 hk
  obtain ⟨hold, hsame⟩ := hw.opens k hlive
  have hpath : (st'.openState k).path = p := hpath
  rw [hsame] at hpath ⊢
  exact h k ((hi.index.mem p k).2 ⟨hold, hpath⟩)

theorem next_spec {e} (hi : Invariant s) (h : next s e = some s') :
    Invariant s' ∧ (Harmless s → (Harmless s' ↔ Clear s e)) := by
  cases e with
  | tick d =>
    cases h
    exact ⟨⟨hi.indexed, hi.early, hi.unraced⟩, fun hs => iff_of_true hs trivial⟩
  | request r =>
    simp only [next] at h
    split at h
    · rename_i hr
      cases h
      have hw := weakens_of_moves (step_moves s.world.store hr.1)
      have hi' : Indexed (step s.world.store r).toTables :=
        Changes.keeps (P := fun st => Indexed st.toTables) Indexed.change
          (step_changes s.world.store hr.1) hi.indexed
      refine ⟨⟨hi', hi.early, fun i j plan hj hplan hr => ?_⟩, fun hs => iff_of_true hs trivial⟩
      exact shareConflict_weakens hw hi.indexed hi' (hi.unraced i j plan hj hplan hr)
    · cases h
  | begin slot fh c =>
    have ht := (ownerIn_renews s.world.store s.world.clock c.call.args.clientID false
      c.call.args.owner).tables
    simp only [next, Store.ownerOf] at h
    split at h
    · cases h
    split at h
    · rename_i st hl
      rw [hl] at ht
      cases h
      refine ⟨⟨ht ▸ hi.indexed, hi.early, fun i j plan hj hplan hr => ?_⟩,
        fun hs => iff_of_true hs trivial⟩
      exact (conflict_congr (s := s) ht plan).trans (hi.unraced i j plan hj hplan hr)
    rename_i hfree _ o st hl
    rw [hl] at ht
    cases h
    refine ⟨⟨ht ▸ hi.indexed, ?_, fun i j plan hj hplan hr => ?_⟩,
      fun hs => iff_of_true ?_ trivial⟩
    · exact forall_some_update (fun i _ => hi.early i) (by rintro _ ⟨⟩ _; rfl)
    · refine (conflict_congr (s := s) ht plan).trans ?_
      exact forall_some_update (P := fun _ j => j.phase.plan = some plan → j.raced = false →
        conflict s plan = false) (fun i _ j => hi.unraced i j plan) (by rintro _ ⟨⟩ ⟨⟩)
        i j hj hplan hr
    · exact forall_some_update (fun i _ => hs i) (by rintro _ ⟨⟩ ⟨⟩)
  | resume slot =>
    obtain ⟨job, hjob, h⟩ := Option.bind_eq_some_iff.1 h
    by_cases hp : ∃ plan t f, job.phase = .applied plan t f
    · obtain ⟨plan, t, f, hp⟩ := hp
      have hs' : s' = s.install slot job plan t f := by
        simp only [State.resume, hp] at h
        exact (Option.some.inj h).symm
      rw [hs']
      exact ⟨install_invariant hi, fun hs => install_harmless_iff hs hjob hp⟩
    have hne : ∀ plan t f, job.phase ≠ .applied plan t f :=
      fun plan t f h => hp ⟨plan, t, f, h⟩
    obtain ⟨job', hg⟩ := resume_goes h hne
    refine ⟨hg.invariant hjob hi, fun hs => iff_of_true (hg.harmless hjob hi hs) ?_⟩
    intro job₁ plan t f hjob₁ hp₁
    rw [hjob] at hjob₁
    cases hjob₁
    exact absurd hp₁ (hne plan t f)

theorem start_jobs (cfg : Config) (d : Disk) (ttl max slot : ℕ) :
    (start cfg d ttl max).jobs slot = none := rfl

theorem start_spec (cfg : Config) (d : Disk) (ttl max : ℕ) :
    Invariant (start cfg d ttl max) ∧ Harmless (start cfg d ttl max) := by
  refine ⟨⟨NfsInterleaving.start_indexed cfg, ?_, ?_⟩, ?_⟩
  · intro slot job h
    rw [start_jobs] at h
    cases h
  · intro slot job plan h
    rw [start_jobs] at h
    cases h
  · intro slot job h
    rw [start_jobs] at h
    cases h

end Runs

/-- In the runs in which no OPEN meets a conflict after it changed the file, a share conflict
means that the file was left alone; a step keeps that exactly under this condition; and an OPEN
meets a conflict in its last section only if another one was installed since its first. -/
theorem share_denied_harmless_iff (cfg : Config) (d : Disk) (ttl max : ℕ) :
    (∀ es s, Meets next Clear (start cfg d ttl max) es →
      run next (start cfg d ttl max) es = some s → Harmless s) ∧
    (∀ es s e s', run next (start cfg d ttl max) es = some s → Harmless s →
      next s e = some s' → (Harmless s' ↔ Clear s e)) ∧
    ∀ es s slot job plan, run next (start cfg d ttl max) es = some s →
      s.jobs slot = some job → job.phase.plan = some plan → conflict s plan = true →
      job.raced = true := by
  obtain ⟨hi, hs⟩ := start_spec cfg d ttl max
  have hkept := kept_iff next (P := Harmless) (fun s e s' hi hn => next_spec hi hn) hi hs
  refine ⟨hkept.1, hkept.2, fun es s slot job plan hrun hjob hplan hc => ?_⟩
  have hinv : Invariant s := run_invariant (fun s e s' hi hn => (next_spec hi hn).1) hi hrun
  by_contra hne
  rw [Bool.not_eq_true] at hne
  rw [hinv.unraced slot job plan hjob hplan hne] at hc
  cases hc

/-- An OPEN of `f` in the root, by the client number 1. -/
def openCall (owner : UInt8) (access deny openType : UInt32) (size : Option ℕ) : Call where
  call := {
    args := ⟨1, access, deny, 1, [owner], openType, 0, 0, .ok "f", size.isSome, .ok size⟩
    verf := 0
    order := []
    fault := none
    apply := nfs4OK
    sized := false
    before := 0
    after := 0
    applied := [] }
  apply := show nfs4OK ≠ nfs4ErrShareDenied by decide

/-- Two owners pass the first section; one denies writing and is installed, the other truncates
the file and is refused. -/
def overtaken : List Event :=
  [.request (.setClientID 0 [1] 7 9 "none"), .request (.setClientIDConfirm 0 1 9),
    .begin 0 (some []) (openCall 10 1 2 0 none), .begin 1 (some []) (openCall 11 2 0 1 (some 0))] ++
    List.replicate 3 (.resume 1) ++ List.replicate 7 (.resume 0) ++ List.replicate 4 (.resume 1)

def written : Disk :=
  match Disk.empty.openAt ["f"] ⟨true, false, false⟩ with
  | .ok d => d.setData 0 [1, 2, 3]
  | .error _ => Disk.empty

theorem openWith_ends_first :
    let w := NfsWorld.start ⟨90, 90, 5, false⟩ written 90 1024
    let job : Job := ⟨⟨1, false, [10], 0⟩, some [], openCall 10 1 2 0 none, .admitted, false, false⟩
    Ends ⟨w, fun _ => false, fun _ => some job⟩ 0 job.owner
      (w.openWith job.fh job.owner job.c.call) :=
  openWith_ends rfl rfl

def Phase.status : Phase → Option NfsStat
  | .answered status => some status
  | _ => none

theorem denied_open_truncates :
    ∃ s, run next (start ⟨90, 90, 5, false⟩ written 90 1024) overtaken = some s ∧
      view written ["f"] = some (0, [1, 2, 3]) ∧ view s.world.disk ["f"] = some (0, []) ∧
      ¬ Harmless s := by
  refine exists_run (P := fun s => view s.world.disk ["f"] = some (0, []) ∧
    ((s.jobs 1).map fun job => (job.phase.status, job.changed)) =
      some (some nfs4ErrShareDenied, true)) (by decide +kernel) ?_
  rintro s hs ⟨hview, hjob⟩
  refine ⟨by decide +kernel, hview, fun hh => ?_⟩
  obtain ⟨job, hj, hst⟩ := Option.map_eq_some_iff.1 hjob
  simp only [Prod.mk.injEq] at hst
  have hphase : job.phase = .answered nfs4ErrShareDenied := by
    have h := hst.1
    unfold Phase.status at h
    split at h
    · rename_i hp
      cases h
      exact hp
    · cases h
  have hfalse := hh 1 job hj hphase
  rw [hst.2] at hfalse
  cases hfalse

end NfsShareRace
