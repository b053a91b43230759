import FacetFS.NfsOutcomes
import FacetFS.NfsTableInvariant

/-! # Exclusion between NFSv4 owners

A server that runs every operation as one step never grants conflicting share reservations or
byte ranges, whatever its clients send and its FileSystem answers. -/
namespace NfsExclusion

open NfsSeqid NfsLockRange GroupIndex NfsStore NfsOps NfsOutcomes NfsTableInvariant

section Open

variable {st : Store} {plan : OpenPlan}

theorem share_or_and (a b s : UInt32) : (a ||| b) &&& s = (a &&& s) ||| (b &&& s) := by
  apply UInt32.eq_of_toBitVec_eq
  simp only [UInt32.toBitVec_and, UInt32.toBitVec_or]
  ext i hi
  simp [Bool.and_or_distrib_right]

theorem modeAllows_or {a} (b : UInt32) {w}
    (h : Tables.modeAllows a w = true) : Tables.modeAllows (a ||| b) w = true := by
  cases w <;> simp_all [Tables.modeAllows, share_or_and]

theorem reserved_new (h : OpensOK st.toTables)
    (hc : st.toTables.shareConflict plan.target plan.owner plan.access plan.deny = false)
    (hn : st.toTables.findOpen plan.target plan.owner = none) {s}
    (hp : s.path = plan.target) (ho : s.owner = plan.owner) (ha : s.access = plan.access)
    (hd : s.deny = plan.deny) (k : ℕ) : Reserved st.toTables k s := by
  intro j hj _ hjp
  rw [hp] at hjp
  have hne := findOpen_none h hn hj hjp
  rw [ho, ha, hd]
  exact ⟨hne, shareConflict_false h.index hc hj hjp hne⟩

theorem reserved_held (h : OpensOK st.toTables)
    (hc : st.toTables.shareConflict plan.target plan.owner plan.access plan.deny = false)
    {k} (hk : st.toTables.findOpen plan.target plan.owner = some k) {s}
    (hp : s.path = plan.target) (ho : s.owner = plan.owner) (ha : s.access = plan.access)
    (hd : s.deny = plan.deny) : Reserved st.toTables k s := by
  obtain ⟨hlive, hkp, hko⟩ := findOpen_some h hk
  intro j hj hjk hjp
  rw [hp] at hjp
  have hne : (st.openState j).owner ≠ plan.owner := by
    intro e
    exact hjk (h.unique j hj k hlive (hjp.trans hkp.symm) (e.trans hko.symm))
  rw [ho, ha, hd]
  exact ⟨hne, shareConflict_false h.index hc hj hjp hne⟩

theorem openGrant_inv (h : Inv st.toTables) (now k : ℕ) :
    Inv (openGrant st now plan k).2.toTables := by
  obtain ⟨n, hn, he⟩ := openGrant_tables st now plan k
  rw [he]
  exact h.bumpNext hn

theorem openAct_inv {st'} (h : Inv st.toTables) (ha : OpenAct st st') : Inv st'.toTables := by
  cases ha with
  | none => exact h
  | recalled now plan a f => exact (openRecall_tables st now plan a).symm ▸ h
  | opened now plan a f hp hn =>
    refine openGrant_inv ?_ now _
    simp only [openNew, Store.setClient_tables, Store.setTables_tables, openRecall_tables]
    exact h.installOpen hp.lock rfl (reserved_new h.opens hp.free hn rfl rfl rfl rfl _)
  | upgraded now plan a f k hp hk =>
    obtain ⟨-, hpath, howner⟩ := findOpen_some h.opens hk
    refine openGrant_inv ?_ now k
    simp only [openUpgrade, Store.closeFile_tables, Store.setTables_tables, openRecall_tables]
    refine h.setOpen rfl rfl rfl
      (fun _ => reserved_held h.opens hp.free hk hpath howner rfl rfl) fun l hl hopened r hr => ?_
    simp only [hp.access k hk]
    exact modeAllows_or _ (hopened ▸ (h.backed l hl).mode r hr)
  | kept f => exact h
  | downgraded k s f hs =>
    refine h.setOpen hs.path hs.owner hs.client (fun hk j hj hjk hp => ?_) fun l hl hopened => ?_
    · rw [hs.path] at hp
      have hne : (st.openState j).owner ≠ (st.openState k).owner :=
        fun e => hjk (h.opens.unique j hj _ hk hp e)
      rw [hs.owner]
      refine ⟨hne, ?_, ?_⟩
      · have hshare := h.opens.share _ hk j hj hp.symm (Ne.symm hne)
        rw [← hs.access, UInt32.and_assoc, hshare]
        simp
      · have hshare := h.opens.share j hj _ hk hp hne
        rw [UInt32.and_comm] at hshare
        rw [← hs.deny, UInt32.and_assoc, hshare]
        simp
    · have hp := (h.backed l hl).path
      exact locksBlockDowngrade_false h.locks hs.unblocked hl hopened (by rw [← hp, hopened])

end Open

section Acts

variable {st : Store}

theorem closeTables_inv {t : Tables} (h : Inv t) {o : OwnerRef} {k : ℕ} (ho : o.lock = false)
    (hc : t.locksBlockClose k = false) : Inv (closeTables t o k) := by
  have hfree := removeEmptyLocksForOpen_free h.locks.index (fun l hl => (h.backed l hl).path) hc
  have hclosed := (h.removeEmptyLocksForOpen k).removeOpen ho hfree
  have hgone : k ∉ (((t.removeEmptyLocksForOpen k).removeOpen k).forgetPriorClosed o k).opens := by
    intro hk
    simpa using (List.mem_filter.1 hk).2
  refine hclosed.setOpen rfl rfl rfl (fun hk => absurd hk hgone) (fun l hl hopened => ?_)
  exact absurd hopened (hfree l hl)

theorem canonical_singleton {r} (h : NonEmpty r) : Canonical [r] :=
  ⟨by simpa using h, by simp⟩

theorem locks_singleton {r w x} : Locks [r] w x ↔ r.write = w ∧ Covers r x := by
  simp [Locks]

theorem lockThrough_inv (h : Inv st.toTables) {k o rng} (ho : o.lock = true)
    (hn : NewLock st.toTables k o rng) : Inv (lockThrough st k o rng).toTables := by
  refine h.installLock ho hn.client.symm (canonical_singleton hn.nonEmpty) (fun l hl hp => ?_)
    (fun l hl hp x w => ?_) hn.live rfl rfl (by simpa using hn.mode)
  · exact findLockState_none h.locks hn.unique hl hp
  have hno := findLockState_none h.locks hn.unique hl hp
  rw [locks_singleton, locks_singleton]
  constructor
  · rintro ⟨hw, hx⟩ hlx
    exact lockConflict_none h.locks hn.nonEmpty hn.free hl hp hno hlx (.inr hw) hx
  · rintro hlx ⟨hw, hx⟩
    exact lockConflict_none h.locks hn.nonEmpty hn.free hl hp hno hlx (.inl rfl) hx

theorem relock_inv (h : Inv st.toTables) {l o rng}
    (ho : st.stateOwners l = some o) (hm : MoreLock st.toTables l o rng) :
    Inv (setRanges st l (setLockRange (st.lockState l).ranges rng)).toTables := by
  have hown : (st.lockState l).owner = o := by
    have hs := (h.locks.owner l hm.live).1
    rw [ho, Option.some.injEq] at hs
    exact hs.symm
  obtain ⟨hcan, hcov⟩ := setLockRange_spec (h.locks.canonical l hm.live) hm.nonEmpty
  refine h.setRanges _ hcan ?_ ?_
  · intro m hlm hp hmo x w w' hr hmx
    rcases (hcov w x).1 hr with ⟨hold, -⟩ | ⟨hw, hx⟩
    · exact h.locks.types_false hm.live hlm hp hmo hold hmx
    rw [hown] at hmo
    have hfree := lockConflict_none h.locks hm.nonEmpty hm.free hlm hp hmo hmx
    constructor <;> by_contra hc <;> rw [Bool.not_eq_false] at hc
    · exact hfree (.inr (hw.trans hc)) hx
    · exact hfree (.inl hc) hx
  · intro w x hr
    rcases (hcov w x).1 hr with ⟨hold, -⟩ | ⟨hw, -⟩
    · exact (h.backed l hm.live).modeAt hold
    · rw [← hw]
      exact hm.mode

theorem unlock_inv (h : Inv st.toTables) {l rng} (hl : l ∈ st.locks) (hne : NonEmpty rng) :
    Inv (setRanges st l (subtractRange (st.lockState l).ranges rng)).toTables := by
  obtain ⟨hcan, hcov⟩ := subtractRange_spec (h.locks.canonical l hl) hne
  refine h.setRanges _ hcan ?_ ?_
  · intro m hm hp hmo x w w' hr hmx
    exact h.locks.types_false hl hm hp hmo ((hcov w x).1 hr).1 hmx
  · intro w x hr
    exact (h.backed l hl).modeAt ((hcov w x).1 hr).1

theorem act_inv {st' kind} (h : Inv st.toTables) (ha : Act kind st st') : Inv st'.toTables := by
  cases ha with
  | none => exact h
  | setClientID now id v cv pr =>
    unfold Store.setClientID
    split <;> exact h
  | confirm now id verf =>
    obtain ⟨cs, he⟩ := confirmClientID_tables st now id verf
    rw [he]
    exact foldl_release (fun _ c h => h.release c) cs h
  | sweep now =>
    obtain ⟨cs, he⟩ := sweepExpired_tables st now
    rw [he]
    exact foldl_release (fun _ c h => h.release c) cs h
  | returned d => exact h
  | close o k now hk ho hb =>
    obtain ⟨hs, hl, -⟩ := h.opens.owner k hk
    obtain rfl := Option.some.inj (ho.symm.trans hs)
    exact closeTables_inv h hl hb
  | lock k o rng ho hn => exact lockThrough_inv h ho hn
  | relock l o rng ho hm => exact relock_inv h ho hm
  | unlock l rng _ hl hne => exact unlock_inv h hl hne
  | dropLocks o =>
    exact h.removeLocks Inv.removeLock_forgetOwner_step fun _ hl => (List.mem_filter.1 hl).1

end Acts

/-- A request with the answers its FileSystem calls get, or a lease sweep. -/
inductive Request where
  | setClientID (now : ℕ) (ownerID : Bytes) (verifier confirmVerf : UInt64) (principal : String)
  | setClientIDConfirm (now : ℕ) (id : ClientID) (confirmVerf : UInt64)
  | renew (now : ℕ) (id : ClientID)
  | probe (id : ClientID)
  | openFile (now : ℕ) (fh : Option Path) (a : OpenArgs) (env : OpenEnv)
  | openConfirm (now : ℕ) (fh : Option Path) (stateSeq : UInt32) (other : Other) (seqid : UInt32)
  | openDowngrade (now : ℕ) (fh : Option Path) (a : DowngradeArgs) (file : Except NfsStat ℕ)
  | close (now : ℕ) (fh : Option Path) (seqid stateSeq : UInt32) (other : Other) (closeOK : Bool)
  | lockNew (now : ℕ) (fh : Option Path) (lookup : Except NfsStat Kind) (a : LockArgs)
      (openSeq : UInt32) (openOther : Other) (clientID : ClientID) (ownerID : Bytes)
  | lockExisting (now : ℕ) (fh : Option Path) (lookup : Except NfsStat Kind) (a : LockArgs)
      (other : Other)
  | lockU (now : ℕ) (fh : Option Path) (lookup : Except NfsStat Kind) (a : LockArgs)
      (other : Other)
  | releaseLockOwner (now : ℕ) (clientID : ClientID) (ownerID : Bytes)
  | delegReturn (now : ℕ) (seq : UInt32) (other : Other) (p : Path)
  | sweep (now : ℕ)

def step (st : Store) : Request → Store
  | .setClientID now id v cv pr => (st.setClientID now id v cv pr).2
  | .setClientIDConfirm now id cv => (st.confirmClientID now id cv).2
  | .renew now id => (st.renew now id).2
  | .probe id => st.probeCallback id
  | .openFile now fh a env => (openFile st now fh a env).2
  | .openConfirm now fh q other sq => (openConfirm st now fh q other sq).2
  | .openDowngrade now fh a file => (openDowngrade st now fh a file).2
  | .close now fh sq q other ok => (close st now fh sq q other ok).2
  | .lockNew now fh lk a sq other id key => (lockNew st now fh lk a sq other id key).2
  | .lockExisting now fh lk a other => (lockExisting st now fh lk a other).2
  | .lockU now fh lk a other => (lockU st now fh lk a other).2
  | .releaseLockOwner now id key => (releaseLockOwner st now id key).2
  | .delegReturn now q other p => (st.returnDelegation now q other p).2
  | .sweep now => st.sweepExpired now

def Request.kind : Request → ActKind
  | .setClientID .. => .clients
  | .setClientIDConfirm .. => .clients
  | .sweep _ => .clients
  | .lockU .. => .cuts
  | _ => .plain

/-- The store after a sequence of requests on a new server. -/
def serve (cfg : Config) (rs : List Request) : Store :=
  rs.foldl step (newStateStore cfg)

/-- Exclusion between owners, as the open and lock states themselves show it. -/
structure Exclusion (t : Tables) : Prop where
  share : ∀ j ∈ t.opens, ∀ k ∈ t.opens, (t.openState j).path = (t.openState k).path →
    (t.openState j).owner ≠ (t.openState k).owner →
    (t.openState j).access &&& (t.openState k).deny = 0
  openUnique : ∀ j ∈ t.opens, ∀ k ∈ t.opens, (t.openState j).path = (t.openState k).path →
    (t.openState j).owner = (t.openState k).owner → j = k
  ranges : ∀ l ∈ t.locks, ∀ m ∈ t.locks, (t.lockState l).path = (t.lockState m).path →
    (t.lockState l).owner ≠ (t.lockState m).owner →
    ∀ r ∈ (t.lockState l).ranges, ∀ s ∈ (t.lockState m).ranges,
      r.write = true ∨ s.write = true → Disjoint r s
  lockUnique : ∀ l ∈ t.locks, ∀ m ∈ t.locks, (t.lockState l).path = (t.lockState m).path →
    (t.lockState l).owner = (t.lockState m).owner → l = m
  canonical : ∀ l ∈ t.locks, Canonical (t.lockState l).ranges
  mode : ∀ l ∈ t.locks, ∀ r ∈ (t.lockState l).ranges, (t.lockState l).opened ∈ t.opens ∧
    Tables.modeAllows (t.openState (t.lockState l).opened).access r.write = true

section Steps

variable {st : Store}

theorem step_acts (st : Store) (r : Request) (hopen : ∀ now fh a env, r ≠ .openFile now fh a env)
    (hdown : ∀ now fh a file, r ≠ .openDowngrade now fh a file) :
    Around (Act r.kind) st (step st r) := by
  cases r with
  | setClientID now id v cv pr => exact .of_act (.setClientID now id v cv pr rfl)
  | setClientIDConfirm now id cv => exact .of_act (.confirm now id cv rfl)
  | renew now id =>
    simp only [step, Store.renew]
    split
    · exact .renews (.renew st id now)
    · exact .of_act .none
  | probe id =>
    simp only [step, Store.probeCallback]
    split
    · exact .renews (.setClient st ⟨rfl, rfl, rfl, rfl, rfl⟩)
    · exact .of_act .none
  | openFile now fh a env => exact absurd rfl (hopen now fh a env)
  | openConfirm now fh q other sq =>
    exact byStateid_around st (fun _ => .none)
      fun o st₁ _ => .renews (openConfirmBody_renews st₁ now fh q other o)
  | openDowngrade now fh a file => exact absurd rfl (hdown now fh a file)
  | close now fh sq q other ok => exact close_acts st now fh sq q other ok
  | lockNew now fh lk a sq other id key => exact lockNew_acts st now fh lk a sq other id key
  | lockExisting now fh lk a other => exact lockExisting_acts st now fh lk a other
  | lockU now fh lk a other => exact lockU_acts st now fh lk a other
  | releaseLockOwner now id key =>
    rcases releaseLockOwner_outcomes st now id key with hr | ⟨-, o, hr⟩
    · exact .renews hr
    · exact ⟨st, _, .refl st, .dropLocks o, hr⟩
  | delegReturn now q other p =>
    rcases returnDelegation_outcomes st now q other p with he | ⟨hd, hr⟩
    · simp only [step, he]
      exact .of_act .none
    · exact ⟨st, _, .refl st, .returned _ hd, hr⟩
  | sweep now => exact .of_act (.sweep now rfl)

theorem step_cases (st : Store) (r : Request) :
    Around (Act r.kind) st (step st r) ∨ Around OpenAct st (step st r) := by
  by_cases hopen : ∃ now fh a env, r = .openFile now fh a env
  · obtain ⟨now, fh, a, env, rfl⟩ := hopen
    exact .inr (openFile_acts st now fh a env)
  by_cases hdown : ∃ now fh a file, r = .openDowngrade now fh a file
  · obtain ⟨now, fh, a, file, rfl⟩ := hdown
    exact .inr (openDowngrade_acts st now fh a file)
  exact .inl (step_acts st r (fun now fh a env he => hopen ⟨now, fh, a, env, he⟩)
    fun now fh a file he => hdown ⟨now, fh, a, file, he⟩)

theorem step_inv (h : Inv st.toTables) (r : Request) : Inv (step st r).toTables := by
  rcases step_cases st r with ⟨st₁, st₂, h₁, ha, h₂⟩ | ⟨st₁, st₂, h₁, ha, h₂⟩
  · rw [h₂.tables]
    exact act_inv (h₁.tables ▸ h) ha
  · rw [h₂.tables]
    exact openAct_inv (h₁.tables ▸ h) ha

end Steps

theorem new_inv (cfg : Config) : Inv (newStateStore cfg).toTables where
  opens := ⟨by simp [newStateStore], Indexes.empty _, by simp [newStateStore],
    by simp [newStateStore], by simp [newStateStore]⟩
  locks := ⟨by simp [newStateStore], Indexes.empty _, by simp [newStateStore],
    by simp [newStateStore], by simp [newStateStore], by simp [newStateStore]⟩
  backed := by simp [newStateStore]

theorem serve_inv (cfg : Config) (rs : List Request) : Inv (serve cfg rs).toTables := by
  have hfold : ∀ st : Store, Inv st.toTables → Inv (rs.foldl step st).toTables := by
    induction rs with
    | nil =>
      intro st h
      exact h
    | cons r rs ih =>
      intro st h
      exact ih (step st r) (step_inv h r)
  exact hfold _ (new_inv cfg)

theorem exclusion_of_inv {t : Tables} (h : Inv t) : Exclusion t where
  share := h.opens.share
  openUnique := h.opens.unique
  ranges l hl m hm hp ho r hr s hs hw x hrx hsx := by
    have ht := h.locks.types_false hm hl hp ho ⟨s, hs, rfl, hsx⟩ ⟨r, hr, rfl, hrx⟩
    rw [ht.1, ht.2] at hw
    simp at hw
  lockUnique := h.locks.unique
  canonical := h.locks.canonical
  mode l hl r hr := ⟨(h.backed l hl).live, (h.backed l hl).mode r hr⟩

/-- Owners exclude each other in every state a server reaches. -/
theorem serve_exclusion (cfg : Config) (rs : List Request) : Exclusion (serve cfg rs).toTables :=
  exclusion_of_inv (serve_inv cfg rs)

end NfsExclusion
