import FacetFS.NfsOps

/-! # The outcomes of the stateful operations

Most branches of an operation change nothing but lease times and owner records. For each
operation there is one lemma that lists what else it can do, with the checks it made first.
What holds of all operations is proved once for each kind of act, or for the moves it is made
of. -/
namespace NfsOutcomes

open NfsSeqid NfsLockRange GroupIndex NfsStore NfsOps

/-- The parts of a client record that a lease renewal or a new owner leaves alone. -/
structure SameClient (c c' : Client) : Prop where
  ownerID : c'.ownerID = c.ownerID
  confirmVerf : c'.confirmVerf = c.confirmVerf
  principal : c'.principal = c.principal
  opens : c'.opens = c.opens
  delegs : c'.delegs = c.delegs

/-- Two stores that differ in lease times, owners and tombstones only. -/
structure Touched (st st' : Store) : Prop where
  tables : st'.toTables = st.toTables
  nextClient : st'.nextClient = st.nextClient
  confirmed : st'.confirmed = st.confirmed
  unconfirmed : st'.unconfirmed = st.unconfirmed
  byOwner : st'.byOwner = st.byOwner
  delegs : st'.delegs = st.delegs
  delegation : st'.delegation = st.delegation
  delegsByPath : st'.delegsByPath = st.delegsByPath
  client : ∀ c, SameClient (st.client c) (st'.client c)

theorem SameClient.refl (c : Client) : SameClient c c := ⟨rfl, rfl, rfl, rfl, rfl⟩

theorem SameClient.trans {a b c} (h : SameClient a b) (h' : SameClient b c) : SameClient a c where
  ownerID := h'.ownerID.trans h.ownerID
  confirmVerf := h'.confirmVerf.trans h.confirmVerf
  principal := h'.principal.trans h.principal
  opens := h'.opens.trans h.opens
  delegs := h'.delegs.trans h.delegs

/-- Two stores that differ in lease times and owners only. -/
def Renews (st st' : Store) : Prop :=
  ∃ clients owners n, (∀ c, SameClient (st.client c) (clients c)) ∧
    st' = { st with client := clients, owner := owners, nextOwner := n }

variable {st st' st₂ : Store}

namespace Renews

theorem refl (st : Store) :
    Renews st st := ⟨st.client, st.owner, st.nextOwner, fun _ => .refl _, rfl⟩

theorem trans (h : Renews st st') (h' : Renews st' st₂) : Renews st st₂ := by
  obtain ⟨_, _, _, hc, rfl⟩ := h
  obtain ⟨clients, owners, n, hc', rfl⟩ := h'
  exact ⟨clients, owners, n, fun c => (hc c).trans (hc' c), rfl⟩

theorem setClient (st : Store) {c v} (h : SameClient (st.client c) v) :
    Renews st (st.setClient c v) := by
  refine ⟨_, st.owner, st.nextOwner, fun d => ?_, rfl⟩
  by_cases hd : d = c
  · subst hd
    simpa using h
  · simpa [hd] using SameClient.refl (st.client d)

theorem renew (st : Store) (c : ClientID) (now : ℕ) : Renews st (st.renewClient c now) :=
  setClient st ⟨rfl, rfl, rfl, rfl, rfl⟩

theorem owners (st : Store) (f : OwnerRef → Owner) : Renews st { st with owner := f } :=
  ⟨st.client, f, st.nextOwner, fun _ => .refl _, rfl⟩

theorem tables (h : Renews st st') : st'.toTables = st.toTables := by
  obtain ⟨_, _, _, -, rfl⟩ := h
  rfl

theorem closed (h : Renews st st') : st'.closed = st.closed := by
  obtain ⟨_, _, _, -, rfl⟩ := h
  rfl

theorem touched (h : Renews st st') : Touched st st' := by
  obtain ⟨_, _, _, hc, rfl⟩ := h
  exact ⟨rfl, rfl, rfl, rfl, rfl, rfl, rfl, rfl, hc⟩

end Renews

theorem Touched.closeFile (st : Store) (f : Option OpenFile) : Touched st (st.closeFile f) :=
  ⟨rfl, rfl, rfl, rfl, rfl, rfl, rfl, rfl, fun _ => .refl _⟩

section Lookups

variable (st : Store)

theorem ownerIn_renews (now : ℕ) (id : ClientID) (lock : Bool) (key : Bytes) :
    Renews st (st.ownerIn now id lock key).2 := by
  have hnew : ∀ v f n, SameClient ((st.renewClient id now).client id) v →
      Renews st { (st.renewClient id now).setClient id v with owner := f, nextOwner := n } := by
    intro v f n hv
    obtain ⟨clients, _, _, hc, he⟩ := (Renews.renew st id now).trans (.setClient _ hv)
    exact ⟨clients, f, n, hc, by rw [he]⟩
  unfold Store.ownerIn
  split
  · exact .refl st
  cases lock with
  | false =>
    simp only [Bool.false_eq_true, if_false]
    split
    · exact .renew st id now
    split
    · exact .renew st id now
    · exact hnew _ _ _ ⟨rfl, rfl, rfl, rfl, rfl⟩
  | true =>
    simp only [if_true]
    split
    · exact .renew st id now
    split
    · exact .renew st id now
    · exact hnew _ _ _ ⟨rfl, rfl, rfl, rfl, rfl⟩

theorem ownerForStateid_renews (now : ℕ) (other : Other) :
    Renews st (st.ownerForStateid now other).2 := by
  unfold Store.ownerForStateid
  split
  · exact .refl st
  split
  · exact .refl st
  · exact .renew st _ now

theorem openOwnerForStateid_renews (now : ℕ) (other : Other) :
    Renews st (st.openOwnerForStateid now other).2 := by
  unfold Store.openOwnerForStateid
  split
  · exact .refl st
  split
  · exact .refl st
  · exact .renew st _ now

theorem resolveStateid_renews (now : ℕ) (seq : UInt32) (other : Other) (p : Path) :
    Renews st (st.resolveStateid now seq other p).2 := by
  unfold Store.resolveStateid
  split
  · split <;> exact .refl st
  split
  · exact .refl st
  split
  · exact .refl st
  simp only
  split
  · exact .renew st _ now
  · split <;> exact .renew st _ now

theorem resolveLockStateid_renews (now : ℕ) (seq : UInt32) (other : Other) (p : Path) :
    Renews st (st.resolveLockStateid now seq other p).2 := by
  unfold Store.resolveLockStateid
  split
  · exact .refl st
  split
  · exact .refl st
  simp only
  split
  · exact .renew st _ now
  · split <;> exact .renew st _ now

end Lookups

/-- What CLOSE does to the store. -/
def closeState (st : Store) (o : OwnerRef) (k now : ℕ) : Store :=
  let held := st.openState k
  let c := st.client held.client
  ((st.setTables (closeTables st.toTables o k)).setClient held.client
    { c with opens := c.opens - 1, lastRenew := now }).closeFile held.file

def lockThrough (st : Store) (k : ℕ) (o : OwnerRef) (rng : LockRange) : Store :=
  st.setTables (st.toTables.installLock
    { seq := 1, client := (st.openState k).client, owner := o, opened := k
      path := (st.openState k).path, ranges := [rng] })

def setRanges (st : Store) (l : ℕ) (ranges : List LockRange) : Store :=
  st.setTables (st.toTables.setLock l
    { st.lockState l with ranges := ranges, seq := (st.lockState l).seq + 1 })

def dropLocks (st : Store) (o : OwnerRef) : Store :=
  st.setTables ((st.locks.filter fun l => (st.lockState l).owner = o).foldl
    (fun t l => (t.removeLock l).forgetOwner l) st.toTables)

/-- The checks before a lock-owner gets its first range through an open state. -/
structure NewLock (t : Tables) (k : ℕ) (o : OwnerRef) (rng : LockRange) : Prop where
  live : k ∈ t.opens
  client : (t.openState k).client = o.client
  mode : Tables.modeAllows (t.openState k).access rng.write = true
  unique : t.findLockState (t.openState k).path o = none
  free : t.lockConflict (t.openState k).path o rng = none
  nonEmpty : NonEmpty rng

/-- The checks before a lock state gets another range. -/
structure MoreLock (t : Tables) (l : ℕ) (o : OwnerRef) (rng : LockRange) : Prop where
  live : l ∈ t.locks
  mode : Tables.modeAllows (t.openState (t.lockState l).opened).access rng.write = true
  free : t.lockConflict (t.lockState l).path o rng = none
  room : (setLockRange (t.lockState l).ranges rng).length ≤ maxLockRanges
  nonEmpty : NonEmpty rng

section Bodies

variable (st : Store)

variable (now : ℕ) (plan : OpenPlan)

theorem sequenced_renews (o : OwnerRef) (opnum seqid : UInt32) (body : Store → BodyResult × Store) :
    Renews st (sequenced st o opnum seqid body).2 ∨
      Renews (body st).2 (sequenced st o opnum seqid body).2 := by
  obtain ⟨f, he | he⟩ := sequenced_cases st o opnum seqid body
  · rw [he]
    exact .inl (.owners st f)
  · rw [he]
    exact .inr (.owners _ f)

theorem withTwoSeqids_renews (openOwner lockOwner : OwnerRef) (openSeq lockSeq : UInt32)
    (body : Store → BodyResult × Store) :
    Renews st (withTwoSeqids st openOwner lockOwner openSeq lockSeq body).2 ∨
      Renews (body st).2 (withTwoSeqids st openOwner lockOwner openSeq lockSeq body).2 := by
  obtain ⟨f, he | he⟩ := withTwoSeqids_cases st openOwner lockOwner openSeq lockSeq body
  · rw [he]
    exact .inl (.owners st f)
  · rw [he]
    exact .inr (.owners _ f)

theorem byStateid_outcomes (other : Other) (opnum seqid : UInt32)
    (body : OwnerRef → Store → BodyResult × Store) :
    Renews st (byStateid st now other opnum seqid body).2 ∨
      ∃ o st₁, Renews st st₁ ∧ st.stateOwners other.count = some o ∧
        Renews (body o st₁).2 (byStateid st now other opnum seqid body).2 := by
  have hrenew := ownerForStateid_renews st now other
  unfold byStateid
  split
  · rename_i he
    rw [he] at hrenew
    exact .inl hrenew
  rename_i o st₁ he
  have hs := Store.ownerForStateid_ok (congrArg Prod.fst he)
  rw [he] at hrenew
  rcases sequenced_renews st₁ o opnum seqid (body o) with h | h
  · exact .inl (hrenew.trans h)
  · exact .inr ⟨o, st₁, hrenew, hs, h⟩

theorem openConfirmBody_renews (fh : Option Path) (stateSeq : UInt32)
    (other : Other) (o : OwnerRef) : Renews st (openConfirmBody now fh stateSeq other o st).2 := by
  unfold openConfirmBody
  split
  · exact .refl st
  simp only
  split
  · exact .refl st
  split
  · exact .refl st
  split
  · exact .refl st
  · exact (Renews.owners st _).trans (.renew _ _ now)

theorem downgradeCheck_renews (fh : Option Path) (a : DowngradeArgs) :
    Renews st (downgradeCheck st now fh a).2 := by
  unfold downgradeCheck
  split
  · exact .refl st
  rename_i p
  split
  · exact .refl st
  have h := resolveStateid_renews st now a.stateSeq a.other p
  split
  · rename_i he
    rwa [he] at h
  · rename_i he
    rwa [he] at h
  rename_i he
  rw [he] at h
  simp only
  split
  · exact h
  · split <;> exact h

/-- A downgrade that passes its checks asks for a part of what it holds on its file. -/
theorem downgradeCheck_ok {st now fh a b} (h : (downgradeCheck st now fh a).1 = .ok b) :
    a.access &&& (st.openState a.other.count).access = a.access ∧
      a.deny &&& (st.openState a.other.count).deny = a.deny ∧
      fh = some (st.openState a.other.count).path := by
  unfold downgradeCheck at h
  split at h
  · cases h
  rename_i p
  split at h
  · cases h
  have ht := (resolveStateid_renews st now a.stateSeq a.other p).tables
  split at h
  · cases h
  · cases h
  rename_i k st' he
  have hk := Store.resolveStateid_some (congrArg Prod.fst he)
  rw [he] at ht
  simp only at h ht
  split at h
  · cases h
  rename_i hsub
  obtain ⟨rfl, -, hp, -⟩ := hk
  rw [ht] at hsub
  simp only [not_or, not_not] at hsub
  exact ⟨hsub.1, hsub.2, congrArg some hp.symm⟩

theorem closeBody_outcomes (fh : Option Path) (stateSeq : UInt32) (other : Other)
    (closeOK : Bool) (o : OwnerRef) :
    Renews st (closeBody now fh stateSeq other closeOK o st).2 ∨
      ∃ st₁, Renews st st₁ ∧ other.count ∈ st.opens ∧
        st.toTables.locksBlockClose other.count = false ∧
        (closeBody now fh stateSeq other closeOK o st).2 = closeState st₁ o other.count now := by
  unfold closeBody
  split
  · exact .inl (.refl st)
  rename_i p
  have hrenew := resolveStateid_renews st now stateSeq other p
  split
  · rename_i he
    rw [he] at hrenew
    exact .inl hrenew
  · rename_i he
    rw [he] at hrenew
    exact .inl hrenew
  rename_i k st₁ he
  obtain ⟨rfl, hlive, -, -⟩ := Store.resolveStateid_some (congrArg Prod.fst he)
  rw [he] at hrenew
  change Renews st st₁ at hrenew
  simp only
  split
  · exact .inl hrenew
  rename_i hblock
  rw [Bool.not_eq_true, hrenew.tables] at hblock
  refine .inr ⟨st₁, hrenew, hlive, hblock, ?_⟩
  split <;> rfl

theorem lockTarget_ok {a fh lookup r} (h : lockTarget a fh lookup = .ok r) : NonEmpty r.1 := by
  unfold lockTarget at h
  split at h
  · cases h
  split at h
  · cases h
  rename_i hr
  split at h
  · cases h
  cases hf : lockFH fh lookup with
  | error e =>
    rw [hf] at h
    cases h
  | ok p =>
    rw [hf] at h
    cases h
    exact (makeLockRange_nonEmpty hr).1

theorem lockNewBody_outcomes (fh : Option Path) (lookup : Except NfsStat Kind)
    (a : LockArgs) (openOther : Other) (openOwner lockOwner : OwnerRef) :
    Renews st (lockNewBody now fh lookup a openOther openOwner lockOwner st).2 ∨
      (lockNewBody now fh lookup a openOther openOwner lockOwner st).1.status = nfs4OK ∧
      ∃ st₁ k rng, Renews st st₁ ∧ NewLock st.toTables k lockOwner rng ∧
        (lockNewBody now fh lookup a openOther openOwner lockOwner st).2 =
          lockThrough st₁ k lockOwner rng := by
  unfold lockNewBody
  split
  · exact .inl (.refl st)
  rename_i rng p htarget
  have hrenew := resolveStateid_renews st now a.stateSeq openOther p
  split
  · rename_i he
    rw [he] at hrenew
    exact .inl hrenew
  · rename_i he
    rw [he] at hrenew
    exact .inl hrenew
  rename_i k st₁ he
  obtain ⟨-, hlive, rfl, -⟩ := Store.resolveStateid_some (congrArg Prod.fst he)
  rw [he] at hrenew
  change Renews st st₁ at hrenew
  simp only [hrenew.tables]
  split
  · exact .inl hrenew
  rename_i hown
  rw [not_or, not_not, not_not] at hown
  split
  · exact .inl hrenew
  rename_i hmode
  split
  · exact .inl hrenew
  rename_i hfind
  split
  · exact .inl hrenew
  rename_i hfree
  refine .inr ⟨rfl, st₁, k, rng, hrenew, ⟨hlive, hown.2, by simpa using hmode, ?_,
    hfree, lockTarget_ok htarget⟩, ?_⟩
  · simpa using hfind
  · rw [lockThrough, hrenew.tables]

theorem lockExistingBody_outcomes (fh : Option Path) (lookup : Except NfsStat Kind)
    (a : LockArgs) (other : Other) (lockOwner : OwnerRef) :
    Renews st (lockExistingBody now fh lookup a other lockOwner st).2 ∨
      (lockExistingBody now fh lookup a other lockOwner st).1.status = nfs4OK ∧
      ∃ st₁ rng, Renews st st₁ ∧ MoreLock st.toTables other.count lockOwner rng ∧
        Renews (setRanges st₁ other.count (setLockRange (st₁.lockState other.count).ranges rng))
          (lockExistingBody now fh lookup a other lockOwner st).2 := by
  unfold lockExistingBody
  split
  · exact .inl (.refl st)
  rename_i rng p htarget
  have hrenew := resolveLockStateid_renews st now a.stateSeq other p
  split
  · rename_i he
    rw [he] at hrenew
    exact .inl hrenew
  rename_i l st₁ he
  obtain ⟨rfl, hlive, rfl⟩ := Store.resolveLockStateid_ok (congrArg Prod.fst he)
  rw [he] at hrenew
  change Renews st st₁ at hrenew
  simp only
  split
  · exact .inl hrenew
  split
  · exact .inl hrenew
  rename_i hmode
  split
  · exact .inl hrenew
  rename_i hfree
  split
  · exact .inl hrenew
  rename_i hroom
  refine .inr ⟨rfl, st₁, rng, hrenew, ?_, .renew _ _ now⟩
  rw [← hrenew.tables] at hlive hfree ⊢
  exact ⟨hlive, by simpa using hmode, hfree, Nat.le_of_not_gt hroom,
    lockTarget_ok htarget⟩

theorem lockUBody_outcomes (fh : Option Path) (lookup : Except NfsStat Kind)
    (a : LockArgs) (other : Other) :
    Renews st (lockUBody now fh lookup a other st).2 ∨
      (lockUBody now fh lookup a other st).1.status = nfs4OK ∧
      ∃ st₁ rng, Renews st st₁ ∧ other.count ∈ st.locks ∧ a.range false = .ok rng ∧
        Renews (setRanges st₁ other.count (subtractRange (st₁.lockState other.count).ranges rng))
          (lockUBody now fh lookup a other st).2 := by
  unfold lockUBody
  split
  · exact .inl (.refl st)
  · exact .inl (.refl st)
  · exact .inl (.refl st)
  rename_i rng p _ hrng _
  have hrenew := resolveLockStateid_renews st now a.stateSeq other p
  split
  · rename_i he
    rw [he] at hrenew
    exact .inl hrenew
  rename_i l st₁ he
  obtain ⟨rfl, hlive, -⟩ := Store.resolveLockStateid_ok (congrArg Prod.fst he)
  rw [he] at hrenew
  simp only
  split
  · exact .inl hrenew
  · exact .inr ⟨rfl, st₁, rng, hrenew, hlive, hrng, .renew _ _ now⟩

theorem releaseLockOwner_outcomes (clientID : ClientID) (ownerID : Bytes) :
    Renews st (releaseLockOwner st now clientID ownerID).2 ∨
      (releaseLockOwner st now clientID ownerID).1 = nfs4OK ∧
        ∃ o, Renews (dropLocks st o) (releaseLockOwner st now clientID ownerID).2 := by
  unfold releaseLockOwner
  split
  · exact .inl (.refl st)
  have hrenew := Renews.renew st clientID now
  simp only
  split
  · exact .inl hrenew
  rename_i n _
  split
  · exact .inl hrenew
  refine .inr ⟨rfl, ⟨clientID, true, ownerID, n⟩, ?_⟩
  exact (Renews.renew (dropLocks st ⟨clientID, true, ownerID, n⟩) clientID now).trans
    (.setClient _ ⟨rfl, rfl, rfl, rfl, rfl⟩)

theorem returnDelegation_outcomes (seq : UInt32) (other : Other) (p : Path) :
    (st.returnDelegation now seq other p).2 = st ∨ other.count ∈ st.delegs ∧
      Renews (st.dropDelegation other.count) (st.returnDelegation now seq other p).2 := by
  unfold Store.returnDelegation
  split
  · exact .inl rfl
  split
  · exact .inl rfl
  split
  · exact .inl rfl
  rename_i hlive
  simp only
  split
  · exact .inl rfl
  split
  · exact .inl rfl
  · exact .inr ⟨not_not.1 hlive, .renew _ _ now⟩

theorem openFiles_outcomes (a : OpenArgs) (env : OpenEnv) :
    ∃ f, (openFiles st plan a env).2 = st.closeFile f := by
  unfold openFiles
  split
  · exact ⟨none, rfl⟩
  simp only
  split
  · exact ⟨_, rfl⟩
  · exact ⟨none, rfl⟩

theorem openInstall_outcomes (f : Option OpenFile) :
    (openInstall st now plan f).2 = st.closeFile f ∨
      st.toTables.shareConflict plan.target plan.owner plan.access plan.deny = false ∧
      (st.toTables.findOpen plan.target plan.owner = none ∧
          (openInstall st now plan f).2 =
            (openGrant (openNew st plan f) now plan (st.nextOther + 1)).2 ∨
        ∃ k, st.toTables.findOpen plan.target plan.owner = some k ∧
          (openInstall st now plan f).2 = (openGrant (openUpgrade st plan f k) now plan k).2) := by
  unfold openInstall
  split
  · exact .inl rfl
  rename_i hfree
  rw [Bool.not_eq_true] at hfree
  cases hf : st.toTables.findOpen plan.target plan.owner with
  | none =>
    simp only
    split
    · exact .inl rfl
    · exact .inr ⟨hfree, .inl ⟨trivial, rfl⟩⟩
  | some k => exact .inr ⟨hfree, .inr ⟨k, rfl, rfl⟩⟩

/-- What an OPEN_DOWNGRADE puts in place of a live open state. -/
structure Narrower (t : Tables) (k : ℕ) (s : OpenState) : Prop where
  live : k ∈ t.opens
  path : s.path = (t.openState k).path
  owner : s.owner = (t.openState k).owner
  client : s.client = (t.openState k).client
  access : s.access &&& (t.openState k).access = s.access
  deny : s.deny &&& (t.openState k).deny = s.deny
  unblocked : t.locksBlockDowngrade k s.access = false

theorem openDowngradeBody_outcomes (fh : Option Path) (a : DowngradeArgs)
    (file : Except NfsStat ℕ) :
    (∃ st₁ f, Renews st st₁ ∧ (openDowngradeBody now fh a file st).2 = st₁.closeFile f) ∨
      (openDowngradeBody now fh a file st).1.status = nfs4OK ∧
      ∃ st₁ k s f, Renews st st₁ ∧ Narrower st₁.toTables k s ∧
        Renews ((st₁.setTables (st₁.toTables.setOpen k s)).closeFile f)
          (openDowngradeBody now fh a file st).2 := by
  have hrenew := downgradeCheck_renews st now fh a
  unfold openDowngradeBody
  split
  · rename_i e st₁ he
    rw [he] at hrenew
    exact .inl ⟨st₁, none, hrenew, rfl⟩
  rename_i needOpen st₁ he
  obtain ⟨hacc, hdeny, -⟩ := downgradeCheck_ok (congrArg Prod.fst he)
  rw [he] at hrenew
  change Renews st st₁ at hrenew
  rw [← hrenew.tables] at hacc hdeny
  split
  · exact .inl ⟨st₁, none, hrenew, rfl⟩
  unfold downgradeInstall
  simp only
  split
  · exact .inl ⟨st₁, _, hrenew, rfl⟩
  rename_i hlive
  split
  · exact .inl ⟨st₁, _, hrenew, rfl⟩
  rename_i hblock
  rw [not_or, not_not] at hlive
  refine .inr ⟨rfl, st₁, a.other.count, _, _, hrenew, ?_,
    .renew (Store.closeFile _ _) _ now⟩
  exact ⟨hlive.1, rfl, rfl, rfl, hacc, hdeny, by simpa using hblock⟩

end Bodies

/-- Some operations may change which clients there are, and LOCKU may cut ranges. -/
inductive ActKind where
  | clients | cuts | plain

/-- What an operation other than OPEN and OPEN_DOWNGRADE does between two lookups. -/
inductive Act (kind : ActKind) (st : Store) : Store → Prop where
  | none : Act kind st st
  | setClientID (now : ℕ) (ownerID : Bytes) (verifier confirmVerf : UInt64) (principal : String)
      (hc : kind = .clients) :
      Act kind st (st.setClientID now ownerID verifier confirmVerf principal).2
  | confirm (now : ℕ) (id : ClientID) (verf : UInt64) (hc : kind = .clients) :
      Act kind st (st.confirmClientID now id verf).2
  | sweep (now : ℕ) (hc : kind = .clients) : Act kind st (st.sweepExpired now)
  | returned (d : ℕ) (hd : d ∈ st.delegs) : Act kind st (st.dropDelegation d)
  | close (o : OwnerRef) (k now : ℕ) (hk : k ∈ st.opens) (ho : st.stateOwners k = some o)
      (hb : st.toTables.locksBlockClose k = false) : Act kind st (closeState st o k now)
  | lock (k : ℕ) (o : OwnerRef) (rng : LockRange) (ho : o.lock = true)
      (h : NewLock st.toTables k o rng) : Act kind st (lockThrough st k o rng)
  | relock (l : ℕ) (o : OwnerRef) (rng : LockRange) (ho : st.stateOwners l = some o)
      (h : MoreLock st.toTables l o rng) :
      Act kind st (setRanges st l (setLockRange (st.lockState l).ranges rng))
  | unlock (l : ℕ) (rng : LockRange) (hc : kind = .cuts) (hl : l ∈ st.locks)
      (hr : NonEmpty rng) :
      Act kind st (setRanges st l (subtractRange (st.lockState l).ranges rng))
  | dropLocks (o : OwnerRef) : Act kind st (dropLocks st o)

section Releases

variable (st : Store)

theorem foldl_release {I : Tables → Prop} (hI : ∀ t c, I t → I (t.release c)) (cs : List ClientID)
    {t : Tables} (h : I t) : I (cs.foldl Tables.release t) := by
  induction cs generalizing t with
  | nil => exact h
  | cons c cs ih => exact ih (hI t c h)

theorem confirmClientID_tables (now : ℕ) (id : ClientID) (verf : UInt64) : ∃ cs : List ClientID,
      (st.confirmClientID now id verf).2.toTables = cs.foldl Tables.release st.toTables := by
  unfold Store.confirmClientID
  split
  · simp only [Store.renewClient_tables]
    split
    · rename_i old _
      exact ⟨[old], Store.release_tables _ old⟩
    · exact ⟨[], rfl⟩
  · split <;> exact ⟨[], rfl⟩

theorem sweepExpired_tables (now : ℕ) :
    ∃ cs : List ClientID, (st.sweepExpired now).toTables = cs.foldl Tables.release st.toTables := by
  have hfold : ∀ (cs : List ClientID) (st : Store),
      (cs.foldl (Store.expire now) st).toTables = cs.foldl Tables.release st.toTables := by
    intro cs
    induction cs with
    | nil =>
      intro st
      rfl
    | cons c cs ih =>
      intro st
      rw [List.foldl_cons, ih, List.foldl_cons]
      simp only [Store.expire, Store.release_tables]
      rfl
  have hrevoke : ((st.pruneTombstones now).revokeTimedOut now).toTables = st.toTables :=
    Store.foldl_keeps Store.toTables (fun st d => Store.revokeDelegation_tables st d now) _ _
  rw [← hrevoke]
  exact ⟨_, hfold _ _⟩

end Releases

/-- What the checks of OPEN have made sure of when it installs its state. -/
structure Planned (st : Store) (plan : OpenPlan) (a : OpenArgs) : Prop where
  confirmed : plan.owner.client ∈ st.confirmed
  lock : plan.owner.lock = false
  free : st.toTables.shareConflict plan.target plan.owner plan.access plan.deny = false
  access : ∀ k, st.toTables.findOpen plan.target plan.owner = some k →
    plan.access = (st.openState k).access ||| a.access

inductive OpenAct (st : Store) : Store → Prop where
  | none : OpenAct st st
  | recalled (now : ℕ) (plan : OpenPlan) (a : OpenArgs) (f : Option OpenFile) :
      OpenAct st ((openRecall st now plan a).2.closeFile f)
  | opened (now : ℕ) (plan : OpenPlan) (a : OpenArgs) (f : Option OpenFile) (h : Planned st plan a)
      (hn : st.toTables.findOpen plan.target plan.owner = Option.none) :
      OpenAct st (openGrant (openNew (openRecall st now plan a).2 plan f) now plan
        ((openRecall st now plan a).2.nextOther + 1)).2
  | upgraded (now : ℕ) (plan : OpenPlan) (a : OpenArgs) (f : Option OpenFile) (k : ℕ)
      (h : Planned st plan a) (hk : st.toTables.findOpen plan.target plan.owner = some k) :
      OpenAct st (openGrant (openUpgrade (openRecall st now plan a).2 plan f k) now plan k).2
  | kept (f : Option OpenFile) : OpenAct st (st.closeFile f)
  | downgraded (k : ℕ) (s : OpenState) (f : Option OpenFile) (h : Narrower st.toTables k s) :
      OpenAct st ((st.setTables (st.toTables.setOpen k s)).closeFile f)

/-- One act, with lookups before and after. -/
def Around (A : Store → Store → Prop) (st st' : Store) : Prop :=
  ∃ st₁ st₂, Renews st st₁ ∧ A st₁ st₂ ∧ Renews st₂ st'

section Requests

variable {A : Store → Store → Prop} {kind : ActKind} (st : Store)

theorem Around.of_act {st} (h : A st st') : Around A st st' :=
  ⟨st, st', .refl st, h, .refl st'⟩

theorem Around.renews {st} (h : Renews st st') : Around (Act kind) st st' :=
  ⟨st, st, .refl st, .none, h⟩

theorem byStateid_around {now other opnum seqid body} (hnone : ∀ st, A st st)
    (hb : ∀ o st₁, st₁.stateOwners other.count = some o → Around A st₁ (body o st₁).2) :
    Around A st (byStateid st now other opnum seqid body).2 := by
  rcases byStateid_outcomes st now other opnum seqid body with hr | ⟨o, st₁, hr, hs, hr'⟩
  · exact ⟨st, st, .refl st, hnone st, hr⟩
  rw [← hr.tables] at hs
  obtain ⟨st₂, st₃, h₂, ha, h₃⟩ := hb o st₁ hs
  exact ⟨st₂, st₃, hr.trans h₂, ha, h₃.trans hr'⟩

theorem lockNew_acts (now : ℕ) (fh : Option Path) (lookup : Except NfsStat Kind) (a : LockArgs)
    (openSeq : UInt32) (openOther : Other) (clientID : ClientID) (ownerID : Bytes) :
    Around (Act .plain) st (lockNew st now fh lookup a openSeq openOther clientID ownerID).2 := by
  have h₁ := openOwnerForStateid_renews st now openOther
  unfold lockNew Store.lockOwnerOf
  split
  · rename_i he
    rw [he] at h₁
    exact .renews h₁
  rename_i openOwner st₁ he
  rw [he] at h₁
  change Renews st st₁ at h₁
  have h₂ := h₁.trans (ownerIn_renews st₁ now clientID true ownerID)
  rcases st₁.ownerIn_cases now clientID true ownerID with ⟨e, he'⟩ | ⟨-, r, st₂, he', -, hr⟩
  · rw [he']
    exact .renews h₁
  rw [he'] at h₂ ⊢
  change Renews st st₂ at h₂
  cases r with
  | error e => exact .renews h₂
  | ok lockOwner =>
    rcases withTwoSeqids_renews st₂ openOwner lockOwner openSeq a.lockSeq
      (lockNewBody now fh lookup a openOther openOwner lockOwner) with h₃ | h₃
    · exact .renews (h₂.trans h₃)
    rcases lockNewBody_outcomes st₂ now fh lookup a openOther openOwner lockOwner with
      h | ⟨-, st₃, k, rng, h, hnew, he''⟩
    · exact .renews (h₂.trans (h.trans h₃))
    rw [he''] at h₃
    rw [← h.tables] at hnew
    exact ⟨st₃, _, h₂.trans h, .lock k lockOwner rng (hr lockOwner rfl).2 hnew, h₃⟩

theorem openWith_acts {o} (hc : o.client ∈ st.confirmed) (hl : o.lock = false) (now : ℕ)
    (fh : Option Path) (a : OpenArgs) (env : OpenEnv) :
    OpenAct st (openWith now fh o a env st).2 := by
  unfold openWith
  split
  · exact .none
  split
  · exact .none
  rename_i target _ _ plan hplan
  obtain ⟨rfl, rfl, hacc⟩ := openCheck_ok hplan
  have ht := openRecall_tables st now plan a
  obtain ⟨f, hf⟩ := openFiles_outcomes (openRecall st now plan a).2 plan a env
  simp only [openFinish]
  split
  · exact .recalled now plan a none
  split
  · rename_i he
    rw [he] at hf
    rw [hf]
    exact .recalled now plan a f
  rename_i handle st₂ he
  have hst : st₂ = (openRecall st now plan a).2 := by
    unfold openFiles at he
    split at he
    · cases he
    dsimp only at he
    split at he
    · cases he
    · cases he
      rfl
  subst hst
  have hall : OpenAct st (openInstall (openRecall st now plan a).2 now plan handle).2 := by
    rcases openInstall_outcomes (openRecall st now plan a).2 now plan handle with
      hi | ⟨hfree, ⟨hn, hi⟩ | ⟨k, hk, hi⟩⟩
    · rw [hi]
      exact .recalled now plan a handle
    · rw [hi]
      rw [ht] at hfree hn
      exact .opened now plan a handle ⟨hc, hl, hfree, hacc⟩ hn
    · rw [hi]
      rw [ht] at hfree hk
      exact .upgraded now plan a handle k ⟨hc, hl, hfree, hacc⟩ hk
  split <;> rename_i hi <;> rw [hi] at hall <;> exact hall

theorem openFile_acts (now : ℕ) (fh : Option Path) (a : OpenArgs) (env : OpenEnv) :
    Around OpenAct st (openFile st now fh a env).2 := by
  have hrenew := ownerIn_renews st now a.clientID false a.owner
  unfold openFile Store.ownerOf
  rcases st.ownerIn_cases now a.clientID false a.owner with ⟨e, he⟩ | ⟨hreg, r, st', he, -, hr⟩
  · rw [he]
    exact .of_act .none
  rw [he] at hrenew ⊢
  change Renews st st' at hrenew
  cases r with
  | error e => exact ⟨st, st, .refl st, .none, hrenew⟩
  | ok o =>
    obtain ⟨hclient, hlock⟩ := hr o rfl
    rw [← hclient, ← hrenew.touched.confirmed] at hreg
    rcases sequenced_renews st' o opOpen a.seqid (openWith now fh o a env) with h | h
    · exact ⟨st, st, .refl st, .none, hrenew.trans h⟩
    · exact ⟨st', _, hrenew, openWith_acts st' hreg hlock now fh a env, h⟩

theorem openDowngrade_acts (now : ℕ) (fh : Option Path) (a : DowngradeArgs)
    (file : Except NfsStat ℕ) : Around OpenAct st (openDowngrade st now fh a file).2 := by
  apply byStateid_around st fun _ => .none
  intro o st₁ _
  rcases openDowngradeBody_outcomes st₁ now fh a file with
    ⟨st₂, f, hr, he⟩ | ⟨-, st₂, k, s, f, hr, hs, hr'⟩
  · rw [he]
    exact ⟨st₂, _, hr, .kept f, .refl _⟩
  · exact ⟨st₂, _, hr, .downgraded k s f hs, hr'⟩

theorem close_acts (now : ℕ) (fh : Option Path) (seqid stateSeq : UInt32) (other : Other)
    (closeOK : Bool) : Around (Act .plain) st (close st now fh seqid stateSeq other closeOK).2 := by
  apply byStateid_around st fun _ => .none
  intro o st₁ hs
  rcases closeBody_outcomes st₁ now fh stateSeq other closeOK o with hr | ⟨st₂, hr, hk, hb, he⟩
  · exact .renews hr
  rw [he]
  rw [← hr.tables] at hk hb hs
  exact ⟨st₂, _, hr, .close o _ now hk hs hb, .refl _⟩

theorem lockExisting_acts (now : ℕ) (fh : Option Path) (lookup : Except NfsStat Kind) (a : LockArgs)
    (other : Other) : Around (Act .plain) st (lockExisting st now fh lookup a other).2 := by
  apply byStateid_around st fun _ => .none
  intro o st₁ hs
  rcases lockExistingBody_outcomes st₁ now fh lookup a other o with
    hr | ⟨-, st₂, rng, hr, hmore, hr'⟩
  · exact .renews hr
  · rw [← hr.tables] at hs hmore
    exact ⟨st₂, _, hr, .relock _ o rng hs hmore, hr'⟩

theorem lockU_acts (now : ℕ) (fh : Option Path) (lookup : Except NfsStat Kind) (a : LockArgs)
    (other : Other) : Around (Act .cuts) st (lockU st now fh lookup a other).2 := by
  apply byStateid_around st fun _ => .none
  intro o st₁ hs
  rcases lockUBody_outcomes st₁ now fh lookup a other with hr | ⟨-, st₂, rng, hr, hl, hrng, hr'⟩
  · exact .renews hr
  · rw [← hr.tables] at hl
    exact ⟨st₂, _, hr, .unlock _ rng rfl hl (makeLockRange_nonEmpty hrng).1, hr'⟩

end Requests

/-- The smallest changes that acts are made of. -/
inductive Move (st : Store) : Store → Prop where
  | renews {st' : Store} (h : Renews st st') : Move st st'
  | setClientID (now : ℕ) (ownerID : Bytes) (verifier confirmVerf : UInt64) (principal : String) :
      Move st (st.setClientID now ownerID verifier confirmVerf principal).2
  | register (id : ClientID) (f : Bytes → Option ClientID) :
      Move st { st with confirmed := id :: st.confirmed, byOwner := f }
  | books (us : List ClientID) (n : ℕ) (ex : ℕ → Option ℕ) (ids : ClientID → Option ℕ)
      (rv : ℕ → Option ℕ) : Move st
        { st with
          unconfirmed := us, lastSweep := n, expired := ex, expiredIDs := ids, revokedDelegs := rv }
  | drop (d : ℕ) : Move st (st.dropDelegation d)
  | mark (d now : ℕ) : Move st
      { st with
        delegation := Function.update st.delegation d
          { st.delegation d with recalling := true, recallAt := now } }
  | release (c : ClientID) : Move st (st.release c)
  | close (o : OwnerRef) (k now : ℕ) (hk : k ∈ st.opens) : Move st (closeState st o k now)
  | lock (k : ℕ) (o : OwnerRef) (rng : LockRange) (hk : k ∈ st.opens) : Move st (lockThrough st k o rng)
  | ranges (l : ℕ) (rs : List LockRange) : Move st (setRanges st l rs)
  | dropLocks (o : OwnerRef) : Move st (dropLocks st o)

abbrev Moves : Store → Store → Prop := Relation.ReflTransGen Move

section Moves

theorem foldl_moves {α : Type} {f} (hf : ∀ st a, Moves st (f st a))
    (l : List α) (st : Store) : Moves st (l.foldl f st) := by
  induction l generalizing st with
  | nil => exact .refl
  | cons a l ih => exact (hf st a).trans (ih (f st a))

variable (st : Store)

theorem revokeDelegation_moves (d now : ℕ) : Moves st (st.revokeDelegation d now) :=
  .head (.drop d) (.single (.books _ _ _ _ _))

theorem recallDelegations_moves (now : ℕ) (p : Path) (except : Option ClientID) :
    Moves st (st.recallDelegations now p except).2 := by
  refine Store.recallDelegations_rel (fun _ => .refl) (fun h h' => h.trans h') (fun r d => ?_) st p
  simp only [Store.recallOne]
  split
  · exact .refl
  split
  · exact revokeDelegation_moves _ _ _
  split
  · exact .refl
  · exact .single (.mark d now)

theorem openRecall_moves (now : ℕ) (plan : OpenPlan) (a : OpenArgs) :
    Moves st (openRecall st now plan a).2 := by
  unfold openRecall
  split
  · exact recallDelegations_moves st _ _ _
  · exact .refl

theorem confirmClientID_moves (now : ℕ) (id : ClientID) (verf : UInt64) :
    Moves st (st.confirmClientID now id verf).2 := by
  unfold Store.confirmClientID
  split
  · simp only
    have hpending : Move st { st with unconfirmed := st.unconfirmed.filter (· ≠ id) } :=
      .books _ _ _ _ _
    refine .head hpending ?_
    split
    · exact .head (.release _) (.head (.register id _) (.single (.renews (.renew _ id now))))
    · exact .head (.register id _) (.single (.renews (.renew _ id now)))
  · split
    · exact .single (.renews (.renew st id now))
    · exact .refl

theorem sweepExpired_moves (now : ℕ) : Moves st (st.sweepExpired now) := by
  have hrevoke : Moves (st.pruneTombstones now) ((st.pruneTombstones now).revokeTimedOut now) :=
    foldl_moves (fun st d => revokeDelegation_moves st d now) _ _
  have hexpire : ∀ st c, Moves st (Store.expire now st c) := fun st c =>
    .head (b := st.tombstone now c) (.books _ _ _ _ _) (.single (.release c))
  have hdrop : Move ((st.pruneTombstones now).revokeTimedOut now)
      (((st.pruneTombstones now).revokeTimedOut now).dropUnconfirmed now) := .books _ _ _ _ _
  exact .head (b := st.pruneTombstones now) (.books _ _ _ _ _)
    (hrevoke.trans (.head hdrop (foldl_moves hexpire _ _)))

variable {st} {kind : ActKind}

theorem Act.moves (h : Act kind st st') : Moves st st' := by
  cases h with
  | none => exact .refl
  | setClientID now ownerID v cv pr => exact .single (.setClientID now ownerID v cv pr)
  | confirm now id verf => exact confirmClientID_moves st now id verf
  | sweep now => exact sweepExpired_moves st now
  | returned d => exact .single (.drop d)
  | close o k now hk => exact .single (.close o k now hk)
  | lock k o rng _ h => exact .single (.lock k o rng h.live)
  | relock l => exact .single (.ranges l _)
  | unlock l => exact .single (.ranges l _)
  | dropLocks o => exact .single (.dropLocks o)

theorem Around.moves (h : Around (Act kind) st st') : Moves st st' := by
  obtain ⟨st₁, st₂, h₁, ha, h₂⟩ := h
  exact .head (.renews h₁) (ha.moves.tail (.renews h₂))

/-- What holds of every move and can be composed holds of every sequence of moves. -/
theorem Moves.rel {R : Store → Store → Prop} (hrefl : ∀ st, R st st)
    (htrans : ∀ {st₁ st₂ st₃}, R st₁ st₂ → R st₂ st₃ → R st₁ st₃)
    (hmove : ∀ {st st'}, Move st st' → R st st') (h : Moves st st') : R st st' := by
  induction h with
  | refl => exact hrefl st
  | tail _ hm ih => exact htrans ih (hmove hm)

end Moves

end NfsOutcomes
