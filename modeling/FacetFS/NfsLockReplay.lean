import FacetFS.EventSystem
import FacetFS.NfsExclusion

/-! # The reply that a repeated LOCK gets

The first LOCK of a lock-owner is sequenced by its open-owner and by its lock-owner, and its
reply is kept by both. A LOCK that repeats the last sequence ids of both is answered from the
open-owner. Beside the store, the state here remembers for every owner what the request carried
that last wrote its slot. -/
namespace NfsLockReplay

open NfsSeqid NfsStore NfsOps NfsTableInvariant NfsExclusion EventSystem

/-- The owners that a LOCK of a new lock-owner is sequenced by. -/
def lockOwners (st : Store) (now : ℕ) (openOther : Other) (clientID : ClientID) (ownerID : Bytes) :
    Except NfsStat (OwnerRef × OwnerRef) × Store :=
  match st.openOwnerForStateid now openOther with
  | (.error e, st) => (.error e, st)
  | (.ok openOwner, st) =>
    match st.lockOwnerOf now clientID ownerID with
    | (.error e, st) => (.error e, st)
    | (.ok lockOwner, st) => (.ok (openOwner, lockOwner), st)

structure Carried where
  openOwner : OwnerRef
  lockOwner : OwnerRef
  openSeq : UInt32
  lockSeq : UInt32
  deriving DecidableEq

/-- Only the LOCK of a new lock-owner carries two owners. -/
def carried (st : Store) : Request → Option Carried
  | .lockNew now _ _ a openSeq openOther clientID ownerID =>
    match (lockOwners st now openOther clientID ownerID).1 with
    | .error _ => none
    | .ok (openOwner, lockOwner) => some ⟨openOwner, lockOwner, openSeq, a.lockSeq⟩
  | _ => none

structure State where
  store : Store
  origin : OwnerRef → Option Carried

def start (cfg : Config) : State := ⟨newStateStore cfg, fun _ => none⟩

def next (s : State) (r : Request) : Option State :=
  let st := step s.store r
  some ⟨st, fun o =>
    if (st.owner o).seq = (s.store.owner o).seq then s.origin o else carried s.store r⟩

/-- Both sequence ids are the last ones of their owners, and both owners keep the reply of a
LOCK. -/
def fromCache (st : Store) : Request → Bool
  | .lockNew now _ _ a openSeq openOther clientID ownerID =>
    match lockOwners st now openOther clientID ownerID with
    | (.error _, _) => false
    | (.ok (openOwner, lockOwner), st) =>
      seqState (st.owner openOwner).seq openSeq = some .replay &&
        seqState (st.owner lockOwner).seq a.lockSeq = some .replay
  | _ => false

/-- A LOCK answered from a cache gets the reply of a LOCK that carried the same. -/
def Right (s : State) (r : Request) : Prop :=
  ∀ c, carried s.store r = some c → fromCache s.store r = true → s.origin c.openOwner = some c

variable {o : OwnerRef}

section Owners

variable {st : Store} {now : ℕ} {openOther : Other} {clientID : ClientID} {ownerID : Bytes}

theorem resolveStateid_owner (st : Store) (now : ℕ) (seq : UInt32) (other : Other) (p : Path) :
    (st.resolveStateid now seq other p).2.owner = st.owner := by
  unfold Store.resolveStateid
  split
  · split <;> rfl
  split
  · rfl
  split
  · rfl
  simp only
  split
  · rfl
  · split <;> rfl

theorem lockNewBody_owner (st : Store) (now : ℕ) (fh : Option Path) (lookup : Except NfsStat Kind)
    (a : LockArgs) (openOther : Other) (openOwner lockOwner : OwnerRef) :
    (lockNewBody now fh lookup a openOther openOwner lockOwner st).2.owner = st.owner := by
  unfold lockNewBody
  split
  · rfl
  rename_i rng p _
  have howner := resolveStateid_owner st now a.stateSeq openOther p
  split
  · rename_i he
    rw [he] at howner
    exact howner
  · rename_i he
    rw [he] at howner
    exact howner
  rename_i k st₁ he
  rw [he] at howner
  simp only
  split
  · exact howner
  split
  · exact howner
  split
  · exact howner
  split
  · exact howner
  · exact howner

theorem lockOwnerOf_owner (st : Store) (now : ℕ) (clientID : ClientID) (ownerID : Bytes)
    (ho : o.lock = false) : (st.lockOwnerOf now clientID ownerID).2.owner o = st.owner o := by
  unfold Store.lockOwnerOf Store.ownerIn
  split
  · rfl
  simp only [if_true]
  split
  · rfl
  split
  · rfl
  have hne : o ≠ ⟨clientID, true, ownerID, st.nextOwner⟩ := by
    rintro rfl
    cases ho
  exact Function.update_of_ne hne _ _

theorem openOwnerForStateid_owner (st : Store) (now : ℕ) (other : Other) :
    (st.openOwnerForStateid now other).2.owner = st.owner := by
  unfold Store.openOwnerForStateid
  split
  · rfl
  · split <;> rfl

theorem lockOwners_owner (st : Store) (now : ℕ) (openOther : Other) (clientID : ClientID)
    (ownerID : Bytes) (ho : o.lock = false) :
    (lockOwners st now openOther clientID ownerID).2.owner o = st.owner o := by
  have hopen := openOwnerForStateid_owner st now openOther
  unfold lockOwners
  split
  · rename_i he
    rw [he] at hopen
    exact congrFun hopen o
  rename_i openOwner st₁ he
  rw [he] at hopen
  have hlock := lockOwnerOf_owner st₁ now clientID ownerID ho
  split
  · rename_i he'
    rw [he'] at hlock
    exact hlock.trans (congrFun hopen o)
  rename_i he'
  rw [he'] at hlock
  exact hlock.trans (congrFun hopen o)

theorem lockOwners_kinds (h : Inv st.toTables) {openOwner lockOwner st₁}
    (he : lockOwners st now openOther clientID ownerID = (.ok (openOwner, lockOwner), st₁)) :
    openOwner.lock = false ∧ lockOwner.lock = true := by
  unfold lockOwners Store.lockOwnerOf at he
  split at he
  · cases he
  rename_i o st₂ hopen
  have hlive : o.lock = false := by
    unfold Store.openOwnerForStateid at hopen
    split at hopen
    · cases hopen
    split at hopen
    · cases hopen
    rename_i hlive
    cases hopen
    exact (h.opens.owner _ (not_not.1 hlive)).2.1
  split at he
  · cases he
  rename_i l st₃ hlock
  cases he
  rcases st₂.ownerIn_cases now clientID true ownerID with ⟨e, hr⟩ | ⟨-, r, st', hr, -, hok⟩
  · rw [hr] at hlock
    cases hlock
  rw [hr] at hlock
  cases hlock
  exact ⟨hlive, (hok _ rfl).2⟩

theorem lockNew_eq (st : Store) (now : ℕ) (fh : Option Path) (lookup : Except NfsStat Kind)
    (a : LockArgs) (openSeq : UInt32) (openOther : Other) (clientID : ClientID) (ownerID : Bytes) :
    lockNew st now fh lookup a openSeq openOther clientID ownerID =
      match lockOwners st now openOther clientID ownerID with
      | (.error e, st) => (failed e, st)
      | (.ok (openOwner, lockOwner), st) =>
        withTwoSeqids st openOwner lockOwner openSeq a.lockSeq
          (lockNewBody now fh lookup a openOther openOwner lockOwner) := by
  unfold lockNew lockOwners
  rcases st.openOwnerForStateid now openOther with ⟨_ | openOwner, st₁⟩
  · rfl
  · simp only
    rcases st₁.lockOwnerOf now clientID ownerID with ⟨_ | lockOwner, st₂⟩ <;> rfl

end Owners

section Slots

theorem withTwoSeqids_slot (st : Store) {openOwner lockOwner} (hne : openOwner ≠ lockOwner)
    (openSeq lockSeq : UInt32) {body} (hb : (body st).2.owner = st.owner) (ho : o ≠ lockOwner) :
    ((withTwoSeqids st openOwner lockOwner openSeq lockSeq body).2.owner o).seq =
        (st.owner o).seq ∨
      o = openOwner ∧
        ((withTwoSeqids st openOwner lockOwner openSeq lockSeq body).2.owner o).seq.seqid =
          openSeq := by
  simp only [withTwoSeqids]
  split
  · split
    · exact .inl rfl
    split
    · exact .inl rfl
    split
    · rw [hb]
      exact .inl rfl
    by_cases hopen : o = openOwner
    · subst hopen
      right
      simp [Store.setOwner, hne]
    · left
      simp [Store.setOwner, ho, hopen, hb]
  · exact .inl rfl

theorem lockNew_slot {st : Store} (h : Inv st.toTables) (now : ℕ) (fh : Option Path)
    (lookup : Except NfsStat Kind) (a : LockArgs) (openSeq : UInt32) (openOther : Other)
    (clientID : ClientID) (ownerID : Bytes) (ho : o.lock = false) :
    ((lockNew st now fh lookup a openSeq openOther clientID ownerID).2.owner o).seq =
        (st.owner o).seq ∨
      ∃ c, carried st (.lockNew now fh lookup a openSeq openOther clientID ownerID) = some c ∧
        c.openOwner = o ∧
        ((lockNew st now fh lookup a openSeq openOther clientID ownerID).2.owner o).seq.seqid =
          c.openSeq := by
  have hlook := lockOwners_owner st now openOther clientID ownerID ho
  rw [lockNew_eq]
  split
  · rename_i he
    rw [he] at hlook
    exact .inl (congrArg Owner.seq hlook)
  rename_i openOwner lockOwner st₁ he
  obtain ⟨hopen, hlock⟩ := lockOwners_kinds h he
  have hne : openOwner ≠ lockOwner := by
    rintro rfl
    rw [hopen] at hlock
    cases hlock
  have hol : o ≠ lockOwner := by
    rintro rfl
    rw [ho] at hlock
    cases hlock
  have hc : carried st (.lockNew now fh lookup a openSeq openOther clientID ownerID) =
      some ⟨openOwner, lockOwner, openSeq, a.lockSeq⟩ := by
    simp only [carried, he]
  rw [he] at hlook
  rcases withTwoSeqids_slot st₁ hne openSeq a.lockSeq
      (lockNewBody_owner st₁ now fh lookup a openOther openOwner lockOwner) hol with
    hs | ⟨rfl, hs⟩
  · exact .inl (hs.trans (congrArg Owner.seq hlook))
  · exact .inr ⟨_, hc, rfl, hs⟩

end Slots

/-- What an open-owner keeps of a LOCK was sequenced by it, with its present sequence id. -/
structure Invariant (s : State) : Prop where
  inv : Inv s.store.toTables
  origin : ∀ o e, o.lock = false → s.origin o = some e →
    e.openOwner = o ∧ e.openSeq = (s.store.owner o).seq.seqid

theorem start_invariant (cfg : Config) : Invariant (start cfg) :=
  ⟨new_inv cfg, by intro o e _ h; cases h⟩

theorem next_invariant {s t r} (h : Invariant s) (hn : next s r = some t) : Invariant t := by
  cases hn
  refine ⟨step_inv h.inv r, fun o e ho he => ?_⟩
  simp only at he ⊢
  split at he
  · rename_i hsame
    rw [hsame]
    exact h.origin o e ho he
  rename_i hchanged
  -- A slot that this request wrote: the request carried owners, so it is a LOCK.
  cases r with
  | lockNew now fh lk a sq other id key =>
    rcases lockNew_slot h.inv now fh lk a sq other id key ho with hs | ⟨c, hc, hown, hs⟩
    · exact absurd hs hchanged
    · obtain rfl := Option.some.inj (hc.symm.trans he)
      exact ⟨hown, hs.symm⟩
  | _ => cases he

end NfsLockReplay
