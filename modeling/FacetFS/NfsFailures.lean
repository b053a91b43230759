import FacetFS.NfsExclusion

/-! # Requests that fail

An operation on the open and lock states makes its checks first, some of them twice. When its
answer is not `nfs4OK`, the states and the clients' counts of them are as they were. -/
namespace NfsFailures

open NfsSeqid NfsLockRange NfsStore NfsOps NfsOutcomes NfsExclusion

/-- Two stores with the same open and lock states. They may differ in lease times, owners and
delegations. -/
structure SameStates (st st' : Store) : Prop where
  tables : st'.toTables = st.toTables
  opens : ∀ c, (st'.client c).opens = (st.client c).opens

namespace SameStates

variable {st st' st₂ : Store}

theorem refl (st : Store) : SameStates st st := ⟨rfl, fun _ => rfl⟩

theorem trans (h : SameStates st st') (h' : SameStates st' st₂) : SameStates st st₂ :=
  ⟨h'.tables.trans h.tables, fun c => (h'.opens c).trans (h.opens c)⟩

theorem of_renews (h : Renews st st') : SameStates st st' :=
  ⟨h.tables, fun c => (h.touched.client c).opens⟩

theorem closeFile (st : Store) (f : Option OpenFile) : SameStates st (st.closeFile f) :=
  ⟨rfl, fun _ => rfl⟩

end SameStates

section Recall

theorem dropDelegation_opens (st : Store) (d : ℕ) (c : ClientID) :
    ((st.dropDelegation d).client c).opens = (st.client c).opens := by
  by_cases hc : c = (st.delegation d).client
  · subst hc
    simp [Store.dropDelegation, Store.setClient]
  · simp [Store.dropDelegation, Store.setClient, hc]

theorem recallOne_same (now : ℕ) (except : Option ClientID) (r : Bool × Store) (d : ℕ) :
    SameStates r.2 (Store.recallOne now except r d).2 := by
  refine ⟨Store.recallOne_tables now except r d, fun c => ?_⟩
  simp only [Store.recallOne]
  split
  · rfl
  split
  · exact dropDelegation_opens r.2 d c
  · split <;> rfl

theorem openRecall_same (st : Store) (now : ℕ) (plan : OpenPlan) (a : OpenArgs) :
    SameStates st (openRecall st now plan a).2 := by
  unfold openRecall
  split
  · exact Store.recallDelegations_rel SameStates.refl SameStates.trans
      (recallOne_same now (some plan.owner.client)) st plan.target
  · exact .refl st

end Recall

/-- An answer is good, or the states are as they were. -/
def OkOrSame (st : Store) (status : NfsStat) (st' : Store) : Prop :=
  status = nfs4OK ∨ SameStates st st'

theorem OkOrSame.of_renews {st st'} (status : NfsStat) (h : Renews st st') :
    OkOrSame st status st' :=
  .inr (.of_renews h)

theorem OkOrSame.after {st st₁ st₂ status} (h : OkOrSame st₁ status st₂)
    (hs : SameStates st st₁) : OkOrSame st status st₂ :=
  h.imp_right hs.trans

/-- A body that leaves the states alone whenever it fails. -/
def Safe (body : Store → BodyResult × Store) : Prop :=
  ∀ st, OkOrSame st (body st).1.status (body st).2

section Sequenced

variable (st : Store) {body : Store → BodyResult × Store}

end Sequenced

section Bodies

theorem openInstall_okOrSame (st : Store) (now : ℕ) (plan : OpenPlan) (f : Option OpenFile) :
    (∃ g, (openInstall st now plan f).1 = .ok g) ∨ SameStates st (openInstall st now plan f).2 := by
  unfold openInstall
  split
  · exact .inr (.closeFile st f)
  split
  · split
    · exact .inr (.closeFile st f)
    · exact .inl ⟨_, rfl⟩
  · exact .inl ⟨_, rfl⟩

theorem openWith_safe (now : ℕ) (fh : Option Path) (o : OwnerRef) (a : OpenArgs) (env : OpenEnv) :
    Safe (openWith now fh o a env) := by
  intro st
  unfold openWith
  split
  · exact .inr (.refl st)
  split
  · exact .inr (.refl st)
  rename_i plan _
  have hrecall := openRecall_same st now plan a
  obtain ⟨file, hfiles⟩ := openFiles_outcomes (openRecall st now plan a).2 plan a env
  have hclose : SameStates st ((openRecall st now plan a).2.closeFile file) :=
    hrecall.trans (.closeFile _ file)
  simp only [openFinish]
  split
  · exact .inr hrecall
  split
  · rename_i he
    rw [he] at hfiles
    rw [← hfiles] at hclose
    exact .inr hclose
  rename_i f st₂ he
  rw [he] at hfiles
  rw [← hfiles] at hclose
  have hsame : SameStates st st₂ := hclose
  have hinstall := openInstall_okOrSame st₂ now plan f
  split
  · rename_i hi
    rw [hi] at hinstall
    rcases hinstall with ⟨g, hg⟩ | hs
    · cases hg
    · exact .inr (hsame.trans hs)
  · exact .inl rfl

theorem openDowngradeBody_safe (now : ℕ) (fh : Option Path) (a : DowngradeArgs)
    (file : Except NfsStat ℕ) : Safe (openDowngradeBody now fh a file) := by
  intro st
  rcases openDowngradeBody_outcomes st now fh a file with ⟨st₁, f, hr, he⟩ | ⟨hok, -⟩
  · rw [he]
    exact .inr ((SameStates.of_renews hr).trans (.closeFile st₁ f))
  · exact .inl hok

end Bodies

section Requests

variable (st : Store)

end Requests

/-- The status that an operation on open and lock states is answered with. -/
def answer (st : Store) : Request → Option NfsStat
  | .openFile now fh a env => some (openFile st now fh a env).1.status
  | .openConfirm now fh q other sq => some (openConfirm st now fh q other sq).1.status
  | .openDowngrade now fh a file => some (openDowngrade st now fh a file).1.status
  | .lockNew now fh lk a sq other id key => some (lockNew st now fh lk a sq other id key).1.status
  | .lockExisting now fh lk a other => some (lockExisting st now fh lk a other).1.status
  | .lockU now fh lk a other => some (lockU st now fh lk a other).1.status
  | .releaseLockOwner now id key => some (releaseLockOwner st now id key).1
  | _ => none

end NfsFailures
