import FacetFS.EventSystem
import FacetFS.NfsStoreChange

/-! # Interleaved requests

OPEN and OPEN_DOWNGRADE drop the store mutex around their FileSystem calls. Here each of their
critical sections is an event of its own, run on behalf of a request slot; every other
operation is one event. An owner's mutex is held from the first section to the last. -/
namespace NfsInterleaving

open EventSystem
open NfsSeqid NfsLockRange GroupIndex NfsStore NfsOps NfsOutcomes NfsRename NfsStoreChange
open NfsExclusion (Request step)
open Function (update update_idem update_eq_self)

/-- How far a request has come: its owner looked up, its first section passed, or its
FileSystem calls made. -/
inductive Pending where
  | looked (o : OwnerRef) (fh : Option Path) (a : OpenArgs)
  | checked (plan : OpenPlan) (a : OpenArgs)
  | opened (plan : OpenPlan) (handle : Option ℕ)
  | downLooked (o : OwnerRef) (fh : Option Path) (a : DowngradeArgs)
  | downChecked (o : OwnerRef) (a : DowngradeArgs) (needOpen : Bool)
  | downOpened (o : OwnerRef) (a : DowngradeArgs) (handle : Option ℕ)

/-- The file an installation is handed: the handle that was opened, with the flags it was
opened with. -/
def OpenPlan.openFile (plan : OpenPlan) (handle : Option ℕ) : Option OpenFile :=
  handle.map fun h => ⟨h, plan.flag⟩

structure Server where
  store : Store
  pending : ℕ → Option Pending
  mutex : OwnerRef → Bool

def start (cfg : Config) : Server := ⟨newStateStore cfg, fun _ => none, fun _ => false⟩

inductive Event where
  | request (r : Request)
  | renamePath (src dst : Path)
  | openLookup (slot now : ℕ) (fh : Option Path) (a : OpenArgs)
  | openCheck (slot : ℕ) (env : OpenEnv)
  | openFiles (slot now : ℕ) (env : OpenEnv)
  | openInstall (slot now : ℕ) (env : OpenEnv)
  | downgradeLookup (slot now : ℕ) (fh : Option Path) (a : DowngradeArgs)
  | downgradeCheck (slot now : ℕ)
  | downgradeFiles (slot : ℕ) (file : Except NfsStat ℕ)
  | downgradeInstall (slot now : ℕ)

def requestOwner (st : Store) : Request → Option OwnerRef
  | .openConfirm _ _ _ other _ => st.stateOwners other.count
  | .close _ _ _ _ other _ => st.stateOwners other.count
  | .lockNew _ _ _ _ _ other _ _ =>
    if other.count ∈ st.opens then some (st.openState other.count).owner else none
  | .lockExisting _ _ _ _ other => st.stateOwners other.count
  | .lockU _ _ _ _ other => st.stateOwners other.count
  | _ => none

namespace Server

def setSlot (s : Server) (slot : ℕ) (p : Option Pending) : Server :=
  { s with pending := Function.update s.pending slot p }

def acquire (s : Server) (o : OwnerRef) (q : OwnerSeq) : Server :=
  { s with
    store := s.store.setOwner o { s.store.owner o with seq := q }
    mutex := Function.update s.mutex o true }

/-- The end of a body: the owner's sequence is settled, its mutex and the slot are freed. -/
def finish (s : Server) (slot : ℕ) (o : OwnerRef) (opnum : UInt32) (r : BodyResult)
    (st : Store) : Server where
  store := st.setOwner o { st.owner o with seq := settle (st.owner o).seq opnum r }
  pending := Function.update s.pending slot none
  mutex := Function.update s.mutex o false

def openCheck (s : Server) (slot : ℕ) (env : OpenEnv) : Option Server :=
  match s.pending slot with
  | some (.looked o fh a) =>
    if s.mutex o then none
    else
      match accept (s.store.owner o).seq a.seqid with
      | none => some (s.setSlot slot none)
      | some q =>
        let s := s.acquire o q
        match openTarget fh a env with
        | .error e => some (s.finish slot o opOpen (BodyResult.fail e) s.store)
        | .ok target =>
          match NfsOps.openCheck s.store.toTables o target a with
          | .error e => some (s.finish slot o opOpen (BodyResult.fail e) s.store)
          | .ok plan => some (s.setSlot slot (some (.checked plan a)))
  | _ => none

def openFiles (s : Server) (slot now : ℕ) (env : OpenEnv) : Option Server :=
  match s.pending slot with
  | some (.checked plan a) =>
    let (status, st) := openRecall s.store now plan a
    if status ≠ nfs4OK then some (s.finish slot plan.owner opOpen (BodyResult.fail status) st)
    else
      match NfsOps.openFiles st plan a env with
      | (.error e, st) => some (s.finish slot plan.owner opOpen (BodyResult.fail e) st)
      | (.ok f, st) =>
        some ({ s with store := st }.setSlot slot (some (.opened plan (f.map OpenFile.handle))))
  | _ => none

def openInstall (s : Server) (slot now : ℕ) (env : OpenEnv) : Option Server :=
  match s.pending slot with
  | some (.opened plan handle) =>
    let r := NfsOps.openInstall s.store now plan (OpenPlan.openFile plan handle)
    match r.1 with
    | .error e => some (s.finish slot plan.owner opOpen (BodyResult.fail e) r.2)
    | .ok g => some (s.finish slot plan.owner opOpen (openReply r.2 plan env g) r.2)
  | _ => none

def downgradeCheck (s : Server) (slot now : ℕ) : Option Server :=
  match s.pending slot with
  | some (.downLooked o fh a) =>
    if s.mutex o then none
    else
      match accept (s.store.owner o).seq a.seqid with
      | none => some (s.setSlot slot none)
      | some q =>
        let s := s.acquire o q
        match NfsOps.downgradeCheck s.store now fh a with
        | (.error e, st) => some (s.finish slot o opOpenDowngrade (BodyResult.fail e) st)
        | (.ok needOpen, st) =>
          some ({ s with store := st }.setSlot slot (some (.downChecked o a needOpen)))
  | _ => none

def downgradeFiles (s : Server) (slot : ℕ) (file : Except NfsStat ℕ) : Option Server :=
  match s.pending slot with
  | some (.downChecked o a needOpen) =>
    match if needOpen then file.map some else .ok none with
    | .error e => some (s.finish slot o opOpenDowngrade (BodyResult.fail e) s.store)
    | .ok handle => some (s.setSlot slot (some (.downOpened o a handle)))
  | _ => none

def downgradeInstall (s : Server) (slot now : ℕ) : Option Server :=
  match s.pending slot with
  | some (.downOpened o a handle) =>
    let r := NfsOps.downgradeInstall s.store now a (handle.map fun h => ⟨h, a.flag⟩)
    some (s.finish slot o opOpenDowngrade r.1 r.2)
  | _ => none

end Server

def next (s : Server) : Event → Option Server
  | .request r =>
    if Request.atomic r ∧ (requestOwner s.store r).all (fun o => !s.mutex o) = true then
      some { s with store := step s.store r }
    else none
  | .renamePath src dst =>
    if src ≠ [] ∧ ¬ src <+: dst ∧ ¬ dst <+: src then
      some { s with store := NfsRename.renamePath s.store src dst }
    else none
  | .openLookup slot now fh a =>
    if (s.pending slot).isSome then none
    else
      match s.store.ownerOf now a.clientID a.owner with
      | (.error _, st) => some { s with store := st }
      | (.ok o, st) => some ({ s with store := st }.setSlot slot (some (.looked o fh a)))
  | .openCheck slot env => s.openCheck slot env
  | .openFiles slot now env => s.openFiles slot now env
  | .openInstall slot now env => s.openInstall slot now env
  | .downgradeLookup slot now fh a =>
    if (s.pending slot).isSome then none
    else
      match s.store.ownerForStateid now a.other with
      | (.error _, st) => some { s with store := st }
      | (.ok o, st) => some ({ s with store := st }.setSlot slot (some (.downLooked o fh a)))
  | .downgradeCheck slot now => s.downgradeCheck slot now
  | .downgradeFiles slot file => s.downgradeFiles slot file
  | .downgradeInstall slot now => s.downgradeInstall slot now

/-- The final section of OPEN refuses: another owner conflicts, or the client has no room. -/
def openRefused (st : Store) (plan : OpenPlan) : Bool :=
  st.toTables.shareConflict plan.target plan.owner plan.access plan.deny ||
    (st.toTables.findOpen plan.target plan.owner).isNone &&
      decide ((st.client plan.owner.client).opens ≥ maxOpensPerClient)

section Install

variable {st : Store} {plan : OpenPlan}

theorem openInstall_cases (st : Store) (plan : OpenPlan) (now : ℕ) (f : Option OpenFile) :
    (openRefused st plan = true ∧ (openInstall st now plan f).2 = st.closeFile f) ∨
    (openRefused st plan = false ∧ st.toTables.findOpen plan.target plan.owner = none ∧
      (openInstall st now plan f).2 =
        (openGrant (openNew st plan f) now plan (st.nextOther + 1)).2) ∨
    (openRefused st plan = false ∧ ∃ k, st.toTables.findOpen plan.target plan.owner = some k ∧
      (openInstall st now plan f).2 = (openGrant (openUpgrade st plan f k) now plan k).2) := by
  unfold openInstall openRefused
  cases hc : st.toTables.shareConflict plan.target plan.owner plan.access plan.deny with
  | true => exact .inl ⟨by simp, by simp⟩
  | false =>
    cases hf : st.toTables.findOpen plan.target plan.owner with
    | none =>
      by_cases hroom : (st.client plan.owner.client).opens ≥ maxOpensPerClient
      · exact .inl ⟨by simp [hroom], by simp [hroom]⟩
      · exact .inr (.inl ⟨by simp [hroom], rfl, by simp [hroom]⟩)
    | some k => exact .inr (.inr ⟨by simp, k, rfl, by simp⟩)

def newOpen (plan : OpenPlan) (f : Option OpenFile) : OpenState :=
  { seq := 1, client := plan.owner.client, owner := plan.owner, path := plan.target
    access := plan.access, deny := plan.deny, file := f, flag := plan.flag }

/-- An open state with other bits, and with another file if there is one. -/
def regranted (s : OpenState) (access deny : UInt32) (flag : OpenFlag) (f : Option OpenFile) :
    OpenState :=
  { s with
    seq := s.seq + 1
    access := access
    deny := deny
    file := if f.isSome then f else s.file
    flag := if f.isSome then flag else s.flag }

theorem openInstall_tables (st : Store) (plan : OpenPlan) (now : ℕ) (f : Option OpenFile) :
    (openRefused st plan = true ∧ (openInstall st now plan f).2.toTables = st.toTables) ∨
    openRefused st plan = false ∧ ∃ n, st.nextOther ≤ n ∧
      (st.toTables.findOpen plan.target plan.owner = none ∧ st.nextOther < n ∧
        (openInstall st now plan f).2.toTables =
          { st.toTables.installOpen (newOpen plan f) with nextOther := n } ∨
      ∃ k, st.toTables.findOpen plan.target plan.owner = some k ∧
        (openInstall st now plan f).2.toTables =
          { st.toTables.setOpen k (regranted (st.openState k) plan.access plan.deny plan.flag f) with
            nextOther := n }) := by
  rcases openInstall_cases st plan now f with ⟨hr, he⟩ | ⟨hr, hf, he⟩ | ⟨hr, k, hf, he⟩
  · exact .inl ⟨hr, by rw [he]; rfl⟩
  · obtain ⟨n, hn, ht⟩ := openGrant_tables (openNew st plan f) now plan (st.nextOther + 1)
    exact .inr ⟨hr, n, Nat.le_of_succ_le hn, .inl ⟨hf, hn, by rw [he, ht]; rfl⟩⟩
  · obtain ⟨n, hn, ht⟩ := openGrant_tables (openUpgrade st plan f k) now plan k
    exact .inr ⟨hr, n, hn, .inr ⟨k, hf, by rw [he, ht]; rfl⟩⟩

/-- What the last section of an OPEN or of a downgrade does to the tables: nothing, one state is
new, or the state `r` is given other bits. -/
inductive Installs (r : Option ℕ) (access deny : UInt32) (flag : OpenFlag) (f : Option OpenFile)
    (t t' : Tables) : Prop where
  | same (h : t' = t)
  | fresh (x : OpenState) (n : ℕ) (hn : t.nextOther < n) (hc : x.owner.client = x.client)
      (hf : x.file = f ∧ x.flag = flag) (h : t' = { t.installOpen x with nextOther := n })
  | regrant (k n : ℕ) (hr : r = some k) (hk : k ∈ t.opens) (hn : t.nextOther ≤ n)
      (h : t' = { t.setOpen k (regranted (t.openState k) access deny flag f) with nextOther := n })

theorem openInstall_installs (hi : Indexed st.toTables) (plan : OpenPlan) (now : ℕ)
    (f : Option OpenFile) :
    Installs (st.toTables.findOpen plan.target plan.owner) plan.access plan.deny plan.flag f
      st.toTables (openInstall st now plan f).2.toTables := by
  rcases openInstall_tables st plan now f with ⟨-, ht⟩ | ⟨-, n, hn, ⟨-, hlt, ht⟩ | ⟨k, hf, ht⟩⟩
  · exact .same ht
  · exact .fresh _ n hlt rfl ⟨rfl, rfl⟩ ht
  · exact .regrant k n hf (hi.findOpen_some hf).1 hn ht

theorem openGrant_spec (st : Store) (plan : OpenPlan) (now k : ℕ) :
    (openGrant st now plan k).2.confirmed = st.confirmed ∧
    (∀ d ∈ (openGrant st now plan k).2.delegs,
      (d ∈ st.delegs ∧
        ((openGrant st now plan k).2.delegation d).client = (st.delegation d).client) ∨
      ((openGrant st now plan k).2.delegation d).client = plan.owner.client) := by
  have hsame : ∀ d ∈ st.delegs, (d ∈ st.delegs ∧ (st.delegation d).client =
      (st.delegation d).client) ∨ (st.delegation d).client = plan.owner.client :=
    fun d hd => .inl ⟨hd, rfl⟩
  simp only [openGrant]
  split
  · unfold Store.grantDelegation
    split
    · refine ⟨rfl, fun d hd => ?_⟩
      by_cases hnew : d = st.nextOther + 1
      · right
        simp [Store.renewClient, Store.setClient, hnew]
      left
      refine ⟨(List.mem_cons.1 hd).resolve_left hnew, ?_⟩
      simp [Store.renewClient, Store.setClient, hnew]
    · exact ⟨rfl, hsame⟩
  · exact ⟨rfl, hsame⟩

theorem openGrant_registered (h : Registered st) (hc : plan.owner.client ∈ st.confirmed)
    (now k : ℕ) : Registered (openGrant st now plan k).2 := by
  obtain ⟨n, -, ht⟩ := openGrant_tables st now plan k
  obtain ⟨hconf, hd⟩ := openGrant_spec st plan now k
  refine ⟨fun j hj => ?_, fun l hl => ?_, fun d hdm => ?_⟩
  · rw [ht] at hj ⊢
    rw [hconf]
    exact h.opens j hj
  · rw [ht] at hl ⊢
    rw [hconf]
    exact h.locks l hl
  rw [hconf]
  rcases hd d hdm with ⟨hmem, he⟩ | he
  · rw [he]
    exact h.delegs d hmem
  · rw [he]
    exact hc

theorem openNew_registered (h : Registered st) (hc : plan.owner.client ∈ st.confirmed)
    (f : Option OpenFile) : Registered (openNew st plan f) := by
  refine ⟨fun k hk => ?_, h.locks, h.delegs⟩
  by_cases hnew : k = st.nextOther + 1
  · simpa [openNew, Store.setClient, Store.setTables, Tables.installOpen, hnew] using hc
  · have hlive := h.opens k ((List.mem_cons.1 hk).resolve_left hnew)
    simpa [openNew, Store.setClient, Store.setTables, Tables.installOpen, hnew] using hlive

theorem openUpgrade_client (st : Store) (plan : OpenPlan) (f : Option OpenFile) (k j : ℕ) :
    ((openUpgrade st plan f k).openState j).client = (st.openState j).client :=
  update_field (f := OpenState.client) (by rfl) j

theorem openUpgrade_registered (h : Registered st) (f : Option OpenFile) (k : ℕ) :
    Registered (openUpgrade st plan f k) := by
  refine ⟨fun j hj => ?_, h.locks, h.delegs⟩
  rw [openUpgrade_client]
  exact h.opens j hj

theorem openInstall_registered_iff (hi : Indexed st.toTables) (h : Registered st) (now : ℕ)
    (f : Option OpenFile) :
    Registered (openInstall st now plan f).2 ↔
      (openRefused st plan = true ∨ plan.owner.client ∈ st.confirmed) := by
  rcases openInstall_cases st plan now f with
    ⟨hr, he⟩ | ⟨hr, hf, he⟩ | ⟨hr, k, hf, he⟩
  · rw [he]
    exact ⟨fun _ => .inl hr, fun _ => ⟨h.opens, h.locks, h.delegs⟩⟩
  · rw [he, hr]
    obtain ⟨n, -, ht⟩ := openGrant_tables (openNew st plan f) now plan (st.nextOther + 1)
    obtain ⟨hconf, -⟩ := openGrant_spec (openNew st plan f) plan now (st.nextOther + 1)
    constructor
    · intro hreg
      right
      have hk := hreg.opens (st.nextOther + 1) (by rw [ht]; exact List.mem_cons_self)
      rw [ht, hconf] at hk
      simpa [openNew, Store.setClient, Store.setTables, Tables.installOpen] using hk
    · rintro (hc | hc)
      · cases hc
      · exact openGrant_registered (openNew_registered h hc f) hc now _
  rw [he, hr]
  obtain ⟨hlive, hown⟩ := hi.findOpen_some hf
  have hc : plan.owner.client ∈ st.confirmed := by
    rw [← hown, hi.client k hlive]
    exact h.opens k hlive
  exact ⟨fun _ => .inr hc,
    fun _ => openGrant_registered (openUpgrade_registered h f k) hc now k⟩

end Install

section Steps

variable {s s' : Server}

variable {slot : ℕ}

def Event.installs : Event → Bool
  | .openInstall .. => true
  | .downgradeInstall .. => true
  | _ => false

def Pending.waiting : Pending → Bool
  | .looked .. => true
  | .downLooked .. => true
  | _ => false

/-- What a section before the installation does. A request is looked up, leaves without the mutex
of its owner, takes it with its check, frees it when it fails, or has its file opened. -/
inductive Turn (s s' : Server) : Event → Prop where
  | rename (src dst : Path) (hs : src ≠ []) (h₁ : ¬ src <+: dst) (h₂ : ¬ dst <+: src)
      (hst : s'.store = renamePath s.store src dst) (hp : s'.pending = s.pending)
      (hx : s'.mutex = s.mutex) : Turn s s' (.renamePath src dst)
  | stay {e} (hm : Moves s.store s'.store) (hp : s'.pending = s.pending)
      (hx : s'.mutex = s.mutex) : Turn s s' e
  | look {e} (slot : ℕ) (p : Pending) (hr : Renews s.store s'.store)
      (hnew : (∃ o fh a, p = .looked o fh a) ∨
        ∃ o fh a, p = .downLooked o fh a ∧ s.store.stateOwners a.other.count = some o)
      (hp : s'.pending = update s.pending slot (some p)) (hx : s'.mutex = s.mutex) : Turn s s' e
  | leave {e} (slot : ℕ) (p : Pending) (hold : s.pending slot = some p) (hw : p.waiting = true)
      (hr : Renews s.store s'.store) (hp : s'.pending = update s.pending slot none)
      (hx : s'.mutex = s.mutex) : Turn s s' e
  | check {e} (slot : ℕ) (fh : Option Path) (a : OpenArgs) (plan : OpenPlan)
      (hold : s.pending slot = some (.looked plan.owner fh a)) (hfree : s.mutex plan.owner = false)
      (hr : Renews s.store s'.store)
      (hp : s'.pending = update s.pending slot (some (.checked plan a)))
      (hx : s'.mutex = update s.mutex plan.owner true) : Turn s s' e
  | downCheck {e} (slot now : ℕ) (o : OwnerRef) (fh : Option Path) (a : DowngradeArgs)
      (needOpen : Bool) (st : Store) (hold : s.pending slot = some (.downLooked o fh a))
      (hfree : s.mutex o = false) (hst : Renews s.store st) (hr : Renews s.store s'.store)
      (hd : downgradeCheck st now fh a = (.ok needOpen, s'.store))
      (hp : s'.pending = update s.pending slot (some (.downChecked o a needOpen)))
      (hx : s'.mutex = update s.mutex o true) : Turn s s' e
  | fail {e} (slot : ℕ) (p : Pending) (o : OwnerRef) (hold : s.pending slot = some p)
      (hh : (∃ plan a, p = .checked plan a ∧ plan.owner = o) ∨ ∃ a n, p = .downChecked o a n)
      (hm : Moves s.store s'.store) (hp : s'.pending = update s.pending slot none)
      (hx : s'.mutex = update s.mutex o false) : Turn s s' e
  | discard (slot now : ℕ) (env : OpenEnv) (plan : OpenPlan) (a : OpenArgs) (f : OpenFile)
      (st : Store) (g : OwnerRef → Owner) (hold : s.pending slot = some (.checked plan a))
      (hm : Moves s.store st) (hf : env.file = .ok f.handle)
      (hst : s'.store = { st.closeFile (some f) with owner := g })
      (hp : s'.pending = update s.pending slot none)
      (hx : s'.mutex = update s.mutex plan.owner false) : Turn s s' (.openFiles slot now env)
  | openFile (slot now : ℕ) (env : OpenEnv) (plan : OpenPlan) (a : OpenArgs) (handle : Option ℕ)
      (hold : s.pending slot = some (.checked plan a)) (hm : Moves s.store s'.store)
      (hf : ∀ h, handle = some h → env.file = .ok h)
      (hp : s'.pending = update s.pending slot (some (.opened plan handle)))
      (hx : s'.mutex = s.mutex) : Turn s s' (.openFiles slot now env)
  | downOpen (slot : ℕ) (file : Except NfsStat ℕ) (o : OwnerRef) (a : DowngradeArgs)
      (needOpen : Bool) (handle : Option ℕ)
      (hold : s.pending slot = some (.downChecked o a needOpen)) (hst : s'.store = s.store)
      (hf : (if needOpen then file.map some else .ok none) = .ok handle)
      (hp : s'.pending = update s.pending slot (some (.downOpened o a handle)))
      (hx : s'.mutex = s.mutex) : Turn s s' (.downgradeFiles slot file)

/-- The last section of an OPEN or an OPEN_DOWNGRADE frees the slot and the owner. -/
inductive Installed (s s' : Server) : Event → Prop where
  | opened (slot now : ℕ) (env : OpenEnv) (plan : OpenPlan) (handle : Option ℕ)
      (f : OwnerRef → Owner) (hold : s.pending slot = some (.opened plan handle))
      (hst : s'.store =
        { (openInstall s.store now plan (OpenPlan.openFile plan handle)).2 with owner := f })
      (hp : s'.pending = update s.pending slot none)
      (hx : s'.mutex = update s.mutex plan.owner false) : Installed s s' (.openInstall slot now env)
  | downgraded (slot now : ℕ) (o : OwnerRef) (a : DowngradeArgs) (handle : Option ℕ)
      (f : OwnerRef → Owner) (hold : s.pending slot = some (.downOpened o a handle))
      (hst : s'.store = { (downgradeInstall s.store now a (handle.map fun h => ⟨h, a.flag⟩)).2 with
        owner := f })
      (hp : s'.pending = update s.pending slot none)
      (hx : s'.mutex = update s.mutex o false) : Installed s s' (.downgradeInstall slot now)

theorem Turn.finish_at_once {e p o} (hold : s.pending slot = some p) (hw : p.waiting = true)
    (hfree : s.mutex o = false) {q : OwnerSeq} {opnum r st}
    (hr : Renews (s.acquire o q).store st) :
    Turn s ((s.acquire o q).finish slot o opnum r st) e := by
  refine .leave slot p hold hw (((Renews.owners _ _).trans hr).trans (.owners _ _)) rfl ?_
  simp only [Server.finish, Server.acquire, update_idem]
  rw [← hfree, update_eq_self]

theorem openCheck_turn {e env} (h : s.openCheck slot env = some s') : Turn s s' e := by
  unfold Server.openCheck at h
  split at h
  · rename_i o fh a hold
    split at h
    · cases h
    rename_i hfree
    have hfree : s.mutex o = false := by simpa using hfree
    split at h
    · cases h
      exact .leave slot _ hold rfl (.refl _) rfl rfl
    simp only at h
    split at h
    · cases h
      exact .finish_at_once hold rfl hfree (.refl _)
    split at h
    · cases h
      exact .finish_at_once hold rfl hfree (.refl _)
    rename_i plan hplan
    cases h
    obtain rfl : plan.owner = o := (openCheck_ok hplan).1
    exact .check slot fh a plan hold hfree (.owners _ _) rfl rfl
  · cases h

theorem openFiles_cases (st : Store) (plan : OpenPlan) (a : OpenArgs) (env : OpenEnv) :
    (∃ e, openFiles st plan a env = (.error e, st)) ∨
    (∃ e f, openFiles st plan a env = (.error e, st.closeFile (some f)) ∧
      env.file = .ok f.handle) ∨
    (∃ f, openFiles st plan a env = (.ok f, st) ∧
      ∀ h, f.map OpenFile.handle = some h → env.file = .ok h) := by
  unfold openFiles
  split
  · exact .inl ⟨_, rfl⟩
  rename_i handle hopen
  have hnew : ∀ h, handle = some h → env.file = .ok h := by
    rintro h rfl
    cases hneed : plan.needOpen with
    | false =>
      rw [hneed] at hopen
      cases hopen
    | true =>
      rw [hneed] at hopen
      cases hfile : env.file with
      | error e =>
        rw [hfile] at hopen
        cases hopen
      | ok h' =>
        rw [hfile] at hopen
        cases hopen
        rfl
  simp only
  split
  · cases handle with
    | none => exact .inl ⟨_, rfl⟩
    | some h => exact .inr (.inl ⟨_, _, rfl, hnew h rfl⟩)
  · refine .inr (.inr ⟨_, rfl, fun h hh => hnew h ?_⟩)
    rw [← hh]
    cases handle <;> rfl

theorem openFiles_turn {now env} (h : s.openFiles slot now env = some s') :
    Turn s s' (.openFiles slot now env) := by
  unfold Server.openFiles at h
  split at h
  · rename_i plan a hold
    have hr := openRecall_moves s.store now plan a
    have hend : ∀ {st} (f : OwnerRef → Owner), Moves s.store st →
        Moves s.store { st with owner := f } := fun f hm => hm.tail (.renews (.owners _ f))
    simp only at h
    split at h
    · cases h
      exact .fail slot _ _ hold (.inl ⟨_, _, rfl, rfl⟩) (hend _ hr) rfl rfl
    rcases openFiles_cases (openRecall s.store now plan a).2 plan a env with
      ⟨e, he⟩ | ⟨e, f, he, hf⟩ | ⟨f, he, hf⟩
    · rw [he] at h
      cases h
      exact .fail slot _ _ hold (.inl ⟨_, _, rfl, rfl⟩) (hend _ hr) rfl rfl
    · rw [he] at h
      cases h
      exact .discard slot now env plan a f _ _ hold hr hf rfl rfl rfl
    · rw [he] at h
      cases h
      exact .openFile slot now env plan a _ hold hr hf rfl rfl
  · cases h

theorem downgradeCheck_turn {e now} (h : s.downgradeCheck slot now = some s') : Turn s s' e := by
  unfold Server.downgradeCheck at h
  split at h
  · rename_i o fh a hold
    split at h
    · cases h
    rename_i hfree
    have hfree : s.mutex o = false := by simpa using hfree
    split at h
    · cases h
      exact .leave slot _ hold rfl (.refl _) rfl rfl
    rename_i q _
    have hd := downgradeCheck_renews (s.acquire o q).store now fh a
    simp only at h
    split at h
    · rename_i he
      rw [he] at hd
      cases h
      exact .finish_at_once hold rfl hfree hd
    rename_i he
    rw [he] at hd
    cases h
    exact .downCheck slot now o fh a _ _ hold hfree (.owners _ _) ((Renews.owners _ _).trans hd) he
      rfl rfl
  · cases h

theorem downgradeFiles_turn {file} (h : s.downgradeFiles slot file = some s') :
    Turn s s' (.downgradeFiles slot file) := by
  unfold Server.downgradeFiles at h
  split at h
  · rename_i o a needOpen hold
    split at h
    · cases h
      exact .fail slot _ o hold (.inr ⟨_, _, rfl⟩) (.single (.renews (.owners _ _))) rfl rfl
    rename_i hf
    cases h
    exact .downOpen slot file o a needOpen _ hold rfl hf rfl rfl
  · cases h

theorem next_turn {e} (h : next s e = some s') (he : Event.installs e = false) : Turn s s' e := by
  cases e with
  | request r =>
    obtain ⟨hr, rfl⟩ := Option.ite_some_none_eq_some.1 h
    exact .stay (step_moves s.store hr.1) rfl rfl
  | renamePath src dst =>
    obtain ⟨hr, rfl⟩ := Option.ite_some_none_eq_some.1 h
    exact .rename src dst hr.1 hr.2.1 hr.2.2 rfl rfl rfl
  | openLookup slot now fh a =>
    have hr := ownerIn_renews s.store now a.clientID false a.owner
    simp only [next, Store.ownerOf] at h
    split at h
    · cases h
    split at h
    · rename_i hl
      rw [hl] at hr
      cases h
      exact .stay (.single (.renews hr)) rfl rfl
    rename_i hl
    rw [hl] at hr
    cases h
    exact .look slot _ hr (.inl ⟨_, _, _, rfl⟩) rfl rfl
  | openCheck slot env => exact openCheck_turn h
  | openFiles slot now env => exact openFiles_turn h
  | openInstall => cases he
  | downgradeLookup slot now fh a =>
    have hr := ownerForStateid_renews s.store now a.other
    simp only [next] at h
    split at h
    · cases h
    split at h
    · rename_i hl
      rw [hl] at hr
      cases h
      exact .stay (.single (.renews hr)) rfl rfl
    rename_i hl
    have ho := Store.ownerForStateid_ok (congrArg Prod.fst hl)
    rw [hl] at hr
    cases h
    exact .look slot _ hr (.inr ⟨_, _, _, rfl, ho⟩) rfl rfl
  | downgradeCheck slot now => exact downgradeCheck_turn h
  | downgradeFiles slot file => exact downgradeFiles_turn h
  | downgradeInstall => cases he

theorem openInstall_installed {now env} (h : s.openInstall slot now env = some s') :
    Installed s s' (.openInstall slot now env) := by
  unfold Server.openInstall at h
  split at h
  · rename_i plan handle hold
    simp only at h
    split at h
    · cases h
      exact .opened slot now env plan handle _ hold rfl rfl rfl
    · cases h
      exact .opened slot now env plan handle _ hold rfl rfl rfl
  · cases h

theorem downgradeInstall_installed {now} (h : s.downgradeInstall slot now = some s') :
    Installed s s' (.downgradeInstall slot now) := by
  unfold Server.downgradeInstall at h
  split at h
  · rename_i o a handle hold
    cases h
    exact .downgraded slot now o a handle _ hold rfl rfl rfl
  · cases h

theorem next_cases {e} (h : next s e = some s') :
    (Event.installs e = false ∧ Turn s s' e) ∨ Installed s s' e := by
  cases he : Event.installs e with
  | false => exact .inl ⟨rfl, next_turn h he⟩
  | true =>
    cases e with
    | openInstall slot now env => exact .inr (openInstall_installed h)
    | downgradeInstall slot now => exact .inr (downgradeInstall_installed h)
    | _ => cases he

theorem Turn.moves {e} (h : Turn s s' e) : (∃ src dst, src ≠ [] ∧ ¬ src <+: dst ∧ ¬ dst <+: src ∧
      s'.store = renamePath s.store src dst) ∨
    ∃ st f g, Moves s.store st ∧ s'.store = { st.closeFile f with owner := g } := by
  have hall : Moves s.store s'.store →
      ∃ st f g, Moves s.store st ∧ s'.store = { st.closeFile f with owner := g } :=
    fun hm => ⟨s'.store, none, s'.store.owner, hm, rfl⟩
  cases h with
  | rename src dst hs h₁ h₂ hst => exact .inl ⟨src, dst, hs, h₁, h₂, hst⟩
  | stay hm => exact .inr (hall hm)
  | look _ _ hr => exact .inr (hall (.single (.renews hr)))
  | leave _ _ _ _ hr => exact .inr (hall (.single (.renews hr)))
  | check _ _ _ _ _ _ hr => exact .inr (hall (.single (.renews hr)))
  | downCheck _ _ _ _ _ _ _ _ _ _ hr => exact .inr (hall (.single (.renews hr)))
  | fail _ _ _ _ _ hm => exact .inr (hall hm)
  | discard _ _ _ _ _ f st g _ hm _ hst => exact .inr ⟨st, some f, g, hm, hst⟩
  | openFile _ _ _ _ _ _ _ hm => exact .inr (hall hm)
  | downOpen _ _ _ _ _ _ _ hst => exact .inr ⟨s.store, none, s.store.owner, .refl, hst⟩

theorem Turn.changes {e} (h : Turn s s' e) : Changes s.store s'.store := by
  rcases h.moves with ⟨src, dst, hs, h₁, h₂, hst⟩ | ⟨st, f, g, hm, hst⟩
  · rw [hst]
    exact .single (.rename src dst hs h₁ h₂)
  · rw [hst]
    exact (changes_of_moves hm).tail (.other rfl rfl rfl rfl)

end Steps

section Indexing

variable {st : Store} {plan : OpenPlan}

theorem Installs.indexed {r access deny flag f} {t t' : Tables}
    (hs : Installs r access deny flag f t t') (h : Indexed t) : Indexed t' := by
  cases hs with
  | same ht => exact ht ▸ h
  | fresh x n hn hc _ ht => exact ht ▸ (h.installOpen hc).bumpNext hn
  | regrant k n _ _ hn ht =>
    have hset : Indexed (t.setOpen k (regranted (t.openState k) access deny flag f)) :=
      h.setOpen rfl rfl rfl
    exact ht ▸ hset.bumpNext hn

theorem openInstall_indexed (h : Indexed st.toTables) (now : ℕ) (f : Option OpenFile) :
    Indexed (openInstall st now plan f).2.toTables :=
  (openInstall_installs h plan now f).indexed h

theorem downgradeInstall_cases (st : Store) (now : ℕ) (a : DowngradeArgs) (f : Option OpenFile) :
    (∃ r, downgradeInstall st now a f = (r, st.closeFile f)) ∨
    (a.other.count ∈ st.opens ∧ (downgradeInstall st now a f).2 =
      ((st.setTables (st.toTables.setOpen a.other.count
        (regranted (st.openState a.other.count) a.access a.deny a.flag f))).renewClient
        (st.openState a.other.count).client now).closeFile
        (if f.isSome then (st.openState a.other.count).file else none)) := by
  unfold downgradeInstall
  simp only
  split
  · exact .inl ⟨_, rfl⟩
  rename_i hlive
  simp only [not_or, not_not] at hlive
  split
  · exact .inl ⟨_, rfl⟩
  · exact .inr ⟨hlive.1, rfl⟩

theorem downgradeInstall_installs (st : Store) (now : ℕ) (a : DowngradeArgs)
    (f : Option OpenFile) :
    Installs (some a.other.count) a.access a.deny a.flag f st.toTables
      (downgradeInstall st now a f).2.toTables := by
  rcases downgradeInstall_cases st now a f with ⟨r, he⟩ | ⟨hlive, he⟩
  · exact .same (by rw [he]; rfl)
  · exact .regrant _ _ rfl hlive (le_refl _) (by rw [he]; rfl)

theorem downgradeInstall_registered (h : Registered st) (now : ℕ) (a : DowngradeArgs)
    (f : Option OpenFile) : Registered (downgradeInstall st now a f).2 := by
  rcases downgradeInstall_cases st now a f with ⟨r, he⟩ | ⟨-, he⟩
  · rw [he]
    exact ⟨h.opens, h.locks, h.delegs⟩
  rw [he]
  refine ⟨fun k hk => ?_, h.locks, h.delegs⟩
  have hc := update_field (g := st.openState) (f := OpenState.client)
    (show (regranted (st.openState a.other.count) a.access a.deny a.flag f).client = _ from rfl) k
  exact hc ▸ h.opens k hk

theorem next_indexed {s s' e} (h : Indexed s.store.toTables)
    (hn : next s e = some s') : Indexed s'.store.toTables := by
  rcases next_cases hn with ⟨-, ht⟩ | hi
  · exact Changes.keeps (P := fun st => Indexed st.toTables) Indexed.change ht.changes h
  cases hi with
  | opened slot now env plan handle f _ hst =>
    rw [hst]
    exact openInstall_indexed h now _
  | downgraded slot now o a handle f _ hst =>
    rw [hst]
    exact (downgradeInstall_installs ..).indexed h

end Indexing

/-- At an installation that is not refused, the owner's client is still confirmed. -/
def ClientConfirmed (s : Server) : Event → Prop
  | .openInstall slot _ _ => ∀ plan handle, s.pending slot = some (.opened plan handle) →
    openRefused s.store plan = true ∨ plan.owner.client ∈ s.store.confirmed
  | _ => True

theorem registered_owner_iff (st : Store) (f : OwnerRef → Owner) :
    Registered { st with owner := f } ↔ Registered st :=
  ⟨fun h => ⟨h.opens, h.locks, h.delegs⟩, fun h => ⟨h.opens, h.locks, h.delegs⟩⟩

/-- A step keeps every state with a confirmed client exactly if it meets the condition. -/
theorem next_registered_iff {s s' e} (hi : Indexed s.store.toTables) (h : Registered s.store)
    (hn : next s e = some s') : Registered s'.store ↔ ClientConfirmed s e := by
  rcases next_cases hn with ⟨he, ht⟩ | hins
  · have hreg := Changes.keeps (P := Registered) Registered.change ht.changes h
    cases e with
    | openInstall => cases he
    | _ => exact ⟨fun _ => trivial, fun _ => hreg⟩
  cases hins with
  | opened slot now env plan handle f hp hst =>
    rw [hst, registered_owner_iff, openInstall_registered_iff hi h]
    constructor
    · intro hc plan' handle' hp'
      rw [hp] at hp'
      cases hp'
      exact hc
    · intro hc
      exact hc plan handle hp
  | downgraded slot now o a handle f _ hst =>
    rw [hst, registered_owner_iff]
    exact ⟨fun _ => trivial, fun _ => downgradeInstall_registered h now a _⟩

theorem start_indexed (cfg : Config) : Indexed (start cfg).store.toTables :=
  ⟨by simp [start, newStateStore], Indexes.empty _, by simp [start, newStateStore]⟩

theorem start_registered (cfg : Config) : Registered (start cfg).store :=
  ⟨by simp [start, newStateStore], by simp [start, newStateStore],
    by simp [start, newStateStore]⟩

/-- State never outlives its client in the runs whose installations find the client still
confirmed, and any other installation breaks this at once. -/
theorem state_registered_iff_confirmed (cfg : Config) :
    (∀ es s, Meets next ClientConfirmed (start cfg) es →
      run next (start cfg) es = some s → Registered s.store) ∧
    ∀ es s e s', run next (start cfg) es = some s → Registered s.store →
      next s e = some s' → (Registered s'.store ↔ ClientConfirmed s e) :=
  kept_iff next (I := fun s => Indexed s.store.toTables) (P := fun s => Registered s.store)
    (fun _ _ _ hi hn => ⟨next_indexed hi hn, fun h => next_registered_iff hi h hn⟩)
    (start_indexed cfg) (start_registered cfg)

/-- An OPEN of a file `f` in the root by a client registered as number 1. -/
def openArgs (seqid access : UInt32) : OpenArgs :=
  ⟨seqid, access, 0, 1, [10], 0, 0, 0, .ok "f", false, .ok none⟩

def openEnv (handle : ℕ) : OpenEnv :=
  ⟨nfs4OK, .ok .regular, false, .ok handle, nfs4OK, 0, 0, []⟩

def registerClient : List Event :=
  [.request (.setClientID 0 [1] 7 9 "none"), .request (.setClientIDConfirm 0 1 9)]

/-- The lease of the client runs out between the FileSystem call and the installation. -/
def expiredBeforeInstall : List Event :=
  registerClient ++
    [.openLookup 0 0 (some []) (openArgs 1 1), .openCheck 0 (openEnv 1),
      .openFiles 0 0 (openEnv 1), .request (.sweep 100), .openInstall 0 100 (openEnv 1)]

theorem open_installs_for_expired_client :
    ∃ s, run next (start ⟨90, 90, 5, false⟩) expiredBeforeInstall = some s ∧
      ¬ Registered s.store := by
  refine exists_run (P := fun s => 1 ∈ s.store.opens ∧ s.store.confirmed = [])
    (by decide +kernel) ?_
  rintro s - ⟨hopen, hnone⟩ h
  have hc := h.opens 1 hopen
  simp [hnone] at hc

end NfsInterleaving
