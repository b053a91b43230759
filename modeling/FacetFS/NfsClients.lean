import FacetFS.NfsServing

/-! # Client registration

The registry is what SETCLIENTID, SETCLIENTID_CONFIRM and lease expiry see of the store: which
client records are confirmed or pending, and which principal registered each of them for which
owner string. A record keeps the identity it was registered with. -/
namespace NfsClients

open NfsSeqid GroupIndex NfsStore NfsOps NfsOutcomes NfsRename NfsTableInvariant NfsStoreChange
open NfsServing
open NfsExclusion (Request step step_cases)
open Function (update update_of_ne update_self)

structure Identity where
  ownerID : Bytes
  confirmVerf : UInt64
  principal : String
  deriving DecidableEq

structure Registry where
  nextClient : ℕ
  confirmed : List ClientID
  unconfirmed : List ClientID
  byOwner : Bytes → Option ClientID
  identity : ClientID → Identity

namespace Registry

/-- A new pending record supersedes the pending record of its owner string. -/
def register (r : Registry) (who : Identity) : Registry :=
  { r with
    nextClient := r.nextClient + 1
    unconfirmed := (r.nextClient + 1) ::
      r.unconfirmed.filter fun u => (r.identity u).ownerID ≠ who.ownerID
    identity := update r.identity (r.nextClient + 1) who }

def drop (r : Registry) (c : ClientID) : Registry :=
  { r with
    confirmed := r.confirmed.filter (· ≠ c)
    byOwner :=
      if r.byOwner (r.identity c).ownerID = some c then
        update r.byOwner (r.identity c).ownerID none
      else r.byOwner }

def supersede (r : Registry) (id : Bytes) : Registry :=
  match r.byOwner id with
  | some old => r.drop old
  | none => r

def promote (r : Registry) (u : ClientID) : Registry :=
  { r with
    confirmed := u :: r.confirmed
    byOwner := update r.byOwner (r.identity u).ownerID (some u) }

def lapse (r : Registry) (keep : ClientID → Bool) : Registry :=
  { r with unconfirmed := r.unconfirmed.filter keep }

/-- A pending record replaces the confirmed record of its owner string. -/
def confirm (r : Registry) (u : ClientID) : Registry :=
  ((r.lapse (· ≠ u)).supersede (r.identity u).ownerID).promote u

/-- At most one confirmed and one pending record stand for an owner string, and both were
registered by one principal. -/
structure Valid (r : Registry) : Prop where
  confirmedBound : ∀ c ∈ r.confirmed, c ≤ r.nextClient
  pendingBound : ∀ u ∈ r.unconfirmed, u ≤ r.nextClient
  apart : ∀ u ∈ r.unconfirmed, u ∉ r.confirmed
  confirmedOnce : r.confirmed.Nodup
  pendingOnce : r.unconfirmed.Nodup
  oneConfirmed : ∀ c ∈ r.confirmed, ∀ d ∈ r.confirmed,
    (r.identity c).ownerID = (r.identity d).ownerID → c = d
  onePending : ∀ u ∈ r.unconfirmed, ∀ v ∈ r.unconfirmed,
    (r.identity u).ownerID = (r.identity v).ownerID → u = v
  byOwner : ∀ id c, r.byOwner id = some c ↔ c ∈ r.confirmed ∧ (r.identity c).ownerID = id
  samePrincipal : ∀ u ∈ r.unconfirmed, ∀ c ∈ r.confirmed,
    (r.identity u).ownerID = (r.identity c).ownerID →
    (r.identity u).principal = (r.identity c).principal

namespace Valid

variable {r : Registry}

theorem lapse (h : Valid r) (keep : ClientID → Bool) : Valid (r.lapse keep) where
  confirmedBound := h.confirmedBound
  pendingBound u hu := h.pendingBound u (List.mem_filter.1 hu).1
  apart u hu := h.apart u (List.mem_filter.1 hu).1
  confirmedOnce := h.confirmedOnce
  pendingOnce := h.pendingOnce.filter _
  oneConfirmed := h.oneConfirmed
  onePending u hu v hv := h.onePending u (List.mem_filter.1 hu).1 v (List.mem_filter.1 hv).1
  byOwner := h.byOwner
  samePrincipal u hu := h.samePrincipal u (List.mem_filter.1 hu).1

theorem drop (h : Valid r) (c : ClientID) : Valid (r.drop c) where
  confirmedBound d hd := h.confirmedBound d (List.mem_filter.1 hd).1
  pendingBound := h.pendingBound
  apart u hu hc := h.apart u hu (List.mem_filter.1 hc).1
  confirmedOnce := h.confirmedOnce.filter _
  pendingOnce := h.pendingOnce
  oneConfirmed d hd e he := h.oneConfirmed d (List.mem_filter.1 hd).1 e (List.mem_filter.1 he).1
  onePending := h.onePending
  byOwner id d := by
    simp only [Registry.drop, List.mem_filter, decide_eq_true_eq]
    split
    · rename_i hc
      by_cases hid : id = (r.identity c).ownerID
      · subst hid
        simp only [update_self, reduceCtorEq, false_iff]
        rintro ⟨⟨hd, hne⟩, hown⟩
        exact hne (h.oneConfirmed d hd c ((h.byOwner _ c).1 hc).1 hown)
      rw [update_of_ne hid, h.byOwner]
      constructor
      · rintro ⟨hd, hown⟩
        refine ⟨⟨hd, fun e => ?_⟩, hown⟩
        subst e
        exact hid hown.symm
      · rintro ⟨⟨hd, -⟩, hown⟩
        exact ⟨hd, hown⟩
    rename_i hc
    rw [h.byOwner] at hc ⊢
    constructor
    · rintro ⟨hd, hown⟩
      refine ⟨⟨hd, fun e => ?_⟩, hown⟩
      subst e
      exact hc ⟨hd, rfl⟩
    · rintro ⟨⟨hd, -⟩, hown⟩
      exact ⟨hd, hown⟩
  samePrincipal u hu d hd := h.samePrincipal u hu d (List.mem_filter.1 hd).1

theorem supersede (h : Valid r) (id : Bytes) : Valid (r.supersede id) := by
  unfold Registry.supersede
  split
  · exact h.drop _
  · exact h

theorem supersede_free (h : Valid r) (id : Bytes) :
    ∀ c ∈ (r.supersede id).confirmed, (r.identity c).ownerID ≠ id := by
  intro c hc
  unfold Registry.supersede at hc
  split at hc
  · rename_i old hold
    obtain ⟨hmem, hne⟩ := List.mem_filter.1 hc
    intro hown
    have := (h.byOwner id c).2 ⟨hmem, hown⟩
    rw [hold, Option.some_inj] at this
    simp [this] at hne
  rename_i hnone
  intro hown
  have := (h.byOwner id c).2 ⟨hc, hown⟩
  rw [hnone] at this
  cases this

theorem promote (h : Valid r) {u} (hu : u ≤ r.nextClient) (hp : u ∉ r.unconfirmed)
    (hfree : ∀ c ∈ r.confirmed, (r.identity c).ownerID ≠ (r.identity u).ownerID)
    (hone : ∀ v ∈ r.unconfirmed, (r.identity v).ownerID ≠ (r.identity u).ownerID) :
    Valid (r.promote u) where
  confirmedBound := List.forall_mem_cons.2 ⟨hu, h.confirmedBound⟩
  pendingBound := h.pendingBound
  apart v hv hc := by
    rcases List.mem_cons.1 hc with rfl | hc
    · exact hp hv
    · exact h.apart v hv hc
  confirmedOnce := List.nodup_cons.2 ⟨fun hm => hfree u hm rfl, h.confirmedOnce⟩
  pendingOnce := h.pendingOnce
  oneConfirmed c hc d hd he := by
    rcases List.mem_cons.1 hc with rfl | hc' <;> rcases List.mem_cons.1 hd with rfl | hd'
    · rfl
    · exact absurd he.symm (hfree d hd')
    · exact absurd he (hfree c hc')
    · exact h.oneConfirmed c hc' d hd' he
  onePending := h.onePending
  byOwner id c := by
    simp only [Registry.promote, List.mem_cons]
    by_cases hid : id = (r.identity u).ownerID
    · subst hid
      rw [update_self, Option.some_inj]
      constructor
      · rintro rfl
        exact ⟨.inl rfl, rfl⟩
      · rintro ⟨rfl | hc, hown⟩
        · rfl
        · exact absurd hown (hfree c hc)
    rw [update_of_ne hid, h.byOwner]
    constructor
    · rintro ⟨hc, hown⟩
      exact ⟨.inr hc, hown⟩
    · rintro ⟨rfl | hc, hown⟩
      · exact absurd hown.symm hid
      · exact ⟨hc, hown⟩
  samePrincipal v hv c hc he := by
    rcases List.mem_cons.1 hc with rfl | hc
    · exact absurd he (hone v hv)
    · exact h.samePrincipal v hv c hc he

end Valid

variable (r : Registry) (u : ClientID) (id : Bytes)

@[simp]
theorem supersede_unconfirmed : (r.supersede id).unconfirmed = r.unconfirmed := by
  unfold supersede
  split <;> rfl

@[simp]
theorem supersede_identity : (r.supersede id).identity = r.identity := by
  unfold supersede
  split <;> rfl

@[simp]
theorem supersede_nextClient : (r.supersede id).nextClient = r.nextClient := by
  unfold supersede
  split <;> rfl

theorem confirm_nextClient : (r.confirm u).nextClient = r.nextClient :=
  supersede_nextClient _ _

theorem Valid.confirm {r} (h : Valid r) {u} (hu : u ∈ r.unconfirmed) : Valid (r.confirm u) := by
  have hl := h.lapse (· ≠ u)
  apply (hl.supersede (r.identity u).ownerID).promote
  · rw [supersede_nextClient]
    exact h.pendingBound u hu
  · simp [Registry.lapse]
  · rw [supersede_identity]
    exact hl.supersede_free (r.identity u).ownerID
  intro v hv
  rw [supersede_unconfirmed] at hv
  obtain ⟨hmem, hne⟩ := List.mem_filter.1 hv
  simp only [supersede_identity]
  intro he
  have := h.onePending v hmem u hu he
  simp [this] at hne

theorem register_identity {r : Registry} {c : ClientID} (hc : c ≤ r.nextClient) (who : Identity) :
    (r.register who).identity c = r.identity c := by
  apply update_of_ne
  exact Nat.ne_of_lt (Nat.lt_succ_of_le hc)

theorem Valid.register {r} (h : Valid r) {who}
    (hwho : ∀ c, r.byOwner who.ownerID = some c → (r.identity c).principal = who.principal) :
    Valid (r.register who) := by
  have hold : ∀ c, c ≤ r.nextClient → (r.register who).identity c = r.identity c :=
    fun c hc => register_identity hc who
  have hnew : (r.register who).identity (r.nextClient + 1) = who := update_self _ _ _
  have hrest : ∀ u ∈ r.unconfirmed.filter (fun u => (r.identity u).ownerID ≠ who.ownerID),
      u ∈ r.unconfirmed ∧ (r.identity u).ownerID ≠ who.ownerID ∧ u ≤ r.nextClient := by
    intro u hu
    obtain ⟨hmem, hne⟩ := List.mem_filter.1 hu
    exact ⟨hmem, of_decide_eq_true hne, h.pendingBound u hmem⟩
  refine ⟨fun c hc => ?_, fun u hu => ?_, fun u hu hc => ?_, h.confirmedOnce, ?_,
    fun c hc d hd => ?_, fun u hu v hv => ?_, fun id c => ?_, fun u hu c hc => ?_⟩
  · exact le_trans (h.confirmedBound c hc) (Nat.le_succ _)
  · rcases List.mem_cons.1 hu with rfl | hu
    · exact le_refl _
    · exact le_trans (hrest u hu).2.2 (Nat.le_succ _)
  · rcases List.mem_cons.1 hu with rfl | hu
    · exact absurd (h.confirmedBound _ hc) (Nat.not_succ_le_self _)
    · exact h.apart u (hrest u hu).1 hc
  · refine List.nodup_cons.2 ⟨fun hm => ?_, h.pendingOnce.filter _⟩
    exact absurd (hrest _ hm).2.2 (Nat.not_succ_le_self _)
  · rw [hold c (h.confirmedBound c hc), hold d (h.confirmedBound d hd)]
    exact h.oneConfirmed c hc d hd
  · rcases List.mem_cons.1 hu with rfl | hu <;> rcases List.mem_cons.1 hv with rfl | hv
    · exact fun _ => rfl
    · rw [hnew, hold v (hrest v hv).2.2]
      exact fun he => absurd he.symm (hrest v hv).2.1
    · rw [hnew, hold u (hrest u hu).2.2]
      exact fun he => absurd he (hrest u hu).2.1
    · rw [hold u (hrest u hu).2.2, hold v (hrest v hv).2.2]
      exact h.onePending u (hrest u hu).1 v (hrest v hv).1
  · refine (h.byOwner id c).trans ?_
    constructor
    · rintro ⟨hc, hown⟩
      exact ⟨hc, by rw [hold c (h.confirmedBound c hc)]; exact hown⟩
    · rintro ⟨hc, hown⟩
      rw [hold c (h.confirmedBound c hc)] at hown
      exact ⟨hc, hown⟩
  rw [hold c (h.confirmedBound c hc)]
  rcases List.mem_cons.1 hu with rfl | hu
  · rw [hnew]
    intro he
    exact (hwho c ((h.byOwner _ c).2 ⟨hc, he.symm⟩)).symm
  · rw [hold u (hrest u hu).2.2]
    exact h.samePrincipal u (hrest u hu).1 c hc

end Registry

def registry (st : Store) : Registry where
  nextClient := st.nextClient
  confirmed := st.confirmed
  unconfirmed := st.unconfirmed
  byOwner := st.byOwner
  identity c := ⟨(st.client c).ownerID, (st.client c).confirmVerf, (st.client c).principal⟩

section Frames

variable {st st' : Store}

theorem registry_touched (h : Touched st st') : registry st' = registry st := by
  have hid : (registry st').identity = (registry st).identity := by
    funext c
    simp only [registry]
    rw [(h.client c).ownerID, (h.client c).confirmVerf, (h.client c).principal]
  simp only [registry, h.nextClient, h.confirmed, h.unconfirmed, h.byOwner, Registry.mk.injEq,
    true_and]
  exact hid

theorem registry_setClient (st : Store) {c v}
    (h₁ : v.ownerID = (st.client c).ownerID) (h₂ : v.confirmVerf = (st.client c).confirmVerf)
    (h₃ : v.principal = (st.client c).principal) : registry (st.setClient c v) = registry st := by
  simp only [registry, Store.setClient, Registry.mk.injEq, true_and]
  funext d
  by_cases hd : d = c
  · subst hd
    simp [h₁, h₂, h₃]
  · simp [hd]

theorem registry_renew (st : Store) (c : ClientID) (now : ℕ) :
    registry (st.renewClient c now) = registry st :=
  registry_setClient st rfl rfl rfl

theorem registry_dropDelegation (st : Store) (d : ℕ) :
    registry (st.dropDelegation d) = registry st := by
  unfold Store.dropDelegation
  exact registry_setClient _ rfl rfl rfl

theorem registry_recall (st : Store) (now : ℕ) (p : Path) (except : Option ClientID) :
    registry (st.recallDelegations now p except).2 = registry st := by
  apply Store.recallDelegations_keeps
  intro r d
  simp only [Store.recallOne]
  split
  · rfl
  split
  · exact registry_dropDelegation _ _
  · split <;> rfl

theorem registry_openGrant (st : Store) (now : ℕ) (plan : OpenPlan) (k : ℕ) :
    registry (openGrant st now plan k).2 = registry st := by
  simp only [openGrant]
  rw [registry_renew]
  split
  · unfold Store.grantDelegation
    split
    · exact registry_setClient _ rfl rfl rfl
    · rfl
  · rfl

theorem registry_openRecall (st : Store) (now : ℕ) (plan : OpenPlan) (a : OpenArgs) :
    registry (openRecall st now plan a).2 = registry st := by
  unfold openRecall
  split
  · exact registry_recall st now _ _
  · rfl

theorem registry_openAct (ha : OpenAct st st') : registry st' = registry st := by
  cases ha with
  | none => rfl
  | recalled now plan a f => exact registry_openRecall st now plan a
  | opened now plan a f =>
    rw [registry_openGrant, ← registry_openRecall st now plan a]
    exact registry_setClient _ rfl rfl rfl
  | upgraded now plan a f k =>
    rw [registry_openGrant, ← registry_openRecall st now plan a]
    rfl
  | kept f => rfl
  | downgraded k s f => rfl

theorem registry_act {kind} (hk : kind ≠ .clients) (ha : Act kind st st') :
    registry st' = registry st := by
  cases ha with
  | none => rfl
  | setClientID _ _ _ _ _ hc => exact absurd hc hk
  | confirm _ _ _ hc => exact absurd hc hk
  | sweep _ hc => exact absurd hc hk
  | returned d => exact registry_dropDelegation st d
  | close o k now => exact registry_setClient (st.setTables _) rfl rfl rfl
  | _ => rfl

theorem registry_step {r} (hr : r.kind ≠ .clients) : registry (step st r) = registry st := by
  rcases step_cases st r with ⟨st₁, st₂, h₁, ha, h₂⟩ | ⟨st₁, st₂, h₁, ha, h₂⟩
  · rw [registry_touched h₂.touched, registry_act hr ha, registry_touched h₁.touched]
  · rw [registry_touched h₂.touched, registry_openAct ha, registry_touched h₁.touched]

theorem registry_rename (st : Store) (now : ℕ) (fs : FsView) (saved fh : Option Path)
    (oldName newName : Except Failure String) :
    registry (rename st now fs saved fh oldName newName).2 = registry st := by
  have hmove : ∀ s f src dst, registry (renameMove st now fs s f src dst).2 = registry st := by
    intro s f src dst
    obtain ⟨st₁, st₂, he₁, he₂, hmove⟩ := renameMove_outcomes st now fs s f src dst
    have h₁ : registry st₁ = registry st := he₁ ▸ registry_recall st now src none
    have h₂ : registry st₂ = registry st := (he₂ ▸ registry_recall st₁ now dst none).trans h₁
    rcases hmove with he | he | he
    · rw [he]
      exact h₁
    · rw [he]
      exact h₂
    · rw [he]
      exact h₂
  rcases rename_outcomes st now fs saved fh oldName newName with he | ⟨s, f, o, n, -, -, he⟩
  · rw [he]
  · rw [he]
    exact hmove s f _ _

end Frames

section Registration

variable (st : Store)

theorem registry_setClientID (now : ℕ) (ownerID : Bytes) (verifier confirmVerf : UInt64)
    (principal : String) :
    registry (st.setClientID now ownerID verifier confirmVerf principal).2 =
      if (st.byOwner ownerID).any fun held => (st.client held).principal ≠ principal then
        registry st
      else (registry st).register ⟨ownerID, confirmVerf, principal⟩ := by
  unfold Store.setClientID
  split
  · rfl
  simp only [registry, Registry.register, Store.setClient, Registry.mk.injEq, true_and]
  refine ⟨rfl, ?_⟩
  funext d
  by_cases hd : d = st.nextClient + 1
  · subst hd
    simp
  · simp [hd]

theorem registry_release (c : ClientID) : registry (st.release c) = (registry st).drop c := by
  have hdrops : ∀ st : Store, registry (st.dropDelegations c) = registry st := by
    intro st
    exact Store.foldl_keeps registry registry_dropDelegation _ st
  have hset := registry_setClient ((st.unregister c).setTables (st.toTables.release c))
    (c := c) (v := { st.client c with opens := 0 }) rfl rfl rfl
  simp only [Store.release]
  exact (hdrops _).trans hset

theorem registry_promote {id ownerID}
    (h : ((registry st).identity id).ownerID = ownerID) (now : ℕ) :
    registry (Store.renewClient { st with
      confirmed := id :: st.confirmed
      byOwner := update st.byOwner ownerID (some id) } id now) =
      (registry st).promote id := by
  subst h
  exact registry_renew _ id now

theorem registry_confirm {id verf} (hid : id ∈ st.unconfirmed)
    (hverf : (st.client id).confirmVerf = verf) (now : ℕ) :
    registry (st.confirmClientID now id verf).2 = (registry st).confirm id := by
  have hby : ∀ r, ((registry st).lapse (· ≠ id)).byOwner ((registry st).identity id).ownerID = r ↔
      st.byOwner (st.client id).ownerID = r := fun _ => Iff.rfl
  unfold Store.confirmClientID Registry.confirm Registry.supersede
  rw [if_pos ⟨hid, hverf⟩]
  simp only
  split
  · rename_i old hold
    have hrel : registry (Store.release { st with unconfirmed := st.unconfirmed.filter (· ≠ id) }
        old) = ((registry st).lapse (· ≠ id)).drop old := registry_release _ old
    rw [(hby _).2 hold, registry_promote, hrel]
    rw [hrel]
    rfl
  rename_i hnone
  rw [(hby _).2 hnone, registry_promote]
  · rfl
  · rfl

theorem registry_reconfirm {id} (hp : id ∉ st.unconfirmed) (now : ℕ) (verf : UInt64) :
    registry (st.confirmClientID now id verf).2 = registry st := by
  unfold Store.confirmClientID
  rw [if_neg fun h => hp h.1]
  split
  · exact registry_renew st id now
  · rfl

theorem lastRenew_dropDelegation (d : ℕ) (c : ClientID) :
    ((st.dropDelegation d).client c).lastRenew = (st.client c).lastRenew := by
  simp only [Store.dropDelegation, Store.setClient]
  by_cases hc : c = (st.delegation d).client
  · subst hc
    simp
  · simp [hc]

theorem foldl_expire (now : ℕ) (cs : List ClientID) :
    registry (cs.foldl (Store.expire now) st) = cs.foldl Registry.drop (registry st) := by
  induction cs generalizing st with
  | nil => rfl
  | cons c cs ih =>
    have hone : registry (st.expire now c) = (registry st).drop c :=
      registry_release (st.tombstone now c) c
    rw [List.foldl_cons, List.foldl_cons, ih, hone]

theorem revokeTimedOut_keeps {β : Type} (f : Store → β) {now}
    (hf : ∀ st d, f (Store.revokeDelegation st d now) = f st) (st : Store) :
    f (st.revokeTimedOut now) = f st :=
  Store.foldl_keeps f hf _ st

theorem registry_sweep (now : ℕ) : registry (st.sweepExpired now) =
      (st.confirmed.filter fun c => (st.client c).lastRenew + st.lease ≤ now).foldl Registry.drop
        ((registry st).lapse fun c => now < (st.client c).lastRenew + st.lease) := by
  set st₁ := (st.pruneTombstones now).revokeTimedOut now with hst
  have hreg : registry st₁ = registry st := revokeTimedOut_keeps registry registry_dropDelegation _
  have hlast : ∀ c, (st₁.client c).lastRenew = (st.client c).lastRenew := by
    intro c
    exact revokeTimedOut_keeps (fun st => (st.client c).lastRenew)
      (fun st d => lastRenew_dropDelegation st d c) _
  have hlease : st₁.lease = st.lease := revokeTimedOut_keeps Store.lease (fun _ _ => rfl) _
  have hconf : st₁.confirmed = st.confirmed := congrArg Registry.confirmed hreg
  simp only [Store.sweepExpired, ← hst]
  rw [foldl_expire]
  change (st₁.confirmed.filter fun c => (st₁.client c).lastRenew + st₁.lease ≤ now).foldl
    Registry.drop
    ((registry st₁).lapse fun c => now < (st₁.client c).lastRenew + st₁.lease) = _
  simp only [hlast, hlease, hreg, hconf]

end Registration

section Steps

variable {st : Store}

/-- What an event does to the registry. -/
inductive Registers (st : Store) : Event → Registry → Prop where
  | same (e : Event) : Registers st e (registry st)
  | register (now : ℕ) (ownerID : Bytes) (verifier confirmVerf : UInt64) (principal : String)
      (h : ∀ c, st.byOwner ownerID = some c → (st.client c).principal = principal) :
      Registers st (.request (.setClientID now ownerID verifier confirmVerf principal))
        ((registry st).register ⟨ownerID, confirmVerf, principal⟩)
  | confirm (now : ℕ) (u : ClientID) (h : u ∈ st.unconfirmed) :
      Registers st (.request (.setClientIDConfirm now u (st.client u).confirmVerf))
        ((registry st).confirm u)
  | sweep (now : ℕ) : Registers st (.request (.sweep now))
      ((st.confirmed.filter fun c => (st.client c).lastRenew + st.lease ≤ now).foldl Registry.drop
        ((registry st).lapse fun c => now < (st.client c).lastRenew + st.lease))

theorem step_registers (st : Store) (r : Request) :
    Registers st (.request r) (registry (step st r)) := by
  have hsame : ∀ {st' : Store}, registry st' = registry st →
      Registers st (.request r) (registry st') := by
    intro st' h
    rw [h]
    exact .same _
  cases r with
  | setClientID now id v cv pr =>
    simp only [step]
    rw [registry_setClientID]
    split
    · exact .same _
    rename_i hany
    apply Registers.register
    intro c hc
    simpa [hc] using hany
  | setClientIDConfirm now id cv =>
    simp only [step]
    by_cases hid : id ∈ st.unconfirmed
    · by_cases hcv : (st.client id).confirmVerf = cv
      · rw [registry_confirm st hid hcv]
        subst hcv
        exact .confirm now id hid
      apply hsame
      unfold Store.confirmClientID
      rw [if_neg fun h => hcv h.2]
      split
      · exact registry_renew st id now
      · rfl
    · exact hsame (registry_reconfirm st hid now cv)
  | sweep now =>
    simp only [step]
    rw [registry_sweep]
    exact .sweep now
  | _ => exact hsame (registry_step fun h => by cases h)

theorem next_registers (st : Store) (e : Event) : Registers st e (registry (next st e)) := by
  cases e with
  | request r => exact step_registers st r
  | rename now fs saved fh oldName newName =>
    have h : registry (next st (.rename now fs saved fh oldName newName)) = registry st :=
      registry_rename st now fs saved fh oldName newName
    rw [h]
    exact .same _
  | recallAt now p except =>
    have h : registry (next st (.recallAt now p except)) = registry st :=
      registry_recall st now p except
    rw [h]
    exact .same _

theorem Registers.valid {e r} (hr : Registers st e r) (h : (registry st).Valid) : r.Valid := by
  cases hr with
  | same => exact h
  | register now ownerID verifier confirmVerf principal hwho => exact h.register hwho
  | confirm now u hu => exact h.confirm hu
  | sweep now =>
    have hfold : ∀ (cs : List ClientID) (r : Registry), r.Valid →
        (cs.foldl Registry.drop r).Valid := by
      intro cs
      induction cs with
      | nil =>
        intro r hr
        exact hr
      | cons c cs ih =>
        intro r hr
        exact ih _ (hr.drop c)
    exact hfold _ _ (h.lapse _)

theorem new_valid (cfg : Config) : (registry (newStateStore cfg)).Valid :=
  ⟨nofun, nofun, nofun, List.nodup_nil, List.nodup_nil, nofun, nofun,
    fun _ _ => ⟨nofun, nofun⟩, nofun⟩

theorem foldl_valid (h : (registry st).Valid) (es : List Event) :
    (registry (es.foldl next st)).Valid := by
  induction es generalizing st with
  | nil => exact h
  | cons e es ih => exact ih ((next_registers st e).valid h)

end Steps

section Departures

variable {st : Store} {e : Event} {c : ClientID}

def Expires (st : Store) (e : Event) (c : ClientID) : Prop :=
  ∃ now, e = .request (.sweep now) ∧ (st.client c).lastRenew + st.lease ≤ now

/-- A CONFIRM names the id and verifier of a pending record of the same owner string, registered
by the same principal. -/
def Replaces (st : Store) (e : Event) (c : ClientID) : Prop :=
  ∃ now, ∃ u ∈ st.unconfirmed,
    e = .request (.setClientIDConfirm now u (st.client u).confirmVerf) ∧
      (st.client u).ownerID = (st.client c).ownerID ∧
      (st.client u).principal = (st.client c).principal

theorem foldl_drop_confirmed (cs : List ClientID) (r : Registry) :
    ∀ c ∈ r.confirmed, c ∉ cs → c ∈ (cs.foldl Registry.drop r).confirmed := by
  induction cs generalizing r with
  | nil =>
    intro c hc _
    exact hc
  | cons d cs ih =>
    intro c hc hcs
    rw [List.mem_cons, not_or] at hcs
    exact ih _ c (List.mem_filter.2 ⟨hc, decide_eq_true hcs.1⟩) hcs.2

theorem leaves (h : (registry st).Valid) (hc : c ∈ st.confirmed)
    (hgone : c ∉ (next st e).confirmed) : Expires st e c ∨ Replaces st e c := by
  have hstep := next_registers st e
  have hgone' : c ∉ (registry (next st e)).confirmed := hgone
  generalize registry (next st e) = r at hstep hgone'
  cases hstep with
  | same => exact absurd hc hgone'
  | register => exact absurd hc hgone'
  | confirm now u hu =>
    have hown : (st.client u).ownerID = (st.client c).ownerID := by
      by_contra hne
      apply hgone'
      apply List.mem_cons_of_mem
      unfold Registry.supersede
      split
      · rename_i old hold
        refine List.mem_filter.2 ⟨hc, decide_eq_true fun heq => ?_⟩
        subst heq
        exact hne (((h.lapse _).byOwner _ _).1 hold).2.symm
      · exact hc
    exact .inr ⟨now, u, hu, rfl, hown, h.samePrincipal u hu c hc hown⟩
  | sweep now =>
    refine .inl ⟨now, rfl, ?_⟩
    by_contra hlive
    apply hgone'
    refine foldl_drop_confirmed _ _ c hc fun hm => ?_
    exact hlive (of_decide_eq_true (List.mem_filter.1 hm).2)

theorem reconfirm (h : (registry st).Valid) (hc : c ∈ st.confirmed) (now : ℕ) :
    st.confirmClientID now c (st.client c).confirmVerf = (nfs4OK, st.renewClient c now) := by
  have hp : c ∉ st.unconfirmed := fun hu => h.apart c hu hc
  simp [Store.confirmClientID, hp, hc]

end Departures

section Identifiers

variable {st : Store}

def registeredBy (st : Store) : Event → List ClientID
  | .request (.setClientID now id v cv pr) =>
    if (st.setClientID now id v cv pr).1 = nfs4OK then [st.nextClient + 1] else []
  | _ => []

def registered (st : Store) (es : List Event) : List ClientID :=
  IssuedNumbers.issued next registeredBy st es

theorem foldl_drop_nextClient (cs : List ClientID) (r : Registry) :
    (cs.foldl Registry.drop r).nextClient = r.nextClient := by
  induction cs generalizing r with
  | nil => rfl
  | cons c cs ih => exact ih (r.drop c)

theorem next_nextClient (st : Store) (e : Event) : (next st e).nextClient = st.nextClient ∨
      ∃ now id v cv pr, e = .request (.setClientID now id v cv pr) := by
  have hstep := next_registers st e
  have hn : (next st e).nextClient = (registry (next st e)).nextClient := rfl
  rw [hn]
  generalize registry (next st e) = r at hstep
  cases hstep with
  | same => exact .inl rfl
  | register now id v cv pr => exact .inr ⟨now, id, v, cv, pr, rfl⟩
  | confirm now u => exact .inl (Registry.confirm_nextClient _ u)
  | sweep now => exact .inl (foldl_drop_nextClient _ _)

theorem registeredBy_cases (st : Store) (e : Event) :
    (registeredBy st e = [] ∧ (next st e).nextClient = st.nextClient) ∨
      (registeredBy st e = [st.nextClient + 1] ∧ (next st e).nextClient = st.nextClient + 1) := by
  by_cases he : ∃ now id v cv pr, e = .request (.setClientID now id v cv pr)
  · obtain ⟨now, id, v, cv, pr, rfl⟩ := he
    simp only [registeredBy, next, step, Store.setClientID]
    split
    · exact .inl ⟨rfl, rfl⟩
    · exact .inr ⟨rfl, rfl⟩
  refine .inl ⟨?_, (next_nextClient st e).resolve_right he⟩
  unfold registeredBy
  split
  · exact absurd ⟨_, _, _, _, _, rfl⟩ he
  · rfl

theorem registeredBy_counts (st : Store) (e : Event) :
    IssuedNumbers.Counts next registeredBy (fun st => st.nextClient) st e := by
  rcases registeredBy_cases st e with ⟨hnone, hsame⟩ | ⟨hone, hnext⟩
  · refine ⟨le_of_eq hsame.symm, ?_, fun k => ?_⟩
    · rw [hnone]
      exact List.nodup_nil
    · rw [hnone, hsame]
      simp
  refine ⟨?_, ?_, fun k => ?_⟩
  · rw [hnext]
    exact Nat.le_succ _
  · rw [hone]
    exact List.nodup_singleton _
  rw [hone, hnext, List.mem_singleton]
  constructor
  · rintro rfl
    exact ⟨Nat.lt_succ_self _, le_refl _⟩
  · rintro ⟨hlt, hle⟩
    exact le_antisymm hle hlt

theorem registered_spec (st : Store) (es : List Event) : (registered st es).Nodup ∧
      ∀ k, k ∈ registered st es ↔ st.nextClient < k ∧ k ≤ (es.foldl next st).nextClient :=
  IssuedNumbers.issued_spec (I := fun _ => True) (fun _ _ _ => trivial)
    (fun st e _ => registeredBy_counts st e) trivial es

end Identifiers

/-- A request with the principal of the credential it came with. SETCLIENTID looks at it. -/
structure Call where
  principal : String
  request : Request

def Call.event (call : Call) : Event :=
  match call.request with
  | .setClientID now id v cv _ => .request (.setClientID now id v cv call.principal)
  | r => .request r

/-- Along every run the registry is valid, a confirmed record leaves only at the end of its lease
or for a record its own principal registered, ids repeat only when the counter of eight bytes
does, and repeating a confirmation renews the lease. -/
theorem registration_protected (cfg : Config) (es : List Event) : (registry (serve cfg es)).Valid ∧
      (∀ e, ∀ c ∈ (serve cfg es).confirmed, c ∉ (next (serve cfg es) e).confirmed →
        Expires (serve cfg es) e c ∨ Replaces (serve cfg es) e c) ∧
      (((registered (newStateStore cfg) es).map UInt64.ofNat).Nodup ↔
        (serve cfg es).nextClient ≤ 2 ^ 64) ∧
      ∀ now, ∀ c ∈ (serve cfg es).confirmed,
        (serve cfg es).confirmClientID now c ((serve cfg es).client c).confirmVerf =
          (nfs4OK, (serve cfg es).renewClient c now) := by
  have hvalid : (registry (serve cfg es)).Valid := foldl_valid (new_valid cfg) es
  refine ⟨hvalid, ?_, ?_, ?_⟩
  · intro e c hc hgone
    exact leaves hvalid hc hgone
  · obtain ⟨honce, hmem⟩ := registered_spec (newStateStore cfg) es
    have hids := IssuedNumbers.nodup_map_ofNat honce hmem
    have hzero : (newStateStore cfg).nextClient = 0 := rfl
    rw [hids, hzero, Nat.zero_add]
    rfl
  · intro now c hc
    exact reconfirm hvalid hc now

/-- A CONFIRM sent by another principal replaces a record in the middle of its lease. -/
theorem confirmed_by_another_principal :
    ∃ (cfg : Config) (calls : List Call) (call : Call) (now : ℕ) (c u : ClientID),
      let st := serve cfg (calls.map Call.event)
      call.request = .setClientIDConfirm now u (st.client u).confirmVerf ∧
        c ∈ st.confirmed ∧ (st.client c).principal ≠ call.principal ∧
        now < (st.client c).lastRenew + st.lease ∧ c ∉ (next st call.event).confirmed := by
  refine ⟨⟨90, 10, 0, false⟩,
    [⟨"sys:1", .setClientID 0 [1] 7 9 ""⟩, ⟨"sys:1", .setClientIDConfirm 0 1 9⟩,
      ⟨"sys:1", .setClientID 1 [1] 8 11 ""⟩],
    ⟨"sys:2", .setClientIDConfirm 2 2 11⟩, 2, 1, 2, ?_⟩
  refine ⟨rfl, ?_, ?_, ?_, ?_⟩
  · decide
  · decide
  · decide
  · decide

section Leases

open NfsConsistency (Consistent Tidy)

variable {st : Store} {now k : ℕ} {c d : ClientID}

/-- A live stateid of a client: of an open state, a lock state or a delegation. -/
def Holds (st : Store) (k : ℕ) (c : ClientID) : Prop :=
  k ∈ st.opens ∧ (st.openState k).client = c ∨ k ∈ st.locks ∧ (st.lockState k).client = c ∨
    k ∈ st.delegs ∧ (st.delegation k).client = c

theorem expire_holds : Holds (st.expire now c) k d ↔ Holds st k d ∧ d ≠ c := by
  obtain ⟨-, hd, hg⟩ := release_spec (st.tombstone now c) c
  obtain ⟨_, _, _, he, -⟩ := release_eq st.toTables c
  have ht : (st.expire now c).toTables = st.toTables.release c := Store.release_tables ..
  rw [he] at ht
  have ho : (st.expire now c).opens = _ := congrArg Tables.opens ht
  have hl : (st.expire now c).locks = _ := congrArg Tables.locks ht
  have hos : (st.expire now c).openState = _ := congrArg Tables.openState ht
  have hls : (st.expire now c).lockState = _ := congrArg Tables.lockState ht
  have hds : (st.expire now c).delegs = _ := hd
  have hgs : (st.expire now c).delegation = _ := hg
  grind [Holds, Store.tombstone]

theorem foldl_expire_holds (now : ℕ) (cs : List ClientID) (ht : Tidy st.toTables) :
    (∀ k d, Holds (cs.foldl (Store.expire now) st) k d ↔ Holds st k d ∧ d ∉ cs) ∧
      ∀ k, (st.expired k = some now ∨ ∃ d ∈ cs, Holds st k d) →
        (cs.foldl (Store.expire now) st).expired k = some now := by
  induction cs generalizing st with
  | nil => simp
  | cons c cs ih =>
    have hone : Tidy (st.expire now c).toTables := by
      rw [Store.expire, Store.release_tables]
      exact ht.release c
    have hexp : (st.expire now c).expired = (st.tombstone now c).expired :=
      Store.foldl_keeps Store.expired
        (fun (st : Store) d => (rfl : (st.dropDelegation d).expired = _)) _ _
    obtain ⟨hholds, hexpired⟩ := ih hone
    refine ⟨fun k d => ?_, fun k hk => hexpired k ?_⟩
    · rw [List.foldl_cons, hholds, expire_holds, List.mem_cons, not_or, and_assoc]
    simp only [expire_holds, hexp, Store.tombstone]
    rcases hk with hk | ⟨d, hd, hk⟩
    · left
      split
      · rfl
      · exact hk
    by_cases hdc : d = c
    · subst hdc
      left
      rw [if_pos]
      rcases hk with ⟨hk, hc⟩ | ⟨hk, hc⟩ | hk
      · simp [ht.owned.owner k hk, ht.indexed.client k hk, hc]
      · obtain ⟨ho, -, hl⟩ := ht.lockOwner k hk
        simp [ho, hl, hc]
      · exact .inr hk
    · exact .inr ⟨d, (List.mem_cons.1 hd).resolve_left hdc, hk, hdc⟩

theorem foldl_revoke (ds : List ℕ) (st : Store) :
    (ds.foldl (fun st d => st.revokeDelegation d now) st).delegs = st.delegs.filter (· ∉ ds) := by
  induction ds generalizing st with
  | nil => simp
  | cons d ds ih =>
    rw [List.foldl_cons, ih]
    exact filter_ne_not_mem st.delegs ds d

/-- A sweep takes the stateids of the clients whose lease has run out, which are answered as expired
from then on, and the delegations whose recall has timed out, and leaves all others. -/
theorem sweep_exact (cfg : Config) (es : List Event) (now k : ℕ) (c : ClientID) :
    let st := serve cfg es
    let late := k ∈ st.delegs ∧ (st.delegation k).recalling = true ∧
      (st.delegation k).recallAt + st.recallWait ≤ now
    let lapsed := c ∈ st.confirmed ∧ (st.client c).lastRenew + st.lease ≤ now
    (Holds (st.sweepExpired now) k c ↔ Holds st k c ∧ ¬ late ∧ ¬ lapsed) ∧
      (Holds st k c → ¬ late → lapsed → (st.sweepExpired now).expired k = some now) := by
  intro st late lapsed
  have hc : Consistent st := serve_consistent cfg es
  set st₁ := ((st.pruneTombstones now).revokeTimedOut now).dropUnconfirmed now with hst
  have hreg : registry ((st.pruneTombstones now).revokeTimedOut now) = registry st :=
    revokeTimedOut_keeps registry registry_dropDelegation _
  have hlast : ∀ c, (st₁.client c).lastRenew = (st.client c).lastRenew := fun c =>
    revokeTimedOut_keeps (fun st => (st.client c).lastRenew)
      (fun st d => lastRenew_dropDelegation st d c) _
  have hlease : st₁.lease = st.lease := revokeTimedOut_keeps Store.lease (fun _ _ => rfl) _
  have hconf : st₁.confirmed = st.confirmed := congrArg Registry.confirmed hreg
  have ht : st₁.toTables = st.toTables := revokeTimedOut_keeps Store.toTables (fun _ _ => rfl) _
  have hg : st₁.delegation = st.delegation :=
    revokeTimedOut_keeps Store.delegation (fun _ _ => rfl) _
  have hd : st₁.delegs = st.delegs.filter (· ∉ st.delegs.filter fun d =>
      (st.delegation d).recalling && decide ((st.delegation d).recallAt + st.recallWait ≤ now)) :=
    foldl_revoke _ (st.pruneTombstones now)
  have hholds : Holds st₁ k c ↔ Holds st k c ∧ ¬ late := by
    have hapart := hc.delegApart k
    rw [filter_not_mem_filter] at hd
    simp only [Holds, ht, hd, hg, late, List.mem_filter]
    grind
  obtain ⟨h₁, h₂⟩ := foldl_expire_holds now
    (st₁.confirmed.filter fun c => (st₁.client c).lastRenew + st₁.lease ≤ now) (ht ▸ hc.tidy)
  have hlapsed : c ∈ st₁.confirmed.filter (fun c => (st₁.client c).lastRenew + st₁.lease ≤ now) ↔
      lapsed := by
    simp [List.mem_filter, hlast, hlease, hconf, lapsed]
  refine ⟨?_, fun hk hnot hl => h₂ k (.inr ⟨c, hlapsed.2 hl, hholds.2 ⟨hk, hnot⟩⟩)⟩
  rw [← and_assoc, ← hholds, ← hlapsed]
  exact h₁ k c

end Leases

end NfsClients
