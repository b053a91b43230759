import FacetFS.IssuedNumbers
import FacetFS.NfsConsistency

/-! # The store of a serving NFSv4 server

Requests, RENAMEs and recalls run one after another on a new server. The store stays consistent,
and each number of the stateid counter is handed to one state. -/
namespace NfsServing

open NfsSeqid NfsLockRange GroupIndex NfsStore NfsOps NfsOutcomes NfsRename NfsTableInvariant
open NfsStoreChange NfsConsistency
open NfsExclusion (Request step step_cases)

/-- A request of the state operations or a lease sweep, a RENAME, or the recall that a WRITE, a
SETATTR, a REMOVE or a LINK makes first. -/
inductive Event where
  | request (r : Request)
  | rename (now : ℕ) (fs : FsView) (saved fh : Option Path) (oldName newName : Except Failure String)
  | recallAt (now : ℕ) (p : Path) (except : Option ClientID)

def next (st : Store) : Event → Store
  | .request r => step st r
  | .rename now fs saved fh oldName newName => (rename st now fs saved fh oldName newName).2
  | .recallAt now p except => (st.recallDelegations now p except).2

/-- The store after a sequence of events on a new server. -/
def serve (cfg : Config) (es : List Event) : Store := es.foldl next (newStateStore cfg)

def live (st : Store) : List ℕ := st.opens ++ st.locks ++ st.delegs

def issuedBy (st : Store) (e : Event) : List ℕ := (live (next st e)).filter (· ∉ live st)

def issued (st : Store) (es : List Event) : List ℕ := IssuedNumbers.issued next issuedBy st es

theorem mem_live {st k} : k ∈ live st ↔ k ∈ st.opens ∨ k ∈ st.locks ∨ k ∈ st.delegs := by
  simp [live]

/-- No stateid is issued. -/
structure Shrinks (st st' : Store) : Prop where
  next : st'.nextOther = st.nextOther
  live : ∀ k ∈ live st', k ∈ live st

/-- The store stays consistent, and the numbers the counter moved over are now live. -/
structure Evolves (st st' : Store) : Prop where
  consistent : Consistent st'
  next : st.nextOther ≤ st'.nextOther
  fresh : ∀ k ∈ live st', k ∈ live st ∨ st.nextOther < k
  issued : ∀ k, st.nextOther < k → k ≤ st'.nextOther → k ∈ live st'

section Relations

variable {st st₁ st₂ : Store}

theorem Shrinks.refl (st : Store) : Shrinks st st := ⟨rfl, fun _ hk => hk⟩

theorem Shrinks.trans (h : Shrinks st st₁) (h' : Shrinks st₁ st₂) : Shrinks st st₂ :=
  ⟨h'.next.trans h.next, fun k hk => h.live k (h'.live k hk)⟩

theorem Shrinks.of_subset (hn : st₁.nextOther = st.nextOther) (ho : st₁.opens ⊆ st.opens)
    (hl : st₁.locks ⊆ st.locks) (hd : st₁.delegs ⊆ st.delegs) : Shrinks st st₁ := by
  refine ⟨hn, fun k hk => ?_⟩
  rw [mem_live] at hk ⊢
  rcases hk with hk | hk | hk
  · exact .inl (ho hk)
  · exact .inr (.inl (hl hk))
  · exact .inr (.inr (hd hk))

theorem Shrinks.touched (h : Touched st st₁) : Shrinks st st₁ := by
  refine ⟨by rw [h.tables], fun k hk => ?_⟩
  rwa [NfsServing.live, h.tables, h.delegs] at hk

theorem Shrinks.foldl {α : Type} {f} (hf : ∀ st a, Shrinks st (f st a))
    (l : List α) (st : Store) : Shrinks st (l.foldl f st) := by
  induction l generalizing st with
  | nil => exact .refl st
  | cons a l ih => exact (hf st a).trans (ih (f st a))

theorem Evolves.of_shrinks (hc : Consistent st₁) (h : Shrinks st st₁) : Evolves st st₁ := by
  refine ⟨hc, le_of_eq h.next.symm, fun k hk => .inl (h.live k hk), fun k hlt hle => ?_⟩
  rw [h.next] at hle
  omega

theorem Evolves.install (hc : Consistent st₁) (hn : st₁.nextOther = st.nextOther + 1)
    (hl : ∀ k, k ∈ NfsServing.live st₁ ↔ k = st.nextOther + 1 ∨ k ∈ NfsServing.live st) :
    Evolves st st₁ := by
  refine ⟨hc, hn ▸ Nat.le_succ _, fun k hk => ?_, fun k hlt hle => (hl k).2 (.inl (by omega))⟩
  rcases (hl k).1 hk with rfl | hk
  · exact .inr (Nat.lt_succ_self _)
  · exact .inl hk

theorem Evolves.touched (h : Consistent st) (ht : Touched st st₁) : Evolves st st₁ :=
  .of_shrinks (h.touched ht) (.touched ht)

theorem Evolves.prepend (hs : Shrinks st st₁) (h : Evolves st₁ st₂) : Evolves st st₂ := by
  refine ⟨h.consistent, ?_, fun k hk => ?_, fun k hlt hle => ?_⟩
  · rw [← hs.next]
    exact h.next
  · rcases h.fresh k hk with hold | hnew
    · exact .inl (hs.live k hold)
    · rw [hs.next] at hnew
      exact .inr hnew
  · rw [← hs.next] at hlt
    exact h.issued k hlt hle

theorem Evolves.append (h : Evolves st st₁) (ht : Touched st₁ st₂) : Evolves st st₂ := by
  have hlive : ∀ k, k ∈ live st₂ ↔ k ∈ live st₁ := by
    intro k
    rw [mem_live, mem_live, ht.tables, ht.delegs]
  refine ⟨h.consistent.touched ht, ?_, fun k hk => ?_, fun k hlt hle => ?_⟩
  · rw [ht.tables]
    exact h.next
  · exact h.fresh k ((hlive k).1 hk)
  · rw [ht.tables] at hle
    exact (hlive k).2 (h.issued k hlt hle)

end Relations

section Delegations

variable (st : Store)

theorem dropDelegation_shrinks (d : ℕ) : Shrinks st (st.dropDelegation d) :=
  .of_subset rfl (List.Subset.refl _) (List.Subset.refl _) (List.filter_subset_self _)

theorem revokeDelegation_shrinks (d now : ℕ) : Shrinks st (st.revokeDelegation d now) :=
  .of_subset rfl (List.Subset.refl _) (List.Subset.refl _) (List.filter_subset_self _)

theorem recallDelegations_shrinks (now : ℕ) (p : Path) (except : Option ClientID) :
    Shrinks st (st.recallDelegations now p except).2 := by
  have hone : ∀ r d, Shrinks r.2 (Store.recallOne now except r d).2 := by
    intro r d
    simp only [Store.recallOne]
    split
    · exact .refl _
    split
    · exact revokeDelegation_shrinks _ _ _
    split
    · exact .refl _
    · exact .of_subset rfl (List.Subset.refl _) (List.Subset.refl _) (List.Subset.refl _)
  exact Store.recallDelegations_rel Shrinks.refl Shrinks.trans hone st p

theorem recallDelegations_nextClient (now : ℕ) (p : Path) (except : Option ClientID) :
    (st.recallDelegations now p except).2.nextClient = st.nextClient := by
  apply Store.recallDelegations_keeps Store.nextClient
  intro r d
  simp only [Store.recallOne]
  split
  · rfl
  split
  · rfl
  · split <;> rfl

variable {st}

theorem recallDelegations_evolves (h : Consistent st) (now : ℕ) (p : Path)
    (except : Option ClientID) : Evolves st (st.recallDelegations now p except).2 :=
  .of_shrinks (h.recallDelegations now p except) (recallDelegations_shrinks st now p except)

theorem grantDelegation_evolves (h : Consistent st) {o} (ho : o.client ≤ st.nextClient)
    (p : Path) (access : UInt32) : Evolves st (st.grantDelegation p o access).2 := by
  have hc := h.grantDelegation ho p access
  unfold Store.grantDelegation at hc ⊢
  split
  · rename_i hgo
    rw [if_pos hgo] at hc
    refine .install hc rfl fun k => ?_
    change k ∈ st.opens ++ st.locks ++ _ :: st.delegs ↔ _
    simp [live, or_left_comm]
  · exact .of_shrinks h (.refl st)

end Delegations

section Clients

variable {st : Store}

theorem release_nextClient (st : Store) (c : ClientID) :
    (st.release c).nextClient = st.nextClient := by
  have hdrop : ∀ (st : Store) (d : ℕ), (st.dropDelegation d).nextClient = st.nextClient :=
    fun _ _ => rfl
  exact Store.foldl_keeps Store.nextClient hdrop _ _

theorem release_shrinks (st : Store) (c : ClientID) : Shrinks st (st.release c) := by
  obtain ⟨ix, ix', owners, he, -⟩ := release_eq st.toTables c
  obtain ⟨-, hd, -⟩ := release_spec st c
  have ht := Store.release_tables st c
  rw [he] at ht
  apply Shrinks.of_subset
  · rw [ht]
  · rw [ht]
    exact List.filter_subset_self _
  · rw [ht]
    exact List.filter_subset_self _
  · rw [hd]
    exact List.filter_subset_self _

theorem countP_client_zero {σ : Type} {ks : List ℕ} {f : ℕ → σ} {client : σ → ClientID} {n : ℕ}
    (h : ∀ k ∈ ks, client (f k) ≤ n) : (ks.countP fun k => client (f k) = n + 1) = 0 := by
  rw [List.countP_eq_zero]
  intro k hk
  simpa using Nat.ne_of_lt (Nat.lt_succ_of_le (h k hk))

theorem setClientID_evolves (h : Consistent st) (now : ℕ) (ownerID : Bytes)
    (verifier confirmVerf : UInt64) (principal : String) :
    Evolves st (st.setClientID now ownerID verifier confirmVerf principal).2 := by
  unfold Store.setClientID
  split
  · exact .of_shrinks h (.refl st)
  refine .of_shrinks ?_ (.of_subset rfl (List.Subset.refl _) (List.Subset.refl _)
    (List.Subset.refl _))
  refine ⟨h.tidy, h.delegBound, h.delegsOnce, h.delegIndex, h.delegApart, fun c => ?_,
    fun c => ?_, fun k hk => ?_, fun d hd => ?_, fun c hc => ?_, fun c hc => ?_⟩
  · by_cases hc : c = st.nextClient + 1
    · subst hc
      refine Eq.trans ?_ (congrArg Nat.cast (countP_client_zero h.openClient)).symm
      simp [Store.setClient]
    · refine Eq.trans ?_ (h.openCount c)
      simp [Store.setClient, hc]
  · by_cases hc : c = st.nextClient + 1
    · subst hc
      refine Eq.trans ?_ (congrArg Nat.cast (countP_client_zero h.delegClient)).symm
      simp [Store.setClient]
    · refine Eq.trans ?_ (h.delegCount c)
      simp [Store.setClient, hc]
  · exact le_trans (h.openClient k hk) (Nat.le_succ _)
  · exact le_trans (h.delegClient d hd) (Nat.le_succ _)
  · exact le_trans (h.confirmed c hc) (Nat.le_succ _)
  · rcases List.mem_cons.1 hc with rfl | hc
    · exact le_refl _
    · exact le_trans (h.unconfirmed c (List.mem_filter.1 hc).1) (Nat.le_succ _)

theorem register_evolves (h : Consistent st) {id} (hid : id ≤ st.nextClient) (now : ℕ)
    (f : Bytes → Option ClientID) :
    Evolves st ({ st with confirmed := id :: st.confirmed, byOwner := f }.renewClient id now) := by
  have hreg : Consistent { st with confirmed := id :: st.confirmed, byOwner := f } :=
    h.registry (List.forall_mem_cons.2 ⟨hid, h.confirmed⟩) h.unconfirmed
  exact .of_shrinks (hreg.touched (Renews.renew _ id now).touched) ⟨rfl, fun _ hk => hk⟩

theorem confirmClientID_evolves (h : Consistent st) (now : ℕ) (id : ClientID) (verf : UInt64) :
    Evolves st (st.confirmClientID now id verf).2 := by
  unfold Store.confirmClientID
  split
  · rename_i hid
    have hpending : Consistent { st with unconfirmed := st.unconfirmed.filter (· ≠ id) } :=
      h.registry h.confirmed fun c hc => h.unconfirmed c (List.mem_filter.1 hc).1
    have hfirst : Shrinks st { st with unconfirmed := st.unconfirmed.filter (· ≠ id) } :=
      ⟨rfl, fun _ hk => hk⟩
    have hbound := h.unconfirmed id hid.1
    simp only
    split
    · rename_i old _
      have hnext := release_nextClient
        { st with unconfirmed := st.unconfirmed.filter (· ≠ id) } old
      refine .prepend (hfirst.trans (release_shrinks _ old)) ?_
      refine register_evolves (hpending.release old) ?_ now _
      rw [hnext]
      exact hbound
    · exact .prepend hfirst (register_evolves hpending hbound now _)
  · split
    · exact .touched h (Renews.renew st id now).touched
    · exact .of_shrinks h (.refl st)

theorem sweepExpired_evolves (h : Consistent st) (now : ℕ) : Evolves st (st.sweepExpired now) := by
  have hprune : Touched st (st.pruneTombstones now) :=
    ⟨rfl, rfl, rfl, rfl, rfl, rfl, rfl, rfl, fun _ => .refl _⟩
  have hrevoke := (h.touched hprune).revokeTimedOut now
  have hdrop : Consistent (((st.pruneTombstones now).revokeTimedOut now).dropUnconfirmed now) :=
    hrevoke.registry hrevoke.confirmed
      fun c hc => hrevoke.unconfirmed c (List.mem_filter.1 hc).1
  have hmark : ∀ (st : Store) (c : ClientID), Touched st (st.tombstone now c) :=
    fun _ _ => ⟨rfl, rfl, rfl, rfl, rfl, rfl, rfl, rfl, fun _ => .refl _⟩
  have hfold : ∀ (cs : List ClientID) (st : Store), Consistent st →
      Consistent (cs.foldl (Store.expire now) st) := by
    intro cs
    induction cs with
    | nil =>
      intro st hst
      exact hst
    | cons c cs ih =>
      intro st hst
      exact ih _ ((hst.touched (hmark st c)).release c)
  have hshrink : Shrinks st (((st.pruneTombstones now).revokeTimedOut now).dropUnconfirmed now) := by
    have hr : Shrinks (st.pruneTombstones now) ((st.pruneTombstones now).revokeTimedOut now) :=
      .foldl (fun st d => revokeDelegation_shrinks st d now) _ _
    have hall := (Shrinks.touched hprune).trans hr
    exact ⟨hall.next, hall.live⟩
  refine .of_shrinks (hfold _ _ hdrop) (hshrink.trans (.foldl (fun st c => ?_) _ _))
  exact (Shrinks.touched (hmark st c)).trans (release_shrinks _ c)

end Clients

section Opens

variable {st : Store} {plan : OpenPlan}

theorem openNew_evolves (h : Consistent st) (hl : plan.owner.lock = false)
    (hc : plan.owner.client ≤ st.nextClient) (f : Option OpenFile) :
    Evolves st (openNew st plan f) :=
  .install (h.openNew hl hc f) rfl fun k => List.mem_cons

theorem openUpgrade_evolves (h : Consistent st) (f : Option OpenFile) (k : ℕ) :
    Evolves st (openUpgrade st plan f k) :=
  .of_shrinks (h.openUpgrade plan f k) ⟨rfl, fun _ hk => hk⟩

theorem openGrant_evolves {st₁} (h : Evolves st st₁) (hc : plan.owner.client ≤ st₁.nextClient)
    (now k : ℕ) : Evolves st (openGrant st₁ now plan k).2 := by
  simp only [openGrant]
  split
  · have hg := grantDelegation_evolves h.consistent hc plan.target plan.access
    refine Evolves.append ?_ (Renews.renew _ _ now).touched
    refine ⟨hg.consistent, le_trans h.next hg.next, fun j hj => ?_, fun j hlt hle => ?_⟩
    · rcases hg.fresh j hj with hold | hnew
      · exact h.fresh j hold
      · exact .inr (lt_of_le_of_lt h.next hnew)
    by_cases hj : j ≤ st₁.nextOther
    · have hold := h.issued j hlt hj
      rw [mem_live] at hold ⊢
      unfold Store.grantDelegation
      split
      · rcases hold with ho | hl | hd
        · exact .inl ho
        · exact .inr (.inl hl)
        · exact .inr (.inr (List.mem_cons_of_mem _ hd))
      · exact hold
    · exact hg.issued j (not_le.1 hj) hle
  · exact h.append (Renews.renew _ _ now).touched

theorem openRecall_evolves (h : Consistent st) (now : ℕ) (plan : OpenPlan) (a : OpenArgs) :
    Consistent (openRecall st now plan a).2 ∧ Shrinks st (openRecall st now plan a).2 ∧
      (openRecall st now plan a).2.nextClient = st.nextClient := by
  unfold openRecall
  split
  · exact ⟨h.recallDelegations now _ _, recallDelegations_shrinks st now _ _,
      recallDelegations_nextClient st now _ _⟩
  · exact ⟨h, .refl st, rfl⟩

theorem openAct_evolves {st'} (h : Consistent st) (ha : OpenAct st st') : Evolves st st' := by
  have hbound : ∀ {plan a}, Planned st plan a → ∀ now,
      plan.owner.client ≤ (openRecall st now plan a).2.nextClient := by
    intro plan a hp now
    rw [(openRecall_evolves h now plan a).2.2]
    exact h.confirmed _ hp.confirmed
  cases ha with
  | none => exact .of_shrinks h (.refl st)
  | recalled now plan a f =>
    obtain ⟨hcons, hshrink, -⟩ := openRecall_evolves h now plan a
    exact .prepend hshrink (.touched hcons (.closeFile _ f))
  | opened now plan a f hp hn =>
    obtain ⟨hcons, hshrink, -⟩ := openRecall_evolves h now plan a
    exact .prepend hshrink
      (openGrant_evolves (openNew_evolves hcons hp.lock (hbound hp now) f) (hbound hp now) now _)
  | upgraded now plan a f k hp hk =>
    obtain ⟨hcons, hshrink, -⟩ := openRecall_evolves h now plan a
    exact .prepend hshrink
      (openGrant_evolves (openUpgrade_evolves hcons f k) (hbound hp now) now k)
  | kept f => exact .touched h (.closeFile _ f)
  | downgraded k s f hs =>
    have hset := h.setOpen hs.path hs.owner hs.client
    exact .append (.of_shrinks hset ⟨rfl, fun _ hk => hk⟩) (.closeFile _ f)

end Opens

section Operations

variable {st : Store}

theorem closeTables_shrinks (t : Tables) (o : OwnerRef) (k : ℕ) :
    (closeTables t o k).nextOther = t.nextOther ∧ (closeTables t o k).opens ⊆ t.opens ∧
      (closeTables t o k).locks ⊆ t.locks := by
  obtain ⟨ix, owners, he, -⟩ := closeTables_eq t o k
  rw [he]
  exact ⟨rfl, List.filter_subset_self _, List.filter_subset_self _⟩

theorem close_evolves (h : Consistent st) {o k} (hk : k ∈ st.opens)
    (ho : st.stateOwners k = some o) (hb : st.toTables.locksBlockClose k = false) (now : ℕ) :
    Evolves st (closeState st o k now) := by
  have howner : (st.openState k).owner = o :=
    Option.some.inj ((h.tidy.owned.owner k hk).symm.trans ho)
  have hclose := h.close hk howner hb now
  obtain ⟨hn, hopens, hlocks⟩ := closeTables_shrinks st.toTables o k
  have hev : Evolves st _ := .of_shrinks hclose (.of_subset hn hopens hlocks (List.Subset.refl _))
  exact hev.append (.closeFile _ _)

theorem installLock_evolves (h : Consistent st) {s} (hl : s.owner.lock = true)
    (hc : s.owner.client = s.client) (hlive : s.opened ∈ st.opens)
    (hp : (st.openState s.opened).path = s.path) (hcl : (st.openState s.opened).client = s.client) :
    Evolves st (st.setTables (st.toTables.installLock s)) := by
  refine .install (h.setTables (h.tidy.installLock hl hc hlive hp hcl) rfl (fun _ _ => rfl)
    (Nat.le_succ _) (List.forall_mem_cons.2 ⟨.inr (Nat.lt_succ_self _), fun _ => .inl⟩)) rfl
    fun k => ?_
  change k ∈ st.opens ++ _ :: st.locks ++ st.delegs ↔ _
  simp [live, or_left_comm]

theorem setRanges_evolves (h : Consistent st) (l : ℕ) (rs : List LockRange) :
    Evolves st (setRanges st l rs) :=
  .of_shrinks (h.setTables (h.tidy.setRanges l rs _) rfl (fun _ _ => rfl) (le_refl _)
    fun m hm => .inl hm) ⟨rfl, fun _ hk => hk⟩

theorem dropLocks_evolves (h : Consistent st) (o : OwnerRef) : Evolves st (dropLocks st o) := by
  have htidy := h.tidy.removeLocks (st.locks.filter fun l => (st.lockState l).owner = o)
    fun l hl => h.tidy.owned.apart l (List.mem_filter.1 hl).1
  obtain ⟨ix, owners, he, -, -⟩ := foldl_removeLock Inv.removeLock_forgetOwner_step
    (st.locks.filter fun l => (st.lockState l).owner = o) st.toTables
  rw [dropLocks, he]
  rw [he] at htidy
  refine .of_shrinks (h.setTables htidy rfl (fun _ _ => rfl) (le_refl _)
    fun l hl => .inl (List.mem_filter.1 hl).1) ?_
  exact .of_subset rfl (List.Subset.refl _) (List.filter_subset_self _) (List.Subset.refl _)

theorem act_evolves {st' kind} (h : Consistent st) (ha : Act kind st st') : Evolves st st' := by
  cases ha with
  | none => exact .of_shrinks h (.refl st)
  | setClientID now id v cv pr => exact setClientID_evolves h now id v cv pr
  | confirm now id verf => exact confirmClientID_evolves h now id verf
  | sweep now => exact sweepExpired_evolves h now
  | returned d hd => exact .of_shrinks (h.dropDelegation hd) (dropDelegation_shrinks st d)
  | close o k now hk ho hb => exact close_evolves h hk ho hb now
  | lock k o rng ho hn => exact installLock_evolves h ho hn.client.symm hn.live rfl rfl
  | relock l o rng => exact setRanges_evolves h l _
  | unlock l rng => exact setRanges_evolves h l _
  | dropLocks o => exact dropLocks_evolves h o

theorem step_evolves (h : Consistent st) (r : Request) : Evolves st (step st r) := by
  rcases step_cases st r with ⟨st₁, st₂, h₁, ha, h₂⟩ | ⟨st₁, st₂, h₁, ha, h₂⟩
  · have hev := act_evolves (h.touched h₁.touched) ha
    exact .prepend (.touched h₁.touched) (hev.append h₂.touched)
  · have hev := openAct_evolves (h.touched h₁.touched) ha
    exact .prepend (.touched h₁.touched) (hev.append h₂.touched)

end Operations

section Renames

variable {st : Store}

/-- A RENAME stops before or after its recalls, or moves state between two names of which neither
is above the other. -/
theorem rename_evolves (h : Consistent st) (now : ℕ) (fs : FsView) (saved fh : Option Path)
    (oldName newName : Except Failure String) :
    Evolves st (rename st now fs saved fh oldName newName).2 := by
  have hrefl : Evolves st st := .of_shrinks h (.refl st)
  have hmove : ∀ s f src dst, src ≠ [] → ¬ src <+: dst → ¬ dst <+: src →
      Evolves st (renameMove st now fs s f src dst).2 := by
    intro s f src dst hs h₁ h₂
    obtain ⟨st₁, st₂, he₁, he₂, hmove⟩ := renameMove_outcomes st now fs s f src dst
    have hr₁ : Evolves st st₁ := he₁ ▸ recallDelegations_evolves h now src none
    have hr₂ : Evolves st₁ st₂ := he₂ ▸ recallDelegations_evolves hr₁.consistent now dst none
    have hs₁ : Shrinks st st₁ := he₁ ▸ recallDelegations_shrinks st now src none
    have hs₂ : Shrinks st st₂ := hs₁.trans (he₂ ▸ recallDelegations_shrinks st₁ now dst none)
    rcases hmove with he | he | he
    · rw [he]
      exact hr₁
    · rw [he]
      exact .prepend hs₁ hr₂
    · rw [he]
      exact .of_shrinks (hr₂.consistent.renamePath hs h₁ h₂) ⟨hs₂.next, hs₂.live⟩
  rcases rename_outcomes st now fs saved fh oldName newName with he | ⟨s, f, o, n, h₁, h₂, he⟩
  · rw [he]
    exact hrefl
  · rw [he]
    exact hmove s f _ _ (by simp) h₁ h₂

end Renames

theorem next_evolves {st} (h : Consistent st) (e : Event) : Evolves st (next st e) := by
  cases e with
  | request r => exact step_evolves h r
  | rename now fs saved fh oldName newName =>
    exact rename_evolves h now fs saved fh oldName newName
  | recallAt now p except => exact recallDelegations_evolves h now p except

theorem new_consistent (cfg : Config) : Consistent (newStateStore cfg) where
  tidy :=
    { indexed := ⟨nofun, Indexes.empty _, nofun⟩
      owned := ⟨nofun, nofun, nofun, nofun⟩
      opensOnce := List.nodup_nil
      locksOnce := List.nodup_nil
      lockIndex := Indexes.empty _
      openOwner := nofun
      lockOwner := nofun
      known := nofun
      closed := nofun
      live := nofun
      path := nofun
      client := nofun }
  delegBound := nofun
  delegsOnce := List.nodup_nil
  delegIndex := Indexes.empty _
  delegApart := nofun
  openCount _ := rfl
  delegCount _ := rfl
  openClient := nofun
  delegClient := nofun
  confirmed := nofun
  unconfirmed := nofun

theorem foldl_consistent {st} (h : Consistent st) (es : List Event) :
    Consistent (es.foldl next st) := by
  induction es generalizing st with
  | nil => exact h
  | cons e es ih => exact ih (next_evolves h e).consistent

theorem serve_consistent (cfg : Config) (es : List Event) : Consistent (serve cfg es) :=
  foldl_consistent (new_consistent cfg) es

section Issued

variable {st : Store}

theorem live_bound (h : Consistent st) {k} (hk : k ∈ live st) : k ≤ st.nextOther := by
  rcases mem_live.1 hk with hk | hk | hk
  · exact h.tidy.indexed.bound k hk
  · exact h.tidy.owned.lockBound k hk
  · exact h.delegBound k hk

theorem live_once (h : Consistent st) : (live st).Nodup := by
  have hol : (st.opens ++ st.locks).Nodup := by
    refine List.nodup_append.2 ⟨h.tidy.opensOnce, h.tidy.locksOnce, fun k hk l hl e => ?_⟩
    subst e
    exact h.tidy.owned.apart k hl hk
  refine List.nodup_append.2 ⟨hol, h.delegsOnce, fun k hk d hd e => ?_⟩
  subst e
  rcases List.mem_append.1 hk with hk | hk
  · exact (h.delegApart k hd).1 hk
  · exact (h.delegApart k hd).2 hk

theorem next_counts (h : Consistent st) (e : Event) :
    IssuedNumbers.Counts next issuedBy (fun st => st.nextOther) st e := by
  have he := next_evolves h e
  refine ⟨he.next, (live_once he.consistent).filter _, fun k => ?_⟩
  rw [issuedBy, List.mem_filter, decide_eq_true_eq]
  constructor
  · rintro ⟨hk, hnew⟩
    exact ⟨(he.fresh k hk).resolve_left hnew, live_bound he.consistent hk⟩
  · rintro ⟨hlt, hle⟩
    refine ⟨he.issued k hlt hle, fun hold => ?_⟩
    have := live_bound h hold
    omega

theorem foldl_fresh (h : Consistent st) (es : List Event) :
    ∀ k ∈ live (es.foldl next st), k ∈ live st ∨ st.nextOther < k := by
  induction es generalizing st with
  | nil =>
    intro k hk
    exact .inl hk
  | cons e es ih =>
    intro k hk
    have he := next_evolves h e
    rcases ih he.consistent k hk with hlive | hnew
    · exact he.fresh k hlive
    · exact .inr (lt_of_le_of_lt he.next hnew)

/-- A run issues every number between its first and its last counter, once. -/
theorem issued_spec (h : Consistent st) (es : List Event) : (issued st es).Nodup ∧
      ∀ k, k ∈ issued st es ↔ st.nextOther < k ∧ k ≤ (es.foldl next st).nextOther :=
  IssuedNumbers.issued_spec (fun _ e h => (next_evolves h e).consistent)
    (fun _ e h => next_counts h e) h es

end Issued

end NfsServing
