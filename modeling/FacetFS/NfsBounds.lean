import FacetFS.NfsClients

/-! # Bounded tables and counters

A client's table of open-owners is bounded and never shrinks, and the counter of stateids is
written to eight bytes. -/
namespace NfsBounds

open NfsSeqid GroupIndex NfsStore NfsOps NfsOutcomes NfsTableInvariant NfsStoreChange
open NfsConsistency NfsServing NfsClients
open NfsExclusion (Request step)

section NewOwner

variable {st : Store} {id : ClientID} {key : Bytes}

theorem ownerOf_full (now : ℕ) (hid : id ∈ st.confirmed)
    (hkey : (st.client id).openOwners.lookup key = none)
    (hfull : maxOwnersPerClient ≤ (st.client id).openOwners.keys.length) :
    (st.ownerOf now id key).1 = .error nfs4ErrResource := by
  have hclient : ((st.renewClient id now).client id).openOwners = (st.client id).openOwners := by
    simp [Store.renewClient, Store.setClient]
  simp [Store.ownerOf, Store.ownerIn, hid, hclient, hkey, hfull]

theorem ownerOf_new (now : ℕ) (hid : id ∈ st.confirmed)
    (hkey : (st.client id).openOwners.lookup key = none)
    (hroom : (st.client id).openOwners.keys.length < maxOwnersPerClient) :
    ∃ st₁, st.ownerOf now id key = (.ok ⟨id, false, key, st.nextOwner⟩, st₁) ∧ Touched st st₁ ∧
      (st₁.owner ⟨id, false, key, st.nextOwner⟩).seq = .new ∧
      (st₁.client id).openOwners = (st.client id).openOwners.insert key st.nextOwner := by
  have hclient : ((st.renewClient id now).client id).openOwners = (st.client id).openOwners := by
    simp [Store.renewClient, Store.setClient]
  have hnext : (st.renewClient id now).nextOwner = st.nextOwner := rfl
  have htouch := (ownerIn_renews st now id false key).touched
  have hlt : ¬ maxOwnersPerClient ≤ (st.client id).openOwners.keys.length := not_le.2 hroom
  simp only [Store.ownerIn, hid, not_true_eq_false, if_false, Bool.false_eq_true, hclient, hkey,
    ge_iff_le, hlt] at htouch
  refine ⟨_, ?_, htouch, ?_, ?_⟩
  · simp only [Store.ownerOf, Store.ownerIn, hid, not_true_eq_false, if_false, Bool.false_eq_true,
      hclient, hkey, ge_iff_le, hlt]
    rfl
  · simp [Store.setOwner, hnext, Owner.new]
  · simp [Store.setOwner, Store.setClient, hnext]

theorem sequenced_new {o} (h : (st.owner o).seq = .new) (opnum seqid : UInt32)
    (body : Store → BodyResult × Store) :
    (sequenced st o opnum seqid body).1.status = (body st).1.status ∧
      ∃ f, (sequenced st o opnum seqid body).2 = { (body st).2 with owner := f } := by
  have hrun : withSeqid OwnerSeq.new opnum seqid body st =
      execute { OwnerSeq.new with fresh := false, seqid := seqid } opnum body st := rfl
  have hstore : (execute { OwnerSeq.new with fresh := false, seqid := seqid } opnum body st).2.2 =
      (body st).2 := by
    cases hn : noAdvance (body st).1.status <;> simp [execute, hn]
  simp only [sequenced, h, hrun]
  refine ⟨(execute_status _ opnum body st).1, ?_⟩
  rw [hstore]
  exact ⟨_, rfl⟩

end NewOwner

section Resources

variable {st : Store} {a : OpenArgs} {env : OpenEnv}

/-- Neither a check of the arguments nor the FileSystem answers NFS4ERR_RESOURCE. -/
structure Affordable (a : OpenArgs) (env : OpenEnv) : Prop where
  name : a.name ≠ .error nfs4ErrResource
  attrs : a.attrs ≠ .error nfs4ErrResource
  dir : env.dir ≠ nfs4ErrResource
  lookup : env.lookup ≠ .error nfs4ErrResource
  file : env.file ≠ .error nfs4ErrResource
  apply : env.apply ≠ nfs4ErrResource

/-- The client holds no open state, no lock state and no delegation. -/
structure HoldsNothing (st : Store) (id : ClientID) : Prop where
  opens : ∀ k ∈ st.opens, (st.openState k).client ≠ id
  locks : ∀ l ∈ st.locks, (st.lockState l).client ≠ id
  delegs : ∀ d ∈ st.delegs, (st.delegation d).client ≠ id

theorem refused_ne (a : OpenArgs) : a.refused ≠ nfs4ErrResource := by
  unfold OpenArgs.refused
  split
  · decide
  split
  · decide
  split
  · decide
  · split <;> decide

theorem existingStatus_ne (a : OpenArgs) (env : OpenEnv) (k : Kind) :
    existingStatus a env k ≠ nfs4ErrResource := by
  unfold existingStatus
  split
  · decide
  · cases k <;> decide

theorem openTarget_status (h : Affordable a env) {fh e}
    (he : openTarget fh a env = .error e) : e ≠ nfs4ErrResource := by
  rintro rfl
  rcases openTarget_error he with
    hname | ⟨hr, -⟩ | hfh | ⟨hd, -⟩ | hattrs | hxdr | ⟨k, hk, -⟩ | hlookup
  · exact h.name hname
  · exact refused_ne a hr.symm
  · exact absurd hfh (by decide)
  · exact h.dir hd.symm
  · exact h.attrs hattrs
  · exact absurd hxdr (by decide)
  · exact existingStatus_ne a env k hk.symm
  · exact h.lookup hlookup

theorem recallDelegations_status (st : Store) (now : ℕ) (p : Path) (except : Option ClientID) :
    (st.recallDelegations now p except).1 ≠ nfs4ErrResource := by
  simp only [Store.recallDelegations]
  split <;> decide

theorem openRecall_status (st : Store) (now : ℕ) (plan : OpenPlan) (a : OpenArgs) :
    (openRecall st now plan a).1 ≠ nfs4ErrResource := by
  unfold openRecall
  split
  · exact recallDelegations_status st now _ _
  · exact (by decide : nfs4OK ≠ nfs4ErrResource)

theorem openFiles_error (h : Affordable a env) {plan e}
    (he : (openFiles st plan a env).1 = .error e) : e ≠ nfs4ErrResource := by
  rintro rfl
  unfold openFiles at he
  split at he
  · rename_i hfile
    cases he
    split at hfile
    · cases hf : env.file with
      | error e =>
        rw [hf] at hfile
        cases hfile
        exact h.file hf
      | ok x =>
        rw [hf] at hfile
        cases hfile
    · cases hfile
  · simp only at he
    split at he
    · exact h.apply (Except.error.inj he)
    · cases he

theorem openFinish_status (h : Affordable a env) {plan now}
    (hroom : ((openRecall st now plan a).2.client plan.owner.client).opens < maxOpensPerClient) :
    (openFinish now plan a env st).1.status ≠ nfs4ErrResource := by
  have hrecall := openRecall_status st now plan a
  simp only [openFinish]
  split
  · exact hrecall
  obtain ⟨file, hfiles⟩ := openFiles_outcomes (openRecall st now plan a).2 plan a env
  split
  · rename_i e st₁ he
    exact openFiles_error h (congrArg Prod.fst he)
  rename_i f st₁ he
  rw [he] at hfiles
  obtain rfl : st₁ = _ := hfiles
  have hroom' : (((openRecall st now plan a).2.closeFile file).client
    plan.owner.client).opens < maxOpensPerClient := hroom
  split
  · rename_i e st₂ hi
    rcases openInstall_error (congrArg Prod.fst hi) with rfl | ⟨-, hfull⟩
    · exact (by decide : nfs4ErrShareDenied ≠ nfs4ErrResource)
    · exact absurd hroom' (not_lt.2 hfull)
  · exact (by decide : nfs4OK ≠ nfs4ErrResource)

theorem openWith_status (h : Affordable a env) (hc : Consistent st) {o}
    (hopens : ∀ k ∈ st.opens, (st.openState k).client ≠ o.client) (now : ℕ) (fh : Option Path) :
    (openWith now fh o a env st).1.status ≠ nfs4ErrResource := by
  unfold openWith
  split
  · rename_i he
    exact openTarget_status h he
  split
  · rename_i he
    rw [openCheck_error he]
    exact (by decide : nfs4ErrShareDenied ≠ nfs4ErrResource)
  rename_i plan hplan
  have ho := (openCheck_ok hplan).1
  apply openFinish_status h
  -- the counter of a client without open states is zero, before and after the recall
  have hcons := (openRecall_evolves hc now plan a).1
  have htables := openRecall_tables st now plan a
  rw [hcons.openCount, htables, ho, List.countP_eq_zero.2]
  · decide
  · intro k hk
    simpa using hopens k hk

theorem openFile_resource_iff (hc : Consistent st) (hid : a.clientID ∈ st.confirmed)
    (hnone : HoldsNothing st a.clientID)
    (hkey : (st.client a.clientID).openOwners.lookup a.owner = none) (h : Affordable a env)
    (now : ℕ) (fh : Option Path) :
    (openFile st now fh a env).1.status = nfs4ErrResource ↔
      maxOwnersPerClient ≤ (st.client a.clientID).openOwners.keys.length := by
  constructor
  · intro hstatus
    by_contra hroom
    obtain ⟨st₁, he, ht, hseq, -⟩ := ownerOf_new now hid hkey (not_le.1 hroom)
    simp only [openFile, he] at hstatus
    rw [(sequenced_new hseq _ _ _).1] at hstatus
    refine openWith_status h (hc.touched ht) ?_ now fh hstatus
    rw [ht.tables]
    exact hnone.opens
  intro hfull
  have he := ownerOf_full now hid hkey hfull
  unfold openFile
  split
  · rename_i he'
    rw [he'] at he
    cases he
    rfl
  rename_i he'
  rw [he'] at he
  cases he

end Resources

variable {n : ℕ}

section FullTable

variable (id : ClientID) (owner : Bytes) (name : String)

def readOf (id : ClientID) (owner : Bytes) (name : String) : OpenArgs where
  seqid := 1
  access := shareRead
  deny := 0
  clientID := id
  owner := owner
  openType := 0
  createMode := 0
  claim := claimNull
  name := .ok name
  attrsGiven := false
  attrs := .ok none

def answers (lookup : Except NfsStat Kind) : OpenEnv where
  dir := nfs4OK
  lookup := lookup
  exclusive := false
  file := .ok 0
  apply := nfs4OK
  before := 0
  after := 0
  applied := []

theorem readOf_refused : (readOf id owner name).refused = nfs4OK := by
  change (readOf 0 [] "").refused = nfs4OK
  decide

theorem openTarget_absent :
    openTarget (some []) (readOf id owner name) (answers (.error nfs4ErrNoEnt)) =
      .error nfs4ErrNoEnt := by
  change (if (readOf id owner name).refused ≠ nfs4OK then _ else _) = _
  rw [if_neg (not_not.2 (readOf_refused id owner name))]
  rfl

theorem openTarget_present (dir : Path) : openTarget (some dir) (readOf id owner name)
    (answers (.ok .regular)) = .ok (dir ++ [name]) := by
  change (if (readOf id owner name).refused ≠ nfs4OK then _ else _) = _
  rw [if_neg (not_not.2 (readOf_refused id owner name))]
  rfl

def clientStart : List Event :=
  [.request (.setClientID 0 [1] 7 9 "none"), .request (.setClientIDConfirm 0 1 9)]

def absentOpen (owner : Bytes) : Event :=
  .request (.openFile 0 (some []) (readOf 1 owner "a") (answers (.error nfs4ErrNoEnt)))

/-- Client 1 holds nothing and its table has `n` owners. -/
structure Filled (n : ℕ) (st : Store) : Prop where
  confirmed : 1 ∈ st.confirmed
  opens : st.opens = []
  locks : st.locks = []
  delegs : st.delegs = []
  length : (st.client 1).openOwners.keys.length = n

theorem exists_unused (table : AList fun _ : Bytes => ℕ) : ∃ key, table.lookup key = none := by
  obtain ⟨key, hkey⟩ := Infinite.exists_notMem_finset table.keys.toFinset
  exact ⟨key, AList.lookup_eq_none.2 fun h => hkey (List.mem_toFinset.2 h)⟩

theorem length_insert {table : AList fun _ : Bytes => ℕ} {key : Bytes} (h : table.lookup key = none)
    (n : ℕ) : (table.insert key n).keys.length = table.keys.length + 1 := by
  have hkey : key ∉ table.entries.keys := AList.lookup_eq_none.1 h
  simp [AList.keys, List.keys, List.kerase_of_notMem_keys hkey]

theorem Filled.step {st} (h : Filled n st) (hn : n < maxOwnersPerClient)
    (hnew : (st.client 1).openOwners.lookup owner = none) :
    Filled (n + 1) (next st (absentOpen owner)) := by
  obtain ⟨st₁, he, ht, hseq, htable⟩ := ownerOf_new 0 h.confirmed hnew (by rwa [h.length])
  obtain ⟨-, f, hst⟩ := sequenced_new hseq opOpen 1 (openWith 0 (some []) ⟨1, false, owner,
    st.nextOwner⟩ (readOf 1 owner "a") (answers (.error nfs4ErrNoEnt)))
  have hbody : (openWith 0 (some []) ⟨1, false, owner, st.nextOwner⟩
      (readOf 1 owner "a") (answers (.error nfs4ErrNoEnt)) st₁).2 = st₁ := by
    rw [openWith, openTarget_absent]
  have hnext : next st (absentOpen owner) = { st₁ with owner := f } := by
    rw [hbody] at hst
    rw [← hst]
    simp only [absentOpen, next, NfsExclusion.step, openFile]
    have he' : st.ownerOf 0 (readOf 1 owner "a").clientID (readOf 1 owner "a").owner = _ := he
    rw [he']
    rfl
  rw [hnext]
  refine ⟨?_, ?_, ?_, ?_, ?_⟩
  · rw [ht.confirmed]
    exact h.confirmed
  · rw [ht.tables]
    exact h.opens
  · rw [ht.tables]
    exact h.locks
  · rw [ht.delegs]
    exact h.delegs
  · change (st₁.client 1).openOwners.keys.length = n + 1
    rw [htable, length_insert hnew, h.length]

theorem exists_filled (cfg : Config) (hn : n ≤ maxOwnersPerClient) :
    ∃ es, Filled n (serve cfg es) := by
  induction n with
  | zero => exact ⟨clientStart, List.mem_singleton.2 rfl, rfl, rfl, rfl, rfl⟩
  | succ n ih =>
    obtain ⟨es, h⟩ := ih (Nat.le_of_succ_le hn)
    obtain ⟨key, hkey⟩ := exists_unused ((serve cfg es).client 1).openOwners
    refine ⟨es ++ [absentOpen key], ?_⟩
    rw [serve, List.foldl_append]
    exact h.step key hn hkey

theorem readOf_affordable : Affordable (readOf id owner name) (answers (.ok .regular)) :=
  ⟨nofun, nofun, by decide, nofun, nofun, by decide⟩

/-- In every run, a client that holds nothing is refused a new open-owner for want of resources
exactly when its table of open-owners is full. -/
theorem newOwner_refused_iff_full (cfg : Config) (es : List Event) (now : ℕ) (fh : Option Path)
    (a : OpenArgs) (env : OpenEnv) (hid : a.clientID ∈ (serve cfg es).confirmed)
    (hnone : HoldsNothing (serve cfg es) a.clientID)
    (hkey : ((serve cfg es).client a.clientID).openOwners.lookup a.owner = none)
    (h : Affordable a env) :
    (openFile (serve cfg es) now fh a env).1.status = nfs4ErrResource ↔
      maxOwnersPerClient ≤ ((serve cfg es).client a.clientID).openOwners.keys.length :=
  openFile_resource_iff (serve_consistent cfg es) hid hnone hkey h now fh

theorem first_owner_not_refused :
    (openFile (serve ⟨90, 10, 0, false⟩ clientStart) 0 (some []) (readOf 1 [5] "a")
      (answers (.ok .regular))).1.status ≠ nfs4ErrResource := by
  rw [Ne, newOwner_refused_iff_full ⟨90, 10, 0, false⟩ clientStart 0 (some []) (readOf 1 [5] "a")
    (answers (.ok .regular)) (List.mem_singleton.2 rfl) ⟨nofun, nofun, nofun⟩ rfl
    (readOf_affordable _ _ _)]
  decide

theorem Filled.holdsNothing {st} (h : Filled n st) : HoldsNothing st 1 := by
  refine ⟨fun k hk => ?_, fun l hl => ?_, fun d hd => ?_⟩
  · simp [h.opens] at hk
  · simp [h.locks] at hl
  · simp [h.delegs] at hd

/-- After 4096 OPENs that all failed, a client that holds nothing cannot open a file as a new
owner. -/
theorem exhausted_by_failed_opens :
    ∃ (cfg : Config) (es : List Event) (now : ℕ) (fh : Option Path) (a : OpenArgs) (env : OpenEnv),
      a.clientID ∈ (serve cfg es).confirmed ∧ HoldsNothing (serve cfg es) a.clientID ∧
        ((serve cfg es).client a.clientID).openOwners.lookup a.owner = none ∧
        Affordable a env ∧ openTarget fh a env = .ok ["a"] ∧
        (openFile (serve cfg es) now fh a env).1.status = nfs4ErrResource := by
  obtain ⟨es, h⟩ := exists_filled ⟨90, 10, 0, false⟩ (le_refl maxOwnersPerClient)
  obtain ⟨key, hkey⟩ := exists_unused ((serve ⟨90, 10, 0, false⟩ es).client 1).openOwners
  refine ⟨_, es, 0, some [], readOf 1 key "a", answers (.ok .regular), h.confirmed, h.holdsNothing,
    hkey, readOf_affordable _ _ _, openTarget_present _ _ _ [], ?_⟩
  exact (openFile_resource_iff (serve_consistent _ es) h.confirmed h.holdsNothing hkey
    (readOf_affordable _ _ _) 0 _).2 (le_of_eq h.length.symm)

end FullTable

section Issuing

variable {st : Store} {id : ClientID} {owner : Bytes} {dir : Path}

theorem openWith_free (hmem : members st.byPath (dir ++ ["a"]) = [])
    (hroom : (st.client id).opens < maxOpensPerClient) (owner : Bytes) (n : ℕ) :
    ∃ plan f, (openWith 0 (some dir) ⟨id, false, owner, n⟩ (readOf id owner "a")
      (answers (.ok .regular)) st).2 =
        (openGrant (openNew st plan f) 0 plan (st.nextOther + 1)).2 := by
  have hfind : st.toTables.findOpen (dir ++ ["a"]) ⟨id, false, owner, n⟩ = none := by
    simp [Tables.findOpen, hmem]
  have hconf : ∀ access deny,
      st.toTables.shareConflict (dir ++ ["a"]) ⟨id, false, owner, n⟩ access deny = false := by
    intro access deny
    simp [Tables.shareConflict, hmem]
  set plan : OpenPlan := ⟨⟨id, false, owner, n⟩, dir ++ ["a"], shareRead, 0, true⟩ with hplan
  have hcheck : openCheck st.toTables ⟨id, false, owner, n⟩ (dir ++ ["a"]) (readOf id owner "a") =
      .ok plan := by
    simp [openCheck, hfind, hconf, readOf, hplan]
  have hrecall : openRecall st 0 plan (readOf id owner "a") = (nfs4OK, st) := by
    have hno : (readOf id owner "a").recalls = false := by
      change (readOf 0 [] "").recalls = false
      decide
    simp [openRecall, hno]
  have hinstall : openInstall st 0 plan (some ⟨0, plan.flag⟩) =
      (.ok (openGrant (openNew st plan (some ⟨0, plan.flag⟩)) 0 plan (st.nextOther + 1)).1,
        (openGrant (openNew st plan (some ⟨0, plan.flag⟩)) 0 plan (st.nextOther + 1)).2) := by
    unfold openInstall
    rw [hconf, hfind]
    simp only [Bool.false_eq_true, if_false]
    rw [if_neg (not_le.2 hroom)]
  have hfiles : openFiles st plan (readOf id owner "a") (answers (.ok .regular)) =
      (.ok (some ⟨0, plan.flag⟩), st) := rfl
  refine ⟨plan, some ⟨0, plan.flag⟩, ?_⟩
  rw [openWith, openTarget_present]
  simp only [hcheck, openFinish, hrecall, hfiles, hinstall]
  rfl

/-- A read OPEN by a new owner of a file nobody has open issues a stateid. -/
theorem openFile_issues (hc : Consistent st) (hid : id ∈ st.confirmed)
    (htable : (st.client id).openOwners = ∅) (hroom : (st.client id).opens < maxOpensPerClient)
    (hfree : ∀ k ∈ st.opens, (st.openState k).path ≠ dir ++ ["a"]) :
    st.nextOther < (openFile st 0 (some dir) (readOf id owner "a")
      (answers (.ok .regular))).2.nextOther := by
  have hnone : (st.client id).openOwners.lookup owner = none := by rw [htable]; rfl
  obtain ⟨st₁, he, ht, hseq, -⟩ := ownerOf_new 0 hid hnone (by rw [htable]; decide)
  have hmem : members st₁.byPath (dir ++ ["a"]) = [] := by
    rw [ht.tables, List.eq_nil_iff_forall_not_mem]
    intro k hk
    obtain ⟨hlive, hp⟩ := (hc.tidy.indexed.index.mem _ k).1 hk
    exact hfree k hlive hp
  have hroom' : (st₁.client id).opens < maxOpensPerClient := by
    rw [(ht.client id).opens]
    exact hroom
  obtain ⟨plan, f, hbody⟩ := openWith_free hmem hroom' owner st.nextOwner
  obtain ⟨-, g, hst⟩ := sequenced_new hseq opOpen 1 (openWith 0 (some dir)
    ⟨id, false, owner, st.nextOwner⟩ (readOf id owner "a") (answers (.ok .regular)))
  have hopen : (openFile st 0 (some dir) (readOf id owner "a") (answers (.ok .regular))).2 =
      { (openGrant (openNew st₁ plan f) 0 plan (st₁.nextOther + 1)).2 with owner := g } := by
    rw [← hbody, ← hst]
    have he' : st.ownerOf 0 (readOf id owner "a").clientID (readOf id owner "a").owner = _ := he
    rw [openFile, he']
    rfl
  obtain ⟨m, hm, htables⟩ := openGrant_tables (openNew st₁ plan f) 0 plan (st₁.nextOther + 1)
  have hnext : st₁.nextOther = st.nextOther := congrArg Tables.nextOther ht.tables
  rw [hopen, ← hnext]
  change _ < (openGrant (openNew st₁ plan f) 0 plan (st₁.nextOther + 1)).2.toTables.nextOther
  rw [htables]
  exact hm

/-- In any state a client that registers under a new name can open a file nobody has open. -/
theorem exists_issuing (hc : Consistent st) (hv : (registry st).Valid) :
    ∃ es : List Event, st.nextOther < (es.foldl next st).nextOther := by
  obtain ⟨key, hkey⟩ := Infinite.exists_notMem_finset
    (st.confirmed.map fun c => (st.client c).ownerID).toFinset
  obtain ⟨dir, hdir⟩ := Infinite.exists_notMem_finset
    (st.opens.map fun k => (st.openState k).path.dropLast).toFinset
  simp only [List.mem_toFinset, List.mem_map, not_exists, not_and] at hkey hdir
  have hnone : st.byOwner key = none := by
    rw [Option.eq_none_iff_forall_ne_some]
    intro c hby
    obtain ⟨hmem, howner⟩ := (hv.byOwner key c).1 hby
    exact hkey c hmem howner
  have hevolves := next_evolves hc (.request (.setClientID 0 key 7 9 "none"))
  have hevolves' := next_evolves hevolves.consistent
    (.request (.setClientIDConfirm 0 (st.nextClient + 1) 9))
  refine ⟨[.request (.setClientID 0 key 7 9 "none"),
    .request (.setClientIDConfirm 0 (st.nextClient + 1) 9), .request (.openFile 0 (some dir)
      (readOf (st.nextClient + 1) [10] "a") (answers (.ok .regular)))],
    lt_of_le_of_lt (hevolves.next.trans hevolves'.next)
      (openFile_issues hevolves'.consistent ?_ ?_ ?_ ?_)⟩
  all_goals simp [next, step, Store.setClientID, Store.confirmClientID, Store.setClient,
    Store.renewClient, hnone]
  · decide
  · rintro k hk hp
    exact hdir k hk (by rw [hp, List.dropLast_concat])

theorem exists_issued (cfg : Config) (n : ℕ) : ∃ es, n ≤ (serve cfg es).nextOther := by
  induction n with
  | zero => exact ⟨[], Nat.zero_le _⟩
  | succ n ih =>
    obtain ⟨es, hn⟩ := ih
    obtain ⟨es', hlt⟩ := exists_issuing (serve_consistent cfg es) (foldl_valid (new_valid cfg) es)
    refine ⟨es ++ es', lt_of_le_of_lt hn (lt_of_lt_of_eq hlt ?_)⟩
    rw [serve, serve, List.foldl_append]

end Issuing

section Books

/-- The indexes and counters of a store agree with its tables. -/
structure BookKept (st : Store) : Prop where
  opens : st.opens.Nodup ∧ Indexes st.byPath st.opens fun k => (st.openState k).path
  locks : st.locks.Nodup ∧ Indexes st.locksByPath st.locks fun l => (st.lockState l).path
  delegs : st.delegs.Nodup ∧ Indexes st.delegsByPath st.delegs fun d => (st.delegation d).path
  counters : ∀ c ∈ st.confirmed,
    (st.client c).opens = st.opens.countP (fun k => (st.openState k).client = c) ∧
      (st.client c).delegs = st.delegs.countP fun d => (st.delegation d).client = c
  owners : ∀ k o, st.stateOwners k = some o → k ∈ st.opens ∨ k ∈ st.locks ∨
    o.lock = false ∧ ∀ j, st.stateOwners j = some o → j ∉ st.opens → j = k
  backed : ∀ l ∈ st.locks, (st.lockState l).opened ∈ st.opens ∧
    (st.openState (st.lockState l).opened).path = (st.lockState l).path ∧
    (st.openState (st.lockState l).opened).client = (st.lockState l).client

theorem bookKept_of_consistent {st} (h : Consistent st) : BookKept st where
  opens := ⟨h.tidy.opensOnce, h.tidy.indexed.index⟩
  locks := ⟨h.tidy.locksOnce, h.tidy.lockIndex⟩
  delegs := ⟨h.delegsOnce, h.delegIndex⟩
  counters c _ := ⟨h.openCount c, h.delegCount c⟩
  owners k o hk := by
    by_cases hopen : k ∈ st.opens
    · exact .inl hopen
    rcases h.tidy.known k o hk with hlive | hlock | ho
    · exact .inl hlive
    · exact .inr (.inl hlock)
    · refine .inr (.inr ⟨ho, fun j hj hne => ?_⟩)
      exact h.tidy.closed o j k ho hj hk hne hopen
  backed l hl := ⟨h.tidy.live l hl, h.tidy.path l hl, h.tidy.client l hl⟩

/-- The stateids a run issues are different byte strings as long as there are at most `2 ^ 64`. -/
theorem encoded_once_iff (cfg : Config) (es : List Event) :
    ((issued (newStateStore cfg) es).map (encodeOther (newStateStore cfg))).Nodup ↔
      (serve cfg es).nextOther ≤ 2 ^ 64 := by
  obtain ⟨honce, hmem⟩ := issued_spec (new_consistent cfg) es
  have hids := IssuedNumbers.nodup_map_ofNat honce hmem
  have hzero : (newStateStore cfg).nextOther = 0 := rfl
  rw [hzero, Nat.zero_add] at hids
  refine Iff.trans ?_ hids
  have hinj : Function.Injective fun v : UInt64 =>
      XdrCodec.uint32 (newStateStore cfg).epoch ++ XdrCodec.uint64 v := by
    intro v w h
    exact XdrCodec.uint64_injective (List.append_cancel_left h)
  rw [← List.nodup_map_iff hinj, List.map_map]
  rfl

/-- In every state reached the indexes and counters agree with the tables, every live stateid was
issued, and the stateids issued differ until the counter of eight bytes repeats. -/
theorem books_kept (cfg : Config) (es : List Event) : BookKept (serve cfg es) ∧
      (∀ k ∈ live (serve cfg es), k ∈ issued (newStateStore cfg) es) ∧
      (((issued (newStateStore cfg) es).map (encodeOther (newStateStore cfg))).Nodup ↔
        (serve cfg es).nextOther ≤ 2 ^ 64) := by
  have hc := serve_consistent cfg es
  refine ⟨bookKept_of_consistent hc, fun k hk => ?_, encoded_once_iff cfg es⟩
  refine ((issued_spec (new_consistent cfg) es).2 k).2 ⟨?_, live_bound hc hk⟩
  exact (foldl_fresh (new_consistent cfg) es k hk).resolve_left List.not_mem_nil

/-- After `2 ^ 64` registrations, each with an OPEN, a stateid comes back. -/
theorem stateid_repeats : ∃ (cfg : Config) (es : List Event),
      ¬ ((issued (newStateStore cfg) es).map (encodeOther (newStateStore cfg))).Nodup := by
  obtain ⟨es, hn⟩ := exists_issued ⟨90, 10, 0, false⟩ (2 ^ 64 + 1)
  refine ⟨⟨90, 10, 0, false⟩, es, ?_⟩
  rw [encoded_once_iff, not_le]
  exact hn

end Books

end NfsBounds
