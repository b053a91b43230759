import FacetFS.NfsOpenBacking

/-! # Read delegations

A read delegation promises its client that nobody else writes the file or keeps readers out.
OPEN recalls delegations in one critical section and installs its state in a later one, which
does not look at them again. -/
namespace NfsDelegations

open EventSystem NfsSeqid GroupIndex NfsStore NfsOps NfsOutcomes NfsTableInvariant NfsStoreChange
open NfsInterleaving hiding Event next
open NfsOpenBacking
open NfsExclusion (Request step)
open Function (update update_of_ne update_self)

/-- The bits that make the promise of a read delegation false. -/
def Intrudes (access deny : UInt32) : Prop := access &&& shareWrite ≠ 0 ∨ deny &&& denyRead ≠ 0

instance (access deny : UInt32) : Decidable (Intrudes access deny) :=
  inferInstanceAs (Decidable (_ ∨ _))

/-- While a client holds a delegation that is not being recalled, no other client has the file
open for writing or with read denied. -/
def ReadExclusion (st : Store) : Prop :=
  ∀ d ∈ st.delegs, (st.delegation d).recalling = false → ∀ k ∈ st.opens,
    (st.openState k).path = (st.delegation d).path →
    (st.openState k).client ≠ (st.delegation d).client →
    ¬ Intrudes (st.openState k).access (st.openState k).deny

/-- Open states and delegations only leave, and delegations are only marked as recalled. -/
structure Weakens (st st' : Store) : Prop where
  next : st.nextOther ≤ st'.nextOther
  opens : ∀ k ∈ st'.opens, k ∈ st.opens ∧ st'.openState k = st.openState k
  delegs : ∀ d ∈ st'.delegs, d ∈ st.delegs ∧
    (st'.delegation d).client = (st.delegation d).client ∧
    (st'.delegation d).path = (st.delegation d).path ∧
    ((st'.delegation d).recalling = false → (st.delegation d).recalling = false)

section Weakening

variable {st st₁ st₂ : Store}

theorem Weakens.of_eq (hn : st.nextOther ≤ st₁.nextOther) (ho : st₁.opens = st.opens)
    (hs : st₁.openState = st.openState) (hd : st₁.delegs = st.delegs)
    (hg : st₁.delegation = st.delegation) : Weakens st st₁ := by
  refine ⟨hn, fun k hk => ?_, fun d hdm => ?_⟩
  · rw [ho] at hk
    exact ⟨hk, by rw [hs]⟩
  · rw [hd] at hdm
    rw [hg]
    exact ⟨hdm, rfl, rfl, id⟩

theorem Weakens.refl (st : Store) : Weakens st st := .of_eq (le_refl _) rfl rfl rfl rfl

theorem Weakens.trans (h : Weakens st st₁) (h' : Weakens st₁ st₂) : Weakens st st₂ := by
  refine ⟨le_trans h.next h'.next, fun k hk => ?_, fun d hd => ?_⟩
  · obtain ⟨hk₁, he₁⟩ := h'.opens k hk
    obtain ⟨hk₀, he₀⟩ := h.opens k hk₁
    exact ⟨hk₀, he₁.trans he₀⟩
  · obtain ⟨hd₁, hc₁, hp₁, hr₁⟩ := h'.delegs d hd
    obtain ⟨hd₀, hc₀, hp₀, hr₀⟩ := h.delegs d hd₁
    exact ⟨hd₀, hc₁.trans hc₀, hp₁.trans hp₀, fun hr => hr₀ (hr₁ hr)⟩

theorem Weakens.renews (h : Renews st st₁) : Weakens st st₁ := by
  obtain ⟨_, _, _, -, rfl⟩ := h
  exact .of_eq (le_refl _) rfl rfl rfl rfl

theorem ReadExclusion.weakens (h : ReadExclusion st) (hw : Weakens st st₁) : ReadExclusion st₁ := by
  intro d hd hr k hk hp hc
  obtain ⟨hd₀, hcl, hpath, hrec⟩ := hw.delegs d hd
  obtain ⟨hk₀, he⟩ := hw.opens k hk
  rw [he] at hp hc ⊢
  rw [hpath] at hp
  rw [hcl] at hc
  exact h d hd₀ (hrec hr) k hk₀ hp hc

end Weakening

variable {st' : Store}

section Operations

variable (st : Store)

theorem release_weakens (c : ClientID) : Weakens st (st.release c) := by
  obtain ⟨ix, ix', owners, he, -⟩ := release_eq st.toTables c
  obtain ⟨-, hd, hg⟩ := release_spec st c
  have ht := Store.release_tables st c
  rw [he] at ht
  refine ⟨?_, fun k hk => ?_, fun d hdm => ?_⟩
  · rw [ht]
  · rw [ht] at hk ⊢
    exact ⟨(List.mem_filter.1 hk).1, rfl⟩
  · rw [hd] at hdm
    rw [hg]
    exact ⟨(List.mem_filter.1 hdm).1, rfl, rfl, id⟩

theorem close_weakens (o : OwnerRef) (k now : ℕ) : Weakens st (closeState st o k now) := by
  obtain ⟨ix, owners, hclose, -⟩ := closeTables_eq st.toTables o k
  rw [closeState, hclose]
  refine ⟨le_refl _, fun j hj => ?_, fun d hd => ⟨hd, rfl, rfl, id⟩⟩
  obtain ⟨hlive, hne⟩ := List.mem_filter.1 hj
  exact ⟨hlive, update_of_ne (of_decide_eq_true hne) _ _⟩

variable {st}

theorem Weakens.move (h : Move st st') : Weakens st st' := by
  cases h with
  | renews h => exact .renews h
  | setClientID =>
    unfold Store.setClientID
    split
    · exact .refl st
    · exact .of_eq (le_refl _) rfl rfl rfl rfl
  | register => exact .of_eq (le_refl _) rfl rfl rfl rfl
  | books => exact .of_eq (le_refl _) rfl rfl rfl rfl
  | drop d =>
    exact ⟨le_refl _, fun _ hk => ⟨hk, rfl⟩, fun _ he => ⟨(List.mem_filter.1 he).1, rfl, rfl, id⟩⟩
  | mark d now =>
    refine ⟨le_refl _, fun _ hk => ⟨hk, rfl⟩, fun e he => ⟨he, ?_⟩⟩
    by_cases hed : e = d
    · subst hed
      simp
    · simp [hed]
  | release c => exact release_weakens st c
  | close o k now => exact close_weakens st o k now
  | lock => exact .of_eq (Nat.le_succ _) rfl rfl rfl rfl
  | ranges => exact .of_eq (le_refl _) rfl rfl rfl rfl
  | dropLocks o =>
    obtain ⟨ix, owners, he, -, -⟩ := foldl_removeLock Inv.removeLock_forgetOwner_step
      (st.locks.filter fun l => (st.lockState l).owner = o) st.toTables
    rw [NfsOutcomes.dropLocks, he]
    exact .of_eq (le_refl _) rfl rfl rfl rfl

theorem weakens_of_moves (h : Moves st st') : Weakens st st' := h.rel .refl .trans .move

end Operations

/-- A critical section of the server, or the recall that a WRITE, a SETATTR, a REMOVE or a LINK
makes first. -/
inductive Event where
  | critical (e : NfsInterleaving.Event)
  | recalls (now : ℕ) (p : Path) (except : Option ClientID)

def next (s : Server) : Event → Option Server
  | .critical (.renamePath _ _) => none
  | .critical e => NfsInterleaving.next s e
  | .recalls now p except =>
    some { s with store := (s.store.recallDelegations now p except).2 }

/-- A downgrade that passed its check asks for bits the state has. -/
def Narrows (st : Store) : Pending → Prop
  | .downChecked _ a _ => a.other.count ∈ st.opens →
    a.access &&& (st.openState a.other.count).access = a.access ∧
      a.deny &&& (st.openState a.other.count).deny = a.deny
  | .downOpened _ a _ => a.other.count ∈ st.opens →
    a.access &&& (st.openState a.other.count).access = a.access ∧
      a.deny &&& (st.openState a.other.count).deny = a.deny
  | _ => True

def SlotsNarrow (s : Server) : Prop := ∀ i p, s.pending i = some p → Narrows s.store p

variable {slot : ℕ} {a : DowngradeArgs} {o : OwnerRef}

section Slots

variable {s s' : Server}

theorem Narrows.weakens {st} (hw : Weakens st st') {p} (h : Narrows st p) : Narrows st' p := by
  cases p with
  | downChecked o a needOpen =>
    intro hk
    obtain ⟨hk₀, he⟩ := hw.opens _ hk
    rw [he]
    exact h hk₀
  | downOpened o a handle =>
    intro hk
    obtain ⟨hk₀, he⟩ := hw.opens _ hk
    rw [he]
    exact h hk₀
  | _ => trivial

theorem SlotsNarrow.same (h : SlotsNarrow s) (hw : Weakens s.store s'.store)
    (hp : s'.pending = s.pending) : SlotsNarrow s' := by
  intro i p hi
  rw [hp] at hi
  exact (h i p hi).weakens hw

theorem SlotsNarrow.update (h : SlotsNarrow s) (hw : Weakens s.store s'.store)
    {x} (hp : s'.pending = update s.pending slot x)
    (hx : ∀ q, x = some q → Narrows s'.store q) : SlotsNarrow s' := by
  rw [SlotsNarrow, hp]
  exact forall_some_update (fun i _ p hi => (h i p hi).weakens hw) hx

theorem downgradeCheck_narrows {st now fh needOpen}
    (h : NfsOps.downgradeCheck st now fh a = (.ok needOpen, st')) (o : OwnerRef) :
    Narrows st' (.downChecked o a needOpen) := by
  unfold NfsOps.downgradeCheck at h
  split at h
  · cases h
  rename_i p
  split at h
  · cases h
  split at h
  · cases h
  · cases h
  rename_i k st₁ hr
  obtain ⟨hk, -⟩ := Store.resolveStateid_some (congrArg Prod.fst hr)
  simp only at h
  split at h
  · cases h
  rename_i hbits
  split at h
  · cases h
  cases h
  subst hk
  rw [not_or, not_not, not_not] at hbits
  intro _
  exact hbits

/-- Between the installations the store weakens, and a downgrade that passed its check narrows. -/
structure Calm (s s' : Server) : Prop where
  weakens : Weakens s.store s'.store
  narrows : SlotsNarrow s → SlotsNarrow s'

theorem Calm.update {slot x} (hw : Weakens s.store s'.store)
    (hp : s'.pending = update s.pending slot x)
    (hx : SlotsNarrow s → ∀ q, x = some q → Narrows s'.store q) : Calm s s' :=
  ⟨hw, fun h => h.update hw hp (hx h)⟩

theorem next_critical {e} (h : next s (.critical e) = some s') :
    NfsInterleaving.next s e = some s' := by
  cases e with
  | renamePath => cases h
  | _ => exact h

theorem next_calm {e} (h : next s (.critical e) = some s') (ht : Turn s s' e) : Calm s s' := by
  cases ht with
  | rename => cases h
  | stay hm hp =>
    have hw := weakens_of_moves hm
    exact ⟨hw, fun hs => hs.same hw hp⟩
  | look slot p hr hnew hp =>
    refine .update (.renews hr) hp fun _ q hq => ?_
    cases hq
    rcases hnew with ⟨o, fh, a, rfl⟩ | ⟨o, fh, a, rfl, -⟩
    · trivial
    · trivial
  | leave slot p _ _ hr hp => exact .update (.renews hr) hp fun _ => nofun
  | check slot fh a plan _ _ hr hp =>
    refine .update (.renews hr) hp fun _ q hq => ?_
    cases hq
    trivial
  | downCheck slot now o fh a needOpen st _ _ _ hr hd hp =>
    refine .update (.renews hr) hp fun _ q hq => ?_
    cases hq
    exact downgradeCheck_narrows hd o
  | fail slot p o _ _ hm hp => exact .update (weakens_of_moves hm) hp fun _ => nofun
  | discard slot _ _ _ _ f st g _ hm _ hst hp =>
    refine .update ?_ hp fun _ => nofun
    rw [hst]
    exact (weakens_of_moves hm).trans (.of_eq (le_refl _) rfl rfl rfl rfl)
  | openFile slot _ _ plan _ _ _ hm _ hp =>
    refine .update (weakens_of_moves hm) hp fun _ q hq => ?_
    cases hq
    trivial
  | downOpen slot file o a needOpen handle hold hst hf hp =>
    have hw : Weakens s.store s'.store := hst ▸ .refl _
    refine .update hw hp fun hs q hq => ?_
    cases hq
    have hn : Narrows s.store (.downChecked o a needOpen) := hs slot _ hold
    exact Narrows.weakens (p := .downOpened o a handle) hw hn

end Slots

def DelegsBound (st : Store) : Prop := ∀ d ∈ st.delegs, d ≤ st.nextOther

theorem DelegsBound.weakens {st} (h : DelegsBound st) (hw : Weakens st st') : DelegsBound st' := by
  intro d hd
  exact le_trans (h d (hw.delegs d hd).1) hw.next

section Grants

variable {st : Store} {plan : OpenPlan}

theorem openGrant_delegs (hi : Indexed st.toTables) (plan : OpenPlan) (now k : ℕ) :
    ((openGrant st now plan k).2.delegs = st.delegs ∧
        (openGrant st now plan k).2.delegation = st.delegation) ∨
      ((openGrant st now plan k).2.delegs = (st.nextOther + 1) :: st.delegs ∧
        (openGrant st now plan k).2.delegation = update st.delegation (st.nextOther + 1)
          ⟨1, plan.owner.client, plan.target, false, 0⟩ ∧
        (openGrant st now plan k).2.nextOther = st.nextOther + 1 ∧
        ∀ j ∈ st.opens, (st.openState j).path = plan.target →
          (st.openState j).client ≠ plan.owner.client →
          ¬ Intrudes (st.openState j).access (st.openState j).deny) := by
  simp only [openGrant]
  split
  · unfold Store.grantDelegation
    split
    · rename_i hmay
      refine .inr ⟨rfl, rfl, rfl, fun j hj hp hc => ?_⟩
      simp only [Store.mayDelegate, Bool.and_eq_true, List.all_eq_true, Bool.or_eq_true,
        beq_iff_eq] at hmay
      have hmem : j ∈ members st.byPath plan.target := (hi.index.mem _ _).2 ⟨hj, hp⟩
      rcases hmay.1.2 j hmem with hsame | ⟨hw, hd⟩
      · exact absurd hsame hc
      rintro (hw' | hd')
      · exact hw' hw
      · exact hd' hd
    · exact .inl ⟨rfl, rfl⟩
  · exact .inl ⟨rfl, rfl⟩

theorem openGrant_exclusion_iff (hi : Indexed st.toTables) (hb : DelegsBound st) (now k : ℕ) :
    ReadExclusion (openGrant st now plan k).2 ↔ ReadExclusion st := by
  obtain ⟨n, hn, ht⟩ := openGrant_tables st now plan k
  rcases openGrant_delegs hi plan now k with ⟨hd, hg⟩ | ⟨hd, hg, -, hfree⟩
  · simp only [ReadExclusion, hd, hg, ht]
  simp only [ReadExclusion, hd, hg, ht]
  constructor
  · intro h d hdm hr j hj hp hc
    have hne : d ≠ st.nextOther + 1 := by
      have := hb d hdm
      omega
    have := h d (List.mem_cons_of_mem _ hdm)
    rw [update_of_ne hne] at this
    exact this hr j hj hp hc
  intro h d hdm hr j hj hp hc
  by_cases hnew : d = st.nextOther + 1
  · subst hnew
    rw [update_self] at hp hc
    exact hfree j hj hp hc
  · rw [update_of_ne hnew] at hr hp hc
    exact h d ((List.mem_cons.1 hdm).resolve_left hnew) hr j hj hp hc

theorem openGrant_bound (hb : DelegsBound st) (hi : Indexed st.toTables) (now k : ℕ) :
    DelegsBound (openGrant st now plan k).2 := by
  obtain ⟨n, hn, ht⟩ := openGrant_tables st now plan k
  rcases openGrant_delegs hi plan now k with ⟨hd, -⟩ | ⟨hd, -, hnext, -⟩
  · intro d hdm
    rw [hd] at hdm
    rw [ht]
    exact le_trans (hb d hdm) hn
  intro d hdm
  rw [hd] at hdm
  rw [hnext]
  rcases List.mem_cons.1 hdm with rfl | hdm
  · exact le_refl _
  · exact le_trans (hb d hdm) (Nat.le_succ _)

/-- What the last section of an OPEN that is not refused meets on its target. -/
def Unpromised (st : Store) (plan : OpenPlan) : Prop :=
  ¬ Intrudes plan.access plan.deny ∨ ∀ d ∈ st.delegs, (st.delegation d).path = plan.target →
    (st.delegation d).recalling = true ∨ (st.delegation d).client = plan.owner.client

theorem exclusion_set_iff {k x} (h : ReadExclusion st) (hd : st'.delegs = st.delegs)
    (hg : st'.delegation = st.delegation) (ho : ∀ j, j ∈ st'.opens ↔ j = k ∨ j ∈ st.opens)
    (hs : st'.openState = update st.openState k x) (hp : x.path = plan.target)
    (hc : x.client = plan.owner.client) (ha : x.access = plan.access) (hdeny : x.deny = plan.deny) :
    ReadExclusion st' ↔ Unpromised st plan := by
  constructor
  · intro hex
    by_cases hin : Intrudes plan.access plan.deny
    · refine .inr fun d hdm hpath => ?_
      by_contra hno
      rw [not_or, Bool.not_eq_true] at hno
      have := hex d (by rwa [hd]) (by rw [hg]; exact hno.1) k ((ho k).2 (.inl rfl))
      rw [hs, hg, update_self, hp, hc, ha, hdeny] at this
      exact this hpath.symm (fun e => hno.2 e.symm) hin
    · exact .inl hin
  intro hun d hdm hr j hj hpath hcl
  rw [hd] at hdm
  rw [hg] at hr hpath hcl
  rw [hs] at hpath hcl ⊢
  by_cases hjk : j = k
  · subst hjk
    rw [update_self] at hpath hcl ⊢
    rw [ha, hdeny]
    rcases hun with hno | hall
    · exact hno
    rw [hp] at hpath
    rcases hall d hdm hpath.symm with hrec | hsame
    · rw [hr] at hrec
      cases hrec
    · exact absurd (hc.trans hsame.symm) hcl
  · rw [update_of_ne hjk] at hpath hcl ⊢
    exact h d hdm hr j (((ho j).1 hj).resolve_left hjk) hpath hcl

theorem openInstall_exclusion_iff (hi : Indexed st.toTables) (hb : DelegsBound st)
    (h : ReadExclusion st) (plan : OpenPlan) (now : ℕ) (f : Option OpenFile) :
    ReadExclusion (openInstall st now plan f).2 ↔
      (openRefused st plan = true ∨ Unpromised st plan) := by
  rcases openInstall_cases st plan now f with ⟨hr, he⟩ | ⟨hr, hf, he⟩ | ⟨hr, k, hf, he⟩
  · rw [he, hr]
    exact ⟨fun _ => .inl rfl, fun _ => h⟩
  · have hnew : Indexed (openNew st plan f).toTables := Indexed.installOpen hi rfl
    have hbound : DelegsBound (openNew st plan f) := fun d hd => le_trans (hb d hd) (Nat.le_succ _)
    rw [he, hr, openGrant_exclusion_iff hnew hbound]
    have hset : ReadExclusion (openNew st plan f) ↔ Unpromised st plan :=
      exclusion_set_iff h rfl rfl (fun j => List.mem_cons) rfl rfl rfl rfl rfl
    rw [hset]
    simp
  obtain ⟨hlive, hown⟩ := hi.findOpen_some hf
  have hpath : (st.openState k).path = plan.target :=
    ((hi.index.mem _ k).1 (List.mem_of_find?_eq_some hf)).2
  have hup : Indexed (openUpgrade st plan f k).toTables := Indexed.setOpen hi rfl rfl rfl
  rw [he, hr, openGrant_exclusion_iff hup hb]
  have hset : ReadExclusion (openUpgrade st plan f k) ↔ Unpromised st plan := by
    refine exclusion_set_iff h rfl rfl (fun j => ?_) rfl hpath ?_ rfl rfl
    · constructor
      · exact fun hj => .inr hj
      · rintro (rfl | hj)
        · exact hlive
        · exact hj
    · change (st.openState k).client = plan.owner.client
      rw [← hi.client k hlive, hown]
  rw [hset]
  simp

theorem openInstall_bound (hi : Indexed st.toTables) (hb : DelegsBound st) (now : ℕ)
    (f : Option OpenFile) : DelegsBound (openInstall st now plan f).2 := by
  rcases openInstall_cases st plan now f with ⟨-, he⟩ | ⟨-, -, he⟩ | ⟨-, k, -, he⟩
  · rw [he]
    exact hb
  · rw [he]
    have hnew : Indexed (openNew st plan f).toTables := Indexed.installOpen hi rfl
    have hbound : DelegsBound (openNew st plan f) := fun d hd => le_trans (hb d hd) (Nat.le_succ _)
    exact openGrant_bound hbound hnew now _
  · rw [he]
    have hup : Indexed (openUpgrade st plan f k).toTables := Indexed.setOpen hi rfl rfl rfl
    have hbound : DelegsBound (openUpgrade st plan f k) := hb
    exact openGrant_bound hbound hup now _

theorem and_eq_zero_of_narrower {x y w : UInt32} (h : x &&& y = x) (hy : y &&& w = 0) :
    x &&& w = 0 := by
  rw [← h, UInt32.and_assoc, hy, UInt32.and_zero]

theorem downgradeInstall_exclusion (h : ReadExclusion st)
    {handle} (hn : Narrows st (.downOpened o a handle)) (now : ℕ)
    (f : Option OpenFile) : ReadExclusion (downgradeInstall st now a f).2 := by
  rcases downgradeInstall_cases st now a f with ⟨r, he⟩ | ⟨hlive, he⟩
  · rw [he]
    exact h
  rw [he]
  intro d hd hr k hk hp hc
  have hold := h d hd hr k hk
  obtain ⟨ha, hdeny⟩ := hn hlive
  by_cases hka : k = a.other.count
  · subst hka
    simp only [Store.closeFile, Store.renewClient, Store.setClient, Store.setTables,
      Tables.setOpen, update_self] at hp hc ⊢
    have hno := hold hp hc
    simp only [Intrudes, not_or, not_not] at hno ⊢
    exact ⟨and_eq_zero_of_narrower ha hno.1, and_eq_zero_of_narrower hdeny hno.2⟩
  simp only [Store.closeFile, Store.renewClient, Store.setClient, Store.setTables,
    Tables.setOpen, update_of_ne hka] at hp hc ⊢
  exact hold hp hc

theorem downgradeInstall_bound (hb : DelegsBound st) (now : ℕ) (a : DowngradeArgs)
    (f : Option OpenFile) : DelegsBound (downgradeInstall st now a f).2 := by
  rcases downgradeInstall_cases st now a f with ⟨r, he⟩ | ⟨-, he⟩
  · rw [he]
    exact hb
  · rw [he]
    exact hb

end Grants

section Runs

variable {s s' : Server}

theorem Narrows.spares {st} (hs : Spares (some o) st st') {p} (hk : Knows st p)
    (ho : holder p ≠ some o) (h : Narrows st p) : Narrows st' p := by
  cases p with
  | downChecked o' a needOpen =>
    intro hlive
    have hold := hs.live _ hlive hk.1
    obtain ⟨q, hq⟩ := hs.state _ hlive hk.1 (by rwa [(hk.2 hold).1])
    rw [hq]
    exact h hold
  | downOpened o' a handle =>
    intro hlive
    have hold := hs.live _ hlive hk.1
    obtain ⟨q, hq⟩ := hs.state _ hlive hk.1 (by rwa [(hk.2 hold).1])
    rw [hq]
    exact h hold
  | _ => trivial

theorem SlotsNarrow.install (h : SlotsNarrow s) (hs : Sound s) {p} (hold : s.pending slot = some p)
    (hp : holder p = some o) (hpend : s'.pending = Function.update s.pending slot none)
    (hst : Spares (some o) s.store s'.store) : SlotsNarrow s' := by
  rw [SlotsNarrow, hpend]
  refine forall_some_update (fun i hne q hi => ?_) nofun
  refine (h i q hi).spares hst (hs.held.knows i q hi) fun hq => ?_
  exact hne (hs.held.unique i slot q p o hi hold hq hp)

/-- What holds of a server whatever is interleaved. -/
structure Guarded (s : Server) : Prop where
  sound : Sound s
  narrow : SlotsNarrow s
  bound : DelegsBound s.store

theorem start_guarded (cfg : Config) : Guarded (start cfg) :=
  ⟨start_sound cfg, nofun, nofun⟩

theorem recalls_sound (h : Sound s) (now : ℕ) (p : Path) (except : Option ClientID) :
    Sound { s with store := (s.store.recallDelegations now p except).2 } := by
  have ht := s.store.recallDelegations_tables now p except
  have hc := changes_of_moves (recallDelegations_moves s.store now p except)
  refine ⟨?_, ?_, h.held.locked, h.held.unique, fun i q hq => ?_⟩
  · rw [ht]
    exact h.indexed
  · rw [ht]
    exact h.owned
  · refine (h.held.knows i q hq).spares (Changes.spares (o := none) hc) ?_
    cases holder q with
    | none => exact .inl rfl
    | some o => exact .inr nofun

/-- At an installation that is not refused, the open state intrudes on no delegation. -/
def NoPromise (s : Server) : Event → Prop
  | .critical (.openInstall slot _ _) => ∀ plan handle,
    s.pending slot = some (.opened plan handle) →
      openRefused s.store plan = true ∨ Unpromised s.store plan
  | _ => True

theorem next_guarded {e} (h : Guarded s) (hn : next s e = some s') : Guarded s' := by
  cases e with
  | recalls now p except =>
    cases hn
    have hw := weakens_of_moves (recallDelegations_moves s.store now p except)
    exact ⟨recalls_sound h.sound now p except, h.narrow.same hw rfl, h.bound.weakens hw⟩
  | critical e =>
    have hne := next_critical hn
    have hs := next_sound h.sound hne
    rcases next_cases hne with ⟨-, ht⟩ | hins
    · have hcalm := next_calm hn ht
      exact ⟨hs, hcalm.narrows h.narrow, h.bound.weakens hcalm.weakens⟩
    cases hins with
    | opened slot now env plan handle f hp hst hpend =>
      refine ⟨hs, h.narrow.install h.sound hp rfl hpend ?_, ?_⟩
      · rw [hst]
        exact (Installs.spares (openInstall_installs h.sound.indexed plan now _)
          fun _ _ hf => (h.sound.indexed.findOpen_some hf).2).setOwner f
      · rw [hst]
        exact openInstall_bound h.sound.indexed h.bound now _
    | downgraded slot now o a handle f hp hst hpend =>
      refine ⟨hs, h.narrow.install h.sound hp rfl hpend ?_, ?_⟩
      · rw [hst]
        refine Spares.setOwner (Installs.spares (downgradeInstall_installs ..) ?_) f
        rintro _ hlive ⟨⟩
        exact ((h.sound.held.knows slot _ hp).2 hlive).1
      · rw [hst]
        exact downgradeInstall_bound h.bound now a _

theorem next_exclusion_iff {e} (h : Guarded s) (hex : ReadExclusion s.store)
    (hn : next s e = some s') : ReadExclusion s'.store ↔ NoPromise s e := by
  cases e with
  | recalls now p except =>
    cases hn
    exact ⟨fun _ => trivial, fun _ => hex.weakens
      (weakens_of_moves (recallDelegations_moves s.store now p except))⟩
  | critical e =>
    rcases next_cases (next_critical hn) with ⟨he, ht⟩ | hins
    · have hkeep := hex.weakens (next_calm hn ht).weakens
      cases e with
      | openInstall => cases he
      | _ => exact ⟨fun _ => trivial, fun _ => hkeep⟩
    cases hins with
    | opened slot now env plan handle f hp hst =>
      have hiff := openInstall_exclusion_iff h.sound.indexed h.bound hex plan now
        (OpenPlan.openFile plan handle)
      rw [hst]
      constructor
      · intro hkeep plan' handle' hp'
        rw [hp] at hp'
        cases hp'
        exact hiff.1 hkeep
      · intro hc
        exact hiff.2 (hc plan handle hp)
    | downgraded slot now o a handle f hp hst =>
      rw [hst]
      exact ⟨fun _ => trivial, fun _ => downgradeInstall_exclusion hex (h.narrow slot _ hp) now _⟩

end Runs

/-- Delegations exclude in the runs whose OPENs meet no promise when they install their state;
any other installation breaks the exclusion at once. -/
theorem delegations_exclude_iff (cfg : Config) : (∀ es s, Meets next NoPromise (start cfg) es →
      run next (start cfg) es = some s → ReadExclusion s.store) ∧
    ∀ es s e s', run next (start cfg) es = some s → ReadExclusion s.store →
      next s e = some s' → (ReadExclusion s'.store ↔ NoPromise s e) :=
  kept_iff next (I := Guarded) (P := fun s => ReadExclusion s.store)
    (fun _ _ _ hg hn => ⟨next_guarded hg hn, fun hex => next_exclusion_iff hg hex hn⟩)
    (start_guarded cfg) nofun

/-- Client 2's OPEN for writing has passed its recall when client 1 is granted a delegation. -/
def grantedBeforeInstall : List NfsInterleaving.Event :=
  let write : OpenArgs := ⟨1, shareWrite, 0, 2, [20], 0, 0, 0, .ok "f", false, .ok none⟩
  registerClient ++
    [.request (.setClientID 0 [2] 7 9 "none"), .request (.setClientIDConfirm 0 2 9),
      .request (.probe 1),
      .openLookup 0 0 (some []) (openArgs 1 shareRead), .openCheck 0 (openEnv 1),
      .openFiles 0 0 (openEnv 1), .openInstall 0 0 (openEnv 1),
      .request (.openConfirm 0 (some ["f"]) 1 ⟨5, 1⟩ 2),
      .openLookup 1 1 (some []) write, .openCheck 1 (openEnv 2), .openFiles 1 1 (openEnv 2),
      .openLookup 0 1 (some []) (openArgs 3 shareRead), .openCheck 0 (openEnv 3),
      .openFiles 0 1 (openEnv 3), .openInstall 0 1 (openEnv 3),
      .openInstall 1 1 (openEnv 2)]

theorem open_intrudes_on_delegation :
    ∃ s, run next (start ⟨90, 90, 5, true⟩) (grantedBeforeInstall.map .critical) =
      some s ∧ ¬ ReadExclusion s.store := by
  refine exists_run (P := fun s => 2 ∈ s.store.delegs ∧ (s.store.delegation 2).recalling = false ∧
    3 ∈ s.store.opens ∧ (s.store.openState 3).path = (s.store.delegation 2).path ∧
    (s.store.openState 3).client ≠ (s.store.delegation 2).client ∧
    Intrudes (s.store.openState 3).access (s.store.openState 3).deny) (by decide +kernel) ?_
  rintro s - ⟨hd, hr, hk, hp, hc, hin⟩ hex
  exact hex 2 hd hr 3 hk hp hc hin

end NfsDelegations
