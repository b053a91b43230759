import FacetFS.NfsInterleaving

/-! # The file behind an open state

Which file an open state is served by, in any interleaving of the critical sections. An
installation that brings no file of its own relies on the one the state already has; what
keeps that right is the owner's mutex, and what it does not cover is said by `FileAtHand`. -/
namespace NfsOpenBacking

open EventSystem NfsSeqid GroupIndex NfsStore NfsOps NfsStoreChange NfsInterleaving
open Function (update update_eq_self update_idem update_of_ne update_self)

def holder : Pending → Option OwnerRef
  | .looked _ _ _ => none
  | .checked plan _ => some plan.owner
  | .opened plan _ => some plan.owner
  | .downLooked _ _ _ => none
  | .downChecked o _ _ => some o
  | .downOpened o _ _ => some o

/-- What a downgrade under way knows of the state it is about: it is the owner's, and unless
another file is being opened it has the flags asked for. -/
def Knows (st : Store) : Pending → Prop
  | .downLooked o _ a => a.other.count ≤ st.nextOther ∧
    (a.other.count ∈ st.opens → (st.openState a.other.count).owner = o)
  | .downChecked o a needOpen => a.other.count ≤ st.nextOther ∧
    (a.other.count ∈ st.opens → (st.openState a.other.count).owner = o ∧
      (needOpen = false → (st.openState a.other.count).flag = a.flag))
  | .downOpened o a handle => a.other.count ≤ st.nextOther ∧
    (a.other.count ∈ st.opens → (st.openState a.other.count).owner = o ∧
      (handle = none → (st.openState a.other.count).flag = a.flag))
  | _ => True

/-- The open states issued before are left, and only those of `o` get other bits or another file. -/
structure Spares (o : Option OwnerRef) (st st' : Store) : Prop where
  nextOther_le : st.nextOther ≤ st'.nextOther
  live : ∀ k ∈ st'.opens, k ≤ st.nextOther → k ∈ st.opens
  owner : ∀ k ∈ st'.opens, k ≤ st.nextOther → (st'.openState k).owner = (st.openState k).owner
  state : ∀ k ∈ st'.opens, k ≤ st.nextOther → some (st.openState k).owner ≠ o →
    ∃ p, st'.openState k = { st.openState k with path := p }

variable {o : Option OwnerRef} {st' : Store}

theorem Changes.openState {st} (hc : Changes st st') :
    st.nextOther ≤ st'.nextOther ∧ ∀ k ∈ st'.opens,
      k ∈ st.opens ∧ ∃ p, st'.openState k = { st.openState k with path := p } := by
  induction hc with
  | refl => exact ⟨le_refl _, fun k hk => ⟨hk, _, rfl⟩⟩
  | tail _ hstep ih =>
    refine ⟨le_trans ih.1 hstep.nextOther_le, fun k hk => ?_⟩
    obtain ⟨hk', p, hp⟩ := hstep.openState hk
    obtain ⟨hk'', q, hq⟩ := ih.2 k hk'
    exact ⟨hk'', p, by rw [hp, hq]⟩

theorem Changes.spares {st} (hc : Changes st st') : Spares o st st' := by
  obtain ⟨hn, h⟩ := Changes.openState hc
  refine ⟨hn, fun k hk _ => (h k hk).1, fun k hk _ => ?_, fun k hk _ _ => (h k hk).2⟩
  obtain ⟨-, p, hp⟩ := h k hk
  rw [hp]

theorem Knows.spares {st} (hs : Spares o st st') {p}
    (ho : holder p = none ∨ holder p ≠ o) (h : Knows st p) : Knows st' p := by
  cases p with
  | looked => trivial
  | checked => trivial
  | opened => trivial
  | downLooked o' fh a =>
    refine ⟨le_trans h.1 hs.nextOther_le, fun hk => ?_⟩
    rw [hs.owner _ hk h.1]
    exact h.2 (hs.live _ hk h.1)
  | downChecked o' a needOpen =>
    have hne : some o' ≠ o := ho.resolve_left nofun
    refine ⟨le_trans h.1 hs.nextOther_le, fun hk => ?_⟩
    obtain ⟨hown, hflag⟩ := h.2 (hs.live _ hk h.1)
    obtain ⟨p, hp⟩ := hs.state _ hk h.1 (by rwa [hown])
    rw [hp]
    exact ⟨hown, hflag⟩
  | downOpened o' a handle =>
    have hne : some o' ≠ o := ho.resolve_left nofun
    refine ⟨le_trans h.1 hs.nextOther_le, fun hk => ?_⟩
    obtain ⟨hown, hflag⟩ := h.2 (hs.live _ hk h.1)
    obtain ⟨p, hp⟩ := hs.state _ hk h.1 (by rwa [hown])
    rw [hp]
    exact ⟨hown, hflag⟩

section Slots

/-- What a step does to the request slots and the owners' mutexes. -/
inductive SlotStep (s s' : Server) : Prop where
  | same (hp : s'.pending = s.pending) (hm : s'.mutex = s.mutex)
  | look (slot : ℕ) (q : Pending) (hq : holder q = none)
      (hp : s'.pending = update s.pending slot (some q)) (hm : s'.mutex = s.mutex)
      (hk : Owned s.store.toTables → Knows s'.store q)
  | drop (slot : ℕ) (p : Pending) (hold : s.pending slot = some p) (hq : holder p = none)
      (hp : s'.pending = update s.pending slot none) (hm : s'.mutex = s.mutex)
  | take (slot : ℕ) (p q : Pending) (o : OwnerRef) (hold : s.pending slot = some p)
      (hq : holder q = some o) (hfree : s.mutex o = false)
      (hp : s'.pending = update s.pending slot (some q))
      (hm : s'.mutex = update s.mutex o true)
      (hk : Knows s.store p → Knows s'.store q)
  | pass (slot : ℕ) (p q : Pending) (o : OwnerRef) (hold : s.pending slot = some p)
      (ho : holder p = some o) (hq : holder q = some o)
      (hp : s'.pending = update s.pending slot (some q)) (hm : s'.mutex = s.mutex)
      (hk : Knows s.store p → Knows s'.store q)
  | free (slot : ℕ) (p : Pending) (o : OwnerRef) (hold : s.pending slot = some p)
      (ho : holder p = some o) (hp : s'.pending = update s.pending slot none)
      (hm : s'.mutex = update s.mutex o false)

variable {s s' : Server}

variable {slot : ℕ}

theorem holder_of_waiting {p : Pending} (h : p.waiting = true) : holder p = none := by
  cases p with
  | looked => rfl
  | downLooked => rfl
  | _ => cases h

theorem downgradeCheck_flag {st now fh a}
    (h : NfsOps.downgradeCheck st now fh a = (.ok false, st')) :
    (st.openState a.other.count).flag = a.flag := by
  unfold NfsOps.downgradeCheck at h
  split at h
  · cases h
  rename_i p
  have ht := (NfsOutcomes.resolveStateid_renews st now a.stateSeq a.other p).tables
  split at h
  · cases h
  split at h
  · cases h
  · cases h
  rename_i k st₁ hr
  obtain ⟨hk, -⟩ := Store.resolveStateid_some (congrArg Prod.fst hr)
  rw [hr] at ht
  simp only at h ht
  split at h
  · cases h
  split at h
  · cases h
  have hdec := Except.ok.inj (congrArg Prod.fst h)
  subst hk
  rw [← ht]
  exact (not_not.1 (of_decide_eq_false hdec)).symm

theorem Turn.slotStep {e} (h : Turn s s' e) : SlotStep s s' := by
  cases h with
  | rename _ _ _ _ _ _ hp hx => exact .same hp hx
  | stay _ hp hx => exact .same hp hx
  | look slot p hr hnew hp hx =>
    rcases hnew with ⟨o, fh, a, rfl⟩ | ⟨o, fh, a, rfl, hs⟩
    · exact .look slot _ rfl hp hx fun _ => trivial
    refine .look slot _ rfl hp hx fun ho => ?_
    simp only [Knows]
    rw [hr.tables]
    refine ⟨ho.known _ _ hs, fun hlive => ?_⟩
    have hown := ho.owner _ hlive
    rw [hs] at hown
    exact (Option.some.inj hown).symm
  | leave slot p hold hw _ hp hx => exact .drop slot p hold (holder_of_waiting hw) hp hx
  | check slot fh a plan hold hfree _ hp hx =>
    exact .take slot _ _ plan.owner hold rfl hfree hp hx fun _ => trivial
  | downCheck slot now o fh a needOpen st hold hfree hst hr hd hp hx =>
    refine .take slot _ _ o hold rfl hfree hp hx fun hk => ?_
    simp only [Knows] at hk ⊢
    rw [hr.tables]
    refine ⟨hk.1, fun hlive => ⟨hk.2 hlive, fun hno => ?_⟩⟩
    subst hno
    rw [← hst.tables]
    exact downgradeCheck_flag hd
  | fail slot p o hold hh _ hp hx =>
    rcases hh with ⟨plan, a, rfl, rfl⟩ | ⟨a, n, rfl⟩
    · exact .free slot _ _ hold rfl hp hx
    · exact .free slot _ _ hold rfl hp hx
  | discard slot _ _ plan _ _ _ _ hold _ _ _ hp hx => exact .free slot _ _ hold rfl hp hx
  | openFile slot _ _ plan _ _ hold _ _ hp hx =>
    exact .pass slot _ _ plan.owner hold rfl rfl hp hx fun _ => trivial
  | downOpen slot file o a needOpen handle hold hst hf hp hx =>
    refine .pass slot _ _ o hold rfl rfl hp hx fun hk => ?_
    rw [hst]
    refine ⟨hk.1, fun hlive => ⟨(hk.2 hlive).1, fun hnone => (hk.2 hlive).2 ?_⟩⟩
    subst hnone
    cases needOpen with
    | false => rfl
    | true => cases file <;> cases hf

/-- An owner's mutex is held by at most one request, and what a request knows is true. -/
structure Held (s : Server) : Prop where
  locked : ∀ i p o, s.pending i = some p → holder p = some o → s.mutex o = true
  unique : ∀ i j p q o, s.pending i = some p → s.pending j = some q → holder p = some o →
    holder q = some o → i = j
  knows : ∀ i p, s.pending i = some p → Knows s.store p

theorem Held.update (h : Held s) {x}
    (hp : s'.pending = update s.pending slot x)
    (hold : ∀ i p, i ≠ slot → s.pending i = some p → Knows s'.store p ∧
      ∀ o, holder p = some o → s'.mutex o = true)
    (hnew : ∀ q, x = some q → Knows s'.store q ∧ ∀ o, holder q = some o → s'.mutex o = true ∧
      ∀ i p, i ≠ slot → s.pending i = some p → holder p ≠ some o) : Held s' := by
  have hcases : ∀ i p, s'.pending i = some p →
      (i = slot ∧ x = some p) ∨ (i ≠ slot ∧ s.pending i = some p) := by
    rw [hp]
    exact forall_some_update (fun i hne p hi => .inr ⟨hne, hi⟩) fun p hx => .inl ⟨rfl, hx⟩
  refine ⟨fun i p o hi ho => ?_, fun i j p q o hi hj hop hoq => ?_, fun i p hi => ?_⟩
  · rcases hcases i p hi with ⟨-, hx⟩ | ⟨hne, hi⟩
    · exact ((hnew p hx).2 o ho).1
    · exact (hold i p hne hi).2 o ho
  · rcases hcases i p hi with ⟨rfl, hx⟩ | ⟨hne, hi⟩
    · rcases hcases j q hj with ⟨rfl, -⟩ | ⟨hne, hj⟩
      · rfl
      · exact absurd hoq (((hnew p hx).2 o hop).2 j q hne hj)
    · rcases hcases j q hj with ⟨rfl, hx⟩ | ⟨-, hj⟩
      · exact absurd hop (((hnew q hx).2 o hoq).2 i p hne hi)
      · exact h.unique i j p q o hi hj hop hoq
  · rcases hcases i p hi with ⟨-, hx⟩ | ⟨hne, hi⟩
    · exact (hnew p hx).1
    · exact (hold i p hne hi).1

theorem Held.free (h : Held s) {p o} (hold : s.pending slot = some p) (ho : holder p = some o)
    (hp : s'.pending = Function.update s.pending slot none)
    (hm : s'.mutex = Function.update s.mutex o false)
    (hk : ∀ i q, s.pending i = some q → holder q = none ∨ holder q ≠ some o → Knows s'.store q) :
    Held s' := by
  refine h.update hp (fun i q hne hi => ?_) nofun
  have hother : holder q ≠ some o := by
    intro hq
    exact hne (h.unique i slot q p o hi hold hq ho)
  refine ⟨hk i q hi (.inr hother), fun o' ho' => ?_⟩
  have hne' : o' ≠ o := by
    rintro rfl
    exact hother ho'
  rw [hm, update_of_ne hne']
  exact h.locked i q o' hi ho'

theorem Held.slotStep (h : Held s) (ho : Owned s.store.toTables) (hs : SlotStep s s')
    (hk : ∀ i p, s.pending i = some p → Knows s'.store p) : Held s' := by
  cases hs with
  | same hp hm =>
    refine ⟨fun i p o => ?_, fun i j p q o => ?_, fun i p => ?_⟩
    · rw [hp, hm]
      exact h.locked i p o
    · rw [hp]
      exact h.unique i j p q o
    · rw [hp]
      exact hk i p
  | look slot q hq hp hm hknow =>
    refine h.update hp (fun i p _ hi => ⟨hk i p hi, fun o hop => ?_⟩) fun q' hx => ?_
    · rw [hm]
      exact h.locked i p o hi hop
    · cases hx
      refine ⟨hknow ho, fun o hoq => ?_⟩
      rw [hq] at hoq
      cases hoq
  | drop slot p _ _ hp hm =>
    refine h.update hp (fun i q _ hi => ⟨hk i q hi, fun o hoq => ?_⟩) nofun
    rw [hm]
    exact h.locked i q o hi hoq
  | take slot p q o hold hq hfree hp hm hknow =>
    refine h.update hp (fun i p' _ hi => ⟨hk i p' hi, fun o' hop => ?_⟩) fun q' hx => ?_
    · rw [hm]
      by_cases hoo : o' = o
      · rw [hoo, update_self]
      · rw [update_of_ne hoo]
        exact h.locked i p' o' hi hop
    cases hx
    refine ⟨hknow (h.knows slot p hold), fun o' hoq => ?_⟩
    rw [hq] at hoq
    cases hoq
    refine ⟨by rw [hm, update_self], fun i p' _ hi hop => ?_⟩
    have hlocked := h.locked i p' o hi hop
    rw [hfree] at hlocked
    cases hlocked
  | pass slot p q o hold hop hq hp hm hknow =>
    refine h.update hp (fun i p' _ hi => ⟨hk i p' hi, fun o' hop => ?_⟩) fun q' hx => ?_
    · rw [hm]
      exact h.locked i p' o' hi hop
    cases hx
    refine ⟨hknow (h.knows slot p hold), fun o' hoq => ?_⟩
    rw [hq] at hoq
    cases hoq
    rw [hm]
    exact ⟨h.locked slot p o hold hop, fun i p' hne hi hop' =>
      hne (h.unique i slot p' p o hi hold hop' hop)⟩
  | free slot p o hold hop hp hm => exact h.free hold hop hp hm fun i q hi _ => hk i q hi

end Slots

section Installing

variable {st : Store} {plan : OpenPlan}

theorem Installs.spares {r access deny flag f} {st st' : Store} {o : OwnerRef}
    (h : Installs r access deny flag f st.toTables st'.toTables)
    (hr : ∀ k ∈ st.opens, r = some k → (st.openState k).owner = o) : Spares (some o) st st' := by
  cases h with
  | same ht => exact ⟨by rw [ht], fun k hk _ => by rwa [ht] at hk, fun k _ _ => by rw [ht],
      fun k _ _ _ => ⟨_, by rw [ht]⟩⟩
  | fresh x n hn _ _ ht =>
    have hold : ∀ k ≤ st.nextOther, st'.openState k = st.openState k := by
      intro k hle
      rw [ht]
      exact update_of_ne (by omega) _ _
    refine ⟨by rw [ht]; exact hn.le, fun k hk hle => ?_, fun k _ hle => by rw [hold k hle],
      fun k _ hle _ => ⟨_, hold k hle⟩⟩
    rw [ht] at hk
    exact (List.mem_cons.1 hk).resolve_left (by omega)
  | regrant i n hi hlive hn ht =>
    refine ⟨by rw [ht]; exact hn, fun k hk _ => by rwa [ht] at hk, fun k _ _ => ?_,
      fun k _ _ hne => ⟨(st.openState k).path, ?_⟩⟩
    · rw [ht]
      exact update_field (by rfl) k
    · have hki : k ≠ i := by
        rintro rfl
        exact hne (congrArg some (hr k hlive hi))
      rw [ht]
      exact update_of_ne hki _ _

theorem Installs.owned {r access deny flag f} {t t' : Tables}
    (hs : Installs r access deny flag f t t') (hi : Indexed t) (h : Owned t) : Owned t' := by
  cases hs with
  | same ht => exact ht ▸ h
  | fresh x n hn _ _ ht => exact ht ▸ (h.installOpen hi x).bumpNext hn
  | regrant k n _ _ hn ht =>
    have hset : Owned (t.setOpen k (regranted (t.openState k) access deny flag f)) := h.setOpen rfl
    exact ht ▸ hset.bumpNext hn

end Installing

/-- The part of the state that is right whatever is interleaved. -/
structure Sound (s : Server) : Prop where
  indexed : Indexed s.store.toTables
  owned : Owned s.store.toTables
  held : Held s

theorem start_sound (cfg : Config) : Sound (start cfg) := by
  refine ⟨start_indexed cfg, ?_, ?_⟩
  · refine ⟨?_, ?_, ?_, ?_⟩ <;> simp [start, newStateStore]
  · refine ⟨?_, ?_, ?_⟩ <;> simp [start]

theorem Changes.sound {st} (hc : Changes st st') (h : Indexed st.toTables ∧ Owned st.toTables) :
    Indexed st'.toTables ∧ Owned st'.toTables :=
  Changes.keeps (P := fun st => Indexed st.toTables ∧ Owned st.toTables)
    (fun hstep hp => ⟨Indexed.change hstep hp.1, Owned.change hp.1 hstep hp.2⟩) hc h

theorem Spares.setOwner {st} (h : Spares o st st')
    (f : OwnerRef → Owner) : Spares o st { st' with owner := f } :=
  ⟨h.nextOther_le, h.live, h.owner, h.state⟩

theorem next_sound {s s' e} (h : Sound s) (hn : next s e = some s') : Sound s' := by
  rcases next_cases hn with ⟨-, ht⟩ | hins
  · have hc := ht.changes
    obtain ⟨hi, ho⟩ := Changes.sound hc ⟨h.indexed, h.owned⟩
    refine ⟨hi, ho, h.held.slotStep h.owned (Turn.slotStep ht) fun i p hp => ?_⟩
    cases hh : holder p with
    | none => exact (h.held.knows i p hp).spares (Changes.spares (o := none) hc) (.inl hh)
    | some o =>
      refine (h.held.knows i p hp).spares (Changes.spares (o := none) hc) (.inr ?_)
      rw [hh]
      exact nofun
  have hi := next_indexed h.indexed hn
  cases hins with
  | opened slot now env plan handle f hp hst hpend hmut =>
    refine ⟨hi, ?_, h.held.free hp rfl hpend hmut fun i q hq hne => ?_⟩
    · rw [hst]
      exact Installs.owned (openInstall_installs h.indexed plan now _) h.indexed h.owned
    · rw [hst]
      refine (h.held.knows i q hq).spares (Spares.setOwner (o := some plan.owner) ?_ f) hne
      exact Installs.spares (openInstall_installs h.indexed plan now _)
        fun _ _ hf => (h.indexed.findOpen_some hf).2
  | downgraded slot now o a handle f hp hst hpend hmut =>
    have hown : ∀ k ∈ s.store.opens, some a.other.count = some k →
        (s.store.openState k).owner = o := by
      rintro _ hlive ⟨⟩
      exact ((h.held.knows slot _ hp).2 hlive).1
    refine ⟨hi, ?_, h.held.free hp rfl hpend hmut fun i q hq hne => ?_⟩
    · rw [hst]
      exact Installs.owned (downgradeInstall_installs ..) h.indexed h.owned
    · rw [hst]
      exact (h.held.knows i q hq).spares
        ((Installs.spares (downgradeInstall_installs s.store now a _) hown).setOwner f) hne

/-- The file, if there is one, was opened with the flags recorded. -/
def FlagsAgree (s : OpenState) : Prop := ∀ f, s.file = some f → f.flag = s.flag

/-- The state is served by a file opened with the flags of its access bits. -/
def HasFile (s : OpenState) : Prop := ∃ f, s.file = some f ∧ f.flag = openFlags s.access

def FileBacked (st : Store) : Prop := ∀ k ∈ st.opens, HasFile (st.openState k)

def FlagsKept (st : Store) : Prop := ∀ k ∈ st.opens, FlagsAgree (st.openState k)

section Backing

variable {st : Store} {plan : OpenPlan}

theorem flagsAgree_regranted {held flag f} (h : FlagsAgree held) (hf : ∀ g, f = some g → g.flag = flag)
    (access deny : UInt32) : FlagsAgree (regranted held access deny flag f) := by
  cases f with
  | none => exact h
  | some g => exact hf

theorem hasFile_regranted_iff {held} (h : FlagsAgree held) (hb : HasFile held)
    (access deny : UInt32) (handle : Option ℕ) :
    HasFile (regranted held access deny (openFlags access)
      (handle.map fun n => ⟨n, openFlags access⟩)) ↔
      handle.isSome = true ∨ held.flag = openFlags access := by
  cases handle with
  | some n => exact ⟨fun _ => .inl rfl, fun _ => ⟨_, rfl, rfl⟩⟩
  | none =>
    obtain ⟨f, hf, -⟩ := hb
    constructor
    · rintro ⟨g, hg, hflag⟩
      have hfg : held.file = some g := hg
      exact .inr ((h g hfg).symm.trans hflag)
    · rintro (hsome | hflag)
      · cases hsome
      · exact ⟨f, hf, (h f hf).trans hflag⟩

theorem Changes.flagsKept {st} (hc : Changes st st') (h : FlagsKept st) : FlagsKept st' := by
  intro k hk
  obtain ⟨hk', p, hp⟩ := (Changes.openState hc).2 k hk
  rw [hp]
  exact h k hk'

theorem Changes.fileBacked {st} (hc : Changes st st') (h : FileBacked st) : FileBacked st' := by
  intro k hk
  obtain ⟨hk', p, hp⟩ := (Changes.openState hc).2 k hk
  rw [hp]
  exact h k hk'

theorem Installs.flagsKept {r access deny flag f} {st st' : Store}
    (hs : Installs r access deny flag f st.toTables st'.toTables)
    (hf : ∀ g, f = some g → g.flag = flag) (h : FlagsKept st) : FlagsKept st' := by
  cases hs with
  | same ht =>
    rw [FlagsKept, ht]
    exact h
  | fresh x n _ _ hx ht =>
    rw [FlagsKept, ht]
    refine forall_install (fun _ => FlagsAgree) (fun g hg => ?_) h
    rw [hx.2]
    exact hf g (hx.1 ▸ hg)
  | regrant k n _ _ _ ht =>
    rw [FlagsKept, ht]
    exact forall_update (fun _ => FlagsAgree) (fun _ hk _ => hk)
      (fun hk => flagsAgree_regranted (h k hk) hf access deny) h

theorem flag_of_map {handle : Option ℕ} {flag} :
    ∀ g, (handle.map fun n => (⟨n, flag⟩ : OpenFile)) = some g → g.flag = flag := by
  intro g hg
  obtain ⟨n, -, rfl⟩ := Option.map_eq_some_iff.1 hg
  rfl

/-- An installation leaves every state with a file exactly if it is refused, brings a file, or
meets a state of the owner that has the flags already. -/
theorem openInstall_fileBacked_iff (hi : Indexed st.toTables) (h : FlagsKept st)
    (hb : FileBacked st) (plan : OpenPlan) (now : ℕ) (handle : Option ℕ) :
    FileBacked (openInstall st now plan (OpenPlan.openFile plan handle)).2 ↔
      (openRefused st plan = true ∨ handle.isSome = true ∨
        ∃ k, st.toTables.findOpen plan.target plan.owner = some k ∧
          (st.openState k).flag = plan.flag) := by
  rcases openInstall_tables st plan now (OpenPlan.openFile plan handle) with
    ⟨hr, ht⟩ | ⟨hr, n, -, ⟨hf, -, ht⟩ | ⟨j, hf, ht⟩⟩
  · refine ⟨fun _ => .inl hr, fun _ => ?_⟩
    rw [FileBacked, ht]
    exact hb
  · rw [hr, hf, FileBacked, ht]
    constructor
    · intro hnew
      obtain ⟨f, hmap, -⟩ := hnew (st.nextOther + 1) List.mem_cons_self
      simp only [Tables.installOpen, update_self] at hmap
      obtain ⟨n, hn, -⟩ := Option.map_eq_some_iff.1 hmap
      exact .inr (.inl (by rw [hn]; rfl))
    rintro (hc | hsome | ⟨k, hc, -⟩)
    · cases hc
    · obtain ⟨n, rfl⟩ := Option.isSome_iff_exists.1 hsome
      exact forall_install (fun _ => HasFile) ⟨_, rfl, rfl⟩ hb
    · cases hc
  obtain ⟨hlive, -⟩ := hi.findOpen_some hf
  have hiff := hasFile_regranted_iff (h j hlive) (hb j hlive) plan.access plan.deny handle
  rw [hr, hf, FileBacked, ht]
  constructor
  · intro hnew
    have hfile := hnew j hlive
    simp only [Tables.setOpen, update_self] at hfile
    rcases hiff.1 hfile with hsome | hflag
    · exact .inr (.inl hsome)
    · exact .inr (.inr ⟨j, rfl, hflag⟩)
  intro hc
  refine forall_update (fun _ => HasFile) (fun _ hk _ => hk) (fun _ => hiff.2 ?_) hb
  rcases hc with hc | hsome | ⟨i, hij, hflag⟩
  · cases hc
  · exact .inl hsome
  · cases hij
    exact .inr hflag

theorem downgradeInstall_fileBacked (h : FlagsKept st) (hb : FileBacked st) {o a handle}
    (hk : Knows st (.downOpened o a handle)) (now : ℕ) :
    FileBacked (downgradeInstall st now a (handle.map fun n => ⟨n, a.flag⟩)).2 := by
  rcases downgradeInstall_cases st now a (handle.map fun n => ⟨n, a.flag⟩) with ⟨r, he⟩ | ⟨-, he⟩
  · rw [he]
    exact hb
  rw [he]
  refine forall_update (fun _ => HasFile) (fun _ hk _ => hk) (fun hlive => ?_) hb
  apply (hasFile_regranted_iff (h _ hlive) (hb _ hlive) a.access a.deny handle).2
  cases handle with
  | some n => exact .inl rfl
  | none => exact .inr ((hk.2 hlive).2 rfl)

end Backing

/-- At an installation that is not refused, a file was opened or the owner has a state on the
target with the flags wanted. -/
def FileAtHand (s : Server) : Event → Prop
  | .openInstall slot _ _ => ∀ plan handle, s.pending slot = some (.opened plan handle) →
    openRefused s.store plan = true ∨ handle.isSome = true ∨
      ∃ k, s.store.toTables.findOpen plan.target plan.owner = some k ∧
        (s.store.openState k).flag = plan.flag
  | _ => True

theorem next_flagsKept {s s' e} (hi : Indexed s.store.toTables) (h : FlagsKept s.store)
    (hn : next s e = some s') : FlagsKept s'.store := by
  rcases next_cases hn with ⟨-, ht⟩ | hins
  · exact Changes.flagsKept ht.changes h
  cases hins with
  | opened slot now env plan handle f _ hst =>
    rw [hst]
    have hs := openInstall_installs hi plan now (OpenPlan.openFile plan handle)
    exact Installs.flagsKept hs flag_of_map h
  | downgraded slot now o a handle f _ hst =>
    rw [hst]
    exact Installs.flagsKept (downgradeInstall_installs ..) flag_of_map h

/-- A step leaves every open state with its file exactly if it meets the condition. -/
theorem next_fileBacked_iff {s s' e} (hs : Sound s) (h : FlagsKept s.store)
    (hb : FileBacked s.store) (hn : next s e = some s') : FileBacked s'.store ↔ FileAtHand s e := by
  rcases next_cases hn with ⟨he, ht⟩ | hins
  · have hkeep := Changes.fileBacked ht.changes hb
    cases e with
    | openInstall => cases he
    | _ => exact ⟨fun _ => trivial, fun _ => hkeep⟩
  cases hins with
  | opened slot now env plan handle f hp hst =>
    have hiff := openInstall_fileBacked_iff hs.indexed h hb plan now handle
    rw [hst]
    constructor
    · intro hback plan' handle' hp'
      rw [hp] at hp'
      cases hp'
      exact hiff.1 hback
    · intro hc
      exact hiff.2 (hc plan handle hp)
  | downgraded slot now o a handle f hp hst =>
    rw [hst]
    exact ⟨fun _ => trivial,
      fun _ => downgradeInstall_fileBacked h hb (hs.held.knows slot _ hp) now⟩

theorem FileBacked.resolved {st} (h : FileBacked st) {now seq other p k}
    (hk : (st.resolveStateid now seq other p).1 = .ok (some k)) :
    ∃ f, ((st.resolveStateid now seq other p).2.openState k).file = some f := by
  obtain ⟨-, hlive, -⟩ := Store.resolveStateid_some hk
  obtain ⟨f, hf, -⟩ := h k hlive
  rw [(NfsOutcomes.resolveStateid_renews st now seq other p).tables]
  exact ⟨f, hf⟩

/-- Open states are backed by files, and stateids resolve to one, in the runs whose
installations have a file at hand; any other installation breaks this at once. -/
theorem open_backed_iff_file_at_hand (cfg : Config) :
    (∀ es s, Meets next FileAtHand (start cfg) es →
      run next (start cfg) es = some s → FileBacked s.store ∧
        ∀ now seq other p k, (s.store.resolveStateid now seq other p).1 = .ok (some k) →
          ∃ f, ((s.store.resolveStateid now seq other p).2.openState k).file = some f) ∧
    ∀ es s e s', run next (start cfg) es = some s → FileBacked s.store →
      next s e = some s' → (FileBacked s'.store ↔ FileAtHand s e) := by
  have hkept := kept_iff next (I := fun s => Sound s ∧ FlagsKept s.store)
    (P := fun s => FileBacked s.store)
    (fun s e t hs hn => ⟨⟨next_sound hs.1 hn, next_flagsKept hs.1.indexed hs.2 hn⟩,
      fun hb => next_fileBacked_iff hs.1 hs.2 hb hn⟩)
    ⟨start_sound cfg, by simp [FlagsKept, start, newStateStore]⟩
    (by simp [FileBacked, start, newStateStore])
  refine ⟨fun es s hm hrun => ?_, hkept.2⟩
  have hb := hkept.1 es s hm hrun
  exact ⟨hb, fun now seq other p k hk => hb.resolved hk⟩

/-- A second OPEN of a file held open needs no new file; the file is renamed away before that
OPEN installs its state. -/
def renamedBeforeInstall : List Event :=
  registerClient ++
    [.openLookup 0 0 (some []) (openArgs 1 1), .openCheck 0 (openEnv 1),
      .openFiles 0 0 (openEnv 1), .openInstall 0 0 (openEnv 1),
      .openLookup 0 1 (some []) (openArgs 2 1), .openCheck 0 (openEnv 2),
      .openFiles 0 1 (openEnv 2), .renamePath ["f"] ["g"], .openInstall 0 2 (openEnv 2)]

theorem open_installs_nil_file :
    ∃ s, run next (start ⟨90, 90, 5, false⟩) renamedBeforeInstall = some s ∧
      2 ∈ s.store.opens ∧ (s.store.openState 2).file = none ∧ ¬ FileBacked s.store := by
  refine exists_run (P := fun s => 2 ∈ s.store.opens ∧ (s.store.openState 2).file = none)
    (by decide +kernel) ?_
  rintro s - ⟨hlive, hnone⟩
  refine ⟨hlive, hnone, fun h => ?_⟩
  obtain ⟨f, hf, -⟩ := h 2 hlive
  rw [hnone] at hf
  cases hf

end NfsOpenBacking
