import FacetFS.CacheWrapper
import FacetFS.GroupIndex

/-! # Coherence of the caching file system

When reads through the cache return what the backend has. The mirrored item of a write is bound
when the handle is opened; a write to a file whose cached copy is another item, or whose name has
changed, leaves that copy or the cached attributes behind. -/
namespace CacheCoherence

open EventSystem FileTree CacheRanges CacheItem CacheRefinement CacheBackend CacheWrapper
open Function (update update_of_ne update_self)

variable {ν : Type}

variable {o : ℕ}

section Invariant

/-- Every read that returns, on a handle whose name still names the object it was opened on,
gives what the object holds, and the end of the file where it is. -/
def Coherent (s : State ν) : Prop :=
  ∀ r, .reader r ∈ s.handles → ∀ o, r.object = some o → fileAt s.backend.tree r.name = some o →
    ∀ now len off result, (s.readAt r.item now len off).1 = some result →
      result = (s.backend.object o).file.read len off

/-- Some read on a handle gives what the object does not hold. -/
def Stale (s : State ν) (h o len : ℕ) (off : Int) : Bool :=
  match s.handles[h]? with
  | some (.reader r) => decide (r.object = some o) &&
      decide (fileAt s.backend.tree r.name = some o) &&
      match (s.readAt r.item 0 len off).1 with
      | some result => decide (result ≠ (s.backend.object o).file.read len off)
      | none => false
  | _ => false

theorem not_coherent_of_stale {s : State ν} {h len : ℕ} {off : Int}
    (hs : Stale s h o len off = true) : ¬ Coherent s := by
  intro hc
  unfold Stale at hs
  split at hs
  · rename_i r hr
    simp only [Bool.and_eq_true, decide_eq_true_eq] at hs
    obtain ⟨⟨hobj, hname⟩, hs⟩ := hs
    split at hs
    · rename_i result hres
      exact of_decide_eq_true hs
        (hc r (List.mem_of_getElem? hr) o hobj hname 0 len off result hres)
    · cases hs
  · cases hs

def HandleOK (s : State ν) : Handle ν → Prop
  | .reader r => r.item < s.nextItem ∧ (s.slot r.item).name = r.name ∧
      ∀ o, r.object = some o → o < s.backend.next ∧
        (fileAt s.backend.tree r.name = some o →
          Agrees (s.slot r.item).cached (s.backend.object o).file)
  | .writer w => w.object < s.backend.next ∧ (w.append = false → w.pos = w.off ∧ 0 ≤ w.off) ∧
      ∀ i, w.item = some i → w.append = false ∧ i < s.nextItem ∧ (s.slot i).name = w.name ∧
        (s.live i = true → fileAt s.backend.tree w.name = some w.object)
  | .closed => True

/-- What holds of the item registered at a name. -/
structure ItemOK (s : State ν) (p : Path ν) (i : ℕ) : Prop where
  bound : i < s.nextItem
  name : (s.slot i).name = p
  live : s.live i = true
  past : (s.slot i).cached.item.fpr.mtime < s.backend.clock
  agrees : ∃ o, fileAt s.backend.tree p = some o ∧
    Agrees (s.slot i).cached (s.backend.object o).file

/-- What holds of the metadata on disk. -/
structure DiskOK (s : State ν) (p : Path ν) (d : DiskFile) (m : Meta) : Prop where
  past : m.fingerprint.mtime < s.backend.clock
  kept : s.registry p = none → ∀ o, fileAt s.backend.tree p = some o →
    (s.backend.object o).fingerprint = m.fingerprint → ∀ x, Has m.ranges x →
      x < (s.backend.object o).file.size → d.data x = (s.backend.object o).file.data x
  clean : ∀ i, s.registry p = some i → (s.slot i).cached.item.dirty = false →
    ∀ x, Has m.ranges x → x < m.fingerprint.size → Has (s.slot i).cached.item.rs x

structure Invariant (s : State ν) : Prop where
  item : ∀ p i, s.registry p = some i → ItemOK s p i
  registered : ∀ i, i < s.nextItem → s.live i = true → s.registry (s.slot i).name = some i
  handle : ∀ h ∈ s.handles, HandleOK s h
  attr : ∀ p fpr, s.attr p = some (some (.file fpr)) →
    ∃ o, fileAt s.backend.tree p = some o ∧ (s.backend.object o).fingerprint = fpr
  disk : ∀ p d m, s.disk p = some d → d.metadata = some m → DiskOK s p d m

theorem source_eq {s : State ν} {p : Path ν} (h : fileAt s.backend.tree p = some o)
    (g : File) (hg : s.backend.source p = some g) : g = (s.backend.object o).file := by
  rw [Backend.source, h] at hg
  exact (Option.some.inj hg).symm

theorem Invariant.coherent {s : State ν} (h : Invariant s) : Coherent s := by
  intro r hr o ho hname now len off result hres
  obtain ⟨-, hn, hobj⟩ := h.handle _ hr
  refine ((hobj o ho).2 hname).read_eq (fun g hg => ?_) hres
  rw [hn] at hg
  exact source_eq hname g hg

theorem start_invariant (st : Start ν) : Invariant (start st) where
  item _ _ h := by cases h
  registered _ h := by cases h
  handle _ h := by cases h
  attr _ _ h := by cases h
  disk p d m hd hm := ⟨st.past p d m hd hm, fun _ o ho hf x hx hlt =>
    st.kept p d m o hd hm ho hf x hx hlt, fun _ h => by cases h⟩

end Invariant

section Condition

variable [DecidableEq ν]

/-- Handles for reading an object by its name have an item that is still in use. -/
def LiveReaders (s : State ν) (o : ℕ) : Prop :=
  ∀ r, .reader r ∈ s.handles → r.object = some o → fileAt s.backend.tree r.name = some o →
    s.live r.item = true

def NoReaders (s : State ν) (o : ℕ) : Prop :=
  ∀ r, .reader r ∈ s.handles → r.object = some o → fileAt s.backend.tree r.name ≠ some o

def NoSize (s : State ν) (p : Path ν) : Prop := ∀ fpr, s.attr p ≠ some (some (.file fpr))

/-- The write goes to the cached copy of the object, and what is cached of its size is dropped. -/
def WriteSafe (s : State ν) (w : Writer ν) : Prop :=
  LiveReaders s w.object ∧ ∀ q, fileAt s.backend.tree q = some w.object →
    (∀ i, s.registry q = some i → w.item = some i) ∧ (q ≠ w.name → NoSize s q)

/-- What the steps of a run have to meet for its reads to be coherent. -/
def Mirrors (s : State ν) : Event ν → Prop
  | .write h bs n => ∀ w, s.handles[h]? = some (.writer w) → bs.take n ≠ [] → WriteSafe s w
  | .writeAt h bs n off => ∀ w, s.handles[h]? = some (.writer w) → bs.take n ≠ [] → 0 ≤ off →
      WriteSafe s w
  | .truncate p _ ok => ok = true → ∀ o, fileAt s.backend.tree p = some o → LiveReaders s o
  | .openWrite p _ trunc append ok => ok = true → trunc = true →
      ∀ o, fileAt s.backend.tree p = some o → if append then NoReaders s o else LiveReaders s o
  | .rename p q ok => ok = true → Renamable s.backend p q →
      (∀ r, p <+: r → p ≠ r → NoSize s r) ∧
      ∀ r, .reader r ∈ s.handles → ∀ o, r.object = some o →
        fileAt (backendRename s.backend p q).tree r.name = some o →
          fileAt s.backend.tree r.name = some o
  | .removeAll p ok => ok = true → p ≠ [] → ∀ r, p <+: r → p ≠ r → NoSize s r
  | _ => True

end Condition

variable {i : ℕ}

theorem of_update_none {α β : Type} [DecidableEq α] {f : α → Option β} {a b x}
    (h : update f a none b = some x) : b ≠ a ∧ f b = some x := by
  by_cases hb : b = a
  · simp [hb] at h
  · exact ⟨hb, by rwa [update_of_ne hb] at h⟩

section Frames

variable {s : State ν}

theorem Invariant.setAttr (h : Invariant s) (a : Path ν → Option (Option Info))
    (ha : ∀ p fpr, a p = some (some (.file fpr)) →
      ∃ o, fileAt s.backend.tree p = some o ∧ (s.backend.object o).fingerprint = fpr) :
    Invariant { s with attr := a } where
  item p i hr := { h.item p i hr with }
  registered := h.registered
  handle := h.handle
  attr := ha
  disk p d m hd hm := { h.disk p d m hd hm with }

theorem Invariant.setHandles (h : Invariant s) (hs : List (Handle ν))
    (hok : ∀ x ∈ hs, HandleOK s x) : Invariant { s with handles := hs } where
  item p i hr := { h.item p i hr with }
  registered := h.registered
  handle := hok
  attr := h.attr
  disk p d m hd hm := { h.disk p d m hd hm with }

/-- A handle stays right if its item keeps its name and comes to life nowhere, and if readers
still have what their object holds. -/
theorem HandleOK.keep {t x} (h : HandleOK s x) (hn : s.nextItem ≤ t.nextItem)
    (hb : s.backend.next ≤ t.backend.next)
    (hname : ∀ j, j < s.nextItem → x.item = some j → (t.slot j).name = (s.slot j).name)
    (hlive : ∀ j, j < s.nextItem → x.item = some j → t.live j = true → s.live j = true ∧
      fileAt t.backend.tree (s.slot j).name = fileAt s.backend.tree (s.slot j).name)
    (hread : ∀ r o, x = .reader r → r.item < s.nextItem → (s.slot r.item).name = r.name →
      r.object = some o → fileAt t.backend.tree r.name = some o →
      fileAt s.backend.tree r.name = some o ∧
        (Agrees (s.slot r.item).cached (s.backend.object o).file →
          Agrees (t.slot r.item).cached (t.backend.object o).file)) : HandleOK t x := by
  cases x with
  | reader r =>
    obtain ⟨hi, hr, hobj⟩ := h
    refine ⟨hi.trans_le hn, (hname _ hi rfl).trans hr, fun o ho => ⟨(hobj o ho).1.trans_le hb, ?_⟩⟩
    intro hf
    obtain ⟨hs, ha⟩ := hread r o rfl hi hr ho hf
    exact ha ((hobj o ho).2 hs)
  | writer w =>
    obtain ⟨ho, hpos, hitem⟩ := h
    refine ⟨ho.trans_le hb, hpos, fun j hj => ?_⟩
    obtain ⟨happ, hj', hw, hfile⟩ := hitem j hj
    refine ⟨happ, hj'.trans_le hn, (hname j hj' hj).trans hw, fun hl => ?_⟩
    obtain ⟨hl, hsame⟩ := hlive j hj' hj hl
    rw [hw] at hsame
    exact hsame.trans (hfile hl)
  | closed => trivial

theorem ItemOK.of_slot {t p} (h : ItemOK s p i) (hb : t.backend = s.backend)
    (hn : s.nextItem ≤ t.nextItem) (hslot : t.slot i = s.slot i) : ItemOK t p i := by
  obtain ⟨hbound, hname, hl, hpast, hagrees⟩ := h
  rw [State.live, ← hslot] at hl
  rw [← hslot] at hname hpast hagrees
  rw [← hb] at hpast hagrees
  exact ⟨hbound.trans_le hn, hname, hl, hpast, hagrees⟩

/-- Changes of an item that do not touch what it stands for. -/
structure Gentle (source : Option File) (c c' : Cached) : Prop where
  agrees : ∀ f, (∀ g, source = some g → g = f) → Agrees c f → Agrees c' f
  live : c'.item.live = c.item.live
  fpr : c'.item.fpr = c.item.fpr

/-- The metadata on disk still claims only bytes that an item that is not dirty has. -/
def CleanWith (s : State ν) (i : ℕ) (c : Cached) : Prop :=
  ∀ p d m, s.disk p = some d → d.metadata = some m → s.registry p = some i →
    c.item.dirty = false → ∀ x, Has m.ranges x → x < m.fingerprint.size → Has c.item.rs x

theorem Invariant.cleanWith (h : Invariant s) {c}
    (hc : Normal (s.slot i).cached.item.rs → c.item.dirty = false →
      (s.slot i).cached.item.dirty = false ∧
        ∀ x, Has (s.slot i).cached.item.rs x → Has c.item.rs x) : CleanWith s i c := by
  intro p d m hd hm hr hdirty x hx hlt
  obtain ⟨o, -, ha⟩ := (h.item p i hr).agrees
  obtain ⟨hold, hsub⟩ := hc ha.normal hdirty
  exact hsub x ((h.disk p d m hd hm).clean i hr hold x hx hlt)

theorem live_setCached {c} (hl : c.item.live = s.live i) (j : ℕ) :
    (s.setCached i c).live j = s.live j :=
  GroupIndex.update_field (f := fun sl : Slot ν => sl.cached.item.live) hl j

theorem name_setCached (c : Cached) (i j : ℕ) :
    ((s.setCached i c).slot j).name = (s.slot j).name :=
  GroupIndex.update_field (f := Slot.name) (by rfl) j

theorem cached_setCached {c j} (P : Cached → Prop) (hi : j = i → P c)
    (hj : j ≠ i → P (s.slot j).cached) : P ((s.setCached i c).slot j).cached := by
  by_cases h : j = i
  · subst h
    simpa [State.setCached] using hi rfl
  · simpa [State.setCached, h] using hj h

theorem Invariant.setCached (h : Invariant s) {c}
    (hg : Gentle (s.backend.source (s.slot i).name) (s.slot i).cached c)
    (hclean : CleanWith s i c) : Invariant (s.setCached i c) := by
  have hagrees : ∀ j o, fileAt s.backend.tree (s.slot j).name = some o →
      Agrees (s.slot j).cached (s.backend.object o).file →
        Agrees ((s.setCached i c).slot j).cached (s.backend.object o).file := by
    intro j o hname ha
    refine cached_setCached (fun c => Agrees c _) (fun hj => ?_) fun _ => ha
    subst hj
    exact hg.agrees _ (source_eq hname) ha
  constructor
  · intro p j hr
    obtain ⟨hb, hname, hl, hpast, o, ho, ha⟩ := h.item p j hr
    refine ⟨hb, (name_setCached c i j).trans hname, (live_setCached hg.live j).trans hl, ?_,
      o, ho, hagrees j o (hname ▸ ho) ha⟩
    exact cached_setCached (fun c => c.item.fpr.mtime < _)
      (fun hj => by subst hj; rw [hg.fpr]; exact hpast) fun _ => hpast
  · intro j hj hl
    rw [live_setCached hg.live] at hl
    rw [name_setCached]
    exact h.registered j hj hl
  · intro x hx
    refine (h.handle x hx).keep le_rfl le_rfl (fun j _ _ => name_setCached c i j)
      (fun j _ _ hl => ⟨(live_setCached hg.live j).symm.trans hl, rfl⟩) ?_
    intro r o _ _ hname _ hn
    exact ⟨hn, hagrees r.item o (hname ▸ hn)⟩
  · exact h.attr
  intro p d m hd hm
  obtain ⟨hpast, hkept, hold⟩ := h.disk p d m hd hm
  refine ⟨hpast, hkept, fun j hr => ?_⟩
  refine cached_setCached (fun c => c.item.dirty = false → ∀ x, Has m.ranges x →
    x < m.fingerprint.size → Has c.item.rs x) (fun hj => ?_) fun _ => hold j hr
  subst hj
  exact hclean p d m hd hm hr

end Frames

section Changes

variable {s : State ν}

/-- The contents of an object change together with the copies that mirror it. -/
structure Follows (s : State ν) (o : ℕ) (f : File) (slot : ℕ → Slot ν) : Prop where
  name : ∀ j, (slot j).name = (s.slot j).name
  live : ∀ j, (slot j).cached.item.live = s.live j
  fpr : ∀ j, (slot j).cached.item.fpr = (s.slot j).cached.item.fpr
  mirror : ∀ q j, s.registry q = some j → fileAt s.backend.tree q = some o →
    Agrees (slot j).cached f
  other : ∀ j, fileAt s.backend.tree (s.slot j).name ≠ some o → ∀ g,
    Agrees (s.slot j).cached g → Agrees (slot j).cached g
  clean : ∀ j, (slot j).cached.item.dirty = false → (s.slot j).cached.item.dirty = false ∧
    ∀ x, Has (s.slot j).cached.item.rs x → Has (slot j).cached.item.rs x

theorem modify_object (b : Backend ν) (o : ℕ) (f : File) : ((b.modify o f).object o).file = f := by
  simp [Backend.modify]

theorem modify_other (b : Backend ν) {o'} (f : File) (h : o' ≠ o) :
    (b.modify o f).object o' = b.object o' := by
  simp [Backend.modify, h]

theorem Invariant.modify (h : Invariant s) {f slot a} (hf : Follows s o f slot) (hl : LiveReaders s o)
    (ha : ∀ p fpr, a p = some (some (.file fpr)) →
      s.attr p = some (some (.file fpr)) ∧ fileAt s.backend.tree p ≠ some o) :
    Invariant { s with backend := s.backend.modify o f, slot := slot, attr := a } := by
  constructor
  · intro p j hr
    obtain ⟨hb, hname, hlive, hpast, o', ho, hagrees⟩ := h.item p j hr
    refine ⟨hb, (hf.name j).trans hname, (hf.live j).trans hlive, ?_, o', ho, ?_⟩
    · show (slot j).cached.item.fpr.mtime < s.backend.clock + 1
      rw [hf.fpr]
      omega
    show Agrees (slot j).cached ((s.backend.modify o f).object o').file
    by_cases ho' : o' = o
    · subst ho'
      rw [modify_object]
      exact hf.mirror p j hr ho
    rw [modify_other _ f ho']
    refine hf.other j ?_ _ hagrees
    rw [hname, ho]
    simpa using ho'
  · intro j hj hlive
    show s.registry (slot j).name = some j
    rw [hf.name]
    exact h.registered j hj ((hf.live j).symm.trans hlive)
  · intro x hx
    refine (h.handle x hx).keep le_rfl le_rfl (fun j _ _ => hf.name j)
      (fun j _ _ hlive => ⟨(hf.live j).symm.trans hlive, rfl⟩) ?_
    intro r o' hr hb hname ho hn
    refine ⟨hn, fun hagrees => ?_⟩
    show Agrees (slot r.item).cached ((s.backend.modify o f).object o').file
    by_cases ho' : o' = o
    · subst ho'
      have hreg := h.registered r.item hb (hl r (hr ▸ hx) ho hn)
      rw [hname] at hreg
      rw [modify_object]
      exact hf.mirror r.name r.item hreg hn
    have hne : fileAt s.backend.tree (s.slot r.item).name ≠ some o := by
      rw [hname]
      intro hn'
      exact ho' (Option.some.inj (hn.symm.trans hn'))
    rw [modify_other _ f ho']
    exact hf.other _ hne _ hagrees
  · intro p fpr hp
    obtain ⟨hold, hne⟩ := ha p fpr hp
    obtain ⟨o', ho, hfpr⟩ := h.attr p fpr hold
    refine ⟨o', ho, ?_⟩
    have ho' : o' ≠ o := fun he => hne (he ▸ ho)
    show ((s.backend.modify o f).object o').fingerprint = fpr
    rw [modify_other _ f ho', hfpr]
  intro p d m hd hm
  obtain ⟨hpast, hkept, hclean⟩ := h.disk p d m hd hm
  refine ⟨?_, fun hr o' ho hfpr => ?_, fun j hr hdirty x hx hlt => ?_⟩
  · show m.fingerprint.mtime < s.backend.clock + 1
    omega
  · by_cases ho' : o' = o
    · subst ho'
      have htime : s.backend.clock = m.fingerprint.mtime := by
        rw [← hfpr]
        simp [Backend.modify, Object.fingerprint]
      omega
    · rw [modify_other _ f ho'] at hfpr ⊢
      exact hkept hr o' ho hfpr
  · obtain ⟨hd', hsub⟩ := hf.clean j hdirty
    exact hsub x (hclean j hr hd' x hx hlt)

end Changes

section Names

variable {s : State ν}

theorem retire_same (pinned : Bool) (c : Cached) :
    (State.retire pinned c).item.rs = c.item.rs ∧ (State.retire pinned c).item.size = c.item.size ∧
      (State.retire pinned c).data = c.data ∧ (State.retire pinned c).item.live = false := by
  have hdoom : (doom c).item.rs = c.item.rs ∧ (doom c).item.size = c.item.size ∧
      (doom c).data = c.data ∧ (doom c).item.live = false := by
    unfold doom
    split
    · rename_i hd
      exact ⟨rfl, rfl, rfl, by simp [Item.live, hd]⟩
    · exact ⟨rfl, rfl, rfl, by simp [Item.live]⟩
  cases pinned with
  | true => exact hdoom
  | false => exact ⟨hdoom.1, hdoom.2.1, hdoom.2.2.1, rfl⟩

theorem name_drop (cov : Path ν → Bool) (j : ℕ) : ((s.drop cov).slot j).name = (s.slot j).name := by
  simp only [State.drop]
  split
  · rfl
  · rfl

theorem agrees_drop (cov : Path ν → Bool) (j : ℕ) {f} (h : Agrees (s.slot j).cached f) :
    Agrees ((s.drop cov).slot j).cached f := by
  simp only [State.drop]
  split
  · obtain ⟨hrs, hsize, hdata, -⟩ := retire_same (decide (0 < s.opens j)) (s.slot j).cached
    exact h.of_eq hrs hsize hdata
  · exact h

theorem slot_drop {cov j} (h : cov (s.slot j).name = false) : (s.drop cov).slot j = s.slot j := by
  simp [State.drop, h]

theorem registry_drop {cov p} :
    (s.drop cov).registry p = some i ↔ cov p = false ∧ s.registry p = some i := by
  simp only [State.drop]
  split
  · rename_i hc
    simp [hc]
  · rename_i hc
    simp [hc]

theorem Invariant.live_drop (h : Invariant s) {cov j} (hj : j < s.nextItem)
    (hl : (s.drop cov).live j = true) : cov (s.slot j).name = false ∧ s.live j = true := by
  by_cases hc : cov (s.slot j).name = false
  · rw [State.live, slot_drop hc] at hl
    exact ⟨hc, hl⟩
  exfalso
  rw [Bool.not_eq_false] at hc
  by_cases hr : s.registry (s.slot j).name = some j
  · have hdead := (retire_same (decide (0 < s.opens j)) (s.slot j).cached).2.2.2
    simp [State.live, State.drop, hc, hr, hdead] at hl
  have hsame : (s.drop cov).slot j = s.slot j := by simp [State.drop, hr]
  rw [State.live, hsame] at hl
  exact hr (h.registered j hj hl)

theorem Invariant.drop (h : Invariant s) (cov : Path ν → Bool) : Invariant (s.drop cov) := by
  constructor
  · intro p j hr
    obtain ⟨hc, hr⟩ := registry_drop.1 hr
    have hi := h.item p j hr
    exact hi.of_slot rfl le_rfl (slot_drop (hi.name ▸ hc))
  · intro j hj hl
    obtain ⟨hc, hl⟩ := h.live_drop hj hl
    rw [name_drop]
    exact registry_drop.2 ⟨hc, h.registered j hj hl⟩
  · intro x hx
    exact (h.handle x hx).keep le_rfl le_rfl (fun j _ _ => name_drop cov j)
      (fun j hj _ hl => ⟨(h.live_drop hj hl).2, rfl⟩)
      fun r o _ _ _ _ hn => ⟨hn, agrees_drop cov r.item⟩
  · exact h.attr
  intro p d m hd hm
  have hc : cov p = false := by
    by_contra hc
    simp [State.drop, hc] at hd
  have hd' : s.disk p = some d := by simpa [State.drop, hc] using hd
  obtain ⟨hpast, hkept, hclean⟩ := h.disk p d m hd' hm
  refine ⟨hpast, fun hr => hkept (by simpa [State.drop, hc] using hr), fun j hr => ?_⟩
  obtain ⟨-, hr⟩ := registry_drop.1 hr
  rw [slot_drop ((h.item p j hr).name ▸ hc)]
  exact hclean j hr

/-- The names in the backend change, and new objects come. -/
structure Renames (s : State ν) (b : Backend ν) : Prop where
  next : s.backend.next ≤ b.next
  clock : s.backend.clock ≤ b.clock
  object : ∀ o, o < s.backend.next → b.object o = s.backend.object o
  item : ∀ p i, s.registry p = some i → fileAt b.tree p = fileAt s.backend.tree p
  attr : ∀ p fpr, s.attr p = some (some (.file fpr)) → fileAt b.tree p = fileAt s.backend.tree p
  reader : ∀ r, .reader r ∈ s.handles → ∀ o, r.object = some o → fileAt b.tree r.name = some o →
    fileAt s.backend.tree r.name = some o
  disk : ∀ p d o, s.disk p = some d → fileAt b.tree p = some o →
    fileAt s.backend.tree p = some o ∨ s.backend.clock ≤ (b.object o).mtime

theorem Invariant.renames (h : Invariant s) {b} (hb : Renames s b) :
    Invariant { s with backend := b } := by
  have hobj : ∀ p o, fileAt s.backend.tree p = some o → b.object o = s.backend.object o :=
    fun p o ho => hb.object o (s.backend.bound p o ho)
  constructor
  · intro p i hr
    obtain ⟨hbound, hname, hlive, hpast, o, ho, ha⟩ := h.item p i hr
    refine ⟨hbound, hname, hlive, hpast.trans_le hb.clock, o, (hb.item p i hr).trans ho, ?_⟩
    show Agrees _ (b.object o).file
    rw [hobj p o ho]
    exact ha
  · exact h.registered
  · intro x hx
    refine (h.handle x hx).keep le_rfl hb.next (fun _ _ _ => rfl)
      (fun j hj _ hl => ⟨hl, hb.item _ j (h.registered j hj hl)⟩) ?_
    intro r o hr _ _ ho hn
    have hn' := hb.reader r (hr ▸ hx) o ho hn
    refine ⟨hn', fun ha => ?_⟩
    show Agrees _ (b.object o).file
    rw [hobj _ o hn']
    exact ha
  · intro p fpr hp
    obtain ⟨o, ho, hf⟩ := h.attr p fpr hp
    refine ⟨o, (hb.attr p fpr hp).trans ho, ?_⟩
    show (b.object o).fingerprint = fpr
    rw [hobj p o ho, hf]
  intro p d m hd hm
  obtain ⟨hpast, hkept, hclean⟩ := h.disk p d m hd hm
  refine ⟨hpast.trans_le hb.clock, fun hr o ho hf => ?_, hclean⟩
  rcases hb.disk p d o hd ho with hold | hnew
  · show ∀ x, Has m.ranges x → x < (b.object o).file.size → d.data x = (b.object o).file.data x
    have hf' : (b.object o).fingerprint = m.fingerprint := hf
    rw [hobj p o hold] at hf' ⊢
    exact hkept hr o hold hf'
  · have htime : (b.object o).mtime = m.fingerprint.mtime := congrArg Fingerprint.mtime hf
    omega

theorem Renames.refl (s : State ν) : Renames s s.backend where
  next := le_rfl
  clock := le_rfl
  object _ _ := rfl
  item _ _ _ := rfl
  attr _ _ _ := rfl
  reader _ _ _ _ hn := hn
  disk _ _ _ _ ho := .inl ho

theorem renames_of_covered {b} (cov : Path ν → Bool)
    (hnext : b.next = s.backend.next) (hclock : b.clock = s.backend.clock)
    (hobj : b.object = s.backend.object)
    (hsame : ∀ p, cov p = false → fileAt b.tree p = fileAt s.backend.tree p)
    (hreg : ∀ p i, s.registry p = some i → cov p = false)
    (hdisk : ∀ p d, s.disk p = some d → cov p = false)
    (hattr : ∀ p fpr, s.attr p = some (some (.file fpr)) → cov p = true →
      fileAt b.tree p = fileAt s.backend.tree p)
    (hread : ∀ r, .reader r ∈ s.handles → ∀ o, r.object = some o →
      fileAt b.tree r.name = some o → fileAt s.backend.tree r.name = some o) : Renames s b where
  next := hnext.ge
  clock := hclock.ge
  object o _ := congrFun hobj o
  item p i hr := hsame p (hreg p i hr)
  attr p fpr hp := by
    cases hc : cov p with
    | false => exact hsame p hc
    | true => exact hattr p fpr hp hc
  reader := hread
  disk p d o hd ho := .inl ((hsame p (hdisk p d hd)).symm.trans ho)

theorem disk_drop {cov p d}
    (h : (s.drop cov).disk p = some d) : cov p = false ∧ s.disk p = some d := by
  simp only [State.drop] at h
  split at h
  · cases h
  · rename_i hc
    exact ⟨by simpa using hc, h⟩

end Names

section Items

variable {s : State ν}

theorem load_agrees (h : Invariant s) {p} (hr : s.registry p = none)
    (ho : fileAt s.backend.tree p = some o) (now n : Int) :
    Agrees ⟨load (s.backend.object o).fingerprint now
        (((s.disk p).getD ⟨fun _ => 0, none⟩).metadata.filter Meta.valid),
      CacheItem.resize ((s.disk p).getD ⟨fun _ => 0, none⟩).data
        (s.backend.object o).fingerprint.size, n⟩ (s.backend.object o).file := by
  refine Agrees.load rfl now _ _ (fun m hm hf x hx hlt => ?_) n
  cases hd : s.disk p with
  | none => simp [hd] at hm
  | some d =>
    rw [hd, Option.getD_some] at hm
    have hm' := (Option.filter_eq_some_iff.1 hm).1
    exact (h.disk p d m hd hm').kept hr o ho hf.symm x hx hlt

theorem HandleOK.of_slots {t x} (h : HandleOK s x)
    (hb : t.backend = s.backend) (hn : s.nextItem ≤ t.nextItem)
    (hslot : ∀ j, j < s.nextItem → x.item = some j → t.slot j = s.slot j) : HandleOK t x := by
  refine h.keep hn (hb ▸ le_rfl) (fun j hj hx => by rw [hslot j hj hx]) (fun j hj hx hl => ?_)
    fun r o hx hj _ _ hf => ?_
  · rw [State.live, hslot j hj hx] at hl
    exact ⟨hl, by rw [hb]⟩
  · rw [hb] at hf
    rw [hb, hslot r.item hj (hx ▸ rfl)]
    exact ⟨hf, id⟩

theorem Invariant.setDisk (h : Invariant s) (disk : Path ν → Option DiskFile)
    (hok : ∀ p d m, disk p = some d → d.metadata = some m → DiskOK s p d m) :
    Invariant { s with disk := disk } where
  item p i hr := { h.item p i hr with }
  registered := h.registered
  handle := h.handle
  attr := h.attr
  disk p d m hd hm := { hok p d m hd hm with }

theorem item_ne_of_opens (h : s.opens i = 0) {x} (hx : x ∈ s.handles) : x.item ≠ some i := by
  have := List.countP_eq_zero.1 h x hx
  simpa using this

variable [DecidableEq ν]

theorem Invariant.openItem (h : Invariant s) {p}
    (ho : fileAt s.backend.tree p = some o) (now : Int) :
    Invariant (s.openItem p (s.backend.object o).fingerprint now).2 ∧
      ∀ i, (s.openItem p (s.backend.object o).fingerprint now).1 = some i →
        (s.openItem p (s.backend.object o).fingerprint now).2.registry p = some i := by
  unfold State.openItem
  cases hr : s.registry p with
  | some j =>
    simp only
    split
    · exact ⟨h, fun i hi => hr.trans hi⟩
    · exact ⟨h, fun i hi => by cases hi⟩
  | none =>
    refine ⟨?_, fun i hi => by simpa using hi⟩
    have hnew := load_agrees h hr ho now
    have hsame := load_same (s.backend.object o).fingerprint now
      (((s.disk p).getD ⟨fun _ => 0, none⟩).metadata.filter Meta.valid)
    have hne : ∀ {j : ℕ}, j < s.nextItem → j ≠ s.nextItem := fun hj => hj.ne
    constructor
    · intro q j hq
      by_cases hqp : q = p
      · subst hqp
        obtain rfl : s.nextItem = j := by simpa using hq
        refine ⟨Nat.lt_succ_self _, by simp, by simpa [State.live] using hsame.2.2.1, ?_, o, ho, ?_⟩
        · have hpast : (s.backend.object o).fingerprint.mtime < s.backend.clock :=
            s.backend.past o
          simpa [hsame.1] using hpast
        · simpa using hnew _
      · have hi := h.item q j (by simpa [hqp] using hq)
        exact hi.of_slot rfl (Nat.le_succ _) (update_of_ne (hne hi.bound) _ _)
    · intro j hj hl
      by_cases hjn : j = s.nextItem
      · subst hjn
        simp
      have hj' : j < s.nextItem := by
        have : j < s.nextItem + 1 := hj
        omega
      have hreg := h.registered j hj' (by simpa [State.live, hjn] using hl)
      have hq : (s.slot j).name ≠ p := by
        rintro hq
        rw [hq, hr] at hreg
        cases hreg
      simpa [hjn, hq] using hreg
    · intro x hx
      exact (h.handle x hx).of_slots rfl (Nat.le_succ _) fun j hj _ =>
        update_of_ne (hne hj) _ _
    · exact h.attr
    intro q d m hd hm
    by_cases hqp : q = p
    · subst hqp
      obtain rfl : _ = d := by simpa using hd
      cases hdisk : s.disk q with
      | none => simp [hdisk] at hm
      | some d₀ =>
        simp only [hdisk, Option.getD_some] at hm
        have hm₀ := (Option.filter_eq_some_iff.1 hm).1
        refine ⟨(h.disk q d₀ m hdisk hm₀).past, fun hr' => by simp at hr', fun j hj => ?_⟩
        obtain rfl : s.nextItem = j := by simpa using hj
        intro hdirty x hx hlt
        simp only [update_self, Option.getD_some, hm] at hdirty ⊢
        rcases load_cases (s.backend.object o).fingerprint now (some m) with
          ⟨m₀, hm₁, hf, -, hrs⟩ | ⟨-, hd', -⟩
        · cases hm₁
          rw [hrs, has_loadRanges]
          rw [hf] at hlt
          exact ⟨hx, fun ht => by omega⟩
        · simp [hd'] at hdirty
    · have hd' : s.disk q = some d := by simpa [hqp] using hd
      obtain ⟨hpast, hkept, hclean⟩ := h.disk q d m hd' hm
      refine ⟨hpast, fun hr' => hkept (by simpa [hqp] using hr'), fun j hj => ?_⟩
      have hj' : s.registry q = some j := by simpa [hqp] using hj
      simpa [hne (h.item q j hj').bound] using hclean j hj'

theorem Invariant.flushMeta (h : Invariant s) {p} (hr : s.registry p = some i) :
    Invariant (s.flushMeta p i) := by
  have hi := h.item p i hr
  unfold State.flushMeta
  simp only
  split
  · rename_i hgo
    obtain ⟨hdirty, -⟩ := Bool.and_eq_true_iff.1 hgo
    have hdisk : Invariant (s.setDiskFile p
        (some ⟨(s.slot i).cached.data, some (s.slot i).cached.item.snapshot⟩)) := by
      refine h.setDisk _ fun q d m hd hm => ?_
      by_cases hq : q = p
      · subst hq
        simp only [update_self, Option.some.injEq] at hd
        subst hd
        cases hm
        refine ⟨hi.past, fun hno => by simp [hr] at hno, fun j hj hd => ?_⟩
        obtain rfl : i = j := Option.some.inj (hr.symm.trans hj)
        simp [hdirty] at hd
      · exact h.disk q d m (by simpa [hq] using hd) hm
    refine hdisk.setCached (i := i) ⟨fun f _ ha => ha.of_eq rfl rfl rfl, rfl, rfl⟩ ?_
    intro q d m hd hm hq _ x hx _
    obtain rfl : p = q := hi.name.symm.trans (h.item q i hq).name
    simp only [State.setDiskFile, update_self, Option.some.injEq] at hd
    subst hd
    cases hm
    exact hx
  · exact h

theorem flushMeta_frame (s : State ν) (p : Path ν) (i : ℕ) :
    (s.flushMeta p i).registry = s.registry ∧ (s.flushMeta p i).handles = s.handles := by
  unfold State.flushMeta
  simp only
  split
  · exact ⟨rfl, rfl⟩
  · exact ⟨rfl, rfl⟩

theorem flushMeta_clean (h : Invariant s) {p} (hr : s.registry p = some i) :
    ((s.flushMeta p i).slot i).cached.item.dirty = false := by
  have hl : (s.slot i).cached.item.live = true := (h.item p i hr).live
  unfold State.flushMeta
  simp only [hl, Bool.and_true]
  split
  · simp [State.setCached]
  · rename_i hd
    simpa using hd

theorem Invariant.shutItem (h : Invariant s) {p} (hr : s.registry p = some i)
    (hopens : s.opens i = 0) (hd : (s.slot i).cached.item.dirty = false) :
    Invariant (((s.setCached i (State.shut (s.slot i).cached)).setRegistry p none).setDiskFile p
      ((s.disk p).map fun d => { d with data := (s.slot i).cached.data })) := by
  have hi := h.item p i hr
  have hreg : ∀ {q : Path ν} {j : ℕ}, update s.registry p none q = some j →
      q ≠ p ∧ s.registry q = some j ∧ j ≠ i := by
    intro q j hq
    by_cases hqp : q = p
    · simp [hqp] at hq
    rw [update_of_ne hqp] at hq
    refine ⟨hqp, hq, ?_⟩
    rintro rfl
    exact hqp ((h.item q j hq).name.symm.trans hi.name)
  have hslot : ∀ {j : ℕ}, j ≠ i →
      (s.setCached i (State.shut (s.slot i).cached)).slot j = s.slot j :=
    fun hj => update_of_ne hj _ _
  constructor
  · intro q j hq
    obtain ⟨-, hq, hj⟩ := hreg hq
    exact (h.item q j hq).of_slot rfl le_rfl (hslot hj)
  · intro j hj hl
    have hji : j ≠ i := by
      rintro rfl
      simp [State.live, State.setDiskFile, State.setRegistry, State.setCached, State.shut,
        Item.live] at hl
    have hl' : s.live j = true :=
      (congrArg (fun sl : Slot ν => sl.cached.item.live) (hslot hji)).symm.trans hl
    have hq := h.registered j hj hl'
    have hqp : (s.slot j).name ≠ p := by
      intro hqp
      rw [hqp, hr] at hq
      exact hji (Option.some.inj hq).symm
    show update s.registry p none ((s.setCached i _).slot j).name = some j
    rw [name_setCached, update_of_ne hqp]
    exact hq
  · intro x hx
    refine (h.handle x hx).of_slots rfl le_rfl fun j _ hj => hslot ?_
    rintro rfl
    exact item_ne_of_opens hopens hx hj
  · exact h.attr
  intro q d m hd' hm
  by_cases hqp : q = p
  · subst hqp
    simp only [State.setDiskFile, update_self, Option.map_eq_some_iff] at hd'
    obtain ⟨d₀, hd₀, rfl⟩ := hd'
    have hok := h.disk q d₀ m hd₀ hm
    refine ⟨hok.past, fun _ o ho hf x hx hlt => ?_, fun j hj => absurd rfl (hreg hj).1⟩
    obtain ⟨o', ho', ha⟩ := hi.agrees
    obtain rfl : o = o' := Option.some.inj (ho.symm.trans ho')
    have hsize : (s.backend.object o).file.size = m.fingerprint.size :=
      congrArg Fingerprint.size hf
    exact ha.bytes x (hok.clean i hr hd x hx (hsize ▸ hlt))
  have hd₀ : s.disk q = some d := (update_of_ne hqp _ _).symm.trans hd'
  obtain ⟨hpast, hkept, hclean⟩ := h.disk q d m hd₀ hm
  refine ⟨hpast, fun hno => hkept ((update_of_ne hqp _ _).symm.trans hno),
    fun j hj => ?_⟩
  · obtain ⟨-, hq, hj⟩ := hreg hj
    exact (congrArg Slot.cached (hslot hj)).symm ▸ hclean j hq

theorem Invariant.closeIdle (h : Invariant s) {p} (hr : s.registry p = some i)
    (hopens : s.opens i = 0) : Invariant (s.closeIdle p i) := by
  obtain ⟨hreg, hhandles⟩ := flushMeta_frame s p i
  refine (h.flushMeta hr).shutItem (hreg ▸ hr) ?_ (flushMeta_clean h hr)
  rw [State.opens, hhandles]
  exact hopens

end Items

section Reads

variable {s : State ν} {c : Cached}

theorem writeNoOverwrite_flags (fault : ℕ → Option ℕ) (p : List UInt8) (off : Int) (c : Cached) :
    (writeNoOverwrite fault p off c).item.live = c.item.live ∧
      (writeNoOverwrite fault p off c).item.fpr = c.item.fpr ∧
      ((writeNoOverwrite fault p off c).item.dirty = false → c.item.dirty = false) := by
  unfold writeNoOverwrite
  simp only
  split
  · exact ⟨rfl, rfl, id⟩
  split
  · exact ⟨rfl, rfl, id⟩
  · exact ⟨rfl, rfl, fun h => (Bool.or_eq_false_iff.1 h).1⟩

variable (source : Option File)

theorem download_flags (r : Rng) (c : Cached) : (download source r c).item.live = c.item.live ∧
      (download source r c).item.fpr = c.item.fpr ∧
      ((download source r c).item.dirty = false → c.item.dirty = false) := by
  unfold download
  split
  · exact ⟨rfl, rfl, id⟩
  split
  · exact writeNoOverwrite_flags _ _ _ c
  · exact ⟨rfl, rfl, id⟩

theorem download_kept (r : Rng) (hn : Normal c.item.rs) {x}
    (hx : Has c.item.rs x) : Has (download source r c).item.rs x := by
  unfold download
  split
  · exact hx
  split
  · exact ((writeNoOverwrite_spec _ _ _ hn).kept x hx).1
  · exact hx

theorem Gentle.download (r : Rng) (c : Cached) : Gentle source c (download source r c) where
  agrees _ hs ha := ha.download hs r
  live := (download_flags source r c).1
  fpr := (download_flags source r c).2.1

theorem Invariant.download (h : Invariant s) (i : ℕ) (r : Rng) :
    Invariant (s.setCached i (download (s.backend.source (s.slot i).name) r (s.slot i).cached)) :=
  h.setCached (.download _ r _) (h.cleanWith fun hn hd =>
    ⟨(download_flags _ r _).2.2 hd, fun _ hx => download_kept _ r hn hx⟩)

theorem readAt_cached (now : Int) (len : ℕ) (off : Int) (c : Cached) :
    (CacheRefinement.readAt source now len off c).2 = c ∨ ∃ r,
      (CacheRefinement.readAt source now len off c).2 = CacheRefinement.download source r c ∨
      ∃ head, (CacheRefinement.readAt source now len off c).2 =
        touch now head (CacheRefinement.download source r c) := by
  unfold CacheRefinement.readAt
  split
  · exact .inl rfl
  split
  · exact .inl rfl
  simp only
  split
  · exact .inr ⟨_, .inr ⟨_, rfl⟩⟩
  · exact .inr ⟨_, .inl rfl⟩

theorem Invariant.readAt (h : Invariant s) (i : ℕ) (now : Int) (len : ℕ) (off : Int) :
    Invariant (s.readAt i now len off).2 := by
  have hg := fun r => Gentle.download (s.backend.source (s.slot i).name) r (s.slot i).cached
  show Invariant (s.setCached i _)
  rcases readAt_cached (s.backend.source (s.slot i).name) now len off (s.slot i).cached with
    heq | ⟨r, heq | ⟨head, heq⟩⟩
  · rw [heq]
    exact h.setCached ⟨fun _ _ ha => ha, rfl, rfl⟩ (h.cleanWith fun _ hd => ⟨hd, fun _ hx => hx⟩)
  · rw [heq]
    exact h.download i r
  · rw [heq]
    exact h.setCached ⟨fun f hs ha => ((hg r).agrees f hs ha).of_eq rfl rfl rfl, (hg r).live,
      (hg r).fpr⟩ (h.cleanWith fun _ hd => by cases hd)

end Reads

variable {bs : List UInt8}

section Mirrors

variable {s : State ν}

/-- An operation on an item that does to it what is done to its file. -/
structure Mirroring (f f' : File) (op : Cached → Cached) : Prop where
  live : ∀ c, (op c).item.live = c.item.live
  fpr : ∀ c, (op c).item.fpr = c.item.fpr
  dead : ∀ c, c.item.live = false → op c = c
  dirty : ∀ c, c.item.live = true → (op c).item.dirty = true
  agrees : ∀ c, c.item.live = true → Agrees c f → Agrees (op c) f'

theorem mirroring_write (f : File) (hbs : bs ≠ []) {off} (hoff : 0 ≤ off) :
    Mirroring f (f.write bs off) (mirrorWrite none bs off) where
  live c := by
    unfold mirrorWrite
    simp only
    split
    · rfl
    · rfl
  fpr c := by
    unfold mirrorWrite
    simp only
    split
    · rfl
    · rfl
  dead c hl := by simp [mirrorWrite, hl]
  dirty c hl := by simp [mirrorWrite, hbs, not_lt.2 hoff, hl]
  agrees c hl ha := ha.mirror hbs hoff hl

theorem mirroring_truncate (f : File) (n : ℕ) :
    Mirroring f (f.resize n) (CacheItem.truncate false n) where
  live c := by
    unfold CacheItem.truncate
    simp only
    split
    · rfl
    · rfl
  fpr c := by
    unfold CacheItem.truncate
    simp only
    split
    · rfl
    · rfl
  dead c hl := by simp [CacheItem.truncate, hl]
  dirty c hl := by
    rw [CacheItem.truncate, if_neg (by simp [hl])]
    rfl
  agrees c hl ha := ha.truncate n hl

variable {op : Cached → Cached}

theorem mirror_slot (P : Slot ν → Prop) {target j}
    (ht : target = some j → P { s.slot j with cached := op (s.slot j).cached })
    (ho : target ≠ some j → P (s.slot j)) : P ((s.mirror target op).slot j) := by
  cases target with
  | none => exact ho (by simp)
  | some i =>
    by_cases hj : j = i
    · subst hj
      simpa [State.mirror, State.setCached] using ht rfl
    · simpa [State.mirror, State.setCached, hj] using ho (by simpa using Ne.symm hj)

theorem mirror_frame (s : State ν) (target : Option ℕ) (op : Cached → Cached) :
    (s.mirror target op).backend = s.backend ∧ (s.mirror target op).registry = s.registry ∧
      (s.mirror target op).nextItem = s.nextItem := by
  cases target with
  | none => exact ⟨rfl, rfl, rfl⟩
  | some i => exact ⟨rfl, rfl, rfl⟩

theorem follows_mirror (h : Invariant s) {f target} (hop : Mirroring (s.backend.object o).file f op)
    (ht : ∀ i, target = some i → s.live i = true → fileAt s.backend.tree (s.slot i).name = some o)
    (hreg : ∀ q j, s.registry q = some j → fileAt s.backend.tree q = some o → target = some j) :
    Follows s o f (s.mirror target op).slot where
  name j := mirror_slot (fun sl => sl.name = (s.slot j).name) (fun _ => rfl) fun _ => rfl
  live j := mirror_slot (fun sl => sl.cached.item.live = s.live j) (fun _ => hop.live _) fun _ => rfl
  fpr j := mirror_slot (fun sl => sl.cached.item.fpr = (s.slot j).cached.item.fpr)
    (fun _ => hop.fpr _) fun _ => rfl
  mirror q j hq ho := by
    refine mirror_slot (fun sl => Agrees sl.cached f) (fun _ => ?_) fun hne =>
      absurd (hreg q j hq ho) hne
    obtain ⟨-, -, hl, -, o', ho', ha⟩ := h.item q j hq
    obtain rfl : o = o' := Option.some.inj (ho.symm.trans ho')
    exact hop.agrees _ hl ha
  other j hne g ha := by
    refine mirror_slot (fun sl => Agrees sl.cached g) (fun hj => ?_) fun _ => ha
    have hdead : s.live j = false := by
      by_contra hl
      exact hne (ht j hj (Bool.eq_true_of_not_eq_false hl))
    rw [hop.dead _ hdead]
    exact ha
  clean j := by
    refine mirror_slot (fun sl => sl.cached.item.dirty = false →
      (s.slot j).cached.item.dirty = false ∧ ∀ x, Has (s.slot j).cached.item.rs x →
        Has sl.cached.item.rs x) (fun _ hd => ?_) fun _ hd => ⟨hd, fun _ hx => hx⟩
    by_cases hl : s.live j = true
    · exact absurd hd (by simp [hop.dirty _ hl])
    · rw [hop.dead _ (Bool.eq_false_of_not_eq_true hl)] at hd ⊢
      exact ⟨hd, fun _ hx => hx⟩

theorem lookupItem_eq {p} (h : s.lookupItem p = some i) : s.registry p = some i :=
  (Option.filter_eq_some_iff.1 h).1

theorem Invariant.lookupItem (h : Invariant s) {p} (hr : s.registry p = some i) :
    s.lookupItem p = some i :=
  Option.filter_eq_some_iff.2 ⟨hr, (h.item p i hr).live⟩

theorem follows_lookup (h : Invariant s) {p f}
    (ho : fileAt s.backend.tree p = some o) (hop : Mirroring (s.backend.object o).file f op) :
    Follows s o f (s.mirror (s.lookupItem p) op).slot := by
  refine follows_mirror h hop (fun i hi _ => ?_) fun q j hq hqo => ?_
  · rw [(h.item p i (lookupItem_eq hi)).name]
    exact ho
  · obtain rfl := s.backend.single q p o hqo ho
    exact h.lookupItem hq

theorem Invariant.modifyMirror (h : Invariant s) {f target a}
    (hf : Follows s o f (s.mirror target op).slot) (hl : LiveReaders s o)
    (ha : ∀ p fpr, a p = some (some (.file fpr)) →
      s.attr p = some (some (.file fpr)) ∧ fileAt s.backend.tree p ≠ some o) :
    Invariant ({ s with backend := s.backend.modify o f, attr := a }.mirror target op) := by
  have hinv := h.modify hf hl ha
  cases target with
  | none => exact hinv
  | some i => exact hinv

end Mirrors

section Handles

variable {s : State ν}

theorem Invariant.addHandle (h : Invariant s) {x} (hx : HandleOK s x) :
    Invariant (s.addHandle x) := by
  refine h.setHandles _ fun y hy => ?_
  rcases List.mem_append.1 hy with hy | hy
  · exact h.handle y hy
  · rw [List.mem_singleton.1 hy]
    exact hx

theorem Invariant.setHandle (h : Invariant s) (n : ℕ) {x} (hx : HandleOK s x) :
    Invariant (s.setHandle n x) := by
  refine h.setHandles _ fun y hy => ?_
  rcases List.mem_or_eq_of_mem_set hy with hy | rfl
  · exact h.handle y hy
  · exact hx

theorem Invariant.readerOK (h : Invariant s) {p} (hr : s.registry p = some i)
    (off : Int) : HandleOK s (.reader ⟨p, i, off, fileAt s.backend.tree p⟩) := by
  obtain ⟨hb, hname, -, -, o, ho, ha⟩ := h.item p i hr
  refine ⟨hb, hname, fun o' ho' => ⟨s.backend.bound p o' ho', fun hn => ?_⟩⟩
  obtain rfl : o = o' := Option.some.inj (ho.symm.trans hn)
  exact ha

theorem Invariant.writerOK (h : Invariant s) {p append item} (ho : fileAt s.backend.tree p = some o)
    (hitem : ∀ i, item = some i → append = false ∧ s.registry p = some i) :
    HandleOK s (.writer ⟨p, o, append, item, 0, 0⟩) := by
  refine ⟨s.backend.bound p o ho, fun _ => ⟨rfl, le_rfl⟩, fun i hi => ?_⟩
  obtain ⟨happ, hr⟩ := hitem i hi
  have hok := h.item p i hr
  exact ⟨happ, hok.bound, hok.name, fun _ => ho⟩

theorem Invariant.release (h : Invariant s) (i : ℕ) : Invariant (s.release i) := by
  unfold State.release
  split
  · rename_i hgo
    refine h.setCached ⟨fun _ _ ha => ha.of_eq rfl rfl rfl, ?_, rfl⟩
      (h.cleanWith fun _ hd => ⟨hd, fun _ hx => hx⟩)
    simp [State.shut, Item.live, hgo.2]
  · exact h

theorem stat_file {b : Backend ν} {p : Path ν} {fpr : Fingerprint}
    (h : b.stat p = some (.file fpr)) :
    ∃ o, fileAt b.tree p = some o ∧ (b.object o).fingerprint = fpr := by
  unfold Backend.stat at h
  unfold fileAt
  split at h
  · cases h
  · rename_i o ho
    rw [ho]
    exact ⟨o, rfl, by simpa using h⟩
  · cases h

end Handles

section Steps

variable {s : State ν} [DecidableEq ν]

theorem Invariant.invalidateAttr (h : Invariant s) (p : Path ν) :
    Invariant (s.invalidateAttr p) := by
  exact h.setAttr _ fun q fpr hq => h.attr q fpr (of_update_none hq).2

theorem Invariant.invalidateEntry (h : Invariant s) (p : Path ν) :
    Invariant (s.invalidateEntry p) :=
  (h.invalidateAttr p).invalidateAttr p.dropLast

theorem Invariant.statCached (h : Invariant s) (p : Path ν) (ok : Bool) :
    Invariant (s.statCached p ok).2 ∧ (s.statCached p ok).2.backend = s.backend ∧
      ∀ fpr, (s.statCached p ok).1 = some (.file fpr) →
        ∃ o, fileAt s.backend.tree p = some o ∧ (s.backend.object o).fingerprint = fpr := by
  unfold State.statCached
  split
  · rename_i info hi
    refine ⟨h, rfl, fun fpr hf => h.attr p fpr ?_⟩
    rw [hi]
    exact congrArg some hf
  split
  · refine ⟨h.setAttr _ fun q fpr hq => ?_, rfl, fun fpr hf => stat_file hf⟩
    by_cases hqp : q = p
    · subst hqp
      exact stat_file (by simpa using hq)
    · exact h.attr q fpr (by rwa [update_of_ne hqp] at hq)
  · exact ⟨h, rfl, fun fpr hf => by cases hf⟩

theorem openItem_backend (s : State ν) (p : Path ν) (fpr : Fingerprint) (now : Int) :
    (s.openItem p fpr now).2.backend = s.backend := by
  unfold State.openItem
  split
  · split
    · rfl
    · rfl
  · rfl

theorem Invariant.openRead (h : Invariant s) (p : Path ν) (ok : Bool) (now : Int) :
    Invariant (s.openRead p ok now) := by
  obtain ⟨ht, hb, hstat⟩ := h.statCached p ok
  unfold State.openRead
  cases hst : s.statCached p ok with
  | mk info t =>
    rw [hst] at ht hb hstat
    cases info with
    | none => exact ht
    | some info =>
      cases info with
      | dir => exact ht
      | file fpr =>
        obtain ⟨o, ho, rfl⟩ := hstat fpr rfl
        rw [← hb] at ho ⊢
        obtain ⟨hu, hreg⟩ := ht.openItem ho now
        have hub := openItem_backend t p (t.backend.object o).fingerprint now
        simp only
        cases hop : t.openItem p (t.backend.object o).fingerprint now with
        | mk item u =>
          rw [hop] at hu hreg hub
          cases item with
          | none => exact hu
          | some i =>
            have hok := hu.readerOK (hreg i rfl) 0
            rw [hub] at hok
            exact hu.addHandle hok

theorem writeThrough_eq (s : State ν) (w : Writer ν) (hbs : bs ≠ []) (off mirrorOff : Int) :
    s.writeThrough w bs off mirrorOff = { s with
      backend := s.backend.modify w.object ((s.backend.object w.object).file.write bs off)
      slot := (s.mirror w.item (mirrorWrite none bs mirrorOff)).slot
      attr := update s.attr w.name none } := by
  rw [State.writeThrough, if_neg hbs]
  cases w.item with
  | none => rfl
  | some i => rfl

theorem writeThrough_handles (s : State ν) (w : Writer ν) (bs : List UInt8) (off off' : Int) :
    (s.writeThrough w bs off off').handles = s.handles := by
  by_cases hbs : bs = []
  · rw [State.writeThrough, if_pos hbs]
  · rw [writeThrough_eq s w hbs]

theorem Invariant.writeThrough (h : Invariant s) {w} (hw : HandleOK s (.writer w))
    (hsafe : bs ≠ [] → WriteSafe s w) {off mirrorOff} (hoff : 0 ≤ off)
    (hm : w.item ≠ none → mirrorOff = off) : Invariant (s.writeThrough w bs off mirrorOff) := by
  by_cases hbs : bs = []
  · rwa [State.writeThrough, if_pos hbs]
  obtain ⟨hlive, hnames⟩ := hsafe hbs
  obtain ⟨-, -, hitem⟩ := hw
  have hop := mirroring_write (s.backend.object w.object).file hbs hoff
  have hf : Follows s w.object ((s.backend.object w.object).file.write bs off)
      (s.mirror w.item (mirrorWrite none bs mirrorOff)).slot := by
    have hop' : s.mirror w.item (mirrorWrite none bs mirrorOff) =
        s.mirror w.item (mirrorWrite none bs off) := by
      cases hi : w.item with
      | none => rfl
      | some i => rw [hm (by simp [hi])]
    rw [hop']
    refine follows_mirror h hop (fun i hi hl => ?_) fun q j hq ho => (hnames q ho).1 j hq
    obtain ⟨-, -, hname, hfile⟩ := hitem i hi
    rw [hname]
    exact hfile hl
  rw [writeThrough_eq s w hbs]
  refine h.modify hf hlive fun p fpr hp => ?_
  obtain ⟨hpn, hp⟩ := of_update_none hp
  exact ⟨hp, fun ho => (hnames p ho).2 hpn fpr hp⟩

theorem Invariant.write (h : Invariant s) {w} (hmem : .writer w ∈ s.handles)
    (hsafe : bs ≠ [] → WriteSafe s w) (n : ℕ) : Invariant (s.write n w bs) := by
  obtain ⟨hb, hpos, hitem⟩ := h.handle _ hmem
  have hseq : w.append = false → s.backendPos w = w.off := fun happ => by
    rw [State.backendPos, if_neg (by simp [happ])]
    exact (hpos happ).1
  have hnonneg : 0 ≤ s.backendPos w := by
    cases happ : w.append with
    | true =>
      rw [State.backendPos, if_pos happ]
      exact (s.backend.object w.object).file.nonneg
    | false => exact (hseq happ).symm ▸ (hpos happ).2
  have hmirror : w.item ≠ none → w.off = s.backendPos w := fun hi => by
    obtain ⟨i, hi⟩ := Option.ne_none_iff_exists'.1 hi
    exact (hseq (hitem i hi).1).symm
  have hinv := h.writeThrough (h.handle _ hmem) hsafe hnonneg hmirror
  have hmem' : .writer w ∈ (s.writeThrough w bs (s.backendPos w) w.off).handles := by
    rw [writeThrough_handles]
    exact hmem
  obtain ⟨hb', hpos', hitem'⟩ := hinv.handle _ hmem'
  refine hinv.setHandle n ⟨hb', fun happ => ⟨congrArg (· + (bs.length : Int)) (hseq happ), ?_⟩,
    hitem'⟩
  exact Int.add_nonneg (hpos happ).2 (Int.natCast_nonneg _)

theorem Invariant.truncate (h : Invariant s) (p : Path ν) (n : ℕ) (ok : Bool)
    (hl : ok = true → ∀ o, fileAt s.backend.tree p = some o → LiveReaders s o) :
    Invariant (s.truncate p n ok) := by
  unfold State.truncate
  split
  · rename_i o ho
    have hok : ok = true ∧ fileAt s.backend.tree p = some o := by
      cases ok with
      | true => exact ⟨rfl, ho⟩
      | false => cases ho
    have hf := follows_lookup h hok.2 (mirroring_truncate (s.backend.object o).file n)
    refine h.modifyMirror hf (hl hok.1 o hok.2) fun q fpr hq => ?_
    obtain ⟨hqp, hq⟩ := of_update_none hq
    exact ⟨hq, fun ho => hqp (s.backend.single q p o ho hok.2)⟩
  · exact h.invalidateAttr p

end Steps

section Trees

variable {s : State ν} [DecidableEq ν]

theorem covers_self (p : Path ν) : State.covers p p = true := by
  by_cases hp : p = []
  · simp [State.covers, hp]
  · simp [State.covers, hp]

theorem covers_iff {p q : Path ν} (hp : p ≠ []) : State.covers p q = true ↔ p <+: q := by
  simp [State.covers, hp]

theorem fileAt_mkdir (b : Backend ν) {p} (hp : p ≠ [])
    (hd : dirAt (b.tree.node p.dropLast) = true) (hn : b.tree.node p = none) (q : Path ν) :
    fileAt (b.mkdir p hp hd hn).tree q = fileAt b.tree q := by
  refine (fileAt_insert _ hp hd hn q).trans ?_
  split
  · rename_i hq
    rw [hq, fileAt, hn]
  · rfl

theorem attr_invalidated {s : State ν} {p q : Path ν} {fpr : Fingerprint}
    (h : (s.invalidateEntry p).attr q = some (some (.file fpr))) :
    q ≠ p ∧ s.attr q = some (some (.file fpr)) := by
  obtain ⟨-, h⟩ := of_update_none h
  exact of_update_none h

theorem Invariant.removeAll (h : Invariant s) (p : Path ν) (ok : Bool)
    (hg : ok = true → p ≠ [] → ∀ r, p <+: r → p ≠ r → NoSize s r) :
    Invariant (s.removeAll p ok) := by
  have hinv := (h.invalidateEntry p).drop (State.covers p)
  have hrest : ∀ b, Renames ((s.invalidateEntry p).drop (State.covers p)) b →
      Invariant (({ s with backend := b }.invalidateEntry p).invalidateTree p) :=
    fun b hb => hinv.renames hb
  unfold State.removeAll
  apply hrest
  cases ok with
  | false => exact Renames.refl _
  | true =>
    simp only [if_true, backendRemoveAll]
    split
    · rename_i hp
      refine renames_of_covered (State.covers p) rfl rfl rfl (fun q hq => ?_)
        (fun q i hq => (registry_drop.1 hq).1) (fun q d hq => (disk_drop hq).1)
        (fun q fpr hq hc => ?_) fun r _ o _ hn => ?_
      · have hnot : ¬ p <+: q := fun hpre => by simp [(covers_iff hp).2 hpre] at hq
        exact (fileAt_removeAll _ hp q).trans (if_neg hnot)
      · obtain ⟨hne, hq⟩ := attr_invalidated hq
        exact absurd hq (hg rfl hp q ((covers_iff hp).1 hc) hne.symm fpr)
      · have heq : fileAt (s.backend.tree.removeAll p hp) r.name = some o := hn
        rw [fileAt_removeAll] at heq
        split at heq
        · cases heq
        · exact heq
    · exact Renames.refl _

theorem children_ne_nil {t : Tree ν Unit ℕ} {q r : Path ν} (h : fileAt t r = some o)
    (hq : q <+: r) (hne : q ≠ r) : t.children q ≠ [] := by
  obtain ⟨rest, rfl⟩ := hq
  cases rest with
  | nil => exact absurd (List.append_nil q).symm hne
  | cons x rest =>
    have hsome : (t.node (q ++ x :: rest)).isSome = true := by
      unfold fileAt at h
      split at h
      · rename_i hn
        rw [hn]
        rfl
      · cases h
    have hx : (t.node (q ++ [x])).isSome = true := by
      refine t.isSome_of_append (q := rest) ?_
      rwa [List.append_assoc]
    exact List.ne_nil_of_mem ((t.mem_children q x).2 hx)

theorem Invariant.rename (h : Invariant s) (p q : Path ν) (ok : Bool)
    (hg : ok = true → Renamable s.backend p q → (∀ r, p <+: r → p ≠ r → NoSize s r) ∧
      ∀ r, .reader r ∈ s.handles → ∀ o, r.object = some o →
        fileAt (backendRename s.backend p q).tree r.name = some o →
          fileAt s.backend.tree r.name = some o) : Invariant (s.rename p q ok) := by
  have hinv := (((h.invalidateEntry p).invalidateEntry q).drop (State.covers p)).drop
    (State.covers q)
  have hrest : ∀ b, Renames ((((s.invalidateEntry p).invalidateEntry q).drop
      (State.covers p)).drop (State.covers q)) b →
      Invariant (((({ s with backend := b }.invalidateEntry p).invalidateEntry q).invalidateTree
        p).invalidateTree q) := fun b hb => hinv.renames hb
  unfold State.rename
  apply hrest
  cases ok with
  | false => exact Renames.refl _
  | true =>
    simp only [if_true]
    by_cases hgo : Renamable s.backend p q
    · obtain ⟨hsize, hread⟩ := hg rfl hgo
      have hb : backendRename s.backend p q =
          s.backend.rename p q hgo.1.1 hgo.1.2.1 hgo.1.2.2.1 hgo.1.2.2.2 := dif_pos hgo
      obtain ⟨hgo, hgo'⟩ := hgo
      rw [hb] at hread ⊢
      refine renames_of_covered (fun r => State.covers p r || State.covers q r) rfl rfl rfl
        (fun r hr => ?_) (fun r i hr => ?_) (fun r d hr => ?_) (fun r fpr hr hc => ?_) hread
      · obtain ⟨hp', hq'⟩ := Bool.or_eq_false_iff.1 hr
        have hp : ¬ p <+: r := fun hpre => by simp [(covers_iff hgo.1).2 hpre] at hp'
        have hq : ¬ q <+: r := fun hpre => by simp [(covers_iff hgo.2.2.1).2 hpre] at hq'
        exact (fileAt_rename _ hgo.1 hgo.2.1 hgo.2.2.1 hgo.2.2.2 r).trans ((if_neg hq).trans (if_neg hp))
      · obtain ⟨hq', hr⟩ := registry_drop.1 hr
        exact Bool.or_eq_false_iff.2 ⟨(registry_drop.1 hr).1, hq'⟩
      · obtain ⟨hq', hr⟩ := disk_drop hr
        exact Bool.or_eq_false_iff.2 ⟨(disk_drop hr).1, hq'⟩
      obtain ⟨hneq, hr⟩ := attr_invalidated hr
      obtain ⟨hnep, hr⟩ := attr_invalidated hr
      rcases Bool.or_eq_true_iff.1 hc with hc | hc
      · exact absurd hr (hsize r ((covers_iff hgo.1).1 hc) hnep.symm fpr)
      obtain ⟨o, ho, -⟩ := h.attr r fpr hr
      have hne := children_ne_nil ho ((covers_iff hgo.2.2.1).1 hc) hneq.symm
      exact absurd hgo'.2 hne
    · have hb : backendRename s.backend p q = s.backend := dif_neg hgo
      rw [hb]
      exact Renames.refl _

theorem Invariant.mkdir (h : Invariant s) (p : Path ν) (ok : Bool) : Invariant (s.mkdir p ok) := by
  unfold State.mkdir
  split
  · refine Invariant.invalidateEntry ?_ p
    apply h.renames
    unfold backendMkdir
    split
    · rename_i hgo
      have hsame := fileAt_mkdir s.backend hgo.1 hgo.2.1 hgo.2.2
      exact renames_of_covered (fun _ => false) rfl rfl rfl (fun q _ => hsame q) (fun _ _ _ => rfl)
        (fun _ _ _ => rfl) (fun q fpr hq hc => by cases hc)
        fun r _ o _ hn => (hsame r.name).symm.trans hn
    · exact Renames.refl s
  · exact h

theorem Invariant.close (h : Invariant s) (n : ℕ) (x : Handle ν) : Invariant (s.close n x) := by
  cases x with
  | reader r => exact (h.setHandle n (x := .closed) trivial).release r.item
  | writer w =>
    refine Invariant.invalidateAttr ?_ w.name
    have ht := h.setHandle n (x := .closed) trivial
    cases w.item with
    | none => exact ht
    | some i => exact ht.release i
  | closed => exact h

variable {create trunc : Bool}

theorem backendOpen_cases {b b' : Backend ν} {p : Path ν}
    (h : backendOpen b p create trunc = some (o, b')) :
    (fileAt b.tree p = some o ∧
      (trunc = true ∧ b' = b.modify o ((b.object o).file.resize 0) ∨ trunc = false ∧ b' = b)) ∨
    fileAt b.tree p = none ∧ ∃ hp hd hn, o = b.next ∧ b' = b.create p hp hd hn := by
  unfold backendOpen at h
  split at h
  · rename_i o' ho
    obtain ⟨rfl, rfl⟩ := Prod.ext_iff.1 (Option.some.inj h)
    cases trunc with
    | true => exact .inl ⟨ho, .inl ⟨rfl, rfl⟩⟩
    | false => exact .inl ⟨ho, .inr ⟨rfl, rfl⟩⟩
  rename_i ho
  split at h
  · rename_i hgo
    obtain ⟨rfl, rfl⟩ := Prod.ext_iff.1 (Option.some.inj h)
    exact .inr ⟨ho, hgo.2.1, hgo.2.2.1, hgo.2.2.2, rfl, rfl⟩
  · cases h

theorem backendOpen_fileAt {b b' : Backend ν} {p : Path ν}
    (h : backendOpen b p create trunc = some (o, b')) : fileAt b'.tree p = some o := by
  rcases backendOpen_cases h with ⟨ho, ⟨-, rfl⟩ | ⟨-, rfl⟩⟩ | ⟨-, hp, hd, hn, rfl, rfl⟩
  · exact ho
  · exact ho
  · exact (fileAt_insert _ hp hd hn p).trans (if_pos rfl)

theorem renames_create (h : Invariant s) {p} (hp : p ≠ [])
    (hd : dirAt (s.backend.tree.node p.dropLast) = true) (hn : s.backend.tree.node p = none)
    (ho : fileAt s.backend.tree p = none) : Renames s (s.backend.create p hp hd hn) := by
  have hfile : ∀ q, q ≠ p → fileAt (s.backend.create p hp hd hn).tree q =
      fileAt s.backend.tree q :=
    fun q hq => (fileAt_insert _ hp hd hn q).trans (if_neg hq)
  have hself : fileAt (s.backend.create p hp hd hn).tree p = some s.backend.next :=
    (fileAt_insert _ hp hd hn p).trans (if_pos rfl)
  have hne : ∀ q o, fileAt s.backend.tree q = some o → q ≠ p := by
    rintro q o hq rfl
    rw [ho] at hq
    cases hq
  constructor
  · exact Nat.le_succ _
  · show s.backend.clock ≤ s.backend.clock + 1
    omega
  · intro o hlt
    exact update_of_ne hlt.ne _ _
  · intro q i hr
    obtain ⟨o, hq, -⟩ := (h.item q i hr).agrees
    exact hfile q (hne q o hq)
  · intro q fpr hq
    obtain ⟨o, hq, -⟩ := h.attr q fpr hq
    exact hfile q (hne q o hq)
  · intro r hr o hobj hq
    have hlt := ((h.handle _ hr).2.2 o hobj).1
    by_cases hrp : r.name = p
    · rw [hrp, hself] at hq
      exact absurd (Option.some.inj hq) hlt.ne'
    · exact (hfile r.name hrp).symm.trans hq
  intro q d o _ hq
  by_cases hqp : q = p
  · subst hqp
    obtain rfl := Option.some.inj (hself.symm.trans hq)
    exact .inr (by simp [Backend.create])
  · exact .inl ((hfile q hqp).symm.trans hq)

theorem Invariant.openAppend (h : Invariant s) {p b}
    (hb : backendOpen s.backend p create trunc = some (o, b))
    (hg : trunc = true → ∀ o, fileAt s.backend.tree p = some o → NoReaders s o) :
    Invariant (({ s with backend := b }.invalidateEntry p).invalidateTree p) := by
  rcases backendOpen_cases hb with ⟨ho, ⟨htrunc, rfl⟩ | ⟨-, rfl⟩⟩ | ⟨ho, hp, hd, hn, rfl, rfl⟩
  · have hdrop := h.drop (State.covers p)
    have hf : Follows (s.drop (State.covers p)) o ((s.backend.object o).file.resize 0)
        ((s.drop (State.covers p)).mirror none (CacheItem.truncate false 0)).slot := by
      refine follows_mirror hdrop (mirroring_truncate _ 0) (fun i hi => by cases hi) ?_
      intro q j hq hqo
      obtain rfl := s.backend.single q p o hqo ho
      have hc := (registry_drop.1 hq).1
      rw [covers_self] at hc
      cases hc
    refine hdrop.modify (a := (s.invalidateEntry p).attr) hf ?_ fun q fpr hq => ?_
    · intro r hr hobj hname
      exact absurd hname (hg htrunc o ho r hr hobj)
    · obtain ⟨hne, hq⟩ := attr_invalidated hq
      exact ⟨hq, fun hqo => hne (s.backend.single q p o hqo ho)⟩
  · exact (h.invalidateEntry p).drop _
  · exact ((h.renames (renames_create h hp hd hn ho)).invalidateEntry p).drop _

theorem Invariant.openMirrored (h : Invariant s) {p b}
    (hb : backendOpen s.backend p create trunc = some (o, b))
    (hg : trunc = true → ∀ o, fileAt s.backend.tree p = some o → LiveReaders s o) :
    Invariant (if trunc then
      ({ s with backend := b }.invalidateEntry p).mirror (s.lookupItem p)
        (CacheItem.truncate false 0)
      else { s with backend := b }.invalidateEntry p) := by
  rcases backendOpen_cases hb with ⟨ho, ⟨htrunc, rfl⟩ | ⟨htrunc, rfl⟩⟩ | ⟨ho, hp, hd, hn, rfl, rfl⟩
  · rw [if_pos htrunc]
    have hf := follows_lookup h ho (mirroring_truncate (s.backend.object o).file 0)
    refine h.modifyMirror hf (hg htrunc o ho) fun q fpr hq => ?_
    obtain ⟨hne, hq⟩ := attr_invalidated hq
    exact ⟨hq, fun hqo => hne (s.backend.single q p o hqo ho)⟩
  · rw [if_neg (by simp [htrunc])]
    exact h.invalidateEntry p
  have hinv := (h.renames (renames_create h hp hd hn ho)).invalidateEntry p
  have hno : s.lookupItem p = none := by
    cases hi : s.lookupItem p with
    | none => rfl
    | some i =>
      obtain ⟨o', ho', -⟩ := (h.item p i (lookupItem_eq hi)).agrees
      rw [ho] at ho'
      cases ho'
  rw [hno]
  split
  · exact hinv
  · exact hinv

theorem Invariant.openWrite (h : Invariant s) (p : Path ν) (create trunc append : Bool)
    (hg : trunc = true → ∀ o, fileAt s.backend.tree p = some o →
      if append then NoReaders s o else LiveReaders s o) :
    Invariant (s.openWrite p create trunc append) := by
  unfold State.openWrite
  split
  · exact h
  rename_i o b hb
  have hfile := backendOpen_fileAt hb
  cases append with
  | true =>
    have hinv := h.openAppend hb hg
    exact hinv.addHandle (hinv.writerOK hfile fun i hi => by cases hi)
  | false =>
    have hinv := h.openMirrored hb hg
    have hitem : ∀ i, s.lookupItem p = some i → false = false ∧ s.registry p = some i :=
      fun i hi => ⟨rfl, lookupItem_eq hi⟩
    cases trunc with
    | false => exact hinv.addHandle (hinv.writerOK hfile hitem)
    | true =>
      refine hinv.addHandle (hinv.writerOK ?_ fun i hi => ⟨rfl, ?_⟩)
      · exact (congrArg (fun b : Backend ν => fileAt b.tree p) (mirror_frame _ _ _).1).trans hfile
      · exact (congrFun (mirror_frame _ _ _).2.1 p).trans (hitem i hi).2

end Trees

section Result

variable [DecidableEq ν]

theorem next_invariant {s t : State ν} {e : Event ν} (h : Invariant s) (hg : Mirrors s e)
    (hn : next s e = some t) : Invariant t := by
  cases e with
  | stat p ok =>
    cases hn
    exact (h.statCached p ok).1
  | mkdir p ok =>
    cases hn
    exact h.mkdir p ok
  | openRead p ok now =>
    cases hn
    exact h.openRead p ok now
  | openWrite p create trunc append ok =>
    cases hn
    cases ok with
    | false => exact h
    | true => exact h.openWrite p create trunc append (hg rfl)
  | readAt n now len off =>
    simp only [next] at hn
    split at hn
    · cases hn
      exact h.readAt _ now len off
    · cases hn
  | read n now len =>
    simp only [next] at hn
    split at hn
    · rename_i r hr
      cases hn
      have ht := h.readAt r.item now len r.off
      exact ht.setHandle n (ht.handle (.reader r) (List.mem_of_getElem? hr))
    · cases hn
  | seek n off =>
    simp only [next] at hn
    split at hn
    · rename_i r hr
      cases hn
      exact h.setHandle n (h.handle (.reader r) (List.mem_of_getElem? hr))
    · rename_i w hw
      cases hn
      obtain ⟨hb, -, hitem⟩ := h.handle (.writer w) (List.mem_of_getElem? hw)
      exact h.setHandle n ⟨hb, fun _ => ⟨rfl, Int.natCast_nonneg off⟩, hitem⟩
    · cases hn
  | readThrough n k =>
    simp only [next] at hn
    split at hn
    · rename_i w hw
      cases hn
      obtain ⟨hb, hpos, hitem⟩ := h.handle (.writer w) (List.mem_of_getElem? hw)
      refine h.setHandle n ⟨hb, fun happ => ?_, hitem⟩
      obtain ⟨heq, hle⟩ := hpos happ
      exact ⟨congrArg (· + (k : Int)) heq, Int.add_nonneg hle (Int.natCast_nonneg k)⟩
    · cases hn
  | write n bs k =>
    simp only [next] at hn
    split at hn
    · rename_i w hw
      cases hn
      exact h.write (List.mem_of_getElem? hw) (hg w hw) n
    · cases hn
  | writeAt n bs k off =>
    simp only [next] at hn
    split at hn
    · rename_i w hw
      split at hn
      · rename_i hoff
        cases hn
        exact h.writeThrough (h.handle (.writer w) (List.mem_of_getElem? hw))
          (fun hbs => hg w hw hbs hoff) hoff fun _ => rfl
      · cases hn
        exact h
    · cases hn
  | truncate p n ok =>
    cases hn
    exact h.truncate p n ok hg
  | rename p q ok =>
    cases hn
    exact h.rename p q ok hg
  | removeAll p ok =>
    cases hn
    exact h.removeAll p ok hg
  | close n =>
    obtain ⟨x, -, rfl⟩ := Option.map_eq_some_iff.1 hn
    exact h.close n x
  | fill p r =>
    simp only [next] at hn
    split at hn
    · rename_i i hi
      cases hn
      have hd := h.download i r
      rw [(h.item p i hi).name] at hd
      exact hd
    · cases hn
  | flush p =>
    obtain ⟨i, hi, rfl⟩ := Option.map_eq_some_iff.1 hn
    exact h.flushMeta hi
  | closeIdle p =>
    simp only [next] at hn
    split at hn
    · rename_i i hi
      split at hn
      · rename_i hopens
        cases hn
        exact h.closeIdle hi hopens
      · cases hn
    · cases hn
  | evict p =>
    simp only [next] at hn
    split at hn
    · cases hn
    cases hn
    exact h.setDisk _ fun q d m hd hm => h.disk q d m (of_update_none hd).2 hm
  | forget p =>
    cases hn
    exact h.invalidateAttr p

/-- A write changes a byte that a reader of the object has, in an item the write does not reach. -/
structure Misses (s : State ν) (w : Writer ν) (bs : List UInt8) (off : Int) (r : Reader ν)
    (x : Int) : Prop where
  reader : .reader r ∈ s.handles
  object : r.object = some w.object
  named : fileAt s.backend.tree r.name = some w.object
  item : w.item ≠ some r.item ∨ s.live r.item = false
  written : (span bs off).Has x
  inside : x < (s.slot r.item).cached.item.size
  has : present (s.slot r.item).cached.item.rs ⟨x, 1⟩ = true
  differs : (s.slot r.item).cached.data x ≠ bs.getD (x - off).toNat 0

theorem not_coherent_of_misses {s : State ν} {w : Writer ν} {off x : Int} {r : Reader ν}
    (h : Misses s w bs off r x) (hoff : 0 ≤ off) : ¬ Coherent (s.writeThrough w bs off off) := by
  have hx := h.written
  have hbs : bs ≠ [] := by
    rintro rfl
    exact absurd hx.2 (by simpa [span, Rng.stop] using hx.1)
  have hthrough := writeThrough_eq s w hbs off off
  have hslot : (s.writeThrough w bs off off).slot r.item = s.slot r.item := by
    rw [hthrough]
    refine mirror_slot (fun sl => sl = s.slot r.item) (fun hi => ?_) fun _ => rfl
    have hdead := h.item.resolve_left (not_not.2 hi)
    rw [(mirroring_write .empty hbs hoff).dead _ hdead]
  have hfile : ((s.writeThrough w bs off off).backend.object w.object).file =
      (s.backend.object w.object).file.write bs off := by
    rw [hthrough]
    exact modify_object _ _ _
  have htree : (s.writeThrough w bs off off).backend.tree = s.backend.tree := by
    rw [hthrough]
    rfl
  intro hc
  have hread : ((s.writeThrough w bs off off).readAt r.item 0 1 x).1 =
      some ([(s.slot r.item).cached.data x], false) := by
    rw [← hslot]
    refine readAt_one _ 0 (hoff.trans hx.1) ?_ ?_
    · rw [hslot]
      exact h.inside
    · rw [hslot]
      exact h.has
  have heq := hc r (by rw [writeThrough_handles]; exact h.reader) w.object h.object
    (htree ▸ h.named) 0 1 x _ hread
  rw [hfile, File.read_one _ (hx.2.trans_le (le_max_right _ _))] at heq
  have hbyte := List.head_eq_of_cons_eq (Prod.ext_iff.1 heq).1
  exact h.differs (hbyte.trans (store_span hx))

/-- In the runs whose writes reach the copies in use, reads are coherent. A write that misses the
item of a reader makes its reads wrong. -/
theorem reads_coherent_while_mirrored (st : Start ν) : (∀ es s, Meets next Mirrors (start st) es →
      run next (start st) es = some s → Coherent s) ∧
    ∀ es s t h w r bs n off x, run next (start st) es = some s →
      s.handles[h]? = some (.writer w) → 0 ≤ off → Misses s w (bs.take n) off r x →
        next s (.writeAt h bs n off) = some t → ¬ Coherent t := by
  constructor
  · intro es s hm hrun
    have hinv : Invariant s := run_invariant_of_meets (I := Invariant)
      (fun _ _ _ hs hg hn => next_invariant hs hg hn) (start_invariant st) hm hrun
    exact hinv.coherent
  · intro es s t h w r bs n off x _ hw hoff hmiss hn
    simp only [next, hw, if_pos hoff] at hn
    cases hn
    exact not_coherent_of_misses hmiss hoff

/-- One file with three bytes, and nothing cached so far. -/
def threeBytes : Start ℕ where
  backend := (Backend.empty.create [0] (by simp) rfl rfl).modify 0 (File.empty.write [1, 2, 3] 0)
  disk _ := none
  past _ _ _ h := by cases h
  kept _ _ _ _ h := by cases h

/-- A directory with an empty file and another one with a file of three bytes. -/
def oneDirectory : Backend ℕ :=
  (Backend.empty.mkdir [0] (by simp) rfl rfl).create [0, 0] (by simp) rfl rfl

def twoDirectories : Start ℕ where
  backend :=
    let c := (oneDirectory.mkdir [1] (by simp) rfl rfl).create [1, 0] (by simp) rfl rfl
    c.modify 1 (File.empty.write [1, 2, 3] 0)
  disk _ := none
  past _ _ _ h := by cases h
  kept _ _ _ _ h := by cases h

/-- The file is opened for writing, then read, and then written. -/
def writerFirst : List (Event ℕ) :=
  [.openWrite [0] false false false true, .openRead [0] true 0, .readAt 1 0 3 0,
    .writeAt 0 [9] 1 0]

def appended : List (Event ℕ) :=
  [.openRead [0] true 0, .readAt 0 0 3 0, .openWrite [0] false false true true, .write 1 [9] 1]

/-- A directory with a file of known size is replaced by another one. -/
def directoryReplaced : List (Event ℕ) :=
  [.stat [0, 0] true, .removeAll [0] true, .rename [1] [0] true, .openRead [0, 0] true 0]

/-- A handle for writing that was opened before the file was cached does not reach the copy; one
for appending takes it from the handles that have it; and the sizes of files below a directory
stay cached when it goes. -/
theorem stale_reads : (∃ s, run next (start threeBytes) writerFirst = some s ∧ ¬ Coherent s) ∧
    (∃ s, run next (start threeBytes) appended = some s ∧ ¬ Coherent s) ∧
    ∃ s, run next (start twoDirectories) directoryReplaced = some s ∧
      ¬ Coherent s := by
  refine ⟨?_, ?_, ?_⟩
  · exact exists_run (P := fun s => Stale s 1 0 3 0 = true) (by decide +kernel)
      fun _ _ => not_coherent_of_stale
  · exact exists_run (P := fun s => Stale s 0 0 4 0 = true) (by decide +kernel)
      fun _ _ => not_coherent_of_stale
  · exact exists_run (P := fun s => Stale s 0 1 3 0 = true) (by decide +kernel)
      fun _ _ => not_coherent_of_stale

end Result

end CacheCoherence
