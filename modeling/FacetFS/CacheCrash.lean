import FacetFS.EventSystem
import FacetFS.CacheItem

/-! # Crashes of the content cache

A cached file with its metadata file on disk. Flushes take a snapshot, sync the data file, write a
temporary file and rename it; several of them and the operations on the data file interleave. A
crash leaves for each byte of the data file one of the values it may have on disk: what was written
since the last completed sync may be lost, and punched bytes are gone. -/
namespace CacheCrash

open EventSystem CacheRanges CacheItem

section Model

/-- The metadata of a snapshot, and for each byte the values it was cached with since then. -/
structure Snapshot extends Meta where
  seen : Int → UInt8 → Bool

/-- A metadata file; a torn one does not parse. -/
inductive MetaFile
  | absent
  | torn
  | holds (snap : Snapshot)

/-- The next step of a flush. -/
inductive Stage
  | sync
  | write
  | rename
  deriving DecidableEq

structure Flight where
  snap : Snapshot
  needSync : Bool
  stage : Stage

/-- `may` has the values a byte of the data file can have after a crash. -/
structure State where
  cached : Cached
  may : Int → UInt8 → Bool
  disk : MetaFile
  tmp : MetaFile
  flights : ℕ → Option Flight

/-- How writing the temporary file ends. -/
inductive TmpWrite
  | ok
  | unopened
  | torn

inductive Event
  | fill (fault : ℕ → Option ℕ) (p : List UInt8) (off : Int)
  | mirror (fault : Option ℕ) (p : List UInt8) (off : Int)
  | truncate (fails : Bool) (n : Int)
  | punch (align : Int) (fault : ℕ → Bool)
  | touch (now head : Int)
  | close
  | flushSnapshot (i : ℕ)
  | flushSync (i : ℕ) (ok : Bool)
  | flushWrite (i : ℕ) (end_ : TmpWrite)
  | flushRename (i : ℕ) (ok : Bool)

def Snapshot.observe (c : Cached) (m : Snapshot) : Snapshot :=
  { m with seen := fun x v => m.seen x v || (decide (Has c.item.rs x) && v == c.data x) }

def MetaFile.observe (c : Cached) : MetaFile → MetaFile
  | .absent => .absent
  | .torn => .torn
  | .holds m => .holds (m.observe c)

def Flight.observe (c : Cached) (f : Flight) : Flight := { f with snap := f.snap.observe c }

/-- An operation on the data file; the bytes in `gone` have no other value any more. -/
def State.become (s : State) (gone : Int → Bool) (c : Cached) : State where
  cached := c
  may x v := (!gone x && s.may x v) || v == c.data x
  disk := s.disk.observe c
  tmp := s.tmp.observe c
  flights i := (s.flights i).map (Flight.observe c)

def snapshot (c : Cached) : Snapshot where
  toMeta := c.item.snapshot
  seen x v := decide (Has c.item.rs x) && v == c.data x

def State.setItem (s : State) (it : Item) : State := { s with cached := { s.cached with item := it } }

def State.setFlight (s : State) (i : ℕ) (f : Option Flight) : State :=
  { s with flights := Function.update s.flights i f }

/-- A failed flush leaves the item to be flushed again. -/
def State.fail (s : State) (i : ℕ) (f : Flight) : State :=
  (s.setItem { s.cached.item with
    dirty := true
    needSync := s.cached.item.needSync || f.needSync }).setFlight i none

def takeFlight (c : Cached) : Flight where
  snap := snapshot c
  needSync := c.item.needSync
  stage := if c.item.needSync then .sync else .write

/-- The first section of a flush; with nothing to flush it is over. -/
def State.flushSnapshot (s : State) (i : ℕ) : State :=
  let it := s.cached.item
  if it.dirty && it.live then
    (s.setItem { it with needSync := false, dirty := false }).setFlight i
      (some (takeFlight s.cached))
  else s

/-- The sync; the descriptor a closed item had gives an error. -/
def State.flushSync (s : State) (i : ℕ) (f : Flight) (ok : Bool) : State :=
  if ok && s.cached.item.loaded then
    { s with may := fun x v => v == s.cached.data x }.setFlight i (some { f with stage := .write })
  else s.fail i f

def State.flushWrite (s : State) (i : ℕ) (f : Flight) : TmpWrite → State
  | .ok => { s with tmp := .holds f.snap }.setFlight i (some { f with stage := .rename })
  | .unopened => s.fail i f
  | .torn => { s with tmp := .torn }.fail i f

def State.flushRename (s : State) (i : ℕ) (f : Flight) (ok : Bool) : State :=
  match s.tmp with
  | .absent => s.fail i f
  | file =>
    if ok then { s with disk := file, tmp := .absent }.setFlight i none
    else { s with tmp := .absent }.fail i f

def State.close (s : State) : State :=
  s.setItem { s.cached.item with loaded := false, doomed := true }

def next (s : State) : Event → Option State
  | .fill fault p off => some (s.become (fun _ => false) (writeNoOverwrite fault p off s.cached))
  | .mirror fault p off => some (s.become (fun _ => false) (mirrorWrite fault p off s.cached))
  | .truncate fails n => some (s.become (fun _ => false) (CacheItem.truncate fails n s.cached))
  | .punch align fault =>
    let c := punchItem align fault s.cached
    some (s.become (fun x => decide (Has s.cached.item.rs x) && !decide (Has c.item.rs x)) c)
  | .touch now head => some { s with cached := CacheItem.touch now head s.cached }
  | .close => some s.close
  | .flushSnapshot i => if s.flights i = none then some (s.flushSnapshot i) else none
  | .flushSync i ok =>
    match s.flights i with
    | some f => if f.stage = .sync then some (s.flushSync i f ok) else none
    | none => none
  | .flushWrite i w =>
    match s.flights i with
    | some f => if f.stage = .write then some (s.flushWrite i f w) else none
    | none => none
  | .flushRename i ok =>
    match s.flights i with
    | some f => if f.stage = .rename then some (s.flushRename i f ok) else none
    | none => none

/-- The metadata of a file that parses and has only ranges that make sense. -/
def loadMeta : MetaFile → Option Snapshot
  | .holds m => if m.valid then some m else none
  | _ => none

/-- A file opened over what an earlier life of the cache left on disk. Ranges that a metadata file
of the same fingerprint claims lie below the size. -/
structure Opened where
  fpr : Fingerprint
  data : Content
  disk : MetaFile
  now : Int
  below : ∀ m, loadMeta disk = some m → m.fingerprint = fpr → ∀ x, Has m.ranges x → x < fpr.size

def Opened.load (o : Opened) : Item :=
  CacheItem.load o.fpr o.now ((loadMeta o.disk).map Snapshot.toMeta)

/-- Metadata that cannot be used is removed. The data file is cut to the size. -/
def start (o : Opened) : State where
  cached :=
    { item := o.load
      data := resize o.data o.fpr.size
      cachedBytes := size o.load.rs }
  may x v := v == resize o.data o.fpr.size x || v == o.data x
  disk := match loadMeta o.disk with
    | none => .absent
    | some m => .holds { m with seen := fun x v => decide (Has m.ranges x) && v == o.data x }
  tmp := .absent
  flights _ := none

end Model

section Property

def Crash (s : State) (content : Content) : Prop := ∀ x, s.may x (content x) = true

/-- Whatever a crash leaves, a byte that the metadata file claims under the fingerprint has a value
it was cached with. -/
def Consistent (s : State) : Prop :=
  ∀ m, s.disk = .holds m → m.fingerprint = s.cached.item.fpr → ∀ content, Crash s content →
    ∀ x, Has m.ranges x → m.seen x (content x) = true

/-- The snapshots that are on disk or may still come there. -/
inductive Claims (s : State) : Snapshot → Prop
  | disk {m : Snapshot} : s.disk = .holds m → m.fingerprint = s.cached.item.fpr → Claims s m
  | tmp {m : Snapshot} : s.tmp = .holds m → Claims s m
  | flight {i : ℕ} {f : Flight} : s.flights i = some f → Claims s f.snap

def Claimed (s : State) (x : Int) : Prop := ∃ m, Claims s m ∧ Has m.ranges x

/-- The bytes that a step takes out of the cache and writes to or deallocates. -/
def Lost (s : State) : Event → Int → Prop
  | .mirror (some _) p off, x => s.cached.item.live = true ∧ 0 ≤ off ∧ (span p off).Has x
  | .truncate false n, x => s.cached.item.live = true ∧ 0 ≤ n ∧ (tail n).Has x
  | .punch align fault, x => s.cached.item.live = true ∧
      Has (punched fault 0 (punchRanges align s.cached.item)) x
  | _, _ => False

/-- Some flush has yet to sync what the item no longer counts as unsynced. -/
def SyncPending (s : State) : Prop := ∃ i f, s.flights i = some f ∧ f.stage = .sync

/-- The steps that are safe: what leaves the cache is not claimed, and no flush goes without its
sync while another one has still to sync. -/
def Spares (s : State) (e : Event) : Prop :=
  (∀ x, Lost s e x → ¬ Claimed s x) ∧
    ∀ i, e = .flushSnapshot i → s.cached.item.dirty = true → s.cached.item.live = true →
      s.cached.item.needSync = false → ¬ SyncPending s

end Property

section Moves

/-- What an operation on the data file can do. -/
structure Moves (lost : Int → Prop) (c c' : Cached) : Prop where
  fpr : c'.item.fpr = c.item.fpr
  normal : Normal c'.item.rs
  live : c'.item.live = true → c.item.live = true
  kept : c.item.live = true → ∀ x, Has c.item.rs x → ¬ lost x → Has c'.item.rs x
  dead : c.item.live = false → c'.data = c.data
  sync : c'.item.needSync = true ∨ c'.item.needSync = c.item.needSync ∧
    ∀ x, Has c'.item.rs x → Has c.item.rs x ∧ c'.data x = c.data x

theorem Moves.refl {lost c} (h : Normal c.item.rs) : Moves lost c c where
  fpr := rfl
  normal := h
  live hl := hl
  kept _ _ hx _ := hx
  dead _ := rfl
  sync := .inr ⟨rfl, fun _ hx => ⟨hx, rfl⟩⟩

variable {c : Cached}

theorem writeNoOverwrite_moves (fault : ℕ → Option ℕ) (p : List UInt8) (off : Int)
    (h : Normal c.item.rs) : Moves (fun _ => False) c (writeNoOverwrite fault p off c) := by
  by_cases hl : c.item.live = true
  · obtain ⟨hsame, hnormal, hkept, -, -, hsync⟩ := writeNoOverwrite_spec fault p off h
    refine ⟨by rw [hsame], hnormal, fun _ => hl, fun _ x hx _ => (hkept x hx).1,
      fun hd => absurd hl (by simp [hd]), ?_⟩
    rcases hsync with hs | ⟨hs, hsub⟩
    · exact .inl hs
    · exact .inr ⟨hs, fun x hx => ⟨hsub x hx, (hkept x (hsub x hx)).2⟩⟩
  have heq : writeNoOverwrite fault p off c = c := by
    simp [writeNoOverwrite, Bool.eq_false_of_not_eq_true hl]
  rw [heq]
  exact .refl h

theorem mirrorWrite_moves (fault : Option ℕ) (p : List UInt8) (off : Int) (h : Normal c.item.rs) :
    Moves (fun x => fault ≠ none ∧ 0 ≤ off ∧ (span p off).Has x) c (mirrorWrite fault p off c) := by
  unfold mirrorWrite
  simp only
  split
  · exact .refl h
  rename_i hgo
  simp only [not_or, not_lt, Bool.not_eq_false] at hgo
  cases fault with
  | none =>
    exact ⟨rfl, h.insert _, fun _ => hgo.2.2, fun _ x hx _ => (has_insert h x).2 (.inl hx),
      fun hd => absurd hgo.2.2 (by simp [hd]), .inl rfl⟩
  | some k =>
    refine ⟨rfl, h.remove _, fun _ => hgo.2.2, fun _ x hx hlost => ?_,
      fun hd => absurd hgo.2.2 (by simp [hd]), .inr ⟨rfl, fun x hx => ?_⟩⟩
    · exact (has_remove h _ x).2 ⟨hx, fun hs => hlost ⟨by simp, hgo.2.1, hs⟩⟩
    · obtain ⟨hrs, hspan⟩ := (has_remove h _ x).1 hx
      refine ⟨hrs, store_other fun hs => hspan ?_⟩
      simp only [span, Rng.Has, Rng.stop, List.length_take] at hs ⊢
      omega

theorem truncate_moves (fails : Bool) (n : Int) (h : Normal c.item.rs) :
    Moves (fun x => fails = false ∧ 0 ≤ n ∧ (tail n).Has x) c (CacheItem.truncate fails n c) := by
  by_cases hgo : n < 0 ∨ c.item.live = false
  · rw [CacheItem.truncate, if_pos hgo]
    exact .refl h
  simp only [not_or, not_lt, Bool.not_eq_false] at hgo
  obtain ⟨hn, hl⟩ := hgo
  cases fails with
  | true =>
    rw [CacheItem.truncate, if_neg (by simp [hn, hl]), if_pos rfl, doom]
    split
    · exact .refl h
    · exact ⟨rfl, h, fun _ => hl, fun _ x hx _ => hx, fun _ => rfl,
        .inr ⟨rfl, fun x hx => ⟨hx, rfl⟩⟩⟩
  | false =>
    obtain ⟨hsame, hnormal, hhas, -⟩ := truncate_spec h hn hl
    refine ⟨by rw [hsame], hnormal, fun _ => hl, fun _ x hx hlost => ?_,
      fun hd => absurd hl (by simp [hd]), .inl (by rw [hsame])⟩
    exact (hhas x).2 (.inl ⟨hx, fun ht => hlost ⟨rfl, hn, ht⟩⟩)

theorem punchItem_moves (align : Int) (fault : ℕ → Bool) (h : Normal c.item.rs) :
    Moves (fun x => Has (punched fault 0 (punchRanges align c.item)) x) c
      (punchItem align fault c) := by
  by_cases hl : c.item.live = true
  · obtain ⟨hsame, hnormal, hhas, hdata⟩ := punchItem_spec align fault h hl
    refine ⟨by rw [hsame], hnormal, fun _ => hl, fun _ x hx hlost => (hhas x).2 ⟨hx, hlost⟩,
      fun hd => absurd hl (by simp [hd]), .inr ⟨by rw [hsame], fun x hx => ?_⟩⟩
    obtain ⟨hrs, hout⟩ := (hhas x).1 hx
    exact ⟨hrs, by rw [hdata, if_neg hout]⟩
  · rw [punchItem, if_neg hl]
    exact .refl h

end Moves

variable {m : Snapshot} {x : Int} {v : UInt8} {t : State}

section Invariant

/-- The snapshots whose bytes have been synced. -/
inductive Durable (s : State) : Snapshot → Prop
  | disk {m : Snapshot} : s.disk = .holds m → m.fingerprint = s.cached.item.fpr → Durable s m
  | tmp {m : Snapshot} : s.tmp = .holds m → Durable s m
  | flight {i : ℕ} {f : Flight} : s.flights i = some f → f.stage ≠ .sync → Durable s f.snap

structure Invariant (s : State) : Prop where
  normal : Normal s.cached.item.rs
  held : s.cached.item.live = true → ∀ x, Claimed s x → Has s.cached.item.rs x
  now : ∀ x, s.may x (s.cached.data x) = true
  durable : ∀ m, Durable s m → ∀ x v, Has m.ranges x → s.may x v = true → m.seen x v = true
  pending : ∀ i f, s.flights i = some f → f.stage = .sync → f.needSync = true ∧
    ∀ x, Has f.snap.ranges x → f.snap.seen x (s.cached.data x) = true
  clean : s.cached.item.live = true → s.cached.item.needSync = false → ¬ SyncPending s →
    ∀ x v, Has s.cached.item.rs x → s.may x v = true → v = s.cached.data x

theorem Durable.claims {s} (h : Durable s m) : Claims s m := by
  cases h with
  | disk hm hf => exact .disk hm hf
  | tmp hm => exact .tmp hm
  | flight hf _ => exact .flight hf

theorem observe_holds {c : Cached} {file : MetaFile} :
    file.observe c = .holds m ↔ ∃ m₀, file = .holds m₀ ∧ m₀.observe c = m := by
  cases file <;> simp [MetaFile.observe]

theorem become_flight {s : State} {gone : Int → Bool} {c : Cached} {i : ℕ} {f : Flight} :
    (s.become gone c).flights i = some f ↔ ∃ f₀, s.flights i = some f₀ ∧ f₀.observe c = f :=
  Option.map_eq_some_iff

section Become

variable {s : State} {gone : Int → Bool} {c : Cached} {lost : Int → Prop}

theorem Claims.of_become (hf : c.item.fpr = s.cached.item.fpr)
    (h : Claims (s.become gone c) m) : ∃ m₀, Claims s m₀ ∧ m₀.observe c = m := by
  cases h with
  | disk hm hfpr =>
    obtain ⟨m₀, h₀, rfl⟩ := observe_holds.1 hm
    exact ⟨m₀, .disk h₀ (hfpr.trans hf), rfl⟩
  | tmp hm =>
    obtain ⟨m₀, h₀, rfl⟩ := observe_holds.1 hm
    exact ⟨m₀, .tmp h₀, rfl⟩
  | flight hi =>
    obtain ⟨f₀, h₀, rfl⟩ := become_flight.1 hi
    exact ⟨f₀.snap, .flight h₀, rfl⟩

theorem Durable.of_become (hf : c.item.fpr = s.cached.item.fpr)
    (h : Durable (s.become gone c) m) : ∃ m₀, Durable s m₀ ∧ m₀.observe c = m := by
  cases h with
  | disk hm hfpr =>
    obtain ⟨m₀, h₀, rfl⟩ := observe_holds.1 hm
    exact ⟨m₀, .disk h₀ (hfpr.trans hf), rfl⟩
  | tmp hm =>
    obtain ⟨m₀, h₀, rfl⟩ := observe_holds.1 hm
    exact ⟨m₀, .tmp h₀, rfl⟩
  | flight hi hstage =>
    obtain ⟨f₀, h₀, rfl⟩ := become_flight.1 hi
    exact ⟨f₀.snap, .flight h₀ hstage, rfl⟩

theorem syncPending_become : SyncPending (s.become gone c) ↔ SyncPending s := by
  constructor
  · rintro ⟨i, f, hi, hstage⟩
    obtain ⟨f₀, h₀, rfl⟩ := become_flight.1 hi
    exact ⟨i, f₀, h₀, hstage⟩
  · rintro ⟨i, f, hi, hstage⟩
    exact ⟨i, f.observe c, become_flight.2 ⟨f, hi, rfl⟩, hstage⟩

theorem Snapshot.observe_seen :
    (m.observe c).seen x v = true ↔ m.seen x v = true ∨ Has c.item.rs x ∧ v = c.data x := by
  simp [Snapshot.observe]

theorem become_may : (s.become gone c).may x v = true ↔
    gone x = false ∧ s.may x v = true ∨ v = c.data x := by
  simp [State.become]

theorem Invariant.seen_become (h : Invariant s) (hm : Moves lost s.cached c)
    (hl : s.cached.item.live = true → ∀ x, lost x → ¬ Claimed s x)
    (hclaims : Claims s m) (hx : Has m.ranges x)
    (hseen : m.seen x (s.cached.data x) = true) : (m.observe c).seen x (c.data x) = true := by
  rw [Snapshot.observe_seen]
  by_cases hlive : s.cached.item.live = true
  · have hclaimed : Claimed s x := ⟨m, hclaims, hx⟩
    have hkept := hm.kept hlive x (h.held hlive x hclaimed) fun hlost => hl hlive x hlost hclaimed
    exact .inr ⟨hkept, rfl⟩
  left
  rw [hm.dead (Bool.eq_false_of_not_eq_true hlive)]
  exact hseen

theorem Invariant.become (h : Invariant s) (hm : Moves lost s.cached c)
    (hl : s.cached.item.live = true → ∀ x, lost x → ¬ Claimed s x) :
    Invariant (s.become gone c) where
  normal := hm.normal
  held hlive x hx := by
    obtain ⟨m, hclaims, hm'⟩ := hx
    obtain ⟨m₀, h₀, rfl⟩ := hclaims.of_become hm.fpr
    have hclaimed : Claimed s x := ⟨m₀, h₀, hm'⟩
    have hlive' := hm.live hlive
    exact hm.kept hlive' x (h.held hlive' x hclaimed) fun hlost => hl hlive' x hlost hclaimed
  now x := become_may.2 (.inr rfl)
  durable m hd x v hx hv := by
    obtain ⟨m₀, h₀, rfl⟩ := hd.of_become hm.fpr
    rcases become_may.1 hv with ⟨-, hv⟩ | rfl
    · exact Snapshot.observe_seen.2 (.inl (h.durable m₀ h₀ x v hx hv))
    · exact h.seen_become hm hl h₀.claims hx (h.durable m₀ h₀ x _ hx (h.now x))
  pending i f hi hstage := by
    obtain ⟨f₀, h₀, rfl⟩ := become_flight.1 hi
    obtain ⟨hflag, hseen⟩ := h.pending i f₀ h₀ hstage
    exact ⟨hflag, fun x hx => h.seen_become hm hl (.flight h₀) hx (hseen x hx)⟩
  clean hlive hsync hno x v hx hv := by
    rw [syncPending_become] at hno
    rcases hm.sync with hs | ⟨hs, hsub⟩
    · exact absurd (hsync.symm.trans hs) (by simp)
    obtain ⟨hrs, hdata⟩ := hsub x hx
    rcases become_may.1 hv with ⟨-, hv⟩ | rfl
    · have hold := h.clean (hm.live hlive) (hs.symm.trans hsync) hno x v hrs hv
      exact hold.trans hdata.symm
    · rfl

end Become

/-- Steps that leave the data file alone and add no snapshot. -/
structure Follows (s t : State) : Prop where
  rs : t.cached.item.rs = s.cached.item.rs
  data : t.cached.data = s.cached.data
  live : t.cached.item.live = true → s.cached.item.live = true
  may : t.may = s.may
  durable : ∀ m, Durable t m → Durable s m
  pending : ∀ i f, t.flights i = some f → f.stage = .sync → s.flights i = some f
  sync : t.cached.item.needSync = false → s.cached.item.needSync = false ∧
    ∀ i f, s.flights i = some f → f.stage = .sync → t.flights i = some f

theorem Follows.claims {s} (h : Follows s t) (hm : Claims t m) : Claims s m := by
  cases hm with
  | disk hm hf => exact (h.durable _ (.disk hm hf)).claims
  | tmp hm => exact (h.durable _ (.tmp hm)).claims
  | @flight i f hi =>
    by_cases hstage : f.stage = .sync
    · exact .flight (h.pending i f hi hstage)
    · exact (h.durable _ (.flight hi hstage)).claims

theorem Invariant.follows {s} (h : Invariant s) (hf : Follows s t) : Invariant t where
  normal := hf.rs ▸ h.normal
  held hlive x hx := by
    obtain ⟨m, hclaims, hm⟩ := hx
    rw [hf.rs]
    exact h.held (hf.live hlive) x ⟨m, hf.claims hclaims, hm⟩
  now x := by
    rw [hf.may, hf.data]
    exact h.now x
  durable m hd x v hx hv := h.durable m (hf.durable m hd) x v hx (hf.may ▸ hv)
  pending i f hi hstage := by
    rw [hf.data]
    exact h.pending i f (hf.pending i f hi hstage) hstage
  clean hlive hsync hno x v hx hv := by
    obtain ⟨hs, hpend⟩ := hf.sync hsync
    rw [hf.data]
    refine h.clean (hf.live hlive) hs ?_ x v (hf.rs ▸ hx) (hf.may ▸ hv)
    rintro ⟨i, f, hi, hstage⟩
    exact hno ⟨i, f, hpend i f hi hstage, hstage⟩

end Invariant

section Flush

variable {s : State} {i : ℕ} {f : Flight}

theorem setFlight_eq {g j f'} : (s.setFlight i g).flights j = some f' ↔
      j = i ∧ g = some f' ∨ j ≠ i ∧ s.flights j = some f' := by
  by_cases hj : j = i
  · subst hj
    simp [State.setFlight]
  · simp [State.setFlight, hj]

theorem fail_follows (h : Invariant s) (hi : s.flights i = some f) : Follows s (s.fail i f) where
  rs := rfl
  data := rfl
  live hl := hl
  may := rfl
  durable m hd := by
    cases hd with
    | disk hm hf => exact .disk hm hf
    | tmp hm => exact .tmp hm
    | flight hj hstage =>
      obtain ⟨-, hj⟩ | ⟨-, hj⟩ := setFlight_eq.1 hj
      · cases hj
      · exact .flight hj hstage
  pending j f' hj _ := by
    obtain ⟨-, hj⟩ | ⟨-, hj⟩ := setFlight_eq.1 hj
    · cases hj
    · exact hj
  sync hs := by
    obtain ⟨hold, hflag⟩ : s.cached.item.needSync = false ∧ f.needSync = false :=
      Bool.or_eq_false_iff.1 hs
    refine ⟨hold, fun j f' hj hstage => setFlight_eq.2 (.inr ⟨?_, hj⟩)⟩
    rintro rfl
    obtain rfl : f = f' := Option.some.inj (hi.symm.trans hj)
    exact absurd ((h.pending j f hj hstage).1.symm.trans hflag) (by simp)

theorem dropTmp_follows (file : MetaFile) (hfile : ∀ m, file ≠ .holds m) :
    Follows s { s with tmp := file } where
  rs := rfl
  data := rfl
  live hl := hl
  may := rfl
  durable m hd := by
    cases hd with
    | disk hm hf => exact .disk hm hf
    | tmp hm => exact absurd hm (hfile m)
    | flight hj hstage => exact .flight hj hstage
  pending _ _ hj _ := hj
  sync hs := ⟨hs, fun _ _ hj _ => hj⟩

theorem flushWrite_ok_follows (hi : s.flights i = some f) (hstage : f.stage = .write) :
    Follows s (s.flushWrite i f .ok) where
  rs := rfl
  data := rfl
  live hl := hl
  may := rfl
  durable m hd := by
    have hf : Durable s f.snap := .flight hi (by simp [hstage])
    cases hd with
    | disk hm hf => exact .disk hm hf
    | tmp hm => exact MetaFile.holds.inj hm ▸ hf
    | flight hj hs =>
      obtain ⟨-, hj⟩ | ⟨-, hj⟩ := setFlight_eq.1 hj
      · exact Option.some.inj hj ▸ hf
      · exact .flight hj hs
  pending j f' hj hs := by
    obtain ⟨-, hj⟩ | ⟨-, hj⟩ := setFlight_eq.1 hj
    · exact absurd hs (by simp [← Option.some.inj hj])
    · exact hj
  sync hs := by
    refine ⟨hs, fun j f' hj hstage' => setFlight_eq.2 (.inr ⟨?_, hj⟩)⟩
    rintro rfl
    obtain rfl : f = f' := Option.some.inj (hi.symm.trans hj)
    exact absurd (hstage.symm.trans hstage') (by simp)

theorem flushRename_ok_follows (hi : s.flights i = some f) (hstage : f.stage = .rename) :
    Follows s ({ s with disk := s.tmp, tmp := .absent }.setFlight i none) where
  rs := rfl
  data := rfl
  live hl := hl
  may := rfl
  durable m hd := by
    cases hd with
    | disk hm hf => exact .tmp hm
    | tmp hm => cases hm
    | flight hj hs =>
      obtain ⟨-, hj⟩ | ⟨-, hj⟩ := setFlight_eq.1 hj
      · cases hj
      · exact .flight hj hs
  pending j f' hj _ := by
    obtain ⟨-, hj⟩ | ⟨-, hj⟩ := setFlight_eq.1 hj
    · cases hj
    · exact hj
  sync hs := by
    refine ⟨hs, fun j f' hj hstage' => setFlight_eq.2 (.inr ⟨?_, hj⟩)⟩
    rintro rfl
    obtain rfl : f = f' := Option.some.inj (hi.symm.trans hj)
    exact absurd (hstage.symm.trans hstage') (by simp)

theorem Invariant.flushWrite (h : Invariant s) (hi : s.flights i = some f)
    (hstage : f.stage = .write) (w : TmpWrite) : Invariant (s.flushWrite i f w) := by
  cases w with
  | ok => exact h.follows (flushWrite_ok_follows hi hstage)
  | unopened => exact h.follows (fail_follows h hi)
  | torn =>
    have ht := h.follows (dropTmp_follows .torn (by simp))
    exact ht.follows (fail_follows ht hi)

theorem Invariant.flushRename (h : Invariant s) (hi : s.flights i = some f)
    (hstage : f.stage = .rename) (ok : Bool) : Invariant (s.flushRename i f ok) := by
  unfold State.flushRename
  split
  · exact h.follows (fail_follows h hi)
  split
  · exact h.follows (flushRename_ok_follows hi hstage)
  · have ht := h.follows (dropTmp_follows .absent (by simp))
    exact ht.follows (fail_follows ht hi)

theorem takeFlight_sync (c : Cached) : (takeFlight c).stage = .sync ↔ c.item.needSync = true := by
  simp [takeFlight]

theorem takeFlight_seen {c} :
    (takeFlight c).snap.seen x v = true ↔ Has c.item.rs x ∧ v = c.data x := by
  simp [takeFlight, snapshot]

/-- With nothing left to sync a snapshot claims only bytes that are on disk. -/
theorem Invariant.flushSnapshot (h : Invariant s)
    (hg : s.cached.item.dirty = true → s.cached.item.live = true →
      s.cached.item.needSync = false → ¬ SyncPending s) : Invariant (s.flushSnapshot i) := by
  unfold State.flushSnapshot
  simp only
  split
  · rename_i hgo
    obtain ⟨hdirty, hlive⟩ := Bool.and_eq_true_iff.1 hgo
    replace hg := hg hdirty hlive
    refine ⟨h.normal, fun _ x hx => ?_, h.now, fun m hd x v hx hv => ?_, fun j f' hj hs => ?_,
      fun _ _ hno x v hx hv => ?_⟩
    · obtain ⟨m, hclaims, hm⟩ := hx
      cases hclaims with
      | disk hd hf => exact h.held hlive x ⟨m, .disk hd hf, hm⟩
      | tmp ht => exact h.held hlive x ⟨m, .tmp ht, hm⟩
      | flight hj =>
        obtain ⟨-, hj⟩ | ⟨-, hj⟩ := setFlight_eq.1 hj
        · rw [← Option.some.inj hj] at hm
          exact hm
        · exact h.held hlive x ⟨_, .flight hj, hm⟩
    · cases hd with
      | disk hd hf => exact h.durable m (.disk hd hf) x v hx hv
      | tmp ht => exact h.durable m (.tmp ht) x v hx hv
      | flight hj hs =>
        obtain ⟨-, hj⟩ | ⟨-, hj⟩ := setFlight_eq.1 hj
        · rw [← Option.some.inj hj] at hs hx ⊢
          rw [ne_eq, takeFlight_sync, Bool.not_eq_true] at hs
          exact takeFlight_seen.2 ⟨hx, h.clean hlive hs (hg hs) x v hx hv⟩
        · exact h.durable _ (.flight hj hs) x v hx hv
    · obtain ⟨-, hj⟩ | ⟨-, hj⟩ := setFlight_eq.1 hj
      · rw [← Option.some.inj hj] at hs ⊢
        exact ⟨(takeFlight_sync _).1 hs, fun x hx => takeFlight_seen.2 ⟨hx, rfl⟩⟩
      · exact h.pending j f' hj hs
    · have hs : s.cached.item.needSync = false := by
        by_contra hne
        rw [Bool.not_eq_false, ← takeFlight_sync] at hne
        exact hno ⟨i, takeFlight s.cached, setFlight_eq.2 (.inl ⟨rfl, rfl⟩), hne⟩
      exact h.clean hlive hs (hg hs) x v hx hv
  · exact h

theorem Invariant.flushSync (h : Invariant s) (hi : s.flights i = some f)
    (hstage : f.stage = .sync) (ok : Bool) : Invariant (s.flushSync i f ok) := by
  unfold State.flushSync
  split
  · have hcl : ∀ m, Durable s m → ∀ x, Has m.ranges x → m.seen x (s.cached.data x) = true :=
      fun m hd x hx => h.durable m hd x _ hx (h.now x)
    have hf := (h.pending i f hi hstage).2
    refine ⟨h.normal, fun hlive x hx => ?_, fun x => beq_self_eq_true _,
      fun m hd x v hx hv => ?_, fun j f' hj hs => ?_, fun _ _ _ x v _ hv => eq_of_beq hv⟩
    · obtain ⟨m, hclaims, hm⟩ := hx
      have hfs : Claims s f.snap := .flight hi
      refine h.held hlive x ⟨m, ?_, hm⟩
      cases hclaims with
      | disk hd hf => exact .disk hd hf
      | tmp ht => exact .tmp ht
      | flight hj =>
        obtain ⟨-, hj⟩ | ⟨-, hj⟩ := setFlight_eq.1 hj
        · exact Option.some.inj hj ▸ hfs
        · exact .flight hj
    · obtain rfl : v = s.cached.data x := eq_of_beq hv
      cases hd with
      | disk hd hf => exact hcl m (.disk hd hf) x hx
      | tmp ht => exact hcl m (.tmp ht) x hx
      | flight hj hs =>
        obtain ⟨-, hj⟩ | ⟨-, hj⟩ := setFlight_eq.1 hj
        · rw [← Option.some.inj hj] at hx ⊢
          exact hf x hx
        · exact hcl _ (.flight hj hs) x hx
    · obtain ⟨-, hj⟩ | ⟨-, hj⟩ := setFlight_eq.1 hj
      · exact absurd hs (by simp [← Option.some.inj hj])
      · exact h.pending j f' hj hs
  · exact h.follows (fail_follows h hi)

end Flush

section Runs

theorem setItem_follows {s it} (hrs : it.rs = s.cached.item.rs)
    (hfpr : it.fpr = s.cached.item.fpr) (hlive : it.live = true → s.cached.item.live = true)
    (hsync : it.needSync = s.cached.item.needSync) : Follows s (s.setItem it) where
  rs := hrs
  data := rfl
  live := hlive
  may := rfl
  durable m hd := by
    cases hd with
    | disk hm hf => exact .disk hm (hf.trans hfpr)
    | tmp hm => exact .tmp hm
    | flight hj hstage => exact .flight hj hstage
  pending _ _ hj _ := hj
  sync hs := ⟨hsync.symm.trans hs, fun _ _ hj _ => hj⟩

theorem touch_follows (s : State) (now head : Int) :
    Follows s { s with cached := CacheItem.touch now head s.cached } :=
  setItem_follows rfl rfl id rfl

theorem close_follows (s : State) : Follows s s.close :=
  setItem_follows rfl rfl (fun hl => by cases hl) rfl

theorem load_claims (o : Opened) : (∃ m, loadMeta o.disk = some m ∧ m.fingerprint = o.fpr ∧
      o.load.rs = loadRanges m.ranges o.fpr.size) ∨
    (∀ m, loadMeta o.disk = some m → m.fingerprint ≠ o.fpr) ∧ o.load.rs = [] := by
  rcases load_cases o.fpr o.now ((loadMeta o.disk).map Snapshot.toMeta) with
    ⟨m₀, hm₀, hf, -, hrs⟩ | ⟨hno, -, hrs⟩
  · obtain ⟨m, hm, rfl⟩ := Option.map_eq_some_iff.1 hm₀
    exact .inl ⟨m, hm, hf, hrs⟩
  · exact .inr ⟨fun m hm => hno m.toMeta (by simp [hm]), hrs⟩

theorem start_disk {o} (h : (start o).disk = .holds m) :
    ∃ m₀, loadMeta o.disk = some m₀ ∧ m.fingerprint = m₀.fingerprint ∧ m.ranges = m₀.ranges ∧
      ∀ x v, m.seen x v = true ↔ Has m₀.ranges x ∧ v = o.data x := by
  simp only [start] at h
  split at h
  · cases h
  rename_i m₀ hm₀
  obtain rfl := MetaFile.holds.inj h
  exact ⟨m₀, hm₀, rfl, rfl, by simp⟩

theorem load_below (o : Opened) (h : Has o.load.rs x) : x < o.fpr.size := by
  rcases load_claims o with ⟨m, hm, hf, hrs⟩ | ⟨-, hrs⟩
  · rw [hrs, has_loadRanges] at h
    exact o.below m hm hf x h.1
  · rw [hrs] at h
    exact absurd h (has_nil x)

theorem start_may {o} (hx : x < o.fpr.size) : (start o).may x v = true ↔ v = o.data x := by
  simp [start, resize, hx]

theorem start_invariant (o : Opened) : Invariant (start o) where
  normal := load_normal o.fpr o.now _
  held _ x hx := by
    obtain ⟨m, hclaims, hx⟩ := hx
    cases hclaims with
    | disk hd hf =>
      obtain ⟨m₀, hm₀, hf₀, hr, -⟩ := start_disk hd
      have hfpr : m₀.fingerprint = o.fpr := hf₀.symm.trans (hf.trans (load_same o.fpr o.now _).1)
      rw [hr] at hx
      rcases load_claims o with ⟨m₁, hm₁, -, hrs⟩ | ⟨hno, -⟩
      · obtain rfl : m₀ = m₁ := Option.some.inj (hm₀.symm.trans hm₁)
        show Has o.load.rs x
        rw [hrs, has_loadRanges]
        have hlt := o.below m₀ hm₀ hfpr x hx
        exact ⟨hx, by omega⟩
      · exact absurd hfpr (hno m₀ hm₀)
    | tmp ht => cases ht
    | flight hj => cases hj
  now x := by simp [start]
  durable m hd x v hx hv := by
    cases hd with
    | disk hd hf =>
      obtain ⟨m₀, hm₀, hf₀, hr, hseen⟩ := start_disk hd
      have hfpr : m₀.fingerprint = o.fpr := hf₀.symm.trans (hf.trans (load_same o.fpr o.now _).1)
      rw [hr] at hx
      exact (hseen x v).2 ⟨hx, (start_may (o.below m₀ hm₀ hfpr x hx)).1 hv⟩
    | tmp ht => cases ht
    | flight hj => cases hj
  pending i f hj := by cases hj
  clean _ _ _ x v hx hv := by
    have hlt := load_below o hx
    rw [(start_may hlt).1 hv]
    exact (if_pos hlt).symm

theorem next_invariant {s e} (h : Invariant s) (hg : Spares s e)
    (hn : next s e = some t) : Invariant t := by
  obtain ⟨hlost, hsync⟩ := hg
  cases e with
  | fill fault p off =>
    cases hn
    exact h.become (writeNoOverwrite_moves fault p off h.normal) (by simp)
  | mirror fault p off =>
    cases hn
    refine h.become (mirrorWrite_moves fault p off h.normal) fun hl x hx => ?_
    cases fault with
    | none => exact absurd rfl hx.1
    | some k => exact hlost x ⟨hl, hx.2⟩
  | truncate fails n =>
    cases hn
    refine h.become (truncate_moves fails n h.normal) fun hl x hx => ?_
    obtain ⟨rfl, hx⟩ := hx
    exact hlost x ⟨hl, hx⟩
  | punch align fault =>
    cases hn
    exact h.become (punchItem_moves align fault h.normal) fun hl x hx => hlost x ⟨hl, hx⟩
  | touch now head =>
    cases hn
    exact h.follows (touch_follows s now head)
  | close =>
    cases hn
    exact h.follows (close_follows s)
  | flushSnapshot i =>
    simp only [next] at hn
    split at hn
    · cases hn
      exact h.flushSnapshot (hsync i rfl)
    · cases hn
  | flushSync i ok =>
    simp only [next] at hn
    split at hn
    · split at hn
      · cases hn
        exact h.flushSync ‹_› ‹_› ok
      · cases hn
    · cases hn
  | flushWrite i w =>
    simp only [next] at hn
    split at hn
    · split at hn
      · cases hn
        exact h.flushWrite ‹_› ‹_› w
      · cases hn
    · cases hn
  | flushRename i ok =>
    simp only [next] at hn
    split at hn
    · split at hn
      · cases hn
        exact h.flushRename ‹_› ‹_› ok
      · cases hn
    · cases hn

theorem Invariant.consistent {s} (h : Invariant s) : Consistent s :=
  fun m hm hf _ hc x hx => h.durable m (.disk hm hf) x _ hx (hc x)

end Runs

section Exposure

/-- What holds in every run, whatever its steps. -/
structure Sound (s : State) : Prop where
  normal : Normal s.cached.item.rs
  now : ∀ x, s.may x (s.cached.data x) = true

theorem Sound.become {s : State} {gone : Int → Bool} {c : Cached} (h : Normal c.item.rs) :
    Sound (s.become gone c) :=
  ⟨h, fun _ => become_may.2 (.inr rfl)⟩

theorem Sound.of_eq {s} (h : Sound s) (hrs : t.cached.item.rs = s.cached.item.rs)
    (hdata : t.cached.data = s.cached.data) (hmay : t.may = s.may) : Sound t :=
  ⟨hrs ▸ h.normal, fun x => by rw [hmay, hdata]; exact h.now x⟩

theorem Sound.flushRename {s} (h : Sound s) (i : ℕ) (f : Flight) (ok : Bool) :
    Sound (s.flushRename i f ok) := by
  unfold State.flushRename
  split
  · exact h.of_eq rfl rfl rfl
  split
  · exact h.of_eq rfl rfl rfl
  · exact h.of_eq rfl rfl rfl

theorem next_sound {s e} (h : Sound s) (hn : next s e = some t) : Sound t := by
  cases e with
  | fill fault p off =>
    cases hn
    exact .become (writeNoOverwrite_moves fault p off h.normal).normal
  | mirror fault p off =>
    cases hn
    exact .become (mirrorWrite_moves fault p off h.normal).normal
  | truncate fails n =>
    cases hn
    exact .become (truncate_moves fails n h.normal).normal
  | punch align fault =>
    cases hn
    exact .become (punchItem_moves align fault h.normal).normal
  | touch now head =>
    cases hn
    exact h.of_eq rfl rfl rfl
  | close =>
    cases hn
    exact h.of_eq rfl rfl rfl
  | flushSnapshot i =>
    simp only [next, State.flushSnapshot] at hn
    split at hn
    · cases hn
      split
      · exact h.of_eq rfl rfl rfl
      · exact h
    · cases hn
  | flushSync i ok =>
    simp only [next, State.flushSync] at hn
    split at hn
    · split at hn
      · cases hn
        split
        · exact ⟨h.normal, fun x => beq_self_eq_true _⟩
        · exact h.of_eq rfl rfl rfl
      · cases hn
    · cases hn
  | flushWrite i w =>
    simp only [next] at hn
    split at hn
    · split at hn
      · cases hn
        cases w with
        | ok => exact h.of_eq rfl rfl rfl
        | unopened => exact h.of_eq rfl rfl rfl
        | torn => exact h.of_eq rfl rfl rfl
      · cases hn
    · cases hn
  | flushRename i ok =>
    simp only [next] at hn
    split at hn
    · split at hn
      · cases hn
        exact h.flushRename i _ ok
      · cases hn
    · cases hn

end Exposure

section Result

end Result

end CacheCrash
