import FacetFS.CacheItem
import FacetFS.EventSystem

/-! # The progress of a downloader

A downloader fetches the missing bytes of an item up to its target, chunk by chunk, and publishes
every slice as it arrives. Between any two of its sections the item may be truncated, written or
punched, the target may move and the downloader may be stopped. The backend answers each read with
any number of bytes and any error. -/
namespace CacheDownloader

open CacheRanges CacheItem EventSystem

def maxSkipBytes : Int := 2 ^ 20
def copyBufSize : Int := 2 ^ 20
def probeChunk : Int := 2 ^ 20
def chunkGrowthCap : Int := 16
def breakerErrors : ℕ := 10

inductive Err where
  | eof
  | other
  deriving DecidableEq

structure Downloader where
  probe : Bool
  offset : Int
  target : Int
  stopped : Bool
  chunk : Int
  skipped : Int
  session : Bool

/-- Where the goroutine of the downloader is, with the variables it holds there. -/
inductive Phase where
  | head
  | looking (off target : Int)
  | parked
  | fetching (m : Rng) (total : Int)
  | backingOff
  | exited
  deriving DecidableEq

/-- The item, the downloader and the error count of its group. Beside the program stands what is
recorded about it: the offset at which the iteration began, and whether the loop of the
downloader went back at this offset without waiting, or the loop of a fetch without a byte. -/
structure World where
  cached : Cached
  dl : Downloader
  phase : Phase
  errCount : ℕ
  began : Int
  spun : Bool

section Source

variable (chunkSize : Int)

def Downloader.setOffset (dl : Downloader) (off : Int) : Downloader :=
  if off > dl.offset then { dl with offset := off } else dl

def Downloader.baseChunk (dl : Downloader) : Int := if dl.probe then probeChunk else chunkSize

/-- The value of a product as an `int64`. -/
def wrap (x : Int) : Int := Int.bmod x (2 ^ 64)

def Downloader.grow (dl : Downloader) : Downloader :=
  if dl.probe then dl
  else { dl with chunk := min (wrap (dl.chunk * 2)) (wrap (chunkSize * chunkGrowthCap)) }

def World.exit (w : World) : World :=
  { w with phase := .exited, dl := { w.dl with stopped := true, session := false } }

def World.loopBack (w : World) : World :=
  { w with phase := .head, spun := w.spun || decide (w.dl.offset ≤ w.began) }

def World.iterate (w : World) (closed : Bool) : World :=
  let w := { w with began := w.dl.offset }
  if closed || w.dl.stopped then w.exit
  else if w.dl.offset ≥ w.dl.target then { w with phase := .parked }
  else { w with phase := .looking w.dl.offset w.dl.target }

def World.look (w : World) (off target : Int) (waiters : Bool) : World :=
  let missing := findMissing w.cached.item.rs ⟨off, target - off⟩
  if missing.size = 0 then World.loopBack { w with dl := w.dl.setOffset target }
  else
    let gap := missing.pos - off
    let w := if gap > 0 then { w with dl := { w.dl with skipped := w.dl.skipped + gap } } else w
    if gap > 0 ∧ w.dl.skipped > maxSkipBytes ∧ waiters = false then w.exit
    else { w with phase := .fetching ⟨missing.pos, min missing.size w.dl.chunk⟩ 0 }

/-- What the loop does with the bytes and the error of a fetch. -/
def World.finish (w : World) (m : Rng) (total : Int) (failed : Bool) : World :=
  let w :=
    if total > 0 then
      { w with dl := (w.dl.setOffset (m.pos + total)).grow chunkSize, errCount := 0 }
    else w
  if failed then
    let w := { w with
      dl := { w.dl with session := false, chunk := w.dl.baseChunk chunkSize }
      errCount := w.errCount + 1 }
    if w.errCount ≥ breakerErrors then World.exit { w with errCount := 0 }
    else { w with phase := .backingOff }
  else w.loopBack

/-- The error of publishing a slice: the item is gone, or a write to its file failed. -/
def publishFails (fault : ℕ → Option ℕ) (p : List UInt8) (off : Int) (c : Cached) : Bool :=
  let r := clip c.item p off
  !c.item.live ||
    (decide (r.size > 0) && !(fillMissing fault p off 0 (missingWithin c.item.rs r) c.data).1)

def skippedBytes (fault : ℕ → Option ℕ) (p : List UInt8) (off : Int) (c : Cached) : Int :=
  let r := clip c.item p off
  if r.size ≤ 0 then p.length
  else r.size - (size (writeNoOverwrite fault p off c).item.rs - size c.item.rs)

/-- One read of a fetch. A seek that fails is a read of no bytes with its error. -/
def World.read (w : World) (m : Rng) (total : Int) (p : List UInt8) (err : Option Err)
    (fault : ℕ → Option ℕ) : World :=
  let pos := m.pos + total
  if p ≠ [] ∧ publishFails fault p pos w.cached then
    World.finish chunkSize { w with cached := writeNoOverwrite fault p pos w.cached } m total true
  else
    let w :=
      if p ≠ [] then
        { w with
          cached := writeNoOverwrite fault p pos w.cached
          dl := { w.dl with skipped := w.dl.skipped + skippedBytes fault p pos w.cached } }
      else w
    match err with
    | some .eof => w.finish chunkSize m (total + p.length) false
    | some .other => w.finish chunkSize m (total + p.length) true
    | none =>
      { w with phase := .fetching m (total + p.length), spun := w.spun || decide (p = []) }

/-- What happens to the item, what other goroutines do to the downloader and its group, and the
sections of the downloader itself. -/
inductive Event where
  | truncate (fails : Bool) (n : Int)
  | mirrorWrite (fault : Option ℕ) (p : List UInt8) (off : Int)
  | fill (fault : ℕ → Option ℕ) (p : List UInt8) (off : Int)
  | punch (align : Int) (fault : ℕ → Bool)
  | extend (target : Int)
  | stop
  | errors (n : ℕ)
  | iterate (closed : Bool)
  | look (waiters : Bool)
  | openSession (ok : Bool)
  | read (p : List UInt8) (err : Option Err) (fault : ℕ → Option ℕ)
  | full
  | wake (go : Bool)

def next (w : World) : Event → Option World
  | .truncate fails n => some { w with cached := truncate fails n w.cached }
  | .mirrorWrite fault p off => some { w with cached := mirrorWrite fault p off w.cached }
  | .fill fault p off => some { w with cached := writeNoOverwrite fault p off w.cached }
  | .punch align fault => some { w with cached := punchItem align fault w.cached }
  | .extend target => some { w with dl := { w.dl with target := max w.dl.target target } }
  | .stop => some { w with dl := { w.dl with stopped := true } }
  | .errors n => some { w with errCount := n }
  | .iterate closed =>
    match w.phase with
    | .head => some (w.iterate closed)
    | _ => none
  | .look waiters =>
    match w.phase with
    | .looking off target => some (w.look off target waiters)
    | _ => none
  | .openSession ok =>
    match w.phase with
    | .fetching m total =>
      if w.dl.session then none
      else if ok then some { w with dl := { w.dl with session := true } }
      else some (w.finish chunkSize m total true)
    | _ => none
  | .read p err fault =>
    match w.phase with
    | .fetching m total =>
      if w.dl.session ∧ total < m.size ∧ p.length ≤ min copyBufSize (m.size - total) then
        some (w.read chunkSize m total p err fault)
      else none
    | _ => none
  | .full =>
    match w.phase with
    | .fetching m total =>
      if w.dl.session ∧ m.size ≤ total then some (w.finish chunkSize m total false) else none
    | _ => none
  | .wake go =>
    match w.phase with
    | .parked | .backingOff => if go then some { w with phase := .head } else some w.exit
    | _ => none

def start (c : Cached) (probe : Bool) (pos target : Int) (errCount : ℕ) : World where
  cached := c
  dl := ⟨probe, pos, target, false, if probe then probeChunk else chunkSize, 0, false⟩
  phase := .head
  errCount := errCount
  began := pos
  spun := false

end Source

section Progress

variable {chunkSize : Int} {w w' : World} {e : Event}

/-- The backend yields a byte or an error in every read, and the first read of a fetch does not
end it as the end of the file; a fetch asks for at least one byte. -/
def Feeds (w : World) : Event → Prop
  | .read p err _ => p = [] → err ≠ none ∧ ∀ m, w.phase = .fetching m 0 → err ≠ some .eof
  | .full => ∀ m, w.phase ≠ .fetching m 0
  | _ => True

/-- While an iteration looks and fetches, the offset is the one at which it began. -/
def Invariant (w : World) : Prop :=
  match w.phase with
  | .looking off target => off < target ∧ w.dl.offset = off ∧ w.began = off
  | .fetching m total => w.dl.offset = w.began ∧ w.began ≤ m.pos ∧ 0 ≤ total
  | _ => True

theorem le_findMissing (s : RangeSet) (r : Rng) : r.pos ≤ (findMissing s r).pos := by
  unfold findMissing
  split
  · exact le_refl _
  split
  · exact le_refl _
  rename_i e hs
  unfold search at hs
  have hlt := List.find?_some hs
  have hlt : r.pos < e.stop := of_decide_eq_true hlt
  split
  · split
    · simp only [Rng.stop]
      omega
    · simp only
      omega
  · exact le_refl _

@[simp]
theorem grow_offset (dl : Downloader) : (dl.grow chunkSize).offset = dl.offset := by
  unfold Downloader.grow
  split <;> rfl

theorem setOffset_offset (dl : Downloader) {off} (h : dl.offset < off) :
    (dl.setOffset off).offset = off := by
  rw [Downloader.setOffset, if_pos h]

theorem loopBack_spun (hs : w.spun = false) : w.loopBack.spun = false ↔ w.began < w.dl.offset := by
  simp only [World.loopBack, hs, Bool.false_or, decide_eq_false_iff_not, Int.not_le]

theorem finish_invariant (m : Rng) (total : Int) (failed : Bool) :
    Invariant (w.finish chunkSize m total failed) := by
  unfold World.finish
  simp only
  generalize (if total > 0 then _ else w : World) = v
  cases failed with
  | true =>
    simp only [if_true]
    split <;> trivial
  | false => trivial

theorem finish_spun (m : Rng) {total} (failed : Bool) (hs : w.spun = false)
    (hoff : w.dl.offset = w.began) (hm : w.began ≤ m.pos) (ht : 0 ≤ total) :
    (w.finish chunkSize m total failed).spun = false ↔ failed = true ∨ total ≠ 0 := by
  unfold World.finish
  cases failed with
  | true =>
    simp only [if_true, true_or, iff_true]
    generalize hv : (if total > 0 then _ else w : World) = v
    have hvs : v.spun = false := by
      rw [← hv]
      split <;> exact hs
    split <;> exact hvs
  | false =>
    simp only [Bool.false_eq_true, if_false, false_or]
    split
    · have hset := setOffset_offset w.dl (by omega : w.dl.offset < m.pos + total)
      rw [loopBack_spun (by exact hs)]
      simp only [grow_offset, hset]
      omega
    · rw [loopBack_spun hs]
      omega

theorem look_spec {off target} (waiters : Bool) (hlt : off < target)
    (hoff : w.dl.offset = off) (hbegan : w.began = off) :
    Invariant (w.look off target waiters) ∧
      (w.spun = false → (w.look off target waiters).spun = false) := by
  have hle := le_findMissing w.cached.item.rs ⟨off, target - off⟩
  have hsame : w.dl.offset = w.began := hoff.trans hbegan.symm
  unfold World.look
  simp only
  split
  · refine ⟨trivial, fun hs => ?_⟩
    rw [loopBack_spun (by exact hs)]
    simp only [setOffset_offset w.dl (hoff ▸ hlt), hbegan]
    exact hlt
  rw [← hbegan] at hle ⊢
  split
  · split
    · exact ⟨trivial, id⟩
    · exact ⟨⟨hsame, hle, le_refl _⟩, id⟩
  split
  · exact ⟨trivial, id⟩
  · exact ⟨⟨hsame, hle, le_refl _⟩, id⟩

theorem read_spec (chunkSize : Int) {m total} (p : List UInt8) (err : Option Err)
    (fault : ℕ → Option ℕ) (hoff : w.dl.offset = w.began) (hm : w.began ≤ m.pos) (ht : 0 ≤ total) :
    Invariant (w.read chunkSize m total p err fault) ∧
      (w.spun = false → ((w.read chunkSize m total p err fault).spun = false ↔
        (p = [] → err ≠ none ∧ (total = 0 → err ≠ some .eof)))) := by
  have hlen : 0 ≤ total + p.length := by omega
  have hnil : total + p.length ≠ 0 ↔ (p = [] → total ≠ 0) := by
    rw [← List.length_eq_zero_iff]
    omega
  unfold World.read
  simp only
  split
  · rename_i hp
    refine ⟨finish_invariant m total true, fun hs => ?_⟩
    refine iff_of_true ?_ fun h => absurd h hp.1
    rw [finish_spun m true (by exact hs) (by exact hoff) (by exact hm) ht]
    exact .inl rfl
  generalize hv : (if p ≠ [] then _ else w : World) = v
  have hkeep : v.spun = w.spun ∧ v.dl.offset = v.began ∧ v.began = w.began := by
    rw [← hv]
    split
    · exact ⟨rfl, hoff, rfl⟩
    · exact ⟨rfl, hoff, rfl⟩
  obtain ⟨hspun, hvoff, hvb⟩ := hkeep
  rw [← hvb] at hm
  rw [← hspun]
  cases err with
  | none =>
    refine ⟨⟨hvoff, hm, hlen⟩, fun hs => ?_⟩
    simp only [hs, Bool.false_or, decide_eq_false_iff_not, ne_eq, not_true_eq_false, false_and,
      imp_false]
  | some err =>
    cases err with
    | eof =>
      refine ⟨finish_invariant m _ false, fun hs => ?_⟩
      refine (finish_spun m false hs hvoff hm hlen).trans ?_
      simp [hnil]
    | other =>
      refine ⟨finish_invariant m _ true, fun hs => ?_⟩
      refine (finish_spun m true hs hvoff hm hlen).trans ?_
      simp

theorem iterate_spec (closed : Bool) :
    Invariant (w.iterate closed) ∧ (w.iterate closed).spun = w.spun := by
  unfold World.iterate
  simp only
  split
  · exact ⟨trivial, rfl⟩
  split
  · exact ⟨trivial, rfl⟩
  · rename_i hlt
    exact ⟨⟨Int.not_le.1 hlt, rfl, rfl⟩, rfl⟩

theorem next_spec (h : Invariant w) (hn : next chunkSize w e = some w') :
    Invariant w' ∧ (w.spun = false → (w'.spun = false ↔ Feeds w e)) := by
  cases e with
  | truncate | mirrorWrite | fill | punch | extend | stop | errors =>
    cases hn
    exact ⟨h, fun hs => iff_of_true hs trivial⟩
  | iterate closed =>
    simp only [next] at hn
    split at hn
    · cases hn
      obtain ⟨hinv, hspun⟩ := iterate_spec (w := w) closed
      exact ⟨hinv, fun hs => iff_of_true (hspun.trans hs) trivial⟩
    · cases hn
  | look waiters =>
    simp only [next] at hn
    split at hn
    · rename_i off target hphase
      cases hn
      rw [Invariant, hphase] at h
      obtain ⟨hinv, hspun⟩ := look_spec waiters h.1 h.2.1 h.2.2
      exact ⟨hinv, fun hs => iff_of_true (hspun hs) trivial⟩
    · cases hn
  | openSession ok =>
    simp only [next] at hn
    split at hn
    · rename_i m total hphase
      have hf := h
      rw [Invariant, hphase] at hf
      split at hn
      · cases hn
      split at hn
      · cases hn
        exact ⟨h, fun hs => iff_of_true hs trivial⟩
      cases hn
      refine ⟨finish_invariant m total true, fun hs => ?_⟩
      exact iff_of_true ((finish_spun m true hs hf.1 hf.2.1 hf.2.2).2 (.inl rfl)) trivial
    · cases hn
  | read p err fault =>
    simp only [next] at hn
    split at hn
    · rename_i m total hphase
      rw [Invariant, hphase] at h
      split at hn
      · cases hn
        obtain ⟨hinv, hspun⟩ := read_spec chunkSize p err fault h.1 h.2.1 h.2.2
        refine ⟨hinv, fun hs => (hspun hs).trans ?_⟩
        simp only [Feeds, hphase, Phase.fetching.injEq, and_imp, forall_eq']
      · cases hn
    · cases hn
  | full =>
    simp only [next] at hn
    split at hn
    · rename_i m total hphase
      rw [Invariant, hphase] at h
      split at hn
      · cases hn
        refine ⟨finish_invariant m total false, fun hs => ?_⟩
        refine (finish_spun m false hs h.1 h.2.1 h.2.2).trans ?_
        simp [Feeds, hphase]
      · cases hn
    · cases hn
  | wake go =>
    simp only [next] at hn
    split at hn
    · split at hn <;> cases hn <;> exact ⟨trivial, fun hs => iff_of_true hs trivial⟩
    · split at hn <;> cases hn <;> exact ⟨trivial, fun hs => iff_of_true hs trivial⟩
    · cases hn

/-- In the runs whose reads feed it, a downloader never goes back at the same offset without
waiting; a step that does not feed it makes it do so. -/
theorem downloader_progresses_iff (chunkSize : Int) (c : Cached) (probe : Bool) (pos target : Int)
    (errCount : ℕ) (es : List Event) (w : World) :
    (Meets (next chunkSize) Feeds (start chunkSize c probe pos target errCount) es →
      run (next chunkSize) (start chunkSize c probe pos target errCount) es = some w →
      w.spun = false) ∧
      ∀ e w', run (next chunkSize) (start chunkSize c probe pos target errCount) es = some w →
        w.spun = false → next chunkSize w e = some w' → (w'.spun = false ↔ Feeds w e) := by
  have hkept := kept_iff (next chunkSize) (I := Invariant) (P := fun w => w.spun = false)
    (s := start chunkSize c probe pos target errCount)
    (fun v e v' hv hn => next_spec hv hn) trivial rfl
  exact ⟨hkept.1 es w, hkept.2 es w⟩

end Progress

/-- A file of 100 bytes, nothing of it in the cache. -/
def cold : Cached where
  item := loadedItem ⟨100, 0⟩ [] false 0
  data := fun _ => 0
  cachedBytes := 0

/-- The file was truncated to 50 bytes after the downloader took 100 as its target. The next
iteration reads the end of the file at 50 and comes back to the same offset at once. -/
theorem short_file_spins : (run (next (2 ^ 22)) (start (2 ^ 22) cold false 0 100 0)
      [.iterate false, .look true, .openSession true, .truncate false 50,
        .read (List.replicate 50 1) (some .eof) (fun _ => none), .iterate false, .look true,
        .read [] (some .eof) (fun _ => none)]).map
      (fun w => (w.phase, w.dl.offset, w.began, w.spun)) = some (.head, 50, 50, true) := by
  decide +kernel

end CacheDownloader
