import FacetFS.CacheRefinement

/-! # Readers, fills and hole punching at the same time

A read checks that its range is present, waits for a download if it is not, reads the data file
without a lock, and checks the range again. Between these steps the janitor may punch holes, and
fills may bring bytes back. The backend file does not change. -/
namespace CachePunch

open EventSystem CacheRanges CacheItem CacheRefinement

section System

/-- Where a read is. What was present at the time of the pread is kept as history. -/
inductive Phase where
  | check
  | download
  | pread
  | recheck (bytes : List UInt8) (seen : RangeSet)
  | touch

structure Reader where
  len : ℕ
  off : Int
  size : Int
  attempt : ℕ
  phase : Phase

def Reader.range (rd : Reader) : Rng := ⟨rd.off, min (rd.len : Int) (rd.size - rd.off)⟩

/-- What a read gave back: the bytes, and whether they end the file. -/
structure Answer where
  len : ℕ
  off : Int
  result : List UInt8 × Bool

structure State where
  file : File
  cached : Cached
  readers : ℕ → Option Reader
  answers : List Answer

def State.set (s : State) (i : ℕ) (rd : Option Reader) : State :=
  { s with readers := Function.update s.readers i rd }

inductive Event where
  | start (i len : ℕ) (off : Int)
  | check (i : ℕ)
  | downloaded (i : ℕ) (ok : Bool)
  | pread (i : ℕ) (fails : Bool)
  | recheck (i : ℕ)
  | touch (i : ℕ) (now : Int)
  | punch (fault : ℕ → Bool)
  | fill (r : Rng) (fault : ℕ → Option ℕ)

def readRetries : ℕ := 3

def startRead (s : State) (i len : ℕ) (off : Int) : State :=
  if off < 0 then s
  else if s.cached.item.size ≤ off then
    { s with answers := ⟨len, off, [], true⟩ :: s.answers }
  else s.set i (some ⟨len, off, s.cached.item.size, 0, .check⟩)

def checkRead (s : State) (i : ℕ) (rd : Reader) : State :=
  s.set i (some { rd with
    phase := if present s.cached.item.rs rd.range then .pread else .download })

def preadRead (s : State) (i : ℕ) (rd : Reader) : State :=
  s.set i (some { rd with
    phase := .recheck (bytesAt s.cached.data rd.off rd.range.size.toNat) s.cached.item.rs })

/-- The bytes are given back if the range is present, and read again if not. -/
def recheckRead (s : State) (i : ℕ) (rd : Reader) (bytes : List UInt8) : State :=
  if present s.cached.item.rs rd.range then
    { s.set i (some { rd with phase := .touch }) with
      answers := ⟨rd.len, rd.off, bytes, decide (rd.range.size < rd.len)⟩ :: s.answers }
  else if rd.attempt ≥ readRetries then s.set i none
  else s.set i (some { rd with attempt := rd.attempt + 1, phase := .check })

/-- The steps of reads, one punch and one fill. A read ends early when its download or its pread
fails. -/
def next (align : Int) (s : State) : Event → Option State
  | .start i len off => if (s.readers i).isNone then some (startRead s i len off) else none
  | .check i =>
    match s.readers i with
    | some rd => if rd.phase matches .check then some (checkRead s i rd) else none
    | none => none
  | .downloaded i ok =>
    match s.readers i with
    | some rd =>
      if rd.phase matches .download then
        some (s.set i (if ok then some { rd with phase := .pread } else none))
      else none
    | none => none
  | .pread i fails =>
    match s.readers i with
    | some rd =>
      if rd.phase matches .pread then some (if fails then s.set i none else preadRead s i rd)
      else none
    | none => none
  | .recheck i =>
    match s.readers i with
    | some rd =>
      match rd.phase with
      | .recheck bytes _ => some (recheckRead s i rd bytes)
      | _ => none
    | none => none
  | .touch i now =>
    match s.readers i with
    | some rd =>
      if rd.phase matches .touch then
        some { s.set i none with cached := CacheItem.touch now rd.range.stop s.cached }
      else none
    | none => none
  | .punch fault => some { s with cached := punchItem align fault s.cached }
  | .fill r fault =>
    some { s with cached := writeNoOverwrite fault (s.file.fetch r) r.pos s.cached }

def start (c : Cached) (f : File) : State := ⟨f, c, fun _ => none, []⟩

end System

section Steps

variable {align : Int} {s s' : State}

/-- A read knows the size of the file, and the bytes it has are right where they were present. -/
structure Sound (f : File) (rd : Reader) : Prop where
  size : rd.size = f.size
  below : rd.off < f.size
  length : ∀ bytes seen, rd.phase = .recheck bytes seen → bytes.length = rd.range.size.toNat
  bytes : ∀ bytes seen, rd.phase = .recheck bytes seen → ∀ x, rd.range.Has x → Has seen x →
    bytes.getD (x - rd.off).toNat 0 = f.data x

structure Invariant (s : State) : Prop where
  agrees : Agrees s.cached s.file
  readers : ∀ i rd, s.readers i = some rd → Sound s.file rd

variable {rd : Reader}

theorem Sound.move {f} (h : Sound f rd) (attempt : ℕ) {phase}
    (hp : ∀ bytes seen, phase ≠ .recheck bytes seen) :
    Sound f { rd with attempt := attempt, phase := phase } :=
  ⟨h.size, h.below, fun bytes seen he => absurd he (hp bytes seen),
    fun bytes seen he => absurd he (hp bytes seen)⟩

theorem Sound.pread {f c} (h : Sound f rd) (ha : Agrees c f) :
    Sound f { rd with phase := .recheck (bytesAt c.data rd.off rd.range.size.toNat) c.item.rs } := by
  refine ⟨h.size, h.below, fun bytes seen he => ?_, fun bytes seen he x hx hs => ?_⟩
  · cases he
    exact length_bytesAt _ _ _
  · cases he
    rw [getD_bytesAt, ha.bytes x hs]
    simp only [span, Rng.Has, Rng.stop, length_bytesAt, Reader.range] at hx ⊢
    omega

theorem Invariant.set (h : Invariant s) (i : ℕ) {rd}
    (hr : ∀ r, rd = some r → Sound s.file r) : Invariant (s.set i rd) := by
  refine ⟨h.agrees, fun j r hj => ?_⟩
  by_cases hji : j = i
  · subst hji
    simp only [State.set, Function.update_self] at hj
    exact hr r hj
  · simp only [State.set, Function.update_of_ne hji] at hj
    exact h.readers j r hj

theorem Invariant.cached (h : Invariant s) {c} (hc : Agrees c s.file) :
    Invariant { s with cached := c } :=
  ⟨hc, h.readers⟩

theorem recheckRead_invariant (h : Invariant s) {i} (hr : Sound s.file rd)
    (bytes : List UInt8) : Invariant (recheckRead s i rd bytes) := by
  unfold recheckRead
  split
  · have hset : Invariant (s.set i (some { rd with phase := .touch })) :=
      h.set i fun r he => (Option.some.inj he) ▸ hr.move rd.attempt nofun
    exact ⟨hset.agrees, hset.readers⟩
  split
  · exact h.set i nofun
  · exact h.set i fun r he => (Option.some.inj he) ▸ hr.move (rd.attempt + 1) nofun

theorem next_invariant {e} (h : Invariant s) (hn : next align s e = some s') : Invariant s' := by
  cases e with
  | start i len off =>
    simp only [next] at hn
    split at hn
    · cases hn
      unfold startRead
      split
      · exact h
      split
      · exact ⟨h.agrees, h.readers⟩
      rename_i hlt
      refine h.set i fun r he => ?_
      cases he
      rw [h.agrees.size] at hlt ⊢
      exact ⟨rfl, not_le.1 hlt, nofun, nofun⟩
    · cases hn
  | check i =>
    simp only [next] at hn
    split at hn
    · rename_i rd hrd
      split at hn
      · cases hn
        refine h.set i fun r he => ?_
        cases he
        refine (h.readers i rd hrd).move rd.attempt fun bytes seen => ?_
        split <;> nofun
      · cases hn
    · cases hn
  | downloaded i ok =>
    simp only [next] at hn
    split at hn
    · rename_i rd hrd
      split at hn
      · cases hn
        refine h.set i fun r he => ?_
        cases ok with
        | false => cases he
        | true =>
          cases he
          exact (h.readers i rd hrd).move rd.attempt nofun
      · cases hn
    · cases hn
  | pread i fails =>
    simp only [next] at hn
    split at hn
    · rename_i rd hrd
      split at hn
      · cases hn
        cases fails with
        | true => exact h.set i nofun
        | false =>
          refine h.set i fun r he => ?_
          cases he
          exact (h.readers i rd hrd).pread h.agrees
      · cases hn
    · cases hn
  | recheck i =>
    simp only [next] at hn
    split at hn
    · rename_i rd hrd
      split at hn
      · cases hn
        exact recheckRead_invariant h (h.readers i rd hrd) _
      · cases hn
    · cases hn
  | touch i now =>
    simp only [next] at hn
    split at hn
    · split at hn
      · cases hn
        have hset : Invariant (s.set i none) := h.set i nofun
        exact ⟨h.agrees.of_eq rfl rfl rfl, hset.readers⟩
      · cases hn
    · cases hn
  | punch fault =>
    cases hn
    exact h.cached (h.agrees.punch align fault)
  | fill r fault =>
    cases hn
    exact h.cached (h.agrees.fill r fault)

end Steps

end CachePunch
