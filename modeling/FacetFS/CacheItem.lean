import FacetFS.CacheRanges

/-! # A cached file

What the cache keeps of one backend file: the ranges it holds and the sparse data file with
their bytes. Disk operations may fail; a failed write may have stored a part of its bytes. -/
namespace CacheItem

open CacheRanges

/-- The bytes of a sparse file; what was never written reads as zero. -/
abbrev Content := Int → UInt8

def span (p : List UInt8) (off : Int) : Rng := ⟨off, p.length⟩

def store (c : Content) (p : List UInt8) (off : Int) : Content := fun x =>
  if (span p off).Has x then p.getD (x - off).toNat 0 else c x

def resize (c : Content) (size : Int) : Content := fun x => if x < size then c x else 0

def punchHole (c : Content) (r : Rng) : Content := fun x => if r.Has x then 0 else c x

/-- The size and the modification time of the backend file. -/
structure Fingerprint where
  size : Int
  mtime : Int
  deriving DecidableEq

structure Item where
  loaded : Bool
  doomed : Bool
  rs : RangeSet
  size : Int
  fpr : Fingerprint
  dirty : Bool
  needSync : Bool
  atime : Int
  readHead : Int

def Item.live (it : Item) : Bool := it.loaded && !it.doomed

/-- An item with its data file and the cache's count of the bytes it holds. -/
structure Cached where
  item : Item
  data : Content
  cachedBytes : Int

def tail (size : Int) : Rng := ⟨size, 2 ^ 62 - size⟩

section Operations

/-- The bytes of `p`, which starts at `off`, that belong to a part of its range. -/
def part (p : List UInt8) (off : Int) (m : Rng) : List UInt8 :=
  (p.drop (m.pos - off).toNat).take m.size.toNat

/-- The missing parts are written one by one; the `i`-th write may fail after some bytes. -/
def fillMissing (fault : ℕ → Option ℕ) (p : List UInt8) (off : Int) :
    ℕ → List Rng → Content → Bool × Content
  | _, [], c => (true, c)
  | i, m :: ms, c =>
    match fault i with
    | some k => (false, store c ((part p off m).take k) m.pos)
    | none => fillMissing fault p off (i + 1) ms (store c (part p off m) m.pos)

/-- The part of a fetched range that lies below the size. -/
def clip (it : Item) (p : List UInt8) (off : Int) : Rng :=
  if (span p off).stop > it.size then ⟨off, it.size - off⟩ else span p off

def writeNoOverwrite (fault : ℕ → Option ℕ) (p : List UInt8) (off : Int) (c : Cached) : Cached :=
  let it := c.item
  let r := clip it p off
  if it.live = false ∨ r.size ≤ 0 then c
  else
    match fillMissing fault p off 0 (missingWithin it.rs r) c.data with
    | (false, data) => { c with data := data }
    | (true, data) =>
      let rs := insert it.rs r
      let written := size rs - size it.rs
      { item := { it with
          rs := rs
          dirty := it.dirty || decide (written > 0)
          needSync := it.needSync || decide (written > 0) }
        data := data
        cachedBytes := c.cachedBytes + written }

/-- Bytes the backend has acknowledged; on a failed write they become absent. -/
def mirrorWrite (fault : Option ℕ) (p : List UInt8) (off : Int) (c : Cached) : Cached :=
  let it := c.item
  if p = [] ∨ off < 0 ∨ it.live = false then c
  else
    match fault with
    | some k =>
      let rs := remove it.rs (span p off)
      { item := { it with rs := rs }
        data := store c.data (p.take k) off
        cachedBytes := c.cachedBytes + (size rs - size it.rs) }
    | none =>
      let rs := insert it.rs (span p off)
      { item := { it with
          size := max it.size (span p off).stop
          rs := rs
          dirty := true
          needSync := true }
        data := store c.data p off
        cachedBytes := c.cachedBytes + (size rs - size it.rs) }

def doom (c : Cached) : Cached :=
  if c.item.doomed then c
  else
    { c with
      item := { c.item with doomed := true }
      cachedBytes := if c.item.loaded then c.cachedBytes - size c.item.rs else c.cachedBytes }

def truncate (fails : Bool) (n : Int) (c : Cached) : Cached :=
  let it := c.item
  if n < 0 ∨ it.live = false then c
  else if fails then doom c
  else
    let cut := remove it.rs (tail n)
    let rs := if n > it.size then CacheRanges.insert cut ⟨it.size, n - it.size⟩ else cut
    { item := { it with rs := rs, size := n, dirty := true, needSync := true }
      data := resize c.data n
      cachedBytes := c.cachedBytes + (size rs - size it.rs) }

def punchBackWindow : Int := 256 * 2 ^ 20

def alignPunch (align : Int) (r : Rng) : Rng :=
  if align = 1 then r
  else
    let pos := (r.pos + align - 1) / align * align
    let stop := r.stop / align * align
    ⟨pos, stop - pos⟩

/-- The ranges far behind the read head, aligned inward. -/
def punchRanges (align : Int) (it : Item) : List Rng :=
  let cut := it.readHead - punchBackWindow
  if cut ≤ 0 then []
  else
    (it.rs.filterMap fun r =>
      if r.stop ≤ cut then some (alignPunch align r)
      else if r.pos < cut then some (alignPunch align ⟨r.pos, cut - r.pos⟩)
      else none).filter fun r => 0 < r.size

def punchEach (fault : ℕ → Bool) : ℕ → List Rng → Cached → Cached
  | _, [], c => c
  | i, r :: rest, c =>
    if fault i then c
    else
      punchEach fault (i + 1) rest
        { item := { c.item with rs := remove c.item.rs r, dirty := true }
          data := punchHole c.data r
          cachedBytes := c.cachedBytes - r.size }

def punchItem (align : Int) (fault : ℕ → Bool) (c : Cached) : Cached :=
  if c.item.live then punchEach fault 0 (punchRanges align c.item) c else c

def touch (now head : Int) (c : Cached) : Cached :=
  { c with item := { c.item with
      atime := now
      readHead := max c.item.readHead head
      dirty := true } }

/-- The ranges a metadata file gives an item of a size. -/
def loadRanges (ranges : List Rng) (n : Int) : RangeSet :=
  remove (ranges.foldl insert []) (tail n)

/-- The persisted state of an item. -/
structure Meta where
  size : Int
  atime : Int
  fingerprint : Fingerprint
  ranges : List Rng

def Item.snapshot (it : Item) : Meta where
  size := it.size
  atime := it.atime
  fingerprint := it.fpr
  ranges := it.rs

/-- Metadata with a range that makes no sense is not used. -/
def Meta.valid (m : Meta) : Bool := m.ranges.all fun r => 0 ≤ r.pos && 0 < r.size

def loadedItem (fpr : Fingerprint) (rs : RangeSet) (dirty : Bool) (atime : Int) : Item where
  loaded := true
  doomed := false
  rs := rs
  size := fpr.size
  fpr := fpr
  dirty := dirty
  needSync := false
  atime := atime
  readHead := 0

/-- The item that loading gives; ranges under another fingerprint are not kept. -/
def load (fpr : Fingerprint) (now : Int) : Option Meta → Item
  | none => loadedItem fpr [] true now
  | some m =>
    if m.fingerprint = fpr then
      loadedItem fpr (loadRanges m.ranges fpr.size) false (if m.atime > 0 then m.atime else now)
    else loadedItem fpr [] true now

end Operations

section Contents

theorem store_other {c p off x} (h : ¬ (span p off).Has x) : store c p off x = c x :=
  if_neg h

theorem store_span {c p off x} (h : (span p off).Has x) :
    store c p off x = p.getD (x - off).toNat 0 :=
  if_pos h

def Within (m : Rng) (p : List UInt8) (off : Int) : Prop := off ≤ m.pos ∧ m.stop ≤ off + p.length

theorem length_part {p off m} (h : Within m p off) : (part p off m).length = m.size.toNat := by
  obtain ⟨h₁, h₂⟩ := h
  simp only [part, Rng.stop, List.length_take, List.length_drop] at *
  omega

theorem span_part {p off m} (h : Within m p off) (x : Int) :
    (span (part p off m) m.pos).Has x ↔ m.Has x := by
  have hlen := length_part h
  simp only [span, Rng.Has, Rng.stop, hlen]
  omega

theorem getD_part {p off x m} (h : Within m p off) (hx : m.Has x) :
    (part p off m).getD (x - m.pos).toNat 0 = p.getD (x - off).toNat 0 := by
  obtain ⟨h₁, -⟩ := h
  obtain ⟨h₂, h₃⟩ := hx
  have hlt : (x - m.pos).toNat < m.size.toNat := by
    simp only [Rng.stop] at h₃
    omega
  have hidx : (m.pos - off).toNat + (x - m.pos).toNat = (x - off).toNat := by omega
  simp only [part, List.getD_eq_getElem?_getD, List.getElem?_take, hlt, if_true,
    List.getElem?_drop, hidx]

variable (fault : ℕ → Option ℕ) {p : List UInt8} {off : Int}

theorem span_take_part {m} (h : Within m p off) (k : ℕ) {x} (hx : ¬ m.Has x) :
    ¬ (span ((part p off m).take k) m.pos).Has x := by
  have hlen := length_part h
  simp only [span, Rng.Has, Rng.stop, List.length_take] at hx ⊢
  omega

theorem fillMissing_other (ms : List Rng) (hw : ∀ m ∈ ms, Within m p off) (i : ℕ) (c : Content)
    {x} (hx : ¬ Has ms x) : (fillMissing fault p off i ms c).2 x = c x := by
  induction ms generalizing i c with
  | nil => rfl
  | cons m ms ih =>
    rw [has_cons, not_or] at hx
    have hm := hw m List.mem_cons_self
    simp only [fillMissing]
    split
    · exact store_other (span_take_part hm _ hx.1)
    · rw [ih (fun b hb => hw b (List.mem_cons_of_mem _ hb)) _ _ hx.2]
      exact store_other (mt (span_part hm x).1 hx.1)

theorem fillMissing_ok (ms : List Rng) (hw : ∀ m ∈ ms, Within m p off) (i : ℕ) (c : Content)
    (hok : (fillMissing fault p off i ms c).1 = true) {x} (hx : Has ms x) :
    (fillMissing fault p off i ms c).2 x = p.getD (x - off).toNat 0 := by
  induction ms generalizing i c with
  | nil => exact absurd hx (has_nil x)
  | cons m ms ih =>
    have hm := hw m List.mem_cons_self
    have hws : ∀ b ∈ ms, Within b p off := fun b hb => hw b (List.mem_cons_of_mem _ hb)
    simp only [fillMissing] at hok ⊢
    split at hok
    · cases hok
    by_cases hms : Has ms x
    · exact ih hws _ _ hok hms
    have hmx : m.Has x := (has_cons.1 hx).resolve_right hms
    rw [fillMissing_other fault ms hws _ _ hms, store_span ((span_part hm x).2 hmx),
      getD_part hm hmx]

end Contents

section Specifications

variable {c : Cached} {p : List UInt8} {off : Int}

variable (ranges : List Rng) (n x : Int) (fault : ℕ → Option ℕ) (fpr : Fingerprint) (now : Int)

/-- What a fill does: present bytes stay as they are, new ones are the fetched bytes. -/
structure Filled (p : List UInt8) (off : Int) (c c' : Cached) : Prop where
  same : c'.item = { c.item with
    rs := c'.item.rs, dirty := c'.item.dirty, needSync := c'.item.needSync }
  normal : Normal c'.item.rs
  kept : ∀ x, Has c.item.rs x → Has c'.item.rs x ∧ c'.data x = c.data x
  new : ∀ x, Has c'.item.rs x → Has c.item.rs x ∨
    (span p off).Has x ∧ x < c.item.size ∧ c'.data x = p.getD (x - off).toNat 0
  outside : ∀ x, ¬ (span p off).Has x → c'.data x = c.data x
  sync : c'.item.needSync = true ∨
    c'.item.needSync = c.item.needSync ∧ ∀ x, Has c'.item.rs x → Has c.item.rs x

theorem Filled.refl (h : Normal c.item.rs) : Filled p off c c where
  same := rfl
  normal := h
  kept _ hx := ⟨hx, rfl⟩
  new _ hx := .inl hx
  outside _ _ := rfl
  sync := .inr ⟨rfl, fun _ hx => hx⟩

theorem clip_eq (it : Item) (p : List UInt8) (off : Int) :
    clip it p off = ⟨off, min p.length (it.size - off)⟩ := by
  unfold clip
  split
  · rename_i h
    simp only [span, Rng.stop, gt_iff_lt] at h
    rw [min_eq_right (by omega)]
  rename_i h
  simp only [span, Rng.stop, gt_iff_lt, not_lt] at h
  rw [min_eq_left (by omega), span]

theorem clip_has {x} (h : (clip c.item p off).Has x) : (span p off).Has x ∧ x < c.item.size := by
  rw [clip_eq] at h
  simp only [span, Rng.Has, Rng.stop] at *
  omega

theorem clip_within {m}
    (hm : (clip c.item p off).pos ≤ m.pos ∧ m.pos < m.stop ∧ m.stop ≤ (clip c.item p off).stop) :
    Within m p off := by
  rw [clip_eq] at hm
  simp only [Within, Rng.stop] at *
  omega

theorem writeNoOverwrite_spec (p : List UInt8) (off : Int)
    (h : Normal c.item.rs) : Filled p off c (writeNoOverwrite fault p off c) := by
  unfold writeNoOverwrite
  simp only
  split
  · exact .refl h
  rename_i hgo
  simp only [not_or, not_le] at hgo
  have hw : ∀ m ∈ missingWithin c.item.rs (clip c.item p off), Within m p off :=
    fun m hm => clip_within (missingWithin_bounds h hm)
  have hother : ∀ x, ¬ Has (missingWithin c.item.rs (clip c.item p off)) x →
      (fillMissing fault p off 0 (missingWithin c.item.rs (clip c.item p off)) c.data).2 x =
        c.data x := fun x hx => fillMissing_other fault _ hw 0 c.data hx
  have hok := fillMissing_ok fault _ hw 0 c.data
  simp only [has_missingWithin h] at hother hok
  split
  · rename_i data hf
    rw [hf] at hother
    refine ⟨rfl, h, fun x hx => ⟨hx, hother x fun hm => hm.2 hx⟩, fun x hx => .inl hx,
      fun x hx => hother x fun hm => hx (clip_has hm.1).1, .inr ⟨rfl, fun x hx => hx⟩⟩
  rename_i data hf
  rw [hf] at hother hok
  refine ⟨rfl, h.insert _, fun x hx => ⟨(has_insert h x).2 (.inl hx), hother x fun hm =>
    hm.2 hx⟩, fun x hx => ?_, fun x hx => hother x fun hm => hx (clip_has hm.1).1, ?_⟩
  · by_cases hold : Has c.item.rs x
    · exact .inl hold
    · have hclip := ((has_insert h x).1 hx).resolve_left hold
      exact .inr ⟨(clip_has hclip).1, (clip_has hclip).2, hok rfl ⟨hclip, hold⟩⟩
  by_cases hwr : size c.item.rs < size (CacheRanges.insert c.item.rs (clip c.item p off))
  · left
    simp [hwr]
  · right
    exact ⟨by simp [hwr], has_of_size_le h (h.insert _)
      (fun y hy => (has_insert h y).2 (.inl hy)) (not_lt.1 hwr)⟩

theorem writeNoOverwrite_beyond (p : List UInt8) (off : Int)
    (h : Normal c.item.rs) {x} (hx : c.item.size ≤ x) :
    (writeNoOverwrite fault p off c).data x = c.data x := by
  have hw : ∀ m ∈ missingWithin c.item.rs (clip c.item p off), Within m p off :=
    fun m hm => clip_within (missingWithin_bounds h hm)
  have hother : (fillMissing fault p off 0 (missingWithin c.item.rs (clip c.item p off)) c.data).2 x =
      c.data x := fillMissing_other fault _ hw 0 c.data fun hm =>
    absurd (clip_has ((has_missingWithin h _ _).1 hm).1).2 (not_lt.2 hx)
  unfold writeNoOverwrite
  simp only
  split
  · rfl
  split
  · rename_i hf
    rw [hf] at hother
    exact hother
  rename_i hf
  rw [hf] at hother
  exact hother

theorem fillMissing_faultless (p : List UInt8) (off : Int) (ms : List Rng) (i : ℕ) (d : Content) :
    (fillMissing (fun _ => none) p off i ms d).1 = true := by
  induction ms generalizing i d with
  | nil => rfl
  | cons m ms ih => exact ih (i + 1) _

theorem writeNoOverwrite_present (p : List UInt8) (off : Int) (h : Normal c.item.rs)
    (hl : c.item.live = true) {x} (hs : (span p off).Has x) (hx : x < c.item.size) :
    Has (writeNoOverwrite (fun _ => none) p off c).item.rs x := by
  have hclip : (clip c.item p off).Has x := by
    rw [clip_eq]
    simp only [span, Rng.Has, Rng.stop] at hs ⊢
    omega
  have hsize : ¬ (clip c.item p off).size ≤ 0 := by
    simp only [Rng.Has, Rng.stop] at hclip
    omega
  unfold writeNoOverwrite
  simp only
  rw [if_neg (by simp [hl, hsize])]
  split
  · rename_i hf
    have hok := fillMissing_faultless p off
      (missingWithin c.item.rs (clip c.item p off)) 0 c.data
    rw [hf] at hok
    cases hok
  · exact (has_insert h x).2 (.inr hclip)

/-- The ranges that are punched before the first failure. -/
def punched (fault : ℕ → Bool) : ℕ → List Rng → List Rng
  | _, [] => []
  | i, r :: rest => if fault i then [] else r :: punched fault (i + 1) rest

/-- What punching some ranges does: their bytes leave and read as zero. -/
structure Punched (rs : List Rng) (c c' : Cached) : Prop where
  same : c'.item = { c.item with rs := c'.item.rs, dirty := c'.item.dirty }
  normal : Normal c'.item.rs
  has : ∀ x, Has c'.item.rs x ↔ Has c.item.rs x ∧ ¬ Has rs x
  data : ∀ x, c'.data x = if Has rs x then 0 else c.data x

theorem Punched.refl (h : Normal c.item.rs) : Punched [] c c where
  same := rfl
  normal := h
  has x := by simp
  data x := by simp

theorem punchEach_spec (fault : ℕ → Bool) (rs : List Rng) (i : ℕ) {c}
    (h : Normal c.item.rs) : Punched (punched fault i rs) c (punchEach fault i rs c) := by
  induction rs generalizing i c with
  | nil => exact .refl h
  | cons r rs ih =>
    simp only [punchEach, punched]
    split
    · exact .refl h
    obtain ⟨hsame, hnormal, hhas, hdata⟩ := ih (i + 1) (c :=
      ⟨{ c.item with rs := remove c.item.rs r, dirty := true }, punchHole c.data r,
        c.cachedBytes - r.size⟩) (h.remove r)
    refine ⟨hsame, hnormal, fun x => ?_, fun x => ?_⟩
    · rw [hhas, has_remove h, has_cons]
      tauto
    rw [hdata]
    by_cases hrs : Has (punched fault (i + 1) rs) x
    · simp [hrs]
    by_cases hr : r.Has x
    · simp [hr, punchHole]
    · simp [hr, hrs, punchHole]

theorem punchItem_spec (align : Int) (fault : ℕ → Bool) (h : Normal c.item.rs)
    (hl : c.item.live = true) :
    Punched (punched fault 0 (punchRanges align c.item)) c (punchItem align fault c) := by
  rw [punchItem, if_pos hl]
  exact punchEach_spec fault _ 0 h

theorem has_tail : (tail n).Has x ↔ n ≤ x ∧ x < 2 ^ 62 := by
  simp only [tail, Rng.Has, Rng.stop]
  omega

/-- What a mirrored write does. -/
structure Mirrored (p : List UInt8) (off : Int) (c c' : Cached) : Prop where
  same : c'.item = { c.item with
    rs := c'.item.rs, size := max c.item.size (span p off).stop, dirty := true, needSync := true }
  normal : Normal c'.item.rs
  has : ∀ x, Has c'.item.rs x ↔ Has c.item.rs x ∨ (span p off).Has x
  data : c'.data = store c.data p off

theorem mirrorWrite_spec (h : Normal c.item.rs) (hp : p ≠ []) (hoff : 0 ≤ off)
    (hl : c.item.live = true) : Mirrored p off c (mirrorWrite none p off c) := by
  rw [mirrorWrite, if_neg (by simp [hp, hoff, hl])]
  exact ⟨rfl, h.insert _, fun x => has_insert h x, rfl⟩

/-- What a truncate does: a range by which the file grows is present. -/
structure Resized (n : Int) (c c' : Cached) : Prop where
  same : c'.item = { c.item with rs := c'.item.rs, size := n, dirty := true, needSync := true }
  normal : Normal c'.item.rs
  has : ∀ x, Has c'.item.rs x ↔
    Has c.item.rs x ∧ ¬ (tail n).Has x ∨ c.item.size ≤ x ∧ x < n
  data : c'.data = resize c.data n

theorem truncate_spec {n} (h : Normal c.item.rs) (hn : 0 ≤ n) (hl : c.item.live = true) :
    Resized n c (truncate false n c) := by
  rw [truncate, if_neg (by simp [hn, hl]), if_neg (by simp)]
  have hcut := h.remove (tail n)
  by_cases hgrow : n > c.item.size
  · simp only [hgrow, if_true]
    refine ⟨rfl, hcut.insert _, fun x => ?_, rfl⟩
    rw [has_insert hcut, has_remove h]
    simp only [Rng.Has, Rng.stop, add_sub_cancel]
  simp only [hgrow, if_false]
  refine ⟨rfl, hcut, fun x => ?_, rfl⟩
  rw [has_remove h, or_iff_left]
  omega

theorem loadRanges_normal (n : Int) : Normal (loadRanges ranges n) :=
  (normal_foldl_insert ranges ⟨by simp, by simp⟩).remove _

theorem has_loadRanges : Has (loadRanges ranges n) x ↔ Has ranges x ∧ ¬ (n ≤ x ∧ x < 2 ^ 62) := by
  have hnil : Normal [] := ⟨by simp, by simp⟩
  rw [loadRanges, has_remove (normal_foldl_insert ranges hnil), has_foldl_insert ranges hnil,
    has_tail]
  simp

theorem load_cases (m : Option Meta) :
    (∃ m₀, m = some m₀ ∧ m₀.fingerprint = fpr ∧ (load fpr now m).dirty = false ∧
      (load fpr now m).rs = loadRanges m₀.ranges fpr.size) ∨
    (∀ m₀, m = some m₀ → m₀.fingerprint ≠ fpr) ∧ (load fpr now m).dirty = true ∧
      (load fpr now m).rs = [] := by
  unfold load
  split
  · exact .inr ⟨by simp, rfl, rfl⟩
  rename_i m₀
  by_cases hf : m₀.fingerprint = fpr
  · rw [if_pos hf]
    exact .inl ⟨m₀, rfl, hf, rfl, rfl⟩
  · rw [if_neg hf]
    exact .inr ⟨by simpa using hf, rfl, rfl⟩

theorem load_same (m : Option Meta) :
    (load fpr now m).fpr = fpr ∧ (load fpr now m).size = fpr.size ∧
      (load fpr now m).live = true ∧ (load fpr now m).needSync = false := by
  unfold load
  split
  · exact ⟨rfl, rfl, rfl, rfl⟩
  split
  · exact ⟨rfl, rfl, rfl, rfl⟩
  · exact ⟨rfl, rfl, rfl, rfl⟩

theorem load_normal (m : Option Meta) : Normal (load fpr now m).rs := by
  rcases load_cases fpr now m with ⟨m₀, -, -, -, hrs⟩ | ⟨-, -, hrs⟩
  · exact hrs ▸ loadRanges_normal m₀.ranges fpr.size
  · exact hrs ▸ normal_nil

end Specifications

end CacheItem
