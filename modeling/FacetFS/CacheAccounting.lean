import FacetFS.KeyedTotal
import FacetFS.CacheWrapper

/-! # The accounting of the disk budget

The count of cached bytes moves by differences wherever an item changes, and bytes go over from an
item to the index of closed files and back. A process starts from the directory that earlier ones
have left. No count depends on the bytes of the data files: an item begins with an empty one. -/
namespace CacheAccounting

open EventSystem CacheRanges CacheItem KeyedTotal

section Data

/-- A cleaned path, without its leading slash. -/
abbrev Name := List String

def badPart (part : String) : Bool :=
  part == "" || part == "." || part == ".." || part.toList.contains (Char.ofNat 0x5c)

/-- The place of a name in the two trees of the cache; some names have none. -/
def cachePaths (p : Name) : Option Name := if p.isEmpty || p.any badPart then none else some p

/-- The metadata files under the cache directory, which the cache alone writes. -/
structure Directory where
  metadata : AList fun _ : Name => Meta
  cacheable : ∀ p ∈ metadata, cachePaths p ≠ none

def Directory.write (d : Directory) (p : Name) (m : Meta) : Directory :=
  if h : cachePaths p = none then d
  else
    { metadata := d.metadata.insert p m
      cacheable := by
        intro q hq
        rcases (AList.mem_insert _).1 hq with rfl | hq
        · exact h
        · exact d.cacheable q hq }

def Directory.remove (d : Directory) (p : Name) : Directory where
  metadata := d.metadata.erase p
  cacheable q hq := d.cacheable q (AList.mem_erase.1 hq).2

structure Slot where
  name : Name
  opens : ℕ
  item : Item
  data : Content

/-- What the index keeps of a closed file. -/
structure DEntry where
  atime : Int
  bytes : Int

structure State where
  registry : AList fun _ : Name => ℕ
  items : AList fun _ : ℕ => Slot
  nextItem : ℕ
  index : AList fun _ : Name => DEntry
  disk : Directory
  cachedBytes : Int

/-- Holes are punched on the first two systems only. -/
inductive Platform where
  | linux
  | darwin
  | other

def punchAlign : Platform → Int
  | .linux => 1
  | .darwin => 4096
  | .other => 1

def punchSupported : Platform → Bool
  | .other => false
  | _ => true

inductive Event where
  | startUp (lost : Name → Bool)
  | openItem (p : Name) (fpr : Fingerprint) (now : Int) (readable : Bool)
  | lookupItem (p : Name)
  | releaseItem (i : ℕ)
  | fill (i : ℕ) (fault : ℕ → Option ℕ) (bs : List UInt8) (off : ℕ)
  | mirrorWrite (i : ℕ) (fault : Option ℕ) (bs : List UInt8) (off : Int)
  | truncate (i : ℕ) (fails : Bool) (n : Int)
  | touch (i : ℕ) (now head : Int)
  | punch (i : ℕ) (fault : ℕ → Bool)
  | doom (i : ℕ)
  | flush (i : ℕ) (fails : Bool)
  | closeIdle (p : Name) (fails : Bool)
  | deleteEntry (p : Name)
  | invalidateTree (p : Name)

end Data

namespace State

variable (s : State)

section Items

def setSlot (i : ℕ) (sl : Slot) : State := { s with items := s.items.insert i sl }

/-- An operation on one item moves the count of the whole cache. -/
def operate (i : ℕ) (op : Cached → Cached) : State :=
  match s.items.lookup i with
  | some sl =>
    let c := op ⟨sl.item, sl.data, s.cachedBytes⟩
    { s with
      items := s.items.insert i { sl with item := c.item, data := c.data }
      cachedBytes := c.cachedBytes }
  | none => s

def forget (p : Name) : Int × State :=
  match s.index.lookup p with
  | some e => (e.bytes, { s with index := s.index.erase p })
  | none => (0, s)

def remember (p : Name) (atime bytes : Int) : State :=
  { s with index := s.index.insert p ⟨atime, bytes⟩ }

def flushMeta (i : ℕ) (fails : Bool) : State :=
  match s.items.lookup i with
  | some sl =>
    if sl.item.dirty && sl.item.live && !fails && (cachePaths sl.name).isSome then
      { s with disk := s.disk.write sl.name sl.item.snapshot }.setSlot i
        { sl with item := { sl.item with dirty := false, needSync := false } }
    else s
  | none => s

/-- The files of a healthy item stay, and the index takes its bytes over. -/
def shutdown (i : ℕ) (fails : Bool) : State :=
  let t := s.flushMeta i fails
  match t.items.lookup i with
  | some sl =>
    let u := if sl.item.live then t.remember sl.name sl.item.atime (size sl.item.rs) else t
    u.setSlot i { sl with item := { sl.item with loaded := false, doomed := true } }
  | none => t

def pin (i : ℕ) : State :=
  match s.items.lookup i with
  | some sl => s.setSlot i { sl with opens := sl.opens + 1 }
  | none => s

def releaseItem (i : ℕ) : State :=
  match s.items.lookup i with
  | some sl =>
    let t := s.setSlot i { sl with opens := sl.opens - 1 }
    if sl.opens - 1 = 0 ∧ sl.item.doomed = true then t.shutdown i false else t
  | none => s

/-- Loading gives nothing for an item that is doomed or whose name has no place. -/
def ensureLoaded (i : ℕ) (fpr : Fingerprint) (now : Int) (readable : Bool) : Option State :=
  match s.items.lookup i with
  | some sl =>
    if sl.item.doomed then none
    else if sl.item.loaded then some s
    else if cachePaths sl.name = none then none
    else
      let metadata :=
        if readable then (s.disk.metadata.lookup sl.name).filter Meta.valid else none
      let it := load fpr now metadata
      let (previously, t) := s.forget sl.name
      some { t with
        items := t.items.insert i { sl with item := it, data := resize sl.data fpr.size }
        disk := if metadata.isNone then t.disk.remove sl.name else t.disk
        cachedBytes := t.cachedBytes + (size it.rs - previously) }
  | none => none

def freshItem : Item where
  loaded := false
  doomed := false
  rs := []
  size := 0
  fpr := ⟨0, 0⟩
  dirty := false
  needSync := false
  atime := 0
  readHead := 0

def register (p : Name) : State :=
  { s with
    registry := s.registry.insert p s.nextItem
    items := s.items.insert s.nextItem ⟨p, 0, freshItem, fun _ => 0⟩
    nextItem := s.nextItem + 1 }

/-- The item of a name, which is made where there is none. -/
def itemAt (p : Name) : ℕ × State :=
  match s.registry.lookup p with
  | some i => (i, s)
  | none => (s.nextItem, s.register p)

def openItem (p : Name) (fpr : Fingerprint) (now : Int) (readable : Bool) : State :=
  let (i, t) := s.itemAt p
  let u := t.pin i
  match u.ensureLoaded i fpr now readable with
  | some v => v
  | none => u.releaseItem i

def isLive (i : ℕ) : Bool := (s.items.lookup i).any fun sl => sl.item.live

def lookupItem (p : Name) : State :=
  match s.registry.lookup p with
  | some i => if s.isLive i then s.pin i else (s.pin i).releaseItem i
  | none => s

end Items

section Reclaiming

def closeIdle (p : Name) (i : ℕ) (fails : Bool) : State :=
  { s with registry := s.registry.erase p }.shutdown i fails

def deleteEntry (p : Name) : State :=
  if p ∈ s.registry then s
  else
    match s.index.lookup p with
    | some e =>
      let t := { s with index := s.index.erase p }
      if cachePaths p = none then t
      else { t with disk := s.disk.remove p, cachedBytes := s.cachedBytes - e.bytes }
    | none => s

def opens (i : ℕ) : ℕ := ((s.items.lookup i).map Slot.opens).getD 0

def dropItem (p : Name) : State :=
  match s.registry.lookup p with
  | some i =>
    let t := { s with registry := s.registry.erase p }.operate i CacheItem.doom
    let u := if t.opens i = 0 then t.shutdown i false else t
    { u with disk := u.disk.remove p }
  | none => s

def dropEntry (p : Name) : State :=
  match s.index.lookup p with
  | some e =>
    { s with
      index := s.index.erase p
      disk := s.disk.remove p
      cachedBytes := s.cachedBytes - e.bytes }
  | none => s

/-- Every item and every entry at or under a name goes. -/
def invalidateTree (name : Name) : State :=
  let covers := CacheWrapper.State.covers name
  let t := s.registry.keys.foldl (fun t p => if covers p then t.dropItem p else t) s
  t.index.keys.foldl (fun t p => if covers p then t.dropEntry p else t) t

end Reclaiming

section Starting

def seed (lost : Name → Bool) (p : Name) (m : Meta) : Option DEntry :=
  if lost p || !m.valid then none else some ⟨m.atime, size m.ranges⟩

/-- A new process reads the metadata tree; a pair of files that is incomplete goes. -/
def startUp (lost : Name → Bool) : State :=
  let found := walk (seed lost) DEntry.bytes s.disk.metadata.entries (∅, 0)
  { registry := ∅
    items := ∅
    nextItem := 0
    index := found.1
    disk := s.disk.metadata.keys.foldl (fun d p => if p ∈ found.1 then d else d.remove p) s.disk
    cachedBytes := found.2 }

end Starting

end State

def start (d : Directory) : State := ⟨∅, ∅, 0, ∅, d, 0⟩

def next (pl : Platform) (s : State) : Event → Option State
  | .startUp lost => some (s.startUp lost)
  | .openItem p fpr now readable => some (s.openItem p fpr now readable)
  | .lookupItem p => some (s.lookupItem p)
  | .releaseItem i => if 0 < s.opens i then some (s.releaseItem i) else none
  | .fill i fault bs off => some (s.operate i (writeNoOverwrite fault bs off))
  | .mirrorWrite i fault bs off => some (s.operate i (mirrorWrite fault bs off))
  | .truncate i fails n => some (s.operate i (truncate fails n))
  | .touch i now head => some (s.operate i (touch now head))
  | .punch i fault =>
    if punchSupported pl then some (s.operate i (punchItem (punchAlign pl) fault)) else none
  | .doom i => some (s.operate i doom)
  | .flush i fails => some (s.flushMeta i fails)
  | .closeIdle p fails =>
    match s.registry.lookup p with
    | some i => if s.opens i = 0 then some (s.closeIdle p i fails) else none
    | none => none
  | .deleteEntry p => some (s.deleteEntry p)
  | .invalidateTree p => some (s.invalidateTree p)

def share (it : Item) : Int := if it.live then size it.rs else 0

theorem share_of_live {it} (h : it.live = true) : share it = size it.rs := if_pos h

theorem share_of_dead {it} (h : it.live = false) : share it = 0 :=
  if_neg (by rw [h]; exact Bool.false_ne_true)

/-- The count is what live items and the index hold together, and no name is in both. -/
structure Exact (s : State) : Prop where
  bytes : s.cachedBytes = total (fun sl => share sl.item) s.items + total DEntry.bytes s.index
  apart : ∀ i sl, s.items.lookup i = some sl → sl.item.live = true → sl.name ∉ s.index
  nonneg : 0 ≤ s.cachedBytes

section Operations

variable {c : Cached}

/-- An operation keeps ranges in normal form and moves the count with the bytes that count. -/
structure Accounts (c c' : Cached) : Prop where
  normal : Normal c'.item.rs
  live : c'.item.live = true → c.item.live = true
  bytes : c'.cachedBytes = c.cachedBytes + (share c'.item - share c.item)

theorem Accounts.refl (h : Normal c.item.rs) : Accounts c c :=
  ⟨h, id, by omega⟩

theorem Accounts.trans {c₁ c₂} (h : Accounts c c₁) (h' : Accounts c₁ c₂) : Accounts c c₂ := by
  refine ⟨h'.normal, fun hl => h.live (h'.live hl), ?_⟩
  rw [h'.bytes, h.bytes]
  omega

theorem Accounts.ranges {c'} (hl : c.item.live = true) (hl' : c'.item.live = true)
    (h : Normal c'.item.rs)
    (hb : c'.cachedBytes = c.cachedBytes + (size c'.item.rs - size c.item.rs)) : Accounts c c' := by
  refine ⟨h, fun _ => hl, ?_⟩
  rw [share_of_live hl, share_of_live hl']
  exact hb

theorem accounts_writeNoOverwrite (fault : ℕ → Option ℕ) (p : List UInt8) (off : Int)
    (h : Normal c.item.rs) : Accounts c (writeNoOverwrite fault p off c) := by
  have hnormal := (writeNoOverwrite_spec fault p off h).normal
  unfold writeNoOverwrite at hnormal ⊢
  simp only at hnormal ⊢
  split
  · exact .refl h
  rename_i hgo
  simp only [not_or, Bool.not_eq_false] at hgo
  rw [if_neg (by simpa using hgo)] at hnormal
  split
  · exact ⟨h, id, by simp only [sub_self, add_zero]⟩
  rename_i hf
  rw [hf] at hnormal
  exact .ranges hgo.1 hgo.1 hnormal rfl

theorem accounts_mirrorWrite (fault : Option ℕ) (p : List UInt8) (off : Int)
    (h : Normal c.item.rs) : Accounts c (mirrorWrite fault p off c) := by
  unfold mirrorWrite
  simp only
  split
  · exact .refl h
  rename_i hgo
  simp only [not_or, Bool.not_eq_false] at hgo
  cases fault with
  | some k => exact .ranges hgo.2.2 hgo.2.2 (h.remove _) rfl
  | none => exact .ranges hgo.2.2 hgo.2.2 (h.insert _) rfl

theorem accounts_doom (h : Normal c.item.rs) : Accounts c (doom c) := by
  unfold doom
  split
  · exact .refl h
  rename_i hd
  refine ⟨h, fun hl => ?_, ?_⟩
  · simp [Item.live] at hl
  · cases hl : c.item.loaded <;> simp [share, Item.live, hd, hl, sub_eq_add_neg]

theorem live_doom (c : Cached) : (doom c).item.live = false := by
  unfold doom
  split
  · rename_i hd
    rw [Item.live, hd, Bool.not_true, Bool.and_false]
  · simp only [Item.live, Bool.not_true, Bool.and_false]

theorem accounts_truncate (fails : Bool) (n : Int) (h : Normal c.item.rs) :
    Accounts c (truncate fails n c) := by
  unfold truncate
  simp only
  split
  · exact .refl h
  rename_i hgo
  simp only [not_or, Bool.not_eq_false] at hgo
  split
  · exact accounts_doom h
  refine .ranges hgo.2 hgo.2 ?_ rfl
  simp only
  split
  · exact (h.remove _).insert _
  · exact h.remove _

theorem accounts_touch (now head : Int) (h : Normal c.item.rs) : Accounts c (touch now head c) :=
  ⟨h, id, by simp [touch, share, Item.live]⟩

theorem alignPunch_within {align} (ha : 0 < align) (r : Rng) :
    r.pos ≤ (alignPunch align r).pos ∧ (alignPunch align r).stop ≤ r.stop := by
  unfold alignPunch
  split
  · exact ⟨le_rfl, le_rfl⟩
  have hpos := Int.mul_ediv_self_le (x := r.pos + align - 1) (ne_of_gt ha)
  have hup := Int.lt_mul_ediv_self_add (x := r.pos + align - 1) ha
  have hstop := Int.mul_ediv_self_le (x := r.stop) (ne_of_gt ha)
  simp only [Rng.stop, mul_comm align] at *
  constructor <;> omega

/-- The ranges to be punched lie in the ranges of the item, at most one in each. -/
theorem punchRanges_spec {align} (ha : 0 < align) {it} (h : Normal it.rs) :
    (∀ r ∈ punchRanges align it, 0 < r.size ∧ ∀ x, r.Has x → Has it.rs x) ∧
    (punchRanges align it).Pairwise fun a b => a.stop < b.pos := by
  have hwithin : ∀ e r, (if e.stop ≤ it.readHead - punchBackWindow then some (alignPunch align e)
      else if e.pos < it.readHead - punchBackWindow then
        some (alignPunch align ⟨e.pos, it.readHead - punchBackWindow - e.pos⟩)
      else none) = some r → e.pos ≤ r.pos ∧ r.stop ≤ e.stop := by
    intro e r hr
    split at hr
    · cases hr
      exact alignPunch_within ha e
    split at hr
    · cases hr
      have hal := alignPunch_within ha ⟨e.pos, it.readHead - punchBackWindow - e.pos⟩
      simp only [Rng.stop] at *
      omega
    · cases hr
  unfold punchRanges
  simp only
  split
  · exact ⟨fun r hr => (by cases hr), List.Pairwise.nil⟩
  constructor
  · intro r hr
    rw [List.mem_filter, List.mem_filterMap] at hr
    obtain ⟨⟨e, he, her⟩, hsize⟩ := hr
    refine ⟨by simpa using hsize, fun x hx => ⟨e, he, ?_⟩⟩
    have := hwithin e r her
    exact ⟨this.1.trans hx.1, hx.2.trans_le this.2⟩
  · refine (h.apart.filterMap _ ?_).filter _
    intro a b hab a' ha' b' hb'
    have h₁ := hwithin a a' ha'
    have h₂ := hwithin b b' hb'
    omega

theorem accounts_punchEach (fault : ℕ → Bool) (rs : List Rng) (i : ℕ) (h : Normal c.item.rs)
    (hl : c.item.live = true) (hin : ∀ r ∈ rs, 0 < r.size ∧ ∀ x, r.Has x → Has c.item.rs x)
    (hapart : rs.Pairwise fun a b => a.stop < b.pos) : Accounts c (punchEach fault i rs c) := by
  induction rs generalizing i c with
  | nil => exact .refl h
  | cons r rs ih =>
    obtain ⟨hlater, hapart⟩ := List.pairwise_cons.1 hapart
    simp only [punchEach]
    split
    · exact .refl h
    have hr := hin r List.mem_cons_self
    have hone : Accounts c ⟨{ c.item with rs := remove c.item.rs r, dirty := true },
        punchHole c.data r, c.cachedBytes - r.size⟩ := by
      refine .ranges hl hl (h.remove r) ?_
      simp only [size_remove_of_has h hr.1.le hr.2]
      omega
    refine hone.trans (ih (i + 1) (h.remove r) hl (fun b hb => ?_) hapart)
    have hbin := hin b (List.mem_cons_of_mem _ hb)
    refine ⟨hbin.1, fun x hx => (has_remove h r x).2 ⟨hbin.2 x hx, fun hrx => ?_⟩⟩
    have := hlater b hb
    have h₁ := hrx.2
    have h₂ := hx.1
    omega

theorem punchAlign_pos (pl : Platform) : 0 < punchAlign pl := by
  cases pl <;> decide

theorem accounts_punchItem (pl : Platform) (fault : ℕ → Bool) (h : Normal c.item.rs) :
    Accounts c (punchItem (punchAlign pl) fault c) := by
  unfold punchItem
  split
  · rename_i hl
    obtain ⟨hin, hapart⟩ := punchRanges_spec (punchAlign_pos pl) h
    exact accounts_punchEach fault _ 0 h hl hin hapart
  · exact .refl h

end Operations

section Invariants

variable {s : State} {i : ℕ} {sl : Slot} {p : Name}

/-- Where a live item of a name is. -/
structure Home (s : State) (i : ℕ) (p : Name) : Prop where
  apart : p ∉ s.index
  registered : s.registry.lookup p = some i
  placed : cachePaths p ≠ none

/-- A live item is the registered one of its name, and the index has names with a place only. -/
structure Invariant (s : State) : Prop where
  bytes : s.cachedBytes = total (fun sl => share sl.item) s.items + total DEntry.bytes s.index
  home : ∀ i sl, s.items.lookup i = some sl → sl.item.live = true → Home s i sl.name
  named : ∀ p i, s.registry.lookup p = some i → ∃ sl, s.items.lookup i = some sl ∧ sl.name = p
  fresh : ∀ i ∈ s.items, i < s.nextItem
  normal : ∀ i sl, s.items.lookup i = some sl → Normal sl.item.rs
  indexed : ∀ p e, s.index.lookup p = some e → cachePaths p ≠ none ∧ 0 ≤ e.bytes

theorem share_nonneg {it} (h : Normal it.rs) : 0 ≤ share it := by
  unfold share
  split
  · exact size_nonneg h
  · exact le_rfl

theorem Invariant.exact (h : Invariant s) : Exact s := by
  refine ⟨h.bytes, fun i sl hi hl => (h.home i sl hi hl).apart, ?_⟩
  have hitems : 0 ≤ total (fun sl : Slot => share sl.item) s.items :=
    total_nonneg fun i sl hi => share_nonneg (h.normal i sl hi)
  have hindex : 0 ≤ total DEntry.bytes s.index := total_nonneg fun p e hp => (h.indexed p e hp).2
  have := h.bytes
  omega

theorem start_invariant (d : Directory) : Invariant (start d) where
  bytes := rfl
  home i _ hi := absurd hi lookup_empty_ne_some
  named p _ hp := absurd hp lookup_empty_ne_some
  fresh i hi := absurd hi (AList.notMem_empty i)
  normal i _ hi := absurd hi lookup_empty_ne_some
  indexed p _ he := absurd he lookup_empty_ne_some

theorem Invariant.setDisk (h : Invariant s) (d : Directory) : Invariant { s with disk := d } where
  bytes := h.bytes
  home i sl hi hl :=
    have hh := h.home i sl hi hl
    ⟨hh.apart, hh.registered, hh.placed⟩
  named := h.named
  fresh := h.fresh
  normal := h.normal
  indexed := h.indexed

theorem lookup_insert_cases {m : AList fun _ : ℕ => Slot} {j : ℕ} {sl' x : Slot}
    (h : (m.insert i sl').lookup j = some x) : j = i ∧ x = sl' ∨ j ≠ i ∧ m.lookup j = some x := by
  by_cases hj : j = i
  · subst hj
    rw [AList.lookup_insert] at h
    exact .inl ⟨rfl, (Option.some.inj h).symm⟩
  · rw [AList.lookup_insert_ne hj] at h
    exact .inr ⟨hj, h⟩

theorem Invariant.named_insert (h : Invariant s) (hi : s.items.lookup i = some sl) {sl'}
    (hname : sl'.name = sl.name) {q j} (hq : s.registry.lookup q = some j) :
    ∃ x, (s.items.insert i sl').lookup j = some x ∧ x.name = q := by
  obtain ⟨x, hx, hxq⟩ := h.named q j hq
  by_cases hj : j = i
  · subst hj
    rw [hi] at hx
    cases hx
    exact ⟨sl', AList.lookup_insert _, hname.trans hxq⟩
  · exact ⟨x, by rw [AList.lookup_insert_ne hj, hx], hxq⟩

theorem Invariant.fresh_insert (h : Invariant s) (hi : s.items.lookup i = some sl) (sl' : Slot)
    {j} (hj : j ∈ s.items.insert i sl') : j < s.nextItem := by
  rcases (AList.mem_insert _).1 hj with rfl | hj
  · exact h.fresh j (AList.lookup_isSome.1 (by rw [hi]; rfl))
  · exact h.fresh j hj

theorem Invariant.replace (h : Invariant s) (hi : s.items.lookup i = some sl) {sl' n}
    (hname : sl'.name = sl.name) (hlive : sl'.item.live = true → Home s i sl.name)
    (hnormal : Normal sl'.item.rs) (hn : n = s.cachedBytes + (share sl'.item - share sl.item)) :
    Invariant { s with items := s.items.insert i sl', cachedBytes := n } where
  bytes := by
    have := h.bytes
    simp only [total_insert, weight_of_lookup hi]
    omega
  home j x hj hx := by
    rcases lookup_insert_cases hj with ⟨rfl, rfl⟩ | ⟨-, hj⟩
    · rw [hname]
      exact ⟨(hlive hx).apart, (hlive hx).registered, (hlive hx).placed⟩
    · have hh := h.home j x hj hx
      exact ⟨hh.apart, hh.registered, hh.placed⟩
  named q j := h.named_insert hi hname
  fresh j := h.fresh_insert hi sl'
  normal j x hj := by
    rcases lookup_insert_cases hj with ⟨rfl, rfl⟩ | ⟨-, hj⟩
    · exact hnormal
    · exact h.normal j x hj
  indexed := h.indexed

theorem Invariant.setSlot (h : Invariant s) (hi : s.items.lookup i = some sl) {sl'}
    (hname : sl'.name = sl.name) (hlive : sl'.item.live = sl.item.live)
    (hrs : sl'.item.rs = sl.item.rs) : Invariant (s.setSlot i sl') := by
  refine h.replace hi hname (fun hl => h.home i sl hi (hlive ▸ hl)) (hrs ▸ h.normal i sl hi) ?_
  simp only [share, hlive, hrs]
  omega

theorem Invariant.operate (h : Invariant s) (i : ℕ) {op}
    (hop : ∀ c, Normal c.item.rs → Accounts c (op c)) : Invariant (s.operate i op) := by
  unfold State.operate
  split
  · rename_i sl hi
    have hc := hop ⟨sl.item, sl.data, s.cachedBytes⟩ (h.normal i sl hi)
    exact h.replace hi rfl (fun hl => h.home i sl hi (hc.live hl)) hc.normal hc.bytes
  · exact h

theorem Invariant.flushMeta (h : Invariant s) (i : ℕ) (fails : Bool) :
    Invariant (s.flushMeta i fails) := by
  unfold State.flushMeta
  split
  · rename_i sl hi
    split
    · have hd := h.setDisk (s.disk.write sl.name sl.item.snapshot)
      apply hd.setSlot hi
      · rfl
      · rfl
      · rfl
    · exact h
  · exact h

theorem pin_registry (s : State) (i : ℕ) : (s.pin i).registry = s.registry := by
  unfold State.pin
  split
  · rfl
  · rfl

theorem Invariant.pin (h : Invariant s) (i : ℕ) : Invariant (s.pin i) := by
  unfold State.pin
  split
  · rename_i sl hi
    exact h.setSlot hi rfl rfl rfl
  · exact h

theorem Invariant.shut (h : Invariant s) (hi : s.items.lookup i = some sl)
    (hlive : sl.item.live = true) :
    Invariant ((s.remember sl.name sl.item.atime (size sl.item.rs)).setSlot i
      { sl with item := { sl.item with loaded := false, doomed := true } }) where
  bytes := by
    have hnone := AList.lookup_eq_none.2 (h.home i sl hi hlive).apart
    have hdead : share { sl.item with loaded := false, doomed := true } = 0 := share_of_dead rfl
    have := h.bytes
    simp only [State.setSlot, State.remember, total_insert, weight_of_lookup hi,
      weight_of_lookup_none hnone, share_of_live hlive, hdead]
    omega
  home j x hj hx := by
    rcases lookup_insert_cases hj with ⟨rfl, rfl⟩ | ⟨hne, hj⟩
    · cases hx
    have hh := h.home j x hj hx
    refine ⟨fun hmem => ?_, hh.registered, hh.placed⟩
    rcases (AList.mem_insert _).1 hmem with hname | hmem
    · -- Two live items of one name are one item, as the registry has only one for it.
      have hreg := (h.home i sl hi hlive).registered
      rw [← hname, hh.registered] at hreg
      exact hne (Option.some.inj hreg)
    · exact hh.apart hmem
  named q j hq := by
    refine h.named_insert hi ?_ hq
    rfl
  fresh j := h.fresh_insert hi _
  normal j x hj := by
    rcases lookup_insert_cases hj with ⟨rfl, rfl⟩ | ⟨-, hj⟩
    · exact h.normal j sl hi
    · exact h.normal j x hj
  indexed q e he := by
    by_cases hq : q = sl.name
    · subst hq
      simp only [State.setSlot, State.remember, AList.lookup_insert] at he
      cases he
      exact ⟨(h.home i sl hi hlive).placed, size_nonneg (h.normal i sl hi)⟩
    · simp only [State.setSlot, State.remember, AList.lookup_insert_ne hq] at he
      exact h.indexed q e he

theorem Invariant.shutdown (h : Invariant s) (i : ℕ) (fails : Bool) :
    Invariant (s.shutdown i fails) := by
  have hf := h.flushMeta i fails
  unfold State.shutdown
  simp only
  generalize s.flushMeta i fails = t at hf ⊢
  split
  · rename_i sl hi
    split
    · rename_i hl
      exact hf.shut hi hl
    rename_i hl
    rw [Bool.not_eq_true] at hl
    exact hf.setSlot hi rfl hl.symm rfl
  · exact hf

theorem Invariant.unregister (h : Invariant s)
    (hdead : ∀ i sl, s.registry.lookup p = some i → s.items.lookup i = some sl →
      sl.item.live = false) : Invariant { s with registry := s.registry.erase p } where
  bytes := h.bytes
  home j x hj hx := by
    have hh := h.home j x hj hx
    have hne : x.name ≠ p := by
      rintro rfl
      rw [hdead j x hh.registered hj] at hx
      cases hx
    exact ⟨hh.apart, by simp only [AList.lookup_erase_ne hne, hh.registered], hh.placed⟩
  named q j hq := by
    have hne : q ≠ p := by
      rintro rfl
      simp only [AList.lookup_erase] at hq
      cases hq
    simp only [AList.lookup_erase_ne hne] at hq
    exact h.named q j hq
  fresh := h.fresh
  normal := h.normal
  indexed := h.indexed

theorem shutdown_registry (s : State) (r : AList fun _ : Name => ℕ) (i : ℕ) (fails : Bool) :
    { s with registry := r }.shutdown i fails = { s.shutdown i fails with registry := r } := by
  have hflush : { s with registry := r }.flushMeta i fails =
      { s.flushMeta i fails with registry := r } := by
    unfold State.flushMeta
    simp only
    split
    · split
      · rfl
      · rfl
    · rfl
  unfold State.shutdown
  simp only [hflush]
  split
  · split
    · rfl
    · rfl
  · rfl

theorem operate_registry (s : State) (r : AList fun _ : Name => ℕ) (i : ℕ) (op : Cached → Cached) :
    { s with registry := r }.operate i op = { s.operate i op with registry := r } := by
  unfold State.operate
  simp only
  split
  · rfl
  · rfl

theorem shutdown_dead {fails} (hs : (s.shutdown i fails).items.lookup i = some sl) :
    sl.item.live = false := by
  unfold State.shutdown at hs
  simp only at hs
  split at hs
  · simp only [State.setSlot, AList.lookup_insert] at hs
    cases hs
    rfl
  rename_i hnone
  rw [hnone] at hs
  cases hs

theorem doom_dead (hs : (s.operate i doom).items.lookup i = some sl) : sl.item.live = false := by
  unfold State.operate at hs
  split at hs
  · simp only [AList.lookup_insert] at hs
    cases hs
    exact live_doom _
  rename_i hnone
  rw [hnone] at hs
  cases hs

theorem shutdown_keeps_registry (s : State) (i : ℕ) (fails : Bool) :
    (s.shutdown i fails).registry = s.registry := by
  have h := congrArg State.registry (shutdown_registry s s.registry i fails)
  exact h

theorem operate_keeps_registry (s : State) (i : ℕ) (op : Cached → Cached) :
    (s.operate i op).registry = s.registry := by
  have h := congrArg State.registry (operate_registry s s.registry i op)
  exact h

theorem Invariant.closeIdle (h : Invariant s) (hr : s.registry.lookup p = some i) (fails : Bool) :
    Invariant (s.closeIdle p i fails) := by
  unfold State.closeIdle
  have hreg := shutdown_keeps_registry s i fails
  rw [shutdown_registry, ← hreg]
  refine (h.shutdown i fails).unregister fun j x hj hx => ?_
  rw [hreg, hr] at hj
  cases hj
  exact shutdown_dead hx

theorem Invariant.dropItem (h : Invariant s) (p : Name) : Invariant (s.dropItem p) := by
  unfold State.dropItem
  split
  · rename_i i hr
    have hreg := operate_keeps_registry s i doom
    have ht : Invariant ({ s with registry := s.registry.erase p }.operate i doom) := by
      rw [operate_registry, ← hreg]
      refine (h.operate i fun c hc => accounts_doom hc).unregister fun j x hj hx => ?_
      rw [hreg, hr] at hj
      cases hj
      exact doom_dead hx
    simp only
    split
    · exact (ht.shutdown i false).setDisk _
    · exact ht.setDisk _
  · exact h

theorem Invariant.releaseItem (h : Invariant s) (i : ℕ) : Invariant (s.releaseItem i) := by
  unfold State.releaseItem
  split
  · rename_i sl hi
    have ht : Invariant (s.setSlot i { sl with opens := sl.opens - 1 }) :=
      h.setSlot hi rfl rfl rfl
    simp only
    split
    · exact ht.shutdown i false
    · exact ht
  · exact h

theorem Invariant.register (h : Invariant s) (hr : s.registry.lookup p = none) :
    Invariant (s.register p) where
  bytes := by
    have hnone : s.items.lookup s.nextItem = none := by
      rw [AList.lookup_eq_none]
      exact fun hmem => absurd (h.fresh _ hmem) (lt_irrefl _)
    have hshare : share State.freshItem = 0 := rfl
    have := h.bytes
    simp only [State.register, total_insert, weight_of_lookup_none hnone, hshare]
    omega
  home j x hj hx := by
    rcases lookup_insert_cases hj with ⟨rfl, rfl⟩ | ⟨-, hj⟩
    · cases hx
    have hh := h.home j x hj hx
    have hne : x.name ≠ p := by
      rintro rfl
      rw [hh.registered] at hr
      cases hr
    exact ⟨hh.apart, by simp only [State.register, AList.lookup_insert_ne hne, hh.registered],
      hh.placed⟩
  named q j hq := by
    by_cases hqp : q = p
    · subst hqp
      simp only [State.register, AList.lookup_insert] at hq
      cases hq
      exact ⟨_, AList.lookup_insert _, rfl⟩
    simp only [State.register, AList.lookup_insert_ne hqp] at hq
    obtain ⟨x, hx, hxq⟩ := h.named q j hq
    have hlt : j < s.nextItem := h.fresh j (AList.lookup_isSome.1 (by rw [hx]; rfl))
    exact ⟨x, by simp only [State.register, AList.lookup_insert_ne hlt.ne, hx], hxq⟩
  fresh j hj := by
    rcases (AList.mem_insert _).1 hj with rfl | hj
    · exact Nat.lt_succ_self _
    · exact Nat.lt_succ_of_lt (h.fresh j hj)
  normal j x hj := by
    rcases lookup_insert_cases hj with ⟨rfl, rfl⟩ | ⟨-, hj⟩
    · exact normal_nil
    · exact h.normal j x hj
  indexed := h.indexed

theorem Invariant.itemAt (h : Invariant s) (p : Name) :
    Invariant (s.itemAt p).2 ∧ (s.itemAt p).2.registry.lookup p = some (s.itemAt p).1 := by
  unfold State.itemAt
  split
  · rename_i i hi
    exact ⟨h, hi⟩
  · rename_i hr
    exact ⟨h.register hr, AList.lookup_insert _⟩

theorem forget_eq (s : State) (p : Name) :
    s.forget p = (weight DEntry.bytes s.index p, { s with index := s.index.erase p }) := by
  unfold State.forget
  split
  · rename_i e he
    rw [weight_of_lookup he]
  rename_i he
  have herase : s.index.erase p = s.index := by
    apply AList.ext
    exact List.kerase_of_notMem_keys (AList.lookup_eq_none.1 he)
  rw [weight_of_lookup_none he, herase]

theorem Invariant.unindex (h : Invariant s) (p : Name) : Invariant { s with
      index := s.index.erase p, cachedBytes := s.cachedBytes - weight DEntry.bytes s.index p } where
  bytes := by
    have := h.bytes
    simp only [total_erase]
    omega
  home j x hj hx := by
    have hh := h.home j x hj hx
    exact ⟨fun hmem => hh.apart (AList.mem_erase.1 hmem).2, hh.registered, hh.placed⟩
  named := h.named
  fresh := h.fresh
  normal := h.normal
  indexed q d hq := by
    have hne : q ≠ p := by
      rintro rfl
      simp only [AList.lookup_erase] at hq
      cases hq
    simp only [AList.lookup_erase_ne hne] at hq
    exact h.indexed q d hq

theorem Invariant.ensureLoaded (h : Invariant s) (hr : s.registry.lookup p = some i)
    {t fpr now readable} (ht : s.ensureLoaded i fpr now readable = some t) : Invariant t := by
  obtain ⟨sl, hi, rfl⟩ := h.named p i hr
  simp only [State.ensureLoaded, hi] at ht
  split at ht
  · cases ht
  split at ht
  · cases ht
    exact h
  rename_i hloaded
  split at ht
  · cases ht
  rename_i hplace
  rw [forget_eq] at ht
  cases ht
  have hdead : share sl.item = 0 := share_of_dead (by simp [Item.live, hloaded])
  refine Invariant.setDisk ((h.unindex sl.name).replace hi ?_ (fun _ => ?_) ?_ ?_) _
  · rfl
  · exact ⟨fun hmem => (AList.mem_erase.1 hmem).1 rfl, hr, hplace⟩
  · exact load_normal fpr now _
  · simp only [hdead, share_of_live (load_same fpr now _).2.2.1]
    omega

theorem Invariant.openItem (h : Invariant s) (p : Name) (fpr : Fingerprint) (now : Int)
    (readable : Bool) : Invariant (s.openItem p fpr now readable) := by
  obtain ⟨ht, hr⟩ := h.itemAt p
  unfold State.openItem
  generalize s.itemAt p = found at ht hr ⊢
  obtain ⟨i, t⟩ := found
  have hu := ht.pin i
  simp only
  split
  · rename_i v hv
    have hpin : (t.pin i).registry.lookup p = some i := by
      rw [pin_registry]
      exact hr
    exact hu.ensureLoaded hpin hv
  · exact hu.releaseItem i

theorem Invariant.lookupItem (h : Invariant s) (p : Name) : Invariant (s.lookupItem p) := by
  unfold State.lookupItem
  split
  · split
    · exact h.pin _
    · exact (h.pin _).releaseItem _
  · exact h

theorem Invariant.dropEntry (h : Invariant s) (p : Name) : Invariant (s.dropEntry p) := by
  have hu := h.unindex p
  unfold State.dropEntry
  split
  · rename_i e he
    rw [weight_of_lookup he] at hu
    exact hu.setDisk _
  · exact h

/-- Only names with a place are in the index, so that an eviction counts what it frees. -/
theorem Invariant.deleteEntry (h : Invariant s) (p : Name) : Invariant (s.deleteEntry p) := by
  unfold State.deleteEntry
  split
  · exact h
  split
  · rename_i e he
    have hd := h.dropEntry p
    simp only [if_neg (h.indexed p e he).1]
    rw [State.dropEntry, he] at hd
    exact hd
  · exact h

theorem foldl_invariant {op : State → Name → State} (hop : ∀ t p, Invariant t → Invariant (op t p))
    (cov : Name → Bool) (ps : List Name) (h : Invariant s) :
    Invariant (ps.foldl (fun t p => if cov p then op t p else t) s) := by
  induction ps generalizing s with
  | nil => exact h
  | cons p ps ih =>
    rw [List.foldl_cons]
    apply ih
    split
    · exact hop s p h
    · exact h

theorem Invariant.invalidateTree (h : Invariant s) (name : Name) :
    Invariant (s.invalidateTree name) := by
  unfold State.invalidateTree
  apply foldl_invariant fun t p ht => Invariant.dropEntry ht p
  exact foldl_invariant (fun t p ht => Invariant.dropItem ht p) _ _ h

theorem Meta.valid_size {m : Meta} (h : m.valid = true) : 0 ≤ size m.ranges := by
  refine List.sum_nonneg fun x hx => ?_
  obtain ⟨r, hr, rfl⟩ := List.mem_map.1 hx
  have := List.all_eq_true.1 h r hr
  simp only [Bool.and_eq_true, decide_eq_true_eq] at this
  exact this.2.le

theorem startUp_invariant (s : State) (lost : Name → Bool) : Invariant (s.startUp lost) where
  bytes := by
    have hw := walk_total (f := State.seed lost) (w := DEntry.bytes) s.disk.metadata.entries
      s.disk.metadata.nodupKeys (∅, 0) rfl fun a _ => AList.notMem_empty a
    simp only [State.startUp, hw]
    exact (zero_add _).symm
  home i _ hi := absurd hi lookup_empty_ne_some
  named p _ hp := absurd hp lookup_empty_ne_some
  fresh i hi := absurd hi (AList.notMem_empty i)
  normal i _ hi := absurd hi lookup_empty_ne_some
  indexed p e he := by
    rcases walk_lookup s.disk.metadata.entries (∅, 0) he with hnone | ⟨m, hm, hseed⟩
    · cases hnone
    refine ⟨s.disk.cacheable p (AList.mem_keys.2 (List.mem_keys_of_mem hm)), ?_⟩
    unfold State.seed at hseed
    split at hseed
    · cases hseed
    rename_i hkept
    cases hseed
    simp only [Bool.or_eq_true, not_or, Bool.not_eq_true, Bool.not_eq_false'] at hkept
    exact Meta.valid_size hkept.2

end Invariants

section Runs

variable {pl : Platform} {s t : State} {e : Event}

theorem next_invariant (h : Invariant s) (hn : next pl s e = some t) : Invariant t := by
  cases e with
  | startUp lost =>
    cases hn
    exact startUp_invariant s lost
  | openItem p fpr now readable =>
    cases hn
    exact h.openItem p fpr now readable
  | lookupItem p =>
    cases hn
    exact h.lookupItem p
  | releaseItem i =>
    simp only [next] at hn
    split at hn
    · cases hn
      exact h.releaseItem i
    · cases hn
  | fill i fault bs off =>
    cases hn
    exact h.operate i fun c hc => accounts_writeNoOverwrite fault bs off hc
  | mirrorWrite i fault bs off =>
    cases hn
    exact h.operate i fun c hc => accounts_mirrorWrite fault bs off hc
  | truncate i fails n =>
    cases hn
    exact h.operate i fun c hc => accounts_truncate fails n hc
  | touch i now head =>
    cases hn
    exact h.operate i fun c hc => accounts_touch now head hc
  | punch i fault =>
    simp only [next] at hn
    split at hn
    · cases hn
      exact h.operate i fun c hc => accounts_punchItem pl fault hc
    · cases hn
  | doom i =>
    cases hn
    exact h.operate i fun c hc => accounts_doom hc
  | flush i fails =>
    cases hn
    exact h.flushMeta i fails
  | closeIdle p fails =>
    simp only [next] at hn
    split at hn
    · rename_i i hr
      split at hn
      · cases hn
        exact h.closeIdle hr fails
      · cases hn
    · cases hn
  | deleteEntry p =>
    cases hn
    exact h.deleteEntry p
  | invalidateTree p =>
    cases hn
    exact h.invalidateTree p

end Runs

end CacheAccounting
