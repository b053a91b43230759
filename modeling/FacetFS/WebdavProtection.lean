import FacetFS.WebdavMethods

/-! # What a lock protects

Every mutation is preceded by a look at the locks of a few paths: the resource a method names, the
collection it is in, and the same for a destination. A lock is looked up under its own path only, so
it protects its resource from requests on that resource and on its members, and not from requests
that remove, move or overwrite a collection further up. -/
namespace WebdavProtection

open ByteText WebdavIf FileTree WebdavHandler WebdavCopyMove WebdavMethods

section Locks

variable {now : ℕ} {locks locks' locks'' : MemLS} {root : Text} {held : LockDetails}

/-- Looking at locks drops some that have expired and changes nothing else. -/
def Shrinks (now : ℕ) (locks locks' : MemLS) : Prop :=
  ∀ root, locks'.lookup root = locks.lookup root ∨
    locks'.lookup root = none ∧ ∃ held, locks.lookup root = some held ∧ held.expires ≤ now

theorem Shrinks.refl (now : ℕ) (locks : MemLS) : Shrinks now locks locks := fun _ => .inl rfl

theorem Shrinks.trans (h : Shrinks now locks locks') (h' : Shrinks now locks' locks'') :
    Shrinks now locks locks'' := by
  intro root
  rcases h' root with he' | ⟨hn', held, hl', hexp⟩
  · rcases h root with he | ⟨hn, hexp⟩
    · exact .inl (he'.trans he)
    · exact .inr ⟨he'.trans hn, hexp⟩
  rcases h root with he | ⟨hn, -⟩
  · exact .inr ⟨hn', held, he.symm.trans hl', hexp⟩
  · rw [hn] at hl'
    cases hl'

theorem Shrinks.keeps (h : Shrinks now locks locks') (hl : locks.lookup root = some held)
    (ht : now < held.expires) : locks'.lookup root = some held := by
  rcases h root with he | ⟨-, held', hl', hexp⟩
  · exact he.trans hl
  · obtain rfl := Option.some.inj (hl.symm.trans hl')
    exact absurd ht (not_lt.2 hexp)

theorem Shrinks.free (h : Shrinks now locks locks') (hn : locks.lookup root = none) :
    locks'.lookup root = none := by
  rcases h root with he | ⟨he, -⟩
  · exact he.trans hn
  · exact he

theorem live_shrinks (locks : MemLS) (root : Text) (now : ℕ) :
    Shrinks now locks (live locks root now).2 := by
  unfold live
  split
  · exact .refl _ _
  rename_i held hl
  split
  · rename_i hexp
    intro other
    by_cases hne : other = root
    · subst hne
      exact .inr ⟨AList.lookup_erase _ _, held, hl, hexp⟩
    · exact .inl (AList.lookup_erase_ne hne)
  · exact .refl _ _

theorem live_held (hl : locks.lookup root = some held) (ht : now < held.expires) :
    live locks root now = (some held, locks) := by
  unfold live
  rw [hl]
  exact if_neg (not_le.2 ht)

theorem guard_shrinks (now : ℕ) (root : Text) (tokens : List Text) (locks : MemLS) :
    Shrinks now locks (WebdavHandler.guard now root tokens locks).2 := by
  have h := live_shrinks locks root now
  unfold WebdavHandler.guard
  split
  · rename_i hlive
    rw [hlive] at h
    exact h
  rename_i hlive
  rw [hlive] at h
  split
  · exact h
  · exact h

theorem heldTokens_shrinks (now : ℕ) (roots : List Text) (locks : MemLS) :
    Shrinks now locks (heldTokens now roots locks).2 := by
  induction roots generalizing locks with
  | nil => exact .refl _ _
  | cons root roots ih => exact (live_shrinks locks root now).trans (ih _)

theorem anyGuarded_shrinks (now : ℕ) (tokens roots : List Text) (locks : MemLS) :
    Shrinks now locks (anyGuarded now tokens roots locks).2 := by
  induction roots generalizing locks with
  | nil => exact .refl _ _
  | cons root roots ih =>
    have h := guard_shrinks now root tokens locks
    unfold anyGuarded
    split
    · rename_i hg
      rw [hg] at h
      exact h
    rename_i hg
    rw [hg] at h
    exact h.trans (ih _)

end Locks

section Checks

variable (h : Handler) (env : Env) (req : Request) (now : ℕ) (resource : Path) (etag : Text)
  (governed : List Text) (locks : MemLS)

theorem looked_shrinks (c : Prop) [Decidable c] :
    Shrinks now locks (if c then heldTokens now governed locks else ([], locks)).2 := by
  split
  · exact heldTokens_shrinks now governed locks
  · exact .refl _ _

theorem checkIf_shrinks :
    Shrinks now locks (checkIf h env req now resource etag governed locks).2 := by
  have hb := looked_shrinks now governed locks (req.ifHeader ≠ [] ∧ h.locking)
  unfold checkIf
  simp only
  generalize (if req.ifHeader ≠ [] ∧ h.locking then heldTokens now governed locks
    else ([], locks)) = b at hb
  split
  · exact hb
  split
  · have hg := anyGuarded_shrinks now (ifTokens req.ifHeader) governed b.2
    split
    · rename_i hany
      rw [hany] at hg
      exact hb.trans hg
    rename_i hany
    rw [hany] at hg
    exact hb.trans hg
  · exact hb

variable {h env req now resource etag governed locks}

end Checks

section Trees

variable {t t' t'' : FsTree} {p q : Path}

/-- The resource is still there with its contents: the bytes of a file, the members of a
collection. -/
structure Kept (t t' : FsTree) (p : Path) : Prop where
  node : t'.node p = t.node p
  members : ∀ x, (t'.node (p ++ [x])).isSome = (t.node (p ++ [x])).isSome

theorem Kept.refl (t : FsTree) (p : Path) : Kept t t p := ⟨rfl, fun _ => rfl⟩

end Trees

section Changes

variable (srv : Server) (env : Surroundings) (req : MethodRequest) (st : State) (segs : Path)

/-- The preconditions of a request on these paths were met. -/
def Passes (now : ℕ) (resource : Path) (etag : Text) (governed : List Text) (locks : MemLS) : Prop :=
  (checkIf srv.toHandler env.toEnv req.toRequest now resource etag governed locks).1 = none

theorem putChunks_other (chunks : List Text) (i : ℕ) (t : FsTree) {r} (hr : r ≠ segs) :
    (putChunks env segs i chunks t).2.node r = t.node r := by
  induction chunks generalizing i t with
  | nil => rfl
  | cons chunk rest ih =>
    have hw := writeChunk_other env.toEnv t i chunk hr
    unfold putChunks
    split
    · rename_i he
      rw [he] at hw
      exact hw
    rename_i he
    rw [he] at hw
    exact (ih (i + 1) _).trans hw

theorem storeBody_other (t : FsTree) {r} (hr : r ≠ segs) :
    (storeBody srv env req segs t).2.node r = t.node r := by
  have hp := putChunks_other env segs (pages 32768 (req.body.take srv.bodyLimit)) 0 t hr
  unfold storeBody
  split
  · rename_i he
    rw [he] at hp
    exact hp
  rename_i he
  rw [he] at hp
  split
  · exact hp
  split
  · exact hp
  split
  · exact hp
  · exact hp

theorem statInfo_ok {t p fi} (h : statInfo env t p = .ok fi) : fi.isSome = (t.node p).isSome := by
  unfold statInfo at h
  split at h
  · rename_i hs
    obtain ⟨n, hn, -⟩ := stat_ok hs
    cases h
    rw [hn]
    rfl
  · rename_i hs
    cases h
    rw [stat_notExist hs]
    rfl
  · cases h

/-- A PUT changes nothing, or only its own resource and with leave of the locks. -/
theorem put_changes : (put srv env req st segs).2.tree = st.tree ∨
      (∃ fi, fi.isSome = (st.tree.node segs).isSome ∧
        Passes srv env req env.now segs (destinationTag fi) (putLocks fi segs) st.locks) ∧
      ∀ r, r ≠ segs → (put srv env req st segs).2.tree.node r = st.tree.node r := by
  unfold put
  split
  · exact .inl rfl
  split
  · exact .inl rfl
  rename_i fi hfi
  split
  · exact .inl rfl
  split
  · exact .inl rfl
  rename_i locks hpass
  split
  · exact .inl rfl
  refine .inr ⟨⟨fi, statInfo_ok env hfi, congrArg Prod.fst hpass⟩, ?_⟩
  intro r hr
  have ho := openWrite_other env.toEnv st.tree 0o644 hr
  split
  · rename_i he
    rw [he] at ho
    exact ho
  rename_i t he
  rw [he] at ho
  have hs := storeBody_other srv env req segs t hr
  split
  · rename_i hb
    rw [hb] at hs
    exact hs.trans ho
  rename_i hb
  rw [hb] at hs
  exact hs.trans ho

theorem createEmpty_other (t : FsTree) {r} (hr : r ≠ segs) :
    (createEmpty env t segs).2.node r = t.node r := by
  have hc := create_other (t := t) (.file 0o644 []) hr
  unfold createEmpty
  split
  · rfl
  split
  · rename_i he
    rw [he] at hc
    exact hc
  rename_i he
  rw [he] at hc
  split
  · exact hc
  · exact hc

theorem lockNew_changes : (lockNew srv env req st segs).2.tree = st.tree ∨
      Passes srv env req env.now segs [] [fsPath segs.dropLast] st.locks ∧
      st.tree.node segs = none ∧
      ∀ r, ¬ segs <+: r → (lockNew srv env req st segs).2.tree.node r = st.tree.node r := by
  unfold lockNew lockStat
  split
  · rename_i hstat
    split at hstat
    · cases hstat
      exact .inl rfl
    · cases hstat
    split at hstat
    · cases hstat
      exact .inl rfl
    · split at hstat
      · cases hstat
        exact .inl rfl
      · cases hstat
  · rename_i hstat
    left
    split at hstat
    · cases hstat
    · cases hstat
      unfold lockMapped
      split <;> rfl
    · split at hstat
      · cases hstat
      · split at hstat
        · cases hstat
        · cases hstat
  rename_i hstat
  split at hstat
  · cases hstat
  · cases hstat
  rename_i hfi
  split at hstat
  · cases hstat
  split at hstat
  · cases hstat
  rename_i locks hpass
  cases hstat
  have hnone : st.tree.node segs = none := by
    have hs := statInfo_ok env hfi
    rw [Option.isSome_none] at hs
    exact Option.not_isSome_iff_eq_none.1 (by rw [← hs]; exact nofun)
  refine .inr ⟨congrArg Prod.fst hpass, hnone, ?_⟩
  intro r hr
  have hne : r ≠ segs := by
    rintro rfl
    exact hr (List.prefix_refl _)
  have hc := createEmpty_other env segs st.tree hne
  split
  · rename_i he
    rw [he] at hc
    exact hc
  rename_i t he
  rw [he] at hc
  unfold lockCreated
  split
  · exact (removeAll_other env.toEnv t hr).trans hc
  · exact hc

theorem lock_changes : (lock srv env req st segs).2.tree = st.tree ∨
      Passes srv env req env.now segs [] [fsPath segs.dropLast] st.locks ∧
      st.tree.node segs = none ∧
      ∀ r, ¬ segs <+: r → (lock srv env req st segs).2.tree.node r = st.tree.node r := by
  have hrefresh : (refreshLock env req st segs).2.tree = st.tree := by
    unfold refreshLock
    split
    · rfl
    split
    · rfl
    · split <;> rfl
  unfold lock
  split
  · exact .inl rfl
  split
  · exact .inl hrefresh
  split
  · exact .inl rfl
  split
  · exact .inl rfl
  split
  · exact .inl rfl
  split
  · exact .inl rfl
  · exact lockNew_changes srv env req st segs

end Changes

section Protection

variable {srv : Server} {env : Surroundings} {req : MethodRequest} {st : State} {segs p : Path}
  {held : LockDetails}

def Over (a p : Path) : Prop := a <+: p ∧ a ≠ p

/-- A live lock on a mapped resource, whose token the request does not submit. -/
structure Locked (srv : Server) (env : Surroundings) (req : MethodRequest) (st : State) (p : Path)
    (held : LockDetails) : Prop where
  locking : srv.locking = true
  mapped : (st.tree.node p).isSome = true
  entry : st.locks.lookup (fsPath p) = some held
  now : env.now < held.expires
  later : env.later < held.expires
  unsubmitted : held.token ∉ ifTokens req.ifHeader

theorem Locked.not_above (h : Locked srv env req st p held) {q}
    (hq : st.tree.node q = none) : ¬ q <+: p := by
  rintro ⟨rel, rfl⟩
  have hm := h.mapped
  rw [st.tree.node_append_of_none hq] at hm
  cases hm

end Protection

section Exposure

variable {t : FsTree} {p a target : Path} {srv : Server} {env : Surroundings} {req : MethodRequest}

theorem length_join (c : UInt8) {l} (hl : l ≠ []) :
    (join c l).length + 1 = (l.map List.length).sum + l.length := by
  induction l with
  | nil => exact absurd rfl hl
  | cons s ss ih =>
    cases ss with
    | nil => simp [join]
    | cons s' ss =>
      have h := ih (by simp)
      simp only [join, List.length_append, List.length_cons, List.map_cons, List.sum_cons] at h ⊢
      omega

/-- A path below another is longer as a text, too, unless it is directly below the root. -/
theorem fsPath_ne_of_over (ho : Over a p) (hp : 2 ≤ p.length) : fsPath a ≠ fsPath p := by
  obtain ⟨⟨rel, rfl⟩, hne⟩ := ho
  have hrel : rel ≠ [] := by
    rintro rfl
    exact hne (List.append_nil a).symm
  intro heq
  have hlen : (join slash a).length = (join slash (a ++ rel)).length := by
    have h := congrArg List.length heq
    simpa [fsPath] using h
  have hlong := length_join slash (l := a ++ rel) (by simp [hrel])
  have hpos : 0 < rel.length := List.length_pos_iff.2 hrel
  by_cases ha : a = []
  · subst ha
    simp only [join, List.length_nil, List.nil_append] at hlen hlong hp
    omega
  have hshort := length_join slash ha
  simp only [List.map_append, List.sum_append, List.length_append] at hlong
  omega

theorem Over.dropLast (ho : Over a p) : Over a.dropLast p := by
  refine ⟨(List.dropLast_prefix a).trans ho.1, ?_⟩
  rintro rfl
  exact ho.2 (List.IsPrefix.eq_of_length_le ho.1 (by simp))

theorem Over.two_le (ho : Over a p) (ha : a ≠ []) : 2 ≤ p.length := by
  obtain ⟨⟨rel, rfl⟩, hne⟩ := ho
  have hrel : rel ≠ [] := by
    rintro rfl
    exact hne (List.append_nil a).symm
  have h₁ := List.length_pos_iff.2 ha
  have h₂ := List.length_pos_iff.2 hrel
  rw [List.length_append]
  omega

theorem Over.mapped (ho : Over a p) (hp : (t.node p).isSome = true) : (t.node a).isSome = true := by
  obtain ⟨⟨rel, rfl⟩, -⟩ := ho
  exact t.isSome_of_append hp

def calm (env : Surroundings) : Surroundings := { env with toEnv := faultless env.toEnv }

def bare (req : MethodRequest) : MethodRequest := { req with toRequest := plain req.toRequest }

theorem Over.roots (ho : Over a p) (ha : a ≠ []) :
    fsPath a ≠ fsPath p ∧ fsPath a.dropLast ≠ fsPath p :=
  ⟨fsPath_ne_of_over ho (ho.two_le ha), fsPath_ne_of_over ho.dropLast (ho.two_le ha)⟩

end Exposure

section Requests

def plainServer : Server := ⟨⟨[], 0, true⟩, 0⟩

def plainSurroundings : Surroundings := ⟨pathsOnly, fun _ => none, fun _ => none, none⟩

/-- A request for a path, with a Destination header and nothing else. -/
def requestFor (path destination : Text) : MethodRequest :=
  ⟨⟨⟨[], false, [], path, path, []⟩, [], [], destination, [], []⟩, 0, [], none, [], [], [], []⟩

end Requests

end WebdavProtection
