import FacetFS.WebdavHandler

/-! # COPY and MOVE

Both methods check everything first and only then remove what is at the destination. A COPY
walks the source before the removal and copies entry by entry after it; a MOVE renames. -/
namespace WebdavCopyMove

open ByteText WebdavIf FileTree WebdavHandler

/-- One resource visited by a traversal, with its path relative to the traversal root. -/
structure WalkEntry where
  segments : Path
  fi : FileInfo

/-- The pieces of a list that `n` elements at a time make. -/
def pages {α : Type} (n : ℕ) (l : List α) : List (List α) := (l.toChunksAux (n - 1) 0).2

section Walk

variable (env : Env) (t : FsTree)

def dirEntries (dir : Path) : List FileInfo :=
  (t.children dir).filterMap fun x => (t.node (dir ++ [x])).map (info env (dir ++ [x]))

/-- The members read in one page; `visit` descends into a directory. -/
def walkPage (limit : ℕ) (relative : Path) (recurse : Bool)
    (visit : Text → Path → List WalkEntry → Except FsError (List WalkEntry)) :
    List FileInfo → List WalkEntry → Except FsError (List WalkEntry)
  | [], entries => .ok entries
  | child :: rest, entries =>
    if entries.length ≥ limit then .error .walkLimit
    else
      let entries := entries ++ [⟨relative ++ [child.name], child⟩]
      match if recurse && child.isDir then visit child.name (relative ++ [child.name]) entries
        else .ok entries with
      | .error e => .error e
      | .ok entries => walkPage limit relative recurse visit rest entries

def walkPages (dir : Path)
    (page : List FileInfo → List WalkEntry → Except FsError (List WalkEntry)) :
    ℕ → List (List FileInfo) → List WalkEntry → Except FsError (List WalkEntry)
  | i, [], entries =>
    match env.fault (.readdir dir i) with
    | some e => .error e
    | none => .ok entries
  | i, children :: rest, entries =>
    match env.fault (.readdir dir i) with
    | some e => .error e
    | none =>
      match page children entries with
      | .error e => .error e
      | .ok entries => walkPages dir page (i + 1) rest entries

/-- The entries under a directory are appended. Every descent follows an entry that was
appended, so a `depth` beyond the limit is never used up. -/
def walkFS (limit : ℕ) (recurse : Bool) :
    ℕ → Path → Path → List WalkEntry → Except FsError (List WalkEntry)
  | 0, _, _, _ => .error .walkLimit
  | depth + 1, dir, relative, entries =>
    match openRead env t dir with
    | .error e => .error e
    | .ok _ =>
      walkPages env dir
        (walkPage limit relative recurse fun x => walkFS limit recurse depth (dir ++ [x]))
        0 (pages 256 (dirEntries env t dir)) entries

end Walk

section Copying

variable (env : Env)

def copyChunks (source destination : Path) : ℕ → List Text → FsTree → Except FsError Unit × FsTree
  | i, [], t =>
    match env.fault (.read source i) with
    | some e => (.error e, t)
    | none => (.ok (), t)
  | i, chunk :: rest, t =>
    match env.fault (.read source i) with
    | some e => (.error e, t)
    | none =>
      match writeChunk env t destination i chunk with
      | (.error e, t) => (.error e, t)
      | (.ok (), t) => copyChunks source destination (i + 1) rest t

def fileData : Node Perm Text → Text
  | .dir _ => []
  | .file _ data => data

def copyFile (t : FsTree) (source destination : Path) (perm : Perm) :
    Except FsError Unit × FsTree :=
  match openRead env t source with
  | .error e => (.error e, t)
  | .ok n =>
    match openWrite env t destination perm with
    | (.error e, t) => (.error e, t)
    | (.ok (), t) =>
      match copyChunks env source destination 0 (pages 32768 (fileData n)) t with
      | (.error e, t) => (.error e, t)
      | (.ok (), t) =>
        match env.fault (.close destination) with
        | some e => (.error e, t)
        | none => (.ok (), t)

def copyEntry (t : FsTree) (entry : WalkEntry) (source destination : Path) :
    Except FsError Unit × FsTree :=
  if entry.fi.isDir then mkdir env t destination entry.fi.perm
  else copyFile env t source destination entry.fi.perm

def copyEntries (source target : Path) : List WalkEntry → FsTree → Except FsError Unit × FsTree
  | [], t => (.ok (), t)
  | entry :: rest, t =>
    match copyEntry env t entry (source ++ entry.segments) (target ++ entry.segments) with
    | (.error e, t) => (.error e, t)
    | (.ok (), t) => copyEntries source target rest t

end Copying

section Methods

variable (h : Handler) (env : Env) (req : Request)

def depthZero : Text := text ['0']
def depthInfinity : Text := text ['i', 'n', 'f', 'i', 'n', 'i', 't', 'y']

/-- What COPY looks at before it looks at the destination: the entries to copy. -/
def copySource (t : FsTree) (source : Path) : Except FsError (Path × List WalkEntry) :=
  if source = [] then .error .invalid
  else
    match targetOf h env req with
    | .error e => .error e
    | .ok target =>
      if source <+: target then .error .invalid
      else if req.depth ≠ [] ∧ req.depth ≠ depthZero ∧ req.depth ≠ depthInfinity then
        .error .invalid
      else
        match stat env t source with
        | .error e => .error e
        | .ok fi =>
          if fi.isDir && req.depth ≠ depthZero then
            match walkFS env t h.walkLimit true (h.walkLimit + 1) source [] [⟨[], fi⟩] with
            | .error e => .error e
            | .ok entries => .ok (target, entries)
          else .ok (target, [⟨[], fi⟩])

def destinationParentExists (t : FsTree) (target : Path) : Bool :=
  match stat env t target.dropLast with
  | .error _ => false
  | .ok fi => fi.isDir

/-- The checks on the destination, shared by both methods: its info if it exists, or the
status of the refusal. -/
def checkDestination (t : FsTree) (target : Path) : Except (Option ℕ) (Option FileInfo) :=
  let info : Except (Option ℕ) (Option FileInfo) :=
    match stat env t target with
    | .ok fi => .ok (some fi)
    | .error .notExist => .ok none
    | .error e => .error (writeError e)
  match info with
  | .error status => .error status
  | .ok info =>
    if destinationParentExists env t target = false then .error (some statusConflict)
    else if info.isSome ∧ req.overwrite = text ['F'] then .error (some statusPreconditionFailed)
    else .ok info

def destinationTag (info : Option FileInfo) : Text := (info.map entityTag).getD []

def destinationLocks (info : Option FileInfo) (target : Path) : List Text :=
  if info.isSome then [fsPath target.dropLast, fsPath target] else [fsPath target.dropLast]

def removeExisting (t : FsTree) (target : Path) (info : Option FileInfo) :
    Except FsError Unit × FsTree :=
  if info.isSome then removeAll env t target else (.ok (), t)

def doneStatus (info : Option FileInfo) : ℕ :=
  if info.isSome then statusNoContent else statusCreated

def copy (st : State) (source : Path) : Option ℕ × State :=
  match copySource h env req st.tree source with
  | .error e => (writeError e, st)
  | .ok (target, entries) =>
    match checkDestination env req st.tree target with
    | .error status => (status, st)
    | .ok info =>
      match checkIf h env req env.now target (destinationTag info) (destinationLocks info target)
        st.locks with
      | (some status, locks) => (some status, { st with locks := locks })
      | (none, locks) =>
        match removeExisting env st.tree target info with
        | (.error e, t) => (writeError e, ⟨t, locks⟩)
        | (.ok (), t) =>
          match copyEntries env source target entries t with
          | (.error e, t) => (writeError e, ⟨t, locks⟩)
          | (.ok (), t) => (some (doneStatus info), ⟨t, locks⟩)

def moveSource (t : FsTree) (source : Path) : Except (Option ℕ) (Path × FileInfo) :=
  if source = [] then .error (writeError .invalid)
  else
    match targetOf h env req with
    | .error e => .error (writeError e)
    | .ok target =>
      if source = target then .error (some statusNoContent)
      else if source <+: target then .error (writeError .invalid)
      else
        match stat env t source with
        | .error e => .error (writeError e)
        | .ok fi => .ok (target, fi)

def move (st : State) (source : Path) : Option ℕ × State :=
  match moveSource h env req st.tree source with
  | .error status => (status, st)
  | .ok (target, fi) =>
    match checkDestination env req st.tree target with
    | .error status => (status, st)
    | .ok info =>
      match checkIf h env req env.now source (entityTag fi) [fsPath source, fsPath source.dropLast]
        st.locks with
      | (some status, locks) => (some status, { st with locks := locks })
      | (none, locks) =>
        match checkIf h env req env.later target (destinationTag info)
          (destinationLocks info target) locks with
        | (some status, locks) => (some status, { st with locks := locks })
        | (none, locks) =>
          match removeExisting env st.tree target info with
          | (.error e, t) => (writeError e, ⟨t, locks⟩)
          | (.ok (), t) =>
            match rename env t source target with
            | (.error e, t) => (writeError e, ⟨t, locks⟩)
            | (.ok (), t) => (some (doneStatus info), ⟨t, locks⟩)

end Methods

variable {n : Node Perm Text}

section Traversal

variable {env : Env} {t : FsTree}

/-- What a traversal appended for a directory: entries of nodes below it, and all of them. -/
structure Visited (env : Env) (t : FsTree) (dir relative : Path) (names : List Text)
    (new : List WalkEntry) : Prop where
  sound : ∀ e ∈ new, ∃ x rel n, x ∈ names ∧ e.segments = relative ++ x :: rel ∧
    t.node (dir ++ x :: rel) = some n ∧ e.fi = info env (dir ++ x :: rel) n
  complete : ∀ x rel, x ∈ names → (t.node (dir ++ x :: rel)).isSome = true →
    ∃ e ∈ new, e.segments = relative ++ x :: rel

theorem Visited.nil (dir relative : Path) : Visited env t dir relative [] [] :=
  ⟨by simp, by simp⟩

variable {dir relative : Path}

theorem Visited.append {xs ys as bs} (ha : Visited env t dir relative xs as)
    (hb : Visited env t dir relative ys bs) : Visited env t dir relative (xs ++ ys) (as ++ bs) := by
  refine ⟨fun e he => ?_, fun x rel hx hn => ?_⟩
  · rcases List.mem_append.1 he with he | he
    · obtain ⟨x, rel, n, hx, hrest⟩ := ha.sound e he
      exact ⟨x, rel, n, List.mem_append_left _ hx, hrest⟩
    · obtain ⟨x, rel, n, hx, hrest⟩ := hb.sound e he
      exact ⟨x, rel, n, List.mem_append_right _ hx, hrest⟩
  · rcases List.mem_append.1 hx with hx | hx
    · obtain ⟨e, he, hs⟩ := ha.complete x rel hx hn
      exact ⟨e, List.mem_append_left _ he, hs⟩
    · obtain ⟨e, he, hs⟩ := hb.complete x rel hx hn
      exact ⟨e, List.mem_append_right _ he, hs⟩

theorem Visited.congr {xs ys new} (h : Visited env t dir relative xs new)
    (hxy : ∀ x, x ∈ xs ↔ x ∈ ys) : Visited env t dir relative ys new := by
  refine ⟨fun e he => ?_, fun x rel hx => h.complete x rel ((hxy x).2 hx)⟩
  obtain ⟨x, rel, n, hx, hrest⟩ := h.sound e he
  exact ⟨x, rel, n, (hxy x).1 hx, hrest⟩

variable {limit : ℕ} {visit : Text → Path → List WalkEntry → Except FsError (List WalkEntry)}

variable {page : List FileInfo → List WalkEntry → Except FsError (List WalkEntry)}

end Traversal

variable {q : Path}

section Copied

variable {env : Env} {t t' : FsTree}

variable {destination : Path}

/-- An entry describes a node: its kind and its permissions. -/
def Describes (entry : WalkEntry) (n : Node Perm Text) : Prop :=
  entry.fi.isDir = n.isDir ∧ entry.fi.perm = n.attr

end Copied

section Outcome

variable {h : Handler} {env : Env} {req : Request} {st : State} {source target : Path}

def Succeeded (status : Option ℕ) : Prop :=
  status = some statusCreated ∨ status = some statusNoContent

/-- Entries for the source itself and, if deep, for everything below it. -/
structure Covers (t : FsTree) (source : Path) (deep : Prop) (entries : List WalkEntry) : Prop where
  describes : ∀ e ∈ entries, ∃ n, t.node (source ++ e.segments) = some n ∧ Describes e n
  segments : ∀ rel, (∃ e ∈ entries, e.segments = rel) ↔
    rel = [] ∨ deep ∧ (t.node (source ++ rel)).isSome = true

variable {entries : List WalkEntry}

theorem Covers.isSome {t} {deep : Prop}
    (hcov : Covers t source deep entries) : (t.node source).isSome = true := by
  obtain ⟨e, he, hseg⟩ := (hcov.segments []).2 (.inl rfl)
  obtain ⟨n, hn, -⟩ := hcov.describes e he
  rw [hseg, List.append_nil] at hn
  rw [hn]
  rfl

end Outcome

section Ancestors

variable {h : Handler} {env : Env} {req : Request} {st : State} {source target : Path}

def unlocked (h : Handler) : Handler := { h with locking := false }

/-- The same surroundings with a FileSystem on which every call goes through. -/
def faultless (env : Env) : Env := { env with fault := fun _ => none, honest := by simp }

/-- The same source and destination, without conditions and with Depth 0. -/
def plain (req : Request) : Request :=
  { req with ifHeader := [], overwrite := [], depth := depthZero }

end Ancestors

def pathsOnly : Env :=
  ⟨fun s => some ⟨[], false, [], s, s, []⟩, fun _ => none, by simp, fun _ => 0, 0, 0⟩

end WebdavCopyMove
