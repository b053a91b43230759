import FacetFS.ByteText

/-! # The If header

The condition lists of an If header as they are parsed, and when they hold for a resource. -/
namespace WebdavIf

open ByteText

/-- A state token or an entity tag, possibly negated. -/
structure IfCondition where
  not : Bool
  isToken : Bool
  value : Text
  deriving DecidableEq

structure IfList where
  resource : Text
  conditions : List IfCondition
  deriving DecidableEq

def blank (b : UInt8) : Bool := b = 0x20 || b = 0x09

def lparen : UInt8 := 0x28
def rparen : UInt8 := 0x29
def langle : UInt8 := 0x3c
def rangle : UInt8 := 0x3e
def lbracket : UInt8 := 0x5b
def rbracket : UInt8 := 0x5d

def notWord : Text := text ['N', 'o', 't']

def scanWord : Text → Text × Text
  | [] => ([], [])
  | b :: bs =>
    if blank b || b = lparen || b = rparen || b = langle || b = lbracket then ([], b :: bs)
    else
      let r := scanWord bs
      (b :: r.1, r.2)

/-- The conditions up to the closing parenthesis, and what follows it. Each round takes at
least one byte. -/
def parseIfList : ℕ → Bool → List IfCondition → Text → Option (List IfCondition × Text)
  | 0, _, _, _ => none
  | _ + 1, _, _, [] => none
  | fuel + 1, not, conditions, b :: bs =>
    if blank b then parseIfList fuel not conditions bs
    else if b = rparen then some (conditions, bs)
    else if b = langle then
      match cut rangle bs with
      | none => none
      | some (value, rest) => parseIfList fuel false (conditions ++ [⟨not, true, value⟩]) rest
    else if b = lbracket then
      match cut rbracket bs with
      | none => none
      | some (value, rest) => parseIfList fuel false (conditions ++ [⟨not, false, value⟩]) rest
    else
      let (word, rest) := scanWord (b :: bs)
      if equalFold word notWord then parseIfList fuel true conditions rest else none

def parseLists : ℕ → Text → List IfList → Text → Option (List IfList)
  | _, _, lists, [] => some lists
  | 0, _, _, _ => none
  | fuel + 1, resource, lists, b :: bs =>
    if blank b then parseLists fuel resource lists bs
    else if b = langle then
      match cut rangle bs with
      | none => none
      | some (tag, rest) => parseLists fuel tag lists rest
    else if b = lparen then
      match parseIfList (bs.length + 1) false [] bs with
      | none => none
      | some (conditions, rest) => parseLists fuel resource (lists ++ [⟨resource, conditions⟩]) rest
    else none

/-- The lists of a header that is present and well formed. -/
def parseIfHeader (header : Text) : Option (List IfList) :=
  let header := trimSpace header
  if header = [] then none
  else
    match parseLists header.length [] [] header with
    | none => none
    | some lists => if lists = [] then none else some lists

def ifTokens (header : Text) : List Text :=
  match parseIfHeader header with
  | none => []
  | some lists => lists.flatMap fun list => list.conditions.filterMap fun c =>
      if c.isToken && !c.not && c.value ≠ [] then some c.value else none

/-- The resource a header is evaluated against. -/
structure IfTarget where
  segments : List Text
  requestURI : Bool
  etag : Text
  tokens : List Text

def weak : Text := text ['W', '/']

def etagEqual (a b : Text) : Bool := trimPrefix a weak == trimPrefix b weak

def matchIfList (conditions : List IfCondition) (etag : Text) (heldTokens : List Text) : Bool :=
  conditions.all fun c =>
    let satisfied := if c.isToken then decide (c.value ∈ heldTokens) else etagEqual c.value etag
    satisfied != c.not

def listApplies (list : IfList) (target : IfTarget) (resolve : Text → Option (List Text)) : Bool :=
  if list.resource = [] then target.requestURI
  else resolve list.resource == some target.segments

def evaluateIf (header : Text) (target : IfTarget) (resolve : Text → Option (List Text)) : Bool :=
  match parseIfHeader header with
  | none => true
  | some lists =>
    let applicable := lists.filter (listApplies · target resolve)
    applicable.any (fun list => matchIfList list.conditions target.etag target.tokens) ||
      applicable.isEmpty

end WebdavIf
