import ShapeLedger.Category
import ShapeLedger.Expansion
import ShapeLedger.Path

/-!
Fingerprints. A reference is resolved and expanded, depth first and with the
members in declared order, and the fingerprint is the text of the tree. The
walk ends on every catalog: each composite that it opens uses up room on the
path, and between two of them it only descends into the arguments of a type.
-/

namespace ShapeLedger

namespace Descriptor

mutual

/-- The expansion of `d` below the open types of `path`. A type that is open
is only named; a composite whose definition is open too often is an error. -/
def expand (c : Catalog) (cfg : Config) (path : Path) (d : Descriptor) (hd : d.From c) :
    Except ShapeError Expansion :=
  match path.holds d.pathKey, d.category cfg with
  | true, _ => .ok (.bare d.fullName)
  | false, .leaf => .ok (.bare d.fullName)
  | false, .collection =>
    (expandAll c cfg path d.arguments hd.arguments).map (.collection d.fullName)
  | false, .composite _ members =>
    if path.expansions d.name < cfg.maxGenericNesting then
      (expandMembers c cfg (path.push d) d hd members).map (.composite d.fullName)
    else .error (.depthLimitExceeded d.fullName cfg.maxGenericNesting)
termination_by (path.room cfg.maxGenericNesting c.names, 0, sizeOf d)
decreasing_by
  · refine Prod.Lex.right _ (Prod.Lex.right _ ?_)
    cases d
    simp only [Descriptor.mk.sizeOf_spec]
    omega
  · exact Prod.Lex.left _ _ (Path.room_push_lt (NameTable.mem_names_of_find? hd.listed) ‹_›)

/-- The expansions of types that stand side by side. -/
def expandAll (c : Catalog) (cfg : Config) (path : Path) (ds : List Descriptor)
    (hds : ∀ d ∈ ds, d.From c) : Except ShapeError (List Expansion) :=
  match ds, hds with
  | [], _ => .ok []
  | d :: ds, hds =>
    match expand c cfg path d (hds d List.mem_cons_self) with
    | .error e => .error e
    | .ok e => (expandAll c cfg path ds fun x hx => hds x (List.mem_cons_of_mem _ hx)).map (e :: ·)
termination_by (path.room cfg.maxGenericNesting c.names, 0, sizeOf ds)
decreasing_by
  · refine Prod.Lex.right _ (Prod.Lex.right _ ?_)
    simp only [List.cons.sizeOf_spec]
    omega
  · refine Prod.Lex.right _ (Prod.Lex.right _ ?_)
    simp only [List.cons.sizeOf_spec]
    omega

/-- The members of `owner`, which is the innermost type of `path`, with what
their value types expand to. -/
def expandMembers (c : Catalog) (cfg : Config) (path : Path) (owner : Descriptor)
    (howner : owner.From c) (members : List Member) :
    Except ShapeError (List (String × Expansion)) :=
  match members with
  | [] => .ok []
  | m :: ms =>
    match h : m.valueType.resolve c owner.arguments (owner.fullName ++ "." ++ m.name) with
    | .error e => .error e
    | .ok d =>
      match expand c cfg path d (TypeRef.from_of_resolve howner.arguments h) with
      | .error e => .error e
      | .ok e => (expandMembers c cfg path owner howner ms).map ((m.name, e) :: ·)
termination_by (path.room cfg.maxGenericNesting c.names, 1, members.length)
decreasing_by
  · exact Prod.Lex.right _ (Prod.Lex.left _ _ Nat.zero_lt_one)
  · refine Prod.Lex.right _ (Prod.Lex.right _ ?_)
    simp

end

end Descriptor

namespace Catalog

/-- What errors of a reference that stands in no type say it is used by. -/
def entryPoint : String := "<entry>"

/-- The expansion of a reference that stands in no type. -/
def expansion (c : Catalog) (cfg : Config) (r : TypeRef) : Except ShapeError Expansion :=
  match h : r.resolve c [] entryPoint with
  | .error e => .error e
  | .ok d => d.expand c cfg [] (TypeRef.from_of_resolve (by simp) h)

/-- The fingerprint of the type that `r` refers to. -/
def fingerprint (c : Catalog) (cfg : Config) (r : TypeRef) : Except ShapeError String :=
  (c.expansion cfg r).map Expansion.body

/-- The text that `r` contributes as the value type of a member. -/
def memberFingerprint (c : Catalog) (cfg : Config) (r : TypeRef) : Except ShapeError String :=
  (c.expansion cfg r).map Expansion.render

def fingerprintOf (c : Catalog) (cfg : Config) (name : String) : Except ShapeError String :=
  c.fingerprint cfg (.named name [])

/-- The fingerprints of several types under their names. -/
def fingerprintsOf (c : Catalog) (cfg : Config) :
    List String → Except ShapeError (NameTable (Prod.fst : String × String → String))
  | names => (names.mapM fun n => (c.fingerprintOf cfg n).map (n, ·)).map
    (NameTable.ofList Prod.fst)

end Catalog

end ShapeLedger
