import KeyQuorum.Event.Basic

/-!
Filters on events: by kind, author, the values of `p` and `e` tags, and the earliest time.

An empty list asks for nothing. A list of tag values is met when some tag of that name carries
one of them right after its name.
-/

namespace KeyQuorum

structure Filter where
  kinds : List UInt16 := []
  authors : List PublicKey := []
  pTags : List String := []
  eTags : List String := []
  since : Option Timestamp := none
  deriving DecidableEq

namespace Filter

def tagMatches (name : String) (wanted : List String) (tags : List Tag) : Bool :=
  wanted.isEmpty ||
    ((Tag.all name tags).filterMap (·[1]?)).any fun v => wanted.contains v

def sinceMatches (since : Option Timestamp) (t : Timestamp) : Bool :=
  match since with
  | some s => s ≤ t
  | none => true

/-- Whether an event has what the filter asks for; its signature is not looked at. -/
def accepts (f : Filter) (e : Event) : Bool :=
  (f.kinds.isEmpty || f.kinds.contains e.draft.kind) &&
    (f.authors.isEmpty || f.authors.contains e.draft.author) &&
    tagMatches "p" f.pTags e.draft.tags && tagMatches "e" f.eTags e.draft.tags &&
    sinceMatches f.since e.draft.createdAt

/-- The filter as compact JSON, without what it does not ask for. -/
def toJson (f : Filter) : Json.Text :=
  let list (name : String) (items : List Json.Text) : List (String × Json.Text) :=
    if items.isEmpty then [] else [(name, Json.array items)]
  Json.object <|
    list "kinds" (f.kinds.map fun k => Json.number k.toNat) ++
    list "authors" (f.authors.map fun k => Json.string k.hex) ++
    list "#p" (f.pTags.map Json.string) ++
    list "#e" (f.eTags.map Json.string) ++
    f.since.toList.map fun t => ("since", Json.number t.toNat)

end Filter

end KeyQuorum
