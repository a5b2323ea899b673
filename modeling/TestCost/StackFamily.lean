/-!
# Families of operand stacks

Symbolic execution of a method keeps, for every place of its flow graph,
all operand stacks that can arise there. Most of them share their lower
part, so they are kept together: entries live in one arena, an entry knows
the entries below it, and a key holds the list of entries on top of its
stacks. The stacks of a key are the value lists read from the bottom along
all ways down from its top entries.

* `pop` takes a number of values off every stack of a key. It treats equal
  value lists once, in the order in which they are met, and puts back what
  a function of the list gives.
* `split` hands the stacks of a key to other keys.
* `join` gathers the stacks of several keys under one.

Entries have identity: two entries pushed separately stay two entries even
when they hold equal values above equal stacks. Joining keeps each entry
once, so identity is what the depths named by an uneven join tell.

The bottom entry, from which every stack starts, has no value and depth
`-1`; an entry has the depth of the first entry below it plus one.

Depths are signed 64-bit numbers, and so is the depth that a request asks
for: one for more than `2 ^ 63` values asks for a negative depth, which every
entry has. Such a request is followed down until a stack ends, and its fault
tells how many values were still asked for there.

## Main results

* `requiredDepth_le` — a request never asks for a greater depth than it
  needs, so no stack that has the values is refused.
-/

namespace TestCost

/-- A position in the arena of entries. -/
abbrev EntryId := Nat

/-- One value on one or more stacks. -/
structure StackEntry (α : Type) where
  value : α
  /-- The entries directly below. -/
  below : List EntryId
  depth : Int

/-- Keyed sets of stacks that share entries. The entry with identifier
`i + 1` is the `i`-th of the arena; identifier `0` is the bottom. -/
structure StackFamily (κ α : Type) where
  entries : Array (StackEntry α) := #[]
  heads : List (κ × List EntryId) := []

/-- Why an operation on a stack family was refused. -/
inductive StackFault (κ : Type) where
  /-- Some stack of the key has fewer values than were asked for;
  `requested` counts those that were still asked for when it was found. -/
  | underflow (key : κ) (requested : Nat)
  | keyNotFound (key : κ)
  /-- The stacks handed to the key differ in depth from those it has. -/
  | unevenSplit (key : κ) (depths : List Int)
  /-- The stacks of the keys differ in depth. -/
  | unevenJoin (keys : List κ) (depths : List Int)

/-- Text of a list in square brackets. -/
private def bracketed (items : List String) : String :=
  "[" ++ String.intercalate ", " items ++ "]"

/-- The fault as it is shown to a reader, given the text of a key. -/
def StackFault.message {κ : Type} (keyText : κ → String) : StackFault κ → String
  | underflow key requested =>
    "stack underflow: popping " ++ toString requested ++
      " value(s) from key " ++ keyText key
  | keyNotFound key => "key not found: " ++ keyText key
  | unevenSplit key depths => uneven (keyText key) depths
  | unevenJoin keys depths => uneven (bracketed (keys.map keyText)) depths
where
  uneven (keys : String) (depths : List Int) : String :=
    "stacks under " ++ keys ++ " have different depths: " ++
      bracketed (depths.map toString)

/-- Values met on ways down that spell the same list, bottom first, and the
entries that these ways end on. -/
structure StackRoute (α : Type) where
  values : List α
  bases : List EntryId

namespace StackFamily

variable {κ α : Type}

/-- The identifier of the bottom entry. -/
def bottom : EntryId := 0

/-- `left` followed by what `right` adds to it. -/
def union (left right : List EntryId) : List EntryId :=
  right.foldl (fun known id => if known.contains id then known
    else known ++ [id]) left

/-- The entry with this identifier; `none` for the bottom. -/
def entry? (s : StackFamily κ α) : EntryId → Option (StackEntry α)
  | 0 => none
  | id + 1 => s.entries[id]?

/-- Number of values on a stack that ends with this entry, less one. -/
def depth (s : StackFamily κ α) (id : EntryId) : Int :=
  ((s.entry? id).map StackEntry.depth).getD (-1)

/-- A new entry above the given ones. -/
def push (s : StackFamily κ α) (below : List EntryId) (value : α) :
    StackFamily κ α × EntryId :=
  let depth := ((below.head?.map s.depth).getD (-1)) + 1
  ({ s with entries := s.entries.push { value, below, depth } },
    s.entries.size + 1)

/-- Entries for all values, each above the one before, and the top ones. -/
def pushAll (s : StackFamily κ α) (below : List EntryId) :
    List α → StackFamily κ α × List EntryId
  | [] => (s, below)
  | value :: values =>
    let (s, id) := s.push below value
    s.pushAll [id] values

section Keys

variable [BEq κ]

/-- The top entries of a key. -/
def head? (s : StackFamily κ α) (key : κ) : Option (List EntryId) :=
  s.heads.lookup key

/-- The key holds stacks. -/
def contains (s : StackFamily κ α) (key : κ) : Bool := (s.head? key).isSome

def head (s : StackFamily κ α) (key : κ) :
    Except (StackFault κ) (List EntryId) :=
  match s.head? key with
  | some ids => .ok ids
  | none => .error (.keyNotFound key)

/-- Forget a key. -/
def erase (s : StackFamily κ α) (key : κ) : StackFamily κ α :=
  { s with heads := s.heads.filter fun (k, _) => !(k == key) }

/-- Give a key these top entries, whatever it had before. -/
def insert (s : StackFamily κ α) (key : κ) (ids : List EntryId) :
    StackFamily κ α :=
  { s with heads := (key, ids) :: (s.erase key).heads }

/-- Start one empty stack under a key, whatever it had before. -/
def init (s : StackFamily κ α) (key : κ) : StackFamily κ α :=
  s.insert key [bottom]

/-- Drop the stacks of a key. -/
def remove (s : StackFamily κ α) (key : κ) :
    Except (StackFault κ) (StackFamily κ α) :=
  (s.head key).map fun _ => s.erase key

end Keys

/-- Depths of entries in order, a run of equal ones given once. -/
def depthRuns (s : StackFamily κ α) (ids : List EntryId) : List Int :=
  (ids.map s.depth).foldr (fun d runs => if runs.head? = some d then runs
    else d :: runs) []

/-- All entries have one depth. -/
def isEven (s : StackFamily κ α) (ids : List EntryId) : Bool :=
  (s.depthRuns ids).length ≤ 1

/-- The number of values of a 64-bit word. -/
def wordSize : Nat := 18446744073709551616

/-- The depth that an entry must have with `count` more values asked for
below it, as a signed word. -/
def requiredDepth (count : Nat) : Int := Int.bmod count wordSize

theorem requiredDepth_le (count : Nat) : requiredDepth count ≤ count := by
  simp only [requiredDepth, Int.bmod, wordSize]
  omega

section Pop

variable [BEq α]

/-- Add a way to those already met: equal value lists share one route. -/
def addRoute (routes : List (StackRoute α)) (route : StackRoute α) :
    List (StackRoute α) :=
  match routes with
  | [] => [route]
  | known :: rest =>
    if known.values == route.values then
      { known with bases := union known.bases route.bases } :: rest
    else known :: addRoute rest route

/-- The distinct lists of `count` values on top of the stacks that end with
the given entries. -/
def routes (s : StackFamily κ α) (key : κ) :
    (count : Nat) → List EntryId → Except (StackFault κ) (List (StackRoute α))
  | 0, ids => .ok [{ values := [], bases := ids }]
  | count + 1, ids =>
    let extend (found : List (StackRoute α)) (id : EntryId) :=
      match s.entry? id with
      | none => .error (.underflow key (count + 1))
      | some entry =>
        if entry.depth < requiredDepth count then
          .error (.underflow key (count + 1))
        else (s.routes key count entry.below).map fun lower =>
          (lower.map fun r =>
            { r with values := r.values ++ [entry.value] }).foldl addRoute found
    ids.foldlM extend []

/-- Put back the values that `f` gives for each route; answers the top
entries that result. -/
def replace (s : StackFamily κ α) (f : List α → List α)
    (found : List (StackRoute α)) :
    StackFamily κ α × List EntryId :=
  found.foldl (fun (s, tops) route =>
    let (s, top) := s.pushAll route.bases (f route.values)
    (s, union tops top)) (s, [])

variable [BEq κ]

/-- Take `count` values off every stack of a key and put back what `f`
gives for them. Answers the distinct lists that were taken, bottom first
and in the order in which they are met. -/
def pop (s : StackFamily κ α) (key : κ) (count : Nat) (f : List α → List α) :
    Except (StackFault κ) (List (List α) × StackFamily κ α) := do
  let ids ← s.head key
  let found ← s.routes key count ids
  let (pushed, tops) := s.replace f found
  return (found.map StackRoute.values, pushed.insert key tops)

end Pop

section Merge

variable [BEq κ]

/-- Hand stacks to one more key. -/
def handTo (s : StackFamily κ α) (ids : List EntryId) (key : κ) :
    Except (StackFault κ) (StackFamily κ α) :=
  let merged := match s.head? key with
    | some known => union known ids
    | none => ids
  if s.isEven merged then .ok (s.insert key merged)
  else .error (.unevenSplit key (s.depthRuns merged))

/-- Hand stacks to each key in turn. A refusal stops at the key that it
concerns; the keys before it keep what they were handed. -/
def handToAll (s : StackFamily κ α) (ids : List EntryId) :
    List κ → StackFamily κ α × Except (StackFault κ) Unit
  | [] => (s, .ok ())
  | key :: keys =>
    match s.handTo ids key with
    | .ok s => s.handToAll ids keys
    | .error fault => (s, .error fault)

/-- Move the stacks of a key to each of `targets`, joining them with those
that a target has. A refusal leaves the key without its stacks. -/
def split (s : StackFamily κ α) (key : κ) (targets : List κ) :
    StackFamily κ α × Except (StackFault κ) Unit :=
  match s.head key with
  | .error fault => (s, .error fault)
  | .ok ids => (s.erase key).handToAll ids targets

/-- Gather the stacks of `keys` under `target`. -/
def join (s : StackFamily κ α) (keys : List κ) (target : κ) :
    Except (StackFault κ) (StackFamily κ α) := do
  let heads ← keys.mapM s.head
  let merged := heads.foldl union []
  if s.isEven merged then .ok ((keys.foldl erase s).insert target merged)
  else .error (.unevenJoin keys (s.depthRuns merged))

end Merge

end StackFamily

end TestCost
