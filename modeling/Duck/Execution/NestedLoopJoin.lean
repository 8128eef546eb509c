import Duck.Expression.Expression
import Duck.Lib.Cursor

namespace Duck.NestedLoopJoin

-- The members of the join itself, without the two children.
structure State where
  leftBlock  : List Record := []
  rightBlock : List Record := []
  leftIt     : ℕ           := 0
  rightIt    : ℕ           := 0

def kBlockSize : ℕ :=
  24

-- The loop of `fetch_block`, with its turns to come.
def fetchBlock (op : Cursor σ String Record) : ℕ → Program σ String (List Record)
  | 0     => return []
  | n + 1 => do
    match ← op.next with
    | none        => return []
    | some record => return record :: (← fetchBlock op n)

-- A call of a child.
def onChild (x : Program σ String α) : Program (σ × State) String α :=
  .on Prod.fst (fun s t => (s, t.2)) x

def state : Program (σ × State) String State :=
  .read Prod.snd

def modify (f : State → State) : Program (σ × State) String Unit :=
  .update <| Prod.map id f

variable (left right : Cursor σ String Record) (predicate : Predicate)

-- The first part of a turn: whether there is a block from the left side.
def loadLeft : Program (σ × State) String Bool := do
  if !(← state).leftBlock.isEmpty then
    return true
  else
    let block ← onChild (fetchBlock left kBlockSize)
    modify fun s => { s with leftBlock := block }
    if block.isEmpty then
      return false
    else
      modify fun s => { s with leftIt := 0 }
      onChild right.reset
      modify fun s => { s with rightBlock := [], rightIt := 0 }
      return true

-- The second part: whether there is one from the right side.
def loadRight : Program (σ × State) String Bool := do
  let s ← state
  if s.rightIt < s.rightBlock.length then
    return true
  else
    let block ← onChild (fetchBlock right kBlockSize)
    modify fun s => { s with rightBlock := block, rightIt := 0 }
    if block.isEmpty then
      modify fun s => { s with leftBlock := [] }
      return false
    else
      return true

-- The last part: two records are compared, or there is no left one for the current right one.
def compareNext : Program (σ × State) String (Option Record) := do
  let s ← state
  match s.leftBlock[s.leftIt]? with
  | some leftRecord =>
    modify fun s => { s with leftIt := s.leftIt + 1 }
    let record := leftRecord + s.rightBlock.getD s.rightIt ⟨[]⟩
    if ← .ofExcept (predicate.accepts record) then
      return some record
    else
      return none
  | none            =>
    modify fun s => { s with leftIt := 0, rightIt := s.rightIt + 1 }
    return none

-- One turn of the loop of `next`, with the result if it is the last one.
def turn : Program (σ × State) String (Option (Option Record)) := do
  if !(← loadLeft left right) then
    return some none
  else if !(← loadRight right) then
    return none
  else
    match ← compareNext predicate with
    | some record => return some (some record)
    | none        => return none

def next : Program (σ × State) String (Option Record) :=
  .untilSome <| turn left right predicate

def reset : Program (σ × State) String Unit := do
  onChild left.reset
  onChild right.reset
  modify fun _ => {}

def cursor : Cursor (σ × State) String Record where
  reset := reset left right
  next  := next left right predicate

end Duck.NestedLoopJoin
