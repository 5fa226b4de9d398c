import SimplexScript.Complex.Basic

/-!
# States and sessions

A state holds the complexes at allocated addresses, the next free address, the
order in which vertices were first declared and the number of the next fresh
vertex. A session is what a run leaves behind besides its outcome: the notes on
drafts and the lines logged. Both outlast a fault. A `Noted` computation takes
and leaves notes, a `Traced` one also logs.
-/

set_option autoImplicit false

namespace SimplexScript

structure State where
  store : Table Number Complex
  nextLoc : Number
  vertexOrder : Table String Number
  freshVertexId : Number

namespace State

def empty : State := ⟨[], .zero, [], .zero⟩

/-- Addresses are counted in rounded sums, so from 2 ^ 53 on the next address stays the same. -/
def allocate (s : State) (c : Complex) : Number × State :=
  (s.nextLoc, { s with
    store := Table.set s.store s.nextLoc c
    nextLoc := s.nextLoc.add (.ofInt 1) })

def access (s : State) (address : Number) : Except Fault Complex :=
  match Table.get? s.store address with
  | some c => .ok c
  | none => .error (.uninitializedAddress address)

def update (s : State) (address : Number) (c : Complex) : Except Fault State :=
  if Table.contains s.store address then .ok { s with store := Table.set s.store address c }
  else .error (.uninitializedAddress address)

def register (order : Table String Number) (v : String) : Table String Number :=
  if Table.contains order v then order else order ++ [(v, .ofInt order.length)]

def declare (s : State) (vertices : List String) : State :=
  { s with vertexOrder := vertices.foldl register s.vertexOrder }

def numberName (id : Number) : String := "__v" ++ id.text

/-- Counts up in rounded sums to the first number that is not taken, in so many rounds. -/
def firstFree (taken : Number → Bool) : Nat → Number → Option Number
  | 0, _ => none
  | n + 1, id => if taken id then firstFree taken n (id.add (.ofInt 1)) else some id

/-- A vertex name that was never declared, and is declared by this. The order cannot hold more
different names than it has entries, so a longer search rests at a taken number and has no end. -/
def fresh (s : State) : Except Fault (String × State) :=
  let taken := fun id => Table.contains s.vertexOrder (numberName id)
  match firstFree taken (s.vertexOrder.length + 1) s.freshVertexId with
  | some id =>
    .ok (numberName id, declare { s with freshVertexId := id.add (.ofInt 1) } [numberName id])
  | none => .error .unending

/-- Forgets the addresses from `mark` on. Older complexes and the vertex order stay. -/
def rollback (s : State) (mark : Number) : State :=
  if s.nextLoc.le mark then { s with nextLoc := mark }
  else { s with store := s.store.filter (fun e => e.1.lt mark), nextLoc := mark }

end State

abbrev Noted := EStateM Fault Notes

structure Session where
  notes : Notes
  log : Array String

def Session.empty : Session := ⟨.empty, #[]⟩

abbrev Traced := EStateM Fault Session

instance {σ : Type} : MonadLift (Except Fault) (EStateM Fault σ) where
  monadLift x := fun s =>
    match x with
    | .ok a => .ok a s
    | .error e => .error e s

namespace Traced

def silent {α : Type} (x : Noted α) : Traced α := fun s =>
  match x s.notes with
  | .ok a n => .ok a { s with notes := n }
  | .error e n => .error e { s with notes := n }

def line (text : String) : Traced Unit := modify fun s => { s with log := s.log.push text }

end Traced

end SimplexScript
