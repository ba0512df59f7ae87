import CppExamples.Json.Value
import CppExamples.Lib.Machine
import CppExamples.Lib.Places

/-!
# Copies, moves and lifetimes of `JsonValue` (`middleware/src/nonworking_json.cpp:18-75`)

The tree of `Value.lean` is what a `JsonValue` means. Here is what it is: a variant whose array and
object alternatives are `unique_ptr`s to blocks on the heap. A program declares variables, copies,
assigns and moves values between places inside of them, and leaves scopes.

* `std::variant`'s converting assignment (`data = arg`) keeps the alternative if it is the one that
  is held. Otherwise it destroys what is held and then constructs from `arg`, unless the
  construction may throw (`std::string` from an lvalue): then a temporary is made first. Its move
  assignment does the same without the exception.
* The `unique_ptr` branches of the copy assignment make the copy first (`std::make_unique`).
* A move leaves an empty `unique_ptr` behind. To dereference it (`*arg` of the copies, `get_array()`
  and `get_object()`) is not defined (`none`), and neither is reading a slot of a block that is
  gone, or a place that does not exist. A moved-from string holds what the library left in it.
* A `get_array()` or `get_object()` of another alternative throws, and nothing changes.
* A block holds the items of a vector (with an empty key) or the entries of a map in key order.
  A place names an item or an entry by its position.

Values are moved by the move constructor and the move assignment only: the constructors from a
vector or a map that is moved in, and `push_back` of an rvalue, are left out.
-/

namespace CppExamples.Json

open Lib Lib.Machine

namespace Ownership

variable {D : Type}

/-! ## The variant on the heap -/

/-- The alternatives that are held in place. -/
inductive Scalar (D : Type) where
  | null
  | bool (b : Bool)
  | longLong (i : Int64)
  | double (d : D)
  | string (s : Bytes)

/-- The alternatives behind a `unique_ptr`. -/
inductive Kind where
  | array
  | object
  deriving DecidableEq

/-- What owns no block: an alternative held in place, or an empty `unique_ptr`. -/
inductive Payload (D : Type) where
  | scalar (a : Scalar D)
  | nullptr (k : Kind)

/-- `data`: the variant's alternative, and the `unique_ptr` of an array or an object. -/
abbrev Data (D : Type) := Owned.Ref (Payload D) Kind

abbrev Tree (P D : Type) := Owned.Tree P (Payload D) Kind Bytes

abbrev State (D : Type) := Owned.State (Payload D) Kind Bytes

open Owned (Addr Place Loc Rep getAt setAt blocksOf outsideAt)

/-- The alternatives of the variant. -/
inductive Alternative where
  | null
  | bool
  | longLong
  | double
  | string
  | pointer (k : Kind)
  deriving DecidableEq

def Scalar.index : Scalar D → Alternative
  | .null => .null
  | .bool _ => .bool
  | .longLong _ => .longLong
  | .double _ => .double
  | .string _ => .string

/-- `data.index()`. -/
def index : Data D → Alternative
  | .val (.scalar a) => a.index
  | .val (.nullptr k) => .pointer k
  | .own k _ => .pointer k

/-! ## The functions -/

/-- The copies dereference every `unique_ptr`. -/
def Payload.copyable : Payload D → Bool
  | .scalar _ => true
  | .nullptr _ => false

/-- `std::variant` in the slot `this` destroys what it holds. Nothing reads the slot before the next
alternative is constructed in it. -/
def destroy (s : State D) (this : Loc) : Option (State D) := do
  let held ← s.read this
  let heap ← s.heap.free held
  Owned.State.write ⟨heap, s.vars⟩ this (.val (.scalar .null))

/-- `std::variant` in the slot `this`: destroy what it holds, then construct `data` in it. -/
def emplace (s : State D) (this : Loc) (data : Data D) : Option (State D) := do
  let s ← destroy s this
  s.write this data

/-- `JsonValue(const JsonValue& other)`: the new state and what the new value holds. -/
def copyConstruct (s : State D) (other : Loc) : Option (State D × Data D) := do
  let arg ← s.read other
  let (heap, data) ← s.heap.copy Payload.copyable arg
  return (⟨heap, s.vars⟩, data)

/-- `data = arg` for an alternative that is copied without a chance to throw. If another one is
held, it is destroyed before `arg`, which is a reference to the slot `other`, is read. -/
def assignScalar (s : State D) (this other : Loc) (arg : Scalar D) : Option (State D) := do
  let held ← s.read this
  if index held = arg.index then s.write this (.val (.scalar arg))
  else
    let s ← destroy s this
    let arg ← s.read other
    s.write this arg

/-- `JsonValue& operator=(const JsonValue& other)`. -/
def copyAssign (s : State D) (this other : Loc) : Option (State D) :=
  if this = other then some s
  else do
    match ← s.read other with
    | .own _ _ =>
      let (s, data) ← copyConstruct s other
      emplace s this data
    | .val (.nullptr _) => none
    | .val (.scalar (.string str)) => emplace s this (.val (.scalar (.string str)))
    | .val (.scalar arg) => assignScalar s this other arg

/-- What a move leaves behind: an empty `unique_ptr`, a string with unspecified contents (`left`),
or the same number. -/
def movedFrom (left : Bytes) : Data D → Data D
  | .own k _ => .val (.nullptr k)
  | .val (.scalar (.string _)) => .val (.scalar (.string left))
  | .val a => .val a

/-- `JsonValue(JsonValue&& other)`: the new state and what the new value holds. -/
def moveConstruct (s : State D) (other : Loc) (left : Bytes) : Option (State D × Data D) := do
  let arg ← s.read other
  let s ← s.write other (movedFrom left arg)
  return (s, arg)

/-- `std::unique_ptr`'s `operator=(unique_ptr&&)` is `reset(other.release())`: it stores the pointer
before it deletes what the old one owned. The deleter is stateless and left out. -/
def resetRelease (s : State D) (this other : Loc) (k : Kind) : Option (State D) := do
  let arg ← s.read other
  let s ← s.write other (.val (.nullptr k))
  let held ← s.read this
  let s ← s.write this arg
  let heap ← s.heap.free held
  return ⟨heap, s.vars⟩

/-- `JsonValue& operator=(JsonValue&& other)`: the variant's. Another alternative is destroyed
before `other` is read. -/
def moveAssign (s : State D) (this other : Loc) (left : Bytes) : Option (State D) := do
  let held ← s.read this
  let arg ← s.read other
  if index held = index arg then
    match index arg with
    | .pointer k => resetRelease s this other k
    | _ =>
      let s ← s.write this arg
      s.write other (movedFrom left arg)
  else
    let s ← destroy s this
    let (s, data) ← moveConstruct s other left
    s.write this data

/-- `get_array().push_back(other)`. -/
def pushBack (s : State D) (this other : Loc) : Option (State D) := do
  match ← s.read this with
  | .own .array p =>
    let (s, data) ← copyConstruct s other
    let items ← s.heap.block p
    return ⟨s.heap.store p (items ++ [([], data)]), s.vars⟩
  | .val (.nullptr .array) => none
  | _ =>
    let _ ← s.read other
    return s

/-- `get_object()[key]`: a null under the key if there is none. -/
def subscript (s : State D) (this : Loc) (key : Bytes) : Option (State D) := do
  match ← s.read this with
  | .own .object p =>
    let items ← s.heap.block p
    if (OrdMap.find? items key).isSome then return s
    else return ⟨s.heap.store p (OrdMap.assign items key (.val (.scalar .null))), s.vars⟩
  | .val (.nullptr .object) => none
  | _ => return s

/-- `~JsonValue()` of the innermost variable. -/
def endScope (s : State D) : Option (State D) := do
  let data ← s.vars.getLast?
  let heap ← s.heap.free data
  return ⟨heap, s.vars.dropLast⟩

/-! ## Programs -/

/-- A statement. `declare` and `declareContainer` construct from a literal and from an empty
container; `copy` and `move` construct a variable from what is at a place. A string that is moved
from is left with `left`. -/
inductive Stmt (D : Type) where
  | declare (a : Scalar D)
  | declareContainer (k : Kind)
  | copy (src : Place)
  | move (src : Place) (left : Bytes)
  | assign (dst src : Place)
  | moveAssign (dst src : Place) (left : Bytes)
  | pushBack (dst src : Place)
  | subscript (dst : Place) (key : Bytes)
  | endScope

/-- A reference to what is at the place. -/
def refer (s : State D) (place : Place) : Option Loc := do
  let loc ← s.resolve place
  let _ ← s.read loc
  return loc

/-- One statement. -/
def step (s : State D) : Stmt D → Option (State D)
  | .declare a => some ⟨s.heap, s.vars ++ [.val (.scalar a)]⟩
  | .declareContainer k => some ⟨s.heap.alloc [], s.vars ++ [.own k s.heap.next]⟩
  | .copy src => do
    let other ← refer s src
    let (s, data) ← copyConstruct s other
    return ⟨s.heap, s.vars ++ [data]⟩
  | .move src left => do
    let other ← refer s src
    let (s, data) ← moveConstruct s other left
    return ⟨s.heap, s.vars ++ [data]⟩
  | .assign dst src => do
    let this ← refer s dst
    let other ← refer s src
    copyAssign s this other
  | .moveAssign dst src left => do
    let this ← refer s dst
    let other ← refer s src
    Ownership.moveAssign s this other left
  | .pushBack dst src => do
    let this ← refer s dst
    let other ← refer s src
    Ownership.pushBack s this other
  | .subscript dst key => do
    let this ← refer s dst
    Ownership.subscript s this key
  | .endScope => Ownership.endScope s

/-- Before the first statement. -/
def start : State D := ⟨Owned.Heap.empty, []⟩

end Ownership

end CppExamples.Json
