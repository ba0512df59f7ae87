import CppExamples.Json.Value
import CppExamples.Lib.Buffer

/-!
# `Node` (`cjunk/trivialJson/json.hpp:12-108`, `json.cpp:17-77`)

The variant `SmallString | int64_t | double | ListPtr` and its serialization.

* A `SmallString` is eight bytes, which may or may not end in NUL bytes. What is printed of it is
  `std::string(str.data(), str.size()).c_str()`: the bytes up to the first NUL (`cStr`).
* `ListPtr` is a shared pointer to a vector of nodes. `nullList` is the null pointer; sharing cannot
  be seen by a function that only reads, so a list is its nodes.
* `std::to_string` of a double is the parameter `toString`. Nothing is escaped.
-/

namespace CppExamples.TrivialJson

open Lib Json

/-- `std::array<char, 8>`. -/
structure SmallString where
  data : Bytes
  size_eq : data.length = 8
  deriving DecidableEq

namespace SmallString

/-- `std::string(str.data(), str.size()).c_str()`. -/
def cStr (str : SmallString) : Bytes := str.data.takeWhile (· != 0)

/-- The string that `Node(const char *s)` stores: `length(s)` counts the final NUL, and at most
eight bytes are copied into a zeroed array. `s` is the text before the final NUL. -/
def ofChars (s : Bytes) : SmallString where
  data := (s ++ [0]).take 8 ++ List.replicate (8 - ((s ++ [0]).take 8).length) 0
  size_eq := by
    rw [List.length_append, List.length_replicate, List.length_take]
    omega

theorem takeWhile_zeros (n : Nat) : (List.replicate n (0 : UInt8)).takeWhile (· != 0) = [] := by
  cases n with
  | zero => rfl
  | succ n => rfl

/-- Up to eight characters come back. -/
theorem cStr_ofChars {s : Bytes} (hs : ∀ c ∈ s, c ≠ 0) : (ofChars s).cStr = s.take 8 := by
  have hpos : ∀ c ∈ s.take 8, (c != 0) = true := fun c hc =>
    bne_iff_ne.mpr (hs c (List.mem_of_mem_take hc))
  unfold cStr ofChars
  by_cases hlen : 8 ≤ s.length
  · simp only [List.take_append_of_le_length hlen]
    rw [List.takeWhile_append_of_pos hpos, takeWhile_zeros, List.append_nil]
  · have hshort : s.take 8 = s := List.take_of_length_le (by omega)
    have htake : (s ++ [0]).take 8 = s ++ [0] := by
      refine List.take_of_length_le ?_
      rw [List.length_append, List.length_singleton]
      omega
    rw [hshort] at hpos ⊢
    simp only [htake, List.append_assoc]
    rw [List.takeWhile_append_of_pos hpos]
    simp

/-- `Node::length`, on the memory that the pointer points to. Without a NUL it leaves the memory. -/
def length : Bytes → Option Nat
  | [] => none
  | c :: s => if c != 0 then (length s).map (· + 1) else some 1

/-- The array `d` of `Node(const char *s)`, with its `copy_n`. -/
def copied (memory : Bytes) : Option Bytes :=
  (length memory).bind fun n =>
    (Buffer.readAt memory 0 (min n 8)).bind fun bytes => Buffer.writeAt (List.replicate 8 0) 0 bytes

/-- The final NUL is counted. -/
theorem length_append_nul {s : Bytes} (hs : ∀ c ∈ s, c ≠ 0) (rest : Bytes) :
    length (s ++ 0 :: rest) = some (s.length + 1) := by
  induction s with
  | nil => rfl
  | cons c s ih =>
    rw [List.forall_mem_cons] at hs
    rw [List.cons_append, length, if_pos (bne_iff_ne.mpr hs.1), ih hs.2]
    rfl

/-- `ofChars` is what is copied, whatever stands behind the final NUL. -/
theorem copied_append_nul {s : Bytes} (hs : ∀ c ∈ s, c ≠ 0) (rest : Bytes) :
    copied (s ++ 0 :: rest) = some (ofChars s).data := by
  have hlen : (s ++ [0]).length = s.length + 1 := List.length_append
  have hmin : ((s ++ [0]).take 8).length = min (s.length + 1) 8 := by
    rw [List.length_take, hlen, Nat.min_comm]
  have htake : (s ++ 0 :: rest).take (min (s.length + 1) 8) = (s ++ [0]).take 8 := by
    rw [List.append_cons, List.take_append_of_le_length (by omega), List.take_eq_take_iff]
    omega
  rw [copied, length_append_nul hs, Option.bind_some, Buffer.copy_eq_some]
  refine ⟨?_, ?_, ?_⟩
  · rw [List.length_append, List.length_cons]
    omega
  · rw [List.length_replicate]
    exact Nat.min_le_right _ _
  · rw [htake, List.drop_replicate, ← hmin]
    rfl

end SmallString

/-- `struct Node`. -/
inductive Node (D : Type) where
  | smallString (str : SmallString)
  | int64 (i : Int64)
  | double (d : D)
  | nullList
  | list (o : List (Node D))

namespace Node

variable {D : Type}

/-- Induction over a node: the nodes of a list come first. -/
theorem induct {P : Node D → Prop} (smallString : ∀ str, P (.smallString str))
    (int64 : ∀ i, P (.int64 i)) (double : ∀ d, P (.double d)) (nullList : P .nullList)
    (list : ∀ o, (∀ t ∈ o, P t) → P (.list o)) (t : Node D) : P t :=
  @Node.rec D P (fun o => ∀ t ∈ o, P t) smallString int64 double nullList list
    (fun _ h => absurd h List.not_mem_nil)
    (fun _ _ ht hts => List.forall_mem_cons.mpr ⟨ht, hts⟩) t

section Serialize

variable (toString : D → Bytes)

mutual

/-- `Node::serialize()`, that is `JsonVisitor` on the storage. -/
def serialize : Node D → Bytes
  | .smallString str => ascii "\"" ++ str.cStr ++ ascii "\""
  | .int64 i => decimal i.toInt
  | .double d => toString d
  | .nullList => ascii "nullptr!!!"
  | .list o => ascii "[" ++ serializeList o true ++ ascii "]"

/-- The loop of `operator()(const ListPtr &o)`, with its flag. -/
def serializeList : List (Node D) → Bool → Bytes
  | [], _ => []
  | t :: ts, first =>
    (if first then [] else ascii ",") ++ serialize t ++ serializeList ts false

end

theorem serializeList_cons_false (t : Node D) (ts : List (Node D)) :
    serializeList toString (t :: ts) false = ch ',' :: serializeList toString (t :: ts) true := rfl

theorem serializeList_cons_true (t : Node D) (ts : List (Node D)) :
    serializeList toString (t :: ts) true =
      serialize toString t ++ serializeList toString ts false := rfl

end Serialize

/-! ## Properties of all nodes of a tree -/

mutual

/-- `p` holds of the leaves, and no list is null. -/
def all (p : Node D → Bool) : Node D → Bool
  | .smallString str => p (.smallString str)
  | .int64 i => p (.int64 i)
  | .double d => p (.double d)
  | .nullList => false
  | .list o => allList p o

def allList (p : Node D → Bool) : List (Node D) → Bool
  | [] => true
  | t :: ts => all p t && allList p ts

end

theorem allList_iff {p : Node D → Bool} {o : List (Node D)} :
    allList p o = true ↔ ∀ t ∈ o, t.all p = true := by
  induction o with
  | nil => simp [allList]
  | cons t ts ih => simp [allList, ih]

theorem all_list {p : Node D → Bool} {o : List (Node D)} :
    (Node.list o).all p = true ↔ ∀ t ∈ o, t.all p = true := by
  rw [all, allList_iff]

/-- A leaf that is not a double. -/
def notDouble : Node D → Bool
  | .double _ => false
  | _ => true

/-- A tree of strings, integers and lists that are not null. -/
def NoDouble (t : Node D) : Bool := t.all notDouble

mutual

/-- The value that a tree stands for: strings up to the first NUL, and the elements of a list in
order. -/
def toJson : Node D → JsonValue D
  | .smallString str => .string str.cStr
  | .int64 i => .longLong i
  | .double d => .double d
  | .nullList => .null
  | .list o => .array (toJsonList o)

def toJsonList : List (Node D) → List (JsonValue D)
  | [] => []
  | t :: ts => toJson t :: toJsonList ts

end

end Node

end CppExamples.TrivialJson
