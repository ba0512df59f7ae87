import CppExamples.TrivialJson.Node

/-!
# `SmallString` (`cjunk/practice/smallString.cc:12-33`)

Eight characters that are zeroed and then filled, and the size of the text found again at the first
NUL. `Node(const char *s)` of the other program (`cjunk/trivialJson/json.hpp:51-59`) copies the
final NUL with the text where it fits, and is printed through `c_str()`.

* `view_ofView`: of a text without a NUL the view is the first eight characters.
* `serialize_eq_view`: the string of a `Node` is printed as the view of the `SmallString`.
-/

namespace CppExamples.Practice

open Lib

/-- `struct SmallString`. -/
structure SmallString where
  characters : Bytes
  size_eq : characters.length = 8

namespace SmallString

/-- `SmallString(std::string_view str)`. -/
def ofView (str : Bytes) : SmallString where
  characters := str.take (min str.length 8) ++ (List.replicate 8 0).drop (min str.length 8)
  size_eq := by
    rw [List.length_append, List.length_take, List.length_drop, List.length_replicate]
    omega

/-- `size()`: the place of the first NUL, or the end. -/
def size (s : SmallString) : Nat := s.characters.idxOf 0

/-- `operator*`. -/
def view (s : SmallString) : Bytes := s.characters.take s.size

/-- The copy of a text and the zeros behind it: the first NUL is where the copy ends. -/
theorem size_ofView {str : Bytes} (h : ∀ c ∈ str, c ≠ 0) :
    (ofView str).size = min str.length 8 := by
  have hcopy : (0 : UInt8) ∉ str.take (min str.length 8) := fun hmem =>
    h 0 (List.mem_of_mem_take hmem) rfl
  have hzeros : ((List.replicate 8 (0 : UInt8)).drop (min str.length 8)).idxOf 0 = 0 := by
    rw [List.drop_replicate]
    cases 8 - min str.length 8 with
    | zero => rfl
    | succ n => exact List.idxOf_cons_self
  rw [size, ofView, List.idxOf_append_of_notMem hcopy, hzeros, List.length_take]
  omega

/-- Of a text without a NUL the view is the first eight characters. -/
theorem view_ofView {str : Bytes} (h : ∀ c ∈ str, c ≠ 0) :
    (ofView str).view = str.take (min 8 str.length) := by
  have hlen : (str.take (min str.length 8)).length = min str.length 8 := by
    rw [List.length_take]
    omega
  rw [view, size_ofView h, ofView, Nat.min_comm 8]
  exact List.take_left' hlen

/-- **Two small strings agree.** For a text without a NUL, and whatever stands behind its final NUL,
what `Node` copies of it is printed as the view of the `SmallString` in quotes, and the view is the
first eight characters. -/
theorem serialize_eq_view {D : Type} (toString : D → Bytes) {str : Bytes} (h : ∀ c ∈ str, c ≠ 0)
    (rest : Bytes) : ∃ node, TrivialJson.SmallString.copied (str ++ 0 :: rest) = some node.data ∧
      (TrivialJson.Node.smallString node).serialize toString =
        ascii "\"" ++ (ofView str).view ++ ascii "\"" ∧
      (ofView str).view = str.take (min 8 str.length) := by
  refine ⟨.ofChars str, TrivialJson.SmallString.copied_append_nul h rest, ?_, view_ofView h⟩
  rw [TrivialJson.Node.serialize, TrivialJson.SmallString.cStr_ofChars h, view_ofView h,
    List.take_eq_take_min]

/-- Nine characters: the last one and the final NUL are cut off. -/
theorem serialize_eq_view_nine :
    ∃ node, TrivialJson.SmallString.copied (ascii "truncated" ++ [0]) = some node.data ∧
      (TrivialJson.Node.smallString node).serialize decimal =
        ascii "\"" ++ (ofView (ascii "truncated")).view ++ ascii "\"" ∧
      (ofView (ascii "truncated")).view = (ascii "truncated").take (min 8 9) := by
  have hnul : (0 : UInt8) ∉ ascii "truncated" := by decide +kernel
  exact serialize_eq_view decimal (fun c hc hzero => hnul (hzero ▸ hc)) []

end SmallString

end CppExamples.Practice
