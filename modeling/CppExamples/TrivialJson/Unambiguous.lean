import CppExamples.Json.Injective
import CppExamples.Json.Scan
import CppExamples.TrivialJson.Node

/-!
# When the text of a `Node` determines the tree

`JsonVisitor` puts quotes around the characters of a string and escapes nothing
(`cjunk/trivialJson/json.cpp:44-51`). Inside a list the closing quote is the one in front of a comma
or a bracket, so a string that contains `",` or `"]` can be read as several elements.

* `serialize_front`: without such strings a tree can be read off the front of a text. What a tree
  stands for (`toJson`: shape, integers, strings up to the first NUL) is then determined.
* `serialize_merged`: two neighbouring strings print as one string that has the separator in it.
* `serialize_injective_of_separable` puts the two together. A string that is the whole tree is never
  ambiguous.
-/

namespace CppExamples.TrivialJson.Node

open Lib Lib.Cursor Json

variable {D : Type} {toString : D → Bytes}

/-- A leaf that does not contain what is printed between two elements or behind the last one. -/
def separable : Node D → Bool
  | .smallString str =>
    !JsonValue.occurs (ascii "\",") str.cStr && !JsonValue.occurs (ascii "\"]") str.cStr
  | _ => true

/-- All strings inside lists are separable. -/
def Separable : Node D → Bool
  | .list o => (Node.list o).all separable
  | _ => true

/-! ## First bytes -/

/-- The first byte of the text tells the alternative, and it is not a closing bracket. -/
theorem serialize_cons (toString : D → Bytes) {t : Node D} (h : t.NoDouble = true) :
    ∃ c s, serialize toString t = c :: s ∧ kindOfByte c = kind t.toJson ∧ c ≠ ch ']' := by
  cases t with
  | smallString str => exact ⟨ch '"', _, rfl, rfl, by decide⟩
  | int64 i =>
    obtain ⟨c, s, hcs, hkind⟩ := decimal_cons i.toInt
    refine ⟨c, s, hcs, hkind, ?_⟩
    rintro rfl
    have hmem : ch ']' ∈ decimal i.toInt := hcs ▸ List.mem_cons_self
    rw [decimal_eq_signed] at hmem
    have hdigit : ch ']' ∈ numeral i.toInt.natAbs := by
      unfold signed at hmem
      split at hmem
      · exact (List.mem_cons.mp hmem).resolve_left (by decide)
      · exact hmem
    exact absurd (isdigit_of_mem_numeral hdigit) (by decide)
  | double d => exact absurd h Bool.false_ne_true
  | nullList => exact absurd h Bool.false_ne_true
  | list o => exact ⟨ch '[', _, rfl, rfl, by decide⟩

theorem kind_toJson_eq {t u : Node D} (ht : t.NoDouble = true) (hu : u.NoDouble = true)
    {r r' : Bytes} (h : serialize toString t ++ r = serialize toString u ++ r') :
    kind t.toJson = kind u.toJson := by
  obtain ⟨c, s, hcs, hc, -⟩ := serialize_cons toString ht
  obtain ⟨c', s', hcs', hc', -⟩ := serialize_cons toString hu
  rw [hcs, hcs'] at h
  rw [← hc, ← hc', (List.cons.inj h).1]

/-! ## Strings at the front of a text -/

/-- The bytes that can follow an element of a list. -/
def follows (c : UInt8) : Bool := c == ch ',' || c == ch ']'

/-- Where two texts, each with a quote and then a byte that can follow, agree up to a shift by `m`,
there is no shift, or `m` begins with a quote and such a byte. -/
theorem quote_shift {m r r' : Bytes} (hr : Head follows r)
    (h : ch '"' :: r = m ++ ch '"' :: r') :
    m = [] ∧ r = r' ∨ ∃ c s, follows c = true ∧ m = ch '"' :: c :: s := by
  obtain ⟨c, s, rfl, hc⟩ := hr
  match m with
  | [] => exact .inl ⟨rfl, (List.cons.inj h).2⟩
  | [_] =>
    have hquote : c = ch '"' := (List.cons.inj (List.cons.inj h).2).1
    rw [hquote] at hc
    exact absurd hc (by decide)
  | x :: y :: m =>
    simp only [List.cons_append, List.cons.injEq] at h
    exact .inr ⟨y, m, h.2.1 ▸ hc, by rw [h.1]⟩

/-- A separable string does not contain a quote and a byte that can follow. -/
theorem separable_ne {str : SmallString} (h : (Node.smallString str : Node D).separable = true)
    {x s : Bytes} {c : UInt8} (hc : follows c = true) : str.cStr ≠ x ++ ch '"' :: c :: s := by
  intro heq
  have hoccurs := JsonValue.occurs_append [ch '"', c] x s
  have hc' : c = ch ',' ∨ c = ch ']' := by simpa [follows] using hc
  rw [separable, Bool.and_eq_true, heq] at h
  rcases hc' with rfl | rfl
  · have hno : JsonValue.occurs (ascii "\",") (x ++ ch '"' :: ch ',' :: s) = false := by
      simpa using h.1
    exact Bool.false_ne_true (hno.symm.trans hoccurs)
  · have hno : JsonValue.occurs (ascii "\"]") (x ++ ch '"' :: ch ']' :: s) = false := by
      simpa using h.2
    exact Bool.false_ne_true (hno.symm.trans hoccurs)

/-- A separable string ends at the first quote that something can follow. -/
theorem string_front {a b : SmallString} (ha : (Node.smallString a : Node D).separable = true)
    (hb : (Node.smallString b : Node D).separable = true) {r r' : Bytes} (hr : Head follows r)
    (hr' : Head follows r') (h : a.cStr ++ ch '"' :: r = b.cStr ++ ch '"' :: r') :
    a.cStr = b.cStr ∧ r = r' := by
  rcases List.append_eq_append_iff.mp h with ⟨m, hab, hm⟩ | ⟨m, hab, hm⟩
  · rcases quote_shift hr hm with ⟨rfl, hrr⟩ | ⟨c, s, hc, rfl⟩
    · exact ⟨by rw [hab, List.append_nil], hrr⟩
    · exact absurd hab (separable_ne hb hc)
  · rcases quote_shift hr' hm with ⟨rfl, hrr⟩ | ⟨c, s, hc, rfl⟩
    · exact ⟨by rw [hab, List.append_nil], hrr.symm⟩
    · exact absurd hab (separable_ne ha hc)

/-! ## Trees at the front of a text -/

/-- A tree without doubles and null lists, all of whose strings are separable. -/
def Plain (t : Node D) : Prop := t.NoDouble = true ∧ t.all separable = true

theorem Plain.list {o : List (Node D)} (h : Plain (.list o)) : ∀ t ∈ o, Plain t :=
  fun t ht => ⟨all_list.mp h.1 t ht, all_list.mp h.2 t ht⟩

/-- The text of `t` can be read off the front of a text of elements. -/
def Front (toString : D → Bytes) (t : Node D) : Prop :=
  ∀ u r r', Plain u → Head follows r → Head follows r' →
    serialize toString t ++ r = serialize toString u ++ r' → t.toJson = u.toJson ∧ r = r'

theorem follows_serializeList (o : List (Node D)) (r : Bytes) :
    Head follows (serializeList toString o false ++ ch ']' :: r) := by
  cases o with
  | nil => exact ⟨ch ']', r, rfl, rfl⟩
  | cons t ts => exact ⟨ch ',', _, rfl, rfl⟩

/-- A list that goes on does not start with its closing bracket. -/
theorem serializeList_ne_bracket {t : Node D} (ht : t.NoDouble = true) (ts : List (Node D))
    (first : Bool) (r r' : Bytes) :
    serializeList toString (t :: ts) first ++ r ≠ ch ']' :: r' := by
  intro h
  cases first with
  | false => exact absurd (List.cons.inj h).1 (by decide)
  | true =>
    obtain ⟨c, s, hcs, -, hc⟩ := serialize_cons toString ht
    rw [serializeList_cons_true, hcs] at h
    exact hc (List.cons.inj h).1

theorem list_front : ∀ {o o' : List (Node D)} {first : Bool} {r r' : Bytes},
    (∀ t ∈ o, Plain t ∧ Front toString t) → (∀ u ∈ o', Plain u) →
    serializeList toString o first ++ ch ']' :: r =
      serializeList toString o' first ++ ch ']' :: r' → toJsonList o = toJsonList o' ∧ r = r'
  | [], [], _, _, _, _, _, h => ⟨rfl, (List.cons.inj h).2⟩
  | [], u :: us, first, _, _, _, hu, h =>
    absurd h.symm (serializeList_ne_bracket (hu u List.mem_cons_self).1 us first _ _)
  | t :: ts, [], first, _, _, ht, _, h =>
    absurd h (serializeList_ne_bracket (ht t List.mem_cons_self).1.1 ts first _ _)
  | t :: ts, u :: us, _, _, _, ht, hu, h => by
    simp only [serializeList, List.append_assoc] at h
    obtain ⟨htu, hrest⟩ := (ht t List.mem_cons_self).2 u _ _ (hu u List.mem_cons_self)
      (follows_serializeList ts _) (follows_serializeList us _) (List.append_cancel_left h)
    obtain ⟨hts, hr⟩ := list_front (fun x hx => ht x (List.mem_cons_of_mem t hx))
      (fun x hx => hu x (List.mem_cons_of_mem u hx)) hrest
    exact ⟨by rw [toJsonList, toJsonList, htu, hts], hr⟩

theorem brackets_list (o : List (Node D)) (r : Bytes) :
    serialize toString (.list o) ++ r =
      ch '[' :: (serializeList toString o true ++ ch ']' :: r) := by
  have hopen : ascii "[" = [ch '['] := rfl
  have hclose : ascii "]" = [ch ']'] := rfl
  rw [serialize, hopen, hclose]
  simp

/-- **A plain tree can be read off the front of a text**, and so can what it stands for. -/
theorem serialize_front (t : Node D) (ht : Plain t) : Front toString t := by
  induction t using Node.induct with
  | smallString a =>
    intro u r r' hu hr hr' h
    have hkind := kind_toJson_eq ht.1 hu.1 h
    cases u with
    | smallString b =>
      have hquote : ascii "\"" = [ch '"'] := rfl
      simp only [serialize, hquote, List.append_assoc, List.singleton_append] at h
      obtain ⟨hab, hrr⟩ := string_front (D := D) ht.2 hu.2 hr hr' (List.cons.inj h).2
      exact ⟨congrArg JsonValue.string hab, hrr⟩
    | double d => exact absurd hu.1 Bool.false_ne_true
    | nullList => exact absurd hu.1 Bool.false_ne_true
    | _ => exact absurd hkind (by simp [kind, toJson])
  | int64 i =>
    intro u r r' hu hr hr' h
    have hkind := kind_toJson_eq ht.1 hu.1 h
    cases u with
    | int64 j =>
      have hstop : ∀ {x : Bytes}, Head follows x → Stops isdigit x := fun hx =>
        hx.stops ((apart_byte rfl).or (apart_byte rfl))
      obtain ⟨hij, hrr⟩ := decimal_front (hstop hr) (hstop hr') h
      exact ⟨congrArg JsonValue.longLong (Int64.toInt_inj.mp hij), hrr⟩
    | double d => exact absurd hu.1 Bool.false_ne_true
    | nullList => exact absurd hu.1 Bool.false_ne_true
    | _ => exact absurd hkind (by simp [kind, toJson])
  | double d => exact absurd ht.1 Bool.false_ne_true
  | nullList => exact absurd ht.1 Bool.false_ne_true
  | list o ih =>
    intro u r r' hu _ _ h
    have hkind := kind_toJson_eq ht.1 hu.1 h
    cases u with
    | list o' =>
      rw [brackets_list, brackets_list] at h
      obtain ⟨ho, hrr⟩ := list_front (fun t hmem => ⟨ht.list t hmem, ih t hmem (ht.list t hmem)⟩)
        hu.list (List.cons.inj h).2
      exact ⟨congrArg JsonValue.array ho, hrr⟩
    | double d => exact absurd hu.1 Bool.false_ne_true
    | nullList => exact absurd hu.1 Bool.false_ne_true
    | _ => exact absurd hkind (by simp [kind, toJson])

/-! ## Merged strings -/

theorem serializeList_append (pre : List (Node D)) {o o' : List (Node D)}
    (h : ∀ first, serializeList toString o first = serializeList toString o' first) :
    ∀ first, serializeList toString (pre ++ o) first = serializeList toString (pre ++ o') first := by
  induction pre with
  | nil => exact h
  | cons t pre ih =>
    intro first
    rw [List.cons_append, List.cons_append, serializeList, serializeList, ih]

theorem toJsonList_length (o : List (Node D)) : (toJsonList o).length = o.length := by
  induction o with
  | nil => rfl
  | cons t ts ih => rw [toJsonList, List.length_cons, List.length_cons, ih]

/-- A string leaf with the given characters. -/
def leaf (s : Bytes) : Node D := .smallString (.ofChars s)

theorem serialize_leaf (toString : D → Bytes) {s : Bytes} (hs : ∀ c ∈ s, c ≠ 0)
    (hlen : s.length ≤ 8) : serialize toString (leaf s) = ascii "\"" ++ s ++ ascii "\"" := by
  rw [leaf, serialize, SmallString.cStr_ofChars hs, List.take_of_length_le hlen]

/-- **Two short neighbours print like one string.** -/
theorem serialize_merged (toString : D → Bytes) (pre post : List (Node D)) {a b : Bytes}
    (ha : ∀ c ∈ a, c ≠ 0) (hb : ∀ c ∈ b, c ≠ 0) (hlen : a.length + b.length + 3 ≤ 8) :
    serialize toString (.list (pre ++ leaf a :: leaf b :: post)) =
        serialize toString (.list (pre ++ leaf (a ++ ascii "\",\"" ++ b) :: post)) ∧
      (Node.list (pre ++ leaf a :: leaf b :: post)).toJson ≠
        (Node.list (pre ++ leaf (a ++ ascii "\",\"" ++ b) :: post)).toJson := by
  have hsep : (ascii "\",\"").length = 3 := rfl
  have hab : ∀ c ∈ a ++ ascii "\",\"" ++ b, c ≠ 0 := by
    intro c hc
    rcases List.mem_append.mp hc with hc | hc
    · rcases List.mem_append.mp hc with hc | hc
      · exact ha c hc
      · have : c = ch '"' ∨ c = ch ',' ∨ c = ch '"' := by simpa [ascii] using hc
        rcases this with rfl | rfl | rfl <;> decide
    · exact hb c hc
  have hlenab : (a ++ ascii "\",\"" ++ b).length ≤ 8 := by
    rw [List.length_append, List.length_append, hsep]
    omega
  constructor
  · have hlist : ∀ first, serializeList toString (leaf a :: leaf b :: post) first =
        serializeList toString (leaf (a ++ ascii "\",\"" ++ b) :: post) first := by
      intro first
      have hquotes : ascii "\",\"" = ascii "\"" ++ (ascii "," ++ ascii "\"") := rfl
      simp only [serializeList, serialize_leaf toString ha (by omega),
        serialize_leaf toString hb (by omega), serialize_leaf toString hab hlenab]
      simp only [hquotes, List.append_assoc]
      rfl
    rw [serialize, serialize, serializeList_append pre hlist]
  · intro h
    have hlength := congrArg List.length (JsonValue.array.inj h)
    rw [toJsonList_length, toJsonList_length] at hlength
    simp at hlength

/-! ## Whole trees -/

/-- **When the text determines the tree.** It does where no string inside a list contains `",` or
`"]`, in both trees. In one tree that is not enough as soon as two neighbours in a list fit into one
string together with the separator. -/
theorem serialize_injective_of_separable (toString : D → Bytes) :
    (∀ t u : Node D, t.NoDouble = true → u.NoDouble = true → t.Separable = true →
      u.Separable = true → serialize toString t = serialize toString u → t.toJson = u.toJson) ∧
    ∀ (pre post : List (Node D)) (a b : Bytes), (∀ c ∈ a, c ≠ 0) → (∀ c ∈ b, c ≠ 0) →
      a.length + b.length + 3 ≤ 8 →
      serialize toString (.list (pre ++ leaf a :: leaf b :: post)) =
          serialize toString (.list (pre ++ leaf (a ++ ascii "\",\"" ++ b) :: post)) ∧
        (Node.list (pre ++ leaf a :: leaf b :: post)).toJson ≠
          (Node.list (pre ++ leaf (a ++ ascii "\",\"" ++ b) :: post)).toJson := by
  refine ⟨?_, fun pre post a b ha hb hlen => serialize_merged toString pre post ha hb hlen⟩
  intro t u ht hu hst hsu h
  have happ : serialize toString t ++ [] = serialize toString u ++ [] := by rw [h]
  have hkind := kind_toJson_eq ht hu happ
  cases t with
  | smallString a =>
    cases u with
    | smallString b =>
      have hab : a.cStr = b.cStr :=
        List.append_cancel_left (List.append_cancel_right h)
      exact congrArg JsonValue.string hab
    | double d => exact absurd hu Bool.false_ne_true
    | nullList => exact absurd hu Bool.false_ne_true
    | _ => exact absurd hkind (by simp [kind, toJson])
  | int64 i =>
    cases u with
    | int64 j =>
      obtain ⟨hij, -⟩ := decimal_front (Stops.nil _) (Stops.nil _) happ
      exact congrArg JsonValue.longLong (Int64.toInt_inj.mp hij)
    | double d => exact absurd hu Bool.false_ne_true
    | nullList => exact absurd hu Bool.false_ne_true
    | _ => exact absurd hkind (by simp [kind, toJson])
  | double d => exact absurd ht Bool.false_ne_true
  | nullList => exact absurd ht Bool.false_ne_true
  | list o =>
    cases u with
    | list o' =>
      rw [brackets_list, brackets_list] at happ
      have hplain : Plain (.list o) := ⟨ht, hst⟩
      have hplain' : Plain (.list o') := ⟨hu, hsu⟩
      obtain ⟨ho, -⟩ := list_front
        (fun t hmem => ⟨hplain.list t hmem, serialize_front t (hplain.list t hmem)⟩)
        hplain'.list (List.cons.inj happ).2
      exact congrArg JsonValue.array ho
    | double d => exact absurd hu Bool.false_ne_true
    | nullList => exact absurd hu Bool.false_ne_true
    | _ => exact absurd hkind (by simp [kind, toJson])

/-- Strings with quotes, commas and brackets in them, but not next to each other, are told apart. -/
theorem serialize_injective_of_separable_quote :
    serialize (fun _ : Float => []) (.list [leaf (ascii "a\"b"), leaf (ascii ",]")]) ≠
        serialize (fun _ : Float => []) (.list [leaf (ascii "a\"b,"), leaf (ascii "]")]) ∧
      serialize (fun _ : Float => []) (.list [leaf (ascii "a"), leaf (ascii "b")]) =
        serialize (fun _ : Float => []) (.list [leaf (ascii "a\",\"b")]) := by
  obtain ⟨hinj, hmerged⟩ := serialize_injective_of_separable (fun _ : Float => [])
  constructor
  · intro h
    have hjson := hinj _ _ (by decide) (by decide) (by decide) (by decide) h
    have hstr := JsonValue.string.inj (List.cons.inj (JsonValue.array.inj hjson)).1
    exact absurd hstr (by decide)
  · have ha : ∀ c ∈ ascii "a", c ≠ 0 := List.forall_mem_singleton.mpr (by decide)
    have hb : ∀ c ∈ ascii "b", c ≠ 0 := List.forall_mem_singleton.mpr (by decide)
    exact (hmerged [] [] (ascii "a") (ascii "b") ha hb (by decide)).1

/-- The list `["a", "b"]` and the list with the one string `a","b`. -/
theorem serialize_not_injective :
    let t : Node Float := .list [leaf (ascii "a"), leaf (ascii "b")]
    let u : Node Float := .list [leaf (ascii "a\",\"b")]
    t.NoDouble = true ∧ u.NoDouble = true ∧
      serialize (fun _ => []) t = serialize (fun _ => []) u ∧ t.toJson ≠ u.toJson := by
  refine ⟨by decide, by decide, by decide, ?_⟩
  intro h
  exact absurd (congrArg List.length (JsonValue.array.inj h)) (by decide)

end CppExamples.TrivialJson.Node
