import CppExamples.Json.Sound

/-!
# The parser accepts exactly its grammar

* `parsesValue`: a derivable value is parsed to what it denotes, and the parser stops right after
  it, if a delimiter follows, or if nothing follows and the value is not an `unended` number. The
  proof follows the derivation; each constructor has its lemma over what the recursive calls do
  (`ParsesValue`, `ParsesItems`, `ParsesMembers`).
* `parse_newline_iff`: on a text that ends in a newline, `parse` returns a value iff the text
  without the newline is in the language and denotes it, and it throws on every other text.

Inside a container the parser is called behind white space or in front of it. Both make no
difference to it (`parseValueN_skip`, `parseString_skip`), so an item can be derived with or
without the white space in front.
-/

namespace CppExamples.Json

open Lib Lib.Cursor

variable {D : Type} {stod : Bytes → Except ConvError D}

/-! ## White space in front of a call -/

theorem skipWhitespace_idem (p : JsonParser) :
    skipWhitespace (skipWhitespace p) = skipWhitespace p :=
  skipWhitespace_eq Ws.nil (Reads.refl _) (stops_skipWhile isspace p)

theorem expect_skip (c : UInt8) (p : JsonParser) : expect c (skipWhitespace p) = expect c p := by
  simp only [expect, skipWhitespace_idem]

theorem parseString_skip (p : JsonParser) : parseString (skipWhitespace p) = parseString p := by
  simp only [parseString, expect_skip]

theorem parseValueN_skip (n : Nat) (p : JsonParser) :
    parseValueN stod n (skipWhitespace p) = parseValueN stod n p := by
  cases n with
  | zero => rfl
  | succ n => simp only [parseValueN, skipWhitespace_idem]

theorem arrayLoopN_skip (n : Nat) (p : JsonParser) (arr : List (JsonValue D)) :
    arrayLoopN stod n (skipWhitespace p) arr = arrayLoopN stod n p arr := by
  cases n with
  | zero => rfl
  | succ n => simp only [arrayLoopN, parseValueN_skip]

theorem objectLoopN_skip (n : Nat) (p : JsonParser) (obj : List (Bytes × JsonValue D)) :
    objectLoopN stod n (skipWhitespace p) obj = objectLoopN stod n p obj := by
  cases n with
  | zero => rfl
  | succ n => simp only [objectLoopN, parseString_skip]

/-! ## First bytes -/

theorem apart_valueStart_isspace : Apart valueStart isspace :=
  (((((((apart_byte rfl).or (apart_byte rfl)).or apart_isspace_isdigit.symm).or
    (apart_byte rfl)).or (apart_byte rfl)).or (apart_byte rfl)).or (apart_byte rfl)).or
    (apart_byte rfl)

/-- Behind its white space, an item list starts with a value. -/
theorem Items.head {t : Bytes} {vs : List (JsonValue D)} (h : Items stod t vs) :
    ∃ w t', Ws w ∧ t = w ++ t' ∧ Head valueStart t' := by
  cases h with
  | @one w u w' v hw hv hw' => exact ⟨w, u ++ w', hw, by simp, hv.head.append _⟩
  | @cons w u w' t v vs hw hv hw' ht =>
    exact ⟨w, u ++ (w' ++ ch ',' :: t), hw, by simp, hv.head.append _⟩

/-- Behind its white space, a member list starts with a key. -/
theorem Members.head {t : Bytes} {ms : List (Bytes × JsonValue D)} (h : Members stod t ms) :
    ∃ w t', Ws w ∧ t = w ++ t' ∧ Head (fun c => c == ch '"') t' := by
  cases h with
  | one hw hk => exact ⟨_, _, hw, by rw [List.append_assoc, List.append_assoc], hk.head.append _⟩
  | cons hw hk => exact ⟨_, _, hw, by rw [List.append_assoc, List.append_assoc], hk.head.append _⟩

/-- White space and then a delimiter start with a delimiter. -/
theorem Ws.head_delim {w : Bytes} (hw : Ws w) {t : Bytes} (ht : Head delim t) :
    Head delim (w ++ t) :=
  (Head.run (ws_iff.mp hw) ht).imp fun c hc => by
    rcases Bool.or_eq_true_iff.mp hc with hspace | hdelim
    · simp [delim, hspace]
    · exact hdelim

/-- Reading white space in front of a byte that is none. -/
theorem skip_peek {p q : JsonParser} {w : Bytes} {f : UInt8 → Bool} (hw : Ws w)
    (h : Reads p w q) (hq : Head f q.rest) (hf : Apart f isspace) :
    skipWhitespace p = q ∧ ∃ c, f c = true ∧ peek q = .ret c := by
  refine ⟨skipWhitespace_eq hw h (hq.stops hf), ?_⟩
  obtain ⟨c, s, hcs, hc⟩ := hq
  exact ⟨c, hc, peek_of_rest hcs⟩

/-- A delimiter behind white space: whatever is read in front of the white space is in front of a
delimiter, and skipping it leads to the delimiter. -/
theorem skip_to_delim {p q : JsonParser} {w s : Bytes} {d : UInt8} (hw : Ws w) (h : Reads p w q)
    (hq : q.rest = d :: s) (hd : delim d = true) (hspace : isspace d = false) :
    Head delim p.rest ∧ skipWhitespace p = q ∧ peek q = .ret d := by
  refine ⟨?_, ?_, peek_of_rest hq⟩
  · rw [h.rest, hq]
    exact hw.head_delim ⟨d, s, rfl, hd⟩
  · refine skipWhitespace_eq hw h ?_
    rw [hq]
    exact Stops.cons hspace

/-- A text in brackets: `expect` reads the opening one, and the closing one behind the text. -/
theorem exists_brackets {p q : JsonParser} {t : Bytes} {o c : UInt8} (ho : isspace o = false)
    (hc : isspace c = false) (h : Reads p (o :: t ++ [c]) q) :
    ∃ p₁ p₂, expect o p = .ret p₁ ∧ p.rest.length = 1 + p₁.rest.length ∧ Reads p₁ t p₂ ∧
      p₂.rest = c :: q.rest ∧ expect c p₂ = .ret q := by
  obtain ⟨p₁, h1, h⟩ := Reads.split (u := [o]) h
  obtain ⟨p₂, h2, h3⟩ := h.split
  exact ⟨p₁, p₂, expect_complete Ws.nil ho h1, h1.rest_length, h2, h3.rest,
    expect_complete Ws.nil hc h3⟩

/-! ## Completeness, one constructor at a time -/

/-- `u` is parsed to `v` wherever it stands in front of a delimiter. -/
def ParsesValue (stod : Bytes → Except ConvError D) (u : Bytes) (v : JsonValue D) : Prop :=
  ∀ n w p q, 3 * p.rest.length + 2 ≤ n → Ws w → Reads p (w ++ u) q → Head delim q.rest →
    parseValueN stod n p = .ret (v, q)

/-- `u` is parsed to `v` wherever what stands behind it is `ok`. -/
def ParsesBefore (stod : Bytes → Except ConvError D) (ok : Bytes → Prop) (u : Bytes)
    (v : JsonValue D) : Prop :=
  ∀ n w p q, 3 * p.rest.length + 2 ≤ n → Ws w → Reads p (w ++ u) q → ok q.rest →
    parseValueN stod n p = .ret (v, q)

theorem ParsesBefore.parsesValue {u : Bytes} {v : JsonValue D}
    (h : ParsesBefore stod (Follows u) u v) : ParsesValue stod u v :=
  fun n w p q hn hw hr hq => h n w p q hn hw hr (.inl hq)

/-- The loop of `parse_array` reads `t` up to a closing bracket and appends `vs`. -/
def ParsesItems (stod : Bytes → Except ConvError D) (t : Bytes) (vs : List (JsonValue D)) : Prop :=
  ∀ n p q s arr, 3 * p.rest.length + 3 ≤ n → Reads p t q → q.rest = ch ']' :: s →
    arrayLoopN stod n p arr = .ret (arr ++ vs, q)

/-- The loop of `parse_object` reads `t` up to a closing brace and assigns `ms`. -/
def ParsesMembers (stod : Bytes → Except ConvError D) (t : Bytes)
    (ms : List (Bytes × JsonValue D)) : Prop :=
  ∀ n p q s obj, 3 * p.rest.length + 3 ≤ n → Reads p t q → q.rest = ch '\x7d' :: s →
    objectLoopN stod n p obj = .ret (ms.foldl (fun m e => OrdMap.assign m e.1 e.2) obj, q)

variable {ok : Bytes → Prop}

/-- To parse `u`, skip the white space in front of it and look at its first byte. -/
theorem parsesValue_of_dispatch {u : Bytes} {v : JsonValue D} {f : UInt8 → Bool} (hu : Head f u)
    (hf : Apart f isspace)
    (h : ∀ n c r q, f c = true → peek r = .ret c → skipWhitespace r = r → Reads r u q →
      ok q.rest → 3 * r.rest.length + 1 ≤ n → parseValueN stod (n + 1) r = .ret (v, q)) :
    ParsesBefore stod ok u v := by
  intro n w p q hn hw hr hq
  obtain ⟨r, hpr, hrq⟩ := hr.split
  have hhead : Head f r.rest := hrq.rest ▸ hu.append _
  obtain ⟨hskip, c, hc, hpeek⟩ := skip_peek hw hpr hhead hf
  obtain ⟨n, rfl⟩ : ∃ m, n = m + 1 := ⟨n - 1, by omega⟩
  have hlen := hpr.rest_length
  rw [← parseValueN_skip, hskip]
  refine h n c r q hc hpeek ?_ hrq hq (by omega)
  rw [← hskip, skipWhitespace_idem]

theorem parsesValue_string {u s : Bytes} (hu : StringLit u s) :
    ParsesBefore stod ok u (.string s) := by
  refine parsesValue_of_dispatch hu.head (apart_byte rfl) ?_
  intro n c r q hc hpeek hskip hr _ _
  have hstr : parseString r = .ret (s, q) := parseString_complete Ws.nil hu hr
  simp [parseValueN, hskip, hpeek, eq_of_beq hc, hstr]

theorem parsesValue_number {u : Bytes} {v : JsonValue D} (hu : Number stod u v) :
    ParsesBefore stod (Follows u) u v := by
  refine parsesValue_of_dispatch hu.head ((apart_byte rfl).or apart_isspace_isdigit.symm) ?_
  intro n c r q hc hpeek hskip hr hq _
  have hq' : c ≠ ch '"' := by
    rintro rfl
    exact absurd hc (by decide)
  have hc' : c = ch '-' ∨ isdigit c = true := by simpa [numberStart] using hc
  simp only [parseValueN, hskip, hpeek, Outcome.ret_bind]
  rw [if_neg hq', if_pos hc', parseNumber_complete hu hr hq]

theorem parsesValue_literal {l : Bytes} {v : JsonValue D} {c : UInt8} (hl : Head (· == c) l)
    (hc : isspace c = false)
    (h : ∀ n r, peek r = .ret c → skipWhitespace r = r →
      parseValueN stod (n + 1) r = parseLiteral l v r) : ParsesBefore stod ok l v := by
  refine parsesValue_of_dispatch hl (fun x hx => eq_of_beq hx ▸ hc) ?_
  intro n x r q hx hpeek hskip hr _ _
  obtain rfl := eq_of_beq hx
  rw [h n r hpeek hskip, parseLiteral_complete v hr]

/-- An array value is what `parse_array` returns. -/
theorem parsesValue_array {u : Bytes} {v : JsonValue D} (hu : Head (· == ch '[') u)
    (h : ∀ n r q, Reads r u q → 3 * r.rest.length + 1 ≤ n → parseArrayN stod n r = .ret (v, q)) :
    ParsesBefore stod ok u v := by
  refine parsesValue_of_dispatch hu (apart_byte rfl) ?_
  intro n c r q hc hpeek hskip hr _ hn
  simp only [parseValueN, hskip, hpeek, Outcome.ret_bind, eq_of_beq hc]
  rw [if_neg (by decide), if_neg (by decide), if_true, h n r q hr hn]

/-- An object value is what `parse_object` returns. -/
theorem parsesValue_object {u : Bytes} {v : JsonValue D} (hu : Head (· == ch '\x7b') u)
    (h : ∀ n r q, Reads r u q → 3 * r.rest.length + 1 ≤ n → parseObjectN stod n r = .ret (v, q)) :
    ParsesBefore stod ok u v := by
  refine parsesValue_of_dispatch hu (apart_byte rfl) ?_
  intro n c r q hc hpeek hskip hr _ hn
  simp only [parseValueN, hskip, hpeek, Outcome.ret_bind, eq_of_beq hc]
  rw [if_neg (by decide), if_neg (by decide), if_neg (by decide), if_true, h n r q hr hn]

theorem parsesValue_emptyArray {w : Bytes} (hw : Ws w) :
    ParsesBefore stod ok (ch '[' :: w ++ [ch ']']) (.array []) := by
  refine parsesValue_array ⟨_, _, rfl, rfl⟩ fun n r q hr hn => ?_
  obtain ⟨n, rfl⟩ : ∃ m, n = m + 1 := ⟨n - 1, by omega⟩
  obtain ⟨p₁, p₂, e1, -, h, hclose, e2⟩ := exists_brackets rfl rfl hr
  obtain ⟨-, hskip, hpeek⟩ := skip_to_delim hw h hclose rfl rfl
  simp [parseArrayN, e1, hskip, hpeek, e2]

theorem parsesValue_emptyObject {w : Bytes} (hw : Ws w) :
    ParsesBefore stod ok (ch '\x7b' :: w ++ [ch '\x7d']) (.object []) := by
  refine parsesValue_object ⟨_, _, rfl, rfl⟩ fun n r q hr hn => ?_
  obtain ⟨n, rfl⟩ : ∃ m, n = m + 1 := ⟨n - 1, by omega⟩
  obtain ⟨p₁, p₂, e1, -, h, hclose, e2⟩ := exists_brackets rfl rfl hr
  obtain ⟨-, hskip, hpeek⟩ := skip_to_delim hw h hclose rfl rfl
  simp [parseObjectN, e1, hskip, hpeek, e2]

theorem parsesValue_items {t : Bytes} {vs : List (JsonValue D)} (ht : Items stod t vs)
    (ih : ParsesItems stod t vs) : ParsesBefore stod ok (ch '[' :: t ++ [ch ']']) (.array vs) := by
  refine parsesValue_array ⟨_, _, rfl, rfl⟩ fun n r q hr hn => ?_
  obtain ⟨n, rfl⟩ : ∃ m, n = m + 1 := ⟨n - 1, by omega⟩
  obtain ⟨p₁, p₂, e1, hlen, h2, hclose, e3⟩ := exists_brackets rfl rfl hr
  -- the byte `parse_array` peeks at is the first one of the first item
  obtain ⟨w, t', hw, rfl, hhead⟩ := ht.head
  obtain ⟨p₁', h2a, h2b⟩ := h2.split
  obtain ⟨hskip, c, hc, hpeek⟩ :=
    skip_peek hw h2a (h2b.rest ▸ hhead.append _) apart_valueStart_isspace
  have hne : c ≠ ch ']' := by
    rintro rfl
    exact absurd hc (by decide)
  have e2 : arrayLoopN stod n p₁' [] = .ret (vs, p₂) := by
    rw [← hskip, arrayLoopN_skip]
    exact ih n p₁ p₂ q.rest [] (by omega) h2 hclose
  simp [parseArrayN, e1, hskip, hpeek, hne, e2, e3]

theorem parsesValue_members {t : Bytes} {ms obj : List (Bytes × JsonValue D)}
    (ht : Members stod t ms) (hobj : LastWins ms obj) (ih : ParsesMembers stod t ms) :
    ParsesBefore stod ok (ch '\x7b' :: t ++ [ch '\x7d']) (.object obj) := by
  -- the map the loop builds is the one the members denote
  have hmap : OrdMap.ofMembers ms = obj := by
    refine (OrdMap.sorted_ofMembers ms).ext hobj.1 fun k => ?_
    rw [OrdMap.find?_ofMembers, hobj.2]
  refine parsesValue_object ⟨_, _, rfl, rfl⟩ fun n r q hr hn => ?_
  obtain ⟨n, rfl⟩ : ∃ m, n = m + 1 := ⟨n - 1, by omega⟩
  obtain ⟨p₁, p₂, e1, hlen, h2, hclose, e3⟩ := exists_brackets rfl rfl hr
  obtain ⟨w, t', hw, rfl, hhead⟩ := ht.head
  obtain ⟨p₁', h2a, h2b⟩ := h2.split
  obtain ⟨hskip, c, hc, hpeek⟩ :=
    skip_peek hw h2a (h2b.rest ▸ hhead.append _) (apart_byte rfl)
  have hne : c ≠ ch '\x7d' := by
    rintro rfl
    exact absurd hc (by decide)
  have e2 : objectLoopN stod n p₁' [] = .ret (obj, p₂) := by
    rw [← hskip, objectLoopN_skip, ← hmap]
    exact ih n p₁ p₂ q.rest [] (by omega) h2 hclose
  simp [parseObjectN, e1, hskip, hpeek, hne, e2, e3]

theorem parsesItems_one {w u w' : Bytes} {v : JsonValue D} (hw : Ws w) (hw' : Ws w')
    (ih : ParsesValue stod u v) : ParsesItems stod (w ++ u ++ w') [v] := by
  intro n p q s arr hn hr hq
  obtain ⟨n, rfl⟩ : ∃ m, n = m + 1 := ⟨n - 1, by omega⟩
  obtain ⟨r, h1, h2⟩ := hr.split
  obtain ⟨hdelim, hskip, hpeek⟩ := skip_to_delim hw' h2 hq rfl rfl
  have e1 : parseValueN stod n p = .ret (v, r) := ih n w p r (by omega) hw h1 hdelim
  have hne : ch ']' ≠ ch ',' := by decide
  simp [arrayLoopN, e1, hskip, hpeek, hne]

/-- One round of the loop of `parse_array`: an item and a comma. -/
theorem arrayLoopN_cons {n : Nat} {w u w' : Bytes} {v : JsonValue D} {p q : JsonParser}
    (hw : Ws w) (hw' : Ws w') (hu : ParsesValue stod u v) (h : Reads p (w ++ u ++ w' ++ [ch ',']) q)
    (hn : 3 * p.rest.length + 2 ≤ n) (arr : List (JsonValue D)) :
    arrayLoopN stod (n + 1) p arr = arrayLoopN stod n q (arr ++ [v]) := by
  obtain ⟨r', h12, h3⟩ := h.split
  obtain ⟨r, h1, h2⟩ := h12.split
  obtain ⟨hdelim, hskip, hpeek⟩ := skip_to_delim hw' h2 h3.rest rfl rfl
  have e1 : parseValueN stod n p = .ret (v, r) := hu n w p r hn hw h1 hdelim
  simp [arrayLoopN, e1, hskip, hpeek, consume_of_reads h3]

theorem parsesItems_cons {w u w' t : Bytes} {v : JsonValue D} {vs : List (JsonValue D)}
    (hw : Ws w) (hw' : Ws w') (ih : ParsesValue stod u v) (iht : ParsesItems stod t vs) :
    ParsesItems stod (w ++ u ++ w' ++ ch ',' :: t) (v :: vs) := by
  intro n p q s arr hn hr hq
  obtain ⟨n, rfl⟩ : ∃ m, n = m + 1 := ⟨n - 1, by omega⟩
  rw [List.append_cons] at hr
  obtain ⟨r, h1, h2⟩ := hr.split
  have hlen := h1.rest_length
  rw [List.length_append, List.length_singleton] at hlen
  rw [arrayLoopN_cons hw hw' ih h1 (by omega),
    iht n r q s (arr ++ [v]) (by omega) h2 hq, List.append_assoc, List.singleton_append]

/-- A key and its colon in the loop of `parse_object`. -/
theorem objectLoopN_key {n : Nat} {w lit k w₁ : Bytes} {p q : JsonParser} (hw : Ws w)
    (hk : StringLit lit k) (hw₁ : Ws w₁) (h : Reads p (w ++ lit ++ w₁ ++ [ch ':']) q)
    (obj : List (Bytes × JsonValue D)) :
    objectLoopN stod (n + 1) p obj = (do
      let (value, p) ← parseValueN stod n q
      let obj := OrdMap.assign obj k value
      let p := skipWhitespace p
      let c ← peek p
      if c = ch ',' then
        let (_, p) ← consume p
        objectLoopN stod n p obj
      else if c = ch '\x7d' then pure (obj, p)
      else .throw .objectSeparator) := by
  rw [List.append_assoc (w ++ lit)] at h
  obtain ⟨p₁, h1, h2⟩ := h.split
  have e1 : parseString p = .ret (k, p₁) := parseString_complete hw hk h1
  have e2 : expect (ch ':') p₁ = .ret q := expect_complete hw₁ rfl h2
  simp only [objectLoopN, e1, e2, Outcome.ret_bind]

/-- One round of the loop of `parse_object`: a member and a comma. -/
theorem objectLoopN_cons {n : Nat} {w lit k w₁ w₂ u w' : Bytes} {v : JsonValue D}
    {p q : JsonParser} (hw : Ws w) (hk : StringLit lit k) (hw₁ : Ws w₁) (hw₂ : Ws w₂)
    (hw' : Ws w') (hu : ParsesValue stod u v)
    (h : Reads p (w ++ lit ++ w₁ ++ [ch ':'] ++ (w₂ ++ u ++ w' ++ [ch ','])) q)
    (hn : 3 * p.rest.length + 2 ≤ n) (obj : List (Bytes × JsonValue D)) :
    objectLoopN stod (n + 1) p obj = objectLoopN stod n q (OrdMap.assign obj k v) := by
  obtain ⟨p₂, h2, h⟩ := h.split
  obtain ⟨p₄, h34, h5⟩ := h.split
  obtain ⟨p₃, h3, h4⟩ := h34.split
  obtain ⟨hdelim, hskip, hpeek⟩ := skip_to_delim hw' h4 h5.rest rfl rfl
  have hlen := h2.rest_length
  have e3 : parseValueN stod n p₂ = .ret (v, p₃) := hu n w₂ p₂ p₃ (by omega) hw₂ h3 hdelim
  rw [objectLoopN_key hw hk hw₁ h2]
  simp [e3, hskip, hpeek, consume_of_reads h5]

theorem parsesMembers_one {w lit k w₁ w₂ u w' : Bytes} {v : JsonValue D} (hw : Ws w)
    (hk : StringLit lit k) (hw₁ : Ws w₁) (hw₂ : Ws w₂) (hw' : Ws w')
    (ih : ParsesValue stod u v) :
    ParsesMembers stod (w ++ lit ++ w₁ ++ ch ':' :: (w₂ ++ u ++ w')) [(k, v)] := by
  intro n p q s obj hn hr hq
  obtain ⟨n, rfl⟩ : ∃ m, n = m + 1 := ⟨n - 1, by omega⟩
  rw [List.append_cons] at hr
  obtain ⟨p₂, h2, hr⟩ := hr.split
  obtain ⟨p₃, h3, h4⟩ := hr.split
  obtain ⟨hdelim, hskip, hpeek⟩ := skip_to_delim hw' h4 hq rfl rfl
  have hlen := h2.rest_length
  have e3 : parseValueN stod n p₂ = .ret (v, p₃) := ih n w₂ p₂ p₃ (by omega) hw₂ h3 hdelim
  have hne : ch '\x7d' ≠ ch ',' := by decide
  rw [objectLoopN_key hw hk hw₁ h2]
  simp [e3, hskip, hpeek, hne]

theorem parsesMembers_cons {w lit k w₁ w₂ u w' t : Bytes} {v : JsonValue D}
    {ms : List (Bytes × JsonValue D)} (hw : Ws w) (hk : StringLit lit k) (hw₁ : Ws w₁)
    (hw₂ : Ws w₂) (hw' : Ws w') (ih : ParsesValue stod u v) (iht : ParsesMembers stod t ms) :
    ParsesMembers stod (w ++ lit ++ w₁ ++ ch ':' :: (w₂ ++ u ++ w' ++ ch ',' :: t))
      ((k, v) :: ms) := by
  intro n p q s obj hn hr hq
  obtain ⟨n, rfl⟩ : ∃ m, n = m + 1 := ⟨n - 1, by omega⟩
  have hshape : w ++ lit ++ w₁ ++ ch ':' :: (w₂ ++ u ++ w' ++ ch ',' :: t) =
      w ++ lit ++ w₁ ++ [ch ':'] ++ (w₂ ++ u ++ w' ++ [ch ',']) ++ t := by simp
  rw [hshape] at hr
  obtain ⟨r, h1, h2⟩ := hr.split
  have hlen := h1.rest_length
  simp only [List.length_append, List.length_singleton] at hlen
  rw [objectLoopN_cons hw hk hw₁ hw₂ hw' ih h1 (by omega),
    iht n r q s (OrdMap.assign obj k v) (by omega) h2 hq, List.foldl_cons]

/-- **Every derivable value is parsed**, in front of a delimiter or at the end of the input, with
the parser left right behind it. Only an `unended` number needs the delimiter. -/
theorem parsesValue {u : Bytes} {v : JsonValue D} (h : Value stod u v) :
    ParsesBefore stod (Follows u) u v :=
  @Value.rec D stod (fun u v _ => ParsesBefore stod (Follows u) u v)
    (fun t vs _ => ParsesItems stod t vs) (fun t ms _ => ParsesMembers stod t ms)
    parsesValue_string
    parsesValue_number
    parsesValue_emptyArray
    parsesValue_items
    parsesValue_emptyObject
    parsesValue_members
    (parsesValue_literal (c := ch 't') ⟨_, ascii "rue", rfl, rfl⟩ (by decide)
      fun n r hpeek hskip => by simp only [parseValueN, hskip, hpeek, Outcome.ret_bind]; rfl)
    (parsesValue_literal (c := ch 'f') ⟨_, ascii "alse", rfl, rfl⟩ (by decide)
      fun n r hpeek hskip => by simp only [parseValueN, hskip, hpeek, Outcome.ret_bind]; rfl)
    (parsesValue_literal (c := ch 'n') ⟨_, ascii "ull", rfl, rfl⟩ (by decide)
      fun n r hpeek hskip => by simp only [parseValueN, hskip, hpeek, Outcome.ret_bind]; rfl)
    (fun hw _ hw' ih => parsesItems_one hw hw' ih.parsesValue)
    (fun hw _ hw' _ ih iht => parsesItems_cons hw hw' ih.parsesValue iht)
    (fun hw hk hw₁ hw₂ _ hw' ih => parsesMembers_one hw hk hw₁ hw₂ hw' ih.parsesValue)
    (fun hw hk hw₁ hw₂ _ hw' _ ih iht =>
      parsesMembers_cons hw hk hw₁ hw₂ hw' ih.parsesValue iht)
    u v h

/-- `parse_value` on a derivable value behind white space and in front of what can follow it. -/
theorem parseValue_complete {u : Bytes} {v : JsonValue D} (hu : Value stod u v) {w : Bytes}
    (hw : Ws w) {p q : JsonParser} (h : Reads p (w ++ u) q) (hq : Follows u q.rest) :
    parseValue stod p = .ret (v, q) :=
  parsesValue hu (fuel p) w p q (by unfold fuel; omega) hw h hq

/-! ## Whole texts -/

/-- `parse` returns what `parse_value` returns, if only white space is left. -/
theorem parse_eq_ret_iff {json : Bytes} {v : JsonValue D} :
    parse stod json = .ret v ↔
      ∃ q, parseValue stod (Cursor.start json) = .ret (v, q) ∧ Ws q.rest := by
  constructor
  · intro h
    obtain ⟨⟨v', q⟩, hv, h⟩ := Outcome.bind_eq_ret_iff.mp h
    obtain ⟨w, hw, hr, -⟩ := exists_skipWhitespace q
    simp only at h
    split at h
    · exact absurd h (by simp)
    · rename_i hpos
      obtain rfl := Outcome.ret.inj h
      have hend : (skipWhitespace q).rest = [] :=
        rest_eq_nil _ (by rw [not_not.mp hpos]; exact Nat.lt_irrefl _)
      refine ⟨q, hv, ?_⟩
      rw [hr.rest, hend, List.append_nil]
      exact hw
  · rintro ⟨q, hv, hw⟩
    obtain ⟨r, hr, hrest⟩ := exists_reads (List.append_nil q.rest).symm
    have hskip : skipWhitespace q = r :=
      skipWhitespace_eq hw hr (hrest ▸ Stops.nil _)
    have hpos : r.pos = r.text.length := by
      have hlen := r.rest_length
      rw [hrest, List.length_nil] at hlen
      have := r.pos_le
      omega
    simp [parse, hv, hskip, hpos]

theorem parse_ne_timeout (json : Bytes) : parse stod json ≠ .timeout := by
  refine Outcome.bind_ne_timeout (parseValue_ne_timeout _) fun ⟨v, q⟩ _ => ?_
  simp only
  split <;> simp

/-- Every byte of a number token is one that can stand in a number. -/
theorem Number.not_isspace {u : Bytes} {v : JsonValue D} (h : Number stod u v) :
    ∀ c ∈ u, isspace c = false := by
  have hdigits : ∀ {ds : Bytes}, Digits ds → ∀ c ∈ ds, isspace c = false := fun hd c hc =>
    not_isspace_of_isdigit (digits_iff.mp hd c hc)
  have hsigned : ∀ {neg : Bool} {ds : Bytes}, Digits ds → ∀ c ∈ signed neg ds,
      isspace c = false := by
    intro neg ds hd c hc
    cases neg with
    | true =>
      rcases List.mem_cons.mp hc with rfl | hc
      · decide
      · exact hdigits hd c hc
    | false => exact hdigits hd c hc
  cases h with
  | longLong hd _ _ _ => exact hsigned hd
  | double hd _ hf he _ _ =>
    intro c hc
    rcases List.mem_append.mp hc with hc | hc
    · rcases List.mem_append.mp hc with hc | hc
      · exact hsigned hd c hc
      · cases hf with
        | none => exact absurd hc List.not_mem_nil
        | some hd' =>
          rcases List.mem_cons.mp hc with rfl | hc
          · decide
          · exact hdigits hd' c hc
    · cases he with
      | none => exact absurd hc List.not_mem_nil
      | some hE hs hd' =>
        rw [List.cons_append, List.mem_cons, List.mem_append] at hc
        rcases hc with rfl | hc | hc
        · rcases hE with rfl | rfl <;> decide
        · rcases hs with rfl | rfl | rfl
          · exact absurd hc List.not_mem_nil
          · rw [List.mem_singleton.mp hc]; decide
          · rw [List.mem_singleton.mp hc]; decide
        · exact hdigits hd' c hc

theorem not_isspace_of_concat {u : Bytes} {d c : UInt8} (hd : isspace d = false)
    (hc : (u ++ [d]).getLast? = some c) : isspace c = false := by
  rw [List.getLast?_concat, Option.some.injEq] at hc
  exact hc ▸ hd

/-- A value does not end in white space. -/
theorem Value.getLast {u : Bytes} {v : JsonValue D} (h : Value stod u v) {c : UInt8}
    (hc : u.getLast? = some c) : isspace c = false := by
  cases h with
  | string h =>
    obtain ⟨b, -, rfl⟩ := h
    exact not_isspace_of_concat rfl hc
  | number h => exact h.not_isspace c (List.mem_of_getLast? hc)
  | emptyArray | array | emptyObject | object => exact not_isspace_of_concat rfl hc
  | litTrue => exact not_isspace_of_concat (u := ascii "tru") (d := ch 'e') rfl hc
  | litFalse => exact not_isspace_of_concat (u := ascii "fals") (d := ch 'e') rfl hc
  | litNull => exact not_isspace_of_concat (u := ascii "nul") (d := ch 'l') rfl hc

/-- White space at the end of a text is behind its value. -/
theorem exists_of_append_ws {s w w₀ u w' : Bytes} {v : JsonValue D} (hw : Ws w)
    (hu : Value stod u v) (h : s ++ w = w₀ ++ u ++ w') :
    ∃ a, s = w₀ ++ u ++ a ∧ w' = a ++ w := by
  rcases List.append_eq_append_iff.mp h with ⟨a, hs, ha⟩ | ⟨a, hs, ha⟩
  · -- the value would end in the last byte of `a`, which is white space
    rcases List.eq_nil_or_concat a with rfl | ⟨a, c, rfl⟩
    · exact ⟨[], by simpa using hs.symm, by simpa using ha.symm⟩
    · have hlast := congrArg List.getLast? hs
      rw [List.concat_eq_append, ← List.append_assoc, List.getLast?_concat,
        List.getLast?_append_of_ne_nil _ hu.head.ne_nil] at hlast
      have hspace := ws_iff.mp hw c (by rw [ha]; simp)
      exact absurd (hu.getLast hlast) (by simp [hspace])
  · exact ⟨a, hs, ha⟩

/-- A text in front of a newline is read as what it denotes. -/
theorem parse_concat_newline {stod : Bytes → Except ConvError D} {s : Bytes} {v : JsonValue D} :
    parse stod (s ++ [0x0A]) = .ret v ↔ Text stod s v := by
  rw [parse_eq_ret_iff]
  constructor
  · rintro ⟨q, hv, hq⟩
    obtain ⟨w, u, hw, hu, hr⟩ := (soundAt _).value hv
    obtain ⟨a, rfl, ha⟩ := exists_of_append_ws (ws_of_all rfl) hu hr.rest
    exact ⟨w, u, a, hw, hu, fun c hc => hq c (ha ▸ List.mem_append_left _ hc), rfl⟩
  · rintro ⟨w, u, w', hw, hu, hw', rfl⟩
    have hnl : Ws [0x0A] := ws_of_all rfl
    have hrest : (Cursor.start (w ++ u ++ w' ++ [0x0A])).rest = (w ++ u) ++ (w' ++ [0x0A]) := by
      simp
    obtain ⟨q, hr, hq⟩ := exists_reads hrest
    have hdelim : Head delim q.rest := hq ▸ hw'.head_delim ⟨_, _, rfl, rfl⟩
    exact ⟨q, parseValue_complete hu hw hr (.inl hdelim), hq ▸ hw'.append hnl⟩

/-- **`parse` accepts exactly the language.** On a text that ends in a newline it returns `v` iff
the text before the newline denotes `v`, and it throws iff that text denotes nothing. -/
theorem parse_newline_iff (stod : Bytes → Except ConvError D) (s : Bytes) :
    (∀ v, parse stod (s ++ [0x0A]) = .ret v ↔ Text stod s v) ∧
      ((∃ e, parse stod (s ++ [0x0A]) = .throw e) ↔ ¬ ∃ v, Text stod s v) := by
  refine ⟨fun v => parse_concat_newline, ?_⟩
  constructor
  · rintro ⟨e, he⟩ ⟨v, hv⟩
    exact absurd (parse_concat_newline.mpr hv) (by simp [he])
  · intro hnone
    cases h : parse stod (s ++ [0x0A]) with
    | ret v => exact absurd ⟨v, parse_concat_newline.mp h⟩ hnone
    | throw e => exact ⟨e, rfl⟩
    | timeout => exact absurd h (parse_ne_timeout _)

end CppExamples.Json
