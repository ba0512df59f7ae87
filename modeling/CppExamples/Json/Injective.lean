import CppExamples.Json.Value
import CppExamples.Lib.Cursor

/-!
# When the text of a value determines the value

The string branch of `serialize_json` escapes `"` and `\`, the object branch prints keys as they
are (`nonworking_json.cpp:328-336` and `:346-355`).

* `serializeJson_front`: values without doubles whose keys do not contain `": ` can be read off the
  front of a text. A key then ends at the first such separator, whatever else it contains; other
  quotes and backslashes in keys do no harm here (they do to the parser).
* `serializeJson_forged`: a key with separators in it prints as several members. So every object
  with two members or more prints like one with a single member.
* `serializeJson_injective_of_separatorFree` puts the two together.
-/

namespace CppExamples.Json

open Lib Lib.Cursor

variable {D : Type} {toString : D → Bytes}

/-! ## First bytes -/

/-- The alternative whose text starts with `c`. -/
def kindOfByte (c : UInt8) : Nat :=
  if c = ch 'n' then 0 else if c = ch 't' ∨ c = ch 'f' then 1
  else if c = ch '"' then 3 else if c = ch '[' then 4 else if c = ch '\x7b' then 5 else 2

/-- The index of the alternative, doubles apart. -/
def kind : JsonValue D → Nat
  | .null => 0
  | .bool _ => 1
  | .longLong _ => 2
  | .double _ => 2
  | .string _ => 3
  | .array _ => 4
  | .object _ => 5

theorem kindOfByte_digit {c : UInt8} : isdigit c = true → kindOfByte c = 2 :=
  forall_byte (P := fun c => isdigit c = true → kindOfByte c = 2) (by decide +kernel) c

theorem decimal_cons (z : Int) : ∃ c s, decimal z = c :: s ∧ kindOfByte c = 2 := by
  unfold decimal
  split
  · exact ⟨_, _, rfl, rfl⟩
  · obtain ⟨c, s, hcs⟩ := List.exists_cons_of_ne_nil (numeral_ne_nil z.natAbs)
    have hc : isdigit c = true := isdigit_of_mem_numeral (hcs ▸ List.mem_cons_self)
    exact ⟨c, s, hcs, kindOfByte_digit hc⟩

/-- The first byte of the text tells the alternative. -/
theorem serializeJson_cons (toString : D → Bytes) {v : JsonValue D} (hv : v.NoDouble = true)
    (k : Nat) : ∃ c s, serializeJson toString v k = c :: s ∧ kindOfByte c = kind v := by
  cases v with
  | null => exact ⟨ch 'n', ascii "ull", rfl, rfl⟩
  | bool b =>
    cases b with
    | true => exact ⟨ch 't', ascii "rue", rfl, rfl⟩
    | false => exact ⟨ch 'f', ascii "alse", rfl, rfl⟩
  | longLong i => exact decimal_cons i.toInt
  | double d => exact absurd hv Bool.false_ne_true
  | string s => exact ⟨ch '"', _, rfl, rfl⟩
  | array arr => exact ⟨ch '[', _, rfl, rfl⟩
  | object obj => exact ⟨ch '\x7b', _, rfl, rfl⟩

theorem kind_eq {v w : JsonValue D} (hv : v.NoDouble = true) (hw : w.NoDouble = true) {k : Nat}
    {t t' : Bytes} (h : serializeJson toString v k ++ t = serializeJson toString w k ++ t') :
    kind v = kind w := by
  obtain ⟨c, s, hcs, hc⟩ := serializeJson_cons toString hv k
  obtain ⟨c', s', hcs', hc'⟩ := serializeJson_cons toString hw k
  rw [hcs, hcs'] at h
  rw [← hc, ← hc', (List.cons.inj h).1]

/-! ## Numbers, strings and keys at the front of a text -/

theorem takeWhile_digits {ds t : Bytes} (hd : ∀ c ∈ ds, isdigit c = true) (ht : Stops isdigit t) :
    (ds ++ t).takeWhile isdigit = ds := by
  rw [List.takeWhile_append_of_pos hd]
  cases t with
  | nil => rw [List.takeWhile_nil, List.append_nil]
  | cons c t =>
    rw [List.takeWhile_cons_of_neg (by rw [ht c t rfl]; exact Bool.false_ne_true), List.append_nil]

theorem numeral_front {m n : Nat} {t t' : Bytes} (ht : Stops isdigit t) (ht' : Stops isdigit t')
    (h : numeral m ++ t = numeral n ++ t') : m = n ∧ t = t' := by
  have hm : (numeral m ++ t).takeWhile isdigit = numeral m :=
    takeWhile_digits (fun c hc => isdigit_of_mem_numeral hc) ht
  have hn : (numeral n ++ t').takeWhile isdigit = numeral n :=
    takeWhile_digits (fun c hc => isdigit_of_mem_numeral hc) ht'
  have hmn : numeral m = numeral n := by rw [← hm, h, hn]
  refine ⟨?_, List.append_cancel_left (hmn ▸ h)⟩
  rw [← value_numeral m, hmn, value_numeral]

theorem not_minus_of_mem_numeral {n : Nat} {t : Bytes} {s : Bytes} :
    numeral n ++ t ≠ ch '-' :: s := by
  intro h
  obtain ⟨c, r, hcr⟩ := List.exists_cons_of_ne_nil (numeral_ne_nil n)
  rw [hcr] at h
  have hc : isdigit c = true := isdigit_of_mem_numeral (hcr ▸ List.mem_cons_self)
  rw [(List.cons.inj h).1] at hc
  exact absurd hc (by decide)

theorem decimal_front {a b : Int} {t t' : Bytes} (ht : Stops isdigit t) (ht' : Stops isdigit t')
    (h : decimal a ++ t = decimal b ++ t') : a = b ∧ t = t' := by
  unfold decimal at h
  split at h <;> split at h
  · obtain ⟨hab, htt⟩ := numeral_front ht ht' (List.cons.inj h).2
    exact ⟨by omega, htt⟩
  · exact absurd h.symm not_minus_of_mem_numeral
  · exact absurd h not_minus_of_mem_numeral
  · obtain ⟨hab, htt⟩ := numeral_front ht ht' h
    exact ⟨by omega, htt⟩

theorem escapeChar_front {c c' : UInt8} {t t' : Bytes}
    (h : escapeChar c ++ t = escapeChar c' ++ t') : c = c' ∧ t = t' := by
  have hq : ascii "\\\"" = [ch '\\', ch '"'] := rfl
  have hb : ascii "\\\\" = [ch '\\', ch '\\'] := rfl
  have hne : ch '"' ≠ ch '\\' := by decide
  unfold escapeChar at h
  split at h <;> split at h <;> grind

theorem escapeChar_ne_quote (c : UInt8) (t t' : Bytes) : escapeChar c ++ t ≠ ch '"' :: t' := by
  have hne : ch '\\' ≠ ch '"' := by decide
  intro h
  unfold escapeChar at h
  split at h
  · exact hne (List.cons.inj h).1
  · rename_i hc
    split at h
    · exact hne (List.cons.inj h).1
    · exact hc (List.cons.inj h).1

/-- An escaped string ends at its first quote without a backslash. -/
theorem escape_front {s s' t t' : Bytes}
    (h : escape s ++ ch '"' :: t = escape s' ++ ch '"' :: t') : s = s' ∧ t = t' := by
  induction s generalizing s' with
  | nil =>
    cases s' with
    | nil => exact ⟨rfl, (List.cons.inj h).2⟩
    | cons c' s' =>
      rw [escape, escape, List.flatMap_cons, List.append_assoc] at h
      exact absurd h.symm (escapeChar_ne_quote _ _ _)
  | cons c s ih =>
    cases s' with
    | nil =>
      rw [escape, escape, List.flatMap_cons, List.append_assoc] at h
      exact absurd h (escapeChar_ne_quote _ _ _)
    | cons c' s' =>
      rw [escape, escape, List.flatMap_cons, List.flatMap_cons, List.append_assoc,
        List.append_assoc] at h
      obtain ⟨hc, hrest⟩ := escapeChar_front h
      obtain ⟨hs, ht⟩ := ih hrest
      exact ⟨by rw [hc, hs], ht⟩

/-- The separator does not overlap itself: where two texts with a separator in front agree up to a
shift by `m`, there is no shift, or `m` begins with the separator. -/
theorem separator_shift {m t t' : Bytes} (h : ascii "\": " ++ t = m ++ (ascii "\": " ++ t')) :
    m = [] ∧ t = t' ∨ ∃ s, m = ascii "\": " ++ s := by
  have hsep : ascii "\": " = [ch '"', ch ':', ch ' '] := rfl
  rw [hsep] at h ⊢
  match m with
  | [] => exact .inl ⟨rfl, List.append_cancel_left h⟩
  | [_] => exact absurd (List.cons.inj (List.cons.inj h).2).1 (by decide)
  | [_, _] => exact absurd (List.cons.inj (List.cons.inj (List.cons.inj h).2).2).1 (by decide)
  | _ :: _ :: _ :: s =>
    simp only [List.cons_append, List.nil_append, List.cons.injEq] at h
    exact .inr ⟨s, by simp [h.1, h.2.1, h.2.2.1]⟩

/-- A key without the separator ends at the first separator. -/
theorem key_front {a b t t' : Bytes} (ha : JsonValue.occurs (ascii "\": ") a = false)
    (hb : JsonValue.occurs (ascii "\": ") b = false)
    (h : a ++ (ascii "\": " ++ t) = b ++ (ascii "\": " ++ t')) : a = b ∧ t = t' := by
  have hlong : ∀ {x m : Bytes}, JsonValue.occurs (ascii "\": ") (x ++ m) = false →
      ¬ ∃ s, m = ascii "\": " ++ s := by
    rintro x m hx ⟨s, rfl⟩
    exact absurd (JsonValue.occurs_append _ x s) (by rw [hx]; exact Bool.false_ne_true)
  rcases List.append_eq_append_iff.mp h with ⟨m, rfl, hm⟩ | ⟨m, rfl, hm⟩
  · obtain ⟨rfl, htt⟩ := (separator_shift hm).resolve_right (hlong hb)
    exact ⟨(List.append_nil a).symm, htt⟩
  · obtain ⟨rfl, htt⟩ := (separator_shift hm).resolve_right (hlong ha)
    exact ⟨List.append_nil b, htt.symm⟩

/-! ## Items and members -/

/-- The text of `v` at level `k` can be read off the front of any text, against values satisfying
`Q`. -/
def Readable (toString : D → Bytes) (Q : JsonValue D → Prop) (k : Nat) (v : JsonValue D) : Prop :=
  ∀ w t t', Q w → Stops isdigit t → Stops isdigit t' →
    serializeJson toString v k ++ t = serializeJson toString w k ++ t' → v = w ∧ t = t'

theorem stops_items (arr : List (JsonValue D)) (k : Nat) (t : Bytes) :
    Stops isdigit (serializeItems toString arr k false ++ (ascii "\n" ++ t)) := by
  cases arr <;> exact Stops.cons (by decide)

theorem stops_members (obj : List (Bytes × JsonValue D)) (k : Nat) (t : Bytes) :
    Stops isdigit (serializeMembers toString obj k false ++ (ascii "\n" ++ t)) := by
  cases obj <;> exact Stops.cons (by decide)

/-- The line of an item starts with a blank or a comma, never with a line break. -/
theorem indent_ne_newline (k : Nat) (a b c : Bytes) (first : Bool) :
    (if first then [] else ascii ",\n") ++ (indentStr k ++ ascii "  " ++ a) ++ b ≠
      ascii "\n" ++ c := by
  intro h
  cases first with
  | false => exact absurd (List.cons.inj h).1 (by decide)
  | true =>
    cases k with
    | zero => exact absurd (List.cons.inj h).1 (by decide)
    | succ k =>
      rw [indentStr, Nat.succ_mul] at h
      exact absurd (List.cons.inj h).1 (by decide)

/-- The line of a member, with its opening quote and its separator in sight. -/
theorem serializeMembers_cons (key : Bytes) (v : JsonValue D) (ms : List (Bytes × JsonValue D))
    (k : Nat) (first : Bool) :
    serializeMembers toString ((key, v) :: ms) k first =
      (if first then [] else ascii ",\n") ++
        (indentStr k ++ ascii "  " ++
          (ch '"' :: (key ++ (ascii "\": " ++ serializeJson toString v (k + 1))))) ++
        serializeMembers toString ms k false := by
  have hquote : ascii "  \"" = ascii "  " ++ [ch '"'] := rfl
  simp only [serializeMembers, hquote, List.append_assoc, List.cons_append, List.nil_append]

theorem items_front {Q : JsonValue D → Prop} {k : Nat} {t t' : Bytes} :
    ∀ {arr arr' : List (JsonValue D)} {first : Bool},
      (∀ v ∈ arr, Readable toString Q (k + 1) v) → (∀ w ∈ arr', Q w) →
      serializeItems toString arr k first ++ (ascii "\n" ++ t) =
        serializeItems toString arr' k first ++ (ascii "\n" ++ t') → arr = arr' ∧ t = t'
  | [], [], _, _, _, h => ⟨rfl, List.append_cancel_left h⟩
  | [], _ :: _, first, _, _, h => by
    rw [serializeItems, serializeItems, List.append_assoc _ (serializeItems _ _ _ _)] at h
    exact absurd h.symm (indent_ne_newline k _ _ _ first)
  | _ :: _, [], first, _, _, h => by
    rw [serializeItems, serializeItems, List.append_assoc _ (serializeItems _ _ _ _)] at h
    exact absurd h (indent_ne_newline k _ _ _ first)
  | v :: vs, w :: ws, _, hr, hq, h => by
    simp only [serializeItems, List.append_assoc] at h
    have hitem := List.append_cancel_left (List.append_cancel_left (List.append_cancel_left h))
    obtain ⟨hv, hrest⟩ := hr v List.mem_cons_self w _ _ (hq w List.mem_cons_self)
      (stops_items vs k t) (stops_items ws k t') hitem
    obtain ⟨hvs, ht⟩ := items_front (fun x hx => hr x (List.mem_cons_of_mem v hx))
      (fun x hx => hq x (List.mem_cons_of_mem w hx)) hrest
    exact ⟨by rw [hv, hvs], ht⟩

theorem members_front {Q : JsonValue D → Prop} {k : Nat} {t t' : Bytes} :
    ∀ {obj obj' : List (Bytes × JsonValue D)} {first : Bool},
      (∀ e ∈ obj, JsonValue.occurs (ascii "\": ") e.1 = false ∧
        Readable toString Q (k + 1) e.2) →
      (∀ e ∈ obj', JsonValue.occurs (ascii "\": ") e.1 = false ∧ Q e.2) →
      serializeMembers toString obj k first ++ (ascii "\n" ++ t) =
        serializeMembers toString obj' k first ++ (ascii "\n" ++ t') → obj = obj' ∧ t = t'
  | [], [], _, _, _, h => ⟨rfl, List.append_cancel_left h⟩
  | [], (key, w) :: ms, first, _, _, h => by
    rw [serializeMembers_cons, serializeMembers, List.append_assoc _ (serializeMembers _ _ _ _)] at h
    exact absurd h.symm (indent_ne_newline k _ _ _ first)
  | (key, v) :: ms, [], first, _, _, h => by
    rw [serializeMembers_cons, serializeMembers, List.append_assoc _ (serializeMembers _ _ _ _)] at h
    exact absurd h (indent_ne_newline k _ _ _ first)
  | (key, v) :: ms, (key', w) :: ms', _, hr, hq, h => by
    simp only [serializeMembers_cons, List.append_assoc, List.cons_append] at h
    have hkeys := (List.cons.inj (List.append_cancel_left (List.append_cancel_left
      (List.append_cancel_left h)))).2
    obtain ⟨hkey, hv⟩ := hr _ List.mem_cons_self
    obtain ⟨hkey', hw⟩ := hq _ List.mem_cons_self
    obtain ⟨hk, hvalue⟩ := key_front hkey hkey' hkeys
    obtain ⟨hvw, hrest⟩ :=
      hv w _ _ hw (stops_members ms k t) (stops_members ms' k t') hvalue
    obtain ⟨hms, ht⟩ := members_front (fun x hx => hr x (List.mem_cons_of_mem _ hx))
      (fun x hx => hq x (List.mem_cons_of_mem _ hx)) hrest
    exact ⟨congrArg₂ List.cons (Prod.ext hk hvw) hms, ht⟩

/-! ## Whole values -/

/-- A value without doubles, in which no key contains the separator. -/
def Plain (v : JsonValue D) : Prop := v.NoDouble = true ∧ v.SeparatorFreeKeys = true

theorem Plain.items {arr : List (JsonValue D)} (h : Plain (.array arr)) :
    ∀ v ∈ arr, Plain v :=
  fun v hv => ⟨(JsonValue.all_array.mp h.1).2 v hv, (JsonValue.all_array.mp h.2).2 v hv⟩

theorem Plain.members {obj : List (Bytes × JsonValue D)} (h : Plain (.object obj)) :
    ∀ e ∈ obj, JsonValue.occurs (ascii "\": ") e.1 = false ∧ Plain e.2 := by
  intro e he
  obtain ⟨hkeys, hk⟩ := JsonValue.all_object.mp h.2
  have hkey := List.all_eq_true.mp hkeys e he
  exact ⟨by simpa using hkey, (JsonValue.all_object.mp h.1).2 e he, hk e he⟩

/-- The brackets of a container, around texts `x` and `y` of its entries. -/
theorem brackets_front {x y t t' l r : Bytes} {k : Nat}
    (h : l ++ x ++ (ascii "\n" ++ indentStr k ++ r) ++ t =
      l ++ y ++ (ascii "\n" ++ indentStr k ++ r) ++ t') :
    x ++ (ascii "\n" ++ (indentStr k ++ (r ++ t))) =
      y ++ (ascii "\n" ++ (indentStr k ++ (r ++ t'))) := by
  simp only [List.append_assoc] at h
  exact List.append_cancel_left h

theorem brackets_cancel {t t' r : Bytes} {k : Nat}
    (h : indentStr k ++ (r ++ t) = indentStr k ++ (r ++ t')) : t = t' :=
  List.append_cancel_left (List.append_cancel_left h)

/-- **A plain value can be read off the front of a text.** Where the text of one is followed by
something that does not prolong a number, both the value and what follows are determined. -/
theorem serializeJson_front (v : JsonValue D) :
    ∀ k, Plain v → Readable toString Plain k v := by
  induction v using JsonValue.induct with
  | null =>
    intro k hv w t t' hw _ _ h
    have hkind := kind_eq hv.1 hw.1 h
    cases w with
    | null => exact ⟨rfl, List.append_cancel_left h⟩
    | _ => exact absurd hkind (by simp [kind])
  | bool b =>
    intro k hv w t t' hw _ _ h
    have hkind := kind_eq hv.1 hw.1 h
    cases w with
    | bool b' =>
      cases b <;> cases b' <;>
        first | exact ⟨rfl, List.append_cancel_left h⟩ | exact absurd (List.cons.inj h).1 (by decide)
    | _ => exact absurd hkind (by simp [kind])
  | longLong i =>
    intro k hv w t t' hw ht ht' h
    have hkind := kind_eq hv.1 hw.1 h
    cases w with
    | longLong j =>
      obtain ⟨hij, htt⟩ := decimal_front ht ht' h
      exact ⟨congrArg _ (Int64.toInt_inj.mp hij), htt⟩
    | double d => exact absurd hw.1 Bool.false_ne_true
    | _ => exact absurd hkind (by simp [kind])
  | double d => exact fun _ hv => absurd hv.1 Bool.false_ne_true
  | string s =>
    intro k hv w t t' hw _ _ h
    have hkind := kind_eq hv.1 hw.1 h
    cases w with
    | string s' =>
      simp only [serializeJson, List.append_assoc, List.singleton_append] at h
      obtain ⟨hs, htt⟩ := escape_front (List.cons.inj h).2
      exact ⟨congrArg _ hs, htt⟩
    | _ => exact absurd hkind (by simp [kind])
  | array arr ih =>
    intro k hv w t t' hw _ _ h
    have hkind := kind_eq hv.1 hw.1 h
    cases w with
    | array arr' =>
      obtain ⟨harr, hrest⟩ := items_front (fun v hmem => ih v hmem (k + 1) (hv.items v hmem))
        hw.items (brackets_front h)
      exact ⟨congrArg _ harr, brackets_cancel hrest⟩
    | _ => exact absurd hkind (by simp [kind])
  | object obj ih =>
    intro k hv w t t' hw _ _ h
    have hkind := kind_eq hv.1 hw.1 h
    cases w with
    | object obj' =>
      have hread : ∀ e ∈ obj, JsonValue.occurs (ascii "\": ") e.1 = false ∧
          Readable toString Plain (k + 1) e.2 :=
        fun e he => ⟨(hv.members e he).1, ih e he (k + 1) (hv.members e he).2⟩
      obtain ⟨hobj, hrest⟩ := members_front hread hw.members (brackets_front h)
      exact ⟨congrArg _ hobj, brackets_cancel hrest⟩
    | _ => exact absurd hkind (by simp [kind])

/-! ## Forged members -/

/-- The one member that prints like the members `(key, v) :: ms` at level `k`: all but the last
value go into the key, quotes and separators included. -/
def forge (toString : D → Bytes) (k : Nat) (key : Bytes) (v : JsonValue D) :
    List (Bytes × JsonValue D) → Bytes × JsonValue D
  | [] => (key, v)
  | (key', v') :: ms =>
    forge toString k (key ++ ascii "\": " ++ serializeJson toString v (k + 1) ++
      (ascii ",\n" ++ indentStr k ++ ascii "  \"") ++ key') v' ms

theorem serializeMembers_forge (ms : List (Bytes × JsonValue D)) (k : Nat) (first : Bool) :
    ∀ key v, serializeMembers toString [forge toString k key v ms] k first =
      serializeMembers toString ((key, v) :: ms) k first := by
  induction ms with
  | nil => exact fun _ _ => rfl
  | cons e ms ih =>
    intro key v
    rw [forge, ih]
    simp [serializeMembers]

/-- The value of the forged member is the value of one of the members. -/
theorem forge_snd (toString : D → Bytes) (ms : List (Bytes × JsonValue D)) (k : Nat) :
    ∀ key v, (forge toString k key v ms).2 = v ∨ ∃ e ∈ ms, (forge toString k key v ms).2 = e.2 := by
  induction ms with
  | nil => exact fun _ _ => .inl rfl
  | cons e ms ih =>
    intro key v
    right
    rcases ih (key ++ ascii "\": " ++ serializeJson toString v (k + 1) ++
      (ascii ",\n" ++ indentStr k ++ ascii "  \"") ++ e.1) e.2 with hv | ⟨e', he', hv⟩
    · exact ⟨e, List.mem_cons_self, hv⟩
    · exact ⟨e', List.mem_cons_of_mem e he', hv⟩

/-- **Every object with two members or more has a double.** An object with one member prints the
same text. -/
theorem serializeJson_forged (e e' : Bytes × JsonValue D) (ms : List (Bytes × JsonValue D))
    (k : Nat) (hd : (JsonValue.object (e :: e' :: ms)).NoDouble = true)
    (ho : (JsonValue.object (e :: e' :: ms)).Ordered = true) :
    ∃ w : JsonValue D, w.NoDouble = true ∧ w.Ordered = true ∧ w ≠ .object (e :: e' :: ms) ∧
      serializeJson toString w k = serializeJson toString (.object (e :: e' :: ms)) k := by
  have hvalue : ∃ x ∈ e :: e' :: ms, (forge toString k e.1 e.2 (e' :: ms)).2 = x.2 := by
    rcases forge_snd toString (e' :: ms) k e.1 e.2 with hv | ⟨x, hx, hv⟩
    · exact ⟨e, List.mem_cons_self, hv⟩
    · exact ⟨x, List.mem_cons_of_mem e hx, hv⟩
  obtain ⟨x, hx, hv⟩ := hvalue
  refine ⟨.object [forge toString k e.1 e.2 (e' :: ms)], ?_, ?_, ?_, ?_⟩
  · refine JsonValue.all_object.mpr ⟨rfl, fun y hy => ?_⟩
    rw [List.mem_singleton.mp hy, hv]
    exact (JsonValue.all_object.mp hd).2 x hx
  · refine JsonValue.all_object.mpr ⟨?_, fun y hy => ?_⟩
    · simp [JsonValue.inKeyOrder, OrdMap.Sorted]
    · rw [List.mem_singleton.mp hy, hv]
      exact (JsonValue.all_object.mp ho).2 x hx
  · intro h
    exact absurd (congrArg List.length (JsonValue.object.inj h)) (by simp)
  · rw [serializeJson, serializeJson, serializeMembers_forge]

/-- **When the text determines the value.** It does where no key contains `": `, on both sides.
On one side that is not enough for any object with two members or more. -/
theorem serializeJson_injective_of_separatorFree (toString : D → Bytes) (k : Nat) :
    (∀ v w : JsonValue D, v.NoDouble = true → w.NoDouble = true → v.SeparatorFreeKeys = true →
      w.SeparatorFreeKeys = true → serializeJson toString v k = serializeJson toString w k → v = w) ∧
    ∀ e e' ms, (JsonValue.object (e :: e' :: ms)).NoDouble = true →
      (JsonValue.object (e :: e' :: ms)).Ordered = true →
      ∃ w : JsonValue D, w.NoDouble = true ∧ w.Ordered = true ∧ w ≠ .object (e :: e' :: ms) ∧
        serializeJson toString w k = serializeJson toString (.object (e :: e' :: ms)) k := by
  refine ⟨fun v w hv hw hkv hkw h => ?_, fun e e' ms => serializeJson_forged e e' ms k⟩
  have happ : serializeJson toString v k ++ [] = serializeJson toString w k ++ [] := by rw [h]
  exact (serializeJson_front v k ⟨hv, hkv⟩ w [] [] ⟨hw, hkw⟩ (Stops.nil _) (Stops.nil _) happ).1

/-- A key with a quote and a backslash in it prints its own text; two members do not. -/
theorem serializeJson_injective_of_separatorFree_quote :
    serializeJson (fun _ : Float => []) (.object [(ascii "a\"\\", .null)]) 1 ≠
      serializeJson (fun _ : Float => []) (.object [(ascii "a", .null)]) 1 ∧
    ∃ w : JsonValue Float, w ≠ .object [(ascii "a", .null), (ascii "b", .null)] ∧
      serializeJson (fun _ => []) w 1 =
        serializeJson (fun _ : Float => [])
          (.object [(ascii "a", .null), (ascii "b", .null)]) 1 := by
  obtain ⟨hinj, hforged⟩ := serializeJson_injective_of_separatorFree (fun _ : Float => []) 1
  constructor
  · intro h
    have heq := hinj _ _ (by decide) (by decide) (by decide) (by decide) h
    have hkey := congrArg (fun e => e.1) (List.cons.inj (JsonValue.object.inj heq)).1
    exact absurd hkey (by decide)
  · obtain ⟨w, -, -, hne, htext⟩ := hforged (ascii "a", .null) (ascii "b", .null) []
      (by decide) (by decide)
    exact ⟨w, hne, htext⟩

/-- The object `{"a": null, "b": null}` and the one with the single key `a": null,⏎  "b`. -/
theorem serializeJson_not_injective :
    let v : JsonValue Float := .object [(ascii "a", .null), (ascii "b", .null)]
    let w : JsonValue Float := .object [(ascii "a\": null,\n  \"b", .null)]
    v.NoDouble = true ∧ w.NoDouble = true ∧ v.Ordered = true ∧ w.Ordered = true ∧
      serializeJson (fun _ => []) v 0 = serializeJson (fun _ => []) w 0 ∧ v ≠ w := by
  refine ⟨by decide, by decide, by decide, by decide, by decide +kernel, ?_⟩
  intro h
  exact absurd (congrArg List.length (JsonValue.object.inj h)) (by decide)

end CppExamples.Json
