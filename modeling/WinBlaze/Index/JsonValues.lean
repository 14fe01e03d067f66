import WinBlaze.Index.ExportedPaths

/-!
# JSON values

The compact text of a value, and a reader that finds every value in its text.
-/

namespace WinBlaze

namespace CatalogText

inductive Json
  | null
  | bool (value : Bool)
  | int (value : ℤ)
  /-- A number with a fraction or an exponent, or one that is too large. -/
  | fraction (text : List Char)
  | string (text : List Char)
  | array (items : List Json)
  | object (fields : List (List Char × Json))

namespace Json

mutual

def text : Json → List Char
  | null => "null".toList
  | bool value => if value then "true".toList else "false".toList
  | int value => signedText value
  | fraction text => text
  | string text => jsonString text
  | array items => '[' :: (itemsText items ++ [']'])
  | object fields => '\x7b' :: (fieldsText fields ++ ['\x7d'])

def itemsText : List Json → List Char
  | [] => []
  | [item] => item.text
  | item :: next :: rest => item.text ++ ',' :: itemsText (next :: rest)

def fieldsText : List (List Char × Json) → List Char
  | [] => []
  | [(name, value)] => jsonString name ++ ':' :: value.text
  | (name, value) :: next :: rest =>
      jsonString name ++ ':' :: (value.text ++ ',' :: fieldsText (next :: rest))

end

/-- Numbers have 64 bits, and what is nested is not nested too deep. -/
def Plain : ℕ → Json → Prop
  | _, null => True
  | _, bool _ => True
  | _, int n => -2 ^ 63 ≤ n ∧ n < 2 ^ 64
  | _, fraction _ => False
  | _, string _ => True
  | 0, array _ => False
  | 0, object _ => False
  | depth + 1, array items => ∀ item ∈ items, Plain depth item
  | depth + 1, object fields => ∀ field ∈ fields, Plain depth field.2

/-! ## Reading -/

def isDigit (c : Char) : Bool := (Decimal.digitValue c).isSome

/-- A string behind its first quote. It has fewer than `fuel` characters. -/
def readText : ℕ → List Char → Option (List Char × List Char)
  | 0, _ => none
  | fuel + 1, text =>
      if text.head? = some '"' then some ([], text.tail)
      else (readJsonChar text).bind fun entry ↦
        (readText fuel entry.2).map fun more ↦ (entry.1 :: more.1, more.2)

def readWord (word : List Char) (value : Json) (text : List Char) : Option (Json × List Char) :=
  if word.isPrefixOf text then some (value, text.drop word.length) else none

def readInt (text : List Char) : Option (Json × List Char) :=
  let negative := text.head? = some '-'
  let unsigned := if negative then text.tail else text
  (Decimal.parseDigits (unsigned.takeWhile isDigit)).map fun n : ℕ ↦
    (int (if negative then -n else n), unsigned.dropWhile isDigit)

/-- What comes before a closing bracket at once. -/
def readClosed {α : Type} (close : Char) (text : List Char) : Option (List α × List Char) :=
  if text.head? = some close then some ([], text.tail) else none

mutual

def readValue : ℕ → List Char → Option (Json × List Char)
  | 0, _ => none
  | _ + 1, [] => none
  | fuel + 1, c :: rest =>
      if c = '"' then (readText fuel rest).map fun entry ↦ (string entry.1, entry.2)
      else if c = '[' then
        ((readItems fuel rest).or (readClosed ']' rest)).map fun entry ↦ (array entry.1, entry.2)
      else if c = '\x7b' then
        ((readFields fuel rest).or (readClosed '\x7d' rest)).map fun entry ↦ (object entry.1, entry.2)
      else if c = 'n' then readWord "ull".toList null rest
      else if c = 't' then readWord "rue".toList (bool true) rest
      else if c = 'f' then readWord "alse".toList (bool false) rest
      else readInt (c :: rest)

def readItems : ℕ → List Char → Option (List Json × List Char)
  | 0, _ => none
  | fuel + 1, text =>
      (readValue fuel text).bind fun entry ↦
        if entry.2.head? = some ',' then
          (readItems fuel entry.2.tail).map fun more ↦ (entry.1 :: more.1, more.2)
        else if entry.2.head? = some ']' then some ([entry.1], entry.2.tail)
        else none

def readFields : ℕ → List Char → Option (List (List Char × Json) × List Char)
  | 0, _ => none
  | fuel + 1, text =>
      if text.head? = some '"' then
        (readText fuel text.tail).bind fun name ↦
          if name.2.head? = some ':' then
            (readValue fuel name.2.tail).bind fun entry ↦
              if entry.2.head? = some ',' then
                (readFields fuel entry.2.tail).map fun more ↦ ((name.1, entry.1) :: more.1, more.2)
              else if entry.2.head? = some '\x7d' then some ([(name.1, entry.1)], entry.2.tail)
              else none
          else none
      else none

end

/-- The value of a line. -/
def readLine (text : List Char) : Except String Json :=
  match readValue (text.length + 1) text with
  | some (value, rest) => if rest = ['\n'] then .ok value else .error "trailing characters"
  | none => .error "expected value"

/-! ## Reading what was written -/

theorem readText_escaped {fuel : ℕ} (text rest : List Char) (hfuel : text.length < fuel) :
    readText fuel (jsonEscaped text ++ '"' :: rest) = some (text, rest) := by
  refine jsonEscaped_induction (motive := fun fuel written text ↦ readText fuel written = some (text, rest))
    (fun _ ↦ rfl) ?_ text hfuel
  intro fuel c written tail text hread hhead ih
  rw [readText, if_neg hhead, hread, Option.bind_some, ih, Option.map_some]

/-- A text behind a number. -/
def NoDigit (rest : List Char) : Prop := ∀ c, rest.head? = some c → isDigit c = false

theorem takeWhile_isDigit {digits rest : List Char} (h : ∀ c ∈ digits, isDigit c = true)
    (hrest : NoDigit rest) :
    (digits ++ rest).takeWhile isDigit = digits ∧ (digits ++ rest).dropWhile isDigit = rest := by
  rw [List.takeWhile_append_of_pos h, List.dropWhile_append_of_pos h]
  cases rest with
  | nil => exact ⟨List.append_nil _, rfl⟩
  | cons c rest =>
      have hnone : ¬ isDigit c = true := by simp [hrest c rfl]
      rw [List.takeWhile_cons_of_neg hnone, List.dropWhile_cons_of_neg hnone]
      exact ⟨List.append_nil _, rfl⟩

/-- A number starts with a digit or its sign. -/
theorem exists_signedText (n : ℤ) : ∃ c rest, signedText n = c :: rest ∧ 45 ≤ c.toNat ∧ c.toNat ≤ 57 := by
  obtain ⟨c, rest, heq, hlow, hhigh⟩ := Decimal.exists_writeDigits (show 0 < 20 by decide) n.natAbs []
  rw [signedText]
  split_ifs
  · exact ⟨'-', _, rfl, by decide, by decide⟩
  · exact ⟨c, rest, heq, le_trans (by decide) hlow, hhigh⟩

theorem readInt_signedText {n : ℤ} (hlow : -2 ^ 63 ≤ n) (hhigh : n < 2 ^ 64) {rest : List Char}
    (hrest : NoDigit rest) : readInt (signedText n ++ rest) = some (int n, rest) := by
  have hdigits : ∀ c ∈ Decimal.writeDigits 20 n.natAbs [], isDigit c = true := by
    intro c hc
    have hbounds := Decimal.digit_of_mem_writeDigits (fun _ h ↦ absurd h List.not_mem_nil) hc
    rw [isDigit, Decimal.digitValue, if_pos hbounds]
    rfl
  obtain ⟨htake, hdrop⟩ := takeWhile_isDigit hdigits hrest
  have hvalue : Decimal.parseDigits (Decimal.writeDigits 20 n.natAbs []) = some n.natAbs :=
    Decimal.parseDigits_writeDigits (by decide) (by omega)
  rw [signedText, readInt]
  by_cases hnegative : n < 0
  · have hsign : -(n.natAbs : ℤ) = n := by omega
    simp only [hnegative, if_true, List.cons_append, List.nil_append, List.head?_cons, List.tail_cons,
      htake, hdrop, hvalue, Option.map_some, hsign]
  · have hsign : (n.natAbs : ℤ) = n := by omega
    have hhead : (Decimal.writeDigits 20 n.natAbs [] ++ rest).head? ≠ some '-' := by
      obtain ⟨c, more, heq, hdigit, -⟩ := Decimal.exists_writeDigits (show 0 < 20 by decide) n.natAbs []
      rw [heq, List.cons_append, List.head?_cons]
      intro hminus
      rw [Option.some.inj hminus] at hdigit
      exact absurd hdigit (by decide)
    simp only [hnegative, if_false, List.nil_append, hhead, htake, hdrop, hvalue, Option.map_some, hsign]

theorem readWord_append (word : List Char) (value : Json) (rest : List Char) :
    readWord word value (word ++ rest) = some (value, rest) := by
  rw [readWord, if_pos (List.isPrefixOf_iff_prefix.mpr (List.prefix_append _ _)), List.drop_left]

theorem length_lt_jsonString (text : List Char) : text.length + 2 ≤ (jsonString text).length := by
  have hle := length_le_jsonEscaped text
  rw [jsonString, List.length_cons, List.length_append, List.length_singleton]
  omega

/-- A closing bracket starts no value. -/
theorem readValue_close {c : Char} (hc : c = ']' ∨ c = '\x7d') (fuel : ℕ) (rest : List Char) :
    readValue fuel (c :: rest) = none := by
  cases fuel with
  | zero => rw [readValue]
  | succ fuel =>
      rcases hc with rfl | rfl
      · rfl
      · rfl

/-- What is read with this much fuel. -/
structure Reads (fuel : ℕ) : Prop where
  value : ∀ depth value rest, Plain depth value → value.text.length < fuel → NoDigit rest →
    readValue fuel (value.text ++ rest) = some (value, rest)
  items : ∀ depth items rest, items ≠ [] → (∀ item ∈ items, Plain depth item) →
    (itemsText items).length + 1 < fuel →
    readItems fuel (itemsText items ++ ']' :: rest) = some (items, rest)
  fields : ∀ depth fields rest, fields ≠ [] → (∀ field ∈ fields, Plain depth field.2) →
    (fieldsText fields).length + 1 < fuel →
    readFields fuel (fieldsText fields ++ '\x7d' :: rest) = some (fields, rest)

theorem reads_zero : Reads 0 where
  value _ _ _ _ h _ := absurd h (Nat.not_lt_zero _)
  items _ _ _ _ _ h := absurd h (Nat.not_lt_zero _)
  fields _ _ _ _ _ h := absurd h (Nat.not_lt_zero _)

theorem Reads.readValue_succ {fuel : ℕ} (h : Reads fuel) (depth : ℕ) (value : Json) (rest : List Char)
    (hplain : Plain depth value) (hfuel : value.text.length < fuel + 1) (hrest : NoDigit rest) :
    readValue (fuel + 1) (value.text ++ rest) = some (value, rest) := by
  cases value with
  | null => exact readWord_append "ull".toList null rest
  | bool value =>
      cases value with
      | false => exact readWord_append "alse".toList (bool false) rest
      | true => exact readWord_append "rue".toList (bool true) rest
  | int n =>
      have hbounds : -2 ^ 63 ≤ n ∧ n < 2 ^ 64 := by cases depth <;> exact hplain
      have hread := readInt_signedText hbounds.1 hbounds.2 hrest
      obtain ⟨c, more, heq, hlow, hhigh⟩ := exists_signedText n
      have hother : ∀ d : Char, d.toNat < 45 ∨ 57 < d.toNat → c ≠ d := by
        rintro d hd rfl
        omega
      rw [heq, List.cons_append] at hread
      rw [text, heq, List.cons_append, readValue, if_neg (hother _ (by decide)),
        if_neg (hother _ (by decide)), if_neg (hother _ (by decide)), if_neg (hother _ (by decide)),
        if_neg (hother _ (by decide)), if_neg (hother _ (by decide)), hread]
  | fraction text => cases depth <;> exact hplain.elim
  | string written =>
      rw [text, jsonString, List.length_cons, List.length_append, List.length_singleton] at hfuel
      have hlength := length_le_jsonEscaped written
      rw [text, jsonString, List.cons_append, List.append_assoc, List.singleton_append, readValue, if_pos rfl,
        readText_escaped written rest (by omega), Option.map_some]
  | array items =>
      rw [text, List.length_cons, List.length_append, List.length_singleton] at hfuel
      rw [text, List.cons_append, List.append_assoc, List.singleton_append, readValue, if_neg (by decide),
        if_pos rfl]
      by_cases hempty : items = []
      · obtain rfl := hempty
        have hnone : readItems fuel (']' :: rest) = none := by
          cases fuel with
          | zero => rw [readItems]
          | succ fuel => rw [readItems, readValue_close (.inl rfl), Option.bind_none]
        rw [itemsText, List.nil_append, hnone]
        rfl
      · cases depth with
        | zero => exact hplain.elim
        | succ depth =>
            rw [h.items depth items rest hempty hplain (by omega), Option.some_or, Option.map_some]
  | object fields =>
      rw [text, List.length_cons, List.length_append, List.length_singleton] at hfuel
      rw [text, List.cons_append, List.append_assoc, List.singleton_append, readValue, if_neg (by decide),
        if_neg (by decide), if_pos rfl]
      by_cases hempty : fields = []
      · obtain rfl := hempty
        have hnone : readFields fuel ('\x7d' :: rest) = none := by
          cases fuel with
          | zero => rw [readFields]
          | succ fuel => rw [readFields, if_neg (by simp)]
        rw [fieldsText, List.nil_append, hnone]
        rfl
      · cases depth with
        | zero => exact hplain.elim
        | succ depth =>
            rw [h.fields depth fields rest hempty hplain (by omega), Option.some_or, Option.map_some]

theorem noDigit_cons {c : Char} (rest : List Char) (hc : isDigit c = false) : NoDigit (c :: rest) := by
  rintro d hd
  rwa [← Option.some.inj hd]

theorem Reads.readItems_succ {fuel : ℕ} (h : Reads fuel) (depth : ℕ) (items : List Json) (rest : List Char)
    (hne : items ≠ []) (hplain : ∀ item ∈ items, Plain depth item)
    (hfuel : (itemsText items).length + 1 < fuel + 1) :
    readItems (fuel + 1) (itemsText items ++ ']' :: rest) = some (items, rest) := by
  cases items with
  | nil => exact absurd rfl hne
  | cons item others =>
      have hitem := hplain item List.mem_cons_self
      cases others with
      | nil =>
          rw [itemsText] at hfuel ⊢
          rw [readItems, h.value depth item _ hitem
            (by omega) (noDigit_cons rest (by decide)), Option.bind_some]
          simp
      | cons next others =>
          rw [itemsText, List.length_append, List.length_cons] at hfuel
          have hothers := h.items depth (next :: others) rest (List.cons_ne_nil _ _)
            (fun other hother ↦ hplain other (List.mem_cons_of_mem _ hother)) (by omega)
          rw [itemsText, List.append_assoc, List.cons_append, readItems,
            h.value depth item _ hitem (by omega) (noDigit_cons _ (by decide)), Option.bind_some]
          simp [hothers]

theorem Reads.readFields_succ {fuel : ℕ} (h : Reads fuel) (depth : ℕ) (fields : List (List Char × Json))
    (rest : List Char) (hne : fields ≠ []) (hplain : ∀ field ∈ fields, Plain depth field.2)
    (hfuel : (fieldsText fields).length + 1 < fuel + 1) :
    readFields (fuel + 1) (fieldsText fields ++ '\x7d' :: rest) = some (fields, rest) := by
  -- the name of a field
  have hname : ∀ name more : List Char, (jsonString name).length < fuel →
      readText fuel (jsonString name ++ more).tail = some (name, more) := by
    intro name more hlength
    have hle := length_lt_jsonString name
    have hsplit : (jsonString name ++ more).tail = jsonEscaped name ++ '"' :: more := by
      rw [jsonString, List.cons_append, List.tail_cons, List.append_assoc, List.singleton_append]
    rw [hsplit, readText_escaped name more (by omega)]
  have hquote : ∀ name more : List Char, (jsonString name ++ more).head? = some '"' := fun _ _ ↦ rfl
  cases fields with
  | nil => exact absurd rfl hne
  | cons field others =>
      obtain ⟨name, value⟩ := field
      have hvalue : Plain depth value := hplain _ List.mem_cons_self
      cases others with
      | nil =>
          rw [fieldsText, List.length_append, List.length_cons] at hfuel
          rw [fieldsText, List.append_assoc, List.cons_append, readFields, if_pos (hquote name _),
            hname name _ (by omega), Option.bind_some]
          have hread := h.value depth value ('\x7d' :: rest) hvalue (by omega) (noDigit_cons _ (by decide))
          simp [hread]
      | cons next others =>
          rw [fieldsText, List.length_append, List.length_cons, List.length_append,
            List.length_cons] at hfuel
          have hothers := h.fields depth (next :: others) rest (List.cons_ne_nil _ _)
            (fun other hother ↦ hplain other (List.mem_cons_of_mem _ hother)) (by omega)
          rw [fieldsText, List.append_assoc, List.cons_append, List.append_assoc, List.cons_append, readFields,
            if_pos (hquote name _), hname name _ (by omega), Option.bind_some]
          have hread := h.value depth value (',' :: (fieldsText (next :: others) ++ '\x7d' :: rest)) hvalue
            (by omega) (noDigit_cons _ (by decide))
          simp [hread, hothers]

theorem reads (fuel : ℕ) : Reads fuel := by
  induction fuel with
  | zero => exact reads_zero
  | succ fuel ih => exact ⟨ih.readValue_succ, ih.readItems_succ, ih.readFields_succ⟩

/-- Every plain value is found in its text. -/
theorem readLine_text {depth : ℕ} {value : Json} (h : Plain depth value) :
    readLine (value.text ++ ['\n']) = .ok value := by
  have hread := (reads ((value.text ++ ['\n']).length + 1)).value depth value ['\n'] h
    (by rw [List.length_append]; omega) (noDigit_cons [] (by decide))
  simp only [readLine, hread, if_true]

end Json

end CatalogText

end WinBlaze
