import Mathlib.Data.List.Infix
import WinBlaze.Core.Model
import WinBlaze.Lib.TextSearch

/-!
# Hashes in update manifests

The hash of an artifact is looked for in the text of the manifest, behind its
quoted kind. Manifests are lists of objects here, each with the way it is spelled.
-/

namespace WinBlaze

namespace UpdateManifest

open TextSearch

/-! ## The search -/

def quoted (name : List Char) : List Char := '"' :: (name ++ ['"'])

def unescape (c : Char) : List Char :=
  if c = '"' ∨ c = '\\' ∨ c = '/' then [c]
  else if c = 'n' then ['\n'] else if c = 't' then ['\t'] else ['\\', c]

/-- The loop over the characters of the value. -/
def readValue (value : List Char) : List Char → Option (List Char)
  | [] => none
  | c :: rest =>
      if c = '"' then some value
      else if c = '\\' then
        match rest with
        | [] => none
        | escaped :: after => readValue (value ++ unescape escaped) after
      else readValue (value ++ [c]) rest

/-- What follows the key. -/
def readField (text : List Char) : Option (List Char) :=
  let text := text.dropWhile isWhitespace
  if text.head? = some ':' then
    let text := text.tail.dropWhile isWhitespace
    if text.head? = some '"' then readValue [] text.tail else none
  else none

def parseJsonStringField (json field : List Char) : Option (List Char) :=
  (find (quoted field) json).bind fun place ↦ readField (json.drop (place + (quoted field).length))

def parseManifestSha256 (manifest kind : List Char) : Option (List Char) :=
  (find (quoted kind) manifest).bind fun place ↦
    let afterKind := manifest.drop (place + (quoted kind).length)
    let object := afterKind.take ((find (quoted "kind".toList) afterKind).getD afterKind.length)
    (parseJsonStringField object "sha256".toList).filter fun value ↦ !(trim value).isEmpty

/-! ## Manifests -/

def shortEscapes : List (Char × Char) :=
  [('"', '"'), ('\\', '\\'), ('/', '/'), ('b', '\x08'), ('f', '\x0c'), ('n', '\n'), ('r', '\r'),
    ('t', '\t')]

def hexDigit (c : Char) : Option ℕ :=
  if '0' ≤ c ∧ c ≤ '9' then some (c.toNat - 48)
  else if 'a' ≤ c ∧ c ≤ 'f' then some (c.toNat - 87)
  else if 'A' ≤ c ∧ c ≤ 'F' then some (c.toNat - 55) else none

/-- The number of four hexadecimal digits. -/
def hexUnit (digits : List Char) : Option ℕ :=
  if digits.length = 4 then
    digits.foldl (fun value c ↦ value.bind fun v ↦ (hexDigit c).map (16 * v + ·)) (some 0)
  else none

/-- A character of a string, the way it is written. -/
inductive Piece
  | plain (c : Char) (h : c ≠ '"' ∧ c ≠ '\\' ∧ 0x20 ≤ c.toNat)
  | short (code c : Char) (h : (code, c) ∈ shortEscapes)
  | unit (digits : List Char) (c : Char) (h : hexUnit digits = some c.toNat)
  /-- A character beyond 16 bits. -/
  | pair (high low : List Char) (a b : ℕ) (c : Char) (hhigh : hexUnit high = some (0xD800 + a))
      (hlow : hexUnit low = some (0xDC00 + b)) (hbounds : a < 0x400 ∧ b < 0x400)
      (h : c.toNat = 0x10000 + a * 0x400 + b)

namespace Piece

def raw : Piece → List Char
  | plain c _ => [c]
  | short code _ _ => ['\\', code]
  | unit digits _ _ => '\\' :: 'u' :: digits
  | pair high low _ _ _ _ _ _ _ => '\\' :: 'u' :: high ++ '\\' :: 'u' :: low

def value : Piece → Char
  | plain c _ => c
  | short _ c _ => c
  | unit _ c _ => c
  | pair _ _ _ _ c _ _ _ _ => c

/-- The reader knows how it is written. -/
def isKnown : Piece → Bool
  | plain _ _ => true
  | short code _ _ => code ≠ 'b' && code ≠ 'f' && code ≠ 'r'
  | unit _ _ _ => false
  | pair _ _ _ _ _ _ _ _ _ => false

end Piece

structure JsonString where
  pieces : List Piece

namespace JsonString

def value (string : JsonString) : List Char := string.pieces.map Piece.value

def raw (string : JsonString) : List Char := string.pieces.flatMap Piece.raw

def text (string : JsonString) : List Char := quoted string.raw

end JsonString

def isGap (text : List Char) : Bool := text.all fun c ↦ c = ' ' || c = '\n' || c = '\r' || c = '\t'

abbrev Gap := { text : List Char // isGap text = true }

inductive MemberValue
  | string (literal : JsonString)
  /-- A number, `true`, `false` or `null`. -/
  | scalar (text : List Char) (h : '"' ∉ text)

def MemberValue.text : MemberValue → List Char
  | .string literal => literal.text
  | .scalar text _ => text

def memberNames : List (List Char) :=
  ["kind", "file_name", "bytes", "sha256"].map String.toList

/-- A member with the gaps before it, around the colon and behind it. -/
structure Member where
  before : Gap
  key : JsonString
  beforeColon : Gap
  afterColon : Gap
  value : MemberValue
  behind : Gap
  known : key.value ∈ memberNames

namespace Member

/-- From the colon on. -/
def rest (member : Member) : List Char :=
  member.beforeColon.val ++ ':' :: member.afterColon.val ++ member.value.text ++ member.behind.val

def text (member : Member) : List Char := member.before.val ++ member.key.text ++ member.rest

end Member

def membersText : List Member → List Char
  | [] => []
  | member :: rest => member.text ++ rest.flatMap fun member ↦ ',' :: member.text

/-- A flat object. -/
structure Artifact where
  gap : Gap
  members : List Member
  nodup : (members.map fun member ↦ member.key.value).Nodup

namespace Artifact

def text (artifact : Artifact) : List Char :=
  '{' :: artifact.gap.val ++ membersText artifact.members ++ ['}']

def field (artifact : Artifact) (name : List Char) : Option (List Char) :=
  (artifact.members.find? fun member ↦ member.key.value = name).bind fun member ↦
    match member.value with
    | .string literal => some literal.value
    | .scalar _ _ => none

end Artifact

/-- The objects of the list, each with the text behind it, and the text before them. -/
structure Manifest where
  lead : List Char
  artifacts : List (Artifact × List Char)

namespace Manifest

def text (manifest : Manifest) : List Char :=
  manifest.lead ++ manifest.artifacts.flatMap fun entry ↦ entry.1.text ++ entry.2

/-- It is the hash of an artifact of this kind. -/
def IsHash (manifest : Manifest) (kind hash : List Char) : Prop :=
  ∃ entry ∈ manifest.artifacts, entry.1.field "kind".toList = some kind ∧
    entry.1.field "sha256".toList = some hash

instance (manifest : Manifest) (kind hash : List Char) : Decidable (manifest.IsHash kind hash) :=
  inferInstanceAs (Decidable (∃ entry ∈ manifest.artifacts, _))

end Manifest

/-! ## Values -/

/-- The reader takes `raw` for `value`. -/
inductive Spells : List Char → List Char → Prop
  | nil : Spells [] []
  | plain {raw value : List Char} (c : Char) (hquote : c ≠ '"') (hescape : c ≠ '\\')
      (h : Spells raw value) : Spells (c :: raw) (c :: value)
  | escape {raw value : List Char} (c : Char) (h : Spells raw value) :
      Spells ('\\' :: c :: raw) (unescape c ++ value)

theorem readValue_of_spells {raw value : List Char} (h : Spells raw value) (start tail : List Char) :
    readValue start (raw ++ '"' :: tail) = some (start ++ value) := by
  induction h generalizing start with
  | nil =>
      rw [List.nil_append, List.append_nil, readValue.eq_def]
      exact if_pos rfl
  | plain c hquote hescape _ ih =>
      rw [List.cons_append, readValue.eq_def]
      dsimp only
      rw [if_neg hquote, if_neg hescape, ih, List.append_assoc, List.singleton_append]
  | escape c _ ih =>
      rw [List.cons_append, List.cons_append, readValue.eq_def]
      dsimp only
      rw [if_neg (by decide), if_pos rfl, ih, List.append_assoc]

theorem spells_of_readValue {start text value : List Char} (h : readValue start text = some value) :
    ∃ raw tail read, text = raw ++ '"' :: tail ∧ Spells raw read ∧ value = start ++ read := by
  fun_induction readValue start text with
  | case1 => cases h
  | case2 start rest =>
      exact ⟨[], rest, [], rfl, .nil, by rw [List.append_nil, Option.some.inj h]⟩
  | case3 => cases h
  | case4 start escaped after _ ih =>
      obtain ⟨raw, tail, read, rfl, hspells, rfl⟩ := ih h
      exact ⟨'\\' :: escaped :: raw, tail, unescape escaped ++ read, rfl, .escape escaped hspells,
        List.append_assoc ..⟩
  | case5 start c rest hquote hescape ih =>
      obtain ⟨raw, tail, read, rfl, hspells, rfl⟩ := ih h
      exact ⟨c :: raw, tail, c :: read, rfl, .plain c hquote hescape hspells, by simp⟩

/-- A string follows the key, and its text reads `value`. -/
def Follows (text value : List Char) : Prop :=
  ∃ beforeColon afterColon raw tail,
    text = beforeColon ++ ':' :: afterColon ++ '"' :: raw ++ '"' :: tail ∧
      beforeColon.all isWhitespace = true ∧ afterColon.all isWhitespace = true ∧ Spells raw value

theorem dropWhile_isWhitespace {gap : List Char} (hgap : gap.all isWhitespace = true) {c : Char}
    (hc : isWhitespace c = false) (rest : List Char) :
    (gap ++ c :: rest).dropWhile isWhitespace = c :: rest := by
  rw [List.dropWhile_append_of_pos (List.all_eq_true.mp hgap), List.dropWhile_cons_of_neg]
  exact Bool.eq_false_iff.mp hc

theorem exists_of_dropWhile {text rest : List Char} {c : Char}
    (h : (text.dropWhile isWhitespace).head? = some c)
    (hrest : (text.dropWhile isWhitespace).tail = rest) :
    ∃ gap, text = gap ++ c :: rest ∧ gap.all isWhitespace = true := by
  refine ⟨text.takeWhile isWhitespace, ?_, List.all_takeWhile⟩
  rw [← hrest, List.cons_head?_tail h]
  exact List.takeWhile_append_dropWhile.symm

theorem readField_eq_some_iff {text value : List Char} : readField text = some value ↔ Follows text value := by
  constructor
  · intro h
    unfold readField at h
    dsimp only at h
    split at h
    case isFalse => cases h
    case isTrue hcolon =>
      split at h
      case isFalse => cases h
      case isTrue hquote =>
        obtain ⟨raw, tail, read, htext, hspells, hread⟩ := spells_of_readValue h
        obtain ⟨afterColon, hafterText, hafter⟩ := exists_of_dropWhile hquote htext
        obtain ⟨beforeColon, hbeforeText, hbefore⟩ := exists_of_dropWhile hcolon hafterText
        refine ⟨beforeColon, afterColon, raw, tail, ?_, hbefore, hafter, hread ▸ hspells⟩
        rw [hbeforeText]
        simp only [List.append_assoc, List.cons_append]
  · rintro ⟨beforeColon, afterColon, raw, tail, rfl, hbefore, hafter, hspells⟩
    have hread := readValue_of_spells hspells [] tail
    have hcolon := dropWhile_isWhitespace hbefore (c := ':') (by decide)
    have hquote := dropWhile_isWhitespace hafter (c := '"') (by decide)
    simp only [readField, List.append_assoc, List.cons_append, hcolon, List.head?_cons, List.tail_cons,
      if_true, hquote, hread, List.nil_append]

/-- What is read does not depend on the text behind it. -/
theorem Follows.append {text value : List Char} (h : Follows text value) (more : List Char) :
    Follows (text ++ more) value := by
  obtain ⟨beforeColon, afterColon, raw, tail, rfl, hbefore, hafter, hspells⟩ := h
  refine ⟨beforeColon, afterColon, raw, tail ++ more, ?_, hbefore, hafter, hspells⟩
  simp only [List.append_assoc, List.cons_append]

theorem Follows.unique {text value other : List Char} (h : Follows text value)
    (hother : Follows text other) : value = other :=
  Option.some.inj ((readField_eq_some_iff.mpr h).symm.trans (readField_eq_some_iff.mpr hother))

/-! ## The place of a hash -/

/-- The text searched for the hash: behind the first quoted kind, up to the next
quoted `kind`. -/
structure IsWindow (text kind front window : List Char) : Prop where
  first : ∃ rest, First (quoted kind) text front (window ++ rest) ∧
    ((∃ tail, First (quoted "kind".toList) (window ++ rest) window tail) ∨
      rest = [] ∧ ∀ before behind, window ≠ before ++ quoted "kind".toList ++ behind)

/-- The first quoted `sha256` of the window is at this place, and `value` follows it. -/
def HashAt (text kind : List Char) (place : ℕ) (value : List Char) : Prop :=
  ∃ front window skipped rest, IsWindow text kind front window ∧
    First (quoted "sha256".toList) window skipped rest ∧ Follows rest value ∧
    place = (front ++ quoted kind ++ skipped).length

theorem parseJsonStringField_eq_some_iff {json field value : List Char} :
    parseJsonStringField json field = some value ↔
      ∃ front back, First (quoted field) json front back ∧ Follows back value := by
  rw [parseJsonStringField, Option.bind_eq_some_iff]
  constructor
  · rintro ⟨place, hplace, hread⟩
    obtain ⟨front, back, hfirst, rfl⟩ := find_eq_some_iff.mp hplace
    exact ⟨front, back, hfirst, readField_eq_some_iff.mp (hfirst.drop ▸ hread)⟩
  · rintro ⟨front, back, hfirst, hfollows⟩
    exact ⟨front.length, find_eq_some_of_first hfirst, readField_eq_some_iff.mpr (hfirst.drop.symm ▸ hfollows)⟩

theorem isWindow_take {text kind front back : List Char} (h : First (quoted kind) text front back) :
    IsWindow text kind front (back.take ((find (quoted "kind".toList) back).getD back.length)) := by
  cases hfind : find (quoted "kind".toList) back with
  | none =>
      refine ⟨[], ?_, .inr ⟨rfl, ?_⟩⟩
      · rwa [Option.getD_none, List.take_length, List.append_nil]
      · rw [Option.getD_none, List.take_length]
        exact find_eq_none_iff.mp hfind
  | some place =>
      obtain ⟨window, tail, hfirst, rfl⟩ := find_eq_some_iff.mp hfind
      have htake : back.take window.length = window := by
        rw [hfirst.1, List.append_assoc, List.take_left]
      rw [Option.getD_some, htake]
      have hback : back = window ++ (quoted "kind".toList ++ tail) := by
        rw [← List.append_assoc, ← hfirst.1]
      exact ⟨quoted "kind".toList ++ tail, hback ▸ h, .inl ⟨tail, hback ▸ hfirst⟩⟩

theorem IsWindow.unique {text kind front window other rest : List Char} (h : IsWindow text kind front window)
    (hother : IsWindow text kind other rest) : front = other ∧ window = rest := by
  obtain ⟨behind, hfirst, hend⟩ := h
  obtain ⟨otherBehind, hotherFirst, hotherEnd⟩ := hother
  obtain ⟨hfront, hback⟩ := hfirst.unique hotherFirst
  refine ⟨hfront, ?_⟩
  rw [hback] at hend
  rcases hend with ⟨tail, hkind⟩ | ⟨rfl, hnone⟩
  · rcases hotherEnd with ⟨otherTail, hotherKind⟩ | ⟨rfl, hnone⟩
    · exact (hkind.unique hotherKind).1
    · rw [List.append_nil] at hkind
      exact (hnone _ _ hkind.1).elim
  · rw [List.append_nil] at hback
    rcases hotherEnd with ⟨otherTail, hotherKind⟩ | ⟨rfl, -⟩
    · exact (hnone _ _ (hback.trans hotherKind.1)).elim
    · rwa [List.append_nil] at hback

/-- The answer is what follows the first quoted `sha256` of the window. -/
theorem parseManifestSha256_eq_some_iff {manifest kind value : List Char} :
    parseManifestSha256 manifest kind = some value ↔
      (∃ place, HashAt manifest kind place value) ∧ trim value ≠ [] := by
  rw [parseManifestSha256, Option.bind_eq_some_iff]
  constructor
  · rintro ⟨place, hplace, hvalue⟩
    obtain ⟨front, back, hfirst, rfl⟩ := find_eq_some_iff.mp hplace
    obtain ⟨hfield, hblank⟩ := Option.filter_eq_some_iff.mp hvalue
    rw [hfirst.drop] at hfield
    obtain ⟨skipped, rest, hsha, hfollows⟩ := parseJsonStringField_eq_some_iff.mp hfield
    refine ⟨⟨_, front, _, skipped, rest, isWindow_take hfirst, hsha, hfollows, rfl⟩, ?_⟩
    simpa using hblank
  · rintro ⟨⟨place, front, window, skipped, rest, hwindow, hsha, hfollows, rfl⟩, hblank⟩
    obtain ⟨behind, hfirst, -⟩ := id hwindow
    refine ⟨front.length, find_eq_some_of_first hfirst, Option.filter_eq_some_iff.mpr ⟨?_, by simpa using hblank⟩⟩
    rw [hfirst.drop]
    obtain ⟨-, hsame⟩ := (isWindow_take hfirst).unique hwindow
    rw [hsame]
    exact parseJsonStringField_eq_some_iff.mpr ⟨skipped, rest, hsha, hfollows⟩

/-- The place is the one that the search finds. -/
theorem HashAt.find_eq {text kind value : List Char} {place : ℕ} (h : HashAt text kind place value) :
    ∃ first second, find (quoted kind) text = some first ∧
      find (quoted "sha256".toList) (text.drop (first + (quoted kind).length)) = some second ∧
      place = first + (quoted kind).length + second := by
  obtain ⟨front, window, skipped, rest, ⟨tail, hfirst, -⟩, hsha, -, rfl⟩ := h
  refine ⟨front.length, skipped.length, find_eq_some_of_first hfirst, ?_, by simp [Nat.add_assoc]⟩
  rw [hfirst.drop, hsha.1, List.append_assoc]
  refine find_eq_some_of_first ⟨rfl, fun earlier later heq ↦ ?_⟩
  by_contra hlt
  -- an earlier place lies inside the window as well
  rw [not_le] at hlt
  have hprefix : earlier ++ quoted "sha256".toList <+: skipped ++ quoted "sha256".toList := by
    have hfirst : earlier ++ quoted "sha256".toList <+:
        skipped ++ quoted "sha256".toList ++ (rest ++ tail) := ⟨later, heq.symm⟩
    refine List.prefix_of_prefix_length_le hfirst (List.prefix_append _ _) ?_
    simp only [List.length_append]
    omega
  obtain ⟨more, hmore⟩ := hprefix
  have hleast := hsha.2 earlier (more ++ rest) (by rw [hsha.1, ← hmore, List.append_assoc])
  omega

/-! ## Hashes of the kind -/

theorem membersText_append (front : List Member) (member : Member) (back : List Member) :
    membersText (front ++ member :: back) = (front.flatMap fun other ↦ other.text ++ [',']) ++
      member.text ++ back.flatMap fun other ↦ ',' :: other.text := by
  cases front with
  | nil => rfl
  | cons first rest =>
      have hrest : ∀ rest : List Member, (rest.flatMap fun other ↦ ',' :: other.text) ++ [','] =
          ',' :: rest.flatMap fun other ↦ other.text ++ [','] := by
        intro rest
        induction rest with
        | nil => rfl
        | cons other rest ih =>
            rw [List.flatMap_cons, List.flatMap_cons, List.append_assoc, ih]
            simp only [List.cons_append, List.append_assoc, List.nil_append]
      have hsplit := congrArg (first.text ++ · ++ member.text ++
        back.flatMap fun other ↦ ',' :: other.text) (hrest rest)
      simpa [membersText] using hsplit

theorem spells_of_known {literal : JsonString} (h : literal.pieces.all Piece.isKnown = true) :
    Spells literal.raw literal.value := by
  obtain ⟨pieces⟩ := literal
  unfold JsonString.raw JsonString.value
  induction pieces with
  | nil => exact .nil
  | cons piece rest ih =>
      obtain ⟨hknown, hrest⟩ := Bool.and_eq_true_iff.mp h
      have hspells := ih hrest
      cases piece with
      | plain c hplain => exact .plain c hplain.1 hplain.2.1 hspells
      | short code c hcode =>
          have hcodes : ∀ entry ∈ shortEscapes, (entry.1 ≠ 'b' && entry.1 ≠ 'f' && entry.1 ≠ 'r') = true →
              unescape entry.1 = [entry.2] := by decide
          have hread := Spells.escape code hspells
          rwa [hcodes _ hcode hknown] at hread
      | unit digits c hunit => cases hknown
      | pair high low a b c hhigh hlow hbounds hpair => cases hknown

/-- Hexadecimal digits are read as they are. -/
theorem plain_of_hexUnit {digits : List Char} {unit : ℕ} (h : hexUnit digits = some unit) :
    ∀ c ∈ digits, c ≠ '"' ∧ c ≠ '\\' := by
  have hdigit : ∀ c, (hexDigit c).isSome → c ≠ '"' ∧ c ≠ '\\' := by
    rintro c hc
    constructor
    · rintro rfl
      cases hc
    · rintro rfl
      cases hc
  have hnone : ∀ digits : List Char, digits.foldl
      (fun value c ↦ value.bind fun v ↦ (hexDigit c).map (16 * v + ·)) none = (none : Option ℕ) := by
    intro digits
    induction digits with
    | nil => rfl
    | cons c rest ih => exact ih
  have hfold : ∀ (digits : List Char) (start : ℕ), (digits.foldl
      (fun value c ↦ value.bind fun v ↦ (hexDigit c).map (16 * v + ·)) (some start)).isSome →
        ∀ c ∈ digits, (hexDigit c).isSome := by
    intro digits
    induction digits with
    | nil => exact fun _ _ c hc ↦ (nomatch hc)
    | cons first rest ih =>
        intro start hsome
        rw [List.foldl_cons, Option.bind_some] at hsome
        cases hfirst : hexDigit first with
        | none =>
            rw [hfirst, Option.map_none, hnone] at hsome
            cases hsome
        | some value =>
            rw [hfirst, Option.map_some] at hsome
            exact List.forall_mem_cons.mpr ⟨by rw [hfirst]; rfl, ih _ hsome⟩
  unfold hexUnit at h
  split at h
  case isFalse => cases h
  case isTrue => exact fun c hc ↦ hdigit c (hfold digits 0 (h ▸ rfl) c hc)

theorem Spells.plain_append {digits raw value : List Char} (h : Spells raw value)
    (hdigits : ∀ c ∈ digits, c ≠ '"' ∧ c ≠ '\\') : Spells (digits ++ raw) (digits ++ value) := by
  induction digits with
  | nil => exact h
  | cons c rest ih =>
      obtain ⟨hc, hrest⟩ := List.forall_mem_cons.mp hdigits
      exact .plain c hc.1 hc.2 (ih hrest)

theorem one_le_length_unescape (c : Char) : 1 ≤ (unescape c).length := by
  unfold unescape
  split_ifs <;> simp

/-- The reader takes every string for something, with more characters than the
string has when one is written in a way the reader does not know. -/
theorem exists_spells (literal : JsonString) : ∃ read, Spells literal.raw read ∧
    literal.pieces.length ≤ read.length ∧
      (read.length = literal.pieces.length → literal.pieces.all Piece.isKnown = true) := by
  obtain ⟨pieces⟩ := literal
  unfold JsonString.raw
  induction pieces with
  | nil => exact ⟨[], .nil, le_rfl, fun _ ↦ rfl⟩
  | cons piece rest ih =>
      obtain ⟨read, hspells, hlength, hknown⟩ := ih
      dsimp only at hlength hknown ⊢
      cases piece with
      | plain c hplain =>
          refine ⟨c :: read, .plain c hplain.1 hplain.2.1 hspells, Nat.succ_le_succ hlength, ?_⟩
          exact fun heq ↦ hknown (Nat.succ.inj heq)
      | short code c hcode =>
          have hcodes : ∀ entry ∈ shortEscapes, (unescape entry.1).length = 1 →
              (entry.1 ≠ 'b' && entry.1 ≠ 'f' && entry.1 ≠ 'r') = true := by decide
          have hpos := one_le_length_unescape code
          refine ⟨unescape code ++ read, .escape code hspells, ?_, fun heq ↦ ?_⟩
          · simp only [List.length_append, List.length_cons]
            omega
          · simp only [List.length_append, List.length_cons] at heq
            have hone : (unescape code).length = 1 := by omega
            rw [List.all_cons, Bool.and_eq_true_iff]
            exact ⟨hcodes _ hcode hone, hknown (by omega)⟩
      | unit digits c hunit =>
          have hread := (hspells.plain_append (plain_of_hexUnit hunit)).escape 'u'
          have hu : (unescape 'u').length = 2 := rfl
          refine ⟨_, hread, ?_, fun heq ↦ ?_⟩
          · simp only [List.length_append, List.length_cons]
            omega
          · simp only [List.length_append, List.length_cons] at heq
            omega
      | pair high low a b c hhigh hlow hbounds hpair =>
          have hlast := (hspells.plain_append (plain_of_hexUnit hlow)).escape 'u'
          have hread := (hlast.plain_append (plain_of_hexUnit hhigh)).escape 'u'
          have hraw : ((Piece.pair high low a b c hhigh hlow hbounds hpair) :: rest).flatMap Piece.raw =
              '\\' :: 'u' :: (high ++ '\\' :: 'u' :: (low ++ rest.flatMap Piece.raw)) := by
            simp [Piece.raw]
          have hu : (unescape 'u').length = 2 := rfl
          refine ⟨_, hraw ▸ hread, ?_, fun heq ↦ ?_⟩
          · simp only [List.length_append, List.length_cons]
            omega
          · simp only [List.length_append, List.length_cons] at heq
            omega

/-- A string whose text is read as what it says has only escapes the reader knows. -/
theorem known_of_spells {literal : JsonString} {raw behind tail : List Char}
    (h : Spells raw literal.value) (hsame : raw ++ '"' :: behind = literal.raw ++ '"' :: tail) :
    literal.pieces.all Piece.isKnown = true := by
  obtain ⟨read, hread, -, hknown⟩ := exists_spells literal
  have hvalue := readValue_of_spells h [] behind
  rw [hsame, readValue_of_spells hread, List.nil_append, List.nil_append] at hvalue
  refine hknown ?_
  rw [Option.some.inj hvalue, JsonString.value, List.length_map]

/-- A quote in the text of a string is one in its value. -/
theorem quote_not_mem_raw {literal : JsonString} (h : '"' ∉ literal.value) : '"' ∉ literal.raw := by
  intro hmem
  obtain ⟨piece, hpiece, hquote⟩ := List.mem_flatMap.mp hmem
  have hvalue : piece.value ≠ '"' := fun heq ↦ h (heq ▸ List.mem_map_of_mem hpiece)
  cases piece with
  | plain c hplain => exact hplain.1 (List.mem_singleton.mp hquote).symm
  | short code c hcode =>
      have hcodes : ∀ entry ∈ shortEscapes, '"' = entry.1 → entry.2 = '"' := by decide
      simp only [Piece.raw, List.mem_cons, List.not_mem_nil, or_false] at hquote
      exact hvalue (hcodes _ hcode (hquote.resolve_left (by decide)))
  | unit digits c hunit =>
      simp only [Piece.raw, List.mem_cons] at hquote
      rcases hquote with hquote | hquote | hquote
      · cases hquote
      · cases hquote
      · exact (plain_of_hexUnit hunit _ hquote).1 rfl
  | pair high low a b c hhigh hlow hbounds hpair =>
      simp only [Piece.raw, List.mem_cons, List.mem_append] at hquote
      rcases hquote with (hquote | hquote | hquote) | (hquote | hquote | hquote)
      · cases hquote
      · cases hquote
      · exact (plain_of_hexUnit hhigh _ hquote).1 rfl
      · cases hquote
      · cases hquote
      · exact (plain_of_hexUnit hlow _ hquote).1 rfl

theorem all_isWhitespace_of_isGap {text : List Char} (h : isGap text = true) :
    text.all isWhitespace = true := by
  refine List.all_eq_true.mpr fun c hc ↦ ?_
  have hgap := List.all_eq_true.mp h c hc
  simp only [Bool.or_eq_true, decide_eq_true_iff] at hgap
  rcases hgap with ((rfl | rfl) | rfl) | rfl <;> rfl

theorem Member.follows_rest {member : Member} {literal : JsonString} (hvalue : member.value = .string literal)
    (hknown : literal.pieces.all Piece.isKnown = true) (more : List Char) :
    Follows (member.rest ++ more) literal.value := by
  refine ⟨member.beforeColon.val, member.afterColon.val, literal.raw, member.behind.val ++ more, ?_,
    all_isWhitespace_of_isGap member.beforeColon.2, all_isWhitespace_of_isGap member.afterColon.2,
    spells_of_known hknown⟩
  simp [Member.rest, hvalue, MemberValue.text, JsonString.text, quoted]

namespace Manifest

/-- The text before a member of an object of the list. -/
def textBefore (manifest : Manifest) (before : List (Artifact × List Char)) (artifact : Artifact)
    (front : List Member) (member : Member) : List Char :=
  manifest.lead ++ (before.flatMap fun entry ↦ entry.1.text ++ entry.2) ++ '{' :: artifact.gap.val ++
    (front.flatMap fun other ↦ other.text ++ [',']) ++ member.before.val

/-- An artifact of this kind has its hash at this place, written as the reader knows it. -/
def IsOwnPlace (manifest : Manifest) (kind : List Char) (place : ℕ) : Prop :=
  ∃ before artifact behind after, manifest.artifacts = before ++ (artifact, behind) :: after ∧
    artifact.field "kind".toList = some kind ∧
    ∃ front member back literal, artifact.members = front ++ member :: back ∧
      member.key.value = "sha256".toList ∧ member.key.raw = "sha256".toList ∧
      member.value = .string literal ∧ literal.pieces.all Piece.isKnown = true ∧
      place = (manifest.textBefore before artifact front member).length

/-- The first quoted `sha256` behind the first quoted kind, and before the next quoted
`kind`, is that of an artifact of the kind, or no string with text follows it. -/
def ReadsOwn (manifest : Manifest) (kind : List Char) : Prop :=
  ∀ place value, HashAt manifest.text kind place value → trim value ≠ [] →
    manifest.IsOwnPlace kind place

/-- At this place stands the string that gives an artifact of this kind its hash. -/
def IsOwnString (manifest : Manifest) (kind hash : List Char) (place : ℕ) : Prop :=
  ∃ before artifact behind after, manifest.artifacts = before ++ (artifact, behind) :: after ∧
    artifact.field "kind".toList = some kind ∧
    ∃ front member back literal, artifact.members = front ++ member :: back ∧
      member.key.value = "sha256".toList ∧ member.value = .string literal ∧ literal.value = hash ∧
      place = (manifest.textBefore before artifact front member ++ member.key.text ++
        member.beforeColon.val ++ ':' :: member.afterColon.val).length

/-- No other string of the text reads as a hash of this kind. -/
def HashesApart (manifest : Manifest) (kind : List Char) : Prop :=
  ∀ front raw back hash, manifest.text = front ++ quoted raw ++ back → Spells raw hash →
    manifest.IsHash kind hash → manifest.IsOwnString kind hash front.length

theorem text_eq {manifest : Manifest} {before after : List (Artifact × List Char)} {artifact : Artifact}
    {behind : List Char} (hartifacts : manifest.artifacts = before ++ (artifact, behind) :: after)
    {front back : List Member} {member : Member} (hmembers : artifact.members = front ++ member :: back) :
    ∃ more, manifest.text = manifest.textBefore before artifact front member ++ member.key.text ++
      (member.rest ++ more) := by
  refine ⟨(back.flatMap fun other ↦ ',' :: other.text) ++ '}' :: behind ++
    after.flatMap fun entry ↦ entry.1.text ++ entry.2, ?_⟩
  rw [text, hartifacts, List.flatMap_append, List.flatMap_cons, Artifact.text, hmembers,
    membersText_append, textBefore, Member.text]
  simp only [List.append_assoc, List.cons_append, List.nil_append]

/-- What is read at the own place is the own hash. -/
theorem IsOwnPlace.isHash {manifest : Manifest} {kind value : List Char} {place : ℕ}
    (h : manifest.IsOwnPlace kind place) (hat : HashAt manifest.text kind place value) :
    manifest.IsHash kind value := by
  obtain ⟨before, artifact, behind, after, hartifacts, hkind, front, member, back, literal, hmembers, hkey,
    hraw, hvalue, hknown, hplace⟩ := h
  obtain ⟨passed, window, skipped, rest, ⟨tail, hfirst, -⟩, hsha, hfollows, hlength⟩ := hat
  obtain ⟨more, htext⟩ := text_eq hartifacts hmembers
  have hrest : rest ++ tail = member.rest ++ more := by
    have hwindow : manifest.text = (passed ++ quoted kind ++ skipped) ++
        (quoted "sha256".toList ++ (rest ++ tail)) := by
      rw [hfirst.1, hsha.1]
      simp only [List.append_assoc]
    rw [htext, List.append_assoc] at hwindow
    have hsame := (List.append_inj hwindow (hplace.symm.trans hlength)).2
    rw [JsonString.text, hraw] at hsame
    exact (List.append_cancel_left hsame).symm
  have hsame : value = literal.value :=
    (hrest ▸ hfollows.append tail).unique (member.follows_rest hvalue hknown more)
  refine ⟨(artifact, behind), by simp [hartifacts], hkind, ?_⟩
  have hfind : artifact.members.find? (fun member ↦ member.key.value = "sha256".toList) = some member := by
    refine List.find?_eq_some_iff_append.mpr ⟨decide_eq_true hkey, front, back, hmembers, fun other hother ↦ ?_⟩
    have hnodup := artifact.nodup
    rw [hmembers, List.map_append, List.map_cons, List.nodup_append] at hnodup
    have hne := hnodup.2.2 _ (List.mem_map_of_mem hother) _ List.mem_cons_self
    simpa [hkey] using hne
  rw [Artifact.field, hfind, Option.bind_some, hvalue, hsame]

/-- Two texts that end in a gap behind another character are the same before it. -/
theorem append_gap_inj {front other gap rest : List Char} {c d : Char} (hgap : gap.all isWhitespace = true)
    (hrest : rest.all isWhitespace = true) (hc : isWhitespace c = false) (hd : isWhitespace d = false)
    (h : front ++ c :: gap = other ++ d :: rest) : front = other := by
  have hreverse := congrArg (fun text ↦ text.reverse.dropWhile isWhitespace) h
  simp only [List.reverse_append, List.reverse_cons, List.append_assoc, List.singleton_append] at hreverse
  rw [dropWhile_isWhitespace (List.all_reverse.trans hgap) hc,
    dropWhile_isWhitespace (List.all_reverse.trans hrest) hd] at hreverse
  exact List.reverse_injective (List.cons.inj hreverse).2

/-- Two texts that end in a quote and a name without quotes are the same before it. -/
theorem append_quoted_inj {front other name raw : List Char} (hname : '"' ∉ name) (hraw : '"' ∉ raw)
    (h : front ++ '"' :: name = other ++ '"' :: raw) : front = other ∧ name = raw := by
  have hsplit : ∀ front {name : List Char}, '"' ∉ name →
      ((front ++ '"' :: name).reverse.takeWhile (· ≠ '"')) = name.reverse := by
    intro front name hname
    have hall : ∀ c ∈ name.reverse, decide (c ≠ '"') = true :=
      fun c hc ↦ decide_eq_true fun heq ↦ hname (heq ▸ List.mem_reverse.mp hc)
    rw [List.reverse_append, List.reverse_cons, List.append_assoc, List.takeWhile_append_of_pos hall]
    simp
  have hsame : name = raw := by
    apply List.reverse_injective
    rw [← hsplit front hname, h, hsplit other hraw]
  rw [hsame] at h
  exact ⟨List.append_cancel_right h, hsame⟩

/-- A string that is read as a hash stands at the own place where no other does. -/
theorem isOwnPlace_of_apart {manifest : Manifest} {kind value : List Char} {place : ℕ}
    (hapart : manifest.HashesApart kind) (hat : HashAt manifest.text kind place value)
    (hhash : manifest.IsHash kind value) : manifest.IsOwnPlace kind place := by
  obtain ⟨passed, window, skipped, rest, ⟨tail, hfirst, -⟩, hsha, hfollows, rfl⟩ := hat
  obtain ⟨beforeColon, afterColon, raw, behind, rfl, hbefore, hafter, hspells⟩ := hfollows
  have htext : manifest.text = ((passed ++ quoted kind ++ skipped ++ '"' :: "sha256".toList) ++
      '"' :: beforeColon ++ ':' :: afterColon) ++ quoted raw ++ (behind ++ tail) := by
    rw [hfirst.1, hsha.1]
    simp only [quoted, List.append_assoc, List.cons_append, List.nil_append]
  obtain ⟨before, artifact, after, later, hartifacts, hkind, front, member, back, literal, hmembers,
    hkey, hvalue, rfl, hlength⟩ := hapart _ raw _ value htext hspells hhash
  obtain ⟨more, hown⟩ := text_eq hartifacts hmembers
  have hown' : manifest.text = ((manifest.textBefore before artifact front member ++
      '"' :: member.key.raw) ++ '"' :: member.beforeColon.val ++ ':' :: member.afterColon.val) ++
        quoted literal.raw ++ (member.behind.val ++ more) := by
    rw [hown, Member.rest, hvalue]
    simp only [MemberValue.text, JsonString.text, quoted, List.append_assoc, List.cons_append,
      List.nil_append]
  -- the same string is read, and the texts before it are the same
  rw [htext, List.append_assoc, List.append_assoc _ (quoted literal.raw)] at hown'
  obtain ⟨hfront, hstring⟩ := List.append_inj hown' (by
    rw [hlength]
    simp [JsonString.text, quoted])
  have hknown : literal.pieces.all Piece.isKnown = true := by
    have hsame : raw ++ '"' :: (behind ++ tail) =
        literal.raw ++ '"' :: (member.behind.val ++ more) := by simpa [quoted] using hstring
    exact known_of_spells hspells hsame
  have hcolon := append_gap_inj hafter (all_isWhitespace_of_isGap member.afterColon.2) (by decide)
    (by decide) hfront
  have hquote := append_gap_inj hbefore (all_isWhitespace_of_isGap member.beforeColon.2) (by decide)
    (by decide) hcolon
  have hkeyRaw : '"' ∉ member.key.raw := quote_not_mem_raw (by rw [hkey]; decide)
  obtain ⟨hplace, hraw⟩ := append_quoted_inj (by decide) hkeyRaw hquote
  exact ⟨before, artifact, after, later, hartifacts, hkind, front, member, back, literal, hmembers, hkey,
    hraw.symm, hvalue, hknown, congrArg List.length hplace⟩

/-- Every answer is a hash of the kind where what is read is its own, and only there
if no other string of the text reads as such a hash. -/
theorem parseManifestSha256_isHash (manifest : Manifest) (kind : List Char) :
    (manifest.ReadsOwn kind →
      ∀ hash, parseManifestSha256 manifest.text kind = some hash → manifest.IsHash kind hash) ∧
    (manifest.HashesApart kind →
      (∀ hash, parseManifestSha256 manifest.text kind = some hash → manifest.IsHash kind hash) →
        manifest.ReadsOwn kind) := by
  constructor
  · intro h hash hparse
    obtain ⟨⟨place, hat⟩, hblank⟩ := parseManifestSha256_eq_some_iff.mp hparse
    exact (h place hash hat hblank).isHash hat
  · intro hapart h place value hat hblank
    have hparse := parseManifestSha256_eq_some_iff.mpr ⟨⟨place, hat⟩, hblank⟩
    exact isOwnPlace_of_apart hapart hat (h value hparse)

end Manifest

/-! ## A leak -/

def JsonString.ofPlain (text : List Char) (h : ∀ c ∈ text, c ≠ '"' ∧ c ≠ '\\' ∧ 0x20 ≤ c.toNat) :
    JsonString :=
  ⟨text.attach.map fun c ↦ .plain c.1 (h c.1 c.2)⟩

theorem plain_of_all {text : List Char}
    (h : (text.all fun c ↦ c ≠ '"' && c ≠ '\\' && decide (0x20 ≤ c.toNat)) = true) :
    ∀ c ∈ text, c ≠ '"' ∧ c ≠ '\\' ∧ 0x20 ≤ c.toNat := by
  intro c hc
  have hplain := List.all_eq_true.mp h c hc
  simp only [Bool.and_eq_true, decide_eq_true_eq] at hplain
  exact ⟨hplain.1.1, hplain.1.2, hplain.2⟩

def noGap : Gap := ⟨[], rfl⟩

def hashMember (hash : String) (h : ∀ c ∈ hash.toList, c ≠ '"' ∧ c ≠ '\\' ∧ 0x20 ≤ c.toNat) : Member :=
  ⟨noGap, .ofPlain "sha256".toList (plain_of_all (by decide)), noGap, noGap,
    .string (.ofPlain hash.toList h), noGap, by decide⟩

def kindMember (kind : String) (h : ∀ c ∈ kind.toList, c ≠ '"' ∧ c ≠ '\\' ∧ 0x20 ≤ c.toNat) : Member :=
  ⟨noGap, .ofPlain "kind".toList (plain_of_all (by decide)), noGap, noGap,
    .string (.ofPlain kind.toList h), noGap, by decide⟩

/-- Every artifact has its hash before its kind. -/
def hashesFirst : Manifest where
  lead := "\x7b\"artifacts\":[".toList
  artifacts := [
    (⟨noGap, [hashMember "aaa" (plain_of_all (by decide)),
      kindMember "portable_zip" (plain_of_all (by decide))], by decide⟩, [',']),
    (⟨noGap, [hashMember "bbb" (plain_of_all (by decide)),
      kindMember "msi" (plain_of_all (by decide))], by decide⟩, "]\x7d".toList)]

/-- The hash of the second artifact is taken for that of the first. -/
theorem parseManifestSha256_leaks :
    hashesFirst.text = ("\x7b\"artifacts\":[\x7b\"sha256\":\"aaa\",\"kind\":\"portable_zip\"\x7d," ++
        "\x7b\"sha256\":\"bbb\",\"kind\":\"msi\"\x7d]\x7d").toList ∧
      parseManifestSha256 hashesFirst.text "portable_zip".toList = some "bbb".toList ∧
      hashesFirst.IsHash "portable_zip".toList "aaa".toList ∧
      ¬ hashesFirst.IsHash "portable_zip".toList "bbb".toList ∧
      hashesFirst.IsHash "msi".toList "bbb".toList := by
  decide +kernel

/-- Every artifact has its kind before its hash. -/
def kindsFirst : Manifest where
  lead := "\x7b\"artifacts\":[".toList
  artifacts := [
    (⟨noGap, [kindMember "portable_zip" (plain_of_all (by decide)),
      hashMember "aaa" (plain_of_all (by decide))], by decide⟩, [',']),
    (⟨noGap, [kindMember "msi" (plain_of_all (by decide)),
      hashMember "bbb" (plain_of_all (by decide))], by decide⟩, "]\x7d".toList)]

theorem readsOwn_kindsFirst : kindsFirst.ReadsOwn "portable_zip".toList := by
  intro place value hat _
  obtain ⟨first, second, hfirst, hsecond, rfl⟩ := hat.find_eq
  have hkind : find (quoted "portable_zip".toList) kindsFirst.text = some 22 := by decide +kernel
  obtain rfl := Option.some.inj (hkind.symm.trans hfirst)
  have hsha : find (quoted "sha256".toList) (kindsFirst.text.drop
      (22 + (quoted "portable_zip".toList).length)) = some 1 := by decide +kernel
  obtain rfl := Option.some.inj (hsha.symm.trans hsecond)
  exact ⟨[], _, _, _, rfl, by decide +kernel, [_], _, [], _, rfl, by decide +kernel, by decide +kernel,
    rfl, by decide +kernel, by decide +kernel⟩

/-- The first hash is that of the first kind. -/
theorem parseManifestSha256_isHash_kindsFirst :
    parseManifestSha256 kindsFirst.text "portable_zip".toList = some "aaa".toList ∧
      kindsFirst.IsHash "portable_zip".toList "aaa".toList := by
  have hparse : parseManifestSha256 kindsFirst.text "portable_zip".toList = some "aaa".toList := by
    decide +kernel
  refine ⟨hparse, ?_⟩
  exact (Manifest.parseManifestSha256_isHash kindsFirst _).1 readsOwn_kindsFirst _ hparse

end UpdateManifest

end WinBlaze
