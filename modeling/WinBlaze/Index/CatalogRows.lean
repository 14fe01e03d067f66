import WinBlaze.Index.CatalogExport
import WinBlaze.Index.ImportedTree

/-!
# Rows of an exported catalog

A written row is read as the values of its fields, and what is written in columns
separated by commas can be read in columns separated by tabs.
-/

namespace WinBlaze

namespace CatalogText

/-! ## Fields -/

inductive Field
  | quoted (text : List Char)
  /-- A text that needs no quotes. -/
  | plain (text : List Char)

namespace Field

def text : Field → List Char
  | quoted text => CatalogText.quoted text
  | plain text => text

def value : Field → List Char
  | quoted text => text
  | plain text => text

/-- None of its characters means anything to the reader. -/
def Clean : Field → Prop
  | quoted _ => True
  | plain text => ∀ c ∈ text, c ∉ ['"', ',', '\t', '\r', '\n']

end Field

/-- A row that is written: its first field and the others. -/
structure Line where
  first : Field
  others : List Field

namespace Line

def fields (line : Line) : List Field := line.first :: line.others

def values (line : Line) : Row := line.fields.map Field.value

def text (delimiter : Char) (line : Line) : List Char :=
  line.first.text ++ line.others.flatMap (fun field ↦ delimiter :: field.text) ++ ['\r', '\n']

/-- The reader takes it apart again, and does not drop it. -/
structure Readable (line : Line) : Prop where
  clean : ∀ field ∈ line.fields, field.Clean
  text : ∃ text ∈ line.values, text ≠ []

end Line

theorem escaped_eq_flatMap (text : List Char) :
    escaped text = text.flatMap fun c ↦ if c = '"' then ['"', '"'] else [c] := by
  induction text with
  | nil => rfl
  | cons c rest ih =>
      obtain ⟨first, parts, hparts⟩ :=
        List.exists_cons_of_ne_nil (List.splitOnP_ne_nil (· == '"') rest)
      simp only [escaped, List.splitOn, hparts] at ih
      by_cases hc : c = '"'
      · simp [escaped, List.splitOn, List.splitOnP_cons_eq_if_modifyHead, hparts, hc, ← ih]
      · simp [escaped, List.splitOn, List.splitOnP_cons_eq_if_modifyHead, hparts, hc, ← ih]

theorem escaped_append (first second : List Char) :
    escaped (first ++ second) = escaped first ++ escaped second := by
  simp only [escaped_eq_flatMap, List.flatMap_append]

theorem escaped_cons (c : Char) (rest : List Char) :
    escaped (c :: rest) = (if c = '"' then ['"', '"'] else [c]) ++ escaped rest := by
  simp only [escaped_eq_flatMap, List.flatMap_cons]

/-! ## Reading -/

section Steps

variable {delimiter : Char} {reader : RowReader}

theorem read_unquoted (hquoted : reader.quoted = false) (c : Char) (rest : List Char) :
    RowReader.read delimiter reader (c :: rest) =
      if c = '"' then
        if reader.field.isEmpty && !reader.closed then
          RowReader.read delimiter { reader with quoted := true } rest
        else .error (.invalid "Unexpected CSV quote")
      else if c = delimiter then RowReader.read delimiter reader.endField rest
      else if c = '\n' then RowReader.read delimiter reader.endRow rest
      else if c = '\r' ∧ rest.head? = some '\n' then RowReader.read delimiter reader rest
      else if reader.closed then .error (.invalid "Characters after closing CSV quote")
      else RowReader.read delimiter (reader.push c) rest := by
  cases rest with
  | nil => rw [RowReader.read.eq_2, if_neg (Bool.eq_false_iff.mp hquoted)]
  | cons next after => rw [RowReader.read, if_neg (Bool.eq_false_iff.mp hquoted)]

theorem read_inside (hquoted : reader.quoted = true) {c : Char} (hc : c ≠ '"') (rest : List Char) :
    RowReader.read delimiter reader (c :: rest) = RowReader.read delimiter (reader.push c) rest := by
  cases rest with
  | nil => rw [RowReader.read.eq_2, if_pos hquoted, if_neg hc]
  | cons next after => rw [RowReader.read, if_pos hquoted, if_neg hc]

theorem read_doubled (hquoted : reader.quoted = true) (rest : List Char) :
    RowReader.read delimiter reader ('"' :: '"' :: rest) =
      RowReader.read delimiter (reader.push '"') rest := by
  rw [RowReader.read, if_pos hquoted, if_pos rfl, if_pos rfl]

theorem read_closing (hquoted : reader.quoted = true) {rest : List Char}
    (hrest : rest.head? ≠ some '"') : RowReader.read delimiter reader ('"' :: rest) =
      RowReader.read delimiter { reader with quoted := false, closed := true } rest := by
  cases rest with
  | nil => rw [RowReader.read.eq_2, if_pos hquoted, if_pos rfl, RowReader.read.eq_1]
  | cons next after =>
      have hnext : next ≠ '"' := fun heq ↦ hrest (congrArg some heq)
      rw [RowReader.read, if_pos hquoted, if_pos rfl, if_neg hnext]

end Steps

section Reading

variable {delimiter : Char} {done : List Row} {row : Row}

theorem read_plain {field text : List Char}
    (htext : ∀ c ∈ text, c ≠ '"' ∧ c ≠ delimiter ∧ c ≠ '\r' ∧ c ≠ '\n') (rest : List Char) :
    RowReader.read delimiter ⟨done, row, field, false, false⟩ (text ++ rest) =
      RowReader.read delimiter ⟨done, row, field ++ text, false, false⟩ rest := by
  induction text generalizing field with
  | nil => rw [List.append_nil, List.nil_append]
  | cons c tail ih =>
      obtain ⟨⟨hq, hd, hr, hn⟩, htail⟩ := List.forall_mem_cons.mp htext
      have hstep : RowReader.read delimiter ⟨done, row, field, false, false⟩ (c :: (tail ++ rest)) =
          RowReader.read delimiter ⟨done, row, field ++ [c], false, false⟩ (tail ++ rest) := by
        rw [read_unquoted rfl, if_neg hq, if_neg hd, if_neg hn, if_neg fun h ↦ hr h.1,
          if_neg Bool.false_ne_true]
        rfl
      rw [List.cons_append, hstep, ih htail, List.append_assoc, List.singleton_append]

/-- Between its quotes a text is read as it was before it was escaped. -/
theorem read_escaped (field text : List Char) {rest : List Char} (hrest : rest.head? ≠ some '"') :
    RowReader.read delimiter ⟨done, row, field, true, false⟩ (escaped text ++ '"' :: rest) =
      RowReader.read delimiter ⟨done, row, field ++ text, false, true⟩ rest := by
  induction text generalizing field with
  | nil =>
      rw [List.append_nil]
      exact read_closing rfl hrest
  | cons c tail ih =>
      rw [escaped_cons, ← List.singleton_append (l := tail), ← List.append_assoc]
      split
      case isTrue hc =>
        rw [hc, ← ih]
        exact read_doubled rfl _
      case isFalse hc =>
        rw [← ih]
        exact read_inside rfl hc _

/-- What follows a field. -/
structure Separates (delimiter : Char) : Prop where
  quote : delimiter ≠ '"'
  carriageReturn : delimiter ≠ '\r'
  newline : delimiter ≠ '\n'
  plain : ∀ c, c ∉ ['"', ',', '\t', '\r', '\n'] → c ≠ delimiter

variable (hdelimiter : Separates delimiter)

include hdelimiter

theorem read_field (done : List Row) (row : Row) {field : Field} (hclean : field.Clean) {rest : List Char}
    (hrest : rest.head? ≠ some '"') : ∃ closed,
      RowReader.read delimiter ⟨done, row, [], false, false⟩ (field.text ++ rest) =
        RowReader.read delimiter ⟨done, row, field.value, false, closed⟩ rest := by
  cases field with
  | quoted text =>
      refine ⟨true, ?_⟩
      have htext : (Field.quoted text).text ++ rest = '"' :: (escaped text ++ '"' :: rest) := by
        simp [Field.text, quoted]
      rw [htext, read_unquoted rfl, if_pos rfl]
      exact read_escaped [] text hrest
  | plain text =>
      refine ⟨false, read_plain (fun c hc ↦ ?_) rest⟩
      have hspecial := hclean c hc
      refine ⟨?_, hdelimiter.plain c hspecial, ?_, ?_⟩ <;>
      · rintro rfl
        simp at hspecial

theorem read_delimiter (value : List Char) (closed : Bool) (rest : List Char) :
    RowReader.read delimiter ⟨done, row, value, false, closed⟩ (delimiter :: rest) =
      RowReader.read delimiter ⟨done, row ++ [value], [], false, false⟩ rest := by
  rw [read_unquoted rfl, if_neg hdelimiter.quote, if_pos rfl]
  rfl

/-- Any text in the row keeps it from being dropped. -/
theorem read_lineEnd {value : List Char} (htext : ∃ text ∈ row ++ [value], text ≠ []) (closed : Bool)
    (rest : List Char) :
    RowReader.read delimiter ⟨done, row, value, false, closed⟩ ('\r' :: '\n' :: rest) =
      RowReader.read delimiter ⟨done ++ [row ++ [value]], [], [], false, false⟩ rest := by
  have hany : (row ++ [value]).any (fun value ↦ !value.isEmpty) = true := by
    obtain ⟨text, hmem, hne⟩ := htext
    exact List.any_eq_true.mpr ⟨text, hmem, by simpa using hne⟩
  rw [read_unquoted rfl, if_neg (by decide), if_neg hdelimiter.carriageReturn.symm,
    if_neg (by decide), if_pos ⟨rfl, rfl⟩, read_unquoted rfl, if_neg (by decide),
    if_neg hdelimiter.newline.symm, if_pos rfl]
  exact congrArg (fun reader ↦ RowReader.read delimiter reader rest) (if_pos hany)

theorem read_fields (done : List Row) (row : Row) {first : Field} {others : List Field}
    (hclean : ∀ field ∈ first :: others, field.Clean)
    (htext : ∃ text ∈ row ++ (first :: others).map Field.value, text ≠ []) (rest : List Char) :
    RowReader.read delimiter ⟨done, row, [], false, false⟩ ((⟨first, others⟩ : Line).text delimiter ++ rest) =
      RowReader.read delimiter
        ⟨done ++ [row ++ (first :: others).map Field.value], [], [], false, false⟩ rest := by
  induction others generalizing first row with
  | nil =>
      have hsplit : (⟨first, []⟩ : Line).text delimiter ++ rest = first.text ++ '\r' :: '\n' :: rest := by
        simp [Line.text]
      have hend : ('\r' :: '\n' :: rest).head? ≠ some '"' := by simp
      obtain ⟨closed, hread⟩ := read_field hdelimiter done row (hclean first List.mem_cons_self) hend
      rw [hsplit, hread]
      exact read_lineEnd hdelimiter htext closed rest
  | cons second others ih =>
      have hsplit : (⟨first, second :: others⟩ : Line).text delimiter ++ rest =
          first.text ++ delimiter :: ((⟨second, others⟩ : Line).text delimiter ++ rest) := by
        simp [Line.text]
      have hend : (delimiter :: ((⟨second, others⟩ : Line).text delimiter ++ rest)).head? ≠ some '"' := by
        simpa using hdelimiter.quote
      obtain ⟨closed, hread⟩ := read_field hdelimiter done row (hclean first List.mem_cons_self) hend
      have hvalues : row ++ (first :: second :: others).map Field.value =
          row ++ [first.value] ++ (second :: others).map Field.value := by simp
      rw [hsplit, hread, read_delimiter hdelimiter, hvalues]
      exact ih _ (fun field hfield ↦ hclean field (List.mem_cons_of_mem first hfield)) (hvalues ▸ htext)

/-- A written row is read as the values of its fields. -/
theorem read_lines (done : List Row) {lines : List Line} (hlines : ∀ line ∈ lines, line.Readable) :
    RowReader.read delimiter ⟨done, [], [], false, false⟩ (lines.flatMap (Line.text delimiter)) =
      .ok ⟨done ++ lines.map Line.values, [], [], false, false⟩ := by
  induction lines generalizing done with
  | nil => rw [List.map_nil, List.append_nil, List.flatMap_nil, RowReader.read]
  | cons line lines ih =>
      obtain ⟨hline, hlines⟩ := List.forall_mem_cons.mp hlines
      have hread := read_fields hdelimiter done [] hline.clean hline.text
        (lines.flatMap (Line.text delimiter))
      rw [List.flatMap_cons, hread, ih _ hlines, List.map_cons, List.append_assoc,
        List.singleton_append]
      rfl

theorem rows_lines {lines : List Line} (hlines : ∀ line ∈ lines, line.Readable) :
    rows (lines.flatMap (Line.text delimiter)) delimiter = .ok (lines.map Line.values) := by
  have hread := read_lines hdelimiter [] hlines
  rw [List.nil_append] at hread
  simp only [rows, hread, Except.bind, bind, ensure, pure, Except.pure]
  rfl

end Reading

theorem separates_comma : Separates ',' where
  quote := by decide
  carriageReturn := by decide
  newline := by decide
  plain c hc := by
    rintro rfl
    simp at hc

theorem separates_tab : Separates '\t' where
  quote := by decide
  carriageReturn := by decide
  newline := by decide
  plain c hc := by
    rintro rfl
    simp at hc

/-! ## Tabs for commas -/

namespace TabWriter

variable {β : Type} [DecidableEq β] (ascii : Char → β)

/-- Whether the place behind some bytes is quoted. -/
def quotedAfter (inside : Bool) (bytes : List β) : Bool :=
  bytes.foldl (fun inside byte ↦ if byte = ascii '"' then !inside else inside) inside

/-- Tabs in place of the commas that are not quoted. -/
def tabbed (inside : Bool) : List β → List β
  | [] => []
  | byte :: rest =>
      (if byte = ascii ',' ∧ inside = false then ascii '\t' else byte) ::
        tabbed (if byte = ascii '"' then !inside else inside) rest

theorem quotedAfter_append (inside : Bool) (first second : List β) :
    quotedAfter ascii inside (first ++ second) =
      quotedAfter ascii (quotedAfter ascii inside first) second := List.foldl_append

theorem tabbed_append (inside : Bool) (first second : List β) :
    tabbed ascii inside (first ++ second) =
      tabbed ascii inside first ++ tabbed ascii (quotedAfter ascii inside first) second := by
  induction first generalizing inside with
  | nil => rfl
  | cons byte rest ih => exact congrArg _ (ih _)

variable (hcomma : ascii ',' ≠ ascii '"')

include hcomma

theorem foldl_writeByte (writer : TabWriter β) (kept bytes : List β) :
    let state := bytes.foldl (writeByte ascii) (writer, kept)
    state.1.output ++ state.2 = writer.output ++ kept ++ tabbed ascii writer.quoted bytes ∧
      state.1.quoted = quotedAfter ascii writer.quoted bytes := by
  induction bytes generalizing writer kept with
  | nil => simp [tabbed, quotedAfter]
  | cons byte rest ih =>
      rw [List.foldl_cons]
      by_cases hquote : byte = ascii '"'
      · have hkept : ¬ (byte = ascii ',' ∧ writer.quoted = false) :=
          fun h ↦ hcomma (h.1.symm.trans hquote)
        have hstep : writeByte ascii (writer, kept) byte =
            ({ writer with quoted := !writer.quoted }, kept ++ [byte]) := if_pos hquote
        obtain ⟨houtput, hquoted⟩ := ih { writer with quoted := !writer.quoted } (kept ++ [byte])
        rw [hstep]
        refine ⟨houtput.trans ?_, hquoted.trans ?_⟩
        · rw [tabbed, if_neg hkept, if_pos hquote]
          simp
        · rw [quotedAfter, quotedAfter, List.foldl_cons, if_pos hquote]
      · by_cases hreplaced : byte = ascii ',' ∧ writer.quoted = false
        · have hstep : writeByte ascii (writer, kept) byte =
              ({ writer with output := writer.output ++ kept ++ [ascii '\t'] }, []) :=
            (if_neg hquote).trans (if_pos hreplaced)
          obtain ⟨houtput, hquoted⟩ :=
            ih { writer with output := writer.output ++ kept ++ [ascii '\t'] } []
          rw [hstep]
          refine ⟨houtput.trans ?_, hquoted.trans ?_⟩
          · rw [tabbed, if_pos hreplaced, if_neg hquote]
            simp
          · rw [quotedAfter, quotedAfter, List.foldl_cons, if_neg hquote]
        · have hstep : writeByte ascii (writer, kept) byte = (writer, kept ++ [byte]) :=
            (if_neg hquote).trans (if_neg hreplaced)
          obtain ⟨houtput, hquoted⟩ := ih writer (kept ++ [byte])
          rw [hstep]
          refine ⟨houtput.trans ?_, hquoted.trans ?_⟩
          · rw [tabbed, if_neg hreplaced, if_neg hquote]
            simp
          · rw [quotedAfter, quotedAfter, List.foldl_cons, if_neg hquote]

theorem write_eq (writer : TabWriter β) (bytes : List β) :
    writer.write ascii bytes = ⟨writer.output ++ tabbed ascii writer.quoted bytes,
      quotedAfter ascii writer.quoted bytes⟩ := by
  obtain ⟨houtput, hquoted⟩ := foldl_writeByte ascii hcomma writer [] bytes
  rw [List.append_nil] at houtput
  exact congrArg₂ TabWriter.mk houtput hquoted

/-- It does not matter into which calls the bytes are split. -/
theorem foldl_write (writer : TabWriter β) (calls : List (List β)) :
    calls.foldl (write ascii) writer = writer.write ascii calls.flatten := by
  induction calls generalizing writer with
  | nil => simp [write_eq ascii hcomma, tabbed, quotedAfter]
  | cons call calls ih =>
      rw [List.foldl_cons, ih, List.flatten_cons]
      simp only [write_eq ascii hcomma, tabbed_append, quotedAfter_append, List.append_assoc]

omit hcomma in
theorem quotedAfter_eq (inside : Bool) (bytes : List β) :
    quotedAfter ascii inside bytes = (inside ^^ decide (bytes.count (ascii '"') % 2 = 1)) := by
  induction bytes generalizing inside with
  | nil => simp [quotedAfter]
  | cons byte rest ih =>
      have hcons : quotedAfter ascii inside (byte :: rest) =
          quotedAfter ascii (if byte = ascii '"' then !inside else inside) rest := rfl
      rw [hcons, ih, List.count_cons]
      by_cases hquote : byte = ascii '"'
      · have hparity : ((rest.count (ascii '"') + 1) % 2 = 1) ↔
            ¬ rest.count (ascii '"') % 2 = 1 := by omega
        simp only [hquote, if_true, beq_self_eq_true, hparity, decide_not]
        cases inside <;> simp
      · simp [hquote]

omit hcomma in
/-- A byte is replaced if it is a comma and the quotes before it are even in number. -/
theorem tabbed_eq_mapIdx (inside : Bool) (bytes : List β) :
    tabbed ascii inside bytes = bytes.mapIdx fun place byte ↦
      if byte = ascii ',' ∧ quotedAfter ascii inside (bytes.take place) = false then ascii '\t'
      else byte := by
  induction bytes generalizing inside with
  | nil => rfl
  | cons byte rest ih =>
      rw [tabbed, List.mapIdx_cons, ih]
      rfl

end TabWriter

/-! ## Lines and tabs -/

section Tabs

open TabWriter

/-- Text is kept inside of quotes, and outside of them where it has no comma. -/
theorem tabbed_kept {inside : Bool} {text : List Char}
    (htext : ∀ c ∈ text, c ≠ '"' ∧ (inside = false → c ≠ ',')) :
    tabbed id inside text = text ∧ quotedAfter id inside text = inside := by
  induction text with
  | nil => exact ⟨rfl, rfl⟩
  | cons c rest ih =>
      obtain ⟨⟨hquote, hcomma⟩, hrest⟩ := List.forall_mem_cons.mp htext
      obtain ⟨htabbed, hquoted⟩ := ih hrest
      have hinside : (if c = id '"' then !inside else inside) = inside := if_neg hquote
      constructor
      · rw [tabbed, hinside, htabbed, if_neg fun h ↦ hcomma h.2 h.1]
      · rw [quotedAfter, List.foldl_cons, hinside]
        exact hquoted

/-- Doubled quotes end and begin the quoted part in between. -/
theorem tabbed_escaped (text : List Char) :
    tabbed id true (escaped text) = escaped text ∧ quotedAfter id true (escaped text) = true := by
  induction text with
  | nil => exact ⟨rfl, rfl⟩
  | cons c rest ih =>
      have hfirst : tabbed id true (if c = '"' then ['"', '"'] else [c]) =
          (if c = '"' then ['"', '"'] else [c]) ∧
          quotedAfter id true (if c = '"' then ['"', '"'] else [c]) = true := by
        split
        case isTrue => exact ⟨rfl, rfl⟩
        case isFalse hc =>
          exact tabbed_kept fun d hd ↦ ⟨List.mem_singleton.mp hd ▸ hc, fun h ↦ by cases h⟩
      rw [escaped_cons, tabbed_append, quotedAfter_append, hfirst.1, hfirst.2, ih.1, ih.2]
      exact ⟨rfl, rfl⟩

theorem tabbed_field {field : Field} (hclean : field.Clean) :
    tabbed id false field.text = field.text ∧ quotedAfter id false field.text = false := by
  cases field with
  | quoted text =>
      obtain ⟨htabbed, hquoted⟩ := tabbed_escaped text
      have hopen : tabbed id false ['"'] = ['"'] ∧ quotedAfter id false ['"'] = true := ⟨rfl, rfl⟩
      have hclose : tabbed id true ['"'] = ['"'] ∧ quotedAfter id true ['"'] = false := ⟨rfl, rfl⟩
      rw [Field.text, CatalogText.quoted, ← List.singleton_append, tabbed_append, tabbed_append,
        quotedAfter_append, quotedAfter_append, hopen.1, hopen.2, htabbed, hquoted, hclose.1, hclose.2]
      exact ⟨rfl, rfl⟩
  | plain text =>
      refine tabbed_kept fun c hc ↦ ?_
      have hspecial := hclean c hc
      constructor
      · rintro rfl
        simp at hspecial
      · rintro - rfl
        simp at hspecial

theorem tabbed_others {others : List Field} (hclean : ∀ field ∈ others, field.Clean) :
    tabbed id false (others.flatMap fun field ↦ ',' :: field.text) =
        (others.flatMap fun field ↦ '\t' :: field.text) ∧
      quotedAfter id false (others.flatMap fun field ↦ ',' :: field.text) = false := by
  induction others with
  | nil => exact ⟨rfl, rfl⟩
  | cons field others ih =>
      obtain ⟨hfield, hothers⟩ := List.forall_mem_cons.mp hclean
      obtain ⟨htabbed, hquoted⟩ := tabbed_field hfield
      obtain ⟨hrest, hafter⟩ := ih hothers
      have hcomma : tabbed id false (',' :: field.text) = '\t' :: field.text ∧
          quotedAfter id false (',' :: field.text) = false :=
        ⟨congrArg (List.cons '\t') htabbed, hquoted⟩
      rw [List.flatMap_cons, List.flatMap_cons, tabbed_append, quotedAfter_append, hcomma.1, hcomma.2,
        hrest, hafter]
      exact ⟨rfl, rfl⟩

theorem tabbed_line {line : Line} (hline : line.Readable) :
    tabbed id false (line.text ',') = line.text '\t' ∧ quotedAfter id false (line.text ',') = false := by
  obtain ⟨hfirst, hothers⟩ := List.forall_mem_cons.mp hline.clean
  have hend : tabbed id false ['\r', '\n'] = ['\r', '\n'] ∧
      quotedAfter id false ['\r', '\n'] = false := ⟨rfl, rfl⟩
  simp only [Line.text, tabbed_append, quotedAfter_append, tabbed_field hfirst, tabbed_others hothers,
    hend, and_self]

/-- Lines in columns separated by commas become the same lines in columns separated by tabs. -/
theorem tabbed_lines {lines : List Line} (hlines : ∀ line ∈ lines, line.Readable) :
    tabbed id false (lines.flatMap (Line.text ',')) = lines.flatMap (Line.text '\t') := by
  induction lines with
  | nil => rfl
  | cons line lines ih =>
      obtain ⟨hline, hlines⟩ := List.forall_mem_cons.mp hlines
      rw [List.flatMap_cons, List.flatMap_cons, tabbed_append, (tabbed_line hline).1,
        (tabbed_line hline).2, ih hlines]

end Tabs

/-! ## Tables of texts -/

theorem intercalate_eq (delimiter : Char) (first : List Char) (others : List (List Char)) :
    [delimiter].intercalate (first :: others) = first ++ others.flatMap (delimiter :: ·) := by
  induction others generalizing first with
  | nil => simp [List.intercalate]
  | cons second others ih =>
      have hstep : [delimiter].intercalate (first :: second :: others) =
          first ++ delimiter :: [delimiter].intercalate (second :: others) := by
        simp [List.intercalate]
      rw [hstep, ih, List.flatMap_cons]
      rfl

/-- Rows of quoted texts, whatever the texts are. -/
theorem rows_quoted {delimiter : Char} (hdelimiter : Separates delimiter) {table : List Row}
    (htable : ∀ row ∈ table, ∃ text ∈ row, text ≠ []) :
    rows (table.flatMap fun row ↦ [delimiter].intercalate (row.map quoted) ++ ['\r', '\n']) delimiter =
      .ok table := by
  have hlines : ∃ lines : List Line, (∀ line ∈ lines, line.Readable) ∧
      lines.map Line.values = table ∧ lines.flatMap (Line.text delimiter) =
        table.flatMap fun row ↦ [delimiter].intercalate (row.map quoted) ++ ['\r', '\n'] := by
    induction table with
    | nil => exact ⟨[], by simp, rfl, rfl⟩
    | cons row table ih =>
        obtain ⟨⟨text, hmem, hnonempty⟩, hrest⟩ := List.forall_mem_cons.mp htable
        obtain ⟨lines, hreadable, hvalues, htext⟩ := ih hrest
        obtain ⟨first, others, rfl⟩ := List.exists_cons_of_ne_nil (List.ne_nil_of_mem hmem)
        have hline : (⟨.quoted first, others.map .quoted⟩ : Line).values = first :: others := by
          simp only [Line.values, Line.fields, List.map_cons, List.map_map]
          exact congrArg (first :: ·) (List.map_id others)
        refine ⟨⟨.quoted first, others.map .quoted⟩ :: lines, ?_, ?_, ?_⟩
        · refine List.forall_mem_cons.mpr ⟨⟨fun field hfield ↦ ?_, ?_⟩, hreadable⟩
          · rcases List.mem_cons.mp hfield with rfl | hfield
            · trivial
            · obtain ⟨text, -, rfl⟩ := List.mem_map.mp hfield
              trivial
          · exact ⟨text, hline.symm ▸ hmem, hnonempty⟩
        · rw [List.map_cons, hline, hvalues]
        · rw [List.flatMap_cons, List.flatMap_cons, htext, Line.text, List.map_cons, intercalate_eq,
            List.flatMap_map, List.flatMap_map]
          rfl
  obtain ⟨lines, hreadable, hvalues, htext⟩ := hlines
  rw [← htext, rows_lines hdelimiter hreadable, hvalues]

/-- Tables are read as they were written, and tabs take the place of commas outside of quotes. -/
theorem quotedTables :
    (∀ table : List Row, (∀ row ∈ table, ∃ text ∈ row, text ≠ []) → ∀ delimiter ∈ [',', '\t'],
      rows (table.flatMap fun row ↦ [delimiter].intercalate (row.map quoted) ++ ['\r', '\n']) delimiter =
        .ok table) ∧
    ∀ calls : List (List UInt8), (calls.foldl (TabWriter.write Char.toUInt8) {}).output =
      calls.flatten.mapIdx fun place byte ↦
        if byte = ','.toUInt8 ∧ (calls.flatten.take place).count '"'.toUInt8 % 2 = 0 then '\t'.toUInt8
        else byte := by
  constructor
  · intro table htable delimiter hdelimiter
    refine rows_quoted ?_ htable
    rcases List.mem_pair.mp hdelimiter with rfl | rfl
    · exact separates_comma
    · exact separates_tab
  · intro calls
    have hcomma : Char.toUInt8 ',' ≠ Char.toUInt8 '"' := by decide
    rw [TabWriter.foldl_write _ hcomma, TabWriter.write_eq _ hcomma, TabWriter.tabbed_eq_mapIdx]
    simp [TabWriter.quotedAfter_eq]

theorem quotedTables_delimiters :
    rows "\"a,\"\"b\"\"\",\"\"\r\n\"\r\n\",\"c\"\r\n".toList ',' =
      .ok [["a,\"b\"".toList, []], ["\r\n".toList, ['c']]] :=
  quotedTables.1 [["a,\"b\"".toList, []], ["\r\n".toList, ['c']]] (by decide) ',' (by decide)

end CatalogText

end WinBlaze
