import FatBTree.Tcam.Config

/-!
# From the printed rows to the installed entries

A row is read back as it was printed, unless its blank is missing: then it has one
number too few and the loader stops.
-/

namespace FatBTree.Tcam

open FatBTree.Text

/-! ## Lines -/

/-- The entry that a row of the first three tables becomes. -/
def Row.entry (row : Row) : Entry := ⟨row.pf, row.l, row.r, row.idx, some row.next⟩

/-- The last table has no `nexttable`. -/
def Row.lastEntry (row : Row) : Entry := ⟨row.pf, row.l, row.r, row.idx, none⟩

/-- The characters a row is written with. -/
def IsRowChar (c : Char) : Prop := IsNumeral c ∨ c = ' '

theorem isRowChar_of_mem_spaced {numbers : List Nat} {c : Char} (hc : c ∈ spaced 16 numbers) :
    IsRowChar c := by
  have hdigits : ∀ n, c ∈ Nat.toDigits 16 n → IsRowChar c :=
    fun n hmem => Or.inl (isNumeral_of_mem_toDigits .sixteen hmem)
  induction numbers with
  | nil => cases hc
  | cons n rest ih =>
      cases rest with
      | nil => exact hdigits n hc
      | cons next rest =>
          rw [spaced] at hc
          · rcases List.mem_append.mp hc with hmem | hmem
            · exact hdigits n hmem
            · rcases List.mem_cons.mp hmem with rfl | hmem
              · exact Or.inr rfl
              · exact ih hmem
          · simp

theorem isRowChar_of_mem_text {row : Row} {c : Char} (hc : c ∈ row.text) : IsRowChar c := by
  unfold Row.text at hc
  split at hc
  next => exact isRowChar_of_mem_spaced hc
  next =>
    split at hc
    next =>
      rcases List.mem_append.mp hc with hmem | hmem
      · exact Or.inl (isNumeral_of_mem_toDigits .sixteen hmem)
      · exact isRowChar_of_mem_spaced hmem
    next => exact isRowChar_of_mem_spaced hc

theorem IsRowChar.ne {c sep : Char} (rowChar : IsRowChar c) (other : digitValue sep = none)
    (hsep : sep ≠ ' ') : c ≠ sep := by
  rcases rowChar with hnumeral | rfl
  · exact hnumeral.ne_of_digitValue other
  · exact hsep.symm

theorem line_eq {loader : Loader} {line : List Char} (hhash : '#' ∉ line)
    (hidx : loader.tableIdx ≠ 0) :
    loader.line line = (readNumbers 16 line).bind
      (fun args => if args.length < 2 then some loader else loader.add args) := by
  have hrest : (if loader.tableIdx = 0 then some loader
      else (readNumbers 16 line).bind
        (fun args => if args.length < 2 then some loader else loader.add args)) =
      (readNumbers 16 line).bind
        (fun args => if args.length < 2 then some loader else loader.add args) := if_neg hidx
  cases line with
  | nil => exact hrest
  | cons c rest =>
      have hc : c ≠ '#' := fun heq => hhash (heq ▸ List.mem_cons_self)
      rw [← hrest, Loader.line]
      simpa using hc

theorem line_of_readNumbers {loader : Loader} {line : List Char} {args : List Nat}
    (hhash : '#' ∉ line) (hidx : loader.tableIdx ≠ 0) (hread : readNumbers 16 line = some args)
    (hlen : 2 ≤ args.length) : loader.line line = loader.add args := by
  rw [line_eq hhash hidx, hread, Option.bind_some, if_neg (Nat.not_lt.mpr hlen)]

theorem length_of_mapM {α β : Type} {f : α → Option β} {xs : List α} {ys : List β}
    (hmap : xs.mapM f = some ys) : ys.length = xs.length := by
  induction xs generalizing ys with
  | nil =>
      obtain rfl : [] = ys := Option.some.inj hmap
      rfl
  | cons x rest ih =>
      rw [List.mapM_cons] at hmap
      obtain ⟨y, -, hmap⟩ := Option.bind_eq_some_iff.mp hmap
      obtain ⟨others, hrest, hmap⟩ := Option.bind_eq_some_iff.mp hmap
      cases hmap
      exact congrArg Nat.succ (ih hrest)

theorem hash_not_mem_text (row : Row) : '#' ∉ row.text :=
  fun hmem => (isRowChar_of_mem_text hmem).ne (by decide) (by decide) rfl

theorem newline_not_mem_text (row : Row) : '\n' ∉ row.text :=
  fun hmem => (isRowChar_of_mem_text hmem).ne (by decide) (by decide) rfl

/-! ## Rows of one table -/

/-- Rows added to the table with the given number. -/
def Tables.extend (tables : Tables) (t : Nat) (entries : List Entry) : Tables :=
  match t with
  | 1 => { tables with table1 := tables.table1 ++ entries }
  | 2 => { tables with table2 := tables.table2 ++ entries }
  | 3 => { tables with table3 := tables.table3 ++ entries }
  | 4 => { tables with table4 := tables.table4 ++ entries }
  | _ => tables

theorem Tables.extend_nil (tables : Tables) (t : Nat) : tables.extend t [] = tables := by
  unfold Tables.extend
  split <;> simp

theorem Tables.extend_extend (tables : Tables) (t : Nat) (first second : List Entry) :
    (tables.extend t first).extend t second = tables.extend t (first ++ second) := by
  unfold Tables.extend
  split <;> simp

theorem foldlM_text {t : Nat} {entry : Row → Entry} {rows : List Row}
    (each : ∀ tables, ∀ row ∈ rows,
      Loader.line ⟨t, tables⟩ row.text = some ⟨t, tables.extend t [entry row]⟩)
    (tables : Tables) :
    (rows.map Row.text).foldlM Loader.line ⟨t, tables⟩ =
      some ⟨t, tables.extend t (rows.map entry)⟩ := by
  induction rows generalizing tables with
  | nil => exact congrArg (fun tables => some (Loader.mk t tables)) (tables.extend_nil t).symm
  | cons row rest ih =>
      rw [List.map_cons, List.foldlM_cons, each tables row List.mem_cons_self]
      refine (ih (fun tables other hother => each tables other (List.mem_cons_of_mem _ hother))
        _).trans ?_
      rw [Tables.extend_extend]
      rfl

/-- A loop stops at the first line that it cannot read. -/
theorem foldlM_text_none {t : Nat} (entry : Row → Entry) {rows : List Row}
    (each : ∀ tables, ∀ row ∈ rows, row.glued = false →
      Loader.line ⟨t, tables⟩ row.text = some ⟨t, tables.extend t [entry row]⟩)
    (stop : ∀ tables, ∀ row ∈ rows, row.glued = true → Loader.line ⟨t, tables⟩ row.text = none)
    (some_glued : ∃ row ∈ rows, row.glued = true) (tables : Tables) :
    (rows.map Row.text).foldlM Loader.line ⟨t, tables⟩ = none := by
  induction rows generalizing tables with
  | nil =>
      obtain ⟨row, hrow, -⟩ := some_glued
      cases hrow
  | cons first rest ih =>
      rw [List.map_cons, List.foldlM_cons]
      cases hglued : first.glued with
      | true =>
          rw [stop tables first List.mem_cons_self hglued]
          rfl
      | false =>
          have hrest : ∃ row ∈ rest, row.glued = true := by
            obtain ⟨row, hrow, htrue⟩ := some_glued
            rcases List.mem_cons.mp hrow with rfl | hmem
            · rw [hglued] at htrue
              cases htrue
            · exact ⟨row, hmem, htrue⟩
          rw [each tables first List.mem_cons_self hglued]
          exact ih (fun tables row hrow => each tables row (List.mem_cons_of_mem _ hrow))
            (fun tables row hrow => stop tables row (List.mem_cons_of_mem _ hrow)) hrest _

theorem line_text1 (tables : Tables) {row : Row} (hpf : row.pf = none) :
    Loader.line ⟨1, tables⟩ row.text = some ⟨1, tables.extend 1 [row.entry]⟩ := by
  have hread : readNumbers 16 row.text = some [row.l, row.r, row.next, row.idx] := by
    rw [Row.text, hpf]
    exact readNumbers_spaced .sixteen _
  rw [line_of_readNumbers (hash_not_mem_text row) (Nat.succ_ne_zero _) hread (by simp)]
  simp [Loader.add, entry1, Tables.extend, Row.entry, hpf]

theorem readNumbers_text {row : Row} {pf : Nat} (hpf : row.pf = some pf)
    (unglued : row.glued = false) :
    readNumbers 16 row.text = some [pf, row.l, row.r, row.next, row.idx] := by
  rw [Row.text, hpf, unglued]
  exact readNumbers_spaced .sixteen _

theorem line_text2 (tables : Tables) {row : Row} {pf : Nat} (hpf : row.pf = some pf)
    (unglued : row.glued = false) :
    Loader.line ⟨2, tables⟩ row.text = some ⟨2, tables.extend 2 [row.entry]⟩ := by
  rw [line_of_readNumbers (hash_not_mem_text row) (Nat.succ_ne_zero _)
    (readNumbers_text hpf unglued) (by simp)]
  simp [Loader.add, entry2, Tables.extend, Row.entry, hpf]

theorem line_text3 (tables : Tables) {row : Row} {pf : Nat} (hpf : row.pf = some pf)
    (unglued : row.glued = false) :
    Loader.line ⟨3, tables⟩ row.text = some ⟨3, tables.extend 3 [row.entry]⟩ := by
  rw [line_of_readNumbers (hash_not_mem_text row) (Nat.succ_ne_zero _)
    (readNumbers_text hpf unglued) (by simp)]
  simp [Loader.add, entry2, Tables.extend, Row.entry, hpf]

theorem line_text4 (tables : Tables) {row : Row} {pf : Nat} (hpf : row.pf = some pf)
    (unglued : row.glued = false) :
    Loader.line ⟨4, tables⟩ row.text = some ⟨4, tables.extend 4 [row.lastEntry]⟩ := by
  rw [line_of_readNumbers (hash_not_mem_text row) (Nat.succ_ne_zero _)
    (readNumbers_text hpf unglued) (by simp)]
  simp [Loader.add, entry4, Tables.extend, Row.lastEntry, hpf]

/-- Two numbers without a blank read as one. -/
theorem words_glued {row : Row} {pf : Nat} (hpf : row.pf = some pf) (glued : row.glued = true) :
    words row.text =
      [hex pf ++ hex row.l, hex row.r, hex row.next, hex row.idx] := by
  have hblank : (' ' : Char).isWhitespace = true := rfl
  have hnumeral : ∀ n, ∀ c ∈ hex n, c.isWhitespace = false := fun n c hc =>
    (isNumeral_of_mem_toDigits .sixteen hc).not_isWhitespace
  have hfirst : words (hex pf ++ hex row.l) = [hex pf ++ hex row.l] := by
    refine words_of_letters (by simp [hex, Nat.toDigits_ne_nil]) ?_
    intro c hc
    rcases List.mem_append.mp hc with hmem | hmem
    · exact hnumeral pf c hmem
    · exact hnumeral row.l c hmem
  have htext : row.text =
      (hex pf ++ hex row.l) ++ ' ' :: spaced 16 [row.r, row.next, row.idx] := by
    rw [Row.text, hpf, glued, List.append_assoc]
    rfl
  rw [htext, words_append_blank hblank, hfirst, words_spaced .sixteen]
  rfl

theorem line_glued (tables : Tables) {row : Row} {pf t : Nat} (hpf : row.pf = some pf)
    (glued : row.glued = true) (ht : t = 2 ∨ t = 3) :
    Loader.line ⟨t, tables⟩ row.text = none := by
  have hpos : t ≠ 0 := by omega
  rw [line_eq (hash_not_mem_text row) hpos, Option.bind_eq_none_iff]
  intro args hread
  have hlen : args.length = 4 := by
    rw [length_of_mapM hread, words_glued hpf glued]
    rfl
  have hmissing : args[4]? = none := List.getElem?_eq_none (by omega)
  rw [if_neg (by omega)]
  rcases ht with rfl | rfl
  · simp [Loader.add, entry2, hmissing]
  · simp [Loader.add, entry2, hmissing]

/-! ## The whole file -/

theorem line_heading (tables : Tables) (t : Nat) :
    Loader.line ⟨t, tables⟩ "# 1".toList = some ⟨1, tables⟩ ∧
      Loader.line ⟨t, tables⟩ "# 2".toList = some ⟨2, tables⟩ ∧
      Loader.line ⟨t, tables⟩ "# 3".toList = some ⟨3, tables⟩ ∧
      Loader.line ⟨t, tables⟩ "# 4".toList = some ⟨4, tables⟩ :=
  ⟨rfl, rfl, rfl, rfl⟩

theorem line_nil (loader : Loader) : loader.line [] = some loader := by
  have hline : loader.line [] = if loader.tableIdx = 0 then some loader else some loader := rfl
  rw [hline, ite_self]

theorem hex16_eq (n : Nat) :
    hex16 n = ' ' :: '0' :: 'x' :: (List.replicate (16 - (hex n).length) '0' ++ hex n) := by
  rw [hex16]
  rfl

/-- The ranges at the head of the file are skipped. -/
theorem foldlM_ranges (ranges : List Range) :
    (ranges.flatMap printRange).foldlM Loader.line ⟨0, .empty⟩ = some ⟨0, .empty⟩ := by
  have hskip : ∀ n, Loader.line ⟨0, .empty⟩ (hex16 n) = some ⟨0, .empty⟩ := by
    intro n
    rw [hex16_eq]
    rfl
  induction ranges with
  | nil => rfl
  | cons range rest ih =>
      rw [List.flatMap_cons, List.foldlM_append]
      simp only [printRange, List.foldlM_cons, hskip, line_nil, List.foldlM_nil,
        Option.bind_eq_bind, Option.bind_some, Option.pure_def]
      exact ih

theorem newline_not_mem_hex16 (n : Nat) : '\n' ∉ hex16 n := by
  have hhex : '\n' ∉ hex n := fun hmem =>
    (isNumeral_of_mem_toDigits .sixteen hmem).ne_of_digitValue (by decide) rfl
  rw [hex16_eq]
  simp [hhex]

/-- A file of four tables with any rows. -/
def fileLines (ranges : List Range) (rows1 rows2 rows3 rows4 : List Row) : List (List Char) :=
  ranges.flatMap printRange ++
    "# 1".toList :: rows1.map Row.text ++ [[], []] ++
    "# 2".toList :: rows2.map Row.text ++ [[], []] ++
    "# 3".toList :: rows3.map Row.text ++ [[], []] ++
    "# 4".toList :: rows4.map Row.text

theorem linesOf_fileLines (ranges : List Range) (rows1 rows2 rows3 rows4 : List Row) :
    linesOf (unlines (fileLines ranges rows1 rows2 rows3 rows4)) =
      fileLines ranges rows1 rows2 rows3 rows4 ++ [[]] := by
  have htext : ∀ rows : List Row, ∀ line ∈ rows.map Row.text, '\n' ∉ line := by
    intro rows line hline
    obtain ⟨row, -, rfl⟩ := List.mem_map.mp hline
    exact newline_not_mem_text row
  have hrange : ∀ line ∈ ranges.flatMap printRange, '\n' ∉ line := by
    intro line hline
    obtain ⟨range, -, hline⟩ := List.mem_flatMap.mp hline
    simp only [printRange, List.mem_cons, List.not_mem_nil, or_false] at hline
    rcases hline with rfl | rfl | rfl
    · exact newline_not_mem_hex16 _
    · exact newline_not_mem_hex16 _
    · exact List.not_mem_nil
  refine linesOf_unlines ?_
  simp only [fileLines, List.forall_mem_append, List.forall_mem_cons]
  refine ⟨⟨⟨⟨⟨⟨⟨hrange, by decide, htext _⟩, ?_⟩, by decide, htext _⟩, ?_⟩, by decide, htext _⟩, ?_⟩,
    by decide, htext _⟩ <;> simp

/-- The tables with these rows. -/
def entriesOf (rows1 rows2 rows3 rows4 : List Row) : Tables where
  table1 := rows1.map Row.entry
  table2 := rows2.map Row.entry
  table3 := rows3.map Row.entry
  table4 := rows4.map Row.lastEntry

theorem foldlM_linked {t : Nat} {entry : Row → Entry} {rows : List Row}
    (linked : ∀ row ∈ rows, ∃ pf, row.pf = some pf) (unglued : ∀ row ∈ rows, row.glued = false)
    (each : ∀ tables row pf, row.pf = some pf → row.glued = false →
      Loader.line ⟨t, tables⟩ row.text = some ⟨t, tables.extend t [entry row]⟩)
    (tables : Tables) :
    (rows.map Row.text).foldlM Loader.line ⟨t, tables⟩ =
      some ⟨t, tables.extend t (rows.map entry)⟩ := by
  refine foldlM_text (fun tables row hrow => ?_) tables
  obtain ⟨pf, hpf⟩ := linked row hrow
  exact each tables row pf hpf (unglued row hrow)

section

variable {ranges : List Range} {rows1 rows2 rows3 rows4 : List Row}
  (plain1 : ∀ row ∈ rows1, row.pf = none)
  (linked2 : ∀ row ∈ rows2, ∃ pf, row.pf = some pf)
  (linked3 : ∀ row ∈ rows3, ∃ pf, row.pf = some pf)

include plain1 linked2 linked3

/-- The loader accepts the file when no row is glued. -/
theorem config_of_unglued (linked4 : ∀ row ∈ rows4, ∃ pf, row.pf = some pf)
    (unglued2 : ∀ row ∈ rows2, row.glued = false) (unglued3 : ∀ row ∈ rows3, row.glued = false)
    (unglued4 : ∀ row ∈ rows4, row.glued = false) :
    config (unlines (fileLines ranges rows1 rows2 rows3 rows4)) =
      some (entriesOf rows1 rows2 rows3 rows4) := by
  have hrows1 := foldlM_text (fun tables row hrow => line_text1 tables (plain1 row hrow)) .empty
  have hrows2 := foldlM_linked linked2 unglued2
    (fun tables row pf hpf hglued => line_text2 tables hpf hglued)
  have hrows3 := foldlM_linked linked3 unglued3
    (fun tables row pf hpf hglued => line_text3 tables hpf hglued)
  have hrows4 := foldlM_linked linked4 unglued4
    (fun tables row pf hpf hglued => line_text4 tables hpf hglued)
  rw [config, linesOf_fileLines, fileLines]
  simp only [List.foldlM_append, List.foldlM_cons, List.foldlM_nil, foldlM_ranges,
    (line_heading _ _).1, (line_heading _ _).2.1, (line_heading _ _).2.2.1,
    (line_heading _ _).2.2.2, hrows1, hrows2, hrows3, hrows4, line_nil, Option.bind_eq_bind,
    Option.bind_some, Option.pure_def, Option.map_some]
  simp [entriesOf, Tables.extend, Tables.empty]

/-- A glued row in the second or third table stops the loader. -/
theorem config_of_glued (some_glued : (∃ row ∈ rows2, row.glued = true) ∨
      ∃ row ∈ rows3, row.glued = true) :
    config (unlines (fileLines ranges rows1 rows2 rows3 rows4)) = none := by
  have hrows1 := foldlM_text (fun tables row hrow => line_text1 tables (plain1 row hrow)) .empty
  rw [config, linesOf_fileLines, fileLines]
  simp only [List.foldlM_append, List.foldlM_cons, List.foldlM_nil, foldlM_ranges,
    (line_heading _ _).1, (line_heading _ _).2.1, (line_heading _ _).2.2.1,
    hrows1, line_nil, Option.bind_eq_bind, Option.bind_some]
  by_cases hglued2 : ∃ row ∈ rows2, row.glued = true
  · have hrows2 := foldlM_text_none (t := 2) Row.entry
      (fun tables row hrow hglued => by
        obtain ⟨pf, hpf⟩ := linked2 row hrow
        exact line_text2 tables hpf hglued)
      (fun tables row hrow hglued => by
        obtain ⟨pf, hpf⟩ := linked2 row hrow
        exact line_glued tables hpf hglued (Or.inl rfl)) hglued2
    simp [hrows2]
  · have hunglued2 : ∀ row ∈ rows2, row.glued = false := by
      intro row hrow
      cases hglue : row.glued with
      | false => rfl
      | true => exact absurd ⟨row, hrow, hglue⟩ hglued2
    have hrows2 := foldlM_linked linked2 hunglued2
      (fun tables row pf hpf hglued => line_text2 tables hpf hglued)
    have hrows3 := foldlM_text_none (t := 3) Row.entry
      (fun tables row hrow hglued => by
        obtain ⟨pf, hpf⟩ := linked3 row hrow
        exact line_text3 tables hpf hglued)
      (fun tables row hrow hglued => by
        obtain ⟨pf, hpf⟩ := linked3 row hrow
        exact line_glued tables hpf hglued (Or.inr rfl)) (some_glued.resolve_left hglued2)
    simp [hrows2, hrows3]

end

/-! ## The tables of the program -/

/-- The tables as they were printed. -/
def printedTables (ranges : List Range) : Tables where
  table1 := (output1 ranges).rows.map Row.entry
  table2 := (output2 ranges).rows.map Row.entry
  table3 := (output3 ranges).rows.map Row.entry
  table4 := (output4 ranges).rows.map Row.lastEntry

theorem printed_eq (ranges : List Range) :
    printed ranges = fileLines ranges (output1 ranges).rows (output2 ranges).rows
      (output3 ranges).rows (output4 ranges).rows := by
  rw [printed, fileLines]

theorem printedTables_eq (ranges : List Range) :
    printedTables ranges = entriesOf (output1 ranges).rows (output2 ranges).rows
      (output3 ranges).rows (output4 ranges).rows := by
  rw [printedTables, entriesOf]

theorem printedTables_table1 (ranges : List Range) :
    (printedTables ranges).table1 = (output1 ranges).rows.map Row.entry := by
  rw [printedTables]

theorem printedTables_table2 (ranges : List Range) :
    (printedTables ranges).table2 = (output2 ranges).rows.map Row.entry := by
  rw [printedTables]

theorem printedTables_table3 (ranges : List Range) :
    (printedTables ranges).table3 = (output3 ranges).rows.map Row.entry := by
  rw [printedTables]

theorem printedTables_table4 (ranges : List Range) :
    (printedTables ranges).table4 = (output4 ranges).rows.map Row.lastEntry := by
  rw [printedTables]

end FatBTree.Tcam
