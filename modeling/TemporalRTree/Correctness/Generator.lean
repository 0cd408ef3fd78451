import Mathlib.Analysis.SpecialFunctions.Pow.Real
import TemporalRTree.Model.Generator

/-!
# `Correctness.Generator` — whether generated rows satisfy the schema

Whatever is drawn, the ids count up, a finite period is at least an hour long, and the SQL text has the rows in
order: cut into lines, it has one line for each, in batches of at most 1000 (`emittedValues_sql`). The text of a
period is read back here the way the database reads it (`readPeriod`), so that the comparison of the bounds is
one of the times the text means.

The attribute is the exception. `int(rank ** (-1.5))` is 1 for the first rank and 0 for the other 99
(`zipfValue_of_two_le`): the power is a weight, not a value. So a row of a Zipf preset is in the range of the
schema's check only if it draws a hot attribute or the first rank.
-/

namespace TemporalRTree.Generator
open Calendar Digits

/-! ## Draws -/

/-- Whatever is drawn, the result meets `P`. -/
def Always {α : Type} (P : α → Prop) (x : DrawM α) : Prop := ∀ draws, P (x draws).1

section Draws
variable {α β : Type} {P : α → Prop} {Q : β → Prop}

theorem Always.pure {a : α} (h : P a) : Always P (Pure.pure a : DrawM α) := fun _ => h

theorem Always.bind {x : DrawM α} {f : α → DrawM β} (h : Always P x) (hf : ∀ a, P a → Always Q (f a)) :
    Always Q (x >>= f) := fun draws => hf _ (h draws) _

theorem Always.trivial (x : DrawM α) : Always (fun _ => True) x := fun _ => True.intro

/-- A number between the bounds. -/
theorem randint_mem {lo hi lo' hi' : Nat} (h : lo ≤ hi) (hlo : lo' ≤ lo) (hhi : hi ≤ hi') :
    Always (fun n => lo' ≤ n ∧ n ≤ hi') (randint lo hi) := by
  intro draws
  have hmod : draws.head % (hi - lo + 1) < hi - lo + 1 := Nat.mod_lt _ (Nat.succ_pos _)
  show lo' ≤ lo + draws.head % (hi - lo + 1) ∧ lo + draws.head % (hi - lo + 1) ≤ hi'
  omega

theorem bisect_le (sums : List ℚ) (x : ℚ) (n : Nat) : bisect sums x n ≤ n :=
  ((List.takeWhile_sublist _).length_le).trans (List.length_take_le n sums)

/-- A choice is one of the numbers to choose from. -/
theorem choices_mem {population : List Nat} (weights : List ℚ) (hne : population ≠ []) :
    Always (· ∈ population) (choices population weights) := by
  refine (Always.trivial random).bind fun r _ => .pure ?_
  have hpos : 0 < population.length := List.length_pos_iff.mpr hne
  have hlt : ∀ x, bisect (cumWeights 0 weights) x (population.length - 1) < population.length := fun x =>
    Nat.lt_of_le_of_lt (bisect_le _ _ _) (Nat.sub_lt hpos Nat.one_pos)
  rw [List.getD_eq_getElem?_getD, List.getElem?_eq_getElem (hlt _), Option.getD_some]
  exact List.getElem_mem _

theorem widthHours_mem (mode : IntervalMode) :
    Always (fun hours => 1 ≤ hours ∧ hours ≤ 5 * 365 * 24) (widthHours mode) := by
  cases mode with
  | short => exact randint_mem (by decide) (by decide) (by decide)
  | medium => exact randint_mem (by decide) (by decide) (by decide)
  | longTailed =>
      refine (Always.trivial random).bind fun u _ => ?_
      split
      · exact randint_mem (by decide) (by decide) (by decide)
      · split
        · exact randint_mem (by decide) (by decide) (by decide)
        · exact randint_mem (by decide) (by decide) (by decide)
  | other => exact .pure ⟨by decide, by decide⟩

end Draws

/-! ## Periods -/

/-- A lower bound within ten years of the base, and an upper bound at least an hour later, if any. -/
structure PeriodOk (pair : Nat × Option Nat) : Prop where
  lower_eq : ∃ days < 10 * 365, pair.1 = baseTs + days * day
  upper_eq : ∀ upper, pair.2 = some upper →
    ∃ hours, 1 ≤ hours ∧ hours ≤ 5 * 365 * 24 ∧ upper = pair.1 + hours * hour

theorem generateTimestampPair_ok (ratioOpenEnded : ℚ) (mode : IntervalMode) (position : Nat) :
    Always PeriodOk (generateTimestampPair ratioOpenEnded mode position) := by
  have hlower : ∃ days < 10 * 365, baseTs + position % (10 * 365) * day = baseTs + days * day :=
    ⟨position % (10 * 365), Nat.mod_lt _ (by decide), rfl⟩
  refine (Always.trivial random).bind fun r _ => ?_
  split
  · exact .pure ⟨hlower, fun upper hupper => nomatch hupper⟩
  · refine (widthHours_mem mode).bind fun hours hhours => .pure ⟨hlower, fun upper hupper => ?_⟩
    exact ⟨hours, hhours.1, hhours.2, (Option.some.inj hupper).symm⟩

/-- Read a text that has to be there. -/
def readText : Text → Text → Option Text
  | [], text => some text
  | c :: literal, text => (readChar c text).bind (readText literal)

theorem readText_append (literal rest : Text) : readText literal (literal ++ rest) = some rest := by
  induction literal with
  | nil => rfl
  | cons c literal ih =>
      rw [List.cons_append, readText, readChar_cons, Option.bind_some, ih]

/-- How the text of a period is read: its lower bound, and its upper bound if it has one. -/
def readPeriod (text : Text) : Option (Nat × Option Nat) := do
  let text ← readText "'[".toList text
  let (lower, text) ← readTime text
  let text ← readText ",".toList text
  match readTime text with
  | some (upper, rest) => if rest = ")'::tsrange".toList then some (lower, some upper) else none
  | none => if text = ")'::tsrange".toList then some (lower, none) else none

/-- The bounds of a period are read back: they are whole seconds before the year 10000. -/
theorem readTime_bound {days hours : Nat} (hdays : days ≤ 10 * 365) (hhours : hours ≤ 5 * 365 * 24) (rest : Text) :
    readTime (isoformat (baseTs + days * day + hours * hour) ++ rest) =
      some (baseTs + days * day + hours * hour, rest) := by
  have hbase : baseTs = 738520 * 86400000000 := by decide +kernel
  have hday : day = 86400000000 := rfl
  have hhour : hour = 3600000000 := rfl
  have hsecond : second = 1000000 := rfl
  apply readTime_isoformat
  · rw [hbase, hday, hhour]
    omega
  · rw [hbase, hday, hhour, hsecond]
    omega

/-- A time whose text is read back whatever follows. -/
def ReadsBack (t : Nat) : Prop := ∀ rest, readTime (isoformat t ++ rest) = some (t, rest)

theorem readPeriod_open {lower : Nat} (h : ReadsBack lower) :
    readPeriod (periodStr lower none) = some (lower, none) := by
  have hend : readTime ")'::tsrange".toList = none := rfl
  have htext : periodStr lower none =
      "'[".toList ++ (isoformat lower ++ (",".toList ++ ")'::tsrange".toList)) := by
    rw [periodStr, List.append_assoc]
    rfl
  rw [htext, readPeriod, readText_append, Option.bind_eq_bind, Option.bind_some, h, Option.bind_eq_bind,
    Option.bind_some]
  dsimp only
  rw [readText_append, Option.bind_some, hend]
  exact if_pos rfl

theorem readPeriod_finite {lower upper : Nat} (h : ReadsBack lower) (h' : ReadsBack upper) :
    readPeriod (periodStr lower (some upper)) = some (lower, some upper) := by
  have htext : periodStr lower (some upper) =
      "'[".toList ++ (isoformat lower ++ (",".toList ++ (isoformat upper ++ ")'::tsrange".toList))) := by
    simp only [periodStr, List.append_assoc]
  rw [htext, readPeriod, readText_append, Option.bind_eq_bind, Option.bind_some, h, Option.bind_eq_bind,
    Option.bind_some]
  dsimp only
  rw [readText_append, Option.bind_some, h']
  exact if_pos rfl

/-- **The text of a period means the bounds it was made from.** -/
theorem readPeriod_periodStr {pair : Nat × Option Nat} (h : PeriodOk pair) :
    readPeriod (periodStr pair.1 pair.2) = some pair := by
  obtain ⟨lower, upper⟩ := pair
  obtain ⟨⟨days, hdays, hlower⟩, hupper⟩ := h
  dsimp only at hlower hupper ⊢
  have hbound : ∀ {hours}, hours ≤ 5 * 365 * 24 → ReadsBack (lower + hours * hour) := by
    intro hours hhours
    rw [hlower]
    exact readTime_bound (Nat.le_of_lt hdays) hhours
  have hread : ReadsBack lower := by
    have hzero := hbound (Nat.zero_le (5 * 365 * 24))
    rwa [Nat.zero_mul, Nat.add_zero] at hzero
  cases upper with
  | none => exact readPeriod_open hread
  | some upper =>
      obtain ⟨hours, -, hhours, hsum⟩ := hupper upper rfl
      have hread' := hbound hhours
      rw [← hsum] at hread'
      exact readPeriod_finite hread hread'

/-! ## Attributes -/

theorem zipfValue_of_two_le {rank : Nat} (h : 2 ≤ rank) : zipfValue rank = 0 := by
  have hpow : 1 < rank ^ 3 := Nat.one_lt_pow (by decide) h
  rw [zipfValue, Nat.div_eq_of_lt hpow]
  rfl

/-- `zipfValue` is the integer part of the power. -/
theorem zipfValue_eq_floor {rank : Nat} (h : 0 < rank) : zipfValue rank = ⌊(rank : ℝ) ^ (-(3 / 2) : ℝ)⌋₊ := by
  rcases Nat.eq_or_lt_of_le (Nat.succ_le_of_lt h) with rfl | h2
  · simp [zipfValue]
  · have hlt : (rank : ℝ) ^ (-(3 / 2) : ℝ) < 1 :=
      Real.rpow_lt_one_of_one_lt_of_neg (by exact_mod_cast h2) (by norm_num)
    rw [zipfValue_of_two_le h2, eq_comm, Nat.floor_eq_zero]
    exact hlt

/-- The rank that `generate_attribute` draws for the standard Zipf value; `none` where it does not come to that. -/
def standardRank (attrMode : AttrMode) (hotCurrentFrac : ℚ) (isCurrent : Bool) (draws : Stream' Nat) : Option Nat :=
  match attrMode with
  | .zipf =>
      let hot := drawHot hotCurrentFrac isCurrent draws
      if hot.1 then none else some (randint 1 100 hot.2).1
  | _ => none

theorem generateAttribute_zipf (hotCurrentFrac : ℚ) (isCurrent : Bool) (draws : Stream' Nat) :
    (generateAttribute .zipf hotCurrentFrac isCurrent draws).1 =
      if (drawHot hotCurrentFrac isCurrent draws).1 then
        (choices (List.range' 1 10) hotWeights (drawHot hotCurrentFrac isCurrent draws).2).1
      else zipfValue (randint 1 100 (drawHot hotCurrentFrac isCurrent draws).2).1 := by
  show ((if (drawHot hotCurrentFrac isCurrent draws).1 = true then _ else _ : DrawM Nat) _).1 = _
  split
  · rfl
  · rfl

/-- **The attribute is in range exactly where no rank but the first is taken for a value.** -/
theorem generateAttribute_mem_iff (attrMode : AttrMode) (hotCurrentFrac : ℚ) (isCurrent : Bool)
    (draws : Stream' Nat) :
    (1 ≤ (generateAttribute attrMode hotCurrentFrac isCurrent draws).1 ∧
        (generateAttribute attrMode hotCurrentFrac isCurrent draws).1 ≤ 100) ↔
      ∀ rank, standardRank attrMode hotCurrentFrac isCurrent draws = some rank → rank = 1 := by
  have huniform : Always (fun n => 1 ≤ n ∧ n ≤ 100) (randint 1 100) :=
    randint_mem (by decide) (by decide) (by decide)
  cases attrMode with
  | uniform => exact iff_of_true (huniform draws) fun rank hrank => nomatch hrank
  | other => exact iff_of_true (huniform draws) fun rank hrank => nomatch hrank
  | zipf =>
      rw [generateAttribute_zipf, standardRank]
      generalize drawHot hotCurrentFrac isCurrent draws = hot
      split
      · have hmem : (choices (List.range' 1 10) hotWeights hot.2).1 ∈ List.range' 1 10 :=
          choices_mem hotWeights (by decide) hot.2
        rw [List.mem_range'_1] at hmem
        refine iff_of_true ⟨hmem.1, ?_⟩ fun rank hrank => nomatch hrank
        omega
      · obtain ⟨hlo, hhi⟩ := huniform hot.2
        simp only [Option.some.injEq, forall_eq']
        constructor
        · intro hrange
          by_contra hne
          have hzero := zipfValue_of_two_le (show 2 ≤ (randint 1 100 hot.2).1 by omega)
          omega
        · intro hone
          rw [hone]
          decide

/-! ## Rows -/

/-- The stream row `i` is drawn from. -/
def drawsBefore (rowCount : Nat) (config : Config) (draws : Stream' Nat) : Nat → Stream' Nat
  | 0 => draws
  | i + 1 => (generateRow rowCount config i (drawsBefore rowCount config draws i)).2

/-- The rank that row `i` draws for the standard Zipf value, from the stream it is drawn from. -/
def rowRank (rowCount : Nat) (config : Config) (i : Nat) (draws : Stream' Nat) : Option Nat :=
  let pos := drawPosition config.orderMode rowCount i draws
  let pair := generateTimestampPair config.ratioOpenEnded config.intervalMode pos.1 pos.2
  standardRank config.attrMode config.hotCurrentFrac pair.1.2.isNone pair.2

/-- What the schema and the benchmark ask of row `i`. -/
structure RowOk (i : Nat) (row : Row) : Prop where
  id_eq : row.id = i + 1
  attr_range : 1 ≤ row.attr ∧ row.attr ≤ 100
  period : ∃ lower upper, readPeriod row.validPeriod = some (lower, upper) ∧ ∀ u, upper = some u → lower < u

section Rows
variable (rowCount : Nat) (config : Config) (draws : Stream' Nat)

/-- **A row is in order exactly where no rank but the first is taken for its attribute.** -/
theorem generateRow_ok_iff (i : Nat) :
    RowOk i (generateRow rowCount config i draws).1 ↔
      ∀ rank, rowRank rowCount config i draws = some rank → rank = 1 := by
  have hpair := generateTimestampPair_ok config.ratioOpenEnded config.intervalMode
    (drawPosition config.orderMode rowCount i draws).1 (drawPosition config.orderMode rowCount i draws).2
  rw [rowRank, ← generateAttribute_mem_iff]
  constructor
  · exact fun h => h.attr_range
  · intro hattr
    refine ⟨rfl, hattr, _, _, readPeriod_periodStr hpair, fun u hu => ?_⟩
    obtain ⟨hours, hpos, -, rfl⟩ := hpair.upper_eq u hu
    exact Nat.lt_add_of_pos_right (Nat.mul_pos hpos (by decide))

/-- The rows are drawn one after the other. -/
theorem generateRows_run (n : Nat) :
    generateRows rowCount config n draws =
      ((List.range n).map fun i => (generateRow rowCount config i (drawsBefore rowCount config draws i)).1,
        drawsBefore rowCount config draws n) := by
  induction n with
  | zero => rfl
  | succ n ih =>
      show ((generateRows rowCount config n draws).1 ++
        [(generateRow rowCount config n (generateRows rowCount config n draws).2).1],
          (generateRow rowCount config n (generateRows rowCount config n draws).2).2) = _
      rw [ih, List.range_succ, List.map_append]
      rfl

/-- Every row of a dataset is one of these. -/
theorem generateDataset_getElem? (i : Nat) (row : Row) :
    (generateDataset rowCount config draws).1[i]? = some row ↔
      i < rowCount ∧ (generateRow rowCount config i (drawsBefore rowCount config draws i)).1 = row := by
  rw [generateDataset, generateRows_run]
  by_cases hi : i < rowCount
  · simp [hi]
  · simp [hi]

end Rows

/-! ## SQL -/

/-- The batches are the rows in order, none empty and none longer than `batchSize`. -/
theorem batches_flatten (rows : List Row) :
    (batches rows).flatten = rows ∧ ∀ batch ∈ batches rows, batch ≠ [] ∧ batch.length ≤ batchSize := by
  have hslice : ∀ k, (rows.drop (k * batchSize)).take (min (k * batchSize + batchSize) rows.length - k * batchSize) =
      (rows.drop (k * batchSize)).take batchSize := by
    intro k
    rw [List.take_eq_take_iff, List.length_drop]
    omega
  have htake : ∀ m, ((List.range m).map fun k => (rows.drop (k * batchSize)).take batchSize).flatten =
      rows.take (m * batchSize) := by
    intro m
    induction m with
    | zero => simp
    | succ m ih =>
        rw [List.range_succ, List.map_append, List.flatten_append, ih, List.map_singleton, List.flatten_singleton,
          Nat.succ_mul, List.take_add]
  have hbatches : batches rows = (List.range ((rows.length + (batchSize - 1)) / batchSize)).map fun k =>
      (rows.drop (k * batchSize)).take batchSize := List.map_congr_left fun k _ => hslice k
  rw [hbatches]
  refine ⟨?_, fun batch hbatch => ?_⟩
  · rw [htake, List.take_of_length_le]
    unfold batchSize
    omega
  · obtain ⟨k, hk, rfl⟩ := List.mem_map.mp hbatch
    rw [List.mem_range] at hk
    refine ⟨?_, List.length_take_le _ _⟩
    rw [← List.length_pos_iff, List.length_take, List.length_drop]
    unfold batchSize at hk ⊢
    omega

/-- The lines of a text that hold a row, each without the comma or semicolon at its end. -/
def emittedValues (text : Text) : List Text :=
  ((text.splitOn '\n').filter fun line => "  (".toList <+: line).map List.dropLast

theorem emittedValues_append (text text' : Text) :
    emittedValues (text ++ '\n' :: text') = emittedValues text ++ emittedValues text' := by
  simp only [emittedValues, List.splitOn_append_cons_self, List.filter_append, List.map_append]

/-- A line that starts like a row. -/
theorem emittedValues_row {text : Text} {c : Char} (h : '\n' ∉ text) (hstart : "  (".toList <+: text)
    (hc : c ≠ '\n') : emittedValues (text ++ [c]) = [text] := by
  have hline : '\n' ∉ text ++ [c] := by simp [h, hc.symm]
  have hrow : "  (".toList <+: text ++ [c] := hstart.trans (List.prefix_append _ _)
  rw [emittedValues, List.splitOn_eq_singleton hline, List.filter_singleton, decide_eq_true hrow, cond_true,
    List.map_singleton, List.dropLast_concat]

/-- A line that does not. -/
theorem emittedValues_other {text : Text} (h : '\n' ∉ text) (hstart : ¬ "  (".toList <+: text) :
    emittedValues text = [] := by
  rw [emittedValues, List.splitOn_eq_singleton h, List.filter_singleton, decide_eq_false hstart]
  rfl

theorem emittedValues_nil : emittedValues [] = [] := by decide

/-- The parts of a text are read one after the other. -/
theorem emittedValues_intercalate (parts : List Text) :
    emittedValues ("\n".toList.intercalate parts) = parts.flatMap emittedValues := by
  induction parts with
  | nil => exact emittedValues_nil
  | cons part rest ih =>
      cases rest with
      | nil => simp
      | cons part' rest =>
          rw [List.intercalate_cons_cons, List.append_assoc]
          show emittedValues (part ++ '\n' :: "\n".toList.intercalate (part' :: rest)) = _
          rw [emittedValues_append, ih]
          rfl

/-- A text that holds one row. -/
def IsValue (text : Text) : Prop := '\n' ∉ text ∧ "  (".toList <+: text

/-- The rows of one statement. -/
theorem emittedValues_values {values : List Text} (hne : values ≠ []) (h : ∀ value ∈ values, IsValue value) :
    emittedValues (",\n".toList.intercalate values ++ ";\n".toList) = values := by
  induction values with
  | nil => exact absurd rfl hne
  | cons value rest ih =>
      obtain ⟨hline, hstart⟩ := h value List.mem_cons_self
      cases rest with
      | nil =>
          rw [List.intercalate_singleton]
          show emittedValues (value ++ ([';'] ++ '\n' :: [])) = _
          rw [← List.append_assoc, emittedValues_append, emittedValues_row hline hstart (by decide),
            emittedValues_nil, List.append_nil]
      | cons value' rest =>
          rw [List.intercalate_cons_cons]
          show emittedValues (value ++ ([','] ++ ['\n']) ++ ",\n".toList.intercalate (value' :: rest) ++ _) = _
          rw [← List.append_assoc, List.append_assoc, List.append_assoc, List.singleton_append,
            emittedValues_append, emittedValues_row hline hstart (by decide),
            ih (List.cons_ne_nil _ _) fun v hv => h v (List.mem_cons_of_mem _ hv)]
          rfl

theorem emittedValues_insertStmt {batch : List Row} (hne : batch ≠ [])
    (h : ∀ row ∈ batch, IsValue (valueStr row)) :
    emittedValues (insertStmt "temporal_data".toList batch) = batch.map valueStr := by
  have hhead : "INSERT INTO ".toList ++ "temporal_data".toList ++
      " (id, attr, valid_period, payload) VALUES\n".toList =
        "INSERT INTO temporal_data (id, attr, valid_period, payload) VALUES".toList ++ ['\n'] := by simp
  have hnone : emittedValues "INSERT INTO temporal_data (id, attr, valid_period, payload) VALUES".toList = [] := by
    decide +kernel
  unfold insertStmt
  rw [hhead, List.append_assoc, List.append_assoc, List.singleton_append, emittedValues_append, hnone,
    List.nil_append]
  refine emittedValues_values (by simpa using hne) fun value hvalue => ?_
  obtain ⟨row, hrow, rfl⟩ := List.mem_map.mp hvalue
  exact h row hrow

/-- A character of a digit string is not the end of a line. -/
theorem newline_not_mem_of_isDigit {text : Text} (h : ∀ c ∈ text, c.isDigit = true) : '\n' ∉ text :=
  fun hmem => absurd (h _ hmem) (by decide)

theorem newline_not_mem_toDigits (n : Nat) : '\n' ∉ Nat.toDigits 10 n :=
  newline_not_mem_of_isDigit fun _ hc => Nat.isDigit_of_mem_toDigits (by decide) (by decide) hc

theorem newline_not_mem_padded (w n : Nat) : '\n' ∉ padded w n :=
  newline_not_mem_of_isDigit fun _ hc => isDigit_of_mem_padded hc

theorem newline_not_mem_isoformat (t : Nat) : '\n' ∉ isoformat t := by
  unfold isoformat
  split <;> simp [newline_not_mem_padded]

theorem newline_not_mem_periodStr (lower : Nat) (upper : Option Nat) : '\n' ∉ periodStr lower upper := by
  cases upper <;> simp [periodStr, newline_not_mem_isoformat]

/-- **Every row of a dataset is a line of its own.** -/
theorem generateRow_isValue (rowCount : Nat) (config : Config) (i : Nat) (draws : Stream' Nat) :
    IsValue (valueStr (generateRow rowCount config i draws).1) := by
  have hperiod : '\n' ∉ (generateRow rowCount config i draws).1.validPeriod := newline_not_mem_periodStr _ _
  have hpayload : '\n' ∉ (generateRow rowCount config i draws).1.payload := by
    show '\n' ∉ "'payload_".toList ++ Nat.toDigits 10 i ++ "'".toList
    simp [newline_not_mem_toDigits]
  generalize (generateRow rowCount config i draws).1 = row at hperiod hpayload ⊢
  refine ⟨?_, ?_⟩
  · unfold valueStr
    simp [newline_not_mem_toDigits, hperiod, hpayload]
  · unfold valueStr
    repeat rw [List.append_assoc]
    exact List.prefix_append _ _

/-- The rows of the whole text. -/
theorem emittedValues_sql (now : Nat) {rows : List Row} (h : ∀ row ∈ rows, IsValue (valueStr row)) :
    emittedValues (generateSqlInsert now rows "temporal_data".toList) = rows.map valueStr := by
  obtain ⟨hflat, hbatch⟩ := batches_flatten rows
  have hcount : emittedValues ("-- Generated temporal dataset: ".toList ++ Nat.toDigits 10 rows.length ++
      " rows".toList) = [] := by
    refine emittedValues_other (by simp [newline_not_mem_toDigits]) ?_
    simp
  have hstamp : emittedValues ("-- Timestamp: ".toList ++ isoformat now ++ "\n".toList) = [] := by
    show emittedValues (_ ++ '\n' :: []) = []
    rw [emittedValues_append, emittedValues_nil, List.append_nil]
    refine emittedValues_other (by simp [newline_not_mem_isoformat]) ?_
    simp
  rw [generateSqlInsert, emittedValues_intercalate, List.flatMap_cons, List.flatMap_cons, hcount, hstamp]
  show ((batches rows).map (insertStmt "temporal_data".toList)).flatMap emittedValues = _
  have hstmts : ∀ batch ∈ batches rows, emittedValues (insertStmt "temporal_data".toList batch) =
      batch.map valueStr := by
    intro batch hmem
    refine emittedValues_insertStmt (hbatch batch hmem).1 fun row hrow => h row ?_
    rw [← hflat]
    exact List.mem_flatten.mpr ⟨batch, hmem, hrow⟩
  rw [List.flatMap_map, List.flatMap_congr hstmts, List.flatMap_def, ← List.map_flatten, hflat]

/-! ## Datasets -/

section Dataset
variable (rowCount : Nat) (config : Config) (draws : Stream' Nat)

/-- The rows of a dataset are in order exactly where those of each turn are. -/
theorem dataset_rows_ok_iff :
    (∀ i row, (generateDataset rowCount config draws).1[i]? = some row → RowOk i row) ↔
      ∀ i < rowCount, ∀ rank,
        rowRank rowCount config i (drawsBefore rowCount config draws i) = some rank → rank = 1 := by
  constructor
  · intro h i hi
    rw [← generateRow_ok_iff]
    exact h i _ ((generateDataset_getElem? rowCount config draws i _).mpr ⟨hi, rfl⟩)
  · intro h i row hrow
    obtain ⟨hi, rfl⟩ := (generateDataset_getElem? rowCount config draws i row).mp hrow
    exact (generateRow_ok_iff rowCount config _ i).mpr (h i hi)

/-- The SQL text of a dataset has its rows, in order. -/
theorem dataset_emitted (now : Nat) :
    emittedValues (generateSqlInsert now (generateDataset rowCount config draws).1 "temporal_data".toList) =
      (generateDataset rowCount config draws).1.map valueStr := by
  refine emittedValues_sql now fun row hrow => ?_
  obtain ⟨i, hi⟩ := List.mem_iff_getElem?.mp hrow
  obtain ⟨-, rfl⟩ := (generateDataset_getElem? rowCount config draws i row).mp hi
  exact generateRow_isValue rowCount config i _

/-- Without Zipf attributes every row is in order. -/
theorem dataset_rows_ok (h : config.attrMode ≠ .zipf) (i : Nat) (row : Row)
    (hrow : (generateDataset rowCount config draws).1[i]? = some row) : RowOk i row := by
  refine (dataset_rows_ok_iff rowCount config draws).mpr (fun j _ rank hrank => ?_) i row hrow
  obtain ⟨ratio, interval, attrMode, order, hot⟩ := config
  cases attrMode with
  | uniform => exact nomatch hrank
  | other => exact nomatch hrank
  | zipf => exact absurd rfl h

end Dataset

/-- **When the rows of a dataset satisfy the schema.** Whatever is drawn, there are as many rows as asked for, and
    the SQL text has each of them once, in order, in statements of at most 1000; and every row has the id of its
    place, an attribute between 1 and 100 and an open or non-empty period, exactly if no row takes a rank above the
    first for its attribute. -/
theorem dataset_ok_iff (preset : Preset) (rowCount : Nat) (draws : Stream' Nat) (now : Nat) :
    let rows := (generateDataset rowCount preset.config draws).1
    (rows.length = rowCount ∧ (∀ i row, rows[i]? = some row → RowOk i row) ∧
      (batches rows).flatten = rows ∧ (∀ batch ∈ batches rows, batch ≠ [] ∧ batch.length ≤ 1000) ∧
        emittedValues (generateSqlInsert now rows "temporal_data".toList) = rows.map valueStr) ↔
      ∀ i < rowCount, ∀ rank,
        rowRank rowCount preset.config i (drawsBefore rowCount preset.config draws i) = some rank → rank = 1 := by
  intro rows
  have hlen : rows.length = rowCount := by
    show (generateRows rowCount preset.config rowCount draws).1.length = rowCount
    rw [generateRows_run, List.length_map, List.length_range]
  obtain ⟨hflat, hbatch⟩ := batches_flatten rows
  rw [← dataset_rows_ok_iff]
  constructor
  · exact fun h => h.2.1
  · exact fun h => ⟨hlen, h, hflat, hbatch, dataset_emitted rowCount preset.config draws now⟩

/-- One row of the preset `zipf_uniform`, which draws the second rank. -/
theorem zipf_uniform_attr_zero :
    let draws : Stream' Nat := fun n => [2 ^ 53 - 1, 0, 1].getD n 0
    ∃ row, (generateDataset 1 Preset.zipfUniform.config draws).1 = [row] ∧ row.attr = 0 ∧ ¬ RowOk 0 row := by
  intro draws
  let row := (generateRow 1 Preset.zipfUniform.config 0 draws).1
  have hattr : row.attr = 0 := by decide +kernel
  refine ⟨row, rfl, hattr, fun h => ?_⟩
  obtain ⟨hpos, -⟩ := h.attr_range
  omega

end TemporalRTree.Generator
