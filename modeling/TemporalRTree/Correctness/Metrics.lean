import TemporalRTree.Model.ExplainText
import TemporalRTree.Model.Metrics

/-!
# `Correctness.Metrics` — which node a row of the metrics describes

A row should describe one node: the family, the estimated and the measured rows from the first plan line, the
buffers from that node's line. `main` finds them by three different searches over the text of the block.

- **`PLAN_LINE_RE.search`** starts with `^` and is compiled without `re.MULTILINE`, so that it is only tried at the
  start of the text. There stands the title of `psql`'s table, and before an `INSERT` that of `setval`'s: nothing is
  found in any block (`search_planLineRe`), and `est_rows` and `actual_rows` are always empty.
- **`classify_plan`** tries the lines one by one and comes to the line of the root (`firstPlanLine_root`).
- **`BUFFERS_RE.findall`** is read at its last match, which is that of planning if planning hit a buffer
  (`shared_of_planning`).

So a row describes the node of the first plan line only where there is no plan line to describe
(`row_describes_iff`).
-/

namespace TemporalRTree.Metrics
open Regex Explain

/-! ## Characters -/

theorem isAlpha_iff {c : Char} :
    c.isAlpha = true ↔ (65 ≤ c.toNat ∧ c.toNat ≤ 90) ∨ (97 ≤ c.toNat ∧ c.toNat ≤ 122) := by
  show (decide (c.val ≥ 'A'.val ∧ c.val ≤ 'Z'.val) ||
    (decide (c.val ≥ 'a'.val) && decide (c.val ≤ 'z'.val))) = true ↔ _
  simp only [Bool.or_eq_true, Bool.and_eq_true, decide_eq_true_eq, UInt32.le_iff_toNat_le]
  rfl

theorem isDigit_iff {c : Char} : c.isDigit = true ↔ 48 ≤ c.toNat ∧ c.toNat ≤ 57 := by
  simp [Char.isDigit, UInt32.le_iff_toNat_le, ← Char.toNat_val]

theorem isAlpha_of_toLower {c : Char} (h : c.toLower.isAlpha = true) : c.isAlpha = true := by
  unfold Char.toLower at h
  split at h
  next hupper =>
    have hc : c.isUpper = true := decide_eq_true hupper
    show (c.isUpper || c.isLower) = true
    rw [hc, Bool.true_or]
  next => exact h

theorem toNat_le_of_isSpace {c : Char} (h : isSpace c = true) : c.toNat ≤ 32 := by
  simp only [isSpace, Bool.or_eq_true, beq_iff_eq, Bool.and_eq_true, decide_eq_true_eq] at h
  rcases h with (rfl | h) | h
  · decide
  · omega
  · omega

theorem toNat_lt_of_isLineBreak {c : Char} (h : isLineBreak c = true) : c.toNat < 32 := by
  simp only [isLineBreak, Bool.or_eq_true, Bool.and_eq_true, decide_eq_true_eq] at h
  omega

theorem isSpace_eq_false {c : Char} (h : 32 < c.toNat) : isSpace c = false :=
  Bool.eq_false_iff.mpr fun hspace => Nat.not_le_of_lt h (toNat_le_of_isSpace hspace)

theorem isAlpha_eq_false {c : Char} (h : c.toNat < 65) : c.isAlpha = false := by
  rw [← Bool.not_eq_true, isAlpha_iff]
  omega

/-! ## Lines that are no plan lines -/

theorem word_startsWith {ν : Type} {text : String} {c : Char} {rest : List Char} (htext : text.toList = c :: rest)
    (hc : c.toLower.isAlpha = true) : StartsWith Char.isAlpha (word text : Re ν) := by
  unfold word
  rw [htext]
  refine StartsWith.seq (StartsWith.chars.imp fun c' hc' => isAlpha_of_toLower ?_)
  rw [← beq_iff_eq.mp hc']
  exact hc

/-- A node type starts with a letter. -/
theorem planNodeRe_startsWith : StartsWith Char.isAlpha planNodeRe := by
  unfold planNodeRe
  repeat' apply StartsWith.alt
  all_goals exact word_startsWith rfl rfl

/-- No node type starts the text. -/
def NoNode (text : Text) : Prop := ∀ prev groups, runs planNodeRe ⟨prev, text, groups⟩ = []

theorem NoNode.of_head {text : Text} (h : text.head?.any Char.isAlpha = false) : NoNode text :=
  fun _ _ => planNodeRe_startsWith _ h

/-- No text that starts with `line` starts with a plan line. -/
def NoPlan (line : Text) : Prop := ∀ more, matchStart planLineTailRe (line ++ more) = none

/-- After blanks, a text that starts with no node type is no plan line. -/
theorem NoPlan.of_noNode {blanks : Text} {c : Char} {rest : Text} (hblanks : ∀ d ∈ blanks, isSpace d = true)
    (hc : isSpace c = false) (hnode : ∀ more, NoNode (c :: rest ++ more)) : NoPlan (blanks ++ c :: rest) := by
  intro more
  rw [List.append_assoc, List.cons_append]
  refine List.head?_eq_none_iff.mpr (runs_seq_eq_nil fun s₁ hs₁ => ?_)
  obtain ⟨⟨prev, text, groups⟩, hs, rfl⟩ := List.mem_map.mp hs₁
  have hnone : NoNode text := by
    -- the blanks taken are followed by another one, or they are all
    rcases next_of_mem_runs_many hs hblanks hc with hnext | rfl
    · cases text with
      | nil => exact NoNode.of_head rfl
      | cons d text =>
          have hd : d.toNat ≤ 32 := toNat_le_of_isSpace hnext
          exact NoNode.of_head (isAlpha_eq_false (by omega))
    · exact hnode more
  refine runs_seq_eq_nil fun s₂ hs₂ => absurd hs₂ ?_
  rw [runs, hnone]
  exact List.not_mem_nil

theorem NoPlan.of_head {blanks : Text} {c : Char} {rest : Text} (hblanks : ∀ d ∈ blanks, isSpace d = true)
    (hc : isSpace c = false) (halpha : c.isAlpha = false) : NoPlan (blanks ++ c :: rest) :=
  .of_noNode hblanks hc fun _ => .of_head halpha

theorem isSpace_of_mem_spaces {n : Nat} {c : Char} (h : c ∈ spaces n) : isSpace c = true := by
  rw [List.eq_of_mem_replicate h]
  rfl

/-! ## The lines of a block -/

/-- Lines with a line break after each. -/
def unlines (lines : List Text) : Text := lines.flatMap fun line => line ++ ['\n']

@[simp] theorem unlines_append (lines lines' : List Text) :
    unlines (lines ++ lines') = unlines lines ++ unlines lines' := List.flatMap_append

@[simp] theorem unlines_cons (line : Text) (lines : List Text) :
    unlines (line :: lines) = line ++ '\n' :: unlines lines := by
  simp [unlines]

theorem intercalate_concat_nil (lines : List Text) : ['\n'].intercalate (lines ++ [[]]) = unlines lines := by
  induction lines with
  | nil => rfl
  | cons line lines ih =>
      obtain ⟨second, others, hlines⟩ : ∃ second others, lines ++ [[]] = second :: others :=
        List.exists_cons_of_ne_nil (by simp)
      rw [List.cons_append, hlines, List.intercalate_cons_cons, ← hlines, ih, unlines_cons, List.append_assoc]
      rfl

theorem noPlan_titleLine {title : Text} {c : Char} {rest : Text} (htitle : title = c :: rest)
    (hc : isSpace c = false) (hnode : ∀ more, NoNode (title ++ more)) (width : Nat) :
    NoPlan (titleLine title width) := by
  subst htitle
  unfold titleLine
  rw [List.append_assoc, List.cons_append]
  refine .of_noNode (fun _ => isSpace_of_mem_spaces) hc fun more => ?_
  rw [← List.cons_append, List.append_assoc]
  exact hnode _

theorem noPlan_ruleLine (width : Nat) : NoPlan (ruleLine width) :=
  NoPlan.of_head (List.forall_mem_nil _) rfl rfl

theorem noPlan_footer (n : Nat) : NoPlan (footer n) :=
  NoPlan.of_head (List.forall_mem_nil _) rfl rfl

theorem isDigit_of_mem_toDigits {n : Nat} {c : Char} (h : c ∈ Nat.toDigits 10 n) : c.isDigit = true :=
  Nat.isDigit_of_mem_toDigits (by decide) (by decide) h

/-- The line with the value of the sequence. -/
theorem noPlan_value (value : Nat) : NoPlan (' ' :: List.leftpad 6 ' ' (Nat.toDigits 10 value)) := by
  obtain ⟨c, rest, hcons⟩ : ∃ c rest, Nat.toDigits 10 value = c :: rest :=
    List.exists_cons_of_ne_nil Nat.toDigits_ne_nil
  have hdigit : c.isDigit = true := isDigit_of_mem_toDigits (hcons ▸ List.mem_cons_self)
  have hc : 48 ≤ c.toNat ∧ c.toNat ≤ 57 := isDigit_iff.mp hdigit
  rw [List.leftpad, hcons, ← List.cons_append]
  refine .of_head (fun d hd => ?_) (isSpace_eq_false (by omega)) (isAlpha_eq_false (by omega))
  exact isSpace_of_mem_spaces (n := 6 - (c :: rest).length + 1) hd

/-- The lines above the plan. -/
def headLines (b : Block) : List Text :=
  b.setvalTable ++ [titleLine "QUERY PLAN".toList (columnWidth "QUERY PLAN".toList b.rows),
    ruleLine (columnWidth "QUERY PLAN".toList b.rows)]

/-- The text of a block: what stands above the plan, the plan with its summary, and the footer. -/
theorem text_eq (b : Block) :
    b.text = unlines (headLines b) ++
      (unlines (b.rows.map fun row => ' ' :: row) ++ unlines [footer b.rows.length, []]) := by
  show ['\n'].intercalate (b.setvalTable ++ psqlTable "QUERY PLAN".toList b.rows ++ [[]]) = _
  rw [intercalate_concat_nil, headLines, psqlTable, ← unlines_append, ← unlines_append, List.append_assoc]
  rfl

theorem noPlan_queryPlan (width : Nat) : NoPlan (titleLine "QUERY PLAN".toList width) :=
  noPlan_titleLine rfl rfl (fun _ _ _ => rfl) width

theorem noPlan_setval (width : Nat) : NoPlan (titleLine "setval".toList width) :=
  noPlan_titleLine rfl rfl (fun _ _ _ => rfl) width

theorem NoPlan.matchStart {line : Text} (h : NoPlan line) : matchStart planLineTailRe line = none := by
  have hline := h []
  rwa [List.append_nil] at hline

/-- What stands above the plan. -/
theorem mem_headLines {b : Block} {line : Text} (h : line ∈ headLines b) :
    (∃ width, line = titleLine "setval".toList width ∨ line = titleLine "QUERY PLAN".toList width ∨
      line = ruleLine width) ∨
    (∃ value, line = ' ' :: List.leftpad 6 ' ' (Nat.toDigits 10 value) ∨ line = footer value) ∨ line = [] := by
  rcases List.mem_append.mp h with h | h
  · unfold Block.setvalTable at h
    cases hsetval : b.setval with
    | none =>
        rw [hsetval] at h
        exact absurd h List.not_mem_nil
    | some value =>
        simp only [hsetval, psqlTable, List.map_cons, List.map_nil, List.singleton_append, List.mem_cons,
          List.not_mem_nil, or_false] at h
        rcases h with h | h | h | h | h
        · exact Or.inl ⟨_, Or.inl h⟩
        · exact Or.inl ⟨_, Or.inr (Or.inr h)⟩
        · exact Or.inr (Or.inl ⟨_, Or.inl h⟩)
        · exact Or.inr (Or.inl ⟨_, Or.inr h⟩)
        · exact Or.inr (Or.inr h)
  · simp only [List.mem_cons, List.not_mem_nil, or_false] at h
    rcases h with h | h
    · exact Or.inl ⟨_, Or.inr (Or.inl h)⟩
    · exact Or.inl ⟨_, Or.inr (Or.inr h)⟩

/-- **Nothing above the plan is a plan line.** -/
theorem matchStart_headLines {b : Block} {line : Text} (h : line ∈ headLines b) :
    matchStart planLineRe line = none := by
  unfold planLineRe
  rw [matchStart_bol]
  rcases mem_headLines h with ⟨width, rfl | rfl | rfl⟩ | ⟨value, rfl | rfl⟩ | rfl
  · exact (noPlan_setval _).matchStart
  · exact (noPlan_queryPlan _).matchStart
  · exact (noPlan_ruleLine _).matchStart
  · exact (noPlan_value _).matchStart
  · exact (noPlan_footer _).matchStart
  · rfl

/-- **No block starts with a plan line.** -/
theorem search_planLineRe (b : Block) : search planLineRe b.text = none := by
  unfold planLineRe
  rw [search_bol, text_eq, headLines, Block.setvalTable]
  cases b.setval with
  | none =>
      rw [List.nil_append, unlines_cons, List.append_assoc]
      exact noPlan_queryPlan _ _
  | some value =>
      dsimp only [psqlTable]
      rw [List.cons_append, unlines_cons, List.append_assoc]
      exact noPlan_setval _ _

/-- The columns that `main` reads off that search are empty. -/
theorem collectRow_rows (config label : Text) (b : Block) :
    (collectRow config label b.text).estRows = [] ∧ (collectRow config label b.text).actualRows = [] := by
  unfold collectRow
  rw [search_planLineRe]
  exact ⟨rfl, rfl⟩

/-! ## The first plan line -/

/-- A plan line has an estimate of its rows. -/
theorem estRows_ne_nil {line : Text} {m : Place PlanGroup} (h : matchStart planLineRe line = some m) :
    groupText m.groups .estRows ≠ [] := by
  unfold planLineRe at h
  rw [matchStart_bol] at h
  have hmem : m ∈ runs planLineTailRe ⟨none, line, []⟩ := List.mem_of_head? h
  -- the eleventh part of the expression, and no later one, names the group
  obtain ⟨text, hgroup, hne⟩ := group_of_mem_runs_all 10 hmem rfl (by decide)
  show (m.group .estRows).getD [] ≠ []
  rw [hgroup]
  exact hne

/-- A text without control characters. -/
def Printable (text : Text) : Prop := ∀ c ∈ text, 32 ≤ c.toNat

section Printable
variable {text text' : Text} {c : Char}

@[simp] theorem printable_nil : Printable [] := fun _ h => absurd h List.not_mem_nil

@[simp] theorem printable_cons : Printable (c :: text) ↔ 32 ≤ c.toNat ∧ Printable text := List.forall_mem_cons

@[simp] theorem printable_append : Printable (text ++ text') ↔ Printable text ∧ Printable text' :=
  List.forall_mem_append

theorem printable_replicate (hc : 32 ≤ c.toNat) (n : Nat) : Printable (List.replicate n c) := by
  intro c' hc'
  rw [List.eq_of_mem_replicate hc']
  exact hc

@[simp] theorem printable_spaces (n : Nat) : Printable (spaces n) := printable_replicate (by decide) n

theorem printable_of_isDigit (h : ∀ c ∈ text, c.isDigit = true ∨ c = '.') : Printable text := by
  intro c hc
  rcases h c hc with hdigit | rfl
  · have := isDigit_iff.mp hdigit
    omega
  · decide

@[simp] theorem printable_toDigits (n : Nat) : Printable (Nat.toDigits 10 n) :=
  printable_of_isDigit fun _ hc => Or.inl (isDigit_of_mem_toDigits hc)

@[simp] theorem printable_fixed (w n : Nat) : Printable (Digits.fixed w n) :=
  printable_of_isDigit fun _ hc => Digits.isDigit_of_mem_fixed hc

end Printable

theorem printable_titleLine {title : Text} (h : Printable title) (width : Nat) :
    Printable (titleLine title width) := by
  simp [titleLine, h]

theorem printable_footer (n : Nat) : Printable (footer n) := by
  unfold footer
  split
  · simp
  · simp

theorem printable_headLines {b : Block} {line : Text} (h : line ∈ headLines b) : Printable line := by
  rcases mem_headLines h with ⟨width, rfl | rfl | rfl⟩ | ⟨value, rfl | rfl⟩ | rfl
  · exact printable_titleLine (by simp) width
  · exact printable_titleLine (by simp) width
  · exact printable_replicate (by decide) _
  · simp [List.leftpad, printable_replicate]
  · exact printable_footer value
  · exact printable_nil

theorem printable_estimate (e : Estimate) : Printable e.text := by
  unfold Estimate.text
  simp

theorem printable_actualText (actual : Option Actual) : Printable (actualText actual) := by
  unfold actualText
  split
  · simp
  · simp

theorem printable_rootLine (plan : Plan) : Printable plan.rootLine := by
  obtain ⟨label, estimate, actual, details, usage, children⟩ := plan
  have hlabel : Printable label.text := label.printable
  unfold Plan.rootLine nodeLine
  simp [printable_estimate, printable_actualText, hlabel]

theorem splitlinesFrom_append {line : Text} (h : Printable line) (before rest : Text) :
    splitlinesFrom before (line ++ '\n' :: rest) = (before.reverse ++ line) :: splitlines rest := by
  induction line generalizing before with
  | nil =>
      rw [List.nil_append, splitlinesFrom.eq_4 _ _ _ (by simp)]
      simp [isLineBreak, splitlines]
  | cons c line ih =>
      obtain ⟨hc, hline⟩ := printable_cons.mp h
      have hbreak : isLineBreak c = false :=
        Bool.eq_false_iff.mpr fun hbreak => Nat.not_le_of_lt (toNat_lt_of_isLineBreak hbreak) hc
      -- so it is not the `\r` of a `\r\n` either, which would be one break
      have hr : c ≠ '\r' := by
        rintro rfl
        exact absurd hbreak (by decide)
      rw [List.cons_append, splitlinesFrom.eq_4 _ _ _ (fun _ h => absurd h hr), hbreak]
      simpa using ih hline (c :: before)

theorem splitlines_unlines {lines : List Text} (h : ∀ line ∈ lines, Printable line) (rest : Text) :
    splitlines (unlines lines ++ rest) = lines ++ splitlines rest := by
  induction lines with
  | nil => rfl
  | cons line lines ih =>
      have hlater := ih fun line' hline' => h line' (List.mem_cons_of_mem line hline')
      rw [unlines_cons, List.append_assoc, List.cons_append, splitlines,
        splitlinesFrom_append (h line List.mem_cons_self), hlater]
      rfl

/-- Above the plan stand the lines of the head. -/
theorem splitlines_text (b : Block) :
    ∃ rest, splitlines b.text = headLines b ++ (' ' :: b.plan.rootLine) :: rest := by
  obtain ⟨more, hrows⟩ : ∃ more, b.rows = b.plan.rootLine :: more := by
    unfold Block.rows
    cases b.plan with
    | node label estimate actual details usage children => exact ⟨_, rfl⟩
  have hprintable : ∀ line ∈ headLines b ++ [' ' :: b.plan.rootLine], Printable line := by
    intro line hline
    rcases List.mem_append.mp hline with hline | hline
    · exact printable_headLines hline
    · rw [List.mem_singleton.mp hline]
      exact printable_cons.mpr ⟨by decide, printable_rootLine b.plan⟩
  have htext : b.text = unlines (headLines b ++ [' ' :: b.plan.rootLine]) ++
      (unlines (more.map fun row => ' ' :: row) ++ unlines [footer b.rows.length, []]) := by
    rw [text_eq, hrows, unlines_append, List.map_cons, unlines_cons]
    simp [unlines]
  rw [htext, splitlines_unlines hprintable, List.append_assoc]
  exact ⟨_, rfl⟩

/-- **`classify_plan` comes to the root of the plan first.** -/
theorem firstPlanLine_root {b : Block} {m : Place PlanGroup}
    (h : matchStart planLineRe (' ' :: b.plan.rootLine) = some m) :
    firstPlanLine b.text = some (' ' :: b.plan.rootLine, m) := by
  obtain ⟨rest, hlines⟩ := splitlines_text b
  have hhead : (headLines b).findSome? (fun line => (matchStart planLineRe line).map fun m => (line, m)) = none :=
    List.findSome?_eq_none_iff.mpr fun line hline => by rw [matchStart_headLines hline]; rfl
  rw [firstPlanLine, hlines, List.findSome?_append, hhead, List.findSome?_cons, h]
  rfl

/-! ## The last buffers -/

/-- What follows a number in a line of buffers: a character that is neither a digit nor the start of `read`, after
    blanks or at once. -/
def EndsCounter (text : Text) : Prop :=
  ∃ blanks c rest, text = blanks ++ c :: rest ∧ (∀ d ∈ blanks, isSpace d = true) ∧ isSpace c = false ∧
    c.isDigit = false ∧ c ≠ 'r'

theorem isDigit_eq_false_of_isSpace {c : Char} (h : isSpace c = true) : c.isDigit = false := by
  have hle := toNat_le_of_isSpace h
  rw [← Bool.not_eq_true, isDigit_iff]
  omega

theorem EndsCounter.head {text : Text} (h : EndsCounter text) : text.head?.any Char.isDigit = false := by
  obtain ⟨blanks, c, rest, rfl, hblanks, -, hc, -⟩ := h
  cases blanks with
  | nil => exact hc
  | cons d blanks => exact isDigit_eq_false_of_isSpace (hblanks d List.mem_cons_self)

/-- The counters after `read`. -/
def laterCounters (u : Usage) : Text := counter " dirtied=" u.dirtied ++ (counter " written=" u.written ++ u.temp)

/-- The line of a usage with hits. -/
theorem usage_text_eq {u : Usage} (hhit : u.hit ≠ 0) :
    u.text = "Buffers:".toList ++ ([' '] ++ ("shared hit=".toList ++ (Nat.toDigits 10 u.hit ++
      (counter " read=" u.read ++ laterCounters u)))) := by
  have hshared : u.hit + u.read + u.dirtied + u.written ≠ 0 := by omega
  unfold Usage.text Usage.shared laterCounters
  rw [if_neg hshared, counter, if_neg hhit]
  simp

theorem endsCounter_laterCounters {u : Usage} (hhit : u.hit ≠ 0) {rest : Text} (hrest : EndsCounter rest) :
    EndsCounter (laterCounters u ++ rest) := by
  have hshared : u.shared ≠ [] := by
    unfold Usage.shared
    rw [if_neg (by omega)]
    exact List.cons_ne_nil _ _
  unfold laterCounters counter
  split
  · split
    · unfold Usage.temp
      split
      · exact hrest
      -- after counters of shared blocks, those of temporary ones stand behind a comma
      · exact ⟨[], ',', _, rfl, List.forall_mem_nil _, rfl, rfl, by decide⟩
    · exact ⟨[' '], 'w', _, rfl, List.forall_mem_singleton.mpr rfl, rfl, rfl, by decide⟩
  · exact ⟨[' '], 'd', _, rfl, List.forall_mem_singleton.mpr rfl, rfl, rfl, by decide⟩

/-- The part of `BUFFERS_RE` that is optional. -/
def readRe : Re Nat := .all [.plus isSpace, exact "read=", .group 2 (.plus Char.isDigit)]

theorem runs_readRe {text : Text} (h : EndsCounter text) (prev : Option Char) (groups : List (Nat × Text)) :
    runs readRe ⟨prev, text, groups⟩ = [] := by
  obtain ⟨blanks, c, rest, rfl, hblanks, hc, -, hr⟩ := h
  have hstart : StartsWith (fun c => 'r' == c)
      (.seq (exact "read=") (.group 2 (.plus Char.isDigit)) : Re Nat) :=
    StartsWith.seq (StartsWith.seq StartsWith.chars)
  refine runs_seq_eq_nil fun s₁ hs₁ => hstart s₁ ?_
  obtain ⟨prev₁, rest₁, groups₁⟩ := s₁
  rcases next_of_mem_runs_plus hs₁ hblanks hc with hnext | hrest
  · cases rest₁ with
    | nil => rfl
    | cons d rest₁ =>
        refine beq_eq_false_iff_ne.mpr ?_
        rintro rfl
        have hspace : isSpace 'r' = true := hnext
        exact absurd hspace (by decide)
  · cases hrest
    exact beq_eq_false_iff_ne.mpr (Ne.symm hr)

/-- The groups of a match of `BUFFERS_RE`: `hit`, and `read` if it is there. -/
def bufferGroups (u : Usage) : List (Nat × Text) :=
  (if u.read = 0 then [] else [(2, Nat.toDigits 10 u.read)]) ++ [(1, Nat.toDigits 10 u.hit)]

theorem first_exact {ν : Type} (text : String) (prev : Option Char) (rest : Text) (groups : List (ν × Text)) :
    first (exact text) ⟨prev, text.toList ++ rest, groups⟩ = some ⟨lastOf prev text.toList, rest, groups⟩ :=
  first_text fun _ _ => beq_self_eq_true _

theorem first_digits {ν : Type} (name : ν) (n : Nat) (prev : Option Char) {rest : Text} (groups : List (ν × Text))
    (hrest : rest.head?.any Char.isDigit = false) :
    first (.group name (.plus Char.isDigit)) ⟨prev, Nat.toDigits 10 n ++ rest, groups⟩ =
      some ⟨lastOf prev (Nat.toDigits 10 n), rest, (name, Nat.toDigits 10 n) :: groups⟩ :=
  first_group (first_plus (fun _ => isDigit_of_mem_toDigits) Nat.toDigits_ne_nil hrest)

theorem first_blank {ν : Type} (prev : Option Char) {rest : Text} (groups : List (ν × Text))
    (hrest : rest.head?.any isSpace = false) :
    first (.plus isSpace) ⟨prev, ' ' :: rest, groups⟩ = some ⟨some ' ', rest, groups⟩ :=
  have hblank : ∀ c ∈ [' '], isSpace c = true := List.forall_mem_singleton.mpr rfl
  first_plus hblank (List.cons_ne_nil _ _) hrest

/-- After the hits, `read` is found exactly if it is there. -/
theorem first_opt_readRe {u : Usage} (prev : Option Char) {rest : Text} (hrest : EndsCounter rest) :
    ∃ s, first (.opt readRe) ⟨prev, counter " read=" u.read ++ rest, [(1, Nat.toDigits 10 u.hit)]⟩ = some s ∧
      s.groups = bufferGroups u := by
  unfold bufferGroups counter
  split
  · exact ⟨_, first_opt_of_nil (runs_readRe hrest _ _), rfl⟩
  · rw [List.append_assoc]
    have hdigits := first_digits 2 u.read (lastOf (some ' ') "read=".toList) [(1, Nat.toDigits 10 u.hit)] hrest.head
    have hread := first_seq (first_exact "read=" (some ' ') _ _) hdigits
    exact ⟨_, first_opt (first_seq (first_blank prev _ rfl) hread), rfl⟩

/-- **A line of buffers is read back.** -/
theorem first_buffersRe {u : Usage} (hhit : u.hit ≠ 0) (prev : Option Char) {rest : Text}
    (hrest : EndsCounter rest) :
    ∃ s, first buffersRe ⟨prev, u.text ++ rest, []⟩ = some s ∧ s.groups = bufferGroups u := by
  have hlater := endsCounter_laterCounters hhit hrest
  have hdigits : (counter " read=" u.read ++ (laterCounters u ++ rest)).head?.any Char.isDigit = false := by
    unfold counter
    split
    · exact hlater.head
    · rfl
  rw [usage_text_eq hhit]
  simp only [List.append_assoc]
  obtain ⟨s, hs, hgroups⟩ := first_opt_readRe (lastOf _ (Nat.toDigits 10 u.hit)) hlater
  refine ⟨s, ?_, hgroups⟩
  refine first_seq (first_exact "Buffers:" _ _ _) ?_
  refine first_seq (first_blank _ _ rfl) ?_
  refine first_seq (first_exact "shared hit=" _ _ _) ?_
  exact first_seq (first_digits 1 _ _ _ hdigits) hs

theorem buffersRe_startsWith : StartsWith (fun c => 'B' == c) buffersRe :=
  StartsWith.seq (StartsWith.seq StartsWith.chars)

theorem notMem_toDigits {c : Char} (hc : c.isDigit = false) (n : Nat) : c ∉ Nat.toDigits 10 n := fun h =>
  absurd (isDigit_of_mem_toDigits h) (by simp [hc])

theorem notMem_fixed {c : Char} (hc : c.isDigit = false) (hdot : c ≠ '.') (w n : Nat) : c ∉ Digits.fixed w n := by
  intro h
  rcases Digits.isDigit_of_mem_fixed h with h | h
  · exact absurd h (by simp [hc])
  · exact hdot h

theorem notMem_counter {c : Char} {name : String} (hname : c ∉ name.toList) (hc : c.isDigit = false) (n : Nat) :
    c ∉ counter name n := by
  unfold counter
  split
  · exact List.not_mem_nil
  · simp [hname, notMem_toDigits hc]

theorem notMem_footer (n : Nat) : 'B' ∉ footer n := by
  unfold footer
  split
  · simp [notMem_toDigits]
  · simp [notMem_toDigits]

/-- A line of buffers has one `B`. -/
theorem notMem_tail_text (u : Usage) : 'B' ∉ u.text.tail := by
  have hshared : 'B' ∉ u.shared := by
    unfold Usage.shared
    split
    · exact List.not_mem_nil
    · simp [notMem_counter]
  have htemp : 'B' ∉ u.temp := by
    unfold Usage.temp
    split
    · exact List.not_mem_nil
    · split
      · simp [notMem_counter]
      · simp [notMem_counter]
  show 'B' ∉ "uffers:".toList ++ (u.shared ++ u.temp)
  simp [hshared, htemp]

/-- The matches from a line of buffers on, if there is no other after it. -/
theorem findallFrom_usage {u : Usage} (hhit : u.hit ≠ 0) (prev : Option Char) {rest : Text}
    (hrest : EndsCounter rest) (hlast : 'B' ∉ rest) : findallFrom buffersRe prev 0 (u.text ++ rest) = [bufferGroups u] := by
  obtain ⟨s, hs, hgroups⟩ := first_buffersRe hhit prev hrest
  have hcons : u.text ++ rest = 'B' :: (u.text.tail ++ rest) := rfl
  have hmore : ∀ c ∈ u.text.tail ++ rest, ('B' == c) = false := by
    intro c hc
    refine beq_eq_false_iff_ne.mpr ?_
    rintro rfl
    rcases List.mem_append.mp hc with hc | hc
    · exact notMem_tail_text u hc
    · exact hlast hc
  rw [hcons] at hs ⊢
  rw [findallFrom, hs]
  show s.groups :: findallFrom buffersRe (some 'B') _ _ = _
  rw [buffersRe_startsWith.findallFrom_eq_nil hmore, hgroups]

/-- The lines after the buffers of planning. -/
def afterPlanning (b : Block) : Text :=
  '\n' :: ' ' :: ("Planning Time: ".toList ++ (Digits.fixed 3 b.planningTime ++ (" ms".toList ++
    '\n' :: ' ' :: ("Execution Time: ".toList ++ (Digits.fixed 3 b.executionTime ++ (" ms".toList ++
      '\n' :: unlines [footer b.rows.length, []]))))))

theorem endsCounter_afterPlanning (b : Block) : EndsCounter (afterPlanning b) :=
  have hblanks : ∀ c ∈ ['\n', ' '], isSpace c = true :=
    List.forall_mem_cons.mpr ⟨rfl, List.forall_mem_singleton.mpr rfl⟩
  ⟨['\n', ' '], 'P', _, rfl, hblanks, rfl, rfl, by decide⟩

theorem notMem_afterPlanning (b : Block) : 'B' ∉ afterPlanning b := by
  unfold afterPlanning
  simp [notMem_fixed, notMem_footer, unlines]

theorem text_planning {b : Block} {u : Usage} (hplanning : b.planning = some u) :
    ∃ before, b.text = before ++ 'P' :: ("lanning:\n   ".toList ++ (u.text ++ afterPlanning b)) := by
  refine ⟨unlines (headLines b) ++ (unlines ((b.plan.lines 0).map fun row => ' ' :: row) ++ [' ']), ?_⟩
  unfold afterPlanning
  rw [text_eq]
  generalize footer b.rows.length = last
  rw [Block.rows, Block.summary, hplanning]
  simp [unlines, spaces]

theorem groupText_hit (u : Usage) : groupText (bufferGroups u) 1 = Nat.toDigits 10 u.hit := by
  unfold bufferGroups
  split
  · rfl
  · rfl

/-- The number in the second group; without one, `main` takes zero. -/
theorem groupText_read (u : Usage) :
    (if groupText (bufferGroups u) 2 ≠ [] then groupText (bufferGroups u) 2 else "0".toList) =
      Nat.toDigits 10 u.read := by
  unfold bufferGroups
  split
  next hread =>
    rw [hread]
    rfl
  next => exact if_pos Nat.toDigits_ne_nil

/-- **The buffers of a row are those of planning**, if planning hit any. -/
theorem shared_of_planning {b : Block} {u : Usage} (hplanning : b.planning = some u) (hhit : u.hit ≠ 0)
    (config label : Text) :
    (collectRow config label b.text).sharedHit = Nat.toDigits 10 u.hit ∧
      (collectRow config label b.text).sharedRead = Nat.toDigits 10 u.read := by
  obtain ⟨before, hlast⟩ : ∃ before, findall buffersRe b.text = before ++ [bufferGroups u] := by
    obtain ⟨before, htext⟩ := text_planning hplanning
    -- no match passes the `P` of `Planning:`, and after it only the line of buffers has a `B`
    have hskip : ∀ c ∈ "lanning:\n   ".toList, ('B' == c) = false := by simp
    obtain ⟨prev, hfind⟩ := buffersRe_startsWith.findallFrom_append hskip (some 'P') (u.text ++ afterPlanning b)
    refine ⟨findallFrom buffersRe none 0 before, ?_⟩
    rw [findall, htext, findallFrom_append_cons _ buffersRe_startsWith rfl rfl none before (Nat.zero_le _), hfind,
      findallFrom_usage hhit prev (endsCounter_afterPlanning b) (notMem_afterPlanning b)]
  unfold collectRow
  rw [hlast, List.getLast?_concat]
  exact ⟨groupText_hit u, groupText_read u⟩

/-! ## What a row describes -/

/-- The row describes the node printed on `line`, of which `m` is the match: its family and its rows, and the
    buffers of its own line. -/
def Describes (row : MetricsRow) (b : Block) (line : Text) (m : Place PlanGroup) : Prop :=
  ∃ node ∈ b.plan.nodes 0, line = ' ' :: node.1 ∧
    row.observedPlanFamily = groupText m.groups .node ∧
    row.estRows = groupText m.groups .estRows ∧
    row.actualRows = groupText m.groups .actRows ∧
    row.sharedHit = Nat.toDigits 10 node.2.hit ∧
    row.sharedRead = Nat.toDigits 10 node.2.read

theorem matchStart_of_firstPlanLine {text line : Text} {m : Place PlanGroup}
    (h : firstPlanLine text = some (line, m)) : matchStart planLineRe line = some m := by
  obtain ⟨line', -, hmatch⟩ := List.exists_of_findSome?_eq_some h
  obtain ⟨m', hm', heq⟩ := Option.map_eq_some_iff.mp hmatch
  cases heq
  exact hm'

/-- The first plan line is never described: it has an estimate, and the row has none. -/
theorem not_describes {b : Block} {line : Text} {m : Place PlanGroup} (h : firstPlanLine b.text = some (line, m))
    (config label : Text) : ¬ Describes (collectRow config label b.text) b line m := by
  rintro ⟨node, -, -, -, hest, -⟩
  apply estRows_ne_nil (matchStart_of_firstPlanLine h)
  rw [← hest]
  exact (collectRow_rows config label b).1

/-- **A row describes the node of the first plan line exactly if no line of the block is a plan line.** -/
theorem row_describes_iff (config label : Text) (b : Block) :
    (∀ line m, firstPlanLine b.text = some (line, m) → Describes (collectRow config label b.text) b line m) ↔
      ∀ line ∈ splitlines b.text, matchStart planLineRe line = none := by
  constructor
  · intro hrow line hline
    cases hfirst : firstPlanLine b.text with
    | none =>
        have hnone := List.findSome?_eq_none_iff.mp hfirst line hline
        exact Option.map_eq_none_iff.mp hnone
    | some first => exact absurd (hrow first.1 first.2 hfirst) (not_describes hfirst config label)
  · intro hlines line m hfirst
    obtain ⟨line', hline', hmatch⟩ := List.exists_of_findSome?_eq_some hfirst
    rw [hlines line' hline'] at hmatch
    exact absurd hmatch (by simp)

/-- A label of a node, as it is printed. -/
def printed (text : String) (h : Printable text.toList) : Line := ⟨text.toList, h⟩

/-- The first block of `results_temporal_rtree.txt`. -/
def selectBlock : Block where
  plan :=
    .node (printed "Aggregate" (by simp)) ⟨164200, 164201, 1, 8⟩ (some ⟨5650, 5650, 1, 1⟩) []
      { hit := 3480, used := by decide }
      [.node (printed "Index Scan using idx_rtree_temporalbox on temporal_data" (by simp)) ⟨0, 164075, 500, 0⟩
        (some ⟨81, 5640, 38, 1⟩)
        [printed "Index Cond: (temporalbox(attr, valid_period) && '(10, 1672531200),(10, 1685577600)'::cube)"
          (by simp)]
        { hit := 3480, used := by decide } []]
  planning := some { hit := 185, used := by decide }
  planningTime := 1185
  executionTime := 5686

example : selectBlock.plan.rootLine =
    "Aggregate  (cost=1642.00..1642.01 rows=1 width=8) (actual time=5.650..5.650 rows=1 loops=1)".toList := by
  decide +kernel

/-- The row of that block has no estimate, where the first plan line says `rows=1`, and the hits of planning, where
    the node has 3480. -/
theorem row_of_selectBlock :
    (firstPlanLine selectBlock.text).map (fun first => groupText first.2.groups .estRows) = some "1".toList ∧
      (collectRow "temporal_rtree".toList "SELECT".toList selectBlock.text).estRows = [] ∧
      (collectRow "temporal_rtree".toList "SELECT".toList selectBlock.text).sharedHit = "185".toList ∧
      ¬ ∀ line m, firstPlanLine selectBlock.text = some (line, m) →
        Describes (collectRow "temporal_rtree".toList "SELECT".toList selectBlock.text) selectBlock line m := by
  have hfirst : (firstPlanLine selectBlock.text).map (fun first => groupText first.2.groups .estRows) =
      some "1".toList := by decide +kernel
  have hplanning : selectBlock.planning = some { hit := 185, used := by decide } := rfl
  refine ⟨hfirst, (collectRow_rows _ _ _).1, (shared_of_planning hplanning (by decide) _ _).1, fun hrow => ?_⟩
  obtain ⟨⟨line, m⟩, hline, -⟩ := Option.map_eq_some_iff.mp hfirst
  exact not_describes hline _ _ (hrow line m hline)

end TemporalRTree.Metrics
