import Mathlib.Tactic

/-!
# `Lib.Regex` — backtracking regular expressions with groups

An expression tried at a place in a text can end at several places; `runs` lists them in the order in which a
backtracking matcher comes to them, so that the first is the match: alternatives from left to right, greedy
repetitions from the longest, lazy ones from the shortest. Only single characters are repeated, which is enough for
expressions that pick fields out of lines, and keeps the list finite.

`matchStart` tries an expression at the start of a text, `search` at every place, and `findall` goes on after each
match. What is proved:

- **Where a match can start.** `StartsWith p r`: `r` only matches where the next character meets `p`.
- **What a group holds.** An expression leaves the groups it does not name (`group_eq_of_mem_runs`), and a group
  around a repetition is not empty (`group_of_mem_runs_all`).
- **What a match can pass.** An expression without anchors that takes no `c` matches in front of a `c` as it does
  at the end of a text (`runs_extend`), so that a text can be cut there (`findallFrom_append_cons`).
- **How a match is found.** Rules to run an expression on a text that is known in parts: `first_seq`, `first_text`,
  `first_plus`, `first_group`, `first_opt`.
-/

namespace Regex

/-- Regular expressions with groups named by `ν`. -/
inductive Re (ν : Type) where
  | empty
  /-- One character that meets `p`. -/
  | chars (p : Char → Bool)
  | seq (r t : Re ν)
  | alt (r t : Re ν)
  /-- Any number of characters that meet `p`. -/
  | many (greedy : Bool) (p : Char → Bool)
  | group (name : ν) (r : Re ν)
  /-- `^`, the start of the text. -/
  | bol
  /-- `\b`, where a word starts or ends. -/
  | edge (word : Char → Bool)

namespace Re
variable {ν : Type}

/-- One or more characters that meet `p`. -/
def plus (p : Char → Bool) : Re ν := .seq (.chars p) (.many true p)

/-- `r`, if it matches. -/
def opt (r : Re ν) : Re ν := .alt r .empty

/-- A text, compared by `same`. -/
def text (same : Char → Char → Bool) : List Char → Re ν
  | [] => .empty
  | c :: rest => .seq (.chars (same c)) (text same rest)

/-- The expressions of a list one after the other. -/
def all : List (Re ν) → Re ν
  | [] => .empty
  | [r] => r
  | r :: rest => .seq r (all rest)

/-- The first of the expressions of a list that leads to a match. -/
def oneOf : List (Re ν) → Re ν
  | [] => .chars fun _ => false
  | [r] => r
  | r :: rest => .alt r (oneOf rest)

end Re

variable {ν : Type}

/-- A place in a text: the character before it, the text after it, and the groups matched so far, the last first. -/
structure Place (ν : Type) where
  prev : Option Char
  rest : List Char
  groups : List (ν × List Char) := []

/-- The text of a group. -/
def Place.group [DecidableEq ν] (s : Place ν) (name : ν) : Option (List Char) :=
  (s.groups.find? fun g => g.1 = name).map Prod.snd

/-- The places after zero and more characters that meet `p`. -/
def stretch (p : Char → Bool) (groups : List (ν × List Char)) : Option Char → List Char → List (Place ν)
  | prev, [] => [⟨prev, [], groups⟩]
  | prev, c :: rest =>
      ⟨prev, c :: rest, groups⟩ :: if p c then stretch p groups (some c) rest else []

/-- The places where an expression can end, in the order in which they are tried. -/
def runs : Re ν → Place ν → List (Place ν)
  | .empty, s => [s]
  | .chars p, s =>
      match s.rest with
      | [] => []
      | c :: rest => if p c then [{ s with prev := some c, rest := rest }] else []
  | .seq r t, s => (runs r s).flatMap (runs t)
  | .alt r t, s => runs r s ++ runs t s
  | .many greedy p, s =>
      if greedy then (stretch p s.groups s.prev s.rest).reverse else stretch p s.groups s.prev s.rest
  | .group name r, s =>
      (runs r s).map fun s' =>
        { s' with groups := (name, s.rest.take (s.rest.length - s'.rest.length)) :: s'.groups }
  | .bol, s => if s.prev.isNone then [s] else []
  | .edge word, s => if s.prev.any word ≠ s.rest.head?.any word then [s] else []

/-! ## Matching -/

/-- The match at a place. -/
def first (r : Re ν) (s : Place ν) : Option (Place ν) := (runs r s).head?

/-- The match at the start of a text. -/
def matchStart (r : Re ν) (text : List Char) : Option (Place ν) := first r ⟨none, text, []⟩

/-- The first match from a place on. -/
def searchFrom (r : Re ν) : Option Char → List Char → Option (Place ν)
  | prev, [] => first r ⟨prev, [], []⟩
  | prev, c :: rest => (first r ⟨prev, c :: rest, []⟩).or (searchFrom r (some c) rest)

/-- The first match in a text. -/
def search (r : Re ν) (text : List Char) : Option (Place ν) := searchFrom r none text

/-- The matches from a place on, which is `skip` characters inside the last one. -/
def findallFrom (r : Re ν) : Option Char → Nat → List Char → List (List (ν × List Char))
  | prev, 0, [] => ((first r ⟨prev, [], []⟩).map Place.groups).toList
  | _, _ + 1, [] => []
  | _, skip + 1, c :: rest => findallFrom r (some c) skip rest
  | prev, 0, c :: rest =>
      match first r ⟨prev, c :: rest, []⟩ with
      | none => findallFrom r (some c) 0 rest
      | some s => s.groups :: findallFrom r (some c) (rest.length - s.rest.length) rest

/-- The groups of the matches in a text, one after the other. -/
def findall (r : Re ν) (text : List Char) : List (List (ν × List Char)) := findallFrom r none 0 text

/-! ## Where a match can start -/

/-- The next character meets `p`. -/
def Place.nextIs (s : Place ν) (p : Char → Bool) : Bool := s.rest.head?.any p

/-- `r` only matches where the next character meets `p`. -/
def StartsWith (p : Char → Bool) (r : Re ν) : Prop := ∀ s, s.nextIs p = false → runs r s = []

section Start
variable {p q : Char → Bool} {r t : Re ν}

theorem StartsWith.chars : StartsWith p (.chars p : Re ν) := by
  rintro ⟨prev, rest, groups⟩ hnext
  cases rest with
  | nil => rfl
  | cons c rest => exact if_neg (by simpa [Place.nextIs] using hnext)

theorem StartsWith.seq (h : StartsWith p r) : StartsWith p (.seq r t) := by
  intro s hnext
  rw [runs, h s hnext, List.flatMap_nil]

theorem StartsWith.alt (h : StartsWith p r) (h' : StartsWith p t) : StartsWith p (.alt r t) := by
  intro s hnext
  rw [runs, h s hnext, h' s hnext, List.append_nil]

theorem StartsWith.imp (h : StartsWith p r) (hpq : ∀ c, p c = true → q c = true) : StartsWith q r := by
  rintro ⟨prev, rest, groups⟩ hnext
  apply h
  cases rest with
  | nil => rfl
  | cons c rest =>
      by_contra hc
      have hq : q c = true := hpq c (by simpa [Place.nextIs] using hc)
      simp [Place.nextIs, hq] at hnext

/-- There is no match at the end of a text. -/
theorem StartsWith.first_nil (h : StartsWith p r) (prev : Option Char) : first r ⟨prev, [], []⟩ = none := by
  rw [first, h ⟨prev, [], []⟩ rfl, List.head?_nil]

theorem StartsWith.first_cons (h : StartsWith p r) {prev : Option Char} {c : Char} (hc : p c = false)
    (rest : List Char) : first r ⟨prev, c :: rest, []⟩ = none := by
  rw [first, h ⟨prev, c :: rest, []⟩ (by simpa [Place.nextIs] using hc), List.head?_nil]

/-- A text without a character to start with is passed over. -/
theorem StartsWith.findallFrom_append (h : StartsWith p r) {text : List Char} (htext : ∀ c ∈ text, p c = false)
    (prev : Option Char) (rest : List Char) :
    ∃ prev', findallFrom r prev 0 (text ++ rest) = findallFrom r prev' 0 rest := by
  induction text generalizing prev with
  | nil => exact ⟨prev, rfl⟩
  | cons c text ih =>
      obtain ⟨prev', hrest⟩ := ih (fun c' hc' => htext c' (List.mem_cons_of_mem _ hc')) (some c)
      refine ⟨prev', ?_⟩
      rw [List.cons_append, findallFrom, h.first_cons (htext c List.mem_cons_self)]
      exact hrest

theorem StartsWith.findallFrom_eq_nil (h : StartsWith p r) {text : List Char} (htext : ∀ c ∈ text, p c = false)
    (prev : Option Char) (skip : Nat) : findallFrom r prev skip text = [] := by
  induction text generalizing prev skip with
  | nil =>
      cases skip with
      | zero => rw [findallFrom, h.first_nil]; rfl
      | succ skip => rfl
  | cons c text ih =>
      have hlater := ih fun c' hc' => htext c' (List.mem_cons_of_mem c hc')
      cases skip with
      | zero =>
          rw [findallFrom, h.first_cons (htext c List.mem_cons_self)]
          exact hlater (some c) 0
      | succ skip => exact hlater (some c) skip

theorem matchStart_bol (text : List Char) : matchStart (.seq .bol r) text = matchStart r text := by
  show (List.flatMap (runs r) [⟨none, text, []⟩]).head? = _
  rw [List.flatMap_singleton]
  rfl

/-- **An expression that is tied to the start of the text is only tried there.** -/
theorem search_bol (text : List Char) : search (.seq .bol r) text = matchStart r text := by
  have hlater : ∀ c text, searchFrom (.seq .bol r) (some c) text = none := by
    intro c text
    induction text generalizing c with
    | nil => rfl
    | cons c' text ih =>
        rw [searchFrom, ih]
        rfl
  cases text with
  | nil => exact matchStart_bol []
  | cons c text =>
      rw [search, searchFrom, hlater, Option.or_none]
      exact matchStart_bol (c :: text)

end Start

/-! ## Repetitions and groups -/

/-- A repetition takes characters that meet `p`. -/
theorem exists_of_mem_stretch {p : Char → Bool} {groups : List (ν × List Char)} {prev : Option Char}
    {rest : List Char} {s : Place ν} (h : s ∈ stretch p groups prev rest) :
    s.groups = groups ∧ ∃ taken, rest = taken ++ s.rest ∧ ∀ c ∈ taken, p c = true := by
  induction rest generalizing prev with
  | nil =>
      obtain rfl := List.mem_singleton.mp h
      exact ⟨rfl, [], rfl, fun c hc => nomatch hc⟩
  | cons c rest ih =>
      rcases List.mem_cons.mp h with rfl | h
      · exact ⟨rfl, [], rfl, fun c hc => nomatch hc⟩
      · split at h
        next hc =>
          obtain ⟨hgroups, taken, rfl, htaken⟩ := ih h
          refine ⟨hgroups, c :: taken, rfl, fun c' hc' => ?_⟩
          rcases List.mem_cons.mp hc' with rfl | hc'
          · exact hc
          · exact htaken c' hc'
        next => exact absurd h List.not_mem_nil

theorem runs_chars_cons {p : Char → Bool} {c : Char} (hc : p c = true) {prev : Option Char} {rest : List Char}
    {groups : List (ν × List Char)} :
    runs (.chars p) ⟨prev, c :: rest, groups⟩ = [⟨some c, rest, groups⟩] := if_pos hc

theorem mem_runs_chars {p : Char → Bool} {s s' : Place ν} (h : s' ∈ runs (.chars p) s) :
    s'.groups = s.groups ∧ ∃ c, s.rest = c :: s'.rest := by
  obtain ⟨prev, rest, groups⟩ := s
  cases rest with
  | nil => exact absurd h List.not_mem_nil
  | cons c rest =>
      unfold runs at h
      dsimp only at h
      split at h
      · rw [List.mem_singleton.mp h]
        exact ⟨rfl, c, rfl⟩
      · exact absurd h List.not_mem_nil

theorem mem_runs_many {greedy : Bool} {p : Char → Bool} {s s' : Place ν} (h : s' ∈ runs (.many greedy p) s) :
    s'.groups = s.groups ∧ ∃ taken, s.rest = taken ++ s'.rest ∧ ∀ c ∈ taken, p c = true := by
  rw [runs] at h
  split at h
  · exact exists_of_mem_stretch (List.mem_reverse.mp h)
  · exact exists_of_mem_stretch h

theorem mem_runs_seq {r t : Re ν} {s s' : Place ν} :
    s' ∈ runs (.seq r t) s ↔ ∃ s₁ ∈ runs r s, s' ∈ runs t s₁ := List.mem_flatMap

theorem runs_seq_eq_nil {r t : Re ν} {s : Place ν} (h : ∀ s₁ ∈ runs r s, runs t s₁ = []) :
    runs (.seq r t) s = [] := List.flatMap_eq_nil_iff.mpr h

/-- A repetition ends in front of another character to take, or where there is none. -/
theorem next_of_mem_stretch {p : Char → Bool} {groups : List (ν × List Char)} {prev : Option Char}
    {taken : List Char} {c : Char} {rest : List Char} {s : Place ν}
    (h : s ∈ stretch p groups prev (taken ++ c :: rest)) (htaken : ∀ d ∈ taken, p d = true) (hc : p c = false) :
    s.nextIs p = true ∨ s.rest = c :: rest := by
  induction taken generalizing prev with
  | nil =>
      rw [List.nil_append, stretch, hc] at h
      rw [List.mem_singleton.mp h]
      exact Or.inr rfl
  | cons d taken ih =>
      have hd : p d = true := htaken d List.mem_cons_self
      rw [List.cons_append, stretch, if_pos hd] at h
      rcases List.mem_cons.mp h with rfl | h
      · exact Or.inl hd
      · exact ih h fun d' hd' => htaken d' (List.mem_cons_of_mem d hd')

theorem next_of_mem_runs_many {greedy : Bool} {p : Char → Bool} {groups : List (ν × List Char)} {prev : Option Char}
    {taken : List Char} {c : Char} {rest : List Char} {s : Place ν}
    (h : s ∈ runs (.many greedy p) ⟨prev, taken ++ c :: rest, groups⟩) (htaken : ∀ d ∈ taken, p d = true)
    (hc : p c = false) : s.nextIs p = true ∨ s.rest = c :: rest := by
  rw [runs] at h
  split at h
  · exact next_of_mem_stretch (List.mem_reverse.mp h) htaken hc
  · exact next_of_mem_stretch h htaken hc

theorem next_of_mem_runs_plus {p : Char → Bool} {groups : List (ν × List Char)} {prev : Option Char}
    {taken : List Char} {c : Char} {rest : List Char} {s : Place ν}
    (h : s ∈ runs (.plus p) ⟨prev, taken ++ c :: rest, groups⟩) (htaken : ∀ d ∈ taken, p d = true)
    (hc : p c = false) : s.nextIs p = true ∨ s.rest = c :: rest := by
  obtain ⟨s₁, hs₁, hs⟩ := mem_runs_seq.mp h
  cases taken with
  | nil =>
      have hnone : runs (.chars p) ⟨prev, c :: rest, groups⟩ = [] := StartsWith.chars _ hc
      rw [List.nil_append, hnone] at hs₁
      exact absurd hs₁ List.not_mem_nil
  | cons d taken =>
      have hd : p d = true := htaken d List.mem_cons_self
      rw [List.cons_append, runs_chars_cons hd] at hs₁
      rw [List.mem_singleton.mp hs₁] at hs
      exact next_of_mem_runs_many hs (fun d' hd' => htaken d' (List.mem_cons_of_mem d hd')) hc

/-- The groups an expression names. -/
def Re.names : Re ν → List ν
  | .seq r t => r.names ++ t.names
  | .alt r t => r.names ++ t.names
  | .group name r => name :: r.names
  | _ => []

theorem Re.names_all {rs : List (Re ν)} {name : ν} (h : ∀ r ∈ rs, name ∉ r.names) : name ∉ (Re.all rs).names := by
  fun_induction Re.all rs with
  | case1 => exact List.not_mem_nil
  | case2 r => exact h r List.mem_cons_self
  | case3 r rest _ ih =>
      rw [Re.names, List.mem_append, not_or]
      exact ⟨h r List.mem_cons_self, ih fun r' hr' => h r' (List.mem_cons_of_mem r hr')⟩

section Groups
variable [DecidableEq ν]

/-- **An expression leaves the groups it does not name.** -/
theorem group_eq_of_mem_runs {r : Re ν} {s s' : Place ν} {name : ν} (h : s' ∈ runs r s) (hname : name ∉ r.names) :
    s'.group name = s.group name := by
  induction r generalizing s s' with
  | empty => rw [List.mem_singleton.mp h]
  | chars p => rw [Place.group, Place.group, (mem_runs_chars h).1]
  | seq r t ihr iht =>
      obtain ⟨s₁, hs₁, hs'⟩ := mem_runs_seq.mp h
      rw [Re.names, List.mem_append, not_or] at hname
      rw [iht hs' hname.2, ihr hs₁ hname.1]
  | alt r t ihr iht =>
      rw [Re.names, List.mem_append, not_or] at hname
      rcases List.mem_append.mp h with h | h
      · exact ihr h hname.1
      · exact iht h hname.2
  | many greedy p => rw [Place.group, Place.group, (mem_runs_many h).1]
  | group name' r ih =>
      obtain ⟨s₁, hs₁, rfl⟩ := List.mem_map.mp h
      rw [Re.names, List.mem_cons, not_or] at hname
      rw [← ih hs₁ hname.2]
      simp [Place.group, Ne.symm hname.1]
  | bol =>
      rw [runs] at h
      split at h
      · rw [List.mem_singleton.mp h]
      · exact absurd h List.not_mem_nil
  | edge word =>
      rw [runs] at h
      split at h
      · rw [List.mem_singleton.mp h]
      · exact absurd h List.not_mem_nil

/-- **A group around one or more characters is not empty.** -/
theorem group_of_mem_runs_plus {p : Char → Bool} {s s' : Place ν} {name : ν}
    (h : s' ∈ runs (.group name (.plus p)) s) : ∃ text, s'.group name = some text ∧ text ≠ [] := by
  obtain ⟨s₁, hs₁, rfl⟩ := List.mem_map.mp h
  refine ⟨s.rest.take (s.rest.length - s₁.rest.length), by simp [Place.group], ?_⟩
  obtain ⟨s₂, hs₂, hs₁⟩ := mem_runs_seq.mp hs₁
  obtain ⟨-, c, hc⟩ := mem_runs_chars hs₂
  obtain ⟨-, taken, htaken, -⟩ := mem_runs_many hs₁
  rw [hc, htaken, ← List.length_pos_iff, List.length_take]
  simp only [List.length_cons, List.length_append]
  omega

/-- The same in a list of expressions of which the later ones do not name the group. -/
theorem group_of_mem_runs_all {rs : List (Re ν)} {name : ν} {p : Char → Bool} {s s' : Place ν} (i : Nat)
    (h : s' ∈ runs (.all rs) s) (hi : rs[i]? = some (.group name (.plus p)))
    (hafter : ∀ r ∈ rs.drop (i + 1), name ∉ r.names) : ∃ text, s'.group name = some text ∧ text ≠ [] := by
  fun_induction Re.all rs generalizing s i with
  | case1 => exact absurd hi (by simp)
  | case2 r =>
      obtain ⟨rfl, hr⟩ : i = 0 ∧ r = .group name (.plus p) := by
        simpa [List.getElem?_singleton, ite_eq_iff] using hi
      subst hr
      exact group_of_mem_runs_plus h
  | case3 r rest hrest ih =>
      obtain ⟨s₁, hs₁, hs'⟩ := mem_runs_seq.mp h
      cases i with
      | zero =>
          obtain rfl : r = .group name (.plus p) := by simpa using hi
          rw [group_eq_of_mem_runs hs' (Re.names_all hafter)]
          exact group_of_mem_runs_plus hs₁
      | succ i => exact ih i hs' hi hafter

end Groups

/-! ## What a match can pass -/

/-- No `^` and no `\b`. -/
def Re.anchorFree : Re ν → Bool
  | .seq r t => r.anchorFree && t.anchorFree
  | .alt r t => r.anchorFree && t.anchorFree
  | .group _ r => r.anchorFree
  | .bol => false
  | .edge _ => false
  | _ => true

/-- No part of the expression takes a `c`. -/
def Re.avoids (c : Char) : Re ν → Bool
  | .chars p => !p c
  | .seq r t => r.avoids c && t.avoids c
  | .alt r t => r.avoids c && t.avoids c
  | .many _ p => !p c
  | .group _ r => r.avoids c
  | _ => true

/-- The same place in a longer text. -/
def Place.extend (text : List Char) (s : Place ν) : Place ν := { s with rest := s.rest ++ text }

section Pass
variable {r : Re ν} {c : Char} (text : List Char)

theorem stretch_extend {p : Char → Bool} (hp : p c = false) (groups : List (ν × List Char)) (prev : Option Char)
    (rest : List Char) :
    stretch p groups prev (rest ++ c :: text) = (stretch p groups prev rest).map (Place.extend (c :: text)) := by
  induction rest generalizing prev with
  | nil => simp [stretch, hp, Place.extend]
  | cons c' rest ih =>
      rw [List.cons_append, stretch, stretch, List.map_cons]
      split
      · rw [ih]
        rfl
      · rfl

/-- **In front of a character it does not take, an expression matches as at the end of a text.** -/
theorem runs_extend (hfree : r.anchorFree = true) (havoids : r.avoids c = true) (s : Place ν) :
    runs r (s.extend (c :: text)) = (runs r s).map (Place.extend (c :: text)) := by
  induction r generalizing s with
  | empty => rfl
  | chars p =>
      obtain ⟨prev, rest, groups⟩ := s
      cases rest with
      | nil => exact if_neg (by simpa [Re.avoids] using havoids)
      | cons c' rest =>
          show (if p c' then _ else _) = List.map _ (if p c' then _ else _)
          split
          · rfl
          · rfl
  | seq r t ihr iht =>
      simp only [Re.anchorFree, Re.avoids, Bool.and_eq_true] at hfree havoids
      rw [runs, runs, ihr hfree.1 havoids.1, List.flatMap_map, List.map_flatMap]
      exact List.flatMap_congr fun s' _ => iht hfree.2 havoids.2 s'
  | alt r t ihr iht =>
      simp only [Re.anchorFree, Re.avoids, Bool.and_eq_true] at hfree havoids
      rw [runs, runs, ihr hfree.1 havoids.1, iht hfree.2 havoids.2, List.map_append]
  | many greedy p =>
      have hp : p c = false := by simpa [Re.avoids] using havoids
      have hstretch := stretch_extend text hp s.groups s.prev s.rest
      show (if greedy then (stretch p s.groups s.prev (s.rest ++ c :: text)).reverse else
        stretch p s.groups s.prev (s.rest ++ c :: text)) = _
      rw [hstretch, runs]
      split
      · rw [List.map_reverse]
      · rfl
  | group name r ih =>
      rw [runs, runs, ih hfree havoids, List.map_map, List.map_map]
      refine List.map_congr_left fun s' _ => ?_
      -- what the group took is the difference of two texts that are longer by the same
      have hlen : (s.extend (c :: text)).rest.length - (s'.extend (c :: text)).rest.length =
          s.rest.length - s'.rest.length := by
        simp only [Place.extend, List.length_append]
        omega
      have htake : (s.rest ++ c :: text).take (s.rest.length - s'.rest.length) =
          s.rest.take (s.rest.length - s'.rest.length) :=
        List.take_append_of_le_length (Nat.sub_le _ _)
      show Place.mk _ _ _ = Place.mk _ _ _
      rw [hlen]
      show Place.mk _ _ ((name, (s.rest ++ c :: text).take _) :: _) = _
      rw [htake]
      rfl
  | bol => exact absurd hfree (by simp [Re.anchorFree])
  | edge word => exact absurd hfree (by simp [Re.anchorFree])

theorem first_extend (hfree : r.anchorFree = true) (havoids : r.avoids c = true) (prev : Option Char)
    (rest : List Char) :
    first r ⟨prev, rest ++ c :: text, []⟩ = (first r ⟨prev, rest, []⟩).map (Place.extend (c :: text)) := by
  show (runs r (Place.extend (c :: text) ⟨prev, rest, []⟩)).head? = _
  rw [runs_extend text hfree havoids, List.head?_map]
  rfl

/-- **No match passes a character that the expression does not take**: the matches are those before it and those
    after it. -/
theorem findallFrom_append_cons {p : Char → Bool} (hstart : StartsWith p r) (hfree : r.anchorFree = true)
    (havoids : r.avoids c = true) (prev : Option Char) {skip : Nat} (before : List Char)
    (hskip : skip ≤ before.length) :
    findallFrom r prev skip (before ++ c :: text) =
      findallFrom r prev skip before ++ findallFrom r (some c) 0 text := by
  induction before generalizing prev skip with
  | nil =>
      obtain rfl : skip = 0 := Nat.le_zero.mp hskip
      -- no match starts at `c`: at the end of a text there is none
      have hnone : first r ⟨prev, c :: text, []⟩ = none := by
        have hextend := first_extend text hfree havoids prev []
        rw [hstart.first_nil] at hextend
        exact hextend
      show findallFrom r prev 0 (c :: text) = findallFrom r prev 0 [] ++ _
      rw [findallFrom, findallFrom, hnone, hstart.first_nil]
      rfl
  | cons c' before ih =>
      cases skip with
      | succ skip => exact ih (some c') (Nat.le_of_succ_le_succ hskip)
      | zero =>
          have hextend := first_extend text hfree havoids prev (c' :: before)
          rw [List.cons_append] at hextend
          rw [List.cons_append, findallFrom, findallFrom, hextend]
          cases first r ⟨prev, c' :: before, []⟩ with
          | none => exact ih (some c') (Nat.zero_le _)
          | some s =>
              have hlen : (before ++ c :: text).length - (s.extend (c :: text)).rest.length =
                  before.length - s.rest.length := by
                simp only [Place.extend, List.length_append]
                omega
              simp only [Option.map_some, hlen]
              rw [ih (some c') (Nat.sub_le _ _)]
              rfl

end Pass

/-! ## How a match is found -/

/-- The character before the place after a text. -/
def lastOf (prev : Option Char) (text : List Char) : Option Char := text.getLast?.or prev

theorem lastOf_cons (prev : Option Char) (c : Char) (text : List Char) :
    lastOf prev (c :: text) = lastOf (some c) text := by
  cases text with
  | nil => rfl
  | cons c' text =>
    unfold lastOf
    rw [List.getLast?_cons_cons, List.getLast?_cons]
    rfl

section Rules
variable {r t : Re ν} {prev prev' : Option Char} {text rest : List Char} {groups groups' : List (ν × List Char)}

theorem first_seq {s s₁ s₂ : Place ν} (h₁ : first r s = some s₁) (h₂ : first t s₁ = some s₂) :
    first (.seq r t) s = some s₂ := by
  obtain ⟨others, hr⟩ := List.head?_eq_some_iff.mp h₁
  show ((runs r s).flatMap (runs t)).head? = some s₂
  rw [hr, List.flatMap_cons, List.head?_append]
  show (first t s₁).or _ = some s₂
  rw [h₂]
  rfl

theorem first_chars {p : Char → Bool} {c : Char} (hc : p c = true) :
    first (.chars p) ⟨prev, c :: rest, groups⟩ = some ⟨some c, rest, groups⟩ := by
  rw [first, runs_chars_cons hc]
  rfl

theorem first_text {same : Char → Char → Bool} (hsame : ∀ c ∈ text, same c c = true) :
    first (.text same text) ⟨prev, text ++ rest, groups⟩ = some ⟨lastOf prev text, rest, groups⟩ := by
  induction text generalizing prev with
  | nil => rfl
  | cons c text ih =>
      rw [lastOf_cons]
      refine first_seq (first_chars (hsame c List.mem_cons_self)) ?_
      exact ih fun c' hc' => hsame c' (List.mem_cons_of_mem c hc')

theorem first_many {p : Char → Bool} (htext : ∀ c ∈ text, p c = true) (hrest : rest.head?.any p = false) :
    first (.many true p) ⟨prev, text ++ rest, groups⟩ = some ⟨lastOf prev text, rest, groups⟩ := by
  show (stretch p groups prev (text ++ rest)).reverse.head? = _
  rw [List.head?_reverse]
  induction text generalizing prev with
  | nil =>
      cases rest with
      | nil => rfl
      | cons c rest =>
          have hc : p c = false := hrest
          rw [List.nil_append, stretch, hc]
          rfl
  | cons c text ih =>
      rw [List.cons_append, stretch, if_pos (htext c List.mem_cons_self), List.getLast?_cons, lastOf_cons,
        ih fun c' hc' => htext c' (List.mem_cons_of_mem c hc')]
      rfl

/-- One or more characters are taken as far as they go. -/
theorem first_plus {p : Char → Bool} (htext : ∀ c ∈ text, p c = true) (hne : text ≠ [])
    (hrest : rest.head?.any p = false) :
    first (.plus p) ⟨prev, text ++ rest, groups⟩ = some ⟨lastOf prev text, rest, groups⟩ := by
  cases text with
  | nil => exact absurd rfl hne
  | cons c text =>
      rw [lastOf_cons]
      refine first_seq (first_chars (htext c List.mem_cons_self)) ?_
      exact first_many (fun c' hc' => htext c' (List.mem_cons_of_mem c hc')) hrest

theorem first_group {name : ν} (h : first r ⟨prev, text ++ rest, groups⟩ = some ⟨prev', rest, groups'⟩) :
    first (.group name r) ⟨prev, text ++ rest, groups⟩ = some ⟨prev', rest, (name, text) :: groups'⟩ := by
  show (List.map _ (runs r _)).head? = _
  rw [List.head?_map]
  show (first r _).map _ = _
  rw [h]
  simp

theorem first_opt {s s' : Place ν} (h : first r s = some s') : first (.opt r) s = some s' := by
  show (runs r s ++ [s]).head? = some s'
  rw [List.head?_append]
  show (first r s).or _ = some s'
  rw [h]
  rfl

theorem first_opt_of_nil {s : Place ν} (h : runs r s = []) : first (.opt r) s = some s := by
  show (runs r s ++ [s]).head? = some s
  rw [h]
  rfl

end Rules

end Regex
