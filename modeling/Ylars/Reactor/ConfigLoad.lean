import Ylars.Lib.Overwrite
import Ylars.Lib.Trim
import Ylars.Reactor.ConfigFile

/-!
# What a configuration file says

`IsHeader` and `IsAssignment` say, without the loops of the parser, which lines are headers
and which lines assign a value to a key.  A file is then a sequence of statements
`(section, key) := value`, and `Load` performs them one after the other.

An assignment line that no header precedes has no map to store into: `Load` dereferences
null exactly when there is one.  When there is none, `GetString` gives the value of the last
statement for the section and the key.
-/

namespace Ylars.Reactor.ConfigFile

open Ylars.Lib

/-! ## Lines -/

/-- `trimLeft` takes the white space off the front. -/
theorem trimLeft_eq (s : Bytes) : trimLeft s = s.dropWhile isSpace := by
  unfold trimLeft
  induction s with
  | nil => rfl
  | cons c s ih =>
      cases hc : isSpace c with
      | true => simpa [firstNotEmpty, hc] using ih
      | false => simp [firstNotEmpty, hc]

/-- The loop of `trimRight` counts the white space from the back. -/
theorem lastNotEmpty_eq (n : ℕ) (s : Bytes) : lastNotEmpty n s = n - firstNotEmpty s := by
  induction s generalizing n with
  | nil => rfl
  | cons c s ih =>
      cases hc : isSpace c with
      | true =>
          simp only [lastNotEmpty, firstNotEmpty, hc, if_true, ih]
          omega
      | false => simp [lastNotEmpty, firstNotEmpty, hc]

/-- `trimRight` takes the white space off the back. -/
theorem trimRight_eq (s : Bytes) : trimRight s = s.rdropWhile isSpace := by
  have hrev : (s.reverse.drop (firstNotEmpty s.reverse)).reverse =
      s.take (s.length - firstNotEmpty s.reverse) := by
    rw [List.reverse_drop, List.reverse_reverse, List.length_reverse]
  rw [trimRight, lastNotEmpty_eq, ← hrev, List.rdropWhile, ← trimLeft_eq, trimLeft]

theorem trim_eq_iff {s t : Bytes} : trim s = t ↔ Trims isSpace s t := by
  rw [trims_iff, trim, trimRight_eq, trimLeft_eq]
  rfl

/-- The line is a header of the section `name`: trimmed, it is enclosed in `[` and `]` with
something in between, which is `name` when it is trimmed. -/
def IsHeader (line name : Bytes) : Prop :=
  ∃ inner, inner ≠ [] ∧
    Trims isSpace line ('['.toUInt8 :: (inner ++ [']'.toUInt8])) ∧ Trims isSpace inner name

/-- The line assigns `value` to `key`: it is not a header, `key` and `value` are what is
before and after its first `=`, trimmed, and `key` is neither empty nor the start of a
comment. -/
structure IsAssignment (line key value : Bytes) : Prop where
  notHeader : ∀ name, ¬IsHeader line name
  cut : ∃ before after, line = before ++ '='.toUInt8 :: after ∧ '='.toUInt8 ∉ before ∧
    Trims isSpace before key ∧ Trims isSpace after value
  nonempty : key ≠ []
  noComment : ∀ c ∈ key.head?, c ≠ '#'.toUInt8 ∧ c ≠ ';'.toUInt8

theorem enclosed_iff {s : Bytes} {a b : UInt8} :
    (2 < s.length ∧ s.head? = some a ∧ s.getLast? = some b) ↔
      ∃ inner, inner ≠ [] ∧ s = a :: (inner ++ [b]) ∧ (s.drop 1).take (s.length - 2) = inner := by
  constructor
  · rintro ⟨hlen, ha, hb⟩
    obtain ⟨s, rfl⟩ := List.head?_eq_some_iff.mp ha
    have hne : s ≠ [] := by
      rintro rfl
      simp at hlen
    obtain ⟨inner, c, rfl⟩ := List.eq_nil_or_concat' s |>.resolve_left hne
    obtain rfl : c = b := by
      rw [← List.cons_append, List.getLast?_concat] at hb
      exact Option.some.inj hb
    refine ⟨inner, ?_, rfl, by simp⟩
    rintro rfl
    simp at hlen
  · rintro ⟨inner, hne, rfl, -⟩
    have hpos := List.length_pos_of_ne_nil hne
    refine ⟨?_, rfl, ?_⟩
    · simp only [List.length_cons, List.length_append, List.length_nil]
      omega
    · rw [← List.cons_append, List.getLast?_concat]

/-- `isSection` recognizes the headers. -/
theorem isSection_eq_some_iff {line name : Bytes} :
    isSection line = some name ↔ IsHeader line name := by
  have hsec : isSection line = some name ↔
      (2 < (trim line).length ∧ (trim line).head? = some '['.toUInt8 ∧
        (trim line).getLast? = some ']'.toUInt8) ∧
      trim (((trim line).drop 1).take ((trim line).length - 2)) = name := by
    simp only [isSection, Bool.or_eq_true, List.isEmpty_iff, decide_eq_true_eq]
    by_cases hshort : trim line = [] ∨ (trim line).length ≤ 2
    · have hlen : ¬2 < (trim line).length := by
        rcases hshort with e | h
        · simp [e]
        · omega
      simp [hshort, hlen]
    · obtain ⟨-, hlen⟩ := not_or.mp hshort
      by_cases hends : (trim line).head? ≠ some '['.toUInt8 ∨
          (trim line).getLast? ≠ some ']'.toUInt8
      · rw [if_neg hshort, if_pos hends]
        simp only [reduceCtorEq, false_iff]
        rintro ⟨⟨-, hfirst, hlast⟩, -⟩
        exact hends.elim (· hfirst) (· hlast)
      · rw [if_neg hshort, if_neg hends, Option.some.injEq]
        simp only [ne_eq, not_or, not_not] at hends
        exact (and_iff_right ⟨not_le.mp hlen, hends⟩).symm
  rw [hsec, enclosed_iff]
  simp only [← trim_eq_iff, IsHeader]
  constructor
  · rintro ⟨⟨inner, hne, hline, hinner⟩, hname⟩
    exact ⟨inner, hne, hline, hinner ▸ hname⟩
  · rintro ⟨inner, hne, hline, hname⟩
    have hinner : ((trim line).drop 1).take ((trim line).length - 2) = inner := by
      rw [hline]
      simp
    exact ⟨⟨inner, hne, hline, hinner⟩, hinner ▸ hname⟩

theorem isSection_eq_none_iff {line : Bytes} :
    isSection line = none ↔ ∀ name, ¬IsHeader line name := by
  simp only [Option.eq_none_iff_forall_ne_some, ne_eq, isSection_eq_some_iff]

theorem assignment_of_notMem {line : Bytes} (h : '='.toUInt8 ∉ line) : assignment line = none := by
  simp only [assignment, List.idxOf?_eq_none_iff.mpr h]

/-- A line is cut at its first `=`. -/
theorem assignment_cut {before after : Bytes} (h : '='.toUInt8 ∉ before) :
    assignment (before ++ '='.toUInt8 :: after) =
      if trim before = [] then none
      else if (trim before).head? = some '#'.toUInt8 ∨ (trim before).head? = some ';'.toUInt8 then
        none
      else some (trim before, trim after) := by
  have hidx := idxOf?_eq_some_iff_cut.mpr ⟨before, after, rfl, h, rfl⟩
  have hdrop : (before ++ '='.toUInt8 :: after).drop (before.length + 1) = after := by
    simp [List.drop_append]
  simp only [assignment, hidx, List.take_left, hdrop, List.isEmpty_iff, Bool.or_eq_true,
    decide_eq_true_eq]

/-- What `assignment` finds in a line that is no header is what the line assigns. -/
theorem assignment_eq_some_iff {line key value : Bytes} :
    isSection line = none ∧ assignment line = some (key, value) ↔
      IsAssignment line key value := by
  have hcut : assignment line = some (key, value) ↔
      (∃ before after, line = before ++ '='.toUInt8 :: after ∧ '='.toUInt8 ∉ before ∧
        trim before = key ∧ trim after = value) ∧
      key ≠ [] ∧ ∀ c ∈ key.head?, c ≠ '#'.toUInt8 ∧ c ≠ ';'.toUInt8 := by
    constructor
    · intro h
      by_cases hmem : '='.toUInt8 ∈ line
      · obtain ⟨before, after, rfl, hnot⟩ := List.eq_append_cons_of_mem hmem
        rw [assignment_cut hnot] at h
        split at h
        · cases h
        · rename_i hne
          split at h
          · cases h
          · rename_i hcomment
            cases h
            refine ⟨⟨before, after, rfl, hnot, rfl, rfl⟩, hne, fun c hc ↦ ⟨?_, ?_⟩⟩
            · rintro rfl
              exact hcomment (.inl hc)
            · rintro rfl
              exact hcomment (.inr hc)
      · rw [assignment_of_notMem hmem] at h
        cases h
    · rintro ⟨⟨before, after, rfl, hnot, rfl, rfl⟩, hne, hcomment⟩
      rw [assignment_cut hnot, if_neg hne, if_neg]
      rintro (h | h)
      · exact (hcomment _ h).1 rfl
      · exact (hcomment _ h).2 rfl
  rw [hcut, isSection_eq_none_iff]
  simp only [trim_eq_iff]
  constructor
  · rintro ⟨hheader, hcut, hne, hcomment⟩
    exact ⟨hheader, hcut, hne, hcomment⟩
  · rintro ⟨hheader, hcut, hne, hcomment⟩
    exact ⟨hheader, hcut, hne, hcomment⟩

/-! ## A file as a sequence of statements -/

/-- A statement: the value of a key of a section. -/
abbrev ConfigStatement := (Bytes × Bytes) × Bytes

/-- What a line assigns, if it is an assignment. -/
def entry (line : Bytes) : Option (Bytes × Bytes) :=
  if (isSection line).isSome then none else assignment line

theorem entry_eq_some_iff {line key value : Bytes} :
    entry line = some (key, value) ↔ IsAssignment line key value := by
  rw [← assignment_eq_some_iff, entry]
  cases isSection line <;> simp

/-- The section that is open behind a line. -/
def sectionAfter (sec : Option Bytes) (line : Bytes) : Option Bytes := (isSection line).or sec

/-- The section that is open behind a sequence of lines. -/
def openAfter (sec : Option Bytes) (ls : List Bytes) : Option Bytes := ls.foldl sectionAfter sec

/-- The statement of a line in a section. -/
def statement (sec : Option Bytes) (line : Bytes) : Option ConfigStatement :=
  sec.bind fun name ↦ (entry line).map fun e ↦ ((name, e.1), e.2)

/-- The statements of a sequence of lines. -/
def statements : Option Bytes → List Bytes → List ConfigStatement
  | _, [] => []
  | sec, line :: ls => (statement sec line).toList ++ statements (sectionAfter sec line) ls

/-- The last line is in the section that the others leave open. -/
theorem statements_concat (sec : Option Bytes) (ls : List Bytes) (line : Bytes) :
    statements sec (ls ++ [line]) =
      statements sec ls ++ (statement (openAfter sec ls) line).toList := by
  induction ls generalizing sec with
  | nil => simp [statements, openAfter]
  | cons l ls ih =>
      rw [List.cons_append, statements, ih, statements, List.append_assoc]
      rfl

theorem openAfter_concat (sec : Option Bytes) (ls : List Bytes) (line : Bytes) :
    openAfter sec (ls ++ [line]) = (isSection line).or (openAfter sec ls) :=
  List.foldl_concat ..

/-- The lines behind `ls` lie under a header of the section `name`: it is the last header
in `ls`. -/
def Under (ls : List Bytes) (name : Bytes) : Prop :=
  ∃ above header between, ls = above ++ header :: between ∧ IsHeader header name ∧
    ∀ line ∈ between, ∀ n, ¬IsHeader line n

/-- One more line is a header itself or leaves the last header. -/
theorem under_concat {ls : List Bytes} {line name : Bytes} :
    Under (ls ++ [line]) name ↔
      IsHeader line name ∨ (∀ n, ¬IsHeader line n) ∧ Under ls name := by
  constructor
  · rintro ⟨above, header, between, e, hname, hbetween⟩
    rcases List.eq_nil_or_concat' between with rfl | ⟨between, l, rfl⟩
    · obtain ⟨-, rfl⟩ := List.append_singleton_inj.mp e
      exact .inl hname
    · rw [← List.cons_append, ← List.append_assoc] at e
      obtain ⟨rfl, rfl⟩ := List.append_singleton_inj.mp e
      exact .inr ⟨hbetween line (by simp), above, header, between, rfl, hname,
        fun l hl ↦ hbetween l (List.mem_append_left _ hl)⟩
  · rintro (hname | ⟨hnot, above, header, between, rfl, hname, hbetween⟩)
    · exact ⟨ls, line, [], rfl, hname, by simp⟩
    · refine ⟨above, header, between ++ [line], by simp, hname, fun l hl ↦ ?_⟩
      rcases List.mem_append.mp hl with hl | hl
      · exact hbetween l hl
      · rwa [List.mem_singleton.mp hl]

/-- The open section is that of the last header. -/
theorem openAfter_eq_some_iff {ls : List Bytes} {name : Bytes} :
    openAfter none ls = some name ↔ Under ls name := by
  induction ls using List.reverseRecOn with
  | nil => simp [openAfter, Under]
  | append_singleton ls line ih =>
      rw [openAfter_concat, under_concat, Option.or_eq_some_iff, isSection_eq_some_iff,
        isSection_eq_none_iff, ih]

/-- A section is open when there is a header. -/
theorem openAfter_ne_none_iff {ls : List Bytes} :
    openAfter none ls ≠ none ↔ ∃ header ∈ ls, ∃ name, IsHeader header name := by
  induction ls using List.reverseRecOn with
  | nil => simp [openAfter]
  | append_singleton ls line ih =>
      rw [openAfter_concat, ne_eq, Option.or_eq_none_iff, not_and_or, ← ne_eq, ← ne_eq, ih]
      simp only [List.mem_append, List.mem_singleton, or_and_right, exists_or, exists_eq_left]
      rw [or_comm, Option.ne_none_iff_exists']
      simp only [isSection_eq_some_iff]

/-! ## Assignments and statements -/

/-- The line at index `i` assigns `value` to `key` in the section `name`. -/
def AssignedAt (ls : List Bytes) (i : ℕ) (name key value : Bytes) : Prop :=
  ∃ line, ls[i]? = some line ∧ IsAssignment line key value ∧ Under (ls.take i) name

theorem assignedAt_concat {ls : List Bytes} {line : Bytes} {i : ℕ} {name key value : Bytes} :
    AssignedAt (ls ++ [line]) i name key value ↔
      AssignedAt ls i name key value ∨
        i = ls.length ∧ IsAssignment line key value ∧ Under ls name := by
  rcases lt_trichotomy i ls.length with hi | rfl | hi
  · simp only [AssignedAt, List.getElem?_append_left hi, List.take_append_of_le_length hi.le,
      hi.ne, false_and, or_false]
  · simp [AssignedAt]
  · have hout : (ls ++ [line])[i]? = none := by
      rw [List.getElem?_eq_none_iff, List.length_append, List.length_singleton]
      omega
    simp only [AssignedAt, hout, List.getElem?_eq_none hi.le, reduceCtorEq, false_and, exists_false,
      hi.ne', or_false]

theorem AssignedAt.lt {ls : List Bytes} {i : ℕ} {name key value : Bytes}
    (h : AssignedAt ls i name key value) : i < ls.length := by
  obtain ⟨line, hline, -⟩ := h
  exact (List.getElem?_eq_some_iff.mp hline).1

theorem statement_eq_some_iff {ls : List Bytes} {line name key value : Bytes} :
    statement (openAfter none ls) line = some ((name, key), value) ↔
      IsAssignment line key value ∧ Under ls name := by
  rw [← entry_eq_some_iff, ← openAfter_eq_some_iff]
  simp only [statement, Option.bind_eq_some_iff, Option.map_eq_some_iff, Prod.mk.injEq]
  constructor
  · rintro ⟨s, hs, e, he, ⟨rfl, rfl⟩, rfl⟩
    exact ⟨he, hs⟩
  · rintro ⟨he, hs⟩
    exact ⟨name, hs, (key, value), he, ⟨rfl, rfl⟩, rfl⟩

/-- The last statement for a key of a section is that of the last line that assigns it. -/
theorem last_statements (ls : List Bytes) (name key : Bytes) :
    (∃ i value, Overwrite.last (name, key) (statements none ls) = some value ∧
      AssignedAt ls i name key value ∧
      ∀ j value', i < j → ¬AssignedAt ls j name key value') ∨
    (Overwrite.last (name, key) (statements none ls) = none ∧
      ∀ i value, ¬AssignedAt ls i name key value) := by
  induction ls using List.reverseRecOn with
  | nil => exact .inr ⟨rfl, fun i value h ↦ absurd h.lt (Nat.not_lt_zero i)⟩
  | append_singleton ls line ih =>
      rw [statements_concat, Overwrite.last_append]
      by_cases hline : ∃ value, IsAssignment line key value ∧ Under ls name
      · obtain ⟨value, hvalue⟩ := hline
        refine .inl ⟨ls.length, value, ?_, assignedAt_concat.mpr (.inr ⟨rfl, hvalue⟩), ?_⟩
        · rw [statement_eq_some_iff.mpr hvalue]
          simp [Overwrite.last]
        · intro j value' hj h
          have hlt := h.lt
          rw [List.length_append, List.length_singleton] at hlt
          omega
      · have hnone : Overwrite.last (name, key)
            (statement (openAfter none ls) line).toList = none := by
          rw [Overwrite.last_eq_none_iff]
          rintro ⟨k, value⟩ hmem rfl
          exact hline ⟨value, statement_eq_some_iff.mp (Option.mem_toList.mp hmem)⟩
        have hassigned : ∀ i value, AssignedAt (ls ++ [line]) i name key value ↔
            AssignedAt ls i name key value := fun i value ↦ by
          rw [assignedAt_concat]
          exact or_iff_left fun h ↦ hline ⟨value, h.2⟩
        simp only [hnone, Option.none_or, hassigned]
        exact ih

/-! ## `Load` performs the statements -/

/-- The state of the loop of `Load`, with `sec` the open section, stands for the table `t`. -/
structure Represents (sec : Option Bytes) (t : Bytes × Bytes → Option Bytes)
    (x : ConfigFile × Option MapPtr) : Prop where
  /-- The maps of the sections have been made. -/
  fresh : ∀ name p, x.1.map name = some p → p < x.1.next
  /-- Two sections have two maps. -/
  inj : ∀ name name' p, x.1.map name = some p → x.1.map name' = some p → name = name'
  /-- Without an open section `m` is null. -/
  closed : sec = none → x.2 = none
  /-- Otherwise it is the map of the open section. -/
  opened : ∀ name, sec = some name → ∃ p, x.1.map name = some p ∧ x.2 = some p
  /-- The maps hold what the table does. -/
  view : ∀ name key, ((x.1.map name).bind fun p ↦ x.1.heap p key) = t (name, key)

/-- A new `config_file` holds nothing. -/
theorem represents_new : Represents none (fun _ ↦ none) (new, none) where
  fresh _ _ h := by cases h
  inj _ _ _ h := by cases h
  closed _ := rfl
  opened _ h := by cases h
  view _ _ := rfl

section

variable {sec : Option Bytes} {t : Bytes × Bytes → Option Bytes} {x : ConfigFile × Option MapPtr}

/-- A header opens its section and stores nothing. -/
theorem Represents.openSection (h : Represents sec t x) (name : Bytes) :
    Represents (some name) t ((x.1.openSection name).1, some (x.1.openSection name).2) := by
  unfold ConfigFile.openSection
  cases hmap : x.1.map name with
  | some p =>
      refine ⟨h.fresh, h.inj, fun e ↦ (by cases e), fun n e ↦ ?_, h.view⟩
      obtain rfl := Option.some.inj e
      exact ⟨p, hmap, rfl⟩
  | none =>
      have hold : ∀ n p, x.1.map n = some p → p ≠ x.1.next := fun n p hp ↦ (h.fresh n p hp).ne
      have hcases : ∀ n p, Function.update x.1.map name (some x.1.next) n = some p →
          (n = name ∧ p = x.1.next) ∨ (n ≠ name ∧ x.1.map n = some p) := by
        intro n p hp
        by_cases e : n = name
        · subst e
          rw [Function.update_self] at hp
          exact .inl ⟨rfl, (Option.some.inj hp).symm⟩
        · rw [Function.update_of_ne e] at hp
          exact .inr ⟨e, hp⟩
      refine ⟨fun n p hp ↦ ?_, fun n n' p hp hp' ↦ ?_, fun e ↦ (by cases e), fun n e ↦ ?_,
        fun n key ↦ ?_⟩
      · rcases hcases n p hp with ⟨-, rfl⟩ | ⟨-, hp⟩
        · exact Nat.lt_succ_self _
        · exact Nat.lt_succ_of_lt (h.fresh n p hp)
      · rcases hcases n p hp with ⟨e, ep⟩ | ⟨-, hn⟩ <;>
          rcases hcases n' p hp' with ⟨e', ep'⟩ | ⟨-, hn'⟩
        · rw [e, e']
        · exact absurd ep (hold n' p hn')
        · exact absurd ep' (hold n p hn)
        · exact h.inj n n' p hn hn'
      · obtain rfl := Option.some.inj e
        exact ⟨x.1.next, Function.update_self .., rfl⟩
      · rw [← h.view]
        by_cases e : n = name
        · subst e
          simp [hmap]
        · simp only [Function.update_of_ne e]
          cases hn : x.1.map n with
          | none => rfl
          | some p => simp [hold n p hn]

/-- An assignment in the open section is performed. -/
theorem Represents.store {name : Bytes} (h : Represents (some name) t x) {p : MapPtr}
    (hp : x.1.map name = some p) (key value : Bytes) :
    Represents (some name) (Overwrite.put t ((name, key), value))
      (x.1.store p key value, some p) where
  fresh := h.fresh
  inj := h.inj
  closed e := by cases e
  opened n e := by
    obtain rfl := Option.some.inj e
    exact ⟨p, hp, rfl⟩
  view n k := by
    have hview := h.view n k
    simp only [ConfigFile.store, Overwrite.put]
    by_cases e : n = name
    · subst e
      by_cases hk : k = key
      · subst hk
        simp [hp]
      · have hne : (n, k) ≠ (n, key) := fun h' ↦ hk (congrArg Prod.snd h')
        rw [Function.update_of_ne hne, ← hview]
        simp [hp, hk]
    · have hne : (n, k) ≠ (name, key) := fun h' ↦ e (congrArg Prod.fst h')
      rw [Function.update_of_ne hne, ← hview]
      cases hn : x.1.map n with
      | none => rfl
      | some q =>
          -- another section has another map
          have hq : q ≠ p := by
            rintro rfl
            exact e (h.inj n name q hn hp)
          simp [hq]

theorem Represents.loadLine (h : Represents sec t x) (line : Bytes) :
    (sec = none ∧ (entry line).isSome ∧ loadLine x line = .error .nullDeref) ∨
    (((entry line).isSome → sec ≠ none) ∧ ∃ x', loadLine x line = .ok x' ∧
      Represents (sectionAfter sec line) (Overwrite.writeAll t (statement sec line).toList)
        x') := by
  unfold ConfigFile.loadLine
  cases hline : isSection line with
  | some name =>
      have hentry : entry line = none := by simp [entry, hline]
      refine .inr ⟨by simp [hentry], _, rfl, ?_⟩
      simpa [sectionAfter, statement, hline, hentry, Overwrite.writeAll] using h.openSection name
  | none =>
      have hentry : entry line = assignment line := by simp [entry, hline]
      have hsec : sectionAfter sec line = sec := by simp [sectionAfter, hline]
      rw [hentry, hsec]
      cases hassign : assignment line with
      | none =>
          refine .inr ⟨by simp, x, rfl, ?_⟩
          simpa [statement, hentry, hassign, Overwrite.writeAll] using h
      | some e =>
          cases sec with
          | none =>
              refine .inl ⟨rfl, rfl, ?_⟩
              simp only [h.closed rfl]
          | some name =>
              obtain ⟨p, hp, hm⟩ := h.opened name rfl
              refine .inr ⟨by simp, (x.1.store p e.1 e.2, some p), ?_, ?_⟩
              · simp only [hm]
              · simpa [statement, hentry, hassign, Overwrite.writeAll] using h.store hp e.1 e.2

end

/-- The assignment lines come after a header. -/
def Sectioned (ls : List Bytes) : Prop :=
  ∀ i line key value, ls[i]? = some line → IsAssignment line key value →
    ∃ header ∈ ls.take i, ∃ name, IsHeader header name

/-- One more line is no assignment or comes after a header. -/
theorem sectioned_concat {ls : List Bytes} {line : Bytes} :
    Sectioned (ls ++ [line]) ↔
      Sectioned ls ∧ ((entry line).isSome → openAfter none ls ≠ none) := by
  rw [openAfter_ne_none_iff]
  constructor
  · intro h
    refine ⟨fun i l key value hl hassign ↦ ?_, fun hentry ↦ ?_⟩
    · have hi : i < ls.length := (List.getElem?_eq_some_iff.mp hl).1
      have hheader := h i l key value (by rw [List.getElem?_append_left hi, hl]) hassign
      rwa [List.take_append_of_le_length hi.le] at hheader
    · obtain ⟨e, he⟩ := Option.isSome_iff_exists.mp hentry
      simpa using h ls.length line e.1 e.2 (by simp) (entry_eq_some_iff.mp he)
  · rintro ⟨h, hline⟩ i l key value hl hassign
    rcases Nat.lt_or_ge i ls.length with hi | hi
    · rw [List.getElem?_append_left hi] at hl
      rw [List.take_append_of_le_length hi.le]
      exact h i l key value hl hassign
    · obtain ⟨hlen, -⟩ := List.getElem?_eq_some_iff.mp hl
      obtain rfl : i = ls.length := by
        rw [List.length_append, List.length_singleton] at hlen
        omega
      rw [List.getElem?_concat_length] at hl
      obtain rfl := Option.some.inj hl
      rw [List.take_left]
      exact hline (Option.isSome_iff_exists.mpr ⟨_, entry_eq_some_iff.mpr hassign⟩)

/-- The loop of `Load`: it performs the statements of the lines, or it comes to an
assignment before the first header. -/
theorem loadLines {t : Bytes × Bytes → Option Bytes} {cf : ConfigFile}
    (h : Represents none t (cf, none)) (ls : List Bytes) :
    (Sectioned ls ∧ ∃ x, ls.foldlM loadLine (cf, none) = .ok x ∧
      Represents (openAfter none ls) (Overwrite.writeAll t (statements none ls)) x) ∨
    (¬Sectioned ls ∧ ls.foldlM loadLine (cf, none) = .error .nullDeref) := by
  induction ls using List.reverseRecOn with
  | nil => exact .inl ⟨fun i line _ _ hline ↦ by simp at hline, _, rfl, h⟩
  | append_singleton ls line ih =>
      rw [sectioned_concat, List.foldlM_append]
      rcases ih with ⟨hsec, x, hx, hrep⟩ | ⟨hsec, hx⟩
      · rw [hx, statements_concat, Overwrite.writeAll_append]
        rcases hrep.loadLine line with ⟨hnone, hentry, herr⟩ | ⟨hopen, x', hx', hrep'⟩
        · refine .inr ⟨fun hs ↦ hs.2 hentry hnone, ?_⟩
          simp [herr]
        · refine .inl ⟨⟨hsec, hopen⟩, x', by simp [hx'], ?_⟩
          rwa [openAfter_concat]
      · exact .inr ⟨fun hs ↦ hsec hs.1, by rw [hx]; rfl⟩

/-- A file that is loaded has its assignments under headers. -/
theorem sectioned_of_load {content : Bytes} {r : Bool × ConfigFile}
    (h : new.load (some content) = .ok r) : Sectioned (lines content) := by
  rcases loadLines represents_new (lines content) with ⟨hsec, -⟩ | ⟨-, hx⟩
  · exact hsec
  · simp only [load, hx, Outcome.error_bind, reduceCtorEq] at h

/-- A file that has its assignments under headers is loaded, and the maps hold the last
statements. -/
theorem load_of_sectioned {content : Bytes} (h : Sectioned (lines content)) :
    ∃ cf, new.load (some content) = .ok (true, cf) ∧
      ∀ name key defaultValue, cf.getString name key defaultValue =
        (Overwrite.last (name, key) (statements none (lines content))).getD defaultValue := by
  rcases loadLines represents_new (lines content) with ⟨-, x, hx, hrep⟩ | ⟨hsec, -⟩
  · refine ⟨x.1, ?_, fun name key defaultValue ↦ ?_⟩
    · simp only [load, hx, Outcome.ok_bind]
      rfl
    · have hview := hrep.view name key
      rw [Overwrite.writeAll_apply, Option.or_none] at hview
      rw [← hview, getString]
      cases x.1.map name <;> rfl
  · exact absurd h hsec

/-! ## The main results -/

/-- **When `Load` dereferences no null map.**  It returns exactly when every assignment
line of the file comes after a header. -/
theorem load_returns_iff (content : Bytes) :
    (∃ r, new.load (some content) = .ok r) ↔ Sectioned (lines content) := by
  constructor
  · exact fun ⟨_, hr⟩ ↦ sectioned_of_load hr
  · intro h
    obtain ⟨cf, hcf, -⟩ := load_of_sectioned h
    exact ⟨_, hcf⟩

/-- A file whose only header is damaged by a byte order mark. -/
def markedFile : Bytes := [0xEF, 0xBB, 0xBF] ++ "[a]\nk=v".toList.map Char.toUInt8

/-- `Load` dereferences null on a file whose only header is damaged by a byte order mark. -/
theorem markedFile_not_loaded : ¬∀ content : Bytes, ∃ r, new.load (some content) = .ok r := by
  intro h
  have herr : (new.load (some markedFile)).map Prod.fst = .error .nullDeref := by decide +kernel
  obtain ⟨r, hr⟩ := h markedFile
  rw [hr] at herr
  cases herr

/-- **What `GetString` gives after `Load`.**  Of a file whose assignment lines come after a
header, it gives the value of the last line that assigns the key under a header of the
section, and the default when there is no such line. -/
theorem getString_load {content : Bytes} (hs : Sectioned (lines content)) :
    ∃ cf, new.load (some content) = .ok (true, cf) ∧
      ∀ name key defaultValue,
        (∃ i value, AssignedAt (lines content) i name key value ∧
          (∀ j value', i < j → ¬AssignedAt (lines content) j name key value') ∧
          cf.getString name key defaultValue = value) ∨
        ((∀ i value, ¬AssignedAt (lines content) i name key value) ∧
          cf.getString name key defaultValue = defaultValue) := by
  obtain ⟨cf, hcf, hget⟩ := load_of_sectioned hs
  refine ⟨cf, hcf, fun name key defaultValue ↦ ?_⟩
  rcases last_statements (lines content) name key with
    ⟨i, value, hlast, hassign, hlater⟩ | ⟨hlast, hnone⟩
  · exact .inl ⟨i, value, hassign, hlater, by rw [hget, hlast]; rfl⟩
  · exact .inr ⟨hnone, by rw [hget, hlast]; rfl⟩

/-- A file that opens the section `x` twice. -/
def reopenedFile : Bytes := "[x]\na=1\n[ y ]\na=2\n[x]\n a = 7 \n;a=3".toList.map Char.toUInt8

/-- The later value of `a` is found in `x`. -/
theorem getString_load_reopened :
    ∃ cf i, new.load (some reopenedFile) = .ok (true, cf) ∧
      AssignedAt (lines reopenedFile) i [120] [97] [55] ∧ cf.getString [120] [97] [] = [55] := by
  have hload : (new.load (some reopenedFile)).map (·.2.getString [120] [97] []) = .ok [55] := by
    decide +kernel
  obtain ⟨r, hr, hvalue⟩ := Outcome.map_eq_ok.mp hload
  obtain ⟨cf, hcf, hget⟩ := getString_load (sectioned_of_load hr)
  obtain rfl := Except.ok.inj (hr.symm.trans hcf)
  rcases hget [120] [97] [] with ⟨i, value, hassign, -, hv⟩ | ⟨-, hv⟩
  · obtain rfl := hv.symm.trans hvalue
    exact ⟨cf, i, hcf, hassign, hvalue⟩
  · exact absurd (hv.symm.trans hvalue) (by decide)

end Ylars.Reactor.ConfigFile
