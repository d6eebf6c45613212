import Ylars.Lib.Printf

/-!
# Reading a statement

`lexemes` cuts a text into words and signs.  It does so for anything that is made of parts of
words, signs and spaces, a format with conversions as well as a text: to cut the text of a
format is to cut the format and to print the pieces (`lex_sprintf`).

`Insert.parse` reads an `INSERT INTO` of one row of numbers with `ON DUPLICATE KEY UPDATE`.  The
columns get their values by position, as the statement lists them, and the updates by name.
-/

namespace Ylars.Lib.Sql

open Printf

/-! ## Words and signs -/

section Lexemes

variable {α β : Type*} {part space : α → Bool} {part' space' : β → Bool} {print : α → List β}

/-- The word that has been begun, put before what follows it. -/
def flush (p : List α × List (List α)) : List (List α) :=
  if p.1.isEmpty then p.2 else p.1 :: p.2

/-- One more item, before a word that has been begun and what follows it. -/
def lexStep (part space : α → Bool) (a : α) (p : List α × List (List α)) :
    List α × List (List α) :=
  if part a then (a :: p.1, p.2) else ([], if space a then flush p else [a] :: flush p)

/-- The words, which are the longest runs of parts, and the signs, which are the other items
except for the spaces. -/
def lexemes (part space : α → Bool) (l : List α) : List (List α) :=
  flush (l.foldr (lexStep part space) ([], []))

theorem foldr_lexStep_parts {w : List α} (h : ∀ a ∈ w, part a = true)
    (p : List α × List (List α)) : w.foldr (lexStep part space) p = (w ++ p.1, p.2) := by
  induction w with
  | nil => rfl
  | cons a w ih =>
      obtain ⟨ha, hw⟩ := List.forall_mem_cons.mp h
      rw [List.foldr_cons, ih hw, lexStep, if_pos ha]
      rfl

/-- Printing every item keeps the words and the signs apart when it turns parts into parts, and
another item into one of its kind. -/
structure Prints (part space : α → Bool) (part' space' : β → Bool) (print : α → List β) :
    Prop where
  ne_nil : ∀ a, print a ≠ []
  parts : ∀ a, part a = true → ∀ b ∈ print a, part' b = true
  other : ∀ a, part a = false → ∃ b, print a = [b] ∧ part' b = false ∧ space' b = space a

/-- The pieces printed. -/
def printed (print : α → List β) (p : List α × List (List α)) : List β × List (List β) :=
  (p.1.flatMap print, p.2.map (List.flatMap print))

theorem Prints.flush (h : Prints part space part' space' print) (p : List α × List (List α)) :
    flush (printed print p) = (flush p).map (List.flatMap print) := by
  obtain ⟨w, ws⟩ := p
  cases w with
  | nil => rfl
  | cons a w =>
      have hne : ((a :: w).flatMap print).isEmpty = false := by
        rw [List.isEmpty_eq_false_iff, List.flatMap_cons]
        exact List.append_ne_nil_of_left_ne_nil (h.ne_nil a) _
      simp only [printed, Sql.flush, hne]
      rfl

theorem Prints.lexStep (h : Prints part space part' space' print) (a : α)
    (p : List α × List (List α)) :
    (print a).foldr (Sql.lexStep part' space') (printed print p) =
      printed print (Sql.lexStep part space a p) := by
  cases ha : part a with
  | true =>
      rw [foldr_lexStep_parts (h.parts a ha), Sql.lexStep, if_pos ha]
      rfl
  | false =>
      obtain ⟨b, hb, hpart, hspace⟩ := h.other a ha
      rw [hb, List.foldr_cons, List.foldr_nil, Sql.lexStep, Sql.lexStep, hpart, hspace, ha,
        h.flush]
      cases space a with
      | true => rfl
      | false =>
          simp only [printed, Bool.false_eq_true, if_false, List.map_cons, List.flatMap_cons,
            List.flatMap_nil, List.append_nil, hb]

/-- To cut what is printed is to cut, and to print the pieces. -/
theorem Prints.lexemes (h : Prints part space part' space' print) (l : List α) :
    lexemes part' space' (l.flatMap print) =
      (lexemes part space l).map (List.flatMap print) := by
  have hfold : (l.flatMap print).foldr (Sql.lexStep part' space') ([], []) =
      printed print (l.foldr (Sql.lexStep part space) ([], [])) := by
    induction l with
    | nil => rfl
    | cons a l ih => rw [List.flatMap_cons, List.foldr_append, ih, h.lexStep, List.foldr_cons]
  rw [Sql.lexemes, hfold, h.flush, Sql.lexemes]

end Lexemes

/-- A character of a name or of a number. -/
def isPart (c : Char) : Bool := c.isAlphanum || c == '_' || c == '-'

/-- The words and signs of a text. -/
def lex (sql : List Char) : List (List Char) := lexemes isPart Text.isSpace sql

/-- What a conversion prints belongs to a word. -/
def isPartDirective : Directive → Bool
  | .char c => isPart c
  | .unsigned _ => true
  | .signed _ => true

/-- A conversion prints no space. -/
def isSpaceDirective : Directive → Bool
  | .char c => Text.isSpace c
  | .unsigned _ => false
  | .signed _ => false

/-- The words and signs of a format. -/
def lexFormat (fmt : List Directive) : List (List Directive) :=
  lexemes isPartDirective isSpaceDirective fmt

theorem isPart_decimal {x : Int} : ∀ c ∈ decimal x, isPart c = true := by
  intro c hc
  rcases mem_decimal hc with rfl | hdigit
  · rfl
  · simp [isPart, Char.isAlphanum, hdigit]

/-- The words and signs of a text are those of its format, printed. -/
theorem lex_sprintf (fmt : List Directive) (args : List UInt32) :
    lex (sprintf fmt args) = (lexFormat fmt).map (sprintf · args) := by
  refine Prints.lexemes ⟨Directive.text_ne_nil args, fun d hd ↦ ?_, fun d hd ↦ ?_⟩ fmt
  · cases d with
    | char c => exact List.forall_mem_singleton.mpr hd
    | unsigned | signed => exact isPart_decimal
  · cases d with
    | char c => exact ⟨c, rfl, hd, rfl⟩
    | unsigned | signed => cases hd

/-! ## Numbers -/

/-- The number that some digits make. -/
def readDigits (s : List Char) : Option ℕ :=
  if s ≠ [] ∧ s.all Char.isDigit = true then some (Nat.ofDigitChars 10 s 0) else none

/-- The number that a word is. -/
def readNumber : List Char → Option Int
  | '-' :: s => (readDigits s).map fun n : ℕ ↦ -(n : Int)
  | s => (readDigits s).map fun n : ℕ ↦ (n : Int)

theorem readDigits_toDigits (n : ℕ) : readDigits (Nat.toDigits 10 n) = some n := by
  have hdigit : (Nat.toDigits 10 n).all Char.isDigit = true := List.all_eq_true.mpr fun c hc ↦
    Nat.isDigit_of_mem_toDigits (by decide) (by decide) hc
  rw [readDigits, if_pos ⟨Nat.toDigits_ne_nil, hdigit⟩, Nat.ofDigitChars_ten_toDigits]

/-- The text of a number is read. -/
theorem readNumber_decimal (x : Int) : readNumber (decimal x) = some x := by
  rw [decimal]
  split
  · rename_i hneg
    rw [readNumber, readDigits_toDigits, Option.map_some]
    congr 1
    omega
  · rename_i hpos
    have hsign : ∀ s, Nat.toDigits 10 x.natAbs ≠ '-' :: s := by
      intro s he
      have hc : Char.isDigit '-' = true :=
        Nat.isDigit_of_mem_toDigits (by decide) (by decide) (he ▸ List.mem_cons_self)
      cases hc
    rw [readNumber, readDigits_toDigits, Option.map_some]
    · congr 1
      omega
    · exact hsign

/-! ## Statements -/

/-- An `INSERT INTO` of one row with `ON DUPLICATE KEY UPDATE`. -/
structure Insert where
  table : List Char
  /-- The columns that are inserted, with their values. -/
  values : List (List Char × Int)
  /-- The columns that are updated where there is a row already, with their values. -/
  updates : List (List Char × Int)
deriving DecidableEq, Repr

/-- What follows some words and signs. -/
def dropWords : List String → List (List Char) → Option (List (List Char))
  | [], ts => some ts
  | _ :: _, [] => none
  | k :: ks, t :: ts => if t = k.toList then dropWords ks ts else none

/-- A list up to the closing bracket, and what follows it. -/
def readList {β : Type} (read : List Char → Option β) :
    List (List Char) → Option (List β × List (List Char))
  | t :: [','] :: ts => do
      let x ← read t
      let (xs, ts) ← readList read ts
      return (x :: xs, ts)
  | t :: [')'] :: ts => do
      let x ← read t
      return ([x], ts)
  | _ => none

/-- Some assignments up to the end. -/
def readAssignments : List (List Char) → Option (List (List Char × Int))
  | column :: ['='] :: t :: [','] :: ts => do
      let x ← readNumber t
      let rest ← readAssignments ts
      return (column, x) :: rest
  | [column, ['='], t] => do
      let x ← readNumber t
      return [(column, x)]
  | _ => none

/-- The statement that some words and signs make. -/
def Insert.parse (ts : List (List Char)) : Option Insert := do
  let ts ← dropWords ["INSERT", "INTO"] ts
  match ts with
  | table :: ['('] :: ts =>
      let (columns, ts) ← readList some ts
      let ts ← dropWords ["VALUES", "("] ts
      let (xs, ts) ← readList readNumber ts
      let ts ← dropWords ["ON", "DUPLICATE", "KEY", "UPDATE"] ts
      let updates ← readAssignments ts
      if columns.length = xs.length then return ⟨table, columns.zip xs, updates⟩ else none
  | _ => none

/-- The words and signs of a list, before some others. -/
def listed : List (List Char) → List (List Char) → List (List Char)
  | [], rest => rest
  | [t], rest => t :: [')'] :: rest
  | t :: t' :: ts, rest => t :: [','] :: listed (t' :: ts) rest

/-- The words and signs of some assignments. -/
def assigned : List (List Char × Int) → List (List Char)
  | [] => []
  | [(column, x)] => [column, ['='], decimal x]
  | (column, x) :: p :: ps => column :: ['='] :: decimal x :: [','] :: assigned (p :: ps)

/-- The words and signs of a statement. -/
def Insert.words (stmt : Insert) : List (List Char) :=
  ["INSERT", "INTO"].map String.toList ++ stmt.table :: ['('] ::
    listed (stmt.values.map Prod.fst) (["VALUES", "("].map String.toList ++
      listed (stmt.values.map fun p ↦ decimal p.2)
        (["ON", "DUPLICATE", "KEY", "UPDATE"].map String.toList ++ assigned stmt.updates))

theorem dropWords_append (ks : List String) (ts : List (List Char)) :
    dropWords ks (ks.map String.toList ++ ts) = some ts := by
  induction ks with
  | nil => rfl
  | cons k ks ih => exact (if_pos rfl).trans ih

/-- A list is read up to its end. -/
theorem readList_listed {β : Type} {read : List Char → Option β} (text : β → List Char)
    (h : ∀ x, read (text x) = some x) {l : List β} (hne : l ≠ []) (rest : List (List Char)) :
    readList read (listed (l.map text) rest) = some (l, rest) := by
  induction l with
  | nil => exact absurd rfl hne
  | cons x l ih =>
      cases l with
      | nil => simp [listed, readList, h]
      | cons y l =>
          have hrest := ih (List.cons_ne_nil y l)
          rw [List.map_cons] at hrest
          simp [listed, readList, h, hrest]

/-- The assignments are read. -/
theorem readAssignments_assigned {l : List (List Char × Int)} (hne : l ≠ []) :
    readAssignments (assigned l) = some l := by
  induction l with
  | nil => exact absurd rfl hne
  | cons p l ih =>
      cases l with
      | nil => simp [assigned, readAssignments, readNumber_decimal]
      | cons q l => simp [assigned, readAssignments, readNumber_decimal, ih]

/-- **A statement is read from its words and signs.** -/
theorem Insert.parse_words {stmt : Insert} (hvalues : stmt.values ≠ [])
    (hupdates : stmt.updates ≠ []) : Insert.parse stmt.words = some stmt := by
  have hcolumns : ∀ rest, readList some (listed (stmt.values.map Prod.fst) rest) =
      some (stmt.values.map Prod.fst, rest) := by
    intro rest
    have hne : stmt.values.map Prod.fst ≠ [] := mt List.map_eq_nil_iff.mp hvalues
    have hlist := readList_listed id (fun _ ↦ rfl) hne rest
    rwa [List.map_id] at hlist
  have hnumbers : ∀ rest, readList readNumber (listed (stmt.values.map fun p ↦ decimal p.2) rest) =
      some (stmt.values.map Prod.snd, rest) := by
    intro rest
    have hne : stmt.values.map Prod.snd ≠ [] := mt List.map_eq_nil_iff.mp hvalues
    have hlist := readList_listed decimal readNumber_decimal hne rest
    rwa [List.map_map] at hlist
  have hlen : (stmt.values.map Prod.fst).length = (stmt.values.map Prod.snd).length := by
    rw [List.length_map, List.length_map]
  have hzip : (stmt.values.map Prod.fst).zip (stmt.values.map Prod.snd) = stmt.values := by
    rw [← List.unzip_fst, ← List.unzip_snd, List.zip_unzip]
  simp only [parse, words, dropWords_append, Option.bind_eq_bind, Option.bind_some, hcolumns,
    hnumbers, readAssignments_assigned hupdates, if_pos hlen, hzip]
  rfl

end Ylars.Lib.Sql
