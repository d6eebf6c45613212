import Mathlib.Logic.Function.Basic
import Ylars.Fault

/-!
# Configuration files: `config_file`

`Load` reads a file line by line.  A header line `[section]` makes the map of its section
the current one, `m`, and an assignment `key = value` is stored into the current map; `m`
is null until the first header.  The maps are allocated one for each section: `map` gives
their addresses, as `_map` does, and `heap` what is in them.

A file is the list of its bytes, and so are sections, keys and values.  `isspace` is that of
the C locale, where no byte above 127 is white space.
-/

namespace Ylars.Reactor

/-- A `std::string`. -/
abbrev Bytes := List UInt8

namespace ConfigFile

/-! ## Lines -/

/-- `isspace`. -/
def isSpace (c : UInt8) : Bool := c = 32 || (9 ≤ c && c ≤ 13)

/-- The loop of `trimLeft`: the number of leading white space characters. -/
def firstNotEmpty : Bytes → ℕ
  | [] => 0
  | c :: s => if isSpace c then firstNotEmpty s + 1 else 0

/-- `trimLeft`. -/
def trimLeft (s : Bytes) : Bytes := s.drop (firstNotEmpty s)

/-- The loop of `trimRight`: the length without trailing white space.  The characters are
given from the back. -/
def lastNotEmpty : ℕ → Bytes → ℕ
  | n, [] => n
  | n, c :: s => if isSpace c then lastNotEmpty (n - 1) s else n

/-- `trimRight`. -/
def trimRight (s : Bytes) : Bytes := s.take (lastNotEmpty s.length s.reverse)

/-- `trim`. -/
def trim (s : Bytes) : Bytes := trimLeft (trimRight s)

/-- `isSection`: the section that a header line opens. -/
def isSection (line : Bytes) : Option Bytes :=
  let name := trim line
  if name.isEmpty || name.length ≤ 2 then none
  else if name.head? ≠ some '['.toUInt8 || name.getLast? ≠ some ']'.toUInt8 then none
  else some (trim ((name.drop 1).take (name.length - 2)))

/-- The middle of the loop of `Load`: the key and the value of an assignment line, unless
the line is skipped. -/
def assignment (line : Bytes) : Option (Bytes × Bytes) :=
  match line.idxOf? '='.toUInt8 with
  | none => none
  | some equPos =>
      let key := trim (line.take equPos)
      let value := trim (line.drop (equPos + 1))
      if key.isEmpty then none
      else if key.head? = some '#'.toUInt8 || key.head? = some ';'.toUInt8 then none
      else some (key, value)

end ConfigFile

/-- The address of the map of a section. -/
abbrev MapPtr := ℕ

/-- A `config_file`. -/
structure ConfigFile where
  /-- `_map`. -/
  map : Bytes → Option MapPtr
  /-- The maps of the sections. -/
  heap : MapPtr → Bytes → Option Bytes
  /-- The first address that no map has. -/
  next : MapPtr

namespace ConfigFile

/-- The constructor. -/
def new : ConfigFile where
  map _ := none
  heap _ _ := none
  next := 0

/-- `GetString`. -/
def getString (cf : ConfigFile) (section' key defaultValue : Bytes) : Bytes :=
  match cf.map section' with
  | none => defaultValue
  | some p => (cf.heap p key).getD defaultValue

/-! ## `Load` -/

/-- A header line: the map of the section, which is made when there is none. -/
def openSection (cf : ConfigFile) (name : Bytes) : ConfigFile × MapPtr :=
  match cf.map name with
  | some p => (cf, p)
  | none =>
      ({ map := Function.update cf.map name (some cf.next)
         heap := Function.update cf.heap cf.next fun _ ↦ none
         next := cf.next + 1 }, cf.next)

/-- An assignment line: a key that is there is overwritten, another one is inserted. -/
def store (cf : ConfigFile) (p : MapPtr) (key value : Bytes) : ConfigFile :=
  { cf with heap := Function.update cf.heap p (Function.update (cf.heap p) key (some value)) }

/-- The body of the loop of `Load`.  The current map `m` is dereferenced where a line is
stored. -/
def loadLine (x : ConfigFile × Option MapPtr) (line : Bytes) :
    Outcome (ConfigFile × Option MapPtr) :=
  match isSection line with
  | some name => .ok ((x.1.openSection name).1, some (x.1.openSection name).2)
  | none =>
      match assignment line with
      | none => .ok x
      | some (key, value) =>
          match x.2 with
          | none => .error .nullDeref
          | some p => .ok (x.1.store p key value, some p)

/-- The lines that `getline` gives: what is between the newlines.  The last one is the rest
of the file, which is empty when the file ends with a newline. -/
def lines (content : Bytes) : List Bytes := content.splitOn '\n'.toUInt8

/-- `Load`, of a file with the given content, `none` when it cannot be opened. -/
def load (cf : ConfigFile) : Option Bytes → Outcome (Bool × ConfigFile)
  | none => .ok (false, cf)
  | some content => do
      let x ← (lines content).foldlM loadLine (cf, none)
      return (true, x.1)

end ConfigFile

end Ylars.Reactor
