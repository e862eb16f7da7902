import Mathlib.Data.List.Sort
import Mathlib.Data.String.Basic
import Rro.Program.Toon

/-!
# Connector drivers

A driver hands over documents batch by batch under a text cursor. The filesystem driver lists
a directory in the order of path components and skips what its cursor, compared as a string,
has passed; the feed driver counts lines.

SOURCE: crates/connectors/src/lib.rs:30-60, fs.rs, jsonl.rs.
-/

set_option autoImplicit false

namespace Rro.Program.Connectors

open Rro.Library

/-- `Batch`. -/
structure Batch where
  docs : List Document
  nextCursor : Option String

/-! ## Directories -/

/-- What a file is read as: its text, unless it is unreadable or not UTF-8, its modification
    time in milliseconds and its length. -/
structure File where
  text : Option String
  modified : UInt64
  bytes : UInt64

/-- A directory as `read_dir` yields it, entry by entry. -/
inductive Dir where
  | done
  | file (name : String) (f : File) (rest : Dir)
  | dir (name : String) (sub rest : Dir)

/-- The names of the entries. -/
def Dir.names : Dir → List String
  | .done => []
  | .file name _ rest => name :: rest.names
  | .dir name _ rest => name :: rest.names

/-- What a file system gives as a name. -/
def CleanName (name : String) : Prop := name ≠ "" ∧ '/' ∉ name.toList

/-- The entries of every directory have clean names, each its own. -/
def Dir.Named : Dir → Prop
  | .done => True
  | .file name _ rest => CleanName name ∧ name ∉ rest.names ∧ rest.Named
  | .dir name sub rest => CleanName name ∧ name ∉ rest.names ∧ sub.Named ∧ rest.Named

/-- A directory tree. -/
structure Tree where
  entries : Dir
  named : entries.Named

/-- `PathBuf` below the root: the names of its components, in whose order paths compare. -/
abbrev FsPath := List String

/-- `PathBuf::push` of a single name. -/
def push (base name : String) : String :=
  match base.toList.getLast? with
  | none => name
  | some c => if c = '/' then base ++ name else base ++ "/" ++ name

/-- `FsDriver`. -/
structure FsDriver where
  root : String
  batchSize : ℕ

/-- `FsDriver::new`. -/
def FsDriver.new (root : String) (batchSize : ℕ) : FsDriver := ⟨root, max batchSize 1⟩

/-- `to_string_lossy` of a path. -/
def FsDriver.key (d : FsDriver) (path : FsPath) : String := path.foldl push d.root

/-- The entries of a directory: directories go to the stack, files to the listing. -/
def readDir (path : FsPath) : Dir → List (FsPath × Dir) × List (FsPath × File) →
    List (FsPath × Dir) × List (FsPath × File)
  | .done, s => s
  | .file name f rest, (stack, files) => readDir path rest (stack, files ++ [(path ++ [name], f)])
  | .dir name sub rest, (stack, files) => readDir path rest ((path ++ [name], sub) :: stack, files)

/-- The walk over the stack of directories, for at most so many directories. -/
def walk : ℕ → List (FsPath × Dir) × List (FsPath × File) → List (FsPath × File)
  | 0, (_, files) => files
  | _ + 1, ([], files) => files
  | fuel + 1, ((path, d) :: stack, files) => walk fuel (readDir path d (stack, files))

/-- The number of directories in a tree. -/
def Dir.count : Dir → ℕ
  | .done => 1
  | .file _ _ rest => rest.count
  | .dir _ sub rest => sub.count + rest.count

/-- `FsDriver::listing`. -/
def listing (tree : Tree) : List (FsPath × File) :=
  (walk tree.entries.count ([([], tree.entries)], [])).insertionSort fun a b => a.1 ≤ b.1

/-- The document of a file. -/
def FsDriver.document (d : FsDriver) (path : FsPath) (f : File) (text : String) : Document where
  id := "fs:" ++ d.key path
  text := text
  metadata := (((∅ : Metadata).insert "title" (.string (path.getLast?.getD (d.key path)))).insert
    "source_path" (.string (d.key path))).insert "modified_at" (.number (.posInt f.modified))
    |>.insert "size_bytes" (.number (.posInt f.bytes))

/-- The loop of `FsDriver::pull`. -/
def FsDriver.pullLoop (d : FsDriver) (cursor : Option String) :
    List (FsPath × File) → List Document → Batch
  | [], docs => ⟨docs, none⟩
  | (path, f) :: files, docs =>
    if cursor.any fun cur => d.key path ≤ cur then d.pullLoop cursor files docs
    else
      match f.text with
      | none => d.pullLoop cursor files docs
      | some text =>
        let docs := docs ++ [d.document path f text]
        if d.batchSize ≤ docs.length then ⟨docs, some (d.key path)⟩
        else d.pullLoop cursor files docs

/-- `FsDriver::pull` over a fixed tree. -/
def FsDriver.pull (d : FsDriver) (tree : Tree) (cursor : Option String) : Except RroError Batch :=
  .ok (d.pullLoop cursor (listing tree) [])

/-! ## Feeds -/

/-- `serde_json::from_str`. -/
class SerdeRead where
  fromStr : String → Except RroError Value

/-- `JsonlDriver`, with the content of its file. -/
structure JsonlDriver where
  content : String
  batchSize : ℕ

/-- `JsonlDriver::new`. -/
def JsonlDriver.new (content : String) (batchSize : ℕ) : JsonlDriver := ⟨content, max batchSize 1⟩

/-- `str::lines`: the last line counts when it is not empty, and keeps its carriage return. -/
def linesLoop : List Char → List Char → List String
  | [], line => if line.isEmpty then [] else [String.ofList line]
  | c :: rest, line =>
    if c = '\n' then
      String.ofList (if line.getLast? = some '\r' then line.dropLast else line) ::
        linesLoop rest []
    else linesLoop rest (line ++ [c])

/-- The lines of a text. -/
def lines (content : String) : List String := linesLoop content.toList []

/-- The digits after an optional plus sign. -/
def afterSign : List Char → List Char
  | [] => []
  | c :: rest => if c = '+' then rest else c :: rest

/-- `str::parse::<usize>`: an optional plus sign and decimal digits. -/
def parseUsize (s : String) : Option ℕ :=
  let digits := afterSign s.toList
  if digits.isEmpty || !digits.all Char.isDigit then none
  else
    let n := Nat.ofDigitChars 10 digits 0
    if n < 2 ^ 64 then some n else none

/-- `line.trim().is_empty()`. -/
def blank (line : String) : Bool := (Toon.trim line.toList).isEmpty

/-- `Map::remove`, as text. -/
def stringField (fields : List (String × Value)) (name : String) : Option String :=
  match fields.lookup name with
  | some (.string s) => some s
  | _ => none

/-- The document of an object at a line. -/
def jsonlDocument (lineNo : ℕ) (fields : List (String × Value)) : Document where
  id := "jsonl:" ++ (stringField fields "id").getD ("line" ++ toString lineNo)
  text := (stringField fields "text").getD ""
  metadata := (fields.filter fun f => f.1 ≠ "id" ∧ f.1 ≠ "text").foldl
    (fun m f => m.insert f.1 f.2) ∅

variable [SerdeRead]

/-- The loop of `JsonlDriver::pull`, past so many lines. -/
def JsonlDriver.pullLoop (d : JsonlDriver) (start : ℕ) :
    ℕ → List String → List Document → Except RroError Batch
  | _, [], docs => .ok ⟨docs, none⟩
  | lineNo, line :: rest, docs =>
    if lineNo + 1 ≤ start ∨ blank line = true then d.pullLoop start (lineNo + 1) rest docs
    else
      match SerdeRead.fromStr line with
      | .error err => .error err
      | .ok (.object fields) =>
        let docs := docs ++ [jsonlDocument (lineNo + 1) fields]
        if d.batchSize ≤ docs.length then .ok ⟨docs, some (toString (lineNo + 1))⟩
        else d.pullLoop start (lineNo + 1) rest docs
      | .ok _ => .error (.msg ("line " ++ toString (lineNo + 1) ++ ": not a JSON object"))

/-- `JsonlDriver::pull`. -/
def JsonlDriver.pull (d : JsonlDriver) (cursor : Option String) : Except RroError Batch :=
  d.pullLoop ((cursor.bind parseUsize).getD 0) 0 (lines d.content) []

end Rro.Program.Connectors
