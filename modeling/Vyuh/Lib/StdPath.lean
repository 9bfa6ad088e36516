import Mathlib

/-! Paths of `std::path` on Unix. Two paths are equal when their components are, so that a path is the
    list of its components: repeated slashes, slashes at the end and `.` inside a path leave none. -/

namespace Lib.StdPath

inductive Component
  | rootDir
  | curDir
  | parentDir
  | normal (name : List Char)
  deriving DecidableEq, Repr

abbrev PathBuf := List Component

/-- The component of a segment that is not the first. -/
def component (segment : List Char) : Option Component :=
  if segment = [] ∨ segment = ['.'] then none
  else if segment = ['.', '.'] then some .parentDir
  else some (.normal segment)

/-- `Path::new`: a `.` counts only at the start. -/
def parse (text : List Char) : PathBuf :=
  match text.splitOn '/' with
  | [] => []
  | first :: rest =>
    (if first = [] ∧ rest ≠ [] then [.rootDir]
      else if first = ['.'] then [.curDir]
      else (component first).toList) ++ rest.filterMap component

def Component.text : Component → List Char
  | .rootDir => []
  | .curDir => ['.']
  | .parentDir => ['.', '.']
  | .normal name => name

/-- The text of a path that was put together from its components. -/
def text (path : PathBuf) : List Char :=
  if path = [.rootDir] then ['/'] else ['/'].intercalate (path.map Component.text)

/-- `Path::file_name`. -/
def fileName (path : PathBuf) : Option (List Char) :=
  match path.getLast? with
  | some (.normal name) => some name
  | _ => none

/-- A name up to its last dot, and what comes after it; a dot in front is part of the name. -/
def splitName (name : List Char) : List Char × Option (List Char) :=
  match name.reverse.dropWhile (· ≠ '.') with
  | [] | [_] => (name, none)
  | _ :: stem => (stem.reverse, some (name.reverse.takeWhile (· ≠ '.')).reverse)

/-- `Path::extension`. -/
def extension (path : PathBuf) : Option (List Char) := (fileName path).bind fun name => (splitName name).2

/-- `PathBuf::set_extension`; a path without a name stays as it is. -/
def setExtension (path : PathBuf) (ext : List Char) : PathBuf :=
  match fileName path with
  | none => path
  | some name => path.dropLast ++ [.normal ((splitName name).1 ++ '.' :: ext)]

/-- `Path::join`. -/
def join (base path : PathBuf) : PathBuf :=
  match path with
  | .rootDir :: _ => path
  | .curDir :: rest => if base = [] then path else base ++ rest
  | _ => base ++ path

/-- The path lies in the directory, or is it. -/
def startsWith (path base : PathBuf) : Prop := base <+: path

/-! ### Relative paths -/

/-- A `.` or nothing. -/
def Dot (path : PathBuf) : Prop := path = [] ∨ path = [.curDir]

theorem component_named {segment : List Char} (hne : segment ≠ []) (hdot : segment ≠ ['.'])
    (hdots : segment ≠ ['.', '.']) : component segment = some (.normal segment) := by
  rw [component, if_neg (not_or.mpr ⟨hne, hdot⟩), if_neg hdots]

/-- A text without a slash in front has its segments' components, behind a `.` at most. -/
theorem parse_relative {text : List Char} (h : text.head? ≠ some '/') :
    ∃ dot, Dot dot ∧ parse text = dot ++ (text.splitOn '/').filterMap component := by
  obtain ⟨first, rest, hsplit⟩ := List.exists_cons_of_ne_nil (List.splitOn_ne_nil '/' text)
  have hroot : ¬(first = [] ∧ rest ≠ []) := by
    rintro ⟨rfl, hrest⟩
    obtain ⟨next, later, rfl⟩ := List.exists_cons_of_ne_nil hrest
    have htext : ['/'].intercalate ([] :: next :: later) = text := by rw [← hsplit, List.intercalate_splitOn]
    refine h ?_
    rw [← htext, List.intercalate_cons_cons]
    rfl
  rw [parse, hsplit]
  dsimp only
  rw [if_neg hroot, List.filterMap_cons]
  split
  next hdot =>
    refine ⟨[.curDir], .inr rfl, ?_⟩
    rw [hdot]
    rfl
  next =>
    refine ⟨[], .inl rfl, ?_⟩
    cases component first with
    | none => rfl
    | some named => rfl

theorem splitName_of_none {name : List Char} (h : (splitName name).2 = none) : (splitName name).1 = name := by
  rw [splitName] at h ⊢
  split at h
  next => rfl
  next => rfl
  next => exact nomatch h

theorem fileName_concat (path : PathBuf) (name : List Char) : fileName (path ++ [.normal name]) = some name := by
  rw [fileName, List.getLast?_concat]

/-- A name without an extension is given one. -/
theorem setExtension_concat {path : PathBuf} {name : List Char}
    (h : extension (path ++ [.normal name]) = none) (ext : List Char) :
    setExtension (path ++ [.normal name]) ext = path ++ [.normal (name ++ '.' :: ext)] := by
  rw [extension, fileName_concat, Option.bind_some] at h
  rw [setExtension, fileName_concat]
  dsimp only
  rw [splitName_of_none h, List.dropLast_concat]

/-- A path that begins with a name goes on where the other ends. -/
theorem join_names (base : PathBuf) (names : List (List Char)) :
    join base (names.map .normal) = base ++ names.map .normal := by
  cases names with
  | nil => rfl
  | cons name names => rfl

end Lib.StdPath
