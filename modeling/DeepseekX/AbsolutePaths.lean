import Mathlib.Data.List.Basic

/-!
# Absolute, lexically normalised paths

A Unix path is the sequence its `components()` iterator yields, which is also the
notion of equality of `PathBuf`. Resolution against a base expands a leading `~`,
prepends the base to a relative path and folds `.` and `..` away without touching
the file system, so the result is absolute and normalised by construction.
-/

namespace DeepseekX.AbsolutePaths

inductive Component where
  | curDir
  | parentDir
  | normal (name : String)
  deriving DecidableEq, Repr

/-- A path as it stands in a patch: possibly relative, possibly with dots. -/
structure PathBuf where
  isAbsolute : Bool
  components : List Component
  deriving DecidableEq, Repr

/-- An absolute path without `.` and `..`: the names below the root. -/
structure AbsolutePathBuf where
  names : List String
  deriving DecidableEq, Repr

namespace PathBuf

def relative (names : List String) : PathBuf := ⟨false, names.map .normal⟩

def append (path : PathBuf) (rest : List Component) : PathBuf :=
  ⟨path.isAbsolute, path.components ++ rest⟩

end PathBuf

/-- `~` and `~/rest` are taken from the home directory, when there is one. -/
def maybeExpandHomeDirectory (home : Option PathBuf) (path : PathBuf) : PathBuf :=
  match home, path.isAbsolute, path.components with
  | some home, false, .normal "~" :: rest => home.append rest
  | _, _, _ => path

/-- One iteration of `normalize_path`: popping the root leaves the root. -/
def pushComponent (normalized : List String) : Component → List String
  | .curDir => normalized
  | .parentDir => normalized.dropLast
  | .normal name => normalized ++ [name]

def normalizePath (components : List Component) : List String :=
  components.foldl pushComponent []

namespace AbsolutePathBuf

variable (path : AbsolutePathBuf)

def intoComponents : List Component := path.names.map .normal

def absolutizeFrom (path : PathBuf) (base : AbsolutePathBuf) : AbsolutePathBuf :=
  ⟨normalizePath
    (if path.isAbsolute then path.components else base.intoComponents ++ path.components)⟩

def resolvePathAgainstBase (home : Option PathBuf) (path : PathBuf)
    (base : AbsolutePathBuf) : AbsolutePathBuf :=
  absolutizeFrom (maybeExpandHomeDirectory home path) base

def join (home : Option PathBuf) (base : AbsolutePathBuf) (path : PathBuf) : AbsolutePathBuf :=
  resolvePathAgainstBase home path base

/-- The root has no parent. -/
def parent : Option AbsolutePathBuf :=
  if path.names = [] then none else some ⟨path.names.dropLast⟩

def display : String := "/" ++ "/".intercalate path.names

end AbsolutePathBuf

private theorem foldl_pushComponent_normal (names acc : List String) :
    (names.map Component.normal).foldl pushComponent acc = acc ++ names := by
  induction names generalizing acc with
  | nil => simp
  | cons name names ih => simp [pushComponent, ih]

/-- Resolution against the root returns an absolute path that has no dots. -/
theorem absolutizeFrom_intoComponents (path base : AbsolutePathBuf) :
    AbsolutePathBuf.absolutizeFrom ⟨true, path.intoComponents⟩ base = path := by
  simp [AbsolutePathBuf.absolutizeFrom, AbsolutePathBuf.intoComponents, normalizePath,
    foldl_pushComponent_normal]

example : AbsolutePathBuf.resolvePathAgainstBase none
    ⟨false, [.parentDir, .normal "path"]⟩ ⟨["base", "cwd"]⟩ = ⟨["base", "path"]⟩ := by
  decide

end DeepseekX.AbsolutePaths
