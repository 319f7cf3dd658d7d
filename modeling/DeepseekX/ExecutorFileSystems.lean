import DeepseekX.AbsolutePaths
import DeepseekX.KeyedStoreChanges
import Mathlib.Data.List.AList

/-!
# The executor file system

`ExecutorFileSystem` is the interface through which patches reach a disk, local or
remote. Every operation may fail, and a failed write or removal may already have
changed its target. `Lawful` states what the interface promises about the texts
stored under paths; nothing is promised about when an operation succeeds.
`TextDisk` is an executable instance with an arbitrary schedule of failures.
-/

namespace DeepseekX.ExecutorFileSystems
open AbsolutePaths KeyedStoreChanges

/-- The kinds of `io::Error` that the modelled code tells apart or produces. -/
inductive ErrorKind where
  | notFound | permissionDenied | invalidInput | invalidData | isADirectory
  | storageFull | other
  deriving DecidableEq, Repr

structure IoError where
  kind : ErrorKind
  message : String
  deriving DecidableEq, Repr

structure FileMetadata where
  isDirectory : Bool
  isFile : Bool
  isSymlink : Bool
  deriving DecidableEq, Repr

structure RemoveOptions where
  recursive : Bool
  force : Bool
  deriving DecidableEq, Repr

structure CreateDirectoryOptions where
  recursive : Bool
  deriving DecidableEq, Repr

/-- A file system over states `σ`, with the sandbox context of its calls fixed. -/
structure ExecutorFileSystem (σ : Type) where
  readFileText : AbsolutePathBuf → σ → Except IoError String × σ
  writeFile : AbsolutePathBuf → String → σ → Except IoError Unit × σ
  createDirectory : AbsolutePathBuf → CreateDirectoryOptions → σ → Except IoError Unit × σ
  getMetadata : AbsolutePathBuf → σ → Except IoError FileMetadata × σ
  remove : AbsolutePathBuf → RemoveOptions → σ → Except IoError Unit × σ

abbrev Texts := Store AbsolutePathBuf String

/-- What the operations mean for the texts on disk. A read that succeeds returns the
text under its path and one that fails with `NotFound` means that there is none. A
write or removal that succeeds does what it says, and one that fails leaves all other
paths alone; a failed write may leave any text under its path, a failed removal the
text that was there or none. -/
structure Lawful {σ : Type} (fs : ExecutorFileSystem σ) (view : σ → Texts) : Prop where
  read_view : ∀ p s, view (fs.readFileText p s).2 = view s
  read_ok : ∀ p s text, (fs.readFileText p s).1 = .ok text → view s p = some text
  read_notFound : ∀ p s e, (fs.readFileText p s).1 = .error e → e.kind = .notFound → view s p = none
  metadata_view : ∀ p s, view (fs.getMetadata p s).2 = view s
  createDirectory_view : ∀ p o s, view (fs.createDirectory p o s).2 = view s
  write_ok : ∀ p text s, (fs.writeFile p text s).1 = .ok () →
    view (fs.writeFile p text s).2 = Function.update (view s) p (some text)
  write_frame : ∀ p text s q, q ≠ p → view (fs.writeFile p text s).2 q = view s q
  remove_ok : ∀ p o s, (fs.remove p o s).1 = .ok () →
    view (fs.remove p o s).2 = Function.update (view s) p none
  remove_frame : ∀ p o s q, q ≠ p → view (fs.remove p o s).2 q = view s q
  remove_self : ∀ p o s, view (fs.remove p o s).2 p = view s p ∨ view (fs.remove p o s).2 p = none

/-- A call that writes or removes a file, whether or not it succeeds. -/
inductive Mutation where
  | written (path : AbsolutePathBuf)
  | removed (path : AbsolutePathBuf)
  deriving DecidableEq, Repr

def Mutation.path : Mutation → AbsolutePathBuf
  | written p | removed p => p

/-- The same file system, keeping the mutating calls in a log. -/
def recording {σ : Type} (fs : ExecutorFileSystem σ) : ExecutorFileSystem (σ × List Mutation) where
  readFileText p s := ((fs.readFileText p s.1).1, (fs.readFileText p s.1).2, s.2)
  writeFile p text s :=
    ((fs.writeFile p text s.1).1, (fs.writeFile p text s.1).2, s.2 ++ [.written p])
  createDirectory p o s := ((fs.createDirectory p o s.1).1, (fs.createDirectory p o s.1).2, s.2)
  getMetadata p s := ((fs.getMetadata p s.1).1, (fs.getMetadata p s.1).2, s.2)
  remove p o s := ((fs.remove p o s.1).1, (fs.remove p o s.1).2, s.2 ++ [.removed p])

/-- The failures a disk may inject. None of them says that a path does not exist. -/
inductive FaultKind where
  | permissionDenied | storageFull | other
  deriving DecidableEq, Repr

def FaultKind.toErrorKind : FaultKind → ErrorKind
  | permissionDenied => .permissionDenied
  | storageFull => .storageFull
  | other => .other

/-- An injected failure. A failing write leaves `residue` at its path, a failing removal
may have `removed` its file. -/
structure Fault where
  kind : FaultKind
  residue : Option String
  removed : Bool
  deriving DecidableEq, Repr

def Fault.error (fault : Fault) : IoError := ⟨fault.kind.toErrorKind, "injected fault"⟩

/-- Text files, directories, and the failures of the coming calls. -/
structure TextDisk where
  files : AList (fun _ : AbsolutePathBuf => String)
  directories : List AbsolutePathBuf
  faults : List (Option Fault)

namespace TextDisk

def texts (d : TextDisk) : Texts := fun p => d.files.lookup p

def fault? (d : TextDisk) : Option Fault := d.faults.head?.join

def tick (d : TextDisk) : TextDisk := { d with faults := d.faults.tail }

def setText (d : TextDisk) (p : AbsolutePathBuf) : Option String → TextDisk
  | some text => { d with files := d.files.insert p text }
  | none => { d with files := d.files.erase p }

def ofTexts (texts : List (AbsolutePathBuf × String)) (faults : List (Option Fault)) :
    TextDisk where
  files := texts.foldr (fun text files => files.insert text.1 text.2) ∅
  directories := texts.flatMap fun text => text.1.names.dropLast.inits.map AbsolutePathBuf.mk
  faults := faults

def notFound : IoError := ⟨.notFound, "No such file or directory (os error 2)"⟩

def isADirectory : IoError := ⟨.isADirectory, "Is a directory (os error 21)"⟩

def read (p : AbsolutePathBuf) (d : TextDisk) : Except IoError String :=
  match d.files.lookup p with
  | some text => .ok text
  | none => if p ∈ d.directories then .error isADirectory else .error notFound

def metadata (p : AbsolutePathBuf) (d : TextDisk) : Except IoError FileMetadata :=
  if p ∈ d.directories then .ok ⟨true, false, false⟩
  else if (d.files.lookup p).isSome then .ok ⟨false, true, false⟩
  else .error notFound

/-- A file can be created where its directory exists. -/
def write (p : AbsolutePathBuf) (text : String) (d : TextDisk) : Except IoError Unit × TextDisk :=
  if p ∈ d.directories then (.error isADirectory, d)
  else match p.parent with
    | none => (.error isADirectory, d)
    | some parent =>
      if parent ∈ d.directories then (.ok (), d.setText p (some text)) else (.error notFound, d)

def removeText (p : AbsolutePathBuf) (d : TextDisk) : Except IoError Unit × TextDisk :=
  if (d.files.lookup p).isSome then (.ok (), d.setText p none)
  else if p ∈ d.directories then (.error isADirectory, d)
  else (.error notFound, d)

/-- `create_dir_all`, or `create_dir` for the last component only. -/
def makeDirectory (p : AbsolutePathBuf) (o : CreateDirectoryOptions) (d : TextDisk) : TextDisk :=
  let created := if o.recursive then p.names.inits.map AbsolutePathBuf.mk else [p]
  { d with directories := d.directories ++ created }

def fileSystem : ExecutorFileSystem TextDisk where
  readFileText p d := match d.fault? with
    | some fault => (.error fault.error, d.tick)
    | none => (d.tick.read p, d.tick)
  writeFile p text d := match d.fault? with
    | some fault => (.error fault.error, d.tick.setText p fault.residue)
    | none => d.tick.write p text
  createDirectory p o d := match d.fault? with
    | some fault => (.error fault.error, d.tick)
    | none => (.ok (), d.tick.makeDirectory p o)
  getMetadata p d := match d.fault? with
    | some fault => (.error fault.error, d.tick)
    | none => (d.tick.metadata p, d.tick)
  remove p _ d := match d.fault? with
    | some fault => (.error fault.error, if fault.removed then d.tick.setText p none else d.tick)
    | none => d.tick.removeText p

@[simp] theorem texts_setText (d : TextDisk) (p : AbsolutePathBuf) (text : Option String) :
    (d.setText p text).texts = Function.update d.texts p text := by
  funext q
  by_cases hq : q = p
  · subst q
    cases text <;> simp [texts, setText]
  · cases text <;> simp [texts, setText, hq]

@[simp] theorem texts_tick (d : TextDisk) : d.tick.texts = d.texts := rfl

@[simp] theorem texts_makeDirectory (d : TextDisk) (p : AbsolutePathBuf)
    (o : CreateDirectoryOptions) : (d.makeDirectory p o).texts = d.texts := rfl

theorem fault_error_ne_notFound (fault : Fault) : fault.error.kind ≠ .notFound := by
  obtain ⟨kind, residue, removed⟩ := fault
  cases kind <;> simp [Fault.error, FaultKind.toErrorKind]

variable {p q : AbsolutePathBuf} {d : TextDisk}

theorem read_ok {text : String} (h : d.read p = .ok text) : d.texts p = some text := by
  unfold read at h
  split at h
  · simp_all [texts]
  · split at h <;> cases h

theorem read_error {e : IoError} (h : d.read p = .error e) : d.texts p = none := by
  unfold read at h
  split at h
  · cases h
  · simpa [texts]

theorem write_ok {text : String} (h : (d.write p text).1 = .ok ()) :
    (d.write p text).2.texts = Function.update d.texts p (some text) := by
  unfold write at h ⊢
  split_ifs at h ⊢
  split at h
  · cases h
  · split_ifs at h ⊢
    simp

theorem write_frame (text : String) (d : TextDisk) (hq : q ≠ p) :
    (d.write p text).2.texts q = d.texts q := by
  unfold write
  split_ifs
  · rfl
  · split
    · rfl
    · split_ifs <;> simp [hq]

theorem removeText_ok (h : (d.removeText p).1 = .ok ()) :
    (d.removeText p).2.texts = Function.update d.texts p none := by
  unfold removeText at h ⊢
  split_ifs at h ⊢
  simp

theorem removeText_frame (d : TextDisk) (hq : q ≠ p) : (d.removeText p).2.texts q = d.texts q := by
  unfold removeText
  split_ifs <;> simp [hq]

/-- Whatever its schedule of failures, the disk keeps the promises of the interface. -/
theorem lawful : Lawful fileSystem texts where
  read_view p d := by cases hf : d.fault? <;> simp [fileSystem, hf]
  read_ok p d text h := by
    cases hf : d.fault? with
    | some fault => simp [fileSystem, hf] at h
    | none => exact read_ok (d := d.tick) (by simpa [fileSystem, hf] using h)
  read_notFound p d e h hk := by
    cases hf : d.fault? with
    | some fault =>
      have he : fault.error = e := by simpa [fileSystem, hf] using h
      exact absurd (he ▸ hk) (fault_error_ne_notFound fault)
    | none => exact read_error (d := d.tick) (by simpa [fileSystem, hf] using h)
  metadata_view p d := by cases hf : d.fault? <;> simp [fileSystem, hf]
  createDirectory_view p o d := by cases hf : d.fault? <;> simp [fileSystem, hf]
  write_ok p text d h := by
    cases hf : d.fault? with
    | some fault => simp [fileSystem, hf] at h
    | none =>
      simpa [fileSystem, hf] using write_ok (d := d.tick) (by simpa [fileSystem, hf] using h)
  write_frame p text d q hq := by
    cases hf : d.fault? with
    | some fault => simp [fileSystem, hf, hq]
    | none => simpa [fileSystem, hf] using write_frame text d.tick hq
  remove_ok p o d h := by
    cases hf : d.fault? with
    | some fault => simp [fileSystem, hf] at h
    | none =>
      simpa [fileSystem, hf] using removeText_ok (d := d.tick) (by simpa [fileSystem, hf] using h)
  remove_frame p o d q hq := by
    cases hf : d.fault? with
    | some fault => cases hr : fault.removed <;> simp [fileSystem, hf, hr, hq]
    | none => simpa [fileSystem, hf] using removeText_frame d.tick hq
  remove_self p o d := by
    cases hf : d.fault? with
    | some fault => cases hr : fault.removed <;> simp [fileSystem, hf, hr]
    | none =>
      simp only [fileSystem, hf, removeText]
      split_ifs <;> simp

end TextDisk
end DeepseekX.ExecutorFileSystems
