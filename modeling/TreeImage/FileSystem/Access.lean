import TreeImage.FileSystem.Calls
import TreeImage.Program.Basic

set_option autoImplicit false

/-! # Programs on a file system

`Files` is the interface through which programs reach a file system, and `FileSystem.answer` its
handler: one call is one atomic step. A question changes nothing, and neither does a refused change. -/

namespace TreeImage

/-! ## The calls -/

/-- What a program can ask of a file system. -/
inductive FileCall
  | realPath (p : Path)
  | inspect (followLast : Bool) (p : Path)
  | read (p : Path)
  | makeDirectory (p : Path)
  | createTemporary (directory : Path) (name : Name)
  | writeOpen (place : RealPath) (content : Bytes)
  | flush (place : RealPath)
  | setMode (p : Path) (mode : UInt32)
  | rename (p q : Path)
  | remove (p : Path)
  deriving DecidableEq, Repr

/-- What comes back. -/
def FileCall.Reply : FileCall → Type
  | .realPath _ => Except Refusal Path
  | .inspect _ _ => Except Refusal NodeInfo
  | .read _ => Except Refusal Bytes
  | .makeDirectory _ => Except Refusal Unit
  | .createTemporary _ _ => Except FileSystem.Fault (Path × RealPath)
  | .writeOpen _ _ => Unit
  | .flush _ => Unit
  | .setMode _ _ => Except Refusal Unit
  | .rename _ _ => Except Refusal Unit
  | .remove _ => Except Refusal Unit

/-- The interface of a file system. -/
def Files : Interface := ⟨FileCall, FileCall.Reply⟩

/-! ## The answers -/

namespace FileSystem

/-- The reply to a change, and the file system after it. -/
def settle (fs : FileSystem) : Except Refusal FileSystem → Except Refusal Unit × FileSystem
  | .ok fs' => (.ok (), fs')
  | .error e => (.error e, fs)

/-- Answer one call. -/
def answer : (c : FileCall) → FileSystem → FileCall.Reply c × FileSystem
  | .realPath p, fs => (fs.realPath p, fs)
  | .inspect followLast p, fs => (fs.inspect followLast p, fs)
  | .read p, fs => (fs.read p, fs)
  | .makeDirectory p, fs => fs.settle (fs.makeDirectory p)
  | .createTemporary directory name, fs =>
    match fs.createTemporary directory name with
    | .ok (made, fs') => (.ok made, fs')
    | .error e => (.error e, fs)
  | .writeOpen place content, fs => ((), fs.writeOpen place content)
  | .flush _, fs => ((), fs)
  | .setMode p mode, fs => fs.settle (fs.setMode p mode)
  | .rename p q, fs => fs.settle (fs.rename p q)
  | .remove p, fs => fs.settle (fs.remove p)

/-- Run a program alone on a file system. -/
def perform {α : Type} (fs : FileSystem) (p : Program Files α) : α × FileSystem :=
  p.run (I := Files) answer fs

end FileSystem

/-! ## The calls as programs -/

namespace Files

/-- The real spelling of the place that a path leads to. -/
def realPath (p : Path) : Program Files (Except Refusal Path) := .call (I := Files) (.realPath p) .done

/-- What stands at a path, with a link at its end followed. -/
def inspect (p : Path) : Program Files (Except Refusal NodeInfo) :=
  .call (I := Files) (.inspect true p) .done

/-- What stands at a path, be it a link. -/
def inspectLink (p : Path) : Program Files (Except Refusal NodeInfo) :=
  .call (I := Files) (.inspect false p) .done

/-- Whether a path leads to a directory. -/
def isDirectory (p : Path) : Program Files Bool := do
  match ← inspect p with
  | .ok i => return i.isDirectory
  | .error _ => return false

/-- The content of the file at a path. -/
def read (p : Path) : Program Files (Except Refusal Bytes) := .call (I := Files) (.read p) .done

/-- Make one directory. -/
def makeDirectory (p : Path) : Program Files (Except Refusal Unit) :=
  .call (I := Files) (.makeDirectory p) .done

/-- Make an empty file under a fresh name. -/
def createTemporary (directory : Path) (name : Name) :
    Program Files (Except FileSystem.Fault (Path × RealPath)) :=
  .call (I := Files) (.createTemporary directory name) .done

/-- Give an open file its content. -/
def writeOpen (place : RealPath) (content : Bytes) : Program Files Unit :=
  .call (I := Files) (.writeOpen place content) .done

/-- Wait until an open file is on the disk. -/
def flush (place : RealPath) : Program Files Unit := .call (I := Files) (.flush place) .done

/-- Set a mode. -/
def setMode (p : Path) (mode : UInt32) : Program Files (Except Refusal Unit) :=
  .call (I := Files) (.setMode p mode) .done

/-- Move an entry. -/
def rename (p q : Path) : Program Files (Except Refusal Unit) :=
  .call (I := Files) (.rename p q) .done

/-- Remove an entry that is no directory. -/
def remove (p : Path) : Program Files (Except Refusal Unit) := .call (I := Files) (.remove p) .done

end Files

end TreeImage
